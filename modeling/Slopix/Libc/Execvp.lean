import Slopix.Kernel.ExecStack

/-!
# From `execvp` to `main`

`execvp` of `libc/stdlib.c` joins its arguments to one line, `vmm_copyinstr` copies the line into the
kernel and `sys_exec` splits it again. There is no quoting, and both sides cut what is too long:
`Passes` says which vectors survive. The first string of the new vector is the resolved path, whatever
`argv[0]` is.
-/

namespace Slopix.Libc

open Lib Mm Fs Kernel List

/-- A string of C: bytes without a zero. -/
structure CString where
  bytes : List UInt8
  nonzero : 0 ∉ bytes

/-- The text `/bin/`. -/
def binDir : List UInt8 := [47, 98, 105, 110, 47]

/-- The path `execvp` uses: `file` itself, or what `snprintf` leaves of `/bin/` and `file` in 256
bytes. -/
def resolvePath (file : List UInt8) : List UInt8 :=
  if slash ∈ file then file else (binDir ++ file).take 255

/-- `while (*p && pos < 2047) cmdline[pos++] = *p++`. -/
def append (line bs : List UInt8) : List UInt8 := line ++ bs.take (2047 - line.length)

/-- The command line of `execvp`. -/
def cmdline (file : List UInt8) (args : List (List UInt8)) : List UInt8 :=
  args.foldl (fun line arg => append (append line [32]) arg) (append [] (resolvePath file))

/-- The strings from `argv[1]` on. In an empty vector `argv[1]` is behind the closing null, and the
loop reads whatever strings stand there. -/
def execvpArgs (argv beyond : List CString) : List (List UInt8) :=
  match argv with
  | [] => beyond.map CString.bytes
  | _ :: args => args.map CString.bytes

/-- The vectors that joining and splitting preserve. -/
structure Passes (argv : List (List UInt8)) : Prop where
  word : ∀ arg ∈ argv, arg ≠ [] ∧ 32 ∉ arg
  count : argv.length ≤ 64
  size : stringsSize argv ≤ 2048

/-! ## Joining -/

section

/-- The strings with a space between them. -/
def join (path : List UInt8) (args : List (List UInt8)) : List UInt8 :=
  path ++ args.flatMap (32 :: ·)

theorem append_take (xs bs : List UInt8) :
    append (xs.take 2047) bs = (xs ++ bs).take 2047 := by
  unfold append
  rw [take_append, length_take]
  congr 2
  omega

theorem cmdline_eq (file : List UInt8) (args : List (List UInt8)) :
    cmdline file args = (join (resolvePath file) args).take 2047 := by
  have hloop : ∀ (args : List (List UInt8)) (xs : List UInt8),
      args.foldl (fun line arg => append (append line [32]) arg) (xs.take 2047) =
        (xs ++ args.flatMap (32 :: ·)).take 2047 := by
    intro args
    induction args with
    | nil =>
      intro xs
      rw [flatMap_nil, append_nil, foldl_nil]
    | cons arg args ih =>
      intro xs
      rw [foldl_cons, append_take, append_take, ih, flatMap_cons]
      simp only [append_assoc, cons_append, nil_append]
  have hstart : append [] (resolvePath file) = (resolvePath file).take 2047 := by
    unfold append
    rw [nil_append, length_nil]
  unfold cmdline join
  rw [hstart, hloop]

theorem length_join (path : List UInt8) (args : List (List UInt8)) :
    (join path args).length + 1 = stringsSize (path :: args) := by
  unfold join stringsSize
  rw [length_append, List.length_flatMap, map_cons, sum_cons]
  simp only [length_cons]
  omega

end

/-! ## Splitting -/

section

theorem words_cons {n : Nat} {w rest : List UInt8} (hw : w ≠ []) (h32 : 32 ∉ w)
    (hrest : rest = [] ∨ ∃ cs, rest = 32 :: cs) : words (n + 1) (w ++ rest) = w :: words n rest := by
  obtain ⟨c, cs, rfl⟩ := exists_cons_of_ne_nil hw
  have hc : c ≠ 32 := fun e => h32 (e ▸ mem_cons_self)
  have hall : ∀ x ∈ c :: cs, (x != 32) = true := by
    intro x hx
    rw [bne_iff_ne]
    rintro rfl
    exact h32 hx
  have hdrop : ((c :: cs) ++ rest).dropWhile (· == 32) = (c :: cs) ++ rest := by
    rw [cons_append, dropWhile_cons_of_neg (by simpa using hc)]
  have htake : ((c :: cs) ++ rest).takeWhile (· != 32) = c :: cs ∧
      ((c :: cs) ++ rest).dropWhile (· != 32) = rest := by
    rw [takeWhile_append_of_pos hall, dropWhile_append_of_pos hall]
    rcases hrest with rfl | ⟨ds, rfl⟩
    · exact ⟨append_nil _, rfl⟩
    · exact ⟨append_nil _, rfl⟩
  rw [words, hdrop]
  show ((c :: cs) ++ rest).takeWhile (· != 32) ::
    words n (((c :: cs) ++ rest).dropWhile (· != 32)) = _
  rw [htake.1, htake.2]

theorem words_space (n : Nat) (cs : List UInt8) : words n (32 :: cs) = words n cs := by
  cases n with
  | zero => rfl
  | succ n =>
    rw [words, words, dropWhile_cons_of_pos rfl]

theorem words_join {n : Nat} {w : List UInt8} {ws : List (List UInt8)}
    (hclean : ∀ x ∈ w :: ws, x ≠ [] ∧ 32 ∉ x) (hn : (w :: ws).length ≤ n) :
    words n (join w ws) = w :: ws := by
  induction ws generalizing n w with
  | nil =>
    obtain ⟨n, rfl⟩ : ∃ n', n = n' + 1 := Nat.exists_eq_succ_of_ne_zero (by
      rintro rfl
      cases hn)
    obtain ⟨hne, h32⟩ := hclean w mem_cons_self
    unfold join
    rw [flatMap_nil, words_cons hne h32 (Or.inl rfl)]
    cases n with
    | zero => rfl
    | succ n => rfl
  | cons x ws ih =>
    obtain ⟨n, rfl⟩ : ∃ n', n = n' + 1 := Nat.exists_eq_succ_of_ne_zero (by
      rintro rfl
      cases hn)
    obtain ⟨hne, h32⟩ := hclean w mem_cons_self
    have hnext := ih (n := n) (w := x) (fun y hy => hclean y (mem_cons_of_mem w hy))
      (Nat.le_of_succ_le_succ hn)
    unfold join at hnext ⊢
    rw [flatMap_cons, cons_append, words_cons hne h32 (Or.inr ⟨_, rfl⟩), words_space, hnext]

theorem words_cmdline_iff (file : List UInt8) (args : List (List UInt8)) :
    words 64 (cmdline file args) = resolvePath file :: args ↔ Passes (resolvePath file :: args) := by
  rw [cmdline_eq]
  generalize resolvePath file = path
  have hlen := length_join path args
  constructor
  · intro h
    have hsize := stringsSize_words 64 ((join path args).take 2047)
    have hdrop := (dropWhile_sublist (· == 32) (l := (join path args).take 2047)).length_le
    have hcount := length_words_le 64 ((join path args).take 2047)
    rw [h] at hsize hcount
    have htake := length_take_le 2047 (join path args)
    refine ⟨fun arg harg => ?_, hcount, by omega⟩
    have hmem := mem_words (h ▸ harg)
    exact ⟨hmem.1, hmem.2.1⟩
  intro h
  have hsize := h.size
  rw [take_of_length_le (by omega)]
  exact words_join h.word h.count

end

/-! ## The way of the arguments -/

section

variable {b : Machine} {k k' : Kern} {p va : Nat} {r : Int} {file : CString}
  {argv beyond : List CString}

/-- A program that `execvp` starts finds the words of the line. -/
theorem execvp_started (hk : b.Reachable (fun _ _ => True) k) (hp : k.alive p)
    (hline : HasString k.mm (k.procs p).pagetable va (cmdline file.bytes (execvpArgs argv beyond)))
    (hcall : syscall p (.exec (vmmCopyinstr k.mm (k.procs p).pagetable va 2048)) k = .ok (r, k'))
    (hstart : 0 ≤ r) :
    Started k' p r (words 64 (cmdline file.bytes (execvpArgs argv beyond))) := by
  obtain ⟨k0, hboot, hreach⟩ := hk
  have hK := frameSet_managed b False
  have howned : Owned ⟨b.managed, False⟩ k 0 b.kernelFrames :=
    hreach.invariant (owned_boot b False hboot) fun _ _ _ h _ hs =>
      (owned_step hK h (fun hf => hf.elim) hs).1
  have hlen : (cmdline file.bytes (execvpArgs argv beyond)).length ≤ 2047 := by
    rw [cmdline_eq]
    exact length_take_le _ _
  rw [vmmCopyinstr_eq hline hlen] at hcall
  exact (sysExec_started hK howned hp hline.nonzero hlen).ok r k' hcall hstart

/-- The arguments of a program that `execvp` starts. In every state of every run, when the process has
stored its command line and the call starts a program, the vector the program finds is the list of
the first 64 words of the line, and it is the resolved path with `argv[1]`, `argv[2]`, … exactly when
these strings are words, at most 64, that fit into the line. -/
theorem execvp_argv (hk : b.Reachable (fun _ _ => True) k) (hp : k.alive p)
    (hline : HasString k.mm (k.procs p).pagetable va (cmdline file.bytes (execvpArgs argv beyond)))
    (hcall : syscall p (.exec (vmmCopyinstr k.mm (k.procs p).pagetable va 2048)) k = .ok (r, k'))
    (hstart : 0 ≤ r) :
    Started k' p r (words 64 (cmdline file.bytes (execvpArgs argv beyond))) ∧
      (Started k' p r (resolvePath file.bytes :: execvpArgs argv beyond) ↔
        Passes (resolvePath file.bytes :: execvpArgs argv beyond)) := by
  have hwords := execvp_started hk hp hline hcall hstart
  refine ⟨hwords, ?_⟩
  rw [← words_cmdline_iff]
  constructor
  · intro h
    exact hwords.argv.unique h.argv (Int.ofNat.inj (hwords.argc.symm.trans h.argc))
  · intro h
    rw [← h]
    exact hwords

end

/-! ## Two command lines -/

/-- The text `initramfs:/`. -/
def initPath : CString := ⟨initramfsPrefix ++ [47], by decide⟩

/-- The text `a`. -/
def argA : CString := ⟨[97], by decide⟩

/-- The text `a b`. -/
def argAB : CString := ⟨[97, 32, 98], by decide⟩

/-- A vector that arrives: `execvp("initramfs:/", {"initramfs:/", "a"})`. -/
theorem execvp_argv_small : ∃ k k' va, smallMachine.Reachable (fun _ _ => True) k ∧ k.alive 0 ∧
    HasString k.mm (k.procs 0).pagetable va (cmdline initPath.bytes (execvpArgs [initPath, argA] [])) ∧
    syscall 0 (.exec (vmmCopyinstr k.mm (k.procs 0).pagetable va 2048)) k = .ok (2, k') ∧
    Started k' 0 2 [initPath.bytes, argA.bytes] := by
  obtain ⟨k, k', va, hk, hp, hline, hcall⟩ := small_exec
    (cmdline initPath.bytes (execvpArgs [initPath, argA] [])) [argA.bytes]
    (by decide) (by decide) (by decide)
  refine ⟨k, k', va, hk, hp, hline, hcall, ?_⟩
  exact ((execvp_argv hk hp hline hcall (by decide)).2).2 ⟨by decide, by decide, by decide⟩

/-- A vector that does not arrive: `execvp("initramfs:/", {"a", "a b"})` starts the program with
`{"initramfs:/", "a", "b"}`. -/
theorem execvp_argv_split : ∃ k k' va, smallMachine.Reachable (fun _ _ => True) k ∧ k.alive 0 ∧
    HasString k.mm (k.procs 0).pagetable va (cmdline initPath.bytes (execvpArgs [argA, argAB] [])) ∧
    syscall 0 (.exec (vmmCopyinstr k.mm (k.procs 0).pagetable va 2048)) k = .ok (3, k') ∧
    Started k' 0 3 [initPath.bytes, [97], [98]] ∧
    ¬ Started k' 0 3 [argA.bytes, argAB.bytes] := by
  obtain ⟨k, k', va, hk, hp, hline, hcall⟩ := small_exec
    (cmdline initPath.bytes (execvpArgs [argA, argAB] [])) [[97], [98]]
    (by decide) (by decide) (by decide)
  refine ⟨k, k', va, hk, hp, hline, hcall, ?_, fun h => ?_⟩
  · have h := execvp_started hk hp hline hcall (by decide)
    exact h
  · exact absurd h.argc (by decide)

end Slopix.Libc
