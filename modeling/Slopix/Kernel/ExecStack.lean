import Slopix.Kernel.Argv

/-!
# The stack at the start of a program

What a successful `exec` leaves in the top page of the new stack: the stack pointer, the vector in `x1` and
the tokens of the command line.
-/

namespace Slopix.Kernel

open Lib Mm Fs Ipc List

/-- The tokens of a command line: what spaces separate. -/
def tokens (cmd : List UInt8) : List (List UInt8) := (cmd.splitOn 32).filter (· ≠ [])

section

variable {cmd w : List UInt8}

theorem tokens_space (cmd : List UInt8) : tokens (32 :: cmd) = tokens cmd := by
  unfold tokens
  rw [splitOn_cons_eq_if_modifyHead, if_pos (by decide), filter_cons_of_neg (by simp)]

theorem tokens_dropWhile (cmd : List UInt8) : tokens (cmd.dropWhile (· == 32)) = tokens cmd := by
  induction cmd with
  | nil => rfl
  | cons c cs ih =>
    by_cases hc : c = 32
    · rw [hc, dropWhile_cons_of_pos rfl, ih, tokens_space]
    · rw [dropWhile_cons_of_neg (by simpa using hc)]

theorem tokens_word (hw : w ≠ []) (h32 : 32 ∉ w) : tokens w = [w] := by
  unfold tokens
  rw [splitOn_eq_singleton h32, filter_cons_of_pos (by simpa using hw), filter_nil]

theorem tokens_cons (hw : w ≠ []) (h32 : 32 ∉ w) : tokens (w ++ 32 :: cmd) = w :: tokens cmd := by
  unfold tokens
  rw [splitOn_append_cons_self_of_not_mem h32, filter_cons_of_pos (by simpa using hw)]

/-- The loop of `sys_exec` finds the tokens, up to the number it has room for. -/
theorem words_eq (n : Nat) (cmd : List UInt8) : words n cmd = (tokens cmd).take n := by
  induction n generalizing cmd with
  | zero => rfl
  | succ n ih =>
    rw [words, ← tokens_dropWhile cmd]
    have hstart := head_dropWhile_not (· == (32 : UInt8)) (l := cmd)
    cases hline : cmd.dropWhile (· == 32) with
    | nil => rfl
    | cons c cs =>
      dsimp only
      have hc : c ≠ 32 := by
        have := hstart (by rw [hline]; exact cons_ne_nil c cs)
        simpa [hline] using this
      have hw : (c :: cs).takeWhile (· != 32) ≠ [] := by
        rw [takeWhile_cons_of_pos (by simpa using hc)]
        exact cons_ne_nil _ _
      have h32 : 32 ∉ (c :: cs).takeWhile (· != 32) := fun h =>
        absurd (all_eq_true.1 (all_takeWhile (p := (· != 32))) 32 h) (by decide)
      have hsplit := takeWhile_append_dropWhile (p := (· != (32 : UInt8))) (l := c :: cs)
      have hnext := head_dropWhile_not (· != (32 : UInt8)) (l := c :: cs)
      rw [ih]
      generalize (c :: cs).takeWhile (· != 32) = w at *
      -- the rest of the line is empty or starts with the space that ends the token
      cases hrest : (c :: cs).dropWhile (· != 32) with
      | nil =>
        rw [hrest, append_nil] at hsplit
        rw [← hsplit, tokens_word hw h32]
        simp [tokens]
      | cons d ds =>
        have hd : d = 32 := by
          have := hnext (by rw [hrest]; exact cons_ne_nil d ds)
          simpa [hrest] using this
        rw [hrest, hd] at hsplit
        rw [← hsplit, tokens_cons hw h32, hd, tokens_space, take_succ_cons]

end

section

variable {b : Machine} {k k' : Kern} {p va : Nat} {r : Int} {cmd : List UInt8}

/-- The stack of a program at its start. In every state of every run, when a process executes a command line of
at most 64 tokens and the call starts a program, the program has the number of tokens as its argument count
and in the top page of its stack, apart from each other and above the aligned stack pointer, the vector and
the tokens it points to. -/
theorem exec_stack_laid (hk : b.Reachable (fun _ _ => True) k) (hp : k.alive p)
    (hline : HasString k.mm (k.procs p).pagetable va cmd) (hlen : cmd.length ≤ 2047)
    (hcount : (tokens cmd).length ≤ 64)
    (hcall : syscall p (.exec (vmmCopyinstr k.mm (k.procs p).pagetable va 2048)) k = .ok (r, k'))
    (hstart : 0 ≤ r) : Launched k' p r (tokens cmd) := by
  obtain ⟨k0, hboot, hreach⟩ := hk
  have hK := frameSet_managed b False
  have howned : Owned ⟨b.managed, False⟩ k 0 b.kernelFrames :=
    hreach.invariant (owned_boot b False hboot) fun _ _ _ h _ hs =>
      (owned_step hK h (fun hf => hf.elim) hs).1
  rw [vmmCopyinstr_eq hline hlen] at hcall
  have hlaunched := (sysExec_launched hK howned hp hline.nonzero hlen).ok r k' hcall hstart
  rwa [words_eq, take_of_length_le hcount] at hlaunched

end

/-! ## A program that starts -/

section

variable {k : Kern} {p n : Nat}

/-- A program of the initial RAM file system that needs no page of its own starts. -/
theorem sysExec_run {cmd name : List UInt8} {args : List (List UInt8)} {img : Image} {entry brk : Nat}
    (hfree : k.mm.free = upperFrames n) (hn : n + 20 ≤ frameCount)
    (hwords : words 64 cmd = (initramfsPrefix ++ name) :: args) (himg : k.initramfs name = some img)
    (hload : ∀ pt k, elfLoad img pt k = .ok (some (entry, brk), k)) :
    ∃ k', sysExec p (some cmd) k = .ok (((args.length + 1 : Nat) : Int), k') := by
  obtain ⟨m1, hal, hfree1, hzero, -⟩ := allocPage_upper hfree (by omega)
  obtain ⟨m2, hstack, -⟩ := mapStack_run (k := k.withMm m1) (n := n + 1) hzero hfree1 (by omega)
    fun l hl e => absurd (frame_inj e) (by omega)
  have hget : (Exec.gets fun k => k.initramfs name : KM _) k = .ok (some img, k) :=
    congrArg (fun x => Except.ok (x, k)) himg
  have hinit : execInitramfs name k = .ok (.ok (frame n, entry, brk), k.withMm m1) := by
    unfold execInitramfs
    rw [Exec.bind_ok hget]
    dsimp only
    rw [Exec.bind_ok hal]
    dsimp only
    rw [Exec.bind_ok (hload (frame n) _)]
    rfl
  unfold sysExec
  dsimp only
  rw [hwords]
  dsimp only
  rw [Exec.bind_ok (b := k.procs p) (t := k) rfl, take_left' (by decide), if_pos rfl,
    drop_left' (by decide), Exec.bind_ok hinit]
  dsimp only
  unfold execFinish
  rw [Exec.bind_ok hstack]
  exact ⟨_, rfl⟩

/-- On the small machine the first process starts the program `initramfs:/` with any line. -/
theorem small_exec (line : List UInt8) (args : List (List UInt8)) (hline : 0 ∉ line)
    (hlen : line.length ≤ 2047) (hwords : words 64 line = (initramfsPrefix ++ [47]) :: args) :
    ∃ k k' va, smallMachine.Reachable (fun _ _ => True) k ∧ k.alive 0 ∧
      HasString k.mm (k.procs 0).pagetable va line ∧
      syscall 0 (.exec (vmmCopyinstr k.mm (k.procs 0).pagetable va 2048)) k =
        .ok (((args.length + 1 : Nat) : Int), k') := by
  obtain ⟨k, m, hstarted, hreach, hp, hfree, hstring⟩ := small_store line hline (by omega)
  have hrun := sysExec_run (k := k.withMm m) (p := 0) (hfree.trans hstarted.free) (by decide) hwords (by
    show k.initramfs [47] = some smallImage
    rw [hstarted.initramfs]
    rfl) smallImage_loads
  obtain ⟨k', hrun⟩ := hrun
  refine ⟨_, k', userStack - 4096, hreach, hp, hstring, ?_⟩
  have hcopy := vmmCopyinstr_eq (n := 2048) hstring hlen
  exact (congrArg (fun line => sysExec 0 line _) hcopy).trans hrun

end

/-- The first process starts `initramfs:/` with the argument `a`, written with spaces around it. -/
theorem exec_stack_laid_small : ∃ k k' va, smallMachine.Reachable (fun _ _ => True) k ∧ k.alive 0 ∧
    HasString k.mm (k.procs 0).pagetable va (initramfsPrefix ++ [47, 32, 32, 97, 32]) ∧
    syscall 0 (.exec (vmmCopyinstr k.mm (k.procs 0).pagetable va 2048)) k = .ok (2, k') ∧
    Launched k' 0 2 [initramfsPrefix ++ [47], [97]] := by
  obtain ⟨k, k', va, hk, hp, hline, hcall⟩ := small_exec (initramfsPrefix ++ [47, 32, 32, 97, 32]) [[97]]
    (by decide) (by decide) (by decide)
  have hlaunched := exec_stack_laid hk hp hline (by decide) (by decide) hcall (by decide)
  exact ⟨k, k', va, hk, hp, hline, hcall, hlaunched⟩

end Slopix.Kernel
