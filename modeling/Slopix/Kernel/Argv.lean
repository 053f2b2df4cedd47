import Slopix.Kernel.Conservation
import Slopix.Kernel.UserMem

/-!
# The arguments of a new program

`sys_exec` stores the strings and the argument vector in the top page of the user stack. A program
that starts finds there, at the address in `x1`, the words of its command line.
-/

namespace Slopix.Kernel

open Lib Mm Fs Ipc Multiset Option

/-- Where an address of the top page of the user stack is in that page. -/
def topOff (a : Nat) : Nat := 4096 - (userStack - a)

/-- The room the strings take. -/
def stringsSize (argv : List (List UInt8)) : Nat := (argv.map fun arg => arg.length + 1).sum

/-- The string `s` is at the address `a` of the page, and not below `top`. -/
structure InPage (page : Bytes) (top a : Nat) (s : List UInt8) : Prop where
  nonzero : 0 ∉ s
  ge : top ≤ a
  fits : a + s.length < userStack
  byte : ∀ i ≤ s.length, page (topOff (a + i)) = s.getD i 0

section

variable {page page' : Bytes} {top : Nat}

theorem InPage.congr {top' a : Nat} {s : List UInt8} (h : InPage page top a s) (htop : top' ≤ top)
    (hpage : ∀ o, topOff top ≤ o → page' o = page o) : InPage page' top' a s where
  nonzero := h.nonzero
  ge := htop.trans h.ge
  fits := h.fits
  byte i hi := by
    rw [hpage _ _, h.byte i hi]
    have := h.ge
    unfold topOff
    omega

theorem inPage_putBytes {s : List UInt8} (hs : 0 ∉ s) (htop : userStack - 4096 ≤ top)
    (hfits : top + s.length < userStack) :
    InPage (putBytes page (topOff top) (s ++ [0])) top top s where
  nonzero := hs
  ge := le_refl top
  fits := hfits
  byte i hi := by
    have hoff : topOff (top + i) = topOff top + i := by
      unfold topOff
      omega
    unfold putBytes
    rw [hoff, List.length_append, List.length_singleton, if_pos (by omega), Nat.add_sub_cancel_left]
    rcases lt_or_eq_of_le hi with hi | rfl
    · rw [List.getD_append _ _ _ _ hi]
    · rw [List.getD_append_right _ _ _ _ (Nat.le_refl _), Nat.sub_self]
      simp

theorem pushStrings_spec (page : Bytes) (argv : List (List UInt8)) (hzero : ∀ arg ∈ argv, 0 ∉ arg)
    (h : stringsSize argv ≤ 4096) :
    (pushStrings page argv).2.1 = userStack - stringsSize argv ∧
      (∀ a ∈ (pushStrings page argv).2.2, (pushStrings page argv).2.1 ≤ a ∧ a < userStack) ∧
      List.Forall₂ (InPage (pushStrings page argv).1 (pushStrings page argv).2.1)
        (pushStrings page argv).2.2 argv ∧
      ((pushStrings page argv).2.2.zip argv).Pairwise fun x y => x.1 + x.2.length < y.1 := by
  induction argv with
  | nil => exact ⟨rfl, fun a ha => (by cases ha), List.Forall₂.nil, List.Pairwise.nil⟩
  | cons arg argv ih =>
    have hsize : stringsSize (arg :: argv) = arg.length + 1 + stringsSize argv := by
      unfold stringsSize
      rw [List.map_cons, List.sum_cons]
    obtain ⟨htop, hlt, hstrings, horder⟩ :=
      ih (fun s hs => hzero s (List.mem_cons_of_mem arg hs)) (by omega)
    have hcons : pushStrings page (arg :: argv) =
        let r := pushStrings page argv
        (putBytes r.1 (topOff (r.2.1 - (arg.length + 1))) (arg ++ [0]), r.2.1 - (arg.length + 1),
          (r.2.1 - (arg.length + 1)) :: r.2.2) := rfl
    rw [hcons]
    dsimp only
    have hstack : 4096 < userStack := by decide
    refine ⟨by omega, fun a ha => ?_, List.Forall₂.cons ?_ (hstrings.imp fun a s hs => ?_), ?_⟩
    · rcases List.mem_cons.1 ha with rfl | ha
      · omega
      · have := hlt a ha
        omega
    · exact inPage_putBytes (hzero arg List.mem_cons_self) (by omega) (by omega)
    · refine hs.congr (Nat.sub_le _ _) fun o ho => ?_
      unfold putBytes topOff at *
      rw [List.length_append, List.length_singleton, if_neg (by omega)]
    rw [List.zip_cons_cons, List.pairwise_cons]
    refine ⟨fun y hy => ?_, horder⟩
    have := (hlt y.1 (List.of_mem_zip hy).1).1
    dsimp only
    omega

theorem foldl_putLe (page : Bytes) (o : Nat) (v : Nat → Nat) (n : Nat) :
    (∀ x, x < o ∨ o + 8 * n ≤ x →
      (List.range n).foldl (fun b j => putLe 8 b (o + 8 * j) (v j)) page x = page x) ∧
    ∀ j < n, ∀ i < 8, (List.range n).foldl (fun b j => putLe 8 b (o + 8 * j) (v j)) page
      (o + 8 * j + i) = UInt8.ofNat (v j / 256 ^ i) := by
  induction n with
  | zero => exact ⟨fun _ _ => rfl, fun _ hj => absurd hj (Nat.not_lt_zero _)⟩
  | succ n ih =>
    rw [List.range_succ, List.foldl_append, List.foldl_cons, List.foldl_nil]
    constructor
    · intro x hx
      unfold putLe
      rw [if_neg (by omega)]
      exact ih.1 x (by omega)
    intro j hj i hi
    rcases Nat.lt_succ_iff_lt_or_eq.1 hj with hj | rfl
    · unfold putLe
      rw [if_neg (by omega)]
      exact ih.2 j hj i hi
    · unfold putLe
      rw [if_pos (by omega), Nat.add_sub_cancel_left]

end

section

variable {m : PhysMem} {pt pa : Nat}

theorem userByte_top (hmap : validatePage m pt (userStack - 4096) = some pa) {a : Nat}
    (hge : userStack - 4096 ≤ a) (hlt : a < userStack) :
    userByte m pt a = some (m.page pa (topOff a)) := by
  have hpage : validatePage m pt a = some pa := by
    rw [← hmap]
    apply validatePage_page
    unfold userStack at *
    omega
  have hoff : a % 4096 = topOff a := by
    unfold topOff userStack at *
    omega
  unfold userByte
  rw [hpage, map_some, hoff]

/-- The top page of the stack at the start of a program: from the stack pointer upwards the vector, its
closing null and the strings it points to, none on top of another. -/
structure Laid (m : PhysMem) (pt sp va : Nat) (argv : List (List UInt8)) (ptrs : List Nat) : Prop where
  strings : List.Forall₂ (HasString m pt) ptrs argv
  vector : ∀ j ≤ argv.length, HasWord m pt (va + 8 * j) (ptrs.getD j 0)
  page : userStack - 4096 ≤ sp
  aligned : sp % 16 = 0
  below : sp ≤ va
  apart : ∀ a ∈ ptrs, va + 8 * (argv.length + 1) ≤ a
  order : (ptrs.zip argv).Pairwise fun x y => x.1 + x.2.length < y.1
  top : ∀ x ∈ ptrs.zip argv, x.1 + x.2.length < userStack

variable {va : Nat} {argv : List (List UInt8)} {m' : PhysMem}

theorem Laid.hasArgv {sp : Nat} {ptrs : List Nat}
    (h : Laid m pt sp va argv ptrs) : HasArgv m pt va argv := ⟨ptrs, h.strings, h.vector⟩

theorem laid_pushArgv {page : Bytes}
    (hmap : validatePage m pt (userStack - 4096) = some pa) (hpage : m.page pa = (pushArgv page argv).1)
    (hzero : ∀ arg ∈ argv, 0 ∉ arg) (hsize : stringsSize argv ≤ 2048) (hlen : argv.length ≤ 64) :
    ∃ ptrs, Laid m pt ((pushArgv page argv).2 / 16 * 16) (pushArgv page argv).2 argv ptrs := by
  obtain ⟨htop, hlt, hstrings, horder⟩ := pushStrings_spec page argv hzero (by omega)
  have hstack : userStack = 4096 * 2 ^ 36 := by decide
  unfold pushArgv at hpage ⊢
  dsimp only at hpage ⊢
  generalize hr : pushStrings page argv = r at *
  generalize hbase : r.2.1 / 8 * 8 - (argv.length + 1) * 8 = base at *
  obtain ⟨hother, hvec⟩ := foldl_putLe r.1 (4096 - (userStack - base)) (fun j => r.2.2.getD j 0)
    (argv.length + 1)
  have hstr : List.Forall₂ (HasString m pt) r.2.2 argv := by
    refine hstrings.imp fun a s hs => ⟨hs.nonzero, fun i hi => ?_⟩
    have hge := hs.ge
    have hfits := hs.fits
    rw [userByte_top hmap (by omega) (by omega), hpage, hother, hs.byte i hi]
    unfold topOff
    omega
  have hvector : ∀ j ≤ argv.length, HasWord m pt (base + 8 * j) (r.2.2.getD j 0) := by
    refine fun j hj => ⟨?_, fun i hi => ?_⟩
    · by_cases hj : j < r.2.2.length
      · rw [List.getD_eq_getElem _ _ hj]
        have := hlt _ (List.getElem_mem hj)
        omega
      · rw [List.getD_eq_default _ _ (not_lt.1 hj)]
        decide
    rw [userByte_top hmap (by omega) (by omega), hpage]
    have hoff : topOff (base + 8 * j + i) = 4096 - (userStack - base) + 8 * j + i := by
      unfold topOff
      omega
    rw [hoff, hvec j (by omega) i hi]
  refine ⟨r.2.2, hstr, hvector, by omega, Nat.mul_mod_left _ _, Nat.div_mul_le_self _ _,
    fun a ha => ?_, horder, fun x hx => ((List.forall₂_iff_zip.1 hstrings).2 hx).fits⟩
  have := (hlt a ha).1
  omega

/-- A mapped address is in a user page of the address space. -/
theorem validatePage_mem (h : validatePage m pt va = some pa) : pa ∈ pages m 4 pt := by
  obtain ⟨-, e, he, -, rfl⟩ := validatePage_eq_some.1 h
  exact userEntry_mem he

theorem HasString.congr {s : List UInt8} (h : HasString m pt va s)
    (hb : ∀ a c, userByte m pt a = some c → userByte m' pt a = some c) : HasString m' pt va s :=
  ⟨h.nonzero, fun i hi => hb _ _ (h.byte i hi)⟩

/-- The stack stays while the bytes of the address space stay. -/
theorem Laid.congr {sp : Nat} {ptrs : List Nat}
    (h : Laid m pt sp va argv ptrs) (hb : ∀ a c, userByte m pt a = some c → userByte m' pt a = some c) :
    Laid m' pt sp va argv ptrs where
  strings := h.strings.imp fun _ _ hs => hs.congr hb
  vector j hj := ⟨(h.vector j hj).lt, fun i hi => hb _ _ ((h.vector j hj).byte i hi)⟩
  page := h.page
  aligned := h.aligned
  below := h.below
  apart := h.apart
  order := h.order
  top := h.top

theorem userByte_congr (h : ∀ x ∈ space m pt, m'.page x = m.page x) {a : Nat}
    {c : UInt8} (hc : userByte m pt a = some c) : userByte m' pt a = some c := by
  obtain ⟨pa, hpa, rfl⟩ := map_eq_some_iff.1 hc
  have hmaps := keepsMaps_of_tables fun x hx => h x (mem_of_le (tables_le_space m pt) hx)
  have hmem : pa ∈ space m pt := by
    unfold space
    rw [← tables_add_pages]
    exact mem_add.2 (Or.inr (validatePage_mem hpa))
  unfold userByte
  rw [hmaps a pa hpa, map_some, h pa hmem]

end

/-! ## Words -/

section

theorem length_words_le (n : Nat) (cmd : List UInt8) : (words n cmd).length ≤ n := by
  induction n generalizing cmd with
  | zero => exact le_refl 0
  | succ n ih =>
    rw [words]
    split
    · exact Nat.zero_le _
    · rw [List.length_cons]
      exact Nat.succ_le_succ (ih _)

theorem mem_words {n : Nat} {cmd w : List UInt8} (hw : w ∈ words n cmd) :
    w ≠ [] ∧ 32 ∉ w ∧ ∀ c ∈ w, c ∈ cmd := by
  induction n generalizing cmd with
  | zero => cases hw
  | succ n ih =>
    rw [words] at hw
    split at hw
    · cases hw
    rename_i rest hne
    have hsub : ∀ c ∈ cmd.dropWhile (· == 32), c ∈ cmd := fun c hc =>
      (List.dropWhile_sublist _).subset hc
    rcases List.mem_cons.1 hw with rfl | hw
    · refine ⟨?_, ?_, fun c hc => hsub c ((List.takeWhile_sublist _).subset hc)⟩
      · cases hcmd : cmd.dropWhile (· == 32) with
        | nil => exact absurd hcmd hne
        | cons c cs =>
          have hc : ¬ (c == 32) = true := by
            have := List.head_dropWhile_not (· == 32) (l := cmd) (by rw [hcmd]; exact List.cons_ne_nil c cs)
            simpa [hcmd] using this
          rw [List.takeWhile_cons_of_pos (by simpa using hc)]
          exact List.cons_ne_nil _ _
      · intro h32
        have hall := List.all_eq_true.1 (List.all_takeWhile (p := (· != 32))) 32 h32
        exact absurd hall (by decide)
    · obtain ⟨hne', h32, hmem⟩ := ih hw
      exact ⟨hne', h32, fun c hc => hsub c ((List.dropWhile_sublist _).subset (hmem c hc))⟩

/-- The words of a line and the bytes between them fit into the line. -/
theorem stringsSize_words (n : Nat) (cmd : List UInt8) :
    stringsSize (words n cmd) ≤ (cmd.dropWhile (· == 32)).length + 1 := by
  induction n generalizing cmd with
  | zero => exact Nat.zero_le _
  | succ n ih =>
    rw [words]
    split
    · exact Nat.zero_le _
    generalize cmd.dropWhile (· == 32) = line
    have hlen : (line.takeWhile (· != 32)).length + (line.dropWhile (· != 32)).length =
        line.length := by
      rw [← List.length_append, List.takeWhile_append_dropWhile]
    have hrest : stringsSize (words n (line.dropWhile (· != 32))) ≤
        (line.dropWhile (· != 32)).length := by
      cases hline : line.dropWhile (· != 32) with
      | nil =>
        have hnil : words n [] = [] := by
          cases n with
          | zero => rfl
          | succ n => rfl
        rw [hnil]
        exact Nat.zero_le _
      | cons c cs =>
        -- the rest starts with the space that ended the word
        have hc : c = 32 := by
          have := List.head_dropWhile_not (· != 32) (l := line) (by rw [hline]; exact List.cons_ne_nil c cs)
          simpa [hline] using this
        have hle := ih (c :: cs)
        rw [hc, List.dropWhile_cons_of_pos rfl] at hle
        have hcs := (List.dropWhile_sublist (· == 32) (l := cs)).length_le
        rw [hc, List.length_cons]
        omega
    have hsize : stringsSize (line.takeWhile (· != 32) :: words n (line.dropWhile (· != 32))) =
        (line.takeWhile (· != 32)).length + 1 +
          stringsSize (words n (line.dropWhile (· != 32))) := rfl
    omega

end

/-! ## The end of `sys_exec` -/

/-- The program of process `p` finds `argc` and the vector `argv` in its registers and its memory. -/
structure Started (k : Kern) (p : Nat) (argc : Int) (argv : List (List UInt8)) : Prop where
  argc : argc = argv.length
  argv : HasArgv k.mm (k.procs p).pagetable ((k.procs p).tf.regs 1) argv

/-- The stack and the registers of a program at its start. -/
structure Launched (k : Kern) (p : Nat) (argc : Int) (argv : List (List UInt8)) : Prop where
  argc : argc = argv.length
  laid : ∃ ptrs, Laid k.mm (k.procs p).pagetable (k.procs p).tf.spEl0 ((k.procs p).tf.regs 1) argv ptrs

theorem Launched.started {k : Kern} {p : Nat} {argc : Int} {argv : List (List UInt8)}
    (h : Launched k p argc argv) : Started k p argc argv := by
  obtain ⟨ptrs, hlaid⟩ := h.laid
  exact ⟨h.argc, hlaid.hasArgv⟩

section

variable {K : Ledger} {H : Multiset Nat} {k k1 : Kern} {p : Nat} (hK : FrameSet K)

include hK

/-- The last part of `exec` leaves the arguments on the new stack. -/
theorem execFinish_launched {pt entry brk : Nat} {argv : List (List UInt8)}
    (h1 : Kept K {pt} H k k1) (hp : k.alive p) (hzero : ∀ arg ∈ argv, 0 ∉ arg)
    (hsize : stringsSize argv ≤ 2048) (hlen : argv.length ≤ 64) :
    Holds (execFinish p pt entry brk argv k1) (fun r k' => 0 ≤ r → Launched k' p r argv)
      fun _ => True := by
  obtain ⟨hlt, hlive⟩ := alive_iff.1 hp
  have hmem : pt ∈ k1.roots + {pt} := mem_add.2 (Or.inr (mem_singleton_self pt))
  refine ((mapStack_spec hK h1.owned hmem).both (mapStack_maps hK h1.owned hmem)).bind
    fun stack k2 ⟨⟨h2, hdata⟩, hmaps⟩ => ?_
  cases stack with
  | none => exact holds_modify_bind (holds_pure fun hr => absurd hr (by decide))
  | some stackPa =>
    have hmap := hmaps stackPa rfl
    have hdata2 : IsData k2.mm (k2.roots + {pt}) stackPa := by
      rw [h2.roots]
      exact hdata stackPa rfl
    apply holds_gets_bind
    apply holds_modify_bind
    beta_reduce
    generalize hm : k2.mm.setPage stackPa (pushArgv (k2.mm.page stackPa) argv).1 = m
    -- the vector is there before the old address space is freed
    obtain ⟨ptrs, hlaid⟩ : ∃ ptrs, Laid m pt ((pushArgv (k2.mm.page stackPa) argv).2 / 16 * 16)
        (pushArgv (k2.mm.page stackPa) argv).2 argv ptrs := by
      refine laid_pushArgv (?_ : _ = some stackPa) ?_ hzero hsize hlen
      · apply keepsMaps_of_tables _ _ _ hmap
        intro x hx
        have hne := hdata2.notMem_tables (h2.owned.good hK) pt (by rw [h2.roots]; exact hmem)
        rw [← hm, PhysMem.setPage_page_of_ne (ne_of_mem_of_not_mem hx hne)]
      · rw [← hm, PhysMem.setPage_page_self]
    have h3 := h2.owned.setPage_data hK hdata2 (pushArgv (k2.mm.page stackPa) argv).1
    rw [hm] at h3
    apply holds_gets_bind
    apply holds_modify_bind
    apply holds_modify_bind
    refine holds_pure fun _ => ⟨rfl, ptrs, ?_⟩
    show Laid (vmmFree m (k2.procs p).pagetable) (((k2.withMm m).setProc p _).procs p).pagetable
      (((k2.withMm m).setProc p _).procs p).tf.spEl0
      ((((k2.withMm m).setProc p _).procs p).tf.regs 1) argv ptrs
    rw [Kern.setProc_procs_self]
    refine hlaid.congr fun a c hc => userByte_congr (fun x hx => ?_) hc
    have hstate : (k2.procs p).state = (k.procs p).state := mem_state ((h1.trans h2).mem p)
    have hold := ((h2.owned.slot p).live (by rw [hstate]; exact hlive)).1
    obtain ⟨rest, hrest⟩ := exists_cons_of_mem (mem_roots hlt hold)
    have hgood : Good m ((k2.procs p).pagetable ::ₘ (rest + {pt})) := by
      rw [← cons_add, ← hrest]
      exact h3.owned.good hK
    apply (vmmFree_spec hgood.sep).2
    exact hgood.notMem_extent (mem_add.2 (Or.inr (mem_singleton_self pt))) hx

/-- The stack of a program that starts holds the words of its command line. -/
theorem sysExec_launched {cmd : List UInt8} (h : Owned K k 0 H) (hp : k.alive p) (hzero : 0 ∉ cmd)
    (hlen : cmd.length ≤ 2047) :
    Holds (sysExec p (some cmd) k) (fun r k' => 0 ≤ r → Launched k' p r (words 64 cmd))
      fun _ => True := by
  have hfail : ∀ e k1, Holds (fail e k1) (fun r k' => 0 ≤ r → Launched k' p r (words 64 cmd))
      fun _ => True := fun e k1 => holds_pure fun hr => absurd hr (by cases e <;> decide)
  have hclean : ∀ w ∈ words 64 cmd, 0 ∉ w := fun w hw h0 => hzero ((mem_words hw).2.2 0 h0)
  have hsize := stringsSize_words 64 cmd
  have hdrop := (List.dropWhile_sublist (· == 32) (l := cmd)).length_le
  have hcount := length_words_le 64 cmd
  unfold sysExec
  dsimp only
  cases hwords : words 64 cmd with
  | nil => exact holds_pure fun hr => absurd hr (by decide)
  | cons arg args =>
    rw [hwords] at hclean hsize hcount hfail
    apply holds_gets_bind
    -- what comes after either loader
    have hload : ∀ after : Except Errno (Nat × Nat × Nat) → KM Int, (∀ e, after (.error e) = fail e) →
        (∀ pt entry brk, after (.ok (pt, entry, brk)) = execFinish p pt entry brk (arg :: args)) →
        ∀ r k1, Loads K H k r k1 →
          Holds (after r k1) (fun r k' => 0 ≤ r → Launched k' p r (arg :: args)) fun _ => True := by
      intro after herror hok r k1 hr
      rcases r with e | ⟨pt, entry, brk⟩
      · rw [herror]
        exact hfail e k1
      · rw [hok]
        exact execFinish_launched hK hr hp hclean (by omega) hcount
    refine holds_ite (fun _ => ?_) fun _ => ?_
    · exact (execInitramfs_spec hK _ h).bind (hload _ (fun _ => rfl) fun _ _ _ => rfl)
    · exact (execInode_spec hK _ _ h).bind (hload _ (fun _ => rfl) fun _ _ _ => rfl)

/-- A program that starts finds the words of its command line. -/
theorem sysExec_started {cmd : List UInt8} (h : Owned K k 0 H) (hp : k.alive p) (hzero : 0 ∉ cmd)
    (hlen : cmd.length ≤ 2047) :
    Holds (sysExec p (some cmd) k) (fun r k' => 0 ≤ r → Started k' p r (words 64 cmd))
      fun _ => True :=
  (sysExec_launched hK h hp hzero hlen).imp fun _ _ hlaunched hr => (hlaunched hr).started

end

/-! ## The stack of the first process -/

/-- The memory and the address spaces stay. -/
def SameSpaces {α : Type} (prog : KM α) : Prop :=
  ∀ k, Holds (prog k) (fun _ k' => k'.mm = k.mm ∧
    ∀ q, (k'.procs q).pagetable = (k.procs q).pagetable) fun _ => True

section

variable {α β : Type}

theorem SameSpaces.bind {prog : KM β} {f : β → KM α} (h : SameSpaces prog)
    (hf : ∀ b, SameSpaces (f b)) : SameSpaces (prog >>= f) := fun k =>
  (h k).bind fun b k1 h1 => (hf b k1).imp fun _ _ h2 =>
    ⟨h2.1.trans h1.1, fun q => (h2.2 q).trans (h1.2 q)⟩

theorem sameSpaces_onFs (prog : FsM α) : SameSpaces (onFs prog) := fun _ =>
  holds_zoom ⟨fun _ _ _ => ⟨rfl, fun _ => rfl⟩, fun _ _ => trivial⟩

theorem sameSpaces_modifyProc (p : Nat) {f : Proc → Proc} (hf : ∀ x, (f x).pagetable = x.pagetable) :
    SameSpaces (modifyProc p f) := by
  intro k
  refine holds_modify ⟨rfl, fun q => ?_⟩
  by_cases hq : q = p
  · rw [hq, Kern.setProc_procs_self, hf]
  · rw [Kern.setProc_procs_of_ne _ _ hq]

theorem sameSpaces_initConsole (p fd : Nat) : SameSpaces (initConsole p fd) := by
  intro k
  apply holds_step_bind
  unfold Kern.filealloc
  cases (List.range nfile).find? fun f => (k.files f).ref == 0 with
  | none => exact holds_pure ⟨rfl, fun _ => rfl⟩
  | some f =>
    apply holds_modify_bind
    refine holds_modify ⟨rfl, fun q => ?_⟩
    dsimp only [Kern.setOfile]
    by_cases hq : q = p
    · rw [hq, Kern.setProc_procs_self]
      rfl
    · rw [Kern.setProc_procs_of_ne _ _ hq]
      rfl

theorem procAlloc_mm {k k' : Kern} {c : Nat} (h : k.procAlloc = (some c, k')) :
    ∃ base, pmmAllocContiguous k.mm kstackPages = some (base, k'.mm) := by
  unfold Kern.procAlloc at h
  split at h
  · cases h
  split at h
  · cases h
  · rename_i base m hal
    injection h with _ h
    exact ⟨base, by rw [hal, ← h]; rfl⟩

variable {K : Ledger} {H : Multiset Nat} {k : Kern} (hK : FrameSet K)

include hK

/-- The first process has a page for its stack. -/
theorem init_stack (program : List UInt8) (h : Owned K k 0 H) (h0 : (k.procs 0).state = .unused) :
    Holds (init program k) (fun _ k' => ∃ pa,
      validatePage k'.mm (k'.procs 0).pagetable (userStack - 4096) = some pa) fun _ => True := by
  refine (allocPage_spec hK h).bind fun pt k1 ⟨h1, hzero, _, _⟩ => ?_
  cases pt with
  | none => exact holds_stop trivial
  | some pt =>
    have hspace : Kept K ({pt} + 0) H k k1 := ⟨h1.owned.create (hzero pt rfl), h1.mem, h1.nextpid⟩
    have hmem : ∀ k' : Kern, pt ∈ k'.roots + ({pt} + 0) := fun k' =>
      mem_add.2 (Or.inr (mem_add.2 (Or.inl (mem_singleton_self pt))))
    refine (initLoad_spec hK program hspace.owned (hmem k1)).bind fun r k2 h2 => ?_
    refine ((mapStack_spec hK h2.owned (hmem k2)).both (mapStack_maps hK h2.owned (hmem k2))).bind
      fun stack k3 ⟨⟨h3, _⟩, hmaps⟩ => ?_
    have hk3 := (hspace.trans h2).trans h3
    cases stack with
    | none => exact holds_stop trivial
    | some pa =>
      apply holds_step_bind
      rcases hres : k3.procAlloc with ⟨_ | p, k4⟩
      · exact holds_stop trivial
      obtain rfl : p = 0 := procAlloc_first hres ((mem_state (hk3.mem 0)).trans h0)
      -- the kernel stack comes from the free list
      have hstack : validatePage k4.mm pt (userStack - 4096) = some pa := by
        obtain ⟨base, hal⟩ := procAlloc_mm hres
        apply keepsMaps_of_tables _ _ _ (hmaps pa rfl)
        intro x hx
        apply (pmmAllocContiguous_spec hal).2
        intro hrun
        apply h3.owned.tables_used hK (hmem k3) x hx
        rw [← mem_coe, (pmmAllocContiguous_spec hal).1]
        exact mem_add.2 (Or.inl hrun)
      apply holds_modify_bind
      refine (sameSpaces_onFs _ _).bind fun root k6 h6 => ?_
      cases root with
      | none => exact holds_stop trivial
      | some root =>
        have hrest : SameSpaces (do
            onFs (ilock root)
            onFs (Fs.iunlock root)
            modifyProc 0 fun x => { x with cwd := some root }
            initConsole 0 0
            initConsole 0 1
            initConsole 0 2) :=
          (sameSpaces_onFs _).bind fun _ => (sameSpaces_onFs _).bind fun _ =>
            (sameSpaces_modifyProc 0 fun _ => by rfl).bind fun _ =>
              (sameSpaces_initConsole 0 0).bind fun _ => (sameSpaces_initConsole 0 1).bind
                fun _ => sameSpaces_initConsole 0 2
        refine (hrest k6).imp fun _ k7 h7 => ⟨pa, ?_⟩
        rw [h7.1, h7.2, h6.1, h6.2, Kern.setProc_procs_self]
        exact hstack

end

theorem boot_stack {b : Machine} {k : Kern} (h : b.boot = .ok ((), k)) :
    ∃ pa, validatePage k.mm (k.procs 0).pagetable (userStack - 4096) = some pa :=
  (init_stack (frameSet_managed b True) b.program (owned_powerOn (virtioQueueInit_spec b)) rfl).ok
    () k h

theorem hasString_store {K : Ledger} {H : Multiset Nat} {k : Kern} {p pa : Nat} {line : List UInt8}
    (hK : FrameSet K) (h : Owned K k 0 H) (hp : k.alive p) (hline : 0 ∉ line)
    (hlen : line.length < 4096)
    (hpa : validatePage k.mm (k.procs p).pagetable (userStack - 4096) = some pa) :
    HasString (k.mm.setPage pa (putBytes (fun _ => 0) 0 line)) (k.procs p).pagetable
      (userStack - 4096) line := by
  obtain ⟨hlt, hlive⟩ := alive_iff.1 hp
  have hroot : (k.procs p).pagetable ∈ k.roots + 0 := by
    rw [add_zero]
    exact mem_roots hlt ((h.slot p).live hlive).1
  have hdata : IsData k.mm (k.roots + 0) pa := ⟨_, hroot, validatePage_mem hpa⟩
  refine ⟨hline, fun i hi => ?_⟩
  have hmap : validatePage (k.mm.setPage pa (putBytes (fun _ => 0) 0 line)) (k.procs p).pagetable
      (userStack - 4096) = some pa := by
    apply keepsMaps_of_tables _ _ _ hpa
    intro x hx
    exact PhysMem.setPage_page_of_ne
      (ne_of_mem_of_not_mem hx (hdata.notMem_tables (h.good hK) _ hroot)) _
  have hstack : 4096 ≤ userStack := by decide
  rw [userByte_top hmap (by omega) (by omega), PhysMem.setPage_page_self]
  have hoff : topOff (userStack - 4096 + i) = i := by
    unfold topOff
    omega
  unfold putBytes
  rw [hoff]
  split
  · rfl
  · rw [List.getD_eq_default _ _ (by omega)]

/-- On the small machine the first process can store any line that fits in a page. -/
theorem small_store (line : List UInt8) (hline : 0 ∉ line) (hlen : line.length < 4096) :
    ∃ k0 m, smallMachine.Started 256 4096 k0 ∧ smallMachine.Reachable (fun _ _ => True) (k0.withMm m) ∧
      (k0.withMm m).alive 0 ∧ m.free = k0.mm.free ∧
      HasString m (k0.procs 0).pagetable (userStack - 4096) line := by
  obtain ⟨k, hboot, hstarted⟩ := boot_bare smallMachine_bare
  have hp : k.alive 0 := by
    unfold Kern.alive
    rw [hstarted.state]
    decide
  obtain ⟨pa, hpa⟩ := boot_stack hboot
  have hstring := hasString_store (frameSet_managed smallMachine True) (owned_boot smallMachine True hboot)
    hp hline hlen hpa
  exact ⟨k, _, hstarted, ⟨k, hboot, Reach.start.step trivial (Step.store hp (validatePage_mem hpa) _)⟩,
    hp, rfl, hstring⟩

end Slopix.Kernel
