import Mathlib.Tactic.IntervalCases
import Slopix.Cc.Frame

/-!
# The stack discipline

Every line of a function has an assertion about the state in front of it: in the prologue and the epilogue
the weakest precondition of the lines that follow, between them that `sp` is where the push depth of the line
says. Steps keep the assertions, except for a jump to a label of the program that was printed at another
depth: the epilogue adds to `sp` and does not take it from the frame pointer.
-/

namespace Slopix.Cc

open List

/-! ## Depths of lines -/

/-- The depth at a line, or at the end. -/
def depthAt (l : List Item) (d' : Int) (k : Nat) : Int := ((l[k]?).map Item.depth).getD d'

section

variable {l : List Item} {d d' : Int} {k : Nat} {i : Item}

theorem depthAt_of_get (h : l[k]? = some i) : depthAt l d' k = i.depth := by simp [depthAt, h]

theorem Threaded.depth_zero (h : Threaded d l d') : depthAt l d' 0 = d := by
  cases h with
  | nil => rfl
  | cons => rfl

theorem Threaded.get (h : Threaded d l d') (hi : l[k]? = some i) :
    i.insn.spMove = some (16 * (i.depth - depthAt l d' (k + 1))) ∧ i.insn.KeepsFrame := by
  induction h generalizing k with
  | nil => simp at hi
  | @cons d d1 d' i0 l hmove hkeep h ih =>
    cases k with
    | zero =>
      obtain rfl : ⟨d, i0⟩ = i := by simpa using hi
      have hnext : depthAt (⟨d, i0⟩ :: l) d' (0 + 1) = d1 := h.depth_zero
      rw [hnext]
      exact ⟨hmove, hkeep⟩
    | succ k => exact ih hi

end

/-! ## Assertions -/

/-- The frame record of a function that was entered with this `sp`. -/
def frameRecord (sp : Int) : Mach → Int → Prop := fun _ b => sp - 16 ≤ b ∧ b < sp

section

variable {fn : Fn} {entry m m' : Mach} {d : Int} {code body : List Item} {n n' : Nat}

/-- The state at a push depth. -/
structure AtDepth (fn : Fn) (entry : Mach) (d : Int) (m : Mach) : Prop where
  sp : m.sp = entry.sp - 16 - fn.stackSize - 16 * d
  fp : m.mem.Holds (entry.sp - 16) 8 (entry.x 29)
  lr : m.mem.Holds (entry.sp - 8) 8 (entry.x 30)

/-- The state when the caller goes on. -/
structure Restored (entry m : Mach) : Prop where
  sp : m.sp = entry.sp
  fp : m.x 29 = entry.x 29
  lr : m.x 30 = entry.x 30

theorem wp_prologue (hsize : fn.stackSize < 2 ^ 31) :
    Wp (frameRecord entry.sp) fn.prologue (AtDepth fn entry 0) entry := by
  refine Wp.append fun m1 hstp m2 hmov => ?_
  rw [hstp.stpFrame_eq] at hmov
  have hfp : m2.mem.Holds (entry.sp - 16) 8 (entry.x 29) := by
    rw [hmov.movFp_eq]
    exact (Mem.holds_put _ _ _ _).put (by omega)
  have hlr : m2.mem.Holds (entry.sp - 8) 8 (entry.x 30) := by
    rw [hmov.movFp_eq]
    exact Mem.holds_put _ _ _ _
  have hsp : m2.sp = entry.sp - 16 := by rw [hmov.movFp_eq]
  unfold Fn.makeFrame
  split
  · split
    · intro m hsub
      rw [hsub.subSp_eq]
      exact ⟨by simp [hsp], hfp, hlr⟩
    refine Wp.append (wp_loadConst (by decide) (by omega) fun pc m hsub => ?_)
    have hmod : fn.stackSize % 18446744073709551616 = fn.stackSize := by omega
    rw [hsub.subSpReg_eq]
    exact ⟨by simp [Mach.reg, hmod, hsp], hfp, hlr⟩
  · have hzero : fn.stackSize = 0 := by omega
    exact ⟨by simp [hzero, hsp], hfp, hlr⟩

theorem wp_ldpFrame (h : AtDepth fn entry 0 m) (hsp : m'.sp = entry.sp - 16) (hmem : m'.mem = m.mem) :
    Wp (frameRecord entry.sp) [.ldpFrame] (Restored entry) m' := by
  intro m'' hldp
  obtain ⟨v, w, hv, hw, rfl⟩ := hldp.ldpFrame_eq
  have hlr : entry.sp - 16 + 8 = entry.sp - 8 := by omega
  rw [hsp, hmem] at hv hw
  rw [hlr] at hw
  refine ⟨?_, hv.unique h.fp, hw.unique h.lr⟩
  show m'.sp + 16 = entry.sp
  omega

/-- The epilogue gives back what the caller had, when it is entered at depth 0. -/
theorem wp_epilogue (hsize : fn.stackSize < 2 ^ 31) (h : AtDepth fn entry 0 m) :
    Wp (frameRecord entry.sp) fn.epilogue (Restored entry) m := by
  have hsp : m.sp = entry.sp - 16 - fn.stackSize := by simpa using h.sp
  refine Wp.append ?_
  unfold Fn.dropFrame
  split
  · split
    · intro m' hadd
      rw [hadd.addSp_eq]
      refine wp_ldpFrame h ?_ rfl
      show m.sp + fn.stackSize = entry.sp - 16
      omega
    refine Wp.append (wp_loadConst (by decide) (by omega) fun pc m' hadd => ?_)
    have hmod : fn.stackSize % 18446744073709551616 = fn.stackSize := by omega
    rw [hadd.addSpReg_eq]
    exact wp_ldpFrame h (by simp [Mach.reg, hmod, hsp]) rfl
  · have hzero : fn.stackSize = 0 := by omega
    exact wp_ldpFrame h (by simp [hzero, hsp]) rfl

end

theorem Insn.mentions_of_target {i : Insn} {l : Label} (h : i.target = some l) : i.mentions = some l := by
  cases i with
  | b => exact h
  | bcond => exact h
  | _ => cases h

/-! ## Runs -/

/-- A jump to a label of the program goes to a line that was printed at the same depth. -/
def LevelStep (code : List Item) (m m' : Mach) : Prop :=
  ∀ i j l, code[m.pc]? = some i → i.insn.target = some l → (∀ k c, l ≠ .counted k c) →
    code[m'.pc]? = some j → j.insn = .label l → i.depth = j.depth

/-- At a label `sp` is where the generator took it to be, and a return gives the caller's registers back. -/
structure Disciplined (fn : Fn) (entry : Mach) (code : List Item) (m : Mach) : Prop where
  label : ∀ i l, code[m.pc]? = some i → i.insn = .label l →
    m.sp = entry.sp - 16 - fn.stackSize - 16 * i.depth
  ret : ∀ i, code[m.pc]? = some i → i.insn = .ret →
    m.sp = entry.sp ∧ m.x 29 = entry.x 29 ∧ m.x 30 = entry.x 30

/-- The assertion in front of each line. -/
inductive Asserted (fn : Fn) (entry : Mach) (body : List Item) (m : Mach) : Prop
  | prologue (hpc : m.pc < fn.prologue.length)
      (h : Wp (frameRecord entry.sp) (fn.prologue.drop m.pc) (AtDepth fn entry 0) m)
  | body {k : Nat} (hpc : m.pc = fn.prologue.length + k) (hk : k < (Fn.levelled body).length)
      (h : AtDepth fn entry (depthAt (Fn.levelled body) 0 k) m)
  | epilogue {k : Nat} (hpc : m.pc = fn.prologue.length + (Fn.levelled body).length + k)
      (h : Wp (frameRecord entry.sp) (fn.epilogue.drop k) (Restored entry) m)

section

variable {fn : Fn} {entry m m' : Mach} {code body : List Item} {n n' k q : Nat} {i j : Item} {l : Label}

/-- A line is of the prologue, the body or the epilogue. -/
theorem Fn.Parts.get (h : fn.Parts code body n n') (hi : code[q]? = some i) :
    (q < fn.prologue.length ∧ i.depth = 0 ∧ fn.prologue[q]? = some i.insn) ∨
    (∃ k, q = fn.prologue.length + k ∧ k < (Fn.levelled body).length ∧ (Fn.levelled body)[k]? = some i) ∨
    (∃ k, q = fn.prologue.length + (Fn.levelled body).length + k ∧
      ((fn.epilogue[k]? = some i.insn ∧ k < fn.epilogue.length) ∨ (k = fn.epilogue.length ∧ i.insn = .ret))) := by
  rw [h.eq] at hi
  by_cases hq : q < fn.prologue.length
  · rw [List.getElem?_append_left (by simpa using hq), List.getElem?_map, Option.map_eq_some_iff] at hi
    obtain ⟨a, ha, rfl⟩ := hi
    exact .inl ⟨hq, rfl, ha⟩
  obtain ⟨k, rfl⟩ := Nat.exists_eq_add_of_le (Nat.le_of_not_lt hq)
  rw [List.getElem?_append_right (by simp), length_map, Nat.add_sub_cancel_left] at hi
  by_cases hk : k < (Fn.levelled body).length
  · rw [getElem?_append_left hk] at hi
    exact .inr (.inl ⟨k, rfl, hk, hi⟩)
  obtain ⟨e, rfl⟩ := Nat.exists_eq_add_of_le (Nat.le_of_not_lt hk)
  rw [getElem?_append_right (Nat.le_add_right _ e), Nat.add_sub_cancel_left] at hi
  refine .inr (.inr ⟨e, (Nat.add_assoc _ _ _).symm, ?_⟩)
  by_cases he : e < fn.epilogue.length
  · rw [getElem?_append_left (by simpa using he), getElem?_map, Option.map_eq_some_iff] at hi
    obtain ⟨a, ha, rfl⟩ := hi
    exact .inl ⟨ha, he⟩
  rw [getElem?_append_right (by simpa using he), length_map] at hi
  have hone := (List.getElem?_eq_some_iff.1 hi).1
  have heq : e - fn.epilogue.length = 0 := Nat.lt_one_iff.1 hone
  rw [heq] at hi
  obtain rfl : (⟨0, .ret⟩ : Item) = i := by simpa using hi
  exact .inr ⟨Nat.le_antisymm (Nat.sub_eq_zero_iff_le.1 heq) (Nat.le_of_not_lt he), rfl⟩

theorem Fn.Parts.label_get (h : fn.Parts code body n n') (hi : code[q]? = some i)
    (hl : i.insn.mentions = some l) :
    ∃ k, q = fn.prologue.length + k ∧ k < (Fn.levelled body).length ∧ (Fn.levelled body)[k]? = some i := by
  rcases h.get hi with ⟨-, -, hmem⟩ | hbody | ⟨k, -, ⟨hmem, -⟩ | ⟨-, hret⟩⟩
  · rw [(fn.plain_prologue _ (mem_of_getElem? hmem)).1] at hl
    cases hl
  · exact hbody
  · rw [(fn.plain_epilogue _ (mem_of_getElem? hmem)).1] at hl
    cases hl
  · rw [hret] at hl
    cases hl

theorem Fn.Parts.threaded (h : fn.Parts code body n n') : Threaded 0 (Fn.levelled body) 0 :=
  h.block.threaded.append (.cons rfl (fun _ h => by cases h) (.nil 0))

/-- No line of the body stands below depth 0. -/
theorem Fn.Parts.nonneg (h : fn.Parts code body n n') (hi : i ∈ Fn.levelled body) : 0 ≤ i.depth := by
  rcases mem_append.1 hi with hi | hi
  · exact h.block.floor i hi
  · rw [mem_singleton] at hi
    rw [hi]

/-- The lines about one label number of the generator are at one depth. -/
theorem Fn.Parts.level (h : fn.Parts code body n n') {c : Nat} {k k' : Mark} (hi : i ∈ Fn.levelled body)
    (hj : j ∈ Fn.levelled body) (hci : i.insn.mentions = some (.counted k c))
    (hcj : j.insn.mentions = some (.counted k' c)) : i.depth = j.depth := by
  obtain ⟨f, -, hf⟩ := h.block.level
  have hdepth : ∀ i ∈ Fn.levelled body, ∀ k, i.insn.mentions = some (.counted k c) → i.depth = f c := by
    intro i hi k hc
    rcases mem_append.1 hi with hi | hi
    · exact (hf i hi k c hc).1
    · rw [mem_singleton] at hi
      rw [hi] at hc
      cases hc
  exact (hdepth i hi k hci).trans (hdepth j hj k' hcj).symm

/-- A step moves the stack pointer by as much as the depth. -/
theorem AtDepth.does {e : Int} {d : Int} {a : Insn} (h : AtDepth fn entry d m) (hd : 0 ≤ d)
    (hdoes : a.Does (frameRecord entry.sp) m m') (hmove : a.spMove = some (16 * (d - e)))
    (hfp : a.KeepsFrame) : AtDepth fn entry e m' := by
  obtain ⟨hsp, -, hmem⟩ := hdoes.frame hmove hfp
  have hm := h.sp
  refine ⟨by omega, h.fp.keep fun b hge hlt => hmem b ?_ (by omega), h.lr.keep fun b hge hlt => hmem b ?_ (by omega)⟩
  · exact ⟨hge, by omega⟩
  · exact ⟨by omega, by omega⟩

variable (hparts : fn.Parts code body n n') (hsize : fn.stackSize < 2 ^ 31)

include hparts hsize

theorem Asserted.next_body (hpc : m.pc = fn.prologue.length + k) (hi : (Fn.levelled body)[k]? = some i)
    (h : AtDepth fn entry (depthAt (Fn.levelled body) 0 k) m)
    (hdoes : i.insn.Does (frameRecord entry.sp) m m') : Asserted fn entry body m' := by
  obtain ⟨hmove, hfp⟩ := hparts.threaded.get hi
  rw [depthAt_of_get hi] at h
  have hnext := h.does (hparts.nonneg (mem_of_getElem? hi)) hdoes hmove hfp
  by_cases hlast : k + 1 < (Fn.levelled body).length
  · exact .body (by rw [hdoes.pc, hpc, Nat.add_assoc]) hlast hnext
  have hk := (List.getElem?_eq_some_iff.1 hi).1
  have hend : (Fn.levelled body).length = k + 1 := by omega
  have hzero : depthAt (Fn.levelled body) 0 (k + 1) = 0 := by
    rw [depthAt, List.getElem?_eq_none (by omega)]
    rfl
  rw [hzero] at hnext
  refine .epilogue (k := 0) (by rw [hdoes.pc, hpc, hend]; omega) ?_
  exact wp_epilogue hsize hnext

/-- Every step keeps the assertions, if its jump is level. -/
theorem Asserted.step (h : Asserted fn entry body m) (hstep : Step (frameRecord entry.sp) code m m')
    (hlevel : LevelStep code m m') : Asserted fn entry body m' := by
  cases hstep with
  | @next _ i hi hdoes =>
    cases h with
    | prologue hpc h =>
      rcases hparts.get hi with ⟨-, -, hmem⟩ | ⟨k, hk, -⟩ | ⟨k, hk, -⟩
      · have hwp := h.step hmem hdoes
        have hnext := hdoes.pc
        by_cases hlast : m.pc + 1 < fn.prologue.length
        · exact .prologue (by rwa [hnext]) (by rwa [hnext])
        rw [drop_eq_nil_of_le (Nat.le_of_not_lt hlast)] at hwp
        refine .body (k := 0) (by omega) (by simp [Fn.levelled]) ?_
        rw [hparts.threaded.depth_zero]
        exact hwp
      · omega
      · omega
    | @body k hpc hk h =>
      rcases hparts.get hi with ⟨hlt, -⟩ | ⟨k', hk', -, hmem⟩ | ⟨k', hk', -⟩
      · omega
      · obtain rfl : k = k' := by omega
        exact Asserted.next_body hparts hsize hpc hmem h hdoes
      · omega
    | @epilogue k hpc h =>
      rcases hparts.get hi with ⟨hlt, -⟩ | ⟨k', hk', hlt, -⟩ | ⟨k', hk', ⟨hmem, -⟩ | ⟨-, hret⟩⟩
      · omega
      · omega
      · obtain rfl : k = k' := by omega
        exact .epilogue (by rw [hdoes.pc, hpc, Nat.add_assoc]) (h.step hmem hdoes)
      · rw [hret] at hdoes
        cases hdoes with
        | set hset _ => cases hset.1
  | @jump i j l q hi ht hj hl =>
    obtain ⟨k, hk, -, hmem⟩ := hparts.label_get hi (Insn.mentions_of_target ht)
    obtain ⟨k', hk', hlt', hmem'⟩ := hparts.label_get hj (by rw [hl]; rfl)
    have hdepth : i.depth = j.depth := by
      by_cases hcount : ∃ k c, l = .counted k c
      · obtain ⟨mark, c, rfl⟩ := hcount
        exact hparts.level (mem_of_getElem? hmem) (mem_of_getElem? hmem')
          (Insn.mentions_of_target ht) (by rw [hl]; rfl)
      · exact hlevel i j l hi ht (fun k c hkc => hcount ⟨k, c, hkc⟩) hj hl
    cases h with
    | prologue hpc h => omega
    | @body k1 hpc hlt h =>
      obtain rfl : k1 = k := by omega
      rw [depthAt_of_get hmem, hdepth] at h
      refine .body hk' hlt' ?_
      rw [depthAt_of_get hmem']
      exact ⟨h.sp, h.fp, h.lr⟩
    | @epilogue k1 hpc h =>
      have := (List.getElem?_eq_some_iff.1 hmem).1
      omega

omit hsize in
/-- What the assertions say at labels and at the return. -/
theorem Asserted.disciplined (h : Asserted fn entry body m) : Disciplined fn entry code m := by
  constructor
  · intro i l hi hl
    obtain ⟨k, hk, hlt, hmem⟩ := hparts.label_get hi (by rw [hl]; rfl)
    cases h with
    | prologue hpc h => omega
    | @body k1 hpc _ h =>
      obtain rfl : k1 = k := by omega
      rw [depthAt_of_get hmem] at h
      exact h.sp
    | epilogue hpc h => omega
  intro i hi hret
  rcases hparts.get hi with ⟨-, -, hmem⟩ | ⟨k, -, -, hmem⟩ | ⟨k, hk, ⟨hmem, -⟩ | ⟨hend, -⟩⟩
  · exact absurd hret (fn.plain_prologue _ (mem_of_getElem? hmem)).2
  · have hmove := (hparts.threaded.get hmem).1
    rw [hret] at hmove
    cases hmove
  · exact absurd hret (fn.plain_epilogue _ (mem_of_getElem? hmem)).2
  cases h with
  | prologue hpc h => omega
  | body hpc hlt h => omega
  | @epilogue k1 hpc h =>
    obtain rfl : k1 = k := by omega
    rw [hend, drop_length] at h
    exact ⟨h.sp, h.fp, h.lr⟩

/-- The assertions hold all along a run whose jumps are level. -/
theorem asserted_run {σ : Nat → Mach} {N : Nat} (hpc : (σ 0).pc = 0)
    (hrun : Run (frameRecord (σ 0).sp) code σ N) (hlevel : ∀ k, k < N → LevelStep code (σ k) (σ (k + 1))) :
    ∀ k, k ≤ N → Asserted fn (σ 0) body (σ k) := by
  intro k
  induction k with
  | zero =>
    intro _
    refine .prologue (by rw [hpc]; simp [Fn.prologue]) ?_
    rw [hpc]
    exact wp_prologue hsize
  | succ k ih =>
    intro hk
    exact (ih (by omega)).step hparts hsize (hrun k hk) (hlevel k hk)

omit hsize in
/-- A jump that ends with the stack as the generator takes it to be is level. -/
theorem Asserted.level (h : Asserted fn entry body m) (hstep : Step (frameRecord entry.sp) code m m')
    (hdisc : Disciplined fn entry code m') : LevelStep code m m' := by
  intro i j l hi ht hl hj hlab
  obtain ⟨k, hk, -, hmem⟩ := hparts.label_get hi (Insn.mentions_of_target ht)
  have hsame : m'.sp = m.sp := by
    cases hstep with
    | @next _ i' hi' hdoes =>
      obtain rfl : i = i' := Option.some.inj (hi.symm.trans hi')
      have hstill : i.insn.spMove = some 0 := by
        generalize i.insn = a at ht
        cases a with
        | b | bcond => rfl
        | _ => cases ht
      have hfp := (hparts.threaded.get hmem).2
      exact (hdoes.frame hstill hfp).1.trans (Int.add_zero _)
    | jump => rfl
  have hsp := hdisc.label j l hj hlab
  cases h with
  | prologue hpc h => omega
  | @body k1 hpc hlt h =>
    obtain rfl : k1 = k := by omega
    rw [depthAt_of_get hmem] at h
    have := h.sp
    omega
  | @epilogue k1 hpc h =>
    have := (List.getElem?_eq_some_iff.1 hmem).1
    omega

end

/-- In a run of a function's code `sp` is at each label where the generator takes it to be, and a return gives
the caller's registers back, exactly if every jump that the run takes to a label of the program (by `goto`,
`break`, `continue`, `return` or to a case) goes to one at its own depth. -/
theorem stack_discipline (fn : Fn) {s s' : GenState} {code : List Item} {σ : Nat → Mach} {n : Nat}
    (hcode : fn.emitText s = some ((), s', code)) (hdepth : s.depth = 0) (hnext : 0 < s.next)
    (hsize : fn.stackSize < 2 ^ 31) (hpc : (σ 0).pc = 0) (hrun : Run (frameRecord (σ 0).sp) code σ n) :
    (∀ k, k ≤ n → Disciplined fn (σ 0) code (σ k)) ↔ ∀ k, k < n → LevelStep code (σ k) (σ (k + 1)) := by
  obtain ⟨body, n', hparts⟩ := Fn.parts_emitText hcode hdepth hnext
  constructor
  · intro hdisc k
    -- before the first jump that is not level the assertions hold
    induction k using Nat.strong_induction_on with
    | _ k ih =>
      intro hk
      have hassert := asserted_run hparts hsize hpc (fun j hj => hrun j (Nat.lt_trans hj hk))
        (fun j hj => ih j hj (Nat.lt_trans hj hk)) k (Nat.le_refl k)
      exact hassert.level hparts (hrun k hk) (hdisc (k + 1) hk)
  · intro hlevel k hk
    exact (asserted_run hparts hsize hpc hrun hlevel k hk).disciplined hparts

/-- The hidden local `__alloca_size__`, a pointer, which every function has. -/
def allocaBottom : Local := ⟨⟨.ptr, 8, true⟩, 8⟩

/-- `int three(void) { return 1 + 2; }` -/
def three : Fn :=
  { params := [], locals := [allocaBottom], isVariadic := false, vaArea := none, isMain := false
    body := .block (.cons (.ret (.some (.cast tyInt (.binary .add tyInt (.num tyInt 1 0) (.num tyInt 2 0))))) .nil) }

/-- The memory of a caller with all registers 0, after `stp`. -/
def stored (mem : Mem) : Mem := (mem.put 984 8 0).put 992 8 0

/-- A run of `three`, from its entry to its return. -/
def threeRun (k : Nat) : Mach :=
  let x : Nat → BitVec 64 := Function.update (fun _ => 0) 29 984
  let x2 := Function.update x 0 2
  let x1 := Function.update x2 0 1
  let x12 := Function.update x1 1 2
  let x3 := Function.update x12 0 3
  let mem := stored fun _ => 1
  let mem2 := mem.put 952 8 2
  match k with
  | 0 => ⟨0, 1000, fun _ => 0, fun _ => 0, fun _ => 1⟩
  | 1 => ⟨1, 984, fun _ => 0, fun _ => 0, mem⟩
  | 2 => ⟨2, 984, x, fun _ => 0, mem⟩
  | 3 => ⟨3, 968, x, fun _ => 0, mem⟩
  | 4 => ⟨4, 968, x2, fun _ => 0, mem⟩
  | 5 => ⟨5, 952, x2, fun _ => 0, mem2⟩
  | 6 => ⟨6, 952, x1, fun _ => 0, mem2⟩
  | 7 => ⟨7, 968, x12, fun _ => 0, mem2⟩
  | 8 => ⟨8, 968, x3, fun _ => 0, mem2⟩
  | 9 => ⟨9, 968, x3, fun _ => 0, mem2⟩
  | 10 => ⟨10, 968, x3, fun _ => 0, mem2⟩
  | 11 => ⟨11, 984, x3, fun _ => 0, mem2⟩
  | _ => ⟨12, 1000, Function.update (Function.update x3 29 0) 30 0, fun _ => 0, mem2⟩

/-- The right operand is pushed and popped, and the function returns as it should. -/
theorem stack_discipline_three : ∃ s s' code, three.emitText s = some ((), s', code) ∧
    (code[4]?).map Item.insn = some (.push 0) ∧ (code[(threeRun 12).pc]?).map Item.insn = some .ret ∧
    ∀ k, k ≤ 12 → Disciplined three (threeRun 0) code (threeRun k) := by
  refine ⟨⟨0, 1⟩, _, _, rfl, rfl, rfl, (stack_discipline three (s := ⟨0, 1⟩) rfl rfl (by decide) (by decide) rfl ?_).2 ?_⟩
  · intro k hk
    interval_cases k
    · exact .next rfl (.stpFrame _)
    · exact .next rfl (.movFp _)
    · exact .next rfl (.subSp _ _)
    · exact .next rfl (.set (r := 0) ⟨rfl, rfl⟩ (fun w hw => Option.some.inj hw))
    · exact .next rfl (.push _ _)
    · exact .next rfl (.set (r := 0) ⟨rfl, rfl⟩ (fun w hw => Option.some.inj hw))
    · exact .next rfl (.pop (Mem.holds_put _ _ _ _))
    -- a sum of 32 bits may be any value here
    · exact .next rfl (.set (r := 0) ⟨rfl, rfl⟩ fun w hw => by cases hw)
    · exact .jump rfl rfl (q := 9) rfl rfl
    · exact .next rfl (.label _ _)
    · exact .next rfl (.addSp _ _)
    · refine .next rfl (.ldpFrame ?_ ?_)
      · exact ((Mem.holds_put _ _ _ _).put (by decide)).put (by decide)
      · exact (Mem.holds_put _ _ _ _).put (by decide)
  intro k hk i j l hi ht hl hj hlab
  interval_cases k <;> cases hi <;> cases ht
  cases hj
  rfl

/-- `int leaves(void) { return ({ return 3; 0; }) + 1; }` -/
def leaves : Fn :=
  let early : Stmts := .cons (.ret (.some (.cast tyInt (.num tyInt 3 0)))) (.cons (.expr (.num tyInt 0 0)) .nil)
  { params := [], locals := [allocaBottom], isVariadic := false, vaArea := none, isMain := false
    body := .block (.cons (.ret (.some (.cast tyInt
      (.binary .add tyInt (.stmtExpr tyInt early) (.num tyInt 1 0))))) .nil) }

/-- The run of `leaves`: the right operand is on the stack when the function returns. -/
def leavesRun (k : Nat) : Mach :=
  let x : Nat → BitVec 64 := Function.update (fun _ => 0) 29 984
  let x1 := Function.update x 0 1
  let x3 := Function.update x1 0 3
  let mem := stored fun _ => 1
  let mem1 := mem.put 952 8 1
  match k with
  | 0 => ⟨0, 1000, fun _ => 0, fun _ => 0, fun _ => 1⟩
  | 1 => ⟨1, 984, fun _ => 0, fun _ => 0, mem⟩
  | 2 => ⟨2, 984, x, fun _ => 0, mem⟩
  | 3 => ⟨3, 968, x, fun _ => 0, mem⟩
  | 4 => ⟨4, 968, x1, fun _ => 0, mem⟩
  | 5 => ⟨5, 952, x1, fun _ => 0, mem1⟩
  | 6 => ⟨6, 952, x3, fun _ => 0, mem1⟩
  | 7 => ⟨11, 952, x3, fun _ => 0, mem1⟩
  | 8 => ⟨12, 952, x3, fun _ => 0, mem1⟩
  | 9 => ⟨13, 968, x3, fun _ => 0, mem1⟩
  -- what `ldp` takes is the local variable
  | _ => ⟨14, 984, Function.update (Function.update x3 29 0x101010101010101) 30 0x101010101010101, fun _ => 0, mem1⟩

/-- The epilogue of `leaves` takes the local variable for the frame record. -/
theorem leaves_undisciplined : ∃ s s' code, leaves.emitText s = some ((), s', code) ∧
    s.depth = 0 ∧ 0 < s.next ∧ leaves.stackSize < 2 ^ 31 ∧ (leavesRun 0).pc = 0 ∧
    Run (frameRecord (leavesRun 0).sp) code leavesRun 10 ∧
    (code[(leavesRun 10).pc]?).map Item.insn = some .ret ∧ (leavesRun 10).sp = (leavesRun 0).sp - 16 ∧
    (leavesRun 10).x 29 ≠ (leavesRun 0).x 29 ∧
    ¬ ∀ k, k ≤ 10 → Disciplined leaves (leavesRun 0) code (leavesRun k) := by
  refine ⟨⟨0, 1⟩, _, _, rfl, rfl, by decide, by decide, rfl, ?_, rfl, rfl, by decide, fun h => ?_⟩
  · intro k hk
    interval_cases k
    · exact .next rfl (.stpFrame _)
    · exact .next rfl (.movFp _)
    · exact .next rfl (.subSp _ _)
    · exact .next rfl (.set (r := 0) ⟨rfl, rfl⟩ (fun w hw => Option.some.inj hw))
    · exact .next rfl (.push _ _)
    · exact .next rfl (.set (r := 0) ⟨rfl, rfl⟩ (fun w hw => Option.some.inj hw))
    · exact .jump rfl rfl (q := 11) rfl rfl
    · exact .next rfl (.label _ _)
    · exact .next rfl (.addSp _ _)
    · refine .next rfl (.ldpFrame (fun i hi => ?_) fun i hi => ?_)
      · interval_cases i <;> rfl
      · interval_cases i <;> rfl
  · have hsp := ((h 10 (Nat.le_refl 10)).ret _ rfl rfl).1
    exact absurd hsp (by decide)

end Slopix.Cc
