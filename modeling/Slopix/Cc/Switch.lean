import Slopix.Cc.BitFields

/-!
# Switch statements

The chain of comparisons at the head of a switch. The parser keeps the constants of a case as `int`s, and the generator
compares `x0` with them as 64-bit registers after taking them as `unsigned`. Where control goes is read off the chain;
whether that is the right place, for every value of the type, depends on the constants (`ConstsFit`).
-/

namespace Slopix.Cc

open Gen Lib List

/-! ## The parser -/

/-- The constants of a case, as `const_expr` gives them, and the number of its label. -/
structure CaseConst where
  first : Int
  last : Option Int
  label : Nat

/-- The case node: the constants become `int`s. A range that is empty then is an error. -/
def CaseConst.node (k : CaseConst) : Option Case :=
  let first := wrap 32 false k.first
  let last := match k.last with
    | some n => wrap 32 false n
    | none => first
  if last < first then none else some ⟨first, last, k.label⟩

/-- `case_next`: each case is put in front of the earlier ones. -/
def switchCases (ks : List CaseConst) : Option (List Case) := (ks.mapM CaseConst.node).map List.reverse

/-- The type of the controlling value after the integer promotions. -/
def IntType.promote : IntType → IntType
  | .int u => .int u
  | .long u => .long u
  | _ => .int false

/-- The value is the constant of the case, or in its range, after the conversion to the promoted type. -/
def CaseConst.Contains (t : IntType) (v : Int) (k : CaseConst) : Prop :=
  t.promote.convert k.first ≤ v ∧ v ≤ t.promote.convert (k.last.getD k.first)

instance (t : IntType) (v : Int) (k : CaseConst) : Decidable (k.Contains t v) := inferInstanceAs (Decidable (_ ∧ _))

/-! ## Straight code with jumps ahead -/

/-- The machine goes on at the next line. -/
def Cpu.skip (c : Cpu) : Cpu := { c with mach := { c.mach with pc := c.mach.pc + 1 } }

/-- Execute lines whose jumps go ahead. A jump that was taken skips lines up to its label; what is left at the end is the
jump that leaves the lines. -/
def runAhead : Option Label → List Insn → Cpu → Option (Option Label × Cpu)
  | l, [], c => some (l, c)
  | some l, .label l' :: is, c => runAhead (if l' = l then none else some l) is c.skip
  | some l, _ :: is, c => runAhead (some l) is c.skip
  | none, .label _ :: is, c => runAhead none is c.skip
  | none, .b l :: is, c => runAhead (some l) is c.skip
  | none, .bcond cond l :: is, c => runAhead (if cond.holds c.flags then some l else none) is c.skip
  | none, i :: is, c => (exec i c).bind (runAhead none is)

/-! ## The chain -/

/-- The lines for one case, given the number of its label for a range. -/
def caseLines (n : Nat) (k : Case) : List Insn :=
  if k.begin = k.endVal then cmpCase k.begin ++ [.bcond .eq (.unique k.label)]
  else cmpCase k.begin ++ .bcond .lt (.counted .skip n) ::
    (cmpCase k.endVal ++ [.bcond .le (.unique k.label), .label (.counted .skip n)])

/-- The lines of all cases; a range takes a label of its own. -/
def casesLines : Nat → List Case → List Insn
  | _, [] => []
  | n, k :: ks => caseLines n k ++ casesLines (if k.begin = k.endVal then n else n + 1) ks

/-- The jump to the default case. -/
def defaultLines : Option Nat → List Insn
  | none => []
  | some l => [.b (.unique l)]

/-- The lines between the controlling expression and the body. -/
def chainLines (n : Nat) (ks : List Case) (default : Option Nat) (brk : Nat) : List Insn :=
  casesLines n ks ++ defaultLines default ++ [.b (.unique brk)]

/-- A constant as the chain compares it. -/
def constOf (n : Int) : Int := wrap 32 true n

/-- The comparisons of a case succeed. -/
def CaseConst.Hit (x : BitVec 64) (k : CaseConst) : Prop :=
  constOf k.first ≤ x.toInt ∧ x.toInt ≤ constOf (k.last.getD k.first)

instance (x : BitVec 64) (k : CaseConst) : Decidable (k.Hit x) := inferInstanceAs (Decidable (_ ∧ _))

/-- `x0` holds a value of a type as the generator leaves it: all of a 64-bit value, else its low half, with zeros or the sign
in the upper half. -/
def InX0 (t : IntType) (v : Int) (x : BitVec 64) : Prop := ∃ u : Upper, (u = .full ↔ t.ty.size = 8) ∧ x = BitVec.ofInt 64 (u.cut v)

/-- Control goes to a case that contains the value; if there is none, to the default case or past the body. -/
def SwitchRight (t : IntType) (v : Int) (n : Nat) (ks : List CaseConst) (cases : List Case) (default : Option Nat)
    (brk : Nat) (c : Cpu) : Prop :=
  ∃ l c', runAhead none (chainLines n cases default brk) c = some (some (.unique l), c') ∧
    ((∃ k ∈ ks, k.Contains t v ∧ l = k.label) ∨ (∀ k ∈ ks, ¬ k.Contains t v) ∧ l = default.getD brk)

/-- The last case in the source whose comparisons succeed. -/
def lastHit (x : BitVec 64) (ks : List CaseConst) : Option CaseConst := ks.reverse.find? fun k => decide (k.Hit x)

/-- The values of a type that the constants can stand for in the comparisons. -/
def IntType.limit (t : IntType) : Int := if t.ty.size = 8 then 2 ^ 32 else 2 ^ 31

/-- The constants fit the comparisons: each value of the type that lies in a case is below the limit and lies in a case that does
not begin below 0; and where a range is empty for the type, but not after its bounds are cut, what lies between the cut bounds
lies in a later case. -/
structure ConstsFit (t : IntType) (ks : List CaseConst) : Prop where
  reached : ∀ v, t.Fits v → ∀ k ∈ ks, k.Contains t v →
    v < t.limit ∧ ∃ k' ∈ ks, 0 ≤ t.promote.convert k'.first ∧ k'.Contains t v
  covered : ∀ pre k post, ks = pre ++ k :: post → t.promote.convert (k.last.getD k.first) < t.promote.convert k.first →
    ∀ v, constOf k.first ≤ v → v ≤ constOf (k.last.getD k.first) → ∃ k' ∈ post, k'.Contains t v

/-! ## Comparisons -/

section

variable {c c' : Cpu} {is rest : List Insn} {n : Int}

theorem subFlags_lt (a b : BitVec 64) : Cond.lt.holds (subFlags a b) = decide (a.toInt < b.toInt) := by
  have hmsb : ∀ x : BitVec 64, x.msb = decide (x.toInt < 0) := fun x => BitVec.msb_eq_toInt
  have ha : -2 ^ 63 ≤ a.toInt ∧ a.toInt < 2 ^ 63 := ⟨BitVec.le_toInt a, BitVec.toInt_lt⟩
  have hb : -2 ^ 63 ≤ b.toInt ∧ b.toInt < 2 ^ 63 := ⟨BitVec.le_toInt b, BitVec.toInt_lt⟩
  simp only [Cond.holds, subFlags, hmsb, BitVec.toInt_sub]
  generalize a.toInt = i at *
  generalize b.toInt = j at *
  by_cases hsame : (i < 0 ↔ j < 0)
  · -- no overflow
    have hdiff : (i - j).bmod (2 ^ 64) = i - j := Int.bmod_eq_of_le (by omega) (by omega)
    rw [hdiff]
    have hlt : (i - j < 0) ↔ i < j := by omega
    simp [hsame, hlt]
  by_cases hi : i < 0
  · have hj : ¬ j < 0 := fun hj => hsame ⟨fun _ => hj, fun _ => hi⟩
    simp [hi, hj, show i < j by omega]
  have hj : j < 0 := by
    by_contra hj
    exact hsame ⟨fun h => absurd h hi, fun h => absurd h hj⟩
  simp [hi, hj, show ¬ i < j by omega]

theorem subFlags_eq (a b : BitVec 64) : Cond.eq.holds (subFlags a b) = decide (a.toInt = b.toInt) := by
  have hz : Cond.eq.holds (subFlags a b) = decide (a = b) := by
    simp only [Cond.holds, subFlags]
    rw [Bool.eq_iff_iff, beq_iff_eq, decide_eq_true_iff, BitVec.sub_eq_iff_eq_add, zero_add]
  rw [hz, Bool.eq_iff_iff, decide_eq_true_iff, decide_eq_true_iff, BitVec.toInt_inj]

theorem subFlags_le (a b : BitVec 64) : Cond.le.holds (subFlags a b) = decide (a.toInt ≤ b.toInt) := by
  have hor : Cond.le.holds (subFlags a b) = (Cond.eq.holds (subFlags a b) || Cond.lt.holds (subFlags a b)) := rfl
  rw [hor, subFlags_eq, subFlags_lt, Bool.eq_iff_iff, Bool.or_eq_true, decide_eq_true_iff, decide_eq_true_iff,
    decide_eq_true_iff]
  omega

theorem toInt_constOf (n : Int) : (BitVec.ofInt 64 (constOf n)).toInt = constOf n := by
  obtain ⟨hlo, hhi⟩ := inRange_wrap 32 true n
  rw [BitVec.toInt_ofInt]
  exact Int.bmod_eq_of_le (by unfold constOf; omega) (by unfold constOf; omega)

theorem movk_halves {m : Nat} (hm : m < 2 ^ 32) : (BitVec.ofNat 64 (m % 65536) &&& ~~~(0xFFFF0000#64)) |||
    BitVec.ofNat 64 (m / 65536 % 65536) <<< 16 = BitVec.ofNat 64 m := by
  refine BitVec.eq_of_getLsbD_eq fun i hi => ?_
  have hmask : (0xFFFF0000#64).getLsbD i = decide (16 ≤ i ∧ i < 32) := by
    rw [show 0xFFFF0000#64 = BitVec.ofNat 64 (2 ^ 16 - 1) <<< 16 from rfl, BitVec.getLsbD_shiftLeft, getLsbD_lowMask]
    rcases lt_or_ge i 16 with hlt | hge
    · simp [hlt, not_le.2 hlt]
    · simp [hi, not_lt.2 hge, hge, show i - 16 < 64 by omega, show i - 16 < 16 ↔ i < 32 by omega]
  rw [BitVec.getLsbD_or, BitVec.getLsbD_and, BitVec.getLsbD_not, hmask, BitVec.getLsbD_shiftLeft, BitVec.getLsbD_ofNat,
    BitVec.getLsbD_ofNat, BitVec.getLsbD_ofNat, show 65536 = 2 ^ 16 from rfl, Nat.testBit_mod_two_pow,
    Nat.testBit_mod_two_pow, Nat.testBit_div_two_pow]
  rcases lt_or_ge i 16 with hlt | hge
  · simp [hi, hlt, not_le.2 hlt]
  rcases lt_or_ge i 32 with hin | hout
  · simp [hi, not_lt.2 hge, hge, hin, show i - 16 < 16 by omega, show i - 16 < 64 by omega,
      Nat.sub_add_cancel hge]
  · have hzero : m.testBit i = false := Nat.testBit_lt_two_pow (hm.trans_le (Nat.pow_le_pow_right (by decide) hout))
    simp [not_lt.2 hge, hzero, show ¬ i - 16 < 16 by omega]

theorem exec_loadConst (n : Int) (c : Cpu) : ∃ c', execs (loadConst 1 n) c = some c' ∧
    c'.mach.reg 1 = BitVec.ofInt 64 (constOf n) ∧ c'.mach.reg 0 = c.mach.reg 0 := by
  obtain ⟨hlo, hhi⟩ := inRange_wrap 32 true n
  obtain ⟨m, hm⟩ : ∃ m : Nat, n % 4294967296 = m := ⟨(n % 4294967296).toNat, (Int.toNat_of_nonneg hlo).symm⟩
  have hconst : constOf n = m := hm
  have hm32 : m < 2 ^ 32 := by
    omega
  unfold loadConst
  rw [hm, hconst]
  dsimp only
  split
  · refine ⟨c.set 1 (BitVec.ofInt 64 m), rfl, ?_, ?_⟩
    · simp [Cpu.reg_set]
    · simp [Cpu.reg_set]
  let c1 := c.set 1 (BitVec.ofNat 64 (m % 65536))
  refine ⟨c1.set 1 (BitVec.ofInt 64 m), ?_, ?_, ?_⟩
  · have hlow : ((m : Int) % 65536).toNat = m % 65536 := by omega
    have hhigh : ((m : Int) / 65536).toNat = m / 65536 := by omega
    rw [hlow, hhigh]
    have hsecond : Insn.result c1.mach c1.flags (.movk .x 1 (m / 65536)) = some (BitVec.ofInt 64 m) := by
      exact congrArg some (movk_halves hm32)
    rw [execs_cons, exec_set rfl rfl, Option.bind_some, execs_cons, exec_set rfl hsecond]
    rfl
  · simp [Cpu.reg_set]
  · simp [Cpu.reg_set, c1]

theorem exec_cmpCase (n : Int) (c : Cpu) : ∃ c', execs (cmpCase n) c = some c' ∧
    c'.flags = subFlags (c.mach.reg 0) (BitVec.ofInt 64 (constOf n)) ∧ c'.mach.reg 0 = c.mach.reg 0 := by
  unfold cmpCase
  split
  · rename_i hsmall
    have hconst : constOf n = n := wrap_of_inRange ⟨by omega, by omega⟩
    rw [hconst]
    exact ⟨_, rfl, rfl, rfl⟩
  obtain ⟨m, hm, h1, h0⟩ := exec_loadConst n c
  refine ⟨m.compare (subFlags (m.mach.reg 0) (m.mach.reg 1)), ?_, ?_, h0⟩
  · rw [execs_append, hm]
    rfl
  · rw [← h1, ← h0]
    rfl

/-- Lines without labels and jumps are executed as they are. -/
theorem runAhead_execs (h : execs is c = some c') : runAhead none (is ++ rest) c = runAhead none rest c' := by
  induction is generalizing c with
  | nil =>
    obtain rfl : c = c' := Option.some.inj h
    rfl
  | cons i is ih =>
    rw [execs_cons] at h
    obtain ⟨m, hm, hrest⟩ := Option.bind_eq_some_iff.1 h
    have hstep : runAhead none (i :: (is ++ rest)) c = (exec i c).bind (runAhead none (is ++ rest)) := by
      cases i <;> first
        | rfl
        | cases hm
    rw [cons_append, hstep, hm]
    exact ih hrest

end

/-! ## Where the chain goes -/

/-- The comparisons of a node succeed. -/
def Case.hit (x : BitVec 64) (k : Case) : Bool := decide (constOf k.begin ≤ x.toInt ∧ x.toInt ≤ constOf k.endVal)

section

variable {c : Cpu} {is rest : List Insn} {l : Label}

theorem runAhead_pass (h : ∀ l', Insn.label l' ∈ is → l' ≠ l) (rest : List Insn) (c : Cpu) :
    ∃ c' : Cpu, c'.mach.reg 0 = c.mach.reg 0 ∧ runAhead (some l) (is ++ rest) c = runAhead (some l) rest c' := by
  induction is generalizing c with
  | nil => exact ⟨c, rfl, rfl⟩
  | cons i is ih =>
    obtain ⟨c', hreg, hc'⟩ := ih (fun l' hl' => h l' (mem_cons_of_mem i hl')) c.skip
    refine ⟨c', hreg, ?_⟩
    have hstep : runAhead (some l) (i :: (is ++ rest)) c = runAhead (some l) (is ++ rest) c.skip := by
      cases i with
      | label l' =>
        have hne := h l' (mem_cons_self ..)
        show runAhead (if l' = l then none else some l) _ _ = _
        rw [if_neg hne]
      | _ => rfl
    exact hstep.trans hc'

theorem label_notMem_cmpCase (l : Label) (n : Int) : Insn.label l ∉ cmpCase n := by
  unfold cmpCase loadConst
  split
  · simp
  · dsimp only
    split <;> simp

/-- **One case**: control goes on at its label when it is hit, else behind its lines. -/
theorem runAhead_case (n : Nat) (k : Case) (rest : List Insn) (c : Cpu) : ∃ c' : Cpu, c'.mach.reg 0 = c.mach.reg 0 ∧
    runAhead none (caseLines n k ++ rest) c =
      runAhead (if k.hit (c.mach.reg 0) then some (.unique k.label) else none) rest c' := by
  obtain ⟨c1, hc1, hflags, hreg⟩ := exec_cmpCase k.begin c
  unfold caseLines
  split
  · rename_i hone
    refine ⟨c1.skip, hreg, ?_⟩
    rw [append_assoc, runAhead_execs hc1]
    show runAhead (if Cond.eq.holds c1.flags then some (.unique k.label) else none) rest c1.skip = _
    have hhit : Cond.eq.holds c1.flags = k.hit (c.mach.reg 0) := by
      rw [hflags, subFlags_eq, toInt_constOf, Case.hit, ← hone, Bool.eq_iff_iff, decide_eq_true_iff, decide_eq_true_iff]
      omega
    rw [hhit]
  rw [append_assoc, runAhead_execs hc1]
  have hlt : Cond.lt.holds c1.flags = decide ((c.mach.reg 0).toInt < constOf k.begin) := by
    rw [hflags, subFlags_lt, toInt_constOf]
  by_cases hbelow : (c.mach.reg 0).toInt < constOf k.begin
  · -- the first jump goes over the second comparison
    obtain ⟨c', hreg', hc'⟩ := runAhead_pass (l := .counted .skip n)
      (fun l' hl' => absurd hl' (label_notMem_cmpCase l' k.endVal))
      (.bcond .le (.unique k.label) :: .label (.counted .skip n) :: rest) c1.skip
    refine ⟨c'.skip.skip, hreg'.trans hreg, ?_⟩
    have hmiss : k.hit (c.mach.reg 0) = false := by
      rw [Case.hit, decide_eq_false_iff_not]
      omega
    rw [hmiss]
    show runAhead (if Cond.lt.holds c1.flags then some (.counted .skip n) else none)
      ((cmpCase k.endVal ++ [.bcond .le (.unique k.label), .label (.counted .skip n)]) ++ rest) c1.skip = _
    rw [hlt, decide_eq_true hbelow, if_pos rfl, append_assoc]
    refine hc'.trans ?_
    show runAhead (if Label.counted .skip n = .counted .skip n then none else _) rest _ = _
    rw [if_pos rfl]
    rfl
  obtain ⟨c2, hc2, hflags2, hreg2⟩ := exec_cmpCase k.endVal c1.skip
  have hreg2 : c2.mach.reg 0 = c.mach.reg 0 := hreg2.trans hreg
  refine ⟨c2.skip.skip, hreg2, ?_⟩
  have hhit : Cond.le.holds c2.flags = k.hit (c.mach.reg 0) := by
    have hsame : c1.skip.mach.reg 0 = c.mach.reg 0 := hreg
    rw [hflags2, hsame, subFlags_le, toInt_constOf, Case.hit, Bool.eq_iff_iff, decide_eq_true_iff, decide_eq_true_iff]
    omega
  show runAhead (if Cond.lt.holds c1.flags then some (.counted .skip n) else none)
    ((cmpCase k.endVal ++ [.bcond .le (.unique k.label), .label (.counted .skip n)]) ++ rest) c1.skip = _
  rw [hlt, decide_eq_false hbelow, if_neg (by decide), append_assoc, runAhead_execs hc2]
  show runAhead (if Cond.le.holds c2.flags then some (.unique k.label) else none)
    (.label (.counted .skip n) :: rest) c2.skip = _
  rw [hhit]
  cases k.hit (c.mach.reg 0)
  · rfl
  · show runAhead (if Label.counted .skip n = .unique k.label then none else _) rest _ = _
    rfl

theorem label_mem_casesLines {n : Nat} {ks : List Case} (h : Insn.label l ∈ casesLines n ks) : ∃ m, l = .counted .skip m := by
  induction ks generalizing n with
  | nil => cases h
  | cons k ks ih =>
    rcases mem_append.1 h with h | h
    · unfold caseLines at h
      split at h
      · simp [label_notMem_cmpCase] at h
      · simp [label_notMem_cmpCase] at h
        exact ⟨n, h⟩
    · exact ih h

/-- **The chain**: the first case that is hit. -/
theorem runAhead_cases (n : Nat) (ks : List Case) (rest : List Insn) (c : Cpu) : ∃ c' : Cpu,
    runAhead none (casesLines n ks ++ rest) c =
      runAhead ((ks.find? fun k => k.hit (c.mach.reg 0)).map fun k => .unique k.label) rest c' := by
  induction ks generalizing n c with
  | nil => exact ⟨c, rfl⟩
  | cons k ks ih =>
    obtain ⟨c1, hreg, hc1⟩ := runAhead_case n k (casesLines (if k.begin = k.endVal then n else n + 1) ks ++ rest) c
    unfold casesLines
    rw [append_assoc, hc1, find?_cons]
    cases hhit : k.hit (c.mach.reg 0) with
    | true =>
      have hpass : ∀ l', Insn.label l' ∈ casesLines (if k.begin = k.endVal then n else n + 1) ks →
          l' ≠ .unique k.label := by
        intro l' hl'
        obtain ⟨m, rfl⟩ := label_mem_casesLines hl'
        nofun
      obtain ⟨c', -, hc'⟩ := runAhead_pass hpass rest c1
      exact ⟨c', hc'⟩
    | false =>
      obtain ⟨c', hc'⟩ := ih (if k.begin = k.endVal then n else n + 1) c1
      rw [hreg] at hc'
      exact ⟨c', hc'⟩

/-- The number of the label where the chain goes. -/
def chainTarget (ks : List Case) (default : Option Nat) (brk : Nat) (x : BitVec 64) : Nat :=
  ((ks.find? fun k => k.hit x).map Case.label).getD (default.getD brk)

/-- **What the chain does.** -/
theorem runAhead_chain (n : Nat) (ks : List Case) (default : Option Nat) (brk : Nat) (c : Cpu) :
    ∃ c', runAhead none (chainLines n ks default brk) c = some (some (.unique (chainTarget ks default brk (c.mach.reg 0))), c') := by
  unfold chainLines chainTarget
  rw [append_assoc]
  obtain ⟨c', hc'⟩ := runAhead_cases n ks (defaultLines default ++ [.b (.unique brk)]) c
  rw [hc']
  cases ks.find? fun k => k.hit (c.mach.reg 0) with
  | none =>
    cases default with
    | none => exact ⟨_, rfl⟩
    | some l => exact ⟨_, rfl⟩
  | some k =>
    cases default with
    | none => exact ⟨_, rfl⟩
    | some l => exact ⟨_, rfl⟩

end

/-! ## From the source to the chain -/

section

variable {ks : List CaseConst} {cases : List Case} {k : CaseConst} {kc : Case}

/-- The node, with the first constant also as the last one of a single value. -/
theorem CaseConst.node_eq (k : CaseConst) : k.node =
    if wrap 32 false (k.last.getD k.first) < wrap 32 false k.first then none
    else some ⟨wrap 32 false k.first, wrap 32 false (k.last.getD k.first), k.label⟩ := by
  obtain ⟨first, last, label⟩ := k
  cases last <;> rfl

theorem CaseConst.node_hit (h : k.node = some kc) (x : BitVec 64) : kc.hit x = decide (k.Hit x) ∧ kc.label = k.label := by
  have hwrap : ∀ m, constOf (wrap 32 false m) = constOf m := wrap_wrap (le_refl 32) true false
  rw [CaseConst.node_eq] at h
  split at h
  · cases h
  · obtain rfl := Option.some.inj h
    refine ⟨?_, rfl⟩
    rw [Case.hit, decide_eq_decide, CaseConst.Hit, hwrap, hwrap]

/-- What is found among the nodes is what is found among the constants. -/
theorem find?_nodes {x : BitVec 64} (h : List.Forall₂ (fun k kc => k.node = some kc) ks cases) :
    (cases.find? fun kc => kc.hit x).map Case.label = (ks.find? fun k => decide (k.Hit x)).map CaseConst.label := by
  induction h with
  | nil => rfl
  | @cons k kc ks cases hnode _ ih =>
    obtain ⟨hhit, hlabel⟩ := CaseConst.node_hit hnode x
    rw [find?_cons, find?_cons, hhit]
    cases decide (k.Hit x) with
    | true => exact congrArg some hlabel
    | false => exact ih

/-- The nodes are those of the constants, the last one in front. -/
theorem forall₂_switchCases (h : switchCases ks = some cases) :
    List.Forall₂ (fun k kc => CaseConst.node k = some kc) ks.reverse cases := by
  obtain ⟨nodes, hnodes, rfl⟩ := Option.map_eq_some_iff.1 h
  rw [forall₂_reverse_iff]
  clear h
  induction ks generalizing nodes with
  | nil =>
    obtain rfl := Option.some.inj hnodes
    exact .nil
  | cons k ks ih =>
    rw [mapM_cons] at hnodes
    obtain ⟨kc, hkc, hrest⟩ := Option.bind_eq_some_iff.1 hnodes
    obtain ⟨rest, hks, hcons⟩ := Option.bind_eq_some_iff.1 hrest
    obtain rfl := Option.some.inj hcons
    exact .cons hkc (ih rest hks)

theorem chainTarget_switchCases (h : switchCases ks = some cases) (default : Option Nat) (brk : Nat) (x : BitVec 64) :
    chainTarget cases default brk x = ((lastHit x ks).map CaseConst.label).getD (default.getD brk) := by
  unfold chainTarget lastHit
  rw [find?_nodes (forall₂_switchCases h)]

end

/-! ## The chain in the output -/

section

variable {s : GenState} {code : List Item} {l l' : Option Label} {is : List Insn} {c c' : Cpu}

theorem genCase_insns (k : Case) (s : GenState) : ∃ items,
    genCase k s = some ((), { s with next := if k.begin = k.endVal then s.next else s.next + 1 }, items) ∧
      items.map Item.insn = caseLines s.next k := by
  have hlines : ∀ (d : Int) (is : List Insn), (is.map (Item.mk d)).map Item.insn = is := fun d is => by
    rw [map_map]
    exact map_id is
  unfold genCase caseLines
  split
  · refine ⟨_, bind_some (emits_eq _ s) rfl, ?_⟩
    rw [map_append, hlines]
    rfl
  · refine ⟨_, bind_some rfl (bind_some (emits_eq _ _) (bind_some rfl (bind_some (emits_eq _ _) (bind_some rfl rfl)))), ?_⟩
    simp only [map_append, hlines]
    rfl

theorem genCases_insns (ks : List Case) (s : GenState) : ∃ s' items, genCases ks s = some ((), s', items) ∧
    s'.depth = s.depth ∧ items.map Item.insn = casesLines s.next ks := by
  induction ks generalizing s with
  | nil => exact ⟨s, [], rfl, rfl, rfl⟩
  | cons k ks ih =>
    obtain ⟨first, hfirst, hcase⟩ := genCase_insns k s
    obtain ⟨s', rest, hrest, hdepth, hcases⟩ := ih _
    refine ⟨s', first ++ rest, bind_some hfirst hrest, hdepth, ?_⟩
    rw [map_append, hcase, hcases]
    rfl

/-- What `ND_SWITCH` prints between the controlling expression and the body. -/
theorem genChain_insns (ks : List Case) (default : Option Nat) (brk : Nat) (s : GenState) : ∃ s' items,
    (genCases ks >>= fun _ => genDefault default >>= fun _ => emit (.b (.unique brk))) s = some ((), s', items) ∧
      s'.depth = s.depth ∧ items.map Item.insn = chainLines s.next ks default brk := by
  obtain ⟨s', items, hcases, hdepth, hlines⟩ := genCases_insns ks s
  have hdefault : genDefault default s' = some ((), s', (defaultLines default).map (Item.mk s'.depth)) := by
    cases default <;> rfl
  refine ⟨s', _, bind_some hcases (bind_some hdefault rfl), hdepth, ?_⟩
  rw [map_append, map_append, hlines, map_map, ← append_assoc]
  cases default <;> rfl

/-- The first line with a label. -/
def lineOf (code : List Item) (l : Label) : Option Nat := code.findIdx? fun i =>
  match i.insn with
  | .label l' => l' == l
  | _ => false

/-- The machine goes on at a line. -/
def Cpu.goto (c : Cpu) (q : Nat) : Cpu := { c with mach := { c.mach with pc := q } }

/-- What a line does to the machine with its flags; `none` where it stops. -/
def Cpu.line (code : List Item) (c : Cpu) : Insn → Option Cpu
  | .label _ => some c.skip
  | .b l => (lineOf code l).map c.goto
  | .bcond cond l => if cond.holds c.flags then (lineOf code l).map c.goto else some c.skip
  | i => exec i c

/-- One step through the lines of a function. -/
def Cpu.next (code : List Item) (c : Cpu) : Option Cpu := (code[c.mach.pc]?).bind fun i => c.line code i.insn

/-- The steps one after the other. -/
abbrev Cpu.Goes (code : List Item) : Cpu → Cpu → Prop := Relation.ReflTransGen fun c c' => c.next code = some c'

/-- No label stands on two lines. -/
def LabelsOnce (code : List Item) : Prop := ∀ q l, (code[q]?).map Item.insn = some (.label l) → lineOf code l = some q

theorem lineOf_label {q : Nat} {l : Label} (h : lineOf code l = some q) : (code[q]?).map Item.insn = some (.label l) := by
  obtain ⟨hq, hlabel, -⟩ := findIdx?_eq_some_iff_getElem.1 h
  rw [getElem?_eq_getElem hq, Option.map_some]
  split at hlabel
  · rename_i l' hl'
    rw [hl', eq_of_beq hlabel]
  · cases hlabel

/-- A step is one of the machine without flags. -/
theorem Cpu.next_step (h : c.next code = some c') : Step (fun _ _ => False) code c.mach c'.mach := by
  obtain ⟨⟨d, i⟩, hi, hnext⟩ := Option.bind_eq_some_iff.1 h
  have hjump : ∀ {l}, i.target = some l → (lineOf code l).map c.goto = some c' → Step (fun _ _ => False) code c.mach c'.mach := by
    intro l ht hl
    obtain ⟨q, hq, rfl⟩ := Option.map_eq_some_iff.1 hl
    obtain ⟨j, hj, hlabel⟩ := Option.map_eq_some_iff.1 (lineOf_label hq)
    exact .jump hi ht hj hlabel
  cases i with
  | label l =>
    obtain rfl := Option.some.inj hnext
    exact .next hi (.label l c.mach)
  | b l => exact hjump rfl hnext
  | bcond cond l =>
    change (if _ then _ else _) = _ at hnext
    split at hnext
    · exact hjump rfl hnext
    · obtain rfl := Option.some.inj hnext
      exact .next hi (.bcond cond l c.mach)
  | _ => exact .next hi (exec_does hnext)

/-- The machine gets from `c` to where the lines are, or by a jump to the line with the label. -/
def Reaches (code : List Item) (c d : Cpu) : Option Label → Prop
  | none => Cpu.Goes code c d
  | some l => ∀ q, lineOf code l = some q → Cpu.Goes code c (d.goto q)

/-- **Jumps ahead are steps of the machine.** -/
theorem Reaches.runAhead {b : Cpu} (honce : LabelsOnce code) (h : Reaches code b c l)
    (hrun : Cc.runAhead l is c = some (l', c'))
    (hcode : ∀ k (hk : k < is.length), (code[c.mach.pc + k]?).map Item.insn = some is[k]) : Reaches code b c' l' := by
  induction is generalizing l c with
  | nil =>
    obtain ⟨rfl, rfl⟩ : l = l' ∧ c = c' := by simpa [Cc.runAhead] using hrun
    exact h
  | cons i is ih =>
    have hfirst := hcode 0 (Nat.succ_pos _)
    obtain ⟨⟨d, i⟩, hitem, rfl⟩ := Option.map_eq_some_iff.1 hfirst
    have hrest : ∀ d : Cpu, d.mach.pc = c.mach.pc + 1 →
        ∀ k (hk : k < is.length), (code[d.mach.pc + k]?).map Item.insn = some is[k] := by
      intro d hd k hk
      rw [hd, add_assoc, add_comm 1]
      exact hcode (k + 1) (Nat.succ_lt_succ hk)
    have hnext : c.next code = c.line code i := by
      rw [Cpu.next, show code[c.mach.pc]? = some ⟨d, i⟩ from hitem, Option.bind_some]
    cases l with
    | some l =>
      have hskip : Reaches code b c.skip (some l) := h
      cases i with
      | label l1 =>
        have hgo : Cc.runAhead (if l1 = l then none else some l) is c.skip = some (l', c') := hrun
        split at hgo
        · -- the label of the jump
          rename_i hl
          refine ih ?_ hgo (hrest c.skip rfl)
          exact Relation.ReflTransGen.tail (h c.mach.pc (hl ▸ honce _ _ hfirst)) hnext
        · exact ih hskip hgo (hrest c.skip rfl)
      | _ => exact ih hskip hrun (hrest c.skip rfl)
    | none =>
      have hstep : ∀ d : Cpu, c.next code = some d → Reaches code b d none := fun d hd => Relation.ReflTransGen.tail h hd
      have hjump : ∀ l1, c.next code = (lineOf code l1).map c.goto → Reaches code b c.skip (some l1) := by
        intro l1 hl1 q hq
        rw [hq] at hl1
        exact Relation.ReflTransGen.tail h hl1
      cases i with
      | label l1 => exact ih (hstep c.skip hnext) hrun (hrest c.skip rfl)
      | b l1 => exact ih (hjump l1 hnext) hrun (hrest c.skip rfl)
      | bcond cond l1 =>
        have hgo : Cc.runAhead (if cond.holds c.flags then some l1 else none) is c.skip = some (l', c') := hrun
        split at hgo
        · rename_i hcond
          exact ih (hjump l1 (hnext.trans (if_pos hcond))) hgo (hrest c.skip rfl)
        · rename_i hcond
          exact ih (hstep c.skip (hnext.trans (if_neg hcond))) hgo (hrest c.skip rfl)
      | _ =>
        obtain ⟨d, hd, hgo⟩ := Option.bind_eq_some_iff.1 hrun
        exact ih (hstep d (hnext.trans hd)) hgo (hrest d (exec_pc hd))

/-- **The machine follows the chain**: from its first line it gets to the line with the label that the chain chooses. -/
theorem chain_steps {ks : List Case} {default : Option Nat} {n brk q : Nat} (honce : LabelsOnce code)
    (hcode : ∀ k (hk : k < (chainLines n ks default brk).length),
      (code[c.mach.pc + k]?).map Item.insn = some (chainLines n ks default brk)[k])
    (hq : lineOf code (.unique (chainTarget ks default brk (c.mach.reg 0))) = some q) :
    ∃ c', c'.mach.pc = q ∧ Cpu.Goes code c c' := by
  obtain ⟨c', hc'⟩ := runAhead_chain n ks default brk c
  have hstart : Reaches code c c none := Relation.ReflTransGen.refl
  exact ⟨_, rfl, hstart.runAhead honce hc' hcode q hq⟩

end

/-! ## Where control goes -/

section

variable {t : IntType} {v : Int} {n : Nat} {ks : List CaseConst} {cases : List Case} {default : Option Nat} {brk : Nat} {c : Cpu}

theorem switchRight_target (hcases : switchCases ks = some cases) : SwitchRight t v n ks cases default brk c ↔ ∃ l,
    l = ((lastHit (c.mach.reg 0) ks).map CaseConst.label).getD (default.getD brk) ∧
      ((∃ k ∈ ks, k.Contains t v ∧ l = k.label) ∨ (∀ k ∈ ks, ¬ k.Contains t v) ∧ l = default.getD brk) := by
  obtain ⟨c', hc'⟩ := runAhead_chain n cases default brk c
  rw [chainTarget_switchCases hcases] at hc'
  constructor
  · rintro ⟨l, c1, hrun, hright⟩
    cases Option.some.inj (hc'.symm.trans hrun)
    exact ⟨_, rfl, hright⟩
  · rintro ⟨l, rfl, hright⟩
    exact ⟨_, c', hc', hright⟩

theorem lastHit_mem {x : BitVec 64} {k : CaseConst} (h : lastHit x ks = some k) : k ∈ ks ∧ k.Hit x := by
  have hhit := find?_some h
  exact ⟨mem_reverse.1 (mem_of_find?_eq_some h), of_decide_eq_true hhit⟩

/-- Control goes where the statement says exactly when the last case whose comparisons succeed contains the value, and no
case contains it if none succeeds. -/
theorem switchRight_lastHit (hcases : switchCases ks = some cases)
    (hlabels : (ks.map CaseConst.label ++ [default.getD brk]).Nodup) :
    SwitchRight t v n ks cases default brk c ↔ (∀ k, lastHit (c.mach.reg 0) ks = some k → k.Contains t v) ∧
      (lastHit (c.mach.reg 0) ks = none → ∀ k ∈ ks, ¬ k.Contains t v) := by
  obtain ⟨hdistinct, -, hother⟩ := nodup_append.1 hlabels
  have hother : ∀ k ∈ ks, k.label ≠ default.getD brk := fun k hk =>
    hother k.label (mem_map_of_mem hk) (default.getD brk) (mem_singleton_self _)
  rw [switchRight_target hcases]
  cases hlast : lastHit (c.mach.reg 0) ks with
  | none =>
    constructor
    · rintro ⟨l, rfl, ⟨k, hk, -, hlabel⟩ | ⟨hnone, -⟩⟩
      · exact absurd hlabel.symm (hother k hk)
      · exact ⟨nofun, fun _ => hnone⟩
    · rintro ⟨-, hnone⟩
      exact ⟨_, rfl, .inr ⟨hnone rfl, rfl⟩⟩
  | some k =>
    have hk := (lastHit_mem hlast).1
    constructor
    · rintro ⟨l, rfl, ⟨k', hk', hcontains, hlabel⟩ | ⟨-, hlabel⟩⟩
      · refine ⟨?_, nofun⟩
        rintro _ ⟨⟩
        have hsame : k = k' := inj_on_of_nodup_map hdistinct hk hk' hlabel
        rwa [hsame]
      · exact absurd hlabel (hother k hk)
    · rintro ⟨hcontains, -⟩
      exact ⟨_, rfl, .inl ⟨k, hk, hcontains k rfl, rfl⟩⟩

end

/-! ## The constants -/

section

variable {t : IntType} {v : Int} {n : Nat} {ks : List CaseConst} {cases : List Case} {default : Option Nat} {brk : Nat} {c : Cpu}
  {x : BitVec 64} {k : CaseConst}

theorem constOf_range (m : Int) : 0 ≤ constOf m ∧ constOf m < 2 ^ 32 := inRange_wrap 32 true m

/-- A type has 64 bits, or is promoted to 32 bits that hold its values. -/
theorem promote_cases (t : IntType) : (∃ s, t = .long s) ∧ t.ty.size = 8 ∧ t.limit = 2 ^ 32 ∨
    (∃ s, t.promote = .int s ∧ ∀ v, t.Fits v → InRange 32 s v) ∧ t.ty.size ≠ 8 ∧ t.limit = 2 ^ 31 := by
  cases t with
  | long s => exact .inl ⟨⟨s, rfl⟩, rfl, rfl⟩
  | int s => exact .inr ⟨⟨s, rfl, fun v h => h⟩, (by decide : 4 ≠ 8), rfl⟩
  | char s =>
    refine .inr ⟨⟨false, rfl, fun v h => ?_⟩, (by decide : 1 ≠ 8), rfl⟩
    cases s with
    | true => exact InRange.signed h (by decide)
    | false => exact InRange.mono h (by decide)
  | short s =>
    refine .inr ⟨⟨false, rfl, fun v h => ?_⟩, (by decide : 2 ≠ 8), rfl⟩
    cases s with
    | true => exact InRange.signed h (by decide)
    | false => exact InRange.mono h (by decide)
  | bool =>
    refine .inr ⟨⟨false, rfl, fun v h => ?_⟩, by decide, rfl⟩
    obtain rfl | rfl : v = 0 ∨ v = 1 := h
    · exact ⟨by decide, by decide⟩
    · exact ⟨by decide, by decide⟩

/-- A constant below `2 ^ 32` is not changed by the cut. -/
theorem constOf_eq {m : Int} (h0 : 0 ≤ t.promote.convert m) (h1 : t.promote.convert m < 2 ^ 32) :
    constOf m = t.promote.convert m := by
  have hsame : ∃ w s, 32 ≤ w ∧ t.promote.convert m = wrap w s m := by
    rcases promote_cases t with ⟨⟨s, rfl⟩, -⟩ | ⟨⟨s, ht, -⟩, -⟩
    · exact ⟨64, s, by decide, rfl⟩
    · rw [ht]
      exact ⟨32, s, by decide, rfl⟩
  obtain ⟨w, s, hw, hm⟩ := hsame
  rw [hm] at h0 h1 ⊢
  rw [constOf, ← wrap_wrap hw true s m]
  exact wrap_of_inRange ⟨h0, h1⟩

/-- Of 32 bits, a cut constant below `2 ^ 31` is the constant. -/
theorem convert_eq_constOf {s : Bool} {m : Int} (ht : t.promote = .int s) (h : constOf m < 2 ^ 31) :
    t.promote.convert m = constOf m := by
  have h0 := (constOf_range m).1
  rw [ht]
  show wrap 32 s m = _
  rw [← wrap_wrap (le_refl 32) s true m]
  cases s with
  | true => exact wrap_of_inRange ⟨h0, by unfold constOf at h; omega⟩
  | false =>
    exact wrap_of_inRange ⟨by unfold constOf at h0; omega, by unfold constOf at h; omega⟩

theorem toInt_of_inX0 (h : InX0 t v x) (h0 : 0 ≤ v) (h1 : v < t.limit) : x.toInt = v := by
  obtain ⟨u, hu, rfl⟩ := h
  have hcut : u.cut v = v := by
    rcases promote_cases t with ⟨-, hsize, -⟩ | ⟨-, hsize, hlimit⟩
    · rw [hu.2 hsize]
      rfl
    · rw [hlimit] at h1
      cases u with
      | sign => exact wrap_of_inRange ⟨by omega, by omega⟩
      | zero => exact wrap_of_inRange ⟨h0, by omega⟩
      | full => exact absurd (hu.1 rfl) hsize
  have hlimit : t.limit ≤ 2 ^ 32 := by
    unfold IntType.limit
    split <;> decide
  rw [hcut, BitVec.toInt_ofInt]
  exact Int.bmod_eq_of_le (by omega) (by omega)

/-- A value of a 64-bit type that is not negative in the register is what the register says. -/
theorem eq_toInt_of_long {s : Bool} (hv : (IntType.long s).Fits v) (h : InX0 (.long s) v x) (h0 : 0 ≤ x.toInt) : v = x.toInt := by
  obtain ⟨u, hu, rfl⟩ := h
  obtain rfl : u = .full := hu.2 rfl
  rw [show Upper.full.cut v = v from rfl, BitVec.toInt_ofInt] at h0 ⊢
  have hsigned : InRange 64 s (v.bmod (2 ^ 64)) := by
    have hrange : InRange 64 false (v.bmod (2 ^ 64)) := inRange_wrap 64 false v
    cases s with
    | false => exact hrange
    | true => exact ⟨h0, by have := hrange.2; omega⟩
  exact hv.unique hsigned (by
    rw [← dvd_neg, neg_sub]
    exact dvd_wrap_sub 64 false v)

/-- Where no case has a value outside the limits, the bounds of a case with values are not changed by the cut. -/
theorem constOf_bounds (hnice : ∀ v, t.Fits v → ∀ k ∈ ks, k.Contains t v → v < t.limit) (hk : k ∈ ks) (hv : t.Fits v)
    (hcontains : k.Contains t v) (h0 : 0 ≤ t.promote.convert k.first) :
    constOf k.first = t.promote.convert k.first ∧ constOf (k.last.getD k.first) = t.promote.convert (k.last.getD k.first) := by
  obtain ⟨hlo, hhi⟩ := hcontains
  have hlt := hnice v hv k hk ⟨hlo, hhi⟩
  rcases promote_cases t with ⟨⟨s, rfl⟩, -, hlimit⟩ | ⟨⟨s, ht, -⟩, -, hlimit⟩
  · have hlast := hnice _ (fits_convert (.long s) (k.last.getD k.first)) k hk ⟨hlo.trans hhi, le_refl _⟩
    rw [hlimit] at hlt hlast
    exact ⟨constOf_eq h0 (by omega), constOf_eq (by omega) hlast⟩
  · have hlast : t.promote.convert (k.last.getD k.first) < 2 ^ 32 := by
      rw [ht]
      have hrange : InRange 32 s (wrap 32 s (k.last.getD k.first)) := inRange_wrap 32 s _
      cases s with
      | true => exact hrange.2
      | false =>
        have := hrange.2
        show wrap 32 false _ < _
        omega
    rw [hlimit] at hlt
    exact ⟨constOf_eq h0 (by omega), constOf_eq (by omega) hlast⟩

/-- With 32 bits, a case whose comparisons succeed contains the value. -/
theorem contains_of_hit {s : Bool} {kc : Case} (ht : t.promote = .int s) (hsize : t.ty.size ≠ 8) (hv : InRange 32 s v)
    (hx : InX0 t v x) (hnode : k.node = some kc) (hhit : k.Hit x) : k.Contains t v := by
  obtain ⟨u, hu, rfl⟩ := hx
  have hsign : ∀ m, wrap 32 false m = constOf m ∧ constOf m < 2 ^ 31 ∨ wrap 32 false m = constOf m - 2 ^ 32 ∧ 2 ^ 31 ≤ constOf m := by
    intro m
    rw [show wrap 32 false m = if m % 4294967296 < 2147483648 then m % 4294967296 else m % 4294967296 - 4294967296 from rfl]
    show _ ∧ m % 4294967296 < _ ∨ _ ∧ _ ≤ m % 4294967296
    split
    · exact .inl ⟨rfl, by omega⟩
    · exact .inr ⟨rfl, by omega⟩
  have hx : (BitVec.ofInt 64 (u.cut v)).toInt = wrap 32 false v ∨ (BitVec.ofInt 64 (u.cut v)).toInt = constOf v := by
    have hw := constOf_range v
    rcases u with _ | _ | _
    · refine .inl ((BitVec.toInt_ofInt ..).trans (Int.bmod_eq_of_le ?_ ?_))
      · have := hsign v
        change _ ≤ wrap 32 false v
        omega
      · have := hsign v
        change wrap 32 false v < _
        omega
    · exact .inr (toInt_constOf v)
    · exact absurd (hu.1 rfl) hsize
  unfold CaseConst.Contains
  rw [CaseConst.node_eq] at hnode
  rw [ht]
  show wrap 32 s k.first ≤ v ∧ v ≤ wrap 32 s (k.last.getD k.first)
  obtain ⟨hlo, hhi⟩ := hhit
  generalize (BitVec.ofInt 64 (u.cut v)).toInt = y at *
  have hw := constOf_range v
  have hfirst := hsign k.first
  have hlast := hsign (k.last.getD k.first)
  have hvalue := hsign v
  cases s with
  | true =>
    have hv : constOf v = v := wrap_of_inRange hv
    show constOf k.first ≤ v ∧ v ≤ constOf (k.last.getD k.first)
    have := constOf_range k.first
    omega
  | false =>
    have hv : wrap 32 false v = v := wrap_of_inRange hv
    split at hnode
    · cases hnode
    rename_i hnonempty
    have := constOf_range k.first
    have := constOf_range (k.last.getD k.first)
    omega

theorem exists_inX0 (hv : t.Fits v) :
    ∃ x, InX0 t v x ∧ (0 ≤ x.toInt → x.toInt < 2 ^ 32 → 0 ≤ v ∧ v < t.limit) := by
  rcases promote_cases t with ⟨⟨s, rfl⟩, -, -⟩ | ⟨⟨s, -, hrange⟩, hsize, hlimit⟩
  · have hx : InX0 (.long s) v (BitVec.ofInt 64 v) := ⟨.full, iff_of_true rfl rfl, rfl⟩
    refine ⟨_, hx, fun h0 h1 => ?_⟩
    rw [eq_toInt_of_long hv hx h0]
    exact ⟨h0, h1⟩
  refine ⟨_, ⟨.sign, iff_of_false nofun hsize, rfl⟩, fun h0 _ => ?_⟩
  have hsigned : InRange 32 false (wrap 32 false v) := inRange_wrap 32 false v
  obtain ⟨hlo, hhi⟩ := hsigned
  rw [show Upper.sign.cut v = wrap 32 false v from rfl, BitVec.toInt_ofInt, Int.bmod_eq_of_le (by omega) (by omega)] at h0
  have hsame : v = wrap 32 false v := by
    refine (hrange v hv).unique ?_ (by
      rw [← dvd_neg, neg_sub]
      exact dvd_wrap_sub 32 false v)
    cases s with
    | false => exact ⟨hlo, hhi⟩
    | true => exact ⟨h0, by omega⟩
  rw [hsame, hlimit]
  exact ⟨h0, by omega⟩

theorem node_of_mem (hcases : switchCases ks = some cases) (hk : k ∈ ks) : ∃ kc, k.node = some kc := by
  have hnodes : ∀ {l l'}, List.Forall₂ (fun k kc => CaseConst.node k = some kc) l l' → k ∈ l → ∃ kc, k.node = some kc := by
    intro l l' h
    induction h with
    | nil => nofun
    | cons hnode _ ih =>
      intro hk
      rcases mem_cons.1 hk with rfl | hk
      · exact ⟨_, hnode⟩
      · exact ih hk
  exact hnodes (forall₂_switchCases hcases) (mem_reverse.2 hk)

/-- A case that contains the value is hit, where the constants fit. -/
theorem ConstsFit.hit (h : ConstsFit t ks) (hk : k ∈ ks) (h0 : 0 ≤ t.promote.convert k.first) (hv : t.Fits v)
    (hcontains : k.Contains t v) (hx : InX0 t v x) : k.Hit x := by
  obtain ⟨hfirst, hlast⟩ := constOf_bounds (fun v hv k hk hc => (h.reached v hv k hk hc).1) hk hv hcontains h0
  rw [CaseConst.Hit, hfirst, hlast, toInt_of_inX0 hx (h0.trans hcontains.1) (h.reached v hv k hk hcontains).1]
  exact hcontains

/-- Of 64 bits, no case has a value below 0. -/
theorem ConstsFit.nonneg {s : Bool} (h : ConstsFit (.long s) ks) (hk : k ∈ ks)
    (hne : (IntType.long s).convert k.first ≤ (IntType.long s).convert (k.last.getD k.first)) :
    0 ≤ (IntType.long s).convert k.first := by
  obtain ⟨-, k', -, h0, hlo, -⟩ := h.reached _ (fits_convert (.long s) k.first) k hk ⟨le_refl _, hne⟩
  exact h0.trans hlo

theorem ConstsFit.right (h : ConstsFit t ks) (hcases : switchCases ks = some cases) (hv : t.Fits v) (hx : InX0 t v x) :
    (∀ k, lastHit x ks = some k → k.Contains t v) ∧ (lastHit x ks = none → ∀ k ∈ ks, ¬ k.Contains t v) := by
  constructor
  · intro k hlast
    obtain ⟨hk, hhit⟩ := lastHit_mem hlast
    rcases promote_cases t with ⟨⟨s, rfl⟩, -, -⟩ | ⟨⟨s, ht, hrange⟩, hsize, -⟩
    · have hvx := eq_toInt_of_long hv hx ((constOf_range k.first).1.trans hhit.1)
      obtain ⟨hlo, hhi⟩ := hhit
      rw [← hvx] at hlo hhi
      rcases lt_or_ge ((IntType.long s).convert (k.last.getD k.first)) ((IntType.long s).convert k.first) with hempty | hne
      · -- a later case contains the value, and would have been hit
        obtain ⟨-, late, early, hsplit, hmiss⟩ := find?_eq_some_iff_append.1 hlast
        have hks : ks = early.reverse ++ k :: late.reverse := by
          rw [← reverse_reverse ks, hsplit]
          simp
        obtain ⟨k', hk', hcontains⟩ := h.covered _ k _ hks hempty v hlo hhi
        have hmem : k' ∈ ks := hks ▸ mem_append_right _ (mem_cons_of_mem k hk')
        have hhit' := h.hit hmem (h.nonneg hmem (hcontains.1.trans hcontains.2)) hv hcontains hx
        have hno := hmiss k' (mem_reverse.1 hk')
        rw [decide_eq_true hhit'] at hno
        cases hno
      · obtain ⟨hfirst, hend⟩ := constOf_bounds (fun v hv k hk hc => (h.reached v hv k hk hc).1) hk
          (fits_convert (.long s) k.first) ⟨le_refl _, hne⟩ (h.nonneg hk hne)
        exact ⟨hfirst ▸ hlo, hend ▸ hhi⟩
    · obtain ⟨kc, hnode⟩ := node_of_mem hcases hk
      exact contains_of_hit ht hsize (hrange v hv) hx hnode hhit
  · intro hnone k hk hcontains
    obtain ⟨-, k', hk', h0, hcontains'⟩ := h.reached v hv k hk hcontains
    have hmiss := find?_eq_none.1 hnone k' (mem_reverse.2 hk')
    exact hmiss (decide_eq_true (h.hit hk' h0 hv hcontains' hx))

/-- If the choice is right for every value then the bounds of all cases fit. -/
theorem constsFit_of_right (hcases : switchCases ks = some cases) (h : ∀ v x, t.Fits v → InX0 t v x →
    (∀ k, lastHit x ks = some k → k.Contains t v) ∧ (lastHit x ks = none → ∀ k ∈ ks, ¬ k.Contains t v)) : ConstsFit t ks := by
  -- a value in a case is below the limit, and lies between the cut bounds of a case that contains it
  have hreached : ∀ v, t.Fits v → ∀ k ∈ ks, k.Contains t v →
      0 ≤ v ∧ v < t.limit ∧ ∃ k' ∈ ks, k'.Contains t v ∧ constOf k'.first ≤ v := by
    intro v hv k hk hcontains
    obtain ⟨x, hx, hrange⟩ := exists_inX0 hv
    obtain ⟨hsome, hnone⟩ := h v x hv hx
    cases hlast : lastHit x ks with
    | none => exact absurd hcontains (hnone hlast k hk)
    | some k' =>
      obtain ⟨hk', hhit⟩ := lastHit_mem hlast
      obtain ⟨h0, h1⟩ := hrange ((constOf_range _).1.trans hhit.1) (hhit.2.trans_lt (constOf_range _).2)
      exact ⟨h0, h1, k', hk', hsome k' hlast, toInt_of_inX0 hx h0 h1 ▸ hhit.1⟩
  refine ⟨fun v hv k hk hcontains => ?_, fun pre k post hks hempty v hlo hhi => ?_⟩
  · obtain ⟨-, hlimit, k', hk', hcontains', hcut⟩ := hreached v hv k hk hcontains
    refine ⟨hlimit, k', hk', ?_, hcontains'⟩
    rcases promote_cases t with ⟨⟨s, rfl⟩, -, -⟩ | ⟨⟨s, ht, -⟩, -, h31⟩
    · exact (hreached _ (fits_convert (.long s) k'.first) k' hk' ⟨le_refl _, hcontains'.1.trans hcontains'.2⟩).1
    · rw [convert_eq_constOf ht (by omega)]
      exact (constOf_range _).1
  have hk : k ∈ ks := hks ▸ mem_append_right _ (mem_cons_self ..)
  rcases promote_cases t with ⟨⟨s, rfl⟩, -, hlimit⟩ | ⟨⟨s, ht, -⟩, -, -⟩
  · have h0 := (constOf_range k.first).1.trans hlo
    have h1 := hhi.trans_lt (constOf_range _).2
    have hv : (IntType.long s).Fits v := by
      cases s with
      | true => exact ⟨h0, by omega⟩
      | false => exact ⟨by omega, by omega⟩
    have hx : InX0 (.long s) v (BitVec.ofInt 64 v) := ⟨.full, iff_of_true rfl rfl, rfl⟩
    have hhit : k.Hit (BitVec.ofInt 64 v) := by
      rw [CaseConst.Hit, toInt_of_inX0 hx h0 (hlimit ▸ h1)]
      exact ⟨hlo, hhi⟩
    have hlast : lastHit (BitVec.ofInt 64 v) ks =
        (post.reverse.find? fun k => decide (k.Hit (BitVec.ofInt 64 v))).or (some k) := by
      rw [lastHit, hks, reverse_append, reverse_cons, append_assoc, find?_append, singleton_append]
      refine congrArg _ (find?_cons_of_pos ?_)
      exact decide_eq_true hhit
    cases hpost : post.reverse.find? fun k => decide (k.Hit (BitVec.ofInt 64 v)) with
    | some k' =>
      rw [hpost] at hlast
      exact ⟨k', mem_reverse.1 (mem_of_find?_eq_some hpost), (h v _ hv hx).1 k' hlast⟩
    | none =>
      rw [hpost] at hlast
      have hcontains := (h v _ hv hx).1 k hlast
      exact absurd (hcontains.1.trans hcontains.2) (not_le.2 hempty)
  -- of 32 bits, such a range is refused by the parser, or empty after the cut
  obtain ⟨kc, hnode⟩ := node_of_mem hcases hk
  rw [CaseConst.node_eq] at hnode
  rw [ht] at hempty
  cases s with
  | true => exact absurd (hlo.trans hhi) (not_le.2 hempty)
  | false =>
    rw [if_pos (show wrap 32 false _ < wrap 32 false _ from hempty)] at hnode
    cases hnode

/-- A machine with a value in `x0`. -/
def switchCpu (x : BitVec 64) : Cpu := ⟨⟨0, 0, fun _ => x, fun _ => 0, fun _ => 0⟩, ⟨false, false, false, false⟩⟩

/-- **A switch on the machine**: in front of the lines that are printed for it the machine gets to the label of the last
case in the source whose comparisons succeed; if there is none, to that of the default case or to the end. -/
theorem switch_steps (hcases : switchCases ks = some cases) {s s' : GenState} {code before items after : List Item} {q : Nat}
    (hgen : (genCases cases >>= fun _ => genDefault default >>= fun _ => emit (.b (.unique brk))) s =
      some ((), s', items))
    (hcode : code = before ++ (items ++ after)) (honce : LabelsOnce code) (hpc : c.mach.pc = before.length)
    (hq : lineOf code (.unique (((lastHit (c.mach.reg 0) ks).map CaseConst.label).getD (default.getD brk))) = some q) :
    ∃ c', c'.mach.pc = q ∧ Cpu.Goes code c c' := by
  obtain ⟨s1, items1, hgen1, -, hlines⟩ := genChain_insns cases default brk s
  cases hgen.symm.trans hgen1
  refine chain_steps (n := s.next) honce (fun k hk => ?_) (chainTarget_switchCases hcases default brk _ ▸ hq)
  have hk' : k < items.length := by simpa [← hlines] using hk
  rw [hcode, hpc, getElem?_append_right (Nat.le_add_right ..), Nat.add_sub_cancel_left, getElem?_append_left hk',
    ← getElem?_map, hlines]
  exact getElem?_eq_getElem _

/-- `case 7` and `default` for the value 7, with the code of both behind the chain. -/
theorem switch_steps_small : ∃ c' : Cpu, c'.mach.pc = 4 ∧ Cpu.Goes
    ((chainLines 0 [⟨7, 7, 2⟩] (some 3) 4).map (Item.mk 0) ++ [⟨0, .label (.unique 2)⟩, ⟨0, .label (.unique 3)⟩,
      ⟨0, .label (.unique 4)⟩]) (switchCpu 7) c' := by
  refine @switch_steps [⟨7, none, 2⟩] [⟨7, 7, 2⟩] (some 3) 4 _ rfl ⟨0, 0⟩ _ _ [] _ _ _ rfl rfl ?_ rfl rfl
  rintro q l h
  rcases q with _ | _ | _ | _ | _ | _ | _ | q
  all_goals
    cases h
    try rfl

end

end Slopix.Cc
