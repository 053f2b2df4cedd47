import Slopix.Cc.Varargs

/-!
# The calling convention

A call puts every argument in its place, and the called function finds it there, as long as the two sides agree:
the caller pushes `d0` for a `long double`, whose value is in `x0`; and it pushes slots of 16 bytes, where the
function counts 8 bytes for each argument that is no `long double`, from the first argument on the stack for the
named ones and again for the others.
-/

namespace Slopix.Cc

open List

/-! ## Arguments on the stack -/

section

variable {tys tys' : List Ty} {gp fp st : Nat}

/-- An argument and the parameter or the `va_arg` that takes it: of one kind, and no aggregate. -/
def SameClass (arg ty : Ty) : Prop :=
  arg.isFlonum = ty.isFlonum ∧ arg.isAggregate = false ∧ (arg.kind = .ldouble → ty.kind = .ldouble)

theorem places_congr (h : List.Forall₂ SameClass tys tys') : places tys gp fp st = places tys' gp fp st := by
  induction h generalizing gp fp st with
  | nil => rfl
  | cons hty _ ih => simp only [places, hty.1, ih]

theorem places_append (hagg : ∀ ty ∈ tys, ty.isAggregate = false) :
    places (tys ++ tys') gp fp st = places tys gp fp st ++
      places tys' (gp + tys.countP fun ty => !ty.isFlonum) (fp + tys.countP Ty.isFlonum)
        (st + (Fn.stackTypes tys gp fp).length) := by
  induction tys generalizing gp fp st with
  | nil => simp [places, Fn.stackTypes, picked]
  | cons ty tys ih =>
    have hty : ¬ ty.isAggregate = true := by simp [hagg ty mem_cons_self]
    have hrest := fun t ht => hagg t (mem_cons_of_mem _ ht)
    rw [cons_append, places, places, Fn.stackTypes, passByStack, if_neg hty]
    by_cases hfl : ty.isFlonum
    · rw [if_pos hfl, if_pos hfl, if_pos hfl]
      by_cases hlt : fp < 8
      · rw [if_pos hlt, if_pos hlt, ih hrest, show decide (8 ≤ fp) = false by simp [hlt]]
        simp [hfl, picked, Fn.stackTypes, Nat.add_assoc, Nat.add_comm 1]
      · rw [if_neg hlt, if_neg hlt, ih hrest, show decide (8 ≤ fp) = true by simp [Nat.le_of_not_lt hlt]]
        simp [hfl, picked, Fn.stackTypes, Nat.add_assoc, Nat.add_comm 1]
    rw [if_neg hfl, if_neg hfl, if_neg hfl]
    by_cases hlt : gp < 8
    · rw [if_pos hlt, if_pos hlt, ih hrest, show decide (8 ≤ gp) = false by simp [hlt]]
      simp [hfl, picked, Fn.stackTypes, Nat.add_assoc, Nat.add_comm 1]
    · rw [if_neg hlt, if_neg hlt, ih hrest, show decide (8 ≤ gp) = true by simp [Nat.le_of_not_lt hlt]]
      simp [hfl, picked, Fn.stackTypes, Nat.add_assoc, Nat.add_comm 1]

/-- The stack slots are as many as the arguments on the stack. -/
theorem slot_iff (hagg : ∀ ty ∈ tys, ty.isAggregate = false) (e : Nat) :
    .slot (st + e) ∈ places tys gp fp st ↔ e < (Fn.stackTypes tys gp fp).length := by
  induction tys generalizing gp fp st e with
  | nil => simp [places, Fn.stackTypes, picked]
  | cons ty tys ih =>
    have hty : ¬ ty.isAggregate = true := by simp [hagg ty mem_cons_self]
    have hrest := fun t ht => hagg t (mem_cons_of_mem _ ht)
    have hstack : ∀ gp' fp', .slot (st + e) ∈ Place.slot st :: places tys gp' fp' (st + 1) ↔
        e < (ty :: Fn.stackTypes tys gp' fp').length := by
      intro gp' fp'
      cases e with
      | zero => simp
      | succ e =>
        rw [mem_cons, show st + (e + 1) = st + 1 + e by omega, ih hrest, length_cons]
        have hne : ¬ Place.slot (st + 1 + e) = .slot st := fun h => by
          have := Place.slot.inj h
          omega
        simp [hne]
    rw [places, Fn.stackTypes, passByStack, if_neg hty]
    by_cases hfl : ty.isFlonum
    · rw [if_pos hfl, if_pos hfl]
      by_cases hlt : fp < 8
      · rw [if_pos hlt, show decide (8 ≤ fp) = false by simp [hlt]]
        simpa [picked, Fn.stackTypes] using ih hrest e
      · rw [if_neg hlt, show decide (8 ≤ fp) = true by simp [Nat.le_of_not_lt hlt]]
        exact hstack _ _
    rw [if_neg hfl, if_neg hfl]
    by_cases hlt : gp < 8
    · rw [if_pos hlt, show decide (8 ≤ gp) = false by simp [hlt]]
      simpa [picked, Fn.stackTypes] using ih hrest e
    · rw [if_neg hlt, show decide (8 ≤ gp) = true by simp [Nat.le_of_not_lt hlt]]
      exact hstack _ _

theorem span_of_fit (hscalar : ∀ ty ∈ tys, ty.Scalar) (hfit : ∀ ty ∈ tys.dropLast, 8 < ty.size) {e : Nat}
    (he : e < tys.length) : Fn.stackSpan tys e = 16 * e := by
  induction tys generalizing e with
  | nil => cases he
  | cons ty tys ih =>
    cases e with
    | zero => rfl
    | succ e =>
      have hne : tys ≠ [] := by
        rintro rfl
        simp at he
      rw [dropLast_cons_of_ne_nil hne] at hfit
      have hbig := hfit ty mem_cons_self
      have hsize : max 8 ty.size = 16 := by
        have hty := hscalar ty mem_cons_self
        cases hfl : ty.isFlonum with
        | false =>
          have := hty.general hfl
          omega
        | true =>
          have := hty.floating hfl
          omega
      have hrest := ih (fun t ht => hscalar t (mem_cons_of_mem _ ht))
        (fun t ht => hfit t (mem_cons_of_mem _ ht)) (by simpa using he)
      simp only [Fn.stackSpan, take_succ_cons, map_cons, sum_cons] at hrest ⊢
      omega

/-- Behind the first type of at most 8 bytes the function is 8 bytes short of the slot. -/
theorem span_of_unfit (hscalar : ∀ ty ∈ tys, ty.Scalar) (hfit : ¬ ∀ ty ∈ tys.dropLast, 8 < ty.size) :
    ∃ e, e + 1 < tys.length ∧ Fn.stackSpan tys (e + 1) = 16 * e + 8 := by
  induction tys with
  | nil => exact absurd (by simp) hfit
  | cons ty tys ih =>
    have hne : tys ≠ [] := by
      rintro rfl
      exact hfit (by simp)
    have hpos : 0 < tys.length := length_pos_iff.2 hne
    rw [dropLast_cons_of_ne_nil hne] at hfit
    by_cases hbig : 8 < ty.size
    · have hsize : max 8 ty.size = 16 := by
        have hty := hscalar ty mem_cons_self
        cases hfl : ty.isFlonum with
        | false =>
          have := hty.general hfl
          omega
        | true =>
          have := hty.floating hfl
          omega
      obtain ⟨e, he, hspan⟩ := ih (fun t ht => hscalar t (mem_cons_of_mem _ ht))
        fun hall => hfit (forall_mem_cons.2 ⟨hbig, hall⟩)
      refine ⟨e + 1, by rw [length_cons]; omega, ?_⟩
      simp only [Fn.stackSpan, take_succ_cons, map_cons, sum_cons] at hspan ⊢
      omega
    refine ⟨0, by rw [length_cons]; omega, ?_⟩
    simp only [Fn.stackSpan, take_succ_cons, map_cons, sum_cons, take_zero, map_nil, sum_nil]
    omega

end

/-! ## Calls and entries -/

/-- A call in the code of a function; `top` is the address of the caller's lowest variable. -/
structure CallSite where
  offset : Nat → Int
  ty : Ty
  lhs : Expr
  args : Args
  start : GenState
  stop : GenState
  lines : List Item
  code : List Item
  top : Int

/-- The lines of a call are in the code at `pc`. A function with `leftover` pushes is not accepted. -/
structure CallSite.At (c : CallSite) (m : Mach) : Prop where
  gen : genExpr c.offset (.funcall c.ty c.lhs c.args) c.start = some ((), c.stop, c.lines)
  here : c.lines <+: c.code.drop m.pc
  args : c.args.leftover = 0
  lhs : c.lhs.leftover = 0
  next : 0 < c.start.next
  top : m.sp ≤ c.top

/-- The arguments on the stack and the padding. -/
def CallSite.slots (c : CallSite) : Nat := stackCount c.args.types + padding c.start.depth c.args.types

/-- The state in which a called function starts, after the `blr`. -/
structure Enters (m entry : Mach) : Prop where
  pc : entry.pc = 0
  sp : entry.sp = m.sp
  x : ∀ r, r ≠ 30 → entry.x r = m.x r
  d : entry.d = m.d
  mem : entry.mem = m.mem

namespace Fn

variable (fn : Fn)

/-- In front of the body every parameter has its value, and so has every argument that `va_arg` fetches. -/
structure ArgsHeld (ftys : List Ty) (vs : List (BitVec 64)) (entry m : Mach) : Prop where
  named : ∀ (j i : Nat) (v : BitVec 64), fn.params[j]? = some i → vs[j]? = some v →
    m.mem.Holds (entry.sp - 16 + fn.offset i) (min 8 (fn.varTy i).size) v
  variadic : ∀ area, fn.isVariadic = true → fn.vaArea = some area →
    ∀ (j : Nat) (ty : Ty) (v : BitVec 64) (a : Int), ftys[j]? = some ty → vs[fn.params.length + j]? = some v →
      (vaArgs (VaList.read m.mem (entry.sp - 16 + fn.offset area)) ftys)[j]? = some a →
      m.mem.Holds a (min 8 ty.size) v

/-- Every call with arguments of these kinds gives `sp` back, and the function with this code gets the values of
its arguments. -/
def TakesArguments (code : List Item) (ftys : List Ty) : Prop :=
  ∀ (c : CallSite) (vs ws : List (BitVec 64)) (m m1 : Mach), c.At m →
    List.Forall₂ SameClass c.args.types (fn.paramTys ++ ftys) →
    CallRun c.code c.top c.offset c.lhs c.args vs ws c.start m m1 →
    (∀ (keep : Mach → Int → Prop) (back m2 : Mach), back.pc = m1.pc + 1 → back.sp = m1.sp →
      Steps keep c.code (afterCall c.ty c.slots).length back m2 → m2.sp = m.sp) ∧
    ∀ entry m' : Mach, Enters m1 entry → fn.Room entry → Steps anywhere code fn.entryLines.length entry m' →
      fn.ArgsHeld ftys vs entry m'

/-- The two sides agree: no argument is a `long double`, and at most one is on the stack. -/
structure SlotsFit (ftys : List Ty) : Prop where
  noLdouble : ∀ ty ∈ fn.paramTys ++ ftys, ty.kind ≠ .ldouble
  one : (stackTypes fn.paramTys 0 0).length + (stackTypes ftys (fn.paramTys.countP fun ty => !ty.isFlonum)
    (fn.paramTys.countP Ty.isFlonum)).length ≤ 1

variable {fn} {s s' : GenState} {code : List Item} {entry m : Mach} {ftys : List Ty} {vs : List (BitVec 64)}

theorem quiet_entryRest : (fn.storeParams fn.params 0 0 ++ fn.saveVarargs).all Insn.isQuiet = true := by
  rw [all_append, quiet_storeParams, quiet_saveVarargs]
  rfl

theorem plain_entryLines : ∀ i ∈ fn.entryLines, i.Plain := by
  intro i hi
  rcases mem_append.1 hi with hi | hi
  · exact fn.plain_prologue i hi
  have hquiet := Insn.quiet_of_isQuiet (all_eq_true.1 quiet_entryRest i hi)
  refine ⟨hquiet.mute, ?_⟩
  rintro rfl
  cases hquiet.still

/-- The code of a function starts with the lines in front of its body. -/
theorem entryLines_first (h : fn.emitText s = some ((), s', code)) :
    fn.entryLines.map (Item.mk s.depth) <+: code := by
  obtain ⟨l, hrest, rfl⟩ := emits_bind h
  obtain ⟨_, t, body, l2, hbody, -, rfl⟩ := bind_eq_some hrest
  obtain ⟨l3, -, rfl⟩ := emits_bind hbody
  refine ⟨l3 ++ l2, ?_⟩
  simp [entryLines, prologue, append_assoc]

/-- The memory behind the prologue. -/
theorem Sound.entered (h : fn.Sound) (hroom : fn.Room entry) (hcode : fn.emitText s = some ((), s', code))
    (hpc : entry.pc = 0) (hsteps : Steps anywhere code fn.entryLines.length entry m) :
    m.mem = entry.mem.puts (fn.entryWrites entry) := by
  have hprefix : fn.entryLines.map (Item.mk s.depth) <+: code.drop entry.pc := by
    rw [hpc]
    exact entryLines_first hcode
  have hinsn : (fn.entryLines.map (Item.mk s.depth)).map Item.insn = fn.entryLines := by
    simp [Function.comp_def]
  refine (@steps_wp anywhere code _ (fun m => m.mem = entry.mem.puts (fn.entryWrites entry)) entry m hprefix
    (fun i hi => ?_) ?_ ?_).1
  · obtain ⟨a, ha, rfl⟩ := mem_map.1 hi
    exact (plain_entryLines a ha).1
  · rw [length_map]
    exact hsteps
  · rw [hinsn]
    exact h.wp_entryLines hroom

theorem holds_enters {m1 : Mach} (h : Enters m1 entry) {p : Place} {ty : Ty} {v : BitVec 64}
    (hkind : SameKind ty p) (hv : p.Holds m1 v) : p.Holds entry v := by
  cases p with
  | reg n => exact (h.x n (by have := hkind.2; omega)).trans hv
  | freg n => exact (congrFun h.d n).trans hv
  | slot k =>
    show entry.mem.Holds (entry.sp + 16 * k) 8 v
    rw [h.sp, h.mem]
    exact hv

variable {tys : List Ty}

/-- The places of a call hold their values where the function starts. -/
theorem placed_enters {m1 : Mach} (henter : Enters m1 entry)
    (h : List.Forall₂ (Place.Holds m1) (places tys 0 0 0) vs) :
    List.Forall₂ (Place.Holds entry) (places tys 0 0 0) vs := by
  have hkinds := sameKind_places tys 0 0 0
  rw [forall₂_iff_get] at h hkinds ⊢
  refine ⟨h.1, fun j hj hj' => ?_⟩
  exact holds_enters henter (hkinds.2 j (by rw [hkinds.1]; exact hj) hj) (h.2 j hj hj')

theorem forall₂_get {α β : Type} {R : α → β → Prop} {as : List α} {bs : List β} (h : List.Forall₂ R as bs) {j : Nat}
    {a : α} {b : β} (ha : as[j]? = some a) (hb : bs[j]? = some b) : R a b := by
  obtain ⟨hlt, rfl⟩ := List.getElem?_eq_some_iff.1 ha
  obtain ⟨hlt', rfl⟩ := List.getElem?_eq_some_iff.1 hb
  exact (forall₂_iff_get.1 h).2 j hlt hlt'

theorem Sound.agg_paramTys (h : fn.Sound) : ∀ ty ∈ fn.paramTys, ty.isAggregate = false := by
  intro ty hty
  obtain ⟨i, hi, rfl⟩ := mem_map.1 hty
  exact (h.scalar i hi).single

theorem Sound.scalar_paramTys (h : fn.Sound) : ∀ ty ∈ fn.paramTys, ty.Scalar := by
  intro ty hty
  obtain ⟨i, hi, rfl⟩ := mem_map.1 hty
  exact h.scalar i hi

theorem mem_of_mem_stackTypes {gp fp : Nat} {ty : Ty} (hty : ty ∈ stackTypes tys gp fp) : ty ∈ tys := by
  have hpicked : ∀ (tys : List Ty) (flags : List Bool), ∀ ty ∈ picked true flags tys, ty ∈ tys := by
    intro tys
    induction tys with
    | nil => simp [picked]
    | cons t ts ih =>
      intro flags ty hty
      rw [picked] at hty
      split at hty
      · rcases mem_cons.1 hty with rfl | hty
        · exact mem_cons_self
        · exact mem_cons_of_mem _ (ih _ ty hty)
      · exact mem_cons_of_mem _ (ih _ ty hty)
  exact hpicked tys _ ty hty

theorem scalar_stackTypes (hall : ∀ ty ∈ tys, ty.Scalar) (gp fp : Nat) :
    ∀ ty ∈ stackTypes tys gp fp, ty.Scalar := fun ty hty => hall ty (mem_of_mem_stackTypes hty)

section

variable (h : fn.Sound) (hftys : ∀ ty ∈ ftys, ty.Scalar) (hroom : fn.Room entry)
  (hmem : m.mem = entry.mem.puts (fn.entryWrites entry))
  (hplaced : List.Forall₂ (Place.Holds entry) (places (fn.paramTys ++ ftys) 0 0 0) vs)

include h

/-- The places of the named arguments and those of the others. -/
theorem Sound.places_eq : places (fn.paramTys ++ ftys) 0 0 0 = places fn.paramTys 0 0 0 ++
    places ftys (fn.paramTys.countP fun ty => !ty.isFlonum) (fn.paramTys.countP Ty.isFlonum)
      (stackTypes fn.paramTys 0 0).length := by
  rw [places_append h.agg_paramTys]
  simp

theorem Sound.length_places : (places fn.paramTys 0 0 0).length = fn.params.length :=
  h.placed.length_eq.symm

include hmem

theorem Sound.holds_above {a : Int} {n : Nat} {v : BitVec 64} (hv : entry.mem.Holds a n v) (ha : entry.sp ≤ a) :
    m.mem.Holds a n v :=
  hv.keep fun b hlo _ => h.mem_above hmem (by omega)

/-- The pointers that `va_arg` gives, from the area that the function has filled in. -/
theorem Sound.pointers (hftys : ∀ ty ∈ ftys, ty.Scalar) (hroom : fn.Room entry) {area : Nat}
    (hvar : fn.isVariadic = true) (harea : fn.vaArea = some area) :
    List.Forall₂ (PlacePointer (entry.sp - 16 + (fn.offset area + 32 + 128)) (entry.sp - 16 + (fn.offset area + 32))
        entry.sp (stackTypes ftys (fn.paramTys.countP fun ty => !ty.isFlonum) (fn.paramTys.countP Ty.isFlonum))
        (stackTypes fn.paramTys 0 0).length)
      (vaArgs (VaList.read m.mem (entry.sp - 16 + fn.offset area)) ftys)
      (places ftys (fn.paramTys.countP fun ty => !ty.isFlonum) (fn.paramTys.countP Ty.isFlonum)
        (stackTypes fn.paramTys 0 0).length) := by
  have hgp : (fn.params.countP fun i => !(fn.varTy i).isFlonum) = fn.paramTys.countP fun ty => !ty.isFlonum := by
    rw [paramTys, countP_map]
    rfl
  have hfp : (fn.params.countP fun i => (fn.varTy i).isFlonum) = fn.paramTys.countP Ty.isFlonum := by
    rw [paramTys, countP_map]
    rfl
  have hat := h.vaList_at hroom hmem hvar harea
  rw [hgp, hfp] at hat
  exact hat.vaArgs ftys hftys _

include hplaced

theorem Sound.named_held (hfit : ∀ ty ∈ (stackTypes fn.paramTys 0 0).dropLast, 8 < ty.size) {j i : Nat}
    {v : BitVec 64} (hi : fn.params[j]? = some i) (hv : vs[j]? = some v) :
    m.mem.Holds (entry.sp - 16 + fn.offset i) (min 8 (fn.varTy i).size) v := by
  have hj := (List.getElem?_eq_some_iff.1 hi).1
  rw [← h.length_places] at hj
  have hp : (places fn.paramTys 0 0 0)[j]? = some (places fn.paramTys 0 0 0)[j] := List.getElem?_eq_getElem hj
  generalize (places fn.paramTys 0 0 0)[j] = p at hp
  have hpv : p.Holds entry v := by
    rw [h.places_eq] at hplaced
    exact forall₂_get hplaced (by rw [List.getElem?_append_left hj]; exact hp) hv
  have hzip : (i, p) ∈ fn.params.zip (places fn.paramTys 0 0 0) :=
    mem_of_getElem? (i := j) (by rw [getElem?_zip_eq_some]; exact ⟨hi, hp⟩)
  by_cases hslot : ∃ k, p = .slot k
  · obtain ⟨k, rfl⟩ := hslot
    have hk : k < (stackTypes fn.paramTys 0 0).length := by
      have := (@slot_iff fn.paramTys 0 0 0 h.agg_paramTys k).1 (by simpa using mem_of_getElem? hp)
      exact this
    rw [h.param_slot hzip, span_of_fit (scalar_stackTypes h.scalar_paramTys 0 0) hfit hk]
    have haddr : entry.sp - 16 + (16 + ((16 * k : Nat) : Int)) = entry.sp + 16 * k := by omega
    rw [haddr]
    exact (h.holds_above hmem hpv (by omega)).mono (min_le_left _ _)
  · exact h.holds_param hmem hzip (fun k hk => hslot ⟨k, hk⟩) hpv

include hftys hroom

/-- In a variadic function each named parameter has its argument. -/
theorem Sound.variadic_held (hfit : ∀ ty ∈ (stackTypes ftys (fn.paramTys.countP fun ty => !ty.isFlonum)
      (fn.paramTys.countP Ty.isFlonum)).dropLast, 8 < ty.size)
    (hone : stackTypes fn.paramTys 0 0 = [] ∨ stackTypes ftys (fn.paramTys.countP fun ty => !ty.isFlonum)
      (fn.paramTys.countP Ty.isFlonum) = [])
    {area : Nat} (hvar : fn.isVariadic = true) (harea : fn.vaArea = some area) {j : Nat} {ty : Ty}
    {v : BitVec 64} {a : Int} (hty : ftys[j]? = some ty) (hv : vs[fn.params.length + j]? = some v)
    (ha : (vaArgs (VaList.read m.mem (entry.sp - 16 + fn.offset area)) ftys)[j]? = some a) :
    m.mem.Holds a (min 8 ty.size) v := by
  have hptrs := h.pointers hmem hftys hroom hvar harea
  have hj : j < (places ftys (fn.paramTys.countP fun ty => !ty.isFlonum) (fn.paramTys.countP Ty.isFlonum)
      (stackTypes fn.paramTys 0 0).length).length := by
    rw [← hptrs.length_eq]
    exact (List.getElem?_eq_some_iff.1 ha).1
  have hp := getElem?_eq_getElem hj
  generalize (places ftys (fn.paramTys.countP fun ty => !ty.isFlonum) (fn.paramTys.countP Ty.isFlonum)
      (stackTypes fn.paramTys 0 0).length)[j] = p at hp
  have hptr := forall₂_get hptrs ha hp
  have hkind := forall₂_get (sameKind_places ftys _ _ _) hty hp
  have hpv : p.Holds entry v := by
    rw [h.places_eq] at hplaced
    refine forall₂_get hplaced ?_ hv
    rw [← h.length_places, getElem?_append_right (Nat.le_add_right _ _), Nat.add_sub_cancel_left]
    exact hp
  cases p with
  | reg n =>
    obtain rfl : entry.x n = v := hpv
    rw [show a = _ from hptr]
    exact (h.holds_saved hmem hvar harea hkind.2).2.mono (min_le_left _ _)
  | freg n =>
    obtain rfl : entry.d n = v := hpv
    rw [show a = _ from hptr]
    exact (h.holds_saved hmem hvar harea hkind.2).1.mono (min_le_left _ _)
  | slot k =>
    obtain ⟨e, rfl, rfl⟩ := hptr
    have he := (slot_iff (fun ty hty => (hftys ty hty).single) e).1 (mem_of_getElem? hp)
    have hnone : stackTypes fn.paramTys 0 0 = [] := hone.resolve_right (ne_nil_of_length_pos (by omega))
    have hslot : entry.mem.Holds (entry.sp + 16 * ((stackTypes fn.paramTys 0 0).length + e : Nat)) 8 v := hpv
    rw [hnone, length_nil, zero_add] at hslot
    rw [span_of_fit (scalar_stackTypes hftys _ _) hfit he]
    exact (h.holds_above hmem hslot (by omega)).mono (min_le_left _ _)

end

/-- When the two sides agree about the stack, every argument arrives. -/
theorem Sound.takesArguments (h : fn.Sound) (hftys : ∀ ty ∈ ftys, ty.Scalar)
    (hcode : fn.emitText s = some ((), s', code)) (hfit : fn.SlotsFit ftys) : fn.TakesArguments code ftys := by
  have hshort : ∀ {tys : List Ty}, tys.length ≤ 1 → ∀ ty ∈ tys.dropLast, 8 < ty.size := fun {tys} hlen ty hty => by
    have hpos := length_pos_of_mem hty
    rw [length_dropLast] at hpos
    omega
  have hone := hfit.one
  intro c vs ws m m1 hc hclass hrun
  have hld : ∀ ty ∈ c.args.types, ty.kind ≠ .ldouble := by
    intro ty hty hkind
    obtain ⟨j, hj, rfl⟩ := getElem_of_mem hty
    have hj' : j < (fn.paramTys ++ ftys).length := by rwa [← hclass.length_eq]
    have hsame := forall₂_get hclass (getElem?_eq_getElem hj) (getElem?_eq_getElem hj')
    exact hfit.noLdouble _ (getElem_mem hj') (hsame.2.2 hkind)
  obtain rfl := hrun.values hld
  have hagg : c.args.types.countP Ty.isAggregate = 0 := by
    rw [countP_eq_zero]
    intro ty hty
    obtain ⟨j, hj, rfl⟩ := getElem_of_mem hty
    have hj' : j < (fn.paramTys ++ ftys).length := by rwa [← hclass.length_eq]
    have hsame := forall₂_get hclass (getElem?_eq_getElem hj) (getElem?_eq_getElem hj')
    simp [hsame.2.1]
  refine ⟨fun keep back m2 hpc hsp hsteps => ?_, fun entry m' henter hroom hsteps => ?_⟩
  · exact hrun.dropped hc.gen hc.here hc.args hc.lhs hagg hc.next hc.top hpc hsp hsteps
  obtain ⟨hplaced, -⟩ := hrun.placed hc.gen hc.here hc.args hc.lhs hagg hc.next hc.top
  have hmem := h.entered hroom hcode henter.pc hsteps
  rw [places_congr hclass] at hplaced
  have hentry := placed_enters henter hplaced
  exact ⟨fun j i v hi hv => h.named_held hmem hentry (hshort (by omega)) hi hv,
    fun area hvar harea j ty v a hty hv ha => h.variadic_held hftys hroom hmem hentry (hshort (by omega)) (by
      by_contra hboth
      rw [not_or, ← length_eq_zero_iff, ← length_eq_zero_iff] at hboth
      omega) hvar harea hty hv ha⟩

end Fn

end Slopix.Cc
