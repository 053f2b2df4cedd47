import Slopix.Cc.Entry
import Slopix.Cc.Locals

/-!
# Parameters

After its prologue a function has every parameter that came in a register in its own variable, and has not
touched the memory above its frame, where the other parameters are.
-/

namespace Slopix.Cc

open List

/-- The types of values that are passed one by one: integers, pointers and floating numbers. -/
structure Ty.Scalar (ty : Ty) : Prop where
  single : ty.isAggregate = false
  general : ty.isFlonum = false → ty.size = 1 ∨ ty.size = 2 ∨ ty.size = 4 ∨ ty.size = 8
  floating : ty.isFlonum = true → ty.size = 4 ∨ ty.size = 8 ∨ ty.size = 16
  wide : ty.size = 16 → ty.kind = .ldouble

theorem Ty.Scalar.bytes {ty : Ty} (h : ty.Scalar) : (ty.isFlonum = false → gpBytes ty.size = min 8 ty.size) ∧
    (ty.isFlonum = true → fpBytes ty.size = min 8 ty.size) ∧ 0 < ty.size := by
  have hcase : ty.size = 1 ∨ ty.size = 2 ∨ ty.size = 4 ∨ ty.size = 8 ∨ ty.size = 16 := by
    cases hfl : ty.isFlonum with
    | false =>
      have := h.general hfl
      omega
    | true =>
      have := h.floating hfl
      omega
  refine ⟨fun hfl => ?_, fun hfl => ?_, by omega⟩
  · rcases h.general hfl with h | h | h | h <;> rw [h] <;> rfl
  · rcases h.floating hfl with h | h | h <;> rw [h] <;> rfl

theorem Ty.Scalar.slot_mod {ty : Ty} (h : ty.Scalar) : max 8 ty.size % 8 = 0 := by
  cases hfl : ty.isFlonum with
  | false =>
    have := h.general hfl
    omega
  | true =>
    have := h.floating hfl
    omega

/-- What the front end makes sure of, for a function without parameters of aggregate type. -/
structure Fn.Sound (fn : Fn) : Prop where
  nodup : fn.params.Nodup
  isLocal : ∀ i ∈ fn.params, i < fn.locals.length
  align : ∀ v ∈ fn.locals, 0 < v.align
  scalar : ∀ i ∈ fn.params, (fn.varTy i).Scalar
  small : fn.stackSize < 2 ^ 31
  area : fn.isVariadic = true → ∃ a, fn.vaArea = some a ∧ a < fn.locals.length ∧ a ∉ fn.params ∧
    (fn.varTy a).size = 224

namespace Fn

/-- The types of the parameters. -/
def paramTys (fn : Fn) : List Ty := fn.params.map fn.varTy

variable {fn : Fn}

theorem varTy_eq {i : Nat} {v : Local} (h : fn.locals[i]? = some v) : fn.varTy i = v.ty := by
  rw [varTy, getD_eq_getElem?_getD, List.getElem?_map, h]
  rfl

namespace Sound

section

variable (h : fn.Sound)

include h

theorem below : Below fn.locals 0 0 (fn.paramOffsets fn.params 0 0 16 fun _ => 0) fn.frame :=
  below_localOffsets _ _ _ _ h.align

theorem placed : List.Forall₂ (fun i p => PlaceOffset (stackTypes fn.paramTys 0 0) 0 16
    (fn.paramOffsets fn.params 0 0 16 (fun _ => 0) i) p) fn.params (places fn.paramTys 0 0 0) :=
  paramOffsets_spec fn.params 0 0 0 16 _ h.nodup (fun i hi => (h.scalar i hi).single)
    (fun i hi => (h.scalar i hi).slot_mod) (fun _ _ => rfl) rfl

theorem offset_local {i : Nat} (hi : i < fn.locals.length)
    (hzero : fn.paramOffsets fn.params 0 0 16 (fun _ => 0) i = 0) :
    ∃ b : Nat, fn.offset i = -(b : Int) ∧ (fn.varTy i).size ≤ b ∧ b ≤ fn.stackSize := by
  have hget : fn.locals[i]? = some fn.locals[i] := List.getElem?_eq_getElem hi
  obtain ⟨b, hb, hlo, hhi⟩ := h.below.place i _ hget (by simpa using hzero)
  rw [zero_add] at hb
  refine ⟨b, hb, ?_, le_trans hhi (le_alignTo (by decide))⟩
  rw [varTy_eq hget]
  omega

theorem offset_apart {i j : Nat} (hi : i < fn.locals.length) (hj : j < fn.locals.length) (hne : i ≠ j)
    (hzi : fn.paramOffsets fn.params 0 0 16 (fun _ => 0) i = 0)
    (hzj : fn.paramOffsets fn.params 0 0 16 (fun _ => 0) j = 0) :
    fn.offset i + (fn.varTy i).size ≤ fn.offset j ∨ fn.offset j + (fn.varTy j).size ≤ fn.offset i := by
  have hgi : fn.locals[i]? = some fn.locals[i] := List.getElem?_eq_getElem hi
  have hgj : fn.locals[j]? = some fn.locals[j] := List.getElem?_eq_getElem hj
  rcases Nat.lt_or_gt_of_ne hne with hlt | hlt
  · have happ := h.below.apart i j _ hlt hgj (by simpa using hzi) (by simpa using hzj)
    rw [zero_add, zero_add] at happ
    rw [varTy_eq hgj]
    exact .inr happ
  have happ := h.below.apart j i _ hlt hgi (by simpa using hzj) (by simpa using hzi)
  rw [zero_add, zero_add] at happ
  rw [varTy_eq hgi]
  exact .inl happ

theorem param_zero {i : Nat} {p : Place} (hmem : (i, p) ∈ fn.params.zip (places fn.paramTys 0 0 0))
    (hp : ∀ k, p ≠ .slot k) : fn.paramOffsets fn.params 0 0 16 (fun _ => 0) i = 0 := by
  have hplace := forall₂_zip h.placed hmem
  cases p with
  | slot k => exact absurd rfl (hp k)
  | reg n => exact hplace
  | freg n => exact hplace

theorem param_slot {i k : Nat} (hmem : (i, .slot k) ∈ fn.params.zip (places fn.paramTys 0 0 0)) :
    fn.offset i = 16 + stackSpan (stackTypes fn.paramTys 0 0) k := by
  obtain ⟨e, hk, hoff⟩ := forall₂_zip h.placed hmem
  obtain rfl : k = e := by omega
  have hne : fn.paramOffsets fn.params 0 0 16 (fun _ => 0) i ≠ 0 := by omega
  have hkept := h.below.kept i (.inr (.inr hne))
  have hval : fn.offset i = fn.paramOffsets fn.params 0 0 16 (fun _ => 0) i := hkept
  rw [hval, hoff]
  simp

end

end Sound

/-! ## The memory after the prologue -/

variable (fn)

/-- The lines of a function in front of its body. -/
def entryLines : List Insn := fn.prologue ++ (fn.storeParams fn.params 0 0 ++ fn.saveVarargs)

/-- The writes of a variadic function, with the frame record at `B`. -/
def varargWrites (B : Int) (m : Mach) : List Write :=
  match fn.isVariadic, fn.vaArea with
  | true, some area => fn.vaWrites B area m
  | _, _ => []

/-- All writes of a function in front of its body. -/
def entryWrites (entry : Mach) : List Write :=
  [⟨entry.sp - 16, 8, entry.x 29⟩, ⟨entry.sp - 16 + 8, 8, entry.x 30⟩] ++
    (fn.paramWrites (entry.sp - 16) fn.params 0 0 0 entry ++ fn.varargWrites (entry.sp - 16) entry)

/-- The frame is inside the address space. -/
structure Room (entry : Mach) : Prop where
  lo : 0 ≤ entry.sp - 16 - fn.stackSize
  hi : entry.sp < 2 ^ 64

variable {fn} {entry m : Mach}

theorem Sound.inFrame (h : fn.Sound) (hroom : fn.Room entry) {b : Nat} {off : Int} (hb : b ≤ fn.stackSize)
    (hlo : -(b : Int) ≤ off) (hhi : off ≤ 0) : InFrame (entry.sp - 16) off := by
  have := h.small
  have := hroom.lo
  have := hroom.hi
  exact ⟨by omega, by omega, by omega, by omega⟩

/-- The lines behind the frame write the parameters and the area of a variadic function. -/
theorem Sound.writes (h : fn.Sound) (hroom : fn.Room entry) :
    Writes (entry.sp - 16) (fn.storeParams fn.params 0 0 ++ fn.saveVarargs) fun m =>
      fn.paramWrites (entry.sp - 16) fn.params 0 0 0 m ++ fn.varargWrites (entry.sp - 16) m := by
  refine Writes.append ?_ ?_
  · refine writes_storeParams fn.params 0 0 0 (fun i hi => (h.scalar i hi).single) fun i p hmem hp => ?_
    obtain ⟨b, hb, -, hle⟩ := h.offset_local (h.isLocal i (of_mem_zip hmem).1) (h.param_zero hmem hp)
    rw [hb]
    exact h.inFrame hroom hle (Int.le_refl _) (by omega)
  cases hvar : fn.isVariadic with
  | false =>
    have hnone : fn.saveVarargs = [] := by
      unfold saveVarargs
      rw [hvar]
    have hwrites : fn.varargWrites (entry.sp - 16) = fun _ => [] := by
      funext m
      unfold varargWrites
      rw [hvar]
    rw [hnone, hwrites]
    exact .nil
  | true =>
    obtain ⟨a, harea, hlt, hnot, hsize⟩ := h.area hvar
    have hwrites : fn.varargWrites (entry.sp - 16) = fn.vaWrites (entry.sp - 16) a := by
      funext m
      unfold varargWrites
      rw [hvar, harea]
    rw [hwrites]
    refine writes_saveVarargs hvar harea fun k hlo hhi => ?_
    obtain ⟨b, hb, hbs, hle⟩ := h.offset_local hlt (paramOffsets_of_not_mem hnot _ _ _ _)
    exact h.inFrame hroom hle (by omega) (by omega)

/-- The frame is made; the argument registers are as they were. -/
theorem wp_makeFrame (h : fn.Sound) :
    Wp anywhere fn.prologue (fun m => m.x 29 = BitVec.ofInt 64 (entry.sp - 16) ∧ (∀ r, r < 8 → m.x r = entry.x r) ∧
      m.d = entry.d ∧ m.mem = entry.mem.puts [⟨entry.sp - 16, 8, entry.x 29⟩, ⟨entry.sp - 16 + 8, 8, entry.x 30⟩])
      entry := by
  have haddr : entry.sp - 8 = entry.sp - 16 + 8 := by omega
  refine Wp.append fun m1 hstp m2 hmov => ?_
  rw [hstp.stpFrame_eq, haddr] at hmov
  have hm2 := hmov.movFp_eq
  have hlow : ∀ r, r < 8 → m2.x r = entry.x r := fun r hr => by
    rw [hm2]
    exact Function.update_of_ne (by omega) _ _
  have hfp : m2.x 29 = BitVec.ofInt 64 (entry.sp - 16) := by
    rw [hm2]
    exact Function.update_self 29 (BitVec.ofInt 64 (entry.sp - 16)) entry.x
  unfold makeFrame
  split
  · split
    · intro m hsub
      rw [hsub.subSp_eq]
      exact ⟨hfp, hlow, by rw [hm2], by rw [hm2]; rfl⟩
    have hsmall := h.small
    refine Wp.append (wp_loadConst (by decide) (by omega) fun pc m hsub => ?_)
    have hother : ∀ r, r ≠ 9 → Function.update m2.x 9 (BitVec.ofNat 64 fn.stackSize) r = m2.x r :=
      fun r hr => Function.update_of_ne hr _ _
    rw [hsub.subSpReg_eq]
    refine ⟨?_, fun r hr => ?_, by rw [hm2], by rw [hm2]; rfl⟩
    · exact (hother 29 (by decide)).trans hfp
    · exact (hother r (by omega)).trans (hlow r hr)
  · exact ⟨hfp, hlow, by rw [hm2], by rw [hm2]; rfl⟩

theorem Sound.wp_entryLines (h : fn.Sound) (hroom : fn.Room entry) :
    Wp anywhere fn.entryLines (fun m => m.mem = entry.mem.puts (fn.entryWrites entry)) entry := by
  refine Wp.append ((wp_makeFrame h).mono fun m1 hm1 => ?_)
  obtain ⟨hfp, hx, hd, hmem⟩ := hm1
  have hwrites := h.writes hroom
  refine (hwrites.wp m1 hfp).mono fun m2 hw => ?_
  rw [hw.mem, hwrites.same entry m1 hx hd, hmem, entryWrites]
  exact Mem.puts_append.symm

/-! ## The writes are apart -/

/-- The write stays inside variable `i`. -/
def InVar (fn : Fn) (B : Int) (i : Nat) (w : Write) : Prop :=
  B + fn.offset i ≤ w.addr ∧ w.addr + w.size ≤ B + fn.offset i + (fn.varTy i).size

section

variable {B : Int} {w : Write} {i : Nat} {p : Place}

/-- The kind of a type and of its place. -/
def SameKind (ty : Ty) : Place → Prop
  | .reg n => ty.isFlonum = false ∧ n < 8
  | .freg n => ty.isFlonum = true ∧ n < 8
  | .slot _ => True

theorem sameKind_places (tys : List Ty) (gp fp st : Nat) : List.Forall₂ SameKind tys (places tys gp fp st) := by
  induction tys generalizing gp fp st with
  | nil => exact .nil
  | cons ty tys ih =>
    rw [places]
    split
    · rename_i hfl
      split
      · rename_i hlt
        exact .cons ⟨hfl, hlt⟩ (ih _ _ _)
      · exact .cons trivial (ih _ _ _)
    rename_i hfl
    split
    · rename_i hlt
      exact .cons ⟨by simpa using hfl, hlt⟩ (ih _ _ _)
    · exact .cons trivial (ih _ _ _)

theorem sameKind_param (hmem : (i, p) ∈ fn.params.zip (places fn.paramTys 0 0 0)) : SameKind (fn.varTy i) p :=
  forall₂_zip (forall₂_map_left_iff.1 (sameKind_places fn.paramTys 0 0 0)) hmem

theorem Sound.placeWrite_eq (h : fn.Sound) (hmem : (i, p) ∈ fn.params.zip (places fn.paramTys 0 0 0))
    (hw : fn.placeWrite B m (i, p) = some w) :
    (∀ k, p ≠ .slot k) ∧ w.addr = B + fn.offset i ∧ w.size = min 8 (fn.varTy i).size := by
  have hkind := sameKind_param hmem
  obtain ⟨hgp, hfp, -⟩ := (h.scalar i (of_mem_zip hmem).1).bytes
  cases p with
  | slot k => cases hw
  | reg n =>
    obtain rfl := Option.some.inj hw
    exact ⟨(fun k hk => by cases hk), rfl, hgp hkind.1⟩
  | freg n =>
    obtain rfl := Option.some.inj hw
    exact ⟨(fun k hk => by cases hk), rfl, hfp hkind.1⟩

theorem Sound.inVar_param (h : fn.Sound) (hw : w ∈ fn.paramWrites B fn.params 0 0 0 m) :
    ∃ i ∈ fn.params, fn.paramOffsets fn.params 0 0 16 (fun _ => 0) i = 0 ∧ fn.InVar B i w := by
  obtain ⟨⟨i, p⟩, hmem, hw⟩ := mem_filterMap.1 hw
  obtain ⟨hp, haddr, hsize⟩ := h.placeWrite_eq hmem hw
  refine ⟨i, (of_mem_zip hmem).1, h.param_zero hmem hp, ?_, ?_⟩
  · omega
  · omega

theorem inVar_vaWrites {area : Nat} (hsize : (fn.varTy area).size = 224) (hw : w ∈ fn.vaWrites B area m) :
    fn.InVar B area w := by
  unfold InVar
  simp only [vaWrites, mem_append, mem_map, mem_range, mem_singleton] at hw
  rcases hw with (((((⟨k, hk, rfl⟩ | ⟨k, hk, rfl⟩) | rfl) | rfl) | rfl) | rfl) | rfl
  all_goals
    dsimp only
    omega

theorem vaWrites_apart (area : Nat) : (fn.vaWrites B area m).Pairwise Write.Apart := by
  unfold vaWrites
  simp only [pairwise_append, pairwise_map, pairwise_singleton, mem_append, mem_map,
    mem_range, mem_singleton, true_and]
  have hlt := pairwise_lt_range (n := 8)
  refine ⟨⟨⟨⟨⟨⟨?_, ?_, ?_⟩, ?_⟩, ?_⟩, ?_⟩, ?_⟩, ?_⟩
  · exact hlt.imp fun hab => .inl (by dsimp only; omega)
  · exact hlt.imp fun hab => .inl (by dsimp only; omega)
  · rintro _ ⟨a, ha, rfl⟩ _ ⟨b, hb, rfl⟩
    exact .inl (by dsimp only; omega)
  · rintro _ (⟨a, ha, rfl⟩ | ⟨a, ha, rfl⟩) _ rfl
    all_goals exact .inr (by dsimp only; omega)
  · rintro _ ((⟨a, ha, rfl⟩ | ⟨a, ha, rfl⟩) | rfl) _ rfl
    · exact .inr (by dsimp only; omega)
    · exact .inr (by dsimp only; omega)
    · exact .inl (by dsimp only; omega)
  · rintro _ (((⟨a, ha, rfl⟩ | ⟨a, ha, rfl⟩) | rfl) | rfl) _ rfl
    · exact .inr (by dsimp only; omega)
    · exact .inr (by dsimp only; omega)
    · exact .inl (by dsimp only; omega)
    · exact .inl (by dsimp only; omega)
  · rintro _ ((((⟨a, ha, rfl⟩ | ⟨a, ha, rfl⟩) | rfl) | rfl) | rfl) _ rfl
    · exact .inr (by dsimp only; omega)
    · exact .inr (by dsimp only; omega)
    · exact .inl (by dsimp only; omega)
    · exact .inl (by dsimp only; omega)
    · exact .inl (by dsimp only; omega)
  rintro _ (((((⟨a, ha, rfl⟩ | ⟨a, ha, rfl⟩) | rfl) | rfl) | rfl) | rfl) _ rfl
  · exact .inr (by dsimp only; omega)
  · exact .inr (by dsimp only; omega)
  · exact .inl (by dsimp only; omega)
  · exact .inl (by dsimp only; omega)
  · exact .inl (by dsimp only; omega)
  · exact .inl (by dsimp only; omega)

theorem Sound.paramWrites_apart (h : fn.Sound) : (fn.paramWrites B fn.params 0 0 0 m).Pairwise Write.Apart := by
  unfold paramWrites
  have hfst : (fn.params.zip (places fn.paramTys 0 0 0)).map Prod.fst = fn.params :=
    map_fst_zip (le_of_eq h.placed.length_eq)
  have hne : (fn.params.zip (places fn.paramTys 0 0 0)).Pairwise fun a b => a.1 ≠ b.1 := by
    rw [← pairwise_map, hfst]
    exact h.nodup
  rw [pairwise_filterMap]
  refine hne.imp_of_mem ?_
  rintro ⟨i, p⟩ ⟨j, q⟩ hi hj hij w hw w' hw'
  obtain ⟨hp, haddr, hsize⟩ := h.placeWrite_eq hi hw
  obtain ⟨hq, haddr', hsize'⟩ := h.placeWrite_eq hj hw'
  have happ := h.offset_apart (h.isLocal i (of_mem_zip hi).1) (h.isLocal j (of_mem_zip hj).1) hij
    (h.param_zero hi hp) (h.param_zero hj hq)
  rcases happ with happ | happ
  · exact .inl (by omega)
  · exact .inr (by omega)

/-- A write behind the frame record is in a variable of the frame. -/
theorem Sound.inVar (h : fn.Sound)
    (hw : w ∈ fn.paramWrites B fn.params 0 0 0 m ++ fn.varargWrites B m) :
    ∃ i, i < fn.locals.length ∧ fn.paramOffsets fn.params 0 0 16 (fun _ => 0) i = 0 ∧ fn.InVar B i w := by
  rcases mem_append.1 hw with hw | hw
  · obtain ⟨i, hi, hzero, hin⟩ := h.inVar_param hw
    exact ⟨i, h.isLocal i hi, hzero, hin⟩
  unfold varargWrites at hw
  split at hw
  · rename_i a hvar harea
    obtain ⟨a', ha', hlt, hnot, hsize⟩ := h.area hvar
    obtain rfl : a = a' := Option.some.inj (harea.symm.trans ha')
    exact ⟨a, hlt, paramOffsets_of_not_mem hnot _ _ _ _, inVar_vaWrites hsize hw⟩
  · cases hw

theorem Sound.entryWrites_apart (h : fn.Sound) : (fn.entryWrites entry).Pairwise Write.Apart := by
  unfold entryWrites
  rw [pairwise_append, pairwise_append]
  refine ⟨?_, ⟨h.paramWrites_apart, ?_, ?_⟩, ?_⟩
  · simp [Write.Apart]
  · unfold varargWrites
    split
    · exact vaWrites_apart _
    · exact .nil
  · intro w hw w' hw'
    obtain ⟨i, hi, hzero, hin⟩ := h.inVar_param hw
    unfold varargWrites at hw'
    split at hw'
    · rename_i a hvar harea
      obtain ⟨a', ha', hlt, hnot, hsize⟩ := h.area hvar
      obtain rfl : a = a' := Option.some.inj (harea.symm.trans ha')
      have hin' := inVar_vaWrites hsize hw'
      have happ := h.offset_apart (h.isLocal i hi) hlt (by rintro rfl; exact hnot hi) hzero
        (paramOffsets_of_not_mem hnot _ _ _ _)
      unfold InVar at hin hin'
      rcases happ with happ | happ
      · exact .inl (by omega)
      · exact .inr (by omega)
    · cases hw'
  intro w hw w' hw'
  obtain ⟨i, hi, hzero, hin⟩ := h.inVar hw'
  obtain ⟨b, hb, hbs, -⟩ := h.offset_local hi hzero
  unfold InVar at hin
  simp only [mem_cons, not_mem_nil, or_false] at hw
  rcases hw with rfl | rfl
  · exact .inr (by dsimp only; omega)
  · exact .inr (by dsimp only; omega)

theorem Sound.entryWrites_below (h : fn.Sound) (hw : w ∈ fn.entryWrites entry) : w.addr + w.size ≤ entry.sp := by
  rcases mem_append.1 hw with hw | hw
  · simp only [mem_cons, not_mem_nil, or_false] at hw
    rcases hw with rfl | rfl
    · dsimp only
      omega
    · dsimp only
      omega
  obtain ⟨i, hi, hzero, hin⟩ := h.inVar hw
  obtain ⟨b, hb, hbs, -⟩ := h.offset_local hi hzero
  unfold InVar at hin
  omega

end

/-! ## The parameters in front of the body -/

/-- A parameter that came in a register is in its variable. -/
theorem Sound.holds_param (h : fn.Sound) (hmem : m.mem = entry.mem.puts (fn.entryWrites entry)) {i : Nat}
    {p : Place} {v : BitVec 64} (hparam : (i, p) ∈ fn.params.zip (places fn.paramTys 0 0 0))
    (hp : ∀ k, p ≠ .slot k) (hv : p.Holds entry v) :
    m.mem.Holds (entry.sp - 16 + fn.offset i) (min 8 (fn.varTy i).size) v := by
  obtain ⟨w, hw, hval⟩ : ∃ w, fn.placeWrite (entry.sp - 16) entry (i, p) = some w ∧ w.val = v := by
    cases p with
    | slot k => exact absurd rfl (hp k)
    | reg n => exact ⟨_, rfl, hv⟩
    | freg n => exact ⟨_, rfl, hv⟩
  obtain ⟨-, haddr, hsize⟩ := h.placeWrite_eq hparam hw
  have hin : w ∈ fn.entryWrites entry :=
    mem_append_right _ (mem_append_left _ (mem_filterMap.2 ⟨_, hparam, hw⟩))
  have hholds := @Mem.holds_puts entry.mem _ w h.entryWrites_apart hin
  rw [haddr, hsize, hval] at hholds
  rw [hmem]
  exact hholds

theorem Sound.mem_above (h : fn.Sound) (hmem : m.mem = entry.mem.puts (fn.entryWrites entry)) {b : Int}
    (hb : entry.sp ≤ b) : m.mem b = entry.mem b := by
  rw [hmem]
  refine Mem.puts_of_not fun w hw => ?_
  have := h.entryWrites_below hw
  omega

end Fn

end Slopix.Cc
