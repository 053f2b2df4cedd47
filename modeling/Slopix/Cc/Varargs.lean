import Slopix.Cc.Params

/-!
# Variable arguments

`libc/include/stdarg.h` on the area that a variadic function fills in. A `va_list` is read from the area, and
`va_arg` gives a pointer to each argument in turn.
-/

namespace Slopix.Cc

open List

section

variable {mem : Mem} {a : Int} {v : BitVec 64}

theorem Mem.Holds.get_eq (h : mem.Holds a 8 v) : mem.get a 8 = v := by
  rw [h.get (Nat.le_refl 8), BitVec.setWidth_eq, BitVec.setWidth_eq]

theorem Mem.Holds.get_low (h : mem.Holds a 4 v) : (mem.get a 4).setWidth 32 = v.setWidth 32 := by
  rw [h.get (by decide)]
  simp

end

/-! ## The list -/

/-- `__va_list`, with its pointers as addresses. -/
structure VaList where
  stack : Int
  grTop : Int
  vrTop : Int
  grOffs : Int
  vrOffs : Int

/-- The list in memory, as `va_start` copies it. -/
def VaList.read (mem : Mem) (a : Int) : VaList where
  stack := (mem.get a 8).toNat
  grTop := (mem.get (a + 8) 8).toNat
  vrTop := (mem.get (a + 16) 8).toNat
  grOffs := ((mem.get (a + 24) 4).setWidth 32).toInt
  vrOffs := ((mem.get (a + 28) 4).setWidth 32).toInt

/-- `__va_arg_gp`: a pointer to the argument, and the list behind it. -/
def vaArgGp (ap : VaList) (sz : Nat) : Int × VaList :=
  if 0 ≤ ap.grOffs then (ap.stack, { ap with stack := ap.stack + ((sz + 7) / 8 * 8 : Nat) })
  else (ap.grTop + ap.grOffs, { ap with grOffs := ap.grOffs + 8 })

/-- `__va_arg_fp`: the save area, then the stack. -/
def vaArgFp (ap : VaList) (sz : Nat) : Int × VaList :=
  if 0 ≤ ap.vrOffs then (ap.stack, { ap with stack := ap.stack + ((sz + 7) / 8 * 8 : Nat) })
  else (ap.vrTop + ap.vrOffs, { ap with vrOffs := ap.vrOffs + 16 })

/-- `va_arg`, by the type. -/
def vaArg (ap : VaList) (ty : Ty) : Int × VaList :=
  if ty.isFlonum then vaArgFp ap ty.size else vaArgGp ap ty.size

/-- The pointers for arguments fetched one after the other. -/
def vaArgs : VaList → List Ty → List Int
  | _, [] => []
  | ap, ty :: tys => (vaArg ap ty).1 :: vaArgs (vaArg ap ty).2 tys

/-- Where the argument with a place is found: in the saved registers, or above the stack pointer of the list. -/
def PlacePointer (G V K : Int) (tys : List Ty) (st : Nat) (a : Int) : Place → Prop
  | .reg n => a = G + 8 * n
  | .freg n => a = V + 16 * n
  | .slot k => ∃ e, k = st + e ∧ a = K + Fn.stackSpan tys e

theorem Ty.Scalar.span_eq {ty : Ty} (h : ty.Scalar) : (ty.size + 7) / 8 * 8 = max 8 ty.size := by
  cases hfl : ty.isFlonum with
  | false =>
    have := h.general hfl
    omega
  | true =>
    have := h.floating hfl
    omega

/-- The list after arguments of both kinds have been fetched. -/
structure VaList.At (ap : VaList) (G V K : Int) (gp fp : Nat) : Prop where
  stack : ap.stack = K
  grTop : ap.grTop = G + 64
  vrTop : ap.vrTop = V + 128
  grOffs : ap.grOffs = -(8 - (min gp 8 : Nat)) * 8
  vrOffs : ap.vrOffs = -(8 - (min fp 8 : Nat)) * 16

theorem forall₂_pointer_slot {G V K : Int} {ty : Ty} {tys : List Ty} {st : Nat} {as : List Int}
    {ps : List Place} (h : List.Forall₂ (PlacePointer G V (K + (max 8 ty.size : Nat)) tys (st + 1)) as ps) :
    List.Forall₂ (PlacePointer G V K (ty :: tys) st) as ps := by
  refine h.imp fun a p hp => ?_
  cases p with
  | slot k =>
    obtain ⟨e, hk, ha⟩ := hp
    refine ⟨e + 1, by omega, ?_⟩
    rw [ha]
    simp only [Fn.stackSpan, take_succ_cons, map_cons, sum_cons]
    omega
  | reg n => exact hp
  | freg n => exact hp

/-- `va_arg` after `va_arg` returns the places of the unnamed arguments. -/
theorem VaList.At.vaArgs {ap : VaList} {G V K : Int} {gp fp : Nat} (h : ap.At G V K gp fp) (tys : List Ty)
    (hscalar : ∀ ty ∈ tys, ty.Scalar) (st : Nat) :
    List.Forall₂ (PlacePointer G V K (Fn.stackTypes tys gp fp) st) (vaArgs ap tys) (places tys gp fp st) := by
  induction tys generalizing ap K gp fp st with
  | nil => exact .nil
  | cons ty tys ih =>
    have hty := hscalar ty mem_cons_self
    have hrest := fun t ht => hscalar t (mem_cons_of_mem _ ht)
    have hagg : ¬ ty.isAggregate = true := by simp [hty.single]
    have hstack := h.stack
    have hgr := h.grOffs
    have hvr := h.vrOffs
    have hgt := h.grTop
    have hvt := h.vrTop
    rw [Cc.vaArgs, Fn.stackTypes, passByStack, if_neg hagg, places, vaArg]
    by_cases hfp : ty.isFlonum
    · rw [if_pos hfp, if_pos hfp, if_pos hfp, vaArgFp]
      by_cases hlt : fp < 8
      · rw [if_neg (show ¬ 0 ≤ ap.vrOffs by omega), if_pos hlt, show decide (8 ≤ fp) = false by simp [hlt]]
        have hnext : VaList.At { ap with vrOffs := ap.vrOffs + 16 } G V K gp (fp + 1) :=
          ⟨hstack, hgt, hvt, hgr, by dsimp only; omega⟩
        refine .cons ?_ (ih hnext hrest st)
        show ap.vrTop + ap.vrOffs = V + 16 * fp
        omega
      rw [if_pos (show 0 ≤ ap.vrOffs by omega), if_neg hlt,
        show decide (8 ≤ fp) = true by simp [Nat.le_of_not_lt hlt], hty.span_eq]
      have hnext : VaList.At { ap with stack := ap.stack + (max 8 ty.size : Nat) } G V
          (K + (max 8 ty.size : Nat)) gp (fp + 1) :=
        ⟨by rw [hstack], hgt, hvt, hgr, by dsimp only; omega⟩
      exact .cons ⟨0, rfl, by simp [Fn.stackSpan, hstack]⟩ (forall₂_pointer_slot (ih hnext hrest (st + 1)))
    rw [if_neg hfp, if_neg hfp, if_neg hfp, vaArgGp]
    by_cases hlt : gp < 8
    · rw [if_neg (show ¬ 0 ≤ ap.grOffs by omega), if_pos hlt, show decide (8 ≤ gp) = false by simp [hlt]]
      have hnext : VaList.At { ap with grOffs := ap.grOffs + 8 } G V K (gp + 1) fp :=
        ⟨hstack, hgt, hvt, by dsimp only; omega, hvr⟩
      refine .cons ?_ (ih hnext hrest st)
      show ap.grTop + ap.grOffs = G + 8 * gp
      omega
    rw [if_pos (show 0 ≤ ap.grOffs by omega), if_neg hlt,
      show decide (8 ≤ gp) = true by simp [Nat.le_of_not_lt hlt], hty.span_eq]
    have hnext : VaList.At { ap with stack := ap.stack + (max 8 ty.size : Nat) } G V
        (K + (max 8 ty.size : Nat)) (gp + 1) fp :=
      ⟨by rw [hstack], hgt, hvt, by dsimp only; omega, hvr⟩
    exact .cons ⟨0, rfl, by simp [Fn.stackSpan, hstack]⟩ (forall₂_pointer_slot (ih hnext hrest (st + 1)))

/-! ## The area in front of the body -/

namespace Fn

variable {fn : Fn} {entry m : Mach} {area : Nat}

theorem toNat_ofInt {z : Int} (hlo : 0 ≤ z) (hhi : z < 2 ^ 64) : ((BitVec.ofInt 64 z).toNat : Int) = z := by
  have h := @toNat_addr z 0 (by simpa using hlo) (by simpa using hhi)
  simpa using h

theorem toInt_low {z : Int} (hlo : -128 ≤ z) (hhi : z ≤ 0) :
    (((BitVec.ofInt 32 z).setWidth 64).setWidth 32).toInt = z := by
  rw [BitVec.setWidth_setWidth_of_le _ (by decide), BitVec.setWidth_eq, BitVec.toInt_ofInt]
  exact Int.bmod_eq_of_le (by omega) (by omega)

section

variable (h : fn.Sound) (hroom : fn.Room entry) (hmem : m.mem = entry.mem.puts (fn.entryWrites entry))
  (hvar : fn.isVariadic = true) (harea : fn.vaArea = some area)

include h hmem hvar harea

theorem Sound.holds_area {w : Write} (hw : w ∈ fn.vaWrites (entry.sp - 16) area entry) :
    m.mem.Holds w.addr w.size w.val := by
  rw [hmem]
  refine Mem.holds_puts h.entryWrites_apart (mem_append_right _ (mem_append_right _ ?_))
  unfold varargWrites
  rw [hvar, harea]
  exact hw

theorem Sound.holds_saved {n : Nat} (hn : n < 8) :
    m.mem.Holds (entry.sp - 16 + (fn.offset area + 32) + 16 * n) 8 (entry.d n) ∧
    m.mem.Holds (entry.sp - 16 + (fn.offset area + 32 + 128) + 8 * n) 8 (entry.x n) := by
  constructor
  · have hw := h.holds_area hmem hvar harea (mem_append_left _ (mem_append_left _ (mem_append_left _
      (mem_append_left _ (mem_append_left _ (mem_append_left _ (mem_map_of_mem (mem_range.2 hn))))))))
    have haddr : entry.sp - 16 + (fn.offset area + 32 + (n : Int) * 16) =
        entry.sp - 16 + (fn.offset area + 32) + 16 * n := by omega
    rwa [haddr] at hw
  have hw := h.holds_area hmem hvar harea (mem_append_left _ (mem_append_left _ (mem_append_left _
    (mem_append_left _ (mem_append_left _ (mem_append_right _ (mem_map_of_mem (mem_range.2 hn))))))))
  have haddr : entry.sp - 16 + (fn.offset area + 32 + 128 + (n : Int) * 8) =
      entry.sp - 16 + (fn.offset area + 32 + 128) + 8 * n := by omega
  rwa [haddr] at hw

include hroom

/-- The list in the area starts behind the named parameters, and at the first argument on the stack. -/
theorem Sound.vaList_at : (VaList.read m.mem (entry.sp - 16 + fn.offset area)).At
    (entry.sp - 16 + (fn.offset area + 32 + 128)) (entry.sp - 16 + (fn.offset area + 32)) entry.sp
    (fn.params.countP fun i => !(fn.varTy i).isFlonum) (fn.params.countP fun i => (fn.varTy i).isFlonum) := by
  obtain ⟨a, ha, hlt, hnot, hsize⟩ := h.area hvar
  obtain rfl : area = a := Option.some.inj (harea.symm.trans ha)
  obtain ⟨b, hb, hbs, hle⟩ := h.offset_local hlt (paramOffsets_of_not_mem hnot _ _ _ _)
  have hlo := hroom.lo
  have hhi := hroom.hi
  have hfield : ∀ (off : Int) (size : Nat) (v : BitVec 64),
      (⟨entry.sp - 16 + (fn.offset area + off), size, v⟩ : Write) ∈ fn.vaWrites (entry.sp - 16) area entry →
      m.mem.Holds (entry.sp - 16 + fn.offset area + off) size v := fun off size v hw => by
    have hholds := h.holds_area hmem hvar harea hw
    rwa [← Int.add_assoc] at hholds
  constructor
  · have hw := hfield 0 8 _ (mem_append_left _ (mem_append_left _ (mem_append_left _
      (mem_append_left _ (mem_append_right _ (by simp; rfl))))))
    rw [Int.add_zero] at hw
    show (((m.mem.get (entry.sp - 16 + fn.offset area) 8).toNat : Nat) : Int) = entry.sp
    rw [hw.get_eq, toNat_ofInt (by omega) (by omega)]
  · have hw := hfield 8 8 _ (mem_append_left _ (mem_append_left _ (mem_append_left _
      (mem_append_right _ mem_cons_self))))
    show (((m.mem.get (entry.sp - 16 + fn.offset area + 8) 8).toNat : Nat) : Int) = _
    rw [hw.get_eq, toNat_ofInt (by omega) (by omega)]
    omega
  · have hw := hfield 16 8 _ (mem_append_left _ (mem_append_left _ (mem_append_right _ mem_cons_self)))
    show (((m.mem.get (entry.sp - 16 + fn.offset area + 16) 8).toNat : Nat) : Int) = _
    rw [hw.get_eq, toNat_ofInt (by omega) (by omega)]
    omega
  · have hw := hfield 24 4 _ (mem_append_left _ (mem_append_right _ mem_cons_self))
    show ((m.mem.get (entry.sp - 16 + fn.offset area + 24) 4).setWidth 32).toInt = _
    have hmin : fn.namedParams.1 = min (fn.params.countP fun i => !(fn.varTy i).isFlonum) 8 := Nat.min_comm _ _
    rw [hw.get_low, toInt_low (by omega) (by omega), hmin]
  have hw := hfield 28 4 _ (mem_append_right _ mem_cons_self)
  show ((m.mem.get (entry.sp - 16 + fn.offset area + 28) 4).setWidth 32).toInt = _
  have hmin : fn.namedParams.2 = min (fn.params.countP fun i => (fn.varTy i).isFlonum) 8 := Nat.min_comm _ _
  rw [hw.get_low, toInt_low (by omega) (by omega), hmin]

end

end Fn

end Slopix.Cc
