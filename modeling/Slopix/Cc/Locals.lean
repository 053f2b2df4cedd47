import Slopix.Cc.Call

/-!
# The layout of a frame

`assign_lvar_offsets`: the parameters past the eighth of their kind get offsets above the frame, all other
variables get places of their own below it.
-/

namespace Slopix.Cc

open List Function

theorem le_alignTo {n align : Nat} (h : 0 < align) : n ≤ alignTo n align := by
  have hdiv := Nat.div_add_mod (n + align - 1) align
  have hmod := Nat.mod_lt (n + align - 1) h
  unfold alignTo
  rw [Nat.mul_comm]
  omega

theorem alignTo_of_mod {n : Nat} (h : n % 8 = 0) : alignTo n 8 = n := by
  unfold alignTo
  omega

namespace Fn

/-! ## Local variables -/

section

/-- The local variables from number `i` on have places below `bottom`, each below those before it; `p` says which
ones have a place already. -/
structure Below (vs : List Local) (i bottom : Nat) (off : Nat → Int) (res : Nat × (Nat → Int)) : Prop where
  le : bottom ≤ res.1
  kept : ∀ j, j < i ∨ i + vs.length ≤ j ∨ off j ≠ 0 → res.2 j = off j
  place : ∀ k v, vs[k]? = some v → off (i + k) = 0 → ∃ b : Nat, res.2 (i + k) = -(b : Int) ∧
    bottom + v.ty.size ≤ b ∧ b ≤ res.1
  apart : ∀ k k' v', k < k' → vs[k']? = some v' → off (i + k) = 0 → off (i + k') = 0 →
    res.2 (i + k') + v'.ty.size ≤ res.2 (i + k)

/-- Every local variable has a place below the ones in front of it. -/
theorem below_localOffsets (vs : List Local) (i bottom : Nat) (off : Nat → Int)
    (halign : ∀ v ∈ vs, 0 < v.align) : Below vs i bottom off (localOffsets vs i bottom off) := by
  induction vs generalizing i bottom off with
  | nil => exact ⟨Nat.le_refl _, fun _ _ => rfl, by simp, by simp⟩
  | cons v vs ih =>
    have hrest := fun w hw => halign w (mem_cons_of_mem _ hw)
    rw [localOffsets]
    by_cases hoff : off i ≠ 0
    · rw [if_pos hoff]
      have h := ih (i + 1) bottom off hrest
      refine ⟨h.le, fun j hj => h.kept j ?_, fun k w hk hz => ?_, fun k k' w hlt hk' hz hz' => ?_⟩
      · rw [length_cons] at hj
        rcases hj with hj | hj | hj
        · exact .inl (by omega)
        · exact .inr (.inl (by omega))
        · exact .inr (.inr hj)
      · cases k with
        | zero => exact absurd hz hoff
        | succ k =>
          rw [show i + (k + 1) = i + 1 + k by omega] at hz ⊢
          exact h.place k w hk hz
      cases k with
      | zero => exact absurd hz hoff
      | succ k =>
        obtain ⟨k', rfl⟩ := Nat.exists_eq_add_of_lt (Nat.zero_lt_of_lt hlt)
        rw [show i + (k + 1) = i + 1 + k by omega] at hz ⊢
        rw [show i + (0 + k' + 1) = i + 1 + k' by omega] at hz' ⊢
        rw [show 0 + k' + 1 = k' + 1 by omega] at hk' hlt
        exact h.apart k k' w (by omega) hk' hz hz'
    rw [if_neg hoff]
    have hzero : off i = 0 := Decidable.of_not_not hoff
    have hle := le_alignTo (n := bottom + v.ty.size) (halign v mem_cons_self)
    generalize alignTo (bottom + v.ty.size) v.align = b0 at hle ⊢
    have hother : ∀ j, j ≠ i → update off i (-(b0 : Int)) j = off j := fun j hj =>
      update_of_ne hj _ _
    have h := ih (i + 1) b0 (update off i (-(b0 : Int))) hrest
    generalize localOffsets vs (i + 1) b0 (update off i (-(b0 : Int))) = res at h ⊢
    have hself : res.2 i = -(b0 : Int) := by
      rw [h.kept i (.inl (Nat.lt_succ_self i)), update_self]
    have hge := h.le
    refine ⟨by omega, fun j hj => ?_, fun k w hk hz => ?_, fun k k' w hlt hk' hz hz' => ?_⟩
    · have hne : j ≠ i := by
        rintro rfl
        rw [length_cons] at hj
        rcases hj with hj | hj | hj
        · omega
        · omega
        · exact hj hzero
      rw [length_cons] at hj
      rw [h.kept j ?_, hother j hne]
      rw [hother j hne]
      rcases hj with hj | hj | hj
      · exact .inl (by omega)
      · exact .inr (.inl (by omega))
      · exact .inr (.inr hj)
    · cases k with
      | zero =>
        obtain rfl : v = w := by simpa using hk
        exact ⟨b0, hself, hle, hge⟩
      | succ k =>
        rw [show i + (k + 1) = i + 1 + k by omega] at hz ⊢
        obtain ⟨b, hb, hlo, hhi⟩ := h.place k w hk (by rw [hother _ (by omega)]; exact hz)
        exact ⟨b, hb, by omega, hhi⟩
    obtain ⟨k', rfl⟩ := Nat.exists_eq_add_of_lt (Nat.zero_lt_of_lt hlt)
    rw [show i + (0 + k' + 1) = i + 1 + k' by omega] at hz' ⊢
    rw [show 0 + k' + 1 = k' + 1 by omega] at hk' hlt
    have hz1 : update off i (-(b0 : Int)) (i + 1 + k') = 0 := by
      rw [hother _ (by omega)]
      exact hz'
    cases k with
    | zero =>
      obtain ⟨b, hb, hlo, hhi⟩ := h.place k' w hk' hz1
      rw [show i + 0 = i from rfl, hself, hb]
      omega
    | succ k =>
      rw [show i + (k + 1) = i + 1 + k by omega] at hz ⊢
      exact h.apart k k' w (by omega) hk' (by rw [hother _ (by omega)]; exact hz) hz1

end

/-! ## Parameters -/

section

/-- The size of the parameters on the stack before the `n`-th one, as `assign_lvar_offsets` counts it. -/
def stackSpan (tys : List Ty) (n : Nat) : Nat := ((tys.take n).map fun ty => max 8 ty.size).sum

/-- The types of the arguments on the stack. -/
def stackTypes (tys : List Ty) (gp fp : Nat) : List Ty := picked true (passByStack tys gp fp) tys

variable {fn : Fn}

theorem paramOffsets_of_not_mem {ps : List Nat} {i : Nat} (h : i ∉ ps) (gp fp top : Nat) (off : Nat → Int) :
    fn.paramOffsets ps gp fp top off i = off i := by
  induction ps generalizing gp fp top off with
  | nil => rfl
  | cons j js ih =>
    rw [mem_cons, not_or] at h
    rw [paramOffsets]
    repeat' split
    all_goals
      rw [ih h.2]
    all_goals
      exact update_of_ne h.1 _ _

/-- The offset at which the parameter finds an argument in that place. -/
def PlaceOffset (tys : List Ty) (st top : Nat) (off : Int) : Place → Prop
  | .slot k => ∃ e, k = st + e ∧ off = (top + stackSpan tys e : Nat)
  | _ => off = 0

/-- Parameters in registers get no offset yet, those on the stack lie one behind the other. -/
theorem paramOffsets_spec (ps : List Nat) (gp fp st top : Nat) (off : Nat → Int) (hnodup : ps.Nodup)
    (hagg : ∀ i ∈ ps, (fn.varTy i).isAggregate = false) (hsize : ∀ i ∈ ps, max 8 (fn.varTy i).size % 8 = 0)
    (hoff : ∀ i ∈ ps, off i = 0) (htop : top % 8 = 0) :
    List.Forall₂ (fun i p => PlaceOffset (stackTypes (ps.map fn.varTy) gp fp) st top
      (fn.paramOffsets ps gp fp top off i) p) ps (places (ps.map fn.varTy) gp fp st) := by
  induction ps generalizing gp fp st top off with
  | nil => exact .nil
  | cons i is ih =>
    rw [nodup_cons] at hnodup
    have hty : ¬ (fn.varTy i).isAggregate = true := by simp [hagg i mem_cons_self]
    have hrest := fun j hj => hagg j (mem_cons_of_mem _ hj)
    have hrsize := fun j hj => hsize j (mem_cons_of_mem _ hj)
    have hroff := fun j hj => hoff j (mem_cons_of_mem _ hj)
    have hzero := hoff i mem_cons_self
    have htop' : (top + max 8 (fn.varTy i).size) % 8 = 0 := by
      have := hsize i mem_cons_self
      omega
    -- a parameter on the stack, in front of the others
    have hstack : ∀ gp' fp' ps', List.Forall₂ (fun j p => PlaceOffset (stackTypes (is.map fn.varTy) gp' fp')
        (st + 1) (top + max 8 (fn.varTy i).size) (fn.paramOffsets is gp' fp' (top + max 8 (fn.varTy i).size)
          (update off i top) j) p) is ps' →
        List.Forall₂ (fun j p => PlaceOffset (fn.varTy i :: stackTypes (is.map fn.varTy) gp' fp') st top
          (fn.paramOffsets is gp' fp' (top + max 8 (fn.varTy i).size) (update off i top) j) p)
          (i :: is) (.slot st :: ps') := by
      intro gp' fp' ps' h
      refine .cons ⟨0, rfl, ?_⟩ (h.imp fun j p hp => ?_)
      · rw [paramOffsets_of_not_mem hnodup.1, update_self]
        simp [stackSpan]
      cases p with
      | slot k =>
        obtain ⟨e, hk, hval⟩ := hp
        refine ⟨e + 1, by omega, ?_⟩
        rw [hval]
        simp only [stackSpan, take_succ_cons, map_cons, sum_cons]
        omega
      | _ => exact hp
    have hnew : ∀ j ∈ is, update off i (top : Int) j = 0 := fun j hj => by
      rw [update_of_ne (by rintro rfl; exact hnodup.1 hj)]
      exact hroff j hj
    rw [map_cons, stackTypes, passByStack, if_neg hty, places]
    simp only [paramOffsets, if_neg hty, alignTo_of_mod htop]
    by_cases hfp : (fn.varTy i).isFlonum
    · rw [if_pos hfp, if_pos hfp]
      simp only [if_pos hfp]
      by_cases hlt : fp < 8
      · simp only [if_pos hlt]
        rw [show decide (8 ≤ fp) = false by simp [hlt]]
        refine .cons ?_ (ih gp (fp + 1) st top off hnodup.2 hrest hrsize hroff htop)
        exact (paramOffsets_of_not_mem hnodup.1 _ _ _ _).trans hzero
      · simp only [if_neg hlt]
        rw [show decide (8 ≤ fp) = true by simp [Nat.le_of_not_lt hlt]]
        exact hstack _ _ _ (ih gp (fp + 1) (st + 1) _ _ hnodup.2 hrest hrsize hnew htop')
    rw [if_neg hfp, if_neg hfp]
    simp only [if_neg hfp]
    by_cases hlt : gp < 8
    · simp only [if_pos hlt]
      rw [show decide (8 ≤ gp) = false by simp [hlt]]
      refine .cons ?_ (ih (gp + 1) fp st top off hnodup.2 hrest hrsize hroff htop)
      exact (paramOffsets_of_not_mem hnodup.1 _ _ _ _).trans hzero
    · simp only [if_neg hlt]
      rw [show decide (8 ≤ gp) = true by simp [Nat.le_of_not_lt hlt]]
      exact hstack _ _ _ (ih (gp + 1) fp (st + 1) _ _ hnodup.2 hrest hrsize hnew htop')

end

end Fn

end Slopix.Cc
