import Mathlib.Data.Nat.Basic
import Mathlib.Tactic.Common

/-!
# Runs of ones

Strings of `n` bits that are made of equal elements, each with one run of ones. A run that does not reach around the
end of its element is a rotated run, and its element is the smallest one that the string is made of.
-/

namespace Slopix.Lib

section

variable {b : Nat → Bool} {n e k r s : Nat}

/-- The first `n` bits repeat after `s`. -/
def Periodic (n s : Nat) (b : Nat → Bool) : Prop := ∀ i < n, b i = b (i % s)

/-- Elements of `e` bits with ones from place `r` on, `k` of them. -/
def IsRun (n e k r : Nat) (b : Nat → Bool) : Prop := ∀ i < n, b i = decide (r ≤ i % e ∧ i % e < r + k)

/-- Elements of `e` bits with `k` ones at the low end, rotated right by `r` places. -/
def IsRotatedRun (n e k r : Nat) (b : Nat → Bool) : Prop := ∀ i < n, b i = decide ((i % e + r) % e < k)

theorem IsRun.periodic (h : IsRun n e k r b) : Periodic n e b := by
  intro i hi
  rw [h i hi, h (i % e) (lt_of_le_of_lt (Nat.mod_le i e) hi), Nat.mod_mod]

theorem isRun_iff_rotated (hr : r < e) (hrk : r + k ≤ e) : IsRun n e k r b ↔ IsRotatedRun n e k ((e - r) % e) b := by
  refine forall_congr' fun i => forall_congr' fun _ => ?_
  have hi : i % e < e := Nat.mod_lt i (Nat.zero_lt_of_lt hr)
  have hplace : (r ≤ i % e ∧ i % e < r + k) ↔ (i % e + (e - r) % e) % e < k := by
    generalize i % e = j at hi
    rw [Nat.add_mod_mod]
    rcases lt_or_ge j r with hlt | hge
    · rw [Nat.mod_eq_of_lt (by omega)]
      omega
    · rw [Nat.mod_eq_sub_mod (by omega), Nat.mod_eq_of_lt (by omega)]
      omega
  rw [decide_eq_decide.2 hplace]

/-- **An element with a run, neither empty nor full, is not made of smaller ones.** -/
theorem IsRun.not_periodic {m : Nat} (h : IsRun n e k r b) (hk : 0 < k) (hke : k < e) (hrk : r + k ≤ e) (hen : e ≤ n)
    (hs : 0 < s) (hm : 2 ≤ m) (he : e = s * m) : ¬ Periodic n s b := by
  intro hper
  have hbit : ∀ i < e, b i = true ↔ r ≤ i ∧ i < r + k := by
    intro i hi
    rw [h i (by omega), Nat.mod_eq_of_lt hi, decide_eq_true_eq]
  obtain ⟨m, rfl⟩ : ∃ j, m = j + 1 := ⟨m - 1, by omega⟩
  have he : e = s + s * m := by rw [he, Nat.mul_succ, Nat.add_comm]
  have hsm : s ≤ s * m := Nat.le_mul_of_pos_right s (by omega)
  have hlast : ∀ j < s, b (j + s * m) = b j := by
    intro j hj
    rw [hper (j + s * m) (by omega), Nat.add_mul_mod_self_left, Nat.mod_eq_of_lt hj]
  -- the run starts in the first small element, so it is in the last one too
  have hrs : r < s := by
    have hone := (hbit r (by omega)).2 ⟨le_refl r, by omega⟩
    rw [hper r (by omega)] at hone
    have hmod := Nat.mod_lt r hs
    have hrun := (hbit (r % s) (by omega)).1 hone
    omega
  have hlong : s * m < k := by
    have hone := (hbit r (by omega)).2 ⟨le_refl r, by omega⟩
    rw [← hlast r hrs] at hone
    have hrun := (hbit (r + s * m) (by omega)).1 hone
    omega
  -- but one end of the element is zero, and the run covers the places that repeat it
  rcases Nat.eq_zero_or_pos r with hr0 | hr0
  · have hone := (hbit (s - 1) (by omega)).2 (by omega)
    rw [← hlast (s - 1) (by omega)] at hone
    have hrun := (hbit (s - 1 + s * m) (by omega)).1 hone
    omega
  have hone := (hbit s (by omega)).2 (by omega)
  rw [hper s (by omega), Nat.mod_self] at hone
  have hrun := (hbit 0 (by omega)).1 hone
  omega

end

end Slopix.Lib
