import Mathlib.Algebra.Order.BigOperators.Group.Finset
import Mathlib.Data.Multiset.Fintype
import Mathlib.Tactic.Abel

/-!
# Sums of multisets over a range

What a table refers to is the sum over its entries of what each entry refers to. The sums of two tables
that differ in one entry differ by what that entry contributes.
-/

namespace Slopix.Lib

open Multiset Finset

section

variable {f g : Nat → Multiset Nat} {n i j : Nat}

/-- Sums that differ in one place. -/
theorem sum_range_change (hi : i < n) (h : ∀ k < n, k ≠ i → f k = g k) :
    ∑ k ∈ Finset.range n, f k + g i = ∑ k ∈ Finset.range n, g k + f i := by
  have hmem : i ∈ Finset.range n := Finset.mem_range.2 hi
  have hrest : ∑ k ∈ (Finset.range n).erase i, f k = ∑ k ∈ (Finset.range n).erase i, g k := by
    apply Finset.sum_congr rfl
    intro k hk
    rw [Finset.mem_erase, Finset.mem_range] at hk
    exact h k hk.2 hk.1
  rw [← add_sum_erase _ f hmem, ← add_sum_erase _ g hmem, hrest]
  abel

theorem le_sum_range (hi : i < n) : f i ≤ ∑ k ∈ range n, f k := by
  rw [← add_sum_erase _ f (mem_range.2 hi)]
  exact le_add_right _ _

theorem add_le_sum_range (hi : i < n) (hj : j < n) (hne : j ≠ i) :
    f i + f j ≤ ∑ k ∈ range n, f k := by
  have hj' : j ∈ (Finset.range n).erase i := Finset.mem_erase.2 ⟨hne, Finset.mem_range.2 hj⟩
  rw [← add_sum_erase _ f (mem_range.2 hi), ← add_sum_erase _ f hj', ← add_assoc]
  exact le_add_right _ _

theorem notMem_of_nodup_sum (hnd : (∑ k ∈ range n, f k).Nodup) (hi : i < n) (hj : j < n)
    (hne : j ≠ i) {x : Nat} (hx : x ∈ f i) : x ∉ f j := by
  have hsum := nodup_of_le (add_le_sum_range hi hj hne) hnd
  rw [nodup_add] at hsum
  exact fun hxj => disjoint_left.1 hsum.2.2 hx hxj

/-- A sum has no duplicates when its summands have none and share nothing. -/
theorem nodup_sum_range (hnd : ∀ i < n, (f i).Nodup)
    (hapart : ∀ i < n, ∀ j < n, ∀ x ∈ f i, x ∈ f j → i = j) : (∑ k ∈ range n, f k).Nodup := by
  induction n with
  | zero => simp
  | succ n ih =>
    rw [sum_range_succ, nodup_add]
    refine ⟨ih (fun i hi => hnd i (Nat.lt_succ_of_lt hi)) fun i hi j hj =>
      hapart i (Nat.lt_succ_of_lt hi) j (Nat.lt_succ_of_lt hj), hnd n (Nat.lt_succ_self n),
      disjoint_left.2 fun hx hn => ?_⟩
    obtain ⟨i, hi, hxi⟩ := mem_sum.1 hx
    have hi := Finset.mem_range.1 hi
    have heq := hapart i (Nat.lt_succ_of_lt hi) n (Nat.lt_succ_self n) _ hxi hn
    omega

/-- Replace the part `c` of one sum by `c'`, where the parts differ by `o` and `n`. -/
theorem cancel_below {A A' a c c' o n : Multiset Nat} (h : A' + (a + c) = A + (a + c'))
    (hc : c' + o = c + n) : A' + o = A + n := by
  apply add_right_cancel (b := a + c)
  calc
    A' + o + (a + c) = A' + (a + c) + o := by abel
    _ = A + a + (c' + o) := by rw [h]; abel
    _ = A + n + (a + c) := by rw [hc]; abel

end

end Slopix.Lib
