import Mathlib.Data.List.Nodup
import Mathlib.Data.List.Perm.Basic
import Mathlib.Logic.Equiv.Basic

/-!
# Sorting in place

An array is a function on its indices. A range of it is rearranged by a permutation of the indices that leaves the
others alone. While an array is being sorted, some ranges are pending: two elements in the wrong order lie in one of
them. A range is split at an element that has its final place; when no range is pending the array is sorted.
-/

universe u

namespace Slopix.Lib

open List

variable {α : Type u} {a a' a'' : Nat → α} {lo hi n : Nat}

/-! ## Rearranging a range -/

/-- The elements at `lo` to `hi` in another order, and the others where they were. -/
def Rearranged (lo hi : Nat) (a a' : Nat → α) : Prop :=
  ∃ σ : Equiv.Perm Nat, (∀ k, k < lo ∨ hi < k → σ k = k) ∧ a' = a ∘ σ

theorem Rearranged.refl (lo hi : Nat) (a : Nat → α) : Rearranged lo hi a a := 
  ⟨Equiv.refl Nat, fun _ _ => rfl, rfl⟩

theorem Rearranged.trans (h : Rearranged lo hi a a') (h' : Rearranged lo hi a' a'') : Rearranged lo hi a a'' := by
  obtain ⟨σ, hσ, rfl⟩ := h
  obtain ⟨τ, hτ, rfl⟩ := h'
  refine ⟨τ.trans σ, fun k hk => ?_, rfl⟩
  rw [Equiv.trans_apply, hτ k hk, hσ k hk]

theorem Rearranged.mono (h : Rearranged lo hi a a') {lo' hi' : Nat} (hlo : lo' ≤ lo) (hhi : hi ≤ hi') :
    Rearranged lo' hi' a a' := by
  obtain ⟨σ, hσ, rfl⟩ := h
  exact ⟨σ, fun k hk => hσ k (by omega), rfl⟩

theorem Rearranged.swap (a : Nat → α) {i j : Nat} (hi1 : lo ≤ i) (hi2 : i ≤ hi) (hj1 : lo ≤ j) (hj2 : j ≤ hi) :
    Rearranged lo hi a (a ∘ Equiv.swap i j) :=
  ⟨Equiv.swap i j, fun _ hk => Equiv.swap_apply_of_ne_of_ne (by omega) (by omega), rfl⟩

theorem Rearranged.outside (h : Rearranged lo hi a a') {k : Nat} (hk : k < lo ∨ hi < k) : a' k = a k := by
  obtain ⟨σ, hσ, rfl⟩ := h
  exact congrArg a (hσ k hk)

theorem perm_inside {σ : Equiv.Perm Nat} (hσ : ∀ k, k < lo ∨ hi < k → σ k = k) {k : Nat} (hk : lo ≤ k ∧ k ≤ hi) :
    lo ≤ σ k ∧ σ k ≤ hi := by
  by_contra hout
  have hfix : σ (σ k) = σ k := hσ _ (by omega)
  have hsame : σ k = k := σ.injective hfix
  omega

theorem Rearranged.forall_inside (h : Rearranged lo hi a a') {P : α → Prop} (hP : ∀ k, lo ≤ k → k ≤ hi → P (a k)) :
    ∀ k, lo ≤ k → k ≤ hi → P (a' k) := by
  obtain ⟨σ, hσ, rfl⟩ := h
  intro k hlo hhi
  have hin := perm_inside hσ ⟨hlo, hhi⟩
  exact hP (σ k) hin.1 hin.2

/-- **The elements are the same.** -/
theorem Rearranged.perm (h : Rearranged lo hi a a') (hn : hi < n) :
    ((range n).map a').Perm ((range n).map a) := by
  obtain ⟨σ, hσ, rfl⟩ := h
  have hmap : ((range n).map σ).Perm (range n) := by
    rw [perm_ext_iff_of_nodup (nodup_range.map σ.injective) nodup_range]
    intro k
    have hsym : ∀ k, k < lo ∨ hi < k → σ.symm k = k := fun k hk => by
      rw [Equiv.symm_apply_eq, hσ k hk]
    simp only [mem_map, mem_range]
    constructor
    · rintro ⟨j, hj, rfl⟩
      by_cases hin : lo ≤ j ∧ j ≤ hi
      · exact Nat.lt_of_le_of_lt (perm_inside hσ hin).2 hn
      · rwa [hσ j (by omega)]
    intro hk
    refine ⟨σ.symm k, ?_, σ.apply_symm_apply k⟩
    by_cases hin : lo ≤ k ∧ k ≤ hi
    · exact Nat.lt_of_le_of_lt (perm_inside hsym hin).2 hn
    · rwa [hsym k (by omega)]
  rw [← map_map]
  exact hmap.map a

/-! ## Pending ranges -/

/-- Two ranges have no index in common. -/
def Apart (r s : Nat × Nat) : Prop := r.2 < s.1 ∨ s.2 < r.1

/-- The array below `n` is sorted up to the ranges of `todo`. -/
structure Pending (le : α → α → Prop) (n : Nat) (todo : List (Nat × Nat)) (a : Nat → α) : Prop where
  inside : ∀ r ∈ todo, r.2 < n
  apart : todo.Pairwise Apart
  ordered : ∀ i j, i < j → j < n → le (a i) (a j) ∨ ∃ r ∈ todo, r.1 ≤ i ∧ j ≤ r.2

section

variable {le : α → α → Prop} {todo todo' rest : List (Nat × Nat)} {r : Nat × Nat}

theorem pending_all (le : α → α → Prop) (hn : 0 < n) (a : Nat → α) : Pending le n [(0, n - 1)] a where
  inside r hr := by
    obtain rfl := mem_singleton.1 hr
    exact Nat.sub_lt hn Nat.one_pos
  apart := pairwise_singleton _ _
  ordered i j hij hj := Or.inr ⟨_, mem_singleton_self _, Nat.zero_le i, Nat.le_sub_one_of_lt hj⟩

/-- **At the end the array is sorted.** -/
theorem Pending.sorted (h : Pending le n [] a) : ((range n).map a).Pairwise le := by
  rw [pairwise_map]
  refine pairwise_lt_range.imp_of_mem fun {i j} _ hj hij => ?_
  rcases h.ordered i j hij (mem_range.1 hj) with hle | ⟨r, hr, -⟩
  · exact hle
  · cases hr

theorem Pending.perm (h : Pending le n todo a) (hp : todo.Perm todo') : Pending le n todo' a where
  inside r hr := h.inside r (hp.mem_iff.2 hr)
  apart := hp.pairwise h.apart fun {_ _} hrs => hrs.symm
  ordered i j hij hj := by
    rcases h.ordered i j hij hj with hle | ⟨r, hr, hin⟩
    · exact Or.inl hle
    · exact Or.inr ⟨r, hp.mem_iff.1 hr, hin⟩

theorem Pending.drop (h : Pending le n (r :: rest) a) (hr : r.2 ≤ r.1) : Pending le n rest a where
  inside s hs := h.inside s (mem_cons_of_mem r hs)
  apart := (pairwise_cons.1 h.apart).2
  ordered i j hij hj := by
    rcases h.ordered i j hij hj with hle | ⟨s, hs, hin⟩
    · exact Or.inl hle
    · rcases mem_cons.1 hs with rfl | hs
      · omega
      · exact Or.inr ⟨s, hs, hin⟩

/-- The element at `p` has its place among those at `lo` to `hi`. -/
structure SplitAt (le : α → α → Prop) (lo hi p : Nat) (a : Nat → α) : Prop where
  mem : lo ≤ p ∧ p ≤ hi
  left : ∀ k, lo ≤ k → k < p → le (a k) (a p)
  right : ∀ k, p < k → k ≤ hi → le (a p) (a k)

/-- **A split range is pending on both sides of the split.** -/
theorem Pending.split (h : Pending le n ((lo, hi) :: rest) a) (hre : Rearranged lo hi a a') {p : Nat}
    (hp : SplitAt le lo hi p a') (htrans : ∀ i j k, le (a' i) (a' j) → le (a' j) (a' k) → le (a' i) (a' k)) :
    Pending le n ((lo, p - 1) :: (p + 1, hi) :: rest) a' := by
  obtain ⟨hlo, hhi⟩ := hp.mem
  have hin : hi < n := h.inside (lo, hi) mem_cons_self
  obtain ⟨hhead, htail⟩ := pairwise_cons.1 h.apart
  -- an element of the range and one outside are in order, wherever the first one is now
  have hout : ∀ i j, i < j → j < n → ¬ (lo ≤ i ∧ j ≤ hi) → (lo ≤ i ∧ i ≤ hi ∨ lo ≤ j ∧ j ≤ hi) → le (a i) (a j) := by
    intro i j hij hj hnot hone
    rcases h.ordered i j hij hj with hle | ⟨r, hr, hr1, hr2⟩
    · exact hle
    rcases mem_cons.1 hr with rfl | hr
    · exact absurd ⟨hr1, hr2⟩ hnot
    · have hapart : hi < r.1 ∨ r.2 < lo := hhead r hr
      omega
  refine ⟨fun r hr => ?_, ?_, fun i j hij hj => ?_⟩
  · rcases mem_cons.1 hr with rfl | hr
    · dsimp only
      omega
    · rcases mem_cons.1 hr with rfl | hr
      · exact hin
      · exact h.inside r (mem_cons_of_mem _ hr)
  · refine pairwise_cons.2 ⟨fun r hr => ?_, pairwise_cons.2 ⟨fun r hr => ?_, htail⟩⟩
    · unfold Apart
      rcases mem_cons.1 hr with rfl | hr
      · dsimp only
        omega
      · have hapart : hi < r.1 ∨ r.2 < lo := hhead r hr
        omega
    · have hapart : hi < r.1 ∨ r.2 < lo := hhead r hr
      unfold Apart
      omega
  by_cases hi1 : lo ≤ i ∧ i ≤ hi
  · by_cases hj1 : lo ≤ j ∧ j ≤ hi
    · -- both in the range: on one side of the split, or on its two sides
      by_cases hleft : j < p
      · exact Or.inr ⟨(lo, p - 1), mem_cons_self, hi1.1, by dsimp only; omega⟩
      by_cases hright : p < i
      · exact Or.inr ⟨(p + 1, hi), by simp, by dsimp only; omega, hj1.2⟩
      left
      rcases Nat.lt_or_ge i p with hip | hip
      · rcases Nat.lt_or_ge p j with hpj | hpj
        · exact htrans _ _ _ (hp.left i hi1.1 hip) (hp.right j hpj hj1.2)
        · obtain rfl : j = p := by omega
          exact hp.left i hi1.1 hip
      · obtain rfl : i = p := by omega
        exact hp.right j (by omega) hj1.2
    left
    rw [hre.outside (by omega : j < lo ∨ hi < j)]
    exact hre.forall_inside (P := fun x => le x (a j)) (fun k hk1 hk2 => hout k j (by omega) hj (by omega)
      (Or.inl ⟨hk1, hk2⟩)) i hi1.1 hi1.2
  rw [hre.outside (by omega : i < lo ∨ hi < i)]
  by_cases hj1 : lo ≤ j ∧ j ≤ hi
  · left
    exact hre.forall_inside (P := fun x => le (a i) x) (fun k hk1 hk2 => hout i k (by omega) (by omega) (by omega)
      (Or.inr ⟨hk1, hk2⟩)) j hj1.1 hj1.2
  rw [hre.outside (by omega : j < lo ∨ hi < j)]
  rcases h.ordered i j hij hj with hle | ⟨r, hr, hr1, hr2⟩
  · exact Or.inl hle
  · rcases mem_cons.1 hr with rfl | hr
    · omega
    · exact Or.inr ⟨r, by simp [hr], hr1, hr2⟩

end

end Slopix.Lib
