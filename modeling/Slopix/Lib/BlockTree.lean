import Slopix.Lib.RangeSum

/-!
# Trees of blocks

A file system keeps the blocks of a file in trees of fixed height: an inner block has `w` entries, each
the number of a block one level down, or 0. `ent` reads the entries of a block, `rd` gives its contents,
and a tree is given by its height and the number of its root. `leafAt` finds the block at an index,
`treeBlocks` are all blocks of a tree. `attach` is the one step in which a tree grows: an entry that was
0 gets a new block, and this changes nothing but that entry.
-/

namespace Slopix.Lib

open Multiset

section

variable {β : Type} (ent : β → Nat → Nat) (w : Nat) (rd : Nat → β)

/-- The blocks with entries, in the tree of a given height below block `b`. -/
def innerBlocks : Nat → Nat → Multiset Nat
  | 0, _ => 0
  | h + 1, b =>
    if b = 0 then 0 else {b} + ∑ j ∈ Finset.range w, innerBlocks h (ent (rd b) j)

/-- The data blocks below a block of height `h`. -/
def leafBlocks : Nat → Nat → Multiset Nat
  | 0, b => if b = 0 then 0 else {b}
  | h + 1, b => if b = 0 then 0 else ∑ j ∈ Finset.range w, leafBlocks h (ent (rd b) j)

/-- All blocks below, with the inner ones. -/
def treeBlocks (h b : Nat) : Multiset Nat := innerBlocks ent w rd h b + leafBlocks ent w rd h b

/-- The block at height `k` on the way down to index `i`. -/
def nodeAt (k : Nat) : Nat → Nat → Nat → Nat
  | 0, b, _ => b
  | h + 1, b, i =>
    if h + 1 = k ∨ b = 0 then b else nodeAt k h (ent (rd b) (i / w ^ h)) (i % w ^ h)

/-- The block at index `i`. -/
def leafAt (h b i : Nat) : Nat := nodeAt ent w rd 0 h b i

end

section

variable {β : Type} {ent : β → Nat → Nat} {w : Nat} {rd rd' : Nat → β} {h k k' b i j v x : Nat}

@[simp] theorem innerBlocks_empty : innerBlocks ent w rd h 0 = 0 := by
  cases h with
  | zero => rfl
  | succ h => simp [innerBlocks]

@[simp] theorem leafBlocks_empty : leafBlocks ent w rd h 0 = 0 := by
  cases h with
  | zero => simp [leafBlocks]
  | succ h => simp [leafBlocks]

@[simp] theorem treeBlocks_empty : treeBlocks ent w rd h 0 = 0 := by simp [treeBlocks]

@[simp] theorem nodeAt_empty : nodeAt ent w rd k h 0 i = 0 := by
  cases h with
  | zero => rfl
  | succ h => simp [nodeAt]

theorem innerBlocks_succ (hb : b ≠ 0) : innerBlocks ent w rd (h + 1) b =
    {b} + ∑ j ∈ Finset.range w, innerBlocks ent w rd h (ent (rd b) j) := by
  rw [innerBlocks, if_neg hb]

theorem leafBlocks_succ (hb : b ≠ 0) : leafBlocks ent w rd (h + 1) b =
    ∑ j ∈ Finset.range w, leafBlocks ent w rd h (ent (rd b) j) := by
  rw [leafBlocks, if_neg hb]

theorem treeBlocks_succ (hb : b ≠ 0) : treeBlocks ent w rd (h + 1) b =
    {b} + ∑ j ∈ Finset.range w, treeBlocks ent w rd h (ent (rd b) j) := by
  simp only [treeBlocks, innerBlocks_succ hb, leafBlocks_succ hb, Finset.sum_add_distrib]
  abel

theorem treeBlocks_zero (hb : b ≠ 0) : treeBlocks ent w rd 0 b = {b} := by
  simp [treeBlocks, innerBlocks, leafBlocks, hb]

theorem nodeAt_succ (hk : h + 1 ≠ k) (hb : b ≠ 0) : nodeAt ent w rd k (h + 1) b i =
    nodeAt ent w rd k h (ent (rd b) (i / w ^ h)) (i % w ^ h) := by
  rw [nodeAt, if_neg (by omega)]

/-- At its own height a block is its only node. -/
theorem nodeAt_self : nodeAt ent w rd h h b i = b := by
  cases h with
  | zero => rfl
  | succ h => rw [nodeAt, if_pos (.inl rfl)]

/-- An index of a tree picks an entry of the root and an index below it. -/
theorem index_lt (hi : i < w ^ (h + 1)) : i / w ^ h < w ∧ i % w ^ h < w ^ h := by
  have hw : 0 < w ^ h := by
    rcases Nat.eq_zero_or_pos w with rfl | hw
    · rw [pow_succ, mul_zero] at hi
      omega
    · exact Nat.pow_pos hw
  exact ⟨Nat.div_lt_of_lt_mul (by rwa [pow_succ] at hi), Nat.mod_lt _ hw⟩

theorem child_le (hb : b ≠ 0) (hj : j < w) :
    treeBlocks ent w rd h (ent (rd b) j) ≤ treeBlocks ent w rd (h + 1) b := by
  rw [treeBlocks_succ hb]
  exact (le_sum_range (f := fun j => treeBlocks ent w rd h (ent (rd b) j)) hj).trans
    (le_add_left _ _)

theorem innerBlocks_le : innerBlocks ent w rd h b ≤ treeBlocks ent w rd h b := le_add_right _ _

theorem leafBlocks_le : leafBlocks ent w rd h b ≤ treeBlocks ent w rd h b := le_add_left _ _

/-- The root is not below itself, and the blocks below two entries are different. -/
theorem nodup_child (hb : b ≠ 0) (hnd : (treeBlocks ent w rd (h + 1) b).Nodup) (hj : j < w) :
    (treeBlocks ent w rd h (ent (rd b) j)).Nodup ∧ b ∉ treeBlocks ent w rd h (ent (rd b) j) ∧
      ∀ k < w, k ≠ j → ∀ x ∈ treeBlocks ent w rd h (ent (rd b) j),
        x ∉ treeBlocks ent w rd h (ent (rd b) k) := by
  refine ⟨nodup_of_le (child_le hb hj) hnd, fun hmem => ?_, fun k hk hne x hx => ?_⟩
  · rw [treeBlocks_succ hb] at hnd
    have hsum := mem_of_le
      (le_sum_range (f := fun j => treeBlocks ent w rd h (ent (rd b) j)) hj) hmem
    exact disjoint_left.1 (nodup_add.1 hnd).2.2 (mem_singleton_self b) hsum
  · rw [treeBlocks_succ hb] at hnd
    exact notMem_of_nodup_sum (nodup_add.1 hnd).2.1 hj hk hne hx

/-- The tree depends on the entries of its inner blocks only. -/
theorem tree_congr (hrd : ∀ c ∈ innerBlocks ent w rd h b, ∀ j < w, ent (rd' c) j = ent (rd c) j) :
    innerBlocks ent w rd' h b = innerBlocks ent w rd h b ∧
      leafBlocks ent w rd' h b = leafBlocks ent w rd h b ∧
      ∀ k i, i < w ^ h → nodeAt ent w rd' k h b i = nodeAt ent w rd k h b i := by
  induction h generalizing b with
  | zero => exact ⟨rfl, rfl, fun _ _ _ => rfl⟩
  | succ h ih =>
    by_cases hb : b = 0
    · subst hb
      simp
    rw [innerBlocks_succ hb] at hrd
    have hself := hrd b (mem_add.2 (.inl (mem_singleton_self b)))
    have hchild := fun j (hj : j < w) => @ih (ent (rd b) j) fun c hc =>
      hrd c (mem_add.2 (.inr (mem_of_le
        (le_sum_range (f := fun j => innerBlocks ent w rd h (ent (rd b) j)) hj) hc)))
    refine ⟨?_, ?_, fun k i hi => ?_⟩
    · rw [innerBlocks_succ hb, innerBlocks_succ hb]
      congr 1
      refine Finset.sum_congr rfl fun j hj => ?_
      rw [hself j (Finset.mem_range.1 hj), (hchild j (Finset.mem_range.1 hj)).1]
    · rw [leafBlocks_succ hb, leafBlocks_succ hb]
      refine Finset.sum_congr rfl fun j hj => ?_
      rw [hself j (Finset.mem_range.1 hj), (hchild j (Finset.mem_range.1 hj)).2.1]
    obtain ⟨hj, hi'⟩ := index_lt hi
    by_cases hk : h + 1 = k
    · subst hk
      rw [nodeAt_self, nodeAt_self]
    · rw [nodeAt_succ hk hb, nodeAt_succ hk hb, hself _ hj, (hchild _ hj).2.2 k _ hi']

theorem tree_mono (hrd : ∀ c ∈ innerBlocks ent w rd' h b, ∀ j < w, ent (rd' c) j = 0 ∨ ent (rd' c) j = ent (rd c) j) :
    treeBlocks ent w rd' h b ≤ treeBlocks ent w rd h b := by
  induction h generalizing b with
  | zero => exact le_refl _
  | succ h ih =>
    by_cases hb : b = 0
    · subst hb
      simp
    rw [innerBlocks_succ hb] at hrd
    rw [treeBlocks_succ hb, treeBlocks_succ hb]
    refine add_le_add (le_refl _) (Finset.sum_le_sum fun j hj => ?_)
    have hj := Finset.mem_range.1 hj
    rcases hrd b (mem_add.2 (.inl (mem_singleton_self b))) j hj with h0 | hsame
    · rw [h0, treeBlocks_empty]
      exact zero_le _
    have hchild := @ih (ent (rd' b) j) fun c hc =>
      hrd c (mem_add.2 (.inr (mem_of_le
        (le_sum_range (f := fun j => innerBlocks ent w rd' h (ent (rd' b) j)) hj) hc)))
    rw [hsame] at hchild ⊢
    exact hchild

theorem nodeAt_mem (hk : 0 < k) (hkh : k ≤ h) (hi : i < w ^ h) (hne : nodeAt ent w rd k h b i ≠ 0) :
    nodeAt ent w rd k h b i ∈ innerBlocks ent w rd h b := by
  induction h generalizing b i with
  | zero => omega
  | succ h ih =>
    have hb : b ≠ 0 := by
      rintro rfl
      exact hne nodeAt_empty
    obtain ⟨hj, hi'⟩ := index_lt hi
    rw [innerBlocks_succ hb]
    by_cases hkh' : h + 1 = k
    · subst hkh'
      rw [nodeAt_self]
      exact mem_add.2 (.inl (mem_singleton_self b))
    rw [nodeAt_succ hkh' hb] at hne ⊢
    exact mem_add.2 (.inr (mem_of_le
      (le_sum_range (f := fun j => innerBlocks ent w rd h (ent (rd b) j)) hj)
      (ih (by omega) hi' hne)))

theorem digit_mod (hk : k < h) : i % w ^ h / w ^ k % w = i / w ^ k % w := by
  obtain ⟨d, rfl⟩ := Nat.exists_eq_add_of_lt hk
  rw [show k + d + 1 = k + (1 + d) by omega, pow_add, Nat.mod_mul_right_div_self, pow_add, pow_one,
    Nat.mod_mul_right_mod]

theorem nodeAt_child {c : Nat} (hk : k < h) (hi : i < w ^ h) (hc : nodeAt ent w rd (k + 1) h b i = c)
    (hne : c ≠ 0) : nodeAt ent w rd k h b i = ent (rd c) (i / w ^ k % w) := by
  induction h generalizing b i with
  | zero => omega
  | succ h ih =>
    have hb : b ≠ 0 := by
      rintro rfl
      exact hne (hc.symm.trans nodeAt_empty)
    obtain ⟨hj, hi'⟩ := index_lt hi
    rcases lt_or_eq_of_le (Nat.le_of_lt_succ hk) with hk' | rfl
    · rw [nodeAt_succ (by omega) hb] at hc ⊢
      rw [ih hk' hi' hc, digit_mod hk']
    · rw [nodeAt_self] at hc
      subst hc
      rw [nodeAt_succ (by omega) hb, nodeAt_self, Nat.mod_eq_of_lt hj]

theorem leafAt_succ (hb : b ≠ 0) : leafAt ent w rd (h + 1) b i =
    leafAt ent w rd h (ent (rd b) (i / w ^ h)) (i % w ^ h) := nodeAt_succ (Nat.succ_ne_zero h) hb

@[simp] theorem leafAt_empty : leafAt ent w rd h 0 i = 0 := nodeAt_empty

theorem leafAt_of_nodeAt (hk : k ≤ h) (hzero : nodeAt ent w rd k h b i = 0) :
    leafAt ent w rd h b i = 0 := by
  induction h generalizing b i with
  | zero =>
    exact hzero
  | succ h ih =>
    by_cases hb : b = 0
    · subst hb
      exact leafAt_empty
    by_cases hkh : h + 1 = k
    · subst hkh
      rw [nodeAt_self] at hzero
      exact absurd hzero hb
    · rw [nodeAt_succ hkh hb] at hzero
      rw [leafAt_succ hb]
      exact ih (by omega) hzero

theorem leafAt_mem (hi : i < w ^ h) (hne : leafAt ent w rd h b i ≠ 0) :
    leafAt ent w rd h b i ∈ leafBlocks ent w rd h b := by
  induction h generalizing b i with
  | zero =>
    have hb : b ≠ 0 := hne
    show b ∈ leafBlocks ent w rd 0 b
    simp [leafBlocks, hb]
  | succ h ih =>
    have hb : b ≠ 0 := by
      rintro rfl
      exact hne leafAt_empty
    obtain ⟨hj, hi'⟩ := index_lt hi
    rw [leafAt_succ hb] at hne ⊢
    rw [leafBlocks_succ hb]
    exact mem_of_le (le_sum_range (f := fun j => leafBlocks ent w rd h (ent (rd b) j)) hj)
      (ih hi' hne)

theorem leafAt_inj (hnd : (treeBlocks ent w rd h b).Nodup) (hi : i < w ^ h) (hj : j < w ^ h)
    (hne : leafAt ent w rd h b i ≠ 0) (heq : leafAt ent w rd h b i = leafAt ent w rd h b j) : i = j := by
  induction h generalizing b i j with
  | zero =>
    rw [pow_zero] at hi hj
    omega
  | succ h ih =>
    have hb : b ≠ 0 := by
      rintro rfl
      exact hne leafAt_empty
    obtain ⟨hi1, hi2⟩ := index_lt hi
    obtain ⟨hj1, hj2⟩ := index_lt hj
    rw [leafAt_succ hb] at hne heq
    rw [leafAt_succ hb] at heq
    obtain ⟨hnd', -, hother⟩ := nodup_child hb hnd hi1
    by_cases hdiv : i / w ^ h = j / w ^ h
    · rw [← hdiv] at heq
      have hmod := ih hnd' hi2 hj2 hne heq
      rw [← Nat.div_add_mod i (w ^ h), ← Nat.div_add_mod j (w ^ h), hdiv, hmod]
    have hmem := mem_of_le leafBlocks_le (leafAt_mem hi2 hne)
    rw [heq] at hne
    have hmem' := mem_of_le leafBlocks_le (leafAt_mem hj2 hne)
    rw [heq] at hmem
    exact absurd hmem' (hother _ hj1 (Ne.symm hdiv) _ hmem)

/-- A block on the way down to an index, leaf or not, is a block of the tree. -/
theorem node_mem (hkh : k ≤ h) (hi : i < w ^ h) (hne : nodeAt ent w rd k h b i ≠ 0) :
    nodeAt ent w rd k h b i ∈ treeBlocks ent w rd h b := by
  cases k with
  | zero => exact mem_of_le leafBlocks_le (leafAt_mem hi hne)
  | succ k => exact mem_of_le innerBlocks_le (nodeAt_mem (Nat.succ_pos k) hkh hi hne)

theorem index_below (hj : j < w) (hi : i < w ^ h) : j * w ^ h + i < w ^ (h + 1) := by
  have hmul : (j + 1) * w ^ h ≤ w * w ^ h := Nat.mul_le_mul_right _ hj
  rw [pow_succ, mul_comm (w ^ h)]
  rw [add_mul, one_mul] at hmul
  omega

theorem nodeAt_below (hb : b ≠ 0) (hk : k ≤ h) (hi : i < w ^ h) :
    nodeAt ent w rd k (h + 1) b (j * w ^ h + i) = nodeAt ent w rd k h (ent (rd b) j) i := by
  have hpos : 0 < w ^ h := Nat.lt_of_le_of_lt (Nat.zero_le _) hi
  rw [nodeAt_succ (by omega) hb, add_comm, Nat.add_mul_div_right _ _ hpos,
    Nat.div_eq_of_lt hi, zero_add, Nat.add_mul_mod_self_right, Nat.mod_eq_of_lt hi]

/-- Every block of the tree is on the way down to some index. -/
theorem mem_tree (hw : 0 < w) (hx : x ∈ treeBlocks ent w rd h b) :
    x ≠ 0 ∧ ∃ k ≤ h, ∃ i < w ^ h, nodeAt ent w rd k h b i = x := by
  induction h generalizing b with
  | zero =>
    by_cases hb : b = 0
    · subst hb
      simp at hx
    · rw [treeBlocks_zero hb, mem_singleton] at hx
      subst hx
      exact ⟨hb, 0, le_refl 0, 0, Nat.one_pos, rfl⟩
  | succ h ih =>
    by_cases hb : b = 0
    · subst hb
      simp at hx
    rw [treeBlocks_succ hb, mem_add, mem_singleton, mem_sum] at hx
    rcases hx with rfl | ⟨j, hj, hx⟩
    · exact ⟨hb, h + 1, le_refl _, 0, Nat.pow_pos hw, nodeAt_self⟩
    · obtain ⟨hne, k, hk, i, hi, hnode⟩ := ih hx
      exact ⟨hne, k, by omega, j * w ^ h + i, index_below (Finset.mem_range.1 hj) hi,
        (nodeAt_below hb hk hi).trans hnode⟩

/-- The block at height `k` depends on the index without its `k` last digits. -/
theorem div_mod_pow (hw : 0 < w) (hk : k ≤ h) (i : Nat) :
    i / w ^ k = w ^ (h - k) * (i / w ^ h) + i % w ^ h / w ^ k := by
  obtain ⟨d, rfl⟩ := Nat.exists_eq_add_of_le hk
  rw [Nat.add_sub_cancel_left]
  nth_rewrite 1 [← Nat.div_add_mod i (w ^ (k + d))]
  rw [pow_add, mul_assoc, Nat.mul_add_div (Nat.pow_pos hw)]

theorem node_inj (hnd : (treeBlocks ent w rd h b).Nodup) (hk : k ≤ h) (hk' : k' ≤ h) (hi : i < w ^ h)
    (hj : j < w ^ h) (hne : nodeAt ent w rd k h b i ≠ 0)
    (heq : nodeAt ent w rd k h b i = nodeAt ent w rd k' h b j) : k = k' ∧ i / w ^ k = j / w ^ k := by
  induction h generalizing b i j with
  | zero =>
    rw [pow_zero] at hi hj
    obtain rfl : i = j := by omega
    exact ⟨by omega, rfl⟩
  | succ h ih =>
    have hb : b ≠ 0 := by
      rintro rfl
      exact hne nodeAt_empty
    obtain ⟨hi1, hi2⟩ := index_lt hi
    obtain ⟨hj1, hj2⟩ := index_lt hj
    have hbelow : ∀ {m n : Nat}, m ≤ h → n < w ^ (h + 1) → nodeAt ent w rd m (h + 1) b n ≠ 0 →
        nodeAt ent w rd m (h + 1) b n ∈ treeBlocks ent w rd h (ent (rd b) (n / w ^ h)) := by
      intro m n hm hn hmn
      rw [nodeAt_succ (by omega) hb] at hmn ⊢
      exact node_mem hm (index_lt hn).2 hmn
    rcases lt_or_eq_of_le hk with hlt | rfl <;> rcases lt_or_eq_of_le hk' with hlt' | rfl
    · have hmem := hbelow (Nat.le_of_lt_succ hlt) hi hne
      have hmem' := hbelow (Nat.le_of_lt_succ hlt') hj (heq ▸ hne)
      by_cases hdiv : i / w ^ h = j / w ^ h
      · rw [nodeAt_succ (by omega) hb] at hne heq
        rw [nodeAt_succ (by omega) hb, ← hdiv] at heq
        obtain ⟨hkk, hmod⟩ := ih (nodup_child hb hnd hi1).1 (Nat.le_of_lt_succ hlt)
          (Nat.le_of_lt_succ hlt') hi2 hj2 hne heq
        have hw : 0 < w := Nat.lt_of_le_of_lt (Nat.zero_le _) hi1
        refine ⟨hkk, ?_⟩
        rw [div_mod_pow hw (Nat.le_of_lt_succ hlt), div_mod_pow hw (Nat.le_of_lt_succ hlt) j, hdiv, hmod]
      · rw [heq] at hmem
        exact absurd hmem' ((nodup_child hb hnd hi1).2.2 _ hj1 (Ne.symm hdiv) _ hmem)
    · have hmem := hbelow (Nat.le_of_lt_succ hlt) hi hne
      rw [heq, nodeAt_self] at hmem
      exact absurd hmem (nodup_child hb hnd hi1).2.1
    · have hmem := hbelow (Nat.le_of_lt_succ hlt') hj (heq ▸ hne)
      rw [← heq, nodeAt_self] at hmem
      exact absurd hmem (nodup_child hb hnd hj1).2.1
    · exact ⟨rfl, by rw [Nat.div_eq_of_lt hi, Nat.div_eq_of_lt hj]⟩

/-- When every block has one place, no block is twice in the tree. -/
theorem nodup_tree (hw : 0 < w) (hplace : ∀ k ≤ h, ∀ k' ≤ h, ∀ i < w ^ h, ∀ j < w ^ h,
      nodeAt ent w rd k h b i ≠ 0 → nodeAt ent w rd k h b i = nodeAt ent w rd k' h b j →
      k = k' ∧ i / w ^ k = j / w ^ k) : (treeBlocks ent w rd h b).Nodup := by
  induction h generalizing b with
  | zero =>
    by_cases hb : b = 0
    · subst hb
      simp
    · rw [treeBlocks_zero hb]
      exact nodup_singleton b
  | succ h ih =>
    by_cases hb : b = 0
    · subst hb
      simp
    have hpos : 0 < w ^ h := Nat.pow_pos hw
    -- places below two entries of the root
    have hchild : ∀ k ≤ h, ∀ k' ≤ h, ∀ j < w, ∀ j' < w, ∀ i < w ^ h, ∀ i' < w ^ h,
        nodeAt ent w rd k h (ent (rd b) j) i ≠ 0 →
        nodeAt ent w rd k h (ent (rd b) j) i = nodeAt ent w rd k' h (ent (rd b) j') i' →
        k = k' ∧ j = j' ∧ i / w ^ k = i' / w ^ k := by
      intro k hk k' hk' j hj j' hj' i hi i' hi' hne heq
      rw [← nodeAt_below hb hk hi] at hne heq
      rw [← nodeAt_below hb hk' hi'] at heq
      obtain ⟨hkk, hdiv⟩ := hplace k (by omega) k' (by omega) _ (index_below hj hi) _
        (index_below hj' hi') hne heq
      rw [div_mod_pow hw hk, div_mod_pow hw hk (j' * w ^ h + i')] at hdiv
      have hdig : ∀ {m n : Nat}, n < w ^ h → (m * w ^ h + n) / w ^ h = m ∧ (m * w ^ h + n) % w ^ h = n := by
        intro m n hn
        rw [add_comm, Nat.add_mul_div_right _ _ hpos, Nat.div_eq_of_lt hn, zero_add,
          Nat.add_mul_mod_self_right, Nat.mod_eq_of_lt hn]
        exact ⟨rfl, rfl⟩
      rw [(hdig hi).1, (hdig hi).2, (hdig hi').1, (hdig hi').2] at hdiv
      have hlow : ∀ {n : Nat}, n < w ^ h → n / w ^ k < w ^ (h - k) := by
        intro n hn
        refine Nat.div_lt_of_lt_mul ?_
        rw [← pow_add, Nat.add_sub_cancel' hk]
        exact hn
      have hpow : 0 < w ^ (h - k) := Nat.pow_pos hw
      have hj0 : j = j' := by
        have hq := congrArg (· / w ^ (h - k)) hdiv
        rwa [Nat.mul_add_div hpow, Nat.mul_add_div hpow, Nat.div_eq_of_lt (hlow hi),
          Nat.div_eq_of_lt (hlow hi'), add_zero, add_zero] at hq
      subst hj0
      exact ⟨hkk, rfl, by omega⟩
    rw [treeBlocks_succ hb, nodup_add]
    refine ⟨nodup_singleton b, nodup_sum_range (fun j hj => ?_) fun j hj j' hj' x hx hx' => ?_,
      disjoint_left.2 fun hx hsum => ?_⟩
    · exact ih fun k hk k' hk' i hi i' hi' hne heq =>
        ⟨(hchild k hk k' hk' j hj j hj i hi i' hi' hne heq).1,
          (hchild k hk k' hk' j hj j hj i hi i' hi' hne heq).2.2⟩
    · obtain ⟨hne, k, hk, i, hi, hnode⟩ := mem_tree hw hx
      obtain ⟨-, k', hk', i', hi', hnode'⟩ := mem_tree hw hx'
      exact (hchild k hk k' hk' j hj j' hj' i hi i' hi' (by rw [hnode]; exact hne)
        (hnode.trans hnode'.symm)).2.1
    -- the root is not below itself
    rw [mem_singleton] at hx
    obtain ⟨j, hj, hmem⟩ := mem_sum.1 hsum
    obtain ⟨hne, k, hk, i, hi, hnode⟩ := mem_tree hw hmem
    rw [← nodeAt_below hb hk hi] at hnode
    have hroot : nodeAt ent w rd (h + 1) (h + 1) b 0 = b := nodeAt_self
    have hkk := (hplace k (by omega) (h + 1) (le_refl _) _
      (index_below (Finset.mem_range.1 hj) hi) 0 (Nat.pow_pos hw) (by rw [hnode]; exact hne)
      (hnode.trans (hx.trans hroot.symm))).1
    omega

end

/-! ## Growing -/

section

variable {β : Type} {ent : β → Nat → Nat} {w : Nat} {rd rd' : Nat → β} {h k b i c v : Nat}

/-- Entry `j` of block `c` becomes the new block `v`, which has no entries where it needs some. -/
structure SetEntry (ent : β → Nat → Nat) (w : Nat) (rd rd' : Nat → β) (k c j v : Nat) : Prop where
  entry : ent (rd' c) j = v
  same : ∀ m < w, m ≠ j → ent (rd' c) m = ent (rd c) m
  blank : 0 < k → ∀ m < w, ent (rd' v) m = 0
  frame : ∀ x, x ≠ c → x ≠ v → ∀ m < w, ent (rd' x) m = ent (rd x) m

/-- What a tree looks like when block `v` was put at height `k` on the way to index `i`. -/
structure Attached (ent : β → Nat → Nat) (w : Nat) (rd rd' : Nat → β) (h b i k v : Nat) : Prop where
  inner : innerBlocks ent w rd' h b = (if k = 0 then 0 else {v}) + innerBlocks ent w rd h b
  leaves : leafBlocks ent w rd' h b = (if k = 0 then {v} else 0) + leafBlocks ent w rd h b
  node : nodeAt ent w rd' k h b i = v
  leaf : ∀ i' < w ^ h, (k = 0 → i' ≠ i) → leafAt ent w rd' h b i' = leafAt ent w rd h b i'

/-- A new block alone is a tree without leaves, or a leaf. -/
theorem blank_tree (hv : v ≠ 0) (hblank : 0 < h → ∀ m < w, ent (rd v) m = 0) :
    innerBlocks ent w rd h v = (if h = 0 then 0 else {v}) ∧
      leafBlocks ent w rd h v = (if h = 0 then {v} else 0) ∧
      ∀ i < w ^ h, 0 < h → leafAt ent w rd h v i = 0 := by
  cases h with
  | zero => simp [innerBlocks, leafBlocks, hv]
  | succ h =>
    have hzero := hblank (Nat.succ_pos h)
    refine ⟨?_, ?_, fun i hi _ => ?_⟩
    · rw [innerBlocks_succ hv, if_neg (Nat.succ_ne_zero h), Finset.sum_eq_zero, add_zero]
      intro j hj
      rw [hzero j (Finset.mem_range.1 hj), innerBlocks_empty]
    · rw [leafBlocks_succ hv, if_neg (Nat.succ_ne_zero h), Finset.sum_eq_zero]
      intro j hj
      rw [hzero j (Finset.mem_range.1 hj), leafBlocks_empty]
    · rw [leafAt_succ hv, hzero _ (index_lt hi).1, leafAt_empty]

theorem sum_attach {f g : Nat → Multiset Nat} {n j : Nat} {u : Multiset Nat} (hj : j < n)
    (hsame : ∀ m < n, m ≠ j → f m = g m) (hnew : f j = u + g j) :
    ∑ m ∈ Finset.range n, f m = u + ∑ m ∈ Finset.range n, g m := by
  have hsum := sum_range_change hj hsame
  rw [hnew] at hsum
  apply add_right_cancel (b := g j)
  rw [hsum]
  abel

/-- The blocks below an entry do not notice a new block below another entry. -/
theorem SetEntry.sibling {j : Nat} (hset : SetEntry ent w rd rd' k c j v) {x : Nat}
    (hc : c ∉ treeBlocks ent w rd h x) (hv : v ∉ treeBlocks ent w rd h x) :
    innerBlocks ent w rd' h x = innerBlocks ent w rd h x ∧
      leafBlocks ent w rd' h x = leafBlocks ent w rd h x ∧
      ∀ k i, i < w ^ h → nodeAt ent w rd' k h x i = nodeAt ent w rd k h x i := by
  refine tree_congr fun y hy m hm => hset.frame y ?_ ?_ m hm
  · rintro rfl
    exact hc (mem_of_le innerBlocks_le hy)
  · rintro rfl
    exact hv (mem_of_le innerBlocks_le hy)

/-- An empty entry on the way to an index gets a new block. -/
theorem attach (hnd : (treeBlocks ent w rd h b).Nodup) (hv : v ≠ 0)
    (hfresh : v ∉ treeBlocks ent w rd h b) (hi : i < w ^ h) (hk : k < h)
    (hc : nodeAt ent w rd (k + 1) h b i = c) (hne : c ≠ 0)
    (hempty : ent (rd c) (i / w ^ k % w) = 0)
    (hset : SetEntry ent w rd rd' k c (i / w ^ k % w) v) : Attached ent w rd rd' h b i k v := by
  induction h generalizing b i with
  | zero => omega
  | succ h ih =>
    have hb : b ≠ 0 := by
      rintro rfl
      exact hne (hc.symm.trans nodeAt_empty)
    obtain ⟨hj, hi'⟩ := index_lt hi
    have hkeep : ∀ m < w, v ∉ treeBlocks ent w rd h (ent (rd b) m) := fun m hm hmem =>
      hfresh (mem_of_le (child_le hb hm) hmem)
    have hroot : ∀ m < w, b ∉ treeBlocks ent w rd h (ent (rd b) m) := fun m hm =>
      (nodup_child hb hnd hm).2.1
    have hvb : v ≠ b := by
      rintro rfl
      exact hfresh (by rw [treeBlocks_succ hb]; exact mem_add.2 (.inl (mem_singleton_self _)))
    rcases lt_or_eq_of_le (Nat.le_of_lt_succ hk) with hk' | rfl
    · -- the entry is further down
      rw [nodeAt_succ (by omega) hb] at hc
      obtain ⟨hndj, -, hother⟩ := nodup_child hb hnd hj
      have hcmem : c ∈ treeBlocks ent w rd h (ent (rd b) (i / w ^ h)) := by
        rw [← hc] at hne ⊢
        exact mem_of_le innerBlocks_le (nodeAt_mem (Nat.succ_pos k) hk' hi' hne)
      have hcb : b ≠ c := by
        rintro rfl
        exact hroot _ hj hcmem
      have hself := hset.frame b hcb hvb.symm
      have hdigit := @digit_mod w h k i hk'
      obtain ⟨hinner, hleaves, hnode, hleaf⟩ := ih hndj (hkeep _ hj) hi' hk' hc
        (by rw [hdigit]; exact hempty) (by rw [hdigit]; exact hset)
      have hsib : ∀ m < w, m ≠ i / w ^ h →
          innerBlocks ent w rd' h (ent (rd b) m) = innerBlocks ent w rd h (ent (rd b) m) ∧
          leafBlocks ent w rd' h (ent (rd b) m) = leafBlocks ent w rd h (ent (rd b) m) ∧
          ∀ k i, i < w ^ h → nodeAt ent w rd' k h (ent (rd b) m) i = nodeAt ent w rd k h (ent (rd b) m) i :=
        fun m hm hmne => hset.sibling (hother m hm hmne c hcmem) (hkeep m hm)
      refine ⟨?_, ?_, ?_, fun i' hlt hne' => ?_⟩
      · rw [innerBlocks_succ hb, innerBlocks_succ hb, Finset.sum_congr rfl fun m hm => by
          rw [hself m (Finset.mem_range.1 hm)], sum_attach hj (fun m hm hmne => (hsib m hm hmne).1) hinner]
        abel
      · rw [leafBlocks_succ hb, leafBlocks_succ hb, Finset.sum_congr rfl fun m hm => by
          rw [hself m (Finset.mem_range.1 hm)], sum_attach hj (fun m hm hmne => (hsib m hm hmne).2.1) hleaves]
      · rw [nodeAt_succ (by omega) hb, hself _ hj]
        exact hnode
      obtain ⟨hm, hlt'⟩ := index_lt hlt
      rw [leafAt_succ hb, leafAt_succ hb, hself _ hm]
      by_cases heq : i' / w ^ h = i / w ^ h
      · rw [heq]
        refine hleaf _ hlt' fun hk0 hmod => hne' hk0 ?_
        rw [← Nat.div_add_mod i' (w ^ h), ← Nat.div_add_mod i (w ^ h), heq, hmod]
      · exact (hsib _ hm heq).2.2 0 _ hlt'
    -- the entry is in the root
    rw [nodeAt_self] at hc
    subst hc
    have hjw : i / w ^ k % w = i / w ^ k := Nat.mod_eq_of_lt hj
    rw [hjw] at hempty hset
    obtain ⟨hvi, hvl, hvn⟩ := @blank_tree β ent w rd' k v hv hset.blank
    have hsib : ∀ m < w, m ≠ i / w ^ k → ent (rd' b) m = ent (rd b) m ∧
        innerBlocks ent w rd' k (ent (rd b) m) = innerBlocks ent w rd k (ent (rd b) m) ∧
        leafBlocks ent w rd' k (ent (rd b) m) = leafBlocks ent w rd k (ent (rd b) m) ∧
        ∀ l i, i < w ^ k → nodeAt ent w rd' l k (ent (rd b) m) i = nodeAt ent w rd l k (ent (rd b) m) i :=
      fun m hm hmne => ⟨hset.same m hm hmne, hset.sibling (hroot m hm) (hkeep m hm)⟩
    refine ⟨?_, ?_, ?_, fun i' hlt hne' => ?_⟩
    · rw [innerBlocks_succ hb, innerBlocks_succ hb, sum_attach hj
        (fun m hm hmne => by rw [(hsib m hm hmne).1, (hsib m hm hmne).2.1])
        (by rw [hset.entry, hvi, hempty, innerBlocks_empty, add_zero])]
      abel
    · rw [leafBlocks_succ hb, leafBlocks_succ hb, sum_attach hj
        (fun m hm hmne => by rw [(hsib m hm hmne).1, (hsib m hm hmne).2.2.1])
        (by rw [hset.entry, hvl, hempty, leafBlocks_empty, add_zero])]
    · rw [nodeAt_succ (by omega) hb, hset.entry, nodeAt_self]
    obtain ⟨hm, hlt'⟩ := index_lt hlt
    rw [leafAt_succ hb, leafAt_succ hb]
    by_cases heq : i' / w ^ k = i / w ^ k
    · rw [heq, hset.entry, hempty, leafAt_empty]
      rcases Nat.eq_zero_or_pos k with rfl | hk0
      · rw [pow_zero, Nat.div_one, Nat.div_one] at heq
        exact absurd heq (hne' rfl)
      · exact hvn _ hlt' hk0
    · obtain ⟨hent, -, -, hnodes⟩ := hsib _ hm heq
      rw [hent]
      exact hnodes 0 _ hlt'

end

end Slopix.Lib
