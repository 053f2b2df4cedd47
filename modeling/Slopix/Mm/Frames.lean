import Slopix.Lib.RangeSum
import Slopix.Mm.Vmm

/-!
# The frames of an address space

`frames m d t` is the multiset of frames below a table `t` with `d` levels of entries, `tables` those
of them that are tables (with `t` itself) and `pages` the user pages. An operation of `vmm.c` on one
address space moves frames between the free list and `frames`, and changes no page outside the free
list and the tables of that address space.
-/

namespace Slopix.Mm

open Lib Multiset

/-- The frames that an entry leads to: its own and those below. -/
def entryFrames (below : Nat → Multiset Nat) (e : Nat) : Multiset Nat :=
  if pteValid e then {pteAddr e} + below (pteAddr e) else 0

/-- The frames reached from table `t` with `d` levels of entries, without `t`. -/
def frames (m : PhysMem) : Nat → Nat → Multiset Nat
  | 0, _ => 0
  | d + 1, t => ∑ i ∈ Finset.range ptePerTable, entryFrames (frames m d) (m.pte t i)

/-- The tables from `t` down. -/
def tables (m : PhysMem) : Nat → Nat → Multiset Nat
  | 0, _ => 0
  | d + 1, t => {t} + ∑ i ∈ Finset.range ptePerTable,
      if pteValid (m.pte t i) then tables m d (pteAddr (m.pte t i)) else 0

/-- The user pages that an entry leads to. -/
def entryPages (below : Nat → Multiset Nat) (e : Nat) : Multiset Nat :=
  if pteValid e then below (pteAddr e) else 0

/-- The user pages below `t`. -/
def pages (m : PhysMem) : Nat → Nat → Multiset Nat
  | 0, a => {a}
  | d + 1, t => ∑ i ∈ Finset.range ptePerTable, entryPages (pages m d) (m.pte t i)

/-! ## Which pages the frames depend on -/

section

variable {m m' : PhysMem}

theorem mem_tables_self (m : PhysMem) (d t : Nat) : t ∈ tables m (d + 1) t := by
  exact mem_add.2 (Or.inl (mem_singleton_self t))

theorem tables_child_le {d t i : Nat} (hi : i < ptePerTable) (hv : pteValid (m.pte t i) = true) :
    tables m d (pteAddr (m.pte t i)) ≤ tables m (d + 1) t := by
  have h := le_sum_range (f := fun i =>
    if pteValid (m.pte t i) then tables m d (pteAddr (m.pte t i)) else 0) hi
  simp only [hv, if_true] at h
  exact h.trans (Multiset.le_add_left _ _)

/-- The frames below a table depend on the tables only. -/
theorem frames_congr {w : PhysMem} {d t : Nat} (h : ∀ x ∈ tables m d t, w.page x = m.page x) :
    frames w d t = frames m d t ∧ tables w d t = tables m d t ∧ pages w d t = pages m d t := by
  induction d generalizing t with
  | zero => exact ⟨rfl, rfl, rfl⟩
  | succ d ih =>
    have hpte : ∀ i, w.pte t i = m.pte t i := pte_congr (h t (mem_tables_self m d t))
    have hchild : ∀ i ∈ Finset.range ptePerTable, pteValid (m.pte t i) = true →
        frames w d (pteAddr (m.pte t i)) = frames m d (pteAddr (m.pte t i)) ∧
          tables w d (pteAddr (m.pte t i)) = tables m d (pteAddr (m.pte t i)) ∧
          pages w d (pteAddr (m.pte t i)) = pages m d (pteAddr (m.pte t i)) := by
      intro i hi hv
      apply ih
      intro x hx
      exact h x (mem_of_le (tables_child_le (Finset.mem_range.1 hi) hv) hx)
    refine ⟨?_, ?_, ?_⟩
    · apply Finset.sum_congr rfl
      intro i hi
      unfold entryFrames
      rw [hpte i]
      split
      · rename_i hv
        rw [(hchild i hi hv).1]
      · rfl
    · rw [tables, tables]
      refine congrArg (fun s : Multiset Nat => {t} + s) (Finset.sum_congr rfl ?_)
      intro i hi
      rw [hpte i]
      split
      · rename_i hv
        rw [(hchild i hi hv).2.1]
      · rfl
    apply Finset.sum_congr rfl
    intro i hi
    unfold entryPages
    rw [hpte i]
    split
    · rename_i hv
      rw [(hchild i hi hv).2.2]
    · rfl

/-- The frames of an address space are its tables and its pages. -/
theorem tables_add_pages (m : PhysMem) (d t : Nat) :
    tables m d t + pages m d t = {t} + frames m d t := by
  induction d generalizing t with
  | zero => simp [tables, pages, frames]
  | succ d ih =>
    rw [tables, pages, frames, add_assoc, ← Finset.sum_add_distrib]
    refine congrArg (fun s : Multiset Nat => {t} + s) (Finset.sum_congr rfl ?_)
    intro i _
    unfold entryFrames entryPages
    split
    · exact ih _
    · rfl

theorem tables_le (m : PhysMem) (d t : Nat) : tables m d t ≤ {t} + frames m d t := by
  rw [← tables_add_pages]
  exact Multiset.le_add_right _ _

/-- A walk ends at a table. -/
theorem walkTables_mem {is : List Nat} {t t' : Nat} (his : ∀ i ∈ is, i < ptePerTable)
    (h : walkTables m is t = some t') : t' ∈ tables m (is.length + 1) t := by
  induction is generalizing t with
  | nil =>
    obtain rfl := Option.some.inj h
    exact mem_tables_self m 0 t
  | cons i is ih =>
    rw [walkTables] at h
    split at h
    · rename_i hv
      have hmem := ih (fun j hj => his j (List.mem_cons_of_mem i hj)) h
      exact mem_of_le (tables_child_le (his i List.mem_cons_self) hv) hmem
    · cases h

/-- No frame is used twice below a table either. -/
theorem nodup_child {d t i : Nat} (hnd : ({t} + frames m (d + 1) t).Nodup) (hi : i < ptePerTable)
    (hv : pteValid (m.pte t i) = true) :
    ({pteAddr (m.pte t i)} + frames m d (pteAddr (m.pte t i))).Nodup ∧
      t ∉ {pteAddr (m.pte t i)} + frames m d (pteAddr (m.pte t i)) := by
  have hle := le_sum_range (f := fun i => entryFrames (frames m d) (m.pte t i)) hi
  simp only [entryFrames, hv, if_true] at hle
  rw [nodup_add] at hnd
  refine ⟨nodup_of_le hle hnd.2.1, fun hmem => ?_⟩
  exact disjoint_left.1 hnd.2.2 (mem_singleton_self t) (mem_of_le hle hmem)

/-- Two valid entries of a table without duplicate frames reach different frames. -/
theorem notMem_other_child {d t i j : Nat} (hnd : ({t} + frames m (d + 1) t).Nodup)
    (hi : i < ptePerTable) (hj : j < ptePerTable) (hne : j ≠ i)
    (hvi : pteValid (m.pte t i) = true) (hvj : pteValid (m.pte t j) = true) {x : Nat}
    (hx : x ∈ {pteAddr (m.pte t i)} + frames m d (pteAddr (m.pte t i))) :
    x ∉ {pteAddr (m.pte t j)} + frames m d (pteAddr (m.pte t j)) := by
  rw [nodup_add] at hnd
  have h := notMem_of_nodup_sum (f := fun i => entryFrames (frames m d) (m.pte t i)) hnd.2.1 hi hj
    hne (x := x)
  simp only [entryFrames, hvi, hvj, if_true] at h
  exact h hx

/-- Changing pages below one entry of `t`, and nothing else, changes the frames below `t` by what
changes below that entry. -/
theorem frames_change_child {d t i : Nat} (hi : i < ptePerTable) (hpte : ∀ j, j ≠ i → m'.pte t j = m.pte t j)
    (hpage : ∀ j < ptePerTable, j ≠ i → pteValid (m.pte t j) = true →
      ∀ x ∈ tables m d (pteAddr (m.pte t j)), m'.page x = m.page x) :
    frames m' (d + 1) t + entryFrames (frames m d) (m.pte t i) =
      frames m (d + 1) t + entryFrames (frames m' d) (m'.pte t i) := by
  apply sum_range_change hi
  intro j hj hne
  rw [hpte j hne]
  unfold entryFrames
  split
  · rename_i hv
    rw [(frames_congr (hpage j hj hne hv)).1]
  · rfl

@[inherit_doc frames_change_child]
theorem pages_change_child {d t i : Nat} (hi : i < ptePerTable)
    (hpte : ∀ j, j ≠ i → m'.pte t j = m.pte t j)
    (hpage : ∀ j < ptePerTable, j ≠ i → pteValid (m.pte t j) = true →
      ∀ x ∈ tables m d (pteAddr (m.pte t j)), m'.page x = m.page x) :
    pages m' (d + 1) t + entryPages (pages m d) (m.pte t i) =
      pages m (d + 1) t + entryPages (pages m' d) (m'.pte t i) := by
  apply sum_range_change hi
  intro j hj hne
  rw [hpte j hne]
  unfold entryPages
  split
  · rename_i hv
    rw [(frames_congr (hpage j hj hne hv)).2.2]
  · rfl

/-- A new entry changes the frames below by its own. -/
theorem frames_setPte {l : List Nat} {t t' i v : Nat} (his : ∀ j ∈ l, j < ptePerTable)
    (hi : i < ptePerTable) (hv : v < 2 ^ 64)
    (hnd : ({t} + frames m (l.length + 1) t).Nodup) (hpath : walkTables m l t = some t') :
    frames (m.setPte t' i v) (l.length + 1) t + entryFrames (fun _ => 0) (m.pte t' i) =
        frames m (l.length + 1) t + entryFrames (fun _ => 0) v ∧
      pages (m.setPte t' i v) (l.length + 1) t + entryPages (fun a => {a}) (m.pte t' i) =
        pages m (l.length + 1) t + entryPages (fun a => {a}) v := by
  induction l generalizing t with
  | nil =>
    obtain rfl := Option.some.inj hpath
    have hnone : ∀ j < ptePerTable, j ≠ i → pteValid (m.pte t j) = true →
        ∀ x ∈ tables m 0 (pteAddr (m.pte t j)), (m.setPte t i v).page x = m.page x :=
      fun j _ _ _ x hx => absurd hx (notMem_zero x)
    have hother : ∀ j, j ≠ i → (m.setPte t i v).pte t j = m.pte t j :=
      fun j hj => pte_setPte_of_ne hj
    have h := frames_change_child hi hother hnone
    have h' := pages_change_child hi hother hnone
    rw [pte_setPte_self hv] at h h'
    exact ⟨h, h'⟩
  | cons j l ih =>
    rw [walkTables] at hpath
    split at hpath
    · rename_i hval
      have hj := his j List.mem_cons_self
      have his' : ∀ k ∈ l, k < ptePerTable := fun k hk => his k (List.mem_cons_of_mem j hk)
      obtain ⟨hnd', hnot⟩ := nodup_child hnd hj hval
      have hmem := mem_of_le (tables_le _ _ _) (walkTables_mem his' hpath)
      -- the table that changes lies below entry `j` only
      have ht : t' ≠ t := by
        intro e
        rw [e] at hmem
        exact hnot hmem
      have hpte : ∀ k, (m.setPte t' i v).pte t k = m.pte t k :=
        pte_congr (setPte_page_of_ne (Ne.symm ht))
      have hother : ∀ k < ptePerTable, k ≠ j → pteValid (m.pte t k) = true →
          ∀ x ∈ tables m (l.length + 1) (pteAddr (m.pte t k)),
            (m.setPte t' i v).page x = m.page x := by
        intro k hk hne hvk x hx
        apply setPte_page_of_ne
        intro e
        apply notMem_other_child hnd hj hk hne hval hvk hmem
        rw [← e]
        exact mem_of_le (tables_le _ _ _) hx
      have h := frames_change_child hj (fun k _ => hpte k) hother
      have h' := pages_change_child hj (fun k _ => hpte k) hother
      obtain ⟨hchild, hchild'⟩ := ih his' hnd' hpath
      rw [hpte j] at h h'
      simp only [entryFrames, entryPages, hval, if_true] at h h'
      refine ⟨cancel_below h hchild, ?_⟩
      apply cancel_below (a := 0) _ hchild'
      rw [zero_add, zero_add]
      exact h'
    · cases hpath

end

end Slopix.Mm
