import Slopix.Mm.Exact

/-!
# Which page an address is mapped to

A walk takes four indices from bits 12 to 47 of an address, so `userEntry` is a map from page numbers
below `2^36` to entries. Mapping a page sets the entry of one number, unmapping clears it, and both
leave the other numbers and the bytes of all user pages alone.
-/

namespace Slopix.Mm

open Lib Multiset Option

/-- The valid entry that the table indices `l` and the last index `j` lead to from `t`. -/
def lookup (m : PhysMem) (l : List Nat) (j t : Nat) : Option Nat :=
  (walkTables m l t).bind fun u => if pteValid (m.pte u j) then some (m.pte u j) else none

/-- The number of the page that a walk for `va` ends at. -/
def pageNo (va : Nat) : Nat := va / 4096 % 2 ^ 36

section

variable {m m' s : PhysMem} {l l' : List Nat} {i i' j j' t u v : Nat}

theorem userEntry_eq_lookup (m : PhysMem) (root va : Nat) :
    userEntry m root va = lookup m (tableIndices va) (l3Index va) root := rfl

theorem lookup_cons_of_valid (h : pteValid (m.pte t i) = true) :
    lookup m (i :: l) j t = lookup m l j (pteAddr (m.pte t i)) := by
  rw [lookup, walkTables, if_pos h]
  rfl

theorem lookup_cons_of_invalid (h : ¬ pteValid (m.pte t i) = true) : lookup m (i :: l) j t = none := by
  rw [lookup, walkTables, if_neg h]
  rfl

/-- A lookup through an entry that is the same in two memories. -/
theorem lookup_cons_same (hpte : s.pte t i = m.pte t i) (h : pteValid (m.pte t i) = true) :
    lookup s (i :: l) j t = lookup s l j (pteAddr (m.pte t i)) := by
  rw [← hpte] at h ⊢
  exact lookup_cons_of_valid h

theorem lookup_cons_none (hpte : s.pte t i = m.pte t i) (h : ¬ pteValid (m.pte t i) = true) :
    lookup s (i :: l) j t = none := by
  rw [← hpte] at h
  exact lookup_cons_of_invalid h

theorem lookup_congr (his : ∀ i ∈ l, i < ptePerTable)
    (h : ∀ x ∈ tables m (l.length + 1) t, m'.page x = m.page x) : lookup m' l j t = lookup m l j t := by
  induction l generalizing t with
  | nil =>
    simp only [lookup, walkTables, bind_some, pte_congr (h t (mem_tables_self m _ t))]
  | cons i l ih =>
    have hpte := pte_congr (h t (mem_tables_self m _ t)) i
    by_cases hv : pteValid (m.pte t i) = true
    · rw [lookup_cons_of_valid hv, lookup_cons_same hpte hv]
      apply ih fun k hk => his k (List.mem_cons_of_mem i hk)
      intro x hx
      exact h x (mem_of_le (tables_child_le (his i List.mem_cons_self) hv) hx)
    · rw [lookup_cons_of_invalid hv, lookup_cons_none hpte hv]

theorem lookup_of_zero (h : m.page t = fun _ => 0) : lookup m l j t = none := by
  cases l with
  | nil => simp [lookup, walkTables, pte_of_zero h]
  | cons i l => exact lookup_cons_of_invalid (by simp [pte_of_zero h])

/-- A change at and below entry `i` leaves the lookups through other entries alone. -/
theorem Local.lookup (h : Local m s (l.length + 1) t i) (his : ∀ k ∈ i' :: l, k < ptePerTable)
    (hne : i' ≠ i) : Mm.lookup s (i' :: l) j t = Mm.lookup m (i' :: l) j t := by
  have hi := his i' List.mem_cons_self
  have hpte := h.pte i' hne
  by_cases hv : pteValid (m.pte t i') = true
  · rw [lookup_cons_of_valid hv, lookup_cons_same hpte hv]
    exact lookup_congr (fun k hk => his k (List.mem_cons_of_mem i' hk)) (h.tables i' hi hne hv)
  · rw [lookup_cons_of_invalid hv, lookup_cons_none hpte hv]

/-- A walk that allocates leaves every entry as it was. -/
theorem walkAlloc_lookup (his : ∀ i ∈ l, i < ptePerTable) (h : Sep m (l.length + 1) t)
    (hu : (walkAlloc l t m).1 = some u) (hlen : l'.length = l.length)
    (his' : ∀ i ∈ l', i < ptePerTable) :
    lookup (walkAlloc l t m).2 l' j t = lookup m l' j t := by
  induction l generalizing m t l' with
  | nil =>
    rfl
  | cons i l ih =>
    obtain ⟨i', l', rfl⟩ := List.exists_cons_of_length_eq_add_one hlen
    have hlen' : l'.length = l.length := Nat.succ.inj hlen
    rw [List.length_cons] at h
    have hi := his i List.mem_cons_self
    have hil : ∀ k ∈ l, k < ptePerTable := fun k hk => his k (List.mem_cons_of_mem i hk)
    have hil' : ∀ k ∈ l', k < ptePerTable := fun k hk => his' k (List.mem_cons_of_mem i' hk)
    by_cases hv : pteValid (m.pte t i) = true
    · rw [walkAlloc, if_pos hv] at hu ⊢
      have hsep := (h.child hi hv).2
      obtain ⟨hloc, hpte⟩ := Local.of_child h hi hv (walkAlloc_spec hil hsep).1.page
      by_cases hii : i' = i
      · subst hii
        rw [lookup_cons_of_valid hv, lookup_cons_same hpte hv]
        exact ih hil hsep hu hlen' hil'
      · rw [← hlen'] at hloc
        exact hloc.lookup his' hii
    obtain ⟨pa, m1, hal, hend, hmem⟩ := walkAlloc_linked hv hu
    obtain ⟨hpa, -, -, hzero, hsep, hafter⟩ := newTable_spec (i := i) h hal
    obtain ⟨hother, hself, hpage⟩ := hafter _ (walkAlloc_spec hil hsep).1.page
    rw [hmem]
    by_cases hii : i' = i
    · subst hii
      -- the new table is empty, and so is all that the rest of the walk adds
      have hvalid := pteValid_tableDesc hpa
      rw [← hself] at hvalid
      rw [lookup_cons_of_invalid hv, lookup_cons_of_valid hvalid, hself,
        pteAddr_tableDesc hpa, ih hil hsep hend hlen' hil', lookup_of_zero hzero]
    · have hloc := Local.of_free h hother hpage
      rw [← hlen'] at hloc
      exact hloc.lookup his' hii

/-- Setting the entry at the end of a walk changes that lookup and no other one. -/
theorem lookup_setPte (his : ∀ i ∈ l, i < ptePerTable) (h : Sep m (l.length + 1) t)
    (hu : walkTables m l t = some u) (hv : v < 2 ^ 64) (hlen : l'.length = l.length)
    (his' : ∀ i ∈ l', i < ptePerTable) :
    lookup (m.setPte u j v) l' j' t =
      if l' = l ∧ j' = j then (if pteValid v then some v else none) else lookup m l' j' t := by
  induction l generalizing t l' with
  | nil =>
    cases hu
    rw [List.length_eq_zero_iff.1 hlen]
    by_cases hj : j' = j
    · subst hj
      simp [lookup, walkTables, pte_setPte_self hv]
    · simp [lookup, walkTables, pte_setPte_of_ne hj, hj]
  | cons i l ih =>
    obtain ⟨i', l', rfl⟩ := List.exists_cons_of_length_eq_add_one hlen
    have hlen' : l'.length = l.length := Nat.succ.inj hlen
    rw [List.length_cons] at h
    have hi := his i List.mem_cons_self
    have hil : ∀ k ∈ l, k < ptePerTable := fun k hk => his k (List.mem_cons_of_mem i hk)
    have hil' : ∀ k ∈ l', k < ptePerTable := fun k hk => his' k (List.mem_cons_of_mem i' hk)
    rw [walkTables] at hu
    split at hu
    · rename_i hvalid
      have hsep := (h.child hi hvalid).2
      have hmem : u ∈ {pteAddr (m.pte t i)} + frames m (l.length + 1) (pteAddr (m.pte t i)) :=
        mem_of_le (tables_le m _ _) (walkTables_mem hil hu)
      obtain ⟨hloc, hpte⟩ := Local.of_child (s := m.setPte u j v) h hi hvalid fun x hx =>
        setPte_page_of_ne (ne_of_mem_of_not_mem (mem_add.2 (Or.inr hmem)) hx).symm
      by_cases hii : i' = i
      · subst hii
        rw [lookup_cons_of_valid hvalid, lookup_cons_same hpte hvalid, ih hil hsep hu hlen' hil']
        simp only [List.cons.injEq, true_and]
      rw [← hlen'] at hloc
      rw [hloc.lookup his' hii, if_neg]
      rintro ⟨e, -⟩
      exact hii (List.cons.inj e).1
    · cases hu

theorem walkAlloc_of_walkTables (h : walkTables m l t = some u) : walkAlloc l t m = (some u, m) := by
  induction l generalizing t with
  | nil =>
    cases h
    rfl
  | cons i l ih =>
    rw [walkTables] at h
    split at h
    · rename_i hv
      rw [walkAlloc, if_pos hv]
      exact ih h
    · cases h

theorem walkAlloc_outside (his : ∀ i ∈ l, i < ptePerTable) (h : Sep m (l.length + 1) t) {x : Nat}
    (hfree : x ∉ m.free) (htab : x ∉ tables m (l.length + 1) t) :
    (walkAlloc l t m).2.page x = m.page x := by
  induction l generalizing t with
  | nil => rfl
  | cons i l ih =>
    have hi := his i List.mem_cons_self
    have hil : ∀ k ∈ l, k < ptePerTable := fun k hk => his k (List.mem_cons_of_mem i hk)
    by_cases hv : pteValid (m.pte t i) = true
    · rw [walkAlloc, if_pos hv]
      refine ih hil (h.child hi hv).2 fun hx => htab ?_
      exact mem_of_le (tables_child_le hi hv) hx
    cases hal : pmmAlloc m with
    | none => rw [walkAlloc, if_neg hv, hal]
    | some r =>
      obtain ⟨pa, m1⟩ := r
      obtain ⟨-, -, hmem, -, hsep, hafter⟩ := newTable_spec (i := i) h hal
      have hxt : x ≠ t := (ne_of_mem_of_not_mem (mem_tables_self m _ t) htab).symm
      have hpage := (hafter _ (walkAlloc_spec hil hsep).1.page).2.2 x hfree hxt
      rw [walkAlloc_missing hv hal]
      cases (walkAlloc l pa (m1.setPte t i (makeTableDesc pa))).1 with
      | some w => exact hpage
      | none =>
        rw [pmmFree_page (ne_of_mem_of_not_mem hmem hfree).symm, setPte_page_of_ne hxt, hpage]

theorem lookup_mem (his : ∀ i ∈ l, i < ptePerTable) (hj : j < ptePerTable)
    (h : lookup m l j t = some v) : pteAddr v ∈ pages m (l.length + 1) t := by
  have hstep : ∀ {d i t}, i < ptePerTable → pteValid (m.pte t i) = true →
      pages m d (pteAddr (m.pte t i)) ≤ pages m (d + 1) t := by
    intro d i t hi hv
    have hle := le_sum_range (f := fun i => entryPages (pages m d) (m.pte t i)) hi
    simp only [entryPages, hv, if_true] at hle
    exact hle
  induction l generalizing t with
  | nil =>
    rw [lookup, walkTables, bind_some] at h
    split at h
    · rename_i hv
      rw [← some.inj h]
      exact mem_of_le (hstep hj hv) (mem_singleton_self _)
    · cases h
  | cons i l ih =>
    by_cases hv : pteValid (m.pte t i) = true
    · rw [lookup_cons_of_valid hv] at h
      refine mem_of_le (hstep (his i List.mem_cons_self) hv) ?_
      exact ih (fun k hk => his k (List.mem_cons_of_mem i hk)) h
    · rw [lookup_cons_of_invalid hv] at h
      cases h

end

/-! ## Mapping and unmapping -/

section

variable {m m' m1 : PhysMem} {root va va' pa e : Nat} {write exec : Bool}

/-- Two addresses are in one page when their walks take the same indices. -/
theorem indices_eq_iff :
    tableIndices va' = tableIndices va ∧ l3Index va' = l3Index va ↔ pageNo va' = pageNo va := by
  unfold tableIndices l3Index pageNo
  rw [List.cons.injEq, List.cons.injEq, List.cons.injEq]
  constructor
  · rintro ⟨⟨h0, h1, h2, -⟩, h3⟩
    omega
  · intro h
    exact ⟨⟨by omega, by omega, by omega, rfl⟩, by omega⟩

theorem userEntry_pageNo (h : pageNo va' = pageNo va) : userEntry m root va' = userEntry m root va := by
  obtain ⟨htables, hl3⟩ := indices_eq_iff.2 h
  rw [userEntry_eq_lookup, userEntry_eq_lookup, htables, hl3]

theorem userEntry_mem (h : userEntry m root va = some e) : pteAddr e ∈ pages m 4 root :=
  lookup_mem (l := tableIndices va) (tableIndices_lt va) (l3Index_lt va) h

theorem userEntry_setPte {t v : Nat} (h : Sep m 4 root)
    (ht : walkTables m (tableIndices va) root = some t) (hv : v < 2 ^ 64) :
    userEntry (m.setPte t (l3Index va) v) root va' =
      if pageNo va' = pageNo va then (if pteValid v then some v else none)
      else userEntry m root va' := by
  have hset : lookup (m.setPte t (l3Index va) v) (tableIndices va') (l3Index va') root = _ :=
    lookup_setPte (l := tableIndices va) (tableIndices_lt va) h ht hv rfl (tableIndices_lt va')
  rw [userEntry_eq_lookup, hset]
  exact if_congr indices_eq_iff rfl rfl

theorem vmmMapPage_mapped (h : userEntry m root va = some e) :
    vmmMapPage m root va pa write exec = (false, m) := by
  obtain ⟨t, ht, hentry⟩ := bind_eq_some_iff.1 h
  unfold vmmMapPage
  rw [walkAlloc_of_walkTables ht]
  split at hentry
  · rename_i hv
    exact if_pos hv
  · cases hentry

theorem userEntry_mapPage (h : Sep m 4 root) (hpa : IsFrame pa)
    (hmap : (vmmMapPage m root va pa write exec).1 = true) :
    userEntry m root va = none ∧
      ∀ va', userEntry (vmmMapPage m root va pa write exec).2 root va' =
        if pageNo va' = pageNo va then some (makePageDescUser pa write exec)
        else userEntry m root va' := by
  have hspec := walkAlloc_spec (l := tableIndices va) (tableIndices_lt va) h
  have hlookup : ∀ u, (walkAlloc (tableIndices va) root m).1 = some u → ∀ va',
      userEntry (walkAlloc (tableIndices va) root m).2 root va' = userEntry m root va' := fun u hu va' =>
    walkAlloc_lookup (l := tableIndices va) (tableIndices_lt va) h hu rfl (tableIndices_lt va')
  constructor
  · cases hentry : userEntry m root va with
    | none => rfl
    | some e =>
      rw [vmmMapPage_mapped hentry] at hmap
      cases hmap
  intro va'
  unfold vmmMapPage at hmap ⊢
  rcases hres : walkAlloc (tableIndices va) root m with ⟨_ | t, m'⟩ <;>
    rw [hres] at hspec hlookup hmap
  · cases hmap
  dsimp only at hmap ⊢
  split at hmap
  · cases hmap
  rename_i hinv
  rw [if_neg hinv, userEntry_setPte (h.moves hspec.1) (hspec.2.1 t rfl)
    (makePageDescUser_lt hpa write exec), if_pos (pteValid_pageDesc hpa write exec),
    hlookup t rfl]

theorem userEntry_unmapPage (h : Sep m 4 root) (va va' : Nat) :
    (vmmUnmapPage m root va).1 = (userEntry m root va).map pteAddr ∧
      userEntry (vmmUnmapPage m root va).2 root va' =
        if pageNo va' = pageNo va then none else userEntry m root va' := by
  have hnone : userEntry m root va = none →
      userEntry m root va' = if pageNo va' = pageNo va then none else userEntry m root va' := by
    intro hva
    split
    · rename_i hpage
      rw [userEntry_pageNo hpage, hva]
    · rfl
  unfold vmmUnmapPage
  cases ht : walkTables m (tableIndices va) root with
  | none =>
    have hva : userEntry m root va = none := by
      unfold userEntry
      rw [ht]
      rfl
    exact ⟨by rw [hva]; rfl, hnone hva⟩
  | some t =>
    have hva : userEntry m root va =
        if pteValid (m.pte t (l3Index va)) then some (m.pte t (l3Index va)) else none := by
      unfold userEntry
      rw [ht]
      rfl
    dsimp only
    split
    · rename_i hv
      rw [if_pos hv] at hva
      exact ⟨by rw [hva]; rfl, userEntry_setPte h ht (by decide)⟩
    · rename_i hinv
      rw [if_neg hinv] at hva
      exact ⟨by rw [hva]; rfl, hnone hva⟩

/-- A user page is neither free nor a table. -/
theorem Sep.page_apart (h : Sep m 4 root) {x : Nat} (hx : x ∈ pages m 4 root) :
    x ∉ m.free ∧ x ∉ tables m 4 root := by
  have hsplit : tables m 4 root + pages m 4 root = {root} + frames m 4 root := tables_add_pages m 4 root
  refine ⟨h.notMem_free ?_, fun htab => ?_⟩
  · rw [← hsplit]
    exact mem_add.2 (Or.inr hx)
  · have hnd := h.nodup_space
    rw [← hsplit, nodup_add] at hnd
    exact disjoint_left.1 hnd.2.2 htab hx

theorem userEntry_congr (h : ∀ x ∈ tables m 4 root, m'.page x = m.page x) (va : Nat) :
    userEntry m' root va = userEntry m root va :=
  lookup_congr (l := tableIndices va) (tableIndices_lt va) h

end

/-! ## New pages -/

/-- A frame that is in neither the free list nor the address space. -/
structure Loose (m : PhysMem) (root pa : Nat) : Prop where
  sep : Sep m 4 root
  isFrame : IsFrame pa
  apart : pa ∉ extent m 4 root

/-- The frame `pa` has been mapped at `va`. -/
structure Mapped (m m' : PhysMem) (root va pa : Nat) (write exec : Bool) : Prop where
  sep : Sep m' 4 root
  unmapped : userEntry m root va = none
  entry : ∀ va', userEntry m' root va' =
    if pageNo va' = pageNo va then some (makePageDescUser pa write exec) else userEntry m root va'
  pages : Mm.pages m' 4 root = Mm.pages m 4 root + {pa}
  page : ∀ x, x ∉ m.free → x ∉ tables m 4 root → m'.page x = m.page x

/-- Nothing has become of an attempt to map a page. -/
structure Undone (m m' : PhysMem) (root : Nat) : Prop where
  sep : Sep m' 4 root
  free : (m'.free : Multiset Nat) = m.free
  frames : Mm.frames m' 4 root = Mm.frames m 4 root
  pages : Mm.pages m' 4 root = Mm.pages m 4 root
  entry : ∀ va, userEntry m' root va = userEntry m root va
  page : ∀ x, x ∉ m.free → x ∉ tables m 4 root → m'.page x = m.page x

section

variable {m m' m1 : PhysMem} {root va pa : Nat} {write exec : Bool}

theorem Undone.refl (h : Sep m 4 root) : Undone m m root :=
  ⟨h, rfl, rfl, rfl, fun _ => rfl, fun _ _ _ => rfl⟩

theorem Loose.outside (h : Loose m root pa) : pa ∉ m.free ∧ pa ∉ {root} + frames m 4 root := by
  have hapart := h.apart
  unfold extent at hapart
  rw [mem_add, mem_coe, not_or] at hapart
  exact hapart

theorem vmmMapPage_outside (h : Sep m 4 root) {x : Nat} (hfree : x ∉ m.free)
    (htab : x ∉ tables m 4 root) : (vmmMapPage m root va pa write exec).2.page x = m.page x := by
  have hwalk := walkAlloc_outside (l := tableIndices va) (tableIndices_lt va) h hfree htab
  have hspec := walkAlloc_spec (l := tableIndices va) (tableIndices_lt va) h
  unfold vmmMapPage
  rcases hres : walkAlloc (tableIndices va) root m with ⟨_ | t, m'⟩ <;> rw [hres] at hwalk hspec
  · exact hwalk
  have hm : Moves m m' 4 root := hspec.1
  have hpages : pages m' 4 root = pages m 4 root := hspec.2.2.2
  have hmem : t ∈ tables m' ((tableIndices va).length + 1) root :=
    walkTables_mem (tableIndices_lt va) (hspec.2.1 t rfl)
  -- the last table is an old one or was free
  have hxt : x ≠ t := by
    rintro rfl
    have hext : x ∈ extent m 4 root := by
      rw [← hm.extent]
      exact mem_add.2 (Or.inr (mem_of_le (tables_le m' 4 root) hmem))
    rw [extent, ← tables_add_pages, mem_add, mem_add, mem_coe] at hext
    rcases hext with hx | hx | hx
    · exact hfree hx
    · exact htab hx
    · rw [← hpages] at hx
      exact ((h.moves hm).page_apart hx).2 hmem
  dsimp only
  split
  · exact hwalk
  · rw [setPte_page_of_ne hxt, hwalk]

theorem Loose.map (h : Loose m root pa) (hmap : (vmmMapPage m root va pa write exec).1 = true) :
    Mapped m (vmmMapPage m root va pa write exec).2 root va pa write exec := by
  obtain ⟨hunmapped, hentry⟩ := userEntry_mapPage h.sep h.isFrame hmap
  have hpages := pages_mapPage h.sep h.isFrame va write exec
  have htotal := (vmmMapPage_spec h.sep h.isFrame va write exec).1
  rw [if_pos hmap] at hpages htotal
  have hext : extent (vmmMapPage m root va pa write exec).2 4 root = {pa} + extent m 4 root := by
    rw [extent_eq, extent_eq, htotal]
    abel
  refine ⟨⟨?_, fun x hx => ?_⟩, hunmapped, hentry, hpages, fun x hfree htab =>
    vmmMapPage_outside h.sep hfree htab⟩
  · rw [hext, singleton_add, nodup_cons]
    exact ⟨h.apart, h.sep.nodup⟩
  rw [hext, mem_add, mem_singleton] at hx
  rcases hx with rfl | hx
  · exact h.isFrame
  · exact h.sep.isFrame x hx

theorem Loose.undone (h : Loose m root pa) (hfail : (vmmMapPage m root va pa write exec).1 = false) :
    Undone m (vmmMapPage m root va pa write exec).2 root := by
  obtain ⟨hfree, hframes, hintact⟩ := vmmMapPage_undone h.sep hfail
  have hpages := pages_mapPage h.sep h.isFrame va write exec
  have hext : extent (vmmMapPage m root va pa write exec).2 4 root = extent m 4 root := by
    unfold extent
    rw [hfree, hframes]
  rw [hfail, if_neg (by decide), add_zero] at hpages
  refine ⟨⟨?_, ?_⟩, hfree, hframes, hpages, hintact.userEntry, hintact.page⟩
  · rw [hext]
    exact h.sep.nodup
  · rw [hext]
    exact h.sep.isFrame

theorem Sep.held (h : Sep m 4 root) (hal : pmmAlloc m = some (pa, m1)) :
    Loose m1 root pa ∧ ∀ x ∈ {root} + frames m 4 root, m1.page x = m.page x := by
  obtain ⟨hpa, hsep, hext, hsame⟩ := h.alloc hal
  refine ⟨⟨hsep, hpa, fun hx => ?_⟩, hsame⟩
  have hnd := h.nodup
  rw [hext, singleton_add, nodup_cons] at hnd
  exact hnd.1 hx

/-- What is written into a held frame does not reach the address space. -/
theorem Loose.setPage (h : Loose m root pa) (b : Bytes) : Loose (m.setPage pa b) root pa := by
  have hsame : ∀ x ∈ tables m 4 root, (m.setPage pa b).page x = m.page x := fun x hx =>
    PhysMem.setPage_page_of_ne
      (ne_of_mem_of_not_mem (mem_of_le (tables_le m 4 root) hx) h.outside.2) b
  have hext : extent (m.setPage pa b) 4 root = extent m 4 root := by
    unfold extent
    rw [(frames_congr hsame).1]
    rfl
  refine ⟨⟨?_, ?_⟩, h.isFrame, ?_⟩
  · rw [hext]
    exact h.sep.nodup
  · rw [hext]
    exact h.sep.isFrame
  · rw [hext]
    exact h.apart

/-- What allocating a frame and writing into it leaves alone. -/
theorem Sep.setUp (h : Sep m 4 root) (hal : pmmAlloc m = some (pa, m1)) (b : Bytes) :
    Loose (m1.setPage pa b) root pa ∧ pa ∈ m.free ∧
      (m.free : Multiset Nat) = {pa} + (m1.free : Multiset Nat) ∧
      ∀ x, x ∉ m.free → (m1.setPage pa b).page x = m.page x := by
  obtain ⟨hfree, -, hpage⟩ := pmmAlloc_spec hal
  have hpamem : pa ∈ m.free := mem_free_of_alloc hal
  refine ⟨(h.held hal).1.setPage b, hpamem, hfree, fun x hx => ?_⟩
  have hne : x ≠ pa := (ne_of_mem_of_not_mem hpamem hx).symm
  rw [PhysMem.setPage_page_of_ne hne, hpage x hne]

theorem Sep.used_tables (h : Sep m 4 root) {x : Nat} (hx : x ∈ tables m 4 root) : x ∉ m.free :=
  h.notMem_free (mem_of_le (tables_le m 4 root) hx)

theorem Mapped.of_alloc (h : Sep m 4 root) (hal : pmmAlloc m = some (pa, m1)) {b : Bytes}
    (hmap : Mapped (m1.setPage pa b) m' root va pa write exec) :
    Mapped m m' root va pa write exec ∧ m'.page pa = b := by
  obtain ⟨hheld, hpamem, hfree, hset⟩ := h.setUp hal b
  have htables : ∀ x ∈ tables m 4 root, (m1.setPage pa b).page x = m.page x := fun x hx =>
    hset x (h.used_tables hx)
  obtain ⟨-, htab, hpages⟩ := frames_congr htables
  have hsub : ∀ x, x ∉ m.free → x ∉ m1.free := fun x hx hx' => hx (free_of_alloc hal hx')
  refine ⟨⟨hmap.sep, ?_, fun va' => ?_, ?_, fun x hx hxt => ?_⟩, ?_⟩
  · rw [← userEntry_congr htables]
    exact hmap.unmapped
  · rw [hmap.entry, userEntry_congr htables]
  · rw [hmap.pages, hpages]
  · rw [hmap.page x (hsub x hx) (by rwa [htab]), hset x hx]
  · rw [hmap.page pa hheld.outside.1 fun hx =>
      hheld.outside.2 (mem_of_le (tables_le _ 4 root) hx), PhysMem.setPage_page_self]

/-- An allocated frame that could not be mapped and has been given back. -/
theorem Undone.of_alloc (h : Sep m 4 root) (hal : pmmAlloc m = some (pa, m1)) {b : Bytes}
    (hundo : Undone (m1.setPage pa b) m' root) : Undone m (pmmFree m' pa) root := by
  obtain ⟨hheld, hpamem, hfree, hset⟩ := h.setUp hal b
  have htables : ∀ x ∈ tables m 4 root, (m1.setPage pa b).page x = m.page x := fun x hx =>
    hset x (h.used_tables hx)
  obtain ⟨hframes, htab, hpages⟩ := frames_congr htables
  have hsub : ∀ x, x ∉ m.free → x ∉ m1.free := fun x hx hx' => hx (free_of_alloc hal hx')
  have hout : pa ∉ m'.free := by
    rw [← mem_coe, hundo.free]
    exact hheld.outside.1
  obtain ⟨hfree', hpage'⟩ := pmmFree_spec hheld.isFrame hout
  -- the frame is in no table of what is left
  have htables' : ∀ x ∈ tables m' 4 root, (pmmFree m' pa).page x = m'.page x := by
    intro x hx
    apply hpage'
    rintro rfl
    apply hheld.outside.2
    rw [← hundo.frames]
    exact mem_of_le (tables_le m' 4 root) hx
  obtain ⟨hframes', -, hpages'⟩ := frames_congr htables'
  have hfree'' : ((pmmFree m' pa).free : Multiset Nat) = m.free := by
    rw [hfree', hundo.free, hfree]
    rfl
  have hframes'' : Mm.frames (pmmFree m' pa) 4 root = Mm.frames m 4 root := by
    rw [hframes', hundo.frames, hframes]
  have hext : extent (pmmFree m' pa) 4 root = extent m 4 root := by
    unfold extent
    rw [hfree'', hframes'']
  refine ⟨⟨?_, ?_⟩, hfree'', hframes'', ?_, fun va => ?_, fun x hx hxt => ?_⟩
  · rw [hext]
    exact h.nodup
  · rw [hext]
    exact h.isFrame
  · rw [hpages', hundo.pages, hpages]
  · rw [userEntry_congr htables', hundo.entry, userEntry_congr htables]
  · rw [hpage' x (ne_of_mem_of_not_mem hpamem hx).symm, hundo.page x (hsub x hx) (by rwa [htab]),
      hset x hx]

theorem newPage_spec (h : Sep m 4 root) (va : Nat) (write exec : Bool) :
    match newPage m root va write exec with
    | (some pa, m') => Mapped m m' root va pa write exec ∧ m'.page pa = fun _ => 0
    | (none, m') => Undone m m' root := by
  unfold newPage
  cases hal : pmmAlloc m with
  | none => exact Undone.refl h
  | some r =>
    obtain ⟨pa, m1⟩ := r
    have hsame : m1.setPage pa (fun _ => 0) = m1 := by
      have hzero := (pmmAlloc_spec hal).2.1
      unfold PhysMem.setPage
      rw [← hzero, Function.update_eq_self]
    have hheld := (h.held hal).1
    dsimp only
    rcases hmap : vmmMapPage m1 root va pa write exec with ⟨_ | _, m2⟩
    · have hundo := hheld.undone (by rw [hmap])
      rw [hmap, ← hsame] at hundo
      exact Undone.of_alloc h hal hundo
    · have hmapped := hheld.map (by rw [hmap])
      rw [hmap, ← hsame] at hmapped
      exact Mapped.of_alloc h hal hmapped

end

end Slopix.Mm
