import Slopix.Mm.Frames

/-!
# Operations on one address space

`Sep m d t` says that the free list and the address space below `t` share no frame. `Moves m m' d t`
says that frames only moved between these two and that nothing else changed. Walking, mapping and
unmapping are such moves; `vmm_free` gives every frame back.
-/

namespace Slopix.Mm

open Lib Multiset Or

/-- The frames of the free list and of the address space below `t`, with `t`. -/
def extent (m : PhysMem) (d t : Nat) : Multiset Nat :=
  (m.free : Multiset Nat) + ({t} + frames m d t)

/-- No frame is used twice, and all of them are frames of the RAM. -/
structure Sep (m : PhysMem) (d t : Nat) : Prop where
  nodup : (extent m d t).Nodup
  isFrame : ∀ x ∈ extent m d t, IsFrame x

/-- Frames moved between the free list and the address space; other pages are unchanged. -/
structure Moves (m m' : PhysMem) (d t : Nat) : Prop where
  total : (m'.free : Multiset Nat) + frames m' d t = (m.free : Multiset Nat) + frames m d t
  page : ∀ x, x ∉ extent m d t → m'.page x = m.page x

section

variable {m m' m'' : PhysMem} {d t : Nat}

theorem extent_eq (m : PhysMem) (d t : Nat) :
    extent m d t = {t} + ((m.free : Multiset Nat) + frames m d t) := by
  unfold extent
  abel

theorem mem_extent {x : Nat} :
    x ∈ extent m d t ↔ x ∈ m.free ∨ x = t ∨ x ∈ frames m d t := by
  unfold extent
  rw [mem_add, mem_add, mem_singleton, mem_coe]

theorem Moves.refl (m : PhysMem) (d t : Nat) : Moves m m d t := ⟨rfl, fun _ _ => rfl⟩

theorem Moves.extent (h : Moves m m' d t) : Mm.extent m' d t = Mm.extent m d t := by
  rw [extent_eq, extent_eq, h.total]

theorem Sep.moves (h : Sep m d t) (hm : Moves m m' d t) : Sep m' d t :=
  ⟨by rw [hm.extent]; exact h.nodup, by rw [hm.extent]; exact h.isFrame⟩

theorem Sep.nodup_space (h : Sep m d t) : ({t} + frames m d t).Nodup :=
  (nodup_add.1 h.nodup).2.1

theorem Sep.notMem_free (h : Sep m d t) {x : Nat} (hx : x ∈ {t} + frames m d t) : x ∉ m.free :=
  fun hfree => disjoint_left.1 (nodup_add.1 h.nodup).2.2
    (mem_coe.2 hfree) hx

theorem Sep.root_notMem (h : Sep m d t) : t ∉ m.free :=
  h.notMem_free (mem_add.2 (inl (mem_singleton_self t)))

/-- The tables below a table are apart as well. -/
theorem Sep.child {i : Nat} (h : Sep m (d + 1) t) (hi : i < ptePerTable)
    (hv : pteValid (m.pte t i) = true) :
    extent m d (pteAddr (m.pte t i)) ≤ extent m (d + 1) t ∧ Sep m d (pteAddr (m.pte t i)) := by
  have hle := le_sum_range (f := fun i => entryFrames (frames m d) (m.pte t i)) hi
  simp only [entryFrames, hv, if_true] at hle
  have hext : extent m d (pteAddr (m.pte t i)) ≤ extent m (d + 1) t := by
    apply Multiset.add_le_add_left
    exact hle.trans (Multiset.le_add_left _ _)
  exact ⟨hext, nodup_of_le hext h.nodup, fun x hx => h.isFrame x (mem_of_le hext hx)⟩

theorem frames_of_zero (d : Nat) (h : m.page t = fun _ => 0) : frames m d t = 0 := by
  cases d with
  | zero => rfl
  | succ d =>
    apply Finset.sum_eq_zero
    intro i _
    rw [pte_of_zero h]
    rfl

theorem entryFrames_of_invalid {below : Nat → Multiset Nat} {e : Nat} (h : ¬ pteValid e = true) :
    entryFrames below e = 0 := by
  unfold entryFrames
  rw [if_neg h]

theorem entryFrames_of_valid {below : Nat → Multiset Nat} {e : Nat} (h : pteValid e = true) :
    entryFrames below e = {pteAddr e} + below (pteAddr e) := by
  unfold entryFrames
  rw [if_pos h]

theorem pages_of_zero (d : Nat) (h : m.page t = fun _ => 0) : pages m (d + 1) t = 0 := by
  apply Finset.sum_eq_zero
  intro i _
  rw [pte_of_zero h]
  rfl

theorem entryPages_of_invalid {below : Nat → Multiset Nat} {e : Nat} (h : ¬ pteValid e = true) :
    entryPages below e = 0 := by
  unfold entryPages
  rw [if_neg h]

theorem entryPages_of_valid {below : Nat → Multiset Nat} {e : Nat} (h : pteValid e = true) :
    entryPages below e = below (pteAddr e) := by
  unfold entryPages
  rw [if_pos h]

/-- What happens below one entry of a table is a move of the whole address space. -/
theorem Moves.of_child {i : Nat} (h : Sep m (d + 1) t) (hi : i < ptePerTable)
    (hv : pteValid (m.pte t i) = true) (hm : Moves m m' d (pteAddr (m.pte t i))) :
    Moves m m' (d + 1) t ∧ (∀ j, m'.pte t j = m.pte t j) ∧
      (frames m' d (pteAddr (m.pte t i)) = frames m d (pteAddr (m.pte t i)) →
        frames m' (d + 1) t = frames m (d + 1) t) ∧
      (pages m' d (pteAddr (m.pte t i)) = pages m d (pteAddr (m.pte t i)) →
        pages m' (d + 1) t = pages m (d + 1) t) := by
  obtain ⟨hext, -⟩ := h.child hi hv
  obtain ⟨-, hnot⟩ := nodup_child h.nodup_space hi hv
  have hout : ∀ x ∈ {t} + frames m (d + 1) t,
      x ∉ {pteAddr (m.pte t i)} + frames m d (pteAddr (m.pte t i)) → m'.page x = m.page x := by
    intro x hx hx'
    apply hm.page
    rw [mem_extent]
    rintro (hf | hrest)
    · exact h.notMem_free hx hf
    · exact hx' (by simpa using hrest)
  have hpte : ∀ j, m'.pte t j = m.pte t j :=
    pte_congr (hout t (mem_add.2 (inl (mem_singleton_self t))) hnot)
  have hother : ∀ j < ptePerTable, j ≠ i → pteValid (m.pte t j) = true →
      ∀ x ∈ tables m d (pteAddr (m.pte t j)), m'.page x = m.page x := by
    intro j hj hne hvj x hx
    have hle := le_sum_range (f := fun i => entryFrames (frames m d) (m.pte t i)) hj
    simp only [entryFrames_of_valid hvj] at hle
    have hx' := mem_of_le (tables_le m d _) hx
    exact hout x (mem_add.2 (inr (mem_of_le hle hx')))
      (notMem_other_child h.nodup_space hj hi (Ne.symm hne) hvj hv hx')
  have hchange' := pages_change_child hi (fun j _ => hpte j) hother
  rw [hpte i, entryPages_of_valid hv, entryPages_of_valid hv] at hchange'
  have hchange := frames_change_child hi (fun j _ => hpte j) hother
  rw [hpte i, entryFrames_of_valid hv, entryFrames_of_valid hv] at hchange
  refine ⟨⟨?_, fun x hx => hm.page x fun hx' => hx (mem_of_le hext hx')⟩, hpte, ?_, ?_⟩
  · have htot := hm.total
    rw [add_comm, add_comm (m.free : Multiset Nat)]
    rw [add_comm, add_comm (m.free : Multiset Nat)] at htot
    exact cancel_below hchange htot
  · intro hsame
    rw [hsame] at hchange
    exact add_right_cancel hchange
  · intro hsame
    rw [hsame] at hchange'
    exact add_right_cancel hchange'

end

/-! ## Walking and mapping -/

variable {m : PhysMem}

/-- `walk` with allocation: frames move from the free list into new tables, and on failure the tables
are as before. -/
theorem walkAlloc_spec {l : List Nat} {t : Nat} (his : ∀ i ∈ l, i < ptePerTable)
    (h : Sep m (l.length + 1) t) :
    Moves m (walkAlloc l t m).2 (l.length + 1) t ∧
      (∀ t', (walkAlloc l t m).1 = some t' →
        walkTables (walkAlloc l t m).2 l t = some t') ∧
      ((walkAlloc l t m).1 = none →
        frames (walkAlloc l t m).2 (l.length + 1) t = frames m (l.length + 1) t) ∧
      pages (walkAlloc l t m).2 (l.length + 1) t = pages m (l.length + 1) t := by
  induction l generalizing t m with
  | nil => exact ⟨Moves.refl .., fun t' h => h, fun h => (by cases h), rfl⟩
  | cons i l ih =>
    have hi := his i List.mem_cons_self
    have his' : ∀ j ∈ l, j < ptePerTable := fun j hj => his j (List.mem_cons_of_mem i hj)
    rw [List.length_cons] at h ⊢
    rw [walkAlloc]
    split
    · -- the table exists: go on below it
      rename_i hv
      obtain ⟨hm, hpath, hnone, hpages⟩ := ih his' (h.child hi hv).2
      obtain ⟨hm', hpte, hsame, hsame'⟩ := Moves.of_child h hi hv hm
      refine ⟨hm', fun t' ht' => ?_, fun hn => hsame (hnone hn), hsame' hpages⟩
      rw [walkTables, hpte i, if_pos hv]
      exact hpath t' ht'
    rename_i hinv
    cases hal : pmmAlloc m with
    | none => exact ⟨Moves.refl .., fun t' h => (by cases h), fun _ => rfl, rfl⟩
    | some r =>
      obtain ⟨pa, m1⟩ := r
      obtain ⟨hfree, hzero, hpage⟩ := pmmAlloc_spec hal
      have hpamem : pa ∈ m.free := mem_free_of_alloc hal
      have hpa : IsFrame pa := h.isFrame pa (mem_extent.2 (inl hpamem))
      have htpa : t ≠ pa := ne_of_mem_of_not_mem hpamem h.root_notMem |>.symm
      -- the new table, linked and still empty
      have hzero2 : (m1.setPte t i (makeTableDesc pa)).page pa = fun _ => 0 := by
        rw [setPte_page_of_ne (Ne.symm htpa), hzero]
      have hsep2 : Sep (m1.setPte t i (makeTableDesc pa)) (l.length + 1) pa := by
        have hext : extent (m1.setPte t i (makeTableDesc pa)) (l.length + 1) pa =
            (m.free : Multiset Nat) := by
          rw [extent_eq, frames_of_zero _ hzero2, add_zero, setPte_free, hfree]
        constructor
        · rw [hext]
          exact (nodup_add.1 h.nodup).1
        · intro x hx
          rw [hext] at hx
          exact h.isFrame x (mem_extent.2 (inl (mem_coe.1 hx)))
      obtain ⟨hm, hpath, hnone, hpages⟩ := ih his' hsep2
      rw [pages_of_zero _ hzero2] at hpages
      -- pages that were in use before the call keep their contents, entry `i` apart
      have hold : ∀ x, x ∉ m.free → x ≠ t →
          (walkAlloc l pa (m1.setPte t i (makeTableDesc pa))).2.page x = m.page x := by
        intro x hx hxt
        have hxpa : x ≠ pa := (ne_of_mem_of_not_mem hpamem hx).symm
        rw [hm.page x, setPte_page_of_ne hxt, hpage x hxpa]
        rw [mem_extent, frames_of_zero _ hzero2]
        rintro (hf | rfl | hn)
        · exact hx (free_of_alloc hal hf)
        · exact hxpa rfl
        · exact notMem_zero x hn
      have htable : (walkAlloc l pa (m1.setPte t i (makeTableDesc pa))).2.page t =
          (m1.setPte t i (makeTableDesc pa)).page t := by
        apply hm.page
        rw [mem_extent, frames_of_zero _ hzero2]
        rintro (hf | e | hn)
        · exact h.root_notMem (free_of_alloc hal hf)
        · exact htpa e
        · exact notMem_zero t hn
      have hsib : ∀ m' : PhysMem, (∀ x, x ∉ m.free → x ≠ t → m'.page x = m.page x) →
          ∀ j < ptePerTable, j ≠ i → pteValid (m.pte t j) = true →
            ∀ x ∈ tables m (l.length + 1) (pteAddr (m.pte t j)), m'.page x = m.page x := by
        intro m' hm' j hj _ hvj x hx
        have hx' := mem_of_le (tables_le _ _ _) hx
        obtain ⟨hle, -⟩ := h.child hj hvj
        obtain ⟨-, hnot⟩ := nodup_child h.nodup_space hj hvj
        have hxspace : x ∈ {t} + frames m (l.length + 1 + 1) t := by
          have hle' := le_sum_range
            (f := fun i => entryFrames (frames m (l.length + 1)) (m.pte t i)) hj
          simp only [entryFrames_of_valid hvj] at hle'
          exact mem_add.2 (inr (mem_of_le hle' hx'))
        apply hm' x (h.notMem_free hxspace)
        intro e
        rw [e] at hx'
        exact hnot hx'
      have hptej : ∀ j, j ≠ i → (m1.setPte t i (makeTableDesc pa)).pte t j = m.pte t j := by
        intro j hj
        rw [pte_setPte_of_ne hj]
        exact pte_congr (hpage t htpa) j
      have hptei : (m1.setPte t i (makeTableDesc pa)).pte t i = makeTableDesc pa :=
        pte_setPte_self (makeTableDesc_lt hpa)
      have htot := hm.total
      rw [frames_of_zero _ hzero2, add_zero, setPte_free] at htot
      simp only
      split
      · rename_i t' m2 hres
        rw [hres] at hm hpath hold htable htot hpages
        have hother : ∀ j, j ≠ i → m2.pte t j = m.pte t j :=
          fun j hj => (pte_congr htable j).trans (hptej j hj)
        have hchange' := pages_change_child hi hother (hsib m2 hold)
        rw [entryPages_of_invalid hinv, pte_congr htable i, hptei,
          entryPages_of_valid (pteValid_tableDesc hpa), pteAddr_tableDesc hpa, hpages, add_zero,
          add_zero] at hchange'
        have hchange := frames_change_child hi hother (hsib m2 hold)
        rw [entryFrames_of_invalid hinv, pte_congr htable i, hptei,
          entryFrames_of_valid (pteValid_tableDesc hpa), pteAddr_tableDesc hpa, add_zero]
          at hchange
        refine ⟨⟨?_, fun x hx => ?_⟩, fun t'' ht'' => ?_, fun hn => (by cases hn), hchange'⟩
        · rw [hchange, hfree, ← htot]
          abel
        · rw [mem_extent, not_or, not_or] at hx
          exact hold x hx.1 hx.2.1
        · rw [walkTables, pte_congr htable i, hptei, if_pos (pteValid_tableDesc hpa),
            pteAddr_tableDesc hpa]
          exact hpath t'' ht''
      -- the tables allocated below are gone again; this one l unlinked and freed
      rename_i m2 hres
      rw [hres] at hm hnone hold htable htot
      have hempty := hnone rfl
      rw [frames_of_zero _ hzero2] at hempty
      rw [hempty, add_zero] at htot
      have hnot : pa ∉ (m2.setPte t i 0).free := by
        rw [setPte_free, ← mem_coe, htot]
        have hnd := (nodup_add.1 h.nodup).1
        rw [hfree, singleton_add, nodup_cons] at hnd
        exact hnd.1
      obtain ⟨hfree4, hpage4⟩ := pmmFree_spec hpa hnot
      rw [setPte_free, htot] at hfree4
      have htable4 : ∀ j, (pmmFree (m2.setPte t i 0) pa).pte t j =
          (m2.setPte t i 0).pte t j := pte_congr (hpage4 t htpa)
      have hold4 : ∀ x, x ∉ m.free → x ≠ t →
          (pmmFree (m2.setPte t i 0) pa).page x = m.page x := by
        intro x hx hxt
        rw [hpage4 x (ne_of_mem_of_not_mem hpamem hx).symm, setPte_page_of_ne hxt, hold x hx hxt]
      have hother : ∀ j, j ≠ i → (pmmFree (m2.setPte t i 0) pa).pte t j = m.pte t j := by
        intro j hj
        rw [htable4, pte_setPte_of_ne hj, pte_congr htable j, hptej j hj]
      have hchange' := pages_change_child hi hother (hsib _ hold4)
      rw [htable4, pte_setPte_self (by decide), entryPages_of_invalid hinv,
        entryPages_of_invalid (by decide), add_zero, add_zero] at hchange'
      have hchange := frames_change_child hi hother (hsib _ hold4)
      rw [htable4, pte_setPte_self (by decide), entryFrames_of_invalid hinv,
        entryFrames_of_invalid (by decide), add_zero, add_zero] at hchange
      refine ⟨⟨?_, fun x hx => ?_⟩, fun t'' ht'' => (by cases ht''), fun _ => hchange,
        hchange'⟩
      · rw [hchange, hfree4, hfree]
      · rw [mem_extent, not_or, not_or] at hx
        exact hold4 x hx.1 hx.2.1

/-! ## Mapping and unmapping one page -/

theorem tableIndices_lt (va : Nat) : ∀ i ∈ tableIndices va, i < ptePerTable := by
  unfold tableIndices ptePerTable
  intro i hi
  simp only [List.mem_cons, List.not_mem_nil, or_false] at hi
  omega

theorem l3Index_lt (va : Nat) : l3Index va < ptePerTable := by
  unfold l3Index ptePerTable
  omega

section

variable {m : PhysMem} {root : Nat}

/-- `vmm_map_page`: on success the page is one more frame of the address space, on failure the frames
are what they were. -/
theorem vmmMapPage_spec (h : Sep m 4 root) {pa : Nat} (hpa : IsFrame pa) (va : Nat)
    (write exec : Bool) :
    (((vmmMapPage m root va pa write exec).2.free : Multiset Nat) +
        frames (vmmMapPage m root va pa write exec).2 4 root =
      (m.free : Multiset Nat) + frames m 4 root +
        if (vmmMapPage m root va pa write exec).1 then {pa} else 0) ∧
      ∀ x, x ∉ extent m 4 root → (vmmMapPage m root va pa write exec).2.page x = m.page x := by
  have hwalk := walkAlloc_spec (l := tableIndices va) (tableIndices_lt va) h
  unfold vmmMapPage
  rcases hres : walkAlloc (tableIndices va) root m with ⟨_ | t, m'⟩ <;> rw [hres] at hwalk
  · have hm : Moves m m' 4 root := hwalk.1
    exact ⟨by simpa using hm.total, hm.page⟩
  have hm : Moves m m' 4 root := hwalk.1
  have hpath := hwalk.2.1 t rfl
  simp only
  split
  · exact ⟨by simpa using hm.total, hm.page⟩
  rename_i hinv
  have hsep := h.moves hm
  have hset : frames (m'.setPte t (l3Index va) (makePageDescUser pa write exec)) 4 root + _ =
      frames m' 4 root + _ :=
    (frames_setPte (l := tableIndices va) (tableIndices_lt va) (l3Index_lt va)
      (makePageDescUser_lt hpa write exec) hsep.nodup_space hpath).1
  rw [entryFrames_of_invalid hinv, entryFrames_of_valid (pteValid_pageDesc hpa write exec),
    pteAddr_pageDesc hpa, add_zero, add_zero] at hset
  have hmem : t ∈ {root} + frames m' 4 root :=
    mem_of_le (tables_le _ _ _) (walkTables_mem (tableIndices_lt va) hpath)
  constructor
  · rw [setPte_free, if_pos rfl, ← hm.total, add_assoc, ← hset]
  intro x hx
  rw [setPte_page_of_ne, hm.page x hx]
  intro e
  apply hx
  rw [e, ← hm.extent]
  exact mem_add.2 (inr hmem)

theorem pages_mapPage (h : Sep m 4 root) {pa : Nat} (hpa : IsFrame pa) (va : Nat)
    (write exec : Bool) :
    pages (vmmMapPage m root va pa write exec).2 4 root =
      pages m 4 root + if (vmmMapPage m root va pa write exec).1 then {pa} else 0 := by
  have hwalk := walkAlloc_spec (l := tableIndices va) (tableIndices_lt va) h
  unfold vmmMapPage
  rcases hres : walkAlloc (tableIndices va) root m with ⟨_ | t, m'⟩ <;> rw [hres] at hwalk
  · have hpages : pages m' 4 root = pages m 4 root := hwalk.2.2.2
    simpa using hpages
  have hm : Moves m m' 4 root := hwalk.1
  have hpath := hwalk.2.1 t rfl
  have hpages : pages m' 4 root = pages m 4 root := hwalk.2.2.2
  simp only
  split
  · simpa using hpages
  rename_i hinv
  have hset : pages (m'.setPte t (l3Index va) (makePageDescUser pa write exec)) 4 root + _ =
      pages m' 4 root + _ :=
    (frames_setPte (l := tableIndices va) (tableIndices_lt va) (l3Index_lt va)
      (makePageDescUser_lt hpa write exec) (h.moves hm).nodup_space hpath).2
  rw [entryPages_of_invalid hinv, entryPages_of_valid (pteValid_pageDesc hpa write exec),
    pteAddr_pageDesc hpa, add_zero, hpages] at hset
  rw [hset, if_pos rfl]

theorem vmmUnmapPage_spec (h : Sep m 4 root) (va : Nat) :
    (vmmUnmapPage m root va).2.free = m.free ∧
      (frames (vmmUnmapPage m root va).2 4 root +
          (match (vmmUnmapPage m root va).1 with
            | some pa => {pa}
            | none => 0) = frames m 4 root) ∧
      ∀ x, x ∉ extent m 4 root → (vmmUnmapPage m root va).2.page x = m.page x := by
  unfold vmmUnmapPage
  cases hpath : walkTables m (tableIndices va) root with
  | none => exact ⟨rfl, add_zero _, fun _ _ => rfl⟩
  | some t =>
    simp only
    split
    · rename_i hv
      have hset : frames (m.setPte t (l3Index va) 0) 4 root + _ = frames m 4 root + _ :=
        (frames_setPte (l := tableIndices va) (tableIndices_lt va) (l3Index_lt va) (by decide)
          h.nodup_space hpath).1
      rw [entryFrames_of_valid hv, entryFrames_of_invalid (by decide), add_zero, add_zero] at hset
      have hmem : t ∈ {root} + frames m 4 root :=
        mem_of_le (tables_le _ _ _) (walkTables_mem (tableIndices_lt va) hpath)
      refine ⟨rfl, hset, fun x hx => ?_⟩
      apply setPte_page_of_ne
      intro e
      apply hx
      rw [e]
      exact mem_add.2 (inr hmem)
    · exact ⟨rfl, add_zero _, fun _ _ => rfl⟩

end

/-! ## Freeing an address space -/

/-- All frames below the table become free. -/
theorem freewalk_spec {d t : Nat} (h : Sep m d t) :
    ((freewalk d t m).free : Multiset Nat) = (m.free : Multiset Nat) + frames m d t ∧
      ∀ x, x ∉ frames m d t → (freewalk d t m).page x = m.page x := by
  induction d generalizing t m with
  | zero => exact ⟨(add_zero _).symm, fun _ _ => rfl⟩
  | succ d ih =>
    -- after `n` entries the frames below them are free and nothing else has changed
    have key : ∀ n ≤ ptePerTable,
        (((List.range n).foldl (fun m i =>
          if pteValid (m.pte t i) then
            pmmFree (freewalk d (pteAddr (m.pte t i)) m) (pteAddr (m.pte t i))
          else m) m).free : Multiset Nat) = (m.free : Multiset Nat) +
            ∑ i ∈ Finset.range n, entryFrames (frames m d) (m.pte t i) ∧
        ∀ x, x ∉ ∑ i ∈ Finset.range n, entryFrames (frames m d) (m.pte t i) →
          ((List.range n).foldl (fun m i =>
            if pteValid (m.pte t i) then
              pmmFree (freewalk d (pteAddr (m.pte t i)) m) (pteAddr (m.pte t i))
            else m) m).page x = m.page x := by
      intro n
      induction n with
      | zero => exact fun _ => ⟨(add_zero _).symm, fun _ _ => rfl⟩
      | succ n ihn =>
        intro hn
        obtain ⟨hfree, hpage⟩ := ihn (by omega)
        rw [List.range_succ, List.foldl_append, Finset.sum_range_succ]
        generalize (List.range n).foldl (fun m i =>
          if pteValid (m.pte t i) then
            pmmFree (freewalk d (pteAddr (m.pte t i)) m) (pteAddr (m.pte t i))
          else m) m = m1 at hfree hpage ⊢
        simp only [List.foldl_cons, List.foldl_nil]
        have hle : ∑ i ∈ Finset.range n, entryFrames (frames m d) (m.pte t i) +
            entryFrames (frames m d) (m.pte t n) ≤ frames m (d + 1) t := by
          rw [frames, ← Finset.sum_range_succ]
          exact Finset.sum_le_sum_of_subset (Finset.range_mono hn)
        have hndall : ((m.free : Multiset Nat) + ({t} +
            (∑ i ∈ Finset.range n, entryFrames (frames m d) (m.pte t i) +
              entryFrames (frames m d) (m.pte t n)))).Nodup :=
          nodup_of_le (Multiset.add_le_add_left (Multiset.add_le_add_left hle)) h.nodup
        have hframe : ∀ x ∈ entryFrames (frames m d) (m.pte t n), IsFrame x := by
          intro x hx
          apply h.isFrame x
          rw [mem_extent]
          exact inr (inr (mem_of_le hle (mem_add.2 (inr hx))))
        simp only [nodup_add, disjoint_add_right] at hndall
        obtain ⟨hndfree, ⟨-, ⟨hndpre, hndcur, hdprecur⟩, hdtpre, hdtcur⟩, -, hdfpre, hdfcur⟩ :=
          hndall
        have ht : m1.page t = m.page t :=
          hpage t (disjoint_left.1 hdtpre (mem_singleton_self t))
        rw [pte_congr ht n]
        by_cases hv : pteValid (m.pte t n) = true
        · rw [if_pos hv]
          rw [entryFrames_of_valid hv] at hndcur hdprecur hdfcur hframe ⊢
          have hkeep : ∀ x ∈ {pteAddr (m.pte t n)} + frames m d (pteAddr (m.pte t n)),
              m1.page x = m.page x := fun x hx =>
            hpage x fun hpre => disjoint_left.1 hdprecur hpre hx
          have hsame := (frames_congr (m := m) (w := m1) (d := d) (t := pteAddr (m.pte t n))
            fun x hx => hkeep x (mem_of_le (tables_le _ _ _) hx)).1
          have hext : extent m1 d (pteAddr (m.pte t n)) = (m.free : Multiset Nat) +
              ∑ i ∈ Finset.range n, entryFrames (frames m d) (m.pte t i) +
                ({pteAddr (m.pte t n)} + frames m d (pteAddr (m.pte t n))) := by
            unfold extent
            rw [hsame, hfree]
          have hsep : Sep m1 d (pteAddr (m.pte t n)) := by
            constructor
            · rw [hext]
              simp only [nodup_add, disjoint_add_left]
              rw [nodup_add] at hndcur
              exact ⟨⟨hndfree, hndpre, hdfpre⟩, hndcur, hdfcur, hdprecur⟩
            intro x hx
            apply h.isFrame x
            rw [hext, add_assoc, mem_add] at hx
            rw [mem_extent]
            rcases hx with hx | hx
            · exact inl (mem_coe.1 hx)
            · rw [entryFrames_of_valid hv] at hle
              exact inr (inr (mem_of_le hle hx))
          obtain ⟨hfree2, hpage2⟩ := ih hsep
          rw [hsame] at hfree2 hpage2
          have hnot : pteAddr (m.pte t n) ∉ (freewalk d (pteAddr (m.pte t n)) m1).free := by
            have hnd := hsep.nodup
            rw [extent_eq, hsame, singleton_add, nodup_cons, ← hfree2] at hnd
            exact hnd.1
          obtain ⟨hfree3, hpage3⟩ := pmmFree_spec (hframe _ (mem_add.2 (inl (mem_singleton_self _)))) hnot
          constructor
          · rw [hfree3, hfree2, hfree]
            abel
          · intro x hx
            simp only [mem_add, mem_singleton, not_or] at hx
            rw [hpage3 x hx.2.1, hpage2 x hx.2.2, hpage x hx.1]
        · rw [if_neg hv, entryFrames_of_invalid hv, add_zero]
          exact ⟨hfree, hpage⟩
    rw [freewalk, frames]
    exact key ptePerTable (Nat.le_refl _)

/-- `vmm_free` gives back every frame of the address space. -/
theorem vmmFree_spec {root : Nat} (h : Sep m 4 root) :
    ((vmmFree m root).free : Multiset Nat) = extent m 4 root ∧
      ∀ x, x ∉ extent m 4 root → (vmmFree m root).page x = m.page x := by
  have hroot : IsFrame root := h.isFrame root (mem_extent.2 (inr (inl rfl)))
  have hne : root ≠ 0 := by
    intro e
    have := hroot.ge
    rw [e] at this
    exact absurd this (by decide)
  obtain ⟨hfree, hpage⟩ := freewalk_spec h
  have hnot : root ∉ (freewalk 4 root m).free := by
    have hnd := h.nodup
    rw [extent_eq, singleton_add, nodup_cons, ← hfree] at hnd
    exact hnd.1
  obtain ⟨hfree', hpage'⟩ := pmmFree_spec hroot hnot
  unfold vmmFree
  rw [if_neg hne]
  constructor
  · rw [hfree', hfree, extent_eq]
  · intro x hx
    rw [mem_extent, not_or, not_or] at hx
    rw [hpage' x hx.2.1, hpage x hx.2.2]

end Slopix.Mm
