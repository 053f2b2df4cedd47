import Slopix.Mm.Alike

/-!
# All or nothing

What `vmm_copy` and `vmm_map_page` leave behind. `userEntry m root va` is the level 3 entry that
translates `va`, so two address spaces are compared page by page and not table by table: a copy
translates the same addresses, with the same flags, to pages with the same bytes. A copy that fails has
given back every frame. `walk` that fails clears the entries it filled; an entry that was not valid
before may have had other bits, and is zero now.
-/

namespace Slopix.Mm

open Multiset Option List

/-- The entry of the page mapped at `va`. -/
def userEntry (m : PhysMem) (root va : Nat) : Option Nat :=
  (walkTables m (tableIndices va) root).bind fun t =>
    if pteValid (m.pte t (l3Index va)) then some (m.pte t (l3Index va)) else none

/-- The same pages are mapped, with the same flags and the same bytes. -/
def SameMap (m m' : PhysMem) (root root' : Nat) : Prop :=
  ∀ va, Option.Rel (fun e e' => pteFlags e' = pteFlags e ∧ m'.page (pteAddr e') = m.page (pteAddr e))
    (userEntry m root va) (userEntry m' root' va)

/-- The entry is that of `m`, or it was invalid and is zero. -/
def Kept (m m' : PhysMem) (t i : Nat) : Prop :=
  m'.pte t i = m.pte t i ∨ pteValid (m.pte t i) = false ∧ m'.pte t i = 0

/-- The tables below `t` are kept, and no other page in use changes. -/
structure Intact (m m' : PhysMem) (d t : Nat) : Prop where
  entry : ∀ x ∈ tables m d t, ∀ i, Kept m m' x i
  page : ∀ x, x ∉ m.free → x ∉ tables m d t → m'.page x = m.page x

section

variable {m m' : PhysMem} {d t t' : Nat}

theorem Intact.refl (m : PhysMem) (d t : Nat) : Intact m m d t :=
  ⟨fun _ _ _ => Or.inl rfl, fun _ _ _ => rfl⟩

theorem Copied.walk {l : List Nat} (his : ∀ i ∈ l, i < ptePerTable)
    (h : Copied m m' (l.length + d) t t') :
    Option.Rel (Copied m m' d) (walkTables m l t) (walkTables m' l t') := by
  induction l generalizing t t' with
  | nil =>
    rw [length_nil, Nat.zero_add] at h
    exact .some h
  | cons i l ih =>
    rw [length_cons, Nat.add_right_comm, Copied] at h
    obtain ⟨hvalid, hbelow⟩ := h i (his i mem_cons_self)
    rw [walkTables, walkTables, hvalid]
    split
    · rename_i hv
      exact ih (fun j hj => his j (mem_cons_of_mem i hj)) (hbelow hv).2
    · exact .none

theorem Copied.sameMap (h : Copied m m' 4 t t') : SameMap m m' t t' := by
  intro va
  have hwalk := Copied.walk (l := tableIndices va) (d := 1) (tableIndices_lt va) h
  unfold userEntry
  generalize walkTables m (tableIndices va) t = u, walkTables m' (tableIndices va) t' = u' at hwalk
  cases hwalk with
  | none => exact .none
  | some hend =>
    obtain ⟨hvalid, hbelow⟩ := hend (l3Index va) (l3Index_lt va)
    rw [bind_some, bind_some, hvalid]
    split
    · rename_i hv
      exact .some ⟨(hbelow hv).1 rfl, (hbelow hv).2⟩
    · exact .none

theorem walkAlloc_empty {l : List Nat} {u : Nat} (his : ∀ i ∈ l, i < ptePerTable)
    (h : Sep m (l.length + 1) t) (hzero : m.page t = fun _ => 0) (hu : (walkAlloc l t m).1 = some u) :
    (walkAlloc l t m).2.page u = fun _ => 0 := by
  induction l generalizing m t with
  | nil =>
    cases hu
    exact hzero
  | cons i l ih =>
    have hinv : ¬ pteValid (m.pte t i) = true := by simp [pte_of_zero hzero]
    obtain ⟨pa, m1, hal, hend, hmem⟩ := walkAlloc_linked hinv hu
    obtain ⟨-, -, -, hzero', hsep, -⟩ := newTable_spec (i := i) h hal
    rw [hmem]
    exact ih (fun j hj => his j (mem_cons_of_mem i hj)) hsep hzero' hend

/-- A walk that finds its last table allocates nothing, or that table is new and empty. -/
theorem walkAlloc_found {l : List Nat} {u : Nat} (his : ∀ i ∈ l, i < ptePerTable)
    (h : Sep m (l.length + 1) t) (hu : (walkAlloc l t m).1 = some u) :
    (walkAlloc l t m).2 = m ∨ (walkAlloc l t m).2.page u = fun _ => 0 := by
  induction l generalizing t with
  | nil => exact Or.inl rfl
  | cons i l ih =>
    have his' : ∀ j ∈ l, j < ptePerTable := fun j hj => his j (mem_cons_of_mem i hj)
    by_cases hv : pteValid (m.pte t i) = true
    · rw [walkAlloc, if_pos hv] at hu ⊢
      exact ih his' (h.child (his i mem_cons_self) hv).2 hu
    obtain ⟨pa, m1, hal, hend, hmem⟩ := walkAlloc_linked hv hu
    obtain ⟨-, -, -, hzero, hsep, -⟩ := newTable_spec (i := i) h hal
    rw [hmem]
    exact Or.inr (walkAlloc_empty his' hsep hzero hend)

/-- A walk that fails leaves the tables as they were. -/
theorem walkAlloc_undone {l : List Nat} (his : ∀ i ∈ l, i < ptePerTable) (h : Sep m (l.length + 1) t)
    (hnone : (walkAlloc l t m).1 = none) : Intact m (walkAlloc l t m).2 (l.length + 1) t := by
  induction l generalizing t with
  | nil => cases hnone
  | cons i l ih =>
    have hi := his i mem_cons_self
    have his' : ∀ j ∈ l, j < ptePerTable := fun j hj => his j (mem_cons_of_mem i hj)
    by_cases hv : pteValid (m.pte t i) = true
    · rw [walkAlloc, if_pos hv] at hnone ⊢
      have hbelow := ih his' (h.child hi hv).2 hnone
      have hsub : ∀ x ∈ tables m (l.length + 1) (pteAddr (m.pte t i)), x ∈ tables m (l.length + 2) t :=
        fun x hx => mem_of_le (tables_child_le hi hv) hx
      refine ⟨fun x hx j => ?_, fun x hx hx' => hbelow.page x hx fun hmem => hx' (hsub x hmem)⟩
      by_cases hmem : x ∈ tables m (l.length + 1) (pteAddr (m.pte t i))
      · exact hbelow.entry x hmem j
      · have hfree := h.notMem_free (mem_of_le (tables_le _ _ _) hx)
        exact Or.inl (pte_congr (hbelow.page x hfree hmem) j)
    cases hal : pmmAlloc m with
    | none =>
      rw [walkAlloc, if_neg hv, hal]
      exact Intact.refl ..
    | some r =>
      obtain ⟨pa, m1⟩ := r
      obtain ⟨-, htpa, hmem, -, hsep, hafter⟩ := newTable_spec (i := i) h hal
      obtain ⟨hother, -, hold⟩ := hafter _ (walkAlloc_spec his' hsep).1.page
      rw [walkAlloc_missing hv hal] at hnone ⊢
      cases hend : (walkAlloc l pa (m1.setPte t i (makeTableDesc pa))).1 with
      | some v =>
        rw [hend] at hnone
        cases hnone
      | none =>
        -- only the entry of `t` was touched, and it is zero again
        have hpage : ∀ n : PhysMem, (∀ x, x ∉ m.free → x ≠ t → n.page x = m.page x) →
            ∀ x, x ∉ m.free → x ≠ t → (pmmFree (n.setPte t i 0) pa).page x = m.page x := by
          intro n hn x hx hxt
          rw [pmmFree_page (ne_of_mem_of_not_mem hmem hx).symm, setPte_page_of_ne hxt, hn x hx hxt]
        refine ⟨fun x hx j => ?_, fun x hx hx' => hpage _ hold x hx fun e => ?_⟩
        · have hfree := h.notMem_free (mem_of_le (tables_le _ _ _) hx)
          by_cases hxt : x = t
          · subst hxt
            have hentry := fun n : PhysMem => @pte_congr (n.setPte x i 0) _ x (pmmFree_page htpa) j
            by_cases hj : j = i
            · subst hj
              exact Or.inr ⟨by simpa using hv, (hentry _).trans (pte_setPte_self (by decide))⟩
            · exact Or.inl ((hentry _).trans ((pte_setPte_of_ne hj).trans (hother j hj)))
          · exact Or.inl (pte_congr (hpage _ hold x hfree hxt) j)
        · rw [e] at hx'
          exact hx' (mem_tables_self m _ t)

theorem Kept.valid {i : Nat} (h : Kept m m' t i) : pteValid (m'.pte t i) = pteValid (m.pte t i) := by
  rcases h with h | ⟨hinv, hzero⟩
  · rw [h]
  · rw [hinv, hzero]
    rfl

theorem Kept.same {i : Nat} (h : Kept m m' t i) (hv : pteValid (m.pte t i) = true) :
    m'.pte t i = m.pte t i := by
  rcases h with h | ⟨hinv, -⟩
  · exact h
  · rw [hv] at hinv
    cases hinv

theorem walkTables_kept {l : List Nat} (his : ∀ i ∈ l, i < ptePerTable)
    (h : ∀ x ∈ tables m (l.length + 1) t, ∀ i, Kept m m' x i) : walkTables m' l t = walkTables m l t := by
  induction l generalizing t with
  | nil => rfl
  | cons i l ih =>
    have hentry := h t (mem_tables_self m _ t) i
    rw [walkTables, walkTables, hentry.valid]
    split
    · rename_i hv
      rw [hentry.same hv]
      apply ih fun j hj => his j (mem_cons_of_mem i hj)
      intro x hx
      exact h x (mem_of_le (tables_child_le (his i mem_cons_self) hv) hx)
    · rfl

/-- Tables that are kept translate every address as before. -/
theorem Intact.userEntry (h : Intact m m' 4 t) (va : Nat) : Mm.userEntry m' t va = Mm.userEntry m t va := by
  unfold Mm.userEntry
  rw [walkTables_kept (l := tableIndices va) (tableIndices_lt va) h.entry]
  cases hu : walkTables m (tableIndices va) t with
  | none => simp only [bind_none]
  | some u =>
    have hmem : u ∈ tables m ((tableIndices va).length + 1) t := walkTables_mem (tableIndices_lt va) hu
    have hentry := h.entry u hmem (l3Index va)
    rw [bind_some, bind_some, hentry.valid]
    by_cases hv : pteValid (m.pte u (l3Index va)) = true
    · rw [if_pos hv, if_pos hv, hentry.same hv]
    · rw [if_neg hv, if_neg hv]

theorem vmmMapPage_undone (h : Sep m 4 t) {va pa : Nat} {write exec : Bool}
    (hfail : (vmmMapPage m t va pa write exec).1 = false) :
    ((vmmMapPage m t va pa write exec).2.free : Multiset Nat) = (m.free : Multiset Nat) ∧
      frames (vmmMapPage m t va pa write exec).2 4 t = frames m 4 t ∧
      Intact m (vmmMapPage m t va pa write exec).2 4 t := by
  have hspec := walkAlloc_spec (l := tableIndices va) (tableIndices_lt va) h
  have hundone := walkAlloc_undone (l := tableIndices va) (tableIndices_lt va) h
  have hfound := fun u => walkAlloc_found (l := tableIndices va) (u := u) (tableIndices_lt va) h
  unfold vmmMapPage at hfail ⊢
  rcases hwalk : walkAlloc (tableIndices va) t m with ⟨_ | u, m'⟩ <;> rw [hwalk] at hspec hundone hfound hfail
  · obtain ⟨hmoves, -, hframes, -⟩ := hspec
    have hsame : frames m' 4 t = frames m 4 t := hframes rfl
    have htotal : (m'.free : Multiset Nat) + frames m' 4 t = m.free + frames m 4 t := hmoves.total
    rw [hsame] at htotal
    exact ⟨add_right_cancel htotal, hsame, hundone rfl⟩
  rcases hfound u rfl with hsame | hzero
  · obtain rfl : m' = m := hsame
    dsimp only at hfail ⊢
    split at hfail
    · rename_i hv
      rw [if_pos hv]
      exact ⟨rfl, rfl, Intact.refl ..⟩
    · cases hfail
  -- a table that is new has no valid entry
  have hinv : ¬ pteValid (m'.pte u (l3Index va)) = true := by simp [pte_of_zero hzero]
  dsimp only at hfail
  rw [if_neg hinv] at hfail
  cases hfail

end

/-- `vmm_copy` makes an exact copy in frames that were free or leaves the frames as they were, and
`vmm_map_page` that fails leaves the address space as it was. -/
theorem vmm_all_or_nothing {m : PhysMem} {root : Nat} (h : Sep m 4 root) :
    (match (vmmCopy m root).1 with
      | some dst => SameMap m (vmmCopy m root).2 root dst ∧
          Disjoint ({dst} + frames (vmmCopy m root).2 4 dst) ({root} + frames m 4 root) ∧
          Sep (vmmCopy m root).2 4 dst
      | none => ((vmmCopy m root).2.free : Multiset Nat) = (m.free : Multiset Nat)) ∧
    (∀ x ∈ {root} + frames m 4 root, (vmmCopy m root).2.page x = m.page x) ∧
    ∀ va pa write exec, (vmmMapPage m root va pa write exec).1 = false →
      ((vmmMapPage m root va pa write exec).2.free : Multiset Nat) = (m.free : Multiset Nat) ∧
        frames (vmmMapPage m root va pa write exec).2 4 root = frames m 4 root ∧
        Intact m (vmmMapPage m root va pa write exec).2 4 root ∧
        ∀ va', userEntry (vmmMapPage m root va pa write exec).2 root va' = userEntry m root va' := by
  obtain ⟨hcopy, hpage⟩ := vmmCopy_spec h
  refine ⟨?_, fun x hx => hpage x (h.notMem_free hx), fun va pa write exec hfail => ?_⟩
  · rcases hres : vmmCopy m root with ⟨_ | dst, m'⟩ <;> rw [hres] at hcopy
    · exact hcopy
    obtain ⟨hfree, hcopied⟩ := hcopy
    have hnew : ∀ x ∈ {dst} + frames m' 4 dst, x ∈ m.free := fun x hx => by
      rw [← mem_coe, hfree]
      exact mem_add.2 (Or.inr hx)
    refine ⟨hcopied.sameMap, disjoint_left.2 fun hx hx' => ?_, ?_, fun x hx => ?_⟩
    · exact h.notMem_free hx' (hnew _ hx)
    · rw [← hfree]
      exact (nodup_add.1 h.nodup).1
    · rw [← hfree] at hx
      exact h.isFrame x (mem_extent.2 (Or.inl (mem_coe.1 hx)))
  · obtain ⟨hfree, hframes, hintact⟩ := vmmMapPage_undone h hfail
    exact ⟨hfree, hframes, hintact, hintact.userEntry⟩

/-- A memory with an empty root table and one free frame. -/
def oneFree : PhysMem where
  page := fun _ _ => 0
  free := [ramBase + pageSize]

theorem oneFree_sep : Sep oneFree 4 ramBase := by
  have hext : extent oneFree 4 ramBase = {ramBase + pageSize} + ({ramBase} + 0) := by
    rw [extent, frames_of_zero 4 rfl, oneFree, coe_singleton]
  constructor
  · rw [hext]
    decide
  · rw [hext]
    decide

/-- Three tables are missing and there is one frame. -/
theorem vmm_all_or_nothing_oneFree :
    (vmmMapPage oneFree ramBase 0 ramBase true false).1 = false ∧
      ((vmmMapPage oneFree ramBase 0 ramBase true false).2.free : Multiset Nat) = {ramBase + pageSize} := by
  have hfail : (vmmMapPage oneFree ramBase 0 ramBase true false).1 = false := by decide
  exact ⟨hfail, ((vmm_all_or_nothing oneFree_sep).2.2 0 ramBase true false hfail).1⟩

end Slopix.Mm
