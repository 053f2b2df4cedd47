import Slopix.Mm.Mapping
import Slopix.Mm.Room

/-!
# Ranges of pages

The loops that map and unmap one page after another. `newPages` maps zero pages until one cannot be
had, `dropPages` unmaps and frees what is mapped. Both are described by the entries of the address
space; its user pages are the pages that its entries lead to.
-/

namespace Slopix.Mm

open Lib Multiset Nat

/-- Map `n` new pages from `va` on, until one fails. -/
def newPages (root : Nat) (write exec : Bool) : Nat → Nat → PhysMem → Bool × PhysMem
  | 0, _, m => (true, m)
  | n + 1, va, m =>
    match newPage m root va write exec with
    | (some _, m') => newPages root write exec n (va + 4096) m'
    | (none, m') => (false, m')

/-- Unmap `n` pages from `va` on and free those that were mapped. -/
def dropPages (root : Nat) : Nat → Nat → PhysMem → PhysMem
  | 0, _, m => m
  | n + 1, va, m =>
    match vmmUnmapPage m root va with
    | (some pa, m') => dropPages root n (va + 4096) (pmmFree m' pa)
    | (none, m') => dropPages root n (va + 4096) m'

/-- `va'` is in one of the `n` pages from `va` on. -/
def InRange (va n va' : Nat) : Prop := ∃ i < n, pageNo va' = pageNo (va + 4096 * i)

/-- `n` zero pages have been mapped from `va` on. -/
structure RangeMapped (m m' : PhysMem) (root va n : Nat) (write exec : Bool) : Prop where
  sep : Sep m' 4 root
  unmapped : ∀ i < n, userEntry m root (va + 4096 * i) = none
  mapped : ∀ i < n, ∃ pa ∈ m.free, m'.page pa = (fun _ => 0) ∧
    userEntry m' root (va + 4096 * i) = some (makePageDescUser pa write exec)
  other : ∀ va', ¬ InRange va n va' → userEntry m' root va' = userEntry m root va'
  page : ∀ x, x ∉ m.free → x ∉ tables m 4 root → m'.page x = m.page x
  free : m'.free <:+ m.free
  total : (m'.free : Multiset Nat) + frames m' 4 root = m.free + frames m 4 root

section

variable {m m' m'' : PhysMem} {root va va' n : Nat} {write exec : Bool}

theorem inRange_succ : InRange va (n + 1) va' ↔ pageNo va' = pageNo va ∨ InRange (va + 4096) n va' := by
  constructor
  · rintro ⟨i, hi, hpage⟩
    cases i with
    | zero => exact Or.inl hpage
    | succ i =>
      refine Or.inr ⟨i, lt_of_succ_lt_succ hi, ?_⟩
      rwa [mul_succ, add_comm (4096 * i), ← add_assoc] at hpage
  rintro (hpage | ⟨i, hi, hpage⟩)
  · exact ⟨0, succ_pos n, hpage⟩
  · refine ⟨i + 1, succ_lt_succ hi, ?_⟩
    rwa [mul_succ, add_comm (4096 * i), ← add_assoc]

theorem inRange_iff (hva : va % 4096 = 0) (hend : va + 4096 * n ≤ 2 ^ 48) (hva' : va' < 2 ^ 48) :
    InRange va n va' ↔ va ≤ va' ∧ va' < va + 4096 * n := by
  unfold InRange pageNo
  constructor
  · rintro ⟨i, hi, hpage⟩
    omega
  · intro h
    exact ⟨(va' - va) / 4096, by omega, by omega⟩

/-! ## User pages -/

theorem mem_pages {d t x : Nat} (h : x ∈ pages m (d + 1) t) : ∃ l : List Nat, l.length = d ∧
    (∀ i ∈ l, i < ptePerTable) ∧ ∃ j < ptePerTable, ∃ e, lookup m l j t = some e ∧ pteAddr e = x := by
  have hentry : ∀ {d t}, x ∈ pages m (d + 1) t →
      ∃ i < ptePerTable, pteValid (m.pte t i) = true ∧ x ∈ pages m d (pteAddr (m.pte t i)) := by
    intro d t hx
    rw [pages, mem_sum] at hx
    obtain ⟨i, hi, hx⟩ := hx
    unfold entryPages at hx
    split at hx
    · rename_i hv
      exact ⟨i, Finset.mem_range.1 hi, hv, hx⟩
    · exact absurd hx (notMem_zero x)
  induction d generalizing t with
  | zero =>
    obtain ⟨j, hj, hv, hx⟩ := hentry h
    refine ⟨[], rfl, ?_, j, hj, m.pte t j, ?_, (mem_singleton.1 hx).symm⟩
    · intro i hi
      exact absurd hi List.not_mem_nil
    · rw [lookup, walkTables, Option.bind_some, if_pos hv]
  | succ d ih =>
    obtain ⟨i, hi, hv, hx⟩ := hentry h
    obtain ⟨l, hl, hil, j, hj, e, he, hex⟩ := ih hx
    refine ⟨i :: l, by rw [List.length_cons, hl], ?_, j, hj, e, ?_, hex⟩
    · intro k hk
      rcases List.mem_cons.1 hk with rfl | hk
      · exact hi
      · exact hil k hk
    · rw [lookup_cons_of_valid hv, he]

theorem exists_va {l : List Nat} {j : Nat} (hlen : l.length = 3) (hil : ∀ i ∈ l, i < ptePerTable)
    (hj : j < ptePerTable) : ∃ va, tableIndices va = l ∧ l3Index va = j := by
  obtain ⟨a, b, c, rfl⟩ := List.length_eq_three.1 hlen
  have ha := hil a (by simp)
  have hb := hil b (by simp)
  have hc := hil c (by simp)
  unfold ptePerTable at ha hb hc hj
  refine ⟨a * 2 ^ 39 + b * 2 ^ 30 + c * 2 ^ 21 + j * 2 ^ 12, ?_, ?_⟩
  · unfold tableIndices
    rw [List.cons.injEq, List.cons.injEq, List.cons.injEq]
    exact ⟨by omega, by omega, by omega, rfl⟩
  · unfold l3Index
    omega

theorem mem_pages_iff {x : Nat} :
    x ∈ pages m 4 root ↔ ∃ va e, userEntry m root va = some e ∧ pteAddr e = x := by
  constructor
  · intro h
    obtain ⟨l, hlen, hil, j, hj, e, he, hex⟩ := mem_pages h
    obtain ⟨va, rfl, rfl⟩ := exists_va hlen hil hj
    exact ⟨va, e, he, hex⟩
  · rintro ⟨va, e, he, rfl⟩
    exact userEntry_mem he

/-- Address spaces with the same entries have the same user pages. -/
theorem pages_congr (h : Sep m 4 root) (h' : Sep m' 4 root)
    (hentry : ∀ va, userEntry m' root va = userEntry m root va) : pages m' 4 root = pages m 4 root := by
  have hnd : ∀ {s : PhysMem}, Sep s 4 root → (pages s 4 root).Nodup := fun hs => by
    have hspace := hs.nodup_space
    rw [← tables_add_pages] at hspace
    exact (nodup_add.1 hspace).2.1
  refine (Multiset.Nodup.ext (hnd h') (hnd h)).2 fun x => ?_
  rw [mem_pages_iff, mem_pages_iff]
  simp only [hentry]

/-! ## Mapping a range -/

/-- A walk takes its tables from the head of the free list. -/
theorem walkAlloc_suffix {l : List Nat} {t u : Nat} (hu : (walkAlloc l t m).1 = some u) :
    (walkAlloc l t m).2.free <:+ m.free := by
  induction l generalizing t m with
  | nil => exact List.suffix_rfl
  | cons i l ih =>
    by_cases hv : pteValid (m.pte t i) = true
    · rw [walkAlloc, if_pos hv] at hu ⊢
      exact ih hu
    obtain ⟨pa, m1, hal, hend, hmem⟩ := walkAlloc_linked hv hu
    have hrest := ih hend
    rw [setPte_free] at hrest
    rw [hmem]
    exact hrest.trans (pmmAlloc_suffix hal)

theorem newPage_frames {pa : Nat} (h : Sep m 4 root) (hnew : newPage m root va write exec = (some pa, m')) :
    pa ∈ m.free ∧ m'.free <:+ m.free ∧
      (m'.free : Multiset Nat) + frames m' 4 root = m.free + frames m 4 root := by
  unfold newPage at hnew
  cases hal : pmmAlloc m with
  | none =>
    rw [hal] at hnew
    cases hnew
  | some r =>
    obtain ⟨pa', m1⟩ := r
    rw [hal] at hnew
    dsimp only at hnew
    obtain ⟨hheld, hsame⟩ := h.held hal
    have hfree := (pmmAlloc_spec hal).1
    have htotal := (vmmMapPage_spec hheld.sep hheld.isFrame va write exec).1
    have hsuffix : (vmmMapPage m1 root va pa' write exec).1 = true →
        (vmmMapPage m1 root va pa' write exec).2.free <:+ m1.free := by
      intro hok
      have hwalk := fun u => walkAlloc_suffix (m := m1) (l := tableIndices va) (t := root) (u := u)
      unfold vmmMapPage at hok ⊢
      rcases hres : walkAlloc (tableIndices va) root m1 with ⟨_ | u, m2⟩ <;> rw [hres] at hok hwalk
      · cases hok
      dsimp only
      split
      · exact hwalk u rfl
      · exact hwalk u rfl
    rcases hmap : vmmMapPage m1 root va pa' write exec with ⟨_ | _, m2⟩ <;>
      rw [hmap] at hnew htotal hsuffix
    · cases hnew
    cases hnew
    have hframes := (frames_congr fun x hx =>
      hsame x (mem_of_le (tables_le m 4 root) hx)).1
    refine ⟨?_, (hsuffix rfl).trans (pmmAlloc_suffix hal), ?_⟩
    · rw [← mem_coe, hfree]
      simp
    · rw [if_pos rfl, hframes] at htotal
      rw [htotal, hfree]
      abel

theorem Mapped.tables_old {pa x : Nat} (hmap : Mapped m m' root va pa write exec)
    (htotal : (m'.free : Multiset Nat) + frames m' 4 root = m.free + frames m 4 root)
    (hx : x ∈ tables m' 4 root) : x ∈ m.free ∨ x ∈ tables m 4 root := by
  have hext : x ∈ extent m 4 root := by
    rw [extent_eq, ← htotal, ← extent_eq]
    exact mem_add.2 (Or.inr (mem_of_le (tables_le m' 4 root) hx))
  rw [extent, ← tables_add_pages, mem_add, mem_add, mem_coe] at hext
  rcases hext with hfree | htab | hpage
  · exact Or.inl hfree
  · exact Or.inr htab
  · refine absurd hx (hmap.sep.page_apart ?_).2
    rw [hmap.pages]
    exact mem_add.2 (Or.inl hpage)

/-- One more page in front of the range. -/
theorem RangeMapped.cons {pa : Nat} (h : Sep m 4 root) (hnew : newPage m root va write exec = (some pa, m'))
    (hrest : RangeMapped m' m'' root (va + 4096) n write exec) :
    RangeMapped m m'' root va (n + 1) write exec := by
  have hspec := newPage_spec h va write exec
  rw [hnew] at hspec
  obtain ⟨hmap, hzero⟩ := hspec
  obtain ⟨hmem, hsuffix, htotal⟩ := newPage_frames h hnew
  have hstep : ∀ i, va + 4096 * (i + 1) = va + 4096 + 4096 * i := fun i => by omega
  have hself : userEntry m' root va = some (makePageDescUser pa write exec) := by
    rw [hmap.entry, if_pos rfl]
  -- the pages that follow are not the one just mapped
  have hne : ∀ va', InRange (va + 4096) n va' → pageNo va' ≠ pageNo va := by
    rintro va' ⟨i, hi, hpage⟩ heq
    have hunmapped := hrest.unmapped i hi
    rw [userEntry_pageNo (hpage.symm.trans heq), hself] at hunmapped
    cases hunmapped
  have hfirst : userEntry m'' root va = userEntry m' root va :=
    hrest.other va fun hin => hne va hin rfl
  have hdata : pa ∉ m'.free ∧ pa ∉ tables m' 4 root := by
    refine hmap.sep.page_apart ?_
    rw [hmap.pages]
    exact mem_add.2 (Or.inr (mem_singleton_self pa))
  refine ⟨hrest.sep, fun i hi => ?_, fun i hi => ?_, fun va' hout => ?_, fun x hx hxt => ?_,
    hrest.free.trans hsuffix, hrest.total.trans htotal⟩
  · cases i with
    | zero => exact hmap.unmapped
    | succ i =>
      have hi' := lt_of_succ_lt_succ hi
      have hunmapped := hrest.unmapped i hi'
      rw [hmap.entry, if_neg (hne _ ⟨i, hi', rfl⟩)] at hunmapped
      rw [hstep]
      exact hunmapped
  · cases i with
    | zero => exact ⟨pa, hmem, (hrest.page pa hdata.1 hdata.2).trans hzero, hfirst.trans hself⟩
    | succ i =>
      obtain ⟨pa', hpa', hzero', hentry⟩ := hrest.mapped i (lt_of_succ_lt_succ hi)
      rw [hstep]
      exact ⟨pa', hsuffix.subset hpa', hzero', hentry⟩
  · rw [inRange_succ, not_or] at hout
    rw [hrest.other va' hout.2, hmap.entry, if_neg hout.1]
  · have hx' : x ∉ m'.free := fun hx' => hx (hsuffix.subset hx')
    have hxt' : x ∉ tables m' 4 root := fun hx' => (hmap.tables_old htotal hx').elim hx hxt
    rw [hrest.page x hx' hxt', hmap.page x hx hxt]

theorem RangeMapped.nil (h : Sep m 4 root) : RangeMapped m m root va 0 write exec :=
  ⟨h, nofun, nofun, fun _ _ => rfl, fun _ _ _ => rfl, List.suffix_rfl, rfl⟩

theorem newPages_mapped (h : Sep m 4 root) (hrun : newPages root write exec n va m = (true, m')) :
    RangeMapped m m' root va n write exec := by
  induction n generalizing m va with
  | zero =>
    cases hrun
    exact RangeMapped.nil h
  | succ n ih =>
    have hspec := newPage_spec h va write exec
    rw [newPages] at hrun
    rcases hnew : newPage m root va write exec with ⟨_ | pa, m1⟩ <;> rw [hnew] at hspec hrun
    · cases hrun
    · exact RangeMapped.cons h hnew (ih hspec.1.sep hrun)

/-! ## Unmapping a range -/

/-- What unmapping pages leaves. -/
structure Dropped (m m' : PhysMem) (root va n : Nat) : Prop where
  sep : Sep m' 4 root
  entry : ∀ va', InRange va n va' → userEntry m' root va' = none
  other : ∀ va', ¬ InRange va n va' → userEntry m' root va' = userEntry m root va'
  page : ∀ x ∈ pages m' 4 root, x ∈ pages m 4 root ∧ m'.page x = m.page x
  total : (m'.free : Multiset Nat) + frames m' 4 root = m.free + frames m 4 root

theorem vmmUnmapPage_outside {x : Nat} (htab : x ∉ tables m 4 root) (va : Nat) :
    (vmmUnmapPage m root va).2.page x = m.page x := by
  unfold vmmUnmapPage
  cases ht : walkTables m (tableIndices va) root with
  | none => rfl
  | some t =>
    have hmem : t ∈ tables m ((tableIndices va).length + 1) root := walkTables_mem (tableIndices_lt va) ht
    dsimp only
    split
    · exact setPte_page_of_ne (ne_of_mem_of_not_mem hmem htab).symm
    · rfl

/-- One page is unmapped and freed. -/
theorem dropPage_spec (h : Sep m 4 root) (va : Nat) :
    Dropped m (match vmmUnmapPage m root va with
      | (some pa, m') => pmmFree m' pa
      | (none, m') => m') root va 1 := by
  have hspec := vmmUnmapPage_spec h va
  have hentry := fun va' => (userEntry_unmapPage h va va').2
  have hrange : ∀ va', InRange va 1 va' ↔ pageNo va' = pageNo va := fun va' => by
    unfold InRange
    simp
  have hsep : ∀ {s : PhysMem},
      (s.free : Multiset Nat) + frames s 4 root = m.free + frames m 4 root → Sep s 4 root := by
    intro s htotal
    have hext : extent s 4 root = extent m 4 root := by rw [extent_eq, htotal, ← extent_eq]
    exact ⟨hext ▸ h.nodup, hext ▸ h.isFrame⟩
  have hdone : ∀ {s : PhysMem},
      (s.free : Multiset Nat) + frames s 4 root = m.free + frames m 4 root →
      (∀ va', userEntry s root va' = if pageNo va' = pageNo va then none else userEntry m root va') →
      (∀ x, x ∉ s.free → x ∉ tables m 4 root → s.page x = m.page x) → Dropped m s root va 1 := by
    intro s htotal hs hpage
    refine ⟨hsep htotal, fun va' hin => ?_, fun va' hout => ?_, fun x hx => ?_, htotal⟩
    · rw [hs, if_pos ((hrange va').1 hin)]
    · rw [hs, if_neg fun hpage => hout ((hrange va').2 hpage)]
    obtain ⟨va', e, he, hex⟩ := mem_pages_iff.1 hx
    have hold : x ∈ pages m 4 root := by
      refine mem_pages_iff.2 ⟨va', e, ?_, hex⟩
      rw [hs] at he
      split at he
      · cases he
      · exact he
    exact ⟨hold, hpage x ((hsep htotal).page_apart hx).1 (h.page_apart hold).2⟩
  have hout := fun x (hx : x ∉ tables m 4 root) => vmmUnmapPage_outside hx va
  rcases hres : vmmUnmapPage m root va with ⟨_ | pa, m'⟩ <;> rw [hres] at hspec hentry hout
  · obtain ⟨hfree, hframes, -⟩ := hspec
    exact hdone (by rw [hfree, ← hframes, add_zero]) hentry fun x _ hx => hout x hx
  obtain ⟨hfree, hframes, -⟩ := hspec
  -- the page is in neither the free list nor what is left of the address space
  have hnd : ({pa} + extent m' 4 root).Nodup := by
    have heq : {pa} + extent m' 4 root = extent m 4 root := by
      unfold extent
      rw [hfree, ← hframes]
      abel
    rw [heq]
    exact h.nodup
  rw [singleton_add, nodup_cons, mem_extent, not_or, not_or] at hnd
  obtain ⟨⟨hnfree, hnroot, hnframes⟩, -⟩ := hnd
  have hpa : IsFrame pa := by
    apply h.isFrame
    rw [extent, ← hframes]
    exact mem_add.2 (Or.inr (mem_add.2 (Or.inr (mem_add.2 (Or.inr (mem_singleton_self pa))))))
  obtain ⟨hfree', hpage'⟩ := pmmFree_spec hpa hnfree
  have htables : ∀ x ∈ tables m' 4 root, (pmmFree m' pa).page x = m'.page x := by
    intro x hx
    apply hpage'
    rintro rfl
    have hmem := mem_of_le (tables_le m' 4 root) hx
    rw [mem_add, mem_singleton] at hmem
    exact hmem.elim hnroot hnframes
  refine hdone ?_ (fun va' => (userEntry_congr htables va').trans (hentry va')) fun x hx hxt => ?_
  · rw [hfree', (frames_congr htables).1, hfree, ← hframes]
    abel
  rw [hpage' x, hout x hxt]
  rintro rfl
  apply hx
  rw [← mem_coe, hfree']
  exact mem_add.2 (Or.inl (mem_singleton_self x))

theorem Dropped.cons (h : Dropped m m' root va 1) (h' : Dropped m' m'' root (va + 4096) n) :
    Dropped m m'' root va (n + 1) := by
  have hone : ∀ va', InRange va 1 va' ↔ pageNo va' = pageNo va := fun va' => by
    unfold InRange
    simp
  refine ⟨h'.sep, fun va' hin => ?_, fun va' hout => ?_, fun x hx => ?_, h'.total.trans h.total⟩
  · by_cases hrest : InRange (va + 4096) n va'
    · exact h'.entry va' hrest
    · rw [h'.other va' hrest]
      exact h.entry va' ((hone va').2 ((inRange_succ.1 hin).resolve_right hrest))
  · rw [inRange_succ, not_or] at hout
    rw [h'.other va' hout.2, h.other va' fun hin => hout.1 ((hone va').1 hin)]
  · obtain ⟨hmem, hpage⟩ := h'.page x hx
    obtain ⟨hmem', hpage'⟩ := h.page x hmem
    exact ⟨hmem', hpage.trans hpage'⟩

theorem dropPages_spec (h : Sep m 4 root) (n va : Nat) :
    Dropped m (dropPages root n va m) root va n := by
  induction n generalizing m va with
  | zero =>
    exact ⟨h, fun _ ⟨i, hi, _⟩ => absurd hi (not_lt_zero i), fun _ _ => rfl,
      fun _ hx => ⟨hx, rfl⟩, rfl⟩
  | succ n ih =>
    have hfirst := dropPage_spec h va
    rw [dropPages]
    rcases hres : vmmUnmapPage m root va with ⟨_ | pa, m'⟩ <;> rw [hres] at hfirst
    · exact hfirst.cons (ih hfirst.sep (va + 4096))
    · exact hfirst.cons (ih hfirst.sep (va + 4096))

end

/-! ## When a range can be mapped -/

/-- The beginnings of a walk that lead to no table. -/
def missing (m : PhysMem) (l : List Nat) (t : Nat) : Finset (List Nat) :=
  l.inits.toFinset.filter fun p => walkTables m p t = none

/-- The tables on the way to `n` pages from `va` on that are missing, each by the indices that lead to it. -/
def missingTables (m : PhysMem) (root va n : Nat) : Finset (List Nat) :=
  (Finset.range n).biUnion fun i => missing m (tableIndices (va + 4096 * i)) root

/-- None of `n` pages from `va` on is mapped, and there are frames for the pages and the missing tables. -/
def CanMap (m : PhysMem) (root va n : Nat) : Prop :=
  (∀ i < n, userEntry m root (va + 4096 * i) = none) ∧ n + (missingTables m root va n).card ≤ m.free.length

section

variable {m m' s : PhysMem} {l p : List Nat} {i j t u v d root va n : Nat} {write exec : Bool}

theorem mem_missing : p ∈ missing m l t ↔ p <+: l ∧ walkTables m p t = none := by
  rw [missing, Finset.mem_filter, List.mem_toFinset, List.mem_inits]

theorem mem_missingTables :
    p ∈ missingTables m root va n ↔ ∃ i < n, p <+: tableIndices (va + 4096 * i) ∧ walkTables m p root = none := by
  simp only [missingTables, Finset.mem_biUnion, Finset.mem_range, mem_missing]

theorem card_inits (l : List Nat) : l.inits.toFinset.card = l.length + 1 := by
  induction l with
  | nil => rfl
  | cons i l ih =>
    have hmap : (l.inits.map (i :: ·)).toFinset = l.inits.toFinset.image (i :: ·) := by
      ext p
      simp
    rw [List.inits_cons, List.toFinset_cons, hmap, Finset.card_insert_of_notMem (by simp),
      Finset.card_image_of_injective _ (List.cons_injective), ih, List.length_cons]

/-- Behind an entry that is not valid everything is missing. -/
theorem card_missing_cons (m : PhysMem) (i : Nat) (l : List Nat) (t : Nat) : (missing m (i :: l) t).card =
    if pteValid (m.pte t i) then (missing m l (pteAddr (m.pte t i))).card else l.length + 1 := by
  have himage : missing m (i :: l) t = (if pteValid (m.pte t i) then missing m l (pteAddr (m.pte t i))
      else l.inits.toFinset).image (i :: ·) := by
    ext p
    rw [Finset.mem_image, mem_missing]
    cases p with
    | nil => simp [walkTables]
    | cons k p =>
      rw [List.cons_prefix_cons]
      constructor
      · rintro ⟨⟨rfl, hp⟩, hw⟩
        refine ⟨p, ?_, rfl⟩
        rw [walkTables] at hw
        split at hw <;> rename_i hv
        · rw [if_pos hv]
          exact mem_missing.2 ⟨hp, hw⟩
        · rw [if_neg hv]
          exact List.mem_toFinset.2 ((List.mem_inits _ _).2 hp)
      · rintro ⟨q, hq, e⟩
        obtain ⟨rfl, rfl⟩ := List.cons.inj e
        rw [walkTables]
        split at hq <;> rename_i hv
        · rw [if_pos hv]
          exact and_assoc.2 ⟨rfl, mem_missing.1 hq⟩
        · rw [if_neg hv]
          exact ⟨⟨rfl, (List.mem_inits _ _).1 (List.mem_toFinset.1 hq)⟩, rfl⟩
  rw [himage, Finset.card_image_of_injective _ List.cons_injective]
  split
  · rfl
  · exact card_inits l

/-- A walk can allocate its tables exactly when the free frames suffice for those that are missing. -/
theorem walkAlloc_room (his : ∀ i ∈ l, i < ptePerTable) (h : Sep m (l.length + 1) t) :
    ((walkAlloc l t m).1.isSome = true ↔ (missing m l t).card ≤ m.free.length) ∧
      ((walkAlloc l t m).1.isSome = true →
        (walkAlloc l t m).2.free.length + (missing m l t).card = m.free.length) := by
  induction l generalizing m t with
  | nil => simp [walkAlloc, missing, walkTables, Finset.filter_singleton]
  | cons i l ih =>
    have hil : ∀ k ∈ l, k < ptePerTable := fun k hk => his k (List.mem_cons_of_mem i hk)
    rw [card_missing_cons]
    by_cases hv : pteValid (m.pte t i) = true
    · rw [walkAlloc, if_pos hv, if_pos hv]
      exact ih hil (h.child (his i List.mem_cons_self) hv).2
    rw [if_neg hv]
    cases hal : pmmAlloc m with
    | none =>
      have hfree := pmmAlloc_eq_none_iff.1 hal
      simp [walkAlloc, hv, hal, hfree]
    | some r =>
      obtain ⟨pa, m1⟩ := r
      obtain ⟨-, -, -, hzero, hsep, -⟩ := newTable_spec (i := i) h hal
      have hfree := congrArg card (pmmAlloc_spec hal).1
      rw [card_add, card_singleton, coe_card, coe_card] at hfree
      -- the new table is empty: all tables below it are missing
      have hempty : (missing (m1.setPte t i (makeTableDesc pa)) l pa).card = l.length := by
        cases l with
        | nil => rfl
        | cons k l => rw [card_missing_cons, if_neg (by simp [pte_of_zero hzero]), List.length_cons]
      obtain ⟨hiff, hlen⟩ := ih hil hsep
      rw [hempty, setPte_free] at hiff hlen
      rw [walkAlloc_missing hv hal]
      cases hend : (walkAlloc l pa (m1.setPte t i (makeTableDesc pa))).1 with
      | none =>
        rw [hend] at hiff
        simp only [Option.isSome_none, Bool.false_eq_true, false_iff, false_imp_iff, and_true] at hiff ⊢
        omega
      | some w =>
        rw [hend] at hiff hlen
        have hle := hiff.1 rfl
        have hsum := hlen rfl
        exact ⟨iff_of_true rfl (by omega), fun _ => by dsimp only; omega⟩

theorem walkTables_congr (hp : p.length ≤ d) (his : ∀ i ∈ p, i < ptePerTable)
    (h : ∀ x ∈ tables m d t, s.page x = m.page x) : walkTables s p t = walkTables m p t := by
  induction p generalizing d t with
  | nil => rfl
  | cons i p ih =>
    obtain ⟨d, rfl⟩ := Nat.exists_eq_add_one.2 (lt_of_lt_of_le (succ_pos _) hp)
    have hpte := pte_congr (h t (mem_tables_self m d t)) i
    rw [walkTables, walkTables, hpte]
    split
    · rename_i hv
      refine ih (le_of_succ_le_succ hp) (fun k hk => his k (List.mem_cons_of_mem i hk)) fun x hx => h x ?_
      exact mem_of_le (tables_child_le (his i List.mem_cons_self) hv) hx
    · rfl

/-- A change at and below entry `i` leaves the walks through other entries alone. -/
theorem Local.walkTables (h : Local m s d t i) (hp : p.length ≤ d) (his : ∀ k ∈ j :: p, k < ptePerTable)
    (hne : j ≠ i) : Mm.walkTables s (j :: p) t = Mm.walkTables m (j :: p) t := by
  rw [Mm.walkTables, Mm.walkTables, h.pte j hne]
  split
  · rename_i hv
    exact walkTables_congr hp (fun k hk => his k (List.mem_cons_of_mem j hk))
      (h.tables j (his j List.mem_cons_self) hne hv)
  · rfl

/-- A walk that allocates, and then an entry in its last table: the tables on its way are there, and no
others have come. -/
theorem walkAlloc_tables (his : ∀ i ∈ l, i < ptePerTable) (h : Sep m (l.length + 1) t)
    (hu : (walkAlloc l t m).1 = some u) (hp : p.length ≤ l.length) (his' : ∀ i ∈ p, i < ptePerTable) :
    walkTables ((walkAlloc l t m).2.setPte u j v) p t = none ↔ walkTables m p t = none ∧ ¬ p <+: l := by
  induction l generalizing m t p with
  | nil =>
    rw [List.length_eq_zero_iff.1 (le_zero.1 hp)]
    simp [walkTables]
  | cons i l ih =>
    rw [List.length_cons] at h
    have hi := his i List.mem_cons_self
    have hil : ∀ k ∈ l, k < ptePerTable := fun k hk => his k (List.mem_cons_of_mem i hk)
    cases p with
    | nil => simp [walkTables]
    | cons k p =>
      have hp' := le_of_succ_le_succ hp
      have hkp : ∀ j ∈ p, j < ptePerTable := fun j hj => his' j (List.mem_cons_of_mem k hj)
      rw [List.cons_prefix_cons]
      by_cases hv : pteValid (m.pte t i) = true
      · rw [walkAlloc, if_pos hv] at hu ⊢
        have hsep := (h.child hi hv).2
        obtain ⟨hloc, hpte⟩ := Local.of_child (s := (walkAlloc l (pteAddr (m.pte t i)) m).2.setPte u j v) h hi hv
          fun x hx => walkAlloc_setPte_page hil hsep hu hx
        by_cases hki : k = i
        · subst hki
          rw [walkTables, walkTables, hpte, if_pos hv, if_pos hv, ih hil hsep hu hp' hkp]
          simp
        · rw [hloc.walkTables (le_succ_of_le hp') his' hki]
          simp [hki]
      obtain ⟨pa, m1, hal, hend, hmem⟩ := walkAlloc_linked hv hu
      obtain ⟨hpa, -, -, hzero, hsep, hafter⟩ := newTable_spec (i := i) h hal
      obtain ⟨hother, hself, hpage⟩ := hafter ((walkAlloc l pa (m1.setPte t i (makeTableDesc pa))).2.setPte u j v)
        fun x hx => walkAlloc_setPte_page hil hsep hend hx
      rw [hmem]
      by_cases hki : k = i
      · subst hki
        have hvalid := pteValid_tableDesc hpa
        rw [walkTables, walkTables, hself, if_pos hvalid, if_neg hv, pteAddr_tableDesc hpa,
          ih hil hsep hend hp' hkp]
        cases p with
        | nil => simp [walkTables]
        | cons j p => simp [walkTables, pte_of_zero hzero]
      · rw [(Local.of_free h hother hpage).walkTables (le_succ_of_le hp') his' hki]
        simp [hki]

theorem mem_prefix_lt (hp : p <+: tableIndices va) : ∀ i ∈ p, i < ptePerTable := fun i hi =>
  tableIndices_lt va i (hp.subset hi)

/-- A page can be mapped exactly when none is there and the frames suffice; it then takes these frames and adds
the tables on its way. -/
theorem newPage_room (h : Sep m 4 root) (va : Nat) (write exec : Bool) :
    ((newPage m root va write exec).1.isSome = true ↔
      userEntry m root va = none ∧ 1 + (missing m (tableIndices va) root).card ≤ m.free.length) ∧
    ((newPage m root va write exec).1.isSome = true →
      (newPage m root va write exec).2.free.length + (1 + (missing m (tableIndices va) root).card) = m.free.length ∧
        ∀ va' p, p <+: tableIndices va' → (walkTables (newPage m root va write exec).2 p root = none ↔
          walkTables m p root = none ∧ ¬ p <+: tableIndices va)) := by
  unfold newPage
  cases hal : pmmAlloc m with
  | none =>
    have hfree := pmmAlloc_eq_none_iff.1 hal
    simp [hfree]
  | some r =>
    obtain ⟨pa, m1⟩ := r
    obtain ⟨hheld, hsame⟩ := h.held hal
    have hfree := congrArg card (pmmAlloc_spec hal).1
    rw [card_add, card_singleton, coe_card, coe_card] at hfree
    have htables : ∀ x ∈ tables m 4 root, m1.page x = m.page x := fun x hx =>
      hsame x (mem_of_le (tables_le m 4 root) hx)
    have hwalks : ∀ va' p, p <+: tableIndices va' → walkTables m1 p root = walkTables m p root := fun va' p hp =>
      walkTables_congr (le_succ_of_le hp.length_le) (mem_prefix_lt hp) htables
    -- the frame of the page is taken first, and the walk then finds the same tables
    have hmissing : missing m1 (tableIndices va) root = missing m (tableIndices va) root := by
      ext p
      rw [mem_missing, mem_missing]
      exact and_congr_right fun hp => by rw [hwalks va p hp]
    have hentry : userEntry m1 root va = userEntry m root va := userEntry_congr htables va
    obtain ⟨hiff, hlen⟩ := walkAlloc_room (l := tableIndices va) (tableIndices_lt va) hheld.sep
    have hspec := walkAlloc_spec (l := tableIndices va) (tableIndices_lt va) hheld.sep
    have hlookup := fun u hu => walkAlloc_lookup (j := l3Index va) (l := tableIndices va) (u := u)
      (tableIndices_lt va) hheld.sep hu rfl (tableIndices_lt va)
    have hadds := fun u hu v p => walkAlloc_tables (j := l3Index va) (v := v) (p := p) (l := tableIndices va) (u := u)
      (tableIndices_lt va) hheld.sep hu
    rw [← userEntry_eq_lookup, ← userEntry_eq_lookup, hentry] at hlookup
    rw [hmissing] at hiff hlen
    dsimp only
    unfold vmmMapPage
    rcases hres : walkAlloc (tableIndices va) root m1 with ⟨_ | u, m2⟩ <;>
      rw [hres] at hiff hlen hspec hlookup hadds
    · simp only [Option.isSome_none, Bool.false_eq_true, false_iff, false_imp_iff, and_true] at hiff ⊢
      omega
    have hle := hiff.1 rfl
    have hsum := hlen rfl
    have hvalid : userEntry m2 root va = if pteValid (m2.pte u (l3Index va)) then
        some (m2.pte u (l3Index va)) else none := by
      unfold userEntry
      rw [hspec.2.1 u rfl]
      rfl
    rw [hlookup u rfl] at hvalid
    dsimp only at hsum ⊢
    by_cases hv : pteValid (m2.pte u (l3Index va)) = true
    · rw [if_pos hv] at hvalid
      simp [hv, hvalid]
    · rw [if_neg hv] at hvalid ⊢
      refine ⟨iff_of_true rfl ⟨hvalid, by omega⟩, fun _ => ⟨?_, fun va' p hp => ?_⟩⟩
      · show (m2.setPte u (l3Index va) _).free.length + _ = _
        rw [setPte_free]
        omega
      · rw [← hwalks va' p hp]
        exact hadds u rfl _ p hp.length_le (mem_prefix_lt hp)

theorem missingTables_succ (m : PhysMem) (root va n : Nat) : missingTables m root va (n + 1) =
    missingTables m root (va + 4096) n ∪ missing m (tableIndices va) root := by
  have hstep : ∀ i, va + 4096 * (i + 1) = va + 4096 + 4096 * i := fun i => by omega
  ext p
  rw [Finset.mem_union, mem_missingTables, mem_missingTables, mem_missing]
  constructor
  · rintro ⟨i, hi, hp⟩
    cases i with
    | zero => exact Or.inr hp
    | succ i => exact Or.inl ⟨i, lt_of_succ_lt_succ hi, hstep i ▸ hp⟩
  · rintro (⟨i, hi, hp⟩ | hp)
    · exact ⟨i + 1, succ_lt_succ hi, (hstep i).symm ▸ hp⟩
    · exact ⟨0, succ_pos n, hp⟩

/-- The loop maps all its pages exactly when they can be mapped. -/
theorem newPages_iff (write exec : Bool) (h : Sep m 4 root) (hn : n ≤ 2 ^ 36) :
    (newPages root write exec n va m).1 = true ↔ CanMap m root va n := by
  induction n generalizing m va with
  | zero => simp [newPages, CanMap, missingTables]
  | succ n ih =>
    obtain ⟨hiff, hafter⟩ := newPage_room h va write exec
    have hspec := newPage_spec h va write exec
    have hcard := Finset.card_sdiff_add_card (missingTables m root (va + 4096) n) (missing m (tableIndices va) root)
    have hstep : ∀ i, va + 4096 * (i + 1) = va + 4096 + 4096 * i := fun i => by omega
    unfold CanMap
    rw [missingTables_succ, newPages]
    rcases hnew : newPage m root va write exec with ⟨_ | pa, m'⟩ <;> rw [hnew] at hiff hafter hspec
    · simp only [Option.isSome_none, Bool.false_eq_true, false_iff, not_and, not_le] at hiff ⊢
      intro hall
      have hroom := hiff (hall 0 (succ_pos n))
      omega
    obtain ⟨hnone, hle⟩ := hiff.1 rfl
    obtain ⟨hfree, hwalks⟩ := hafter rfl
    -- behind the first page the tables on its way are there, and no others are new
    have hrest : missingTables m' root (va + 4096) n =
        missingTables m root (va + 4096) n \ missing m (tableIndices va) root := by
      ext p
      rw [Finset.mem_sdiff, mem_missingTables, mem_missingTables, mem_missing]
      constructor
      · rintro ⟨i, hi, hp, hw⟩
        obtain ⟨hw, hout⟩ := (hwalks _ p hp).1 hw
        exact ⟨⟨i, hi, hp, hw⟩, fun hin => hout hin.1⟩
      · rintro ⟨⟨i, hi, hp, hw⟩, hout⟩
        exact ⟨i, hi, hp, (hwalks _ p hp).2 ⟨hw, fun hin => hout ⟨hin, hw⟩⟩⟩
    have hentries : ∀ i < n, userEntry m' root (va + 4096 + 4096 * i) =
        userEntry m root (va + 4096 + 4096 * i) := by
      intro i hi
      rw [hspec.1.entry, if_neg]
      unfold pageNo
      omega
    rw [ih hspec.1.sep (by omega)]
    unfold CanMap
    rw [hrest]
    constructor
    · rintro ⟨hall, hroom⟩
      refine ⟨fun i hi => ?_, by dsimp only at hfree; omega⟩
      cases i with
      | zero => exact hnone
      | succ i =>
        have hi' := lt_of_succ_lt_succ hi
        rw [hstep, ← hentries i hi']
        exact hall i hi'
    · rintro ⟨hall, hroom⟩
      refine ⟨fun i hi => ?_, by dsimp only at hfree; omega⟩
      rw [hentries i hi, ← hstep]
      exact hall (i + 1) (succ_lt_succ hi)

end

end Slopix.Mm
