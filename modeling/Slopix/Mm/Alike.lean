import Slopix.Mm.World

/-!
# Address spaces of the same shape

`Alike m m' d t t'` says that the tables below `t` in `m` and below `t'` in `m'` have the same valid
entries. `walk` and `vmm_map_page` look at nothing else: on two address spaces that are alike, with
the same free list, they end in the same way, take the same frames and leave address spaces that are
alike again. The proof follows `walk` down one path in both trees; the other entries of a table stay
what they are because a change below one entry is `Local` to it.
-/

namespace Slopix.Mm

open Lib Multiset

/-- The tables with `d` levels below `t` in `m` and `t'` in `m'` have the same valid entries. -/
def Alike (m m' : PhysMem) : Nat → Nat → Nat → Prop
  | 0, _, _ => True
  | d + 1, t, t' => ∀ i < ptePerTable, pteValid (m'.pte t' i) = pteValid (m.pte t i) ∧
      (pteValid (m.pte t i) = true → Alike m m' d (pteAddr (m.pte t i)) (pteAddr (m'.pte t' i)))

/-- From `m` to `s` the table `t` and the tables below it change at most at and below entry `i`. -/
structure Local (m s : PhysMem) (d t i : Nat) : Prop where
  pte : ∀ j, j ≠ i → s.pte t j = m.pte t j
  tables : ∀ j < ptePerTable, j ≠ i → pteValid (m.pte t j) = true →
    ∀ x ∈ tables m d (pteAddr (m.pte t j)), s.page x = m.page x

section

variable {m m' s s' : PhysMem} {d t t' i : Nat}

theorem Copied.alike {d t : Nat} (h : Copied m m' d t t') : Alike m m' d t t' := by
  induction d generalizing t t' with
  | zero => trivial
  | succ d ih => exact fun i hi => ⟨(h i hi).1, fun hv => ih ((h i hi).2 hv).2⟩

theorem Alike.congr {d t : Nat} (h : Alike m m' d t t')
    (hs : ∀ x ∈ Mm.tables m d t, s.page x = m.page x)
    (hs' : ∀ x ∈ Mm.tables m' d t', s'.page x = m'.page x) : Alike s s' d t t' := by
  induction d generalizing t t' with
  | zero => trivial
  | succ d ih =>
    intro i hi
    rw [pte_congr (hs t (mem_tables_self m d t)), pte_congr (hs' t' (mem_tables_self m' d t'))]
    obtain ⟨hvalid, hbelow⟩ := h i hi
    refine ⟨hvalid, fun hv => ih (hbelow hv) (fun x hx => ?_) fun x hx => ?_⟩
    · exact hs x (mem_of_le (tables_child_le hi hv) hx)
    · exact hs' x (mem_of_le (tables_child_le hi (hvalid.trans hv)) hx)

/-- Two tables stay alike when both change in one entry. -/
theorem Alike.change (h : Alike m m' (d + 1) t t') (hs : Local m s d t i) (hs' : Local m' s' d t' i)
    (hvalid : pteValid (s'.pte t' i) = pteValid (s.pte t i))
    (hbelow : pteValid (s.pte t i) = true →
      Alike s s' d (pteAddr (s.pte t i)) (pteAddr (s'.pte t' i))) :
    Alike s s' (d + 1) t t' := by
  intro j hj
  by_cases hji : j = i
  · rw [hji]
    exact ⟨hvalid, hbelow⟩
  rw [hs.pte j hji, hs'.pte j hji]
  obtain ⟨hvalid', hbelow'⟩ := h j hj
  refine ⟨hvalid', fun hv => (hbelow' hv).congr (hs.tables j hj hji hv) ?_⟩
  exact hs'.tables j hj hji (hvalid'.trans hv)

/-- A change of the frames below one entry is local to it. -/
theorem Local.of_child (h : Sep m (d + 1) t) (hi : i < ptePerTable)
    (hv : pteValid (m.pte t i) = true)
    (hpage : ∀ x, x ∉ extent m d (pteAddr (m.pte t i)) → s.page x = m.page x) :
    Local m s d t i ∧ s.pte t i = m.pte t i := by
  have hout : ∀ x ∈ {t} + frames m (d + 1) t,
      x ∉ {pteAddr (m.pte t i)} + frames m d (pteAddr (m.pte t i)) → s.page x = m.page x := by
    intro x hx hx'
    apply hpage
    rw [mem_extent]
    rintro (hf | hrest)
    · exact h.notMem_free hx hf
    · exact hx' (by simpa using hrest)
  have hpte := pte_congr (hout t (mem_src m (d + 1) t) (nodup_child h.nodup_space hi hv).2)
  refine ⟨⟨fun j _ => hpte j, fun j hj hne hvj x hx => ?_⟩, hpte i⟩
  have hx' := mem_of_le (tables_le m d _) hx
  apply hout x (mem_add.2 (Or.inr (mem_of_le (entry_le_frames hj hvj) hx')))
  exact notMem_other_child h.nodup_space hj hi (Ne.symm hne) hvj hv hx'

/-- A change of free frames and of one entry of the table is local to that entry. -/
theorem Local.of_free (h : Sep m (d + 1) t) (hpte : ∀ j, j ≠ i → s.pte t j = m.pte t j)
    (hpage : ∀ x, x ∉ m.free → x ≠ t → s.page x = m.page x) : Local m s d t i := by
  refine ⟨hpte, fun j hj _ hv x hx => ?_⟩
  have hx' := mem_of_le (tables_le m d _) hx
  have hspace : x ∈ {t} + frames m (d + 1) t :=
    mem_add.2 (Or.inr (mem_of_le (entry_le_frames hj hv) hx'))
  apply hpage x (h.notMem_free hspace)
  intro e
  rw [e] at hx'
  exact (nodup_child h.nodup_space hj hv).2 hx'

end

/-! ## Walking -/

/-- The tables `u` and `u'` that two walks ended in: they have the same valid entries, and a new entry
in both keeps the trees they are part of alike. -/
def Ends (d t t' : Nat) (n n' : PhysMem) (u u' : Nat) : Prop :=
  ∀ j < ptePerTable, pteValid (n'.pte u' j) = pteValid (n.pte u j) ∧
    ∀ v v', v < 2 ^ 64 → v' < 2 ^ 64 → pteValid v = true → pteValid v' = true →
      Alike (n.setPte u j v) (n'.setPte u' j v') d t t'

/-- Two walks that went the same way. -/
structure Walked (d t t' : Nat) (r r' : Option Nat × PhysMem) : Prop where
  free : r'.2.free = r.2.free
  alike : Alike r.2 r'.2 d t t'
  isSome : r'.1.isSome = r.1.isSome
  ends : ∀ u u', r.1 = some u → r'.1 = some u' → Ends d t t' r.2 r'.2 u u'

section

variable {m m' : PhysMem}

theorem pmmAlloc_same (hfree : m'.free = m.free) :
    (pmmAlloc m = none ∧ pmmAlloc m' = none) ∨
      ∃ pa n n', pmmAlloc m = some (pa, n) ∧ pmmAlloc m' = some (pa, n') ∧ n'.free = n.free := by
  unfold pmmAlloc
  rw [hfree]
  cases m.free with
  | nil => exact Or.inl ⟨rfl, rfl⟩
  | cons pa rest => exact Or.inr ⟨pa, _, _, rfl, rfl, rfl⟩

variable {u t' : Nat} {m1 : PhysMem}

theorem walkAlloc_end_mem {l : List Nat} {t : Nat} (his : ∀ i ∈ l, i < ptePerTable)
    (h : Sep m (l.length + 1) t) (hu : (walkAlloc l t m).1 = some u) :
    u ∈ extent m (l.length + 1) t := by
  obtain ⟨hm, hpath, -, -⟩ := walkAlloc_spec his h
  rw [← hm.extent]
  exact mem_add.2 (Or.inr (mem_of_le (tables_le _ _ _) (walkTables_mem his (hpath u hu))))

/-- A new entry at the end of a walk changes nothing outside the tables and the free list. -/
theorem walkAlloc_setPte_page {l : List Nat} {t j v : Nat} (his : ∀ i ∈ l, i < ptePerTable)
    (h : Sep m (l.length + 1) t) (hu : (walkAlloc l t m).1 = some u) {x : Nat}
    (hx : x ∉ extent m (l.length + 1) t) :
    ((walkAlloc l t m).2.setPte u j v).page x = m.page x := by
  rw [setPte_page_of_ne (ne_of_mem_of_not_mem (walkAlloc_end_mem his h hu) hx).symm]
  exact (walkAlloc_spec his h).1.page x hx

theorem pmmFree_page {pa x : Nat} (hx : x ≠ pa) : (pmmFree m pa).page x = m.page x := by
  unfold pmmFree
  split
  · cases insertFree pa m.free with
    | none => rfl
    | some free => exact PhysMem.zeroPage_page_of_ne hx
  · rfl

theorem pmmFree_same (pa : Nat) (hfree : m'.free = m.free) :
    (pmmFree m' pa).free = (pmmFree m pa).free := by
  unfold pmmFree
  rw [hfree]
  split
  · cases insertFree pa m.free with
    | none => exact hfree
    | some free => rfl
  · exact hfree

theorem alike_of_zero {d t : Nat} (h : m.page t = fun _ => 0) (h' : m'.page t' = fun _ => 0) :
    Alike m m' d t t' := by
  cases d with
  | zero => trivial
  | succ d =>
    intro i _
    rw [pte_of_zero h, pte_of_zero h']
    exact ⟨rfl, fun hv => by cases hv⟩

/-- A new table, linked into entry `i` of `t`: it is apart from everything in use, and what happens to
it later touches nothing else in use. -/
theorem newTable_spec {d t i pa : Nat} (h : Sep m (d + 2) t)
    (hal : pmmAlloc m = some (pa, m1)) :
    IsFrame pa ∧ t ≠ pa ∧ pa ∈ m.free ∧ (m1.setPte t i (makeTableDesc pa)).page pa = (fun _ => 0) ∧
      Sep (m1.setPte t i (makeTableDesc pa)) (d + 1) pa ∧
      ∀ s : PhysMem, (∀ x, x ∉ extent (m1.setPte t i (makeTableDesc pa)) (d + 1) pa →
          s.page x = (m1.setPte t i (makeTableDesc pa)).page x) →
        (∀ j, j ≠ i → s.pte t j = m.pte t j) ∧ s.pte t i = makeTableDesc pa ∧
          ∀ x, x ∉ m.free → x ≠ t → s.page x = m.page x := by
  obtain ⟨hfree, hzero, hpage⟩ := pmmAlloc_spec hal
  have hpamem : pa ∈ m.free := mem_free_of_alloc hal
  have hpa : IsFrame pa := h.isFrame pa (mem_extent.2 (Or.inl hpamem))
  have htpa : t ≠ pa := (ne_of_mem_of_not_mem hpamem h.root_notMem).symm
  have hzero2 : (m1.setPte t i (makeTableDesc pa)).page pa = fun _ => 0 := by
    rw [setPte_page_of_ne (Ne.symm htpa), hzero]
  have hext : extent (m1.setPte t i (makeTableDesc pa)) (d + 1) pa = (m.free : Multiset Nat) := by
    rw [extent_eq, frames_of_zero _ hzero2, add_zero, setPte_free, hfree]
  refine ⟨hpa, htpa, hpamem, hzero2, ⟨?_, fun x hx => ?_⟩, fun s hs => ?_⟩
  · rw [hext]
    exact (nodup_add.1 h.nodup).1
  · rw [hext] at hx
    exact h.isFrame x (mem_extent.2 (Or.inl (mem_coe.1 hx)))
  rw [hext] at hs
  have htable : ∀ j, s.pte t j = (m1.setPte t i (makeTableDesc pa)).pte t j :=
    pte_congr (hs t fun hx => h.root_notMem (mem_coe.1 hx))
  refine ⟨fun j hj => ?_, ?_, fun x hx hxt => ?_⟩
  · rw [htable, pte_setPte_of_ne hj, pte_congr (hpage t htpa) j]
  · rw [htable, pte_setPte_self (makeTableDesc_lt hpa)]
  · rw [hs x fun hx' => hx (mem_coe.1 hx'), setPte_page_of_ne hxt,
      hpage x (ne_of_mem_of_not_mem hpamem hx).symm]

/-- Below an entry that is valid in both trees the walks went the same way. -/
theorem Walked.below {l : List Nat} {t i : Nat} (his : ∀ j ∈ l, j < ptePerTable)
    (h : Sep m (l.length + 2) t) (h' : Sep m' (l.length + 2) t') (hi : i < ptePerTable)
    (halike : Alike m m' (l.length + 2) t t') (hv : pteValid (m.pte t i) = true)
    (hw : Walked (l.length + 1) (pteAddr (m.pte t i)) (pteAddr (m'.pte t' i))
      (walkAlloc l (pteAddr (m.pte t i)) m) (walkAlloc l (pteAddr (m'.pte t' i)) m')) :
    Walked (l.length + 2) t t' (walkAlloc l (pteAddr (m.pte t i)) m)
      (walkAlloc l (pteAddr (m'.pte t' i)) m') := by
  have hv' := (halike i hi).1.trans hv
  have hsep := (h.child hi hv).2
  have hsep' := (h'.child hi hv').2
  -- whatever both sides store below the entry, the tables are alike when they are below it
  have hchange : ∀ s s' : PhysMem,
      (∀ x, x ∉ extent m (l.length + 1) (pteAddr (m.pte t i)) → s.page x = m.page x) →
      (∀ x, x ∉ extent m' (l.length + 1) (pteAddr (m'.pte t' i)) → s'.page x = m'.page x) →
      Alike s s' (l.length + 1) (pteAddr (m.pte t i)) (pteAddr (m'.pte t' i)) →
      Alike s s' (l.length + 2) t t' := by
    intro s s' hs hs' hbelow
    obtain ⟨hloc, hpte⟩ := Local.of_child h hi hv hs
    obtain ⟨hloc', hpte'⟩ := Local.of_child h' hi hv' hs'
    apply halike.change hloc hloc'
    · rw [hpte, hpte']
      exact (halike i hi).1
    · intro _
      rw [hpte, hpte']
      exact hbelow
  refine ⟨hw.free, ?_, hw.isSome, fun u u' hu hu' j hj => ?_⟩
  · exact hchange _ _ (walkAlloc_spec his hsep).1.page (walkAlloc_spec his hsep').1.page hw.alike
  obtain ⟨hsame, hset⟩ := hw.ends u u' hu hu' j hj
  refine ⟨hsame, fun v v' hlt hlt' hvv hvv' => ?_⟩
  exact hchange _ _ (fun x hx => walkAlloc_setPte_page his hsep hu hx)
    (fun x hx => walkAlloc_setPte_page his hsep' hu' hx) (hset v v' hlt hlt' hvv hvv')

/-- A walk through a missing entry: a new table, and all of it back when the rest fails. -/
theorem walkAlloc_missing {l : List Nat} {t i pa : Nat}
    (hinv : ¬ pteValid (m.pte t i) = true) (hal : pmmAlloc m = some (pa, m1)) :
    walkAlloc (i :: l) t m =
      match (walkAlloc l pa (m1.setPte t i (makeTableDesc pa))).1 with
      | some u => (some u, (walkAlloc l pa (m1.setPte t i (makeTableDesc pa))).2)
      | none =>
        (none, pmmFree ((walkAlloc l pa (m1.setPte t i (makeTableDesc pa))).2.setPte t i 0) pa) := by
  rw [walkAlloc, if_neg hinv, hal]
  dsimp only
  rcases walkAlloc l pa (m1.setPte t i (makeTableDesc pa)) with ⟨_ | u, m2⟩ <;> rfl

/-- A walk that succeeds through a missing entry goes on in a new table. -/
theorem walkAlloc_linked {l : List Nat} {t i : Nat} (hinv : ¬ pteValid (m.pte t i) = true)
    (hu : (walkAlloc (i :: l) t m).1 = some u) : ∃ pa m1, pmmAlloc m = some (pa, m1) ∧
      (walkAlloc l pa (m1.setPte t i (makeTableDesc pa))).1 = some u ∧
      (walkAlloc (i :: l) t m).2 = (walkAlloc l pa (m1.setPte t i (makeTableDesc pa))).2 := by
  cases hal : pmmAlloc m with
  | none =>
    rw [walkAlloc, if_neg hinv, hal] at hu
    cases hu
  | some r =>
    obtain ⟨pa, m1⟩ := r
    refine ⟨pa, m1, rfl, ?_⟩
    rw [walkAlloc_missing hinv hal] at hu ⊢
    cases hend : (walkAlloc l pa (m1.setPte t i (makeTableDesc pa))).1 with
    | none =>
      rw [hend] at hu
      cases hu
    | some w =>
      rw [hend] at hu
      exact ⟨hu, rfl⟩

/-- Below a table that is new in both trees the walks went the same way. -/
theorem Walked.missing {m1' : PhysMem} {l : List Nat} {t i pa : Nat}
    (his : ∀ j ∈ l, j < ptePerTable) (h : Sep m (l.length + 2) t) (h' : Sep m' (l.length + 2) t')
    (halike : Alike m m' (l.length + 2) t t') (hi : i < ptePerTable)
    (hinv : ¬ pteValid (m.pte t i) = true) (hal : pmmAlloc m = some (pa, m1))
    (hal' : pmmAlloc m' = some (pa, m1'))
    (hw : Walked (l.length + 1) pa pa (walkAlloc l pa (m1.setPte t i (makeTableDesc pa)))
      (walkAlloc l pa (m1'.setPte t' i (makeTableDesc pa)))) :
    Walked (l.length + 2) t t' (walkAlloc (i :: l) t m) (walkAlloc (i :: l) t' m') := by
  obtain ⟨hpa, htpa, hmem, -, hsep, hafter⟩ := newTable_spec (i := i) h hal
  obtain ⟨-, htpa', hmem', -, hsep', hafter'⟩ := newTable_spec (i := i) h' hal'
  have hinv' : ¬ pteValid (m'.pte t' i) = true := by
    rw [(halike i hi).1]
    exact hinv
  -- the new table stays linked
  have hlinked : ∀ s s' : PhysMem,
      (∀ x, x ∉ extent (m1.setPte t i (makeTableDesc pa)) (l.length + 1) pa →
        s.page x = (m1.setPte t i (makeTableDesc pa)).page x) →
      (∀ x, x ∉ extent (m1'.setPte t' i (makeTableDesc pa)) (l.length + 1) pa →
        s'.page x = (m1'.setPte t' i (makeTableDesc pa)).page x) →
      Alike s s' (l.length + 1) pa pa → Alike s s' (l.length + 2) t t' := by
    intro s s' hs hs' hbelow
    obtain ⟨hother, hentry, hold⟩ := hafter s hs
    obtain ⟨hother', hentry', hold'⟩ := hafter' s' hs'
    apply halike.change (Local.of_free h hother hold) (Local.of_free h' hother' hold')
    · rw [hentry, hentry']
    · intro _
      rw [hentry, hentry', pteAddr_tableDesc hpa]
      exact hbelow
  have hpage := (walkAlloc_spec his hsep).1.page
  have hpage' := (walkAlloc_spec his hsep').1.page
  rw [walkAlloc_missing hinv hal, walkAlloc_missing hinv' hal']
  cases hu : (walkAlloc l pa (m1.setPte t i (makeTableDesc pa))).1 with
  | some u =>
    obtain ⟨u', hu'⟩ := Option.isSome_iff_exists.1 (hw.isSome.trans (by rw [hu]; rfl))
    rw [hu']
    refine ⟨hw.free, hlinked _ _ hpage hpage' hw.alike, rfl, ?_⟩
    rintro v v' hv hv' j hj
    cases hv
    cases hv'
    obtain ⟨hsame, hset⟩ := hw.ends u u' hu hu' j hj
    refine ⟨hsame, fun e e' hlt hlt' hve hve' => ?_⟩
    exact hlinked _ _ (fun x hx => walkAlloc_setPte_page his hsep hu hx)
      (fun x hx => walkAlloc_setPte_page his hsep' hu' hx) (hset e e' hlt hlt' hve hve')
  | none =>
    have hu' : (walkAlloc l pa (m1'.setPte t' i (makeTableDesc pa))).1 = none := by
      have hsome := hw.isSome
      rw [hu] at hsome
      simpa using hsome
    rw [hu']
    obtain ⟨hother, -, hold⟩ := hafter _ hpage
    obtain ⟨hother', -, hold'⟩ := hafter' _ hpage'
    refine ⟨pmmFree_same pa hw.free, ?_, rfl, fun u u' hv => by cases hv⟩
    have hcleared : ∀ n : PhysMem, ∀ r, r ≠ pa →
        (pmmFree (n.setPte r i 0) pa).pte r i = 0 := fun n r hr => by
      rw [pte_congr (pmmFree_page hr), pte_setPte_self (by decide)]
    have hrest : ∀ n : PhysMem, ∀ r, r ≠ pa → ∀ j, j ≠ i →
        (pmmFree (n.setPte r i 0) pa).pte r j = n.pte r j := fun n r hr j hj => by
      rw [pte_congr (pmmFree_page hr), pte_setPte_of_ne hj]
    have hout : ∀ n : PhysMem, ∀ r x, x ≠ r → x ≠ pa →
        (pmmFree (n.setPte r i 0) pa).page x = n.page x := fun n r x hr hx => by
      rw [pmmFree_page hx, setPte_page_of_ne hr]
    apply halike.change (i := i) (Local.of_free h
      (fun j hj => (hrest _ t htpa j hj).trans (hother j hj)) fun x hx hxt =>
        (hout _ t x hxt (ne_of_mem_of_not_mem hmem hx).symm).trans (hold x hx hxt))
      (Local.of_free h' (fun j hj => (hrest _ t' htpa' j hj).trans (hother' j hj)) fun x hx hxt =>
        (hout _ t' x hxt (ne_of_mem_of_not_mem hmem' hx).symm).trans (hold' x hx hxt))
    · rw [hcleared _ t htpa, hcleared _ t' htpa']
    · intro hv
      rw [hcleared _ t htpa] at hv
      cases hv

/-- `walk` goes the same way in two address spaces that are alike. -/
theorem walkAlloc_alike {l : List Nat} {t : Nat} (his : ∀ i ∈ l, i < ptePerTable)
    (h : Sep m (l.length + 1) t) (h' : Sep m' (l.length + 1) t') (hfree : m'.free = m.free)
    (halike : Alike m m' (l.length + 1) t t') :
    Walked (l.length + 1) t t' (walkAlloc l t m) (walkAlloc l t' m') := by
  induction l generalizing m m' t t' with
  | nil =>
    refine ⟨hfree, halike, rfl, ?_⟩
    rintro u u' hu hu' j hj
    cases hu
    cases hu'
    refine ⟨(halike j hj).1, fun v v' hlt hlt' hv hv' => ?_⟩
    have hloc : ∀ (n : PhysMem) (r e : Nat), Local n (n.setPte r j e) 0 r j := fun n r e =>
      ⟨fun i hi => pte_setPte_of_ne hi, fun _ _ _ _ x hx => absurd hx (notMem_zero x)⟩
    apply halike.change (hloc m t v) (hloc m' t' v')
    · rw [pte_setPte_self hlt, pte_setPte_self hlt', hv, hv']
    · exact fun _ => trivial
  | cons i l ih =>
    have hi := his i List.mem_cons_self
    have his' : ∀ j ∈ l, j < ptePerTable := fun j hj => his j (List.mem_cons_of_mem i hj)
    by_cases hv : pteValid (m.pte t i) = true
    · have hv' := (halike i hi).1.trans hv
      rw [walkAlloc, if_pos hv, walkAlloc, if_pos hv']
      exact Walked.below his' h h' hi halike hv
        (ih his' (h.child hi hv).2 (h'.child hi hv').2 hfree ((halike i hi).2 hv))
    rcases pmmAlloc_same hfree with ⟨hal, hal'⟩ | ⟨pa, m1, m1', hal, hal', hfree1⟩
    · have hv' : ¬ pteValid (m'.pte t' i) = true := by
        rw [(halike i hi).1]
        exact hv
      rw [walkAlloc, if_neg hv, walkAlloc, if_neg hv', hal, hal']
      exact ⟨hfree, halike, rfl, fun u u' hu => by cases hu⟩
    obtain ⟨-, -, -, hzero, hsep, -⟩ := newTable_spec (i := i) h hal
    obtain ⟨-, -, -, hzero', hsep', -⟩ := newTable_spec (i := i) h' hal'
    exact Walked.missing his' h h' halike hi hv hal hal'
      (ih his' hsep hsep' hfree1 (alike_of_zero hzero hzero'))

end

/-! ## Mapping -/

/-- Two address spaces that are alike, in memories with the same free list. -/
structure Twins (m m' : PhysMem) (t t' : Nat) : Prop where
  sep : Sep m 4 t
  sep' : Sep m' 4 t'
  free : m'.free = m.free
  alike : Alike m m' 4 t t'

/-- A new page, mapped at `va`; given back when it cannot be mapped. -/
def newPage (m : PhysMem) (t va : Nat) (write exec : Bool) : Option Nat × PhysMem :=
  match pmmAlloc m with
  | none => (none, m)
  | some (pa, m1) =>
    match vmmMapPage m1 t va pa write exec with
    | (true, m2) => (some pa, m2)
    | (false, m2) => (none, pmmFree m2 pa)

section

variable {m m' m1 : PhysMem} {t t' pa : Nat}

theorem vmmMapPage_alike (h : Twins m m' t t') (hpa : IsFrame pa) (va : Nat) (write exec : Bool) :
    (vmmMapPage m' t' va pa write exec).1 = (vmmMapPage m t va pa write exec).1 ∧
      (vmmMapPage m' t' va pa write exec).2.free = (vmmMapPage m t va pa write exec).2.free ∧
      Alike (vmmMapPage m t va pa write exec).2 (vmmMapPage m' t' va pa write exec).2 4 t t' := by
  have hw : Walked 4 t t' _ _ := walkAlloc_alike (l := tableIndices va) (tableIndices_lt va) h.sep h.sep'
    h.free h.alike
  unfold vmmMapPage
  rcases hres : walkAlloc (tableIndices va) t m with ⟨_ | u, n⟩ <;>
    rcases hres' : walkAlloc (tableIndices va) t' m' with ⟨_ | u', n'⟩ <;> rw [hres, hres'] at hw
  · exact ⟨rfl, hw.free, hw.alike⟩
  · cases hw.isSome
  · cases hw.isSome
  obtain ⟨hsame, hset⟩ := hw.ends u u' rfl rfl (l3Index va) (l3Index_lt va)
  dsimp only at hsame hset ⊢
  rw [hsame]
  split
  · exact ⟨rfl, hw.free, hw.alike⟩
  · have hlt := makePageDescUser_lt hpa write exec
    have hvalid := pteValid_pageDesc hpa write exec
    exact ⟨rfl, hw.free, hset _ _ hlt hlt hvalid hvalid⟩

/-- A frame taken from the free list changes nothing in the address space. -/
theorem Sep.alloc (h : Sep m 4 t) (hal : pmmAlloc m = some (pa, m1)) :
    IsFrame pa ∧ Sep m1 4 t ∧ extent m 4 t = {pa} + extent m1 4 t ∧
      ∀ x ∈ {t} + frames m 4 t, m1.page x = m.page x := by
  obtain ⟨hfree, -, hpage⟩ := pmmAlloc_spec hal
  have hmem : pa ∈ m.free := mem_free_of_alloc hal
  have hsame : ∀ x ∈ {t} + frames m 4 t, m1.page x = m.page x := fun x hx =>
    hpage x (ne_of_mem_of_not_mem hmem (h.notMem_free hx)).symm
  have hext : extent m 4 t = {pa} + extent m1 4 t := by
    unfold extent
    rw [hfree, (frames_congr fun x hx => hsame x (mem_of_le (tables_le m 4 t) hx)).1]
    abel
  have hle : extent m1 4 t ≤ extent m 4 t := by
    rw [hext]
    exact Multiset.le_add_left _ _
  refine ⟨h.isFrame pa (mem_extent.2 (Or.inl hmem)), ⟨?_, fun x hx => ?_⟩, hext, hsame⟩
  · exact nodup_of_le hle h.nodup
  · exact h.isFrame x (mem_of_le hle hx)

/-- A new page keeps the tables apart. -/
theorem Sep.newPage (h : Sep m 4 t) (hal : pmmAlloc m = some (pa, m1)) (va : Nat) (write exec : Bool)
    (hmap : (vmmMapPage m1 t va pa write exec).1 = true) :
    Sep (vmmMapPage m1 t va pa write exec).2 4 t := by
  obtain ⟨hpa, hsep, hext, -⟩ := h.alloc hal
  have htotal := (vmmMapPage_spec hsep hpa va write exec).1
  rw [if_pos hmap] at htotal
  have hsame : extent (vmmMapPage m1 t va pa write exec).2 4 t = extent m 4 t := by
    rw [hext, extent_eq, htotal, extent_eq]
    abel
  constructor
  · rw [hsame]
    exact h.nodup
  · rw [hsame]
    exact h.isFrame

/-- A new page is mapped in both address spaces or in none, and they stay alike. -/
theorem Twins.newPage (h : Twins m m' t t') (va : Nat) (write exec : Bool) :
    (Mm.newPage m' t' va write exec).1 = (Mm.newPage m t va write exec).1 ∧
      ((Mm.newPage m t va write exec).1.isSome = true →
        Twins (Mm.newPage m t va write exec).2 (Mm.newPage m' t' va write exec).2 t t') := by
  unfold Mm.newPage
  rcases pmmAlloc_same h.free with ⟨hal, hal'⟩ | ⟨pa, m1, m1', hal, hal', hfree⟩
  · rw [hal, hal']
    exact ⟨rfl, fun hs => by cases hs⟩
  obtain ⟨hpa, hsep, -, hsame⟩ := h.sep.alloc hal
  obtain ⟨-, hsep', -, hsame'⟩ := h.sep'.alloc hal'
  have htwins : Twins m1 m1' t t' :=
    ⟨hsep, hsep', hfree, h.alike.congr
      (fun x hx => hsame x (mem_of_le (tables_le m 4 t) hx))
      fun x hx => hsame' x (mem_of_le (tables_le m' 4 t') hx)⟩
  obtain ⟨hok, hfree2, halike⟩ := vmmMapPage_alike htwins hpa va write exec
  have hkeep := h.sep.newPage hal va write exec
  have hkeep' := h.sep'.newPage hal' va write exec
  rw [hal, hal']
  dsimp only
  rcases hm : vmmMapPage m1 t va pa write exec with ⟨ok, m2⟩
  rcases hm' : vmmMapPage m1' t' va pa write exec with ⟨ok', m2'⟩
  rw [hm, hm'] at hok hfree2 halike
  rw [hm] at hkeep
  rw [hm'] at hkeep'
  obtain rfl : ok' = ok := hok
  cases ok' with
  | true => exact ⟨rfl, fun _ => ⟨hkeep rfl, hkeep' rfl, hfree2, halike⟩⟩
  | false => exact ⟨rfl, fun hs => by cases hs⟩

end

end Slopix.Mm
