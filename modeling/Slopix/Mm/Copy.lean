import Slopix.Mm.Space

/-!
# Copying an address space

`copywalk` fills an empty table with a copy of another one. `Copied m m' d a a'` says that the tree
below `a'` in `m'` is a copy of the tree below `a` in `m`: the same entries are valid, user pages have
the same bytes and their entries the same permissions and attributes. The proof carries an invariant
over the entries of a table: the new frames come from the free list, and nothing that was in use
changes.
-/

namespace Slopix.Mm

open Lib Multiset Or

/-- The tree with `d` levels below `a'` in `m'` is a copy of the one below `a` in `m`. -/
def Copied (m m' : PhysMem) : Nat → Nat → Nat → Prop
  | 0, a, a' => m'.page a' = m.page a
  | d + 1, a, a' => ∀ i < ptePerTable, pteValid (m'.pte a' i) = pteValid (m.pte a i) ∧
      (pteValid (m.pte a i) = true →
        (d = 0 → pteFlags (m'.pte a' i) = pteFlags (m.pte a i)) ∧
          Copied m m' d (pteAddr (m.pte a i)) (pteAddr (m'.pte a' i)))

variable {m : PhysMem} {dst src : Nat}

theorem entry_le_frames {d t i : Nat} (hi : i < ptePerTable)
    (hv : pteValid (m.pte t i) = true) :
    {pteAddr (m.pte t i)} + frames m d (pteAddr (m.pte t i)) ≤ frames m (d + 1) t := by
  have hle := le_sum_range (f := fun i => entryFrames (frames m d) (m.pte t i)) hi
  simp only [entryFrames_of_valid hv] at hle
  exact hle

section

variable {m m' s : PhysMem}

theorem Copied.congr_right {d a a' : Nat} (hval : ∀ x ∈ {a'} + frames m' d a', s.page x = m'.page x)
    (h : Copied m m' d a a') : Copied m s d a a' := by
  induction d generalizing a a' with
  | zero =>
    rw [Copied] at h ⊢
    rw [hval a' (by simp), h]
  | succ d ih =>
    intro i hi
    have hpte : s.pte a' i = m'.pte a' i :=
      pte_congr (hval a' (mem_add.2 (inl (mem_singleton_self a')))) i
    rw [hpte]
    obtain ⟨hv, hrest⟩ := h i hi
    refine ⟨hv, fun hvi => ⟨(hrest hvi).1, ih (fun x hx => ?_) (hrest hvi).2⟩⟩
    apply hval
    exact mem_add.2 (inr (mem_of_le (entry_le_frames hi (hv.trans hvi)) hx))

/-- A copy of a tree is a copy of every tree with the same pages. -/
theorem Copied.congr_left {d a a' : Nat} (hval : ∀ x ∈ {a} + frames m d a, s.page x = m.page x)
    (h : Copied s m' d a a') : Copied m m' d a a' := by
  induction d generalizing a a' with
  | zero =>
    rw [Copied] at h ⊢
    rw [← hval a (by simp), h]
  | succ d ih =>
    intro i hi
    have hpte : s.pte a i = m.pte a i :=
      pte_congr (hval a (mem_add.2 (inl (mem_singleton_self a)))) i
    have hi' := h i hi
    rw [hpte] at hi'
    refine ⟨hi'.1, fun hvi => ⟨(hi'.2 hvi).1, ih (fun x hx => ?_) (hi'.2 hvi).2⟩⟩
    apply hval
    exact mem_add.2 (inr (mem_of_le (entry_le_frames hi hvi) hx))

end

/-- What is needed before a copy: the free list, the new table and the old tree are disjoint, and the
new table is empty. -/
structure CopyPre (m : PhysMem) (d dst src : Nat) : Prop where
  nodup : ((m.free : Multiset Nat) + ({dst} + ({src} + frames m d src))).Nodup
  isFrame : ∀ x ∈ m.free, IsFrame x
  empty : m.page dst = fun _ => 0

/-- After `k` entries: the frames of the copy come from the free list of `m`, what was in use has not
changed, and the entries from `k` on are still empty. -/
structure Filled (m : PhysMem) (d dst k : Nat) (s : PhysMem) : Prop where
  total : (m.free : Multiset Nat) = (s.free : Multiset Nat) +
    ∑ i ∈ Finset.range k, entryFrames (frames s d) (s.pte dst i)
  page : ∀ x, x ∉ m.free → x ≠ dst → s.page x = m.page x
  rest : ∀ i, k ≤ i → s.pte dst i = 0

section

variable {m s s' : PhysMem} {d dst src k : Nat}

theorem CopyPre.dst_notMem (h : CopyPre m d dst src) : dst ∉ m.free := fun hmem =>
  disjoint_left.1 (nodup_add.1 h.nodup).2.2 (mem_coe.2 hmem)
    (mem_add.2 (inl (mem_singleton_self dst)))

theorem CopyPre.src_notMem (h : CopyPre m d dst src) {x : Nat} (hx : x ∈ {src} + frames m d src) :
    x ∉ m.free ∧ x ≠ dst := by
  obtain ⟨-, hrest, hdis⟩ := nodup_add.1 h.nodup
  constructor
  · exact fun hmem => disjoint_left.1 hdis (mem_coe.2 hmem)
      (mem_add.2 (inr hx))
  · intro e
    rw [e] at hx
    exact disjoint_left.1 (nodup_add.1 hrest).2.2 (mem_singleton_self dst) hx

theorem Filled.start (h : CopyPre m (d + 1) dst src) : Filled m d dst 0 m where
  total := (add_zero _).symm
  page _ _ _ := rfl
  rest i _ := pte_of_zero h.empty i

theorem Filled.free_le (hf : Filled m d dst k s) {x : Nat} (hx : x ∈ s.free) : x ∈ m.free := by
  rw [← mem_coe, hf.total]
  exact mem_add.2 (inl (mem_coe.2 hx))

/-- With all entries behind `k` empty, the first `k` entries are the whole table. -/
theorem Filled.frames_eq (hf : Filled m d dst k s) (hk : k ≤ ptePerTable) :
    (m.free : Multiset Nat) = (s.free : Multiset Nat) + frames s (d + 1) dst := by
  have hsum : ∑ i ∈ Finset.range k, entryFrames (frames s d) (s.pte dst i) = frames s (d + 1) dst := by
    apply Finset.sum_subset (Finset.range_mono hk)
    intro i _ hi
    rw [hf.rest i (by simpa using hi)]
    exact entryFrames_of_invalid (by decide)
  rw [hf.total, hsum]

/-- A page below one of the first `k` entries is neither free nor the table itself. -/
theorem Filled.used {i : Nat} (h : CopyPre m (d + 1) dst src) (hf : Filled m d dst k s) (hi : i < k)
    (hv : pteValid (s.pte dst i) = true) {x : Nat}
    (hx : x ∈ {pteAddr (s.pte dst i)} + frames s d (pteAddr (s.pte dst i))) :
    x ∉ s.free ∧ x ≠ dst := by
  have hle := le_sum_range (f := fun i => entryFrames (frames s d) (s.pte dst i)) hi
  simp only [entryFrames_of_valid hv] at hle
  have hmem := mem_of_le hle hx
  have hnd := (nodup_add.1 h.nodup).1
  rw [hf.total, nodup_add] at hnd
  constructor
  · exact fun hfree => disjoint_left.1 hnd.2.2 (mem_coe.2 hfree) hmem
  have hxm : x ∈ (m.free : Multiset Nat) := by
    rw [hf.total]
    exact mem_add.2 (inr hmem)
  exact ne_of_mem_of_not_mem (mem_coe.1 hxm) h.dst_notMem

/-- One more entry of the copy. -/
theorem Filled.step (h : CopyPre m (d + 1) dst src) (hf : Filled m d dst k s)
    (hpte : ∀ i, i ≠ k → s'.pte dst i = s.pte dst i)
    (hfree : (s.free : Multiset Nat) = (s'.free : Multiset Nat) +
      entryFrames (frames s' d) (s'.pte dst k))
    (hpage : ∀ x, x ∉ s.free → x ≠ dst → s'.page x = s.page x) : Filled m d dst (k + 1) s' where
  total := by
    have hsum : ∑ i ∈ Finset.range k, entryFrames (frames s' d) (s'.pte dst i) =
        ∑ i ∈ Finset.range k, entryFrames (frames s d) (s.pte dst i) := by
      apply Finset.sum_congr rfl
      intro i hi
      have hi' := Finset.mem_range.1 hi
      rw [hpte i (by omega)]
      by_cases hv : pteValid (s.pte dst i) = true
      · rw [entryFrames_of_valid hv, entryFrames_of_valid hv]
        have hsame := frames_congr (m := s) (w := s') (d := d) (t := pteAddr (s.pte dst i)) (by
          intro x hx
          obtain ⟨hx1, hx2⟩ := hf.used h hi' hv (mem_of_le (tables_le _ _ _) hx)
          exact hpage x hx1 hx2)
        rw [hsame.1]
      · rw [entryFrames_of_invalid hv, entryFrames_of_invalid hv]
    rw [Finset.sum_range_succ, hsum, hf.total, hfree]
    abel
  page x hx hne := by
    rw [hpage x (fun hfree => hx (hf.free_le hfree)) hne, hf.page x hx hne]
  rest i hi := by rw [hpte i (by omega), hf.rest i (by omega)]

/-- The entries copied so far. -/
def CopiedTo (m : PhysMem) (d dst src k : Nat) (s : PhysMem) : Prop :=
  ∀ i < k, pteValid (s.pte dst i) = pteValid (m.pte src i) ∧
    (pteValid (m.pte src i) = true → (d = 0 → pteFlags (s.pte dst i) = pteFlags (m.pte src i)) ∧
      Copied m s d (pteAddr (m.pte src i)) (pteAddr (s.pte dst i)))

theorem CopiedTo.step (h : CopyPre m (d + 1) dst src) (hf : Filled m d dst k s)
    (hc : CopiedTo m d dst src k s) (hpte : ∀ i, i ≠ k → s'.pte dst i = s.pte dst i)
    (hpage : ∀ x, x ∉ s.free → x ≠ dst → s'.page x = s.page x)
    (hnew : pteValid (s'.pte dst k) = pteValid (m.pte src k) ∧
      (pteValid (m.pte src k) = true →
        (d = 0 → pteFlags (s'.pte dst k) = pteFlags (m.pte src k)) ∧
          Copied m s' d (pteAddr (m.pte src k)) (pteAddr (s'.pte dst k)))) :
    CopiedTo m d dst src (k + 1) s' := by
  intro i hi
  by_cases e : i = k
  · subst e
    exact hnew
  have hik : i < k := by omega
  obtain ⟨hv, hrest⟩ := hc i hik
  rw [hpte i e]
  refine ⟨hv, fun hvi => ⟨(hrest hvi).1, (hrest hvi).2.congr_right fun x hx => ?_⟩⟩
  obtain ⟨hx1, hx2⟩ := hf.used h hik (hv.trans hvi) hx
  exact hpage x hx1 hx2

/-- The body of a loop over the entries fills the next entry, or it fails. -/
def EntryStep (m : PhysMem) (d dst src : Nat) (body : Nat → PhysMem → Bool × PhysMem) : Prop :=
  ∀ k s, k < ptePerTable → Filled m d dst k s →
    ((body k s).1 = true → Filled m d dst (k + 1) (body k s).2 ∧
      (CopiedTo m d dst src k s → CopiedTo m d dst src (k + 1) (body k s).2)) ∧
    ((body k s).1 = false → ∃ k' ≤ ptePerTable, Filled m d dst k' (body k s).2)

/-- What a copy guarantees: the frames of the copy come from the free list, nothing in use changes,
and when it succeeds it is a copy. -/
structure CopyPost (m : PhysMem) (d dst src : Nat) (r : Bool × PhysMem) : Prop where
  total : (m.free : Multiset Nat) = (r.2.free : Multiset Nat) + frames r.2 d dst
  page : ∀ x, x ∉ m.free → x ≠ dst → r.2.page x = m.page x
  copied : r.1 = true → Copied m r.2 d src dst

theorem copyPost_of_entryStep (h : CopyPre m (d + 1) dst src)
    {body : Nat → PhysMem → Bool × PhysMem} (hbody : EntryStep m d dst src body) :
    CopyPost m (d + 1) dst src (forList body (List.range ptePerTable) m) := by
  obtain ⟨hgo, hstop⟩ := forList_range (f := body) (n := ptePerTable) (s := m)
    (I := fun k s => Filled m d dst k s ∧ CopiedTo m d dst src k s)
    (J := fun s => ∃ k ≤ ptePerTable, Filled m d dst k s)
    ⟨Filled.start h, fun i hi => by omega⟩
    (by
      intro k s s' hk hinv heq
      obtain ⟨hf, hc⟩ := (hbody k s hk hinv.1).1 (by rw [heq])
      rw [heq] at hf hc
      exact ⟨hf, hc hinv.2⟩)
    (by
      intro k s s' hk hinv heq
      have hres := (hbody k s hk hinv.1).2 (by rw [heq])
      rw [heq] at hres
      exact hres)
  rcases hr : forList body (List.range ptePerTable) m with ⟨ok, s⟩
  cases ok with
  | true =>
    obtain ⟨hf, hc⟩ := hgo s hr
    exact ⟨hf.frames_eq (le_refl _), hf.page, fun _ => hc⟩
  | false =>
    obtain ⟨k, hk, hf⟩ := hstop s hr
    exact ⟨hf.frames_eq hk, hf.page, fun ht => by cases ht⟩

theorem Filled.skip (h : CopyPre m (d + 1) dst src) (hf : Filled m d dst k s)
    (hinv : ¬ pteValid (m.pte src k) = true) :
    Filled m d dst (k + 1) s ∧ (CopiedTo m d dst src k s → CopiedTo m d dst src (k + 1) s) := by
  have hzero : s.pte dst k = 0 := hf.rest k (le_refl k)
  constructor
  · apply hf.step h (fun _ _ => rfl) _ (fun _ _ _ => rfl)
    rw [hzero, entryFrames_of_invalid (by decide), add_zero]
  intro hc
  apply hc.step h hf (fun _ _ => rfl) (fun _ _ _ => rfl)
  refine ⟨?_, fun hv => absurd hv hinv⟩
  rw [hzero]
  simpa using hinv

/-- A page taken from the free list while the copy runs. -/
theorem Filled.alloc (h : CopyPre m (d + 1) dst src) (hf : Filled m d dst k s) {pa : Nat}
    {m1 : PhysMem} (hal : pmmAlloc s = some (pa, m1)) :
    IsFrame pa ∧ pa ∈ s.free ∧ dst ≠ pa ∧ (∀ x ∈ {src} + frames m (d + 1) src, x ≠ pa) := by
  have hmem : pa ∈ s.free := mem_free_of_alloc hal
  have hmem' := hf.free_le hmem
  refine ⟨h.isFrame pa hmem', hmem, (ne_of_mem_of_not_mem hmem' h.dst_notMem).symm, ?_⟩
  intro x hx
  exact (ne_of_mem_of_not_mem hmem' (h.src_notMem hx).1).symm

theorem Filled.src_page (h : CopyPre m (d + 1) dst src) (hf : Filled m d dst k s) {x : Nat}
    (hx : x ∈ {src} + frames m (d + 1) src) : s.page x = m.page x :=
  hf.page x (h.src_notMem hx).1 (h.src_notMem hx).2

theorem mem_src (m : PhysMem) (d src : Nat) : src ∈ {src} + frames m d src :=
  mem_add.2 (inl (mem_singleton_self src))

/-- A new table for entry `k` can be filled: the old tree below the entry is as it was. -/
theorem Filled.child (h : CopyPre m (d + 2) dst src) (hf : Filled m (d + 1) dst k s)
    (hk : k < ptePerTable) (hv : pteValid (m.pte src k) = true) {pa : Nat} {m1 : PhysMem}
    (hal : pmmAlloc s = some (pa, m1)) :
    CopyPre (m1.setPte dst k (makeTableDesc pa)) (d + 1) pa (pteAddr (m.pte src k)) ∧
      ∀ x ∈ {pteAddr (m.pte src k)} + frames m (d + 1) (pteAddr (m.pte src k)),
        (m1.setPte dst k (makeTableDesc pa)).page x = m.page x := by
  obtain ⟨hpa, hpamem, hdst, hsrc⟩ := hf.alloc h hal
  obtain ⟨hfree, hzero, hpage⟩ := pmmAlloc_spec hal
  have hsrcpage : ∀ x ∈ {pteAddr (m.pte src k)} + frames m (d + 1) (pteAddr (m.pte src k)),
      (m1.setPte dst k (makeTableDesc pa)).page x = m.page x := by
    intro x hx
    have hx' : x ∈ {src} + frames m (d + 2) src :=
      mem_add.2 (inr (mem_of_le (entry_le_frames hk hv) hx))
    rw [setPte_page_of_ne (h.src_notMem hx').2, hpage x (hsrc x hx'), hf.src_page h hx']
  have hsame := (frames_congr (m := m) (w := m1.setPte dst k (makeTableDesc pa)) (d := d + 1)
    (t := pteAddr (m.pte src k))
    fun x hx => hsrcpage x (mem_of_le (tables_le _ _ _) hx)).1
  refine ⟨⟨?_, fun x hx => ?_, ?_⟩, hsrcpage⟩
  · have hle : (s.free : Multiset Nat) + ({pteAddr (m.pte src k)} +
        frames m (d + 1) (pteAddr (m.pte src k))) ≤ (m.free : Multiset Nat) +
          ({dst} + ({src} + frames m (d + 2) src)) := by
      apply add_le_add
      · rw [hf.total]
        exact le_add_right _ _
      · exact (entry_le_frames hk hv).trans
          ((le_add_left _ _).trans (le_add_left _ _))
    have hnd := nodup_of_le hle h.nodup
    rw [setPte_free, hsame]
    rw [hfree] at hnd
    convert hnd using 1
    abel
  · apply h.isFrame
    exact hf.free_le (free_of_alloc hal hx)
  · rw [setPte_page_of_ne (Ne.symm hdst), hzero]

end

/-- The entry of a page: its frame is copied. -/
theorem copyPageEntry_step (h : CopyPre m 1 dst src) :
    EntryStep m 0 dst src (copyPageEntry dst src) := by
  intro k s hk hf
  have hentry : s.pte src k = m.pte src k := pte_congr (hf.src_page h (mem_src m 1 src)) k
  unfold copyPageEntry
  rw [hentry]
  simp only
  split
  · rename_i hv
    cases hal : pmmAlloc s with
    | none => exact ⟨fun ht => (by cases ht), fun _ => ⟨k, le_of_lt hk, hf⟩⟩
    | some r =>
      obtain ⟨pa, m1⟩ := r
      obtain ⟨hpa, hpamem, hdst, hsrc⟩ := hf.alloc h hal
      obtain ⟨hfree, -, hpage⟩ := pmmAlloc_spec hal
      have hold : pteAddr (m.pte src k) ∈ {src} + frames m 1 src :=
        mem_add.2 (inr (mem_of_le (entry_le_frames hk hv) (mem_add.2 (inl (mem_singleton_self _)))))
      have hpte : ∀ i, i ≠ k → ((m1.setPage pa (m1.page (pteAddr (m.pte src k)))).setPte dst k
          (pteFlags (m.pte src k) ||| pa)).pte dst i = s.pte dst i := by
        intro i hi
        rw [pte_setPte_of_ne hi]
        apply pte_congr
        rw [PhysMem.setPage_page_of_ne hdst, hpage dst hdst]
      have hptek : ((m1.setPage pa (m1.page (pteAddr (m.pte src k)))).setPte dst k
          (pteFlags (m.pte src k) ||| pa)).pte dst k = pteFlags (m.pte src k) ||| pa :=
        pte_setPte_self (copied_lt hpa)
      have hout : ∀ x, x ∉ s.free → x ≠ dst →
          ((m1.setPage pa (m1.page (pteAddr (m.pte src k)))).setPte dst k
            (pteFlags (m.pte src k) ||| pa)).page x = s.page x := by
        intro x hx hne
        have hxpa : x ≠ pa := (ne_of_mem_of_not_mem hpamem hx).symm
        rw [setPte_page_of_ne hne, PhysMem.setPage_page_of_ne hxpa, hpage x hxpa]
      have hval := pteValid_copied hpa hv
      refine ⟨fun _ => ⟨?_, fun hc => ?_⟩, fun hfalse => by cases hfalse⟩
      · apply hf.step h hpte _ hout
        rw [hptek, entryFrames_of_valid hval, pteAddr_copied hpa, setPte_free,
          PhysMem.setPage_free, hfree]
        simp only [frames, add_zero]
        rw [add_comm]
      apply hc.step h hf hpte hout
      rw [hptek]
      refine ⟨by rw [hval, hv], fun _ => ⟨fun _ => pteFlags_copied hpa, ?_⟩⟩
      rw [pteAddr_copied hpa, Copied, setPte_page_of_ne (Ne.symm hdst),
        PhysMem.setPage_page_self, hpage _ (hsrc _ hold), hf.src_page h hold]
  · rename_i hinv
    exact ⟨fun _ => hf.skip h hinv, fun hfalse => by cases hfalse⟩

/-- Above level 3: a table per valid entry, filled by the recursive call. -/
theorem copyTableEntry_step {d : Nat} (h : CopyPre m (d + 2) dst src)
    (ih : ∀ {m : PhysMem} {dst src : Nat}, CopyPre m (d + 1) dst src →
      CopyPost m (d + 1) dst src (copywalk d dst src m)) :
    EntryStep m (d + 1) dst src (copyTableEntry (copywalk d) dst src) := by
  intro k s hk hf
  have hentry : s.pte src k = m.pte src k := pte_congr (hf.src_page h (mem_src m (d + 2) src)) k
  unfold copyTableEntry
  rw [hentry]
  simp only
  split
  · rename_i hv
    cases hal : pmmAlloc s with
    | none => exact ⟨fun ht => (by cases ht), fun _ => ⟨k, le_of_lt hk, hf⟩⟩
    | some r =>
      obtain ⟨pa, m1⟩ := r
      obtain ⟨hpa, hpamem, hdst, hsrc⟩ := hf.alloc h hal
      obtain ⟨hfree, hzero, hpage⟩ := pmmAlloc_spec hal
      have hlinked : ∀ x, x ≠ pa → x ≠ dst →
          (m1.setPte dst k (makeTableDesc pa)).page x = s.page x := by
        intro x hx hne
        rw [setPte_page_of_ne hne, hpage x hx]
      obtain ⟨hpre, hsrcpage⟩ := hf.child h hk hv hal
      obtain ⟨htotal, hkeep, hcopied⟩ := ih hpre
      simp only
      generalize copywalk d pa (pteAddr (m.pte src k)) (m1.setPte dst k (makeTableDesc pa)) = r
        at htotal hkeep hcopied ⊢
      rw [setPte_free] at htotal hkeep
      have hnotm1 : ∀ x, x ∉ s.free → x ∉ m1.free := fun x hx hx' => hx (free_of_alloc hal hx')
      have hdstfree : dst ∉ s.free := fun hmem => h.dst_notMem (hf.free_le hmem)
      have hdstpage : r.2.page dst = (m1.setPte dst k (makeTableDesc pa)).page dst :=
        hkeep dst (hnotm1 dst hdstfree) hdst
      have hptek : r.2.pte dst k = makeTableDesc pa := by
        rw [pte_congr hdstpage]
        exact pte_setPte_self (makeTableDesc_lt hpa)
      have hpte : ∀ i, i ≠ k → r.2.pte dst i = s.pte dst i := by
        intro i hi
        rw [pte_congr hdstpage, pte_setPte_of_ne hi]
        exact pte_congr (hpage dst hdst) i
      have hout : ∀ x, x ∉ s.free → x ≠ dst → r.2.page x = s.page x := by
        intro x hx hne
        have hxpa : x ≠ pa := (ne_of_mem_of_not_mem hpamem hx).symm
        rw [hkeep x (hnotm1 x hx) hxpa, hlinked x hxpa hne]
      have hval := pteValid_tableDesc hpa
      have hstep : Filled m (d + 1) dst (k + 1) r.2 := by
        apply hf.step h hpte _ hout
        rw [hptek, entryFrames_of_valid hval, pteAddr_tableDesc hpa, hfree, htotal]
        abel
      refine ⟨fun hok => ⟨hstep, fun hc => ?_⟩, fun _ => ⟨k + 1, hk, hstep⟩⟩
      apply hc.step h hf hpte hout
      rw [hptek]
      refine ⟨by rw [hval, hv], fun _ => ⟨fun hd => absurd hd (Nat.succ_ne_zero d), ?_⟩⟩
      rw [pteAddr_tableDesc hpa]
      exact (hcopied hok).congr_left hsrcpage
  · rename_i hinv
    exact ⟨fun _ => hf.skip h hinv, fun hfalse => by cases hfalse⟩

theorem copywalk_spec {d : Nat} (h : CopyPre m (d + 1) dst src) :
    CopyPost m (d + 1) dst src (copywalk d dst src m) := by
  induction d generalizing m dst src with
  | zero => exact copyPost_of_entryStep h (copyPageEntry_step h)
  | succ d ih => exact copyPost_of_entryStep h (copyTableEntry_step h ih)

theorem copyPre_of_alloc {m1 : PhysMem} (h : Sep m 4 src)
    (hal : pmmAlloc m = some (dst, m1)) :
    CopyPre m1 4 dst src ∧ frames m1 4 src = frames m 4 src := by
  obtain ⟨hfree, hzero, hpage⟩ := pmmAlloc_spec hal
  have hmem : dst ∈ m.free := mem_free_of_alloc hal
  have hsame := (frames_congr (m := m) (w := m1) (d := 4) (t := src) fun x hx =>
    hpage x (ne_of_mem_of_not_mem hmem (h.notMem_free (mem_of_le (tables_le _ _ _) hx))).symm).1
  refine ⟨⟨?_, fun x hx => ?_, hzero⟩, hsame⟩
  · have hnd := h.nodup
    unfold extent at hnd
    rw [hsame]
    rw [hfree] at hnd
    convert hnd using 1
    abel
  apply h.isFrame
  rw [mem_extent]
  exact inl (free_of_alloc hal hx)

/-- `vmm_copy`: on success a copy whose frames come from the free list, on failure no frame is gone.
Pages in use do not change. -/
theorem vmmCopy_spec (h : Sep m 4 src) :
    (match (vmmCopy m src).1 with
      | some dst => (m.free : Multiset Nat) = extent (vmmCopy m src).2 4 dst ∧
          Copied m (vmmCopy m src).2 4 src dst
      | none => ((vmmCopy m src).2.free : Multiset Nat) = (m.free : Multiset Nat)) ∧
      ∀ x, x ∉ m.free → (vmmCopy m src).2.page x = m.page x := by
  unfold vmmCopy vmmCreate
  cases hal : pmmAlloc m with
  | none => exact ⟨rfl, fun _ _ => rfl⟩
  | some r =>
    obtain ⟨dst, m1⟩ := r
    obtain ⟨hfree, hzero, hpage⟩ := pmmAlloc_spec hal
    have hmem : dst ∈ m.free := mem_free_of_alloc hal
    have hsrc : ∀ x ∈ {src} + frames m 4 src, m1.page x = m.page x := fun x hx =>
      hpage x (ne_of_mem_of_not_mem hmem (h.notMem_free hx)).symm
    have hpre := (copyPre_of_alloc h hal).1
    obtain ⟨htotal, hkeep, hcopied⟩ := copywalk_spec hpre
    have hnotm1 : ∀ x, x ∉ m.free → x ∉ m1.free := fun x hx hx' => hx (free_of_alloc hal hx')
    have hout : ∀ x, x ∉ m.free → (copywalk 3 dst src m1).2.page x = m.page x := by
      intro x hx
      have hxd : x ≠ dst := (ne_of_mem_of_not_mem hmem hx).symm
      rw [hkeep x (hnotm1 x hx) hxd, hpage x hxd]
    simp only
    rcases hr : copywalk 3 dst src m1 with ⟨ok, m2⟩
    rw [hr] at htotal hcopied hout
    have hext : (m.free : Multiset Nat) = extent m2 4 dst := by
      rw [extent_eq, hfree, htotal]
    cases ok with
    | true => exact ⟨⟨hext, (hcopied rfl).congr_left hsrc⟩, hout⟩
    | false =>
      have hsep : Sep m2 4 dst := by
        constructor
        · rw [← hext]
          exact (nodup_add.1 h.nodup).1
        · intro x hx
          rw [← hext] at hx
          exact h.isFrame x (mem_extent.2 (inl (mem_coe.1 hx)))
      obtain ⟨hfree', hpage'⟩ := vmmFree_spec hsep
      refine ⟨by rw [hext]; exact hfree', fun x hx => ?_⟩
      rw [← hout x hx]
      apply hpage'
      rw [← hext]
      exact fun hx' => hx (mem_coe.1 hx')

end Slopix.Mm
