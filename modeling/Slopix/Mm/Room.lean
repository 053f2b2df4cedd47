import Slopix.Mm.World

/-!
# When an allocation succeeds

`Spare m n` says that every frame of the RAM from the `n`-th on is free, behind whatever lower frames
are free as well. Each allocation costs at most as many of these frames as it takes, so that a bound
on the number of pages in use makes allocations succeed.
-/

namespace Slopix.Mm

open Lib Multiset

/-- The number of frames. -/
def frameCount : Nat := ramSize / pageSize

/-- The `n`-th frame. -/
def frame (n : Nat) : Nat := ramBase + n * pageSize

/-- The frames from the `n`-th on. -/
def upperFrames (n : Nat) : List Nat := List.range' (frame n) (frameCount - n) pageSize

/-- All frames from the `n`-th on are free, at the end of the free list. -/
def Spare (m : PhysMem) (n : Nat) : Prop := ∃ pre, m.free = pre ++ upperFrames n

section

variable {m m' : PhysMem} {n : Nat}

theorem isFrame_frame (h : n < frameCount) : IsFrame (frame n) := by
  unfold frameCount ramSize pageSize at h
  constructor
  · unfold frame
    omega
  · unfold frame ramBase ramSize pageSize
    omega
  · unfold frame ramBase pageSize
    omega

theorem frame_inj {j : Nat} (h : frame j = frame n) : j = n := by
  unfold frame pageSize at h
  omega

theorem upperFrames_cons (h : n < frameCount) : upperFrames n = frame n :: upperFrames (n + 1) := by
  unfold upperFrames
  obtain ⟨k, hk⟩ : ∃ k, frameCount - n = k + 1 := ⟨frameCount - n - 1, by omega⟩
  have hk' : frameCount - (n + 1) = k := by omega
  have hnext : frame n + pageSize = frame (n + 1) := by
    unfold frame
    rw [Nat.succ_mul, add_assoc]
  rw [hk, hk', List.range'_succ, hnext]

theorem mem_upperFrames {x : Nat} : x ∈ upperFrames n ↔ ∃ j, n ≤ j ∧ j < frameCount ∧ x = frame j := by
  unfold upperFrames
  rw [List.mem_range']
  constructor
  · rintro ⟨i, hi, rfl⟩
    refine ⟨n + i, by omega, by omega, ?_⟩
    unfold frame
    rw [add_mul, add_assoc, mul_comm pageSize]
  rintro ⟨j, hn, hj, rfl⟩
  refine ⟨j - n, by omega, ?_⟩
  unfold frame pageSize
  omega

theorem upperFrames_zero : upperFrames 0 = ramFrames := by
  unfold upperFrames ramFrames frame frameCount
  rw [Nat.zero_mul, Nat.add_zero, Nat.sub_zero]

theorem upperFrames_append {k : Nat} (h : n ≤ k) : ∃ l, upperFrames n = l ++ upperFrames k := by
  induction k, h using Nat.le_induction with
  | base => exact ⟨[], rfl⟩
  | succ k hk ih =>
    obtain ⟨l, hl⟩ := ih
    by_cases hlt : k < frameCount
    · refine ⟨l ++ [frame k], ?_⟩
      rw [hl, upperFrames_cons hlt, List.append_assoc]
      rfl
    refine ⟨l, ?_⟩
    have hempty : ∀ j, frameCount ≤ j → upperFrames j = [] := by
      intro j hj
      unfold upperFrames
      rw [Nat.sub_eq_zero_of_le hj]
      rfl
    rw [hl, hempty k (by omega), hempty (k + 1) (by omega)]

theorem drop_upperFrames (n j : Nat) : (upperFrames n).drop j = upperFrames (n + j) := by
  unfold upperFrames
  rw [List.drop_range', Nat.sub_sub]
  congr 1
  unfold frame
  rw [add_mul, add_assoc]

theorem Spare.mono {k : Nat} (h : Spare m n) (hk : n ≤ k) : Spare m k := by
  obtain ⟨pre, hfree⟩ := h
  obtain ⟨l, hl⟩ := upperFrames_append hk
  exact ⟨pre ++ l, by rw [hfree, hl, List.append_assoc]⟩

theorem pmmAlloc_upper (h : m.free = upperFrames n) (hn : n < frameCount) :
    ∃ m', pmmAlloc m = some (frame n, m') ∧ m'.free = upperFrames (n + 1) ∧
      m'.page (frame n) = (fun _ => 0) ∧ ∀ x, x ≠ frame n → m'.page x = m.page x := by
  rw [upperFrames_cons hn] at h
  have hal : pmmAlloc m = some (frame n,
      { m with free := upperFrames (n + 1) }.zeroPage (frame n)) := by
    unfold pmmAlloc
    rw [h]
  obtain ⟨-, hzero, hpage⟩ := pmmAlloc_spec hal
  exact ⟨_, hal, rfl, hzero, hpage⟩

end

/-! ## Runs of pages -/

section

variable {m m' : PhysMem} {n k : Nat}

theorem scanRun_run (len : Nat) (before run : List Nat) (count a : Nat) (hlen : 0 < len)
    (hlong : n < count + len) :
    (scanRun n before run count (List.range' a len pageSize)).1 = before ∧
      n ≤ (scanRun n before run count (List.range' a len pageSize)).2.2 ∧
      (scanRun n before run count (List.range' a len pageSize)).2.1 = run := by
  induction len generalizing count a with
  | zero => omega
  | succ len ih =>
    cases len with
    | zero =>
      have hcount : n ≤ count := by omega
      exact ⟨rfl, hcount, rfl⟩
    | succ len =>
      rw [List.range'_succ, List.range'_succ, scanRun]
      split
      · rename_i hle
        exact ⟨rfl, hle, rfl⟩
      · rw [if_pos rfl, ← List.range'_succ]
        exact ih (count + 1) (a + pageSize) (by omega) (by omega)

/-- The search finds a run that starts at the spare frames or before them. -/
theorem scanRun_pre (pre before run : List Nat) (count a len : Nat) (hpos : 0 < count)
    (hrun : run.drop (count - 1) = pre ++ List.range' a len pageSize) (hlen : 0 < len)
    (hlong : n ≤ len) :
    n ≤ (scanRun n before run count (pre ++ List.range' a len pageSize)).2.2 ∧
      (scanRun n before run count (pre ++ List.range' a len pageSize)).1.length ≤
        before.length + (count - 1) + pre.length := by
  induction pre generalizing before run count with
  | nil =>
    obtain ⟨hfirst, hcount, -⟩ := scanRun_run (n := n) len before run count a hlen (by omega)
    rw [List.nil_append]
    refine ⟨hcount, ?_⟩
    rw [hfirst]
    omega
  | cons x pre ih =>
    obtain ⟨b, rest, hrest⟩ : ∃ b rest, pre ++ List.range' a len pageSize = b :: rest := by
      cases pre with
      | nil =>
        obtain ⟨len', rfl⟩ : ∃ len', len = len' + 1 := ⟨len - 1, by omega⟩
        exact ⟨a, _, by rw [List.nil_append, List.range'_succ]⟩
      | cons y pre => exact ⟨y, _, rfl⟩
    have hnext : run.drop count = b :: rest := by
      have htail := congrArg (List.drop 1) hrun
      rw [List.drop_drop, Nat.sub_add_cancel hpos, List.cons_append, List.drop_one,
        List.tail_cons, hrest] at htail
      exact htail
    rw [List.cons_append, hrest, scanRun]
    split
    · rename_i hle
      refine ⟨hle, ?_⟩
      show before.length ≤ _
      omega
    split
    · have hgo := ih before run (count + 1) (by omega) (by
        rw [Nat.add_sub_cancel, hnext, hrest])
      rw [hrest] at hgo
      refine ⟨hgo.1, hgo.2.trans ?_⟩
      rw [List.length_cons]
      omega
    have hgo := ih (before ++ run.take count) (b :: rest) 1 (by omega) (by
      rw [Nat.sub_self, List.drop_zero, hrest])
    rw [hrest] at hgo
    refine ⟨hgo.1, hgo.2.trans ?_⟩
    rw [List.length_append, List.length_take, List.length_cons]
    omega

/-- While the upper frames are free a run can be had. -/
theorem Spare.allocContiguous (h : Spare m n) (hk : 2 ≤ k) (hn : n + k ≤ frameCount) :
    ∃ pa m', pmmAllocContiguous m k = some (pa, m') ∧ Spare m' (n + k) := by
  obtain ⟨pre, hfree⟩ := h
  obtain ⟨base, rest, hcons⟩ : ∃ base rest, m.free = base :: rest := by
    rw [hfree, upperFrames_cons (by omega)]
    cases pre with
    | nil => exact ⟨_, _, rfl⟩
    | cons x pre => exact ⟨_, _, rfl⟩
  have hlist : base :: rest = pre ++ List.range' (frame n) (frameCount - n) pageSize := by
    rw [← hcons, hfree]
    rfl
  obtain ⟨hcount, hstart⟩ := scanRun_pre (n := k) pre [] (base :: rest) 1 (frame n)
    (frameCount - n) (by omega) hlist (by omega) (by omega)
  rw [← hlist] at hcount hstart
  obtain ⟨hcut, -, hlen, -⟩ := scanRun_spec (n := k) (base :: rest) []
    (base :: rest) 1 rfl (by omega) (by simp) (by simp) (by omega) (by
      intro j hj
      obtain rfl : j = 0 := by omega
      simp)
  unfold pmmAllocContiguous
  rw [if_neg (by omega), if_neg (by omega), hcons]
  dsimp only
  generalize scanRun k [] (base :: rest) 1 (base :: rest) = r at hcount hstart hcut hlen
  rw [if_neg (by omega)]
  cases hrun : r.2.1 with
  | nil =>
    rw [hrun, List.length_nil] at hlen
    omega
  | cons first tail =>
    refine ⟨first, _, rfl, ?_⟩
    -- what is left behind the run ends with the spare frames behind it
    have hrest : (first :: tail).drop k = (pre ++ upperFrames n).drop (r.1.length + k) := by
      rw [List.nil_append] at hcut
      rw [← hfree, hcons, ← hcut, hrun, ← List.drop_drop, List.drop_left]
    obtain ⟨l, hl⟩ : ∃ l, (first :: tail).drop k = l ++ upperFrames (n + k) := by
      rw [hrest, List.drop_append]
      obtain ⟨l, hl⟩ := upperFrames_append (n := n + (r.1.length + k - pre.length)) (k := n + k) (by
        rw [List.length_nil] at hstart
        omega)
      exact ⟨pre.drop (r.1.length + k) ++ l, by rw [drop_upperFrames, hl, List.append_assoc]⟩
    refine ⟨r.1 ++ l, ?_⟩
    rw [zeroPages_free, List.append_assoc, ← hl]

theorem allocContiguous_upper (h : m.free = upperFrames n) (hk : 2 ≤ k) (hn : n + k ≤ frameCount) :
    ∃ pa m', pmmAllocContiguous m k = some (pa, m') ∧ m'.free = upperFrames (n + k) := by
  obtain ⟨pa, m', hal, l, hl⟩ := Spare.allocContiguous ⟨[], h⟩ hk hn
  have hcard := congrArg card (pmmAllocContiguous_spec hal).1
  rw [h, hl, card_add, coe_card, coe_card, List.length_append] at hcard
  unfold upperFrames runFrames at hcard
  rw [List.length_range', List.length_range', card_map, card_range] at hcard
  obtain rfl : l = [] := List.eq_nil_of_length_eq_zero (by omega)
  exact ⟨pa, m', hal, hl⟩

end

/-! ## Copies -/

section

variable {m m' s : PhysMem} {d dst src k : Nat}

theorem card_entryFrames_congr {e e' : Nat} {f g : Nat → Multiset Nat}
    (hv : pteValid e' = pteValid e)
    (h : pteValid e = true → (f (pteAddr e')).card = (g (pteAddr e)).card) :
    (entryFrames f e').card = (entryFrames g e).card := by
  unfold entryFrames
  rw [hv]
  split
  · rename_i hvalid
    rw [card_add, card_add, h hvalid, card_singleton, card_singleton]
  · rfl

theorem Copied.card_frames {a a' : Nat} (h : Copied m m' d a a') :
    (frames m' d a').card = (frames m d a).card := by
  induction d generalizing a a' with
  | zero => rfl
  | succ d ih =>
    rw [frames, frames, card_sum, card_sum]
    apply Finset.sum_congr rfl
    intro i hi
    obtain ⟨hv, hrest⟩ := h i (Finset.mem_range.1 hi)
    exact card_entryFrames_congr hv fun hvalid => ih (hrest hvalid).2

/-- A loop that fails at an entry for which there are not enough frames. -/
theorem short_of_entryStep (h : CopyPre m (d + 1) dst src) {body : Nat → PhysMem → Bool × PhysMem}
    (hbody : EntryStep m d dst src body)
    (hfail : ∀ k s, k < ptePerTable → Filled m d dst k s → (body k s).1 = false →
      s.free.length < (entryFrames (frames m d) (m.pte src k)).card)
    (hres : (forList body (List.range ptePerTable) m).1 = false) :
    m.free.length < (frames m (d + 1) src).card := by
  obtain ⟨-, hstop⟩ := forList_range (f := body) (n := ptePerTable) (s := m)
    (I := fun k s => Filled m d dst k s ∧ CopiedTo m d dst src k s)
    (J := fun _ => m.free.length < (frames m (d + 1) src).card)
    ⟨Filled.start h, fun i hi => by omega⟩
    (by
      intro k s s' hk hinv heq
      obtain ⟨hf, hc⟩ := (hbody k s hk hinv.1).1 (by rw [heq])
      rw [heq] at hf hc
      exact ⟨hf, hc hinv.2⟩)
    (by
      intro k s s' hk ⟨hf, hc⟩ heq
      have hshort := hfail k s hk hf (by rw [heq])
      -- the entries before `k` took as many frames as there are below them in the old table
      have hsum : (∑ i ∈ Finset.range k, entryFrames (frames s d) (s.pte dst i)).card =
          (∑ i ∈ Finset.range k, entryFrames (frames m d) (m.pte src i)).card := by
        rw [card_sum, card_sum]
        apply Finset.sum_congr rfl
        intro i hi
        obtain ⟨hv, hrest⟩ := hc i (Finset.mem_range.1 hi)
        exact card_entryFrames_congr hv fun hvalid => (hrest hvalid).2.card_frames
      have htotal := congrArg card hf.total
      rw [card_add, coe_card, coe_card, hsum] at htotal
      have hle : (∑ i ∈ Finset.range (k + 1), entryFrames (frames m d) (m.pte src i)).card ≤
          (frames m (d + 1) src).card := by
        apply card_le_card
        exact Finset.sum_le_sum_of_subset (Finset.range_mono hk)
      rw [Finset.sum_range_succ, card_add] at hle
      omega)
  exact hstop _ (Prod.ext hres rfl)

/-- `copywalk` fails only when there are fewer free frames than frames to copy. -/
theorem copywalk_short (h : CopyPre m (d + 1) dst src) (hres : (copywalk d dst src m).1 = false) :
    m.free.length < (frames m (d + 1) src).card := by
  induction d generalizing m dst src with
  | zero =>
    refine short_of_entryStep h (copyPageEntry_step h) (fun k s hk hf hfail => ?_) hres
    have hentry : s.pte src k = m.pte src k := pte_congr (hf.src_page h (mem_src m 1 src)) k
    unfold copyPageEntry at hfail
    rw [hentry] at hfail
    by_cases hv : pteValid (m.pte src k) = true
    · rw [if_pos hv] at hfail
      cases hal : pmmAlloc s with
      | none =>
        rw [pmmAlloc_eq_none_iff.1 hal, entryFrames_of_valid hv]
        simp
      | some r =>
        rw [hal] at hfail
        cases hfail
    · rw [if_neg hv] at hfail
      cases hfail
  | succ d ih =>
    refine short_of_entryStep h (copyTableEntry_step h copywalk_spec) (fun k s hk hf hfail => ?_)
      hres
    have hentry : s.pte src k = m.pte src k := pte_congr (hf.src_page h (mem_src m (d + 2) src)) k
    unfold copyTableEntry at hfail
    rw [hentry] at hfail
    by_cases hv : pteValid (m.pte src k) = true
    · rw [if_pos hv] at hfail
      rw [entryFrames_of_valid hv, card_add, card_singleton]
      cases hal : pmmAlloc s with
      | none =>
        rw [pmmAlloc_eq_none_iff.1 hal]
        simp
      | some r =>
        obtain ⟨pa, m1⟩ := r
        rw [hal] at hfail
        obtain ⟨hpre, hsrcpage⟩ := hf.child h hk hv hal
        have hless := ih hpre hfail
        have hsame := (frames_congr (m := m) (w := m1.setPte dst k (makeTableDesc pa))
          (d := d + 1) (t := pteAddr (m.pte src k))
          fun x hx => hsrcpage x (mem_of_le (tables_le _ _ _) hx)).1
        rw [setPte_free, hsame] at hless
        have htotal := congrArg card (pmmAlloc_spec hal).1
        rw [card_add, coe_card, coe_card, card_singleton]
          at htotal
        omega
    · rw [if_neg hv] at hfail
      cases hfail

theorem pmmAlloc_suffix {pa : Nat} (hal : pmmAlloc m = some (pa, m')) : m'.free <:+ m.free := by
  unfold pmmAlloc at hal
  split at hal
  · cases hal
  rename_i rest hfree
  obtain ⟨rfl, rfl⟩ := Prod.mk.inj (Option.some.inj hal)
  rw [hfree]
  exact List.suffix_cons ..

/-- `copywalk` takes frames from the front of the free list. -/
theorem copywalk_suffix (d dst src : Nat) (m : PhysMem) : (copywalk d dst src m).2.free <:+ m.free := by
  have htrans : ∀ s t u : PhysMem, t.free <:+ s.free → u.free <:+ t.free → u.free <:+ s.free :=
    fun _ _ _ h h' => h'.trans h
  induction d generalizing dst src m with
  | zero =>
    refine forList_rel (R := fun s t => t.free <:+ s.free) (fun _ => List.suffix_rfl) htrans ?_ _ m
    intro i s
    unfold copyPageEntry
    dsimp only
    split
    · cases hal : pmmAlloc s with
      | none => exact List.suffix_rfl
      | some r =>
        have hsuffix : r.2.free <:+ s.free := pmmAlloc_suffix hal
        exact hsuffix
    · exact List.suffix_rfl
  | succ d ih =>
    refine forList_rel (R := fun s t => t.free <:+ s.free) (fun _ => List.suffix_rfl) htrans ?_ _ m
    intro i s
    unfold copyTableEntry
    dsimp only
    split
    · cases hal : pmmAlloc s with
      | none => exact List.suffix_rfl
      | some r =>
        have hsuffix : r.2.free <:+ s.free := pmmAlloc_suffix hal
        exact (ih ..).trans hsuffix
    · exact List.suffix_rfl

/-- With spare frames, taking `j` frames from the front leaves the rest. -/
theorem Spare.of_suffix {n j : Nat} (h : Spare m n) (hsuffix : m'.free <:+ m.free)
    (hlen : m.free.length ≤ m'.free.length + j) : Spare m' (n + j) := by
  obtain ⟨pre, hfree⟩ := h
  obtain ⟨l, hl⟩ := hsuffix
  have hl' : l.length ≤ j := by
    have hsum := congrArg List.length hl
    rw [List.length_append] at hsum
    omega
  rw [hfree] at hl
  rcases List.append_eq_append_iff.1 hl with ⟨t, hpre, hrest⟩ | ⟨t, hpre, hrest⟩
  · exact Spare.mono (n := n) ⟨t, hrest⟩ (by omega)
  have ht : t.length ≤ j := by
    rw [hpre, List.length_append] at hl'
    omega
  refine Spare.mono (n := n + t.length) ⟨[], ?_⟩ (by omega)
  rw [← drop_upperFrames, hrest, List.drop_left]
  rfl

/-- An address space uses only frames below the spare ones. -/
theorem Spare.card_space {n r : Nat} {roots : Multiset Nat} (h : Spare m n) (hg : Good m roots)
    (hr : r ∈ roots) : (space m r).card ≤ n := by
  obtain ⟨pre, hfree⟩ := h
  have hle := space_le_world (m := m) hr
  have hnd := nodup_of_le hle hg.nodup
  have hsub : (space m r).toFinset ⊆ (Finset.range n).image frame := by
    intro x hx
    rw [mem_toFinset] at hx
    have hmem := mem_ramFrames.2 (hg.isFrame x (mem_of_le hle hx))
    rw [← upperFrames_zero, mem_upperFrames] at hmem
    obtain ⟨j, -, hj, rfl⟩ := hmem
    refine Finset.mem_image.2 ⟨j, Finset.mem_range.2 ?_, rfl⟩
    by_contra hge
    apply hg.notMem_free hr hx
    rw [hfree]
    exact List.mem_append.2 (Or.inr (mem_upperFrames.2 ⟨j, by omega, hj, rfl⟩))
  calc
    (space m r).card = (space m r).toFinset.card := (toFinset_card_of_nodup hnd).symm
    _ ≤ ((Finset.range n).image frame).card := Finset.card_le_card hsub
    _ ≤ n := by
      have hcard := Finset.card_image_le (s := Finset.range n) (f := frame)
      rwa [Finset.card_range] at hcard

theorem Spare.length_free {n : Nat} (h : Spare m n) : frameCount - n ≤ m.free.length := by
  obtain ⟨pre, hfree⟩ := h
  rw [hfree, List.length_append]
  unfold upperFrames
  rw [List.length_range']
  omega

theorem Spare.copy {n : Nat} {rest : Multiset Nat} (h : Spare m n) (hg : Good m (src ::ₘ rest))
    (hn : n + n ≤ frameCount) :
    ∃ dst m', vmmCopy m src = (some dst, m') ∧ Spare m' (n + n) := by
  have hcard := h.card_space hg (mem_cons_self src rest)
  have hlen := h.length_free
  unfold space at hcard
  rw [card_add, card_singleton] at hcard
  cases hal : pmmAlloc m with
  | none =>
    rw [pmmAlloc_eq_none_iff.1 hal, List.length_nil] at hlen
    omega
  | some r =>
    obtain ⟨dst, m1⟩ := r
    have hspec := vmmCopy_spec hg.sep
    obtain ⟨hpre, hsame⟩ := copyPre_of_alloc hg.sep hal
    have hfirst := congrArg card (pmmAlloc_spec hal).1
    rw [card_add, coe_card, coe_card, card_singleton] at hfirst
    rcases hres : copywalk 3 dst src m1 with ⟨ok, m2⟩
    cases ok with
    | false =>
      have hshort := copywalk_short hpre (by rw [hres])
      rw [hsame] at hshort
      omega
    | true =>
      have hrun : vmmCopy m src = (some dst, m2) := by
        simp only [vmmCopy, vmmCreate, hal, hres]
      refine ⟨dst, m2, hrun, h.of_suffix ?_ ?_⟩
      · have hwalk := copywalk_suffix 3 dst src m1
        rw [hres] at hwalk
        exact hwalk.trans (pmmAlloc_suffix hal)
      rw [hrun] at hspec
      dsimp only at hspec
      have htotal := congrArg card hspec.1.1
      unfold extent at htotal
      rw [card_add, card_add, coe_card, coe_card, card_singleton, hspec.1.2.card_frames] at htotal
      omega

end

end Slopix.Mm
