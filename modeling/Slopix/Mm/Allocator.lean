import Mathlib.Data.List.Sort
import Slopix.Mm.Pmm

/-!
# Runs of the page allocator

The functions of `kernel/pmm.c` on the free list together with `free_count`, and sequences of calls of
them. A run keeps a log of the frames handed out and given back, newest first; only frames that were
handed out at some time are given back, and giving one back twice is allowed. The free list stays sorted
whatever the order of the calls, so two adjacent free frames are neighbours on the list, which is what
the search of `pmm_alloc_contiguous` relies on.
-/

namespace Slopix.Mm

open Multiset

/-- `freelist` with the pages, and `free_count`. -/
structure Pmm where
  mem : PhysMem
  freeCount : BitVec 64

namespace Pmm

/-- `pmm_init`. -/
def init (page : Nat → Lib.Bytes) (start reservedStart reservedEnd : Nat) : Pmm where
  mem := pmmInit page start reservedStart reservedEnd
  freeCount := BitVec.ofNat 64 (pmmInit page start reservedStart reservedEnd).free.length

/-- `pmm_alloc`. -/
def alloc (s : Pmm) : Option Nat × Pmm :=
  match pmmAlloc s.mem with
  | none => (none, s)
  | some (pa, mem) => (some pa, ⟨mem, s.freeCount - 1⟩)

/-- `pmm_alloc_contiguous`. -/
def allocContiguous (s : Pmm) (n : Int) : Option Nat × Pmm :=
  if n ≤ 0 then (none, s)
  else
    match pmmAllocContiguous s.mem n.toNat with
    | none => (none, s)
    | some (base, mem) => (some base, ⟨mem, s.freeCount - BitVec.ofNat 64 n.toNat⟩)

/-- `pmm_free`. -/
def free (s : Pmm) (pa : Nat) : Pmm :=
  if IsFrame pa then
    match insertFree pa s.mem.free with
    | none => s
    | some free => ⟨{ s.mem with free := free }.zeroPage pa, s.freeCount + 1⟩
  else s

/-- `pmm_free_contiguous`. -/
def freeContiguous (s : Pmm) (pa : Nat) (n : Int) : Pmm :=
  (List.range n.toNat).foldl (fun s i => s.free (pa + i * pageSize)) s

end Pmm

/-! ## Sequences of calls -/

/-- A frame is handed out, or `pmm_free` is called on it. -/
inductive FrameEvent where
  | took (pa : Nat)
  | gave (pa : Nat)

/-- The events of `n` frames in a row, the last one first. -/
def eachFrame (event : Nat → FrameEvent) (base : Nat) : Nat → List FrameEvent
  | 0 => []
  | n + 1 => event (base + n * pageSize) :: eachFrame event base n

/-- What a call that returned `r` has handed out. -/
def tookFrames (r : Option Nat) (n : Nat) : List FrameEvent :=
  match r with
  | none => []
  | some base => eachFrame .took base n

/-- The frame is handed out and not given back since. -/
def Held (pa : Nat) : List FrameEvent → Prop
  | [] => False
  | .took x :: log => pa = x ∨ Held pa log
  | .gave x :: log => pa ≠ x ∧ Held pa log

/-- No frame is handed out while it is held. -/
def NeverTwice : List FrameEvent → Prop
  | [] => True
  | .took x :: log => ¬ Held x log ∧ NeverTwice log
  | .gave _ :: log => NeverTwice log

/-- The states that calls lead to, with the log. -/
inductive PmmRun (s0 : Pmm) : List FrameEvent → Pmm → Prop
  | start : PmmRun s0 [] s0
  | alloc {log : List FrameEvent} {s : Pmm} (h : PmmRun s0 log s) :
      PmmRun s0 (tookFrames s.alloc.1 1 ++ log) s.alloc.2
  | allocContiguous {log : List FrameEvent} {s : Pmm} (n : Int) (h : PmmRun s0 log s) :
      PmmRun s0 (tookFrames (s.allocContiguous n).1 n.toNat ++ log) (s.allocContiguous n).2
  | free {log : List FrameEvent} {s : Pmm} {pa : Nat} (h : PmmRun s0 log s)
      (htook : FrameEvent.took pa ∈ log) : PmmRun s0 (.gave pa :: log) (s.free pa)
  | freeContiguous {log : List FrameEvent} {s : Pmm} {pa : Nat} {n : Int} (h : PmmRun s0 log s)
      (htook : ∀ i < n.toNat, FrameEvent.took (pa + i * pageSize) ∈ log) :
      PmmRun s0 (eachFrame .gave pa n.toNat ++ log) (s.freeContiguous pa n)

/-- The `n` frames from `base` on are free. -/
def RunAt (l : List Nat) (n base : Nat) : Prop := ∀ i < n, base + i * pageSize ∈ l

/-! ## The search for a run -/

section

variable {l l1 l2 : List Nat} {a b : Nat}

/-- On a sorted list of page addresses the next page, if it is free, is the next element. -/
theorem notMem_of_gap (hsort : (l1 ++ a :: b :: l2).Pairwise (· < ·))
    (hal : ∀ x ∈ l1 ++ a :: b :: l2, x % pageSize = 0) (hgap : b ≠ a + pageSize) :
    a + pageSize ∉ l1 ++ a :: b :: l2 := by
  intro hmem
  rw [List.pairwise_append] at hsort
  obtain ⟨-, htail, hbefore⟩ := hsort
  rw [List.pairwise_cons] at htail
  obtain ⟨hhead, hrest⟩ := htail
  have hb := hal b (by simp)
  have ha := hal a (by simp)
  have hab := hhead b (by simp)
  unfold pageSize at *
  rcases List.mem_append.1 hmem with hl | hl
  · have := hbefore _ hl a (by simp)
    omega
  rcases List.mem_cons.1 hl with e | hl
  · omega
  rcases List.mem_cons.1 hl with e | hl
  · exact hgap e.symm
  · have := (List.pairwise_cons.1 hrest).1 _ hl
    omega

theorem notMem_of_last (hsort : (l1 ++ [a]).Pairwise (· < ·)) : a + pageSize ∉ l1 ++ [a] := by
  intro hmem
  unfold pageSize at hmem
  rcases List.mem_append.1 hmem with hl | hl
  · have := (List.pairwise_append.1 hsort).2.2 _ hl a (by simp)
    omega
  · have := List.mem_singleton.1 hl
    omega

theorem not_runAt_of_end {n count : Nat} {run : List Nat} (hcount : count < n)
    (hrun : ∀ k < count, run[k]? = run.head?.map (· + k * pageSize))
    (hend : ∀ first, run.head? = some first → first + count * pageSize ∉ l) :
    ∀ x ∈ run.take count, ¬ RunAt l n x := by
  intro x hx hat
  obtain ⟨k, hk, rfl⟩ := List.mem_iff_getElem.1 hx
  rw [List.length_take] at hk
  have hentry := hrun k (by omega)
  rw [List.getElem?_eq_getElem (by omega)] at hentry
  obtain ⟨first, hfirst, hval⟩ := Option.map_eq_some_iff.1 hentry.symm
  apply hend first hfirst
  have hstep := hat (count - k) (by omega)
  rw [List.getElem_take, ← hval, add_assoc, ← add_mul] at hstep
  rwa [show k + (count - k) = count by omega] at hstep

/-- The scan finds the lowest run. -/
theorem scanRun_least {n : Nat} (cur before run : List Nat) (count : Nat) {free : List Nat}
    (hsort : free.Pairwise (· < ·)) (hal : ∀ x ∈ free, x % pageSize = 0)
    (hfree : before ++ run = free) (hpos : 0 < count) (hcount : count ≤ run.length)
    (hcur : cur = run.drop (count - 1)) (hle : count ≤ n)
    (hrun : ∀ k < count, run[k]? = run.head?.map (· + k * pageSize))
    (hbefore : ∀ x ∈ before, ¬ RunAt free n x) :
    (∀ x ∈ (scanRun n before run count cur).1, ¬ RunAt free n x) ∧
      ((scanRun n before run count cur).2.2 < n →
        ∀ x ∈ (scanRun n before run count cur).2.1, ¬ RunAt free n x) := by
  induction cur generalizing before run count with
  | nil =>
    have hlen := congrArg List.length hcur
    rw [List.length_drop, List.length_nil] at hlen
    omega
  | cons a rest ih =>
    have hlast : run[count - 1]? = some a := by
      have hget := congrArg (·[0]?) hcur
      simpa [List.getElem?_drop] using hget.symm
    have hsplit : free = (before ++ run.take (count - 1)) ++ a :: rest := by
      rw [hcur, List.append_assoc, List.take_append_drop, hfree]
    -- the page behind the run, counted from its start
    have hbehind : ∀ first, run.head? = some first → first + count * pageSize = a + pageSize := by
      intro first hfirst
      have hprev := hrun (count - 1) (by omega)
      rw [hlast, hfirst, Option.map_some, Option.some_inj] at hprev
      rw [hprev, add_assoc, ← Nat.succ_mul, Nat.succ_eq_add_one, Nat.sub_add_cancel hpos]
    cases rest with
    | nil =>
      rw [scanRun]
      · refine ⟨hbefore, fun hlt => ?_⟩
        have hall : run.take count = run := by
          apply List.take_of_length_le
          have hlen := congrArg List.length hcur
          rw [List.length_drop, List.length_singleton] at hlen
          omega
        have hend := not_runAt_of_end (l := free) hlt hrun fun first hfirst => by
          rw [hbehind first hfirst]
          rw [hsplit] at hsort ⊢
          exact notMem_of_last hsort
        rwa [hall] at hend
      · simp
    | cons b rest =>
      have hnext : run.drop count = b :: rest := by
        have hdrop := congrArg (List.drop 1) hcur
        rw [List.drop_drop, Nat.sub_add_cancel hpos] at hdrop
        simpa using hdrop.symm
      have hb : run[count]? = some b := by
        have hget := congrArg (·[0]?) hnext
        simpa [List.getElem?_drop] using hget
      have hlt : count < run.length := by
        by_contra hge
        rw [List.drop_of_length_le (by omega)] at hnext
        cases hnext
      rw [scanRun]
      split
      · rename_i hn
        exact ⟨hbefore, fun h => absurd h (not_lt.2 hn)⟩
      split
      · -- the next free page continues the run
        rename_i hn hadj
        apply ih before run (count + 1) hfree (by omega) (by omega) _ (by omega) _ hbefore
        · rw [Nat.add_sub_cancel]
          exact hnext.symm
        intro k hk
        by_cases e : k = count
        · subst e
          obtain ⟨first, hfirst⟩ : ∃ first, run.head? = some first := by
            rw [← Option.isSome_iff_exists, List.isSome_head?, ← List.length_pos_iff]
            omega
          rw [hb, hadj, hfirst, Option.map_some, hbehind first hfirst]
        · exact hrun k (by omega)
      -- a gap: no page of the run starts a run that is long enough
      rename_i hn hgap
      apply ih (before ++ run.take count) (b :: rest) 1 _ (by omega) (by simp) (by simp) (by omega)
      · intro k hk
        obtain rfl : k = 0 := by omega
        simp
      · intro x hx
        rcases List.mem_append.1 hx with hx | hx
        · exact hbefore x hx
        refine not_runAt_of_end (not_le.1 hn) hrun (fun first hfirst => ?_) x hx
        rw [hbehind first hfirst]
        rw [hsplit] at hsort hal ⊢
        exact notMem_of_gap hsort hal hgap
      · rw [List.append_assoc, ← hnext, List.take_append_drop, hfree]

/-- `pmm_alloc_contiguous` fails when there is no run, and takes the lowest one otherwise. -/
theorem pmmAllocContiguous_least {m : PhysMem} {n : Nat} (hsort : m.free.Pairwise (· < ·))
    (hal : ∀ x ∈ m.free, x % pageSize = 0) (hn : 0 < n) :
    (pmmAllocContiguous m n = none → ∀ base, ¬ RunAt m.free n base) ∧
      ∀ base m', pmmAllocContiguous m n = some (base, m') →
        (∀ x, RunAt m.free n x → base ≤ x) ∧ m'.free.Sublist m.free := by
  have hmem : ∀ {x}, RunAt m.free n x → x ∈ m.free := fun hx => by simpa using hx 0 hn
  unfold pmmAllocContiguous
  rw [if_neg (ne_of_gt hn)]
  by_cases hone : n = 1
  · rw [if_pos hone, pmmAlloc_eq_none_iff]
    refine ⟨fun hnil base hat => ?_, fun base m' hal => ?_⟩
    · rw [hnil] at hat
      exact absurd (hat 0 hn) List.not_mem_nil
    unfold pmmAlloc at hal
    cases hfree : m.free with
    | nil =>
      rw [hfree] at hal
      cases hal
    | cons pa rest =>
      rw [hfree] at hal hmem hsort
      cases hal
      refine ⟨fun x hx => ?_, List.sublist_cons_self ..⟩
      rcases List.mem_cons.1 (hmem hx) with e | hrest
      · exact le_of_eq e.symm
      · exact le_of_lt ((List.pairwise_cons.1 hsort).1 x hrest)
  rw [if_neg hone]
  cases hfree : m.free with
  | nil =>
    rw [hfree] at hmem
    exact ⟨fun _ base hat => absurd (hmem hat) List.not_mem_nil, fun base m' h => by cases h⟩
  | cons first rest =>
    rw [hfree] at hsort hal hmem
    have hstart : ∀ k < 1, (first :: rest)[k]? = (first :: rest).head?.map (· + k * pageSize) := by
      intro k hk
      obtain rfl : k = 0 := by omega
      simp
    obtain ⟨hcut, -, hlen, -⟩ := scanRun_spec (n := n) (first :: rest) [] (first :: rest) 1 rfl (by omega)
      (by simp) (by simp) (by omega) hstart
    obtain ⟨hbefore, hrun⟩ := scanRun_least (n := n) (first :: rest) [] (first :: rest) 1 hsort hal rfl
      (by omega) (by simp) (by simp) (by omega) hstart (by simp)
    rw [List.nil_append] at hcut
    dsimp only
    generalize scanRun n [] (first :: rest) 1 (first :: rest) = r at hcut hlen hbefore hrun ⊢
    rcases r with ⟨before, run, count⟩
    dsimp only at hcut hlen hbefore hrun ⊢
    by_cases hcount : count < n
    · rw [if_pos hcount]
      refine ⟨fun _ base hat => ?_, fun base m' h => by cases h⟩
      have hbase := hmem hat
      rw [← hcut] at hbase
      rcases List.mem_append.1 hbase with h | h
      · exact hbefore base h hat
      · exact hrun hcount base h hat
    rw [if_neg hcount]
    cases run with
    | nil =>
      rw [List.length_nil] at hlen
      omega
    | cons a tail =>
      refine ⟨fun h => (by cases h), fun base m' h => ?_⟩
      cases h
      refine ⟨fun x hx => ?_, ?_⟩
      · have hx' := hmem hx
        rw [← hcut] at hx' hsort
        rcases List.mem_append.1 hx' with h | h
        · exact absurd hx (hbefore x h)
        · rcases List.mem_cons.1 h with e | h
          · exact le_of_eq e.symm
          · exact le_of_lt ((List.pairwise_cons.1 (List.pairwise_append.1 hsort).2.1).1 x h)
      · rw [zeroPages_free, ← hcut]
        exact List.Sublist.append (List.Sublist.refl _) (List.drop_sublist ..)

end

/-! ## The log -/

section

variable {log : List FrameEvent} {pa base n : Nat}

theorem mem_eachFrame {event : Nat → FrameEvent} {e : FrameEvent} :
    e ∈ eachFrame event base n ↔ ∃ x ∈ runFrames base n, e = event x := by
  induction n with
  | zero => simp [eachFrame, runFrames]
  | succ n ih =>
    rw [eachFrame, runFrames_succ, List.mem_cons, ih]
    simp

theorem held_took : Held pa (eachFrame .took base n ++ log) ↔ pa ∈ runFrames base n ∨ Held pa log := by
  induction n with
  | zero => simp [eachFrame, runFrames]
  | succ n ih =>
    rw [eachFrame, List.cons_append, Held, ih, runFrames_succ, mem_cons, or_assoc]

theorem neverTwice_took (hnodup : (runFrames base n).Nodup) (hnew : ∀ x ∈ runFrames base n, ¬ Held x log)
    (h : NeverTwice log) : NeverTwice (eachFrame .took base n ++ log) := by
  induction n with
  | zero => exact h
  | succ n ih =>
    rw [runFrames_succ] at hnodup hnew
    obtain ⟨hnot, hrest⟩ := nodup_cons.1 hnodup
    refine ⟨fun hheld => ?_, ih hrest fun x hx => hnew x (mem_cons_of_mem hx)⟩
    rcases held_took.1 hheld with hmem | hheld
    · exact hnot hmem
    · exact hnew _ (mem_cons_self ..) hheld

end

/-! ## The invariant -/

/-- What holds between two calls. -/
structure Pmm.Inv (start reservedStart reservedEnd : Nat) (log : List FrameEvent) (s : Pmm) : Prop where
  sorted : s.mem.free.Pairwise (· < ·)
  usable : ∀ pa ∈ s.mem.free, IsFrame pa ∧ Mm.usable start reservedStart reservedEnd pa = true
  count : s.freeCount = BitVec.ofNat 64 s.mem.free.length
  took : ∀ pa, FrameEvent.took pa ∈ log → IsFrame pa ∧ Mm.usable start reservedStart reservedEnd pa = true
  held : ∀ pa, Held pa log → pa ∉ s.mem.free
  never : NeverTwice log

section

variable {start rs re : Nat} {log : List FrameEvent} {s : Pmm} {pa : Nat}

theorem Pmm.Inv.nodup (h : s.Inv start rs re log) : s.mem.free.Nodup := h.sorted.imp ne_of_lt

theorem Pmm.Inv.aligned (h : s.Inv start rs re log) : ∀ x ∈ s.mem.free, x % pageSize = 0 :=
  fun x hx => (h.usable x hx).1.aligned

theorem Pmm.inv_init (page : Nat → Lib.Bytes) (start rs re : Nat) :
    (Pmm.init page start rs re).Inv start rs re [] where
  sorted := by
    apply List.Pairwise.filter
    exact List.pairwise_lt_range' _ (by decide)
  usable pa hpa := by
    obtain ⟨hmem, husable⟩ := List.mem_filter.1 hpa
    exact ⟨mem_ramFrames.1 hmem, husable⟩
  count := rfl
  took pa h := absurd h List.not_mem_nil
  held pa h := h.elim
  never := trivial

theorem Pmm.Inv.take (h : s.Inv start rs re log) {mem : PhysMem} {base n : Nat}
    (hsub : mem.free.Sublist s.mem.free)
    (hfree : (s.mem.free : Multiset Nat) = runFrames base n + (mem.free : Multiset Nat)) :
    Pmm.Inv start rs re (eachFrame .took base n ++ log) ⟨mem, s.freeCount - BitVec.ofNat 64 n⟩ := by
  have hnodup : ((s.mem.free : Multiset Nat)).Nodup := h.nodup
  rw [hfree, nodup_add] at hnodup
  obtain ⟨hrun, -, hdis⟩ := hnodup
  have hmem : ∀ x ∈ runFrames base n, x ∈ s.mem.free := fun x hx => by
    rw [← mem_coe, hfree]
    exact mem_add.2 (Or.inl hx)
  refine ⟨h.sorted.sublist hsub, fun x hx => h.usable x (hsub.subset hx), ?_, fun x hx => ?_, ?_, ?_⟩
  · have hlen := congrArg Multiset.card hfree
    rw [card_add, coe_card, coe_card, runFrames, card_map, card_range] at hlen
    rw [h.count, hlen, BitVec.ofNat_add, BitVec.add_comm, BitVec.add_sub_cancel]
  · rcases List.mem_append.1 hx with hx | hx
    · obtain ⟨y, hy, e⟩ := mem_eachFrame.1 hx
      cases e
      exact h.usable x (hmem x hy)
    · exact h.took x hx
  · intro x hx hx'
    rcases held_took.1 hx with hx | hx
    · exact disjoint_left.1 hdis hx (mem_coe.2 hx')
    · exact h.held x hx (hsub.subset hx')
  · exact neverTwice_took hrun (fun x hx hheld => h.held x hheld (hmem x hx)) h.never

theorem insertFree_sorted {l l' : List Nat} (h : insertFree pa l = some l') (hsort : l.Pairwise (· < ·)) :
    l'.Pairwise (· < ·) := by
  induction l generalizing l' with
  | nil =>
    cases h
    exact List.pairwise_singleton ..
  | cons a rest ih =>
    obtain ⟨hhead, hrest⟩ := List.pairwise_cons.1 hsort
    rw [insertFree] at h
    split at h
    · rename_i hlt
      obtain ⟨t, ht, rfl⟩ := Option.map_eq_some_iff.1 h
      refine List.pairwise_cons.2 ⟨fun x hx => ?_, ih ht hrest⟩
      rw [← mem_coe, insertFree_perm ht] at hx
      rcases mem_cons.1 hx with e | hx
      · rwa [e]
      · exact hhead x hx
    split at h
    · cases h
    cases h
    refine List.pairwise_cons.2 ⟨fun x hx => ?_, hsort⟩
    rcases List.mem_cons.1 hx with e | hx
    · omega
    · have := hhead x hx
      omega

/-- A frame that was handed out is given back, possibly not for the first time. -/
theorem Pmm.Inv.free (h : s.Inv start rs re log) (htook : FrameEvent.took pa ∈ log) :
    (s.free pa).Inv start rs re (.gave pa :: log) := by
  have hlog : ∀ x, FrameEvent.took x ∈ FrameEvent.gave pa :: log → FrameEvent.took x ∈ log := by
    intro x hx
    rcases List.mem_cons.1 hx with e | hx
    · cases e
    · exact hx
  unfold Pmm.free
  rw [if_pos (h.took pa htook).1]
  cases hins : insertFree pa s.mem.free with
  | none =>
    refine ⟨h.sorted, h.usable, h.count, fun x hx => h.took x (hlog x hx), fun x hx => ?_, h.never⟩
    exact h.held x hx.2
  | some l =>
    have hperm := insertFree_perm hins
    have hmem : ∀ x ∈ l, x = pa ∨ x ∈ s.mem.free := fun x hx => by
      rw [← mem_coe, hperm] at hx
      simpa using hx
    refine ⟨insertFree_sorted hins h.sorted, fun x hx => ?_, ?_, fun x hx => h.took x (hlog x hx), ?_,
      h.never⟩
    · rcases hmem x hx with e | hx
      · rw [e]
        exact h.took pa htook
      · exact h.usable x hx
    · have hlen := congrArg Multiset.card hperm
      rw [card_cons, coe_card, coe_card] at hlen
      rw [PhysMem.zeroPage_free, hlen, h.count, BitVec.ofNat_add]
      rfl
    intro x hx hx'
    rcases hmem x hx' with e | hx'
    · exact hx.1 e
    · exact h.held x hx.2 hx'

theorem Pmm.Inv.freeFrames (h : s.Inv start rs re log) {n : Nat}
    (htook : ∀ i < n, FrameEvent.took (pa + i * pageSize) ∈ log) :
    ((List.range n).foldl (fun s i => s.free (pa + i * pageSize)) s).Inv start rs re
      (eachFrame .gave pa n ++ log) := by
  induction n with
  | zero => exact h
  | succ n ih =>
    rw [List.range_succ, List.foldl_append]
    apply (ih fun i hi => htook i (by omega)).free
    exact List.mem_append.2 (Or.inr (htook n (Nat.lt_succ_self n)))

theorem Pmm.Inv.alloc (h : s.Inv start rs re log) :
    s.alloc.2.Inv start rs re (tookFrames s.alloc.1 1 ++ log) := by
  unfold Pmm.alloc
  cases hal : pmmAlloc s.mem with
  | none => exact h
  | some r =>
    obtain ⟨base, mem⟩ := r
    have hone : pmmAllocContiguous s.mem 1 = some (base, mem) := hal
    have hsub := ((pmmAllocContiguous_least h.sorted h.aligned Nat.one_pos).2 base mem hone).2
    exact h.take hsub (pmmAllocContiguous_spec hone).1

theorem Pmm.Inv.allocContiguous (h : s.Inv start rs re log) (n : Int) :
    (s.allocContiguous n).2.Inv start rs re (tookFrames (s.allocContiguous n).1 n.toNat ++ log) := by
  unfold Pmm.allocContiguous
  split
  · exact h
  cases hal : pmmAllocContiguous s.mem n.toNat with
  | none => exact h
  | some r =>
    obtain ⟨base, mem⟩ := r
    have hsub := ((pmmAllocContiguous_least h.sorted h.aligned (by omega)).2 base mem hal).2
    exact h.take hsub (pmmAllocContiguous_spec hal).1

theorem PmmRun.inv {page : Nat → Lib.Bytes} (h : PmmRun (Pmm.init page start rs re) log s) :
    s.Inv start rs re log := by
  induction h with
  | start => exact Pmm.inv_init ..
  | alloc _ ih => exact ih.alloc
  | allocContiguous n _ ih => exact ih.allocContiguous n
  | free _ htook ih => exact ih.free htook
  | freeContiguous _ htook ih => exact ih.freeFrames htook

theorem Pmm.Inv.toNat_count (h : s.Inv start rs re log) : s.freeCount.toNat = s.mem.free.length := by
  have hsub : s.mem.free.Subperm ramFrames :=
    List.subperm_of_subset h.nodup fun x hx => mem_ramFrames.2 (h.usable x hx).1
  have hlen := hsub.length_le
  rw [ramFrames, List.length_range'] at hlen
  rw [h.count, BitVec.toNat_ofNat]
  apply Nat.mod_eq_of_lt
  exact lt_of_le_of_lt hlen (by decide)

/-- An allocation takes the lowest run of free frames, or there is none. -/
theorem Pmm.Inv.lowest (h : s.Inv start rs re log) (n : Int) :
    match s.allocContiguous n with
    | (none, _) => ¬ (0 < n ∧ ∃ base, RunAt s.mem.free n.toNat base)
    | (some base, s') => 0 < n ∧ RunAt s.mem.free n.toNat base ∧
        (∀ x, RunAt s.mem.free n.toNat x → base ≤ x) ∧
        (s.mem.free : Multiset Nat) = runFrames base n.toNat + (s'.mem.free : Multiset Nat) := by
  unfold Pmm.allocContiguous
  by_cases hn : n ≤ 0
  · rw [if_pos hn]
    exact fun hpos => absurd hpos.1 (Int.not_lt.2 hn)
  rw [if_neg hn]
  obtain ⟨hnone, hsome⟩ := pmmAllocContiguous_least h.sorted h.aligned (n := n.toNat) (by omega)
  cases hal : pmmAllocContiguous s.mem n.toNat with
  | none => exact fun hrun => hrun.2.elim (hnone hal)
  | some r =>
    obtain ⟨base, mem⟩ := r
    have hfree := (pmmAllocContiguous_spec hal).1
    refine ⟨Int.not_le.1 hn, fun i hi => ?_, (hsome base mem hal).1, hfree⟩
    rw [← mem_coe, hfree]
    refine mem_add.2 (Or.inl (mem_map.2 ⟨i, ?_, rfl⟩))
    rwa [mem_range]

end

/-- After `pmm_init` and any calls the free list is sorted, its length is `free_count`, its frames are
usable, no frame has been handed out while it was held, and a request for several pages takes the lowest
run there is. -/
theorem free_list_sound {page : Nat → Lib.Bytes} {start rs re : Nat} {log : List FrameEvent} {s : Pmm}
    (h : PmmRun (Pmm.init page start rs re) log s) :
    s.mem.free.Pairwise (· < ·) ∧
      (∀ pa ∈ s.mem.free, IsFrame pa ∧ usable start rs re pa = true) ∧
      s.freeCount.toNat = s.mem.free.length ∧ NeverTwice log ∧
      ∀ n : Int, match s.allocContiguous n with
        | (none, _) => ¬ (0 < n ∧ ∃ base, RunAt s.mem.free n.toNat base)
        | (some base, s') => 0 < n ∧ RunAt s.mem.free n.toNat base ∧
            (∀ x, RunAt s.mem.free n.toNat x → base ≤ x) ∧
            (s.mem.free : Multiset Nat) = runFrames base n.toNat + (s'.mem.free : Multiset Nat) :=
  ⟨h.inv.sorted, h.inv.usable, h.inv.toNat_count, h.inv.never, h.inv.lowest⟩

/-- The allocator of a memory of five pages. -/
def fivePages : Pmm := Pmm.init (fun _ _ => 0) (ramBase + ramSize - 5 * pageSize) 0 0

/-- Two pages in a row and then one more. -/
theorem free_list_sound_five :
    (fivePages.allocContiguous 2).2.alloc.2.freeCount.toNat =
      (fivePages.allocContiguous 2).2.alloc.2.mem.free.length :=
  (free_list_sound (PmmRun.alloc (PmmRun.allocContiguous 2 (@PmmRun.start fivePages)))).2.2.1

end Slopix.Mm
