import Mathlib.Algebra.BigOperators.Group.Multiset.Basic
import Mathlib.Data.Multiset.Range
import Slopix.Lib.Bytes

/-!
# The physical page allocator

`kernel/pmm.c`. Memory is a byte array for every page frame, named by its physical address. The free
list is a list of frames; the source threads it through the free pages themselves, whose contents
nobody else may use. `PMM_INVALID` is `none`.

The specifications count frames in multisets: an allocation moves frames out of the free list and
`pmm_free` moves one back, and neither touches the contents of a frame that stays in use.
-/

namespace Slopix.Mm

open Lib Multiset Option

/-- `PAGE_SIZE`. -/
def pageSize : Nat := 4096

/-- `RAM_BASE`. -/
def ramBase : Nat := 0x40000000

/-- `RAM_SIZE`. -/
def ramSize : Nat := 0x08000000

/-- Page contents by physical address, and `freelist`. -/
structure PhysMem where
  page : Nat → Bytes
  free : List Nat

/-- A frame of the RAM. -/
structure IsFrame (pa : Nat) : Prop where
  ge : ramBase ≤ pa
  lt : pa < ramBase + ramSize
  aligned : pa % pageSize = 0

instance (pa : Nat) : Decidable (IsFrame pa) :=
  decidable_of_iff (ramBase ≤ pa ∧ pa < ramBase + ramSize ∧ pa % pageSize = 0)
    ⟨fun ⟨h1, h2, h3⟩ => ⟨h1, h2, h3⟩, fun h => ⟨h.ge, h.lt, h.aligned⟩⟩

namespace PhysMem

/-- Replace the contents of one page. -/
def setPage (m : PhysMem) (pa : Nat) (b : Bytes) : PhysMem := { m with page := Function.update m.page pa b }

/-- Fill a page with zeros. -/
def zeroPage (m : PhysMem) (pa : Nat) : PhysMem := m.setPage pa fun _ => 0

@[simp] theorem setPage_free (m : PhysMem) (pa : Nat) (b : Bytes) : (m.setPage pa b).free = m.free := rfl

@[simp] theorem setPage_page_self (m : PhysMem) (pa : Nat) (b : Bytes) : (m.setPage pa b).page pa = b :=
  Function.update_self ..

theorem setPage_page_of_ne {m : PhysMem} {pa x : Nat} (h : x ≠ pa) (b : Bytes) :
    (m.setPage pa b).page x = m.page x :=
  Function.update_of_ne h ..

@[simp] theorem zeroPage_free (m : PhysMem) (pa : Nat) : (m.zeroPage pa).free = m.free := rfl

@[simp] theorem zeroPage_page_self (m : PhysMem) (pa : Nat) : (m.zeroPage pa).page pa = fun _ => 0 :=
  setPage_page_self ..

theorem zeroPage_page_of_ne {m : PhysMem} {pa x : Nat} (h : x ≠ pa) :
    (m.zeroPage pa).page x = m.page x :=
  setPage_page_of_ne h _

end PhysMem

/-- All frames of the memory. -/
def ramFrames : List Nat := List.range' ramBase (ramSize / pageSize) pageSize

/-- The frames `pmm_init` takes: behind the kernel, which ends at `start`, and not reserved. -/
def usable (start reservedStart reservedEnd pa : Nat) : Bool :=
  decide (start ≤ pa) &&
    !(reservedStart != 0 && decide (reservedStart ≤ pa) && decide (pa < reservedEnd))

/-- `pmm_init`: the usable frames, zeroed, in address order. -/
def pmmInit (page : Nat → Bytes) (start reservedStart reservedEnd : Nat) : PhysMem where
  page pa := if IsFrame pa ∧ usable start reservedStart reservedEnd pa then fun _ => 0 else page pa
  free := ramFrames.filter (usable start reservedStart reservedEnd)

/-- `pmm_alloc`: the first free page, zeroed. -/
def pmmAlloc (m : PhysMem) : Option (Nat × PhysMem) :=
  match m.free with
  | [] => none
  | pa :: rest => some (pa, { m with free := rest }.zeroPage pa)

/-- The search of `pmm_alloc_contiguous`: `before` holds the free pages before the current run, `run`
the free pages from its start on, `count` the length of the run up to the page `cur` starts with. -/
def scanRun (n : Nat) : List Nat → List Nat → Nat → List Nat → List Nat × List Nat × Nat
  | before, run, count, a :: b :: rest =>
    if n ≤ count then (before, run, count)
    else if b = a + pageSize then scanRun n before run (count + 1) (b :: rest)
    else scanRun n (before ++ run.take count) (b :: rest) 1 (b :: rest)
  | before, run, count, _ => (before, run, count)

/-- Zero the `n` pages from `base` on. -/
def zeroPages (m : PhysMem) (base : Nat) : Nat → PhysMem
  | 0 => m
  | n + 1 => (zeroPages m base n).zeroPage (base + n * pageSize)

/-- `pmm_alloc_contiguous`: the first run of frames one behind the other in the free list. -/
def pmmAllocContiguous (m : PhysMem) (n : Nat) : Option (Nat × PhysMem) :=
  if n = 0 then none
  else if n = 1 then pmmAlloc m
  else
    match m.free with
    | [] => none
    | base :: rest =>
      let r := scanRun n [] (base :: rest) 1 (base :: rest)
      if r.2.2 < n then none
      else
        match r.2.1 with
        | [] => none
        | first :: _ =>
          some (first, zeroPages { m with free := r.1 ++ r.2.1.drop n } first n)

/-- The insertion of `pmm_free`: before the first page with a larger address. `none` when the page
is already there. -/
def insertFree (pa : Nat) : List Nat → Option (List Nat)
  | [] => some [pa]
  | a :: rest =>
    if a < pa then (insertFree pa rest).map (a :: ·)
    else if a = pa then none
    else some (pa :: a :: rest)

/-- `pmm_free`: what is no frame, or is free already, is left alone. -/
def pmmFree (m : PhysMem) (pa : Nat) : PhysMem :=
  if IsFrame pa then
    match insertFree pa m.free with
    | none => m
    | some free => { m with free := free }.zeroPage pa
  else m

/-- `pmm_free_contiguous`. -/
def pmmFreeContiguous (m : PhysMem) (pa : Nat) : Nat → PhysMem
  | 0 => m
  | n + 1 => pmmFree (pmmFreeContiguous m pa n) (pa + n * pageSize)

/-! ## Specifications -/

theorem mem_ramFrames {pa : Nat} : pa ∈ ramFrames ↔ IsFrame pa := by
  unfold ramFrames
  rw [List.mem_range']
  constructor
  · rintro ⟨k, hk, rfl⟩
    simp only [ramSize, pageSize] at hk
    constructor <;> simp only [ramBase, ramSize, pageSize] <;> omega
  · rintro ⟨hge, hlt, hal⟩
    simp only [ramBase, ramSize, pageSize] at *
    exact ⟨(pa - 0x40000000) / 4096, by omega, by omega⟩

theorem nodup_ramFrames : ramFrames.Nodup := List.nodup_range' _ (by decide)

/-- The frames of a run of `n` pages. -/
def runFrames (base n : Nat) : Multiset Nat := (range n).map fun k => base + k * pageSize

theorem runFrames_succ (base n : Nat) :
    runFrames base (n + 1) = (base + n * pageSize) ::ₘ runFrames base n := by
  simp [runFrames, range_succ]

section

variable {m m' : PhysMem}

/-- An allocated page comes from the free list and is zero; no page in use changes. -/
theorem pmmAlloc_spec {pa : Nat} (h : pmmAlloc m = some (pa, m')) :
    (m.free : Multiset Nat) = {pa} + (m'.free : Multiset Nat) ∧ m'.page pa = (fun _ => 0) ∧
      ∀ x, x ≠ pa → m'.page x = m.page x := by
  unfold pmmAlloc at h
  split at h
  · cases h
  rename_i rest hfree
  obtain ⟨rfl, rfl⟩ := Prod.mk.inj (some.inj h)
  refine ⟨?_, PhysMem.zeroPage_page_self .., fun x hx => PhysMem.zeroPage_page_of_ne hx⟩
  rw [hfree, PhysMem.zeroPage_free]
  exact (cons_coe ..).symm

theorem mem_free_of_alloc {pa : Nat} (h : pmmAlloc m = some (pa, m')) : pa ∈ m.free := by
  rw [← mem_coe, (pmmAlloc_spec h).1]
  exact mem_add.2 (Or.inl (mem_singleton_self pa))

theorem free_of_alloc {pa x : Nat} (h : pmmAlloc m = some (pa, m')) (hx : x ∈ m'.free) : x ∈ m.free := by
  rw [← mem_coe, (pmmAlloc_spec h).1]
  exact mem_add.2 (Or.inr hx)

theorem pmmAlloc_eq_none_iff : pmmAlloc m = none ↔ m.free = [] := by
  unfold pmmAlloc
  cases m.free <;> simp

theorem insertFree_perm {pa : Nat} {l l' : List Nat} (h : insertFree pa l = some l') :
    (l' : Multiset Nat) = pa ::ₘ (l : Multiset Nat) := by
  induction l generalizing l' with
  | nil =>
    obtain rfl := some.inj h
    rfl
  | cons a rest ih =>
    rw [insertFree] at h
    split at h
    · obtain ⟨t, ht, rfl⟩ := map_eq_some_iff.1 h
      rw [← cons_coe, ih ht, cons_swap, cons_coe]
    split at h
    · cases h
    · obtain rfl := some.inj h
      rfl

theorem insertFree_isSome {pa : Nat} {l : List Nat} (h : pa ∉ l) : ∃ l', insertFree pa l = some l' := by
  induction l with
  | nil => exact ⟨_, rfl⟩
  | cons a rest ih =>
    obtain ⟨hne, hrest⟩ : pa ≠ a ∧ pa ∉ rest := by simpa using h
    rw [insertFree]
    split
    · obtain ⟨t, ht⟩ := ih hrest
      exact ⟨a :: t, by rw [ht]; rfl⟩
    · rw [if_neg (Ne.symm hne)]
      exact ⟨_, rfl⟩

/-- Freeing a frame that is in use puts it on the free list and changes no other page. -/
theorem pmmFree_spec {pa : Nat} (hpa : IsFrame pa) (hused : pa ∉ m.free) :
    ((pmmFree m pa).free : Multiset Nat) = {pa} + (m.free : Multiset Nat) ∧
      ∀ x, x ≠ pa → (pmmFree m pa).page x = m.page x := by
  obtain ⟨l, hl⟩ := insertFree_isSome hused
  unfold pmmFree
  rw [if_pos hpa, hl]
  exact ⟨insertFree_perm hl, fun x hx => PhysMem.zeroPage_page_of_ne hx⟩

theorem pmmFreeContiguous_spec {base n : Nat} (hframe : ∀ x ∈ runFrames base n, IsFrame x)
    (hnodup : ((m.free : Multiset Nat) + runFrames base n).Nodup) :
    ((pmmFreeContiguous m base n).free : Multiset Nat) =
        (m.free : Multiset Nat) + runFrames base n ∧
      ∀ x, x ∉ runFrames base n → (pmmFreeContiguous m base n).page x = m.page x := by
  induction n with
  | zero => simp [pmmFreeContiguous, runFrames]
  | succ n ih =>
    rw [runFrames_succ] at hframe hnodup ⊢
    rw [add_cons, nodup_cons] at hnodup
    obtain ⟨hnew, hrest⟩ := hnodup
    obtain ⟨ihfree, ihpage⟩ := ih (fun x hx => hframe x (mem_cons_of_mem hx)) hrest
    have hnot : base + n * pageSize ∉ (pmmFreeContiguous m base n).free := by
      rw [← mem_coe, ihfree]
      exact hnew
    obtain ⟨hfree, hpage⟩ := pmmFree_spec (hframe _ (mem_cons_self ..)) hnot
    refine ⟨?_, fun x hx => ?_⟩
    · rw [pmmFreeContiguous, hfree, ihfree, add_cons, singleton_add]
    · rw [mem_cons, not_or] at hx
      rw [pmmFreeContiguous, hpage x hx.1, ihpage x hx.2]

theorem zeroPages_free (m : PhysMem) (base n : Nat) : (zeroPages m base n).free = m.free := by
  induction n with
  | zero => rfl
  | succ n ih => exact ih

theorem zeroPages_page {base n x : Nat} (h : x ∉ runFrames base n) :
    (zeroPages m base n).page x = m.page x := by
  induction n with
  | zero => rfl
  | succ n ih =>
    rw [runFrames_succ, mem_cons, not_or] at h
    rw [zeroPages, PhysMem.zeroPage_page_of_ne h.1, ih h.2]

/-- What the search finds: the free list cut in two, with `count` consecutive pages at the cut. -/
theorem scanRun_spec {n : Nat} (cur before run : List Nat) (count : Nat) {free : List Nat}
    (hfree : before ++ run = free) (hpos : 0 < count) (hcount : count ≤ run.length)
    (hcur : cur = run.drop (count - 1)) (hle : count ≤ n)
    (hrun : ∀ k < count, run[k]? = run.head?.map (· + k * pageSize)) :
    (scanRun n before run count cur).1 ++ (scanRun n before run count cur).2.1 = free ∧
      (scanRun n before run count cur).2.2 ≤ n ∧
      (scanRun n before run count cur).2.2 ≤ (scanRun n before run count cur).2.1.length ∧
      ∀ k < (scanRun n before run count cur).2.2, (scanRun n before run count cur).2.1[k]? =
        (scanRun n before run count cur).2.1.head?.map (· + k * pageSize) := by
  induction cur generalizing before run count with
  | nil => exact ⟨hfree, hle, hcount, hrun⟩
  | cons a rest ih =>
    cases rest with
    | nil => exact ⟨hfree, hle, hcount, hrun⟩
    | cons b rest =>
      have hlast : run[count - 1]? = some a := by
        have := congrArg (·[0]?) hcur
        simpa [List.getElem?_drop] using this.symm
      have hnext : run.drop count = b :: rest := by
        have := congrArg (List.drop 1) hcur
        rw [List.drop_drop, Nat.sub_add_cancel hpos] at this
        simpa using this.symm
      have hb : run[count]? = some b := by
        have := congrArg (·[0]?) hnext
        simpa [List.getElem?_drop] using this
      have hlt : count < run.length := by
        by_contra hge
        rw [List.drop_of_length_le (by omega)] at hnext
        cases hnext
      rw [scanRun]
      split
      · exact ⟨hfree, hle, hcount, hrun⟩
      split
      · -- the next free page continues the run
        rename_i hlen hadj
        apply ih before run (count + 1) hfree (by omega) (by omega) _ (by omega)
        · intro k hk
          by_cases e : k = count
          · subst e
            have hprev := hrun (k - 1) (by omega)
            rw [hlast] at hprev
            obtain ⟨first, hfirst, hval⟩ := map_eq_some_iff.1 hprev.symm
            rw [hb, hfirst, hadj, ← hval, map_some]
            obtain ⟨j, rfl⟩ : ∃ j, k = j + 1 := ⟨k - 1, by omega⟩
            rw [Nat.add_sub_cancel, Nat.add_assoc, ← Nat.succ_mul]
          · exact hrun k (by omega)
        · rw [Nat.add_sub_cancel]
          exact hnext.symm
      -- a gap: the run starts over at the next free page
      apply ih (before ++ run.take count) (b :: rest) 1 _ (by omega) (by simp) (by simp)
        (by omega)
      · intro k hk
        obtain rfl : k = 0 := by omega
        simp
      · rw [List.append_assoc, ← hnext, List.take_append_drop, hfree]

/-- A run that is allocated was free. -/
theorem pmmAllocContiguous_spec {n pa : Nat} (h : pmmAllocContiguous m n = some (pa, m')) :
    (m.free : Multiset Nat) = runFrames pa n + (m'.free : Multiset Nat) ∧
      ∀ x, x ∉ runFrames pa n → m'.page x = m.page x := by
  unfold pmmAllocContiguous at h
  split at h
  · cases h
  split at h
  · rename_i hone
    subst hone
    obtain ⟨hfree, -, hpage⟩ := pmmAlloc_spec h
    refine ⟨by simpa [runFrames] using hfree, fun x hx => hpage x ?_⟩
    simpa [runFrames, eq_comm] using hx
  split at h
  · cases h
  rename_i base rest hfree
  simp only at h
  split at h
  · cases h
  obtain ⟨hcut, hle, hlen', hcons⟩ := scanRun_spec (n := n) (base :: rest) []
    (base :: rest) 1 rfl (by omega) (by simp) (by simp) (by omega) (by
      intro k hk
      obtain rfl : k = 0 := by omega
      simp)
  split at h
  · cases h
  rename_i first tail hrun
  obtain ⟨rfl, rfl⟩ := Prod.mk.inj (some.inj h)
  rw [hrun] at hcut hlen' hcons
  have hcount : (scanRun n [] (base :: rest) 1 (base :: rest)).2.2 = n := by omega
  rw [hcount] at hlen' hcons
  have htake : ((first :: tail).take n : Multiset Nat) = runFrames first n := by
    have hlist : (first :: tail).take n =
        (List.range n).map fun k => first + k * pageSize := by
      apply List.ext_getElem?
      intro k
      by_cases hk : k < n
      · rw [List.getElem?_take_of_lt hk, hcons k hk]
        simp [hk]
      · rw [List.getElem?_eq_none (by simp; omega), List.getElem?_eq_none (by simp; omega)]
    rw [hlist]
    rfl
  refine ⟨?_, fun x hx => zeroPages_page hx⟩
  rw [List.nil_append] at hcut
  have hsplit : (base :: rest : Multiset Nat) =
      (scanRun n [] (base :: rest) 1 (base :: rest)).1 +
        (((first :: tail).take n : Multiset Nat) + ((first :: tail).drop n)) := by
    rw [coe_add, List.take_append_drop, coe_add, hcut]
  rw [zeroPages_free, hfree, ← htake, hrun, hsplit, ← coe_add]
  exact add_left_comm ..

end

end Slopix.Mm
