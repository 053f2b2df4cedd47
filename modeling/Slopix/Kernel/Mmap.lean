import Slopix.Kernel.Sbrk

/-!
# Anonymous mappings

`sys_mmap` and `sys_munmap` of `kernel/syscall.c`. A mapping that fails halfway unmaps the pages it has
mapped, and only those. Both calls round the length up modulo `2^64`, and `munmap` walks 48 bits of an
address that it has not checked.
-/

namespace Slopix.Kernel

open Lib Mm Fs Ipc Nat

section

variable {m m' : PhysMem} {root va done n : Nat} {write : Bool} {k : Kern}

/-- The mapping loop of `sys_mmap` on memory. -/
def mmapPages (root : Nat) (write : Bool) : Nat → Nat → Nat → PhysMem → Bool × PhysMem
  | 0, _, _, m => (true, m)
  | n + 1, done, va, m =>
    match newPage m root va write false with
    | (some _, m') => mmapPages root write n (done + 1) (va + 4096) m'
    | (none, m') => (false, dropPages root done (va - done * 4096) m')

theorem unmapPages_plain (k : Kern) (t n va : Nat) :
    unmapPages t n va k = .ok ((), k.withMm (dropPages t n va k.mm)) := by
  induction n generalizing k va with
  | zero => rfl
  | succ n ih =>
    have hunmap : (onMm fun m => vmmUnmapPage m t va) k =
        .ok ((vmmUnmapPage k.mm t va).1, k.withMm (vmmUnmapPage k.mm t va).2) := rfl
    rw [unmapPages, Exec.bind_ok hunmap, dropPages]
    rcases vmmUnmapPage k.mm t va with ⟨_ | pa, m'⟩
    · exact ih (k.withMm m') (va + 4096)
    · exact ih (k.withMm (pmmFree m' pa)) (va + 4096)

theorem zeroPage_alloc {pa : Nat} (hal : pmmAlloc m = some (pa, m')) : m'.zeroPage pa = m' := by
  have hzero := (pmmAlloc_spec hal).2.1
  unfold PhysMem.zeroPage PhysMem.setPage
  rw [← hzero, Function.update_eq_self]

theorem mmapLoop_plain (k : Kern) (t n done va : Nat) (write : Bool) :
    mmapLoop t write n done va k =
      .ok ((mmapPages t write n done va k.mm).1, k.withMm (mmapPages t write n done va k.mm).2) := by
  induction n generalizing k done va with
  | zero => rfl
  | succ n ih =>
    have hinit : ∀ pa m, pmmAlloc k.mm = some (pa, m) →
        (do modifyMm fun m => m.zeroPage pa; pure true : KM Bool) (k.withMm m) =
          .ok (true, k.withMm m) := by
      intro pa m hal
      show Except.ok (true, k.withMm (m.zeroPage pa)) = _
      rw [zeroPage_alloc hal]
    rw [mmapLoop, Exec.bind_ok (mapNew_idle t va write false hinit), mmapPages]
    rcases newPage k.mm t va write false with ⟨_ | pa, m'⟩
    · dsimp only
      rw [Exec.bind_ok (unmapPages_plain (k.withMm m') t done _)]
      rfl
    · exact ih (k.withMm m') (done + 1) (va + 4096)

theorem mmapPages_mapped (h : newPages root write false n va m = (true, m')) :
    mmapPages root write n done va m = (true, m') := by
  induction n generalizing m done va with
  | zero => exact h
  | succ n ih =>
    rw [newPages] at h
    rw [mmapPages]
    rcases hnew : newPage m root va write false with ⟨_ | pa, m1⟩ <;> rw [hnew] at h
    · cases h
    · exact ih h

/-- When a page cannot be had, the loop drops the pages it has mapped. -/
theorem mmapPages_stopped (h : newPages root write false n va m = (false, m')) :
    ∃ j < n, ∃ m1, newPages root write false j va m = (true, m1) ∧
      newPage m1 root (va + 4096 * j) write false = (none, m') ∧
      mmapPages root write n done va m = (false, dropPages root (done + j) (va - done * 4096) m') := by
  induction n generalizing m done va with
  | zero => cases h
  | succ n ih =>
    rw [newPages] at h
    rw [mmapPages]
    rcases hnew : newPage m root va write false with ⟨_ | pa, m1⟩ <;> rw [hnew] at h
    · cases h
      exact ⟨0, succ_pos n, m, rfl, hnew, rfl⟩
    obtain ⟨j, hj, m2, hpages, hlast, hloop⟩ := @ih _ _ (done + 1) h
    refine ⟨j + 1, succ_lt_succ hj, m2, ?_, ?_, ?_⟩
    · rw [newPages, hnew]
      exact hpages
    · rwa [mul_succ, add_comm (4096 * j), ← add_assoc]
    dsimp only
    rw [hloop]
    congr 2
    · omega
    · omega

end

/-- The mappings, the user pages and their bytes are as before, and what is missing from the free frames
is page tables. -/
structure MapsKept (m m' : PhysMem) (root : Nat) : Prop where
  entry : ∀ va, userEntry m' root va = userEntry m root va
  pages : Mm.pages m' 4 root = Mm.pages m 4 root
  bytes : ∀ x ∈ Mm.pages m 4 root, m'.page x = m.page x
  total : (m'.free : Multiset Nat) + tables m' 4 root = m.free + tables m 4 root

section

variable {m m' : PhysMem} {root va n : Nat} {write : Bool}

theorem MapsKept.refl (m : PhysMem) (root : Nat) : MapsKept m m root :=
  ⟨fun _ => rfl, rfl, fun _ _ => rfl, rfl⟩

/-- Address spaces with the same user pages and the same frames in all have as many tables. -/
theorem tables_total (hpages : pages m' 4 root = pages m 4 root)
    (htotal : (m'.free : Multiset Nat) + frames m' 4 root = m.free + frames m 4 root) :
    (m'.free : Multiset Nat) + tables m' 4 root = m.free + tables m 4 root := by
  have hext : extent m' 4 root = extent m 4 root := by rw [extent_eq, htotal, ← extent_eq]
  unfold extent at hext
  rw [← tables_add_pages, ← tables_add_pages, hpages, ← add_assoc, ← add_assoc] at hext
  exact add_right_cancel hext

/-- A mapping loop that fails leaves the mappings as they were. -/
theorem mmapPages_kept (h : Sep m 4 root) (hrun : newPages root write false n va m = (false, m')) :
    MapsKept m (mmapPages root write n 0 va m).2 root := by
  obtain ⟨j, -, m1, hpages, hlast, hloop⟩ := @mmapPages_stopped _ _ _ _ 0 _ _ hrun
  have hmapped := newPages_mapped h hpages
  have hundone : Undone m1 m' root := by
    have hspec := newPage_spec hmapped.sep (va + 4096 * j) write false
    rwa [hlast] at hspec
  have hdropped := dropPages_spec hundone.sep j va
  rw [Nat.zero_add, Nat.zero_mul, Nat.sub_zero] at hloop
  rw [hloop]
  have hentry : ∀ a, userEntry (dropPages root j va m') root a = userEntry m root a := by
    intro a
    by_cases hin : Mm.InRange va j a
    · obtain ⟨i, hi, hpage⟩ := id hin
      rw [hdropped.entry a hin, userEntry_pageNo hpage, hmapped.unmapped i hi]
    · rw [hdropped.other a hin, hundone.entry, hmapped.other a hin]
  have hsame := pages_congr h hdropped.sep hentry
  refine ⟨hentry, hsame, fun x hx => ?_, tables_total hsame ?_⟩
  · obtain ⟨hmem, hbytes⟩ := hdropped.page x (by rw [hsame]; exact hx)
    rw [hundone.pages] at hmem
    obtain ⟨hfree1, htab1⟩ := hmapped.sep.page_apart hmem
    obtain ⟨hfree, htab⟩ := h.page_apart hx
    rw [hbytes, hundone.page x hfree1 htab1, hmapped.page x hfree htab]
  · rw [hdropped.total, hundone.free, hundone.frames, hmapped.total]

end

/-! ## The two calls -/

/-- The arguments that `sys_mmap` refuses. -/
def mmapInvalid (addr len flags : Nat) : Prop :=
  len = 0 ∨ (flags &&& 0x20 = 0 ∨ flags &&& 0x02 = 0) ∨ flags &&& 0x10 ≠ 0 ∧ addr % 4096 ≠ 0

/-- Where `sys_mmap` maps. -/
def mmapStart (sz addr flags : Nat) : Nat := if flags &&& 0x10 ≠ 0 then addr else pageAlign sz

/-- The number of pages that `sys_munmap` goes through. -/
def munmapCount (addr len : Nat) : Nat := ((addr + pageAlign len) % ulongMod - addr) / 4096

section

variable {k k' : Kern} {p addr len prot flags : Nat}

theorem sysMmap_invalid (prot : Nat) (h : mmapInvalid addr len flags) :
    sysMmap p addr len prot flags k = .ok (-22, k) := by
  unfold sysMmap
  rw [getProc, Exec.bind_ok (b := k.procs p) rfl]
  split
  · rfl
  rename_i hlen
  split
  · rfl
  · rename_i hflags
    rw [if_pos ((h.resolve_left hlen).resolve_left hflags)]
    rfl

theorem sysMmap_eq (prot : Nat) (h : ¬ mmapInvalid addr len flags) :
    sysMmap p addr len prot flags k =
      if userStack - 4096 < (mmapStart (k.procs p).sz addr flags + pageAlign len) % ulongMod ∨
          (mmapStart (k.procs p).sz addr flags + pageAlign len) % ulongMod <
            mmapStart (k.procs p).sz addr flags then .ok (-12, k)
      else
        match mmapPages (k.procs p).pagetable (prot &&& 0x2 != 0) (pageAlign len / 4096) 0
          (mmapStart (k.procs p).sz addr flags) k.mm with
        | (false, m) => .ok (-12, k.withMm m)
        | (true, m) => .ok (mmapStart (k.procs p).sz addr flags,
            if (k.procs p).sz < mmapStart (k.procs p).sz addr flags + pageAlign len then
              (k.withMm m).setBrk p (mmapStart (k.procs p).sz addr flags + pageAlign len)
            else k.withMm m) := by
  unfold mmapInvalid at h
  rw [not_or, not_or] at h
  rw [sysMmap, mmapStart, getProc, Exec.bind_ok (b := k.procs p) rfl]
  rw [if_neg h.1, if_neg h.2.1, if_neg h.2.2]
  generalize (if flags &&& 0x10 ≠ 0 then addr else pageAlign (k.procs p).sz) = va
  split
  · rfl
  rw [Exec.bind_ok (mmapLoop_plain k _ _ 0 _ (prot &&& 0x2 != 0))]
  generalize mmapPages (k.procs p).pagetable (prot &&& 0x2 != 0) _ 0 _ k.mm = res
  obtain ⟨_ | _, m⟩ := res
  · rfl
  by_cases hsz : (k.procs p).sz < va + pageAlign len
  · simp only [if_true, if_pos hsz]
    rfl
  · simp only [if_true, if_neg hsz]
    rfl

theorem sysMunmap_eq (haddr : addr % 4096 = 0) (hlen : len ≠ 0) :
    sysMunmap p addr len k =
      .ok (0, k.withMm (dropPages (k.procs p).pagetable (munmapCount addr len) addr k.mm)) := by
  unfold sysMunmap munmapCount
  rw [getProc, Exec.bind_ok (b := k.procs p) rfl]
  rw [if_neg (not_not_intro haddr), if_neg hlen, Exec.bind_ok (unmapPages_plain k _ _ addr)]
  rfl

theorem sysMunmap_invalid (h : addr % 4096 ≠ 0 ∨ len = 0) :
    sysMunmap p addr len k = .ok (-22, k) := by
  unfold sysMunmap
  rw [getProc, Exec.bind_ok (b := k.procs p) rfl]
  split
  · rfl
  · rename_i haddr
    rw [if_pos (h.resolve_left haddr)]
    rfl

/-- Every page of `len` bytes from `va` on is a new zero page with the permission asked for, and no other
mapping has changed. -/
structure MmapDone (p len : Nat) (write : Bool) (k k' : Kern) (va : Nat) : Prop where
  sep : Sep k'.mm 4 (k.procs p).pagetable
  root : (k'.procs p).pagetable = (k.procs p).pagetable
  fresh : ∀ a, va ≤ a → a < va + len → ∃ pa ∈ k.mm.free, k'.mm.page pa = (fun _ => 0) ∧
    userEntry k'.mm (k.procs p).pagetable a = some (makePageDescUser pa write false)
  other : ∀ a < 2 ^ 48, a < va ∨ va + len ≤ a / 4096 * 4096 →
    userEntry k'.mm (k.procs p).pagetable a = userEntry k.mm (k.procs p).pagetable a
  bytes : ∀ x ∈ pages k.mm 4 (k.procs p).pagetable, k'.mm.page x = k.mm.page x

/-- `sys_mmap` maps what it says or changes nothing. -/
def MmapRight (p addr len prot flags : Nat) (k : Kern) : Prop :=
  ∃ r k', sysMmap p addr len prot flags k = .ok (r, k') ∧
    (0 ≤ r → MmapDone p len (prot &&& 0x2 != 0) k k' r.toNat) ∧
    (r < 0 → k'.procs = k.procs ∧ MapsKept k.mm k'.mm (k.procs p).pagetable)

/-- `sys_munmap` that succeeds has unmapped the pages that the range touches and no other. -/
def MunmapRight (p addr len : Nat) (k : Kern) : Prop :=
  ∃ r k', sysMunmap p addr len k = .ok (r, k') ∧ (r = 0 →
    (∀ a < 2 ^ 48, addr ≤ a ∧ a / 4096 * 4096 < addr + len →
      userEntry k'.mm (k.procs p).pagetable a = none) ∧
    (∀ a < 2 ^ 48, ¬ (addr ≤ a ∧ a / 4096 * 4096 < addr + len) →
      userEntry k'.mm (k.procs p).pagetable a = userEntry k.mm (k.procs p).pagetable a) ∧
    ∀ x ∈ pages k'.mm 4 (k.procs p).pagetable, k'.mm.page x = k.mm.page x)

theorem pageAlign_of_lt (h : len + 4095 < ulongMod) : pageAlign len = (len + 4095) / 4096 * 4096 := by
  unfold pageAlign
  rw [mod_eq_of_lt h]

theorem pageAlign_mod (x : Nat) : pageAlign x % 4096 = 0 := mul_mod_left _ _

variable {va : Nat}

/-- The range that `sys_mmap` maps, when its checks have passed and the length has not wrapped. -/
theorem mmap_range (hva : va < ulongMod) (hlen : len ≤ ulongMod - 4096)
    (hin : ¬ (userStack - 4096 < (va + pageAlign len) % ulongMod ∨ (va + pageAlign len) % ulongMod < va)) :
    pageAlign len = (len + 4095) / 4096 * 4096 ∧ va + pageAlign len ≤ userStack - 4096 := by
  have halign : pageAlign len = (len + 4095) / 4096 * 4096 := by
    apply pageAlign_of_lt
    unfold ulongMod at *
    omega
  rw [halign] at hin ⊢
  refine ⟨rfl, ?_⟩
  unfold ulongMod userStack at *
  omega

/-- A mapping loop that ends well has mapped what it was asked for. -/
theorem RangeMapped.done {write : Bool} (hsep : Sep k.mm 4 (k.procs p).pagetable)
    (hroot : (k'.procs p).pagetable = (k.procs p).pagetable) (hva : va % 4096 = 0)
    (halign : pageAlign len = (len + 4095) / 4096 * 4096) (hend : va + pageAlign len ≤ userStack - 4096)
    (h : RangeMapped k.mm k'.mm (k.procs p).pagetable va (pageAlign len / 4096) write false) :
    MmapDone p len write k k' va := by
  have hcount : 4096 * (pageAlign len / 4096) = pageAlign len := by
    omega
  have hle : va + 4096 * (pageAlign len / 4096) ≤ 2 ^ 48 := by
    unfold userStack at hend
    omega
  have hin : ∀ a < 2 ^ 48, Mm.InRange va (pageAlign len / 4096) a ↔ va ≤ a ∧ a < va + pageAlign len := by
    intro a ha
    rw [inRange_iff hva hle ha, hcount]
  refine ⟨h.sep, hroot, fun a hge hlt => ?_, fun a ha hout => ?_, fun x hx => ?_⟩
  · obtain ⟨i, hi, hpage⟩ := (hin a (by omega)).2 ⟨hge, by omega⟩
    obtain ⟨pa, hpa, hzero, hentry⟩ := h.mapped i hi
    exact ⟨pa, hpa, hzero, (userEntry_pageNo hpage).trans hentry⟩
  · refine h.other a fun hr => ?_
    have hr' := (hin a ha).1 hr
    omega
  · obtain ⟨hfree, htab⟩ := hsep.page_apart hx
    exact h.page x hfree htab

theorem fresh_unmapped {root pa : Nat} {write : Bool} {m : PhysMem} (hsep : Sep m 4 root)
    (hpa : pa ∈ m.free) : userEntry m root va ≠ some (makePageDescUser pa write false) := by
  intro hentry
  have hin : pa ∈ extent m 4 root := by
    rw [extent_eq]
    exact Multiset.mem_add.2 (Or.inr (Multiset.mem_add.2 (Or.inl hpa)))
  have hmem := userEntry_mem hentry
  rw [pteAddr_pageDesc (hsep.isFrame pa hin)] at hmem
  exact (hsep.page_apart hmem).1 hpa

/-- A call that fails before it has touched the memory keeps everything. -/
theorem MmapRight.of_error {r : Int} (hr : r < 0)
    (hcall : sysMmap p addr len prot flags k = .ok (r, k)) : MmapRight p addr len prot flags k :=
  ⟨r, k, hcall, fun hnot => absurd hr (not_lt.2 hnot), fun _ => ⟨rfl, MapsKept.refl _ _⟩⟩

theorem mmapStart_lt (sz flags : Nat) (haddr : addr < ulongMod) : mmapStart sz addr flags < ulongMod := by
  unfold mmapStart
  split
  · exact haddr
  · unfold pageAlign
    exact lt_of_le_of_lt (div_mul_le_self _ _) (mod_lt _ (by decide))

theorem mmapStart_mod (sz : Nat) (h : ¬ mmapInvalid addr len flags) :
    mmapStart sz addr flags % 4096 = 0 := by
  unfold mmapStart
  split
  · rename_i hfixed
    by_contra haddr
    exact h (Or.inr (Or.inr ⟨hfixed, haddr⟩))
  · exact pageAlign_mod sz

/-- What a call that has got its pages does to the processes and the memory. -/
theorem mmap_done_kern (k : Kern) (p sz : Nat) (m : PhysMem) (b : Prop) [Decidable b] :
    (if b then (k.withMm m).setBrk p sz else k.withMm m).mm = m ∧
      ((if b then (k.withMm m).setBrk p sz else k.withMm m).procs p).pagetable =
        (k.procs p).pagetable := by
  split
  · exact ⟨rfl, setBrk_pagetable _ p _⟩
  · exact ⟨rfl, rfl⟩

/-- `sys_mmap` keeps its promise unless the length wraps when it is rounded up and nothing else is wrong
with the call. -/
theorem mmap_iff (prot : Nat) (hsep : Sep k.mm 4 (k.procs p).pagetable) (haddr : addr < ulongMod)
    (hlen : len < ulongMod) :
    MmapRight p addr len prot flags k ↔ len ≤ ulongMod - 4096 ∨ mmapInvalid addr len flags ∨
      userStack - 4096 < mmapStart (k.procs p).sz addr flags := by
  by_cases hinv : mmapInvalid addr len flags
  · exact iff_of_true (.of_error (by decide) (sysMmap_invalid prot hinv)) (Or.inr (Or.inl hinv))
  have hcall := sysMmap_eq (k := k) (p := p) prot hinv
  have hva := mmapStart_lt (k.procs p).sz flags haddr
  have hmod := mmapStart_mod (k.procs p).sz hinv
  generalize mmapStart (k.procs p).sz addr flags = va at *
  constructor
  · rintro ⟨r, k', hrun, hdone, -⟩
    by_contra hno
    rw [not_or, not_or] at hno
    obtain ⟨hlong, -, hin⟩ := hno
    -- the rounded length is 0, so the call succeeds and maps nothing
    have halign : pageAlign len = 0 := by
      unfold pageAlign ulongMod at *
      omega
    rw [halign, add_zero, mod_eq_of_lt hva, if_neg (by omega)] at hcall
    rw [hcall] at hrun
    obtain ⟨rfl, rfl⟩ := Prod.mk.inj (Except.ok.inj hrun)
    have hfresh := hdone (Int.natCast_nonneg va)
    rw [Int.toNat_natCast] at hfresh
    obtain ⟨pa, hpa, -, hentry⟩ := hfresh.fresh va (le_refl va) (by omega)
    rw [(mmap_done_kern k p _ _ _).1] at hentry
    exact fresh_unmapped hsep hpa hentry
  intro hok
  by_cases hout : userStack - 4096 < (va + pageAlign len) % ulongMod ∨
      (va + pageAlign len) % ulongMod < va
  · rw [if_pos hout] at hcall
    exact .of_error (by decide) hcall
  rw [if_neg hout] at hcall
  have hshort : len ≤ ulongMod - 4096 := by
    by_contra hlong
    have halign : pageAlign len = 0 := by
      unfold pageAlign ulongMod at *
      omega
    rw [halign, add_zero, mod_eq_of_lt hva] at hout
    rcases hok with h | h | h
    · exact hlong h
    · exact hinv h
    · exact hout (Or.inl h)
  obtain ⟨halign, hend⟩ := mmap_range hva hshort hout
  rcases hpages : newPages (k.procs p).pagetable (prot &&& 0x2 != 0) false (pageAlign len / 4096) va
    k.mm with ⟨_ | _, m⟩
  · have hkept := mmapPages_kept hsep hpages
    obtain ⟨j, -, m1, -, -, hloop⟩ := @mmapPages_stopped _ _ _ _ 0 _ _ hpages
    rw [hloop] at hcall hkept
    exact ⟨-12, _, hcall, fun hnot => absurd hnot (by decide), fun _ => ⟨rfl, hkept⟩⟩
  rw [mmapPages_mapped hpages] at hcall
  have hmapped := Mm.newPages_mapped hsep hpages
  refine ⟨va, _, hcall, fun _ => ?_, fun hnot => absurd hnot (not_lt.2 (Int.natCast_nonneg va))⟩
  obtain ⟨hmm, hroot⟩ := mmap_done_kern k p (va + pageAlign len) m
    ((k.procs p).sz < va + pageAlign len)
  refine RangeMapped.done hsep hroot hmod halign hend ?_
  rw [hmm]
  exact hmapped

/-! ## What `munmap` goes through -/

/-- Whether a mapped page is one that `munmap` should unmap exactly if it does: no page from `addr` on is
mapped when the end of the range wraps, and otherwise no page below `addr` that the walk of 48 bits takes for
one of the range. -/
def MunmapClean (p addr len : Nat) (k : Kern) : Prop :=
  if addr + len ≤ ulongMod - 4096 then
    ∀ a < 2 ^ 48, a < addr → ∀ i, addr ≤ a + i * 2 ^ 48 → a + i * 2 ^ 48 < addr + pageAlign len →
      userEntry k.mm (k.procs p).pagetable a = none
  else ∀ a < 2 ^ 48, addr ≤ a → userEntry k.mm (k.procs p).pagetable a = none

/-- An address is on one of `n` pages when it is in the range after adding some multiple of `2^48`. -/
theorem inRange_alias {n a : Nat} (hva : va % 4096 = 0) (ha : a < 2 ^ 48) :
    Mm.InRange va n a ↔ ∃ i, va ≤ a + i * 2 ^ 48 ∧ a + i * 2 ^ 48 < va + 4096 * n := by
  constructor
  · rintro ⟨i, hi, hpage⟩
    refine ⟨(va / 4096 + i) / 2 ^ 36, ?_, ?_⟩ <;> unfold pageNo at hpage <;> omega
  rintro ⟨i, hge, hlt⟩
  refine ⟨(a + i * 2 ^ 48 - va) / 4096, ?_, ?_⟩
  · omega
  · unfold pageNo
    omega

theorem munmapCount_eq (haddr : addr % 4096 = 0) (hlt : addr < ulongMod) (hlen : len < ulongMod) :
    4096 * munmapCount addr len = if addr + len ≤ ulongMod - 4096 then pageAlign len else 0 := by
  unfold munmapCount pageAlign ulongMod at *
  split
  · omega
  · omega

/-- The pages to unmap and those that are unmapped are the same as far as they are mapped, exactly for a clean
range. -/
theorem munmapClean_iff (haddr : addr % 4096 = 0) (hlt : addr < ulongMod) (hlen : len < ulongMod) :
    MunmapClean p addr len k ↔ ∀ a < 2 ^ 48, userEntry k.mm (k.procs p).pagetable a ≠ none →
      (Mm.InRange addr (munmapCount addr len) a ↔ addr ≤ a ∧ a / 4096 * 4096 < addr + len) := by
  have hcount := munmapCount_eq haddr hlt hlen
  unfold MunmapClean
  split
  · rename_i hfit
    have halign : pageAlign len = (len + 4095) / 4096 * 4096 := by
      apply pageAlign_of_lt
      unfold ulongMod at *
      omega
    rw [if_pos hfit, halign] at hcount
    rw [halign]
    constructor
    · intro hclean a ha hmapped
      rw [inRange_alias haddr ha, hcount]
      constructor
      · rintro ⟨i, hge, hend⟩
        have hbelow : addr ≤ a := by
          by_contra hno
          exact hmapped (hclean a ha (not_le.1 hno) i hge hend)
        exact ⟨hbelow, by omega⟩
      · rintro ⟨hge, hend⟩
        exact ⟨0, by omega, by omega⟩
    intro hsame a ha hbelow i hge hend
    by_contra hmapped
    have hin := (hsame a ha hmapped).1 ((inRange_alias haddr ha).2 ⟨i, hge, by rwa [hcount]⟩)
    exact absurd hin.1 (not_le.2 hbelow)
  rename_i hwrap
  rw [if_neg hwrap] at hcount
  have hnone : ∀ a, ¬ Mm.InRange addr (munmapCount addr len) a := by
    rintro a ⟨i, hi, -⟩
    omega
  constructor
  · intro hclean a ha hmapped
    exact ⟨fun hin => absurd hin (hnone a), fun hin => absurd (hclean a ha hin.1) hmapped⟩
  intro hsame a ha hge
  by_contra hmapped
  have hend : a / 4096 * 4096 < addr + len := by
    unfold ulongMod at hwrap
    omega
  exact hnone a ((hsame a ha hmapped).2 ⟨hge, hend⟩)

theorem munmapClean_of_user (haddr : addr % 4096 = 0) (hend : addr + len ≤ 2 ^ 48) :
    MunmapClean p addr len k := by
  have halign : pageAlign len = (len + 4095) / 4096 * 4096 := by
    apply pageAlign_of_lt
    unfold ulongMod
    omega
  unfold MunmapClean
  rw [if_pos (by unfold ulongMod; omega), halign]
  intro a ha hbelow i hge hlt
  omega

/-- `sys_munmap` unmaps the pages of the range and no other exactly when the range is clean. -/
theorem munmap_iff (hsep : Sep k.mm 4 (k.procs p).pagetable) (haddr : addr < ulongMod)
    (hlen : len < ulongMod) :
    MunmapRight p addr len k ↔ addr % 4096 ≠ 0 ∨ len = 0 ∨ MunmapClean p addr len k := by
  by_cases hinv : addr % 4096 ≠ 0 ∨ len = 0
  · exact iff_of_true ⟨-22, k, sysMunmap_invalid hinv, fun h => absurd h (by decide)⟩
      (hinv.elim Or.inl fun h => Or.inr (Or.inl h))
  rw [not_or, not_not] at hinv
  obtain ⟨hmod, hpos⟩ := hinv
  rw [or_iff_right (not_not_intro hmod), or_iff_right hpos, munmapClean_iff hmod haddr hlen]
  have hcall := sysMunmap_eq (k := k) (p := p) hmod hpos
  have hdropped := dropPages_spec hsep (munmapCount addr len) addr
  generalize dropPages (k.procs p).pagetable (munmapCount addr len) addr k.mm = m at *
  constructor
  · rintro ⟨r, k', hrun, hdone⟩ a ha hmapped
    rw [hcall] at hrun
    obtain ⟨rfl, rfl⟩ := Prod.mk.inj (Except.ok.inj hrun)
    obtain ⟨hgone, hrest, -⟩ := hdone rfl
    constructor
    · intro hin
      by_contra hout
      exact hmapped ((hrest a ha hout).symm.trans (hdropped.entry a hin))
    · intro hrange
      by_contra hout
      exact hmapped ((hdropped.other a hout).symm.trans (hgone a ha hrange))
  intro hsame
  refine ⟨0, _, hcall, fun _ => ⟨fun a ha hrange => ?_, fun a ha hout => ?_, fun x hx => ?_⟩⟩
  · by_cases hin : Mm.InRange addr (munmapCount addr len) a
    · exact hdropped.entry a hin
    · have hkeep := hdropped.other a hin
      by_contra hmapped
      exact hin ((hsame a ha fun h => hmapped (hkeep.trans h)).2 hrange)
  · by_cases hin : Mm.InRange addr (munmapCount addr len) a
    · rw [show userEntry (k.withMm m).mm (k.procs p).pagetable a = none from hdropped.entry a hin]
      by_contra hmapped
      exact hout ((hsame a ha (Ne.symm hmapped)).1 hin)
    · exact hdropped.other a hin
  · exact (hdropped.page x hx).2

end

end Slopix.Kernel
