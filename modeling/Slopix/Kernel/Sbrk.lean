import Slopix.Kernel.Boot
import Slopix.Mm.Range

/-!
# The program break

`sys_sbrk` of `kernel/syscall.c` over runs of calls. Growing maps the pages up to the new break, while
shrinking changes the number only and a growth that fails keeps the pages it has mapped. A call is
clean when neither happens; after clean calls the heap is what the break says.
-/

namespace Slopix.Kernel

open Lib Mm Fs Ipc

section

variable {k k' : Kern}

/-- A new page whose set-up leaves the memory as it is, as a step on memory. -/
theorem mapNew_idle {init : Nat → KM Bool} (t va : Nat) (write exec : Bool)
    (hinit : ∀ pa m, pmmAlloc k.mm = some (pa, m) → init pa (k.withMm m) = .ok (true, k.withMm m)) :
    mapNew t va init write exec k =
      .ok ((newPage k.mm t va write exec).1, k.withMm (newPage k.mm t va write exec).2) := by
  unfold newPage
  cases hal : pmmAlloc k.mm with
  | none =>
    have hrun : allocPage k = .ok (none, k.withMm k.mm) := by
      unfold allocPage onMm Exec.step
      dsimp only
      rw [hal]
    unfold mapNew
    rw [Exec.bind_ok hrun]
    rfl
  | some r =>
    obtain ⟨pa, m1⟩ := r
    have hrun : allocPage k = .ok (some pa, k.withMm m1) := by
      unfold allocPage onMm Exec.step
      dsimp only
      rw [hal]
    have hmap : (onMm fun m => vmmMapPage m t va pa write exec) (k.withMm m1) =
        .ok ((vmmMapPage m1 t va pa write exec).1, k.withMm (vmmMapPage m1 t va pa write exec).2) :=
      rfl
    unfold mapNew
    rw [Exec.bind_ok hrun]
    dsimp only
    rw [Exec.bind_ok (hinit pa m1 hal), if_pos rfl, Exec.bind_ok hmap]
    rcases vmmMapPage m1 t va pa write exec with ⟨_ | _, m2⟩ <;> rfl

/-- The body of the loop of `sbrk`, as a step on memory. -/
theorem mapNew_plain (k : Kern) (t va : Nat) (write exec : Bool) :
    mapNew t va (fun _ => pure true) write exec k =
      .ok ((newPage k.mm t va write exec).1, k.withMm (newPage k.mm t va write exec).2) :=
  mapNew_idle t va write exec fun _ _ _ => rfl

theorem mapPages_plain (k : Kern) (t n va : Nat) (write exec : Bool) :
    mapPages t (fun _ _ => pure true) write exec n va k =
      .ok ((newPages t write exec n va k.mm).1, k.withMm (newPages t write exec n va k.mm).2) := by
  induction n generalizing k va with
  | zero => rfl
  | succ n ih =>
    rw [mapPages, Exec.bind_ok (mapNew_plain k t va write exec), newPages]
    rcases newPage k.mm t va write exec with ⟨_ | pa, m1⟩
    · rfl
    · exact ih (k.withMm m1) (va + 4096)

end

/-! ## One call -/

/-- The break that `sbrk(n)` asks for. -/
def newBreak (sz : Nat) (n : Int) : Nat := ((sz + n) % ulongMod).toNat

/-- The number of pages that `sbrk(n)` maps. -/
def growth (sz : Nat) (n : Int) : Nat := (pageAlign (newBreak sz n) - pageAlign sz) / 4096

/-- Set the break. -/
def Kern.setBrk (k : Kern) (p sz : Nat) : Kern := k.setProc p { k.procs p with sz := sz }

section

variable {k : Kern} {p : Nat} {n : Int}

theorem sysSbrk_eq (p : Nat) (n : Int) (k : Kern) :
    sysSbrk p n k =
      if n < 0 ∧ (k.procs p).sz < newBreak (k.procs p).sz n then .ok (-22, k)
      else if 0 < n then
        match newPages (k.procs p).pagetable true false (growth (k.procs p).sz n)
          (pageAlign (k.procs p).sz) k.mm with
        | (true, m) => .ok ((k.procs p).sz, (k.withMm m).setBrk p (newBreak (k.procs p).sz n))
        | (false, m) => .ok (-12, k.withMm m)
      else .ok ((k.procs p).sz, k.setBrk p (newBreak (k.procs p).sz n)) := by
  rw [sysSbrk, growth, newBreak, getProc, Exec.bind_ok (b := k.procs p) rfl]
  split
  · rfl
  split
  · rw [Exec.bind_ok (mapPages_plain k _ _ _ true false)]
    generalize newPages (k.procs p).pagetable true false _ _ k.mm = res
    obtain ⟨_ | _, m⟩ := res <;> rfl
  · rfl

variable {m : PhysMem}

theorem sysSbrk_grow (hok : ¬ (n < 0 ∧ (k.procs p).sz < newBreak (k.procs p).sz n))
    (hn : 0 < n) (hpages : newPages (k.procs p).pagetable true false (growth (k.procs p).sz n)
      (pageAlign (k.procs p).sz) k.mm = (true, m)) :
    sysSbrk p n k = .ok ((k.procs p).sz, (k.withMm m).setBrk p (newBreak (k.procs p).sz n)) := by
  rw [sysSbrk_eq, if_neg hok, if_pos hn, hpages]

theorem sysSbrk_full (hok : ¬ (n < 0 ∧ (k.procs p).sz < newBreak (k.procs p).sz n))
    (hn : 0 < n) (hpages : newPages (k.procs p).pagetable true false (growth (k.procs p).sz n)
      (pageAlign (k.procs p).sz) k.mm = (false, m)) : sysSbrk p n k = .ok (-12, k.withMm m) := by
  rw [sysSbrk_eq, if_neg hok, if_pos hn, hpages]

/-- The call is refused for its argument, or it does not move the page-rounded break, or it is a growth
of which not even the first page can be mapped, or one within the user addresses of which all can be. -/
def Clean (p : Nat) (k : Kern) (n : Int) : Prop :=
  n < 0 ∧ (k.procs p).sz < newBreak (k.procs p).sz n ∨
    pageAlign (newBreak (k.procs p).sz n) = pageAlign (k.procs p).sz ∨
    0 < n ∧ (0 < growth (k.procs p).sz n ∧ ¬ CanMap k.mm (k.procs p).pagetable (pageAlign (k.procs p).sz) 1 ∨
      (k.procs p).sz + n ≤ userStack ∧
        CanMap k.mm (k.procs p).pagetable (pageAlign (k.procs p).sz) (growth (k.procs p).sz n))

/-- The break, the address space and the free frames are as before. -/
structure Untouched (p : Nat) (k k' : Kern) : Prop where
  brk : (k'.procs p).sz = (k.procs p).sz
  entry : ∀ va, userEntry k'.mm (k'.procs p).pagetable va = userEntry k.mm (k.procs p).pagetable va
  frames : frames k'.mm 4 (k'.procs p).pagetable = frames k.mm 4 (k.procs p).pagetable
  free : (k'.mm.free : Multiset Nat) = k.mm.free

/-- The mapped heap is exactly the pages from the break of `k0` up to the break of `k`. -/
structure HeapExact (p : Nat) (k0 k : Kern) : Prop where
  sep : Sep k.mm 4 (k.procs p).pagetable
  root : (k.procs p).pagetable = (k0.procs p).pagetable
  brk : (k.procs p).sz < ulongMod
  start : pageAlign (k0.procs p).sz ≤ pageAlign (k.procs p).sz
  heap : ∀ va < 2 ^ 48, pageAlign (k0.procs p).sz ≤ va → va < pageAlign (k.procs p).sz →
    userEntry k0.mm (k0.procs p).pagetable va = none ∧
      ∃ pa, userEntry k.mm (k.procs p).pagetable va = some (makePageDescUser pa true false)
  rest : ∀ va < 2 ^ 48, va < pageAlign (k0.procs p).sz ∨ pageAlign (k.procs p).sz ≤ va →
    userEntry k.mm (k.procs p).pagetable va = userEntry k0.mm (k0.procs p).pagetable va

theorem setBrk_sz (k : Kern) (p sz : Nat) : ((k.setBrk p sz).procs p).sz = sz := by
  simp [Kern.setBrk]

theorem setBrk_pagetable (k : Kern) (p sz : Nat) :
    ((k.setBrk p sz).procs p).pagetable = (k.procs p).pagetable := by
  simp [Kern.setBrk]

theorem newBreak_lt (sz : Nat) (n : Int) : newBreak sz n < ulongMod := by
  unfold newBreak ulongMod
  omega

/-- A growth that fails at its first page leaves everything alone. -/
theorem newPages_refused {root va : Nat} (hsep : Sep m 4 root) (hpos : 0 < growth (k.procs p).sz n)
    (hno : ¬ CanMap m root va 1) : ∃ m', newPages root true false (growth (k.procs p).sz n) va m = (false, m') ∧
      Undone m m' root := by
  have hspec := newPage_spec hsep va true false
  have hone := mt (newPages_iff true false hsep (by decide)).1 hno
  obtain ⟨j, hj⟩ := Nat.exists_eq_add_one.2 hpos
  rw [newPages] at hone
  rw [hj, newPages]
  rcases hres : newPage m root va true false with ⟨_ | pa, m'⟩ <;> rw [hres] at hspec hone
  · exact ⟨m', rfl, hspec⟩
  · exact absurd rfl hone

/-- What a clean call does: it fails and leaves everything alone, or it returns the old break, sets the
new one and has mapped the pages between the two. -/
theorem Clean.outcome {r : Int} {k' : Kern} (hsep : Sep k.mm 4 (k.procs p).pagetable)
    (hclean : Clean p k n) (hrun : sysSbrk p n k = .ok (r, k')) :
    r < 0 ∧ Undone k.mm k'.mm (k.procs p).pagetable ∧ k'.procs = k.procs ∨
      r = (k.procs p).sz ∧ k' = (k.withMm k'.mm).setBrk p (newBreak (k.procs p).sz n) ∧
        (pageAlign (newBreak (k.procs p).sz n) = pageAlign (k.procs p).sz ∧ k'.mm = k.mm ∨
          0 < n ∧ (k.procs p).sz + n ≤ userStack ∧
            RangeMapped k.mm k'.mm (k.procs p).pagetable (pageAlign (k.procs p).sz)
              (growth (k.procs p).sz n) true false) := by
  rw [sysSbrk_eq] at hrun
  split at hrun
  · cases hrun
    exact Or.inl ⟨by decide, Undone.refl hsep, rfl⟩
  rename_i hok
  have hclean' := hclean.resolve_left hok
  split at hrun
  · rcases hclean' with hsame | ⟨hn, ⟨hpos, hno⟩ | ⟨hle, hall⟩⟩
    · -- no page to map
      have hzero : growth (k.procs p).sz n = 0 := by
        unfold growth
        rw [hsame, Nat.sub_self]
      rw [hzero] at hrun
      cases hrun
      exact Or.inr ⟨rfl, rfl, Or.inl ⟨hsame, rfl⟩⟩
    · obtain ⟨m', hpages, hundone⟩ := newPages_refused hsep hpos hno
      rw [hpages] at hrun
      cases hrun
      exact Or.inl ⟨by decide, hundone, rfl⟩
    have hfew : growth (k.procs p).sz n ≤ 2 ^ 36 := by
      unfold growth newBreak pageAlign userStack ulongMod at *
      omega
    have hdone := (newPages_iff true false hsep hfew).2 hall
    rcases hres : newPages (k.procs p).pagetable true false (growth (k.procs p).sz n)
      (pageAlign (k.procs p).sz) k.mm with ⟨_ | _, m⟩ <;> rw [hres] at hdone
    · cases hdone
    · rw [hres] at hrun
      cases hrun
      exact Or.inr ⟨rfl, rfl, Or.inr ⟨hn, hle, newPages_mapped hsep hres⟩⟩
  rename_i hn
  have hsame := hclean'.resolve_right fun h => hn h.1
  cases hrun
  exact Or.inr ⟨rfl, rfl, Or.inl ⟨hsame, rfl⟩⟩

theorem pageAlign_of_le {x : Nat} (h : x ≤ userStack) : pageAlign x = (x + 4095) / 4096 * 4096 := by
  unfold pageAlign
  rw [Nat.mod_eq_of_lt]
  unfold userStack ulongMod at *
  omega

/-- A growth maps the pages between the two breaks, and the heap stays exact. -/
theorem HeapExact.grow {k0 k' : Kern} {sz' : Nat} (h : HeapExact p k0 k) (hle : (k.procs p).sz ≤ sz')
    (hstack : sz' ≤ userStack) (hroot : (k'.procs p).pagetable = (k.procs p).pagetable)
    (hsz : (k'.procs p).sz = sz')
    (hmapped : RangeMapped k.mm k'.mm (k.procs p).pagetable (pageAlign (k.procs p).sz)
      ((pageAlign sz' - pageAlign (k.procs p).sz) / 4096) true false) : HeapExact p k0 k' := by
  have hold := pageAlign_of_le (hle.trans hstack)
  have hnew := pageAlign_of_le hstack
  have hmono : pageAlign (k.procs p).sz ≤ pageAlign sz' := by
    omega
  have hend : pageAlign (k.procs p).sz + 4096 * ((pageAlign sz' - pageAlign (k.procs p).sz) / 4096) =
      pageAlign sz' := by
    omega
  have hin : ∀ va < 2 ^ 48, Mm.InRange (pageAlign (k.procs p).sz)
      ((pageAlign sz' - pageAlign (k.procs p).sz) / 4096) va ↔
      pageAlign (k.procs p).sz ≤ va ∧ va < pageAlign sz' := by
    intro va hva
    rw [inRange_iff (by rw [hold]; omega) ?_ hva, hend]
    unfold userStack at hstack
    omega
  have hstart := h.start
  refine ⟨?_, ?_, ?_, ?_, ?_, ?_⟩
  · rw [hroot]
    exact hmapped.sep
  · rw [hroot]
    exact h.root
  · rw [hsz]
    unfold userStack at hstack
    unfold ulongMod
    omega
  · rw [hsz]
    exact hstart.trans hmono
  · intro va hva hge hlt
    rw [hsz] at hlt
    rw [hroot]
    by_cases hbelow : va < pageAlign (k.procs p).sz
    · obtain ⟨hnone, pa, hpa⟩ := h.heap va hva hge hbelow
      refine ⟨hnone, pa, ?_⟩
      rw [hmapped.other va fun hr => absurd ((hin va hva).1 hr).1 (not_le.2 hbelow)]
      exact hpa
    obtain ⟨i, hi, hpage⟩ := (hin va hva).2 ⟨not_lt.1 hbelow, hlt⟩
    obtain ⟨pa, -, -, hentry⟩ := hmapped.mapped i hi
    have hunmapped := hmapped.unmapped i hi
    rw [← userEntry_pageNo hpage] at hentry hunmapped
    rw [h.rest va hva (Or.inr (not_lt.1 hbelow))] at hunmapped
    exact ⟨hunmapped, pa, hentry⟩
  intro va hva hout
  rw [hsz] at hout
  rw [hroot, hmapped.other va fun hr => ?_]
  · apply h.rest va hva
    omega
  · have hr' := (hin va hva).1 hr
    omega

/-- A clean call keeps the heap exact. -/
theorem HeapExact.step {k0 k' : Kern} {r : Int} (h : HeapExact p k0 k) (hclean : Clean p k n)
    (hrun : sysSbrk p n k = .ok (r, k')) : HeapExact p k0 k' := by
  rcases hclean.outcome h.sep hrun with ⟨-, hundone, hprocs⟩ | ⟨-, hk', hcases⟩
  · refine ⟨?_, ?_, ?_, ?_, ?_, ?_⟩
    all_goals rw [hprocs]
    · exact hundone.sep
    · exact h.root
    · exact h.brk
    · exact h.start
    · intro va hva hge hlt
      rw [hundone.entry]
      exact h.heap va hva hge hlt
    · intro va hva hout
      rw [hundone.entry]
      exact h.rest va hva hout
  have hsz : (k'.procs p).sz = newBreak (k.procs p).sz n := by
    rw [hk']
    exact setBrk_sz _ p _
  have hroot : (k'.procs p).pagetable = (k.procs p).pagetable := by
    rw [hk']
    exact setBrk_pagetable _ p _
  have hlt := newBreak_lt (k.procs p).sz n
  rcases hcases with ⟨hsame, hmm⟩ | ⟨hn, hle, hmapped⟩
  · refine ⟨?_, ?_, ?_, ?_, ?_, ?_⟩
    all_goals first | rw [hroot] | rw [hsz]
    · rw [hmm]
      exact h.sep
    · exact h.root
    · exact hlt
    · rw [hsame]
      exact h.start
    · rw [hsz, hsame, hmm]
      exact h.heap
    · rw [hsz, hsame, hmm]
      exact h.rest
  have hnew : newBreak (k.procs p).sz n = (k.procs p).sz + n := by
    unfold newBreak ulongMod userStack at *
    omega
  exact h.grow (by omega) (by omega) hroot hsz hmapped

end

/-! ## Runs -/

/-- One clean call of `sbrk`. -/
def CleanCall (p : Nat) (k k' : Kern) : Prop := ∃ n r, Clean p k n ∧ sysSbrk p n k = .ok (r, k')

section

variable {p : Nat} {k0 k : Kern}

theorem HeapExact.refl (hsep : Sep k0.mm 4 (k0.procs p).pagetable) (hsz : (k0.procs p).sz < ulongMod) :
    HeapExact p k0 k0 where
  sep := hsep
  root := rfl
  brk := hsz
  start := le_refl _
  heap _ _ hge hlt := absurd hge (not_le.2 hlt)
  rest _ _ _ := rfl

theorem HeapExact.run (hsep : Sep k0.mm 4 (k0.procs p).pagetable) (hsz : (k0.procs p).sz < ulongMod)
    (hrun : Relation.ReflTransGen (CleanCall p) k0 k) : HeapExact p k0 k := by
  induction hrun with
  | refl => exact HeapExact.refl hsep hsz
  | tail _ hstep ih =>
    obtain ⟨n, r, hclean, hcall⟩ := hstep
    exact ih.step hclean hcall

/-- Growing again by what a clean call has given up needs no page. -/
theorem regrow {n r r' : Int} {k' k'' : Kern} (hsep : Sep k.mm 4 (k.procs p).pagetable)
    (hsz : (k.procs p).sz < ulongMod) (hn : 0 < n) (hclean : Clean p k (-n))
    (hshrink : sysSbrk p (-n) k = .ok (r, k')) (hr : 0 ≤ r) (hgrow : sysSbrk p n k' = .ok (r', k'')) :
    r' = newBreak (k.procs p).sz (-n) ∧ (k''.procs p).sz = (k.procs p).sz := by
  rcases hclean.outcome hsep hshrink with ⟨hneg, -⟩ | ⟨-, hk', ⟨hsame, -⟩ | ⟨hpos, -⟩⟩
  · omega
  · have hbrk : (k'.procs p).sz = newBreak (k.procs p).sz (-n) := by
      rw [hk']
      exact setBrk_sz _ p _
    have hback : newBreak (newBreak (k.procs p).sz (-n)) n = (k.procs p).sz := by
      unfold newBreak ulongMod at *
      omega
    have hzero : growth (newBreak (k.procs p).sz (-n)) n = 0 := by
      unfold growth
      rw [hback, hsame, Nat.sub_self]
    rw [sysSbrk_eq, hbrk, if_neg (by omega), if_pos hn, hzero, hback] at hgrow
    cases hgrow
    exact ⟨rfl, setBrk_sz _ p _⟩
  · omega

/-- In every run of clean calls the mapped heap is exactly what the break says, a further clean call that
returns an error changes nothing, and what it gives up can be had again. -/
theorem sbrk_exact (hsep : Sep k0.mm 4 (k0.procs p).pagetable) (hsz : (k0.procs p).sz < ulongMod)
    (hrun : Relation.ReflTransGen (CleanCall p) k0 k) :
    HeapExact p k0 k ∧
      (∀ n r k', Clean p k n → sysSbrk p n k = .ok (r, k') → r < 0 → Untouched p k k') ∧
      ∀ n r r' k' k'', 0 < n → Clean p k (-n) → sysSbrk p (-n) k = .ok (r, k') → 0 ≤ r →
        sysSbrk p n k' = .ok (r', k'') → 0 ≤ r' ∧ (k''.procs p).sz = (k.procs p).sz := by
  have hexact := HeapExact.run hsep hsz hrun
  refine ⟨hexact, fun n r k' hclean hcall hr => ?_, fun n r r' k' k'' hn hclean hshrink hr hgrow => ?_⟩
  · rcases hclean.outcome hexact.sep hcall with ⟨-, hundone, hprocs⟩ | ⟨hret, -⟩
    · exact ⟨by rw [hprocs], by rw [hprocs]; exact hundone.entry, by rw [hprocs]; exact hundone.frames,
        hundone.free⟩
    · omega
  · obtain ⟨hret, hbrk⟩ := regrow hexact.sep hexact.brk hn hclean hshrink hr hgrow
    exact ⟨by omega, hbrk⟩

end

/-- A process with an empty address space and break 0; six frames are free. -/
def heapKern : Kern :=
  { mm := ⟨fun _ _ => 0, (List.range 6).map fun i => ramBase + (i + 1) * pageSize⟩,
    pipes := smallMachine.pipes, procs := fun _ => { emptyProc with pagetable := ramBase },
    files := fun _ => newFile, fs := rootFs smallMachine.sb smallMachine.disk, nextpid := 1,
    initramfs := fun _ => none }

theorem heapKern_sep : Sep heapKern.mm 4 ramBase := by
  have hext : extent heapKern.mm 4 ramBase =
      ((List.range 6).map fun i => ramBase + (i + 1) * pageSize : List Nat) + ({ramBase} + 0) := by
    rw [extent, frames_of_zero 4 rfl]
    rfl
  constructor
  · rw [hext]
    decide
  · rw [hext]
    decide

/-- The memory with one page of heap. -/
def onePageMem : PhysMem := (newPages ramBase true false (growth 0 4096) (pageAlign 0) heapKern.mm).2

/-- The machine behind `sbrk(4096)`. -/
def onePageKern : Kern := (heapKern.withMm onePageMem).setBrk 0 4096

theorem heapKern_grow : sysSbrk 0 4096 heapKern = .ok (0, onePageKern) := by
  have hpage : newPages ramBase true false (growth 0 4096) (pageAlign 0) heapKern.mm = (true, onePageMem) :=
    Prod.ext (by decide +kernel) rfl
  exact sysSbrk_grow (by decide) (by decide) hpage

/-- One page, and then a request to give up two. -/
theorem sbrk_exact_page : ∃ k k', sysSbrk 0 4096 heapKern = .ok (0, k) ∧ HeapExact 0 heapKern k ∧
    sysSbrk 0 (-8192) k = .ok (-22, k') ∧ Untouched 0 k k' := by
  have hclean : Clean 0 heapKern 4096 := by
    have hone : growth (heapKern.procs 0).sz 4096 = 1 := by decide
    refine Or.inr (Or.inr ⟨by decide, Or.inr ⟨by decide, ?_⟩⟩)
    rw [hone]
    exact (newPages_iff true false heapKern_sep (by decide)).1 (by decide +kernel)
  have hrun : Relation.ReflTransGen (CleanCall 0) heapKern onePageKern :=
    Relation.ReflTransGen.single ⟨4096, 0, hclean, heapKern_grow⟩
  obtain ⟨hexact, herror, -⟩ := sbrk_exact (p := 0) heapKern_sep (by decide) hrun
  have hrefused : (-8192 : Int) < 0 ∧ (onePageKern.procs 0).sz < newBreak (onePageKern.procs 0).sz (-8192) := by
    decide
  have hcall : sysSbrk 0 (-8192) onePageKern = .ok (-22, onePageKern) := by
    rw [sysSbrk_eq, if_pos hrefused]
  exact ⟨_, _, heapKern_grow, hexact, hcall, herror _ _ _ (Or.inl hrefused) hcall (by decide)⟩

/-- A page is given up and asked for again: it stays mapped above the break, and then it is in the way. -/
theorem sbrk_leaves_page : ∃ k1 k2 k3, sysSbrk 0 4096 heapKern = .ok (0, k1) ∧
    sysSbrk 0 (-4096) k1 = .ok (4096, k2) ∧ sysSbrk 0 4096 k2 = .ok (-12, k3) ∧
    (k2.procs 0).sz = 0 ∧ k2.mm.free.length = 2 ∧ ¬ HeapExact 0 heapKern k2 := by
  have hmapped : (userEntry onePageMem ramBase 0).isSome = true := by decide +kernel
  have hshrink : sysSbrk 0 (-4096) onePageKern = .ok (4096, onePageKern.setBrk 0 0) := by
    rfl
  have hagain : newPages ramBase true false (growth 0 4096) (pageAlign 0) onePageMem =
      (false, (newPages ramBase true false (growth 0 4096) (pageAlign 0) onePageMem).2) :=
    Prod.ext (by decide +kernel) rfl
  refine ⟨_, _, _, heapKern_grow, hshrink, sysSbrk_full (by decide) (by decide) hagain, rfl,
    by decide +kernel, fun h => ?_⟩
  have hrest : userEntry onePageMem ramBase 0 = userEntry heapKern.mm ramBase 0 :=
    h.rest 0 (by decide) (Or.inr (by decide))
  have hempty : userEntry heapKern.mm ramBase 0 = none := by decide +kernel
  rw [hrest, hempty] at hmapped
  cases hmapped

end Slopix.Kernel
