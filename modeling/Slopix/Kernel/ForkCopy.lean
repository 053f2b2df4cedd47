import Slopix.Kernel.Argv
import Slopix.Kernel.Fork
import Slopix.Kernel.Mmap
import Slopix.Kernel.UserAccess

/-!
# The child of a fork

What a successful `fork` gives the child, compared with the parent at the call: the user pages and
their permissions, the saved registers, the descriptors, the working directory, the process group and
the program break. `sys_fork` copies all of them except the break, which `proc_alloc` sets to 0; the
first `sbrk` or `mmap` of the child shows it.
-/

namespace Slopix.Kernel

open Lib Mm Fs Ipc Multiset Exec

/-- The permissions and the bytes of the page mapped at a user address. -/
def userPage (m : PhysMem) (pagetable va : Nat) : Option (Nat × Bytes) :=
  match walkTables m (tableIndices va) pagetable with
  | none => none
  | some t =>
    if pteValid (m.pte t (l3Index va)) then
      some (pteFlags (m.pte t (l3Index va)), m.page (pteAddr (m.pte t (l3Index va))))
    else none

/-- The value a call returns. -/
def value {α : Type} (r : Except Stop (α × Kern)) : Except Stop α := r.map Prod.fst

/-- Process `c` in `k'` has the user-visible state of process `p` in `k`. Both have their own pages in
`k'`, and a call of `sbrk` or `mmap` there (they read the break) returns the same to both. -/
structure SameProcess (k : Kern) (p : Nat) (k' : Kern) (c : Nat) : Prop where
  pages : ∀ va, userPage k'.mm (k'.procs c).pagetable va = userPage k.mm (k.procs p).pagetable va
  apart : Disjoint (space k'.mm (k'.procs c).pagetable) (space k'.mm (k'.procs p).pagetable)
  regs : ∀ i, i ≠ 0 → (k'.procs c).tf.regs i = (k.procs p).tf.regs i
  spEl0 : (k'.procs c).tf.spEl0 = (k.procs p).tf.spEl0
  elr : (k'.procs c).tf.elr = (k.procs p).tf.elr
  spsr : (k'.procs c).tf.spsr = (k.procs p).tf.spsr
  ofile : ∀ fd < nofile, (k'.procs c).ofile fd = (k.procs p).ofile fd
  cwd : (k'.procs c).cwd = (k.procs p).cwd
  pgid : (k'.procs c).pgid = (k.procs p).pgid
  sz : (k'.procs c).sz = (k.procs p).sz
  sbrk : ∀ n, value (sysSbrk c n k') = value (sysSbrk p n k')
  mmap : ∀ addr len prot flags,
    value (sysMmap c addr len prot flags k') = value (sysMmap p addr len prot flags k')

/-! ## The pages -/

section

variable {m m' : PhysMem}

/-- A walk of the copy goes as in the original. -/
theorem Copied.walkTables {l : List Nat} {d t t' : Nat} (his : ∀ i ∈ l, i < ptePerTable)
    (h : Copied m m' (d + l.length) t t') :
    (Mm.walkTables m l t = none ∧ Mm.walkTables m' l t' = none) ∨
      ∃ u u', Mm.walkTables m l t = some u ∧ Mm.walkTables m' l t' = some u' ∧
        Copied m m' d u u' := by
  induction l generalizing t t' with
  | nil => exact Or.inr ⟨t, t', rfl, rfl, h⟩
  | cons i l ih =>
    obtain ⟨hvalid, hbelow⟩ := h i (his i List.mem_cons_self)
    rw [Mm.walkTables, Mm.walkTables, hvalid]
    by_cases hv : pteValid (m.pte t i) = true
    · rw [if_pos hv, if_pos hv]
      exact ih (fun j hj => his j (List.mem_cons_of_mem i hj)) (hbelow hv).2
    · rw [if_neg hv, if_neg hv]
      exact Or.inl ⟨rfl, rfl⟩

theorem Copied.userPage {t t' : Nat} (h : Copied m m' 4 t t') (va : Nat) :
    Kernel.userPage m' t' va = Kernel.userPage m t va := by
  unfold Kernel.userPage
  rcases Copied.walkTables (d := 1) (l := tableIndices va) (tableIndices_lt va) h with
    ⟨hnone, hnone'⟩ | ⟨u, u', hu, hu', hcopied⟩
  · rw [hnone, hnone']
  obtain ⟨hvalid, hbelow⟩ := hcopied (l3Index va) (l3Index_lt va)
  rw [hu, hu']
  dsimp only
  rw [hvalid]
  split
  · rename_i hv
    rw [(hbelow hv).1 rfl, show m'.page _ = m.page _ from (hbelow hv).2]
  · rfl

end

/-! ## The break -/

section

variable {k k' : Kern} {t t' : Nat}

/-- The loop of `sbrk` ends in the same way in two address spaces that are alike. -/
theorem mapPages_twins (write exec : Bool) (n va : Nat) (h : Twins k.mm k'.mm t t') :
    value (mapPages t' (fun _ _ => pure true) write exec n va k') =
      value (mapPages t (fun _ _ => pure true) write exec n va k) := by
  induction n generalizing k k' va with
  | zero => rfl
  | succ n ih =>
    obtain ⟨hsame, htwins⟩ := h.newPage va write exec
    rw [mapPages, mapPages, bind_ok (mapNew_plain k t va write exec),
      bind_ok (mapNew_plain k' t' va write exec), hsame]
    cases hpa : (newPage k.mm t va write exec).1 with
    | none => rfl
    | some pa => exact ih (va + 4096) (htwins (by rw [hpa]; rfl))

/-- So does the loop of `mmap`. -/
theorem mmapLoop_twins (write : Bool) (n done va : Nat) (h : Twins k.mm k'.mm t t') :
    value (mmapLoop t' write n done va k') = value (mmapLoop t write n done va k) := by
  have hpages : ∀ {m m' : PhysMem} (done va : Nat), Twins m m' t t' →
      (mmapPages t' write n done va m').1 = (mmapPages t write n done va m).1 := by
    induction n with
    | zero => exact fun _ _ _ => rfl
    | succ n ih =>
      intro m m' done va h
      obtain ⟨hsame, htwins⟩ := h.newPage va write false
      rw [mmapPages, mmapPages]
      rcases hnew : newPage m t va write false with ⟨r, m1⟩
      rcases hnew' : newPage m' t' va write false with ⟨r', m1'⟩
      rw [hnew, hnew'] at hsame htwins
      obtain rfl : r' = r := hsame
      cases r' with
      -- dropping the pages again cannot fail
      | none => rfl
      | some pa => exact ih (done + 1) (va + 4096) (htwins rfl)
  rw [mmapLoop_plain, mmapLoop_plain]
  exact congrArg Except.ok (hpages done va h)

/-- Programs that return the same go on in the same way when what follows looks at nothing else. -/
theorem value_bind {α β : Type} {m m' : KM β} {f f' : β → KM α} (h : value (m' k') = value (m k))
    (hf : ∀ b s s', value (f' b s') = value (f b s)) : value ((m' >>= f') k') = value ((m >>= f) k) := by
  cases hm : m k with
  | error e =>
    cases hm' : m' k' with
    | error e' =>
      rw [hm, hm'] at h
      cases h
      exact (congrArg value (bind_error hm')).trans (congrArg value (bind_error hm)).symm
    | ok r' =>
      rw [hm, hm'] at h
      cases h
  | ok r =>
    cases hm' : m' k' with
    | error e' =>
      rw [hm, hm'] at h
      cases h
    | ok r' =>
      rw [hm, hm'] at h
      obtain ⟨b, s⟩ := r
      obtain ⟨b', s'⟩ := r'
      have hb : b' = b := Except.ok.inj h
      rw [bind_ok hm, bind_ok hm', hb]
      exact hf b s s'

/-- `sbrk` returns the same to two processes with the same break and address spaces that are alike. -/
theorem sysSbrk_twins {p c : Nat} (n : Int) (hsz : (k.procs c).sz = (k.procs p).sz)
    (h : Twins k.mm k.mm (k.procs p).pagetable (k.procs c).pagetable) :
    value (sysSbrk c n k) = value (sysSbrk p n k) := by
  unfold sysSbrk
  rw [getProc, getProc, bind_ok (b := k.procs c) rfl, bind_ok (b := k.procs p) rfl, hsz]
  split
  · rfl
  split
  · apply value_bind (mapPages_twins true false _ _ h)
    intro b s s'
    cases b with
    | true => rfl
    | false => rfl
  · rfl

/-- `mmap` returns the same to two processes with the same break and address spaces that are alike. -/
theorem sysMmap_twins {p c : Nat} (addr len prot flags : Nat) (hsz : (k.procs c).sz = (k.procs p).sz)
    (h : Twins k.mm k.mm (k.procs p).pagetable (k.procs c).pagetable) :
    value (sysMmap c addr len prot flags k) = value (sysMmap p addr len prot flags k) := by
  rw [sysMmap, sysMmap, getProc, getProc, bind_ok (b := k.procs c) rfl, bind_ok (b := k.procs p) rfl, hsz]
  split
  · rfl
  split
  · rfl
  split
  · rfl
  dsimp only
  generalize (if flags &&& 0x10 ≠ 0 then addr else pageAlign (k.procs p).sz) = va
  split
  · rfl
  apply value_bind (mmapLoop_twins _ _ _ _ h)
  intro b s s'
  cases b with
  | true =>
    rw [if_pos rfl, if_pos rfl]
    split <;> rfl
  | false => rfl

end

/-! ## Fork -/

section

variable {k k' : Kern} {p : Nat} {r : Int}

/-- A `fork` that returns no error had the memory and the slot it needs. -/
theorem sysFork_inv (hrun : sysFork p k = .ok (r, k')) (hr : 0 ≤ r) :
    ∃ pt m1 c ks m2, vmmCopy k.mm (k.procs p).pagetable = (some pt, m1) ∧
      (List.range nproc).find? (fun p => (k.procs p).state == .unused) = some c ∧
      pmmAllocContiguous m1 kstackPages = some (ks, m2) := by
  have hfail : ∀ s : Kern, fail .enomem s ≠ .ok (r, k') := by
    rintro s h
    have hval : -Errno.enomem.val = r := congrArg Prod.fst (Except.ok.inj h)
    rw [← hval] at hr
    exact absurd hr (by decide)
  unfold sysFork at hrun
  rw [getProc, bind_ok (b := k.procs p) rfl] at hrun
  rcases hcopy : vmmCopy k.mm (k.procs p).pagetable with ⟨_ | pt, m1⟩
  · have hpt : (onMm fun m => vmmCopy m (k.procs p).pagetable) k = .ok (none, k.withMm m1) := by
      unfold onMm step
      beta_reduce
      rw [hcopy]
    rw [bind_ok hpt] at hrun
    exact absurd hrun (hfail _)
  have hpt : (onMm fun m => vmmCopy m (k.procs p).pagetable) k = .ok (some pt, k.withMm m1) := by
    unfold onMm step
    beta_reduce
    rw [hcopy]
  rw [bind_ok hpt] at hrun
  dsimp only at hrun
  have hnone : (k.withMm m1).procAlloc.1 ≠ none := by
    intro hal
    have hstep : step Kern.procAlloc (k.withMm m1) =
        (.ok (none, (k.withMm m1).procAlloc.2) : Except Stop _) := by
      rw [← hal]
      rfl
    rw [bind_ok hstep] at hrun
    exact hfail _ hrun
  cases hfind : (List.range nproc).find? fun p => (k.procs p).state == .unused with
  | none =>
    refine absurd ?_ hnone
    unfold Kern.procAlloc
    rw [show ((List.range nproc).find? fun q => ((k.withMm m1).procs q).state == .unused) = none
      from hfind]
  | some c =>
    cases hal : pmmAllocContiguous m1 kstackPages with
    | none =>
      refine absurd ?_ hnone
      unfold Kern.procAlloc
      rw [show ((List.range nproc).find? fun q => ((k.withMm m1).procs q).state == .unused) =
        some c from hfind]
      rw [show pmmAllocContiguous (k.withMm m1).mm kstackPages = none from hal]
    | some a => exact ⟨pt, m1, c, a.1, a.2, rfl, rfl, hal⟩

end

section

variable {b : Machine} {k k' : Kern} {p : Nat} {r : Int}

/-- The accounts are right in every reachable state. -/
theorem owned_reachable {ok : Kern → Action → Prop} (h : b.Reachable ok k) :
    Owned ⟨b.managed, False⟩ k 0 b.kernelFrames := by
  obtain ⟨k0, hboot, hreach⟩ := h
  exact hreach.invariant (owned_boot b False hboot) fun _ _ _ ho _ hs =>
    (owned_step (frameSet_managed b False) ho (fun hs' => hs'.elim) hs).1

theorem Owned.space_apart {K : Ledger} {H : Multiset Nat} {q : Nat} (hK : FrameSet K)
    (h : Owned K k 0 H) (hp : k.alive p) (hq : k.alive q) (hpq : p ≠ q) :
    Disjoint (space k.mm (k.procs q).pagetable) (space k.mm (k.procs p).pagetable) := by
  have hroot : ∀ q, k.alive q → (k.procs q).root = {(k.procs q).pagetable} := by
    intro q hq
    exact if_neg ((h.slot q).live (alive_iff.1 hq).2).1
  have hle := add_le_sum_range (f := fun p => (k.procs p).root) hq.1 hp.1 hpq
  rw [hroot p hp, hroot q hq] at hle
  have hworld := world_mono k.mm (hle.trans (Multiset.le_add_right _ 0))
  have hnd := nodup_of_le hworld (h.good hK).nodup
  unfold world at hnd
  rw [add_bind, singleton_bind, singleton_bind, nodup_add, nodup_add] at hnd
  exact hnd.2.1.2.2

/-- What a `fork` leaves unchanged of the parent, and the copy that it makes. -/
theorem sysFork_copied {K : Ledger} {H : Multiset Nat} (hK : FrameSet K) (h : Owned K k 0 H)
    (hc : Counted k) (hp : k.alive p) (hrun : sysFork p k = .ok (r, k')) (hr : 0 ≤ r) :
    ∃ c, r = k.nextpid ∧ Child k p c k' ∧
      Copied k.mm k'.mm 4 (k.procs p).pagetable (k'.procs c).pagetable ∧
      ∀ x ∈ tables k.mm 4 (k.procs p).pagetable, k'.mm.page x = k.mm.page x := by
  obtain ⟨pt, m1, c, ks, m2, hcopy, hfind, hal⟩ := sysFork_inv hrun hr
  obtain ⟨k1, hrun1, hmm, hpt, -, hchild⟩ := sysFork_run hp (hc.filesOpen hp) hcopy hfind hal
  rw [hrun] at hrun1
  obtain ⟨rfl, rfl⟩ := Prod.mk.inj (Except.ok.inj hrun1)
  obtain ⟨rest, hrest⟩ := exists_cons_of_mem (h.root_mem hp)
  have hgood := h.good hK
  rw [hrest] at hgood
  have hsep := hgood.sep
  obtain ⟨hres, hpage⟩ := vmmCopy_spec hsep
  rw [hcopy] at hres hpage
  obtain ⟨hfree, hcopied⟩ := hres
  obtain ⟨hstack, hkeep⟩ := pmmAllocContiguous_spec hal
  -- the frames of the kernel stack come from the free list, so they are in neither address space
  have hout : ∀ x, x ∉ m1.free → k'.mm.page x = m1.page x := by
    intro x hx
    rw [hmm]
    apply hkeep
    intro hmem
    apply hx
    rw [← mem_coe, hstack]
    exact mem_add.2 (Or.inl hmem)
  have hnd : (extent m1 4 pt).Nodup := by
    rw [← hfree]
    exact (nodup_add.1 hsep.nodup).1
  refine ⟨c, rfl, hchild, ?_, fun x hx => ?_⟩
  · rw [hpt]
    apply hcopied.congr_right
    intro x hx
    apply hout
    exact fun hfree' => disjoint_left.1 (nodup_add.1 hnd).2.2
      (mem_coe.2 hfree') hx
  have hx' := hsep.notMem_free (mem_of_le (tables_le _ _ _) hx)
  rw [hout x, hpage x hx']
  intro hmem
  apply hx'
  rw [← mem_coe, hfree]
  exact mem_add.2 (Or.inl (mem_coe.2 hmem))

/-- The child of a successful `fork` is the process its parent was exactly when the parent's break
was 0: this is the one field that is not copied. -/
theorem fork_same (h : b.Reachable (fun _ _ => True) k) (hp : k.alive p)
    (hrun : sysFork p k = .ok (r, k')) (hr : 0 ≤ r) :
    ∃ c, c < nproc ∧ (k.procs c).state = .unused ∧ (k'.procs c).pid = r ∧
      (k'.procs c).parent = some p ∧ (SameProcess k p k' c ↔ (k.procs p).sz = 0) := by
  have hK := frameSet_managed b False
  obtain ⟨c, rfl, hchild, hcopied, hkept⟩ :=
    sysFork_copied hK (owned_reachable h) (counted_reachable h) hp hrun hr
  have hpc : p ≠ c := by
    rintro rfl
    exact hp.2.1 hchild.free
  have howned' := (sysFork_spec hK (owned_reachable h) hp).ok _ _ hrun |>.1
  have hp' : k'.alive p := by
    unfold Kern.alive
    rw [hchild.others p hpc]
    exact hp
  have hc' : k'.alive c := by
    rw [alive_iff, hchild.state]
    exact ⟨hchild.lt, rfl⟩
  have hsep : ∀ q, k'.alive q → Sep k'.mm 4 (k'.procs q).pagetable := by
    intro q hq
    obtain ⟨rest, hrest⟩ := exists_cons_of_mem (howned'.root_mem hq)
    have hgood := howned'.good hK
    rw [hrest] at hgood
    exact hgood.sep
  refine ⟨c, hchild.lt, hchild.free, by rw [hchild.pid], hchild.parent, fun hsame => ?_, fun hsz => ?_⟩
  · rw [← hsame.sz, hchild.sz]
  have hszc : (k'.procs c).sz = (k'.procs p).sz := by
    rw [hchild.sz, hchild.others p hpc, hsz]
  have htwins : Twins k'.mm k'.mm (k'.procs p).pagetable (k'.procs c).pagetable := by
    refine ⟨hsep p hp', hsep c hc', rfl, ?_⟩
    rw [hchild.others p hpc]
    exact hcopied.alike.congr hkept fun x _ => rfl
  constructor
  · exact Copied.userPage hcopied
  · exact howned'.space_apart hK hp' hc' hpc
  · intro i hi
    rw [hchild.tf]
    exact Function.update_of_ne hi ..
  · rw [hchild.tf]
    rfl
  · rw [hchild.tf]
    rfl
  · rw [hchild.tf]
    rfl
  · exact hchild.ofile
  · exact hchild.cwd
  · exact hchild.pgid
  · rw [hchild.sz, hsz]
  · exact fun n => sysSbrk_twins n hszc htwins
  · exact fun addr len prot flags => sysMmap_twins addr len prot flags hszc htwins

theorem small_child : ∃ k0 k c, smallMachine.boot = .ok ((), k0) ∧ k0.alive 0 ∧
    (k0.procs 0).sz = 4096 ∧ (∀ q, q ≠ 0 → k0.procs q = emptyProc) ∧
    sysFork 0 k0 = .ok ((k0.nextpid : Int), k) ∧ Child k0 0 c k ∧ Spare k.mm 568 := by
  obtain ⟨k0, hboot, hstart⟩ := boot_bare smallMachine_bare
  have halive : k0.alive 0 := by
    rw [alive_iff, hstart.state]
    exact ⟨by decide, rfl⟩
  have hreach : smallMachine.Reachable (fun _ _ => True) k0 := ⟨k0, hboot, .start⟩
  obtain ⟨c, k, hrun, hspare, -, hchild⟩ := sysFork_spare (frameSet_managed smallMachine False)
    (owned_reachable hreach) (counted_reachable hreach) halive hstart.spare (by decide)
    ⟨1, by decide, by rw [hstart.others 1 (by decide)]; rfl⟩
  exact ⟨k0, k, c, hboot, halive, hstart.sz, hstart.others, hrun, hchild, hspare⟩

/-- A child that forks before its first `sbrk` has a child like itself. -/
theorem fork_same_grandchild : ∃ k p r k' d, smallMachine.Reachable (fun _ _ => True) k ∧
    sysFork p k = .ok (r, k') ∧ (k'.procs d).pid = r ∧ SameProcess k p k' d := by
  obtain ⟨k0, k, c, hboot, halive, -, hothers, hrun, hchild, hspare⟩ := small_child
  have hreach : smallMachine.Reachable (fun _ _ => True) (k.setReturn 0 k0.nextpid) :=
    ⟨k0, hboot, .step .start trivial (.call (c := .fork) halive hrun)⟩
  have hc0 : c ≠ 0 := by
    rintro rfl
    exact halive.2.1 hchild.free
  have hprocs : ∀ q, q ≠ 0 → (k.setReturn 0 k0.nextpid).procs q = k.procs q := fun q hq =>
    Kern.setProc_procs_of_ne k _ hq
  have halive' : (k.setReturn 0 k0.nextpid).alive c := by
    rw [alive_iff, hprocs c hc0, hchild.state]
    exact ⟨hchild.lt, rfl⟩
  obtain ⟨q, hq, hq0, hqc⟩ : ∃ q < nproc, q ≠ 0 ∧ q ≠ c := by
    by_cases h : c = 1
    · exact ⟨2, by decide, by omega, by omega⟩
    · exact ⟨1, by decide, by omega, Ne.symm h⟩
  have hfree : ((k.setReturn 0 k0.nextpid).procs q).state = .unused := by
    rw [hprocs q hq0, hchild.others q hqc, hothers q hq0]
    rfl
  obtain ⟨-, k', hrun', -⟩ := sysFork_spare (frameSet_managed smallMachine False)
    (owned_reachable hreach) (counted_reachable hreach) halive' hspare (by decide) ⟨q, hq, hfree⟩
  obtain ⟨d, -, -, hpid, -, hsame⟩ := fork_same hreach halive' hrun' (Int.natCast_nonneg _)
  refine ⟨_, c, _, k', d, hreach, hrun', hpid, hsame.2 ?_⟩
  rw [hprocs c hc0]
  exact hchild.sz

/-- The first process has a break of 4096 bytes, its child has none. -/
theorem fork_not_same : ¬ ∀ (b : Machine) (k k' : Kern) (p : Nat) (r : Int),
    b.Reachable (fun _ _ => True) k → k.alive p → sysFork p k = .ok (r, k') → 0 ≤ r →
      ∃ c, (k.procs c).state = .unused ∧ (k'.procs c).pid = r ∧ SameProcess k p k' c := by
  intro hall
  obtain ⟨k0, k, c, hboot, halive, hsz, hothers, hrun, hchild, -⟩ := small_child
  obtain ⟨d, hfree, -, hsame⟩ := hall smallMachine k0 k 0 _ ⟨k0, hboot, .start⟩ halive hrun
    (Int.natCast_nonneg _)
  have hd0 : d ≠ 0 := by
    rintro rfl
    exact halive.2.1 hfree
  have hbreak := hsame.sz
  rw [hsz] at hbreak
  by_cases hdc : d = c
  · rw [hdc, hchild.sz] at hbreak
    cases hbreak
  · rw [hchild.others d hdc, hothers d hd0] at hbreak
    cases hbreak

end

/-- Memory is private: in no run does a store of a process change how an address of a live process is
mapped, or a byte that another live process has mapped. -/
theorem store_private {b : Machine} {k k' : Kern} {p q pa : Nat} {x : Bytes}
    (h : b.Reachable (fun _ _ => True) k) (hs : Step k (.store p pa x) k') (hq : k.alive q) :
    (∀ va, userEntry k'.mm (k'.procs q).pagetable va = userEntry k.mm (k.procs q).pagetable va) ∧
      (q ≠ p → ∀ va e, userEntry k.mm (k.procs q).pagetable va = some e →
        k'.mm.page (pteAddr e) = k.mm.page (pteAddr e)) := by
  have howned := owned_reachable h
  have hK := frameSet_managed b False
  have hgood := howned.good hK
  cases hs with
  | store hp hpage =>
    refine ⟨userEntry_congr fun y hy => Function.update_of_ne ?_ _ _, fun hne va e he =>
      Function.update_of_ne ?_ _ _⟩
    · rintro rfl
      have hdata : IsData k.mm (k.roots + 0) y := ⟨_, howned.root_mem hp, hpage⟩
      exact hdata.notMem_tables hgood _ (howned.root_mem hq) hy
    · rintro rfl
      have hapart := howned.space_apart hK hp hq (Ne.symm hne)
      unfold space at hapart
      rw [← tables_add_pages, ← tables_add_pages] at hapart
      exact disjoint_left.1 hapart (mem_add.2 (.inr (userEntry_mem he))) (mem_add.2 (.inr hpage))

theorem userPage_eq (m : PhysMem) (t va : Nat) :
    userPage m t va = (userEntry m t va).map fun e => (pteFlags e, m.page (pteAddr e)) := by
  unfold userPage userEntry
  cases walkTables m (tableIndices va) t with
  | none => rfl
  | some t =>
    dsimp only [Option.bind_some]
    split <;> rfl

/-- After a `fork` the first process stores into the top of its stack, and its child's keeps the bytes. -/
theorem store_private_small : ∃ k c pa e, smallMachine.Reachable (fun _ _ => True) k ∧ k.alive c ∧ c ≠ 0 ∧
    validatePage k.mm (k.procs 0).pagetable (userStack - 4096) = some pa ∧
    userEntry k.mm (k.procs c).pagetable (userStack - 4096) = some e ∧
    (∀ va, userEntry (k.mm.setPage pa fun _ => 1) (k.procs c).pagetable va = userEntry k.mm (k.procs c).pagetable va) ∧
    (k.mm.setPage pa fun _ => 1).page (pteAddr e) = k.mm.page (pteAddr e) := by
  obtain ⟨k0, hboot, hstart⟩ := boot_bare smallMachine_bare
  have halive : k0.alive 0 := by
    rw [alive_iff, hstart.state]
    exact ⟨by decide, rfl⟩
  have hreach : smallMachine.Reachable (fun _ _ => True) k0 := ⟨k0, hboot, .start⟩
  have hK := frameSet_managed smallMachine False
  obtain ⟨-, k1, hrun, -⟩ := sysFork_spare hK (owned_reachable hreach) (counted_reachable hreach) halive hstart.spare (by decide)
    ⟨1, by decide, by rw [hstart.others 1 (by decide)]; rfl⟩
  obtain ⟨c, -, hchild, hcopied, hkept⟩ := sysFork_copied hK (owned_reachable hreach) (counted_reachable hreach) halive hrun
    (Int.natCast_nonneg _)
  have hc : c ≠ 0 := by
    rintro rfl
    exact halive.2.1 hchild.free
  have hreach1 : smallMachine.Reachable (fun _ _ => True) (k1.setReturn 0 k0.nextpid) :=
    ⟨k0, hboot, Reach.start.step trivial (.call (c := .fork) halive hrun)⟩
  generalize hk : k1.setReturn 0 k0.nextpid = k at hreach1
  have hmm : k.mm = k1.mm := by rw [← hk]; rfl
  have hprocs : k.procs c = k1.procs c := by rw [← hk, Kern.setReturn, Kern.setProc_procs_of_ne _ _ hc]
  have hfirst : (k.procs 0).pagetable = (k0.procs 0).pagetable ∧ (k.procs 0).state = (k0.procs 0).state := by
    rw [← hk, Kern.setReturn, Kern.setProc_procs_self, hchild.others 0 hc.symm]
    exact ⟨rfl, rfl⟩
  have halive0 : k.alive 0 := by
    rw [alive_iff, hfirst.2]
    exact alive_iff.1 halive
  have halivec : k.alive c := by
    rw [alive_iff, hprocs, hchild.state]
    exact ⟨hchild.lt, rfl⟩
  -- both map the top of the stack
  obtain ⟨pa, hpa⟩ := boot_stack hboot
  have hpa1 : validatePage k.mm (k.procs 0).pagetable (userStack - 4096) = some pa := by
    rw [hmm, hfirst.1]
    exact keepsMaps_of_tables hkept _ _ hpa
  have hpage := Copied.userPage hcopied (userStack - 4096)
  rw [userPage_eq, userPage_eq] at hpage
  obtain ⟨e, he⟩ : ∃ e, userEntry k1.mm (k1.procs c).pagetable (userStack - 4096) = some e := by
    obtain ⟨-, e, he, -⟩ := validatePage_eq_some.1 hpa
    rw [he] at hpage
    obtain ⟨e', he', -⟩ := Option.map_eq_some_iff.1 hpage
    exact ⟨e', he'⟩
  rw [← hmm, ← hprocs] at he
  obtain ⟨hmaps, hbytes⟩ := store_private hreach1 (.store halive0 (validatePage_mem hpa1) fun _ => 1) halivec
  exact ⟨k, c, pa, e, hreach1, halivec, hc, hpa1, he, hmaps, hbytes hc _ e he⟩

end Slopix.Kernel
