import Slopix.Kernel.Family
import Slopix.Kernel.ForkCopy
import Slopix.Kernel.Mmap

/-!
# Calls that succeed

What it takes for a call to have a result: a free table entry above an address and three frames for `mmap`, a child that
has ended for `wait`. With these a process opens the root directory, maps memory, forks and waits for its child, and the
invariants of the runs can be read off behind calls that succeed and calls that fail.
-/

namespace Slopix.Kernel

open Lib Mm Fs Ipc List Function Exec

/-! ## Sequences of calls -/

/-- Calls one after the other, with what they return. -/
def Kern.Calls (k : Kern) : List (Nat × Call × Int) → Kern → Prop
  | [], k' => k' = k
  | (p, c, r) :: calls, k' => k.alive p ∧ ∃ k1, syscall p c k = .ok (r, k1) ∧ (k1.setReturn p r).Calls calls k'

section

variable {b : Machine} {ok : Kern → Action → Prop} {k0 k k' : Kern} {calls : List (Nat × Call × Int)}

theorem Kern.Calls.reach (h : k.Calls calls k') (hrun : Reach ok k0 k) (hok : ∀ x ∈ calls, ∀ k, ok k (.call x.1 x.2.1)) :
    Reach ok k0 k' := by
  induction calls generalizing k with
  | nil =>
    obtain rfl : k' = k := h
    exact hrun
  | cons x calls ih =>
    obtain ⟨halive, k1, hret, hrest⟩ := h
    exact ih hrest (hrun.step (hok x mem_cons_self k) (.call halive hret)) fun y hy => hok y (mem_cons_of_mem x hy)

theorem Kern.Calls.reachable (h : k0.Calls calls k) (hboot : b.boot = .ok ((), k0))
    (hok : ∀ x ∈ calls, ∀ k, ok k (.call x.1 x.2.1)) : b.Reachable ok k :=
  ⟨k0, hboot, h.reach .start hok⟩

theorem Kern.Calls.reached (h : k0.Calls calls k) (hboot : b.boot = .ok ((), k0)) : b.Reachable (fun _ _ => True) k :=
  h.reachable hboot fun _ _ _ => trivial

theorem Kern.Calls.append {more : List (Nat × Call × Int)} {k'' : Kern} (h : k.Calls calls k') (hmore : k'.Calls more k'') :
    k.Calls (calls ++ more) k'' := by
  induction calls generalizing k with
  | nil =>
    obtain rfl : k' = k := h
    exact hmore
  | cons x calls ih =>
    obtain ⟨halive, k1, hret, hrest⟩ := h
    exact ⟨halive, k1, hret, ih hrest⟩

end

/-! ## Single calls -/

section

variable {k : Kern} {p c fd va n : Nat}

/-- A descriptor out of range is refused. -/
theorem sysClose_bad (hfd : nofile ≤ fd) : sysClose p fd k = .ok (-9, k) := by
  unfold sysClose fdFile
  rw [bind_ok (b := none) (t := k) (congrArg (fun f => Except.ok (f, k)) (if_neg (Nat.not_lt.2 hfd)))]
  rfl

/-- What a call on descriptors leaves of the other tables. -/
structure DescriptorsOnly (k k' : Kern) : Prop where
  mm : k'.mm = k.mm
  nextpid : k'.nextpid = k.nextpid
  mem : ∀ q, (k'.procs q).mem = (k.procs q).mem

theorem DescriptorsOnly.setOfile {k' : Kern} (h : DescriptorsOnly k k') (p fd : Nat) (f : Option Nat) :
    DescriptorsOnly k (k'.setOfile p fd f) := by
  refine ⟨h.mm, h.nextpid, fun q => ?_⟩
  rw [← h.mem q]
  by_cases hq : q = p
  · rw [hq, Kern.setOfile, Kern.setProc_procs_self]
    rfl
  · rw [Kern.setOfile, Kern.setProc_procs_of_ne _ _ hq]

/-- A descriptor in use is duplicated to the first free one. -/
theorem sysDup_run {f newfd : Nat} (hfd : fd < nofile) (hf : (k.procs p).ofile fd = some f)
    (hfree : (range nofile).find? (fun fd => ((k.procs p).ofile fd).isNone) = some newfd) (href : 1 ≤ (k.files f).ref) :
    sysDup p fd k = .ok ((newfd : Int), (k.setOfile p newfd (some f)).setFile f { k.files f with ref := (k.files f).ref + 1 }) := by
  have hfile : fdFile p fd k = .ok (some f, k) := congrArg (fun f => Except.ok (f, k)) ((if_pos hfd).trans hf)
  have halloc : k.fdalloc p f = (some newfd, k.setOfile p newfd (some f)) := by
    unfold Kern.fdalloc
    rw [hfree]
  have hdup : (k.setOfile p newfd (some f)).filedup f =
      (some f, (k.setOfile p newfd (some f)).setFile f { k.files f with ref := (k.files f).ref + 1 }) :=
    if_neg (not_lt.2 href)
  unfold sysDup
  rw [bind_ok hfile]
  dsimp only
  rw [bind_ok (b := some newfd) (congrArg Except.ok halloc)]
  dsimp only
  rw [bind_ok (b := some f) (congrArg Except.ok hdup)]
  rfl

/-- An inode that is found is opened with the first free file and the first free descriptor. -/
theorem sysOpen_run {path : List UInt8} {flags : OpenFlags} {ip f : Nat} {s : FileSys}
    (hopen : openInode (k.procs p).cwd path flags k.fs = .ok (.ok ip, s)) (htrunc : flags.trunc = false)
    (hfile : (range nfile).find? (fun f => (k.files f).ref == 0) = some f)
    (hfree : (range nofile).find? (fun fd => ((k.procs p).ofile fd).isNone) = some fd) :
    ∃ k', sysOpen p (some path) flags k = .ok ((fd : Int), k') ∧ DescriptorsOnly k k' := by
  have hon : onFs (openInode (k.procs p).cwd path flags) k = .ok (.ok ip, k.withFs s) := by
    unfold onFs zoom
    rw [hopen]
  have hnew : (k.withFs s).filealloc = (some f, (k.withFs s).setFile f newFile) := by
    unfold Kern.filealloc
    rw [show (k.withFs s).files = k.files from rfl, hfile]
  have halloc : ∀ (t : FileSys) (x : File), ((k.withFs t).setFile f x).fdalloc p f =
      (some fd, ((k.withFs t).setFile f x).setOfile p fd (some f)) := fun t x => by
    unfold Kern.fdalloc
    rw [show ((k.withFs t).setFile f x).procs = k.procs from rfl, hfree]
  have honly : DescriptorsOnly k ((k.withFs (s.iunlock ip)).setFile f (openFile ip (s.icache ip).din flags)) :=
    ⟨rfl, rfl, fun _ => rfl⟩
  have hmod : modifyFile f (fun _ => openFile ip (s.icache ip).din flags) ((k.withFs s).setFile f newFile) =
      .ok ((), (k.withFs s).setFile f (openFile ip (s.icache ip).din flags)) := by
    refine congrArg (fun k => Except.ok ((), k)) ?_
    simp only [Kern.setFile, update_idem]
  have hunlock : onFs (iunlock ip) ((k.withFs s).setFile f (openFile ip (s.icache ip).din flags)) =
      .ok ((), (k.withFs (s.iunlock ip)).setFile f (openFile ip (s.icache ip).din flags)) := rfl
  refine ⟨_, ?_, honly.setOfile p fd (some f)⟩
  unfold sysOpen
  dsimp only
  rw [getProc, bind_ok (b := k.procs p) rfl, bind_ok hon]
  dsimp only
  rw [bind_ok (b := some f) (congrArg Except.ok hnew)]
  dsimp only
  rw [bind_ok (b := (s.icache ip).din) rfl, bind_ok hmod, if_neg (by rw [htrunc]; simp),
    bind_ok hunlock, bind_ok (b := some fd) (congrArg Except.ok (halloc _ _))]
  rfl

/-- Under a root entry that is not valid there is room for a page. -/
theorem newPage_upper {t : Nat} {m : PhysMem} (hroot : m.pte t (va / 2 ^ 39 % 512) = 0) (hfree : m.free = upperFrames n)
    (hn : n + 4 ≤ frameCount) (ht : t ∉ m.free) (write exec : Bool) :
    ∃ m', newPage m t va write exec = (some (frame n), m') ∧ m'.free = upperFrames (n + 4) := by
  have hne : ∀ {i j}, i ≠ j → frame i ≠ frame j := fun hij e => hij (frame_inj e)
  have ht' : ∀ j, n ≤ j → j < frameCount → t ≠ frame j := fun j hj hlt e =>
    ht (hfree ▸ mem_upperFrames.2 ⟨j, hj, hlt, e⟩)
  obtain ⟨m1, hal, hfree1, -, hpage1⟩ := pmmAlloc_upper hfree (by omega)
  obtain ⟨m2, hfree2, hzero2, -, -, -, hrun2⟩ := walkAlloc_fresh (i := va / 2 ^ 39 % 512)
    (by rw [pte_congr (hpage1 t (ht' n (le_refl n) (by omega))), hroot]; rfl) hfree1 (by omega) (ht' _ (by omega) (by omega))
  obtain ⟨m3, hfree3, hzero3, -, -, -, hrun3⟩ := walkAlloc_fresh (i := va / 2 ^ 30 % 512)
    (by rw [pte_of_zero hzero2]; rfl) hfree2 (by omega) (hne (by omega))
  obtain ⟨m4, hfree4, hzero4, -, -, -, hrun4⟩ := walkAlloc_fresh (i := va / 2 ^ 21 % 512)
    (by rw [pte_of_zero hzero3]; rfl) hfree3 (by omega) (hne (by omega))
  have hwalk : walkAlloc (tableIndices va) t m1 = (some (frame (n + 3)), m4) :=
    hrun2 _ _ _ (hrun3 _ _ _ (hrun4 _ _ _ rfl))
  refine ⟨m4.setPte (frame (n + 3)) (l3Index va) (makePageDescUser (frame n) write exec), ?_, hfree4⟩
  unfold newPage vmmMapPage
  rw [hal]
  dsimp only
  rw [hwalk]
  dsimp only
  rw [pte_of_zero hzero4, pteValid_zero]
  rfl

/-- The first page above the break. -/
theorem sysMmap_page (hsz : (k.procs p).sz = 4096) (hroot : k.mm.pte (k.procs p).pagetable 0 = 0)
    (hfree : k.mm.free = upperFrames n) (hn : n + 4 ≤ frameCount) (hpt : (k.procs p).pagetable ∉ k.mm.free) :
    ∃ m, sysMmap p 0 4096 0x3 0x22 k = .ok (4096, (k.withMm m).setBrk p 8192) ∧ m.free = upperFrames (n + 4) := by
  obtain ⟨m, hnew, hfree'⟩ := @newPage_upper 4096 n _ _ hroot hfree hn hpt true false
  refine ⟨m, ?_, hfree'⟩
  have hstart : mmapStart (k.procs p).sz 0 0x22 = 4096 := by
    rw [hsz]
    decide
  have hmap : mmapPages (k.procs p).pagetable (0x3 &&& 0x2 != 0) (pageAlign 4096 / 4096) 0 4096 k.mm = (true, m) := by
    have hone : pageAlign 4096 / 4096 = 1 := by decide
    have hwrite : ((0x3 : Nat) &&& 0x2 != 0) = true := by decide
    rw [hone, hwrite, mmapPages, hnew]
    rfl
  rw [sysMmap_eq 0x3 (by unfold mmapInvalid; decide), hstart, if_neg (by decide), hmap, hsz]
  rfl

/-- The child that `wait` finds is reported and its slot is free. -/
theorem sysWait_found {intr : Bool}
    (hfind : (range nproc).find? (fun c => k.isChild p c && (k.procs c).state == .zombie) = some c) :
    ∃ r k', sysWait p intr k = .ok (r, k') ∧ (k'.procs c).state = .unused := by
  have hspace : ∀ k, ∃ k', freeSpace c k = .ok ((), k') := by
    intro k
    unfold freeSpace
    rw [getProc, bind_ok (b := k.procs c) (t := k) rfl]
    split
    · exact ⟨_, rfl⟩
    · exact ⟨_, rfl⟩
  have hstack : ∀ k, ∃ k', freeStack c k = .ok ((), k') := by
    intro k
    unfold freeStack
    rw [getProc, bind_ok (b := k.procs c) (t := k) rfl]
    split
    · exact ⟨_, rfl⟩
    · exact ⟨_, rfl⟩
  obtain ⟨k1, h1⟩ := hspace k
  obtain ⟨k2, h2⟩ := hstack k1
  unfold sysWait
  rw [bind_ok (b := k) (t := k) rfl, hfind]
  dsimp only
  unfold encodeWaitStatus
  rw [getProc, bind_ok (b := k.procs c) (t := k) rfl, bind_ok h1, bind_ok h2]
  exact ⟨_, _, rfl, congrArg Proc.state (Kern.setProc_procs_self ..)⟩

end

/-! ## The small machine -/

section

/-- `open(path, O_RDONLY)`. -/
def readOnly : OpenFlags := ⟨false, false, false, false, false, false⟩

theorem small_start : ∃ k0, smallMachine.boot = .ok ((), k0) ∧ smallMachine.Started 256 4096 k0 ∧
    smallMachine.Reachable (fun _ _ => True) k0 ∧ k0.alive 0 := by
  obtain ⟨k0, hboot, hstart⟩ := boot_bare smallMachine_bare
  exact ⟨k0, hboot, hstart, ⟨k0, hboot, .start⟩, by rw [alive_iff, hstart.state]; exact ⟨by decide, rfl⟩⟩

/-- The first process maps a page and forks, fails to close a descriptor, and the child exits: there is a zombie to wait
for. -/
theorem small_exit (status : Int) : ∃ k0 k c, smallMachine.boot = .ok ((), k0) ∧ c ≠ 0 ∧
    k0.Calls [(0, .mmap 0 4096 0x3 0x22, 4096), (0, .fork, 2), (0, .close 99, -9), (c, .exit status, 0)] k ∧ k.alive 0 ∧
    (range nproc).find? (fun c => k.isChild 0 c && (k.procs c).state == .zombie) = some c ∧
    (k.procs c).pid = 2 ∧ (k.procs c).state = .zombie ∧ (k.procs c).exitStatus = status := by
  obtain ⟨k0, hboot, hstart, hreach0, halive0⟩ := small_start
  have hK := frameSet_managed smallMachine False
  have hroot : (k0.procs 0).pagetable ∉ k0.mm.free :=
    ((owned_reachable hreach0).good hK).notMem_free ((owned_reachable hreach0).root_mem halive0) (Multiset.mem_cons_self _ _)
  obtain ⟨m, hmap, hfree1⟩ := sysMmap_page (n := 282) hstart.sz hstart.lower hstart.free (by decide) hroot
  generalize hk1 : ((k0.withMm m).setBrk 0 8192).setReturn 0 4096 = k1
  have hmem1 : ∀ q, (k1.procs q).mem = (k0.procs q).mem := fun q => by
    rw [← hk1, setReturn_mem]
    by_cases hq : q = 0
    · rw [hq, Kern.setBrk, Kern.setProc_procs_self]
      rfl
    · exact congrArg Proc.mem (Kern.setProc_procs_of_ne _ _ hq)
  have hcalls1 : k0.Calls [(0, .mmap 0 4096 0x3 0x22, 4096)] k1 := ⟨halive0, _, hmap, hk1.symm⟩
  have hreach1 := hcalls1.reached hboot
  have halive1 : k1.alive 0 := alive_of_mem (hmem1 0) halive0
  have hnext : k1.nextpid = 2 := by rw [← hk1, ← hstart.nextpid]; rfl
  obtain ⟨c, k2, hfork, -, hgrown, hchild⟩ := sysFork_spare hK (owned_reachable hreach1) (counted_reachable hreach1) halive1
    (n := 286) ⟨[], by rw [← hk1]; exact hfree1⟩ (by decide)
    ⟨1, by decide, by rw [mem_state (hmem1 1), hstart.others 1 (by decide)]; rfl⟩
  rw [hnext] at hfork
  have hc : c ≠ 0 := by
    rintro rfl
    exact halive1.2.1 hchild.free
  generalize hk3 : (k2.setReturn 0 2).setReturn 0 (-9) = k3
  have hmem3 : ∀ q, (k3.procs q).mem = (k2.procs q).mem := fun q => by rw [← hk3, setReturn_mem, setReturn_mem]
  have halive2 : (k2.setReturn 0 2).alive 0 := by
    refine alive_of_mem (k := k1) ?_ halive1
    rw [setReturn_mem, hchild.others 0 hc.symm]
  have hcalls3 := @Kern.Calls.append _ _ _ [(0, .fork, 2), (0, .close 99, -9)] _ hcalls1
    ⟨halive1, k2, hfork, halive2, _, sysClose_bad (by decide), hk3.symm⟩
  have hlocks := (counted_reachable (hcalls3.reached hboot)).filed.cache.locked
  have hplain : Plain k3.files := by
    have hfiles : Plain k1.files := by rw [← hk1]; exact hstart.files
    rw [← hk3]
    exact hfiles.grown hgrown
  obtain ⟨k4, hexit, hgone⟩ := procCleanup_plain c status hplain fun i =>
    eq_false_of_ne_true fun hl => Finset.notMem_empty i ((hlocks i).1 hl)
  have halive3 : k3.alive c := by
    rw [alive_iff, mem_state (hmem3 c), hchild.state]
    exact ⟨hchild.lt, rfl⟩
  have hmem4 := setReturn_mem k4 c 0
  have hothers : ∀ q, q ≠ c → ((k4.setReturn c 0).procs q).mem = (k0.procs q).mem := fun q hq => by
    rw [hmem4 q, hgone.others q hq, hmem3 q, hchild.others q hq, hmem1 q]
  have hzombie : ((k4.setReturn c 0).procs c).state = .zombie := by
    rw [mem_state (hmem4 c), hgone.state, mem_parent (hmem3 c), hchild.parent]
    rfl
  refine ⟨k0, _, c, hboot, hc, hcalls3.append ⟨halive3, k4, bind_ok hexit, rfl⟩, alive_of_mem (hothers 0 hc.symm) halive0, ?_,
    ?_, hzombie, ?_⟩
  · rw [find?_range_eq_some]
    refine ⟨?_, mem_range.2 hchild.lt, fun q hq => ?_⟩
    · unfold Kern.isChild
      rw [mem_parent (hmem4 c), hgone.parent, mem_parent (hmem3 c), hchild.parent, hzombie]
      rfl
    have hparent : ((k4.setReturn c 0).procs q).parent = none := by
      rw [mem_parent (hothers q (Nat.ne_of_lt hq))]
      by_cases hq0 : q = 0
      · rw [hq0, hstart.parent]
      · rw [hstart.others q hq0]
        rfl
    unfold Kern.isChild
    rw [hparent]
    rfl
  · rw [mem_pid (hmem4 c), hgone.pid, mem_pid (hmem3 c), hchild.pid, hnext]
  · rw [Kern.setReturn, Kern.setProc_procs_self]
    exact hgone.exitStatus

theorem small_openInode : ∃ s, openInode (some 0) [47] readOnly (rootFs smallMachine.sb smallMachine.disk) = .ok (.ok 0, s) := by
  have hfound : (match openInode (some 0) [47] readOnly (rootFs smallMachine.sb smallMachine.disk) with
      | .ok (.ok ip, _) => some ip
      | _ => none) = some 0 := by decide +kernel
  split at hfound
  · rename_i ip s he
    exact ⟨s, by rw [he, Option.some.inj hfound]⟩
  · cases hfound

/-- The first process duplicates a descriptor, opens the root directory and forks, and fails to close a descriptor. -/
theorem small_open : ∃ k0 k, smallMachine.boot = .ok ((), k0) ∧
    k0.Calls [(0, .dup 0, 3), (0, .openCall (some [47]) readOnly, 4), (0, .fork, 2), (0, .close 99, -9)] k := by
  obtain ⟨k0, hboot, hstart, -, halive0⟩ := small_start
  have hdup := @sysDup_run k0 0 0 0 3 (by decide) (by rw [hstart.ofile]; rfl)
    (by rw [hstart.ofile]; decide) (by rw [hstart.consoles]; decide)
  generalize hk1 : (k0.setOfile 0 3 (some 0)).setFile 0 { k0.files 0 with ref := (k0.files 0).ref + 1 } = k1 at hdup
  have h0 : DescriptorsOnly k0 k0 := ⟨rfl, rfl, fun _ => rfl⟩
  have h1 : DescriptorsOnly k0 k1 := by
    rw [← hk1]
    exact ⟨(h0.setOfile 0 3 (some 0)).mm, (h0.setOfile 0 3 (some 0)).nextpid, (h0.setOfile 0 3 (some 0)).mem⟩
  obtain ⟨s, hs⟩ := small_openInode
  obtain ⟨k2, hopen, h2⟩ := @sysOpen_run (k1.setReturn 0 3) 0 4 [47] readOnly 0 3 s (by
      rw [← hs, ← hk1, ← hstart.fs, ← hstart.cwd]
      rfl) rfl
    (by rw [← hk1]; show (range nfile).find? (fun f => (update k0.files 0 _ f).ref == 0) = _; rw [hstart.consoles]; rfl)
    (by rw [← hk1]; show (range nofile).find? (fun fd => (update (k0.procs 0).ofile 3 _ fd).isNone) = _; rw [hstart.ofile]; rfl)
  generalize hk3 : k2.setReturn 0 4 = k3
  have hmem3 : ∀ q, (k3.procs q).mem = (k0.procs q).mem := fun q => by
    rw [← hk3, setReturn_mem, h2.mem, setReturn_mem, h1.mem]
  have halive1 : (k1.setReturn 0 3).alive 0 := alive_of_mem (by rw [setReturn_mem, h1.mem]) halive0
  have hcalls3 : k0.Calls [(0, .dup 0, 3), (0, .openCall (some [47]) readOnly, 4)] k3 :=
    ⟨halive0, k1, hdup, halive1, k2, hopen, hk3.symm⟩
  have hreach3 := hcalls3.reached hboot
  have halive3 : k3.alive 0 := alive_of_mem (hmem3 0) halive0
  have hmm3 : k3.mm = k0.mm := by
    rw [← hk3]
    exact h2.mm.trans h1.mm
  have hnext : k3.nextpid = 2 := by
    rw [← hk3, ← hstart.nextpid]
    exact h2.nextpid.trans h1.nextpid
  obtain ⟨c, k4, hfork, -, -, hchild⟩ := sysFork_spare (frameSet_managed smallMachine False) (owned_reachable hreach3)
    (counted_reachable hreach3) halive3 (n := 282) (by rw [hmm3]; exact hstart.spare) (by decide)
    ⟨1, by decide, by rw [mem_state (hmem3 1), hstart.others 1 (by decide)]; rfl⟩
  rw [hnext] at hfork
  have hc : (0 : Nat) ≠ c := by
    rintro rfl
    exact halive3.2.1 hchild.free
  have halive4 : (k4.setReturn 0 2).alive 0 := alive_of_mem (by rw [setReturn_mem, hchild.others 0 hc]) halive3
  exact ⟨k0, _, hboot, hcalls3.append ⟨halive3, k4, hfork, halive4, _, sysClose_bad (by decide), rfl⟩⟩

/-! ## What holds behind the calls -/

/-- Behind a call that fails. -/
theorem reference_counts_small : ∃ k0 k, smallMachine.boot = .ok ((), k0) ∧
    k0.Calls [(0, .dup 0, 3), (0, .openCall (some [47]) readOnly, 4), (0, .fork, 2), (0, .close 99, -9)] k ∧
    (∀ f, (k.files f).ref = ((k.slotsOf f).card : Int)) ∧
      ∀ i, (k.fs.icache i).ref = ((k.filesOn i).card + (k.cwdsAt i).card : Int) := by
  obtain ⟨k0, k, hboot, hcalls⟩ := small_open
  have h := hcalls.reached hboot
  exact ⟨k0, k, hboot, hcalls, (reference_counts h).1, (reference_counts h).2.1⟩

/-- A child that maps nothing more exits with 7. -/
theorem nothing_held_small : ∃ k0 k c, smallMachine.boot = .ok ((), k0) ∧
    k0.Calls [(0, .mmap 0 4096 0x3 0x22, 4096), (0, .fork, 2), (0, .close 99, -9), (c, .exit 7, 0)] k ∧
    (∀ i, (k.fs.icache i).locked = false) ∧ (k.procs c).state = .zombie ∧ (k.procs c).Idle := by
  obtain ⟨k0, k, c, hboot, -, hcalls, -, -, -, hzombie, -⟩ := small_exit 7
  obtain ⟨hlocks, hidle⟩ := nothing_held (hcalls.reached hboot)
  exact ⟨k0, k, c, hboot, hcalls, hlocks, hzombie, hidle c (.inr hzombie)⟩

/-- The first process waits for its child, whose frames are free then. -/
theorem frame_conservation_small : ∃ k0 k c r k', smallMachine.boot = .ok ((), k0) ∧
    k0.Calls [(0, .mmap 0 4096 0x3 0x22, 4096), (0, .fork, 2), (0, .close 99, -9), (c, .exit 7, 0)] k ∧
    k.Calls [(0, .wait false, r)] k' ∧ (∀ x ∈ k.framesOf c, x ∈ k'.mm.free) ∧
    (k'.mm.free : Multiset Nat) + k'.tablePages + k'.userPages + k'.kstacks + k'.pipePages.val +
      smallMachine.kernelFrames = smallMachine.managed := by
  obtain ⟨k0, k, c, hboot, hc, hcalls, halive, hfind, -, hzombie, -⟩ := small_exit 7
  obtain ⟨r, k1, hwait, hfree⟩ := @sysWait_found _ _ _ false hfind
  have hok : ∀ x ∈ [(0, Call.mmap 0 4096 0x3 0x22, (4096 : Int)), (0, .fork, 2), (0, .close 99, -9), (c, .exit 7, 0)], ∀ k,
      InitStays k (.call x.1 x.2.1) := by
    simp [InitStays, hc]
  have hlast : k.Calls [(0, .wait false, r)] (k1.setReturn 0 r) := ⟨halive, k1, hwait, rfl⟩
  have hstays : ∀ k, InitStays k (.call 0 (.wait false)) := fun _ _ e => by cases e
  have h := hcalls.reachable hboot hok
  refine ⟨k0, k, c, r, _, hboot, hcalls, hlast, ?_, ?_⟩
  · exact (frame_conservation h).2.2 _ _ (hstays k) (.call halive hwait) c hzombie (by rw [mem_state (setReturn_mem k1 0 r c), hfree])
  · exact (frame_conservation ((hcalls.append hlast).reachable hboot fun x hx k => (mem_append.1 hx).elim (hok x · k)
      fun hx => by obtain rfl := mem_singleton.1 hx; exact hstays k)).2.1

end

end Slopix.Kernel
