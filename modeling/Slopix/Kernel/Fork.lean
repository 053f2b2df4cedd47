import Slopix.Kernel.RefRuns

/-!
# Fork, step by step

A successful `fork` field by field, and when `fork` and `exit` succeed. `Child k p c k'` says what the
new process `c` is after a `fork` of `p` that led from `k` to `k'`.
-/

namespace Slopix.Kernel

open Lib Mm Fs Ipc Function List Exec Kern

/-- The process that `fork` leaves behind. -/
structure Child (k : Kern) (p c : Nat) (k' : Kern) : Prop where
  lt : c < nproc
  free : (k.procs c).state = .unused
  state : (k'.procs c).state = .runnable
  pid : (k'.procs c).pid = k.nextpid
  parent : (k'.procs c).parent = some p
  pgid : (k'.procs c).pgid = (k.procs p).pgid
  tf : (k'.procs c).tf = (k.procs p).tf.child
  sz : (k'.procs c).sz = 0
  cwd : (k'.procs c).cwd = (k.procs p).cwd
  ofile : ∀ fd < nofile, (k'.procs c).ofile fd = (k.procs p).ofile fd
  others : ∀ q, q ≠ c → k'.procs q = k.procs q

section

variable {k : Kern} {p c : Nat}

/-- The descriptors of a process lead to files in use. -/
def FilesOpen (k : Kern) (p : Nat) : Prop := ∀ fd f, fd < nofile → (k.procs p).ofile fd = some f →
  0 < (k.files f).ref

/-- Files get more references and change in nothing else that matters. -/
def Grown (files files' : Nat → File) : Prop := ∀ f, (files f).ref ≤ (files' f).ref ∧
  (files' f).ip = (files f).ip ∧ (files' f).type = (files f).type

theorem Grown.trans {files files' files'' : Nat → File} (h : Grown files files')
    (h' : Grown files' files'') : Grown files files'' := fun f =>
  ⟨(h f).1.trans (h' f).1, (h' f).2.1.trans (h f).2.1, (h' f).2.2.trans (h f).2.2⟩

theorem forkFd_run {fd : Nat} (hfd : fd < nofile) (hopen : FilesOpen k p) :
    ∃ files, forkFd p c fd k = .ok ((), { k with
        files := files
        procs := update k.procs c { k.procs c with
          ofile := update (k.procs c).ofile fd
            (((k.procs p).ofile fd).or ((k.procs c).ofile fd)) } }) ∧
      Grown k.files files := by
  unfold forkFd
  rw [getProc, bind_ok (b := k.procs p) rfl]
  cases hf : (k.procs p).ofile fd with
  | none =>
    refine ⟨k.files, ?_, fun _ => ⟨Int.le_refl _, rfl, rfl⟩⟩
    rw [Option.none_or, update_eq_self, update_eq_self]
    rfl
  | some f =>
    have hpos := hopen fd f hfd hf
    have hdup : k.filedup f = (some f, k.setFile f { k.files f with ref := (k.files f).ref + 1 }) := by
      unfold filedup
      rw [if_neg (by omega)]
    refine ⟨update k.files f { k.files f with ref := (k.files f).ref + 1 }, ?_, fun g => ?_⟩
    · dsimp only
      rw [bind_ok (b := (k.filedup f).1) (t := (k.filedup f).2) rfl, hdup]
      rfl
    by_cases hg : g = f
    · rw [hg, update_self]
      exact ⟨Int.le_add_one (Int.le_refl _), rfl, rfl⟩
    · rw [update_of_ne hg]
      exact ⟨Int.le_refl _, rfl, rfl⟩

/-- The loop of `fork` over the descriptors. -/
theorem forkFds_run (l : List Nat) (hl : ∀ fd ∈ l, fd < nofile) (hpc : p ≠ c)
    (hopen : FilesOpen k p) (hnone : ∀ fd ∈ l, (k.procs c).ofile fd = none) (hnd : l.Nodup) :
    ∃ files ofile, each (forkFd p c) l k = .ok ((), { k with
        files := files, procs := update k.procs c { k.procs c with ofile := ofile } }) ∧
      (∀ fd ∈ l, ofile fd = (k.procs p).ofile fd) ∧
      (∀ fd, fd ∉ l → ofile fd = (k.procs c).ofile fd) ∧ Grown k.files files := by
  induction l generalizing k with
  | nil =>
    refine ⟨k.files, (k.procs c).ofile, ?_, fun fd hfd => absurd hfd not_mem_nil,
      fun _ _ => rfl, fun _ => ⟨Int.le_refl _, rfl, rfl⟩⟩
    rw [update_eq_self]
    rfl
  | cons fd l ih =>
    obtain ⟨files1, hrun, hge⟩ := forkFd_run (c := c) (hl fd mem_cons_self) hopen
    rw [hnone fd mem_cons_self, Option.or_none] at hrun
    generalize hk1 : ({ k with
      files := files1
      procs := update k.procs c { k.procs c with
        ofile := update (k.procs c).ofile fd ((k.procs p).ofile fd) } } : Kern) = k1 at hrun
    have hp1 : k1.procs p = k.procs p := by
      rw [← hk1]
      exact update_of_ne hpc ..
    have hc1 : k1.procs c = { k.procs c with
        ofile := update (k.procs c).ofile fd ((k.procs p).ofile fd) } := by
      rw [← hk1]
      exact update_self ..
    have hnotin := (nodup_cons.1 hnd).1
    obtain ⟨files, ofile, hrest, hin, hout, hgrown⟩ := ih (k := k1)
      (fun d hd => hl d (mem_cons_of_mem fd hd))
      (fun d f hd hf => by
        rw [hp1] at hf
        rw [← hk1]
        exact lt_of_lt_of_le (hopen d f hd hf) (hge f).1)
      (fun d hd => by
        rw [hc1]
        exact (update_of_ne (ne_of_mem_of_not_mem hd hnotin) ..).trans
          (hnone d (mem_cons_of_mem fd hd)))
      (nodup_cons.1 hnd).2
    refine ⟨files, ofile, ?_, fun d hd => ?_, fun d hd => ?_, ?_⟩
    · rw [each, bind_ok hrun, hrest, hc1, ← hk1]
      simp only [update_idem]
    · rcases mem_cons.1 hd with rfl | hd
      · rw [hout d hnotin, hc1]
        exact update_self ..
      · rw [hin d hd, hp1]
    · obtain ⟨hne, hd⟩ : d ≠ fd ∧ d ∉ l := by simpa using hd
      rw [hout d hd, hc1]
      exact update_of_ne hne ..
    · rw [← hk1] at hgrown
      exact hge.trans hgrown

end

section

variable {k k2 : Kern} {p c : Nat}

theorem procAlloc_run {ks : Nat} {m : PhysMem}
    (hfind : (range nproc).find? (fun p => (k.procs p).state == .unused) = some c)
    (hal : pmmAllocContiguous k.mm kstackPages = some (ks, m)) :
    k.procAlloc = (some c, { k with
      mm := m, nextpid := k.nextpid + 1, procs := update k.procs c ({ k.procs c with
        state := .embryo, pid := k.nextpid, pgid := k.nextpid }.reset ks) }) := by
  unfold procAlloc
  rw [hfind]
  rw [hal]
  rfl

/-- The fields of the child before its descriptors are copied. -/
theorem forkCwd_run (k : Kern) (c : Nat) (cwd : Option Nat) (hnone : (k.procs c).cwd = none) :
    ∃ s, k.forkCwd c cwd = { k with
      fs := s, procs := update k.procs c { k.procs c with cwd := cwd } } := by
  cases cwd with
  | none =>
    refine ⟨k.fs, ?_⟩
    rw [← hnone, update_eq_self]
    rw [hnone]
    rfl
  | some i => exact ⟨k.fs.idup i, rfl⟩

/-- A `fork` that finds a slot and the frames it needs. -/
theorem sysFork_run {pt ks : Nat} {m1 m2 : PhysMem} (hp : k.alive p) (hopen : FilesOpen k p)
    (hcopy : vmmCopy k.mm (k.procs p).pagetable = (some pt, m1))
    (hfind : (range nproc).find? (fun p => (k.procs p).state == .unused) = some c)
    (hal : pmmAllocContiguous m1 kstackPages = some (ks, m2)) :
    ∃ k', sysFork p k = .ok ((k.nextpid : Int), k') ∧ k'.mm = m2 ∧ (k'.procs c).pagetable = pt ∧
      Grown k.files k'.files ∧ Child k p c k' := by
  have hlt : c < nproc := mem_range.1 (mem_of_find?_eq_some hfind)
  have hunused : (k.procs c).state = .unused := by
    have hfound := find?_some hfind
    exact eq_of_beq hfound
  have hpc : p ≠ c := by
    rintro rfl
    exact hp.2.1 hunused
  have hpt : (onMm fun m => vmmCopy m (k.procs p).pagetable) k = .ok (some pt, k.withMm m1) := by
    unfold onMm step
    beta_reduce
    rw [hcopy]
  have hproc := procAlloc_run (k := k.withMm m1) hfind hal
  unfold sysFork
  rw [getProc, bind_ok (b := k.procs p) rfl, bind_ok hpt]
  dsimp only
  rw [bind_ok (b := some c) (congrArg Except.ok hproc)]
  dsimp only
  rw [modifyProc, bind_ok rfl]
  beta_reduce
  -- the child before its working directory and its descriptors
  generalize hk3 : setProc _ c _ = k3
  have hothers : ∀ q, q ≠ c → k3.procs q = k.procs q := by
    intro q hq
    rw [← hk3, setProc_procs_of_ne _ _ hq]
    exact update_of_ne hq ..
  have hchild : k3.procs c = { { k.procs c with
      state := .embryo, pid := k.nextpid, pgid := k.nextpid }.reset ks with
      pagetable := pt, parent := some p, pgid := (k.procs p).pgid, tf := (k.procs p).tf.child } := by
    rw [← hk3, setProc_procs_self]
    dsimp only
    rw [update_self]
    rfl
  have hfiles : k3.files = k.files := by
    rw [← hk3]
    rfl
  have hmm : k3.mm = m2 := by
    rw [← hk3]
    rfl
  obtain ⟨s, hcwd⟩ := forkCwd_run k3 c (k.procs p).cwd (by rw [hchild]; rfl)
  rw [bind_ok (b := ()) (congrArg (fun k => Except.ok ((), k)) hcwd)]
  generalize hk4 : ({ k3 with
    fs := s, procs := update k3.procs c { k3.procs c with cwd := (k.procs p).cwd } } : Kern)
    = k4
  have hothers4 : ∀ q, q ≠ c → k4.procs q = k.procs q := by
    intro q hq
    rw [← hk4, ← hothers q hq]
    exact update_of_ne hq ..
  have hchild4 : k4.procs c = { k3.procs c with cwd := (k.procs p).cwd } := by
    rw [← hk4]
    exact update_self ..
  have hfiles4 : k4.files = k.files := by
    rw [← hk4, ← hfiles]
  obtain ⟨files, ofile, hfds, hin, -, hgrown⟩ := forkFds_run (k := k4) (p := p) (c := c)
    (range nofile) (fun fd hfd => mem_range.1 hfd) hpc
    (fun fd f hfd hf => by
      rw [hothers4 p hpc] at hf
      rw [hfiles4]
      exact hopen fd f hfd hf)
    (fun fd _ => by rw [hchild4, hchild]; rfl) nodup_range
  rw [bind_ok hfds, modifyProc, bind_ok rfl, getProc, bind_ok rfl]
  beta_reduce
  generalize hk5 : setProc _ c _ = k5
  have hchild5 : k5.procs c = { k4.procs c with ofile := ofile, state := .runnable } := by
    rw [← hk5, setProc_procs_self]
    dsimp only
    rw [update_self]
  refine ⟨k5, ?_, ?_, ?_, ?_, ?_⟩
  · rw [hchild5, hchild4, hchild]
    rfl
  · rw [← hk5]
    rw [← hk4]
    exact hmm
  · rw [hchild5, hchild4, hchild]
  · rw [← hfiles4, ← hk5]
    exact hgrown
  constructor
  · exact hlt
  · exact hunused
  · rw [hchild5]
  · rw [hchild5, hchild4, hchild]
    rfl
  · rw [hchild5, hchild4, hchild]
  · rw [hchild5, hchild4, hchild]
  · rw [hchild5, hchild4, hchild]
  · rw [hchild5, hchild4, hchild]
    rfl
  · rw [hchild5, hchild4]
  · intro fd hfd
    rw [hchild5]
    show ofile fd = _
    rw [hin fd (mem_range.2 hfd), hothers4 p hpc]
  · intro q hq
    rw [← hk5, setProc_procs_of_ne _ _ hq]
    exact (update_of_ne hq ..).trans (hothers4 q hq)

/-- In a reachable state the descriptors of a live process lead to files in use. -/
theorem Counted.filesOpen (h : Counted k) (hp : k.alive p) : FilesOpen k p := by
  intro fd f hfd hf
  rw [h.filed.ref f]
  have hmem := mem_fds hp.1 hfd hf
  exact Int.natCast_pos.2 (Multiset.count_pos.2 hmem)

/-- `fork` succeeds with a free slot when more than half of the frames are free. -/
theorem sysFork_spare {K : Ledger} {H : Multiset Nat} {n : Nat} (hK : FrameSet K)
    (h : Owned K k 0 H) (hc : Counted k) (hp : k.alive p) (hs : Spare k.mm n)
    (hn : n + n + 4 ≤ frameCount) (hslot : ∃ q < nproc, (k.procs q).state = .unused) :
    ∃ c k', sysFork p k = .ok ((k.nextpid : Int), k') ∧ Spare k'.mm (n + n + 4) ∧
      Grown k.files k'.files ∧ Child k p c k' := by
  obtain ⟨rest, hrest⟩ := Multiset.exists_cons_of_mem (h.root_mem hp)
  have hgood := h.good hK
  rw [hrest] at hgood
  obtain ⟨pt, m1, hcopy, hs1⟩ := hs.copy hgood (by omega)
  obtain ⟨ks, m2, hal, hs2⟩ := hs1.allocContiguous (k := kstackPages) (by decide) hn
  cases hfind : (range nproc).find? fun p => (k.procs p).state == .unused with
  | none =>
    obtain ⟨q, hq, hunused⟩ := hslot
    have hnone := find?_eq_none.1 hfind q (mem_range.2 hq)
    rw [hunused] at hnone
    exact absurd rfl hnone
  | some c =>
    obtain ⟨k', hrun, hmm, -, hgrown, hchild⟩ := sysFork_run hp (hc.filesOpen hp) hcopy hfind hal
    exact ⟨c, k', hrun, by rw [hmm]; exact hs2, hgrown, hchild⟩

end

/-! ## Exit -/

section

variable {k : Kern} {p f i : Nat}

/-- Open files that are neither pipes nor inodes. -/
def Plain (files : Nat → File) : Prop := ∀ f, (files f).ip = none ∧ (files f).type ≠ .pipe

theorem Plain.grown {files files' : Nat → File} (h : Plain files) (hg : Grown files files') :
    Plain files' := fun f => by
  rw [(hg f).2.1, (hg f).2.2]
  exact h f

theorem fileclose_plain (f : Nat) (h : Plain k.files) :
    ∃ files, fileclose f k = .ok ((), { k with files := files }) ∧ Plain files := by
  have hset : ∀ x : File, x.ip = none → x.type ≠ .pipe → Plain (update k.files f x) := by
    intro x hip htype g
    by_cases hg : g = f
    · rw [hg, update_self]
      exact ⟨hip, htype⟩
    · rw [update_of_ne hg]
      exact h g
  unfold fileclose
  rw [bind_ok (b := k.files f) rfl]
  split
  · exact ⟨k.files, rfl, h⟩
  split
  · exact ⟨_, rfl, hset _ (h f).1 (h f).2⟩
  refine ⟨_, ?_, hset { k.files f with
    ref := (k.files f).ref - 1, type := .none, ip := none, pipe := none } rfl fun e => by cases e⟩
  have htype := (h f).2
  have hclose : closeTarget (k.files f) = pure () := by
    unfold closeTarget
    rw [(h f).1]
    cases htarget : (k.files f).type with
    | pipe => exact absurd htarget htype
    | none => rfl
    | inode => rfl
    | device => rfl
    | bdevice => rfl
  rw [hclose]
  rfl

theorem closeFds_plain (p : Nat) (l : List Nat) (h : Plain k.files) :
    ∃ files ofile, each (closeFd p) l k = .ok ((), { k with
      files := files, procs := update k.procs p { k.procs p with ofile := ofile } }) := by
  induction l generalizing k with
  | nil =>
    refine ⟨k.files, (k.procs p).ofile, ?_⟩
    rw [update_eq_self]
    rfl
  | cons fd l ih =>
    obtain ⟨k1, hrun, files, ofile, hk1, hplain⟩ : ∃ k1, closeFd p fd k = .ok ((), k1) ∧
        ∃ files ofile, k1 = { k with
          files := files, procs := update k.procs p { k.procs p with ofile := ofile } } ∧
          Plain files := by
      unfold closeFd
      rw [getProc, bind_ok (b := k.procs p) rfl]
      cases (k.procs p).ofile fd with
      | none =>
        refine ⟨k, rfl, k.files, (k.procs p).ofile, ?_, h⟩
        rw [update_eq_self]
      | some f =>
        obtain ⟨files, hclose, hplain⟩ := fileclose_plain f h
        dsimp only
        rw [bind_ok hclose]
        exact ⟨_, rfl, files, _, rfl, hplain⟩
    obtain ⟨files', ofile', hrest⟩ := ih (k := k1) (by rw [hk1]; exact hplain)
    refine ⟨files', ofile', ?_⟩
    rw [each, bind_ok hrun, hrest, hk1]
    simp only [update_self, update_idem]

theorem iput_unlocked {s : FileSys} (h : (s.icache i).locked = false) :
    ∃ s', iput i s = .ok ((), s') := by
  unfold iput
  rw [bind_ok (b := s.icache i) rfl]
  split
  · rename_i hlast
    have hlock : ilock i s = .ok ((), (s.setLocked i true).load i) := by
      unfold ilock
      rw [bind_ok (b := s.icache i) rfl, if_neg (by omega), if_neg (by rw [h]; simp)]
      rfl
    rw [bind_ok hlock]
    exact ⟨_, rfl⟩
  · exact ⟨_, rfl⟩

/-- The slot of a process after its exit. -/
structure Gone (k : Kern) (p : Nat) (status : Int) (k' : Kern) : Prop where
  state : (k'.procs p).state = if (k.procs p).parent.isSome then .zombie else .unused
  exitStatus : (k'.procs p).exitStatus = status
  pid : (k'.procs p).pid = (k.procs p).pid
  parent : (k'.procs p).parent = (k.procs p).parent
  others : ∀ q, q ≠ p → k'.procs q = k.procs q
  mm : k'.mm = k.mm

/-- The end of a process whose files are no pipes. -/
theorem procCleanup_plain (p : Nat) (status : Int) (hplain : Plain k.files)
    (hlock : ∀ i, (k.fs.icache i).locked = false) :
    ∃ k', procCleanup p status k = .ok ((), k') ∧ Gone k p status k' := by
  obtain ⟨files, ofile, hrun⟩ := closeFds_plain p (range nofile) hplain
  unfold procCleanup
  rw [bind_ok hrun]
  generalize hk1 : ({ k with
    files := files, procs := update k.procs p { k.procs p with ofile := ofile } } : Kern) = k1
  have hfs : k1.fs = k.fs := by rw [← hk1]
  -- the directory is dropped, and with it nothing but the field changes
  obtain ⟨k2, cwd, hdrop, hmm2, hprocs2⟩ : ∃ k2 cwd, dropCwd p k1 = .ok ((), k2) ∧
      k2.mm = k1.mm ∧ k2.procs = update k1.procs p { k1.procs p with cwd := cwd } := by
    unfold dropCwd
    rw [getProc, bind_ok (b := k1.procs p) rfl]
    cases hcwd : (k1.procs p).cwd with
    | none =>
      refine ⟨k1, none, rfl, rfl, ?_⟩
      rw [← hcwd, update_eq_self]
    | some i =>
      obtain ⟨s', hput⟩ := iput_unlocked (s := k1.fs) (i := i) (by rw [hfs]; exact hlock i)
      have hon : onFs (iput i) k1 = .ok ((), k1.withFs s') := by
        unfold onFs zoom
        rw [hput]
      dsimp only
      rw [bind_ok hon]
      exact ⟨_, none, rfl, rfl, rfl⟩
  rw [bind_ok hdrop]
  refine ⟨_, rfl, ?_⟩
  have hprocs : k2.procs = update k.procs p { k.procs p with ofile := ofile, cwd := cwd } := by
    rw [hprocs2, ← hk1]
    simp only [update_self, update_idem]
  constructor
  · rw [setProc_procs_self, hprocs, update_self]
  · rw [setProc_procs_self]
  · rw [setProc_procs_self, hprocs, update_self]
  · rw [setProc_procs_self, hprocs, update_self]
  · intro q hq
    rw [setProc_procs_of_ne _ _ hq, hprocs, update_of_ne hq]
  · show k2.mm = k.mm
    rw [hmm2, ← hk1]

end

end Slopix.Kernel
