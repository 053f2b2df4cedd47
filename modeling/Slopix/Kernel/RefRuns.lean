import Mathlib.Algebra.BigOperators.Group.Finset.Piecewise
import Slopix.Kernel.RefCounts

/-!
# Reference counts over whole runs

The calls on paths and processes, the start of the machine, and the result: between two calls every
reference count is the number of references. A call stops with a deadlock exactly at the places named
in `Kernel.Locks`, and every call that returns leaves no inode locked.
-/

namespace Slopix.Kernel

open Lib Mm Fs Ipc Function Multiset Kern

section

variable {k k1 : Kern} {f i p : Nat} {S : Prop}

theorem cwd_mem (hp : k.alive p) : ∀ i, (k.procs p).cwd = some i → i ∈ k.cwds :=
  fun _ hi => mem_cwds (alive_iff.1 hp).1 hi

/-- A call that is a file system program on the working directory. -/
theorem counts_onFs {m : FsM Int} (h : Counted k)
    (hm : ∀ B, Cached k.fs B ∅ → (∀ i ∈ k.cwds, i ∈ B) →
      Holds (m k.fs) (fun _ s => Cached s B ∅) (Stops S)) : Counts S k (onFs m) :=
  (onFs_keep h.busy hm).imp fun _ _ h1 => h.of_busy h1

theorem counts_sysLink (old new : Option (List UInt8)) (h : Counted k) (hp : k.alive p) :
    Counts S k (sysLink p old new) := by
  match old, new with
  | some old, some new =>
    refine holds_gets_bind (counts_onFs h fun B hB hcwd => ?_)
    exact link_spec old new hB fun i hi => hcwd i (cwd_mem hp i hi)
  | none, _ => exact holds_pure h
  | some _, none => exact holds_pure h

theorem counts_sysUnlink (path : Option (List UInt8)) (h : Counted k) (hp : k.alive p)
    (hsafe : ∀ path', path = some path' → S → UnlinkSafe (k.procs p).cwd path' k.fs) :
    Counts S k (sysUnlink p path) := by
  cases path with
  | none => exact holds_pure h
  | some path =>
    refine holds_gets_bind (counts_onFs h fun B hB hcwd => ?_)
    exact unlink_spec path hB (fun i hi => hcwd i (cwd_mem hp i hi)) (hsafe path rfl)

theorem counts_sysRename (old new : Option (List UInt8)) (h : Counted k) (hp : k.alive p)
    (hsafe : ∀ old' new', old = some old' → new = some new' → S →
      RenameSafe (k.procs p).cwd old' new' k.fs) : Counts S k (sysRename p old new) := by
  match old, new with
  | some old, some new =>
    refine holds_gets_bind (counts_onFs h fun B hB hcwd => ?_)
    exact rename_spec old new hB (fun i hi => hcwd i (cwd_mem hp i hi)) (hsafe old new rfl rfl)
  | none, _ => exact holds_pure h
  | some _, none => exact holds_pure h

theorem counts_createAndDrop (path : Option (List UInt8)) (type major minor : Nat) (h : Counted k)
    (hp : k.alive p)
    (hsafe : ∀ path', path = some path' → S → CreateSafe (k.procs p).cwd path' type k.fs) :
    Counts S k (createAndDrop p path type major minor) := by
  cases path with
  | none => exact holds_pure h
  | some path =>
    apply holds_gets_bind
    have hcreate : Holds (onFs (create (k.procs p).cwd path type major minor) k)
        (fun r k1 => Busy k k.fds (found r + k.cwds) (found r).toFinset k1) (Stops S) := by
      apply onFs_busy h.busy
      have hspec := create_spec (S := S) path type major minor h.filed.cache
        (fun i hi => mem_add.2 (Or.inr (cwd_mem hp i hi))) (hsafe path rfl)
      exact hspec.imp fun r s hs => Cached.of_eq hs (add_left_comm _ _ _)
    refine hcreate.bind fun r k1 h1 => ?_
    cases r with
    | none => exact holds_pure (h.of_busy (h1.of_eq rfl (zero_add _)))
    | some ip =>
      have h1' : Busy k k.fds (ip ::ₘ k.cwds) {ip} k1 := h1
      exact (onFs_iunlockput h1').bind fun _ k2 h2 => holds_pure (h.of_busy h2)

/-- `sys_open`: the new file takes the reference to the inode. -/
theorem counts_sysOpen (path : Option (List UInt8)) (flags : OpenFlags) (h : Counted k)
    (hp : k.alive p)
    (hsafe : ∀ path', path = some path' → S → ∀ s1,
      namei (k.procs p).cwd path' k.fs = .ok (none, s1) → flags.creat = true →
        CreateSafe (k.procs p).cwd path' tFile s1) :
    Counts S k (sysOpen p path flags) := by
  obtain ⟨hlt, hused⟩ := alive_used hp
  cases path with
  | none => exact holds_pure h
  | some path =>
    apply holds_gets_bind
    have hopen : Holds (onFs (openInode (k.procs p).cwd path flags) k) (fun r k1 =>
        (∀ ip, r = .ok ip → Busy k k.fds (ip ::ₘ k.cwds) {ip} k1) ∧
          (∀ e, r = .error e → Busy k k.fds k.cwds ∅ k1)) (Stops S) := by
      apply holds_zoom
      have hspec := openInode_spec (S := S) path flags h.filed.cache
        (fun i hi => mem_add.2 (Or.inr (cwd_mem hp i hi))) (hsafe path rfl)
      refine hspec.imp fun r s hs => ?_
      cases r with
      | error e =>
        refine ⟨fun ip hip => (by cases hip), fun e _ => ?_⟩
        exact ⟨h.filed.congr_cache (l := k.withFs s) rfl hs, rfl⟩
      | ok ip =>
        refine ⟨fun ip hip => ?_, fun e he => (by cases he)⟩
        cases hip
        exact ⟨h.filed.congr_cache (l := k.withFs s) rfl (Cached.of_eq hs (add_cons ..).symm), rfl⟩
    refine hopen.bind fun r k1 hopened => ?_
    cases r with
    | error e => exact holds_pure (h.of_busy (hopened.2 e rfl))
    | ok ip =>
      have h1 := hopened.1 ip rfl
      apply holds_step_bind
      rcases hal : k1.filealloc with ⟨_ | f, k2⟩
      · obtain ⟨h2, hprocs2⟩ := h1.filed.filealloc_none hal
        have hb2 : Busy k k.fds (ip ::ₘ k.cwds) {ip} k2 := ⟨h2, hprocs2.trans h1.procs⟩
        exact (onFs_iunlockput hb2).bind fun _ k3 h3 => holds_pure (h.of_busy h3)
      obtain ⟨h2, hnew, hprocs2⟩ := h1.filed.filealloc hal
      apply holds_gets_bind
      apply holds_modify_bind
      have h3 : ∀ d, Busy k (f ::ₘ k.fds) k.cwds {ip} (k2.setFile f (openFile ip d flags)) := by
        intro d
        refine ⟨?_, hprocs2.trans h1.procs⟩
        apply h2.setFile_inode (mem_cons_self f _)
        · rw [hnew]
          rfl
        · rfl
        · rw [hnew]
          rfl
        unfold openFile
        split
        · exact ⟨fun e => (by cases e), fun e => (by cases e)⟩
        · split <;> exact ⟨fun e => (by cases e), fun e => (by cases e)⟩
      -- unlock, then the descriptor
      have hrest : ∀ after : Option Nat → KM Int, (after none = do fileclose f; fail .enomem) →
          (∀ fd, after (some fd) = pure (fd : Int)) →
          ∀ k4, Busy k (f ::ₘ k.fds) k.cwds {ip} k4 → Holds ((do
            onFs (Fs.iunlock ip)
            let fd ← Exec.step fun k => k.fdalloc p f
            after fd : KM Int) k4) (fun _ k' => Counted k') (Stops S) := by
        intro after hnone hsome k4 h4
        refine (onFs_iunlock h4).bind fun _ k5 h5 => ?_
        have hold5 : Holding k5 {f} := h5.holding h.idle
        have hused5 : (k5.procs p).Used := by
          rw [h5.procs]
          exact hused
        apply holds_step_bind
        rcases fdalloc_spec p k5 f with ⟨fd, hfd, hfree, hres⟩ | hres
        · rw [hres, hsome]
          have h6 := Holding.setOfile (v := some f) (F := 0) hold5 hlt hused5 hfd
          rw [hfree] at h6
          exact holds_pure (Holding.counted h6)
        · rw [hres, hnone]
          exact (Holding.fileclose hold5).bind fun _ k6 h6 => holds_pure h6.1.counted
      refine holds_ite (fun _ => ?_) fun _ => hrest _ rfl (fun _ => rfl) _ (h3 _)
      exact (onFs_modify (h3 _) (sameTags_itrunc ip)).bind fun _ k4 h4 =>
        hrest _ rfl (fun _ => rfl) k4 h4

/-- `sys_chdir`: the reference to the old directory is exchanged for one to the new. -/
theorem counts_sysChdir (path : Option (List UInt8)) (h : Counted k) (hp : k.alive p) :
    Counts S k (sysChdir p path) := by
  obtain ⟨hlt, hused⟩ := alive_used hp
  cases path with
  | none => exact holds_pure h
  | some path =>
    apply holds_gets_bind
    refine (onFs_namei path h.busy (cwd_mem hp)).bind fun ip k1 h1 => ?_
    cases ip with
    | none => exact holds_pure (h.of_busy (h1.of_eq rfl (zero_add _)))
    | some ip =>
      have h1' : Busy k k.fds (ip ::ₘ k.cwds) ∅ k1 := h1
      have hmem : ip ∈ k1.fileInodes + (ip ::ₘ k.cwds) :=
        mem_add.2 (Or.inr (mem_cons_self ip _))
      refine (onFs_ilock h1' hmem).bind fun _ k2 h2 => ?_
      apply holds_gets_bind
      refine holds_ite (fun _ => ?_) fun _ => ?_
      · exact (onFs_iunlockput h2).bind fun _ k3 h3 => holds_pure (h.of_busy h3)
      refine (onFs_iunlock h2).bind fun _ k3 h3 => ?_
      cases hcwd : (k.procs p).cwd with
      | none => exact holds_stop stops_fault
      | some old =>
        have hsum := cwds_setProc (k := k) hlt { k.procs p with cwd := some ip }
        rw [hcwd] at hsum
        -- the old reference goes, the new one is already there
        have hC : ip ::ₘ k.cwds =
            old ::ₘ (k.setProc p { k.procs p with cwd := some ip }).cwds := by
          rw [← singleton_add, add_comm, ← singleton_add]
          exact hsum.symm.trans (add_comm _ _)
        refine (onFs_iput (h3.of_eq rfl hC)).bind fun _ k4 h4 => ?_
        apply holds_modify_bind
        apply holds_pure
        have hset : (k4.setProc p { k4.procs p with cwd := some ip }).procs =
            (k.setProc p { k.procs p with cwd := some ip }).procs := by
          unfold setProc
          rw [h4.procs]
        have hfds : (k.setProc p { k.procs p with cwd := some ip }).fds = k.fds :=
          add_right_cancel (fds_setProc hlt { k.procs p with cwd := some ip })
        refine Busy.counted (k := k.setProc p { k.procs p with cwd := some ip })
          ⟨(h4.filed.congr_procs (l := k4.setProc p _) rfl rfl).of_eq hfds.symm rfl, hset⟩ ?_
        exact idle_setProc h.idle (idleWhenDead_of_used hused)

theorem counts_sysStat (path : Option (List UInt8)) (ok : Bool) (h : Counted k) (hp : k.alive p) :
    Counts S k (sysStat p path ok) := by
  cases path with
  | none => exact holds_pure h
  | some path =>
    refine holds_ite (fun _ => holds_pure h) fun _ => holds_gets_bind ?_
    refine (onFs_namei path h.busy (cwd_mem hp)).bind fun ip k1 h1 => ?_
    cases ip with
    | none => exact holds_pure (h.of_busy (h1.of_eq rfl (zero_add _)))
    | some ip =>
      have h1' : Busy k k.fds (ip ::ₘ k.cwds) ∅ k1 := h1
      have hmem : ip ∈ k1.fileInodes + (ip ::ₘ k.cwds) :=
        mem_add.2 (Or.inr (mem_cons_self ip _))
      refine (onFs_ilock h1' hmem).bind fun _ k2 h2 => ?_
      exact (onFs_iunlockput h2).bind fun _ k3 h3 => holds_pure (h.of_busy h3)

theorem counts_sysGetcwd (size : Nat) (ok : Bool) (h : Counted k) (hp : k.alive p) :
    Counts S k (sysGetcwd p size ok) := by
  refine holds_ite (fun _ => holds_pure h) fun _ => holds_ite (fun _ => holds_pure h) fun _ => ?_
  apply holds_gets_bind
  cases hcwd : (k.procs p).cwd with
  | none => exact holds_stop stops_fault
  | some i =>
    have hmem : i ∈ k.fileInodes + k.cwds := mem_add.2 (Or.inr (cwd_mem hp i hcwd))
    have hdup : Holds (onFs (Exec.modify fun s => s.idup i) k)
        (fun _ k1 => Busy k k.fds (i ::ₘ k.cwds) ∅ k1) (Stops S) := by
      apply onFs_busy (E := fun _ => i ::ₘ k.cwds) (M := fun _ => ∅) h.busy
      exact holds_modify ((h.filed.cache.idup hmem).of_eq (add_cons ..).symm)
    refine hdup.bind fun _ k1 h1 => ?_
    have hloop : Holds (onFs (getcwdLoop 16 i []) k1)
        (fun _ k2 => Busy k k.fds k.cwds ∅ k2) (Stops S) := by
      apply onFs_busy (E := fun _ => k.cwds) (M := fun _ => ∅) h1
      exact getcwdLoop_spec 16 [] (h1.filed.cache.of_eq (add_cons ..))
    refine hloop.bind fun r k2 h2 => ?_
    cases r with
    | none => exact holds_pure (h.of_busy h2)
    | some names =>
      dsimp only
      cases cwdLength size names with
      | none => exact holds_pure (h.of_busy h2)
      | some n => exact holds_pure (h.of_busy h2)

end

/-! ## Processes -/

section

variable {k k1 k2 : Kern} {D C X : Multiset Nat} {L : Finset Nat} {f i p c fd : Nat} {S : Prop}

/-- A change that keeps all links keeps the counts. -/
theorem Busy.calm (h : Busy k k.fds (X + k.cwds) L k1) (hs : SameLinks k1 k2) :
    Busy k2 k2.fds (X + k2.cwds) L k2 := by
  refine ⟨(h.filed.congr hs).of_eq ?_ ?_, rfl⟩
  · rw [hs.fds]
    unfold fds
    rw [h.procs]
  · rw [hs.cwds]
    unfold cwds
    rw [h.procs]

theorem Busy.idle_calm (h : Busy k D C L k1) (hidle : ∀ q, (k.procs q).IdleWhenDead)
    (hs : SameLinks k1 k2) (q : Nat) : (k2.procs q).IdleWhenDead := by
  apply Proc.IdleWhenDead.congr _ (hs.links q)
  rw [h.procs]
  exact hidle q

theorem calm_execInitramfs (name : List UInt8) : Calm (execInitramfs name) := by
  refine (calm_gets _).bind fun img => ?_
  cases img with
  | none => exact calm_pure _
  | some img =>
    refine calm_allocPage.bind fun pt => ?_
    cases pt with
    | none => exact calm_pure _
    | some pt =>
      refine (calm_elfLoad img pt).bind fun r => ?_
      match r with
      | none => exact (calm_modifyMm _).bind fun _ => calm_pure _
      | some (entry, brk) => exact calm_pure _

theorem counts_execInode (path : List UInt8) (h : Counted k) (hp : k.alive p) :
    Counts S k (execInode (k.procs p).cwd path) := by
  refine (onFs_namei path h.busy (cwd_mem hp)).bind fun ip k1 h1 => ?_
  cases ip with
  | none => exact holds_pure (h.of_busy (h1.of_eq rfl (zero_add _)))
  | some ip =>
    have h1' : Busy k k.fds ({ip} + k.cwds) ∅ k1 := h1
    have hmem : ip ∈ k1.fileInodes + ({ip} + k.cwds) :=
      mem_add.2 (Or.inr (mem_add.2 (Or.inl (mem_singleton_self ip))))
    refine (onFs_ilock h1' hmem).bind fun _ k2 h2 => ?_
    -- whatever happened to the memory, the inode is dropped
    have hdrop : ∀ {α : Type} (m : KM α) k3, Calm m → SameLinks k2 k3 →
        Holds ((do
          onFs (iunlockput ip)
          m : KM α) k3) (fun _ k' => Counted k') (Stops S) := by
      intro α m k3 hm hs
      refine (onFs_iunlockput (h2.calm hs)).bind fun _ k4 h4 => ?_
      exact hm.counts (h4.counted (h2.idle_calm h.idle hs))
    apply holds_gets_bind
    refine holds_ite (fun _ => hdrop _ k2 (calm_pure _) (SameLinks.refl k2)) fun _ => ?_
    refine (calm_allocPage.run k2).bind fun pt k3 h3 => ?_
    cases pt with
    | none => exact hdrop _ k3 (calm_pure _) h3
    | some pt =>
      refine ((calm_elfLoadFromInode ip pt).run k3).bind fun r k4 h4 => ?_
      match r with
      | none => exact hdrop _ k4 ((calm_modifyMm _).bind fun _ => calm_pure _) (h3.trans h4)
      | some (entry, brk) => exact hdrop _ k4 (calm_pure _) (h3.trans h4)

theorem counts_sysExec (cmdline : Option (List UInt8)) (h : Counted k) (hp : k.alive p) :
    Counts S k (sysExec p cmdline) := by
  unfold sysExec
  cases cmdline with
  | none => exact holds_pure h
  | some cmd =>
    dsimp only
    cases words 64 cmd with
    | nil => exact holds_pure h
    | cons arg args =>
      apply holds_gets_bind
      -- what comes after either loader
      have hfinish : ∀ after : Except Errno (Nat × Nat × Nat) → KM Int,
          (∀ e, after (.error e) = fail e) →
          (∀ pt entry brk, after (.ok (pt, entry, brk)) = execFinish p pt entry brk (arg :: args)) →
          ∀ r k1, Counted k1 → Holds (after r k1) (fun _ k' => Counted k') (Stops S) := by
        intro after herror hok r k1 h1
        rcases r with e | ⟨pt, entry, brk⟩
        · rw [herror]
          exact holds_pure h1
        · rw [hok]
          exact (calm_execFinish p pt entry brk _).counts h1
      refine holds_ite (fun _ => ?_) fun _ => ?_
      · exact Holds.bind ((calm_execInitramfs _).counts h) (hfinish _ (fun _ => rfl) fun _ _ _ => rfl)
      · exact Holds.bind (counts_execInode arg h hp) (hfinish _ (fun _ => rfl) fun _ _ _ => rfl)

/-! ### Exit -/

theorem closeFd_spec (h : Counted k) (hlt : p < nproc) (hused : (k.procs p).Used)
    (hfd : fd < nofile) :
    Holds (closeFd p fd k) (fun _ k' => Counted k' ∧ (k'.procs p).state = (k.procs p).state ∧
      (k'.procs p).ofile fd = none ∧
      ∀ fd', (k.procs p).ofile fd' = none → (k'.procs p).ofile fd' = none) (Stops S) := by
  apply holds_gets_bind
  cases hf : (k.procs p).ofile fd with
  | none => exact holds_pure ⟨h, rfl, hf, fun _ e => e⟩
  | some f =>
    have hfds := fds_setOfile (k := k) hlt hfd none
    rw [hf] at hfds
    -- `fileclose` runs while the descriptor still points at the file
    have hD : k.fds = f ::ₘ (k.setOfile p fd none).fds := by
      rw [← singleton_add, add_comm]
      exact (add_zero _).symm.trans hfds.symm
    refine (fileclose_busy (h.busy.of_eq hD rfl)).bind fun _ k1 h1 => ?_
    apply holds_modify
    have hset : (k1.setOfile p fd none).procs = (k.setOfile p fd none).procs := by
      unfold setOfile setProc
      rw [h1.procs]
    have hfiled : Filed (k1.setOfile p fd none) (k.setOfile p fd none).fds k.cwds ∅ :=
      h1.filed.congr_procs rfl rfl
    have hbusy : Busy (k.setOfile p fd none) (k.setOfile p fd none).fds
        (k.setOfile p fd none).cwds ∅ (k1.setOfile p fd none) :=
      ⟨hfiled.of_eq rfl (cwds_setOfile hlt fd none).symm, hset⟩
    have hproc : (k1.setOfile p fd none).procs p =
        { k.procs p with ofile := update (k.procs p).ofile fd none } := by
      rw [hset]
      exact update_self ..
    refine ⟨hbusy.counted (idle_setProc h.idle (idleWhenDead_of_used hused)), ?_, ?_, ?_⟩
    · rw [hproc]
    · rw [hproc]
      exact update_self ..
    intro fd' hnone
    rw [hproc]
    show update (k.procs p).ofile fd none fd' = none
    rw [update_apply, hnone, ite_self]

/-- The loop of `proc_cleanup` over the descriptors `l`. -/
theorem closeFds_spec (l : List Nat) (hl : ∀ fd ∈ l, fd < nofile) (h : Counted k) (hlt : p < nproc)
    (hused : (k.procs p).Used) :
    Holds (Exec.each (closeFd p) l k) (fun _ k' => Counted k' ∧
      (k'.procs p).state = (k.procs p).state ∧ (∀ fd ∈ l, (k'.procs p).ofile fd = none) ∧
      ∀ fd, (k.procs p).ofile fd = none → (k'.procs p).ofile fd = none) (Stops S) := by
  induction l generalizing k with
  | nil => exact holds_pure ⟨h, rfl, fun _ hmem => absurd hmem List.not_mem_nil, fun _ e => e⟩
  | cons fd l ih =>
    refine (closeFd_spec h hlt hused (hl fd List.mem_cons_self)).bind
      fun _ k1 ⟨h1, hstate1, hnone1, hkeep1⟩ => ?_
    have hused1 : (k1.procs p).Used := by
      unfold Proc.Used
      rw [hstate1]
      exact hused
    refine (ih (fun fd' hfd' => hl fd' (List.mem_cons_of_mem fd hfd')) h1 hused1).imp
      fun _ k2 ⟨h2, hstate2, hnone2, hkeep2⟩ => ⟨h2, hstate2.trans hstate1, ?_, ?_⟩
    · intro fd' hfd'
      rcases List.mem_cons.1 hfd' with rfl | hfd'
      · exact hkeep2 fd' hnone1
      · exact hnone2 fd' hfd'
    · exact fun fd' e => hkeep2 fd' (hkeep1 fd' e)

theorem dropCwd_spec (h : Counted k) (hlt : p < nproc) (hused : (k.procs p).Used) :
    Holds (dropCwd p k) (fun _ k' => Counted k' ∧
      k'.procs p = { k.procs p with cwd := none }) (Stops S) := by
  apply holds_gets_bind
  cases hcwd : (k.procs p).cwd with
  | none =>
    refine holds_pure ⟨h, ?_⟩
    rw [← hcwd]
  | some i =>
    have hcwds := cwds_setProc (k := k) hlt { k.procs p with cwd := none }
    rw [hcwd] at hcwds
    have hC : k.cwds = i ::ₘ (k.setProc p { k.procs p with cwd := none }).cwds := by
      rw [← singleton_add, add_comm]
      exact (add_zero _).symm.trans hcwds.symm
    refine (onFs_iput (h.busy.of_eq rfl hC)).bind fun _ k1 h1 => ?_
    apply holds_modify
    have hset : (k1.setProc p { k1.procs p with cwd := none }).procs =
        (k.setProc p { k.procs p with cwd := none }).procs := by
      unfold setProc
      rw [h1.procs]
    have hfds : (k.setProc p { k.procs p with cwd := none }).fds = k.fds :=
      add_right_cancel (fds_setProc hlt { k.procs p with cwd := none })
    have hfiled : Filed (k1.setProc p { k1.procs p with cwd := none }) k.fds
        (k.setProc p { k.procs p with cwd := none }).cwds ∅ := h1.filed.congr_procs rfl rfl
    have hbusy : Busy (k.setProc p { k.procs p with cwd := none })
        (k.setProc p { k.procs p with cwd := none }).fds
        (k.setProc p { k.procs p with cwd := none }).cwds ∅
        (k1.setProc p { k1.procs p with cwd := none }) :=
      ⟨hfiled.of_eq hfds.symm rfl, hset⟩
    refine ⟨hbusy.counted (idle_setProc h.idle (idleWhenDead_of_used hused)), ?_⟩
    rw [hset]
    exact update_self ..

/-- Fields of a process other than its descriptors and its working directory. -/
theorem Counted.setProc {x : Proc} (h : Counted k) (hlt : p < nproc)
    (hofile : x.ofile = (k.procs p).ofile) (hcwd : x.cwd = (k.procs p).cwd) (hx : x.IdleWhenDead) :
    Counted (k.setProc p x) := by
  have hfds : (k.setProc p x).fds = k.fds := by
    have hsum := fds_setProc (k := k) hlt x
    have hsame : x.fds = (k.procs p).fds := by
      unfold Proc.fds
      rw [hofile]
    rw [hsame] at hsum
    exact add_right_cancel hsum
  have hcwds : (k.setProc p x).cwds = k.cwds := by
    have hsum := cwds_setProc (k := k) hlt x
    rw [hcwd] at hsum
    exact add_right_cancel hsum
  refine ⟨?_, idle_setProc h.idle hx⟩
  rw [hfds, hcwds]
  exact h.filed.congr_procs rfl rfl

theorem counts_procCleanup (status : Int) (h : Counted k) (hp : k.alive p) :
    Counts S k (procCleanup p status) := by
  obtain ⟨hlt, hused⟩ := alive_used hp
  refine (closeFds_spec (List.range nofile) (fun fd hfd => List.mem_range.1 hfd) h hlt hused).bind
    fun _ k1 ⟨h1, hstate1, hnone1, _⟩ => ?_
  have hused1 : (k1.procs p).Used := by
    unfold Proc.Used
    rw [hstate1]
    exact hused
  refine (dropCwd_spec h1 hlt hused1).bind fun _ k2 ⟨h2, hproc2⟩ => ?_
  apply holds_modify
  refine h2.setProc hlt rfl rfl (Or.inr ⟨fun fd hfd => ?_, ?_⟩)
  · show (k2.procs p).ofile fd = none
    rw [hproc2]
    exact hnone1 fd (List.mem_range.2 hfd)
  · show (k2.procs p).cwd = none
    rw [hproc2]

/-! ### Wait -/

theorem counts_encodeWaitStatus (h : Counted k) (hlt : c < nproc)
    (hz : (k.procs c).state = .zombie) : Counts S k (encodeWaitStatus c) := by
  apply holds_gets_bind
  refine ((calm_freeSpace c).run k).bind fun _ k1 hs1 => ?_
  refine ((calm_freeStack c).run k1).bind fun _ k2 hs2 => ?_
  have hs := hs1.trans hs2
  have h2 := h.congr hs
  have hidle : (k2.procs c).Idle := by
    refine (h2.idle c).resolve_left fun hused => hused.2 ?_
    rw [hs.state c]
    exact hz
  have hend : Counted (k2.setProc c { k2.procs c with state := .unused }) :=
    h2.setProc hlt rfl rfl (Or.inr hidle)
  exact holds_modify_bind (holds_pure hend)

theorem counts_sysWait (intr : Bool) (h : Counted k) : Counts S k (sysWait p intr) := by
  apply holds_gets_bind
  dsimp only [id_eq]
  cases hfind : (List.range nproc).find? fun c => k.isChild p c && (k.procs c).state == .zombie with
  | none => exact (calm_waitMore _ _).counts h
  | some c =>
    have hc := List.mem_range.1 (List.mem_of_find?_eq_some hfind)
    have hz := List.find?_some hfind
    rw [Bool.and_eq_true, beq_iff_eq] at hz
    exact counts_encodeWaitStatus h hc hz.2

theorem counts_sysWaitpid (pid : Int) (options : Nat) (intr : Bool) (h : Counted k) :
    Counts S k (sysWaitpid p pid options intr) := by
  apply holds_gets_bind
  dsimp only [id_eq]
  cases hfind : (List.range nproc).find? fun c => (k.isChild p c && (decide (pid ≤ 0) ||
      decide (((k.procs c).pid : Int) = pid))) && (k.procs c).state == .zombie with
  | some c =>
    have hc := List.mem_range.1 (List.mem_of_find?_eq_some hfind)
    have hz := List.find?_some hfind
    rw [Bool.and_eq_true, beq_iff_eq] at hz
    exact counts_encodeWaitStatus h hc hz.2
  | none =>
    cases ((List.range nproc).filter fun c => (k.isChild p c && (decide (pid ≤ 0) ||
      decide (((k.procs c).pid : Int) = pid))) && options.testBit 1 &&
        (k.procs c).state == .stopped).getLast? with
    | some c => exact holds_pure h
    | none => exact holds_ite (fun _ => holds_pure h) fun _ => (calm_waitMore _ _).counts h

/-! ### Fork -/

theorem procAlloc_links (h : k.procAlloc = (some c, k1)) :
    c < nproc ∧ (k.procs c).state = .unused ∧ k1.files = k.files ∧ k1.fs = k.fs ∧
      (k1.procs c).links = (fun _ => none, none, .embryo) ∧ ∀ q, q ≠ c → k1.procs q = k.procs q := by
  unfold procAlloc at h
  cases hfind : (List.range nproc).find? fun p => (k.procs p).state == .unused with
  | none =>
    rw [hfind] at h
    cases h
  | some c' =>
    have hstate := List.find?_some hfind
    rw [beq_iff_eq] at hstate
    rw [hfind] at h
    cases hal : pmmAllocContiguous k.mm kstackPages with
    | none =>
      rw [hal] at h
      cases h
    | some r =>
      rw [hal] at h
      injection h with hc hk
      injection hc with hc
      subst hc hk
      refine ⟨List.mem_range.1 (List.mem_of_find?_eq_some hfind), hstate, rfl, rfl, ?_,
        fun q hq => update_of_ne hq ..⟩
      unfold setProc
      simp only [update_self]
      rfl

theorem procAlloc_none_links (h : k.procAlloc = (none, k1)) : SameLinks k k1 := by
  unfold procAlloc at h
  cases hfind : (List.range nproc).find? fun p => (k.procs p).state == .unused with
  | none =>
    rw [hfind] at h
    injection h with _ hk
    exact hk ▸ SameLinks.refl k
  | some c =>
    have hstate := List.find?_some hfind
    rw [beq_iff_eq] at hstate
    rw [hfind] at h
    cases hal : pmmAllocContiguous k.mm kstackPages with
    | none =>
      rw [hal] at h
      injection h with _ hk
      subst hk
      refine ⟨rfl, fun q => ?_, SameTags.refl _⟩
      unfold setProc
      simp only [update_apply]
      split
      · rename_i e
        unfold Proc.links
        rw [e, hstate]
      · rfl
    | some r =>
      rw [hal] at h
      cases h

/-- A new process holds nothing, and neither did its slot. -/
theorem Counted.procAlloc (h : Counted k) (hal : k.procAlloc = (some c, k1)) :
    Counted k1 ∧ c < nproc ∧ (k.procs c).state = .unused ∧
      (k1.procs c).links = (fun _ => none, none, .embryo) ∧ ∀ q, q ≠ c → k1.procs q = k.procs q := by
  obtain ⟨hc, hunused, hfiles, hfs, hlinks, hother⟩ := procAlloc_links hal
  refine ⟨?_, hc, hunused, hlinks, hother⟩
  have hidle : (k.procs c).Idle := (h.idle c).resolve_left fun hu => hu.1 hunused
  have hidle1 : (k1.procs c).Idle := by
    constructor
    · intro fd _
      exact congrFun (congrArg Prod.fst hlinks) fd
    · exact congrArg (fun l => l.2.1) hlinks
  have hset : k1.procs = (k.setProc c (k1.procs c)).procs := by
    funext q
    unfold Kern.setProc
    simp only [update_apply]
    split
    · rename_i e
      rw [e]
    · rename_i e
      exact hother q e
  have hfds : k.fds = (k.setProc c (k1.procs c)).fds := by
    have hsum := fds_setProc (k := k) hc (k1.procs c)
    rw [fds_idle hidle, fds_idle hidle1] at hsum
    exact (add_right_cancel hsum).symm
  have hcwds : k.cwds = (k.setProc c (k1.procs c)).cwds := by
    have hsum := cwds_setProc (k := k) hc (k1.procs c)
    rw [hidle.2, hidle1.2] at hsum
    exact (add_right_cancel hsum).symm
  refine Busy.counted (k := k.setProc c (k1.procs c))
    ⟨(h.filed.congr_procs hfiles hfs).of_eq hfds hcwds, hset⟩ ?_
  exact idle_setProc h.idle (Or.inr hidle1)

theorem forkFd_spec (h : Counted k) (hp : p < nproc) (hc : c < nproc) (hused : (k.procs c).Used)
    (hne : c ≠ p) (hfd : fd < nofile) (hnone : (k.procs c).ofile fd = none) :
    Holds (forkFd p c fd k) (fun _ k' => Counted k' ∧ (k'.procs c).Used ∧
      k'.procs p = k.procs p ∧
      ∀ fd', fd' ≠ fd → (k'.procs c).ofile fd' = (k.procs c).ofile fd') (Stops S) := by
  apply holds_gets_bind
  cases hf : (k.procs p).ofile fd with
  | none => exact holds_pure ⟨h, hused, rfl, fun _ _ => rfl⟩
  | some f =>
    obtain ⟨hres, hdup, hprocs⟩ := h.filed.filedup (mem_fds hp hfd hf)
    apply holds_step_bind
    rw [hres]
    apply holds_modify
    have hold : Holding (k.filedup f).2 {f} :=
      Busy.holding ⟨hdup.of_eq (singleton_add ..).symm rfl, hprocs⟩ h.idle
    have hused1 : ((k.filedup f).2.procs c).Used := by
      rw [hprocs]
      exact hused
    have hset := Holding.setOfile (v := some f) (F := 0) hold hc hused1 hfd
    rw [hprocs, hnone] at hset
    have hother : ((k.filedup f).2.setOfile c fd (some f)).procs p = k.procs p := by
      rw [← hprocs]
      exact update_of_ne hne.symm ..
    have hself : ((k.filedup f).2.setOfile c fd (some f)).procs c =
        { k.procs c with ofile := update (k.procs c).ofile fd (some f) } := by
      rw [← hprocs]
      exact update_self ..
    refine ⟨Holding.counted hset, ?_, hother, fun fd' hfd' => ?_⟩
    · rw [hself]
      exact hused
    · rw [hself]
      exact update_of_ne hfd' ..

/-- The loop of `fork` over the descriptors `l`, none of which the child has yet. -/
theorem forkFds_spec (l : List Nat) (hnd : l.Nodup) (hl : ∀ fd ∈ l, fd < nofile) (h : Counted k)
    (hp : p < nproc) (hc : c < nproc) (hused : (k.procs c).Used) (hne : c ≠ p)
    (hnone : ∀ fd ∈ l, (k.procs c).ofile fd = none) :
    Holds (Exec.each (forkFd p c) l k) (fun _ k' => Counted k') (Stops S) := by
  induction l generalizing k with
  | nil => exact holds_pure h
  | cons fd l ih =>
    obtain ⟨hnot, hnd'⟩ := List.nodup_cons.1 hnd
    refine (forkFd_spec h hp hc hused hne (hl fd List.mem_cons_self)
      (hnone fd List.mem_cons_self)).bind fun _ k1 ⟨h1, hused1, _, hkeep⟩ => ?_
    refine ih hnd' (fun fd' hfd' => hl fd' (List.mem_cons_of_mem fd hfd')) h1 hused1 fun fd' hfd' => ?_
    have hfd_ne : fd' ≠ fd := ne_of_mem_of_not_mem hfd' hnot
    rw [hkeep fd' hfd_ne]
    exact hnone fd' (List.mem_cons_of_mem fd hfd')

/-- The child gets a reference to the directory. -/
theorem Counted.forkCwd {cwd : Option Nat} (h : Counted k) (hc : c < nproc)
    (hused : (k.procs c).Used) (hnone : (k.procs c).cwd = none)
    (hcwd : ∀ i, cwd = some i → i ∈ k.cwds) :
    Counted (k.forkCwd c cwd) ∧ ((k.forkCwd c cwd).procs c).ofile = (k.procs c).ofile ∧
      ((k.forkCwd c cwd).procs c).state = (k.procs c).state := by
  cases cwd with
  | none => exact ⟨h, rfl, rfl⟩
  | some i =>
    have hmem : i ∈ k.fileInodes + k.cwds := mem_add.2 (Or.inr (hcwd i rfl))
    have hdup : Filed (k.withFs (k.fs.idup i)) k.fds (i ::ₘ k.cwds) ∅ :=
      h.filed.congr_cache (l := k.withFs _) rfl
        ((h.filed.cache.idup hmem).of_eq (add_cons ..).symm)
    have hcwds := cwds_setProc (k := k) hc { k.procs c with cwd := some i }
    rw [hnone] at hcwds
    have hfds : (k.setProc c { k.procs c with cwd := some i }).fds = k.fds :=
      add_right_cancel (fds_setProc hc { k.procs c with cwd := some i })
    have hself : (k.forkCwd c (some i)).procs c = { k.procs c with cwd := some i } :=
      update_self ..
    have hfiled : Filed (k.forkCwd c (some i)) k.fds (i ::ₘ k.cwds) ∅ := hdup.congr_procs rfl rfl
    have hbusy : Busy (k.setProc c { k.procs c with cwd := some i })
        (k.setProc c { k.procs c with cwd := some i }).fds
        (k.setProc c { k.procs c with cwd := some i }).cwds ∅ (k.forkCwd c (some i)) := by
      refine ⟨hfiled.of_eq hfds.symm ?_, rfl⟩
      rw [← singleton_add, add_comm]
      exact hcwds.symm.trans (add_zero _)
    refine ⟨hbusy.counted (idle_setProc h.idle (idleWhenDead_of_used hused)), ?_, ?_⟩
    · rw [hself]
    · rw [hself]

/-- `fork` keeps the counts: the child has a reference for each of its own. -/
theorem counts_sysFork (h : Counted k) (hp : k.alive p) : Counts S k (sysFork p) := by
  obtain ⟨hlt, hused⟩ := alive_used hp
  apply holds_gets_bind
  apply holds_step_bind
  generalize (vmmCopy k.mm (k.procs p).pagetable).2 = m
  have h1 : Counted (k.withMm m) := ⟨h.filed.congr_procs rfl rfl, h.idle⟩
  cases (vmmCopy k.mm (k.procs p).pagetable).1 with
  | none => exact holds_pure h1
  | some pt =>
    apply holds_step_bind
    rcases hal : (k.withMm m).procAlloc with ⟨_ | c, k2⟩
    · exact ((calm_modifyMm _).bind fun _ => calm_fail _).counts (h1.congr (procAlloc_none_links hal))
    obtain ⟨h2, hc, hunused, hlinks, hother⟩ := h1.procAlloc hal
    have hne : c ≠ p := by
      rintro rfl
      exact hused.1 hunused
    have hofile : (k2.procs c).ofile = fun _ => none := congrArg Prod.fst hlinks
    have hcwd : (k2.procs c).cwd = none := congrArg (fun l => l.2.1) hlinks
    have hstate : (k2.procs c).state = .embryo := congrArg (fun l => l.2.2) hlinks
    have hused2 : (k2.procs c).Used := by
      unfold Proc.Used
      rw [hstate]
      exact ⟨fun e => (by cases e), fun e => (by cases e)⟩
    apply holds_modify_bind
    dsimp only
    generalize hx : ({ k2.procs c with
      pagetable := pt, parent := some p, pgid := (k.procs p).pgid,
      tf := (k.procs p).tf.child } : Proc) = x
    have hxofile : x.ofile = (k2.procs c).ofile := by rw [← hx]
    have hxcwd : x.cwd = (k2.procs c).cwd := by rw [← hx]
    have hxused : x.Used := by
      rw [← hx]
      exact hused2
    have h3 : Counted (k2.setProc c x) :=
      h2.setProc hc hxofile hxcwd (idleWhenDead_of_used hxused)
    have hself : (k2.setProc c x).procs c = x := update_self ..
    have hparent : (k2.setProc c x).procs p = k.procs p := by
      unfold setProc
      simp only [update_of_ne hne.symm]
      exact hother p hne.symm
    apply holds_modify_bind
    have hmem : ∀ i, (k.procs p).cwd = some i → i ∈ (k2.setProc c x).cwds := by
      intro i hi
      rw [← hparent] at hi
      exact mem_cwds hlt hi
    obtain ⟨h4, hofile4, hstate4⟩ := h3.forkCwd hc (by rw [hself]; exact hxused)
      (by rw [hself, hxcwd, hcwd]) hmem
    rw [hself] at hofile4 hstate4
    have hused4 : (((k2.setProc c x).forkCwd c (k.procs p).cwd).procs c).Used := by
      unfold Proc.Used
      rw [hstate4]
      exact hxused
    refine (forkFds_spec (List.range nofile) List.nodup_range (fun fd hfd => List.mem_range.1 hfd)
      h4 hlt hc hused4 hne fun fd _ => ?_).bind fun _ k5 h5 => ?_
    · rw [hofile4, hxofile, hofile]
    apply holds_modify_bind
    apply holds_gets_bind
    apply holds_pure
    refine h5.setProc hc rfl rfl (Or.inl ⟨fun e => ?_, fun e => ?_⟩)
    · cases e
    · cases e

end

/-! ## All calls and all actions -/

/-- A call does not lock an inode that it already holds. The calls that create, remove or move a name
lock a second inode below a locked directory; it must not be the directory itself. -/
def LockSafe (k : Kern) (p : Nat) : Call → Prop
  | .openCall (some path) flags => ∀ s1, namei (k.procs p).cwd path k.fs = .ok (none, s1) →
      flags.creat = true → CreateSafe (k.procs p).cwd path tFile s1
  | .mkdir (some path) => CreateSafe (k.procs p).cwd path tDir k.fs
  | .mknod (some path) _ _ => CreateSafe (k.procs p).cwd path tDevice k.fs
  | .unlink (some path) => UnlinkSafe (k.procs p).cwd path k.fs
  | .rename (some old) (some new) => RenameSafe (k.procs p).cwd old new k.fs
  | _ => True

section

variable {k k' : Kern} {p : Nat} {S : Prop}

/-- Every system call keeps the counts. -/
theorem counts_syscall (c : Call) (h : Counted k) (hp : k.alive p) (hsafe : S → LockSafe k p c) :
    Counts S k (syscall p c) := by
  cases c with
  | fork => exact counts_sysFork h hp
  | exec cmdline => exact counts_sysExec cmdline h hp
  | exit status => exact Holds.bind (counts_procCleanup status h hp) fun _ _ h' => holds_pure h'
  | wait intr => exact counts_sysWait intr h
  | waitpid pid options intr => exact counts_sysWaitpid pid options intr h
  | sbrk n => exact (calm_sysSbrk p n).counts h
  | mmap addr len prot flags => exact (calm_sysMmap p addr len prot flags).counts h
  | munmap addr len => exact (calm_sysMunmap p addr len).counts h
  | openCall path flags =>
    refine counts_sysOpen path flags h hp fun path' e hs => ?_
    subst e
    exact hsafe hs
  | close fd => exact counts_sysClose fd h hp
  | dup fd => exact counts_sysDup fd h hp
  | pipe ok => exact counts_sysPipe ok h hp
  | read fd n ok dev =>
    exact Holds.bind (counts_sysRead fd n ok dev h hp) fun _ _ h' => holds_pure h'
  | write fd src ok dev => exact counts_sysWrite fd src ok dev h hp
  | lseek fd offset whence => exact counts_sysLseek fd offset whence h hp
  | fstat fd ok => exact counts_sysFstat fd ok h hp
  | ftruncate fd length => exact counts_sysFtruncate fd length h hp
  | getdents fd count ok => exact counts_sysGetdents fd count ok h hp
  | mkdir path =>
    refine counts_createAndDrop path tDir 0 0 h hp fun path' e hs => ?_
    subst e
    exact hsafe hs
  | mknod path major minor =>
    refine counts_createAndDrop path tDevice _ _ h hp fun path' e hs => ?_
    subst e
    exact hsafe hs
  | link old new => exact counts_sysLink old new h hp
  | unlink path =>
    refine counts_sysUnlink path h hp fun path' e hs => ?_
    subst e
    exact hsafe hs
  | rename old new =>
    refine counts_sysRename old new h hp fun old' new' e e' hs => ?_
    subst e e'
    exact hsafe hs
  | chdir path => exact counts_sysChdir path h hp
  | stat path ok => exact counts_sysStat path ok h hp
  | getcwd size ok => exact counts_sysGetcwd size ok h hp

theorem sameLinks_setProc {x : Proc} (hx : x.links = (k.procs p).links) :
    SameLinks k (k.setProc p x) := by
  refine ⟨rfl, fun q => ?_, SameTags.refl _⟩
  unfold setProc
  simp only [update_apply]
  split
  · rename_i e
    rw [e, hx]
  · rfl

theorem counted_step {a : Action} (h : Counted k) (hs : Step k a k') : Counted k' := by
  cases hs with
  | @call p c r k1 halive hret =>
    have hcall := (counts_syscall (S := False) c h halive fun hs => hs.elim).ok r k1 hret
    exact hcall.congr (sameLinks_setProc rfl)
  | @user p halive tf => exact h.congr (sameLinks_setProc rfl)
  | @store p pa halive hpage b => exact h.congr ⟨rfl, fun _ => rfl, SameTags.refl _⟩
  | recycle b => exact h.congr ⟨rfl, fun _ => rfl, fun _ => rfl⟩
  | @reap p k1 hp hret => exact h.congr ((calm_schedReap p k).ok _ _ hret)
  | @sched p halive state hlive =>
    refine h.setProc halive.1 rfl rfl (Or.inl ⟨?_, ?_⟩)
    · rintro rfl
      cases hlive
    · rintro rfl
      cases hlive
  | @signal p halive pgid pending stopSignal => exact h.congr (sameLinks_setProc rfl)

/-! ## The start -/

theorem counts_initLoad (program : List UInt8) (pt : Nat) (h : Counted k) :
    Counts S k (initLoad program pt) := by
  -- what comes after either loader
  have hend : ∀ after : Option (Nat × Nat) → KM (Nat × Nat), after none = Exec.stop .fault →
      (∀ r, after (some r) = pure r) → ∀ r k1, Counted k1 →
        Holds (after r k1) (fun _ k' => Counted k') (Stops S) := by
    intro after hnone hsome r k1 h1
    cases r with
    | none =>
      rw [hnone]
      exact holds_stop stops_fault
    | some r =>
      rw [hsome]
      exact holds_pure h1
  refine holds_ite (fun _ => ?_) fun _ => ?_
  · apply holds_gets_bind
    cases k.initramfs (program.drop 10) with
    | none => exact holds_stop_bind stops_fault
    | some img => exact Holds.bind ((calm_elfLoad img pt).counts h) (hend _ rfl fun _ => rfl)
  refine (onFs_namei program h.busy fun i e => by cases e).bind fun ip k1 h1 => ?_
  cases ip with
  | none => exact holds_stop_bind stops_fault
  | some ip =>
    have h1' : Busy k k.fds ({ip} + k.cwds) ∅ k1 := h1
    have hmem : ip ∈ k1.fileInodes + ({ip} + k.cwds) :=
      mem_add.2 (Or.inr (mem_add.2 (Or.inl (mem_singleton_self ip))))
    refine (onFs_ilock h1' hmem).bind fun _ k2 h2 => ?_
    apply holds_gets_bind
    refine holds_ite (fun _ => holds_stop_bind stops_fault) fun _ => ?_
    refine ((calm_elfLoadFromInode ip pt).run k2).bind fun r k3 hs => ?_
    refine (onFs_iunlockput (h2.calm hs)).bind fun _ k4 h4 => ?_
    have hcounted := h4.counted (h2.idle_calm h.idle hs)
    exact Holds.bind (holds_pure hcounted) (hend _ rfl fun _ => rfl)

/-- A descriptor of the console, in a slot that is free. -/
theorem counts_initConsole (fd : Nat) (hfd : fd < nofile) (h : Counted k) (hlt : p < nproc)
    (hused : (k.procs p).Used) (hnone : (k.procs p).ofile fd = none) :
    Holds (initConsole p fd k) (fun _ k' => Counted k' ∧ (k'.procs p).Used ∧
      ∀ fd', fd' ≠ fd → (k'.procs p).ofile fd' = (k.procs p).ofile fd') (Stops S) := by
  apply holds_step_bind
  rcases hal : k.filealloc with ⟨_ | f, k1⟩
  · obtain ⟨h1, hprocs⟩ := h.filed.filealloc_none hal
    refine holds_pure ⟨Busy.counted ⟨h1, hprocs⟩ h.idle, ?_, fun _ _ => ?_⟩
    · rw [hprocs]
      exact hused
    · rw [hprocs]
  obtain ⟨h1, hnew, hprocs⟩ := h.filed.filealloc hal
  apply holds_modify_bind
  apply holds_modify
  have h2 : ∀ x : File, x.ip = none → x.ref = 1 → Holding (k1.setFile f x) {f} := by
    intro x hip href
    refine Busy.holding (k := k) ⟨?_, hprocs⟩ h.idle
    apply (h1.of_eq (singleton_add ..).symm rfl).setFile_plain
    · rw [hnew]
      rfl
    · exact hip
    · rw [hnew, href]
      rfl
  have hipn : (k1.files f).ip = none := by
    rw [hnew]
    rfl
  have href : (k1.files f).ref = 1 := by
    rw [hnew]
    rfl
  dsimp only
  generalize hx : ({ k1.files f with
    type := .device, major := 1, readable := decide (fd = 0),
    writable := decide (fd ≠ 0) } : File) = x
  have hhold := h2 x (by rw [← hx]; exact hipn) (by rw [← hx]; exact href)
  have hused2 : ((k1.setFile f x).procs p).Used := by
    show (k1.procs p).Used
    rw [hprocs]
    exact hused
  have hset := Holding.setOfile (v := some f) (F := 0) hhold hlt hused2 hfd
  have hnone1 : ((k1.setFile f x).procs p).ofile fd = none := by
    show (k1.procs p).ofile fd = none
    rw [hprocs]
    exact hnone
  rw [hnone1] at hset
  have hself : ((k1.setFile f x).setOfile p fd (some f)).procs p =
      { k.procs p with ofile := update (k.procs p).ofile fd (some f) } := by
    rw [← hprocs]
    exact update_self ..
  refine ⟨Holding.counted hset, ?_, fun fd' hfd' => ?_⟩
  · rw [hself]
    exact hused
  · rw [hself]
    exact update_of_ne hfd' ..

/-- The working directory of the first process: the root. -/
theorem initCwd_spec {m : KM Unit} {k1 : Kern} {root : Nat} (h : Counted k) (hlt : p < nproc)
    (hused : (k.procs p).Used) (hcwd : (k.procs p).cwd = none)
    (h1 : Busy k k.fds (root ::ₘ k.cwds) ∅ k1)
    (hm : ∀ k', Counted k' → (k'.procs p).Used → (k'.procs p).ofile = (k.procs p).ofile →
      Counts S k' m) :
    Counts S k1 (do
      onFs (ilock root)
      onFs (Fs.iunlock root)
      modifyProc p fun x => { x with cwd := some root }
      m) := by
  have hmem : root ∈ k1.fileInodes + (root ::ₘ k.cwds) :=
    mem_add.2 (Or.inr (mem_cons_self root _))
  refine (onFs_ilock h1 hmem).bind fun _ k2 h2 => ?_
  refine (onFs_iunlock h2).bind fun _ k3 h3 => ?_
  apply holds_modify_bind
  have hcwds := cwds_setProc (k := k) hlt { k.procs p with cwd := some root }
  rw [hcwd] at hcwds
  have hfds : (k.setProc p { k.procs p with cwd := some root }).fds = k.fds :=
    add_right_cancel (fds_setProc hlt { k.procs p with cwd := some root })
  have hset : (k3.setProc p { k3.procs p with cwd := some root }).procs =
      (k.setProc p { k.procs p with cwd := some root }).procs := by
    unfold setProc
    rw [h3.procs]
  have hself : (k3.setProc p { k3.procs p with cwd := some root }).procs p =
      { k.procs p with cwd := some root } := by
    rw [hset]
    exact update_self ..
  have hfiled : Filed (k3.setProc p { k3.procs p with cwd := some root }) k.fds (root ::ₘ k.cwds) ∅ :=
    h3.filed.congr_procs rfl rfl
  have hbusy : Busy (k.setProc p { k.procs p with cwd := some root })
      (k.setProc p { k.procs p with cwd := some root }).fds
      (k.setProc p { k.procs p with cwd := some root }).cwds ∅
      (k3.setProc p { k3.procs p with cwd := some root }) := by
    refine ⟨hfiled.of_eq hfds.symm ?_, hset⟩
    rw [← singleton_add, add_comm]
    exact hcwds.symm.trans (add_zero _)
  apply hm _ (hbusy.counted (idle_setProc h.idle (idleWhenDead_of_used hused)))
  · rw [hself]
    exact hused
  · rw [hself]

theorem counts_initConsoles (h : Counted k) (hlt : p < nproc) (hused : (k.procs p).Used)
    (hofile : (k.procs p).ofile = fun _ => none) :
    Counts S k (do initConsole p 0; initConsole p 1; initConsole p 2) := by
  refine (counts_initConsole 0 (by decide) h hlt hused (by rw [hofile])).bind
    fun _ k1 ⟨h1, hused1, hkeep1⟩ => ?_
  have hnone1 : ∀ fd, fd ≠ 0 → (k1.procs p).ofile fd = none := by
    intro fd hfd
    rw [hkeep1 fd hfd, hofile]
  refine (counts_initConsole 1 (by decide) h1 hlt hused1 (hnone1 1 (by decide))).bind
    fun _ k2 ⟨h2, hused2, hkeep2⟩ => ?_
  have hnone2 : (k2.procs p).ofile 2 = none := by
    rw [hkeep2 2 (by decide)]
    exact hnone1 2 (by decide)
  exact (counts_initConsole 2 (by decide) h2 hlt hused2 hnone2).imp fun _ _ h3 => h3.1

/-- And so does the start of the first process. -/
theorem counts_init (program : List UInt8) (h : Counted k) : Counts S k (init program) := by
  refine Holds.bind (calm_allocPage.counts h) fun pt k1 h1 => ?_
  cases pt with
  | none => exact holds_stop stops_fault
  | some pt =>
    refine Holds.bind (counts_initLoad program pt h1) fun r k2 h2 => ?_
    refine Holds.bind ((calm_mapStack pt).counts h2) fun stack k3 h3 => ?_
    cases stack with
    | none => exact holds_stop stops_fault
    | some _ =>
      apply holds_step_bind
      rcases hal : k3.procAlloc with ⟨_ | p, k4⟩
      · exact holds_stop stops_fault
      obtain ⟨h4, hlt, -, hlinks, -⟩ := h3.procAlloc hal
      have hofile : (k4.procs p).ofile = fun _ => none := congrArg Prod.fst hlinks
      have hcwd : (k4.procs p).cwd = none := congrArg (fun l => l.2.1) hlinks
      apply holds_modify_bind
      dsimp only
      generalize hx : ({ k4.procs p with
        pagetable := pt, sz := r.2, tf := ⟨fun _ => 0, userStack, r.1, 0⟩,
        state := .runnable } : Proc) = x
      have hxused : x.Used := by
        rw [← hx]
        exact ⟨fun e => (by cases e), fun e => (by cases e)⟩
      have hself : (k4.setProc p x).procs p = x := update_self ..
      have h5 : Counted (k4.setProc p x) := by
        refine h4.setProc hlt ?_ ?_ (idleWhenDead_of_used hxused)
        · rw [← hx]
        · rw [← hx]
      have hget : Holds (onFs (Exec.step fun s => s.iget 0 rootino) (k4.setProc p x))
          (fun r k6 => Busy (k4.setProc p x) (k4.setProc p x).fds
            (found r + (k4.setProc p x).cwds) ∅ k6) (Stops S) := by
        apply onFs_busy (M := fun _ => ∅) h5.busy
        exact holds_step ((h5.filed.cache.iget 0 rootino).of_eq (add_left_comm _ _ _))
      refine hget.bind fun root k6 h6 => ?_
      cases root with
      | none => exact holds_stop stops_fault
      | some root =>
        have hcwd5 : ((k4.setProc p x).procs p).cwd = none := by
          rw [hself, ← hx]
          exact hcwd
        have hused5 : ((k4.setProc p x).procs p).Used := by
          rw [hself]
          exact hxused
        refine initCwd_spec h5 hlt hused5 hcwd5 h6 fun k' h' hused' hofile' => ?_
        apply counts_initConsoles h' hlt hused'
        rw [hofile', hself, ← hx]
        exact hofile

theorem cached_mount (sb : Superblock) (disk : Nat → Fs.Block) : Cached (mount sb disk) 0 ∅ := by
  have hnone : ∀ i : Nat, i ∉ (0 : Multiset Nat) := notMem_zero
  refine ⟨fun i => ?_, fun i => ?_, fun i hi => absurd hi (Finset.notMem_empty i),
    fun i hi => absurd hi (hnone i), fun i hi => absurd hi (hnone i)⟩
  · rw [count_zero]
    rfl
  · exact ⟨fun e => (by cases e), fun hi => absurd hi (Finset.notMem_empty i)⟩

theorem counted_powerOn (m : PhysMem) (pipes : Nat → Pipe) (sb : Superblock) (disk : Nat → Fs.Block)
    (initramfs : List UInt8 → Option Image) :
    Counted (powerOn m pipes (mount sb disk) initramfs) := by
  have hfds : (powerOn m pipes (mount sb disk) initramfs).fds = 0 :=
    Finset.sum_eq_zero fun _ _ => fds_idle ⟨fun _ _ => rfl, rfl⟩
  have hcwds : (powerOn m pipes (mount sb disk) initramfs).cwds = 0 :=
    Finset.sum_eq_zero fun _ _ => rfl
  have hinodes : (powerOn m pipes (mount sb disk) initramfs).fileInodes = 0 :=
    Finset.sum_eq_zero fun _ _ => rfl
  have hnone : ∀ i : Nat, i ∉ (0 : Multiset Nat) := notMem_zero
  refine ⟨?_, fun p => Or.inr ⟨fun _ _ => rfl, rfl⟩⟩
  rw [hfds, hcwds]
  refine ⟨fun f => ?_, fun f hf => absurd hf (hnone f), fun f i hi => (by cases hi), fun _ _ => rfl, ?_⟩
  · rw [count_zero]
    rfl
  · rw [hinodes, add_zero]
    exact cached_mount sb disk

/-- The counts are right in every reachable state. -/
theorem counted_reachable {b : Machine} {ok : Kern → Action → Prop} (h : b.Reachable ok k) :
    Counted k := by
  obtain ⟨k0, hboot, hreach⟩ := h
  have hstart : Counted k0 :=
    (counts_init (S := False) b.program (counted_powerOn _ _ _ _ _)).ok _ _ hboot
  exact hreach.invariant hstart fun _ _ _ h' _ hs => counted_step h' hs

end

/-! ## The counts -/

namespace Kern

/-- The descriptors that point at open file `f`. -/
def slotsOf (k : Kern) (f : Nat) : Finset (Nat × Nat) :=
  (Finset.range nproc ×ˢ Finset.range nofile).filter fun x => (k.procs x.1).ofile x.2 = some f

/-- The open files on inode `i`. -/
def filesOn (k : Kern) (i : Nat) : Finset Nat :=
  (Finset.range nfile).filter fun f => 0 < (k.files f).ref ∧ (k.files f).ip = some i

/-- The processes whose working directory is inode `i`. -/
def cwdsAt (k : Kern) (i : Nat) : Finset Nat :=
  (Finset.range nproc).filter fun p => (k.procs p).cwd = some i

/-- Open file `f` is the write end (or the read end) of the pipe in frame `pa`. -/
def isEnd (k : Kern) (f pa : Nat) (writable : Bool) : Prop :=
  0 < (k.files f).ref ∧ (k.files f).type = .pipe ∧ (k.files f).pipe = some pa ∧
    (k.files f).writable = writable ∧ (k.files f).readable = !writable

end Kern

section

variable {k : Kern}

theorem count_found (o : Option Nat) (i : Nat) : (found o).count i = if o = some i then 1 else 0 := by
  cases o with
  | none => rfl
  | some j =>
    show Multiset.count i {j} = _
    rw [count_singleton]
    simp only [Option.some.injEq, eq_comm]

theorem count_fds (f : Nat) : k.fds.count f = (k.slotsOf f).card := by
  unfold slotsOf fds Proc.fds
  rw [Finset.card_filter, Finset.sum_product, count_sum']
  apply Finset.sum_congr rfl
  intro p _
  rw [count_sum']
  exact Finset.sum_congr rfl fun fd _ => count_found _ _

theorem count_cwds (i : Nat) : k.cwds.count i = (k.cwdsAt i).card := by
  unfold cwdsAt cwds
  rw [Finset.card_filter, count_sum']
  exact Finset.sum_congr rfl fun p _ => count_found _ _

theorem count_fileInodes {D C : Multiset Nat} {L : Finset Nat} (h : Filed k D C L) (i : Nat) :
    k.fileInodes.count i = (k.filesOn i).card := by
  unfold filesOn fileInodes
  rw [Finset.card_filter, count_sum']
  apply Finset.sum_congr rfl
  intro f _
  rw [count_found]
  have hiff : (k.files f).ip = some i ↔ 0 < (k.files f).ref ∧ (k.files f).ip = some i := by
    refine ⟨fun hi => ⟨?_, hi⟩, fun hi => hi.2⟩
    have hmem : f ∈ D := by
      by_contra hnot
      rw [h.idle f hnot] at hi
      cases hi
    have hpos := h.ref_pos hmem
    omega
  simp only [← hiff]

theorem isEnd_iff (h : PipeEnds k) (f pa : Nat) (w : Bool) :
    k.isEnd f pa w ↔ (k.files f).target = some (pa, w) := by
  constructor
  · rintro ⟨-, htype, hpipe, hw, -⟩
    unfold File.target
    rw [htype, hpipe, hw]
    rfl
  intro ht
  have hpos := h.ref f _ ht
  have hside := h.side f
  unfold File.target at ht
  split at ht
  · rename_i htype
    rw [Option.map_eq_some_iff] at ht
    obtain ⟨pa', hpipe, he⟩ := ht
    injection he with hpa hw
    subst hpa hw
    exact ⟨hpos, htype, hpipe, rfl, hside htype⟩
  · cases ht

end

/-- Reference counts: after any sequence of calls by any processes, the count of an open file is the
number of descriptors that point at it, the count of an inode is the number of open files on it plus
the number of processes whose working directory it is, the flags of a pipe tell which of its ends are
open, and an inode has at most one entry in use. -/
theorem reference_counts {b : Machine} {k : Kern} (h : b.Reachable (fun _ _ => True) k) :
    (∀ f, (k.files f).ref = ((k.slotsOf f).card : Int)) ∧
      (∀ i, (k.fs.icache i).ref = ((k.filesOn i).card + (k.cwdsAt i).card : Int)) ∧
      (∀ pa, (∃ f w, k.isEnd f pa w) →
        ((k.pipes pa).readopen = true ↔ ∃ f, k.isEnd f pa false) ∧
        ((k.pipes pa).writeopen = true ↔ ∃ f, k.isEnd f pa true)) ∧
      ∀ i j, 0 < (k.fs.icache i).ref → 0 < (k.fs.icache j).ref →
        (k.fs.icache i).dev = (k.fs.icache j).dev → (k.fs.icache i).inum = (k.fs.icache j).inum →
          i = j := by
  have hcounted := counted_reachable h
  obtain ⟨k0, hboot, hreach⟩ := h
  have hends : PipeEnds k := by
    have howned : Owned ⟨b.managed, False⟩ k 0 b.kernelFrames :=
      hreach.invariant (owned_boot b False hboot) fun _ _ _ h' _ hs =>
        (owned_step (frameSet_managed b False) h' (fun hs' => hs'.elim) hs).1
    exact howned.ends
  refine ⟨fun f => ?_, fun i => ?_, fun pa hpa => ?_, fun i j hi hj => ?_⟩
  · rw [hcounted.filed.ref f, count_fds]
  · rw [hcounted.filed.cache.ref i, count_add, count_fileInodes hcounted.filed, count_cwds]
    rfl
  · obtain ⟨f, w, hf⟩ := hpa
    have hflag := fun w' => hends.flag f pa w w' ((isEnd_iff hends f pa w).1 hf)
    simp only [isEnd_iff hends]
    exact ⟨hflag false, hflag true⟩
  · exact hcounted.filed.cache.unique i (hcounted.filed.cache.ref_pos.1 hi) j
      (hcounted.filed.cache.ref_pos.1 hj)

/-- Nothing is held: between calls no inode is locked, whatever calls succeeded or failed, and a process
that has ended has neither descriptors nor a working directory. -/
theorem nothing_held {b : Machine} {k : Kern} (h : b.Reachable (fun _ _ => True) k) :
    (∀ i, (k.fs.icache i).locked = false) ∧
      ∀ p, (k.procs p).state = .unused ∨ (k.procs p).state = .zombie → (k.procs p).Idle := by
  obtain ⟨hfiled, hdead⟩ := counted_reachable h
  refine ⟨fun i => ?_, fun p hp => (hdead p).resolve_left fun hused => hp.elim hused.1 hused.2⟩
  exact eq_false_of_ne_true fun hl => absurd ((hfiled.cache.locked i).1 hl) (Finset.notMem_empty i)

end Slopix.Kernel
