import Slopix.Kernel.RefRuns

/-!
# Where a call locks an inode twice

`LockSafe` names three places where a call locks a second inode below a locked directory. Here is the
other direction: a call that comes to such a place with the directory itself as the second inode does
stop there, waiting for itself. So `LockSafe` is the exact condition for a call to lock well.
-/

namespace Slopix.Kernel

open Lib Mm Fs Ipc Exec

/-- A call never waits for a lock that it holds itself, and holds no lock when it returns. -/
def LocksWell (k : Kern) (p : Nat) (c : Call) : Prop :=
  (∀ i, syscall p c k ≠ .error (.deadlock i)) ∧
    ∀ r k', syscall p c k = .ok (r, k') → ∀ i, (k'.fs.icache i).locked = false

section

variable {s s1 s2 : FileSys} {B : Multiset Nat} {L : Finset Nat} {i dp : Nat} {cwd : Option Nat}

theorem ilock_locked (h : Cached s B L) (hi : i ∈ L) : ilock i s = .error (.deadlock i) := by
  have hpos := h.ref_pos.2 (h.held i hi)
  have hlock := (h.locked i).2 hi
  unfold ilock
  rw [bind_ok (b := s.icache i) (t := s) rfl, if_neg (by omega), if_pos hlock]
  rfl

theorem parent_locked {path : List UInt8} {name : Name} (h : Cached s B ∅)
    (hcwd : ∀ i, cwd = some i → i ∈ B) (hrun : nameiparent cwd path s = .ok (some (dp, name), s1))
    (hlock : ilock dp s1 = .ok ((), s2)) : Cached s2 (dp ::ₘ B) {dp} :=
  (ilock_first (S := False) ((nameiparent_spec (S := False) path h hcwd).ok _ _ hrun)).ok _ _ hlock

theorem unlink_deadlock {path : List UInt8} (h : Cached s B ∅) (hcwd : ∀ i, cwd = some i → i ∈ B)
    (hrisky : ¬ UnlinkSafe cwd path s) : ∃ i, unlink cwd path s = .error (.deadlock i) := by
  unfold UnlinkSafe at hrisky
  push Not at hrisky
  obtain ⟨dp, name, s1, s2, hrun, hlock, hdot, hdotdot, hself⟩ := hrisky
  have hlook := (parent_locked h hcwd hrun hlock).dirlookup dp name
  refine ⟨dp, ?_⟩
  unfold unlink
  rw [bind_ok hrun]
  dsimp only
  rw [bind_ok hlock, if_neg (by rintro (e | e); exact hdot e; exact hdotdot e),
    bind_ok (b := (s2.dirlookup dp name).1) (t := (s2.dirlookup dp name).2) rfl]
  simp only [hself]
  exact bind_error (ilock_locked hlook (Finset.mem_singleton_self dp))

theorem rename_deadlock {old new : List UInt8} (h : Cached s B ∅)
    (hcwd : ∀ i, cwd = some i → i ∈ B) (hrisky : ¬ RenameSafe cwd old new s) :
    ∃ i, rename cwd old new s = .error (.deadlock i) := by
  unfold RenameSafe at hrisky
  push Not at hrisky
  obtain ⟨ip, isDir, dp, name, s1, s2, hrun, hlock, hself⟩ := hrisky
  have h1 : Cached s1 (dp ::ₘ ip ::ₘ B) ∅ :=
    (renameParents_spec (S := False) old new h hcwd).ok _ _ hrun
  have hlook := ((ilock_first (S := False) h1).ok _ _ hlock).dirlookup dp name
  refine ⟨dp, ?_⟩
  unfold rename
  rw [bind_ok hrun]
  dsimp only
  unfold renameMove
  rw [bind_ok (b := (s1.icache dp).inum) (t := s1) rfl, bind_ok hlock]
  apply bind_error
  unfold renameReplace
  rw [bind_ok (b := (s2.dirlookup dp name).1) (t := (s2.dirlookup dp name).2) rfl]
  simp only [hself]
  exact bind_error (ilock_locked hlook (Finset.mem_singleton_self dp))

theorem create_deadlock {path : List UInt8} {type : Nat} (major minor : Nat) (h : Cached s B ∅)
    (hcwd : ∀ i, cwd = some i → i ∈ B) (hrisky : ¬ CreateSafe cwd path type s) :
    ∃ i, create cwd path type major minor s = .error (.deadlock i) := by
  unfold CreateSafe at hrisky
  push Not at hrisky
  obtain ⟨dp, name, s1, s2, hrun, hlock, hnone, hself⟩ := hrisky
  have hlook := (parent_locked h hcwd hrun hlock).dirlookup dp name
  have halloc := hlook.ialloc ((s2.dirlookup dp name).2.icache dp).dev type
  refine ⟨dp, ?_⟩
  unfold create
  rw [bind_ok hrun]
  dsimp only
  rw [bind_ok hlock, bind_ok (b := (s2.dirlookup dp name).1) (t := (s2.dirlookup dp name).2) rfl]
  simp only [hnone]
  generalize (s2.dirlookup dp name).2 = s3 at hself halloc
  unfold createNew
  rw [bind_ok (b := (s3.icache dp).dev) (t := s3) rfl,
    bind_ok (b := (s3.ialloc (s3.icache dp).dev type).1)
      (t := (s3.ialloc (s3.icache dp).dev type).2) rfl]
  simp only [hself]
  exact bind_error (ilock_locked halloc (Finset.mem_singleton_self dp))

end

section

variable {k : Kern} {p : Nat}

theorem onFs_error {α β : Type} {m : FsM α} {f : α → KM β} {e : Stop} (h : m k.fs = .error e) :
    (onFs m >>= f) k = .error e :=
  bind_error (zoom_error h)

theorem syscall_deadlock {c : Call} (h : Counted k) (hp : k.alive p) (hrisky : ¬ LockSafe k p c) :
    ∃ i, syscall p c k = .error (.deadlock i) := by
  have hcwd : ∀ i, (k.procs p).cwd = some i → i ∈ k.fileInodes + k.cwds :=
    fun i hi => Multiset.mem_add.2 (Or.inr (cwd_mem hp i hi))
  unfold LockSafe at hrisky
  split at hrisky
  case h_1 path flags =>
      push Not at hrisky
      obtain ⟨s1, hrun, hcreat, hrisky⟩ := hrisky
      have h1 : Cached s1 (k.fileInodes + k.cwds) ∅ :=
        ((namei_spec (S := False) path h.filed.cache hcwd).ok _ _ hrun).of_eq (zero_add _)
      obtain ⟨i, hi⟩ := create_deadlock 0 0 h1 hcwd hrisky
      refine ⟨i, ?_⟩
      apply onFs_error
      unfold openInode
      rw [bind_ok hrun]
      rw [if_pos hcreat]
      exact bind_error hi
  case h_2 path =>
      obtain ⟨i, hi⟩ := create_deadlock 0 0 h.filed.cache hcwd hrisky
      refine ⟨i, ?_⟩
      exact onFs_error hi
  case h_3 path major minor =>
      obtain ⟨i, hi⟩ := create_deadlock (major % 65536) (minor % 65536) h.filed.cache hcwd hrisky
      refine ⟨i, ?_⟩
      exact onFs_error hi
  case h_4 path =>
      obtain ⟨i, hi⟩ := unlink_deadlock h.filed.cache hcwd hrisky
      refine ⟨i, ?_⟩
      exact zoom_error hi
  case h_5 old new =>
      obtain ⟨i, hi⟩ := rename_deadlock h.filed.cache hcwd hrisky
      refine ⟨i, ?_⟩
      exact zoom_error hi
  case h_6 => exact absurd trivial hrisky

/-- Locks: in every state of every run, a call of a live process locks well if and only if it does not
come to one of the three places with the locked directory itself as the second inode. -/
theorem locks_well_iff {b : Machine} (h : b.Reachable (fun _ _ => True) k) (hp : k.alive p)
    (c : Call) : LocksWell k p c ↔ LockSafe k p c := by
  have hcounted := counted_reachable h
  constructor
  · intro hwell
    by_contra hrisky
    obtain ⟨i, hi⟩ := syscall_deadlock hcounted hp hrisky
    exact hwell.1 i hi
  intro hsafe
  have hcall := counts_syscall (S := True) c hcounted hp fun _ => hsafe
  refine ⟨fun i hi => hcall.error _ hi trivial i rfl, fun r k' hret i => ?_⟩
  have hcache := (hcall.ok r k' hret).filed.cache
  by_contra hlocked
  rw [Bool.not_eq_false] at hlocked
  exact Finset.notMem_empty i ((hcache.locked i).1 hlocked)

end

theorem rename_root_dot : rename (some 0) [47] [47, 46] (rootFs smallMachine.sb smallMachine.disk) =
    .error (.deadlock 0) := by
  have hstop : (match rename (some 0) [47] [47, 46] (rootFs smallMachine.sb smallMachine.disk) with
      | .ok _ => none
      | .error e => some e) = some (Stop.deadlock 0) := by decide +kernel
  split at hstop
  · cases hstop
  · rename_i e he
    rw [he, Option.some.inj hstop]

theorem small_alive {k : Kern} {s brk : Nat} (h : smallMachine.Started s brk k) : k.alive 0 := by
  unfold Kern.alive
  rw [h.state]
  decide

theorem small_rename_deadlock {k : Kern} {s brk : Nat} (h : smallMachine.Started s brk k) :
    syscall 0 (.rename (some [47]) (some [47, 46])) k = .error (.deadlock 0) := by
  show sysRename 0 (some [47]) (some [47, 46]) k = _
  unfold sysRename
  dsimp only
  rw [getProc, bind_ok (b := k.procs 0) rfl, h.cwd]
  apply zoom_error
  rw [h.fs]
  exact rename_root_dot

theorem small_unlink_safe {k : Kern} {s brk : Nat} (h : smallMachine.Started s brk k) :
    LockSafe k 0 (.unlink (some [47, 97])) := by
  have hlook : ((nameiparent (some 0) [47, 97] (rootFs smallMachine.sb smallMachine.disk)).toOption.bind fun r =>
      r.1.bind fun e => (ilock e.1 r.2).toOption.bind fun l => (l.2.dirlookup e.1 e.2).1.1) = none := by
    decide +kernel
  intro dp name s1 s2 hrun hlock _ _
  rw [h.cwd, h.fs] at hrun
  rw [hrun] at hlook
  change ((ilock dp s1).toOption.bind fun l => (l.2.dirlookup dp name).1.1) = none at hlook
  rw [hlock] at hlook
  change (s2.dirlookup dp name).1.1 = none at hlook
  rw [hlook]
  nofun

/-- `unlink("/a")` locks well, and `rename("/", "/.")` is not lock safe. -/
theorem locks_well_iff_small : ∃ k, smallMachine.Reachable (fun _ _ => True) k ∧ k.alive 0 ∧
    LocksWell k 0 (.unlink (some [47, 97])) ∧ ¬ LockSafe k 0 (.rename (some [47]) (some [47, 46])) := by
  obtain ⟨k, hboot, hstart⟩ := boot_bare smallMachine_bare
  have h : smallMachine.Reachable (fun _ _ => True) k := ⟨k, hboot, Reach.start⟩
  refine ⟨k, h, small_alive hstart, (locks_well_iff h (small_alive hstart) _).2 (small_unlink_safe hstart), fun hsafe => ?_⟩
  exact ((locks_well_iff h (small_alive hstart) _).2 hsafe).1 0 (small_rename_deadlock hstart)

/-- A call that waits for itself. -/
theorem locks_not_well : ¬ ∀ (b : Machine) (k : Kern) (p : Nat) (c : Call),
    b.Reachable (fun _ _ => True) k → k.alive p → LocksWell k p c := by
  intro hall
  obtain ⟨k, hboot, hstart⟩ := boot_bare smallMachine_bare
  exact (hall smallMachine k 0 _ ⟨k, hboot, Reach.start⟩ (small_alive hstart)).1 0
    (small_rename_deadlock hstart)

end Slopix.Kernel
