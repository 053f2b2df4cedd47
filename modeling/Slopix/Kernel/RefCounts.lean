import Slopix.Kernel.Calm

/-!
# Reference counts in calls on descriptors

`Busy` follows a call through the file system and the file table. Every call on a descriptor keeps
`Counted`, on success and on every error path.
-/

namespace Slopix.Kernel

open Lib Mm Fs Ipc Multiset Function Kern

/-- In the middle of a call that has changed no process since `k`. -/
structure Busy (k : Kern) (D C : Multiset Nat) (L : Finset Nat) (k' : Kern) : Prop where
  filed : Filed k' D C L
  procs : k'.procs = k.procs

/-- What a whole call keeps. -/
def Counts {α : Type} (S : Prop) (k : Kern) (m : KM α) : Prop :=
  Holds (m k) (fun _ k' => Counted k') (Stops S)

section

variable {k k1 k2 : Kern} {D C : Multiset Nat} {L : Finset Nat} {f i p : Nat} {S : Prop} {α : Type}

/-- Only the files and the inodes matter. -/
theorem Filed.congr_procs {l : Kern} (h : Filed k D C L) (hfiles : l.files = k.files) (hfs : l.fs = k.fs) :
    Filed l D C L := by
  apply h.congr_cache hfiles
  rw [hfs]
  exact h.cache

theorem Counted.busy (h : Counted k) : Busy k k.fds k.cwds ∅ k := ⟨h.filed, rfl⟩

theorem Busy.counted (h : Busy k k.fds k.cwds ∅ k1) (hidle : ∀ p, (k.procs p).IdleWhenDead) :
    Counted k1 := by
  have hfds : k1.fds = k.fds := by
    unfold fds
    rw [h.procs]
  have hcwds : k1.cwds = k.cwds := by
    unfold cwds
    rw [h.procs]
  constructor
  · rw [hfds, hcwds]
    exact h.filed
  · rw [h.procs]
    exact hidle

theorem Busy.of_eq {D' C' : Multiset Nat} (h : Busy k D C L k1) (hD : D = D') (hC : C = C') :
    Busy k D' C' L k1 :=
  ⟨h.filed.of_eq hD hC, h.procs⟩

theorem Calm.run {m : KM α} (hm : Calm m) (k : Kern) :
    Holds (m k) (fun _ k' => SameLinks k k') (Stops S) :=
  (hm k).mono (fun _ _ hs => hs) fun _ he _ => he

theorem Calm.counts {m : KM α} (hm : Calm m) (h : Counted k) : Counts S k m :=
  (hm.run k).imp fun _ _ hs => h.congr hs

/-! ## File system programs -/

/-- A file system program that changes the further references from `C` to `C'`. -/
theorem onFs_busy {m : FsM α} {E : α → Multiset Nat} {M : α → Finset Nat} (h : Busy k D C L k1)
    (hm : Holds (m k1.fs) (fun a s => Cached s (k1.fileInodes + E a) (M a)) (Stops S)) :
    Holds (onFs m k1) (fun a k2 => Busy k D (E a) (M a) k2) (Stops S) := by
  apply holds_zoom
  exact hm.imp fun a s hs => ⟨h.filed.congr_cache (l := k1.withFs s) rfl hs, h.procs⟩

/-- A file system program that leaves the references as they are. -/
theorem onFs_keep {m : FsM α} (h : Busy k D C ∅ k1)
    (hm : ∀ B, Cached k1.fs B ∅ → (∀ i ∈ C, i ∈ B) →
      Holds (m k1.fs) (fun _ s => Cached s B ∅) (Stops S)) :
    Holds (onFs m k1) (fun _ k2 => Busy k D C ∅ k2) (Stops S) :=
  onFs_busy (E := fun _ => C) (M := fun _ => ∅) h
    (hm _ h.filed.cache fun _ hi => mem_add.2 (Or.inr hi))

theorem onFs_step {g : FileSys → α × FileSys} (h : Busy k D C L k1) (hg : SameTags k1.fs (g k1.fs).2) :
    Holds (onFs (Exec.step g) k1) (fun _ k2 => Busy k D C L k2) (Stops S) :=
  onFs_busy (E := fun _ => C) (M := fun _ => L) h (holds_step (h.filed.cache.congr hg))

theorem onFs_modify {g : FileSys → FileSys} (h : Busy k D C L k1) (hg : SameTags k1.fs (g k1.fs)) :
    Holds (onFs (Exec.modify g) k1) (fun _ k2 => Busy k D C L k2) (Stops S) :=
  onFs_busy (E := fun _ => C) (M := fun _ => L) h (holds_modify (h.filed.cache.congr hg))

theorem onFs_namei {cwd : Option Nat} (path : List UInt8) (h : Busy k D C ∅ k1)
    (hcwd : ∀ i, cwd = some i → i ∈ C) :
    Holds (onFs (namei cwd path) k1) (fun r k2 => Busy k D (found r + C) ∅ k2) (Stops S) := by
  apply onFs_busy (M := fun _ => ∅) h
  have hnamei := namei_spec (S := S) path h.filed.cache fun i e =>
    mem_add.2 (Or.inr (hcwd i e))
  exact hnamei.imp fun r s hs => hs.of_eq (add_left_comm _ _ _)

/-- `fs_ilock` of a referenced inode when nothing is locked. -/
theorem onFs_ilock (h : Busy k D C ∅ k1) (hi : i ∈ k1.fileInodes + C) :
    Holds (onFs (ilock i) k1) (fun _ k2 => Busy k D C {i} k2) (Stops S) := by
  apply onFs_busy (E := fun _ => C) (M := fun _ => {i}) h
  refine (ilock_spec h.filed.cache hi fun _ => Finset.notMem_empty i).imp fun _ s hs => ?_
  exact hs.1

theorem onFs_iunlock (h : Busy k D C {i} k1) :
    Holds (onFs (Fs.iunlock i) k1) (fun _ k2 => Busy k D C ∅ k2) (Stops S) := by
  apply onFs_busy (E := fun _ => C) (M := fun _ => ∅) h
  apply holds_modify
  have hheld := h.filed.cache.held i (Finset.mem_singleton_self i)
  have hs := h.filed.cache.iunlock hheld
  rw [Finset.erase_singleton] at hs
  exact hs

theorem onFs_iput (h : Busy k D (i ::ₘ C) ∅ k1) :
    Holds (onFs (iput i) k1) (fun _ k2 => Busy k D C ∅ k2) (Stops S) := by
  apply onFs_busy (E := fun _ => C) (M := fun _ => ∅) h
  exact iput_last (h.filed.cache.of_eq (add_cons ..))

theorem onFs_iunlockput (h : Busy k D (i ::ₘ C) {i} k1) :
    Holds (onFs (iunlockput i) k1) (fun _ k2 => Busy k D C ∅ k2) (Stops S) := by
  apply onFs_busy (E := fun _ => C) (M := fun _ => ∅) h
  exact iunlockput_last (h.filed.cache.of_eq (add_cons ..))

/-! ## Open files -/

theorem mem_fileInodes (hf : f < nfile) (hi : (k.files f).ip = some i) : i ∈ k.fileInodes := by
  apply mem_of_le (le_sum_range (f := fun f => found (k.files f).ip) hf)
  rw [hi]
  exact mem_singleton_self i

theorem Filed.mem_inode (h : Filed k D C L) (hf : f ∈ D) (hi : (k.files f).ip = some i) :
    i ∈ k.fileInodes + C :=
  mem_add.2 (Or.inl (mem_fileInodes (h.bound f hf) hi))

/-- Fields of an open file that no reference depends on. -/
theorem modifyFile_busy {g : File → File} (h : Busy k D C L k1)
    (hg : ∀ x, (g x).ip = x.ip ∧ (g x).type = x.type ∧ (g x).ref = x.ref) :
    Holds (modifyFile f g k1) (fun _ k2 => Busy k D C L k2) (Stops S) :=
  holds_modify ⟨h.filed.setFile_quiet (hg _).1 (hg _).2.1 (hg _).2.2, h.procs⟩

/-- The end of `fileclose`: the inode that the file had is dropped. -/
theorem closeTarget_busy {x : File} (h : Busy k D (found x.ip + C) ∅ k1)
    (hkind : ∀ i, x.ip = some i → x.type ≠ .none ∧ x.type ≠ .pipe) :
    Holds (closeTarget x k1) (fun _ k2 => Busy k D C ∅ k2) (Stops S) := by
  have hnone : x.ip = none → Busy k D C ∅ k1 := by
    intro e
    rw [e] at h
    exact h.of_eq rfl (zero_add C)
  cases hip : x.ip with
  | none =>
    unfold closeTarget
    rw [hip]
    cases x.type with
    | none => exact holds_pure (hnone hip)
    | pipe => cases x.pipe with
      | none => exact holds_stop stops_fault
      | some pa =>
        have hplain := hnone hip
        refine holds_modify ⟨?_, (closePipe_procs _ _ _).trans hplain.procs⟩
        apply hplain.filed.congr_procs (closePipe_files _ _ _)
        unfold closePipe
        dsimp only
        split <;> rfl
    | inode => exact holds_pure (hnone hip)
    | device => exact holds_pure (hnone hip)
    | bdevice => exact holds_pure (hnone hip)
  | some i =>
    obtain ⟨htype, hpipe⟩ := hkind i hip
    have hput : Holds (onFs (iput i) k1) (fun _ k2 => Busy k D C ∅ k2) (Stops S) := by
      rw [hip] at h
      exact onFs_iput h
    unfold closeTarget
    rw [hip]
    cases ht : x.type with
    | none => exact absurd ht htype
    | pipe => exact absurd ht hpipe
    | inode => exact hput
    | device => exact hput
    | bdevice => exact hput

theorem fileclose_busy (h : Busy k (f ::ₘ D) C ∅ k1) :
    Holds (fileclose f k1) (fun _ k2 => Busy k D C ∅ k2) (Stops S) := by
  have href := h.filed.ref f
  rw [count_cons_self] at href
  apply holds_gets_bind
  refine holds_ite (fun hlt => by omega) fun _ => holds_ite (fun hmore => ?_) fun hlast => ?_
  · refine holds_modify ⟨?_, h.procs⟩
    apply h.filed.setRef
    · rfl
    · rfl
    · show (k1.files f).ref - 1 = _
      omega
    · exact fun g hg => (count_cons_of_ne hg D).symm
    · exact fun hf => h.filed.bound f (mem_cons_of_mem hf)
    · intro hnot
      rw [count_eq_zero_of_notMem hnot] at href
      omega
  apply holds_modify_bind
  have hclosed : ∀ x : File, x.ip = none → x.ref = (k1.files f).ref - 1 →
      Busy k D (found (k1.files f).ip + C) ∅ (k1.setFile f x) := by
    intro x hip hxref
    refine ⟨h.filed.setFile_closed ?_ hip ?_, h.procs⟩
    · omega
    · omega
  exact closeTarget_busy (hclosed _ rfl rfl) (h.filed.kind f)

end

/-! ## Calls on descriptors -/

/-- A call that holds the files `F` besides the descriptors. -/
structure Holding (k : Kern) (F : Multiset Nat) : Prop where
  filed : Filed k (F + k.fds) k.cwds ∅
  idle : ∀ p, (k.procs p).IdleWhenDead

section

variable {k k1 : Kern} {F : Multiset Nat} {f i p fd : Nat} {S : Prop} {v : Option Nat}

theorem Counted.holding (h : Counted k) : Holding k 0 :=
  ⟨h.filed.of_eq (zero_add _).symm rfl, h.idle⟩

theorem Holding.counted (h : Holding k 0) : Counted k := ⟨h.filed.of_eq (zero_add _) rfl, h.idle⟩

theorem Holding.busy (h : Holding k F) : Busy k (F + k.fds) k.cwds ∅ k := ⟨h.filed, rfl⟩

theorem Busy.holding (h : Busy k (F + k.fds) k.cwds ∅ k1) (hidle : ∀ p, (k.procs p).IdleWhenDead) :
    Holding k1 F := by
  have hfds : k1.fds = k.fds := by
    unfold fds
    rw [h.procs]
  have hcwds : k1.cwds = k.cwds := by
    unfold cwds
    rw [h.procs]
  constructor
  · rw [hfds, hcwds]
    exact h.filed
  · rw [h.procs]
    exact hidle

theorem idle_setProc {x : Proc} (h : ∀ q, (k.procs q).IdleWhenDead) (hx : x.IdleWhenDead) (q : Nat) :
    ((k.setProc p x).procs q).IdleWhenDead := by
  unfold setProc
  simp only [update_apply]
  split
  · exact hx
  · exact h q

/-- A descriptor gives up the file it points at and takes one over from the call. -/
theorem Holding.setOfile (h : Holding k (found v + F)) (hlt : p < nproc)
    (hused : (k.procs p).Used) (hfd : fd < nofile) :
    Holding (k.setOfile p fd v) (found ((k.procs p).ofile fd) + F) := by
  constructor
  · have hfiled : Filed (k.setOfile p fd v) (found v + F + k.fds) k.cwds ∅ :=
      h.filed.congr_procs rfl rfl
    refine hfiled.of_eq ?_ (cwds_setOfile hlt fd v).symm
    have hfds := fds_setOfile (k := k) hlt hfd v
    calc
      found v + F + k.fds = F + (k.fds + found v) := by abel
      _ = found ((k.procs p).ofile fd) + F + (k.setOfile p fd v).fds := by rw [← hfds]; abel
  · exact idle_setProc h.idle (idleWhenDead_of_used hused)

/-- `fileclose` gives up one reference. -/
theorem Holding.fileclose (h : Holding k (f ::ₘ F)) :
    Holds (fileclose f k) (fun _ k' => Holding k' F ∧ k'.procs = k.procs) (Stops S) := by
  have hbusy : Busy k (f ::ₘ (F + k.fds)) k.cwds ∅ k := h.busy.of_eq (cons_add ..) rfl
  exact (fileclose_busy hbusy).imp fun _ _ h' => ⟨h'.holding h.idle, h'.procs⟩

theorem fdalloc_spec (p : Nat) (k : Kern) (f : Nat) :
    (∃ fd, fd < nofile ∧ (k.procs p).ofile fd = none ∧
      k.fdalloc p f = (some fd, k.setOfile p fd (some f))) ∨ k.fdalloc p f = (none, k) := by
  unfold fdalloc
  cases hfind : (List.range nofile).find? fun fd => ((k.procs p).ofile fd).isNone with
  | none => exact Or.inr rfl
  | some fd =>
    have hfree := List.find?_some hfind
    exact Or.inl ⟨fd, List.mem_range.1 (List.mem_of_find?_eq_some hfind),
      Option.isNone_iff_eq_none.1 hfree, rfl⟩

theorem fdFile_spec {f : Nat} (h : (if fd < nofile then (k.procs p).ofile fd else none) =
    some f) : fd < nofile ∧ (k.procs p).ofile fd = some f := by
  split at h
  · rename_i hlt
    exact ⟨hlt, h⟩
  · cases h

theorem counts_fdFile {α : Type} {e : α} {g : Nat → KM α} (fd : Nat) (h : Counted k)
    (hg : ∀ f, fd < nofile → (k.procs p).ofile fd = some f → Counts S k (g f)) :
    Counts S k (do
      let f ← fdFile p fd
      match f with
      | none => pure e
      | some f => g f) := by
  apply holds_gets_bind
  cases hf : (if fd < nofile then (k.procs p).ofile fd else none) with
  | none => exact holds_pure h
  | some f => exact hg f (fdFile_spec hf).1 (fdFile_spec hf).2

theorem counts_sysClose (fd : Nat) (h : Counted k) (hp : k.alive p) :
    Counts S k (sysClose p fd) := by
  obtain ⟨hlt, hused⟩ := alive_used hp
  refine counts_fdFile fd h fun f hfd hf => ?_
  apply holds_modify_bind
  have hgive := Holding.setOfile (v := none) (F := 0) (h.holding) hlt hused hfd
  rw [hf] at hgive
  exact (Holding.fileclose hgive).bind fun _ _ h' => holds_pure h'.1.counted

theorem counts_sysDup (fd : Nat) (h : Counted k) (hp : k.alive p) : Counts S k (sysDup p fd) := by
  obtain ⟨hlt, hused⟩ := alive_used hp
  refine counts_fdFile fd h fun f hfd hf => ?_
  apply holds_step_bind
  have hmem : f ∈ k.fds := mem_fds hlt hfd hf
  rcases fdalloc_spec p k f with ⟨newfd, hnew, hnone, hres⟩ | hres
  · rw [hres]
    apply holds_step_bind
    apply holds_pure
    -- the descriptor first, then the count
    have hfiled : Filed (k.setOfile p newfd (some f)) k.fds k.cwds ∅ :=
      h.filed.congr_procs rfl rfl
    obtain ⟨-, hdup, hprocs⟩ := hfiled.filedup hmem
    have hfds := fds_setOfile (k := k) hlt hnew (some f)
    rw [hnone] at hfds
    have hbusy : Busy (k.setOfile p newfd (some f)) (k.setOfile p newfd (some f)).fds
        (k.setOfile p newfd (some f)).cwds ∅ ((k.setOfile p newfd (some f)).filedup f).2 := by
      refine ⟨hdup.of_eq ?_ (cwds_setOfile hlt newfd _).symm, hprocs⟩
      rw [← singleton_add, add_comm]
      exact hfds.symm.trans (add_zero _)
    exact hbusy.counted (idle_setProc h.idle (idleWhenDead_of_used hused))
  · rw [hres]
    exact holds_pure h

theorem allocPage_mm (k : Kern) :
    Holds (allocPage k) (fun _ k' => ∃ m, k' = k.withMm m) (Stops S) := holds_step ⟨_, rfl⟩

theorem Filed.initPipe {D C : Multiset Nat} {L : Finset Nat} {pa f0 f1 : Nat} (h : Filed k D C L)
    (hne : f0 ≠ f1) (h0 : (k.files f0).ip = none) (h1 : (k.files f1).ip = none) :
    Filed (k.initPipe pa f0 f1) D C L := by
  apply Filed.setFile_plain
  · apply Filed.setFile_plain
    · exact h.congr_procs rfl rfl
    · exact h0
    · exact h0
    · rfl
  · unfold setFile
    simp only [update_of_ne hne.symm]
    exact h1
  · unfold setFile
    simp only [update_of_ne hne.symm]
    exact h1
  · rfl

/-- Two new references, or none. -/
theorem pipealloc_spec (h : Holding k F) :
    Holds (pipealloc k) (fun r k' => (match r with
      | none => Holding k' F
      | some (f0, f1) => Holding k' (f0 ::ₘ f1 ::ₘ F)) ∧ k'.procs = k.procs) (Stops S) := by
  apply holds_step_bind
  rcases hal0 : k.filealloc with ⟨_ | f0, k1⟩
  · obtain ⟨h₁, hprocs⟩ := h.filed.filealloc_none hal0
    exact holds_pure ⟨Busy.holding ⟨h₁, hprocs⟩ h.idle, hprocs⟩
  obtain ⟨h₁, hnew0, hprocs1⟩ := h.filed.filealloc hal0
  have hold1 : Holding k1 (f0 ::ₘ F) :=
    Busy.holding ⟨h₁.of_eq (cons_add ..).symm rfl, hprocs1⟩ h.idle
  apply holds_step_bind
  rcases hal1 : k1.filealloc with ⟨_ | f1, k2⟩
  · obtain ⟨h2, hprocs2⟩ := hold1.filed.filealloc_none hal1
    have hold2 : Holding k2 (f0 ::ₘ F) := Busy.holding ⟨h2, hprocs2⟩ hold1.idle
    refine (Holding.fileclose hold2).bind fun _ k3 h3 => holds_pure ⟨h3.1, ?_⟩
    exact h3.2.trans (hprocs2.trans hprocs1)
  obtain ⟨h2, hnew1, hprocs2⟩ := hold1.filed.filealloc hal1
  have hold2 : Holding k2 (f1 ::ₘ f0 ::ₘ F) :=
    Busy.holding ⟨h2.of_eq (cons_add ..).symm rfl, hprocs2⟩ hold1.idle
  obtain ⟨-, href1, hk2⟩ := filealloc_spec hal1
  have hne : f0 ≠ f1 := by
    rintro rfl
    rw [hnew0] at href1
    cases href1
  have hnew0' : k2.files f0 = newFile := by
    rw [hk2, ← hnew0]
    exact update_of_ne hne ..
  refine (allocPage_mm k2).bind fun pa k3 ⟨m, hk3⟩ => ?_
  subst hk3
  have hold3 : Holding (k2.withMm m) (f0 ::ₘ f1 ::ₘ F) := by
    rw [cons_swap]
    exact ⟨hold2.filed.congr_procs rfl rfl, hold2.idle⟩
  have hprocs3 : (k2.withMm m).procs = k.procs := hprocs2.trans hprocs1
  cases pa with
  | none =>
    refine (Holding.fileclose hold3).bind fun _ k4 h4 => ?_
    refine (Holding.fileclose h4.1).bind fun _ k5 h5 => holds_pure ⟨h5.1, ?_⟩
    exact h5.2.trans (h4.2.trans hprocs3)
  | some pa =>
    apply holds_modify_bind
    apply holds_pure
    refine ⟨⟨?_, hold3.idle⟩, hprocs3⟩
    have hip0 : ((k2.withMm m).files f0).ip = none := by
      show (k2.files f0).ip = none
      rw [hnew0']
      rfl
    have hip1 : ((k2.withMm m).files f1).ip = none := by
      show (k2.files f1).ip = none
      rw [hnew1]
      rfl
    exact hold3.filed.initPipe hne hip0 hip1

/-- `pipe` keeps the counts. -/
theorem counts_sysPipe (ok : Bool) (h : Counted k) (hp : k.alive p) :
    Counts S k (sysPipe p ok) := by
  refine holds_ite (fun _ => holds_pure h) fun _ => ?_
  refine (pipealloc_spec h.holding).bind fun r k1 ⟨h₁, hprocs1⟩ => ?_
  obtain ⟨hlt, hused⟩ := alive_used hp
  have hused1 : (k1.procs p).Used := by
    rw [hprocs1]
    exact hused
  match r with
  | none => exact holds_pure (Holding.counted h₁)
  | some (rf, wf) =>
    -- the error paths: both ends are closed
    have hclose : ∀ k2, Holding k2 (rf ::ₘ wf ::ₘ 0) →
        Holds ((do
          fileclose rf
          fileclose wf
          fail .enomem : KM Int) k2) (fun _ k' => Counted k') (Stops S) := by
      intro k2 h2
      refine (Holding.fileclose h2).bind fun _ k3 h3 => ?_
      exact (Holding.fileclose h3.1).bind fun _ k4 h4 => holds_pure h4.1.counted
    apply holds_step_bind
    rcases fdalloc_spec p k1 rf with ⟨fd0, hfd0, hnone0, hres0⟩ | hres0
    · rw [hres0]
      have h2 := Holding.setOfile (v := some rf) (F := {wf}) h₁ hlt hused1 hfd0
      rw [hnone0] at h2
      generalize hk2 : k1.setOfile p fd0 (some rf) = k2 at h2
      have hused2 : (k2.procs p).Used := by
        rw [← hk2]
        unfold setOfile setProc
        simp only [update_self]
        exact hused1
      have hofile : (k2.procs p).ofile fd0 = some rf := by
        rw [← hk2]
        unfold setOfile setProc
        simp only [update_self]
      apply holds_step_bind
      rcases fdalloc_spec p k2 wf with ⟨fd1, hfd1, hnone1, hres1⟩ | hres1
      · rw [hres1]
        have h3 := Holding.setOfile (v := some wf) (F := 0) h2 hlt hused2 hfd1
        rw [hnone1] at h3
        exact holds_pure (Holding.counted h3)
      rw [hres1]
      apply holds_modify_bind
      have h3 := Holding.setOfile (v := none) (F := {wf}) h2 hlt hused2 hfd0
      rw [hofile] at h3
      exact hclose _ h3
    · rw [hres0]
      exact hclose k1 h₁

/-! ## Reading and writing -/

theorem Counted.of_busy (h : Counted k) (h₁ : Busy k k.fds k.cwds ∅ k1) : Counted k1 :=
  h₁.counted h.idle

theorem setOff_busy {D C : Multiset Nat} {L : Finset Nat} (h : Busy k D C L k1)
    (g : File → Nat) :
    Holds (modifyFile f (fun x => { x with off := g x }) k1) (fun _ k2 => Busy k D C L k2)
      (Stops S) :=
  modifyFile_busy h fun _ => ⟨rfl, rfl, rfl⟩

theorem counts_fileread (n : Nat) (dev : Int) (h : Counted k) (hf : f ∈ k.fds) :
    Counts S k (fileread f n dev) := by
  apply holds_gets_bind
  refine holds_ite (fun _ => holds_pure h) fun _ => ?_
  cases (k.files f).type with
  | none => exact holds_pure h
  | pipe => cases (k.files f).pipe with
    | none => exact holds_stop stops_fault
    | some pa => exact ((calm_piperead pa n).bind fun _ => calm_pure _).counts h
  | inode => cases hi : (k.files f).ip with
    | none => exact holds_stop stops_fault
    | some i =>
      refine (onFs_ilock h.busy (h.filed.mem_inode hf hi)).bind fun _ k1 h₁ => ?_
      refine (onFs_step h₁ (sameTags_readi i _ n)).bind fun bs k2 h2 => ?_
      refine (setOff_busy h2 _).bind fun _ k3 h3 => ?_
      exact (onFs_iunlock h3).bind fun _ k4 h4 => holds_pure (h.of_busy h4)
  | device => exact holds_pure h
  | bdevice =>
    refine holds_ite (fun _ => holds_pure h) fun _ => holds_gets_bind ?_
    exact (setOff_busy h.busy _).bind fun _ _ h₁ => holds_pure (h.of_busy h₁)

theorem sameTags_bdevWrite (fuel off : Nat) (src : List UInt8) (s : FileSys) :
    SameTags s (bdevWrite fuel s off src) := by
  induction fuel generalizing s off src with
  | zero => exact SameTags.refl s
  | succ fuel ih =>
    rw [bdevWrite]
    split
    · exact SameTags.refl s
    · exact (sameTags_bwrite _ _).trans (ih _ _ _)

theorem counts_filewrite (src : List UInt8) (dev : Int) (h : Counted k) (hf : f ∈ k.fds) :
    Counts S k (filewrite f src dev) := by
  apply holds_gets_bind
  refine holds_ite (fun _ => holds_pure h) fun _ => ?_
  cases (k.files f).type with
  | none => exact holds_pure h
  | pipe => cases (k.files f).pipe with
    | none => exact holds_stop stops_fault
    | some pa => exact (calm_pipewrite pa src).counts h
  | inode => cases hi : (k.files f).ip with
    | none => exact holds_stop stops_fault
    | some i =>
      refine (onFs_ilock h.busy (h.filed.mem_inode hf hi)).bind fun _ k1 h₁ => ?_
      apply holds_gets_bind
      refine (onFs_step h₁ (sameTags_writei i src _)).bind fun r k2 h2 => ?_
      refine (setOff_busy h2 _).bind fun _ k3 h3 => ?_
      exact (onFs_iunlock h3).bind fun _ k4 h4 => holds_pure (h.of_busy h4)
  | device => exact holds_pure h
  | bdevice =>
    refine holds_ite (fun _ => holds_pure h) fun _ => holds_modify_bind ?_
    have hwrite : Busy k k.fds k.cwds ∅
        (k.withFs (bdevWrite src.length k.fs (k.files f).off src)) :=
      ⟨h.filed.congr_cache (l := k.withFs _) rfl (h.filed.cache.congr (sameTags_bdevWrite _ _ _ _)), rfl⟩
    exact (setOff_busy hwrite _).bind fun _ _ h₁ => holds_pure (h.of_busy h₁)

theorem counts_sysRead (fd n : Nat) (ok : Bool) (dev : Int) (h : Counted k) (hp : k.alive p) :
    Counts S k (sysRead p fd n ok dev) :=
  counts_fdFile fd h fun _ hfd hf => holds_ite (fun _ => holds_pure h) fun _ =>
    counts_fileread n dev h (mem_fds (alive_iff.1 hp).1 hfd hf)

theorem counts_sysWrite (fd : Nat) (src : List UInt8) (ok : Bool) (dev : Int) (h : Counted k)
    (hp : k.alive p) : Counts S k (sysWrite p fd src ok dev) :=
  counts_fdFile fd h fun _ hfd hf => holds_ite (fun _ => holds_pure h) fun _ =>
    counts_filewrite src dev h (mem_fds (alive_iff.1 hp).1 hfd hf)

theorem counts_sysFstat (fd : Nat) (ok : Bool) (h : Counted k) (hp : k.alive p) :
    Counts S k (sysFstat p fd ok) := by
  refine counts_fdFile fd h fun f hfd hf => holds_ite (fun _ => holds_pure h) fun _ => ?_
  have hmem := mem_fds (alive_iff.1 hp).1 hfd hf
  apply holds_gets_bind
  have hlock : ∀ i, (k.files f).ip = some i →
      Holds ((do onFs (ilock i); onFs (Fs.iunlock i); pure 0 : KM Int) k) (fun _ k' => Counted k')
        (Stops S) := by
    intro i hi
    refine (onFs_ilock h.busy (h.filed.mem_inode hmem hi)).bind fun _ k1 h₁ => ?_
    exact (onFs_iunlock h₁).bind fun _ k2 h2 => holds_pure (h.of_busy h2)
  cases (k.files f).type <;> cases hi : (k.files f).ip <;>
    first
    | exact holds_pure h
    | exact hlock _ hi

theorem counts_sysLseek (fd : Nat) (offset : Int) (whence : Nat) (h : Counted k) (hp : k.alive p) :
    Counts S k (sysLseek p fd offset whence) := by
  refine counts_fdFile fd h fun f hfd hf => ?_
  have hmem := mem_fds (alive_iff.1 hp).1 hfd hf
  apply holds_gets_bind
  refine holds_ite (fun _ => holds_pure h) fun _ => holds_ite (fun _ => holds_pure h) fun _ => ?_
  have hset : ∀ (base : Nat) k1, Busy k k.fds k.cwds ∅ k1 →
      Holds ((if toLong ((base : Int) + offset) < 0 then fail .einval
        else do
          modifyFile f fun x => { x with off := (toLong ((base : Int) + offset)).toNat % Fs.uintMod }
          pure (toLong ((base : Int) + offset)) : KM Int) k1) (fun _ k' => Counted k') (Stops S) := by
    intro base k1 h₁
    refine holds_ite (fun _ => holds_pure (h.of_busy h₁)) fun _ => ?_
    exact (setOff_busy h₁ _).bind fun _ _ h2 => holds_pure (h.of_busy h2)
  refine holds_ite (fun _ => holds_pure_bind (hset 0 k h.busy)) fun _ =>
    holds_ite (fun _ => holds_pure_bind (hset _ k h.busy)) fun _ => ?_
  cases hi : (k.files f).ip with
  | none => exact holds_stop_bind stops_fault
  | some i =>
    refine (onFs_ilock h.busy (h.filed.mem_inode hmem hi)).bind fun _ k1 h₁ => ?_
    apply holds_gets_bind
    exact (onFs_iunlock h₁).bind fun _ k2 h2 => holds_pure_bind (hset _ k2 h2)

theorem counts_sysFtruncate (fd : Nat) (length : Int) (h : Counted k) (hp : k.alive p) :
    Counts S k (sysFtruncate p fd length) := by
  refine counts_fdFile fd h fun f hfd hf => ?_
  have hmem := mem_fds (alive_iff.1 hp).1 hfd hf
  apply holds_gets_bind
  have htrunc : ∀ i, (k.files f).ip = some i → Holds ((do
      onFs (ilock i)
      onFs (Exec.modify fun s => s.itruncTo i (length.toNat % Fs.uintMod))
      onFs (Fs.iunlock i)
      pure 0 : KM Int) k) (fun _ k' => Counted k') (Stops S) := by
    intro i hi
    refine (onFs_ilock h.busy (h.filed.mem_inode hmem hi)).bind fun _ k1 h₁ => ?_
    refine (onFs_modify h₁ (sameTags_itruncTo i _)).bind fun _ k2 h2 => ?_
    exact (onFs_iunlock h2).bind fun _ k3 h3 => holds_pure (h.of_busy h3)
  cases (k.files f).type <;> cases hi : (k.files f).ip <;>
    first
    | exact holds_pure h
    | exact holds_ite (fun _ => holds_pure h) fun _ => holds_ite (fun _ => holds_pure h)
        fun _ => htrunc _ hi

theorem sameTags_getdentsLoop (i count fuel off bpos : Nat) (s : FileSys) :
    SameTags s (getdentsLoop i count fuel s off bpos).2 := by
  induction fuel generalizing s off bpos with
  | zero => exact SameTags.refl s
  | succ fuel ih =>
    have hread := sameTags_readi (s := s) i off 64
    rw [getdentsLoop]
    split
    · exact SameTags.refl s
    dsimp only
    split
    · exact hread
    split
    · exact hread.trans (ih _ _ _)
    · split
      · exact hread
      · exact hread.trans (ih _ _ _)

theorem counts_sysGetdents (fd count : Nat) (ok : Bool) (h : Counted k) (hp : k.alive p) :
    Counts S k (sysGetdents p fd count ok) := by
  refine counts_fdFile fd h fun f hfd hf => ?_
  have hmem := mem_fds (alive_iff.1 hp).1 hfd hf
  apply holds_gets_bind
  refine holds_ite (fun _ => holds_pure h) fun _ => holds_ite (fun _ => holds_pure h) fun _ => ?_
  cases hi : (k.files f).ip with
  | none => exact holds_stop stops_fault
  | some i =>
    refine (onFs_ilock h.busy (h.filed.mem_inode hmem hi)).bind fun _ k1 h₁ => ?_
    apply holds_gets_bind
    refine holds_ite (fun _ => ?_) fun _ => ?_
    · exact (onFs_iunlock h₁).bind fun _ k2 h2 => holds_pure (h.of_busy h2)
    · refine (onFs_step h₁ (sameTags_getdentsLoop i count _ _ 0 _)).bind fun r k2 h2 => ?_
      refine (setOff_busy h2 _).bind fun _ k3 h3 => ?_
      exact (onFs_iunlock h3).bind fun _ k4 h4 => holds_pure (h.of_busy h4)

end

end Slopix.Kernel
