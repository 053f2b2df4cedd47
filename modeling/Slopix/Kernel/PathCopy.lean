import Slopix.Fs.Chain
import Slopix.Kernel.Argv
import Slopix.Kernel.Paths

/-!
# Paths that are cut short

Every call on a path copies it into a buffer of 128 bytes with `vmm_copyinstr`, which cuts a longer
string without an error. The call then acts on the path in the buffer. A walk depends only on where it
starts and on the names, so the cut does no harm exactly when it leaves the names as they are.
-/

namespace Slopix.Kernel

open Lib Mm Fs List

/-- A call on paths at user addresses. -/
inductive PathCall where
  | openCall (path : Nat) (flags : OpenFlags)
  | mkdir (path : Nat)
  | mknod (path major minor : Nat)
  | link (old new : Nat)
  | unlink (path : Nat)
  | chdir (path : Nat)
  | stat (path : Nat) (ok : Bool)
  | rename (old new : Nat)

namespace PathCall

/-- The addresses of the paths of a call. -/
def paths : PathCall → List Nat
  | openCall path _ => [path]
  | mkdir path => [path]
  | mknod path _ _ => [path]
  | link old new => [old, new]
  | unlink path => [path]
  | chdir path => [path]
  | stat path _ => [path]
  | rename old new => [old, new]

/-- The call on the strings that `read` gives for the addresses. -/
def toCall (read : Nat → Option (List UInt8)) : PathCall → Call
  | openCall path flags => .openCall (read path) flags
  | mkdir path => .mkdir (read path)
  | mknod path major minor => .mknod (read path) major minor
  | link old new => .link (read old) (read new)
  | unlink path => .unlink (read path)
  | chdir path => .chdir (read path)
  | stat path ok => .stat (read path) ok
  | rename old new => .rename (read old) (read new)

end PathCall

/-- The call as the kernel makes it: `char kpath[128]` and `vmm_copyinstr(.., 128)`. -/
def pathCall (p : Nat) (c : PathCall) : KM Int := fun k =>
  syscall p (c.toCall fun va => vmmCopyinstr k.mm (k.procs p).pagetable va 128) k

/-- The call on the complete strings. -/
def wholeCall (p : Nat) (c : PathCall) (str : Nat → List UInt8) : KM Int :=
  syscall p (c.toCall fun va => some (str va))

/-- The call does what it does on the complete strings, or returns an error. -/
def ActsOnWhole (k : Kern) (p : Nat) (c : PathCall) (str : Nat → List UInt8) : Prop :=
  pathCall p c k = wholeCall p c str k ∨ ∃ e k', pathCall p c k = .ok (e, k') ∧ e < 0

section

variable {cwd : Option Nat} {q q' r r' : List UInt8} {p : Nat}

theorem namei_congr (h : SamePath q q') : namei cwd q = namei cwd q' := by
  unfold namei
  rw [namex_congr h]

theorem nameiparent_congr (h : SamePath q q') : nameiparent cwd q = nameiparent cwd q' :=
  namex_congr h cwd true

theorem create_congr (h : SamePath q q') (type major minor : Nat) :
    create cwd q type major minor = create cwd q' type major minor := by
  unfold create
  rw [nameiparent_congr h]

theorem sysOpen_congr (h : SamePath q q') (flags : OpenFlags) :
    sysOpen p (some q) flags = sysOpen p (some q') flags := by
  have hinode : ∀ cwd, openInode cwd q flags = openInode cwd q' flags := by
    intro cwd
    unfold openInode
    rw [namei_congr h, create_congr h]
  unfold sysOpen
  simp only [hinode]

theorem createAndDrop_congr (h : SamePath q q') (type major minor : Nat) :
    createAndDrop p (some q) type major minor = createAndDrop p (some q') type major minor := by
  unfold createAndDrop
  simp only [create_congr h]

theorem sysLink_congr (h : SamePath q q') (h' : SamePath r r') :
    sysLink p (some q) (some r) = sysLink p (some q') (some r') := by
  unfold sysLink link
  simp only [namei_congr h, nameiparent_congr h']

theorem sysUnlink_congr (h : SamePath q q') : sysUnlink p (some q) = sysUnlink p (some q') := by
  unfold sysUnlink unlink
  simp only [nameiparent_congr h]

theorem sysChdir_congr (h : SamePath q q') : sysChdir p (some q) = sysChdir p (some q') := by
  unfold sysChdir
  simp only [namei_congr h]

theorem sysStat_congr (h : SamePath q q') (ok : Bool) :
    sysStat p (some q) ok = sysStat p (some q') ok := by
  unfold sysStat
  simp only [namei_congr h]

theorem sysRename_congr (h : SamePath q q') (h' : SamePath r r') :
    sysRename p (some q) (some r) = sysRename p (some q') (some r') := by
  unfold sysRename rename renameParents renameMove renameOld
  simp only [namei_congr h, nameiparent_congr h, nameiparent_congr h']

/-- A call depends on a path only through where it starts and its names. -/
theorem syscall_congr {read read' : Nat → List UInt8} (c : PathCall)
    (h : ∀ va ∈ c.paths, SamePath (read va) (read' va)) :
    syscall p (c.toCall fun va => some (read va)) = syscall p (c.toCall fun va => some (read' va)) := by
  cases c with
  | openCall path flags => exact sysOpen_congr (h path mem_cons_self) flags
  | mkdir path => exact createAndDrop_congr (h path mem_cons_self) tDir 0 0
  | mknod path major minor => exact createAndDrop_congr (h path mem_cons_self) tDevice _ _
  | link old new =>
    exact sysLink_congr (h old mem_cons_self) (h new (mem_cons_of_mem old mem_cons_self))
  | unlink path => exact sysUnlink_congr (h path mem_cons_self)
  | chdir path => exact sysChdir_congr (h path mem_cons_self)
  | stat path ok => exact sysStat_congr (h path mem_cons_self) ok
  | rename old new =>
    exact sysRename_congr (h old mem_cons_self) (h new (mem_cons_of_mem old mem_cons_self))

theorem toCall_congr {read read' : Nat → Option (List UInt8)} (c : PathCall)
    (h : ∀ va ∈ c.paths, read va = read' va) : c.toCall read = c.toCall read' := by
  have hsecond : ∀ old new : Nat, new ∈ [old, new] := fun old new =>
    mem_cons_of_mem old mem_cons_self
  cases c with
  | openCall path flags => rw [PathCall.toCall, h path mem_cons_self]; rfl
  | mkdir path => rw [PathCall.toCall, h path mem_cons_self]; rfl
  | mknod path major minor => rw [PathCall.toCall, h path mem_cons_self]; rfl
  | link old new => rw [PathCall.toCall, h old mem_cons_self, h new (hsecond old new)]; rfl
  | unlink path => rw [PathCall.toCall, h path mem_cons_self]; rfl
  | chdir path => rw [PathCall.toCall, h path mem_cons_self]; rfl
  | stat path ok => rw [PathCall.toCall, h path mem_cons_self]; rfl
  | rename old new => rw [PathCall.toCall, h old mem_cons_self, h new (hsecond old new)]; rfl

theorem pathCall_take {k : Kern} {c : PathCall} (str : Nat → List UInt8)
    (h : ∀ va ∈ c.paths, HasString k.mm (k.procs p).pagetable va (str va)) :
    pathCall p c k = wholeCall p c (fun va => (str va).take 127) k := by
  unfold pathCall wholeCall
  rw [toCall_congr c fun va hva => vmmCopyinstr_take (h va hva) 128]

/-- A call that succeeds on the cut path and fails on the complete one. -/
theorem not_actsOnWhole {k k1 k2 : Kern} {c : PathCall} {str : Nat → List UInt8}
    (hcut : pathCall p c k = .ok (0, k1)) (hwhole : wholeCall p c str k = .ok (-Errno.enoent.val, k2)) :
    ¬ ActsOnWhole k p c str := by
  rintro (hsame | ⟨e, k', herr, hneg⟩)
  · rw [hcut, hwhole] at hsame
    cases congrArg (fun r => r.toOption.map Prod.fst) hsame
  · rw [hcut] at herr
    cases herr
    exact absurd hneg (by decide)

end

/-! ## Paths that the cut changes -/

section

variable {sb : Superblock} {rd : Nat → Fs.Block} {B : Multiset Nat} {k : Kern} {p start : Nat}
  {path : List UInt8}

/-- `sys_stat` succeeds on the paths that lead somewhere. -/
theorem sysStat_resolve (htree : Tree sb rd) (h : Coherent sb rd k.fs B ∅) (hroom : Room B 2)
    (hcwd : ∀ i, (k.procs p).cwd = some i → i ∈ B)
    (hstart : startNumber k.fs (k.procs p).cwd path = some start)
    (hlink : ∀ inum, sb.InUse rd inum → (sb.inode rd inum).nlink ≠ 0) :
    ∃ k', sysStat p (some path) true k = .ok
      (if resolve rd sb.inodestart start (pathNames path) = none then -Errno.enoent.val else 0, k') := by
  obtain ⟨r, s1, hrun, h1, hres, -⟩ := namei_resolve htree h hroom hcwd hstart
  have hnamei : onFs (namei (k.procs p).cwd path) k = .ok (r, k.withFs s1) := Exec.zoom_ok hrun
  unfold sysStat getProc
  dsimp only
  rw [if_neg Bool.false_ne_true.symm, Exec.bind_ok (b := k.procs p) (t := k) rfl, Exec.bind_ok hnamei, ← hres]
  cases r with
  | none => exact ⟨k.withFs s1, rfl⟩
  | some i =>
    have hi : i ∈ found (some i) + B := Multiset.mem_add.2 (Or.inl (Multiset.mem_singleton_self i))
    obtain ⟨s2, hlock, h2, -, -⟩ := h1.ilock hi (Finset.notMem_empty i)
    have h2' : Coherent sb rd s2 (i ::ₘ B) (insert i ∅) := h2
    obtain ⟨s3, hput, -, -⟩ := h2'.iunlockput (Or.inr (hlink _ (h2.used i hi)))
    have hrun2 : onFs (ilock i) (k.withFs s1) = .ok ((), k.withFs s2) :=
      Exec.zoom_ok (t := k.withFs s1) hlock
    have hrun3 : onFs (iunlockput i) (k.withFs s2) = .ok ((), k.withFs s3) :=
      Exec.zoom_ok (t := k.withFs s2) hput
    dsimp only
    rw [Exec.bind_ok hrun2, Exec.bind_ok hrun3]
    exact ⟨k.withFs s3, rfl⟩

/-- A kernel with the memory `m`: process 0 has the address space `pt`, works in the root directory,
and the disk holds a chain of directories. -/
def chainKern (m : PhysMem) (pt : Nat) (names : List Name) : Kern :=
  let k := powerOn m (fun _ => ⟨fun _ => 0, 0, 0, false, false⟩)
    ((mount chainSb (chainDisk names)).iget 0 rootino).2 fun _ => none
  k.setProc 0 { emptyProc with state := .running, pagetable := pt, cwd := some 0 }

theorem stat_chain (m : PhysMem) (pt : Nat) {names : List Name} (hlen : names.length < 1000)
    (hnames : ∀ name ∈ names, name.length ≤ 62 ∧ 0 ∉ name) (path : List UInt8) :
    ∃ k', sysStat 0 (some path) true (chainKern m pt names) =
      .ok (if pathNames path <+: names then 0 else -Errno.enoent.val, k') := by
  have htree := chain_tree hlen hnames
  obtain ⟨i, hi, hcoh, hnum, -⟩ :=
    (mount_coherent chainSb (chainDisk names)).iget (by decide) htree.root
  have hzero : ((mount chainSb (chainDisk names)).iget 0 rootino).1 = some 0 := rfl
  obtain rfl : i = 0 := Option.some.inj (hi.symm.trans hzero)
  have hstart : startNumber (chainKern m pt names).fs ((chainKern m pt names).procs 0).cwd path =
      some 1 := by
    unfold startNumber
    split
    · rfl
    · exact congrArg some hnum
  have hroom : Room (0 ::ₘ 0) 2 := by
    unfold Room
    decide
  obtain ⟨k', hrun⟩ := sysStat_resolve (p := 0) (k := chainKern m pt names) htree hcoh hroom
    (fun j hj => Option.some.inj hj ▸ Multiset.mem_cons_self 0 0) hstart
    fun inum hused => chain_nlink hlen hused
  refine ⟨k', ?_⟩
  rw [hrun, chain_resolve hlen hnames (pathNames path) (Nat.zero_le _), drop_zero]
  by_cases hpre : pathNames path <+: names
  · rw [if_pos hpre, if_neg (by simp), if_pos hpre]
  · rw [if_neg hpre, if_pos rfl, if_neg hpre]

end

/-- Paths at user addresses: every call on them acts on the complete strings or fails, in every kernel
with this memory, exactly when none of them loses a name or a part of one in the copy. -/
theorem path_copy_exact {m : PhysMem} {pt : Nat} {vas : List Nat} {str : Nat → List UInt8}
    (hstr : ∀ va ∈ vas, HasString m pt va (str va)) :
    (∀ k p c, k.mm = m → (k.procs p).pagetable = pt → (∀ va ∈ c.paths, va ∈ vas) →
      ActsOnWhole k p c str) ↔
    ∀ va ∈ vas, pathNames ((str va).take 127) = pathNames (str va) := by
  constructor
  · intro hall va hva
    by_contra hne
    generalize hnames : pathNames ((str va).take 127) = names at hne
    have hshort : ∀ name ∈ names, name.length ≤ 62 ∧ 0 ∉ name := by
      intro name hname
      obtain ⟨hle, hsub⟩ := mem_pathNames (hnames ▸ hname)
      exact ⟨hle, fun hz => (hstr va hva).nonzero (mem_of_mem_take (hsub 0 hz))⟩
    have hlen : names.length < 1000 := by
      have hle := length_pathNames ((str va).take 127)
      rw [hnames, length_take] at hle
      omega
    -- the complete path has at least as many names, and others
    have hother : ¬ pathNames (str va) <+: names := by
      intro hpre
      have hmore := length_pathNames_append ((str va).take 127) ((str va).drop 127)
      rw [take_append_drop, hnames] at hmore
      exact hne (hpre.eq_of_length (Nat.le_antisymm hpre.length_le hmore)).symm
    obtain ⟨k1, hcut⟩ := stat_chain m pt hlen hshort ((str va).take 127)
    obtain ⟨k2, hwhole⟩ := stat_chain m pt hlen hshort (str va)
    rw [hnames, if_pos (prefix_refl names)] at hcut
    rw [if_neg hother] at hwhole
    have hcopy : pathCall 0 (.stat va true) (chainKern m pt names) = .ok (0, k1) :=
      (pathCall_take str fun a ha => by
        rw [mem_singleton.1 ha]
        exact hstr va hva).trans hcut
    exact not_actsOnWhole hcopy hwhole (hall (chainKern m pt names) 0 (.stat va true) rfl rfl
      fun a ha => mem_singleton.1 ha ▸ hva)
  intro hnames k p c hm hpt hvas
  subst hm hpt
  left
  rw [pathCall_take str fun va hva => hstr va (hvas va hva)]
  refine congrFun (syscall_congr c fun va hva => ⟨?_, hnames va (hvas va hva)⟩) k
  cases str va with
  | nil => exact Iff.rfl
  | cons x s => exact Iff.rfl

/-- The path `/a/b` with 130 slashes behind it: what is lost is no part of a name. -/
def slashedPath : List UInt8 := [slash, 97, slash, 98] ++ List.replicate 130 slash

/-- This path of 134 bytes is cut, and every call acts on it as on the complete one. -/
theorem path_copy_exact_slashes : ∃ m pt, HasString m pt (userStack - 4096) slashedPath ∧ 127 < slashedPath.length ∧
    ∀ k p c, k.mm = m → (k.procs p).pagetable = pt → (∀ va ∈ c.paths, va ∈ [userStack - 4096]) →
      ActsOnWhole k p c fun _ => slashedPath := by
  obtain ⟨k, m, -, -, -, -, hstring⟩ := small_store slashedPath (by simp [slashedPath, slash]) (by simp [slashedPath])
  refine ⟨m, (k.procs 0).pagetable, hstring, by simp [slashedPath], (path_copy_exact fun va hva => ?_).2 fun va _ => ?_⟩
  · rw [mem_singleton.1 hva]
    exact hstring
  · decide +kernel

/-- 126 slashes and `.x`, a path of 128 bytes. -/
def longPath : List UInt8 := List.replicate 126 slash ++ [46, 120]

/-- On the small machine `stat` of this path succeeds: it acts on the root directory. There is no file
`.x`. -/
theorem path_copy_cut : ∃ k va, smallMachine.Reachable (fun _ _ => True) k ∧ k.alive 0 ∧
    HasString k.mm (k.procs 0).pagetable va longPath ∧
    (∃ k', pathCall 0 (.stat va true) k = .ok (0, k')) ∧
    (∃ k', wholeCall 0 (.stat va true) (fun _ => longPath) k = .ok (-Errno.enoent.val, k')) ∧
    ¬ ActsOnWhole k 0 (.stat va true) fun _ => longPath := by
  obtain ⟨k0, m, hstart, hreach, hp, -, hstring⟩ := small_store longPath
    (by simp [longPath, slash]) (by simp [longPath])
  have htree := rootFs_onTree hstart
  have hcoh : Coherent k0.fs.sb k0.fs.bread (k0.withMm m).fs (k0.withMm m).inodeRefs ∅ :=
    (show OnTree (k0.withMm m) from ⟨htree.tree, htree.dev, htree.used, htree.din⟩).coherent
      (counted_reachable hreach)
  have hread : k0.fs.bread = smallDisk := by
    rw [hstart.fs]
    rfl
  have hsb : k0.fs.sb = smallMachine.sb := by
    rw [hstart.fs]
    rfl
  rw [hread, hsb] at hcoh
  have hcwd : ∀ i, ((k0.withMm m).procs 0).cwd = some i → i ∈ (k0.withMm m).inodeRefs := fun i hi =>
    Multiset.mem_add.2 (Or.inr (mem_cwds (by decide) hi))
  have hlink : ∀ inum, smallMachine.sb.InUse smallDisk inum →
      (smallMachine.sb.inode smallDisk inum).nlink ≠ 0 := by
    have hone : ∀ n < 16, (smallMachine.sb.inode smallDisk n).type ≠ 0 →
        (smallMachine.sb.inode smallDisk n).nlink ≠ 0 := by decide +kernel
    exact fun inum hused => hone inum hused.1 hused.2
  have hstat : ∀ path : List UInt8, path.head? = some slash → ∃ k', sysStat 0 (some path) true (k0.withMm m) =
      .ok (if resolve smallDisk smallMachine.sb.inodestart rootino (pathNames path) = none then
        -Errno.enoent.val else 0, k') := by
    intro path habs
    exact sysStat_resolve smallDisk_tree hcoh ((room_inodeRefs _).mono (by decide)) hcwd (if_pos habs) hlink
  obtain ⟨k1, hcut⟩ := hstat (longPath.take 127) (by decide)
  obtain ⟨k2, hwhole⟩ := hstat longPath (by decide)
  have hfound : resolve smallDisk smallMachine.sb.inodestart rootino (pathNames (longPath.take 127)) ≠
      none := by decide +kernel
  have hnone : resolve smallDisk smallMachine.sb.inodestart rootino (pathNames longPath) = none := by
    decide +kernel
  rw [if_neg hfound] at hcut
  rw [if_pos hnone] at hwhole
  have hcopy : pathCall 0 (.stat (userStack - 4096) true) (k0.withMm m) = .ok (0, k1) :=
    (pathCall_take (fun _ => longPath) fun a ha => by
      rw [mem_singleton.1 ha]
      exact hstring).trans hcut
  refine ⟨k0.withMm m, userStack - 4096, hreach, hp, hstring, ⟨k1, hcopy⟩, ⟨k2, hwhole⟩,
    not_actsOnWhole hcopy hwhole⟩

end Slopix.Kernel
