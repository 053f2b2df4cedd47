import Slopix.Kernel.FileCalls

/-!
# Rename

`sys_rename` of `kernel/syscall.c`, cut at its stages: the extra link on the old inode, the walk to
the root that looks for a cycle, the replaced entry, the new entry, the old entry, and the `..` of a
moved directory. Calls run one at a time, so `rename_lock` is always free.
-/

namespace Slopix.Kernel

open Lib Mm Fs Ipc

/-- The label `fail`: take the extra link back. -/
def renameFail (ip : Nat) : FsM Int := do
  ilock ip
  Exec.modify fun s => s.decNlink ip
  iunlockput ip
  pure (-Errno.einval.val)

/-- The walk from `check` along `..` to the root; `false` when it meets inode `target` or an inode
without `..`. -/
def cycleLoop (target : Nat) : Nat → Nat → FsM Bool
  | 0, _ => Exec.stop .loop
  | n + 1, check => do
      let inum ← Exec.gets fun s => (s.icache check).inum
      if inum = rootino then do
        iput check
        pure true
      else if inum = target then do
        iput check
        pure false
      else do
        ilock check
        let r ← Exec.step fun s => s.dirlookup check dotdot
        iunlockput check
        match r.1 with
        | none => pure false
        | some parent => cycleLoop target n parent

/-- More passes than the walk can make without repeating itself. -/
def cycleFuel : Nat := 2 ^ 34

/-- The cycle check for a directory. -/
def renameCycle (newDp ip : Nat) : FsM Bool := do
  Exec.modify fun s => s.idup newDp
  let target ← Exec.gets fun s => (s.icache ip).inum
  cycleLoop target cycleFuel newDp

/-- The entry `newname` that is replaced: cleared when it is not a directory. When it is one, both
inodes are dropped and the result is `false`. -/
def renameReplace (newDp : Nat) (newname : Name) : FsM Bool := do
  let r ← Exec.step fun s => s.dirlookup newDp newname
  match r.1 with
  | none => pure true
  | some existing => do
      ilock existing
      let type ← Exec.gets fun s => (s.icache existing).din.type
      if type = tDir then do
        iunlockput existing
        iunlockput newDp
        pure false
      else do
        let _ ← Exec.step fun s => s.writei newDp emptyDirent r.2
        Exec.modify fun s => s.decNlink existing
        iunlockput existing
        pure true

/-- The entry `..` of the moved directory. -/
def FileSys.setDotdot (s : FileSys) (ip inum : Nat) : FileSys :=
  match s.scanDir (fun de => direntName de == dotdot) ip 0 with
  | (.hit de off, s') =>
    (s'.writei ip ([UInt8.ofNat inum, UInt8.ofNat (inum / 256)] ++ de.drop 2) off).2
  | (_, s') => s'

/-- The end of a successful rename. -/
def renameFinish (ip : Nat) (isDir : Bool) (newParentInum : Nat) : FsM Int := do
  if isDir then do
    ilock ip
    Exec.modify fun s => FileSys.setDotdot s ip newParentInum
    iunlock ip
  else pure ()
  ilock ip
  Exec.modify fun s => s.decNlink ip
  iunlockput ip
  pure 0

/-- The old entry, looked up again by its path and cleared. -/
def renameOld (cwd : Option Nat) (old : List UInt8) (ip : Nat) (isDir : Bool)
    (newParentInum : Nat) : FsM Int := do
  let parent ← nameiparent cwd old
  match parent with
  | none => do
      iput ip
      pure (-Errno.enoent.val)
  | some (oldDp, oldname) => do
      ilock oldDp
      let r ← Exec.step fun s => s.dirlookup oldDp oldname
      match r.1 with
      | none => do
          iunlockput oldDp
          iput ip
          pure (-Errno.enoent.val)
      | some check => do
          let same ← Exec.gets fun s => (s.icache check).inum == (s.icache ip).inum
          iput check
          if same = false then do
            iunlockput oldDp
            iput ip
            pure (-Errno.enoent.val)
          else do
            let _ ← Exec.step fun s => s.writei oldDp emptyDirent r.2
            if isDir then Exec.modify fun s => s.decNlink oldDp
            else pure ()
            iunlockput oldDp
            renameFinish ip isDir newParentInum

/-- From the lock on the new parent on. -/
def renameMove (cwd : Option Nat) (old : List UInt8) (ip : Nat) (isDir : Bool) (newDp : Nat)
    (newname : Name) : FsM Int := do
  let newParentInum ← Exec.gets fun s => (s.icache newDp).inum
  ilock newDp
  if ← renameReplace newDp newname then do
    let devs ← Exec.gets fun s => ((s.icache newDp).dev, (s.icache ip).dev, (s.icache ip).inum)
    let ok ← if devs.1 ≠ devs.2.1 then pure false else dirlink newDp newname devs.2.2
    if ok then do
      if isDir then Exec.modify fun s => s.incNlink newDp
      else pure ()
      iunlockput newDp
      renameOld cwd old ip isDir newParentInum
    else do
      iunlockput newDp
      renameFail ip
  else renameFail ip

/-- `sys_rename` up to the lock on the new parent: the inode at `old` with its extra link and whether
it is a directory, the new parent and the new name. When one of them is missing, or the move would
make a cycle, everything is taken back and the result is the error. -/
def renameParents (cwd : Option Nat) (old new : List UInt8) :
    FsM (Except Int (Nat × Bool × Nat × Name)) := do
  let ip ← namei cwd old
  match ip with
  | none => pure (.error (-Errno.enoent.val))
  | some ip => do
      ilock ip
      let type ← Exec.gets fun s => (s.icache ip).din.type
      Exec.modify fun s => s.incNlink ip
      iunlock ip
      let parent ← nameiparent cwd new
      match parent with
      | none => do
          let e ← renameFail ip
          pure (.error e)
      | some (newDp, newname) => do
          let ok ← if type = tDir then renameCycle newDp ip else pure true
          if ok then pure (.ok (ip, decide (type = tDir), newDp, newname))
          else do
            iput newDp
            let e ← renameFail ip
            pure (.error e)

/-- `sys_rename` on the copied paths. -/
def rename (cwd : Option Nat) (old new : List UInt8) : FsM Int := do
  let r ← renameParents cwd old new
  match r with
  | .error e => pure e
  | .ok (ip, isDir, newDp, newname) => renameMove cwd old ip isDir newDp newname

/-- `sys_rename`. -/
def sysRename (p : Nat) (old new : Option (List UInt8)) : KM Int := do
  match old, new with
  | some old, some new => do
      let proc ← getProc p
      onFs (rename proc.cwd old new)
  | _, _ => fail .efault

end Slopix.Kernel
