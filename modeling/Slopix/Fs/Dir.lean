import Slopix.Fs.Inode

/-!
# Directories and path names

`kernel/fs.c`: `fs_dirlookup`, `fs_dirlink`, `fs_isdirempty`, `namex` and `fs_create`. A directory is
a file of 64-byte entries; an entry with inode number 0 is free.
-/

namespace Slopix.Fs

open Lib

/-- The end of a scan over the entries of a directory: an entry that was looked for and its offset,
the offset behind the last entry, or a short read. -/
inductive Scan where
  | hit (de : List UInt8) (off : Nat)
  | finish (off : Nat)
  | short

namespace FileSys

/-- `for (; off < dp->size; off += sizeof(de))` with a read of one entry, up to the first entry with
property `f`. -/
def dirscan (f : List UInt8 → Bool) (i : Nat) : Nat → FileSys → Nat → Scan × FileSys
  | 0, s, off => (.finish off, s)
  | fuel + 1, s, off =>
    if (s.icache i).din.size ≤ off then (.finish off, s)
    else
      let r := s.readi i off 64
      if r.1.length ≠ 64 then (.short, r.2)
      else if f r.1 then (.hit r.1 off, r.2)
      else dirscan f i fuel r.2 (off + 64)

/-- A scan from `off`, with enough passes for the size of the directory. -/
def scanDir (s : FileSys) (f : List UInt8 → Bool) (i off : Nat) : Scan × FileSys :=
  dirscan f i ((s.icache i).din.size / 64 + 1) s off

/-- The test of `fs_dirlookup`: an entry in use with the given name. -/
def isEntry (name : Name) (de : List UInt8) : Bool := direntInum de != 0 && direntName de == name

/-- `fs_dirlookup`: the inode of the entry `name`, and the offset of the entry. -/
def dirlookup (s : FileSys) (dp : Nat) (name : Name) : (Option Nat × Nat) × FileSys :=
  if (s.icache dp).din.type ≠ tDir then ((none, 0), s)
  else
    match s.scanDir (isEntry name) dp 0 with
    | (.hit de off, s') =>
      let r := s'.iget (s'.icache dp).dev (direntInum de)
      ((r.1, off), r.2)
    | (_, s') => ((none, 0), s')

/-- `fs_isdirempty`: no entry in use behind the first two. -/
def isdirempty (s : FileSys) (dp : Nat) : Bool × FileSys :=
  match s.scanDir (fun de => direntInum de != 0) dp 128 with
  | (.hit _ _, s') => (false, s')
  | (_, s') => (true, s')

end FileSys

/-- `fs_dirlink`, `true` for the result 0. -/
def dirlink (dp : Nat) (name : Name) (inum : Nat) : FsM Bool := do
  let type ← Exec.gets fun s => (s.icache dp).din.type
  if type ≠ tDir then pure false
  else do
    let r ← Exec.step fun s => s.dirlookup dp name
    match r.1 with
    | some ip => do
        iput ip
        pure false
    | none => do
        let scan ← Exec.step fun s => s.scanDir (fun de => direntInum de == 0) dp 0
        match scan with
        | .short => pure false
        | .hit _ off => do
            let w ← Exec.step fun s => s.writei dp (dirent inum name) off
            pure (w == some 64)
        | .finish off => do
            let w ← Exec.step fun s => s.writei dp (dirent inum name) off
            pure (w == some 64)

/-! ## Path names -/

/-- The character `/`. -/
def slash : UInt8 := 47

/-- `skipelem`: the next element of a path, cut to `DIRSIZ` bytes, and the rest of the path without
leading slashes. -/
def skipelem (path : List UInt8) : Option (Name × List UInt8) :=
  match path.dropWhile (· == slash) with
  | [] => none
  | p => some ((p.takeWhile (· != slash)).take 62, (p.dropWhile (· != slash)).dropWhile (· == slash))

/-- The elements of a path, as the loop of `namex` takes them off. -/
def pathElems : Nat → List UInt8 → List Name
  | 0, _ => []
  | fuel + 1, path =>
    match skipelem path with
    | none => []
    | some (name, rest) => name :: pathElems fuel rest

/-- The loop of `namex`, with the last name it read. -/
def namexLoop (nameiparent : Bool) (ip : Nat) : List Name → FsM (Option (Nat × Name))
  | [] => do
      if nameiparent then do
        iput ip
        pure none
      else pure (some (ip, []))
  | name :: rest => do
      ilock ip
      let type ← Exec.gets fun s => (s.icache ip).din.type
      if type ≠ tDir then do
        iunlockput ip
        pure none
      else if nameiparent = true ∧ rest = [] then do
        iunlock ip
        pure (some (ip, name))
      else do
        let r ← Exec.step fun s => s.dirlookup ip name
        iunlockput ip
        match r.1 with
        | none => pure none
        | some next => namexLoop nameiparent next rest

/-- `namex`. `cwd` is `current->cwd`; the walk starts there or at the root. -/
def namex (cwd : Option Nat) (path : List UInt8) (nameiparent : Bool) : FsM (Option (Nat × Name)) := do
  let start ←
    if path.head? = some slash then Exec.step fun s => s.iget 0 rootino
    else
      match cwd with
      | some i => do
          Exec.modify fun s => s.idup i
          pure (some i)
      | none => Exec.stop .fault
  match start with
  | none =>
    -- a full inode cache: `fs_ilock` returns at once and `ip->type` faults
    match pathElems path.length path with
    | [] => if nameiparent then Exec.stop .fault else pure none
    | _ => Exec.stop .fault
  | some ip => namexLoop nameiparent ip (pathElems path.length path)

/-- `fs_namei`. -/
def namei (cwd : Option Nat) (path : List UInt8) : FsM (Option Nat) := do
  let r ← namex cwd path false
  pure (r.map Prod.fst)

/-- `fs_nameiparent`, with the last name of the path. -/
def nameiparent (cwd : Option Nat) (path : List UInt8) : FsM (Option (Nat × Name)) :=
  namex cwd path true

/-! ## Creating a file -/

/-- The name `.`. -/
def dot : Name := [46]

/-- The name `..`. -/
def dotdot : Name := [46, 46]

/-- `ip->nlink = 0; fs_iupdate(ip)`. -/
def FileSys.zeroNlink (s : FileSys) (i : Nat) : FileSys := (s.setNlink i 0).iupdate i

/-- The first fields of a new inode: `ip->major`, `ip->minor`, `ip->nlink = 1`, then `fs_iupdate`. -/
def FileSys.initInode (s : FileSys) (i major minor : Nat) : FileSys :=
  (s.setDin i { (s.icache i).din with major := major, minor := minor, nlink := 1 }).iupdate i

/-- The entries `.` and `..` of a new directory. -/
def createDots (dp ip : Nat) : FsM Bool := do
  let inum ← Exec.gets fun s => (s.icache ip).inum
  if ← dirlink ip dot inum then do
    let parent ← Exec.gets fun s => (s.icache dp).inum
    dirlink ip dotdot parent
  else pure false

/-- The end of `fs_create`: the new inode gets its name. -/
def createLink (dp ip : Nat) (name : Name) (type : Nat) : FsM (Option Nat) := do
  let inum ← Exec.gets fun s => (s.icache ip).inum
  if ← dirlink dp name inum then do
    iunlockput dp
    pure (some ip)
  else do
    if type = tDir then Exec.modify fun s => s.decNlink dp
    else pure ()
    Exec.modify fun s => s.zeroNlink ip
    iunlockput ip
    iunlockput dp
    pure none

/-- `fs_create` once the name is known to be free: `dp` is locked. -/
def createNew (dp : Nat) (name : Name) (type major minor : Nat) : FsM (Option Nat) := do
  let dev ← Exec.gets fun s => (s.icache dp).dev
  let r ← Exec.step fun s => s.ialloc dev type
  match r with
  | none => do
      iunlockput dp
      pure none
  | some ip => do
      ilock ip
      Exec.modify fun s => s.initInode ip major minor
      if type = tDir then do
        Exec.modify fun s => s.incNlink dp
        if ← createDots dp ip then createLink dp ip name type
        else do
          Exec.modify fun s => s.zeroNlink ip
          iunlockput ip
          Exec.modify fun s => s.decNlink dp
          iunlockput dp
          pure none
      else createLink dp ip name type

/-- `fs_create`: the new inode, locked; an existing file is returned when a file is asked for. -/
def create (cwd : Option Nat) (path : List UInt8) (type major minor : Nat) : FsM (Option Nat) := do
  let parent ← nameiparent cwd path
  match parent with
  | none => pure none
  | some (dp, name) => do
      ilock dp
      let r ← Exec.step fun s => s.dirlookup dp name
      match r.1 with
      | some ip => do
          iunlockput dp
          ilock ip
          let type' ← Exec.gets fun s => (s.icache ip).din.type
          if type = tFile ∧ type' = tFile then pure (some ip)
          else do
            iunlockput ip
            pure none
      | none => createNew dp name type major minor

end Slopix.Fs
