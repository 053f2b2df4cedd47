import Slopix.Kernel.Files

/-!
# The file system calls

The calls of `kernel/syscall.c` on paths and descriptors. A path is what `vmm_copyinstr` copied, or
`none` when it fails; `ok` tells whether `vmm_validate` accepts a buffer.
-/

namespace Slopix.Kernel

open Lib Mm Fs Ipc

/-- The open file of descriptor `fd`, when there is one. -/
def fdFile (p fd : Nat) : KM (Option Nat) :=
  Exec.gets fun k => if fd < nofile then (k.procs p).ofile fd else none

/-- `sys_close`. -/
def sysClose (p fd : Nat) : KM Int := do
  let f ← fdFile p fd
  match f with
  | none => fail .ebadf
  | some f => do
      Exec.modify fun k => k.setOfile p fd none
      fileclose f
      pure 0

/-- `sys_dup`: the same open file under the lowest free descriptor. -/
def sysDup (p fd : Nat) : KM Int := do
  let f ← fdFile p fd
  match f with
  | none => fail .ebadf
  | some f => do
      let newfd ← Exec.step fun k => k.fdalloc p f
      match newfd with
      | none => fail .enomem
      | some newfd => do
          let _ ← Exec.step fun k => k.filedup f
          pure newfd

/-- `sys_pipe`; what has been got is given back when a descriptor is missing. -/
def sysPipe (p : Nat) (ok : Bool) : KM Int := do
  if ok = false then fail .efault
  else do
    let r ← pipealloc
    match r with
    | none => fail .enomem
    | some (rf, wf) => do
        let fd0 ← Exec.step fun k => k.fdalloc p rf
        match fd0 with
        | none => do
            fileclose rf
            fileclose wf
            fail .enomem
        | some fd0 => do
            let fd1 ← Exec.step fun k => k.fdalloc p wf
            match fd1 with
            | none => do
                Exec.modify fun k => k.setOfile p fd0 none
                fileclose rf
                fileclose wf
                fail .enomem
            | some _ => pure 0

/-! ## Open -/

/-- The flags of `open`: `O_WRONLY` `0x001`, `O_RDWR` `0x002`, `O_CREAT` `0x100`, `O_TRUNC` `0x200`,
`O_APPEND` `0x400`, `O_EXCL` `0x800`. -/
structure OpenFlags where
  wronly : Bool
  rdwr : Bool
  creat : Bool
  trunc : Bool
  append : Bool
  excl : Bool

/-- The inode of `open`, locked, or the error. -/
def openInode (cwd : Option Nat) (path : List UInt8) (flags : OpenFlags) :
    FsM (Except Errno Nat) := do
  let ip ← namei cwd path
  match ip with
  | none =>
    if flags.creat then do
      let r ← create cwd path tFile 0 0
      match r with
      | none => pure (.error .enospc)
      | some ip => pure (.ok ip)
    else pure (.error .enoent)
  | some ip =>
    if flags.creat = true ∧ flags.excl = true then do
      iput ip
      pure (.error .eexist)
    else do
      ilock ip
      pure (.ok ip)

/-- The fields of a new open file on inode `ip`. -/
def openFile (ip : Nat) (d : Dinode) (flags : OpenFlags) : File :=
  { newFile with
    type := if d.type = tDevice then .device else if d.type = tBdevice then .bdevice else .inode
    major := if d.type = tDevice ∨ d.type = tBdevice then d.major else 0
    ip := some ip
    readable := !flags.wronly
    writable := flags.wronly || flags.rdwr
    append := flags.append }

/-- `sys_open`. -/
def sysOpen (p : Nat) (path : Option (List UInt8)) (flags : OpenFlags) : KM Int := do
  match path with
  | none => fail .efault
  | some path => do
      let proc ← getProc p
      let r ← onFs (openInode proc.cwd path flags)
      match r with
      | .error e => fail e
      | .ok ip => do
          let f ← Exec.step Kern.filealloc
          match f with
          | none => do
              onFs (iunlockput ip)
              fail .enomem
          | some f => do
              let d ← Exec.gets fun k => (k.fs.icache ip).din
              modifyFile f fun _ => openFile ip d flags
              if flags.trunc = true ∧ (flags.wronly = true ∨ flags.rdwr = true) ∧ d.type = tFile then
                onFs (Exec.modify fun s => s.itrunc ip)
              else pure ()
              onFs (iunlock ip)
              let fd ← Exec.step fun k => k.fdalloc p f
              match fd with
              | none => do
                  fileclose f
                  fail .enomem
              | some fd => pure fd

/-! ## Names -/

/-- `sys_mkdir` and `sys_mknod`: create, then drop the inode. -/
def createAndDrop (p : Nat) (path : Option (List UInt8)) (type major minor : Nat) : KM Int := do
  match path with
  | none => fail .efault
  | some path => do
      let proc ← getProc p
      let r ← onFs (create proc.cwd path type major minor)
      match r with
      | none => fail .eexist
      | some ip => do
          onFs (iunlockput ip)
          pure 0

/-- `sys_mkdir`. -/
def sysMkdir (p : Nat) (path : Option (List UInt8)) : KM Int := createAndDrop p path tDir 0 0

/-- `sys_mknod`; the numbers are cut to `unsigned short`. -/
def sysMknod (p : Nat) (path : Option (List UInt8)) (major minor : Nat) : KM Int :=
  createAndDrop p path tDevice (major % 65536) (minor % 65536)

/-- The label `bad` of `sys_link`: take the link back. -/
def linkBad (ip : Nat) : FsM Int := do
  ilock ip
  Exec.modify fun s => s.decNlink ip
  iunlockput ip
  pure (-Errno.enoent.val)

/-- `sys_link` on the copied paths. -/
def link (cwd : Option Nat) (old new : List UInt8) : FsM Int := do
  let ip ← namei cwd old
  match ip with
  | none => pure (-Errno.enoent.val)
  | some ip => do
      ilock ip
      let type ← Exec.gets fun s => (s.icache ip).din.type
      if type = tDir then do
        iunlockput ip
        pure (-Errno.eperm.val)
      else do
        Exec.modify fun s => s.incNlink ip
        iunlock ip
        let parent ← nameiparent cwd new
        match parent with
        | none => linkBad ip
        | some (dp, name) => do
            ilock dp
            let devs ← Exec.gets fun s => ((s.icache dp).dev, (s.icache ip).dev, (s.icache ip).inum)
            let ok ← if devs.1 ≠ devs.2.1 then pure false else dirlink dp name devs.2.2
            iunlockput dp
            if ok then do
              iput ip
              pure 0
            else linkBad ip

/-- `sys_link`. -/
def sysLink (p : Nat) (old new : Option (List UInt8)) : KM Int := do
  match old, new with
  | some old, some new => do
      let proc ← getProc p
      onFs (link proc.cwd old new)
  | _, _ => fail .efault

/-- The end of `sys_unlink`: the entry at `off` of `dp` is cleared and both inodes are dropped. -/
def unlinkEntry (dp ip off : Nat) : FsM Int := do
  let w ← Exec.step fun s => s.writei dp emptyDirent off
  if w ≠ some 64 then do
    iunlockput ip
    iunlockput dp
    pure (-Errno.eio.val)
  else do
    let type ← Exec.gets fun s => (s.icache ip).din.type
    if type = tDir then Exec.modify fun s => s.decNlink dp
    else pure ()
    iunlockput dp
    Exec.modify fun s => s.decNlink ip
    iunlockput ip
    pure 0

/-- `sys_unlink` on the copied path. -/
def unlink (cwd : Option Nat) (path : List UInt8) : FsM Int := do
  let parent ← nameiparent cwd path
  match parent with
  | none => pure (-Errno.enoent.val)
  | some (dp, name) => do
      ilock dp
      if name = dot ∨ name = dotdot then do
        iunlockput dp
        pure (-Errno.einval.val)
      else do
        let r ← Exec.step fun s => s.dirlookup dp name
        match r.1 with
        | none => do
            iunlockput dp
            pure (-Errno.enoent.val)
        | some ip => do
            ilock ip
            let type ← Exec.gets fun s => (s.icache ip).din.type
            let empty ← if type = tDir then Exec.step fun s => s.isdirempty ip else pure true
            if empty then unlinkEntry dp ip r.2
            else do
              iunlockput ip
              iunlockput dp
              pure (-Errno.enotempty.val)

/-- `sys_unlink`. -/
def sysUnlink (p : Nat) (path : Option (List UInt8)) : KM Int := do
  match path with
  | none => fail .efault
  | some path => do
      let proc ← getProc p
      onFs (unlink proc.cwd path)

/-- `sys_chdir`: the old directory is put when the new one is known to be one. -/
def sysChdir (p : Nat) (path : Option (List UInt8)) : KM Int := do
  match path with
  | none => fail .efault
  | some path => do
      let proc ← getProc p
      let ip ← onFs (namei proc.cwd path)
      match ip with
      | none => fail .enoent
      | some ip => do
          onFs (ilock ip)
          let type ← Exec.gets fun k => (k.fs.icache ip).din.type
          if type ≠ tDir then do
            onFs (iunlockput ip)
            fail .enotdir
          else do
            onFs (iunlock ip)
            match proc.cwd with
            | none => Exec.stop .fault
            | some old => do
                onFs (iput old)
                modifyProc p fun x => { x with cwd := some ip }
                pure 0

/-- `sys_stat`: what it stores is left out. -/
def sysStat (p : Nat) (path : Option (List UInt8)) (ok : Bool) : KM Int := do
  match path with
  | none => fail .efault
  | some path =>
    if ok = false then fail .efault
    else do
      let proc ← getProc p
      let ip ← onFs (namei proc.cwd path)
      match ip with
      | none => fail .enoent
      | some ip => do
          onFs (ilock ip)
          onFs (iunlockput ip)
          pure 0

/-! ## The working directory as a path -/

/-- The entry of `parent` that names inode `inum`, other than `.` and `..`. -/
def isNameOf (inum : Nat) (de : List UInt8) : Bool :=
  direntInum de == inum && direntName de != dot && direntName de != dotdot

/-- The loop of `sys_getcwd`: the names from `ip` up to the root, at most `n` of them. -/
def getcwdLoop : Nat → Nat → List Name → FsM (Option (List Name))
  | 0, ip, names => do
      iput ip
      pure (some names)
  | n + 1, ip, names => do
      let inum ← Exec.gets fun s => (s.icache ip).inum
      if inum = rootino then do
        iput ip
        pure (some names)
      else do
        ilock ip
        let r ← Exec.step fun s => s.dirlookup ip dotdot
        match r.1 with
        | none => do
            iunlockput ip
            pure none
        | some parent => do
            iunlock ip
            ilock parent
            let scan ← Exec.step fun s => s.scanDir (isNameOf inum) parent 0
            iunlock parent
            iput ip
            match scan with
            | .hit de _ => getcwdLoop n parent (direntName de :: names)
            | _ => do
                iput parent
                pure none

/-- The length of the path built from `names`, or `none` when the buffer is too small. -/
def cwdLength (size : Nat) (names : List Name) : Option Nat :=
  if names = [] then some 1
  else names.foldl (fun pos name =>
    pos.bind fun pos =>
      if name = [] then some (pos + 1)
      else if size ≤ pos + name.length + 1 then none else some (pos + 1 + name.length)) (some 0)

/-- `sys_getcwd`, without the bytes that it stores. -/
def sysGetcwd (p size : Nat) (ok : Bool) : KM Int := do
  if size < 2 then fail .einval
  else if ok = false then fail .efault
  else do
    let proc ← getProc p
    match proc.cwd with
    | none => Exec.stop .fault
    | some i => do
        onFs (Exec.modify fun s => s.idup i)
        let r ← onFs (getcwdLoop 16 i [])
        match r with
        | none => fail .eio
        | some names =>
          match cwdLength size names with
          | none => fail .einval
          | some n => pure n

/-! ## Descriptors -/

/-- `sys_fstat`; `filestat` of a file without an inode is -1. -/
def sysFstat (p fd : Nat) (ok : Bool) : KM Int := do
  let f ← fdFile p fd
  match f with
  | none => fail .ebadf
  | some f =>
    if ok = false then fail .efault
    else do
      let ff ← Exec.gets fun k => k.files f
      match ff.type, ff.ip with
      | .none, _ => pure (-1)
      | .pipe, _ => pure (-1)
      | _, none => pure (-1)
      | _, some i => do
          onFs (ilock i)
          onFs (iunlock i)
          pure 0

/-- `sys_read`; `dev` is what a character device returns. -/
def sysRead (p fd n : Nat) (ok : Bool) (dev : Int) : KM (Int × List UInt8) := do
  let f ← fdFile p fd
  match f with
  | none => pure (-Errno.ebadf.val, [])
  | some f => if ok = false then pure (-Errno.efault.val, []) else fileread f n dev

/-- `sys_write`. -/
def sysWrite (p fd : Nat) (src : List UInt8) (ok : Bool) (dev : Int) : KM Int := do
  let f ← fdFile p fd
  match f with
  | none => fail .ebadf
  | some f => if ok = false then fail .efault else filewrite f src dev

/-- A sum of two values of type `long`. -/
def toLong (x : Int) : Int := x.bmod ulongMod

/-- `sys_lseek`: the sum is checked as a `long` and stored as an `unsigned int`. -/
def sysLseek (p fd : Nat) (offset : Int) (whence : Nat) : KM Int := do
  let f ← fdFile p fd
  match f with
  | none => fail .ebadf
  | some f => do
      let ff ← Exec.gets fun k => k.files f
      if ff.type ≠ .inode ∧ ff.type ≠ .bdevice then fail .ebadf
      else if 2 < whence then fail .einval
      else do
        let base ←
          if whence = 0 then pure 0
          else if whence = 1 then pure ff.off
          else
            match ff.ip with
            | none => Exec.stop .fault
            | some i => do
                onFs (ilock i)
                let size ← Exec.gets fun k => (k.fs.icache i).din.size
                onFs (iunlock i)
                pure size
        let newoff := toLong ((base : Int) + offset)
        if newoff < 0 then fail .einval
        else do
          modifyFile f fun x => { x with off := newoff.toNat % Fs.uintMod }
          pure newoff

/-- `sys_ftruncate`: the length is a `long`, the parameter of `fs_itrunc_to` an `unsigned int`. -/
def sysFtruncate (p fd : Nat) (length : Int) : KM Int := do
  let f ← fdFile p fd
  match f with
  | none => fail .ebadf
  | some f => do
      let ff ← Exec.gets fun k => k.files f
      match ff.type, ff.ip with
      | .inode, some i =>
        if ff.writable = false then fail .eacces
        else if length < 0 then fail .einval
        else do
          onFs (ilock i)
          onFs (Exec.modify fun s => s.itruncTo i (length.toNat % Fs.uintMod))
          onFs (iunlock i)
          pure 0
      | _, _ => fail .einval

/-- The length of the record `sys_getdents` returns for an entry. -/
def reclen (name : Name) : Nat := (16 + 2 + name.length + 1 + 7) / 8 * 8

/-- The loop of `sys_getdents`: bytes used so far and the file offset. -/
def getdentsLoop (i count : Nat) : Nat → FileSys → Nat → Nat → (Nat × Nat) × FileSys
  | 0, s, off, bpos => ((bpos, off), s)
  | n + 1, s, off, bpos =>
    if (s.icache i).din.size ≤ off ∨ count ≤ bpos then ((bpos, off), s)
    else
      let r := s.readi i off 64
      if r.1.length ≠ 64 then ((bpos, off), r.2)
      else if direntInum r.1 = 0 then getdentsLoop i count n r.2 ((off + 64) % Fs.uintMod) bpos
      else if count < bpos + reclen (direntName r.1) then ((bpos, off), r.2)
      else getdentsLoop i count n r.2 ((off + 64) % Fs.uintMod) (bpos + reclen (direntName r.1))

/-- `sys_getdents`, without the bytes that it stores. -/
def sysGetdents (p fd count : Nat) (ok : Bool) : KM Int := do
  let f ← fdFile p fd
  match f with
  | none => fail .ebadf
  | some f => do
      let ff ← Exec.gets fun k => k.files f
      if ff.type ≠ .inode then fail .ebadf
      else if ok = false then fail .efault
      else
        match ff.ip with
        | none => Exec.stop .fault
        | some i => do
            onFs (ilock i)
            let d ← Exec.gets fun k => (k.fs.icache i).din
            if d.type ≠ tDir then do
              onFs (iunlock i)
              fail .enotdir
            else do
              let r ← onFs (Exec.step fun s => getdentsLoop i count (d.size / 64 + 1) s ff.off 0)
              modifyFile f fun x => { x with off := r.2 }
              onFs (iunlock i)
              pure r.1

end Slopix.Kernel
