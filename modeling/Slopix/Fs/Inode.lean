import Slopix.Fs.Data
import Slopix.Lib.Exec

/-!
# The inode cache

`kernel/fs.c`: `fs_iget`, `fs_idup`, `fs_ilock`, `fs_iunlock`, `fs_iput` and `fs_ialloc`. A null inode
pointer is `none`, any other one the index of an entry of the cache.

System calls run one at a time, so an inode that is already locked when `fs_ilock` is called is locked
by the caller itself: the call sleeps forever and the program stops with `deadlock`. It stops with
`fault` where the source follows a null pointer, with `loop` where it runs in a cycle, and with
`sleep` where it waits for another process.
-/

namespace Slopix.Fs

open Lib

/-- Why a call never returns. -/
inductive Stop where
  | deadlock (i : Nat)
  | fault
  | loop
  | sleep
deriving DecidableEq, Repr

/-- Programs on the file system. -/
abbrev FsM := Exec Stop FileSys

namespace FileSys

/-- The first entry of the inode cache with a property. -/
def findInode (s : FileSys) (f : Inode → Bool) : Option Nat :=
  (List.range ninode).find? fun i => f (s.icache i)

/-- `fs_iget`: the entry of the inode, or a free one taken for it; null when there is none. -/
def iget (s : FileSys) (dev inum : Nat) : Option Nat × FileSys :=
  match s.findInode fun ip => decide (0 < ip.ref) && ip.dev == dev && ip.inum == inum with
  | some i => (some i, s.setInode i { s.icache i with ref := (s.icache i).ref + 1 })
  | none =>
    match s.findInode fun ip => ip.ref == 0 with
    | some i =>
      (some i, s.setInode i { s.icache i with
        dev := dev, inum := inum, ref := 1, valid := false, locked := false })
    | none => (none, s)

/-- `fs_idup`. -/
def idup (s : FileSys) (i : Nat) : FileSys :=
  s.setInode i { s.icache i with ref := (s.icache i).ref + 1 }

/-- `ip->nlink` changed as an `unsigned short`. -/
def setNlink (s : FileSys) (i n : Nat) : FileSys :=
  s.setDin i { (s.icache i).din with nlink := n % 65536 }

/-- `ip->nlink++; fs_iupdate(ip)`. -/
def incNlink (s : FileSys) (i : Nat) : FileSys :=
  (s.setNlink i ((s.icache i).din.nlink + 1)).iupdate i

/-- `ip->nlink--; fs_iupdate(ip)`. -/
def decNlink (s : FileSys) (i : Nat) : FileSys :=
  (s.setNlink i ((s.icache i).din.nlink + 65535)).iupdate i

/-- The fill of `fs_ilock`: copy the on-disk inode when the entry is not valid. -/
def load (s : FileSys) (i : Nat) : FileSys :=
  if (s.icache i).valid then s
  else s.setInode i { s.icache i with din := s.dinode (s.icache i).inum, valid := true }

/-- `ip->locked = v`. -/
def setLocked (s : FileSys) (i : Nat) (v : Bool) : FileSys :=
  s.setInode i { s.icache i with locked := v }

/-- `fs_iunlock`. -/
def iunlock (s : FileSys) (i : Nat) : FileSys :=
  if (s.icache i).locked = false ∨ (s.icache i).ref < 1 then s else s.setLocked i false

/-- The part of `fs_iput` that frees an unlinked inode, between its lock and its unlock. -/
def freeInode (s : FileSys) (i : Nat) : FileSys :=
  let s1 := s.itrunc i
  let s2 := (s1.setDin i { (s1.icache i).din with type := 0 }).iupdate i
  s2.setInode i { s2.icache i with valid := false }

/-- `ip->ref--`. -/
def dropRef (s : FileSys) (i : Nat) : FileSys :=
  s.setInode i { s.icache i with ref := (s.icache i).ref - 1 }

/-- An on-disk inode of the given type and zeros otherwise. -/
def newDinode (type : Nat) : Dinode := ⟨type, 0, 0, 0, 0, fun _ => 0⟩

/-- `fs_ialloc`: the first free on-disk inode. -/
def ialloc (s : FileSys) (dev type : Nat) : Option Nat × FileSys :=
  match (List.range s.sb.ninodes).find? fun n => decide (1 ≤ n) && (s.dinode n).type == 0 with
  | none => (none, s)
  | some n =>
    (s.bwrite (s.iblock n) (putDinode (s.bread (s.iblock n)) (inodeOff n) (newDinode type))).iget
      dev n

end FileSys

/-- `fs_ilock`. -/
def ilock (i : Nat) : FsM Unit := do
  let ip ← Exec.gets fun s => s.icache i
  if ip.ref < 1 then pure ()
  else if ip.locked = true then Exec.stop (.deadlock i)
  else Exec.modify fun s => (s.setLocked i true).load i

/-- `fs_iunlock`. -/
def iunlock (i : Nat) : FsM Unit := Exec.modify fun s => s.iunlock i

/-- `fs_iput`: the last reference to an inode without links frees it. -/
def iput (i : Nat) : FsM Unit := do
  let ip ← Exec.gets fun s => s.icache i
  if ip.ref = 1 ∧ ip.valid = true ∧ ip.din.nlink = 0 then do
    ilock i
    Exec.modify fun s => s.freeInode i
    iunlock i
    Exec.modify fun s => s.dropRef i
  else Exec.modify fun s => s.dropRef i

/-- `fs_iunlockput`. -/
def iunlockput (i : Nat) : FsM Unit := do
  iunlock i
  iput i

end Slopix.Fs
