import Slopix.Lib.Bytes

/-!
# The file system on disk and in memory

`kernel/fs.h`: the on-disk inode and directory entry, and the state of `fs.c`, the inode cache over a
disk of 1024-byte blocks. Block contents are bytes; inodes and directory entries are little-endian
records in them.

There is one disk: every inode is on device 0 and the driver ignores the device number. `bread` is
what `bio_read` returns. A buffer that was changed and released without `bio_write` keeps the change
until the buffer is recycled, so it has its own field `buf`.
-/

namespace Slopix.Fs

open Lib

/-- The contents of a block, `BSIZE` (1024) bytes. -/
abbrev Block := Bytes

/-- A file name: at most `DIRSIZ` (62) bytes, none of them zero. -/
abbrev Name := List UInt8

/-- `T_FILE`. -/
def tFile : Nat := 1

/-- `T_DIR`. -/
def tDir : Nat := 2

/-- `T_DEVICE`. -/
def tDevice : Nat := 3

/-- `T_BDEVICE`. -/
def tBdevice : Nat := 4

/-- `ROOTINO`. -/
def rootino : Nat := 1

/-- `NINODE`. -/
def ninode : Nat := 200

/-- The modulus of an `unsigned int`. -/
def uintMod : Nat := 4294967296

/-- The fields of `struct superblock` that `fs.c` uses. -/
structure Superblock where
  size : Nat
  ninodes : Nat
  inodestart : Nat
  bmapstart : Nat

/-- `struct dinode`; `addrs` has `NDIRECT + 2` (13) entries. -/
structure Dinode where
  type : Nat
  major : Nat
  minor : Nat
  nlink : Nat
  size : Nat
  addrs : Nat → Nat

/-- `struct inode`: the in-memory copy of an inode. -/
structure Inode where
  dev : Nat
  inum : Nat
  ref : Int
  valid : Bool
  locked : Bool
  din : Dinode

/-- The state of the file system. -/
structure FileSys where
  sb : Superblock
  disk : Nat → Block
  buf : Nat → Option Block
  icache : Nat → Inode

namespace FileSys

/-- The contents of block `b` as `bio_read` returns them. -/
def bread (s : FileSys) (b : Nat) : Block := (s.buf b).getD (s.disk b)

/-- Fill the buffer of block `b` and `bio_write` it. -/
def bwrite (s : FileSys) (b : Nat) (data : Block) : FileSys :=
  { s with disk := Function.update s.disk b data, buf := Function.update s.buf b none }

/-- Fill the buffer of block `b` and release it without `bio_write`. -/
def bdirty (s : FileSys) (b : Nat) (data : Block) : FileSys :=
  { s with buf := Function.update s.buf b (some data) }

/-- The buffer of block `b` is recycled; a change that was not written is lost. -/
def recycle (s : FileSys) (b : Nat) : FileSys := { s with buf := Function.update s.buf b none }

/-- Replace one entry of the inode cache. -/
def setInode (s : FileSys) (i : Nat) (ip : Inode) : FileSys :=
  { s with icache := Function.update s.icache i ip }

/-- Change the copy of the on-disk fields in one entry of the inode cache. -/
def setDin (s : FileSys) (i : Nat) (d : Dinode) : FileSys := s.setInode i { s.icache i with din := d }

/-- `IBLOCK(inum, sb)`, passed as an `unsigned int`; `IPB` is 16. -/
def iblock (s : FileSys) (inum : Nat) : Nat := (inum / 16 + s.sb.inodestart) % uintMod

/-- `BBLOCK(b, sb)`; `BPB` is 8192. -/
def bblock (s : FileSys) (b : Nat) : Nat := (b / 8192 + s.sb.bmapstart) % uintMod

end FileSys

/-! ## Records in bytes -/

/-- Read the on-disk inode at byte `o` of a block. -/
def getDinode (b : Block) (o : Nat) : Dinode where
  type := getLe 2 b o
  major := getLe 2 b (o + 2)
  minor := getLe 2 b (o + 4)
  nlink := getLe 2 b (o + 6)
  size := getLe 4 b (o + 8)
  addrs k := if k < 13 then getLe 4 b (o + 12 + 4 * k) else 0

/-- Store the `addrs` array at byte `o`. -/
def putAddrs (b : Block) (o : Nat) (addrs : Nat → Nat) : Block := fun k =>
  if o ≤ k ∧ k < o + 52 then UInt8.ofNat (addrs ((k - o) / 4) / 256 ^ ((k - o) % 4)) else b k

/-- Store an on-disk inode at byte `o` of a block. -/
def putDinode (b : Block) (o : Nat) (d : Dinode) : Block :=
  putAddrs (putLe 4 (putLe 2 (putLe 2 (putLe 2 (putLe 2 b o d.type) (o + 2) d.major) (o + 4) d.minor)
    (o + 6) d.nlink) (o + 8) d.size) (o + 12) d.addrs

/-- The byte of inode `inum` in its block. -/
def inodeOff (inum : Nat) : Nat := inum % 16 * 64

/-- The on-disk copy of inode `inum`. -/
def FileSys.dinode (s : FileSys) (inum : Nat) : Dinode := getDinode (s.bread (s.iblock inum)) (inodeOff inum)

/-- The inode number of a directory entry. -/
def direntInum (bs : List UInt8) : Nat := (bs.getD 0 0).toNat + 256 * (bs.getD 1 0).toNat

/-- The name of a directory entry: up to `DIRSIZ` bytes, ended by the first zero. -/
def direntName (bs : List UInt8) : Name := ((bs.drop 2).take 62).takeWhile (· != 0)

/-- A directory entry as `fs_dirlink` writes it: the number as an `unsigned short` and the name
padded by `strncpy`. -/
def dirent (inum : Nat) (name : Name) : List UInt8 :=
  [UInt8.ofNat inum, UInt8.ofNat (inum / 256)] ++ name.take 62 ++
    List.replicate (62 - name.length) 0

/-- The cleared entry of `unlink`. -/
def emptyDirent : List UInt8 := List.replicate 64 0

/-! ## Bits of the block bitmap -/

/-- Set or clear bit `k` of a byte. -/
def setBit (x : UInt8) (k : Nat) (v : Bool) : UInt8 :=
  if v then x ||| UInt8.ofNat (2 ^ k) else x &&& ~~~ UInt8.ofNat (2 ^ k)

/-- The bitmap marks block `b` used. -/
def FileSys.used (s : FileSys) (b : Nat) : Bool := (s.bread (s.bblock b) (b % 8192 / 8)).toNat.testBit (b % 8)

/-- Mark block `b` in the bitmap and write the bitmap block. -/
def FileSys.setUsed (s : FileSys) (b : Nat) (v : Bool) : FileSys :=
  let data := s.bread (s.bblock b)
  s.bwrite (s.bblock b)
    (Function.update data (b % 8192 / 8) (setBit (data (b % 8192 / 8)) (b % 8) v))

end Slopix.Fs
