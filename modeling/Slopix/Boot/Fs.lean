import Slopix.Fs.Walk

/-!
# The file reader of the boot loader

`boot/fs.c` over the memory of its three buffers: `block_buf` at offset 0, `indirect_buf` at 1024 and
the superblock at 2048, as they lie behind each other from `BLOCK_BUF_PA` on. The disk is a function
from sector numbers to 512 bytes, `none` where `virtio_read` fails.
-/

namespace Slopix.Boot

open Lib Fs

/-- The offset of `indirect_buf`. -/
def indirectBuf : Nat := 1024

/-- The offset of the superblock. -/
def sbBuf : Nat := 2048

/-- `FS_MAGIC`. -/
def fsMagic : Nat := 0x10203040

/-- An `unsigned int` as an `int`. -/
def asInt (v : Nat) : Int := if v < 2147483648 then v else v - 4294967296

/-- An `int` as an `unsigned int`. -/
def asUint (v : Int) : Nat := (v % 4294967296).toNat

section

variable (dev : Nat → Option Bytes)

/-- `virtio_read` to offset `p`. -/
def virtioRead (sector p : Nat) (m : Bytes) : Bool × Bytes :=
  match dev sector with
  | none => (false, m)
  | some b => (true, fun k => if p ≤ k ∧ k < p + 512 then b (k - p) else m k)

/-- `read_block`; the sector number is computed as an `unsigned int`. -/
def readBlock (blockno p : Nat) (m : Bytes) : Bool × Bytes :=
  let sector := blockno * 2 % uintMod
  match virtioRead dev sector p m with
  | (false, m') => (false, m')
  | (true, m') => virtioRead dev (sector + 1) (p + 512) m'

/-- `fs_init`: the super block, and whether its magic number is right. -/
def fsInit (m : Bytes) : Bool × Bytes :=
  match readBlock dev 1 sbBuf m with
  | (false, m') => (false, m')
  | (true, m') => (getLe 4 m' sbBuf == fsMagic, m')

/-- `read_inode`. -/
def readInode (inum : Nat) (m : Bytes) : Option Dinode × Bytes :=
  let block := (inum / 16 + getLe 4 m (sbBuf + 16)) % uintMod
  match readBlock dev block 0 m with
  | (false, m') => (none, m')
  | (true, m') => (some (getDinode m' (inodeOff inum)), m')

/-- `bmap`; `NDIRECT` is 11, `NINDIRECT` 256. -/
def bmap (dip : Dinode) (bn : Nat) (m : Bytes) : Int × Bytes :=
  if bn < 11 then (asInt (dip.addrs bn), m)
  else if bn - 11 < 256 then
    match readBlock dev (dip.addrs 11) indirectBuf m with
    | (false, m') => (-1, m')
    | (true, m') => (asInt (getLe 4 m' (indirectBuf + 4 * (bn - 11))), m')
  else
    match readBlock dev (dip.addrs 12) indirectBuf m with
    | (false, m') => (-1, m')
    | (true, m') =>
      match readBlock dev (getLe 4 m' (indirectBuf + 4 * ((bn - 267) / 256))) indirectBuf m' with
      | (false, m'') => (-1, m'')
      | (true, m'') => (asInt (getLe 4 m'' (indirectBuf + 4 * ((bn - 267) % 256))), m'')

/-- `streq` on two strings from index `k` on; one of them ends within `n` bytes. -/
def streq (a b : Nat → UInt8) : Nat → Nat → Bool
  | 0, k => a k == b k
  | n + 1, k =>
    if a k ≠ 0 ∧ b k ≠ 0 then if a k ≠ b k then false else streq a b n (k + 1) else a k == b k

/-- `skipelem`: a name is cut to `DIRSIZ - 1` bytes. -/
def skipelem (path : List UInt8) : Option (Name × List UInt8) :=
  match path.dropWhile (· == slash) with
  | [] => none
  | p => some ((p.takeWhile (· != slash)).take 61, (p.dropWhile (· != slash)).dropWhile (· == slash))

/-- The names that the loop of `fs_read_file` takes off a path. -/
def elems : Nat → List UInt8 → List Name
  | 0, _ => []
  | fuel + 1, path =>
    match skipelem path with
    | none => []
    | some (name, rest) => name :: elems fuel rest

/-- The first of `n` entries in `block_buf` with a given name. -/
def findEntry (name : Name) (n : Nat) (m : Bytes) : Option Nat :=
  (List.range n).find? fun j =>
    getLe 2 m (64 * j) != 0 && streq (fun k => m (64 * j + 2 + k)) (fun k => name.getD k 0) 62 0

/-- The loop of `dirlookup` over the blocks of a directory. -/
def dirlookupLoop (dir : Dinode) (name : Name) : List Nat → Bytes → Nat × Bytes
  | [], m => (0, m)
  | i :: is, m =>
    let r := bmap dev dir i m
    if r.1 < 0 then (0, r.2)
    else if r.1 = 0 then dirlookupLoop dir name is r.2
    else
      match readBlock dev (asUint r.1) 0 r.2 with
      | (false, m') => (0, m')
      | (true, m') =>
        let bytes := if i < dir.size / 1024 then 1024 else dir.size % 1024
        match findEntry name (bytes / 64) m' with
        | some j => (getLe 2 m' (64 * j), m')
        | none => dirlookupLoop dir name is m'

/-- `dirlookup`; 0 when there is no such name. -/
def dirlookup (dir : Dinode) (name : Name) (m : Bytes) : Nat × Bytes :=
  dirlookupLoop dev dir name (List.range (dir.size / 1024 + 1)) m

/-- The loop of `fs_read_file` along the path. -/
def walk : List Name → Dinode → Bytes → Option Dinode × Bytes
  | [], inode, m => (some inode, m)
  | name :: rest, inode, m =>
    if inode.type ≠ tDir then (none, m)
    else
      let r := dirlookup dev inode name m
      if r.1 = 0 then (none, r.2)
      else
        match readInode dev r.1 r.2 with
        | (none, m') => (none, m')
        | (some next, m') => walk rest next m'

/-- The loop of `fs_read_file` over the blocks of the file, with the bytes stored so far. -/
def readLoop (inode : Dinode) : Nat → Nat → List UInt8 → Bytes → Int × List UInt8
  | 0, _, dst, _ => (asInt inode.size, dst)
  | fuel + 1, off, dst, m =>
    if inode.size ≤ off then (asInt inode.size, dst)
    else
      let r := bmap dev inode (off / 1024) m
      if r.1 ≤ 0 then (-1, dst)
      else
        match readBlock dev (asUint r.1) 0 r.2 with
        | (false, _) => (-1, dst)
        | (true, m') =>
          let blockOff := off % 1024
          let chunk := if inode.size < (off + (1024 - blockOff)) % uintMod then inode.size - off
            else 1024 - blockOff
          readLoop inode fuel ((off + chunk) % uintMod) (dst ++ getBytes m' blockOff chunk) m'

/-- `fs_read_file`: the return value and the bytes stored in the buffer. -/
def fsReadFile (path : List UInt8) (maxSize : Nat) (m : Bytes) : Int × List UInt8 :=
  if path.head? ≠ some slash then (-1, [])
  else
    match readInode dev rootino m with
    | (none, _) => (-1, [])
    | (some root, m1) =>
      match walk dev (elems path.length path) root m1 with
      | (none, _) => (-1, [])
      | (some inode, m2) =>
        if inode.type ≠ tFile then (-1, [])
        else if maxSize < inode.size then (-1, [])
        else readLoop dev inode inode.size 0 [] m2

end

end Slopix.Boot
