import Slopix.Fs.Layout

/-!
# Blocks and file contents

`kernel/fs.c` below the inode cache's locks: block allocation, the block map of an inode, reading,
writing and truncating. `i` is always the index of an entry of the inode cache. These functions never
wait for anything but the disk, so they are plain functions on the state.
-/

namespace Slopix.Fs

open Lib

namespace FileSys

/-- `balloc`: the first free block, marked used and zeroed; 0 when there is none. -/
def balloc (s : FileSys) : Nat × FileSys :=
  match (List.range s.sb.size).find? fun b => !s.used b with
  | none => (0, s)
  | some b => (b, (s.setUsed b true).bwrite b fun _ => 0)

/-- `bfree`: the bit of the block is cleared. -/
def bfree (s : FileSys) (b : Nat) : FileSys := s.setUsed b false

/-- `fs_iupdate`: write the cached copy of an inode to disk. -/
def iupdate (s : FileSys) (i : Nat) : FileSys :=
  let ip := s.icache i
  s.bwrite (s.iblock ip.inum) (putDinode (s.bread (s.iblock ip.inum)) (inodeOff ip.inum) ip.din)

/-- Entry `j` of index block `b`. -/
def entry (s : FileSys) (b j : Nat) : Nat := getLe 4 (s.bread b) (4 * j)

/-- `ip->addrs[k]`, allocated when it is 0; 0 when the disk is full. -/
def bmapAddr (s : FileSys) (i k : Nat) : Nat × FileSys :=
  let addr := (s.icache i).din.addrs k
  if addr ≠ 0 then (addr, s)
  else
    let r := s.balloc
    if r.1 = 0 then (0, r.2)
    else
      let d := (r.2.icache i).din
      (r.1, r.2.setDin i { d with addrs := Function.update d.addrs k r.1 })

/-- Entry `j` of index block `b`, allocated when it is 0; 0 when the disk is full. -/
def bmapEntry (s : FileSys) (b j : Nat) : Nat × FileSys :=
  let addr := s.entry b j
  if addr ≠ 0 then (addr, s)
  else
    let r := s.balloc
    if r.1 = 0 then (0, r.2)
    else (r.1, r.2.bwrite b (putLe 4 (r.2.bread b) (4 * j) r.1))

/-- `fs_bmap`: the block of file block `bn`, allocated with its index blocks when absent. `NDIRECT`
is 11, `NINDIRECT` 256. -/
def bmap (s : FileSys) (i bn : Nat) : Nat × FileSys :=
  if bn < 11 then s.bmapAddr i bn
  else if bn - 11 < 256 then
    let r := s.bmapAddr i 11
    if r.1 = 0 then r else r.2.bmapEntry r.1 (bn - 11)
  else if bn - 267 < 65536 then
    let r := s.bmapAddr i 12
    if r.1 = 0 then r
    else
      let r' := r.2.bmapEntry r.1 ((bn - 267) / 256)
      if r'.1 = 0 then r' else r'.2.bmapEntry r'.1 ((bn - 267) % 256)
  else (0, s)

/-- The loop of `fs_readi`: up to `rem` bytes from `off`, block by block. -/
def readLoop : Nat → FileSys → Nat → Nat → Nat → List UInt8 × FileSys
  | 0, s, _, _, _ => ([], s)
  | fuel + 1, s, i, off, rem =>
    if rem = 0 then ([], s)
    else
      let r := s.bmap i (off / 1024)
      if r.1 = 0 then ([], r.2)
      else
        let m := min (1024 - off % 1024) rem
        let rest := readLoop fuel r.2 i ((off + m) % uintMod) (rem - m)
        (getBytes (r.2.bread r.1) (off % 1024) m ++ rest.1, rest.2)

/-- `fs_readi`; the length of the list is the returned count. `off + n` is an `unsigned int`. -/
def readi (s : FileSys) (i off n : Nat) : List UInt8 × FileSys :=
  let size := (s.icache i).din.size
  if size < off then ([], s)
  else
    let n' := if size < (off + n) % uintMod then size - off else n
    readLoop n' s i off n'

/-- The loop of `fs_writei`: the number of bytes written. -/
def writeLoop : Nat → FileSys → Nat → Nat → List UInt8 → Nat × FileSys
  | 0, s, _, _, _ => (0, s)
  | fuel + 1, s, i, off, src =>
    if src = [] then (0, s)
    else
      let r := s.bmap i (off / 1024)
      if r.1 = 0 then (0, r.2)
      else
        let m := min (1024 - off % 1024) src.length
        let s' := r.2.bwrite r.1 (putBytes (r.2.bread r.1) (off % 1024) (src.take m))
        let rest := writeLoop fuel s' i (off + m) (src.drop m)
        (m + rest.1, rest.2)

/-- Set the size in the cache. -/
def setSize (s : FileSys) (i n : Nat) : FileSys := s.setDin i { (s.icache i).din with size := n }

/-- `fs_writei`; `none` is the result -1. `MAXFILE * BSIZE` is 67382272. -/
def writei (s : FileSys) (i : Nat) (src : List UInt8) (off : Nat) : Option Nat × FileSys :=
  if (s.icache i).din.size < off ∨ (off + src.length) % uintMod < off then (none, s)
  else if 67382272 < (off + src.length) % uintMod then (none, s)
  else
    let r := writeLoop src.length s i off src
    let s' := if (r.2.icache i).din.size < off + r.1 then r.2.setSize i (off + r.1) else r.2
    (some r.1, s'.iupdate i)

/-- Free the blocks named by entries `l` of index block `b`. -/
def freeEntries (s : FileSys) (b : Nat) (l : List Nat) : FileSys :=
  l.foldl (fun s j => if s.entry b j ≠ 0 then s.bfree (s.entry b j) else s) s

/-- `ip->addrs[k] = 0`. -/
def clearAddr (s : FileSys) (i k : Nat) : FileSys :=
  let d := (s.icache i).din
  s.setDin i { d with addrs := Function.update d.addrs k 0 }

/-- Free the block at `ip->addrs[k]` and clear the entry. -/
def truncAddr (s : FileSys) (i k : Nat) : FileSys :=
  if (s.icache i).din.addrs k ≠ 0 then (s.bfree ((s.icache i).din.addrs k)).clearAddr i k else s

/-- The single-indirect part of `fs_itrunc`. -/
def itruncIndirect (s : FileSys) (i : Nat) : FileSys :=
  let a := (s.icache i).din.addrs 11
  if a ≠ 0 then ((s.freeEntries a (List.range 256)).bfree a).clearAddr i 11 else s

/-- The double-indirect part of `fs_itrunc`. -/
def itruncDouble (s : FileSys) (i : Nat) : FileSys :=
  let a := (s.icache i).din.addrs 12
  if a ≠ 0 then
    let s' := (List.range 256).foldl (fun s j =>
      if s.entry a j ≠ 0 then (s.freeEntries (s.entry a j) (List.range 256)).bfree (s.entry a j)
      else s) s
    (s'.bfree a).clearAddr i 12
  else s

/-- `fs_itrunc`. -/
def itrunc (s : FileSys) (i : Nat) : FileSys :=
  let s' := (List.range 11).foldl (fun s k => s.truncAddr i k) s
  (((s'.itruncIndirect i).itruncDouble i).setSize i 0).iupdate i

/-- The loop of `fs_itrunc_to` over the entries of an index block from `start` on: free and clear
each one in the buffer. The flags tell whether an entry was cleared and whether one before `start`
is left. -/
def truncEntries (start : Nat) : List Nat → FileSys × Block × Bool × Bool →
    FileSys × Block × Bool × Bool
  | [], r => r
  | j :: js, (s, data, modified, left) =>
    if getLe 4 data (4 * j) = 0 then truncEntries start js (s, data, modified, left)
    else if j < start then truncEntries start js (s, data, modified, true)
    else
      truncEntries start js
        (s.bfree (getLe 4 data (4 * j)), putLe 4 data (4 * j) 0, true, left)

/-- The single-indirect part of `fs_itrunc_to`. The index block is written when part of it stays. -/
def itruncToIndirect (s : FileSys) (i firstFree : Nat) : FileSys :=
  let a := (s.icache i).din.addrs 11
  if firstFree ≤ 266 ∧ a ≠ 0 then
    let start := firstFree - 11
    let r := truncEntries start ((List.range 256).filter (start ≤ ·)) (s, s.bread a, false, false)
    let s' := if r.2.2.1 = true ∧ 0 < start then r.1.bwrite a r.2.1
      else if r.2.2.1 = true then r.1.bdirty a r.2.1 else r.1
    if start = 0 then (s'.bfree a).clearAddr i 11 else s'
  else s

/-- One second-level index block in `fs_itrunc_to`: freed when nothing of it stays, else written.
The entry of the first-level block is cleared in the buffer only. -/
def itruncToInner (startIdx1 startIdx2 : Nat) (r : FileSys × Block × Bool) (k : Nat) : FileSys × Block × Bool :=
  let b := getLe 4 r.2.1 (4 * k)
  if b = 0 then r
  else if k < startIdx1 then (r.1, r.2.1, false)
  else
    let start2 := if k = startIdx1 then startIdx2 else 0
    let t := truncEntries start2 (List.range 256) (r.1, r.1.bread b, false, false)
    if t.2.2.2 = false then ((t.1.bdirty b t.2.1).bfree b, putLe 4 r.2.1 (4 * k) 0, r.2.2)
    else (t.1.bwrite b t.2.1, r.2.1, false)

/-- The double-indirect part of `fs_itrunc_to`. The first-level index block is changed in its buffer
and never written. -/
def itruncToDouble (s : FileSys) (i firstFree : Nat) : FileSys :=
  let a := (s.icache i).din.addrs 12
  if firstFree ≤ 65802 ∧ a ≠ 0 then
    let dindStart := firstFree - 267
    let r := (List.range 256).foldl (itruncToInner (dindStart / 256) (dindStart % 256))
      (s, s.bread a, true)
    let s' := r.1.bdirty a r.2.1
    if r.2.2 then (s'.bfree a).clearAddr i 12 else s'
  else s

/-- Zero the rest of the last block, when it is a direct one. -/
def zeroTail (s : FileSys) (i lastBlock part : Nat) : FileSys :=
  let a := (s.icache i).din.addrs lastBlock
  if part ≠ 0 ∧ lastBlock < 11 ∧ a ≠ 0 then
    s.bwrite a fun k => if part ≤ k then 0 else s.bread a k
  else s

/-- `fs_itrunc_to`. -/
def itruncTo (s : FileSys) (i len : Nat) : FileSys :=
  if (s.icache i).din.size ≤ len then s
  else if len = 0 then s.itrunc i
  else
    let lastBlock := (len - 1) / 1024
    let s1 := s.zeroTail i lastBlock (len % 1024)
    let s2 := ((List.range 11).filter (lastBlock + 1 ≤ ·)).foldl (fun s k => s.truncAddr i k) s1
    let s3 := s2.itruncToIndirect i (lastBlock + 1)
    let s4 := s3.itruncToDouble i (lastBlock + 1)
    (s4.setSize i len).iupdate i

end FileSys

end Slopix.Fs
