import Slopix.Fs.Dir

/-!
# What an image holds

The meaning of a file system image, over the function `rd` that gives the contents of a block: the
block of each file block, the bytes of a file, the entries of a directory, and the inode a path leads
to. Readers of an image are compared with these functions; they are not translated from any of them.

`NoHoles` says that every block below the size of a file is there, index blocks included.
-/

namespace Slopix.Fs

open Lib List

/-- `MAXFILE * BSIZE`. -/
def maxBytes : Nat := 67382272

section

variable (rd : Nat → Block)

/-- Entry `j` of index block `b`. -/
def indexEntry (b j : Nat) : Nat := getLe 4 (rd b) (4 * j)

/-- The block numbers from the inode to file block `bn`, the last one being the block itself. -/
def blockPath (d : Dinode) (bn : Nat) : List Nat :=
  if bn < 11 then [d.addrs bn]
  else if bn - 11 < 256 then [d.addrs 11, indexEntry rd (d.addrs 11) (bn - 11)]
  else
    let b := indexEntry rd (d.addrs 12) ((bn - 267) / 256)
    [d.addrs 12, b, indexEntry rd b ((bn - 267) % 256)]

/-- The block of file block `bn`. -/
def blockAt (d : Dinode) (bn : Nat) : Nat := (blockPath rd d bn).getLastD 0

/-- Byte `k` of a file. -/
def byteAt (d : Dinode) (k : Nat) : UInt8 := rd (blockAt rd d (k / 1024)) (k % 1024)

/-- The `n` bytes of a file from `off` on. -/
def bytesFrom (d : Dinode) (off n : Nat) : List UInt8 := (List.range n).map fun k => byteAt rd d (off + k)

/-- The bytes of a file. -/
def fileBytes (d : Dinode) : List UInt8 := bytesFrom rd d 0 d.size

/-- The directory entry at index `j`. -/
def direntAt (d : Dinode) (j : Nat) : List UInt8 := bytesFrom rd d (64 * j) 64

/-- The entries of a directory. -/
def dirents (d : Dinode) : List (List UInt8) := (List.range (d.size / 64)).map (direntAt rd d)

/-- The number of the inode with a given name in a directory. -/
def lookup (d : Dinode) (name : Name) : Option Nat :=
  ((dirents rd d).find? (FileSys.isEntry name)).map direntInum

/-- The on-disk inode with a given number. -/
def inodeAt (inodestart inum : Nat) : Dinode :=
  getDinode (rd ((inum / 16 + inodestart) % uintMod)) (inodeOff inum)

/-- The inode that a list of names leads to from inode `inum`. -/
def resolve (inodestart : Nat) : Nat → List Name → Option Nat
  | inum, [] => some inum
  | inum, name :: rest =>
    if (inodeAt rd inodestart inum).type = tDir then
      (lookup rd (inodeAt rd inodestart inum) name).bind fun next => resolve inodestart next rest
    else none

/-- Every block below the size of the file is there. -/
def NoHoles (d : Dinode) : Prop := ∀ bn, bn * 1024 < d.size → 0 ∉ blockPath rd d bn

/-- The inode with a given number, of an image with a given superblock. -/
def Superblock.inode (sb : Superblock) (inum : Nat) : Dinode := inodeAt rd sb.inodestart inum

/-- The inode is on the disk and has a type. -/
def Superblock.InUse (sb : Superblock) (inum : Nat) : Prop :=
  inum < sb.ninodes ∧ (sb.inode rd inum).type ≠ 0

/-- What a consistent image guarantees of an inode in use: it has a name, its size is within bounds,
the blocks it has are blocks of the image, and the entries of a directory name inodes in use. -/
structure InodeOk (sb : Superblock) (d : Dinode) : Prop where
  nlink : d.nlink ≠ 0
  size : d.size ≤ maxBytes
  block : ∀ bn, bn * 1024 < d.size → 0 ∉ blockPath rd d bn → ∀ b ∈ blockPath rd d bn, b < sb.size
  entry : d.type = tDir → ∀ de ∈ dirents rd d, direntInum de ≠ 0 → sb.InUse rd (direntInum de)

/-- What the readers of an image rely on in a consistent one. Block numbers are passed as an `int`. -/
structure Consistent (sb : Superblock) : Prop where
  size : sb.size ≤ 2147483648
  table : ∀ inum, inum < sb.ninodes → inum / 16 + sb.inodestart < sb.size
  root : sb.InUse rd rootino
  rootDir : (sb.inode rd rootino).type = tDir
  inode : ∀ inum, sb.InUse rd inum → InodeOk rd sb (sb.inode rd inum)

/-- No inode in use has a hole. -/
def Solid (sb : Superblock) : Prop := ∀ inum, sb.InUse rd inum → NoHoles rd (sb.inode rd inum)

end

section

variable {rd : Nat → Block} {d : Dinode}

@[simp] theorem length_bytesFrom (off n : Nat) : (bytesFrom rd d off n).length = n := by
  simp [bytesFrom]

@[simp] theorem length_fileBytes : (fileBytes rd d).length = d.size := length_bytesFrom 0 d.size

theorem bytesFrom_append (off m n : Nat) :
    bytesFrom rd d off (m + n) = bytesFrom rd d off m ++ bytesFrom rd d (off + m) n := by
  unfold bytesFrom
  rw [range_add, map_append, map_map]
  simp [Function.comp_def, add_assoc]

theorem drop_fileBytes {off : Nat} (h : off ≤ d.size) (n : Nat) :
    ((fileBytes rd d).drop off).take n = bytesFrom rd d off (min n (d.size - off)) := by
  have hfile : fileBytes rd d = bytesFrom rd d 0 off ++ (bytesFrom rd d off (min n (d.size - off)) ++
      bytesFrom rd d (off + min n (d.size - off)) (d.size - off - min n (d.size - off))) := by
    rw [← bytesFrom_append off, show min n (d.size - off) + (d.size - off - min n (d.size - off)) =
      d.size - off by omega]
    have hsplit := @bytesFrom_append rd d 0 off (d.size - off)
    rw [zero_add, show off + (d.size - off) = d.size by omega] at hsplit
    exact hsplit
  rw [hfile, drop_left' (length_bytesFrom 0 off)]
  by_cases hn : n ≤ d.size - off
  · rw [min_eq_left hn, take_left' (length_bytesFrom off n)]
  · rw [Nat.min_eq_right (by omega), Nat.sub_self, show bytesFrom rd d (off + (d.size - off)) 0 = [] from rfl,
      append_nil, take_of_length_le (by rw [length_bytesFrom]; omega)]

theorem bytesFrom_block {off m : Nat} (h : off % 1024 + m ≤ 1024) :
    bytesFrom rd d off m = getBytes (rd (blockAt rd d (off / 1024))) (off % 1024) m := by
  unfold bytesFrom getBytes byteAt
  apply map_congr_left
  intro k hk
  have hk' := mem_range.1 hk
  have hdiv : (off + k) / 1024 = off / 1024 := by omega
  have hmod : (off + k) % 1024 = off % 1024 + k := by omega
  rw [hdiv, hmod]

theorem blockAt_mem (bn : Nat) : blockAt rd d bn ∈ blockPath rd d bn := by
  unfold blockAt blockPath
  split
  · exact mem_singleton_self _
  · split <;> simp [List.getLastD]

theorem NoHoles.blockAt_ne {bn : Nat} (h : NoHoles rd d) (hbn : bn * 1024 < d.size) :
    blockAt rd d bn ≠ 0 := fun e => h bn hbn (e ▸ blockAt_mem bn)

theorem resolve_cons (sb : Superblock) (inum : Nat) (name : Name) (rest : List Name) :
    resolve rd sb.inodestart inum (name :: rest) =
      if (sb.inode rd inum).type = tDir then
        (lookup rd (sb.inode rd inum) name).bind fun next => resolve rd sb.inodestart next rest
      else none := rfl

theorem lookup_ne_zero {name : Name} {inum : Nat} (hl : lookup rd d name = some inum) : inum ≠ 0 := by
  obtain ⟨de, hde, rfl⟩ := Option.map_eq_some_iff.1 hl
  have hentry := List.find?_some hde
  simpa using (Bool.and_eq_true_iff.1 hentry).1

/-- An entry that a lookup finds leads to an inode in use. -/
theorem InodeOk.lookup {sb : Superblock} {name : Name} {inum : Nat} (h : InodeOk rd sb d)
    (htype : d.type = tDir) (hl : Fs.lookup rd d name = some inum) : sb.InUse rd inum := by
  have hne := lookup_ne_zero hl
  obtain ⟨de, hde, rfl⟩ := Option.map_eq_some_iff.1 hl
  exact h.entry htype de (List.mem_of_find?_eq_some hde) hne

end

end Slopix.Fs
