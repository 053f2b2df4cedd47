import Mathlib.Data.List.GetD
import Slopix.Fs.Coherent
import Slopix.Fs.Record

/-!
# A chain of directories

The image of a tree in which one list of names, and no other of its length or longer, leads to a
file: each directory has one entry, for the next one. It tells two paths apart.
-/

namespace Slopix.Fs

open Lib List

/-- The superblock of a chain: 1008 inodes in the blocks 2 to 64. -/
def chainSb : Superblock := ⟨4096, 1008, 2, 1⟩

/-- Inode `inum` of a chain: directory `inum` has its entry in block `100 + inum`, and behind the last
directory there is a file. -/
def chainInode (names : List Name) (inum : Nat) : Dinode :=
  if inum = 0 then ⟨0, 0, 0, 0, 0, fun _ => 0⟩
  else if inum ≤ names.length then
    ⟨tDir, 0, 0, 1, 64, fun k => if k = 0 then 100 + inum else 0⟩
  else if inum = names.length + 1 then ⟨tFile, 0, 0, 1, 0, fun _ => 0⟩
  else ⟨0, 0, 0, 0, 0, fun _ => 0⟩

/-- A directory for each name, one in the other. -/
def chainDisk (names : List Name) (b : Nat) : Block :=
  if 100 ≤ b then putBytes (fun _ => 0) 0 (dirent (b - 100 + 1) (names.getD (b - 101) []))
  else fun o => putDinode (fun _ => 0) (o / 64 * 64) (chainInode names ((b - 2) * 16 + o / 64)) o

section

variable {inodes : Nat → Dinode} {disk : Nat → Block}

/-- The inode of a directory in one block, or an unused one. -/
theorem fits_block {type nlink size a : Nat} (htype : type < 65536) (hnlink : nlink < 65536)
    (hsize : size < uintMod) (ha : a < uintMod) :
    (⟨type, 0, 0, nlink, size, fun k => if k = 0 then a else 0⟩ : Dinode).Fits := by
  refine ⟨htype, Nat.zero_lt_succ _, Nat.zero_lt_succ _, hnlink, hsize, fun k => ?_, fun k hk => ?_⟩
  · show (if k = 0 then a else 0) < uintMod
    split
    · exact ha
    · exact Nat.zero_lt_succ _
  · exact if_neg (by omega)

theorem table_inode (hfits : ∀ inum, (inodes inum).Fits)
    (hdisk : ∀ b < 100, ∀ o, disk b o = putDinode (fun _ => 0) (o / 64 * 64) (inodes ((b - 2) * 16 + o / 64)) o)
    {inum : Nat} (h : inum < 1008) : chainSb.inode disk inum = inodes inum := by
  have hblock : (inum / 16 + chainSb.inodestart) % uintMod = inum / 16 + 2 := by
    show (inum / 16 + 2) % uintMod = _
    unfold uintMod
    omega
  unfold Superblock.inode inodeAt
  rw [hblock, ← getDinode_putDinode (b := fun _ => 0) (o := inodeOff inum) (hfits inum)]
  apply getDinode_congr
  intro k hk hk'
  unfold inodeOff at hk hk' ⊢
  have hdiv : k / 64 = inum % 16 := by omega
  have hnum : (inum / 16 + 2 - 2) * 16 + inum % 16 = inum := by omega
  rw [hdisk _ (by omega), hdiv, hnum]

end

section

variable {names : List Name}

theorem chainInode_fits (hlen : names.length < 1000) (inum : Nat) : (chainInode names inum).Fits := by
  have hblank : (fun _ => 0 : Nat → Nat) = fun k => if k = 0 then 0 else 0 := by
    funext k
    rw [ite_self]
  unfold chainInode
  rw [hblank]
  split
  · exact fits_block (by decide) (by decide) (by decide) (by decide)
  split
  · exact fits_block (by decide) (by decide) (by decide) (by unfold uintMod; omega)
  · split
    · exact fits_block (by decide) (by decide) (by decide) (by decide)
    · exact fits_block (by decide) (by decide) (by decide) (by decide)

theorem chain_inode (hlen : names.length < 1000) {inum : Nat} (h : inum < 1008) :
    chainSb.inode (chainDisk names) inum = chainInode names inum :=
  table_inode (chainInode_fits hlen) (fun b hb o => by unfold chainDisk; rw [if_neg (by omega)]) h

theorem chainInode_dir {inum : Nat} (h : inum ≠ 0) (hle : inum ≤ names.length) :
    chainInode names inum = ⟨tDir, 0, 0, 1, 64, fun k => if k = 0 then 100 + inum else 0⟩ := by
  unfold chainInode
  rw [if_neg h, if_pos hle]

theorem chain_used (hlen : names.length < 1000) {inum : Nat} :
    chainSb.InUse (chainDisk names) inum ↔ inum ≠ 0 ∧ inum ≤ names.length + 1 := by
  constructor
  · rintro ⟨hlt, htype⟩
    rw [chain_inode hlen hlt] at htype
    unfold chainInode at htype
    split at htype
    · exact absurd rfl htype
    rename_i hne
    split at htype
    · exact ⟨hne, by omega⟩
    · split at htype
      · exact ⟨hne, by omega⟩
      · exact absurd rfl htype
  rintro ⟨hne, hle⟩
  have hlt : inum < 1008 := by omega
  refine ⟨hlt, ?_⟩
  rw [chain_inode hlen hlt]
  unfold chainInode
  rw [if_neg hne]
  split
  · exact Nat.succ_ne_zero _
  · rw [if_pos (by omega)]
    exact Nat.succ_ne_zero _

theorem chain_nlink (hlen : names.length < 1000) {inum : Nat} (h : chainSb.InUse (chainDisk names) inum) :
    (chainSb.inode (chainDisk names) inum).nlink ≠ 0 := by
  obtain ⟨hne, hle⟩ := (chain_used hlen).1 h
  rw [chain_inode hlen (by omega)]
  unfold chainInode
  rw [if_neg hne]
  split
  · exact Nat.one_ne_zero
  · rw [if_pos (by omega)]
    exact Nat.one_ne_zero

/-- Each directory of the chain has one entry, the next one. -/
theorem chain_lookup (hlen : names.length < 1000) (hnames : ∀ name ∈ names, name.length ≤ 62 ∧ 0 ∉ name)
    {j : Nat} (hj : j < names.length) (name : Name) :
    lookup (chainDisk names) (chainSb.inode (chainDisk names) (j + 1)) name =
      if names.getD j [] = name then some (j + 2) else none := by
  have hmem : names.getD j [] ∈ names := by
    rw [getD_eq_getElem _ _ hj]
    exact getElem_mem hj
  obtain ⟨hshort, hzero⟩ := hnames _ hmem
  rw [chain_inode hlen (by omega), chainInode_dir (by omega) (by omega)]
  generalize hd : (⟨tDir, 0, 0, 1, 64, fun k => if k = 0 then 100 + (j + 1) else 0⟩ : Dinode) = d
  have hentry : direntAt (chainDisk names) d 0 = dirent (j + 2) (names.getD j []) := by
    unfold direntAt
    rw [bytesFrom_block (by decide), ← hd]
    show getBytes (chainDisk names (100 + (j + 1))) 0 64 = _
    unfold chainDisk
    rw [if_pos (by omega), show 100 + (j + 1) - 100 + 1 = j + 2 by omega,
      show 100 + (j + 1) - 101 = j by omega]
    rw [getBytes_putBytes_drop (by rw [length_dirent]), drop_zero,
      take_of_length_le (by rw [length_dirent])]
  have hdirents : dirents (chainDisk names) d = [dirent (j + 2) (names.getD j [])] := by
    have hcount : d.size / 64 = 1 := by
      rw [← hd]
      show 64 / 64 = 1
      rfl
    unfold dirents
    rw [hcount, ← hentry]
    rfl
  have hnum : direntInum (dirent (j + 2) (names.getD j [])) = j + 2 := by
    rw [direntInum_dirent]
    omega
  have hname : direntName (dirent (j + 2) (names.getD j [])) = names.getD j [] := by
    rw [direntName_dirent hzero, take_of_length_le hshort]
  have hfind : FileSys.isEntry name (dirent (j + 2) (names.getD j [])) = (names.getD j [] == name) := by
    unfold FileSys.isEntry
    rw [hnum, hname]
    simp
  unfold lookup
  rw [hdirents, List.find?_cons, hfind]
  by_cases heq : names.getD j [] = name
  · rw [if_pos heq, beq_iff_eq.2 heq]
    exact congrArg some hnum
  · rw [if_neg heq, beq_eq_false_iff_ne.2 heq]
    rfl

theorem chain_type {inum : Nat} (hlen : names.length < 1000) (h : inum < 1008) (hne : inum ≠ 0) :
    (chainSb.inode (chainDisk names) inum).type = tDir ↔ inum ≤ names.length := by
  rw [chain_inode hlen h]
  unfold chainInode
  rw [if_neg hne]
  split
  · rename_i hle
    exact ⟨fun _ => hle, fun _ => rfl⟩
  · rename_i hle
    refine ⟨fun htype => ?_, fun hle' => absurd hle' hle⟩
    split at htype <;> cases htype

theorem chain_tree (hlen : names.length < 1000) (hnames : ∀ name ∈ names, name.length ≤ 62 ∧ 0 ∉ name) :
    Tree chainSb (chainDisk names) := by
  have hroot : chainSb.InUse (chainDisk names) rootino :=
    (chain_used hlen).2 ⟨by decide, Nat.succ_le_succ (Nat.zero_le _)⟩
  have hdir : ∀ inum, chainSb.InUse (chainDisk names) inum →
      (chainSb.inode (chainDisk names) inum).type = tDir → ∃ j < names.length, inum = j + 1 := by
    intro inum hused htype
    obtain ⟨hne, hle⟩ := (chain_used hlen).1 hused
    have hle' := (chain_type hlen (by omega) hne).1 htype
    exact ⟨inum - 1, by omega, by omega⟩
  refine ⟨hroot, chain_nlink hlen hroot, fun inum hused htype bn hbn => ?_, fun inum hused htype => ?_,
    fun inum hused htype name next hl => ?_⟩
  · obtain ⟨j, hj, rfl⟩ := hdir inum hused htype
    rw [chain_inode hlen (by omega), chainInode_dir (by omega) (by omega)] at hbn ⊢
    obtain rfl : bn = 0 := by
      have hsize : bn * 1024 < 64 := hbn
      omega
    show 0 ∉ [100 + (j + 1)]
    simp
  · obtain ⟨j, hj, rfl⟩ := hdir inum hused htype
    rw [chain_inode hlen (by omega), chainInode_dir (by omega) (by omega)]
    show 64 ≤ maxBytes
    decide
  obtain ⟨j, hj, rfl⟩ := hdir inum hused htype
  rw [chain_lookup hlen hnames hj] at hl
  have hnext : chainSb.InUse (chainDisk names) next := by
    split at hl
    · rw [← Option.some.inj hl]
      exact (chain_used hlen).2 ⟨by omega, by omega⟩
    · cases hl
  exact ⟨hnext, chain_nlink hlen hnext⟩

/-- Names lead somewhere in a chain when they are the first ones of the rest of it. -/
theorem chain_resolve (hlen : names.length < 1000) (hnames : ∀ name ∈ names, name.length ≤ 62 ∧ 0 ∉ name)
    (path : List Name) {j : Nat} (hj : j ≤ names.length) :
    resolve (chainDisk names) chainSb.inodestart (j + 1) path =
      if path <+: names.drop j then some (j + path.length + 1) else none := by
  induction path generalizing j with
  | nil =>
    rfl
  | cons name rest ih =>
    rw [resolve_cons]
    rcases Nat.lt_or_eq_of_le hj with hlt | rfl
    · have hdrop : names.drop j = names.getD j [] :: names.drop (j + 1) := by
        rw [getD_eq_getElem _ _ hlt]
        exact drop_eq_getElem_cons hlt
      rw [if_pos ((chain_type hlen (by omega) (by omega)).2 (by omega)), chain_lookup hlen hnames hlt, hdrop]
      by_cases heq : names.getD j [] = name
      · rw [if_pos heq, heq, Option.bind_some, ih (by omega)]
        simp only [cons_prefix_cons, true_and, length_cons]
        congr 2
        omega
      · rw [if_neg heq, if_neg fun hpre => heq (cons_prefix_cons.1 hpre).1.symm]
        rfl
    · -- behind the last directory is the file
      rw [if_neg fun htype => absurd ((chain_type hlen (by omega) (by omega)).1 htype) (by omega),
        drop_length, if_neg (by simp)]

end

end Slopix.Fs
