import Slopix.Fs.Chain
import Slopix.Fs.Hierarchy

/-!
# Directories below each other

The image of a hierarchy of any depth up to 1000: each directory has the entries `.` and `..`, and all
but the last one have a directory `a`.
-/

namespace Slopix.Fs

open Lib List Option

/-- The name of each directory but the root. -/
def stairName : Name := [97]

/-- Inode `inum` of `n` directories below the root: a directory with its entries in block `100 + inum`. -/
def stairInode (n inum : Nat) : Dinode :=
  if inum ≠ 0 ∧ inum ≤ n + 1 then ⟨tDir, 0, 0, 1, 192, fun k => if k = 0 then 100 + inum else 0⟩
  else ⟨0, 0, 0, 0, 0, fun k => if k = 0 then 0 else 0⟩

/-- The entries of directory `inum`. -/
def stairEntries (n inum : Nat) : List UInt8 :=
  dirent inum dot ++ (dirent (max 1 (inum - 1)) dotdot ++ dirent (if inum ≤ n then inum + 1 else 0) stairName)

/-- The blocks of the image. -/
def stairDisk (n b : Nat) : Block :=
  if 100 ≤ b then putBytes (fun _ => 0) 0 (stairEntries n (b - 100))
  else fun o => putDinode (fun _ => 0) (o / 64 * 64) (stairInode n ((b - 2) * 16 + o / 64)) o

section

variable {n inum : Nat} {name : Name}

theorem stair_inode (hn : n < 1000) (h : inum < 1008) :
    chainSb.inode (stairDisk n) inum = stairInode n inum := by
  refine table_inode (fun i => ?_) (fun b hb o => by unfold stairDisk; rw [if_neg (by omega)]) h
  unfold stairInode
  split
  · exact fits_block (by decide) (by decide) (by decide) (by unfold uintMod; omega)
  · exact fits_block (by decide) (by decide) (by decide) (by decide)

theorem stair_dir (hn : n < 1000) (h0 : inum ≠ 0) (hle : inum ≤ n + 1) :
    chainSb.inode (stairDisk n) inum = ⟨tDir, 0, 0, 1, 192, fun k => if k = 0 then 100 + inum else 0⟩ := by
  rw [stair_inode hn (by omega)]
  unfold stairInode
  rw [if_pos ⟨h0, hle⟩]

theorem stair_used (hn : n < 1000) : chainSb.InUse (stairDisk n) inum ↔ inum ≠ 0 ∧ inum ≤ n + 1 := by
  constructor
  · rintro ⟨hlt, htype⟩
    rw [stair_inode hn hlt] at htype
    unfold stairInode at htype
    split at htype
    · assumption
    · exact absurd rfl htype
  rintro ⟨h0, hle⟩
  refine ⟨show inum < 1008 by omega, ?_⟩
  rw [stair_dir hn h0 hle]
  exact Nat.succ_ne_zero _

theorem stair_dirents (hn : n < 1000) (h0 : inum ≠ 0) (hle : inum ≤ n + 1) :
    dirents (stairDisk n) (chainSb.inode (stairDisk n) inum) =
      [dirent inum dot, dirent (max 1 (inum - 1)) dotdot,
        dirent (if inum ≤ n then inum + 1 else 0) stairName] := by
  rw [stair_dir hn h0 hle]
  generalize hd : (⟨tDir, 0, 0, 1, 192, fun k => if k = 0 then 100 + inum else 0⟩ : Dinode) = d
  have hentry : ∀ j < 3, direntAt (stairDisk n) d j = ((stairEntries n inum).drop (64 * j)).take 64 := by
    intro j hj
    have hblock : blockAt (stairDisk n) d (64 * j / 1024) = 100 + inum := by
      rw [show 64 * j / 1024 = 0 by omega, ← hd]
      rfl
    have hdisk : stairDisk n (100 + inum) = putBytes (fun _ => 0) 0 (stairEntries n inum) := by
      unfold stairDisk
      rw [if_pos (by omega), Nat.add_sub_cancel_left]
    unfold direntAt
    rw [bytesFrom_block (by omega), hblock, hdisk, show 64 * j % 1024 = 64 * j by omega]
    refine getBytes_putBytes_drop ?_
    unfold stairEntries
    simp only [length_append, length_dirent]
    omega
  have hcount : d.size / 64 = 3 := by
    rw [← hd]
    show 192 / 64 = 3
    rfl
  unfold dirents
  rw [hcount]
  show [direntAt (stairDisk n) d 0, direntAt (stairDisk n) d 1, direntAt (stairDisk n) d 2] = _
  rw [hentry 0 (by decide), hentry 1 (by decide), hentry 2 (by decide)]
  unfold stairEntries
  simp [drop_append, drop_of_length_le, take_of_length_le]

theorem stair_entry {num : Nat} (hnum : num < 65536) (hname : name ∈ [dot, dotdot, stairName]) :
    direntInum (dirent num name) = num ∧ direntName (dirent num name) = name := by
  have hplain : ∀ x ∈ [dot, dotdot, stairName], (0 : UInt8) ∉ x ∧ x.take 62 = x := by decide
  rw [direntInum_dirent, direntName_dirent (hplain name hname).1, Nat.mod_eq_of_lt hnum]
  exact ⟨rfl, (hplain name hname).2⟩

/-- Each directory of the stair has its two dots and the next one. -/
theorem stair_lookup (hn : n < 1000) (h0 : inum ≠ 0) (hle : inum ≤ n + 1) (name : Name) :
    lookup (stairDisk n) (chainSb.inode (stairDisk n) inum) name =
      if name = dot then some inum
      else if name = dotdot then some (max 1 (inum - 1))
      else if name = stairName ∧ inum ≤ n then some (inum + 1) else none := by
  have htest : ∀ num name', num < 65536 → name' ∈ [dot, dotdot, stairName] →
      FileSys.isEntry name (dirent num name') = (num != 0 && name' == name) ∧
        direntInum (dirent num name') = num := by
    intro num name' hnum hname'
    obtain ⟨hentry, hname⟩ := stair_entry hnum hname'
    unfold FileSys.isEntry
    rw [hentry, hname]
    exact ⟨rfl, rfl⟩
  obtain ⟨hdot, hdotNum⟩ := htest inum dot (by omega) (by simp)
  obtain ⟨hup, hupNum⟩ := htest (max 1 (inum - 1)) dotdot (by omega) (by simp)
  obtain ⟨hdown, hdownNum⟩ := htest (if inum ≤ n then inum + 1 else 0) stairName (by split <;> omega) (by simp)
  unfold lookup
  rw [stair_dirents hn h0 hle]
  by_cases h1 : name = dot
  · rw [if_pos h1, find?_cons_of_pos (by rw [hdot, h1]; simp [h0])]
    exact congrArg some hdotNum
  rw [if_neg h1, find?_cons_of_neg (by rw [hdot]; simp [Ne.symm h1])]
  by_cases h2 : name = dotdot
  · rw [if_pos h2, find?_cons_of_pos (by rw [hup, h2]; simp)]
    exact congrArg some hupNum
  rw [if_neg h2, find?_cons_of_neg (by rw [hup]; simp [Ne.symm h2])]
  by_cases h3 : name = stairName ∧ inum ≤ n
  · rw [if_pos h3.2] at hdown hdownNum ⊢
    rw [if_pos h3, find?_cons_of_pos (by rw [hdown, h3.1]; simp)]
    exact congrArg some hdownNum
  rw [if_neg h3, find?_cons_of_neg, find?_nil]
  · rfl
  rw [hdown, Bool.and_eq_true_iff, bne_iff_ne, beq_iff_eq]
  rintro ⟨hne, rfl⟩
  by_cases hlast : inum ≤ n
  · exact h3 ⟨rfl, hlast⟩
  · exact hne (if_neg hlast)

theorem stair_ordinary (hn : n < 1000) (h0 : inum ≠ 0) (hle : inum ≤ n + 1) (hname : Ordinary name)
    {next : Nat} (hl : lookup (stairDisk n) (chainSb.inode (stairDisk n) inum) name = some next) :
    name = stairName ∧ inum ≤ n ∧ next = inum + 1 := by
  rw [stair_lookup hn h0 hle, if_neg hname.1, if_neg hname.2] at hl
  by_cases h3 : name = stairName ∧ inum ≤ n
  · rw [if_pos h3] at hl
    exact ⟨h3.1, h3.2, (some.inj hl).symm⟩
  · rw [if_neg h3] at hl
    cases hl

/-- It is a hierarchy. -/
theorem stair_hierarchy (hn : n < 1000) : Hierarchy chainSb (stairDisk n) := by
  have hdir : ∀ inum, chainSb.InUse (stairDisk n) inum → inum ≠ 0 ∧ inum ≤ n + 1 := fun inum hused =>
    (stair_used hn).1 hused
  have hlink : ∀ inum, chainSb.InUse (stairDisk n) inum → (chainSb.inode (stairDisk n) inum).nlink ≠ 0 := by
    intro inum hused
    rw [stair_dir hn (hdir inum hused).1 (hdir inum hused).2]
    exact Nat.one_ne_zero
  have hroot : chainSb.InUse (stairDisk n) rootino :=
    (stair_used hn).2 ⟨by decide, Nat.succ_le_succ (Nat.zero_le n)⟩
  refine ⟨⟨hroot, hlink _ hroot, ?_, ?_, ?_⟩, ?_, ?_, ?_⟩
  · intro inum hused _ bn hbn
    rw [stair_dir hn (hdir inum hused).1 (hdir inum hused).2] at hbn ⊢
    obtain rfl : bn = 0 := by
      have hsize : bn * 1024 < 192 := hbn
      omega
    show 0 ∉ [100 + inum]
    rw [mem_singleton]
    omega
  · intro inum hused _
    rw [stair_dir hn (hdir inum hused).1 (hdir inum hused).2]
    show 192 ≤ maxBytes
    decide
  · intro inum hused _ name next hl
    obtain ⟨h0, hle⟩ := hdir inum hused
    have hnext : chainSb.InUse (stairDisk n) next := by
      rw [stair_lookup hn h0 hle] at hl
      refine (stair_used hn).2 ?_
      split at hl
      · have hnum := some.inj hl
        omega
      split at hl
      · have hnum := some.inj hl
        omega
      split at hl
      · have hnum := some.inj hl
        omega
      · cases hl
    exact ⟨hnext, hlink next hnext⟩
  · exact congrArg Dinode.type (@stair_dir n 1 hn (by decide) (Nat.succ_le_succ (Nat.zero_le n)))
  · intro inum hused _ de hde hne
    obtain ⟨h0, hle⟩ := hdir inum hused
    rw [stair_dirents hn h0 hle] at hde
    rw [stair_lookup hn h0 hle]
    simp only [mem_cons, not_mem_nil, or_false] at hde
    rcases hde with rfl | rfl | rfl
    · obtain ⟨hnum, hname⟩ := @stair_entry dot inum (by omega) (by simp)
      rw [hnum, hname]
      exact ⟨by decide, by decide, if_pos rfl⟩
    · obtain ⟨hnum, hname⟩ := @stair_entry dotdot (max 1 (inum - 1)) (by omega) (by simp)
      rw [hnum, hname]
      exact ⟨by decide, by decide, rfl⟩
    have hbound : (if inum ≤ n then inum + 1 else 0) < 65536 := by split <;> omega
    obtain ⟨hnum, hname⟩ := @stair_entry stairName _ hbound (by simp)
    rw [hnum] at hne
    have hlt : inum ≤ n := by
      by_contra hlast
      exact hne (if_neg hlast)
    rw [hnum, hname, if_pos hlt, if_neg (by decide), if_neg (by decide), if_pos (And.intro rfl hlt)]
    exact ⟨by decide, by decide, rfl⟩
  intro inum hused _ name next hname hl _
  obtain ⟨h0, hle⟩ := hdir inum hused
  obtain ⟨hstair, hlt, rfl⟩ := stair_ordinary hn h0 hle hname hl
  refine ⟨fun hone => h0 (Nat.succ.inj hone), ?_, fun name' hname' hl' => ?_⟩
  · rw [stair_lookup hn (by omega) (by omega), if_neg (by decide), if_pos rfl]
    exact congrArg some (by omega)
  · exact (stair_ordinary hn h0 hle hname' hl').1.trans hstair.symm

theorem stair_leads (hn : n < 1000) {m : Nat} (hm : m ≤ n) :
    Leads chainSb (stairDisk n) (replicate m stairName) (m + 1) := by
  have hwalk : ∀ m j, j + m ≤ n → resolve (stairDisk n) chainSb.inodestart (j + 1)
      (replicate m stairName) = some (j + m + 1) := by
    intro m
    induction m with
    | zero => exact fun j _ => rfl
    | succ m ih =>
      intro j hj
      rw [replicate_succ, resolve_cons, stair_dir hn (by omega) (by omega), if_pos rfl,
        ← stair_dir hn (by omega) (by omega : j + 1 ≤ n + 1), stair_lookup hn (by omega) (by omega),
        if_neg (by decide), if_neg (by decide), if_pos (And.intro rfl (by omega)), bind_some,
        ih (j + 1) (by omega)]
      exact congrArg some (by omega)
  refine ⟨fun name hname => ?_, ?_, ?_⟩
  · rw [eq_of_mem_replicate hname]
    exact ⟨by decide, by decide⟩
  · have hres := hwalk m 0 (by omega)
    rw [Nat.zero_add m] at hres
    exact hres
  · rw [stair_dir hn (by omega) (by omega)]

end

end Slopix.Fs
