import Mathlib.Data.Finset.Card
import Slopix.Fs.Cached
import Slopix.Fs.Names
import Slopix.Fs.Walk

/-!
# Walks over a directory tree

`Coherent sb rd s B L` is a state of the file system in the middle of its life: the inode cache has
references `B` and locks `L`, and what it holds of an inode is what the image `rd` holds of it.
A path walk in such a state ends at the inode that `resolve` finds in the image, whatever else is
cached. It needs at most two entries of the cache that are not in use at its start.
-/

namespace Slopix.Fs

open Lib Multiset Exec Option FileSys

/-- The directories of an image form a tree to walk in: the root is there, and each directory in use
has all its blocks and names linked inodes in use. -/
structure Tree (sb : Superblock) (rd : Nat → Block) : Prop where
  root : sb.InUse rd rootino
  rootLink : (sb.inode rd rootino).nlink ≠ 0
  whole : ∀ inum, sb.InUse rd inum → (sb.inode rd inum).type = tDir → NoHoles rd (sb.inode rd inum)
  size : ∀ inum, sb.InUse rd inum → (sb.inode rd inum).type = tDir → (sb.inode rd inum).size ≤ maxBytes
  entry : ∀ inum, sb.InUse rd inum → (sb.inode rd inum).type = tDir →
    ∀ name next, lookup rd (sb.inode rd inum) name = some next →
      sb.InUse rd next ∧ (sb.inode rd next).nlink ≠ 0

/-- A consistent image without holes is a tree to walk in. -/
theorem Consistent.tree {sb : Superblock} {rd : Nat → Block} (h : Consistent rd sb) (hsolid : Solid rd sb) :
    Tree sb rd where
  root := h.root
  rootLink := (h.inode rootino h.root).nlink
  whole inum hused _ := hsolid inum hused
  size inum hused _ := (h.inode inum hused).size
  entry inum hused htype _ next hl :=
    have hnext := (h.inode inum hused).lookup htype hl
    ⟨hnext, (h.inode next hnext).nlink⟩

/-- The inode cache, with references `B` and locks `L`, agrees with the image `rd`. -/
structure Coherent (sb : Superblock) (rd : Nat → Block) (s : FileSys) (B : Multiset Nat)
    (L : Finset Nat) : Prop where
  cached : Cached s B L
  super : s.sb = sb
  image : s.bread = rd
  dev : ∀ i ∈ B, (s.icache i).dev = 0
  used : ∀ i ∈ B, sb.InUse rd (s.icache i).inum
  din : ∀ i ∈ B, (s.icache i).valid = true → (s.icache i).din = sb.inode rd (s.icache i).inum

/-- The entries in `B` hold the same inodes in both states. -/
def SameNumbers (B : Multiset Nat) (s s' : FileSys) : Prop :=
  ∀ i ∈ B, (s'.icache i).inum = (s.icache i).inum

section

variable {sb : Superblock} {rd : Nat → Block} {s s' : FileSys} {B : Multiset Nat} {L : Finset Nat}
  {i inum : Nat}

theorem SameNumbers.refl : SameNumbers B s s := fun _ _ => rfl

theorem SameNumbers.trans {s'' : FileSys} (h : SameNumbers B s s') (h' : SameNumbers B s' s'') :
    SameNumbers B s s'' := fun i hi => (h' i hi).trans (h i hi)

theorem Cached.free (h : Cached s B L) (hroom : B.toFinset.card < ninode) :
    ∃ j, s.findInode (fun ip => ip.ref == 0) = some j := by
  obtain ⟨j, hj, hnot⟩ : ∃ j ∈ Finset.range ninode, j ∉ B.toFinset := by
    apply Finset.exists_mem_notMem_of_card_lt_card
    rwa [Finset.card_range]
  cases hfind : s.findInode fun ip => ip.ref == 0 with
  | some j => exact ⟨j, rfl⟩
  | none =>
    have hall := List.find?_eq_none.1 hfind j (List.mem_range.2 (Finset.mem_range.1 hj))
    have hzero : (s.icache j).ref = 0 := by
      rw [h.ref j, count_eq_zero_of_notMem fun hmem => hnot (mem_toFinset.2 hmem)]
      rfl
    exact absurd (beq_iff_eq.2 hzero) hall

theorem Coherent.congr {B' : Multiset Nat} {L' : Finset Nat} (h : Coherent sb rd s B L)
    (hcached : Cached s' B' L') (hB : ∀ j ∈ B', j ∈ B) (hsb : s'.sb = s.sb) (hread : s'.bread = s.bread)
    (hsame : ∀ j, (s'.icache j).dev = (s.icache j).dev ∧ (s'.icache j).inum = (s.icache j).inum ∧
      (s'.icache j).valid = (s.icache j).valid ∧ (s'.icache j).din = (s.icache j).din) :
    Coherent sb rd s' B' L' := by
  refine ⟨hcached, hsb.trans h.super, hread.trans h.image, fun j hj => ?_, fun j hj => ?_,
    fun j hj hv => ?_⟩
  · rw [(hsame j).1]
    exact h.dev j (hB j hj)
  · rw [(hsame j).2.1]
    exact h.used j (hB j hj)
  · rw [(hsame j).2.2.1] at hv
    rw [(hsame j).2.1, (hsame j).2.2.2]
    exact h.din j (hB j hj) hv

/-- One more reference, and nothing else. -/
theorem Coherent.idup (h : Coherent sb rd s B L) (hi : i ∈ B) :
    Coherent sb rd (s.idup i) (i ::ₘ B) L ∧ ∀ j, ((s.idup i).icache j).inum = (s.icache j).inum ∧
      ((s.idup i).icache j).din = (s.icache j).din := by
  have hsame : ∀ j, ((s.idup i).icache j).dev = (s.icache j).dev ∧
      ((s.idup i).icache j).inum = (s.icache j).inum ∧
      ((s.idup i).icache j).valid = (s.icache j).valid ∧
      ((s.idup i).icache j).din = (s.icache j).din := by
    intro j
    by_cases hj : j = i
    · rw [hj, show (s.idup i).icache i = { s.icache i with ref := (s.icache i).ref + 1 } from
        Function.update_self ..]
      exact ⟨rfl, rfl, rfl, rfl⟩
    · rw [show (s.idup i).icache j = s.icache j from Function.update_of_ne hj ..]
      exact ⟨rfl, rfl, rfl, rfl⟩
  have hmem : ∀ j ∈ i ::ₘ B, j ∈ B := fun j hj => (mem_cons.1 hj).elim (· ▸ hi) id
  exact ⟨h.congr (h.cached.idup hi) hmem rfl rfl hsame, fun j => ⟨(hsame j).2.1, (hsame j).2.2.2⟩⟩

/-- An inode in use gets a slot while there is room. -/
theorem Coherent.iget (h : Coherent sb rd s B L) (hroom : B.toFinset.card < ninode)
    (hused : sb.InUse rd inum) :
    ∃ i, (s.iget 0 inum).1 = some i ∧ Coherent sb rd (s.iget 0 inum).2 (i ::ₘ B) L ∧
      ((s.iget 0 inum).2.icache i).inum = inum ∧ SameNumbers B s (s.iget 0 inum).2 ∧
      ∀ j ∈ B, ((s.iget 0 inum).2.icache j).din = (s.icache j).din := by
  cases hfind : s.findInode fun ip => decide (0 < ip.ref) && ip.dev == 0 && ip.inum == inum with
  | some i =>
    -- the inode is in the cache
    have hprop := (findInode_spec hfind).2
    simp only [Bool.and_eq_true, decide_eq_true_eq, beq_iff_eq] at hprop
    have hget : s.iget 0 inum = (some i, s.idup i) := by
      unfold FileSys.iget
      rw [hfind]
      rfl
    obtain ⟨hdup, hsame⟩ := h.idup (h.cached.ref_pos.1 hprop.1.1)
    rw [hget]
    exact ⟨i, rfl, hdup, (hsame i).1.trans hprop.2, fun j _ => (hsame j).1, fun j _ => (hsame j).2⟩
  | none =>
    -- a free entry is taken
    obtain ⟨i, hfree⟩ := h.cached.free hroom
    have hzero := (findInode_spec hfree).2
    rw [beq_iff_eq] at hzero
    have hnot : i ∉ B := by
      intro hi
      have hpos := h.cached.ref_pos.2 hi
      omega
    generalize hs' : s.setInode i { s.icache i with
      dev := 0, inum := inum, ref := 1, valid := false, locked := false } = s'
    have hget : s.iget 0 inum = (some i, s') := by
      unfold FileSys.iget
      rw [hfind, ← hs']
      rw [hfree]
    have hcached := h.cached.iget 0 inum
    rw [hget] at hcached ⊢
    have hself : s'.icache i = { s.icache i with
        dev := 0, inum := inum, ref := 1, valid := false, locked := false } := by
      rw [← hs', setInode_icache_self]
    have hother : ∀ j ∈ B, s'.icache j = s.icache j := fun j hj => by
      rw [← hs', setInode_icache_of_ne _ (ne_of_mem_of_not_mem hj hnot)]
    refine ⟨i, rfl, ⟨hcached, ?_, ?_, fun j hj => ?_, fun j hj => ?_, fun j hj hv => ?_⟩,
      by rw [hself], fun j hj => by rw [hother j hj], fun j hj => by rw [hother j hj]⟩
    · rw [← hs']
      exact h.super
    · rw [← hs']
      exact h.image
    · rcases mem_cons.1 hj with rfl | hj
      · rw [hself]
      · rw [hother j hj]
        exact h.dev j hj
    · rcases mem_cons.1 hj with rfl | hj
      · rw [hself]
        exact hused
      · rw [hother j hj]
        exact h.used j hj
    rcases mem_cons.1 hj with rfl | hj
    · rw [hself] at hv
      cases hv
    · rw [hother j hj] at hv ⊢
      exact h.din j hj hv

/-- `fs_ilock` of a referenced inode fills it from the image. -/
theorem Coherent.ilock (h : Coherent sb rd s B L) (hi : i ∈ B) (hL : i ∉ L) :
    ∃ s', Fs.ilock i s = .ok ((), s') ∧ Coherent sb rd s' B (insert i L) ∧
      (s'.icache i).din = sb.inode rd (s.icache i).inum ∧
      ∀ j, (s'.icache j).inum = (s.icache j).inum := by
  have hpos : ¬ (s.icache i).ref < 1 := by
    have href := h.cached.ref_pos.2 hi
    omega
  have hfree : ¬ (s.icache i).locked = true := fun hl => hL ((h.cached.locked i).1 hl)
  have hrun : Fs.ilock i s = .ok ((), (s.setLocked i true).load i) := by
    unfold Fs.ilock
    rw [bind_ok (b := s.icache i) rfl, if_neg hpos, if_neg hfree]
    rfl
  have hcached := (ilock_spec (S := False) h.cached hi fun hs => hs.elim).ok _ _ hrun
  have hdin : s.dinode (s.icache i).inum = sb.inode rd (s.icache i).inum := by
    unfold dinode iblock Superblock.inode inodeAt
    rw [h.image, h.super]
  have hstate : (s.setLocked i true).load i = s.setInode i { s.icache i with
      locked := true, valid := true, din := sb.inode rd (s.icache i).inum } := by
    unfold load setLocked
    simp only [setInode, Function.update_self, Function.update_idem]
    by_cases hv : (s.icache i).valid = true
    · rw [if_pos hv, ← h.din i hi hv, hv]
    · rw [if_neg hv, ← hdin]
      rfl
  rw [hstate] at hrun hcached
  generalize hs' : s.setInode i { s.icache i with
    locked := true, valid := true, din := sb.inode rd (s.icache i).inum } = s' at hrun hcached
  have hself : s'.icache i = { s.icache i with
      locked := true, valid := true, din := sb.inode rd (s.icache i).inum } := by
    rw [← hs', setInode_icache_self]
  have hother : ∀ j, j ≠ i → s'.icache j = s.icache j := fun j hj => by
    rw [← hs', setInode_icache_of_ne _ hj]
  have hinum : ∀ j, (s'.icache j).inum = (s.icache j).inum := by
    intro j
    by_cases hj : j = i
    · rw [hj, hself]
    · rw [hother j hj]
  refine ⟨s', hrun, ⟨hcached.1, ?_, ?_, fun j hj => ?_, fun j hj => ?_, fun j hj hv => ?_⟩, by rw [hself],
    hinum⟩
  · rw [← hs']
    exact h.super
  · rw [← hs']
    exact h.image
  · by_cases hji : j = i
    · rw [hji, hself]
      exact h.dev i hi
    · rw [hother j hji]
      exact h.dev j hj
  · rw [hinum j]
    exact h.used j hj
  by_cases hji : j = i
  · rw [hji, hself]
  · rw [hother j hji] at hv ⊢
    exact h.din j hj hv

/-- An unlock changes no inode. -/
theorem Coherent.iunlock (h : Coherent sb rd s B L) (hi : i ∈ B) :
    Coherent sb rd (s.iunlock i) B (L.erase i) ∧ ∀ j, ((s.iunlock i).icache j).inum = (s.icache j).inum ∧
      ((s.iunlock i).icache j).din = (s.icache j).din := by
  have hsame : ∀ j, ((s.iunlock i).icache j).dev = (s.icache j).dev ∧
      ((s.iunlock i).icache j).inum = (s.icache j).inum ∧
      ((s.iunlock i).icache j).valid = (s.icache j).valid ∧
      ((s.iunlock i).icache j).din = (s.icache j).din := by
    intro j
    unfold FileSys.iunlock
    split
    · exact ⟨rfl, rfl, rfl, rfl⟩
    by_cases hj : j = i
    · rw [hj, setLocked, setInode_icache_self]
      exact ⟨rfl, rfl, rfl, rfl⟩
    · rw [setLocked, setInode_icache_of_ne _ hj]
      exact ⟨rfl, rfl, rfl, rfl⟩
  have hdisk : (s.iunlock i).sb = s.sb ∧ (s.iunlock i).bread = s.bread := by
    unfold FileSys.iunlock
    split <;> exact ⟨rfl, rfl⟩
  exact ⟨h.congr (h.cached.iunlock hi) (fun _ hj => hj) hdisk.1 hdisk.2 hsame,
    fun j => ⟨(hsame j).2.1, (hsame j).2.2.2⟩⟩

/-- `fs_iput` of an inode that stays: another reference is left, or it has a link. -/
theorem Coherent.iput (h : Coherent sb rd s (i ::ₘ B) L) (hL : i ∈ L → i ∈ B)
    (hkeep : i ∈ B ∨ (sb.inode rd (s.icache i).inum).nlink ≠ 0) :
    ∃ s', Fs.iput i s = .ok ((), s') ∧ Coherent sb rd s' B L ∧
      ∀ j, (s'.icache j).inum = (s.icache j).inum := by
  have href := h.cached.ref i
  rw [count_cons_self] at href
  have hrun : Fs.iput i s = .ok ((), s.dropRef i) := by
    unfold Fs.iput
    rw [bind_ok (b := s.icache i) rfl, if_neg]
    · rfl
    rintro ⟨hlast, hvalid, hnlink⟩
    rcases hkeep with hmem | hlink
    · have hpos := count_pos.2 hmem
      omega
    · rw [h.din i (mem_cons_self i B) hvalid] at hnlink
      exact hlink hnlink
  have hsame : ∀ j, ((s.dropRef i).icache j).dev = (s.icache j).dev ∧
      ((s.dropRef i).icache j).inum = (s.icache j).inum ∧
      ((s.dropRef i).icache j).valid = (s.icache j).valid ∧
      ((s.dropRef i).icache j).din = (s.icache j).din := by
    intro j
    by_cases hj : j = i
    · rw [hj, dropRef, setInode_icache_self]
      exact ⟨rfl, rfl, rfl, rfl⟩
    · rw [dropRef, setInode_icache_of_ne _ hj]
      exact ⟨rfl, rfl, rfl, rfl⟩
  exact ⟨_, hrun, h.congr (h.cached.dropRef hL) (fun _ hj => mem_cons_of_mem hj) rfl rfl hsame,
    fun j => (hsame j).2.1⟩

/-- Unlock and put, of an inode that stays in use. -/
theorem Coherent.iunlockput (h : Coherent sb rd s (i ::ₘ B) L)
    (hkeep : i ∈ B ∨ (sb.inode rd (s.icache i).inum).nlink ≠ 0) :
    ∃ s', Fs.iunlockput i s = .ok ((), s') ∧ Coherent sb rd s' B (L.erase i) ∧
      ∀ j, (s'.icache j).inum = (s.icache j).inum := by
  obtain ⟨h1, hsame⟩ := h.iunlock (mem_cons_self i B)
  obtain ⟨s', hput, h2, hinum⟩ := h1.iput (fun hmem => absurd hmem (Finset.notMem_erase i L))
    (hkeep.imp_right fun hlink => by rw [(hsame i).1]; exact hlink)
  exact ⟨s', hput, h2, fun j => (hinum j).trans (hsame j).1⟩

/-! ## Walks -/

/-- The references leave room for `n` more entries of the cache. -/
def Room (B : Multiset Nat) (n : Nat) : Prop := B.toFinset.card + n ≤ ninode

theorem Room.cons {n : Nat} (h : Room B (n + 1)) (i : Nat) : Room (i ::ₘ B) n := by
  unfold Room at h ⊢
  rw [toFinset_cons]
  have hcard := Finset.card_insert_le i B.toFinset
  omega

theorem Room.mono {m n : Nat} (h : Room B n) (hle : m ≤ n) : Room B m := by
  unfold Room at h ⊢
  omega

theorem Room.lt {n : Nat} (h : Room B (n + 1)) : B.toFinset.card < ninode := by
  unfold Room at h
  omega

/-- The walk along some names ends at the inode that they lead to in the image. The directory it is
at stays in the cache: somebody else has a reference to it, or it has a link. -/
theorem namexLoop_resolve (htree : Tree sb rd) (names : List Name) (h : Coherent sb rd s (i ::ₘ B) ∅)
    (hroom : Room B 2) (hkeep : i ∈ B ∨ (sb.inode rd (s.icache i).inum).nlink ≠ 0) :
    ∃ r s', namexLoop false i names s = .ok (r, s') ∧ Coherent sb rd s' (foundAt r + B) ∅ ∧
      r.map (fun x => (s'.icache x.1).inum) = resolve rd sb.inodestart (s.icache i).inum names ∧
      SameNumbers B s s' := by
  induction names generalizing s i with
  | nil => exact ⟨some (i, []), s, rfl, h, rfl, SameNumbers.refl⟩
  | cons name rest ih =>
    have hi : i ∈ i ::ₘ B := mem_cons_self i B
    have hB : ∀ j ∈ B, j ∈ i ::ₘ B := fun j hj => mem_cons_of_mem hj
    obtain ⟨s1, hlock, h1, hdin, hinum1⟩ := h.ilock hi (Finset.notMem_empty i)
    have hused := h.used i hi
    have hnlink : i ∈ B ∨ (sb.inode rd (s1.icache i).inum).nlink ≠ 0 := by
      rw [hinum1]
      exact hkeep
    have hunlock : (insert i (∅ : Finset Nat)).erase i = ∅ :=
      Finset.erase_insert (Finset.notMem_empty i)
    rw [namexLoop, bind_ok hlock, bind_ok (b := (s1.icache i).din.type) rfl, resolve_cons]
    by_cases htype : (sb.inode rd (s.icache i).inum).type = tDir
    · have hdir : (s1.icache i).din.type = tDir := by rw [hdin]; exact htype
      have hlook := dirlookup_eq (s := s1) (i := i) name
        (by rw [hdin, h1.image]; exact htree.whole _ hused htype)
        (by rw [hdin]; exact htree.size _ hused htype) hdir
      rw [hdin, h1.image, h1.dev i hi] at hlook
      rw [if_neg (not_not.2 hdir), if_neg fun hmode => Bool.false_ne_true hmode.1, if_pos htype,
        bind_ok (b := (s1.dirlookup i name).1) (t := (s1.dirlookup i name).2) rfl]
      cases hl : lookup rd (sb.inode rd (s.icache i).inum) name with
      | none =>
        rw [hl] at hlook
        obtain ⟨s2, hput, h2, hinum2⟩ := h1.iunlockput hnlink
        rw [hunlock] at h2
        rw [hlook.1, hlook.2, bind_ok hput]
        refine ⟨none, s2, rfl, ?_, rfl, fun j _ => (hinum2 j).trans (hinum1 j)⟩
        rw [show foundAt none + B = B from zero_add B]
        exact h2
      | some next =>
        rw [hl] at hlook
        obtain ⟨hnext, hlink⟩ := htree.entry _ hused htype name next hl
        obtain ⟨j, hj, h2, hnum, hsame, -⟩ := h1.iget (hroom.cons i).lt hnext
        have hswap : j ::ₘ i ::ₘ B = i ::ₘ j ::ₘ B := cons_swap j i B
        rw [hswap] at h2
        have hkeep2 : i ∈ j ::ₘ B ∨ (sb.inode rd ((s1.iget 0 next).2.icache i).inum).nlink ≠ 0 := by
          rw [hsame i hi]
          exact hnlink.imp_left fun hmem => mem_cons_of_mem hmem
        obtain ⟨s3, hput, h3, hinum3⟩ := h2.iunlockput hkeep2
        rw [hunlock] at h3
        have hj3 : (s3.icache j).inum = next := (hinum3 j).trans hnum
        obtain ⟨r, s4, hrun, h4, hres, hsame4⟩ := ih h3 (Or.inr (by rw [hj3]; exact hlink))
        rw [hlook.1, hlook.2, hj, bind_ok hput]
        refine ⟨r, s4, hrun, h4, ?_, ?_⟩
        · rw [hres, hj3]
          rfl
        · intro k hk
          rw [hsame4 k hk, hinum3 k, hsame k (hB k hk), hinum1 k]
    have hnot : (s1.icache i).din.type ≠ tDir := by rw [hdin]; exact htype
    obtain ⟨s2, hput, h2, hinum2⟩ := h1.iunlockput hnlink
    rw [hunlock] at h2
    rw [if_pos hnot, bind_ok hput, if_neg htype]
    refine ⟨none, s2, rfl, ?_, rfl, fun j _ => (hinum2 j).trans (hinum1 j)⟩
    rw [show foundAt none + B = B from zero_add B]
    exact h2

/-- The number of the inode that a path starts at. -/
def startNumber (s : FileSys) (cwd : Option Nat) (path : List UInt8) : Option Nat :=
  if path.head? = some slash then some rootino else cwd.map fun i => (s.icache i).inum

/-- `fs_namei` in a directory tree: the inode that the names of the path lead to. -/
theorem namei_resolve (htree : Tree sb rd) (h : Coherent sb rd s B ∅) (hroom : Room B 2)
    {cwd : Option Nat} {path : List UInt8} {start : Nat} (hcwd : ∀ i, cwd = some i → i ∈ B)
    (hstart : startNumber s cwd path = some start) :
    ∃ r s', namei cwd path s = .ok (r, s') ∧ Coherent sb rd s' (found r + B) ∅ ∧
      r.map (fun i => (s'.icache i).inum) = resolve rd sb.inodestart start (pathNames path) ∧
      SameNumbers B s s' := by
  have hend : ∀ i s1, Coherent sb rd s1 (i ::ₘ B) ∅ → (s1.icache i).inum = start → SameNumbers B s s1 →
      (i ∈ B ∨ (sb.inode rd start).nlink ≠ 0) → walkStart cwd path s = .ok (some i, s1) →
      ∃ r s', namei cwd path s = .ok (r, s') ∧ Coherent sb rd s' (found r + B) ∅ ∧
        r.map (fun i => (s'.icache i).inum) = resolve rd sb.inodestart start (pathNames path) ∧
        SameNumbers B s s' := by
    intro i s1 h1 hnum hsame hkeep hrun
    rw [← hnum] at hkeep
    obtain ⟨r, s2, hwalk, h2, hres, hsame2⟩ :=
      namexLoop_resolve htree (pathNames path) h1 hroom hkeep
    have hnamei : namei cwd path s = .ok (r.map Prod.fst, s2) := by
      unfold namei
      rw [namex_walk, Exec.bind_bind, bind_ok hrun]
      exact bind_ok hwalk
    refine ⟨r.map Prod.fst, s2, hnamei, ?_, ?_, hsame.trans hsame2⟩
    · match r with
      | none => exact h2
      | some (j, _) => exact h2
    · rw [← hnum, ← hres, Option.map_map]
      rfl
  unfold startNumber at hstart
  by_cases habs : path.head? = some slash
  · rw [if_pos habs] at hstart
    obtain rfl := Option.some.inj hstart
    obtain ⟨i, hi, h1, hnum, hsame, -⟩ := h.iget hroom.lt htree.root
    refine hend i _ h1 hnum hsame (Or.inr htree.rootLink) ?_
    unfold walkStart
    rw [if_pos habs, ← hi]
    rfl
  rw [if_neg habs] at hstart
  cases cwd with
  | none => cases hstart
  | some i =>
    have hi := hcwd i rfl
    obtain ⟨h1, hsame⟩ := h.idup hi
    refine hend i _ h1 ((hsame i).1.trans (Option.some.inj hstart)) (fun j _ => (hsame j).1)
      (Or.inl hi) ?_
    unfold walkStart
    rw [if_neg habs]
    rfl

theorem resolve_append (inodestart inum : Nat) (xs ys : List Name) :
    resolve rd inodestart inum (xs ++ ys) =
      (resolve rd inodestart inum xs).bind fun next => resolve rd inodestart next ys := by
  induction xs generalizing inum with
  | nil => rfl
  | cons name rest ih =>
    rw [List.cons_append, resolve, resolve]
    split
    · cases lookup rd (inodeAt rd inodestart inum) name with
      | none => rfl
      | some next => exact ih next
    · rfl

/-- `fs_namei` of two paths joined by a slash: first the one, then the other from there. -/
theorem namei_join (htree : Tree sb rd) (h : Coherent sb rd s B ∅) (hroom : Room B 3) {c : Nat}
    (hc : c ∈ B) {p q : List UInt8} (hp : p ≠ []) (hq : q.head? ≠ some slash) :
    ∃ r s1 t s2, namei (some c) p s = .ok (r, s1) ∧
      namei (some c) (p ++ slash :: q) s = .ok (t, s2) ∧
      match r with
      | none => t = none
      | some d => ∃ u s3, namei (some d) q s1 = .ok (u, s3) ∧
          t.map (fun i => ((s2.icache i).dev, (s2.icache i).inum)) =
            u.map fun i => ((s3.icache i).dev, (s3.icache i).inum) := by
  have hhead : (p ++ slash :: q).head? = p.head? := by
    cases p with
    | nil => exact absurd rfl hp
    | cons x p => rfl
  have hroom2 : Room B 2 := by
    unfold Room at hroom ⊢
    omega
  obtain ⟨start, hstart⟩ : ∃ start, startNumber s (some c) p = some start := by
    unfold startNumber
    split
    · exact ⟨rootino, rfl⟩
    · exact ⟨(s.icache c).inum, rfl⟩
  have hstart2 : startNumber s (some c) (p ++ slash :: q) = some start := by
    rw [← hstart]
    unfold startNumber
    rw [hhead]
  have hcwd : ∀ i, some c = some i → i ∈ B := fun i e => some.inj e ▸ hc
  obtain ⟨r, s1, hrun1, h1, hres1, -⟩ := namei_resolve htree h hroom2 hcwd hstart
  obtain ⟨t, s2, hrun2, h2, hres2, -⟩ := namei_resolve htree h hroom2 hcwd hstart2
  rw [pathNames_join, resolve_append, ← hres1] at hres2
  refine ⟨r, s1, t, s2, hrun1, hrun2, ?_⟩
  cases r with
  | none => exact map_eq_none_iff.1 hres2
  | some d =>
    have hd : d ∈ found (some d) + B := mem_add.2 (Or.inl (mem_singleton_self d))
    have hcwd3 : ∀ i, some d = some i → i ∈ found (some d) + B := fun i e => some.inj e ▸ hd
    have hstart3 : startNumber s1 (some d) q = some (s1.icache d).inum := by
      unfold startNumber
      rw [if_neg hq]
      rfl
    obtain ⟨u, s3, hrun3, h3, hres3, -⟩ := namei_resolve htree h1 (hroom.cons d) hcwd3 hstart3
    refine ⟨u, s3, hrun3, ?_⟩
    have hnum : t.map (fun i => (s2.icache i).inum) = u.map fun i => (s3.icache i).inum :=
      hres2.trans hres3.symm
    cases t with
    | none =>
      rw [map_none, eq_comm, map_eq_none_iff] at hnum
      rw [hnum]
      rfl
    | some i =>
      cases u with
      | none => cases hnum
      | some j =>
        have hi : i ∈ found (some i) + B := mem_add.2 (Or.inl (mem_singleton_self i))
        have hj : j ∈ found (some j) + (found (some d) + B) :=
          mem_add.2 (Or.inl (mem_singleton_self j))
        have hnum' : (s2.icache i).inum = (s3.icache j).inum := some.inj hnum
        simp only [map_some, h2.dev i hi, h3.dev j hj, hnum']

end

end Slopix.Fs
