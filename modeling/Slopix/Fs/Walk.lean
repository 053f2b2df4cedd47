import Slopix.Fs.Image

/-!
# The kernel reads what the image holds

`fs_readi`, `fs_dirlookup` and `fs_namei` on a file system without holes: reading allocates nothing,
so the file system stays as it is, and the results are those of `Fs.Image`. A walk keeps one entry of
the inode cache in use, or two while it steps from a directory to the next inode.
-/

namespace Slopix.Fs

open Lib List Function FileSys Exec

/-! ## Files -/

section

variable {s : FileSys} {i : Nat}

theorem bmap_mapped {bn : Nat} (h : 0 ∉ blockPath s.bread (s.icache i).din bn) (hbn : bn < 65803) :
    s.bmap i bn = (blockAt s.bread (s.icache i).din bn, s) := by
  unfold bmap blockAt
  unfold blockPath at h ⊢
  have haddr : ∀ k, (s.icache i).din.addrs k ≠ 0 →
      s.bmapAddr i k = ((s.icache i).din.addrs k, s) := fun k hk => by
    exact if_pos hk
  have hentry : ∀ b j, indexEntry s.bread b j ≠ 0 →
      s.bmapEntry b j = (indexEntry s.bread b j, s) := fun b j hj => by
    exact if_pos hj
  by_cases hdirect : bn < 11
  · rw [if_pos hdirect] at h ⊢
    rw [if_pos hdirect, haddr bn (by simpa [eq_comm] using h)]
    rfl
  rw [if_neg hdirect] at h ⊢
  rw [if_neg hdirect]
  by_cases hsingle : bn - 11 < 256
  · rw [if_pos hsingle] at h ⊢
    rw [if_pos hsingle]
    obtain ⟨hindex, hblock⟩ : (s.icache i).din.addrs 11 ≠ 0 ∧
        indexEntry s.bread ((s.icache i).din.addrs 11) (bn - 11) ≠ 0 := by
      simpa [eq_comm] using h
    simp only [haddr 11 hindex, if_neg hindex, hentry _ _ hblock]
    rfl
  rw [if_neg hsingle] at h ⊢
  rw [if_neg hsingle, if_pos (by omega)]
  obtain ⟨hfirst, hsecond, hblock⟩ : (s.icache i).din.addrs 12 ≠ 0 ∧
      indexEntry s.bread ((s.icache i).din.addrs 12) ((bn - 267) / 256) ≠ 0 ∧
      indexEntry s.bread (indexEntry s.bread ((s.icache i).din.addrs 12) ((bn - 267) / 256))
        ((bn - 267) % 256) ≠ 0 := by
    simpa [eq_comm] using h
  simp only [haddr 12 hfirst, if_neg hfirst, hentry _ _ hsecond, if_neg hsecond, hentry _ _ hblock]
  rfl

theorem readLoop_eq {fuel off rem : Nat} (h : NoHoles s.bread (s.icache i).din)
    (hsize : (s.icache i).din.size ≤ maxBytes) (hend : off + rem ≤ (s.icache i).din.size)
    (hfuel : rem ≤ fuel) :
    readLoop fuel s i off rem = (bytesFrom s.bread (s.icache i).din off rem, s) := by
  unfold maxBytes at hsize
  induction fuel generalizing off rem with
  | zero =>
    obtain rfl : rem = 0 := by omega
    rfl
  | succ fuel ih =>
    rw [readLoop]
    by_cases hrem : rem = 0
    · rw [if_pos hrem, hrem]
      rfl
    have hin : off / 1024 * 1024 < (s.icache i).din.size := by omega
    rw [if_neg hrem, bmap_mapped (h _ hin) (by omega), if_neg (h.blockAt_ne hin)]
    -- the part of this block, then the rest
    generalize hm : min (1024 - off % 1024) rem = m
    have hmod : (off + m) % uintMod = off + m := Nat.mod_eq_of_lt (by unfold uintMod; omega)
    dsimp only
    rw [hmod, ih (by omega) (by omega)]
    rw [← bytesFrom_block (by omega), ← bytesFrom_append, show m + (rem - m) = rem by omega]

/-- `fs_readi` from inside a file, of any number of bytes that can be counted. -/
theorem readi_inside {off n : Nat} (h : NoHoles s.bread (s.icache i).din)
    (hsize : (s.icache i).din.size ≤ maxBytes) (hoff : off ≤ (s.icache i).din.size)
    (hn : off + n < uintMod) :
    s.readi i off n =
      (bytesFrom s.bread (s.icache i).din off (min n ((s.icache i).din.size - off)), s) := by
  have hmin : (if (s.icache i).din.size < off + n then (s.icache i).din.size - off else n) =
      min n ((s.icache i).din.size - off) := by
    split <;> omega
  unfold readi
  rw [if_neg (by omega), Nat.mod_eq_of_lt hn, hmin]
  exact readLoop_eq h hsize (by omega) (Nat.le_refl _)

theorem readi_eq {off n : Nat} (h : NoHoles s.bread (s.icache i).din)
    (hsize : (s.icache i).din.size ≤ maxBytes) (hoff : off ≤ (s.icache i).din.size)
    (hn : n ≤ maxBytes) :
    s.readi i off n =
      (bytesFrom s.bread (s.icache i).din off (min n ((s.icache i).din.size - off)), s) := by
  refine readi_inside h hsize hoff ?_
  unfold maxBytes at hsize hn
  unfold uintMod
  omega

theorem readi_all (h : NoHoles s.bread (s.icache i).din) (hsize : (s.icache i).din.size ≤ maxBytes) :
    s.readi i 0 (s.icache i).din.size = (fileBytes s.bread (s.icache i).din, s) := by
  rw [readi_eq h hsize (Nat.zero_le _) hsize, Nat.sub_zero, Nat.min_self]
  rfl

end

/-! ## Directories -/

/-- The entry that ended the scan. -/
def Scan.found : Scan → Option (List UInt8)
  | .hit de _ => some de
  | .finish _ => none
  | .short => none

section

variable {s : FileSys} {i : Nat}

/-- A scan finds the first entry with the property, and reads nothing that is not there. -/
theorem dirscan_eq (f : List UInt8 → Bool) {fuel j : Nat} (h : NoHoles s.bread (s.icache i).din)
    (hsize : (s.icache i).din.size ≤ maxBytes) (hfuel : j + fuel = (s.icache i).din.size / 64 + 1) :
    (dirscan f i fuel s (64 * j)).2 = s ∧
      (dirscan f i fuel s (64 * j)).1.found =
        ((range' j (fuel - 1)).map (direntAt s.bread (s.icache i).din)).find? f := by
  induction fuel generalizing j with
  | zero => exact ⟨rfl, rfl⟩
  | succ fuel ih =>
    rw [dirscan]
    by_cases hend : (s.icache i).din.size ≤ 64 * j
    · rw [if_pos hend]
      obtain rfl : fuel = 0 := by omega
      exact ⟨rfl, rfl⟩
    rw [if_neg hend, readi_eq h hsize (by omega) (by decide)]
    dsimp only
    rw [length_bytesFrom]
    by_cases hshort : min 64 ((s.icache i).din.size - 64 * j) ≠ 64
    · rw [if_pos hshort]
      obtain rfl : fuel = 0 := by omega
      exact ⟨rfl, rfl⟩
    rw [if_neg hshort, not_not.1 hshort]
    obtain ⟨fuel, rfl⟩ : ∃ fuel', fuel = fuel' + 1 := ⟨fuel - 1, by omega⟩
    rw [Nat.add_sub_cancel, range'_succ, map_cons, find?_cons]
    show (if f (direntAt s.bread (s.icache i).din j) then _ else _ : Scan × FileSys).2 = s ∧
      (if f (direntAt s.bread (s.icache i).din j) then _ else _ : Scan × FileSys).1.found = _
    cases hf : f (direntAt s.bread (s.icache i).din j) with
    | true => exact ⟨rfl, rfl⟩
    | false => exact ih (j := j + 1) (by omega)

theorem scanDir_eq (f : List UInt8 → Bool) (h : NoHoles s.bread (s.icache i).din)
    (hsize : (s.icache i).din.size ≤ maxBytes) :
    (s.scanDir f i 0).2 = s ∧ (s.scanDir f i 0).1.found = (dirents s.bread (s.icache i).din).find? f := by
  obtain ⟨hstate, hfound⟩ := dirscan_eq f h hsize
    (show 0 + ((s.icache i).din.size / 64 + 1) = (s.icache i).din.size / 64 + 1 by omega)
  rw [Nat.add_sub_cancel, ← range_eq_range'] at hfound
  exact ⟨hstate, hfound⟩

/-- `fs_dirlookup` on a directory: `lookup` of the image, then `fs_iget`. -/
theorem dirlookup_eq (name : Name) (h : NoHoles s.bread (s.icache i).din)
    (hsize : (s.icache i).din.size ≤ maxBytes) (htype : (s.icache i).din.type = tDir) :
    match lookup s.bread (s.icache i).din name with
    | none => (s.dirlookup i name).1.1 = none ∧ (s.dirlookup i name).2 = s
    | some inum => (s.dirlookup i name).1.1 = (s.iget (s.icache i).dev inum).1 ∧
        (s.dirlookup i name).2 = (s.iget (s.icache i).dev inum).2 := by
  obtain ⟨hstate, hfound⟩ := scanDir_eq (isEntry name) h hsize
  unfold dirlookup lookup
  rw [if_neg (not_not.2 htype), ← hfound]
  rcases hscan : s.scanDir (isEntry name) i 0 with ⟨scan, s'⟩
  rw [hscan] at hstate
  obtain rfl : s' = s := hstate
  cases scan with
  | hit de off => exact ⟨rfl, rfl⟩
  | finish off => exact ⟨rfl, rfl⟩
  | short => exact ⟨rfl, rfl⟩

end

/-! ## Paths -/

/-- The only entry of the inode cache in use is `i`, with one reference to inode `inum`, and nothing
has been written since the image was mounted. -/
structure Alone (sb : Superblock) (disk : Nat → Block) (s : FileSys) (i inum : Nat) : Prop where
  super : s.sb = sb
  image : s.disk = disk
  buf : ∀ b, s.buf b = none
  lt : i < ninode
  dev : (s.icache i).dev = 0
  number : (s.icache i).inum = inum
  ref : (s.icache i).ref = 1
  unlocked : (s.icache i).locked = false
  din : (s.icache i).valid = true → (s.icache i).din = sb.inode disk inum
  others : ∀ j, j ≠ i → (s.icache j).ref = 0

section

variable {sb : Superblock} {disk : Nat → Block} {s : FileSys} {i inum : Nat}

@[simp] theorem setInode_icache_self (ip : Inode) : (s.setInode i ip).icache i = ip :=
  update_self ..

theorem setInode_icache_of_ne {j : Nat} (ip : Inode) (h : j ≠ i) :
    (s.setInode i ip).icache j = s.icache j :=
  update_of_ne h ..

theorem findInode_unique {f : Inode → Bool} (hi : i < ninode) (hf : f (s.icache i) = true)
    (hother : ∀ j, j ≠ i → f (s.icache j) = false) : s.findInode f = some i := by
  unfold findInode
  cases hfind : (range ninode).find? fun i => f (s.icache i) with
  | none =>
    have hnone := find?_eq_none.1 hfind i (mem_range.2 hi)
    exact absurd hf hnone
  | some j =>
    by_contra hne
    have hj := find?_some hfind
    rw [hother j fun e => hne (congrArg some e)] at hj
    cases hj

theorem findInode_none {f : Inode → Bool} (h : ∀ j, f (s.icache j) = false) : s.findInode f = none := by
  unfold findInode
  rw [find?_eq_none]
  intro j _
  rw [h j]
  exact Bool.false_ne_true

/-- The entry that `fs_ilock` has locked and filled. -/
def locked (sb : Superblock) (disk : Nat → Block) (s : FileSys) (i inum : Nat) : Inode :=
  { s.icache i with locked := true, valid := true, din := sb.inode disk inum }

theorem Alone.bread (h : Alone sb disk s i inum) : s.bread = disk := by
  funext b
  unfold FileSys.bread
  rw [h.buf b, h.image]
  rfl

theorem Alone.ilock (h : Alone sb disk s i inum) :
    Fs.ilock i s = .ok ((), s.setInode i (locked sb disk s i inum)) := by
  have href := h.ref
  have hdin : s.dinode (s.icache i).inum = sb.inode disk inum := by
    unfold dinode iblock Superblock.inode inodeAt
    rw [h.bread, h.super, h.number]
  unfold Fs.ilock
  rw [bind_ok (b := s.icache i) rfl, if_neg (by omega), if_neg (by rw [h.unlocked]; decide)]
  refine congrArg (fun t => Except.ok ((), t)) ?_
  unfold load setLocked locked
  simp only [setInode, update_self, update_idem]
  by_cases hv : (s.icache i).valid = true
  · rw [if_pos hv, ← h.din hv, hv]
  · rw [if_neg hv, ← hdin]
    rfl

theorem iunlockput_named (hlocked : (s.icache i).locked = true) (href : 1 ≤ (s.icache i).ref)
    (hnlink : (s.icache i).din.nlink ≠ 0) :
    iunlockput i s = .ok ((), s.setInode i { s.icache i with
      locked := false, ref := (s.icache i).ref - 1 }) := by
  have hunlock : s.iunlock i = s.setLocked i false := by
    unfold FileSys.iunlock
    rw [if_neg]
    rw [hlocked]
    simpa using href
  unfold iunlockput Fs.iunlock iput
  rw [Exec.bind_ok (b := ()) (t := s.setLocked i false) (congrArg (fun t => Except.ok ((), t)) hunlock),
    Exec.bind_ok (b := (s.setLocked i false).icache i) rfl]
  unfold setLocked setInode
  simp only [update_self]
  rw [if_neg fun hfree => hnlink hfree.2.2]
  refine congrArg (fun t => Except.ok ((), t)) ?_
  unfold dropRef setInode
  simp only [update_self, update_idem]

theorem iget_same {t : FileSys} (hi : i < ninode) (hpos : 0 < (t.icache i).ref)
    (hdev : (t.icache i).dev = 0) (hnum : (t.icache i).inum = inum)
    (hothers : ∀ j, j ≠ i → (t.icache j).ref = 0) :
    t.iget 0 inum = (some i, t.setInode i { t.icache i with ref := (t.icache i).ref + 1 }) := by
  unfold iget
  rw [findInode_unique hi]
  · simp [hpos, hdev, hnum]
  · intro j hj
    rw [hothers j hj]
    rfl

theorem iget_other {t : FileSys} {next : Nat} (hpos : 0 < (t.icache i).ref)
    (hne : next ≠ (t.icache i).inum) (hothers : ∀ j, j ≠ i → (t.icache j).ref = 0) :
    ∃ j, j ≠ i ∧ j < ninode ∧ t.iget 0 next = (some j, t.setInode j { t.icache j with
      dev := 0, inum := next, ref := 1, valid := false, locked := false }) := by
  have hnone : (t.findInode fun ip => decide (0 < ip.ref) && ip.dev == 0 && ip.inum == next) = none := by
    apply findInode_none
    intro j
    by_cases hj : j = i
    · rw [hj]
      simp [Ne.symm hne]
    · rw [hothers j hj]
      rfl
  unfold iget
  rw [hnone]
  cases hfree : t.findInode fun ip => ip.ref == 0 with
  | none =>
    -- at most one entry is in use
    have hfull := find?_eq_none.1 hfree
    by_cases h0 : i = 0
    · refine absurd ?_ (hfull 1 (mem_range.2 (by decide)))
      simp [hothers 1 (by omega)]
    · refine absurd ?_ (hfull 0 (mem_range.2 (by decide)))
      simp [hothers 0 (Ne.symm h0)]
  | some j =>
    refine ⟨j, ?_, mem_range.1 (mem_of_find?_eq_some hfree), rfl⟩
    rintro rfl
    have hzero := find?_some hfree
    have href : (t.icache j).ref = 0 := eq_of_beq hzero
    omega

/-- One step of a walk that holds no other inode. -/
theorem Alone.step {name : Name} (h : Alone sb disk s i inum) (hok : InodeOk disk sb (sb.inode disk inum))
    (hsolid : NoHoles disk (sb.inode disk inum)) (htype : (sb.inode disk inum).type = tDir) :
    ∃ r off t, (s.setInode i (locked sb disk s i inum)).dirlookup i name = ((r, off), t) ∧
      match lookup disk (sb.inode disk inum) name with
      | none => r = none ∧ ∃ t', iunlockput i t = .ok ((), t')
      | some next => ∃ j t', r = some j ∧ iunlockput i t = .ok ((), t') ∧ Alone sb disk t' j next := by
  generalize hs1 : s.setInode i (locked sb disk s i inum) = s1
  have hentry : s1.icache i = locked sb disk s i inum := by
    rw [← hs1, setInode_icache_self]
  have hothers : ∀ j, j ≠ i → (s1.icache j).ref = 0 := fun j hj => by
    rw [← hs1, setInode_icache_of_ne _ hj]
    exact h.others j hj
  have hbread : s1.bread = disk := by
    rw [← h.bread, ← hs1]
    rfl
  have hdin : (s1.icache i).din = sb.inode disk inum := by rw [hentry]; rfl
  have hdev : (s1.icache i).dev = 0 := by rw [hentry]; exact h.dev
  have hnum : (s1.icache i).inum = inum := by rw [hentry]; exact h.number
  have href : (s1.icache i).ref = 1 := by rw [hentry]; exact h.ref
  have hlock : (s1.icache i).locked = true := by rw [hentry]; rfl
  have hlookup := dirlookup_eq (s := s1) (i := i) name (by rw [hdin, hbread]; exact hsolid)
    (by rw [hdin]; exact hok.size) (by rw [hdin]; exact htype)
  rw [hdin, hbread, hdev] at hlookup
  refine ⟨(s1.dirlookup i name).1.1, (s1.dirlookup i name).1.2, (s1.dirlookup i name).2, rfl, ?_⟩
  cases hl : lookup disk (sb.inode disk inum) name with
  | none =>
    rw [hl] at hlookup
    refine ⟨hlookup.1, ?_⟩
    rw [hlookup.2, iunlockput_named hlock (by omega) (by rw [hdin]; exact hok.nlink)]
    exact ⟨_, rfl⟩
  | some next =>
    rw [hl] at hlookup
    rw [hlookup.1, hlookup.2]
    have hsb : s1.sb = sb := by rw [← hs1]; exact h.super
    have hdisk : s1.disk = disk := by rw [← hs1]; exact h.image
    have hbuf : ∀ b, s1.buf b = none := by rw [← hs1]; exact h.buf
    by_cases hnext : next = inum
    · -- an entry that leads back to the directory itself
      rw [iget_same h.lt (by omega) hdev (hnum.trans hnext.symm) hothers]
      generalize ht : s1.setInode i { s1.icache i with ref := (s1.icache i).ref + 1 } = t
      have hti : t.icache i = { s1.icache i with ref := (s1.icache i).ref + 1 } := by
        rw [← ht, setInode_icache_self]
      refine ⟨i, _, rfl, iunlockput_named (by rw [hti]; exact hlock)
        (by rw [hti, href]; exact Int.le_add_of_nonneg_left (by decide))
        (by rw [hti]; show (s1.icache i).din.nlink ≠ 0; rw [hdin]; exact hok.nlink), ?_⟩
      have hafter : (t.setInode i { t.icache i with
          locked := false, ref := (t.icache i).ref - 1 }).icache i =
          { s1.icache i with locked := false } := by
        rw [setInode_icache_self, hti]
        simp
      constructor
      · rw [← ht]; exact hsb
      · rw [← ht]; exact hdisk
      · rw [← ht]; exact hbuf
      · exact h.lt
      · rw [hafter]; exact hdev
      · rw [hafter]; exact hnum.trans hnext.symm
      · rw [hafter]; exact href
      · rw [hafter]
      · rw [hafter, hnext]; exact fun _ => hdin
      · intro j hj
        rw [setInode_icache_of_ne _ hj, ← ht, setInode_icache_of_ne _ hj]
        exact hothers j hj
    obtain ⟨j, hji, hjlt, hget⟩ := iget_other (t := s1) (by omega)
      (show next ≠ (s1.icache i).inum by rw [hnum]; exact hnext) hothers
    rw [hget]
    generalize ht : s1.setInode j { s1.icache j with
      dev := 0, inum := next, ref := 1, valid := false, locked := false } = t
    have hti : t.icache i = s1.icache i := by
      rw [← ht, setInode_icache_of_ne _ (Ne.symm hji)]
    refine ⟨j, _, rfl, iunlockput_named (by rw [hti]; exact hlock) (by rw [hti, href])
      (by rw [hti, hdin]; exact hok.nlink), ?_⟩
    have hafter : (t.setInode i { t.icache i with
        locked := false, ref := (t.icache i).ref - 1 }).icache j =
        { s1.icache j with dev := 0, inum := next, ref := 1, valid := false, locked := false } := by
      rw [setInode_icache_of_ne _ hji, ← ht, setInode_icache_self]
    constructor
    · rw [← ht]; exact hsb
    · rw [← ht]; exact hdisk
    · rw [← ht]; exact hbuf
    · exact hjlt
    · rw [hafter]
    · rw [hafter]
    · rw [hafter]
    · rw [hafter]
    · rw [hafter]; exact fun hv => by cases hv
    intro k hk
    by_cases hki : k = i
    · rw [hki, setInode_icache_self]
      rw [hti, href]
      rfl
    · rw [setInode_icache_of_ne _ hki, ← ht, setInode_icache_of_ne _ hk]
      exact hothers k hki

theorem Alone.giveUp (h : Alone sb disk s i inum) (hok : InodeOk disk sb (sb.inode disk inum)) :
    ∃ t, iunlockput i (s.setInode i (locked sb disk s i inum)) = .ok ((), t) := by
  refine ⟨_, iunlockput_named ?_ ?_ ?_⟩
  · rw [setInode_icache_self]
    rfl
  · rw [setInode_icache_self]
    exact le_of_eq h.ref.symm
  · rw [setInode_icache_self]
    exact hok.nlink

theorem namexLoop_eq {names : List Name} (hcons : Consistent disk sb) (hsolid : Solid disk sb)
    (hused : sb.InUse disk inum) (h : Alone sb disk s i inum) :
    ∃ r s', namexLoop false i names s = .ok (r, s') ∧
      match resolve disk sb.inodestart inum names with
      | none => r = none
      | some last => ∃ j, r = some (j, []) ∧ Alone sb disk s' j last ∧ sb.InUse disk last := by
  induction names generalizing s i inum with
  | nil => exact ⟨_, s, rfl, i, rfl, h, hused⟩
  | cons name rest ih =>
    have hok := hcons.inode inum hused
    have htypeEq : ((s.setInode i (locked sb disk s i inum)).icache i).din.type =
        (sb.inode disk inum).type := by
      rw [setInode_icache_self]
      rfl
    unfold namexLoop
    rw [resolve_cons, bind_ok h.ilock, bind_ok (b := (sb.inode disk inum).type)
      (congrArg (fun n => Except.ok (n, _)) htypeEq)]
    by_cases htype : (sb.inode disk inum).type = tDir
    · obtain ⟨r, off, t, hlookup, hnext⟩ := @h.step _ _ _ _ _ name hok (hsolid inum hused) htype
      rw [if_neg (not_not.2 htype), if_neg fun hparent => Bool.false_ne_true hparent.1,
        bind_ok (b := (r, off)) (t := t) (congrArg Except.ok hlookup), if_pos htype]
      cases hl : lookup disk (sb.inode disk inum) name with
      | none =>
        rw [hl] at hnext
        obtain ⟨rfl, t', hput⟩ := hnext
        rw [bind_ok hput]
        exact ⟨none, t', rfl, rfl⟩
      | some next =>
        rw [hl] at hnext
        obtain ⟨j, t', rfl, hput, halone⟩ := hnext
        rw [bind_ok hput]
        exact ih (hok.lookup htype hl) halone
    · obtain ⟨t, hput⟩ := h.giveUp hok
      rw [if_pos htype, bind_ok hput, if_neg htype]
      exact ⟨none, t, rfl, rfl⟩

/-- A file system that has just been mounted: nothing is cached. -/
structure Fresh (sb : Superblock) (disk : Nat → Block) (s : FileSys) : Prop where
  super : s.sb = sb
  image : s.disk = disk
  buf : ∀ b, s.buf b = none
  unused : ∀ j, (s.icache j).ref = 0

/-- The walk starts at the root, in the first slot. -/
theorem Fresh.iget (h : Fresh sb disk s) :
    ∃ t, s.iget 0 rootino = (some 0, t) ∧ Alone sb disk t 0 rootino := by
  have hnone : (s.findInode fun ip => decide (0 < ip.ref) && ip.dev == 0 && ip.inum == rootino) =
      none := findInode_none fun j => by rw [h.unused j]; rfl
  have hfree : (s.findInode fun ip => ip.ref == 0) = some 0 := by
    unfold findInode
    rw [show ninode = 199 + 1 from rfl, range_succ_eq_map, List.find?_cons]
    simp [h.unused 0]
  unfold FileSys.iget
  rw [hnone, hfree]
  refine ⟨_, rfl, h.super, h.image, h.buf, by decide, ?_, ?_, ?_, ?_, ?_, fun j hj => ?_⟩
  · rw [setInode_icache_self]
  · rw [setInode_icache_self]
  · rw [setInode_icache_self]
  · rw [setInode_icache_self]
  · rw [setInode_icache_self]
    exact fun hv => by cases hv
  · rw [setInode_icache_of_ne _ hj]
    exact h.unused j

theorem namei_eq {path : List UInt8} (hcons : Consistent disk sb) (hsolid : Solid disk sb)
    (h : Fresh sb disk s) (cwd : Option Nat) (habs : path.head? = some slash) :
    ∃ r s', namei cwd path s = .ok (r, s') ∧
      match resolve disk sb.inodestart rootino (pathElems path.length path) with
      | none => r = none
      | some inum => ∃ i, r = some i ∧ Alone sb disk s' i inum ∧ sb.InUse disk inum := by
  obtain ⟨t, hget, halone⟩ := h.iget
  obtain ⟨r, s', hrun, hres⟩ :
      ∃ r s', namexLoop false 0 (pathElems path.length path) t = .ok (r, s') ∧ _ :=
    namexLoop_eq hcons hsolid hcons.root halone
  have hnamex : namex cwd path false s = .ok (r, s') := by
    unfold namex
    rw [if_pos habs, bind_ok (b := some 0) (t := t) (congrArg Except.ok hget)]
    exact hrun
  refine ⟨r.map Prod.fst, s', ?_, ?_⟩
  · unfold namei
    rw [bind_ok hnamex]
    rfl
  cases hresolve : resolve disk sb.inodestart rootino (pathElems path.length path) with
  | none =>
    rw [hresolve] at hres
    rw [show r = none from hres]
    rfl
  | some inum =>
    rw [hresolve] at hres
    obtain ⟨j, rfl, hj⟩ := hres
    exact ⟨j, rfl, hj⟩

/-- `fs_namei` followed by `fs_readi` of the whole file: the type of the inode and the bytes. -/
def readPath (cwd : Option Nat) (path : List UInt8) : FsM (Option (Nat × List UInt8)) := do
  let ip ← namei cwd path
  match ip with
  | none => pure none
  | some ip => do
      ilock ip
      let d ← Exec.gets fun s => (s.icache ip).din
      let bytes ← Exec.step fun s => s.readi ip 0 d.size
      pure (some (d.type, bytes))

/-- What a path leads to in an image, with the type and the bytes of the inode. -/
def imagePath (sb : Superblock) (disk : Nat → Block) (path : List UInt8) : Option (Nat × List UInt8) :=
  (resolve disk sb.inodestart rootino (pathElems path.length path)).map fun inum =>
    ((sb.inode disk inum).type, fileBytes disk (sb.inode disk inum))

theorem readPath_eq {path : List UInt8} (hcons : Consistent disk sb) (hsolid : Solid disk sb)
    (h : Fresh sb disk s) (cwd : Option Nat) (habs : path.head? = some slash) :
    ∃ s', readPath cwd path s = .ok (imagePath sb disk path, s') := by
  obtain ⟨r, t, hrun, hres⟩ := namei_eq hcons hsolid h cwd habs
  unfold readPath imagePath
  rw [bind_ok hrun]
  cases hresolve : resolve disk sb.inodestart rootino (pathElems path.length path) with
  | none =>
    rw [hresolve] at hres
    rw [show r = none from hres]
    exact ⟨t, rfl⟩
  | some inum =>
    rw [hresolve] at hres
    obtain ⟨i, rfl, halone, hused⟩ := hres
    generalize hlock : t.setInode i (locked sb disk t i inum) = t1
    have hdin : (t1.icache i).din = sb.inode disk inum := by
      rw [← hlock, setInode_icache_self]
      rfl
    have hbread : t1.bread = disk := by
      rw [← halone.bread, ← hlock]
      rfl
    have hread := readi_all (s := t1) (i := i) (by rw [hdin, hbread]; exact hsolid inum hused)
      (by rw [hdin]; exact (hcons.inode inum hused).size)
    dsimp only
    rw [bind_ok halone.ilock, hlock, bind_ok (b := (t1.icache i).din) (t := t1) rfl,
      bind_ok (b := fileBytes t1.bread (t1.icache i).din) (t := t1) (congrArg Except.ok hread),
      hdin, hbread]
    exact ⟨t1, rfl⟩

end

end Slopix.Fs
