import Slopix.Fs.Write

/-!
# The file system as a set of files

`Volume` is the invariant of the disk: the files of the inodes in use have no holes, their blocks are
marked used, no block belongs to two files or twice to one, and none is a block of the bitmap or of the
inode table. `Rewrites` is a change that concerns one inode: its record, its blocks and blocks that were
free. Such a change keeps the invariant when the new file of that inode is sound, and every other file.
-/

namespace Slopix.Fs

open Lib FileSys

namespace FileSys

/-- The inode is in use on the disk of this machine. -/
abbrev InUse (s : FileSys) (n : Nat) : Prop := s.sb.InUse s.bread n

/-- A block of the inode table. -/
def IsTable (s : FileSys) (c : Nat) : Prop := ∃ n < s.sb.ninodes, s.iblock n = c

/-- A block of the file of inode `n`. -/
def Owns (s : FileSys) (n b : Nat) : Prop := s.InUse n ∧ b ∈ (s.dinode n).blocks s.bread

end FileSys

/-- The file of an inode: it has no hole, every block has one place in it, is marked used, lies outside the
bitmap and is on disk as it is read. -/
structure Sound (s : FileSys) (d : Dinode) : Prop where
  size : d.size ≤ maxBytes
  solid : d.Solid s.bread
  nodup : (d.blocks s.bread).Nodup
  block : ∀ b ∈ d.blocks s.bread, b < s.sb.size ∧ s.used b = true ∧ ¬ s.IsBitmap b ∧ s.bread b = s.disk b

/-- The disk between two operations. -/
structure Volume (s : FileSys) : Prop where
  wf : s.sb.Wf
  clean : s.BitmapClean
  place : ∀ n < s.sb.ninodes, n / 16 + s.sb.inodestart < s.sb.size
  table : ∀ c, s.IsTable c → ¬ s.IsBitmap c ∧ s.bread c = s.disk c
  reserved : ∀ c < s.sb.size, c = 0 ∨ s.IsBitmap c ∨ s.IsTable c → s.used c = true
  sound : ∀ n, s.InUse n → Sound s (s.dinode n)
  outside : ∀ n b, s.Owns n b → ¬ s.IsTable b
  apart : ∀ n m b, n ≠ m → s.Owns n b → ¬ s.Owns m b

/-- A change of inode `n`, its blocks and blocks that were free. -/
structure Rewrites (s s' : FileSys) (n : Nat) : Prop where
  sb : s'.sb = s.sb
  clean : s'.BitmapClean
  used : ∀ x < s.sb.size, s.used x = true → ¬ s.Owns n x → s'.used x = true
  same : ∀ c, ¬ s.IsBitmap c → (c < s.sb.size → s.used c = true) → ¬ s.Owns n c → c ≠ s.iblock n →
    s'.disk c = s.disk c ∧ s'.buf c = s.buf c
  table : s'.bread (s.iblock n) = s'.disk (s.iblock n)
  record : ∀ m < s.sb.ninodes, m ≠ n → s'.dinode m = s.dinode m
  sound : s'.InUse n → Sound s' (s'.dinode n)
  owns : ∀ b, s'.Owns n b → s.Owns n b ∨ s.used b = false

section

variable {s s' t : FileSys} {i n m c : Nat}

theorem inUse_iff : s.InUse n ↔ n < s.sb.ninodes ∧ (s.dinode n).type ≠ 0 := Iff.rfl

/-- The inode is in a block of the disk. -/
theorem Volume.iblock (h : Volume s) (hn : n < s.sb.ninodes) :
    s.iblock n = n / 16 + s.sb.inodestart ∧ s.iblock n < s.sb.size := by
  have hplace := h.place n hn
  have hsize := h.wf.size
  have hmod : s.iblock n = n / 16 + s.sb.inodestart := Nat.mod_eq_of_lt (by unfold uintMod; omega)
  exact ⟨hmod, by omega⟩

theorem Volume.iblock_table (hn : n < s.sb.ninodes) : s.IsTable (s.iblock n) := ⟨n, hn, rfl⟩

theorem Volume.iblock_used (h : Volume s) (hn : n < s.sb.ninodes) : s.used (s.iblock n) = true :=
  h.reserved _ (h.iblock hn).2 (.inr (.inr ⟨n, hn, rfl⟩))

/-- Two inodes in one block of the table lie at different places in it. -/
theorem Volume.inodeOff_disjoint (h : Volume s) (hn : n < s.sb.ninodes) (hm : m < s.sb.ninodes) (hne : m ≠ n)
    (hblock : s.iblock m = s.iblock n) :
    inodeOff m + 64 ≤ inodeOff n ∨ inodeOff n + 64 ≤ inodeOff m := by
  rw [(h.iblock hn).1, (h.iblock hm).1] at hblock
  unfold inodeOff
  omega

theorem isTable_congr (hsb : s'.sb = s.sb) (c : Nat) : s'.IsTable c ↔ s.IsTable c := by
  unfold FileSys.IsTable iblock
  rw [hsb]

theorem iblock_congr (hsb : s'.sb = s.sb) (n : Nat) : s'.iblock n = s.iblock n := by
  unfold iblock
  rw [hsb]

theorem bread_of_same (h : s'.disk c = s.disk c ∧ s'.buf c = s.buf c) : s'.bread c = s.bread c := by
  unfold bread
  rw [h.1, h.2]

end

/-! ## Other files -/

section

variable {s s' : FileSys} {n m b : Nat}

/-- A change of one inode leaves the blocks of the others as they are. -/
theorem Rewrites.other (hr : Rewrites s s' n) (h : Volume s) (hn : n < s.sb.ninodes) (hm : m ≠ n)
    (hb : s.Owns m b) : (s'.disk b = s.disk b ∧ s'.buf b = s.buf b) ∧ s'.used b = true := by
  obtain ⟨hlt, hused, hbit, -⟩ := (h.sound m hb.1).block b hb.2
  have hnot := h.apart m n b hm hb
  refine ⟨hr.same b hbit (fun _ => hused) hnot ?_, hr.used b hlt hused hnot⟩
  rintro rfl
  exact h.outside m _ hb (Volume.iblock_table hn)

/-- Other inodes keep their record, their blocks and their contents. -/
theorem Rewrites.keeps (hr : Rewrites s s' n) (h : Volume s) (hn : n < s.sb.ninodes) (hm : m ≠ n)
    (hlt : m < s.sb.ninodes) : s'.dinode m = s.dinode m ∧ (s'.InUse m ↔ s.InUse m) ∧
      (s.InUse m → (s.dinode m).blocks s'.bread = (s.dinode m).blocks s.bread ∧
        (s.dinode m).contents s'.bread = (s.dinode m).contents s.bread ∧ Sound s' (s.dinode m)) := by
  have hrec := hr.record m hlt hm
  have huse : s'.InUse m ↔ s.InUse m := by
    rw [inUse_iff, inUse_iff, hr.sb, hrec]
  refine ⟨hrec, huse, fun hu => ?_⟩
  obtain ⟨hsize, hsolid, hnd, hblock⟩ := h.sound m hu
  have hsame : ∀ c ∈ (s.dinode m).blocks s.bread,
      (s'.disk c = s.disk c ∧ s'.buf c = s.buf c) ∧ s'.used c = true := fun c hc =>
    hr.other h hn hm ⟨hu, hc⟩
  have hread : ∀ c ∈ (s.dinode m).blocks s.bread, s'.bread c = s.bread c := fun c hc =>
    bread_of_same (hsame c hc).1
  obtain ⟨hcontents, hsolid'⟩ := contents_congr hsize hread
  have hblocks := blocks_frame hread
  refine ⟨hblocks, hcontents, hsize, hsolid' hsolid, by rw [hblocks]; exact hnd, fun b hb => ?_⟩
  rw [hblocks] at hb
  obtain ⟨hlt, hused, hbit, hsettled⟩ := hblock b hb
  refine ⟨by rw [hr.sb]; exact hlt, (hsame b hb).2, fun hx => hbit ((isBitmap_congr hr.sb b).1 hx), ?_⟩
  rw [hread b hb, hsettled, (hsame b hb).1.1]

/-- A change of one inode keeps the volume consistent. -/
theorem Rewrites.volume (hr : Rewrites s s' n) (h : Volume s) (hn : n < s.sb.ninodes) : Volume s' := by
  have hbitmap := fun c => isBitmap_congr hr.sb c
  have htable := fun c => isTable_congr hr.sb c
  have hlt : ∀ m, s'.InUse m → m < s.sb.ninodes := fun m hu => hr.sb ▸ hu.1
  -- whoever owns a block now
  have howns : ∀ m, m ≠ n → ∀ b, s'.Owns m b → s.Owns m b := by
    rintro m hm b ⟨hu, hb⟩
    obtain ⟨hrec, huse, hkeep⟩ := hr.keeps h hn hm (hlt m hu)
    have hu' := huse.1 hu
    rw [hrec, (hkeep hu').1] at hb
    exact ⟨hu', hb⟩
  have hfree : ∀ b, s.used b = false → ∀ m, ¬ s.Owns m b := by
    intro b hf m hb
    rw [((h.sound m hb.1).block b hb.2).2.1] at hf
    cases hf
  refine ⟨hr.sb ▸ h.wf, hr.clean, fun m hm => ?_, fun c hc => ?_, fun c hc hres => ?_, fun m hu => ?_,
    fun m b hb hx => ?_, fun m m' b hne hb hb' => ?_⟩
  · rw [hr.sb] at hm ⊢
    exact h.place m hm
  · obtain ⟨hbit, hsettled⟩ := h.table c ((htable c).1 hc)
    refine ⟨fun hx => hbit ((hbitmap c).1 hx), ?_⟩
    by_cases hcn : c = s.iblock n
    · rw [hcn]
      exact hr.table
    have hc' := (htable c).1 hc
    have hsame := hr.same c hbit (fun hlt => h.reserved c hlt (.inr (.inr hc')))
      (fun hx => h.outside n c hx hc') hcn
    rw [bread_of_same hsame, hsettled, hsame.1]
  · rw [hr.sb] at hc
    have hres' : c = 0 ∨ s.IsBitmap c ∨ s.IsTable c := hres.imp_right (Or.imp (hbitmap c).1 (htable c).1)
    refine hr.used c hc (h.reserved c hc hres') fun hx => ?_
    rcases hres' with rfl | hb | ht
    · exact (mem_blocks hx.2).1 rfl
    · exact ((h.sound n hx.1).block c hx.2).2.2.1 hb
    · exact h.outside n c hx ht
  · by_cases hm : m = n
    · subst hm
      exact hr.sound hu
    · obtain ⟨hrec, huse, hkeep⟩ := hr.keeps h hn hm (hlt m hu)
      rw [hrec]
      exact (hkeep (huse.1 hu)).2.2
  · have ht := (htable b).1 hx
    by_cases hm : m = n
    · subst hm
      rcases hr.owns b hb with hold | hf
      · exact h.outside m b hold ht
      have hb' := ((hr.sound hb.1).block b hb.2).1
      rw [hr.sb] at hb'
      rw [h.reserved b hb' (.inr (.inr ht))] at hf
      cases hf
    · exact h.outside m b (howns m hm b hb) ht
  -- a block of two files
  by_cases hm : m = n
  · subst hm
    have hold' := howns m' (Ne.symm hne) b hb'
    rcases hr.owns b hb with hold | hf
    · exact h.apart m m' b hne hold hold'
    · exact hfree b hf m' hold'
  have hold := howns m hm b hb
  by_cases hm' : m' = n
  · subst hm'
    rcases hr.owns b hb' with hold' | hf
    · exact h.apart m m' b hne hold hold'
    · exact hfree b hf m hold
  · exact h.apart m m' b hne hold (howns m' hm' b hb')

end

/-! ## Writing the record -/

/-- The file of entry `i`, which holds inode `n`, has been changed in the inode cache and in its blocks. -/
structure Pending (s t : FileSys) (i n : Nat) : Prop where
  sb : t.sb = s.sb
  inum : (t.icache i).inum = n
  clean : t.BitmapClean
  fits : (t.icache i).din.Fits
  used : ∀ x < s.sb.size, s.used x = true → ¬ s.Owns n x → t.used x = true
  same : ∀ c, ¬ s.IsBitmap c → (c < s.sb.size → s.used c = true) → ¬ s.Owns n c →
    t.disk c = s.disk c ∧ t.buf c = s.buf c
  sound : (t.icache i).din.type ≠ 0 → Sound t (t.icache i).din
  owns : (t.icache i).din.type ≠ 0 → ∀ b ∈ (t.icache i).din.blocks t.bread, s.Owns n b ∨ s.used b = false

section

variable {s t : FileSys} {i n b m : Nat}

theorem Pending.table (hp : Pending s t i n) (h : Volume s) (hm : m < s.sb.ninodes) :
    t.bread (s.iblock m) = s.bread (s.iblock m) := by
  have ht : s.IsTable (s.iblock m) := ⟨m, hm, rfl⟩
  exact bread_of_same (hp.same _ (h.table _ ht).1 (fun _ => h.iblock_used hm) fun hx => h.outside n _ hx ht)

theorem Pending.apart (hp : Pending s t i n) (h : Volume s) (hn : n < s.sb.ninodes)
    (htype : (t.icache i).din.type ≠ 0) (hb : b ∈ (t.icache i).din.blocks t.bread) : b ≠ s.iblock n := by
  rintro rfl
  rcases hp.owns htype _ hb with hold | hf
  · exact h.outside n _ hold ⟨n, hn, rfl⟩
  · rw [h.iblock_used hn] at hf
    cases hf

theorem Pending.iupdate_used (hp : Pending s t i n) (h : Volume s) (hn : n < s.sb.ninodes) {x : Nat}
    (hx : x < s.sb.size) : (t.iupdate i).used x = t.used x := by
  have hbit := (h.table _ ⟨n, hn, rfl⟩).1
  have hib : t.iblock (t.icache i).inum = s.iblock n := by rw [hp.inum, iblock_congr hp.sb]
  have hcut := @bwrite_cut t (t.iblock (t.icache i).inum)
    (fun hx => hbit ((isBitmap_congr hp.sb _).1 (hib ▸ hx)))
    (putDinode (t.bread (t.iblock (t.icache i).inum)) (inodeOff (t.icache i).inum) (t.icache i).din)
  have hiff := hcut.used x (by rw [hp.sb]; exact hx)
  rw [Bool.eq_iff_iff]
  exact hiff.trans (and_iff_left id)

/-- `fs_iupdate` writes what the calls have prepared. -/
theorem Pending.rewrites (hp : Pending s t i n) (h : Volume s) (hn : n < s.sb.ninodes) :
    Rewrites s (t.iupdate i) n ∧ (t.iupdate i).dinode n = (t.icache i).din ∧
      ((t.icache i).din.type ≠ 0 → ∀ b ∈ (t.icache i).din.blocks t.bread, (t.iupdate i).bread b = t.bread b) := by
  have hib : t.iblock n = s.iblock n := iblock_congr hp.sb n
  obtain ⟨hbit, -⟩ := h.table _ ⟨n, hn, rfl⟩
  have hbit' : ¬ t.IsBitmap (s.iblock n) := fun hx => hbit ((isBitmap_congr hp.sb _).1 hx)
  have hstate : t.iupdate i = t.bwrite (s.iblock n)
      (putDinode (t.bread (s.iblock n)) (inodeOff n) (t.icache i).din) := by
    unfold iupdate
    dsimp only
    rw [hp.inum, hib]
  have hcut := bwrite_cut hbit' (putDinode (t.bread (s.iblock n)) (inodeOff n) (t.icache i).din)
  have hread := fun c => @bread_bwrite t (s.iblock n) c
    (putDinode (t.bread (s.iblock n)) (inodeOff n) (t.icache i).din)
  have hsettled := (Function.update_self (s.iblock n)
    (putDinode (t.bread (s.iblock n)) (inodeOff n) (t.icache i).din) t.disk)
  rw [hstate]
  generalize hu : t.bwrite (s.iblock n)
    (putDinode (t.bread (s.iblock n)) (inodeOff n) (t.icache i).din) = u at hcut hread ⊢
  have hsb : u.sb = s.sb := hcut.sb.trans hp.sb
  have hrec : u.dinode n = (t.icache i).din := by
    unfold dinode
    rw [iblock_congr hsb n, hread, if_pos rfl, getDinode_putDinode hp.fits]
  have hsame : (t.icache i).din.type ≠ 0 → ∀ b ∈ (t.icache i).din.blocks t.bread, u.bread b = t.bread b := by
    intro htype b hb
    rw [hread, if_neg (hp.apart h hn htype hb)]
  refine ⟨⟨hsb, hcut.clean hp.clean, fun x hx hused hnot => ?_, fun c hc hused hnot hne => ?_, ?_,
    fun m hm hne => ?_, fun hin => ?_, fun b hb => ?_⟩, hrec, hsame⟩
  · exact (hcut.used x (by rw [hp.sb]; exact hx)).2 ⟨hp.used x hx hused hnot, id⟩
  · obtain ⟨hd, hb⟩ := hcut.same c (fun hx => hc ((isBitmap_congr hp.sb c).1 hx)) hne
    obtain ⟨hd', hb'⟩ := hp.same c hc hused hnot
    exact ⟨hd.trans hd', hb.trans hb'⟩
  · rw [hread, if_pos rfl, ← hu]
    exact hsettled.symm
  · -- another record, perhaps in the same block
    unfold dinode
    rw [iblock_congr hsb m, hread]
    by_cases hblock : s.iblock m = s.iblock n
    · rw [if_pos hblock, hblock, getDinode_putDinode_of_disjoint (h.inodeOff_disjoint hn hm hne hblock),
        hp.table h hn]
    · rw [if_neg hblock, hp.table h hm]
  · have htype := (inUse_iff.1 hin).2
    rw [hrec] at htype ⊢
    obtain ⟨hsize, hsolid, hnd, hblock⟩ := hp.sound htype
    have hblocks := blocks_frame (hsame htype)
    refine ⟨hsize, (contents_congr hsize (hsame htype)).2 hsolid, by rw [hblocks]; exact hnd, fun b hb => ?_⟩
    rw [hblocks] at hb
    obtain ⟨hlt, hused, hnot, hd⟩ := hblock b hb
    refine ⟨by rw [hcut.sb]; exact hlt, (hcut.used b hlt).2 ⟨hused, id⟩,
      fun hx => hnot ((isBitmap_congr hcut.sb b).1 hx), ?_⟩
    rw [hsame htype b hb, hd, (hcut.same b hnot (hp.apart h hn htype hb)).1]
  obtain ⟨hin, hmem⟩ := hb
  have htype := (inUse_iff.1 hin).2
  rw [hrec] at htype hmem
  rw [blocks_frame (hsame htype)] at hmem
  exact hp.owns htype b hmem

end

/-! ## fs_writei -/

/-- Entry `i` of the inode cache has a copy of inode `n`, which is in use. -/
structure Loaded (s : FileSys) (i n : Nat) : Prop where
  inum : (s.icache i).inum = n
  used : s.InUse n
  din : (s.icache i).din = s.dinode n

/-- Only the copy of the inode changes in entry `i` of the inode cache, and it is the one on disk. -/
structure Stores (s s' : FileSys) (i n : Nat) : Prop where
  rewrites : Rewrites s s' n
  icache : ∃ d, s'.icache = Function.update s.icache i { s.icache i with din := d }
  din : (s'.icache i).din = s'.dinode n

section

variable {s : FileSys} {i n off : Nat} {src : List UInt8}

theorem Loaded.owned (hl : Loaded s i n) : s.owned i = (s.dinode n).blocks s.bread := by
  unfold FileSys.owned
  rw [hl.din]

/-- The tree of a file in use is its own. -/
theorem Volume.sole (h : Volume s) (hl : Loaded s i n) : Sole s i := by
  obtain ⟨-, -, hnd, hblock⟩ := h.sound n hl.used
  rw [← hl.owned] at hnd hblock
  exact ⟨h.wf, h.clean, fun c hc hres => h.reserved c hc (hres.imp_right .inl), hnd, hblock⟩

theorem setSize_max (s : FileSys) (i e : Nat) :
    (if (s.icache i).din.size < e then s.setSize i e else s) = s.setSize i (max (s.icache i).din.size e) := by
  by_cases hlt : (s.icache i).din.size < e
  · rw [if_pos hlt, Nat.max_eq_right (Nat.le_of_lt hlt)]
  rw [if_neg hlt, Nat.max_eq_left (Nat.le_of_not_lt hlt)]
  unfold setSize setDin setInode
  rw [show { s.icache i with din := { (s.icache i).din with size := (s.icache i).din.size } } = s.icache i from rfl,
    Function.update_eq_self]

/-- `fs_writei` inside the bounds: the data, as far as the disk has room for it, replaces the bytes from
`off` on, and other files are as they were. -/
theorem Volume.writei (h : Volume s) (hl : Loaded s i n) (hoff : off ≤ (s.icache i).din.size)
    (hend : off + src.length ≤ maxBytes) :
    ∃ tot s', s.writei i src off = (some tot, s') ∧ tot ≤ src.length ∧ (tot < src.length → s'.Full) ∧
      Stores s s' i n ∧ (s'.dinode n).contents s'.bread =
        overwrite ((s.dinode n).contents s.bread) off (src.take tot) ∧ s'.InUse n := by
  obtain ⟨hsize, hsolid, -, -⟩ := h.sound n hl.used
  have hw := @writeLoop_written s i off src src.length (h.sole hl) hend (Nat.le_refl _)
  have hmod : (off + src.length) % uintMod = off + src.length := by
    unfold maxBytes at hend
    exact Nat.mod_eq_of_lt (by unfold uintMod; omega)
  have hmax : ¬ 67382272 < off + src.length := Nat.not_lt_of_le hend
  have hguard : ¬ ((s.icache i).din.size < off ∨ off + src.length < off) := by omega
  unfold FileSys.writei
  rw [hmod, if_neg hguard, if_neg hmax]
  generalize writeLoop src.length s i off src = r at hw
  obtain ⟨tot, s2⟩ := r
  dsimp only at hw ⊢
  obtain ⟨hdin2, hinum2, hother2⟩ := hw.grew.din
  rw [setSize_max, hw.grew.size]
  generalize ht : s2.setSize i (max (s.icache i).din.size (off + tot)) = t
  have hread : t.bread = s2.bread := by
    rw [← ht]
    rfl
  have hsb : t.sb = s.sb := by
    rw [← ht]
    exact hw.grew.sb
  have hdin : (t.icache i).din = { (s2.icache i).din with size := max (s.icache i).din.size (off + tot) } := by
    rw [← ht, setSize, setDin, setInode_icache_self]
  have hinum : (t.icache i).inum = n := by
    rw [← ht, setSize, setDin, setInode_icache_self, ← hl.inum, ← hinum2]
  have hblocks : (t.icache i).din.blocks t.bread = s2.owned i := by
    rw [hread]
    exact (blocks_addrs (by rw [hdin])).1
  have hbitmap : ∀ c, t.IsBitmap c ↔ s2.IsBitmap c := isBitmap_congr (hsb.trans hw.grew.sb.symm)
  have hused : ∀ x < s.sb.size, t.used x = s2.used x := by
    intro x hx
    refine used_congr (hsb.trans hw.grew.sb.symm) (fun c _ => by rw [hread]) ?_
    rw [hw.grew.sb]
    exact hx
  have howned : ∀ b, b ∈ s.owned i → s.Owns n b := fun b hb => ⟨hl.used, hl.owned ▸ hb⟩
  rw [← hl.din] at hsize hsolid
  obtain ⟨hcontents, hsolid'⟩ := @Written.contents s s2 i off tot src hw (t.icache i).din hsolid hoff hsize hend
    (by rw [hdin]) (by rw [hdin])
  rw [← hread] at hcontents hsolid'
  have hle := hw.le
  have hp : Pending s t i n := by
    refine ⟨hsb, hinum, fun c hc => ?_, ?_, fun x hx hu hnot => ?_, fun c hc hu hnot => ?_, fun _ => ?_, fun _ b hb => ?_⟩
    · rw [← ht]
      exact hw.sole.clean c ((hbitmap c).1 hc)
    · rw [hdin, hdin2, hl.din]
      obtain ⟨htype, hmajor, hminor, hnlink, -, haddrs, htail⟩ :=
        @getDinode_fits (s.bread (s.iblock n)) (inodeOff n)
      refine ⟨htype, hmajor, hminor, hnlink, ?_, fun k => ?_, fun k hk => ?_⟩
      · unfold maxBytes at hsize hend
        rw [hl.din] at hsize
        unfold uintMod
        dsimp only
        omega
      · have hwf := h.wf.size
        rcases hw.grew.addrs k with heq | ⟨-, hlt⟩
        · dsimp only
          rw [heq, hl.din]
          exact haddrs k
        · unfold uintMod
          dsimp only
          omega
      rcases hw.grew.addrs k with heq | ⟨hlt, -⟩
      · dsimp only
        rw [heq, hl.din]
        exact htail k hk
      · omega
    · rw [hused x hx]
      exact hw.grew.used x hx hu
    · have hsame := hw.grew.same c hc hu fun hin => hnot (howned c hin)
      rw [← ht]
      exact hsame
    · refine ⟨?_, hsolid', by rw [hblocks]; exact hw.sole.nodup, fun b hb => ?_⟩
      · rw [hdin]
        dsimp only
        omega
      rw [hblocks] at hb
      obtain ⟨hlt, hu, hbit, hd⟩ := hw.sole.block b hb
      rw [hw.grew.sb] at hlt
      refine ⟨by rw [hsb]; exact hlt, by rw [hused b hlt]; exact hu, fun hx => hbit ((hbitmap b).1 hx), ?_⟩
      rw [hread, hd, ← ht]
      rfl
    · rw [hblocks] at hb
      exact (hw.grew.fresh b hb).imp (howned b) And.right
  have htype : (t.icache i).din.type ≠ 0 := by
    rw [hdin, hdin2, hl.din]
    exact (inUse_iff.1 hl.used).2
  obtain ⟨hrew, hrec, hsame⟩ := hp.rewrites h hl.used.1
  refine ⟨tot, t.iupdate i, rfl, hle, fun hlt x hx => ?_, ⟨hrew, ?_, hrec.symm⟩, ?_, ?_⟩
  · rw [hrew.sb] at hx
    rw [hp.iupdate_used h hl.used.1 hx, hused x hx]
    exact hw.full hlt x (by rw [hw.grew.sb]; exact hx)
  · obtain ⟨A, hA⟩ := hw.grew.icache
    refine ⟨(t.icache i).din, ?_⟩
    rw [hdin, ← ht, hA]
    show Function.update s2.icache i _ = _
    rw [hA, Function.update_self, Function.update_idem]
  · rw [hrec, (contents_congr (hp.sound htype).size (hsame htype)).1, hcontents, hl.din]
  · exact inUse_iff.2 ⟨by rw [hrew.sb]; exact hl.used.1, by rw [hrec]; exact htype⟩

end

end Slopix.Fs
