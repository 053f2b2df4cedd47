import Slopix.Fs.Runs

/-!
# Files as byte arrays

`fs_readi` and `fs_writei` on a file read and overwrite a part of an array of bytes, and leave every other
file alone. That is so in every state of a run whose calls of `fs_itrunc_to` meet `TruncFits`. A call that
does not leaves an index block reachable that is free: two files grow into one block.
-/

namespace Slopix.Fs

open Lib List Function FileSys

/-- `fs_readi` and `fs_writei` on entry `i` of the inode cache are the operations of a byte array. A write
is short only when every block is used. -/
structure IsByteArray (s : FileSys) (i : Nat) : Prop where
  read : ∀ off n, off + n < uintMod →
    s.readi i off n = ((((s.icache i).din.contents s.bread).drop off).take n, s) ∧
      (s.readi i off n).1.length = min n ((s.icache i).din.size - off)
  write : ∀ off src, off ≤ (s.icache i).din.size → off + src.length ≤ maxBytes →
    ∃ tot s', s.writei i src off = (some tot, s') ∧ tot ≤ src.length ∧ (tot < src.length → s'.Full) ∧
      (s'.icache i).din.contents s'.bread =
        overwrite ((s.icache i).din.contents s.bread) off (src.take tot) ∧
      (s'.icache i).din.size = max (s.icache i).din.size (off + tot) ∧
      ∀ m < s.sb.ninodes, m ≠ (s.icache i).inum → s'.dinode m = s.dinode m ∧
        (s.InUse m → (s.dinode m).contents s'.bread = (s.dinode m).contents s.bread)

theorem Mounted.isByteArray {s : FileSys} {i : Nat} (h : Mounted s) (hi : s.Filled i) : IsByteArray s i := by
  obtain ⟨hsize, hsolid⟩ := h.file hi
  refine ⟨fun off n hn => ?_, fun off src hoff hend => ?_⟩
  · rw [readi_contents hsolid hsize hn]
    refine ⟨rfl, ?_⟩
    rw [length_take, length_drop, length_contents]
  have hl := h.loaded hi
  obtain ⟨tot, s', hrun, hle, hfull, hst, hcontents, -⟩ := h.volume.writei hl hoff hend
  rw [← hst.din, ← hl.din] at hcontents
  have hlength := congrArg length hcontents
  rw [length_overwrite (by rw [length_contents]; exact hoff), length_contents, length_contents, length_take,
    Nat.min_eq_left hle] at hlength
  refine ⟨tot, s', hrun, hle, hfull, hcontents, hlength, fun m hm hne => ?_⟩
  obtain ⟨hrec, -, hkeep⟩ := hst.rewrites.keeps h.volume hl.used.1 hne hm
  exact ⟨hrec, fun hu => (hkeep hu).2.1⟩

/-- Files are byte arrays in every state of a run whose truncations all fit. -/
theorem files_are_byte_arrays {s0 s : FileSys} {i : Nat} (h₀ : Mounted s0)
    (hrun : Relation.ReflTransGen (Step TruncFits) s0 s) (hi : s.Filled i) : IsByteArray s i :=
  (h₀.run hrun).isByteArray hi

/-! ## Two files -/

/-- A file without bytes. -/
def emptyFile : Dinode := { type := tFile, major := 0, minor := 0, nlink := 1, size := 0, addrs := fun _ => 0 }

/-- Inode 1 is the file with two inner index blocks, inode 2 is empty; both are open. -/
def twoFiles : FileSys where
  sb := twoInner.sb
  disk c := if c = 3 then putDinode (putDinode (fun _ => 0) 64 twoInnerDin) 128 emptyFile else twoInnerDisk c
  buf _ := none
  icache i :=
    if i = 0 then { dev := 0, inum := 1, ref := 1, valid := true, locked := false, din := twoInnerDin }
    else if i = 1 then { dev := 0, inum := 2, ref := 1, valid := true, locked := false, din := emptyFile }
    else { dev := 0, inum := 0, ref := 0, valid := false, locked := false, din := emptyFile }

section

theorem emptyFile_fits : emptyFile.Fits := by
  refine ⟨?_, ?_, ?_, ?_, ?_, fun _ => Nat.two_pow_pos 32, fun _ _ => rfl⟩ <;> decide

theorem twoFiles_disk {c : Nat} (hc : c ≠ 3) : twoFiles.bread c = twoInnerDisk c := if_neg hc

theorem twoFiles_iblock {n : Nat} (hn : n < 16) : twoFiles.iblock n = 3 := by
  have hdiv : n / 16 = 0 := by omega
  unfold iblock
  rw [hdiv]
  rfl

theorem twoFiles_bitmap (c : Nat) : twoFiles.IsBitmap c ↔ c = 2 := by
  have hbblock : ∀ b < 800, twoFiles.bblock b = 2 := by
    intro b hb
    have hdiv : b / 8192 = 0 := by omega
    unfold bblock
    rw [hdiv]
    rfl
  constructor
  · rintro ⟨b, hb, rfl⟩
    exact hbblock b hb
  · rintro rfl
    exact ⟨0, by decide, rfl⟩

theorem twoFiles_used {b : Nat} (hb : b < 800) : twoFiles.used b = true := by
  have hones : ∀ j < 8, (255 : UInt8).toNat.testBit j = true := by decide
  have hblock : twoFiles.bblock b = 2 := (twoFiles_bitmap _).1 ⟨b, hb, rfl⟩
  unfold used
  rw [hblock]
  exact hones _ (Nat.mod_lt _ (by decide))

theorem twoFiles_dinode {n : Nat} (hn : n < 16) :
    twoFiles.dinode n = getDinode (putDinode (putDinode (fun _ => 0) 64 twoInnerDin) 128 emptyFile) (inodeOff n) := by
  unfold dinode
  rw [twoFiles_iblock hn]
  rfl

theorem twoFiles_first : twoFiles.dinode 1 = twoInnerDin := by
  rw [twoFiles_dinode (by decide), getDinode_putDinode_of_disjoint (by decide)]
  exact getDinode_putDinode twoInner_fits

theorem twoFiles_second : twoFiles.dinode 2 = emptyFile := by
  exact getDinode_putDinode emptyFile_fits

theorem twoFiles_inUse {n : Nat} (hu : twoFiles.InUse n) : n = 1 ∨ n = 2 := by
  obtain ⟨hn, htype⟩ := inUse_iff.1 hu
  have hn : n < 16 := hn
  by_contra hnot
  apply htype
  have hoff : inodeOff n = 64 * n := by
    unfold inodeOff
    omega
  rw [twoFiles_dinode hn, getDinode_putDinode_of_disjoint (by omega), getDinode_putDinode_of_disjoint (by omega)]
  exact getLe_zero 2 _

/-- Blocks of the first file read as they do without the second. -/
theorem twoFiles_blocks : twoInnerDin.blocks twoFiles.bread = twoInnerDin.blocks twoInnerDisk :=
  blocks_frame fun c hc => twoFiles_disk (by have := twoInner_block hc; omega)

theorem twoFiles_owns {n b : Nat} (hb : twoFiles.Owns n b) : n = 1 ∧ 30 ≤ b ∧ b ≤ 700 := by
  obtain ⟨hu, hmem⟩ := hb
  rcases twoFiles_inUse hu with rfl | rfl
  · rw [twoFiles_first, twoFiles_blocks] at hmem
    exact ⟨rfl, twoInner_block hmem⟩
  · obtain ⟨hblocks, -⟩ := @blocks_blank twoFiles.bread emptyFile fun _ _ => rfl
    rw [twoFiles_second, hblocks] at hmem
    exact absurd hmem (Multiset.notMem_zero b)

theorem twoFiles_mounted : Mounted twoFiles := by
  have htable : ∀ c, twoFiles.IsTable c → c = 3 := by
    rintro c ⟨n, hn, rfl⟩
    exact twoFiles_iblock hn
  have hlt : ∀ i, twoFiles.Held i → i = 0 ∨ i = 1 := by
    intro i hi
    by_contra hnot
    rw [not_or] at hnot
    have hfree : (twoFiles.icache i).ref = 0 := by
      show (if i = 0 then _ else if i = 1 then _ else _ : Inode).ref = 0
      rw [if_neg hnot.1, if_neg hnot.2]
    unfold FileSys.Held at hi
    omega
  refine ⟨⟨twoInner_intact.wf, fun _ _ => rfl, fun n hn => ?_, fun c hc => ⟨fun hb => ?_, rfl⟩,
    fun c hc _ => twoFiles_used hc, fun n hu => ?_, fun n b hb ht => ?_, fun n m b hne hb hb' => ?_⟩,
    fun i hi => ?_, fun i hi => ?_, fun i hi => ?_, fun i hi => ?_, fun i j hi hj he => ?_⟩
  · have hn : n < 16 := hn
    show n / 16 + 3 < 800
    omega
  · have h2 := (twoFiles_bitmap c).1 hb
    have h3 := htable c hc
    omega
  · rcases twoFiles_inUse hu with rfl | rfl
    · rw [twoFiles_first]
      have hsize : twoInnerDin.size ≤ maxBytes := twoInner_size.trans_le (by decide)
      have hread : ∀ c ∈ twoInnerDin.blocks twoInnerDisk, twoFiles.bread c = twoInnerDisk c := fun c hc =>
        twoFiles_disk (by have := twoInner_block hc; omega)
      refine ⟨hsize, (contents_congr hsize hread).2 (twoInner_solid.solid hsize), by
        rw [twoFiles_blocks]; exact twoInner_nodup, fun b hb => ?_⟩
      rw [twoFiles_blocks] at hb
      obtain ⟨hlo, hhi⟩ := twoInner_block hb
      have hb : b < 800 := by omega
      refine ⟨hb, twoFiles_used hb, fun hbit => ?_, rfl⟩
      have h2 := (twoFiles_bitmap b).1 hbit
      omega
    rw [twoFiles_second]
    obtain ⟨hblocks, -⟩ := @blocks_blank twoFiles.bread emptyFile fun _ _ => rfl
    refine ⟨Nat.zero_le _, fun bn hbn => absurd hbn (Nat.not_lt_zero _), by rw [hblocks]; exact Multiset.nodup_zero,
      fun b hb => ?_⟩
    exact absurd hb (Multiset.notMem_zero b)
  · have h3 := htable b ht
    have hlo := (twoFiles_owns hb).2.1
    omega
  · exact hne ((twoFiles_owns hb).1.trans (twoFiles_owns hb').1.symm)
  · rcases hlt i hi with rfl | rfl <;> decide
  · rcases hlt i hi with rfl | rfl <;> rfl
  · rcases hlt i hi with rfl | rfl
    · refine inUse_iff.2 ⟨show 1 < 16 by decide, ?_⟩
      rw [show (twoFiles.icache 0).inum = 1 from rfl, twoFiles_first]
      unfold twoInnerDin
      decide
    · refine inUse_iff.2 ⟨show 2 < 16 by decide, ?_⟩
      decide
  · rcases hlt i hi.1 with rfl | rfl
    · exact twoFiles_first.symm
    · exact twoFiles_second.symm
  rcases hlt i hi with rfl | rfl <;> rcases hlt j hj with rfl | rfl
  · rfl
  · cases he
  · cases he
  · rfl

/-- The last block is cut short, and the file is still a byte array. -/
theorem files_are_byte_arrays_cut : IsByteArray (twoFiles.itruncTo 0 536575) 0 := by
  have hfilled : twoFiles.Filled 0 := ⟨show (0 : Int) < 1 by decide, rfl⟩
  have hfits : TruncFits twoFiles 0 536575 := fun _ _ => .inr fun k _ hk => by
    have hroot : entryOf (twoInnerDisk (twoInnerDin.addrs 12)) k = if k < 2 then 43 + k else 0 := by
      rw [twoInner_indirect.2]
      exact twoInner_entries.2.1 k
    have hblock : twoFiles.disk ((twoFiles.icache 0).din.addrs 12) = twoInnerDisk (twoInnerDin.addrs 12) := by
      show twoFiles.bread (twoInnerDin.addrs 12) = _
      exact twoFiles_disk (by rw [twoInner_indirect.2]; decide)
    rw [hblock, hroot]
    exact if_neg (by omega)
  obtain ⟨hst, -⟩ := twoFiles_mounted.volume.itruncTo (twoFiles_mounted.loaded hfilled) hfits
  obtain ⟨d, hic⟩ := hst.icache
  refine files_are_byte_arrays twoFiles_mounted (.single (.itruncTo 0 hfilled 536575 hfits)) ?_
  unfold FileSys.Filled FileSys.Held
  rw [hic, Function.update_self]
  exact hfilled

/-! ### A cut that does not fit -/

theorem truncEntries_zero {start : Nat} {js : List Nat} {s : FileSys} {data : Block} {modified left : Bool}
    (h : ∀ j ∈ js, entryOf data j = 0) :
    truncEntries start js (s, data, modified, left) = (s, data, modified, left) := by
  induction js with
  | nil => rfl
  | cons j js ih =>
    have h0 : getLe 4 data (4 * j) = 0 := h j mem_cons_self
    rw [truncEntries, if_pos h0]
    exact ih fun k hk => h k (mem_cons_of_mem j hk)

theorem itruncToInner_zero {start1 start2 : Nat} {ks : List Nat} {r : FileSys × Block × Bool}
    (h : ∀ k ∈ ks, entryOf r.2.1 k = 0) : ks.foldl (itruncToInner start1 start2) r = r := by
  induction ks with
  | nil => rfl
  | cons k ks ih =>
    have h0 : getLe 4 r.2.1 (4 * k) = 0 := h k mem_cons_self
    rw [foldl_cons, show itruncToInner start1 start2 r k = r by
      unfold itruncToInner
      rw [if_pos h0]]
    exact ih fun l hl => h l (mem_cons_of_mem k hl)

/-- The index block 44 without its one entry, and the first-level block without its second. -/
def clearedInner : Block := putLe 4 (twoInnerDisk 44) 0 0

/-- The first-level block without its second entry. -/
def clearedRoot : Block := putLe 4 (twoInnerDisk 42) 4 0

/-- What a cut at block 523 does: block 700 and its index block 44 are freed, and the entry of 44 is cleared
in the buffer only. -/
def cutTwo : FileSys :=
  ((((twoFiles.bfree 700).bdirty 44 clearedInner).bfree 44).bdirty 42 clearedRoot).setSize 0 535552

theorem clearedInner_entry (j : Nat) : entryOf clearedInner j = 0 := by
  unfold clearedInner entryOf
  by_cases hj : j = 0
  · subst hj
    exact getLe_putLe_self (by decide)
  · rw [getLe_putLe_of_disjoint (by omega)]
    exact (twoInner_entries.2.2.2 j).trans (if_neg hj)

theorem clearedRoot_entry {k : Nat} (hk : 1 ≤ k) : entryOf clearedRoot k = 0 := by
  unfold clearedRoot entryOf
  by_cases h1 : k = 1
  · subst h1
    exact getLe_putLe_self (by decide)
  · rw [getLe_putLe_of_disjoint (by omega)]
    exact (twoInner_entries.2.1 k).trans (if_neg (by omega))

/-- The cut at block 523, computed. -/
theorem itruncTo_cutTwo : twoFiles.itruncTo 0 535552 = cutTwo.iupdate 0 := by
  have hsize : ¬ (twoFiles.icache 0).din.size ≤ 535552 := by
    show ¬ twoInnerDin.size ≤ 535552
    rw [twoInner_size]
    decide
  have haddr : (twoFiles.icache 0).din.addrs 12 = 42 := twoInner_indirect.2
  have htail : twoFiles.zeroTail 0 522 0 = twoFiles := by
    unfold zeroTail
    exact if_neg fun h => h.1 rfl
  have hdirect : (range 11).filter (523 ≤ ·) = [] := by decide
  have hsingle : twoFiles.itruncToIndirect 0 523 = twoFiles := by
    unfold itruncToIndirect
    exact if_neg fun h => absurd h.1 (by decide)
  have hrange : range 256 = 0 :: 1 :: range' 2 254 := by
    rw [range_eq_range']
    rfl
  have hroot : twoFiles.bread 42 = twoInnerDisk 42 := twoFiles_disk (by decide)
  have hinner : twoFiles.bread 44 = twoInnerDisk 44 := twoFiles_disk (by decide)
  -- the entries of block 44
  have hleaf : truncEntries 0 (range 256) (twoFiles, twoInnerDisk 44, false, false) =
      (twoFiles.bfree 700, clearedInner, true, false) := by
    have h700 : getLe 4 (twoInnerDisk 44) (4 * 0) = 700 := twoInner_entries.2.2.2 0
    rw [hrange, truncEntries, h700, if_neg (by decide), if_neg (Nat.not_lt_zero 0)]
    exact truncEntries_zero fun j _ => clearedInner_entry j
  -- the entries of the first-level block
  have hfold : (range 256).foldl (itruncToInner 1 0) (twoFiles, twoInnerDisk 42, true) =
      (((twoFiles.bfree 700).bdirty 44 clearedInner).bfree 44, clearedRoot, false) := by
    have h43 : getLe 4 (twoInnerDisk 42) (4 * 0) = 43 := twoInner_entries.2.1 0
    have h44 : getLe 4 (twoInnerDisk 42) (4 * 1) = 44 := twoInner_entries.2.1 1
    have hfirst : itruncToInner 1 0 (twoFiles, twoInnerDisk 42, true) 0 =
        (twoFiles, twoInnerDisk 42, false) := by
      unfold itruncToInner
      rw [h43, if_neg (by decide), if_pos (by decide)]
    have hsecond : itruncToInner 1 0 (twoFiles, twoInnerDisk 42, false) 1 =
        (((twoFiles.bfree 700).bdirty 44 clearedInner).bfree 44, clearedRoot, false) := by
      unfold itruncToInner
      dsimp only
      rw [h44, if_neg (by decide), if_neg (by decide), if_pos rfl, hinner, hleaf]
      rfl
    rw [hrange, foldl_cons, foldl_cons, hfirst, hsecond]
    exact itruncToInner_zero fun k hk => clearedRoot_entry (by have := mem_range'_1.1 hk; omega)
  have hdouble : twoFiles.itruncToDouble 0 523 =
      (((twoFiles.bfree 700).bdirty 44 clearedInner).bfree 44).bdirty 42 clearedRoot := by
    unfold itruncToDouble
    dsimp only
    rw [haddr, if_pos ⟨by decide, by decide⟩, hroot, show (523 - 267) / 256 = 1 from rfl,
      show (523 - 267) % 256 = 0 from rfl, hfold]
    rfl
  unfold itruncTo
  rw [if_neg hsize, if_neg (by decide)]
  dsimp only
  rw [show (535552 - 1) / 1024 = 522 from rfl, show 535552 % 1024 = 0 from rfl, htail, hdirect, foldl_nil,
    hsingle, hdouble]
  rfl

theorem writei_byte {s t : FileSys} {i off b : Nat} {x : UInt8} (hbmap : s.bmap i (off / 1024) = (b, t)) (hb : b ≠ 0)
    (hoff : off ≤ (s.icache i).din.size) (hmax : off + 1 ≤ maxBytes) :
    s.writei i [x] off = (some 1, ((t.bwrite b (putBytes (t.bread b) (off % 1024) [x])).setSize i
      (max (t.icache i).din.size (off + 1))).iupdate i) := by
  unfold maxBytes at hmax
  have hmod : (off + [x].length) % uintMod = off + 1 := Nat.mod_eq_of_lt (by
    unfold uintMod
    simp only [length_singleton]
    omega)
  have hmin : min (1024 - off % 1024) [x].length = 1 := by
    simp only [length_singleton]
    omega
  have hloop : writeLoop 1 s i off [x] = (1, t.bwrite b (putBytes (t.bread b) (off % 1024) [x])) := by
    rw [writeLoop, if_neg (cons_ne_nil x []), hbmap]
    rw [if_neg hb, hmin]
    rfl
  unfold writei
  rw [hmod, if_neg (by omega), if_neg (by omega)]
  dsimp only [length_singleton]
  rw [hloop]
  rw [setSize_max]
  rfl

/-- The file system after the cut, with the two buffers recycled. -/
def staleTwo : FileSys := ((twoFiles.itruncTo 0 535552).recycle 42).recycle 44

theorem staleTwo_icache : staleTwo.icache 0 = { twoFiles.icache 0 with din := { twoInnerDin with size := 535552 } } ∧
    staleTwo.icache 1 = twoFiles.icache 1 := by
  unfold staleTwo
  rw [itruncTo_cutTwo]
  refine ⟨?_, ?_⟩
  · show cutTwo.icache 0 = _
    rfl
  · show cutTwo.icache 1 = _
    rfl

theorem twoFiles_plain {t : FileSys} {c : Nat} (hsb : t.sb = twoFiles.sb) (hc : c ≠ 2) : ¬ t.IsBitmap c := fun hb =>
  hc ((twoFiles_bitmap c).1 ((isBitmap_congr hsb c).1 hb))

theorem cutTwo_cut : Cut twoFiles cutTwo (fun c => c = 44 ∨ c = 42) fun x => x = 700 ∨ x = 44 := by
  have hwf := twoInner_intact.wf
  have h₁ : Cut twoFiles (twoFiles.bfree 700) _ _ := bfree_cut hwf (show 700 < 800 by decide)
  have h₂ := h₁.trans (@bdirty_cut (twoFiles.bfree 700) 44 (twoFiles_plain rfl (by decide)) clearedInner)
  have h₃ := h₂.trans (@bfree_cut ((twoFiles.bfree 700).bdirty 44 clearedInner) 44 hwf (show 44 < 800 by decide))
  have h4 := h₃.trans (@bdirty_cut (((twoFiles.bfree 700).bdirty 44 clearedInner).bfree 44) 42
    (twoFiles_plain rfl (by decide)) clearedRoot)
  exact (h4.trans (setDin_cut 0 _)).congr (fun c hc => by simpa using hc) fun x => by simp

theorem cutTwo_disk {c : Nat} (hc : c ≠ 2) : cutTwo.disk c = twoFiles.disk c := by
  have h₁ := (@bfree_cut twoFiles 700 twoInner_intact.wf (show 700 < 800 by decide)).same c
    (twoFiles_plain rfl hc) id
  have h₃ := (@bfree_cut ((twoFiles.bfree 700).bdirty 44 clearedInner) 44 twoInner_intact.wf
    (show 44 < 800 by decide)).same c (twoFiles_plain rfl hc) id
  exact h₃.1.trans h₁.1

/-- The disk has the index blocks as they were, and they are free. -/
theorem staleTwo_spec : staleTwo.bread 42 = twoInnerDisk 42 ∧ staleTwo.bread 44 = twoInnerDisk 44 ∧
    staleTwo.bread 3 = putDinode (twoFiles.disk 3) 64 { twoInnerDin with size := 535552 } ∧
    ∀ x < 800, staleTwo.used x = true ↔ x ≠ 700 ∧ x ≠ 44 := by
  have hstate : staleTwo = ((cutTwo.bwrite 3 (putDinode (cutTwo.bread 3) 64
      { twoInnerDin with size := 535552 })).recycle 42).recycle 44 := by
    unfold staleTwo
    rw [itruncTo_cutTwo]
    rfl
  have hdisk : ∀ c, c ≠ 2 → c ≠ 3 → staleTwo.disk c = twoInnerDisk c := by
    intro c h2 h3
    rw [hstate]
    exact (update_of_ne h3 _ _).trans ((cutTwo_disk h2).trans (if_neg h3))
  have hbuf : staleTwo.buf 42 = none ∧ staleTwo.buf 44 = none ∧ staleTwo.buf 3 = none := by
    rw [hstate]
    unfold recycle bwrite
    simp [update]
  refine ⟨?_, ?_, ?_, fun x hx => ?_⟩
  · rw [bread, hbuf.1, hdisk 42 (by decide) (by decide)]
    rfl
  · rw [bread, hbuf.2.1, hdisk 44 (by decide) (by decide)]
    rfl
  · have hold : cutTwo.bread 3 = twoFiles.disk 3 :=
      cutTwo_cut.bread (twoFiles_plain rfl (by decide)) (by decide) rfl
    rw [bread, hbuf.2.2, hstate]
    unfold recycle bwrite
    rw [hold]
    simp only [update_self, Option.getD_none]
  generalize hu : cutTwo.bwrite 3 (putDinode (cutTwo.bread 3) 64 { twoInnerDin with size := 535552 }) = u at hstate
  have hcut : Cut twoFiles u (fun c => (c = 44 ∨ c = 42) ∨ c = 3) fun x => (x = 700 ∨ x = 44) ∨ False := by
    rw [← hu]
    exact cutTwo_cut.trans (@bwrite_cut cutTwo 3 (twoFiles_plain rfl (by decide)) _)
  have hrecycle : staleTwo.used x = u.used x := by
    rw [hstate]
    refine used_congr rfl (fun c hc => ?_) (show x < u.sb.size by rw [hcut.sb]; exact hx)
    obtain rfl : c = 2 := (twoFiles_bitmap c).1 ((isBitmap_congr hcut.sb c).1 hc)
    simp [bread, recycle, update]
  rw [hrecycle, hcut.used x hx, twoFiles_used hx]
  simp

/-- The first file grows by one byte, into block 700. -/
def grownTwo : FileSys :=
  ((staleTwo.bwrite 700 (putBytes (staleTwo.bread 700) 0 [1])).setSize 0 535553).iupdate 0

theorem writei_grownTwo : (staleTwo.writei 0 [1] 535552).2 = grownTwo := by
  have hdin : (staleTwo.icache 0).din = { twoInnerDin with size := 535552 } := by rw [staleTwo_icache.1]
  obtain ⟨hroot, hinner, -, -⟩ := staleTwo_spec
  have haddr : (staleTwo.icache 0).din.addrs 12 = 42 := by
    rw [hdin]
    exact twoInner_indirect.2
  have h44 : staleTwo.entry 42 1 = 44 := by
    unfold entry
    rw [hroot]
    exact twoInner_entries.2.1 1
  have h700 : staleTwo.entry 44 0 = 700 := by
    unfold entry
    rw [hinner]
    exact twoInner_entries.2.2.2 0
  have hbmap : staleTwo.bmap 0 (535552 / 1024) = (700, staleTwo) := by
    have haddr' : staleTwo.bmapAddr 0 12 = (42, staleTwo) := by
      unfold bmapAddr
      rw [haddr]
      exact if_pos (by decide)
    have hfirst : staleTwo.bmapEntry 42 1 = (44, staleTwo) := by
      unfold bmapEntry
      rw [h44]
      exact if_pos (by decide)
    have hsecond : staleTwo.bmapEntry 44 0 = (700, staleTwo) := by
      unfold bmapEntry
      rw [h700]
      exact if_pos (by decide)
    unfold bmap
    rw [if_neg (by decide), if_neg (by decide), if_pos (by decide), haddr']
    rw [if_neg (by decide), show (523 - 267) / 256 = 1 from rfl, show (523 - 267) % 256 = 0 from rfl, hfirst]
    rw [if_neg (by decide), hsecond]
  rw [writei_byte hbmap (by decide) (by rw [hdin]) (by decide), hdin]
  rfl

theorem staleTwo_sb : staleTwo.sb = twoFiles.sb := by
  unfold staleTwo
  rw [itruncTo_cutTwo]
  rfl

theorem grownTwo_icache : grownTwo.icache 1 = twoFiles.icache 1 := by
  show ((staleTwo.bwrite 700 (putBytes (staleTwo.bread 700) 0 [1])).setSize 0 535553).icache 1 = _
  unfold setSize setDin
  rw [setInode_icache_of_ne _ (by decide)]
  exact staleTwo_icache.2

theorem grownTwo_spec : grownTwo.sb = twoFiles.sb ∧ grownTwo.dinode 1 = { twoInnerDin with size := 535553 } ∧
    grownTwo.bread 42 = twoInnerDisk 42 ∧ grownTwo.bread 44 = twoInnerDisk 44 ∧ grownTwo.bread 700 0 = 1 ∧
    ∀ x < 800, grownTwo.used x = true ↔ x ≠ 700 ∧ x ≠ 44 := by
  obtain ⟨hroot, hinner, htable, hused⟩ := staleTwo_spec
  generalize hd : putBytes (staleTwo.bread 700) 0 [1] = data
  have hdata : data 0 = 1 := by
    rw [← hd]
    rfl
  generalize hr : putDinode (((staleTwo.bwrite 700 data).setSize 0 535553).bread 3) 64
    { twoInnerDin with size := 535553 } = table
  have hstate : grownTwo = ((staleTwo.bwrite 700 data).setSize 0 535553).bwrite 3 table := by
    have hentry : ((staleTwo.bwrite 700 data).setSize 0 535553).icache 0 =
        { twoFiles.icache 0 with din := { twoInnerDin with size := 535553 } } := by
      show { staleTwo.icache 0 with din := { (staleTwo.icache 0).din with size := 535553 } } = _
      rw [staleTwo_icache.1]
    have hib : ((staleTwo.bwrite 700 data).setSize 0 535553).iblock 1 = 3 :=
      (iblock_congr staleTwo_sb 1).trans (twoFiles_iblock (by decide))
    unfold grownTwo iupdate
    dsimp only
    have hinum : (((staleTwo.bwrite 700 data).setSize 0 535553).icache 0).inum = 1 := by
      rw [hentry]
      rfl
    have hdin : (((staleTwo.bwrite 700 data).setSize 0 535553).icache 0).din = { twoInnerDin with size := 535553 } := by
      rw [hentry]
    rw [hd, hinum, hdin, hib, ← hr]
    rfl
  have hread : ∀ c, grownTwo.bread c = if c = 3 then table else if c = 700 then data else staleTwo.bread c := by
    intro c
    rw [hstate, bread_bwrite]
    exact if_congr Iff.rfl rfl (bread_bwrite 700 c data)
  have hsb : grownTwo.sb = twoFiles.sb := by
    exact staleTwo_sb
  refine ⟨hsb, ?_, ?_, ?_, ?_, fun x hx => ?_⟩
  · unfold dinode
    rw [(iblock_congr hsb 1).trans (twoFiles_iblock (by decide)), hread, if_pos rfl, ← hr]
    obtain ⟨htype, hmajor, hminor, hnlink, -, haddrs, htail⟩ := twoInner_fits
    exact getDinode_putDinode ⟨htype, hmajor, hminor, hnlink, by decide, haddrs, htail⟩
  · rw [hread, if_neg (by decide), if_neg (by decide), hroot]
  · rw [hread, if_neg (by decide), if_neg (by decide), hinner]
  · rw [hread, if_neg (by decide), if_pos rfl, hdata]
  have hsame : grownTwo.used x = staleTwo.used x := by
    refine used_congr (by rw [hstate]; rfl) (fun c hc => ?_) (by rw [staleTwo_sb]; exact hx)
    obtain rfl : c = 2 := (twoFiles_bitmap c).1 ((isBitmap_congr staleTwo_sb c).1 hc)
    rw [hread, if_neg (by decide), if_neg (by decide)]
  rw [hsame, hused x hx]

theorem grownTwo_balloc : grownTwo.balloc = (44, (grownTwo.setUsed 44 true).bwrite 44 fun _ => 0) := by
  obtain ⟨hsb, -, -, -, -, hused⟩ := grownTwo_spec
  have hfind : (range grownTwo.sb.size).find? (fun b => !grownTwo.used b) = some 44 := by
    rw [hsb, find?_range_eq_some]
    refine ⟨?_, mem_range.2 (show 44 < 800 by decide), fun j hj => ?_⟩
    · rw [Bool.not_eq_true', Bool.eq_false_iff]
      exact fun hu => ((hused 44 (by decide)).1 hu).2 rfl
    · rw [Bool.not_not]
      exact (hused j (by omega)).2 ⟨by omega, by omega⟩
  unfold balloc
  rw [hfind]

/-- The way to block 523 of the first file, from what is read of its index blocks. -/
theorem twoInner_path {rd : Nat → Block} (hroot : rd 42 = twoInnerDisk 42) (n : Nat) :
    blockPath rd { twoInnerDin with size := n } 523 = [42, 44, entryOf (rd 44) 0] := by
  have h44 : entryOf (twoInnerDisk 42) 1 = 44 := twoInner_entries.2.1 1
  unfold blockPath indexEntry
  rw [show (523 - 267) / 256 = 1 from rfl, show (523 - 267) % 256 = 0 from rfl, twoInner_indirect.2, hroot]
  show [42, entryOf (twoInnerDisk 42) 1, entryOf (rd (entryOf (twoInnerDisk 42) 1)) 0] = _
  rw [h44]

/-- The second file takes a block. -/
def takenTwo : FileSys :=
  let t := ((grownTwo.setUsed 44 true).bwrite 44 fun _ => 0).setDin 1
    { emptyFile with addrs := Function.update emptyFile.addrs 0 44 }
  ((t.bwrite 44 (putBytes (t.bread 44) 0 [0])).setSize 1 1).iupdate 1

theorem writei_takenTwo : (grownTwo.writei 1 [0] 0).2 = takenTwo := by
  have hdin : (grownTwo.icache 1).din = emptyFile := by
    rw [grownTwo_icache]
    rfl
  have hnew : ((((grownTwo.setUsed 44 true).bwrite 44 fun _ => 0).icache 1).din) = emptyFile := hdin
  have hbmap : grownTwo.bmap 1 (0 / 1024) = (44, ((grownTwo.setUsed 44 true).bwrite 44 fun _ => 0).setDin 1
      { emptyFile with addrs := update emptyFile.addrs 0 44 }) := by
    have haddr : ¬ (grownTwo.icache 1).din.addrs 0 ≠ 0 := by
      rw [hdin]
      exact fun hne => hne rfl
    unfold bmap bmapAddr
    rw [if_pos (by decide)]
    rw [if_neg haddr, grownTwo_balloc]
    rw [if_neg (by decide), hnew]
  rw [writei_byte hbmap (by decide) (Nat.zero_le _) (by decide)]
  rfl

/-- Its data has replaced the index block of the first file, whose first-level block still names it. -/
theorem takenTwo_spec : takenTwo.bread 42 = grownTwo.bread 42 ∧ entryOf (takenTwo.bread 44) 0 = 0 := by
  generalize ht : ((grownTwo.setUsed 44 true).bwrite 44 fun _ => 0).setDin 1
    { emptyFile with addrs := update emptyFile.addrs 0 44 } = t
  have htb : t.bread 44 = fun _ => 0 := by
    rw [← ht]
    show ((grownTwo.setUsed 44 true).bwrite 44 fun _ => 0).bread 44 = _
    rw [bread_bwrite, if_pos rfl]
  have htr : t.bread 42 = grownTwo.bread 42 := by
    have hbblock : grownTwo.bblock 44 = 2 :=
      (twoFiles_bitmap _).1 ((isBitmap_congr (grownTwo_spec.1) _).1 ⟨44, by rw [grownTwo_spec.1]; decide, rfl⟩)
    rw [← ht]
    show ((grownTwo.setUsed 44 true).bwrite 44 fun _ => 0).bread 42 = _
    rw [bread_bwrite, if_neg (by decide)]
    unfold setUsed
    rw [bread_bwrite, hbblock, if_neg (by decide)]
  have htsb : t.sb = twoFiles.sb := by
    rw [← ht]
    exact grownTwo_spec.1
  have hinum : (((t.bwrite 44 (putBytes (t.bread 44) 0 [0])).setSize 1 1).icache 1).inum = 2 := by
    show (t.icache 1).inum = 2
    rw [← ht, setDin, setInode_icache_self]
    show (grownTwo.icache 1).inum = 2
    rw [grownTwo_icache]
    rfl
  have hib : ((t.bwrite 44 (putBytes (t.bread 44) 0 [0])).setSize 1 1).iblock 2 = 3 :=
    (iblock_congr htsb 2).trans (twoFiles_iblock (by decide))
  have hread : ∀ c, c ≠ 3 → takenTwo.bread c = if c = 44 then putBytes (t.bread 44) 0 [0] else t.bread c := by
    intro c hc
    unfold takenTwo
    rw [ht]
    unfold iupdate
    rw [bread_bwrite, hinum, hib, if_neg hc]
    exact bread_bwrite 44 c _
  refine ⟨?_, ?_⟩
  · rw [hread 42 (by decide), if_neg (by decide), htr]
  have hzero : putBytes (fun _ => 0) 0 [0] = fun _ => 0 := by
    funext k
    unfold putBytes
    split
    · rename_i hk
      obtain rfl : k = 0 := by simpa using hk
      rfl
    · rfl
  rw [hread 44 (by decide), if_pos rfl, htb, hzero]
  exact getLe_zero 4 _

/-- The second file takes the free block 44, and the first one loses its last byte. -/
theorem writei_changes_other_file : ¬ ∀ (s0 s : FileSys) (i : Nat), Mounted s0 →
    Relation.ReflTransGen (Step fun _ _ _ => True) s0 s → s.Filled i → IsByteArray s i := by
  intro h
  obtain ⟨hsb, hdin, hroot, hinner, hdata, -⟩ := grownTwo_spec
  have hfilled : ∀ t : FileSys, t.icache 0 = { twoFiles.icache 0 with din := (t.icache 0).din } → t.Filled 0 := by
    intro t ht
    unfold FileSys.Filled FileSys.Held
    rw [ht]
    exact ⟨show (0 : Int) < 1 by decide, rfl⟩
  have hrun : Relation.ReflTransGen (Step fun _ _ _ => True) twoFiles grownTwo := by
    have hcut : Relation.ReflTransGen (Step fun _ _ _ => True) twoFiles staleTwo :=
      .tail (.tail (.single (.itruncTo 0 (hfilled _ rfl) 535552 trivial)) (.recycle 42)) (.recycle 44)
    have hwrite : Step (fun _ _ _ => True) staleTwo grownTwo := by
      rw [← writei_grownTwo]
      exact .writei 0 (hfilled staleTwo (by rw [staleTwo_icache.1])) [1] 535552 (by decide) (by decide)
    exact hcut.tail hwrite
  have hopen : grownTwo.Filled 1 := by
    unfold FileSys.Filled FileSys.Held
    rw [grownTwo_icache]
    exact ⟨show (0 : Int) < 1 by decide, rfl⟩
  have harray := (h twoFiles grownTwo 1 twoFiles_mounted hrun hopen).write 0 [0] (Nat.zero_le _) (by decide)
  obtain ⟨tot, s', hwrite, -, -, -, -, hothers⟩ := harray
  -- the write takes block 44 and zeroes it
  have hs' : s'.bread 42 = twoInnerDisk 42 ∧ entryOf (s'.bread 44) 0 = 0 := by
    have hstate : s' = (grownTwo.writei 1 [0] 0).2 := by rw [hwrite]
    rw [hstate, writei_takenTwo]
    exact ⟨takenTwo_spec.1.trans hroot, takenTwo_spec.2⟩
  have hdinode : grownTwo.InUse 1 := by
    refine inUse_iff.2 ⟨by rw [hsb]; exact (by decide : 1 < 16), ?_⟩
    rw [hdin]
    unfold twoInnerDin
    decide
  have hinum : (grownTwo.icache 1).inum = 2 := by
    rw [grownTwo_icache]
    rfl
  obtain ⟨-, hsame⟩ := hothers 1 (by rw [hsb]; exact (by decide : 1 < 16)) (by rw [hinum]; decide)
  have hbyte := congrArg (fun bs => bs[535552]?) (hsame hdinode)
  have hlt : 535552 < (grownTwo.dinode 1).size := by
    rw [hdin]
    decide
  rw [getElem?_contents hlt, getElem?_contents hlt, hdin] at hbyte
  have hmax : 523 < maxFile := by decide
  -- before the write the byte is 1, afterwards its block is missing
  have hnew : Dinode.fileBlock s'.bread { twoInnerDin with size := 535553 } 523 = 0 := by
    by_contra hne
    refine (fileBlock_path hmax).1.1 hne ?_
    rw [twoInner_path hs'.1, hs'.2]
    decide
  have hpath : blockPath grownTwo.bread { twoInnerDin with size := 535553 } 523 = [42, 44, 700] := by
    rw [twoInner_path hroot, hinner]
    exact congrArg (fun e => [42, 44, e]) (twoInner_entries.2.2.2 0)
  have hne : Dinode.fileBlock grownTwo.bread { twoInnerDin with size := 535553 } 523 ≠ 0 := by
    rw [(fileBlock_path hmax).1, hpath]
    decide
  have hold : Dinode.fileBlock grownTwo.bread { twoInnerDin with size := 535553 } 523 = 700 := by
    rw [← (fileBlock_path hmax).2 hne, blockAt, hpath]
    rfl
  unfold Dinode.byteOf at hbyte
  rw [show 535552 / 1024 = 523 from rfl, hnew, hold, if_pos rfl, if_neg (by decide),
    show 535552 % 1024 = 0 from rfl, hdata] at hbyte
  exact absurd hbyte (by decide)

end

end Slopix.Fs
