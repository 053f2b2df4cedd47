import Slopix.Fs.Dir

/-!
# What the data layer leaves alone

Reading, writing, allocating and truncating change blocks and the copies of on-disk inodes in the
inode cache. They never change which inode an entry of the cache stands for, how often it is
referenced or whether it is locked: these four fields are its `tag`.
-/

namespace Slopix.Fs

open Lib FileSys

/-- Device, number, reference count and lock of an entry of the inode cache. -/
def Inode.tag (ip : Inode) : Nat × Nat × Int × Bool := (ip.dev, ip.inum, ip.ref, ip.locked)

/-- No entry of the inode cache changes its tag. -/
def SameTags (s s' : FileSys) : Prop := ∀ i, (s'.icache i).tag = (s.icache i).tag

section

variable {s s' s'' : FileSys}

theorem SameTags.refl (s : FileSys) : SameTags s s := fun _ => rfl

theorem SameTags.trans (h : SameTags s s') (h' : SameTags s' s'') : SameTags s s'' :=
  fun i => (h' i).trans (h i)

theorem sameTags_setInode {i : Nat} {ip : Inode} (h : ip.tag = (s.icache i).tag) :
    SameTags s (s.setInode i ip) := by
  intro j
  unfold setInode
  simp only [Function.update_apply]
  split
  · rename_i e
    rw [e, h]
  · rfl

theorem sameTags_setDin (i : Nat) (d : Dinode) : SameTags s (s.setDin i d) := sameTags_setInode rfl

theorem sameTags_bwrite (b : Nat) (data : Block) : SameTags s (s.bwrite b data) := fun _ => rfl

theorem sameTags_bdirty (b : Nat) (data : Block) : SameTags s (s.bdirty b data) := fun _ => rfl

theorem sameTags_setUsed (b : Nat) (v : Bool) : SameTags s (s.setUsed b v) := sameTags_bwrite _ _

theorem sameTags_balloc : SameTags s s.balloc.2 := by
  unfold balloc
  split
  · exact SameTags.refl s
  · exact (sameTags_setUsed _ _).trans (sameTags_bwrite _ _)

theorem sameTags_bfree (b : Nat) : SameTags s (s.bfree b) := sameTags_setUsed b false

theorem sameTags_iupdate (i : Nat) : SameTags s (s.iupdate i) := sameTags_bwrite _ _

theorem sameTags_bmapAddr (i k : Nat) : SameTags s (s.bmapAddr i k).2 := by
  unfold bmapAddr
  dsimp only
  split
  · exact SameTags.refl s
  · split
    · exact sameTags_balloc
    · exact sameTags_balloc.trans (sameTags_setDin i _)

theorem sameTags_bmapEntry (b j : Nat) : SameTags s (s.bmapEntry b j).2 := by
  unfold bmapEntry
  dsimp only
  split
  · exact SameTags.refl s
  · split
    · exact sameTags_balloc
    · exact sameTags_balloc.trans (sameTags_bwrite _ _)

theorem sameTags_bmap (i bn : Nat) : SameTags s (s.bmap i bn).2 := by
  unfold bmap
  dsimp only
  split
  · exact sameTags_bmapAddr i bn
  split
  · split
    · exact sameTags_bmapAddr i 11
    · exact (sameTags_bmapAddr i 11).trans (sameTags_bmapEntry _ _)
  split
  · split
    · exact sameTags_bmapAddr i 12
    split
    · exact (sameTags_bmapAddr i 12).trans (sameTags_bmapEntry _ _)
    · exact ((sameTags_bmapAddr i 12).trans (sameTags_bmapEntry _ _)).trans
        (sameTags_bmapEntry _ _)
  · exact SameTags.refl s

theorem sameTags_readLoop (fuel i off rem : Nat) :
    SameTags s (readLoop fuel s i off rem).2 := by
  induction fuel generalizing s off rem with
  | zero => exact SameTags.refl s
  | succ fuel ih =>
    rw [readLoop]
    split
    · exact SameTags.refl s
    dsimp only
    split
    · exact sameTags_bmap i _
    · exact (sameTags_bmap i _).trans (ih _ _)

theorem sameTags_readi (i off n : Nat) : SameTags s (s.readi i off n).2 := by
  unfold readi
  dsimp only
  split
  · exact SameTags.refl s
  · exact sameTags_readLoop _ i off _

theorem sameTags_writeLoop (fuel i off : Nat) (src : List UInt8) :
    SameTags s (writeLoop fuel s i off src).2 := by
  induction fuel generalizing s off src with
  | zero => exact SameTags.refl s
  | succ fuel ih =>
    rw [writeLoop]
    split
    · exact SameTags.refl s
    dsimp only
    split
    · exact sameTags_bmap i _
    · exact ((sameTags_bmap i _).trans (sameTags_bwrite _ _)).trans (ih _ _)

/-- A write moves no slot of the cache. -/
theorem sameTags_writei (i : Nat) (src : List UInt8) (off : Nat) :
    SameTags s (s.writei i src off).2 := by
  unfold writei
  split
  · exact SameTags.refl s
  split
  · exact SameTags.refl s
  dsimp only
  have hloop := sameTags_writeLoop (s := s) src.length i off src
  split
  · exact (hloop.trans (sameTags_setDin i _)).trans (sameTags_iupdate i)
  · exact hloop.trans (sameTags_iupdate i)

/-! ## Truncation -/

theorem sameTags_foldl {f : FileSys → Nat → FileSys} (hf : ∀ s k, SameTags s (f s k)) (l : List Nat) :
    SameTags s (l.foldl f s) := by
  induction l generalizing s with
  | nil => exact SameTags.refl s
  | cons k l ih => exact (hf s k).trans ih

theorem sameTags_freeEntries (b : Nat) (l : List Nat) : SameTags s (s.freeEntries b l) := by
  apply sameTags_foldl
  intro s j
  split
  · exact sameTags_bfree _
  · exact SameTags.refl s

theorem sameTags_truncAddr (i k : Nat) : SameTags s (s.truncAddr i k) := by
  unfold truncAddr
  split
  · exact (sameTags_bfree _).trans (sameTags_setDin i _)
  · exact SameTags.refl s

theorem sameTags_itruncIndirect (i : Nat) : SameTags s (s.itruncIndirect i) := by
  unfold itruncIndirect
  dsimp only
  split
  · exact ((sameTags_freeEntries _ _).trans (sameTags_bfree _)).trans (sameTags_setDin i _)
  · exact SameTags.refl s

theorem sameTags_itruncDouble (i : Nat) : SameTags s (s.itruncDouble i) := by
  unfold itruncDouble
  dsimp only
  split
  · refine (SameTags.trans ?_ (sameTags_bfree _)).trans (sameTags_setDin i _)
    apply sameTags_foldl
    intro s j
    split
    · exact (sameTags_freeEntries _ _).trans (sameTags_bfree _)
    · exact SameTags.refl s
  · exact SameTags.refl s

theorem sameTags_itrunc (i : Nat) : SameTags s (s.itrunc i) := by
  have hdirect : SameTags s ((List.range 11).foldl (fun s k => s.truncAddr i k) s) :=
    sameTags_foldl (fun _ k => sameTags_truncAddr i k) _
  exact (((hdirect.trans (sameTags_itruncIndirect i)).trans (sameTags_itruncDouble i)).trans
    (sameTags_setDin i _)).trans (sameTags_iupdate i)

theorem sameTags_truncEntries (start : Nat) (l : List Nat) (r : FileSys × Block × Bool × Bool) :
    SameTags r.1 (truncEntries start l r).1 := by
  induction l generalizing r with
  | nil => exact SameTags.refl _
  | cons j l ih =>
    obtain ⟨s, data, modified, left⟩ := r
    rw [truncEntries]
    split
    · exact ih _
    · split
      · exact ih _
      · exact (sameTags_bfree _).trans (ih _)

theorem sameTags_itruncToIndirect (i firstFree : Nat) :
    SameTags s (s.itruncToIndirect i firstFree) := by
  unfold itruncToIndirect
  dsimp only
  split
  · have hloop := sameTags_truncEntries (firstFree - 11)
      ((List.range 256).filter (firstFree - 11 ≤ ·))
      (s, s.bread ((s.icache i).din.addrs 11), false, false)
    generalize truncEntries (firstFree - 11) ((List.range 256).filter (firstFree - 11 ≤ ·))
      (s, s.bread ((s.icache i).din.addrs 11), false, false) = r at hloop ⊢
    have hstore : SameTags s (if r.2.2.1 = true ∧ 0 < firstFree - 11 then
        r.1.bwrite ((s.icache i).din.addrs 11) r.2.1
        else if r.2.2.1 = true then r.1.bdirty ((s.icache i).din.addrs 11) r.2.1 else r.1) := by
      split
      · exact hloop
      · split
        · exact hloop
        · exact hloop
    split
    · exact (hstore.trans (sameTags_bfree _)).trans (sameTags_setDin i _)
    · exact hstore
  · exact SameTags.refl s

theorem sameTags_itruncToInner (a c : Nat) (r : FileSys × Block × Bool) (k : Nat) :
    SameTags r.1 (itruncToInner a c r k).1 := by
  unfold itruncToInner
  dsimp only
  split
  · exact SameTags.refl _
  split
  · exact SameTags.refl _
  have hloop := sameTags_truncEntries (if k = a then c else 0) (List.range 256)
    (r.1, r.1.bread (getLe 4 r.2.1 (4 * k)), false, false)
  generalize truncEntries (if k = a then c else 0) (List.range 256)
    (r.1, r.1.bread (getLe 4 r.2.1 (4 * k)), false, false) = t at hloop ⊢
  split
  · exact hloop.trans ((sameTags_bdirty _ _).trans (sameTags_bfree _))
  · exact hloop.trans (sameTags_bwrite _ _)

theorem sameTags_itruncToDouble (i firstFree : Nat) : SameTags s (s.itruncToDouble i firstFree) := by
  unfold itruncToDouble
  dsimp only
  split
  · have hloop : ∀ (l : List Nat) (r : FileSys × Block × Bool), SameTags r.1
        (l.foldl (itruncToInner ((firstFree - 267) / 256) ((firstFree - 267) % 256)) r).1 := by
      intro l
      induction l with
      | nil => exact fun r => SameTags.refl _
      | cons k l ih => exact fun r => (sameTags_itruncToInner _ _ r k).trans (ih _)
    split
    · exact (hloop _ (s, _, true)).trans
        (((sameTags_bdirty _ _).trans (sameTags_bfree _)).trans (sameTags_setDin i _))
    · exact (hloop _ (s, _, true)).trans (sameTags_bdirty _ _)
  · exact SameTags.refl s

theorem sameTags_itruncTo (i len : Nat) : SameTags s (s.itruncTo i len) := by
  unfold itruncTo
  split
  · exact SameTags.refl s
  split
  · exact sameTags_itrunc i
  have hzero : SameTags s (s.zeroTail i ((len - 1) / 1024) (len % 1024)) := by
    unfold zeroTail
    dsimp only
    split
    · exact sameTags_bwrite _ _
    · exact SameTags.refl s
  have hdirect := sameTags_foldl (s := s.zeroTail i ((len - 1) / 1024) (len % 1024))
    (fun s k => sameTags_truncAddr (s := s) i k)
    ((List.range 11).filter ((len - 1) / 1024 + 1 ≤ ·))
  exact ((((hzero.trans hdirect).trans (sameTags_itruncToIndirect i _)).trans
    (sameTags_itruncToDouble i _)).trans (sameTags_setDin i _)).trans (sameTags_iupdate i)

/-! ## Directories -/

theorem sameTags_dirscan (f : List UInt8 → Bool) (i fuel off : Nat) :
    SameTags s (dirscan f i fuel s off).2 := by
  induction fuel generalizing s off with
  | zero => exact SameTags.refl s
  | succ fuel ih =>
    rw [dirscan]
    split
    · exact SameTags.refl s
    dsimp only
    split
    · exact sameTags_readi i off 64
    · split
      · exact sameTags_readi i off 64
      · exact (sameTags_readi i off 64).trans (ih _)

theorem sameTags_scanDir (f : List UInt8 → Bool) (i off : Nat) :
    SameTags s (s.scanDir f i off).2 := sameTags_dirscan f i _ off

theorem sameTags_isdirempty (dp : Nat) : SameTags s (s.isdirempty dp).2 := by
  have hscan := sameTags_scanDir (s := s) (fun de => direntInum de != 0) dp 128
  unfold isdirempty
  rcases hres : s.scanDir (fun de => direntInum de != 0) dp 128 with ⟨scan, s'⟩
  rw [hres] at hscan
  cases scan <;> exact hscan

theorem sameTags_setNlink (i n : Nat) : SameTags s (s.setNlink i n) := sameTags_setDin i _

theorem sameTags_incNlink (i : Nat) : SameTags s (s.incNlink i) :=
  (sameTags_setNlink i _).trans (sameTags_iupdate i)

theorem sameTags_decNlink (i : Nat) : SameTags s (s.decNlink i) :=
  (sameTags_setNlink i _).trans (sameTags_iupdate i)

theorem sameTags_zeroNlink (i : Nat) : SameTags s (s.zeroNlink i) :=
  (sameTags_setNlink i 0).trans (sameTags_iupdate i)

theorem sameTags_initInode (i major minor : Nat) : SameTags s (s.initInode i major minor) :=
  (sameTags_setDin i _).trans (sameTags_iupdate i)

theorem sameTags_load (i : Nat) : SameTags s (s.load i) := by
  unfold load
  split
  · exact SameTags.refl s
  · exact sameTags_setInode rfl

theorem sameTags_freeInode (i : Nat) : SameTags s (s.freeInode i) :=
  (((sameTags_itrunc i).trans (sameTags_setDin i _)).trans (sameTags_iupdate i)).trans
    (sameTags_setInode rfl)

end

end Slopix.Fs
