import Slopix.Fs.Cached
import Slopix.Fs.Release

/-!
# Runs of the file system

`Step` is one call of a function of `fs.c` on the inode cache and the disk, or a buffer that is recycled.
Between two calls the volume is sound, and what a referenced entry of the inode cache holds is what is on
disk, as long as every call of `fs_itrunc_to` meets the condition under which it keeps the file sound.
-/

namespace Slopix.Fs

open Lib Function FileSys

namespace FileSys

/-- Somebody has a reference to entry `i` of the inode cache. -/
def Held (s : FileSys) (i : Nat) : Prop := 0 < (s.icache i).ref

/-- The entry has been filled by `fs_ilock` since. -/
def Filled (s : FileSys) (i : Nat) : Prop := s.Held i ∧ (s.icache i).valid = true

end FileSys

/-- The inode cache agrees with the disk: a referenced entry is about an inode in use, no other entry is
about it, and a filled one has its on-disk copy. -/
structure Synced (s : FileSys) : Prop where
  lt : ∀ i, s.Held i → i < ninode
  dev : ∀ i, s.Held i → (s.icache i).dev = 0
  used : ∀ i, s.Held i → s.InUse (s.icache i).inum
  din : ∀ i, s.Filled i → (s.icache i).din = s.dinode (s.icache i).inum
  unique : ∀ i j, s.Held i → s.Held j → (s.icache i).inum = (s.icache j).inum → i = j

/-- The file system between two calls. -/
structure Mounted (s : FileSys) : Prop where
  volume : Volume s
  synced : Synced s

/-- One call. `ok` says which calls of `fs_itrunc_to` take place. -/
inductive Step (ok : FileSys → Nat → Nat → Prop) : FileSys → FileSys → Prop where
  | iget {s : FileSys} (n : Nat) (hn : s.InUse n) : Step ok s (s.iget 0 n).2
  | idup {s : FileSys} (i : Nat) (hi : s.Held i) : Step ok s (s.idup i)
  | ilock {s s' : FileSys} (i : Nat) (hret : Fs.ilock i s = .ok ((), s')) : Step ok s s'
  | iunlock {s : FileSys} (i : Nat) : Step ok s (s.iunlock i)
  | iput {s s' : FileSys} (i : Nat) (hi : s.Held i) (hret : Fs.iput i s = .ok ((), s')) : Step ok s s'
  | ialloc {s : FileSys} (type : Nat) (hpos : 0 < type) (hlt : type < 65536) : Step ok s (s.ialloc 0 type).2
  | iupdate {s : FileSys} (i : Nat) (hi : s.Filled i) (d : Dinode) (hfits : d.Fits)
      (htype : d.type = (s.icache i).din.type) (hsize : d.size = (s.icache i).din.size)
      (haddrs : d.addrs = (s.icache i).din.addrs) : Step ok s ((s.setDin i d).iupdate i)
  | readi {s : FileSys} (i : Nat) (hi : s.Filled i) (off n : Nat) (hn : off + n < uintMod) :
      Step ok s (s.readi i off n).2
  | writei {s : FileSys} (i : Nat) (hi : s.Filled i) (src : List UInt8) (off : Nat) (hoff : off < uintMod)
      (hsrc : src.length < uintMod) : Step ok s (s.writei i src off).2
  | itrunc {s : FileSys} (i : Nat) (hi : s.Filled i) : Step ok s (s.itrunc i)
  | itruncTo {s : FileSys} (i : Nat) (hi : s.Filled i) (len : Nat) (hok : ok s i len) : Step ok s (s.itruncTo i len)
  | recycle {s : FileSys} (c : Nat) : Step ok s (s.recycle c)

/-- No entry of the first-level block of the double-indirect tree has to go while the block stays. -/
def TruncFits (s : FileSys) (i len : Nat) : Prop :=
  0 < len → len < (s.icache i).din.size → RootFits s.disk (s.icache i).din ((len - 1) / 1024 + 1)

/-! ## The inode cache alone -/

section

variable {s s' : FileSys} {i n : Nat}

/-- The invariant of the disk does not mention the inode cache. -/
theorem Volume.congr (h : Volume s) (hsb : s'.sb = s.sb) (hdisk : s'.disk = s.disk) (hbuf : s'.buf = s.buf) :
    Volume s' := by
  obtain ⟨sb, disk, buf, icache⟩ := s'
  subst hsb hdisk hbuf
  obtain ⟨hwf, hclean, hplace, htable, hres, hsound, hout, hapart⟩ := h
  exact ⟨hwf, hclean, hplace, htable, hres, fun m hu =>
    ⟨(hsound m hu).size, (hsound m hu).solid, (hsound m hu).nodup, (hsound m hu).block⟩, hout, hapart⟩

theorem inUse_congr (hsb : s'.sb = s.sb) (hread : s'.bread = s.bread) (n : Nat) : s'.InUse n ↔ s.InUse n := by
  unfold FileSys.InUse
  rw [hsb, hread]

theorem dinode_congr (hsb : s'.sb = s.sb) (hread : s'.bread = s.bread) (n : Nat) : s'.dinode n = s.dinode n := by
  unfold dinode iblock
  rw [hsb, hread]

/-- The disk stays, and every entry that is referenced afterwards was referenced before. -/
theorem Synced.congr (h : Synced s) (hsb : s'.sb = s.sb) (hread : s'.bread = s.bread)
    (hheld : ∀ j, s'.Held j → s.Held j ∧ (s'.icache j).dev = (s.icache j).dev ∧
      (s'.icache j).inum = (s.icache j).inum)
    (hdin : ∀ j, s'.Filled j → s.Filled j ∧ (s'.icache j).din = (s.icache j).din ∨
      (s'.icache j).din = s.dinode (s.icache j).inum) : Synced s' := by
  refine ⟨fun j hj => h.lt j (hheld j hj).1, fun j hj => ?_, fun j hj => ?_, fun j hj => ?_, fun j k hj hk he => ?_⟩
  · rw [(hheld j hj).2.1]
    exact h.dev j (hheld j hj).1
  · rw [(hheld j hj).2.2]
    exact (inUse_congr hsb hread _).2 (h.used j (hheld j hj).1)
  · rw [dinode_congr hsb hread, (hheld j hj.1).2.2]
    rcases hdin j hj with ⟨hold, heq⟩ | heq
    · rw [heq, h.din j hold]
    · exact heq
  · rw [(hheld j hj).2.2, (hheld k hk).2.2] at he
    exact h.unique j k (hheld j hj).1 (hheld k hk).1 he

theorem Mounted.loaded (h : Mounted s) (hi : s.Filled i) : Loaded s i (s.icache i).inum :=
  ⟨rfl, h.synced.used i hi.1, h.synced.din i hi⟩

/-- A slot of the cache may be filled from the disk. -/
theorem Mounted.setInode (h : Mounted s) {ip : Inode} (href : 0 < ip.ref → s.Held i)
    (hdev : ip.dev = (s.icache i).dev) (hinum : ip.inum = (s.icache i).inum)
    (hdin : ip.valid = true → (s.icache i).valid = true ∧ ip.din = (s.icache i).din ∨
      ip.din = s.dinode (s.icache i).inum) : Mounted (s.setInode i ip) := by
  have hother : ∀ j, j ≠ i → (s.setInode i ip).icache j = s.icache j := fun j hj =>
    setInode_icache_of_ne ip hj
  refine ⟨h.volume.congr rfl rfl rfl, h.synced.congr rfl rfl (fun j hj => ?_) fun j hj => ?_⟩
  · by_cases hji : j = i
    · subst hji
      unfold FileSys.Held at hj
      rw [setInode_icache_self] at hj ⊢
      exact ⟨href hj, hdev, hinum⟩
    · unfold FileSys.Held at hj
      rw [hother j hji] at hj ⊢
      exact ⟨hj, rfl, rfl⟩
  by_cases hji : j = i
  · subst hji
    unfold FileSys.Filled FileSys.Held at hj
    rw [setInode_icache_self] at hj ⊢
    exact (hdin hj.2).imp_left fun hold => ⟨⟨href hj.1, hold.1⟩, hold.2⟩
  · unfold FileSys.Filled FileSys.Held at hj
    rw [hother j hji] at hj ⊢
    exact .inl ⟨hj, rfl⟩

theorem Mounted.idup (h : Mounted s) (hi : s.Held i) : Mounted (s.idup i) :=
  h.setInode (fun _ => hi) rfl rfl fun hv => .inl ⟨hv, rfl⟩

theorem Mounted.iunlock (h : Mounted s) : Mounted (s.iunlock i) := by
  unfold FileSys.iunlock
  split
  · exact h
  · exact h.setInode id rfl rfl fun hv => .inl ⟨hv, rfl⟩

theorem Mounted.dropRef (h : Mounted s) : Mounted (s.dropRef i) := by
  refine h.setInode (fun hpos => ?_) rfl rfl fun hv => .inl ⟨hv, rfl⟩
  have hpos : 0 < (s.icache i).ref - 1 := hpos
  show 0 < (s.icache i).ref
  omega

theorem Mounted.ilock (h : Mounted s) (hret : Fs.ilock i s = .ok ((), s')) : Mounted s' := by
  unfold Fs.ilock at hret
  rw [Exec.bind_ok (b := s.icache i) rfl] at hret
  split at hret
  · cases hret
    exact h
  split at hret
  · cases hret
  cases hret
  have hlocked : Mounted (s.setLocked i true) := h.setInode id rfl rfl fun hv => .inl ⟨hv, rfl⟩
  show Mounted ((s.setLocked i true).load i)
  unfold load
  split
  · exact hlocked
  · exact hlocked.setInode id rfl rfl fun _ => .inr rfl

/-- `fs_iget` finds the entry of the inode, or takes a free one. -/
theorem Mounted.iget (h : Mounted s) (hn : s.InUse n) : Mounted (s.iget 0 n).2 := by
  unfold FileSys.iget
  split
  · rename_i i hfind
    have hprop := (findInode_spec hfind).2
    simp only [Bool.and_eq_true, decide_eq_true_eq, beq_iff_eq] at hprop
    exact h.idup hprop.1.1
  rename_i hnone
  split
  · rename_i i hfind
    obtain ⟨hlt, -⟩ := findInode_spec hfind
    -- no referenced entry is about this inode
    have habsent : ∀ j, s.Held j → (s.icache j).inum ≠ n := by
      intro j hj hinum
      refine List.find?_eq_none.1 hnone j (List.mem_range.2 (h.synced.lt j hj)) ?_
      simp only [Bool.and_eq_true, decide_eq_true_eq, beq_iff_eq]
      exact ⟨⟨hj, h.synced.dev j hj⟩, hinum⟩
    generalize hs' : s.setInode i { s.icache i with
      dev := 0, inum := n, ref := 1, valid := false, locked := false } = s'
    have hself : s'.icache i = { s.icache i with
        dev := 0, inum := n, ref := 1, valid := false, locked := false } := by
      rw [← hs', setInode_icache_self]
    have hcases : ∀ j, s'.Held j → j = i ∨ j ≠ i ∧ s'.icache j = s.icache j ∧ s.Held j := by
      intro j hj
      by_cases hji : j = i
      · exact .inl hji
      have hsame : s'.icache j = s.icache j := by rw [← hs', setInode_icache_of_ne _ hji]
      unfold FileSys.Held at hj
      rw [hsame] at hj
      exact .inr ⟨hji, hsame, hj⟩
    have hsb : s'.sb = s.sb := by rw [← hs']; rfl
    have hread : s'.bread = s.bread := by rw [← hs']; rfl
    refine ⟨h.volume.congr hsb (by rw [← hs']; rfl) (by rw [← hs']; rfl), fun j hj => ?_, fun j hj => ?_,
      fun j hj => ?_, fun j hj => ?_, fun j k hj hk he => ?_⟩
    · rcases hcases j hj with rfl | ⟨-, -, hold⟩
      · exact hlt
      · exact h.synced.lt j hold
    · rcases hcases j hj with rfl | ⟨-, hsame, hold⟩
      · rw [hself]
      · rw [hsame]
        exact h.synced.dev j hold
    · rw [inUse_congr hsb hread]
      rcases hcases j hj with rfl | ⟨-, hsame, hold⟩
      · rw [hself]
        exact hn
      · rw [hsame]
        exact h.synced.used j hold
    · obtain ⟨hheld, hv⟩ := hj
      rw [dinode_congr hsb hread]
      rcases hcases j hheld with rfl | ⟨-, hsame, hold⟩
      · rw [hself] at hv
        cases hv
      · rw [hsame] at hv ⊢
        exact h.synced.din j ⟨hold, hv⟩
    rcases hcases j hj with rfl | ⟨hji, hsame, hold⟩ <;> rcases hcases k hk with rfl | ⟨hki, hsame', hold'⟩
    · rfl
    · rw [hself, hsame'] at he
      exact absurd he.symm (habsent k hold')
    · rw [hself, hsame] at he
      exact absurd he (habsent j hold)
    · rw [hsame, hsame'] at he
      exact h.synced.unique j k hold hold' he
  · exact h

end

/-! ## Calls that change an inode -/

section

variable {s s' : FileSys} {i n len off type : Nat} {src : List UInt8}

/-- A call that changes one file keeps the volume consistent. -/
theorem Mounted.stores (h : Mounted s) (hi : s.Filled i) (hst : Stores s s' i (s.icache i).inum)
    (huse : s'.InUse (s.icache i).inum) : Mounted s' := by
  obtain ⟨hrew, ⟨d, hic⟩, hdin⟩ := hst
  have hn := (h.synced.used i hi.1).1
  have hself : s'.icache i = { s.icache i with din := d } := by rw [hic, update_self]
  have hother : ∀ j, j ≠ i → s'.icache j = s.icache j := fun j hj => by rw [hic, update_of_ne hj]
  have hfields : ∀ j, (s'.icache j).ref = (s.icache j).ref ∧ (s'.icache j).dev = (s.icache j).dev ∧
      (s'.icache j).inum = (s.icache j).inum ∧ (s'.icache j).valid = (s.icache j).valid := by
    intro j
    by_cases hj : j = i
    · rw [hj, hself]
      exact ⟨rfl, rfl, rfl, rfl⟩
    · rw [hother j hj]
      exact ⟨rfl, rfl, rfl, rfl⟩
  have hheld : ∀ j, s'.Held j → s.Held j := fun j hj => by
    unfold FileSys.Held at hj ⊢
    rwa [(hfields j).1] at hj
  have hnum : ∀ j, s.Held j → j ≠ i → (s.icache j).inum ≠ (s.icache i).inum := fun j hj hne he =>
    hne (h.synced.unique j i hj hi.1 he)
  refine ⟨hrew.volume h.volume hn, fun j hj => h.synced.lt j (hheld j hj), fun j hj => ?_, fun j hj => ?_,
    fun j hj => ?_, fun j k hj hk he => ?_⟩
  · rw [(hfields j).2.1]
    exact h.synced.dev j (hheld j hj)
  · rw [(hfields j).2.2.1]
    by_cases hji : j = i
    · rw [hji]
      exact huse
    · have hu := h.synced.used j (hheld j hj)
      exact (hrew.keeps h.volume hn (hnum j (hheld j hj) hji) hu.1).2.1.2 hu
  · by_cases hji : j = i
    · rw [hji, hdin, hself]
    · have hold := hheld j hj.1
      rw [(hfields j).2.2.1, hrew.record _ (h.synced.used j hold).1 (hnum j hold hji), hother j hji]
      exact h.synced.din j ⟨hold, (hfields j).2.2.2 ▸ hj.2⟩
  · rw [(hfields j).2.2.1, (hfields k).2.2.1] at he
    exact h.synced.unique j k (hheld j hj) (hheld k hk) he

/-- The one reference to an inode is dropped, and the inode is changed. -/
theorem Mounted.forget {u : FileSys} (h : Mounted s) (hi : s.Held i) (hrew : Rewrites s u (s.icache i).inum)
    (hsb : s'.sb = u.sb) (hdisk : s'.disk = u.disk) (hbuf : s'.buf = u.buf)
    (hother : ∀ j, j ≠ i → s'.icache j = s.icache j) (hfree : ¬ s'.Held i) : Mounted s' := by
  have hn := (h.synced.used i hi).1
  have hread : s'.bread = u.bread := by
    unfold bread
    rw [hdisk, hbuf]
  have hcases : ∀ j, s'.Held j → s'.icache j = s.icache j ∧ s.Held j ∧ (s.icache j).inum ≠ (s.icache i).inum := by
    intro j hj
    have hne : j ≠ i := by
      rintro rfl
      exact hfree hj
    have hold : s.Held j := by
      unfold FileSys.Held at hj ⊢
      rwa [hother j hne] at hj
    exact ⟨hother j hne, hold, fun he => hne (h.synced.unique j i hold hi he)⟩
  refine ⟨(hrew.volume h.volume hn).congr hsb hdisk hbuf, fun j hj => h.synced.lt j (hcases j hj).2.1, fun j hj => ?_,
    fun j hj => ?_, fun j hj => ?_, fun j k hj hk he => ?_⟩
  · obtain ⟨hsame, hold, -⟩ := hcases j hj
    rw [hsame]
    exact h.synced.dev j hold
  · obtain ⟨hsame, hold, hne⟩ := hcases j hj
    have hu := h.synced.used j hold
    rw [inUse_congr hsb hread, hsame]
    exact (hrew.keeps h.volume hn hne hu.1).2.1.2 hu
  · obtain ⟨hsame, hold, hne⟩ := hcases j hj.1
    rw [dinode_congr hsb hread, hsame, hrew.record _ (h.synced.used j hold).1 hne]
    exact h.synced.din j ⟨hold, hsame ▸ hj.2⟩
  · rw [(hcases j hj).1, (hcases k hk).1] at he
    exact h.synced.unique j k (hcases j hj).2.1 (hcases k hk).2.1 he

/-- The type of the last reference's inode is cleared after its blocks. -/
theorem Mounted.freeInode (h : Mounted s) (hi : s.Filled i) (href : (s.icache i).ref = 1) :
    Mounted (((s.freeInode i).iunlock i).dropRef i) := by
  have hst := h.volume.itrunc (h.loaded hi)
  have hstores := hst.1
  have ht := h.stores hi hstores hst.2
  unfold FileSys.freeInode
  dsimp only
  generalize s.itrunc i = t at hst hstores ht ⊢
  obtain ⟨-, ⟨d, hic⟩, -⟩ := hstores
  have hself : t.icache i = { s.icache i with din := d } := by rw [hic, update_self]
  have hfilled : t.Filled i := by
    unfold FileSys.Filled FileSys.Held
    rw [hself]
    exact hi
  obtain ⟨-, hmajor, hminor, hnlink, hsize, haddrs, htail⟩ := (ht.loaded hfilled).fits
  have hp : Pending t (t.setDin i { (t.icache i).din with type := 0 }) i (t.icache i).inum :=
    (ht.loaded hfilled).relabel ht.volume ⟨Nat.two_pow_pos 16, hmajor, hminor, hnlink, hsize, haddrs, htail⟩ rfl rfl
  obtain ⟨hrew, -⟩ := hp.rewrites ht.volume (ht.synced.used i hfilled.1).1
  generalize hu : (t.setDin i { (t.icache i).din with type := 0 }).iupdate i = u at hrew ⊢
  have huc : u.icache = Function.update t.icache i
      { t.icache i with din := { (t.icache i).din with type := 0 } } := by
    rw [← hu]
    rfl
  generalize hv : u.setInode i { u.icache i with valid := false } = v
  have hvi : (v.icache i).ref = 1 := by
    rw [← hv, setInode_icache_self]
    rw [huc, update_self]
    rw [hself]
    exact href
  have hlock : (v.iunlock i).sb = v.sb ∧ (v.iunlock i).disk = v.disk ∧ (v.iunlock i).buf = v.buf ∧
      ((v.iunlock i).icache i).ref = (v.icache i).ref ∧ ∀ j, j ≠ i → (v.iunlock i).icache j = v.icache j := by
    unfold FileSys.iunlock
    split
    · exact ⟨rfl, rfl, rfl, rfl, fun _ _ => rfl⟩
    · refine ⟨rfl, rfl, rfl, ?_, fun j hj => setInode_icache_of_ne _ hj⟩
      rw [setLocked, setInode_icache_self]
  obtain ⟨hsb, hdisk, hbuf, hlref, hlother⟩ := hlock
  refine ht.forget hfilled.1 hrew (hsb.trans (by rw [← hv]; rfl)) (hdisk.trans (by rw [← hv]; rfl))
    (hbuf.trans (by rw [← hv]; rfl)) (fun j hj => ?_) ?_
  · rw [FileSys.dropRef, setInode_icache_of_ne _ hj, hlother j hj, ← hv, setInode_icache_of_ne _ hj, huc,
      update_of_ne hj]
  unfold FileSys.Held
  rw [FileSys.dropRef, setInode_icache_self]
  show ¬ 0 < ((v.iunlock i).icache i).ref - 1
  rw [hlref, hvi]
  decide

/-- And so does the last `iput`, which frees the inode. -/
theorem Mounted.iput (h : Mounted s) (hret : Fs.iput i s = .ok ((), s')) : Mounted s' := by
  unfold Fs.iput at hret
  rw [Exec.bind_ok (b := s.icache i) rfl] at hret
  split at hret
  · rename_i hlast
    obtain ⟨_, s1, hlock, hret⟩ := Exec.bind_inv hret
    have h1 := h.ilock hlock
    have hsame : (s1.icache i).ref = 1 ∧ (s1.icache i).valid = true := by
      unfold Fs.ilock at hlock
      rw [Exec.bind_ok (b := s.icache i) rfl, if_neg (by omega)] at hlock
      split at hlock
      · cases hlock
      cases hlock
      show (((s.setLocked i true).load i).icache i).ref = 1 ∧ (((s.setLocked i true).load i).icache i).valid = true
      have hentry : (s.setLocked i true).icache i = { s.icache i with locked := true } := by
        rw [setLocked, setInode_icache_self]
      unfold load
      rw [hentry, if_pos hlast.2.1, hentry]
      exact ⟨hlast.1, hlast.2.1⟩
    cases hret
    exact h1.freeInode ⟨by unfold FileSys.Held; omega, hsame.2⟩ hsame.1
  · cases hret
    exact h.dropRef

/-- A new inode. -/
theorem Mounted.ialloc (h : Mounted s) (hpos : 0 < type) (hlt : type < 65536) : Mounted (s.ialloc 0 type).2 := by
  unfold FileSys.ialloc
  split
  · exact h
  rename_i n hfind
  have hn := List.mem_range.1 (List.mem_of_find?_eq_some hfind)
  have hprop := List.find?_some hfind
  simp only [Bool.and_eq_true, decide_eq_true_eq, beq_iff_eq] at hprop
  have hfree : ¬ s.InUse n := fun hu => (inUse_iff.1 hu).2 hprop.2
  -- the record is written as if entry 0 were about the inode
  generalize ht : s.setInode 0 { s.icache 0 with inum := n, din := newDinode type } = t
  have hentry : t.icache 0 = { s.icache 0 with inum := n, din := newDinode type } := by
    rw [← ht, setInode_icache_self]
  have hsb : t.sb = s.sb := by rw [← ht]; rfl
  obtain ⟨hblocks, -⟩ := @blocks_blank t.bread (newDinode type) fun _ _ => rfl
  have hnone : ∀ b, b ∉ (newDinode type).blocks t.bread := fun b => by
    exact Multiset.notMem_zero b
  have hp : Pending s t 0 n := by
    refine ⟨hsb, by rw [hentry], fun c hc => ?_, ?_, fun x _ hu _ => ?_, fun c _ _ _ => ?_, fun _ => ?_, fun _ b hb => ?_⟩
    · rw [← ht]
      exact h.volume.clean c ((isBitmap_congr hsb c).1 hc)
    · rw [hentry]
      exact ⟨hlt, Nat.two_pow_pos 16, Nat.two_pow_pos 16, Nat.two_pow_pos 16, Nat.two_pow_pos 32,
        fun _ => Nat.two_pow_pos 32, fun _ _ => rfl⟩
    · rw [← ht]
      exact hu
    · rw [← ht]
      exact ⟨rfl, rfl⟩
    · rw [hentry]
      exact ⟨Nat.zero_le _, fun bn hbn => absurd hbn (Nat.not_lt_zero _), by rw [hblocks]; exact Multiset.nodup_zero,
        fun b hb => absurd hb (hnone b)⟩
    · rw [hentry] at hb
      exact absurd hb (hnone b)
  obtain ⟨hrew, hrec, -⟩ := hp.rewrites h.volume hn
  generalize hs1 : s.bwrite (s.iblock n) (putDinode (s.bread (s.iblock n)) (inodeOff n)
    (newDinode type)) = s1
  have hsame : s1.sb = (t.iupdate 0).sb ∧ s1.disk = (t.iupdate 0).disk ∧ s1.buf = (t.iupdate 0).buf := by
    unfold iupdate
    rw [hentry, ← hs1, ← ht]
    exact ⟨rfl, rfl, rfl⟩
  obtain ⟨hsb1, hdisk1, hbuf1⟩ := hsame
  have hread1 : s1.bread = (t.iupdate 0).bread := by
    unfold bread
    rw [hdisk1, hbuf1]
  have hic : s1.icache = s.icache := by rw [← hs1]; rfl
  have hheld : ∀ j, s1.Held j ↔ s.Held j := fun j => by
    unfold FileSys.Held
    rw [hic]
  have hne : ∀ j, s.Held j → (s.icache j).inum ≠ n := fun j hj he => hfree (he ▸ h.synced.used j hj)
  have h1 : Mounted s1 := by
    refine ⟨(hrew.volume h.volume hn).congr hsb1 hdisk1 hbuf1, fun j hj => h.synced.lt j ((hheld j).1 hj),
      fun j hj => ?_, fun j hj => ?_, fun j hj => ?_, fun j k hj hk he => ?_⟩
    · rw [hic]
      exact h.synced.dev j ((hheld j).1 hj)
    · have hu := h.synced.used j ((hheld j).1 hj)
      rw [inUse_congr hsb1 hread1, hic]
      exact (hrew.keeps h.volume hn (hne j ((hheld j).1 hj)) hu.1).2.1.2 hu
    · have hold := (hheld j).1 hj.1
      rw [dinode_congr hsb1 hread1, hic, hrew.record _ (h.synced.used j hold).1 (hne j hold)]
      exact h.synced.din j ⟨hold, hic ▸ hj.2⟩
    · rw [hic] at he
      exact h.synced.unique j k ((hheld j).1 hj) ((hheld k).1 hk) he
  refine h1.iget (inUse_iff.2 ⟨by rw [hsb1, hrew.sb]; exact hn, ?_⟩)
  rw [dinode_congr hsb1 hread1, hrec, hentry]
  exact Nat.ne_of_gt hpos

theorem Mounted.iupdate (h : Mounted s) (hi : s.Filled i) {d : Dinode} (hfits : d.Fits)
    (htype : d.type = (s.icache i).din.type) (hsize : d.size = (s.icache i).din.size)
    (haddrs : d.addrs = (s.icache i).din.addrs) : Mounted ((s.setDin i d).iupdate i) := by
  have hl := h.loaded hi
  obtain ⟨hst, huse⟩ := (hl.relabel h.volume hfits haddrs hsize).stores hl h.volume ⟨d, rfl⟩
  refine h.stores hi hst (huse ?_)
  rw [setDin, setInode_icache_self]
  rw [htype]
  exact hl.type

/-- The file behind a filled slot has its blocks. -/
theorem Mounted.file (h : Mounted s) (hi : s.Filled i) :
    (s.icache i).din.size ≤ maxBytes ∧ (s.icache i).din.Solid s.bread := by
  obtain ⟨hsize, hsolid, -⟩ := h.volume.sound _ (h.synced.used i hi.1)
  rw [← h.synced.din i hi] at hsize hsolid
  exact ⟨hsize, hsolid⟩

/-- A write. -/
theorem Mounted.writei (h : Mounted s) (hi : s.Filled i) (hoff : off < uintMod) (hsrc : src.length < uintMod) :
    Mounted (s.writei i src off).2 := by
  by_cases hin : off ≤ (s.icache i).din.size ∧ off + src.length ≤ maxBytes
  · obtain ⟨tot, s', hrun, -, -, hst, -, huse⟩ := h.volume.writei (h.loaded hi) hin.1 hin.2
    rw [hrun]
    exact h.stores hi hst huse
  have hnone : (s.writei i src off).2 = s := by
    unfold FileSys.writei
    split
    · rfl
    rename_i hguard
    have hsum : (off + src.length) % uintMod = off + src.length := by
      unfold uintMod at hoff hsrc hguard ⊢
      omega
    rw [hsum, if_pos]
    unfold maxBytes at hin
    omega
  rw [hnone]
  exact h

end

/-! ## Buffers -/

section

variable {s : FileSys} {b c n : Nat}

/-- What is read as it is on disk does not depend on its buffer. -/
theorem bread_recycle (h : s.bread b = s.disk b) : (s.recycle c).bread b = s.bread b := by
  show (update s.buf c none b).getD (s.disk b) = _
  by_cases hb : b = c
  · rw [hb, update_self, ← hb]
    exact h.symm
  · rw [update_of_ne hb]
    rfl

/-- An unused slot is taken for another inode. -/
theorem Mounted.recycle (h : Mounted s) : Mounted (s.recycle c) := by
  have htable : ∀ m < s.sb.ninodes, (s.recycle c).dinode m = s.dinode m := fun m hm => by
    show getDinode ((s.recycle c).bread (s.iblock m)) (inodeOff m) = _
    rw [bread_recycle (h.volume.table _ ⟨m, hm, rfl⟩).2]
    rfl
  have huse : ∀ m, (s.recycle c).InUse m ↔ s.InUse m := fun m => by
    rw [inUse_iff, inUse_iff]
    exact and_congr_right fun hm => by rw [htable m hm]
  have hused : ∀ x < s.sb.size, (s.recycle c).used x = s.used x := fun x hx => by
    refine used_congr rfl (fun b hb => bread_recycle ?_) hx
    rw [bread, h.volume.clean b hb]
    rfl
  have hread : ∀ m, s.InUse m → ∀ b ∈ (s.dinode m).blocks s.bread, (s.recycle c).bread b = s.bread b :=
    fun m hu b hb => bread_recycle ((h.volume.sound m hu).block b hb).2.2.2
  have hblocks : ∀ m, s.InUse m → ((s.recycle c).dinode m).blocks (s.recycle c).bread =
      (s.dinode m).blocks s.bread := fun m hu => by
    rw [htable m hu.1]
    exact blocks_frame (hread m hu)
  have howns : ∀ m b, (s.recycle c).Owns m b ↔ s.Owns m b := fun m b => by
    constructor
    · rintro ⟨hu, hb⟩
      have hu := (huse m).1 hu
      exact ⟨hu, hblocks m hu ▸ hb⟩
    · rintro ⟨hu, hb⟩
      exact ⟨(huse m).2 hu, (hblocks m hu).symm ▸ hb⟩
  refine ⟨⟨h.volume.wf, fun b hb => ?_, h.volume.place, fun b hb => ?_, fun b hb hres => ?_, fun m hu => ?_,
    fun m b hb => h.volume.outside m b ((howns m b).1 hb),
    fun m m' b hne hb hb' => h.volume.apart m m' b hne ((howns m b).1 hb) ((howns m' b).1 hb')⟩,
    ⟨h.synced.lt, h.synced.dev, fun j hj => (huse _).2 (h.synced.used j hj), fun j hj => ?_, h.synced.unique⟩⟩
  · unfold FileSys.recycle
    by_cases hbc : b = c
    · rw [hbc]
      exact update_self ..
    · exact (update_of_ne hbc ..).trans (h.volume.clean b hb)
  · obtain ⟨hbit, hd⟩ := h.volume.table b hb
    exact ⟨hbit, (bread_recycle hd).trans hd⟩
  · rw [hused b hb]
    exact h.volume.reserved b hb hres
  · have hu := (huse m).1 hu
    obtain ⟨hsize, hsolid, hnd, hblock⟩ := h.volume.sound m hu
    rw [htable m hu.1]
    refine ⟨hsize, (contents_congr hsize (hread m hu)).2 hsolid, by rw [blocks_frame (hread m hu)]; exact hnd,
      fun b hb => ?_⟩
    rw [blocks_frame (hread m hu)] at hb
    obtain ⟨hlt, hmark, hbit, hd⟩ := hblock b hb
    exact ⟨hlt, by rw [hused b hlt]; exact hmark, hbit, (bread_recycle hd).trans hd⟩
  · show (s.icache j).din = _
    rw [h.synced.din j hj]
    exact (htable _ (h.synced.used j hj.1).1).symm

end

/-! ## Whole runs -/

theorem Mounted.step {s s' : FileSys} (h : Mounted s) (hs : Step TruncFits s s') : Mounted s' := by
  cases hs with
  | iget n hn => exact h.iget hn
  | idup i hi => exact h.idup hi
  | ilock i hret => exact h.ilock hret
  | iunlock i => exact h.iunlock
  | iput i hi hret => exact h.iput hret
  | ialloc type hpos hlt => exact h.ialloc hpos hlt
  | iupdate i hi d hfits htype hsize haddrs => exact h.iupdate hi hfits htype hsize haddrs
  | readi i hi off n hn =>
    obtain ⟨hsize, hsolid⟩ := h.file hi
    rw [readi_contents hsolid hsize hn]
    exact h
  | writei i hi src off hoff hsrc => exact h.writei hi hoff hsrc
  | itrunc i hi =>
    obtain ⟨hst, huse⟩ := h.volume.itrunc (h.loaded hi)
    exact h.stores hi hst huse
  | itruncTo i hi len hok =>
    obtain ⟨hst, huse⟩ := h.volume.itruncTo (h.loaded hi) hok
    exact h.stores hi hst huse
  | recycle c => exact h.recycle

theorem Mounted.run {s s' : FileSys} (h : Mounted s) (hrun : Relation.ReflTransGen (Step TruncFits) s s') :
    Mounted s' := by
  induction hrun with
  | refl => exact h
  | tail _ hs ih => exact ih.step hs

end Slopix.Fs
