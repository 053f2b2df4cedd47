import Slopix.Fs.Shrink
import Slopix.Fs.Volume

/-!
# Giving blocks back

`fs_itrunc` and `fs_itrunc_to` on a volume: the blocks that are freed belong to the file, so other files
stay, and what is left of the file is sound. For `fs_itrunc_to` that needs `RootFits`: no entry of the
first-level block of the double-indirect tree has to go while the block stays.
-/

namespace Slopix.Fs

open Lib Function List FileSys

/-! ## Records without a change of blocks -/

section

variable {s : FileSys} {i n : Nat} {d : Dinode}

theorem Loaded.relabel (hl : Loaded s i n) (h : Volume s) (hfits : d.Fits) (haddrs : d.addrs = (s.icache i).din.addrs)
    (hsize : d.size = (s.icache i).din.size) : Pending s (s.setDin i d) i n := by
  have hdin : ((s.setDin i d).icache i).din = d := by rw [setDin, setInode_icache_self]
  have hinum : ((s.setDin i d).icache i).inum = n := by
    rw [setDin, setInode_icache_self, ← hl.inum]
  obtain ⟨hblocks, hblock⟩ := @blocks_addrs s.bread _ _ haddrs
  rw [hl.din] at hblocks hblock hsize
  refine ⟨rfl, hinum, h.clean, by rw [hdin]; exact hfits, fun _ _ hu _ => hu, fun _ _ _ _ => ⟨rfl, rfl⟩, fun _ => ?_,
    fun _ b hb => ?_⟩
  · rw [hdin]
    obtain ⟨hmax, hsolid, hnd, hin⟩ := h.sound n hl.used
    refine ⟨by rw [hsize]; exact hmax, fun bn hbn => ?_, ?_, fun b hb => ?_⟩
    · rw [hsize] at hbn
      exact (hblock bn).symm ▸ hsolid bn hbn
    · exact hblocks.symm ▸ hnd
    · exact hin b (hblocks ▸ hb)
  · rw [hdin] at hb
    exact .inl ⟨hl.used, hblocks ▸ hb⟩

end

/-! ## fs_itrunc -/

/-- Blocks of the file of entry `i` have been freed, and nothing else. -/
def Frees (s t : FileSys) (i : Nat) (A : Nat → Nat) : Prop :=
  ∃ F, At s t i (fun _ => False) F A ∧ ∀ x, F x → x ∈ s.owned i

section

variable {s t : FileSys} {i k c : Nat} {A : Nat → Nat}

theorem Frees.bfree (h : Frees s t i A) (hs : Sole s i) (hc : c ∈ s.owned i) : Frees s (t.bfree c) i A := by
  obtain ⟨F, hat, hF⟩ := h
  refine ⟨_, hat.bfree hs.wf (hs.block c hc).1, fun x hx => ?_⟩
  rcases hx with hx | rfl
  · exact hF x hx
  · exact hc

theorem Frees.clearAddr (h : Frees s t i A) (k : Nat) : Frees s (t.clearAddr i k) i (update A k 0) := by
  obtain ⟨F, hat, hF⟩ := h
  exact ⟨F, hat.clearAddr k, hF⟩

theorem Frees.entry (h : Frees s t i A) (hs : Sole s i) (hc : c ∈ s.owned i) (j : Nat) :
    t.entry c j = s.entry c j := by
  obtain ⟨F, hat, -⟩ := h
  unfold FileSys.entry
  rw [bread_of_same (hat.cut.same c (hs.block c hc).2.2.1 id)]

/-- An index block and all that its entries name is freed. -/
theorem Frees.freeEntries (h : Frees s t i A) (hs : Sole s i) (hidx : IsIndex s.bread (s.icache i).din c)
    {l : List Nat} (hl : ∀ j ∈ l, j < 256) : Frees s (t.freeEntries c l) i A := by
  unfold FileSys.freeEntries
  induction l generalizing t with
  | nil => exact h
  | cons j l ih =>
    rw [foldl_cons]
    refine ih ?_ fun k hk => hl k (mem_cons_of_mem j hk)
    rw [h.entry hs hidx.mem]
    by_cases h0 : s.entry c j = 0
    · rw [if_neg (not_not.2 h0)]
      exact h
    · rw [if_pos h0]
      exact h.bfree hs (hidx.entry_mem (hl j mem_cons_self) h0)

theorem Frees.truncAddrs (hs : Sole s i) :
    Frees s ((List.range 11).foldl (fun s k => s.truncAddr i k) s) i
      (fun k => if k ∈ List.range 11 then 0 else (s.icache i).din.addrs k) := by
  have hmem : ∀ k ∈ List.range 11, (s.icache i).din.addrs k ≠ 0 → (s.icache i).din.addrs k ∈ s.owned i :=
    fun k hk hne => addr_mem (by have := mem_range.1 hk; omega) hne
  refine ⟨_, (At.start s i).truncAddrs hs.wf nodup_range fun k hk hne => (hs.block _ (hmem k hk hne)).1, ?_⟩
  rintro x (hf | ⟨k, hk, rfl, hne⟩)
  · exact hf.elim
  · exact hmem k hk hne

theorem Frees.indirect (h : Frees s t i A) (hs : Sole s i) (hA : A 11 = (s.icache i).din.addrs 11) :
    Frees s (t.itruncIndirect i) i (update A 11 0) := by
  have haddr : (t.icache i).din.addrs 11 = (s.icache i).din.addrs 11 := by
    obtain ⟨F, hat, -⟩ := h
    rw [hat.addrs, hA]
  unfold itruncIndirect
  rw [haddr]
  by_cases h0 : (s.icache i).din.addrs 11 = 0
  · rw [if_neg (not_not.2 h0), update_eq_self_iff.2 (hA.trans h0).symm]
    exact h
  · rw [if_pos h0]
    have hidx : IsIndex s.bread (s.icache i).din ((s.icache i).din.addrs 11) := ⟨h0, .inl rfl⟩
    exact ((h.freeEntries hs hidx fun j hj => mem_range.1 hj).bfree hs hidx.mem).clearAddr 11

/-- The doubly indirect block with its two levels is freed. -/
theorem Frees.double (h : Frees s t i A) (hs : Sole s i) (hA : A 12 = (s.icache i).din.addrs 12) :
    Frees s (t.itruncDouble i) i (update A 12 0) := by
  have haddr : (t.icache i).din.addrs 12 = (s.icache i).din.addrs 12 := by
    obtain ⟨F, hat, -⟩ := h
    rw [hat.addrs, hA]
  unfold itruncDouble
  rw [haddr]
  by_cases h0 : (s.icache i).din.addrs 12 = 0
  · rw [if_neg (not_not.2 h0), update_eq_self_iff.2 (hA.trans h0).symm]
    exact h
  rw [if_pos h0]
  have hidx : IsIndex s.bread (s.icache i).din ((s.icache i).din.addrs 12) := ⟨h0, .inr ⟨h0, .inl rfl⟩⟩
  refine Frees.clearAddr (Frees.bfree ?_ hs hidx.mem) 12
  -- the inner index blocks, one after the other
  have hall : ∀ l : List Nat, (∀ j ∈ l, j < 256) → ∀ {t : FileSys}, Frees s t i A →
      Frees s (l.foldl (fun s' j => if s'.entry ((s.icache i).din.addrs 12) j ≠ 0 then
        (s'.freeEntries (s'.entry ((s.icache i).din.addrs 12) j) (List.range 256)).bfree
          (s'.entry ((s.icache i).din.addrs 12) j) else s') t) i A := by
    intro l
    induction l with
    | nil => exact fun _ _ ht => ht
    | cons j l ih =>
      intro hl t ht
      rw [foldl_cons]
      refine ih (fun k hk => hl k (mem_cons_of_mem j hk)) ?_
      rw [ht.entry hs hidx.mem]
      by_cases hj : s.entry ((s.icache i).din.addrs 12) j = 0
      · rw [if_neg (not_not.2 hj)]
        exact ht
      rw [if_pos hj]
      have hinner : IsIndex s.bread (s.icache i).din (s.entry ((s.icache i).din.addrs 12) j) :=
        ⟨hj, .inr ⟨h0, .inr ⟨j, hl j mem_cons_self, rfl⟩⟩⟩
      exact (ht.freeEntries hs hinner fun k hk => mem_range.1 hk).bfree hs hinner.mem
  exact hall _ (fun j hj => mem_range.1 hj) h

theorem frees_itrunc (hs : Sole s i) : ∃ t A, s.itrunc i = (t.setSize i 0).iupdate i ∧ Frees s t i A ∧
    ∀ k, A k = if k < 13 then 0 else (s.icache i).din.addrs k := by
  refine ⟨_, _, rfl, ((Frees.truncAddrs hs).indirect hs rfl).double hs rfl, fun k => ?_⟩
  by_cases h12 : k = 12
  · rw [h12, update_self, if_pos (by decide)]
  rw [update_of_ne h12]
  by_cases h11 : k = 11
  · rw [h11, update_self, if_pos (by decide)]
  rw [update_of_ne h11]
  simp only [mem_range]
  by_cases hk : k < 11
  · rw [if_pos hk, if_pos (by omega)]
  · rw [if_neg hk, if_neg (by omega)]

end

/-! ## Truncation of a volume -/

section

variable {s s1 t : FileSys} {i n len N : Nat} {T T' F F' : Nat → Prop} {A A' : Nat → Nat}

theorem At.trans (h : At s s1 i T F A) (h' : At s1 t i T' F' A') :
    At s t i (fun c => T c ∨ T' c) (fun x => F x ∨ F' x) A' := by
  refine ⟨h.cut.trans h'.cut, ?_⟩
  rw [h'.icache, h.icache, update_self, update_idem]

/-- Blocks of the file have been changed or freed, and what is left is sound. -/
theorem At.pending (hat : At s t i T F A) (hl : Loaded s i n) (h : Volume s) (hT : ∀ c, T c → c ∈ s.owned i)
    (hF : ∀ x, F x → x ∈ s.owned i) (hfits : Dinode.Fits { (s.icache i).din with size := len, addrs := A })
    (hsound : Sound t { (s.icache i).din with size := len, addrs := A })
    (hsub : ∀ b ∈ Dinode.blocks t.bread { (s.icache i).din with size := len, addrs := A }, b ∈ s.owned i) :
    Pending s (t.setSize i len) i n ∧
      ((t.setSize i len).icache i).din = { (s.icache i).din with size := len, addrs := A } ∧
      ∃ d, (t.setSize i len).icache = update s.icache i { s.icache i with din := d } := by
  have hdin : ((t.setSize i len).icache i).din = { (s.icache i).din with size := len, addrs := A } := by
    rw [setSize, setDin, setInode_icache_self, hat.din]
  have hinum : ((t.setSize i len).icache i).inum = n := by
    rw [setSize, setDin, setInode_icache_self, hat.icache, update_self, ← hl.inum]
  have hown : ∀ b, b ∈ s.owned i ↔ s.Owns n b := fun b => by
    rw [hl.owned]
    exact ⟨fun hb => ⟨hl.used, hb⟩, fun hb => hb.2⟩
  refine ⟨⟨hat.cut.sb, hinum, hat.cut.clean h.clean, by rw [hdin]; exact hfits, fun x hx hu hnot => ?_,
    fun c hc _ hnot => ?_, fun _ => ?_, fun _ b hb => ?_⟩, hdin, ?_⟩
  · exact (hat.cut.used x hx).2 ⟨hu, fun hf => hnot ((hown x).1 (hF x hf))⟩
  · exact hat.cut.same c hc fun ht => hnot ((hown c).1 (hT c ht))
  · rw [hdin]
    exact ⟨hsound.size, hsound.solid, hsound.nodup, hsound.block⟩
  · rw [hdin] at hb
    exact .inl ((hown b).1 (hsub b hb))
  · refine ⟨{ (t.icache i).din with size := len }, ?_⟩
    show update t.icache i { t.icache i with din := _ } = _
    rw [hat.icache, update_self, update_idem]

theorem Pending.stores (hp : Pending s t i n) (hl : Loaded s i n) (h : Volume s)
    (hic : ∃ d, t.icache = update s.icache i { s.icache i with din := d }) :
    Stores s (t.iupdate i) i n ∧ ((t.icache i).din.type ≠ 0 → (t.iupdate i).InUse n) := by
  obtain ⟨hrew, hrec, -⟩ := hp.rewrites h hl.used.1
  exact ⟨⟨hrew, hic, hrec.symm⟩, fun htype =>
    inUse_iff.2 ⟨by rw [hrew.sb]; exact hl.used.1, by rw [hrec]; exact htype⟩⟩

theorem Loaded.type (hl : Loaded s i n) : (s.icache i).din.type ≠ 0 := by
  rw [hl.din]
  exact (inUse_iff.1 hl.used).2

theorem Loaded.fits (hl : Loaded s i n) : (s.icache i).din.Fits := by
  rw [hl.din]
  exact getDinode_fits

/-- Truncation frees the blocks of the file and leaves all other files alone. -/
theorem Volume.itrunc (h : Volume s) (hl : Loaded s i n) :
    Stores s (s.itrunc i) i n ∧ (s.itrunc i).InUse n := by
  obtain ⟨t, A, hstate, ⟨F, hat, hF⟩, haddrs⟩ := frees_itrunc (h.sole hl)
  obtain ⟨htype, hmajor, hminor, hnlink, -, -, htail⟩ := hl.fits
  have hA : ∀ k, A k = 0 := by
    intro k
    rw [haddrs]
    by_cases hk : k < 13
    · rw [if_pos hk]
    · rw [if_neg hk, htail k (Nat.le_of_not_lt hk)]
  have hfits : Dinode.Fits { (s.icache i).din with size := 0, addrs := A } := by
    refine ⟨htype, hmajor, hminor, hnlink, Nat.two_pow_pos 32, fun k => ?_, fun k _ => hA k⟩
    show A k < uintMod
    rw [hA]
    decide
  obtain ⟨hblocks, -⟩ := @blocks_blank t.bread { (s.icache i).din with size := 0, addrs := A } fun k _ => hA k
  have hnone : ∀ b, b ∉ Dinode.blocks t.bread { (s.icache i).din with size := 0, addrs := A } := fun b => by
    rw [hblocks]
    exact Multiset.notMem_zero b
  obtain ⟨hp, hdin, hic⟩ := hat.pending hl h (fun _ hf => hf.elim) hF hfits
    ⟨Nat.zero_le _, fun bn hbn => absurd hbn (Nat.not_lt_zero _), by rw [hblocks]; exact Multiset.nodup_zero,
      fun b hb => absurd hb (hnone b)⟩ fun b hb => absurd hb (hnone b)
  rw [hstate]
  obtain ⟨hstores, huse⟩ := hp.stores hl h hic
  exact ⟨hstores, huse (by rw [hdin]; exact hl.type)⟩

theorem Stores.refl (h : Volume s) (hl : Loaded s i n) : Stores s s i n :=
  ⟨⟨rfl, h.clean, fun _ _ hu _ => hu, fun _ _ _ _ _ => ⟨rfl, rfl⟩, (h.table _ ⟨n, hl.used.1, rfl⟩).2,
    fun _ _ _ => rfl, h.sound n, fun _ hb => .inl hb⟩, ⟨_, (update_eq_self i s.icache).symm⟩, hl.din⟩

/-! ## fs_itrunc_to -/

/-- The file of a loaded inode as `fs_itrunc_to` finds it. -/
theorem Volume.placed (h : Volume s) (hl : Loaded s i n) :
    Placed s i ∧ (s.icache i).din.blocks s.disk = s.owned i := by
  obtain ⟨hsize, hsolid, hnd, hblock⟩ := h.sound n hl.used
  rw [← hl.din] at hsize hsolid hnd hblock
  have hdisk : ∀ c ∈ (s.icache i).din.blocks s.bread, s.disk c = s.bread c := fun c hc => (hblock c hc).2.2.2.symm
  have hblocks : (s.icache i).din.blocks s.disk = (s.icache i).din.blocks s.bread := blocks_frame hdisk
  have hib : s.iblock (s.icache i).inum = s.iblock n := by rw [hl.inum]
  refine ⟨⟨h.wf, hl.fits, hsize, ((contents_congr hsize hdisk).2 hsolid).noHoles hsize, by rw [hblocks]; exact hnd,
    fun b hb => ?_, ?_, h.clean⟩, hblocks⟩
  · rw [hblocks] at hb
    obtain ⟨hlt, hused, hbit, hread⟩ := hblock b hb
    refine ⟨hlt, hused, hbit, hread, ?_⟩
    rintro rfl
    rw [hib, hl.din] at hb
    exact h.outside n _ ⟨hl.used, hb⟩ ⟨n, hl.used.1, rfl⟩
  · rw [hib]
    exact (h.table _ ⟨n, hl.used.1, rfl⟩).1

/-- Zeroing the rest of the last block changes a block of the file at most. -/
theorem Placed.zeroTail_at (h : Placed s i) (last part : Nat) :
    ∃ T, At s (s.zeroTail i last part) i T (fun _ => False) (s.icache i).din.addrs ∧
      ∀ c, T c → c ∈ (s.icache i).din.blocks s.disk := by
  unfold FileSys.zeroTail
  by_cases hdo : part ≠ 0 ∧ last < 11 ∧ (s.icache i).din.addrs last ≠ 0
  · have hmem := @addr_mem s.disk _ last (by omega) hdo.2.2
    rw [if_pos hdo]
    refine ⟨_, (At.start s i).bwrite (h.block _ hmem).2.2.1 _, ?_⟩
    rintro c (hf | rfl)
    · exact hf.elim
    · exact hmem
  · rw [if_neg hdo]
    exact ⟨_, At.start s i, fun _ hf => hf.elim⟩

/-- What a cut leaves of a file is sound when the first-level block fits. -/
theorem Placed.cut_sound (h : Placed s i) (h0 : 0 < len) (hlen : len < (s.icache i).din.size)
    (hfits : RootFits s.disk (s.icache i).din ((len - 1) / 1024 + 1)) :
    ∃ T A, At s (cutBlocks s i ((len - 1) / 1024 + 1)) i T
        (Beyond s.disk (s.icache i).din ((len - 1) / 1024 + 1)) A ∧
      (∀ c, T c → c ∈ (s.icache i).din.blocks s.disk) ∧
      (∀ k, A k = if (len - 1) / 1024 + 1 ≤ slotBase k then 0 else (s.icache i).din.addrs k) ∧
      Sound (cutBlocks s i ((len - 1) / 1024 + 1)) { (s.icache i).din with size := len, addrs := A } ∧
      ∀ b ∈ Dinode.blocks (cutBlocks s i ((len - 1) / 1024 + 1)).bread { (s.icache i).din with size := len, addrs := A },
        b ∈ (s.icache i).din.blocks s.disk := by
  obtain ⟨hmax, hsolid⟩ := h.cut_max h0 hlen
  obtain ⟨T, A, hat, hT, htree, hindex⟩ := h.cut hsolid
  generalize cutBlocks s i ((len - 1) / 1024 + 1) = u at hat htree hindex ⊢
  have htree' : CutTree s.disk u.disk (s.icache i).din { (s.icache i).din with size := len, addrs := A }
      ((len - 1) / 1024 + 1) := htree.congr rfl fun _ _ => rfl
  refine ⟨T, A, hat, fun c hc => (hT c hc).mem, htree.addrs, ?_⟩
  generalize hd : ({ (s.icache i).din with size := len, addrs := A } : Dinode) = d at htree' ⊢
  have hdsize : d.size = len := by rw [← hd]
  have hle := htree'.le hfits
  -- the blocks that stay
  have hstay : ∀ c ∈ d.blocks u.disk, Upto s.disk (s.icache i).din ((len - 1) / 1024 + 1) c := fun c hc =>
    htree'.upto hfits (mem_blocks_iff.1 hc)
  have hread : ∀ c ∈ d.blocks u.disk, u.bread c = u.disk c := by
    intro c hc
    by_cases hidx : IsIndex s.disk (s.icache i).din c
    · exact hindex hfits c hidx (hstay c hc)
    · obtain ⟨-, -, hbit, hsettled, -⟩ := h.block c (Multiset.mem_of_le hle hc)
      have hsame := hat.cut.same c hbit fun ht => hidx (hT c ht)
      rw [bread_of_same hsame, hsettled, hsame.1]
  have hblocks := blocks_frame hread
  have hsize : d.size ≤ maxBytes := by
    have hold := h.size
    omega
  have hholes : NoHoles u.disk d := by
    intro bn hbn
    rw [hdsize] at hbn
    have hlt : bn < (len - 1) / 1024 + 1 := (lt_cut_iff h0 bn).2 hbn
    rw [htree'.path hlt (Nat.lt_of_lt_of_le hlt hmax) (hsolid bn hlt)]
    exact hsolid bn hlt
  refine ⟨⟨hsize, ?_, ?_, fun b hb => ?_⟩, fun b hb => ?_⟩
  · exact (contents_congr hsize hread).2 (hholes.solid hsize)
  · rw [hblocks]
    exact Multiset.nodup_of_le hle h.nodup
  · rw [hblocks] at hb
    have hmem := Multiset.mem_of_le hle hb
    obtain ⟨hlt, hused, hbit, -⟩ := h.block b hmem
    refine ⟨by rw [hat.cut.sb]; exact hlt, (hat.cut.used b hlt).2 ⟨hused, ?_⟩, hat.bitmap hbit, hread b hb⟩
    rw [beyond_iff h.nodup hmem]
    exact not_not.2 (hstay b hb)
  · rw [hblocks] at hb
    exact Multiset.mem_of_le hle hb

/-- `fs_itrunc_to` keeps the volume when no entry of the first-level block has to go while the block stays. -/
theorem Volume.itruncTo (h : Volume s) (hl : Loaded s i n)
    (hroot : 0 < len → len < (s.icache i).din.size →
      RootFits s.disk (s.icache i).din ((len - 1) / 1024 + 1)) :
    Stores s (s.itruncTo i len) i n ∧ (s.itruncTo i len).InUse n := by
  by_cases hlen : (s.icache i).din.size ≤ len
  · have hstate : s.itruncTo i len = s := if_pos hlen
    rw [hstate]
    exact ⟨Stores.refl h hl, hl.used⟩
  by_cases h0 : len = 0
  · have hstate : s.itruncTo i len = s.itrunc i := by
      unfold FileSys.itruncTo
      rw [if_neg hlen, if_pos h0]
    rw [hstate]
    exact h.itrunc hl
  have hpos := Nat.pos_of_ne_zero h0
  have hlt := Nat.lt_of_not_le hlen
  obtain ⟨hold, howned⟩ := h.placed hl
  have hzero := hold.zeroTail hpos
  obtain ⟨T, hat, hT⟩ := hold.zeroTail_at ((len - 1) / 1024) (len % 1024)
  have hstate : s.itruncTo i len = ((cutBlocks (s.zeroTail i ((len - 1) / 1024) (len % 1024)) i
      ((len - 1) / 1024 + 1)).setSize i len).iupdate i := by
    unfold FileSys.itruncTo
    rw [if_neg hlen, if_neg h0]
    rfl
  rw [hstate]
  generalize s.zeroTail i ((len - 1) / 1024) (len % 1024) = s1 at hzero hat ⊢
  have hfits := (hzero.rootFits_iff hold hpos hlt).2 (hroot hpos hlt)
  obtain ⟨T', A, hcut, hT', haddrs, hsound, hsub⟩ := hzero.placed.cut_sound hpos
    (by rw [hzero.icache]; exact hlt) hfits
  rw [hzero.icache] at hsound hsub hT' haddrs
  rw [hzero.blocks, howned] at hsub hT'
  rw [howned] at hT
  have hfits' : Dinode.Fits { (s.icache i).din with size := len, addrs := A } := by
    obtain ⟨htype, hmajor, hminor, hnlink, hsize, hold, htail⟩ := hl.fits
    refine ⟨htype, hmajor, hminor, hnlink, Nat.lt_trans hlt hsize, fun k => ?_, fun k hk => ?_⟩
    · show A k < uintMod
      rw [haddrs]
      split
      · exact Nat.two_pow_pos 32
      · exact hold k
    · show A k = 0
      rw [haddrs, htail k hk, ite_self]
  have hfreed : ∀ x, False ∨ Beyond s1.disk (s1.icache i).din ((len - 1) / 1024 + 1) x → x ∈ s.owned i := by
    rintro x (hf | hx)
    · exact hf.elim
    · obtain ⟨sl, hsl, k, hk, j, hj, rfl, -⟩ := hx.node
      rw [← howned, ← hzero.blocks, ← hzero.icache]
      exact node_mem_blocks hsl hk hj hx.1
  obtain ⟨hp, hdin, hic⟩ := (hat.trans hcut).pending hl h (fun c hc => hc.elim (hT c) (hT' c)) hfreed
    hfits' hsound hsub
  obtain ⟨hstores, huse⟩ := hp.stores hl h hic
  exact ⟨hstores, huse (by rw [hdin]; exact hl.type)⟩

end

end Slopix.Fs
