import Slopix.Fs.FileTree
import Slopix.Fs.Freed

/-!
# Allocating blocks

`balloc` takes the first block that the bitmap does not mark used, and `fs_bmap` puts such blocks into a
file, in `addrs` or in an index block. `Sole` is what a file needs for that: its blocks are its own, and the
bitmap knows it. `Grew` is what happens to the rest of the file system: blocks of the file stay where they
are, new ones were free, and a block that was used and is not the file's is not touched.
-/

namespace Slopix.Fs

open Lib Function Multiset FileSys

namespace FileSys

/-- The blocks of the file of entry `i` of the inode cache. -/
def owned (s : FileSys) (i : Nat) : Multiset Nat := (s.icache i).din.blocks s.bread

/-- The block of file block `bn`, 0 for a hole. -/
def mapped (s : FileSys) (i bn : Nat) : Nat := (s.icache i).din.fileBlock s.bread bn

/-- Byte `k` of the file, when its block is there. -/
def byte (s : FileSys) (i k : Nat) : UInt8 := s.bread (s.mapped i (k / 1024)) (k % 1024)

/-- No block is free. -/
def Full (s : FileSys) : Prop := ∀ x < s.sb.size, s.used x = true

end FileSys

/-! ## The bitmap -/

section

variable {s : FileSys} {b x : Nat}

theorem setUsed_used (hwf : s.sb.Wf) (hb : b < s.sb.size) (hx : x < s.sb.size) (v : Bool) :
    (s.setUsed b v).used x = if x = b then v else s.used x := by
  have hblock : (s.setUsed b v).bblock x = s.bblock x := rfl
  unfold used
  rw [hblock, setUsed, bread_bwrite]
  by_cases hxb : x = b
  · subst hxb
    rw [if_pos rfl, if_pos rfl, update_self,
      testBit_setBit (Nat.mod_lt _ (by decide)) (Nat.mod_lt _ (by decide)), if_pos rfl]
  rw [if_neg hxb]
  by_cases hsame : s.bblock x = s.bblock b
  · rw [if_pos hsame, hsame]
    by_cases hbyte : x % 8192 / 8 = b % 8192 / 8
    · have hbit : x % 8 ≠ b % 8 := fun hbit => hxb (bit_place hwf hb hx hsame hbyte hbit)
      rw [hbyte, update_self, testBit_setBit (Nat.mod_lt _ (by decide)) (Nat.mod_lt _ (by decide)),
        if_neg hbit]
    · rw [update_of_ne hbyte]
  · rw [if_neg hsame]

end

/-- Block `v` was free; it has been marked used and filled with zeros. -/
structure Took (s s' : FileSys) (v : Nat) : Prop where
  sb : s'.sb = s.sb
  icache : s'.icache = s.icache
  lt : v < s.sb.size
  free : s.used v = false
  used : ∀ x < s.sb.size, s'.used x = true ↔ s.used x = true ∨ x = v
  same : ∀ c, ¬ s.IsBitmap c → c ≠ v → s'.disk c = s.disk c ∧ s'.buf c = s.buf c
  disk : s'.disk v = fun _ => 0
  buf : s'.buf v = none
  clean : s.BitmapClean → s'.BitmapClean

section

variable {s : FileSys}

/-- `balloc` returns 0 when every block is used; otherwise it takes a free one. -/
theorem balloc_spec (hwf : s.sb.Wf) (hreserved : ∀ c < s.sb.size, c = 0 ∨ s.IsBitmap c → s.used c = true) :
    (s.balloc = (0, s) ∧ s.Full) ∨ ∃ v, s.balloc.1 = v ∧ v ≠ 0 ∧ ¬ s.IsBitmap v ∧ Took s s.balloc.2 v := by
  unfold balloc
  cases hfind : (List.range s.sb.size).find? fun b => !s.used b with
  | none =>
    refine .inl ⟨rfl, fun x hx => ?_⟩
    simpa using List.find?_eq_none.1 hfind x (List.mem_range.2 hx)
  | some v =>
    right
    have hlt : v < s.sb.size := List.mem_range.1 (List.mem_of_find?_eq_some hfind)
    have hfree : s.used v = false := by simpa using List.find?_some hfind
    have hnot : ¬ (v = 0 ∨ s.IsBitmap v) := fun h => by
      rw [hreserved v hlt h] at hfree
      cases hfree
    have hbitmap : ¬ s.IsBitmap v := fun h => hnot (.inr h)
    have hzeroed := @bwrite_cut (s.setUsed v true) v hbitmap fun _ => 0
    refine ⟨v, rfl, fun h => hnot (.inl h), hbitmap, rfl, rfl, hlt, hfree, fun x hx => ?_, fun c hc hne => ?_,
      update_self .., update_self .., fun hclean => hzeroed.clean fun c hc => ?_⟩
    · have hmark := setUsed_used hwf hlt hx true
      rw [hzeroed.used x hx, hmark]
      by_cases hxv : x = v
      · simp [hxv]
      · simp [hxv]
    · have hne' : c ≠ s.bblock v := fun h => hc ⟨v, hlt, h.symm⟩
      obtain ⟨hd, hb⟩ := hzeroed.same c hc hne
      exact ⟨hd.trans (update_of_ne hne' ..), hb.trans (update_of_ne hne' ..)⟩
    by_cases hcv : c = s.bblock v
    · rw [hcv]
      exact update_self ..
    · exact (update_of_ne hcv ..).trans (hclean c hc)

theorem Took.bread {s' : FileSys} {v c : Nat} (h : Took s s' v) (hc : ¬ s.IsBitmap c) :
    s'.bread c = Function.update s.bread v (fun _ => 0) c := by
  unfold FileSys.bread
  by_cases hcv : c = v
  · rw [hcv, update_self, h.buf, h.disk]
    rfl
  · obtain ⟨hd, hb⟩ := h.same c hc hcv
    rw [update_of_ne hcv, hd, hb]

end

/-! ## A file with blocks of its own -/

/-- The blocks of the file of entry `i` are its own: each is there once, is marked used, lies outside the
bitmap and is on disk as it is read. -/
structure Sole (s : FileSys) (i : Nat) : Prop where
  wf : s.sb.Wf
  clean : s.BitmapClean
  reserved : ∀ c < s.sb.size, c = 0 ∨ s.IsBitmap c → s.used c = true
  nodup : (s.owned i).Nodup
  block : ∀ b ∈ s.owned i, b < s.sb.size ∧ s.used b = true ∧ ¬ s.IsBitmap b ∧ s.bread b = s.disk b

/-- The file of entry `i` has grown, and bytes in `W` may have changed. -/
structure Grew (s s' : FileSys) (i : Nat) (W : Nat → Prop) : Prop where
  sb : s'.sb = s.sb
  icache : ∃ A, s'.icache = Function.update s.icache i
    { s.icache i with din := { (s.icache i).din with addrs := A } }
  addrs : ∀ k, (s'.icache i).din.addrs k = (s.icache i).din.addrs k ∨
    k < 13 ∧ (s'.icache i).din.addrs k < s.sb.size
  used : ∀ x < s.sb.size, s.used x = true → s'.used x = true
  same : ∀ c, ¬ s.IsBitmap c → (c < s.sb.size → s.used c = true) → c ∉ s.owned i →
    s'.disk c = s.disk c ∧ s'.buf c = s.buf c
  fresh : ∀ b ∈ s'.owned i, b ∈ s.owned i ∨ b < s.sb.size ∧ s.used b = false
  there : ∀ bn < maxFile, s.mapped i bn ≠ 0 → s'.mapped i bn = s.mapped i bn
  data : ∀ k, k / 1024 < maxFile → s.mapped i (k / 1024) ≠ 0 → ¬ W k → s'.byte i k = s.byte i k

section

variable {s s' s'' : FileSys} {i : Nat} {W W' : Nat → Prop}

theorem Grew.refl (s : FileSys) (i : Nat) : Grew s s i fun _ => False where
  sb := rfl
  icache := ⟨(s.icache i).din.addrs, (update_eq_self ..).symm⟩
  addrs _ := .inl rfl
  used _ _ h := h
  same _ _ _ _ := ⟨rfl, rfl⟩
  fresh _ h := .inl h
  there _ _ _ := rfl
  data _ _ _ _ := rfl

theorem Grew.congr (h : Grew s s' i W) (hW : ∀ k, W k → W' k) : Grew s s' i W' :=
  ⟨h.sb, h.icache, h.addrs, h.used, h.same, h.fresh, h.there, fun k hk hne hn => h.data k hk hne fun hw => hn (hW k hw)⟩

/-- One growth after the other. -/
theorem Grew.trans (h : Grew s s' i W) (h' : Grew s' s'' i W') : Grew s s'' i fun k => W k ∨ W' k := by
  have hbitmap := fun c => isBitmap_congr h.sb c
  refine ⟨h'.sb.trans h.sb, ?_, fun k => ?_, fun x hx hu => ?_, fun c hc hu hnot => ?_, fun b hb => ?_,
    fun bn hbn hne => ?_, fun k hk hne hn => ?_⟩
  · obtain ⟨A, hA⟩ := h.icache
    obtain ⟨A', hA'⟩ := h'.icache
    refine ⟨A', ?_⟩
    rw [hA', hA, update_self, update_idem]
  · rcases h'.addrs k with heq | ⟨hk, hlt⟩
    · rw [heq]
      exact h.addrs k
    · exact .inr ⟨hk, by rw [← h.sb]; exact hlt⟩
  · exact h'.used x (by rw [h.sb]; exact hx) (h.used x hx hu)
  · obtain ⟨hd, hb⟩ := h.same c hc hu hnot
    have hused : c < s'.sb.size → s'.used c = true := fun hlt => by
      rw [h.sb] at hlt
      exact h.used c hlt (hu hlt)
    have hnot' : c ∉ s'.owned i := fun hin => by
      -- a block that the first step added was free
      rcases h.fresh c hin with hold | ⟨hlt, hfree⟩
      · exact hnot hold
      · rw [hu hlt] at hfree
        cases hfree
    obtain ⟨hd', hb'⟩ := h'.same c (fun hx => hc ((hbitmap c).1 hx)) hused hnot'
    exact ⟨hd'.trans hd, hb'.trans hb⟩
  · rcases h'.fresh b hb with hin | ⟨hlt, hfree⟩
    · exact h.fresh b hin
    rw [h.sb] at hlt
    refine .inr ⟨hlt, ?_⟩
    by_contra hu
    rw [h.used b hlt (by simpa using hu)] at hfree
    cases hfree
  · have hfirst := h.there bn hbn hne
    rw [h'.there bn hbn (by rw [hfirst]; exact hne), hfirst]
  · rw [not_or] at hn
    rw [h'.data k hk (by rw [h.there _ hk hne]; exact hne) hn.2, h.data k hk hne hn.1]

theorem Grew.din (h : Grew s s' i W) :
    (s'.icache i).din = { (s.icache i).din with addrs := (s'.icache i).din.addrs } ∧
      (s'.icache i).inum = (s.icache i).inum ∧ ∀ j, j ≠ i → s'.icache j = s.icache j := by
  obtain ⟨A, hA⟩ := h.icache
  refine ⟨?_, ?_, fun j hj => ?_⟩
  · rw [hA, update_self]
  · rw [hA, update_self]
  · rw [hA, update_of_ne hj]

theorem Grew.size (h : Grew s s' i W) : (s'.icache i).din.size = (s.icache i).din.size := by
  rw [h.din.1]

end

/-! ## One new block -/

section

variable {s s' t : FileSys} {i bn k v c : Nat} {d d' : Dinode} {rd rd' rd'' : Nat → Block}

/-- What has grown may be read otherwise where it has no index block. -/
theorem Grown.congr (h : Grown rd rd' d d' bn k v) (hbn : bn < maxFile)
    (hrd : ∀ c ∈ d'.inner rd', rd'' c = rd' c) : Grown rd rd'' d d' bn k v := by
  obtain ⟨hinner, hleaves, hblock⟩ := blocks_congr hrd
  have hslot := @tree_congr Block entryOf 256 rd' rd'' (slotHeight (slotOf bn)) (d'.addrs (slotOf bn))
    fun c hc j _ => by
      rw [hrd c (mem_of_le (le_sum_range (f := fun k =>
        innerBlocks entryOf 256 rd' (slotHeight k) (d'.addrs k)) (slotOf_lt bn)) hc)]
  exact ⟨hinner.trans h.inner, hleaves.trans h.leaves, (hslot.2.2 k _ (slotIndex_lt hbn)).trans h.node,
    fun bn' hbn' hne => (hblock bn' hbn').trans (h.other bn' hbn' hne), h.fields⟩

/-- The file has one block more. -/
theorem Grown.blocks (h : Grown rd rd' d d' bn k v) : d'.blocks rd' = {v} + d.blocks rd := by
  unfold Dinode.blocks
  rw [h.inner, h.leaves]
  split
  · rw [zero_add]
    abel
  · rw [zero_add, add_assoc]

theorem leaf_notMem_inner (hnd : (d.blocks rd).Nodup) (hbn : bn < maxFile) (hne : d.fileBlock rd bn ≠ 0) :
    d.fileBlock rd bn ∉ d.inner rd := fun hin =>
  disjoint_left.1 (nodup_add.1 hnd).2.2 hin (fileBlock_mem hbn hne)

/-- The step from `s` to `s'` has put block `v` into the file. Outside the bitmap it has changed nothing but
this block and an index block of the file. -/
structure Extended (s s' : FileSys) (i v : Nat) : Prop where
  sb : s'.sb = s.sb
  icache : ∃ A, s'.icache = Function.update s.icache i
    { s.icache i with din := { (s.icache i).din with addrs := A } }
  addrs : ∀ k, (s'.icache i).din.addrs k = (s.icache i).din.addrs k ∨
    k < 13 ∧ (s'.icache i).din.addrs k < s.sb.size
  lt : v < s.sb.size
  free : s.used v = false
  bitmap : ¬ s.IsBitmap v
  used : ∀ x < s.sb.size, s'.used x = true ↔ s.used x = true ∨ x = v
  settled : s'.bread v = s'.disk v
  same : ∀ c, ¬ s.IsBitmap c → c ≠ v → (s'.disk c = s.disk c ∧ s'.buf c = s.buf c) ∨
    s'.bread c = s'.disk c ∧ c ∈ (s.icache i).din.inner s.bread
  clean : s'.BitmapClean

/-- A new block in a tree that is the inode's alone. -/
theorem Extended.grew (h : Extended s s' i v) (hsole : Sole s i)
    (hg : Grown s.bread s'.bread (s.icache i).din (s'.icache i).din bn k v)
    (hhole : k = 0 → s.mapped i bn = 0) : Sole s' i ∧ Grew s s' i fun _ => False := by
  have hbitmap := fun c => isBitmap_congr h.sb c
  have hblocks : s'.owned i = {v} + s.owned i := hg.blocks
  have hnot : v ∉ s.owned i := fun hin => by
    have hused := (hsole.block v hin).2.1
    rw [h.free] at hused
    cases hused
  have hmem : ∀ b, b ∈ s'.owned i ↔ b = v ∨ b ∈ s.owned i := fun b => by
    rw [hblocks, mem_add, mem_singleton]
  have hmapped : ∀ bn' < maxFile, s.mapped i bn' ≠ 0 → s'.mapped i bn' = s.mapped i bn' := by
    intro bn' hbn' hne
    refine hg.other bn' hbn' fun hk heq => hne ?_
    rw [heq]
    exact hhole hk
  refine ⟨⟨h.sb ▸ hsole.wf, h.clean, fun c hc hres => ?_, ?_, fun b hb => ?_⟩,
    ⟨h.sb, h.icache, h.addrs, fun x hx hu => (h.used x hx).2 (.inl hu), fun c hc hu hin => ?_, fun b hb => ?_,
      hmapped, fun k hk hne _ => ?_⟩⟩
  · rw [h.sb] at hc
    exact (h.used c hc).2 (.inl (hsole.reserved c hc (hres.imp_right (hbitmap c).1)))
  · rw [hblocks]
    exact nodup_add.2 ⟨nodup_singleton v, hsole.nodup,
      disjoint_left.2 fun hb hin => hnot (mem_singleton.1 hb ▸ hin)⟩
  · -- the new block and the old ones
    rcases (hmem b).1 hb with rfl | hb
    · exact ⟨by rw [h.sb]; exact h.lt, (h.used b h.lt).2 (.inr rfl), fun hx => h.bitmap ((hbitmap b).1 hx),
        h.settled⟩
    obtain ⟨hlt, hu, hbit, hread⟩ := hsole.block b hb
    refine ⟨by rw [h.sb]; exact hlt, (h.used b hlt).2 (.inl hu), fun hx => hbit ((hbitmap b).1 hx), ?_⟩
    rcases h.same b hbit (fun e => hnot (e ▸ hb)) with ⟨hd, hf⟩ | ⟨hd, -⟩
    · unfold bread at hread ⊢
      rw [hd, hf, hread]
    · exact hd
  · have hne : c ≠ v := by
      rintro rfl
      have hfree := h.free
      rw [hu h.lt] at hfree
      cases hfree
    rcases h.same c hc hne with hsame | ⟨-, hinner⟩
    · exact hsame
    · exact absurd (mem_add.2 (.inl hinner)) hin
  · rcases (hmem b).1 hb with rfl | hb
    · exact .inr ⟨h.lt, h.free⟩
    · exact .inl hb
  have hleaf : s.mapped i (k / 1024) ∈ s.owned i := mem_add.2 (.inr (fileBlock_mem hk hne))
  have hbit := (hsole.block _ hleaf).2.2.1
  unfold byte
  rw [hmapped _ hk hne]
  rcases h.same _ hbit (fun e => hnot (e ▸ hleaf)) with ⟨hd, hf⟩ | ⟨-, hinner⟩
  · unfold bread
    rw [hd, hf]
  · exact absurd hinner (leaf_notMem_inner hsole.nodup hk hne)

end

/-! ## fs_bmap -/

/-- The block at height `k` on the way to file block `bn`. -/
def FileSys.way (s : FileSys) (i bn k : Nat) : Nat :=
  (s.icache i).din.node s.bread (slotOf bn) k (slotIndex bn)

/-- The way to file block `bn` has been built down to height `k`, where block `r` is; 0 says that no block
was free. -/
structure Lands (s s' : FileSys) (i bn k r : Nat) : Prop where
  sole : Sole s' i
  grew : Grew s s' i fun _ => False
  full : r = 0 → s'.Full
  way : r ≠ 0 → s'.way i bn k = r

section

variable {s s' s'' : FileSys} {i bn k k' r r' c : Nat}

theorem Lands.trans (h : Lands s s' i bn k r) (h' : Lands s' s'' i bn k' r') : Lands s s'' i bn k' r' :=
  ⟨h'.sole, (h.grew.trans h'.grew).congr fun _ hf => hf.elim id id, h'.full, h'.way⟩

theorem Lands.stay (h : Sole s i) (hway : s.way i bn k = r) (hne : r ≠ 0) : Lands s s i bn k r :=
  ⟨h, Grew.refl s i, fun h0 => absurd h0 hne, fun _ => hway⟩

theorem Lands.none (h : Sole s i) (hfull : s.Full) : Lands s s i bn k 0 :=
  ⟨h, Grew.refl s i, fun _ => hfull, fun h0 => absurd rfl h0⟩

theorem Sole.unowned (h : Sole s i) {v : Nat} (hfree : s.used v = false) : v ∉ s.owned i := fun hin => by
  rw [(h.block v hin).2.1] at hfree
  cases hfree

theorem Sole.inner (h : Sole s i) (hc : c ∈ (s.icache i).din.inner s.bread) : ¬ s.IsBitmap c :=
  (h.block c (mem_add.2 (.inl hc))).2.2.1

theorem Sole.inner_grown (h : Sole s i) {v x : Nat} {d : Dinode} {m : Nat → Block}
    (hg : Grown s.bread m (s.icache i).din d bn k v) (hbit : ¬ s.IsBitmap v) (hx : x ∈ d.inner m) :
    ¬ s.IsBitmap x := by
  rw [hg.inner, mem_add] at hx
  rcases hx with hx | hx
  · split at hx
    · exact absurd hx (notMem_zero x)
    · rwa [mem_singleton.1 hx]
  · exact h.inner hx

/-- The address of the inode that leads to block `bn`, with the block allocated if need be. -/
theorem bmapAddr_lands (h : Sole s i) (hbn : bn < maxFile) :
    Lands s (s.bmapAddr i (slotOf bn)).2 i bn (slotHeight (slotOf bn)) (s.bmapAddr i (slotOf bn)).1 := by
  unfold bmapAddr
  dsimp only
  by_cases h0 : (s.icache i).din.addrs (slotOf bn) = 0
  · rw [if_neg (not_not.2 h0)]
    rcases balloc_spec h.wf h.reserved with ⟨hnone, hfull⟩ | ⟨v, hv, hne, hbit, htook⟩
    · rw [hnone, if_pos rfl]
      exact Lands.none h hfull
    rw [hv, if_neg hne]
    generalize s.balloc.2 = t at htook
    rw [show (t.icache i).din = (s.icache i).din from by rw [htook.icache]]
    show Lands s (t.setDin i ((s.icache i).din.setAddr (slotOf bn) v)) i bn _ v
    generalize hs' : t.setDin i ((s.icache i).din.setAddr (slotOf bn) v) = s'
    have hic : s'.icache = update s.icache i
        { s.icache i with din := (s.icache i).din.setAddr (slotOf bn) v } := by
      rw [← hs', ← htook.icache]
      rfl
    have hdin : (s'.icache i).din = (s.icache i).din.setAddr (slotOf bn) v := by
      rw [hic, update_self]
    have hread : ∀ c, ¬ s.IsBitmap c → s'.bread c = update s.bread v (fun _ => 0) c := by
      intro c hc
      rw [← htook.bread hc, ← hs']
      rfl
    have hfresh : v ∉ s.owned i := h.unowned htook.free
    have hgrown := @grown_addr s.bread (update s.bread v fun _ => 0) (s.icache i).din bn v hbn h0 hne
      hfresh (fun _ m _ => by rw [update_self]; exact getLe_zero 4 (4 * m))
      fun x hx => update_of_ne hx ..
    have hg := hgrown.congr hbn fun c hc => hread c (h.inner_grown hgrown hbit hc)
    rw [← hdin] at hg
    have hext : Extended s s' i v := by
      rw [← hs']
      refine ⟨htook.sb, ⟨_, hs' ▸ hic⟩, fun k => ?_, htook.lt, htook.free, hbit, htook.used, ?_,
        fun c hc hcv => .inl (htook.same c hc hcv), htook.clean h.clean⟩
      · rw [hs', hdin]
        by_cases hk : k = slotOf bn
        · refine .inr ⟨hk ▸ slotOf_lt bn, ?_⟩
          rw [hk]
          exact lt_of_eq_of_lt (update_self ..) htook.lt
        · exact .inl (update_of_ne hk ..)
      · show t.bread v = t.disk v
        rw [htook.bread hbit, update_self, htook.disk]
    obtain ⟨hsole, hgrew⟩ := hext.grew h hg fun _ => fileBlock_empty h0
    exact ⟨hsole, hgrew, fun e => absurd e hne, fun _ => hg.node⟩
  · rw [if_pos h0]
    exact Lands.stay h nodeAt_self h0

/-- One level further down. -/
theorem bmapEntry_lands (h : Sole s i) (hbn : bn < maxFile) (hk : k < slotHeight (slotOf bn))
    (hway : s.way i bn (k + 1) = c) (hc : c ≠ 0) :
    Lands s (s.bmapEntry c (slotIndex bn / 256 ^ k % 256)).2 i bn k
      (s.bmapEntry c (slotIndex bn / 256 ^ k % 256)).1 := by
  have hchild := nodeAt_child hk (slotIndex_lt hbn) hway hc
  have hcin : c ∈ (s.icache i).din.inner s.bread := by
    rw [← hway] at hc ⊢
    exact mem_of_le (le_sum_range (f := fun k =>
      innerBlocks entryOf 256 s.bread (slotHeight k) ((s.icache i).din.addrs k)) (slotOf_lt bn))
      (nodeAt_mem (Nat.succ_pos k) hk (slotIndex_lt hbn) hc)
  unfold bmapEntry
  dsimp only
  by_cases h0 : s.entry c (slotIndex bn / 256 ^ k % 256) = 0
  · rw [if_neg (not_not.2 h0)]
    rcases balloc_spec h.wf h.reserved with ⟨hnone, hfull⟩ | ⟨v, hv, hne, hbit, htook⟩
    · rw [hnone, if_pos rfl]
      exact Lands.none h hfull
    rw [hv, if_neg hne]
    have hfresh : v ∉ s.owned i := h.unowned htook.free
    have hcv : c ≠ v := fun e => hfresh (e ▸ mem_add.2 (.inl hcin))
    have hcbit := h.inner hcin
    have hvlt : v < uintMod := by
      have hsize := h.wf.size
      have hlt := htook.lt
      unfold uintMod
      omega
    generalize s.balloc.2 = t at htook
    have hcread : t.bread c = s.bread c := by
      rw [htook.bread hcbit, update_of_ne hcv]
    rw [hcread]
    generalize hj : slotIndex bn / 256 ^ k % 256 = j at h0 hchild
    generalize hs' : t.bwrite c (putLe 4 (s.bread c) (4 * j) v) = s'
    have hic : s'.icache = s.icache := by
      rw [← hs', ← htook.icache]
      rfl
    have hsb : s'.sb = s.sb := by
      rw [← hs', ← htook.sb]
      rfl
    -- the image that grows, without the bit of the bitmap
    generalize hm : update (update s.bread v fun _ => 0) c
      (putLe 4 (s.bread c) (4 * j) v) = m
    have hread : ∀ x, ¬ s.IsBitmap x → s'.bread x = m x := by
      intro x hx
      rw [← hs', bread_bwrite, ← hm]
      by_cases hxc : x = c
      · rw [if_pos hxc, hxc, update_self]
      · rw [if_neg hxc, update_of_ne hxc, htook.bread hx]
    have hmc : m c = putLe 4 (s.bread c) (4 * j) v := by rw [← hm, update_self]
    have hmv : m v = fun _ => 0 := by
      rw [← hm, update_of_ne hcv.symm, update_self]
    have hmx : ∀ x, x ≠ c → x ≠ v → m x = s.bread x := fun x hxc hxv => by
      rw [← hm, update_of_ne hxc, update_of_ne hxv]
    have hset : SetEntry entryOf 256 s.bread m k c j v := by
      refine ⟨?_, fun l _ hl => ?_, fun _ l _ => ?_, fun x hxc hxv l _ => by rw [hmx x hxc hxv]⟩
      · rw [hmc]
        exact getLe_putLe_self hvlt
      · rw [hmc]
        exact getLe_putLe_of_disjoint (by omega)
      · rw [hmv]
        exact getLe_zero 4 (4 * l)
    have hgrown : Grown s.bread m (s.icache i).din (s.icache i).din bn k v :=
      grown_entry hbn h.nodup hne hfresh hk hway hc (by rw [hj]; exact h0) (by rw [hj]; exact hset) hmx
    have hg : Grown s.bread s'.bread (s.icache i).din (s'.icache i).din bn k v := by
      rw [hic]
      exact hgrown.congr hbn fun x hx => hread x (h.inner_grown hgrown hbit hx)
    have hcut := @bwrite_cut t c (fun hx => hcbit ((isBitmap_congr htook.sb c).1 hx))
      (putLe 4 (s.bread c) (4 * j) v)
    rw [hs'] at hcut
    have hext : Extended s s' i v := by
      refine ⟨hsb, ⟨(s.icache i).din.addrs, ?_⟩, fun l => .inl (by rw [hic]), htook.lt, htook.free, hbit,
        fun x hx => ?_, ?_, fun x hx hxv => ?_, hcut.clean (htook.clean h.clean)⟩
      · rw [hic]
        exact (update_eq_self ..).symm
      · rw [hcut.used x (by rw [htook.sb]; exact hx), htook.used x hx]
        simp
      · obtain ⟨hd, hb⟩ := hcut.same v (fun hx => hbit ((isBitmap_congr htook.sb v).1 hx)) hcv.symm
        rw [hread v hbit, hmv, hd, htook.disk]
      by_cases hxc : x = c
      · refine .inr ⟨?_, hxc ▸ hcin⟩
        rw [hread x hx, hxc, hmc, ← hs']
        exact (update_self c (putLe 4 (s.bread c) (4 * j) v) t.disk).symm
      · obtain ⟨hd, hb⟩ := hcut.same x (fun hb => hx ((isBitmap_congr htook.sb x).1 hb)) hxc
        obtain ⟨hd', hb'⟩ := htook.same x hx hxv
        exact .inl ⟨hd.trans hd', hb.trans hb'⟩
    obtain ⟨hsole, hgrew⟩ := hext.grew h hg fun hk0 => by
      subst hk0
      exact hchild.trans h0
    exact ⟨hsole, hgrew, fun e => absurd e hne, fun _ => hg.node⟩
  · rw [if_pos h0]
    exact Lands.stay h hchild h0

/-- `fs_bmap` returns the block of a file block, or 0 when the disk is full. -/
theorem bmap_lands (h : Sole s i) (hbn : bn < maxFile) :
    Lands s (s.bmap i bn).2 i bn 0 (s.bmap i bn).1 := by
  have hmax : bn < 65803 := hbn
  have haddr := bmapAddr_lands h hbn
  unfold bmap
  rcases slot_cases bn with ⟨h1, hs, hi⟩ | ⟨h1, h2, hs, hi⟩ | ⟨h1, hs, hi⟩
  · rw [hs, show slotHeight bn = 0 from if_pos h1] at haddr
    rw [if_pos h1]
    exact haddr
  · -- one index block
    have hk : slotHeight (slotOf bn) = 1 := by rw [hs]; rfl
    rw [hk, hs] at haddr
    rw [if_neg (by omega), if_pos (by omega)]
    by_cases h0 : (s.bmapAddr i 11).1 = 0
    · rw [if_pos h0]
      exact ⟨haddr.sole, haddr.grew, haddr.full, fun hne => absurd h0 hne⟩
    rw [if_neg h0]
    have hdigit : bn - 11 = slotIndex bn / 256 ^ 0 % 256 := by
      rw [hi, pow_zero]
      omega
    rw [hdigit]
    exact haddr.trans (bmapEntry_lands haddr.sole hbn (by omega) (haddr.way h0) h0)
  -- two index blocks
  have hk : slotHeight (slotOf bn) = 2 := by rw [hs]; rfl
  rw [hk, hs] at haddr
  rw [if_neg (by omega), if_neg (by omega), if_pos (by omega)]
  by_cases h0 : (s.bmapAddr i 12).1 = 0
  · rw [if_pos h0]
    exact ⟨haddr.sole, haddr.grew, haddr.full, fun hne => absurd h0 hne⟩
  rw [if_neg h0]
  have hdigit : (bn - 267) / 256 = slotIndex bn / 256 ^ 1 % 256 := by
    rw [hi, pow_one]
    omega
  have hentry := bmapEntry_lands haddr.sole hbn (by omega) (haddr.way h0) h0
  rw [← hdigit] at hentry
  have hpath := haddr.trans hentry
  generalize (s.bmapAddr i 12).2.bmapEntry (s.bmapAddr i 12).1 ((bn - 267) / 256) = q at hpath ⊢
  by_cases h0' : q.1 = 0
  · rw [if_pos h0']
    exact ⟨hpath.sole, hpath.grew, hpath.full, fun hne => absurd h0' hne⟩
  rw [if_neg h0']
  have hdigit' : (bn - 267) % 256 = slotIndex bn / 256 ^ 0 % 256 := by
    omega
  rw [hdigit']
  exact hpath.trans (bmapEntry_lands hpath.sole hbn (by omega) (hpath.way h0') h0')

end

end Slopix.Fs
