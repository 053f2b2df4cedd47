import Mathlib.Data.List.GetD
import Slopix.Fs.Alloc
import Slopix.Fs.Walk

/-!
# Writing a file

`Dinode.contents` is a file as an array of bytes. The loop of `fs_writei` finds a block at a time with
`fs_bmap` and puts a part of the data there; `Written` says what it has done to the bytes of the file.
-/

namespace Slopix.Fs

open Lib List FileSys

/-! ## Files as arrays of bytes -/

section

variable (rd : Nat → Block) (d : Dinode)

/-- Byte `k` of a file; a hole is zero. -/
def Dinode.byteOf (k : Nat) : UInt8 :=
  if d.fileBlock rd (k / 1024) = 0 then 0 else rd (d.fileBlock rd (k / 1024)) (k % 1024)

/-- The bytes of a file. -/
def Dinode.contents : List UInt8 := (List.range d.size).map (d.byteOf rd)

/-- Every block of data below the size is there. -/
def Dinode.Solid : Prop := ∀ bn, bn * 1024 < d.size → d.fileBlock rd bn ≠ 0

end

section

variable {rd rd' : Nat → Block} {d d' : Dinode} {bn k : Nat}

/-- The two readings of the map agree: a block is there when no block on its way is missing. -/
theorem fileBlock_path (hbn : bn < maxFile) :
    (d.fileBlock rd bn ≠ 0 ↔ 0 ∉ blockPath rd d bn) ∧
      (d.fileBlock rd bn ≠ 0 → blockAt rd d bn = d.fileBlock rd bn) := by
  have hmax : bn < 65803 := hbn
  have hnode : d.fileBlock rd bn = d.node rd (slotOf bn) 0 (slotIndex bn) := rfl
  unfold blockAt blockPath
  rcases slot_cases bn with ⟨h1, hs, hi⟩ | ⟨h1, h2, hs, hi⟩ | ⟨h1, hs, hi⟩
  · rw [if_pos h1, fileBlock_direct h1]
    simp [eq_comm]
  · rw [if_neg (by omega), if_pos (by omega)]
    by_cases h11 : d.addrs 11 = 0
    · rw [fileBlock_empty (by rw [hs]; exact h11)]
      simp [h11]
    · rw [fileBlock_single h1 h2 h11]
      have hentry : indexEntry rd (d.addrs 11) (bn - 11) = entryOf (rd (d.addrs 11)) (bn - 11) := rfl
      simp [hentry, Ne.symm h11, eq_comm]
  rw [if_neg (by omega), if_neg (by omega)]
  generalize hb : indexEntry rd (d.addrs 12) ((bn - 267) / 256) = b
  have hentry : entryOf (rd (d.addrs 12)) ((bn - 267) / 256) = b := hb
  by_cases h12 : d.addrs 12 = 0
  · rw [fileBlock_empty (by rw [hs]; exact h12)]
    simp [h12]
  have hin : slotIndex bn < 256 ^ slotHeight 12 := by
    rw [← hs]
    exact slotIndex_lt hbn
  have hchild := @nodeAt_child Block entryOf 256 rd 2 1 (d.addrs 12) (slotIndex bn) (d.addrs 12) (by decide)
    hin nodeAt_self h12
  have hdigit : slotIndex bn / 256 ^ 1 % 256 = (bn - 267) / 256 := by
    omega
  rw [hdigit, hentry] at hchild
  by_cases hb0 : b = 0
  · have hzero : d.fileBlock rd bn = 0 := by
      rw [hnode, hs]
      exact leafAt_of_nodeAt (by decide) (hchild.trans hb0)
    simp [hzero, hb0]
  have hleaf : d.fileBlock rd bn = indexEntry rd b ((bn - 267) % 256) := by
    rw [hnode, hs]
    have h0 := @nodeAt_child Block entryOf 256 rd 2 0 (d.addrs 12) (slotIndex bn) b (by decide) hin hchild hb0
    rw [pow_zero, Nat.div_one, hi] at h0
    rw [hi]
    exact h0
  rw [hleaf]
  simp [Ne.symm h12, Ne.symm hb0, eq_comm]

theorem Dinode.Solid.noHoles (h : d.Solid rd) (hsize : d.size ≤ maxBytes) : NoHoles rd d := by
  intro bn hbn
  unfold maxBytes at hsize
  exact (fileBlock_path (by unfold maxFile; omega)).1.1 (h bn hbn)

/-- A file without holes. -/
theorem NoHoles.solid (h : NoHoles rd d) (hsize : d.size ≤ maxBytes) : d.Solid rd := by
  intro bn hbn
  unfold maxBytes at hsize
  exact (fileBlock_path (by unfold maxFile; omega)).1.2 (h bn hbn)

@[simp] theorem length_contents : (d.contents rd).length = d.size := by simp [Dinode.contents]

theorem getElem?_contents (hk : k < d.size) : (d.contents rd)[k]? = some (d.byteOf rd k) := by
  simp [Dinode.contents, hk]

theorem Dinode.Solid.contents_eq (h : d.Solid rd) (hsize : d.size ≤ maxBytes) : d.contents rd = fileBytes rd d := by
  apply map_congr_left
  intro k hk
  have hk := mem_range.1 hk
  have hne := h (k / 1024) (by omega)
  unfold maxBytes at hsize
  rw [Dinode.byteOf, if_neg hne, zero_add, byteAt, (fileBlock_path (by unfold maxFile; omega)).2 hne]

/-- `fs_readi` returns a part of the array, and as much as there is. -/
theorem readi_contents {s : FileSys} {i off n : Nat} (h : (s.icache i).din.Solid s.bread)
    (hsize : (s.icache i).din.size ≤ maxBytes) (hn : off + n < uintMod) :
    s.readi i off n = ((((s.icache i).din.contents s.bread).drop off).take n, s) := by
  by_cases hoff : (s.icache i).din.size < off
  · unfold readi
    rw [if_pos hoff, drop_eq_nil_of_le (by rw [length_contents]; omega), take_nil]
  · rw [readi_inside (h.noHoles hsize) hsize (by omega) hn, h.contents_eq hsize, drop_fileBytes (by omega)]

/-- The bytes of a file depend on its blocks only. -/
theorem contents_congr (hsize : d.size ≤ maxBytes) (hrd : ∀ c ∈ d.blocks rd, rd' c = rd c) :
    d.contents rd' = d.contents rd ∧ (d.Solid rd → d.Solid rd') := by
  unfold maxBytes at hsize
  obtain ⟨-, -, hblock⟩ := blocks_congr fun c hc => hrd c (Multiset.mem_add.2 (.inl hc))
  refine ⟨map_congr_left fun k hk => ?_, fun h bn hbn => ?_⟩
  · have hk := mem_range.1 hk
    have hbn : k / 1024 < maxFile := by
      unfold maxFile
      omega
    unfold Dinode.byteOf
    rw [hblock _ hbn]
    by_cases h0 : d.fileBlock rd (k / 1024) = 0
    · rw [if_pos h0, if_pos h0]
    · rw [if_neg h0, if_neg h0, hrd _ (Multiset.mem_add.2 (.inr (fileBlock_mem hbn h0)))]
  · rw [hblock bn (by unfold maxFile; omega)]
    exact h bn hbn

end

/-! ## One block -/

section

variable {s : FileSys} {i bn : Nat}

/-- A write to a block of the file changes bytes of that block and nothing else. -/
theorem Sole.write (h : Sole s i) (hbn : bn < maxFile) (hne : s.mapped i bn ≠ 0) (data : Block) :
    Sole (s.bwrite (s.mapped i bn) data) i ∧
      Grew s (s.bwrite (s.mapped i bn) data) i
        (fun k => k / 1024 = bn ∧ data (k % 1024) ≠ s.bread (s.mapped i bn) (k % 1024)) ∧
      (∀ bn' < maxFile, (s.bwrite (s.mapped i bn) data).mapped i bn' = s.mapped i bn') ∧
      ∀ k, k / 1024 = bn → (s.bwrite (s.mapped i bn) data).byte i k = data (k % 1024) := by
  have hleaf := leaf_notMem_inner h.nodup hbn hne
  have hin : s.mapped i bn ∈ s.owned i := Multiset.mem_add.2 (.inr (fileBlock_mem hbn hne))
  obtain ⟨-, -, hbit, -⟩ := h.block _ hin
  have hcut := bwrite_cut hbit data
  have hread := fun c => @bread_bwrite s (s.mapped i bn) c data
  generalize hs' : s.bwrite (s.mapped i bn) data = s' at hcut hread ⊢
  have hic : s'.icache = s.icache := by
    rw [← hs']
    rfl
  obtain ⟨hinner, hleaves, hblock⟩ := @blocks_congr s.bread s'.bread (s.icache i).din fun c hc => by
    have hcw : c ≠ s.mapped i bn := by
      rintro rfl
      exact hleaf hc
    rw [hread, if_neg hcw]
  have howned : s'.owned i = s.owned i := by
    unfold owned Dinode.blocks
    rw [hic, hinner, hleaves]
  have hmapped : ∀ bn' < maxFile, s'.mapped i bn' = s.mapped i bn' := fun bn' hbn' => by
    unfold mapped
    rw [hic]
    exact hblock bn' hbn'
  have hused : ∀ x < s.sb.size, s'.used x = true ↔ s.used x = true := fun x hx => by
    rw [hcut.used x hx]
    simp
  have hbitmap := fun c => isBitmap_congr hcut.sb c
  refine ⟨⟨hcut.sb ▸ h.wf, hcut.clean h.clean, fun c hc hres => ?_, by rw [howned]; exact h.nodup, fun b hb => ?_⟩,
    ⟨hcut.sb, ⟨(s.icache i).din.addrs, ?_⟩, fun k => .inl (by rw [hic]), fun x hx hu => (hused x hx).2 hu,
      fun c hc _ hnot => hcut.same c hc fun e => hnot (e ▸ hin), fun b hb => .inl (howned ▸ hb),
      fun bn' hbn' _ => hmapped bn' hbn', fun k hk hne' hkeep => ?_⟩, hmapped, fun k hk => ?_⟩
  · rw [hcut.sb] at hc
    exact (hused c hc).2 (h.reserved c hc (hres.imp_right (hbitmap c).1))
  · rw [howned] at hb
    obtain ⟨hlt, hu, hnot, hsettled⟩ := h.block b hb
    refine ⟨by rw [hcut.sb]; exact hlt, (hused b hlt).2 hu, fun hx => hnot ((hbitmap b).1 hx), ?_⟩
    rw [hread]
    by_cases hbw : b = s.mapped i bn
    · rw [if_pos hbw, hbw, ← hs']
      exact (Function.update_self (s.mapped i bn) data s.disk).symm
    · rw [if_neg hbw, (hcut.same b hnot hbw).1, hsettled]
  · rw [hic]
    exact (Function.update_eq_self ..).symm
  · unfold byte
    rw [hmapped _ hk, hread]
    by_cases hsame : s.mapped i (k / 1024) = s.mapped i bn
    · have hkbn := fileBlock_inj h.nodup hk hbn hne' hsame
      rw [if_pos hsame, hsame]
      by_contra hdiff
      exact hkeep ⟨hkbn, hdiff⟩
    · rw [if_neg hsame]
  · unfold byte
    rw [hk, hmapped bn hbn, hread, if_pos rfl]

end

/-! ## The loop -/

/-- The first `tot` bytes of `src` are in the file from `off` on; the others did not fit on the disk. -/
structure Written (s s' : FileSys) (i off : Nat) (src : List UInt8) (tot : Nat) : Prop where
  sole : Sole s' i
  grew : Grew s s' i fun k => off ≤ k ∧ k < off + tot
  le : tot ≤ src.length
  full : tot < src.length → s'.Full
  bytes : ∀ k, off ≤ k → k < off + tot →
    s'.mapped i (k / 1024) ≠ 0 ∧ s'.byte i k = src.getD (k - off) 0

section

variable {s s1 s2 : FileSys} {i off m tot : Nat} {src : List UInt8}

theorem Written.nothing (h : Sole s i) (off : Nat) : Written s s i off [] 0 :=
  ⟨h, (Grew.refl s i).congr fun _ hf => hf.elim, le_refl 0, fun hlt => absurd hlt (lt_irrefl 0),
    fun _ hk hlt => absurd hlt (Nat.not_lt_of_le hk)⟩

/-- One pass of the loop of `fs_writei`. -/
theorem Written.block (h : Lands s s1 i (off / 1024) 0 (s1.mapped i (off / 1024)))
    (hne : s1.mapped i (off / 1024) ≠ 0) (hbn : off / 1024 < maxFile) (hfit : off % 1024 + src.length ≤ 1024) :
    Written s (s1.bwrite (s1.mapped i (off / 1024))
      (putBytes (s1.bread (s1.mapped i (off / 1024))) (off % 1024) src)) i off src src.length := by
  obtain ⟨hsole, hgrew, hmapped, hbyte⟩ := h.sole.write hbn hne
    (putBytes (s1.bread (s1.mapped i (off / 1024))) (off % 1024) src)
  refine ⟨hsole, (h.grew.trans hgrew).congr ?_, le_refl _, fun hlt => absurd hlt (lt_irrefl _),
    fun k hk hlt => ?_⟩
  · rintro _ (hf | ⟨hk, hdiff⟩)
    · exact hf.elim
    · by_contra hout
      refine hdiff (if_neg ?_)
      omega
  have hkbn : k / 1024 = off / 1024 := by omega
  refine ⟨?_, ?_⟩
  · rw [hkbn, hmapped _ hbn]
    exact hne
  · rw [hbyte k hkbn, putBytes, if_pos (by omega)]
    congr 1
    omega

theorem Written.append {rest : List UInt8} (h : Written s s1 i off src src.length)
    (h' : Written s1 s2 i (off + src.length) rest tot) (hend : off + src.length + rest.length ≤ maxBytes) :
    Written s s2 i off (src ++ rest) (src.length + tot) := by
  have hle := h'.le
  unfold maxBytes at hend
  refine ⟨h'.sole, (h.grew.trans h'.grew).congr fun k hk => ?_, ?_, fun hlt => ?_, fun k hk hlt => ?_⟩
  · omega
  · rw [length_append]
    omega
  · rw [length_append] at hlt
    exact h'.full (by omega)
  have hmax : k / 1024 < maxFile := by
    unfold maxFile
    omega
  by_cases hfirst : k < off + src.length
  · -- a byte of the first part stays
    obtain ⟨hne, hbyte⟩ := h.bytes k hk hfirst
    rw [h'.grew.there _ hmax hne, h'.grew.data k hmax hne (by omega), hbyte,
      getD_append _ _ _ _ (by omega)]
    exact ⟨hne, rfl⟩
  obtain ⟨hne, hbyte⟩ := h'.bytes k (by omega) (by omega)
  refine ⟨hne, ?_⟩
  rw [hbyte, getD_append_right _ _ _ _ (by omega)]
  congr 1
  omega

theorem writeLoop_written {fuel : Nat} (h : Sole s i) (hend : off + src.length ≤ maxBytes)
    (hfuel : src.length ≤ fuel) :
    Written s (writeLoop fuel s i off src).2 i off src (writeLoop fuel s i off src).1 := by
  induction fuel generalizing s off src with
  | zero =>
    obtain rfl : src = [] := length_eq_zero_iff.1 (by omega)
    exact Written.nothing h off
  | succ fuel ih =>
    rw [writeLoop]
    by_cases hsrc : src = []
    · rw [if_pos hsrc, hsrc]
      exact Written.nothing h off
    have hpos := length_pos_iff.2 hsrc
    have hbn : off / 1024 < maxFile := by
      unfold maxBytes at hend
      unfold maxFile
      omega
    have hmap := bmap_lands h hbn
    rw [if_neg hsrc]
    generalize s.bmap i (off / 1024) = r at hmap ⊢
    by_cases h0 : r.1 = 0
    · -- no block is free
      rw [if_pos h0]
      exact ⟨hmap.sole, hmap.grew.congr fun _ hf => hf.elim, Nat.zero_le _, fun _ => hmap.full h0,
        fun k hk hlt => absurd hlt (Nat.not_lt_of_le hk)⟩
    rw [if_neg h0]
    have hway : r.2.mapped i (off / 1024) = r.1 := hmap.way h0
    generalize hm : min (1024 - off % 1024) src.length = m
    have hlen : (src.take m).length = m := by
      rw [length_take]
      omega
    rw [← hway] at hmap h0 ⊢
    have hfirst := @Written.block s r.2 i off (src.take m) hmap h0 hbn (by omega)
    rw [hlen] at hfirst
    have hrest := @ih _ (off + m) (src.drop m) hfirst.sole (by rw [length_drop]; omega)
      (by rw [length_drop]; omega)
    have hall := @Written.append s _ _ i off _ (src.take m) _ (by rw [hlen]; exact hfirst)
      (by rw [hlen]; exact hrest) (by rw [hlen, length_drop]; omega)
    rw [hlen, take_append_drop] at hall
    exact hall

/-- The bytes of the file after the whole write. -/
theorem Written.contents (h : Written s s1 i off src tot) {d : Dinode}
    (hsolid : (s.icache i).din.Solid s.bread) (hoff : off ≤ (s.icache i).din.size)
    (hsize : (s.icache i).din.size ≤ maxBytes) (hend : off + src.length ≤ maxBytes)
    (haddrs : d.addrs = (s1.icache i).din.addrs) (hd : d.size = max (s.icache i).din.size (off + tot)) :
    d.contents s1.bread = overwrite ((s.icache i).din.contents s.bread) off (src.take tot) ∧ d.Solid s1.bread := by
  have hle := h.le
  have htake : (src.take tot).length = tot := by
    rw [length_take]
    omega
  have hblock : ∀ bn, d.fileBlock s1.bread bn = s1.mapped i bn := (blocks_addrs haddrs).2
  have hmax : ∀ bn, bn * 1024 < d.size → bn < maxFile := by
    intro bn hbn
    unfold maxBytes at hsize hend
    unfold maxFile
    omega
  -- a byte below the old size that is not written
  have hkeep : ∀ k, k < (s.icache i).din.size → s1.mapped i (k / 1024) ≠ 0 ∧
      (¬ (off ≤ k ∧ k < off + tot) → s1.byte i k = s.byte i k) := by
    intro k hk
    have hne : s.mapped i (k / 1024) ≠ 0 := hsolid _ (by omega)
    have hlt := hmax (k / 1024) (by omega)
    rw [h.grew.there _ hlt hne]
    exact ⟨hne, h.grew.data k hlt hne⟩
  refine ⟨ext_getElem? fun k => ?_, fun bn hbn => ?_⟩
  · rw [getElem?_overwrite (by rw [length_contents]; exact hoff), htake]
    by_cases hk : k < d.size
    · rw [getElem?_contents hk, Dinode.byteOf, hblock]
      by_cases hin : off ≤ k ∧ k < off + tot
      · obtain ⟨hne, hbyte⟩ := h.bytes k hin.1 hin.2
        rw [if_pos hin, if_neg hne, getElem?_take, if_pos (by omega), getElem?_eq_getElem (by omega)]
        congr 1
        refine hbyte.trans ?_
        rw [getD_eq_getElem?_getD, getElem?_eq_getElem (by omega), Option.getD_some]
      have hold : k < (s.icache i).din.size := by omega
      obtain ⟨hne, hbyte⟩ := hkeep k hold
      have hne' : s.mapped i (k / 1024) ≠ 0 := hsolid _ (by omega)
      rw [if_neg hin, if_neg hne, getElem?_contents hold, Dinode.byteOf]
      congr 1
      exact (hbyte hin).trans (if_neg hne').symm
    · rw [if_neg (by omega), getElem?_eq_none (by rw [length_contents]; omega),
        getElem?_eq_none (by rw [length_contents]; omega)]
  rw [hblock]
  by_cases hold : bn * 1024 < (s.icache i).din.size
  · have hblk := (hkeep (bn * 1024) hold).1
    rwa [Nat.mul_div_cancel _ (by decide)] at hblk
  · have hblk := (h.bytes (bn * 1024) (by omega) (by omega)).1
    rwa [Nat.mul_div_cancel _ (by decide)] at hblk

end

end Slopix.Fs
