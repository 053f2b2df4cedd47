import Slopix.Fs.CutTree
import Slopix.Fs.Truncate

/-!
# Shrinking a file

`fs_itrunc_to` on a file whose structure on disk is intact. The first-level block of the double-indirect
tree is changed in its buffer only, so what is right on disk depends on whether one of its entries has
to go while the block stays.
-/

namespace Slopix.Fs

open Lib Function List FileSys

/-! ## A file whose structure on disk is intact -/

/-- The file of entry `i` of the inode cache: its blocks are distinct blocks of the image outside the bitmap
and the inode table's block, marked used, and their contents are on disk. No block below its size is
missing. -/
structure Intact (s : FileSys) (i : Nat) : Prop where
  wf : s.sb.Wf
  fits : (s.icache i).din.Fits
  size : (s.icache i).din.size ≤ maxBytes
  solid : NoHoles s.disk (s.icache i).din
  nodup : ((s.icache i).din.blocks s.disk).Nodup
  block : ∀ b ∈ (s.icache i).din.blocks s.disk, b < s.sb.size ∧ s.used b = true ∧ ¬ s.IsBitmap b ∧
    s.buf b = none ∧ b ≠ s.iblock (s.icache i).inum
  table : ¬ s.IsBitmap (s.iblock (s.icache i).inum)
  clean : s.BitmapClean

/-- The same of a file whose buffers may hold what is on disk. -/
structure Placed (s : FileSys) (i : Nat) : Prop where
  wf : s.sb.Wf
  fits : (s.icache i).din.Fits
  size : (s.icache i).din.size ≤ maxBytes
  solid : NoHoles s.disk (s.icache i).din
  nodup : ((s.icache i).din.blocks s.disk).Nodup
  block : ∀ b ∈ (s.icache i).din.blocks s.disk, b < s.sb.size ∧ s.used b = true ∧ ¬ s.IsBitmap b ∧
    s.bread b = s.disk b ∧ b ≠ s.iblock (s.icache i).inum
  table : ¬ s.IsBitmap (s.iblock (s.icache i).inum)
  clean : s.BitmapClean

theorem Intact.placed {s : FileSys} {i : Nat} (h : Intact s i) : Placed s i := by
  refine ⟨h.wf, h.fits, h.size, h.solid, h.nodup, fun b hb => ?_, h.table, h.clean⟩
  obtain ⟨hlt, hused, hbit, hbuf, htable⟩ := h.block b hb
  refine ⟨hlt, hused, hbit, ?_, htable⟩
  rw [bread, hbuf]
  rfl

section

variable {s s' : FileSys} {i N b c k : Nat} {T F : Nat → Prop} {A : Nat → Nat}

theorem IsIndex.entry_mem {rd : Nat → Block} {d : Dinode} {j : Nat} (hidx : IsIndex rd d b) (hj : j < 256)
    (hne : entryOf (rd b) j ≠ 0) : entryOf (rd b) j ∈ d.blocks rd := by
  obtain ⟨h0, rfl | ⟨h12, rfl | ⟨k, hk, rfl⟩⟩⟩ := hidx
  · exact mem_blocks_iff.2 ⟨hne, .inr (.inl ⟨by decide, h0, .inr ⟨j, hj, by unfold maxFile; omega, rfl⟩⟩)⟩
  · refine mem_blocks_iff.2 ⟨hne, .inr (.inr ⟨by decide, h12, .inr ⟨j, hj, ?_, hne, .inl rfl⟩⟩)⟩
    unfold maxFile
    omega
  refine mem_blocks_iff.2 ⟨hne, .inr (.inr ⟨by decide, h12, .inr ⟨k, hk, ?_, h0, .inr ⟨j, hj, ?_, rfl⟩⟩⟩)⟩
  · unfold maxFile
    omega
  · unfold maxFile
    omega

/-- An index block that is not touched holds what it did. -/
theorem Placed.index (h : Placed s i) (hidx : IsIndex s.disk (s.icache i).din b) (hT : ¬ T b) :
    IndexBlock s T b := by
  obtain ⟨hsize, -, hbitmap, hbuf, -⟩ := h.block b hidx.mem
  exact ⟨hT, hbitmap, hbuf, hsize, fun j hj hne => (h.block _ (hidx.entry_mem hj hne)).1⟩

theorem Placed.inner_index (h12 : (s.icache i).din.addrs 12 ≠ 0) (hk : k < 256)
    (hne : innerOf s ((s.icache i).din.addrs 12) k ≠ 0) :
    IsIndex s.disk (s.icache i).din (innerOf s ((s.icache i).din.addrs 12) k) :=
  ⟨hne, .inr ⟨h12, .inr ⟨k, hk, rfl⟩⟩⟩

theorem double_index (h12 : (s.icache i).din.addrs 12 ≠ 0) :
    IsIndex s.disk (s.icache i).din ((s.icache i).din.addrs 12) := ⟨h12, .inr ⟨h12, .inl rfl⟩⟩

/-- The index blocks of the double-indirect tree are different from each other and from the single-indirect
block. -/
theorem Placed.inner_distinct (h : Placed s i) (h12 : (s.icache i).din.addrs 12 ≠ 0) (hk : k < 256)
    (hne : innerOf s ((s.icache i).din.addrs 12) k ≠ 0) :
    innerOf s ((s.icache i).din.addrs 12) k ≠ (s.icache i).din.addrs 12 ∧
      innerOf s ((s.icache i).din.addrs 12) k ≠ (s.icache i).din.addrs 11 ∧
      ∀ k' < 256, innerOf s ((s.icache i).din.addrs 12) k = innerOf s ((s.icache i).din.addrs 12) k' →
        k = k' := by
  have hnode : ∀ k, (s.icache i).din.node s.disk 12 1 (256 * k) =
      innerOf s ((s.icache i).din.addrs 12) k := fun k => node_double_inner h12
  have hlt : ∀ k < 256, 256 * k < 256 ^ slotHeight 12 := fun k hk => by
    show 256 * k < 65536
    omega
  have hne' : (s.icache i).din.node s.disk 12 1 (256 * k) ≠ 0 := by
    rw [hnode]
    exact hne
  refine ⟨fun heq => ?_, fun heq => ?_, fun k' hk' heq => ?_⟩
  · have hsame := @blocks_node_inj _ _ 12 12 1 2 (256 * k) 0 h.nodup (by decide) (by decide) (by decide)
      (by decide) (hlt k hk) (by decide) hne' ((hnode k).trans (heq.trans node_double.symm))
    omega
  · have hsame := @blocks_node_inj _ _ 12 11 1 1 (256 * k) 0 h.nodup (by decide) (by decide) (by decide)
      (by decide) (hlt k hk) (by decide) hne' ((hnode k).trans (heq.trans node_single.symm))
    omega
  · have hsame := blocks_node_inj h.nodup (by decide) (by decide) (by decide) (by decide) (hlt k hk)
      (hlt k' hk') hne' ((hnode k).trans (heq.trans (hnode k').symm))
    omega

theorem Placed.double_distinct (h : Placed s i) (h12 : (s.icache i).din.addrs 12 ≠ 0) :
    (s.icache i).din.addrs 12 ≠ (s.icache i).din.addrs 11 := by
  intro heq
  have hsame := @blocks_node_inj _ _ 12 11 2 1 0 0 h.nodup
    (by decide) (by decide) (by decide) (by decide) (by decide) (by decide)
    (by rw [node_double]; exact h12) (node_double.trans (heq.trans node_single.symm))
  omega

/-! ## The whole cut -/

/-- The three parts, one after the other. -/
def cutBlocks (s : FileSys) (i N : Nat) : FileSys :=
  ((((List.range 11).filter (N ≤ ·)).foldl (fun s k => s.truncAddr i k) s).itruncToIndirect i N).itruncToDouble i N

theorem Placed.cut_direct (h : Placed s i) (N : Nat) :
    At s (((List.range 11).filter (N ≤ ·)).foldl (fun s k => s.truncAddr i k) s) i (fun _ => False)
      (fun x => x ≠ 0 ∧ ∃ k < 11, N ≤ k ∧ (s.icache i).din.addrs k = x)
      fun k => if k < 11 ∧ N ≤ k then 0 else (s.icache i).din.addrs k := by
  have hmem : ∀ k, k ∈ (List.range 11).filter (N ≤ ·) ↔ k < 11 ∧ N ≤ k := fun k => by simp
  refine ((At.start s i).truncAddrs h.wf (nodup_range.filter _) fun k hk hne => ?_).congr
    (fun _ ht => ht) (fun x => ?_) (funext fun k => ?_)
  · exact (h.block _ (addr_mem (by have := ((hmem k).1 hk).1; omega) hne)).1
  · constructor
    · rintro (hf | ⟨k, hk, rfl, hne⟩)
      · exact hf.elim
      · exact ⟨hne, k, ((hmem k).1 hk).1, ((hmem k).1 hk).2, rfl⟩
    · rintro ⟨hne, k, hk, hkN, rfl⟩
      exact .inr ⟨k, (hmem k).2 ⟨hk, hkN⟩, rfl, hne⟩
  · simp only [hmem]

/-- An inner index block has nothing left exactly from the cut on. -/
theorem stays_iff (hsolid : ∀ bn < N, 0 ∉ blockPath s.disk (s.icache i).din bn)
    (hk : k < 256) :
    StaysInner s ((s.icache i).din.addrs 12) N k ↔ 267 + 256 * k < N := by
  constructor
  · rintro ⟨l, -, hl, -⟩
    omega
  intro hlt
  refine ⟨0, by decide, hlt, fun h0 => hsolid (267 + 256 * k) hlt ?_⟩
  have hdiv : (267 + 256 * k - 267) / 256 = k := by omega
  have hmod : (267 + 256 * k - 267) % 256 = 0 := by omega
  rw [blockPath, if_neg (by omega), if_neg (by omega), hdiv, hmod]
  exact mem_cons_of_mem _ (mem_cons_of_mem _ (mem_singleton.2 h0.symm))

theorem Placed.cut_single (h : Placed s i) (N : Nat) :
    ∃ s3, ((((List.range 11).filter (N ≤ ·)).foldl (fun s k => s.truncAddr i k) s).itruncToIndirect i N) = s3 ∧
      At s s3 i (fun c => c = (s.icache i).din.addrs 11 ∧ c ≠ 0)
        (fun x => (x ≠ 0 ∧ ∃ k < 11, N ≤ k ∧ (s.icache i).din.addrs k = x) ∨
          FreedSingle s ((s.icache i).din.addrs 11) N x)
        (fun k => if k < 12 ∧ N ≤ k then 0 else (s.icache i).din.addrs k) ∧
      (11 < N → (s.icache i).din.addrs 11 ≠ 0 → ∀ j < 256,
        entryOf (s3.disk ((s.icache i).din.addrs 11)) j =
          if N ≤ 11 + j then 0 else entryOf (s.disk ((s.icache i).din.addrs 11)) j) ∧
      (11 < N → (s.icache i).din.addrs 11 ≠ 0 →
        s3.bread ((s.icache i).din.addrs 11) = s3.disk ((s.icache i).din.addrs 11)) := by
  have hdirect := h.cut_direct N
  obtain ⟨hat, hentries, hsettled⟩ := hdirect.indirect (N := N) h.wf fun h0 => h.index ⟨h0, .inl rfl⟩ id
  refine ⟨_, rfl, hat.congr ?_ (fun _ => Iff.rfl) ?_, fun hN h0 j hj => ?_, fun hN h0 => hsettled hN h0⟩
  · rintro c (hf | ⟨hc, h0, -⟩)
    · exact hf.elim
    · exact ⟨hc, h0⟩
  · funext k
    by_cases hk : k = 11
    · subst hk
      by_cases hN : N ≤ 11
      · simp [hN]
      · simp [hN]
    have hiff : k < 11 ↔ k < 12 := by omega
    split
    · simp only [update_of_ne hk, hiff]
    · simp only [hiff]
  by_cases hle : N ≤ 266
  · exact hentries hN hle h0 j hj
  -- nothing below the block has to go
  have hskip : ∀ t : FileSys, t.itruncToIndirect i N = t := fun t => by
    unfold itruncToIndirect
    rw [if_neg fun hc => hle hc.1]
  have hsame := (hdirect.cut.same _ (h.block _ (addr_mem (by decide) h0)).2.2.1 id).1
  rw [hskip, hsame, if_neg (by omega)]

theorem freedInner_iff (hsolid : ∀ bn < N, 0 ∉ blockPath s.disk (s.icache i).din bn) (hk : k < 256) :
    FreedInner s ((s.icache i).din.addrs 12) N k b ↔
      b ≠ 0 ∧ innerOf s ((s.icache i).din.addrs 12) k ≠ 0 ∧
        (N ≤ 267 + 256 * k ∧ b = innerOf s ((s.icache i).din.addrs 12) k ∨ ∃ l < 256,
          N ≤ 267 + 256 * k + l ∧ entryOf (s.disk (innerOf s ((s.icache i).din.addrs 12) k)) l = b) := by
  have hstays := stays_iff hsolid hk
  unfold FreedInner ReadInner
  rw [hstays, not_lt]
  constructor
  · rintro ⟨⟨-, hinner⟩, hne, hleaf | hself⟩
    · exact ⟨hne, hinner, .inr hleaf⟩
    · exact ⟨hne, hinner, .inl hself⟩
  · rintro ⟨hne, hinner, ⟨hN, rfl⟩ | ⟨l, hl, hlN, rfl⟩⟩
    · exact ⟨⟨by omega, hinner⟩, hne, .inr ⟨hN, rfl⟩⟩
    · exact ⟨⟨by omega, hinner⟩, hne, .inl ⟨l, hl, hlN, rfl⟩⟩

theorem beyond_parts (hsolid : ∀ bn < N, 0 ∉ blockPath s.disk (s.icache i).din bn) :
    Beyond s.disk (s.icache i).din N b ↔
      ((b ≠ 0 ∧ ∃ k < 11, N ≤ k ∧ (s.icache i).din.addrs k = b) ∨
        FreedSingle s ((s.icache i).din.addrs 11) N b) ∨
      (s.icache i).din.addrs 12 ≠ 0 ∧ ((∃ k < 256, FreedInner s ((s.icache i).din.addrs 12) N k b) ∨
        N ≤ 267 ∧ b = (s.icache i).din.addrs 12) := by
  constructor
  · rintro ⟨hne, hdirect | ⟨h11, hb⟩ | ⟨h12, hself | ⟨k, hk, hinner, hb⟩⟩⟩
    · exact .inl (.inl ⟨hne, hdirect⟩)
    · refine .inl (.inr ⟨h11, ?_, hne, hb.symm⟩)
      rcases hb with ⟨hN, -⟩ | ⟨j, hj, hN, -⟩ <;> omega
    · exact .inr ⟨h12, .inr hself⟩
    · exact .inr ⟨h12, .inl ⟨k, hk, (freedInner_iff hsolid hk).2 ⟨hne, hinner, hb⟩⟩⟩
  rintro ((⟨hne, hdirect⟩ | ⟨h11, -, hne, hb⟩) | ⟨h12, ⟨k, hk, hb⟩ | ⟨hN, rfl⟩⟩)
  · exact ⟨hne, .inl hdirect⟩
  · exact ⟨hne, .inr (.inl ⟨h11, hb.symm⟩)⟩
  · obtain ⟨hne, hinner, hb⟩ := (freedInner_iff hsolid hk).1 hb
    exact ⟨hne, .inr (.inr ⟨h12, .inr ⟨k, hk, hinner, hb⟩⟩)⟩
  · exact ⟨h12, .inr (.inr ⟨h12, .inl ⟨hN, rfl⟩⟩)⟩

/-- What the double-indirect part has to do to the parts before it. -/
structure DoubleCut (s s3 s4 : FileSys) (i N : Nat) (T F : Nat → Prop) (A : Nat → Nat) : Prop where
  reached : At s s4 i (fun c => T c ∨ (s.icache i).din.addrs 12 ≠ 0 ∧
      TouchedDouble s ((s.icache i).din.addrs 12) N c)
    (fun x => F x ∨ (s.icache i).din.addrs 12 ≠ 0 ∧ ((∃ k < 256, FreedInner s ((s.icache i).din.addrs 12) N k x) ∨
      N ≤ 267 ∧ x = (s.icache i).din.addrs 12)) (if N ≤ 267 then Function.update A 12 0 else A)
  frame : ∀ c, ¬ s.IsBitmap c → ((s.icache i).din.addrs 12 ≠ 0 →
    ¬ TouchedDouble s ((s.icache i).din.addrs 12) N c) → s4.disk c = s3.disk c ∧ s4.buf c = s3.buf c
  root : 267 < N → (s.icache i).din.addrs 12 ≠ 0 →
    s4.disk ((s.icache i).din.addrs 12) = s.disk ((s.icache i).din.addrs 12)
  inner : 267 < N → (s.icache i).din.addrs 12 ≠ 0 → ∀ k < 256, 267 + 256 * k < N →
    innerOf s ((s.icache i).din.addrs 12) k ≠ 0 → ∀ l < 256,
      entryOf (s4.disk (innerOf s ((s.icache i).din.addrs 12) k)) l =
        if N ≤ 267 + 256 * k + l then 0 else entryOf (s.disk (innerOf s ((s.icache i).din.addrs 12) k)) l
  settled : 267 < N → (s.icache i).din.addrs 12 ≠ 0 → RootFits s.disk (s.icache i).din N →
    s4.bread ((s.icache i).din.addrs 12) = s4.disk ((s.icache i).din.addrs 12) ∧
      ∀ k < 256, 267 + 256 * k < N → innerOf s ((s.icache i).din.addrs 12) k ≠ 0 →
        s4.bread (innerOf s ((s.icache i).din.addrs 12) k) = s4.disk (innerOf s ((s.icache i).din.addrs 12) k)

/-- The doubly indirect tree after the cut. -/
theorem Placed.cut_double {s3 : FileSys} (h : Placed s i) (hat : At s s3 i T F A)
    (hA : A 12 = (s.icache i).din.addrs 12) (hT : ∀ c, T c → c = (s.icache i).din.addrs 11)
    (hsolid : ∀ bn < N, 0 ∉ blockPath s.disk (s.icache i).din bn) :
    DoubleCut s s3 (s3.itruncToDouble i N) i N T F A := by
  by_cases h12 : (s.icache i).din.addrs 12 = 0
  · -- there is no such tree
    rw [double_idle hat fun hc => hc.2 (hA.trans h12)]
    refine ⟨hat.congr (fun _ ht => .inl ht) (fun x => ?_) ?_, fun _ _ _ => ⟨rfl, rfl⟩,
      fun _ hne => absurd h12 hne, fun _ hne => absurd h12 hne, fun _ hne => absurd h12 hne⟩
    · simp [h12]
    · split
      · exact (update_eq_self_iff.2 (hA.trans h12).symm).symm
      · rfl
  have hroot : IndexBlock s T (A 12) := by
    rw [hA]
    exact h.index (double_index h12) fun ht => h.double_distinct h12 (hT _ ht)
  have hinner : InnerBlocks s T (A 12) := by
    rw [hA]
    refine ⟨fun k hk hne => h.index (Placed.inner_index h12 hk hne) fun ht => ?_, fun k hk k' hk' hne => ?_⟩
    · exact (h.inner_distinct h12 hk hne).2.1 (hT _ ht)
    · exact (h.inner_distinct h12 hk hne).2.2 k' hk'
  have hself : ∀ k < 256, innerOf s (A 12) k ≠ A 12 := fun k hk heq => by
    rw [hA] at heq
    exact (h.inner_distinct h12 hk (by rw [heq]; exact h12)).1 heq
  have hframe : ∀ c, ¬ s.IsBitmap c → ((s.icache i).din.addrs 12 ≠ 0 →
      ¬ TouchedDouble s ((s.icache i).din.addrs 12) N c) →
      (s3.itruncToDouble i N).disk c = s3.disk c ∧ (s3.itruncToDouble i N).buf c = s3.buf c := by
    intro c hc ht
    refine hat.double_frame h.wf (fun _ => hroot) (fun _ => hinner) (fun _ => hself) hc fun _ => ?_
    rw [hA]
    exact ht h12
  have h0 : A 12 ≠ 0 := by
    rw [hA]
    exact h12
  have hnothing : NothingStays s (A 12) N ↔ N ≤ 267 := by
    rw [hA]
    constructor
    · intro hnone
      by_contra hlt
      have hstay : StaysInner s ((s.icache i).din.addrs 12) N 0 := (stays_iff hsolid (by decide)).2 (by omega)
      refine (hnone 0 (by decide) fun hzero => ?_).2 hstay
      refine hsolid 267 (by omega) ?_
      exact mem_cons_of_mem _ (mem_cons.2 (.inl hzero.symm))
    intro hle k _ _
    refine ⟨by omega, fun hstay => ?_⟩
    obtain ⟨l, -, hl, -⟩ := hstay
    omega
  -- an index block that the loop does not read
  have hearly : ∀ k < 256, k < (N - 267) / 256 → innerOf s ((s.icache i).din.addrs 12) k ≠ 0 →
      (s3.itruncToDouble i N).disk (innerOf s ((s.icache i).din.addrs 12) k) =
          s.disk (innerOf s ((s.icache i).din.addrs 12) k) ∧
        (s3.itruncToDouble i N).bread (innerOf s ((s.icache i).din.addrs 12) k) =
          s.disk (innerOf s ((s.icache i).din.addrs 12) k) := by
    intro k hk hlt hne
    obtain ⟨hne12, hne11, hinj⟩ := h.inner_distinct h12 hk hne
    obtain ⟨-, -, hbitmap, hread, -⟩ := h.block _ (Placed.inner_index h12 hk hne).mem
    have hsame := hframe (innerOf s ((s.icache i).din.addrs 12) k) hbitmap fun _ => by
      rintro (heq | ⟨k', hk', ⟨hge, -⟩, heq⟩)
      · exact hne12 heq
      · have := hinj k' hk' heq.symm
        omega
    have hsame3 := hat.cut.same _ hbitmap fun ht => hne11 (hT _ ht)
    rw [bread, hsame.1, hsame.2, hsame3.1, hsame3.2]
    exact ⟨rfl, hread⟩
  have hskipped : ∀ k < 256, k < (N - 267) / 256 → innerOf s ((s.icache i).din.addrs 12) k ≠ 0 →
      ∀ l < 256, entryOf ((s3.itruncToDouble i N).disk (innerOf s ((s.icache i).din.addrs 12) k)) l =
        if N ≤ 267 + 256 * k + l then 0
        else entryOf (s.disk (innerOf s ((s.icache i).din.addrs 12) k)) l := by
    intro k hk hlt hne l hl
    rw [(hearly k hk hlt hne).1, if_neg (by omega)]
  by_cases hmax : N ≤ 65802
  · by_cases hle : N ≤ 267
    · -- the whole tree goes
      have hall := hat.double_all h.wf hroot hinner hself hmax h0 (hnothing.2 hle)
      rw [hA] at hall
      refine ⟨hall.congr (fun c ht => ht.imp_right fun hc => ⟨h12, hc⟩) (fun x => ?_) (if_pos hle).symm,
        hframe, fun hlt => by omega, fun hlt => by omega, fun hlt => by omega⟩
      simp [h12, hle]
    -- part of the tree stays
    obtain ⟨hpart, hdisk, hcut, hinnerRead, hrootRead⟩ :=
      hat.double_part h.wf hroot hinner hself hmax h0 fun hnone => hle (hnothing.1 hnone)
    rw [hA] at hpart hdisk hcut hinnerRead hrootRead
    refine ⟨hpart.congr (fun c ht => ht.imp_right fun hc => ⟨h12, hc⟩) (fun x => ?_) (if_neg hle).symm,
      hframe, fun _ _ => hdisk, fun _ _ k hk hkN hne l hl => ?_, fun hlt _ hfits => ⟨?_, fun k hk hkN hne => ?_⟩⟩
    · simp [h12, hle]
    · rcases lt_or_ge k ((N - 267) / 256) with hlt | hge
      · exact hskipped k hk hlt hne l hl
      · exact hcut k hk ⟨hge, hne⟩ ((stays_iff hsolid hk).2 hkN) l hl
    · rw [hdisk]
      refine hrootRead fun k hk hread => (stays_iff hsolid hk).2 ?_
      by_contra hge
      rcases hfits with hsmall | hroots
      · omega
      · exact hread.2 (hroots k hk (Nat.le_of_not_lt hge))
    · rcases lt_or_ge k ((N - 267) / 256) with hlt | hge
      · rw [(hearly k hk hlt hne).1, (hearly k hk hlt hne).2]
      · exact hinnerRead k hk ⟨hge, hne⟩ ((stays_iff hsolid hk).2 hkN)
  -- the last block stays
  rw [double_idle hat fun hc => hmax hc.1] at hframe hskipped hearly ⊢
  have hnone : ∀ k < 256, ∀ x, ¬ FreedInner s ((s.icache i).din.addrs 12) N k x := by
    intro k hk x hx
    obtain ⟨-, -, ⟨hle, -⟩ | ⟨l, hl, hle, -⟩⟩ := (freedInner_iff hsolid hk).1 hx <;> omega
  refine ⟨hat.congr (fun _ ht => .inl ht) (fun x => ?_) (if_neg (by omega)).symm, hframe, fun _ _ => ?_,
    fun _ _ k hk _ hne l hl => ?_, fun _ _ _ => ⟨?_, fun k hk _ hne => ?_⟩⟩
  · constructor
    · exact .inl
    rintro (hF | ⟨-, ⟨k, hk, hx⟩ | ⟨hle, -⟩⟩)
    · exact hF
    · exact absurd hx (hnone k hk x)
    · omega
  · have hmove := hroot.move hat
    rw [hA] at hmove
    exact hmove.2
  · have hmove := (hinner.index k hk (by rw [hA]; exact hne)).move hat
    rw [hA] at hmove
    rw [hmove.2, if_neg (by omega)]
  · have hmove := hroot.move hat
    rw [hA] at hmove
    exact hmove.1.settled
  · have hmove := (hinner.index k hk (by rw [hA]; exact hne)).move hat
    rw [hA] at hmove
    exact hmove.1.settled

/-- All blocks from `N` on are freed, and the tree on disk is cut but for the first-level block. -/
theorem Placed.cut (h : Placed s i) (hsolid : ∀ bn < N, 0 ∉ blockPath s.disk (s.icache i).din bn) :
    ∃ T A, At s (cutBlocks s i N) i T (Beyond s.disk (s.icache i).din N) A ∧
      (∀ c, T c → IsIndex s.disk (s.icache i).din c) ∧
      CutTree s.disk (cutBlocks s i N).disk (s.icache i).din { (s.icache i).din with addrs := A } N ∧
      (RootFits s.disk (s.icache i).din N → ∀ c, IsIndex s.disk (s.icache i).din c → Upto s.disk (s.icache i).din N c →
        (cutBlocks s i N).bread c = (cutBlocks s i N).disk c) := by
  obtain ⟨s3, hs3, hat, hsingle, hread⟩ := h.cut_single N
  unfold cutBlocks
  rw [hs3]
  obtain ⟨hreached, hframe, hroot, hinner, hsettled⟩ :=
    h.cut_double hat (by simp) (fun c hc => hc.1) hsolid
  -- the single-indirect block is left alone by the double-indirect part
  have hkeep := fun h11 : (s.icache i).din.addrs 11 ≠ 0 =>
    hframe _ (h.block _ (@addr_mem s.disk _ 11 (by decide) h11)).2.2.1 fun h12 => by
      rintro (heq | ⟨k, hk, ⟨-, hne⟩, heq⟩)
      · exact h.double_distinct h12 heq.symm
      · exact (h.inner_distinct h12 hk hne).2.1 heq
  refine ⟨_, _, hreached.congr (fun _ ht => ht) (fun x => (beyond_parts hsolid).symm) rfl, ?_,
    ⟨fun k => ?_, fun hlt h11 j hj => ?_, hroot, hinner⟩, fun hfits c hidx hup => ?_⟩
  · rintro c (⟨rfl, hne⟩ | ⟨h12, rfl | ⟨k, hk, ⟨-, hne⟩, rfl⟩⟩)
    · exact ⟨hne, .inl rfl⟩
    · exact double_index h12
    · exact Placed.inner_index h12 hk hne
  · have hcases : k < 12 ∧ slotBase k = k ∨ k = 12 ∨ 13 ≤ k := by
      unfold slotBase
      by_cases h1 : k < 11
      · simp [h1]
        omega
      · by_cases h2 : k = 11
        · simp [h2]
        · omega
    dsimp only
    rcases hcases with ⟨hlt, hbase⟩ | rfl | htail
    · have hne : k ≠ 12 := by omega
      rw [hbase]
      split
      · simp only [update_of_ne hne, hlt, true_and]
      · simp only [hlt, true_and]
    · rw [show slotBase 12 = 267 from rfl]
      split
      · rw [update_self]
      · simp
    -- past the last entry
    have hne : k ≠ 12 := by omega
    have hzero := h.fits.tail k htail
    split <;> simp [update_of_ne hne, hzero]
  · rw [(hkeep h11).1, hsingle hlt h11 j hj]
  obtain ⟨hne, rfl | ⟨h12, rfl | ⟨k, hk, rfl⟩⟩⟩ := hidx
  · have hN : 11 < N := @Upto.apart s.disk _ N _ 1 hup h.nodup 11 0 (by decide) (by decide) (by decide)
      node_single
    rw [bread, (hkeep hne).1, (hkeep hne).2]
    exact hread hN hne
  · have hN : 267 < N := @Upto.apart s.disk _ N _ 2 hup h.nodup 12 0 (by decide) (by decide) (by decide)
      node_double
    exact (hsettled hN h12 hfits).1
  have hN := @Upto.apart s.disk _ N _ 1 hup h.nodup 12 (256 * k) (by decide) (by decide)
    (show 256 * k < 65536 by omega) (node_double_inner h12)
  rw [firstOf, show slotBase 12 = 267 from rfl, pow_one] at hN
  exact (hsettled (by omega) h12 hfits).2 k hk (by omega) hne

end

/-! ## What is on disk afterwards -/

/-- Every buffer has been recycled: a read sees what was written. -/
def FileSys.recycled (s : FileSys) : FileSys := { s with buf := fun _ => none }

/-- The inode of cache entry `i` as it is on disk. -/
def FileSys.onDisk (s : FileSys) (i : Nat) : Dinode := s.sb.inode s.disk (s.icache i).inum

/-- The file has been cut at `len` on disk: it reaches the blocks of its first `len` bytes with their index
blocks and no other, its other blocks are free, and the bytes are the same. -/
structure TruncatedTo (s s' : FileSys) (i len : Nat) : Prop where
  inode : ∃ A, s'.onDisk i = { (s.icache i).din with size := len, addrs := A }
  reach : ∀ b, b ∈ (s'.onDisk i).blocks s'.disk ↔
    ∃ bn, bn * 1024 < len ∧ b ∈ blockPath s.disk (s.icache i).din bn
  free : ∀ b ∈ (s.icache i).din.blocks s.disk, b ∉ (s'.onDisk i).blocks s'.disk →
    s'.recycled.used b = false
  used : ∀ b ∈ (s'.onDisk i).blocks s'.disk, s'.recycled.used b = true
  bytes : ∀ k < len, byteAt s'.disk (s'.onDisk i) k = byteAt s.disk (s.icache i).din k

section

variable {s s' s1 : FileSys} {i N b c k len : Nat}

theorem CutTree.congr {rd rd' rd'' : Nat → Block} {d d' d'' : Dinode} (h : CutTree rd rd' d d' N)
    (hd : d''.addrs = d'.addrs) (hrd : ∀ c, IsIndex rd d c → rd'' c = rd' c) : CutTree rd rd'' d d'' N := by
  refine ⟨fun k => by rw [hd, h.addrs k], fun hN h11 j hj => ?_, fun hN h12 => ?_,
    fun hN h12 k hk hkN hne l hl => ?_⟩
  · rw [hrd _ ⟨h11, .inl rfl⟩, h.single hN h11 j hj]
  · rw [hrd _ ⟨h12, .inr ⟨h12, .inl rfl⟩⟩, h.root hN h12]
  · rw [hrd _ ⟨hne, .inr ⟨h12, .inr ⟨k, hk, rfl⟩⟩⟩, h.inner hN h12 k hk hkN hne l hl]

/-- The inode is written, and other blocks are what they were. -/
theorem iupdate_disk (s : FileSys) (hfits : (s.icache i).din.Fits) :
    (s.iupdate i).onDisk i = (s.icache i).din ∧
      ∀ c, c ≠ s.iblock (s.icache i).inum → (s.iupdate i).disk c = s.disk c := by
  refine ⟨?_, fun c hc => update_of_ne hc _ _⟩
  have hdisk : (s.iupdate i).disk (s.iblock (s.icache i).inum) =
      putDinode (s.bread (s.iblock (s.icache i).inum)) (inodeOff (s.icache i).inum) (s.icache i).din :=
    update_self _ _ _
  have hinode : (s.iupdate i).onDisk i =
      getDinode ((s.iupdate i).disk (s.iblock (s.icache i).inum)) (inodeOff (s.icache i).inum) := rfl
  rw [hinode, hdisk, getDinode_putDinode hfits]

theorem recycled_used (h : s.BitmapClean) (hb : b < s.sb.size) : s.recycled.used b = s.used b := by
  refine used_congr rfl (fun c hc => ?_) hb
  show s.disk c = (s.buf c).getD (s.disk c)
  rw [h c hc]
  rfl

theorem lt_cut_iff (h0 : 0 < len) (k : Nat) : k < (len - 1) / 1024 + 1 ↔ k * 1024 < len := by omega

/-- What the steps after the zeroing of the last block leave on disk. -/
structure CutOnDisk (s s' : FileSys) (i len : Nat) (A : Nat → Nat) : Prop where
  inode : s'.onDisk i = { (s.icache i).din with size := len, addrs := A }
  tree : CutTree s.disk s'.disk (s.icache i).din (s'.onDisk i) ((len - 1) / 1024 + 1)
  used : ∀ b < s.sb.size, s'.recycled.used b = true ↔
    s.used b = true ∧ ¬ Beyond s.disk (s.icache i).din ((len - 1) / 1024 + 1) b
  data : ∀ b ∈ (s.icache i).din.blocks s.disk, ¬ IsIndex s.disk (s.icache i).din b → s'.disk b = s.disk b

theorem Placed.cut_max (h : Placed s i) (h0 : 0 < len) (hlen : len < (s.icache i).din.size) :
    (len - 1) / 1024 + 1 ≤ maxFile ∧
      ∀ bn < (len - 1) / 1024 + 1, 0 ∉ blockPath s.disk (s.icache i).din bn := by
  have hsize := h.size
  unfold maxBytes at hsize
  unfold maxFile
  exact ⟨by omega, fun bn hbn => h.solid bn (by omega)⟩

/-- What the disk holds after the cut. -/
theorem Placed.cut_onDisk (h : Placed s i) (h0 : 0 < len) (hlen : len < (s.icache i).din.size) :
    ∃ A, CutOnDisk s (((cutBlocks s i ((len - 1) / 1024 + 1)).setSize i len).iupdate i) i len A := by
  obtain ⟨hmax, hsolid⟩ := h.cut_max h0 hlen
  obtain ⟨T, A, hat, hT, htree, -⟩ := h.cut hsolid
  generalize cutBlocks s i ((len - 1) / 1024 + 1) = s4 at hat htree
  have hinum : ((s4.setSize i len).icache i).inum = (s.icache i).inum := by
    show (update s4.icache i _ i).inum = _
    rw [update_self, hat.icache, update_self]
  have hdin : ((s4.setSize i len).icache i).din = { (s.icache i).din with size := len, addrs := A } := by
    show (update s4.icache i _ i).din = _
    rw [update_self, hat.din]
  have hblock : (s4.setSize i len).iblock ((s4.setSize i len).icache i).inum = s.iblock (s.icache i).inum := by
    rw [hinum]
    unfold iblock
    have hsb : (s4.setSize i len).sb = s.sb := hat.cut.sb
    rw [hsb]
  have hfits : ((s4.setSize i len).icache i).din.Fits := by
    rw [hdin]
    obtain ⟨htype, hmajor, hminor, hnlink, hsize, haddrs, htail⟩ := h.fits
    refine ⟨htype, hmajor, hminor, hnlink, lt_trans hlen hsize, fun k => ?_, fun k hk => ?_⟩
    · have hk' := htree.addrs k
      rw [hk']
      split
      · decide
      · exact haddrs k
    · have hk' := htree.addrs k
      rw [hk', htail k hk, ite_self]
  obtain ⟨hinode, hother⟩ := iupdate_disk (s4.setSize i len) hfits
  rw [hdin] at hinode
  rw [hblock] at hother
  have hindex : ∀ b ∈ (s.icache i).din.blocks s.disk,
      ((s4.setSize i len).iupdate i).disk b = s4.disk b := fun b hb => hother b (h.block b hb).2.2.2.2
  refine ⟨A, hinode, ?_, fun b hb => ?_, fun b hb hidx => ?_⟩
  · exact htree.congr (by rw [hinode]) fun c hc => hindex c hc.mem
  · have hstep : Cut s ((s4.setSize i len).iupdate i) _ _ :=
      (hat.cut.trans (setDin_cut i _)).trans (bwrite_cut (s := s4.setSize i len) (by
        rw [hblock]
        exact fun hbit => h.table ((isBitmap_congr hat.cut.sb _).1 hbit)) _)
    have hsize : b < ((s4.setSize i len).iupdate i).sb.size := by
      rw [hstep.sb]
      exact hb
    rw [recycled_used (hstep.clean h.clean) hsize, hstep.used b hb]
    simp
  · rw [hindex b hb]
    exact (hat.cut.same b (h.block b hb).2.2.1 fun ht => hidx (hT b ht)).1

/-- A byte that stays: the way to it is the old one, and its block has not been written. -/
theorem CutOnDisk.byteAt_eq {A : Nat → Nat} (hc : CutOnDisk s s' i len A) (h : Placed s i) (h0 : 0 < len)
    (hlen : len < (s.icache i).din.size) (hk : k < len) :
    byteAt s'.disk (s'.onDisk i) k = byteAt s.disk (s.icache i).din k := by
  obtain ⟨hmax, hsolid⟩ := h.cut_max h0 hlen
  have hbn : k / 1024 < (len - 1) / 1024 + 1 := by omega
  have hbn' := lt_of_lt_of_le hbn hmax
  have hpath := hc.tree.path hbn hbn' (hsolid _ hbn)
  have hblock : blockAt s'.disk (s'.onDisk i) (k / 1024) = blockAt s.disk (s.icache i).din (k / 1024) := by
    unfold blockAt
    rw [hpath]
  obtain ⟨sl, hsl, j, hj, hnode, hne⟩ := blockAt_node hbn' (hsolid _ hbn)
  have hmem := node_mem_blocks hsl (Nat.zero_le _) hj (by rw [hnode]; exact hne)
  rw [hnode] at hmem
  unfold byteAt
  rw [hblock, hc.data _ hmem (blockAt_not_index h.nodup hbn' (hsolid _ hbn))]

/-- The disk has the shorter file exactly when the doubly indirect block was written back, or need not be.
-/
theorem CutOnDisk.truncated_iff {A : Nat → Nat} (hc : CutOnDisk s s' i len A) (h : Placed s i) (h0 : 0 < len)
    (hlen : len < (s.icache i).din.size) :
    TruncatedTo s s' i len ↔ RootFits s.disk (s.icache i).din ((len - 1) / 1024 + 1) := by
  obtain ⟨hmax, hsolid⟩ := h.cut_max h0 hlen
  have hupto : ∀ b, Upto s.disk (s.icache i).din ((len - 1) / 1024 + 1) b ↔
      ∃ bn, bn * 1024 < len ∧ b ∈ blockPath s.disk (s.icache i).din bn := by
    intro b
    simp only [upto_iff_path hmax hsolid, lt_cut_iff h0]
  have hmem : ∀ b, Upto s.disk (s.icache i).din ((len - 1) / 1024 + 1) b →
      b ∈ (s.icache i).din.blocks s.disk := by
    intro b hb
    obtain ⟨sl, hsl, k, hk, j, hj, rfl, -⟩ := hb.node
    exact node_mem_blocks hsl hk hj hb.1
  constructor
  · intro ht
    by_contra hno
    -- an entry of the first-level block has to go, and is still there
    simp only [RootFits, not_or, not_le, not_forall] at hno
    obtain ⟨hbig, k, hk, hkN, hne⟩ := hno
    have h12 : (s.icache i).din.addrs 12 ≠ 0 := by
      intro hzero
      refine hsolid 267 hbig ?_
      exact mem_cons.2 (.inl hzero.symm)
    have hreach := (hupto _).2 ((ht.reach _).1 (hc.tree.stale hbig h12 hk hne))
    refine (beyond_iff h.nodup (hmem _ hreach)).1 ?_ hreach
    exact ⟨hne, .inr (.inr ⟨h12, .inr ⟨k, hk, hne, .inl ⟨hkN, rfl⟩⟩⟩)⟩
  intro hfits
  have hreach : ∀ b, b ∈ (s'.onDisk i).blocks s'.disk ↔
      ∃ bn, bn * 1024 < len ∧ b ∈ blockPath s.disk (s.icache i).din bn := by
    intro b
    rw [hc.tree.reach hmax hfits hsolid]
    simp only [lt_cut_iff h0]
  refine ⟨⟨A, hc.inode⟩, hreach, fun b hb hnot => ?_, fun b hb => ?_, fun k hk => hc.byteAt_eq h h0 hlen hk⟩
  · have hbeyond := (beyond_iff h.nodup hb).2 fun hup => hnot ((hreach b).2 ((hupto b).1 hup))
    rw [Bool.eq_false_iff]
    exact fun hused => ((hc.used b (h.block b hb).1).1 hused).2 hbeyond
  have hup := (hupto b).2 ((hreach b).1 hb)
  have hold := hmem b hup
  refine (hc.used b (h.block b hold).1).2 ⟨(h.block b hold).2.1, fun hbeyond => ?_⟩
  exact (beyond_iff h.nodup hold).1 hbeyond hup

/-! ## The last block -/

theorem path_congr {rd rd' : Nat → Block} {d : Dinode} {bn : Nat} (hmax : bn < maxFile)
    (hsolid : 0 ∉ blockPath rd d bn) (hrd : ∀ c, IsIndex rd d c → rd' c = rd c) :
    blockPath rd' d bn = blockPath rd d bn := by
  unfold maxFile at hmax
  unfold blockPath at hsolid ⊢
  split
  · rfl
  rename_i hge
  rw [if_neg hge] at hsolid
  split
  · rename_i hlt
    rw [if_pos hlt] at hsolid
    simp only [mem_cons, not_mem_nil, or_false, not_or] at hsolid
    unfold indexEntry
    rw [hrd _ ⟨Ne.symm hsolid.1, .inl rfl⟩]
  rename_i hge'
  rw [if_neg hge'] at hsolid
  simp only [mem_cons, not_mem_nil, or_false, not_or] at hsolid
  obtain ⟨h12, hinner, -⟩ := hsolid
  have hroot := hrd _ ⟨Ne.symm h12, .inr ⟨Ne.symm h12, .inl rfl⟩⟩
  have hentry := hrd (indexEntry rd (d.addrs 12) ((bn - 267) / 256))
    ⟨Ne.symm hinner, .inr ⟨Ne.symm h12, .inr ⟨_, by omega, rfl⟩⟩⟩
  unfold indexEntry at hentry ⊢
  rw [hroot]
  dsimp only
  rw [hentry]

/-- A write to a data block leaves the tree as it is. -/
theorem Placed.bwrite_direct (h : Placed s i) (hk : k < 11) (hne : (s.icache i).din.addrs k ≠ 0) (data : Block) :
    Placed (s.bwrite ((s.icache i).din.addrs k) data) i ∧
      (s.icache i).din.blocks (s.bwrite ((s.icache i).din.addrs k) data).disk =
        (s.icache i).din.blocks s.disk ∧
      ∀ c, IsIndex s.disk (s.icache i).din c →
        (s.bwrite ((s.icache i).din.addrs k) data).disk c = s.disk c := by
  have hmem := @addr_mem s.disk _ k (by omega) hne
  obtain ⟨hnode, hheight, -⟩ := @node_direct s.disk (s.icache i).din k hk
  have hindex : ∀ c, IsIndex s.disk (s.icache i).din c → c ≠ (s.icache i).din.addrs k := by
    rintro c hidx rfl
    obtain ⟨sl, hsl, k', hk', hpos, j, hj, heq⟩ := hidx.node
    have hsame := @blocks_node_inj s.disk (s.icache i).din k sl 0 k' 0 j h.nodup (by omega) hsl
      (Nat.zero_le _) hk' (Nat.pow_pos (by decide)) hj (by rw [hnode]; exact hne) (hnode.trans heq.symm)
    omega
  have hdisk : ∀ c, IsIndex s.disk (s.icache i).din c →
      (s.bwrite ((s.icache i).din.addrs k) data).disk c = s.disk c := fun c hc =>
    update_of_ne (hindex c hc) _ _
  have hleaf : (s.icache i).din.addrs k ∈ (s.icache i).din.leaves s.disk := by
    have hfile := @fileBlock_direct s.disk (s.icache i).din k hk
    rw [← hfile]
    exact fileBlock_mem (by unfold maxFile; omega) (by rw [hfile]; exact hne)
  have hinner : ∀ c ∈ (s.icache i).din.inner s.disk, c ≠ (s.icache i).din.addrs k := by
    rintro c hc rfl
    exact Multiset.disjoint_left.1 (Multiset.nodup_add.1 h.nodup).2.2 hc hleaf
  have hblocks : (s.icache i).din.blocks (s.bwrite ((s.icache i).din.addrs k) data).disk =
      (s.icache i).din.blocks s.disk := by
    obtain ⟨h1, h2, -⟩ := @blocks_congr s.disk (s.bwrite ((s.icache i).din.addrs k) data).disk
      (s.icache i).din fun c hc => update_of_ne (hinner c hc) _ _
    unfold Dinode.blocks
    rw [h1, h2]
  have hcut := bwrite_cut (h.block _ hmem).2.2.1 data
  refine ⟨⟨h.wf, h.fits, h.size, fun bn hbn => ?_, ?_, fun b hb => ?_, h.table, hcut.clean h.clean⟩,
    hblocks, hdisk⟩
  · have hsize := h.size
    have hmax : bn < maxFile := by
      have hbn' : bn * 1024 < (s.icache i).din.size := hbn
      unfold maxBytes at hsize
      unfold maxFile
      omega
    exact (path_congr hmax (h.solid bn hbn) hdisk).symm ▸ h.solid bn hbn
  · exact hblocks.symm ▸ h.nodup
  have hb' : b ∈ (s.icache i).din.blocks s.disk := hblocks ▸ hb
  obtain ⟨hsize, hused, hbit, hbuf, htable⟩ := h.block b hb'
  refine ⟨hsize, ?_, hbit, ?_, htable⟩
  · exact (hcut.used b hsize).2 ⟨hused, id⟩
  rw [bread_bwrite]
  by_cases heq : b = (s.icache i).din.addrs k
  · rw [if_pos heq, heq]
    exact (update_self ((s.icache i).din.addrs k) data s.disk).symm
  · rw [if_neg heq, hbuf]
    exact (update_of_ne heq data s.disk).symm

theorem Intact.bwrite_other (h : Intact s i) (hb : b ∉ (s.icache i).din.blocks s.disk)
    (hbit : ¬ s.IsBitmap b) (data : Block) : Intact (s.bwrite b data) i := by
  have hne : ∀ c ∈ (s.icache i).din.blocks s.disk, c ≠ b := by
    rintro c hc rfl
    exact hb hc
  have hmem : ∀ c ∈ (s.icache i).din.blocks s.disk, (s.bwrite b data).disk c = s.disk c := fun c hc =>
    update_of_ne (hne c hc) _ _
  have hblocks : (s.icache i).din.blocks (s.bwrite b data).disk = (s.icache i).din.blocks s.disk := by
    obtain ⟨h1, h2, -⟩ := @blocks_congr s.disk (s.bwrite b data).disk (s.icache i).din fun c hc =>
      hmem c (Multiset.mem_add.2 (Or.inl hc))
    unfold Dinode.blocks
    rw [h1, h2]
  have hcut := bwrite_cut hbit data
  refine ⟨h.wf, h.fits, h.size, fun bn hbn => ?_, hblocks.symm ▸ h.nodup, fun c hc => ?_, h.table,
    hcut.clean h.clean⟩
  · have hsize := h.size
    have hmax : bn < maxFile := by
      have hbn' : bn * 1024 < (s.icache i).din.size := hbn
      unfold maxBytes at hsize
      unfold maxFile
      omega
    exact (path_congr hmax (h.solid bn hbn) fun c hc => hmem c hc.mem).symm ▸ h.solid bn hbn
  · obtain ⟨hsize, hused, hcbit, hbuf, htable⟩ := h.block c (hblocks ▸ hc)
    exact ⟨hsize, (hcut.used c hsize).2 ⟨hused, id⟩, hcbit,
      (update_of_ne (hne c (hblocks ▸ hc)) _ _).trans hbuf, htable⟩

theorem Intact.iupdate (h : Intact s i) : Intact (s.iupdate i) i :=
  h.bwrite_other (fun hmem => (h.block _ hmem).2.2.2.2 rfl) h.table _

/-- Only the disk and the inode matter. -/
theorem Intact.congr {s t : FileSys} (h : Intact s i) (hsb : t.sb = s.sb) (hdisk : t.disk = s.disk)
    (hbuf : t.buf = s.buf) (hinum : (t.icache i).inum = (s.icache i).inum)
    (hdin : (t.icache i).din = (s.icache i).din) : Intact t i := by
  obtain ⟨sb, disk, buf, icache⟩ := t
  subst hsb hdisk hbuf
  obtain ⟨hwf, hfits, hsize, hsolid, hnodup, hblock, htable, hclean⟩ := h
  constructor
  · exact hwf
  · rw [hdin]; exact hfits
  · rw [hdin]; exact hsize
  · rw [hdin]; exact hsolid
  · rw [hdin]; exact hnodup
  · rw [hdin, hinum]; exact hblock
  · rw [hinum]; exact htable
  · exact hclean

theorem Placed.direct_inj (h : Placed s i) {k k' : Nat} (hk : k < 11) (hk' : k' < 11)
    (hne : (s.icache i).din.addrs k ≠ 0) (heq : (s.icache i).din.addrs k = (s.icache i).din.addrs k') :
    k = k' := by
  obtain ⟨hnode, hheight, -⟩ := @node_direct s.disk (s.icache i).din k hk
  obtain ⟨hnode', -, -⟩ := @node_direct s.disk (s.icache i).din k' hk'
  exact (@blocks_node_inj s.disk (s.icache i).din k k' 0 0 0 0 h.nodup (by omega) (by omega)
    (Nat.zero_le _) (Nat.zero_le _) (Nat.pow_pos (by decide)) (Nat.pow_pos (by decide))
    (by rw [hnode]; exact hne) (hnode.trans (heq.trans hnode'.symm))).1

/-- What zeroing the rest of the last block leaves of the file. -/
structure SameFile (s s1 : FileSys) (i len : Nat) : Prop where
  icache : s1.icache = s.icache
  sb : s1.sb = s.sb
  placed : Placed s1 i
  blocks : (s.icache i).din.blocks s1.disk = (s.icache i).din.blocks s.disk
  index : ∀ c, IsIndex s.disk (s.icache i).din c → s1.disk c = s.disk c
  bytes : ∀ k < len, byteAt s1.disk (s.icache i).din k = byteAt s.disk (s.icache i).din k

/-- The rest of the last block is zeroed. -/
theorem Placed.zeroTail (h : Placed s i) (h0 : 0 < len) :
    SameFile s (s.zeroTail i ((len - 1) / 1024) (len % 1024)) i len := by
  unfold FileSys.zeroTail
  by_cases hdo : len % 1024 ≠ 0 ∧ (len - 1) / 1024 < 11 ∧ (s.icache i).din.addrs ((len - 1) / 1024) ≠ 0
  · obtain ⟨hpart, hlast, hne⟩ := hdo
    rw [if_pos ⟨hpart, hlast, hne⟩]
    have hmem := @addr_mem s.disk _ _ (by omega : (len - 1) / 1024 < 13) hne
    have hread := (h.block _ hmem).2.2.2.1
    rw [hread]
    obtain ⟨hintact, hblocks, hindex⟩ := h.bwrite_direct hlast hne fun k =>
      if len % 1024 ≤ k then 0 else s.disk ((s.icache i).din.addrs ((len - 1) / 1024)) k
    refine ⟨rfl, rfl, hintact, hblocks, hindex, fun k hk => ?_⟩
    -- the block of the byte is a direct one
    have hdirect : k / 1024 < 11 := by omega
    have hblock : ∀ rd, blockAt rd (s.icache i).din (k / 1024) = (s.icache i).din.addrs (k / 1024) := by
      intro rd
      rw [blockAt, blockPath, if_pos hdirect]
      rfl
    unfold byteAt
    rw [hblock, hblock]
    by_cases hbn : k / 1024 = (len - 1) / 1024
    · have hlt : ¬ len % 1024 ≤ k % 1024 := by omega
      rw [hbn]
      refine (congrFun (update_self _ _ _) (k % 1024)).trans ?_
      rw [if_neg hlt]
    refine congrFun (update_of_ne (fun heq => hbn ?_) _ _) (k % 1024)
    have hne' : (s.icache i).din.addrs (k / 1024) ≠ 0 := by
      rw [heq]
      exact hne
    exact h.direct_inj hdirect hlast hne' heq
  · rw [if_neg hdo]
    exact ⟨rfl, rfl, h, rfl, fun _ _ => rfl, fun _ _ => rfl⟩

/-- The same cut, seen from before the last block was zeroed. -/
theorem SameFile.truncated_iff (h : SameFile s s1 i len) (hold : Placed s i)
    (hlen : len < (s.icache i).din.size) : TruncatedTo s s' i len ↔ TruncatedTo s1 s' i len := by
  have hpath : ∀ bn, bn * 1024 < len →
      blockPath s1.disk (s.icache i).din bn = blockPath s.disk (s.icache i).din bn := by
    intro bn hbn
    have hsize := hold.size
    unfold maxBytes at hsize
    have hmax : bn < maxFile := by
      unfold maxFile
      omega
    exact path_congr hmax (hold.solid bn (by omega)) h.index
  have hreach : ∀ b, (∃ bn, bn * 1024 < len ∧ b ∈ blockPath s1.disk (s.icache i).din bn) ↔
      ∃ bn, bn * 1024 < len ∧ b ∈ blockPath s.disk (s.icache i).din bn := fun b =>
    exists_congr fun bn => and_congr_right fun hbn => by rw [hpath bn hbn]
  constructor
  · rintro ⟨hinode, hr, hfree, hused, hbytes⟩
    refine ⟨?_, ?_, ?_, hused, ?_⟩ <;> rw [h.icache]
    · exact hinode
    · exact fun b => (hr b).trans (hreach b).symm
    · rw [h.blocks]
      exact hfree
    · exact fun k hk => (hbytes k hk).trans (h.bytes k hk).symm
  rintro ⟨hinode, hr, hfree, hused, hbytes⟩
  rw [h.icache] at hinode hr hfree hbytes
  rw [h.blocks] at hfree
  exact ⟨hinode, fun b => (hr b).trans (hreach b), hfree, hused,
    fun k hk => (hbytes k hk).trans (h.bytes k hk)⟩

theorem Placed.itruncTo_cut (h : Placed s i) (h0 : 0 < len) (hlen : len < (s.icache i).din.size) :
    ∃ s1 A, SameFile s s1 i len ∧ CutOnDisk s1 (s.itruncTo i len) i len A := by
  have hzero := h.zeroTail h0
  have hsize : len < ((s.zeroTail i ((len - 1) / 1024) (len % 1024)).icache i).din.size := by
    rw [hzero.icache]
    exact hlen
  obtain ⟨A, hcut⟩ := hzero.placed.cut_onDisk h0 hsize
  refine ⟨_, A, hzero, ?_⟩
  unfold itruncTo
  rw [if_neg (Nat.not_le_of_lt hlen), if_neg (ne_of_gt h0)]
  exact hcut

/-- The condition is about index blocks, which are not zeroed. -/
theorem SameFile.rootFits_iff (h : SameFile s s1 i len) (hold : Placed s i) (h0 : 0 < len)
    (hlen : len < (s.icache i).din.size) :
    RootFits s1.disk (s1.icache i).din ((len - 1) / 1024 + 1) ↔
      RootFits s.disk (s.icache i).din ((len - 1) / 1024 + 1) := by
  unfold RootFits
  rw [h.icache]
  by_cases hsmall : (len - 1) / 1024 + 1 ≤ 267
  · simp [hsmall]
  have h12 : (s.icache i).din.addrs 12 ≠ 0 := by
    intro hz
    refine (hold.cut_max h0 hlen).2 267 (by omega) ?_
    exact mem_cons.2 (.inl hz.symm)
  rw [h.index _ (double_index h12)]

theorem Placed.itruncTo_iff (h : Placed s i) (h0 : 0 < len) (hlen : len < (s.icache i).din.size) :
    (RootFits s.disk (s.icache i).din ((len - 1) / 1024 + 1) → TruncatedTo s (s.itruncTo i len) i len) ∧
      (TruncatedTo s (s.itruncTo i len) i len →
        RootFits s.disk (s.icache i).din ((len - 1) / 1024 + 1)) := by
  obtain ⟨s1, A, hzero, hcut⟩ := h.itruncTo_cut h0 hlen
  have hsize : len < (s1.icache i).din.size := by
    rw [hzero.icache]
    exact hlen
  have hiff := hcut.truncated_iff hzero.placed h0 hsize
  rw [hzero.rootFits_iff h h0 hlen] at hiff
  rw [hzero.truncated_iff h hlen]
  exact ⟨hiff.2, hiff.1⟩

theorem itruncTo_zero_size (s : FileSys) (i : Nat) : ((s.itruncTo i 0).icache i).din.size = 0 := by
  have hset : ∀ t : FileSys, (((t.setSize i 0).iupdate i).icache i).din.size = 0 := by
    intro t
    show (update t.icache i { t.icache i with din := { (t.icache i).din with size := 0 } } i).din.size = 0
    rw [update_self]
  unfold itruncTo
  by_cases hsize : (s.icache i).din.size ≤ 0
  · rw [if_pos hsize]
    exact Nat.le_zero.1 hsize
  · rw [if_neg hsize, if_pos rfl]
    exact hset _

/-- Cutting a file is right on disk exactly when no entry of the first-level block of the double-indirect
tree has to go while the block stays. -/
theorem itruncTo_on_disk (h : Intact s i) (h0 : 0 < len) (hlen : len < (s.icache i).din.size) :
    TruncatedTo s (s.itruncTo i len) i len ↔
      RootFits s.disk (s.icache i).din ((len - 1) / 1024 + 1) := by
  obtain ⟨hright, hwrong⟩ := h.placed.itruncTo_iff h0 hlen
  exact ⟨hwrong, hright⟩

end

/-! ## A file with two inner index blocks -/

/-- The block with these entries. -/
def indexBlock (e : Nat → Nat) : Block := fun k => UInt8.ofNat (e (k / 4) / 256 ^ (k % 4))

theorem entryOf_indexBlock {e : Nat → Nat} {j : Nat} (h : e j < uintMod) : entryOf (indexBlock e) j = e j := by
  refine getLe_of_bytes h fun k hk => ?_
  have hdiv : (4 * j + k) / 4 = j := by omega
  have hmod : (4 * j + k) % 4 = k := by omega
  unfold indexBlock
  rw [hdiv, hmod]

/-- A file of 524 blocks, the last one below the second entry of the first-level block. -/
@[irreducible]
def twoInnerDin : Dinode :=
  { type := tFile, major := 0, minor := 0, nlink := 1, size := 536576
    addrs := fun k => if k < 13 then 30 + k else 0 }

/-- Its image: block 2 is the bitmap, block 3 holds the inode, 41 to 44 are index blocks. -/
def twoInnerDisk (c : Nat) : Block :=
  if c = 2 then fun _ => 255
  else if c = 41 then indexBlock (100 + ·)
  else if c = 42 then indexBlock fun k => if k < 2 then 43 + k else 0
  else if c = 43 then indexBlock (400 + ·)
  else if c = 44 then indexBlock fun l => if l = 0 then 700 else 0
  else fun _ => 0

/-- The file is inode 1, in entry 0 of the inode cache. -/
def twoInner : FileSys where
  sb := { size := 800, ninodes := 16, inodestart := 3, bmapstart := 2 }
  disk := twoInnerDisk
  buf _ := none
  icache _ := { dev := 0, inum := 1, ref := 1, valid := true, locked := true, din := twoInnerDin }

/-- The block at each place. -/
def twoInnerNode (sl k i : Nat) : Nat :=
  if sl < 11 then 30 + sl
  else if sl = 11 then if k = 1 then 41 else 100 + i
  else if k = 2 then 42
  else if k = 1 then if i / 256 < 2 then 43 + i / 256 else 0
  else if i < 256 then 400 + i else if i = 256 then 700 else 0

section

theorem twoInner_addrs (k : Nat) : twoInnerDin.addrs k = if k < 13 then 30 + k else 0 := by
  unfold twoInnerDin
  rfl

theorem twoInner_size : twoInnerDin.size = 536576 := by
  unfold twoInnerDin
  rfl

theorem twoInner_indirect : twoInnerDin.addrs 11 = 41 ∧ twoInnerDin.addrs 12 = 42 :=
  ⟨twoInner_addrs 11, twoInner_addrs 12⟩

theorem twoInner_entries : (∀ j < 256, entryOf (twoInnerDisk 41) j = 100 + j) ∧
    (∀ j, entryOf (twoInnerDisk 42) j = if j < 2 then 43 + j else 0) ∧
    (∀ j < 256, entryOf (twoInnerDisk 43) j = 400 + j) ∧
    ∀ j, entryOf (twoInnerDisk 44) j = if j = 0 then 700 else 0 := by
  refine ⟨fun j hj => ?_, fun j => ?_, fun j hj => ?_, fun j => ?_⟩
  · exact @entryOf_indexBlock (100 + ·) j (by unfold uintMod; omega)
  · exact @entryOf_indexBlock (fun k => if k < 2 then 43 + k else 0) j (by unfold uintMod; split <;> omega)
  · exact @entryOf_indexBlock (400 + ·) j (by unfold uintMod; omega)
  · exact @entryOf_indexBlock (fun l => if l = 0 then 700 else 0) j (by unfold uintMod; split <;> omega)

theorem twoInner_node {sl k i : Nat} (hsl : sl < 13) (hk : k ≤ slotHeight sl) (hi : i < 256 ^ slotHeight sl) :
    twoInnerDin.node twoInnerDisk sl k i = twoInnerNode sl k i := by
  obtain ⟨h41, h42, h43, h44⟩ := twoInner_entries
  obtain ⟨hsingle, hdouble⟩ := twoInner_indirect
  have hslots : sl < 11 ∨ sl = 11 ∨ sl = 12 := by omega
  rcases hslots with hlt | rfl | rfl
  · obtain ⟨hnode, hheight, -⟩ := @node_direct twoInnerDisk twoInnerDin sl hlt
    rw [hheight] at hk hi
    obtain rfl : k = 0 := by omega
    obtain rfl : i = 0 := by simpa using hi
    rw [hnode, twoInnerNode, if_pos hlt, twoInner_addrs, if_pos hsl]
  · have hk : k ≤ 1 := hk
    rcases lt_or_ge k 1 with h0 | h1
    · obtain rfl : k = 0 := by omega
      rw [node_single_leaf (by rw [hsingle]; decide), hsingle]
      exact h41 i hi
    · obtain rfl : k = 1 := by omega
      exact (@node_single twoInnerDisk twoInnerDin).trans hsingle
  have hk : k ≤ 2 := hk
  by_cases h2 : k = 2
  · subst h2
    exact nodeAt_self.trans hdouble
  rw [Dinode.node, hdouble, show slotHeight 12 = 1 + 1 from rfl,
    nodeAt_succ (fun h => h2 h.symm) (by decide), h42, pow_one]
  by_cases hinner : i / 256 < 2
  · rw [if_pos hinner]
    by_cases h1 : k = 1
    · subst h1
      rw [nodeAt_self]
      simp [twoInnerNode, hinner]
    obtain rfl : k = 0 := by omega
    rw [nodeAt_succ (by decide) (by omega), nodeAt_self, pow_zero, Nat.div_one]
    have hmod : i % 256 < 256 := Nat.mod_lt _ (by decide)
    have hcases : i / 256 = 0 ∨ i / 256 = 1 := by omega
    rcases hcases with h0 | h0
    · have hlt : i < 256 := by omega
      rw [h0, h43 _ hmod, Nat.mod_eq_of_lt hlt]
      simp [twoInnerNode, hlt]
    have hge : ¬ i < 256 := by omega
    have hiff : i % 256 = 0 ↔ i = 256 := by omega
    rw [h0, h44]
    simp [twoInnerNode, hge, hiff]
  rw [if_neg hinner, nodeAt_empty]
  have hge : ¬ i < 256 := by omega
  have hne : ¬ i = 256 := by omega
  simp [twoInnerNode, hinner, h2, hge, hne]

/-- The slot, the height and the index of a block of the file. -/
def twoInnerPlace (b : Nat) : Nat × Nat × Nat :=
  if b < 41 then (b - 30, 0, 0)
  else if b = 41 then (11, 1, 0)
  else if b = 42 then (12, 2, 0)
  else if b < 45 then (12, 1, b - 43)
  else if b < 400 then (11, 0, b - 100)
  else if b < 700 then (12, 0, b - 400)
  else (12, 0, 256)

theorem twoInner_place {sl k i : Nat} (hsl : sl < 13) (hk : k ≤ slotHeight sl) (hi : i < 256 ^ slotHeight sl)
    (hne : twoInnerNode sl k i ≠ 0) : twoInnerPlace (twoInnerNode sl k i) = (sl, k, i / 256 ^ k) := by
  have hslots : sl < 11 ∨ sl = 11 ∨ sl = 12 := by omega
  rcases hslots with hlt | rfl | rfl
  · rw [show slotHeight sl = 0 from if_pos hlt] at hk hi
    obtain rfl : k = 0 := by omega
    obtain rfl : i = 0 := by simpa using hi
    have hdirect : 30 + sl < 41 := by omega
    simp [twoInnerNode, twoInnerPlace, hlt, hdirect]
  · have hk : k ≤ 1 := hk
    have hi : i < 256 := hi
    have hcases : k = 0 ∨ k = 1 := by omega
    rcases hcases with rfl | rfl
    · have h1 : ¬ 100 + i < 41 := by omega
      have h2 : ¬ 100 + i = 41 := by omega
      have h3 : ¬ 100 + i = 42 := by omega
      have h4 : ¬ 100 + i < 45 := by omega
      have h5 : 100 + i < 400 := by omega
      simp [twoInnerNode, twoInnerPlace, h1, h2, h3, h4, h5]
    · rw [pow_one, Nat.div_eq_of_lt hi]
      rfl
  have hk : k ≤ 2 := hk
  have hi : i < 65536 := hi
  have hcases : k = 0 ∨ k = 1 ∨ k = 2 := by omega
  rcases hcases with rfl | rfl | rfl
  · by_cases hlt : i < 256
    · have h1 : ¬ 400 + i < 41 := by omega
      have h2 : ¬ 400 + i = 41 := by omega
      have h3 : ¬ 400 + i = 42 := by omega
      have h4 : ¬ 400 + i < 45 := by omega
      have h5 : 400 + i < 700 := by omega
      simp [twoInnerNode, twoInnerPlace, hlt, h1, h2, h3, h4, h5]
    by_cases heq : i = 256
    · subst heq
      decide
    · simp [twoInnerNode, hlt, heq] at hne
  · by_cases hlt : i / 256 < 2
    · have h1 : ¬ 43 + i / 256 < 41 := by omega
      have h2 : ¬ 43 + i / 256 = 41 := by omega
      have h3 : ¬ 43 + i / 256 = 42 := by omega
      have h4 : 43 + i / 256 < 45 := by omega
      simp [twoInnerNode, twoInnerPlace, hlt, h1, h2, h3, h4]
    · simp [twoInnerNode, hlt] at hne
  · rw [show 256 ^ 2 = 65536 from rfl, Nat.div_eq_of_lt hi]
    rfl

theorem twoInner_nodup : (twoInnerDin.blocks twoInnerDisk).Nodup := by
  refine @nodup_blocks twoInnerDisk twoInnerDin fun sl hsl sl' hsl' k hk k' hk' i hi i' hi' hne heq => ?_
  rw [twoInner_node hsl hk hi] at hne heq
  rw [twoInner_node hsl' hk' hi'] at heq
  have hplace := twoInner_place hsl hk hi hne
  rw [heq, twoInner_place hsl' hk' hi' (by rw [← heq]; exact hne)] at hplace
  simp only [Prod.mk.injEq] at hplace
  obtain ⟨rfl, rfl, hdiv⟩ := hplace
  exact ⟨rfl, rfl, hdiv.symm⟩

/-- All blocks of the file lie between 30 and 700. -/
theorem twoInner_block {b : Nat} (hb : b ∈ twoInnerDin.blocks twoInnerDisk) : 30 ≤ b ∧ b ≤ 700 := by
  obtain ⟨hne, sl, hsl, k, hk, i, hi, hnode⟩ := @mem_blocks twoInnerDisk twoInnerDin b hb
  rw [twoInner_node hsl hk hi] at hnode
  have hslots : sl < 11 ∨ sl = 11 ∨ sl = 12 := by omega
  subst hnode
  unfold twoInnerNode at hne ⊢
  rcases hslots with hlt | rfl | rfl
  · rw [if_pos hlt]
    omega
  · have hi : i < 256 := hi
    simp only [show ¬ 11 < 11 by decide, if_false, if_true]
    split <;> omega
  simp only [show ¬ 12 < 11 by decide, show ¬ 12 = 11 by decide, if_false] at hne ⊢
  split at hne <;> rename_i h2
  · rw [if_pos h2]
    decide
  rw [if_neg h2]
  split at hne <;> rename_i h1
  · rw [if_pos h1]
    split at hne <;> rename_i h3
    · rw [if_pos h3]
      omega
    · exact absurd rfl hne
  rw [if_neg h1]
  split at hne <;> rename_i h3
  · rw [if_pos h3]
    omega
  rw [if_neg h3]
  split at hne <;> rename_i h4
  · rw [if_pos h4]
    decide
  · exact absurd rfl hne

theorem twoInner_solid : NoHoles twoInnerDisk twoInnerDin := by
  intro bn hbn
  rw [twoInner_size] at hbn
  obtain ⟨h41, h42, h43, h44⟩ := twoInner_entries
  obtain ⟨hsingle, hdouble⟩ := twoInner_indirect
  unfold blockPath
  split
  · rename_i hlt
    rw [twoInner_addrs, if_pos (by omega), mem_singleton]
    omega
  split
  · rename_i hlt
    have hentry : indexEntry twoInnerDisk 41 (bn - 11) = 100 + (bn - 11) := h41 _ hlt
    rw [hsingle, hentry]
    simp only [mem_cons, not_mem_nil, or_false]
    omega
  have hcases : (bn - 267) / 256 = 0 ∨ (bn - 267) / 256 = 1 ∧ (bn - 267) % 256 = 0 := by omega
  have hroot : ∀ k, indexEntry twoInnerDisk 42 k = if k < 2 then 43 + k else 0 := h42
  dsimp only
  rw [hdouble, hroot]
  rcases hcases with h0 | ⟨h0, hmod⟩
  · have hleaf : indexEntry twoInnerDisk 43 ((bn - 267) % 256) = 400 + (bn - 267) % 256 :=
      h43 _ (Nat.mod_lt _ (by decide))
    rw [h0, if_pos (by decide), hleaf]
    simp only [mem_cons, not_mem_nil, or_false]
    omega
  · have hleaf : indexEntry twoInnerDisk 44 0 = 700 := h44 0
    rw [h0, hmod, if_pos (by decide), hleaf]
    simp

theorem twoInner_fits : twoInnerDin.Fits := by
  refine ⟨?_, ?_, ?_, ?_, ?_, fun k => ?_, fun k hk => ?_⟩
  · unfold twoInnerDin
    decide
  · unfold twoInnerDin
    decide
  · unfold twoInnerDin
    decide
  · unfold twoInnerDin
    decide
  · rw [twoInner_size]
    decide
  · rw [twoInner_addrs]
    unfold uintMod
    split <;> omega
  · rw [twoInner_addrs, if_neg (by omega)]

theorem twoInner_intact : Intact twoInner 0 := by
  have hbblock : ∀ b < 800, twoInner.bblock b = 2 := by
    intro b hb
    have hdiv : b / 8192 = 0 := by omega
    unfold bblock
    rw [hdiv]
    rfl
  have hbitmap : ∀ c, twoInner.IsBitmap c ↔ c = 2 := by
    intro c
    constructor
    · rintro ⟨b, hb, rfl⟩
      exact hbblock b hb
    · rintro rfl
      exact ⟨0, by decide, rfl⟩
  refine ⟨⟨by decide, fun b hb => ?_⟩, twoInner_fits, twoInner_size.trans_le (by decide), twoInner_solid,
    twoInner_nodup, fun b hb => ?_, ?_, fun _ _ => rfl⟩
  · have hb : b < 800 := hb
    show b / 8192 + 2 < 800
    omega
  · obtain ⟨hlo, hhi⟩ := twoInner_block hb
    refine ⟨by show b < 800; omega, ?_, fun hbit => ?_, rfl, ?_⟩
    · have hmod : b % 8 < 8 := Nat.mod_lt _ (by decide)
      have hones : ∀ j < 8, (255 : UInt8).toNat.testBit j = true := by decide
      unfold used
      rw [hbblock b (by omega)]
      exact hones _ hmod
    · have := (hbitmap b).1 hbit
      omega
    · show b ≠ 3
      omega
  · rw [hbitmap]
    decide

/-- A cut inside the last block. -/
theorem itruncTo_last_block : TruncatedTo twoInner (twoInner.itruncTo 0 536575) 0 536575 := by
  have hlen : 536575 < (twoInner.icache 0).din.size := by
    show 536575 < twoInnerDin.size
    rw [twoInner_size]
    decide
  refine (itruncTo_on_disk twoInner_intact (by decide) hlen).2 (.inr fun k _ hk => ?_)
  have hroot : entryOf (twoInnerDisk (twoInnerDin.addrs 12)) k = if k < 2 then 43 + k else 0 := by
    rw [twoInner_indirect.2]
    exact twoInner_entries.2.1 k
  exact hroot.trans (if_neg (by omega))

/-- A cut to 268 blocks: the second inner index block is freed, and is still reached. -/
theorem itruncTo_leaves_freed_block : ¬ ∀ (s : FileSys) (i len : Nat), Intact s i → 0 < len →
    len < (s.icache i).din.size → TruncatedTo s (s.itruncTo i len) i len := by
  intro h
  have hlen : 274432 < (twoInner.icache 0).din.size := by
    show 274432 < twoInnerDin.size
    rw [twoInner_size]
    decide
  have hcut := h twoInner 0 274432 twoInner_intact (by decide) hlen
  have hfits := (twoInner_intact.placed.itruncTo_iff (by decide) hlen).2 hcut
  have hroot : entryOf (twoInnerDisk (twoInnerDin.addrs 12)) 1 = 44 := by
    rw [twoInner_indirect.2]
    exact (twoInner_entries.2.1 1).trans (if_pos (by decide))
  rcases hfits with hsmall | hnone
  · exact absurd hsmall (by decide)
  · have hzero : entryOf (twoInnerDisk (twoInnerDin.addrs 12)) 1 = 0 := hnone 1 (by decide) (by decide)
    rw [hroot] at hzero
    exact absurd hzero (by decide)

end

end Slopix.Fs
