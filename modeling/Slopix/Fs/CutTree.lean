import Slopix.Fs.FileTree

/-!
# Cutting a file at a block

The blocks of a file on both sides of a cut after its first `N` blocks. `CutTree` describes what
`fs_itrunc_to` leaves of the trees on disk: they are cut, except that the first-level block of the
double-indirect tree is as it was.
-/

namespace Slopix.Fs

open Lib Multiset Dinode

/-! ## The blocks below a cut -/

/-- The blocks of the first `N` file blocks, with their index blocks. -/
def Upto (rd : Nat → Block) (d : Dinode) (N b : Nat) : Prop :=
  b ≠ 0 ∧ ((∃ k < 11, k < N ∧ d.addrs k = b) ∨
    (11 < N ∧ d.addrs 11 ≠ 0 ∧
      (b = d.addrs 11 ∨ ∃ j < 256, 11 + j < N ∧ entryOf (rd (d.addrs 11)) j = b)) ∨
    (267 < N ∧ d.addrs 12 ≠ 0 ∧ (b = d.addrs 12 ∨ ∃ k < 256, 267 + 256 * k < N ∧
      entryOf (rd (d.addrs 12)) k ≠ 0 ∧ (b = entryOf (rd (d.addrs 12)) k ∨ ∃ l < 256,
        267 + 256 * k + l < N ∧ entryOf (rd (entryOf (rd (d.addrs 12)) k)) l = b))))

/-- The first file block that needs the block at height `k` on the way to index `i` below an entry. -/
def firstOf (sl k i : Nat) : Nat := slotBase sl + i / 256 ^ k * 256 ^ k

section

variable {rd : Nat → Block} {d : Dinode} {N b k l j : Nat}

theorem node_direct (h : k < 11) : d.node rd k 0 0 = d.addrs k ∧ slotHeight k = 0 ∧ firstOf k 0 0 = k := by
  have hheight : slotHeight k = 0 := if_pos h
  refine ⟨?_, hheight, ?_⟩
  · rw [node, hheight]
    rfl
  · simp [firstOf, slotBase, h]

theorem node_single : d.node rd 11 1 0 = d.addrs 11 := nodeAt_self

theorem node_single_leaf (h : d.addrs 11 ≠ 0) : d.node rd 11 0 j = entryOf (rd (d.addrs 11)) j := by
  rw [node, show slotHeight 11 = 0 + 1 from rfl, nodeAt_succ (by decide) h, nodeAt_self, pow_zero,
    Nat.div_one]

theorem node_double : d.node rd 12 2 0 = d.addrs 12 := nodeAt_self

theorem node_double_inner (h : d.addrs 12 ≠ 0) :
    d.node rd 12 1 (256 * k) = entryOf (rd (d.addrs 12)) k := by
  rw [node, show slotHeight 12 = 1 + 1 from rfl, nodeAt_succ (by decide) h, nodeAt_self, pow_one,
    Nat.mul_div_cancel_left _ (by decide)]

theorem node_double_leaf (h : d.addrs 12 ≠ 0) (hk : entryOf (rd (d.addrs 12)) k ≠ 0) (hl : l < 256) :
    d.node rd 12 0 (256 * k + l) = entryOf (rd (entryOf (rd (d.addrs 12)) k)) l := by
  have hdiv : (256 * k + l) / 256 ^ 1 = k := by omega
  have hmod : (256 * k + l) % 256 ^ 1 = l := by omega
  rw [node, show slotHeight 12 = 1 + 1 from rfl, nodeAt_succ (by decide) h, hdiv, hmod,
    nodeAt_succ (by decide) hk, nodeAt_self, pow_zero, Nat.div_one]

/-- A block that a walk through the tree comes to, with what `P` says of the place, is a node whose first data block
satisfies `P`. -/
theorem node_of_place {P : Nat → Prop} (h : (∃ k < 11, P k ∧ d.addrs k = b) ∨
    (d.addrs 11 ≠ 0 ∧
      (P 11 ∧ b = d.addrs 11 ∨ ∃ j < 256, P (11 + j) ∧ entryOf (rd (d.addrs 11)) j = b)) ∨
    (d.addrs 12 ≠ 0 ∧ (P 267 ∧ b = d.addrs 12 ∨ ∃ k < 256, entryOf (rd (d.addrs 12)) k ≠ 0 ∧
      (P (267 + 256 * k) ∧ b = entryOf (rd (d.addrs 12)) k ∨ ∃ l < 256,
        P (267 + 256 * k + l) ∧ entryOf (rd (entryOf (rd (d.addrs 12)) k)) l = b)))) :
    ∃ sl < 13, ∃ k ≤ slotHeight sl, ∃ i < 256 ^ slotHeight sl,
      d.node rd sl k i = b ∧ P (firstOf sl k i) := by
  obtain ⟨k, hk, hP, rfl⟩ | ⟨h11, ⟨hP, rfl⟩ | ⟨j, hj, hP, rfl⟩⟩ |
    ⟨h12, ⟨hP, rfl⟩ | ⟨k, hk, hne, ⟨hP, rfl⟩ | ⟨l, hl, hP, rfl⟩⟩⟩ := h
  · obtain ⟨hnode, hheight, hfirst⟩ := @node_direct rd d k hk
    exact ⟨k, by omega, 0, Nat.zero_le _, 0, Nat.pow_pos (by decide), hnode, by rwa [hfirst]⟩
  · exact ⟨11, by decide, 1, by decide, 0, by decide, node_single, hP⟩
  · exact ⟨11, by decide, 0, by decide, j, hj, node_single_leaf h11, by simpa [firstOf, slotBase] using hP⟩
  · exact ⟨12, by decide, 2, by decide, 0, by decide, node_double, hP⟩
  · refine ⟨12, by decide, 1, by decide, 256 * k, ?_, node_double_inner h12, ?_⟩
    · show 256 * k < 65536
      omega
    · rw [firstOf, show slotBase 12 = 267 from rfl, pow_one, Nat.mul_div_cancel_left _ (by decide), mul_comm k]
      exact hP
  refine ⟨12, by decide, 0, by decide, 256 * k + l, ?_, node_double_leaf h12 hne hl, ?_⟩
  · show 256 * k + l < 65536
    omega
  · rw [firstOf, show slotBase 12 = 267 from rfl, pow_zero, Nat.div_one, mul_one, ← add_assoc]
    exact hP

/-- A block of the first `N` is a node whose first data block is below `N`. -/
theorem Upto.node (h : Upto rd d N b) : ∃ sl < 13, ∃ k ≤ slotHeight sl, ∃ i < 256 ^ slotHeight sl,
    d.node rd sl k i = b ∧ firstOf sl k i < N := by
  apply node_of_place (P := (· < N))
  obtain ⟨-, h1 | ⟨hN, h11, hb | hj⟩ | ⟨hN, h12, hb | ⟨k, hk, hkN, hne, hb | hl⟩⟩⟩ := h
  · exact .inl h1
  · exact .inr (.inl ⟨h11, .inl ⟨hN, hb⟩⟩)
  · exact .inr (.inl ⟨h11, .inr hj⟩)
  · exact .inr (.inr ⟨h12, .inl ⟨hN, hb⟩⟩)
  · exact .inr (.inr ⟨h12, .inr ⟨k, hk, hne, .inl ⟨hkN, hb⟩⟩⟩)
  · exact .inr (.inr ⟨h12, .inr ⟨k, hk, hne, .inr hl⟩⟩)

theorem Upto.apart (h : Upto rd d N b) (hnd : (d.blocks rd).Nodup) {sl i : Nat} (hsl : sl < 13)
    (hk : k ≤ slotHeight sl) (hi : i < 256 ^ slotHeight sl) (hnode : d.node rd sl k i = b) :
    firstOf sl k i < N := by
  obtain ⟨sl', hsl', k', hk', i', hi', hnode', hfirst⟩ := h.node
  have hne : d.node rd sl k i ≠ 0 := hnode ▸ h.1
  obtain ⟨rfl, rfl, hdiv⟩ :=
    blocks_node_inj hnd hsl hsl' hk hk' hi hi' hne (hnode.trans hnode'.symm)
  unfold firstOf at hfirst ⊢
  rw [hdiv]
  exact hfirst

/-- The blocks of a file are those up to its end. -/
theorem mem_blocks_iff : b ∈ d.blocks rd ↔ Upto rd d maxFile b := by
  constructor
  · intro hb
    obtain ⟨hne, sl, hsl, k, hk, i, hi, hnode⟩ := mem_blocks hb
    refine ⟨hne, ?_⟩
    unfold maxFile
    rcases lt_or_ge sl 11 with hlt | hge
    · obtain ⟨hdirect, hheight, -⟩ := @node_direct rd d sl hlt
      rw [hheight] at hk hi
      obtain rfl : k = 0 := by omega
      obtain rfl : i = 0 := by simpa using hi
      exact .inl ⟨sl, hlt, by omega, hdirect.symm.trans hnode⟩
    rcases lt_or_ge sl 12 with hlt' | hge'
    · obtain rfl : sl = 11 := by omega
      have h11 : d.addrs 11 ≠ 0 := by
        intro h0
        rw [node, h0, nodeAt_empty] at hnode
        exact hne hnode.symm
      refine .inr (.inl ⟨by decide, h11, ?_⟩)
      have hk : k ≤ 1 := hk
      rcases lt_or_ge k 1 with hk0 | hk1
      · obtain rfl : k = 0 := by omega
        have hi : i < 256 := hi
        exact .inr ⟨i, hi, by omega, (node_single_leaf h11).symm.trans hnode⟩
      · obtain rfl : k = 1 := by omega
        refine .inl (hnode.symm.trans ?_)
        exact nodeAt_self
    obtain rfl : sl = 12 := by omega
    have h12 : d.addrs 12 ≠ 0 := by
      intro h0
      rw [node, h0, nodeAt_empty] at hnode
      exact hne hnode.symm
    refine .inr (.inr ⟨by decide, h12, ?_⟩)
    have hk : k ≤ 2 := hk
    have hi : i < 65536 := hi
    have hstep : k ≠ 2 → d.node rd 12 k i =
        nodeAt entryOf 256 rd k 1 (entryOf (rd (d.addrs 12)) (i / 256)) (i % 256) := fun h2 => by
      rw [node, show slotHeight 12 = 1 + 1 from rfl, nodeAt_succ (fun h => h2 h.symm) h12, pow_one]
    by_cases h2 : k = 2
    · subst h2
      exact .inl (hnode.symm.trans nodeAt_self)
    rw [hstep h2] at hnode
    have hinner : entryOf (rd (d.addrs 12)) (i / 256) ≠ 0 := by
      intro h0
      rw [h0, nodeAt_empty] at hnode
      exact hne hnode.symm
    refine .inr ⟨i / 256, by omega, by omega, hinner, ?_⟩
    rcases lt_or_ge k 1 with hk0 | hk1
    · obtain rfl : k = 0 := by omega
      refine .inr ⟨i % 256, by omega, by omega, ?_⟩
      rw [← hnode, nodeAt_succ (by decide) hinner, nodeAt_self, pow_zero, Nat.div_one]
    · obtain rfl : k = 1 := by omega
      exact .inl (hnode.symm.trans nodeAt_self)
  · intro h
    obtain ⟨sl, hsl, k, hk, i, hi, rfl, -⟩ := h.node
    exact node_mem_blocks hsl hk hi h.1

/-- The blocks on the way to the first `N` file blocks, when none is missing. -/
theorem upto_iff_path (hN : N ≤ maxFile) (hsolid : ∀ bn < N, 0 ∉ blockPath rd d bn) :
    Upto rd d N b ↔ ∃ bn < N, b ∈ blockPath rd d bn := by
  unfold maxFile at hN
  have hdirect : ∀ k < 11, blockPath rd d k = [d.addrs k] := fun k hk => if_pos hk
  have hsingle : ∀ j < 256, blockPath rd d (11 + j) = [d.addrs 11, entryOf (rd (d.addrs 11)) j] := by
    intro j hj
    rw [blockPath, if_neg (by omega), if_pos (by omega), Nat.add_sub_cancel_left]
    rfl
  have hdouble : ∀ k l, l < 256 → blockPath rd d (267 + 256 * k + l) =
      [d.addrs 12, entryOf (rd (d.addrs 12)) k, entryOf (rd (entryOf (rd (d.addrs 12)) k)) l] := by
    intro k l hl
    have hdiv : (267 + 256 * k + l - 267) / 256 = k := by omega
    have hmod : (267 + 256 * k + l - 267) % 256 = l := by omega
    rw [blockPath, if_neg (by omega), if_neg (by omega), hdiv, hmod]
    rfl
  constructor
  · rintro ⟨-, ⟨k, hk, hkN, rfl⟩ | ⟨hN', -, rfl | ⟨j, hj, hjN, rfl⟩⟩ |
      ⟨hN', -, rfl | ⟨k, hk, hkN, -, rfl | ⟨l, hl, hlN, rfl⟩⟩⟩⟩
    · exact ⟨k, hkN, by simp [hdirect k hk]⟩
    · exact ⟨11 + 0, hN', by simp [hsingle 0 (by decide)]⟩
    · exact ⟨11 + j, hjN, by simp [hsingle j hj]⟩
    · exact ⟨267 + 256 * 0 + 0, hN', by simp [hdouble 0 0 (by decide)]⟩
    · exact ⟨267 + 256 * k + 0, hkN, by rw [hdouble k 0 (by decide)]; simp⟩
    · exact ⟨267 + 256 * k + l, hlN, by simp [hdouble k l hl]⟩
  rintro ⟨bn, hbn, hb⟩
  have hzero := hsolid bn hbn
  have hne : b ≠ 0 := fun h0 => hzero (h0 ▸ hb)
  refine ⟨hne, ?_⟩
  rcases lt_or_ge bn 11 with hlt | hge
  · rw [hdirect bn hlt, List.mem_singleton] at hb
    exact .inl ⟨bn, hlt, hbn, hb.symm⟩
  rcases lt_or_ge bn 267 with hlt' | hge'
  · obtain ⟨j, rfl⟩ := Nat.exists_eq_add_of_le hge
    rw [hsingle j (by omega)] at hb hzero
    simp only [List.mem_cons, List.not_mem_nil, or_false, not_or] at hb hzero
    refine .inr (.inl ⟨by omega, Ne.symm hzero.1, ?_⟩)
    exact hb.imp_right fun h => ⟨j, by omega, hbn, h.symm⟩
  obtain ⟨m, rfl⟩ := Nat.exists_eq_add_of_le hge'
  have hm : 267 + m = 267 + 256 * (m / 256) + m % 256 := by omega
  rw [hm] at hb hzero hbn
  rw [hdouble _ _ (Nat.mod_lt _ (by decide))] at hb hzero
  simp only [List.mem_cons, List.not_mem_nil, or_false, not_or] at hb hzero
  refine .inr (.inr ⟨by omega, Ne.symm hzero.1, ?_⟩)
  refine hb.imp_right fun h => ⟨m / 256, by omega, by omega, Ne.symm hzero.2.1, ?_⟩
  exact h.imp_right fun h => ⟨m % 256, Nat.mod_lt _ (by decide), by omega, h.symm⟩

/-- The blocks with entries, by their places. -/
def IsIndex (rd : Nat → Block) (d : Dinode) (b : Nat) : Prop :=
  b ≠ 0 ∧ (b = d.addrs 11 ∨ d.addrs 12 ≠ 0 ∧ (b = d.addrs 12 ∨ ∃ k < 256, entryOf (rd (d.addrs 12)) k = b))

theorem IsIndex.node (h : IsIndex rd d b) : ∃ sl < 13, ∃ k ≤ slotHeight sl, 0 < k ∧
    ∃ i < 256 ^ slotHeight sl, d.node rd sl k i = b := by
  obtain ⟨-, rfl | ⟨h12, rfl | ⟨k, hk, rfl⟩⟩⟩ := h
  · exact ⟨11, by decide, 1, by decide, by decide, 0, by decide, node_single⟩
  · exact ⟨12, by decide, 2, by decide, by decide, 0, by decide, node_double⟩
  · refine ⟨12, by decide, 1, by decide, by decide, 256 * k, ?_, node_double_inner h12⟩
    show 256 * k < 65536
    omega

theorem IsIndex.mem (h : IsIndex rd d b) : b ∈ d.blocks rd := by
  obtain ⟨sl, hsl, k, hk, -, i, hi, rfl⟩ := h.node
  exact node_mem_blocks hsl hk hi h.1

variable {bn : Nat}

theorem blockAt_node (hbn : bn < maxFile) (h : 0 ∉ blockPath rd d bn) :
    ∃ sl < 13, ∃ i < 256 ^ slotHeight sl, d.node rd sl 0 i = blockAt rd d bn ∧ blockAt rd d bn ≠ 0 := by
  have hne : blockAt rd d bn ≠ 0 := fun e => h (e ▸ blockAt_mem bn)
  unfold maxFile at hbn
  unfold blockAt at hne ⊢
  unfold blockPath at h hne ⊢
  split at h
  · rename_i hlt
    rw [if_pos hlt] at hne ⊢
    exact ⟨bn, by omega, 0, Nat.pow_pos (by decide), (node_direct hlt).1, hne⟩
  rename_i hge
  rw [if_neg hge] at hne ⊢
  split at h
  · rename_i hlt
    rw [if_pos hlt] at hne ⊢
    simp only [List.mem_cons, List.not_mem_nil, or_false, not_or] at h
    exact ⟨11, by decide, bn - 11, hlt, node_single_leaf (Ne.symm h.1), hne⟩
  rename_i hge'
  rw [if_neg hge'] at hne ⊢
  simp only [List.mem_cons, List.not_mem_nil, or_false, not_or] at h
  refine ⟨12, by decide, 256 * ((bn - 267) / 256) + (bn - 267) % 256, ?_,
    node_double_leaf (Ne.symm h.1) (Ne.symm h.2.1) (Nat.mod_lt _ (by decide)), hne⟩
  show _ < 65536
  omega

theorem blockAt_not_index (hnd : (d.blocks rd).Nodup) (hbn : bn < maxFile)
    (h : 0 ∉ blockPath rd d bn) : ¬ IsIndex rd d (blockAt rd d bn) := by
  intro hidx
  obtain ⟨sl, hsl, i, hi, hnode, hne⟩ := blockAt_node hbn h
  obtain ⟨sl', hsl', k, hk, hpos, i', hi', hnode'⟩ := hidx.node
  have hsame := blocks_node_inj hnd hsl hsl' (Nat.zero_le _) hk hi hi' (by rw [hnode]; exact hne)
    (hnode.trans hnode'.symm)
  omega

/-! ## A file cut at a block -/

/-- `d'` is `d` with what is needed for its first `N` blocks only, except that the first-level block of the
double-indirect tree is as it was. -/
structure CutTree (rd rd' : Nat → Block) (d d' : Dinode) (N : Nat) : Prop where
  addrs : ∀ k, d'.addrs k = if N ≤ slotBase k then 0 else d.addrs k
  single : 11 < N → d.addrs 11 ≠ 0 → ∀ j < 256, entryOf (rd' (d.addrs 11)) j =
    if N ≤ 11 + j then 0 else entryOf (rd (d.addrs 11)) j
  root : 267 < N → d.addrs 12 ≠ 0 → rd' (d.addrs 12) = rd (d.addrs 12)
  inner : 267 < N → d.addrs 12 ≠ 0 → ∀ k < 256, 267 + 256 * k < N → entryOf (rd (d.addrs 12)) k ≠ 0 →
    ∀ l < 256, entryOf (rd' (entryOf (rd (d.addrs 12)) k)) l =
      if N ≤ 267 + 256 * k + l then 0 else entryOf (rd (entryOf (rd (d.addrs 12)) k)) l

/-- No entry of the first-level block has to go while the block stays. -/
def RootFits (rd : Nat → Block) (d : Dinode) (N : Nat) : Prop :=
  N ≤ 267 ∨ ∀ k < 256, N ≤ 267 + 256 * k → entryOf (rd (d.addrs 12)) k = 0

variable {rd' : Nat → Block} {d' : Dinode}

theorem CutTree.addr_of_lt (h : CutTree rd rd' d d' N) (hN : slotBase k < N) : d'.addrs k = d.addrs k := by
  rw [h.addrs k, if_neg (Nat.not_le_of_lt hN)]

theorem CutTree.addr_of_le (h : CutTree rd rd' d d' N) (hN : N ≤ slotBase k) : d'.addrs k = 0 := by
  rw [h.addrs k, if_pos hN]

/-- The way to a block that is kept is as before. -/
theorem CutTree.path (h : CutTree rd rd' d d' N) (hbn : bn < N) (hmax : bn < maxFile)
    (hsolid : 0 ∉ blockPath rd d bn) : blockPath rd' d' bn = blockPath rd d bn := by
  unfold maxFile at hmax
  unfold blockPath at hsolid ⊢
  split at hsolid
  · rename_i hlt
    rw [if_pos hlt, if_pos hlt, h.addr_of_lt (by rw [slotBase, if_pos hlt]; exact hbn)]
  rename_i hge
  rw [if_neg hge, if_neg hge]
  split at hsolid
  · rename_i hlt
    simp only [List.mem_cons, List.not_mem_nil, or_false, not_or] at hsolid
    have hlt11 : 11 < N := by omega
    have hentry := h.single hlt11 (Ne.symm hsolid.1) (bn - 11) hlt
    rw [if_neg (by omega)] at hentry
    rw [if_pos hlt, if_pos hlt, h.addr_of_lt (show slotBase 11 < N from hlt11)]
    exact congrArg (fun e => [d.addrs 11, e]) hentry
  rename_i hge'
  simp only [List.mem_cons, List.not_mem_nil, or_false, not_or] at hsolid
  obtain ⟨h12, hinner, -⟩ := hsolid
  have hlt : 267 < N := by omega
  have hentry := h.inner hlt (Ne.symm h12) ((bn - 267) / 256) (by omega) (by omega) (Ne.symm hinner)
    ((bn - 267) % 256) (Nat.mod_lt _ (by decide))
  rw [if_neg (by omega)] at hentry
  rw [if_neg hge', if_neg hge', h.addr_of_lt (show slotBase 12 < N from hlt)]
  unfold indexEntry
  rw [h.root hlt (Ne.symm h12)]
  exact congrArg (fun e => [d.addrs 12, entryOf (rd (d.addrs 12)) ((bn - 267) / 256), e]) hentry

/-- Nothing else is reached, when the first-level block fits. -/
theorem CutTree.upto (h : CutTree rd rd' d d' N) (hfits : RootFits rd d N) :
    Upto rd' d' maxFile b → Upto rd d N b := by
  rintro ⟨hne, hb⟩
  refine ⟨hne, ?_⟩
  rcases hb with ⟨k, hk, -, hkb⟩ | ⟨-, h11, hb⟩ | ⟨-, h12, hb⟩
  · have haddr := h.addrs k
    rw [slotBase, if_pos hk] at haddr
    by_cases hN : N ≤ k
    · rw [if_pos hN, hkb] at haddr
      exact absurd haddr hne
    · rw [if_neg hN, hkb] at haddr
      exact .inl ⟨k, hk, Nat.lt_of_not_le hN, haddr.symm⟩
  · have hN : 11 < N := by
      by_contra hle
      exact h11 (h.addr_of_le (Nat.le_of_not_lt hle))
    have haddr := h.addr_of_lt (show slotBase 11 < N from hN)
    rw [haddr] at h11 hb
    refine .inr (.inl ⟨hN, h11, hb.imp_right fun ⟨j, hj, _, hjb⟩ => ?_⟩)
    rw [h.single hN h11 j hj] at hjb
    by_cases hjN : N ≤ 11 + j
    · rw [if_pos hjN] at hjb
      exact absurd hjb.symm hne
    · rw [if_neg hjN] at hjb
      exact ⟨j, hj, Nat.lt_of_not_le hjN, hjb⟩
  have hN : 267 < N := by
    by_contra hle
    exact h12 (h.addr_of_le (Nat.le_of_not_lt hle))
  have haddr := h.addr_of_lt (show slotBase 12 < N from hN)
  rw [haddr] at h12 hb
  rw [h.root hN h12] at hb
  refine .inr (.inr ⟨hN, h12, hb.imp_right fun ⟨k, hk, _, hinner, hb⟩ => ?_⟩)
  have hkN : 267 + 256 * k < N := by
    by_contra hle
    rcases hfits with hsmall | hroot
    · omega
    · exact hinner (hroot k hk (Nat.le_of_not_lt hle))
  refine ⟨k, hk, hkN, hinner, hb.imp_right fun ⟨l, hl, _, hlb⟩ => ?_⟩
  rw [h.inner hN h12 k hk hkN hinner l hl] at hlb
  by_cases hlN : N ≤ 267 + 256 * k + l
  · rw [if_pos hlN] at hlb
    exact absurd hlb.symm hne
  · rw [if_neg hlN] at hlb
    exact ⟨l, hl, Nat.lt_of_not_le hlN, hlb⟩

/-- What is reached is what the first `N` blocks need, when the first-level block fits. -/
theorem CutTree.reach (h : CutTree rd rd' d d' N) (hN : N ≤ maxFile) (hfits : RootFits rd d N)
    (hsolid : ∀ bn < N, 0 ∉ blockPath rd d bn) :
    b ∈ d'.blocks rd' ↔ ∃ bn < N, b ∈ blockPath rd d bn := by
  have hpath : ∀ bn < N, blockPath rd' d' bn = blockPath rd d bn := fun bn hbn =>
    h.path hbn (lt_of_lt_of_le hbn hN) (hsolid bn hbn)
  have hsolid' : ∀ bn < N, 0 ∉ blockPath rd' d' bn := fun bn hbn => by
    rw [hpath bn hbn]
    exact hsolid bn hbn
  rw [mem_blocks_iff]
  constructor
  · intro hb
    exact (upto_iff_path hN hsolid).1 (h.upto hfits hb)
  rintro ⟨bn, hbn, hb⟩
  rw [← hpath bn hbn] at hb
  have hb' := (upto_iff_path hN hsolid').2 ⟨bn, hbn, hb⟩
  obtain ⟨sl, hsl, k, hk, i, hi, rfl, -⟩ := hb'.node
  exact mem_blocks_iff.1 (node_mem_blocks hsl hk hi hb'.1)

/-- The entries of an index block that stays are cleared or as they were. -/
theorem CutTree.entries (h : CutTree rd rd' d d' N) (hfits : RootFits rd d N) {sl c j : Nat} (hsl : sl < 13)
    (hN : ¬ N ≤ slotBase sl) (hc : c ∈ innerBlocks entryOf 256 rd' (slotHeight sl) (d.addrs sl)) (hj : j < 256) :
    entryOf (rd' c) j = 0 ∨ entryOf (rd' c) j = entryOf (rd c) j := by
  have hcut : ∀ {p : Prop} [Decidable p] {x y : Nat}, y = (if p then 0 else x) → y = 0 ∨ y = x := by
    intro p _ x y hy
    split at hy
    · exact .inl hy
    · exact .inr hy
  have hb : d.addrs sl ≠ 0 := by
    intro h0
    rw [h0, innerBlocks_empty] at hc
    exact notMem_zero c hc
  rcases lt_or_ge sl 11 with hlt | hge
  · -- no index block
    rw [show slotHeight sl = 0 from if_pos hlt] at hc
    exact absurd hc (notMem_zero c)
  rcases lt_or_ge sl 12 with hlt' | hge'
  · obtain rfl : sl = 11 := by omega
    rw [show slotHeight 11 = 0 + 1 from rfl, innerBlocks_succ hb, mem_add, mem_singleton,
      mem_sum] at hc
    rcases hc with rfl | ⟨k, -, hc⟩
    · exact hcut (h.single (Nat.lt_of_not_le hN) hb j hj)
    · exact absurd hc (notMem_zero c)
  obtain rfl : sl = 12 := by omega
  have hN : 267 < N := Nat.lt_of_not_le hN
  have hroot := h.root hN hb
  rw [show slotHeight 12 = 1 + 1 from rfl, innerBlocks_succ hb, mem_add, mem_singleton,
    mem_sum] at hc
  rcases hc with rfl | ⟨k, hk, hc⟩
  · rw [hroot]
    exact .inr rfl
  have hk := Finset.mem_range.1 hk
  rw [hroot] at hc
  have hinner : entryOf (rd (d.addrs 12)) k ≠ 0 := by
    intro h0
    rw [h0, innerBlocks_empty] at hc
    exact notMem_zero c hc
  have hkN : 267 + 256 * k < N := by
    by_contra hge
    rcases hfits with hsmall | hroots
    · omega
    · exact hinner (hroots k hk (Nat.le_of_not_lt hge))
  rw [innerBlocks_succ hinner, mem_add, mem_singleton, mem_sum] at hc
  rcases hc with rfl | ⟨l, -, hc⟩
  · exact hcut (h.inner hN hb k hk hkN hinner j hj)
  · exact absurd hc (notMem_zero c)

theorem CutTree.le (h : CutTree rd rd' d d' N) (hfits : RootFits rd d N) : d'.blocks rd' ≤ d.blocks rd := by
  rw [blocks_eq, blocks_eq]
  refine Finset.sum_le_sum fun sl hsl => ?_
  rw [h.addrs sl]
  by_cases hN : N ≤ slotBase sl
  · rw [if_pos hN, treeBlocks_empty]
    exact Multiset.zero_le _
  · rw [if_neg hN]
    exact tree_mono fun c hc j hj => h.entries hfits (Finset.mem_range.1 hsl) hN hc hj

/-- An entry of the first-level block that should have gone is still reached. -/
theorem CutTree.stale (h : CutTree rd rd' d d' N) (hN : 267 < N) (h12 : d.addrs 12 ≠ 0) (hk : k < 256)
    (hinner : entryOf (rd (d.addrs 12)) k ≠ 0) : entryOf (rd (d.addrs 12)) k ∈ d'.blocks rd' := by
  have haddr := h.addr_of_lt (show slotBase 12 < N from hN)
  rw [mem_blocks_iff]
  refine ⟨hinner, .inr (.inr ⟨by decide, ?_, ?_⟩)⟩
  · rw [haddr]
    exact h12
  rw [haddr, h.root hN h12]
  refine .inr ⟨k, hk, ?_, hinner, .inl rfl⟩
  unfold maxFile
  omega

end

/-! ## What is freed -/

/-- The blocks of the file from file block `N` on, with the index blocks that only they need. -/
def Beyond (rd : Nat → Block) (d : Dinode) (N b : Nat) : Prop :=
  b ≠ 0 ∧ ((∃ k < 11, N ≤ k ∧ d.addrs k = b) ∨
    (d.addrs 11 ≠ 0 ∧
      (N ≤ 11 ∧ b = d.addrs 11 ∨ ∃ j < 256, N ≤ 11 + j ∧ entryOf (rd (d.addrs 11)) j = b)) ∨
    (d.addrs 12 ≠ 0 ∧ (N ≤ 267 ∧ b = d.addrs 12 ∨ ∃ k < 256, entryOf (rd (d.addrs 12)) k ≠ 0 ∧
      (N ≤ 267 + 256 * k ∧ b = entryOf (rd (d.addrs 12)) k ∨ ∃ l < 256,
        N ≤ 267 + 256 * k + l ∧ entryOf (rd (entryOf (rd (d.addrs 12)) k)) l = b))))

section

variable {rd : Nat → Block} {d : Dinode} {N b : Nat}

/-- A block beyond `N` is a node whose first data block is not below `N`. -/
theorem Beyond.node (h : Beyond rd d N b) : ∃ sl < 13, ∃ k ≤ slotHeight sl, ∃ i < 256 ^ slotHeight sl,
    d.node rd sl k i = b ∧ N ≤ firstOf sl k i :=
  node_of_place (P := (N ≤ ·)) h.2

/-- What is not kept is freed. -/
theorem beyond_iff (hnd : (d.blocks rd).Nodup) (hb : b ∈ d.blocks rd) :
    Beyond rd d N b ↔ ¬ Upto rd d N b := by
  constructor
  · intro hbeyond hupto
    obtain ⟨sl, hsl, k, hk, i, hi, hnode, hfirst⟩ := hbeyond.node
    exact absurd (hupto.apart hnd hsl hk hi hnode) (Nat.not_lt_of_le hfirst)
  intro hnot
  obtain ⟨hne, hplace⟩ := mem_blocks_iff.1 hb
  refine ⟨hne, ?_⟩
  have hout : ∀ {p : Prop}, (p → Upto rd d N b) → ¬ p := fun hp hx => hnot (hp hx)
  rcases hplace with ⟨k, hk, -, rfl⟩ | ⟨-, h11, hb'⟩ | ⟨-, h12, hb'⟩
  · exact .inl ⟨k, hk, Nat.le_of_not_lt (hout fun hN => ⟨hne, .inl ⟨k, hk, hN, rfl⟩⟩), rfl⟩
  · refine .inr (.inl ⟨h11, ?_⟩)
    rcases hb' with rfl | ⟨j, hj, -, rfl⟩
    · exact .inl ⟨Nat.le_of_not_lt (hout fun hN => ⟨hne, .inr (.inl ⟨hN, h11, .inl rfl⟩)⟩), rfl⟩
    · refine .inr ⟨j, hj, Nat.le_of_not_lt (hout fun hN => ⟨hne, .inr (.inl ?_)⟩), rfl⟩
      exact ⟨by omega, h11, .inr ⟨j, hj, hN, rfl⟩⟩
  refine .inr (.inr ⟨h12, ?_⟩)
  rcases hb' with rfl | ⟨k, hk, -, hinner, rfl | ⟨l, hl, -, rfl⟩⟩
  · exact .inl ⟨Nat.le_of_not_lt (hout fun hN => ⟨hne, .inr (.inr ⟨hN, h12, .inl rfl⟩)⟩), rfl⟩
  · refine .inr ⟨k, hk, hinner, .inl ⟨Nat.le_of_not_lt (hout fun hN => ⟨hne, .inr (.inr ?_)⟩), rfl⟩⟩
    exact ⟨by omega, h12, .inr ⟨k, hk, hN, hinner, .inl rfl⟩⟩
  · refine .inr ⟨k, hk, hinner, .inr ⟨l, hl,
      Nat.le_of_not_lt (hout fun hN => ⟨hne, .inr (.inr ?_)⟩), rfl⟩⟩
    exact ⟨by omega, h12, .inr ⟨k, hk, by omega, hinner, .inr ⟨l, hl, hN, rfl⟩⟩⟩

end

end Slopix.Fs
