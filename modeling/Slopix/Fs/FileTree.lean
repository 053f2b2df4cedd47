import Slopix.Fs.Image
import Slopix.Lib.BlockTree

/-!
# The blocks of a file as trees

The 13 entries of `addrs` are the roots of trees of blocks: eleven leaves, one tree of height 1 and one
of height 2. `fileBlock` is the block of a file block, with 0 for a hole; `Dinode.blocks` are all blocks
of an inode. A file grows by one block at a time, in `addrs` or in an index block.
-/

namespace Slopix.Fs

open Lib Multiset Dinode

/-- Entry `j` of an index block. -/
def entryOf (b : Block) (j : Nat) : Nat := getLe 4 b (4 * j)

/-- The number of blocks a file can have. -/
def maxFile : Nat := 65803

/-- The height of the tree below an entry of `addrs`. -/
def slotHeight (k : Nat) : Nat := if k < 11 then 0 else if k = 11 then 1 else 2

/-- The entry of `addrs` for a file block. -/
def slotOf (bn : Nat) : Nat := if bn < 11 then bn else if bn < 267 then 11 else 12

/-- The index of a file block in its tree. -/
def slotIndex (bn : Nat) : Nat := if bn < 11 then 0 else if bn < 267 then bn - 11 else bn - 267

section

variable (rd : Nat → Block) (d : Dinode)

/-- The index blocks of an inode. -/
def Dinode.inner : Multiset Nat :=
  ∑ k ∈ Finset.range 13, innerBlocks entryOf 256 rd (slotHeight k) (d.addrs k)

/-- The data blocks of an inode. -/
def Dinode.leaves : Multiset Nat :=
  ∑ k ∈ Finset.range 13, leafBlocks entryOf 256 rd (slotHeight k) (d.addrs k)

/-- All blocks of a file, those of addresses with them. -/
def Dinode.blocks : Multiset Nat := d.inner rd + d.leaves rd

/-- The block of file block `bn`. -/
def Dinode.fileBlock (bn : Nat) : Nat :=
  leafAt entryOf 256 rd (slotHeight (slotOf bn)) (d.addrs (slotOf bn)) (slotIndex bn)

/-- The inode with one entry of `addrs` changed. -/
def Dinode.setAddr (k v : Nat) : Dinode := { d with addrs := Function.update d.addrs k v }

end

section

variable {bn bn' k : Nat}

theorem slot_cases (bn : Nat) :
    (bn < 11 ∧ slotOf bn = bn ∧ slotIndex bn = 0) ∨
      (11 ≤ bn ∧ bn < 267 ∧ slotOf bn = 11 ∧ slotIndex bn = bn - 11) ∨
      (267 ≤ bn ∧ slotOf bn = 12 ∧ slotIndex bn = bn - 267) := by
  unfold slotOf slotIndex
  by_cases h1 : bn < 11
  · simp [h1]
  by_cases h2 : bn < 267
  · simp [h1, h2]
    omega
  · simp [h1, h2]
    omega

theorem slotOf_lt (bn : Nat) : slotOf bn < 13 := by
  rcases slot_cases bn with ⟨h, hs, -⟩ | ⟨-, -, hs, -⟩ | ⟨-, hs, -⟩ <;> omega

/-- The index of a block is inside the tree of its slot. -/
theorem slotIndex_lt (h : bn < maxFile) : slotIndex bn < 256 ^ slotHeight (slotOf bn) := by
  unfold maxFile at h
  rcases slot_cases bn with ⟨-, -, hi⟩ | ⟨-, h2, hs, hi⟩ | ⟨h2, hs, hi⟩
  · rw [hi]
    exact Nat.pow_pos (by decide)
  · rw [hs, hi, show slotHeight 11 = 1 from rfl, pow_one]
    omega
  · rw [hs, hi, show slotHeight 12 = 2 from rfl]
    omega

theorem slot_inj (hslot : slotOf bn = slotOf bn') (hindex : slotIndex bn = slotIndex bn') : bn = bn' := by
  rcases slot_cases bn with ⟨h, hs, hi⟩ | ⟨h, h2, hs, hi⟩ | ⟨h, hs, hi⟩ <;>
    rcases slot_cases bn' with ⟨h', hs', hi'⟩ | ⟨h', h2', hs', hi'⟩ | ⟨h', hs', hi'⟩ <;> omega

end

section

variable {rd rd' : Nat → Block} {d d' : Dinode} {bn k v x : Nat}

theorem blocks_eq (rd : Nat → Block) (d : Dinode) :
    d.blocks rd = ∑ k ∈ Finset.range 13, treeBlocks entryOf 256 rd (slotHeight k) (d.addrs k) := by
  unfold Dinode.blocks Dinode.inner Dinode.leaves treeBlocks
  rw [Finset.sum_add_distrib]

theorem slot_le (hk : k < 13) :
    treeBlocks entryOf 256 rd (slotHeight k) (d.addrs k) ≤ d.blocks rd := by
  rw [blocks_eq]
  exact le_sum_range (f := fun k => treeBlocks entryOf 256 rd (slotHeight k) (d.addrs k)) hk

/-- A block that is no index block of the inode may change. -/
theorem blocks_congr (hrd : ∀ c ∈ d.inner rd, rd' c = rd c) :
    d.inner rd' = d.inner rd ∧ d.leaves rd' = d.leaves rd ∧
      ∀ bn < maxFile, d.fileBlock rd' bn = d.fileBlock rd bn := by
  have hslot := fun k (hk : k < 13) => @tree_congr Block entryOf 256 rd rd' (slotHeight k) (d.addrs k)
    fun c hc j _ => by
      rw [hrd c (mem_of_le (le_sum_range (f := fun k =>
        innerBlocks entryOf 256 rd (slotHeight k) (d.addrs k)) hk) hc)]
  refine ⟨?_, ?_, fun bn hbn => ?_⟩
  · exact Finset.sum_congr rfl fun k hk => (hslot k (Finset.mem_range.1 hk)).1
  · exact Finset.sum_congr rfl fun k hk => (hslot k (Finset.mem_range.1 hk)).2.1
  · exact (hslot _ (slotOf_lt bn)).2.2 0 _ (slotIndex_lt hbn)

theorem blocks_addrs (h : d'.addrs = d.addrs) :
    d'.blocks rd = d.blocks rd ∧ ∀ bn, d'.fileBlock rd bn = d.fileBlock rd bn := by
  refine ⟨?_, fun bn => ?_⟩
  · rw [blocks_eq, blocks_eq, h]
  · unfold fileBlock
    rw [h]

/-- The blocks of a file depend on these blocks only. -/
theorem blocks_frame (hrd : ∀ c ∈ d.blocks rd, rd' c = rd c) : d.blocks rd' = d.blocks rd := by
  obtain ⟨hinner, hleaves, -⟩ := blocks_congr fun c hc => hrd c (mem_add.2 (.inl hc))
  unfold blocks
  rw [hinner, hleaves]

theorem fileBlock_mem (hbn : bn < maxFile) (hne : d.fileBlock rd bn ≠ 0) :
    d.fileBlock rd bn ∈ d.leaves rd :=
  mem_of_le (le_sum_range (f := fun k =>
    leafBlocks entryOf 256 rd (slotHeight k) (d.addrs k)) (slotOf_lt bn)) (leafAt_mem (slotIndex_lt hbn) hne)

theorem fileBlock_direct (h : bn < 11) : d.fileBlock rd bn = d.addrs bn := by
  unfold fileBlock leafAt
  rw [show slotOf bn = bn from if_pos h, show slotHeight bn = 0 from if_pos h]
  rfl

theorem fileBlock_single (h : 11 ≤ bn) (h2 : bn < 267) (hne : d.addrs 11 ≠ 0) :
    d.fileBlock rd bn = entryOf (rd (d.addrs 11)) (bn - 11) := by
  rcases slot_cases bn with ⟨hlt, -, -⟩ | ⟨-, -, hs, hi⟩ | ⟨hge, -, -⟩
  · omega
  · unfold fileBlock
    rw [hs, hi, show slotHeight 11 = 1 from rfl, leafAt_succ hne, pow_zero, Nat.div_one]
    rfl
  · omega

theorem fileBlock_empty (h : d.addrs (slotOf bn) = 0) : d.fileBlock rd bn = 0 := by
  unfold fileBlock
  rw [h, leafAt_empty]

/-- An address of the inode is one of its blocks. -/
theorem addr_mem (hk : k < 13) (hne : d.addrs k ≠ 0) : d.addrs k ∈ d.blocks rd := by
  refine mem_of_le (slot_le hk) ?_
  cases hh : slotHeight k with
  | zero => rw [treeBlocks_zero hne, mem_singleton]
  | succ h =>
    rw [treeBlocks_succ hne]
    exact mem_add.2 (.inl (mem_singleton_self _))

theorem blocks_blank (h : ∀ k < 13, d.addrs k = 0) :
    d.blocks rd = 0 ∧ ∀ bn, d.fileBlock rd bn = 0 := by
  refine ⟨?_, fun bn => fileBlock_empty (h _ (slotOf_lt bn))⟩
  rw [blocks_eq]
  refine Finset.sum_eq_zero fun k hk => ?_
  rw [h k (Finset.mem_range.1 hk), treeBlocks_empty]

theorem fileBlock_inj {bn' : Nat} (hnd : (d.blocks rd).Nodup) (hbn : bn < maxFile) (hbn' : bn' < maxFile)
    (hne : d.fileBlock rd bn ≠ 0) (heq : d.fileBlock rd bn = d.fileBlock rd bn') : bn = bn' := by
  by_cases hslot : slotOf bn = slotOf bn'
  · have hle := @slot_le rd d (slotOf bn) (slotOf_lt bn)
    refine slot_inj hslot ?_
    have hlt' := slotIndex_lt hbn'
    unfold fileBlock at heq
    rw [← hslot] at heq hlt'
    exact leafAt_inj (nodup_of_le hle hnd) (slotIndex_lt hbn) hlt' hne heq
  have hmem := mem_of_le leafBlocks_le (leafAt_mem (slotIndex_lt hbn) hne)
  have hmem' := mem_of_le leafBlocks_le
    (leafAt_mem (slotIndex_lt hbn') (show d.fileBlock rd bn' ≠ 0 from heq ▸ hne))
  rw [blocks_eq] at hnd
  have hnot := notMem_of_nodup_sum hnd (slotOf_lt bn) (slotOf_lt bn') (Ne.symm hslot) hmem
  have heq' : leafAt entryOf 256 rd (slotHeight (slotOf bn)) (d.addrs (slotOf bn)) (slotIndex bn) =
    leafAt entryOf 256 rd (slotHeight (slotOf bn')) (d.addrs (slotOf bn')) (slotIndex bn') := heq
  rw [heq'] at hnot
  exact absurd hmem' hnot

end

/-! ## Every block has one place -/

/-- The first file block below an entry of `addrs`. -/
def slotBase (k : Nat) : Nat := if k < 11 then k else if k = 11 then 11 else 267

section

variable {rd : Nat → Block} {d : Dinode} {sl sl' k k' i i' x : Nat}

/-- The block at height `k` on the way to index `i` below entry `sl` of `addrs`. -/
def Dinode.node (rd : Nat → Block) (d : Dinode) (sl k i : Nat) : Nat :=
  nodeAt entryOf 256 rd k (slotHeight sl) (d.addrs sl) i

theorem node_mem_blocks (hsl : sl < 13) (hk : k ≤ slotHeight sl) (hi : i < 256 ^ slotHeight sl)
    (hne : d.node rd sl k i ≠ 0) : d.node rd sl k i ∈ d.blocks rd :=
  mem_of_le (slot_le hsl) (node_mem hk hi hne)

theorem mem_blocks (hx : x ∈ d.blocks rd) :
    x ≠ 0 ∧ ∃ sl < 13, ∃ k ≤ slotHeight sl, ∃ i < 256 ^ slotHeight sl, d.node rd sl k i = x := by
  rw [blocks_eq, mem_sum] at hx
  obtain ⟨sl, hsl, hx⟩ := hx
  obtain ⟨hne, hnode⟩ := mem_tree (by decide) hx
  exact ⟨hne, sl, Finset.mem_range.1 hsl, hnode⟩

/-- A block is at one place of the tree only. -/
theorem blocks_node_inj (hnd : (d.blocks rd).Nodup) (hsl : sl < 13) (hsl' : sl' < 13)
    (hk : k ≤ slotHeight sl) (hk' : k' ≤ slotHeight sl') (hi : i < 256 ^ slotHeight sl)
    (hi' : i' < 256 ^ slotHeight sl') (hne : d.node rd sl k i ≠ 0)
    (heq : d.node rd sl k i = d.node rd sl' k' i') :
    sl = sl' ∧ k = k' ∧ i / 256 ^ k = i' / 256 ^ k := by
  have hmem := node_mem hk hi hne
  have hmem' := node_mem hk' hi' (show d.node rd sl' k' i' ≠ 0 from heq ▸ hne)
  by_cases hslot : sl = sl'
  · subst hslot
    exact ⟨rfl, node_inj (nodup_of_le (slot_le hsl) hnd) hk hk' hi hi' hne heq⟩
  rw [blocks_eq] at hnd
  have hnot := notMem_of_nodup_sum hnd hsl hsl' (Ne.symm hslot) hmem
  have heq' : nodeAt entryOf 256 rd k (slotHeight sl) (d.addrs sl) i =
      nodeAt entryOf 256 rd k' (slotHeight sl') (d.addrs sl') i' := heq
  rw [heq'] at hnot
  exact absurd hmem' hnot

/-- When every block has one place, no block is twice in the file. -/
theorem nodup_blocks (hplace : ∀ sl < 13, ∀ sl' < 13, ∀ k ≤ slotHeight sl, ∀ k' ≤ slotHeight sl',
      ∀ i < 256 ^ slotHeight sl, ∀ i' < 256 ^ slotHeight sl', d.node rd sl k i ≠ 0 →
      d.node rd sl k i = d.node rd sl' k' i' → sl = sl' ∧ k = k' ∧ i / 256 ^ k = i' / 256 ^ k) :
    (d.blocks rd).Nodup := by
  rw [blocks_eq]
  refine nodup_sum_range (fun sl hsl => ?_) fun sl hsl sl' hsl' x hx hx' => ?_
  · exact nodup_tree (by decide) fun k hk k' hk' i hi i' hi' hne heq =>
      (hplace sl hsl sl hsl k hk k' hk' i hi i' hi' hne heq).2
  obtain ⟨hne, k, hk, i, hi, hnode⟩ := mem_tree (by decide) hx
  obtain ⟨-, k', hk', i', hi', hnode'⟩ := mem_tree (by decide) hx'
  have hne' : d.node rd sl k i ≠ 0 := by
    rw [node, hnode]
    exact hne
  exact (hplace sl hsl sl' hsl' k hk k' hk' i hi i' hi' hne' (hnode.trans hnode'.symm)).1

end

/-! ## Growing -/

/-- Block `v` was put at height `k` on the way to file block `bn`. -/
structure Grown (rd rd' : Nat → Block) (d d' : Dinode) (bn k v : Nat) : Prop where
  inner : d'.inner rd' = (if k = 0 then 0 else {v}) + d.inner rd
  leaves : d'.leaves rd' = (if k = 0 then {v} else 0) + d.leaves rd
  node : nodeAt entryOf 256 rd' k (slotHeight (slotOf bn)) (d'.addrs (slotOf bn)) (slotIndex bn) = v
  other : ∀ bn' < maxFile, (k = 0 → bn' ≠ bn) → d'.fileBlock rd' bn' = d.fileBlock rd bn'
  fields : { d' with addrs := d.addrs } = d

section

variable {rd rd' : Nat → Block} {d : Dinode} {bn k c v : Nat}

/-- A tree that has neither the block that changed nor the new one. -/
theorem slot_congr {h b : Nat} (hframe : ∀ x, x ≠ c → x ≠ v → rd' x = rd x)
    (hc : c ∉ treeBlocks entryOf 256 rd h b) (hv : v ∉ treeBlocks entryOf 256 rd h b) :
    innerBlocks entryOf 256 rd' h b = innerBlocks entryOf 256 rd h b ∧
      leafBlocks entryOf 256 rd' h b = leafBlocks entryOf 256 rd h b ∧
      ∀ k i, i < 256 ^ h → nodeAt entryOf 256 rd' k h b i = nodeAt entryOf 256 rd k h b i := by
  refine tree_congr fun y hy m _ => ?_
  rw [hframe y]
  · rintro rfl
    exact hc (mem_of_le innerBlocks_le hy)
  · rintro rfl
    exact hv (mem_of_le innerBlocks_le hy)

theorem grown_addr (hbn : bn < maxFile) (hempty : d.addrs (slotOf bn) = 0) (hv : v ≠ 0)
    (hfresh : v ∉ d.blocks rd) (hblank : 0 < slotHeight (slotOf bn) → ∀ m < 256, entryOf (rd' v) m = 0)
    (hframe : ∀ x, x ≠ v → rd' x = rd x) :
    Grown rd rd' d (d.setAddr (slotOf bn) v) bn (slotHeight (slotOf bn)) v := by
  obtain ⟨hvi, hvl, hvn⟩ := @blank_tree Block entryOf 256 rd' (slotHeight (slotOf bn)) v hv hblank
  have hself : (d.setAddr (slotOf bn) v).addrs (slotOf bn) = v := Function.update_self _ _ _
  have hother : ∀ m, m ≠ slotOf bn → (d.setAddr (slotOf bn) v).addrs m = d.addrs m := fun m hm =>
    Function.update_of_ne hm _ _
  have hnot : ∀ m < 13, v ∉ treeBlocks entryOf 256 rd (slotHeight m) (d.addrs m) := fun m hm hmem =>
    hfresh (mem_of_le (slot_le hm) hmem)
  have hsib := fun m (hm : m < 13) => @slot_congr rd rd' v v (slotHeight m) (d.addrs m)
    (fun x hx _ => hframe x hx) (hnot m hm) (hnot m hm)
  refine ⟨?_, ?_, ?_, fun bn' hbn' hne => ?_, rfl⟩
  · refine sum_attach (slotOf_lt bn) (fun m hm hmne => ?_) ?_
    · rw [hother m hmne]
      exact (hsib m hm).1
    · rw [hself, hvi, hempty, innerBlocks_empty, add_zero]
  · refine sum_attach (slotOf_lt bn) (fun m hm hmne => ?_) ?_
    · rw [hother m hmne]
      exact (hsib m hm).2.1
    · rw [hself, hvl, hempty, leafBlocks_empty, add_zero]
  · rw [hself, nodeAt_self]
  unfold fileBlock
  by_cases hslot : slotOf bn' = slotOf bn
  · have hlt := slotIndex_lt hbn'
    rw [hslot] at hlt ⊢
    rw [hself, hempty, leafAt_empty]
    rcases Nat.eq_zero_or_pos (slotHeight (slotOf bn)) with h0 | hpos
    · rw [h0, pow_zero] at hlt
      have hlt' := slotIndex_lt hbn
      rw [h0, pow_zero] at hlt'
      exact absurd (slot_inj hslot (by omega)) (hne h0)
    · exact hvn _ hlt hpos
  · rw [hother _ hslot]
    exact (hsib _ (slotOf_lt bn')).2.2 0 _ (slotIndex_lt hbn')

theorem grown_entry (hbn : bn < maxFile) (hnd : (d.blocks rd).Nodup) (hv : v ≠ 0)
    (hfresh : v ∉ d.blocks rd) (hk : k < slotHeight (slotOf bn))
    (hc : nodeAt entryOf 256 rd (k + 1) (slotHeight (slotOf bn)) (d.addrs (slotOf bn)) (slotIndex bn) = c)
    (hne : c ≠ 0) (hempty : entryOf (rd c) (slotIndex bn / 256 ^ k % 256) = 0)
    (hset : SetEntry entryOf 256 rd rd' k c (slotIndex bn / 256 ^ k % 256) v)
    (hframe : ∀ x, x ≠ c → x ≠ v → rd' x = rd x) : Grown rd rd' d d bn k v := by
  have hle := @slot_le rd d (slotOf bn) (slotOf_lt bn)
  have hnot : ∀ m < 13, v ∉ treeBlocks entryOf 256 rd (slotHeight m) (d.addrs m) := fun m hm hmem =>
    hfresh (mem_of_le (slot_le hm) hmem)
  obtain ⟨hinner, hleaves, hnode, hleaf⟩ := attach (nodup_of_le hle hnd) hv (hnot _ (slotOf_lt bn))
    (slotIndex_lt hbn) hk hc hne hempty hset
  have hcmem : c ∈ treeBlocks entryOf 256 rd (slotHeight (slotOf bn)) (d.addrs (slotOf bn)) := by
    rw [← hc] at hne ⊢
    exact mem_of_le innerBlocks_le (nodeAt_mem (Nat.succ_pos k) hk (slotIndex_lt hbn) hne)
  have hsib := fun m (hm : m < 13) (hmne : m ≠ slotOf bn) =>
    @slot_congr rd rd' c v (slotHeight m) (d.addrs m) hframe
      (notMem_of_nodup_sum (by rw [blocks_eq] at hnd; exact hnd) (slotOf_lt bn) hm hmne hcmem)
      (hnot m hm)
  refine ⟨?_, ?_, hnode, fun bn' hbn' hne' => ?_, rfl⟩
  · exact sum_attach (slotOf_lt bn) (fun m hm hmne => (hsib m hm hmne).1) hinner
  · exact sum_attach (slotOf_lt bn) (fun m hm hmne => (hsib m hm hmne).2.1) hleaves
  unfold fileBlock
  by_cases hslot : slotOf bn' = slotOf bn
  · have hlt := slotIndex_lt hbn'
    rw [hslot] at hlt ⊢
    exact hleaf _ hlt fun h0 heq => hne' h0 (slot_inj hslot heq)
  · exact (hsib _ (slotOf_lt bn') hslot).2.2 0 _ (slotIndex_lt hbn')

end

end Slopix.Fs
