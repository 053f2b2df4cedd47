import Mathlib.Data.List.TakeWhile
import Slopix.Fs.Layout

/-!
# Reading records back

An inode that is stored in a block is read back, and inodes at other places of the block are left alone.
A directory entry is 64 bytes, and gives back its number (16 bits of it) and its name.
-/

namespace Slopix.Fs

open Lib List

/-- Every field of the inode fits its width. -/
structure Dinode.Fits (d : Dinode) : Prop where
  type : d.type < 65536
  major : d.major < 65536
  minor : d.minor < 65536
  nlink : d.nlink < 65536
  size : d.size < uintMod
  addrs : ∀ k, d.addrs k < uintMod
  tail : ∀ k, 13 ≤ k → d.addrs k = 0

section

variable {b : Block} {o o' : Nat} {d : Dinode}

theorem putAddrs_entry {addrs : Nat → Nat} {k : Nat} (hk : k < 13) (hv : addrs k < uintMod) :
    getLe 4 (putAddrs b o addrs) (o + 4 * k) = addrs k := by
  apply getLe_of_bytes hv
  intro j hj
  unfold putAddrs
  rw [if_pos (by omega)]
  have hdiv : (o + 4 * k + j - o) / 4 = k := by omega
  have hmod : (o + 4 * k + j - o) % 4 = j := by omega
  rw [hdiv, hmod]

theorem getLe_putAddrs_of_disjoint {addrs : Nat → Nat} {n : Nat} (h : o' + n ≤ o ∨ o + 52 ≤ o') :
    getLe n (putAddrs b o addrs) o' = getLe n b o' := by
  apply getLe_congr
  intro k hk hk'
  unfold putAddrs
  rw [if_neg (by omega)]

/-- An inode that fits its 64 bytes reads back. -/
theorem getDinode_putDinode (h : d.Fits) : getDinode (putDinode b o d) o = d := by
  obtain ⟨htype, hmajor, hminor, hnlink, hsize, haddrs, htail⟩ := h
  unfold getDinode putDinode
  obtain ⟨type, major, minor, nlink, size, addrs⟩ := d
  dsimp only at *
  congr 1
  · rw [getLe_putAddrs_of_disjoint (by omega), getLe_putLe_of_disjoint (by omega),
      getLe_putLe_of_disjoint (by omega), getLe_putLe_of_disjoint (by omega),
      getLe_putLe_of_disjoint (by omega), getLe_putLe_self htype]
  · rw [getLe_putAddrs_of_disjoint (by omega), getLe_putLe_of_disjoint (by omega),
      getLe_putLe_of_disjoint (by omega), getLe_putLe_of_disjoint (by omega), getLe_putLe_self hmajor]
  · rw [getLe_putAddrs_of_disjoint (by omega), getLe_putLe_of_disjoint (by omega),
      getLe_putLe_of_disjoint (by omega), getLe_putLe_self hminor]
  · rw [getLe_putAddrs_of_disjoint (by omega), getLe_putLe_of_disjoint (by omega), getLe_putLe_self hnlink]
  · rw [getLe_putAddrs_of_disjoint (by omega), getLe_putLe_self hsize]
  funext k
  by_cases hk : k < 13
  · rw [if_pos hk, putAddrs_entry hk (haddrs k)]
  · rw [if_neg hk, htail k (by omega)]

theorem getDinode_fits : (getDinode b o).Fits := by
  refine ⟨getLe_lt 2 b _, getLe_lt 2 b _, getLe_lt 2 b _, getLe_lt 2 b _, getLe_lt 4 b _, fun k => ?_, fun k hk => ?_⟩
  · unfold getDinode
    dsimp only
    split
    · exact getLe_lt 4 b _
    · decide
  · unfold getDinode
    exact if_neg (Nat.not_lt_of_le hk)

theorem putDinode_apply {k : Nat} (h : k < o ∨ o + 64 ≤ k) : putDinode b o d k = b k := by
  unfold putDinode putAddrs
  simp only [putLe]
  rw [if_neg (by omega), if_neg (by omega), if_neg (by omega), if_neg (by omega), if_neg (by omega),
    if_neg (by omega)]

theorem getDinode_congr {b b' : Block} (h : ∀ k, o ≤ k → k < o + 64 → b k = b' k) :
    getDinode b o = getDinode b' o := by
  unfold getDinode
  congr 1
  · exact getLe_congr fun k hk hk' => h k (by omega) (by omega)
  · exact getLe_congr fun k hk hk' => h k (by omega) (by omega)
  · exact getLe_congr fun k hk hk' => h k (by omega) (by omega)
  · exact getLe_congr fun k hk hk' => h k (by omega) (by omega)
  · exact getLe_congr fun k hk hk' => h k (by omega) (by omega)
  funext j
  split
  · exact getLe_congr fun k hk hk' => h k (by omega) (by omega)
  · rfl

theorem getDinode_putDinode_of_disjoint (h : o' + 64 ≤ o ∨ o + 64 ≤ o') :
    getDinode (putDinode b o d) o' = getDinode b o' :=
  getDinode_congr fun k hk hk' => putDinode_apply (by omega)

end

section

variable {inum : Nat} {name : Name}

@[simp] theorem length_dirent : (dirent inum name).length = 64 := by
  unfold dirent
  simp only [length_append, length_cons, length_nil, length_take, length_replicate]
  omega

theorem direntInum_dirent : direntInum (dirent inum name) = inum % 65536 := by
  unfold direntInum dirent
  simp only [cons_append, getD_cons_zero, getD_cons_succ, UInt8.toNat_ofNat']
  omega

theorem length_direntName (de : List UInt8) : (direntName de).length ≤ 62 := by
  apply Nat.le_trans (takeWhile_sublist _).length_le
  simp

theorem zero_notMem_direntName (de : List UInt8) : (0 : UInt8) ∉ direntName de := by
  intro hmem
  simpa using mem_takeWhile_imp hmem

theorem direntName_dirent (h : 0 ∉ name) : direntName (dirent inum name) = name.take 62 := by
  have hnot : ∀ c ∈ name.take 62, (c != 0) = true := by
    intro c hc
    simpa using fun e : c = 0 => h (e ▸ mem_of_mem_take hc)
  have hlen : (name.take 62 ++ List.replicate (62 - name.length) 0).length = 62 := by
    simp only [length_append, length_take, length_replicate]
    omega
  unfold direntName dirent
  rw [append_assoc, cons_append, cons_append, nil_append, drop_succ_cons,
    drop_succ_cons, drop_zero, take_of_length_le (Nat.le_of_eq hlen),
    takeWhile_append_of_pos hnot]
  cases hpad : 62 - name.length with
  | zero => simp
  | succ n => simp [replicate_succ]

end

section

variable {x : UInt8} {j k : Nat}

theorem testBit_setBit (hj : j < 8) (hk : k < 8) (v : Bool) :
    (setBit x k v).toNat.testBit j = if j = k then v else x.toNat.testBit j := by
  have hpow : (UInt8.ofNat (2 ^ k)).toNat = 2 ^ k := by
    exact Nat.mod_eq_of_lt (Nat.pow_lt_pow_right (by decide) hk)
  have hbit : (2 ^ k).testBit j = decide (k = j) := Nat.testBit_two_pow
  unfold setBit
  cases v with
  | true =>
    rw [if_pos rfl, UInt8.toNat_or, Nat.testBit_or, hpow, hbit]
    by_cases hjk : j = k
    · simp [hjk]
    · simp [hjk, Ne.symm hjk]
  | false =>
    rw [if_neg Bool.false_ne_true, UInt8.toNat_and, Nat.testBit_and, UInt8.toNat_not, hpow]
    have hnot : (256 - 1 - 2 ^ k).testBit j = !decide (k = j) := by
      rw [show 256 - 1 - 2 ^ k = 2 ^ 8 - (2 ^ k + 1) by omega,
        Nat.testBit_two_pow_sub_succ (Nat.pow_lt_pow_right (by decide) hk), hbit]
      simp [hj]
    rw [show UInt8.size = 256 from rfl, hnot]
    by_cases hjk : j = k
    · simp [hjk]
    · simp [hjk, Ne.symm hjk]

end

end Slopix.Fs
