import Mathlib.Data.BitVec

/-!
# Fields of machine words

A field of a word is given by the mask of its bits. Replacing it leaves the other bits alone, and a part
of the word that lies inside the field is read from what was put there. A number whose signed value fits
`n` bits is the sign extension of its low `n` bits.
-/

namespace Slopix.Lib

open BitVec

section

variable {w n k : Nat} {x m b : BitVec w}

/-- **The bits outside the field stay.** -/
theorem replace_outside (hb : b &&& ~~~m = 0) : (x &&& ~~~m ||| b) &&& ~~~m = x &&& ~~~m := by
  rw [and_or_distrib_right, BitVec.and_assoc, BitVec.and_self, hb]
  exact or_zero

/-- **A part inside the field is the new one.** -/
theorem extract_replace (hm : ∀ i < n, m.getLsbD (k + i) = true) :
    (x &&& ~~~m ||| b).extractLsb' k n = b.extractLsb' k n := by
  ext i hi
  have hbit := hm i hi
  have hlt : k + i < w := lt_of_getLsbD hbit
  simp [hbit, hlt]

end

section

variable {w n : Nat} {x : BitVec w}

/-- **A signed number is determined by its low bits when it fits them.** -/
theorem signExtend_setWidth (hn : n + 1 ≤ w) (hlo : -2 ^ n ≤ x.toInt) (hhi : x.toInt < 2 ^ n) :
    (x.setWidth (n + 1)).signExtend w = x := by
  apply eq_of_toInt_eq
  rw [toInt_signExtend_of_le hn, toInt_setWidth]
  have hmod : (x.toNat : Int).bmod (2 ^ (n + 1)) = x.toInt.bmod (2 ^ (n + 1)) := by
    rw [toInt_eq_toNat_bmod, Int.bmod_bmod_of_dvd]
    exact Nat.pow_dvd_pow 2 hn
  have hpow : ((2 : Nat) ^ (n + 1) : Nat) = 2 * 2 ^ n := by rw [pow_succ, mul_comm]
  have hcast : ((2 ^ n : Nat) : Int) = 2 ^ n := by simp
  rw [hmod, hpow]
  exact Int.bmod_eq_of_le (by omega) (by omega)

end

section

variable {w n : Nat} {x : BitVec w}

theorem getLsbD_lowMask (w n i : Nat) :
    (BitVec.ofNat w (2 ^ n - 1)).getLsbD i = (decide (i < w) && decide (i < n)) := by
  rw [getLsbD_ofNat, Nat.testBit_two_pow_sub_one]

theorem getLsbD_of_dvd (h : 2 ^ n ∣ x.toNat) {i : Nat} (hi : i < n) : x.getLsbD i = false := by
  obtain ⟨k, hk⟩ := h
  rw [BitVec.getLsbD, hk, Nat.testBit_two_pow_mul]
  simp [not_le.2 hi]

theorem toNat_and_lowMask (x : BitVec w) (h : n ≤ w) : (x &&& BitVec.ofNat w (2 ^ n - 1)).toNat = x.toNat % 2 ^ n := by
  have hlt : 2 ^ n - 1 < 2 ^ w :=
    lt_of_lt_of_le (Nat.sub_lt (Nat.two_pow_pos n) Nat.one_pos) (Nat.pow_le_pow_right Nat.two_pos h)
  rw [toNat_and, toNat_ofNat, Nat.mod_eq_of_lt hlt, Nat.and_two_pow_sub_one_eq_mod]

end

section

variable {w n k i : Nat} {x y : BitVec w}

theorem getLsbD_top (h : k + n ≤ w) (hi : i < n) : (x <<< (w - n - k)).getLsbD (w - n + i) = x.getLsbD (k + i) := by
  rw [getLsbD_shiftLeft, show w - n + i - (w - n - k) = k + i by omega]
  simp [show w - n + i < w by omega, show ¬ w - n + i < w - n - k by omega]

theorem shl_ushr (h : k + n ≤ w) : (x <<< (w - n - k)) >>> (w - n) = (x.extractLsb' k n).setWidth w := by
  refine eq_of_getLsbD_eq fun i hi => ?_
  rw [getLsbD_ushiftRight, getLsbD_setWidth, getLsbD_extractLsb']
  rcases lt_or_ge i n with hlt | hge
  · rw [getLsbD_top h hlt]
    simp [hi, hlt]
  · rw [getLsbD_of_ge _ _ (by omega)]
    simp [not_lt.2 hge]

theorem shl_sshr (h : k + n ≤ w) (hn : 0 < n) : (x <<< (w - n - k)).sshiftRight (w - n) = (x.extractLsb' k n).signExtend w := by
  refine eq_of_getLsbD_eq fun i hi => ?_
  rw [getLsbD_sshiftRight, getLsbD_signExtend]
  rcases lt_or_ge i n with hlt | hge
  · rw [getLsbD_top h hlt, getLsbD_extractLsb']
    simp [hi, hlt, show w - n + i < w by omega]
  have hsign : (x <<< (w - n - k)).msb = (x.extractLsb' k n).msb := by
    rw [msb_eq_getLsbD_last, msb_eq_getLsbD_last, getLsbD_extractLsb',
      show w - 1 = w - n + (n - 1) by omega, getLsbD_top h (by omega)]
    simp [show n - 1 < n by omega]
  rw [hsign]
  simp [hi, not_lt.2 hge, show ¬ w - n + i < w by omega]

theorem getLsbD_put (h : k + n ≤ w) (hi : i < w) :
    (x &&& ~~~(BitVec.ofNat w (2 ^ n - 1) <<< k) ||| (y &&& BitVec.ofNat w (2 ^ n - 1)) <<< k).getLsbD i =
      if k ≤ i ∧ i < k + n then y.getLsbD (i - k) else x.getLsbD i := by
  simp only [getLsbD_or, getLsbD_and, getLsbD_not, getLsbD_shiftLeft, getLsbD_lowMask, hi,
    decide_true, Bool.true_and]
  rcases lt_or_ge i k with hlt | hge
  · simp [hlt, not_le.2 hlt]
  · rcases lt_or_ge i (k + n) with hin | hout
    · simp [not_lt.2 hge, hge, hin, show i - k < n by omega, show i - k < w by omega]
    · simp [not_lt.2 hge, not_lt.2 hout, show ¬ i - k < n by omega]

end

end Slopix.Lib
