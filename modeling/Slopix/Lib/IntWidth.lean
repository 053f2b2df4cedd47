import Mathlib.Data.BitVec
import Mathlib.Tactic.Linarith
import Mathlib.Tactic.Positivity
import Mathlib.Tactic.Ring

/-!
# Integers of a width

Reduction to a number of bits, unsigned or signed, and the values that it leaves alone. Values are compared by their
difference, so that reducing to a smaller width does not depend on what was reduced before.
-/

namespace Slopix.Lib

open Int

/-- A value reduced to `n` bits, unsigned or signed. -/
def wrap (n : Nat) (u : Bool) (v : Int) : Int := if u then v % 2 ^ n else v.bmod (2 ^ n)

/-- The values of `n` bits. -/
def InRange (n : Nat) (u : Bool) (v : Int) : Prop := if u then 0 ≤ v ∧ v < 2 ^ n else -2 ^ n ≤ 2 * v ∧ 2 * v < 2 ^ n

section

variable {m n : Nat} {u : Bool} {v w : Int}

/-- A number that is cut fits. -/
theorem inRange_wrap (n : Nat) (u : Bool) (v : Int) : InRange n u (wrap n u v) := by
  have hpos : (0 : Int) < 2 ^ n := by positivity
  cases u with
  | true => exact ⟨emod_nonneg v (by omega), emod_lt_of_pos v hpos⟩
  | false =>
    have hcast : ((2 ^ n : Nat) : Int) = 2 ^ n := by push_cast; rfl
    have hlo := @Int.le_bmod v (2 ^ n) (Nat.two_pow_pos n)
    have hhi := @Int.bmod_lt v (2 ^ n) (Nat.two_pow_pos n)
    show -2 ^ n ≤ 2 * v.bmod (2 ^ n) ∧ 2 * v.bmod (2 ^ n) < 2 ^ n
    cases n with
    | zero => simp
    | succ n =>
      omega

/-- What is cut off is a multiple of `2 ^ n`. -/
theorem dvd_wrap_sub (n : Nat) (u : Bool) (v : Int) : (2 : Int) ^ n ∣ wrap n u v - v := by
  have hcast : ((2 ^ n : Nat) : Int) = 2 ^ n := by push_cast; rfl
  cases u with
  | true => exact dvd_of_emod_eq_zero (by simp [wrap, sub_emod])
  | false => exact hcast ▸ dvd_bmod_sub_self

theorem InRange.unique (hv : InRange n u v) (hw : InRange n u w) (h : (2 : Int) ^ n ∣ v - w) : v = w := by
  obtain ⟨q, hq⟩ := h
  have hlt : -2 ^ n < v - w ∧ v - w < 2 ^ n := by
    cases u with
    | true =>
      obtain ⟨hv0, hv1⟩ := hv
      obtain ⟨hw0, hw1⟩ := hw
      omega
    | false =>
      obtain ⟨hv0, hv1⟩ := hv
      obtain ⟨hw0, hw1⟩ := hw
      omega
  have hq0 : q = 0 := by
    have hlo : -1 < q := by nlinarith
    have hhi : q < 1 := by nlinarith
    omega
  rw [hq0, mul_zero] at hq
  omega

theorem wrap_congr (h : (2 : Int) ^ n ∣ v - w) : wrap n u v = wrap n u w := by
  refine (inRange_wrap n u v).unique (inRange_wrap n u w) ?_
  have hsum := ((dvd_wrap_sub n u v).add h).sub (dvd_wrap_sub n u w)
  rwa [show wrap n u v - v + (v - w) - (wrap n u w - w) = wrap n u v - wrap n u w by ring] at hsum

theorem wrap_of_inRange (h : InRange n u v) : wrap n u v = v := (inRange_wrap n u v).unique h (dvd_wrap_sub n u v)

theorem wrap_wrap (h : n ≤ m) (u s : Bool) (v : Int) : wrap n u (wrap m s v) = wrap n u v :=
  wrap_congr ((pow_dvd_pow 2 h).trans (dvd_wrap_sub m s v))

theorem InRange.mono (hv : InRange n u v) (h : n ≤ m) : InRange m u v := by
  have hpow : (2 : Int) ^ n ≤ 2 ^ m := pow_le_pow_right₀ (by decide) h
  cases u with
  | true =>
    obtain ⟨hv0, hv1⟩ := hv
    exact ⟨hv0, by omega⟩
  | false =>
    obtain ⟨hv0, hv1⟩ := hv
    show -2 ^ m ≤ 2 * v ∧ 2 * v < 2 ^ m
    omega

theorem InRange.signed (hv : InRange n true v) (h : n < m) : InRange m false v := by
  have hpow : (2 : Int) ^ (n + 1) ≤ 2 ^ m := pow_le_pow_right₀ (by decide) h
  obtain ⟨hv0, hv1⟩ := hv
  show -2 ^ m ≤ 2 * v ∧ 2 * v < 2 ^ m
  omega

theorem setWidth_ofInt (h : n ≤ m) (v : Int) : (BitVec.ofInt m v).setWidth n = BitVec.ofInt n v := by
  apply BitVec.eq_of_toNat_eq
  have hcast : ∀ k : Nat, ((2 ^ k : Nat) : Int) = 2 ^ k := fun k => by push_cast; rfl
  have hm := emod_nonneg v (show ((2 : Int) ^ m) ≠ 0 by positivity)
  apply ofNat_inj.1
  rw [BitVec.toNat_setWidth, BitVec.toNat_ofInt, BitVec.toNat_ofInt, natCast_emod, hcast, hcast,
    toNat_of_nonneg hm, toNat_of_nonneg (emod_nonneg v (by positivity)),
    emod_emod_of_dvd v (pow_dvd_pow 2 h)]

/-- Two numbers have the same bits when they differ by a multiple of `2 ^ n`. -/
theorem ofInt_eq_iff : BitVec.ofInt n v = BitVec.ofInt n w ↔ (2 : Int) ^ n ∣ v - w := by
  have hcast : ((2 ^ n : Nat) : Int) = 2 ^ n := by push_cast; rfl
  constructor
  · intro h
    have hint := congrArg BitVec.toInt h
    rw [BitVec.toInt_ofInt, BitVec.toInt_ofInt] at hint
    have hv := dvd_wrap_sub n false v
    rw [show wrap n false v = wrap n false w from hint] at hv
    have hdiff := (dvd_wrap_sub n false w).sub hv
    rwa [sub_sub_sub_cancel_left] at hdiff
  intro h
  apply BitVec.eq_of_toNat_eq
  rw [BitVec.toNat_ofInt, BitVec.toNat_ofInt, hcast,
    emod_eq_emod_iff_emod_sub_eq_zero.2 (emod_eq_zero_of_dvd h)]

theorem signExtend_ofInt (v : Int) : (BitVec.ofInt n v).signExtend m = BitVec.ofInt m (wrap n false v) := by
  rw [BitVec.signExtend, BitVec.toInt_ofInt]
  rfl

/-- A zero extension keeps the unsigned number. -/
theorem zeroExtend_ofInt (h : n ≤ m) (v : Int) : (BitVec.ofInt n v).setWidth m = BitVec.ofInt m (wrap n true v) := by
  have hcast : ∀ k : Nat, ((2 ^ k : Nat) : Int) = 2 ^ k := fun k => by push_cast; rfl
  obtain ⟨hlo, hhi⟩ := inRange_wrap n true v
  have hpow : (2 : Int) ^ n ≤ 2 ^ m := pow_le_pow_right₀ (by decide) h
  have hsmall : wrap n true v % 2 ^ m = wrap n true v := emod_eq_of_lt hlo (by omega)
  apply BitVec.eq_of_toNat_eq
  apply ofNat_inj.1
  rw [BitVec.toNat_setWidth, BitVec.toNat_ofInt, BitVec.toNat_ofInt, natCast_emod, hcast, hcast, hsmall]
  show ((wrap n true v).toNat : Int) % 2 ^ m = _
  rw [toNat_of_nonneg hlo, hsmall]

end

end Slopix.Lib
