import Mathlib.Algebra.Group.Nat.Defs
import Mathlib.Tactic.Common

/-!
# The value of `wait`

`sys_wait` and `sys_waitpid` return the pid of a child and how it ended in one `int`: the pid from bit
16 on, the exit code or the stop signal from bit 8 on, the signal in the low seven bits. Nothing is
masked but the signal, so the fields can overlap.
-/

namespace Slopix.Kernel

/-- The value `encode_wait_status` returns. -/
def packExit (pid exitCode : BitVec 32) : BitVec 32 :=
  if exitCode.slt 0 then pid <<< 16 ||| (-exitCode &&& 0x7f) else pid <<< 16 ||| exitCode <<< 8

/-- The value `sys_waitpid` returns for a stopped child. -/
def packStop (pid sig : BitVec 32) : BitVec 32 := pid <<< 16 ||| sig <<< 8 ||| 0x7f

section

theorem mul_two_pow_or {a b n : Nat} (h : b < 2 ^ n) : a * 2 ^ n ||| b = a * 2 ^ n + b := by
  rw [← Nat.shiftLeft_eq, Nat.shiftLeft_add_eq_or_of_lt h]

/-- The pid is combined with what reaches beyond the low 16 bits. -/
theorem toNat_shiftLeft_or (pid w : BitVec 32) :
    (pid <<< 16 ||| w).toNat =
      (pid.toNat % 65536 ||| w.toNat / 65536) * 65536 + w.toNat % 65536 := by
  have hlow : w.toNat % 65536 < 2 ^ 16 := Nat.mod_lt _ (by decide)
  have hw : w.toNat = w.toNat / 65536 * 2 ^ 16 ||| w.toNat % 65536 := by
    rw [mul_two_pow_or hlow]
    omega
  have hpid : (pid <<< 16).toNat = pid.toNat % 65536 * 2 ^ 16 := by
    rw [BitVec.toNat_shiftLeft, Nat.shiftLeft_eq]
    omega
  have hhigh : ∀ a b : Nat, a * 2 ^ 16 ||| b * 2 ^ 16 = (a ||| b) * 2 ^ 16 := by
    intro a b
    rw [← Nat.shiftLeft_eq, ← Nat.shiftLeft_eq, ← Nat.shiftLeft_eq, Nat.shiftLeft_or_distrib]
  rw [BitVec.toNat_or, hpid]
  conv_lhs => rw [hw]
  rw [← Nat.or_assoc, hhigh]
  exact mul_two_pow_or hlow

theorem or_lt_65536 (pid w : BitVec 32) : pid.toNat % 65536 ||| w.toNat / 65536 < 65536 :=
  Nat.or_lt_two_pow (n := 16) (Nat.mod_lt _ (by decide)) (by have := w.isLt; omega)

end

end Slopix.Kernel
