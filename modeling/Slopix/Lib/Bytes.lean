import Mathlib.Tactic.Ring
import Mathlib.Tactic.Linarith

/-!
# Little-endian numbers in byte memory

A memory is a function from offsets to bytes. `getLe n b o` reads the `n` bytes from offset `o` as a
little-endian number and `putLe n b o v` stores one. Reading back what was stored gives the number,
and a store leaves the bytes outside its range alone.
-/

namespace Slopix.Lib

open List

/-- A memory: a byte at each address. -/
abbrev Bytes := Nat → UInt8

/-- Read `n` bytes at `o`, least significant byte first. -/
def getLe : Nat → Bytes → Nat → Nat
  | 0, _, _ => 0
  | n + 1, b, o => (b o).toNat + 256 * getLe n b (o + 1)

/-- Store the low `n` bytes of `v` at `o`. -/
def putLe (n : Nat) (b : Bytes) (o v : Nat) : Bytes :=
  fun k => if o ≤ k ∧ k < o + n then UInt8.ofNat (v / 256 ^ (k - o)) else b k

/-- Store a list of bytes at `o`. -/
def putBytes (b : Bytes) (o : Nat) (bs : List UInt8) : Bytes :=
  fun k => if o ≤ k ∧ k < o + bs.length then bs.getD (k - o) 0 else b k

/-- The `n` bytes at `o`. -/
def getBytes (b : Bytes) (o n : Nat) : List UInt8 := (List.range n).map fun k => b (o + k)

theorem getLe_lt (n : Nat) (b : Bytes) (o : Nat) : getLe n b o < 256 ^ n := by
  induction n generalizing o with
  | zero => simp [getLe]
  | succ n ih =>
    have hhead : (b o).toNat < 256 := (b o).toNat_lt
    have htail := ih (o + 1)
    rw [getLe, pow_succ]
    omega

/-- A number depends on its bytes only. -/
theorem getLe_congr {n : Nat} {b b' : Bytes} {o : Nat}
    (h : ∀ k, o ≤ k → k < o + n → b k = b' k) : getLe n b o = getLe n b' o := by
  induction n generalizing o with
  | zero => rfl
  | succ n ih =>
    have htail : getLe n b (o + 1) = getLe n b' (o + 1) := by
      apply ih
      intro k hk hk'
      exact h k (by omega) (by omega)
    rw [getLe, getLe, h o (le_refl o) (by omega), htail]

/-- A store elsewhere leaves a number as it is. -/
theorem getLe_putLe_of_disjoint {n m : Nat} {b : Bytes} {o o' v : Nat}
    (h : o + n ≤ o' ∨ o' + m ≤ o) : getLe n (putLe m b o' v) o = getLe n b o := by
  apply getLe_congr
  intro k hk hk'
  simp only [putLe]
  rw [if_neg (by omega)]

/-- Any memory whose bytes at `o` are those of `v` reads as `v`. -/
theorem getLe_of_bytes {n : Nat} {b : Bytes} {o v : Nat} (hv : v < 256 ^ n)
    (h : ∀ k < n, b (o + k) = UInt8.ofNat (v / 256 ^ k)) : getLe n b o = v := by
  induction n generalizing o v with
  | zero =>
    rw [getLe]
    omega
  | succ n ih =>
    have hhead := h 0 (by omega)
    have htail : getLe n b (o + 1) = v / 256 := by
      apply ih
      · rw [pow_succ] at hv
        omega
      intro k hk
      have hbyte := h (k + 1) (by omega)
      rw [← add_assoc] at hbyte
      rw [add_assoc, add_comm 1 k, ← add_assoc, hbyte, Nat.div_div_eq_div_mul, pow_succ, mul_comm]
    simp only [add_zero, pow_zero, Nat.div_one] at hhead
    rw [getLe, htail, hhead, UInt8.toNat_ofNat']
    omega

/-- A number that is stored reads back. -/
theorem getLe_putLe_self {n : Nat} {b : Bytes} {o v : Nat} (hv : v < 256 ^ n) :
    getLe n (putLe n b o v) o = v := by
  apply getLe_of_bytes hv
  intro k hk
  simp only [putLe]
  rw [if_pos (by omega), Nat.add_sub_cancel_left]

@[simp] theorem getLe_zero (n o : Nat) : getLe n (fun _ => 0) o = 0 := by
  induction n generalizing o with
  | zero => rfl
  | succ n ih => rw [getLe, ih]; rfl

theorem length_getBytes (b : Bytes) (o n : Nat) : (getBytes b o n).length = n := by
  simp [getBytes]

theorem putBytes_snoc (b : Bytes) (l : List UInt8) (c : UInt8) :
    putBytes b 0 (l ++ [c]) = Function.update (putBytes b 0 l) l.length c := by
  funext i
  rcases Nat.lt_trichotomy i l.length with hlt | rfl | hgt
  · rw [Function.update_of_ne (by omega)]
    simp [putBytes, hlt, Nat.lt_succ_of_lt hlt]
  · simp [putBytes]
  rw [Function.update_of_ne (by omega)]
  have hout : ¬ i < l.length := by omega
  have hout' : ¬ i < l.length + 1 := by omega
  simp [putBytes, hout, hout']

theorem getBytes_putBytes_drop {b : Bytes} {bs : List UInt8} {o n : Nat} (h : o + n ≤ bs.length) :
    getBytes (putBytes b 0 bs) o n = (bs.drop o).take n := by
  apply ext_getElem
  · rw [length_getBytes, length_take, length_drop]
    omega
  intro k hk hk'
  have hlt : k < n := length_getBytes _ o n ▸ hk
  simp only [getBytes, getElem_map, getElem_range, getElem_take, getElem_drop]
  rw [putBytes, if_pos (by omega), Nat.sub_zero, getD_eq_getElem?_getD,
    getElem?_eq_getElem (by omega), Option.getD_some]

/-! ## Byte arrays -/

/-- The bytes from `off` on are replaced by `data`, which may reach beyond the end. -/
def overwrite (bs : List UInt8) (off : Nat) (data : List UInt8) : List UInt8 :=
  bs.take off ++ data ++ bs.drop (off + data.length)

section

variable {bs data : List UInt8} {off k : Nat}

theorem length_overwrite (h : off ≤ bs.length) :
    (overwrite bs off data).length = max bs.length (off + data.length) := by
  unfold overwrite
  rw [length_append, length_append, length_take, length_drop]
  omega

theorem getElem?_overwrite (h : off ≤ bs.length) : (overwrite bs off data)[k]? =
    if off ≤ k ∧ k < off + data.length then data[k - off]? else bs[k]? := by
  unfold overwrite
  rw [append_assoc]
  by_cases hfront : k < off
  · rw [if_neg (by omega), getElem?_append_left (by rw [length_take]; omega), getElem?_take,
      if_pos hfront]
  have hlen : (bs.take off).length = off := by
    rw [length_take]
    omega
  rw [getElem?_append_right (by omega), hlen]
  by_cases hin : k < off + data.length
  · rw [if_pos ⟨by omega, hin⟩, getElem?_append_left (by omega)]
  · rw [if_neg (by omega), getElem?_append_right (by omega), getElem?_drop]
    congr 1
    omega

end

end Slopix.Lib
