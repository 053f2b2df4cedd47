import Slopix.Lib.BitField
import Slopix.Lib.BitRun

/-!
# Logical immediates

`encode_logical_imm` of the assembler, and the decoding of its three fields by the architecture. A value that can be
encoded is made of equal elements with one rotated run of ones. The code looks for a run that does not reach around the
end of its element, and never tries elements of 32 bits for a 32-bit register.
-/

namespace Slopix.As

open Lib

/-! ## The encoder -/

/-- `LogicalImm`. -/
structure LogicalImm where
  n : Nat
  imms : Nat
  immr : Nat
  deriving DecidableEq, Repr

/-- The loop of `ctz64`, on a value that is not zero. -/
def ctzLoop : Nat → BitVec 64 → Nat → Nat
  | 0, _, count => count
  | fuel + 1, val, count => if val.getLsbD 0 then count else ctzLoop fuel (val >>> 1) (count + 1)

/-- `ctz64`; 64 for zero. -/
def ctz64 (val : BitVec 64) : Nat := if val = 0 then 64 else ctzLoop 64 val 0

/-- `ror64`. -/
def ror64 (val : BitVec 64) (amount : Nat) : BitVec 64 :=
  if amount % 64 = 0 then val else val >>> (amount % 64) ||| val <<< (64 - amount % 64)

/-- `mask` for an element. -/
def elemMask (size : Nat) : BitVec 64 := if size = 64 then BitVec.allOnes 64 else 1#64 <<< size - 1#64

/-- The inner loop: every element of the value is the first one. -/
def elemsMatch (size : Nat) (val : BitVec 64) : Bool :=
  (List.range (64 / size)).all fun i => (val >>> (i * size)) &&& elemMask size == val &&& elemMask size

/-- The loop that doubles the element until its copies make the value. -/
def sizeLoop (width : Nat) (val : BitVec 64) : Nat → Nat → Nat
  | 0, size => size
  | fuel + 1, size => if size < width then if elemsMatch size val then size else sizeLoop width val fuel (size * 2) else size

/-- The loop that counts the ones at the low end. -/
def onesLoop : Nat → BitVec 64 → Nat → Nat
  | 0, _, ones => ones
  | fuel + 1, tmp, ones => if tmp.getLsbD 0 then onesLoop fuel (tmp >>> 1) (ones + 1) else ones

/-- The upper bits of `imms`, which give the size of an element. -/
def sizeBits (size : Nat) : Option Nat :=
  match size with
  | 2 => some 0b111100
  | 4 => some 0b111000
  | 8 => some 0b110000
  | 16 => some 0b100000
  | 32 => some 0b000000
  | _ => none

/-- The value on 64 bits; that of a 32-bit register is taken twice. -/
def wideVal (sf : Bool) (val : BitVec 64) : BitVec 64 :=
  if sf then val else val &&& 0xFFFFFFFF#64 ||| (val &&& 0xFFFFFFFF#64) <<< 32

/-- `size` after the loop. -/
def elemSize (sf : Bool) (val : BitVec 64) : Nat :=
  let width := if sf then 64 else 32
  let size := sizeLoop width val 6 2
  if size = width ∧ sf = false then 64 else size

/-- The fields for an element of a given size. -/
def encodeElem (size : Nat) (val : BitVec 64) : Option LogicalImm :=
  let elem := val &&& elemMask size
  let rotation := ctz64 elem
  let rotated := if size < 64 then ror64 elem rotation &&& elemMask size else ror64 elem rotation
  let ones := onesLoop 64 rotated 0
  if rotated >>> ones ≠ 0 then none
  else if ones = 0 ∨ ones = size then none
  else if size = 64 then some ⟨1, ones - 1, (size - rotation) &&& (size - 1)⟩
  else (sizeBits size).map fun bits => ⟨0, bits ||| (ones - 1), (size - rotation) &&& (size - 1)⟩

/-- `encode_logical_imm`; `none` where it returns 0. -/
def encodeLogicalImm (sf : Bool) (val : BitVec 64) : Option LogicalImm :=
  let val := wideVal sf val
  if val = 0 ∨ val = BitVec.allOnes 64 then none else encodeElem (elemSize sf val) val

/-! ## The decoder of the architecture -/

/-- `DecodeBitMasks` for an immediate of `width` bits; `none` where it is undefined. -/
def decodeBitMasks (width : Nat) (f : LogicalImm) : Option (BitVec width) :=
  let len := (64 * f.n + (63 - f.imms)).log2
  let levels := 2 ^ len - 1
  if len < 1 ∨ width < 2 ^ len ∨ f.imms &&& levels = levels then none
  else
    let welem := BitVec.ofNat (2 ^ len) (2 ^ ((f.imms &&& levels) + 1) - 1)
    some (((welem.rotateRight (f.immr &&& levels)).replicate (width / 2 ^ len)).setWidth width)

/-- The fields have their widths in the instruction. -/
def LogicalImm.Valid (f : LogicalImm) : Prop := f.n < 2 ∧ f.imms < 64 ∧ f.immr < 64

/-- A value of a register that is a logical immediate. -/
def IsBitMask {width : Nat} (v : BitVec width) : Prop := ∃ f : LogicalImm, f.Valid ∧ decodeBitMasks width f = some v

example : encodeLogicalImm true 0xFF#64 = some ⟨1, 7, 0⟩ := by decide +kernel

example : decodeBitMasks 64 ⟨1, 7, 0⟩ = some 0xFF#64 := by decide +kernel

/-! ## Bits -/

section

variable {val : BitVec 64} {size i : Nat}

theorem getLsbD_elemMask (hsize : size ≤ 64) (i : Nat) : (elemMask size).getLsbD i = (decide (i < 64) && decide (i < size)) := by
  unfold elemMask
  split
  · rename_i h
    subst h
    rw [BitVec.getLsbD_allOnes, Bool.and_self]
  have hmask : 1#64 <<< size - 1#64 = BitVec.ofNat 64 (2 ^ size - 1) := by
    apply BitVec.eq_of_toNat_eq
    have hpos := Nat.two_pow_pos size
    rw [BitVec.toNat_sub, BitVec.toNat_shiftLeft, BitVec.toNat_ofNat, BitVec.toNat_ofNat, Nat.shiftLeft_eq]
    omega
  rw [hmask, getLsbD_lowMask]

theorem elemsMatch_iff (hsize : size ≤ 64) (hpos : 0 < size) (hdvd : size ∣ 64) :
    elemsMatch size val = true ↔ Periodic 64 size val.getLsbD := by
  obtain ⟨m, hm⟩ := hdvd
  have hcount : 64 / size = m := by rw [hm, Nat.mul_div_cancel_left m hpos]
  unfold elemsMatch
  rw [List.all_eq_true, hcount]
  constructor
  · intro h i hi
    have hq : i / size < m := (Nat.div_lt_iff_lt_mul hpos).2 (by rw [mul_comm, ← hm]; exact hi)
    have hr : i % size < size := Nat.mod_lt i hpos
    have hbit := congrArg (fun x => x.getLsbD (i % size)) (eq_of_beq (h (i / size) (List.mem_range.2 hq)))
    simp only [BitVec.getLsbD_and, getLsbD_elemMask hsize, BitVec.getLsbD_ushiftRight, hr,
      show i % size < 64 by omega, decide_true, Bool.and_true, Nat.div_add_mod' i size] at hbit
    exact hbit
  intro h k hk
  have hk := List.mem_range.1 hk
  refine beq_iff_eq.2 (BitVec.eq_of_getLsbD_eq fun j hj => ?_)
  simp only [BitVec.getLsbD_and, getLsbD_elemMask hsize, BitVec.getLsbD_ushiftRight]
  rcases lt_or_ge j size with hlt | hge
  · have hplace : k * size + j < 64 := by
      have hle : (k + 1) * size ≤ m * size := Nat.mul_le_mul_right size hk
      rw [mul_comm m, ← hm, add_mul] at hle
      omega
    rw [h _ hplace, mul_comm, Nat.mul_add_mod, Nat.mod_eq_of_lt hlt]
  · simp [not_lt.2 hge]

/-- The loop over the sizes stops at the first period, or at the width. -/
theorem sizeLoop_spec {w j fuel : Nat} (hj : j ≤ w) (hfuel : w ≤ j + fuel) : ∃ l, sizeLoop (2 ^ w) val fuel (2 ^ j) = 2 ^ l ∧
    j ≤ l ∧ l ≤ w ∧ (∀ t, j ≤ t → t < l → elemsMatch (2 ^ t) val = false) ∧ (l < w → elemsMatch (2 ^ l) val = true) := by
  induction fuel generalizing j with
  | zero => exact ⟨j, rfl, le_refl j, hj, fun t hjt htj => by omega, fun h => by omega⟩
  | succ fuel ih =>
    unfold sizeLoop
    rcases lt_or_eq_of_le hj with hlt | rfl
    · rw [if_pos (Nat.pow_lt_pow_right (by decide) hlt)]
      cases hmatch : elemsMatch (2 ^ j) val with
      | true =>
        exact ⟨j, rfl, le_refl j, hj, fun t hjt htj => by omega, fun _ => hmatch⟩
      | false =>
        obtain ⟨l, hl, hjl, hlw, hsmall, hstop⟩ := @ih (j + 1) hlt (by omega)
        refine ⟨l, hl, by omega, hlw, fun t hjt htl => ?_, hstop⟩
        rcases lt_or_eq_of_le hjt with hjt | rfl
        · exact hsmall t hjt htl
        · exact hmatch
    · rw [if_neg (lt_irrefl _)]
      exact ⟨j, rfl, le_refl j, le_refl j, fun t hjt htj => by omega, fun h => by omega⟩

theorem ctz64_spec {r : Nat} (hr : val.getLsbD r = true) (hlow : ∀ j < r, val.getLsbD j = false) : ctz64 val = r := by
  have hloop : ∀ fuel (v : BitVec 64) count r, r < fuel → v.getLsbD r = true → (∀ j < r, v.getLsbD j = false) →
      ctzLoop fuel v count = count + r := by
    intro fuel
    induction fuel with
    | zero => exact fun v count r hr => absurd hr (Nat.not_lt_zero r)
    | succ fuel ih =>
      intro v count r hr hone hzero
      unfold ctzLoop
      cases r with
      | zero => rw [if_pos hone, Nat.add_zero]
      | succ r =>
        rw [if_neg (Bool.eq_false_iff.1 (hzero 0 (Nat.succ_pos r))), ih (v >>> 1) (count + 1) r (by omega)]
        · omega
        · rw [BitVec.getLsbD_ushiftRight, Nat.add_comm]
          exact hone
        · intro j hj
          rw [BitVec.getLsbD_ushiftRight, add_comm]
          exact hzero (j + 1) (by omega)
  have hne : val ≠ 0 := by
    rintro rfl
    simp at hr
  unfold ctz64
  rw [if_neg hne, hloop 64 val 0 r (BitVec.lt_of_getLsbD hr) hr hlow, zero_add]

theorem exists_lowest (h : val ≠ 0) : ∃ r, val.getLsbD r = true ∧ ∀ j < r, val.getLsbD j = false := by
  have hex : ∃ r, val.getLsbD r = true := by
    by_contra hnone
    push Not at hnone
    exact h (BitVec.eq_of_getLsbD_eq fun i _ => by simpa using hnone i)
  exact ⟨Nat.find hex, Nat.find_spec hex, fun j hj => by simpa using Nat.find_min hex hj⟩

theorem onesLoop_spec {k : Nat} (hk : k ≤ 64) (hones : ∀ j < k, val.getLsbD j = true) (hzero : val.getLsbD k = false) :
    onesLoop 64 val 0 = k := by
  have hloop : ∀ fuel (v : BitVec 64) count k, k ≤ fuel → (∀ j < k, v.getLsbD j = true) → v.getLsbD k = false →
      onesLoop fuel v count = count + k := by
    intro fuel
    induction fuel with
    | zero =>
      intro v count k hk _ _
      obtain rfl : k = 0 := Nat.le_zero.1 hk
      rfl
    | succ fuel ih =>
      intro v count k hk hone hzero
      unfold onesLoop
      cases k with
      | zero => rw [if_neg (Bool.eq_false_iff.1 hzero), add_zero]
      | succ k =>
        rw [if_pos (hone 0 (Nat.succ_pos k)), ih (v >>> 1) (count + 1) k (by omega)]
        · omega
        · intro j hj
          rw [BitVec.getLsbD_ushiftRight, add_comm]
          exact hone (j + 1) (by omega)
        · rw [BitVec.getLsbD_ushiftRight, add_comm]
          exact hzero
  rw [hloop 64 val 0 k hk hones hzero, zero_add]

theorem exists_lowest_zero (val : BitVec 64) : ∃ k ≤ 64, (∀ j < k, val.getLsbD j = true) ∧ val.getLsbD k = false := by
  have hex : ∃ k, val.getLsbD k = false := ⟨64, BitVec.getLsbD_of_ge val 64 (le_refl 64)⟩
  have hle : Nat.find hex ≤ 64 := Nat.find_le (BitVec.getLsbD_of_ge val 64 (le_refl 64))
  exact ⟨Nat.find hex, hle, fun j hj => by simpa using Nat.find_min hex hj, Nat.find_spec hex⟩

end

/-! ## One element -/

section

variable {val elem : BitVec 64} {size l k r : Nat}

/-- The fields for a run of `k` ones in elements of `size` bits, rotated right by `rot`. -/
def maskFields (size k rot : Nat) : LogicalImm :=
  if size = 64 then ⟨1, k - 1, rot⟩ else ⟨0, (64 - 2 * size) ||| (k - 1), rot⟩

theorem rotated_bits (hsize : size ≤ 64) (hr : elem.getLsbD r = true) (hlow : ∀ j < r, elem.getLsbD j = false)
    (hhigh : ∀ j, size ≤ j → elem.getLsbD j = false) (j : Nat) :
    (if size < 64 then ror64 elem r &&& elemMask size else ror64 elem r).getLsbD j = elem.getLsbD (j + r) := by
  have hr64 : r < 64 := BitVec.lt_of_getLsbD hr
  have hror : (ror64 elem r).getLsbD j = elem.getLsbD (j + r) := by
    unfold ror64
    rw [Nat.mod_eq_of_lt hr64]
    split
    · rename_i h0
      rw [h0, add_zero]
    rw [BitVec.getLsbD_or, BitVec.getLsbD_ushiftRight, BitVec.getLsbD_shiftLeft, add_comm r j]
    rcases lt_or_ge j 64 with hj | hj
    · rcases lt_or_ge j (64 - r) with hlt | hge
      · simp [hlt]
      · simp [not_lt.2 hge, hlow (j - (64 - r)) (by omega)]
    · simp [not_lt.2 hj]
  split
  · rw [BitVec.getLsbD_and, hror, getLsbD_elemMask hsize]
    rcases lt_or_ge j size with hj | hj
    · simp [hj, show j < 64 by omega]
    · simp [hhigh (j + r) (by omega)]
  · exact hror

theorem sizeBits_pow (hl : 1 ≤ l) (hl6 : l < 6) : sizeBits (2 ^ l) = some (64 - 2 * 2 ^ l) := by
  obtain rfl | rfl | rfl | rfl | rfl : l = 1 ∨ l = 2 ∨ l = 3 ∨ l = 4 ∨ l = 5 := by omega
  all_goals rfl

/-- What the code computes for an element with its lowest one at `r` and `k` ones from there. -/
theorem encodeElem_eq {f : LogicalImm} (hl : 1 ≤ l) (hl6 : l ≤ 6) (hr : (val &&& elemMask (2 ^ l)).getLsbD r = true)
    (hlow : ∀ j < r, (val &&& elemMask (2 ^ l)).getLsbD j = false)
    (hones : ∀ j < k, (val &&& elemMask (2 ^ l)).getLsbD (j + r) = true)
    (hzero : (val &&& elemMask (2 ^ l)).getLsbD (k + r) = false) : encodeElem (2 ^ l) val = some f ↔
      (∀ j, k ≤ j → (val &&& elemMask (2 ^ l)).getLsbD (j + r) = false) ∧ k ≠ 2 ^ l ∧
        f = maskFields (2 ^ l) k ((2 ^ l - r) % 2 ^ l) := by
  have hsize : 2 ^ l ≤ 64 := Nat.pow_le_pow_right (by decide) hl6
  have hbits : ∀ j, (val &&& elemMask (2 ^ l)).getLsbD j = (val.getLsbD j && decide (j < 2 ^ l)) := by
    intro j
    rw [BitVec.getLsbD_and, getLsbD_elemMask hsize]
    rcases lt_or_ge j 64 with hj | hj
    · simp [hj]
    · simp [BitVec.getLsbD_of_ge val j hj]
  have hhigh : ∀ j, 2 ^ l ≤ j → (val &&& elemMask (2 ^ l)).getLsbD j = false := by
    intro j hj
    simp [hbits, not_lt.2 hj]
  have hk64 : k ≤ 64 := by
    by_contra hgt
    have hone := BitVec.lt_of_getLsbD (hones 64 (by omega))
    omega
  have hk0 : k ≠ 0 := by
    rintro rfl
    rw [zero_add, hr] at hzero
    cases hzero
  unfold encodeElem
  dsimp only
  generalize val &&& elemMask (2 ^ l) = elem at *
  rw [ctz64_spec hr hlow]
  have hrot := rotated_bits hsize hr hlow hhigh
  generalize (if 2 ^ l < 64 then ror64 elem r &&& elemMask (2 ^ l) else ror64 elem r) = rotated at *
  rw [onesLoop_spec hk64 (fun j hj => by rw [hrot]; exact hones j hj) (by rw [hrot]; exact hzero)]
  have hrest : rotated >>> k = 0 ↔ ∀ j, k ≤ j → elem.getLsbD (j + r) = false := by
    constructor
    · intro heq j hj
      have hbit := congrArg (fun x => x.getLsbD (j - k)) heq
      simp only [BitVec.getLsbD_ushiftRight, hrot, BitVec.ofNat_eq_ofNat, BitVec.getLsbD_zero] at hbit
      rwa [show k + (j - k) + r = j + r by omega] at hbit
    intro hall
    refine BitVec.eq_of_getLsbD_eq fun j _ => ?_
    rw [BitVec.getLsbD_ushiftRight, hrot, hall (k + j) (Nat.le_add_right k j)]
    exact BitVec.getLsbD_zero.symm
  have himmr : (2 ^ l - r) &&& (2 ^ l - 1) = (2 ^ l - r) % 2 ^ l := Nat.and_two_pow_sub_one_eq_mod _ _
  have hfields : (if 2 ^ l = 64 then some ⟨1, k - 1, (2 ^ l - r) % 2 ^ l⟩
      else (sizeBits (2 ^ l)).map fun bits => (⟨0, bits ||| (k - 1), (2 ^ l - r) % 2 ^ l⟩ : LogicalImm)) =
        some (maskFields (2 ^ l) k ((2 ^ l - r) % 2 ^ l)) := by
    unfold maskFields
    split
    · rfl
    rename_i h64
    have hl5 : l < 6 := by
      rcases lt_or_eq_of_le hl6 with h | rfl
      · exact h
      · exact absurd rfl h64
    rw [sizeBits_pow hl hl5]
    rfl
  rw [himmr, ← hrest]
  by_cases hmore : rotated >>> k = 0
  · rw [if_neg (not_not.2 hmore)]
    by_cases hfull : k = 2 ^ l
    · rw [if_pos (Or.inr hfull)]
      simp [hfull]
    · rw [if_neg (not_or.2 ⟨hk0, hfull⟩), hfields]
      simp [hmore, hfull, eq_comm]
  · rw [if_pos hmore]
    exact ⟨fun h => (by cases h), fun h => absurd h.1 hmore⟩

/-- An element is encoded exactly when it is a run that does not reach around its end. -/
theorem encodeElem_spec {f : LogicalImm} (hl : 1 ≤ l) (hl6 : l ≤ 6) (hne : val &&& elemMask (2 ^ l) ≠ 0) :
    encodeElem (2 ^ l) val = some f ↔ ∃ k r, 0 < k ∧ k < 2 ^ l ∧ r + k ≤ 2 ^ l ∧
      IsRun (2 ^ l) (2 ^ l) k r val.getLsbD ∧ f = maskFields (2 ^ l) k ((2 ^ l - r) % 2 ^ l) := by
  have hsize : 2 ^ l ≤ 64 := Nat.pow_le_pow_right (by decide) hl6
  have hin : ∀ j < 2 ^ l, (val &&& elemMask (2 ^ l)).getLsbD j = val.getLsbD j := by
    intro j hj
    rw [BitVec.getLsbD_and, getLsbD_elemMask hsize]
    simp [hj, show j < 64 by omega]
  have hout : ∀ j, (val &&& elemMask (2 ^ l)).getLsbD j = true → j < 2 ^ l := by
    intro j hj
    rw [BitVec.getLsbD_and, getLsbD_elemMask hsize] at hj
    simp at hj
    exact hj.2.2
  obtain ⟨r, hr, hlow⟩ := exists_lowest hne
  obtain ⟨k, hk, hones, hzero⟩ := exists_lowest_zero ((val &&& elemMask (2 ^ l)) >>> r)
  simp only [BitVec.getLsbD_ushiftRight, add_comm r] at hones hzero
  rw [encodeElem_eq hl hl6 hr hlow hones hzero]
  generalize val &&& elemMask (2 ^ l) = elem at *
  have hk0 : k ≠ 0 := by
    rintro rfl
    rw [zero_add, hr] at hzero
    cases hzero
  constructor
  · rintro ⟨hmore, hfull, rfl⟩
    have hend := hout _ (hones (k - 1) (by omega))
    refine ⟨k, r, by omega, by omega, by omega, fun i hi => ?_, rfl⟩
    rw [Nat.mod_eq_of_lt hi, ← hin i hi]
    rcases lt_or_ge i r with hlt | hge
    · rw [hlow i hlt, eq_comm, decide_eq_false_iff_not]
      omega
    obtain ⟨j, rfl⟩ : ∃ j, i = j + r := ⟨i - r, by omega⟩
    rcases lt_or_ge j k with hlt | hge
    · rw [hones j hlt, eq_comm, decide_eq_true_eq]
      omega
    · rw [hmore j hge, eq_comm, decide_eq_false_iff_not]
      omega
  rintro ⟨k', r', hk', hke, hrk, hrun, rfl⟩
  have hbit : ∀ j < 2 ^ l, elem.getLsbD j = true ↔ r' ≤ j ∧ j < r' + k' := by
    intro j hj
    rw [hin j hj, hrun j hj, Nat.mod_eq_of_lt hj, decide_eq_true_eq]
  obtain rfl : r' = r := by
    have hfirst := (hbit r (hout r hr)).1 hr
    rcases lt_or_eq_of_le hfirst.1 with hlt | heq
    · have hone := (hbit r' (by omega)).2 ⟨le_refl r', by omega⟩
      rw [hlow r' hlt] at hone
      cases hone
    · exact heq
  obtain rfl : k' = k := by
    rcases Nat.lt_trichotomy k' k with hlt | heq | hgt
    · have hone := hones k' hlt
      have hin' := (hbit _ (hout _ hone)).1 hone
      omega
    · exact heq
    · have hone := (hbit (k + r') (by omega)).2 (by omega)
      rw [hzero] at hone
      cases hone
  refine ⟨fun j hj => ?_, by omega, rfl⟩
  by_contra hone
  rw [Bool.not_eq_false] at hone
  have hin' := (hbit _ (hout _ hone)).1 hone
  omega

end

/-! ## The decoder -/

section

variable {w k l : Nat}

theorem getLsbD_rotated_ones {e R j : Nat} (hk : k < e) (hR : R < e) (hj : j < e) :
    ((BitVec.ofNat e (2 ^ k - 1)).rotateRight R).getLsbD j = decide ((j + R) % e < k) := by
  rw [BitVec.getLsbD_rotateRight, getLsbD_lowMask, getLsbD_lowMask, Nat.mod_eq_of_lt hR]
  rcases lt_or_ge j (e - R) with hlt | hge
  · rw [Nat.mod_eq_of_lt (by omega), add_comm j]
    simp [hlt, show R + j < e by omega]
  · rw [Nat.mod_eq_sub_mod (by omega), Nat.mod_eq_of_lt (by omega), show j - (e - R) = j + R - e by omega]
    simp [not_lt.2 hge, hj, show j + R - e < e by omega]

/-- What the decoder makes of the fields: the size of an element, the length of the run, and the rotation. -/
theorem decode_spec {f : LogicalImm} {v : BitVec (2 ^ w)} (hlen : (64 * f.n + (63 - f.imms)).log2 = l) :
    decodeBitMasks (2 ^ w) f = some v ↔ 1 ≤ l ∧ l ≤ w ∧ f.imms % 2 ^ l + 1 < 2 ^ l ∧
      IsRotatedRun (2 ^ w) (2 ^ l) (f.imms % 2 ^ l + 1) (f.immr % 2 ^ l) v.getLsbD := by
  have hpos := Nat.two_pow_pos l
  have hrot := Nat.mod_lt f.immr hpos
  unfold decodeBitMasks
  dsimp only
  rw [hlen, Nat.and_two_pow_sub_one_eq_mod, Nat.and_two_pow_sub_one_eq_mod]
  by_cases hl : 1 ≤ l ∧ l ≤ w ∧ f.imms % 2 ^ l + 1 < 2 ^ l
  · obtain ⟨h1, hlw, hfull⟩ := hl
    have hle : 2 ^ l ≤ 2 ^ w := Nat.pow_le_pow_right (by decide) hlw
    have hwhole : 2 ^ l * (2 ^ w / 2 ^ l) = 2 ^ w := Nat.mul_div_cancel' (Nat.pow_dvd_pow 2 hlw)
    have hbits : ∀ i < 2 ^ w, ((((BitVec.ofNat (2 ^ l) (2 ^ (f.imms % 2 ^ l + 1) - 1)).rotateRight
        (f.immr % 2 ^ l)).replicate (2 ^ w / 2 ^ l)).setWidth (2 ^ w)).getLsbD i =
          decide ((i % 2 ^ l + f.immr % 2 ^ l) % 2 ^ l < f.imms % 2 ^ l + 1) := by
      intro i hi
      rw [BitVec.getLsbD_setWidth, BitVec.getLsbD_replicate, hwhole, getLsbD_rotated_ones hfull hrot (Nat.mod_lt i hpos)]
      simp [hi]
    rw [if_neg (by omega), Option.some.injEq]
    constructor
    · rintro rfl
      exact ⟨h1, hlw, hfull, hbits⟩
    · rintro ⟨-, -, -, hrun⟩
      refine BitVec.eq_of_getLsbD_eq fun i hi => ?_
      rw [hbits i hi, hrun i hi]
  have hbad : l < 1 ∨ 2 ^ w < 2 ^ l ∨ f.imms % 2 ^ l = 2 ^ l - 1 := by
    rcases lt_or_ge w l with hwl | hwl
    · exact Or.inr (Or.inl (Nat.pow_lt_pow_right (by decide) hwl))
    · omega
  rw [if_pos hbad]
  exact ⟨fun h => (by cases h), fun h => absurd ⟨h.1, h.2.1, h.2.2.1⟩ hl⟩

theorem maskFields_log2 {rot : Nat} (hl : 1 ≤ l) (hl6 : l ≤ 6) (hk : 0 < k) (hke : k < 2 ^ l) (hrot : rot < 2 ^ l) :
    (64 * (maskFields (2 ^ l) k rot).n + (63 - (maskFields (2 ^ l) k rot).imms)).log2 = l ∧
      (maskFields (2 ^ l) k rot).imms % 2 ^ l = k - 1 ∧ (maskFields (2 ^ l) k rot).immr % 2 ^ l = rot ∧
      (maskFields (2 ^ l) k rot).Valid := by
  unfold maskFields LogicalImm.Valid
  rcases lt_or_eq_of_le hl6 with hlt | rfl
  · have hdvd : 2 * 2 ^ l ∣ 64 := by
      rw [← Nat.pow_succ']
      exact Nat.pow_dvd_pow 2 hlt
    have hne : 2 ^ l ≠ 64 := ne_of_lt (Nat.pow_lt_pow_right (show 1 < 2 by decide) hlt)
    rw [if_neg hne]
    obtain ⟨c, hc⟩ := hdvd
    have hor : (64 - 2 * 2 ^ l) ||| (k - 1) = 64 - 2 * 2 ^ l + (k - 1) := by
      have hmul : 64 - 2 * 2 ^ l = 2 ^ (l + 1) * (c - 1) := by
        rw [Nat.pow_succ', Nat.mul_sub, ← hc, mul_one]
      rw [hmul]
      exact (Nat.two_pow_add_eq_or_of_lt (by rw [pow_succ]; omega) _).symm
    have hle : 2 * 2 ^ l ≤ 64 := by
      rw [hc]
      exact Nat.le_mul_of_pos_right _ (by rcases Nat.eq_zero_or_pos c with rfl | h <;> omega)
    dsimp only
    rw [hor]
    refine ⟨?_, ?_, Nat.mod_eq_of_lt hrot, by omega, by omega, by omega⟩
    · rw [mul_zero, zero_add, Nat.log2_eq_iff (by omega), pow_succ]
      omega
    · have hmul : 64 - 2 * 2 ^ l = 2 ^ l * (2 * (c - 1)) := by
        rw [← mul_assoc, mul_comm (2 ^ l) 2, Nat.mul_sub, ← hc, mul_one]
      rw [hmul, Nat.mul_add_mod, Nat.mod_eq_of_lt (by omega)]
  rw [if_pos (show 2 ^ 6 = 64 from rfl)]
  dsimp only
  refine ⟨?_, Nat.mod_eq_of_lt (by omega), Nat.mod_eq_of_lt hrot, by omega, by omega, by omega⟩
  rw [Nat.log2_eq_iff (by omega)]
  omega

end

/-! ## The encoder and the decoder -/

/-- The width of the register. -/
def regWidth (sf : Bool) : Nat := if sf then 64 else 32

/-- The encoder succeeds exactly on the logical immediates, and its fields decode to the value. -/
def EncodesRight (sf : Bool) (val : BitVec 64) : Prop :=
  ((encodeLogicalImm sf val).isSome = true ↔ IsBitMask (val.setWidth (regWidth sf))) ∧
    ∀ f, encodeLogicalImm sf val = some f → f.Valid ∧ decodeBitMasks (regWidth sf) f = some (val.setWidth (regWidth sf))

/-- Equal elements with a run that stays inside its element; of 16 bits at most for a 32-bit register. -/
def IsPlainMask (sf : Bool) (val : BitVec 64) : Prop :=
  ∃ l k r, 1 ≤ l ∧ l ≤ (if sf then 6 else 4) ∧ 0 < k ∧ k < 2 ^ l ∧ r + k ≤ 2 ^ l ∧
    IsRun (regWidth sf) (2 ^ l) k r (val.setWidth (regWidth sf)).getLsbD

section

variable {val : BitVec 64} {sf : Bool} {l k r : Nat}

theorem getLsbD_wideVal (i : Nat) (hi : i < 64) :
    (wideVal sf val).getLsbD i = (val.setWidth (regWidth sf)).getLsbD (i % regWidth sf) := by
  cases sf with
  | true => simp [wideVal, regWidth, Nat.mod_eq_of_lt hi]
  | false =>
    have hmask : ∀ j, (val &&& 0xFFFFFFFF#64).getLsbD j = (decide (j < 32) && val.getLsbD j) := by
      intro j
      rw [BitVec.getLsbD_and, show 0xFFFFFFFF#64 = elemMask 32 from rfl, getLsbD_elemMask (by decide)]
      rcases lt_or_ge j 32 with hj | hj
      · simp [hj, show j < 64 by omega]
      · simp [not_lt.2 hj]
    simp only [wideVal, regWidth, Bool.false_eq_true, if_false, BitVec.getLsbD_or, BitVec.getLsbD_shiftLeft, hmask,
      BitVec.getLsbD_setWidth, Nat.mod_lt i (Nat.succ_pos 31), decide_true, Bool.true_and]
    rcases lt_or_ge i 32 with hlt | hge
    · simp [hlt, Nat.mod_eq_of_lt hlt]
    · rw [Nat.mod_eq_sub_mod hge, Nat.mod_eq_of_lt (by omega)]
      simp [hi, not_lt.2 hge, show i - 32 < 32 by omega]

theorem isRun_wideVal (hdvd : 2 ^ l ∣ regWidth sf) :
    IsRun 64 (2 ^ l) k r (wideVal sf val).getLsbD ↔ IsRun (regWidth sf) (2 ^ l) k r (val.setWidth (regWidth sf)).getLsbD := by
  have hpos : 0 < regWidth sf := by cases sf <;> decide
  have hle : regWidth sf ≤ 64 := by cases sf <;> decide
  constructor
  · intro h i hi
    rw [← h i (by omega), getLsbD_wideVal i (by omega), Nat.mod_eq_of_lt hi]
  · intro h i hi
    rw [getLsbD_wideVal i hi, h _ (Nat.mod_lt i hpos), Nat.mod_mod_of_dvd i hdvd]

/-- The size of the element of a plain mask is the one the loop stops at. -/
theorem elemSize_eq (hl : 1 ≤ l) (hlw : l ≤ if sf then 6 else 4) (hk : 0 < k) (hke : k < 2 ^ l) (hrk : r + k ≤ 2 ^ l)
    (hrun : IsRun 64 (2 ^ l) k r (wideVal sf val).getLsbD) : elemSize sf (wideVal sf val) = 2 ^ l := by
  have hl6 : l ≤ 6 := by
    cases sf
    · exact hlw.trans (by decide)
    · exact hlw
  have hsmall : ∀ t, 1 ≤ t → t < l → elemsMatch (2 ^ t) (wideVal sf val) = false := by
    intro t ht htl
    have hpow : 2 ^ l = 2 ^ t * 2 ^ (l - t) := by rw [← Nat.pow_add, Nat.add_sub_cancel' (le_of_lt htl)]
    have hsize : 2 ^ t ≤ 2 ^ 6 := Nat.pow_le_pow_right (by decide) (by omega)
    have hm : 2 ^ 1 ≤ 2 ^ (l - t) := Nat.pow_le_pow_right (by decide) (by omega)
    have hnot := hrun.not_periodic hk hke hrk (Nat.pow_le_pow_right (by decide) hl6) (Nat.two_pow_pos t) hm hpow
    rw [← elemsMatch_iff hsize (Nat.two_pow_pos t) (Nat.pow_dvd_pow 2 (show t ≤ 6 by omega))] at hnot
    exact Bool.eq_false_iff.2 hnot
  have hstop : elemsMatch (2 ^ l) (wideVal sf val) = true :=
    (elemsMatch_iff (Nat.pow_le_pow_right (by decide) hl6) (Nat.two_pow_pos l) (Nat.pow_dvd_pow 2 hl6)).2 hrun.periodic
  have hloop : ∀ w, l ≤ w → w ≤ 6 → sizeLoop (2 ^ w) (wideVal sf val) 6 2 = 2 ^ l := by
    intro w hlw hw
    obtain ⟨m, hm, h1m, hmw, hno, hyes⟩ := @sizeLoop_spec (wideVal sf val) w 1 6 (by omega) (by omega)
    rw [Nat.pow_one] at hm
    rw [hm]
    rcases Nat.lt_trichotomy m l with hlt | heq | hgt
    · have hfound := hyes (by omega)
      rw [hsmall m h1m hlt] at hfound
      cases hfound
    · rw [heq]
    · rw [hno l hl hgt] at hstop
      cases hstop
  unfold elemSize
  cases sf with
  | true =>
    have hsize : sizeLoop 64 (wideVal true val) 6 2 = 2 ^ l := hloop 6 hl6 (le_refl 6)
    simp [hsize]
  | false =>
    have hl4 : l ≤ 4 := hlw
    have hlt : 2 ^ l < 32 := Nat.pow_lt_pow_right (show 1 < 2 by decide) (show l < 5 by omega)
    have hsize : sizeLoop 32 (wideVal false val) 6 2 = 2 ^ l := hloop 5 (by omega) (by decide)
    simp [hsize, ne_of_lt hlt]

theorem periodic_wideVal : Periodic 64 (regWidth sf) (wideVal sf val).getLsbD := by
  have hpos : 0 < regWidth sf := by cases sf <;> decide
  have hle : regWidth sf ≤ 64 := by cases sf <;> decide
  intro i hi
  have hmod := Nat.mod_lt i hpos
  rw [getLsbD_wideVal i hi, getLsbD_wideVal (i % regWidth sf) (by omega), Nat.mod_mod]

theorem elemSize_spec : ∃ l, elemSize sf (wideVal sf val) = 2 ^ l ∧ 1 ≤ l ∧ l ≤ 6 ∧ (sf = false → l ≤ 4 ∨ l = 6) ∧
    Periodic 64 (2 ^ l) (wideVal sf val).getLsbD := by
  have hmatch : ∀ l < 6, elemsMatch (2 ^ l) (wideVal sf val) = true → Periodic 64 (2 ^ l) (wideVal sf val).getLsbD := by
    intro l hl
    have hsize : 2 ^ l ≤ 64 := Nat.pow_le_pow_right (by decide) (le_of_lt hl)
    exact (elemsMatch_iff hsize (Nat.two_pow_pos l) (Nat.pow_dvd_pow 2 (show l ≤ 6 by omega))).1
  have hwhole : Periodic 64 (2 ^ 6) (wideVal sf val).getLsbD := by
    intro i hi
    rw [Nat.mod_eq_of_lt (show i < 2 ^ 6 from hi)]
  unfold elemSize
  cases sf with
  | true =>
    obtain ⟨l, hl, h1, hw, -, hyes⟩ := @sizeLoop_spec (wideVal true val) 6 1 6 (by omega) (by omega)
    refine ⟨l, by simpa using hl, h1, hw, nofun, ?_⟩
    rcases lt_or_eq_of_le hw with hlt | rfl
    · exact hmatch l hlt (hyes hlt)
    · exact hwhole
  | false =>
    obtain ⟨l, hl, h1, hw, -, hyes⟩ := @sizeLoop_spec (wideVal false val) 5 1 6 (by omega) (by omega)
    have hl : sizeLoop 32 (wideVal false val) 6 2 = 2 ^ l := hl
    simp only [Bool.false_eq_true, if_false, and_true, hl]
    rcases lt_or_eq_of_le hw with hlt | rfl
    · have hne : 2 ^ l ≠ 32 := ne_of_lt (Nat.pow_lt_pow_right (show 1 < 2 by decide) hlt)
      exact ⟨l, if_neg hne, h1, by omega, fun _ => Or.inl (by omega), hmatch l (by omega) (hyes hlt)⟩
    · exact ⟨6, if_pos rfl, by decide, by decide, fun _ => Or.inr rfl, hwhole⟩

/-- A run, neither empty nor full, has a one and a zero. -/
theorem wideVal_ne (hk : 0 < k) (hke : k < 2 ^ l) (hrk : r + k ≤ 2 ^ l) (hl6 : 2 ^ l ≤ 64)
    (hrun : IsRun 64 (2 ^ l) k r (wideVal sf val).getLsbD) : wideVal sf val ≠ 0 ∧ wideVal sf val ≠ BitVec.allOnes 64 := by
  constructor
  · intro h0
    have hone := hrun r (by omega)
    rw [h0, Nat.mod_eq_of_lt (by omega)] at hone
    simp at hone
    omega
  intro hall
  rw [hall] at hrun
  rcases Nat.eq_zero_or_pos r with rfl | hr
  · have hzero := hrun k (by omega)
    rw [BitVec.getLsbD_allOnes, Nat.mod_eq_of_lt hke, eq_comm] at hzero
    simp [hke.trans_le hl6] at hzero
  · have hzero := hrun 0 (by omega)
    simp at hzero
    omega

/-- An encoding is returned exactly when the value repeats a rotated run of ones, and it names that run. -/
theorem encodeLogicalImm_spec {f : LogicalImm} : encodeLogicalImm sf val = some f ↔
    ∃ l k r, 1 ≤ l ∧ l ≤ (if sf then 6 else 4) ∧ 0 < k ∧ k < 2 ^ l ∧ r + k ≤ 2 ^ l ∧
      IsRun (regWidth sf) (2 ^ l) k r (val.setWidth (regWidth sf)).getLsbD ∧
        f = maskFields (2 ^ l) k ((2 ^ l - r) % 2 ^ l) := by
  have hdvd : ∀ l, l ≤ (if sf then 6 else 4) → 2 ^ l ∣ regWidth sf := by
    intro l hl
    cases sf
    · exact Nat.pow_dvd_pow 2 (show l ≤ 5 from hl.trans (by decide))
    · exact Nat.pow_dvd_pow 2 (show l ≤ 6 from hl)
  have hnonzero : ∀ l, l ≤ 6 → Periodic 64 (2 ^ l) (wideVal sf val).getLsbD → wideVal sf val ≠ 0 →
      wideVal sf val &&& elemMask (2 ^ l) ≠ 0 := by
    intro l hl hper hne hzero
    obtain ⟨i, hi, -⟩ := exists_lowest hne
    have hsize : 2 ^ l ≤ 64 := Nat.pow_le_pow_right (by decide) hl
    have hbit := congrArg (fun x => x.getLsbD (i % 2 ^ l)) hzero
    rw [hper i (BitVec.lt_of_getLsbD hi)] at hi
    simp [BitVec.getLsbD_and, hi, getLsbD_elemMask hsize] at hbit
    omega
  unfold encodeLogicalImm
  dsimp only
  constructor
  · intro h
    split at h
    · cases h
    rename_i hne
    rw [not_or] at hne
    obtain ⟨l, hl, h1, h6, hsmall, hper⟩ := @elemSize_spec val sf
    rw [hl, encodeElem_spec h1 h6 (hnonzero l h6 hper hne.1)] at h
    obtain ⟨k, r, hk, hke, hrk, hrun, rfl⟩ := h
    have hrun64 : IsRun 64 (2 ^ l) k r (wideVal sf val).getLsbD := by
      intro i hi
      rw [hper i hi, hrun _ (Nat.mod_lt i (Nat.two_pow_pos l)), Nat.mod_mod]
    have hlw : l ≤ if sf then 6 else 4 := by
      cases sf with
      | true => exact h6
      | false =>
        rcases hsmall rfl with h4 | rfl
        · exact h4
        · exact absurd periodic_wideVal (hrun64.not_periodic hk hke hrk (by decide) (by decide) (le_refl 2) rfl)
    exact ⟨l, k, r, h1, hlw, hk, hke, hrk, (isRun_wideVal (hdvd l hlw)).1 hrun64, rfl⟩
  rintro ⟨l, k, r, h1, hlw, hk, hke, hrk, hrun, rfl⟩
  have h6 : l ≤ 6 := by
    cases sf
    · exact hlw.trans (by decide)
    · exact hlw
  have hrun := (isRun_wideVal (hdvd l hlw)).2 hrun
  obtain ⟨hzero, hall⟩ := wideVal_ne hk hke hrk (Nat.pow_le_pow_right (by decide) h6) hrun
  rw [if_neg (not_or.2 ⟨hzero, hall⟩), elemSize_eq h1 hlw hk hke hrk hrun,
    encodeElem_spec h1 h6 (hnonzero l h6 hrun.periodic hzero)]
  refine ⟨k, r, hk, hke, hrk, fun i hi => hrun i (hi.trans_le ?_), rfl⟩
  exact Nat.pow_le_pow_right (by decide) h6

/-- What is accepted is a plain mask, and its fields decode to the value. -/
theorem decode_encodeLogicalImm {f : LogicalImm} (h : encodeLogicalImm sf val = some f) :
    f.Valid ∧ decodeBitMasks (regWidth sf) f = some (val.setWidth (regWidth sf)) := by
  obtain ⟨l, k, r, h1, hlw, hk, hke, hrk, hrun, rfl⟩ := encodeLogicalImm_spec.1 h
  have hrot := (isRun_iff_rotated (by omega) hrk).1 hrun
  have hlt : (2 ^ l - r) % 2 ^ l < 2 ^ l := Nat.mod_lt _ (Nat.two_pow_pos l)
  have h6 : l ≤ 6 := by
    cases sf
    · exact hlw.trans (by decide)
    · exact hlw
  obtain ⟨hlen, himms, himmr, hvalid⟩ := maskFields_log2 h1 h6 hk hke hlt
  refine ⟨hvalid, ?_⟩
  generalize maskFields (2 ^ l) k ((2 ^ l - r) % 2 ^ l) = f at *
  obtain rfl : f.imms % 2 ^ l + 1 = k := by omega
  rw [← himmr] at hrot
  cases sf with
  | true => exact (@decode_spec 6 l f (val.setWidth 64) hlen).2 ⟨h1, h6, hke, hrot⟩
  | false => exact (@decode_spec 5 l f (val.setWidth 32) hlen).2 ⟨h1, hlw.trans (by decide), hke, hrot⟩

theorem isSome_encodeLogicalImm : (encodeLogicalImm sf val).isSome = true ↔ IsPlainMask sf val := by
  rw [Option.isSome_iff_exists]
  constructor
  · rintro ⟨f, hf⟩
    obtain ⟨l, k, r, h1, hlw, hk, hke, hrk, hrun, -⟩ := encodeLogicalImm_spec.1 hf
    exact ⟨l, k, r, h1, hlw, hk, hke, hrk, hrun⟩
  · rintro ⟨l, k, r, h1, hlw, hk, hke, hrk, hrun⟩
    exact ⟨_, encodeLogicalImm_spec.2 ⟨l, k, r, h1, hlw, hk, hke, hrk, hrun, rfl⟩⟩

/-- **The encoder is right about a value exactly when the value is no logical immediate, or its run stays inside an
element of a size that the code tries.** -/
theorem encodesRight_iff (sf : Bool) (val : BitVec 64) :
    EncodesRight sf val ↔ (IsBitMask (val.setWidth (regWidth sf)) → IsPlainMask sf val) := by
  unfold EncodesRight
  rw [isSome_encodeLogicalImm]
  constructor
  · exact fun h => h.1.2
  intro h
  refine ⟨⟨fun hplain => ?_, h⟩, fun f hf => decode_encodeLogicalImm hf⟩
  obtain ⟨f, hf⟩ := Option.isSome_iff_exists.1 (isSome_encodeLogicalImm.2 hplain)
  obtain ⟨hvalid, hdecode⟩ := decode_encodeLogicalImm hf
  exact ⟨f, hvalid, hdecode⟩

/-- Two ones that meet around the end of the register, and the low byte of a 32-bit register: both are logical immediates. -/
theorem encodeLogicalImm_misses : ¬ EncodesRight true 0x8000000000000001#64 ∧ ¬ EncodesRight false 0xFF#64 := by
  constructor
  · intro h
    have hsome := h.1.2 ⟨⟨1, 1, 1⟩, by unfold LogicalImm.Valid; decide, by decide +kernel⟩
    exact absurd hsome (by decide +kernel)
  · intro h
    have hsome := h.1.2 ⟨⟨0, 7, 0⟩, by unfold LogicalImm.Valid; decide, by decide +kernel⟩
    exact absurd hsome (by decide +kernel)

end

end Slopix.As
