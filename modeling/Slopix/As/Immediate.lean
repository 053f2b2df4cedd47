import Slopix.Ld.Instruction
import Slopix.Lib.IntWidth

/-!
# Immediate fields

The encoders of the assembler for the immediate fields of an instruction. A field stands for the values that it gives when it
is extended and scaled. All encoders but that of `adrp` take exactly these values; `encode_adrp` drops the low 12 bits.
-/

namespace Slopix.As

open Lib List

/-! ## The encoders -/

/-- `encode_imm12`, with `*shift`. -/
def encodeImm12 (val : BitVec 64) : Option (BitVec 32 × Nat) :=
  if val.slt 0 then none
  else if val.sle 0xfff then some (val.setWidth 32, 0)
  else if val &&& 0xfff = 0 ∧ (val.sshiftRight 12).sle 0xfff then some ((val.sshiftRight 12).setWidth 32, 12)
  else none

/-- `encode_imm9`: nine bits, signed. -/
def encodeImm9 (val : BitVec 64) : Option (BitVec 32) :=
  if val.slt (-256) ∨ BitVec.slt 255 val then none else some ((val &&& 0x1ff).setWidth 32)

/-- `encode_imm7`: seven bits, signed, of a multiple of the access size. -/
def encodeImm7 (val : BitVec 64) (scale : Nat) : Option (BitVec 32) :=
  if val.srem ((1 : BitVec 64) <<< scale) ≠ 0 then none
  else
    let imm := val.sshiftRight scale
    if imm.slt (-64) ∨ BitVec.slt 63 imm then none else some ((imm &&& 0x7f).setWidth 32)

/-- `encode_imm12_unsigned`: twelve bits of a multiple of the access size. -/
def encodeImm12Unsigned (val : BitVec 64) (scale : Nat) : Option (BitVec 32) :=
  if val.slt 0 then none
  else if val.srem ((1 : BitVec 64) <<< scale) ≠ 0 then none
  else
    let imm := val.sshiftRight scale
    if BitVec.slt 0xfff imm then none else some (imm.setWidth 32)

/-- The branch offsets, by the bound and the mask. -/
def encodeBranch (lim mask offset : BitVec 64) : Option (BitVec 32) :=
  if offset &&& 3 ≠ 0 then none
  else
    let imm := offset.sshiftRight 2
    if imm.slt (-lim) ∨ lim.sle imm then none else some ((imm &&& mask).setWidth 32)

/-- `encode_branch26`. -/
def encodeBranch26 (offset : BitVec 64) : Option (BitVec 32) := encodeBranch ((1 : BitVec 64) <<< 25) 0x3ffffff offset

/-- `encode_branch19`. -/
def encodeBranch19 (offset : BitVec 64) : Option (BitVec 32) := encodeBranch ((1 : BitVec 64) <<< 18) 0x7ffff offset

/-- What `encode_adrp` and `encode_adr` put together: `immlo`, `immhi` and the register. -/
def adrWord (base : BitVec 32) (imm : BitVec 64) (rd : BitVec 5) : BitVec 32 :=
  base ||| ((imm &&& 3) <<< 29).setWidth 32 ||| ((imm.sshiftRight 2 &&& 0x7ffff) <<< 5).setWidth 32 ||| rd.setWidth 32

/-- `encode_adrp`; an error ends the assembler. -/
def encodeAdrp (rd : BitVec 5) (offset : BitVec 64) : Option (BitVec 32) :=
  let imm := offset.sshiftRight 12
  if imm.slt (-((1 : BitVec 64) <<< 20)) ∨ ((1 : BitVec 64) <<< 20).sle imm then none
  else some (adrWord 0x90000000 imm rd)

/-- `encode_adr`; an error ends the assembler. -/
def encodeAdr (rd : BitVec 5) (offset : BitVec 64) : Option (BitVec 32) :=
  if offset.slt (-((1 : BitVec 64) <<< 20)) ∨ ((1 : BitVec 64) <<< 20).sle offset then none
  else some (adrWord 0x10000000 offset rd)

/-! ## The fields -/

/-- An encoder, with its scale or its register. -/
inductive Encoder
  | imm12
  | imm9
  | imm7 (scale : Fin 4)
  | imm12Unsigned (scale : Fin 4)
  | branch26
  | branch19
  | adr (rd : BitVec 5)
  | adrp (rd : BitVec 5)

namespace Encoder

/-- The width of the field. -/
def bits : Encoder → Nat
  | imm12 | imm12Unsigned _ => 12
  | imm9 => 9
  | imm7 _ => 7
  | branch26 => 26
  | branch19 => 19
  | adr _ | adrp _ => 21

/-- The field has no sign. -/
def unsigned : Encoder → Bool
  | imm12 | imm12Unsigned _ => true
  | _ => false

/-- By how many bits the field can be shifted. -/
def scales : Encoder → List Nat
  | imm12 => [0, 12]
  | imm9 | adr _ => [0]
  | imm7 scale | imm12Unsigned scale => [scale]
  | branch26 | branch19 => [2]
  | adrp _ => [12]

/-- What the encoder gives, and the shift. -/
def encode (val : BitVec 64) : Encoder → Option (BitVec 32 × Nat)
  | imm12 => encodeImm12 val
  | imm9 => (encodeImm9 val).map (·, 0)
  | imm7 scale => (encodeImm7 val scale).map (·, scale)
  | imm12Unsigned scale => (encodeImm12Unsigned val scale).map (·, scale)
  | branch26 => (encodeBranch26 val).map (·, 2)
  | branch19 => (encodeBranch19 val).map (·, 2)
  | adr rd => (encodeAdr rd val).map (·, 0)
  | adrp rd => (encodeAdrp rd val).map (·, 12)

/-- The field of a result: of an instruction `immhi` and `immlo`, else the low bits. -/
def field (w : BitVec 32) : (e : Encoder) → BitVec e.bits
  | adr _ | adrp _ => w.extractLsb' 5 19 ++ w.extractLsb' 29 2
  | imm12 | imm12Unsigned _ => w.setWidth 12
  | imm9 => w.setWidth 9
  | imm7 _ => w.setWidth 7
  | branch26 => w.setWidth 26
  | branch19 => w.setWidth 19

/-- The bits of a result that are not those of the field. -/
def outside (w : BitVec 32) (e : Encoder) : BitVec 32 :=
  match e with
  | adr _ | adrp _ => w &&& ~~~0x60ffffe0
  | e => w &&& ~~~BitVec.ofNat 32 (2 ^ e.bits - 1)

/-- What these bits should be. -/
def base : Encoder → BitVec 32
  | adr rd => 0x10000000 ||| rd.setWidth 32
  | adrp rd => 0x90000000 ||| rd.setWidth 32
  | _ => 0

end Encoder

/-- The value that a field stands for: extended by zeros or by its sign, times the scale. -/
def fieldValue {n : Nat} (u : Bool) (f : BitVec n) (scale : Nat) : BitVec 64 :=
  (if u then f.setWidth 64 else f.signExtend 64) <<< scale

/-- The encoder succeeds exactly for the values of its field, and the result has the value in the field and nothing else
outside. -/
def Encoder.Exact (e : Encoder) (val : BitVec 64) : Prop :=
  ((e.encode val).isSome = true ↔ ∃ k ∈ e.scales, ∃ f : BitVec e.bits, fieldValue e.unsigned f k = val) ∧
    ∀ w k, e.encode val = some (w, k) → fieldValue e.unsigned (e.field w) k = val ∧ e.outside w = e.base

/-! ## Fields and integers -/

section

variable {n k : Nat} {u : Bool} {i : Int} {val : BitVec 64}

theorem fieldValue_ofInt (h : InRange n u i) (hn : n + k ≤ 63) :
    fieldValue u (BitVec.ofInt n i) k = BitVec.ofInt 64 (i * 2 ^ k) ∧ (BitVec.ofInt 64 (i * 2 ^ k)).toInt = i * 2 ^ k := by
  have hext : (if u then (BitVec.ofInt n i).setWidth 64 else (BitVec.ofInt n i).signExtend 64) = BitVec.ofInt 64 i := by
    cases u with
    | true => rw [if_pos rfl, zeroExtend_ofInt (by omega), wrap_of_inRange h]
    | false => rw [if_neg Bool.false_ne_true, signExtend_ofInt, wrap_of_inRange h]
  have hpow : BitVec.twoPow 64 k = BitVec.ofInt 64 (2 ^ k) := by
    apply BitVec.eq_of_toNat_eq
    rw [BitVec.toNat_twoPow, BitVec.toNat_ofInt]
    norm_cast
  refine ⟨?_, ?_⟩
  · rw [fieldValue, hext, BitVec.shiftLeft_eq_mul_twoPow, hpow, BitVec.ofInt_mul]
  -- no value of the field leaves the 64 bits when it is shifted
  have hlow : -2 ^ n ≤ i ∧ i < 2 ^ n := by
    have hpos : (0 : Int) < 2 ^ n := by positivity
    cases u with
    | true => exact ⟨by have := h.1; omega, h.2⟩
    | false =>
      obtain ⟨h1, h2⟩ := h
      omega
  have hmul : (2 : Int) ^ n * 2 ^ k ≤ 2 ^ 63 := by
    rw [← pow_add]
    exact pow_le_pow_right₀ (by decide) hn
  have hk : (0 : Int) < 2 ^ k := by positivity
  have hge := mul_le_mul_of_nonneg_right hlow.1 hk.le
  rw [Int.neg_mul] at hge
  have hlt := mul_lt_mul_of_pos_right hlow.2 hk
  rw [BitVec.toInt_ofInt]
  exact Int.bmod_eq_of_le (by push_cast; omega) (by push_cast; omega)

theorem exists_field (hn : n + k ≤ 63) :
    (∃ f : BitVec n, fieldValue u f k = val) ↔ ∃ i, InRange n u i ∧ val.toInt = i * 2 ^ k := by
  constructor
  · rintro ⟨f, rfl⟩
    have hf : f = BitVec.ofInt n (wrap n u f.toInt) := by
      conv => lhs; rw [← BitVec.ofInt_toInt (x := f)]
      rw [ofInt_eq_iff, ← dvd_neg, neg_sub]
      exact dvd_wrap_sub n u f.toInt
    refine ⟨_, inRange_wrap n u f.toInt, ?_⟩
    obtain ⟨hval, hint⟩ := fieldValue_ofInt (inRange_wrap n u f.toInt) hn
    rw [← hf] at hval
    rw [hval, hint]
  · rintro ⟨i, hi, hval⟩
    refine ⟨BitVec.ofInt n i, ?_⟩
    rw [(fieldValue_ofInt hi hn).1, ← hval, BitVec.ofInt_toInt]

end

/-! ## What the encoders do -/

/-- A result holds the value, put into its place, and there is no result for a value that no field has. -/
def Encodes (n : Nat) (u : Bool) (scales : List Nat) (put : BitVec 64 → BitVec 32) (val : BitVec 64) :
    Option (BitVec 32 × Nat) → Prop
  | none => ∀ k ∈ scales, ∀ i, InRange n u i → val.toInt ≠ i * 2 ^ k
  | some (w, k) => k ∈ scales ∧ ∃ i, InRange n u i ∧ val.toInt = i * 2 ^ k ∧ w = put (BitVec.ofInt 64 i)

/-- The lowest `n` bits. -/
def low (n : Nat) (x : BitVec 64) : BitVec 32 := (x &&& BitVec.ofNat 64 (2 ^ n - 1)).setWidth 32

section

variable {n k : Nat} {u : Bool} {put : BitVec 64 → BitVec 32} {val : BitVec 64} {e : Encoder}

theorem toInt_shift (val : BitVec 64) (k : Nat) : (val.sshiftRight k).toInt = val.toInt / 2 ^ k := by
  rw [BitVec.toInt_sshiftRight, Int.shiftRight_eq_div_pow]
  norm_cast

theorem srem_unit {scale : Fin 4} : val.srem ((1 : BitVec 64) <<< scale.val) = 0 ↔ (2 : Int) ^ scale.val ∣ val.toInt := by
  have hunit : ∀ scale : Fin 4, ((1 : BitVec 64) <<< scale.val).toInt = 2 ^ scale.val := by decide
  rw [← BitVec.toInt_inj, BitVec.toInt_srem, hunit, BitVec.toInt_ofNat, Int.dvd_iff_tmod_eq_zero]
  rfl

theorem and_low (hn : n ≤ 64) : val &&& BitVec.ofNat 64 (2 ^ n - 1) = 0 ↔ (2 : Int) ^ n ∣ val.toInt := by
  have hwrap : (2 : Int) ^ n ∣ val.toInt - val.toNat := by
    have hmod : ∀ m, n ≤ m → (2 : Int) ^ n ∣ (val.toNat : Int).bmod (2 ^ m) - val.toNat :=
      fun m hm => (pow_dvd_pow 2 hm).trans (dvd_wrap_sub m false val.toNat)
    rw [BitVec.toInt_eq_toNat_bmod]
    exact hmod 64 hn
  have hnat : (2 : Int) ^ n ∣ val.toInt ↔ 2 ^ n ∣ val.toNat := by
    rw [← Int.natCast_dvd_natCast, Nat.cast_pow, Nat.cast_ofNat]
    exact dvd_iff_dvd_of_dvd_sub hwrap
  have hzero : val &&& BitVec.ofNat 64 (2 ^ n - 1) = 0 ↔ (val &&& BitVec.ofNat 64 (2 ^ n - 1)).toNat = 0 :=
    BitVec.toNat_inj (y := 0#64).symm
  rw [hzero, toNat_and_lowMask val hn, hnat, Nat.dvd_iff_mod_eq_zero]

theorem encodes_some (hdvd : (2 : Int) ^ k ∣ val.toInt) (hi : InRange n u (val.toInt / 2 ^ k)) :
    Encodes n u [k] put val (some (put (val.sshiftRight k), k)) := by
  refine ⟨mem_singleton.2 rfl, _, hi, (Int.ediv_mul_cancel hdvd).symm, ?_⟩
  rw [← toInt_shift, BitVec.ofInt_toInt]

theorem encodes_none (h : (2 : Int) ^ k ∣ val.toInt → ¬ InRange n u (val.toInt / 2 ^ k)) : Encodes n u [k] put val none := by
  intro k' hk i hi hval
  obtain rfl := mem_singleton.1 hk
  have hdiv : val.toInt / 2 ^ k' = i := by rw [hval, Int.mul_ediv_cancel _ (by positivity)]
  exact h (hval ▸ Dvd.intro_left i rfl) (hdiv ▸ hi)

theorem encodes_unit (hi : InRange n u val.toInt) : Encodes n u [0] put val (some (put val, 0)) :=
  ⟨mem_singleton.2 rfl, val.toInt, hi, (mul_one _).symm, by rw [BitVec.ofInt_toInt]⟩

theorem encodeImm9_encodes (val : BitVec 64) : Encodes 9 false [0] (low 9) val ((encodeImm9 val).map (·, 0)) := by
  have h1 : (-256 : BitVec 64).toInt = -256 := by decide
  have h2 : (255 : BitVec 64).toInt = 255 := by decide
  unfold encodeImm9
  simp only [BitVec.slt_iff_toInt_lt, h1, h2]
  split
  · refine encodes_none fun _ hi => ?_
    obtain ⟨hlo, hhi⟩ := hi
    omega
  · exact encodes_unit ⟨by omega, by omega⟩

theorem encodeImm7_encodes (scale : Fin 4) (val : BitVec 64) :
    Encodes 7 false [scale.val] (low 7) val ((encodeImm7 val scale).map (·, scale.val)) := by
  have h1 : (-64 : BitVec 64).toInt = -64 := by decide
  have h2 : (63 : BitVec 64).toInt = 63 := by decide
  unfold encodeImm7
  simp only [BitVec.slt_iff_toInt_lt, h1, h2, toInt_shift, ne_eq, srem_unit]
  split
  · exact encodes_none fun hdvd => absurd hdvd ‹_›
  split
  · refine encodes_none fun _ hi => ?_
    obtain ⟨hlo, hhi⟩ := hi
    omega
  · exact encodes_some (not_not.1 ‹_›) ⟨by omega, by omega⟩

theorem low_eq (h : InRange n true val.toInt) (hn : n < 64) : low n val = val.setWidth 32 := by
  have hnat : (val.toNat : Int) = val.toInt := by
    rw [BitVec.toInt_eq_toNat_cond]
    obtain ⟨hlo, -⟩ := h
    rw [BitVec.toInt_eq_toNat_cond] at hlo
    split at hlo <;> omega
  have hlt : val.toNat < 2 ^ n := by
    have hhi := h.2
    rw [← hnat] at hhi
    exact_mod_cast hhi
  have hsame : val &&& BitVec.ofNat 64 (2 ^ n - 1) = val := by
    apply BitVec.eq_of_toNat_eq
    rw [toNat_and_lowMask val hn.le, Nat.mod_eq_of_lt hlt]
  rw [low, hsame]

theorem encodeImm12Unsigned_encodes (scale : Fin 4) (val : BitVec 64) :
    Encodes 12 true [scale.val] (low 12) val ((encodeImm12Unsigned val scale).map (·, scale.val)) := by
  have h1 : (0 : BitVec 64).toInt = 0 := by decide
  have h2 : (0xfff : BitVec 64).toInt = 0xfff := by decide
  have hpow : (0 : Int) < 2 ^ scale.val := by positivity
  unfold encodeImm12Unsigned
  simp only [BitVec.slt_iff_toInt_lt, h1, h2, toInt_shift, ne_eq, srem_unit]
  split
  · rename_i hneg
    exact encodes_none fun _ hi => absurd hi.1 (Int.not_le.2 (Int.ediv_neg_of_neg_of_pos hneg hpow))
  rename_i hneg
  split
  · exact encodes_none fun hdvd => absurd hdvd ‹_›
  split
  · refine encodes_none fun _ hi => ?_
    obtain ⟨hlo, hhi⟩ := hi
    omega
  · have hi : InRange 12 true (val.toInt / 2 ^ scale.val) := ⟨Int.ediv_nonneg (Int.not_lt.1 hneg) hpow.le, by omega⟩
    rw [Option.map_some, ← low_eq (n := 12) (by rwa [toInt_shift]) (by decide)]
    exact encodes_some (not_not.1 ‹_›) hi

theorem encodeBranch_encodes (lim : BitVec 64) (hlim : lim.toInt = 2 ^ n) (hneg : (-lim).toInt = -2 ^ n) (val : BitVec 64) :
    Encodes (n + 1) false [2] (low (n + 1)) val ((encodeBranch lim (BitVec.ofNat 64 (2 ^ (n + 1) - 1)) val).map (·, 2)) := by
  have hthree : val &&& 3 = 0 ↔ (2 : Int) ^ 2 ∣ val.toInt := and_low (n := 2) (by decide)
  unfold encodeBranch
  simp only [BitVec.slt_iff_toInt_lt, BitVec.sle_iff_toInt_le, hlim, hneg, toInt_shift, ne_eq, hthree]
  have hrange : ∀ i : Int, InRange (n + 1) false i ↔ ¬ (i < -2 ^ n ∨ 2 ^ n ≤ i) := by
    intro i
    unfold InRange
    rw [if_neg Bool.false_ne_true, pow_succ]
    omega
  split
  · exact encodes_none fun hdvd => absurd hdvd ‹_›
  · split
    · exact encodes_none fun _ hi => absurd ‹_› ((hrange _).1 hi)
    · exact encodes_some (not_not.1 ‹_›) ((hrange _).2 ‹_›)

theorem encodeImm12_encodes (val : BitVec 64) : Encodes 12 true [0, 12] (low 12) val (encodeImm12 val) := by
  have h1 : (0 : BitVec 64).toInt = 0 := by decide
  have h2 : (0xfff : BitVec 64).toInt = 0xfff := by decide
  have hmask : val &&& 0xfff = 0 ↔ (2 : Int) ^ 12 ∣ val.toInt := and_low (n := 12) (by decide)
  unfold encodeImm12
  simp only [BitVec.slt_iff_toInt_lt, BitVec.sle_iff_toInt_le, h1, h2, toInt_shift, hmask]
  split
  · intro k _ i hi hval
    have hpos := Int.mul_nonneg hi.1 (pow_nonneg (by decide : (0 : Int) ≤ 2) k)
    omega
  split
  · have hi : InRange 12 true val.toInt := ⟨by omega, by omega⟩
    rw [← low_eq hi (by decide)]
    exact ⟨mem_cons_self .., val.toInt, hi, (mul_one _).symm, by rw [BitVec.ofInt_toInt]⟩
  split
  · rename_i hpage
    have hi : InRange 12 true (val.toInt / 2 ^ 12) := ⟨by omega, by omega⟩
    rw [← low_eq (n := 12) (by rwa [toInt_shift]) (by decide)]
    obtain ⟨-, hput⟩ := encodes_some hpage.1 hi
    exact ⟨by decide, hput⟩
  -- neither twelve bits nor whole pages
  rename_i hpage
  intro k hk i hi hval
  have hlt : i < 2 ^ 12 := hi.2
  rcases mem_cons.1 hk with rfl | hk
  · omega
  · obtain rfl := mem_singleton.1 hk
    exact hpage ⟨hval ▸ Dvd.intro_left i rfl, by omega⟩

theorem encodeAdr_encodes (rd : BitVec 5) (val : BitVec 64) :
    Encodes 21 false [0] (fun imm => adrWord 0x10000000 imm rd) val ((encodeAdr rd val).map (·, 0)) := by
  have h1 : (-((1 : BitVec 64) <<< 20)).toInt = -2 ^ 20 := by decide
  have h2 : ((1 : BitVec 64) <<< 20).toInt = 2 ^ 20 := by decide
  unfold encodeAdr
  simp only [BitVec.slt_iff_toInt_lt, BitVec.sle_iff_toInt_le, h1, h2]
  split
  · refine encodes_none fun _ hi => ?_
    obtain ⟨hlo, hhi⟩ := hi
    omega
  · exact encodes_unit ⟨by omega, by omega⟩

theorem encodeAdrp_encodes (rd : BitVec 5) (h : -2 ^ 32 ≤ val.toInt → val.toInt < 2 ^ 32 → (2 : Int) ^ 12 ∣ val.toInt) :
    Encodes 21 false [12] (fun imm => adrWord 0x90000000 imm rd) val ((encodeAdrp rd val).map (·, 12)) := by
  have h1 : (-((1 : BitVec 64) <<< 20)).toInt = -2 ^ 20 := by decide
  have h2 : ((1 : BitVec 64) <<< 20).toInt = 2 ^ 20 := by decide
  unfold encodeAdrp
  simp only [BitVec.slt_iff_toInt_lt, BitVec.sle_iff_toInt_le, h1, h2, toInt_shift]
  split
  · refine encodes_none fun _ hi => ?_
    obtain ⟨hlo, hhi⟩ := hi
    omega
  · exact encodes_some (h (by omega) (by omega)) ⟨by omega, by omega⟩

end

/-! ## The bits of a result -/

section

variable {n : Nat}

theorem low_field (hn : n ≤ 32) (i : Int) : (low n (BitVec.ofInt 64 i)).setWidth n = BitVec.ofInt n i := by
  rw [← setWidth_ofInt (n := n) (m := 64) (by omega)]
  apply BitVec.eq_of_getLsbD_eq
  intro j hj
  rw [low, BitVec.getLsbD_setWidth, BitVec.getLsbD_setWidth, BitVec.getLsbD_setWidth, BitVec.getLsbD_and, getLsbD_lowMask]
  grind

theorem low_outside (x : BitVec 64) : low n x &&& ~~~BitVec.ofNat 32 (2 ^ n - 1) = 0 := by
  apply BitVec.eq_of_getLsbD_eq
  intro j hj
  rw [low, BitVec.getLsbD_and, BitVec.getLsbD_not, BitVec.getLsbD_setWidth, BitVec.getLsbD_and,
    getLsbD_lowMask, getLsbD_lowMask]
  grind

theorem adrWord_eq {base : BitVec 32} (rd : BitVec 5)
    (hbase : (base ||| rd.setWidth 32) &&& ~~~0x60ffffe0 = base ||| rd.setWidth 32) (imm : BitVec 64) :
    adrWord base imm rd = (base ||| rd.setWidth 32) &&& ~~~0x60ffffe0 ||| Ld.adrBits imm := by
  have hshift : ∀ (x : BitVec 64) (k : Nat), (x <<< k).setWidth 32 = x.setWidth 32 <<< k := by
    intro x k
    apply BitVec.eq_of_getLsbD_eq
    intro j hj
    grind
  rw [hbase, adrWord, Ld.adrBits, hshift, hshift, BitVec.or_assoc base, BitVec.or_assoc base, BitVec.or_assoc base,
    BitVec.or_comm (_ ||| _) (rd.setWidth 32)]

end

/-! ## The encoders are exact -/

namespace Encoder

theorem bits_add_le {e : Encoder} {k : Nat} (hk : k ∈ e.scales) : e.bits + k ≤ 63 := by
  cases e <;> simp only [scales, bits, mem_cons, not_mem_nil, or_false] at hk ⊢ <;> omega

theorem exact_of_encodes {e : Encoder} {val : BitVec 64} {put : BitVec 64 → BitVec 32}
    (henc : Encodes e.bits e.unsigned e.scales put val (e.encode val))
    (hfield : ∀ i, e.field (put (BitVec.ofInt 64 i)) = BitVec.ofInt e.bits i) (hout : ∀ x, e.outside (put x) = e.base) :
    e.Exact val := by
  cases hres : e.encode val with
  | none =>
    rw [hres] at henc
    refine ⟨⟨fun h => ?_, ?_⟩, fun w k h => absurd (hres.symm.trans h) (by simp)⟩
    · rw [hres] at h
      exact absurd h Bool.false_ne_true
    rintro ⟨k, hk, hf⟩
    -- the encoder would have found this field
    obtain ⟨i, hi, hval⟩ := (exists_field (bits_add_le hk)).1 hf
    exact absurd hval (henc k hk i hi)
  | some r =>
    obtain ⟨w, k⟩ := r
    rw [hres] at henc
    obtain ⟨hk, i, hi, hval, rfl⟩ := henc
    have hback : fieldValue e.unsigned (BitVec.ofInt e.bits i) k = val := by
      rw [(fieldValue_ofInt hi (bits_add_le hk)).1, ← hval, BitVec.ofInt_toInt]
    refine ⟨⟨fun _ => ⟨k, hk, _, hback⟩, fun _ => by rw [hres]; rfl⟩, fun w' k' h => ?_⟩
    obtain ⟨rfl, rfl⟩ := Prod.mk.inj (Option.some.inj (hres.symm.trans h))
    exact ⟨by rw [hfield, hback], hout _⟩

theorem adrWord_parts {base : BitVec 32} {rd : BitVec 5}
    (hbase : (base ||| rd.setWidth 32) &&& ~~~0x60ffffe0 = base ||| rd.setWidth 32) (imm : BitVec 64) :
    (adrWord base imm rd).extractLsb' 5 19 ++ (adrWord base imm rd).extractLsb' 29 2 = imm.setWidth 21 ∧
      adrWord base imm rd &&& ~~~0x60ffffe0 = base ||| rd.setWidth 32 := by
  rw [adrWord_eq rd hbase]
  exact ⟨Ld.extract_adrBits imm _, by rw [replace_outside (Ld.adrBits_field imm), hbase]⟩

/-- **The immediate fields.** An encoder takes exactly the values of its field; `encode_adrp` loses the low bits. -/
theorem immediates_exact (e : Encoder) (val : BitVec 64) :
    e.Exact val ↔ ∀ rd, e = .adrp rd → -2 ^ 32 ≤ val.toInt → val.toInt < 2 ^ 32 → (2 : Int) ^ 12 ∣ val.toInt := by
  constructor
  · rintro h rd rfl hlo hhi
    -- every offset in the range is taken, and a field holds whole pages only
    have hres : ((adrp rd).encode val).isSome = true := by
      have h1 : (-((1 : BitVec 64) <<< 20)).toInt = -2 ^ 20 := by decide
      have h2 : ((1 : BitVec 64) <<< 20).toInt = 2 ^ 20 := by decide
      rw [encode, encodeAdrp, Option.isSome_map]
      simp only [BitVec.slt_iff_toInt_lt, BitVec.sle_iff_toInt_le, h1, h2, toInt_shift]
      rw [if_neg (by omega)]
      rfl
    obtain ⟨k, hk, hf⟩ := h.1.1 hres
    obtain ⟨i, -, hval⟩ := (exists_field (bits_add_le hk)).1 hf
    obtain rfl := mem_singleton.1 hk
    exact hval ▸ Dvd.intro_left i rfl
  intro h
  cases e with
  | imm12 => exact exact_of_encodes (encodeImm12_encodes val) (low_field (by decide)) low_outside
  | imm9 => exact exact_of_encodes (encodeImm9_encodes val) (low_field (by decide)) low_outside
  | imm7 scale => exact exact_of_encodes (encodeImm7_encodes scale val) (low_field (by decide)) low_outside
  | imm12Unsigned scale =>
    exact exact_of_encodes (encodeImm12Unsigned_encodes scale val) (low_field (by decide)) low_outside
  | branch26 =>
    have henc := encodeBranch_encodes (n := 25) (1 <<< 25) (by decide) (by decide) val
    exact exact_of_encodes henc (low_field (by decide)) low_outside
  | branch19 =>
    have henc := encodeBranch_encodes (n := 18) (1 <<< 18) (by decide) (by decide) val
    exact exact_of_encodes henc (low_field (by decide)) low_outside
  | adr rd =>
    have hbase : ∀ r : BitVec 5,
        (0x10000000 ||| r.setWidth 32) &&& ~~~(0x60ffffe0 : BitVec 32) = 0x10000000 ||| r.setWidth 32 := by decide
    refine exact_of_encodes (encodeAdr_encodes rd val) (fun i => ?_) fun x => (adrWord_parts (hbase rd) x).2
    exact (adrWord_parts (hbase rd) _).1.trans (setWidth_ofInt (by decide) i)
  | adrp rd =>
    have hbase : ∀ r : BitVec 5,
        (0x90000000 ||| r.setWidth 32) &&& ~~~(0x60ffffe0 : BitVec 32) = 0x90000000 ||| r.setWidth 32 := by decide
    refine exact_of_encodes (encodeAdrp_encodes rd (h rd rfl)) (fun i => ?_) fun x => (adrWord_parts (hbase rd) x).2
    exact (adrWord_parts (hbase rd) _).1.trans (setWidth_ofInt (by decide) i)

/-- `encode_adrp` takes the offset 1 for the offset 0. -/
theorem adrp_unaligned : ¬ ∀ (e : Encoder) (val : BitVec 64), e.Exact val := by
  intro h
  obtain ⟨hback, -⟩ := (h (adrp 0) 1).2 0x90000000 12 (by decide)
  exact absurd hback (by decide)

end Encoder

end Slopix.As
