import Slopix.Lib.BitField
import Slopix.Ld.Reloc

/-!
# Relocated instructions

What the AArch64 ABI asks of the relocations that patch an instruction: the value, the bits of the
instruction that hold it, which values they can hold, and the value that the processor reads back.
`apply_one_reloc` reports an error exactly for the values that do not fit, and otherwise puts the value in
its field.
-/

namespace Slopix.Ld

open Lib Elf List

/-- The relocations of an instruction. -/
inductive InsnReloc where
  | call26
  | jump26
  | adrPrelLo21
  | adrPrelPgHi21
  | addAbsLo12
  | ldst8AbsLo12
  | ldst16AbsLo12
  | ldst32AbsLo12
  | ldst64AbsLo12
  deriving DecidableEq

/-- The start of the page. -/
def pageOf (x : BitVec 64) : BitVec 64 := x &&& ~~~0xfff

namespace InsnReloc

/-- The number of the relocation in the file. -/
def number : InsnReloc → Nat
  | call26 => R_AARCH64_CALL26
  | jump26 => R_AARCH64_JUMP26
  | adrPrelLo21 => R_AARCH64_ADR_PREL_LO21
  | adrPrelPgHi21 => R_AARCH64_ADR_PREL_PG_HI21
  | addAbsLo12 => R_AARCH64_ADD_ABS_LO12_NC
  | ldst8AbsLo12 => R_AARCH64_LDST8_ABS_LO12_NC
  | ldst16AbsLo12 => R_AARCH64_LDST16_ABS_LO12_NC
  | ldst32AbsLo12 => R_AARCH64_LDST32_ABS_LO12_NC
  | ldst64AbsLo12 => R_AARCH64_LDST64_ABS_LO12_NC

/-- The value for a target at the address `sa`. -/
def value (place sa : BitVec 64) : InsnReloc → BitVec 64
  | call26 | jump26 | adrPrelLo21 => sa - place
  | adrPrelPgHi21 => pageOf sa - pageOf place
  | _ => sa &&& 0xfff

/-- The bits of the instruction that hold the value. -/
def field : InsnReloc → BitVec 32
  | call26 | jump26 => 0x03ffffff
  | adrPrelLo21 | adrPrelPgHi21 => 0x60ffffe0
  | _ => 0x003ffc00

/-- The value that the processor takes from the field. -/
def decode (insn : BitVec 32) : InsnReloc → BitVec 64
  | call26 | jump26 => (insn.extractLsb' 0 26 ++ 0#2).signExtend 64
  | adrPrelLo21 => (insn.extractLsb' 5 19 ++ insn.extractLsb' 29 2).signExtend 64
  | adrPrelPgHi21 => (insn.extractLsb' 5 19 ++ insn.extractLsb' 29 2 ++ 0#12).signExtend 64
  | addAbsLo12 | ldst8AbsLo12 => (insn.extractLsb' 10 12).setWidth 64
  | ldst16AbsLo12 => (insn.extractLsb' 10 12).setWidth 64 <<< 1
  | ldst32AbsLo12 => (insn.extractLsb' 10 12).setWidth 64 <<< 2
  | ldst64AbsLo12 => (insn.extractLsb' 10 12).setWidth 64 <<< 3

/-- The signed values from `-2 ^ n` up to `2 ^ n` are in reach; an offset in a page always is. -/
def reach : InsnReloc → Option Nat
  | call26 | jump26 => some 27
  | adrPrelLo21 => some 20
  | adrPrelPgHi21 => some 32
  | _ => none

/-- The value must be a multiple of `2 ^ n`. -/
def align : InsnReloc → Nat
  | call26 | jump26 => 2
  | ldst16AbsLo12 => 1
  | ldst32AbsLo12 => 2
  | ldst64AbsLo12 => 3
  | _ => 0

/-- The field can hold the value. -/
structure Fits (r : InsnReloc) (x : BitVec 64) : Prop where
  reach : ∀ n ∈ r.reach, -2 ^ n ≤ x.toInt ∧ x.toInt < 2 ^ n
  align : 2 ^ r.align ∣ x.toNat

theorem fits_iff (r : InsnReloc) (x : BitVec 64) : r.Fits x ↔
    (∀ n ∈ r.reach, -2 ^ n ≤ x.toInt ∧ x.toInt < 2 ^ n) ∧ 2 ^ r.align ∣ x.toNat :=
  ⟨fun h => ⟨h.reach, h.align⟩, fun h => ⟨h.1, h.2⟩⟩

end InsnReloc

/-! ## What the fields hold -/

section

variable {x : BitVec 64} {insn : BitVec 32} {k : Nat}

theorem getLsbD_three (i : Nat) : (3 : BitVec 64).getLsbD i = (decide (i < 64) && decide (i < 2)) :=
  getLsbD_lowMask 64 2 i

theorem getLsbD_fff (i : Nat) : (0xfff : BitVec 64).getLsbD i = (decide (i < 64) && decide (i < 12)) :=
  getLsbD_lowMask 64 12 i

theorem decode_imm26 (hreach : -2 ^ 27 ≤ x.toInt ∧ x.toInt < 2 ^ 27) (halign : 2 ^ 2 ∣ x.toNat) :
    ((insn &&& ~~~0x03ffffff ||| ((x.sshiftRight 2).setWidth 32 &&& 0x03ffffff)).extractLsb' 0 26 ++
      0#2).signExtend 64 = x := by
  have hlow : ((x.sshiftRight 2).setWidth 32 &&& 0x03ffffff).extractLsb' 0 26 ++ 0#2 = x.setWidth 28 := by
    have hmask : ∀ i, (0x03ffffff : BitVec 32).getLsbD i = (decide (i < 32) && decide (i < 26)) :=
      getLsbD_lowMask 32 26
    have hzero : ∀ i < 2, x.getLsbD i = false := fun i => getLsbD_of_dvd halign
    apply BitVec.eq_of_getLsbD_eq
    intro i hi
    simp only [BitVec.getLsbD_append, BitVec.getLsbD_setWidth, BitVec.getLsbD_extractLsb', BitVec.getLsbD_and,
      BitVec.getLsbD_sshiftRight, BitVec.getLsbD_zero, hmask]
    grind
  rw [extract_replace (by decide), hlow]
  exact signExtend_setWidth (by decide) hreach.1 hreach.2

theorem getLsbD_adrField (i : Nat) : (0x60ffffe0 : BitVec 32).getLsbD i =
    (decide (5 ≤ i ∧ i < 24) || decide (29 ≤ i ∧ i < 31)) := by
  by_cases hi : i < 32
  · have hall : ∀ i < 32, (0x60ffffe0 : BitVec 32).getLsbD i =
        (decide (5 ≤ i ∧ i < 24) || decide (29 ≤ i ∧ i < 31)) := by decide
    exact hall i hi
  · rw [BitVec.getLsbD_of_ge _ _ (Nat.le_of_not_lt hi)]
    grind

theorem getLsbD_adrBits (i : Nat) : (adrBits x).getLsbD i =
    if 29 ≤ i then decide (i < 31) && x.getLsbD (i - 29)
    else decide (5 ≤ i ∧ i < 24) && x.getLsbD (i - 3) := by
  have hmask : ∀ i, (0x7ffff : BitVec 64).getLsbD i = (decide (i < 64) && decide (i < 19)) :=
    getLsbD_lowMask 64 19
  simp only [adrBits, BitVec.getLsbD_or, BitVec.getLsbD_shiftLeft, BitVec.getLsbD_setWidth, BitVec.getLsbD_and,
    BitVec.getLsbD_sshiftRight, getLsbD_three, hmask]
  grind

theorem adrBits_field (x : BitVec 64) : adrBits x &&& ~~~0x60ffffe0 = 0 := by
  apply BitVec.eq_of_getLsbD_eq
  intro i hi
  simp only [BitVec.getLsbD_and, BitVec.getLsbD_not, getLsbD_adrField, getLsbD_adrBits]
  grind

theorem extract_adrBits (x : BitVec 64) (insn : BitVec 32) :
    (insn &&& ~~~0x60ffffe0 ||| adrBits x).extractLsb' 5 19 ++
      (insn &&& ~~~0x60ffffe0 ||| adrBits x).extractLsb' 29 2 = x.setWidth 21 := by
  rw [extract_replace (by decide), extract_replace (by decide)]
  apply BitVec.eq_of_getLsbD_eq
  intro i hi
  simp only [BitVec.getLsbD_append, BitVec.getLsbD_setWidth, BitVec.getLsbD_extractLsb', getLsbD_adrBits]
  grind

theorem decode_adr (hreach : -2 ^ 20 ≤ x.toInt ∧ x.toInt < 2 ^ 20) :
    ((insn &&& ~~~0x60ffffe0 ||| adrBits x).extractLsb' 5 19 ++
      (insn &&& ~~~0x60ffffe0 ||| adrBits x).extractLsb' 29 2).signExtend 64 = x := by
  rw [extract_adrBits]
  exact signExtend_setWidth (by decide) hreach.1 hreach.2

theorem decode_adrp (hreach : -2 ^ 32 ≤ x.toInt ∧ x.toInt < 2 ^ 32) (hpage : 2 ^ 12 ∣ x.toNat) :
    ((insn &&& ~~~0x60ffffe0 ||| adrBits (x.sshiftRight 12)).extractLsb' 5 19 ++
      (insn &&& ~~~0x60ffffe0 ||| adrBits (x.sshiftRight 12)).extractLsb' 29 2 ++ 0#12).signExtend 64 = x := by
  have hlow : (x.sshiftRight 12).setWidth 21 ++ 0#12 = x.setWidth 33 := by
    have hzero : ∀ i < 12, x.getLsbD i = false := fun i => getLsbD_of_dvd hpage
    apply BitVec.eq_of_getLsbD_eq
    intro i hi
    grind
  rw [extract_adrBits, hlow]
  exact signExtend_setWidth (by decide) hreach.1 hreach.2

theorem getLsbD_loField (i : Nat) : (0x003ffc00 : BitVec 32).getLsbD i = decide (10 ≤ i ∧ i < 22) := by
  by_cases hi : i < 32
  · have hall : ∀ i < 32, (0x003ffc00 : BitVec 32).getLsbD i = decide (10 ≤ i ∧ i < 22) := by decide
    exact hall i hi
  · rw [BitVec.getLsbD_of_ge _ _ (Nat.le_of_not_lt hi)]
    grind

theorem loBits_field (x : BitVec 64) (k : Nat) :
    ((x &&& 0xfff) >>> k).setWidth 32 <<< 10 &&& ~~~0x003ffc00 = 0 := by
  apply BitVec.eq_of_getLsbD_eq
  intro i hi
  simp only [BitVec.getLsbD_and, BitVec.getLsbD_not, getLsbD_loField, BitVec.getLsbD_shiftLeft,
    BitVec.getLsbD_setWidth, BitVec.getLsbD_ushiftRight, getLsbD_fff]
  grind

theorem decode_lo12 (halign : 2 ^ k ∣ (x &&& 0xfff).toNat) :
    ((insn &&& ~~~(0x003ffc00 : BitVec 32) ||| ((x &&& 0xfff) >>> k).setWidth 32 <<< 10).extractLsb' 10 12).setWidth
      64 <<< k =
      x &&& 0xfff := by
  have hzero : ∀ i < k, (x &&& 0xfff).getLsbD i = false := fun i => getLsbD_of_dvd halign
  rw [extract_replace (by decide)]
  apply BitVec.eq_of_getLsbD_eq
  intro i hi
  have hlow := hzero i
  simp only [BitVec.getLsbD_shiftLeft, BitVec.getLsbD_setWidth, BitVec.getLsbD_extractLsb',
    BitVec.getLsbD_ushiftRight, BitVec.getLsbD_and, getLsbD_fff] at hlow ⊢
  grind

end

/-! ## Pages -/

section

theorem pageOf_eq_shift (x : BitVec 64) : pageOf x = x >>> 12 <<< 12 := by
  apply BitVec.eq_of_getLsbD_eq
  intro i hi
  simp only [pageOf, BitVec.getLsbD_and, BitVec.getLsbD_not, BitVec.getLsbD_shiftLeft, BitVec.getLsbD_ushiftRight,
    getLsbD_fff]
  grind

theorem toNat_pageOf (x : BitVec 64) : (pageOf x).toNat = x.toNat / 4096 * 4096 := by
  rw [pageOf_eq_shift, BitVec.toNat_shiftLeft, BitVec.toNat_ushiftRight, Nat.shiftRight_eq_div_pow,
    Nat.shiftLeft_eq]
  exact Nat.mod_eq_of_lt (by omega)

theorem dvd_page_sub (x y : BitVec 64) : 2 ^ 12 ∣ (pageOf x - pageOf y).toNat := by
  rw [BitVec.toNat_sub, toNat_pageOf, toNat_pageOf]
  omega

theorem pageOf_add (x : BitVec 64) : pageOf x + (x &&& 0xfff) = x := by
  have hlow : (x &&& 0xfff).toNat = x.toNat % 2 ^ 12 := @toNat_and_lowMask 64 12 x (by decide)
  apply BitVec.eq_of_toNat_eq
  rw [BitVec.toNat_add, toNat_pageOf, hlow, Nat.mod_eq_of_lt (by omega)]
  omega

end

/-! ## `apply_one_reloc` -/

namespace InsnReloc

/-- `apply_one_reloc` replaces the instruction `insn` by `insn'`, wherever it stands. -/
def Patches (r : InsnReloc) (place symValue addend : BitVec 64) (insn insn' : BitVec 32) : Prop :=
  ∀ (pre post : List UInt8) (filename : Name),
    applyOneReloc (pre ++ leBytes 4 insn.toNat ++ post) pre.length place symValue r.number addend filename =
      .ok (pre ++ leBytes 4 insn'.toNat ++ post)

/-- `apply_one_reloc` reports an error. -/
def Fails (r : InsnReloc) (place symValue addend : BitVec 64) : Prop :=
  ∀ (data : List UInt8) (o : Nat) (filename : Name),
    ∃ e, applyOneReloc data o place symValue r.number addend filename = .error (.error e)

/-- The relocations of an offset in a page. -/
def IsLo12 : InsnReloc → Bool
  | call26 | jump26 | adrPrelLo21 | adrPrelPgHi21 => false
  | _ => true

end InsnReloc

section

variable {place symValue addend : BitVec 64} {insn insn' : BitVec 32} {r : InsnReloc} {filename : Name}

theorem patchBytes_middle {pre old bs post : List UInt8} (h : bs.length = old.length) :
    patchBytes (pre ++ old ++ post) pre.length bs = .ok (pre ++ bs ++ post) := by
  have hroom : pre.length + bs.length ≤ (pre ++ old ++ post).length := by
    simp only [length_append]
    omega
  rw [patchBytes, if_pos hroom, h, ← length_append, drop_left, append_assoc pre old, take_left]

theorem applyPatch_insn (pre post : List UInt8) (insn keep bits : BitVec 32) :
    applyPatch (pre ++ leBytes 4 insn.toNat ++ post) pre.length (.insn keep bits) =
      .ok (pre ++ leBytes 4 (insn &&& keep ||| bits).toNat ++ post) := by
  have hget : getLe 4 (fileBytesOf (pre ++ leBytes 4 insn.toNat ++ post)) pre.length = insn.toNat := by
    have hmid : getLe 4 (fileBytesOf (pre ++ (leBytes 4 insn.toNat ++ post))) (pre.length + 0) =
        getLe 4 (fileBytesOf (leBytes 4 insn.toNat ++ post)) 0 := getLe_append pre _ 0
    rw [append_assoc]
    exact hmid.trans (getLe_leBytes post insn.isLt)
  simp only [applyPatch, hget, BitVec.ofNat_toNat, BitVec.setWidth_eq]
  exact patchBytes_middle (by simp)

theorem rangedPatch_unreached {fmt : String} {lim : Int} {offset : BitVec 64} {type : Nat}
    {patch : Except RelocStop Patch} (h : ¬ (-lim ≤ offset.toInt ∧ offset.toInt < lim)) :
    ∃ e, rangedPatch fmt lim offset filename type patch = .error (.error e) := by
  rw [rangedPatch, if_pos (by omega)]
  exact ⟨_, rfl⟩

theorem rangedPatch_reached {fmt : String} {lim : Int} {offset : BitVec 64} {type : Nat}
    {patch : Except RelocStop Patch} (h : -lim ≤ offset.toInt ∧ offset.toInt < lim) :
    rangedPatch fmt lim offset filename type patch = patch := by
  rw [rangedPatch, if_neg (by omega)]

theorem and_three_ne_zero_iff (x : BitVec 64) : x &&& 3 ≠ 0 ↔ ¬ 2 ^ 2 ∣ x.toNat := by
  have hlow : (x &&& 3).toNat = x.toNat % 2 ^ 2 := @toNat_and_lowMask 64 2 x (by decide)
  rw [not_iff_not, Nat.dvd_iff_mod_eq_zero, ← hlow]
  exact ⟨fun h => by rw [h]; rfl, fun h => BitVec.eq_of_toNat_eq h⟩

/-- The patch of a value that fits: only the field changes, and the value is read back. -/
def IsPatch (r : InsnReloc) (x : BitVec 64) (p : Patch) : Prop :=
  ∃ bits, p = .insn (~~~r.field) bits ∧ bits &&& ~~~r.field = 0 ∧
    ∀ insn, r.decode (insn &&& ~~~r.field ||| bits) = x

/-- The patch of a value, and an error if and only if it does not fit; the name of the file is in the
error. -/
structure Outcome (r : InsnReloc) (x : BitVec 64) (result : Name → Except RelocStop Patch) : Prop where
  fits : r.Fits x → ∃ p, (∀ filename, result filename = .ok p) ∧ IsPatch r x p
  unfit : ¬ r.Fits x → ∀ filename, ∃ e, result filename = .error (.error e)

theorem branchPatch_spec {fmt fmt' : String} {type : Nat} {x : BitVec 64} (hfield : r.field = 0x03ffffff)
    (hdecode : ∀ insn, r.decode insn = (insn.extractLsb' 0 26 ++ 0#2).signExtend 64)
    (hreach : r.reach = some 27) (halign : r.align = 2) :
    Outcome r x (fun filename => rangedPatch fmt (2 ^ 27) x filename type
      (if x &&& 3 ≠ 0 then .error (relocError fmt' filename type x.toNat)
        else .ok (.insn 0xfc000000 ((x.sshiftRight 2).setWidth 32 &&& 0x03ffffff)))) := by
  have hthree := and_three_ne_zero_iff x
  constructor
  · intro hfits
    have hin := hfits.reach 27 hreach
    have hdvd := hfits.align
    rw [halign] at hdvd
    simp only [rangedPatch_reached hin, if_neg (fun h => hthree.1 h hdvd)]
    refine ⟨_, fun _ => rfl, (x.sshiftRight 2).setWidth 32 &&& 0x03ffffff, ?_, ?_, fun insn => ?_⟩
    · rw [hfield]
      rfl
    · rw [hfield, BitVec.and_assoc]
      simp
    · rw [hfield, hdecode]
      exact decode_imm26 hin hdvd
  intro hnot filename
  by_cases hin : -2 ^ 27 ≤ x.toInt ∧ x.toInt < 2 ^ 27
  · have hdvd : ¬ 2 ^ 2 ∣ x.toNat := fun h => hnot ⟨by simpa [hreach] using hin, by rwa [halign]⟩
    rw [rangedPatch_reached hin, if_pos (hthree.2 hdvd)]
    exact ⟨_, rfl⟩
  · exact rangedPatch_unreached hin

theorem adrPatch_spec {fmt : String} {type n : Nat} {x imm : BitVec 64} (hfield : r.field = 0x60ffffe0)
    (hreach : r.reach = some n) (halign : r.align = 0)
    (hdecode : -2 ^ n ≤ x.toInt ∧ x.toInt < 2 ^ n →
      ∀ insn, r.decode (insn &&& ~~~0x60ffffe0 ||| adrBits imm) = x) :
    Outcome r x fun filename => rangedPatch fmt (2 ^ n) x filename type (.ok (.insn 0x9f00001f (adrBits imm))) := by
  constructor
  · intro hfits
    have hin := hfits.reach n hreach
    simp only [rangedPatch_reached hin]
    refine ⟨_, fun _ => rfl, adrBits imm, ?_, ?_, fun insn => ?_⟩
    · rw [hfield]
      rfl
    · rw [hfield]
      exact adrBits_field imm
    · rw [hfield]
      exact hdecode hin insn
  intro hnot filename
  refine rangedPatch_unreached fun hin => hnot ⟨?_, ?_⟩
  · simpa [hreach] using hin
  · simp [halign]

variable {sa : BitVec 64}

theorem lo12_isPatch {k : Nat} (hfield : r.field = 0x003ffc00)
    (hdecode : ∀ insn, r.decode insn = (insn.extractLsb' 10 12).setWidth 64 <<< k)
    (halign : 2 ^ k ∣ (sa &&& 0xfff).toNat) :
    IsPatch r (sa &&& 0xfff) (.insn 0xffc003ff (((sa &&& 0xfff) >>> k).setWidth 32 <<< 10)) := by
  refine ⟨((sa &&& 0xfff) >>> k).setWidth 32 <<< 10, ?_, ?_, fun insn => ?_⟩
  · rw [hfield]
    rfl
  · rw [hfield]
    exact loBits_field sa k
  · rw [hfield, hdecode]
    exact decode_lo12 halign

theorem lo12Patch_spec (hfield : r.field = 0x003ffc00)
    (hdecode : ∀ insn, r.decode insn = (insn.extractLsb' 10 12).setWidth 64) (hreach : r.reach = none)
    (halign : r.align = 0) :
    Outcome r (sa &&& 0xfff) fun _ => .ok (.insn 0xffc003ff ((sa &&& 0xfff).setWidth 32 <<< 10)) := by
  constructor
  · intro hfits
    refine ⟨_, fun _ => rfl, ?_⟩
    simpa using lo12_isPatch (k := 0) hfield (by simpa using hdecode) (Nat.one_dvd _)
  · intro hnot
    exact absurd ⟨by simp [hreach], by simp [halign]⟩ hnot

theorem ldstPatch_spec {fmt : String} {type k : Nat} (hfield : r.field = 0x003ffc00)
    (hdecode : ∀ insn, r.decode insn = (insn.extractLsb' 10 12).setWidth 64 <<< k) (hreach : r.reach = none)
    (halign : r.align = k) : Outcome r (sa &&& 0xfff) fun filename => ldstPatch fmt k sa filename type := by
  constructor
  · intro hfits
    have hdvd := hfits.align
    rw [halign] at hdvd
    exact ⟨_, fun _ => if_neg (not_not.2 (Nat.mod_eq_zero_of_dvd hdvd)), lo12_isPatch hfield hdecode hdvd⟩
  intro hnot filename
  refine ⟨_, if_pos fun h => hnot ⟨by simp [hreach], ?_⟩⟩
  rw [halign]
  exact Nat.dvd_of_mod_eq_zero h

/-- **The patch of an instruction, or an error.** -/
theorem relocPatch_outcome (r : InsnReloc) (place symValue addend : BitVec 64) :
    Outcome r (r.value place (symValue + addend)) (relocPatch place symValue r.number addend) := by
  cases r with
  | call26 => exact branchPatch_spec rfl (fun _ => rfl) rfl rfl
  | jump26 => exact branchPatch_spec rfl (fun _ => rfl) rfl rfl
  | adrPrelLo21 => exact adrPatch_spec rfl rfl rfl fun h _ => decode_adr h
  | adrPrelPgHi21 => exact adrPatch_spec rfl rfl rfl fun h _ => decode_adrp h (dvd_page_sub _ _)
  | addAbsLo12 => exact lo12Patch_spec rfl (fun _ => rfl) rfl rfl
  | ldst8AbsLo12 => exact lo12Patch_spec rfl (fun _ => rfl) rfl rfl
  | ldst16AbsLo12 => exact ldstPatch_spec (k := 1) rfl (fun _ => rfl) rfl rfl
  | ldst32AbsLo12 => exact ldstPatch_spec (k := 2) rfl (fun _ => rfl) rfl rfl
  | ldst64AbsLo12 => exact ldstPatch_spec (k := 3) rfl (fun _ => rfl) rfl rfl

theorem InsnReloc.Fits.patches (h : r.Fits (r.value place (symValue + addend))) (insn : BitVec 32) :
    ∃ insn', r.Patches place symValue addend insn insn' ∧
      insn' &&& ~~~r.field = insn &&& ~~~r.field ∧
      r.decode insn' = r.value place (symValue + addend) := by
  obtain ⟨p, hp, bits, rfl, hbits, hdecode⟩ := (relocPatch_outcome r place symValue addend).fits h
  refine ⟨insn &&& ~~~r.field ||| bits, fun pre post filename => ?_, replace_outside hbits, hdecode insn⟩
  rw [applyOneReloc, hp filename]
  exact applyPatch_insn pre post insn _ bits

theorem InsnReloc.Patches.unique {insn1 insn2 : BitVec 32} (h1 : r.Patches place symValue addend insn insn1)
    (h2 : r.Patches place symValue addend insn insn2) : insn1 = insn2 := by
  have hbytes := (h1 [] [] []).symm.trans (h2 [] [] [])
  simp only [nil_append, Except.ok.injEq] at hbytes
  have hget : ∀ i : BitVec 32, getLe 4 (fileBytesOf (leBytes 4 i.toNat ++ [])) 0 = i.toNat :=
    fun i => getLe_leBytes [] i.isLt
  apply BitVec.eq_of_toNat_eq
  rw [← hget insn1, hbytes, hget insn2]

theorem InsnReloc.fails_iff : r.Fails place symValue addend ↔ ¬ r.Fits (r.value place (symValue + addend)) := by
  constructor
  · intro hfails hfits
    obtain ⟨insn', hpatch, -⟩ := hfits.patches 0
    obtain ⟨e, he⟩ := hfails ([] ++ leBytes 4 (0 : BitVec 32).toNat ++ []) 0 []
    have hok := hpatch [] [] []
    rw [length_nil, he] at hok
    cases hok
  · intro hnot data o filename
    obtain ⟨e, he⟩ := (relocPatch_outcome r place symValue addend).unfit hnot filename
    exact ⟨e, by rw [applyOneReloc, he]⟩

/-- The patched instruction means the value of the relocation. -/
theorem InsnReloc.Patches.decode (h : r.Patches place symValue addend insn insn') :
    r.decode insn' = r.value place (symValue + addend) := by
  by_cases hfits : r.Fits (r.value place (symValue + addend))
  · obtain ⟨insn'', hpatch, -, hdecode⟩ := hfits.patches insn
    rw [h.unique hpatch, hdecode]
  obtain ⟨e, he⟩ := InsnReloc.fails_iff.2 hfits ([] ++ leBytes 4 insn.toNat ++ []) 0 []
  have hok := h [] [] []
  rw [length_nil, he] at hok
  cases hok

theorem InsnReloc.value_lo12 {lo : InsnReloc} (h : lo.IsLo12) (sa : BitVec 64) : lo.value place sa = sa &&& 0xfff := by
  cases lo <;> first | rfl | cases h

theorem relocPatch_unsupported {type : Nat} (hnone : type ≠ R_AARCH64_NONE) (habs : type ≠ R_AARCH64_ABS64)
    (hinsn : ∀ r : InsnReloc, type ≠ r.number) (filename : Name) :
    ∃ e, relocPatch place symValue type addend filename = .error (.error e) := by
  have hcall := hinsn .call26
  have hjump := hinsn .jump26
  have hadr := hinsn .adrPrelLo21
  have hadrp := hinsn .adrPrelPgHi21
  have hadd := hinsn .addAbsLo12
  have h8 := hinsn .ldst8AbsLo12
  have h16 := hinsn .ldst16AbsLo12
  have h32 := hinsn .ldst32AbsLo12
  have h64 := hinsn .ldst64AbsLo12
  simp only [InsnReloc.number] at hcall hjump hadr hadrp hadd h8 h16 h32 h64
  simp only [relocPatch, hnone, habs, hcall, hjump, hadr, hadrp, hadd, h8, h16, h32, h64, or_self, if_false]
  exact ⟨_, rfl⟩

/-- **Relocating follows the ABI.** A relocation of an instruction is an error if and only if its value does
not fit; otherwise only the field changes and the processor reads the value back. A word gets the address,
and an `adrp` with the access that follows it makes up the address. -/
theorem applyOneReloc_abi (place symValue addend : BitVec 64) :
    (∀ r : InsnReloc,
      (r.Fails place symValue addend ↔ ¬ r.Fits (r.value place (symValue + addend))) ∧
      (r.Fits (r.value place (symValue + addend)) → ∀ insn, ∃ insn',
        r.Patches place symValue addend insn insn' ∧
          insn' &&& ~~~r.field = insn &&& ~~~r.field ∧
          r.decode insn' = r.value place (symValue + addend))) ∧
    (∀ (pre post : List UInt8) (old : BitVec 64) (filename : Name),
      applyOneReloc (pre ++ leBytes 8 old.toNat ++ post) pre.length place symValue R_AARCH64_ABS64 addend filename =
        .ok (pre ++ leBytes 8 (symValue + addend).toNat ++ post)) ∧
    (∀ (data : List UInt8) (o : Nat) (filename : Name),
      applyOneReloc data o place symValue R_AARCH64_NONE addend filename = .ok data) ∧
    (∀ type : Nat, type ≠ R_AARCH64_NONE → type ≠ R_AARCH64_ABS64 → (∀ r : InsnReloc, type ≠ r.number) →
      ∀ (data : List UInt8) (o : Nat) (filename : Name),
        ∃ e, applyOneReloc data o place symValue type addend filename = .error (.error e)) ∧
    (∀ (lo : InsnReloc) (place' : BitVec 64) (page page' insn insn' : BitVec 32), lo.IsLo12 →
      InsnReloc.adrPrelPgHi21.Patches place symValue addend page page' →
      lo.Patches place' symValue addend insn insn' →
        pageOf place + InsnReloc.adrPrelPgHi21.decode page' + lo.decode insn' = symValue + addend) := by
  refine ⟨fun r => ⟨InsnReloc.fails_iff, fun h => h.patches⟩, fun pre post old filename => ?_,
    fun data o filename => rfl, fun type hnone habs hinsn data o filename => ?_,
    fun lo place' page page' insn insn' hlo hpage hinsn => ?_⟩
  · exact patchBytes_middle (by simp)
  · obtain ⟨e, he⟩ := relocPatch_unsupported hnone habs hinsn filename
    exact ⟨e, by rw [applyOneReloc, he]⟩
  rw [hpage.decode, hinsn.decode, InsnReloc.value_lo12 hlo, InsnReloc.value]
  calc pageOf place + (pageOf (symValue + addend) - pageOf place) + (symValue + addend &&& 0xfff)
      = pageOf (symValue + addend) + (symValue + addend &&& 0xfff) := by
        rw [BitVec.add_comm (pageOf place), BitVec.sub_add_cancel]
    _ = symValue + addend := pageOf_add _

/-- An `adrp` and an `add` with the address `0x412348`. -/
theorem applyOneReloc_abi_pair : ∃ page' insn' : BitVec 32,
    InsnReloc.adrPrelPgHi21.Patches 0x400ffc 0x412344 4 0x90000000 page' ∧
      InsnReloc.addAbsLo12.Patches 0x401000 0x412344 4 0x91000000 insn' ∧
      pageOf 0x400ffc + InsnReloc.adrPrelPgHi21.decode page' + InsnReloc.addAbsLo12.decode insn' = 0x412348 := by
  have hpage : InsnReloc.adrPrelPgHi21.Fits (InsnReloc.adrPrelPgHi21.value 0x400ffc (0x412344 + 4)) := by
    rw [InsnReloc.fits_iff]
    decide
  have hlow : InsnReloc.addAbsLo12.Fits (InsnReloc.addAbsLo12.value 0x401000 (0x412344 + 4)) := by
    rw [InsnReloc.fits_iff]
    decide
  obtain ⟨hinsns, -, -, -, hpair⟩ := applyOneReloc_abi 0x400ffc 0x412344 4
  obtain ⟨page', hpatch, -⟩ := (hinsns .adrPrelPgHi21).2 hpage 0x90000000
  obtain ⟨insn', hpatch', -⟩ := ((applyOneReloc_abi 0x401000 0x412344 4).1 .addAbsLo12).2 hlow 0x91000000
  exact ⟨page', insn', hpatch, hpatch', hpair .addAbsLo12 0x401000 _ _ _ _ rfl hpatch hpatch'⟩

end

end Slopix.Ld
