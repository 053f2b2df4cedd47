import Slopix.Cc.Exec
import Slopix.Lib.IntWidth

/-!
# Chains of casts

What `load` and a chain of `cast`s leave in `x0`, for all integer types. The table leaves out an instruction where the
register is believed to be right already. The invariant says how the register holds the value: by which extension its
upper half was made, and whether its low half is 65536 too small, which is what the missing entry from `signed char` to
`unsigned short` leaves for a negative value.
-/

namespace Slopix.Cc

open Lib

/-! ## Types and values -/

/-- The integer types; the flag is `is_unsigned`. -/
inductive IntType
  | char (u : Bool)
  | short (u : Bool)
  | int (u : Bool)
  | long (u : Bool)
  | bool
  deriving DecidableEq, Repr

namespace IntType

/-- The type of the compiler. -/
def ty : IntType → Ty
  | .char u => ⟨.char, 1, u⟩
  | .short u => ⟨.short, 2, u⟩
  | .int u => ⟨.int, 4, u⟩
  | .long u => ⟨.long, 8, u⟩
  | .bool => ⟨.bool, 1, false⟩

/-- The conversion to a type. -/
def convert (v : Int) : IntType → Int
  | .char u => wrap 8 u v
  | .short u => wrap 16 u v
  | .int u => wrap 32 u v
  | .long u => wrap 64 u v
  | .bool => if v = 0 then 0 else 1

/-- The values of a type. -/
def Fits (v : Int) : IntType → Prop
  | .char u => InRange 8 u v
  | .short u => InRange 16 u v
  | .int u => InRange 32 u v
  | .long u => InRange 64 u v
  | .bool => v = 0 ∨ v = 1

end IntType

/-- The lines of casts one behind the other. -/
def castChain : IntType → List IntType → List Insn
  | _, [] => []
  | t, t' :: ts => cast t.ty t'.ty ++ castChain t' ts

/-- The type that a chain ends in. -/
def lastType : IntType → List IntType → IntType
  | t, [] => t
  | _, t' :: ts => lastType t' ts

/-- The value behind a chain of conversions. -/
def convertChain : List IntType → Int → Int
  | [], v => v
  | t :: ts, v => convertChain ts (t.convert v)

/-- How the result is used. -/
inductive Use
  | word
  | long
  | zero
  | store
  deriving DecidableEq, Repr

/-- Using `x0` for a value of a type is using that value. -/
def Use.Right (t : IntType) (v : Int) (c : Cpu) : Use → Prop
  | .word => (c.mach.reg 0).setWidth 32 = BitVec.ofInt 32 v
  | .long => c.mach.reg 0 = BitVec.ofInt 64 v
  | .zero => ∃ c', execs (cmpZero t.ty) c = some c' ∧ (Cond.eq.holds c'.flags = true ↔ v = 0)
  | .store => ∃ c', execs (storeLines t.ty) c = some c' ∧
      c'.mach.mem.Holds (c.mach.reg 1).toNat t.ty.size (BitVec.ofInt 64 v)

/-! ## What the register holds -/

/-- What made the upper half of the register. -/
inductive Upper
  | sign
  | zero
  | full
  deriving DecidableEq, Repr

/-- What is left of an integer. -/
def Upper.cut (k : Int) : Upper → Int
  | .sign => wrap 32 false k
  | .zero => wrap 32 true k
  | .full => k

/-- The upper half after an instruction of a load or a cast. -/
def Insn.leavesUpper (u : Upper) : Insn → Upper
  | .ext _ .x _ _ | .load .ldrsb _ _ _ | .load .ldrsh _ _ _ | .load .ldrsw _ _ _ => .sign
  | .load .ldrX _ _ _ => .full
  | .ext _ .w _ _ | .mov .w _ _ | .cset .w _ _ | .load _ _ _ _ => .zero
  | _ => u

/-- What has made the upper half after these lines. -/
def upperAfter (is : List Insn) (u : Upper) : Upper := is.foldl Insn.leavesUpper u

/-- The upper half after a zero extension, or after a sign extension. -/
def extUpper (s : Bool) : Upper := if s then .zero else .sign

/-- The width that a cast sees: a `_Bool` is cast as an `unsigned long`. -/
def IntType.castWidth : IntType → Nat
  | .char _ => 8
  | .short _ => 16
  | .int _ => 32
  | .long _ | .bool => 64

/-- The signedness that a cast sees. -/
def IntType.castUnsigned : IntType → Bool
  | .char u | .short u | .int u | .long u => u
  | .bool => true

/-- Whether a cast to at most 32 bits has an instruction: from a wider type, and from one of the same width and the
other signedness, but not from `unsigned int` to `int`. -/
def IntType.narrows (src dst : IntType) : Bool :=
  decide (dst.castWidth < src.castWidth) ||
    (src.castWidth == dst.castWidth && src.castUnsigned != dst.castUnsigned && dst != .int false)

/-- The upper half after a cast. -/
def castUpper (src dst : IntType) (u : Upper) : Upper :=
  match dst with
  | .bool => .zero
  | .long _ => if src.castWidth = 64 then u else extUpper src.castUnsigned
  | _ => if src.narrows dst then extUpper dst.castUnsigned else u

/-- The upper half after a load. -/
def loadUpper : IntType → Upper
  | .char u | .short u | .int u => extUpper u
  | .long _ => .full
  | .bool => .sign

/-- The upper half after a chain of casts. -/
def chainUpper : IntType → List IntType → Upper → Upper
  | _, [], u => u
  | t, t' :: ts, u => chainUpper t' ts (castUpper t t' u)

/-- The slip: a negative value of `signed char` is cast to `unsigned short`. It stays until the value is cut to 16 bits
by an instruction. -/
def slipStep (src dst : IntType) (v : Int) (slip : Bool) : Bool :=
  match dst with
  | .short true => (src == .char false && decide (v < 0)) || (slip && src == .short true)
  | .int _ | .long _ => slip
  | _ => false

/-- Whether the value has slipped at the end of a chain. -/
def slips : IntType → List IntType → Int → Bool → Bool
  | _, [], _, slip => slip
  | t, t' :: ts, v, slip => slips t' ts (t'.convert v) (slipStep t t' v slip)

/-- When a use is right: there was no slip, for all but the comparison with zero and a store of 16 bits; and the last
extension agrees with the value, for the use of all 64 bits of a smaller type. -/
def UseCond (t : IntType) (slip : Bool) (u : Upper) (v : Int) : Use → Prop
  | .word => slip = false
  | .long => slip = false ∧ (t.ty.size = 8 ∨ (u = .sign → v < 2 ^ 31) ∧ (u = .zero → 0 ≤ v))
  | .zero => True
  | .store => slip = false ∨ t = .short true

/-- The value that the register stands for: 65536 too little after a slip. -/
def held (slip : Bool) (v : Int) : Int := if slip then v - 65536 else v

/-- The register holds a value of a type, with its upper half made by `u`. -/
structure Holding (t : IntType) (v : Int) (u : Upper) (slip : Bool) (x : BitVec 64) : Prop where
  fits : t.Fits v
  reg : x = BitVec.ofInt 64 (u.cut (held slip v))
  slipped : slip = true → (t = .short true ∨ (∃ s, t = .int s) ∨ ∃ s, t = .long s) ∧ 65408 ≤ v ∧ v ≤ 65535
  full : u = .full → ∃ s, t = .long s
  wide : (∃ s, t = .long s) → slip = false → (2 : Int) ^ 64 ∣ u.cut v - v

section

variable {t t' : IntType} {u : Upper} {slip : Bool} {v k : Int} {n : Nat} {c c' : Cpu}

/-- A conversion makes a value of its type. -/
theorem fits_convert (t : IntType) (v : Int) : t.Fits (t.convert v) := by
  cases t with
  | char s => exact inRange_wrap 8 s v
  | short s => exact inRange_wrap 16 s v
  | int s => exact inRange_wrap 32 s v
  | long s => exact inRange_wrap 64 s v
  | bool =>
    show (if v = 0 then 0 else 1) = 0 ∨ (if v = 0 then 0 else 1) = 1
    split
    · exact .inl rfl
    · exact .inr rfl

theorem dvd_cut_sub (u : Upper) (k : Int) : (2 : Int) ^ 32 ∣ u.cut k - k := by
  cases u with
  | sign => exact dvd_wrap_sub 32 false k
  | zero => exact dvd_wrap_sub 32 true k
  | full => simp [Upper.cut]

theorem dvd_held_sub (slip : Bool) (v : Int) : (2 : Int) ^ 16 ∣ held slip v - v := by
  cases slip with
  | true => exact ⟨-1, by simp [held]⟩
  | false => simp [held]

/-- Congruent values are cut to the same, but where all of them is kept. -/
theorem cut_congr (hu : u ≠ .full) {k' : Int} (h : (2 : Int) ^ 32 ∣ k - k') : u.cut k = u.cut k' := by
  cases u with
  | sign => exact wrap_congr h
  | zero => exact wrap_congr h
  | full => exact absurd rfl hu

@[simp] theorem reg_set (c : Cpu) (v : BitVec 64) : (c.set 0 v).mach.reg 0 = v := by
  simp [Cpu.set, Mach.reg]

/-- The lines that extend from `n` bits, where `s` asks for zeros. -/
def extLines (n : Nat) (s : Bool) : List Insn :=
  if n = 8 then if s then [.ext .uxtb .w 0 0] else [.ext .sxtb .x 0 0]
  else if n = 16 then if s then [.ext .uxth .w 0 0] else [.ext .sxth .x 0 0]
  else if s then [.mov .w 0 0] else [.ext .sxtw .x 0 0]

theorem upperAfter_extLines (n : Nat) (s : Bool) (u : Upper) : upperAfter (extLines n s) u = extUpper s := by
  unfold extLines
  split
  · cases s <;> rfl
  split
  · cases s <;> rfl
  · cases s <;> rfl

/-- The extension keeps the low `n` bits and makes the others. -/
theorem exec_extLines {s : Bool} (hn : n = 8 ∨ n = 16 ∨ n = 32) (hx : c.mach.reg 0 = BitVec.ofInt 64 k) :
    ∃ c', execs (extLines n s) c = some c' ∧ c'.mach.reg 0 = BitVec.ofInt 64 (wrap n s k) := by
  have hlow : ∀ m ≤ 64, (c.mach.reg 0).setWidth m = BitVec.ofInt m k := fun m hm => by rw [hx, setWidth_ofInt hm]
  refine ⟨c.set 0 (BitVec.ofInt 64 (wrap n s k)), ?_, reg_set _ _⟩
  -- a zero extension of 8 or 16 bits goes to a 32-bit register, which clears the upper half again
  have hcut : ∀ m ≤ 32, ((BitVec.ofInt 64 (wrap m true k)).setWidth 32).setWidth 64 = BitVec.ofInt 64 (wrap m true k) := by
    intro m hm
    rw [setWidth_ofInt (by decide), zeroExtend_ofInt (by decide), wrap_of_inRange ((inRange_wrap m true k).mono hm)]
  obtain rfl | rfl | rfl := hn
  · cases s with
    | true =>
      refine (execs_cons _ _ _).trans ?_
      rw [exec_set rfl rfl, Width.cut, Ext.apply, hlow 8 (by decide), zeroExtend_ofInt (by decide), hcut 8 (by decide)]
      rfl
    | false =>
      refine (execs_cons _ _ _).trans ?_
      rw [exec_set rfl rfl, Width.cut, Ext.apply, hlow 8 (by decide), signExtend_ofInt]
      rfl
  · cases s with
    | true =>
      refine (execs_cons _ _ _).trans ?_
      rw [exec_set rfl rfl, Width.cut, Ext.apply, hlow 16 (by decide), zeroExtend_ofInt (by decide), hcut 16 (by decide)]
      rfl
    | false =>
      refine (execs_cons _ _ _).trans ?_
      rw [exec_set rfl rfl, Width.cut, Ext.apply, hlow 16 (by decide), signExtend_ofInt]
      rfl
  cases s with
  | true =>
    refine (execs_cons _ _ _).trans ?_
    rw [exec_set rfl rfl, Width.cut, hlow 32 (by decide), zeroExtend_ofInt (by decide)]
    rfl
  | false =>
    refine (execs_cons _ _ _).trans ?_
    rw [exec_set rfl rfl, Width.cut, Ext.apply, hlow 32 (by decide), signExtend_ofInt]
    rfl

/-! ## The casts by their destination -/

variable {x : BitVec 64}

theorem cast_char (t : IntType) (s : Bool) : cast t.ty (IntType.char s).ty = if t = .char s then [] else extLines 8 s := by
  cases t with
  | char r => cases r <;> cases s <;> rfl
  | short r => cases r <;> cases s <;> rfl
  | int r => cases r <;> cases s <;> rfl
  | long r => cases r <;> cases s <;> rfl
  | bool => cases s <;> rfl

theorem cast_short (t : IntType) (s : Bool) : cast t.ty (IntType.short s).ty =
    if (∃ r, t = .char r) ∨ t = .short s then [] else extLines 16 s := by
  cases t with
  | char r => cases r <;> cases s <;> simp <;> rfl
  | short r => cases r <;> cases s <;> simp <;> rfl
  | int r => cases r <;> cases s <;> simp <;> rfl
  | long r => cases r <;> cases s <;> simp <;> rfl
  | bool => cases s <;> simp <;> rfl

theorem cast_int (t : IntType) (s : Bool) : cast t.ty (IntType.int s).ty =
    if (∃ r, t = .long r) ∨ t = .bool ∨ s = true ∧ t = .int false then extLines 32 s else [] := by
  cases t with
  | char r => cases r <;> cases s <;> simp <;> rfl
  | short r => cases r <;> cases s <;> simp <;> rfl
  | int r => cases r <;> cases s <;> simp <;> rfl
  | long r => cases r <;> cases s <;> simp <;> rfl
  | bool => cases s <;> simp <;> rfl

theorem cast_long (t : IntType) (s : Bool) : cast t.ty (IntType.long s).ty =
    if (∃ r, t = .long r) ∨ t = .bool then [] else extLines 32 t.ty.isUnsigned := by
  cases t with
  | char r => cases r <;> cases s <;> simp <;> rfl
  | short r => cases r <;> cases s <;> simp <;> rfl
  | int r => cases r <;> cases s <;> simp <;> rfl
  | long r => cases r <;> cases s <;> simp <;> rfl
  | bool => cases s <;> simp <;> rfl

/-- Cutting to 8 or 16 bits makes the value right, whatever was there before. -/
theorem holding_narrow {s : Bool} (u : Upper) (slip : Bool) (hn : n ≤ 16) (hconv : t'.convert v = wrap n s v)
    (hlong : ∀ r, t' ≠ .long r) :
    Holding t' (t'.convert v) (extUpper s) false (BitVec.ofInt 64 (wrap n s (u.cut (held slip v)))) := by
  have hcongr : wrap n s (u.cut (held slip v)) = wrap n s v := by
    refine wrap_congr ?_
    have hcut := (pow_dvd_pow (2 : Int) (show n ≤ 32 by omega)).trans (dvd_cut_sub u (held slip v))
    have hheld := (pow_dvd_pow (2 : Int) hn).trans (dvd_held_sub slip v)
    have hsum := hcut.add hheld
    rwa [sub_add_sub_cancel] at hsum
  have hupper : (extUpper s).cut (wrap n s v) = wrap n s v := by
    cases s with
    | true => exact wrap_of_inRange ((inRange_wrap n true v).mono (by omega))
    | false => exact wrap_of_inRange ((inRange_wrap n false v).mono (by omega))
  refine ⟨fits_convert t' v, ?_, nofun, ?_, fun hex => ?_⟩
  · rw [hcongr, hconv]
    exact congrArg _ hupper.symm
  · cases s <;> nofun
  · obtain ⟨r, hr⟩ := hex
    exact absurd hr (hlong r)

/-- A value that the conversion does not change modulo `2 ^ 32` stays what the register stands for. -/
theorem dvd_held_convert (slip : Bool) {v' : Int} (h : (2 : Int) ^ n ∣ v' - v) : (2 : Int) ^ n ∣ held slip v - held slip v' := by
  have hneg := (dvd_neg.2 h)
  cases slip with
  | true => simpa [held] using hneg
  | false => simpa [held] using hneg

/-- What has slipped is a value of `int` and `long` too. -/
theorem Holding.slipped_convert (h : Holding t v u slip x) (hslip : slip = true) (hn : 32 ≤ n) (s : Bool) :
    wrap n s v = v := by
  obtain ⟨-, hlo, hhi⟩ := h.slipped hslip
  refine wrap_of_inRange (InRange.mono ?_ hn)
  cases s with
  | true => exact ⟨by omega, by omega⟩
  | false => exact ⟨by omega, by omega⟩

theorem Holding.cut_int (h : Holding t v u slip x) (s : Bool) :
    Holding (.int s) ((IntType.int s).convert v) (extUpper s) slip (BitVec.ofInt 64 (wrap 32 s (u.cut (held slip v)))) := by
  have hcongr : wrap 32 s (u.cut (held slip v)) = wrap 32 s (held slip (wrap 32 s v)) := by
    refine wrap_congr ?_
    have hsum := (dvd_cut_sub u (held slip v)).add (dvd_held_convert slip (dvd_wrap_sub 32 s v))
    rwa [sub_add_sub_cancel] at hsum
  have hupper : (extUpper s).cut (held slip (wrap 32 s v)) = wrap 32 s (held slip (wrap 32 s v)) := by
    cases s <;> rfl
  refine ⟨fits_convert _ v, ?_, fun hslip => ?_, ?_, fun hex => ?_⟩
  · rw [hcongr]
    exact congrArg _ hupper.symm
  · refine ⟨.inr (.inl ⟨s, rfl⟩), ?_⟩
    rw [show (IntType.int s).convert v = v from h.slipped_convert hslip (le_refl 32) s]
    exact (h.slipped hslip).2
  · cases s <;> nofun
  · obtain ⟨r, hr⟩ := hex
    cases hr

/-- Extending from 32 bits by the type's own extension gives all of the value, or its slip. -/
theorem Holding.extend_long {r : Bool} (h : Holding t v u slip x) (hfit : InRange 32 r v) (s : Bool) :
    Holding (.long s) ((IntType.long s).convert v) (extUpper r) slip (BitVec.ofInt 64 (wrap 32 r (u.cut (held slip v)))) := by
  have hdvd : (2 : Int) ^ 32 ∣ wrap 64 s v - v := (pow_dvd_pow 2 (by decide)).trans (dvd_wrap_sub 64 s v)
  have hcongr : wrap 32 r (u.cut (held slip v)) = wrap 32 r (held slip (wrap 64 s v)) := by
    refine wrap_congr ?_
    have hsum := (dvd_cut_sub u (held slip v)).add (dvd_held_convert slip hdvd)
    rwa [sub_add_sub_cancel] at hsum
  have hupper : ∀ k, (extUpper r).cut k = wrap 32 r k := by
    intro k
    cases r <;> rfl
  refine ⟨fits_convert _ v, ?_, fun hslip => ?_, ?_, fun _ _ => ?_⟩
  · rw [hcongr]
    exact congrArg _ (hupper _).symm
  · refine ⟨.inr (.inr ⟨s, rfl⟩), ?_⟩
    rw [show (IntType.long s).convert v = v from h.slipped_convert hslip (by decide) s]
    exact (h.slipped hslip).2
  · cases r <;> nofun
  have hsame : wrap 32 r (wrap 64 s v) = v := by
    rw [wrap_wrap (by decide), wrap_of_inRange hfit]
  rw [hupper, show (IntType.long s).convert v = wrap 64 s v from rfl, hsame, ← dvd_neg, neg_sub]
  exact dvd_wrap_sub 64 s v

/-- Without an instruction the register stays right where the value stays the same modulo `2 ^ 32`. -/
theorem Holding.stay {slip' : Bool} (h : Holding t v u slip x) (ht : ∀ r, t ≠ .long r) (ht' : ∀ r, t' ≠ .long r)
    (hheld : (2 : Int) ^ 32 ∣ held slip v - held slip' (t'.convert v))
    (hslip : slip' = true → (t' = .short true ∨ ∃ s, t' = .int s) ∧ 65408 ≤ t'.convert v ∧ t'.convert v ≤ 65535) :
    Holding t' (t'.convert v) u slip' x := by
  have hu : u ≠ .full := by
    intro hfull
    obtain ⟨r, hr⟩ := h.full hfull
    exact ht r hr
  refine ⟨fits_convert t' v, ?_, fun hs => ?_, fun hfull => absurd hfull hu, fun hex => ?_⟩
  · rw [h.reg, cut_congr hu hheld]
  · exact ⟨(hslip hs).1.imp_right .inl, (hslip hs).2⟩
  · obtain ⟨r, hr⟩ := hex
    exact absurd hr (ht' r)

theorem Holding.not_slipped (h : Holding t v u slip x) (ht : (∃ r, t = .char r) ∨ t = .short false ∨ t = .bool) : slip = false := by
  cases slip with
  | false => rfl
  | true =>
    obtain ⟨hty, -⟩ := h.slipped rfl
    rcases ht with ⟨r, rfl⟩ | rfl | rfl
    · rcases hty with hty | ⟨_, hty⟩ | ⟨_, hty⟩ <;> cases hty
    · rcases hty with hty | ⟨_, hty⟩ | ⟨_, hty⟩ <;> cases hty
    · rcases hty with hty | ⟨_, hty⟩ | ⟨_, hty⟩ <;> cases hty

theorem Holding.stay_fits (h : Holding t v u slip x) (ht : ∀ r, t ≠ .long r) (ht' : ∀ r, t' ≠ .long r)
    (hslip : slip = false) (hconv : t'.convert v = v) : Holding t' (t'.convert v) u false x := by
  refine h.stay ht ht' ?_ nofun
  rw [hslip, hconv, sub_self]
  exact dvd_zero _

theorem Holding.cast_char (h : Holding t v u slip (c.mach.reg 0)) (s : Bool) :
    ∃ c', execs (cast t.ty (IntType.char s).ty) c = some c' ∧
      Holding (.char s) ((IntType.char s).convert v) (upperAfter (cast t.ty (IntType.char s).ty) u) false (c'.mach.reg 0) := by
  rw [Cc.cast_char]
  split
  · rename_i ht
    subst ht
    refine ⟨c, rfl, ?_⟩
    exact h.stay_fits nofun nofun (h.not_slipped (.inl ⟨s, rfl⟩)) (wrap_of_inRange h.fits)
  obtain ⟨c', hc', hx⟩ := exec_extLines (.inl rfl) h.reg
  refine ⟨c', hc', ?_⟩
  rw [hx, upperAfter_extLines]
  exact holding_narrow u slip (by decide) rfl nofun

/-- A cast to a type of 16 bits; the one from `signed char` to `unsigned short` is where the slip comes in.
-/
theorem Holding.cast_short (h : Holding t v u slip (c.mach.reg 0)) (s : Bool) :
    ∃ c', execs (cast t.ty (IntType.short s).ty) c = some c' ∧
      Holding (.short s) ((IntType.short s).convert v) (upperAfter (cast t.ty (IntType.short s).ty) u)
        (slipStep t (.short s) v slip) (c'.mach.reg 0) := by
  rw [Cc.cast_short]
  split
  · rename_i ht
    refine ⟨c, rfl, ?_⟩
    rcases ht with ⟨r, rfl⟩ | rfl
    · have hslip := h.not_slipped (.inl ⟨r, rfl⟩)
      have hfits : InRange 8 r v := h.fits
      cases s with
      | false =>
        refine h.stay_fits nofun nofun hslip (wrap_of_inRange ?_)
        cases r with
        | false => exact hfits.mono (by decide)
        | true => exact hfits.signed (by decide)
      | true =>
        cases r with
        | true =>
          have hstep : slipStep (.char true) (.short true) v slip = false := by simp [slipStep]
          have hwide : InRange 16 true v := hfits.mono (by decide)
          rw [hstep]
          exact h.stay_fits nofun nofun hslip (wrap_of_inRange hwide)
        | false =>
          obtain ⟨hlo, hhi⟩ := hfits
          rcases lt_or_ge v 0 with hneg | hpos
          · have hconv : (IntType.short true).convert v = v + 65536 := by
              show v % 65536 = _
              omega
            have hstep : slipStep (.char false) (.short true) v slip = true := by simp [slipStep, hneg]
            rw [hstep]
            refine h.stay nofun nofun ?_ fun _ => ⟨.inl rfl, by omega, by omega⟩
            rw [hslip, hconv]
            simp [held]
          have hconv : (IntType.short true).convert v = v := by
            show v % 65536 = _
            omega
          have hstep : slipStep (.char false) (.short true) v slip = false := by simp [slipStep, Int.not_lt.2 hpos]
          rw [hstep]
          exact h.stay_fits nofun nofun hslip hconv
    have hconv : (IntType.short s).convert v = v := wrap_of_inRange h.fits
    cases s with
    | false => exact h.stay_fits nofun nofun (h.not_slipped (.inr (.inl rfl))) hconv
    | true =>
      have hstep : slipStep (.short true) (.short true) v slip = slip := by simp [slipStep]
      rw [hstep]
      refine h.stay nofun nofun ?_ fun hs => ⟨.inl rfl, ?_⟩
      · rw [hconv, sub_self]
        exact dvd_zero _
      · rw [hconv]
        exact (h.slipped hs).2
  rename_i ht
  rw [not_or, not_exists] at ht
  obtain ⟨c', hc', hx⟩ := exec_extLines (.inr (.inl rfl)) h.reg
  refine ⟨c', hc', ?_⟩
  have hstep : slipStep t (.short s) v slip = false := by
    cases s with
    | false => rfl
    | true => simp [slipStep, ht.1 false, ht.2]
  rw [hx, upperAfter_extLines, hstep]
  exact holding_narrow u slip (by decide) rfl nofun

theorem Holding.cast_int (h : Holding t v u slip (c.mach.reg 0)) (s : Bool) :
    ∃ c', execs (cast t.ty (IntType.int s).ty) c = some c' ∧
      Holding (.int s) ((IntType.int s).convert v) (upperAfter (cast t.ty (IntType.int s).ty) u) slip (c'.mach.reg 0) := by
  rw [Cc.cast_int]
  split
  · obtain ⟨c', hc', hx⟩ := exec_extLines (.inr (.inr rfl)) h.reg
    refine ⟨c', hc', ?_⟩
    rw [hx, upperAfter_extLines]
    exact h.cut_int s
  rename_i ht
  rw [not_or, not_exists] at ht
  refine ⟨c, rfl, h.stay ht.1 nofun (dvd_held_convert slip (dvd_wrap_sub 32 s v)) fun hs => ⟨.inr ⟨s, rfl⟩, ?_⟩⟩
  rw [show (IntType.int s).convert v = v from h.slipped_convert hs (le_refl 32) s]
  exact (h.slipped hs).2

/-- The conversion to a 64-bit type changes nothing modulo `2 ^ 64`. -/
theorem Holding.stay_long {r : Bool} (h : Holding (.long r) v u slip x) (s : Bool) :
    Holding (.long s) ((IntType.long s).convert v) u slip x := by
  have hdvd : (2 : Int) ^ 64 ∣ wrap 64 s v - v := dvd_wrap_sub 64 s v
  have hsame : ∀ k k' : Int, (2 : Int) ^ 64 ∣ k - k' → (2 : Int) ^ 64 ∣ u.cut k - u.cut k' := by
    intro k k' hk
    rcases eq_or_ne u .full with rfl | hu
    · exact hk
    · rw [cut_congr hu ((pow_dvd_pow 2 (by decide)).trans hk), sub_self]
      exact dvd_zero _
  refine ⟨fits_convert _ v, ?_, fun hs => ?_, fun _ => ⟨s, rfl⟩, fun _ hs => ?_⟩
  · rw [h.reg]
    exact ofInt_eq_iff.2 (hsame _ _ (dvd_held_convert slip hdvd))
  · refine ⟨.inr (.inr ⟨s, rfl⟩), ?_⟩
    rw [show (IntType.long s).convert v = v from h.slipped_convert hs (by decide) s]
    exact (h.slipped hs).2
  · have hsum := ((hsame _ _ hdvd).add (h.wide ⟨r, rfl⟩ hs)).sub hdvd
    rwa [sub_add_sub_cancel, sub_sub_sub_cancel_right] at hsum

/-- A cast to a type of 64 bits. -/
theorem Holding.cast_long (h : Holding t v u slip (c.mach.reg 0)) (s : Bool) :
    ∃ c', execs (cast t.ty (IntType.long s).ty) c = some c' ∧
      Holding (.long s) ((IntType.long s).convert v) (upperAfter (cast t.ty (IntType.long s).ty) u) slip (c'.mach.reg 0) := by
  rw [Cc.cast_long]
  split
  · rename_i ht
    refine ⟨c, rfl, ?_⟩
    rcases ht with ⟨r, rfl⟩ | rfl
    · exact h.stay_long s
    have hslip := h.not_slipped (.inr (.inr rfl))
    have hu : u ≠ .full := by
      intro hfull
      obtain ⟨r, hr⟩ := h.full hfull
      cases hr
    have hbit : v = 0 ∨ v = 1 := h.fits
    have hbyte : InRange 8 true v := ⟨by omega, by omega⟩
    have hconv : (IntType.long s).convert v = v := by
      cases s with
      | true => exact wrap_of_inRange (hbyte.mono (by decide))
      | false => exact wrap_of_inRange (hbyte.signed (by decide))
    have hcut : u.cut v = v := by
      cases u with
      | sign => exact wrap_of_inRange (hbyte.signed (by decide))
      | zero => exact wrap_of_inRange (hbyte.mono (by decide))
      | full => rfl
    refine ⟨fits_convert _ v, ?_, fun hs => ?_, fun hfull => absurd hfull hu, fun _ _ => ?_⟩
    · rw [h.reg, hconv]
      rfl
    · rw [hs] at hslip
      cases hslip
    rw [hconv]
    show _ ∣ u.cut v - v
    rw [hcut, sub_self]
    exact dvd_zero _
  rename_i ht
  rw [not_or, not_exists] at ht
  obtain ⟨c', hc', hx⟩ := exec_extLines (.inr (.inr rfl)) h.reg
  refine ⟨c', hc', ?_⟩
  rw [hx, upperAfter_extLines]
  refine h.extend_long ?_ s
  have hfits := h.fits
  cases t with
  | char r => exact InRange.mono hfits (by decide)
  | short r => exact InRange.mono hfits (by decide)
  | int r => exact hfits
  | long r => exact absurd rfl (ht.1 r)
  | bool => exact absurd rfl ht.2

theorem fits_word (ht : ∀ r, t ≠ .long r) (h : t.Fits v) : ∃ r, InRange 32 r v := by
  cases t with
  | char r => exact ⟨r, InRange.mono h (by decide)⟩
  | short r => exact ⟨r, InRange.mono h (by decide)⟩
  | int r => exact ⟨r, h⟩
  | long r => exact absurd rfl (ht r)
  | bool =>
    have hbit : v = 0 ∨ v = 1 := h
    exact ⟨true, by omega, by omega⟩

theorem Holding.low (h : Holding t v u slip x) (hn : n ≤ 32) : x.setWidth n = BitVec.ofInt n (held slip v) := by
  rw [h.reg, setWidth_ofInt (by omega), ofInt_eq_iff]
  exact (pow_dvd_pow 2 hn).trans (dvd_cut_sub u _)

theorem Holding.long {r : Bool} (h : Holding (.long r) v u slip x) (hslip : slip = false) : x = BitVec.ofInt 64 v := by
  rw [h.reg, hslip]
  exact ofInt_eq_iff.2 (h.wide ⟨r, rfl⟩ hslip)

theorem Holding.word_iff (h : Holding t v u slip x) : x.setWidth 32 = BitVec.ofInt 32 v ↔ slip = false := by
  rw [h.low (le_refl 32), ofInt_eq_iff]
  cases slip with
  | false => simp [held]
  | true =>
    have hnot : ¬ (2 : Int) ^ 32 ∣ held true v - v := by
      simp only [held, if_true]
      omega
    exact ⟨fun hdvd => absurd hdvd hnot, nofun⟩

/-- The register is zero exactly when the value is, whether it has slipped or not. -/
theorem Holding.eq_zero_iff (h : Holding t v u slip x) : x = 0 ↔ v = 0 := by
  cases hslip : slip with
  | true =>
    obtain ⟨-, hlo, hhi⟩ := h.slipped hslip
    have hlow := h.low (le_refl 32)
    refine ⟨fun hx => ?_, fun hv => by omega⟩
    rw [hx, hslip, show (0 : BitVec 64).setWidth 32 = BitVec.ofInt 32 0 from rfl, ofInt_eq_iff] at hlow
    simp only [held, if_true] at hlow
    omega
  | false =>
    by_cases hlong : ∃ r, t = .long r
    · obtain ⟨r, rfl⟩ := hlong
      have hfits : InRange 64 r v := h.fits
      have hzero : InRange 64 r 0 := by cases r <;> exact ⟨by decide, by decide⟩
      rw [h.long hslip, show (0 : BitVec 64) = BitVec.ofInt 64 0 from rfl, ofInt_eq_iff]
      constructor
      · exact fun hdvd => hfits.unique hzero hdvd
      · rintro rfl
        simp
    rw [not_exists] at hlong
    obtain ⟨r, hfits⟩ := fits_word hlong h.fits
    have hzero : InRange 32 r 0 := by cases r <;> exact ⟨by decide, by decide⟩
    constructor
    · intro hx
      have hlow := h.low (le_refl 32)
      rw [hx, hslip, show (0 : BitVec 64).setWidth 32 = BitVec.ofInt 32 0 from rfl, eq_comm, ofInt_eq_iff] at hlow
      exact hfits.unique hzero hlow
    · rintro rfl
      rw [h.reg, hslip]
      cases u <;> rfl

theorem exec_cmpZero (ht : t.ty.isFlonum = false) (c : Cpu) :
    execs (cmpZero t.ty) c = some (c.compare (subFlags (c.mach.reg 0) 0)) := by
  unfold cmpZero
  rw [ht]
  rfl

theorem subFlags_zero (x : BitVec 64) : Cond.eq.holds (subFlags x 0) = true ↔ x = 0 := by
  simp [Cond.holds, subFlags]

theorem ty_isFlonum (t : IntType) : t.ty.isFlonum = false := by cases t <;> rfl

theorem Holding.cast_bool (h : Holding t v u slip (c.mach.reg 0)) :
    ∃ c', execs (cast t.ty IntType.bool.ty) c = some c' ∧
      Holding .bool (IntType.bool.convert v) (upperAfter (cast t.ty IntType.bool.ty) u) false (c'.mach.reg 0) := by
  have hcast : cast t.ty IntType.bool.ty = cmpZero t.ty ++ [.cset .w 0 .ne] := rfl
  have hconv : IntType.bool.convert v = if v = 0 then 0 else 1 := rfl
  have hupper : upperAfter (cast t.ty IntType.bool.ty) u = .zero := by
    rw [hcast]
    unfold upperAfter
    rw [List.foldl_append]
    rfl
  have hflags : Cond.ne.holds (subFlags (c.mach.reg 0) 0) = true ↔ v ≠ 0 := by
    rw [show Cond.ne.holds (subFlags (c.mach.reg 0) 0) = !Cond.eq.holds (subFlags (c.mach.reg 0) 0) from rfl,
      Bool.not_eq_true', ← Bool.not_eq_true, subFlags_zero, h.eq_zero_iff]
  rw [hupper, hcast, execs_append, exec_cmpZero (ty_isFlonum t)]
  refine ⟨(c.compare (subFlags (c.mach.reg 0) 0)).set 0 (BitVec.ofInt 64 (IntType.bool.convert v)), ?_, ?_⟩
  · refine (execs_cons _ _ _).trans ?_
    have hresult : Insn.result c.mach (subFlags (c.mach.reg 0) 0) (.cset .w 0 .ne) =
        some (BitVec.ofInt 64 (IntType.bool.convert v)) := by
      show some (if Cond.ne.holds (subFlags (c.mach.reg 0) 0) then (1 : BitVec 64) else 0) = _
      rw [if_congr hflags rfl rfl, hconv, ite_not]
      split <;> rfl
    rw [exec_set rfl hresult]
    rfl
  rw [reg_set]
  refine ⟨fits_convert _ v, ?_, nofun, nofun, fun hex => by obtain ⟨r, hr⟩ := hex; cases hr⟩
  rw [hconv]
  split <;> rfl

/-- **One cast keeps the register right, or its slip.** -/
theorem Holding.cast (h : Holding t v u slip (c.mach.reg 0)) (t' : IntType) :
    ∃ c', execs (Cc.cast t.ty t'.ty) c = some c' ∧
      Holding t' (t'.convert v) (upperAfter (Cc.cast t.ty t'.ty) u) (slipStep t t' v slip) (c'.mach.reg 0) := by
  cases t' with
  | char s => exact h.cast_char s
  | short s => exact h.cast_short s
  | int s => exact h.cast_int s
  | long s => exact h.cast_long s
  | bool => exact h.cast_bool

theorem upperAfter_cons (t t' : IntType) (ts : List IntType) (u : Upper) :
    upperAfter (castChain t (t' :: ts)) u = upperAfter (castChain t' ts) (upperAfter (Cc.cast t.ty t'.ty) u) :=
  List.foldl_append

/-- **A chain of casts.** -/
theorem Holding.chain (h : Holding t v u slip (c.mach.reg 0)) (ts : List IntType) :
    ∃ c', execs (castChain t ts) c = some c' ∧ Holding (lastType t ts) (convertChain ts v)
      (upperAfter (castChain t ts) u) (slips t ts v slip) (c'.mach.reg 0) := by
  induction ts generalizing t v u slip c with
  | nil => exact ⟨c, rfl, h⟩
  | cons t' ts ih =>
    obtain ⟨m, hm, hmid⟩ := h.cast t'
    obtain ⟨c', hc', hlast⟩ := ih hmid
    refine ⟨c', ?_, ?_⟩
    · unfold castChain
      rw [execs_append, hm]
      exact hc'
    rw [upperAfter_cons]
    exact hlast

theorem upperAfter_cast (t t' : IntType) (u : Upper) : upperAfter (cast t.ty t'.ty) u = castUpper t t' u := by
  rcases t with (_ | _) | (_ | _) | (_ | _) | (_ | _) | _ <;>
    rcases t' with (_ | _) | (_ | _) | (_ | _) | (_ | _) | _ <;> rfl

theorem upperAfter_load (t : IntType) (u : Upper) : upperAfter (load t.ty) u = loadUpper t := by
  rcases t with (_ | _) | (_ | _) | (_ | _) | (_ | _) | _ <;> rfl

/-- What the emitted lines do to the upper half is known from the types. -/
theorem upperAfter_chain (t : IntType) (ts : List IntType) (u : Upper) :
    upperAfter (castChain t ts) u = chainUpper t ts u := by
  induction ts generalizing t u with
  | nil => rfl
  | cons t' ts ih =>
    rw [upperAfter_cons, upperAfter_cast, ih]
    rfl

/-! ## Loads and uses -/

theorem get_ofInt (hn : n ≤ 8) (hmem : c.mach.mem.Holds (c.mach.reg 0).toNat n (BitVec.ofInt 64 v)) :
    c.mach.mem.get (c.mach.reg 0 + BitVec.ofInt 64 0).toNat n = BitVec.ofInt 64 (wrap (8 * n) true v) := by
  rw [show c.mach.reg 0 + BitVec.ofInt 64 0 = c.mach.reg 0 from BitVec.add_zero _, hmem.get hn,
    setWidth_ofInt (by omega), zeroExtend_ofInt (by omega)]

theorem exec_load (op : LoadOp) (hn : op.size ≤ 8)
    (hmem : c.mach.mem.Holds (c.mach.reg 0).toNat op.size (BitVec.ofInt 64 v)) :
    execs [.load op 0 0 0] c = some (c.set 0 (op.extend (BitVec.ofInt 64 (wrap (8 * op.size) true v)))) := by
  refine (execs_cons _ _ _).trans ?_
  rw [exec_set rfl rfl, get_ofInt hn hmem]
  rfl

/-- A value of 32 bits that was extended as its sign says. -/
theorem holding_word {s : Bool} (ht : ∀ r, t ≠ .long r) (hfits : t.Fits v) (hrange : InRange 32 s v) :
    Holding t v (extUpper s) false (BitVec.ofInt 64 v) := by
  refine ⟨hfits, ?_, nofun, ?_, fun hex => ?_⟩
  · have hcut : (extUpper s).cut v = v := by
      cases s with
      | true => exact wrap_of_inRange hrange
      | false => exact wrap_of_inRange hrange
    exact congrArg _ hcut.symm
  · cases s <;> nofun
  · obtain ⟨r, hr⟩ := hex
    exact absurd hr (ht r)

theorem extend_signed (hrange : InRange n false v) (hn : n ≤ 64) :
    ((BitVec.ofInt 64 (wrap n true v)).setWidth n).signExtend 64 = BitVec.ofInt 64 v := by
  rw [setWidth_ofInt hn, signExtend_ofInt, wrap_wrap (le_refl n), wrap_of_inRange hrange]

/-- **A load leaves the value as its type says.** -/
theorem holding_load (hfits : t.Fits v)
    (hmem : c.mach.mem.Holds (c.mach.reg 0).toNat t.ty.size (BitVec.ofInt 64 v)) :
    ∃ c', execs (load t.ty) c = some c' ∧ Holding t v (upperAfter (load t.ty) .full) false (c'.mach.reg 0) := by
  have hsigned : ∀ {m : Nat} {x : BitVec 64}, m ≤ 32 → InRange m false v → (∀ r, t ≠ .long r) → x = BitVec.ofInt 64 v →
      Holding t v .sign false x := by
    rintro m x hm hrange ht rfl
    exact holding_word ht hfits (hrange.mono hm)
  have hunsigned : ∀ {m : Nat} {x : BitVec 64}, m ≤ 32 → InRange m true v → (∀ r, t ≠ .long r) →
      x = BitVec.ofInt 64 (wrap m true v) → Holding t v .zero false x := by
    rintro m x hm hrange ht rfl
    rw [wrap_of_inRange hrange]
    exact holding_word ht hfits (hrange.mono hm)
  cases t with
  | char s =>
    cases s with
    | true => exact ⟨_, exec_load .ldrb (by decide) hmem, hunsigned (m := 8) (by decide) hfits nofun (reg_set _ _)⟩
    | false =>
      refine ⟨_, exec_load .ldrsb (by decide) hmem, hsigned (m := 8) (by decide) hfits nofun ?_⟩
      exact (reg_set _ _).trans (extend_signed hfits (by decide))
  | short s =>
    cases s with
    | true => exact ⟨_, exec_load .ldrh (by decide) hmem, hunsigned (m := 16) (by decide) hfits nofun (reg_set _ _)⟩
    | false =>
      refine ⟨_, exec_load .ldrsh (by decide) hmem, hsigned (m := 16) (by decide) hfits nofun ?_⟩
      exact (reg_set _ _).trans (extend_signed hfits (by decide))
  | int s =>
    cases s with
    | true => exact ⟨_, exec_load .ldrW (by decide) hmem, hunsigned (m := 32) (by decide) hfits nofun (reg_set _ _)⟩
    | false =>
      refine ⟨_, exec_load .ldrsw (by decide) hmem, hsigned (m := 32) (by decide) hfits nofun ?_⟩
      exact (reg_set _ _).trans (extend_signed hfits (by decide))
  | long s =>
    refine ⟨_, exec_load .ldrX (by decide) hmem, hfits, ?_, nofun, fun _ => ⟨s, rfl⟩, fun _ _ => ?_⟩
    · exact (reg_set _ _).trans (ofInt_eq_iff.2 (dvd_wrap_sub 64 true v))
    · show _ ∣ v - v
      simp
  | bool =>
    have hbit : v = 0 ∨ v = 1 := hfits
    have hrange : InRange 8 false v := ⟨by omega, by omega⟩
    refine ⟨_, exec_load .ldrsb (by decide) hmem, hsigned (m := 8) (by decide) hrange nofun ?_⟩
    exact (reg_set _ _).trans (extend_signed hrange (by decide))

theorem size_eq_eight (t : IntType) : t.ty.size = 8 ↔ ∃ r, t = .long r := by
  cases t with
  | long r => exact ⟨fun _ => ⟨r, rfl⟩, fun _ => rfl⟩
  | char r => exact ⟨nofun, fun h => by obtain ⟨_, h⟩ := h; cases h⟩
  | short r => exact ⟨nofun, fun h => by obtain ⟨_, h⟩ := h; cases h⟩
  | int r => exact ⟨nofun, fun h => by obtain ⟨_, h⟩ := h; cases h⟩
  | bool => exact ⟨nofun, fun h => by obtain ⟨_, h⟩ := h; cases h⟩

/-- All bits are right where nothing slipped and the upper half is that of the value. -/
theorem Holding.long_iff (h : Holding t v u slip x) : x = BitVec.ofInt 64 v ↔
    slip = false ∧ (t.ty.size = 8 ∨ (u = .sign → v < 2 ^ 31) ∧ (u = .zero → 0 ≤ v)) := by
  rw [size_eq_eight]
  constructor
  · intro hx
    have hslip : slip = false := by
      rw [← h.word_iff, hx, setWidth_ofInt (by decide)]
    refine ⟨hslip, or_iff_not_imp_left.2 fun hlong => ?_⟩
    rw [not_exists] at hlong
    have hreg := h.reg
    rw [hx, hslip, eq_comm, ofInt_eq_iff] at hreg
    have hreg : (2 : Int) ^ 64 ∣ u.cut v - v := hreg
    obtain ⟨r, hfits⟩ := fits_word hlong h.fits
    have hbounds : -2 ^ 31 ≤ v ∧ v < 2 ^ 32 := by
      cases r with
      | true =>
        obtain ⟨hlo, hhi⟩ := hfits
        omega
      | false =>
        obtain ⟨hlo, hhi⟩ := hfits
        omega
    constructor
    · rintro rfl
      obtain ⟨hlo, hhi⟩ := inRange_wrap 32 false v
      simp only [Upper.cut] at hreg
      omega
    rintro rfl
    obtain ⟨hlo, hhi⟩ := inRange_wrap 32 true v
    simp only [Upper.cut] at hreg
    omega
  rintro ⟨hslip, hlong | ⟨hsign, hzero⟩⟩
  · obtain ⟨r, rfl⟩ := hlong
    exact h.long hslip
  by_cases hlong : ∃ r, t = .long r
  · obtain ⟨r, rfl⟩ := hlong
    exact h.long hslip
  rw [not_exists] at hlong
  obtain ⟨r, hfits⟩ := fits_word hlong h.fits
  have hcut : u.cut v = v := by
    cases u with
    | sign =>
      have hlt := hsign rfl
      refine wrap_of_inRange ?_
      cases r with
      | true =>
        obtain ⟨hlo, hhi⟩ := hfits
        exact ⟨by omega, by omega⟩
      | false => exact hfits
    | zero =>
      have hpos := hzero rfl
      refine wrap_of_inRange ?_
      cases r with
      | true => exact hfits
      | false =>
        obtain ⟨hlo, hhi⟩ := hfits
        exact ⟨hpos, by omega⟩
    | full => rfl
  rw [h.reg, hslip]
  exact congrArg _ hcut

theorem holds_put_iff (mem : Mem) (a : Int) {y w : BitVec 64} (hn : n ≤ 8) :
    (mem.put a n y).Holds a n w ↔ y.setWidth (8 * n) = w.setWidth (8 * n) := by
  constructor
  · intro hw
    have hy := (mem.holds_put a n y).get hn
    rw [hw.get hn] at hy
    have hback : ∀ z : BitVec 64, ((z.setWidth (8 * n)).setWidth 64).setWidth (8 * n) = z.setWidth (8 * n) := by
      intro z
      rw [BitVec.setWidth_setWidth_of_le _ (by omega), BitVec.setWidth_eq]
    have hcut := congrArg (BitVec.setWidth (8 * n)) hy
    rw [hback, hback] at hcut
    exact hcut.symm
  intro heq i hi
  rw [mem.holds_put a n y i hi]
  refine BitVec.eq_of_getLsbD_eq fun j hj => ?_
  have hbit := congrArg (fun z => z.getLsbD (8 * i + j)) heq
  simp only [BitVec.getLsbD_setWidth, show 8 * i + j < 8 * n by omega, decide_true, Bool.true_and] at hbit
  simp [hj, hbit]

/-- A store writes the value where nothing slipped, or where it writes 16 bits. -/
theorem Holding.store_iff (h : Holding t v u slip (c.mach.reg 0)) :
    Use.Right t v c .store ↔ slip = false ∨ t = .short true := by
  have hput : ∀ op : StoreOp, execs [.store op 0 1 0] c = some (c.put (c.mach.reg 1).toNat op.size (c.mach.reg 0)) := by
    intro op
    refine (execs_cons _ _ _).trans ?_
    have haddr : c.mach.reg 1 + BitVec.ofInt 64 0 = c.mach.reg 1 := BitVec.add_zero _
    simp only [exec, haddr]
    rfl
  have hright : ∀ op : StoreOp, storeLines t.ty = [.store op 0 1 0] → op.size = t.ty.size → t.ty.size ≤ 8 →
      (Use.Right t v c .store ↔ (c.mach.reg 0).setWidth (8 * t.ty.size) = BitVec.ofInt (8 * t.ty.size) v) := by
    intro op hlines hsize hle
    rw [← setWidth_ofInt (show 8 * t.ty.size ≤ 64 by omega), ← holds_put_iff c.mach.mem (c.mach.reg 1).toNat hle]
    unfold Use.Right
    rw [hlines, hput, hsize]
    constructor
    · rintro ⟨c', hc', hmem⟩
      obtain rfl := Option.some.inj hc'
      exact hmem
    · exact fun hmem => ⟨_, rfl, hmem⟩
  have hlow : t.ty.size ≤ 2 → (c.mach.reg 0).setWidth (8 * t.ty.size) = BitVec.ofInt (8 * t.ty.size) v := by
    intro hsize
    rw [h.low (by omega), ofInt_eq_iff]
    exact (pow_dvd_pow 2 (by omega)).trans (dvd_held_sub slip v)
  cases t with
  | char s =>
    rw [hright .strb rfl rfl (show 1 ≤ 8 by decide)]
    exact iff_of_true (hlow (show 1 ≤ 2 by decide)) (.inl (h.not_slipped (.inl ⟨s, rfl⟩)))
  | short s =>
    rw [hright .strh rfl rfl (show 2 ≤ 8 by decide)]
    refine iff_of_true (hlow (le_refl 2)) ?_
    cases s with
    | true => exact .inr rfl
    | false => exact .inl (h.not_slipped (.inr (.inl rfl)))
  | int s =>
    rw [hright .strW rfl rfl (show 4 ≤ 8 by decide)]
    exact h.word_iff.trans (or_iff_left IntType.noConfusion).symm
  | long s =>
    rw [hright .strX rfl rfl (show 8 ≤ 8 by decide), show 8 * (IntType.long s).ty.size = 64 from rfl, BitVec.setWidth_eq, h.long_iff]
    exact ⟨fun hs => .inl hs.1, fun hs => ⟨hs.resolve_right IntType.noConfusion, .inl rfl⟩⟩
  | bool =>
    rw [hright .strb rfl rfl (show 1 ≤ 8 by decide)]
    exact iff_of_true (hlow (show 1 ≤ 2 by decide)) (.inl (h.not_slipped (.inr (.inr rfl))))

/-- **Each use is right exactly under its condition.** -/
theorem Holding.use (h : Holding t v u slip (c.mach.reg 0)) (use : Use) : use.Right t v c ↔ UseCond t slip u v use := by
  cases use with
  | word => exact h.word_iff
  | long => exact h.long_iff
  | zero =>
    refine ⟨fun _ => trivial, fun _ => ⟨_, exec_cmpZero (ty_isFlonum t) c, ?_⟩⟩
    exact (subFlags_zero _).trans h.eq_zero_iff
  | store => exact h.store_iff

/-- **A value that was loaded and went through a chain of casts is used right exactly when it has not slipped on the way,
or the use does not see the slip; and, for the use of all 64 bits, when the last extension agrees with it.** -/
theorem castChain_exact (t : IntType) (ts : List IntType) (v : Int) (c : Cpu) (use : Use) (hfits : t.Fits v)
    (hmem : c.mach.mem.Holds (c.mach.reg 0).toNat t.ty.size (BitVec.ofInt 64 v)) :
    ∃ c', execs (load t.ty ++ castChain t ts) c = some c' ∧
      (use.Right (lastType t ts) (convertChain ts v) c' ↔ UseCond (lastType t ts) (slips t ts v false)
        (chainUpper t ts (loadUpper t)) (convertChain ts v) use) := by
  obtain ⟨m, hm, hload⟩ := holding_load hfits hmem
  obtain ⟨c', hc', hlast⟩ := hload.chain ts
  refine ⟨c', ?_, ?_⟩
  · rw [execs_append, hm]
    exact hc'
  rw [← upperAfter_chain, ← upperAfter_load t .full]
  exact hlast.use use

/-- A machine with a byte at address 0, and the address in `x0`. -/
def byteCpu (v : Int) : Cpu :=
  ⟨⟨0, 0, fun _ => 0, fun _ => 0, Mem.put (fun _ => 0) 0 1 (BitVec.ofInt 64 v)⟩, ⟨false, false, false, false⟩⟩

/-- `signed char` 5 to `unsigned short` to `int`, used as a word. -/
theorem castChain_small : ∃ c', execs (load (IntType.char false).ty ++ castChain (.char false) [.short true, .int false])
    (byteCpu 5) = some c' ∧ Use.Right (.int false) 5 c' .word := by
  obtain ⟨c', hc', hright⟩ := castChain_exact (.char false) [.short true, .int false] 5 (byteCpu 5) .word
    ⟨by decide, by decide⟩ (Mem.holds_put _ _ _ _)
  exact ⟨c', hc', hright.2 (show slips (.char false) [.short true, .int false] 5 false = false by decide)⟩

/-- A `signed char` of -1 that is cast to `unsigned short` and then to `int`, used as 32 bits. -/
theorem castChain_wrong : ¬ ∀ (t : IntType) (ts : List IntType) (v : Int) (c : Cpu) (use : Use), t.Fits v →
    c.mach.mem.Holds (c.mach.reg 0).toNat t.ty.size (BitVec.ofInt 64 v) →
      ∃ c', execs (load t.ty ++ castChain t ts) c = some c' ∧ use.Right (lastType t ts) (convertChain ts v) c' := by
  intro hall
  have hfits : (IntType.char false).Fits (-1) := ⟨by decide, by decide⟩
  have hmem : (byteCpu (-1)).mach.mem.Holds ((byteCpu (-1)).mach.reg 0).toNat 1 (BitVec.ofInt 64 (-1)) :=
    Mem.holds_put _ _ _ _
  obtain ⟨c', hc', hright⟩ := hall (.char false) [.short true, .int false] (-1) (byteCpu (-1)) .word hfits hmem
  obtain ⟨m, hm, hload⟩ := holding_load hfits hmem
  obtain ⟨c'', hc'', hlast⟩ := hload.chain [.short true, .int false]
  rw [execs_append, hm] at hc'
  obtain rfl := Option.some.inj (hc'.symm.trans hc'')
  have hslip : slips (.char false) [.short true, .int false] (-1) false = false := hlast.word_iff.1 hright
  exact absurd hslip (by decide)

end

end Slopix.Cc
