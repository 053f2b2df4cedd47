import Slopix.Cc.CastChain
import Slopix.Cc.Frame
import Slopix.Lib.BitField

/-!
# Bit-fields

An assignment to a bit-field loads the storage unit, replaces the field's bits and stores the unit; a read cuts the
field out with two shifts. The value of the assignment is the right side as it was, and not what the field then holds.
-/

namespace Slopix.Cc

open Lib Option BitVec

/-! ## The code -/

/-- What `ND_ASSIGN` prints after the right side of an assignment to a bit-field. -/
def assignTail (mem : Member) : List Insn := mergeBits mem ++ .pop 1 :: (storeLines mem.ty ++ [.mov .x 0 8])

/-- The same, where the shift `1L << bit_width` in the compiler is defined. -/
def assignCode (mem : Member) : Option (List Insn) := if mem.bitWidth < 64 then some (assignTail mem) else none

/-- What `ND_MEMBER` prints after the address. -/
def memberCode (mem : Member) : List Insn := load mem.ty ++ loadBits mem

section

variable {s s1 s2 : GenState} {l1 l2 : List Item} {lhs rhs : Expr} {ty : Ty} {mem : Member} {offset : Nat → Int}

/-- The lines of an assignment: the address, a push, the right side and the tail. -/
theorem genAssign_lines (hmem : mem.isBitfield = true) (haddr : genAddr offset (.member ty lhs mem) s = some ((), s1, l1))
    (hrhs : genExpr offset rhs { s1 with depth := s1.depth + 1 } = some ((), s2, l2)) : ∃ s' items,
    genExpr offset (.assign mem.ty (.member ty lhs mem) rhs) s = some ((), s', items) ∧
      items.map Item.insn = l1.map Item.insn ++ .push 0 :: (l2.map Item.insn ++ assignTail mem) := by
  have hstore : ∀ s, store mem.ty s = some ((), { s with depth := s.depth + -1 },
      ⟨s.depth, .pop 1⟩ :: (storeLines mem.ty).map (Item.mk (s.depth + -1))) := fun s => by
    have hpop : pop 1 s = some ((), { s with depth := s.depth + -1 }, [⟨s.depth, .pop 1⟩]) := rfl
    unfold store
    exact bind_some hpop (emits_eq _ _)
  have hrun : genExpr offset (.assign mem.ty (.member ty lhs mem) rhs) s = some ((), { s2 with depth := s2.depth + -1 },
      l1 ++ ([⟨s1.depth, .push 0⟩] ++ (l2 ++ ((mergeBits mem).map (Item.mk s2.depth) ++
        ((⟨s2.depth, .pop 1⟩ :: (storeLines mem.ty).map (Item.mk (s2.depth + -1))) ++ [⟨s2.depth + -1, .mov .x 0 8⟩]))))) := by
    have hpush : push s1 = some ((), { s1 with depth := s1.depth + 1 }, [⟨s1.depth, .push 0⟩]) := rfl
    rw [genExpr, show (Expr.member ty lhs mem).bitfield? = some mem from if_pos hmem]
    unfold genAssign
    exact bind_some haddr (bind_some hpush (bind_some hrhs (bind_some (emits_eq _ _) (bind_some (hstore s2) rfl))))
  refine ⟨_, _, hrun, ?_⟩
  simp [assignTail, Function.comp_def]

/-- The lines of a read: the address of the structure, the offset and the code of the member. -/
theorem genMember_lines (haddr : genAddr offset lhs s = some ((), s1, l1)) : ∃ items,
    genExpr offset (.member mem.ty lhs mem) s = some ((), s1, items) ∧
      items.map Item.insn = l1.map Item.insn ++ (addOffset mem.offset ++ memberCode mem) := by
  have hrun : genExpr offset (.member mem.ty lhs mem) s = some ((), s1, l1 ++ ((addOffset mem.offset).map (Item.mk s1.depth) ++
      ((load mem.ty).map (Item.mk s1.depth) ++ (loadBits mem).map (Item.mk s1.depth)))) := by
    rw [genExpr]
    exact bind_some haddr (bind_some (emits_eq _ _) (bind_some (emits_eq _ _) (emits_eq _ _)))
  refine ⟨_, hrun, ?_⟩
  simp [memberCode, Function.comp_def]

end

/-! ## Fields and values -/

/-- The integer types. -/
def Ty.isInteger (ty : Ty) : Bool :=
  ty.kind = .bool || ty.kind = .char || ty.kind = .short || ty.kind = .int || ty.kind = .long || ty.kind = .enum

/-- A bit-field as the parser makes it: of an integer type, inside its storage unit. -/
structure IsBitField (mem : Member) : Prop where
  flag : mem.isBitfield = true
  integer : mem.ty.isInteger = true
  size : mem.ty.size = 1 ∨ mem.ty.size = 2 ∨ mem.ty.size = 4 ∨ mem.ty.size = 8
  bool : mem.ty.kind = .bool → mem.ty.isUnsigned = false
  pos : 1 ≤ mem.bitWidth
  fits : mem.bitOffset + mem.bitWidth ≤ 8 * mem.ty.size

/-- The value is one of the type. -/
def FitsTy (ty : Ty) (v : Int) : Prop := if ty.kind = .bool then v = 0 ∨ v = 1 else InRange (8 * ty.size) ty.isUnsigned v

/-- A register carries a value of a type: in its low half, or in all of it for 64 bits. -/
def Carries (ty : Ty) (v : Int) (x : BitVec 64) : Prop :=
  if ty.size = 8 then x = BitVec.ofInt 64 v else x.setWidth 32 = BitVec.ofInt 32 v

instance (ty : Ty) (v : Int) (x : BitVec 64) : Decidable (Carries ty v x) :=
  inferInstanceAs (Decidable (if ty.size = 8 then x = BitVec.ofInt 64 v else x.setWidth 32 = BitVec.ofInt 32 v))

/-- `_Bool` is unsigned, whatever its flag. -/
def Member.unsigned (mem : Member) : Bool := mem.ty.isUnsigned || mem.ty.kind == .bool

/-- A value cut to the width of the field. -/
def fieldValue (mem : Member) (v : Int) : Int := wrap mem.bitWidth mem.unsigned v

/-- What the assignment of `v` has done to the unit at `a`, to the value of the expression, and to later reads. -/
structure Assigned (mem : Member) (v : Int) (a : BitVec 64) (c c' : Cpu) : Prop where
  stored : (c'.mach.mem.get a.toNat mem.ty.size).extractLsb' mem.bitOffset mem.bitWidth = BitVec.ofInt mem.bitWidth v
  kept : ∀ i, ¬ (mem.bitOffset ≤ i ∧ i < mem.bitOffset + mem.bitWidth) →
    (c'.mach.mem.get a.toNat mem.ty.size).getLsbD i = (c.mach.mem.get a.toNat mem.ty.size).getLsbD i
  outside : ∀ b : Int, ¬ (a.toNat ≤ b ∧ b < a.toNat + mem.ty.size) → c'.mach.mem b = c.mach.mem b
  value : Carries mem.ty (fieldValue mem v) (c'.mach.reg 0)
  read : ∀ d : Cpu, d.mach.mem = c'.mach.mem → d.mach.reg 0 = a →
    ∃ r, execs (memberCode mem) d = some r ∧ Carries mem.ty (fieldValue mem v) (r.mach.reg 0)

/-- The assignment of `v`, which `x0` carries, to the field at the address on the stack. -/
def AssignsRight (mem : Member) (v : Int) (a : BitVec 64) (c : Cpu) : Prop :=
  ∃ code c', assignCode mem = some code ∧ execs code c = some c' ∧ Assigned mem v a c c'

section

variable {mem : Member} {v : Int} {a : BitVec 64} {c d : Cpu}

theorem getLsbD_signed {n i : Nat} (x : BitVec 64) (hi : i < n) (hn : n ≤ 64) :
    ((x.setWidth n).signExtend 64).getLsbD i = x.getLsbD i := by
  rw [getLsbD_signExtend, getLsbD_setWidth]
  simp [hi, show i < 64 by omega]

theorem LoadOp.getLsbD_extend (op : LoadOp) (x : BitVec 64) {i : Nat} (hi : i < 8 * op.size) :
    (op.extend x).getLsbD i = x.getLsbD i := by
  cases op with
  | ldrb => rfl
  | ldrh => rfl
  | ldrW => rfl
  | ldrX => rfl
  | ldrsb => exact getLsbD_signed x hi (by decide)
  | ldrsh => exact getLsbD_signed x hi (by decide)
  | ldrsw => exact getLsbD_signed x hi (by decide)

theorem isInteger_ne {ty : Ty} (h : ty.isInteger = true) :
    ¬ (ty.kind = .array ∨ ty.kind = .struct ∨ ty.kind = .union ∨ ty.kind = .func) ∧ ty.kind ≠ .float ∧ ty.kind ≠ .double := by
  obtain ⟨kind, size, u⟩ := ty
  cases kind <;> simp_all [Ty.isInteger]

theorem load_unit (h : IsBitField mem) : ∃ op : LoadOp, load mem.ty = [.load op 0 0 0] ∧ op.size = mem.ty.size := by
  obtain ⟨hkind, hfloat, hdouble⟩ := isInteger_ne h.integer
  unfold load
  rw [if_neg hkind, if_neg hfloat, if_neg hdouble]
  rcases h.size with hs | hs | hs | hs
  · rw [if_pos hs, hs]
    cases mem.ty.isUnsigned
    · exact ⟨.ldrsb, rfl, rfl⟩
    · exact ⟨.ldrb, rfl, rfl⟩
  · rw [if_neg (by omega), if_pos hs, hs]
    cases mem.ty.isUnsigned
    · exact ⟨.ldrsh, rfl, rfl⟩
    · exact ⟨.ldrh, rfl, rfl⟩
  · rw [if_neg (by omega), if_neg (by omega), if_pos hs, hs]
    cases mem.ty.isUnsigned
    · exact ⟨.ldrsw, rfl, rfl⟩
    · exact ⟨.ldrW, rfl, rfl⟩
  · rw [if_neg (by omega), if_neg (by omega), if_neg (by omega), hs]
    exact ⟨.ldrX, rfl, rfl⟩

theorem store_unit (h : IsBitField mem) : ∃ op : StoreOp, storeLines mem.ty = [.store op 0 1 0] ∧ op.size = mem.ty.size := by
  obtain ⟨hkind, hfloat, hdouble⟩ := isInteger_ne h.integer
  have hagg : ¬ (mem.ty.kind = .struct ∨ mem.ty.kind = .union) := fun hor =>
    hkind (hor.elim (fun h => .inr (.inl h)) fun h => .inr (.inr (.inl h)))
  unfold storeLines
  rw [if_neg hfloat, if_neg hdouble, if_neg hagg]
  rcases h.size with hs | hs | hs | hs
  · rw [if_pos hs, hs]
    exact ⟨.strb, rfl, rfl⟩
  · rw [if_neg (by omega), if_pos hs, hs]
    exact ⟨.strh, rfl, rfl⟩
  · rw [if_neg (by omega), if_neg (by omega), if_pos hs, hs]
    exact ⟨.strW, rfl, rfl⟩
  · rw [if_neg (by omega), if_neg (by omega), if_neg (by omega), hs]
    exact ⟨.strX, rfl, rfl⟩

theorem exec_load_unit (h : IsBitField mem) (d : Cpu) : ∃ y, execs (load mem.ty) d = some (d.set 0 y) ∧
    ∀ i < 8 * mem.ty.size, y.getLsbD i = (d.mach.mem.get (d.mach.reg 0).toNat mem.ty.size).getLsbD i := by
  obtain ⟨op, hload, hsize⟩ := load_unit h
  refine ⟨op.extend (d.mach.mem.get (d.mach.reg 0).toNat op.size), ?_, fun i hi => ?_⟩
  · rw [hload]
    refine (execs_cons _ _ _).trans ?_
    rw [exec_set rfl rfl, show d.mach.reg 0 + BitVec.ofInt 64 0 = d.mach.reg 0 from BitVec.add_zero _]
    rfl
  · rw [← hsize] at hi ⊢
    exact LoadOp.getLsbD_extend op _ hi

theorem ofInt_ones (n : Nat) : BitVec.ofInt 64 (2 ^ n - 1) = BitVec.ofNat 64 (2 ^ n - 1) := by
  have hcast : (2 : Int) ^ n - 1 = ((2 ^ n - 1 : Nat) : Int) := by
    have hpos := Nat.two_pow_pos n
    push_cast [Nat.cast_sub hpos]
    rfl
  rw [hcast, ofInt_natCast]

theorem ofInt_shifted (z : Int) (k : Nat) : BitVec.ofInt 64 (z * 2 ^ k) = BitVec.ofInt 64 z <<< k := by
  have hpow : BitVec.ofInt 64 (2 ^ k) = BitVec.twoPow 64 k := by
    have hcast : (2 : Int) ^ k = ((2 ^ k : Nat) : Int) := by push_cast; rfl
    rw [hcast, ofInt_natCast]
    exact eq_of_toNat_eq (by simp)
  rw [ofInt_mul, shiftLeft_eq_mul_twoPow, hpow]

/-- The unit with the field replaced. -/
def merged (mem : Member) (x y : BitVec 64) : BitVec 64 :=
  y &&& ~~~(BitVec.ofNat 64 (2 ^ mem.bitWidth - 1) <<< mem.bitOffset) |||
    (x &&& BitVec.ofNat 64 (2 ^ mem.bitWidth - 1)) <<< mem.bitOffset

/-- **What the code does**: it stores the unit with the field replaced, and leaves the right side in `x0`. -/
theorem exec_assignTail (h : IsBitField mem) (hstack : c.mach.mem.Holds c.mach.sp 8 a) :
    ∃ c' y, execs (assignTail mem) c = some c' ∧ c'.mach.reg 0 = c.mach.reg 0 ∧
      c'.mach.mem = c.mach.mem.put a.toNat mem.ty.size (merged mem (c.mach.reg 0) y) ∧
        ∀ i < 8 * mem.ty.size, y.getLsbD i = (c.mach.mem.get a.toNat mem.ty.size).getLsbD i := by
  have haddr : c.mach.mem.get c.mach.sp 8 = a := by
    rw [hstack.get (le_refl 8), setWidth_eq, setWidth_eq]
  generalize hx : c.mach.reg 0 = x
  -- the right side is kept in `x8` and its field in `x2`
  generalize hm : BitVec.ofNat 64 (2 ^ mem.bitWidth - 1) = m
  have hoff : mem.bitOffset < 64 := by
    have hfits := h.fits
    have hpos := h.pos
    rcases h.size with hs | hs | hs | hs <;> omega
  let c1 := (((c.set 8 x).set 2 (x &&& m)).set 2 ((x &&& m) <<< mem.bitOffset)).set 0 a
  have hfirst : execs [.mov .x 8 0, .aluImm .and .x 2 0 (2 ^ mem.bitWidth - 1), .aluImm .lsl .x 2 2 mem.bitOffset, .loadSp 0] c =
      some c1 := by
    simp [execs_cons, exec, Insn.dest, Insn.result, Cpu.reg_set, Width.cut, AluOp.run, AluOp.apply, hx, ofInt_ones, hm, haddr,
      Nat.mod_eq_of_lt hoff, c1]
  obtain ⟨y, hy, hbits⟩ := exec_load_unit h c1
  let z := y &&& ~~~(m <<< mem.bitOffset) ||| (x &&& m) <<< mem.bitOffset
  let c2 := (((c1.set 0 y).set 3 (m <<< mem.bitOffset)).set 0 (y &&& ~~~(m <<< mem.bitOffset))).set 0 z
  have hsecond : execs [.ldrLit 3 ((2 ^ mem.bitWidth - 1) * 2 ^ mem.bitOffset), .alu .bic .x 0 0 3, .alu .orr .x 0 0 2]
      (c1.set 0 y) = some c2 := by
    simp [execs_cons, exec, Insn.dest, Insn.result, Cpu.reg_set, AluOp.run, AluOp.apply, ofInt_shifted, ofInt_ones, hm, c1, c2, z]
  obtain ⟨op, hstore, hsize⟩ := store_unit h
  have hlast : ∃ c', execs (.pop 1 :: ([.store op 0 1 0] ++ [.mov .x 0 8])) c2 = some c' ∧ c'.mach.reg 0 = x ∧
      c'.mach.mem = c.mach.mem.put a.toNat mem.ty.size z := by
    refine ⟨_, rfl, ?_, ?_⟩
    · simp [Cpu.reg_set, Width.cut, c1, c2]
    · simp [Cpu.reg_set, haddr, hsize, c1, c2]
  obtain ⟨c', hc', hreg, hmem⟩ := hlast
  refine ⟨c', y, ?_, hreg, ?_, ?_⟩
  · have hcode : assignTail mem = [.mov .x 8 0, .aluImm .and .x 2 0 (2 ^ mem.bitWidth - 1),
        .aluImm .lsl .x 2 2 mem.bitOffset, .loadSp 0] ++ (load mem.ty ++
          ([.ldrLit 3 ((2 ^ mem.bitWidth - 1) * 2 ^ mem.bitOffset), .alu .bic .x 0 0 3, .alu .orr .x 0 0 2] ++
            .pop 1 :: ([.store op 0 1 0] ++ [.mov .x 0 8]))) := by
      simp [assignTail, mergeBits, hstore]
    rw [hcode, execs_append, hfirst, Option.bind_some, execs_append, hy, Option.bind_some, execs_append, hsecond]
    exact hc'
  · rw [hmem]
    simp only [merged, hm, z]
  · intro i hi
    rw [hbits i hi]
    simp [c1, Cpu.reg_set]

theorem getLsbD_stored {m : Mem} {x y : BitVec 64} (h : IsBitField mem)
    (hy : ∀ i < 8 * mem.ty.size, y.getLsbD i = (m.get a.toNat mem.ty.size).getLsbD i) (i : Nat) :
    ((m.put a.toNat mem.ty.size (merged mem x y)).get a.toNat mem.ty.size).getLsbD i =
      if mem.bitOffset ≤ i ∧ i < mem.bitOffset + mem.bitWidth then x.getLsbD (i - mem.bitOffset)
      else (m.get a.toNat mem.ty.size).getLsbD i := by
  have hfits := h.fits
  have hsize : mem.ty.size ≤ 8 := by
    rcases h.size with hs | hs | hs | hs <;> omega
  rw [(m.holds_put a.toNat mem.ty.size (merged mem x y)).get hsize, getLsbD_setWidth, getLsbD_setWidth]
  rcases lt_or_ge i (8 * mem.ty.size) with hlt | hge
  · unfold merged
    rw [getLsbD_put (by omega) (by omega), hy i hlt]
    simp [hlt, show i < 64 by omega]
  · rw [if_neg (by omega), Mem.getLsbD_get i hsize]
    simp [not_lt.2 hge]

theorem Carries.low {n : Nat} {x : BitVec 64} (h : Carries mem.ty v x) (hn : n ≤ if mem.ty.size = 8 then 64 else 32) :
    x.setWidth n = BitVec.ofInt n v := by
  unfold Carries at h
  split at h
  · rename_i hs
    rw [if_pos hs] at hn
    rw [h, setWidth_ofInt hn]
  · rename_i hs
    rw [if_neg hs] at hn
    rw [← setWidth_setWidth_of_le x hn, h, setWidth_ofInt hn]

theorem carries_ofInt (ty : Ty) (k v : Int) : Carries ty v (BitVec.ofInt 64 k) ↔
    BitVec.ofInt (if ty.size = 8 then 64 else 32) k = BitVec.ofInt (if ty.size = 8 then 64 else 32) v := by
  unfold Carries
  split
  · rename_i hs
    rw [if_pos hs]
  · rename_i hs
    rw [if_neg hs, setWidth_ofInt (by decide)]

theorem width_le (h : IsBitField mem) : mem.bitWidth ≤ 8 * mem.ty.size ∧
    8 * mem.ty.size ≤ if mem.ty.size = 8 then 64 else 32 := by
  have hfits := h.fits
  refine ⟨by omega, ?_⟩
  rcases h.size with hs | hs | hs | hs <;> rw [hs] <;> decide

theorem carries_fieldValue {x : BitVec 64} (h : IsBitField mem) (hfit : FitsTy mem.ty v) (hx : Carries mem.ty v x) :
    Carries mem.ty (fieldValue mem v) x ↔ fieldValue mem v = v := by
  obtain ⟨hw, hr⟩ := width_le h
  constructor
  · intro hfield
    have hsame := (hfield.low (le_refl _)).symm.trans (hx.low (le_refl _))
    rw [ofInt_eq_iff] at hsame
    have hrange : InRange mem.bitWidth mem.unsigned (fieldValue mem v) := inRange_wrap _ _ _
    refine (hrange.mono (hw.trans hr)).unique ?_ hsame
    unfold FitsTy at hfit
    split at hfit
    · rename_i hbool
      have hbit : InRange 1 true v := ⟨by omega, by omega⟩
      have hone : 1 ≤ 8 * mem.ty.size := le_trans h.pos hw
      have hu : mem.unsigned = true := by simp [Member.unsigned, hbool]
      rw [hu]
      exact hbit.mono (hone.trans hr)
    rename_i hbool
    have hu : mem.unsigned = mem.ty.isUnsigned := by simp [Member.unsigned, hbool]
    rw [hu]
    exact hfit.mono hr
  · intro heq
    rw [heq]
    exact hx

/-- **What a read yields**: the field extended by the flag of the type. -/
theorem exec_member (h : IsBitField mem) (hw : mem.bitWidth < 64) (hd : d.mach.reg 0 = a)
    (hfield : (d.mach.mem.get a.toNat mem.ty.size).extractLsb' mem.bitOffset mem.bitWidth = BitVec.ofInt mem.bitWidth v) :
    ∃ r, execs (memberCode mem) d = some r ∧ r.mach.reg 0 = BitVec.ofInt 64 (wrap mem.bitWidth mem.ty.isUnsigned v) := by
  obtain ⟨y, hy, hbits⟩ := exec_load_unit h d
  rw [hd] at hbits
  have hfits := h.fits
  have hpos := h.pos
  have hsize : mem.ty.size ≤ 8 := by
    rcases h.size with hs | hs | hs | hs <;> omega
  have hextract : y.extractLsb' mem.bitOffset mem.bitWidth = BitVec.ofInt mem.bitWidth v := by
    rw [← hfield]
    refine eq_of_getLsbD_eq fun i hi => ?_
    rw [getLsbD_extractLsb', getLsbD_extractLsb', hbits _ (by omega)]
  have hleft : (BitVec.ofInt 64 (64 - mem.bitWidth - mem.bitOffset)).toNat % 64 = 64 - mem.bitWidth - mem.bitOffset := by
    have hcast : (64 : Int) - mem.bitWidth - mem.bitOffset = ((64 - mem.bitWidth - mem.bitOffset : Nat) : Int) := by omega
    rw [hcast, ofInt_natCast, toNat_ofNat]
    omega
  have hright : (BitVec.ofInt 64 (64 - mem.bitWidth)).toNat % 64 = 64 - mem.bitWidth := by
    have hcast : (64 : Int) - mem.bitWidth = ((64 - mem.bitWidth : Nat) : Int) := by omega
    rw [hcast, ofInt_natCast, toNat_ofNat]
    omega
  let left := y <<< (64 - mem.bitWidth - mem.bitOffset)
  have hshift : execs (loadBits mem) (d.set 0 y) = some (((d.set 0 y).set 0 left).set 0
      (if mem.ty.isUnsigned then left >>> (64 - mem.bitWidth) else left.sshiftRight (64 - mem.bitWidth))) := by
    unfold loadBits
    rw [if_pos h.flag]
    cases mem.ty.isUnsigned <;>
      simp [execs_cons, exec, Insn.dest, Insn.result, Cpu.reg_set, AluOp.run, AluOp.apply, hleft, hright, left, -toNat_ofInt]
  have hcode : execs (memberCode mem) d = (execs (load mem.ty) d).bind (execs (loadBits mem)) := execs_append _ _ d
  rw [hy, Option.bind_some, hshift] at hcode
  refine ⟨_, hcode, ?_⟩
  rw [Cc.reg_set]
  cases mem.ty.isUnsigned with
  | true => rw [if_pos rfl, shl_ushr (by omega), hextract, zeroExtend_ofInt (by omega)]
  | false => rw [if_neg (by decide), shl_sshr (by omega) (by omega), hextract, signExtend_ofInt]

/-- A read is right, but for a one in a `_Bool` of one bit, which reads as -1. -/
theorem carries_read (h : IsBitField mem) (hfit : FitsTy mem.ty v) (hvalue : fieldValue mem v = v) :
    Carries mem.ty (fieldValue mem v) (BitVec.ofInt 64 (wrap mem.bitWidth mem.ty.isUnsigned v)) ↔
      ¬ (mem.ty.kind = .bool ∧ mem.bitWidth = 1 ∧ v = 1) := by
  by_cases hbool : mem.ty.kind = .bool
  · have hsign := h.bool hbool
    have hpos := h.pos
    unfold FitsTy at hfit
    rw [if_pos hbool] at hfit
    rw [hvalue, hsign]
    rcases hfit with rfl | rfl
    · have hzero : wrap mem.bitWidth false 0 = 0 := by
        exact Int.zero_bmod
      rw [hzero]
      exact iff_of_true ((carries_ofInt _ _ _).2 rfl) fun hone => absurd hone.2.2 (by decide)
    rcases lt_or_eq_of_le hpos with hlt | heq
    · have hone : wrap mem.bitWidth false 1 = 1 := by
        refine wrap_of_inRange (InRange.mono ?_ hlt)
        exact ⟨by decide, by decide⟩
      rw [hone]
      exact iff_of_true ((carries_ofInt _ _ _).2 rfl) fun hbit => by omega
    have hminus : wrap mem.bitWidth false 1 = -1 := by
      rw [← heq]
      decide
    rw [hminus]
    refine iff_of_false (fun hc => ?_) (not_not.2 ⟨hbool, heq.symm, rfl⟩)
    have hbits := (carries_ofInt _ _ _).1 hc
    by_cases hs : mem.ty.size = 8
    · rw [if_pos hs] at hbits
      exact absurd hbits (by decide)
    · rw [if_neg hs] at hbits
      exact absurd hbits (by decide)
  have hu : mem.unsigned = mem.ty.isUnsigned := by simp [Member.unsigned, hbool]
  refine iff_of_true ((carries_ofInt _ _ _).2 ?_) fun hb => hbool hb.1
  unfold fieldValue
  rw [hu]

/-- An assignment that leaves the right value in `x0` was of a value that fits the field. -/
theorem AssignsRight.holds (h : IsBitField mem) (hfit : FitsTy mem.ty v) (hx : Carries mem.ty v (c.mach.reg 0))
    (hstack : c.mach.mem.Holds c.mach.sp 8 a) (hright : AssignsRight mem v a c) : fieldValue mem v = v := by
  obtain ⟨code, c1, hcode, hexec, hdone⟩ := hright
  obtain ⟨c', y, hrun, hreg, -⟩ := exec_assignTail h hstack
  unfold assignCode at hcode
  split at hcode
  · obtain rfl := some.inj hcode
    obtain rfl := some.inj (hrun.symm.trans hexec)
    have hvalue := hdone.value
    rw [hreg] at hvalue
    exact (carries_fieldValue h hfit hx).1 hvalue
  · cases hcode

/-- **An assignment to a bit-field is right exactly when the field can hold the value, which is not a one in a `_Bool` of
one bit, and the field is narrower than 64 bits.** What is stored is right for every value. -/
theorem assignsRight_iff (h : IsBitField mem) (hfit : FitsTy mem.ty v) (hx : Carries mem.ty v (c.mach.reg 0))
    (hstack : c.mach.mem.Holds c.mach.sp 8 a) : AssignsRight mem v a c ↔
      mem.bitWidth < 64 ∧ fieldValue mem v = v ∧ ¬ (mem.ty.kind = .bool ∧ mem.bitWidth = 1 ∧ v = 1) := by
  obtain ⟨c', y, hrun, hreg, hmem, hbits⟩ := exec_assignTail h hstack
  have hget := getLsbD_stored (x := c.mach.reg 0) h hbits
  rw [← hmem] at hget
  have hwidth := width_le h
  -- the bits of the field are those of the right side
  have hstored : (c'.mach.mem.get a.toNat mem.ty.size).extractLsb' mem.bitOffset mem.bitWidth = BitVec.ofInt mem.bitWidth v := by
    rw [← hx.low (hwidth.1.trans hwidth.2)]
    refine eq_of_getLsbD_eq fun i hi => ?_
    rw [getLsbD_extractLsb', hget, if_pos (by omega), getLsbD_setWidth, Nat.add_sub_cancel_left]
  constructor
  · intro hright
    have hsame := hright.holds h hfit hx hstack
    obtain ⟨code, c1, hcode, hexec, hright⟩ := hright
    unfold assignCode at hcode
    split at hcode
    · rename_i hlt
      obtain rfl := some.inj hcode
      obtain rfl := some.inj (hrun.symm.trans hexec)
      obtain ⟨r, hr, hcarry⟩ := hright.read (c'.set 0 a) rfl (Cc.reg_set _ _)
      obtain ⟨r', hr', hvalue'⟩ := exec_member h hlt (Cc.reg_set c' a) hstored
      obtain rfl := some.inj (hr.symm.trans hr')
      rw [hvalue'] at hcarry
      exact ⟨hlt, hsame, (carries_read h hfit hsame).1 hcarry⟩
    · cases hcode
  rintro ⟨hlt, hsame, hbool⟩
  refine ⟨assignTail mem, c', if_pos hlt, hrun, hstored, fun i hi => ?_, fun b hb => ?_, ?_, fun d hd ha => ?_⟩
  · rw [hget, if_neg hi]
  · rw [hmem]
    exact Mem.put_of_not hb
  · rw [hreg]
    exact (carries_fieldValue h hfit hx).2 hsame
  rw [← hd] at hstored
  obtain ⟨r, hr, hvalue⟩ := exec_member h hlt ha hstored
  refine ⟨r, hr, ?_⟩
  rw [hvalue]
  exact (carries_read h hfit hsame).2 hbool

/-- `unsigned b : 3`, the first field of its unit. -/
def threeBits : Member := ⟨⟨.int, 4, true⟩, 0, true, 0, 3⟩

/-- A machine with the address 64 on the stack and a value in `x0`. -/
def assignCpu (x : BitVec 64) : Cpu :=
  ⟨⟨0, 0, fun _ => x, fun _ => 0, Mem.put (fun _ => 0) 0 8 64⟩, ⟨false, false, false, false⟩⟩

theorem threeBits_field : IsBitField threeBits :=
  ⟨rfl, rfl, .inr (.inr (.inl rfl)), nofun, by decide, by decide⟩

/-- After `s.b = 5` the field holds 5. -/
theorem assign_five : AssignsRight threeBits 5 64 (assignCpu 5) :=
  (assignsRight_iff threeBits_field ⟨by decide, by decide⟩ (by decide) (Mem.holds_put _ _ _ _)).2
    ⟨by decide, by decide, by decide⟩

/-- The value of `s.b = 9` is 9, and the field holds 1. -/
theorem assign_nine : ¬ ∀ (mem : Member) (v : Int) (a : BitVec 64) (c : Cpu), IsBitField mem → FitsTy mem.ty v →
    Carries mem.ty v (c.mach.reg 0) → c.mach.mem.Holds c.mach.sp 8 a → AssignsRight mem v a c := by
  intro hall
  have hfit : FitsTy threeBits.ty 9 := ⟨by decide, by decide⟩
  have hx : Carries threeBits.ty 9 ((assignCpu 9).mach.reg 0) := by decide
  have hstack : (assignCpu 9).mach.mem.Holds (assignCpu 9).mach.sp 8 64 := Mem.holds_put _ _ _ _
  have hsame := (hall threeBits 9 64 (assignCpu 9) threeBits_field hfit hx hstack).holds threeBits_field hfit hx hstack
  exact absurd hsame (by decide)

end

end Slopix.Cc
