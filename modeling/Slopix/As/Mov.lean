import Slopix.As.ElfWrite
import Slopix.As.LogicalImm

/-!
# Moving an immediate

The sequence that `mov` is assembled to: one `movz`, a `movn` for a small negative number, or `movz` and up to three
`movk`. The chunks of the value decide which one it is. The words are decoded and executed again, so that what is
proved is about the registers behind them.
-/

namespace Slopix.As

open List

/-! ## The assembler -/

/-- A register as `read_register` makes it: its number and width, by its type. -/
inductive Register
  | gp (num : Fin 31) (wide : Bool)
  | fp (num : Fin 32) (wide : Bool)
  | sp
  | zr (wide : Bool)
  deriving DecidableEq, Repr

namespace Register

/-- The number of a register in an instruction; the stack pointer and the zero register share 31. -/
def regNum : Register → BitVec 32
  | .gp num _ => BitVec.ofNat 32 num
  | .fp num _ => BitVec.ofNat 32 num
  | .sp => 31
  | .zr _ => 31

/-- `sf`, from `reg_width`. -/
def sf : Register → Bool
  | .gp _ wide => wide
  | .fp _ wide => wide
  | .sp => true
  | .zr wide => wide

/-- `encode_gpr`: a floating register has none. -/
def encodeGpr : Register → BitVec 32
  | .fp _ _ => -1
  | rd => rd.regNum

end Register

/-- The token behind the hash: a number, or the name of a symbol. -/
inductive Operand
  | number (val : BitVec 64)
  | ident (str : Name)
  deriving DecidableEq, Repr

/-- `val` of the token; that of a name was never set. -/
def Operand.val : Operand → BitVec 64
  | .number val => val
  | .ident _ => 0

/-- `symtab_lookup`: the first symbol of the name. -/
def symtabLookup (symbols : List Symbol) (name : Name) : Option Symbol := symbols.find? fun sym => sym.name == name

/-- The immediate; `none` where the symbol is not defined. -/
def Operand.imm (symbols : List Symbol) : Operand → Option (BitVec 64)
  | .number val => some val
  | .ident str => (symtabLookup symbols str).bind fun sym => if sym.defined then some (BitVec.ofNat 64 sym.value) else none

/-- The word of a wide move, from the bits of its operation. -/
def encodeMove (base rd imm16 : BitVec 32) (hw : Nat) : BitVec 32 :=
  base ||| BitVec.ofNat 32 hw <<< 21 ||| (imm16 &&& 0xFFFF#32) <<< 5 ||| rd

/-- `encode_movz`. -/
def encodeMovz (sf : Bool) : BitVec 32 → BitVec 32 → Nat → BitVec 32 := encodeMove (if sf then 0xD2800000 else 0x52800000)

/-- `encode_movk`. -/
def encodeMovk (sf : Bool) : BitVec 32 → BitVec 32 → Nat → BitVec 32 := encodeMove (if sf then 0xF2800000 else 0x72800000)

/-- `encode_movn`. -/
def encodeMovn (sf : Bool) : BitVec 32 → BitVec 32 → Nat → BitVec 32 := encodeMove (if sf then 0x92800000 else 0x12800000)

/-- `imm16` for the chunk at `16 * hw`. -/
def chunk (val : BitVec 64) (hw : Nat) : BitVec 16 := (val >>> (16 * hw)).setWidth 16

/-- The step for a chunk above the first one. -/
def movkChunk (sf : Bool) (rd : BitVec 32) (val : BitVec 64) (hw : Nat) : List (BitVec 32) :=
  if val >>> (16 * hw) ≠ 0 then
    if chunk val hw ≠ 0 then [encodeMovk sf rd ((chunk val hw).setWidth 32) hw] else []
  else []

/-- A number that one `movn` gives. -/
def SmallNegative (t : Operand) : Prop := t.val.toInt < 0 ∧ t.val.toInt ≥ -65536

instance (t : Operand) : Decidable (SmallNegative t) := inferInstanceAs (Decidable (_ ∧ _))

/-- What `mov` with an immediate becomes: one move if it can be, else one for each part that is not zero. -/
def movWords (sf : Bool) (rd : BitVec 32) (t : Operand) (val : BitVec 64) : List (BitVec 32) :=
  if val &&& 0xFFFF#64 = val then [encodeMovz sf rd ((chunk val 0).setWidth 32) 0]
  else if val &&& 0xFFFF0000#64 = val then [encodeMovz sf rd ((chunk val 1).setWidth 32) 1]
  else if val &&& 0xFFFF00000000#64 = val then [encodeMovz sf rd ((chunk val 2).setWidth 32) 2]
  else if val &&& 0xFFFF000000000000#64 = val then [encodeMovz sf rd ((chunk val 3).setWidth 32) 3]
  else if SmallNegative t then [encodeMovn sf rd ((~~~t.val).setWidth 32) 0]
  else
    encodeMovz sf rd ((chunk val 0).setWidth 32) 0 ::
      (movkChunk sf rd val 1 ++ movkChunk sf rd val 2 ++ movkChunk sf rd val 3)

/-- `mov` with an immediate in `handle_instruction`: the words, or `none` for an error. -/
def movImm (symbols : List Symbol) (rd : Register) (t : Operand) : Option (List (BitVec 32)) :=
  (t.imm symbols).map fun val => movWords rd.sf (if rd = .sp then 31 else rd.encodeGpr) t val

/-! ## The processor -/

/-- The three wide moves. -/
inductive MoveOp
  | movn
  | movz
  | movk
  deriving DecidableEq, Repr

/-- A move of the class "move wide (immediate)". -/
structure MoveInsn where
  op : MoveOp
  sf : Bool
  hw : BitVec 2
  imm16 : BitVec 16
  rd : BitVec 5
  deriving DecidableEq, Repr

/-- The operation that two bits of the instruction name. -/
def moveOp (opc : BitVec 2) : Option MoveOp :=
  if opc = 0 then some .movn else if opc = 2 then some .movz else if opc = 3 then some .movk else none

/-- The moves among the words. A shift by 32 or more is not allocated for a 32-bit register. -/
def decodeMove (w : BitVec 32) : Option MoveInsn :=
  if w.extractLsb' 23 6 = 0b100101#6 ∧ (w.getLsbD 31 = true ∨ w.getLsbD 22 = false) then
    (moveOp (w.extractLsb' 29 2)).map fun op =>
      ⟨op, w.getLsbD 31, w.extractLsb' 21 2, w.extractLsb' 5 16, w.extractLsb' 0 5⟩
  else none

/-- The registers. -/
structure Regs where
  x : Fin 31 → BitVec 64
  sp : BitVec 64
  d : Fin 32 → BitVec 64

/-- A general register by its number in an instruction; 31 is the zero register. -/
def Regs.get (s : Regs) (n : BitVec 5) : BitVec 64 := if h : n.toNat < 31 then s.x ⟨n.toNat, h⟩ else 0

/-- Write register `n`. -/
def Regs.set (s : Regs) (n : BitVec 5) (v : BitVec 64) : Regs := { s with x := fun i => if i.val = n.toNat then v else s.x i }

/-- What a move makes of its register. -/
def MoveInsn.result (i : MoveInsn) (old : BitVec 64) : BitVec 64 :=
  let imm := i.imm16.setWidth 64 <<< (16 * i.hw.toNat)
  let v := match i.op with
    | .movn => ~~~imm
    | .movz => imm
    | .movk => old &&& ~~~(0xFFFF#64 <<< (16 * i.hw.toNat)) ||| imm
  if i.sf then v else (v.setWidth 32).setWidth 64

/-- Execute a word; `none` where it is no valid move. -/
def stepMove (s : Regs) (w : BitVec 32) : Option Regs := (decodeMove w).map fun i => s.set i.rd (i.result (s.get i.rd))

/-- The words run one behind the other. -/
def runMoves (ws : List (BitVec 32)) (s : Regs) : Option Regs := ws.foldlM stepMove s

/-- What a register holds; the zero register holds 0. -/
def Regs.value (s : Regs) : Register → BitVec 64
  | .gp num _ => s.x num
  | .fp num _ => s.d num
  | .sp => s.sp
  | .zr _ => 0

/-- Every word is a move for the width of the register. -/
def ValidMoves (sf : Bool) (ws : List (BitVec 32)) : Prop := ∀ w ∈ ws, ∃ i, decodeMove w = some i ∧ i.sf = sf

/-- The words that are emitted are valid, and executing them leaves the register equal to the immediate. -/
def MovesRight (symbols : List Symbol) (rd : Register) (t : Operand) : Prop :=
  ∀ imm ws, t.imm symbols = some imm → movImm symbols rd t = some ws → ValidMoves rd.sf ws ∧
    ∀ s, ∃ s', runMoves ws s = some s' ∧ (s'.value rd).setWidth (regWidth rd.sf) = imm.setWidth (regWidth rd.sf)

example : movImm [] (.gp 0 true) (.number 0x12345678) = some [0xD28ACF00, 0xF2A24680] := by decide +kernel

/-! ## Words -/

section

/-- The fixed bits of the operation. -/
def MoveOp.base (sf : Bool) : MoveOp → BitVec 32
  | .movn => if sf then 0x92800000 else 0x12800000
  | .movz => if sf then 0xD2800000 else 0x52800000
  | .movk => if sf then 0xF2800000 else 0x72800000

theorem getLsbD_encodeMove {base imm16 : BitVec 32} {n : BitVec 5} {hw i : Nat} (hi : i < 32) :
    (encodeMove base (n.setWidth 32) imm16 hw).getLsbD i = (base.getLsbD i || (decide (21 ≤ i) && hw.testBit (i - 21)) ||
      (decide (5 ≤ i ∧ i < 21) && imm16.getLsbD (i - 5)) || n.getLsbD i) := by
  have hmask : (0xFFFF#32).getLsbD (i - 5) = decide (i - 5 < 16) := by
    rw [show 0xFFFF#32 = BitVec.ofNat 32 (2 ^ 16 - 1) from rfl, Lib.getLsbD_lowMask]
    simp [show i - 5 < 32 by omega]
  simp only [encodeMove, BitVec.getLsbD_or, BitVec.getLsbD_shiftLeft, BitVec.getLsbD_and, BitVec.getLsbD_setWidth,
    BitVec.getLsbD_ofNat, hmask, hi, decide_true, Bool.true_and]
  rcases lt_or_ge i 21 with h21 | h21
  · rcases lt_or_ge i 5 with h5 | h5
    · simp [h5, h21, not_le.2 h5, not_le.2 h21]
    · simp [h21, not_lt.2 h5, h5, not_le.2 h21, show i - 5 < 16 by omega]
  · simp [not_lt.2 h21, h21, show i - 21 < 32 by omega, show ¬ i - 5 < 16 by omega]

/-- **A word of the encoder is the move it was made from, unless its chunk is not one of the register's.** -/
theorem decode_encodeMove (op : MoveOp) (sf : Bool) (n : BitVec 5) (imm16 : BitVec 32) {hw : Nat} (hhw : hw < 4) :
    decodeMove (encodeMove (op.base sf) (n.setWidth 32) imm16 hw) =
      if sf = true ∨ hw < 2 then some ⟨op, sf, BitVec.ofNat 2 hw, imm16.setWidth 16, n⟩ else none := by
  have hbit := fun i hi => @getLsbD_encodeMove (op.base sf) imm16 n hw i hi
  generalize encodeMove (op.base sf) (n.setWidth 32) imm16 hw = w at *
  -- the base has no bits in the fields
  have hfields : ∀ i < 23, (op.base sf).getLsbD i = false := by cases op <;> cases sf <;> decide
  have hhigh : ∀ i, 23 ≤ i → i < 32 → w.getLsbD i = (op.base sf).getLsbD i := by
    intro i hi h32
    have hpow : 2 ^ 2 ≤ 2 ^ (i - 21) := Nat.pow_le_pow_right (by decide) (by omega)
    have hsmall : hw.testBit (i - 21) = false := Nat.testBit_lt_two_pow (hhw.trans_le hpow)
    simp [hbit i h32, hsmall, BitVec.getLsbD_of_ge n i (by omega), show ¬ i < 21 by omega]
  have hclass : w.extractLsb' 23 6 = 0b100101#6 := by
    refine (BitVec.eq_of_getLsbD_eq fun i hi => ?_ : w.extractLsb' 23 6 = (op.base sf).extractLsb' 23 6).trans
      (by cases op <;> cases sf <;> decide)
    simp [hi, hhigh (23 + i) (by omega) (by omega)]
  have hopc : moveOp (w.extractLsb' 29 2) = some op := by
    rw [(BitVec.eq_of_getLsbD_eq fun i hi => ?_ : w.extractLsb' 29 2 = (op.base sf).extractLsb' 29 2)]
    · cases op <;> cases sf <;> decide
    · simp [hi, hhigh (29 + i) (by omega) (by omega)]
  have hsf : w.getLsbD 31 = sf := by
    rw [hhigh 31 (by decide) (by decide)]
    cases op <;> cases sf <;> decide
  have hhwbits : w.extractLsb' 21 2 = BitVec.ofNat 2 hw := by
    refine BitVec.eq_of_getLsbD_eq fun i hi => ?_
    rw [BitVec.getLsbD_extractLsb', BitVec.getLsbD_ofNat, hbit (21 + i) (by omega), hfields (21 + i) (by omega),
      BitVec.getLsbD_of_ge n (21 + i) (by omega)]
    simp [hi]
  have himm : w.extractLsb' 5 16 = imm16.setWidth 16 := by
    refine BitVec.eq_of_getLsbD_eq fun i hi => ?_
    simp [hi, hbit (5 + i) (by omega), hfields (5 + i) (by omega), show 5 + i < 21 by omega, show ¬ 21 ≤ 5 + i by omega]
  have hrd : w.extractLsb' 0 5 = n := by
    refine BitVec.eq_of_getLsbD_eq fun i hi => ?_
    simp [hi, hbit i (by omega), hfields i (by omega), show ¬ 5 ≤ i by omega, show ¬ 21 ≤ i by omega]
  have h22 : w.getLsbD 22 = false ↔ hw < 2 := by
    rw [hbit 22 (by decide), hfields 22 (by decide), BitVec.getLsbD_of_ge n 22 (by decide),
      show decide (5 ≤ 22 ∧ 22 < 21) = false from rfl, Bool.false_and]
    obtain rfl | rfl | rfl | rfl : hw = 0 ∨ hw = 1 ∨ hw = 2 ∨ hw = 3 := by omega
    all_goals decide
  unfold decodeMove
  simp only [hclass, hopc, hsf, hhwbits, himm, hrd, h22, true_and, Option.map_some]

end

/-! ## Validity -/

/-- The value has no chunk that the register lacks, or one `movn` gives it. -/
def ChunksFit (sf : Bool) (t : Operand) (imm : BitVec 64) : Prop := sf = true ∨ imm.toNat < 2 ^ 32 ∨ SmallNegative t

section

variable {sf : Bool} {n : BitVec 5} {t : Operand} {val : BitVec 64}

theorem validMoves_one (op : MoveOp) (imm16 : BitVec 32) {hw : Nat} (hhw : hw < 4) :
    ValidMoves sf [encodeMove (op.base sf) (n.setWidth 32) imm16 hw] ↔ sf = true ∨ hw < 2 := by
  unfold ValidMoves
  rw [forall_mem_singleton, decode_encodeMove op sf n imm16 hhw]
  split
  · rename_i h
    exact ⟨fun _ => h, fun _ => ⟨_, rfl, rfl⟩⟩
  rename_i h
  constructor
  · rintro ⟨i, hnone, -⟩
    cases hnone
  · exact fun h' => absurd h' h

theorem validMoves_append {ws ws' : List (BitVec 32)} :
    ValidMoves sf (ws ++ ws') ↔ ValidMoves sf ws ∧ ValidMoves sf ws' := forall_mem_append

variable {hw : Nat}

theorem validMoves_movkChunk (hhw : hw < 4) :
    ValidMoves sf (movkChunk sf (n.setWidth 32) val hw) ↔ (sf = true ∨ hw < 2) ∨ chunk val hw = 0 := by
  have hnil : ValidMoves sf [] := forall_mem_nil _
  have hone := @validMoves_one sf n .movk ((chunk val hw).setWidth 32) hw hhw
  unfold movkChunk
  by_cases hrest : val >>> (16 * hw) = 0
  · have hzero : chunk val hw = 0 := by
      unfold chunk
      rw [hrest]
      rfl
    simp [hrest, hzero, hnil]
  rw [if_pos hrest]
  by_cases hzero : chunk val hw = 0
  · simp [hzero, hnil]
  · rw [if_pos hzero]
    exact hone.trans (or_iff_left hzero).symm

theorem getLsbD_chunk (hw i : Nat) : (chunk val hw).getLsbD i = (decide (i < 16) && val.getLsbD (16 * hw + i)) := by
  simp [chunk]

theorem lt_of_chunks (h2 : chunk val 2 = 0) (h3 : chunk val 3 = 0) : val.toNat < 2 ^ 32 := by
  refine Nat.lt_pow_two_of_testBit _ fun i hi => ?_
  have hbit : ∀ hw, chunk val hw = 0 → ∀ j < 16, val.getLsbD (16 * hw + j) = false := by
    intro hw hzero j hj
    have hchunk := @getLsbD_chunk val hw j
    rw [hzero] at hchunk
    simpa [hj] using hchunk.symm
  rcases lt_or_ge i 48 with h48 | h48
  · have hfalse := hbit 2 h2 (i - 32) (by omega)
    rwa [show 16 * 2 + (i - 32) = i by omega] at hfalse
  rcases lt_or_ge i 64 with h64 | h64
  · have hfalse := hbit 3 h3 (i - 48) (by omega)
    rwa [show 16 * 3 + (i - 48) = i by omega] at hfalse
  · exact BitVec.getLsbD_of_ge val i h64

theorem chunk_of_lt (h : val.toNat < 2 ^ 32) (hhw : 2 ≤ hw) : chunk val hw = 0 := by
  refine BitVec.eq_of_getLsbD_eq fun i hi => ?_
  rw [getLsbD_chunk, ← BitVec.testBit_toNat, Nat.testBit_lt_two_pow, Bool.and_false]
  · exact BitVec.getLsbD_zero.symm
  · exact h.trans_le (Nat.pow_le_pow_right (by decide) (by omega))

theorem SmallNegative.getLsbD (h : SmallNegative t) {i : Nat} (hi : 16 ≤ i) (h64 : i < 64) : t.val.getLsbD i = true := by
  obtain ⟨hneg, hge⟩ := h
  have hsmall : (~~~t.val).toNat < 2 ^ 16 := by
    rw [BitVec.toNat_not]
    rw [BitVec.toInt_eq_toNat_cond] at hneg hge
    split at hge <;> omega
  have hzero : (~~~t.val).getLsbD i = false := by
    exact Nat.testBit_lt_two_pow (hsmall.trans_le (Nat.pow_le_pow_right (by decide) hi))
  simpa [h64] using hzero

theorem mask_eq (h : val &&& (0xFFFF#64 <<< (16 * hw)) = val) {i : Nat} (hi : i < 16 * hw ∨ 16 * hw + 16 ≤ i) :
    val.getLsbD i = false := by
  rw [← h, BitVec.getLsbD_and, BitVec.getLsbD_shiftLeft, show 0xFFFF#64 = BitVec.ofNat 64 (2 ^ 16 - 1) from rfl,
    Lib.getLsbD_lowMask]
  rcases hi with hi | hi
  · simp [hi]
  · simp [show ¬ i - 16 * hw < 16 by omega]

/-- Only the sixteen bits of part `hw` are set. -/
def OneChunk (val : BitVec 64) (hw : Nat) : Prop := val &&& (0xFFFF#64 <<< (16 * hw)) = val

instance (val : BitVec 64) (hw : Nat) : Decidable (OneChunk val hw) := inferInstanceAs (Decidable (_ = _))

theorem movWords_eq (rd : BitVec 32) : movWords sf rd t val =
    if OneChunk val 0 then [encodeMove (MoveOp.movz.base sf) rd ((chunk val 0).setWidth 32) 0]
    else if OneChunk val 1 then [encodeMove (MoveOp.movz.base sf) rd ((chunk val 1).setWidth 32) 1]
    else if OneChunk val 2 then [encodeMove (MoveOp.movz.base sf) rd ((chunk val 2).setWidth 32) 2]
    else if OneChunk val 3 then [encodeMove (MoveOp.movz.base sf) rd ((chunk val 3).setWidth 32) 3]
    else if SmallNegative t then [encodeMove (MoveOp.movn.base sf) rd ((~~~t.val).setWidth 32) 0]
    else [encodeMove (MoveOp.movz.base sf) rd ((chunk val 0).setWidth 32) 0] ++
      (movkChunk sf rd val 1 ++ movkChunk sf rd val 2 ++ movkChunk sf rd val 3) := rfl

/-- One chunk is neither a small negative number nor, above the second, a value of 32 bits. -/
theorem OneChunk.not_fits (h : OneChunk val hw) (h2 : 2 ≤ hw) (hzero : ¬ OneChunk val 0)
    (hval : SmallNegative t → t.val = val) : ¬ (val.toNat < 2 ^ 32 ∨ SmallNegative t) := by
  rintro (hlt | hneg)
  · refine hzero (BitVec.eq_of_getLsbD_eq fun i hi => ?_)
    have hnone : val.getLsbD i = false := by
      rcases lt_or_ge i 32 with hi32 | hi32
      · exact mask_eq h (Or.inl (by omega))
      · rw [← BitVec.testBit_toNat]
        exact Nat.testBit_lt_two_pow (hlt.trans_le (Nat.pow_le_pow_right (by decide) hi32))
    rw [BitVec.getLsbD_and, hnone, Bool.false_and]
  · have hone := hneg.getLsbD (show 16 ≤ 16 by decide) (by decide)
    rw [hval hneg, mask_eq h (Or.inl (by omega))] at hone
    cases hone

/-- **Every emitted word is valid exactly when the chunks fit.** -/
theorem validMoves_iff (hval : SmallNegative t → t.val = val) :
    ValidMoves sf (movWords sf (n.setWidth 32) t val) ↔ ChunksFit sf t val := by
  have hlow : ∀ hw, hw < 2 → OneChunk val hw → ChunksFit sf t val := by
    intro hw h2 hone
    refine Or.inr (Or.inl (lt_of_chunks ?_ ?_))
    all_goals
      refine BitVec.eq_of_getLsbD_eq fun i hi => ?_
      rw [getLsbD_chunk, mask_eq hone (Or.inr (by omega)), Bool.and_false]
      exact BitVec.getLsbD_zero.symm
  have hhigh : ∀ hw, 2 ≤ hw → OneChunk val hw → ¬ OneChunk val 0 → (sf = true ∨ hw < 2 ↔ ChunksFit sf t val) := by
    intro hw h2 hone hzero
    have hnot := hone.not_fits h2 hzero hval
    unfold ChunksFit
    rw [or_iff_left hnot, or_iff_left (not_lt.2 h2)]
  rw [movWords_eq]
  split
  · rename_i hone
    rw [validMoves_one .movz _ (by decide)]
    exact ⟨fun _ => hlow 0 (by decide) hone, fun _ => Or.inr (by decide)⟩
  rename_i hzero
  split
  · rename_i hone
    rw [validMoves_one .movz _ (by decide)]
    exact ⟨fun _ => hlow 1 (by decide) hone, fun _ => Or.inr (by decide)⟩
  split
  · rename_i hone
    rw [validMoves_one .movz _ (by decide)]
    exact hhigh 2 (by decide) hone hzero
  split
  · rename_i hone
    rw [validMoves_one .movz _ (by decide)]
    exact hhigh 3 (by decide) hone hzero
  split
  · rename_i hneg
    rw [validMoves_one .movn _ (by decide)]
    exact ⟨fun _ => Or.inr (Or.inr hneg), fun _ => Or.inr (by decide)⟩
  rename_i hneg
  rw [validMoves_append, validMoves_append, validMoves_append, validMoves_one .movz _ (by decide),
    validMoves_movkChunk (by decide), validMoves_movkChunk (by decide), validMoves_movkChunk (by decide)]
  constructor
  · rintro ⟨-, ⟨-, h2⟩, h3⟩
    rcases h2 with (hsf | h2) | h2
    · exact Or.inl hsf
    · exact absurd h2 (by decide)
    rcases h3 with (hsf | h3) | h3
    · exact Or.inl hsf
    · exact absurd h3 (by decide)
    · exact Or.inr (Or.inl (lt_of_chunks h2 h3))
  rintro (hsf | hlt | hneg')
  · simp [hsf]
  · simp [chunk_of_lt hlt]
  · exact absurd hneg' hneg

end

/-! ## Execution -/

section

variable {sf : Bool} {n : BitVec 5} {t : Operand} {val old new : BitVec 64} {s s' : Regs} {w : BitVec 32} {ws ws' : List (BitVec 32)}

theorem get_set (s : Regs) (n : BitVec 5) (v : BitVec 64) (hn : n.toNat < 31) : (s.set n v).get n = v := by
  simp [Regs.get, Regs.set, hn]

theorem run_of_valid (h : ValidMoves sf ws) (s : Regs) : ∃ s', runMoves ws s = some s' := by
  induction ws generalizing s with
  | nil => exact ⟨s, rfl⟩
  | cons w ws ih =>
    obtain ⟨⟨i, hi, -⟩, hrest⟩ := forall_mem_cons.1 h
    obtain ⟨s', hs'⟩ := ih hrest (s.set i.rd (i.result (s.get i.rd)))
    refine ⟨s', ?_⟩
    simpa [runMoves, stepMove, hi] using hs'

/-- Executing the words takes the register from one value to another. -/
def Leaves (n : BitVec 5) (old : BitVec 64) (ws : List (BitVec 32)) (new : BitVec 64) : Prop :=
  ∀ s s', runMoves ws s = some s' → s.get n = old → s'.get n = new

theorem Leaves.append {mid : BitVec 64} (h : Leaves n old ws mid) (h' : Leaves n mid ws' new) : Leaves n old (ws ++ ws') new := by
  intro s s' hrun hold
  unfold runMoves at hrun
  rw [foldlM_append] at hrun
  obtain ⟨m, hm, hrun⟩ := Option.bind_eq_some_iff.1 hrun
  exact h' m s' hrun (h s m hm hold)

variable {hw : Nat}

theorem leaves_one (hn : n.toNat < 31) (op : MoveOp) (imm16 : BitVec 32) (hhw : hw < 4)
    (h : sf = true ∨ hw < 2 → MoveInsn.result ⟨op, sf, BitVec.ofNat 2 hw, imm16.setWidth 16, n⟩ old = new) :
    Leaves n old [encodeMove (op.base sf) (n.setWidth 32) imm16 hw] new := by
  intro s s' hrun hold
  have hstep : stepMove s (encodeMove (op.base sf) (n.setWidth 32) imm16 hw) = some s' := by
    simpa [runMoves] using hrun
  unfold stepMove at hstep
  rw [decode_encodeMove op sf n imm16 hhw] at hstep
  split at hstep
  · rename_i hvalid
    obtain rfl := Option.some.inj hstep
    rw [get_set _ _ _ hn, hold, h hvalid]
  · cases hstep

/-- The chunks below `hw`. -/
def lowChunks (val : BitVec 64) (hw : Nat) : BitVec 64 := (val.setWidth (16 * hw)).setWidth 64

theorem getLsbD_lowChunks (hw i : Nat) : (lowChunks val hw).getLsbD i = (decide (i < 16 * hw) && val.getLsbD i) := by
  rcases lt_or_ge i 64 with hi | hi
  · simp [lowChunks, hi]
  · simp [lowChunks, not_lt.2 hi, BitVec.getLsbD_of_ge val i hi]

theorem getLsbD_chunk_shift (hw i : Nat) : ((chunk val hw).setWidth 64 <<< (16 * hw)).getLsbD i =
    (decide (16 * hw ≤ i ∧ i < 16 * hw + 16) && val.getLsbD i) := by
  rw [BitVec.getLsbD_shiftLeft, BitVec.getLsbD_setWidth, getLsbD_chunk]
  rcases lt_or_ge i 64 with hi | hi
  · rcases lt_or_ge i (16 * hw) with hlt | hge
    · simp [hlt, not_le.2 hlt]
    · have hin : i - 16 * hw < 16 ↔ i < 16 * hw + 16 := by omega
      simp [hi, not_lt.2 hge, hge, hin, Nat.add_sub_cancel' hge, show i - 16 * hw < 64 by omega]
  · simp [not_lt.2 hi, BitVec.getLsbD_of_ge val i hi]

theorem movk_result (hhw : hw < 4) (hfit : sf = true ∨ hw < 2) :
    MoveInsn.result ⟨.movk, sf, BitVec.ofNat 2 hw, chunk val hw, n⟩ (lowChunks val hw) = lowChunks val (hw + 1) := by
  have hmod : (BitVec.ofNat 2 hw).toNat = hw := by
    rw [BitVec.toNat_ofNat, Nat.mod_eq_of_lt hhw]
  have hwide : lowChunks val hw &&& ~~~(0xFFFF#64 <<< (16 * hw)) ||| (chunk val hw).setWidth 64 <<< (16 * hw) =
      lowChunks val (hw + 1) := by
    refine BitVec.eq_of_getLsbD_eq fun i hi => ?_
    rw [BitVec.getLsbD_or, BitVec.getLsbD_and, BitVec.getLsbD_not, getLsbD_lowChunks, getLsbD_lowChunks,
      getLsbD_chunk_shift, BitVec.getLsbD_shiftLeft, show 0xFFFF#64 = BitVec.ofNat 64 (2 ^ 16 - 1) from rfl,
      Lib.getLsbD_lowMask]
    rcases lt_or_ge i (16 * hw) with hlt | hge
    · simp [hi, hlt, not_le.2 hlt, show i < 16 * (hw + 1) by omega]
    · have hin : i < 16 * hw + 16 ↔ i < 16 * (hw + 1) := by omega
      simp [not_lt.2 hge, hge, hin]
  unfold MoveInsn.result
  dsimp only
  rw [hmod, hwide]
  cases sf with
  | true => rfl
  | false =>
    have h2 : hw < 2 := by simpa using hfit
    refine BitVec.eq_of_getLsbD_eq fun i hi => ?_
    simp only [Bool.false_eq_true, if_false, BitVec.getLsbD_setWidth, getLsbD_lowChunks, hi, decide_true, Bool.true_and]
    rcases lt_or_ge i 32 with hlt | hge
    · simp [hlt]
    · simp [not_lt.2 hge, show ¬ i < 16 * (hw + 1) by omega]

/-- The step for a chunk adds it, whether it is zero or not. -/
theorem leaves_movkChunk (hn : n.toNat < 31) (hhw : hw < 4) :
    Leaves n (lowChunks val hw) (movkChunk sf (n.setWidth 32) val hw) (lowChunks val (hw + 1)) := by
  have hskip : chunk val hw = 0 → lowChunks val hw = lowChunks val (hw + 1) := by
    intro hzero
    refine BitVec.eq_of_getLsbD_eq fun i hi => ?_
    have hbit := @getLsbD_chunk_shift val hw i
    rw [hzero] at hbit
    rw [getLsbD_lowChunks, getLsbD_lowChunks]
    rcases lt_or_ge i (16 * hw) with hlt | hge
    · simp [hlt, show i < 16 * (hw + 1) by omega]
    rcases lt_or_ge i (16 * (hw + 1)) with hlt | hge'
    · simp [hge, show i < 16 * hw + 16 by omega] at hbit
      simp [hbit]
    · simp [not_lt.2 hge, not_lt.2 hge']
  have hnil : chunk val hw = 0 → Leaves n (lowChunks val hw) [] (lowChunks val (hw + 1)) := by
    intro hzero s s' hrun hold
    obtain rfl : s = s' := Option.some.inj hrun
    rw [hold, hskip hzero]
  unfold movkChunk
  split
  · split
    · refine leaves_one hn .movk _ hhw fun hfit => ?_
      rw [BitVec.setWidth_setWidth_of_le _ (by decide), BitVec.setWidth_eq]
      exact movk_result hhw hfit
    · rename_i hzero
      exact hnil (not_not.1 hzero)
  rename_i hrest
  refine hnil ?_
  unfold chunk
  rw [not_not.1 hrest]
  rfl

theorem movz_result (hone : OneChunk val hw) (hhw : hw < 4) (hfit : sf = true ∨ hw < 2) (old : BitVec 64) :
    MoveInsn.result ⟨.movz, sf, BitVec.ofNat 2 hw, chunk val hw, n⟩ old = val := by
  have hmod : (BitVec.ofNat 2 hw).toNat = hw := by
    rw [BitVec.toNat_ofNat, Nat.mod_eq_of_lt hhw]
  have hwide : (chunk val hw).setWidth 64 <<< (16 * hw) = val := by
    refine BitVec.eq_of_getLsbD_eq fun i hi => ?_
    rw [getLsbD_chunk_shift]
    by_cases hin : 16 * hw ≤ i ∧ i < 16 * hw + 16
    · simp [hin]
    · rw [mask_eq hone (show i < 16 * hw ∨ 16 * hw + 16 ≤ i by omega), Bool.and_false]
  unfold MoveInsn.result
  rw [hmod, hwide]
  cases sf with
  | true => rfl
  | false =>
    have h2 : hw < 2 := by simpa using hfit
    refine BitVec.eq_of_getLsbD_eq fun i hi => ?_
    simp only [Bool.false_eq_true, if_false, BitVec.getLsbD_setWidth, hi, decide_true, Bool.true_and]
    rcases lt_or_ge i 32 with hlt | hge
    · simp [hlt]
    · rw [mask_eq hone (Or.inr (by omega)), Bool.and_false]

theorem movn_result (hneg : SmallNegative t) (old : BitVec 64) :
    (MoveInsn.result ⟨.movn, sf, 0, ((~~~t.val).setWidth 32).setWidth 16, n⟩ old).setWidth (regWidth sf) =
      t.val.setWidth (regWidth sf) := by
  have hwide : ~~~((((~~~t.val).setWidth 32).setWidth 16).setWidth 64 <<< 0) = t.val := by
    refine BitVec.eq_of_getLsbD_eq fun i hi => ?_
    simp only [BitVec.shiftLeft_zero, BitVec.getLsbD_not, BitVec.getLsbD_setWidth, hi, decide_true, Bool.true_and]
    rcases lt_or_ge i 16 with hlt | hge
    · simp [hlt, show i < 32 by omega]
    · simp [not_lt.2 hge, hneg.getLsbD hge hi]
  unfold MoveInsn.result
  dsimp only
  rw [show 16 * (0 : BitVec 2).toNat = 0 from rfl, hwide]
  cases sf with
  | true => rfl
  | false => simp [regWidth]

/-- **The register holds the value after the words were executed.** -/
theorem leaves_movWords (hn : n.toNat < 31) (hval : SmallNegative t → t.val = val)
    (hrun : runMoves (movWords sf (n.setWidth 32) t val) s = some s') :
    (s'.get n).setWidth (regWidth sf) = val.setWidth (regWidth sf) := by
  have htrunc : ∀ hw, ((chunk val hw).setWidth 32).setWidth 16 = chunk val hw := by
    intro hw
    rw [BitVec.setWidth_setWidth_of_le _ (by decide), BitVec.setWidth_eq]
  have hmovz : ∀ hw < 4, OneChunk val hw →
      Leaves n (s.get n) [encodeMove (MoveOp.movz.base sf) (n.setWidth 32) ((chunk val hw).setWidth 32) hw] val := by
    intro hw hhw hone
    refine leaves_one hn .movz _ hhw fun hfit => ?_
    rw [htrunc]
    exact movz_result hone hhw hfit _
  rw [movWords_eq] at hrun
  split at hrun
  · rename_i hone
    rw [hmovz 0 (by decide) hone s s' hrun rfl]
  split at hrun
  · rename_i hone
    rw [hmovz 1 (by decide) hone s s' hrun rfl]
  split at hrun
  · rename_i hone
    rw [hmovz 2 (by decide) hone s s' hrun rfl]
  split at hrun
  · rename_i hone
    rw [hmovz 3 (by decide) hone s s' hrun rfl]
  split at hrun
  · rename_i hneg
    rw [leaves_one hn .movn _ (by decide) (fun _ => rfl) s s' hrun rfl, ← hval hneg]
    exact movn_result hneg _
  have hfirst : Leaves n (s.get n) [encodeMove (MoveOp.movz.base sf) (n.setWidth 32) ((chunk val 0).setWidth 32) 0]
      (lowChunks val 1) := by
    refine leaves_one hn .movz _ (by decide) fun _ => ?_
    have hone : OneChunk (lowChunks val 1) 0 := by
      refine BitVec.eq_of_getLsbD_eq fun i hi => ?_
      rw [BitVec.getLsbD_and, show 0xFFFF#64 <<< (16 * 0) = BitVec.ofNat 64 (2 ^ 16 - 1) from rfl, Lib.getLsbD_lowMask,
        getLsbD_lowChunks]
      simp [hi]
      tauto
    exact movz_result hone (by decide) (Or.inr (by decide)) _
  have hall : lowChunks val 4 = val := by
    refine BitVec.eq_of_getLsbD_eq fun i hi => ?_
    rw [getLsbD_lowChunks]
    simp [show i < 16 * 4 from hi]
  have hchunk : ∀ hw < 4, Leaves n (lowChunks val hw) (movkChunk sf (n.setWidth 32) val hw) (lowChunks val (hw + 1)) :=
    fun hw hhw => leaves_movkChunk hn hhw
  have hrest := ((hchunk 1 (by decide)).append (hchunk 2 (by decide))).append (hchunk 3 (by decide))
  rw [(hfirst.append hrest) s s' hrun rfl, hall]

end

/-! ## The whole instruction -/

/-- The registers that a move can give the value: the general ones, and the zero register where it is 0 anyway. -/
def Register.Takes (imm : BitVec 64) : Register → Prop
  | .gp _ _ => True
  | .zr wide => imm.setWidth (regWidth wide) = 0
  | .fp _ _ => False
  | .sp => False

section

variable {symbols : List Symbol} {rd : Register} {t : Operand} {imm : BitVec 64} {s s' : Regs} {ws : List (BitVec 32)}

theorem run_sp (h : runMoves ws s = some s') : s'.sp = s.sp := by
  induction ws generalizing s with
  | nil =>
    obtain rfl : s = s' := Option.some.inj h
    rfl
  | cons w ws ih =>
    obtain ⟨m, hm, hrun⟩ := Option.bind_eq_some_iff.1 h
    obtain ⟨i, -, rfl⟩ := Option.map_eq_some_iff.1 hm
    rw [ih hrun]
    rfl

theorem movWords_head (sf : Bool) (rd : BitVec 32) (t : Operand) (val : BitVec 64) :
    ∃ base imm16 hw ws, movWords sf rd t val = encodeMove base rd imm16 hw :: ws := by
  rw [movWords_eq]
  split
  · exact ⟨_, _, _, _, rfl⟩
  split
  · exact ⟨_, _, _, _, rfl⟩
  split
  · exact ⟨_, _, _, _, rfl⟩
  split
  · exact ⟨_, _, _, _, rfl⟩
  split
  · exact ⟨_, _, _, _, rfl⟩
  · exact ⟨_, _, _, _, rfl⟩

theorem imm_of_smallNegative (h : t.imm symbols = some imm) (hneg : SmallNegative t) : t.val = imm := by
  cases t with
  | number val => exact Option.some.inj h
  | ident str => exact absurd hneg.1 (show ¬ (0 : BitVec 64).toInt < 0 by decide)

/-- The number of a register that is not a floating one. -/
theorem movImm_eq {n : BitVec 5} (h : t.imm symbols = some imm)
    (hrd : (if rd = .sp then 31 else rd.encodeGpr) = n.setWidth 32) :
    movImm symbols rd t = some (movWords rd.sf (n.setWidth 32) t imm) := by
  unfold movImm
  rw [h, hrd]
  rfl

/-- **`mov` with an immediate is right exactly when the symbol is not defined, or the register is one that a move
writes and the value has no chunk above those of the register, `movn` apart.** -/
theorem movesRight_iff (symbols : List Symbol) (rd : Register) (t : Operand) :
    MovesRight symbols rd t ↔ ∀ imm, t.imm symbols = some imm → ChunksFit rd.sf t imm ∧ rd.Takes imm := by
  refine forall_congr' fun imm => ?_
  rw [forall_comm]
  refine forall_congr' fun himm => ?_
  have hval := @imm_of_smallNegative symbols t imm himm
  -- a register of the instruction: validity is that of the words, and what is left is its value
  have hgpr : ∀ n : BitVec 5, (if rd = .sp then 31 else rd.encodeGpr) = n.setWidth 32 →
      ((∀ ws, movImm symbols rd t = some ws → ValidMoves rd.sf ws ∧ ∀ s, ∃ s', runMoves ws s = some s' ∧
        (s'.value rd).setWidth (regWidth rd.sf) = imm.setWidth (regWidth rd.sf)) ↔
      ChunksFit rd.sf t imm ∧ ∀ s s', runMoves (movWords rd.sf (n.setWidth 32) t imm) s = some s' →
        (s'.value rd).setWidth (regWidth rd.sf) = imm.setWidth (regWidth rd.sf)) := by
    intro n hn
    have hwords := movImm_eq himm hn
    constructor
    · intro h
      obtain ⟨hvalid, hruns⟩ := h _ hwords
      refine ⟨(validMoves_iff hval).1 hvalid, fun s s' hrun => ?_⟩
      obtain ⟨s'', hrun', hvalue⟩ := hruns s
      obtain rfl := Option.some.inj (hrun.symm.trans hrun')
      exact hvalue
    rintro ⟨hfit, hvalue⟩ ws hws
    obtain rfl := Option.some.inj (hwords.symm.trans hws)
    have hvalid : ValidMoves rd.sf (movWords rd.sf (n.setWidth 32) t imm) := (validMoves_iff hval).2 hfit
    refine ⟨hvalid, fun s => ?_⟩
    obtain ⟨s', hs'⟩ := run_of_valid hvalid s
    exact ⟨s', hs', hvalue s s' hs'⟩
  cases rd with
  | gp num wide =>
    have hlt : (BitVec.ofNat 5 num.val).toNat = num.val := by
      rw [BitVec.toNat_ofNat, Nat.mod_eq_of_lt (by omega)]
    have hn : (if Register.gp num wide = .sp then 31 else (Register.gp num wide).encodeGpr) =
        (BitVec.ofNat 5 num.val).setWidth 32 := by
      apply BitVec.eq_of_toNat_eq
      rw [BitVec.toNat_setWidth, hlt]
      rfl
    rw [hgpr _ hn]
    refine and_congr_right fun _ => ⟨fun _ => trivial, fun _ s s' hrun => ?_⟩
    have hvalue : s'.value (.gp num wide) = s'.get (BitVec.ofNat 5 num.val) := by
      unfold Regs.value Regs.get
      simp [hlt]
    rw [hvalue]
    exact leaves_movWords (by omega) hval hrun
  | zr wide =>
    rw [hgpr 31 rfl]
    refine and_congr_right fun hfit => ⟨fun h => ?_, fun h s s' _ => ?_⟩
    · obtain ⟨s', hs'⟩ := run_of_valid ((validMoves_iff hval).2 hfit) ⟨fun _ => 0, 0, fun _ => 0⟩
      exact (h _ s' hs').symm.trans (BitVec.setWidth_zero _ _)
    · exact (BitVec.setWidth_zero _ _).trans h.symm
  | sp =>
    rw [hgpr 31 rfl]
    refine and_congr_right fun hfit => ⟨fun h => ?_, fun h => h.elim⟩
    -- the stack pointer keeps any value it had before
    obtain ⟨s', hs'⟩ := run_of_valid ((validMoves_iff hval).2 hfit) ⟨fun _ => 0, imm + 1, fun _ => 0⟩
    have hsp : imm + 1 = imm := by
      have hvalue : s'.sp.setWidth 64 = imm.setWidth 64 := h _ s' hs'
      rwa [BitVec.setWidth_eq, BitVec.setWidth_eq, run_sp hs'] at hvalue
    simp at hsp
  | fp num wide =>
    obtain ⟨base, imm16, hw, ws, hws⟩ := movWords_head wide (-1) t imm
    have hword : encodeMove base (-1) imm16 hw = -1 := by
      exact BitVec.or_allOnes
    rw [hword] at hws
    constructor
    · intro h
      have hwords : movImm symbols (.fp num wide) t = some (-1 :: ws) := by
        unfold movImm
        rw [himm, ← hws]
        rfl
      obtain ⟨i, hi, -⟩ := (h _ hwords).1 (-1) (mem_cons_self ..)
      cases hi
    · exact fun h => h.2.elim

/-- A 32-bit register that is given a value of 33 bits: the word emitted is not allocated. -/
theorem movImm_misses : ¬ MovesRight [] (.gp 0 false) (.number 0x100000000#64) := by
  intro h
  obtain ⟨i, hi, -⟩ := (h 0x100000000#64 [0x52C00020#32] rfl (by decide +kernel)).1 0x52C00020#32 (mem_singleton.2 rfl)
  cases hi

end

end Slopix.As
