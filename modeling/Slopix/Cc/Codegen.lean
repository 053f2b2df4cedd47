import Slopix.Cc.Insn
import Mathlib.Algebra.Order.Ring.Int

/-!
# The code generator

`cmd/cc/codegen.c`. The generator keeps the push depth and the number of the next label; a line of the
output is kept with the depth at which it was printed. `none` is `error_tok`.
-/

namespace Slopix.Cc

/-- The variables `depth` and the `i` of `count`. -/
structure GenState where
  depth : Int
  next : Nat

/-- A line of the output, and the push depth when it was printed. -/
structure Item where
  depth : Int
  insn : Insn

/-- A piece of the generator: the lines it prints. -/
def Gen (α : Type) : Type := GenState → Option (α × GenState × List Item)

namespace Gen

instance : Monad Gen where
  pure a := fun s => some (a, s, [])
  bind m f := fun s =>
    match m s with
    | none => none
    | some (a, s', l) =>
      match f a s' with
      | none => none
      | some (b, s'', l') => some (b, s'', l ++ l')

/-- `error_tok`. -/
def fail {α : Type} : Gen α := fun _ => none

/-- `println` of an instruction. -/
def emit (i : Insn) : Gen Unit := fun s => some ((), s, [⟨s.depth, i⟩])

/-- Several lines. -/
def emits : List Insn → Gen Unit
  | [] => pure ()
  | i :: is => do
      emit i
      emits is

/-- Change the push depth. -/
def move (k : Int) : Gen Unit := fun s => some ((), { s with depth := s.depth + k }, [])

/-- The depth of the stack, as the code generator counts it. -/
def getDepth : Gen Int := fun s => some (s.depth, s, [])

/-- A piece that is printed under a condition. -/
def when (c : Prop) [Decidable c] (m : Gen Unit) : Gen Unit := if c then m else pure ()

/-- `count()`: the next number for a label. -/
def count : Gen Nat := fun s => some (s.next, { s with next := s.next + 1 }, [])

end Gen

open Gen

/-- `push`: `x0` onto the stack. -/
def push : Gen Unit := do
  emit (.push 0)
  move 1

/-- `pop`: the top of the stack into `x<r>`. -/
def pop (r : Nat) : Gen Unit := do
  emit (.pop r)
  move (-1)

/-- `pushf`: `d0` onto the stack. -/
def pushf : Gen Unit := do
  emit (.pushf 0)
  move 1

/-- `popf`: the top of the stack into `d<r>`. -/
def popf (r : Nat) : Gen Unit := do
  emit (.popf r)
  move (-1)

/-- `load_const`; the value is an `unsigned int`. -/
def loadConst (r : Nat) (val : Int) : List Insn :=
  let v := val % 4294967296
  if v ≤ 65535 then [.movImm .x r v]
  else [.movz r (v % 65536).toNat, .movk .x r (v / 65536).toNat]

/-- The address of a local variable at an offset from the frame pointer: `load_local_addr` for `x9`, and
the same lines for `x0` in `gen_addr` and for `ND_MEMZERO`. -/
def localAddr (r : Nat) (offset : Int) : List Insn :=
  if 0 ≤ offset ∧ offset ≤ 4095 then [.aluImm .add .x r 29 offset]
  else if offset < 0 ∧ -4095 ≤ offset then [.aluImm .sub .x r 29 (-offset)]
  else if 0 ≤ offset then loadConst r offset ++ [.alu .add .x r 29 r]
  else loadConst r (-offset) ++ [.alu .sub .x r 29 r]

/-- `x0` plus the offset of a member, with `x9` for an offset that is no immediate. -/
def addOffset (offset : Int) : List Insn :=
  if offset = 0 then []
  else if 0 < offset ∧ offset ≤ 4095 then [.aluImm .add .x 0 0 offset]
  else if offset < 0 ∧ -4095 ≤ offset then [.aluImm .sub .x 0 0 (-offset)]
  else if 0 < offset then loadConst 9 offset ++ [.alu .add .x 0 0 9]
  else loadConst 9 (-offset) ++ [.alu .sub .x 0 0 9]

/-- The store of `store_gp`: `stur` for a small offset, else through `x9`. -/
def storeGp (r : Nat) (offset : Int) (size : Nat) : List Insn :=
  let op : StoreOp := if size = 1 then .strb else if size = 2 then .strh else if size = 4 then .strW else .strX
  if -256 ≤ offset ∧ offset ≤ 255 then [.store op r 29 offset]
  else localAddr 9 offset ++ [.store op r 9 0]

/-- The store of `store_fp`, as in `storeGp`. -/
def storeFp (r : Nat) (offset : Int) (size : Nat) : List Insn :=
  let p : Prec := if size = 4 then .s else .d
  if -256 ≤ offset ∧ offset ≤ 255 then [.fp (.store p r 29 offset)]
  else localAddr 9 offset ++ [.fp (.store p r 9 0)]

/-- `load`: the value at the address in `x0`; an aggregate stays its address. -/
def load (ty : Ty) : List Insn :=
  if ty.kind = .array ∨ ty.kind = .struct ∨ ty.kind = .union ∨ ty.kind = .func then []
  else if ty.kind = .float then [.fp (.load .s)]
  else if ty.kind = .double then [.fp (.load .d)]
  else if ty.size = 1 then [.load (if ty.isUnsigned then .ldrb else .ldrsb) 0 0 0]
  else if ty.size = 2 then [.load (if ty.isUnsigned then .ldrh else .ldrsh) 0 0 0]
  else if ty.size = 4 then [.load (if ty.isUnsigned then .ldrW else .ldrsw) 0 0 0]
  else [.load .ldrX 0 0 0]

/-- The lines of `store` after the address is popped. -/
def storeLines (ty : Ty) : List Insn :=
  if ty.kind = .float then [.fp (.store .s 0 1 0)]
  else if ty.kind = .double then [.fp (.store .d 0 1 0)]
  else if ty.kind = .struct ∨ ty.kind = .union then
    (List.range ty.size).flatMap fun i : Nat => [.load .ldrb 2 0 (i : Int), .store .strb 2 1 (i : Int)]
  else if ty.size = 1 then [.store .strb 0 1 0]
  else if ty.size = 2 then [.store .strh 0 1 0]
  else if ty.size = 4 then [.store .strW 0 1 0]
  else [.store .strX 0 1 0]

/-- `store`: `x0` or `d0` to the address on top of the stack. -/
def store (ty : Ty) : Gen Unit := do
  pop 1
  emits (storeLines ty)

/-- `cmp_zero`: the flags say whether the value is zero. -/
def cmpZero (ty : Ty) : List Insn :=
  if ty.isFlonum then [.fp (.fcmpZero (if ty.kind = .float then .s else .d))]
  else [.cmpImm 0 0]

/-- The values of `getTypeId`. -/
inductive TypeId
  | i8
  | i16
  | i32
  | i64
  | u8
  | u16
  | u32
  | u64
  | f32
  | f64
  deriving DecidableEq, Repr

/-- `getTypeId`: a pointer, and all that is not listed, is a `u64`. -/
def getTypeId (ty : Ty) : TypeId :=
  match ty.kind with
  | .char => if ty.isUnsigned then .u8 else .i8
  | .short => if ty.isUnsigned then .u16 else .i16
  | .int => if ty.isUnsigned then .u32 else .i32
  | .long => if ty.isUnsigned then .u64 else .i64
  | .float => .f32
  | .double => .f64
  | _ => .u64

/-- `cast_table`, a row for each type that is cast from; an empty list is `NULL`. -/
def castTable : TypeId → TypeId → List Insn
  | .i8, .i64 | .i8, .u64 => [.ext .sxtw .x 0 0]
  | .i8, .u8 => [.ext .uxtb .w 0 0]
  | .i8, .f32 => [.fp (.scvtf .s .w)]
  | .i8, .f64 => [.fp (.scvtf .d .w)]
  | .i8, _ => []
  | .i16, .i8 => [.ext .sxtb .x 0 0]
  | .i16, .i64 | .i16, .u64 => [.ext .sxtw .x 0 0]
  | .i16, .u8 => [.ext .uxtb .w 0 0]
  | .i16, .u16 => [.ext .uxth .w 0 0]
  | .i16, .f32 => [.fp (.scvtf .s .w)]
  | .i16, .f64 => [.fp (.scvtf .d .w)]
  | .i16, _ => []
  | .i32, .i8 => [.ext .sxtb .x 0 0]
  | .i32, .i16 => [.ext .sxth .x 0 0]
  | .i32, .i64 | .i32, .u64 => [.ext .sxtw .x 0 0]
  | .i32, .u8 => [.ext .uxtb .w 0 0]
  | .i32, .u16 => [.ext .uxth .w 0 0]
  | .i32, .u32 => [.mov .w 0 0]
  | .i32, .f32 => [.fp (.scvtf .s .w)]
  | .i32, .f64 => [.fp (.scvtf .d .w)]
  | .i32, .i32 => []
  | .i64, .i8 => [.ext .sxtb .x 0 0]
  | .i64, .i16 => [.ext .sxth .x 0 0]
  | .i64, .i32 => [.ext .sxtw .x 0 0]
  | .i64, .u8 => [.ext .uxtb .w 0 0]
  | .i64, .u16 => [.ext .uxth .w 0 0]
  | .i64, .u32 => [.mov .w 0 0]
  | .i64, .f32 => [.fp (.scvtf .s .x)]
  | .i64, .f64 => [.fp (.scvtf .d .x)]
  | .i64, .i64 | .i64, .u64 => []
  | .u8, .i8 => [.ext .sxtb .x 0 0]
  | .u8, .i64 | .u8, .u64 => [.mov .w 0 0]
  | .u8, .f32 => [.fp (.scvtf .s .w)]
  | .u8, .f64 => [.fp (.scvtf .d .w)]
  | .u8, _ => []
  | .u16, .i8 => [.ext .sxtb .x 0 0]
  | .u16, .i16 => [.ext .sxth .x 0 0]
  | .u16, .i64 | .u16, .u64 => [.mov .w 0 0]
  | .u16, .u8 => [.ext .uxtb .w 0 0]
  | .u16, .f32 => [.fp (.scvtf .s .w)]
  | .u16, .f64 => [.fp (.scvtf .d .w)]
  | .u16, _ => []
  | .u32, .i8 => [.ext .sxtb .x 0 0]
  | .u32, .i16 => [.ext .sxth .x 0 0]
  | .u32, .i64 | .u32, .u64 => [.mov .w 0 0]
  | .u32, .u8 => [.ext .uxtb .w 0 0]
  | .u32, .u16 => [.ext .uxth .w 0 0]
  | .u32, .f32 => [.fp (.ucvtf .s .w)]
  | .u32, .f64 => [.fp (.ucvtf .d .w)]
  | .u32, .i32 | .u32, .u32 => []
  | .u64, .i8 => [.ext .sxtb .x 0 0]
  | .u64, .i16 => [.ext .sxth .x 0 0]
  | .u64, .i32 => [.ext .sxtw .x 0 0]
  | .u64, .u8 => [.ext .uxtb .w 0 0]
  | .u64, .u16 => [.ext .uxth .w 0 0]
  | .u64, .u32 => [.mov .w 0 0]
  | .u64, .f32 => [.fp (.ucvtf .s .x)]
  | .u64, .f64 => [.fp (.ucvtf .d .x)]
  | .u64, .i64 | .u64, .u64 => []
  | .f32, t => fromFloat .s t
  | .f64, t => fromFloat .d t
where
  /-- The last two rows. -/
  fromFloat (p : Prec) : TypeId → List Insn
    | .i8 => [.fp (.fcvtzs .w p), .ext .sxtb .w 0 0]
    | .i16 => [.fp (.fcvtzs .w p), .ext .sxth .w 0 0]
    | .i32 => [.fp (.fcvtzs .w p)]
    | .i64 => [.fp (.fcvtzs .x p)]
    | .u8 => [.fp (.fcvtzs .w p), .ext .uxtb .w 0 0]
    | .u16 => [.fp (.fcvtzs .w p), .ext .uxth .w 0 0]
    | .u32 => [.fp (.fcvtzu .w p)]
    | .u64 => [.fp (.fcvtzu .x p)]
    | .f32 => if p = .s then [] else [.fp (.fcvt .s .d)]
    | .f64 => if p = .d then [] else [.fp (.fcvt .d .s)]

/-- `cast`: to `_Bool` by a comparison with zero, else by the table. -/
def cast (src dst : Ty) : List Insn :=
  if dst.kind = .void then []
  else if dst.kind = .bool then cmpZero src ++ [.cset .w 0 .ne]
  else castTable (getTypeId src) (getTypeId dst)

/-! ## Lines around the operands -/

/-- `ND_NUM`. -/
def genNum (ty : Ty) (val : Int) (bits : Nat) : List Insn :=
  match ty.kind with
  | .float =>
    .movImm .w 0 (bits % 65536 : Nat) ::
      ((if bits / 65536 ≠ 0 then [.movk .w 0 (bits / 65536)] else []) ++ [.fp (.fmov .s)])
  | .double => [.ldrLit 0 bits, .fp (.fmov .d)]
  | _ => if -65536 ≤ val ∧ val ≤ 65535 then [.movImm .x 0 val] else [.ldrLit 0 val]

/-- The lines of `ND_NEG`. -/
def genNeg (ty : Ty) : List Insn :=
  match ty.kind with
  | .float => [.fp (.fneg .s)]
  | .double => [.fp (.fneg .d)]
  | _ => [.neg 0 0]

/-- The address of a variable: from the frame pointer, or by its name. -/
def genVarAddr (offset : Nat → Int) : Var → List Insn
  | .lvar i => localAddr 0 (offset i)
  | .gvar name => [.adrp 0 name, .addLo12 0 0 name]

/-- The value of a bit field from the word around it, by two shifts. -/
def loadBits (mem : Member) : List Insn :=
  if mem.isBitfield then
    [.aluImm .lsl .x 0 0 (64 - mem.bitWidth - mem.bitOffset),
      .aluImm (if mem.ty.isUnsigned then .lsr else .asr) .x 0 0 (64 - mem.bitWidth)]
  else []

/-- The bit field that an assignment writes. -/
def Expr.bitfield? : Expr → Option Member
  | .member _ _ mem => if mem.isBitfield then some mem else none
  | _ => none

/-- The value of a bit field is put into the word around it, which the address on the stack names. -/
def mergeBits (mem : Member) : List Insn :=
  let ones : Int := 2 ^ mem.bitWidth - 1
  [.mov .x 8 0, .aluImm .and .x 2 0 ones, .aluImm .lsl .x 2 2 mem.bitOffset, .loadSp 0] ++ load mem.ty ++
    [.ldrLit 3 (ones * 2 ^ mem.bitOffset), .alu .bic .x 0 0 3, .alu .orr .x 0 0 2]

/-- `ND_ASSIGN`, given what its operands print. -/
def genAssign (ty : Ty) (bitfield : Option Member) (addr rhs : Gen Unit) : Gen Unit := do
  addr
  push
  rhs
  match bitfield with
  | some mem => do
      emits (mergeBits mem)
      store ty
      emit (.mov .x 0 8)
  | none => store ty

/-- `ND_COND`, given the type of the condition and what the operands print. -/
def genCond (condTy : Ty) (cond thn els : Gen Unit) : Gen Unit := do
  let c ← count
  cond
  emits (cmpZero condTy)
  emit (.bcond .eq (.counted .else c))
  thn
  emit (.b (.counted .endMark c))
  emit (.label (.counted .else c))
  els
  emit (.label (.counted .endMark c))

/-- The arguments that go on the stack: those past the eighth of their kind. -/
def passByStack : List Ty → Nat → Nat → List Bool
  | [], _, _ => []
  | ty :: tys, gp, fp =>
    if ty.isAggregate then false :: passByStack tys gp fp
    else if ty.isFlonum then decide (8 ≤ fp) :: passByStack tys gp (fp + 1)
    else decide (8 ≤ gp) :: passByStack tys (gp + 1) fp

/-- How many arguments go on the stack. -/
def stackCount (tys : List Ty) : Nat := (passByStack tys 0 0).count true

/-- `pop_args`: the arguments that go in registers, the first one from the top of the stack. -/
def popArgs : List Ty → List Bool → Nat → Nat → Gen Unit
  | ty :: tys, flag :: flags, gp, fp =>
    if ty.isAggregate then popArgs tys flags gp fp
    else if ty.isFlonum then
      if flag = false ∧ fp < 8 then do
        popf fp
        popArgs tys flags gp (fp + 1)
      else popArgs tys flags gp fp
    else if flag = false ∧ gp < 8 then do
      pop gp
      popArgs tys flags (gp + 1) fp
    else popArgs tys flags gp fp
  | _, _, _, _ => pure ()

/-- The value of a call, extended from its type to the register. -/
def extendReturn (ty : Ty) : List Insn :=
  if ty.kind ≠ .void ∧ ty.isFlonum = false then
    if ty.size = 1 then [if ty.isUnsigned then .ext .uxtb .w 0 0 else .ext .sxtb .x 0 0]
    else if ty.size = 2 then [if ty.isUnsigned then .ext .uxth .w 0 0 else .ext .sxth .x 0 0]
    else if ty.size = 4 then [if ty.isUnsigned then .mov .w 0 0 else .ext .sxtw .x 0 0]
    else []
  else []

/-- The padding and the two passes of `push_args`, given what the passes print. The result is the number
of slots to drop after the call. -/
def pushArgs (tys : List Ty) (first second : Gen Unit) : Gen Nat := do
  let depth ← getDepth
  when ((depth + stackCount tys) % 2 = 1) do
    emit (.push 31)
    move 1
  first
  second
  pure (stackCount tys + if (depth + stackCount tys) % 2 = 1 then 1 else 0)

/-- `ND_FUNCALL`, given what the arguments and the function's address print. -/
def genFuncall (ty : Ty) (tys : List Ty) (first second fn : Gen Unit) : Gen Unit := do
  let stackArgs ← pushArgs tys first second
  fn
  emit (.mov .x 9 0)
  popArgs tys (passByStack tys 0 0) 0 0
  emit (.blr 9)
  emits (extendReturn ty)
  when (0 < stackArgs) do
    emit (.addSp (stackArgs * 16))
    move (-stackArgs)

/-- A binary operation of two floating values. -/
def floatOp (op : BinOp) (p : Prec) : Gen Unit :=
  match op with
  | .add => emit (.fp (.arith .fadd p))
  | .sub => emit (.fp (.arith .fsub p))
  | .mul => emit (.fp (.arith .fmul p))
  | .div => emit (.fp (.arith .fdiv p))
  | .eq => emits [.fp (.fcmp p), .cset .x 0 .eq]
  | .ne => emits [.fp (.fcmp p), .cset .x 0 .ne]
  | .lt => emits [.fp (.fcmp p), .cset .x 0 .mi]
  | .le => emits [.fp (.fcmp p), .cset .x 0 .ls]
  | _ => fail

/-- The lines of an operation on integers, with the left operand in `x0` and the right one in `x1`. -/
def intOp (op : BinOp) (ty lhsTy : Ty) : List Insn :=
  let opsize := if op = .eq ∨ op = .ne ∨ op = .lt ∨ op = .le then lhsTy.size else ty.size
  let wd : Width := if opsize ≤ 4 then .w else .x
  match op with
  | .add => [.alu .add wd 0 0 1]
  | .sub => [.alu .sub wd 0 0 1]
  | .mul => [.alu .mul wd 0 0 1]
  | .div => [.alu (if ty.isUnsigned then .udiv else .sdiv) wd 0 0 1]
  | .mod => [.alu (if ty.isUnsigned then .udiv else .sdiv) wd 2 0 1, .msub wd 0 2 1 0]
  | .bitand => [.alu .and wd 0 0 1]
  | .bitor => [.alu .orr wd 0 0 1]
  | .bitxor => [.alu .eor wd 0 0 1]
  | .shl => [.alu .lsl wd 0 0 1]
  | .shr => [.alu (if ty.isUnsigned then .lsr else .asr) wd 0 0 1]
  | .eq => [.cmp wd 0 1, .cset .x 0 .eq]
  | .ne => [.cmp wd 0 1, .cset .x 0 .ne]
  | .lt => [.cmp wd 0 1, .cset .x 0 (if lhsTy.isUnsigned then .lo else .lt)]
  | .le => [.cmp wd 0 1, .cset .x 0 (if lhsTy.isUnsigned then .ls else .le)]

/-- A node with two operands, given what they print. -/
def genBinary (op : BinOp) (ty lhsTy : Ty) (lhs rhs : Gen Unit) : Gen Unit :=
  if lhsTy.isFlonum then do
    rhs
    pushf
    lhs
    popf 1
    floatOp op (if lhsTy.kind = .float then .s else .d)
  else do
    rhs
    push
    lhs
    pop 1
    emits (intOp op ty lhsTy)

/-- `x0` is compared with a bound of a case. -/
def cmpCase (n : Int) : List Insn :=
  if 0 ≤ n ∧ n ≤ 4095 then [.cmpImm 0 n] else loadConst 1 n ++ [.cmp .x 0 1]

/-- The comparison for one case; a range has two. -/
def genCase (c : Case) : Gen Unit :=
  if c.begin = c.endVal then do
    emits (cmpCase c.begin)
    emit (.bcond .eq (.unique c.label))
  else do
    let n ← count
    emits (cmpCase c.begin)
    emit (.bcond .lt (.counted .skip n))
    emits (cmpCase c.endVal)
    emit (.bcond .le (.unique c.label))
    emit (.label (.counted .skip n))

/-- The comparisons of `ND_SWITCH`. -/
def genCases : List Case → Gen Unit
  | [] => pure ()
  | c :: cs => do
      genCase c
      genCases cs

/-- The jump of `ND_SWITCH` to its default case. -/
def genDefault : Option Nat → Gen Unit
  | none => pure ()
  | some label => emit (.b (.unique label))

/-! ## The recursion -/

mutual

/-- `gen_addr`: the address of an lvalue in `x0`. -/
def genAddr (offset : Nat → Int) : Expr → Gen Unit
  | .var _ v => emits (genVarAddr offset v)
  | .deref _ lhs => genExpr offset lhs
  | .comma _ lhs rhs => do
      genExpr offset lhs
      genAddr offset rhs
  | .member _ lhs mem => do
      genAddr offset lhs
      emits (addOffset mem.offset)
  | .assign ty lhs rhs =>
    if ty.isAggregate then genAssign ty lhs.bitfield? (genAddr offset lhs) (genExpr offset rhs) else fail
  | .cond ty c thn els =>
    if ty.isAggregate then genCond c.ty (genExpr offset c) (genExpr offset thn) (genExpr offset els)
    else fail
  | _ => fail

/-- `gen_expr`: the value of an expression in `x0`, or in `d0` when it is a float or a double. -/
def genExpr (offset : Nat → Int) : Expr → Gen Unit
  | .null => pure ()
  | .num ty val bits => emits (genNum ty val bits)
  | .cast ty lhs => do
      genExpr offset lhs
      emits (cast lhs.ty ty)
  | .neg ty lhs => do
      genExpr offset lhs
      emits (genNeg ty)
  | .bitnot _ lhs => do
      genExpr offset lhs
      emit (.mvn 0 0)
  | .not _ lhs => do
      genExpr offset lhs
      emits (cmpZero lhs.ty)
      emit (.cset .x 0 .eq)
  | .var ty v => do
      emits (genVarAddr offset v)
      emits (load ty)
  | .member ty lhs mem => do
      genAddr offset lhs
      emits (addOffset mem.offset)
      emits (load ty)
      emits (loadBits mem)
  | .memzero i size => do
      emits (localAddr 0 (offset i))
      emits ((List.range size).map fun k : Nat => .store .strb 31 0 (k : Int))
  | .assign ty lhs rhs => genAssign ty lhs.bitfield? (genAddr offset lhs) (genExpr offset rhs)
  | .comma _ lhs rhs => do
      genExpr offset lhs
      genExpr offset rhs
  | .stmtExpr _ body => genStmts offset body
  | .logand _ lhs rhs => do
      let c ← count
      genExpr offset lhs
      emits (cmpZero lhs.ty)
      emit (.bcond .eq (.counted .false c))
      genExpr offset rhs
      emits (cmpZero rhs.ty)
      emit (.bcond .eq (.counted .false c))
      emit (.movImm .x 0 1)
      emit (.b (.counted .endMark c))
      emit (.label (.counted .false c))
      emit (.movImm .x 0 0)
      emit (.label (.counted .endMark c))
  | .logor _ lhs rhs => do
      let c ← count
      genExpr offset lhs
      emits (cmpZero lhs.ty)
      emit (.bcond .ne (.counted .true c))
      genExpr offset rhs
      emits (cmpZero rhs.ty)
      emit (.bcond .ne (.counted .true c))
      emit (.movImm .x 0 0)
      emit (.b (.counted .endMark c))
      emit (.label (.counted .true c))
      emit (.movImm .x 0 1)
      emit (.label (.counted .endMark c))
  | .cond _ c thn els => genCond c.ty (genExpr offset c) (genExpr offset thn) (genExpr offset els)
  | .addr _ lhs => genAddr offset lhs
  | .deref ty lhs => do
      genExpr offset lhs
      emits (load ty)
  | .funcall ty lhs args =>
    genFuncall ty args.types
      (pushArgs2 offset true args (passByStack args.types 0 0))
      (pushArgs2 offset false args (passByStack args.types 0 0)) (genExpr offset lhs)
  | .binary op ty lhs rhs => genBinary op ty lhs.ty (genExpr offset lhs) (genExpr offset rhs)
  | .unimplemented _ => fail

/-- `push_args2`: the arguments on the stack, or those in registers, from the last one to the first. -/
def pushArgs2 (offset : Nat → Int) (firstPass : Bool) : Args → List Bool → Gen Unit
  | .nil, _ => pure ()
  | .cons arg next, flags => do
      pushArgs2 offset firstPass next flags.tail
      when (firstPass = flags.headD false) do
        genExpr offset arg
        if arg.ty.isFlonum then pushf else push

/-- A missing expression prints nothing. -/
def genExprOpt (offset : Nat → Int) : ExprOpt → Gen Unit
  | .none => pure ()
  | .some e => genExpr offset e

/-- The condition of a loop; the jump leaves the loop when it is zero. -/
def genLoopCond (offset : Nat → Int) (brk : Nat) : ExprOpt → Gen Unit
  | .none => pure ()
  | .some e => do
      genExpr offset e
      emits (cmpZero e.ty)
      emit (.bcond .eq (.unique brk))

/-- `gen_stmt`. -/
def genStmt (offset : Nat → Int) : Stmt → Gen Unit
  | .ret lhs => do
      genExprOpt offset lhs
      emit (.b .ret)
  | .expr lhs => genExpr offset lhs
  | .block body => genStmts offset body
  | .ifThen cond thn els => do
      let c ← count
      genExpr offset cond
      emits (cmpZero cond.ty)
      emit (.bcond .eq (.counted .else c))
      genStmt offset thn
      emit (.b (.counted .endMark c))
      emit (.label (.counted .else c))
      genStmtOpt offset els
      emit (.label (.counted .endMark c))
  | .loop init cond inc thn brk cont => do
      let c ← count
      genStmtOpt offset init
      emit (.label (.counted .begin c))
      genLoopCond offset brk cond
      genStmt offset thn
      emit (.label (.unique cont))
      genExprOpt offset inc
      emit (.b (.counted .begin c))
      emit (.label (.unique brk))
  | .goto label => emit (.b (.unique label))
  | .label label lhs => do
      emit (.label (.unique label))
      genStmt offset lhs
  | .doWhile thn cond brk cont => do
      let c ← count
      emit (.label (.counted .begin c))
      genStmt offset thn
      emit (.label (.unique cont))
      genExpr offset cond
      emits (cmpZero cond.ty)
      emit (.bcond .ne (.counted .begin c))
      emit (.label (.unique brk))
  | .switch cond cases default thn brk => do
      genExpr offset cond
      genCases cases
      genDefault default
      emit (.b (.unique brk))
      genStmt offset thn
      emit (.label (.unique brk))
  | .case label lhs => do
      emit (.label (.unique label))
      genStmt offset lhs
  | .unimplemented => fail

/-- A missing statement prints nothing. -/
def genStmtOpt (offset : Nat → Int) : StmtOpt → Gen Unit
  | .none => pure ()
  | .some stmt => genStmt offset stmt

/-- The statements of a block. -/
def genStmts (offset : Nat → Int) : Stmts → Gen Unit
  | .nil => pure ()
  | .cons stmt next => do
      genStmt offset stmt
      genStmts offset next

end

end Slopix.Cc
