import Slopix.Cc.Codegen

/-!
# Functions

`assign_lvar_offsets` and `emit_text` of `cmd/cc/codegen.c`: where the variables of a function are, and the
lines around its body. Directives and the label with the function's name are left out.
-/

namespace Slopix.Cc

open Gen

/-- A local variable. -/
structure Local where
  ty : Ty
  align : Nat

/-- A function definition. The parameters are among the local variables, by their numbers. -/
structure Fn where
  params : List Nat
  locals : List Local
  isVariadic : Bool
  vaArea : Option Nat
  isMain : Bool
  body : Stmt

/-- `align_to`. -/
def alignTo (n align : Nat) : Nat := (n + align - 1) / align * align

namespace Fn

variable (fn : Fn)

/-- The type of a local variable. -/
def varTy (i : Nat) : Ty := (fn.locals.map Local.ty).getD i tyVoid

/-- The loop of `assign_lvar_offsets` over the parameters: those past the eighth of their kind lie above the
frame. -/
def paramOffsets : List Nat → Nat → Nat → Nat → (Nat → Int) → Nat → Int
  | [], _, _, _, off => off
  | i :: is, gp, fp, top, off =>
    let ty := fn.varTy i
    if ty.isAggregate then paramOffsets is gp fp top off
    else if ty.isFlonum then
      if fp < 8 then paramOffsets is gp (fp + 1) top off
      else paramOffsets is gp (fp + 1) (alignTo top 8 + max 8 ty.size) (Function.update off i (alignTo top 8))
    else if gp < 8 then paramOffsets is (gp + 1) fp top off
    else paramOffsets is (gp + 1) fp (alignTo top 8 + max 8 ty.size) (Function.update off i (alignTo top 8))

/-- The loop over the local variables, from number `i` on: `bottom` and the offsets. -/
def localOffsets : List Local → Nat → Nat → (Nat → Int) → Nat × (Nat → Int)
  | [], _, bottom, off => (bottom, off)
  | v :: vs, i, bottom, off =>
    if off i ≠ 0 then localOffsets vs (i + 1) bottom off
    else
      let bottom' := alignTo (bottom + v.ty.size) v.align
      localOffsets vs (i + 1) bottom' (Function.update off i (-bottom'))

/-- `assign_lvar_offsets`: the frame size before rounding, and the offset of each variable. -/
def frame : Nat × (Nat → Int) := localOffsets fn.locals 0 0 (fn.paramOffsets fn.params 0 0 16 fun _ => 0)

/-- `var->offset`. -/
def offset : Nat → Int := fn.frame.2

/-- `fn->stack_size`. -/
def stackSize : Nat := alignTo fn.frame.1 16

/-- Register parameters are copied to their variables. -/
def storeParams : List Nat → Nat → Nat → List Insn
  | [], _, _ => []
  | i :: is, gp, fp =>
    let ty := fn.varTy i
    if ty.isAggregate then storeParams is gp fp
    else if ty.isFlonum then
      if fp < 8 then storeFp fp (fn.offset i) ty.size ++ storeParams is gp (fp + 1)
      else storeParams is gp fp
    else if gp < 8 then storeGp gp (fn.offset i) ty.size ++ storeParams is (gp + 1) fp
    else storeParams is gp fp

/-- The number of named parameters of each kind, general and floating, at most 8 each. -/
def namedParams : Nat × Nat :=
  (min 8 (fn.params.countP fun i => !(fn.varTy i).isFlonum), min 8 (fn.params.countP fun i => (fn.varTy i).isFlonum))

/-- A pointer into the frame is stored in a field of the `va_list`. -/
def storeVaPtr (target field : Int) : List Insn :=
  localAddr 9 target ++ [.mov .x 10 9] ++ localAddr 9 field ++ [.store .strX 10 9 0]

/-- A variadic function saves all argument registers and fills in `__va_area__`: the `va_list` in its first
32 bytes, then 8 floating registers of 16 bytes and 8 general registers of 8 bytes. -/
def saveVarargs : List Insn :=
  match fn.isVariadic, fn.vaArea with
  | true, some area =>
    let vaStruct := fn.offset area
    let vrBase := vaStruct + 32
    let grBase := vrBase + 128
    (List.range 8).flatMap (fun i : Nat => storeFp i (vrBase + i * 16) 8) ++
      (List.range 8).flatMap (fun i : Nat => storeGp i (grBase + i * 8) 8) ++
      ([.aluImm .add .x 10 29 16] ++ localAddr 9 vaStruct ++ [.store .strX 10 9 0]) ++
      storeVaPtr (grBase + 64) (vaStruct + 8) ++
      storeVaPtr (vrBase + 128) (vaStruct + 16) ++
      ([.movImm .w 10 (-(8 - (fn.namedParams.1 : Int)) * 8)] ++ localAddr 9 (vaStruct + 24) ++
        [.store .strW 10 9 0]) ++
      ([.movImm .w 10 (-(8 - (fn.namedParams.2 : Int)) * 16)] ++ localAddr 9 (vaStruct + 28) ++
        [.store .strW 10 9 0])
  | _, _ => []

/-- The stack pointer goes down by the size of the frame. -/
def makeFrame : List Insn :=
  if 0 < fn.stackSize then
    if fn.stackSize ≤ 4095 then [.subSp fn.stackSize] else loadConst 9 fn.stackSize ++ [.subSpReg 9]
  else []

/-- And up again. -/
def dropFrame : List Insn :=
  if 0 < fn.stackSize then
    if fn.stackSize ≤ 4095 then [.addSp fn.stackSize] else loadConst 9 fn.stackSize ++ [.addSpReg 9]
  else []

/-- The assertion that the push depth is 0. -/
def assertLevel : Gen Unit := do
  let depth ← getDepth
  when (depth ≠ 0) fail

/-- The lines between the making of the frame and the label of the epilogue. -/
def genBody : Gen Unit := do
  emits (fn.storeParams fn.params 0 0 ++ fn.saveVarargs)
  genStmt fn.offset fn.body
  assertLevel
  when fn.isMain (emit (.movImm .x 0 0))

/-- `emit_text` for one function. -/
def emitText : Gen Unit := do
  emits ([.stpFrame, .movFp] ++ fn.makeFrame)
  fn.genBody
  emits ([.label .ret] ++ fn.dropFrame ++ [.ldpFrame, .ret])

end Fn

end Slopix.Cc
