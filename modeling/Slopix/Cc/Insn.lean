import Slopix.Cc.Syntax

/-!
# The instructions of the emitted code

The assembly lines that `cmd/cc/codegen.c` prints, one constructor for each form. A general register is
given by its number, with 29 the frame pointer, 30 the link register and 31 the zero register; `w` or `x`
says how much of it is meant. Line directives (`.loc`) are left out.
-/

namespace Slopix.Cc

/-- The 32-bit or the 64-bit view of a register. -/
inductive Width
  | w
  | x
  deriving DecidableEq, Repr

/-- Single or double precision, `s0` or `d0`. -/
inductive Prec
  | s
  | d
  deriving DecidableEq, Repr

/-- Operations with two source registers, or a register and a number. -/
inductive AluOp
  | add
  | sub
  | mul
  | udiv
  | sdiv
  | and
  | orr
  | eor
  | bic
  | lsl
  | lsr
  | asr
  deriving DecidableEq, Repr

/-- Sign and zero extension. -/
inductive Ext
  | sxtb
  | sxth
  | sxtw
  | uxtb
  | uxth
  deriving DecidableEq, Repr

/-- Conditions of a branch or of `cset`. -/
inductive Cond
  | eq
  | ne
  | lt
  | le
  | lo
  | ls
  | mi
  deriving DecidableEq, Repr

/-- The loads, by their mnemonics. -/
inductive LoadOp
  | ldrb
  | ldrsb
  | ldrh
  | ldrsh
  | ldrW
  | ldrsw
  | ldrX
  deriving DecidableEq, Repr

/-- The stores. -/
inductive StoreOp
  | strb
  | strh
  | strW
  | strX
  deriving DecidableEq, Repr

/-- Floating arithmetic. -/
inductive FpOp
  | fadd
  | fsub
  | fmul
  | fdiv
  deriving DecidableEq, Repr

/-- Instructions on the floating registers, most of them on `s0` or `d0`. -/
inductive FpInsn
  | fmov (p : Prec)
  | fneg (p : Prec)
  | fcmpZero (p : Prec)
  | fcmp (p : Prec)
  | arith (op : FpOp) (p : Prec)
  | scvtf (p : Prec) (wd : Width)
  | ucvtf (p : Prec) (wd : Width)
  | fcvtzs (wd : Width) (p : Prec)
  | fcvtzu (wd : Width) (p : Prec)
  | fcvt (dst src : Prec)
  | load (p : Prec)
  | store (p : Prec) (r rn : Nat) (off : Int)
  deriving DecidableEq, Repr

/-- One line of the emitted code. -/
inductive Insn
  | label (l : Label)
  | b (l : Label)
  | bcond (c : Cond) (l : Label)
  /-- `str x<r>, [sp, #-16]!` -/
  | push (r : Nat)
  /-- `ldr x<r>, [sp], #16` -/
  | pop (r : Nat)
  /-- `str d<r>, [sp, #-16]!` -/
  | pushf (r : Nat)
  /-- `ldr d<r>, [sp], #16` -/
  | popf (r : Nat)
  /-- `add sp, sp, #<n>` -/
  | addSp (n : Nat)
  /-- `add sp, sp, x<r>` -/
  | addSpReg (r : Nat)
  /-- `sub sp, sp, #<n>` -/
  | subSp (n : Nat)
  /-- `sub sp, sp, x<r>` -/
  | subSpReg (r : Nat)
  /-- `mov x29, sp` -/
  | movFp
  /-- `stp x29, x30, [sp, #-16]!` -/
  | stpFrame
  /-- `ldp x29, x30, [sp], #16` -/
  | ldpFrame
  | movImm (wd : Width) (r : Nat) (v : Int)
  | movz (r v : Nat)
  /-- `movk <r>, #<v>, lsl #16` -/
  | movk (wd : Width) (r v : Nat)
  /-- `ldr x<r>, =<v>` -/
  | ldrLit (r : Nat) (v : Int)
  | mov (wd : Width) (rd rn : Nat)
  | alu (op : AluOp) (wd : Width) (rd rn rm : Nat)
  | aluImm (op : AluOp) (wd : Width) (rd rn : Nat) (n : Int)
  | msub (wd : Width) (rd rn rm ra : Nat)
  | neg (rd rn : Nat)
  | mvn (rd rn : Nat)
  | ext (e : Ext) (wd : Width) (rd rn : Nat)
  | cmpImm (rn : Nat) (n : Int)
  | cmp (wd : Width) (rn rm : Nat)
  | cset (wd : Width) (rd : Nat) (c : Cond)
  | load (op : LoadOp) (rt rn : Nat) (off : Int)
  | store (op : StoreOp) (rt rn : Nat) (off : Int)
  /-- `ldr x<r>, [sp]` -/
  | loadSp (r : Nat)
  | adrp (rd : Nat) (name : String)
  | addLo12 (rd rn : Nat) (name : String)
  | blr (rn : Nat)
  | ret
  | fp (i : FpInsn)

/-- The label that an instruction defines or names. -/
def Insn.mentions : Insn → Option Label
  | .label l | .b l | .bcond _ l => some l
  | _ => none

/-- The label that an instruction may jump to. -/
def Insn.target : Insn → Option Label
  | .b l | .bcond _ l => some l
  | _ => none

end Slopix.Cc
