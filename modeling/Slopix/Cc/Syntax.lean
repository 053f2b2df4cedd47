import Mathlib.Init

/-!
# The syntax tree of the compiler

`cmd/cc/chibicc.h`: types, members and nodes, as far as the code generator reads them. An expression
carries the type that `add_type` has given it. Local variables are numbered, since the generator decides
where they are. Inline assembly (`ND_ASM`) is left out: its text is not the generator's.
-/

namespace Slopix.Cc

/-- `TypeKind`. -/
inductive TypeKind
  | void
  | bool
  | char
  | short
  | int
  | long
  | float
  | double
  | ldouble
  | enum
  | ptr
  | func
  | array
  | vla
  | struct
  | union
  deriving DecidableEq, Repr

/-- The fields of `struct Type` that the code generator reads. -/
structure Ty where
  kind : TypeKind
  size : Nat
  isUnsigned : Bool
  deriving DecidableEq, Repr

/-- `is_flonum`; a `long double` counts. -/
def Ty.isFlonum (ty : Ty) : Bool :=
  ty.kind = .float || ty.kind = .double || ty.kind = .ldouble

/-- A structure or a union. -/
def Ty.isAggregate (ty : Ty) : Bool := ty.kind = .struct || ty.kind = .union

/-- `void`. -/
def tyVoid : Ty := ⟨.void, 1, false⟩

/-- `int`. -/
def tyInt : Ty := ⟨.int, 4, false⟩

/-- `struct Member`. -/
structure Member where
  ty : Ty
  offset : Nat
  isBitfield : Bool
  bitOffset : Nat
  bitWidth : Nat

/-- A variable in a node: a local one by its number, a global one by its name. -/
inductive Var
  | lvar (i : Nat)
  | gvar (name : String)

/-- The nodes with two operands, `ND_ADD` to `ND_LE`. -/
inductive BinOp
  | add
  | sub
  | mul
  | div
  | mod
  | bitand
  | bitor
  | bitxor
  | shl
  | shr
  | eq
  | ne
  | lt
  | le
  deriving DecidableEq, Repr

/-- The text before the number in the labels that the generator makes up. -/
inductive Mark
  | false
  | true
  | endMark
  | else
  | begin
  | skip
  deriving DecidableEq, Repr

/-- A label: `.L.<mark>.<n>` of the generator, `.L..<n>` of the parser, or `.L.return.<function>`. -/
inductive Label
  | counted (mark : Mark) (n : Nat)
  | unique (n : Nat)
  | ret
  deriving DecidableEq, Repr

/-- A case of a switch, `begin` to `end`; the number is that of its label. -/
structure Case where
  begin : Int
  endVal : Int
  label : Nat

mutual

/-- An expression. `num` has the bits of a floating constant in `bits`. -/
inductive Expr
  | null
  | num (ty : Ty) (val : Int) (bits : Nat)
  | cast (ty : Ty) (lhs : Expr)
  | neg (ty : Ty) (lhs : Expr)
  | bitnot (ty : Ty) (lhs : Expr)
  | not (ty : Ty) (lhs : Expr)
  | var (ty : Ty) (v : Var)
  | member (ty : Ty) (lhs : Expr) (mem : Member)
  | memzero (i size : Nat)
  | assign (ty : Ty) (lhs rhs : Expr)
  | comma (ty : Ty) (lhs rhs : Expr)
  | stmtExpr (ty : Ty) (body : Stmts)
  | logand (ty : Ty) (lhs rhs : Expr)
  | logor (ty : Ty) (lhs rhs : Expr)
  | cond (ty : Ty) (cond thn els : Expr)
  | addr (ty : Ty) (lhs : Expr)
  | deref (ty : Ty) (lhs : Expr)
  | funcall (ty : Ty) (lhs : Expr) (args : Args)
  | binary (op : BinOp) (ty : Ty) (lhs rhs : Expr)
  | unimplemented (ty : Ty)

/-- The arguments of a call. -/
inductive Args
  | nil
  | cons (arg : Expr) (next : Args)

/-- An expression that may be missing. -/
inductive ExprOpt
  | none
  | some (e : Expr)

/-- A statement. `break` and `continue` are `goto` to a label of the loop; the labels of the program are
given by their numbers. -/
inductive Stmt
  | ret (lhs : ExprOpt)
  | expr (lhs : Expr)
  | block (body : Stmts)
  | ifThen (cond : Expr) (thn : Stmt) (els : StmtOpt)
  | loop (init : StmtOpt) (cond inc : ExprOpt) (thn : Stmt) (brk cont : Nat)
  | goto (label : Nat)
  | label (label : Nat) (lhs : Stmt)
  | doWhile (thn : Stmt) (cond : Expr) (brk cont : Nat)
  | switch (cond : Expr) (cases : List Case) (default : Option Nat) (thn : Stmt) (brk : Nat)
  | case (label : Nat) (lhs : Stmt)
  | unimplemented

/-- A statement that may be missing. -/
inductive StmtOpt
  | none
  | some (stmt : Stmt)

/-- The statements of a block. -/
inductive Stmts
  | nil
  | cons (stmt : Stmt) (next : Stmts)

end

/-- The type of a node; the nodes without one have no value. -/
def Expr.ty : Expr → Ty
  | .null | .memzero _ _ => tyVoid
  | .num ty _ _ | .cast ty _ | .neg ty _ | .bitnot ty _ | .not ty _ | .var ty _ | .member ty _ _
  | .assign ty _ _ | .comma ty _ _ | .stmtExpr ty _ | .logand ty _ _ | .logor ty _ _ | .cond ty _ _ _
  | .addr ty _ | .deref ty _ | .funcall ty _ _ | .binary _ ty _ _ | .unimplemented ty => ty

/-- The types of the arguments. -/
def Args.types : Args → List Ty
  | .nil => []
  | .cons arg next => arg.ty :: next.types

end Slopix.Cc
