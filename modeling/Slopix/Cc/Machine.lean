import Mathlib.Data.BitVec
import Slopix.Cc.Depth

/-!
# The machine under the emitted code

Registers of 64 bits, a stack pointer and bytes of memory. Exact is what moves `sp`, what is pushed, popped and
stored, and the values that addresses and arguments are made of. The value that any other instruction puts
in its register is left open, and so are the flags: a conditional branch may go either way.

A store and a called function leave some addresses alone, which depend on the state (`keep`): the program is
taken not to overwrite them through its pointers.
-/

namespace Slopix.Cc

open BitVec

/-! ## Memory -/

/-- Bytes by address. -/
abbrev Mem : Type := Int → BitVec 8

/-- The memory with the low `n` bytes of a value at an address. -/
def Mem.put (mem : Mem) (a : Int) (n : Nat) (v : BitVec 64) : Mem := fun b =>
  if a ≤ b ∧ b < a + n then (v >>> (8 * (b - a).toNat)).setWidth 8 else mem b

/-- The `n` bytes at an address are the low bytes of a value. -/
def Mem.Holds (mem : Mem) (a : Int) (n : Nat) (v : BitVec 64) : Prop :=
  ∀ i, i < n → mem (a + i) = (v >>> (8 * i)).setWidth 8

/-- Bytes as a number, the first one lowest. -/
def Mem.get (mem : Mem) (a : Int) : Nat → BitVec 64
  | 0 => 0
  | n + 1 => mem.get a n ||| (mem (a + n)).setWidth 64 <<< (8 * n)

section

variable {mem mem' : Mem} {a b : Int} {k n : Nat} {v w : BitVec 64}

/-- What is stored is there. -/
theorem Mem.holds_put (mem : Mem) (a : Int) (n : Nat) (v : BitVec 64) : (mem.put a n v).Holds a n v := by
  intro i hi
  have hin : a ≤ a + i ∧ a + i < a + n := by omega
  simp [Mem.put, hin]

theorem Mem.put_of_not (h : ¬ (a ≤ b ∧ b < a + n)) : mem.put a n v b = mem b := if_neg h

theorem Mem.Holds.mono (h : mem.Holds a n v) (hk : k ≤ n) : mem.Holds a k v := fun i hi =>
  h i (lt_of_lt_of_le hi hk)

theorem Mem.Holds.keep (h : mem.Holds a n v) (hsame : ∀ b, a ≤ b → b < a + n → mem' b = mem b) :
    mem'.Holds a n v := by
  intro i hi
  rw [hsame _ (by omega) (by omega)]
  exact h i hi

theorem Mem.Holds.put (h : mem.Holds a n v) (hout : a + n ≤ b ∨ b + k ≤ a) :
    (mem.put b k w).Holds a n v :=
  h.keep fun _ _ _ => Mem.put_of_not (by omega)

theorem Mem.Holds.unique (h : mem.Holds a 8 v) (h' : mem.Holds a 8 w) : v = w := by
  refine eq_of_getLsbD_eq fun j hj => ?_
  have hbyte := congrArg (fun t => BitVec.getLsbD t (j % 8))
    ((h (j / 8) (by omega)).symm.trans (h' (j / 8) (by omega)))
  have hbit : j % 8 < 8 := Nat.mod_lt _ (by decide)
  have hj' : 8 * (j / 8) + j % 8 = j := Nat.div_add_mod j 8
  simpa [hbit, hj'] using hbyte

theorem Mem.getLsbD_get (i : Nat) (hn : n ≤ 8) :
    (mem.get a n).getLsbD i = (decide (i < 8 * n) && (mem (a + (i / 8 : Nat))).getLsbD (i % 8)) := by
  induction n with
  | zero => simp [Mem.get]
  | succ n ih =>
    rw [Mem.get, getLsbD_or, ih (by omega), getLsbD_shiftLeft, getLsbD_setWidth]
    rcases lt_or_ge i (8 * n) with hlt | hge
    · simp [hlt, show i < 8 * (n + 1) by omega]
    rcases lt_or_ge i (8 * (n + 1)) with hin | hout
    · have hdiv : i / 8 = n := by omega
      have hmod : i % 8 = i - 8 * n := by omega
      simp [not_lt.2 hge, hin, hdiv, hmod, show i < 64 by omega, show i - 8 * n < 64 by omega]
    · have hzero : (mem (a + n)).getLsbD (i - 8 * n) = false := getLsbD_of_ge _ _ (by omega)
      simp [not_lt.2 hge, not_lt.2 hout, hzero]

theorem Mem.Holds.get (h : mem.Holds a n v) (hn : n ≤ 8) : mem.get a n = (v.setWidth (8 * n)).setWidth 64 := by
  refine eq_of_getLsbD_eq fun i hi => ?_
  rw [Mem.getLsbD_get i hn, getLsbD_setWidth, getLsbD_setWidth]
  rcases lt_or_ge i (8 * n) with hlt | hge
  · have hbit : i % 8 < 8 := Nat.mod_lt i (by decide)
    have hplace : 8 * (i / 8) + i % 8 = i := Nat.div_add_mod i 8
    rw [h (i / 8) (by omega)]
    simp [hlt, hi, hbit, hplace]
  · simp [not_lt.2 hge]

/-- What is read is what is there. -/
theorem Mem.holds_get (mem : Mem) (a : Int) (n : Nat) (hn : n ≤ 8) : mem.Holds a n (mem.get a n) := by
  intro i hi
  refine eq_of_getLsbD_eq fun j hj => ?_
  rw [getLsbD_setWidth, getLsbD_ushiftRight, Mem.getLsbD_get _ hn]
  have hdiv : (8 * i + j) / 8 = i := by omega
  have hmod : (8 * i + j) % 8 = j := by omega
  simp [hj, hdiv, hmod, show 8 * i + j < 8 * n by omega]

end

/-! ## States -/

/-- The registers and the memory; `x31` is the zero register. -/
structure Mach where
  pc : Nat
  sp : Int
  x : Nat → BitVec 64
  d : Nat → BitVec 64
  mem : Mem

/-- The value of a general register. -/
def Mach.reg (m : Mach) (r : Nat) : BitVec 64 := if r = 31 then 0 else m.x r

/-- The bytes of a general register that a store writes. -/
def StoreOp.size : StoreOp → Nat
  | .strb => 1
  | .strh => 2
  | .strW => 4
  | .strX => 8

/-- The bytes of a floating register. -/
def Prec.size : Prec → Nat
  | .s => 4
  | .d => 8

/-- The value that an instruction puts in its register; `none` leaves it open. -/
def Insn.value (m : Mach) : Insn → Option (BitVec 64)
  | .movImm .x _ v => some (BitVec.ofInt 64 v)
  | .movImm .w _ v => some ((BitVec.ofInt 32 v).setWidth 64)
  | .movz _ v => some (BitVec.ofNat 64 v)
  | .movk .x r v => some ((m.reg r &&& ~~~(0xFFFF0000#64)) ||| BitVec.ofNat 64 (v % 65536) <<< 16)
  | .mov .x _ rn => some (m.reg rn)
  | .aluImm .add .x _ rn n => some (m.reg rn + BitVec.ofInt 64 n)
  | .aluImm .sub .x _ rn n => some (m.reg rn - BitVec.ofInt 64 n)
  | .alu .add .x _ rn rm => some (m.reg rn + m.reg rm)
  | .alu .sub .x _ rn rm => some (m.reg rn - m.reg rm)
  | _ => none

/-- An instruction that sets a general register and does nothing else. -/
def Insn.Sets (i : Insn) (r : Nat) : Prop := i.dest = some r ∧ i.spMove = some 0

/-- What an instruction does, jumps apart. -/
inductive Insn.Does (keep : Mach → Int → Prop) : Insn → Mach → Mach → Prop
  | push (r : Nat) (m : Mach) : Does keep (.push r) m
      { m with pc := m.pc + 1, sp := m.sp - 16, mem := m.mem.put (m.sp - 16) 8 (m.reg r) }
  | pop {r : Nat} {m : Mach} {v : BitVec 64} (hv : m.mem.Holds m.sp 8 v) : Does keep (.pop r) m
      { m with pc := m.pc + 1, sp := m.sp + 16, x := Function.update m.x r v }
  | pushf (r : Nat) (m : Mach) : Does keep (.pushf r) m
      { m with pc := m.pc + 1, sp := m.sp - 16, mem := m.mem.put (m.sp - 16) 8 (m.d r) }
  | popf {r : Nat} {m : Mach} {v : BitVec 64} (hv : m.mem.Holds m.sp 8 v) : Does keep (.popf r) m
      { m with pc := m.pc + 1, sp := m.sp + 16, d := Function.update m.d r v }
  | addSp (n : Nat) (m : Mach) : Does keep (.addSp n) m { m with pc := m.pc + 1, sp := m.sp + n }
  | addSpReg (r : Nat) (m : Mach) : Does keep (.addSpReg r) m
      { m with pc := m.pc + 1, sp := m.sp + (m.reg r).toNat }
  | subSp (n : Nat) (m : Mach) : Does keep (.subSp n) m { m with pc := m.pc + 1, sp := m.sp - n }
  | subSpReg (r : Nat) (m : Mach) : Does keep (.subSpReg r) m
      { m with pc := m.pc + 1, sp := m.sp - (m.reg r).toNat }
  | movFp (m : Mach) : Does keep .movFp m
      { m with pc := m.pc + 1, x := Function.update m.x 29 (BitVec.ofInt 64 m.sp) }
  | stpFrame (m : Mach) : Does keep .stpFrame m
      { m with pc := m.pc + 1, sp := m.sp - 16
               mem := (m.mem.put (m.sp - 16) 8 (m.x 29)).put (m.sp - 8) 8 (m.x 30) }
  | ldpFrame {m : Mach} {v w : BitVec 64} (hv : m.mem.Holds m.sp 8 v) (hw : m.mem.Holds (m.sp + 8) 8 w) :
      Does keep .ldpFrame m
        { m with pc := m.pc + 1, sp := m.sp + 16
                 x := Function.update (Function.update m.x 29 v) 30 w }
  | set {i : Insn} {r : Nat} {m : Mach} {v : BitVec 64} (hset : i.Sets r)
      (hv : ∀ w, i.value m = some w → v = w) :
      Does keep i m { m with pc := m.pc + 1, x := Function.update m.x r v }
  | store {op : StoreOp} {rt rn : Nat} {off a : Int} {m : Mach}
      (ha : a = (m.reg rn + BitVec.ofInt 64 off).toNat)
      (hkeep : ∀ b, keep m b → ¬ (a ≤ b ∧ b < a + op.size)) : Does keep (.store op rt rn off) m
        { m with pc := m.pc + 1, mem := m.mem.put a op.size (m.reg rt) }
  | storef {p : Prec} {r rn : Nat} {off a : Int} {m : Mach}
      (ha : a = (m.reg rn + BitVec.ofInt 64 off).toNat)
      (hkeep : ∀ b, keep m b → ¬ (a ≤ b ∧ b < a + p.size)) : Does keep (.fp (.store p r rn off)) m
        { m with pc := m.pc + 1, mem := m.mem.put a p.size (m.d r) }
  /-- Other floating instructions set `x0` or floating registers. -/
  | fp {i : FpInsn} {m : Mach} {v : BitVec 64} {d : Nat → BitVec 64} (hi : ∀ p r rn off, i ≠ .store p r rn off) :
      Does keep (.fp i) m { m with pc := m.pc + 1, x := Function.update m.x 0 v, d := d }
  | label (l : Label) (m : Mach) : Does keep (.label l) m { m with pc := m.pc + 1 }
  | cmpImm (rn : Nat) (n : Int) (m : Mach) : Does keep (.cmpImm rn n) m { m with pc := m.pc + 1 }
  | cmp (wd : Width) (rn rm : Nat) (m : Mach) : Does keep (.cmp wd rn rm) m { m with pc := m.pc + 1 }
  | bcond (c : Cond) (l : Label) (m : Mach) : Does keep (.bcond c l) m { m with pc := m.pc + 1 }
  /-- A called function gives `sp` and `x29` back. -/
  | blr {rn : Nat} {m m' : Mach} (hpc : m'.pc = m.pc + 1) (hsp : m'.sp = m.sp) (hfp : m'.x 29 = m.x 29)
      (hkeep : ∀ b, keep m b → m'.mem b = m.mem b) : Does keep (.blr rn) m m'

/-- A step of the code: the line at `pc`, or a jump to a line with the label that it names. -/
inductive Step (keep : Mach → Int → Prop) (code : List Item) : Mach → Mach → Prop
  | next {m m' : Mach} {i : Item} (hi : code[m.pc]? = some i) (h : i.insn.Does keep m m') : Step keep code m m'
  | jump {m : Mach} {i j : Item} {l : Label} {q : Nat} (hi : code[m.pc]? = some i)
      (ht : i.insn.target = some l) (hj : code[q]? = some j) (hl : j.insn = .label l) :
      Step keep code m { m with pc := q }

/-- A run of `n` steps. -/
def Run (keep : Mach → Int → Prop) (code : List Item) (σ : Nat → Mach) (n : Nat) : Prop :=
  ∀ k, k < n → Step keep code (σ k) (σ (k + 1))

end Slopix.Cc
