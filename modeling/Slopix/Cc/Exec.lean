import Slopix.Cc.Machine

/-!
# Executing integer instructions

The values and flags that the machine leaves open, for the instructions on general registers. What an instruction does
here is among what it may do on the machine (`exec_does`).
-/

namespace Slopix.Cc

open Option

/-! ## Values -/

/-- The condition flags. -/
structure Flags where
  n : Bool
  z : Bool
  c : Bool
  v : Bool
  deriving DecidableEq, Repr

/-- The flags of `a - b`. -/
def subFlags {w : Nat} (a b : BitVec w) : Flags :=
  ⟨(a - b).msb, a - b == 0, decide (b.toNat ≤ a.toNat), a.msb != b.msb && (a - b).msb != a.msb⟩

/-- Whether a condition holds of the flags. -/
def Cond.holds (f : Flags) : Cond → Bool
  | .eq => f.z
  | .ne => !f.z
  | .lt => f.n != f.v
  | .le => f.z || f.n != f.v
  | .lo => !f.c
  | .ls => !f.c || f.z
  | .mi => f.n

/-- An operation on values of one width. -/
def AluOp.apply {w : Nat} (a b : BitVec w) : AluOp → BitVec w
  | .add => a + b
  | .sub => a - b
  | .mul => a * b
  | .udiv => a.udiv b
  | .sdiv => a.sdiv b
  | .and => a &&& b
  | .orr => a ||| b
  | .eor => a ^^^ b
  | .bic => a &&& ~~~b
  | .lsl => a <<< (b.toNat % w)
  | .lsr => a >>> (b.toNat % w)
  | .asr => a.sshiftRight (b.toNat % w)

/-- An operation on registers; the 32-bit view clears the upper half. -/
def AluOp.run (op : AluOp) (a b : BitVec 64) : Width → BitVec 64
  | .x => op.apply a b
  | .w => (op.apply (a.setWidth 32) (b.setWidth 32)).setWidth 64

/-- A value taken for a width. -/
def Width.cut (v : BitVec 64) : Width → BitVec 64
  | .x => v
  | .w => (v.setWidth 32).setWidth 64

/-- Sign or zero extension of the low bits. -/
def Ext.apply (v : BitVec 64) : Ext → BitVec 64
  | .sxtb => (v.setWidth 8).signExtend 64
  | .sxth => (v.setWidth 16).signExtend 64
  | .sxtw => (v.setWidth 32).signExtend 64
  | .uxtb => (v.setWidth 8).setWidth 64
  | .uxth => (v.setWidth 16).setWidth 64

/-- The bytes that a load reads. -/
def LoadOp.size : LoadOp → Nat
  | .ldrb | .ldrsb => 1
  | .ldrh | .ldrsh => 2
  | .ldrW | .ldrsw => 4
  | .ldrX => 8

/-- What a load makes of the bytes. -/
def LoadOp.extend (v : BitVec 64) : LoadOp → BitVec 64
  | .ldrsb => Ext.apply v .sxtb
  | .ldrsh => Ext.apply v .sxth
  | .ldrsw => Ext.apply v .sxtw
  | _ => v

/-- The value that an instruction puts in its register. -/
def Insn.result (m : Mach) (f : Flags) : Insn → Option (BitVec 64)
  | .movImm .x _ v => some (BitVec.ofInt 64 v)
  | .movImm .w _ v => some ((BitVec.ofInt 32 v).setWidth 64)
  | .movz _ v => some (BitVec.ofNat 64 v)
  | .movk wd r v => some (wd.cut ((m.reg r &&& ~~~(0xFFFF0000#64)) ||| BitVec.ofNat 64 (v % 65536) <<< 16))
  | .ldrLit _ v => some (BitVec.ofInt 64 v)
  | .mov wd _ rn => some (wd.cut (m.reg rn))
  | .alu op wd _ rn rm => some (op.run (m.reg rn) (m.reg rm) wd)
  | .aluImm op wd _ rn n => some (op.run (m.reg rn) (BitVec.ofInt 64 n) wd)
  | .msub wd _ rn rm ra => some (wd.cut (m.reg ra - m.reg rn * m.reg rm))
  | .neg _ rn => some (-m.reg rn)
  | .mvn _ rn => some (~~~m.reg rn)
  | .ext e wd _ rn => some (wd.cut (e.apply (m.reg rn)))
  | .cset _ _ c => some (if c.holds f then 1 else 0)
  | .load op _ rn off => some (op.extend (m.mem.get (m.reg rn + BitVec.ofInt 64 off).toNat op.size))
  | .loadSp _ => some (m.mem.get m.sp 8)
  | _ => none

/-! ## Instructions -/

/-- The machine with its flags. -/
structure Cpu where
  mach : Mach
  flags : Flags

namespace Cpu

/-- Write a register and go on. -/
def set (c : Cpu) (r : Nat) (v : BitVec 64) : Cpu :=
  { c with mach := { c.mach with pc := c.mach.pc + 1, x := Function.update c.mach.x r v } }

/-- A comparison. -/
def compare (c : Cpu) (f : Flags) : Cpu := ⟨{ c.mach with pc := c.mach.pc + 1 }, f⟩

/-- A store. -/
def put (c : Cpu) (a : Int) (n : Nat) (v : BitVec 64) : Cpu :=
  { c with mach := { c.mach with pc := c.mach.pc + 1, mem := c.mach.mem.put a n v } }

/-- A slot is taken off the stack. -/
def drop (c : Cpu) : Cpu := { c with mach := { c.mach with sp := c.mach.sp + 16 } }

section

variable (c : Cpu) (r r' : Nat) (v : BitVec 64)

theorem reg_set : (c.set r v).mach.reg r' = if r' = 31 then 0 else if r' = r then v else c.mach.reg r' := by
  simp only [Mach.reg, set, Function.update_apply]
  split
  · rfl
  · rfl

@[simp] theorem mem_set : (c.set r v).mach.mem = c.mach.mem := rfl

@[simp] theorem sp_set : (c.set r v).mach.sp = c.mach.sp := rfl

@[simp] theorem reg_drop : c.drop.mach.reg r = c.mach.reg r := rfl

@[simp] theorem mem_drop : c.drop.mach.mem = c.mach.mem := rfl

@[simp] theorem reg_put (a : Int) (n : Nat) : (c.put a n v).mach.reg r = c.mach.reg r := rfl

@[simp] theorem mem_put (a : Int) (n : Nat) : (c.put a n v).mach.mem = c.mach.mem.put a n v := rfl

end

end Cpu

/-- Execute an instruction on general registers; `none` for the others. -/
def exec (i : Insn) (c : Cpu) : Option Cpu :=
  match i with
  | .cmpImm rn n => some (c.compare (subFlags (c.mach.reg rn) (BitVec.ofInt 64 n)))
  | .cmp .x rn rm => some (c.compare (subFlags (c.mach.reg rn) (c.mach.reg rm)))
  | .cmp .w rn rm => some (c.compare (subFlags ((c.mach.reg rn).setWidth 32) ((c.mach.reg rm).setWidth 32)))
  | .store op rt rn off =>
    some (c.put (c.mach.reg rn + BitVec.ofInt 64 off).toNat op.size (c.mach.reg rt))
  | .pop r => some (c.set r (c.mach.mem.get c.mach.sp 8)).drop
  | i =>
    match i.dest, i.result c.mach c.flags with
    | some r, some v => some (c.set r v)
    | _, _ => none

/-- Straight code. -/
def execs (is : List Insn) (c : Cpu) : Option Cpu := is.foldlM (fun c i => exec i c) c

section

variable {i : Insn} {c c' : Cpu} {is is' : List Insn}

theorem exec_set {r : Nat} {v : BitVec 64} (hdest : i.dest = some r) (hv : i.result c.mach c.flags = some v) :
    exec i c = some (c.set r v) := by
  cases i <;> simp_all [exec, Insn.result, Insn.dest]

@[simp] theorem execs_nil (c : Cpu) : execs [] c = some c := rfl

theorem execs_cons (i : Insn) (is : List Insn) (c : Cpu) : execs (i :: is) c = (exec i c).bind (execs is) := by
  rfl

theorem execs_append (is is' : List Insn) (c : Cpu) : execs (is ++ is') c = (execs is c).bind (execs is') := by
  unfold execs
  rw [List.foldlM_append]
  rfl

theorem Insn.result_of_value {m : Mach} {f : Flags} {w : BitVec 64} (h : i.value m = some w) : i.result m f = some w := by
  unfold Insn.value at h
  split at h
  case h_10 => cases h
  all_goals exact h

theorem exec_does (h : exec i c = some c') : i.Does (fun _ _ => False) c.mach c'.mach := by
  unfold exec at h
  split at h
  · obtain rfl := some.inj h
    exact .cmpImm _ _ _
  · obtain rfl := some.inj h
    exact .cmp _ _ _ _
  · obtain rfl := some.inj h
    exact .cmp _ _ _ _
  · obtain rfl := some.inj h
    exact .store rfl fun _ hkeep => hkeep.elim
  · obtain rfl := some.inj h
    exact .pop (Mem.holds_get _ _ 8 (Nat.le_refl 8))
  split at h
  · rename_i r v hdest hres
    obtain rfl := some.inj h
    have hsets : i.Sets r := by
      refine ⟨hdest, ?_⟩
      cases i <;> simp_all [Insn.spMove, Insn.result, Insn.dest]
    refine .set hsets fun w hw => ?_
    exact some.inj (hres.symm.trans (Insn.result_of_value hw))
  · cases h

/-- An instruction that is executed is followed by the next one. -/
theorem exec_pc (h : exec i c = some c') : c'.mach.pc = c.mach.pc + 1 := by
  unfold exec at h
  split at h
  case h_6 =>
    split at h
    · obtain rfl := some.inj h
      rfl
    · cases h
  all_goals
    obtain rfl := some.inj h
    rfl

end

end Slopix.Cc
