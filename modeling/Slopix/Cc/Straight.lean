import Mathlib.Data.Nat.Bitwise
import Slopix.Cc.Machine

/-!
# What single lines and straight code do

The step of one line seen from `sp`, the frame pointer and the kept part of the memory, and the weakest
precondition of lines without jumps.
-/

namespace Slopix.Cc

open Option BitVec Function

section

variable {keep : Mach → Int → Prop} {i : Insn} {m m' : Mach} {k : Int} {r : Nat} {w : BitVec 64}

theorem Insn.Does.pc (h : i.Does keep m m') : m'.pc = m.pc + 1 := by
  cases h with
  | blr hpc _ _ _ => exact hpc
  | _ => rfl

/-- A line of a function's body moves `sp` as it says, and leaves alone the frame pointer and what is kept
above `sp`. -/
theorem Insn.Does.frame (h : i.Does keep m m') (hmove : i.spMove = some k) (hfp : i.KeepsFrame) :
    m'.sp = m.sp + k ∧ m'.x 29 = m.x 29 ∧ ∀ b, keep m b → m.sp ≤ b → m'.mem b = m.mem b := by
  have hpush : ∀ v b, m.sp ≤ b → m.mem.put (m.sp - 16) 8 v b = m.mem b := fun v b hb =>
    Mem.put_of_not (by omega)
  cases h with
  | push | pushf =>
    obtain rfl : -16 = k := some.inj hmove
    exact ⟨rfl, rfl, fun b _ hb => hpush _ b hb⟩
  | pop =>
    obtain rfl : 16 = k := some.inj hmove
    exact ⟨rfl, update_of_ne (hfp _ rfl).ne' _ _, fun _ _ _ => rfl⟩
  | popf =>
    obtain rfl : 16 = k := some.inj hmove
    exact ⟨rfl, rfl, fun _ _ _ => rfl⟩
  | addSp n =>
    obtain rfl : (n : Int) = k := some.inj hmove
    exact ⟨rfl, rfl, fun _ _ _ => rfl⟩
  | addSpReg | subSp | subSpReg | movFp | stpFrame | ldpFrame => cases hmove
  | set hset hv =>
    obtain rfl : 0 = k := some.inj (hset.2.symm.trans hmove)
    exact ⟨(Int.add_zero _).symm, update_of_ne (hfp _ hset.1).ne' _ _, fun _ _ _ => rfl⟩
  | store _ hkeep | storef _ hkeep =>
    obtain rfl : 0 = k := some.inj hmove
    exact ⟨(Int.add_zero _).symm, rfl, fun b hb _ => Mem.put_of_not (hkeep b hb)⟩
  | @fp i m v d hi =>
    obtain rfl : 0 = k := some.inj hmove
    exact ⟨(Int.add_zero _).symm, update_of_ne (show 29 ≠ 0 by decide) v m.x, fun _ _ _ => rfl⟩
  | label | cmpImm | cmp | bcond =>
    obtain rfl : 0 = k := some.inj hmove
    exact ⟨(Int.add_zero _).symm, rfl, fun _ _ _ => rfl⟩
  | blr _ hsp hx hkeep =>
    obtain rfl : 0 = k := some.inj hmove
    exact ⟨hsp.trans (Int.add_zero _).symm, hx, fun b hb _ => hkeep b hb⟩

theorem Insn.Does.value_eq (h : i.Does keep m m') (hset : i.Sets r) (hv : i.value m = some w) :
    m' = { m with pc := m.pc + 1, x := update m.x r w } := by
  obtain ⟨hdest, hmove⟩ := hset
  cases h with
  | set hset' hv' =>
    obtain rfl := some.inj (hdest.symm.trans hset'.1)
    rw [hv' w hv]
  | pop => cases hmove
  | _ => cases hdest

/-! The lines that only a prologue or an epilogue has, and the other lines that move `sp`. -/

section

variable {n : Nat}

theorem Insn.Does.push_eq (h : (Insn.push r).Does keep m m') : m' =
    { m with pc := m.pc + 1, sp := m.sp - 16, mem := m.mem.put (m.sp - 16) 8 (m.reg r) } := by
  cases h with
  | push => rfl
  | set hset _ => cases hset.1

theorem Insn.Does.pushf_eq (h : (Insn.pushf r).Does keep m m') : m' =
    { m with pc := m.pc + 1, sp := m.sp - 16, mem := m.mem.put (m.sp - 16) 8 (m.d r) } := by
  cases h with
  | pushf => rfl
  | set hset _ => cases hset.1

theorem Insn.Does.pop_eq (h : (Insn.pop r).Does keep m m') : ∃ v, m.mem.Holds m.sp 8 v ∧ m' =
    { m with pc := m.pc + 1, sp := m.sp + 16, x := update m.x r v } := by
  cases h with
  | pop hv => exact ⟨_, hv, rfl⟩
  | set hset _ => cases hset.2

theorem Insn.Does.popf_eq (h : (Insn.popf r).Does keep m m') : ∃ v, m.mem.Holds m.sp 8 v ∧ m' =
    { m with pc := m.pc + 1, sp := m.sp + 16, d := update m.d r v } := by
  cases h with
  | popf hv => exact ⟨_, hv, rfl⟩
  | set hset _ => cases hset.1

theorem Insn.Does.addSp_eq (h : (Insn.addSp n).Does keep m m') :
    m' = { m with pc := m.pc + 1, sp := m.sp + n } := by
  cases h with
  | addSp => rfl
  | set hset _ => cases hset.1

theorem Insn.Does.addSpReg_eq (h : (Insn.addSpReg r).Does keep m m') :
    m' = { m with pc := m.pc + 1, sp := m.sp + (m.reg r).toNat } := by
  cases h with
  | addSpReg => rfl
  | set hset _ => cases hset.1

theorem Insn.Does.subSp_eq (h : (Insn.subSp n).Does keep m m') :
    m' = { m with pc := m.pc + 1, sp := m.sp - n } := by
  cases h with
  | subSp => rfl
  | set hset _ => cases hset.1

theorem Insn.Does.subSpReg_eq (h : (Insn.subSpReg r).Does keep m m') :
    m' = { m with pc := m.pc + 1, sp := m.sp - (m.reg r).toNat } := by
  cases h with
  | subSpReg => rfl
  | set hset _ => cases hset.1

theorem Insn.Does.movFp_eq (h : Insn.movFp.Does keep m m') :
    m' = { m with pc := m.pc + 1, x := update m.x 29 (BitVec.ofInt 64 m.sp) } := by
  cases h with
  | movFp => rfl
  | set hset _ => cases hset.1

theorem Insn.Does.stpFrame_eq (h : Insn.stpFrame.Does keep m m') : m' =
    { m with pc := m.pc + 1, sp := m.sp - 16
             mem := (m.mem.put (m.sp - 16) 8 (m.x 29)).put (m.sp - 8) 8 (m.x 30) } := by
  cases h with
  | stpFrame => rfl
  | set hset _ => cases hset.1

theorem Insn.Does.ldpFrame_eq (h : Insn.ldpFrame.Does keep m m') :
    ∃ v v', m.mem.Holds m.sp 8 v ∧ m.mem.Holds (m.sp + 8) 8 v' ∧ m' =
      { m with pc := m.pc + 1, sp := m.sp + 16, x := update (update m.x 29 v) 30 v' } := by
  cases h with
  | ldpFrame hv hw => exact ⟨_, _, hv, hw, rfl⟩
  | set hset _ => cases hset.1

end

end

/-! ## Straight code -/

/-- The weakest precondition of lines without jumps. -/
def Wp (keep : Mach → Int → Prop) : List Insn → (Mach → Prop) → Mach → Prop
  | [], Q, m => Q m
  | i :: is, Q, m => ∀ m', i.Does keep m m' → Wp keep is Q m'

section

variable {keep : Mach → Int → Prop} {is is' : List Insn} {Q R : Mach → Prop} {m m' : Mach} {r n : Nat}

theorem Wp.append (h : Wp keep is (Wp keep is' Q) m) : Wp keep (is ++ is') Q m := by
  induction is generalizing m with
  | nil => exact h
  | cons i is ih => exact fun m' hdoes => ih (h m' hdoes)

theorem Wp.mono (h : Wp keep is Q m) (hQ : ∀ m, Q m → R m) : Wp keep is R m := by
  induction is generalizing m with
  | nil => exact hQ m h
  | cons i is ih => exact fun m' hdoes => ih (h m' hdoes)

theorem Wp.step {i : Insn} {k : Nat} (h : Wp keep (is.drop k) Q m) (hi : is[k]? = some i)
    (hdoes : i.Does keep m m') : Wp keep (is.drop (k + 1)) Q m' := by
  obtain ⟨hk, hget⟩ := List.getElem?_eq_some_iff.1 hi
  rw [List.drop_eq_getElem_cons hk, hget] at h
  exact h m' hdoes

theorem movk_movz {n : Nat} (hn : n < 2 ^ 32) :
    (BitVec.ofNat 64 (n % 65536) &&& ~~~(0xFFFF0000#64)) ||| BitVec.ofNat 64 (n / 65536 % 65536) <<< 16 =
      BitVec.ofNat 64 n := by
  have hmask : (0xFFFF0000#64) = BitVec.ofNat 64 ((2 ^ 16 - 1) <<< 16) := rfl
  have hlow : n % 65536 = n % 2 ^ 16 := rfl
  have hhigh : n / 65536 % 65536 = n / 2 ^ 16 % 2 ^ 16 := rfl
  rw [hmask, hlow, hhigh]
  refine eq_of_getLsbD_eq fun j hj => ?_
  simp only [getLsbD_or, getLsbD_and, getLsbD_not, getLsbD_ofNat,
    getLsbD_shiftLeft, Nat.testBit_mod_two_pow, Nat.testBit_shiftLeft, Nat.testBit_two_pow_sub_one,
    Nat.testBit_div_two_pow, hj]
  by_cases hj16 : j < 16
  · simp [hj16, Nat.not_le_of_lt hj16]
  have hle : 16 ≤ j := Nat.le_of_not_lt hj16
  have hback : j - 16 + 16 = j := Nat.sub_add_cancel hle
  by_cases hj32 : j < 32
  · have hsub : j - 16 < 16 := by omega
    have hsub' : j - 16 < 64 := by omega
    simp [hj16, hle, hback, hsub, hsub']
  · have hzero : n.testBit j = false := Nat.testBit_lt_two_pow
      (Nat.lt_of_lt_of_le hn (Nat.pow_le_pow_right (by decide) (Nat.le_of_not_lt hj32)))
    simp [hj16, hzero, hback]

/-- `load_const` of a number of 32 bits sets the register to it. -/
theorem wp_loadConst (hr : r ≠ 31) (hn : n < 2 ^ 32)
    (h : ∀ pc, Q { m with pc := pc, x := update m.x r (BitVec.ofNat 64 n) }) :
    Wp keep (loadConst r n) Q m := by
  have hmod : (n : Int) % 4294967296 = n := by omega
  unfold loadConst
  rw [hmod]
  by_cases hsmall : (n : Int) ≤ 65535
  · rw [if_pos hsmall]
    intro m' hdoes
    rw [hdoes.value_eq ⟨rfl, rfl⟩ rfl]
    exact h _
  have hlow : ((n : Int) % 65536).toNat = n % 65536 := by omega
  have hhigh : ((n : Int) / 65536).toNat = n / 65536 := by omega
  rw [if_neg hsmall, hlow, hhigh]
  intro m1 hmovz m2 hmovk
  rw [hmovk.value_eq ⟨rfl, rfl⟩ rfl, hmovz.value_eq ⟨rfl, rfl⟩ rfl]
  simp only [Mach.reg, if_neg hr, update_self, update_idem, movk_movz hn]
  exact h _

end

end Slopix.Cc
