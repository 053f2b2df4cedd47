import Slopix.Cc.Convention

/-!
# Arguments that do not arrive

Where the two sides do not fit, a call with constant arguments on a stack full of ones shows it: a parameter is
read from the upper half of a slot, an argument is fetched from the slot of a named one, or 0 arrives for the
value 2 of a `long double`.
-/

namespace Slopix.Cc

open Gen List Function

/-! ## Runs of straight lines -/

/-- Every line that is no jump can be executed, if the memory may be written everywhere. -/
theorem exists_does {i : Insn} (h : i.Plain) (m : Mach) : ∃ m', i.Does anywhere m m' := by
  have hset : ∀ {i : Insn} {r : Nat}, i.Sets r → ∃ m', i.Does anywhere m m' := fun {i r} hset =>
    ⟨_, .set (v := (i.value m).getD 0) hset fun w hw => by rw [hw]; rfl⟩
  cases i with
  | label l => exact ⟨_, .label l m⟩
  | b l => cases h.1
  | bcond c l => cases h.1
  | push r => exact ⟨_, .push r m⟩
  | pop r => exact ⟨_, .pop (Mem.holds_get m.mem m.sp 8 (by decide))⟩
  | pushf r => exact ⟨_, .pushf r m⟩
  | popf r => exact ⟨_, .popf (Mem.holds_get m.mem m.sp 8 (by decide))⟩
  | addSp n => exact ⟨_, .addSp n m⟩
  | addSpReg r => exact ⟨_, .addSpReg r m⟩
  | subSp n => exact ⟨_, .subSp n m⟩
  | subSpReg r => exact ⟨_, .subSpReg r m⟩
  | movFp => exact ⟨_, .movFp m⟩
  | stpFrame => exact ⟨_, .stpFrame m⟩
  | ldpFrame =>
    exact ⟨_, .ldpFrame (Mem.holds_get m.mem m.sp 8 (by decide)) (Mem.holds_get m.mem (m.sp + 8) 8 (by decide))⟩
  | movImm | movz | movk | ldrLit | mov | alu | aluImm | msub | neg | mvn | ext | cset | load | loadSp | adrp
  | addLo12 => exact hset ⟨rfl, rfl⟩
  | cmpImm rn n => exact ⟨_, .cmpImm rn n m⟩
  | cmp wd rn rm => exact ⟨_, .cmp wd rn rm m⟩
  | store op rt rn off => exact ⟨_, .store rfl fun _ hb => hb.elim⟩
  | blr rn => exact ⟨{ m with pc := m.pc + 1 }, .blr rfl rfl rfl fun _ _ => rfl⟩
  | ret => exact absurd rfl h.2
  | fp i =>
    by_cases hstore : ∃ p r rn off, i = .store p r rn off
    · obtain ⟨p, r, rn, off, rfl⟩ := hstore
      exact ⟨_, .storef rfl fun _ hb => hb.elim⟩
    · exact ⟨_, .fp (v := 0) (d := m.d) fun p r rn off hi => hstore ⟨p, r, rn, off, hi⟩⟩

theorem exists_steps {code l : List Item} {m : Mach} (hl : l <+: code.drop m.pc)
    (hplain : ∀ i ∈ l, i.insn.Plain) : ∃ m', Steps anywhere code l.length m m' := by
  induction l generalizing m with
  | nil => exact ⟨m, rfl⟩
  | cons i l ih =>
    obtain ⟨m1, hdoes⟩ := exists_does (hplain i mem_cons_self) m
    have hrest : l <+: code.drop m1.pc := by
      rw [hdoes.pc]
      exact @prefix_right code [i] l m.pc hl
    obtain ⟨m', hsteps⟩ := ih hrest fun j hj => hplain j (mem_cons_of_mem _ hj)
    exact ⟨m', m1, .next (head_placed hl) hdoes, hsteps⟩

/-- Lines run one after the other. -/
inductive Chain (keep : Mach → Int → Prop) : List Insn → Mach → Mach → Prop
  | nil (m : Mach) : Chain keep [] m m
  | cons {i : Insn} {is : List Insn} {m m1 m' : Mach} (h : i.Does keep m m1) (hrest : Chain keep is m1 m') :
      Chain keep (i :: is) m m'

section

variable {keep : Mach → Int → Prop} {is is' : List Insn} {m m1 m' : Mach} {code l : List Item}

theorem Chain.pc (h : Chain keep is m m') : m'.pc = m.pc + is.length := by
  induction h with
  | nil => rfl
  | cons hdoes _ ih =>
    rw [ih, hdoes.pc, length_cons]
    omega

/-- Lines that run through are steps of the machine. -/
theorem Chain.steps (h : Chain keep (l.map Item.insn) m m') (hl : l <+: code.drop m.pc) :
    Steps keep code l.length m m' := by
  induction l generalizing m with
  | nil =>
    cases h
    rfl
  | cons i l ih =>
    cases h with
    | @cons _ _ _ m1 _ hdoes hrest =>
      refine ⟨m1, .next (head_placed hl) hdoes, ih hrest ?_⟩
      rw [hdoes.pc]
      exact @prefix_right code [i] l m.pc hl

theorem Chain.evaluates {top : Int} (h : Chain (temporaries m.sp top) (l.map Item.insn) m m')
    (hl : l <+: code.drop m.pc) (hmute : ∀ i ∈ l, i.insn.mentions = none) : Evaluates code top l m m' := by
  refine ⟨hl, ?_, by rw [h.pc, length_map]⟩
  have hrun : ∀ (sp : Int) (l : List Item) (m : Mach), Chain (temporaries sp top) (l.map Item.insn) m m' →
      l <+: code.drop m.pc → (∀ i ∈ l, i.insn.mentions = none) → ∃ σ : Nat → Mach, σ 0 = m ∧ σ l.length = m' ∧
        ∀ k, k < l.length → (σ k).pc = m.pc + k ∧ Step (temporaries sp top) code (σ k) (σ (k + 1)) ∧
          LevelStep code (σ k) (σ (k + 1)) := by
    intro sp l
    induction l with
    | nil =>
      intro m h _ _
      cases h
      exact ⟨fun _ => m', rfl, rfl, fun k hk => absurd hk (Nat.not_lt_zero k)⟩
    | cons i l ih =>
      intro m h hl hmute
      cases h with
      | @cons _ _ _ m1 _ hdoes hrest =>
        have hget := head_placed hl
        have hl1 : l <+: code.drop m1.pc := by
          rw [hdoes.pc]
          exact @prefix_right code [i] l m.pc hl
        obtain ⟨σ, h0, hend, hall⟩ := ih m1 hrest hl1 fun j hj => hmute j (mem_cons_of_mem _ hj)
        refine ⟨fun k => Nat.casesOn k m σ, rfl, hend, fun k hk => ?_⟩
        cases k with
        | zero =>
          show m.pc = m.pc + 0 ∧ Step _ code m (σ 0) ∧ LevelStep code m (σ 0)
          rw [h0]
          refine ⟨rfl, .next hget hdoes, fun j _ lab hj ht => ?_⟩
          obtain rfl := Option.some.inj (hget.symm.trans hj)
          have hnone := hmute i mem_cons_self
          rw [Insn.mentions_of_target ht] at hnone
          cases hnone
        | succ k =>
          obtain ⟨hpc, hstep, hlevel⟩ := hall k (by simpa using hk)
          exact ⟨by rw [hpc, hdoes.pc]; omega, hstep, hlevel⟩
  obtain ⟨σ, h0, hend, hall⟩ := hrun m.sp l m h hl hmute
  refine ⟨σ, l.length, h0, hend, fun k hk => ?_⟩
  obtain ⟨hpc, hstep, hlevel⟩ := hall k hk
  exact ⟨by omega, hstep, hlevel⟩

end

/-! ## What pushes leave alone -/

/-- The upper halves of the slots, on both sides of `sp`, are as they were. -/
structure Untouched (m m' : Mach) : Prop where
  sp : m'.sp % 16 = m.sp % 16
  mem : ∀ b, 8 ≤ (b - m.sp) % 16 → m'.mem b = m.mem b

theorem Untouched.of_eq {m m' : Mach} (hsp : m'.sp = m.sp) (hmem : m'.mem = m.mem) : Untouched m m' :=
  ⟨by rw [hsp], fun _ _ => by rw [hmem]⟩

theorem Untouched.trans {m m1 m' : Mach} (h : Untouched m m1) (h' : Untouched m1 m') : Untouched m m' := by
  have hsp := h.sp
  refine ⟨h'.sp.trans hsp, fun b hb => ?_⟩
  rw [h'.mem b (by omega), h.mem b hb]

theorem Untouched.put {m : Mach} {pc : Nat} {v : BitVec 64} :
    Untouched m { m with pc := pc, sp := m.sp - 16, mem := m.mem.put (m.sp - 16) 8 v } := by
  refine ⟨?_, fun b hb => Mem.put_of_not ?_⟩
  · dsimp only
    omega
  · omega

/-! ## Constant arguments -/

/-- `double`. -/
def tyDouble : Ty := ⟨.double, 8, false⟩

/-- A constant of a type. Before a `long double`, whose constants go to `x0`, a comma puts 0 in `d0`. -/
def constant (ty : Ty) (v : Nat) : Expr :=
  if ty.kind = .ldouble then .comma ty (.num tyDouble 0 0) (.num ty v 0) else .num ty v v

/-- The value of a constant argument; a `long double` first loads the value of a `double`. -/
def constantLines (ty : Ty) (v : Nat) : List Insn :=
  if ty.kind = .ldouble then genNum tyDouble 0 0 ++ genNum ty v 0 else genNum ty v v

/-- What is pushed for a constant. -/
def constantPushed (ty : Ty) (v : Nat) : BitVec 64 := if ty.kind = .ldouble then 0 else BitVec.ofNat 64 v

section

variable {ty : Ty} {v : Nat} {offset : Nat → Int} {s : GenState} {m : Mach}

theorem constant_ty : (constant ty v).ty = ty := by
  unfold constant
  split <;> rfl

theorem leftover_constant : (constant ty v).leftover = 0 := by
  unfold constant
  split <;> rfl

theorem genExpr_constant : genExpr offset (constant ty v) s =
    some ((), s, (constantLines ty v).map (Item.mk s.depth)) := by
  unfold constant constantLines
  split
  · rw [map_append]
    exact bind_some (emits_eq _ s) (emits_eq _ s)
  · exact emits_eq _ s

theorem mute_constantLines : ∀ i ∈ constantLines ty v, i.mentions = none := by
  intro i hi
  have hnum : ∀ (t : Ty) (val : Int) (bits : Nat), i ∈ genNum t val bits → i.mentions = none := fun t val bits h =>
    (Insn.quiet_of_isQuiet (all_eq_true.1 (quiet_genNum t val bits) i h)).mute
  unfold constantLines at hi
  split at hi
  · exact (mem_append.1 hi).elim (hnum _ _ _) (hnum _ _ _)
  · exact hnum _ _ _ hi

/-- The lines of a constant argument, and where they leave its value. -/
theorem chain_constant (keep : Mach → Int → Prop) (hv : v ≤ 2) (m : Mach) :
    ∃ m', Chain keep (constantLines ty v) m m' ∧ m'.sp = m.sp ∧ m'.mem = m.mem ∧
      m'.result ty = BitVec.ofNat 64 v ∧ m'.pushed ty = constantPushed ty v := by
  have hfp : ∀ (i : FpInsn) (w : BitVec 64) (m : Mach), (∀ p r rn off, i ≠ .store p r rn off) →
      (Insn.fp i).Does keep m { m with pc := m.pc + 1, x := update m.x 0 (m.x 0), d := update m.d 0 w } :=
    fun i w m hi => .fp hi
  have hsets : ∀ (i : Insn) (w : BitVec 64) (m : Mach), i.Sets 0 → (∀ u, i.value m = some u → w = u) →
      i.Does keep m { m with pc := m.pc + 1, x := update m.x 0 w } := fun i w m hset hw => .set hset hw
  have hsmall : v / 65536 = 0 := by omega
  have hmod : v % 65536 = v := by omega
  have hint : ∀ ty' : Ty, ty'.kind ≠ .float → ty'.kind ≠ .double → ∀ bits, genNum ty' v bits = [.movImm .x 0 v] := by
    intro ty' hfloat hdbl bits
    unfold genNum
    split
    · exact absurd (by assumption) hfloat
    · exact absurd (by assumption) hdbl
    · exact if_pos (by omega)
  unfold constantLines constantPushed Mach.result Mach.pushed
  by_cases hld : ty.kind = .ldouble
  · have hfl : ty.isFlonum = true := by simp [Ty.isFlonum, hld]
    have hzero : genNum tyDouble 0 0 = [.ldrLit 0 0, .fp (.fmov .d)] := rfl
    rw [if_pos hld, hzero, hint ty (by simp [hld]) (by simp [hld])]
    refine ⟨_, .cons (hsets _ 0 _ ⟨rfl, rfl⟩ fun _ h => by cases h) (.cons (hfp _ 0 _ fun _ _ _ _ h => by cases h)
      (.cons (hsets _ _ _ ⟨rfl, rfl⟩ fun u h => Option.some.inj h) (.nil _))), rfl, rfl, ?_, ?_⟩
    · rw [if_neg (by simp [hld])]
      exact (update_self 0 (BitVec.ofInt 64 (v : Int)) (update m.x 0 0)).trans (BitVec.ofInt_natCast 64 v)
    · rw [if_pos hfl, if_pos hld]
      exact update_self 0 0 m.d
  rw [if_neg hld, if_neg hld]
  by_cases hfloat : ty.kind = .float
  · have hfl : ty.isFlonum = true := by simp [Ty.isFlonum, hfloat]
    have hnum : genNum ty v v = [.movImm .w 0 (v : Nat), .fp (.fmov .s)] := by
      unfold genNum
      rw [hfloat]
      simp [hsmall, hmod]
    rw [hnum]
    refine ⟨_, .cons (hsets _ _ _ ⟨rfl, rfl⟩ fun u h => Option.some.inj h)
      (.cons (hfp _ (BitVec.ofNat 64 v) _ fun _ _ _ _ h => by cases h) (.nil _)), rfl, rfl, ?_⟩
    rw [if_pos (.inl hfloat), if_pos hfl, and_self_iff]
    exact update_self 0 (BitVec.ofNat 64 v) m.d
  by_cases hdbl : ty.kind = .double
  · have hfl : ty.isFlonum = true := by simp [Ty.isFlonum, hdbl]
    have hnum : genNum ty v v = [.ldrLit 0 v, .fp (.fmov .d)] := by
      unfold genNum
      rw [hdbl]
    rw [hnum]
    refine ⟨_, .cons (hsets _ 0 _ ⟨rfl, rfl⟩ fun _ h => by cases h)
      (.cons (hfp _ (BitVec.ofNat 64 v) _ fun _ _ _ _ h => by cases h) (.nil _)), rfl, rfl, ?_⟩
    rw [if_pos (.inr hdbl), if_pos hfl, and_self_iff]
    exact update_self 0 (BitVec.ofNat 64 v) m.d
  have hfl : ¬ ty.isFlonum = true := by simp [Ty.isFlonum, hfloat, hdbl, hld]
  rw [hint ty hfloat hdbl]
  refine ⟨_, .cons (hsets _ _ _ ⟨rfl, rfl⟩ fun u h => Option.some.inj h) (.nil _), rfl, rfl, ?_⟩
  rw [if_neg (by simp [hfloat, hdbl]), if_neg hfl, and_self_iff]
  exact (update_self 0 (BitVec.ofInt 64 (v : Int)) m.x).trans (BitVec.ofInt_natCast 64 v)

end

/-! ## Calls with constant arguments -/

/-- The arguments of a call, given by their types and values. -/
def constantArgs : List (Ty × Nat) → Args
  | [] => .nil
  | a :: as => .cons (constant a.1 a.2) (constantArgs as)

/-- The values that the call means. -/
def constantValues (as : List (Ty × Nat)) : List (BitVec 64) := as.map fun a => BitVec.ofNat 64 a.2

/-- The values that are pushed. -/
def pushedValues (as : List (Ty × Nat)) : List (BitVec 64) := as.map fun a => constantPushed a.1 a.2

/-- The function `f`. -/
def callee : Expr := .var ⟨.func, 1, false⟩ (.gvar "f")

/-- The lines of the function's address. -/
def calleeLines : List Insn := [.adrp 0 "f", .addLo12 0 0 "f"]

section

variable {as : List (Ty × Nat)} {offset : Nat → Int} {top : Int}

theorem types_constantArgs : (constantArgs as).types = as.map Prod.fst := by
  induction as with
  | nil => rfl
  | cons a as ih => simp [constantArgs, Args.types, ih, constant_ty]

theorem leftover_constantArgs (hagg : ∀ a ∈ as, a.1.isAggregate = false) : (constantArgs as).leftover = 0 := by
  induction as with
  | nil => rfl
  | cons a as ih =>
    have hrest := ih fun b hb => hagg b (mem_cons_of_mem _ hb)
    simp [constantArgs, Args.leftover, hrest, leftover_constant, constant_ty, hagg a mem_cons_self]

/-- The push behind an argument. -/
def pushInsn (ty : Ty) : Insn := if ty.isFlonum then .pushf 0 else .push 0

theorem pushInsn_eq (ty : Ty) (s : GenState) : (if ty.isFlonum then pushf else push) s =
    some ((), { s with depth := s.depth + 1 }, [⟨s.depth, pushInsn ty⟩]) := by
  unfold pushInsn
  split <;> rfl

theorem does_pushInsn (keep : Mach → Int → Prop) (ty : Ty) (m : Mach) : (pushInsn ty).Does keep m
    { m with pc := m.pc + 1, sp := m.sp - 16, mem := m.mem.put (m.sp - 16) 8 (m.pushed ty) } := by
  unfold pushInsn Mach.pushed
  split
  · exact .pushf 0 m
  · exact .push 0 m

/-- A pass over constant arguments is printed, and can be run. -/
theorem exists_pass (hv : ∀ a ∈ as, a.2 ≤ 2) (firstPass : Bool) (flags : List Bool) (s : GenState) :
    ∃ s' l, pushArgs2 offset firstPass (constantArgs as) flags s = some ((), s', l) ∧
      ∀ (code : List Item) (m : Mach), l <+: code.drop m.pc → ∃ m',
        PassRun code top offset firstPass (constantArgs as) flags (constantValues as) (pushedValues as) s m s' m' ∧
          m'.pc = m.pc + l.length ∧ Untouched m m' := by
  induction as generalizing flags with
  | nil => exact ⟨s, [], rfl, fun code m _ => ⟨m, .nil, rfl, .of_eq rfl rfl⟩⟩
  | cons a as ih =>
    obtain ⟨s1, l1, hgen, hrun⟩ := ih (fun b hb => hv b (mem_cons_of_mem _ hb)) flags.tail
    by_cases hflag : firstPass = flags.headD false
    · have hargs : pushArgs2 offset firstPass (constantArgs (a :: as)) flags s =
          some ((), { s1 with depth := s1.depth + 1 },
            l1 ++ ((constantLines a.1 a.2).map (Item.mk s1.depth) ++ [⟨s1.depth, pushInsn a.1⟩])) := by
        rw [constantArgs, pushArgs2, Gen.when, if_pos hflag, constant_ty]
        exact bind_some hgen (bind_some genExpr_constant (pushInsn_eq _ _))
      refine ⟨_, _, hargs, fun code m hl => ?_⟩
      obtain ⟨m1, hpass, hpc, hun⟩ := hrun code m (prefix_left hl)
      have hl1 := prefix_right hl
      rw [← hpc] at hl1
      obtain ⟨m2, hchain, hsp, hmem, hval, hput⟩ :=
        @chain_constant a.1 a.2 (temporaries m1.sp top) (hv a mem_cons_self) m1
      have hinsn : ((constantLines a.1 a.2).map (Item.mk s1.depth)).map Item.insn = constantLines a.1 a.2 := by
        simp [comp_def]
      rw [← hinsn] at hchain
      have heval := hchain.evaluates (prefix_left hl1) fun i hi => by
        obtain ⟨j, hj, rfl⟩ := mem_map.1 hi
        exact mute_constantLines j hj
      have hpush := does_pushInsn (temporaries m2.sp top) a.1 m2
      have hitem : code[m2.pc]? = some ⟨s1.depth, pushInsn a.1⟩ := by
        rw [heval.arrived]
        exact head_placed (prefix_right hl1)
      have hpassed := PassRun.push hpass hflag genExpr_constant heval (.next hitem hpush)
      rw [constant_ty, hval, hput] at hpassed
      refine ⟨_, hpassed, ?_, (hun.trans (.of_eq hsp hmem)).trans .put⟩
      rw [heval.arrived, hpc]
      simp
      omega
    have hargs : pushArgs2 offset firstPass (constantArgs (a :: as)) flags s = some ((), s1, l1 ++ []) := by
      rw [constantArgs, pushArgs2, Gen.when, if_neg hflag]
      exact bind_some hgen rfl
    rw [append_nil] at hargs
    refine ⟨s1, l1, hargs, fun code m hl => ?_⟩
    obtain ⟨m1, hpass, hpc, hun⟩ := hrun code m hl
    exact ⟨m1, .skip hpass hflag, hpc, hun⟩

theorem exists_popArgs (tys : List Ty) (flags : List Bool) (gp fp : Nat) (s : GenState) :
    ∃ s' l, popArgs tys flags gp fp s = some ((), s', l) := by
  induction tys generalizing flags gp fp s with
  | nil => exact ⟨s, [], rfl⟩
  | cons ty tys ih =>
    cases flags with
    | nil => exact ⟨s, [], rfl⟩
    | cons flag flags =>
      rw [popArgs]
      split
      · exact ih _ _ _ _
      split
      · split
        · obtain ⟨s', l, h⟩ := ih flags gp (fp + 1) { s with depth := s.depth + (-1) }
          exact ⟨s', _, bind_some rfl h⟩
        · exact ih _ _ _ _
      split
      · obtain ⟨s', l, h⟩ := ih flags (gp + 1) fp { s with depth := s.depth + (-1) }
        exact ⟨s', _, bind_some rfl h⟩
      · exact ih _ _ _ _

theorem chain_popLines (keep : Mach → Int → Prop) (tys : List Ty) (flags : List Bool) (gp fp : Nat) (m : Mach) :
    ∃ m', Chain keep (popLines tys flags gp fp) m m' ∧ Untouched m m' := by
  have hpop : ∀ (r : Nat) (m : Mach), ∃ m1, (Insn.pop r).Does keep m m1 ∧ Untouched m m1 := fun r m =>
    ⟨_, .pop (Mem.holds_get m.mem m.sp 8 (by decide)), ⟨by dsimp only; omega, fun _ _ => rfl⟩⟩
  have hpopf : ∀ (r : Nat) (m : Mach), ∃ m1, (Insn.popf r).Does keep m m1 ∧ Untouched m m1 := fun r m =>
    ⟨_, .popf (Mem.holds_get m.mem m.sp 8 (by decide)), ⟨by dsimp only; omega, fun _ _ => rfl⟩⟩
  induction tys generalizing flags gp fp m with
  | nil => exact ⟨m, .nil m, .of_eq rfl rfl⟩
  | cons ty tys ih =>
    cases flags with
    | nil => exact ⟨m, .nil m, .of_eq rfl rfl⟩
    | cons flag flags =>
      rw [popLines]
      split
      · exact ih _ _ _ _
      split
      · split
        · obtain ⟨m1, hdoes, hun⟩ := hpopf fp m
          obtain ⟨m', hchain, hun'⟩ := ih flags gp (fp + 1) m1
          exact ⟨m', .cons hdoes hchain, hun.trans hun'⟩
        · exact ih _ _ _ _
      split
      · obtain ⟨m1, hdoes, hun⟩ := hpop gp m
        obtain ⟨m', hchain, hun'⟩ := ih flags (gp + 1) fp m1
        exact ⟨m', .cons hdoes hchain, hun.trans hun'⟩
      · exact ih _ _ _ _

end

section

variable {as : List (Ty × Nat)}

theorem padding_eq (tys : List Ty) (s : GenState) :
    (Gen.when ((s.depth + stackCount tys) % 2 = 1) do
      emit (.push 31)
      move 1 : Gen Unit) s = some ((), { s with depth := s.depth + padding s.depth tys },
        (replicate (padding s.depth tys) (.push 31)).map (Item.mk s.depth)) := by
  unfold padding Gen.when
  split
  · rfl
  · simp [pure]

theorem chain_padding (keep : Mach → Int → Prop) (n : Nat) (m : Mach) :
    ∃ m', Chain keep (replicate n (.push 31)) m m' ∧ Untouched m m' := by
  induction n generalizing m with
  | zero => exact ⟨m, .nil m, .of_eq rfl rfl⟩
  | succ n ih =>
    obtain ⟨m', hchain, hun⟩ := ih { m with pc := m.pc + 1, sp := m.sp - 16, mem := m.mem.put (m.sp - 16) 8 0 }
    exact ⟨m', .cons (.push 31 m) hchain, Untouched.put.trans hun⟩

theorem chain_callee (keep : Mach → Int → Prop) (m : Mach) :
    ∃ m', Chain keep calleeLines m m' ∧ m'.sp = m.sp ∧ m'.mem = m.mem :=
  ⟨_, .cons (.set (v := 0) ⟨rfl, rfl⟩ fun _ h => by cases h)
    (.cons (.set (v := 0) ⟨rfl, rfl⟩ fun _ h => by cases h) (.nil _)), rfl, rfl⟩

theorem exists_genFuncall (hv : ∀ a ∈ as, a.2 ≤ 2) (s : GenState) :
    ∃ s' l, genExpr (fun _ => 0) (.funcall tyVoid callee (constantArgs as)) s = some ((), s', l) := by
  obtain ⟨s1, lf, hf, -⟩ := @exists_pass as (fun _ => 0) 0 hv true (passByStack (constantArgs as).types 0 0)
    { s with depth := s.depth + padding s.depth (constantArgs as).types }
  obtain ⟨s2, ls, hs, -⟩ :=
    @exists_pass as (fun _ => 0) 0 hv false (passByStack (constantArgs as).types 0 0) s1
  obtain ⟨s3, lp, hp⟩ :=
    exists_popArgs (constantArgs as).types (passByStack (constantArgs as).types 0 0) 0 0 s2
  have hdrop : ∀ (n : Nat) (s : GenState), ∃ s' l, (Gen.when (0 < n) do
      emit (.addSp (n * 16))
      move (-n) : Gen Unit) s = some ((), s', l) := fun n s => by
    unfold Gen.when
    split
    · exact ⟨_, _, rfl⟩
    · exact ⟨_, _, rfl⟩
  have hargs : pushArgs (constantArgs as).types
      (pushArgs2 (fun _ => 0) true (constantArgs as) (passByStack (constantArgs as).types 0 0))
      (pushArgs2 (fun _ => 0) false (constantArgs as) (passByStack (constantArgs as).types 0 0)) s =
        some (stackCount (constantArgs as).types +
            (if (s.depth + stackCount (constantArgs as).types) % 2 = 1 then 1 else 0), s2,
          [] ++ ((replicate (padding s.depth (constantArgs as).types) (.push 31)).map (Item.mk s.depth) ++
            (lf ++ (ls ++ [])))) :=
    bind_some rfl (bind_some (padding_eq (constantArgs as).types s) (bind_some hf (bind_some hs rfl)))
  obtain ⟨s4, le, he⟩ := hdrop (stackCount (constantArgs as).types +
    if (s.depth + stackCount (constantArgs as).types) % 2 = 1 then 1 else 0) s3
  exact ⟨s4, _, bind_some hargs (bind_some rfl (bind_some rfl (bind_some hp (bind_some rfl
    (bind_some (emits_eq _ _) he)))))⟩

/-- A call of constant arguments can be run up to the `blr`. -/
theorem exists_call (hv : ∀ a ∈ as, a.2 ≤ 2) (hagg : ∀ a ∈ as, a.1.isAggregate = false) (sp : Int) (mem : Mem) :
    ∃ (c : CallSite) (m m1 : Mach), c.At m ∧ c.args.types = as.map Prod.fst ∧ m.sp = sp ∧ m.mem = mem ∧
      c.start.depth = 0 ∧ CallRun c.code c.top c.offset c.lhs c.args (constantValues as) (pushedValues as) c.start m m1 ∧
      Untouched m m1 := by
  have hleft := leftover_constantArgs hagg
  obtain ⟨s', l, hgen⟩ := exists_genFuncall hv ⟨0, 1⟩
  obtain ⟨s1, s2, s3, d, lpad, lf, ls, lfn, lp, lend, hl, hpad, hf, hs, hfn, hp, -⟩ := parts_genFuncall hgen
  obtain ⟨t1, lf', hf', hfrun⟩ := @exists_pass as (fun _ => 0) sp hv true (passByStack (constantArgs as).types 0 0)
    ⟨0 + padding 0 (constantArgs as).types, 1⟩
  obtain ⟨rfl, rfl⟩ : s1 = t1 ∧ lf = lf' := by simpa using hf.symm.trans hf'
  obtain ⟨t2, ls', hs', hsrun⟩ :=
    @exists_pass as (fun _ => 0) sp hv false (passByStack (constantArgs as).types 0 0) s1
  obtain ⟨rfl, rfl⟩ : s2 = t2 ∧ ls = ls' := by simpa using hs.symm.trans hs'
  have hcallee : genExpr (fun _ => 0) callee s2 = some ((), s2, calleeLines.map (Item.mk s2.depth)) := rfl
  obtain ⟨rfl, rfl⟩ : s2 = s3 ∧ calleeLines.map (Item.mk s2.depth) = lfn := by simpa using hcallee.symm.trans hfn
  -- the run, piece by piece
  have hl0 : l <+: l.drop 0 := prefix_refl l
  have hhere := hl0
  nth_rewrite 1 [hl] at hl0
  obtain ⟨m0, hchain0, hun0⟩ := chain_padding (temporaries sp sp) (padding 0 (constantArgs as).types)
    ⟨0, sp, fun _ => 0, fun _ => 0, mem⟩
  rw [← hpad] at hchain0
  have hpc0 := hchain0.pc
  rw [length_map] at hpc0
  have hl1 := prefix_right hl0
  rw [← hpc0] at hl1
  obtain ⟨m1, hpass1, hpc1, hun1⟩ := hfrun l m0 (prefix_left hl1)
  have hl2 := prefix_right hl1
  rw [← hpc1] at hl2
  obtain ⟨m2, hpass2, hpc2, hun2⟩ := hsrun l m1 (prefix_left hl2)
  have hl3 := prefix_right hl2
  rw [← hpc2] at hl3
  obtain ⟨m3, hchain3, hsp3, hmem3⟩ := chain_callee (temporaries m2.sp sp) m2
  have heval := hchain3.evaluates (prefix_left hl3) (by simp [calleeLines, Insn.mentions])
  have hl4 := prefix_right hl3
  rw [← heval.arrived] at hl4
  have hmov : ∃ m4, (Insn.mov .x 9 0).Does (temporaries m3.sp sp) m3 m4 ∧ m4.sp = m3.sp ∧ m4.mem = m3.mem :=
    ⟨_, .set ⟨rfl, rfl⟩ fun w hw => Option.some.inj hw, rfl, rfl⟩
  obtain ⟨m4, hdoes, hsp4, hmem4⟩ := hmov
  obtain ⟨m5, hchain5, hun5⟩ := chain_popLines (temporaries m3.sp sp) (constantArgs as).types
    (passByStack (constantArgs as).types 0 0) 0 0 m4
  have hchain := Chain.cons hdoes hchain5
  rw [← hp] at hchain
  refine ⟨⟨fun _ => 0, tyVoid, callee, constantArgs as, ⟨0, 1⟩, s', l, l, sp⟩,
    ⟨0, sp, fun _ => 0, fun _ => 0, mem⟩, m5,
    ⟨hgen, hhere, hleft, rfl, Nat.zero_lt_one, Int.le_refl _⟩, types_constantArgs, rfl, rfl, rfl,
    ⟨s1, s2, s2, _, m0, m1, m2, m3, ?_, hpass1, hpass2, hcallee, heval, ?_⟩, ?_⟩
  · have hlen : lpad.length = padding 0 (constantArgs as).types := by simpa using congrArg length hpad
    have hsteps := hchain0.steps (prefix_left hl0)
    rwa [hlen] at hsteps
  · have hlen : lp.length = 1 + (popLines (constantArgs as).types (passByStack (constantArgs as).types 0 0) 0 0).length := by
      have := congrArg length hp
      rw [length_map, length_cons] at this
      omega
    have hsteps := hchain.steps (prefix_left hl4)
    rwa [hlen] at hsteps
  · exact (((hun0.trans hun1).trans hun2).trans (.of_eq hsp3 hmem3)).trans ((Untouched.of_eq hsp4 hmem4).trans hun5)

end

/-! ## What arrives -/

namespace Fn

variable {fn : Fn} {s s' : GenState} {code : List Item} {entry m : Mach} {ftys : List Ty}

/-- The arguments of the call: the named ones are 1, the others 0, and any `long double` is 2. -/
def probe (fn : Fn) (ftys : List Ty) : List (Ty × Nat) :=
  fn.paramTys.map (fun ty => (ty, if ty.kind = .ldouble then 2 else 1)) ++
    ftys.map (fun ty => (ty, if ty.kind = .ldouble then 2 else 0))

/-- A function behind its first lines, called with these arguments on a stack of ones. -/
structure Probed (fn : Fn) (ftys : List Ty) (entry m : Mach) : Prop where
  room : fn.Room entry
  mem : m.mem = entry.mem.puts (fn.entryWrites entry)
  placed : List.Forall₂ (Place.Holds entry) (places (fn.paramTys ++ ftys) 0 0 0) (pushedValues (fn.probe ftys))
  held : fn.ArgsHeld ftys (constantValues (fn.probe ftys)) entry m
  ones : ∀ b, 8 ≤ (b - entry.sp) % 16 → entry.mem b = 0xFF

theorem sameClass_self {tys : List Ty} (h : ∀ ty ∈ tys, ty.Scalar) : List.Forall₂ SameClass tys tys :=
  forall₂_same.2 fun ty hty => ⟨rfl, (h ty hty).single, id⟩

theorem Sound.exists_probed (h : fn.Sound) (hftys : ∀ ty ∈ ftys, ty.Scalar)
    (hcode : fn.emitText s = some ((), s', code)) (htakes : fn.TakesArguments code ftys) :
    ∃ entry m, fn.Probed ftys entry m := by
  have hscalar : ∀ ty ∈ fn.paramTys ++ ftys, ty.Scalar := fun ty hty =>
    (mem_append.1 hty).elim (h.scalar_paramTys ty) (hftys ty)
  have hfst : (fn.probe ftys).map Prod.fst = fn.paramTys ++ ftys := by simp [probe, comp_def]
  have hv : ∀ a ∈ fn.probe ftys, a.2 ≤ 2 := by
    intro a ha
    rcases mem_append.1 ha with ha | ha
    · obtain ⟨ty, -, rfl⟩ := mem_map.1 ha
      dsimp only
      split <;> decide
    · obtain ⟨ty, -, rfl⟩ := mem_map.1 ha
      dsimp only
      split <;> decide
  have hagg : ∀ a ∈ fn.probe ftys, a.1.isAggregate = false := fun a ha =>
    (hscalar a.1 (by rw [← hfst]; exact mem_map_of_mem ha)).single
  obtain ⟨c, m, m1, hc, htypes, hsp, hmem, hdepth, hrun, hun⟩ := exists_call hv hagg
    (2 ^ 32 + 16 * (stackCount (fn.paramTys ++ ftys) + padding 0 (fn.paramTys ++ ftys))) fun _ => 0xFF
  rw [hfst] at htypes
  have hcount : c.args.types.countP Ty.isAggregate = 0 := by
    rw [htypes, countP_eq_zero]
    intro ty hty
    simp [(hscalar ty hty).single]
  obtain ⟨hplaced, hsp1, -⟩ := hrun.placed hc.gen hc.here hc.args hc.lhs hcount hc.next hc.top
  rw [htypes] at hplaced hsp1
  rw [hdepth, hsp] at hsp1
  have henter : Enters m1 { m1 with pc := 0 } := ⟨rfl, rfl, fun _ _ => rfl, rfl, rfl⟩
  have hsmall := h.small
  have hroom : fn.Room { m1 with pc := 0 } := ⟨by dsimp only; omega, by dsimp only; omega⟩
  have hinsn : (fn.entryLines.map (Item.mk s.depth)).length = fn.entryLines.length := length_map _
  obtain ⟨m', hsteps⟩ := @exists_steps code (fn.entryLines.map (Item.mk s.depth)) { m1 with pc := 0 }
    (entryLines_first hcode) fun i hi => by
      obtain ⟨a, ha, rfl⟩ := mem_map.1 hi
      exact plain_entryLines a ha
  rw [hinsn] at hsteps
  refine ⟨{ m1 with pc := 0 }, m', hroom, h.entered hroom hcode rfl hsteps, placed_enters henter hplaced,
    ((htakes c _ _ m m1 hc (by rw [htypes]; exact sameClass_self hscalar) hrun).2 _ m' henter hroom hsteps),
    fun b hb => ?_⟩
  dsimp only at hb
  exact (hun.mem b (by omega)).trans (congrFun hmem b)

theorem probe_named {j i : Nat} (hi : fn.params[j]? = some i) :
    (fn.probe ftys)[j]? = some (fn.varTy i, if (fn.varTy i).kind = .ldouble then 2 else 1) := by
  obtain ⟨hlt, rfl⟩ := List.getElem?_eq_some_iff.1 hi
  simp [probe, paramTys, List.getElem?_append, hlt]

theorem probe_variadic {j : Nat} {ty : Ty} (hj : ftys[j]? = some ty) :
    (fn.probe ftys)[fn.params.length + j]? = some (ty, if ty.kind = .ldouble then 2 else 0) := by
  have hlt := (List.getElem?_eq_some_iff.1 hj).1
  simp [probe, paramTys, List.getElem?_append, hj]

theorem getElem?_values {as : List (Ty × Nat)} {j : Nat} {ty : Ty} {v : Nat} (h : as[j]? = some (ty, v)) :
    (constantValues as)[j]? = some (BitVec.ofNat 64 v) ∧ (pushedValues as)[j]? = some (constantPushed ty v) := by
  simp [constantValues, pushedValues, h]

section

variable (h : fn.Sound) (hp : fn.Probed ftys entry m)

include h hp

/-- A byte in an upper half of the caller's stack is no byte of a small value. -/
theorem Probed.not_holds {e n v : Nat} (hn : 0 < n) (hv : v ≤ 2) :
    ¬ m.mem.Holds (entry.sp + 16 * e + 8) n (BitVec.ofNat 64 v) := by
  intro hholds
  have hbyte := hholds 0 hn
  rw [h.mem_above hp.mem (by omega), hp.ones _ (by omega)] at hbyte
  obtain rfl | rfl | rfl : v = 0 ∨ v = 1 ∨ v = 2 := by omega
  · exact absurd hbyte (by decide)
  · exact absurd hbyte (by decide)
  · exact absurd hbyte (by decide)

theorem Probed.named_slot {e : Nat} (he : e < (stackTypes fn.paramTys 0 0).length) :
    ∃ i ∈ fn.params, ∃ n, 0 < n ∧ m.mem.Holds (entry.sp + stackSpan (stackTypes fn.paramTys 0 0) e) n
        (BitVec.ofNat 64 (if (fn.varTy i).kind = .ldouble then 2 else 1)) ∧
      entry.mem.Holds (entry.sp + 16 * e) 8
        (constantPushed (fn.varTy i) (if (fn.varTy i).kind = .ldouble then 2 else 1)) := by
  have hslot := (@slot_iff fn.paramTys 0 0 0 h.agg_paramTys e).2 he
  rw [zero_add] at hslot
  obtain ⟨j, hj⟩ := mem_iff_getElem?.1 hslot
  have hlt := (List.getElem?_eq_some_iff.1 hj).1
  rw [h.length_places] at hlt
  have hi : fn.params[j]? = some fn.params[j] := List.getElem?_eq_getElem hlt
  obtain ⟨hval, hpush⟩ := getElem?_values (@probe_named fn ftys j _ hi)
  have hheld := hp.held.named j _ _ hi hval
  rw [h.param_slot (mem_of_getElem? (i := j) (by rw [List.getElem?_zip_eq_some]; exact ⟨hi, hj⟩))] at hheld
  have haddr : entry.sp - 16 + (16 + (stackSpan (stackTypes fn.paramTys 0 0) e : Int)) =
      entry.sp + stackSpan (stackTypes fn.paramTys 0 0) e := by omega
  rw [haddr] at hheld
  obtain ⟨-, -, hpos⟩ := (h.scalar _ (getElem_mem hlt)).bytes
  refine ⟨_, getElem_mem hlt, _, by omega, hheld, ?_⟩
  have hplaced := hp.placed
  rw [h.places_eq] at hplaced
  exact forall₂_get hplaced (by rw [getElem?_append_left (by rw [h.length_places]; exact hlt)]; exact hj) hpush

theorem Probed.variadic_slot (hftys : ∀ ty ∈ ftys, ty.Scalar) (hvar : ftys ≠ [] → fn.isVariadic = true) {e : Nat}
    (he : e < (stackTypes ftys (fn.paramTys.countP fun ty => !ty.isFlonum) (fn.paramTys.countP Ty.isFlonum)).length) :
    ∃ n v, 0 < n ∧ (v = 0 ∨ v = 2) ∧ m.mem.Holds (entry.sp + stackSpan (stackTypes ftys
      (fn.paramTys.countP fun ty => !ty.isFlonum) (fn.paramTys.countP Ty.isFlonum)) e) n (BitVec.ofNat 64 v) := by
  have hslot := (@slot_iff ftys (fn.paramTys.countP fun ty => !ty.isFlonum) (fn.paramTys.countP Ty.isFlonum)
    (stackTypes fn.paramTys 0 0).length (fun ty hty => (hftys ty hty).single) e).2 he
  obtain ⟨j, hj⟩ := mem_iff_getElem?.1 hslot
  have hlt := (List.getElem?_eq_some_iff.1 hj).1
  have hkinds := sameKind_places ftys (fn.paramTys.countP fun ty => !ty.isFlonum) (fn.paramTys.countP Ty.isFlonum)
    (stackTypes fn.paramTys 0 0).length
  rw [← hkinds.length_eq] at hlt
  have hvariadic := hvar (ne_nil_of_length_pos (by omega))
  obtain ⟨area, harea, -⟩ := h.area hvariadic
  have hptrs := h.pointers hp.mem hftys hp.room hvariadic harea
  have hlt' : j < (vaArgs (VaList.read m.mem (entry.sp - 16 + fn.offset area)) ftys).length := by
    rw [hptrs.length_eq, ← hkinds.length_eq]
    exact hlt
  have hget := List.getElem?_eq_getElem hlt'
  have hty := List.getElem?_eq_getElem hlt
  obtain ⟨e', he', haddr⟩ := forall₂_get hptrs hget hj
  obtain rfl : e = e' := by omega
  have hheld := hp.held.variadic area hvariadic harea j _ _ _ hty (getElem?_values (probe_variadic hty)).1 hget
  rw [haddr] at hheld
  obtain ⟨-, -, hpos⟩ := (hftys _ (getElem_mem hlt)).bytes
  refine ⟨_, _, by omega, ?_, hheld⟩
  split
  · exact .inr rfl
  · exact .inl rfl

theorem Probed.named_fit : ∀ ty ∈ (stackTypes fn.paramTys 0 0).dropLast, 8 < ty.size := by
  by_contra hfit
  obtain ⟨e, he, hspan⟩ := span_of_unfit (scalar_stackTypes h.scalar_paramTys 0 0) hfit
  obtain ⟨i, -, n, hn, hheld, -⟩ := hp.named_slot h he
  rw [hspan] at hheld
  have haddr : entry.sp + ((16 * e + 8 : Nat) : Int) = entry.sp + 16 * e + 8 := by omega
  rw [haddr] at hheld
  refine hp.not_holds h hn ?_ hheld
  split <;> decide

theorem Probed.variadic_fit (hftys : ∀ ty ∈ ftys, ty.Scalar) (hvar : ftys ≠ [] → fn.isVariadic = true) :
    ∀ ty ∈ (stackTypes ftys (fn.paramTys.countP fun ty => !ty.isFlonum) (fn.paramTys.countP Ty.isFlonum)).dropLast,
      8 < ty.size := by
  by_contra hfit
  obtain ⟨e, he, hspan⟩ := span_of_unfit (scalar_stackTypes hftys _ _) hfit
  obtain ⟨n, v, hn, hv, hheld⟩ := hp.variadic_slot h hftys hvar he
  rw [hspan] at hheld
  have haddr : entry.sp + ((16 * e + 8 : Nat) : Int) = entry.sp + 16 * e + 8 := by omega
  rw [haddr] at hheld
  exact hp.not_holds h hn (by omega) hheld

/-- For a `long double` 2 would have to arrive, and 0 does. -/
theorem Probed.named_kind {i : Nat} (hi : i ∈ fn.params) : (fn.varTy i).kind ≠ .ldouble := by
  intro hkind
  obtain ⟨j, hj⟩ := mem_iff_getElem?.1 hi
  obtain ⟨hval, hpush⟩ := getElem?_values (@probe_named fn ftys j i hj)
  have hheld := hp.held.named j i _ hj hval
  have hput := h.named_held hp.mem hp.placed (hp.named_fit h) hj hpush
  rw [if_pos hkind] at hheld hput
  obtain ⟨-, -, hpos⟩ := (h.scalar i hi).bytes
  have hbyte := (hheld 0 (by omega)).symm.trans (hput 0 (by omega))
  rw [constantPushed, if_pos hkind] at hbyte
  exact absurd hbyte (by decide)

/-- Where all arguments arrive, the two sides agree. -/
theorem Probed.slotsFit (hftys : ∀ ty ∈ ftys, ty.Scalar) (hvar : ftys ≠ [] → fn.isVariadic = true) :
    fn.SlotsFit ftys := by
  have hnamed := hp.named_fit h
  have hvariadic := hp.variadic_fit h hftys hvar
  have hone : stackTypes fn.paramTys 0 0 = [] ∨ stackTypes ftys (fn.paramTys.countP fun ty => !ty.isFlonum)
      (fn.paramTys.countP Ty.isFlonum) = [] := by
    by_contra hone
    push Not at hone
    obtain ⟨i, hi, -, -, -, hheld⟩ := hp.named_slot h (length_pos_iff.2 hone.1)
    obtain ⟨n, v, hn, hv, hheld'⟩ := hp.variadic_slot h hftys hvar (length_pos_iff.2 hone.2)
    -- the first slot is that of a named argument
    rw [constantPushed, if_neg (hp.named_kind h hi), if_neg (hp.named_kind h hi)] at hheld
    have hbyte := (hheld' 0 hn).symm.trans ((h.mem_above hp.mem (by simp [stackSpan])).trans
      (by simpa [stackSpan] using hheld 0 (by decide)))
    obtain rfl | rfl := hv
    · exact absurd hbyte (by decide)
    · exact absurd hbyte (by decide)
  have hkinds : ∀ ty ∈ fn.paramTys ++ ftys, ty.kind ≠ .ldouble := by
    intro ty hty
    rcases mem_append.1 hty with hty | hty
    · obtain ⟨i, hi, rfl⟩ := mem_map.1 hty
      exact hp.named_kind h hi
    intro hkind
    obtain ⟨j, hj⟩ := mem_iff_getElem?.1 hty
    have htrue := hvar (ne_nil_of_mem hty)
    obtain ⟨area, harea, -⟩ := h.area htrue
    have hptrs := h.pointers hp.mem hftys hp.room htrue harea
    have hlt : j < (vaArgs (VaList.read m.mem (entry.sp - 16 + fn.offset area)) ftys).length := by
      rw [hptrs.length_eq, ← (sameKind_places ftys _ _ _).length_eq]
      exact (List.getElem?_eq_some_iff.1 hj).1
    have hget := List.getElem?_eq_getElem hlt
    obtain ⟨hval, hpush⟩ := getElem?_values (@probe_variadic fn ftys j ty hj)
    have hheld := hp.held.variadic area htrue harea j _ _ _ hj hval hget
    have hput := h.variadic_held hftys hp.room hp.mem hp.placed hvariadic hone htrue harea hj hpush hget
    rw [if_pos hkind] at hheld hput
    obtain ⟨-, -, hpos⟩ := (hftys ty hty).bytes
    have hbyte := (hheld 0 (by omega)).symm.trans (hput 0 (by omega))
    rw [constantPushed, if_pos hkind] at hbyte
    exact absurd hbyte (by decide)
  -- all but the last argument on the stack would be of 16 bytes
  have hshort : ∀ {tys : List Ty} {gp fp : Nat}, (∀ ty ∈ tys, ty.Scalar) → (∀ ty ∈ tys, ty.kind ≠ .ldouble) →
      (∀ ty ∈ (stackTypes tys gp fp).dropLast, 8 < ty.size) → (stackTypes tys gp fp).length ≤ 1 := by
    intro tys gp fp hscalar hkind hbig
    by_contra hlen
    obtain ⟨ty, hty⟩ := exists_mem_of_length_pos (l := (stackTypes tys gp fp).dropLast) (by
      rw [length_dropLast]
      omega)
    have hmem := mem_of_mem_stackTypes (mem_of_mem_dropLast hty)
    have hsize := hbig ty hty
    have hwide : ty.size ≠ 16 := fun hsize => hkind ty hmem ((hscalar ty hmem).wide hsize)
    cases hfl : ty.isFlonum with
    | false =>
      have := (hscalar ty hmem).general hfl
      omega
    | true =>
      have := (hscalar ty hmem).floating hfl
      omega
  refine ⟨hkinds, ?_⟩
  have h1 := hshort h.scalar_paramTys (fun ty hty => hkinds ty (mem_append_left _ hty)) hnamed
  have h2 := hshort hftys (fun ty hty => hkinds ty (mem_append_right _ hty)) hvariadic
  rcases hone with hnone | hnone
  · rw [hnone, length_nil, Nat.zero_add]
    exact h2
  · rw [hnone, length_nil]
    exact h1

end

/-- Every argument arrives exactly where the two sides agree about the stack. -/
theorem calling_convention (fn : Fn) (ftys : List Ty) (s s' : GenState) (code : List Item) (h : fn.Sound)
    (hftys : ∀ ty ∈ ftys, ty.Scalar) (hvar : ftys ≠ [] → fn.isVariadic = true)
    (hcode : fn.emitText s = some ((), s', code)) : fn.TakesArguments code ftys ↔ fn.SlotsFit ftys := by
  refine ⟨fun htakes => ?_, fun hfit => h.takesArguments hftys hcode hfit⟩
  obtain ⟨entry, m, hp⟩ := h.exists_probed hftys hcode htakes
  exact hp.slotsFit h hftys hvar

/-- `long`. -/
def tyLong : Ty := ⟨.long, 8, false⟩

/-- A function with parameters of type `long` and no body. -/
def ofLongs (n : Nat) : Fn where
  params := List.range n
  locals := List.replicate n ⟨tyLong, 8⟩
  isVariadic := false
  vaArea := none
  isMain := false
  body := .block .nil

theorem scalar_tyLong : tyLong.Scalar :=
  ⟨rfl, fun _ => .inr (.inr (.inr rfl)), nofun, nofun⟩

theorem sound_ofLongs {n : Nat} (hsmall : (ofLongs n).stackSize < 2 ^ 31) : (ofLongs n).Sound where
  nodup := nodup_range
  isLocal i hi := by simpa [ofLongs] using hi
  align v hv := by
    obtain rfl := eq_of_mem_replicate hv
    exact Nat.succ_pos 7
  scalar i hi := by
    have hlt : i < n := by simpa [ofLongs] using hi
    have hty : (ofLongs n).varTy i = tyLong := by simp [ofLongs, varTy, hlt]
    rw [hty]
    exact scalar_tyLong
  small := hsmall
  area h := by cases h

/-- Nine arguments of type `long` arrive, the last one on the stack. -/
theorem calling_convention_nine : ∃ s' code, (ofLongs 9).emitText ⟨0, 1⟩ = some ((), s', code) ∧
    (ofLongs 9).TakesArguments code [] := by
  obtain ⟨⟨u, s', code⟩, hcode⟩ : ∃ r, (ofLongs 9).emitText ⟨0, 1⟩ = some r := ⟨_, rfl⟩
  refine ⟨s', code, hcode, (calling_convention (ofLongs 9) [] ⟨0, 1⟩ s' code (sound_ofLongs (by decide)) (by simp)
    (fun h => absurd rfl h) hcode).2 ⟨by decide, by decide⟩⟩

/-- Ten arguments of type `long` do not arrive. -/
theorem ten_longs_misplaced : ∃ s' code, (ofLongs 10).emitText ⟨0, 1⟩ = some ((), s', code) ∧
    ¬ (ofLongs 10).TakesArguments code [] := by
  obtain ⟨⟨u, s', code⟩, hcode⟩ : ∃ r, (ofLongs 10).emitText ⟨0, 1⟩ = some r := ⟨_, rfl⟩
  have hsound := sound_ofLongs (n := 10) (by decide)
  refine ⟨s', code, hcode, fun htakes => ?_⟩
  obtain ⟨entry, m, hp⟩ := hsound.exists_probed (by simp) hcode htakes
  exact absurd (hp.slotsFit hsound (by simp) fun h => absurd rfl h).one (by decide)

end Fn

end Slopix.Cc
