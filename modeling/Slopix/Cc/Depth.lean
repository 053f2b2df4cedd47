import Mathlib.Data.List.Count
import Slopix.Cc.Function

/-!
# The push depth

What the generator prints for a node is a block: the depth at each line follows from the lines before it,
the lines that name one of its own labels are all at one depth, and the labels of other blocks are not
named. `Emits` is this statement for a piece of the generator. A call with an aggregate argument pushes
it and never pops it; `leftover` counts these, and all else is said of nodes without them.
-/

namespace Slopix.Cc

open Gen

/-! ## Blocks of lines -/

/-- What an instruction of a function's body adds to `sp`; `none` for those that make and drop a frame. -/
def Insn.spMove : Insn → Option Int
  | .push _ | .pushf _ => some (-16)
  | .pop _ | .popf _ => some 16
  | .addSp n => some n
  | .addSpReg _ | .subSp _ | .subSpReg _ | .movFp | .stpFrame | .ldpFrame | .ret => none
  | _ => some 0

/-- The general register that an instruction sets. -/
def Insn.dest : Insn → Option Nat
  | .pop r | .movImm _ r _ | .movz r _ | .movk _ r _ | .ldrLit r _ | .mov _ r _ | .alu _ _ r _ _
  | .aluImm _ _ r _ _ | .msub _ r _ _ _ | .neg r _ | .mvn r _ | .ext _ _ r _ | .cset _ r _ | .load _ r _ _
  | .loadSp r | .adrp r _ | .addLo12 r _ _ => some r
  | _ => none

/-- An instruction that leaves the frame pointer and the link register alone. -/
def Insn.KeepsFrame (i : Insn) : Prop := ∀ r, i.dest = some r → r < 29

/-- An instruction of a body that does not move `sp` and is about no label. -/
structure Insn.Quiet (i : Insn) : Prop where
  keeps : i.KeepsFrame
  still : i.spMove = some 0
  mute : i.mentions = none

/-- The same as a test. -/
def Insn.isQuiet (i : Insn) : Bool := i.dest.all (· < 29) && i.spMove == some 0 && i.mentions.isNone

/-- Quiet can be decided. -/
theorem Insn.quiet_of_isQuiet {i : Insn} (h : i.isQuiet = true) : i.Quiet := by
  simp only [Insn.isQuiet, Bool.and_eq_true, beq_iff_eq, Option.isNone_iff_eq_none] at h
  obtain ⟨⟨hdest, hstill⟩, hmute⟩ := h
  refine ⟨fun r hr => ?_, hstill, hmute⟩
  rw [hr] at hdest
  simpa using hdest

/-- The depth at each line follows from the lines before it. -/
inductive Threaded : Int → List Item → Int → Prop
  | nil (d : Int) : Threaded d [] d
  | cons {d d1 d' : Int} {i : Insn} {l : List Item} (hmove : i.spMove = some (16 * (d - d1)))
      (hkeep : i.KeepsFrame) (h : Threaded d1 l d') : Threaded d (⟨d, i⟩ :: l) d'

theorem Threaded.append {d d1 d' : Int} {l l' : List Item} (h : Threaded d l d1) (h' : Threaded d1 l' d') :
    Threaded d (l ++ l') d' := by
  induction h with
  | nil => exact h'
  | cons hmove hkeep _ ih => exact .cons hmove hkeep (ih h')

/-- A label number and the depth of the node that it is of, and the depth below which nothing is popped. -/
structure Own where
  number : Nat
  depth : Int
  floor : Int

/-- The lines printed between depths `d` and `d'` and label numbers `n` and `n'`, inside a node with a label
number of its own. -/
structure Block (o : Own) (d d' : Int) (n n' : Nat) (l : List Item) : Prop where
  threaded : Threaded d l d'
  floor : ∀ i ∈ l, o.floor ≤ i.depth
  level : ∃ f : Nat → Int, f o.number = o.depth ∧ ∀ i ∈ l, ∀ k c,
    i.insn.mentions = some (.counted k c) → i.depth = f c ∧ (c = o.number ∨ n ≤ c ∧ c < n')

section

variable {o : Own} {d d1 d' : Int} {n n1 n' : Nat} {l l' : List Item}

theorem Block.nil : Block o d d n n [] := ⟨.nil d, by simp, fun _ => o.depth, rfl, by simp⟩

theorem Block.append (h : Block o d d1 n n1 l) (h' : Block o d1 d' n1 n' l') (hn : n ≤ n1) (hn' : n1 ≤ n')
    (ho : o.number < n) : Block o d d' n n' (l ++ l') := by
  obtain ⟨f, hf, hl⟩ := h.level
  obtain ⟨f', hf', hl'⟩ := h'.level
  refine ⟨h.threaded.append h'.threaded, fun i hi => ?_, fun c => if c < n1 then f c else f' c, ?_,
    fun i hi k c hc => ?_⟩
  · exact (List.mem_append.1 hi).elim (h.floor i) (h'.floor i)
  · exact (if_pos (lt_of_lt_of_le ho hn)).trans hf
  dsimp only
  rcases List.mem_append.1 hi with hi | hi
  · obtain ⟨hd, hc⟩ := hl i hi k c hc
    have hlt : c < n1 := by omega
    rw [if_pos hlt]
    exact ⟨hd, by omega⟩
  obtain ⟨hd, hc⟩ := hl' i hi k c hc
  rcases hc with rfl | ⟨hge, hlt⟩
  · rw [if_pos (lt_of_lt_of_le ho hn), hf]
    exact ⟨hd.trans hf', .inl rfl⟩
  · rw [if_neg (Nat.not_lt_of_le hge)]
    exact ⟨hd, by omega⟩

theorem Block.close {o' : Own} (h : Block ⟨n, d, o'.floor⟩ d d' (n + 1) n' l) (hn : n + 1 ≤ n') (ho : o'.number < n) :
    Block o' d d' n n' l := by
  obtain ⟨f, hf, hl⟩ := h.level
  refine ⟨h.threaded, h.floor, fun c => if c = o'.number then o'.depth else f c, if_pos rfl,
    fun i hi k c hc => ?_⟩
  obtain ⟨hd, hc⟩ := hl i hi k c hc
  dsimp only at hc ⊢
  have hne : c ≠ o'.number := by omega
  rw [if_neg hne]
  exact ⟨hd, by omega⟩

/-- One instruction is a block. -/
theorem Block.single {i : Insn} (hd : o.floor ≤ d) (hmove : i.spMove = some (16 * (d - d')))
    (hkeep : i.KeepsFrame) (hmute : ∀ k c, i.mentions = some (.counted k c) → c = o.number ∧ d = o.depth) :
    Block o d d' n n [⟨d, i⟩] := by
  refine ⟨.cons hmove hkeep (.nil d'), fun j hj => ?_, fun _ => o.depth, rfl, fun j hj k c hc => ?_⟩
  · rw [List.mem_singleton] at hj
    rw [hj]
    exact hd
  rw [List.mem_singleton] at hj
  subst hj
  obtain ⟨rfl, h⟩ := hmute k c hc
  exact ⟨h, .inl rfl⟩

end

/-! ## What a piece of the generator prints -/

/-- From depth `d` the piece ends at depth `d'` with a result in `Q`, and when `ok` holds what it prints is a
block. -/
def Emits {α : Type} (o : Own) (ok : Prop) (d d' : Int) (Q : α → Prop) (m : Gen α) : Prop :=
  ∀ s a s' l, m s = some (a, s', l) → s.depth = d → o.number < s.next →
    s'.depth = d' ∧ s.next ≤ s'.next ∧ Q a ∧ (ok → Block o d d' s.next s'.next l)

section

variable {α β : Type} {o : Own} {ok : Prop} {d d1 d' : Int} {Q : α → Prop} {R : β → Prop}

theorem emits_pure {a : α} (ha : Q a) : Emits o ok d d Q (pure a) := by
  intro s b s' l h hd _
  obtain ⟨rfl, rfl, rfl⟩ : a = b ∧ s = s' ∧ [] = l := by simpa [pure] using h
  exact ⟨hd, le_refl _, ha, fun _ => .nil⟩

variable {m : Gen α}

/-- A sequence that succeeds has two parts that do. -/
theorem bind_eq_some {f : α → Gen β} {s s'' : GenState} {b : β} {l : List Item}
    (h : (m >>= f) s = some (b, s'', l)) : ∃ a s' l1 l2, m s = some (a, s', l1) ∧
      f a s' = some (b, s'', l2) ∧ l = l1 ++ l2 := by
  dsimp only [bind] at h
  cases hm : m s with
  | none =>
    rw [hm] at h
    cases h
  | some r =>
    obtain ⟨a, s', l1⟩ := r
    rw [hm] at h
    dsimp only at h
    cases hf : f a s' with
    | none =>
      rw [hf] at h
      cases h
    | some r =>
      obtain ⟨b', t, l2⟩ := r
      rw [hf] at h
      obtain ⟨rfl, rfl, rfl⟩ : b' = b ∧ t = s'' ∧ l1 ++ l2 = l := by simpa using h
      exact ⟨a, s', l1, l2, rfl, hf, rfl⟩

theorem Emits.bind {f : α → Gen β} (h : Emits o ok d d1 Q m)
    (h' : ∀ a, Q a → Emits o ok d1 d' R (f a)) : Emits o ok d d' R (m >>= f) := by
  intro s b s'' l hrun hd ho
  obtain ⟨a, s', l1, l2, hm, hf, rfl⟩ := bind_eq_some hrun
  obtain ⟨hd1, hn, ha, hblock⟩ := h s a s' l1 hm hd ho
  obtain ⟨hd', hn', hb, hblock'⟩ := h' a ha s' b s'' l2 hf hd1 (lt_of_lt_of_le ho hn)
  exact ⟨hd', le_trans hn hn', hb, fun hok => (hblock hok).append (hblock' hok) hn hn' ho⟩

theorem Emits.seq {m : Gen Unit} {f : Unit → Gen β} (h : Emits o ok d d1 (fun _ => True) m)
    (h' : Emits o ok d1 d' R (f ())) : Emits o ok d d' R (m >>= f) :=
  h.bind fun _ _ => h'

theorem emits_fail : Emits o ok d d' Q (fail : Gen α) := fun _ _ _ _ h => by cases h

theorem emits_insn {i : Insn} (hok : ok → o.floor ≤ d) (hquiet : i.Quiet) :
    Emits o ok d d (fun _ => True) (emit i) := by
  intro s a s' l h hd _
  obtain ⟨rfl, rfl⟩ : s = s' ∧ [⟨s.depth, i⟩] = l := by simpa [emit] using h
  refine ⟨hd, le_refl _, trivial, fun hk => ?_⟩
  rw [hd]
  exact .single (hok hk) (by rw [hquiet.still]; simp) hquiet.keeps fun k c hc => by
    rw [hquiet.mute] at hc
    cases hc

/-- A line about a label that the node does not own: one of the program. -/
theorem emits_label {i : Insn} {lab : Label} (hok : ok → o.floor ≤ d) (hkeep : i.KeepsFrame)
    (hstill : i.spMove = some 0) (hlabel : i.mentions = some lab) (hlab : ∀ k c, lab ≠ .counted k c) :
    Emits o ok d d (fun _ => True) (emit i) := by
  intro s a s' l h hd _
  obtain ⟨rfl, rfl⟩ : s = s' ∧ [⟨s.depth, i⟩] = l := by simpa [emit] using h
  refine ⟨hd, le_refl _, trivial, fun hk => ?_⟩
  rw [hd]
  refine .single (hok hk) (by rw [hstill]; simp) hkeep fun k c hc => ?_
  rw [hlabel] at hc
  exact absurd (Option.some.inj hc) (hlab k c)

theorem emits_own {i : Insn} {k : Mark} {c : Nat} {d0 z : Int} (hok : ok → z ≤ d ∧ d = d0)
    (hkeep : i.KeepsFrame) (hstill : i.spMove = some 0) (hlabel : i.mentions = some (.counted k c)) :
    Emits ⟨c, d0, z⟩ ok d d (fun _ => True) (emit i) := by
  intro s a s' l h hd _
  obtain ⟨rfl, rfl⟩ : s = s' ∧ [⟨s.depth, i⟩] = l := by simpa [emit] using h
  refine ⟨hd, le_refl _, trivial, fun hk => ?_⟩
  rw [hd]
  refine .single (hok hk).1 (by rw [hstill]; simp) hkeep fun k' c' hc => ?_
  rw [hlabel] at hc
  obtain ⟨-, rfl⟩ : k = k' ∧ c = c' := by simpa using hc
  exact ⟨rfl, (hok hk).2⟩

theorem emits_list {is : List Insn} (hok : ok → o.floor ≤ d) (hquiet : is.all Insn.isQuiet = true) :
    Emits o ok d d (fun _ => True) (emits is) := by
  induction is with
  | nil => exact emits_pure trivial
  | cons i is ih =>
    rw [List.all_cons, Bool.and_eq_true] at hquiet
    exact (emits_insn hok (Insn.quiet_of_isQuiet hquiet.1)).seq (ih hquiet.2)

/-- A line that moves `sp`, with the depth changed accordingly. -/
theorem emits_move {i : Insn} {k : Int} (hok : ok → o.floor ≤ d) (hmove : i.spMove = some (-16 * k))
    (hkeep : i.KeepsFrame) (hmute : i.mentions = none) :
    Emits o ok d (d + k) (fun _ => True) (do emit i; move k) := by
  intro s a s' l h hd _
  obtain ⟨rfl, rfl⟩ : { s with depth := s.depth + k } = s' ∧ [⟨s.depth, i⟩] = l := by
    simpa [bind, emit, move] using h
  refine ⟨by rw [hd], le_refl _, trivial, fun hk => ?_⟩
  rw [hd]
  refine .single (hok hk) ?_ hkeep fun k' c hc => ?_
  · rw [hmove]
    congr 1
    omega
  · rw [hmute] at hc
    cases hc

theorem emits_push (hok : ok → o.floor ≤ d) : Emits o ok d (d + 1) (fun _ => True) push :=
  emits_move hok rfl (fun _ h => by cases h) rfl

theorem emits_pushf (hok : ok → o.floor ≤ d) : Emits o ok d (d + 1) (fun _ => True) pushf :=
  emits_move hok rfl (fun _ h => by cases h) rfl

theorem emits_pop {r : Nat} (hok : ok → o.floor ≤ d) (hr : r < 29) :
    Emits o ok d (d + -1) (fun _ => True) (pop r) :=
  emits_move hok rfl (fun r' h => by cases h; exact hr) rfl

theorem emits_popf {r : Nat} (hok : ok → o.floor ≤ d) : Emits o ok d (d + -1) (fun _ => True) (popf r) :=
  emits_move hok rfl (fun _ h => by cases h) rfl

theorem emits_count {f : Nat → Gen α} (h : ∀ c, Emits ⟨c, d, o.floor⟩ ok d d' Q (f c)) :
    Emits o ok d d' Q (count >>= f) := by
  intro s a s' l hrun hd ho
  obtain ⟨c, t, l1, l2, hcount, hf, rfl⟩ := bind_eq_some hrun
  obtain ⟨rfl, rfl, rfl⟩ : s.next = c ∧ { s with next := s.next + 1 } = t ∧ [] = l1 := by
    simpa [count] using hcount
  obtain ⟨hd', hn, ha, hblock⟩ := h s.next _ a s' l2 hf hd (Nat.lt_succ_self _)
  exact ⟨hd', Nat.le_of_succ_le hn, ha, fun hok => (hblock hok).close hn ho⟩

theorem emits_getDepth {f : Int → Gen α} (h : Emits o ok d d' Q (f d)) :
    Emits o ok d d' Q (getDepth >>= f) := by
  intro s a s' l hrun hd ho
  obtain ⟨c, t, l1, l2, hdepth, hf, rfl⟩ := bind_eq_some hrun
  obtain ⟨rfl, rfl, rfl⟩ : s.depth = c ∧ s = t ∧ [] = l1 := by simpa [getDepth] using hdepth
  rw [hd] at hf
  exact h s a s' l2 hf hd ho

theorem Emits.cast {e e' : Int} (h : Emits o ok e e' Q m) (hd : e = d) (hd' : e' = d') :
    Emits o ok d d' Q m := hd ▸ hd' ▸ h

end

/-! ## Lines without labels -/

section

variable {r : Nat} {offset : Int} {ty ty' : Ty}

theorem quiet_loadConst (hr : r < 29) (v : Int) : (loadConst r v).all Insn.isQuiet = true := by
  unfold loadConst
  dsimp only
  split <;> simp [Insn.isQuiet, Insn.dest, Insn.spMove, Insn.mentions, hr]

theorem quiet_localAddr (hr : r < 29) (offset : Int) : (localAddr r offset).all Insn.isQuiet = true := by
  have hconst := fun v => quiet_loadConst hr v
  unfold localAddr
  split
  · simp [Insn.isQuiet, Insn.dest, Insn.spMove, Insn.mentions, hr]
  split
  · simp [Insn.isQuiet, Insn.dest, Insn.spMove, Insn.mentions, hr]
  · split <;> rw [List.all_append, hconst] <;>
      simp [Insn.isQuiet, Insn.dest, Insn.spMove, Insn.mentions, hr]

theorem quiet_addOffset (offset : Int) : (addOffset offset).all Insn.isQuiet = true := by
  have hconst := fun v => @quiet_loadConst 9 (by decide) v
  unfold addOffset
  split
  · rfl
  split
  · rfl
  · split
    · rfl
    · split <;> rw [List.all_append, hconst] <;> rfl

theorem quiet_storeGp (size : Nat) : (storeGp r offset size).all Insn.isQuiet = true := by
  unfold storeGp
  dsimp only
  split
  · rfl
  · rw [List.all_append, quiet_localAddr (by decide)]
    rfl

theorem quiet_storeFp (size : Nat) : (storeFp r offset size).all Insn.isQuiet = true := by
  unfold storeFp
  dsimp only
  split
  · rfl
  · rw [List.all_append, quiet_localAddr (by decide)]
    rfl

theorem quiet_load (ty : Ty) : (load ty).all Insn.isQuiet = true := by
  unfold load
  repeat' split
  all_goals rfl

theorem quiet_storeLines (ty : Ty) : (storeLines ty).all Insn.isQuiet = true := by
  unfold storeLines
  split
  · rfl
  split
  · rfl
  split
  · simp [List.all_flatMap, Insn.isQuiet, Insn.dest, Insn.spMove, Insn.mentions]
  · repeat' split
    all_goals rfl

theorem quiet_cmpZero (ty : Ty) : (cmpZero ty).all Insn.isQuiet = true := by
  unfold cmpZero
  split <;> rfl

theorem quiet_cast (src dst : Ty) : (cast src dst).all Insn.isQuiet = true := by
  unfold cast
  split
  · rfl
  split
  · rw [List.all_append, quiet_cmpZero]
    rfl
  · generalize getTypeId src = t
    generalize getTypeId dst = t'
    cases t <;> cases t' <;> rfl

theorem quiet_genNum (ty : Ty) (val : Int) (bits : Nat) : (genNum ty val bits).all Insn.isQuiet = true := by
  unfold genNum
  split
  · split <;> rfl
  · rfl
  · split <;> rfl

theorem quiet_genNeg (ty : Ty) : (genNeg ty).all Insn.isQuiet = true := by
  unfold genNeg
  split <;> rfl

theorem quiet_genVarAddr (offset : Nat → Int) (v : Var) : (genVarAddr offset v).all Insn.isQuiet = true := by
  cases v with
  | lvar i => exact quiet_localAddr (by decide) _
  | gvar name => rfl

theorem quiet_loadBits (mem : Member) : (loadBits mem).all Insn.isQuiet = true := by
  unfold loadBits
  split <;> rfl

theorem quiet_mergeBits (mem : Member) : (mergeBits mem).all Insn.isQuiet = true := by
  unfold mergeBits
  rw [List.all_append, List.all_append, quiet_load]
  rfl

theorem quiet_extendReturn (ty : Ty) : (extendReturn ty).all Insn.isQuiet = true := by
  unfold extendReturn
  split
  · repeat' split
    all_goals
      cases ty.isUnsigned <;> rfl
  · rfl

theorem quiet_intOp (op : BinOp) (ty lhsTy : Ty) : (intOp op ty lhsTy).all Insn.isQuiet = true := by
  cases op <;> rfl

theorem quiet_cmpCase (n : Int) : (cmpCase n).all Insn.isQuiet = true := by
  unfold cmpCase
  split
  · rfl
  · rw [List.all_append, quiet_loadConst (by decide)]
    rfl

theorem quiet_zeros (n : Nat) :
    ((List.range n).map fun k : Nat => Insn.store .strb 31 0 (k : Int)).all Insn.isQuiet = true := by
  simp [Insn.isQuiet, Insn.dest, Insn.spMove, Insn.mentions]

end

/-! ## Nodes -/

mutual

/-- The pushes without a pop that a node prints: one for each aggregate argument. -/
def Expr.leftover : Expr → Nat
  | .null | .num _ _ _ | .var _ _ | .memzero _ _ | .unimplemented _ => 0
  | .cast _ lhs | .neg _ lhs | .bitnot _ lhs | .not _ lhs | .member _ lhs _ | .addr _ lhs | .deref _ lhs =>
    lhs.leftover
  | .assign _ lhs rhs | .comma _ lhs rhs | .logand _ lhs rhs | .logor _ lhs rhs | .binary _ _ lhs rhs =>
    lhs.leftover + rhs.leftover
  | .stmtExpr _ body => body.leftover
  | .cond _ cond thn els => cond.leftover + thn.leftover + els.leftover
  | .funcall _ lhs args => args.leftover + lhs.leftover

/-- The same for arguments; an aggregate among them stays on the stack. -/
def Args.leftover : Args → Nat
  | .nil => 0
  | .cons arg next => next.leftover + arg.leftover + if arg.ty.isAggregate then 1 else 0

/-- The same for an expression that may be missing. -/
def ExprOpt.leftover : ExprOpt → Nat
  | .none => 0
  | .some e => e.leftover

/-- The same for a statement. -/
def Stmt.leftover : Stmt → Nat
  | .ret lhs => lhs.leftover
  | .expr lhs => lhs.leftover
  | .block body => body.leftover
  | .ifThen cond thn els => cond.leftover + thn.leftover + els.leftover
  | .loop init cond inc thn _ _ => init.leftover + cond.leftover + thn.leftover + inc.leftover
  | .goto _ => 0
  | .label _ lhs => lhs.leftover
  | .doWhile thn cond _ _ => thn.leftover + cond.leftover
  | .switch cond _ _ thn _ => cond.leftover + thn.leftover
  | .case _ lhs => lhs.leftover
  | .unimplemented => 0

/-- The same for a statement that may be missing. -/
def StmtOpt.leftover : StmtOpt → Nat
  | .none => 0
  | .some stmt => stmt.leftover

/-- The same for a list of statements. -/
def Stmts.leftover : Stmts → Nat
  | .nil => 0
  | .cons stmt next => stmt.leftover + next.leftover

end

/-- What one of the two passes over the arguments leaves on the stack. -/
def Args.passed (firstPass : Bool) : Args → List Bool → Nat
  | .nil, _ => 0
  | .cons arg next, flags => next.passed firstPass flags.tail +
      if firstPass = flags.headD false then arg.leftover + 1 else 0

/-- The pops of register arguments. -/
def popCount : List Ty → List Bool → Nat → Nat → Nat
  | ty :: tys, flag :: flags, gp, fp =>
    if ty.isAggregate then popCount tys flags gp fp
    else if ty.isFlonum then
      if flag = false ∧ fp < 8 then popCount tys flags gp (fp + 1) + 1 else popCount tys flags gp fp
    else if flag = false ∧ gp < 8 then popCount tys flags (gp + 1) fp + 1 else popCount tys flags gp fp
  | _, _, _, _ => 0

section

variable {o : Own} {ok : Prop} {d : Int}

theorem passed_add (args : Args) (flags : List Bool) :
    args.passed true flags + args.passed false flags + args.types.countP Ty.isAggregate =
      args.types.length + args.leftover := by
  cases args with
  | nil => rfl
  | cons arg next =>
    have ih := passed_add next flags.tail
    simp only [Args.passed, Args.types, Args.leftover, List.countP_cons, List.length_cons]
    cases flags.headD false <;> cases arg.ty.isAggregate <;> simp <;> omega

/-- Every argument that is no aggregate is in a register or on the stack. -/
theorem popCount_add (tys : List Ty) (gp fp : Nat) :
    popCount tys (passByStack tys gp fp) (min gp 8) (min fp 8) + (passByStack tys gp fp).count true +
      tys.countP Ty.isAggregate = tys.length := by
  induction tys generalizing gp fp with
  | nil => rfl
  | cons ty tys ih =>
    rw [passByStack]
    by_cases hagg : ty.isAggregate
    · have hrest := ih gp fp
      rw [if_pos hagg, popCount, if_pos hagg]
      simp [hagg]
      omega
    rw [if_neg hagg]
    by_cases hfp : ty.isFlonum
    · have hrest := ih gp (fp + 1)
      rw [if_pos hfp, popCount, if_neg hagg, if_pos hfp]
      by_cases hlt : fp < 8
      · have hmin : min (fp + 1) 8 = min fp 8 + 1 := by omega
        rw [if_pos ⟨by simpa using hlt, by omega⟩, ← hmin]
        rw [List.countP_cons_of_neg hagg, List.length_cons, List.count_cons_of_ne (by simpa using hlt)]
        omega
      have hmin : min (fp + 1) 8 = min fp 8 := by omega
      rw [if_neg (by omega), ← hmin]
      simp [hagg, Nat.le_of_not_lt hlt]
      omega
    have hrest := ih (gp + 1) fp
    rw [if_neg hfp, popCount, if_neg hagg, if_neg hfp]
    by_cases hlt : gp < 8
    · have hmin : min (gp + 1) 8 = min gp 8 + 1 := by omega
      rw [if_pos ⟨by simpa using hlt, by omega⟩, ← hmin]
      rw [List.countP_cons_of_neg hagg, List.length_cons, List.count_cons_of_ne (by simpa using hlt)]
      omega
    have hmin : min (gp + 1) 8 = min gp 8 := by omega
    rw [if_neg (by omega), ← hmin]
    simp [hagg, Nat.le_of_not_lt hlt]
    omega

/-- The pops bring the depth down by their number. -/
theorem emits_popArgs (tys : List Ty) (flags : List Bool) (gp fp : Nat)
    (hok : ok → o.floor ≤ d - popCount tys flags gp fp) :
    Emits o ok d (d - popCount tys flags gp fp) (fun _ => True) (popArgs tys flags gp fp) := by
  induction tys generalizing flags gp fp d with
  | nil => exact (emits_pure trivial).cast rfl (by simp [popCount])
  | cons ty tys ih =>
    cases flags with
    | nil => exact (emits_pure trivial).cast rfl (by simp [popCount])
    | cons flag flags =>
      unfold popArgs
      unfold popCount at hok ⊢
      by_cases hagg : ty.isAggregate
      · rw [if_pos hagg] at hok ⊢
        rw [if_pos hagg]
        exact ih _ _ _ hok
      rw [if_neg hagg] at hok ⊢
      rw [if_neg hagg]
      by_cases hfp : ty.isFlonum
      · rw [if_pos hfp] at hok ⊢
        rw [if_pos hfp]
        by_cases hreg : flag = false ∧ fp < 8
        · rw [if_pos hreg] at hok ⊢
          rw [if_pos hreg]
          refine (emits_popf fun hk => ?_).seq ((ih _ _ _ fun hk => ?_).cast rfl ?_)
          · have := hok hk
            omega
          · have := hok hk
            omega
          · omega
        · rw [if_neg hreg] at hok ⊢
          rw [if_neg hreg]
          exact ih _ _ _ hok
      rw [if_neg hfp] at hok ⊢
      rw [if_neg hfp]
      by_cases hreg : flag = false ∧ gp < 8
      · rw [if_pos hreg] at hok ⊢
        rw [if_pos hreg]
        refine (emits_pop (fun hk => ?_) (by omega)).seq ((ih _ _ _ fun hk => ?_).cast rfl ?_)
        · have := hok hk
          omega
        · have := hok hk
          omega
        · omega
      · rw [if_neg hreg] at hok ⊢
        rw [if_neg hreg]
        exact ih _ _ _ hok

/-- The address of an assignment is on the stack while the value is computed, and `store` pops it. -/
theorem emits_genAssign {ty : Ty} {bitfield : Option Member} {addr rhs : Gen Unit} {a r : Nat}
    (hok : ok → o.floor ≤ d) (haddr : Emits o ok d (d + a) (fun _ => True) addr)
    (hrhs : Emits o ok (d + a + 1) (d + a + 1 + r) (fun _ => True) rhs) :
    Emits o ok d (d + (a + r : Nat)) (fun _ => True) (genAssign ty bitfield addr rhs) := by
  have hstore : Emits o ok (d + a + 1 + r) (d + (a + r : Nat)) (fun _ => True) (store ty) := by
    refine ((emits_pop (fun hk => ?_) (by decide)).seq
      (emits_list (fun hk => ?_) (quiet_storeLines ty))).cast rfl ?_
    · have := hok hk
      omega
    · have := hok hk
      omega
    · omega
  refine haddr.seq ((emits_push fun hk => ?_).seq (hrhs.seq ?_))
  · have := hok hk
    omega
  cases bitfield with
  | none => exact hstore
  | some mem =>
    refine (emits_list (fun hk => ?_) (quiet_mergeBits mem)).seq (hstore.seq (emits_insn (fun hk => ?_) ?_))
    · have := hok hk
      omega
    · have := hok hk
      omega
    · exact Insn.quiet_of_isQuiet rfl

/-- A call: the arguments are pushed, those in registers are popped, and the stack is dropped. -/
theorem emits_genFuncall {ty : Ty} {tys : List Ty} {first second fn : Gen Unit} {a b f k : Nat}
    (hok : ok → o.floor ≤ d) (hsum : a + b + tys.countP Ty.isAggregate = tys.length + k)
    (hfirst : ∀ {e}, (ok → o.floor ≤ e) → Emits o ok e (e + a) (fun _ => True) first)
    (hsecond : ∀ {e}, (ok → o.floor ≤ e) → Emits o ok e (e + b) (fun _ => True) second)
    (hfn : ∀ {e}, (ok → o.floor ≤ e) → Emits o ok e (e + f) (fun _ => True) fn) :
    Emits o ok d (d + (k + f : Nat)) (fun _ => True) (genFuncall ty tys first second fn) := by
  have hpops := popCount_add tys 0 0
  rw [Nat.zero_min] at hpops
  have hcount : (passByStack tys 0 0).count true = stackCount tys := rfl
  -- the padding
  obtain ⟨pad, hpad⟩ : ∃ pad : Nat, pad = if (d + stackCount tys) % 2 = 1 then 1 else 0 := ⟨_, rfl⟩
  have hargs : Emits o ok d (d + pad + a + b) (fun n => n = stackCount tys + pad)
      (pushArgs tys first second) := by
    refine emits_getDepth ?_
    rw [← hpad]
    have hskip : Emits o ok d (d + pad) (fun _ => True)
        (when ((d + stackCount tys) % 2 = 1) do emit (.push 31); move 1) := by
      unfold Gen.when
      by_cases hodd : (d + stackCount tys) % 2 = 1
      · rw [if_pos hodd] at hpad ⊢
        subst hpad
        exact @emits_move o ok d (.push 31) 1 hok rfl (fun _ h => by cases h) rfl
      · rw [if_neg hodd] at hpad ⊢
        exact (emits_pure trivial).cast rfl (by omega)
    refine hskip.seq ((hfirst fun hk => ?_).seq ((hsecond fun hk => ?_).seq (emits_pure rfl)))
    · have := hok hk
      omega
    · have := hok hk
      omega
  refine hargs.bind fun n hn => (hfn fun hk => ?_).seq ((emits_insn (fun hk => ?_) ?_).seq
    ((emits_popArgs tys _ 0 0 fun hk => ?_).seq ((emits_insn (fun hk => ?_) ?_).seq
      ((emits_list (fun hk => ?_) (quiet_extendReturn ty)).seq ?_))))
  · have := hok hk
    omega
  · have := hok hk
    omega
  · exact Insn.quiet_of_isQuiet rfl
  · have := hok hk
    omega
  · have := hok hk
    omega
  · exact Insn.quiet_of_isQuiet rfl
  · have := hok hk
    omega
  unfold Gen.when
  by_cases hpos : 0 < n
  · rw [if_pos hpos]
    refine (emits_move (k := -n) (fun hk => ?_) ?_ (fun _ h => by cases h) rfl).cast rfl ?_
    · have := hok hk
      omega
    · show some ((n * 16 : Nat) : Int) = some (-16 * -(n : Int))
      congr 1
      omega
    · omega
  · rw [if_neg hpos]
    refine (emits_pure trivial).cast rfl ?_
    omega

theorem emits_floatOp (hok : ok → o.floor ≤ d) (op : BinOp) (p : Prec) :
    Emits o ok d d (fun _ => True) (floatOp op p) := by
  cases op with
  | add => exact emits_insn hok (Insn.quiet_of_isQuiet rfl)
  | sub => exact emits_insn hok (Insn.quiet_of_isQuiet rfl)
  | mul => exact emits_insn hok (Insn.quiet_of_isQuiet rfl)
  | div => exact emits_insn hok (Insn.quiet_of_isQuiet rfl)
  | eq => exact emits_list hok rfl
  | ne => exact emits_list hok rfl
  | lt => exact emits_list hok rfl
  | le => exact emits_list hok rfl
  | mod => exact emits_fail
  | bitand => exact emits_fail
  | bitor => exact emits_fail
  | bitxor => exact emits_fail
  | shl => exact emits_fail
  | shr => exact emits_fail

/-- The right operand is on the stack while the left one is computed. -/
theorem emits_genBinary {op : BinOp} {ty lhsTy : Ty} {lhs rhs : Gen Unit} {a b : Nat}
    (hok : ok → o.floor ≤ d) (hrhs : Emits o ok d (d + b) (fun _ => True) rhs)
    (hlhs : Emits o ok (d + b + 1) (d + b + 1 + a) (fun _ => True) lhs) :
    Emits o ok d (d + (a + b : Nat)) (fun _ => True) (genBinary op ty lhsTy lhs rhs) := by
  have hok' : ok → o.floor ≤ d + (a + b : Nat) := fun hk => by
    have := hok hk
    omega
  unfold genBinary
  split
  · refine hrhs.seq ((emits_pushf fun hk => ?_).seq (hlhs.seq
      (((emits_popf fun hk => ?_).cast rfl ?_).seq (emits_floatOp hok' op _))))
    · have := hok hk
      omega
    · have := hok hk
      omega
    · omega
  refine hrhs.seq ((emits_push fun hk => ?_).seq (hlhs.seq
    (((emits_pop (fun hk => ?_) (by decide)).cast rfl ?_).seq
      (emits_list hok' (quiet_intOp op ty lhsTy)))))
  · have := hok hk
    omega
  · have := hok hk
    omega
  · omega

theorem emits_genCases (hok : ok → o.floor ≤ d) (cs : List Case) :
    Emits o ok d d (fun _ => True) (genCases cs) := by
  induction cs with
  | nil => exact emits_pure trivial
  | cons c cs ih =>
    have hlabel : ∀ k n, Label.unique c.label ≠ .counted k n := fun k n h => by cases h
    refine Emits.seq ?_ ih
    unfold genCase
    split
    · exact (emits_list hok (quiet_cmpCase _)).seq (emits_label hok (fun _ h => by cases h) rfl rfl hlabel)
    refine emits_count fun n => ?_
    have hown : ok → (Own.mk n d o.floor).floor ≤ d := hok
    have hbelow : ok → o.floor ≤ d ∧ d = d := fun hk => ⟨hok hk, rfl⟩
    exact (emits_list hown (quiet_cmpCase _)).seq ((emits_own hbelow (fun _ h => by cases h) rfl rfl).seq
      ((emits_list hown (quiet_cmpCase _)).seq
        ((emits_label hown (fun _ h => by cases h) rfl rfl hlabel).seq
          (emits_own hbelow (fun _ h => by cases h) rfl rfl))))

end

/-- A node prints a block that ends where it began, apart from what it leaves over. -/
def NodeOk (left : Nat) (m : Gen Unit) : Prop := ∀ (o : Own) (ok : Prop) (d : Int),
  (ok → o.floor ≤ d ∧ left = 0) → Emits o ok d (d + left) (fun _ => True) m

/-- A part of a node with label number `c`, at the depth of the node. -/
def PartOk (c left : Nat) (m : Gen Unit) : Prop := ∀ (d0 z : Int) (ok : Prop) (d : Int),
  (ok → z ≤ d ∧ d = d0 ∧ left = 0) → Emits ⟨c, d0, z⟩ ok d (d + left) (fun _ => True) m

section

variable {m m' : Gen Unit} {a b c left : Nat} {is : List Insn} {i : Insn}

theorem nodeOk_fail : NodeOk left fail := fun _ _ _ _ => emits_fail

theorem nodeOk_nothing : NodeOk 0 (pure ()) := fun _ _ _ _ => (emits_pure trivial).cast rfl (by simp)

theorem nodeOk_list (h : is.all Insn.isQuiet = true) : NodeOk 0 (emits is) := fun _ _ _ hok =>
  (emits_list (fun hk => (hok hk).1) h).cast rfl (by simp)

theorem nodeOk_insn (h : i.isQuiet = true) : NodeOk 0 (emit i) := fun _ _ _ hok =>
  (emits_insn (fun hk => (hok hk).1) (Insn.quiet_of_isQuiet h)).cast rfl (by simp)

theorem nodeOk_unique {n : Nat} (h : i = .label (.unique n) ∨ i = .b (.unique n) ∨
    ∃ cc, i = .bcond cc (.unique n)) : NodeOk 0 (emit i) := fun o ok d hok => by
  have hlab : ∀ k c, Label.unique n ≠ .counted k c := fun k c h => by cases h
  refine Emits.cast ?_ rfl (show d = d + (0 : Nat) by simp)
  rcases h with rfl | rfl | ⟨cc, rfl⟩
  · exact emits_label (fun hk => (hok hk).1) (fun _ h => by cases h) rfl rfl hlab
  · exact emits_label (fun hk => (hok hk).1) (fun _ h => by cases h) rfl rfl hlab
  · exact emits_label (fun hk => (hok hk).1) (fun _ h => by cases h) rfl rfl hlab

theorem nodeOk_ret : NodeOk 0 (emit (.b .ret)) := fun o ok d hok =>
  (emits_label (fun hk => (hok hk).1) (fun _ h => by cases h) rfl rfl fun k c h => by cases h).cast rfl (by simp)

theorem partOk_own {k : Mark} (h : i = .label (.counted k c) ∨ i = .b (.counted k c) ∨
    ∃ cc, i = .bcond cc (.counted k c)) : PartOk c 0 (emit i) := fun d0 z ok d hok => by
  have hown : ok → z ≤ d ∧ d = d0 := fun hk => ⟨(hok hk).1, (hok hk).2.1⟩
  refine Emits.cast ?_ rfl (show d = d + (0 : Nat) by simp)
  rcases h with rfl | rfl | ⟨cc, rfl⟩
  · exact emits_own hown (fun _ h => by cases h) rfl rfl
  · exact emits_own hown (fun _ h => by cases h) rfl rfl
  · exact emits_own hown (fun _ h => by cases h) rfl rfl

theorem NodeOk.toPart (h : NodeOk left m) : PartOk c left m := fun _ _ ok d hok =>
  h _ ok d fun hk => ⟨(hok hk).1, (hok hk).2.2⟩

theorem PartOk.then (h : PartOk c a m) (h' : PartOk c b m') : PartOk c (a + b) (do m; m') := by
  intro d0 z ok d hok
  refine (h d0 z ok d fun hk => ?_).seq ((h' d0 z ok (d + a) fun hk => ?_).cast rfl ?_)
  · have := hok hk
    omega
  · have := hok hk
    omega
  · omega

theorem NodeOk.then (h : NodeOk a m) (h' : NodeOk b m') : NodeOk (a + b) (do m; m') := by
  intro o ok d hok
  refine (h o ok d fun hk => ?_).seq ((h' o ok (d + a) fun hk => ?_).cast rfl ?_)
  · have := hok hk
    omega
  · have := hok hk
    omega
  · omega

theorem NodeOk.eq (h : NodeOk a m) (hab : a = b) : NodeOk b m := hab ▸ h

theorem nodeOk_count {f : Nat → Gen Unit} (h : ∀ c, PartOk c left (f c)) : NodeOk left (count >>= f) :=
  fun o ok d hok => emits_count fun c => h c d o.floor ok d fun hk => ⟨(hok hk).1, rfl, (hok hk).2⟩

theorem nodeOk_genAssign {ty : Ty} {bitfield : Option Member} (haddr : NodeOk a m) (hrhs : NodeOk b m') :
    NodeOk (a + b) (genAssign ty bitfield m m') := by
  intro o ok d hok
  refine emits_genAssign (fun hk => (hok hk).1) (haddr o ok d fun hk => ?_) (hrhs o ok _ fun hk => ?_)
  · have := hok hk
    omega
  · have := hok hk
    omega

theorem nodeOk_genBinary {op : BinOp} {ty lhsTy : Ty} (hlhs : NodeOk a m) (hrhs : NodeOk b m') :
    NodeOk (a + b) (genBinary op ty lhsTy m m') := by
  intro o ok d hok
  refine emits_genBinary (fun hk => (hok hk).1) (hrhs o ok d fun hk => ?_) (hlhs o ok _ fun hk => ?_)
  · have := hok hk
    omega
  · have := hok hk
    omega

theorem nodeOk_genCond {condTy : Ty} {cond thn els : Gen Unit} (hcond : NodeOk a cond)
    (hthn : NodeOk b thn) (hels : NodeOk c els) : NodeOk (a + b + c) (genCond condTy cond thn els) :=
  (nodeOk_count fun _ => hcond.toPart.then ((nodeOk_list (quiet_cmpZero condTy)).toPart.then
    ((partOk_own (.inr (.inr ⟨_, rfl⟩))).then (hthn.toPart.then ((partOk_own (.inr (.inl rfl))).then
      ((partOk_own (.inl rfl)).then (hels.toPart.then (partOk_own (.inl rfl))))))))).eq (by omega)

theorem nodeOk_genCases (cs : List Case) : NodeOk 0 (genCases cs) := fun _ _ _ hok =>
  (emits_genCases (fun hk => (hok hk).1) cs).cast rfl (by simp)

theorem nodeOk_genDefault (default : Option Nat) : NodeOk 0 (genDefault default) := by
  cases default with
  | none => exact nodeOk_nothing
  | some n => exact nodeOk_unique (.inr (.inl rfl))

theorem nodeOk_logical {lhsTy rhsTy : Ty} {cc : Cond} {mark : Mark} {v v' : Int} (hlhs : NodeOk a m)
    (hrhs : NodeOk b m') : NodeOk (a + b) (do
      let c ← count
      m
      emits (cmpZero lhsTy)
      emit (.bcond cc (.counted mark c))
      m'
      emits (cmpZero rhsTy)
      emit (.bcond cc (.counted mark c))
      emit (.movImm .x 0 v)
      emit (.b (.counted .endMark c))
      emit (.label (.counted mark c))
      emit (.movImm .x 0 v')
      emit (.label (.counted .endMark c))) :=
  (nodeOk_count fun _ => hlhs.toPart.then ((nodeOk_list (quiet_cmpZero lhsTy)).toPart.then
    ((partOk_own (.inr (.inr ⟨_, rfl⟩))).then (hrhs.toPart.then
      ((nodeOk_list (quiet_cmpZero rhsTy)).toPart.then ((partOk_own (.inr (.inr ⟨_, rfl⟩))).then
        ((nodeOk_insn rfl).toPart.then ((partOk_own (.inr (.inl rfl))).then ((partOk_own (.inl rfl)).then
          ((nodeOk_insn rfl).toPart.then (partOk_own (.inl rfl)))))))))))).eq (by omega)

end

/-! ## Every node -/

/-- One pass over the arguments. -/
def PassOk (offset : Nat → Int) (firstPass : Bool) (args : Args) : Prop :=
  ∀ (flags : List Bool) (o : Own) (ok : Prop) (d : Int), (ok → o.floor ≤ d ∧ args.leftover = 0) →
    Emits o ok d (d + args.passed firstPass flags) (fun _ => True) (pushArgs2 offset firstPass args flags)

theorem passOk_cons {offset : Nat → Int} {firstPass : Bool} {arg : Expr} {next : Args}
    (harg : NodeOk arg.leftover (genExpr offset arg)) (hnext : PassOk offset firstPass next) :
    PassOk offset firstPass (.cons arg next) := by
  intro flags o ok d hok
  have hleft : ok → o.floor ≤ d ∧ next.leftover + arg.leftover = 0 := fun hk => by
    have h := hok hk
    simp only [Args.leftover] at h
    omega
  refine (hnext flags.tail o ok d fun hk => ?_).seq ?_
  · have := hleft hk
    omega
  unfold Gen.when
  by_cases hflag : firstPass = flags.headD false
  · rw [if_pos hflag]
    have hpush : ∀ e : Int, (ok → o.floor ≤ e) → Emits o ok e (e + 1) (fun _ => True)
        (if arg.ty.isFlonum then pushf else push) := by
      intro e he
      split
      · exact emits_pushf he
      · exact emits_push he
    refine (harg o ok _ fun hk => ?_).seq ((hpush _ fun hk => ?_).cast rfl ?_)
    · have := hleft hk
      omega
    · have := hleft hk
      omega
    · rw [Args.passed, if_pos hflag]
      omega
  rw [if_neg hflag]
  refine (emits_pure trivial).cast rfl ?_
  rw [Args.passed, if_neg hflag]
  omega

theorem nodeOk_genFuncall {offset : Nat → Int} {ty : Ty} {args : Args} {fn : Gen Unit} {f : Nat}
    (hfirst : PassOk offset true args) (hsecond : PassOk offset false args) (hfn : NodeOk f fn) :
    NodeOk (args.leftover + f) (genFuncall ty args.types
      (pushArgs2 offset true args (passByStack args.types 0 0))
      (pushArgs2 offset false args (passByStack args.types 0 0)) fn) := by
  intro o ok d hok
  refine emits_genFuncall (fun hk => (hok hk).1) (passed_add args _) (fun he => hfirst _ _ _ _ fun hk => ?_)
    (fun he => hsecond _ _ _ _ fun hk => ?_) fun he => hfn _ _ _ fun hk => ?_
  · exact ⟨he hk, by have := hok hk; omega⟩
  · exact ⟨he hk, by have := hok hk; omega⟩
  · exact ⟨he hk, by have := hok hk; omega⟩

mutual

theorem nodeOk_genAddr (offset : Nat → Int) : (e : Expr) → NodeOk e.leftover (genAddr offset e)
  | .var _ v => nodeOk_list (quiet_genVarAddr offset v)
  | .deref _ lhs => nodeOk_genExpr offset lhs
  | .comma _ lhs rhs => (nodeOk_genExpr offset lhs).then (nodeOk_genAddr offset rhs)
  | .member _ lhs mem => (nodeOk_genAddr offset lhs).then (nodeOk_list (quiet_addOffset mem.offset))
  | .assign ty lhs rhs => by
      rw [genAddr]
      split
      · exact nodeOk_genAssign (nodeOk_genAddr offset lhs) (nodeOk_genExpr offset rhs)
      · exact nodeOk_fail
  | .cond ty c thn els => by
      rw [genAddr]
      split
      · exact nodeOk_genCond (nodeOk_genExpr offset c) (nodeOk_genExpr offset thn) (nodeOk_genExpr offset els)
      · exact nodeOk_fail
  | .null | .num _ _ _ | .cast _ _ | .neg _ _ | .bitnot _ _ | .not _ _ | .memzero _ _ | .stmtExpr _ _
  | .logand _ _ _ | .logor _ _ _ | .addr _ _ | .funcall _ _ _ | .binary _ _ _ _ | .unimplemented _ =>
    nodeOk_fail

/-- An expression leaves the depth as it was, but for what aggregates leave. -/
theorem nodeOk_genExpr (offset : Nat → Int) : (e : Expr) → NodeOk e.leftover (genExpr offset e)
  | .null => nodeOk_nothing
  | .num ty val bits => nodeOk_list (quiet_genNum ty val bits)
  | .cast ty lhs => (nodeOk_genExpr offset lhs).then (nodeOk_list (quiet_cast lhs.ty ty))
  | .neg ty lhs => (nodeOk_genExpr offset lhs).then (nodeOk_list (quiet_genNeg ty))
  | .bitnot _ lhs => (nodeOk_genExpr offset lhs).then (nodeOk_insn rfl)
  | .not _ lhs =>
    (nodeOk_genExpr offset lhs).then ((nodeOk_list (quiet_cmpZero lhs.ty)).then (nodeOk_insn rfl))
  | .var ty v => (nodeOk_list (quiet_genVarAddr offset v)).then (nodeOk_list (quiet_load ty))
  | .member ty lhs mem =>
    (nodeOk_genAddr offset lhs).then ((nodeOk_list (quiet_addOffset mem.offset)).then
      ((nodeOk_list (quiet_load ty)).then (nodeOk_list (quiet_loadBits mem))))
  | .memzero i size =>
    (nodeOk_list (quiet_localAddr (by decide) (offset i))).then (nodeOk_list (quiet_zeros size))
  | .assign _ lhs rhs => nodeOk_genAssign (nodeOk_genAddr offset lhs) (nodeOk_genExpr offset rhs)
  | .comma _ lhs rhs => (nodeOk_genExpr offset lhs).then (nodeOk_genExpr offset rhs)
  | .stmtExpr _ body => nodeOk_genStmts offset body
  | .logand _ lhs rhs => nodeOk_logical (nodeOk_genExpr offset lhs) (nodeOk_genExpr offset rhs)
  | .logor _ lhs rhs => nodeOk_logical (nodeOk_genExpr offset lhs) (nodeOk_genExpr offset rhs)
  | .cond _ c thn els =>
    nodeOk_genCond (nodeOk_genExpr offset c) (nodeOk_genExpr offset thn) (nodeOk_genExpr offset els)
  | .addr _ lhs => nodeOk_genAddr offset lhs
  | .deref ty lhs => (nodeOk_genExpr offset lhs).then (nodeOk_list (quiet_load ty))
  | .funcall _ lhs args =>
    nodeOk_genFuncall (passOk_args offset true args) (passOk_args offset false args)
      (nodeOk_genExpr offset lhs)
  | .binary _ _ lhs rhs => nodeOk_genBinary (nodeOk_genExpr offset lhs) (nodeOk_genExpr offset rhs)
  | .unimplemented _ => nodeOk_fail

theorem passOk_args (offset : Nat → Int) (firstPass : Bool) : (args : Args) → PassOk offset firstPass args
  | .nil => fun _ _ _ _ _ => (emits_pure trivial).cast rfl (by simp [Args.passed])
  | .cons arg next => passOk_cons (nodeOk_genExpr offset arg) (passOk_args offset firstPass next)

theorem nodeOk_genExprOpt (offset : Nat → Int) : (e : ExprOpt) → NodeOk e.leftover (genExprOpt offset e)
  | .none => nodeOk_nothing
  | .some e => nodeOk_genExpr offset e

theorem nodeOk_genLoopCond (offset : Nat → Int) (brk : Nat) : (e : ExprOpt) →
    NodeOk e.leftover (genLoopCond offset brk e)
  | .none => nodeOk_nothing
  | .some e => (nodeOk_genExpr offset e).then ((nodeOk_list (quiet_cmpZero e.ty)).then
      (nodeOk_unique (.inr (.inr ⟨_, rfl⟩))))

/-- And so does a statement. -/
theorem nodeOk_genStmt (offset : Nat → Int) : (stmt : Stmt) → NodeOk stmt.leftover (genStmt offset stmt)
  | .ret lhs => (nodeOk_genExprOpt offset lhs).then nodeOk_ret
  | .expr lhs => nodeOk_genExpr offset lhs
  | .block body => nodeOk_genStmts offset body
  | .ifThen cond thn els =>
    (nodeOk_count fun _ => (nodeOk_genExpr offset cond).toPart.then
      ((nodeOk_list (quiet_cmpZero cond.ty)).toPart.then ((partOk_own (.inr (.inr ⟨_, rfl⟩))).then
        ((nodeOk_genStmt offset thn).toPart.then ((partOk_own (.inr (.inl rfl))).then
          ((partOk_own (.inl rfl)).then ((nodeOk_genStmtOpt offset els).toPart.then
            (partOk_own (.inl rfl))))))))).eq (by simp only [Stmt.leftover]; omega)
  | .loop init cond inc thn brk cont =>
    (nodeOk_count fun _ => (nodeOk_genStmtOpt offset init).toPart.then ((partOk_own (.inl rfl)).then
      ((nodeOk_genLoopCond offset brk cond).toPart.then ((nodeOk_genStmt offset thn).toPart.then
        ((nodeOk_unique (.inl rfl)).toPart.then ((nodeOk_genExprOpt offset inc).toPart.then
          ((partOk_own (.inr (.inl rfl))).then (nodeOk_unique (.inl rfl)).toPart))))))).eq
      (by simp only [Stmt.leftover]; omega)
  | .goto _ => nodeOk_unique (.inr (.inl rfl))
  | .label _ lhs => ((nodeOk_unique (.inl rfl)).then (nodeOk_genStmt offset lhs)).eq (zero_add _)
  | .doWhile thn cond brk cont =>
    (nodeOk_count fun _ => (partOk_own (.inl rfl)).then ((nodeOk_genStmt offset thn).toPart.then
      ((nodeOk_unique (.inl rfl)).toPart.then ((nodeOk_genExpr offset cond).toPart.then
        ((nodeOk_list (quiet_cmpZero cond.ty)).toPart.then ((partOk_own (.inr (.inr ⟨_, rfl⟩))).then
          (nodeOk_unique (.inl rfl)).toPart)))))).eq (by simp only [Stmt.leftover]; omega)
  | .switch cond cs default thn brk =>
    ((nodeOk_genExpr offset cond).then ((nodeOk_genCases cs).then ((nodeOk_genDefault default).then
      ((nodeOk_unique (.inr (.inl rfl))).then ((nodeOk_genStmt offset thn).then
        (nodeOk_unique (.inl rfl))))))).eq (by simp only [Stmt.leftover]; omega)
  | .case _ lhs => ((nodeOk_unique (.inl rfl)).then (nodeOk_genStmt offset lhs)).eq (zero_add _)
  | .unimplemented => nodeOk_fail

theorem nodeOk_genStmtOpt (offset : Nat → Int) : (stmt : StmtOpt) →
    NodeOk stmt.leftover (genStmtOpt offset stmt)
  | .none => nodeOk_nothing
  | .some stmt => nodeOk_genStmt offset stmt

theorem nodeOk_genStmts (offset : Nat → Int) : (body : Stmts) → NodeOk body.leftover (genStmts offset body)
  | .nil => nodeOk_nothing
  | .cons stmt next => (nodeOk_genStmt offset stmt).then (nodeOk_genStmts offset next)

end

end Slopix.Cc
