import Slopix.Cc.Operand

/-!
# Calls

`ND_FUNCALL` seen from the machine: the operands of a call are evaluated one after the other and pushed, the
arguments in registers are popped, and at the call every argument is in its place. What was pushed is dropped
after the call.
-/

namespace Slopix.Cc

open Gen List Function

/-! ## Places of arguments -/

/-- Where an argument is when the function is called: a register, or one of the slots of 16 bytes from `sp`
up. -/
inductive Place
  | reg (n : Nat)
  | freg (n : Nat)
  | slot (k : Nat)

/-- The place holds this value. -/
def Place.Holds (m : Mach) : Place → BitVec 64 → Prop
  | .reg n, v => m.x n = v
  | .freg n, v => m.d n = v
  | .slot k, v => m.mem.Holds (m.sp + 16 * k) 8 v

/-- Eight arguments of each kind are in registers, the others on the stack in their order. The counters are of
the arguments before these: general, floating and on the stack. -/
def places : List Ty → Nat → Nat → Nat → List Place
  | [], _, _, _ => []
  | ty :: tys, gp, fp, st =>
    if ty.isFlonum then
      if fp < 8 then .freg fp :: places tys gp (fp + 1) st else .slot st :: places tys gp (fp + 1) (st + 1)
    else if gp < 8 then .reg gp :: places tys (gp + 1) fp st else .slot st :: places tys (gp + 1) fp (st + 1)

/-! ## Runs through a call -/

/-- A run of `n` steps between two states. -/
def Steps (keep : Mach → Int → Prop) (code : List Item) : Nat → Mach → Mach → Prop
  | 0, m, m' => m = m'
  | n + 1, m, m' => ∃ m1, Step keep code m m1 ∧ Steps keep code n m1 m'

/-- The value of an expression after its evaluation. Of a `long double` only the low 8 bytes are loaded, into `x0`. -/
def Mach.result (m : Mach) (ty : Ty) : BitVec 64 := if ty.kind = .float ∨ ty.kind = .double then m.d 0 else m.x 0

/-- What `push_args2` pushes for it: for a `long double` too that is `d0`. -/
def Mach.pushed (m : Mach) (ty : Ty) : BitVec 64 := if ty.isFlonum then m.d 0 else m.x 0

/-- A run through one pass of `push_args2`: the arguments of the pass are evaluated, each to its value `vs`, and
pushed as `ws`, the last one first. -/
inductive PassRun (code : List Item) (top : Int) (offset : Nat → Int) (firstPass : Bool) :
    Args → List Bool → List (BitVec 64) → List (BitVec 64) → GenState → Mach → GenState → Mach → Prop
  | nil {flags : List Bool} {s : GenState} {m : Mach} : PassRun code top offset firstPass .nil flags [] [] s m s m
  | skip {arg : Expr} {next : Args} {flags : List Bool} {v w : BitVec 64} {vs ws : List (BitVec 64)}
      {s s1 : GenState} {m m1 : Mach}
      (hnext : PassRun code top offset firstPass next flags.tail vs ws s m s1 m1)
      (hflag : firstPass ≠ flags.headD false) :
      PassRun code top offset firstPass (.cons arg next) flags (v :: vs) (w :: ws) s m s1 m1
  | push {arg : Expr} {next : Args} {flags : List Bool} {vs ws : List (BitVec 64)} {l : List Item}
      {s s1 s2 : GenState} {m m1 m2 m3 : Mach}
      (hnext : PassRun code top offset firstPass next flags.tail vs ws s m s1 m1)
      (hflag : firstPass = flags.headD false) (hgen : genExpr offset arg s1 = some ((), s2, l))
      (heval : Evaluates code top l m1 m2) (hpush : Step (temporaries m2.sp top) code m2 m3) :
      PassRun code top offset firstPass (.cons arg next) flags (m2.result arg.ty :: vs) (m2.pushed arg.ty :: ws) s m
        { s2 with depth := s2.depth + 1 } m3

/-- The padding slot of a call at this depth. -/
def padding (depth : Int) (tys : List Ty) : Nat := if (depth + stackCount tys) % 2 = 1 then 1 else 0

/-- The lines of `popArgs`. -/
def popLines : List Ty → List Bool → Nat → Nat → List Insn
  | ty :: tys, flag :: flags, gp, fp =>
    if ty.isAggregate then popLines tys flags gp fp
    else if ty.isFlonum then
      if flag = false ∧ fp < 8 then .popf fp :: popLines tys flags gp (fp + 1) else popLines tys flags gp fp
    else if flag = false ∧ gp < 8 then .pop gp :: popLines tys flags (gp + 1) fp
    else popLines tys flags gp fp
  | _, _, _, _ => []

/-- A run through a call from its first line to the `blr`, with the values of its arguments and what is pushed for
them. -/
structure CallRun (code : List Item) (top : Int) (offset : Nat → Int) (lhs : Expr) (args : Args)
    (vs ws : List (BitVec 64)) (s : GenState) (m m' : Mach) : Prop where
  run : ∃ (s1 s2 s3 : GenState) (l : List Item) (m0 m1 m2 m3 : Mach),
    Steps (temporaries m.sp top) code (padding s.depth args.types) m m0 ∧
    PassRun code top offset true args (passByStack args.types 0 0) vs ws
      { s with depth := s.depth + padding s.depth args.types } m0 s1 m1 ∧
    PassRun code top offset false args (passByStack args.types 0 0) vs ws s1 m1 s2 m2 ∧
    genExpr offset lhs s2 = some ((), s3, l) ∧ Evaluates code top l m2 m3 ∧
    Steps (temporaries m3.sp top) code (1 + (popLines args.types (passByStack args.types 0 0) 0 0).length) m3 m'

/-! ## Straight lines -/

section

variable {keep : Mach → Int → Prop} {code l : List Item} {Q : Mach → Prop} {m m' : Mach}

theorem steps_wp (hl : l <+: code.drop m.pc) (hmute : ∀ i ∈ l, i.insn.mentions = none)
    (hsteps : Steps keep code l.length m m') (hwp : Wp keep (l.map Item.insn) Q m) :
    Q m' ∧ m'.pc = m.pc + l.length := by
  induction l generalizing m with
  | nil =>
    obtain rfl : m = m' := hsteps
    exact ⟨hwp, rfl⟩
  | cons i l ih =>
    obtain ⟨m1, hstep, hsteps⟩ := hsteps
    have hget := head_placed hl
    have hdoes : i.insn.Does keep m m1 := by
      cases hstep with
      | @next _ j hj h =>
        obtain rfl : i = j := Option.some.inj (hget.symm.trans hj)
        exact h
      | @jump j _ lab _ hj ht _ _ =>
        obtain rfl : i = j := Option.some.inj (hget.symm.trans hj)
        have hnone := hmute i mem_cons_self
        rw [Insn.mentions_of_target ht] at hnone
        cases hnone
    have hpc := hdoes.pc
    have hrest : l <+: code.drop m1.pc := by
      rw [hpc]
      exact @prefix_right code [i] l m.pc hl
    obtain ⟨hq, hpc'⟩ := ih hrest (fun j hj => hmute j (mem_cons_of_mem _ hj)) hsteps (hwp m1 hdoes)
    exact ⟨hq, by rw [hpc', hpc, length_cons]; omega⟩

theorem wp_quiet {is : List Insn} (h : is.all Insn.isQuiet = true) : Wp keep is (fun m' => m'.sp = m.sp) m := by
  have hall : ∀ m1 : Mach, m1.sp = m.sp → Wp keep is (fun m' => m'.sp = m.sp) m1 := by
    induction is with
    | nil => exact fun m1 hm => hm
    | cons i is ih =>
      rw [all_cons, Bool.and_eq_true] at h
      have hi := Insn.quiet_of_isQuiet h.1
      intro m1 hm m2 hdoes
      have hsp := (hdoes.frame hi.still hi.keeps).1
      exact ih h.2 m2 (by omega)
  exact hall m rfl

end

/-! ## What is pushed -/

/-- The elements of a list whose flag is the given one. -/
def picked {α : Type} (b : Bool) : List Bool → List α → List α
  | _, [] => []
  | flags, v :: vs => if b = flags.headD false then v :: picked b flags.tail vs else picked b flags.tail vs

/-- Values in slots of 16 bytes from an address up. -/
def InSlots (mem : Mem) (a : Int) (vs : List (BitVec 64)) : Prop :=
  ∀ (k : Nat) (v : BitVec 64), vs[k]? = some v → mem.Holds (a + 16 * k) 8 v

section

variable {mem mem' : Mem} {a top : Int} {v : BitVec 64} {vs vs' : List (BitVec 64)}

theorem InSlots.cons (hv : mem.Holds a 8 v) (h : InSlots mem (a + 16) vs) : InSlots mem a (v :: vs) := by
  intro k w hk
  cases k with
  | zero =>
    obtain rfl : v = w := by simpa using hk
    simpa using hv
  | succ k =>
    have haddr : a + 16 * ((k + 1 : Nat) : Int) = a + 16 + 16 * k := by omega
    rw [haddr]
    exact h k w hk

theorem InSlots.head (h : InSlots mem a (v :: vs)) : mem.Holds a 8 v := by simpa using h 0 v rfl

theorem InSlots.tail (h : InSlots mem a (v :: vs)) : InSlots mem (a + 16) vs := by
  intro k w hk
  have haddr : a + 16 + 16 * (k : Int) = a + 16 * ((k + 1 : Nat) : Int) := by omega
  rw [haddr]
  exact h (k + 1) w hk

theorem InSlots.keep (h : InSlots mem a vs) (htop : a + 16 * vs.length ≤ top)
    (hsame : ∀ b, a ≤ b → b < top → mem' b = mem b) : InSlots mem' a vs := by
  intro k v hk
  have hlt := (List.getElem?_eq_some_iff.1 hk).1
  exact (h k v hk).keep fun b hlo hhi => hsame b (by omega) (by omega)

end

section

variable {code : List Item} {top : Int} {offset : Nat → Int} {firstPass : Bool} {args : Args}
  {flags : List Bool} {vs ws : List (BitVec 64)} {s s' t : GenState} {m m' : Mach} {l : List Item}

/-- The state after the pushes of a pass. -/
structure PassDone (firstPass : Bool) (flags : List Bool) (vs : List (BitVec 64)) (top : Int) (m m' : Mach) :
    Prop where
  sp : m'.sp = m.sp - 16 * (picked firstPass flags vs).length
  fp : m'.x 29 = m.x 29
  mem : ∀ b, m.sp ≤ b → b < top → m'.mem b = m.mem b
  slots : InSlots m'.mem m'.sp (picked firstPass flags vs)

/-- One more argument of the pass is on the stack. -/
theorem PassDone.push {v : BitVec 64} {m1 m2 m3 : Mach} (h : PassDone firstPass flags.tail vs top m m1)
    (htop : m.sp ≤ top) (hsp : m2.sp = m1.sp) (hx : m2.x 29 = m1.x 29)
    (hmem : ∀ b, m1.sp ≤ b → b < top → m2.mem b = m1.mem b) (hflag : firstPass = flags.headD false)
    (hm3 : m3 = { m2 with pc := m2.pc + 1, sp := m2.sp - 16, mem := m2.mem.put (m2.sp - 16) 8 v }) :
    PassDone firstPass flags (v :: vs) top m m3 := by
  have hpick : picked firstPass flags (v :: vs) = v :: picked firstPass flags.tail vs := by
    rw [picked, if_pos hflag]
  have h1 := h.sp
  have hlow : ∀ b, m1.sp ≤ b → b < top → m3.mem b = m1.mem b := fun b hlo hhi => by
    rw [hm3, ← hmem b hlo hhi]
    exact Mem.put_of_not (by omega)
  have hsp3 : m3.sp = m1.sp - 16 := by rw [hm3, ← hsp]
  refine ⟨?_, ?_, fun b hlo hhi => ?_, ?_⟩
  · rw [hpick, length_cons]
    omega
  · rw [hm3]
    exact hx.trans h.fp
  · rw [hlow b (by omega) hhi, h.mem b hlo hhi]
  rw [hpick]
  refine .cons ?_ ?_
  · rw [hm3]
    exact Mem.holds_put _ _ _ _
  · have haddr : m3.sp + 16 = m1.sp := by omega
    rw [haddr]
    exact h.slots.keep (by omega) hlow

/-- A pass leaves its values on the stack, in the order of the places. -/
theorem PassRun.done (h : PassRun code top offset firstPass args flags vs ws s m s' m')
    (hgen : pushArgs2 offset firstPass args flags s = some ((), t, l)) (hl : l <+: code.drop m.pc)
    (hleft : args.leftover = 0) (hnext : 0 < s.next) (htop : m.sp ≤ top) :
    t = s' ∧ 0 < s'.next ∧ m'.pc = m.pc + l.length ∧ PassDone firstPass flags ws top m m' := by
  induction h generalizing t l with
  | nil =>
    obtain ⟨rfl, rfl⟩ : _ = t ∧ [] = l := by simpa [pushArgs2, pure] using hgen
    exact ⟨rfl, hnext, rfl, ⟨by simp [picked], rfl, fun _ _ _ => rfl, fun k v hk => by simp [picked] at hk⟩⟩
  | @skip arg next flags v w vs ws s s1 m m1 hrun hflag ih =>
    simp only [Args.leftover] at hleft
    rw [pushArgs2, Gen.when, if_neg hflag] at hgen
    obtain ⟨_, s2, l1, l2, hfirst, hrest, rfl⟩ := bind_eq_some hgen
    obtain ⟨rfl, rfl⟩ : s2 = t ∧ [] = l2 := by simpa [pure] using hrest
    rw [append_nil] at hl ⊢
    obtain ⟨hs, hpos, hpc, hdone⟩ := ih hfirst hl (by omega) hnext htop
    have hpick : picked firstPass flags (w :: ws) = picked firstPass flags.tail ws := by
      rw [picked, if_neg hflag]
    exact ⟨hs, hpos, hpc, ⟨by rw [hpick]; exact hdone.sp, hdone.fp, hdone.mem, by rw [hpick]; exact hdone.slots⟩⟩
  | @push arg next flags vs ws la s s1 s2 m m1 m2 m3 hrun hflag harg heval hpush ih =>
    simp only [Args.leftover] at hleft
    rw [pushArgs2, Gen.when, if_pos hflag] at hgen
    obtain ⟨_, s1', l1, l2, hfirst, hrest, rfl⟩ := bind_eq_some hgen
    obtain ⟨rfl, hpos, hpc, hdone⟩ := ih hfirst (prefix_left hl) (by omega) hnext htop
    obtain ⟨_, s2', la', l3, harg', hlast, rfl⟩ := bind_eq_some hrest
    obtain ⟨rfl, rfl⟩ : s2 = s2' ∧ la = la' := by simpa using harg.symm.trans harg'
    obtain ⟨hdepth, hpos2, hblock⟩ := block_genExpr harg (by omega) hpos
    -- the push behind the argument
    obtain ⟨i, hi, rfl, rfl⟩ : ∃ i, (i = if arg.ty.isFlonum then .pushf 0 else .push 0) ∧
        { s2 with depth := s2.depth + 1 } = t ∧ l3 = [⟨s2.depth, i⟩] := by
      by_cases hfp : arg.ty.isFlonum
      · rw [if_pos hfp] at hlast ⊢
        refine ⟨_, rfl, ?_⟩
        have := hlast
        simp only [pushf, bind, emit, move, Option.some.injEq, Prod.mk.injEq] at this
        exact ⟨this.2.1, this.2.2.symm⟩
      rw [if_neg hfp] at hlast ⊢
      refine ⟨_, rfl, ?_⟩
      have := hlast
      simp only [Slopix.Cc.push, bind, emit, move, Option.some.injEq, Prod.mk.injEq] at this
      exact ⟨this.2.1, this.2.2.symm⟩
    have hla : la ++ [⟨s2.depth, i⟩] <+: code.drop m1.pc := by
      rw [hpc]
      exact prefix_right hl
    have hafter : code[m1.pc + la.length]? = some ⟨s2.depth, i⟩ := head_placed (prefix_right hla)
    have hmute : i.mentions = none := by
      rw [hi]
      split <;> rfl
    obtain ⟨hsp, hx, hmem⟩ := heval.frame hblock rfl fun j hj => by
      obtain rfl : _ = j := Option.some.inj (hafter.symm.trans hj)
      exact hmute
    have hone : Steps (temporaries m2.sp top) code [(⟨s2.depth, i⟩ : Item)].length m2 m3 := ⟨m3, hpush, rfl⟩
    have hpushed := @steps_wp (temporaries m2.sp top) code [⟨s2.depth, i⟩]
      (fun m' => m' = { m2 with pc := m2.pc + 1, sp := m2.sp - 16,
                                mem := m2.mem.put (m2.sp - 16) 8 (m2.pushed arg.ty) }) m2 m3
      (by rw [heval.arrived]; exact prefix_right hla)
      (fun j hj => by rw [mem_singleton] at hj; rw [hj]; exact hmute) hone ?_
    · obtain ⟨hm3, hpc3⟩ := hpushed
      refine ⟨rfl, hpos2, ?_, hdone.push htop hsp hx hmem hflag hm3⟩
      rw [hpc3, heval.arrived, hpc]
      simp
      omega
    intro m' hdoes
    rw [Mach.pushed]
    by_cases hfp : arg.ty.isFlonum
    · rw [if_pos hfp] at hi ⊢
      subst hi
      exact hdoes.pushf_eq
    · rw [if_neg hfp] at hi ⊢
      subst hi
      exact hdoes.push_eq

end

/-! ## What is popped -/

/-- From state `m` on, `n` slots have been popped, the registers of earlier arguments are kept, and the values
are in their places. -/
structure PopsTo (m : Mach) (n gp fp : Nat) (ps : List Place) (vs : List (BitVec 64)) (m' : Mach) : Prop where
  sp : m'.sp = m.sp + 16 * n
  mem : m'.mem = m.mem
  x : ∀ r, r < gp → m'.x r = m.x r
  d : ∀ r, r < fp → m'.d r = m.d r
  holds : List.Forall₂ (Place.Holds m') ps vs

section

variable {keep : Mach → Int → Prop} {m m' : Mach} {n gp fp gp' fp' st pc : Nat} {ps : List Place}
  {v : BitVec 64} {vs : List (BitVec 64)}

/-- A value on the stack stays there. -/
theorem PopsTo.slot (h : PopsTo m n gp' fp' ps vs m') (hgp : gp ≤ gp') (hfp : fp ≤ fp')
    (hv : m.mem.Holds (m.sp + 16 * n + 16 * st) 8 v) : PopsTo m n gp fp (.slot st :: ps) (v :: vs) m' := by
  refine ⟨h.sp, h.mem, fun r hr => h.x r (by omega), fun r hr => h.d r (by omega), .cons ?_ h.holds⟩
  show m'.mem.Holds (m'.sp + 16 * st) 8 v
  rw [h.mem, h.sp]
  exact hv

/-- The value on top goes to the next register. -/
theorem PopsTo.reg
    (h : PopsTo { m with pc := pc, sp := m.sp + 16, x := update m.x gp v } n (gp + 1) fp ps vs m') :
    PopsTo m (n + 1) gp fp (.reg gp :: ps) (v :: vs) m' := by
  have hsp := h.sp
  refine ⟨?_, h.mem, fun r hr => ?_, h.d, .cons ?_ h.holds⟩
  · dsimp only at hsp
    omega
  · exact (h.x r (by omega)).trans (update_of_ne (by omega) _ _)
  · exact (h.x gp (by omega)).trans (update_self _ _ _)

/-- An argument that is popped into a floating register. -/
theorem PopsTo.freg
    (h : PopsTo { m with pc := pc, sp := m.sp + 16, d := update m.d fp v } n gp (fp + 1) ps vs m') :
    PopsTo m (n + 1) gp fp (.freg fp :: ps) (v :: vs) m' := by
  have hsp := h.sp
  refine ⟨?_, h.mem, h.x, fun r hr => ?_, .cons ?_ h.holds⟩
  · dsimp only at hsp
    omega
  · exact (h.d r (by omega)).trans (update_of_ne (by omega) _ _)
  · exact (h.d fp (by omega)).trans (update_self _ _ _)

theorem picked_cons_self {b : Bool} {flags : List Bool} :
    picked b (b :: flags) (v :: vs) = v :: picked b flags vs := by simp [picked]

theorem picked_cons_ne {b c : Bool} {flags : List Bool} (h : b ≠ c) :
    picked b (c :: flags) (v :: vs) = picked b flags vs := by simp [picked, h]

/-- The arguments in registers are popped into them, and the others are left in their slots. -/
theorem wp_popLines (tys : List Ty) (vs : List (BitVec 64)) (gp fp st : Nat) (m : Mach)
    (hlen : vs.length = tys.length) (hagg : tys.countP Ty.isAggregate = 0)
    (hslots : InSlots m.mem m.sp (picked false (passByStack tys gp fp) vs))
    (hstack : InSlots m.mem (m.sp + 16 * (picked false (passByStack tys gp fp) vs).length + 16 * st)
      (picked true (passByStack tys gp fp) vs)) :
    Wp keep (popLines tys (passByStack tys gp fp) (min gp 8) (min fp 8))
      (PopsTo m (picked false (passByStack tys gp fp) vs).length (min gp 8) (min fp 8) (places tys gp fp st) vs)
      m := by
  induction tys generalizing vs gp fp st m with
  | nil =>
    obtain rfl : vs = [] := eq_nil_of_length_eq_zero hlen
    exact ⟨by simp [picked], rfl, fun _ _ => rfl, fun _ _ => rfl, .nil⟩
  | cons ty tys ih =>
    obtain ⟨v, vs, rfl⟩ := exists_cons_of_length_eq_add_one hlen
    rw [length_cons, length_cons] at hlen
    have hlen' : vs.length = tys.length := by omega
    have hty : ¬ ty.isAggregate = true := fun h => by simp [h] at hagg
    have hrest : tys.countP Ty.isAggregate = 0 := by
      simp only [countP_cons] at hagg
      omega
    rw [passByStack, if_neg hty] at hslots hstack ⊢
    rw [places]
    by_cases hfp : ty.isFlonum
    · rw [if_pos hfp] at hslots hstack ⊢
      rw [if_pos hfp]
      by_cases hlt : fp < 8
      · have hreg : min fp 8 = fp := by omega
        have hmin : min (fp + 1) 8 = fp + 1 := by omega
        have hflag : decide (8 ≤ fp) = false := by simp [hlt]
        rw [hflag] at hslots hstack ⊢
        rw [picked_cons_self] at hslots hstack ⊢
        rw [picked_cons_ne (by decide)] at hstack
        rw [if_pos hlt, popLines, if_neg hty, if_pos hfp, hreg, if_pos ⟨rfl, hlt⟩]
        intro m1 hdoes
        obtain ⟨w, hw, rfl⟩ := hdoes.popf_eq
        obtain rfl := hw.unique hslots.head
        have hwp := ih vs gp (fp + 1) st
          { m with pc := m.pc + 1, sp := m.sp + 16, d := update m.d fp w } hlen' hrest hslots.tail (by
            convert hstack using 1
            simp only [length_cons]
            omega)
        rw [hmin] at hwp
        exact hwp.mono fun m' => PopsTo.freg
      have hflag : decide (8 ≤ fp) = true := by simp [Nat.le_of_not_lt hlt]
      have hmin : min (fp + 1) 8 = min fp 8 := by omega
      rw [hflag] at hslots hstack ⊢
      rw [picked_cons_ne (by decide)] at hslots hstack ⊢
      rw [picked_cons_self] at hstack
      rw [if_neg hlt, popLines, if_neg hty, if_pos hfp, if_neg (by simp)]
      have hwp := ih vs gp (fp + 1) (st + 1) m hlen' hrest hslots (by
        convert hstack.tail using 1
        omega)
      rw [hmin] at hwp
      exact hwp.mono fun m' h => h.slot (Nat.le_refl _) (Nat.le_refl _) hstack.head
    rw [if_neg hfp] at hslots hstack ⊢
    rw [if_neg hfp]
    by_cases hlt : gp < 8
    · have hreg : min gp 8 = gp := by omega
      have hmin : min (gp + 1) 8 = gp + 1 := by omega
      have hflag : decide (8 ≤ gp) = false := by simp [hlt]
      rw [hflag] at hslots hstack ⊢
      rw [picked_cons_self] at hslots hstack ⊢
      rw [picked_cons_ne (by decide)] at hstack
      rw [if_pos hlt, popLines, if_neg hty, if_neg hfp, hreg, if_pos ⟨rfl, hlt⟩]
      intro m1 hdoes
      obtain ⟨w, hw, rfl⟩ := hdoes.pop_eq
      obtain rfl := hw.unique hslots.head
      have hwp := ih vs (gp + 1) fp st
        { m with pc := m.pc + 1, sp := m.sp + 16, x := update m.x gp w } hlen' hrest hslots.tail (by
          convert hstack using 1
          simp only [length_cons]
          omega)
      rw [hmin] at hwp
      exact hwp.mono fun m' => PopsTo.reg
    have hflag : decide (8 ≤ gp) = true := by simp [Nat.le_of_not_lt hlt]
    have hmin : min (gp + 1) 8 = min gp 8 := by omega
    rw [hflag] at hslots hstack ⊢
    rw [picked_cons_ne (by decide)] at hslots hstack ⊢
    rw [picked_cons_self] at hstack
    rw [if_neg hlt, popLines, if_neg hty, if_neg hfp, if_neg (by simp)]
    have hwp := ih vs (gp + 1) fp (st + 1) m hlen' hrest hslots (by
      convert hstack.tail using 1
      omega)
    rw [hmin] at hwp
    exact hwp.mono fun m' h => h.slot (Nat.le_refl _) (Nat.le_refl _) hstack.head

end

/-! ## The call -/

section

theorem length_passByStack (tys : List Ty) (gp fp : Nat) : (passByStack tys gp fp).length = tys.length := by
  induction tys generalizing gp fp with
  | nil => rfl
  | cons ty tys ih =>
    rw [passByStack]
    split
    · simp [ih]
    · split <;> simp [ih]

theorem length_picked {α : Type} {b : Bool} {flags : List Bool} {vs : List α} (h : vs.length = flags.length) :
    (picked b flags vs).length = flags.count b := by
  induction vs generalizing flags with
  | nil =>
    obtain rfl : flags = [] := eq_nil_of_length_eq_zero h.symm
    rfl
  | cons v vs ih =>
    obtain ⟨flag, flags, rfl⟩ := exists_cons_of_length_eq_add_one h.symm
    have hrest : vs.length = flags.length := by simpa using h
    rw [picked]
    by_cases hb : b = flag
    · subst hb
      simp [ih hrest]
    · simp [hb, ih hrest, Ne.symm hb]

variable {code : List Item} {top : Int} {vs ws : List (BitVec 64)} {m m' : Mach}

theorem PassRun.length {offset : Nat → Int} {firstPass : Bool} {args : Args}
    {flags : List Bool} {s s' : GenState}
    (h : PassRun code top offset firstPass args flags vs ws s m s' m') :
    vs.length = args.types.length ∧ ws.length = args.types.length := by
  induction h with
  | nil => exact ⟨rfl, rfl⟩
  | skip _ _ ih => simpa [Args.types] using ih
  | push _ _ _ _ _ ih => simpa [Args.types] using ih

/-- Without a `long double` the values are pushed. -/
theorem PassRun.values {offset : Nat → Int} {firstPass : Bool} {args : Args}
    {flags : List Bool} {s s' : GenState}
    (h : PassRun code top offset firstPass args flags vs ws s m s' m') (hld : ∀ ty ∈ args.types, ty.kind ≠ .ldouble) :
    picked firstPass flags vs = picked firstPass flags ws := by
  induction h with
  | nil => rfl
  | skip _ hflag ih =>
    rw [picked, if_neg hflag, picked, if_neg hflag]
    exact ih fun ty hty => hld ty (mem_cons_of_mem _ hty)
  | @push arg _ _ _ _ _ _ _ _ _ _ m2 _ _ hflag _ _ _ ih =>
    have hsame : m2.result arg.ty = m2.pushed arg.ty := by
      have hkind := hld arg.ty mem_cons_self
      unfold Mach.result Mach.pushed Ty.isFlonum
      simp [hkind]
    rw [picked, if_pos hflag, picked, if_pos hflag, hsame, ih fun ty hty => hld ty (mem_cons_of_mem _ hty)]

theorem picked_ext {flags : List Bool} (hv : vs.length = flags.length)
    (hw : ws.length = flags.length) (htrue : picked true flags vs = picked true flags ws)
    (hfalse : picked false flags vs = picked false flags ws) : vs = ws := by
  induction flags generalizing vs ws with
  | nil => rw [eq_nil_of_length_eq_zero hv, eq_nil_of_length_eq_zero hw]
  | cons flag flags ih =>
    obtain ⟨v, vs, rfl⟩ := exists_cons_of_length_eq_add_one hv
    obtain ⟨w, ws, rfl⟩ := exists_cons_of_length_eq_add_one hw
    have hrest := @ih vs ws (by simpa using hv) (by simpa using hw)
    cases flag with
    | true =>
      rw [picked_cons_self, picked_cons_self] at htrue
      rw [(cons.inj htrue).1, hrest (cons.inj htrue).2 hfalse]
    | false =>
      rw [picked_cons_self, picked_cons_self] at hfalse
      rw [(cons.inj hfalse).1, hrest htrue (cons.inj hfalse).2]

/-- Without a `long double` the values pushed are the values meant. -/
theorem CallRun.values {offset : Nat → Int} {lhs : Expr} {args : Args}
    {s : GenState} (h : CallRun code top offset lhs args vs ws s m m')
    (hld : ∀ ty ∈ args.types, ty.kind ≠ .ldouble) : vs = ws := by
  obtain ⟨_, _, _, _, _, _, _, _, -, hfirst, hsecond, -⟩ := h.run
  have hlen := length_passByStack args.types 0 0
  exact picked_ext (hfirst.length.1.trans hlen.symm) (hfirst.length.2.trans hlen.symm) (hfirst.values hld) (hsecond.values hld)

end

section

variable {tys : List Ty} {flags : List Bool} {gp fp : Nat} {s s' : GenState} {l : List Item}

theorem popArgs_eq (h : popArgs tys flags gp fp s = some ((), s', l)) :
    l.map Item.insn = popLines tys flags gp fp := by
  induction tys generalizing flags gp fp s l with
  | nil =>
    obtain ⟨-, rfl⟩ : s = s' ∧ [] = l := by simpa [popArgs, pure] using h
    rfl
  | cons ty tys ih =>
    cases flags with
    | nil =>
      obtain ⟨-, rfl⟩ : s = s' ∧ [] = l := by simpa [popArgs, pure] using h
      rfl
    | cons flag flags =>
      rw [popArgs] at h
      rw [popLines]
      by_cases hagg : ty.isAggregate
      · rw [if_pos hagg] at h ⊢
        exact ih h
      rw [if_neg hagg] at h ⊢
      by_cases hfp : ty.isFlonum
      · rw [if_pos hfp] at h ⊢
        by_cases hreg : flag = false ∧ fp < 8
        · rw [if_pos hreg] at h ⊢
          obtain ⟨_, t, l1, l2, hpop, hrest, rfl⟩ := bind_eq_some h
          obtain ⟨-, rfl⟩ : _ = t ∧ [⟨s.depth, .popf fp⟩] = l1 := by simpa [popf, bind, emit, move] using hpop
          simp [ih hrest]
        · rw [if_neg hreg] at h ⊢
          exact ih h
      rw [if_neg hfp] at h ⊢
      by_cases hreg : flag = false ∧ gp < 8
      · rw [if_pos hreg] at h ⊢
        obtain ⟨_, t, l1, l2, hpop, hrest, rfl⟩ := bind_eq_some h
        obtain ⟨-, rfl⟩ : _ = t ∧ [⟨s.depth, .pop gp⟩] = l1 := by simpa [pop, bind, emit, move] using hpop
        simp [ih hrest]
      · rw [if_neg hreg] at h ⊢
        exact ih h

theorem mute_popLines : ∀ i ∈ popLines tys flags gp fp, i.mentions = none := by
  induction tys generalizing flags gp fp with
  | nil => simp [popLines]
  | cons ty tys ih =>
    cases flags with
    | nil => simp [popLines]
    | cons flag flags =>
      rw [popLines]
      split
      · exact ih
      split
      · split
        · exact forall_mem_cons.2 ⟨rfl, ih⟩
        · exact ih
      · split
        · exact forall_mem_cons.2 ⟨rfl, ih⟩
        · exact ih

/-- The lines behind a call: the result is extended, and the pushed arguments are dropped. -/
def afterCall (ty : Ty) (n : Nat) : List Insn :=
  extendReturn ty ++ if 0 < n then [.addSp (n * 16)] else []

theorem emit_bind {α : Type} {i : Insn} {f : Unit → Gen α} {b : α} (h : (emit i >>= f) s = some (b, s', l)) :
    ∃ l', f () s = some (b, s', l') ∧ l = ⟨s.depth, i⟩ :: l' := by
  obtain ⟨_, t, l1, l2, hemit, hf, rfl⟩ := bind_eq_some h
  obtain ⟨rfl, rfl⟩ : s = t ∧ [⟨s.depth, i⟩] = l1 := by simpa [emit] using hemit
  exact ⟨l2, hf, rfl⟩

theorem parts_pushArgs {first second : Gen Unit} {n : Nat} {t : GenState}
    (h : pushArgs tys first second s = some (n, t, l)) :
    ∃ (lpad lf ls : List Item) (s1 : GenState),
      lpad.map Item.insn = List.replicate (padding s.depth tys) (.push 31) ∧
      first { s with depth := s.depth + padding s.depth tys } = some ((), s1, lf) ∧
      second s1 = some ((), t, ls) ∧ n = stackCount tys + padding s.depth tys ∧ l = lpad ++ (lf ++ ls) := by
  obtain ⟨d, t0, l0, l1, hdepth, h1, rfl⟩ := bind_eq_some h
  obtain ⟨rfl, rfl, rfl⟩ : s.depth = d ∧ s = t0 ∧ [] = l0 := by simpa [getDepth] using hdepth
  obtain ⟨_, t1, lpad, l2, hpad, h2, rfl⟩ := bind_eq_some h1
  obtain ⟨_, s1, lf, l3, hfirst, h3, rfl⟩ := bind_eq_some h2
  obtain ⟨_, s2, ls, l4, hsecond, hpure, rfl⟩ := bind_eq_some h3
  obtain ⟨rfl, rfl, rfl⟩ : _ = n ∧ s2 = t ∧ [] = l4 := by simpa [pure] using hpure
  have hskip : t1 = { s with depth := s.depth + padding s.depth tys } ∧
      lpad.map Item.insn = List.replicate (padding s.depth tys) (.push 31) := by
    unfold Gen.when at hpad
    unfold padding
    by_cases hodd : (s.depth + stackCount tys) % 2 = 1
    · rw [if_pos hodd] at hpad ⊢
      obtain ⟨l', hmove, rfl⟩ := emit_bind hpad
      obtain ⟨rfl, rfl⟩ : _ = t1 ∧ [] = l' := by simpa [move] using hmove
      exact ⟨rfl, rfl⟩
    · rw [if_neg hodd] at hpad ⊢
      obtain ⟨rfl, rfl⟩ : s = t1 ∧ [] = lpad := by simpa [pure] using hpad
      exact ⟨by simp, rfl⟩
  rw [hskip.1] at hfirst
  exact ⟨lpad, lf, ls, s1, hskip.2, hfirst, hsecond, rfl, by simp⟩

theorem parts_genFuncall {offset : Nat → Int} {ty : Ty} {lhs : Expr} {args : Args}
    (h : genExpr offset (.funcall ty lhs args) s = some ((), s', l)) :
    ∃ (s1 s2 s3 : GenState) (d : Int) (lpad lf ls lfn lp lend : List Item),
      l = lpad ++ (lf ++ (ls ++ (lfn ++ (lp ++ (⟨d, .blr 9⟩ :: lend))))) ∧
      lpad.map Item.insn = List.replicate (padding s.depth args.types) (.push 31) ∧
      pushArgs2 offset true args (passByStack args.types 0 0)
        { s with depth := s.depth + padding s.depth args.types } = some ((), s1, lf) ∧
      pushArgs2 offset false args (passByStack args.types 0 0) s1 = some ((), s2, ls) ∧
      genExpr offset lhs s2 = some ((), s3, lfn) ∧
      lp.map Item.insn = .mov .x 9 0 :: popLines args.types (passByStack args.types 0 0) 0 0 ∧
      lend.map Item.insn = afterCall ty (stackCount args.types + padding s.depth args.types) := by
  obtain ⟨n, t, la, lb, hargs, hcall, rfl⟩ := bind_eq_some h
  obtain ⟨lpad, lf, ls, s1, hpad, hfirst, hsecond, hn, rfl⟩ := parts_pushArgs hargs
  obtain ⟨_, s3, lfn, lc, hfn, hmov, rfl⟩ := bind_eq_some hcall
  obtain ⟨ld, hpops, rfl⟩ := emit_bind hmov
  obtain ⟨_, s4, lp, le, hpop, hblr, rfl⟩ := bind_eq_some hpops
  obtain ⟨lg, hext, rfl⟩ := emit_bind hblr
  obtain ⟨lend, hdrop, rfl⟩ := emits_bind hext
  refine ⟨s1, t, s3, s4.depth, lpad, lf, ls, lfn, ⟨s3.depth, .mov .x 9 0⟩ :: lp,
    (extendReturn ty).map (Item.mk s4.depth) ++ lend, by simp, hpad, hfirst, hsecond, hfn, ?_, ?_⟩
  · rw [map_cons, popArgs_eq hpop]
  have hlend : lend.map Item.insn = if 0 < n then [.addSp (n * 16)] else [] := by
    unfold Gen.when at hdrop
    by_cases hpos : 0 < n
    · rw [if_pos hpos] at hdrop ⊢
      obtain ⟨l', hmove, rfl⟩ := emit_bind hdrop
      obtain ⟨-, rfl⟩ : _ = s' ∧ [] = l' := by simpa [move] using hmove
      rfl
    · rw [if_neg hpos] at hdrop ⊢
      obtain ⟨-, rfl⟩ : _ = s' ∧ [] = lend := by simpa [pure] using hdrop
      rfl
  rw [map_append, hlend, hn, afterCall]
  simp [comp_def]

end

section

variable {code l : List Item} {top : Int} {offset : Nat → Int} {ty : Ty} {lhs : Expr} {args : Args}
  {vs ws : List (BitVec 64)} {s s' : GenState} {m m' : Mach}

theorem wp_padding {keep : Mach → Int → Prop} (n : Nat) (hn : n ≤ 1) (htop : m.sp ≤ top) :
    Wp keep (List.replicate n (.push 31)) (fun m' => m'.sp = m.sp - 16 * n ∧ m'.sp ≤ top) m := by
  cases n with
  | zero => exact ⟨by simp, htop⟩
  | succ n =>
    obtain rfl : n = 0 := by omega
    intro m1 hdoes
    rw [hdoes.push_eq]
    exact ⟨by simp, by dsimp only; omega⟩

/-- At the jump every value is at its place. -/
theorem CallRun.placed (h : CallRun code top offset lhs args vs ws s m m')
    (hgen : genExpr offset (.funcall ty lhs args) s = some ((), s', l)) (hl : l <+: code.drop m.pc)
    (hargs : args.leftover = 0) (hlhs : lhs.leftover = 0) (hagg : args.types.countP Ty.isAggregate = 0)
    (hnext : 0 < s.next) (htop : m.sp ≤ top) :
    List.Forall₂ (Place.Holds m') (places args.types 0 0 0) ws ∧
    m'.sp = m.sp - 16 * (stackCount args.types + padding s.depth args.types) ∧
    ∃ d lend, lend.map Item.insn = afterCall ty (stackCount args.types + padding s.depth args.types) ∧
      (⟨d, .blr 9⟩ :: lend : List Item) <+: code.drop m'.pc := by
  obtain ⟨s1, s2, s3, d, lpad, lf, ls, lfn, lp, lend, rfl, hpad, hf, hs, hfn, hp, hend⟩ := parts_genFuncall hgen
  obtain ⟨t1, t2, t3, lfn', m0, m1, m2, m3, hpads, hfirst, hsecond, hfn', heval, hpops⟩ := h.run
  -- the padding
  have hlpad : lpad.length = padding s.depth args.types := by
    have := congrArg List.length hpad
    simpa using this
  have hone : padding s.depth args.types ≤ 1 := by
    unfold padding
    split <;> omega
  rw [← hlpad] at hpads
  obtain ⟨⟨hsp0, htop0⟩, hpc0⟩ := steps_wp (prefix_left hl)
    (fun i hi => by
      have hmem : i.insn ∈ List.replicate (padding s.depth args.types) (Insn.push 31) := by
        rw [← hpad]
        exact mem_map_of_mem hi
      rw [eq_of_mem_replicate hmem]
      rfl)
    hpads (by rw [hpad]; exact wp_padding _ hone htop)
  -- the two passes
  have hl0 := prefix_right hl
  rw [← hpc0] at hl0
  obtain ⟨rfl, hpos1, hpc1, hdone1⟩ := hfirst.done hf (prefix_left hl0) hargs hnext htop0
  have hl1 := prefix_right hl0
  rw [← hpc1] at hl1
  have hsp1 := hdone1.sp
  obtain ⟨rfl, hpos2, hpc2, hdone2⟩ := hsecond.done hs (prefix_left hl1) hargs hpos1 (by omega)
  have hl2 := prefix_right hl1
  rw [← hpc2] at hl2
  -- the function
  obtain ⟨rfl, rfl⟩ : s3 = t3 ∧ lfn = lfn' := by simpa using hfn.symm.trans hfn'
  obtain ⟨-, -, hblock⟩ := block_genExpr hfn hlhs hpos2
  have hl3 := prefix_right hl2
  rw [← heval.arrived] at hl3
  have hlp : lp.length = 1 + (popLines args.types (passByStack args.types 0 0) 0 0).length := by
    have := congrArg List.length hp
    rw [length_map, length_cons] at this
    omega
  have hmute : ∀ i ∈ lp, i.insn.mentions = none := fun i hi => by
    have hmem : i.insn ∈ Insn.mov .x 9 0 :: popLines args.types (passByStack args.types 0 0) 0 0 := by
      rw [← hp]
      exact mem_map_of_mem hi
    rcases mem_cons.1 hmem with hmov | hmem
    · rw [hmov]
      rfl
    · exact mute_popLines _ hmem
  obtain ⟨hsp3, -, hmem3⟩ := heval.frame hblock rfl fun j hj => by
    obtain ⟨i, lp', rfl⟩ : ∃ i lp', lp = i :: lp' := exists_cons_of_length_pos (by omega)
    rw [← heval.arrived, head_placed (prefix_left hl3)] at hj
    obtain rfl := Option.some.inj hj
    exact hmute _ mem_cons_self
  -- the pops
  have hlen : ws.length = args.types.length := hfirst.length.2
  have hflags : ws.length = (passByStack args.types 0 0).length := by rw [hlen, length_passByStack]
  have hstack : (picked true (passByStack args.types 0 0) ws).length = stackCount args.types := length_picked hflags
  have hsp2 := hdone2.sp
  rw [← hlp] at hpops
  have hslots : InSlots m3.mem m3.sp (picked false (passByStack args.types 0 0) ws) := by
    rw [hsp3]
    exact hdone2.slots.keep (by omega) hmem3
  have hrest : InSlots m3.mem (m3.sp + 16 * (picked false (passByStack args.types 0 0) ws).length + 16 * (0 : Nat))
      (picked true (passByStack args.types 0 0) ws) := by
    have haddr : m3.sp + 16 * (picked false (passByStack args.types 0 0) ws).length + 16 * (0 : Nat) = m1.sp := by
      omega
    rw [haddr]
    have hbelow : m1.sp + 16 * (picked true (passByStack args.types 0 0) ws).length ≤ top := by omega
    refine hdone1.slots.keep hbelow fun b hlo hhi => ?_
    rw [hmem3 b (by omega) hhi, hdone2.mem b hlo hhi]
  obtain ⟨hdone, hpc4⟩ := steps_wp (prefix_left hl3) hmute hpops (by
    rw [hp]
    intro m4 hmov
    rw [hmov.value_eq ⟨rfl, rfl⟩ rfl]
    exact wp_popLines args.types ws 0 0 0 _ hlen hagg hslots hrest)
  have hl4 := prefix_right hl3
  rw [← hpc4] at hl4
  have hsp4 := hdone.sp
  dsimp only at hsp4
  exact ⟨hdone.holds, by omega, d, lend, hend, hl4⟩

/-- After the call `sp` is what it was before the pushes. -/
theorem CallRun.dropped {keep : Mach → Int → Prop} {m1 m2 : Mach}
    (h : CallRun code top offset lhs args vs ws s m m')
    (hgen : genExpr offset (.funcall ty lhs args) s = some ((), s', l)) (hl : l <+: code.drop m.pc)
    (hargs : args.leftover = 0) (hlhs : lhs.leftover = 0) (hagg : args.types.countP Ty.isAggregate = 0)
    (hnext : 0 < s.next) (htop : m.sp ≤ top) (hpc : m1.pc = m'.pc + 1) (hsp : m1.sp = m'.sp)
    (hsteps : Steps keep code (afterCall ty (stackCount args.types + padding s.depth args.types)).length m1 m2) :
    m2.sp = m.sp := by
  obtain ⟨-, hsp', d, lend, hend, hl'⟩ := h.placed hgen hl hargs hlhs hagg hnext htop
  have hlend : lend.length = (afterCall ty (stackCount args.types + padding s.depth args.types)).length := by
    rw [← hend, length_map]
  have hafter : lend <+: code.drop m1.pc := by
    rw [hpc]
    exact @prefix_right code [⟨d, .blr 9⟩] lend m'.pc hl'
  have hquiet := quiet_extendReturn ty
  have hmute : ∀ i ∈ lend, i.insn.mentions = none := fun i hi => by
    have hmem : i.insn ∈ afterCall ty (stackCount args.types + padding s.depth args.types) := by
      rw [← hend]
      exact mem_map_of_mem hi
    rcases mem_append.1 hmem with hmem | hmem
    · exact (Insn.quiet_of_isQuiet (all_eq_true.1 hquiet _ hmem)).mute
    split at hmem
    · rw [mem_singleton] at hmem
      rw [hmem]
      rfl
    · cases hmem
  rw [← hlend] at hsteps
  refine (@steps_wp keep code lend (fun m2 => m2.sp = m.sp) m1 m2 hafter hmute hsteps ?_).1
  rw [hend]
  refine Wp.append ((wp_quiet hquiet).mono fun m3 hm3 => ?_)
  split
  · intro m4 hadd
    rw [hadd.addSp_eq]
    show m3.sp + _ = m.sp
    omega
  · show m3.sp = m.sp
    omega

end

end Slopix.Cc
