import Mathlib.Tactic.Common

/-!
# Control flow

Programs whose conditions are left open: a branch may go either way and a loop may go round any
number of times. What is kept of a program is the order of its basic actions, its branches, loops,
`break` and `return`, and its calls, which have local variables of their own.

`Runs` are the paths through a program. An invariant of the basic actions is one of every program made
of them, and `Returns` says what holds wherever a program returns.
-/

namespace Slopix.Lib.Flow

universe u v

/-- Programs over the actions `α`. -/
inductive Code (α : Type u) where
  | skip
  | act (a : α)
  | seq (p q : Code α)
  | alt (p q : Code α)
  | loop (p : Code α)
  | brk
  | ret
  | call (p : Code α)

namespace Code

variable {α : Type u}

/-- One program after the other. -/
def block : List (Code α) → Code α
  | [] => skip
  | [p] => p
  | p :: q :: ps => seq p (block (q :: ps))

/-- `if` without `else`. -/
def opt (p : Code α) : Code α := alt p skip

/-- The actions of a program, those of the programs it calls included. -/
def All (ok : α → Bool) : Code α → Bool
  | skip | brk | ret => true
  | act a => ok a
  | seq p q | alt p q => All ok p && All ok q
  | loop p | call p => All ok p

end Code

/-- How a program is left. -/
inductive Exit where
  | next
  | brk
  | ret
deriving DecidableEq, Repr

/-- The meaning of the actions, of the entry of a call and of the return from it. -/
structure Meaning (α : Type u) (σ : Type v) where
  act : α → σ → σ
  enter : σ → σ
  leave : σ → σ → σ

section

variable {α : Type u} {σ : Type v}

/-- The paths through a program. -/
inductive Runs (M : Meaning α σ) : Code α → σ → Exit → σ → Prop where
  | skip {s : σ} : Runs M .skip s .next s
  | act {a : α} {s : σ} : Runs M (.act a) s .next (M.act a s)
  | seq {p q : Code α} {s t u : σ} {e : Exit} (hp : Runs M p s .next t) (hq : Runs M q t e u) :
      Runs M (.seq p q) s e u
  | leave {p q : Code α} {s t : σ} {e : Exit} (hp : Runs M p s e t) (he : e ≠ .next) :
      Runs M (.seq p q) s e t
  | left {p q : Code α} {s t : σ} {e : Exit} (hp : Runs M p s e t) : Runs M (.alt p q) s e t
  | right {p q : Code α} {s t : σ} {e : Exit} (hq : Runs M q s e t) : Runs M (.alt p q) s e t
  | done {p : Code α} {s : σ} : Runs M (.loop p) s .next s
  | again {p : Code α} {s t u : σ} {e : Exit} (hp : Runs M p s .next t)
      (hl : Runs M (.loop p) t e u) : Runs M (.loop p) s e u
  | broken {p : Code α} {s t : σ} (hp : Runs M p s .brk t) : Runs M (.loop p) s .next t
  | returned {p : Code α} {s t : σ} (hp : Runs M p s .ret t) : Runs M (.loop p) s .ret t
  | brk {s : σ} : Runs M .brk s .brk s
  | ret {s : σ} : Runs M .ret s .ret s
  | call {p : Code α} {s t : σ} {e : Exit} (hp : Runs M p (M.enter s) e t) :
      Runs M (.call p) s .next (M.leave s t)

variable {M : Meaning α σ}

theorem exists_runs (M : Meaning α σ) (p : Code α) (s : σ) : ∃ e t, Runs M p s e t := by
  induction p generalizing s with
  | skip => exact ⟨_, _, .skip⟩
  | act a => exact ⟨_, _, .act⟩
  | seq p q ihp ihq =>
    obtain ⟨e, t, hp⟩ := ihp s
    cases e with
    | next =>
      obtain ⟨e, u, hq⟩ := ihq t
      exact ⟨e, u, .seq hp hq⟩
    | brk => exact ⟨_, _, .leave hp (by decide)⟩
    | ret => exact ⟨_, _, .leave hp (by decide)⟩
  | alt p q ihp _ =>
    obtain ⟨e, t, hp⟩ := ihp s
    exact ⟨e, t, .left hp⟩
  | loop p _ => exact ⟨_, _, .done⟩
  | brk => exact ⟨_, _, .brk⟩
  | ret => exact ⟨_, _, .ret⟩
  | call p ih =>
    obtain ⟨e, t, hp⟩ := ih (M.enter s)
    exact ⟨_, _, .call hp⟩

/-- A program keeps what its actions, its calls and its returns keep. -/
theorem Runs.invariant {ok : α → Bool} {I : σ → Prop} (hact : ∀ a s, ok a = true → I s → I (M.act a s))
    (henter : ∀ s, I s → I (M.enter s)) (hleave : ∀ s t, I s → I t → I (M.leave s t))
    {p : Code α} {s t : σ} {e : Exit} (h : Runs M p s e t) (hp : p.All ok = true) (hs : I s) : I t := by
  induction h with
  | skip => exact hs
  | act => exact hact _ _ hp hs
  | seq _ _ ihp ihq =>
    rw [Code.All, Bool.and_eq_true] at hp
    exact ihq hp.2 (ihp hp.1 hs)
  | leave _ _ ihp =>
    rw [Code.All, Bool.and_eq_true] at hp
    exact ihp hp.1 hs
  | left _ ih =>
    rw [Code.All, Bool.and_eq_true] at hp
    exact ih hp.1 hs
  | right _ ih =>
    rw [Code.All, Bool.and_eq_true] at hp
    exact ih hp.2 hs
  | done => exact hs
  | again _ _ ihp ihl => exact ihl hp (ihp hp hs)
  | broken _ ih => exact ih hp hs
  | returned _ ih => exact ih hp hs
  | brk => exact hs
  | ret => exact hs
  | call _ ih => exact hleave _ _ hs (ih hp (henter _ hs))

end

/-! ## What holds at the exits -/

section

variable {α : Type u} {σ : Type v} {M : Meaning α σ} {p q : Code α} {R : σ → Prop}

/-- Every path that returns ends in `R`. -/
def Returns (M : Meaning α σ) (p : Code α) (R : σ → Prop) : Prop :=
  ∀ ⦃s t⦄, Runs M p s .ret t → R t

/-- No path leaves the program by a `break`. -/
def Whole (M : Meaning α σ) (p : Code α) : Prop := ∀ ⦃s t⦄, ¬ Runs M p s .brk t

/-- No path goes on behind the program. -/
def Final (M : Meaning α σ) (p : Code α) : Prop := ∀ ⦃s t⦄, ¬ Runs M p s .next t

theorem returns_skip : Returns M .skip R := by
  intro s t h
  cases h

theorem returns_brk : Returns M .brk R := by
  intro s t h
  cases h

theorem returns_call : Returns M (.call p) R := by
  intro s t h
  cases h

theorem returns_seq (hp : Returns M p R) (hq : Returns M q R) : Returns M (.seq p q) R := by
  intro s t h
  cases h with
  | seq _ h => exact hq h
  | leave h _ => exact hp h

theorem returns_alt (hp : Returns M p R) (hq : Returns M q R) : Returns M (.alt p q) R := by
  intro s t h
  cases h with
  | left h => exact hp h
  | right h => exact hq h

theorem returns_loop (hp : Returns M p R) : Returns M (.loop p) R := by
  intro s t h
  generalize hl : Code.loop p = l at h
  generalize he : Exit.ret = e at h
  induction h with
  | again _ _ _ ih => exact ih hl he
  | returned h =>
    cases hl
    exact hp h
  | done => cases he
  | broken _ _ => cases he
  | _ => cases hl

theorem returns_call_ret (hp : ∀ s e t, Runs M p (M.enter s) e t → R (M.leave s t)) :
    Returns M (.seq (.call p) .ret) R := by
  intro s t h
  cases h with
  | seq h h' =>
    cases h' with
    | ret =>
      cases h with
      | call h => exact hp _ _ _ h
  | leave h _ => exact returns_call h

theorem whole_skip : Whole M .skip := by
  intro s t h
  cases h

theorem whole_ret : Whole M .ret := by
  intro s t h
  cases h

theorem whole_call : Whole M (.call p) := by
  intro s t h
  cases h

theorem whole_seq (hp : Whole M p) (hq : Whole M q) : Whole M (.seq p q) := by
  intro s t h
  cases h with
  | seq _ h => exact hq h
  | leave h _ => exact hp h

theorem whole_alt (hp : Whole M p) (hq : Whole M q) : Whole M (.alt p q) := by
  intro s t h
  cases h with
  | left h => exact hp h
  | right h => exact hq h

theorem whole_loop : Whole M (.loop p) := by
  intro s t h
  generalize hl : Code.loop p = l at h
  generalize he : Exit.brk = e at h
  induction h with
  | again _ _ _ ih => exact ih hl he
  | done => cases he
  | broken _ _ => cases he
  | returned _ _ => cases he
  | _ => cases hl

theorem final_ret : Final M .ret := by
  intro s t h
  cases h

theorem final_seq (hq : Final M q) : Final M (.seq p q) := by
  intro s t h
  cases h with
  | seq _ h => exact hq h
  | leave _ he => exact he rfl

end

end Slopix.Lib.Flow
