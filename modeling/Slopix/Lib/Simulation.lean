import Mathlib.Tactic.Common

/-!
# Machines and what they stand for

A machine takes inputs one after the other, answers each, and may have no result. A reference machine always
answers. Where a relation between the states is kept by every step on an allowed input, and the answers
agree, the answers agree along every run of allowed inputs.
-/

universe u v w x

namespace Slopix.Lib

variable {σ : Type u} {τ : Type v} {ι : Type w} {ο : Type x}

/-- The answers of a machine and the state it ends in. -/
def trace (step : σ → ι → Option (ο × σ)) : σ → List ι → Option (List ο × σ)
  | s, [] => some ([], s)
  | s, i :: is => (step s i).bind fun p => (trace step p.2 is).map fun q => (p.1 :: q.1, q.2)

/-- The answers of a machine that always answers. -/
def refTrace (spec : τ → ι → ο × τ) : τ → List ι → List ο × τ
  | t, [] => ([], t)
  | t, i :: is => ((spec t i).1 :: (refTrace spec (spec t i).2 is).1, (refTrace spec (spec t i).2 is).2)

/-- Every input is allowed in the state that it finds. -/
def Allowed (ok : σ → ι → Prop) (step : σ → ι → Option (ο × σ)) : σ → List ι → Prop
  | _, [] => True
  | s, i :: is => ok s i ∧ ∀ p, step s i = some p → Allowed ok step p.2 is

/-- A step on an allowed input answers like the reference, and keeps the relation. -/
def Simulates (step : σ → ι → Option (ο × σ)) (spec : τ → ι → ο × τ) (ok : σ → ι → Prop) (R : σ → τ → Prop) : Prop :=
  ∀ s t i, R s t → ok s i → ∃ s', step s i = some ((spec t i).1, s') ∧ R s' (spec t i).2

/-- **Runs of allowed inputs agree.** -/
theorem Simulates.run {step : σ → ι → Option (ο × σ)} {spec : τ → ι → ο × τ} {ok : σ → ι → Prop} {R : σ → τ → Prop}
    (h : Simulates step spec ok R) {s : σ} {t : τ} {is : List ι} (hR : R s t) (hok : Allowed ok step s is) :
    ∃ s', trace step s is = some ((refTrace spec t is).1, s') ∧ R s' (refTrace spec t is).2 := by
  induction is generalizing s t with
  | nil => exact ⟨s, rfl, hR⟩
  | cons i is ih =>
    obtain ⟨s1, hstep, hR1⟩ := h s t i hR hok.1
    obtain ⟨s', htrace, hR'⟩ := ih hR1 (hok.2 _ hstep)
    refine ⟨s', ?_, hR'⟩
    rw [trace, hstep, Option.bind_some, htrace]
    rfl

end Slopix.Lib
