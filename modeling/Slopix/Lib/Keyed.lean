import Slopix.Lib.Exec

/-!
# Loops over keyed items

A table is seen through what it has for every key. When a pass of a loop changes the table only at the key of its
item, the whole loop is, for every key, a loop over the items of that key alone; and it stops exactly when one of these
does.
-/

namespace Slopix.Lib

variable {ε σ ι κ ν : Type} [DecidableEq κ]

/-- One pass enters its item under its key, or stops because the item cannot be entered, and names the key. -/
structure Keyed (look : σ → κ → Option ν) (key : ι → κ) (enter : Option ν → ι → Option (Option ν))
    (names : ε → κ → Prop) (body : ι → Exec ε σ Unit) : Prop where
  ok : ∀ i s s', body i s = .ok ((), s') →
    enter (look s (key i)) i = some (look s' (key i)) ∧ ∀ k, k ≠ key i → look s' k = look s k
  error : ∀ i s e, body i s = .error e → enter (look s (key i)) i = none ∧ names e (key i)

/-- The items of one key, entered one after the other. -/
def enterAll (enter : Option ν → ι → Option (Option ν)) : Option ν → List ι → Option (Option ν)
  | v, [] => some v
  | v, i :: is => (enter v i).bind fun v => enterAll enter v is

section

variable {look : σ → κ → Option ν} {key : ι → κ} {enter : Option ν → ι → Option (Option ν)}
  {names : ε → κ → Prop} {body : ι → Exec ε σ Unit} {is : List ι} {s s' : σ}

theorem Keyed.step (h : Keyed look key enter names body) {i : ι} (hrun : body i s = .ok ((), s')) (k : κ) :
    enterAll enter (look s k) ((i :: is).filter fun j => key j = k) =
      enterAll enter (look s' k) (is.filter fun j => key j = k) := by
  obtain ⟨henter, hframe⟩ := h.ok i s s' hrun
  by_cases hk : key i = k
  · subst hk
    rw [List.filter_cons_of_pos (by simp), enterAll, henter, Option.bind_some]
  · rw [List.filter_cons_of_neg (by simpa using hk), hframe k (Ne.symm hk)]

/-- **A loop that returns** has entered, under every key, the items of this key. -/
theorem Keyed.each_ok (h : Keyed look key enter names body) (hrun : Exec.each body is s = .ok ((), s')) (k : κ) :
    enterAll enter (look s k) (is.filter fun j => key j = k) = some (look s' k) := by
  induction is generalizing s with
  | nil =>
    cases hrun
    rfl
  | cons i is ih =>
    cases hbody : body i s with
    | error e =>
      rw [Exec.each, Exec.bind_error hbody] at hrun
      cases hrun
    | ok r =>
      rw [Exec.each, Exec.bind_ok hbody] at hrun
      rw [h.step hbody, ih hrun]

/-- **A loop that stops** has met an item that could not be entered. -/
theorem Keyed.each_error (h : Keyed look key enter names body) {e : ε} (hrun : Exec.each body is s = .error e) :
    ∃ k, enterAll enter (look s k) (is.filter fun j => key j = k) = none ∧ names e k := by
  induction is generalizing s with
  | nil => cases hrun
  | cons i is ih =>
    cases hbody : body i s with
    | error e' =>
      rw [Exec.each, Exec.bind_error hbody, Except.error.injEq] at hrun
      subst hrun
      obtain ⟨henter, hnames⟩ := h.error i s e' hbody
      refine ⟨key i, ?_, hnames⟩
      rw [List.filter_cons_of_pos (by simp), enterAll, henter]
      rfl
    | ok r =>
      rw [Exec.each, Exec.bind_ok hbody] at hrun
      obtain ⟨k, hk, hnames⟩ := ih hrun
      exact ⟨k, by rw [h.step hbody, hk], hnames⟩

end

end Slopix.Lib
