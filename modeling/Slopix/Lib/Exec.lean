import Mathlib.Logic.Basic

/-!
# Programs that change a state and may stop

`Exec ε σ α` is a program on states `σ` that returns an `α` or stops with a reason `ε` and never
returns. `Holds r Q E` says what a run ends with: `Q` for the result and the final state when the
program returns, `E` for the reason when it stops. The rules follow the shape of a program; a loop or
a call is used through its own `Holds` statement with `Holds.bind`.
-/

namespace Slopix.Lib

/-- A program on states `σ` that returns an `α` or stops with an `ε`. -/
def Exec (ε σ α : Type) : Type := σ → Except ε (α × σ)

namespace Exec

variable {ε σ τ α β : Type}

instance : Monad (Exec ε σ) where
  pure a := fun s => .ok (a, s)
  bind m f := fun s =>
    match m s with
    | .ok (a, s') => f a s'
    | .error e => .error e

/-- Read the state. -/
def gets (f : σ → α) : Exec ε σ α := fun s => .ok (f s, s)

/-- Change the state. -/
def modify (f : σ → σ) : Exec ε σ Unit := fun s => .ok ((), f s)

/-- A step that always returns. -/
def step (f : σ → α × σ) : Exec ε σ α := fun s => .ok (f s)

/-- The program stops here. -/
def stop (e : ε) : Exec ε σ α := fun _ => .error e

/-- Run a program on one part of a larger state. -/
def zoom (get : τ → σ) (set : τ → σ → τ) (m : Exec ε σ α) : Exec ε τ α := fun t =>
  match m (get t) with
  | .ok (a, s) => .ok (a, set t s)
  | .error e => .error e

/-- Run `body` on each element until it returns `false`; the result tells whether it never did. -/
def all (body : α → Exec ε σ Bool) : List α → Exec ε σ Bool
  | [] => pure true
  | a :: as => do
      if ← body a then all body as else pure false

/-- Run `body` on each element. -/
def each (body : α → Exec ε σ Unit) : List α → Exec ε σ Unit
  | [] => pure ()
  | a :: as => do
      body a
      each body as

instance : LawfulMonad (Exec ε σ) :=
  LawfulMonad.mk' (Exec ε σ)
    (by
      intro α m
      funext s
      show (match m s with
        | .ok (a, t) => .ok (a, t)
        | .error e => .error e) = m s
      cases m s with
      | ok r => rfl
      | error e => rfl)
    (fun a f => rfl)
    (by
      intro α β γ m f g
      funext s
      show (match (match m s with
          | .ok (a, t) => f a t
          | .error e => .error e) with
        | .ok (b, t) => g b t
        | .error e => .error e) =
        match m s with
        | .ok (a, t) => (f a >>= g) t
        | .error e => .error e
      cases m s with
      | ok r => rfl
      | error e => rfl)

theorem each_append (body : α → Exec ε σ Unit) (l1 l2 : List α) :
    each body (l1 ++ l2) = (do each body l1; each body l2) := by
  induction l1 with
  | nil => rfl
  | cons a l1 ih => rw [List.cons_append, each, each, ih, bind_assoc]

theorem each_map (body : β → Exec ε σ Unit) (f : α → β) (l : List α) :
    each body (l.map f) = each (fun a => body (f a)) l := by
  induction l with
  | nil => rfl
  | cons a l ih => rw [List.map_cons, each, each, ih]

variable {m : Exec ε σ β}

/-- A first part that succeeds is run. -/
theorem bind_ok {f : β → Exec ε σ α} {s t : σ} {b : β} (h : m s = .ok (b, t)) :
    (m >>= f) s = f b t := by
  show (match m s with
    | .ok (b, t) => f b t
    | .error e => .error e) = _
  rw [h]

/-- A first part that stops, stops the whole. -/
theorem bind_error {f : β → Exec ε σ α} {s : σ} {e : ε} (h : m s = .error e) :
    (m >>= f) s = .error e := by
  show (match m s with
    | .ok (b, s') => f b s'
    | .error e => .error e) = _
  rw [h]

/-- If a sequence succeeds then so does each part. -/
theorem bind_inv {f : β → Exec ε σ α} {s : σ} {r : α × σ} (h : (m >>= f) s = .ok r) :
    ∃ b t, m s = .ok (b, t) ∧ f b t = .ok r := by
  cases hm : m s with
  | ok x =>
    obtain ⟨b, t⟩ := x
    rw [bind_ok hm] at h
    exact ⟨b, t, rfl, h⟩
  | error e =>
    rw [bind_error hm] at h
    cases h

theorem bind_bind {γ : Type} (m : Exec ε σ γ) (f : γ → Exec ε σ β) (g : β → Exec ε σ α) (s : σ) :
    (m >>= f >>= g) s = (m >>= fun c => f c >>= g) s := by
  cases h : m s with
  | ok r =>
    obtain ⟨c, t⟩ := r
    rw [bind_ok h]
    show (match (m >>= f) s with
      | .ok (b, t) => g b t
      | .error e => .error e) = _
    rw [bind_ok h]
    rfl
  | error e => rw [bind_error h, bind_error (bind_error h)]

theorem zoom_ok {get : τ → σ} {set : τ → σ → τ} {m : Exec ε σ α} {t : τ} {s : σ} {a : α}
    (h : m (get t) = .ok (a, s)) : zoom get set m t = .ok (a, set t s) := by
  unfold zoom
  rw [h]

theorem zoom_inv {get : τ → σ} {set : τ → σ → τ} {m : Exec ε σ α} {t t' : τ} {a : α}
    (h : zoom get set m t = .ok (a, t')) : ∃ s, m (get t) = .ok (a, s) ∧ t' = set t s := by
  unfold zoom at h
  cases hm : m (get t) with
  | ok x =>
    obtain ⟨b, s⟩ := x
    rw [hm] at h
    cases h
    exact ⟨s, rfl, rfl⟩
  | error e =>
    rw [hm] at h
    cases h

theorem zoom_error {get : τ → σ} {set : τ → σ → τ} {m : Exec ε σ α} {t : τ} {e : ε}
    (h : m (get t) = .error e) : zoom get set m t = .error e := by
  unfold zoom
  rw [h]

end Exec

/-- What the end of a run satisfies. -/
structure Holds {ε σ α : Type} (r : Except ε (α × σ)) (Q : α → σ → Prop) (E : ε → Prop) : Prop where
  ok : ∀ a s, r = .ok (a, s) → Q a s
  error : ∀ e, r = .error e → E e

section

variable {ε σ τ α β : Type} {Q : α → σ → Prop} {E : ε → Prop} {s : σ}

theorem holds_ok {a : α} (h : Q a s) : Holds (.ok (a, s)) Q E where
  ok a' s' e := by
    cases e
    exact h
  error _ e := by cases e

theorem holds_error {e : ε} (h : E e) : Holds (.error e : Except ε (α × σ)) Q E where
  ok _ _ e' := by cases e'
  error _ e' := by
    cases e'
    exact h

variable {Q' : α → σ → Prop} {g : β → Exec ε σ α}

theorem Holds.mono {r : Except ε (α × σ)} {E' : ε → Prop} (h : Holds r Q E)
    (hQ : ∀ a s, Q a s → Q' a s) (hE : ∀ e, E e → E' e) : Holds r Q' E' where
  ok a s e := hQ a s (h.ok a s e)
  error e he := hE e (h.error e he)

theorem Holds.imp {r : Except ε (α × σ)} (h : Holds r Q E)
    (hQ : ∀ a s, Q a s → Q' a s) : Holds r Q' E :=
  h.mono hQ fun _ he => he

/-- Two facts about one run. -/
theorem Holds.both {r : Except ε (α × σ)} (h : Holds r Q E)
    (h' : Holds r Q' E) : Holds r (fun a s => Q a s ∧ Q' a s) E where
  ok a s e := ⟨h.ok a s e, h'.ok a s e⟩
  error := h.error

/-- Sequencing: what the first part ends with is the start of the second. -/
theorem Holds.bind {m : Exec ε σ β} {f : β → Exec ε σ α} {R : β → σ → Prop}
    (h : Holds (m s) R E) (hf : ∀ b s', R b s' → Holds (f b s') Q E) :
    Holds ((m >>= f) s) Q E := by
  have hbind : (m >>= f) s = match m s with
    | .ok (b, s') => f b s'
    | .error e => .error e := rfl
  rw [hbind]
  cases hm : m s with
  | ok r =>
    obtain ⟨b, s'⟩ := r
    exact hf b s' (h.ok b s' hm)
  | error e => exact holds_error (h.error e hm)

theorem Holds.bind_run {m : Exec ε σ β} {f : β → Exec ε σ α} {R : β → σ → Prop}
    (h : Holds (m s) R E) (hf : ∀ b s', m s = .ok (b, s') → R b s' → Holds (f b s') Q E) :
    Holds ((m >>= f) s) Q E := by
  have hrun : Holds (m s) (fun b s' => m s = .ok (b, s') ∧ R b s') E :=
    ⟨fun b s' e => ⟨e, h.ok b s' e⟩, h.error⟩
  exact hrun.bind fun b s' hb => hf b s' hb.1 hb.2

theorem holds_pure {a : α} (h : Q a s) : Holds ((pure a : Exec ε σ α) s) Q E := holds_ok h

theorem holds_gets {f : σ → α} (h : Q (f s) s) : Holds (Exec.gets (ε := ε) f s) Q E := holds_ok h

theorem holds_modify {Q : Unit → σ → Prop} {f : σ → σ} (h : Q () (f s)) :
    Holds (Exec.modify (ε := ε) f s) Q E := holds_ok h

theorem holds_step {f : σ → α × σ} (h : Q (f s).1 (f s).2) :
    Holds (Exec.step (ε := ε) f s) Q E := holds_ok h

theorem holds_stop {e : ε} (h : E e) : Holds ((Exec.stop e : Exec ε σ α) s) Q E := holds_error h

theorem holds_ite {c : Prop} [Decidable c] {m m' : Exec ε σ α} (h : c → Holds (m s) Q E)
    (h' : ¬ c → Holds (m' s) Q E) : Holds ((if c then m else m') s) Q E := by
  by_cases hc : c
  · rw [if_pos hc]
    exact h hc
  · rw [if_neg hc]
    exact h' hc

/-- A run on a part of the state. -/
theorem holds_zoom {get : τ → σ} {set : τ → σ → τ} {m : Exec ε σ α} {Q : α → τ → Prop} {t : τ}
    (h : Holds (m (get t)) (fun a s => Q a (set t s)) E) :
    Holds (Exec.zoom get set m t) Q E := by
  unfold Exec.zoom
  cases hm : m (get t) with
  | ok r =>
    obtain ⟨a, s⟩ := r
    exact holds_ok (h.ok a s hm)
  | error e => exact holds_error (h.error e hm)

theorem holds_gets_bind {f : σ → β} (h : Holds (g (f s) s) Q E) :
    Holds ((Exec.gets f >>= g) s) Q E := h

theorem holds_modify_bind {f : σ → σ} {g : Unit → Exec ε σ α} (h : Holds (g () (f s)) Q E) :
    Holds ((Exec.modify f >>= g) s) Q E := h

theorem holds_step_bind {f : σ → β × σ} (h : Holds (g (f s).1 (f s).2) Q E) :
    Holds ((Exec.step f >>= g) s) Q E := h

theorem holds_stop_bind {e : ε} (h : E e) :
    Holds ((Exec.stop e >>= g) s) Q E := holds_error h

theorem holds_pure_bind {b : β} (h : Holds (g b s) Q E) :
    Holds ((pure b >>= g) s) Q E := h

theorem holds_all {I : σ → Prop} {body : β → Exec ε σ Bool} {l : List β}
    (hbody : ∀ b ∈ l, ∀ s, I s → Holds (body b s) (fun _ s' => I s') E) (h : I s) :
    Holds (Exec.all body l s) (fun _ s' => I s') E := by
  induction l generalizing s with
  | nil => exact holds_pure h
  | cons b l ih =>
    refine (hbody b List.mem_cons_self s h).bind fun ok s' hs' => ?_
    apply holds_ite
    · exact fun _ => ih (fun c hc => hbody c (List.mem_cons_of_mem b hc)) hs'
    · exact fun _ => holds_pure hs'

end

end Slopix.Lib
