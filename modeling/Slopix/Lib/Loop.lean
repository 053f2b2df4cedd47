import Mathlib.Algebra.Order.Ring.Nat
import Mathlib.Data.List.Range

/-!
# Loops with an early exit

`forList body l s` runs `body` on the elements of `l` in order and stops at the first `false`. The
rule `forList_range` proves an invariant of the loop over `0 .. n - 1` together with what holds when
the loop stops early.
-/

namespace Slopix.Lib

open List

universe u v

variable {σ : Type u} {α : Type v}

/-- Run `body` on each element until it returns `false`; the result tells whether it never did. -/
def forList (body : α → σ → Bool × σ) : List α → σ → Bool × σ
  | [], s => (true, s)
  | a :: as, s =>
    match body a s with
    | (true, s') => forList body as s'
    | (false, s') => (false, s')

theorem forList_append (body : α → σ → Bool × σ) (l1 l2 : List α) (s : σ) :
    forList body (l1 ++ l2) s =
      if (forList body l1 s).1 then forList body l2 (forList body l1 s).2 else forList body l1 s := by
  induction l1 generalizing s with
  | nil => rfl
  | cons a as ih =>
    rw [cons_append, forList, forList]
    rcases body a s with ⟨ok, s'⟩
    cases ok with
    | true => exact ih s'
    | false => rfl

theorem forList_rel {R : σ → σ → Prop} (hrefl : ∀ s, R s s) (htrans : ∀ s t u, R s t → R t u → R s u)
    {body : α → σ → Bool × σ} (hbody : ∀ a s, R s (body a s).2) (l : List α) (s : σ) :
    R s (forList body l s).2 := by
  induction l generalizing s with
  | nil => exact hrefl s
  | cons a as ih =>
    rw [forList]
    have hfirst := hbody a s
    rcases hr : body a s with ⟨ok, s'⟩
    rw [hr] at hfirst
    cases ok with
    | true => exact htrans s s' _ hfirst (ih s')
    | false => exact hfirst

/-- The invariant rule: `I k` holds before pass `k`, a pass that goes on establishes `I (k + 1)` and
one that stops establishes `J`. -/
theorem forList_range {f : Nat → σ → Bool × σ} {I : Nat → σ → Prop} {J : σ → Prop} {n : Nat}
    {s : σ} (h0 : I 0 s)
    (hgo : ∀ k s s', k < n → I k s → f k s = (true, s') → I (k + 1) s')
    (hstop : ∀ k s s', k < n → I k s → f k s = (false, s') → J s') :
    (∀ s', forList f (List.range n) s = (true, s') → I n s') ∧
      ∀ s', forList f (List.range n) s = (false, s') → J s' := by
  induction n with
  | zero =>
    constructor
    · intro s' h
      obtain ⟨-, rfl⟩ := Prod.mk.inj h
      exact h0
    · intro s' h
      cases (Prod.mk.inj h).1
  | succ n ih =>
    obtain ⟨ihgo, ihstop⟩ := ih (fun k s s' hk => hgo k s s' (by omega))
      (fun k s s' hk => hstop k s s' (by omega))
    rw [range_succ, forList_append]
    rcases hfirst : forList f (List.range n) s with ⟨ok, t⟩
    cases ok with
    | false =>
      constructor
      · intro s' h
        cases (Prod.mk.inj h).1
      · intro s' h
        obtain ⟨-, rfl⟩ := Prod.mk.inj h
        exact ihstop t hfirst
    | true =>
      have hinv := ihgo t hfirst
      simp only [if_true, forList]
      rcases hlast : f n t with ⟨ok, t'⟩
      cases ok with
      | true =>
        constructor
        · intro s' h
          obtain ⟨-, rfl⟩ := Prod.mk.inj h
          exact hgo n t t' (by omega) hinv hlast
        · intro s' h
          cases (Prod.mk.inj h).1
      | false =>
        constructor
        · intro s' h
          cases (Prod.mk.inj h).1
        · intro s' h
          obtain ⟨-, rfl⟩ := Prod.mk.inj h
          exact hstop n t t' (by omega) hinv hlast

/-- A fold with an invariant and a measure: every step keeps `I`, and raises `Φ` by at most the weight
of its element, as long as the bound has room for it. -/
theorem foldl_measure {f : σ → α → σ} {I : σ → Prop} {Φ : σ → Nat} {w : α → Nat} {bound : Nat}
    {l : List α} {s : σ}
    (hstep : ∀ s a, a ∈ l → I s → Φ s + w a ≤ bound → I (f s a) ∧ Φ (f s a) ≤ Φ s + w a)
    (hI : I s) (hbound : Φ s + (l.map w).sum ≤ bound) :
    I (l.foldl f s) ∧ Φ (l.foldl f s) ≤ Φ s + (l.map w).sum := by
  induction l generalizing s with
  | nil => exact ⟨hI, Nat.le_refl _⟩
  | cons a l ih =>
    rw [map_cons, sum_cons] at hbound ⊢
    obtain ⟨hI', hw⟩ := hstep s a mem_cons_self hI (by omega)
    obtain ⟨hI'', hw'⟩ := ih (fun s b hb => hstep s b (mem_cons_of_mem _ hb)) hI' (by omega)
    exact ⟨hI'', by rw [foldl_cons]; omega⟩

/-- A running maximum is above its start and every value it has seen. -/
theorem le_foldl_max (f : α → Nat) (l : List α) (x : Nat) :
    x ≤ l.foldl (fun x h => max x (f h)) x ∧ ∀ h ∈ l, f h ≤ l.foldl (fun x h => max x (f h)) x := by
  induction l generalizing x with
  | nil => exact ⟨le_refl x, fun h hh => by cases hh⟩
  | cons a l ih =>
    obtain ⟨hstart, hrest⟩ := ih (max x (f a))
    refine ⟨(le_max_left _ _).trans hstart, fun h hh => ?_⟩
    rcases mem_cons.1 hh with rfl | hh
    · exact (le_max_right _ _).trans hstart
    · exact hrest h hh

theorem foldl_max_lt {f : α → Nat} {B : Nat} {l : List α} {x : Nat} (hx : x < B)
    (hl : ∀ h ∈ l, f h < B) : l.foldl (fun x h => max x (f h)) x < B := by
  induction l generalizing x with
  | nil => exact hx
  | cons a l ih =>
    exact ih (max_lt hx (hl a mem_cons_self)) fun h hh => hl h (mem_cons_of_mem a hh)

end Slopix.Lib
