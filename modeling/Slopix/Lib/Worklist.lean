import Mathlib.Data.Multiset.DershowitzManna

/-!
# Worklists

A worklist is taken from its front, and every element that comes back is below one that was taken. Such a list runs out,
however many elements come back.
-/

namespace Slopix.Lib

variable {α β σ : Type*} [Preorder β] [WellFoundedLT β]

/-- A part of the front goes, and smaller elements come. -/
def Shrinks (rank : α → β) (l' l : List α) : Prop :=
  ∃ new front rest, front ≠ [] ∧ l = front ++ rest ∧ l' = new ++ rest ∧ ∀ x ∈ new, ∃ y ∈ front, rank x < rank y

omit [WellFoundedLT β] in
theorem Shrinks.of_suffix {rank : α → β} {a : α} {l l' : List α} (h : l' <:+ l) : Shrinks rank l' (a :: l) := by
  obtain ⟨front, rfl⟩ := h
  exact ⟨[], a :: front, l', List.cons_ne_nil _ _, rfl, rfl, nofun⟩

/-- The ranks of the elements get smaller as a multiset. -/
theorem wellFounded_shrinks (rank : α → β) : WellFounded (Shrinks rank) := by
  refine Subrelation.wf ?_ (InvImage.wf (fun l : List α => (l.map rank : Multiset β)) Multiset.wellFounded_isDershowitzMannaLT)
  rintro l' l ⟨new, front, rest, hfront, rfl, rfl, hsmaller⟩
  have hsplit : ∀ l1 : List α, (((l1 ++ rest).map rank : List β) : Multiset β) = rest.map rank + (l1.map rank : List β) := by
    intro l1
    rw [List.map_append, add_comm]
    rfl
  refine ⟨rest.map rank, new.map rank, front.map rank, ?_, hsplit new, hsplit front, ?_⟩
  · simpa using hfront
  intro y hy
  obtain ⟨x, hx, rfl⟩ := List.mem_map.1 (Multiset.mem_coe.1 hy)
  obtain ⟨z, hz, hlt⟩ := hsmaller x hx
  exact ⟨rank z, Multiset.mem_coe.2 (List.mem_map_of_mem hz), hlt⟩

/-- **Every run ends** whose steps shrink the worklist. -/
theorem exists_end {next : σ → σ → Prop} {work : σ → List α} {rank : α → β} {I : σ → Prop}
    (hstep : ∀ s s', I s → next s s' → I s' ∧ Shrinks rank (work s') (work s)) {s : σ} (h : I s) :
    ∃ s', Relation.ReflTransGen next s s' ∧ I s' ∧ ∀ s'', ¬ next s' s'' := by
  induction hl : work s using (wellFounded_shrinks rank).induction generalizing s with
  | _ l ih =>
    subst hl
    by_cases hnext : ∃ s', next s s'
    · obtain ⟨s1, hs1⟩ := hnext
      obtain ⟨hI, hless⟩ := hstep s s1 h hs1
      obtain ⟨s', hrun, hend⟩ := ih _ hless hI rfl
      exact ⟨s', hrun.head hs1, hend⟩
    · exact ⟨s, .refl, h, not_exists.1 hnext⟩

/-- A run does not leave a list that the steps do not leave. -/
theorem mem_of_closed {next : σ → σ → Prop} {l : List σ} {s0 s : σ} (hl : ∀ s ∈ l, ∀ s', next s s' → s' ∈ l) (h : s0 ∈ l)
    (hrun : Relation.ReflTransGen next s0 s) : s ∈ l := by
  induction hrun with
  | refl => exact h
  | tail _ hnext ih => exact hl _ ih _ hnext

end Slopix.Lib
