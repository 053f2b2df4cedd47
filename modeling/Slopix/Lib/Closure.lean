import Mathlib.Data.Set.Basic

/-!
# Supplying what is missing

Some names are wanted from the start and some are given. An item defines names and wants names, and
`offers s m` says that the item `m` is on offer for the name `s`. Items are pulled in one after the
other, each for a name that is wanted and not yet defined. A set is closed when every item on offer
for a name it leaves missing is in it. When no name has two sources, what has been pulled in lies in
every closed set, so pulling until the set is closed gives the least one, in whatever order.
-/

namespace Slopix.Lib

open List

universe u v

/-- Who wants, defines and offers which names. -/
structure Supply (μ : Type u) (ν : Type v) where
  roots : Set ν
  given : Set ν
  wants : μ → Set ν
  defines : μ → Set ν
  offers : ν → μ → Prop

namespace Supply

variable {μ μ' : Type u} {ν : Type v} (d : Supply μ ν)

/-- The name is wanted and not defined once the items of `S` are in. -/
def Missing (S : Set μ) (s : ν) : Prop :=
  (s ∈ d.roots ∨ ∃ m ∈ S, s ∈ d.wants m) ∧ s ∉ d.given ∧ ∀ m ∈ S, s ∉ d.defines m

/-- Every item on offer for a missing name is in. -/
def Closed (S : Set μ) : Prop := ∀ s, d.Missing S s → ∀ m, d.offers s m → m ∈ S

/-- The least closed set. -/
def Least (S : Set μ) : Prop := d.Closed S ∧ ∀ T, d.Closed T → S ⊆ T

/-- Items pulled in one after the other, each for a name missing at its time. -/
inductive Pulls : List μ → Prop where
  | nil : Pulls []
  | snoc {l : List μ} {m : μ} {s : ν} (h : Pulls l) (hs : d.Missing {x | x ∈ l} s)
      (ho : d.offers s m) (hm : m ∉ l) : Pulls (l ++ [m])

/-- No name has two sources. -/
def OneSource : Prop :=
  ∀ s m m', (d.offers s m ∨ s ∈ d.defines m) → (d.offers s m' ∨ s ∈ d.defines m') → m = m'

variable {d}

theorem Pulls.nodup {l : List μ} (h : d.Pulls l) : l.Nodup := by
  induction h with
  | nil => exact nodup_nil
  | snoc h hs ho hm ih =>
    rw [nodup_append]
    refine ⟨ih, by simp, ?_⟩
    intro a ha b hb hab
    rw [mem_singleton] at hb
    exact hm (hb ▸ hab ▸ ha)

theorem Pulls.mono {offers : ν → μ → Prop} {l : List μ} (h : d.Pulls l)
    (hsub : ∀ s m, d.offers s m → offers s m) : ({ d with offers := offers }).Pulls l := by
  induction h with
  | nil => exact .nil
  | snoc _ hs ho hm ih => exact ih.snoc hs (hsub _ _ ho) hm

/-- With one source for each name, what is pulled is in every closed set. -/
theorem Pulls.subset {l : List μ} (h : d.Pulls l) (hone : d.OneSource) {T : Set μ}
    (hT : d.Closed T) : {x | x ∈ l} ⊆ T := by
  induction h with
  | nil => exact fun x hx => absurd hx not_mem_nil
  | @snoc l m s h hs ho hm ih =>
    intro x hx
    rcases mem_append.1 hx with hx | hx
    · exact ih hx
    obtain ⟨hwant, hgiven, -⟩ := hs
    rw [mem_singleton] at hx
    rw [hx]
    by_contra hmT
    -- In `T` the name is wanted too, so something else would have to define it.
    apply hmT
    refine hT s ⟨?_, hgiven, fun m' hm' hdef => ?_⟩ m ho
    · rcases hwant with hroot | ⟨m', hm', hw⟩
      · exact .inl hroot
      · exact .inr ⟨m', ih hm', hw⟩
    · rw [hone s m m' (.inl ho) (.inr hdef)] at hmT
      exact hmT hm'

/-- Pulling until the set is closed gives the least closed set. -/
theorem Pulls.least {l : List μ} (h : d.Pulls l) (hone : d.OneSource)
    (hclosed : d.Closed {x | x ∈ l}) : d.Least {x | x ∈ l} :=
  ⟨hclosed, fun _ hT => h.subset hone hT⟩

theorem Least.unique {S T : Set μ} (hS : d.Least S) (hT : d.Least T) : S = T :=
  Set.Subset.antisymm (hS.2 T hT.1) (hT.2 S hS.1)

/-- Renaming the items along `e` turns one supply into the other. -/
structure Renamed (d : Supply μ ν) (d' : Supply μ' ν) (e : μ ≃ μ') : Prop where
  roots : d'.roots = d.roots
  given : d'.given = d.given
  wants : ∀ m, d'.wants (e m) = d.wants m
  defines : ∀ m, d'.defines (e m) = d.defines m
  offers : ∀ s m, d'.offers s (e m) ↔ d.offers s m

section

variable {d' : Supply μ' ν} {e : μ ≃ μ'}

theorem Renamed.missing (h : Renamed d d' e) (S : Set μ') (s : ν) :
    d'.Missing S s ↔ d.Missing {m | e m ∈ S} s := by
  unfold Missing
  rw [h.roots, h.given]
  constructor
  · rintro ⟨hwant, hgiven, hdef⟩
    refine ⟨?_, hgiven, fun m hm => by rw [← h.defines]; exact hdef (e m) hm⟩
    rcases hwant with hroot | ⟨m, hm, hw⟩
    · exact .inl hroot
    · refine .inr ⟨e.symm m, ?_, ?_⟩
      · rwa [Set.mem_ofPred_eq, e.apply_symm_apply]
      · rwa [← h.wants, e.apply_symm_apply]
  rintro ⟨hwant, hgiven, hdef⟩
  refine ⟨?_, hgiven, fun m hm => ?_⟩
  · rcases hwant with hroot | ⟨m, hm, hw⟩
    · exact .inl hroot
    · exact .inr ⟨e m, hm, by rwa [h.wants]⟩
  · rw [← e.apply_symm_apply m, h.defines]
    exact hdef _ (by rwa [Set.mem_ofPred_eq, e.apply_symm_apply])

/-- Closed sets are renamed to closed sets. -/
theorem Renamed.closed (h : Renamed d d' e) (S : Set μ') :
    d'.Closed S ↔ d.Closed {m | e m ∈ S} := by
  constructor
  · intro hS s hs m ho
    exact hS s ((h.missing S s).2 hs) (e m) ((h.offers s m).2 ho)
  · intro hS s hs m ho
    rw [← e.apply_symm_apply m] at ho ⊢
    exact hS s ((h.missing S s).1 hs) _ ((h.offers s _).1 ho)

theorem Renamed.oneSource (h : Renamed d d' e) (hone : d.OneSource) : d'.OneSource := by
  intro s m m' hm hm'
  apply e.symm.injective
  apply hone s
  · rwa [← h.offers, ← h.defines, e.apply_symm_apply]
  · rwa [← h.offers, ← h.defines, e.apply_symm_apply]

/-- And so are least ones. -/
theorem Renamed.least (h : Renamed d d' e) {S : Set μ} {S' : Set μ'} (hS : d.Least S)
    (hS' : d'.Least S') : S = {m | e m ∈ S'} := by
  apply hS.unique
  refine ⟨(h.closed S').1 hS'.1, fun T hT m hm => ?_⟩
  have hback : {m | e m ∈ {m' | e.symm m' ∈ T}} = T := by
    ext x
    rw [Set.mem_ofPred_eq, Set.mem_ofPred_eq, e.symm_apply_apply]
  have hclosed : d'.Closed {m' | e.symm m' ∈ T} := by
    rw [h.closed, hback]
    exact hT
  have hmem := hS'.2 _ hclosed hm
  rwa [Set.mem_ofPred_eq, e.symm_apply_apply] at hmem

end

end Supply

end Slopix.Lib
