import Mathlib.Data.List.Perm.Basic
import Slopix.Ld.Resolve
import Slopix.Lib.Keyed

/-!
# Which definition a name gets

What `collect_definitions` makes of the definitions of a set of objects: a name is bound to its one global definition,
or else to its first weak one, whatever the order of the objects. A definition with a binding that is neither global
nor weak is entered like the others, but nothing replaces it.
-/

namespace Slopix.Ld

open Lib Elf List

/-! ## What the result should be -/

/-- The definitions of a name in the order of the objects. -/
def defsOf (objects : List ObjectFile) (s : Name) : List (ObjectFile × Elf64Sym) :=
  objects.flatMap fun o => (o.definitions.filter fun d => d.1 = s).map fun d => (o, d.2)

/-- The global and the weak ones. -/
def globalsOf (objects : List ObjectFile) (s : Name) : List (ObjectFile × Elf64Sym) :=
  (defsOf objects s).filter fun d => d.2.bind = stbGlobal

/-- The weak definitions of a name. -/
def weaksOf (objects : List ObjectFile) (s : Name) : List (ObjectFile × Elf64Sym) :=
  (defsOf objects s).filter fun d => d.2.bind = stbWeak

/-- The symbol is that of a definition. -/
structure Binds (objects : List ObjectFile) (s : Name) (x : Symbol) (d : ObjectFile × Elf64Sym) : Prop where
  name : x.name = s
  value : x.value = d.2.stValue
  size : x.size = d.2.stSize
  type : x.type = d.2.type
  binding : x.binding = d.2.bind
  shndx : x.shndx = d.2.stShndx
  output : x.outputShndx = 0
  file : ∃ i, x.file = some ⟨i, d.1.filename⟩ ∧ objects[i]? = some d.1

/-- The definition that a name should get. -/
def chosenDef (objects : List ObjectFile) (s : Name) : Option (ObjectFile × Elf64Sym) :=
  (globalsOf objects s).head?.or (weaksOf objects s).head?

/-- The result for one order of the objects: an error exactly when a name has two global definitions, and else every
name bound to its global definition, or to its first weak one. -/
structure BoundRight (objects : List ObjectFile) : Prop where
  refused : (∃ s, 2 ≤ (globalsOf objects s).length) → ∃ e, collectDefinitions 0 objects [] = .error e
  reported : ∀ e, collectDefinitions 0 objects [] = .error e →
    ∃ s first also, e = multipleDefinition s first also ∧ 2 ≤ (globalsOf objects s).length
  bound : ∀ tab, collectDefinitions 0 objects [] = .ok ((), tab) →
    ∀ s, Option.Rel (Binds objects s) (symbolLookup tab s) (chosenDef objects s)

/-- Two symbols of the same definition. -/
structure SameSymbol (objects objects' : List ObjectFile) (x x' : Symbol) : Prop where
  fields : (x.name, x.value, x.size, x.type, x.binding, x.shndx, x.outputShndx) =
    (x'.name, x'.value, x'.size, x'.type, x'.binding, x'.shndx, x'.outputShndx)
  file : x.file.bind (fun r => objects[r.index]?) = x'.file.bind fun r => objects'[r.index]?

/-- Two orders give the same result, apart from the choice among weak definitions. -/
structure SameResult (objects objects' : List ObjectFile) : Prop where
  errors : (∃ e, collectDefinitions 0 objects [] = .error e) ↔ ∃ e, collectDefinitions 0 objects' [] = .error e
  tables : ∀ tab tab', collectDefinitions 0 objects [] = .ok ((), tab) → collectDefinitions 0 objects' [] = .ok ((), tab') →
    ∀ s, Option.Rel (fun x x' => (x.binding = stbWeak ∧ x'.binding = stbWeak) ∨ SameSymbol objects objects' x x')
      (symbolLookup tab s) (symbolLookup tab' s)

/-- The first definition of a name is global or weak. -/
def FirstPlain (objects : List ObjectFile) (s : Name) : Prop :=
  ∀ d, (defsOf objects s).head? = some d → d.2.bind = stbGlobal ∨ d.2.bind = stbWeak

/-! ## One name -/

/-- A definition on its way into the table, with its object. -/
structure Def where
  obj : ObjectFile
  ref : ObjectRef
  name : Name
  sym : Elf64Sym

/-- The symbol that the definition becomes. -/
def Def.symbol (d : Def) : Symbol :=
  { name := d.name, value := d.sym.stValue, size := d.sym.stSize, type := d.sym.type, binding := d.sym.bind,
    file := some d.ref, shndx := d.sym.stShndx, outputShndx := 0 }

/-- The symbol of a definition in the place of another one. -/
def Def.replacing (d : Def) (x : Symbol) : Symbol := { d.symbol with name := x.name, outputShndx := x.outputShndx }

/-- What a definition does to the entry of its name. -/
def enterDef (e : Option Symbol) (d : Def) : Option (Option Symbol) :=
  match e with
  | none => some (some d.symbol)
  | some x =>
    if x.binding = stbWeak ∧ d.sym.bind = stbGlobal then some (some (d.replacing x))
    else if x.binding = stbGlobal ∧ d.sym.bind = stbGlobal then none
    else some (some x)

theorem lookup_add (tab : SymbolTable) (d : Def) (s : Name) :
    symbolLookup (symbolAdd tab d.name d.sym d.ref) s = if s = d.name then some d.symbol else symbolLookup tab s := by
  unfold symbolLookup symbolAdd
  by_cases hs : s = d.name
  · subst hs
    rw [find?_cons_of_pos (by simp), if_pos rfl]
    rfl
  · rw [find?_cons_of_neg (by simpa using Ne.symm hs), if_neg hs]

theorem lookup_replace (tab : SymbolTable) (d : Def) (s : Name) :
    symbolLookup (symbolReplace tab d.name d.sym d.ref) s =
      if s = d.name then (symbolLookup tab s).map d.replacing else symbolLookup tab s := by
  unfold symbolLookup
  induction tab with
  | nil => simp [symbolReplace]
  | cons x tab ih =>
    unfold symbolReplace
    by_cases hx : x.name = d.name
    · rw [if_pos hx]
      by_cases hs : s = d.name
      · subst hs
        rw [find?_cons_of_pos (by simp [hx]), find?_cons_of_pos (by simp [hx]), if_pos rfl]
        rfl
      · have hne : d.name ≠ s := Ne.symm hs
        rw [find?_cons_of_neg (by simp [hx, hne]), find?_cons_of_neg (by simp [hx, hne]), if_neg hs]
    rw [if_neg hx]
    by_cases hs : x.name = s
    · have hne : s ≠ d.name := fun h => hx (hs.trans h)
      rw [find?_cons_of_pos (by simp [hs]), find?_cons_of_pos (by simp [hs]), if_neg hne]
    · rw [find?_cons_of_neg (by simp [hs]), find?_cons_of_neg (by simp [hs]), ih]

/-- The message for a second global definition of a name. -/
def Names (e : LdError) (s : Name) : Prop := ∃ first also, e = multipleDefinition s first also

/-- One pass of the loop sees only the entry of its name. -/
theorem collectSymbol_keyed :
    Keyed symbolLookup Def.name enterDef Names fun d => collectSymbol d.ref (d.name, d.sym) where
  ok := by
    intro d tab tab' hrun
    unfold collectSymbol at hrun
    cases hold : symbolLookup tab d.name with
    | none =>
      rw [hold] at hrun
      cases hrun
      refine ⟨by rw [lookup_add, if_pos rfl]; rfl, ?_⟩
      intro s hs
      rw [lookup_add, if_neg hs]
    | some x =>
      rw [hold] at hrun
      dsimp only [enterDef] at hrun ⊢
      by_cases hweak : x.binding = stbWeak ∧ d.sym.bind = stbGlobal
      · rw [if_pos hweak] at hrun ⊢
        cases hrun
        refine ⟨by rw [lookup_replace, if_pos rfl, hold]; rfl, ?_⟩
        intro s hs
        rw [lookup_replace, if_neg hs]
      rw [if_neg hweak] at hrun ⊢
      by_cases htwo : x.binding = stbGlobal ∧ d.sym.bind = stbGlobal
      · rw [if_pos htwo] at hrun
        cases hrun
      · rw [if_neg htwo] at hrun ⊢
        cases hrun
        exact ⟨by rw [hold], fun s _ => rfl⟩
  error := by
    intro d tab e hrun
    unfold collectSymbol at hrun
    cases hold : symbolLookup tab d.name with
    | none =>
      rw [hold] at hrun
      cases hrun
    | some x =>
      rw [hold] at hrun
      dsimp only [enterDef] at hrun ⊢
      by_cases hweak : x.binding = stbWeak ∧ d.sym.bind = stbGlobal
      · rw [if_pos hweak] at hrun
        cases hrun
      rw [if_neg hweak] at hrun ⊢
      by_cases htwo : x.binding = stbGlobal ∧ d.sym.bind = stbGlobal
      · rw [if_pos htwo] at hrun ⊢
        cases hrun
        exact ⟨rfl, _, _, rfl⟩
      · rw [if_neg htwo] at hrun
        cases hrun

section

variable {x : Symbol} {ds A B : List Def} {d : Def} {s : Name}

theorem enter_kept (h : x.binding = stbGlobal ∨ x.binding = stbWeak → ∀ d ∈ ds, d.sym.bind ≠ stbGlobal) :
    enterAll enterDef (some x) ds = some (some x) := by
  induction ds with
  | nil => rfl
  | cons d ds ih =>
    have hweak : ¬ (x.binding = stbWeak ∧ d.sym.bind = stbGlobal) := by
      rintro ⟨hx, hd⟩
      exact h (.inr hx) d mem_cons_self hd
    have htwo : ¬ (x.binding = stbGlobal ∧ d.sym.bind = stbGlobal) := by
      rintro ⟨hx, hd⟩
      exact h (.inl hx) d mem_cons_self hd
    have hpass : enterDef (some x) d = some (some x) := by rw [enterDef, if_neg hweak, if_neg htwo]
    rw [enterAll, hpass, Option.bind_some, ih fun hx c hc => h hx c (mem_cons_of_mem _ hc)]

theorem enter_second (hx : x.binding = stbGlobal) (h : ∃ d ∈ ds, d.sym.bind = stbGlobal) :
    enterAll enterDef (some x) ds = none := by
  induction ds with
  | nil => simp at h
  | cons d ds ih =>
    have hweak : ¬ (x.binding = stbWeak ∧ d.sym.bind = stbGlobal) := by
      rintro ⟨hx', -⟩
      rw [hx] at hx'
      cases hx'
    rw [enterAll]
    by_cases hd : d.sym.bind = stbGlobal
    · have hpass : enterDef (some x) d = none := by rw [enterDef, if_neg hweak, if_pos ⟨hx, hd⟩]
      rw [hpass]
      rfl
    · have hpass : enterDef (some x) d = some (some x) := by
        rw [enterDef, if_neg hweak, if_neg fun htwo => hd htwo.2]
      rw [hpass, Option.bind_some, ih (by simpa [hd] using h)]

theorem enter_weak (hx : x.binding = stbWeak) (hA : ∀ c ∈ A, c.sym.bind ≠ stbGlobal) (hd : d.sym.bind = stbGlobal) :
    enterAll enterDef (some x) (A ++ d :: B) = enterAll enterDef (some (d.replacing x)) B := by
  induction A with
  | nil =>
    have hpass : enterDef (some x) d = some (some (d.replacing x)) := by rw [enterDef, if_pos ⟨hx, hd⟩]
    rw [nil_append, enterAll, hpass, Option.bind_some]
  | cons c A ih =>
    have hc := hA c mem_cons_self
    have hpass : enterDef (some x) c = some (some x) := by
      rw [enterDef, if_neg fun h => hc h.2, if_neg fun h => hc h.2]
    rw [cons_append, enterAll, hpass, Option.bind_some, ih fun b hb => hA b (mem_cons_of_mem _ hb)]

theorem replacing_symbol {c : Def} (h : d.name = c.name) : d.replacing c.symbol = d.symbol := by
  unfold Def.replacing Def.symbol
  rw [h]

/-- A global definition. -/
def Def.isGlobal (d : Def) : Bool := d.sym.bind = stbGlobal

/-- A weak one. -/
def Def.isWeak (d : Def) : Bool := d.sym.bind = stbWeak

/-- **The definitions of one name**, when the first is global or weak: two global ones are refused, and else the global
one is entered, or the first weak one. -/
theorem entered (hname : ∀ d ∈ ds, d.name = s) (hplain : ∀ d, ds.head? = some d → d.sym.bind = stbGlobal ∨ d.sym.bind = stbWeak) :
    enterAll enterDef none ds = if 2 ≤ (ds.filter Def.isGlobal).length then none
      else some (((ds.filter Def.isGlobal).head?.or (ds.filter Def.isWeak).head?).map Def.symbol) := by
  cases ds with
  | nil => rfl
  | cons d ds =>
    have hfirst : enterAll enterDef none (d :: ds) = enterAll enterDef (some d.symbol) ds := rfl
    rw [hfirst]
    rcases hplain d rfl with hd | hd
    · -- a global definition comes first
      have hglobal : d.isGlobal = true := by simpa [Def.isGlobal] using hd
      rw [filter_cons_of_pos hglobal, length_cons]
      by_cases hmore : ∃ c ∈ ds, c.sym.bind = stbGlobal
      · obtain ⟨c, hc, hbind⟩ := hmore
        have hpos : 0 < (ds.filter Def.isGlobal).length :=
          length_pos_of_mem (mem_filter.mpr ⟨hc, by simpa [Def.isGlobal] using hbind⟩)
        rw [if_pos (by omega), enter_second hd ⟨c, hc, hbind⟩]
      have hnone : ds.filter Def.isGlobal = [] := by
        rw [filter_eq_nil_iff]
        intro c hc hbind
        exact hmore ⟨c, hc, by simpa [Def.isGlobal] using hbind⟩
      rw [hnone, if_neg (by simp), enter_kept fun _ c hc hbind => hmore ⟨c, hc, hbind⟩]
      rfl
    -- a weak one
    have hne : d.sym.bind ≠ stbGlobal := by
      rw [hd]
      decide
    have hglobal : ¬ d.isGlobal = true := by simpa [Def.isGlobal] using hne
    have hweak : d.isWeak = true := by simpa [Def.isWeak] using hd
    rw [filter_cons_of_neg hglobal, filter_cons_of_pos hweak]
    cases hglobals : ds.filter Def.isGlobal with
    | nil =>
      rw [if_neg (by simp), enter_kept]
      · rfl
      · intro _ c hc hbind
        exact filter_eq_nil_iff.mp hglobals c hc (by simpa [Def.isGlobal] using hbind)
    | cons c cs =>
      obtain ⟨A, B, rfl, hA, hc, hB⟩ := filter_eq_cons_iff.mp hglobals
      have hbind : c.sym.bind = stbGlobal := by simpa [Def.isGlobal] using hc
      have hsame : c.replacing d.symbol = c.symbol :=
        replacing_symbol ((hname c (by simp)).trans (hname d mem_cons_self).symm)
      rw [enter_weak hd (fun b hb => by simpa [Def.isGlobal] using hA b hb) hbind, hsame]
      by_cases htwo : 2 ≤ (c :: cs).length
      · obtain ⟨g, hg⟩ : ∃ g, g ∈ cs := exists_mem_of_ne_nil cs (by
          rintro rfl
          simp at htwo)
        rw [← hB, mem_filter] at hg
        rw [if_pos htwo, enter_second hbind ⟨g, hg.1, by simpa [Def.isGlobal] using hg.2⟩]
      have hnil : cs = [] := by
        cases cs with
        | nil => rfl
        | cons g gs => simp at htwo
      rw [if_neg htwo, enter_kept]
      · rfl
      · intro _ g hg hgbind
        rw [hnil] at hB
        exact filter_eq_nil_iff.mp hB g hg (by simpa [Def.isGlobal] using hgbind)

/-- A first definition that is neither global nor weak stays. -/
theorem entered_odd (hglobal : d.sym.bind ≠ stbGlobal) (hweak : d.sym.bind ≠ stbWeak) :
    enterAll enterDef none (d :: ds) = some (some d.symbol) :=
  enter_kept fun h => absurd h (not_or.mpr ⟨hglobal, hweak⟩)

end

/-! ## All definitions -/

section

variable {objects objects' : List ObjectFile} {s : Name} {d : Def}

/-- The definitions in the order in which `collect_definitions` meets them. -/
def allDefs (first : Nat) (objects : List ObjectFile) : List Def :=
  (objects.zipIdx first).flatMap fun o => o.1.definitions.map fun d => ⟨o.1, ⟨o.2, o.1.filename⟩, d.1, d.2⟩

/-- Those of one name. -/
def entriesOf (objects : List ObjectFile) (s : Name) : List Def := (allDefs 0 objects).filter fun d => d.name = s

theorem collectDefinitions_eq (first : Nat) (objects : List ObjectFile) :
    collectDefinitions first objects = Exec.each (fun d => collectSymbol d.ref (d.name, d.sym)) (allDefs first objects) := by
  unfold collectDefinitions allDefs
  generalize objects.zipIdx first = os
  induction os with
  | nil => rfl
  | cons o os ih =>
    rw [flatMap_cons, Exec.each_append, Exec.each_map, Exec.each, ih]

theorem mem_allDefs (h : d ∈ allDefs 0 objects) : d.ref.filename = d.obj.filename ∧ objects[d.ref.index]? = some d.obj := by
  obtain ⟨o, ho, hd⟩ := mem_flatMap.mp h
  obtain ⟨c, -, rfl⟩ := mem_map.mp hd
  exact ⟨rfl, mem_zipIdx_iff_getElem?.mp ho⟩

theorem defsOf_eq (objects : List ObjectFile) (s : Name) :
    defsOf objects s = (entriesOf objects s).map fun d => (d.obj, d.sym) := by
  unfold defsOf entriesOf allDefs
  generalize hfirst : 0 = first
  clear hfirst
  induction objects generalizing first with
  | nil => rfl
  | cons o objects ih =>
    rw [zipIdx_cons, flatMap_cons, flatMap_cons, filter_append, map_append, ih (first + 1),
      filter_map, map_map]
    rfl

theorem globalsOf_eq (objects : List ObjectFile) (s : Name) :
    globalsOf objects s = ((entriesOf objects s).filter Def.isGlobal).map fun d => (d.obj, d.sym) := by
  rw [globalsOf, defsOf_eq, filter_map]
  rfl

theorem weaksOf_eq (objects : List ObjectFile) (s : Name) :
    weaksOf objects s = ((entriesOf objects s).filter Def.isWeak).map fun d => (d.obj, d.sym) := by
  rw [weaksOf, defsOf_eq, filter_map]
  rfl

theorem mem_entriesOf (h : d ∈ entriesOf objects s) : d ∈ allDefs 0 objects ∧ d.name = s := by
  simpa [entriesOf] using h

theorem binds_symbol (h : d ∈ entriesOf objects s) : Binds objects s d.symbol (d.obj, d.sym) := by
  obtain ⟨hall, hname⟩ := mem_entriesOf h
  obtain ⟨hfile, hobj⟩ := mem_allDefs hall
  exact ⟨hname, rfl, rfl, rfl, rfl, rfl, rfl, d.ref.index, by rw [← hfile]; rfl, hobj⟩

theorem chosenDef_eq (objects : List ObjectFile) (s : Name) : chosenDef objects s =
    (((entriesOf objects s).filter Def.isGlobal).head?.or ((entriesOf objects s).filter Def.isWeak).head?).map
      fun d => (d.obj, d.sym) := by
  rw [chosenDef, globalsOf_eq, weaksOf_eq, head?_map, head?_map]
  cases ((entriesOf objects s).filter Def.isGlobal).head? with
  | none => rfl
  | some d => rfl

theorem chosenDef_bind {g : ObjectFile × Elf64Sym} (h : chosenDef objects s = some g) :
    g.2.bind = stbGlobal ∨ g.2.bind = stbWeak := by
  rcases Option.or_eq_some_iff.mp h with hg | ⟨-, hw⟩
  · exact .inl (by simpa using (mem_filter.mp (mem_of_mem_head? hg)).2)
  · exact .inr (by simpa using (mem_filter.mp (mem_of_mem_head? hw)).2)

/-- A run that returns has entered the definitions of every name. -/
theorem entered_ok {tab : SymbolTable} (h : collectDefinitions 0 objects [] = .ok ((), tab)) (s : Name) :
    enterAll enterDef none (entriesOf objects s) = some (symbolLookup tab s) := by
  rw [collectDefinitions_eq] at h
  exact collectSymbol_keyed.each_ok h s

/-- The definitions of a name, entered one after the other. -/
theorem entered_plain (h : FirstPlain objects s) : enterAll enterDef none (entriesOf objects s) =
    if 2 ≤ (globalsOf objects s).length then none
    else some ((((entriesOf objects s).filter Def.isGlobal).head?.or ((entriesOf objects s).filter Def.isWeak).head?).map
      Def.symbol) := by
  rw [globalsOf_eq, length_map]
  apply entered (s := s)
  · intro d hd
    exact (mem_entriesOf hd).2
  intro d hd
  have hhead := h (d.obj, d.sym)
  rw [defsOf_eq, head?_map, hd] at hhead
  exact hhead rfl

/-- What stops for a name: its first definition is global or weak, and two are global. -/
theorem entered_none (h : enterAll enterDef none (entriesOf objects s) = none) :
    FirstPlain objects s ∧ 2 ≤ (globalsOf objects s).length := by
  have hplain : FirstPlain objects s := by
    intro d hd
    rw [defsOf_eq, head?_map] at hd
    cases hentries : entriesOf objects s with
    | nil =>
      rw [hentries] at hd
      cases hd
    | cons c cs =>
      rw [hentries] at hd h
      cases hd
      by_contra hodd
      rw [not_or] at hodd
      rw [entered_odd hodd.1 hodd.2] at h
      cases h
  refine ⟨hplain, ?_⟩
  by_contra htwo
  rw [entered_plain hplain, if_neg htwo] at h
  cases h

theorem entered_error {e : LdError} (h : collectDefinitions 0 objects [] = .error e) :
    ∃ s, (FirstPlain objects s ∧ 2 ≤ (globalsOf objects s).length) ∧ Names e s := by
  rw [collectDefinitions_eq] at h
  obtain ⟨s, hnone, hnames⟩ := collectSymbol_keyed.each_error h
  exact ⟨s, entered_none hnone, hnames⟩

/-- **One order of the objects.** The result is right exactly when an error is reported, for a name whose first
definition is global or weak, or when the first definition of every name is. -/
theorem boundRight_iff (objects : List ObjectFile) : BoundRight objects ↔
    (∃ s, FirstPlain objects s ∧ 2 ≤ (globalsOf objects s).length) ∨ ∀ s, FirstPlain objects s := by
  constructor
  · intro h
    cases hrun : collectDefinitions 0 objects [] with
    | error e =>
      obtain ⟨s, hs, -⟩ := entered_error hrun
      exact .inl ⟨s, hs⟩
    | ok r =>
      right
      intro s d hd
      by_contra hodd
      rw [not_or] at hodd
      rw [defsOf_eq, head?_map] at hd
      have hlook := entered_ok hrun s
      cases hentries : entriesOf objects s with
      | nil =>
        rw [hentries] at hd
        cases hd
      | cons c cs =>
        rw [hentries] at hd hlook
        cases hd
        rw [entered_odd hodd.1 hodd.2, Option.some.injEq] at hlook
        have hbound := h.bound r.2 hrun s
        rw [← hlook] at hbound
        cases hchosen : chosenDef objects s with
        | none =>
          rw [hchosen] at hbound
          cases hbound
        | some g =>
          rw [hchosen] at hbound
          cases hbound with
          | some hbinds =>
            have hsame : c.sym.bind = g.2.bind := hbinds.binding
            rcases chosenDef_bind hchosen with hg | hg
            · exact hodd.1 (hsame.trans hg)
            · exact hodd.2 (hsame.trans hg)
  intro h
  have hstops : ∀ s, FirstPlain objects s → 2 ≤ (globalsOf objects s).length →
      ∃ e, collectDefinitions 0 objects [] = .error e := by
    intro s hplain htwo
    cases hrun : collectDefinitions 0 objects [] with
    | error e => exact ⟨e, rfl⟩
    | ok r =>
      have hlook := entered_ok hrun s
      rw [entered_plain hplain, if_pos htwo] at hlook
      cases hlook
  refine ⟨?_, ?_, ?_⟩
  · rintro ⟨s, htwo⟩
    rcases h with ⟨s', hplain, htwo'⟩ | hall
    · exact hstops s' hplain htwo'
    · exact hstops s (hall s) htwo
  · intro e hrun
    obtain ⟨s, ⟨-, htwo⟩, first, also, hnames⟩ := entered_error hrun
    exact ⟨s, first, also, hnames, htwo⟩
  intro tab hrun s
  rcases h with ⟨s', hplain, htwo⟩ | hall
  · obtain ⟨e, herror⟩ := hstops s' hplain htwo
    rw [herror] at hrun
    cases hrun
  have hlook := entered_ok hrun s
  rw [entered_plain (hall s)] at hlook
  by_cases htwo : 2 ≤ (globalsOf objects s).length
  · rw [if_pos htwo] at hlook
    cases hlook
  rw [if_neg htwo, Option.some.injEq] at hlook
  rw [← hlook, chosenDef_eq]
  cases hpick : ((entriesOf objects s).filter Def.isGlobal).head?.or
      ((entriesOf objects s).filter Def.isWeak).head? with
  | none => exact .none
  | some d =>
    have hmem : d ∈ entriesOf objects s := by
      rcases Option.or_eq_some_iff.mp hpick with hg | ⟨-, hw⟩
      · exact (mem_filter.mp (mem_of_mem_head? hg)).1
      · exact (mem_filter.mp (mem_of_mem_head? hw)).1
    exact .some (binds_symbol hmem)

/-! ## Other orders -/

theorem defsOf_perm (h : objects.Perm objects') (s : Name) : (defsOf objects s).Perm (defsOf objects' s) :=
  h.flatMap_right _

theorem globalsOf_perm (h : objects.Perm objects') (s : Name) : (globalsOf objects s).Perm (globalsOf objects' s) :=
  (defsOf_perm h s).filter _

theorem weaksOf_perm (h : objects.Perm objects') (s : Name) : (weaksOf objects s).Perm (weaksOf objects' s) :=
  (defsOf_perm h s).filter _

theorem Binds.same {x x' : Symbol} {g : ObjectFile × Elf64Sym} (h : Binds objects s x g) (h' : Binds objects' s x' g) :
    SameSymbol objects objects' x x' where
  fields := by
    rw [h.name, h.value, h.size, h.type, h.binding, h.shndx, h.output, h'.name, h'.value, h'.size, h'.type, h'.binding,
      h'.shndx, h'.output]
  file := by
    obtain ⟨i, hi, hobj⟩ := h.file
    obtain ⟨i', hi', hobj'⟩ := h'.file
    rw [hi, hi', Option.bind_some, Option.bind_some, hobj, hobj']

theorem BoundRight.error_iff (h : BoundRight objects) :
    (∃ e, collectDefinitions 0 objects [] = .error e) ↔ ∃ s, 2 ≤ (globalsOf objects s).length := by
  refine ⟨?_, h.refused⟩
  rintro ⟨e, hrun⟩
  obtain ⟨s, -, -, -, htwo⟩ := h.reported e hrun
  exact ⟨s, htwo⟩

/-- **Right results do not depend on the order**, apart from the choice among weak definitions. -/
theorem BoundRight.same (hp : objects.Perm objects') (h : BoundRight objects) (h' : BoundRight objects') :
    SameResult objects objects' where
  errors := by
    rw [h.error_iff, h'.error_iff]
    simp only [(globalsOf_perm hp _).length_eq]
  tables := by
    intro tab tab' hrun hrun' s
    have hone : (globalsOf objects s).length < 2 := by
      by_contra htwo
      obtain ⟨e, herror⟩ := h.refused ⟨s, by omega⟩
      rw [herror] at hrun
      cases hrun
    have hglobals := globalsOf_perm hp s
    have hweaks := weaksOf_perm hp s
    have hbound := h.bound tab hrun s
    have hbound' := h'.bound tab' hrun' s
    rw [chosenDef] at hbound hbound'
    cases hg : globalsOf objects s with
    | nil =>
      rw [hg] at hglobals hbound
      rw [hglobals.nil_eq.symm] at hbound'
      -- the weak definitions, each in its own order
      cases hw : weaksOf objects s with
      | nil =>
        rw [hw] at hweaks hbound
        rw [hweaks.nil_eq.symm] at hbound'
        generalize symbolLookup tab s = e at hbound ⊢
        generalize symbolLookup tab' s = e' at hbound' ⊢
        cases hbound
        cases hbound'
        exact .none
      | cons w ws =>
        cases hw' : weaksOf objects' s with
        | nil =>
          rw [hw, hw'] at hweaks
          exact absurd hweaks.eq_nil (by simp)
        | cons w' ws' =>
          have hbind : w.2.bind = stbWeak := by
            have hmem : w ∈ weaksOf objects s := by simp [hw]
            simpa using (mem_filter.mp hmem).2
          have hbind' : w'.2.bind = stbWeak := by
            have hmem : w' ∈ weaksOf objects' s := by simp [hw']
            simpa using (mem_filter.mp hmem).2
          rw [hw] at hbound
          rw [hw'] at hbound'
          generalize symbolLookup tab s = e at hbound ⊢
          generalize symbolLookup tab' s = e' at hbound' ⊢
          cases hbound with
          | some hb =>
            cases hbound' with
            | some hb' => exact .some (.inl ⟨hb.binding.trans hbind, hb'.binding.trans hbind'⟩)
    | cons g gs =>
      -- the one global definition
      have hnil : gs = [] := by
        rw [hg, length_cons] at hone
        exact length_eq_zero_iff.mp (by omega)
      subst hnil
      have hg' : globalsOf objects' s = [g] := perm_singleton.mp (hglobals.symm.trans (by rw [hg]))
      rw [hg, head?_cons, Option.some_or] at hbound
      rw [hg', head?_cons, Option.some_or] at hbound'
      generalize symbolLookup tab s = e at hbound ⊢
      generalize symbolLookup tab' s = e' at hbound' ⊢
      cases hbound with
      | some hb =>
        cases hbound' with
        | some hb' => exact .some (.inr (hb.same hb'))

/-- **What `collect_definitions` makes of a set of objects.** In every order of the objects the result is right, and it
is the same in all orders apart from the choice among weak definitions, exactly when in every order an error is
reported for a name whose first definition is global or weak, or the first definition of every name is. -/
theorem collect_exact (objects : List ObjectFile) :
    ((∀ l, l.Perm objects → BoundRight l) ∧ ∀ l l', l.Perm objects → l'.Perm objects → SameResult l l') ↔
      ∀ l, l.Perm objects → (∃ s, FirstPlain l s ∧ 2 ≤ (globalsOf l s).length) ∨ ∀ s, FirstPlain l s := by
  constructor
  · rintro ⟨hright, -⟩ l hl
    exact (boundRight_iff l).mp (hright l hl)
  · intro h
    have hright : ∀ l, l.Perm objects → BoundRight l := fun l hl => (boundRight_iff l).mpr (h l hl)
    exact ⟨hright, fun l l' hl hl' => (hright l hl).same (hl.trans hl'.symm) (hright l' hl')⟩

/-- An object that defines `f` with the binding. -/
def smallDefiner (bind : Nat) : ObjectFile :=
  match elfReadMemory (smallObject [([0x66], bind, 1)]) 1000 [0x6f] with
  | .ok o => o
  | .error _ => ⟨[], [], 0, [], none, none, none, 0⟩

/-- Binding 10 comes first, and the global definition behind it is left out. -/
theorem odd_binding_stays : ¬ ∀ objects : List ObjectFile, (∀ l, l.Perm objects → BoundRight l) ∧
    ∀ l l', l.Perm objects → l'.Perm objects → SameResult l l' := by
  intro h
  have hright := (h [smallDefiner 10, smallDefiner stbGlobal]).1 _ (List.Perm.refl _)
  have hrun : (match collectDefinitions 0 [smallDefiner 10, smallDefiner stbGlobal] [] with
      | .ok r => (symbolLookup r.2 [0x66]).map Symbol.binding == some 10
      | .error _ => false) = true := by decide +kernel
  have hchosen : (chosenDef [smallDefiner 10, smallDefiner stbGlobal] [0x66]).map (fun d => d.2.bind) = some stbGlobal := by
    decide +kernel
  cases hcollect : collectDefinitions 0 [smallDefiner 10, smallDefiner stbGlobal] [] with
  | error e =>
    rw [hcollect] at hrun
    cases hrun
  | ok r =>
    rw [hcollect] at hrun
    have hbound := hright.bound r.2 hcollect [0x66]
    have hlook := eq_of_beq hrun
    generalize chosenDef [smallDefiner 10, smallDefiner stbGlobal] [0x66] = g at hbound hchosen
    generalize symbolLookup r.2 [0x66] = x at hbound hlook
    cases hbound with
    | none => cases hchosen
    | some hb =>
      have hbind := hb.binding
      rw [Option.map_some, Option.some.injEq] at hlook hchosen
      rw [hlook, hchosen] at hbind
      cases hbind

end

end Slopix.Ld
