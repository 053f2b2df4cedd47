import Slopix.Ld.Symbol
import Slopix.Lib.Closure
import Mathlib.Data.List.Forall2

/-!
# What the linker pulls in

`resolve_archives` always returns or exits with a message: every pass that goes on has extracted a
member, and there are finitely many. What it has pulled in is a sequence of members each of which
was, at its time, the first one on offer for a name still missing, and at the end no such member is
left out. When no name has two sources this is the least closed set, so it does not depend on the
order of archives and members.
-/

namespace Slopix.Ld

open Lib Elf List

/-! ## The global table -/

section

variable {tab : SymbolTable}

/-- The table has the name. -/
def Known (tab : SymbolTable) (s : Name) : Prop := (symbolLookup tab s).isSome

theorem known_iff (s : Name) : Known tab s ↔ ∃ x ∈ tab, x.name = s := by
  unfold Known symbolLookup
  simp

theorem known_add (name s : Name) (sym : Elf64Sym) (file : ObjectRef) :
    Known (symbolAdd tab name sym file) s ↔ s = name ∨ Known tab s := by
  rw [known_iff, known_iff]
  simp [symbolAdd, eq_comm]

theorem known_replace (name s : Name) (sym : Elf64Sym) (file : ObjectRef) :
    Known (symbolReplace tab name sym file) s ↔ Known tab s := by
  rw [known_iff, known_iff]
  induction tab with
  | nil => rfl
  | cons x tab ih =>
    unfold symbolReplace
    by_cases hx : x.name = name
    · simp [hx]
    · simp [hx, ih]

theorem collectSymbol_holds (file : ObjectRef) (d : Name × Elf64Sym) :
    Holds (collectSymbol file d tab) (fun _ tab' => ∀ s, Known tab' s ↔ Known tab s ∨ s = d.1)
      (· ≠ .fuel) := by
  unfold collectSymbol
  cases hold : symbolLookup tab d.1 with
  | none => exact holds_ok fun s => by rw [known_add, or_comm]
  | some existing =>
    have hknown : Known tab d.1 := by
      rw [Known, hold]
      rfl
    have hsame : ∀ s, Known tab s ↔ Known tab s ∨ s = d.1 := fun s =>
      ⟨.inl, fun h => h.elim id fun e => e ▸ hknown⟩
    dsimp only
    split
    · exact holds_ok fun s => by rw [known_replace, ← hsame]
    · split
      · exact holds_error (by simp [multipleDefinition])
      · exact holds_ok hsame

theorem collectObject_holds (file : ObjectRef) (ds : List (Name × Elf64Sym)) :
    Holds (Exec.each (collectSymbol file) ds tab)
      (fun _ tab' => ∀ s, Known tab' s ↔ Known tab s ∨ s ∈ ds.map Prod.fst) (· ≠ .fuel) := by
  induction ds generalizing tab with
  | nil => exact holds_pure fun s => by simp
  | cons d ds ih =>
    refine (collectSymbol_holds file d).bind fun _ tab' h => ?_
    refine ih.imp fun _ tab'' h' s => ?_
    rw [h', h, map_cons, mem_cons, or_assoc]

theorem collectDefinitions_holds (first : Nat) (objects : List ObjectFile) :
    Holds (collectDefinitions first objects tab)
      (fun _ tab' => ∀ s, Known tab' s ↔ Known tab s ∨ ∃ o ∈ objects, o.Defines s) (· ≠ .fuel) := by
  induction objects generalizing tab first with
  | nil => exact holds_pure fun s => by simp
  | cons o objects ih =>
    refine (collectObject_holds ⟨first, o.filename⟩ o.definitions).bind fun _ tab' h => ?_
    refine (ih (first + 1)).imp fun _ tab'' h' s => ?_
    rw [h', h, or_assoc]
    simp [ObjectFile.Defines]

end

/-! ## Members -/

section

variable {archives : List Archive} {id id' : Nat × Nat}

/-- A member with the path of its archive. -/
def memberAt (archives : List Archive) (id : Nat × Nat) : Option (Name × ArchiveMember) :=
  archives[id.1]?.bind fun a => a.members[id.2]?.map fun m => (a.path, m)

/-- The object of a member that can be read. -/
def objectAt (archives : List Archive) (id : Nat × Nat) : Option ObjectFile :=
  (memberAt archives id).bind fun p => (memberObject p.1 p.2).toOption

theorem elfReadMemory_ne_fuel (data : List UInt8) (size : Nat) (name : Name) :
    elfReadMemory data size name ≠ .error .fuel := by
  unfold elfReadMemory
  split
  · simp [ldError]
  cases hcheck : elfCheckHeader (ehdrAt (fileBytesOf data) 0) name with
  | error e =>
    intro h
    cases h
    unfold elfCheckHeader at hcheck
    repeat' split at hcheck
    all_goals simp [ldError] at hcheck
  | ok u =>
    unfold elfParseSections
    dsimp only
    split
    · simp [ldError]
    · simp

theorem elfCheckHeader_toOption (ehdr : Elf64Ehdr) (name name' : Name) :
    (elfCheckHeader ehdr name').toOption = (elfCheckHeader ehdr name).toOption := by
  unfold elfCheckHeader
  split_ifs <;> rfl

theorem elfReadMemory_toOption (data : List UInt8) (size : Nat) (name name' : Name) :
    (elfReadMemory data size name').toOption =
      (elfReadMemory data size name).toOption.map fun o => { o with filename := name' } := by
  unfold elfReadMemory
  split
  · rfl
  have hcheck := elfCheckHeader_toOption (ehdrAt (fileBytesOf data) 0) name name'
  cases hnew : elfCheckHeader (ehdrAt (fileBytesOf data) 0) name' with
  | error e =>
    rw [hnew] at hcheck
    cases hold : elfCheckHeader (ehdrAt (fileBytesOf data) 0) name with
    | error e => rfl
    | ok u =>
      rw [hold] at hcheck
      cases hcheck
  | ok u =>
    rw [hnew] at hcheck
    cases hold : elfCheckHeader (ehdrAt (fileBytesOf data) 0) name with
    | error e =>
      rw [hold] at hcheck
      cases hcheck
    | ok u =>
      unfold elfParseSections
      dsimp only
      split <;> rfl

theorem memberObject_extracted (path : Name) (m : ArchiveMember) (b : Bool) :
    memberObject path { m with extracted := b } = memberObject path m := rfl

theorem archiveExtractMember_eq (id : Nat × Nat) (st : LinkState) :
    archiveExtractMember id st =
      match memberAt st.archives id with
      | none => .ok (none, st)
      | some (path, m) =>
        if m.extracted then .ok (none, st)
        else
          match memberObject path m with
          | .error e => .error e
          | .ok obj =>
            .ok (some obj,
              { st with archives := st.archives.modify id.1 fun a => a.setExtracted id.2 }) := by
  unfold archiveExtractMember memberAt
  cases st.archives[id.1]? with
  | none => rfl
  | some a =>
    simp only [Option.bind_some]
    cases a.members[id.2]? with
    | none => rfl
    | some m => rfl

theorem memberAt_setExtracted :
    memberAt (archives.modify id.1 fun a => a.setExtracted id.2) id' =
      (memberAt archives id').map fun p =>
        (p.1, if id' = id then { p.2 with extracted := true } else p.2) := by
  obtain ⟨k, i⟩ := id
  obtain ⟨k', i'⟩ := id'
  unfold memberAt
  rw [getElem?_modify]
  cases archives[k']? with
  | none => rfl
  | some a =>
    by_cases hk : k = k'
    · subst hk
      simp only [if_true, Option.map_eq_map, Option.map_some, Option.bind_some,
        Archive.setExtracted, getElem?_modify]
      cases a.members[i']? with
      | none => rfl
      | some m =>
        by_cases hi : i = i'
        · simp [hi]
        · simp [hi, Ne.symm hi]
    · cases hm : a.members[i']? with
      | none => simp [hk, hm]
      | some m => simp [hk, hm, Ne.symm hk]

theorem memberCount_setExtracted :
    memberCount (archives.modify id.1 fun a => a.setExtracted id.2) = memberCount archives := by
  unfold memberCount
  congr 1
  apply ext_getElem?
  intro k
  rw [getElem?_map, getElem?_map, getElem?_modify]
  cases archives[k]? with
  | none => rfl
  | some a =>
    by_cases hk : id.1 = k
    · simp [hk, Archive.setExtracted]
    · simp [hk]

theorem symbols_setExtracted :
    (archives.modify id.1 fun a => a.setExtracted id.2).map Archive.symbols =
      archives.map Archive.symbols := by
  apply ext_getElem?
  intro k
  rw [getElem?_map, getElem?_map, getElem?_modify]
  cases archives[k]? with
  | none => rfl
  | some a =>
    by_cases hk : id.1 = k
    · simp [hk, Archive.setExtracted]
    · simp [hk]

theorem firstOffer_congr {archives' : List Archive}
    (h : archives.map Archive.symbols = archives'.map Archive.symbols) (s : Name) :
    firstOffer archives s = firstOffer archives' s := by
  have hread : ∀ l : List Archive, firstOffer l s =
      (l.map Archive.symbols).zipIdx.findSome? fun a =>
        ((a.1.find? fun x => x.name == s).bind ArchiveSymbol.memberIdx).map fun i => (a.2, i) := by
    intro l
    rw [zipIdx_map, findSome?_map]
    rfl
  rw [hread, hread, h]

/-- The index of an archive has this member for the name. -/
def Offers (archives : List Archive) (s : Name) (id : Nat × Nat) : Prop :=
  ∃ a, archives[id.1]? = some a ∧ a.findSymbol s = some id.2

theorem Offers.memberAt {s : Name} (h : Offers archives s id) : (memberAt archives id).isSome := by
  obtain ⟨a, ha, hs⟩ := h
  have hlt := Archive.findSymbol_lt hs
  unfold Ld.memberAt
  rw [ha]
  simp [hlt]

theorem offers_of_firstOffer {s : Name} (h : firstOffer archives s = some id) :
    Offers archives s id := by
  obtain ⟨a, ha, hsome⟩ := exists_of_findSome?_eq_some h
  obtain ⟨i, hi, rfl⟩ := Option.map_eq_some_iff.1 hsome
  exact ⟨a.1, mk_mem_zipIdx_iff_getElem?.1 ha, hi⟩

theorem firstOffer_isSome {s : Name} (h : Offers archives s id) : (firstOffer archives s).isSome := by
  obtain ⟨a, ha, hs⟩ := h
  unfold firstOffer
  rw [findSome?_isSome_iff]
  exact ⟨(a, id.1), mk_mem_zipIdx_iff_getElem?.2 ha, by rw [hs]; rfl⟩

theorem length_le_memberCount {l : List (Nat × Nat)} (hnodup : l.Nodup)
    (h : ∀ x ∈ l, (memberAt archives x).isSome) : l.length ≤ memberCount archives := by
  let ids := archives.zipIdx.flatMap fun a => (range a.1.members.length).map fun i => (a.2, i)
  have hids : ids.length = memberCount archives := by
    simp only [ids, List.length_flatMap, length_map, length_range, memberCount]
    show (List.map ((fun a : Archive => a.members.length) ∘ Prod.fst) archives.zipIdx).sum = _
    rw [← map_map, zipIdx_map_fst]
  rw [← hids]
  apply hnodup.length_le_of_subset
  intro x hx
  obtain ⟨k, i⟩ := x
  obtain ⟨p, hp⟩ := Option.isSome_iff_exists.1 (h _ hx)
  obtain ⟨a, ha, hm⟩ := Option.bind_eq_some_iff.1 hp
  obtain ⟨m, hm, -⟩ := Option.map_eq_some_iff.1 hm
  have hi : i < a.members.length := (List.getElem?_eq_some_iff.1 hm).1
  exact mem_flatMap.2 ⟨(a, k), mk_mem_zipIdx_iff_getElem?.2 ha, mem_map.2 ⟨i, mem_range.2 hi, rfl⟩⟩

end

/-! ## The loops -/

/-- What there is to link: the entry point and what the objects refer to is wanted, what they define
is given, and the members want and define what their objects do. -/
def linking (objects : List ObjectFile) (archives : List Archive) (entryPoint : Name)
    (offers : Name → Nat × Nat → Prop) : Supply (Nat × Nat) Name where
  roots := {s | s = entryPoint ∨ ∃ o ∈ objects, o.Refers s}
  given := {s | ∃ o ∈ objects, o.Defines s}
  wants id := {s | ∃ o, objectAt archives id = some o ∧ o.Refers s}
  defines id := {s | ∃ o, objectAt archives id = some o ∧ o.Defines s}
  offers := offers

/-- The member is the one that the search finds for the name. -/
def offersFirst (archives : List Archive) (s : Name) (id : Nat × Nat) : Prop :=
  firstOffer archives s = some id

section

variable {objects : List ObjectFile} {archives : List Archive} {entryPoint : Name}

/-- The state after the members `pulled` were pulled in. -/
structure Linked (objects : List ObjectFile) (archives : List Archive) (entryPoint : Name)
    (st : LinkState) (pulled : List (Nat × Nat)) : Prop where
  symbols : st.archives.map Archive.symbols = archives.map Archive.symbols
  count : memberCount st.archives = memberCount archives
  members : ∀ id, memberAt st.archives id =
    (memberAt archives id).map fun p => (p.1, { p.2 with extracted := decide (id ∈ pulled) })
  linked : ∃ objs, st.objects = objects ++ objs ∧
    List.Forall₂ (fun id o => objectAt archives id = some o) pulled objs
  known : ∀ s, Known st.global s ↔ ∃ o ∈ st.objects, o.Defines s
  pulls : (linking objects archives entryPoint (offersFirst archives)).Pulls pulled

/-- The name is defined, or the member on offer for it has been pulled in already. -/
def Settled (archives : List Archive) (st : LinkState) (pulled : List (Nat × Nat)) (s : Name) : Prop :=
  Known st.global s ∨ ∀ id, firstOffer archives s = some id → id ∈ pulled

variable {st : LinkState} {pulled : List (Nat × Nat)}

theorem Linked.offer (h : Linked objects archives entryPoint st pulled) (s : Name) :
    firstOffer st.archives s = firstOffer archives s := firstOffer_congr h.symbols s

theorem Linked.length (h : Linked objects archives entryPoint st pulled) :
    st.objects.length = objects.length + pulled.length := by
  obtain ⟨objs, hobjs, hall⟩ := h.linked
  rw [hobjs, length_append, hall.length_eq]

theorem pulls_members (h : (linking objects archives entryPoint (offersFirst archives)).Pulls pulled) :
    ∀ id ∈ pulled, (memberAt archives id).isSome := by
  induction h with
  | nil => exact fun id hid => absurd hid not_mem_nil
  | snoc _ _ ho _ ih =>
    intro id hid
    rcases mem_append.1 hid with hid | hid
    · exact ih id hid
    · rw [mem_singleton.1 hid]
      exact (offers_of_firstOffer ho).memberAt

/-- There are at most as many members pulled in as there are members. -/
theorem Linked.bound (h : Linked objects archives entryPoint st pulled) :
    pulled.length ≤ memberCount archives :=
  length_le_memberCount h.pulls.nodup (pulls_members h.pulls)

theorem Linked.mem_objects (h : Linked objects archives entryPoint st pulled) (o : ObjectFile) :
    o ∈ st.objects ↔ o ∈ objects ∨ ∃ id ∈ pulled, objectAt archives id = some o := by
  obtain ⟨objs, hobjs, hall⟩ := h.linked
  rw [hobjs, mem_append]
  apply or_congr_right
  clear hobjs h
  induction hall with
  | nil => simp
  | @cons id o' l l' hid _ ih =>
    simp only [mem_cons, ih, exists_eq_or_imp, hid, Option.some.injEq]
    rw [eq_comm]

/-- What is missing: a wanted name without a definition. -/
theorem Linked.missing (h : Linked objects archives entryPoint st pulled)
    {offers : Name → Nat × Nat → Prop} (s : Name) :
    (linking objects archives entryPoint offers).Missing {x | x ∈ pulled} s ↔
      (s = entryPoint ∨ ∃ o ∈ st.objects, o.Refers s) ∧ ¬ Known st.global s := by
  rw [h.known]
  constructor
  · rintro ⟨hwant, hgiven, hdef⟩
    constructor
    · rcases hwant with (rfl | ⟨o, ho, hr⟩) | ⟨id, hid, o, ho, hr⟩
      · exact .inl rfl
      · exact .inr ⟨o, (h.mem_objects o).2 (.inl ho), hr⟩
      · exact .inr ⟨o, (h.mem_objects o).2 (.inr ⟨id, hid, ho⟩), hr⟩
    rintro ⟨o, ho, hd⟩
    rcases (h.mem_objects o).1 ho with ho | ⟨id, hid, ho⟩
    · exact hgiven ⟨o, ho, hd⟩
    · exact hdef id hid ⟨o, ho, hd⟩
  rintro ⟨hwant, hknown⟩
  refine ⟨?_, ?_, ?_⟩
  · rcases hwant with rfl | ⟨o, ho, hr⟩
    · exact .inl (.inl rfl)
    · rcases (h.mem_objects o).1 ho with ho | ⟨id, hid, ho⟩
      · exact .inl (.inr ⟨o, ho, hr⟩)
      · exact .inr ⟨id, hid, o, ho, hr⟩
  · rintro ⟨o, ho, hd⟩
    exact hknown ⟨o, (h.mem_objects o).2 (.inl ho), hd⟩
  · rintro id hid ⟨o, ho, hd⟩
    exact hknown ⟨o, (h.mem_objects o).2 (.inr ⟨id, hid, ho⟩), hd⟩

/-- A member that offers a missing name is linked. -/
theorem Linked.link {s : Name} {id : Nat × Nat} {obj : ObjectFile}
    (h : Linked objects archives entryPoint st pulled)
    (hwant : s = entryPoint ∨ ∃ o ∈ st.objects, o.Refers s) (hs : ¬ Known st.global s)
    (hoffer : firstOffer archives s = some id) (hid : id ∉ pulled)
    (hobject : objectAt archives id = some obj) :
    Holds (linkObject obj
        { st with archives := st.archives.modify id.1 fun a => a.setExtracted id.2 })
      (fun _ st' => Linked objects archives entryPoint st' (pulled ++ [id])) (· ≠ .fuel) := by
  have hcollect : Holds (collectDefinitions st.objects.length [obj] st.global) _ _ :=
    collectDefinitions_holds st.objects.length [obj]
  unfold linkObject
  rcases hrun : collectDefinitions st.objects.length [obj] st.global with e | ⟨⟨⟩, global⟩
  · exact holds_error (hcollect.error e hrun)
  have hknown := hcollect.ok () global hrun
  obtain ⟨objs, hobjs, hall⟩ := h.linked
  refine holds_ok ⟨?_, ?_, ?_, ⟨objs ++ [obj], ?_, ?_⟩, ?_, ?_⟩
  · exact symbols_setExtracted.trans h.symbols
  · exact memberCount_setExtracted.trans h.count
  · intro id'
    rw [memberAt_setExtracted, h.members, Option.map_map]
    congr 1
    funext p
    by_cases he : id' = id
    · simp [he]
    · simp [he]
  · rw [hobjs, append_assoc]
  · exact rel_append hall (.cons hobject .nil)
  · intro s'
    rw [hknown s', h.known]
    simp only [mem_append, mem_singleton, or_and_right, exists_or, exists_eq_left]
  · exact h.pulls.snoc ((h.missing s).2 ⟨hwant, hs⟩) hoffer hid

/-- Looking for a missing name pulls in the member on offer, if it is not in yet. -/
theorem Linked.extractFor {s : Name} (h : Linked objects archives entryPoint st pulled)
    (hwant : s = entryPoint ∨ ∃ o ∈ st.objects, o.Refers s) (hs : ¬ Known st.global s) :
    Holds (Ld.extractFor s st)
      (fun b st' => if b then ∃ id, Linked objects archives entryPoint st' (pulled ++ [id]) ∧
          firstOffer archives s = some id
        else st' = st ∧ Settled archives st pulled s) (· ≠ .fuel) := by
  refine holds_gets_bind ?_
  rw [h.offer]
  cases hoffer : firstOffer archives s with
  | none =>
    refine holds_pure ?_
    exact ⟨rfl, .inr fun id hid => by rw [hoffer] at hid; cases hid⟩
  | some id =>
    dsimp only
    have hsettled : id ∈ pulled → Settled archives st pulled s := by
      intro hid
      refine .inr fun id' hid' => ?_
      rw [hoffer] at hid'
      cases hid'
      exact hid
    obtain ⟨p, hp⟩ := Option.isSome_iff_exists.1 (offers_of_firstOffer hoffer).memberAt
    have hmember := h.members id
    rw [hp, Option.map_some] at hmember
    have hrun := archiveExtractMember_eq id st
    rw [hmember] at hrun
    dsimp only at hrun
    by_cases hid : id ∈ pulled
    · rw [if_pos (by simpa using hid)] at hrun
      rw [Exec.bind_ok hrun]
      exact holds_pure ⟨rfl, hsettled hid⟩
    rw [if_neg (by simpa using hid), memberObject_extracted] at hrun
    cases hread : memberObject p.1 p.2 with
    | error e =>
      rw [hread] at hrun
      rw [Exec.bind_error hrun]
      exact holds_error fun hfuel => elfReadMemory_ne_fuel _ _ _ (hfuel ▸ hread)
    | ok obj =>
      rw [hread] at hrun
      rw [Exec.bind_ok hrun]
      have hobject : objectAt archives id = some obj := by
        unfold objectAt
        rw [hp, Option.bind_some, hread]
        rfl
      refine (h.link hwant hs hoffer hid hobject).bind fun _ st' h' => ?_
      exact holds_pure ⟨id, h', rfl⟩

theorem Linked.mono {st' : LinkState} {more : List (Nat × Nat)}
    (h : Linked objects archives entryPoint st pulled)
    (h' : Linked objects archives entryPoint st' (pulled ++ more)) {o : ObjectFile}
    (ho : o ∈ st.objects) : o ∈ st'.objects := by
  rw [h'.mem_objects]
  rcases (h.mem_objects o).1 ho with ho | ⟨id, hid, ho⟩
  · exact .inl ho
  · exact .inr ⟨id, mem_append_left _ hid, ho⟩

/-- What is settled stays settled. -/
theorem Linked.settled {st' : LinkState} {more : List (Nat × Nat)} {s : Name}
    (h : Linked objects archives entryPoint st pulled)
    (h' : Linked objects archives entryPoint st' (pulled ++ more))
    (hs : Settled archives st pulled s) : Settled archives st' (pulled ++ more) s := by
  rcases hs with hs | hs
  · obtain ⟨o, ho, hd⟩ := (h.known s).1 hs
    exact .inl ((h'.known s).2 ⟨o, h.mono h' ho, hd⟩)
  · exact .inr fun id hid => mem_append_left _ (hs id hid)

/-- A pass over references ends with some more members. If it says that it extracted none, nothing has
changed and every reference is settled. -/
structure Passed (objects : List ObjectFile) (archives : List Archive) (entryPoint : Name)
    (st : LinkState) (pulled : List (Nat × Nat)) (extracted : Bool) (settled : Prop) (b : Bool)
    (st' : LinkState) : Prop where
  linked : ∃ more, Linked objects archives entryPoint st' (pulled ++ more) ∧
    (b = true → extracted = true ∨ more ≠ [])
  still : b = false → extracted = false ∧ st' = st ∧ settled

theorem Linked.resolveReference {s : Name} (h : Linked objects archives entryPoint st pulled)
    (hwant : s = entryPoint ∨ ∃ o ∈ st.objects, o.Refers s) :
    Holds (Ld.resolveReference s st)
      (Passed objects archives entryPoint st pulled false (Settled archives st pulled s))
      (· ≠ .fuel) := by
  have hnone : ∃ more, Linked objects archives entryPoint st (pulled ++ more) ∧
      (false = true → false = true ∨ more ≠ []) := ⟨[], by simpa using h, fun e => by cases e⟩
  refine holds_gets_bind (holds_ite (fun hs => ?_) fun hs => ?_)
  · exact holds_pure ⟨hnone, fun _ => ⟨rfl, rfl, .inl hs⟩⟩
  refine (h.extractFor hwant hs).imp fun b st' hb => ?_
  cases b with
  | false =>
    obtain ⟨rfl, hsettled⟩ := hb
    exact ⟨hnone, fun _ => ⟨rfl, rfl, hsettled⟩⟩
  | true =>
    obtain ⟨id, h', -⟩ := hb
    exact ⟨⟨[id], h', fun _ => .inr (by simp)⟩, fun e => by cases e⟩

theorem Linked.extractEntry (h : Linked objects archives entryPoint st pulled) :
    Holds (Ld.extractEntry entryPoint st)
      (fun _ st' => ∃ more, Linked objects archives entryPoint st' (pulled ++ more) ∧
        Settled archives st' (pulled ++ more) entryPoint) (· ≠ .fuel) := by
  refine Holds.bind ?_ fun _ st' h' => holds_pure h'
  refine holds_gets_bind (holds_ite (fun hs => ?_) fun hs => ?_)
  · exact holds_pure ⟨[], by simpa using h, .inl hs⟩
  refine (h.extractFor (.inl rfl) hs).imp fun b st' hb => ?_
  cases b with
  | false =>
    obtain ⟨rfl, hsettled⟩ := hb
    exact ⟨[], by simpa using h, by simpa using hsettled⟩
  | true =>
    obtain ⟨id, h', hoffer⟩ := hb
    refine ⟨[id], h', .inr fun id' hid' => ?_⟩
    rw [hoffer] at hid'
    cases hid'
    simp

/-- One object's references are settled, each in its turn. -/
theorem Linked.resolveReferences {names : List Name} {extracted : Bool}
    (h : Linked objects archives entryPoint st pulled)
    (hwant : ∀ s ∈ names, ∃ o ∈ st.objects, o.Refers s) :
    Holds (Ld.resolveReferences names extracted st)
      (Passed objects archives entryPoint st pulled extracted
        (∀ s ∈ names, Settled archives st pulled s)) (· ≠ .fuel) := by
  induction names generalizing st pulled extracted with
  | nil =>
    refine holds_pure ⟨⟨[], by simpa using h, .inl⟩, fun e => ⟨e, rfl, by simp⟩⟩
  | cons s names ih =>
    refine (h.resolveReference (.inr (hwant s mem_cons_self))).bind fun b st1 hb => ?_
    obtain ⟨⟨more, h1, hmore⟩, hstill⟩ := hb
    have hwant1 : ∀ s ∈ names, ∃ o ∈ st1.objects, o.Refers s := by
      intro s' hs'
      obtain ⟨o, ho, hr⟩ := hwant s' (mem_cons_of_mem _ hs')
      exact ⟨o, h.mono h1 ho, hr⟩
    refine (ih h1 hwant1).imp fun b' st2 hb' => ?_
    obtain ⟨⟨more', h2, hmore'⟩, hstill'⟩ := hb'
    constructor
    · refine ⟨more ++ more', by rw [← append_assoc]; exact h2, fun e => ?_⟩
      rcases hmore' e with hor | hne
      · rcases Bool.or_eq_true_iff.1 hor with he | he
        · exact .inl he
        · rcases hmore he with he | hne
          · cases he
          · exact .inr (by simp [hne])
      · exact .inr (by simp [hne])
    intro e
    obtain ⟨hor, rfl, hrest⟩ := hstill' e
    obtain ⟨he, rfl⟩ := Bool.or_eq_false_iff.1 hor
    obtain ⟨-, rfl, hs⟩ := hstill rfl
    have hsame : pulled ++ more = pulled := by
      have hlen := h.length.symm.trans h1.length
      rw [length_append] at hlen
      rw [length_eq_zero_iff.1 (show more.length = 0 by omega), append_nil]
    rw [hsame] at hrest
    exact ⟨he, rfl, forall_mem_cons.2 ⟨hs, hrest⟩⟩

/-- A pass over the objects from index `i`; `fuel` covers all objects there can ever be. -/
theorem Linked.scanObjects {fuel i : Nat} {extracted : Bool}
    (h : Linked objects archives entryPoint st pulled)
    (hi : i ≤ objects.length + memberCount archives)
    (hfuel : objects.length + memberCount archives < i + fuel) :
    Holds (Ld.scanObjects fuel i extracted st)
      (Passed objects archives entryPoint st pulled extracted
        (∀ o ∈ st.objects.drop i, ∀ s, o.Refers s → Settled archives st pulled s))
      (· ≠ .fuel) := by
  induction fuel generalizing st pulled extracted i with
  | zero => omega
  | succ fuel ih =>
    refine holds_gets_bind ?_
    cases hobj : st.objects[i]? with
    | none =>
      have hdrop : st.objects.drop i = [] :=
        drop_eq_nil_of_le (getElem?_eq_none_iff.1 hobj)
      refine holds_pure ⟨⟨[], by simpa using h, .inl⟩, fun e => ⟨e, rfl, ?_⟩⟩
      simp [hdrop]
    | some o =>
      have hmem : o ∈ st.objects := mem_of_getElem? hobj
      have hlt := (List.getElem?_eq_some_iff.1 hobj).1
      have hlen := h.length
      have hbound := h.bound
      refine (h.resolveReferences (fun s hs => ⟨o, hmem, hs⟩)).bind fun b st1 hb => ?_
      obtain ⟨⟨more, h1, hmore⟩, hstill⟩ := hb
      refine (ih h1 (by omega) (by omega)).imp fun b' st2 hb' => ?_
      obtain ⟨⟨more', h2, hmore'⟩, hstill'⟩ := hb'
      constructor
      · refine ⟨more ++ more', by rw [← append_assoc]; exact h2, fun e => ?_⟩
        rcases hmore' e with he | hne
        · rcases hmore he with he | hne
          · exact .inl he
          · exact .inr (by simp [hne])
        · exact .inr (by simp [hne])
      intro e
      obtain ⟨rfl, rfl, hrest⟩ := hstill' e
      obtain ⟨he, rfl, hs⟩ := hstill rfl
      have hsame : pulled ++ more = pulled := by
        have hlen1 := h.length.symm.trans h1.length
        rw [length_append] at hlen1
        rw [length_eq_zero_iff.1 (show more.length = 0 by omega), append_nil]
      rw [hsame] at hrest
      refine ⟨he, rfl, ?_⟩
      rw [drop_eq_getElem_cons hlt]
      have ho : st2.objects[i] = o := (List.getElem?_eq_some_iff.1 hobj).2
      rw [ho]
      exact forall_mem_cons.2 ⟨hs, hrest⟩

/-- The whole loop: there are fewer passes than members left, and one. -/
theorem Linked.resolveLoop {fuel : Nat} (h : Linked objects archives entryPoint st pulled)
    (hfuel : memberCount archives < pulled.length + fuel) :
    Holds (Ld.resolveLoop fuel st)
      (fun _ st' => ∃ more, Linked objects archives entryPoint st' (pulled ++ more) ∧
        ∀ o ∈ st'.objects, ∀ s, o.Refers s → Settled archives st' (pulled ++ more) s)
      (· ≠ .fuel) := by
  induction fuel generalizing st pulled with
  | zero =>
    have hbound := h.bound
    omega
  | succ fuel ih =>
    refine holds_gets_bind ?_
    have hlen := h.length
    have hcount := h.count
    refine (h.scanObjects (Nat.zero_le _) (by simp only [id]; omega)).bind fun b st1 hb => ?_
    obtain ⟨⟨more, h1, hmore⟩, hstill⟩ := hb
    cases b with
    | false =>
      obtain ⟨-, rfl, hsettled⟩ := hstill rfl
      exact holds_pure ⟨[], by simpa using h, by simpa using hsettled⟩
    | true =>
      have hne : more ≠ [] := (hmore rfl).elim (fun e => by cases e) id
      have hpos := length_pos_iff.2 hne
      refine (ih h1 (by rw [length_append]; omega)).imp fun _ st2 h2 => ?_
      obtain ⟨more', h2, hsettled⟩ := h2
      exact ⟨more ++ more', by rwa [← append_assoc], by rwa [← append_assoc]⟩

end

/-! ## The result -/

section

variable {objects : List ObjectFile} {archives : List Archive} {entryPoint : Name}
  {global : SymbolTable} {st : LinkState}

/-- `resolve_archives` on fresh archives returns with every wanted name settled, or exits with a
message. -/
theorem resolveArchives_holds (hfresh : ∀ a ∈ archives, a.Fresh)
    (hcollect : collectDefinitions 0 objects [] = .ok ((), global)) :
    Holds (resolveArchives entryPoint ⟨objects, archives, global⟩)
      (fun _ st => ∃ pulled, Linked objects archives entryPoint st pulled ∧
        ∀ s, (s = entryPoint ∨ ∃ o ∈ st.objects, o.Refers s) → Settled archives st pulled s)
      (· ≠ .fuel) := by
  have hstart : Linked objects archives entryPoint ⟨objects, archives, global⟩ [] := by
    refine ⟨rfl, rfl, fun id => ?_, ⟨[], by simp, .nil⟩, fun s => ?_, .nil⟩
    · cases hm : memberAt archives id with
      | none => rfl
      | some p =>
        obtain ⟨a, ha, hmem⟩ := Option.bind_eq_some_iff.1 hm
        obtain ⟨m, hm', rfl⟩ := Option.map_eq_some_iff.1 hmem
        have hflag := hfresh a (mem_of_getElem? ha) m (mem_of_getElem? hm')
        simp [← hflag]
    · have h := (collectDefinitions_holds 0 objects).ok () global hcollect s
      rw [h]
      simp [Known, symbolLookup]
  refine hstart.extractEntry.bind fun _ st1 h1 => ?_
  obtain ⟨more, h1, hentry⟩ := h1
  refine holds_gets_bind ?_
  refine (h1.resolveLoop (by rw [h1.count]; omega)).imp fun _ st2 h2 => ?_
  obtain ⟨more', h2, hsettled⟩ := h2
  refine ⟨_, h2, fun s hs => ?_⟩
  rcases hs with rfl | ⟨o, ho, hr⟩
  · exact h1.settled h2 hentry
  · exact hsettled o ho s hr

/-- The member has been extracted. -/
def Extracted (st : LinkState) (id : Nat × Nat) : Prop :=
  ∃ p, memberAt st.archives id = some p ∧ p.2.extracted = true

/-- The table when `check_undefined` is called: a kernel gets its placeholders before. -/
def tableFor (kernel : Bool) (tab : SymbolTable) : SymbolTable :=
  if kernel then addKernelSymbolPlaceholders tab else tab

/-- Neither a linked object nor, for a kernel, the linker itself defines the name. -/
def Undefined (kernel : Bool) (st : LinkState) (s : Name) : Prop :=
  (∀ o ∈ st.objects, ¬ o.Defines s) ∧ (kernel = true → s ∉ kernelSymbols)

/-- What `resolve_archives` leaves behind. -/
structure Resolved (objects : List ObjectFile) (archives : List Archive) (entryPoint : Name)
    (st : LinkState) : Prop where
  /-- Every member is extracted at most once, one linked object each, and each was when it was pulled
  in the first on offer for a missing name. -/
  once : ∃ pulled objs, pulled.Nodup ∧ (∀ id, id ∈ pulled ↔ Extracted st id) ∧
    st.objects = objects ++ objs ∧
    List.Forall₂ (fun id o => objectAt archives id = some o) pulled objs ∧
    (linking objects archives entryPoint (offersFirst archives)).Pulls pulled
  /-- No name is missing for which the first member on offer has been left out. -/
  closed : (linking objects archives entryPoint (offersFirst archives)).Closed
    {id | Extracted st id}
  /-- If no name has two sources, the members are the least closed set. -/
  least : (linking objects archives entryPoint (Offers archives)).OneSource →
    (linking objects archives entryPoint (Offers archives)).Least {id | Extracted st id}
  /-- `check_undefined` then complains if and only if a global reference or the entry point is left
  undefined. -/
  reported : ∀ kernel, checkUndefined st.objects (tableFor kernel st.global) entryPoint ≠ [] ↔
    (∃ o ∈ st.objects, ∃ d ∈ o.references, d.2.bind = stbGlobal ∧ Undefined kernel st d.1) ∨
      Undefined kernel st entryPoint

/-- The archives, and the members in them, in another order: `e` tells where each member has gone,
and the indexes follow. -/
structure Reordered (archives archives' : List Archive) (e : Nat × Nat ≃ Nat × Nat) : Prop where
  members : ∀ id, (memberAt archives' (e id)).map (fun p => (p.2.data, p.2.size)) =
    (memberAt archives id).map fun p => (p.2.data, p.2.size)
  offers : ∀ s id, Offers archives' s (e id) ↔ Offers archives s id

variable {pulled : List (Nat × Nat)}

/-- The members pulled are the ones marked. -/
theorem Linked.extracted
    (h : Linked objects archives entryPoint st pulled) (id : Nat × Nat) :
    id ∈ pulled ↔ Extracted st id := by
  unfold Extracted
  rw [h.members]
  constructor
  · intro hid
    obtain ⟨p, hp⟩ := Option.isSome_iff_exists.1 (pulls_members h.pulls id hid)
    exact ⟨_, by rw [hp, Option.map_some], by simpa using hid⟩
  · rintro ⟨p, hp, hflag⟩
    obtain ⟨q, -, rfl⟩ := Option.map_eq_some_iff.1 hp
    simpa using hflag

theorem known_tableFor (kernel : Bool) (tab : SymbolTable) (s : Name) :
    Known (tableFor kernel tab) s ↔ Known tab s ∨ (kernel = true ∧ s ∈ kernelSymbols) := by
  have hfold : ∀ (names : List Name) (tab : SymbolTable),
      Known (names.foldl (fun tab name => addLinkerSymbol tab name 0) tab) s ↔
        Known tab s ∨ s ∈ names := by
    intro names
    induction names with
    | nil => simp
    | cons name names ih =>
      intro tab
      rw [foldl_cons, ih, known_iff, known_iff]
      simp only [addLinkerSymbol, mem_cons, exists_eq_or_imp]
      rw [eq_comm, or_comm (a := s = name), or_assoc, or_comm (a := s = name)]
  unfold tableFor
  cases kernel with
  | false => simp
  | true => simpa [addKernelSymbolPlaceholders] using hfold kernelSymbols tab

theorem Linked.undefined (kernel : Bool)
    (h : Linked objects archives entryPoint st pulled) (s : Name) :
    (symbolLookup (tableFor kernel st.global) s).isNone ↔ Undefined kernel st s := by
  have hknown := (known_tableFor kernel st.global s).trans (or_congr_left (h.known s))
  have hnone : (symbolLookup (tableFor kernel st.global) s).isNone ↔
      ¬ Known (tableFor kernel st.global) s := by
    unfold Known
    cases symbolLookup (tableFor kernel st.global) s with
    | none => simp
    | some x => simp
  rw [hnone, hknown]
  unfold Undefined
  simp only [not_or, not_exists, not_and]

/-- When nothing is missing any more, the result is the one asked for. -/
theorem Linked.resolved
    (h : Linked objects archives entryPoint st pulled)
    (hsettled : ∀ s, (s = entryPoint ∨ ∃ o ∈ st.objects, o.Refers s) →
      Settled archives st pulled s) : Resolved objects archives entryPoint st := by
  have hset : {id | Extracted st id} = {id | id ∈ pulled} := by
    ext id
    exact (h.extracted id).symm
  have hclosed : (linking objects archives entryPoint (offersFirst archives)).Closed
      {id | id ∈ pulled} := by
    intro s hs id hid
    obtain ⟨hwant, hknown⟩ := (h.missing s).1 hs
    exact (hsettled s hwant).resolve_left hknown id hid
  obtain ⟨objs, hobjs, hall⟩ := h.linked
  constructor
  · exact ⟨pulled, objs, h.pulls.nodup, h.extracted, hobjs, hall, h.pulls⟩
  · rw [hset]
    exact hclosed
  · intro hone
    rw [hset]
    refine Supply.Pulls.least ?_ hone ?_
    · exact h.pulls.mono fun s id hid => offers_of_firstOffer hid
    intro s hs id hid
    obtain ⟨id', hid'⟩ := Option.isSome_iff_exists.1 (firstOffer_isSome hid)
    rw [hone s id id' (.inl hid) (.inl (offers_of_firstOffer hid'))]
    exact hclosed s hs id' hid'
  intro kernel
  unfold checkUndefined
  rw [Ne, append_eq_nil_iff, not_and_or, flatMap_eq_nil_iff]
  apply or_congr
  · simp only [flatMap_eq_nil_iff, mem_filter, Bool.and_eq_true, h.undefined, beq_iff_eq]
    constructor
    · intro hne
      by_contra hcon
      apply hne
      intro o ho d hd
      exact absurd ⟨o, ho, d, hd.1, hd.2.2, hd.2.1⟩ hcon
    · rintro ⟨o, ho, d, hd, hbind, hundef⟩ hall
      exact absurd (hall o ho d ⟨hd, hundef, hbind⟩) (by simp)
  · rw [← h.undefined kernel]
    split <;> simp_all

/-- A reordering moves the members and changes nothing else. -/
theorem Reordered.renamed {archives' : List Archive} {e : Nat × Nat ≃ Nat × Nat}
    (h : Reordered archives archives' e) :
    (linking objects archives entryPoint (Offers archives)).Renamed
      (linking objects archives' entryPoint (Offers archives')) e := by
  have hobject : ∀ id, ∃ name, objectAt archives' (e id) =
      (objectAt archives id).map fun o => { o with filename := name } := by
    intro id
    have hm := h.members id
    unfold objectAt memberObject
    cases hold : memberAt archives id with
    | none =>
      rw [hold] at hm
      rw [Option.map_eq_none_iff.1 hm]
      exact ⟨[], rfl⟩
    | some p =>
      rw [hold, Option.map_some] at hm
      obtain ⟨q, hq, hsame⟩ := Option.map_eq_some_iff.1 hm
      obtain ⟨hdata, hsize⟩ := Prod.mk.inj hsame
      refine ⟨q.1 ++ [0x28] ++ q.2.name ++ [0x29], ?_⟩
      rw [hq, Option.bind_some, Option.bind_some, hdata, hsize]
      exact elfReadMemory_toOption _ _ _ _
  have hread : ∀ (P : ObjectFile → Prop) id,
      (∀ (o : ObjectFile) name, P { o with filename := name } ↔ P o) →
      ((∃ o, objectAt archives' (e id) = some o ∧ P o) ↔ ∃ o, objectAt archives id = some o ∧ P o) := by
    intro P id hP
    obtain ⟨name, hname⟩ := hobject id
    rw [hname]
    simp [hP]
  refine ⟨rfl, rfl, fun id => ?_, fun id => ?_, h.offers⟩
  · ext s
    exact hread (fun o => o.Refers s) id fun o name => Iff.rfl
  · ext s
    exact hread (fun o => o.Defines s) id fun o name => Iff.rfl

/-- `resolve_archives`, called with the definitions of the objects collected and fresh archives,
returns or exits with a message. When it returns, `Resolved` tells what it has done; and archives and
members in another order lead to the same members, if no name has two sources. -/
theorem resolve_archives_least (hfresh : ∀ a ∈ archives, a.Fresh)
    (hcollect : collectDefinitions 0 objects [] = .ok ((), global)) :
    resolveArchives entryPoint ⟨objects, archives, global⟩ ≠ .error .fuel ∧
      ∀ st, resolveArchives entryPoint ⟨objects, archives, global⟩ = .ok ((), st) →
        Resolved objects archives entryPoint st ∧
          ∀ archives' e st', Reordered archives archives' e → (∀ a ∈ archives', a.Fresh) →
            resolveArchives entryPoint ⟨objects, archives', global⟩ = .ok ((), st') →
            (linking objects archives entryPoint (Offers archives)).OneSource →
            ∀ id, Extracted st id ↔ Extracted st' (e id) := by
  have hrun : Holds (resolveArchives entryPoint ⟨objects, archives, global⟩) _ _ :=
    resolveArchives_holds hfresh hcollect
  constructor
  · exact fun h => hrun.error _ h rfl
  intro st hst
  obtain ⟨pulled, hlinked, hsettled⟩ := hrun.ok () st hst
  have hres := hlinked.resolved hsettled
  refine ⟨hres, fun archives' e st' he hfresh' hst' hone id => ?_⟩
  obtain ⟨pulled', hlinked', hsettled'⟩ :=
    (resolveArchives_holds hfresh' hcollect).ok () st' hst'
  have hren : (linking objects archives entryPoint (Offers archives)).Renamed _ e := he.renamed
  have hsets := hren.least (hres.least hone)
    ((hlinked'.resolved hsettled').least (hren.oneSource hone))
  exact Set.ext_iff.1 hsets id

/-! ## Small inputs -/

/-- An object in memory, for the symbols given by name, binding and section. -/
def smallObject (symbols : List (Name × Nat × Nat)) : List UInt8 :=
  let strtab := 0 :: symbols.flatMap fun d => d.1 ++ [0]
  -- All names below have one byte, so the one of symbol `i` starts at `2 * i + 1`.
  let syms : List Elf64Sym := ⟨0, 0, 0, 0, 0, 0⟩ ::
    symbols.zipIdx.map fun d => ⟨2 * d.2 + 1, stInfoOf d.1.2.1 sttNotype, 0, d.1.2.2, 0, 0⟩
  let symOff := ehdrSize + strtab.length
  let symSize := syms.length * symSize
  let ehdr : Elf64Ehdr :=
    ⟨elfIdent, etRel, emAarch64, 1, 0, 0, symOff + symSize, 0, 64, 0, 0, 64, 3, 0⟩
  ehdr.encode ++ strtab ++ syms.flatMap Elf64Sym.encode ++
    [⟨0, 0, 0, 0, 0, 0, 0, 0, 0, 0⟩, ⟨0, shtSymtab, 0, 0, symOff, symSize, 2, 0, 8, 24⟩,
      ⟨0, shtStrtab, 0, 0, 64, strtab.length, 0, 0, 1, 0⟩].flatMap Elf64Shdr.encode

/-- A member with these symbols. -/
def smallMember (symbols : List (Name × Nat × Nat)) : ArchiveMember :=
  ⟨[0x6d], smallObject symbols, (smallObject symbols).length, 8, false⟩

/-- The first object: it defines `e` and refers to the names. -/
def smallMain (names : List Name) : ObjectFile :=
  match elfReadMemory
      (smallObject (([0x65], stbGlobal, 1) :: names.map fun s => (s, stbGlobal, shnUndef)))
      1000 [0x6f] with
  | .ok o => o
  | .error _ => ⟨[], [], 0, [], none, none, none, 0⟩

/-- One member that defines `f`. -/
def smallArchive : Archive :=
  ⟨[0x61], [smallMember [([0x66], stbGlobal, 1)]], [⟨[0x66], some 0⟩], by decide⟩

theorem smallArchive_member {id : Nat × Nat} (h : (memberAt [smallArchive] id).isSome) :
    id = (0, 0) := by
  obtain ⟨k, i⟩ := id
  match k, i with
  | 0, 0 => rfl
  | 0, i + 1 => cases h
  | k + 1, i => cases h

/-- A reference to `f` pulls in the member that defines it. -/
theorem resolve_archives_least_small : ∃ global st,
    collectDefinitions 0 [smallMain [[0x66]]] [] = .ok ((), global) ∧
    resolveArchives [0x65] ⟨[smallMain [[0x66]]], [smallArchive], global⟩ = .ok ((), st) ∧
    (linking [smallMain [[0x66]]] [smallArchive] [0x65] (Offers [smallArchive])).Least
      {id | Extracted st id} := by
  have hfresh : ∀ a ∈ [smallArchive], a.Fresh := by
    simp [smallArchive, Archive.Fresh, smallMember]
  have hok : (match collectDefinitions 0 [smallMain [[0x66]]] [] with
      | .ok ((), global) =>
        (resolveArchives [0x65] ⟨[smallMain [[0x66]]], [smallArchive], global⟩).isOk
      | .error _ => false) = true := by decide +kernel
  rcases hcollect : collectDefinitions 0 [smallMain [[0x66]]] [] with e | ⟨⟨⟩, global⟩
  · rw [hcollect] at hok
    cases hok
  rw [hcollect] at hok
  dsimp only at hok
  rcases hrun : resolveArchives [0x65] ⟨[smallMain [[0x66]]], [smallArchive], global⟩ with
    e | ⟨⟨⟩, st⟩
  · rw [hrun] at hok
    cases hok
  refine ⟨global, st, rfl, hrun, ?_⟩
  apply ((resolve_archives_least hfresh hcollect).2 st hrun).1.least
  have hmember : ∀ s id, (Offers [smallArchive] s id ∨
      ∃ o, objectAt [smallArchive] id = some o ∧ o.Defines s) → id = (0, 0) := by
    rintro s id (h | ⟨o, ho, -⟩)
    · exact smallArchive_member h.memberAt
    · obtain ⟨p, hp, -⟩ := Option.bind_eq_some_iff.1 ho
      exact smallArchive_member (by rw [hp]; rfl)
  intro s m m' hm hm'
  rw [hmember s m hm, hmember s m' hm']

/-- `f` is defined weakly by the first member and again by the second, which also defines `g`. -/
def doubleArchive : Archive :=
  ⟨[0x61], [smallMember [([0x66], stbWeak, 1)],
    smallMember [([0x67], stbGlobal, 1), ([0x66], stbGlobal, 1)]],
    [⟨[0x66], some 0⟩, ⟨[0x67], some 1⟩, ⟨[0x66], some 1⟩], by decide⟩

theorem double_closed :
    (linking [smallMain [[0x66], [0x67]]] [doubleArchive] [0x65] (Offers [doubleArchive])).Closed
      {(0, 1)} := by
  have hobject : (objectAt [doubleArchive] (0, 1)).isSome := by decide +kernel
  obtain ⟨o, ho⟩ := Option.isSome_iff_exists.1 hobject
  have hnone : (objectAt [doubleArchive] (0, 1)).all fun o => o.references.isEmpty := by
    decide +kernel
  have hall : ∀ s ∈ (smallMain [[0x66], [0x67]]).references.map Prod.fst,
      (objectAt [doubleArchive] (0, 1)).any fun o => decide (o.Defines s) := by decide +kernel
  have hentry : (smallMain [[0x66], [0x67]]).Defines [0x65] := by decide +kernel
  rw [ho] at hnone hall
  rintro s ⟨hwant, hgiven, hdef⟩ m -
  exfalso
  rcases hwant with (rfl | ⟨o', ho', hr⟩) | ⟨m', rfl, o', ho', hr⟩
  · exact hgiven ⟨_, mem_singleton_self _, hentry⟩
  · rw [mem_singleton.1 ho'] at hr
    exact hdef (0, 1) rfl ⟨o, ho, by simpa using hall s hr⟩
  rw [ho] at ho'
  cases ho'
  have hempty : o.references = [] := by simpa using hnone
  unfold ObjectFile.Refers at hr
  rw [hempty] at hr
  cases hr

/-- A missing entry point is reported although no reference is left; and where a name has two
sources, more can be pulled in than the least closed set. -/
theorem resolve_archives_not_least :
    (∃ st, resolveArchives [0x65] ⟨[], [], []⟩ = .ok ((), st) ∧
      checkUndefined st.objects st.global [0x65] ≠ [] ∧ ∀ o ∈ st.objects, o.references = []) ∧
    ∃ global st, collectDefinitions 0 [smallMain [[0x66], [0x67]]] [] = .ok ((), global) ∧
      resolveArchives [0x65] ⟨[smallMain [[0x66], [0x67]]], [doubleArchive], global⟩ =
        .ok ((), st) ∧
      ¬ (linking [smallMain [[0x66], [0x67]]] [doubleArchive] [0x65] (Offers [doubleArchive])).Least
        {id | Extracted st id} := by
  refine ⟨⟨⟨[], [], []⟩, rfl, by decide, by simp⟩, ?_⟩
  have hok : (match collectDefinitions 0 [smallMain [[0x66], [0x67]]] [] with
      | .ok ((), global) =>
        match resolveArchives [0x65] ⟨[smallMain [[0x66], [0x67]]], [doubleArchive], global⟩ with
        | .ok ((), st) => (memberAt st.archives (0, 0)).any fun p => p.2.extracted
        | .error _ => false
      | .error _ => false) = true := by decide +kernel
  rcases hcollect : collectDefinitions 0 [smallMain [[0x66], [0x67]]] [] with e | ⟨⟨⟩, global⟩
  · rw [hcollect] at hok
    cases hok
  rw [hcollect] at hok
  dsimp only at hok
  rcases hrun : resolveArchives [0x65]
      ⟨[smallMain [[0x66], [0x67]]], [doubleArchive], global⟩ with e | ⟨⟨⟩, st⟩
  · rw [hrun] at hok
    cases hok
  rw [hrun] at hok
  refine ⟨global, st, rfl, hrun, fun hleast => ?_⟩
  have hfirst : Extracted st (0, 0) := by
    obtain ⟨p, hp, hflag⟩ := (Option.any_eq_true _ _).1 hok
    exact ⟨p, hp, hflag⟩
  -- The second member alone leaves nothing missing.
  have hclosed := double_closed
  have hmem := hleast.2 _ hclosed hfirst
  cases hmem

end

end Slopix.Ld
