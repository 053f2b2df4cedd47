import Slopix.Ld.Image

/-!
# What the linker leaves out

Input sections are sorted by their names, and a name that no output section takes is passed over; so is
every relocation table of a section but the first. Both modes are treated alike: a section is sorted by
the mode's `categorize` function into one of the mode's output sections, of which the one of type
`SHT_NOBITS` has no bytes in the output.
-/

namespace Slopix.Ld

open Lib Elf List

/-- `LinkMode`, without the bootloader's. -/
inductive LinkMode where
  | userspace
  | kernel
  deriving DecidableEq

namespace LinkMode

/-- The choice of the output section. -/
def categorize : LinkMode → Name → Nat → Option Nat
  | .userspace => categorizeSection
  | .kernel => categorizeSectionKernel

/-- The output sections before the merge. -/
def sections : LinkMode → Sections
  | .userspace => userSections
  | .kernel => kernelSections

/-- How many there are. -/
def count : LinkMode → Nat
  | .userspace => OUT_COUNT
  | .kernel => KOUT_COUNT

/-- The choice of the addresses. -/
def assign : LinkMode → Sections → Sections
  | .userspace => assignAddresses
  | .kernel => assignAddressesKernel

/-- The whole link. -/
def link : LinkMode → (Nat → Nat → UInt8) → List ObjectFile → SymbolTable →
    Except RelocStop (Sections × SymbolTable)
  | .userspace => linkUser
  | .kernel => linkKernel

/-- The output sections before anything is relocated. -/
def placed (mode : LinkMode) (junk : Nat → Nat → UInt8) (objects : List ObjectFile) : Sections :=
  mode.assign (mergeSections junk mode.categorize objects mode.sections)

theorem categorize_bounds {mode : LinkMode} {name : Name} {flags c : Nat}
    (h : mode.categorize name flags = some c) : 0 < c ∧ c < mode.count ∧ flags &&& shfAlloc ≠ 0 := by
  cases mode with
  | userspace =>
    simp only [categorize, categorizeSection] at h
    split at h
    · cases h
    rename_i halloc
    refine ⟨?_, ?_, halloc⟩ <;> repeat' split at h
    all_goals cases h
    all_goals decide
  | kernel =>
    simp only [categorize, categorizeSectionKernel] at h
    split at h
    · cases h
    rename_i halloc
    refine ⟨?_, ?_, halloc⟩ <;> repeat' split at h
    all_goals cases h
    all_goals decide

end LinkMode

/-! ## The sections that an output section gets -/

/-- The header of an input section that is sorted into output section `c`. -/
def chosen (categorize : Name → Nat → Option Nat) (c : Nat) (x : InputRef) : Option Elf64Shdr :=
  match x.obj.shdrs[x.shndx]?, x.obj.sectionName x.shndx with
  | some sh, some name => if categorize name sh.shFlags = some c then some sh else none
  | _, _ => none

/-- The input sections of output section `c` in their order. -/
def members (categorize : Name → Nat → Option Nat) (c : Nat) (xs : List InputRef) :
    List (InputRef × Elf64Shdr) :=
  xs.filterMap fun x => (chosen categorize c x).map (x, ·)

/-- Add an input section to an output section. -/
def addMember (junk : Nat → UInt8) (out : OutputSection) (y : InputRef × Elf64Shdr) : OutputSection :=
  addInput junk y.1.file y.1.obj y.1.shndx y.2 out

/-- The alignment that the merge gives a piece. -/
def inputAlign (sh : Elf64Shdr) : Nat := if sh.shAddralign = 0 then 1 else sh.shAddralign

/-- The piece that an input section becomes. -/
def newPiece (out : OutputSection) (y : InputRef × Elf64Shdr) : SectionPiece :=
  ⟨y.1.file, y.1.shndx, alignUp out.size (inputAlign y.2), y.2.shSize⟩

theorem addMember_pieces (junk : Nat → UInt8) (out : OutputSection) (y : InputRef × Elf64Shdr) :
    (addMember junk out y).pieces = out.pieces ++ [newPiece out y] := rfl

/-- The sections fit one behind the other from offset `n` without an overflow of 64 bits. -/
def NoOverflow : Nat → List (InputRef × Elf64Shdr) → Prop
  | _, [] => True
  | n, y :: l => n ≤ alignUp n (inputAlign y.2) ∧ alignUp n (inputAlign y.2) + y.2.shSize < 2 ^ 64 ∧
      NoOverflow (alignUp n (inputAlign y.2) + y.2.shSize) l

/-- No overflow can be decided along the list. -/
def decideNoOverflow : (n : Nat) → (ys : List (InputRef × Elf64Shdr)) → Decidable (NoOverflow n ys)
  | _, [] => .isTrue trivial
  | n, y :: ys =>
    have := decideNoOverflow (alignUp n (inputAlign y.2) + y.2.shSize) ys
    inferInstanceAs (Decidable (_ ∧ _ ∧ NoOverflow _ ys))

instance (n : Nat) (ys : List (InputRef × Elf64Shdr)) : Decidable (NoOverflow n ys) := decideNoOverflow n ys

section

variable {categorize : Name → Nat → Option Nat} {junk : Nat → UInt8} {junks : Nat → Nat → UInt8}
  {objects : List ObjectFile} {secs : Sections} {out : OutputSection} {c : Nat} {x : InputRef}
  {sh : Elf64Shdr}

theorem chosen_iff : chosen categorize c x = some sh ↔ x.obj.shdrs[x.shndx]? = some sh ∧
    ∃ name, x.obj.sectionName x.shndx = some name ∧ categorize name sh.shFlags = some c := by
  unfold chosen
  cases hsh : x.obj.shdrs[x.shndx]? with
  | none => simp
  | some sh' =>
    cases hname : x.obj.sectionName x.shndx with
    | none => simp
    | some name =>
      simp only [Option.ite_none_right_eq_some, Option.some.injEq]
      constructor
      · rintro ⟨hcat, rfl⟩
        exact ⟨rfl, name, rfl, hcat⟩
      · rintro ⟨rfl, _, rfl, hcat⟩
        exact ⟨hcat, rfl⟩

theorem mem_members {xs : List InputRef} {y : InputRef × Elf64Shdr} :
    y ∈ members categorize c xs ↔ y.1 ∈ xs ∧ chosen categorize c y.1 = some y.2 := by
  simp only [members, mem_filterMap, Option.map_eq_some_iff]
  constructor
  · rintro ⟨x, hx, sh, hsh, rfl⟩
    exact ⟨hx, hsh⟩
  · rintro ⟨hx, hsh⟩
    exact ⟨y.1, hx, y.2, hsh, rfl⟩

theorem mergeSection_at (x : InputRef) : mergeSection junks categorize x.file x.obj secs x.shndx c =
    match chosen categorize c x with
    | some sh => addMember (junks c) (secs c) (x, sh)
    | none => secs c := by
  unfold mergeSection chosen
  cases x.obj.shdrs[x.shndx]? with
  | none => rfl
  | some sh =>
    cases x.obj.sectionName x.shndx with
    | none => rfl
    | some name =>
      dsimp only
      cases hcat : categorize name sh.shFlags with
      | none => simp
      | some c' =>
        by_cases hc : c' = c
        · subst hc
          simp [addMember]
        · rw [if_neg (by simpa using hc)]
          exact Function.update_of_ne (Ne.symm hc) _ _

/-- The loop over all input sections, seen from one output section. -/
theorem mergeSections_at : mergeSections junks categorize objects secs c =
    (members categorize c (inputs objects)).foldl (addMember (junks c)) (secs c) := by
  rw [mergeSections_eq]
  generalize inputs objects = xs
  induction xs generalizing secs with
  | nil => rfl
  | cons x xs ih =>
    rw [foldl_cons, ih, mergeSection_at]
    unfold members
    cases hx : chosen categorize c x with
    | none => rw [filterMap_cons_none (by rw [hx]; rfl)]
    | some sh =>
      rw [filterMap_cons_some (b := (x, sh)) (by rw [hx]; rfl), foldl_cons]

/-- The bytes of an input section stand in an output section. -/
def Stands (out : OutputSection) (y : InputRef × Elf64Shdr) : Prop :=
  ∃ p ∈ out.pieces, p.file = y.1.file ∧ p.inputShndx = y.1.shndx ∧ p.size = y.2.shSize ∧
    p.outputOffset + p.size ≤ out.size ∧
    (y.2.shType ≠ shtNobits → 0 < y.2.shSize → StandsAt out.data p.outputOffset (inputBytes y.1.obj y.2))

/-- No piece reaches into a later one. -/
def Apart (out : OutputSection) : Prop :=
  out.pieces.Pairwise fun p q => p.outputOffset + p.size ≤ q.outputOffset

/-- An output section while it grows. -/
structure Growing (out : OutputSection) (ys : List (InputRef × Elf64Shdr)) : Prop where
  buffer : out.data.length ≤ out.size
  within : ∀ p ∈ out.pieces, p.outputOffset + p.size ≤ out.size
  apart : Apart out
  stands : ∀ y ∈ ys, Stands out y

variable {y : InputRef × Elf64Shdr} {ys : List (InputRef × Elf64Shdr)}

/-- One more piece is appended to the section. -/
theorem addMember_growing (h : Growing out ys) (hge : out.size ≤ alignUp out.size (inputAlign y.2))
    (hlt : alignUp out.size (inputAlign y.2) + y.2.shSize < 2 ^ 64) :
    Growing (addMember junk out y) (ys ++ [y]) ∧
      (addMember junk out y).size = alignUp out.size (inputAlign y.2) + y.2.shSize := by
  have hsize : (addMember junk out y).size = alignUp out.size (inputAlign y.2) + y.2.shSize :=
    Nat.mod_eq_of_lt hlt
  have hpieces := addMember_pieces junk out y
  have hdata : (addMember junk out y).data = if y.2.shType ≠ shtNobits ∧ 0 < y.2.shSize then
      out.data ++ (range' out.data.length (out.size - out.data.length)).map junk ++
        replicate (alignUp out.size (inputAlign y.2) - out.size) 0 ++ inputBytes y.1.obj y.2
      else out.data := rfl
  have hbuffer := h.buffer
  refine ⟨⟨?_, fun p hp => ?_, ?_, fun z hz => ?_⟩, hsize⟩
  · rw [hdata, hsize]
    split
    · simp only [length_append, length_map, length_range', length_replicate, inputBytes, length_getBytes]
      omega
    · omega
  · rw [hpieces] at hp
    rw [hsize]
    rcases mem_append.1 hp with hp | hp
    · have hold := h.within p hp
      omega
    · obtain rfl := mem_singleton.1 hp
      exact le_refl _
  · rw [Apart, hpieces, pairwise_append]
    refine ⟨h.apart, pairwise_singleton _ _, fun p hp q hq => ?_⟩
    obtain rfl := mem_singleton.1 hq
    exact le_trans (h.within p hp) hge
  rcases mem_append.1 hz with hz | hz
  · -- the buffer only grows behind an older piece
    obtain ⟨p, hp, hfile, hshndx, hpsize, hend, hbytes⟩ := h.stands z hz
    refine ⟨p, by rw [hpieces]; exact mem_append_left _ hp, hfile, hshndx, hpsize,
      by rw [hsize]; omega, fun hbits h0 => ?_⟩
    have hold := hbytes hbits h0
    rw [hdata]
    split
    · exact StandsAt.append (StandsAt.append (StandsAt.append hold _) _) _
    · exact hold
  obtain rfl := mem_singleton.1 hz
  refine ⟨newPiece out z, by rw [hpieces]; exact mem_append_right _ (mem_singleton_self _),
    rfl, rfl, rfl, by rw [hsize]; exact le_refl _, fun hbits h0 => ?_⟩
  rw [hdata, if_pos ⟨hbits, h0⟩]
  refine ⟨_, [], by rw [append_nil], ?_⟩
  simp only [length_append, length_map, length_range', length_replicate, newPiece]
  omega

/-- All sections of an output section, when nothing overflows. -/
theorem foldl_growing (h : Growing out ys) {l : List (InputRef × Elf64Shdr)}
    (hno : NoOverflow out.size l) : Growing (l.foldl (addMember junk) out) (ys ++ l) := by
  induction l generalizing out ys with
  | nil => simpa using h
  | cons y l ih =>
    obtain ⟨hge, hlt, hrest⟩ := hno
    obtain ⟨hgrow, hsize⟩ := @addMember_growing junk _ _ _ h hge hlt
    rw [← hsize] at hrest
    simpa using ih hgrow hrest

theorem foldl_pieces (l : List (InputRef × Elf64Shdr)) (out : OutputSection) :
    ∃ ps, (l.foldl (addMember junk) out).pieces = out.pieces ++ ps ∧
      ∀ p ∈ ps, ∃ y ∈ l, p.file = y.1.file ∧ p.inputShndx = y.1.shndx := by
  induction l generalizing out with
  | nil => exact ⟨[], by simp, by simp⟩
  | cons y l ih =>
    obtain ⟨ps, hps, hmem⟩ := ih (addMember junk out y)
    refine ⟨newPiece out y :: ps, ?_, fun p hp => ?_⟩
    · rw [foldl_cons, hps, addMember_pieces, append_assoc, singleton_append]
    rcases mem_cons.1 hp with rfl | hp
    · exact ⟨y, mem_cons_self, rfl, rfl⟩
    · obtain ⟨z, hz, hzp⟩ := hmem p hp
      exact ⟨z, mem_cons_of_mem _ hz, hzp⟩

theorem foldl_size_lt {l : List (InputRef × Elf64Shdr)} (h : out.size < 2 ^ 64) :
    (l.foldl (addMember junk) out).size < 2 ^ 64 := by
  induction l generalizing out with
  | nil => exact h
  | cons y l ih => exact ih (Nat.mod_lt _ (by decide))

/-- An output section is empty or its last byte is one of a piece. -/
def EndsWithPiece (out : OutputSection) : Prop :=
  out.size = 0 ∨ ∃ p ∈ out.pieces, p.outputOffset + p.size = out.size

theorem noOverflow_of_apart {l : List (InputRef × Elf64Shdr)} (hsize : out.size < 2 ^ 64)
    (hends : EndsWithPiece out) (hapart : Apart (l.foldl (addMember junk) out))
    (hwithin : ∀ p ∈ (l.foldl (addMember junk) out).pieces,
      p.outputOffset + p.size ≤ (l.foldl (addMember junk) out).size) : NoOverflow out.size l := by
  induction l generalizing out with
  | nil => trivial
  | cons y l ih =>
    rw [foldl_cons] at hapart hwithin
    obtain ⟨ps, hps, -⟩ := @foldl_pieces junk l (addMember junk out y)
    have hmem : newPiece out y ∈ (addMember junk out y).pieces :=
      mem_append_right _ (mem_singleton_self _)
    have hnew := hwithin (newPiece out y) (by rw [hps]; exact mem_append_left _ hmem)
    have hlast := @foldl_size_lt junk (addMember junk out y) l
      (Nat.mod_lt _ (by decide))
    have hlt : alignUp out.size (inputAlign y.2) + y.2.shSize < 2 ^ 64 := lt_of_le_of_lt hnew hlast
    have hsize' : (addMember junk out y).size = alignUp out.size (inputAlign y.2) + y.2.shSize :=
      Nat.mod_eq_of_lt hlt
    have hends' : EndsWithPiece (addMember junk out y) := .inr ⟨newPiece out y, hmem, hsize'.symm⟩
    have hrest := ih (by rw [hsize']; exact hlt) hends' hapart hwithin
    rw [hsize'] at hrest
    refine ⟨?_, hlt, hrest⟩
    -- the section ended with an older piece, which the new one does not reach
    rcases hends with h0 | ⟨p, hp, hend⟩
    · omega
    · rw [Apart, hps, addMember_pieces, append_assoc, pairwise_append] at hapart
      have happ := hapart.2.2 p hp (newPiece out y) (mem_append_left _ (mem_singleton_self _))
      exact le_trans (le_of_eq hend.symm) happ

end

/-! ## Addresses change nothing else -/

section

variable {secs : Sections}

theorem SameContents.refl (secs : Sections) : SameContents secs secs := fun _ => rfl

theorem SameContents.trans {secs' secs'' : Sections} (h : SameContents secs secs')
    (h' : SameContents secs' secs'') : SameContents secs secs'' := fun i => (h' i).trans (h i)

theorem sameContents_update {i : Nat} {out : OutputSection} (h : out.unplaced = (secs i).unplaced) :
    SameContents secs (Function.update secs i out) := by
  intro k
  by_cases hk : k = i
  · subst hk
    rw [Function.update_self, h]
  · rw [Function.update_of_ne hk]

theorem placeSection_same (st : Sections × Nat) (i : Nat) : SameContents st.1 (placeSection st i).1 := by
  unfold placeSection
  dsimp only
  split
  · exact SameContents.refl _
  · exact sameContents_update rfl

theorem placeKernelSection_same (st : Sections × Nat × Nat) (i : Nat) :
    SameContents st.1 (placeKernelSection st i).1 := by
  unfold placeKernelSection
  dsimp only
  split
  · exact SameContents.refl _
  · exact sameContents_update rfl

theorem placeLow_same (secs : Sections) (i phys : Nat) : SameContents secs (placeLow secs i phys).1 := by
  unfold placeLow
  dsimp only
  split
  · exact SameContents.refl _
  · exact sameContents_update rfl

/-- Every mode's addresses leave pieces, sizes and bytes alone. -/
theorem LinkMode.assign_same (mode : LinkMode) (secs : Sections) : SameContents secs (mode.assign secs) := by
  cases mode with
  | userspace =>
    have htwo : ∀ (st : Sections × Nat) (i j : Nat),
        SameContents st.1 ([i, j].foldl placeSection st).1 := fun st i j =>
      (placeSection_same st i).trans (placeSection_same _ j)
    exact (htwo (secs, TEXT_BASE) OUT_TEXT OUT_RODATA).trans (htwo (_, _) OUT_DATA OUT_BSS)
  | kernel =>
    have hfour : ∀ (st : Sections × Nat × Nat) (i j k l : Nat),
        SameContents st.1 ([i, j, k, l].foldl placeKernelSection st).1 := fun st i j k l =>
      (placeKernelSection_same st i).trans <| (placeKernelSection_same _ j).trans <|
        (placeKernelSection_same _ k).trans (placeKernelSection_same _ l)
    exact (placeLow_same secs KOUT_TEXT_BOOT _).trans <| (placeLow_same _ KOUT_TABLES _).trans
      (hfour (_, _, _) KOUT_TEXT KOUT_RODATA KOUT_DATA KOUT_BSS)

theorem addMembers_kept {junk : Nat → UInt8} (l : List (InputRef × Elf64Shdr)) (out : OutputSection) :
    (l.foldl (addMember junk) out).type = out.type := by
  induction l generalizing out with
  | nil => rfl
  | cons y l ih => exact (ih _).trans rfl

end

/-! ## Relocations -/

/-- A relocation of a piece. -/
structure RelocRef where
  input : InputRef
  out : Nat
  piece : SectionPiece
  rela : Elf64Rela

/-- What the loops of `apply_relocations` do for an input section. -/
def carriedFor (count : Nat) (secs : Sections) (x : InputRef) : List RelocRef :=
  match x.obj.shdrs[x.shndx]? with
  | none => []
  | some sh =>
    if sh.shFlags &&& shfAlloc = 0 then []
    else
      match findPiece secs count x.file x.shndx with
      | none => []
      | some (i, p) => (x.obj.relasFor x.shndx).map fun r => ⟨x, i, p, r⟩

/-- The relocations that `apply_relocations` carries out, in their order. -/
def carriedOut (objects : List ObjectFile) (count : Nat) (secs : Sections) : List RelocRef :=
  (inputs objects).flatMap (carriedFor count secs)

/-- The relocations that an object records for one of its sections. -/
def recordedFor (x : InputRef) : List Elf64Rela :=
  (x.obj.shdrs.filter fun sh => sh.shType == shtRela && sh.shInfo == x.shndx).flatMap fun sh =>
    (List.range (sh.shSize / relaSize)).map fun k =>
      relaAt (fileBytesOf x.obj.data) (sh.shOffset + relaSize * k)

section

variable {objects : List ObjectFile} {global : SymbolTable} {count : Nat} {secs secs' : Sections}

/-- What the linker does with one relocation. -/
def carryOut (global : SymbolTable) (count : Nat) (secs : Sections) (r : RelocRef) :
    Except RelocStop Sections :=
  applyReloc r.input.file r.input.obj global count r.out r.piece secs r.rela

theorem findPiece_congr (h : SameLayout secs secs') (file shndx : Nat) :
    findPiece secs' count file shndx = findPiece secs count file shndx := by
  unfold findPiece
  congr 1
  funext i
  rw [(h.fields i).2.2.1]

theorem applySection_eq (h : SameLayout secs secs') (x : InputRef) :
    applySection x.file x.obj global count secs' x.shndx =
      (carriedFor count secs x).foldlM (carryOut global count) secs' := by
  unfold applySection carriedFor
  cases x.obj.shdrs[x.shndx]? with
  | none => rfl
  | some sh =>
    dsimp only
    split
    · rfl
    rw [findPiece_congr h]
    cases findPiece secs count x.file x.shndx with
    | none => rfl
    | some ip =>
      rw [foldlM_map]
      rfl

theorem foldlM_flatMap {α β σ ε : Type} (l : List α) (g : α → List β) (f : σ → β → Except ε σ) (s : σ) :
    (l.flatMap g).foldlM f s = l.foldlM (fun s a => (g a).foldlM f s) s := by
  induction l generalizing s with
  | nil => rfl
  | cons a l ih =>
    rw [flatMap_cons, foldlM_append, foldlM_cons]
    congr 1
    funext s'
    exact ih s'

theorem applyRelocations_eq : applyRelocations objects global count secs =
    (carriedOut objects count secs).foldlM (carryOut global count) secs := by
  have hinputs : applyRelocations objects global count secs =
      (inputs objects).foldlM (fun s x => applySection x.file x.obj global count s x.shndx) secs := by
    unfold applyRelocations inputs
    rw [foldlM_flatMap]
    congr 1
    funext s o
    rw [foldlM_map]
  rw [hinputs, carriedOut]
  have hall : ∀ (xs : List InputRef) (s : Sections), SameLayout secs s →
      xs.foldlM (fun s x => applySection x.file x.obj global count s x.shndx) s =
        (xs.flatMap (carriedFor count secs)).foldlM (carryOut global count) s := by
    intro xs
    induction xs with
    | nil => exact fun _ _ => rfl
    | cons x xs ih =>
      intro s hs
      rw [foldlM_cons, flatMap_cons, foldlM_append, applySection_eq hs]
      cases hstep : (carriedFor count secs x).foldlM (carryOut global count) s with
      | error e => rfl
      | ok s' =>
        exact ih s' (hs.trans (sameLayout_foldlM (fun _ _ _ h => applyReloc_layout h) hstep))
  exact hall _ secs (SameLayout.refl _)

end

/-! ## Complete links -/

/-- Every allocated input section is a piece of an output section, which has bytes in the file if the
input section has any; the pieces lie apart and inside their sections; and the final bytes are those of
the pieces after every recorded relocation has been carried out. -/
structure Includes (mode : LinkMode) (junk : Nat → Nat → UInt8) (objects : List ObjectFile)
    (global : SymbolTable) (secs : Sections) : Prop where
  sections : ∀ x ∈ inputs objects, ∀ sh, x.obj.shdrs[x.shndx]? = some sh → sh.shFlags &&& shfAlloc ≠ 0 →
    ∃ i, 0 < i ∧ i < mode.count ∧ Stands (mode.placed junk objects i) (x, sh) ∧
      (sh.shType ≠ shtNobits → 0 < sh.shSize → (mode.placed junk objects i).type ≠ shtNobits)
  apart : ∀ i, 0 < i → i < mode.count → Apart (mode.placed junk objects i) ∧
    ∀ p ∈ (mode.placed junk objects i).pieces, p.outputOffset + p.size ≤ (mode.placed junk objects i).size
  result : (carriedOut objects mode.count (mode.placed junk objects)).foldlM
    (carryOut global mode.count) (mode.placed junk objects) = .ok secs
  relocs : ∀ x ∈ inputs objects, ∀ sh, x.obj.shdrs[x.shndx]? = some sh → sh.shFlags &&& shfAlloc ≠ 0 →
    ∀ r ∈ recordedFor x, ∃ v ∈ carriedOut objects mode.count (mode.placed junk objects), v.input = x ∧
      v.rela = r ∧ v.piece ∈ (mode.placed junk objects v.out).pieces ∧ v.piece.file = x.file ∧
      v.piece.inputShndx = x.shndx

/-- Every allocated input section has a name that the mode sorts, into a section of the file if it has
bytes; its first relocation table has all its relocations; and no output section overflows 64 bits. -/
structure Sorted (mode : LinkMode) (objects : List ObjectFile) : Prop where
  named : ∀ x ∈ inputs objects, ∀ sh, x.obj.shdrs[x.shndx]? = some sh → sh.shFlags &&& shfAlloc ≠ 0 →
    ∃ name c, x.obj.sectionName x.shndx = some name ∧ mode.categorize name sh.shFlags = some c ∧
      (sh.shType ≠ shtNobits → 0 < sh.shSize → (mode.sections c).type ≠ shtNobits)
  tables : ∀ x ∈ inputs objects, ∀ sh, x.obj.shdrs[x.shndx]? = some sh → sh.shFlags &&& shfAlloc ≠ 0 →
    ∀ r ∈ recordedFor x, r ∈ x.obj.relasFor x.shndx
  fits : ∀ c, 0 < c → c < mode.count → NoOverflow 0 (members mode.categorize c (inputs objects))

instance (mode : LinkMode) (objects : List ObjectFile) : Decidable (Sorted mode objects) :=
  decidable_of_iff
    ((∀ x ∈ inputs objects, ∀ sh ∈ x.obj.shdrs[x.shndx]?, sh.shFlags &&& shfAlloc ≠ 0 →
        ∃ name ∈ x.obj.sectionName x.shndx, ∃ c ∈ mode.categorize name sh.shFlags,
          (sh.shType ≠ shtNobits → 0 < sh.shSize → (mode.sections c).type ≠ shtNobits)) ∧
      (∀ x ∈ inputs objects, ∀ sh ∈ x.obj.shdrs[x.shndx]?, sh.shFlags &&& shfAlloc ≠ 0 →
        ∀ r ∈ recordedFor x, r ∈ x.obj.relasFor x.shndx) ∧
      ∀ c < mode.count, 0 < c → NoOverflow 0 (members mode.categorize c (inputs objects)))
    ⟨fun ⟨hnamed, htables, hfits⟩ => ⟨fun x hx sh hsh hflags =>
        have ⟨name, hname, c, hc, hbits⟩ := hnamed x hx sh hsh hflags
        ⟨name, c, hname, hc, hbits⟩, htables, fun c h0 hlt => hfits c hlt h0⟩,
      fun h => ⟨fun x hx sh hsh hflags =>
        have ⟨name, c, hname, hc, hbits⟩ := h.named x hx sh hsh hflags
        ⟨name, hname, c, hc, hbits⟩, h.tables, fun c hlt h0 => h.fits c h0 hlt⟩⟩

section

variable {mode : LinkMode} {junk : Nat → Nat → UInt8} {objects : List ObjectFile} {global : SymbolTable}
  {secs : Sections}

/-- An output section after the merge. -/
def LinkMode.merged (mode : LinkMode) (junk : Nat → Nat → UInt8) (objects : List ObjectFile) (c : Nat) :
    OutputSection :=
  (members mode.categorize c (inputs objects)).foldl (addMember (junk c)) (mode.sections c)

theorem placed_unplaced (c : Nat) :
    (mode.placed junk objects c).unplaced = (mode.merged junk objects c).unplaced := by
  have hsame := mode.assign_same (mergeSections junk mode.categorize objects mode.sections) c
  rw [mergeSections_at] at hsame
  exact hsame

theorem placed_fields (c : Nat) : (mode.placed junk objects c).pieces = (mode.merged junk objects c).pieces ∧
    (mode.placed junk objects c).size = (mode.merged junk objects c).size ∧
    (mode.placed junk objects c).data = (mode.merged junk objects c).data ∧
    (mode.placed junk objects c).type = (mode.sections c).type := by
  have hsame := @placed_unplaced mode junk objects c
  have hpieces : (mode.placed junk objects c).unplaced.pieces = _ := congrArg OutputSection.pieces hsame
  have hsize : (mode.placed junk objects c).unplaced.size = _ := congrArg OutputSection.size hsame
  have hdata : (mode.placed junk objects c).unplaced.data = _ := congrArg OutputSection.data hsame
  have htype : (mode.placed junk objects c).unplaced.type = _ := congrArg OutputSection.type hsame
  exact ⟨hpieces, hsize, hdata, htype.trans (addMembers_kept _ _)⟩

theorem sections_start (mode : LinkMode) (c : Nat) :
    Growing (mode.sections c) [] ∧ (mode.sections c).size = 0 ∧ (mode.sections c).pieces = [] := by
  cases mode <;> exact ⟨⟨le_refl _, by simp [LinkMode.sections, userSections, kernelSections,
    outputSectionInit], List.Pairwise.nil, by simp⟩, rfl, rfl⟩

theorem placed_piece {c : Nat} {p : SectionPiece} (hp : p ∈ (mode.placed junk objects c).pieces) :
    ∃ y ∈ members mode.categorize c (inputs objects), p.file = y.1.file ∧ p.inputShndx = y.1.shndx := by
  obtain ⟨ps, hps, hmem⟩ := @foldl_pieces (junk c) (members mode.categorize c (inputs objects))
    (mode.sections c)
  rw [(placed_fields c).1, LinkMode.merged, hps, (sections_start mode c).2.2] at hp
  exact hmem p hp

theorem input_ext {x y : InputRef} (hx : x ∈ inputs objects) (hy : y ∈ inputs objects)
    (hfile : x.file = y.file) (hshndx : x.shndx = y.shndx) : x = y := by
  have hobj := mem_inputs hx
  rw [hfile, mem_inputs hy] at hobj
  cases x
  cases y
  simp_all

theorem findPiece_some {count i : Nat} {p : SectionPiece} (h0 : 0 < i) (hlt : i < count)
    (hp : p ∈ (secs i).pieces) : ∃ i' p', findPiece secs count p.file p.inputShndx = some (i', p') ∧
      p' ∈ (secs i').pieces ∧ p'.file = p.file ∧ p'.inputShndx = p.inputShndx := by
  cases hfind : findPiece secs count p.file p.inputShndx with
  | none =>
    have hnone := findSome?_eq_none_iff.1 hfind i (mem_range'.2 ⟨i - 1, by omega, by omega⟩)
    rw [Option.map_eq_none_iff] at hnone
    exact absurd (find?_eq_none.1 hnone p hp) (by simp)
  | some ip =>
    obtain ⟨i', -, hi'⟩ := exists_of_findSome?_eq_some hfind
    obtain ⟨p', hp', rfl⟩ := Option.map_eq_some_iff.1 hi'
    have hmatch := find?_some hp'
    simp only [Bool.and_eq_true, beq_iff_eq] at hmatch
    exact ⟨i', p', rfl, mem_of_find?_eq_some hp', hmatch⟩

theorem link_result {global' : SymbolTable} (h : mode.link junk objects global = .ok (secs, global')) :
    applyRelocations objects global' mode.count (mode.placed junk objects) = .ok secs := by
  cases mode with
  | userspace =>
    simp only [LinkMode.link, linkUser] at h
    cases hreloc : applyRelocations objects (updateSymbolValues global
        (assignAddresses (mergeSections junk categorizeSection objects userSections)) OUT_COUNT) OUT_COUNT
        (assignAddresses (mergeSections junk categorizeSection objects userSections)) with
    | error e =>
      rw [hreloc] at h
      cases h
    | ok secs' =>
      rw [hreloc] at h
      cases h
      exact hreloc
  | kernel =>
    simp only [LinkMode.link, linkKernel] at h
    cases hreloc : applyRelocations objects (updateSymbolValues (defineKernelSymbols global
        (assignAddressesKernel (mergeSections junk categorizeSectionKernel objects kernelSections)))
        (assignAddressesKernel (mergeSections junk categorizeSectionKernel objects kernelSections)) KOUT_COUNT)
        KOUT_COUNT
        (assignAddressesKernel (mergeSections junk categorizeSectionKernel objects kernelSections)) with
    | error e =>
      rw [hreloc] at h
      cases h
    | ok secs' =>
      rw [hreloc] at h
      cases h
      exact hreloc

theorem sorted_of_includes (h : Includes mode junk objects global secs) : Sorted mode objects := by
  refine ⟨fun x hx sh hsh halloc => ?_, fun x hx sh hsh halloc r hr => ?_, fun c h0 hlt => ?_⟩
  · obtain ⟨i, -, -, ⟨p, hp, hfile, hshndx, -⟩, hbits⟩ := h.sections x hx sh hsh halloc
    obtain ⟨y, hy, hyfile, hyshndx⟩ := placed_piece hp
    obtain ⟨hyin, hychosen⟩ := mem_members.1 hy
    obtain rfl : y.1 = x := input_ext hyin hx (hyfile.symm.trans hfile) (hyshndx.symm.trans hshndx)
    obtain ⟨hsh', name, hname, hcat⟩ := chosen_iff.1 hychosen
    obtain rfl : y.2 = sh := Option.some.inj (hsh'.symm.trans hsh)
    rw [(placed_fields i).2.2.2] at hbits
    exact ⟨name, i, hname, hcat, hbits⟩
  · obtain ⟨v, hv, rfl, rfl, -⟩ := h.relocs x hx sh hsh halloc r hr
    obtain ⟨x', -, hv⟩ := mem_flatMap.1 hv
    unfold carriedFor at hv
    split at hv
    · cases hv
    split at hv
    · cases hv
    split at hv
    · cases hv
    · obtain ⟨r', hr', rfl⟩ := mem_map.1 hv
      exact hr'
  obtain ⟨hapart, hwithin⟩ := h.apart c h0 hlt
  obtain ⟨-, hsize, hpieces⟩ := sections_start mode c
  obtain ⟨hps, hsz, -⟩ := @placed_fields mode junk objects c
  rw [Apart, hps] at hapart
  rw [hps, hsz] at hwithin
  rw [← hsize]
  exact noOverflow_of_apart (by rw [hsize]; decide) (.inl hsize) hapart hwithin

theorem includes_of_sorted (hresult : applyRelocations objects global mode.count (mode.placed junk objects) =
    .ok secs) (h : Sorted mode objects) : Includes mode junk objects global secs := by
  have hgrow : ∀ c, 0 < c → c < mode.count →
      Growing (mode.merged junk objects c) (members mode.categorize c (inputs objects)) := by
    intro c h0 hlt
    obtain ⟨hstart, hsize, -⟩ := sections_start mode c
    have hfits := h.fits c h0 hlt
    rw [← hsize] at hfits
    exact @foldl_growing (junk c) _ _ hstart _ hfits
  have hstands : ∀ x ∈ inputs objects, ∀ sh, x.obj.shdrs[x.shndx]? = some sh →
      sh.shFlags &&& shfAlloc ≠ 0 → ∃ i, 0 < i ∧ i < mode.count ∧
        Stands (mode.placed junk objects i) (x, sh) ∧
          (sh.shType ≠ shtNobits → 0 < sh.shSize → (mode.placed junk objects i).type ≠ shtNobits) := by
    intro x hx sh hsh halloc
    obtain ⟨name, c, hname, hcat, hbits⟩ := h.named x hx sh hsh halloc
    obtain ⟨h0, hlt, -⟩ := LinkMode.categorize_bounds hcat
    obtain ⟨hps, hsz, hdata, htype⟩ := @placed_fields mode junk objects c
    refine ⟨c, h0, hlt, ?_, by rw [htype]; exact hbits⟩
    rw [Stands, hps, hsz, hdata]
    exact (hgrow c h0 hlt).stands (x, sh) (mem_members.2 ⟨hx, chosen_iff.2 ⟨hsh, name, hname, hcat⟩⟩)
  refine ⟨hstands, fun i h0 hlt => ?_, by rw [← applyRelocations_eq]; exact hresult,
    fun x hx sh hsh halloc r hr => ?_⟩
  · obtain ⟨hps, hsz, -⟩ := @placed_fields mode junk objects i
    rw [Apart, hps, hsz]
    exact ⟨(hgrow i h0 hlt).apart, (hgrow i h0 hlt).within⟩
  obtain ⟨i, h0, hlt, ⟨p, hp, hfile, hshndx, -⟩, -⟩ := hstands x hx sh hsh halloc
  obtain ⟨i', p', hfind, hp', hfile', hshndx'⟩ := findPiece_some h0 hlt hp
  have hr' := h.tables x hx sh hsh halloc r hr
  refine ⟨⟨x, i', p', r⟩, mem_flatMap.2 ⟨x, hx, ?_⟩, rfl, rfl, hp', hfile'.trans hfile,
    hshndx'.trans hshndx⟩
  rw [carriedFor, hsh]
  dsimp only at hfile hshndx ⊢
  rw [if_neg halloc, ← hfile, ← hshndx, hfind]
  rw [← hshndx] at hr'
  exact mem_map.2 ⟨r, hr', rfl⟩

/-- An object file with a branch to its own symbol `_start`. -/
def branchObject : List UInt8 :=
  let names := [0] ++ nameText ++ [0] ++ nameStart ++ [0]
  (Elf64Ehdr.encode ⟨elfIdent, etRel, emAarch64, 1, 0, 0, 158, 0, 64, 0, 0, 64, 5, 2⟩) ++ (nop ++ [0, 0, 0, 0x94]) ++
    names ++ Elf64Sym.encode ⟨0, 0, 0, 0, 0, 0⟩ ++ Elf64Sym.encode ⟨7, 16, 0, 1, 0, 0⟩ ++
    Elf64Rela.encode ⟨4, 2 ^ 32 + 283, 0⟩ ++ Elf64Shdr.encode ⟨0, 0, 0, 0, 0, 0, 0, 0, 0, 0⟩ ++
    Elf64Shdr.encode ⟨1, shtProgbits, 6, 0, 64, 8, 0, 0, 4, 0⟩ ++
    Elf64Shdr.encode ⟨0, shtStrtab, 0, 0, 72, 14, 0, 0, 1, 0⟩ ++
    Elf64Shdr.encode ⟨0, shtSymtab, 0, 0, 86, 48, 2, 1, 8, 24⟩ ++
    Elf64Shdr.encode ⟨0, shtRela, 0, 0, 134, 24, 3, 1, 8, 24⟩

/-- `.init`. -/
def nameInit : Name := [0x2e, 0x69, 0x6e, 0x69, 0x74]

/-- An object file with code, the symbol `_start`, and one byte in an allocated section `.init`. -/
def initObject : List UInt8 := objectWith (nop ++ nop) [0x41] nameInit shtProgbits shfAlloc 1 1

end

end Slopix.Ld
