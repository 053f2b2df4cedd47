import Slopix.Ld.Section

/-!
# Applying relocations

`ld/reloc.c`: every relocation of an allocated input section patches the bytes of its piece in the
buffer of the output section. Patching never moves or resizes a section.
-/

namespace Slopix.Ld

open Lib Elf

/-- Nothing to do. -/
def R_AARCH64_NONE : Nat := 0

/-- The address, in 64 bits. -/
def R_AARCH64_ABS64 : Nat := 257

/-- The distance, in an `adr`. -/
def R_AARCH64_ADR_PREL_LO21 : Nat := 274

/-- The distance in pages, in an `adrp`. -/
def R_AARCH64_ADR_PREL_PG_HI21 : Nat := 275

/-- The place in the page, in an `add`. -/
def R_AARCH64_ADD_ABS_LO12_NC : Nat := 277

/-- The place in the page, in an access to a byte. -/
def R_AARCH64_LDST8_ABS_LO12_NC : Nat := 278

/-- The distance in words, in a `b`. -/
def R_AARCH64_JUMP26 : Nat := 282

/-- The distance in words, in a `bl`. -/
def R_AARCH64_CALL26 : Nat := 283

/-- The same in an access to 2 bytes. -/
def R_AARCH64_LDST16_ABS_LO12_NC : Nat := 284

/-- In an access to 4 bytes. -/
def R_AARCH64_LDST32_ABS_LO12_NC : Nat := 285

/-- In an access to 8 bytes. -/
def R_AARCH64_LDST64_ABS_LO12_NC : Nat := 286

/-- A text of the program as the bytes that are printed. -/
def ascii (s : String) : Name := s.toUTF8.toList

/-- `reloc_type_name`, for the messages. -/
def relocTypeName (type : Nat) : Name :=
  ascii (if type = R_AARCH64_NONE then "R_AARCH64_NONE"
    else if type = R_AARCH64_ABS64 then "R_AARCH64_ABS64"
    else if type = R_AARCH64_ADR_PREL_LO21 then "R_AARCH64_ADR_PREL_LO21"
    else if type = R_AARCH64_ADR_PREL_PG_HI21 then "R_AARCH64_ADR_PREL_PG_HI21"
    else if type = R_AARCH64_ADD_ABS_LO12_NC then "R_AARCH64_ADD_ABS_LO12_NC"
    else if type = R_AARCH64_LDST8_ABS_LO12_NC then "R_AARCH64_LDST8_ABS_LO12_NC"
    else if type = R_AARCH64_JUMP26 then "R_AARCH64_JUMP26"
    else if type = R_AARCH64_CALL26 then "R_AARCH64_CALL26"
    else if type = R_AARCH64_LDST16_ABS_LO12_NC then "R_AARCH64_LDST16_ABS_LO12_NC"
    else if type = R_AARCH64_LDST32_ABS_LO12_NC then "R_AARCH64_LDST32_ABS_LO12_NC"
    else if type = R_AARCH64_LDST64_ABS_LO12_NC then "R_AARCH64_LDST64_ABS_LO12_NC"
    else "R_AARCH64_UNKNOWN")

/-- Why relocating ends early: an error is printed, or a patch goes outside the buffer. -/
inductive RelocStop where
  | error (e : LdError)
  | fault

/-- The error `fmt` about a relocation; the numbers it prints are decimal here. -/
def relocError (fmt : String) (filename : Name) (type : Nat) (value : Int) : RelocStop :=
  .error (ldError fmt [filename, relocTypeName type, ascii (toString value)])

/-- How `apply_one_reloc` patches a place: 8 bytes, or a 4-byte instruction. -/
inductive Patch where
  | none
  | word (value : BitVec 64)
  | insn (keep bits : BitVec 32)

/-- The patch for an offset that must be in `[-lim, lim)`. -/
def rangedPatch (fmt : String) (lim : Int) (offset : BitVec 64) (filename : Name) (type : Nat)
    (patch : Except RelocStop Patch) : Except RelocStop Patch :=
  if offset.toInt < -lim ∨ lim ≤ offset.toInt then
    .error (relocError fmt filename type offset.toInt)
  else patch

/-- The `immlo` and `immhi` fields of `adr` and `adrp`. -/
def adrBits (imm : BitVec 64) : BitVec 32 :=
  (imm &&& 3).setWidth 32 <<< 29 ||| (imm.sshiftRight 2 &&& 0x7ffff).setWidth 32 <<< 5

/-- The patch for a load or store of `2 ^ power` bytes. -/
def ldstPatch (fmt : String) (power : Nat) (value : BitVec 64) (filename : Name) (type : Nat) :
    Except RelocStop Patch :=
  let val := value &&& 0xfff
  if val.toNat % 2 ^ power ≠ 0 then .error (relocError fmt filename type value.toNat)
  else .ok (.insn 0xffc003ff ((val >>> power).setWidth 32 <<< 10))

/-- `apply_one_reloc` up to the patching. -/
def relocPatch (place symValue : BitVec 64) (type : Nat) (addend : BitVec 64) (filename : Name) :
    Except RelocStop Patch :=
  let sa := symValue + addend
  if type = R_AARCH64_NONE then .ok .none
  else if type = R_AARCH64_ABS64 then .ok (.word sa)
  else if type = R_AARCH64_CALL26 ∨ type = R_AARCH64_JUMP26 then
    let offset := sa - place
    rangedPatch "%s: %s offset out of range: %lld" (2 ^ 27) offset filename type
      (if offset &&& 3 ≠ 0 then
        .error (relocError "%s: %s offset not aligned: 0x%llx" filename type offset.toNat)
      else .ok (.insn 0xfc000000 ((offset.sshiftRight 2).setWidth 32 &&& 0x03ffffff)))
  else if type = R_AARCH64_ADR_PREL_LO21 then
    let offset := sa - place
    rangedPatch "%s: %s offset out of range: %lld" (2 ^ 20) offset filename type
      (.ok (.insn 0x9f00001f (adrBits offset)))
  else if type = R_AARCH64_ADR_PREL_PG_HI21 then
    let offset := (sa &&& ~~~0xfff) - (place &&& ~~~0xfff)
    rangedPatch "%s: %s page offset out of range: %lld" (2 ^ 32) offset filename type
      (.ok (.insn 0x9f00001f (adrBits (offset.sshiftRight 12))))
  else if type = R_AARCH64_ADD_ABS_LO12_NC ∨ type = R_AARCH64_LDST8_ABS_LO12_NC then
    .ok (.insn 0xffc003ff ((sa &&& 0xfff).setWidth 32 <<< 10))
  else if type = R_AARCH64_LDST16_ABS_LO12_NC then
    ldstPatch "%s: %s address not 2-byte aligned: 0x%llx" 1 sa filename type
  else if type = R_AARCH64_LDST32_ABS_LO12_NC then
    ldstPatch "%s: %s address not 4-byte aligned: 0x%llx" 2 sa filename type
  else if type = R_AARCH64_LDST64_ABS_LO12_NC then
    ldstPatch "%s: %s address not 8-byte aligned: 0x%llx" 3 sa filename type
  else
    .error (.error (ldError "%s: unsupported relocation type %d (%s)"
      [filename, ascii (toString type), relocTypeName type]))

/-- Replace the bytes at `o`; a place outside the buffer faults. -/
def patchBytes (data : List UInt8) (o : Nat) (bs : List UInt8) : Except RelocStop (List UInt8) :=
  if o + bs.length ≤ data.length then .ok (data.take o ++ bs ++ data.drop (o + bs.length))
  else .error .fault

/-- Carry out a patch at `o`. -/
def applyPatch (data : List UInt8) (o : Nat) : Patch → Except RelocStop (List UInt8)
  | .none => .ok data
  | .word value => patchBytes data o (leBytes 8 value.toNat)
  | .insn keep bits =>
    let insn := BitVec.ofNat 32 (getLe 4 (fileBytesOf data) o)
    patchBytes data o (leBytes 4 (insn &&& keep ||| bits).toNat)

/-- `apply_one_reloc` on the bytes at `o`. -/
def applyOneReloc (data : List UInt8) (o : Nat) (place symValue : BitVec 64) (type : Nat)
    (addend : BitVec 64) (filename : Name) : Except RelocStop (List UInt8) :=
  match relocPatch place symValue type addend filename with
  | .error e => .error e
  | .ok patch => applyPatch data o patch

/-- `resolve_reloc_symbol`: a local symbol in its own object, any other by its name. -/
def resolveRelocSymbol (file : Nat) (obj : ObjectFile) (symIdx : Nat) (global : SymbolTable)
    (secs : Sections) (count : Nat) : Nat :=
  match (obj.symtab.getD [])[symIdx]? with
  | none => 0
  | some sym =>
    let here := resolveLocalSymbol file obj symIdx secs count
    if sym.bind = stbLocal ∨ sym.type = sttSection then here
    else
      match obj.symbolName symIdx with
      | none => here
      | some [] => here
      | some name => ((symbolLookup global name).map Symbol.value).getD here

/-- One relocation of the piece `p`, which is in output section `i`. -/
def applyReloc (file : Nat) (obj : ObjectFile) (global : SymbolTable) (count i : Nat)
    (p : SectionPiece) (secs : Sections) (rela : Elf64Rela) : Except RelocStop Sections :=
  let out := secs i
  let offset := (p.outputOffset + rela.rOffset) % 2 ^ 64
  let value := resolveRelocSymbol file obj rela.sym global secs count
  match relocPatch (BitVec.ofNat 64 (out.addr + offset)) (BitVec.ofNat 64 value) rela.type
      (BitVec.ofNat 64 rela.rAddend) obj.filename with
  | .error e => .error e
  | .ok patch =>
    match applyPatch out.data offset patch with
    | .error e => .error e
    | .ok data => .ok (Function.update secs i { out with data })

/-- The relocations of section `j` of an object. -/
def applySection (file : Nat) (obj : ObjectFile) (global : SymbolTable) (count : Nat)
    (secs : Sections) (j : Nat) : Except RelocStop Sections :=
  match obj.shdrs[j]? with
  | none => .ok secs
  | some sh =>
    if sh.shFlags &&& shfAlloc = 0 then .ok secs
    else
      match findPiece secs count file j with
      | none => .ok secs
      | some (i, p) => (obj.relasFor j).foldlM (applyReloc file obj global count i p) secs

/-- `apply_relocations`: the sections of relocations of each object, in their order. -/
def applyRelocations (objects : List ObjectFile) (global : SymbolTable) (count : Nat)
    (secs : Sections) : Except RelocStop Sections :=
  objects.zipIdx.foldlM (fun secs o =>
    (List.range' 1 (o.1.shdrs.length - 1)).foldlM (applySection o.2 o.1 global count) secs) secs

/-! ## What relocating leaves alone -/

/-- The sections differ at most in the contents of their buffers. -/
def SameLayout (secs secs' : Sections) : Prop :=
  ∀ i, (secs' i).data.length = (secs i).data.length ∧
    { secs' i with data := [] } = { secs i with data := [] }

section

variable {secs secs' secs'' : Sections}

theorem SameLayout.refl (secs : Sections) : SameLayout secs secs := fun _ => ⟨rfl, rfl⟩

theorem SameLayout.trans (h : SameLayout secs secs') (h' : SameLayout secs' secs'') :
    SameLayout secs secs'' := fun i =>
  ⟨(h' i).1.trans (h i).1, (h' i).2.trans (h i).2⟩

theorem sameLayout_foldlM {α : Type} {f : Sections → α → Except RelocStop Sections}
    (hf : ∀ s a s', f s a = .ok s' → SameLayout s s') {l : List α}
    (h : l.foldlM f secs = .ok secs') : SameLayout secs secs' := by
  induction l generalizing secs with
  | nil =>
    cases h
    exact SameLayout.refl _
  | cons a l ih =>
    rw [List.foldlM_cons] at h
    rcases hstep : f secs a with e | s
    · rw [hstep] at h
      cases h
    · rw [hstep] at h
      exact (hf _ _ _ hstep).trans (ih h)

theorem patchBytes_length {data data' bs : List UInt8} {o : Nat}
    (h : patchBytes data o bs = .ok data') : data'.length = data.length := by
  unfold patchBytes at h
  split at h
  · cases h
    simp only [List.length_append, List.length_take, List.length_drop]
    omega
  · cases h

theorem applyPatch_length {data data' : List UInt8} {o : Nat} {patch : Patch}
    (h : applyPatch data o patch = .ok data') : data'.length = data.length := by
  cases patch with
  | none =>
    cases h
    rfl
  | word value => exact patchBytes_length h
  | insn keep bits => exact patchBytes_length h

theorem applyReloc_layout {file : Nat} {obj : ObjectFile} {global : SymbolTable} {count i : Nat}
    {p : SectionPiece} {rela : Elf64Rela}
    (h : applyReloc file obj global count i p secs rela = .ok secs') : SameLayout secs secs' := by
  unfold applyReloc at h
  dsimp only at h
  split at h
  · cases h
  split at h
  · cases h
  rename_i data hdata
  cases h
  intro k
  by_cases hk : k = i
  · subst hk
    rw [Function.update_self]
    exact ⟨applyPatch_length hdata, rfl⟩
  · rw [Function.update_of_ne hk]
    exact ⟨rfl, rfl⟩

theorem applyRelocations_layout {objects : List ObjectFile} {global : SymbolTable} {count : Nat}
    (h : applyRelocations objects global count secs = .ok secs') : SameLayout secs secs' := by
  refine sameLayout_foldlM (fun s o s' hs => sameLayout_foldlM (fun s j s' hs => ?_) hs) h
  unfold applySection at hs
  split at hs
  · cases hs
    exact SameLayout.refl _
  split at hs
  · cases hs
    exact SameLayout.refl _
  split at hs
  · cases hs
    exact SameLayout.refl _
  · exact sameLayout_foldlM (fun _ _ _ => applyReloc_layout) hs

end

end Slopix.Ld
