import Slopix.Elf.Format
import Slopix.Lib.Exec

/-!
# Object files of the linker

`ObjectFile` and `ld/elf_read.c`: the header is checked, the section headers are found, and the first
symbol table with its string table. Then the `Archive` of `ld/archive.c` with its members and its
symbol index.
-/

namespace Slopix.Ld

open Lib Elf

/-- A string without its NUL. -/
abbrev Name := List UInt8

/-- Why the linker ends: it prints lines and exits with status 1, or (never, see
`resolveArchives_returns`) the passes given to a loop were too few. -/
inductive LdError where
  | exit (lines : List (String × List Name))
  | fuel
  deriving DecidableEq

/-- `error`: one line on standard error, then `exit(1)`. -/
def ldError (fmt : String) (args : List Name) : LdError := .exit [(fmt, args)]

/-- `ObjectFile`; the pointers into `data` are offsets, and `symcount` is the length of `symtab`. -/
structure ObjectFile where
  filename : Name
  data : List UInt8
  size : Nat
  shdrs : List Elf64Shdr
  shstrtab : Option Nat
  strtab : Option Nat
  symtab : Option (List Elf64Sym)
  symtabShndx : Nat
  deriving DecidableEq

/-- `elf_check_header`, with the message of each check. -/
def elfCheckHeader (ehdr : Elf64Ehdr) (filename : Name) : Except LdError Unit :=
  if ehdr.eIdent.take 4 ≠ [0x7f, 0x45, 0x4c, 0x46] then
    .error (ldError "%s: not an ELF file" [filename])
  else if ehdr.eIdent.getD 4 0 ≠ 2 then
    .error (ldError "%s: not a 64-bit ELF file" [filename])
  else if ehdr.eIdent.getD 5 0 ≠ 1 then
    .error (ldError "%s: not a little-endian ELF file" [filename])
  else if ehdr.eType ≠ etRel then
    .error (ldError "%s: not a relocatable object file" [filename])
  else if ehdr.eMachine ≠ emAarch64 then
    .error (ldError "%s: not an AArch64 object file" [filename])
  else .ok ()

/-- A count of the file as a signed `int`; a loop below a negative one does not run. -/
def intCount (n : Nat) : Nat := if n % 2 ^ 32 < 2 ^ 31 then n % 2 ^ 32 else 0

/-- The symbols of the table a section header describes. -/
def symtabOf (data : List UInt8) (sh : Elf64Shdr) : List Elf64Sym :=
  (List.range (intCount (sh.shSize / symSize))).map fun j =>
    symAt (fileBytesOf data) (sh.shOffset + symSize * j)

/-- `elf_parse_sections`: the headers, the table of names and the symbols. -/
def elfParseSections (data : List UInt8) (size : Nat) (filename : Name) :
    Except LdError ObjectFile :=
  let ehdr := ehdrAt (fileBytesOf data) 0
  if size < (ehdr.eShoff + ehdr.eShnum * shdrSize) % 2 ^ 64 then
    .error (ldError "%s: section headers extend past end of file" [filename])
  else
    let shdrs := (List.range ehdr.eShnum).map fun i =>
      shdrAt (fileBytesOf data) (ehdr.eShoff + shdrSize * i)
    let at_ := shdrs.findIdx? fun sh => sh.shType == shtSymtab
    let symSh := at_.bind fun i => shdrs[i]?
    .ok {
      filename, data, size, shdrs
      shstrtab := shdrs[ehdr.eShstrndx]?.map Elf64Shdr.shOffset
      strtab := symSh.bind fun sh => shdrs[sh.shLink]?.map Elf64Shdr.shOffset
      symtab := symSh.map (symtabOf data)
      symtabShndx := at_.getD 0 }

/-- `elf_read_memory`; `elf_read` of a file does the same with its bytes. -/
def elfReadMemory (data : List UInt8) (size : Nat) (name : Name) : Except LdError ObjectFile :=
  if size < ehdrSize then
    .error (ldError "%s: file too small for ELF header" [name])
  else
    match elfCheckHeader (ehdrAt (fileBytesOf data) 0) name with
    | .error e => .error e
    | .ok () => elfParseSections data size name

namespace ObjectFile

variable (obj : ObjectFile)

/-- `section_name`. -/
def sectionName (idx : Nat) : Option Name :=
  obj.shdrs[idx]?.bind fun sh => obj.shstrtab.map fun t => cstrAt obj.data (t + sh.shName)

/-- `section_data`: where the bytes of a section stand. -/
def sectionData (idx : Nat) : Option Nat :=
  obj.shdrs[idx]?.bind fun sh => if sh.shType = shtNobits then none else some sh.shOffset

/-- `get_rela_for_section`: the entries of the first relocation table for a section. -/
def relasFor (idx : Nat) : List Elf64Rela :=
  match obj.shdrs.find? fun sh => sh.shType == shtRela && sh.shInfo == idx with
  | none => []
  | some sh => (List.range (intCount (sh.shSize / relaSize))).map fun k =>
    relaAt (fileBytesOf obj.data) (sh.shOffset + relaSize * k)

/-- The name of a symbol of the table. -/
def nameOf (sym : Elf64Sym) : Option Name :=
  obj.strtab.bind fun t => if sym.stName = 0 then none else some (cstrAt obj.data (t + sym.stName))

/-- `symbol_name`. -/
def symbolName (idx : Nat) : Option Name := (obj.symtab.getD [])[idx]?.bind obj.nameOf

/-- The symbols the loops of `symbol.c` go on with: from index 1, not local, with a name that is not
empty. -/
def namedSymbols : List (Name × Elf64Sym) :=
  ((obj.symtab.getD []).drop 1).filterMap fun sym =>
    if sym.bind = stbLocal then none
    else match obj.nameOf sym with
      | some (c :: cs) => some (c :: cs, sym)
      | _ => none

/-- Those with a section. -/
def definitions : List (Name × Elf64Sym) :=
  obj.namedSymbols.filter fun d => d.2.stShndx != shnUndef

/-- Those without. -/
def references : List (Name × Elf64Sym) :=
  obj.namedSymbols.filter fun d => d.2.stShndx == shnUndef

/-- The object defines the name. -/
def Defines (s : Name) : Prop := s ∈ obj.definitions.map Prod.fst

/-- The object refers to the name without defining it. -/
def Refers (s : Name) : Prop := s ∈ obj.references.map Prod.fst

instance (s : Name) : Decidable (obj.Defines s) :=
  inferInstanceAs (Decidable (s ∈ obj.definitions.map Prod.fst))

instance (s : Name) : Decidable (obj.Refers s) :=
  inferInstanceAs (Decidable (s ∈ obj.references.map Prod.fst))

end ObjectFile

/-! ## Archives -/

/-- `ArchiveMember`; `data` runs to the end of the archive. -/
structure ArchiveMember where
  name : Name
  data : List UInt8
  size : Nat
  offset : Nat
  extracted : Bool

/-- `ArchiveSymbol`; `none` is the index -1. -/
structure ArchiveSymbol where
  name : Name
  memberIdx : Option Nat

/-- `Archive`. `archive_open` takes every index of a symbol from its loop over the members. -/
structure Archive where
  path : Name
  members : List ArchiveMember
  symbols : List ArchiveSymbol
  indexed : ∀ a ∈ symbols, ∀ i ∈ a.memberIdx, i < members.length

namespace Archive

/-- `archive_find_symbol`. -/
def findSymbol (ar : Archive) (name : Name) : Option Nat :=
  (ar.symbols.find? fun a => a.name == name).bind ArchiveSymbol.memberIdx

/-- Set the flag of a member. -/
def setExtracted (ar : Archive) (idx : Nat) : Archive where
  path := ar.path
  members := ar.members.modify idx fun m => { m with extracted := true }
  symbols := ar.symbols
  indexed a ha i hi := by
    rw [List.length_modify]
    exact ar.indexed a ha i hi

/-- As `archive_open` leaves it: nothing is extracted. -/
def Fresh (ar : Archive) : Prop := ∀ m ∈ ar.members, m.extracted = false

theorem findSymbol_lt {ar : Archive} {name : Name} {i : Nat} (h : ar.findSymbol name = some i) :
    i < ar.members.length := by
  obtain ⟨a, ha, hi⟩ := Option.bind_eq_some_iff.1 h
  exact ar.indexed a (List.mem_of_find?_eq_some ha) i hi

end Archive

/-- The object a member holds, under the name `archive_extract_member` gives it. -/
def memberObject (path : Name) (m : ArchiveMember) : Except LdError ObjectFile :=
  elfReadMemory m.data m.size (path ++ [0x28] ++ m.name ++ [0x29])

end Slopix.Ld
