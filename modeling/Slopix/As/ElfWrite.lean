import Slopix.Elf.Format

/-!
# Writing an object file

What `elf_write` of the assembler reads when it runs, the two string tables it builds, the symbol table
with local symbols first, the relocation tables, and the file: header, `.text`, `.data`, the symbol
table, both string tables, both relocation tables and nine section headers, at offsets computed
beforehand. Every write is taken to succeed.
-/

namespace Slopix.As

open Lib Elf

/-- A string without its NUL. -/
abbrev Name := List UInt8

/-- `SECTION_NONE` .. `SECTION_BSS`. -/
inductive SectionId where
  | none
  | text
  | data
  | bss
  deriving DecidableEq

/-- `Symbol`; `type` is one of the `STT` numbers and `size` an `int`. -/
structure Symbol where
  name : Name
  sec : SectionId
  value : Nat
  binding : Nat
  type : Nat
  size : Int
  defined : Bool
  explicitLocal : Bool
  deriving DecidableEq

/-- `Reloc`; the addend is kept as its 64 bits, and the index is -1 where there was no symbol. -/
structure Reloc where
  offset : Nat
  type : Nat
  symbolIdx : Int
  addend : Nat
  deriving DecidableEq

/-- The globals that `elf_write` reads. The relocation lists have the newest entry first. -/
structure Assembly where
  textSectionName : Option Name
  text : List UInt8
  data : List UInt8
  bssSize : Nat
  textSectionAlignment : Nat
  dataSectionAlignment : Nat
  symbols : List Symbol
  textRelocs : List Reloc
  dataRelocs : List Reloc

/-! ## Tables -/

/-- `strtab_add`: the offset as 32 bits, and the table with the string and its NUL. -/
def strtabAdd (st : List UInt8) (str : Name) : Nat × List UInt8 :=
  (st.length % 2 ^ 32, st ++ str ++ [0])

/-- The string table starts with the empty name. -/
def strtabInit : List UInt8 := [0]

/-- `align_up`, for a power of two. -/
def alignUp (val align : Nat) : Nat := (val + align - 1) % 2 ^ 64 / align * align

/-- An `int` stored into 64 bits. -/
def signExtend (x : Int) : Nat := (x % 2 ^ 64).toNat

/-- The code, section 1. -/
def SEC_TEXT : Nat := 1

/-- The data. -/
def SEC_DATA : Nat := 2

/-- The zeros, which take no room in the file. -/
def SEC_BSS : Nat := 3

/-- The symbol table. -/
def SEC_SYMTAB : Nat := 4

/-- The names of the symbols. -/
def SEC_STRTAB : Nat := 5

/-- The names of the sections. -/
def SEC_SHSTRTAB : Nat := 6

/-- With section 0 and the two of relocations. -/
def SEC_COUNT : Nat := 9

/-- The index of the section header a symbol gets. -/
def shndxOf (sym : Symbol) : Nat :=
  match sym.sec with
  | .text => SEC_TEXT
  | .data => SEC_DATA
  | .bss => SEC_BSS
  | .none => if sym.defined then shnAbs else shnUndef

/-- The string table, the symbol table and `sym_to_elf` while symbols are emitted. -/
structure Emit where
  strtab : List UInt8
  elfSyms : List Elf64Sym
  symToElf : Nat → Nat

/-- One of the three symbols for `.text`, `.data` and `.bss`. -/
def emitSection (e : Emit) (name : Name) (shndx : Nat) : Emit where
  strtab := (strtabAdd e.strtab name).2
  elfSyms := e.elfSyms ++ [⟨(strtabAdd e.strtab name).1, stInfoOf stbLocal sttSection, 0, shndx, 0, 0⟩]
  symToElf := e.symToElf

/-- The body of both loops over the symbols. -/
def emitSymbol (binding : Nat) (e : Emit) (i : Nat) (sym : Symbol) : Emit where
  strtab := (strtabAdd e.strtab sym.name).2
  elfSyms := e.elfSyms ++ [⟨(strtabAdd e.strtab sym.name).1, stInfoOf binding sym.type, 0, shndxOf sym,
    sym.value, signExtend sym.size⟩]
  symToElf := Function.update e.symToElf i e.elfSyms.length

/-- What the first loop emits and the second one skips. -/
def isLocal (sym : Symbol) : Bool := sym.binding == stbLocal && sym.defined

/-- A loop over the symbols that emits those for which `want` holds. -/
def emitLoop (want : Symbol → Bool) (binding : Nat) : Emit → Nat → List Symbol → Emit
  | e, _, [] => e
  | e, i, sym :: syms =>
    emitLoop want binding (if want sym then emitSymbol binding e i sym else e) (i + 1) syms

/-- The null symbol and `$x`, `$d`, `.bss`. -/
def emitStart : Emit :=
  emitSection (emitSection (emitSection ⟨strtabInit, [⟨0, 0, 0, 0, 0, 0⟩], fun _ => 0⟩
    [0x24, 0x78] SEC_TEXT) [0x24, 0x64] SEC_DATA) [0x2e, 0x62, 0x73, 0x73] SEC_BSS

/-- The local symbols first, then all others, as `elf_write` does in two loops. -/
def emitSymbols (syms : List Symbol) : Emit :=
  emitLoop (fun s => !isLocal s) stbGlobal (emitLoop isLocal stbLocal emitStart 0 syms) 0 syms

/-- One relocation. -/
def relaOf (nsyms : Nat) (symToElf : Nat → Nat) (r : Reloc) : Elf64Rela :=
  let elfSym := if 0 ≤ r.symbolIdx ∧ r.symbolIdx < nsyms then symToElf r.symbolIdx.toNat else 0
  ⟨r.offset, rInfoOf elfSym r.type, r.addend⟩

/-- A relocation table, filled from its last entry on. -/
def relasOf (nsyms : Nat) (symToElf : Nat → Nat) (relocs : List Reloc) : List Elf64Rela :=
  (relocs.map (relaOf nsyms symToElf)).reverse

/-- `.rela` and the name of the text section, in a buffer of 64 bytes. -/
def relaTextName (tname : Name) : Name := ([0x2e, 0x72, 0x65, 0x6c, 0x61] ++ tname).take 63

/-- The table of section names with the offset of each. -/
structure SectionNames where
  table : List UInt8
  text : Nat
  data : Nat
  bss : Nat
  symtab : Nat
  strtab : Nat
  shstrtab : Nat
  relaText : Nat
  relaData : Nat

/-- The eight names in the order of their headers. -/
def sectionNames (tname : Name) : SectionNames :=
  let (text, st) := strtabAdd strtabInit tname
  let (data, st) := strtabAdd st [0x2e, 0x64, 0x61, 0x74, 0x61]
  let (bss, st) := strtabAdd st [0x2e, 0x62, 0x73, 0x73]
  let (symtab, st) := strtabAdd st [0x2e, 0x73, 0x79, 0x6d, 0x74, 0x61, 0x62]
  let (strtab, st) := strtabAdd st [0x2e, 0x73, 0x74, 0x72, 0x74, 0x61, 0x62]
  let (shstrtab, st) := strtabAdd st [0x2e, 0x73, 0x68, 0x73, 0x74, 0x72, 0x74, 0x61, 0x62]
  let (relaText, st) := strtabAdd st (relaTextName tname)
  let (relaData, st) :=
    strtabAdd st [0x2e, 0x72, 0x65, 0x6c, 0x61, 0x2e, 0x64, 0x61, 0x74, 0x61]
  ⟨st, text, data, bss, symtab, strtab, shstrtab, relaText, relaData⟩

/-! ## The file -/

namespace Assembly

variable (a : Assembly)

/-- `.text` unless the source names another section. -/
def tname : Name := a.textSectionName.getD [0x2e, 0x74, 0x65, 0x78, 0x74]

/-- The names of the sections. -/
def names : SectionNames := sectionNames a.tname

/-- The symbols as they are written. -/
def emitted : Emit := emitSymbols a.symbols

/-- The relocations of the code. -/
def textRelas : List Elf64Rela := relasOf a.symbols.length a.emitted.symToElf a.textRelocs

/-- The relocations of the data. -/
def dataRelas : List Elf64Rela := relasOf a.symbols.length a.emitted.symToElf a.dataRelocs

/-- The first global symbol: behind the null symbol, three of sections and the local ones. -/
def firstGlobal : Nat := 1 + 3 + (a.symbols.filter isLocal).length

/-- The number of symbols written. -/
def totalElfSyms : Nat := 1 + 3 + a.symbols.length

/-- The code follows the header. -/
def textOff : Nat := ehdrSize

/-- The data, aligned to 8. -/
def dataOff : Nat := alignUp (textOff + a.text.length) 8

/-- The symbol table, aligned to 8. -/
def symtabOff : Nat := alignUp (a.dataOff + a.data.length) 8

/-- Its size. -/
def symtabSize : Nat := a.totalElfSyms * symSize

/-- The names of the symbols follow at once. -/
def strtabOff : Nat := a.symtabOff + a.symtabSize

/-- And so do the names of the sections. -/
def shstrtabOff : Nat := a.strtabOff + a.emitted.strtab.length

/-- The relocations of the code, aligned to 8. -/
def relaTextOff : Nat := alignUp (a.shstrtabOff + a.names.table.length) 8

/-- Those of the data follow at once. -/
def relaDataOff : Nat := a.relaTextOff + a.textRelocs.length * relaSize

/-- The section headers, at the end. -/
def shdrOff : Nat := alignUp (a.relaDataOff + a.dataRelocs.length * relaSize) 8

/-- The header of a relocatable file. -/
def ehdr : Elf64Ehdr where
  eIdent := elfIdent
  eType := etRel
  eMachine := emAarch64
  eVersion := 1
  eEntry := 0
  ePhoff := 0
  eShoff := a.shdrOff
  eFlags := 0
  eEhsize := ehdrSize
  ePhentsize := 0
  ePhnum := 0
  eShentsize := shdrSize
  eShnum := SEC_COUNT
  eShstrndx := SEC_SHSTRTAB

/-- `1UL << power` if the power passes the least one, else the least alignment. -/
def addralign (power least : Nat) : Nat := if power > least then 2 ^ power % 2 ^ 64 else 2 ^ least

/-- The nine section headers. -/
def shdrs : List Elf64Shdr :=
  [⟨0, 0, 0, 0, 0, 0, 0, 0, 0, 0⟩,
    ⟨a.names.text, shtProgbits, shfAlloc ||| shfExecinstr, 0, textOff, a.text.length, 0, 0,
      addralign a.textSectionAlignment 2, 0⟩,
    ⟨a.names.data, shtProgbits, shfAlloc ||| shfWrite, 0, a.dataOff, a.data.length, 0, 0,
      addralign a.dataSectionAlignment 3, 0⟩,
    ⟨a.names.bss, shtNobits, shfAlloc ||| shfWrite, 0, a.dataOff + a.data.length, a.bssSize, 0, 0, 8, 0⟩,
    ⟨a.names.symtab, shtSymtab, 0, 0, a.symtabOff, a.symtabSize, SEC_STRTAB, a.firstGlobal, 8, symSize⟩,
    ⟨a.names.strtab, shtStrtab, 0, 0, a.strtabOff, a.emitted.strtab.length, 0, 0, 1, 0⟩,
    ⟨a.names.shstrtab, shtStrtab, 0, 0, a.shstrtabOff, a.names.table.length, 0, 0, 1, 0⟩,
    ⟨a.names.relaText, shtRela, shfInfoLink, 0, a.relaTextOff, a.textRelocs.length * relaSize,
      SEC_SYMTAB, SEC_TEXT, 8, relaSize⟩,
    ⟨a.names.relaData, shtRela, shfInfoLink, 0, a.relaDataOff, a.dataRelocs.length * relaSize,
      SEC_SYMTAB, SEC_DATA, 8, relaSize⟩]

/-- `write_padding`. -/
def padding (cur next : Nat) : List UInt8 := List.replicate (next - cur) 0

/-- `elf_write`: the bytes of the file in their order, with zeros between them for the alignment. -/
def elfWrite : List UInt8 :=
  a.ehdr.encode ++ a.text ++ padding (textOff + a.text.length) a.dataOff ++
    a.data ++ padding (a.dataOff + a.data.length) a.symtabOff ++
    a.emitted.elfSyms.flatMap Elf64Sym.encode ++ a.emitted.strtab ++ a.names.table ++
    padding (a.shstrtabOff + a.names.table.length) a.relaTextOff ++
    a.textRelas.flatMap Elf64Rela.encode ++ a.dataRelas.flatMap Elf64Rela.encode ++
    padding (a.relaDataOff + a.dataRelocs.length * relaSize) a.shdrOff ++
    a.shdrs.flatMap Elf64Shdr.encode

end Assembly

end Slopix.As
