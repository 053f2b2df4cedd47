import Slopix.Lib.Record

/-!
# ELF64 structures

The headers and tables that `as.h`, `ld.h` and `kernel/elf.h` declare with one layout, their encoding
as the assembler and the linker write them and their decoding from file bytes. A structure whose
fields fit their widths is read back from wherever in a file it was written.
-/

namespace Slopix.Elf

open Lib List Nat

/-- A relocatable file. -/
def etRel : Nat := 1

/-- An executable. -/
def etExec : Nat := 2

/-- The machine of both. -/
def emAarch64 : Nat := 183

/-- A segment to be loaded. -/
def ptLoad : Nat := 1

/-- A section with bytes in the file. -/
def shtProgbits : Nat := 1

/-- A symbol table. -/
def shtSymtab : Nat := 2

/-- A table of names. -/
def shtStrtab : Nat := 3

/-- Relocations with addends. -/
def shtRela : Nat := 4

/-- A section of zeros without bytes in the file. -/
def shtNobits : Nat := 8

/-- The section may be written. -/
def shfWrite : Nat := 1

/-- The section takes memory. -/
def shfAlloc : Nat := 2

/-- The section holds code. -/
def shfExecinstr : Nat := 4

/-- `sh_info` is the number of a section. -/
def shfInfoLink : Nat := 64

/-- The section of a symbol without a definition. -/
def shnUndef : Nat := 0

/-- The section of a symbol whose value is absolute. -/
def shnAbs : Nat := 0xfff1

/-- A symbol of its file only. -/
def stbLocal : Nat := 0

/-- A symbol of the whole program. -/
def stbGlobal : Nat := 1

/-- A global symbol that gives way to others. -/
def stbWeak : Nat := 2

/-- A symbol without a type. -/
def sttNotype : Nat := 0

/-- A function. -/
def sttFunc : Nat := 2

/-- The symbol of a section. -/
def sttSection : Nat := 3

/-- `ELFMAG0` .. `ELFMAG3`, `ELFCLASS64`, `ELFDATA2LSB`, `EV_CURRENT` and the padding. -/
def elfIdent : List UInt8 := [0x7f, 0x45, 0x4c, 0x46, 2, 1, 1, 0, 0, 0, 0, 0, 0, 0, 0, 0]

/-- `Elf64_Ehdr`, the header of the file. -/
structure Elf64Ehdr where
  eIdent : List UInt8
  eType : Nat
  eMachine : Nat
  eVersion : Nat
  eEntry : Nat
  ePhoff : Nat
  eShoff : Nat
  eFlags : Nat
  eEhsize : Nat
  ePhentsize : Nat
  ePhnum : Nat
  eShentsize : Nat
  eShnum : Nat
  eShstrndx : Nat
  deriving DecidableEq

/-- `Elf64_Shdr`, the header of a section. -/
structure Elf64Shdr where
  shName : Nat
  shType : Nat
  shFlags : Nat
  shAddr : Nat
  shOffset : Nat
  shSize : Nat
  shLink : Nat
  shInfo : Nat
  shAddralign : Nat
  shEntsize : Nat
  deriving DecidableEq

/-- `Elf64_Sym`, a symbol. -/
structure Elf64Sym where
  stName : Nat
  stInfo : Nat
  stOther : Nat
  stShndx : Nat
  stValue : Nat
  stSize : Nat
  deriving DecidableEq

/-- `r_addend` is kept as its 64 bits. -/
structure Elf64Rela where
  rOffset : Nat
  rInfo : Nat
  rAddend : Nat
  deriving DecidableEq

/-- `Elf64_Phdr`, the header of a segment. -/
structure Elf64Phdr where
  pType : Nat
  pFlags : Nat
  pOffset : Nat
  pVaddr : Nat
  pPaddr : Nat
  pFilesz : Nat
  pMemsz : Nat
  pAlign : Nat
  deriving DecidableEq

/-- `sizeof(Elf64_Ehdr)`. -/
def ehdrSize : Nat := 64

/-- `sizeof(Elf64_Shdr)`. -/
def shdrSize : Nat := 64

/-- `sizeof(Elf64_Sym)`. -/
def symSize : Nat := 24

/-- `sizeof(Elf64_Rela)`. -/
def relaSize : Nat := 24

/-- `sizeof(Elf64_Phdr)`. -/
def phdrSize : Nat := 56

/-- `ELF64_ST_BIND`. -/
def Elf64Sym.bind (s : Elf64Sym) : Nat := s.stInfo / 16

/-- `ELF64_ST_TYPE`. -/
def Elf64Sym.type (s : Elf64Sym) : Nat := s.stInfo % 16

/-- `ELF64_ST_INFO`. -/
def stInfoOf (bind type : Nat) : Nat := bind * 16 ||| type % 16

/-- `ELF64_R_SYM`. -/
def Elf64Rela.sym (r : Elf64Rela) : Nat := r.rInfo / 2 ^ 32

/-- `ELF64_R_TYPE`. -/
def Elf64Rela.type (r : Elf64Rela) : Nat := r.rInfo % 2 ^ 32

/-- `ELF64_R_INFO`. -/
def rInfoOf (sym type : Nat) : Nat := sym * 2 ^ 32 ||| type

/-! ## Encoding -/

/-- The fields behind `e_ident`, each with its width in bytes. -/
def Elf64Ehdr.fields (h : Elf64Ehdr) : List (Nat × Nat) :=
  [(2, h.eType), (2, h.eMachine), (4, h.eVersion), (8, h.eEntry), (8, h.ePhoff), (8, h.eShoff),
    (4, h.eFlags), (2, h.eEhsize), (2, h.ePhentsize), (2, h.ePhnum), (2, h.eShentsize),
    (2, h.eShnum), (2, h.eShstrndx)]

/-- The fields with their widths. -/
def Elf64Shdr.fields (h : Elf64Shdr) : List (Nat × Nat) :=
  [(4, h.shName), (4, h.shType), (8, h.shFlags), (8, h.shAddr), (8, h.shOffset), (8, h.shSize),
    (4, h.shLink), (4, h.shInfo), (8, h.shAddralign), (8, h.shEntsize)]

/-- The fields with their widths. -/
def Elf64Sym.fields (s : Elf64Sym) : List (Nat × Nat) :=
  [(4, s.stName), (1, s.stInfo), (1, s.stOther), (2, s.stShndx), (8, s.stValue), (8, s.stSize)]

/-- The fields with their widths. -/
def Elf64Rela.fields (r : Elf64Rela) : List (Nat × Nat) :=
  [(8, r.rOffset), (8, r.rInfo), (8, r.rAddend)]

/-- The fields with their widths. -/
def Elf64Phdr.fields (h : Elf64Phdr) : List (Nat × Nat) :=
  [(4, h.pType), (4, h.pFlags), (8, h.pOffset), (8, h.pVaddr), (8, h.pPaddr), (8, h.pFilesz),
    (8, h.pMemsz), (8, h.pAlign)]

/-- The 64 bytes of the header. -/
def Elf64Ehdr.encode (h : Elf64Ehdr) : List UInt8 := h.eIdent ++ encodeFields h.fields

/-- The 64 bytes of a section header. -/
def Elf64Shdr.encode (h : Elf64Shdr) : List UInt8 := encodeFields h.fields

/-- The 24 bytes of a symbol. -/
def Elf64Sym.encode (s : Elf64Sym) : List UInt8 := encodeFields s.fields

/-- The 24 bytes of a relocation. -/
def Elf64Rela.encode (r : Elf64Rela) : List UInt8 := encodeFields r.fields

/-- The 56 bytes of a segment header. -/
def Elf64Phdr.encode (h : Elf64Phdr) : List UInt8 := encodeFields h.fields

/-- Every field fits its width. -/
def Fits (fields : List (Nat × Nat)) : Prop := ∀ f ∈ fields, f.2 < 256 ^ f.1

instance (fields : List (Nat × Nat)) : Decidable (Fits fields) :=
  inferInstanceAs (Decidable (∀ f ∈ fields, f.2 < 256 ^ f.1))

/-! ## Decoding -/

/-- The header that the bytes at `o` make. -/
def ehdrAt (b : Bytes) (o : Nat) : Elf64Ehdr where
  eIdent := getBytes b o 16
  eType := getLe 2 b (o + 16)
  eMachine := getLe 2 b (o + 18)
  eVersion := getLe 4 b (o + 20)
  eEntry := getLe 8 b (o + 24)
  ePhoff := getLe 8 b (o + 32)
  eShoff := getLe 8 b (o + 40)
  eFlags := getLe 4 b (o + 48)
  eEhsize := getLe 2 b (o + 52)
  ePhentsize := getLe 2 b (o + 54)
  ePhnum := getLe 2 b (o + 56)
  eShentsize := getLe 2 b (o + 58)
  eShnum := getLe 2 b (o + 60)
  eShstrndx := getLe 2 b (o + 62)

/-- The section header at `o`. -/
def shdrAt (b : Bytes) (o : Nat) : Elf64Shdr where
  shName := getLe 4 b o
  shType := getLe 4 b (o + 4)
  shFlags := getLe 8 b (o + 8)
  shAddr := getLe 8 b (o + 16)
  shOffset := getLe 8 b (o + 24)
  shSize := getLe 8 b (o + 32)
  shLink := getLe 4 b (o + 40)
  shInfo := getLe 4 b (o + 44)
  shAddralign := getLe 8 b (o + 48)
  shEntsize := getLe 8 b (o + 56)

/-- The symbol at `o`. -/
def symAt (b : Bytes) (o : Nat) : Elf64Sym where
  stName := getLe 4 b o
  stInfo := getLe 1 b (o + 4)
  stOther := getLe 1 b (o + 5)
  stShndx := getLe 2 b (o + 6)
  stValue := getLe 8 b (o + 8)
  stSize := getLe 8 b (o + 16)

/-- The relocation at `o`. -/
def relaAt (b : Bytes) (o : Nat) : Elf64Rela where
  rOffset := getLe 8 b o
  rInfo := getLe 8 b (o + 8)
  rAddend := getLe 8 b (o + 16)

/-- The segment header at `o`. -/
def phdrAt (b : Bytes) (o : Nat) : Elf64Phdr where
  pType := getLe 4 b o
  pFlags := getLe 4 b (o + 4)
  pOffset := getLe 8 b (o + 8)
  pVaddr := getLe 8 b (o + 16)
  pPaddr := getLe 8 b (o + 24)
  pFilesz := getLe 8 b (o + 32)
  pMemsz := getLe 8 b (o + 40)
  pAlign := getLe 8 b (o + 48)

/-! ## Reading back -/

section

variable (pre post : List UInt8)

theorem ehdrAt_encode {h : Elf64Ehdr} (hident : h.eIdent.length = 16) (hfit : Fits h.fields) :
    ehdrAt (fileBytesOf (pre ++ (h.encode ++ post))) pre.length = h := by
  have hfields := decodeFields_middle (pre ++ h.eIdent) post hfit
  have hread : getBytes (fileBytesOf (pre ++ (h.encode ++ post))) pre.length 16 = h.eIdent := by
    apply ext_getElem
    · rw [length_getBytes, hident]
    intro k hk hk'
    have hbyte := fileBytesOf_append pre (h.encode ++ post) k
    simp only [getBytes, getElem_map, getElem_range]
    rw [hbyte, fileBytesOf, Elf64Ehdr.encode, append_assoc, getD_eq_getElem?_getD,
      List.getElem?_append_left hk', List.getElem?_eq_getElem hk', Option.getD_some]
  rw [length_append, hident] at hfields
  simp only [Elf64Ehdr.encode, append_assoc] at hfields hread ⊢
  simp only [Elf64Ehdr.fields, map_cons, map_nil, decodeFields, cons.injEq,
    and_true, add_assoc, reduceAdd] at hfields
  obtain ⟨h1, h2, h3, h4, h5, h6, h7, h8, h9, h10, h11, h12, h13⟩ := hfields
  unfold ehdrAt
  simp only [Elf64Ehdr.fields] at hread ⊢
  rw [hread, h1, h2, h3, h4, h5, h6, h7, h8, h9, h10, h11, h12, h13]

theorem shdrAt_encode {h : Elf64Shdr} (hfit : Fits h.fields) :
    shdrAt (fileBytesOf (pre ++ (h.encode ++ post))) pre.length = h := by
  have hfields := decodeFields_middle pre post hfit
  simp only [Elf64Shdr.fields, map_cons, map_nil, decodeFields, cons.injEq,
    and_true, add_assoc, reduceAdd] at hfields
  obtain ⟨h1, h2, h3, h4, h5, h6, h7, h8, h9, h10⟩ := hfields
  unfold shdrAt Elf64Shdr.encode Elf64Shdr.fields
  rw [h1, h2, h3, h4, h5, h6, h7, h8, h9, h10]

theorem symAt_encode {s : Elf64Sym} (hfit : Fits s.fields) :
    symAt (fileBytesOf (pre ++ (s.encode ++ post))) pre.length = s := by
  have hfields := decodeFields_middle pre post hfit
  simp only [Elf64Sym.fields, map_cons, map_nil, decodeFields, cons.injEq,
    and_true, add_assoc, reduceAdd] at hfields
  obtain ⟨h1, h2, h3, h4, h5, h6⟩ := hfields
  unfold symAt Elf64Sym.encode Elf64Sym.fields
  rw [h1, h2, h3, h4, h5, h6]

theorem relaAt_encode {r : Elf64Rela} (hfit : Fits r.fields) :
    relaAt (fileBytesOf (pre ++ (r.encode ++ post))) pre.length = r := by
  have hfields := decodeFields_middle pre post hfit
  simp only [Elf64Rela.fields, map_cons, map_nil, decodeFields, cons.injEq,
    and_true, add_assoc, reduceAdd] at hfields
  obtain ⟨h1, h2, h3⟩ := hfields
  unfold relaAt Elf64Rela.encode Elf64Rela.fields
  rw [h1, h2, h3]

theorem phdrAt_encode {h : Elf64Phdr} (hfit : Fits h.fields) :
    phdrAt (fileBytesOf (pre ++ (h.encode ++ post))) pre.length = h := by
  have hfields := decodeFields_middle pre post hfit
  simp only [Elf64Phdr.fields, map_cons, map_nil, decodeFields, cons.injEq,
    and_true, add_assoc, reduceAdd] at hfields
  obtain ⟨h1, h2, h3, h4, h5, h6, h7, h8⟩ := hfields
  unfold phdrAt Elf64Phdr.encode Elf64Phdr.fields
  rw [h1, h2, h3, h4, h5, h6, h7, h8]

@[simp] theorem length_ehdr (h : Elf64Ehdr) : h.encode.length = h.eIdent.length + 48 := by
  simp [Elf64Ehdr.encode, Elf64Ehdr.fields]

@[simp] theorem length_shdr (h : Elf64Shdr) : h.encode.length = shdrSize := by
  simp [Elf64Shdr.encode, Elf64Shdr.fields, shdrSize]

@[simp] theorem length_sym (s : Elf64Sym) : s.encode.length = symSize := by
  simp [Elf64Sym.encode, Elf64Sym.fields, symSize]

@[simp] theorem length_rela (r : Elf64Rela) : r.encode.length = relaSize := by
  simp [Elf64Rela.encode, Elf64Rela.fields, relaSize]

@[simp] theorem length_phdr (h : Elf64Phdr) : h.encode.length = phdrSize := by
  simp [Elf64Phdr.encode, Elf64Phdr.fields, phdrSize]

end

theorem stInfoOf_parts {bind type : Nat} (hb : bind < 16) (ht : type < 16) :
    stInfoOf bind type / 16 = bind ∧ stInfoOf bind type % 16 = type ∧ stInfoOf bind type < 256 := by
  unfold stInfoOf
  rw [mod_eq_of_lt ht]
  have hor : bind * 16 ||| type = bind * 16 + type := by
    have h := two_pow_add_eq_or_of_lt (i := 4) (by simpa using ht) bind
    rw [mul_comm]
    exact h.symm
  omega

theorem rInfoOf_parts {sym type : Nat} (ht : type < 2 ^ 32) :
    rInfoOf sym type / 2 ^ 32 = sym ∧ rInfoOf sym type % 2 ^ 32 = type ∧
      rInfoOf sym type = sym * 2 ^ 32 + type := by
  unfold rInfoOf
  have hor : sym * 2 ^ 32 ||| type = sym * 2 ^ 32 + type := by
    have h := two_pow_add_eq_or_of_lt ht sym
    rw [mul_comm]
    exact h.symm
  omega

end Slopix.Elf
