import Slopix.Ld.Reloc

/-!
# The output file

`ld/output.c`: the ELF executable of user mode with one segment for code and one for data, and the
flat binary of kernel mode. Every write is taken to succeed, but for a write from a buffer that was
never allocated.
-/

namespace Slopix.Ld

open Lib Elf

/-- `size` bytes of the buffer of a section; behind what is allocated there is `junk`. -/
def sectionContents (junk : Nat → UInt8) (sec : OutputSection) : List UInt8 :=
  sec.data.take sec.size ++
    (List.range' sec.data.length (sec.size - sec.data.length)).map junk

/-- `write_all` of the buffer of a section that is not empty. -/
def writeSection (junk : Nat → UInt8) (sec : OutputSection) : Option (List UInt8) :=
  if sec.size = 0 then some []
  else if sec.data = [] then none
  else some (sectionContents junk sec)

/-- `align_up` of `output.c` for `PAGE_SIZE`. -/
def pageUp (val : Nat) : Nat := alignUp val PAGE_SIZE

/-- `code_file_offset` and the sizes and addresses of the two segments. -/
structure Segments where
  codeSize : Nat
  codeVaddr : Nat
  dataFileOffset : Nat
  dataFilesz : Nat
  dataMemsz : Nat
  dataVaddr : Nat

/-- The two segments of the executable. -/
def segments (secs : Sections) : Segments where
  codeSize := ((secs OUT_TEXT).size + (secs OUT_RODATA).size) % 2 ^ 64
  codeVaddr := (secs OUT_TEXT).addr
  dataFileOffset :=
    pageUp ((PAGE_SIZE + ((secs OUT_TEXT).size + (secs OUT_RODATA).size) % 2 ^ 64) % 2 ^ 64)
  dataFilesz := (secs OUT_DATA).size
  dataMemsz := ((secs OUT_DATA).size + (secs OUT_BSS).size) % 2 ^ 64
  dataVaddr :=
    if (secs OUT_DATA).size = 0 ∧ 0 < (secs OUT_BSS).size then (secs OUT_BSS).addr
    else (secs OUT_DATA).addr

/-- The header of an executable. -/
def execHeader (entry : Nat) : Elf64Ehdr where
  eIdent := elfIdent
  eType := etExec
  eMachine := emAarch64
  eVersion := 1
  eEntry := entry
  ePhoff := ehdrSize
  eShoff := 0
  eFlags := 0
  eEhsize := ehdrSize
  ePhentsize := phdrSize
  ePhnum := 2
  eShentsize := 0
  eShnum := 0
  eShstrndx := 0

/-- The header of the code segment: `PF_R | PF_X`. -/
def codeHeader (s : Segments) : Elf64Phdr :=
  ⟨ptLoad, 5, PAGE_SIZE, s.codeVaddr, s.codeVaddr, s.codeSize, s.codeSize, PAGE_SIZE⟩

/-- The header of the data segment: `PF_R | PF_W`. -/
def dataHeader (s : Segments) : Elf64Phdr :=
  ⟨ptLoad, 6, s.dataFileOffset, s.dataVaddr, s.dataVaddr, s.dataFilesz, s.dataMemsz, PAGE_SIZE⟩

/-- `write_executable`: the file, or `none` where it returns `false`. -/
def writeExecutable (junk : Nat → Nat → UInt8) (secs : Sections) (global : SymbolTable)
    (entryPoint : Name) : Option (List UInt8) :=
  match symbolLookup global entryPoint with
  | none => none
  | some start =>
    let s := segments secs
    let headers := (execHeader start.value).encode ++ (codeHeader s).encode ++ (dataHeader s).encode
    match writeSection (junk OUT_TEXT) (secs OUT_TEXT),
        writeSection (junk OUT_RODATA) (secs OUT_RODATA),
        writeSection (junk OUT_DATA) (secs OUT_DATA) with
    | some text, some rodata, some data =>
      some (headers ++ List.replicate (PAGE_SIZE - (ehdrSize + 2 * phdrSize)) 0 ++ text ++ rodata ++
        List.replicate (s.dataFileOffset - (PAGE_SIZE + s.codeSize)) 0 ++ data)
    | _, _, _ => none

/-! ## The flat binary -/

/-- The sections that `write_binary` writes: those from 1 on that are neither empty nor `SHT_NOBITS`. -/
def loadable (secs : Sections) (count : Nat) : List Nat :=
  (List.range' 1 (count - 1)).filter fun i => 0 < (secs i).size && (secs i).type != shtNobits

/-- The lowest address of a section that is loaded. -/
def baseLma (secs : Sections) (count : Nat) : Nat :=
  (loadable secs count).foldl (fun base i => if (secs i).lma < base then (secs i).lma else base)
    (2 ^ 64 - 1)

/-- The size of the image of the kernel. -/
def fileSize (secs : Sections) (count : Nat) : Nat :=
  (loadable secs count).foldl (fun size i =>
    let stop := ((secs i).lma - baseLma secs count + (secs i).size) % 2 ^ 64
    if stop > size then stop else size) 0

/-- `memcpy` of a section into the image; one without a buffer is left out. -/
def placeImage (junk : Nat → Nat → UInt8) (secs : Sections) (base : Nat) (out : Bytes) (i : Nat) :
    Bytes :=
  if (secs i).data = [] then out
  else putBytes out ((secs i).lma - base) (sectionContents (junk i) (secs i))

/-- `write_binary`: the file, or `none` where it returns `false`. -/
def writeBinary (junk : Nat → Nat → UInt8) (secs : Sections) (count : Nat) : Option (List UInt8) :=
  if baseLma secs count = 2 ^ 64 - 1 then none
  else
    some (getBytes ((loadable secs count).foldl (placeImage junk secs (baseLma secs count)) fun _ => 0) 0
      (fileSize secs count))

/-! ## Linking -/

/-- What `main` does in user mode once the objects are collected and every symbol is defined. -/
def linkUser (junk : Nat → Nat → UInt8) (objects : List ObjectFile) (global : SymbolTable) :
    Except RelocStop (Sections × SymbolTable) :=
  let secs := assignAddresses (mergeSections junk categorizeSection objects userSections)
  let global := updateSymbolValues global secs OUT_COUNT
  match applyRelocations objects global OUT_COUNT secs with
  | .error e => .error e
  | .ok secs => .ok (secs, global)

/-- What `define_kernel_symbols` stores into the entry that `symbol_lookup` finds. -/
def setValue : SymbolTable → Name → Nat → SymbolTable
  | [], _, _ => []
  | s :: tab, name, value =>
    if s.name = name then { s with value := value % 2 ^ 64 } :: tab else s :: setValue tab name value

/-- `define_kernel_symbols`: the values of the symbols that the link defines itself. -/
def defineKernelSymbols (global : SymbolTable) (secs : Sections) : SymbolTable :=
  let bss := secs KOUT_BSS
  let values := [KERNEL_PHYS_BASE, KERNEL_VIRT_BASE, bss.addr, bss.addr + bss.size,
    alignUp ((bss.addr + bss.size) % 2 ^ 64) 16 + 0x10000]
  (kernelSymbols.zip values).foldl (fun g s => setValue g s.1 s.2) global

/-- What `main` does in kernel mode. -/
def linkKernel (junk : Nat → Nat → UInt8) (objects : List ObjectFile) (global : SymbolTable) :
    Except RelocStop (Sections × SymbolTable) :=
  let secs := assignAddressesKernel (mergeSections junk categorizeSectionKernel objects kernelSections)
  let global := updateSymbolValues (defineKernelSymbols global secs) secs KOUT_COUNT
  match applyRelocations objects global KOUT_COUNT secs with
  | .error e => .error e
  | .ok secs => .ok (secs, global)

end Slopix.Ld
