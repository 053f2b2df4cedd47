import Slopix.Ld.Symbol

/-!
# Output sections

`ld/section.c`: input sections are sorted by name into output sections, each piece at the next aligned
offset; the output sections get addresses; and symbols get their final values. `realloc` does not clear
what it adds, so a byte that nothing was copied to is `junk`.
-/

namespace Slopix.Ld

open Lib Elf

/-- `SectionPiece`; the file is an index among the objects. -/
structure SectionPiece where
  file : Nat
  inputShndx : Nat
  outputOffset : Nat
  size : Nat
  deriving DecidableEq

/-- `OutputSection`. `data` is the buffer as far as it is allocated. -/
structure OutputSection where
  addr : Nat
  lma : Nat
  size : Nat
  alignment : Nat
  type : Nat
  data : List UInt8
  pieces : List SectionPiece

/-- The array of output sections. -/
abbrev Sections := Nat → OutputSection

/-- The alignment between pieces of a section. -/
def SECTION_ALIGN : Nat := 8

/-- The alignment of the segments. -/
def PAGE_SIZE : Nat := 0x1000

/-- Where a user program starts. -/
def TEXT_BASE : Nat := 0x10000

/-- The code of a user program. -/
def OUT_TEXT : Nat := 1

/-- Its constants. -/
def OUT_RODATA : Nat := 2

/-- Its data. -/
def OUT_DATA : Nat := 3

/-- Its zeros. -/
def OUT_BSS : Nat := 4

/-- The sections of a user program, with section 0. -/
def OUT_COUNT : Nat := 5

/-- The code that runs before the kernel's own map is on. -/
def KOUT_TEXT_BOOT : Nat := 1

/-- The page tables of that time. -/
def KOUT_TABLES : Nat := 2

/-- The code of the kernel. -/
def KOUT_TEXT : Nat := 3

/-- Its constants. -/
def KOUT_RODATA : Nat := 4

/-- Its data. -/
def KOUT_DATA : Nat := 5

/-- Its zeros. -/
def KOUT_BSS : Nat := 6

/-- The sections of the kernel, with section 0. -/
def KOUT_COUNT : Nat := 7

/-- Where the image is loaded. -/
def KERNEL_PHYS_BASE : Nat := 0x40080000

/-- Where it is mapped. -/
def KERNEL_VIRT_BASE : Nat := 0xFFFF000040080000

/-- What is kept for the boot code and its tables. -/
def KERNEL_BOOT_SIZE : Nat := 0x10000

/-- `output_section_init`, with `calloc` for what it does not set. -/
def outputSectionInit (type : Nat) : OutputSection := ⟨0, 0, 0, SECTION_ALIGN, type, [], []⟩

/-- The output sections of a user program before the merge; only `.bss` is without bytes. -/
def userSections : Sections := fun i =>
  outputSectionInit (if i = 0 then 0 else if i = OUT_BSS then shtNobits else shtProgbits)

/-- The output sections of the kernel before the merge. -/
def kernelSections : Sections := fun i =>
  outputSectionInit (if i = 0 then 0 else if i = KOUT_BSS then shtNobits else shtProgbits)

/-- `.text`, `.rodata`, `.data`, `.bss`, `.text.boot`, `.tables`. -/
def nameText : Name := [0x2e, 0x74, 0x65, 0x78, 0x74]

/-- `.rodata`. -/
def nameRodata : Name := [0x2e, 0x72, 0x6f, 0x64, 0x61, 0x74, 0x61]

/-- `.data`. -/
def nameData : Name := [0x2e, 0x64, 0x61, 0x74, 0x61]

/-- `.bss`. -/
def nameBss : Name := [0x2e, 0x62, 0x73, 0x73]

/-- `.text.boot`. -/
def nameTextBoot : Name := nameText ++ [0x2e, 0x62, 0x6f, 0x6f, 0x74]

/-- `.tables`. -/
def nameTables : Name := [0x2e, 0x74, 0x61, 0x62, 0x6c, 0x65, 0x73]

/-- `categorize_section`: the output section that the name asks for. -/
def categorizeSection (name : Name) (flags : Nat) : Option Nat :=
  if flags &&& shfAlloc = 0 then none
  else if nameText.isPrefixOf name then some OUT_TEXT
  else if nameRodata.isPrefixOf name then some OUT_RODATA
  else if nameData.isPrefixOf name then some OUT_DATA
  else if nameBss.isPrefixOf name then some OUT_BSS
  else none

/-- `categorize_section_kernel`: the boot code and the tables go by their full names. -/
def categorizeSectionKernel (name : Name) (flags : Nat) : Option Nat :=
  if flags &&& shfAlloc = 0 then none
  else if name = nameTextBoot then some KOUT_TEXT_BOOT
  else if name = nameTables then some KOUT_TABLES
  else if nameText.isPrefixOf name then some KOUT_TEXT
  else if nameRodata.isPrefixOf name then some KOUT_RODATA
  else if nameData.isPrefixOf name then some KOUT_DATA
  else if nameBss.isPrefixOf name then some KOUT_BSS
  else none

/-- `align_up` on 64 bits. -/
def alignUp (val align : Nat) : Nat :=
  if align = 0 then val else (val + align - 1) % 2 ^ 64 &&& (2 ^ 64 - 1 - (align - 1))

/-! ## Merging -/

/-- The bytes of a section in its file. -/
def inputBytes (obj : ObjectFile) (sh : Elf64Shdr) : List UInt8 :=
  getBytes (fileBytesOf obj.data) sh.shOffset sh.shSize

/-- What `merge_sections` does to the output section of an input section. -/
def addInput (junk : Nat → UInt8) (file : Nat) (obj : ObjectFile) (j : Nat) (sh : Elf64Shdr)
    (out : OutputSection) : OutputSection :=
  let align := if sh.shAddralign = 0 then 1 else sh.shAddralign
  let offset := alignUp out.size align
  { out with
    alignment := if align > out.alignment then align else out.alignment
    pieces := out.pieces ++ [⟨file, j, offset, sh.shSize⟩]
    data :=
      if sh.shType ≠ shtNobits ∧ 0 < sh.shSize then
        out.data ++ (List.range' out.data.length (out.size - out.data.length)).map junk ++
          List.replicate (offset - out.size) 0 ++ inputBytes obj sh
      else out.data
    size := (offset + sh.shSize) % 2 ^ 64 }

/-- The body of the loop over the sections of an object. -/
def mergeSection (junk : Nat → Nat → UInt8) (categorize : Name → Nat → Option Nat) (file : Nat)
    (obj : ObjectFile) (secs : Sections) (j : Nat) : Sections :=
  match obj.shdrs[j]?, obj.sectionName j with
  | some sh, some name =>
    match categorize name sh.shFlags with
    | some cat => Function.update secs cat (addInput (junk cat) file obj j sh (secs cat))
    | none => secs
  | _, _ => secs

/-- The loop over the sections of an object, which leaves out the null section. -/
def mergeObject (junk : Nat → Nat → UInt8) (categorize : Name → Nat → Option Nat) (secs : Sections)
    (o : ObjectFile × Nat) : Sections :=
  (List.range' 1 (o.1.shdrs.length - 1)).foldl (mergeSection junk categorize o.2 o.1) secs

/-- `merge_sections`: the objects in their order. -/
def mergeSections (junk : Nat → Nat → UInt8) (categorize : Name → Nat → Option Nat)
    (objects : List ObjectFile) (secs : Sections) : Sections :=
  objects.zipIdx.foldl (mergeObject junk categorize) secs

/-! ## Addresses -/

/-- Give section `i` the next address, unless it is empty. -/
def placeSection (st : Sections × Nat) (i : Nat) : Sections × Nat :=
  let sec := st.1 i
  if sec.size = 0 then st
  else
    let addr := alignUp st.2 sec.alignment
    (Function.update st.1 i { sec with addr := addr, lma := addr }, (addr + sec.size) % 2 ^ 64)

/-- `assign_addresses`: code and constants, then data and zeros from the next page on. -/
def assignAddresses (secs : Sections) : Sections :=
  let (secs, addr) := [OUT_TEXT, OUT_RODATA].foldl placeSection (secs, TEXT_BASE)
  ([OUT_DATA, OUT_BSS].foldl placeSection (secs, alignUp addr PAGE_SIZE)).1

/-- Give a section of the high half its two addresses, unless it is empty. -/
def placeKernelSection (st : Sections × Nat × Nat) (i : Nat) : Sections × Nat × Nat :=
  let sec := st.1 i
  if sec.size = 0 then st
  else
    let phys := alignUp st.2.1 sec.alignment
    let virt := alignUp st.2.2 sec.alignment
    (Function.update st.1 i { sec with addr := virt, lma := phys }, (phys + sec.size) % 2 ^ 64,
      (virt + sec.size) % 2 ^ 64)

/-- Give a section of the low half one address. -/
def placeLow (secs : Sections) (i phys : Nat) : Sections × Nat :=
  let sec := secs i
  if sec.size = 0 then (secs, phys)
  else (Function.update secs i { sec with addr := phys, lma := phys }, (phys + sec.size) % 2 ^ 64)

/-- `assign_addresses_kernel`: boot code and tables below, the rest in the upper half. -/
def assignAddressesKernel (secs : Sections) : Sections :=
  let (secs, phys) := placeLow secs KOUT_TEXT_BOOT KERNEL_PHYS_BASE
  let (secs, _) := placeLow secs KOUT_TABLES (alignUp phys 0x1000)
  ([KOUT_TEXT, KOUT_RODATA, KOUT_DATA, KOUT_BSS].foldl placeKernelSection
    (secs, KERNEL_PHYS_BASE + KERNEL_BOOT_SIZE, KERNEL_VIRT_BASE + KERNEL_BOOT_SIZE)).1

/-! ## Symbols -/

/-- `find_piece`, with the output section the piece is in. -/
def findPiece (secs : Sections) (count file shndx : Nat) : Option (Nat × SectionPiece) :=
  (List.range' 1 (count - 1)).findSome? fun i =>
    ((secs i).pieces.find? fun p => p.file == file && p.inputShndx == shndx).map fun p => (i, p)

/-- One symbol of `update_symbol_values`; a symbol without a file has no piece. -/
def updateSymbol (secs : Sections) (count : Nat) (sym : Symbol) : Symbol :=
  if sym.shndx = shnAbs then sym
  else
    match sym.file.bind fun f => findPiece secs count f.index sym.shndx with
    | none => sym
    | some (i, p) =>
      { sym with value := ((secs i).addr + p.outputOffset + sym.value) % 2 ^ 64, outputShndx := i }

/-- `update_symbol_values`: each defined symbol moves with its section. -/
def updateSymbolValues (global : SymbolTable) (secs : Sections) (count : Nat) : SymbolTable :=
  global.map (updateSymbol secs count)

/-- `resolve_local_symbol`: the address of a symbol of the object itself. -/
def resolveLocalSymbol (file : Nat) (obj : ObjectFile) (symIdx : Nat) (secs : Sections)
    (count : Nat) : Nat :=
  match (obj.symtab.getD [])[symIdx]? with
  | none => 0
  | some sym =>
    if sym.stShndx = shnUndef then 0
    else if sym.stShndx = shnAbs then sym.stValue
    else
      match findPiece secs count file sym.stShndx with
      | none => sym.stValue
      | some (i, p) => ((secs i).addr + p.outputOffset + sym.stValue) % 2 ^ 64

end Slopix.Ld
