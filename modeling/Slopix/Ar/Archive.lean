import Slopix.Ld.Archive

/-!
# Writing an archive

`cmd/ar/ar.c`: the global symbols of each member are collected, the offsets of the member headers are
computed behind the index, and everything is written out. A file is read with one call of `read`, which gives
at most `readMax` bytes (2147479552 on Linux).
-/

namespace Slopix.Ar

open Lib Elf Libc Ld

/-- Why `ar` ends without an archive: a message and `exit(1)`, or an `int` overflows. -/
inductive ArStop where
  | exit (fmt : String) (args : List Name)
  | overflow
  deriving DecidableEq

/-- A file as `fstat` and `read` see it; its size is an `off_t`. -/
structure FileData where
  data : List UInt8
  size_lt : data.length < 2 ^ 63

/-- What `strrchr` finds behind the last `/`. -/
def baseName (path : Name) : Name := (path.reverse.takeWhile (· != 0x2f)).reverse

/-- `Member`. -/
structure Member where
  name : Name
  data : List UInt8

/-- `extract_symbols`: the defined global and weak symbols of an ELF file. -/
def extractSymbols (data : List UInt8) : List Name :=
  let b := fileBytesOf data
  if data.length < 64 ∨ data.take 4 ≠ [0x7f, 0x45, 0x4c, 0x46] then []
  else if data.getD 4 0 ≠ 2 then []
  else
    let shoff := getLe 8 b 40
    let shentsize := getLe 2 b 58
    let shnum := getLe 2 b 60
    if shoff = 0 ∨ shnum = 0 then []
    else
      match (List.range shnum).find? fun i => getLe 4 b (shoff + i * shentsize + 4) == shtSymtab with
      | none => []
      | some i =>
        let sh := shoff + i * shentsize
        let symtab := getLe 8 b (sh + 24)
        let symtabSize := getLe 8 b (sh + 32)
        let symtabLink := getLe 4 b (sh + 40)
        let strtab := getLe 8 b (shoff + symtabLink * shentsize % 2 ^ 32 + 24)
        ((List.range (intCount (symtabSize / 24))).drop 1).filterMap fun j =>
          let sym := symtab + j * 24
          let bind := getLe 1 b (sym + 4) / 16
          if (bind = stbGlobal ∨ bind = stbWeak) ∧ getLe 2 b (sym + 6) ≠ shnUndef then
            some (cstrAt data (strtab + getLe 4 b sym))
          else none

/-- The array `symbols`: the names and the members they are from, which start at index `k`. -/
def allSymbols : Nat → List Member → List (Name × Nat)
  | _, [] => []
  | k, m :: ms => (extractSymbols m.data).map (·, k) ++ allSymbols (k + 1) ms

/-- `write_be32`. -/
def be32 (v : Nat) : List UInt8 :=
  [UInt8.ofNat (v / 2 ^ 24), UInt8.ofNat (v / 2 ^ 16), UInt8.ofNat (v / 2 ^ 8), UInt8.ofNat v]

/-- A field of a header, filled up with spaces. -/
def field (n : Nat) (s : List UInt8) : List UInt8 := s ++ List.replicate (n - s.length) 0x20

/-- `write_header`: the name with a slash behind it, the size and the two closing bytes. -/
def writeHeader (name : Name) (size : Nat) : List UInt8 :=
  field 48 (name.take 15 ++ if name ≠ [0x2f] then [0x2f] else []) ++ field 10 ((formatUint size).take 10) ++
    [0x60, 0x0a]

/-- The byte behind a part of odd size. -/
def padding (size : Nat) : List UInt8 := if size % 2 = 1 then [0x0a] else []

/-- The offsets of the headers of members from `offset` on. -/
def memberOffsets : Nat → List Member → List Nat
  | _, [] => []
  | offset, m :: ms =>
    offset :: memberOffsets (offset + 60 + m.data.length + if m.data.length % 2 = 1 then 1 else 0) ms

/-- The names of the index, each with a NUL. -/
def indexNames (symbols : List (Name × Nat)) : List UInt8 := symbols.flatMap fun s => s.1 ++ [0]

/-- `symtab_size`; the part before the names is computed as an `int`. -/
def symtabSize (symbols : List (Name × Nat)) : Except ArStop Nat :=
  if 4 + symbols.length * 4 < 2 ^ 31 then .ok (4 + symbols.length * 4 + (indexNames symbols).length)
  else .error .overflow

/-- Where the first member stands. -/
def firstOffset (symbols : List (Name × Nat)) (size : Nat) : Nat :=
  8 + if symbols = [] then 0 else 60 + size + if size % 2 = 1 then 1 else 0

/-- The index: the offset of the member for each symbol, then the names. -/
def writeIndex (symbols : List (Name × Nat)) (offsets : List Nat) (size : Nat) : List UInt8 :=
  if symbols = [] then []
  else
    writeHeader [0x2f] size ++
      (be32 symbols.length ++ (symbols.flatMap fun s => be32 (offsets.getD s.2 0)) ++ indexNames symbols) ++
      padding size

/-- A member: header, bytes and the newline behind an odd number of them. -/
def writeMember (m : Member) : List UInt8 :=
  writeHeader m.name m.data.length ++ m.data ++ padding m.data.length

/-- What is written for the members. -/
def writeArchive (members : List Member) : Except ArStop (List UInt8) :=
  let symbols := allSymbols 0 members
  match symtabSize symbols with
  | .error e => .error e
  | .ok size =>
    .ok (arMagic ++ writeIndex symbols (memberOffsets (firstOffset symbols size) members) size ++
      members.flatMap writeMember)

/-- The loop over `add_member`. -/
def addMembers (readMax : Nat) (file : Name → Option FileData) : List Name → Except ArStop (List Member)
  | [] => .ok []
  | path :: paths =>
    match file path with
    | none => .error (.exit "ar: cannot open %s\n" [path])
    | some f =>
      if min f.data.length readMax ≠ f.data.length then .error (.exit "ar: cannot read %s\n" [path])
      else
        match addMembers readMax file paths with
        | .error e => .error e
        | .ok ms => .ok (⟨baseName path, f.data⟩ :: ms)

/-- `main` on the arguments behind the program name: the name of the archive and its bytes. -/
def arMain (readMax : Nat) (file : Name → Option FileData) (argv : List Name) : Except ArStop (Name × List UInt8) :=
  match argv with
  | mode :: archive :: path :: paths =>
    if mode ≠ [0x72, 0x63, 0x73] then .error (.exit "ar: only 'rcs' mode supported\n" [])
    else
      match addMembers readMax file (path :: paths) with
      | .error e => .error e
      | .ok members =>
        match writeArchive members with
        | .error e => .error e
        | .ok bytes => .ok (archive, bytes)
  | _ => .error (.exit "usage: ar rcs <archive> <file>...\n" [])

/-- `archive_open` on a file: `read` has to give all of it. -/
def openArchive (readMax : Nat) (path : Name) (data : List UInt8) : Except LdError Archive :=
  if arMagic.length ≤ data.length ∧ min data.length readMax ≠ data.length then .error (ldError "cannot read %s" [path])
  else archiveOpen path data

end Slopix.Ar
