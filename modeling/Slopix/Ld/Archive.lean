import Slopix.Ld.Object
import Slopix.Libc.Decimal

/-!
# Opening an archive

`archive_open` of `ld/archive.c`: the loop over the member headers, then the symbol index, which has a
big-endian count, a header offset for each symbol and the names. Bytes behind the end of the file, which
only an archive with wrong sizes refers to, are zeros here.
-/

namespace Slopix.Ld

open Lib Libc

/-- `AR_MAGIC`. -/
def arMagic : List UInt8 := [0x21, 0x3c, 0x61, 0x72, 0x63, 0x68, 0x3e, 0x0a]

/-- `read_be32`. -/
def readBe32 (data : List UInt8) (o : Nat) : Nat :=
  (data.getD o 0).toNat * 2 ^ 24 + (data.getD (o + 1) 0).toNat * 2 ^ 16 +
    (data.getD (o + 2) 0).toNat * 2 ^ 8 + (data.getD (o + 3) 0).toNat

/-- The size field of a header. -/
def parseArSize (data : List UInt8) (o : Nat) : Nat :=
  strtoul10 (((data.drop o).take 10).takeWhile (· != 0))

/-- The part of a string before the first `c`, if there is one. -/
def beforeByte (c : UInt8) (s : List UInt8) : Option (List UInt8) :=
  if c ∈ s then some (s.takeWhile (· != c)) else none

/-- `parse_ar_name`; `strtab` is where the long names stand and their size. -/
def parseArName (data : List UInt8) (o : Nat) (strtab : Option (Nat × Nat)) : Name :=
  let field := (data.drop o).take 16
  let short := (((beforeByte 0x2f field).getD field).reverse.dropWhile (· == 0x20)).reverse
  if field.getD 0 0 = 0x2f ∧ isDigit (field.getD 1 0) = true then
    match strtab with
    | none => short
    | some (start, size) =>
      let offset := strtoul10 (data.drop (o + 1))
      if offset < size then
        let s := cstrAt data (start + offset)
        ((beforeByte 0x2f s).orElse fun _ => beforeByte 0x0a s).getD s
      else short
  else short

/-- What the loop over the headers has found: the index and the long names, each with its size. -/
structure ArScan where
  symtab : Option (Nat × Nat)
  strtab : Option (Nat × Nat)
  members : List ArchiveMember

/-- What the scan does with a header: the index, the long names, or a member. -/
def scanHeader (data : List UInt8) (offset size : Nat) (sc : ArScan) : ArScan :=
  if data.getD offset 0 = 0x2f ∧ data.getD (offset + 1) 0 = 0x20 then
    { sc with symtab := some (offset + 60, size) }
  else if data.getD offset 0 = 0x2f ∧ data.getD (offset + 1) 0 = 0x2f then
    { sc with strtab := some (offset + 60, size) }
  else
    { sc with
      members := sc.members ++
        [⟨parseArName data offset sc.strtab, data.drop (offset + 60), size, offset, false⟩] }

/-- The end of a member, as a `size_t`, moved to an even offset. -/
def evenEnd (offset size : Nat) : Nat :=
  let next := (offset + 60 + size) % 2 ^ 64
  if next % 2 = 1 then (next + 1) % 2 ^ 64 else next

/-- The loop over the headers. -/
def scanMembers (data : List UInt8) : Nat → Nat → ArScan → Except LdError ArScan
  | 0, _, _ => .error .fuel
  | fuel + 1, offset, sc =>
    if (offset + 60) % 2 ^ 64 ≤ data.length then
      if data.getD (offset + 58) 0 ≠ 0x60 ∨ data.getD (offset + 59) 0 ≠ 0x0a then .ok sc
      else
        let size := parseArSize data (offset + 48)
        scanMembers data fuel (evenEnd offset size) (scanHeader data offset size sc)
    else .ok sc

/-- The member whose header is at an offset. -/
def memberIndex (members : List ArchiveMember) (fileOffset : Nat) : Option Nat :=
  members.findIdx? fun m => m.offset == fileOffset

/-- The loop over the symbols: the next header offset and the next name. -/
def arSymbols (data : List UInt8) (members : List ArchiveMember) : Nat → Nat → Nat → List ArchiveSymbol
  | 0, _, _ => []
  | n + 1, offsets, names =>
    ⟨cstrAt data names, memberIndex members (readBe32 data offsets)⟩ ::
      arSymbols data members n (offsets + 4) (names + (cstrAt data names).length + 1)

/-- The symbols of the index. -/
def arIndex (data : List UInt8) (sc : ArScan) : List ArchiveSymbol :=
  match sc.symtab with
  | none => []
  | some (start, size) =>
    if 4 ≤ size then
      let count := readBe32 data start
      if (4 + count * 4) % 2 ^ 32 ≤ size then
        arSymbols data sc.members count (start + 4) (start + 4 + count * 4 % 2 ^ 32)
      else []
    else []

theorem arSymbols_indexed {data : List UInt8} {members : List ArchiveMember} {n offsets names : Nat} :
    ∀ a ∈ arSymbols data members n offsets names, ∀ i ∈ a.memberIdx, i < members.length := by
  induction n generalizing offsets names with
  | zero => simp [arSymbols]
  | succ n ih =>
    intro a ha i hi
    rcases List.mem_cons.1 ha with rfl | ha
    · obtain ⟨hlt, -⟩ := List.findIdx?_eq_some_iff_getElem.1 hi
      exact hlt
    · exact ih a ha i hi

theorem arIndex_indexed (data : List UInt8) (sc : ArScan) :
    ∀ a ∈ arIndex data sc, ∀ i ∈ a.memberIdx, i < sc.members.length := by
  unfold arIndex
  cases sc.symtab with
  | none => simp
  | some p =>
    dsimp only
    split
    · split
      · exact arSymbols_indexed
      · simp
    · simp

/-- `archive_open` on the bytes of a file. -/
def archiveOpen (path : Name) (data : List UInt8) : Except LdError Archive :=
  if data.length < arMagic.length then .error (ldError "%s: file too small for archive" [path])
  else if data.take 8 ≠ arMagic then .error (ldError "%s: not an archive file" [path])
  else
    match scanMembers data (data.length + 1) 8 ⟨none, none, []⟩ with
    | .error e => .error e
    | .ok sc => .ok ⟨path, sc.members, arIndex data sc, arIndex_indexed data sc⟩

end Slopix.Ld
