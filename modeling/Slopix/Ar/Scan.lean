import Mathlib.Data.List.GetD
import Mathlib.Data.List.TakeWhile
import Slopix.Ar.Archive

/-!
# The headers of a written archive

What the loop of `archive_open` reads in a header that `write_header` wrote, and what it makes of a
sequence of members whose sizes fit their fields. Whatever the bytes are, a member it records has the
size that its header says.
-/

namespace Slopix.Ar

open Lib Libc Ld List

/-- What `parse_ar_size` makes of the size in a header. -/
def sizeRead (size : Nat) : Nat := strtoul10 (field 10 ((formatUint size).take 10))

section

variable {data rest : List UInt8} {name : Name} {size o k n : Nat} {s : List UInt8}

theorem head?_spaces (n : Nat) : ∀ c ∈ (List.replicate n (0x20 : UInt8)).head?, isDigit c = false := by
  cases n with
  | zero => simp
  | succ n => simp [replicate_succ, isDigit]

theorem sizeRead_fits (hsize : size < 10 ^ 10) : sizeRead size = size :=
  strtoul10_fits (by omega) (by decide) hsize (head?_spaces _)

theorem field_length (hs : s.length ≤ n) : (field n s).length = n := by
  simp only [field, length_append, length_replicate]
  omega

/-- The 48 bytes of a header up to the size. -/
def nameField (name : Name) : List UInt8 :=
  field 48 (name.take 15 ++ if name ≠ [0x2f] then [0x2f] else [])

theorem nameField_length (name : Name) : (nameField name).length = 48 := by
  apply field_length
  have htake : (name.take 15).length ≤ 15 := by simp
  split <;> simp only [length_append, length_singleton, length_nil] <;> omega

theorem sizeField_length (size : Nat) : (field 10 ((formatUint size).take 10)).length = 10 :=
  field_length (by simp)

theorem writeHeader_eq (name : Name) (size : Nat) :
    writeHeader name size = nameField name ++ (field 10 ((formatUint size).take 10) ++ [0x60, 0x0a]) := by
  simp [writeHeader, nameField]

@[simp] theorem writeHeader_length (name : Name) (size : Nat) : (writeHeader name size).length = 60 := by
  rw [writeHeader_eq, length_append, length_append, nameField_length, sizeField_length]
  rfl

theorem drop_past {l a r : List UInt8} (h : l.drop o = a ++ r) (hn : a.length = n) : l.drop (o + n) = r := by
  rw [← drop_drop, h, drop_left' hn]

theorem getD_drop_add (data : List UInt8) (o k : Nat) : data.getD (o + k) 0 = (data.drop o).getD k 0 := by
  simp [getD_eq_getElem?_getD]

theorem header_magic (h : data.drop o = writeHeader name size ++ rest) :
    data.getD (o + 58) 0 = 0x60 ∧ data.getD (o + 59) 0 = 0x0a := by
  have hpart : ∀ k, (writeHeader name size ++ rest).getD (58 + k) 0 = ([0x60, 0x0a] ++ rest).getD k 0 := by
    intro k
    have hlen : (nameField name ++ field 10 ((formatUint size).take 10)).length = 58 := by
      rw [length_append, nameField_length, sizeField_length]
    rw [writeHeader_eq, ← append_assoc (nameField name), append_assoc _ [0x60, 0x0a],
      getD_append_right _ _ _ _ (by omega), hlen, Nat.add_sub_cancel_left]
  rw [getD_drop_add, getD_drop_add, h]
  exact ⟨hpart 0, hpart 1⟩

theorem zero_not_mem_sizeField (size : Nat) (hsize : size < 2 ^ 64) :
    ∀ c ∈ field 10 ((formatUint size).take 10), (c != 0) = true := by
  intro c hc
  rcases mem_append.1 hc with hc | hc
  · have hdigit := (formatUint_spec hsize).1 c (mem_of_mem_take hc)
    cases hzero : c != 0 with
    | true => rfl
    | false =>
      obtain rfl : c = 0 := by simpa using hzero
      exact absurd hdigit (by decide)
  · rw [eq_of_mem_replicate hc]
    rfl

theorem header_size (h : data.drop o = writeHeader name size ++ rest) (hsize : size < 2 ^ 64) :
    parseArSize data (o + 48) = sizeRead size := by
  have hfield : (data.drop (o + 48)).take 10 = field 10 ((formatUint size).take 10) := by
    rw [← drop_drop, h, writeHeader_eq, append_assoc, drop_left' (nameField_length name), append_assoc,
      take_left' (sizeField_length size)]
  rw [parseArSize, hfield, sizeRead]
  congr 1
  exact takeWhile_eq_self_iff.2 (zero_not_mem_sizeField size hsize)

/-- The index is marked by a `/` and a space. -/
def IsIndexHeader (data : List UInt8) (o : Nat) : Prop :=
  data.getD o 0 = 0x2f ∧ data.getD (o + 1) 0 = 0x20

theorem baseName_slash (path : Name) : (0x2f : UInt8) ∉ baseName path := by
  intro hmem
  rw [baseName, mem_reverse] at hmem
  simpa using mem_takeWhile_imp hmem

theorem header_first (h : data.drop o = writeHeader name size ++ rest) (hk : k < 48) :
    data.getD (o + k) 0 = (nameField name).getD k 0 := by
  rw [getD_drop_add, h, writeHeader_eq, append_assoc,
    getD_append _ _ _ _ (by rw [nameField_length]; exact hk)]

theorem header_index (hname : name = [] ∨ name = [0x2f])
    (h : data.drop o = writeHeader name size ++ rest) : IsIndexHeader data o := by
  have h0 := header_first h (k := 0) (by decide)
  have h1 := header_first h (k := 1) (by decide)
  rcases hname with rfl | rfl
  · exact ⟨h0, h1⟩
  · exact ⟨h0, h1⟩

theorem header_member (hne : name ≠ []) (hslash : (0x2f : UInt8) ∉ name)
    (h : data.drop o = writeHeader name size ++ rest) : data.getD o 0 ≠ 0x2f := by
  have h0 := header_first h (k := 0) (by decide)
  cases name with
  | nil => exact absurd rfl hne
  | cons c name =>
    intro heq
    rw [Nat.add_zero, heq] at h0
    exact hslash (h0 ▸ mem_cons_self)

end

/-! ## What the loop records -/

/-- A recorded member agrees with the header it was recorded at. -/
structure Recorded (data : List UInt8) (m : ArchiveMember) : Prop where
  size : m.size = parseArSize data (m.offset + 48)
  bytes : m.data = data.drop (m.offset + 60)
  member : ¬ IsIndexHeader data m.offset

section

variable {data rest : List UInt8} {name : Name} {size o fuel : Nat} {sc sc' : ArScan}

theorem scanHeader_recorded (hrec : ∀ m ∈ sc.members, Recorded data m) :
    ∀ m ∈ (scanHeader data o (parseArSize data (o + 48)) sc).members, Recorded data m := by
  unfold scanHeader
  split
  · exact hrec
  rename_i hindex
  split
  · exact hrec
  intro m hm
  rcases mem_append.1 hm with hm | hm
  · exact hrec m hm
  · obtain rfl := mem_singleton.1 hm
    exact ⟨rfl, rfl, hindex⟩

theorem scanMembers_recorded (hscan : scanMembers data fuel o sc = .ok sc')
    (hrec : ∀ m ∈ sc.members, Recorded data m) : ∀ m ∈ sc'.members, Recorded data m := by
  induction fuel generalizing o sc with
  | zero => cases hscan
  | succ fuel ih =>
    rw [scanMembers] at hscan
    split at hscan
    · split at hscan
      · obtain rfl : sc = sc' := by simpa using hscan
        exact hrec
      · exact ih hscan (scanHeader_recorded hrec)
    · obtain rfl : sc = sc' := by simpa using hscan
      exact hrec

theorem scanMembers_step (h : data.drop o = writeHeader name size ++ rest) (hsize : size < 2 ^ 64)
    (hlen : data.length < 2 ^ 63) :
    scanMembers data (fuel + 1) o sc =
      scanMembers data fuel (evenEnd o (sizeRead size)) (scanHeader data o (sizeRead size) sc) := by
  have hroom : o + 60 ≤ data.length := by
    have := congrArg List.length h
    rw [length_drop, length_append, writeHeader_length] at this
    omega
  obtain ⟨h58, h59⟩ := header_magic h
  rw [scanMembers, if_pos (by rw [Nat.mod_eq_of_lt (by omega)]; exact hroom), h58, h59,
    if_neg (by decide), header_size h hsize]

/-- The offset behind a part of the given size with its header. -/
def nextOffset (o size : Nat) : Nat := o + 60 + size + if size % 2 = 1 then 1 else 0

@[simp] theorem padding_length (size : Nat) :
    (padding size).length = if size % 2 = 1 then 1 else 0 := apply_ite ..

theorem writeMember_length (m : Member) (o : Nat) : o + (writeMember m).length = nextOffset o m.data.length := by
  simp only [writeMember, nextOffset, length_append, writeHeader_length, padding_length]
  omega

theorem evenEnd_eq (heven : o % 2 = 0) (hlt : nextOffset o size < 2 ^ 63) :
    evenEnd o size = nextOffset o size := by
  unfold nextOffset at hlt ⊢
  unfold evenEnd
  dsimp only
  split <;> split at hlt <;> split <;> omega

theorem nextOffset_even (size : Nat) (heven : o % 2 = 0) : nextOffset o size % 2 = 0 := by
  unfold nextOffset
  split <;> omega

/-- The members that the loop records when every header is read as it was meant. -/
def recorded (data : List UInt8) (strtab : Option (Nat × Nat)) : Nat → List Member → List ArchiveMember
  | _, [] => []
  | o, m :: ms =>
    ⟨parseArName data o strtab, data.drop (o + 60), m.data.length, o, false⟩ ::
      recorded data strtab (nextOffset o m.data.length) ms

section

variable (data : List UInt8) (strtab : Option (Nat × Nat)) (o : Nat) (ms : List Member)

theorem memberOffsets_cons (m : Member) :
    memberOffsets o (m :: ms) = o :: memberOffsets (nextOffset o m.data.length) ms := rfl

theorem recorded_offsets : (recorded data strtab o ms).map ArchiveMember.offset = memberOffsets o ms := by
  induction ms generalizing o with
  | nil => rfl
  | cons m ms ih => rw [recorded, map_cons, ih, memberOffsets_cons]

theorem recorded_sizes :
    (recorded data strtab o ms).map ArchiveMember.size = ms.map fun m => m.data.length := by
  induction ms generalizing o with
  | nil => rfl
  | cons m ms ih => rw [recorded, map_cons, ih, map_cons]

theorem recorded_bytes (hrest : data.drop o = ms.flatMap writeMember) :
    (recorded data strtab o ms).map (fun m => m.data.take m.size) = ms.map Member.data := by
  induction ms generalizing o with
  | nil => rfl
  | cons m ms ih =>
    rw [flatMap_cons] at hrest
    have hnext : data.drop (nextOffset o m.data.length) = ms.flatMap writeMember := by
      rw [← writeMember_length]
      exact drop_past hrest rfl
    have hbytes : (data.drop (o + 60)).take m.data.length = m.data := by
      rw [← drop_drop, hrest, writeMember, append_assoc, append_assoc,
        drop_left' (writeHeader_length _ _), take_left]
    rw [recorded, map_cons, ih _ hnext, map_cons, hbytes]

end

/-- A member whose header is read as it was meant. -/
structure Legible (m : Member) : Prop where
  name : m.name ≠ []
  slash : (0x2f : UInt8) ∉ m.name
  size : m.data.length < 10 ^ 10

theorem scanMembers_written {ms : List Member} (hrest : data.drop o = ms.flatMap writeMember)
    (hle : o ≤ data.length) (heven : o % 2 = 0) (hlen : data.length < 2 ^ 63)
    (hleg : ∀ m ∈ ms, Legible m) (hfuel : ms.length < fuel) :
    scanMembers data fuel o sc = .ok { sc with members := sc.members ++ recorded data sc.strtab o ms } := by
  induction ms generalizing fuel o sc with
  | nil =>
    obtain ⟨fuel, rfl⟩ := Nat.exists_eq_succ_of_ne_zero (Nat.ne_zero_of_lt hfuel)
    have hend : data.length ≤ o := drop_eq_nil_iff.1 hrest
    rw [scanMembers, if_neg (by omega)]
    simp [recorded]
  | cons m ms ih =>
    obtain ⟨fuel, rfl⟩ := Nat.exists_eq_succ_of_ne_zero (Nat.ne_zero_of_lt hfuel)
    have hm := hleg m mem_cons_self
    rw [flatMap_cons] at hrest
    have hhead : data.drop o =
        writeHeader m.name m.data.length ++ (m.data ++ padding m.data.length ++ ms.flatMap writeMember) := by
      simp [hrest, writeMember]
    have hnext : data.drop (nextOffset o m.data.length) = ms.flatMap writeMember := by
      rw [← writeMember_length]
      exact drop_past hrest rfl
    have hroom : nextOffset o m.data.length ≤ data.length := by
      have := congrArg List.length hrest
      rw [length_drop, length_append] at this
      rw [← writeMember_length]
      omega
    have hmember := header_member hm.name hm.slash hhead
    have hscan : scanHeader data o m.data.length sc = { sc with
        members := sc.members ++ [⟨parseArName data o sc.strtab, data.drop (o + 60), m.data.length, o, false⟩] } := by
      simp only [scanHeader, hmember, false_and, if_false]
    have hsize := hm.size
    rw [scanMembers_step hhead (by omega) hlen, sizeRead_fits hsize,
      evenEnd_eq heven (by omega), hscan,
      ih hnext hroom (nextOffset_even _ heven) (fun m hm => hleg m (mem_cons_of_mem _ hm))
        (Nat.lt_of_succ_lt_succ hfuel)]
    simp [recorded]

end

end Slopix.Ar
