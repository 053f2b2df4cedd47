import Slopix.Ar.Globals
import Slopix.Ar.Scan

/-!
# From `ar` to the linker

An archive that `ar` writes is opened by `archive_open`. The members come back, and the index leads from each
global symbol to a member that defines it, exactly when every file has a base name and the archive is not longer
than what one `read` gives: both programs call `read` once for a file and take fewer bytes for a failure.
-/

namespace Slopix.Ar

open Lib Elf Libc Ld List Nat

/-! ## The index -/

section

variable {data rest : List UInt8} {o v : Nat} {ms : List ArchiveMember}

@[simp] theorem be32_length (v : Nat) : (be32 v).length = 4 := rfl

theorem readBe32_written (h : data.drop o = be32 v ++ rest) : readBe32 data o = v % 2 ^ 32 := by
  have hbyte : ∀ k, data.getD (o + k) 0 = (be32 v ++ rest).getD k 0 := by
    intro k
    rw [getD_drop_add, h]
  have h0 := hbyte 0
  rw [add_zero] at h0
  rw [readBe32, h0, hbyte 1, hbyte 2, hbyte 3]
  simp only [be32, cons_append, getD_cons_zero, getD_cons_succ, UInt8.toNat_ofNat']
  omega

/-- The entries of an index, for headers at the given offsets. -/
def entries (ms : List ArchiveMember) (offset : Nat → Nat) (symbols : List (Name × Nat)) :
    List ArchiveSymbol :=
  symbols.map fun s => ⟨s.1, memberIndex ms (offset s.2 % 2 ^ 32)⟩

theorem arSymbols_written {symbols : List (Name × Nat)} {offset : Nat → Nat} {names : Nat}
    {rest' : List UInt8} (hzero : ∀ s ∈ symbols, (0 : UInt8) ∉ s.1)
    (hoff : data.drop o = (symbols.flatMap fun s => be32 (offset s.2)) ++ rest)
    (hnames : data.drop names = indexNames symbols ++ rest') :
    arSymbols data ms symbols.length o names = entries ms offset symbols := by
  induction symbols generalizing o names with
  | nil => rfl
  | cons s symbols ih =>
    rw [indexNames, flatMap_cons, append_assoc, append_assoc] at hnames
    have hname : cstrAt data names = s.1 := by
      rw [cstrAt, hnames, takeWhile_append_of_pos]
      · simp
      · intro c hc
        have := hzero s mem_cons_self
        simpa using fun h0 : c = 0 => this (h0 ▸ hc)
    rw [length_cons, arSymbols, hname, readBe32_written hoff]
    rw [ih fun s hs => hzero s (mem_cons_of_mem _ hs)]
    · rfl
    · exact drop_past hoff (be32_length _)
    · rw [add_assoc]
      rw [← append_assoc] at hnames
      exact drop_past hnames (by simp)

end

/-! ## Where things stand in the archive -/

section

variable {ms : List Member} {k j o : Nat} {m : Member}

/-- The symbols of all members, each with the number of its member. -/
abbrev symbolsOf (ms : List Member) : List (Name × Nat) := allSymbols 0 ms

/-- The size of the index without its padding. -/
def indexSize (ms : List Member) : Nat :=
  4 + (symbolsOf ms).length * 4 + (indexNames (symbolsOf ms)).length

/-- Where the header of each member starts. -/
def headerOffsets (ms : List Member) : List Nat :=
  memberOffsets (firstOffset (symbolsOf ms) (indexSize ms)) ms

/-- The archive of these members. -/
def archiveBytes (ms : List Member) : List UInt8 :=
  arMagic ++ writeIndex (symbolsOf ms) (headerOffsets ms) (indexSize ms) ++ ms.flatMap writeMember

theorem mem_allSymbols {s : Name × Nat} :
    s ∈ allSymbols k ms ↔ ∃ j m, ms[j]? = some m ∧ s.2 = k + j ∧ s.1 ∈ extractSymbols m.data := by
  induction ms generalizing k with
  | nil => simp [allSymbols]
  | cons m ms ih =>
    rw [allSymbols, mem_append, ih, mem_map]
    constructor
    · rintro (⟨n, hn, rfl⟩ | ⟨j, m', hj, hs, hn⟩)
      · exact ⟨0, m, rfl, rfl, hn⟩
      · exact ⟨j + 1, m', hj, by omega, hn⟩
    rintro ⟨j, m', hj, hs, hn⟩
    cases j with
    | zero =>
      obtain rfl : m = m' := by simpa using hj
      exact .inl ⟨s.1, hn, Prod.ext rfl hs.symm⟩
    | succ j => exact .inr ⟨j, m', hj, by omega, hn⟩

@[simp] theorem length_memberOffsets (o : Nat) (ms : List Member) :
    (memberOffsets o ms).length = ms.length := by
  induction ms generalizing o with
  | nil => rfl
  | cons m ms ih => rw [memberOffsets_cons, length_cons, ih, length_cons]

theorem le_memberOffsets : ∀ x ∈ memberOffsets o ms, o ≤ x := by
  induction ms generalizing o with
  | nil => simp [memberOffsets]
  | cons m ms ih =>
    intro x hx
    rcases mem_cons.1 hx with rfl | hx
    · exact le_refl _
    · exact le_trans (by omega) (ih x hx)

theorem memberOffsets_nodup : (memberOffsets o ms).Nodup := by
  induction ms generalizing o with
  | nil => exact nodup_nil
  | cons m ms ih =>
    refine nodup_cons.2 ⟨fun hmem => ?_, ih⟩
    have hle := le_memberOffsets o hmem
    omega

theorem drop_memberOffsets {data : List UInt8} {x : Nat} (hrest : data.drop o = ms.flatMap writeMember)
    (hx : (memberOffsets o ms)[k]? = some x) (hm : ms[k]? = some m) :
    ∃ rest, data.drop x = writeMember m ++ rest := by
  induction ms generalizing o k with
  | nil => simp at hm
  | cons m' ms ih =>
    cases k with
    | zero =>
      obtain rfl : m' = m := by simpa using hm
      obtain rfl : o = x := by simpa [memberOffsets] using hx
      exact ⟨_, hrest⟩
    | succ k =>
      refine ih (o := nextOffset o m'.data.length) ?_ hx hm
      rw [← writeMember_length]
      exact drop_past hrest rfl

theorem writeIndex_length (ms : List Member) :
    8 + (writeIndex (symbolsOf ms) (headerOffsets ms) (indexSize ms)).length =
      firstOffset (symbolsOf ms) (indexSize ms) := by
  unfold writeIndex firstOffset
  split
  · rfl
  have hflat : ((symbolsOf ms).flatMap fun s => be32 ((headerOffsets ms).getD s.2 0)).length =
      (symbolsOf ms).length * 4 := by simp [List.length_flatMap, mul_comm]
  simp only [length_append, writeHeader_length, be32_length, hflat, padding_length, indexSize]
  rfl

theorem firstOffset_even (symbols : List (Name × Nat)) (size : Nat) : firstOffset symbols size % 2 = 0 := by
  unfold firstOffset
  split
  · rfl
  · split <;> omega

theorem drop_first (ms : List Member) :
    (archiveBytes ms).drop (firstOffset (symbolsOf ms) (indexSize ms)) = ms.flatMap writeMember := by
  rw [archiveBytes, drop_left']
  rw [length_append, ← writeIndex_length]
  rfl

theorem first_le (ms : List Member) :
    firstOffset (symbolsOf ms) (indexSize ms) ≤ (archiveBytes ms).length := by
  rw [archiveBytes, length_append, length_append, ← writeIndex_length]
  exact le_add_right _ _

theorem writeArchive_eq (hcount : 4 + (symbolsOf ms).length * 4 < 2 ^ 31) :
    writeArchive ms = .ok (archiveBytes ms) := by
  have hsize : symtabSize (symbolsOf ms) = .ok (indexSize ms) := if_pos hcount
  rw [writeArchive, hsize]
  rfl

theorem writeArchive_ok {out : List UInt8} (h : writeArchive ms = .ok out) :
    4 + (symbolsOf ms).length * 4 < 2 ^ 31 := by
  by_contra hover
  have hsize : symtabSize (symbolsOf ms) = .error .overflow := if_neg hover
  rw [writeArchive, hsize] at h
  cases h

end

/-! ## Opening what was written -/

section

variable {ms : List Member} {data : List UInt8} {path : Name} {sc : ArScan} {ar : Archive}

theorem archiveOpen_of_scan (hmagic : data.take 8 = arMagic)
    (hscan : scanMembers data (data.length + 1) 8 ⟨none, none, []⟩ = .ok sc) :
    archiveOpen path data = .ok ⟨path, sc.members, arIndex data sc, arIndex_indexed data sc⟩ := by
  have hlen : ¬ data.length < arMagic.length := by
    have := congrArg length hmagic
    rw [length_take] at this
    omega
  rw [archiveOpen, if_neg hlen, if_neg (not_not.2 hmagic), hscan]

theorem archiveOpen_recorded (h : archiveOpen path data = .ok ar) :
    ∀ m ∈ ar.members, Recorded data m := by
  unfold archiveOpen at h
  split at h
  · cases h
  split at h
  · cases h
  cases hscan : scanMembers data (data.length + 1) 8 ⟨none, none, []⟩ with
  | error e =>
    rw [hscan] at h
    cases h
  | ok sc =>
    rw [hscan] at h
    obtain rfl : _ = ar := Except.ok.inj h
    exact scanMembers_recorded hscan (by simp)

theorem extractSymbols_zero (data : List UInt8) : ∀ s ∈ extractSymbols data, (0 : UInt8) ∉ s := by
  intro s hs hzero
  unfold extractSymbols at hs
  dsimp only at hs
  split at hs
  · simp at hs
  split at hs
  · simp at hs
  split at hs
  · simp at hs
  split at hs
  · simp at hs
  obtain ⟨j, -, hj⟩ := mem_filterMap.1 hs
  split at hj
  · obtain rfl := Option.some.inj hj
    simpa using mem_takeWhile_imp hzero
  · cases hj

theorem symbolsOf_zero (ms : List Member) : ∀ s ∈ symbolsOf ms, (0 : UInt8) ∉ s.1 := by
  intro s hs
  obtain ⟨j, m, -, -, hn⟩ := mem_allSymbols.1 hs
  exact extractSymbols_zero m.data s.1 hn

theorem magic_written (ms : List Member) : (archiveBytes ms).take 8 = arMagic := by
  rw [archiveBytes, append_assoc, take_left' (by rfl)]

theorem length_le_written (ms : List Member) : ms.length ≤ (ms.flatMap writeMember).length := by
  induction ms with
  | nil => exact le_refl 0
  | cons m ms ih =>
    rw [length_cons, flatMap_cons, length_append, writeMember, length_append,
      length_append, writeHeader_length]
    omega

/-- The linker opens what `ar` has written and finds each member and each symbol. -/
theorem archiveOpen_written (hleg : ∀ m ∈ ms, Legible m) (hcount : 4 + (symbolsOf ms).length * 4 < 2 ^ 31)
    (hindex : symbolsOf ms ≠ [] → indexSize ms < 10 ^ 10) (hlen : (archiveBytes ms).length < 2 ^ 63) :
    ∃ ar, archiveOpen path (archiveBytes ms) = .ok ar ∧
      ar.members = recorded (archiveBytes ms) none (firstOffset (symbolsOf ms) (indexSize ms)) ms ∧
      ar.symbols = entries ar.members (fun j => (headerOffsets ms).getD j 0) (symbolsOf ms) := by
  have hfirst := first_le ms
  have heven := firstOffset_even (symbolsOf ms) (indexSize ms)
  have hfuel := length_le_written ms
  have hall : (ms.flatMap writeMember).length ≤ (archiveBytes ms).length := by
    rw [archiveBytes, length_append]
    exact le_add_left _ _
  by_cases hnil : symbolsOf ms = []
  · have h8 : firstOffset (symbolsOf ms) (indexSize ms) = 8 := by rw [firstOffset, if_pos hnil]
    have hscan := @scanMembers_written _ _ _ ⟨none, none, []⟩ _ (drop_first ms) hfirst heven hlen hleg
      (lt_succ_of_le (le_trans hfuel hall))
    rw [h8] at hscan ⊢
    refine ⟨_, archiveOpen_of_scan (magic_written ms) hscan, rfl, ?_⟩
    rw [hnil]
    rfl
  have hsize := hindex hnil
  have hfirst68 : firstOffset (symbolsOf ms) (indexSize ms) = nextOffset 8 (indexSize ms) := by
    rw [firstOffset, if_neg hnil, nextOffset]
    omega
  have hhead : (archiveBytes ms).drop 8 = writeHeader [0x2f] (indexSize ms) ++
      (be32 (symbolsOf ms).length ++
        (((symbolsOf ms).flatMap fun s => be32 ((headerOffsets ms).getD s.2 0)) ++
          (indexNames (symbolsOf ms) ++ (padding (indexSize ms) ++ ms.flatMap writeMember)))) := by
    rw [archiveBytes, append_assoc, drop_left' (by rfl), writeIndex, if_neg hnil]
    simp only [append_assoc]
  have hscanIndex : scanHeader (archiveBytes ms) 8 (indexSize ms) ⟨none, none, []⟩ =
      ⟨some (68, indexSize ms), none, []⟩ :=
    if_pos (header_index (.inr rfl) hhead)
  have hscan : scanMembers (archiveBytes ms) ((archiveBytes ms).length + 1) 8 ⟨none, none, []⟩ =
      .ok ⟨some (68, indexSize ms), none,
        recorded (archiveBytes ms) none (firstOffset (symbolsOf ms) (indexSize ms)) ms⟩ := by
    rw [scanMembers_step hhead (by omega) hlen, sizeRead_fits hsize,
      evenEnd_eq (by decide) (by rw [← hfirst68]; omega), hscanIndex, ← hfirst68,
      scanMembers_written (drop_first ms) hfirst heven hlen hleg]
    · rfl
    have h68 : 68 ≤ firstOffset (symbolsOf ms) (indexSize ms) := by
      rw [hfirst68, nextOffset]
      omega
    have hsum := congrArg length (drop_first ms)
    rw [length_drop] at hsum
    omega
  refine ⟨_, archiveOpen_of_scan (magic_written ms) hscan, rfl, ?_⟩
  have h68 := drop_past hhead (writeHeader_length _ _)
  have h72 := drop_past h68 (be32_length _)
  have hflat : ((symbolsOf ms).flatMap fun s => be32 ((headerOffsets ms).getD s.2 0)).length =
      (symbolsOf ms).length * 4 := by simp [List.length_flatMap, mul_comm]
  have hcountRead : readBe32 (archiveBytes ms) 68 = (symbolsOf ms).length := by
    rw [readBe32_written h68, mod_eq_of_lt (by omega)]
  have hnames := drop_past h72 hflat
  have hge : 4 + (symbolsOf ms).length * 4 ≤ indexSize ms := le_add_right _ _
  dsimp only [arIndex]
  rw [hcountRead, if_pos (by omega), if_pos (by omega), mod_eq_of_lt (by omega)]
  exact arSymbols_written (symbolsOf_zero ms) h72 hnames

end

/-! ## The round trip -/

/-- The members are back in their order at the offsets of their headers, with their sizes and their bytes;
the names in the index are those of the global symbols, and each entry leads to a member that defines
its name. -/
structure RoundTrips (ms : List Member) (ar : Archive) : Prop where
  offsets : ar.members.map ArchiveMember.offset = headerOffsets ms
  sizes : ar.members.map ArchiveMember.size = ms.map fun m => m.data.length
  bytes : (ar.members.map fun m => m.data.take m.size) = ms.map Member.data
  names : ∀ s, s ∈ ar.symbols.map ArchiveSymbol.name ↔ ∃ m ∈ ms, s ∈ globalsOf m.data
  mapped : ∀ a ∈ ar.symbols, ∃ k m, a.memberIdx = some k ∧ ms[k]? = some m ∧ a.name ∈ globalsOf m.data

section

variable {ms : List Member} {path : Name} {ar : Archive}

theorem memberIndex_iff {members : List ArchiveMember} {v k : Nat}
    (hnodup : (members.map ArchiveMember.offset).Nodup) :
    memberIndex members v = some k ↔ (members.map ArchiveMember.offset)[k]? = some v := by
  rw [memberIndex, List.findIdx?_eq_some_iff_getElem]
  constructor
  · rintro ⟨hlt, heq, -⟩
    rw [List.getElem?_map, List.getElem?_eq_getElem hlt, Option.map_some, beq_iff_eq.1 heq]
  intro hget
  obtain ⟨hlt, heq⟩ := List.getElem?_eq_some_iff.1 hget
  rw [getElem_map] at heq
  refine ⟨by simpa using hlt, beq_iff_eq.2 heq, fun j hj hv => ?_⟩
  have hsame : (members.map ArchiveMember.offset)[j] = (members.map ArchiveMember.offset)[k] := by
    rw [getElem_map, getElem_map, heq, beq_iff_eq.1 hv]
  exact absurd ((hnodup.getElem_inj_iff).1 hsame) (Nat.ne_of_lt hj)

theorem headerOffsets_get {k : Nat} {m : Member} (hm : ms[k]? = some m) :
    (headerOffsets ms)[k]? = some ((headerOffsets ms).getD k 0) := by
  obtain ⟨hlt, -⟩ := List.getElem?_eq_some_iff.1 hm
  have hlt' : k < (headerOffsets ms).length := by simpa [headerOffsets] using hlt
  rw [List.getElem?_eq_getElem hlt', getD_eq_getElem _ _ hlt']

theorem mem_symbolsOf (hobj : ∀ m ∈ ms, IsObject m.data) {s : Name × Nat} :
    s ∈ symbolsOf ms ↔ ∃ m, ms[s.2]? = some m ∧ s.1 ∈ globalsOf m.data := by
  rw [mem_allSymbols]
  constructor
  · rintro ⟨j, m, hj, hs, hn⟩
    obtain rfl : s.2 = j := by omega
    exact ⟨m, hj, extractSymbols_eq (hobj m (mem_of_getElem? hj)) ▸ hn⟩
  · rintro ⟨m, hj, hn⟩
    exact ⟨s.2, m, hj, (zero_add _).symm, (extractSymbols_eq (hobj m (mem_of_getElem? hj))).symm ▸ hn⟩

theorem le_archiveBytes {m : Member} (hm : m ∈ ms) : m.data.length ≤ (archiveBytes ms).length := by
  obtain ⟨front, back, rfl⟩ := append_of_mem hm
  rw [archiveBytes, flatMap_append, flatMap_cons]
  simp only [writeMember, length_append]
  omega

theorem headerOffsets_lt {k : Nat} {m : Member} (hm : ms[k]? = some m) :
    (headerOffsets ms).getD k 0 < (archiveBytes ms).length := by
  obtain ⟨rest, hrest⟩ := drop_memberOffsets (drop_first ms) (headerOffsets_get hm) hm
  by_contra hge
  rw [drop_eq_nil_of_le (Nat.le_of_not_lt hge)] at hrest
  have hlen := congrArg length hrest
  simp only [writeMember, length_append, writeHeader_length, length_nil] at hlen
  omega

theorem indexSize_le : indexSize ms ≤ max 4 (archiveBytes ms).length := by
  by_cases hnil : symbolsOf ms = []
  · rw [indexSize, hnil]
    exact le_max_left 4 _
  · have hfirst := first_le ms
    rw [firstOffset, if_neg hnil] at hfirst
    omega

/-- Named members in an archive below 2 GiB come back. -/
theorem roundTrips_of_length (hobj : ∀ m ∈ ms, IsObject m.data) (hslash : ∀ m ∈ ms, (0x2f : UInt8) ∉ m.name)
    (hnames : ∀ m ∈ ms, m.name ≠ []) (hlen : (archiveBytes ms).length < 2 ^ 31) :
    4 + (symbolsOf ms).length * 4 < 2 ^ 31 ∧
      ∃ ar, archiveOpen path (archiveBytes ms) = .ok ar ∧ RoundTrips ms ar := by
  have hindex := @indexSize_le ms
  have hcount : 4 + (symbolsOf ms).length * 4 < 2 ^ 31 := by
    have hle : 4 + (symbolsOf ms).length * 4 ≤ indexSize ms := le_add_right _ _
    omega
  obtain ⟨ar, hopen, hmembers, hsymbols⟩ := @archiveOpen_written _ path
    (fun m hm => ⟨hnames m hm, hslash m hm, (le_archiveBytes hm).trans_lt (by omega)⟩) hcount
    (fun _ => hindex.trans_lt (by omega)) (by omega)
  have hoffsets : ar.members.map ArchiveMember.offset = headerOffsets ms := by
    rw [hmembers, recorded_offsets]
    rfl
  refine ⟨hcount, ar, hopen, hoffsets, ?_, ?_, fun s => ?_, fun a ha => ?_⟩
  · rw [hmembers, recorded_sizes]
  · rw [hmembers, recorded_bytes _ _ _ _ (drop_first ms)]
  · rw [hsymbols, entries, map_map, mem_map]
    constructor
    · rintro ⟨x, hx, rfl⟩
      obtain ⟨m, hm, hn⟩ := (mem_symbolsOf hobj).1 hx
      exact ⟨m, mem_of_getElem? hm, hn⟩
    · rintro ⟨m, hm, hn⟩
      obtain ⟨k, hk⟩ := mem_iff_getElem?.1 hm
      exact ⟨(s, k), (mem_symbolsOf hobj).2 ⟨m, hk, hn⟩, rfl⟩
  rw [hsymbols] at ha
  obtain ⟨x, hx, rfl⟩ := mem_map.1 ha
  obtain ⟨m, hm, hn⟩ := (mem_symbolsOf hobj).1 hx
  -- below 2 GiB the 32 bits of an entry hold the whole offset
  have hlt := (headerOffsets_lt hm).trans (hlen.trans (by decide : 2 ^ 31 < 2 ^ 32))
  refine ⟨x.2, m, ?_, hm, hn⟩
  rw [memberIndex_iff (by rw [hoffsets]; exact memberOffsets_nodup), hoffsets, headerOffsets_get hm, mod_eq_of_lt hlt]

/-- A member that comes back has a name: without one its header is that of an index. -/
theorem name_of_roundTrips (hopen : archiveOpen path (archiveBytes ms) = .ok ar) (h : RoundTrips ms ar) :
    ∀ m ∈ ms, m.name ≠ [] := by
  intro m hm hnil
  obtain ⟨k, hk⟩ := mem_iff_getElem?.1 hm
  obtain ⟨rest, hrest⟩ := drop_memberOffsets (drop_first ms) (headerOffsets_get hk) hk
  have hget := headerOffsets_get hk
  rw [← h.offsets, getElem?_map] at hget
  obtain ⟨am, ham, hoff⟩ := Option.map_eq_some_iff.1 hget
  rw [h.offsets] at hoff
  rw [writeMember, append_assoc, append_assoc] at hrest
  exact (hoff ▸ (archiveOpen_recorded hopen am (mem_of_getElem? ham)).member) (header_index (.inl hnil) hrest)

end

/-! ## The length of the archive -/

/-- A size made even. -/
def evenSize (n : Nat) : Nat := n + n % 2

/-- How long an archive of files is: 8 bytes, the index if there are global symbols, and the files; the index and each
file have a header of 60 bytes and are made even. The index has 4 bytes, and for each symbol 4 more and its name with a
NUL. -/
def archiveSize (files : List (List UInt8)) : Nat :=
  let names := files.flatMap globalsOf
  8 + (if names = [] then 0 else 60 + evenSize (4 + (names.map fun s => s.length + 5).sum)) +
    (files.map fun data => 60 + evenSize data.length).sum

section

variable {ms : List Member}

theorem allSymbols_names (k : Nat) (ms : List Member) :
    (allSymbols k ms).map Prod.fst = ms.flatMap fun m => extractSymbols m.data := by
  induction ms generalizing k with
  | nil => rfl
  | cons m ms ih => simp [allSymbols, ih, Function.comp_def]

theorem padded_length (n : Nat) : (n + if n % 2 = 1 then 1 else 0) = evenSize n := by
  unfold evenSize
  split <;> omega

theorem archiveBytes_length (hobj : ∀ m ∈ ms, IsObject m.data) :
    (archiveBytes ms).length = archiveSize (ms.map Member.data) := by
  have hnames : (symbolsOf ms).map Prod.fst = (ms.map Member.data).flatMap globalsOf := by
    rw [allSymbols_names, flatMap_map]
    exact flatMap_congr fun m hm => extractSymbols_eq (hobj m hm)
  have hsize : indexSize ms = 4 + (((ms.map Member.data).flatMap globalsOf).map fun s => s.length + 5).sum := by
    rw [indexSize, indexNames, ← hnames, map_map, List.length_flatMap, Nat.add_assoc]
    congr 1
    induction symbolsOf ms with
    | nil => rfl
    | cons s l ih =>
      simp only [length_cons, map_cons, sum_cons, length_append, length_nil, Function.comp_apply] at ih ⊢
      omega
  have hmembers : (ms.flatMap writeMember).length = ((ms.map Member.data).map fun data => 60 + evenSize data.length).sum := by
    rw [List.length_flatMap, map_map]
    refine congrArg sum (map_congr_left fun m _ => ?_)
    have hone := writeMember_length m 0
    have heven := padded_length m.data.length
    simp only [nextOffset, Function.comp_apply] at hone ⊢
    omega
  rw [archiveBytes, length_append, length_append, hmembers, archiveSize, ← hsize]
  have hindex := writeIndex_length ms
  have heven := padded_length (indexSize ms)
  have hnil : symbolsOf ms = [] ↔ (ms.map Member.data).flatMap globalsOf = [] := by
    rw [← hnames, map_eq_nil_iff]
  rw [firstOffset] at hindex
  simp only [← hnil]
  have hmagic : arMagic.length = 8 := rfl
  split at hindex <;> rename_i h <;> simp only [h, if_true, if_false] at hindex ⊢ <;> omega

end

/-! ## From the command line -/

/-- The members for files with their paths. -/
def membersOf (inputs : List (Name × FileData)) : List Member :=
  inputs.map fun x => ⟨baseName x.1, x.2.data⟩

/-- The arguments of `ar`. -/
def arguments (archive : Name) (inputs : List (Name × FileData)) : List Name :=
  [0x72, 0x63, 0x73] :: archive :: inputs.map Prod.fst

section

variable {readMax : Nat} {file : Name → Option FileData} {archive : Name} {inputs : List (Name × FileData)}

/-- With files that `read` gives at once. -/
theorem arMain_eq (hne : inputs ≠ []) (hfile : ∀ x ∈ inputs, file x.1 = some x.2)
    (hread : ∀ x ∈ inputs, x.2.data.length ≤ readMax) : arMain readMax file (arguments archive inputs) =
      (writeArchive (membersOf inputs)).map fun bytes => (archive, bytes) := by
  have hadd : addMembers readMax file (inputs.map Prod.fst) = .ok (membersOf inputs) := by
    clear hne
    induction inputs with
    | nil => rfl
    | cons x inputs ih =>
      have hall : min x.2.data.length readMax = x.2.data.length := Nat.min_eq_left (hread x mem_cons_self)
      rw [map_cons, addMembers, hfile x mem_cons_self]
      dsimp only
      rw [if_neg (not_not.2 hall), ih (fun y hy => hfile y (mem_cons_of_mem _ hy)) fun y hy => hread y (mem_cons_of_mem _ hy)]
      rfl
  cases inputs with
  | nil => exact absurd rfl hne
  | cons x inputs =>
    rw [arguments, map_cons, arMain, if_neg (by decide)]
    rw [map_cons] at hadd
    rw [hadd]
    dsimp only
    cases writeArchive (membersOf (x :: inputs)) with
    | error e => rfl
    | ok bytes => rfl

/-- A file that `read` does not give at once ends `ar`. -/
theorem read_of_addMembers {ms : List Member} (hfile : ∀ x ∈ inputs, file x.1 = some x.2)
    (h : addMembers readMax file (inputs.map Prod.fst) = .ok ms) : ∀ x ∈ inputs, x.2.data.length ≤ readMax := by
  induction inputs generalizing ms with
  | nil => nofun
  | cons x inputs ih =>
    rw [map_cons, addMembers, hfile x mem_cons_self] at h
    dsimp only at h
    split at h
    · cases h
    rename_i hall
    cases hrest : addMembers readMax file (inputs.map Prod.fst) with
    | error e =>
      rw [hrest] at h
      cases h
    | ok ms' =>
      refine forall_mem_cons.2 ⟨by omega, ih (fun y hy => hfile y (mem_cons_of_mem _ hy)) hrest⟩

theorem read_of_arMain (hne : inputs ≠ []) (hfile : ∀ x ∈ inputs, file x.1 = some x.2) {out : Name × List UInt8}
    (h : arMain readMax file (arguments archive inputs) = .ok out) : ∀ x ∈ inputs, x.2.data.length ≤ readMax := by
  obtain ⟨x, inputs, rfl⟩ := exists_cons_of_ne_nil hne
  rw [arguments, map_cons, arMain, if_neg (by decide)] at h
  cases hadd : addMembers readMax file (x.1 :: inputs.map Prod.fst) with
  | error e =>
    rw [hadd] at h
    cases h
  | ok ms => exact @read_of_addMembers _ _ (x :: inputs) _ hfile hadd

theorem membersOf_slash (inputs : List (Name × FileData)) :
    ∀ m ∈ membersOf inputs, (0x2f : UInt8) ∉ m.name := by
  intro m hm
  obtain ⟨x, -, rfl⟩ := mem_map.1 hm
  exact baseName_slash x.1

/-- What `ar` writes for these files, the linker opens, and the round trip is complete. -/
def ArRoundTrip (readMax : Nat) (file : Name → Option FileData) (archive : Name) (inputs : List (Name × FileData)) : Prop :=
  ∃ bytes ar, arMain readMax file (arguments archive inputs) = .ok (archive, bytes) ∧
    openArchive readMax archive bytes = .ok ar ∧ RoundTrips (membersOf inputs) ar

theorem membersOf_object (hobj : ∀ x ∈ inputs, IsObject x.2.data) :
    ∀ m ∈ membersOf inputs, IsObject m.data := by
  intro m hm
  obtain ⟨x, hx, rfl⟩ := mem_map.1 hm
  exact hobj x hx

theorem membersOf_length (hobj : ∀ x ∈ inputs, IsObject x.2.data) :
    (archiveBytes (membersOf inputs)).length = archiveSize (inputs.map fun x => x.2.data) := by
  rw [archiveBytes_length (membersOf_object hobj), membersOf, map_map]
  rfl

theorem openArchive_ok {path : Name} {data : List UInt8} {ar : Archive} (h : openArchive readMax path data = .ok ar) :
    data.length ≤ readMax ∧ archiveOpen path data = .ok ar := by
  unfold openArchive at h
  split at h
  · cases h
  rename_i hread
  refine ⟨?_, h⟩
  by_contra hmore
  have hshort : data.length < arMagic.length := by
    by_contra hge
    exact hread ⟨Nat.le_of_not_lt hge, by omega⟩
  rw [archiveOpen, if_pos hshort] at h
  cases h

theorem fits_of_arRoundTrip (hne : inputs ≠ []) (hfile : ∀ x ∈ inputs, file x.1 = some x.2)
    (hobj : ∀ x ∈ inputs, IsObject x.2.data) (h : ArRoundTrip readMax file archive inputs) :
    (∀ x ∈ inputs, baseName x.1 ≠ []) ∧ archiveSize (inputs.map fun x => x.2.data) ≤ readMax := by
  obtain ⟨bytes, ar, hmain, hopen, hround⟩ := h
  have hread := read_of_arMain hne hfile hmain
  rw [arMain_eq hne hfile hread] at hmain
  cases hwrite : writeArchive (membersOf inputs) with
  | error e =>
    rw [hwrite] at hmain
    cases hmain
  | ok out =>
    rw [writeArchive_eq (writeArchive_ok hwrite)] at hmain
    obtain rfl : archiveBytes (membersOf inputs) = bytes := (Prod.mk.inj (Except.ok.inj hmain)).2
    obtain ⟨hle, hopen⟩ := openArchive_ok hopen
    refine ⟨fun x hx => name_of_roundTrips hopen hround _ (mem_map_of_mem hx), ?_⟩
    rwa [← membersOf_length hobj]

/-- For object files, and a `read` that gives less than 2 GiB, the round trip succeeds exactly when every file has a base
name and `read` gives the whole archive. -/
theorem archive_round_trip (hmax : readMax < 2 ^ 31) (hne : inputs ≠ []) (hfile : ∀ x ∈ inputs, file x.1 = some x.2)
    (hobj : ∀ x ∈ inputs, IsObject x.2.data) : ArRoundTrip readMax file archive inputs ↔
      (∀ x ∈ inputs, baseName x.1 ≠ []) ∧ archiveSize (inputs.map fun x => x.2.data) ≤ readMax := by
  refine ⟨fits_of_arRoundTrip hne hfile hobj, fun ⟨hnames, hlen⟩ => ?_⟩
  rw [← membersOf_length hobj] at hlen
  obtain ⟨hcount, ar, hopen, hround⟩ := @roundTrips_of_length _ archive (membersOf_object hobj) (membersOf_slash inputs)
    (fun m hm => by obtain ⟨x, hx, rfl⟩ := mem_map.1 hm; exact hnames x hx) (by omega)
  have hread : ∀ x ∈ inputs, x.2.data.length ≤ readMax := fun x hx =>
    (@le_archiveBytes (membersOf inputs) _ (mem_map_of_mem hx)).trans hlen
  refine ⟨_, ar, ?_, (if_neg fun h => h.2 (Nat.min_eq_left hlen)).trans hopen, hround⟩
  rw [arMain_eq hne hfile hread, writeArchive_eq hcount]
  rfl

end

/-! ## Large files -/

section

/-- The header of an object with `shnum` sections. -/
def objectHeader (shoff shnum : Nat) : Elf64Ehdr where
  eIdent := elfIdent
  eType := etRel
  eMachine := emAarch64
  eVersion := 1
  eEntry := 0
  ePhoff := 0
  eShoff := shoff
  eFlags := 0
  eEhsize := ehdrSize
  ePhentsize := 0
  ePhnum := 0
  eShentsize := shdrSize
  eShnum := shnum
  eShstrndx := 0

/-- An object with `n` bytes and no section. -/
def bareObject (n : Nat) : List UInt8 := (objectHeader 0 0).encode ++ List.replicate n 0

/-- An object that defines `f`. -/
def smallObject : List UInt8 :=
  (objectHeader 64 2).encode ++ Elf64Shdr.encode ⟨0, shtSymtab, 0, 0, 192, 48, 1, 1, 8, 24⟩ ++
    Elf64Shdr.encode ⟨0, shtStrtab, 0, 0, 240, 3, 0, 0, 1, 0⟩ ++ Elf64Sym.encode ⟨0, 0, 0, 0, 0, 0⟩ ++
    Elf64Sym.encode ⟨1, stInfoOf stbGlobal sttNotype, 0, 1, 0, 0⟩ ++ [0, 0x66, 0]

theorem smallObject_isObject : IsObject smallObject where
  accepted := by
    have hok : (elfReadMemory smallObject smallObject.length []).isOk = true := by decide +kernel
    cases hread : elfReadMemory smallObject smallObject.length [] with
    | error e =>
      rw [hread] at hok
      cases hok
    | ok obj => exact ⟨obj, rfl⟩
  headers := by decide +kernel
  strings := by decide +kernel

/-- What one `read` gives on Linux. -/
def linuxRead : Nat := 2147479552

variable (n : Nat)

theorem bareObject_header : headerOf (bareObject n) = objectHeader 0 0 :=
  ehdrAt_encode [] (replicate n 0) (h := objectHeader 0 0) rfl (by decide)

theorem bareObject_length : (bareObject n).length = 64 + n := by
  rw [bareObject, length_append, length_replicate]
  rfl

theorem bareObject_read : ∃ obj, elfReadMemory (bareObject n) (bareObject n).length [] = .ok obj ∧
    obj.symtab = none := by
  have hhdr : ehdrAt (fileBytesOf (bareObject n)) 0 = objectHeader 0 0 := bareObject_header n
  have hcheck : elfCheckHeader (objectHeader 0 0) [] = .ok () := by decide
  rw [elfReadMemory, hhdr, hcheck, bareObject_length, if_neg (by unfold ehdrSize; omega)]
  rw [elfParseSections, hhdr]
  exact ⟨_, if_neg (by simp [objectHeader]), rfl⟩

theorem bareObject_isObject : IsObject (bareObject n) where
  accepted := (bareObject_read n).imp fun _ h => h.1
  headers h := by
    rw [bareObject_header] at h
    exact absurd rfl h
  strings i hi := by
    rw [bareObject_header] at hi
    exact absurd hi (not_lt_zero i)

theorem bareObject_globals : globalsOf (bareObject n) = [] := by
  obtain ⟨obj, hread, hsym⟩ := bareObject_read n
  rw [globalsOf, hread]
  dsimp only
  rw [globals, hsym]
  rfl

/-- A bare object as a file. -/
def bareFile (hn : n < 2 ^ 62) : FileData := ⟨bareObject n, by rw [bareObject_length]; omega⟩

/-- An object of odd size, and one that defines a symbol. -/
def smallInputs : List (Name × FileData) :=
  [([0x61], bareFile 3 (by decide)), ([0x62], ⟨smallObject, by decide +kernel⟩)]

/-- They come back. -/
theorem archive_round_trip_small :
    ArRoundTrip linuxRead (fun path => (smallInputs.find? (·.1 == path)).map Prod.snd) [0x63] smallInputs :=
  (archive_round_trip (by decide) (by decide) (by simp [smallInputs])
    (by simpa [smallInputs, bareFile] using ⟨bareObject_isObject 3, smallObject_isObject⟩)).2
    ⟨by decide, by decide +kernel⟩

/-- Two files with the same object. -/
def twoFiles (hn : n < 2 ^ 62) : List (Name × FileData) := [([0x61], bareFile n hn), ([0x62], bareFile n hn)]

variable {n : Nat} {hn : n < 2 ^ 62}

theorem twoFiles_fails (h : linuxRead < 8 + 2 * (60 + (64 + n))) :
    ¬ ArRoundTrip linuxRead (fun _ => some (bareFile n hn)) [0x63] (twoFiles n hn) := by
  intro hround
  have hobj : ∀ x ∈ twoFiles n hn, IsObject x.2.data := by
    simpa [twoFiles, bareFile] using bareObject_isObject n
  have hle := (fits_of_arRoundTrip (by simp [twoFiles]) (by simp [twoFiles]) hobj hround).2
  have hsize : archiveSize ((twoFiles n hn).map fun x => x.2.data) = 8 + 2 * (60 + evenSize (64 + n)) := by
    simp only [twoFiles, bareFile, map_cons, map_nil, archiveSize, flatMap_cons, flatMap_nil, bareObject_globals,
      bareObject_length, append_nil, if_true, sum_cons, sum_nil]
    omega
  have heven : 64 + n ≤ evenSize (64 + n) := le_add_right _ _
  omega

/-- A path that ends in a slash has no base name: the member is taken for the index. -/
theorem slashFile_fails {readMax : Nat} :
    ¬ ArRoundTrip readMax (fun _ => some (bareFile n hn)) [0x63] [([0x61, 0x2f], bareFile n hn)] := by
  intro hround
  have hnames := (fits_of_arRoundTrip (by simp) (by simp) (by simpa [bareFile] using bareObject_isObject n) hround).1
  exact hnames ([0x61, 0x2f], bareFile n hn) (mem_singleton_self _) (show baseName [0x61, 0x2f] = [] by decide)

/-- Two objects of 1 GiB do not make the round trip, for the linker cannot read the archive; nor does a file `a/`. -/
theorem large_archive_fails :
    ¬ ArRoundTrip linuxRead (fun _ => some (bareFile (2 ^ 30) (by decide))) [0x63] (twoFiles (2 ^ 30) (by decide)) ∧
      ¬ ArRoundTrip linuxRead (fun _ => some (bareFile 0 (by decide))) [0x63] [([0x61, 0x2f], bareFile 0 (by decide))] :=
  ⟨twoFiles_fails (by decide), slashFile_fails⟩

end

end Slopix.Ar
