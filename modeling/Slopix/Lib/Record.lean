import Slopix.Lib.Bytes

/-!
# Records in files

A file is a list of bytes. A record is a list of numbers, each stored little-endian in a fixed number
of bytes. `decodeFields` reads the numbers of a record back from wherever `encodeFields` put them, and
a record in the middle of a file is found by the length of what stands before it.
-/

namespace Slopix.Lib

open List Nat

/-- A file as byte memory; behind its end there are zeros. -/
def fileBytesOf (l : List UInt8) : Bytes := fun k => l.getD k 0

/-- The low `n` bytes of `v`, least significant first. -/
def leBytes : Nat → Nat → List UInt8
  | 0, _ => []
  | n + 1, v => UInt8.ofNat v :: leBytes n (v / 256)

/-- A record: the width and the value of each field. -/
def encodeFields : List (Nat × Nat) → List UInt8
  | [] => []
  | (n, v) :: fs => leBytes n v ++ encodeFields fs

/-- Fields of the given widths from offset `o`. -/
def decodeFields (b : Bytes) : Nat → List Nat → List Nat
  | _, [] => []
  | o, n :: ns => getLe n b o :: decodeFields b (o + n) ns

/-- The string at `o`, up to its NUL. -/
def cstrAt (l : List UInt8) (o : Nat) : List UInt8 := (l.drop o).takeWhile (· != 0)

section

@[simp] theorem length_leBytes (n v : Nat) : (leBytes n v).length = n := by
  induction n generalizing v with
  | zero => rfl
  | succ n ih => rw [leBytes, length_cons, ih]

@[simp] theorem encodeFields_length (fs : List (Nat × Nat)) :
    (encodeFields fs).length = (fs.map Prod.fst).sum := by
  induction fs with
  | nil => rfl
  | cons f fs ih => simp [encodeFields, ih]

theorem leBytes_getD {n k : Nat} (v : Nat) (hk : k < n) :
    (leBytes n v).getD k 0 = UInt8.ofNat (v / 256 ^ k) := by
  induction n generalizing v k with
  | zero => omega
  | succ n ih =>
    cases k with
    | zero => simp [leBytes]
    | succ k =>
      rw [leBytes, getD_cons_succ, ih _ (by omega), Nat.div_div_eq_div_mul, pow_succ,
        Nat.mul_comm]

end

section

variable {n v : Nat}

theorem fileBytesOf_append (pre l : List UInt8) (k : Nat) :
    fileBytesOf (pre ++ l) (pre.length + k) = fileBytesOf l k := by
  unfold fileBytesOf
  rw [getD_eq_getElem?_getD, List.getElem?_append_right (Nat.le_add_right _ _),
    Nat.add_sub_cancel_left, getD_eq_getElem?_getD]

theorem getLe_append (pre l : List UInt8) (o : Nat) :
    getLe n (fileBytesOf (pre ++ l)) (pre.length + o) = getLe n (fileBytesOf l) o := by
  induction n generalizing o with
  | zero => rfl
  | succ n ih => rw [getLe, getLe, fileBytesOf_append, add_assoc, ih]

theorem getLe_leBytes (post : List UInt8) (hv : v < 256 ^ n) :
    getLe n (fileBytesOf (leBytes n v ++ post)) 0 = v := by
  apply getLe_of_bytes hv
  intro k hk
  rw [zero_add, ← leBytes_getD v hk]
  unfold fileBytesOf
  rw [getD_eq_getElem?_getD, List.getElem?_append_left (by simpa using hk),
    getD_eq_getElem?_getD]

theorem decodeFields_append (pre l : List UInt8) (o : Nat) (ns : List Nat) :
    decodeFields (fileBytesOf (pre ++ l)) (pre.length + o) ns = decodeFields (fileBytesOf l) o ns := by
  induction ns generalizing o with
  | nil => rfl
  | cons n ns ih => rw [decodeFields, decodeFields, getLe_append, add_assoc, ih]

theorem decodeFields_encodeFields {fs : List (Nat × Nat)} (post : List UInt8)
    (h : ∀ f ∈ fs, f.2 < 256 ^ f.1) :
    decodeFields (fileBytesOf (encodeFields fs ++ post)) 0 (fs.map Prod.fst) = fs.map Prod.snd := by
  induction fs with
  | nil => rfl
  | cons f fs ih =>
    obtain ⟨n, v⟩ := f
    have hrest := decodeFields_append (leBytes n v) (encodeFields fs ++ post) 0 (fs.map Prod.fst)
    rw [length_leBytes, add_zero] at hrest
    rw [map_cons, map_cons, decodeFields, encodeFields, append_assoc,
      getLe_leBytes _ (h (n, v) mem_cons_self), zero_add, hrest,
      ih fun f hf => h f (mem_cons_of_mem _ hf)]

theorem decodeFields_middle {fs : List (Nat × Nat)} (pre post : List UInt8)
    (h : ∀ f ∈ fs, f.2 < 256 ^ f.1) :
    decodeFields (fileBytesOf (pre ++ (encodeFields fs ++ post))) pre.length (fs.map Prod.fst) =
      fs.map Prod.snd := by
  rw [← add_zero pre.length, decodeFields_append, decodeFields_encodeFields post h]

theorem cstrAt_append (pre l : List UInt8) (o : Nat) :
    cstrAt (pre ++ l) (pre.length + o) = cstrAt l o := by
  unfold cstrAt
  rw [drop_append, Nat.add_sub_cancel_left, drop_eq_nil_of_le (Nat.le_add_right _ _), nil_append]

theorem cstrAt_middle {s : List UInt8} (pre post : List UInt8) (hs : 0 ∉ s) :
    cstrAt (pre ++ (s ++ 0 :: post)) pre.length = s := by
  rw [← add_zero pre.length, cstrAt_append, cstrAt, drop_zero,
    takeWhile_append_of_pos fun c hc => by
      simpa using fun h : c = 0 => hs (h ▸ hc)]
  simp

theorem length_flatMap {α : Type} {encode : α → List UInt8} (hlen : ∀ a, (encode a).length = n)
    (l : List α) : (l.flatMap encode).length = n * l.length := by
  induction l with
  | nil => simp
  | cons b l ih =>
    rw [flatMap_cons, length_append, ih, hlen, length_cons, mul_succ, add_comm]

/-- A table of records of one length: its entry `j` stands between those before and behind it. -/
theorem flatMap_split {α : Type} {encode : α → List UInt8} {l : List α} {j : Nat} {a : α}
    (hlen : ∀ a, (encode a).length = n) (hj : l[j]? = some a) :
    ∃ pre post, l.flatMap encode = pre ++ (encode a ++ post) ∧ pre.length = n * j := by
  obtain ⟨hlt, rfl⟩ := List.getElem?_eq_some_iff.1 hj
  refine ⟨(l.take j).flatMap encode, (l.drop (j + 1)).flatMap encode, ?_, ?_⟩
  · rw [← flatMap_cons, ← flatMap_append, getElem_cons_drop, take_append_drop]
  · rw [length_flatMap hlen, length_take, min_eq_left (le_of_lt hlt)]

end

/-! ## Parts of a file -/

/-- The bytes `piece` stand in the file from offset `off` on. -/
def StandsAt (file : List UInt8) (off : Nat) (piece : List UInt8) : Prop :=
  ∃ pre post, file = pre ++ (piece ++ post) ∧ pre.length = off

/-- The file from offset `off` on. -/
def Remains (file : List UInt8) (off : Nat) (rest : List UInt8) : Prop :=
  ∃ pre, file = pre ++ rest ∧ pre.length = off

section

variable {file piece rest : List UInt8} {off : Nat}

theorem Remains.start (file : List UInt8) : Remains file 0 file := ⟨[], rfl, rfl⟩

theorem Remains.skip (h : Remains file off (piece ++ rest)) (off' : Nat)
    (hoff : off + piece.length = off') : Remains file off' rest := by
  obtain ⟨pre, rfl, rfl⟩ := h
  exact ⟨pre ++ piece, (append_assoc _ _ _).symm, by rw [length_append, hoff]⟩

theorem Remains.part (h : Remains file off (piece ++ rest)) : StandsAt file off piece := by
  obtain ⟨pre, rfl, rfl⟩ := h
  exact ⟨pre, rest, rfl, rfl⟩

theorem Remains.last (h : Remains file off piece) : StandsAt file off piece := by
  obtain ⟨pre, rfl, rfl⟩ := h
  exact ⟨pre, [], by rw [append_nil], rfl⟩

theorem StandsAt.bytes (h : StandsAt file off piece) : (file.drop off).take piece.length = piece := by
  obtain ⟨pre, post, rfl, rfl⟩ := h
  rw [drop_left, take_left]

theorem StandsAt.append (h : StandsAt file off piece) (after : List UInt8) :
    StandsAt (file ++ after) off piece := by
  obtain ⟨pre, post, rfl, rfl⟩ := h
  exact ⟨pre, post ++ after, by simp only [append_assoc], rfl⟩

theorem StandsAt.inner {before mid after : List UInt8}
    (h : StandsAt file off (before ++ (mid ++ after))) :
    StandsAt file (off + before.length) mid := by
  obtain ⟨pre, post, rfl, rfl⟩ := h
  refine ⟨pre ++ before, after ++ post, ?_, length_append⟩
  simp only [append_assoc]

/-- A record decodes where it stands. -/
theorem StandsAt.record {α : Type} {encode : α → List UInt8} {decode : Bytes → Nat → α} {a : α}
    (h : StandsAt file off (encode a))
    (hround : ∀ pre post, decode (fileBytesOf (pre ++ (encode a ++ post))) pre.length = a) :
    decode (fileBytesOf file) off = a := by
  obtain ⟨pre, post, rfl, rfl⟩ := h
  exact hround pre post

theorem StandsAt.table {α : Type} {n : Nat} {encode : α → List UInt8} {decode : Bytes → Nat → α}
    {l : List α} (h : StandsAt file off (l.flatMap encode)) (hlen : ∀ a, (encode a).length = n)
    (hround : ∀ a ∈ l, ∀ pre post, decode (fileBytesOf (pre ++ (encode a ++ post))) pre.length = a) :
    ((List.range l.length).map fun j => decode (fileBytesOf file) (off + n * j)) = l := by
  apply ext_getElem
  · simp
  intro j hj hj'
  obtain ⟨before, after, hsplit, hbefore⟩ :=
    flatMap_split hlen (List.getElem?_eq_getElem hj')
  rw [hsplit] at h
  simp only [getElem_map, getElem_range]
  rw [← hbefore]
  exact h.inner.record (hround l[j] (getElem_mem hj'))

/-- A string in a string table is the same string in the file. -/
theorem StandsAt.cstr {o : Nat} {s : List UInt8} (h : StandsAt file off piece)
    (hs : cstrAt piece o = s) (hend : o + s.length < piece.length) : cstrAt file (off + o) = s := by
  obtain ⟨pre, post, rfl, rfl⟩ := h
  rw [cstrAt_append]
  unfold cstrAt at hs ⊢
  rw [drop_append_of_le_length (by omega)]
  rw [takeWhile_append, hs, if_neg]
  rw [length_drop]
  omega

end

end Slopix.Lib
