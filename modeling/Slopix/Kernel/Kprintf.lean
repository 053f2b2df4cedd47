import Mathlib.Data.Nat.Digits.Defs
import Slopix.Lib.Bytes
import Slopix.Libc.Format

/-!
# `ksnprintf`

The formatter of `kernel/kprintf.c` on the memory from `buf` on. A number is written least significant digit first
into the room that is left, and then reversed in place: a number that is cut off keeps the characters at its end.
-/

namespace Slopix.Kernel.Kprintf

open Lib Libc List

/-! ## The code -/

/-- The memory from `buf` on, and `pos`. -/
structure KBuf where
  mem : Bytes
  pos : Nat

/-- The loop of `reverse`; every pass takes one of `fuel`. -/
def reverseLoop (buf : Nat) : Nat → Nat → Nat → Bytes → Bytes
  | 0, _, _, mem => mem
  | fuel + 1, i, j, mem =>
    if i < j then
      reverseLoop buf fuel (i + 1) (j - 1)
        (Function.update (Function.update mem (buf + i) (mem (buf + j))) (buf + j) (mem (buf + i)))
    else mem

/-- `reverse`: the bytes of `buf` in the opposite order. -/
def reverse (buf len : Nat) (mem : Bytes) : Bytes := reverseLoop buf len 0 (len - 1) mem

/-- `if (pos < size - 1) buf[pos++] = c` -/
def put (size : Nat) (c : UInt8) (b : KBuf) : KBuf :=
  if b.pos < size - 1 then ⟨Function.update b.mem b.pos c, b.pos + 1⟩ else b

/-- `'0' + d` -/
def decChar (d : Nat) : UInt8 := UInt8.ofNat (0x30 + d)

/-- `hex[d]` -/
def hexChar (upper : Bool) (d : Nat) : UInt8 :=
  UInt8.ofNat (if d < 10 then 0x30 + d else (if upper then 0x41 else 0x61) + (d - 10))

/-- The loop of `format_dec`. -/
def decLoop (size : Nat) : Nat → Nat → KBuf → KBuf
  | 0, _, b => b
  | fuel + 1, uval, b =>
    if 0 < uval ∧ b.pos < size - 1 then
      decLoop size fuel (uval / 10) ⟨Function.update b.mem b.pos (decChar (uval % 10)), b.pos + 1⟩
    else b

/-- `format_dec`: the digits are stored from the last one on and reversed. -/
def formatDec (size : Nat) (val : BitVec 64) (signed : Bool) (b : KBuf) : KBuf :=
  let neg := signed && decide (val.toInt < 0)
  let uval := if neg then (-val).toNat else val.toNat
  if uval = 0 then ⟨if b.pos < size - 1 then Function.update b.mem b.pos 0x30 else b.mem, b.pos + 1⟩
  else
    let r := decLoop size 20 uval b
    let r := if neg then put size 0x2d r else r
    ⟨reverse b.pos (r.pos - b.pos) r.mem, r.pos⟩

/-- The loop of `format_hex`. -/
def hexLoop (size width : Nat) (upper : Bool) : Nat → Nat → Nat → KBuf → KBuf
  | 0, _, _, b => b
  | fuel + 1, tmp, digits, b =>
    if 0 < tmp ∨ digits < width then
      let b := put size (hexChar upper (tmp % 16)) b
      if width ≤ digits + 1 ∧ tmp / 16 = 0 then b else hexLoop size width upper fuel (tmp / 16) (digits + 1) b
    else b

/-- `format_hex`, with zeros up to the width. -/
def formatHex (size : Nat) (val : BitVec 64) (width : Nat) (upper : Bool) (b : KBuf) : KBuf :=
  if val = 0 ∧ width = 0 then ⟨if b.pos < size - 1 then Function.update b.mem b.pos 0x30 else b.mem, b.pos + 1⟩
  else
    let r := hexLoop size width upper (16 + width) val.toNat 0 b
    ⟨reverse b.pos (r.pos - b.pos) r.mem, r.pos⟩

/-- The loop of `%s`. -/
def putStr (size : Nat) : List UInt8 → KBuf → KBuf
  | [], b => b
  | c :: s, b =>
    if b.pos < size - 1 then putStr size s ⟨Function.update b.mem b.pos c, b.pos + 1⟩ else b

/-- `va_arg` of a `long` or an `int`. -/
def signedWord (isLong : Bool) (v : BitVec 64) : BitVec 64 := if isLong then v else (v.setWidth 32).signExtend 64

/-- `va_arg` of an `unsigned long` or an `unsigned int`. -/
def unsignedWord (isLong : Bool) (v : BitVec 64) : BitVec 64 := if isLong then v else (v.setWidth 32).setWidth 64

/-- The `switch`; the conversion character is NUL at the end of the format. -/
def convert (size : Nat) (isLong : Bool) (conv : UInt8) (ap : List VaArg) (b : KBuf) : KBuf × List VaArg :=
  if conv = 0x63 then (put size (UInt8.ofBitVec ((vaWord ap).1.setWidth 8)) b, (vaWord ap).2)
  else if conv = 0x73 then (putStr size ((vaStr ap).1.getD [0x28, 0x6e, 0x75, 0x6c, 0x6c, 0x29]) b, (vaStr ap).2)
  else if conv = 0x64 then (formatDec size (signedWord isLong (vaWord ap).1) true b, (vaWord ap).2)
  else if conv = 0x75 then (formatDec size (unsignedWord isLong (vaWord ap).1) false b, (vaWord ap).2)
  else if conv = 0x78 then (formatHex size (unsignedWord isLong (vaWord ap).1) 0 false b, (vaWord ap).2)
  else if conv = 0x58 then (formatHex size (unsignedWord isLong (vaWord ap).1) 0 true b, (vaWord ap).2)
  else if conv = 0x70 then (formatHex size (vaWord ap).1 16 false (put size 0x78 (put size 0x30 b)), (vaWord ap).2)
  else if conv = 0x25 then (put size 0x25 b, ap)
  else
    let b := put size 0x25 b
    let b := if isLong then put size 0x6c b else b
    (put size conv b, ap)

/-- The loop of `kvsnprintf`; every pass takes a character of the format. -/
def kvsnprintfLoop (size : Nat) : Nat → List UInt8 → List VaArg → KBuf → KBuf
  | 0, _, _, b => b
  | _, [], _, b => b
  | fuel + 1, c :: fmt, ap, b =>
    if b.pos < size - 1 then
      if c ≠ 0x25 then kvsnprintfLoop size fuel fmt ap ⟨Function.update b.mem b.pos c, b.pos + 1⟩
      else
        let isLong := fmt.head? == some 0x6c
        let fmt := if isLong then fmt.tail else fmt
        let r := convert size isLong (fmt.headD 0) ap b
        kvsnprintfLoop size fuel fmt.tail r.2 r.1
    else b

/-- `ksnprintf`: the memory and the length that it returns. A format is the text before its NUL. -/
def ksnprintf (size : Nat) (fmt : List UInt8) (ap : List VaArg) (mem : Bytes) : KBuf :=
  let b := kvsnprintfLoop size fmt.length fmt ap ⟨mem, 0⟩
  if 0 < size then ⟨Function.update b.mem (if b.pos < size then b.pos else size - 1) 0, b.pos⟩ else b

/-- The bytes in the buffer below the length that is returned. -/
def storedText (size : Nat) (fmt : List UInt8) (ap : List VaArg) (mem : Bytes) : List UInt8 :=
  getBytes (ksnprintf size fmt ap mem).mem 0 (ksnprintf size fmt ap mem).pos

/-! ## What is printed -/

/-- What one conversion prints: a number, or text. -/
structure Piece where
  chars : List UInt8
  number : Bool

/-- Characters that are stored one by one. -/
def text (s : List UInt8) : Piece := ⟨s, false⟩

/-- A number in base 10. -/
def decimal (val : BitVec 64) (signed : Bool) : Piece :=
  let neg := signed && decide (val.toInt < 0)
  let uval := if neg then (-val).toNat else val.toNat
  ⟨if uval = 0 then [0x30] else (if neg then [0x2d] else []) ++ ((Nat.digits 10 uval).map decChar).reverse, true⟩

/-- A number in base 16, with zeros in front up to a width. -/
def hexadecimal (val : BitVec 64) (width : Nat) (upper : Bool) : Piece :=
  let digits := ((Nat.digits 16 val.toNat).map (hexChar upper)).reverse
  ⟨if val = 0 ∧ width = 0 then [0x30] else List.replicate (width - digits.length) 0x30 ++ digits, true⟩

/-- The pieces of a conversion, and the arguments left. -/
def printed (isLong : Bool) (conv : UInt8) (ap : List VaArg) : List Piece × List VaArg :=
  if conv = 0x63 then ([text [UInt8.ofBitVec ((vaWord ap).1.setWidth 8)]], (vaWord ap).2)
  else if conv = 0x73 then ([text ((vaStr ap).1.getD [0x28, 0x6e, 0x75, 0x6c, 0x6c, 0x29])], (vaStr ap).2)
  else if conv = 0x64 then ([decimal (signedWord isLong (vaWord ap).1) true], (vaWord ap).2)
  else if conv = 0x75 then ([decimal (unsignedWord isLong (vaWord ap).1) false], (vaWord ap).2)
  else if conv = 0x78 then ([hexadecimal (unsignedWord isLong (vaWord ap).1) 0 false], (vaWord ap).2)
  else if conv = 0x58 then ([hexadecimal (unsignedWord isLong (vaWord ap).1) 0 true], (vaWord ap).2)
  else if conv = 0x70 then ([text [0x30, 0x78], hexadecimal (vaWord ap).1 16 false], (vaWord ap).2)
  else if conv = 0x25 then ([text [0x25]], ap)
  else ([text ([0x25] ++ (if isLong then [0x6c] else []) ++ [conv])], ap)

/-- The pieces of a format. -/
def piecesLoop : Nat → List UInt8 → List VaArg → List Piece
  | 0, _, _ => []
  | _, [], _ => []
  | fuel + 1, c :: fmt, ap =>
    if c ≠ 0x25 then text [c] :: piecesLoop fuel fmt ap
    else
      let isLong := fmt.head? == some 0x6c
      let fmt := if isLong then fmt.tail else fmt
      let r := printed isLong (fmt.headD 0) ap
      r.1 ++ piecesLoop fuel fmt.tail r.2

/-- What a format and its arguments print. -/
def pieces (fmt : List UInt8) (ap : List VaArg) : List Piece := piecesLoop fmt.length fmt ap

/-- The text when the buffer is large enough. -/
def charsOf (ps : List Piece) : List UInt8 := ps.flatMap Piece.chars

/-- A number that is cut off begins with the characters that it ends with. -/
def CutsEvenly : Nat → List Piece → Prop
  | _, [] => True
  | room, p :: ps =>
    if p.chars.length ≤ room then CutsEvenly (room - p.chars.length) ps
    else p.number = true → p.chars.take room = p.chars.drop (p.chars.length - room)

/-- What is kept of a piece in the room that is left. -/
def Piece.cut (room : Nat) (p : Piece) : List UInt8 :=
  if p.number then p.chars.drop (p.chars.length - room) else p.chars.take room

/-- What is left of the pieces when `room` characters fit. -/
def kept : Nat → List Piece → List UInt8
  | _, [] => []
  | room, p :: ps => p.cut room ++ kept (room - p.chars.length) ps

/-! ## The kept text -/

section

variable {room : Nat} {p : Piece} {ps qs : List Piece}

theorem cut_length : (p.cut room).length = min p.chars.length room := by
  unfold Piece.cut
  split
  · rw [length_drop]
    omega
  · rw [length_take, Nat.min_comm]

theorem cut_of_fits (h : p.chars.length ≤ room) : p.cut room = p.chars := by
  unfold Piece.cut
  split
  · rw [Nat.sub_eq_zero_of_le h, drop_zero]
  · rw [take_of_length_le h]

theorem kept_zero (ps : List Piece) : kept 0 ps = [] := by
  induction ps with
  | nil => rfl
  | cons p ps ih =>
    have hcut : p.cut 0 = [] := length_eq_zero_iff.mp (by rw [cut_length, Nat.min_zero])
    rw [kept, hcut, Nat.zero_sub, ih]
    rfl

theorem kept_length (room : Nat) (ps : List Piece) : (kept room ps).length ≤ room := by
  induction ps generalizing room with
  | nil => exact Nat.zero_le _
  | cons p ps ih =>
    have hrest := ih (room - p.chars.length)
    rw [kept, length_append, cut_length]
    omega

theorem kept_append (room : Nat) (ps qs : List Piece) :
    kept room (ps ++ qs) = kept room ps ++ kept (room - (kept room ps).length) qs := by
  induction ps generalizing room with
  | nil => rfl
  | cons p ps ih =>
    rw [cons_append, kept, ih, kept, append_assoc, length_append, cut_length]
    by_cases hfits : p.chars.length ≤ room
    · rw [min_eq_left hfits, Nat.sub_sub]
    · have hzero : room - p.chars.length = 0 := by omega
      rw [hzero, kept_zero, length_nil, Nat.zero_sub, Nat.min_eq_right (by omega), Nat.add_zero, Nat.sub_self]

/-- In a buffer that is large enough nothing is cut off. -/
theorem kept_of_fits (h : (charsOf ps).length ≤ room) : kept room ps = charsOf ps := by
  induction ps generalizing room with
  | nil => rfl
  | cons p ps ih =>
    rw [charsOf, flatMap_cons, length_append] at h
    rw [kept, cut_of_fits (by omega), ih (by rw [charsOf]; omega)]
    rfl

/-- **What is kept is the beginning of the text** exactly when a number is cut off evenly. -/
theorem kept_eq_take_iff : kept room ps = (charsOf ps).take room ↔ CutsEvenly room ps := by
  induction ps generalizing room with
  | nil => simp [kept, charsOf, CutsEvenly]
  | cons p ps ih =>
    rw [kept, CutsEvenly, charsOf, flatMap_cons]
    by_cases hfits : p.chars.length ≤ room
    · rw [if_pos hfits, cut_of_fits hfits, take_append, take_of_length_le hfits, append_cancel_left_eq]
      exact ih
    have hzero : room - p.chars.length = 0 := by omega
    rw [if_neg hfits, hzero, kept_zero, append_nil, take_append_of_le_length (by omega), Piece.cut]
    by_cases hnumber : p.number = true
    · rw [if_pos hnumber]
      exact ⟨fun h _ => h.symm, fun h => (h hnumber).symm⟩
    · rw [if_neg hnumber]
      exact ⟨fun _ h => absurd h hnumber, fun _ => rfl⟩

end

/-! ## The code keeps it -/

section

variable {mem : Bytes} {out : List UInt8} {size : Nat}

/-- The buffer after `out` was written. -/
def wrote (mem : Bytes) (out : List UInt8) : KBuf := ⟨putBytes mem 0 out, out.length⟩

theorem wrote_snoc (mem : Bytes) (out : List UInt8) (c : UInt8) :
    (⟨Function.update (wrote mem out).mem (wrote mem out).pos c, (wrote mem out).pos + 1⟩ : KBuf) =
      wrote mem (out ++ [c]) := by
  unfold wrote
  rw [putBytes_snoc, length_append, length_singleton]

theorem put_wrote (mem : Bytes) (out : List UInt8) (c : UInt8) :
    put size c (wrote mem out) = wrote mem (out ++ [c].take (size - 1 - out.length)) := by
  unfold put
  by_cases hroom : (wrote mem out).pos < size - 1
  · have htake : [c].take (size - 1 - out.length) = [c] := take_of_length_le (by
      unfold wrote at hroom
      dsimp only at hroom
      simp only [length_singleton]
      omega)
    rw [if_pos hroom, wrote_snoc, htake]
  have hzero : size - 1 - out.length = 0 := by
    unfold wrote at hroom
    dsimp only at hroom
    omega
  rw [if_neg hroom, hzero, take_zero, append_nil]

/-- What is written after `w` goes behind it, as far as there is room. -/
theorem take_after (out w v : List UInt8) :
    (out ++ w.take (size - 1 - out.length)) ++ v.take (size - 1 - (out ++ w.take (size - 1 - out.length)).length) =
      out ++ (w ++ v).take (size - 1 - out.length) := by
  rw [append_assoc, append_cancel_left_eq, take_append, append_cancel_left_eq, length_append, length_take]
  by_cases hfits : w.length ≤ size - 1 - out.length
  · have hsame : size - 1 - (out.length + w.length) = size - 1 - out.length - w.length := by omega
    rw [min_eq_right hfits, hsame]
  · have hzero : size - 1 - (out.length + min (size - 1 - out.length) w.length) = 0 := by omega
    have hzero' : size - 1 - out.length - w.length = 0 := by omega
    rw [hzero, hzero']

theorem reverseLoop_apply (buf fuel i j : Nat) (mem : Bytes) (hfuel : j ≤ i + fuel) (x : Nat) :
    reverseLoop buf fuel i j mem x =
      if buf + i ≤ x ∧ x ≤ buf + j then mem (buf + i + (buf + j) - x) else mem x := by
  induction fuel generalizing i j mem with
  | zero =>
    rw [reverseLoop]
    split
    · congr 1
      omega
    · rfl
  | succ fuel ih =>
    rw [reverseLoop]
    by_cases hij : i < j
    · rw [if_pos hij, ih (i + 1) (j - 1) _ (by omega)]
      simp only [Function.update_apply]
      -- at the two ends, between them, and outside
      by_cases hlo : x = buf + i
      · subst hlo
        rw [if_neg (by omega), if_neg (by omega), if_pos rfl, if_pos ⟨Nat.le_refl _, by omega⟩, Nat.add_sub_cancel_left]
      by_cases hhi : x = buf + j
      · subst hhi
        rw [if_neg (by omega), if_pos rfl, if_pos ⟨by omega, le_refl _⟩, Nat.add_sub_cancel]
      by_cases hin : buf + (i + 1) ≤ x ∧ x ≤ buf + (j - 1)
      · rw [if_pos hin, if_neg (by omega), if_neg (by omega), if_pos (by omega)]
        congr 1
        omega
      · rw [if_neg hin, if_neg hhi, if_neg hlo, if_neg (by omega)]
    rw [if_neg hij]
    split
    · congr 1
      omega
    · rfl

theorem reverse_wrote (mem : Bytes) (out w : List UInt8) :
    reverse out.length w.length (putBytes mem 0 (out ++ w)) = putBytes mem 0 (out ++ w.reverse) := by
  funext x
  unfold reverse
  rw [reverseLoop_apply _ _ _ _ _ (by omega)]
  simp only [putBytes, Nat.zero_le, true_and, Nat.zero_add, Nat.sub_zero, length_append, length_reverse,
    Nat.add_zero, getD_eq_getElem?_getD]
  by_cases hout : x < out.length
  · rw [if_neg (by omega), getElem?_append_left hout, getElem?_append_left hout]
  by_cases hin : x < out.length + w.length
  · rw [if_pos (by omega), if_pos (by omega), if_pos hin, getElem?_append_right (by omega),
      getElem?_append_right (by omega), getElem?_reverse (by omega)]
    congr 2
    omega
  rw [if_neg hin, if_neg hin]
  by_cases hempty : w.length = 0
  · split
    · rw [if_neg (by omega)]
      congr 1
      omega
    · rfl
  · rw [if_neg (by omega)]

/-- A number that is written backwards, cut off and reversed keeps its end. -/
theorem reversed_cut (mem : Bytes) (out w : List UInt8) (room : Nat) :
    (⟨reverse out.length ((wrote mem (out ++ w.reverse.take room)).pos - out.length)
        (wrote mem (out ++ w.reverse.take room)).mem, (wrote mem (out ++ w.reverse.take room)).pos⟩ : KBuf) =
      wrote mem (out ++ w.drop (w.length - room)) := by
  have hlen : (wrote mem (out ++ w.reverse.take room)).pos - out.length = (w.reverse.take room).length := by
    unfold wrote
    rw [length_append, Nat.add_sub_cancel_left]
  have hdrop : (w.reverse.take room).reverse = w.drop (w.length - room) := by
    rw [reverse_take, reverse_reverse, length_reverse]
  rw [hlen]
  unfold wrote
  rw [reverse_wrote, hdrop]
  simp
  omega

theorem putStr_wrote (mem : Bytes) (out s : List UInt8) :
    putStr size s (wrote mem out) = wrote mem (out ++ s.take (size - 1 - out.length)) := by
  induction s generalizing out with
  | nil => simp [putStr]
  | cons c s ih =>
    rw [putStr]
    by_cases hroom : (wrote mem out).pos < size - 1
    · rw [if_pos hroom, wrote_snoc, ih]
      unfold wrote at hroom
      dsimp only at hroom
      obtain ⟨k, hk⟩ : ∃ k, size - 1 - out.length = k + 1 := ⟨size - 1 - out.length - 1, by omega⟩
      have hk' : size - 1 - (out ++ [c]).length = k := by
        rw [length_append, length_singleton]
        omega
      rw [hk, hk', take_succ_cons, append_assoc, singleton_append]
    unfold wrote at hroom
    dsimp only at hroom
    have hzero : size - 1 - out.length = 0 := by omega
    rw [if_neg (by unfold wrote; dsimp only; omega), hzero, take_zero, append_nil]

/-- The decimal digits, least significant first, as far as there is room. -/
theorem decLoop_wrote (mem : Bytes) (out : List UInt8) {fuel uval : Nat} (hfuel : uval < 10 ^ fuel) :
    decLoop size fuel uval (wrote mem out) =
      wrote mem (out ++ ((Nat.digits 10 uval).map decChar).take (size - 1 - out.length)) := by
  induction fuel generalizing uval out with
  | zero =>
    have hzero : uval = 0 := by
      omega
    subst hzero
    simp [decLoop]
  | succ fuel ih =>
    rw [decLoop]
    by_cases hzero : uval = 0
    · subst hzero
      simp
    rw [Nat.digits_def' (by omega) (pos_of_ne_zero hzero), map_cons]
    by_cases hroom : (wrote mem out).pos < size - 1
    · rw [if_pos ⟨pos_of_ne_zero hzero, hroom⟩, wrote_snoc, ih (out ++ [_]) (by rw [pow_succ] at hfuel; omega)]
      unfold wrote at hroom
      dsimp only at hroom
      obtain ⟨k, hk⟩ : ∃ k, size - 1 - out.length = k + 1 := ⟨size - 1 - out.length - 1, by omega⟩
      have hk' : size - 1 - (out ++ [decChar (uval % 10)]).length = k := by
        rw [length_append, length_singleton]
        omega
      rw [hk, hk', take_succ_cons, append_assoc, singleton_append]
    rw [if_neg (fun h => hroom h.2)]
    unfold wrote at hroom
    dsimp only at hroom
    have hfull : size - 1 - out.length = 0 := by omega
    rw [hfull, take_zero, append_nil]

/-- The hexadecimal digits and the zeros up to the width, least significant first. -/
def hexReversed (width digits tmp : Nat) (upper : Bool) : List UInt8 :=
  (Nat.digits 16 tmp).map (hexChar upper) ++ List.replicate (width - digits - (Nat.digits 16 tmp).length) 0x30

theorem hexReversed_step {width digits tmp : Nat} {upper : Bool} (h : 0 < tmp ∨ digits < width) :
    hexReversed width digits tmp upper = hexChar upper (tmp % 16) :: hexReversed width (digits + 1) (tmp / 16) upper := by
  unfold hexReversed
  by_cases hzero : tmp = 0
  · subst hzero
    have hsucc : width - digits = width - (digits + 1) + 1 := by omega
    simp [hsucc, replicate_succ, hexChar]
  · rw [Nat.digits_def' (by omega) (pos_of_ne_zero hzero), map_cons, cons_append, length_cons]
    congr 3
    omega

theorem hexLoop_wrote (mem : Bytes) (out : List UInt8) {width fuel digits tmp : Nat} (upper : Bool)
    (htmp : tmp < 16 ^ fuel) (hwidth : width ≤ digits + fuel) :
    hexLoop size width upper fuel tmp digits (wrote mem out) =
      wrote mem (out ++ (hexReversed width digits tmp upper).take (size - 1 - out.length)) := by
  induction fuel generalizing out digits tmp with
  | zero =>
    have hzero : tmp = 0 := by
      omega
    have hpad : width - digits = 0 := by omega
    subst hzero
    simp [hexLoop, hexReversed, hpad]
  | succ fuel ih =>
    rw [hexLoop]
    by_cases hmore : 0 < tmp ∨ digits < width
    · rw [if_pos hmore, put_wrote, hexReversed_step hmore]
      by_cases hlast : width ≤ digits + 1 ∧ tmp / 16 = 0
      · -- the `break`
        have hnil : hexReversed width (digits + 1) (tmp / 16) upper = [] := by
          have hpad : width - (digits + 1) = 0 := by omega
          simp [hexReversed, hlast.2, hpad]
        rw [if_pos hlast, hnil]
      · rw [if_neg hlast, ih _ (by rw [pow_succ] at htmp; omega) (by omega), take_after]
        rfl
    obtain ⟨hzero, hpad⟩ := not_or.mp hmore
    have hzero : tmp = 0 := by omega
    have hpad : width - digits = 0 := by omega
    subst hzero
    rw [if_neg hmore]
    simp [hexReversed, hpad]

theorem formatDec_wrote (mem : Bytes) (val : BitVec 64) (signed : Bool) (hroom : out.length < size - 1) :
    formatDec size val signed (wrote mem out) =
      wrote mem (out ++ (decimal val signed).cut (size - 1 - out.length)) := by
  have hlt : ∀ v : BitVec 64, v.toNat < 10 ^ 20 := fun v => v.isLt.trans (by norm_num)
  unfold formatDec decimal Piece.cut
  dsimp only
  rw [if_pos rfl]
  generalize hneg : (signed && decide (val.toInt < 0)) = neg
  generalize huval : (if neg then (-val).toNat else val.toNat) = uval
  have hbound : uval < 10 ^ 20 := by
    rw [← huval]
    split <;> exact hlt _
  by_cases hzero : uval = 0
  · have hpos : (wrote mem out).pos < size - 1 := hroom
    have hall : 1 - (size - 1 - out.length) = 0 := by omega
    rw [if_pos hzero, if_pos hzero, if_pos hpos, wrote_snoc, length_singleton, hall, drop_zero]
  rw [if_neg hzero, if_neg hzero, decLoop_wrote mem out hbound]
  have hsign : (if neg = true then put size 0x2d
        (wrote mem (out ++ ((Nat.digits 10 uval).map decChar).take (size - 1 - out.length)))
      else wrote mem (out ++ ((Nat.digits 10 uval).map decChar).take (size - 1 - out.length))) =
      wrote mem (out ++ ((if neg then [0x2d] else []) ++ ((Nat.digits 10 uval).map decChar).reverse).reverse.take
        (size - 1 - out.length)) := by
    cases neg with
    | false => simp
    | true =>
      rw [if_pos rfl, put_wrote, take_after]
      simp
  rw [hsign]
  exact reversed_cut mem out _ _

theorem formatHex_wrote (mem : Bytes) (val : BitVec 64) (width : Nat) (upper : Bool)
    (hroom : width = 0 → out.length < size - 1) :
    formatHex size val width upper (wrote mem out) =
      wrote mem (out ++ (hexadecimal val width upper).cut (size - 1 - out.length)) := by
  unfold formatHex hexadecimal Piece.cut
  dsimp only
  rw [if_pos rfl]
  by_cases hzero : val = 0 ∧ width = 0
  · have hpos : (wrote mem out).pos < size - 1 := hroom hzero.2
    have hall : 1 - (size - 1 - out.length) = 0 := by omega
    rw [if_pos hzero, if_pos hzero, if_pos hpos, wrote_snoc, length_singleton, hall, drop_zero]
  have htmp : val.toNat < 16 ^ (16 + width) := by
    calc val.toNat < 2 ^ 64 := val.isLt
      _ = 16 ^ 16 := by norm_num
      _ ≤ 16 ^ (16 + width) := Nat.pow_le_pow_right (by omega) (by omega)
  have hreversed : hexReversed width 0 val.toNat upper =
      (replicate (width - ((Nat.digits 16 val.toNat).map (hexChar upper)).reverse.length) 0x30 ++
        ((Nat.digits 16 val.toNat).map (hexChar upper)).reverse).reverse := by
    simp [hexReversed]
  rw [if_neg hzero, if_neg hzero, hexLoop_wrote mem out upper htmp (by omega), hreversed]
  exact reversed_cut mem out _ _

theorem kept_one (room : Nat) (p : Piece) : kept room [p] = p.cut room := append_nil _

theorem text_cut (room : Nat) (w : List UInt8) : (text w).cut room = w.take room := rfl

/-- A conversion stores its pieces as far as they fit. -/
theorem convert_wrote (mem : Bytes) (isLong : Bool) (conv : UInt8) (ap : List VaArg) (hroom : out.length < size - 1) :
    convert size isLong conv ap (wrote mem out) =
      (wrote mem (out ++ kept (size - 1 - out.length) (printed isLong conv ap).1), (printed isLong conv ap).2) := by
  unfold convert printed
  by_cases hc : conv = 0x63
  · rw [if_pos hc, if_pos hc, kept_one, text_cut, put_wrote]
  rw [if_neg hc, if_neg hc]
  by_cases hs : conv = 0x73
  · rw [if_pos hs, if_pos hs, kept_one, text_cut, putStr_wrote]
  rw [if_neg hs, if_neg hs]
  by_cases hd : conv = 0x64
  · rw [if_pos hd, if_pos hd, kept_one, formatDec_wrote mem _ _ hroom]
  rw [if_neg hd, if_neg hd]
  by_cases hu : conv = 0x75
  · rw [if_pos hu, if_pos hu, kept_one, formatDec_wrote mem _ _ hroom]
  rw [if_neg hu, if_neg hu]
  by_cases hx : conv = 0x78
  · rw [if_pos hx, if_pos hx, kept_one, formatHex_wrote mem _ _ _ fun _ => hroom]
  rw [if_neg hx, if_neg hx]
  by_cases hX : conv = 0x58
  · rw [if_pos hX, if_pos hX, kept_one, formatHex_wrote mem _ _ _ fun _ => hroom]
  rw [if_neg hX, if_neg hX]
  by_cases hp : conv = 0x70
  · -- `0x`, and the number behind it
    rw [if_pos hp, if_pos hp, put_wrote, put_wrote, take_after, formatHex_wrote mem _ _ _ (by simp)]
    have hrest : size - 1 - (out ++ ([0x30] ++ [0x78] : List UInt8).take (size - 1 - out.length)).length =
        size - 1 - out.length - 2 := by
      rw [length_append, length_take]
      simp only [length_append, length_singleton]
      omega
    rw [hrest, append_assoc]
    simp only [kept, append_nil]
    rfl
  rw [if_neg hp, if_neg hp]
  by_cases hpercent : conv = 0x25
  · rw [if_pos hpercent, if_pos hpercent, kept_one, text_cut, put_wrote]
  rw [if_neg hpercent, if_neg hpercent, kept_one, text_cut]
  dsimp only
  cases isLong with
  | false =>
    rw [if_neg (by simp), if_neg (by simp), put_wrote, put_wrote, take_after]
    rfl
  | true =>
    rw [if_pos rfl, if_pos rfl, put_wrote, put_wrote, put_wrote, take_after, take_after]
    rfl

/-- **The loop of `kvsnprintf`** keeps what fits. -/
theorem kvsnprintfLoop_wrote (mem : Bytes) (out : List UInt8) (fuel : Nat) (fmt : List UInt8) (ap : List VaArg)
    (hout : out.length ≤ size - 1) :
    kvsnprintfLoop size fuel fmt ap (wrote mem out) =
      wrote mem (out ++ kept (size - 1 - out.length) (piecesLoop fuel fmt ap)) := by
  induction fuel generalizing out fmt ap with
  | zero => simp [kvsnprintfLoop, piecesLoop, kept]
  | succ fuel ih =>
    cases fmt with
    | nil => simp [kvsnprintfLoop, piecesLoop, kept]
    | cons c fmt =>
      rw [kvsnprintfLoop, piecesLoop]
      by_cases hroom : (wrote mem out).pos < size - 1
      · have hlt : out.length < size - 1 := hroom
        rw [if_pos hroom]
        by_cases hplain : c ≠ 0x25
        · have hlen : (out ++ [c]).length = out.length + 1 := length_append
          have hcut : (text [c]).cut (size - 1 - out.length) = [c] := cut_of_fits (by
            show 1 ≤ _
            omega)
          have hrest : size - 1 - out.length - 1 = size - 1 - (out.length + 1) := by omega
          rw [if_pos hplain, if_pos hplain, wrote_snoc, ih _ _ _ (by omega), kept, hcut, hlen, append_assoc]
          show _ = wrote mem (out ++ ([c] ++ kept (size - 1 - out.length - 1) _))
          rw [hrest]
        rw [if_neg hplain, if_neg hplain]
        dsimp only
        rw [convert_wrote mem _ _ _ hlt]
        generalize (printed (fmt.head? == some 0x6c)
          ((if (fmt.head? == some 0x6c) = true then fmt.tail else fmt).headD 0) ap) = r
        have hkept := kept_length (size - 1 - out.length) r.1
        have hrest : size - 1 - (out ++ kept (size - 1 - out.length) r.1).length =
            size - 1 - out.length - (kept (size - 1 - out.length) r.1).length := by
          rw [length_append]
          omega
        rw [ih _ _ _ (by rw [length_append]; omega), kept_append, hrest, append_assoc]
      have hzero : size - 1 - out.length = 0 := by
        unfold wrote at hroom
        dsimp only at hroom
        omega
      rw [if_neg hroom, hzero, kept_zero, append_nil]

end

/-! ## The call -/

/-- The kept text and the NUL behind it are all that a call writes. -/
theorem ksnprintf_wrote {size : Nat} (hsize : 0 < size) (fmt : List UInt8) (ap : List VaArg) (mem : Bytes) :
    ksnprintf size fmt ap mem =
      ⟨putBytes mem 0 (kept (size - 1) (pieces fmt ap) ++ [0]), (kept (size - 1) (pieces fmt ap)).length⟩ := by
  have hstart : (⟨mem, 0⟩ : KBuf) = wrote mem [] := by
    rfl
  have hlen := kept_length (size - 1) (pieces fmt ap)
  unfold ksnprintf
  rw [hstart, kvsnprintfLoop_wrote mem [] _ _ _ (Nat.zero_le _), if_pos hsize, nil_append, length_nil,
    Nat.sub_zero, putBytes_snoc, ← pieces]
  unfold wrote
  dsimp only
  rw [if_pos (by omega)]

theorem storedText_eq {size : Nat} (hsize : 0 < size) (fmt : List UInt8) (ap : List VaArg) (mem : Bytes) :
    storedText size fmt ap mem = kept (size - 1) (pieces fmt ap) := by
  unfold storedText
  rw [ksnprintf_wrote hsize, getBytes_putBytes_drop (by simp), drop_zero, take_left]

/-- **What `ksnprintf` writes.** It writes only into the buffer and ends the text with a NUL; and the text is the
beginning of what it stores in every buffer that is large enough, exactly when a number that is cut off begins with the
characters that it ends with. -/
theorem ksnprintf_exact (size : Nat) (hsize : 0 < size) (fmt : List UInt8) (ap : List VaArg) (mem : Bytes) :
    ((ksnprintf size fmt ap mem).pos < size ∧
      (ksnprintf size fmt ap mem).mem (ksnprintf size fmt ap mem).pos = 0 ∧
      ∀ x, size ≤ x → (ksnprintf size fmt ap mem).mem x = mem x) ∧
    ((∀ big, (charsOf (pieces fmt ap)).length < big →
        storedText size fmt ap mem = (storedText big fmt ap mem).take (size - 1)) ↔
      CutsEvenly (size - 1) (pieces fmt ap)) := by
  have hlen := kept_length (size - 1) (pieces fmt ap)
  refine ⟨?_, ?_⟩
  · rw [ksnprintf_wrote hsize]
    refine ⟨by dsimp only; omega, by simp [putBytes], ?_⟩
    intro x hx
    dsimp only
    rw [putBytes, if_neg]
    simp only [length_append, length_singleton]
    omega
  have hbig : ∀ big, (charsOf (pieces fmt ap)).length < big → storedText big fmt ap mem = charsOf (pieces fmt ap) := by
    intro big hlt
    rw [storedText_eq (by omega), kept_of_fits (by omega)]
  rw [storedText_eq hsize, ← kept_eq_take_iff]
  constructor
  · intro h
    have hall := h _ (Nat.lt_succ_self _)
    rwa [hbig _ (Nat.lt_succ_self _)] at hall
  · intro h big hlt
    rw [hbig big hlt]
    exact h

/-- A string that is cut off. -/
theorem ksnprintf_exact_string : (ksnprintf 4 [0x25, 0x73] [.str (some [0x61, 0x62, 0x63, 0x64])] fun _ => 7).pos < 4 ∧
    ∀ big, 4 < big → storedText 4 [0x25, 0x73] [.str (some [0x61, 0x62, 0x63, 0x64])] (fun _ => 7) =
      (storedText big [0x25, 0x73] [.str (some [0x61, 0x62, 0x63, 0x64])] fun _ => 7).take 3 := by
  obtain ⟨⟨hpos, -, -⟩, hcut⟩ := ksnprintf_exact 4 (by decide) [0x25, 0x73]
    [.str (some [0x61, 0x62, 0x63, 0x64])] fun _ => 7
  exact ⟨hpos, hcut.mpr (by simp [pieces, piecesLoop, printed, CutsEvenly, text, vaStr])⟩

/-- `123` in a buffer of three bytes is `23`. -/
theorem number_cut_off : ¬ ∀ size, 0 < size → ∀ fmt ap mem big, (charsOf (pieces fmt ap)).length < big →
    storedText size fmt ap mem = (storedText big fmt ap mem).take (size - 1) := by
  intro h
  have hcut := h 3 (by decide) [0x25, 0x64] [.word 123] (fun _ => 0) 9 (by decide)
  revert hcut
  decide

end Slopix.Kernel.Kprintf
