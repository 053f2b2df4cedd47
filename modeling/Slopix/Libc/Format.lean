import Mathlib.Data.BitVec

/-!
# What `printf` prints

`vprintf_core` of `libc/stdio_file.c` hands its characters to a writer one after the other and stops
at the first that the writer refuses; computing them does not depend on the writer. `vprintfText` is
the list of these characters for a format and its arguments.
-/

namespace Slopix.Libc

/-- An argument of the `va_list`: the 64 bits of an integer or a pointer, or a string (`none` for
`NULL`). -/
inductive VaArg where
  | word (v : BitVec 64)
  | str (s : Option (List UInt8))
  deriving DecidableEq

/-- `va_arg` of an integer type. -/
def vaWord : List VaArg → BitVec 64 × List VaArg
  | .word v :: ap => (v, ap)
  | _ :: ap => (0, ap)
  | [] => (0, [])

/-- `va_arg` of a `const char *`. -/
def vaStr : List VaArg → Option (List UInt8) × List VaArg
  | .str s :: ap => (s, ap)
  | _ :: ap => (none, ap)
  | [] => (none, [])

/-- `FmtSpec`. -/
structure FmtSpec where
  leftAlign : Bool := false
  zeroPad : Bool := false
  showSign : Bool := false
  spaceSign : Bool := false
  altForm : Bool := false
  width : Int := 0
  precision : Int := -1
  length : Int := 0

/-- Arithmetic of `int`. -/
def wrapInt (x : Int) : Int := x.bmod (2 ^ 32)

/-- The digits of `val` in a base up to 16, most significant first; `fuel` is above their number. -/
def formatDigits (base : Nat) (upper : Bool) : Nat → Nat → List UInt8 → List UInt8
  | 0, _, acc => acc
  | fuel + 1, val, acc =>
    let d := val % base
    let c := if d < 10 then 0x30 + d else (if upper then 0x41 else 0x61) + (d - 10)
    let acc := UInt8.ofNat c :: acc
    if val / base = 0 then acc else formatDigits base upper fuel (val / base) acc

/-- `format_uint`, on the 64 bits of an `unsigned long`. -/
def formatUint (val : Nat) : List UInt8 := formatDigits 10 false 64 val []

/-- The digits in base 16. -/
def formatHex (val : Nat) (upper : Bool) : List UInt8 := formatDigits 16 upper 64 val []

/-- The digits in base 8. -/
def formatOctal (val : Nat) : List UInt8 := formatDigits 8 false 64 val []

/-- The characters of a list of bytes. -/
def chars (l : List UInt8) : List Int := l.map fun c => (c.toNat : Int)

/-- `emit_chars`. -/
def repeated (c : Int) (n : Int) : List Int := List.replicate n.toNat c

/-- A number between its padding: the prefix goes before the zeros. -/
def padNumber (spec : FmtSpec) (pre digits : List UInt8) : List Int :=
  let pad := wrapInt (spec.width - (pre.length + digits.length : Nat))
  (if !spec.leftAlign && !spec.zeroPad then repeated 0x20 pad else []) ++ chars pre ++
    (if !spec.leftAlign && spec.zeroPad then repeated 0x30 pad else []) ++ chars digits ++
    if spec.leftAlign then repeated 0x20 pad else []

/-- Text of length `len` between spaces. -/
def padText (spec : FmtSpec) (len : Int) (text : List Int) : List Int :=
  let pad := wrapInt (spec.width - len)
  (if !spec.leftAlign then repeated 0x20 pad else []) ++ text ++
    if spec.leftAlign then repeated 0x20 pad else []

/-- The loop over the flags. -/
def takeFlags : List UInt8 → FmtSpec → FmtSpec × List UInt8
  | 0x2d :: fmt, spec => takeFlags fmt { spec with leftAlign := true }
  | 0x30 :: fmt, spec => takeFlags fmt { spec with zeroPad := true }
  | 0x2b :: fmt, spec => takeFlags fmt { spec with showSign := true }
  | 0x20 :: fmt, spec => takeFlags fmt { spec with spaceSign := true }
  | 0x23 :: fmt, spec => takeFlags fmt { spec with altForm := true }
  | fmt, spec => (spec, fmt)

/-- The loop over the digits of a width or a precision. -/
def takeNumber : List UInt8 → Int → Int × List UInt8
  | c :: fmt, n =>
    if 0x30 ≤ c ∧ c ≤ 0x39 then takeNumber fmt (wrapInt (n * 10 + (c.toNat - 0x30 : Nat))) else (n, c :: fmt)
  | [], n => (n, [])

/-- The low bits as a signed number. -/
def signedArg (spec : FmtSpec) (v : BitVec 64) : Int :=
  if spec.length = 2 ∨ spec.length = 1 ∨ spec.length = 3 then v.toInt
  else if spec.length = -1 then (v.setWidth 16).toInt
  else if spec.length = -2 then (v.setWidth 8).toInt
  else (v.setWidth 32).toInt

/-- The low bits as an unsigned number. -/
def unsignedArg (spec : FmtSpec) (v : BitVec 64) : Nat :=
  if spec.length = 2 ∨ spec.length = 1 ∨ spec.length = 3 then v.toNat
  else if spec.length = -1 then (v.setWidth 16).toNat
  else if spec.length = -2 then (v.setWidth 8).toNat
  else (v.setWidth 32).toNat

/-- The width in a format: a star or digits. -/
def takeWidth (fmt : List UInt8) (spec : FmtSpec) (ap : List VaArg) :
    FmtSpec × List UInt8 × List VaArg :=
  match fmt with
  | 0x2a :: fmt =>
    let width := ((vaWord ap).1.setWidth 32).toInt
    if width < 0 then
      ({ spec with leftAlign := true, zeroPad := false, width := wrapInt (-width) }, fmt, (vaWord ap).2)
    else ({ spec with width := width }, fmt, (vaWord ap).2)
  | fmt => ({ spec with width := (takeNumber fmt 0).1 }, (takeNumber fmt 0).2, ap)

/-- The precision: a star, digits, or nothing behind the point. -/
def takePrecision (fmt : List UInt8) (spec : FmtSpec) (ap : List VaArg) :
    FmtSpec × List UInt8 × List VaArg :=
  match fmt with
  | 0x2e :: 0x2a :: fmt =>
    let precision := ((vaWord ap).1.setWidth 32).toInt
    ({ spec with precision := if precision < 0 then -1 else precision }, fmt, (vaWord ap).2)
  | 0x2e :: fmt => ({ spec with precision := (takeNumber fmt 0).1 }, (takeNumber fmt 0).2, ap)
  | fmt => (spec, fmt, ap)

/-- The length modifier of a conversion. -/
def takeLength : List UInt8 → FmtSpec → FmtSpec × List UInt8
  | 0x68 :: 0x68 :: fmt, spec => ({ spec with length := -2 }, fmt)
  | 0x68 :: fmt, spec => ({ spec with length := -1 }, fmt)
  | 0x6c :: 0x6c :: fmt, spec => ({ spec with length := 2 }, fmt)
  | 0x6c :: fmt, spec => ({ spec with length := 1 }, fmt)
  | 0x7a :: fmt, spec => ({ spec with length := 3 }, fmt)
  | fmt, spec => (spec, fmt)

/-- The sign in front of a number. -/
def signOf (spec : FmtSpec) (val : Int) : List UInt8 :=
  if val < 0 then [0x2d] else if spec.showSign then [0x2b] else if spec.spaceSign then [0x20] else []

/-- The `switch` over the conversion character. -/
def convert (spec : FmtSpec) (conv : UInt8) (ap : List VaArg) : List Int × List VaArg :=
  if conv = 0x64 ∨ conv = 0x69 then
    let val := signedArg spec (vaWord ap).1
    (padNumber spec (signOf spec val) (formatUint val.natAbs), (vaWord ap).2)
  else if conv = 0x75 then
    (padNumber spec [] (formatUint (unsignedArg spec (vaWord ap).1)), (vaWord ap).2)
  else if conv = 0x6f then
    let val := unsignedArg spec (vaWord ap).1
    (padNumber spec (if spec.altForm ∧ val ≠ 0 then [0x30] else []) (formatOctal val), (vaWord ap).2)
  else if conv = 0x78 ∨ conv = 0x58 then
    let val := unsignedArg spec (vaWord ap).1
    (padNumber spec (if spec.altForm ∧ val ≠ 0 then [0x30, conv] else [])
      (formatHex val (conv == 0x58)), (vaWord ap).2)
  else if conv = 0x70 then
    let digits := formatHex (vaWord ap).1.toNat false
    let hexbuf := [0x30, 0x78] ++ List.replicate (16 - digits.length) 0x30 ++ digits
    (padText spec hexbuf.length (chars hexbuf), (vaWord ap).2)
  else if conv = 0x73 then
    let s := (vaStr ap).1.getD [0x28, 0x6e, 0x75, 0x6c, 0x6c, 0x29]
    -- the length is counted in an `int`
    let slen := wrapInt s.length
    let slen := if 0 ≤ spec.precision ∧ spec.precision < slen then spec.precision else slen
    (padText spec slen (chars (s.take slen.toNat)), (vaStr ap).2)
  else if conv = 0x63 then
    (padText spec 1 [((vaWord ap).1.setWidth 32).toInt], (vaWord ap).2)
  else if conv = 0x25 then ([0x25], ap)
  else ([0x25, (conv.toNat : Int)], ap)

/-- The characters of `vprintf_core`; every pass takes a character of the format. -/
def vprintfLoop : Nat → List UInt8 → List VaArg → List Int
  | 0, _, _ => []
  | _, [], _ => []
  | fuel + 1, c :: fmt, ap =>
    if c ≠ 0x25 then (c.toNat : Int) :: vprintfLoop fuel fmt ap
    else
      let (spec, fmt) := takeFlags fmt {}
      let spec := if spec.leftAlign then { spec with zeroPad := false } else spec
      let (spec, fmt, ap) := takeWidth fmt spec ap
      let (spec, fmt, ap) := takePrecision fmt spec ap
      let (spec, fmt) := takeLength fmt spec
      match fmt with
      | [] => [0x25]
      | conv :: fmt =>
        let (text, ap) := convert spec conv ap
        text ++ vprintfLoop fuel fmt ap

/-- Everything `vprintf_core` emits. -/
def vprintfText (fmt : List UInt8) (ap : List VaArg) : List Int := vprintfLoop fmt.length fmt ap

/-- `printf("%5d|%-4x|%s", -42, 255, "ab")`. -/
example : vprintfText [0x25, 0x35, 0x64, 0x7c, 0x25, 0x2d, 0x34, 0x78, 0x7c, 0x25, 0x73]
    [.word (-42), .word 255, .str (some [0x61, 0x62])] =
    chars [0x20, 0x20, 0x2d, 0x34, 0x32, 0x7c, 0x66, 0x66, 0x20, 0x20, 0x7c, 0x61, 0x62] := by
  decide

end Slopix.Libc
