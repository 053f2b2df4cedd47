import Mathlib.Tactic.FinCases
import Slopix.Libc.Decimal
import Slopix.Libc.Output

/-!
# Reading numbers back

`strtoul` and `strtol` of `libc/stdlib.c` in any base, and what they make of the numbers that `printf` prints. A
printed number is spaces, a sign or a prefix, zeros, digits and spaces again; `strtoul` reads as far as the last
digit.
-/

namespace Slopix.Libc

open List

/-! ## The parser -/

/-- The value of a digit or a letter. -/
def digitOf (c : UInt8) : Option Nat :=
  if isDigit c then some (c.toNat - 48)
  else if 97 ≤ c ∧ c ≤ 122 then some (c.toNat - 97 + 10)
  else if 65 ≤ c ∧ c ≤ 90 then some (c.toNat - 65 + 10)
  else none

/-- The loop over the digits: the result, and what is left. -/
def strtoulLoop (base : Int) : List UInt8 → BitVec 64 → BitVec 64 × List UInt8
  | [], result => (result, [])
  | c :: s, result =>
    match digitOf c with
    | none => (result, c :: s)
    | some digit =>
      if base ≤ digit then (result, c :: s)
      else strtoulLoop base s (result * BitVec.ofInt 64 base + BitVec.ofNat 64 digit)

/-- The sign: whether it is a minus, and what is behind it. -/
def skipSign : List UInt8 → Bool × List UInt8
  | 0x2d :: s => (true, s)
  | 0x2b :: s => (false, s)
  | s => (false, s)

/-- `x` or `X`. -/
def isX (c : UInt8) : Bool := c == 0x78 || c == 0x58

/-- The base that is used, and what is behind the prefix. -/
def detectBase (base : Int) (s : List UInt8) : Int × List UInt8 :=
  if base = 0 then
    match s with
    | 0x30 :: c :: rest => if isX c then (16, rest) else (8, c :: rest)
    | 0x30 :: [] => (8, [])
    | s => (10, s)
  else
    match s with
    | 0x30 :: c :: rest => if base = 16 ∧ isX c then (base, rest) else (base, 0x30 :: c :: rest)
    | s => (base, s)

/-- `strtoul`: the result, and how far `endptr` is behind `nptr`. -/
def strtoul (nptr : List UInt8) (base : Int) : BitVec 64 × Nat :=
  let sign := skipSign (nptr.dropWhile isSpace)
  let start := detectBase base sign.2
  let r := strtoulLoop start.1 start.2 0
  (if sign.1 then -r.1 else r.1, nptr.length - r.2.length)

/-- `strtol`: the same number, read with a sign. -/
def strtol (nptr : List UInt8) (base : Int) : Int × Nat := ((strtoul nptr base).1.toInt, (strtoul nptr base).2)

/-! ## Digits -/

section

variable {base fuel v : Nat} {upper : Bool} {ds rest : List UInt8}

/-- All are digits of the base. -/
def Digits (base : Nat) (ds : List UInt8) : Prop := ∀ c ∈ ds, ∃ d < base, digitOf c = some d

/-- The number that they denote. -/
def baseValue (base : Nat) (ds : List UInt8) : Nat := ds.foldl (fun n c => n * base + (digitOf c).getD 0) 0

theorem baseValue_snoc (base : Nat) (ds : List UInt8) (c : UInt8) :
    baseValue base (ds ++ [c]) = baseValue base ds * base + (digitOf c).getD 0 := by
  rw [baseValue, foldl_append]
  rfl

theorem digitOf_char {d : Nat} (hd : d < 16) (upper : Bool) :
    digitOf (UInt8.ofNat (if d < 10 then 0x30 + d else (if upper then 0x41 else 0x61) + (d - 10))) = some d := by
  have hall : ∀ d < 16, ∀ upper : Bool,
      digitOf (UInt8.ofNat (if d < 10 then 0x30 + d else (if upper then 0x41 else 0x61) + (d - 10))) = some d := by
    decide
  exact hall d hd upper

/-- What is printed in front of the digits that are there already. -/
theorem formatDigits_base (upper : Bool) (hbase : 2 ≤ base) (hle : base ≤ 16) (hv : v < base ^ fuel) (acc : List UInt8) :
    ∃ ds, formatDigits base upper fuel v acc = ds ++ acc ∧ Digits base ds ∧ baseValue base ds = v ∧
      (0 < fuel → ds ≠ []) := by
  induction fuel generalizing v acc with
  | zero =>
    obtain rfl : v = 0 := by simpa using hv
    exact ⟨[], rfl, fun _ hc => (by cases hc), rfl, fun h => absurd h (lt_irrefl 0)⟩
  | succ fuel ih =>
    have hmod : v % base < base := Nat.mod_lt _ (by omega)
    have hdigit := digitOf_char (hmod.trans_le hle) upper
    have hsplit : v / base * base + v % base = v := Nat.div_add_mod' v base
    rw [formatDigits]
    generalize UInt8.ofNat (if v % base < 10 then 0x30 + v % base else
      (if upper then 0x41 else 0x61) + (v % base - 10)) = c at hdigit ⊢
    split
    · rename_i hzero
      refine ⟨[c], rfl, fun c' hc' => ?_, ?_, fun _ => cons_ne_nil _ _⟩
      · obtain rfl := mem_singleton.1 hc'
        exact ⟨_, hmod, hdigit⟩
      have hone := baseValue_snoc base [] c
      rw [nil_append, hdigit] at hone
      rw [hone]
      rw [hzero, zero_mul] at hsplit
      simpa [baseValue] using hsplit
    rw [pow_succ] at hv
    obtain ⟨ds, hds, hall, hval, -⟩ := ih (v := v / base) (Nat.div_lt_of_lt_mul (by rwa [mul_comm])) (c :: acc)
    refine ⟨ds ++ [c], ?_, fun c' hc' => ?_, ?_, fun _ => by simp⟩
    · rw [hds, append_assoc]
      rfl
    · rcases mem_append.1 hc' with hc' | hc'
      · exact hall c' hc'
      · obtain rfl := mem_singleton.1 hc'
        exact ⟨_, hmod, hdigit⟩
    · rw [baseValue_snoc, hval, hdigit]
      exact hsplit

/-- Something that is no digit of the base, or the end. -/
def Stops (base : Nat) (rest : List UInt8) : Prop :=
  ∀ c ∈ rest.head?, ∀ d, digitOf c = some d → base ≤ d

theorem strtoulLoop_digits (hds : Digits base ds) (hrest : Stops base rest) (n : Nat) :
    strtoulLoop base (ds ++ rest) (BitVec.ofNat 64 n) =
      (BitVec.ofNat 64 (ds.foldl (fun n c => n * base + (digitOf c).getD 0) n), rest) := by
  induction ds generalizing n with
  | nil =>
    cases rest with
    | nil => rfl
    | cons c rest =>
      rw [nil_append, strtoulLoop]
      cases hc : digitOf c with
      | none => rfl
      | some d =>
        have hout : (base : Int) ≤ d := Int.ofNat_le.2 (hrest c rfl d hc)
        exact if_pos hout
  | cons c ds ih =>
    obtain ⟨d, hd, hc⟩ := hds c mem_cons_self
    have hin : ¬ (base : Int) ≤ d := by omega
    have hnext : BitVec.ofNat 64 n * BitVec.ofInt 64 (base : Int) + BitVec.ofNat 64 d =
        BitVec.ofNat 64 (n * base + d) := by
      rw [BitVec.ofInt_natCast, BitVec.ofNat_add, BitVec.ofNat_mul]
    rw [cons_append, strtoulLoop, hc]
    dsimp only
    rw [if_neg hin, hnext, ih fun c' hc' => hds c' (mem_cons_of_mem c hc'), foldl_cons, hc]
    rfl

theorem strtoulLoop_value (hds : Digits base ds) (hrest : Stops base rest) :
    strtoulLoop base (ds ++ rest) 0 = (BitVec.ofNat 64 (baseValue base ds), rest) :=
  strtoulLoop_digits hds hrest 0

theorem Digits.append {ds' : List UInt8} (h : Digits base ds) (h' : Digits base ds') : Digits base (ds ++ ds') := by
  intro c hc
  rcases mem_append.1 hc with hc | hc
  · exact h c hc
  · exact h' c hc

theorem digits_zeros (hbase : 0 < base) (z : Nat) : Digits base (replicate z 0x30) := by
  intro c hc
  obtain rfl := eq_of_mem_replicate hc
  exact ⟨0, hbase, rfl⟩

theorem baseValue_zeros (z : Nat) (ds : List UInt8) : baseValue base (replicate z 0x30 ++ ds) = baseValue base ds := by
  induction z with
  | zero => rfl
  | succ z ih =>
    rw [replicate_succ, cons_append, ← ih, baseValue, foldl_cons]
    have hzero : 0 * base + (digitOf 0x30).getD 0 = 0 := by
      rw [zero_mul]
      rfl
    rw [hzero]
    rfl

theorem stops_spaces (b : Nat) : Stops base (replicate b 0x20) := by
  intro c hc d hd
  cases b with
  | zero => cases hc
  | succ b =>
    obtain rfl : (0x20 : UInt8) = c := Option.some.inj hc
    cases hd

theorem digit_plain {c : UInt8} {d : Nat} (hc : digitOf c = some d) (hd : d < 16) :
    isSpace c = false ∧ c ≠ 0x2d ∧ c ≠ 0x2b ∧ isX c = false := by
  have hall : ∀ n < 256, (digitOf (UInt8.ofNat n)).all (fun d => decide (16 ≤ d)) = true ∨
      isSpace (UInt8.ofNat n) = false ∧ UInt8.ofNat n ≠ 0x2d ∧ UInt8.ofNat n ≠ 0x2b ∧
        isX (UInt8.ofNat n) = false := by decide +kernel
  have hn := hall c.toNat c.toNat_lt
  rw [UInt8.ofNat_toNat] at hn
  rcases hn with hbig | hplain
  · rw [hc] at hbig
    have hge : 16 ≤ d := by simpa using hbig
    omega
  · exact hplain

end

/-! ## How far `strtoul` reads -/

/-- The text is read up to a digit, and only spaces are behind. -/
structure ReadTo (text : List UInt8) (stop : Nat) : Prop where
  digit : ∃ front c, text.take stop = front ++ [c] ∧ (digitOf c).isSome
  behind : ∀ c ∈ text.drop stop, c = 0x20
  le : stop ≤ text.length

/-- `strtoul` reads the number `v`, as far as its last digit. -/
def ReadsBack (text : List UInt8) (base : Int) (v : BitVec 64) : Prop :=
  (strtoul text base).1 = v ∧ ReadTo text (strtoul text base).2

section

variable {base base' : Nat} {nptr front s ds : List UInt8} {c : UInt8} {neg : Bool} {a b z v : Nat} {base0 : Int}

theorem strtoul_steps (front : List UInt8) (htext : nptr = front ++ [c] ++ replicate b 0x20) (hc : (digitOf c).isSome)
    (hsign : skipSign (nptr.dropWhile isSpace) = (neg, s))
    (hstart : detectBase base0 s = ((base' : Int), ds ++ replicate b 0x20)) (hds : Digits base' ds) :
    ReadsBack nptr base0 (if neg then -BitVec.ofNat 64 (baseValue base' ds) else BitVec.ofNat 64 (baseValue base' ds)) := by
  have hloop := strtoulLoop_value hds (stops_spaces b)
  have hstop : (strtoul nptr base0).2 = (front ++ [c]).length := by
    simp only [strtoul, hsign, hstart, hloop]
    rw [htext, length_append, Nat.add_sub_cancel]
  refine ⟨by simp only [strtoul, hsign, hstart, hloop], ?_⟩
  rw [hstop, htext]
  refine ⟨⟨front, c, take_left, hc⟩, fun c' hc' => ?_, ?_⟩
  · rw [drop_left] at hc'
    exact eq_of_mem_replicate hc'
  · simp only [length_append]
    exact Nat.le_add_right _ _

theorem dropWhile_spaces (a : Nat) (s : List UInt8) :
    (replicate a 0x20 ++ s).dropWhile isSpace = s.dropWhile isSpace := by
  rw [dropWhile_append_of_pos]
  intro c hc
  rw [eq_of_mem_replicate hc]
  rfl

theorem skipSign_plain (hminus : c ≠ 0x2d) (hplus : c ≠ 0x2b) (s : List UInt8) :
    skipSign (c :: s) = (false, c :: s) := by
  unfold skipSign
  split
  · rename_i heq
    exact absurd (cons.inj heq).1 hminus
  · rename_i heq
    exact absurd (cons.inj heq).1 hplus
  · rfl

theorem detectBase_plain (h0 : base0 ≠ 0) (h16 : base0 ≠ 16) (s : List UInt8) :
    detectBase base0 s = (base0, s) := by
  unfold detectBase
  rw [if_neg h0]
  split
  · rw [if_neg fun h => h16 h.1]
  · rfl

theorem detectBase_prefixed (h : base0 = 0 ∨ base0 = 16) (hx : isX c = true) (s : List UInt8) :
    detectBase base0 (0x30 :: c :: s) = (16, s) := by
  rcases h with rfl | rfl <;> simp [detectBase, hx]

theorem head_plain (hds : Digits base ds) (hle : base ≤ 16) (b : Nat) :
    ∀ c ∈ (ds ++ replicate b 0x20).head?, isX c = false := by
  intro c hc
  cases ds with
  | nil =>
    cases b with
    | zero => cases hc
    | succ b =>
      rw [← Option.some.inj hc]
      rfl
  | cons c0 ds =>
    obtain rfl : c0 = c := Option.some.inj hc
    obtain ⟨d, hd, hdigit⟩ := hds c0 mem_cons_self
    exact (digit_plain hdigit (hd.trans_le hle)).2.2.2

theorem detectBase_hex (hds : Digits 16 ds) (hne : ds ≠ []) (b : Nat) :
    detectBase 16 (ds ++ replicate b 0x20) = (16, ds ++ replicate b 0x20) := by
  cases ds with
  | nil => exact absurd rfl hne
  | cons c0 ds =>
    have htail := head_plain (fun c hc => hds c (mem_cons_of_mem c0 hc)) (le_refl 16) b
    rw [cons_append]
    unfold detectBase
    rw [if_neg (by decide)]
    split
    · rename_i c rest heq
      rw [(cons.inj heq).2] at htail ⊢
      rw [(cons.inj heq).1, if_neg (by simp [htail c rfl])]
    · rfl

theorem detectBase_octal (hds : Digits 8 ds) (b : Nat) :
    detectBase 0 (0x30 :: (ds ++ replicate b 0x20)) = (8, ds ++ replicate b 0x20) := by
  have htail := head_plain hds (by decide) b
  cases hrest : ds ++ replicate b 0x20 with
  | nil => rfl
  | cons c rest =>
    rw [hrest] at htail
    simp [detectBase, htail c rfl]

end

/-! ## Printed numbers -/

/-- The flags of a conversion. -/
inductive Flag where
  | minus
  | zero
  | plus
  | space
  | alt
  deriving DecidableEq

/-- The character of the flag. -/
def Flag.char : Flag → UInt8
  | minus => 0x2d
  | zero => 0x30
  | plus => 0x2b
  | space => 0x20
  | alt => 0x23

/-- The width of a conversion: digits, or an argument. -/
inductive Width where
  | digits (ds : List (Fin 10))
  | star (n : BitVec 64)

/-- The width in the format. -/
def Width.chars : Width → List UInt8
  | digits ds => ds.map fun d => UInt8.ofNat (0x30 + d.val)
  | star _ => [0x2a]

/-- The argument that a star takes. -/
def Width.args : Width → List VaArg
  | digits _ => []
  | star n => [.word n]

/-- What `printf` prints for a `long` with the conversion character `conv`. -/
def printed (flags : List Flag) (width : Width) (conv : UInt8) (v : BitVec 64) : List UInt8 :=
  charBytes (vprintfText (0x25 :: (flags.map Flag.char ++ (width.chars ++ [0x6c, conv]))) (width.args ++ [.word v]))

section

variable {spec : FmtSpec} {flags : List Flag} {width : Width} {conv : UInt8} {v : BitVec 64}

/-- What the flag does to the specification. -/
def Flag.set (spec : FmtSpec) : Flag → FmtSpec
  | minus => { spec with leftAlign := true }
  | zero => { spec with zeroPad := true }
  | plus => { spec with showSign := true }
  | space => { spec with spaceSign := true }
  | alt => { spec with altForm := true }

theorem takeFlags_flags (flags : List Flag) (rest : List UInt8) (spec : FmtSpec) :
    takeFlags (flags.map Flag.char ++ rest) spec = takeFlags rest (flags.foldl Flag.set spec) := by
  induction flags generalizing spec with
  | nil => rfl
  | cons flag flags ih => cases flag <;> exact ih _

theorem foldl_set_alt (flags : List Flag) (spec : FmtSpec) :
    (flags.foldl Flag.set spec).altForm = (spec.altForm || decide (Flag.alt ∈ flags)) := by
  induction flags generalizing spec with
  | nil => simp
  | cons flag flags ih =>
    rw [foldl_cons, ih]
    cases flag <;> simp [Flag.set]

theorem takeFlags_width (width : Width) (conv : UInt8) (spec : FmtSpec) : ∃ (spec' : FmtSpec) (width' : Width),
    takeFlags (width.chars ++ [0x6c, conv]) spec = (spec', width'.chars ++ [0x6c, conv]) ∧
      width'.args = width.args ∧ spec'.altForm = spec.altForm := by
  cases width with
  | star n => exact ⟨spec, .star n, rfl, rfl, rfl⟩
  | digits ds =>
    induction ds generalizing spec with
    | nil => exact ⟨spec, .digits [], rfl, rfl, rfl⟩
    | cons d ds ih =>
      by_cases hd : d = 0
      · subst hd
        obtain ⟨spec', width', htake, hargs, halt⟩ := ih { spec with zeroPad := true }
        exact ⟨spec', width', htake, hargs, halt⟩
      · refine ⟨spec, .digits (d :: ds), ?_, rfl, rfl⟩
        fin_cases d <;> first | rfl | exact absurd rfl hd

theorem takeNumber_digits (ds : List (Fin 10)) (conv : UInt8) (n : Int) :
    (takeNumber ((ds.map fun d => UInt8.ofNat (0x30 + d.val)) ++ [0x6c, conv]) n).2 = [0x6c, conv] := by
  induction ds generalizing n with
  | nil => rfl
  | cons d ds ih =>
    have hdigit : (0x30 : UInt8) ≤ UInt8.ofNat (0x30 + d.val) ∧ UInt8.ofNat (0x30 + d.val) ≤ 0x39 := by
      fin_cases d <;> decide
    rw [map_cons, cons_append, takeNumber, if_pos hdigit]
    exact ih _

theorem takeWidth_chars (width : Width) (conv : UInt8) (spec : FmtSpec) (ap : List VaArg) : ∃ spec' : FmtSpec,
    takeWidth (width.chars ++ [0x6c, conv]) spec (width.args ++ ap) = (spec', [0x6c, conv], ap) ∧
      spec'.altForm = spec.altForm := by
  cases width with
  | star n =>
    have hstar : takeWidth ((Width.star n).chars ++ [0x6c, conv]) spec ((Width.star n).args ++ ap) =
        if (n.setWidth 32).toInt < 0 then
          ({ spec with leftAlign := true, zeroPad := false, width := wrapInt (-(n.setWidth 32).toInt) },
            [0x6c, conv], ap)
        else ({ spec with width := (n.setWidth 32).toInt }, [0x6c, conv], ap) := rfl
    rw [hstar]
    split
    · exact ⟨_, rfl, rfl⟩
    · exact ⟨_, rfl, rfl⟩
  | digits ds =>
    have hnumber := takeNumber_digits ds conv 0
    have hwidth : takeWidth ((Width.digits ds).chars ++ [0x6c, conv]) spec ((Width.digits ds).args ++ ap) =
        ({ spec with width := (takeNumber ((Width.digits ds).chars ++ [0x6c, conv]) 0).1 },
          (takeNumber ((Width.digits ds).chars ++ [0x6c, conv]) 0).2, ap) := by
      cases ds with
      | nil => rfl
      | cons d ds => fin_cases d <;> rfl
    refine ⟨{ spec with width := (takeNumber ((Width.digits ds).chars ++ [0x6c, conv]) 0).1 }, ?_, rfl⟩
    rw [hwidth, Width.chars, hnumber]

/-- The formatter comes to the conversion character with some flags and some width. -/
theorem printed_convert (flags : List Flag) (width : Width) (v : BitVec 64) (conv : UInt8) (hconv : conv ≠ 0x6c) :
    ∃ spec : FmtSpec, spec.length = 1 ∧ spec.altForm = decide (Flag.alt ∈ flags) ∧
      printed flags width conv v = charBytes (convert spec conv [.word v]).1 := by
  obtain ⟨spec1, width', hflags, hargs, halt1⟩ := takeFlags_width width conv (flags.foldl Flag.set {})
  rw [← takeFlags_flags] at hflags
  have hzero : ∀ spec : FmtSpec,
      (if spec.leftAlign then { spec with zeroPad := false } else spec).altForm = spec.altForm := by
    intro spec
    split <;> rfl
  obtain ⟨spec2, hwidth, halt2⟩ := takeWidth_chars width' conv
    (if spec1.leftAlign then { spec1 with zeroPad := false } else spec1) [.word v]
  rw [hargs] at hwidth
  have hprecision : takePrecision [0x6c, conv] spec2 [.word v] = (spec2, [0x6c, conv], [.word v]) := rfl
  have hlength : takeLength [0x6c, conv] spec2 = ({ spec2 with length := 1 }, [conv]) := by
    unfold takeLength
    split <;> simp_all
  refine ⟨{ spec2 with length := 1 }, rfl, ?_, ?_⟩
  · rw [foldl_set_alt] at halt1
    rw [halt2, hzero, halt1]
    simp
  · have hend : ∀ fuel ap, vprintfLoop fuel [] ap = [] := fun fuel ap => by cases fuel <;> rfl
    rw [printed, vprintfText, length_cons, vprintfLoop, if_neg (by decide)]
    simp only [hflags, hwidth, hprecision, hlength, hend, append_nil]

theorem charBytes_append (cs cs' : List Int) : charBytes (cs ++ cs') = charBytes cs ++ charBytes cs' := map_append

theorem charBytes_chars (l : List UInt8) : charBytes (chars l) = l := by
  have hbyte : ∀ c : UInt8, UInt8.ofNat ((c.toNat : Int) % 256).toNat = c := by
    intro c
    have hlt := c.toNat_lt
    have hmod : ((c.toNat : Int) % 256).toNat = c.toNat := by omega
    rw [hmod, UInt8.ofNat_toNat]
  rw [charBytes, chars, map_map]
  calc l.map _ = l.map id := map_congr_left fun c _ => hbyte c
    _ = l := map_id l

theorem charBytes_padNumber (spec : FmtSpec) (pre digits : List UInt8) : ∃ a z b : Nat,
    charBytes (padNumber spec pre digits) =
      replicate a 0x20 ++ pre ++ (replicate z 0x30 ++ digits) ++ replicate b 0x20 := by
  have hpad : ∀ (asked : Bool) (c : UInt8) (i n : Int), (c.toNat : Int) = i →
      ∃ k, charBytes (if asked then repeated i n else []) = replicate k c := by
    rintro asked c _ n rfl
    cases asked with
    | false => exact ⟨0, rfl⟩
    | true =>
      have hone := charBytes_chars (replicate n.toNat c)
      rw [chars, map_replicate] at hone
      exact ⟨n.toNat, hone⟩
  obtain ⟨a, ha⟩ := hpad (!spec.leftAlign && !spec.zeroPad) 0x20 0x20
    (wrapInt (spec.width - (pre.length + digits.length : Nat))) rfl
  obtain ⟨z, hz⟩ := hpad (!spec.leftAlign && spec.zeroPad) 0x30 0x30
    (wrapInt (spec.width - (pre.length + digits.length : Nat))) rfl
  obtain ⟨b, hb⟩ := hpad spec.leftAlign 0x20 0x20 (wrapInt (spec.width - (pre.length + digits.length : Nat))) rfl
  refine ⟨a, z, b, ?_⟩
  unfold padNumber
  simp only [charBytes_append, charBytes_chars, ha, hz, hb, append_assoc]

theorem formatted_digits (upper : Bool) {base n : Nat} (hbase : 2 ≤ base) (hle : base ≤ 16) (hn : n < 2 ^ 64) (z : Nat) :
    Digits base (replicate z 0x30 ++ formatDigits base upper 64 n []) ∧
      baseValue base (replicate z 0x30 ++ formatDigits base upper 64 n []) = n ∧
      ∃ front c, replicate z 0x30 ++ formatDigits base upper 64 n [] = front ++ [c] ∧ (digitOf c).isSome := by
  obtain ⟨ds, hds, hall, hval, hne⟩ := formatDigits_base upper hbase hle
    (hn.trans_le (Nat.pow_le_pow_left hbase 64)) []
  rw [append_nil] at hds
  rw [hds]
  refine ⟨(digits_zeros (by omega) z).append hall, by rw [baseValue_zeros, hval], ?_⟩
  have hsplit := dropLast_append_getLast (hne (by decide))
  obtain ⟨d, -, hd⟩ := hall _ (getLast_mem (hne (by decide)))
  refine ⟨replicate z 0x30 ++ ds.dropLast, ds.getLast (hne (by decide)), ?_, by rw [hd]; rfl⟩
  rw [append_assoc, hsplit]

theorem strtoul_number (base : Nat) (neg : Bool) {n a z b : Nat} {upper : Bool} {text pre : List UInt8} (hbase : 2 ≤ base)
    (hle : base ≤ 16) (hn : n < 2 ^ 64)
    (htext : text = replicate a 0x20 ++ pre ++ (replicate z 0x30 ++ formatDigits base upper 64 n []) ++
      replicate b 0x20)
    (hpre : pre = [] ∧ neg = false ∨ pre = [0x20] ∧ neg = false ∨ pre = [0x2b] ∧ neg = false ∨
      pre = [0x2d] ∧ neg = true) :
    ReadsBack text base (if neg then -BitVec.ofNat 64 n else BitVec.ofNat 64 n) := by
  obtain ⟨hds, hval, front, c, hlast, hc⟩ := formatted_digits upper hbase hle hn z
  generalize replicate z 0x30 ++ formatDigits base upper 64 n [] = ds at htext hds hval hlast
  -- what follows the spaces and the sign
  have hstart : detectBase base (ds ++ replicate b 0x20) = ((base : Int), ds ++ replicate b 0x20) := by
    have hne : ds ≠ [] := by
      rw [hlast]
      simp
    by_cases h16 : base = 16
    · subst h16
      exact detectBase_hex hds hne b
    · exact detectBase_plain (by omega) (by omega) _
  have hplain : (ds ++ replicate b 0x20).dropWhile isSpace = ds ++ replicate b 0x20 ∧
      skipSign (ds ++ replicate b 0x20) = (false, ds ++ replicate b 0x20) := by
    cases ds with
    | nil => simp at hlast
    | cons c0 ds =>
      obtain ⟨d, hd, hdigit⟩ := hds c0 mem_cons_self
      obtain ⟨hspace, hminus, hplus, -⟩ := digit_plain hdigit (hd.trans_le hle)
      exact ⟨dropWhile_cons_of_neg (by simp [hspace]), skipSign_plain hminus hplus _⟩
  have hsign : skipSign (text.dropWhile isSpace) = (neg, ds ++ replicate b 0x20) := by
    rw [htext, append_assoc, append_assoc, dropWhile_spaces]
    rcases hpre with ⟨rfl, rfl⟩ | ⟨rfl, rfl⟩ | ⟨rfl, rfl⟩ | ⟨rfl, rfl⟩
    · rw [nil_append, hplain.1, hplain.2]
    · rw [singleton_append, dropWhile_cons_of_pos rfl, hplain.1, hplain.2]
    · rfl
    · rfl
  have hsteps := strtoul_steps (replicate a 0x20 ++ pre ++ front) (by rw [htext, hlast]; simp) hc hsign
    hstart hds
  rwa [hval] at hsteps

theorem strtoul_hex {n : Nat} {base0 : Int} (hbase : base0 = 0 ∨ base0 = 16) (hn : n < 2 ^ 64) (spec : FmtSpec) :
    ReadsBack (charBytes (padNumber spec [0x30, 0x78] (formatHex n false))) base0 (BitVec.ofNat 64 n) := by
  obtain ⟨a, z, b, htext⟩ := charBytes_padNumber spec [0x30, 0x78] (formatDigits 16 false 64 n [])
  obtain ⟨hds, hval, front, c, hlast, hc⟩ := formatted_digits false (by decide) (le_refl 16) hn z
  generalize replicate z 0x30 ++ formatDigits 16 false 64 n [] = ds at htext hds hval hlast
  have hsign : skipSign ((charBytes (padNumber spec [0x30, 0x78] (formatDigits 16 false 64 n []))).dropWhile isSpace) =
      (false, 0x30 :: 0x78 :: (ds ++ replicate b 0x20)) := by
    rw [htext, append_assoc, append_assoc, dropWhile_spaces]
    rfl
  have hsteps := strtoul_steps (replicate a 0x20 ++ [0x30, 0x78] ++ front) (by rw [htext, hlast]; simp) hc
    hsign (detectBase_prefixed hbase rfl _) hds
  rw [hval] at hsteps
  exact hsteps

/-- A zero and octal digits, when the base is to be found. -/
theorem strtoul_octal {text ds : List UInt8} {a b : Nat}
    (htext : text = replicate a 0x20 ++ (0x30 :: ds) ++ replicate b 0x20) (hds : Digits 8 ds) :
    ReadsBack text 0 (BitVec.ofNat 64 (baseValue 8 ds)) := by
  have hlast : ∃ front c, 0x30 :: ds = front ++ [c] ∧ (digitOf c).isSome := by
    have hall : Digits 8 (0x30 :: ds) := (digits_zeros (by decide) 1).append hds
    have hne : 0x30 :: ds ≠ [] := cons_ne_nil _ _
    obtain ⟨d, -, hd⟩ := hall _ (getLast_mem hne)
    exact ⟨_, _, (dropLast_append_getLast hne).symm, by rw [hd]; rfl⟩
  obtain ⟨front, c, hlast, hc⟩ := hlast
  have hsign : skipSign (text.dropWhile isSpace) = (false, 0x30 :: (ds ++ replicate b 0x20)) := by
    rw [htext, append_assoc, dropWhile_spaces]
    rfl
  exact strtoul_steps (replicate a 0x20 ++ front) (by rw [htext, hlast]; simp) hc hsign
    (detectBase_octal hds b) hds

theorem strtoul_zero (spec : FmtSpec) : ReadsBack (charBytes (padNumber spec [] [0x30])) 0 0 := by
  obtain ⟨a, z, b, htext⟩ := charBytes_padNumber spec [] [0x30]
  have hzeros : replicate z 0x30 ++ [0x30] = (0x30 : UInt8) :: replicate z 0x30 := by
    rw [← replicate_succ', replicate_succ]
  rw [append_nil, hzeros] at htext
  have hread := strtoul_octal htext (digits_zeros (by decide) z)
  have hval : baseValue 8 (replicate z 0x30 ++ []) = baseValue 8 [] := baseValue_zeros z []
  rw [append_nil] at hval
  rw [hval] at hread
  exact hread

theorem strtoul_octal_alt {n : Nat} (hn : n < 2 ^ 64) (spec : FmtSpec) :
    ReadsBack (charBytes (padNumber spec [0x30] (formatOctal n))) 0 (BitVec.ofNat 64 n) := by
  obtain ⟨a, z, b, htext⟩ := charBytes_padNumber spec [0x30] (formatOctal n)
  obtain ⟨hds, hval, -⟩ := formatted_digits false (by decide) (by decide : 8 ≤ 16) hn z
  have hread := strtoul_octal (a := a) (b := b) (htext.trans (by rw [append_assoc (replicate a _)]; rfl)) hds
  rwa [hval] at hread

section

variable {spec : FmtSpec}

theorem convert_signed (hlen : spec.length = 1) (v : BitVec 64) : (convert spec 0x64 [.word v]).1 =
    padNumber spec (signOf spec v.toInt) (formatUint v.toInt.natAbs) := by
  have harg : signedArg spec v = v.toInt := by
    rw [signedArg, if_pos (Or.inr (Or.inl hlen))]
  simp only [convert, vaWord, harg]
  rfl

theorem unsignedArg_long (hlen : spec.length = 1) (v : BitVec 64) : unsignedArg spec v = v.toNat := by
  rw [unsignedArg, if_pos (Or.inr (Or.inl hlen))]

theorem convert_unsigned (hlen : spec.length = 1) (v : BitVec 64) :
    (convert spec 0x75 [.word v]).1 = padNumber spec [] (formatUint v.toNat) := by
  simp only [convert, vaWord, unsignedArg_long hlen]
  rfl

theorem convert_octal (hlen : spec.length = 1) (v : BitVec 64) : (convert spec 0x6f [.word v]).1 =
    padNumber spec (if spec.altForm ∧ v.toNat ≠ 0 then [0x30] else []) (formatOctal v.toNat) := by
  simp only [convert, vaWord, unsignedArg_long hlen]
  rfl

theorem convert_hex (hlen : spec.length = 1) (v : BitVec 64) : (convert spec 0x78 [.word v]).1 =
    padNumber spec (if spec.altForm ∧ v.toNat ≠ 0 then [0x30, 0x78] else []) (formatHex v.toNat false) := by
  simp only [convert, vaWord, unsignedArg_long hlen]
  rfl

theorem signed_read_back (spec : FmtSpec) (v : BitVec 64) :
    ReadsBack (charBytes (padNumber spec (signOf spec v.toInt) (formatUint v.toInt.natAbs))) 10 v := by
  have hlt : v.toInt.natAbs < 2 ^ 64 := by
    have hlo := v.le_toInt
    have hhi := v.toInt_lt
    omega
  have hint : BitVec.ofInt 64 v.toInt = v := BitVec.ofInt_toInt
  obtain ⟨a, z, b, htext⟩ := charBytes_padNumber spec (signOf spec v.toInt) (formatUint v.toInt.natAbs)
  by_cases hneg : v.toInt < 0
  · have hsign : signOf spec v.toInt = [0x2d] := if_pos hneg
    have hread := strtoul_number 10 true (by decide) (by decide) hlt htext
      (Or.inr (Or.inr (Or.inr ⟨hsign, rfl⟩)))
    have hval : -BitVec.ofNat 64 v.toInt.natAbs = v := by
      have hnat : v.toInt = -(v.toInt.natAbs : Int) := by omega
      rw [hnat, BitVec.ofInt_neg, BitVec.ofInt_natCast] at hint
      exact hint
    rw [if_pos rfl, hval] at hread
    exact hread
  have hsign : signOf spec v.toInt = [] ∧ false = false ∨ signOf spec v.toInt = [0x20] ∧ false = false ∨
      signOf spec v.toInt = [0x2b] ∧ false = false ∨ signOf spec v.toInt = [0x2d] ∧ false = true := by
    rw [signOf, if_neg hneg]
    split_ifs
    · exact Or.inr (Or.inr (Or.inl ⟨rfl, rfl⟩))
    · exact Or.inr (Or.inl ⟨rfl, rfl⟩)
    · exact Or.inl ⟨rfl, rfl⟩
  have hread := strtoul_number 10 false (by decide) (by decide) hlt htext hsign
  have hval : BitVec.ofNat 64 v.toInt.natAbs = v := by
    have hnat : v.toInt = (v.toInt.natAbs : Int) := by omega
    rw [hnat, BitVec.ofInt_natCast] at hint
    exact hint
  rw [if_neg Bool.false_ne_true, hval] at hread
  exact hread

theorem unsigned_read_back (base : Nat) (hbase : 2 ≤ base) (hle : base ≤ 16) (spec : FmtSpec) (v : BitVec 64) :
    ReadsBack (charBytes (padNumber spec [] (formatDigits base false 64 v.toNat []))) base v := by
  obtain ⟨a, z, b, htext⟩ := charBytes_padNumber spec [] (formatDigits base false 64 v.toNat [])
  have hread := strtoul_number base false hbase hle v.isLt htext (Or.inl ⟨rfl, rfl⟩)
  rwa [if_neg Bool.false_ne_true, BitVec.ofNat_toNat, BitVec.setWidth_eq] at hread

theorem octal_read_back (spec : FmtSpec) (v : BitVec 64) :
    ReadsBack (charBytes (padNumber spec [0x30] (formatOctal v.toNat))) 8 v := by
  obtain ⟨a, z, b, htext⟩ := charBytes_padNumber spec [0x30] (formatOctal v.toNat)
  have hzeros : replicate a 0x20 ++ [0x30] ++ (replicate z 0x30 ++ formatOctal v.toNat) =
      replicate a 0x20 ++ [] ++ (replicate (z + 1) (0x30 : UInt8) ++ formatOctal v.toNat) := by
    rw [replicate_succ]
    simp
  rw [hzeros] at htext
  have hread := strtoul_number 8 false (by decide) (by decide) v.isLt htext (Or.inl ⟨rfl, rfl⟩)
  rwa [if_neg Bool.false_ne_true, BitVec.ofNat_toNat, BitVec.setWidth_eq] at hread

end

/-- **Numbers are read back.** `strtol` and `strtoul` read what `printf` prints for a `long`, whatever the flags and
the width are: `%ld` and `%lu` in base 10, `%lx` in base 16, `%lo` in base 8, and the alternate forms of the last two
when the base is to be found. -/
theorem printed_read_back (v : BitVec 64) (flags : List Flag) (width : Width) :
    ((strtol (printed flags width 0x64 v) 10).1 = v.toInt ∧
      ReadTo (printed flags width 0x64 v) (strtol (printed flags width 0x64 v) 10).2) ∧
    ReadsBack (printed flags width 0x75 v) 10 v ∧
    ReadsBack (printed flags width 0x78 v) 16 v ∧
    ReadsBack (printed flags width 0x6f v) 8 v ∧
    (Flag.alt ∈ flags → ReadsBack (printed flags width 0x78 v) 0 v ∧ ReadsBack (printed flags width 0x6f v) 0 v) := by
  have hv : BitVec.ofNat 64 v.toNat = v := by rw [BitVec.ofNat_toNat, BitVec.setWidth_eq]
  obtain ⟨specd, hlend, -, hd⟩ := printed_convert flags width v 0x64 (by decide)
  obtain ⟨specu, hlenu, -, hu⟩ := printed_convert flags width v 0x75 (by decide)
  obtain ⟨specx, hlenx, haltx, hx⟩ := printed_convert flags width v 0x78 (by decide)
  obtain ⟨speco, hleno, halto, ho⟩ := printed_convert flags width v 0x6f (by decide)
  rw [convert_signed hlend] at hd
  rw [convert_unsigned hlenu] at hu
  rw [convert_hex hlenx] at hx
  rw [convert_octal hleno] at ho
  rw [hd, hu, hx, ho]
  refine ⟨?_, ?_, ?_, ?_, fun halt => ⟨?_, ?_⟩⟩
  · obtain ⟨hval, hstop⟩ := signed_read_back specd v
    exact ⟨congrArg BitVec.toInt hval, hstop⟩
  · exact unsigned_read_back 10 (by decide) (by decide) specu v
  · split_ifs
    · have hread := strtoul_hex (Or.inr rfl) v.isLt specx
      rwa [hv] at hread
    · exact unsigned_read_back 16 (by decide) (by decide) specx v
  · split_ifs
    · exact octal_read_back speco v
    · exact unsigned_read_back 8 (by decide) (by decide) speco v
  · by_cases hzero : v.toNat = 0
    · rw [if_neg fun h => h.2 hzero, hzero]
      have hv0 : v = 0 := BitVec.eq_of_toNat_eq hzero
      rw [hv0]
      exact strtoul_zero specx
    · have hread := strtoul_hex (Or.inl rfl) v.isLt specx
      rw [if_pos ⟨by simpa [haltx] using halt, hzero⟩]
      rwa [hv] at hread
  by_cases hzero : v.toNat = 0
  · rw [if_neg fun h => h.2 hzero, hzero]
    have hv0 : v = 0 := BitVec.eq_of_toNat_eq hzero
    rw [hv0]
    exact strtoul_zero speco
  · have hread := strtoul_octal_alt v.isLt speco
    rw [if_pos ⟨by simpa [halto] using halt, hzero⟩]
    rwa [hv] at hread

end

/-- The smallest `long`, with zeros in front; and zero in the alternate form. -/
theorem printed_read_back_edges :
    (strtol (printed [.zero] (.digits [2, 4]) 0x64 (BitVec.ofNat 64 (2 ^ 63))) 10).1 = -2 ^ 63 ∧
      ReadsBack (printed [.alt, .minus] (.star 6) 0x78 0) 0 0 :=
  ⟨(printed_read_back (BitVec.ofNat 64 (2 ^ 63)) [.zero] (.digits [2, 4])).1.1,
    ((printed_read_back 0 [.alt, .minus] (.star 6)).2.2.2.2 (by decide)).1⟩

end Slopix.Libc
