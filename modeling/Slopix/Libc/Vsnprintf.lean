import Slopix.Lib.Bytes
import Slopix.Lib.Exec
import Slopix.Libc.Decimal
import Slopix.Libc.Output

/-!
# Printing into a buffer

`vprintf_core` over a writer, and `vsnprintf` with the writer that stores what fits. What the formatter hands to
any writer are the characters of `vprintfText`, one after the other; the count is an `int`.
-/

namespace Slopix.Libc

open Lib List

/-! ## The formatter over a writer -/

section

variable {σ : Type} (putc : Int → σ → Int × σ)

/-- `emit_char`: the writer's state and the count; the formatter stops when the writer returns `EOF`. -/
def emitChar (c : Int) : Exec σ (σ × Int) Unit := fun st =>
  if (putc c st.1).1 = eof then .error (putc c st.1).2
  else .ok ((), (putc c st.1).2, wrapInt (st.2 + 1))

/-- `emit_chars`. -/
def emitChars (c : Int) (n : Int) : Exec σ (σ × Int) Unit :=
  Exec.each (fun _ => emitChar putc c) (List.range n.toNat)

/-- `emit_str`. -/
def emitStr (s : List UInt8) (len : Int) : Exec σ (σ × Int) Unit :=
  Exec.each (fun c => emitChar putc (c.toNat : Int)) (s.take len.toNat)

/-- The padding on one side, if it is asked for. -/
def emitPad (asked : Bool) (c pad : Int) : Exec σ (σ × Int) Unit :=
  if asked && decide (0 < pad) then emitChars putc c pad else pure ()

/-- The end of the cases for numbers: `pre` is the sign or the prefix. -/
def emitNumber (spec : FmtSpec) (pre digits : List UInt8) : Exec σ (σ × Int) Unit := do
  let pad := wrapInt (spec.width - (pre.length + digits.length : Nat))
  emitPad putc (!spec.leftAlign && !spec.zeroPad) 0x20 pad
  Exec.each (fun c => emitChar putc (c.toNat : Int)) pre
  emitPad putc (!spec.leftAlign && spec.zeroPad) 0x30 pad
  emitStr putc digits digits.length
  emitPad putc spec.leftAlign 0x20 pad

/-- The end of the cases for text of length `len`. -/
def emitText (spec : FmtSpec) (len : Int) (text : Exec σ (σ × Int) Unit) : Exec σ (σ × Int) Unit := do
  let pad := wrapInt (spec.width - len)
  emitPad putc (!spec.leftAlign) 0x20 pad
  text
  emitPad putc spec.leftAlign 0x20 pad

/-- The `switch` over the conversion character; the arguments that are left. -/
def emitConversion (spec : FmtSpec) (conv : UInt8) (ap : List VaArg) : Exec σ (σ × Int) (List VaArg) :=
  if conv = 0x64 ∨ conv = 0x69 then do
    let val := signedArg spec (vaWord ap).1
    emitNumber putc spec (signOf spec val) (formatUint val.natAbs)
    pure (vaWord ap).2
  else if conv = 0x75 then do
    emitNumber putc spec [] (formatUint (unsignedArg spec (vaWord ap).1))
    pure (vaWord ap).2
  else if conv = 0x6f then do
    let val := unsignedArg spec (vaWord ap).1
    emitNumber putc spec (if spec.altForm ∧ val ≠ 0 then [0x30] else []) (formatOctal val)
    pure (vaWord ap).2
  else if conv = 0x78 ∨ conv = 0x58 then do
    let val := unsignedArg spec (vaWord ap).1
    emitNumber putc spec (if spec.altForm ∧ val ≠ 0 then [0x30, conv] else []) (formatHex val (conv == 0x58))
    pure (vaWord ap).2
  else if conv = 0x70 then do
    let digits := formatHex (vaWord ap).1.toNat false
    let hexbuf := [0x30, 0x78] ++ List.replicate (16 - digits.length) 0x30 ++ digits
    emitText putc spec hexbuf.length (emitStr putc hexbuf hexbuf.length)
    pure (vaWord ap).2
  else if conv = 0x73 then do
    let s := (vaStr ap).1.getD [0x28, 0x6e, 0x75, 0x6c, 0x6c, 0x29]
    let slen := wrapInt s.length
    let slen := if 0 ≤ spec.precision ∧ spec.precision < slen then spec.precision else slen
    emitText putc spec slen (emitStr putc s slen)
    pure (vaStr ap).2
  else if conv = 0x63 then do
    emitText putc spec 1 (emitChar putc ((vaWord ap).1.setWidth 32).toInt)
    pure (vaWord ap).2
  else if conv = 0x25 then do
    emitChar putc 0x25
    pure ap
  else do
    emitChar putc 0x25
    emitChar putc (conv.toNat : Int)
    pure ap

/-- The loop of `vprintf_core`; every pass takes a character of the format. -/
def vprintfCoreLoop : Nat → List UInt8 → List VaArg → Exec σ (σ × Int) Unit
  | 0, _, _ => pure ()
  | _, [], _ => pure ()
  | fuel + 1, c :: fmt, ap =>
    if c ≠ 0x25 then do
      emitChar putc (c.toNat : Int)
      vprintfCoreLoop fuel fmt ap
    else
      let flags := takeFlags fmt {}
      let spec := if flags.1.leftAlign then { flags.1 with zeroPad := false } else flags.1
      let width := takeWidth flags.2 spec ap
      let precision := takePrecision width.2.1 width.1 width.2.2
      let length := takeLength precision.2.1 precision.1
      match length.2 with
      | [] => emitChar putc 0x25
      | conv :: fmt => do
          let ap ← emitConversion putc length.1 conv precision.2.2
          vprintfCoreLoop fuel fmt ap

/-- `vprintf_core`: what it returns, and the writer's state. -/
def vprintfCore (fmt : List UInt8) (ap : List VaArg) (ctx : σ) : Int × σ :=
  match vprintfCoreLoop putc fmt.length fmt ap (ctx, 0) with
  | .ok r => (r.2.2, r.2.1)
  | .error ctx => (-1, ctx)

/-! ## What it emits -/

/-- Characters one after the other. -/
def emitAll (cs : List Int) : Exec σ (σ × Int) Unit := Exec.each (emitChar putc) cs

theorem emitAll_append (cs ds : List Int) :
    emitAll putc (cs ++ ds) = (do emitAll putc cs; emitAll putc ds) := Exec.each_append _ cs ds

theorem emitAll_nil : emitAll putc [] = pure () := rfl

theorem emitAll_one (c : Int) : emitAll putc [c] = emitChar putc c := by
  exact bind_pure _

theorem emitChars_eq (c n : Int) : emitChars putc c n = emitAll putc (repeated c n) := by
  have hmap : repeated c n = (List.range n.toNat).map fun _ => c := by
    rw [repeated, map_const', length_range]
  rw [hmap, emitAll, Exec.each_map]
  rfl

theorem emitStr_eq (s : List UInt8) (len : Int) : emitStr putc s len = emitAll putc (chars (s.take len.toNat)) := by
  rw [chars, emitAll, Exec.each_map]
  rfl

theorem emitPad_eq (asked : Bool) (c pad : Int) :
    emitPad putc asked c pad = emitAll putc (if asked then repeated c pad else []) := by
  unfold emitPad
  cases asked with
  | false => rfl
  | true =>
    by_cases hpad : 0 < pad
    · simp [hpad, emitChars_eq]
    · have hzero : pad.toNat = 0 := by omega
      simp [hpad, repeated, hzero, emitAll_nil]

theorem emitNumber_eq (spec : FmtSpec) (pre digits : List UInt8) :
    emitNumber putc spec pre digits = emitAll putc (padNumber spec pre digits) := by
  have hpre : Exec.each (fun c : UInt8 => emitChar putc (c.toNat : Int)) pre = emitAll putc (chars pre) := by
    rw [chars, emitAll, Exec.each_map]
  have hdigits : digits.take ((digits.length : Nat) : Int).toNat = digits := by
    rw [Int.toNat_natCast, take_length]
  unfold emitNumber padNumber
  simp only [emitPad_eq, hpre, emitStr_eq, hdigits, emitAll_append, bind_assoc]

theorem emitText_eq (spec : FmtSpec) (len : Int) (text : List Int) :
    emitText putc spec len (emitAll putc text) = emitAll putc (padText spec len text) := by
  unfold emitText padText
  simp only [emitPad_eq, emitAll_append, bind_assoc]

theorem emitConversion_eq (spec : FmtSpec) (conv : UInt8) (ap : List VaArg) :
    emitConversion putc spec conv ap = (do
      emitAll putc (convert spec conv ap).1
      pure (convert spec conv ap).2) := by
  have hconst : ∀ s : List UInt8, s.take ((s.length : Nat) : Int).toNat = s := fun s => by
    rw [Int.toNat_natCast, take_length]
  have htwo : (do emitAll putc [0x25]; emitAll putc [(conv.toNat : Int)]; pure ap) =
      (do emitAll putc [0x25, (conv.toNat : Int)]; pure ap) := by
    have hsplit := emitAll_append putc [0x25] [(conv.toNat : Int)]
    rw [singleton_append] at hsplit
    rw [hsplit, bind_assoc]
  unfold emitConversion convert
  simp only [emitNumber_eq, emitStr_eq, emitText_eq, hconst, ← emitAll_one]
  -- two characters are emitted for an unknown conversion; elsewhere both sides are the same program
  split_ifs <;> first | rfl | exact htwo

/-- **Whatever the writer is, it is given the characters of the text.** -/
theorem vprintfCoreLoop_eq (fuel : Nat) (fmt : List UInt8) (ap : List VaArg) :
    vprintfCoreLoop putc fuel fmt ap = emitAll putc (vprintfLoop fuel fmt ap) := by
  induction fuel generalizing fmt ap with
  | zero => rfl
  | succ fuel ih =>
    cases fmt with
    | nil => rfl
    | cons c fmt =>
      rw [vprintfCoreLoop, vprintfLoop]
      by_cases hc : c = 0x25
      · rw [if_neg (not_not.2 hc), if_neg (not_not.2 hc)]
        generalize takeFlags fmt {} = flags
        obtain ⟨spec, rest⟩ := flags
        dsimp only
        generalize (if spec.leftAlign then { spec with zeroPad := false } else spec) = spec
        generalize takeWidth rest spec ap = width
        obtain ⟨spec, rest, ap⟩ := width
        generalize takePrecision rest spec ap = precision
        obtain ⟨spec, rest, ap⟩ := precision
        generalize takeLength rest spec = length
        obtain ⟨spec, rest⟩ := length
        cases rest with
        | nil => exact (emitAll_one putc 0x25).symm
        | cons conv rest =>
          dsimp only
          rw [emitConversion_eq, emitAll_append, bind_assoc]
          simp only [pure_bind, ih]
      · rw [if_pos hc, if_pos hc, ih]
        rfl

end

/-! ## Counting and storing -/

/-- `StrWriterCtx`. -/
structure StrWriterCtx where
  buf : Option Bytes
  size : BitVec 64
  pos : BitVec 64

/-- `str_putc`: past the end only the position moves. -/
def strPutc (c : Int) (s : StrWriterCtx) : Int × StrWriterCtx :=
  let uc := UInt8.ofNat (c % 256).toNat
  ((uc.toNat : Int),
    { s with
      buf := s.buf.map fun buf => if s.pos < s.size - 1 then Function.update buf s.pos.toNat uc else buf
      pos := s.pos + 1 })

/-- `vsnprintf`: what it returns, and the memory from `str` on. -/
def vsnprintf (str : Option Bytes) (size : BitVec 64) (fmt : List UInt8) (ap : List VaArg) : Int × Option Bytes :=
  let ctx : StrWriterCtx := if str.isNone ∨ size = 0 then ⟨none, 0, 0⟩ else ⟨str, size, 0⟩
  let r := vprintfCore strPutc fmt ap ctx
  match r.2.buf with
  | none => (r.1, str)
  | some buf =>
    if 0 < r.2.size then
      (r.1, some (Function.update buf (if r.2.pos < r.2.size then r.2.pos else r.2.size - 1).toNat 0))
    else (r.1, some buf)

section

variable {b : Bytes} {size : BitVec 64}

/-- The writer behind the characters `bs`. -/
def stored (b : Bytes) (size : BitVec 64) (bs : List UInt8) : StrWriterCtx :=
  ⟨some (putBytes b 0 (bs.take (size.toNat - 1))), size, BitVec.ofNat 64 bs.length⟩

/-- A character is stored when there is room for it and a NUL behind it. -/
theorem strPutc_stored (b : Bytes) (bs : List UInt8) (c : Int) (hsize : 0 < size) (hlt : bs.length < 2 ^ 64) :
    (strPutc c (stored b size bs)).2 = stored b size (bs ++ [UInt8.ofNat (c % 256).toNat]) := by
  have hpos : (BitVec.ofNat 64 bs.length).toNat = bs.length := by
    rw [BitVec.toNat_ofNat, Nat.mod_eq_of_lt hlt]
  have hroom : size.toNat ≠ 0 := by
    intro hzero
    rw [BitVec.lt_def, hzero] at hsize
    exact absurd hsize (Nat.not_lt_zero _)
  have hlast : (size - 1).toNat = size.toNat - 1 := by
    rw [BitVec.toNat_sub]
    have hone : (1 : BitVec 64).toNat = 1 := rfl
    omega
  have hnext : BitVec.ofNat 64 bs.length + 1 = BitVec.ofNat 64 (bs.length + 1) := (BitVec.ofNat_add _ _).symm
  unfold strPutc stored
  simp only [Option.map_some, BitVec.lt_def, hpos, hlast, hnext, length_append, length_singleton]
  congr 2
  split_ifs with hfits
  · rw [take_of_length_le (Nat.le_of_lt hfits), take_of_length_le, putBytes_snoc]
    rw [length_append, length_singleton]
    exact hfits
  · rw [take_append_of_le_length (Nat.not_lt.1 hfits)]

/-- The bytes behind the buffer are those of `b`. -/
structure Inside (b : Bytes) (size : BitVec 64) (s : StrWriterCtx) : Prop where
  same : s.size = size
  kept : ∃ buf, s.buf = some buf ∧ ∀ i, size.toNat ≤ i → buf i = b i

/-- No store is behind the buffer, however long the text is. -/
theorem Inside.strPutc {s : StrWriterCtx} (h : Inside b size s) (c : Int) (hsize : 0 < size) :
    Inside b size (strPutc c s).2 := by
  obtain ⟨buf, hbuf, hout⟩ := h.kept
  refine ⟨h.same, ?_⟩
  by_cases hroom : s.pos < s.size - 1
  · refine ⟨Function.update buf s.pos.toNat (UInt8.ofNat (c % 256).toNat), ?_, fun i hi => ?_⟩
    · simp only [Libc.strPutc, hbuf, Option.map_some, if_pos hroom]
    have hlt : s.pos.toNat < size.toNat := by
      rw [h.same, BitVec.lt_def, BitVec.toNat_sub] at hroom
      rw [BitVec.lt_def] at hsize
      have hone : (1 : BitVec 64).toNat = 1 := rfl
      omega
    rw [Function.update_of_ne (by omega)]
    exact hout i hi
  · exact ⟨buf, by simp only [Libc.strPutc, hbuf, Option.map_some, if_neg hroom], hout⟩

theorem wrapInt_wrapInt_add (x y : Int) : wrapInt (wrapInt x + y) = wrapInt (x + y) := Int.bmod_add_bmod

/-- A writer that takes every character gets all of them. -/
theorem emitAll_taken {σ : Type} {putc : Int → σ → Int × σ} (h : ∀ c s, (putc c s).1 ≠ eof) (cs : List Int) (s : σ)
    (k : Int) :
    emitAll putc cs (s, wrapInt k) =
      .ok ((), cs.foldl (fun s c => (putc c s).2) s, wrapInt (k + cs.length)) := by
  induction cs generalizing s k with
  | nil =>
    rw [length_nil, foldl_nil]
    simp only [Int.ofNat_zero, Int.add_zero]
    rfl
  | cons c cs ih =>
    have hone : emitChar putc c (s, wrapInt k) = .ok ((), (putc c s).2, wrapInt (k + 1)) := by
      rw [emitChar, if_neg (h c s), wrapInt_wrapInt_add]
    have hrest := ih (putc c s).2 (k + 1)
    rw [emitAll] at hrest ⊢
    rw [Exec.each, Exec.bind_ok hone, hrest, foldl_cons, length_cons]
    congr 4
    omega

theorem strPutc_ne_eof (c : Int) (s : StrWriterCtx) : (strPutc c s).1 ≠ eof := by
  unfold strPutc eof
  dsimp only
  omega

theorem foldl_stored (b : Bytes) (cs : List Int) (bs : List UInt8) (hsize : 0 < size)
    (hlt : bs.length + cs.length < 2 ^ 64) :
    cs.foldl (fun s c => (strPutc c s).2) (stored b size bs) = stored b size (bs ++ charBytes cs) := by
  induction cs generalizing bs with
  | nil => simp [charBytes]
  | cons c cs ih =>
    rw [length_cons] at hlt
    rw [foldl_cons, strPutc_stored b bs c hsize (by omega), ih]
    · simp [charBytes]
    · rw [length_append, length_singleton]
      omega

theorem foldl_inside {s : StrWriterCtx} (h : Inside b size s) (cs : List Int) (hsize : 0 < size) :
    Inside b size (cs.foldl (fun s c => (strPutc c s).2) s) := by
  induction cs generalizing s with
  | nil => exact h
  | cons c cs ih => exact ih (h.strPutc c hsize)

theorem vprintfCore_str (fmt : List UInt8) (ap : List VaArg) (ctx : StrWriterCtx) :
    vprintfCore strPutc fmt ap ctx =
      (wrapInt (vprintfText fmt ap).length, (vprintfText fmt ap).foldl (fun s c => (strPutc c s).2) ctx) := by
  have hrun := emitAll_taken strPutc_ne_eof (vprintfText fmt ap) ctx 0
  have hzero : wrapInt 0 = 0 := rfl
  rw [hzero, Int.zero_add] at hrun
  have hcore : vprintfCoreLoop strPutc fmt.length fmt ap (ctx, 0) = _ :=
    (congrFun (vprintfCoreLoop_eq strPutc fmt.length fmt ap) (ctx, 0)).trans hrun
  rw [vprintfCore, hcore]

theorem wrapInt_eq_iff (n : Nat) : wrapInt n = n ↔ n < 2 ^ 31 := by
  unfold wrapInt
  rw [Int.bmod_def]
  split <;> omega

theorem vsnprintf_some (b : Bytes) (fmt : List UInt8) (ap : List VaArg) (hsize : 0 < size) :
    ∃ ctx buf, ctx = (vprintfText fmt ap).foldl (fun s c => (strPutc c s).2) (stored b size []) ∧
      Inside b size ctx ∧ ctx.buf = some buf ∧
      vsnprintf (some b) size fmt ap = (wrapInt (vprintfText fmt ap).length,
        some (Function.update buf (if ctx.pos < size then ctx.pos else size - 1).toNat 0)) := by
  have hstart : (⟨some b, size, 0⟩ : StrWriterCtx) = stored b size [] := by
    have hnil : putBytes b 0 [] = b := by
      funext i
      simp [putBytes]
    rw [stored, take_nil, hnil]
    rfl
  have hin : Inside b size (stored b size []) := ⟨rfl, b, by rw [← hstart], fun _ _ => rfl⟩
  have hend := foldl_inside hin (vprintfText fmt ap) hsize
  obtain ⟨buf, hbuf, -⟩ := hend.kept
  refine ⟨_, buf, rfl, hend, hbuf, ?_⟩
  have hne : size ≠ 0 := by
    rintro rfl
    exact absurd hsize (BitVec.lt_irrefl _)
  have hctx : ¬ ((some b).isNone = true ∨ size = 0) := by
    rintro (hnone | hzero)
    · cases hnone
    · exact hne hzero
  simp only [vsnprintf, if_neg hctx, vprintfCore_str, hstart, hbuf, hend.same, if_pos hsize]

end

theorem vsnprintf_none {str : Option Bytes} {size : BitVec 64} (fmt : List UInt8) (ap : List VaArg)
    (h : str.isNone ∨ size = 0) : vsnprintf str size fmt ap = (wrapInt (vprintfText fmt ap).length, str) := by
  have hnone : ((vprintfText fmt ap).foldl (fun s c => (strPutc c s).2) (⟨none, 0, 0⟩ : StrWriterCtx)).buf = none :=
    List.foldlRecOn (motive := fun s : StrWriterCtx => s.buf = none) _ _ rfl fun s hs c _ => by simp [strPutc, hs]
  simp only [vsnprintf, if_pos h, vprintfCore_str, hnone]

theorem pos_of_ne_zero {size : BitVec 64} (h : size ≠ 0) : 0 < size := by
  rw [BitVec.lt_def]
  have hne : size.toNat ≠ 0 := fun hzero => h (BitVec.eq_of_toNat_eq hzero)
  have hzero : (0 : BitVec 64).toNat = 0 := rfl
  omega

theorem vsnprintf_fst (str : Option Bytes) (size : BitVec 64) (fmt : List UInt8) (ap : List VaArg) :
    (vsnprintf str size fmt ap).1 = wrapInt (vprintfText fmt ap).length := by
  by_cases hsize : size = 0
  · rw [vsnprintf_none fmt ap (Or.inr hsize)]
  cases str with
  | none => rw [vsnprintf_none fmt ap (Or.inl rfl)]
  | some b =>
    obtain ⟨ctx, buf, -, -, -, hrun⟩ := vsnprintf_some b fmt ap (pos_of_ne_zero hsize)
    rw [hrun]

theorem vsnprintf_stores (b : Bytes) {size : BitVec 64} {fmt : List UInt8} {ap : List VaArg} (hsize : 0 < size)
    (hlen : (vprintfText fmt ap).length < 2 ^ 64) : (vsnprintf (some b) size fmt ap).2 =
      some (putBytes b 0 ((charBytes (vprintfText fmt ap)).take (size.toNat - 1) ++ [0])) := by
  obtain ⟨ctx, buf, hctx, -, hbuf, hrun⟩ := vsnprintf_some b fmt ap hsize
  have hbytes : (charBytes (vprintfText fmt ap)).length = (vprintfText fmt ap).length := length_map _
  rw [foldl_stored b _ [] hsize (by simpa using hlen), nil_append] at hctx
  have hpos : ctx.pos.toNat = (vprintfText fmt ap).length := by
    rw [hctx, stored, BitVec.toNat_ofNat, hbytes, Nat.mod_eq_of_lt hlen]
  have hstored : buf = putBytes b 0 ((charBytes (vprintfText fmt ap)).take (size.toNat - 1)) := by
    rw [hctx] at hbuf
    exact (Option.some.inj hbuf).symm
  have hlast : (size - 1).toNat = size.toNat - 1 := by
    rw [BitVec.lt_def] at hsize
    have hone : (1 : BitVec 64).toNat = 1 := rfl
    rw [BitVec.toNat_sub]
    omega
  have hplace : (if ctx.pos < size then ctx.pos else size - 1).toNat =
      min (size.toNat - 1) (vprintfText fmt ap).length := by
    split_ifs with hfits
    · rw [BitVec.lt_def] at hfits
      omega
    · rw [BitVec.lt_def] at hfits
      omega
  rw [hrun, putBytes_snoc, hstored, length_take, hbytes, hplace]

/-- Nothing changes behind the buffer, however long the text is. -/
theorem vsnprintf_inside (b : Bytes) (size : BitVec 64) (fmt : List UInt8) (ap : List VaArg) :
    ∃ b', (vsnprintf (some b) size fmt ap).2 = some b' ∧ ∀ i, size.toNat ≤ i → b' i = b i := by
  by_cases hsize : size = 0
  · rw [vsnprintf_none fmt ap (Or.inr hsize)]
    exact ⟨b, rfl, fun _ _ => rfl⟩
  have hpos := pos_of_ne_zero hsize
  obtain ⟨ctx, buf, -, hin, hbuf, hrun⟩ := vsnprintf_some b fmt ap hpos
  obtain ⟨buf', hbuf', hout⟩ := hin.kept
  obtain rfl : buf = buf' := Option.some.inj (hbuf.symm.trans hbuf')
  rw [hrun]
  refine ⟨_, rfl, fun i hi => ?_⟩
  have hterm : (if ctx.pos < size then ctx.pos else size - 1).toNat < size.toNat := by
    rw [BitVec.lt_def] at hpos
    have hone : (1 : BitVec 64).toNat = 1 := rfl
    split_ifs with hfits
    · exact hfits
    · rw [BitVec.toNat_sub]
      omega
  rw [Function.update_of_ne (by omega)]
  exact hout i hi

/-- **`vsnprintf`.** It returns the length of the text exactly when an `int` holds it; it stores what fits of the text
and a NUL behind that; and nothing changes behind the buffer. -/
theorem vsnprintf_text (fmt : List UInt8) (ap : List VaArg) (size : BitVec 64) :
    (∀ str, (vsnprintf str size fmt ap).1 = (vprintfText fmt ap).length ↔ (vprintfText fmt ap).length < 2 ^ 31) ∧
    (∀ b : Bytes, 0 < size → (vprintfText fmt ap).length < 2 ^ 64 → (vsnprintf (some b) size fmt ap).2 =
      some (putBytes b 0 ((charBytes (vprintfText fmt ap)).take (size.toNat - 1) ++ [0]))) ∧
    (∀ b : Bytes, ∃ b', (vsnprintf (some b) size fmt ap).2 = some b' ∧ ∀ i, size.toNat ≤ i → b' i = b i) ∧
    (vsnprintf none size fmt ap).2 = none := by
  refine ⟨fun str => ?_, fun b => vsnprintf_stores b, fun b => vsnprintf_inside b size fmt ap, ?_⟩
  · rw [vsnprintf_fst]
    exact wrapInt_eq_iff _
  · rw [vsnprintf_none fmt ap (Or.inl rfl)]

/-- `snprintf(buf, 4, "%05d", 42)`. -/
theorem vsnprintf_text_cut : (vsnprintf (some fun _ => 0xff) 4 [0x25, 0x30, 0x35, 0x64] [.word 42]).1 = 5 ∧
    (vsnprintf (some fun _ => 0xff) 4 [0x25, 0x30, 0x35, 0x64] [.word 42]).2 =
      some (putBytes (fun _ => 0xff) 0 [0x30, 0x30, 0x30, 0]) := by
  obtain ⟨hret, hstore, -⟩ := vsnprintf_text [0x25, 0x30, 0x35, 0x64] [.word 42] 4
  exact ⟨(hret _).2 (by decide), hstore _ (by decide) (by decide)⟩

/-! ## More than an `int` counts -/

theorem padNumber_length (spec : FmtSpec) (pre digits : List UInt8) :
    (padNumber spec pre digits).length =
      pre.length + digits.length + (wrapInt (spec.width - (pre.length + digits.length : Nat))).toNat := by
  unfold padNumber chars repeated
  cases spec.leftAlign <;> cases spec.zeroPad <;> simp <;> omega

/-- `"%2147483647d%d"` -/
def longFmt : List UInt8 := [0x25, 0x32, 0x31, 0x34, 0x37, 0x34, 0x38, 0x33, 0x36, 0x34, 0x37, 0x64, 0x25, 0x64]

theorem longFmt_text : vprintfText longFmt [.word 0, .word 0] =
    padNumber { width := 2147483647 } [] [0x30] ++ padNumber {} [] [0x30] := by
  have hwidth : takeNumber [0x32, 0x31, 0x34, 0x37, 0x34, 0x38, 0x33, 0x36, 0x34, 0x37, 0x64, 0x25, 0x64] 0 =
      (2147483647, [0x64, 0x25, 0x64]) := by decide
  have hwidth' : takeNumber [0x64] 0 = (0, [0x64]) := by decide
  have hzero : formatUint 0 = [0x30] := by decide
  simp [vprintfText, longFmt, vprintfLoop, takeFlags, takeWidth, takePrecision, takeLength, hwidth, hwidth', convert,
    vaWord, signedArg, signOf, hzero]

/-- `snprintf(NULL, 0, "%2147483647d%d", 0, 0)` returns `INT_MIN`: the text has 2^31 characters. -/
theorem vsnprintf_long : (vprintfText longFmt [.word 0, .word 0]).length = 2 ^ 31 ∧
    (vsnprintf none 0 longFmt [.word 0, .word 0]).1 = -2 ^ 31 := by
  have hlen : (vprintfText longFmt [.word 0, .word 0]).length = 2 ^ 31 := by
    rw [longFmt_text, length_append, padNumber_length, padNumber_length]
    rfl
  refine ⟨hlen, ?_⟩
  rw [vsnprintf_fst, hlen]
  rfl

end Slopix.Libc
