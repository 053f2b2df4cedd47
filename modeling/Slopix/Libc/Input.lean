import Slopix.Lib.Simulation
import Slopix.Libc.Buffers

/-!
# Buffered input

The reading calls of `libc/stdio_file.c` on a file whose contents stay as they are. The kernel answers a
`read` with some of the bytes that are left, at least one of them. The position of the stream is the offset
of the descriptor less what is left in the buffer; the reference reads the same bytes without a buffer.
-/

namespace Slopix.Stdio

open Lib List Option Int

/-! ## The kernel's side -/

/-- An open file: what it holds, the offset of the descriptor, and how many reads there were. -/
structure Desc where
  content : List UInt8
  off : BitVec 32
  reads : Nat
  small : content.length < 2 ^ 32

/-- Arithmetic of `long`. -/
def int64 (x : Int) : Int := x.bmod (2 ^ 64)

/-- `read` of at most `n` bytes. `short` says how many bytes the kernel is ready to give at each read. -/
def Desc.read (short : Nat → Nat) (n : Nat) (d : Desc) : List UInt8 × Desc :=
  let got := (d.content.drop d.off.toNat).take (min n (max 1 (short d.reads)))
  (got, { d with off := d.off + BitVec.ofNat 32 got.length, reads := d.reads + 1 })

/-- Where `lseek` counts from. -/
def Desc.base (d : Desc) (whence : Int) : Option Int :=
  if whence = 0 then some 0
  else if whence = 1 then some d.off.toNat
  else if whence = 2 then some d.content.length
  else none

/-- `lseek`; every error is -1. -/
def Desc.lseek (offset whence : Int) (d : Desc) : Int × Desc :=
  match d.base whence with
  | none => (-1, d)
  | some base =>
    let newoff := int64 (base + offset)
    if newoff < 0 then (-1, d) else (newoff, { d with off := BitVec.ofInt 32 newoff })

/-! ## The calls of a stream -/

/-- A stream and its descriptor. -/
structure Input where
  file : File
  desc : Desc

/-- The answers of the kernel and the allocator to one call. -/
def Desc.answers (given : Option Bytes) (data : List UInt8) (d : Desc) : Answers where
  alloc := given
  write := -1
  read := some data
  tell := (d.lseek 0 1).1
  lseek offset whence := (d.lseek offset whence).1

/-- How many bytes `fgetc` asks the kernel for, when it does. -/
def askedBytes (k : Answers) (f : File) : Option Nat :=
  if !f.read then none
  else (ensureRbuf k f).bind fun f => if f.rbufLen ≤ f.rbufPos then some f.rbufSize.toNat else none

/-- `fgetc`, where the descriptor answers the read that it asks for. -/
def Input.fgetc (short : Nat → Nat) (given : Option Bytes) (s : Input) : Option (Int × Input) :=
  match askedBytes (s.desc.answers given []) s.file with
  | none => (Stdio.fgetc (s.desc.answers given []) s.file).map fun r => (r.1, { s with file := r.2 })
  | some n =>
    let got := s.desc.read short n
    (Stdio.fgetc (s.desc.answers given got.1) s.file).map fun r => (r.1, { file := r.2, desc := got.2 })

/-- The loop of `fgets`: at most `n` bytes, up to a newline. -/
def fgetsLoop (short : Nat → Nat) (given : Option Bytes) : Nat → Input → Option (List UInt8 × Input)
  | 0, s => some ([], s)
  | n + 1, s =>
    (s.fgetc short given).bind fun r =>
      if r.1 = eof then some ([], r.2)
      else
        let c := UInt8.ofNat (r.1 % 256).toNat
        if r.1 = 10 then some ([c], r.2)
        else (fgetsLoop short given n r.2).map fun q => (c :: q.1, q.2)

/-- `fgets`: what it stores, or nothing when it returns `NULL`. -/
def Input.fgets (short : Nat → Nat) (given : Option Bytes) (size : Int) (s : Input) :
    Option (Option (List UInt8) × Input) :=
  if size ≤ 0 then some (none, s)
  else
    (fgetsLoop short given (size - 1).toNat s).map fun r =>
      (if r.1.length = 0 then none else some (r.1 ++ [0]), r.2)

/-- The loop of `fread`: at most `n` bytes. -/
def freadLoop (short : Nat → Nat) (given : Option Bytes) : Nat → Input → Option (List UInt8 × Input)
  | 0, s => some ([], s)
  | n + 1, s =>
    (s.fgetc short given).bind fun r =>
      if r.1 = eof then some ([], r.2)
      else (freadLoop short given n r.2).map fun q => (UInt8.ofNat (r.1 % 256).toNat :: q.1, q.2)

/-- `fread`: what it stores, and what it returns. -/
def Input.fread (short : Nat → Nat) (given : Option Bytes) (size count : BitVec 64) (s : Input) :
    Option ((List UInt8 × Nat) × Input) :=
  if size = 0 ∨ count = 0 then some (([], 0), s)
  else (freadLoop short given (size * count).toNat s).map fun r => ((r.1, r.1.length / size.toNat), r.2)

/-- The arguments of the `lseek` that `fseek` ends with. -/
def seekArgs (k : Answers) (offset whence : Int) (f : File) : Option (Int × Int) :=
  if f.fd < 0 then none
  else if whence = 1 then
    if k.tell < 0 then none else some (k.tell - (f.rbufLen - f.rbufPos) + offset, 0)
  else some (offset, whence)

/-- `fseek`, with its `lseek` on the descriptor. -/
def Input.fseek (offset whence : Int) (s : Input) : Option (Int × Input) :=
  let k := s.desc.answers none []
  (Stdio.fseek k offset whence s.file).map fun r =>
    (r.1, { file := r.2
            desc := match seekArgs k offset whence s.file with
              | none => s.desc
              | some args => (s.desc.lseek args.1 args.2).2 })

/-- `ftell`. -/
def Input.ftell (s : Input) : Int :=
  let pos := (s.desc.lseek 0 1).1
  if s.file.fd < 0 then -1
  else if pos < 0 then -1
  else pos - (s.file.rbufLen - s.file.rbufPos) + s.file.wbufPos

/-- The reading calls. -/
inductive InputCall where
  | fgetc
  | fgets (size : Int)
  | fread (size count : BitVec 64)
  | fseek (offset : BitVec 64) (whence : Int)
  | ftell

/-- What a call gives to its caller. -/
inductive Reply where
  | int (r : Int)
  | line (s : Option (List UInt8))
  | items (bytes : List UInt8) (n : Nat)
  deriving DecidableEq

/-- A call, with the memory that the allocator gives to it. -/
def Input.run (short : Nat → Nat) (s : Input) (step : InputCall × Option Bytes) : Option (Reply × Input) :=
  match step.1 with
  | .fgetc => (s.fgetc short step.2).map fun r => (.int r.1, r.2)
  | .fgets size => (s.fgets short step.2 size).map fun r => (.line r.1, r.2)
  | .fread size count => (s.fread short step.2 size count).map fun r => (.items r.1.1 r.1.2, r.2)
  | .fseek offset whence => (s.fseek offset.toInt whence).map fun r => (.int r.1, r.2)
  | .ftell => some (.int s.ftell, s)

/-! ## Without a buffer -/

/-- The first `n` bytes, no further than a newline. -/
def takeLine : Nat → List UInt8 → List UInt8
  | 0, _ => []
  | _ + 1, [] => []
  | n + 1, c :: l => c :: if c = 10 then [] else takeLine n l

/-- Where a seek goes, when there is such a position in a `long`. -/
def seekTarget (content : List UInt8) (pos : Nat) (offset whence : Int) : Option Nat :=
  let base : Option Int :=
    if whence = 0 then some 0 else if whence = 1 then some pos else if whence = 2 then some content.length else none
  base.bind fun b => if 0 ≤ b + offset ∧ b + offset < 2 ^ 63 then some (b + offset).toNat else none

/-- The abstract `fgetc`: the byte at the position. -/
def getByte (content : List UInt8) (pos : Nat) : Int × Nat :=
  match content[pos]? with
  | some c => (c.toNat, pos + 1)
  | none => (eof, pos)

/-- A call on the bytes of the file and a position. -/
def plainRun (content : List UInt8) (pos : Nat) (step : InputCall × Option Bytes) : Reply × Nat :=
  match step.1 with
  | .fgetc => (.int (getByte content pos).1, (getByte content pos).2)
  | .fgets size =>
    let got := takeLine (size - 1).toNat (content.drop pos)
    (.line (if got = [] then none else some (got ++ [0])), pos + got.length)
  | .fread size count =>
    let got := (content.drop pos).take (size.toNat * count.toNat)
    (.items got (got.length / size.toNat), pos + got.length)
  | .fseek offset whence =>
    match seekTarget content pos offset.toInt whence with
    | none => (.int (-1), pos)
    | some target => (.int 0, target)
  | .ftell => (.int pos, pos)

/-! ## What is in the buffer -/

/-- The stream is at `pos`: the buffer holds the bytes from there up to the offset of the descriptor. -/
structure Ahead (content : List UInt8) (s : Input) (pos : Nat) : Prop where
  inv : Inv s.file
  read : s.file.read = true
  write : s.file.write = false
  fd : 0 ≤ s.file.fd
  wpos : s.file.wbufPos = 0
  same : s.desc.content = content
  off : (s.desc.off.toNat : Int) = pos + (s.file.rbufLen - s.file.rbufPos)
  room : ∀ b, s.file.rbuf = some b → 0 < s.file.rbufSize
  fresh : s.file.rbuf = none → s.file.rbufSize = 0
  bytes : ∀ b, s.file.rbuf = some b → ∀ i : Nat, s.file.rbufPos + i < s.file.rbufLen →
    content[pos + i]? = some (b.bytes (s.file.rbufPos.toNat + i))

section

variable {content : List UInt8} {s : Input} {pos : Nat} (short : Nat → Nat) {given : Option Bytes} {b : Buffer}

/-- The stream has a buffer, or gets one. -/
def Roomy (s : Input) (given : Option Bytes) : Prop := s.file.rbuf.isSome ∨ given.isSome

theorem read_fst (d : Desc) (n : Nat) : ∃ m, (d.read short n).1 = (d.content.drop d.off.toNat).take m ∧
    m ≤ n ∧ (0 < n → 0 < m) :=
  ⟨min n (max 1 (short d.reads)), rfl, min_le_left _ _, fun h => by omega⟩

theorem read_content (d : Desc) (n : Nat) : (d.read short n).2.content = d.content := rfl

theorem read_off (d : Desc) (n : Nat) (hoff : d.off.toNat ≤ d.content.length) :
    (d.read short n).2.off.toNat = d.off.toNat + (d.read short n).1.length := by
  have hsmall := d.small
  obtain ⟨m, hm, -⟩ := read_fst short d n
  have hlen : (d.read short n).1.length ≤ d.content.length - d.off.toNat := by
    rw [hm, length_take, length_drop]
    exact min_le_right _ _
  have hadd : (d.read short n).2.off = d.off + BitVec.ofNat 32 (d.read short n).1.length := rfl
  rw [hadd, BitVec.toNat_add, BitVec.toNat_ofNat]
  omega

theorem read_behind (d : Desc) (n : Nat) (hoff : d.content.length ≤ d.off.toNat) :
    (d.read short n).1 = [] ∧ (d.read short n).2.off = d.off := by
  have hnil : (d.read short n).1 = [] := by
    obtain ⟨m, hm, -⟩ := read_fst short d n
    rw [hm, drop_eq_nil_of_le hoff, take_nil]
  have hadd : (d.read short n).2.off = d.off + BitVec.ofNat 32 (d.read short n).1.length := rfl
  refine ⟨hnil, ?_⟩
  rw [hadd, hnil, length_nil, BitVec.add_zero]

theorem fillFront_bytes {got : List UInt8} {m i : Nat} (hgot : got = (content.drop pos).take m) (hi : i < got.length) :
    content[pos + i]? = some ((fillFront b got).bytes i) := by
  have hput : (fillFront b got).bytes i = got[i] := by
    simp [fillFront, putBytes, hi]
  have hsome : got[i]? = some got[i] := getElem?_eq_getElem hi
  rw [hput, ← hsome, hgot, getElem?_take_of_lt, getElem?_drop]
  rw [hgot, length_take] at hi
  omega

theorem Ahead.ensure (h : Ahead content s pos) (hroom : Roomy s given) {k : Answers} (hk : k.alloc = given) :
    ∃ f b, ensureRbuf k s.file = some f ∧ f.rbuf = some b ∧ Ahead content { s with file := f } pos := by
  cases hb : s.file.rbuf with
  | some b => exact ⟨s.file, b, by rw [ensureRbuf, hb], hb, h⟩
  | none =>
    obtain ⟨bytes, rfl⟩ : ∃ bytes, given = some bytes := by
      rw [Roomy, hb] at hroom
      exact isSome_iff_exists.1 (hroom.resolve_left (by simp))
    have hzero := h.fresh hb
    have hbounds := h.inv.bounds.rbuf
    have hoff := h.off
    refine ⟨_, { size := bufsiz.toNat, bytes }, by rw [ensureRbuf, hb, malloc, hk]; rfl, rfl, ?_⟩
    exact {
      inv := h.inv.setRead _ 0 0 bufsiz (le_refl 0) (le_refl 0) (by decide) (self_le_toNat _) (by decide)
      read := h.read
      write := h.write
      fd := h.fd
      wpos := h.wpos
      same := h.same
      off := by
        dsimp only
        omega
      room := fun b hb => by
        dsimp only
        decide
      fresh := fun hnone => by cases hnone
      bytes := fun b hb i hi => by
        dsimp only at hi
        omega }

/-- A byte from the buffer. -/
theorem Ahead.takeByte (h : Ahead content s pos) (hb : s.file.rbuf = some b) (hlt : s.file.rbufPos < s.file.rbufLen) :
    ∃ f, Stdio.takeByte s.file = some ((getByte content pos).1, f) ∧ f.rbuf = some b ∧
      Ahead content { s with file := f } (getByte content pos).2 := by
  obtain ⟨hpos, hle, hlen⟩ := h.inv.bounds.rbuf
  have hsize := h.inv.rsize b hb
  have hint := h.inv.rlen
  have hoff := h.off
  have hbyte := h.bytes b hb 0 (by omega)
  have hget : getByte content pos = (((b.bytes s.file.rbufPos.toNat).toNat : Int), pos + 1) := by
    rw [add_zero, add_zero] at hbyte
    simp only [getByte, hbyte]
  have hnext : int32 (s.file.rbufPos + 1) = s.file.rbufPos + 1 := int32_of_range (by omega) (by omega)
  have hhas : b.Has s.file.rbufPos := ⟨hpos, by omega⟩
  refine ⟨{ s.file with rbuf := some b, rbufPos := s.file.rbufPos + 1 }, ?_, rfl, ?_⟩
  · rw [Stdio.takeByte, hb, bind_some, Buffer.load, if_pos hhas, hget, hnext]
    rfl
  rw [hget]
  exact {
    inv := h.inv.setRead b _ s.file.rbufLen s.file.rbufSize (by omega) (by omega) hlen hsize hint
    read := h.read
    write := h.write
    fd := h.fd
    wpos := h.wpos
    same := h.same
    off := by
      dsimp only
      omega
    room := fun _ _ => h.room b hb
    fresh := fun hnone => by cases hnone
    bytes := fun b' hb' i hi => by
      cases hb'
      dsimp only at hi ⊢
      have hold := h.bytes b hb (i + 1) (by omega)
      have hplace : (s.file.rbufPos + 1).toNat + i = s.file.rbufPos.toNat + (i + 1) := by omega
      rw [hplace, ← hold]
      congr 1
      omega }

/-- A byte from a new buffer, or the end of the file. -/
theorem Ahead.refill (h : Ahead content s pos) (hb : s.file.rbuf = some b) (hempty : s.file.rbufLen ≤ s.file.rbufPos)
    {k : Answers} (hk : k.read = some (s.desc.read short s.file.rbufSize.toNat).1) :
    ∃ f, Stdio.refill k b s.file = some ((getByte content pos).1, f) ∧ f.rbuf.isSome ∧
      Ahead content { file := f, desc := (s.desc.read short s.file.rbufSize.toNat).2 } (getByte content pos).2 := by
  obtain ⟨hpos, hle, hlen⟩ := h.inv.bounds.rbuf
  have hsize := h.inv.rsize b hb
  have hint := h.inv.rlen
  have hroom := h.room b hb
  have hoff := h.off
  have hsame := h.same
  have hat : s.desc.off.toNat = pos := by omega
  obtain ⟨m, hm, hmle, hmpos⟩ := read_fst short s.desc s.file.rbufSize.toNat
  rw [hsame, hat] at hm
  have htake : (s.desc.read short s.file.rbufSize.toNat).1.take s.file.rbufSize.toNat =
      (s.desc.read short s.file.rbufSize.toNat).1 := by
    rw [hm, take_take, min_eq_right hmle]
  unfold Stdio.refill
  rw [hk]
  dsimp only
  rw [htake]
  by_cases hend : content.length ≤ pos
  · -- the end of the file
    obtain ⟨hnil, hsameoff⟩ := read_behind short s.desc s.file.rbufSize.toNat (by rw [hsame, hat]; exact hend)
    have hget : getByte content pos = (eof, pos) := by
      simp only [getByte, getElem?_eq_none hend]
    rw [hnil, hget, if_neg (by simp), if_pos length_nil]
    refine ⟨_, rfl, by rw [hb]; rfl, ?_⟩
    exact {
      inv := ⟨⟨h.inv.bounds.wbuf, h.inv.bounds.rbuf⟩, h.inv.wsize, h.inv.wnone, h.inv.rsize, h.inv.rlen⟩
      read := h.read
      write := h.write
      fd := h.fd
      wpos := h.wpos
      same := h.same
      off := by
        rw [hsameoff]
        exact hoff
      room := h.room
      fresh := h.fresh
      bytes := h.bytes }
  have hoff' := read_off short s.desc s.file.rbufSize.toNat (by rw [hsame, hat]; omega)
  have hcontent := read_content short s.desc s.file.rbufSize.toNat
  generalize s.desc.read short s.file.rbufSize.toNat = got at hm hoff' hcontent ⊢
  have hlen' : got.1.length = min m (content.length - pos) := by
    rw [hm, length_take, length_drop]
  generalize hn : got.1.length = n at hoff' hlen' ⊢
  have hle' : (n : Int) ≤ s.file.rbufSize := by omega
  have hfit : ¬ b.size < n := by omega
  have hsome : ¬ n = 0 := by omega
  have hnonneg : (0 : Int) ≤ n := by omega
  rw [if_neg hfit, if_neg hsome, int32_of_range (by omega) (by omega)]
  -- the stream with the fresh bytes, none of them taken yet
  have hfilled : Ahead content
      ⟨{ s.file with rbuf := some (fillFront b got.1), rbufPos := 0, rbufLen := n }, got.2⟩ pos := {
    inv := h.inv.setRead _ 0 _ s.file.rbufSize (le_refl 0) hnonneg hle' hsize hint
    read := h.read
    write := h.write
    fd := h.fd
    wpos := h.wpos
    same := hcontent.trans hsame
    off := by
      dsimp only
      omega
    room := fun _ _ => hroom
    fresh := fun hnone => by cases hnone
    bytes := fun b' hb' i hi => by
      cases hb'
      dsimp only at hi ⊢
      rw [toNat_zero, zero_add]
      exact fillFront_bytes hm (by omega) }
  obtain ⟨f, htakeb, hbuf, hahead⟩ := hfilled.takeByte rfl (by dsimp only; omega)
  exact ⟨f, htakeb, by rw [hbuf]; rfl, hahead⟩

/-- **`fgetc` gives the next byte.** -/
theorem Ahead.fgetc (h : Ahead content s pos) (hroom : Roomy s given) :
    ∃ s', s.fgetc short given = some ((getByte content pos).1, s') ∧ Roomy s' given ∧
      Ahead content s' (getByte content pos).2 := by
  obtain ⟨f, b, hensure, hb, hahead⟩ := h.ensure hroom (k := s.desc.answers given []) rfl
  have hread : ¬ ((!s.file.read) = true) := by simp [h.read]
  have hensure' : ∀ data, ensureRbuf (s.desc.answers given data) s.file = some f := fun data => hensure
  by_cases hempty : f.rbufLen ≤ f.rbufPos
  · have hasked : askedBytes (s.desc.answers given []) s.file = some f.rbufSize.toNat := by
      rw [askedBytes, if_neg hread, hensure, bind_some, if_pos hempty]
    obtain ⟨f', hrefill, hbuf, hahead'⟩ := hahead.refill short hb hempty
      (k := s.desc.answers given (s.desc.read short f.rbufSize.toNat).1) rfl
    refine ⟨_, ?_, Or.inl hbuf, hahead'⟩
    simp only [Input.fgetc, hasked, Stdio.fgetc, if_neg hread, hensure', if_pos hempty, hb, bind_some]
    rw [hrefill]
    rfl
  have hasked : askedBytes (s.desc.answers given []) s.file = none := by
    rw [askedBytes, if_neg hread, hensure, bind_some, if_neg hempty]
  obtain ⟨f', htake, hbuf, hahead'⟩ := hahead.takeByte hb (not_le.1 hempty)
  refine ⟨_, ?_, Or.inl (by rw [hbuf]; rfl), hahead'⟩
  simp only [Input.fgetc, hasked, Stdio.fgetc, if_neg hread, hensure', if_neg hempty]
  rw [htake]
  rfl

theorem getByte_end (h : content.drop pos = []) : getByte content pos = (eof, pos) := by
  have hlen : content.length ≤ pos := drop_eq_nil_iff.1 h
  simp only [getByte, getElem?_eq_none hlen]

theorem getByte_next {c : UInt8} {rest : List UInt8} (h : content.drop pos = c :: rest) :
    getByte content pos = ((c.toNat : Int), pos + 1) ∧ content.drop (pos + 1) = rest := by
  have hget : content[pos]? = some c := by
    rw [← head?_drop, h, head?_cons]
  refine ⟨by simp only [getByte, hget], ?_⟩
  rw [← tail_drop, h, tail_cons]

/-- The value that `fgetc` returns as a character again. -/
theorem charOf_byte (c : UInt8) : UInt8.ofNat ((c.toNat : Int) % 256).toNat = c := by
  have hlt := c.toNat_lt
  have hmod : ((c.toNat : Int) % 256).toNat = c.toNat := by omega
  rw [hmod, UInt8.ofNat_toNat]

theorem byte_ne_eof (c : UInt8) : (c.toNat : Int) ≠ eof := by
  unfold eof
  omega

theorem byte_eq_newline (c : UInt8) : (c.toNat : Int) = 10 ↔ c = 10 := by
  constructor
  · intro h
    apply UInt8.toNat_inj.1
    have hten : (10 : UInt8).toNat = 10 := rfl
    omega
  · rintro rfl
    rfl

theorem Ahead.fgetsLoop (n : Nat) (h : Ahead content s pos) (hroom : Roomy s given) :
    ∃ s', Stdio.fgetsLoop short given n s = some (takeLine n (content.drop pos), s') ∧
      Ahead content s' (pos + (takeLine n (content.drop pos)).length) := by
  induction n generalizing s pos with
  | zero => exact ⟨s, rfl, h⟩
  | succ n ih =>
    obtain ⟨s1, hget, hroom1, hahead⟩ := h.fgetc short hroom
    rw [Stdio.fgetsLoop, hget, bind_some]
    cases hrest : content.drop pos with
    | nil =>
      rw [getByte_end hrest] at hahead ⊢
      exact ⟨s1, if_pos rfl, hahead⟩
    | cons c rest =>
      obtain ⟨hbyte, hdrop⟩ := getByte_next hrest
      rw [hbyte] at hahead ⊢
      rw [if_neg (byte_ne_eof c), charOf_byte]
      by_cases hline : c = 10
      · refine ⟨s1, ?_, ?_⟩
        · rw [if_pos ((byte_eq_newline c).2 hline), takeLine, if_pos hline]
        · rw [takeLine, if_pos hline]
          exact hahead
      obtain ⟨s', hloop, hahead'⟩ := ih hahead hroom1
      rw [hdrop] at hloop hahead'
      refine ⟨s', ?_, ?_⟩
      · rw [if_neg (mt (byte_eq_newline c).1 hline), hloop, takeLine, if_neg hline]
        rfl
      rw [takeLine, if_neg hline, length_cons]
      have hplace : pos + ((takeLine n rest).length + 1) = pos + 1 + (takeLine n rest).length := by omega
      rw [hplace]
      exact hahead'

theorem Ahead.freadLoop (n : Nat) (h : Ahead content s pos) (hroom : Roomy s given) :
    ∃ s', Stdio.freadLoop short given n s = some ((content.drop pos).take n, s') ∧
      Ahead content s' (pos + ((content.drop pos).take n).length) := by
  induction n generalizing s pos with
  | zero => exact ⟨s, rfl, h⟩
  | succ n ih =>
    obtain ⟨s1, hget, hroom1, hahead⟩ := h.fgetc short hroom
    rw [Stdio.freadLoop, hget, bind_some]
    cases hrest : content.drop pos with
    | nil =>
      rw [getByte_end hrest] at hahead ⊢
      exact ⟨s1, if_pos rfl, hahead⟩
    | cons c rest =>
      obtain ⟨hbyte, hdrop⟩ := getByte_next hrest
      obtain ⟨s', hloop, hahead'⟩ := ih hahead hroom1
      rw [hbyte] at hloop hahead' ⊢
      rw [hdrop] at hloop hahead'
      refine ⟨s', ?_, ?_⟩
      · rw [if_neg (byte_ne_eof c), charOf_byte, hloop, take_succ_cons]
        rfl
      rw [take_succ_cons, length_cons]
      have hplace : pos + ((rest.take n).length + 1) = pos + 1 + (rest.take n).length := by omega
      rw [hplace]
      exact hahead'

/-- The descriptor moves and the buffer is dropped. -/
theorem Ahead.reset (h : Ahead content s pos) {d : Desc} {target : Nat} (hsame : d.content = content)
    (hoff : d.off.toNat = target) :
    Ahead content ⟨{ s.file with rbufPos := 0, rbufLen := 0, eof := false }, d⟩ target := by
  have hbounds := h.inv.bounds.rbuf
  exact {
    inv := ⟨⟨h.inv.bounds.wbuf, le_refl 0, le_refl 0, by dsimp only; omega⟩, h.inv.wsize, h.inv.wnone,
      h.inv.rsize, h.inv.rlen⟩
    read := h.read
    write := h.write
    fd := h.fd
    wpos := h.wpos
    same := hsame
    off := by
      dsimp only
      omega
    room := h.room
    fresh := h.fresh
    bytes := fun b hb i hi => by
      dsimp only at hi
      omega }

variable {whence : Int}

theorem lseek_some {d : Desc} {offset base : Int} (hbase : d.base whence = some base)
    (hlo : 0 ≤ base + offset) (hhi : base + offset < 2 ^ 63) :
    d.lseek offset whence = (base + offset, { d with off := BitVec.ofInt 32 (base + offset) }) := by
  have hint : int64 (base + offset) = base + offset := by
    unfold int64
    rw [bmod_eq_of_le] <;> omega
  simp only [Desc.lseek, hbase, hint]
  rw [if_neg (by omega)]

/-- A place in front of the file, or one that a `long` cannot hold. -/
theorem lseek_none {d : Desc} {offset base : Int} (hbase : d.base whence = some base)
    (hlo : -2 ^ 63 ≤ base + offset) (hhi : base + offset < 2 ^ 64)
    (hout : ¬ (0 ≤ base + offset ∧ base + offset < 2 ^ 63)) : d.lseek offset whence = (-1, d) := by
  have hint : int64 (base + offset) < 0 := by
    unfold int64
    rw [bmod_def]
    split <;> omega
  simp only [Desc.lseek, hbase]
  rw [if_pos hint]

theorem lseek_tell (d : Desc) : d.lseek 0 1 = ((d.off.toNat : Int), d) := by
  have hbase : d.base 1 = some (d.off.toNat : Int) := rfl
  rw [lseek_some hbase (by omega) (by omega)]
  simp

theorem Ahead.left (h : Ahead content s pos) :
    (s.desc.off.toNat : Int) - (s.file.rbufLen - s.file.rbufPos) = pos := by
  have hoff := h.off
  omega

/-- `fseek` is the `lseek` of its last line, and empties the buffer. -/
theorem Ahead.fseek_eq (h : Ahead content s pos) (offset whence : Int) :
    s.fseek offset whence =
      let args := if whence = 1 then ((pos : Int) + offset, 0) else (offset, whence)
      some (if (s.desc.lseek args.1 args.2).1 < 0 then -1 else 0,
        ⟨{ s.file with rbufPos := 0, rbufLen := 0, eof := false }, (s.desc.lseek args.1 args.2).2⟩) := by
  have hfd : ¬ s.file.fd < 0 := not_lt.2 h.fd
  have hflush : ∀ k, fflush k s.file = some (0, s.file) := fun k => if_pos (by simp [h.write])
  have htell : ¬ (s.desc.off.toNat : Int) < 0 := by omega
  by_cases hcur : whence = 1
  · simp only [Input.fseek, Stdio.fseek, seekArgs, Desc.answers, lseek_tell, hflush, if_neg hfd, if_neg htell,
      if_pos hcur, map_some, seekTo, h.left]
  · simp only [Input.fseek, Stdio.fseek, seekArgs, Desc.answers, lseek_tell, hflush, if_neg hfd, if_neg hcur,
      map_some, seekTo]

/-- What `fseek` needs: a target that an `unsigned int` holds, or nothing left in the buffer when there is no
target. -/
def SeekOk (content : List UInt8) (s : Input) (pos : Nat) (offset whence : Int) : Prop :=
  match seekTarget content pos offset whence with
  | none => s.file.rbufPos = s.file.rbufLen
  | some target => target < 2 ^ 32

theorem Ahead.seek_from (h : Ahead content s pos) {offset base x : Int}
    (hbase : s.desc.base whence = some base) (hx : base + offset = x) (hlo : -2 ^ 63 ≤ x) (hhi : x < 2 ^ 64) :
    (0 ≤ x ∧ x < 2 ^ 63 → x.toNat < 2 ^ 32 → (s.desc.lseek offset whence).1 = x ∧ Ahead content
      ⟨{ s.file with rbufPos := 0, rbufLen := 0, eof := false }, (s.desc.lseek offset whence).2⟩ x.toNat) ∧
    (¬ (0 ≤ x ∧ x < 2 ^ 63) → s.file.rbufPos = s.file.rbufLen → (s.desc.lseek offset whence).1 = -1 ∧ Ahead content
      ⟨{ s.file with rbufPos := 0, rbufLen := 0, eof := false }, (s.desc.lseek offset whence).2⟩ pos) := by
  subst hx
  constructor
  · intro hin hsmall
    rw [lseek_some hbase hin.1 hin.2]
    refine ⟨rfl, h.reset h.same ?_⟩
    have hnat : base + offset = ((base + offset).toNat : Int) := by omega
    rw [hnat, BitVec.ofInt_natCast, BitVec.toNat_ofNat]
    omega
  intro hout hleft
  have hoff := h.off
  have hplace : s.desc.off.toNat = pos := by omega
  rw [lseek_none hbase hlo hhi hout]
  exact ⟨rfl, h.reset h.same hplace⟩

/-- **`fseek` goes to its target, or stays where it is.** -/
theorem Ahead.fseek (h : Ahead content s pos) {offset : Int} (hlo : -2 ^ 63 ≤ offset) (hhi : offset < 2 ^ 63)
    (hok : SeekOk content s pos offset whence) :
    ∃ s', s.fseek offset whence = some (if (seekTarget content pos offset whence).isSome then 0 else -1, s') ∧
      Ahead content s' ((seekTarget content pos offset whence).getD pos) := by
  have hoff := h.off
  have hbounds := h.inv.bounds.rbuf
  have hlen := s.desc.small
  rw [h.same] at hlen
  rw [h.fseek_eq]
  dsimp only
  -- where the kernel counts from, and the target
  have hfrom : ∀ args : Int × Int, args = (if whence = 1 then ((pos : Int) + offset, 0) else (offset, whence)) →
      (∃ base x, s.desc.base args.2 = some base ∧ base + args.1 = x ∧ -2 ^ 63 ≤ x ∧ x < 2 ^ 64 ∧
        seekTarget content pos offset whence = if 0 ≤ x ∧ x < 2 ^ 63 then some x.toNat else none) ∨
      (s.desc.base args.2 = none ∧ seekTarget content pos offset whence = none) := by
    rintro args rfl
    by_cases hset : whence = 0
    · subst hset
      exact Or.inl ⟨0, 0 + offset, rfl, rfl, by omega, by omega, rfl⟩
    by_cases hcur : whence = 1
    · subst hcur
      exact Or.inl ⟨0, pos + offset, rfl, zero_add _, by omega, by omega, rfl⟩
    by_cases hend : whence = 2
    · subst hend
      exact Or.inl ⟨content.length, content.length + offset, by rw [← h.same]; rfl, rfl, by omega, by omega, rfl⟩
    · right
      simp [Desc.base, seekTarget, hset, hcur, hend]
  generalize hargs : (if whence = 1 then ((pos : Int) + offset, 0) else (offset, whence)) = args
  replace hfrom := hfrom args hargs.symm
  rcases hfrom with ⟨base, x, hbase, hx, hxlo, hxhi, htarget⟩ | ⟨hbase, htarget⟩
  · obtain ⟨hin, hout⟩ := h.seek_from hbase hx hxlo hxhi
    unfold SeekOk at hok
    rw [htarget] at hok ⊢
    by_cases hfits : 0 ≤ x ∧ x < 2 ^ 63
    · rw [if_pos hfits] at hok ⊢
      obtain ⟨hres, hahead⟩ := hin hfits hok
      rw [hres, if_neg (by omega)]
      exact ⟨_, rfl, hahead⟩
    rw [if_neg hfits] at hok ⊢
    obtain ⟨hres, hahead⟩ := hout hfits hok
    rw [hres]
    exact ⟨_, rfl, hahead⟩
  unfold SeekOk at hok
  rw [htarget] at hok ⊢
  have hres : s.desc.lseek args.1 args.2 = (-1, s.desc) := by
    simp only [Desc.lseek, hbase]
  have hplace : s.desc.off.toNat = pos := by
    omega
  rw [hres]
  exact ⟨_, rfl, h.reset h.same hplace⟩

end

/-! ## Runs -/

section

variable {content : List UInt8} {s : Input} {pos : Nat} (short : Nat → Nat)

/-- The position of the reader: that of the descriptor less what was read ahead. -/
def Input.position (s : Input) : Nat := (s.desc.off.toNat - (s.file.rbufLen - s.file.rbufPos)).toNat

/-- What a call needs. A call that reads needs a buffer; the product of the arguments of `fread` does not wrap, or
is still as large as the rest of the file; the target of `fseek` fits the offset of a descriptor, and where there is
no target nothing is left in the buffer. -/
def Served (s : Input) (step : InputCall × Option Bytes) : Prop :=
  match step.1 with
  | .fgetc => Roomy s step.2
  | .fgets _ => Roomy s step.2
  | .fread size count =>
    Roomy s step.2 ∧ (size.toNat * count.toNat < 2 ^ 64 ∨
      s.desc.content.length - s.position ≤ size.toNat * count.toNat % 2 ^ 64)
  | .fseek offset whence => SeekOk s.desc.content s s.position offset.toInt whence
  | .ftell => True

theorem Ahead.position (h : Ahead content s pos) : s.position = pos := by
  rw [Input.position, h.left]
  exact toNat_natCast pos

theorem Ahead.ftell (h : Ahead content s pos) : s.ftell = pos := by
  have hfd : ¬ s.file.fd < 0 := not_lt.2 h.fd
  have hpos : ¬ (s.desc.off.toNat : Int) < 0 := by omega
  simp only [Input.ftell, lseek_tell, if_neg hfd, if_neg hpos, h.left, h.wpos]
  exact add_zero _

theorem Ahead.fgets {given : Option Bytes} (h : Ahead content s pos) (hroom : Roomy s given) (size : Int) :
    ∃ s', s.fgets short given size =
        some (if takeLine (size - 1).toNat (content.drop pos) = [] then none
          else some (takeLine (size - 1).toNat (content.drop pos) ++ [0]), s') ∧
      Ahead content s' (pos + (takeLine (size - 1).toNat (content.drop pos)).length) := by
  by_cases hsize : size ≤ 0
  · have hzero : (size - 1).toNat = 0 := by omega
    rw [hzero, Input.fgets, if_pos hsize]
    exact ⟨s, rfl, h⟩
  obtain ⟨s', hloop, hahead⟩ := h.fgetsLoop short (size - 1).toNat hroom
  refine ⟨s', ?_, hahead⟩
  rw [Input.fgets, if_neg hsize, hloop]
  simp only [map_some, length_eq_zero_iff]

/-- `fread` returns the bytes at the position, as many as asked for or as there are. -/
theorem Ahead.fread {given : Option Bytes} (h : Ahead content s pos) (hroom : Roomy s given) {size count : BitVec 64}
    (hfits : size.toNat * count.toNat < 2 ^ 64 ∨
      content.length - pos ≤ size.toNat * count.toNat % 2 ^ 64) :
    ∃ s', s.fread short given size count = some (((content.drop pos).take (size.toNat * count.toNat),
        ((content.drop pos).take (size.toNat * count.toNat)).length / size.toNat), s') ∧
      Ahead content s' (pos + ((content.drop pos).take (size.toNat * count.toNat)).length) := by
  by_cases hzero : size = 0 ∨ count = 0
  · have hprod : size.toNat * count.toNat = 0 := by
      rcases hzero with rfl | rfl
      · exact zero_mul _
      · exact mul_zero _
    rw [hprod, Input.fread, if_pos hzero, take_zero, length_nil, Nat.zero_div]
    exact ⟨s, rfl, h⟩
  have hsame : (content.drop pos).take (size * count).toNat =
      (content.drop pos).take (size.toNat * count.toNat) := by
    rw [BitVec.toNat_mul]
    rcases hfits with hlt | hlong
    · rw [Nat.mod_eq_of_lt hlt]
    -- both take all that is left
    have hle : size.toNat * count.toNat % 2 ^ 64 ≤ size.toNat * count.toNat := Nat.mod_le _ _
    rw [take_of_length_le, take_of_length_le]
    · rw [length_drop]
      exact hlong.trans hle
    · rw [length_drop]
      exact hlong
  obtain ⟨s', hloop, hahead⟩ := h.freadLoop short (size * count).toNat hroom
  rw [hsame] at hloop hahead
  refine ⟨s', ?_, hahead⟩
  rw [Input.fread, if_neg hzero, hloop]
  rfl

/-- **A call on the stream answers like the call without a buffer.** -/
theorem ahead_simulates (content : List UInt8) (short : Nat → Nat) :
    Simulates (Input.run short) (plainRun content) Served (Ahead content) := by
  rintro s pos ⟨call, given⟩ h hok
  cases call with
  | fgetc =>
    obtain ⟨s', hrun, -, hahead⟩ := h.fgetc short hok
    exact ⟨s', by simp only [Input.run, hrun]; rfl, hahead⟩
  | fgets size =>
    obtain ⟨s', hrun, hahead⟩ := h.fgets short hok size
    exact ⟨s', by simp only [Input.run, hrun]; rfl, hahead⟩
  | fread size count =>
    have hfits : size.toNat * count.toNat < 2 ^ 64 ∨
        s.desc.content.length - s.position ≤ size.toNat * count.toNat % 2 ^ 64 := hok.2
    rw [h.same, h.position] at hfits
    obtain ⟨s', hrun, hahead⟩ := h.fread short hok.1 hfits
    exact ⟨s', by simp only [Input.run, hrun]; rfl, hahead⟩
  | fseek offset whence =>
    have hseek : SeekOk content s pos offset.toInt whence := by
      have hok' : SeekOk s.desc.content s s.position offset.toInt whence := hok
      rwa [h.same, h.position] at hok'
    obtain ⟨s', hrun, hahead⟩ := h.fseek offset.le_toInt offset.toInt_lt hseek
    refine ⟨s', ?_, ?_⟩
    · simp only [Input.run, hrun, plainRun]
      cases seekTarget content pos offset.toInt whence <;> rfl
    simp only [plainRun]
    cases htarget : seekTarget content pos offset.toInt whence with
    | none => rwa [htarget] at hahead
    | some target => rwa [htarget] at hahead
  | ftell => exact ⟨s, by simp only [Input.run, h.ftell]; rfl, h⟩

/-- A stream that a program gets for reading only is at the offset of its descriptor. -/
theorem Opened.ahead {f : File} (h : Opened f) (hread : f.read = true) (hwrite : f.write = false) (d : Desc) :
    Ahead d.content ⟨f, d⟩ d.off.toNat := by
  have hinv := h.inv
  -- nothing is buffered yet
  have hempty : 0 ≤ f.fd ∧ f.wbufPos = 0 ∧ f.rbufPos = 0 ∧ f.rbufLen = 0 ∧
      (∀ b, f.rbuf = some b → 0 < f.rbufSize) ∧ (f.rbuf = none → f.rbufSize = 0) := by
    cases h with
    | stdin => exact ⟨by decide, rfl, rfl, rfl, fun b hb => (by cases hb), fun _ => rfl⟩
    | stdout => cases hread
    | stderr => cases hread
    | fopen hopen =>
      simp only [Stdio.fopen, bind_eq_some_iff] at hopen
      obtain ⟨⟨read, write⟩, -, hopen⟩ := hopen
      split at hopen
      · cases hopen
      rename_i hfd
      simp only [bind_eq_some_iff, map_eq_some_iff] at hopen
      obtain ⟨⟨rbuf, rsize⟩, hr, ⟨wbuf, wsize⟩, hw, rfl⟩ := hopen
      obtain rfl : read = true := hread
      refine ⟨not_lt.1 fun hneg => hfd (Or.inl hneg), rfl, rfl, rfl, fun b hb => ?_, fun hnone => ?_⟩
      · exact ((bufferFor_sizes hr).2.2 b hb).1
      · obtain rfl : rbuf = none := hnone
        simp [bufferFor] at hr
    | memstream hopen =>
      simp only [openMemstream] at hopen
      split at hopen
      · cases hopen
      · simp only [bind_eq_some_iff, map_eq_some_iff] at hopen
        obtain ⟨b, -, b', -, rfl⟩ := hopen
        cases hread
  obtain ⟨hfd, hwpos, hrpos, hrlen, hroom, hfresh⟩ := hempty
  exact {
    inv := hinv
    read := hread
    write := hwrite
    fd := hfd
    wpos := hwpos
    same := rfl
    off := by
      dsimp only
      omega
    room := hroom
    fresh := hfresh
    bytes := fun b hb i hi => by
      dsimp only at hi
      omega }

/-- **Buffered input is reading without a buffer**, in every run whose calls are served: every call answers alike,
and `ftell` is the position after the last. -/
theorem reads_like_bytes {f : File} (h : Opened f) (hread : f.read = true) (hwrite : f.write = false) (d : Desc)
    (short : Nat → Nat) (calls : List (InputCall × Option Bytes))
    (hok : Allowed Served (Input.run short) ⟨f, d⟩ calls) :
    ∃ s', trace (Input.run short) ⟨f, d⟩ calls = some ((refTrace (plainRun d.content) d.off.toNat calls).1, s') ∧
      s'.ftell = (refTrace (plainRun d.content) d.off.toNat calls).2 := by
  obtain ⟨s', htrace, hahead⟩ := (ahead_simulates d.content short).run (h.ahead hread hwrite d) hok
  exact ⟨s', htrace, hahead.ftell⟩

/-- A descriptor at the start of a file of two bytes. -/
def twoBytes : Desc := ⟨[65, 66], 0, 0, by decide⟩

/-- To the second byte and over it. -/
theorem reads_like_bytes_second : ∃ s', trace (Input.run fun _ => 1) ⟨stdin, twoBytes⟩
    [(.fseek 1 0, none), (.fgetc, some fun _ => 0), (.ftell, none)] = some ([.int 0, .int 66, .int 2], s') ∧
      s'.ftell = 2 := by
  have htarget : SeekOk [65, 66] ⟨stdin, twoBytes⟩ 0 1 0 := by
    have hlt : (1 : Nat) < 2 ^ 32 := by decide
    exact hlt
  exact reads_like_bytes .stdin rfl rfl twoBytes (fun _ => 1) _
    ⟨htarget, fun _ _ => ⟨Or.inr rfl, fun _ _ => ⟨trivial, fun _ _ => trivial⟩⟩⟩

/-- A seek in front of the file fails, but what was left in the buffer is gone: the second byte is never read. -/
theorem failed_seek_skips : Opened stdin ∧
    (trace (Input.run fun _ => 1024) ⟨stdin, twoBytes⟩
      [(.fgetc, some fun _ => 0), (.fseek (-1) 0, none), (.fgetc, none)]).map Prod.fst =
        some [.int 65, .int (-1), .int (-1)] ∧
    (refTrace (plainRun twoBytes.content) 0 [(.fgetc, some fun _ => 0), (.fseek (-1) 0, none), (.fgetc, none)]).1 =
      [.int 65, .int (-1), .int 66] :=
  ⟨.stdin, by decide, by decide⟩

end

end Slopix.Stdio
