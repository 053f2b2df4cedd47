import Slopix.Lib.Bytes

/-!
# The buffers of a stream

The positions and sizes that `libc/stdio_file.c` keeps in a `FILE`, and the memory behind its two buffers. Every
access to a buffer is checked against the memory that the allocator gave, so that a call that would reach outside
has no result. What the kernel and the allocator answer to a call is an argument.
-/

namespace Slopix.Stdio

open Lib Option Int

/-! ## The model -/

/-- `BUFSIZ` -/
def bufsiz : Int := 1024

/-- `EOF` -/
def eof : Int := -1

/-- Arithmetic of `int`. -/
def int32 (x : Int) : Int := x.bmod (2 ^ 32)

/-- Memory of the allocator. -/
structure Buffer where
  size : Nat
  bytes : Bytes

/-- A place is inside. -/
def Buffer.Has (b : Buffer) (i : Int) : Prop := 0 ≤ i ∧ i < b.size

instance (b : Buffer) (i : Int) : Decidable (b.Has i) := inferInstanceAs (Decidable (_ ∧ _))

/-- A store to byte `i`, when the buffer has it. -/
def Buffer.store (b : Buffer) (i : Int) (c : UInt8) : Option Buffer :=
  if b.Has i then some { b with bytes := Function.update b.bytes i.toNat c } else none

/-- A read of byte `i`, when the buffer has it. -/
def Buffer.load (b : Buffer) (i : Int) : Option UInt8 := if b.Has i then some (b.bytes i.toNat) else none

/-- `struct _FILE`; the flags are one field each. `shown` is what the two variables of the owner of a memory stream
hold. -/
structure File where
  fd : Int
  read : Bool
  write : Bool
  unbuf : Bool
  error : Bool
  eof : Bool
  rbuf : Option Buffer
  rbufSize : Int
  rbufPos : Int
  rbufLen : Int
  wbuf : Option Buffer
  wbufSize : Int
  wbufPos : Int
  isMemstream : Bool
  shown : Option Buffer × Int

/-- The answers to one call: whether `malloc` or `realloc` gives memory, and what stands in it; what `write`
returns; what `read` finds, or nothing when it fails; what `lseek` returns, first to the question for the
position. -/
structure Answers where
  alloc : Option Bytes
  write : Int
  read : Option (List UInt8)
  tell : Int
  lseek : Int → Int → Int

/-- A `FILE` of zeros, as `calloc` makes it, with the descriptor -1. -/
def fileAlloc : File where
  fd := -1
  read := false
  write := false
  unbuf := false
  error := false
  eof := false
  rbuf := none
  rbufSize := 0
  rbufPos := 0
  rbufLen := 0
  wbuf := none
  wbufSize := 0
  wbufPos := 0
  isMemstream := false
  shown := (none, 0)

/-- `_stdin`, `_stdout` and `_stderr`. -/
def stdin : File := { fileAlloc with fd := 0, read := true }

/-- The stream of descriptor 1. -/
def stdout : File := { fileAlloc with fd := 1, write := true }

/-- The stream of descriptor 2, without a buffer. -/
def stderr : File := { fileAlloc with fd := 2, write := true, unbuf := true }

/-- `malloc(n)` -/
def malloc (given : Option Bytes) (n : Int) : Option Buffer := given.map fun bytes => { size := n.toNat, bytes }

/-- `realloc(b, n)`; a negative `int` is a huge `size_t`. -/
def realloc (given : Option Bytes) (b : Buffer) (n : Int) : Option Buffer :=
  given.map fun bytes =>
    { size := (n % 2 ^ 64).toNat, bytes := fun k => if k < b.size then b.bytes k else bytes k }

/-- `open_memstream` with two pointers that are not null. -/
def openMemstream (file : Bool) (given : Option Bytes) : Option File :=
  if !file then none
  else
    (malloc given 64).bind fun b =>
      (b.store 0 0).map fun b =>
        { fileAlloc with write := true, wbuf := some b, wbufSize := 64, isMemstream := true, shown := (some b, 0) }

/-- The flags of a mode of `fopen`: reading and writing. -/
def modeFlags (mode : List UInt8) : Option (Bool × Bool) :=
  if mode.getD 0 0 = 114 then some (true, mode.getD 1 0 = 43)
  else if mode.getD 0 0 = 119 ∨ mode.getD 0 0 = 97 then some (mode.getD 1 0 = 43, true)
  else none

/-- A buffer that a flag asks for. The outer `none` is a failure. -/
def bufferFor (flag : Bool) (given : Option Bytes) : Option (Option Buffer × Int) :=
  if flag then (malloc given bufsiz).map fun b => (some b, bufsiz) else some (none, 0)

/-- `fopen`, when `open` returns `fd`. -/
def fopen (mode : List UInt8) (fd : Int) (file : Bool) (rgiven wgiven : Option Bytes) : Option File :=
  (modeFlags mode).bind fun (read, write) =>
    if fd < 0 ∨ !file then none
    else
      (bufferFor read rgiven).bind fun (rbuf, rbufSize) =>
        (bufferFor write wgiven).map fun (wbuf, wbufSize) =>
          { fileAlloc with fd, read, write, rbuf, rbufSize, wbuf, wbufSize }

/-- `fflush`. `write` is given the bytes below `wbuf_pos`. -/
def fflush (k : Answers) (f : File) : Option (Int × File) :=
  if !f.write then some (0, f)
  else if f.isMemstream then some (0, { f with shown := (f.wbuf, f.wbufPos) })
  else if 0 < f.wbufPos then
    f.wbuf.bind fun b =>
      if b.size < f.wbufPos then none
      else if k.write < 0 then some (eof, { f with error := true })
      else some (0, { f with wbufPos := 0 })
  else some (0, f)

/-- The part of `fputc` that makes a buffer; nothing when there is no memory. -/
def ensureWbuf (k : Answers) (f : File) : Option File :=
  match f.wbuf with
  | some _ => some f
  | none => (malloc k.alloc bufsiz).map fun b => { f with wbuf := some b, wbufSize := bufsiz, wbufPos := 0 }

/-- The part of `fputc` that makes the buffer of a memory stream larger; nothing when there is no memory. -/
def growWbuf (k : Answers) (b : Buffer) (f : File) : Option (Buffer × File) :=
  if int32 (f.wbufSize - 1) ≤ f.wbufPos then
    (realloc k.alloc b (int32 (f.wbufSize * 2))).map fun b =>
      (b, { f with wbuf := some b, wbufSize := int32 (f.wbufSize * 2) })
  else some (b, f)

/-- The part of `fputc` for a memory stream: the byte, and a NUL behind it. -/
def memPutc (k : Answers) (uc : UInt8) (b : Buffer) (f : File) : Option (Int × File) :=
  match growWbuf k b f with
  | none => some (eof, { f with error := true })
  | some (b, f) =>
    (b.store f.wbufPos uc).bind fun b =>
      (b.store (int32 (f.wbufPos + 1)) 0).map fun b =>
        (uc.toNat, { f with wbuf := some b, wbufPos := int32 (f.wbufPos + 1) })

/-- The part of `fputc` for a descriptor: the byte, and a flush of a full buffer or a line of `stdout`. -/
def bufPutc (k : Answers) (c : Int) (uc : UInt8) (b : Buffer) (f : File) : Option (Int × File) :=
  (b.store f.wbufPos uc).bind fun b =>
    let f := { f with wbuf := some b, wbufPos := int32 (f.wbufPos + 1) }
    if f.wbufSize ≤ f.wbufPos ∨ f.fd = 1 ∧ c = 10 then
      (fflush k f).map fun (r, f) => (if r = eof then eof else uc.toNat, f)
    else some (uc.toNat, f)

/-- `fputc`: past the buffer for an unbuffered stream, else into it. -/
def fputc (k : Answers) (c : Int) (f : File) : Option (Int × File) :=
  if !f.write then some (eof, f)
  else
    let uc := UInt8.ofNat (c % 256).toNat
    if f.unbuf then
      if k.write ≠ 1 then some (eof, { f with error := true }) else some (uc.toNat, f)
    else
      match ensureWbuf k f with
      | none => some (eof, { f with error := true })
      | some f => f.wbuf.bind fun b => if f.isMemstream then memPutc k uc b f else bufPutc k c uc b f

/-- The part of `fgetc` that makes a buffer; nothing when there is no memory. -/
def ensureRbuf (k : Answers) (f : File) : Option File :=
  match f.rbuf with
  | some _ => some f
  | none =>
    (malloc k.alloc bufsiz).map fun b => { f with rbuf := some b, rbufSize := bufsiz, rbufPos := 0, rbufLen := 0 }

/-- The bytes of `data` in front of a buffer. -/
def fillFront (b : Buffer) (data : List UInt8) : Buffer := { b with bytes := putBytes b.bytes 0 data }

/-- The part of `fgetc` that takes the next byte of the buffer. -/
def takeByte (f : File) : Option (Int × File) :=
  f.rbuf.bind fun b => (b.load f.rbufPos).map fun c => (c.toNat, { f with rbufPos := int32 (f.rbufPos + 1) })

/-- The part of `fgetc` that asks for more. `read` stores at most `rbuf_size` bytes. -/
def refill (k : Answers) (b : Buffer) (f : File) : Option (Int × File) :=
  match k.read with
  | none => some (eof, { f with error := true })
  | some data =>
    let data := data.take f.rbufSize.toNat
    if b.size < data.length then none
    else if data.length = 0 then some (eof, { f with eof := true })
    else takeByte { f with rbuf := some (fillFront b data), rbufPos := 0, rbufLen := int32 data.length }

/-- `fgetc`. -/
def fgetc (k : Answers) (f : File) : Option (Int × File) :=
  if !f.read then some (eof, f)
  else
    match ensureRbuf k f with
    | none => some (eof, { f with error := true })
    | some f =>
      if f.rbufLen ≤ f.rbufPos then f.rbuf.bind fun b => refill k b f else takeByte f

/-- The last part of `fseek`. -/
def seekTo (k : Answers) (offset whence : Int) (f : File) : Int × File :=
  let f := { f with rbufPos := 0, rbufLen := 0, eof := false }
  (if k.lseek offset whence < 0 then -1 else 0, f)

/-- `fseek`: what is buffered is written first; what was read ahead counts for `SEEK_CUR`. -/
def fseek (k : Answers) (offset whence : Int) (f : File) : Option (Int × File) :=
  if f.fd < 0 then some (-1, f)
  else
    (fflush k f).map fun (_, f) =>
      if whence = 1 then
        if k.tell < 0 then (-1, f) else seekTo k (k.tell - (f.rbufLen - f.rbufPos) + offset) 0 f
      else seekTo k offset whence f

/-- The calls on a stream; the others of `stdio_file.c` are loops of these. -/
inductive Call where
  | fputc (c : Int)
  | fgetc
  | fflush
  | fseek (offset whence : Int)

/-- The function that a call names. -/
def Call.run (k : Answers) : Call → File → Option (Int × File)
  | .fputc c, f => Stdio.fputc k c f
  | .fgetc, f => Stdio.fgetc k f
  | .fflush, f => Stdio.fflush k f
  | .fseek offset whence, f => Stdio.fseek k offset whence f

/-- The streams that a program gets. -/
inductive Opened : File → Prop
  | stdin : Opened stdin
  | stdout : Opened stdout
  | stderr : Opened stderr
  | fopen {mode : List UInt8} {fd : Int} {file : Bool} {rgiven wgiven : Option Bytes} {f : File} :
      fopen mode fd file rgiven wgiven = some f → Opened f
  | memstream {file : Bool} {given : Option Bytes} {f : File} : openMemstream file given = some f → Opened f

/-! ## The bounds -/

/-- The bounds of the positions, once there is a buffer to write to. -/
structure Bounds (f : File) : Prop where
  wbuf : ∀ b, f.wbuf = some b → 0 ≤ f.wbufPos ∧ f.wbufPos < f.wbufSize
  rbuf : 0 ≤ f.rbufPos ∧ f.rbufPos ≤ f.rbufLen ∧ f.rbufLen ≤ f.rbufSize

/-- The bounds hold in front of every call and after the last, and no call reaches outside a buffer. -/
def Safe : File → List (Call × Answers) → Prop
  | f, [] => Bounds f
  | f, (call, k) :: calls => Bounds f ∧ ∃ r f', call.run k f = some (r, f') ∧ Safe f' calls

/-- The two ways to lose the bounds: the last place of the buffer is filled and the kernel refuses the buffer, or
a memory stream of 2^30 bytes or more is made twice as large. -/
def Spoils (k : Answers) (f : File) : Call → Prop
  | .fputc _ => f.write ∧ !f.unbuf ∧ f.wbuf.isSome ∧
      ((!f.isMemstream ∧ f.wbufPos + 1 = f.wbufSize ∧ k.write < 0) ∨
        (f.isMemstream ∧ f.wbufPos + 1 = f.wbufSize ∧ 2 ^ 30 ≤ f.wbufSize ∧ k.alloc.isSome))
  | _ => False

/-- None of the calls does that. -/
def Unspoiled : File → List (Call × Answers) → Prop
  | _, [] => True
  | f, (call, k) :: calls => ¬ Spoils k f call ∧ ∀ r f', call.run k f = some (r, f') → Unspoiled f' calls

/-- What holds of a stream between the calls: besides the bounds, the sizes are those of the memory. -/
structure Inv (f : File) : Prop where
  bounds : Bounds f
  wsize : ∀ b, f.wbuf = some b → f.wbufSize ≤ b.size ∧ f.wbufSize < 2 ^ 31
  wnone : f.wbuf = none → f.wbufPos = 0
  rsize : ∀ b, f.rbuf = some b → f.rbufSize ≤ b.size
  rlen : f.rbufSize < 2 ^ 31

section

variable {f f' : File} {k : Answers} {b : Buffer} {c : Int} {uc : UInt8} {r : Int}

theorem int32_of_range {x : Int} (hlo : -2 ^ 31 ≤ x) (hhi : x < 2 ^ 31) : int32 x = x := by
  unfold int32
  rw [bmod_eq_of_le] <;> omega

/-- The next byte has room. -/
theorem Inv.has (h : Inv f) (hb : f.wbuf = some b) : b.Has f.wbufPos := by
  have hbounds := h.bounds.wbuf b hb
  have hsize := h.wsize b hb
  exact ⟨hbounds.1, by omega⟩

theorem Inv.setError (h : Inv f) : Inv { f with error := true } :=
  ⟨⟨h.bounds.wbuf, h.bounds.rbuf⟩, h.wsize, h.wnone, h.rsize, h.rlen⟩

/-- A stream whose reading side is that of `f`, and whose writing side is in order. -/
theorem Inv.setWrite (h : Inv f) (b : Buffer) (pos size : Int) (hpos : 0 ≤ pos) (hlt : pos < size) (hsize : size ≤ b.size)
    (hint : size < 2 ^ 31) : Inv { f with wbuf := some b, wbufPos := pos, wbufSize := size } := by
  refine ⟨⟨fun b' _ => ⟨hpos, hlt⟩, h.bounds.rbuf⟩, fun b' hb => ?_, fun hb => ?_, h.rsize, h.rlen⟩
  · cases hb
    exact ⟨hsize, hint⟩
  · cases hb

/-- A stream whose writing side is that of `f`, and whose reading side is in order. -/
theorem Inv.setRead (h : Inv f) (b : Buffer) (pos len size : Int) (hpos : 0 ≤ pos) (hle : pos ≤ len) (hlen : len ≤ size)
    (hsize : size ≤ b.size) (hint : size < 2 ^ 31) :
    Inv { f with rbuf := some b, rbufPos := pos, rbufLen := len, rbufSize := size } := by
  refine ⟨⟨h.bounds.wbuf, hpos, hle, hlen⟩, h.wsize, h.wnone, fun b' hb => ?_, hint⟩
  cases hb
  exact hsize

theorem fileAlloc_inv : Inv fileAlloc where
  bounds := ⟨fun _ hb => (by cases hb), by decide⟩
  wsize _ hb := by cases hb
  wnone _ := rfl
  rsize _ hb := by cases hb
  rlen := by decide

theorem bufferFor_sizes {flag : Bool} {given : Option Bytes} {buf : Option Buffer} {size : Int}
    (h : bufferFor flag given = some (buf, size)) :
    0 ≤ size ∧ size < 2 ^ 31 ∧ ∀ b, buf = some b → 0 < size ∧ size ≤ b.size := by
  unfold bufferFor malloc at h
  split at h
  · simp only [map_map, map_eq_some_iff] at h
    obtain ⟨bytes, -, heq⟩ := h
    cases heq
    refine ⟨by decide, by decide, fun b hb => ?_⟩
    cases hb
    exact ⟨by decide, self_le_toNat _⟩
  · cases h
    exact ⟨by decide, by decide, fun b hb => by cases hb⟩

theorem Opened.inv (h : Opened f) : Inv f := by
  have hzero := fileAlloc_inv
  cases h with
  | stdin => exact ⟨⟨hzero.bounds.wbuf, hzero.bounds.rbuf⟩, hzero.wsize, hzero.wnone, hzero.rsize, hzero.rlen⟩
  | stdout => exact ⟨⟨hzero.bounds.wbuf, hzero.bounds.rbuf⟩, hzero.wsize, hzero.wnone, hzero.rsize, hzero.rlen⟩
  | stderr => exact ⟨⟨hzero.bounds.wbuf, hzero.bounds.rbuf⟩, hzero.wsize, hzero.wnone, hzero.rsize, hzero.rlen⟩
  | fopen hopen =>
    simp only [Stdio.fopen, bind_eq_some_iff] at hopen
    obtain ⟨⟨read, write⟩, -, hopen⟩ := hopen
    split at hopen
    · cases hopen
    simp only [bind_eq_some_iff, map_eq_some_iff] at hopen
    obtain ⟨⟨rbuf, rsize⟩, hr, ⟨wbuf, wsize⟩, hw, rfl⟩ := hopen
    obtain ⟨hrzero, hrint, hrsize⟩ := bufferFor_sizes hr
    obtain ⟨-, hwint, hwsize⟩ := bufferFor_sizes hw
    refine ⟨⟨fun b hb => ⟨le_refl 0, ?_⟩, le_refl 0, le_refl 0, hrzero⟩, fun b hb => ?_, fun _ => rfl,
      fun b hb => (hrsize b hb).2, hrint⟩
    · exact (hwsize b hb).1
    · exact ⟨(hwsize b hb).2, hwint⟩
  | memstream hopen =>
    unfold openMemstream at hopen
    split at hopen
    · cases hopen
    simp only [malloc, bind_eq_some_iff, map_eq_some_iff] at hopen
    obtain ⟨b, ⟨bytes, -, rfl⟩, b1, hstore, rfl⟩ := hopen
    have hsize : b1.size = 64 := by
      unfold Buffer.store at hstore
      split at hstore
      · cases hstore
        rfl
      · cases hstore
    have hinv := hzero.setWrite b1 0 64 (le_refl 0) (by decide) (by omega) (by decide)
    exact ⟨⟨hinv.bounds.wbuf, hinv.bounds.rbuf⟩, hinv.wsize, hinv.wnone, hinv.rsize, hinv.rlen⟩

/-- A flush keeps the bounds. -/
theorem Inv.fflush (h : Inv f) : ∃ r f', Stdio.fflush k f = some (r, f') ∧ Inv f' := by
  unfold Stdio.fflush
  split
  · exact ⟨0, f, rfl, h⟩
  split
  · exact ⟨0, _, rfl, ⟨⟨h.bounds.wbuf, h.bounds.rbuf⟩, h.wsize, h.wnone, h.rsize, h.rlen⟩⟩
  by_cases hpos : 0 < f.wbufPos
  · obtain ⟨b, hb⟩ : ∃ b, f.wbuf = some b := by
      cases hb : f.wbuf with
      | none =>
        have hzero := h.wnone hb
        omega
      | some b => exact ⟨b, rfl⟩
    have hbounds := h.bounds.wbuf b hb
    have hsize := h.wsize b hb
    rw [if_pos hpos, hb, bind_some, if_neg (by omega)]
    split
    · have hinv := h.setError
      rw [hb] at hinv
      exact ⟨eof, _, rfl, hinv⟩
    · exact ⟨0, _, rfl, h.setWrite b 0 f.wbufSize (le_refl 0) (by omega) hsize.1 hsize.2⟩
  · rw [if_neg hpos]
    exact ⟨0, f, rfl, h⟩

/-- And so does `fseek`. -/
theorem Inv.fseek (h : Inv f) (offset whence : Int) :
    ∃ r f', Stdio.fseek k offset whence f = some (r, f') ∧ Inv f' := by
  unfold Stdio.fseek
  split
  · exact ⟨-1, f, rfl, h⟩
  obtain ⟨r, f', hrun, hinv⟩ := h.fflush (k := k)
  have hsize : 0 ≤ f'.rbufSize := le_trans hinv.bounds.rbuf.1 (le_trans hinv.bounds.rbuf.2.1 hinv.bounds.rbuf.2.2)
  have hseek : ∀ o w, Inv (seekTo k o w f').2 := fun o w =>
    ⟨⟨hinv.bounds.wbuf, le_refl 0, le_refl 0, hsize⟩, hinv.wsize, hinv.wnone, hinv.rsize, hinv.rlen⟩
  rw [hrun, map_some]
  dsimp only
  by_cases hcur : whence = 1
  · rw [if_pos hcur]
    by_cases htell : k.tell < 0
    · rw [if_pos htell]
      exact ⟨-1, f', rfl, hinv⟩
    · rw [if_neg htell]
      exact ⟨_, _, rfl, hseek (k.tell - (f'.rbufLen - f'.rbufPos) + offset) 0⟩
  · rw [if_neg hcur]
    exact ⟨_, _, rfl, hseek offset whence⟩

theorem Inv.takeByte (h : Inv f) (hb : f.rbuf = some b) (hlt : f.rbufPos < f.rbufLen) :
    ∃ r f', Stdio.takeByte f = some (r, f') ∧ Inv f' := by
  obtain ⟨hpos, -, hlen⟩ := h.bounds.rbuf
  have hsize := h.rsize b hb
  have hint := h.rlen
  have hhas : b.Has f.rbufPos := ⟨hpos, by omega⟩
  have hnext : int32 (f.rbufPos + 1) = f.rbufPos + 1 := int32_of_range (by omega) (by omega)
  unfold Stdio.takeByte Buffer.load
  rw [hb, bind_some, if_pos hhas, hnext]
  exact ⟨_, _, rfl, h.setRead b (f.rbufPos + 1) f.rbufLen f.rbufSize (by omega) (by omega) hlen hsize hint⟩

theorem Inv.refill (h : Inv f) (hb : f.rbuf = some b) :
    ∃ r f', Stdio.refill k b f = some (r, f') ∧ Inv f' := by
  obtain ⟨hpos, hle, hlen⟩ := h.bounds.rbuf
  have hsize := h.rsize b hb
  have hint := h.rlen
  unfold Stdio.refill
  cases hread : k.read with
  | none => exact ⟨eof, _, rfl, h.setError⟩
  | some data =>
    have hdata : (data.take f.rbufSize.toNat).length ≤ f.rbufSize.toNat := List.length_take_le _ _
    dsimp only
    rw [if_neg (by omega)]
    generalize data.take f.rbufSize.toNat = got at hdata ⊢
    by_cases hnone : got.length = 0
    · rw [if_pos hnone]
      exact ⟨eof, _, rfl, ⟨h.bounds.wbuf, h.bounds.rbuf⟩, h.wsize, h.wnone, h.rsize, h.rlen⟩
    have hlen' : int32 got.length = got.length := int32_of_range (by omega) (by omega)
    rw [if_neg hnone, hlen']
    have hinv := h.setRead (fillFront b got) 0 got.length f.rbufSize (le_refl 0) (by omega)
      (by omega) hsize hint
    exact hinv.takeByte rfl (by dsimp only; omega)

/-- And `fgetc`. -/
theorem Inv.fgetc (h : Inv f) : ∃ r f', Stdio.fgetc k f = some (r, f') ∧ Inv f' := by
  have hgo : ∀ {f : File} {b : Buffer}, Inv f → f.rbuf = some b → ∃ r f',
      (if f.rbufLen ≤ f.rbufPos then f.rbuf.bind fun b => Stdio.refill k b f else Stdio.takeByte f) = some (r, f') ∧
        Inv f' := by
    intro f b h hb
    split
    · rw [hb]
      exact h.refill hb
    · exact h.takeByte hb (by omega)
  unfold Stdio.fgetc ensureRbuf
  split
  · exact ⟨eof, f, rfl, h⟩
  cases hb : f.rbuf with
  | some b => exact hgo h hb
  | none =>
    cases hgiven : k.alloc with
    | none => 
        have hinv := h.setError
        rw [hb] at hinv
        exact ⟨eof, _, rfl, hinv⟩
    | some bytes =>
      have hinv := h.setRead { size := bufsiz.toNat, bytes } 0 0 bufsiz (le_refl 0) (le_refl 0)
        (by decide) (self_le_toNat _) (by decide)
      exact hgo hinv rfl

theorem Buffer.store_has {i : Int} (h : b.Has i) (uc : UInt8) : ∃ b', b.store i uc = some b' ∧ b'.size = b.size :=
  ⟨_, if_pos h, rfl⟩

/-- A memory stream becomes larger when only the place of the NUL is left. -/
theorem Inv.memPutc (h : Inv f) (hb : f.wbuf = some b) (uc : UInt8) :
    ∃ r f', Stdio.memPutc k uc b f = some (r, f') ∧
      (¬ (f.wbufPos + 1 = f.wbufSize ∧ 2 ^ 30 ≤ f.wbufSize ∧ k.alloc.isSome) → Inv f') ∧
      (f.wbufPos + 1 = f.wbufSize ∧ 2 ^ 30 ≤ f.wbufSize ∧ k.alloc.isSome → ¬ Bounds f') := by
  obtain ⟨hpos, hlt⟩ := h.bounds.wbuf b hb
  obtain ⟨hsize, hint⟩ := h.wsize b hb
  have hpred : int32 (f.wbufSize - 1) = f.wbufSize - 1 := int32_of_range (by omega) (by omega)
  have hnext : int32 (f.wbufPos + 1) = f.wbufPos + 1 := int32_of_range (by omega) (by omega)
  -- the two stores, into whichever buffer there is now
  have hstore : ∀ (b1 : Buffer) (size : Int), f.wbufPos + 1 < b1.size → ∃ b2 : Buffer, b2.size = b1.size ∧
      ((b1.store f.wbufPos uc).bind fun b => (b.store (int32 (f.wbufPos + 1)) 0).map fun b =>
        ((uc.toNat : Int), ({ f with wbuf := some b, wbufPos := int32 (f.wbufPos + 1), wbufSize := size } : File))) =
      some ((uc.toNat : Int), { f with wbuf := some b2, wbufPos := f.wbufPos + 1, wbufSize := size }) := by
    intro b1 size hroom
    obtain ⟨b2, hb2, hsame⟩ := Buffer.store_has (b := b1) ⟨hpos, by omega⟩ uc
    obtain ⟨b3, hb3, hsame'⟩ := Buffer.store_has (b := b2) (i := f.wbufPos + 1) ⟨by omega, by omega⟩ 0
    exact ⟨b3, by omega, by rw [hb2, bind_some, hnext, hb3, map_some]⟩
  unfold Stdio.memPutc growWbuf
  rw [hpred]
  by_cases hfull : f.wbufSize - 1 ≤ f.wbufPos
  · rw [if_pos hfull]
    cases hgiven : k.alloc with
    | none => exact ⟨eof, _, rfl, fun _ => h.setError, fun hbig => by cases hbig.2.2⟩
    | some bytes =>
      by_cases hbig : 2 ^ 30 ≤ f.wbufSize
      · -- twice the size is no `int` any more
        have hdouble : int32 (f.wbufSize * 2) = f.wbufSize * 2 - 2 ^ 32 := by
          unfold int32
          rw [bmod_def]
          split <;> omega
        rw [hdouble]
        obtain ⟨b2, hsame, hrun⟩ := hstore
          { size := ((f.wbufSize * 2 - 2 ^ 32) % 2 ^ 64).toNat
            bytes := fun i => if i < b.size then b.bytes i else bytes i }
          (f.wbufSize * 2 - 2 ^ 32) (by dsimp only; omega)
        refine ⟨_, _, hrun, fun hno => absurd ⟨by omega, hbig, rfl⟩ hno, fun _ hbounds => ?_⟩
        have hlost := hbounds.wbuf b2 rfl
        dsimp only at hlost
        omega
      have hdouble : int32 (f.wbufSize * 2) = f.wbufSize * 2 := int32_of_range (by omega) (by omega)
      rw [hdouble]
      obtain ⟨b2, hsame, hrun⟩ := hstore
        { size := (f.wbufSize * 2 % 2 ^ 64).toNat
          bytes := fun i => if i < b.size then b.bytes i else bytes i }
        (f.wbufSize * 2) (by dsimp only; omega)
      dsimp only at hsame
      exact ⟨_, _, hrun, fun _ => h.setWrite b2 (f.wbufPos + 1) (f.wbufSize * 2) (by omega) (by omega) (by omega)
        (by omega), fun hx => absurd hx.2.1 hbig⟩
  rw [if_neg hfull]
  obtain ⟨b2, hsame, hrun⟩ := hstore b f.wbufSize (by omega)
  exact ⟨_, _, hrun, fun _ => h.setWrite b2 (f.wbufPos + 1) f.wbufSize (by omega) (by omega) (by omega) hint,
    fun hbig => by omega⟩

/-- A character goes into the buffer; a full one whose flush fails is spoiled. -/
theorem Inv.bufPutc (h : Inv f) (hw : f.write = true) (hm : f.isMemstream = false) (hb : f.wbuf = some b) (c : Int)
    (uc : UInt8) :
    ∃ r f', Stdio.bufPutc k c uc b f = some (r, f') ∧
      (¬ (f.wbufPos + 1 = f.wbufSize ∧ k.write < 0) → Inv f') ∧
      (f.wbufPos + 1 = f.wbufSize ∧ k.write < 0 → ¬ Bounds f') := by
  obtain ⟨hpos, hlt⟩ := h.bounds.wbuf b hb
  obtain ⟨hsize, hint⟩ := h.wsize b hb
  have hnext : int32 (f.wbufPos + 1) = f.wbufPos + 1 := int32_of_range (by omega) (by omega)
  obtain ⟨b2, hb2, hsame⟩ := Buffer.store_has (h.has hb) uc
  unfold Stdio.bufPutc
  rw [hb2, bind_some, hnext]
  dsimp only
  by_cases hfull : f.wbufPos + 1 = f.wbufSize
  · rw [if_pos (Or.inl (by omega))]
    unfold Stdio.fflush
    rw [if_neg (by simp [hw]), if_neg (by simp [hm]), if_pos (by dsimp only; omega), bind_some,
      if_neg (by dsimp only; omega)]
    by_cases hrefused : k.write < 0
    · rw [if_pos hrefused, map_some]
      refine ⟨_, _, rfl, fun hno => absurd ⟨hfull, hrefused⟩ hno, fun _ hbounds => ?_⟩
      have hlost := hbounds.wbuf b2 rfl
      dsimp only at hlost
      omega
    · rw [if_neg hrefused, map_some]
      exact ⟨_, _, rfl, fun _ => h.setWrite b2 0 f.wbufSize (le_refl 0) (by omega) (by omega) hint,
        fun hx => absurd hx.2 hrefused⟩
  have hinv := h.setWrite b2 (f.wbufPos + 1) f.wbufSize (by omega) (by omega) (by omega) hint
  split
  · obtain ⟨r, f', hrun, hinv'⟩ := hinv.fflush (k := k)
    rw [hrun, map_some]
    exact ⟨_, _, rfl, fun _ => hinv', fun hx => absurd hx.1 hfull⟩
  · exact ⟨_, _, rfl, fun _ => hinv, fun hx => absurd hx.1 hfull⟩

/-- `fputc` keeps the bounds, but for that case. -/
theorem Inv.fputc (h : Inv f) (c : Int) : ∃ r f', Stdio.fputc k c f = some (r, f') ∧
    (¬ Spoils k f (.fputc c) → Inv f') ∧ (Spoils k f (.fputc c) → ¬ Bounds f') := by
  by_cases hw : f.write = true
  · unfold Stdio.fputc
    rw [if_neg (by simp [hw])]
    generalize UInt8.ofNat (c % 256).toNat = uc
    by_cases hu : f.unbuf = true
    · have hno : ¬ Spoils k f (.fputc c) := fun hs => by simp [Spoils, hu] at hs
      rw [if_pos hu]
      split
      · exact ⟨_, _, rfl, fun _ => h.setError, fun hs => absurd hs hno⟩
      · exact ⟨_, _, rfl, fun _ => h, fun hs => absurd hs hno⟩
    rw [if_neg hu]
    cases hb : f.wbuf with
    | none =>
      -- a fresh buffer has room
      have hno : ¬ Spoils k f (.fputc c) := fun hs => by simp [Spoils, hb] at hs
      unfold ensureWbuf
      cases hgiven : k.alloc with
      | none =>
        have hinv := h.setError
        rw [hb] at hinv
        simp only [hb, malloc, map_none]
        exact ⟨eof, _, rfl, fun _ => hinv, fun hs => absurd hs hno⟩
      | some bytes =>
        have hinv := h.setWrite { size := bufsiz.toNat, bytes } 0 bufsiz (le_refl 0) (by decide)
          (self_le_toNat _) (by decide)
        simp only [hb, malloc, map_some, bind_some]
        by_cases hm : f.isMemstream = true
        · obtain ⟨r, f', hrun, hkeep, -⟩ := hinv.memPutc (k := k) rfl uc
          rw [if_pos hm]
          exact ⟨r, f', hrun, fun _ => hkeep fun hx => absurd hx.1 (by dsimp only; decide), fun hs => absurd hs hno⟩
        · obtain ⟨r, f', hrun, hkeep, -⟩ := hinv.bufPutc (k := k) hw (by simpa using hm) rfl c uc
          rw [if_neg hm]
          exact ⟨r, f', hrun, fun _ => hkeep fun hx => absurd hx.1 (by dsimp only; decide), fun hs => absurd hs hno⟩
    | some b =>
      unfold ensureWbuf
      simp only [hb, bind_some]
      by_cases hm : f.isMemstream = true
      · rw [if_pos hm]
        obtain ⟨r, f', hrun, hkeep, hlose⟩ := h.memPutc (k := k) hb uc
        refine ⟨r, f', hrun, fun hno => hkeep fun hx => hno ?_, fun hs => hlose ?_⟩
        · exact ⟨hw, by simp [hu], by simp [hb], Or.inr ⟨hm, hx⟩⟩
        · rcases hs.2.2.2 with ⟨hx, -⟩ | ⟨-, hx⟩
          · simp [hm] at hx
          · exact hx
      rw [if_neg hm]
      have hm' : f.isMemstream = false := by simpa using hm
      obtain ⟨r, f', hrun, hkeep, hlose⟩ := h.bufPutc (k := k) hw hm' hb c uc
      refine ⟨r, f', hrun, fun hno => hkeep fun hx => hno ?_, fun hs => hlose ?_⟩
      · exact ⟨hw, by simp [hu], by simp [hb], Or.inl ⟨by simp [hm'], hx⟩⟩
      · rcases hs.2.2.2 with ⟨-, hx⟩ | ⟨hx, -⟩
        · exact hx
        · exact absurd hx hm
  · have hno : ¬ Spoils k f (.fputc c) := fun hs => hw hs.1
    exact ⟨eof, f, if_pos (by simp [hw]), fun _ => h, fun hs => absurd hs hno⟩

/-- Every call has a result, and loses the bounds exactly when it spoils the stream. -/
theorem Inv.run (h : Inv f) (call : Call) : ∃ r f', call.run k f = some (r, f') ∧
    (¬ Spoils k f call → Inv f') ∧ (Spoils k f call → ¬ Bounds f') := by
  cases call with
  | fputc c => exact h.fputc c
  | fgetc =>
    obtain ⟨r, f', hrun, hinv⟩ := h.fgetc (k := k)
    exact ⟨r, f', hrun, fun _ => hinv, False.elim⟩
  | fflush =>
    obtain ⟨r, f', hrun, hinv⟩ := h.fflush (k := k)
    exact ⟨r, f', hrun, fun _ => hinv, False.elim⟩
  | fseek offset whence =>
    obtain ⟨r, f', hrun, hinv⟩ := h.fseek (k := k) offset whence
    exact ⟨r, f', hrun, fun _ => hinv, False.elim⟩

theorem Safe.bounds {calls : List (Call × Answers)} (h : Safe f calls) : Bounds f := by
  cases calls with
  | nil => exact h
  | cons step calls => exact h.1

/-- A run keeps the bounds exactly when none of its calls spoils the stream. -/
theorem Inv.safe_iff (h : Inv f) (calls : List (Call × Answers)) : Safe f calls ↔ Unspoiled f calls := by
  induction calls generalizing f with
  | nil => exact ⟨fun _ => trivial, fun _ => h.bounds⟩
  | cons step calls ih =>
    obtain ⟨call, k⟩ := step
    obtain ⟨r, f', hrun, hkeep, hlose⟩ := h.run (k := k) call
    constructor
    · rintro ⟨-, r1, f1, hrun1, hsafe⟩
      obtain ⟨-, rfl⟩ : r = r1 ∧ f' = f1 := by
        rw [hrun] at hrun1
        exact Prod.mk.inj (some.inj hrun1)
      have hno : ¬ Spoils k f call := fun hs => hlose hs hsafe.bounds
      refine ⟨hno, fun r2 f2 hrun2 => ?_⟩
      rw [hrun] at hrun2
      obtain ⟨-, rfl⟩ := Prod.mk.inj (some.inj hrun2)
      exact (ih (hkeep hno)).1 hsafe
    · rintro ⟨hno, hrest⟩
      exact ⟨h.bounds, r, f', hrun, (ih (hkeep hno)).2 (hrest r f' hrun)⟩

/-- **Every stream that a program gets keeps its bounds exactly as long as no call spoils it.** -/
theorem Opened.safe_exact (h : Opened f) (calls : List (Call × Answers)) : Safe f calls ↔ Unspoiled f calls :=
  h.inv.safe_iff calls

end

/-! ## A refused buffer -/

section

/-- There is memory, and every call of the kernel fails. -/
def refused : Answers where
  alloc := some fun _ => 0
  write := -1
  read := none
  tell := -1
  lseek _ _ := -1

/-- The same with a kernel that takes what is written. -/
def taken : Answers := { refused with write := 1024 }

/-- `stdout` with `n` bytes in the buffer. -/
def filled (b : Buffer) (n : Int) : File := { stdout with wbuf := some b, wbufSize := bufsiz, wbufPos := n }

/-- The stream after calls that have a result. -/
def File.after (f : File) (calls : List (Call × Answers)) : Option File :=
  calls.foldlM (fun f step => (step.1.run step.2 f).map Prod.snd) f

theorem File.after_append {f f' : File} {calls rest : List (Call × Answers)} (h : f.after calls = some f') :
    f.after (calls ++ rest) = f'.after rest := by
  unfold File.after at h ⊢
  rw [List.foldlM_append, h]
  rfl

/-- A safe run has a last state, which keeps the bounds. -/
theorem Safe.after {f : File} {calls : List (Call × Answers)} (h : Safe f calls) :
    ∃ f', f.after calls = some f' ∧ Bounds f' := by
  induction calls generalizing f with
  | nil => exact ⟨f, rfl, h⟩
  | cons step calls ih =>
    obtain ⟨-, r, f1, hrun, hsafe⟩ := h
    obtain ⟨f', hafter, hbounds⟩ := ih hsafe
    refine ⟨f', ?_, hbounds⟩
    have hone : f.after [step] = some f1 := by simp [File.after, hrun]
    exact (File.after_append hone).trans hafter

theorem fputc_filled {k : Answers} {b : Buffer} {n : Int} (hb : b.size = 1024) (hpos : 0 ≤ n) (hlt : n < 1023) :
    ∃ b', b'.size = 1024 ∧ fputc k 65 (filled b n) = some (65, filled b' (n + 1)) := by
  obtain ⟨b', hb', hsize⟩ := Buffer.store_has (b := b) (i := n) ⟨hpos, by omega⟩ 65
  have hnext : int32 (n + 1) = n + 1 := int32_of_range (by omega) (by omega)
  have hroom : ¬ bufsiz ≤ n + 1 := by
    unfold bufsiz
    omega
  have hput : fputc k 65 (filled b n) = bufPutc k 65 65 b (filled b n) := rfl
  have hstore : b.store (filled b n).wbufPos 65 = some b' := hb'
  refine ⟨b', by omega, ?_⟩
  rw [hput, bufPutc, hstore, bind_some]
  simp [filled, hnext, hroom, stdout, fileAlloc]

/-- The byte that fills the buffer stays when the kernel refuses the buffer. -/
theorem fputc_full {b : Buffer} (hb : b.size = 1024) : ∃ b', b'.size = 1024 ∧
    fputc refused 65 (filled b 1023) = some (eof, { filled b' 1024 with error := true }) := by
  obtain ⟨b', hb', hsize⟩ := Buffer.store_has (b := b) (i := 1023) ⟨by decide, by omega⟩ 65
  have hput : fputc refused 65 (filled b 1023) = bufPutc refused 65 65 b (filled b 1023) := rfl
  have hstore : b.store (filled b 1023).wbufPos 65 = some b' := hb'
  have hsame : b'.size = 1024 := by omega
  have hnext : int32 1024 = 1024 := by decide
  refine ⟨b', hsame, ?_⟩
  rw [hput, bufPutc, hstore, bind_some]
  simp [filled, hnext, stdout, fileAlloc, fflush, hsame, refused, bufsiz]

/-- The byte that fills the buffer empties it when the kernel takes the buffer. -/
theorem fputc_flushed {b : Buffer} (hb : b.size = 1024) : ∃ b', b'.size = 1024 ∧
    fputc taken 65 (filled b 1023) = some (65, filled b' 0) := by
  obtain ⟨b', hb', hsize⟩ := Buffer.store_has (b := b) (i := 1023) ⟨by decide, by omega⟩ 65
  have hput : fputc taken 65 (filled b 1023) = bufPutc taken 65 65 b (filled b 1023) := rfl
  have hstore : b.store (filled b 1023).wbufPos 65 = some b' := hb'
  have hsame : b'.size = 1024 := by omega
  have hnext : int32 1024 = 1024 := by decide
  refine ⟨b', hsame, ?_⟩
  rw [hput, bufPutc, hstore, bind_some]
  simp [filled, hnext, stdout, fileAlloc, fflush, hsame, taken, bufsiz, Stdio.eof]

/-- The first byte makes the buffer. -/
theorem fputc_first {k : Answers} (hk : k.alloc = some fun _ => 0) :
    fputc k 65 stdout = some (65, filled { size := 1024, bytes := Function.update (fun _ => 0) 0 65 } 1) := by
  simp [fputc, stdout, fileAlloc, ensureWbuf, malloc, hk, bufPutc, Buffer.store, Buffer.Has, bufsiz, filled, int32]

theorem after_replicate {k : Answers} (hk : k.alloc = some fun _ => 0) (n : Nat) (hn : n < 1023) :
    ∃ b : Buffer, b.size = 1024 ∧ stdout.after (List.replicate (n + 1) (.fputc 65, k)) = some (filled b (n + 1)) := by
  induction n with
  | zero =>
    refine ⟨{ size := 1024, bytes := Function.update (fun _ => 0) 0 65 }, rfl, ?_⟩
    simp [File.after, Call.run, fputc_first hk]
  | succ n ih =>
    obtain ⟨b, hb, hrun⟩ := ih (by omega)
    obtain ⟨b', hb', hput⟩ := fputc_filled (k := k) (n := n + 1) hb (by omega) (by omega)
    refine ⟨b', hb', ?_⟩
    rw [List.replicate_succ', File.after_append hrun]
    simp [File.after, Call.run, hput]

/-- No byte spoils `stdout` while the kernel takes what is written. -/
theorem unspoiled_taken (m : Nat) {b : Buffer} {n : Int} (hb : b.size = 1024) (hpos : 0 ≤ n) (hlt : n < 1024) :
    Unspoiled (filled b n) (List.replicate m (.fputc 65, taken)) := by
  induction m generalizing b n with
  | zero => trivial
  | succ m ih =>
    refine ⟨fun hs => by simp [Spoils, filled, stdout, fileAlloc, taken] at hs, fun r f' hrun => ?_⟩
    rcases lt_or_eq_of_le (show n ≤ 1023 by omega) with hn | rfl
    · obtain ⟨b', hb', hput⟩ := fputc_filled (k := taken) hb hpos hn
      cases hput.symm.trans hrun
      exact ih hb' (by omega) (by omega)
    · obtain ⟨b', hb', hput⟩ := fputc_flushed hb
      cases hput.symm.trans hrun
      exact ih hb' (by decide) (by decide)

/-- Writing `A` to a closed `stdout`: the byte 1024 loses the bounds, and the next one is stored behind the
buffer. -/
theorem stdout_refused : Opened stdout ∧
    ¬ Safe stdout (List.replicate 1024 (.fputc 65, refused)) ∧
    stdout.after (List.replicate 1025 (.fputc 65, refused)) = none := by
  obtain ⟨b, hb, hrun⟩ := after_replicate (k := refused) rfl 1022 (by decide)
  obtain ⟨b', hb', hfull⟩ := fputc_full hb
  have hlost : stdout.after (List.replicate 1024 (.fputc 65, refused)) =
      some { filled b' 1024 with error := true } := by
    rw [List.replicate_succ', File.after_append hrun]
    simp [File.after, Call.run, hfull]
  refine ⟨.stdout, fun hsafe => ?_, ?_⟩
  · obtain ⟨f', hafter, hbounds⟩ := hsafe.after
    rw [hlost] at hafter
    cases hafter
    have hlt : (1024 : Int) < bufsiz := (hbounds.wbuf b' rfl).2
    exact absurd hlt (by decide)
  rw [List.replicate_succ', File.after_append hlost]
  have hout : ¬ b'.Has 1024 := fun h => by
    have hlt := h.2
    omega
  simp [File.after, Call.run, fputc, filled, stdout, fileAlloc, ensureWbuf, bufPutc, Buffer.store, hout]

/-- Three thousand bytes to a `stdout` that the kernel takes: the byte 1024 fills the buffer and empties it. -/
theorem stdout_taken : Safe stdout (List.replicate 3000 (.fputc 65, taken)) ∧
    ∃ b, stdout.after (List.replicate 1024 (.fputc 65, taken)) = some (filled b 0) := by
  constructor
  · refine (Opened.stdout.safe_exact _).2 ⟨fun hs => by simp [Spoils, stdout, fileAlloc] at hs, fun r f' hrun => ?_⟩
    cases (fputc_first (k := taken) rfl).symm.trans hrun
    exact unspoiled_taken 2999 rfl (by decide) (by decide)
  obtain ⟨b, hb, hrun⟩ := after_replicate (k := taken) rfl 1022 (by decide)
  obtain ⟨b', -, hput⟩ := fputc_flushed hb
  refine ⟨b', ?_⟩
  rw [List.replicate_succ', File.after_append hrun]
  simp [File.after, Call.run, hput]

end

end Slopix.Stdio
