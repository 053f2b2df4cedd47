import Slopix.Libc.Format

/-!
# Buffered output

The writing side of `libc/stdio_file.c`. What the kernel and the allocator answer comes from an `Env`
and is kept in a log: how many bytes a `write` takes, or that it fails; whether `malloc` and `close`
succeed. A store outside the buffer of the stream is the end of what the model says about a program.
-/

namespace Slopix.Libc

/-- `BUFSIZ`. -/
def bufsiz : Nat := 1024

/-- `EOF`. -/
def eof : Int := -1

/-- `FILE`, what output uses of it. `wbuf` holds the bytes below `wbuf_pos`. -/
structure Stream where
  fd : Int
  write : Bool
  unbuf : Bool
  error : Bool
  wbuf : Option (List UInt8)
  wbufSize : Nat
  isMemstream : Bool
  memstreamSize : Nat
  deriving DecidableEq

/-- An answer to the library. A `write` was of the buffer or of one unbuffered byte. -/
inductive Answer where
  | write (buffered : Bool) (len : Nat) (taken : Option Nat)
  | malloc (ok : Bool)
  | close (ok : Bool)
  deriving DecidableEq

/-- What the `n`-th answer will be: `write` takes at most this many bytes or fails. -/
structure Env where
  write : Nat → Option Nat
  malloc : Nat → Bool
  close : Nat → Bool

/-- The stream, what its descriptor has accepted, and the answers so far. -/
structure World where
  stream : Stream
  accepted : List UInt8
  log : List Answer
  deriving DecidableEq

variable (env : Env)

/-- `write(stream->fd, buf, len)`. -/
def sysWrite (buffered : Bool) (buf : List UInt8) (w : World) : Option Nat × World :=
  match env.write w.log.length with
  | none => (none, { w with log := w.log ++ [.write buffered buf.length none] })
  | some k =>
    let n := min k buf.length
    (some n, { w with
      accepted := w.accepted ++ buf.take n
      log := w.log ++ [.write buffered buf.length (some n)] })

/-- `malloc` or `realloc`. -/
def sysMalloc (w : World) : Bool × World :=
  let ok := env.malloc w.log.length
  (ok, { w with log := w.log ++ [.malloc ok] })

/-- Set the error flag of the stream. -/
def World.setError (w : World) : World := { w with stream := { w.stream with error := true } }

/-- Set the bytes in the buffer. -/
def World.setBuf (w : World) (buf : List UInt8) : World :=
  { w with stream := { w.stream with wbuf := some buf } }

/-- `fflush`: the buffer goes to `write`; a memory stream only sets its size. -/
def fflush (w : World) : Int × World :=
  if !w.stream.write then (0, w)
  else if w.stream.isMemstream then
    (0, { w with stream := { w.stream with memstreamSize := (w.stream.wbuf.getD []).length } })
  else
    match w.stream.wbuf with
    | none => (0, w)
    | some [] => (0, w)
    | some buf =>
      match sysWrite env true buf w with
      | (none, w) => (eof, w.setError)
      | (some _, w) => (0, w.setBuf [])

/-- The part of `fputc` that makes sure there is a buffer. -/
def ensureBuf (w : World) : Bool × World :=
  match w.stream.wbuf with
  | some _ => (true, w)
  | none =>
    match sysMalloc env w with
    | (false, w) => (false, w.setError)
    | (true, w) => (true, { w with stream := { w.stream with wbuf := some [], wbufSize := bufsiz } })

/-- The part of `fputc` for a stream in memory. -/
def memPutc (uc : UInt8) (w : World) : Option Int × World :=
  let buf := w.stream.wbuf.getD []
  if w.stream.wbufSize - 1 ≤ buf.length then
    match sysMalloc env w with
    | (false, w) => (some eof, w.setError)
    | (true, w) =>
      (some uc.toNat, { w with stream := { w.stream with
        wbuf := some (buf ++ [uc]), wbufSize := w.stream.wbufSize * 2 } })
  else (some uc.toNat, w.setBuf (buf ++ [uc]))

/-- The part of `fputc` that stores the byte and flushes a full buffer, or a line of `stdout`. -/
def bufPutc (c : Int) (uc : UInt8) (w : World) : Option Int × World :=
  let buf := w.stream.wbuf.getD []
  if w.stream.wbufSize ≤ buf.length then (none, w)
  else
    let w := w.setBuf (buf ++ [uc])
    if w.stream.wbufSize ≤ buf.length + 1 ∨ (w.stream.fd = 1 ∧ c = 10) then
      match fflush env w with
      | (r, w) => (some (if r = eof then eof else uc.toNat), w)
    else (some uc.toNat, w)

/-- `fputc`; `none` when it stores outside the buffer. -/
def fputc (c : Int) (w : World) : Option Int × World :=
  if !w.stream.write then (some eof, w)
  else
    let uc := UInt8.ofNat (c % 256).toNat
    if w.stream.unbuf then
      match sysWrite env false [uc] w with
      | (r, w) => if r = some 1 then (some uc.toNat, w) else (some eof, w.setError)
    else
      match ensureBuf env w with
      | (false, w) => (some eof, w)
      | (true, w) => if w.stream.isMemstream then memPutc env uc w else bufPutc env c uc w

/-- The loop of `fputs`, `fwrite` and `vprintf_core`: how many characters `fputc` took, and whether it
took all. -/
def putAll : List Int → World → Option (Nat × Bool) × World
  | [], w => (some (0, true), w)
  | c :: cs, w =>
    match fputc env c w with
    | (none, w) => (none, w)
    | (some r, w) =>
      if r = eof then (some (0, false), w)
      else
        match putAll cs w with
        | (some (n, all), w) => (some (n + 1, all), w)
        | (none, w) => (none, w)

/-- `fputs`. -/
def fputs (s : List UInt8) (w : World) : Option Int × World :=
  match putAll env (chars s) w with
  | (some (_, all), w) => (some (if all then 0 else eof), w)
  | (none, w) => (none, w)

/-- `fwrite`: the number of whole items written. -/
def fwrite (p : List UInt8) (size count : Nat) (w : World) : Option Nat × World :=
  if size = 0 ∨ count = 0 then (some 0, w)
  else
    match putAll env (chars (p.take (size * count % 2 ^ 64))) w with
    | (some (n, _), w) => (some (n / size), w)
    | (none, w) => (none, w)

/-- `fprintf`: `vprintf_core` with `file_putc`. -/
def fprintf (fmt : List UInt8) (ap : List VaArg) (w : World) : Option Int × World :=
  match putAll env (vprintfText fmt ap) w with
  | (some (n, all), w) => (some (if all then n else -1), w)
  | (none, w) => (none, w)

/-- `fclose`: the flush, and `close` for a stream with a descriptor. -/
def fclose (w : World) : Int × World :=
  let (result, w) := fflush env w
  if 0 ≤ w.stream.fd then
    let ok := env.close w.log.length
    (if ok then result else eof, { w with log := w.log ++ [.close ok] })
  else (result, w)

end Slopix.Libc
