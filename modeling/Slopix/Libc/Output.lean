import Slopix.Libc.Stdio

/-!
# Is everything written delivered?

A session is a list of output calls on a stream and an `fflush` or `fclose` at the end. Either the
descriptor has accepted the bytes written, in order, or some call has reported an error, except when
all the answers are without error and a `write` of the buffer took only a part: `fflush` empties the
buffer all the same, and the rest is gone (`output_delivered`).
-/

namespace Slopix.Libc

open List

/-- A call on the stream. The array of `fwrite` has `count` elements of `size` bytes. -/
inductive OutCall where
  | fputc (c : Int)
  | fputs (s : List UInt8)
  | fwrite (p : List UInt8) (size count : Nat) (hp : p.length = size * count)
      (hlt : size * count < 2 ^ 64)
  | fprintf (fmt : List UInt8) (ap : List VaArg)
  | fflush

namespace OutCall

/-- The characters the call is to write. -/
def text : OutCall → List Int
  | .fputc c => [c]
  | .fputs s => chars s
  | .fwrite p _ _ _ _ => chars p
  | .fprintf fmt ap => vprintfText fmt ap
  | .fflush => []

/-- The function that a call names. -/
def run (env : Env) : OutCall → World → Option Int × World
  | .fputc c, w => Libc.fputc env c w
  | .fputs s, w => Libc.fputs env s w
  | .fwrite p size count _ _, w =>
    match Libc.fwrite env p size count w with
    | (r, w) => (r.map Int.ofNat, w)
  | .fprintf fmt ap, w => Libc.fprintf env fmt ap w
  | .fflush, w =>
    match Libc.fflush env w with
    | (r, w) => (some r, w)

/-- The result tells of an error: `EOF`, a negative count, or fewer elements than asked. -/
def Reports : OutCall → Int → Prop
  | .fwrite _ size count _ _, r => size ≠ 0 ∧ r < count
  | .fprintf _ _, r => r < 0
  | _, r => r = eof

instance (call : OutCall) (r : Int) : Decidable (call.Reports r) := by
  cases call <;> unfold Reports <;> infer_instance

end OutCall

/-- The bytes that the characters are stored as. -/
def charBytes (cs : List Int) : List UInt8 := cs.map fun c => UInt8.ofNat (c % 256).toNat

/-- Calls in order; the results, and whether all returned. -/
def runCalls (env : Env) : List OutCall → World → List Int × Bool × World
  | [], w => ([], true, w)
  | call :: calls, w =>
    match call.run env w with
    | (none, w) => ([], false, w)
    | (some r, w) =>
      match runCalls env calls w with
      | (rs, all, w) => (r :: rs, all, w)

/-- How a session ends. -/
structure Outcome where
  results : List Int
  last : Option Int
  world : World
  deriving DecidableEq

/-- The calls, then `fclose` or `fflush`. -/
def runSession (env : Env) (calls : List OutCall) (closing : Bool) (w : World) : Outcome :=
  match runCalls env calls w with
  | (results, false, w) => ⟨results, none, w⟩
  | (results, true, w) =>
    match if closing then fclose env w else fflush env w with
    | (r, w) => ⟨results, some r, w⟩

/-- A descriptor stream as `fopen` and the definitions of `stdout` and `stderr` leave it. -/
structure Opened (w : World) : Prop where
  write : w.stream.write = true
  isFile : w.stream.isMemstream = false
  buf : w.stream.wbuf = none ∨ w.stream.wbuf = some [] ∧ 0 < w.stream.wbufSize
  accepted : w.accepted = []
  log : w.log = []

/-- Everything written was accepted in order, or a call told of an error. -/
def Delivered (calls : List OutCall) (o : Outcome) : Prop :=
  (∃ p ∈ calls.zip o.results, p.1.Reports p.2) ∨ o.last = some eof ∨
    o.last.isSome ∧ o.world.accepted = charBytes (calls.flatMap OutCall.text)

instance (calls : List OutCall) (o : Outcome) : Decidable (Delivered calls o) := by
  unfold Delivered
  infer_instance

/-- The answer is an error: nothing, or not the one byte, was written, or `malloc` or `close`
failed. -/
def Answer.Fails : Answer → Prop
  | .write _ _ none => True
  | .write buffered len (some n) => buffered = false ∧ n < len
  | .malloc ok => ok = false
  | .close ok => ok = false

/-- A `write` of the buffer took only a part. -/
def Answer.Short : Answer → Prop
  | .write true len (some n) => n < len
  | _ => False

/-! ## The log -/

section

variable (env : Env)

/-- What has been asked of the environment stays. -/
def Grows (w w' : World) : Prop := w.log <+: w'.log

theorem Grows.refl (w : World) : Grows w w := prefix_rfl

theorem Grows.trans {w w' w'' : World} (h : Grows w w') (h' : Grows w' w'') : Grows w w'' :=
  List.IsPrefix.trans h h'

theorem sysWrite_grows (buffered : Bool) (buf : List UInt8) (w : World) :
    Grows w (sysWrite env buffered buf w).2 := by
  unfold sysWrite Grows
  cases env.write w.log.length <;> simp

theorem sysMalloc_grows (w : World) : Grows w (sysMalloc env w).2 := by
  simp [sysMalloc, Grows]

theorem fflush_grows (w : World) : Grows w (fflush env w).2 := by
  unfold fflush
  split
  · exact .refl w
  split
  · exact .refl w
  split
  · exact .refl w
  · exact .refl w
  · rename_i buf _ _
    have h := sysWrite_grows env true buf w
    rcases hw : sysWrite env true buf w with ⟨_ | n, w'⟩ <;> rw [hw] at h <;> exact h

/-- `fputc` only adds to the log. -/
theorem fputc_grows (c : Int) (w : World) : Grows w (fputc env c w).2 := by
  have hensure : ∀ w, Grows w (ensureBuf env w).2 := by
    intro w
    unfold ensureBuf
    have h := sysMalloc_grows env w
    split
    · exact .refl w
    · rcases hm : sysMalloc env w with ⟨_ | _, w'⟩ <;> rw [hm] at h <;> exact h
  have hmem : ∀ uc w, Grows w (memPutc env uc w).2 := by
    intro uc w
    unfold memPutc
    have h := sysMalloc_grows env w
    dsimp only
    split
    · rcases hm : sysMalloc env w with ⟨_ | _, w'⟩ <;> rw [hm] at h <;> exact h
    · exact .refl w
  have hbuf : ∀ uc w, Grows w (bufPutc env c uc w).2 := by
    intro uc w
    unfold bufPutc
    dsimp only
    split
    · exact .refl w
    · split
      · exact fflush_grows env (w.setBuf (w.stream.wbuf.getD [] ++ [uc]))
      · exact .refl w
  unfold fputc
  dsimp only
  split
  · exact .refl w
  split
  · have h := sysWrite_grows env false [UInt8.ofNat (c % 256).toNat] w
    rcases hw : sysWrite env false [UInt8.ofNat (c % 256).toNat] w with ⟨r, w'⟩
    rw [hw] at h
    split <;> exact h
  have h := hensure w
  rcases he : ensureBuf env w with ⟨_ | _, w'⟩
  · rw [he] at h
    exact h
  rw [he] at h
  dsimp only
  split
  · exact h.trans (hmem _ _)
  · exact h.trans (hbuf _ _)

theorem putAll_grows (cs : List Int) (w : World) : Grows w (putAll env cs w).2 := by
  induction cs generalizing w with
  | nil => exact .refl w
  | cons c cs ih =>
    unfold putAll
    have h := fputc_grows env c w
    rcases hc : fputc env c w with ⟨_ | r, w'⟩
    · rw [hc] at h
      exact h
    rw [hc] at h
    dsimp only
    split
    · exact h
    · have h' := ih w'
      rcases hr : putAll env cs w' with ⟨_ | ⟨n, all⟩, w''⟩ <;> rw [hr] at h' <;>
        exact h.trans h'

theorem OutCall.run_grows (call : OutCall) (w : World) : Grows w (call.run env w).2 := by
  have hall : ∀ cs, Grows w (putAll env cs w).2 := fun cs => putAll_grows env cs w
  cases call with
  | fputc c => exact fputc_grows env c w
  | fputs s =>
    have h := hall (chars s)
    show Grows w (Libc.fputs env s w).2
    unfold Libc.fputs
    rcases hr : putAll env (chars s) w with ⟨_ | ⟨n, all⟩, w'⟩ <;> rw [hr] at h <;> exact h
  | fwrite p size count hp hlt =>
    have h := hall (chars (p.take (size * count % 2 ^ 64)))
    show Grows w (Libc.fwrite env p size count w).2
    unfold Libc.fwrite
    by_cases h0 : size = 0 ∨ count = 0
    · rw [if_pos h0]
      exact .refl w
    · rw [if_neg h0]
      rcases hr : putAll env (chars (p.take (size * count % 2 ^ 64))) w with ⟨_ | ⟨n, all⟩, w'⟩ <;>
        rw [hr] at h <;> exact h
  | fprintf fmt ap =>
    have h := hall (vprintfText fmt ap)
    show Grows w (Libc.fprintf env fmt ap w).2
    unfold Libc.fprintf
    rcases hr : putAll env (vprintfText fmt ap) w with ⟨_ | ⟨n, all⟩, w'⟩ <;> rw [hr] at h <;>
      exact h
  | fflush => exact fflush_grows env w

theorem runCalls_grows (calls : List OutCall) (w : World) : Grows w (runCalls env calls w).2.2 := by
  induction calls generalizing w with
  | nil => exact .refl w
  | cons call calls ih =>
    unfold runCalls
    have h := call.run_grows env w
    rcases hr : call.run env w with ⟨_ | r, w'⟩
    · rw [hr] at h
      exact h
    · rw [hr] at h
      exact h.trans (ih w')

theorem finish_grows (closing : Bool) (w : World) :
    Grows w (if closing then fclose env w else fflush env w).2 := by
  have h := fflush_grows env w
  cases closing with
  | false => exact h
  | true =>
    rw [if_pos rfl]
    unfold fclose
    rcases hr : fflush env w with ⟨r, w'⟩
    rw [hr] at h
    dsimp only
    split
    · exact h.trans (prefix_append _ _)
    · exact h

end

/-! ## Calls without an error -/

/-- The bytes in the buffer. -/
def World.pending (w : World) : List UInt8 := w.stream.wbuf.getD []

/-- What has been accepted or is to be sent next. -/
def World.sent (w : World) : List UInt8 := w.accepted ++ w.pending

/-- A descriptor stream between two calls; a buffer has room for a byte. -/
structure Ready (w : World) : Prop where
  write : w.stream.write = true
  isFile : w.stream.isMemstream = false
  room : ∀ b, w.stream.wbuf = some b → b.length < w.stream.wbufSize
  unbuf : w.stream.unbuf = true → w.pending = []

/-- The answers behind `w` have an error among them. -/
def Broken (w w' : World) : Prop := ∃ more, w'.log = w.log ++ more ∧ ∃ a ∈ more, a.Fails

/-- The bytes `bs` have been handled without an error: if no write was short they follow what was sent
before, else there is less than that. -/
structure Clean (bs : List UInt8) (w w' : World) : Prop where
  ready : Ready w'
  log : ∃ more, w'.log = w.log ++ more ∧ (∀ a ∈ more, ¬ a.Fails) ∧
    ((∀ a ∈ more, ¬ a.Short) → w'.sent = w.sent ++ bs) ∧
    ((∃ a ∈ more, a.Short) → w'.sent.length < w.sent.length + bs.length)

section

variable (env : Env) {w w' w'' : World} {bs bs' : List UInt8}

theorem Clean.refl (h : Ready w) : Clean [] w w :=
  ⟨h, [], by simp⟩

/-- One output after the other. -/
theorem Clean.trans (h : Clean bs w w') (h' : Clean bs' w' w'') : Clean (bs ++ bs') w w'' := by
  obtain ⟨more, hlog, hfail, hall, hshort⟩ := h.log
  obtain ⟨more', hlog', hfail', hall', hshort'⟩ := h'.log
  -- Less or equal in either case.
  have hle : w'.sent.length ≤ w.sent.length + bs.length := by
    by_cases hex : ∃ a ∈ more, a.Short
    · exact (hshort hex).le
    · rw [hall fun a ha hs => hex ⟨a, ha, hs⟩, length_append]
  have hle' : w''.sent.length ≤ w'.sent.length + bs'.length := by
    by_cases hex : ∃ a ∈ more', a.Short
    · exact (hshort' hex).le
    · rw [hall' fun a ha hs => hex ⟨a, ha, hs⟩, length_append]
  refine ⟨h'.ready, more ++ more', by rw [hlog', hlog, append_assoc], ?_, ?_, ?_⟩
  · intro a ha
    rcases mem_append.1 ha with ha | ha
    · exact hfail a ha
    · exact hfail' a ha
  · intro hno
    rw [hall' fun a ha => hno a (mem_append_right _ ha),
      hall fun a ha => hno a (mem_append_left _ ha), append_assoc]
  rintro ⟨a, ha, hs⟩
  rw [length_append]
  rcases mem_append.1 ha with ha | ha
  · have := hshort ⟨a, ha, hs⟩
    omega
  · have := hshort' ⟨a, ha, hs⟩
    omega

theorem Broken.grow (h : Broken w w') (h' : Grows w' w'') : Broken w w'' := by
  obtain ⟨more, hlog, a, ha, hf⟩ := h
  obtain ⟨more', hlog'⟩ := h'
  exact ⟨more ++ more', by rw [← hlog', hlog, append_assoc], a, mem_append_left _ ha, hf⟩

theorem Clean.broken (h : Clean bs w w') (h' : Broken w' w'') : Broken w w'' := by
  obtain ⟨more, hlog, -⟩ := h.log
  obtain ⟨more', hlog', a, ha, hf⟩ := h'
  exact ⟨more ++ more', by rw [hlog', hlog, append_assoc], a, mem_append_right _ ha, hf⟩

/-- A `write` of the buffer: what it takes of it is behind what was accepted, and the rest is lost. -/
theorem fflush_clean (hw : w.stream.write = true) (hf : w.stream.isMemstream = false)
    (hu : w.stream.unbuf = true → w.pending = [])
    (hsize : ∀ b, w.stream.wbuf = some b → 0 < w.stream.wbufSize) :
    (fflush env w).1 = eof ∧ Broken w (fflush env w).2 ∨
      (fflush env w).1 = 0 ∧ Clean [] w (fflush env w).2 ∧ (fflush env w).2.pending = [] := by
  unfold fflush
  rw [if_neg (by simp [hw]), if_neg (by simp [hf])]
  rcases hb : w.stream.wbuf with _ | ⟨_ | ⟨c, buf⟩⟩
  · refine .inr ⟨rfl, .refl ⟨hw, hf, fun b h => (Option.some_ne_none b (h.symm.trans hb)).elim, hu⟩, by simp [World.pending, hb]⟩
  · refine .inr ⟨rfl, .refl ⟨hw, hf, fun b h => ?_, hu⟩, by simp [World.pending, hb]⟩
    rw [hb] at h
    cases h
    exact hsize [] hb
  unfold sysWrite
  cases henv : env.write w.log.length with
  | none =>
    exact .inl ⟨rfl, _, rfl, _, mem_singleton_self _, trivial⟩
  | some k =>
    refine .inr ⟨rfl, ⟨⟨hw, hf, ?_, fun _ => rfl⟩, _, rfl, ?_, ?_, ?_⟩, rfl⟩
    · rintro b ⟨⟩
      exact hsize _ hb
    · simp [Answer.Fails]
    · intro hno
      have hfull : ¬ min k (c :: buf).length < (c :: buf).length :=
        hno _ (mem_singleton_self _)
      have htake : (c :: buf).take (min k (c :: buf).length) = c :: buf :=
        take_of_length_le (by omega)
      simp only [World.sent, World.pending, World.setBuf, Option.getD_some, append_nil, hb]
      rw [htake]
    rintro ⟨a, ha, hs⟩
    rw [mem_singleton] at ha
    subst ha
    have hlt : min k (c :: buf).length < (c :: buf).length := hs
    simp only [World.sent, World.pending, World.setBuf, Option.getD_some, append_nil,
      hb, length_append, length_take, length_nil]
    omega

theorem ensureBuf_clean (h : Ready w) :
    (ensureBuf env w).1 = false ∧ Broken w (ensureBuf env w).2 ∨
      (ensureBuf env w).1 = true ∧ Clean [] w (ensureBuf env w).2 ∧
        ∃ b, (ensureBuf env w).2.stream.wbuf = some b ∧
          (ensureBuf env w).2.stream.unbuf = w.stream.unbuf := by
  unfold ensureBuf
  cases hb : w.stream.wbuf with
  | some b => exact .inr ⟨rfl, .refl h, b, hb, rfl⟩
  | none =>
    unfold sysMalloc
    cases henv : env.malloc w.log.length with
    | false =>
      exact .inl ⟨rfl, _, rfl, _, mem_singleton_self _, rfl⟩
    | true =>
      refine .inr ⟨rfl, ⟨⟨h.write, h.isFile, ?_, fun _ => rfl⟩, _, rfl, ?_, ?_, ?_⟩, [], rfl, rfl⟩
      · rintro b ⟨⟩
        exact Nat.zero_lt_succ _
      · simp [Answer.Fails]
      · simp [World.sent, World.pending, hb]
      · simp [Answer.Short]

theorem bufPutc_clean (h : Ready w) (hu : w.stream.unbuf = false) {b : List UInt8} (hb : w.stream.wbuf = some b) (c : Int)
    (uc : UInt8) :
    (bufPutc env c uc w).1 = some eof ∧ Broken w (bufPutc env c uc w).2 ∨
      (bufPutc env c uc w).1 = some (uc.toNat : Int) ∧ Clean [uc] w (bufPutc env c uc w).2 := by
  have hroom := h.room b hb
  have hset : (w.setBuf (b ++ [uc])).sent = w.sent ++ [uc] := by
    simp [World.sent, World.pending, World.setBuf, hb]
  unfold bufPutc
  simp only [hb, Option.getD_some]
  rw [if_neg (by omega)]
  split
  · have hflush := fflush_clean env (w := w.setBuf (b ++ [uc])) h.write h.isFile
      (fun e => absurd (hu.symm.trans e) Bool.false_ne_true) (fun _ _ => show 0 < w.stream.wbufSize by omega)
    rcases hr : fflush env (w.setBuf (b ++ [uc])) with ⟨r, w'⟩
    rw [hr] at hflush
    rcases hflush with ⟨rfl, hbroken⟩ | ⟨rfl, hclean, -⟩
    · exact .inl ⟨by simp, hbroken⟩
    refine .inr ⟨by simp [eof], hclean.ready, ?_⟩
    obtain ⟨more, hlog, hfail, hall, hshort⟩ := hclean.log
    rw [hset] at hall hshort
    exact ⟨more, hlog, hfail, by simpa using hall, by simpa using hshort⟩
  rename_i hfull
  refine .inr ⟨rfl, ⟨h.write, h.isFile, ?_, fun e => absurd (hu.symm.trans e) Bool.false_ne_true⟩,
    [], by simp [World.setBuf], by simp, fun _ => hset, by simp⟩
  rintro b' ⟨⟩
  rw [length_append, length_singleton]
  exact Nat.lt_of_not_le fun hle => hfull (.inl hle)

theorem unbuf_clean (h : Ready w) (hu : w.stream.unbuf = true) (uc : UInt8) :
    (sysWrite env false [uc] w).1 ≠ some 1 ∧ Broken w (sysWrite env false [uc] w).2.setError ∨
      (sysWrite env false [uc] w).1 = some 1 ∧ Clean [uc] w (sysWrite env false [uc] w).2 := by
  have hpending := h.unbuf hu
  unfold sysWrite
  cases henv : env.write w.log.length with
  | none => exact .inl ⟨by simp, _, rfl, _, mem_singleton_self _, trivial⟩
  | some k =>
    cases k with
    | zero =>
      exact .inl ⟨by simp, _, rfl, _, mem_singleton_self _, rfl, Nat.one_pos⟩
    | succ k =>
      have hmin : min (k + 1) [uc].length = 1 := by
        rw [length_singleton]
        omega
      dsimp only
      rw [hmin]
      refine .inr ⟨rfl, ⟨h.write, h.isFile, h.room, h.unbuf⟩, _, rfl, ?_, ?_, ?_⟩
      · simp [Answer.Fails]
      · intro _
        unfold World.pending at hpending
        simp [World.sent, World.pending, hpending]
      · simp [Answer.Short]

theorem fputc_clean (h : Ready w) (c : Int) :
    (fputc env c w).1 = some eof ∧ Broken w (fputc env c w).2 ∨
      ∃ r, (fputc env c w).1 = some r ∧ 0 ≤ r ∧ Clean (charBytes [c]) w (fputc env c w).2 := by
  unfold fputc
  rw [if_neg (by simp [h.write])]
  dsimp only
  cases hu : w.stream.unbuf with
  | true =>
    have hwrite := unbuf_clean env h hu (UInt8.ofNat (c % 256).toNat)
    rcases hr : sysWrite env false [UInt8.ofNat (c % 256).toNat] w with ⟨r, w'⟩
    rw [hr] at hwrite
    rcases hwrite with ⟨hne, hbroken⟩ | ⟨rfl, hclean⟩
    · rw [if_neg hne]
      exact .inl ⟨rfl, hbroken⟩
    · rw [if_pos rfl]
      exact .inr ⟨_, rfl, Int.natCast_nonneg _, hclean⟩
  | false =>
    rw [if_neg Bool.false_ne_true]
    have hbuf := ensureBuf_clean env h
    rcases hr : ensureBuf env w with ⟨ok, w'⟩
    rw [hr] at hbuf
    rcases hbuf with ⟨rfl, hbroken⟩ | ⟨rfl, hclean, b, hb, hu'⟩
    · exact .inl ⟨rfl, hbroken⟩
    dsimp only
    have hfile : w'.stream.isMemstream = false := hclean.ready.isFile
    rw [if_neg (by simp [hfile])]
    rcases bufPutc_clean env hclean.ready (hu'.trans hu) hb c
      (UInt8.ofNat (c % 256).toNat) with ⟨heq, hbroken⟩ | ⟨heq, hput⟩
    · exact .inl ⟨heq, hclean.broken hbroken⟩
    · exact .inr ⟨_, heq, Int.natCast_nonneg _, hclean.trans hput⟩

/-- All characters are taken, or an error is reported at one of them. -/
theorem putAll_clean (h : Ready w) (cs : List Int) :
    (∃ n, n < cs.length ∧ (putAll env cs w).1 = some (n, false) ∧ Broken w (putAll env cs w).2) ∨
      (putAll env cs w).1 = some (cs.length, true) ∧ Clean (charBytes cs) w (putAll env cs w).2 := by
  induction cs generalizing w with
  | nil => exact .inr ⟨rfl, .refl h⟩
  | cons c cs ih =>
    unfold putAll
    have hput := fputc_clean env h c
    rcases hr : fputc env c w with ⟨r, w'⟩
    rw [hr] at hput
    rcases hput with ⟨rfl, hbroken⟩ | ⟨r, rfl, hpos, hclean⟩
    · exact .inl ⟨0, Nat.zero_lt_succ _, rfl, hbroken⟩
    dsimp only
    rw [if_neg (by unfold eof; omega)]
    have hrest := ih hclean.ready
    rcases hr' : putAll env cs w' with ⟨r', w''⟩
    rw [hr'] at hrest
    rcases hrest with ⟨n, hn, rfl, hbroken⟩ | ⟨rfl, hclean'⟩
    · exact .inl ⟨n + 1, Nat.succ_lt_succ hn, rfl, hclean.broken hbroken⟩
    · exact .inr ⟨rfl, hclean.trans hclean'⟩

/-- A call reports an error the answers had, or handles its text. -/
theorem OutCall.run_clean (h : Ready w) (call : OutCall) :
    ∃ r, (call.run env w).1 = some r ∧ (call.Reports r ∧ Broken w (call.run env w).2 ∨
      ¬ call.Reports r ∧ Clean (charBytes call.text) w (call.run env w).2) := by
  cases call with
  | fputc c =>
    rcases fputc_clean env h c with ⟨heq, hbroken⟩ | ⟨r, heq, hpos, hclean⟩
    · exact ⟨eof, heq, .inl ⟨rfl, hbroken⟩⟩
    · refine ⟨r, heq, .inr ⟨fun e => ?_, hclean⟩⟩
      have : r = -1 := e
      omega
  | fputs s =>
    show ∃ r, (Libc.fputs env s w).1 = some r ∧ (r = eof ∧ Broken w (Libc.fputs env s w).2 ∨
      ¬ r = eof ∧ Clean (charBytes (chars s)) w (Libc.fputs env s w).2)
    unfold Libc.fputs
    have hall := putAll_clean env h (chars s)
    rcases hr : putAll env (chars s) w with ⟨r, w'⟩
    rw [hr] at hall
    rcases hall with ⟨n, -, rfl, hbroken⟩ | ⟨rfl, hclean⟩
    · exact ⟨eof, rfl, .inl ⟨rfl, hbroken⟩⟩
    · exact ⟨0, rfl, .inr ⟨by simp [eof], hclean⟩⟩
  | fwrite p size count hp hlt =>
    show ∃ r, ((Libc.fwrite env p size count w).1.map Int.ofNat) = some r ∧
      ((size ≠ 0 ∧ r < count) ∧ Broken w (Libc.fwrite env p size count w).2 ∨
      ¬ (size ≠ 0 ∧ r < count) ∧ Clean (charBytes (chars p)) w (Libc.fwrite env p size count w).2)
    unfold Libc.fwrite
    by_cases h0 : size = 0 ∨ count = 0
    · rw [if_pos h0]
      have hnil : p = [] := by
        apply length_eq_zero_iff.1
        rw [hp]
        rcases h0 with rfl | rfl <;> simp
      refine ⟨0, rfl, .inr ⟨?_, by rw [hnil]; exact .refl h⟩⟩
      rintro ⟨hs, hc⟩
      rcases h0 with rfl | rfl
      · exact hs rfl
      · omega
    rw [if_neg h0, Nat.mod_eq_of_lt hlt, take_of_length_le hp.le]
    have hall := putAll_clean env h (chars p)
    rcases hr : putAll env (chars p) w with ⟨r, w'⟩
    rw [hr] at hall
    have hsize : 0 < size := by omega
    have hlen : (chars p).length = size * count := by rw [chars, length_map, hp]
    rw [hlen] at hall
    rcases hall with ⟨n, hn, rfl, hbroken⟩ | ⟨rfl, hclean⟩
    · have hlt' : n / size < count := Nat.div_lt_of_lt_mul hn
      exact ⟨_, rfl, .inl ⟨⟨by omega, Int.ofNat_lt.2 hlt'⟩, hbroken⟩⟩
    · refine ⟨_, rfl, .inr ⟨?_, hclean⟩⟩
      rw [Nat.mul_div_cancel_left count hsize]
      exact fun hcon => absurd hcon.2 (by simp)
  | fprintf fmt ap =>
    show ∃ r, (Libc.fprintf env fmt ap w).1 = some r ∧ (r < 0 ∧ Broken w (Libc.fprintf env fmt ap w).2 ∨
      ¬ r < 0 ∧ Clean (charBytes (vprintfText fmt ap)) w (Libc.fprintf env fmt ap w).2)
    unfold Libc.fprintf
    have hall := putAll_clean env h (vprintfText fmt ap)
    rcases hr : putAll env (vprintfText fmt ap) w with ⟨r, w'⟩
    rw [hr] at hall
    rcases hall with ⟨n, -, rfl, hbroken⟩ | ⟨rfl, hclean⟩
    · exact ⟨-1, rfl, .inl ⟨by omega, hbroken⟩⟩
    · exact ⟨_, rfl, .inr ⟨by simp, hclean⟩⟩
  | fflush =>
    show ∃ r, some (Libc.fflush env w).1 = some r ∧ (r = eof ∧ Broken w (Libc.fflush env w).2 ∨
      ¬ r = eof ∧ Clean [] w (Libc.fflush env w).2)
    rcases fflush_clean env h.write h.isFile h.unbuf
        (fun b hb => Nat.lt_of_le_of_lt (Nat.zero_le _) (h.room b hb)) with
      ⟨heq, hbroken⟩ | ⟨heq, hclean, -⟩
    · exact ⟨_, rfl, .inl ⟨heq, hbroken⟩⟩
    · exact ⟨_, rfl, .inr ⟨by rw [heq]; simp [eof], hclean⟩⟩

/-- The calls of a session: an error the answers had is reported by one of them, or their texts are
handled. -/
theorem runCalls_clean (h : Ready w) (calls : List OutCall) :
    (∃ p ∈ calls.zip (runCalls env calls w).1, p.1.Reports p.2) ∧
        Broken w (runCalls env calls w).2.2 ∨
      (∀ p ∈ calls.zip (runCalls env calls w).1, ¬ p.1.Reports p.2) ∧
        (runCalls env calls w).2.1 = true ∧
        Clean (charBytes (calls.flatMap OutCall.text)) w (runCalls env calls w).2.2 := by
  induction calls generalizing w with
  | nil => exact .inr ⟨fun p hp => absurd hp not_mem_nil, rfl, .refl h⟩
  | cons call calls ih =>
    unfold runCalls
    obtain ⟨r, heq, hcall⟩ := OutCall.run_clean env h call
    rcases hr : call.run env w with ⟨r', w'⟩
    rw [hr] at heq hcall
    subst heq
    rcases hcall with ⟨hrep, hbroken⟩ | ⟨hrep, hclean⟩
    · have hgrow := runCalls_grows env calls w'
      exact .inl ⟨⟨(call, r), mem_cons_self, hrep⟩, hbroken.grow hgrow⟩
    rcases ih hclean.ready with ⟨⟨p, hp, hrep'⟩, hbroken⟩ | ⟨hnone, hall, hrest⟩
    · exact .inl ⟨⟨p, mem_cons_of_mem _ hp, hrep'⟩, hclean.broken hbroken⟩
    refine .inr ⟨?_, hall, ?_⟩
    · rintro p (_ | ⟨_, hp⟩)
      · exact hrep
      · exact hnone p hp
    · rw [flatMap_cons, charBytes, map_append]
      exact hclean.trans hrest

/-- The last call reports an error of its answers, or leaves nothing in the buffer. -/
theorem finish_clean (h : Ready w) (closing : Bool) :
    (if closing then fclose env w else fflush env w).1 = eof ∧
        Broken w (if closing then fclose env w else fflush env w).2 ∨
      (if closing then fclose env w else fflush env w).1 = 0 ∧
        Clean [] w (if closing then fclose env w else fflush env w).2 ∧
        (if closing then fclose env w else fflush env w).2.pending = [] := by
  have hflush := fflush_clean env h.write h.isFile h.unbuf
    (fun b hb => Nat.lt_of_le_of_lt (Nat.zero_le _) (h.room b hb))
  cases closing with
  | false => exact hflush
  | true =>
    rw [if_pos rfl]
    unfold fclose
    rcases hr : fflush env w with ⟨r, w'⟩
    rw [hr] at hflush
    dsimp only at hflush ⊢
    split
    · cases hclose : env.close w'.log.length with
      | false =>
        refine .inl ⟨rfl, ?_⟩
        have hbroken : Broken w' { w' with log := w'.log ++ [.close false] } :=
          ⟨_, rfl, _, mem_singleton_self _, rfl⟩
        rcases hflush with ⟨-, h'⟩ | ⟨-, h', -⟩
        · exact h'.grow ⟨_, rfl⟩
        · exact h'.broken hbroken
      | true =>
        rcases hflush with ⟨rfl, h'⟩ | ⟨rfl, h', hpending⟩
        · exact .inl ⟨rfl, h'.grow ⟨_, rfl⟩⟩
        have hclean : Clean [] w' { w' with log := w'.log ++ [.close true] } := by
          refine ⟨⟨h'.ready.write, h'.ready.isFile, h'.ready.room, h'.ready.unbuf⟩, _, rfl, ?_, ?_, ?_⟩
          · simp [Answer.Fails]
          · simp [World.sent, World.pending]
          · simp [Answer.Short]
        exact .inr ⟨rfl, h'.trans hclean, hpending⟩
    · exact hflush

end

/-! ## Sessions -/

/-- A session delivers everything or reports an error if and only if an answer was an error, or no
`write` of the buffer took only a part of it. -/
theorem output_delivered {env : Env} {w : World} (h : Opened w) (calls : List OutCall)
    (closing : Bool) :
    Delivered calls (runSession env calls closing w) ↔
      (∃ a ∈ (runSession env calls closing w).world.log, a.Fails) ∨
        ∀ a ∈ (runSession env calls closing w).world.log, ¬ a.Short := by
  have hready : Ready w := by
    refine ⟨h.write, h.isFile, ?_, ?_⟩
    · intro b hb
      rcases h.buf with hnone | ⟨hsome, hsize⟩
      · rw [hnone] at hb
        cases hb
      · rw [hsome] at hb
        cases hb
        exact hsize
    intro _
    unfold World.pending
    rcases h.buf with hnone | ⟨hsome, -⟩
    · rw [hnone]
      rfl
    · rw [hsome]
      rfl
  have hsent : w.sent = [] := by
    have hpending : w.pending = [] := by
      unfold World.pending
      rcases h.buf with hnone | ⟨hsome, -⟩
      · rw [hnone]
        rfl
      · rw [hsome]
        rfl
    rw [World.sent, h.accepted, hpending]
    rfl
  have hfails : ∀ {w'}, Broken w w' → ∃ a ∈ w'.log, a.Fails := by
    rintro w' ⟨more, hlog, a, ha, hf⟩
    exact ⟨a, hlog ▸ mem_append_right _ ha, hf⟩
  unfold runSession
  rcases runCalls_clean env hready calls with ⟨hrep, hbroken⟩ | ⟨hnone, hall, hclean⟩
  · rcases hr : runCalls env calls w with ⟨results, all, w'⟩
    rw [hr] at hrep hbroken
    cases all with
    | false => exact ⟨fun _ => .inl (hfails hbroken), fun _ => .inl hrep⟩
    | true =>
      have hgrow : Grows w' (if closing then fclose env w' else fflush env w').2 :=
        finish_grows env closing w'
      exact ⟨fun _ => .inl (hfails (hbroken.grow hgrow)), fun _ => .inl hrep⟩
  rcases hr : runCalls env calls w with ⟨results, all, w'⟩
  rw [hr] at hnone hall hclean
  subst hall
  dsimp only
  rcases finish_clean env hclean.ready closing with ⟨heof, hbroken⟩ | ⟨hzero, hlast, hp⟩
  · exact ⟨fun _ => .inl (hfails (hclean.broken hbroken)), fun _ => .inr (.inl (by rw [heof]))⟩
  have htotal := hclean.trans hlast
  obtain ⟨more, hlog, hfail, hno, hshort⟩ := htotal.log
  rw [h.log, nil_append] at hlog
  rw [hsent] at hno hshort
  have haccepted : (if closing then fclose env w' else fflush env w').2.sent =
      (if closing then fclose env w' else fflush env w').2.accepted := by
    rw [World.sent, hp, append_nil]
  rw [haccepted] at hno hshort
  rw [hlog]
  constructor
  · rintro (⟨p, hp, hrep⟩ | heof | ⟨-, hacc⟩)
    · exact absurd hrep (hnone p hp)
    · rw [hzero] at heof
      cases heof
    refine .inr fun a ha hs => ?_
    have hlt := hshort ⟨a, ha, hs⟩
    rw [hacc] at hlt
    simp at hlt
  · rintro (⟨a, ha, hf⟩ | hall)
    · exact absurd hf (hfail a ha)
    · exact .inr (.inr ⟨rfl, by simpa using hno hall⟩)

/-- The environment of an example: every `write` takes at most `k` bytes. -/
def takes (k : Nat) : Env := ⟨fun _ => some k, fun _ => true, fun _ => true⟩

/-- A file opened for writing. -/
def opened : World := ⟨⟨3, true, false, false, some [], bufsiz, false, 0⟩, [], []⟩

/-- Three characters and a kernel that takes them. -/
theorem output_delivered_small :
    Delivered [.fputs [0x61, 0x62, 0x63]]
      (runSession (takes 8) [.fputs [0x61, 0x62, 0x63]] true opened) :=
  (output_delivered ⟨rfl, rfl, .inr ⟨rfl, by decide⟩, rfl, rfl⟩ _ _).2 (.inr (by
    have hlog : (runSession (takes 8) [.fputs [0x61, 0x62, 0x63]] true opened).world.log =
        [.write true 3 (some 3), .close true] := by decide
    rw [hlog]
    simp [Answer.Short]))

/-- The descriptor takes one of three bytes, and nothing tells of it. -/
theorem output_not_delivered : ¬ Delivered [.fputs [0x61, 0x62, 0x63]]
    (runSession (takes 1) [.fputs [0x61, 0x62, 0x63]] true opened) := by
  decide

end Slopix.Libc
