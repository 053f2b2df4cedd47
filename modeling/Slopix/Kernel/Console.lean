import Slopix.Kernel.Signals
import Slopix.Lib.RingBuffer

/-!
# Console input

The ring between `uart_irq_handler` and `uart_read` of `kernel/uart.c`, under `console_set_raw` and `console_read`. The kernel
masks interrupts, so a handler runs as a whole, and `uart_read` runs from one sleep to the next. What else the kernel does to
the process table is left open.

`console_input` compares a run with the account `Tally` of what arrived, was taken and was returned, and says that every look
of `uart_read` at the ring takes the bytes that wait there.
-/

namespace Slopix.Kernel.Console

open Lib Signals Function List

/-! ## The ring -/

/-- `UART_RX_BUF_SIZE`. -/
def uartRxBufSize : Nat := 64

/-- `uart_rx`. -/
structure UartRx where
  buf : Nat → UInt8
  head : Nat
  tail : Nat

namespace UartRx

/-- The ring as a buffer that is read at `tail`. -/
def ring (rx : UartRx) : RingBuf UInt8 := ⟨rx.buf, rx.tail, rx.head⟩

/-- The unread bytes, oldest first. -/
def unread (rx : UartRx) : List UInt8 := rx.ring.contents uartRxBufSize uartRxBufSize

/-- The two indices are inside the ring. -/
structure InBounds (rx : UartRx) : Prop where
  head_lt : rx.head < uartRxBufSize
  tail_lt : rx.tail < uartRxBufSize

end UartRx

/-- `uart_rx.tail = (uart_rx.tail + 1) % UART_RX_BUF_SIZE`. -/
def UartRx.advance (rx : UartRx) : UartRx := { rx with tail := (rx.tail + 1) % uartRxBufSize }

/-- The loop of `uart_read` with `n` bytes to go, up to the end or to an empty ring. -/
def readLoop : Nat → UartRx → List UInt8 × UartRx
  | 0, rx => ([], rx)
  | n + 1, rx =>
    if rx.head = rx.tail then ([], rx)
    else
      let r := readLoop n rx.advance
      (rx.buf rx.tail :: r.1, r.2)

/-! ## The system -/

/-- A `uart_read` that has not returned: `len`, and what it has put into `buf`. -/
structure Call where
  len : Nat
  buf : List UInt8

/-- The ring, the console's variables, the processes and their calls of `uart_read`. -/
structure Sys where
  rx : UartRx
  consoleRawMode : Bool
  fgPgid : Int
  tasks : Table
  calls : Nat → Option Call

/-- What is seen of a step: the mode set, a byte received, a call of `console_read`, a byte taken out of the ring, and what a
call returns, with the bytes in its buffer. -/
inductive Event where
  | mode (raw : Bool)
  | received (c : UInt8)
  | called (p : Nat)
  | taken (p : Nat) (c : UInt8)
  | returned (p : Nat) (r : Int) (buf : List UInt8)

/-- What happens. `other` is whatever else the kernel does to the process table. -/
inductive Act where
  | setRaw (raw : Int)
  | setFgPgid (pgid : Int)
  | irq (bytes : List UInt8)
  | read (p n : Nat)
  | resume (p : Nat)
  | other (tasks : Table)

/-- `&uart_rx`. -/
def uartChan : Chan := .other 0

/-- The signal for the foreground group. -/
def Sys.signalFg (s : Sys) (sig : Int) : Sys :=
  if 0 < s.fgPgid then { s with tasks := (procSignalPgrp s.tasks s.fgPgid sig).2 } else s

/-- One byte in `uart_irq_handler`, with `got_data`: `SIGINT`, `SIGTSTP`, or into the ring unless it is full. -/
def irqByte (r : Sys × Bool) (c : UInt8) : Sys × Bool :=
  if r.1.consoleRawMode = false ∧ c = 0x03 then (r.1.signalFg 2, r.2)
  else if r.1.consoleRawMode = false ∧ c = 0x1a then (r.1.signalFg 20, r.2)
  else
    let next := (r.1.rx.head + 1) % uartRxBufSize
    if next ≠ r.1.rx.tail then
      ({ r.1 with rx := { r.1.rx with buf := update r.1.rx.buf r.1.rx.head c, head := next } }, true)
    -- the ring is full, and the byte is lost
    else r

/-- `uart_irq_handler`, with the bytes that the device holds. -/
def uartIrqHandler (s : Sys) (bytes : List UInt8) : Sys :=
  let r := bytes.foldl irqByte (s, false)
  if r.2 then { r.1 with tasks := procWakeup r.1.tasks uartChan } else r.1

/-- The conversion to `int`. -/
def toInt (i : Nat) : Int := (BitVec.ofNat 32 i).toInt

/-- What `uart_read` returns after a signal. -/
def interrupted (buf : List UInt8) : Int := if 0 < buf.length then toInt buf.length else -4

/-- `uart_read` from the test of its outer loop up to the next sleep or the return. -/
def uartRead (s : Sys) (p : Nat) (call : Call) : Sys × List Event :=
  let r := readLoop (call.len - call.buf.length) s.rx
  let buf := call.buf ++ r.1
  let events := r.1.map (.taken p)
  if buf.length = call.len then
    ({ s with rx := r.2, calls := update s.calls p none }, events ++ [.returned p (toInt buf.length) buf])
  -- `proc_wait` does not sleep while a signal is pending
  else if (s.tasks p).pending ≠ 0 then
    ({ s with rx := r.2, calls := update s.calls p none }, events ++ [.returned p (interrupted buf) buf])
  else
    let x := { s.tasks p with chan := some uartChan, state := .sleeping }
    ({ s with rx := r.2, tasks := update s.tasks p x, calls := update s.calls p (some ⟨call.len, buf⟩) }, events)

/-- `console_read`: a process of the background group gets a signal instead. -/
def consoleRead (s : Sys) (p n : Nat) : Sys × List Event :=
  if 0 < s.fgPgid ∧ (s.tasks p).pgid ≠ s.fgPgid then
    ({ s with tasks := (procSignalPgrp s.tasks (s.tasks p).pgid 21).2 }, [.called p, .returned p (-1) []])
  else
    let r := uartRead s p ⟨n, []⟩
    (r.1, .called p :: r.2)

/-- `uart_read` behind the `proc_sched` of its `proc_wait`. -/
def uartWake (s : Sys) (p : Nat) (call : Call) : Sys × List Event :=
  let s := { s with tasks := update s.tasks p { s.tasks p with state := .running, chan := none } }
  if (s.tasks p).pending ≠ 0 then
    ({ s with calls := update s.calls p none }, [.returned p (interrupted call.buf) call.buf])
  else uartRead s p call

/-- One step; what cannot happen changes nothing. `sys_read` has found all `n` bytes mapped, so `n` is an `int` from 0 on. -/
def step (s : Sys) : Act → Sys × List Event
  | .setRaw raw => ({ s with consoleRawMode := raw != 0 }, [.mode (raw != 0)])
  | .setFgPgid pgid => (if 0 ≤ pgid then { s with fgPgid := pgid } else s, [])
  | .irq bytes => (uartIrqHandler s bytes, bytes.map .received)
  | .read p n =>
    if (s.tasks p).state = .running ∧ (s.calls p).isNone = true ∧ n < 2 ^ 31 then consoleRead s p n else (s, [])
  | .resume p =>
    match s.calls p with
    | some call => if (s.tasks p).state = .runnable then uartWake s p call else (s, [])
    | none => (s, [])
  | .other tasks => ({ s with tasks := tasks }, [])

/-- After `uart_init_irq`. -/
def start (buf : Nat → UInt8) (tasks : Table) : Sys := ⟨⟨buf, 0, 0⟩, false, 0, tasks, fun _ => none⟩

/-- The acts of a run in their order, with the events that they make. -/
def run (s : Sys) : List Act → Sys × List Event
  | [] => (s, [])
  | a :: as =>
    let r := run (step s a).1 as
    (r.1, (step s a).2 ++ r.2)

/-! ## The account -/

/-- The mode, the bytes that are to be delivered, those that are, the bytes that each process has taken since it called, and the
returns: the value, the buffer, and what was taken. -/
structure Tally where
  raw : Bool
  accepted : List UInt8
  delivered : List UInt8
  since : Nat → List UInt8
  returns : List (Int × List UInt8 × List UInt8)

/-- The byte is taken as a signal. -/
def isSignal (raw : Bool) (c : UInt8) : Bool := !raw && (c == 0x03 || c == 0x1a)

/-- One event in the account. A byte counts unless it is a signal or 63 bytes are unread. -/
def Tally.count (t : Tally) : Event → Tally
  | .mode raw => { t with raw := raw }
  | .received c =>
    if isSignal t.raw c = true ∨ t.accepted.length = t.delivered.length + 63 then t
    else { t with accepted := t.accepted ++ [c] }
  | .called p => { t with since := update t.since p [] }
  | .taken p c => { t with delivered := t.delivered ++ [c], since := update t.since p (t.since p ++ [c]) }
  | .returned p r buf => { t with returns := t.returns ++ [(r, buf, t.since p)] }

/-- The account of what was seen. -/
def tally (events : List Event) : Tally := events.foldl Tally.count ⟨false, [], [], fun _ => [], []⟩

/-- A call returns all that it has taken, or nothing where there is nothing. -/
def Whole (x : Int × List UInt8 × List UInt8) : Prop := x.2.1 = x.2.2 ∧ (x.1 = x.2.2.length ∨ x.1 < 0 ∧ x.2.2 = [])

/-- `uart_read` looks at the ring in this step: a call that is not from the background, or one that wakes with no signal pending. -/
def Looks (s : Sys) (p : Nat) (call : Call) : Act → Prop
  | .read q n => q = p ∧ call = ⟨n, []⟩ ∧ (s.tasks p).state = .running ∧ s.calls p = none ∧ n < 2 ^ 31 ∧
      ¬ (0 < s.fgPgid ∧ (s.tasks p).pgid ≠ s.fgPgid)
  | .resume q => q = p ∧ s.calls p = some call ∧ (s.tasks p).state = .runnable ∧ (s.tasks p).pending = 0
  | _ => False

/-- It takes the oldest bytes, as many as the call still wants and the ring holds, and returns once the call has all of them. -/
def Serves (s : Sys) (p : Nat) (call : Call) (r : Sys × List Event) : Prop :=
  let want := call.len - call.buf.length
  r.1.rx.unread = s.rx.unread.drop want ∧
    (want ≤ s.rx.unread.length → .returned p call.len (call.buf ++ s.rx.unread.take want) ∈ r.2)

/-! ## The ring as a queue -/

section

variable {rx : UartRx}

theorem UartRx.InBounds.wellFormed (h : rx.InBounds) : rx.ring.WellFormed uartRxBufSize uartRxBufSize where
  rd_lt := h.tail_lt
  wr_lt := h.head_lt
  count_le := (Nat.mod_lt _ (by decide)).le

theorem length_unread (rx : UartRx) : rx.unread.length = rx.ring.count uartRxBufSize := by
  rw [UartRx.unread, RingBuf.contents, length_map, length_range]

theorem full_iff (h : rx.InBounds) : (rx.head + 1) % uartRxBufSize = rx.tail ↔ rx.unread.length = 63 := by
  obtain ⟨hhead, htail⟩ := h
  rw [length_unread, RingBuf.count]
  unfold uartRxBufSize UartRx.ring at *
  dsimp only
  omega

theorem unread_store (h : rx.InBounds) (hroom : (rx.head + 1) % uartRxBufSize ≠ rx.tail) (c : UInt8) :
    UartRx.unread ⟨update rx.buf rx.head c, (rx.head + 1) % uartRxBufSize, rx.tail⟩ = rx.unread ++ [c] := by
  have hcount : rx.ring.count uartRxBufSize < 63 := by
    have hlt : rx.ring.count uartRxBufSize < 64 := Nat.mod_lt _ (by decide)
    have hne : rx.ring.count uartRxBufSize ≠ 63 := fun e => hroom ((full_iff h).2 ((length_unread rx).trans e))
    omega
  have hpush := RingBuf.contents_push h.wellFormed (Nat.add_lt_add_right hcount 1) (Nat.dvd_refl _) (hcount.trans (by decide)) c
  unfold RingBuf.push at hpush
  rwa [show rx.ring.wr % uartRxBufSize = rx.head from Nat.mod_eq_of_lt h.head_lt] at hpush

theorem unread_advance (h : rx.InBounds) (hne : rx.head ≠ rx.tail) : rx.unread = rx.buf rx.tail :: rx.advance.unread := by
  have hcount : 0 < rx.ring.count uartRxBufSize :=
    Nat.pos_of_ne_zero fun e => hne ((RingBuf.count_eq_zero_iff h.wellFormed).1 e).symm
  have hpop := RingBuf.contents_pop h.wellFormed (Nat.dvd_refl _) hcount
  unfold RingBuf.front at hpop
  rwa [show rx.ring.rd % uartRxBufSize = rx.tail from Nat.mod_eq_of_lt h.tail_lt] at hpop

/-- The loop takes the first `n` bytes that wait, or all of them. -/
theorem readLoop_spec (n : Nat) : ∀ rx : UartRx, rx.InBounds → (readLoop n rx).2.InBounds ∧
    (readLoop n rx).1 = rx.unread.take n ∧ (readLoop n rx).2.unread = rx.unread.drop n := by
  induction n with
  | zero => exact fun rx h => ⟨h, rfl, rfl⟩
  | succ n ih =>
    intro rx h
    rw [readLoop]
    split
    · rename_i hnone
      have hempty : rx.unread = [] := by
        rw [← length_eq_zero_iff, length_unread, RingBuf.count_eq_zero_iff h.wellFormed]
        exact hnone.symm
      rw [hempty, drop_nil]
      exact ⟨h, rfl, rfl⟩
    rename_i hne
    obtain ⟨hin, htake, hdrop⟩ := ih rx.advance ⟨h.head_lt, Nat.mod_lt _ (by decide)⟩
    rw [unread_advance h hne, take_succ_cons, drop_succ_cons, ← htake]
    exact ⟨hin, rfl, hdrop⟩

end

/-! ## Steps -/

/-- What holds between the steps. -/
structure Inv (s : Sys) (t : Tally) : Prop where
  bounds : s.rx.InBounds
  mode : t.raw = s.consoleRawMode
  queue : t.accepted = t.delivered ++ s.rx.unread
  calls : ∀ p call, s.calls p = some call → t.since p = call.buf ∧ call.buf.length ≤ call.len ∧ call.len < 2 ^ 31
  returns : ∀ x ∈ t.returns, Whole x

section

variable {s : Sys} {t : Tally} {p : Nat} {call : Call}

theorem Inv.tasks (h : Inv s t) (tasks : Table) : Inv { s with tasks := tasks } t :=
  ⟨h.bounds, h.mode, h.queue, h.calls, h.returns⟩

theorem Inv.signalFg (h : Inv s t) (sig : Int) : Inv (s.signalFg sig) t := by
  unfold Sys.signalFg
  split
  · exact h.tasks _
  · exact h

theorem Inv.irqByte {r : Sys × Bool} (h : Inv r.1 t) (c : UInt8) : Inv (irqByte r c).1 (t.count (.received c)) := by
  have hsignal : isSignal t.raw c = true ↔ r.1.consoleRawMode = false ∧ (c = 0x03 ∨ c = 0x1a) := by
    rw [h.mode, isSignal]
    simp
  unfold Console.irqByte
  dsimp only [Tally.count]
  by_cases hint : r.1.consoleRawMode = false ∧ c = 0x03
  · rw [if_pos hint, if_pos (Or.inl (hsignal.2 ⟨hint.1, Or.inl hint.2⟩))]
    exact h.signalFg _
  rw [if_neg hint]
  by_cases hstp : r.1.consoleRawMode = false ∧ c = 0x1a
  · rw [if_pos hstp, if_pos (Or.inl (hsignal.2 ⟨hstp.1, Or.inr hstp.2⟩))]
    exact h.signalFg _
  rw [if_neg hstp]
  have hdata : ¬ isSignal t.raw c = true := fun e => by
    obtain ⟨hraw, hc | hc⟩ := hsignal.1 e
    · exact hint ⟨hraw, hc⟩
    · exact hstp ⟨hraw, hc⟩
  -- the account stops at 63 unread bytes, the ring where its head is right behind its tail
  have hunread : t.accepted.length = t.delivered.length + 63 ↔ r.1.rx.unread.length = 63 := by
    rw [h.queue, length_append]
    omega
  by_cases hfull : (r.1.rx.head + 1) % uartRxBufSize = r.1.rx.tail
  · rw [if_neg (not_not.2 hfull), if_pos (Or.inr (hunread.2 ((full_iff h.bounds).1 hfull)))]
    exact h
  rw [if_pos hfull, if_neg (not_or.2 ⟨hdata, fun e => hfull ((full_iff h.bounds).2 (hunread.1 e))⟩)]
  refine ⟨⟨Nat.mod_lt _ (by decide), h.bounds.tail_lt⟩, h.mode, ?_, h.calls, h.returns⟩
  rw [unread_store h.bounds hfull, ← append_assoc, h.queue]

theorem Inv.uartIrqHandler (h : Inv s t) (bytes : List UInt8) :
    Inv (uartIrqHandler s bytes) ((bytes.map Event.received).foldl Tally.count t) := by
  have hloop : ∀ (bytes : List UInt8) (r : Sys × Bool) (t : Tally), Inv r.1 t →
      Inv (bytes.foldl Console.irqByte r).1 ((bytes.map Event.received).foldl Tally.count t) := by
    intro bytes
    induction bytes with
    | nil => exact fun r t h => h
    | cons c bytes ih => exact fun r t h => ih _ _ (h.irqByte c)
  unfold Console.uartIrqHandler
  dsimp only
  split
  · exact (hloop bytes (s, false) t h).tasks _
  · exact hloop bytes (s, false) t h

theorem count_taken (bytes : List UInt8) (t : Tally) (p : Nat) : (bytes.map (Event.taken p)).foldl Tally.count t =
    { t with delivered := t.delivered ++ bytes, since := update t.since p (t.since p ++ bytes) } := by
  induction bytes generalizing t with
  | nil => simp
  | cons c bytes ih =>
    rw [map_cons, foldl_cons, ih]
    simp [Tally.count]

theorem of_update_none {f : Nat → Option Call} {q : Nat} (h : update f p none q = some call) : q ≠ p ∧ f q = some call := by
  by_cases hq : q = p
  · rw [hq, update_self] at h
    cases h
  · rw [update_of_ne hq] at h
    exact ⟨hq, h⟩

theorem Inv.called (h : Inv s t) (hnone : s.calls p = none) : Inv s (t.count (.called p)) := by
  refine ⟨h.bounds, h.mode, h.queue, fun q call hq => ?_, h.returns⟩
  have hpq : q ≠ p := fun e => by
    rw [e, hnone] at hq
    cases hq
  dsimp only [Tally.count]
  rw [update_of_ne hpq]
  exact h.calls q call hq

/-- A call returns what it has taken. -/
theorem Inv.ret (h : Inv s t) {r : Int} {buf : List UInt8} (hwhole : Whole (r, buf, t.since p)) :
    Inv { s with calls := update s.calls p none } (t.count (.returned p r buf)) := by
  refine ⟨h.bounds, h.mode, h.queue, fun q call hq => h.calls q call (of_update_none hq).2, fun x hx => ?_⟩
  rcases mem_append.1 hx with hx | hx
  · exact h.returns x hx
  · exact mem_singleton.1 hx ▸ hwhole

/-- A call sleeps with what it has taken so far. -/
theorem Inv.sleep (h : Inv s t) (call : Call) (hsince : t.since p = call.buf) (hlen : call.buf.length ≤ call.len) (hint : call.len < 2 ^ 31) :
    Inv { s with calls := update s.calls p (some call) } t := by
  refine ⟨h.bounds, h.mode, h.queue, fun q c hq => ?_, h.returns⟩
  change update s.calls p (some call) q = some c at hq
  by_cases hpq : q = p
  · subst hpq
    rw [update_self] at hq
    cases hq
    exact ⟨hsince, hlen, hint⟩
  · rw [update_of_ne hpq] at hq
    exact h.calls q c hq

theorem toInt_eq {i : Nat} (h : i < 2 ^ 31) : toInt i = i := by
  unfold toInt
  rw [BitVec.toInt_eq_toNat_bmod, BitVec.toNat_ofNat, Nat.mod_eq_of_lt (by omega)]
  exact Int.bmod_eq_of_le (by omega) (by omega)

theorem whole_interrupted {buf taken : List UInt8} (h : taken = buf) (hlen : buf.length < 2 ^ 31) :
    Whole (interrupted buf, buf, taken) := by
  subst h
  unfold interrupted
  split
  · exact ⟨rfl, Or.inl (toInt_eq hlen)⟩
  · rename_i hempty
    exact ⟨rfl, Or.inr ⟨Int.negSucc_lt_zero 3, eq_nil_of_length_eq_zero (Nat.eq_zero_of_not_pos hempty)⟩⟩

/-- `uart_read` from where it is, to its return or its next sleep. -/
theorem Inv.uartRead (h : Inv s t) (hsince : t.since p = call.buf) (hlen : call.buf.length ≤ call.len)
    (hint : call.len < 2 ^ 31) : Inv (uartRead s p call).1 ((uartRead s p call).2.foldl Tally.count t) := by
  obtain ⟨hin, htake, hdrop⟩ := readLoop_spec (call.len - call.buf.length) s.rx h.bounds
  generalize hr : readLoop (call.len - call.buf.length) s.rx = r at hin htake hdrop
  have hunread : s.rx.unread = r.1 ++ r.2.unread := by rw [htake, hdrop, take_append_drop]
  have hread : r.1.length ≤ call.len - call.buf.length := htake ▸ length_take_le ..
  have hbuf : (call.buf ++ r.1).length ≤ call.len := by
    rw [length_append]
    omega
  have htaken : Inv { s with rx := r.2, calls := update s.calls p none } ((r.1.map (Event.taken p)).foldl Tally.count t) := by
    rw [count_taken]
    refine ⟨hin, h.mode, ?_, fun q c hq => ?_, h.returns⟩
    · exact h.queue.trans (by rw [hunread, append_assoc])
    obtain ⟨hpq, hq⟩ := of_update_none hq
    dsimp only
    rw [update_of_ne hpq]
    exact h.calls q c hq
  have hnow : ((r.1.map (Event.taken p)).foldl Tally.count t).since p = call.buf ++ r.1 := by
    rw [count_taken, ← hsince]
    exact update_self ..
  unfold Console.uartRead
  rw [hr]
  dsimp only
  -- the call has all its bytes, or a signal ends it, or it sleeps with what it has
  split
  · rename_i hdone
    rw [foldl_append]
    have hret := htaken.ret (p := p) (r := toInt (call.buf ++ r.1).length)
      ⟨hnow.symm, Or.inl (by rw [hnow, toInt_eq (by omega)])⟩
    rwa [update_idem] at hret
  split
  · rw [foldl_append]
    have hret := htaken.ret (p := p) (whole_interrupted hnow (by omega))
    rwa [update_idem] at hret
  · have hsleep := htaken.sleep ⟨call.len, call.buf ++ r.1⟩ hnow hbuf hint
    rw [update_idem] at hsleep
    exact hsleep.tasks _

/-- Every act keeps the invariant. -/
theorem Inv.step (h : Inv s t) (a : Act) : Inv (step s a).1 ((step s a).2.foldl Tally.count t) := by
  cases a with
  | setRaw raw => exact ⟨h.bounds, rfl, h.queue, h.calls, h.returns⟩
  | setFgPgid pgid =>
    unfold Console.step
    dsimp only
    split
    · exact ⟨h.bounds, h.mode, h.queue, h.calls, h.returns⟩
    · exact h
  | irq bytes => exact h.uartIrqHandler bytes
  | read p n =>
    unfold Console.step
    dsimp only
    split
    · rename_i hidle
      have hnone : s.calls p = none := Option.isNone_iff_eq_none.1 hidle.2.1
      have hcalled := h.called hnone
      have hempty : (t.count (.called p)).since p = [] := update_self ..
      unfold consoleRead
      -- a call from the background takes nothing
      split
      · have hret := hcalled.ret (p := p) (r := -1) ⟨hempty.symm, Or.inr ⟨(by decide : (-1 : Int) < 0), hempty⟩⟩
        rw [update_eq_self_iff.2 hnone.symm] at hret
        exact hret.tasks _
      · exact hcalled.uartRead hempty (Nat.zero_le n) hidle.2.2
    · exact h
  | resume p =>
    unfold Console.step
    dsimp only
    split
    · rename_i call hcall
      obtain ⟨hsince, hlen, hint⟩ := h.calls p call hcall
      split
      · unfold uartWake
        dsimp only
        split
        · exact (h.ret (whole_interrupted hsince (by omega))).tasks _
        · exact (h.tasks _).uartRead hsince hlen hint
      · exact h
    · exact h
  | other tasks => exact h.tasks tasks

theorem Inv.run (h : Inv s t) (as : List Act) : Inv (run s as).1 ((run s as).2.foldl Tally.count t) := by
  induction as generalizing s t with
  | nil => exact h
  | cons a as ih =>
    unfold Console.run
    rw [foldl_append]
    exact ih (h.step a)

/-- A look at the ring serves the call. -/
theorem uartRead_serves (hin : s.rx.InBounds) (hlen : call.buf.length ≤ call.len) (hint : call.len < 2 ^ 31) :
    Serves s p call (uartRead s p call) := by
  obtain ⟨-, htake, hdrop⟩ := readLoop_spec (call.len - call.buf.length) s.rx hin
  unfold uartRead
  dsimp only
  rw [htake]
  split
  · rename_i hall
    rw [hall, toInt_eq hint]
    exact ⟨hdrop, fun _ => mem_append_right _ (mem_singleton_self _)⟩
  rename_i hshort
  have hfew : ¬ call.len - call.buf.length ≤ s.rx.unread.length := fun hwait => hshort (by
    rw [length_append, length_take]
    omega)
  split
  · exact ⟨hdrop, fun h => absurd h hfew⟩
  · exact ⟨hdrop, fun h => absurd h hfew⟩

theorem Inv.serves (h : Inv s t) {a : Act} (hlooks : Looks s p call a) : Serves s p call (Console.step s a) := by
  cases a with
  | read q n =>
    obtain ⟨rfl, rfl, hrun, hnone, hint, hfront⟩ := hlooks
    unfold Console.step consoleRead
    dsimp only
    rw [if_pos ⟨hrun, Option.isNone_iff_eq_none.2 hnone, hint⟩, if_neg hfront]
    obtain ⟨hdrop, hall⟩ := @uartRead_serves s q ⟨n, []⟩ h.bounds (Nat.zero_le n) hint
    exact ⟨hdrop, fun hwait => mem_cons_of_mem _ (hall hwait)⟩
  | resume q =>
    obtain ⟨rfl, hcall, hready, hquiet⟩ := hlooks
    obtain ⟨-, hlen, hint⟩ := h.calls q call hcall
    unfold Console.step uartWake
    dsimp only
    rw [hcall]
    dsimp only
    rw [if_pos hready]
    split
    · rename_i hpending
      rw [update_self] at hpending
      exact absurd hquiet hpending
    · exact uartRead_serves (h.tasks _).bounds hlen hint
  | _ => exact hlooks.elim

end

/-- **Console input.** After every run the indices are in the ring, the bytes that are to be delivered are those that the
processes have taken followed by those in the ring, each call has returned all that it has taken, and the next look of a call
at the ring takes what it wants and finds. -/
theorem console_input (buf : Nat → UInt8) (tasks : Table) (as : List Act) :
    let r := run (start buf tasks) as
    let t := tally r.2
    (r.1.rx.head < uartRxBufSize ∧ r.1.rx.tail < uartRxBufSize) ∧ t.accepted = t.delivered ++ r.1.rx.unread ∧
      (∀ x ∈ t.returns, Whole x) ∧ (∀ p call, r.1.calls p = some call → call.buf = t.since p) ∧
      ∀ p call a, Looks r.1 p call a → Serves r.1 p call (step r.1 a) := by
  have hin : (start buf tasks).rx.InBounds := ⟨Nat.zero_lt_succ 63, Nat.zero_lt_succ 63⟩
  have hempty : (start buf tasks).rx.unread = [] :=
    eq_nil_of_length_eq_zero ((length_unread _).trans ((RingBuf.count_eq_zero_iff hin.wellFormed).2 rfl))
  have hstart : Inv (start buf tasks) ⟨false, [], [], fun _ => [], []⟩ :=
    ⟨hin, rfl, hempty.symm, fun p call hcall => (Option.some_ne_none call hcall.symm).elim, fun x hx => absurd hx not_mem_nil⟩
  have h := hstart.run as
  exact ⟨⟨h.bounds.head_lt, h.bounds.tail_lt⟩, h.queue, h.returns, fun p call hcall => (h.calls p call hcall).1.symm,
    fun _ _ _ => h.serves⟩

end Slopix.Kernel.Console
