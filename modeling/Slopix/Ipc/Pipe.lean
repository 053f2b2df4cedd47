import Slopix.Lib.RingBuffer

/-!
# Pipes

The kernel's pipes (`kernel/pipe.c`): a ring of `PIPESIZE` bytes with free-running 32-bit counters,
shared by any number of readers and writers.

The kernel has one CPU and masks interrupts while it looks at a pipe, so a `piperead` or a
`pipewrite` runs without interruption between two points where it sleeps. The definitions below cut
the two functions there: `readLoop` and `writeLoop` are the loops up to the next sleep or return.
`readLoop_spec` and `writeLoop_spec` describe them on the queue of buffered bytes.
-/

namespace Slopix.Ipc

open Lib List

/-- `PIPESIZE`. -/
def pipeSize : Nat := 512

/-- The modulus of an `unsigned int`. -/
def uintMod : Nat := 4294967296

/-- `struct pipe`. -/
structure Pipe where
  data : Nat → UInt8
  nread : Nat
  nwrite : Nat
  readopen : Bool
  writeopen : Bool

namespace Pipe

/-- The byte ring inside the pipe. -/
def ring (pi : Pipe) : RingBuf UInt8 := ⟨pi.data, pi.nread, pi.nwrite⟩

/-- The buffered bytes, oldest first. -/
def contents (pi : Pipe) : List UInt8 := pi.ring.contents pipeSize uintMod

/-- Number of buffered bytes, `nwrite - nread` modulo `2^32`. -/
def buffered (pi : Pipe) : Nat := pi.ring.count uintMod

end Pipe

/-- The pipe as `pipealloc` sets it up in a fresh frame whose bytes are `data`. -/
def pipeInit (data : Nat → UInt8) : Pipe :=
  { data := data, nread := 0, nwrite := 0, readopen := true, writeopen := true }

/-- `pipeclose`, without the wake-ups and the release of the frame. -/
def pipeclose (pi : Pipe) (writable : Bool) : Pipe :=
  if writable then { pi with writeopen := false } else { pi with readopen := false }

/-- `pi->nread++`. -/
def Pipe.advance (pi : Pipe) : Pipe := { pi with nread := (pi.nread + 1) % uintMod }

/-- `pi->data[pi->nwrite % PIPESIZE] = c; pi->nwrite++`. -/
def Pipe.store (pi : Pipe) (c : UInt8) : Pipe :=
  { pi with
    data := Function.update pi.data (pi.nwrite % pipeSize) c
    nwrite := (pi.nwrite + 1) % uintMod }

/-- The copy loop of `piperead` with `n` iterations left. -/
def readLoop : Nat → Pipe → List UInt8 × Pipe
  | 0, pi => ([], pi)
  | n + 1, pi =>
    if pi.nread = pi.nwrite then ([], pi)
    else
      let r := readLoop n pi.advance
      (pi.data (pi.nread % pipeSize) :: r.1, r.2)

/-- How the loop of `pipewrite` stops: all bytes stored, ring full, or read end closed. -/
inductive WriteStop where
  | done
  | full
  | closed
deriving DecidableEq

/-- The loop of `pipewrite` on the bytes still to store, up to its next sleep or return, with the
number of bytes it stored. -/
def writeLoop : List UInt8 → Pipe → Nat × Pipe × WriteStop
  | [], pi => (0, pi, .done)
  | c :: cs, pi =>
    if pi.readopen = false then (0, pi, .closed)
    else if pi.nwrite = (pi.nread + pipeSize) % uintMod then (0, pi, .full)
    else
      let r := writeLoop cs (pi.store c)
      (r.1 + 1, r.2)

/-! ## The two loops on the byte queue -/

section

theorem pipeSize_lt : pipeSize < uintMod := by decide

theorem pipeSize_dvd : pipeSize ∣ uintMod := ⟨8388608, rfl⟩

theorem ring_advance (pi : Pipe) : pi.advance.ring = pi.ring.pop uintMod := rfl

theorem ring_store (pi : Pipe) (c : UInt8) : (pi.store c).ring = pi.ring.push pipeSize uintMod c :=
  rfl

/-- `readLoop` takes the oldest bytes, at most `n` of them, and stops early only on an empty ring. -/
theorem readLoop_spec (n : Nat) :
    ∀ pi : Pipe, pi.ring.WellFormed pipeSize uintMod →
      (readLoop n pi).2.ring.WellFormed pipeSize uintMod ∧
      pi.contents = (readLoop n pi).1 ++ (readLoop n pi).2.contents ∧
      (readLoop n pi).2.readopen = pi.readopen ∧ (readLoop n pi).2.writeopen = pi.writeopen ∧
      (0 < n → (readLoop n pi).1 = [] →
        (readLoop n pi).2.nread = (readLoop n pi).2.nwrite) := by
  induction n with
  | zero =>
    intro pi h
    simp only [readLoop]
    exact ⟨h, (nil_append _).symm, trivial, trivial, fun h0 => absurd h0 (lt_irrefl 0)⟩
  | succ n ih =>
    intro pi h
    by_cases he : pi.nread = pi.nwrite
    · simp only [readLoop, if_pos he]
      exact ⟨h, (nil_append _).symm, trivial, trivial, fun _ _ => he⟩
    have hc : 0 < pi.ring.count uintMod := by
      rcases Nat.eq_zero_or_pos (pi.ring.count uintMod) with h0 | h0
      · exact absurd ((RingBuf.count_eq_zero_iff h).1 h0) he
      · exact h0
    simp only [readLoop, if_neg he]
    obtain ⟨hw, hcont, hro, hwo, -⟩ :=
      ih pi.advance (by rw [ring_advance]; exact RingBuf.wellFormed_pop h hc)
    refine ⟨hw, ?_, hro, hwo, fun _ hnil => by simp at hnil⟩
    have hpop := RingBuf.contents_pop h pipeSize_dvd hc
    rw [← ring_advance] at hpop
    unfold Pipe.contents at hcont ⊢
    rw [hpop, hcont, cons_append]
    rfl

/-- `writeLoop` appends the bytes it stores; it stops early only on a full ring or a closed read
end. -/
theorem writeLoop_spec (cs : List UInt8) :
    ∀ pi : Pipe, pi.ring.WellFormed pipeSize uintMod →
      (writeLoop cs pi).2.1.ring.WellFormed pipeSize uintMod ∧
      (writeLoop cs pi).2.1.contents = pi.contents ++ cs.take (writeLoop cs pi).1 ∧
      (writeLoop cs pi).2.1.readopen = pi.readopen ∧
      (writeLoop cs pi).2.1.writeopen = pi.writeopen ∧
      (writeLoop cs pi).1 ≤ cs.length ∧
      ((writeLoop cs pi).2.2 = .done → (writeLoop cs pi).1 = cs.length) := by
  induction cs with
  | nil =>
    intro pi h
    simp only [writeLoop]
    exact ⟨h, by simp, trivial, trivial, le_refl 0, fun _ => rfl⟩
  | cons c cs ih =>
    intro pi h
    by_cases hclosed : pi.readopen = false
    · simp only [writeLoop, if_pos hclosed]
      exact ⟨h, by simp, trivial, trivial, Nat.zero_le _, fun hd => WriteStop.noConfusion hd⟩
    by_cases hfull : pi.nwrite = (pi.nread + pipeSize) % uintMod
    · simp only [writeLoop, if_neg hclosed, if_pos hfull]
      exact ⟨h, by simp, trivial, trivial, Nat.zero_le _, fun hd => WriteStop.noConfusion hd⟩
    have hc : pi.ring.count uintMod < pipeSize := by
      refine lt_of_le_of_ne h.count_le fun e => hfull ?_
      exact (RingBuf.count_eq_cap_iff h pipeSize_lt).1 e
    have hroom : pi.ring.count uintMod + 1 < uintMod := lt_of_le_of_lt hc (by decide)
    simp only [writeLoop, if_neg hclosed, if_neg hfull]
    obtain ⟨hw, hcont, hro, hwo, hle, hdone⟩ :=
      ih (pi.store c) (by rw [ring_store]; exact RingBuf.wellFormed_push h hroom hc c)
    refine ⟨hw, ?_, hro, hwo, Nat.succ_le_succ hle, fun hd => congrArg Nat.succ (hdone hd)⟩
    have hpush := RingBuf.contents_push h hroom pipeSize_dvd hc c
    rw [← ring_store] at hpush
    unfold Pipe.contents at hcont ⊢
    rw [hcont, hpush, take_succ_cons, append_assoc, singleton_append]

end

end Slopix.Ipc
