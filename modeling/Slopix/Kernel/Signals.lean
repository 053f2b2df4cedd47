import Slopix.Kernel.State

/-!
# Signals

`proc_signal`, `proc_signal_pgrp`, `proc_check_signals`, `proc_wait` and `proc_wakeup` of
`kernel/proc.c` over the process table. A call runs up to its next `proc_sched`; what stands behind
it runs when the scheduler picks the process again, so `Point` says in which `proc_sched` a process
is. The sending of signals, the blocking of system calls and the checks happen in any order.

Beside the table a run records for each process the last stop or continue signal that was sent to it
and the signals that were sent since its last `proc_check_signals` began.
-/

namespace Slopix.Kernel.Signals

open Kernel Function Option BitVec

/-! ## Signal numbers -/

/-- `NSIG`. -/
def nsig : Nat := 32

/-- `SIGKILL`. -/
def sigkill : Nat := 9

/-- `SIGCONT`. -/
def sigcont : Nat := 18

/-- `stop_sigs` of `proc_check_signals`: `SIGSTOP`, `SIGTSTP`, `SIGTTIN`, `SIGTTOU`. -/
def stopSigs : List Nat := [19, 20, 21, 22]

/-- `term_sigs` of `proc_check_signals`: `SIGTERM`, `SIGINT`, `SIGHUP`, `SIGQUIT`, `SIGPIPE`,
`SIGALRM`, `SIGUSR1`, `SIGUSR2`. -/
def termSigs : List Nat := [15, 2, 1, 3, 13, 14, 10, 12]

/-- The signals that `proc_check_signals` knows. -/
def Handled (sig : Nat) : Prop := sig = sigkill ∨ sig = sigcont ∨ sig ∈ stopSigs ∨ sig ∈ termSigs

instance (sig : Nat) : Decidable (Handled sig) :=
  inferInstanceAs (Decidable (sig = sigkill ∨ sig = sigcont ∨ sig ∈ stopSigs ∨ sig ∈ termSigs))

/-! ## The process table -/

/-- What a process sleeps on: a process, or something else. -/
inductive Chan where
  | proc (p : Nat)
  | other (addr : Nat)
deriving DecidableEq, Repr

/-- The fields of `struct proc` that signals and sleeping use. -/
structure Task where
  state : ProcState
  pid : Int
  pgid : Int
  parent : Option Nat
  chan : Option Chan
  exitStatus : Int
  stopSignal : Nat
  pending : BitVec 32

/-- `1 << sig`. -/
def bit (sig : Nat) : BitVec 32 := BitVec.twoPow 32 sig

/-- `pending & (1 << sig)`. -/
def Task.has (x : Task) (sig : Nat) : Bool := x.pending.getLsbD sig

/-- `pending &= ~(1 << sig)`. -/
def Task.clear (x : Task) (sig : Nat) : Task := { x with pending := x.pending &&& ~~~ bit sig }

/-- What a signal does to its target in `proc_signal` and `proc_signal_pgrp`. -/
def Task.hit (x : Task) (sig : Nat) : Task :=
  { x with
    pending := x.pending ||| bit sig
    state :=
      if (sig = sigcont ∨ sig = sigkill) ∧ x.state = .stopped then .runnable
      else if x.state = .sleeping then .runnable
      else x.state }

/-- The process table. -/
abbrev Table := Nat → Task

/-- `proc_signal`: the target, when the signal is sent. -/
def target (t : Table) (pid : Int) : Option Nat :=
  (List.range nproc).find? fun i => (t i).state != .unused && (t i).pid == pid

/-- `proc_signal`; signal 0 only asks whether the process is there. -/
def procSignal (t : Table) (pid sig : Int) : Int × Table :=
  if sig = 0 then (if (target t pid).isSome then 0 else -Errno.esrch.val, t)
  else if sig < 1 ∨ nsig ≤ sig then (-Errno.einval.val, t)
  else
    match target t pid with
    | none => (-Errno.esrch.val, t)
    | some i => (0, Function.update t i ((t i).hit sig.toNat))

/-- `proc_signal_pgrp`: the signal goes to every member of the group. -/
def procSignalPgrp (t : Table) (pgid sig : Int) : Int × Table :=
  if pgid ≤ 0 then (-Errno.einval.val, t)
  else if sig < 1 ∨ nsig ≤ sig then (-Errno.einval.val, t)
  else
    let member := fun i => i < nproc && (t i).state != .unused && (t i).pgid == pgid
    (if (List.range nproc).any member then 0 else -Errno.esrch.val,
      fun i => if member i then (t i).hit sig.toNat else t i)

/-- `proc_wakeup`. -/
def procWakeup (t : Table) (chan : Chan) : Table := fun i =>
  if (t i).state = .sleeping ∧ (t i).chan = some chan then { t i with state := .runnable } else t i

/-- `proc_wakeup(current->parent)`, when there is a parent. -/
def wakeParent (t : Table) (p : Nat) : Table :=
  match (t p).parent with
  | none => t
  | some q => procWakeup t (.proc q)

/-- What `proc_cleanup` does to the table. -/
def procCleanup (t : Table) (p : Nat) (status : Int) : Table :=
  let x := { t p with exitStatus := status }
  match x.parent with
  | none => Function.update t p { x with state := .unused }
  | some q => procWakeup (Function.update t p { x with state := .zombie }) (.proc q)

/-- How `proc_check_signals` goes on: it returns, the process has ended, or it is stopped in
`proc_sched`. -/
inductive Outcome where
  | returned
  | ended
  | stopped
deriving DecidableEq, Repr

/-- `proc_check_signals`, up to the `proc_sched` of a stop. -/
def procCheckSignals (t : Table) (p : Nat) : Outcome × Table :=
  if (t p).pending = 0 then (.returned, t)
  else if (t p).has sigkill then
    (.ended, procCleanup (Function.update t p ((t p).clear sigkill)) p (-sigkill))
  else
    match stopSigs.find? (t p).has with
    | some sig =>
      let x := { (t p).clear sig with state := .stopped, stopSignal := sig }
      (.stopped, wakeParent (Function.update t p x) p)
    | none =>
      let x := if (t p).has sigcont then (t p).clear sigcont else t p
      match termSigs.find? x.has with
      | some sig => (.ended, procCleanup (Function.update t p (x.clear sig)) p (-sig))
      | none => (.returned, Function.update t p x)

/-! ## Runs -/

/-- The `proc_sched` a process is in, or else was in last; `leaving` is the end of
`sync_exception_handler_user`, behind `proc_check_signals` or a fault. -/
inductive Point where
  | elsewhere
  | waiting
  | stopping
  | leaving
deriving DecidableEq, Repr

/-- The table, where each process is, and what was sent to it: the last stop or continue signal, and
the signals since its last check began. -/
structure Sys where
  tasks : Table
  point : Nat → Point
  nextpid : Int
  last : Nat → Option Nat
  since : Nat → BitVec 32

/-- What happens: a signal to a process or a group, a call that blocks in `proc_wait` or in
`proc_wait_nointr`, a wakeup by channel or by the timer, the scheduler picking a process, a yield, the
check of signals at the end of a system call, a fault, the return to user mode behind either, `fork`,
`exit`, a parent that reaps, and `setpgid`. -/
inductive Event where
  | signal (pid sig : Int)
  | pgrp (pgid sig : Int)
  | wait (p : Nat) (chan : Chan)
  | waitNointr (p : Nat) (chan : Chan)
  | wakeup (chan : Chan)
  | timer (p : Nat)
  | schedule (p : Nat)
  | yield (p : Nat)
  | check (p : Nat)
  | fault (p : Nat)
  | leave (p : Nat)
  | fork (p : Nat)
  | exit (p : Nat) (status : Int)
  | reap (p c : Nat)
  | setpgid (p : Nat) (pgid : Int)

/-- The processes a signal is sent to. -/
def Sys.targets (s : Sys) : Event → Nat → Bool
  | .signal pid sig, i => 1 ≤ sig && sig < nsig && target s.tasks pid == some i
  | .pgrp pgid sig, i => 0 < pgid && 1 ≤ sig && sig < nsig && i < nproc &&
      (s.tasks i).state != .unused && (s.tasks i).pgid == pgid
  | _, _ => false

/-- The table after a signal, with the last stop or continuation and the signals sent so far. -/
def Sys.record (s : Sys) (e : Event) (sig : Nat) (t : Table) : Sys :=
  { s with
    tasks := t
    last := fun i => if s.targets e i ∧ (sig = sigcont ∨ sig ∈ stopSigs) then some sig else s.last i
    since := fun i => if s.targets e i then s.since i ||| bit sig else s.since i }

/-- The slot of a new process. -/
def Task.born (pid pgid : Int) (parent : Nat) (exitStatus : Int) (stopSignal : Nat) : Task :=
  ⟨.runnable, pid, pgid, some parent, none, exitStatus, stopSignal, 0⟩

/-- A process that runs, and not in the kernel behind one of the `proc_sched`s above. -/
def Sys.runs (s : Sys) (p : Nat) : Bool :=
  (s.tasks p).state == .running && s.point p == .elsewhere

/-- One event; `none` when it cannot happen. -/
def step (s : Sys) : Event → Option Sys
  | .signal pid sig => some (s.record (.signal pid sig) sig.toNat (procSignal s.tasks pid sig).2)
  | .pgrp pgid sig => some (s.record (.pgrp pgid sig) sig.toNat (procSignalPgrp s.tasks pgid sig).2)
  | .wait p chan =>
    if s.runs p then
      -- with a signal pending `proc_wait` returns `-EINTR` at once
      if (s.tasks p).pending ≠ 0 then some s
      else some { s with
        tasks := Function.update s.tasks p { s.tasks p with chan := some chan, state := .sleeping }
        point := Function.update s.point p .waiting }
    else none
  | .waitNointr p chan =>
    if s.runs p then some { s with
      tasks := Function.update s.tasks p { s.tasks p with chan := some chan, state := .sleeping } }
    else none
  | .wakeup chan => some { s with tasks := procWakeup s.tasks chan }
  | .timer p =>
    if (s.tasks p).state = .sleeping then
      some { s with tasks := Function.update s.tasks p { s.tasks p with state := .runnable } }
    else none
  | .schedule p =>
    if (s.tasks p).state = .runnable then
      let x := { s.tasks p with state := .running, chan := none }
      match s.point p with
      | .stopping => some { s with
          tasks := Function.update s.tasks p (x.clear sigcont)
          point := Function.update s.point p .leaving }
      | .leaving => some { s with tasks := Function.update s.tasks p x }
      | _ => some { s with
          tasks := Function.update s.tasks p x
          point := Function.update s.point p .elsewhere }
    else none
  | .yield p =>
    if (s.tasks p).state = .running then
      some { s with tasks := Function.update s.tasks p { s.tasks p with state := .runnable } }
    else none
  | .check p =>
    if s.runs p then
      let r := procCheckSignals s.tasks p
      some { s with
        tasks := r.2
        point := Function.update s.point p (if r.1 = .stopped then .stopping else .leaving)
        since := Function.update s.since p 0 }
    else none
  | .fault p =>
    if s.runs p then some { s with
      tasks := Function.update s.tasks p { s.tasks p with
        pending := (s.tasks p).pending ||| bit sigkill }
      point := Function.update s.point p .leaving
      since := Function.update s.since p (s.since p ||| bit sigkill) }
    else none
  | .leave p =>
    if (s.tasks p).state = .running ∧ s.point p = .leaving then some { s with
      -- `proc_is_killed`
      tasks := if (s.tasks p).has sigkill then procCleanup s.tasks p (-1) else s.tasks
      point := Function.update s.point p .elsewhere }
    else none
  | .fork p =>
    if s.runs p then
      match (List.range nproc).find? fun i => (s.tasks i).state == .unused with
      | none => none
      | some c => some { s with
          tasks := Function.update s.tasks c (Task.born s.nextpid (s.tasks p).pgid p
            (s.tasks c).exitStatus (s.tasks c).stopSignal)
          point := Function.update s.point c .elsewhere
          nextpid := s.nextpid + 1
          last := Function.update s.last c none
          since := Function.update s.since c 0 }
    else none
  | .exit p status =>
    if s.runs p then some { s with tasks := procCleanup s.tasks p status } else none
  | .reap p c =>
    if s.runs p ∧ (s.tasks c).parent = some p ∧ (s.tasks c).state = .zombie then
      some { s with tasks := Function.update s.tasks c { s.tasks c with state := .unused } }
    else none
  | .setpgid p pgid =>
    some { s with tasks := Function.update s.tasks p { s.tasks p with pgid := pgid } }

/-- The first process, alone. -/
def start : Sys where
  tasks i := if i = 0 then ⟨.runnable, 1, 1, none, none, 0, 0, 0⟩ else ⟨.unused, 0, 0, none, none, 0, 0, 0⟩
  point _ := .elsewhere
  nextpid := 2
  last _ := none
  since _ := 0

/-- The states of the runs whose events all satisfy `ok`. -/
inductive Reach (ok : Sys → Event → Prop) : Sys → Prop where
  | start : Reach ok start
  | step {s s' : Sys} {e : Event} (h : Reach ok s) (hok : ok s e) (hs : step s e = some s') :
      Reach ok s'

/-- The last state of a run. -/
def runFrom (s : Sys) (es : List Event) : Option Sys := es.foldlM step s

/-! ## What signals promise -/

/-- With this event `proc_check_signals` of `p` returns: at once, or after a stop. -/
def Returns (s : Sys) (p : Nat) : Event → Prop
  | .check q => q = p ∧ (procCheckSignals s.tasks p).1 = .returned
  | .schedule q => q = p ∧ s.point p = .stopping
  | _ => False

/-- A process that was continued after its last stop signal is not stopped by a check; a process that
returns to user mode has no `SIGKILL` pending; a check that returns leaves no signal at all that was not
sent since it began. -/
structure Proper (s : Sys) (e : Event) (s' : Sys) : Prop where
  cont : ∀ p, e = .check p → s.last p = some sigcont → (s'.tasks p).state ≠ .stopped
  kill : ∀ p, e = .leave p → (s'.tasks p).state = .running → (s'.tasks p).has sigkill = false
  rest : ∀ p, Returns s p e → ∀ sig, 1 ≤ sig → sig < nsig → (s'.tasks p).has sig = true →
    (s'.since p).getLsbD sig = true

/-- The number of the signal that an event sends. -/
def Event.sig : Event → Nat
  | .signal _ sig => sig.toNat
  | .pgrp _ sig => sig.toNat
  | _ => 0

/-- An event without the defects: the signals that are sent are known to `proc_check_signals`,
`SIGCONT` is not sent to a process that has yet to stop, and a process does not stop while a further
signal is pending. -/
structure Tidy (s : Sys) (e : Event) : Prop where
  handled : ∀ p, s.targets e p = true → Handled e.sig
  cont : ∀ p, s.targets e p = true → e.sig = sigcont → ∀ sig ∈ stopSigs, (s.tasks p).has sig = false
  stop : ∀ p, e = .check p → (s.tasks p).has sigkill = false → ∀ sig ∈ stopSigs,
    (s.tasks p).has sig = true → ∀ sig', (s.tasks p).has sig' = true → sig' = sig ∨ sig' = sigcont

/-! ## Pending signals -/

section

variable {x : Task} {sig i : Nat}

theorem Task.has_lt (h : x.has i = true) : i < nsig := lt_of_getLsbD h

theorem Task.has_hit (hsig : sig < nsig) : (x.hit sig).has i = (x.has i || decide (i = sig)) := by
  unfold Task.has Task.hit bit
  rw [getLsbD_or, getLsbD_twoPow, decide_eq_true (show sig < 32 from hsig),
    Bool.true_and]
  congr 1
  exact decide_eq_decide.2 eq_comm

theorem Task.has_clear (hsig : sig < nsig) : (x.clear sig).has i = (x.has i && !decide (i = sig)) := by
  unfold Task.has Task.clear bit
  rw [getLsbD_and, getLsbD_not, getLsbD_twoPow, decide_eq_true (show sig < 32 from hsig), Bool.true_and]
  by_cases hi : i < 32
  · rw [decide_eq_true hi, Bool.true_and]
    congr 2
    exact decide_eq_decide.2 eq_comm
  · rw [getLsbD_of_ge _ _ (Nat.not_lt.1 hi), Bool.false_and, Bool.false_and]

theorem Task.has_congr {y : Task} (h : x.pending = y.pending) (i : Nat) : x.has i = y.has i := by
  unfold Task.has
  rw [h]

end

section

variable {t : Table} {p q : Nat}

theorem procWakeup_pending (t : Table) (chan : Chan) (i : Nat) :
    (procWakeup t chan i).pending = (t i).pending := by
  unfold procWakeup
  split
  · rfl
  · rfl

theorem procWakeup_awake {chan : Chan} {i : Nat} (h : (t i).state ≠ .sleeping) :
    procWakeup t chan i = t i := by
  unfold procWakeup
  rw [if_neg fun hc => h hc.1]

theorem wakeParent_pending (t : Table) (p i : Nat) : (wakeParent t p i).pending = (t i).pending := by
  unfold wakeParent
  cases (t p).parent with
  | none => rfl
  | some q => exact procWakeup_pending t _ i

theorem procCleanup_pending (t : Table) (p : Nat) (status : Int) (i : Nat) :
    (procCleanup t p status i).pending = (t i).pending := by
  have hupdate : ∀ x : Task, x.pending = (t p).pending →
      (update t p x i).pending = (t i).pending := by
    intro x hx
    by_cases hi : i = p
    · rw [hi, update_self, hx]
    · rw [update_of_ne hi]
  unfold procCleanup
  cases (t p).parent with
  | none => exact hupdate _ rfl
  | some q =>
    rw [procWakeup_pending]
    exact hupdate _ rfl

theorem procCleanup_ended (t : Table) (p : Nat) (status : Int) :
    (procCleanup t p status p).state = .unused ∨ (procCleanup t p status p).state = .zombie := by
  unfold procCleanup
  cases (t p).parent with
  | none =>
    dsimp only
    rw [update_self]
    exact Or.inl rfl
  | some q =>
    dsimp only
    rw [procWakeup_awake (by rw [update_self]; exact fun e => by cases e),
      update_self]
    exact Or.inr rfl

theorem procCleanup_gone (t : Table) (p : Nat) (status : Int) :
    (procCleanup t p status p).state ≠ .running := by
  rcases procCleanup_ended t p status with h | h
  · exact fun e => by cases h.symm.trans e
  · exact fun e => by cases h.symm.trans e

theorem procCleanup_state (t : Table) (p : Nat) (status : Int) :
    (procCleanup t p status p).state ≠ .stopped := by
  rcases procCleanup_ended t p status with h | h
  · exact fun e => by cases h.symm.trans e
  · exact fun e => by cases h.symm.trans e

/-- What a check does: nothing to the pending signals of others, and it takes signals of its own
process only. When it returns, no known signal is left; when it stops the process, the stop signal is
taken. -/
theorem procCheckSignals_spec (t : Table) (p : Nat) :
    (∀ q, q ≠ p → ((procCheckSignals t p).2 q).pending = (t q).pending) ∧
    (∀ sig, ((procCheckSignals t p).2 p).has sig = true → (t p).has sig = true) ∧
    ((procCheckSignals t p).1 = .returned → ((procCheckSignals t p).2 p).state = (t p).state ∧
      ∀ sig, Handled sig → ((procCheckSignals t p).2 p).has sig = false) ∧
    ((procCheckSignals t p).1 = .ended → ((procCheckSignals t p).2 p).state ≠ .stopped) ∧
    ((procCheckSignals t p).1 = .stopped → (t p).has sigkill = false ∧ ∃ sig ∈ stopSigs,
      (t p).has sig = true ∧ ((procCheckSignals t p).2 p).has sig = false) := by
  have hother : ∀ (x : Task) q, q ≠ p → (update t p x q).pending = (t q).pending :=
    fun x q hq => by rw [update_of_ne hq]
  unfold procCheckSignals
  split
  · rename_i hzero
    refine ⟨fun _ _ => rfl, fun _ h => h, fun _ => ⟨rfl, fun sig _ => ?_⟩, fun e => (by cases e),
      fun e => (by cases e)⟩
    unfold Task.has
    rw [hzero]
    exact getLsbD_zero
  split
  · refine ⟨fun q hq => ?_, fun sig h => ?_, fun e => (by cases e),
      fun _ => procCleanup_state _ p _, fun e => (by cases e)⟩
    · rw [procCleanup_pending, hother _ q hq]
    · rw [Task.has_congr (procCleanup_pending _ p _ p), update_self,
        Task.has_clear (by decide), Bool.and_eq_true] at h
      exact h.1
  rename_i hkill
  rw [Bool.not_eq_true] at hkill
  split
  · rename_i sig hfind
    have hmem := List.mem_of_find?_eq_some hfind
    have hhas : (t p).has sig = true := List.find?_some hfind
    have hpend : ∀ i, (wakeParent (update t p { (t p).clear sig with
        state := .stopped, stopSignal := sig }) p p).has i = ((t p).has i && !decide (i = sig)) := by
      intro i
      rw [Task.has_congr (wakeParent_pending _ p p), update_self]
      exact Task.has_clear (Task.has_lt hhas)
    refine ⟨fun q hq => ?_, fun i h => ?_, fun e => (by cases e), fun e => (by cases e),
      fun _ => ⟨hkill, sig, hmem, hhas, ?_⟩⟩
    · rw [wakeParent_pending, hother _ q hq]
    · rw [hpend, Bool.and_eq_true] at h
      exact h.1
    · rw [hpend, decide_eq_true rfl, Bool.not_true, Bool.and_false]
  rename_i hstop
  have hnostop : ∀ sig ∈ stopSigs, (t p).has sig = false := by
    intro sig hsig
    exact Bool.eq_false_iff.2 (List.find?_eq_none.1 hstop sig hsig)
  have hpend : ∀ i, (if (t p).has sigcont then (t p).clear sigcont else t p).has i =
      ((t p).has i && !decide (i = sigcont)) := by
    intro i
    split
    · exact Task.has_clear (by decide)
    rename_i hcont
    by_cases hi : i = sigcont
    · rw [hi, Bool.eq_false_iff.2 hcont, Bool.false_and]
    · rw [decide_eq_false hi, Bool.not_false, Bool.and_true]
  have hstate : (if (t p).has sigcont then (t p).clear sigcont else t p).state = (t p).state := by
    split
    · rfl
    · rfl
  dsimp only
  generalize (if (t p).has sigcont then (t p).clear sigcont else t p) = x at hpend hstate
  split
  · rename_i sig hfind
    have hhas : x.has sig = true := List.find?_some hfind
    refine ⟨fun q hq => ?_, fun i h => ?_, fun e => (by cases e),
      fun _ => procCleanup_state _ p _, fun e => (by cases e)⟩
    · rw [procCleanup_pending, hother _ q hq]
    · rw [Task.has_congr (procCleanup_pending _ p _ p), update_self,
        Task.has_clear (Task.has_lt hhas), hpend, Bool.and_eq_true, Bool.and_eq_true] at h
      exact h.1.1
  rename_i hterm
  have hnoterm : ∀ sig ∈ termSigs, x.has sig = false := fun sig hsig =>
    Bool.eq_false_iff.2 (List.find?_eq_none.1 hterm sig hsig)
  dsimp only
  refine ⟨fun q hq => hother _ q hq, fun i h => ?_, fun _ => ⟨?_, fun sig hsig => ?_⟩,
    fun e => (by cases e), fun e => (by cases e)⟩
  · rw [update_self, hpend, Bool.and_eq_true] at h
    exact h.1
  · rw [update_self, hstate]
  rw [update_self]
  rcases hsig with rfl | rfl | hsig | hsig
  · rw [hpend, hkill, Bool.false_and]
  · rw [hpend, decide_eq_true rfl, Bool.not_true, Bool.and_false]
  · rw [hpend, hnostop sig hsig, Bool.false_and]
  · exact hnoterm sig hsig

end

/-! ## Runs without the defects -/

/-- What holds of a process in every run of tidy events: all pending signals are known ones, a process
that was continued last has none of the stop signals pending, and one that is stopped has, `SIGCONT`
apart, none pending from before the stop. -/
structure Tame (s : Sys) (p : Nat) : Prop where
  handled : ∀ sig, (s.tasks p).has sig = true → Handled sig
  cont : s.last p = some sigcont → ∀ sig ∈ stopSigs, (s.tasks p).has sig = false
  stopping : s.point p = .stopping →
    ∀ sig, (s.tasks p).has sig = true → sig = sigcont ∨ (s.since p).getLsbD sig = true

section

variable {s s' : Sys} {e : Event} {p : Nat}

theorem Tame.congr (h : Tame s p) (hpending : (s'.tasks p).pending = (s.tasks p).pending)
    (hpoint : s'.point p = .stopping → s.point p = .stopping) (hlast : s'.last p = s.last p)
    (hsince : s'.since p = s.since p) : Tame s' p where
  handled sig hsig := h.handled sig (by rw [← Task.has_congr hpending]; exact hsig)
  cont hl sig hsig := by
    rw [Task.has_congr hpending]
    exact h.cont (hlast ▸ hl) sig hsig
  stopping hp sig hsig := by
    rw [Task.has_congr hpending] at hsig
    rw [hsince]
    exact h.stopping (hpoint hp) sig hsig

theorem getLsbD_or_bit {w : BitVec 32} {sig i : Nat} (hsig : sig < nsig) :
    (w ||| bit sig).getLsbD i = (w.getLsbD i || decide (i = sig)) :=
  Task.has_hit (x := ⟨.unused, 0, 0, none, none, 0, 0, w⟩) hsig

/-- A process is hit by a signal. -/
theorem Tame.hit {t : Table} (h : Tame s p) (hok : Tidy s e) (hlt : s.targets e p = true → e.sig < nsig)
    (ht : t p = if s.targets e p then (s.tasks p).hit e.sig else s.tasks p) :
    Tame (s.record e e.sig t) p := by
  by_cases htarget : s.targets e p = true
  · have hsig := hlt htarget
    rw [if_pos htarget] at ht
    have hhas : ∀ i, ((s.record e e.sig t).tasks p).has i =
        ((s.tasks p).has i || decide (i = e.sig)) := fun i => by
      show (t p).has i = _
      rw [ht, Task.has_hit hsig]
    have hnot : sigcont ∉ stopSigs := by decide
    constructor
    · intro i hi
      rw [hhas, Bool.or_eq_true, decide_eq_true_iff] at hi
      rcases hi with hi | rfl
      · exact h.handled i hi
      · exact hok.handled p htarget
    · intro hl i hi
      dsimp only [Sys.record] at hl
      rw [hhas, Bool.or_eq_false_iff, decide_eq_false_iff_not]
      by_cases hc : e.sig = sigcont
      · exact ⟨hok.cont p htarget hc i hi, fun hie => hnot (hc ▸ hie ▸ hi)⟩
      by_cases hs : e.sig ∈ stopSigs
      · rw [if_pos ⟨htarget, Or.inr hs⟩] at hl
        exact absurd (some.inj hl) hc
      · rw [if_neg fun hcond => hcond.2.elim hc hs] at hl
        exact ⟨h.cont hl i hi, fun hie => hs (hie ▸ hi)⟩
    intro hp i hi
    dsimp only [Sys.record]
    rw [if_pos htarget, getLsbD_or_bit hsig]
    rw [hhas, Bool.or_eq_true] at hi
    rcases hi with hi | hi
    · exact (h.stopping hp i hi).imp id fun hs => by rw [hs, Bool.true_or]
    · exact Or.inr (by rw [hi, Bool.or_true])
  rw [if_neg htarget] at ht
  refine h.congr (by show (t p).pending = _; rw [ht]) (fun hp => hp) ?_ ?_
  · dsimp only [Sys.record]
    exact if_neg fun hc => htarget hc.1
  · dsimp only [Sys.record]
    exact if_neg htarget

theorem procSignal_apply (s : Sys) (pid sig : Int) (p : Nat) :
    (procSignal s.tasks pid sig).2 p =
        (if s.targets (.signal pid sig) p then (s.tasks p).hit sig.toNat else s.tasks p) ∧
      (s.targets (.signal pid sig) p = true → sig.toNat < nsig) := by
  by_cases hrange : 1 ≤ sig ∧ sig < nsig
  · have htargets : s.targets (.signal pid sig) p = (target s.tasks pid == some p) := by
      unfold Sys.targets
      dsimp only
      rw [decide_eq_true hrange.1, decide_eq_true hrange.2, Bool.true_and, Bool.true_and]
    unfold procSignal
    rw [htargets, if_neg (by omega), if_neg (by omega)]
    refine ⟨?_, fun _ => by omega⟩
    cases htarget : target s.tasks pid with
    | none => rfl
    | some i =>
      by_cases hi : i = p
      · subst hi
        dsimp only
        rw [update_self, beq_self_eq_true, if_pos rfl]
      have hne : (some i == some p) = false := by
        rw [beq_eq_false_iff_ne]
        exact fun e => hi (some.inj e)
      dsimp only
      rw [update_of_ne (Ne.symm hi), hne, if_neg Bool.false_ne_true]
  have htargets : s.targets (.signal pid sig) p = false := by
    unfold Sys.targets
    rw [Bool.and_eq_false_iff, Bool.and_eq_false_iff, decide_eq_false_iff_not, decide_eq_false_iff_not]
    omega
  unfold procSignal
  rw [htargets, if_neg Bool.false_ne_true]
  refine ⟨?_, fun e => (by cases e)⟩
  split
  · rfl
  · rw [if_pos (by omega)]

theorem procSignalPgrp_apply (s : Sys) (pgid sig : Int) (p : Nat) :
    (procSignalPgrp s.tasks pgid sig).2 p =
        (if s.targets (.pgrp pgid sig) p then (s.tasks p).hit sig.toNat else s.tasks p) ∧
      (s.targets (.pgrp pgid sig) p = true → sig.toNat < nsig) := by
  by_cases hrange : 0 < pgid ∧ 1 ≤ sig ∧ sig < nsig
  · have htargets : s.targets (.pgrp pgid sig) p =
        (p < nproc && (s.tasks p).state != .unused && (s.tasks p).pgid == pgid) := by
      unfold Sys.targets
      dsimp only
      rw [decide_eq_true hrange.1, decide_eq_true hrange.2.1, decide_eq_true hrange.2.2,
        Bool.true_and, Bool.true_and, Bool.true_and]
    unfold procSignalPgrp
    rw [htargets, if_neg (by omega), if_neg (by omega)]
    exact ⟨rfl, fun _ => by omega⟩
  have htargets : s.targets (.pgrp pgid sig) p = false := by
    have hfalse : (decide (0 < pgid) && decide (1 ≤ sig) && decide (sig < nsig)) = false := by
      rw [Bool.and_eq_false_iff, Bool.and_eq_false_iff, decide_eq_false_iff_not,
        decide_eq_false_iff_not, decide_eq_false_iff_not]
      omega
    unfold Sys.targets
    dsimp only
    rw [hfalse, Bool.false_and, Bool.false_and, Bool.false_and]
  unfold procSignalPgrp
  rw [htargets, if_neg Bool.false_ne_true]
  refine ⟨?_, fun e => (by cases e)⟩
  split
  · rfl
  · rw [if_pos (by omega)]

variable {q : Nat}

/-- A change of one process that leaves its pending signals. -/
theorem pending_update {t : Table} {x : Task} (hx : x.pending = (t q).pending) (p : Nat) :
    (update t q x p).pending = (t p).pending := by
  by_cases hp : p = q
  · rw [hp, update_self, hx]
  · rw [update_of_ne hp]

theorem Sys.runs_point (h : s.runs p = true) : s.point p = .elsewhere ∧
    (s.tasks p).state = .running := by
  unfold Sys.runs at h
  rw [Bool.and_eq_true] at h
  exact ⟨eq_of_beq h.2, eq_of_beq h.1⟩

/-- A process acts on its signals before it returns. -/
theorem Tame.check (h : ∀ p, Tame s p) (hok : Tidy s (.check p)) (hs : step s (.check p) = some s') :
    ∀ q, Tame s' q := by
  rw [step] at hs
  split at hs
  · rename_i hruns
    obtain rfl := some.inj hs
    obtain ⟨hother, hsub, hret, -, hstop⟩ := procCheckSignals_spec s.tasks p
    intro q
    by_cases hq : q = p
    · subst hq
      constructor
      · exact fun sig hsig => (h q).handled sig (hsub sig hsig)
      · intro hl sig hsig
        rw [Bool.eq_false_iff]
        exact fun hhas => Bool.eq_false_iff.1 ((h q).cont hl sig hsig) (hsub sig hhas)
      intro hp i hi
      dsimp only at hp
      rw [update_self] at hp
      split at hp
      · rename_i hstopped
        obtain ⟨hkill, sig, hmem, hhas, hclear⟩ := hstop hstopped
        rcases hok.stop q rfl hkill sig hmem hhas i (hsub i hi) with rfl | hcont
        · exact absurd hi (Bool.eq_false_iff.1 hclear)
        · exact Or.inl hcont
      · cases hp
    exact (h q).congr (hother q hq) (fun hp => (update_of_ne hq ..).symm.trans hp) rfl
      (update_of_ne hq ..)
  · cases hs

/-- A process with fewer signals pending that is not in the stop of a check. -/
theorem Tame.shrink (h : Tame s p)
    (hsub : ∀ sig, (s'.tasks p).has sig = true → (s.tasks p).has sig = true)
    (hpoint : s'.point p ≠ .stopping) (hlast : s'.last p = s.last p) : Tame s' p where
  handled sig hsig := h.handled sig (hsub sig hsig)
  cont hl sig hsig := by
    rw [Bool.eq_false_iff]
    exact fun hhas => Bool.eq_false_iff.1 (h.cont (hlast ▸ hl) sig hsig) (hsub sig hhas)
  stopping hp := absurd hp hpoint

/-- A process is run. -/
theorem Tame.schedule (h : Tame s p) (hs : step s (.schedule q) = some s') : Tame s' p := by
  rw [step] at hs
  split at hs
  · by_cases hp : p = q
    · subst hp
      split at hs
      · obtain rfl := some.inj hs
        refine h.shrink (fun sig hsig => ?_) ?_ rfl
        · dsimp only at hsig
          rw [update_self, Task.has_clear (by decide), Bool.and_eq_true] at hsig
          exact hsig.1
        · dsimp only
          rw [update_self]
          exact fun e => by cases e
      · rename_i hleaving
        obtain rfl := some.inj hs
        refine h.shrink (fun sig hsig => ?_) (fun hstop => ?_) rfl
        · dsimp only at hsig
          rwa [update_self] at hsig
        · cases hleaving.symm.trans hstop
      obtain rfl := some.inj hs
      refine h.shrink (fun sig hsig => ?_) ?_ rfl
      · dsimp only at hsig
        rw [update_self] at hsig
        exact hsig
      · dsimp only
        rw [update_self]
        exact fun e => by cases e
    split at hs
    · obtain rfl := some.inj hs
      exact h.congr (by dsimp only; rw [update_of_ne hp])
        (fun hstop => (update_of_ne hp ..).symm.trans hstop) rfl rfl
    · obtain rfl := some.inj hs
      exact h.congr (by dsimp only; rw [update_of_ne hp]) (fun hstop => hstop) rfl rfl
    · obtain rfl := some.inj hs
      exact h.congr (by dsimp only; rw [update_of_ne hp])
        (fun hstop => (update_of_ne hp ..).symm.trans hstop) rfl rfl
  · cases hs

/-- A fault kills the current process. -/
theorem Tame.fault (h : Tame s p) (hs : step s (.fault q) = some s') : Tame s' p := by
  rw [step] at hs
  split at hs
  · rename_i hruns
    obtain rfl := some.inj hs
    by_cases hp : p = q
    · subst hp
      have hhas : ∀ i, (update s.tasks p { s.tasks p with
          pending := (s.tasks p).pending ||| bit sigkill } p).has i =
            ((s.tasks p).has i || decide (i = sigkill)) := fun i => by
        rw [update_self]
        exact getLsbD_or_bit (by decide)
      constructor
      · intro i hi
        rw [hhas, Bool.or_eq_true, decide_eq_true_iff] at hi
        rcases hi with hi | rfl
        · exact h.handled i hi
        · exact Or.inl rfl
      · intro hl i hi
        rw [hhas, h.cont hl i hi, Bool.false_or, decide_eq_false_iff_not]
        rintro rfl
        exact absurd hi (by decide)
      · intro hstop
        cases (update_self ..).symm.trans hstop
    · exact h.congr (by dsimp only; rw [update_of_ne hp])
        (fun hstop => (update_of_ne hp ..).symm.trans hstop) rfl (update_of_ne hp ..)
  · cases hs

/-- A new process has no signals. -/
theorem Tame.fork {q : Nat} (h : Tame s p) (hs : step s (.fork q) = some s') : Tame s' p := by
  rw [step] at hs
  split at hs
  · split at hs
    · cases hs
    rename_i c _
    obtain rfl := some.inj hs
    by_cases hp : p = c
    · subst hp
      have hnone : ∀ i, (update s.tasks p (Task.born s.nextpid (s.tasks q).pgid q
          (s.tasks p).exitStatus (s.tasks p).stopSignal) p).has i = false := fun i => by
        rw [update_self]
        exact getLsbD_zero
      constructor
      · intro i hi
        rw [hnone] at hi
        cases hi
      · exact fun _ i _ => hnone i
      · exact fun _ i hi => by rw [hnone] at hi; cases hi
    · exact h.congr (by dsimp only; rw [update_of_ne hp])
        (fun hstop => (update_of_ne hp ..).symm.trans hstop)
        (update_of_ne hp ..) (update_of_ne hp ..)
  · cases hs

theorem Tame.leave (h : Tame s p) (hs : step s (.leave q) = some s') : Tame s' p := by
  rw [step] at hs
  split at hs
  · obtain rfl := some.inj hs
    refine h.congr ?_ (fun hp => ?_) rfl rfl
    · dsimp only
      split
      · exact procCleanup_pending _ q (-1) p
      · rfl
    by_cases hpq : p = q
    · rw [hpq] at hp
      cases (update_self q Point.elsewhere s.point).symm.trans hp
    · exact (update_of_ne hpq Point.elsewhere s.point).symm.trans hp
  · cases hs

/-- Every event keeps every process tame. -/
theorem tame_step (h : ∀ p, Tame s p) (hok : Tidy s e) (hs : step s e = some s') :
    ∀ p, Tame s' p := by
  intro p
  cases e with
  | signal pid sig =>
    obtain rfl := some.inj hs
    exact (h p).hit hok (procSignal_apply s pid sig p).2 (procSignal_apply s pid sig p).1
  | pgrp pgid sig =>
    obtain rfl := some.inj hs
    exact (h p).hit hok (procSignalPgrp_apply s pgid sig p).2 (procSignalPgrp_apply s pgid sig p).1
  | check q => exact Tame.check h hok hs p
  | wait q chan =>
    rw [step] at hs
    split at hs
    · split at hs
      · obtain rfl := some.inj hs
        exact h p
      obtain rfl := some.inj hs
      refine (h p).congr (pending_update (by rfl) p) (fun hp => ?_) rfl rfl
      by_cases hpq : p = q
      · rw [hpq] at hp
        cases (update_self q Point.waiting s.point).symm.trans hp
      · exact (update_of_ne hpq Point.waiting s.point).symm.trans hp
    · cases hs
  | waitNointr q chan =>
    rw [step] at hs
    split at hs
    · obtain rfl := some.inj hs
      exact (h p).congr (pending_update (by rfl) p) (fun hp => hp) rfl rfl
    · cases hs
  | wakeup chan =>
    obtain rfl := some.inj hs
    exact (h p).congr (procWakeup_pending _ chan p) (fun hp => hp) rfl rfl
  | timer q =>
    rw [step] at hs
    split at hs
    · obtain rfl := some.inj hs
      exact (h p).congr (pending_update (by rfl) p) (fun hp => hp) rfl rfl
    · cases hs
  | schedule q => exact (h p).schedule hs
  | yield q =>
    rw [step] at hs
    split at hs
    · obtain rfl := some.inj hs
      exact (h p).congr (pending_update (by rfl) p) (fun hp => hp) rfl rfl
    · cases hs
  | fault q => exact (h p).fault hs
  | leave q => exact (h p).leave hs
  | fork q => exact (h p).fork hs
  | exit q status =>
    rw [step] at hs
    split at hs
    · obtain rfl := some.inj hs
      exact (h p).congr (procCleanup_pending _ q status p) (fun hp => hp) rfl rfl
    · cases hs
  | reap q c =>
    rw [step] at hs
    split at hs
    · obtain rfl := some.inj hs
      exact (h p).congr (pending_update (by rfl) p) (fun hp => hp) rfl rfl
    · cases hs
  | setpgid q pgid =>
    obtain rfl := some.inj hs
    exact (h p).congr (pending_update (by rfl) p) (fun hp => hp) rfl rfl

theorem tame_start (p : Nat) : Tame start p := by
  have hnone : ∀ i, (start.tasks p).has i = false := by
    intro i
    unfold start
    dsimp only
    split
    · exact getLsbD_zero
    · exact getLsbD_zero
  constructor
  · intro i hi
    rw [hnone] at hi
    cases hi
  · exact fun _ i _ => hnone i
  · exact fun hp => by cases hp

theorem Reach.tame (h : Reach Tidy s) : ∀ p, Tame s p := by
  induction h with
  | start => exact tame_start
  | step _ hok hs ih => exact tame_step ih hok hs

/-- What is pending when a check returns was sent since it began. -/
theorem Tame.returns (h : Tame s p) (hs : step s e = some s') (hret : Returns s p e) {sig : Nat}
    (hsig : (s'.tasks p).has sig = true) : (s'.since p).getLsbD sig = true := by
  cases e with
  | check q =>
    obtain ⟨rfl, hres⟩ := hret
    obtain ⟨-, hsub, hclear, -⟩ := procCheckSignals_spec s.tasks q
    rw [step] at hs
    split at hs
    · obtain rfl := some.inj hs
      have hnone := (hclear hres).2 sig (h.handled sig (hsub sig hsig))
      rw [hnone] at hsig
      cases hsig
    · cases hs
  | schedule q =>
    obtain ⟨rfl, hpoint⟩ := hret
    rw [step] at hs
    split at hs
    · dsimp only at hs
      rw [hpoint] at hs
      obtain rfl := some.inj hs
      dsimp only at hsig
      rw [update_self, Task.has_clear (by decide), Bool.and_eq_true, Bool.not_eq_true',
        decide_eq_false_iff_not] at hsig
      exact (h.stopping hpoint sig hsig.1).resolve_left hsig.2
    · cases hs
  | _ => exact hret.elim

/-- Signals: in a run whose events are all tidy, a process that was continued after its last stop
signal is not stopped by its next check, a process that returns to user mode has no `SIGKILL` pending,
and a check that returns leaves no signal that was not sent since it began. -/
theorem signals_proper (h : Reach Tidy s) (hok : Tidy s e) (hs : step s e = some s') :
    Proper s e s' := by
  constructor
  · rintro p rfl hlast
    have htame := h.tame p
    obtain ⟨-, -, hret, hend, hstop⟩ := procCheckSignals_spec s.tasks p
    rw [step] at hs
    split at hs
    · rename_i hruns
      obtain rfl := some.inj hs
      cases hres : (procCheckSignals s.tasks p).1 with
      | returned =>
        rw [(hret hres).1, (Sys.runs_point hruns).2]
        exact fun e => by cases e
      | ended => exact hend hres
      | stopped =>
        obtain ⟨-, sig, hmem, hhas, -⟩ := hstop hres
        rw [htame.cont hlast sig hmem] at hhas
        cases hhas
    · cases hs
  · rintro p rfl hlive
    rw [step] at hs
    split at hs
    · obtain rfl := some.inj hs
      dsimp only at hlive ⊢
      split at hlive
      · exact absurd hlive (procCleanup_gone _ p _)
      · rename_i hkill
        rw [if_neg hkill]
        exact Bool.eq_false_iff.2 hkill
    · cases hs
  · exact fun p hret sig _ _ hsig => (h.tame p).returns hs hret hsig

end

/-- The first process sends itself `SIGCONT`, and its next check takes it. -/
theorem signals_proper_small : ∃ s s', runFrom start [.schedule 0, .signal 1 18] = some s ∧
    step s (.check 0) = some s' ∧ s.last 0 = some sigcont ∧ (s.tasks 0).has sigcont = true ∧
    Proper s (.check 0) s' := by
  obtain ⟨s1, hs1⟩ : ∃ s1, step start (.schedule 0) = some s1 := ⟨_, rfl⟩
  have htidy1 : Tidy start (.schedule 0) :=
    ⟨fun p h => (by cases h), fun p h => (by cases h), fun p h => (by cases h)⟩
  have hreach1 := Reach.start.step htidy1 hs1
  obtain rfl := some.inj hs1
  refine ⟨_, _, rfl, rfl, rfl, rfl, signals_proper (hreach1.step (e := .signal 1 18) ?_ rfl) ?_ rfl⟩
  · refine ⟨fun _ _ => by decide, fun p hp _ sig hsig => ?_, fun p h => (by cases h)⟩
    unfold Sys.targets at hp
    obtain rfl : 0 = p := some.inj (eq_of_beq (Bool.and_eq_true_iff.1 hp).2)
    revert sig
    decide
  refine ⟨fun p h => (by cases h), fun p h => (by cases h), fun p hp _ sig hsig hhas sig' _ => ?_⟩
  obtain rfl : 0 = p := Event.check.inj hp
  refine absurd hhas ?_
  revert sig
  decide

/-- The two defects. `SIGTSTP` and then `SIGCONT` are sent to the child before its check: the check
stops it. The first process sends itself `SIGCHLD`: no check takes it. -/
theorem signals_wrong :
    (∃ s s', runFrom start [.schedule 0, .fork 0, .signal 2 20, .signal 2 18, .yield 0, .schedule 1] =
        some s ∧ step s (.check 1) = some s' ∧ s.last 1 = some sigcont ∧
      (s'.tasks 1).state = .stopped ∧ ¬ Proper s (.check 1) s') ∧
    ∃ s s', runFrom start [.schedule 0, .signal 1 17] = some s ∧ step s (.check 0) = some s' ∧
      Returns s 0 (.check 0) ∧ (s'.tasks 0).has 17 = true ∧ ¬ Proper s (.check 0) s' := by
  refine ⟨⟨_, _, rfl, rfl, rfl, rfl, fun h => ?_⟩, _, _, rfl, rfl, ⟨rfl, rfl⟩, rfl, fun h => ?_⟩
  · exact h.cont 1 rfl rfl rfl
  · cases h.rest 0 ⟨rfl, rfl⟩ 17 (by decide) (by decide) rfl

end Slopix.Kernel.Signals
