import Slopix.Kernel.Signals

/-!
# The scheduler

`proc_scheduler` looks at the process table slot by slot, round after round, and runs what is
runnable until it switches back. What processes and interrupts do is an event of `Signals.lean`. The
running process is the only one in state `RUNNING`, and none is run twice while another one waits.
-/

namespace Slopix.Kernel.Scheduler

open Function Signals

/-- The processes, `current`, and how many slots the scheduler has left behind; its loop variable is
this count modulo `NPROC`. -/
structure Sched where
  sys : Sys
  current : Option Nat
  count : Nat

/-- What happens to the machine: a look of the scheduler, or any other event. -/
inductive Act where
  /-- The scheduler looks at a slot. -/
  | look
  | event (e : Event)

/-- The slot that is looked at next. -/
def Sched.slot (s : Sched) : Nat := s.count % nproc

/-- The state of the process in a slot. -/
def Sched.state (s : Sched) (q : Nat) : ProcState := (s.sys.tasks q).state

/-- The event makes a process run. -/
def picks : Event → Bool
  | .schedule _ => true
  | _ => false

/-- The process that runs calls `proc_sched` in this event. -/
def schedules (y : Sys) : Event → Bool
  | .wait p _ => (y.tasks p).pending = 0
  | .waitNointr _ _ | .yield _ | .exit _ _ => true
  | .check p => (procCheckSignals y.tasks p).1 ≠ .returned
  | .leave p => (y.tasks p).has sigkill
  | _ => false

/-- One action, with the process that is run. -/
def Sched.step (s : Sched) : Act → Option (Sched × Option Nat)
  | .look =>
    match s.current with
    | some _ => none
    | none =>
      match Signals.step s.sys (.schedule s.slot) with
      | some y => some (⟨y, some s.slot, s.count⟩, some s.slot)
      | none => some ({ s with count := s.count + 1 }, none)
  | .event e =>
    if picks e then none
    else (Signals.step s.sys e).map fun y =>
      (if schedules s.sys e then ⟨y, none, s.count + 1⟩ else { s with sys := y }, none)

/-- Runs, with the processes that are run, the last one first. -/
inductive Run (s : Sched) : List Nat → Sched → Prop
  | refl : Run s [] s
  | step {s1 s2 : Sched} {l : List Nat} {a : Act} {r : Option Nat} :
      Run s l s1 → s1.step a = some (s2, r) → Run s (r.toList ++ l) s2

/-- The start: nobody runs, and slot 0 is looked at first. -/
def start : Sched := ⟨Signals.start, none, 0⟩

/-! ## What an event leaves -/

/-- The same process runs, and what is runnable stays so. -/
def Keeps (t t' : Table) : Prop := ∀ q, ((t' q).state = .running ↔ (t q).state = .running) ∧
  ((t q).state = .runnable → (t' q).state = .runnable)

/-- One process stops running, and nothing else changes that matters. -/
def Leaves (t t' : Table) : Prop := ∃ (p : Nat) (x : Task), (t p).state = .running ∧ x.state ≠ .running ∧
  Keeps (update t p x) t'

section

variable {t t' t'' : Table} {p q : Nat} {x : Task} {y y' : Sys} {e : Event}

theorem Keeps.refl (t : Table) : Keeps t t := fun _ => ⟨Iff.rfl, id⟩

theorem Keeps.set (hrun : x.state = .running ↔ (t p).state = .running)
    (hready : (t p).state = .runnable → x.state = .runnable) : Keeps t (update t p x) := by
  intro q
  by_cases e : q = p
  · rw [e, update_self]
    exact ⟨hrun, hready⟩
  · rw [update_of_ne e]
    exact ⟨Iff.rfl, id⟩

theorem Keeps.same (hx : x.state = (t p).state) : Keeps t (update t p x) :=
  .set (by rw [hx]) fun h => hx.trans h

/-- A wakeup takes no process out of the round. -/
theorem Keeps.wakeup (t : Table) (chan : Chan) : Keeps t (procWakeup t chan) := by
  intro q
  unfold procWakeup
  split
  · simp_all
  · exact ⟨Iff.rfl, id⟩

theorem Keeps.wakeParent (t : Table) (p : Nat) : Keeps t (wakeParent t p) := by
  unfold Signals.wakeParent
  split
  · exact .refl t
  · exact .wakeup _ _

theorem Keeps.hit {b : Nat → Bool} {sig : Nat}
    (h : ∀ q, t' q = if b q then (t q).hit sig else t q) : Keeps t t' := by
  intro q
  rw [h q]
  unfold Task.hit
  split
  · dsimp only
    split
    · simp_all
    split
    · simp_all
    · exact ⟨Iff.rfl, id⟩
  · exact ⟨Iff.rfl, id⟩

theorem Leaves.set (hp : (t p).state = .running) (hx : x.state ≠ .running) : Leaves t (update t p x) :=
  ⟨p, x, hp, hx, .refl _⟩

theorem Leaves.cleanup (hp : (t p).state = .running) (status : Int) :
    Leaves t (Signals.procCleanup (update t p x) p status) := by
  unfold Signals.procCleanup
  dsimp only
  split
  · rw [update_idem]
    exact .set hp nofun
  · rw [update_idem]
    exact ⟨p, _, hp, by simp, .wakeup _ _⟩

theorem leaves_cleanup (hp : (t p).state = .running) (status : Int) :
    Leaves t (Signals.procCleanup t p status) := by
  have h := Leaves.cleanup (x := t p) hp status
  rwa [update_eq_self] at h

/-- `proc_check_signals` returns, or it calls `proc_sched`. -/
theorem check_keeps (hp : (t p).state = .running) :
    ((procCheckSignals t p).1 = .returned → Keeps t (procCheckSignals t p).2) ∧
      ((procCheckSignals t p).1 ≠ .returned → Leaves t (procCheckSignals t p).2) := by
  unfold procCheckSignals
  split
  · exact ⟨fun _ => .refl t, fun h => absurd rfl h⟩
  split
  · exact ⟨nofun, fun _ => .cleanup hp _⟩
  split
  · exact ⟨nofun, fun _ => ⟨p, _, hp, by simp, .wakeParent _ _⟩⟩
  have hx : (if (t p).has sigcont then (t p).clear sigcont else t p).state = (t p).state := by
    split
    · rfl
    · rfl
  dsimp only
  split
  · exact ⟨nofun, fun _ => .cleanup hp _⟩
  · exact ⟨fun _ => .same hx, fun h => absurd rfl h⟩

/-- What an event does to the states of the processes. -/
theorem keeps (he : picks e = false) (hs : Signals.step y e = some y') :
    if schedules y e then Leaves y.tasks y'.tasks else Keeps y.tasks y'.tasks := by
  cases e
  case schedule => cases he
  case signal pid sig =>
    cases hs
    exact .hit fun q => (procSignal_apply y pid sig q).1
  case pgrp pgid sig =>
    cases hs
    exact .hit fun q => (procSignalPgrp_apply y pgid sig q).1
  case wakeup =>
    cases hs
    exact .wakeup _ _
  case setpgid =>
    cases hs
    exact .same rfl
  all_goals obtain ⟨hc, hs⟩ := Option.ite_none_right_eq_some.1 hs
  case timer =>
    cases hs
    exact .set (by simp [hc]) (by simp [hc])
  case yield =>
    cases hs
    exact .set hc nofun
  case leave =>
    cases hs
    rw [schedules]
    split
    · exact leaves_cleanup hc.1 _
    · exact .refl _
  case fork =>
    split at hs <;> cases hs
    rename_i c hfind
    have hfree := List.find?_some hfind
    exact .set (by simp_all [Task.born]) (by simp_all)
  case reap =>
    cases hs
    exact .set (by simp [hc.2.2]) (by simp [hc.2.2])
  case fault =>
    cases hs
    exact .same rfl
  -- the process of the event runs
  all_goals have hp := (Sys.runs_point hc).2
  case wait =>
    split at hs <;> cases hs
    · rw [schedules, if_neg (by simpa)]
      exact .refl _
    · rw [schedules, if_pos (by simp_all)]
      exact .set hp nofun
  case waitNointr =>
    cases hs
    exact .set hp nofun
  case check =>
    cases hs
    rw [schedules]
    split
    · exact (check_keeps hp).2 (by simp_all)
    · exact (check_keeps hp).1 (by simp_all)
  case exit =>
    cases hs
    exact leaves_cleanup hp _

/-- Where a process leaves, nobody else runs but one that ran before. -/
theorem Leaves.runs (h : Leaves t t') (hone : ∀ p q, (t p).state = .running → (t q).state = .running → p = q)
    (q : Nat) : (t' q).state ≠ .running := by
  obtain ⟨p, x, hp, hx, hrest⟩ := h
  intro hq
  have hrun := (hrest q).1.1 hq
  by_cases e : q = p
  · rw [e, update_self] at hrun
    exact hx hrun
  · rw [update_of_ne e] at hrun
    exact e (hone q p hrun hp)

/-- Who waits to run still does. -/
theorem Leaves.ready (h : Leaves t t') (hq : (t q).state = .runnable) : (t' q).state = .runnable := by
  obtain ⟨p, x, hp, -, hrest⟩ := h
  refine (hrest q).2 ?_
  rwa [update_of_ne]
  rintro rfl
  cases hp.symm.trans hq

/-- A process is scheduled when it is runnable. -/
theorem step_schedule (hs : Signals.step y (.schedule p) = some y') :
    (y.tasks p).state = .runnable ∧ ∃ x : Task, x.state = .running ∧ y'.tasks = update y.tasks p x := by
  obtain ⟨hrun, hs⟩ := Option.ite_none_right_eq_some.1 hs
  dsimp only at hs
  split at hs <;> cases hs
  all_goals exact ⟨hrun, _, by rfl, rfl⟩

theorem step_schedule_none (hs : Signals.step y (.schedule p) = none) :
    (y.tasks p).state ≠ .runnable := by
  intro hrun
  rw [Signals.step, if_pos hrun] at hs
  dsimp only at hs
  split at hs <;> cases hs

end

/-! ## Turns -/

/-- The process in state `RUNNING` is `current`, and the scheduler is at its slot. -/
structure Sched.Alone (s : Sched) : Prop where
  iff : ∀ q, s.state q = .running ↔ s.current = some q
  slot : ∀ q, s.current = some q → q = s.slot

/-- What is kept while `p` waits. -/
structure Waits (s : Sched) (p : Nat) (l : List Nat) (s' : Sched) : Prop where
  alone : s'.Alone
  runnable : s'.state p = .runnable
  le : s.count ≤ s'.count
  turn : ∀ t, s.count ≤ t → t < s'.count → t % nproc ≠ p
  past : ∀ q ∈ l, ∃ t, s.count ≤ t ∧ q = t % nproc ∧
    (t < s'.count ∨ t = s'.count ∧ s'.current ≠ none)
  nodup : l.Nodup

section

variable {s s1 s2 s' : Sched} {a : Act} {r : Option Nat} {l l0 : List Nat} {p : Nat} {y : Sys}

theorem Sched.step_cases (hs : s.step a = some (s', r)) :
    (s.current = none ∧ s.state s.slot = .runnable ∧ r = some s.slot ∧ ∃ y, ∃ x : Task,
      x.state = .running ∧ y.tasks = update s.sys.tasks s.slot x ∧ s' = ⟨y, some s.slot, s.count⟩) ∨
    (s.current = none ∧ s.state s.slot ≠ .runnable ∧ r = none ∧ s' = ⟨s.sys, none, s.count + 1⟩) ∨
    ∃ y, r = none ∧ (Keeps s.sys.tasks y.tasks ∧ s' = { s with sys := y } ∨
      Leaves s.sys.tasks y.tasks ∧ s' = ⟨y, none, s.count + 1⟩) := by
  obtain ⟨sys, current, count⟩ := s
  cases a with
  | look =>
    simp only [Sched.step] at hs
    split at hs
    · cases hs
    split at hs <;> cases hs
    · obtain ⟨hrun, x, hx, ht⟩ := step_schedule ‹_›
      exact .inl ⟨rfl, hrun, rfl, _, x, hx, ht, rfl⟩
    · exact .inr (.inl ⟨rfl, step_schedule_none ‹_›, rfl, rfl⟩)
  | event e =>
    obtain ⟨he, hs⟩ := Option.ite_none_left_eq_some.1 hs
    obtain ⟨y, hy, heq⟩ := Option.map_eq_some_iff.1 hs
    cases heq
    have h := keeps (by simpa using he) hy
    refine .inr (.inr ⟨y, rfl, ?_⟩)
    split at h
    · rename_i hsched
      rw [if_pos hsched]
      exact .inr ⟨h, rfl⟩
    · rename_i hsched
      rw [if_neg hsched]
      exact .inl ⟨h, rfl⟩

theorem Sched.Alone.one (h : s.Alone) (p q : Nat) (hp : (s.sys.tasks p).state = .running)
    (hq : (s.sys.tasks q).state = .running) : p = q :=
  Option.some.inj (((h.iff p).1 hp).symm.trans ((h.iff q).1 hq))

/-- Nobody runs besides the current process, after every step. -/
theorem Sched.Alone.step (h : s.Alone) (hs : s.step a = some (s', r)) : s'.Alone := by
  rcases Sched.step_cases hs with ⟨hnone, -, -, y, x, hx, ht, rfl⟩ | ⟨hnone, -, -, rfl⟩ |
    ⟨y, -, ⟨hkeeps, rfl⟩ | ⟨hleaves, rfl⟩⟩
  · refine ⟨fun q => ?_, fun q hq => (Option.some.inj hq).symm⟩
    by_cases e : q = s.slot
    · simp [Sched.state, ht, e, hx]
    · have hq := h.iff q
      rw [hnone] at hq
      simpa [Sched.state, ht, e, Ne.symm e] using hq
  · exact ⟨fun q => hnone ▸ h.iff q, nofun⟩
  · exact ⟨fun q => (hkeeps q).1.trans (h.iff q), h.slot⟩
  · exact ⟨fun q => iff_of_false (hleaves.runs h.one q) nofun, nofun⟩

/-- In every state of a run. -/
theorem Run.alone (h : Run start l s) : s.Alone := by
  induction h with
  | refl =>
    refine ⟨fun q => ⟨fun hq => ?_, nofun⟩, nofun⟩
    simp only [Sched.state, start, Signals.start] at hq
    split at hq <;> cases hq
  | step _ hs ih => exact ih.step hs

theorem Waits.lt (h : Waits s p l s') (hp : p < nproc) : s'.count < s.count + nproc := by
  by_contra hround
  have hturn := h.turn (s.count + (p + nproc - s.count % nproc) % nproc)
  unfold nproc at *
  exact hturn (by omega) (by omega) (by omega)

/-- The scheduler leaves a slot behind that is not the one of `p`. -/
theorem Waits.next (h : Waits s p l s1) (hslot : s1.slot ≠ p)
    (halone : (⟨y, none, s1.count + 1⟩ : Sched).Alone) (hp : (y.tasks p).state = .runnable) :
    Waits s p l ⟨y, none, s1.count + 1⟩ := by
  refine ⟨halone, hp, Nat.le_succ_of_le h.le, fun t hge hlt => ?_, fun q hq => ?_, h.nodup⟩
  · rcases Nat.lt_succ_iff_lt_or_eq.1 hlt with hlt | rfl
    · exact h.turn t hge hlt
    · exact hslot
  · obtain ⟨t, hge, heq, hle⟩ := h.past q hq
    exact ⟨t, hge, heq, .inl (show t < s1.count + 1 by omega)⟩

/-- A process that waits has been run, or still waits with its turn nearer. -/
theorem Waits.step (h : Waits s p l s1) (hp : p < nproc) (hs : s1.step a = some (s2, r)) :
    p ∈ r.toList ++ l ∨ Waits s p (r.toList ++ l) s2 := by
  have halone := h.alone.step hs
  rcases Sched.step_cases hs with
    ⟨hnone, -, rfl, y, x, -, ht, rfl⟩ | ⟨-, hnot, rfl, rfl⟩ | ⟨y, rfl, ⟨hkeeps, rfl⟩ | ⟨hleaves, rfl⟩⟩
  · by_cases e : s1.slot = p
    · exact .inl (by simp [e])
    refine .inr ⟨halone, ?_, h.le, h.turn, fun q hq => ?_, List.nodup_cons.2 ⟨fun hmem => ?_, h.nodup⟩⟩
    · unfold Sched.state
      rw [ht, update_of_ne (Ne.symm e)]
      exact h.runnable
    · rcases List.mem_cons.1 hq with rfl | hq
      · exact ⟨s1.count, h.le, rfl, .inr ⟨rfl, nofun⟩⟩
      · obtain ⟨t, hge, heq, hlt⟩ := h.past q hq
        exact ⟨t, hge, heq, hlt.imp_right fun hc => absurd hnone hc.2⟩
    · -- a slot comes again after a whole round, in which it is the turn of `p`
      obtain ⟨t, hge, heq, hlt⟩ := h.past _ hmem
      have hlt := hlt.resolve_right fun hc => hc.2 hnone
      have hround := h.lt hp
      unfold Sched.slot nproc at *
      omega
  · exact .inr (h.next (fun e => hnot (e ▸ h.runnable)) halone h.runnable)
  · exact .inr ⟨halone, (hkeeps p).2 h.runnable, h.le, h.turn, h.past, h.nodup⟩
  · refine .inr (h.next (fun e => ?_) halone (hleaves.ready h.runnable))
    -- the process that leaves is the one at the slot
    obtain ⟨q, -, hq, -⟩ := hleaves
    have hslot := h.alone.slot q ((h.alone.iff q).1 hq)
    rw [hslot, e] at hq
    cases hq.symm.trans h.runnable

/-- **Waiting is bounded**: until a process that is `RUNNABLE` is run, it stays so, the scheduler
leaves fewer than `NPROC` slots behind, and no process is run twice. -/
theorem runnable_in_turn (h0 : Run start l0 s) (h : Run s l s') (hp : p < nproc)
    (hrun : s.state p = .runnable) :
    p ∈ l ∨ s'.state p = .runnable ∧ s'.count < s.count + nproc ∧ l.Nodup := by
  have hwaits : p ∈ l ∨ Waits s p l s' := by
    induction h with
    | refl =>
      exact .inr ⟨h0.alone, hrun, Nat.le_refl _, fun t hge hlt => absurd hlt (Nat.not_lt.2 hge), nofun, .nil⟩
    | step _ hs ih =>
      rcases ih with hmem | ih
      · exact .inl (List.mem_append_right _ hmem)
      · exact ih.step hp hs
  exact hwaits.imp_right fun hw => ⟨hw.runnable, hw.lt hp, hw.nodup⟩

end

/-- The first process forks twice and yields; the children run in turn, and yield. -/
theorem runnable_in_turn_small : ∃ s s', Run start [0] s ∧ s.state 0 = .runnable ∧ Run s [2, 1] s' ∧
    (0 ∈ [2, 1] ∨ s'.state 0 = .runnable ∧ s'.count < s.count + nproc ∧ [2, 1].Nodup) := by
  obtain ⟨s, h0, hs, s', h⟩ : ∃ s, Run start [0] s ∧ s.state 0 = .runnable ∧ ∃ s', Run s [2, 1] s' := by
    refine ⟨_, Run.refl |>.step (a := .look) (r := some 0) rfl |>.step (a := .event (.fork 0)) (r := none) rfl
      |>.step (a := .event (.fork 0)) (r := none) rfl |>.step (a := .event (.yield 0)) (r := none) rfl, rfl, ?_⟩
    exact ⟨_, .step (l := [2, 1]) (a := .event (.yield 2)) (r := none) (.step (l := [1]) (a := .look) (r := some 2)
      (.step (l := [1]) (a := .event (.yield 1)) (r := none) (.step (l := []) (a := .look) (r := some 1)
        .refl rfl) rfl) rfl) rfl⟩
  exact ⟨s, s', h0, hs, h, runnable_in_turn h0 h (by decide) hs⟩

end Slopix.Kernel.Scheduler
