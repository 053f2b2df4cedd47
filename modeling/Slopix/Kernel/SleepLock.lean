import Slopix.Kernel.State

/-!
# Sleep locks

`sleep_lock` and `sleep_unlock` of `kernel/sync.c` and what they use of `kernel/proc.c` and
`kernel/timer.c`, one instruction at a time: any number of processes use one lock, on one processor
with an interrupt mask. The timer interrupt preempts the current process at every instant at which
interrupts are enabled, and the scheduler picks any process that is `RUNNABLE`.

What a process does outside of the two calls is arbitrary: it sets the mask, sleeps elsewhere, stops
or ends. Anything may wake a sleeping process, as `proc_signal` does.
-/

namespace Slopix.Kernel.SleepLock

open Kernel Function Option Or

/-- The next instruction of a process: it is outside of the two calls, in `sleep_lock` and the
`proc_wait_nointr` inside of it, between the two calls, or in `sleep_unlock`. -/
inductive Point where
  | outside
  | lockDisable
  | lockTest
  | waitEnable
  | waitChan
  | waitState
  | waitSched
  | waitClear
  | waitDisable
  | lockTake
  | lockEnable
  | holding
  | unlockDisable
  | unlockTest
  | unlockFree
  | unlockWake
  | unlockEnable
  | panicked
deriving DecidableEq, Repr

/-- The context switch in which a process that does not run is: the one of `proc_yield` inside of the
timer interrupt, or another one. -/
inductive Park where
  | yield
  | sched
deriving DecidableEq, Repr

/-- What a process sleeps on. -/
inductive Chan where
  | lock
  | other (addr : Nat)
deriving DecidableEq, Repr

/-- A process; `park` is `none` for the current one. -/
structure Task where
  state : ProcState
  chan : Option Chan
  point : Point
  park : Option Park

/-- The lock, the process table, the current process, and whether interrupts are enabled. -/
structure Sys (ι : Type) where
  locked : Bool
  tasks : ι → Task
  current : Option ι
  irq : Bool

section

variable {ι : Type} [DecidableEq ι]

/-- A change of one process. -/
def Sys.put (s : Sys ι) (p : ι) (x : Task) : Sys ι := { s with tasks := Function.update s.tasks p x }

/-- A process goes to another instruction. -/
def Sys.goto (s : Sys ι) (p : ι) (point : Point) : Sys ι :=
  s.put p { s.tasks p with point := point }

@[simp] theorem Sys.goto_locked (s : Sys ι) (p : ι) (point : Point) :
    (s.goto p point).locked = s.locked := rfl

@[simp] theorem Sys.goto_irq (s : Sys ι) (p : ι) (point : Point) :
    (s.goto p point).irq = s.irq := rfl

/-- `proc_wakeup(lk)`. -/
def Sys.procWakeup (s : Sys ι) : Sys ι :=
  { s with
    tasks := fun p =>
      if (s.tasks p).state = .sleeping ∧ (s.tasks p).chan = some .lock then
        { s.tasks p with state := .runnable }
      else s.tasks p }

/-- The context switch of the current process to the scheduler, which enables interrupts. -/
def Sys.switch (s : Sys ι) (p : ι) (x : Task) (park : Park) : Sys ι :=
  { s.put p { x with park := some park } with current := none, irq := true }

/-- The current process runs one instruction of the two calls. -/
def Sys.advance (s : Sys ι) (p : ι) : Sys ι :=
  match (s.tasks p).point with
  | .outside => s.goto p .lockDisable
  -- sleep_lock
  | .lockDisable => { s.goto p .lockTest with irq := false }
  | .lockTest => s.goto p (if s.locked then .waitEnable else .lockTake)
  | .waitEnable => { s.goto p .waitChan with irq := true }
  -- proc_wait_nointr
  | .waitChan => s.put p { s.tasks p with chan := some .lock, point := .waitState }
  | .waitState => s.put p { s.tasks p with state := .sleeping, point := .waitSched }
  | .waitSched => s.switch p { s.tasks p with point := .waitClear } .sched
  | .waitClear => s.put p { s.tasks p with chan := none, point := .waitDisable }
  | .waitDisable => { s.goto p .lockTest with irq := false }
  | .lockTake => { s.goto p .lockEnable with locked := true }
  | .lockEnable => { s.goto p .holding with irq := true }
  | .holding => s.goto p .unlockDisable
  -- sleep_unlock
  | .unlockDisable => { s.goto p .unlockTest with irq := false }
  | .unlockTest => s.goto p (if s.locked then .unlockFree else .panicked)
  | .unlockFree => { s.goto p .unlockWake with locked := false }
  | .unlockWake => (s.goto p .unlockEnable).procWakeup
  | .unlockEnable => { s.goto p .outside with irq := true }
  | .panicked => s

/-- The two places where a process runs other code. -/
def Point.free (point : Point) : Bool := point == .outside || point == .holding

/-- What can happen next. -/
inductive Event (ι : Type) where
  /-- The current process runs its next instruction of the two calls. -/
  | run
  /-- The current process runs other code, which leaves the interrupt mask like this. -/
  | work (irq : Bool)
  /-- The current process calls `proc_sched` in other code. -/
  | leave (state : ProcState) (chan : Option Nat)
  /-- The timer interrupt. -/
  | tick
  /-- The scheduler switches to a process. -/
  | pick (p : ι)
  /-- A sleeping process is woken by something else. -/
  | wake (p : ι)
  /-- The state of a process that waits in other code changes. -/
  | alter (p : ι) (state : ProcState)

/-- What an event does, when it can happen. -/
def step (s : Sys ι) : Event ι → Option (Sys ι)
  | .run => s.current.map s.advance
  | .work irq =>
    match s.current with
    | some p => if (s.tasks p).point.free then some { s with irq := irq } else none
    | none => none
  | .leave state chan =>
    match s.current with
    | some p =>
      if (s.tasks p).point.free then
        some (s.switch p { s.tasks p with state := state, chan := chan.map .other } .sched)
      else none
    | none => none
  | .tick =>
    match s.current with
    | some p =>
      if s.irq then some (s.switch p { s.tasks p with state := .runnable } .yield) else none
    | none => none
  | .pick p =>
    -- A process that was interrupted goes on with interrupts enabled, any other with them masked.
    if s.current = none ∧ (s.tasks p).state = .runnable then
      some { s.put p { s.tasks p with state := .running, park := none } with
        current := some p
        irq := (s.tasks p).park == some .yield }
    else none
  | .wake p =>
    if (s.tasks p).state = .sleeping then
      some (s.put p { s.tasks p with state := .runnable })
    else none
  | .alter p state =>
    if (s.tasks p).point.free ∧ (s.tasks p).park = some .sched ∧ state ≠ .running then
      some (s.put p { s.tasks p with state := state })
    else none

/-- Nobody uses the lock yet. -/
def Start (s : Sys ι) : Prop :=
  s.locked = false ∧ s.current = none ∧ s.irq = true ∧
    ∀ p, (s.tasks p).point = .outside ∧ (s.tasks p).park = some .sched

/-- What a run reaches whose steps all meet a condition. -/
inductive Reach (ok : Sys ι → Event ι → Prop) : Sys ι → Prop where
  | start {s : Sys ι} (h : Start s) : Reach ok s
  | step {s s' : Sys ι} {e : Event ι} (h : Reach ok s) (hok : ok s e) (hs : step s e = some s') :
      Reach ok s'

/-- A run from `s` on. -/
def runFrom (s : Sys ι) : List (Event ι) → Option (Sys ι)
  | [] => some s
  | e :: es => (step s e).bind fun s' => runFrom s' es

end

/-! ## What is claimed -/

/-- The process is between the return of its `sleep_lock` and its `sleep_unlock`. -/
def Task.Holds (x : Task) : Prop := x.point = .holding

/-- The process is in the `proc_wait_nointr` of `sleep_lock`. -/
def Task.Waits (x : Task) : Prop :=
  x.point = .waitChan ∨ x.point = .waitState ∨ x.point = .waitSched ∨ x.point = .waitClear

/-- A process sleeps in `sleep_lock` and the lock is free: nobody will wake it. While a process is in
the masked instructions of `sleep_unlock` from `lk->locked = 0` to `proc_wakeup`, no other one runs. -/
def Sys.Lost {ι : Type} (s : Sys ι) (p : ι) : Prop :=
  (s.tasks p).Waits ∧ (s.tasks p).state = .sleeping ∧ s.locked = false ∧
    ∀ q, (s.tasks q).point ≠ .unlockWake

/-- No process stands between its test of the lock, which found it taken, and its
`state = SLEEPING` when another one frees the lock. -/
def Unwatched {ι : Type} (s : Sys ι) : Event ι → Prop
  | .run => ∀ p, s.current = some p → (s.tasks p).point = .unlockFree →
      ∀ q, (s.tasks q).point ≠ .waitChan ∧ (s.tasks q).point ≠ .waitState
  | _ => True

/-! ## The invariant -/

/-- The instructions that run with interrupts masked. -/
def Point.masked : Point → Bool
  | .lockTest | .waitEnable | .lockTake | .lockEnable => true
  | .unlockTest | .unlockFree | .unlockWake | .unlockEnable => true
  | .panicked => true
  | _ => false

/-- From `lk->locked = 1` to `lk->locked = 0`. -/
def Point.owns : Point → Bool
  | .lockEnable | .holding | .unlockDisable | .unlockTest | .unlockFree => true
  | _ => false

/-- From the test that found the lock taken to `state = SLEEPING`. -/
def Point.watches : Point → Bool
  | .waitEnable | .waitChan | .waitState => true
  | _ => false

/-- What holds of one process in every run: of the current one or of another one. -/
structure Fits (current : Prop) (irq locked : Bool) (x : Task) : Prop where
  park : x.park = none ↔ current
  masked : x.point.masked = true → current ∧ irq = false
  running : x.park = none → x.point ≠ .waitSched → x.state = .running
  sleeping : x.state = .sleeping →
    x.point.free = true ∨ x.point = .waitSched ∨ x.point = .waitClear
  ready : x.park ≠ none → x.point.watches = true → x.state = .runnable
  chan : x.point = .waitState ∨ x.point = .waitSched ∨ x.point = .waitClear →
    x.chan = some .lock
  owner : x.point.owns = true → locked = true
  take : x.point = .lockTake → locked = false
  calm : x.point ≠ .panicked

/-- What holds in every run. -/
structure Inv {ι : Type} (s : Sys ι) : Prop where
  fits : ∀ p, Fits (s.current = some p) s.irq s.locked (s.tasks p)
  unique : ∀ p q, (s.tasks p).point.owns = true → (s.tasks q).point.owns = true → p = q

section

variable {ι : Type} [DecidableEq ι] {s s' : Sys ι} {p : ι} {point : Point}

theorem Point.masked_of_free (h : point.free = true) : point.masked = false := by
  cases point <;> first | rfl | cases h

theorem Point.watches_of_free (h : point.free = true) : point.watches = false := by
  cases point <;> first | rfl | cases h

/-- A process that does not run does not depend on the mask, and on the lock only if it owns it. -/
theorem Fits.other {cur cur' : Prop} {irq irq' locked locked' : Bool} {x : Task}
    (h : Fits cur irq locked x) (hcur : ¬ cur) (hcur' : ¬ cur')
    (howner : x.point.owns = true → locked' = true) : Fits cur' irq' locked' x where
  park := by rw [h.park, iff_false_right hcur']; exact hcur
  masked hm := absurd (h.masked hm).1 hcur
  running := h.running
  sleeping := h.sleeping
  ready := h.ready
  chan := h.chan
  owner := howner
  take ht := absurd (h.masked (by rw [ht]; rfl)).1 hcur
  calm := h.calm

/-- The process that runs, or the one that is picked, changes, and with it the mask and the lock. -/
theorem Inv.put {x : Task} {current : Option ι} {irq locked : Bool} (h : Inv s)
    (hp : s.current = none ∨ s.current = some p) (hcurrent : current = none ∨ current = some p)
    (hx : Fits (current = some p) irq locked x)
    (hlock : (locked = s.locked ∧ (x.point.owns = true → (s.tasks p).point.owns = true)) ∨
      (s.tasks p).point.owns = true ∨ s.locked = false) :
    Inv ({ s.put p x with current := current, irq := irq, locked := locked } : Sys ι) := by
  have hother : ∀ {c : Option ι} {q : ι}, c = none ∨ c = some p → q ≠ p → ¬ c = some q := by
    rintro c q (rfl | rfl) hq hc
    · cases hc
    · exact hq (some.inj hc).symm
  -- Another process that owns the lock keeps the lock as it is.
  have hkept : ∀ q, q ≠ p → (s.tasks q).point.owns = true →
      locked = true ∧ ¬ x.point.owns = true := by
    intro q hq hown
    rcases hlock with ⟨rfl, hx'⟩ | hown' | hfree
    · exact ⟨(h.fits q).owner hown, fun hxo => hq (h.unique q p hown (hx' hxo))⟩
    · exact absurd (h.unique q p hown hown') hq
    · rw [(h.fits q).owner hown] at hfree
      cases hfree
  constructor
  · intro q
    by_cases hq : q = p
    · subst hq
      dsimp only [Sys.put]
      rw [update_self]
      exact hx
    · dsimp only [Sys.put]
      rw [update_of_ne hq]
      exact (h.fits q).other (hother hp hq) (hother hcurrent hq) fun hown => (hkept q hq hown).1
  intro q r hqown hrown
  dsimp only [Sys.put] at hqown hrown
  by_cases hq : q = p
  · by_cases hr : r = p
    · rw [hq, hr]
    · rw [hq, update_self] at hqown
      rw [update_of_ne hr] at hrown
      exact absurd hqown (hkept r hr hrown).2
  rw [update_of_ne hq] at hqown
  by_cases hr : r = p
  · rw [hr, update_self] at hrown
    exact absurd hrown (hkept q hq hqown).2
  · rw [update_of_ne hr] at hrown
    exact h.unique q r hqown hrown

/-- A process that does not run changes its state, and not to `SLEEPING` inside of the calls. -/
theorem Inv.alter {state : ProcState} (h : Inv s)
    (hrunning : (s.tasks p).park = none → (s.tasks p).point = .waitSched)
    (hsleeping : state = .sleeping → (s.tasks p).point.free = true)
    (hready : (s.tasks p).point.watches = true → state = .runnable) :
    Inv (s.put p { s.tasks p with state := state }) := by
  have htask : ∀ q, ((s.put p { s.tasks p with state := state }).tasks q).point =
      (s.tasks q).point := by
    intro q
    dsimp only [Sys.put]
    rw [update_apply]
    split
    · rename_i hq
      rw [hq]
    · rfl
  constructor
  · intro q
    by_cases hq : q = p
    · subst hq
      dsimp only [Sys.put]
      rw [update_self]
      exact { h.fits q with
        running := fun hpark hpoint => absurd (hrunning hpark) hpoint
        sleeping := fun hs => inl (hsleeping hs)
        ready := fun _ => hready }
    · dsimp only [Sys.put]
      rw [update_of_ne hq]
      exact h.fits q
  · intro q r hqown hrown
    rw [htask] at hqown hrown
    exact h.unique q r hqown hrown

omit [DecidableEq ι] in

/-- A wakeup keeps the invariant. -/
theorem Inv.procWakeup (h : Inv s) : Inv s.procWakeup := by
  have hpoint : ∀ q, (s.procWakeup.tasks q).point = (s.tasks q).point := by
    intro q
    dsimp only [Sys.procWakeup]
    split
    · rfl
    · rfl
  constructor
  · intro q
    dsimp only [Sys.procWakeup]
    split
    · rename_i hq
      refine { h.fits q with
        running := fun hpark hsched => ?_
        sleeping := fun hs => by cases hs
        ready := fun _ _ => rfl }
      have hrunning := (h.fits q).running hpark hsched
      rw [hq.1] at hrunning
      cases hrunning
    · exact h.fits q
  · intro q r hqown hrown
    rw [hpoint] at hqown hrown
    exact h.unique q r hqown hrown

/-- The current process goes to another instruction, not one of `proc_wait_nointr` behind the store
to `chan`. -/
theorem Inv.goto {irq locked : Bool} (h : Inv s) (hp : s.current = some p)
    (hsched : (s.tasks p).point ≠ .waitSched)
    (hpoint : point ≠ .waitState ∧ point ≠ .waitSched ∧ point ≠ .waitClear ∧ point ≠ .panicked)
    (hmasked : point.masked = true → irq = false) (howner : point.owns = true → locked = true)
    (htake : point = .lockTake → locked = false)
    (hlock : (locked = s.locked ∧ (point.owns = true → (s.tasks p).point.owns = true)) ∨
      (s.tasks p).point.owns = true ∨ s.locked = false) :
    Inv ({ s.goto p point with irq := irq, locked := locked } : Sys ι) := by
  have hfits := h.fits p
  have hrunning := hfits.running (hfits.park.2 hp) hsched
  refine h.put (inr hp) (inr hp) ?_ hlock
  constructor
  · exact hfits.park
  · exact fun hm => ⟨hp, hmasked hm⟩
  · exact fun _ _ => hrunning
  · intro hs
    cases hrunning.symm.trans hs
  · exact fun hn _ => absurd (hfits.park.2 hp) hn
  · rintro (hc | hc | hc)
    · exact absurd hc hpoint.1
    · exact absurd hc hpoint.2.1
    · exact absurd hc hpoint.2.2.1
  · exact howner
  · exact htake
  · exact hpoint.2.2.2

/-- The current process goes on by one instruction. -/
theorem Inv.advance (h : Inv s) (hp : s.current = some p) : Inv (s.advance p) := by
  have hfits := h.fits p
  have hnone := hfits.park.2 hp
  cases hpoint : (s.tasks p).point <;> simp only [Sys.advance, hpoint]
  case outside => apply h.goto hp <;> simp [hpoint, Point.masked, Point.owns]
  case lockDisable => apply h.goto hp <;> simp [hpoint, Point.masked, Point.owns]
  case lockTest =>
      -- The test is masked, so the lock is still free when the process takes it.
      have hirq := (hfits.masked (by rw [hpoint]; rfl)).2
      cases hlocked : s.locked with
      | true => apply h.goto hp <;> simp [hpoint, hirq, hlocked, Point.masked, Point.owns]
      | false => apply h.goto hp <;> simp [hpoint, hirq, hlocked, Point.masked, Point.owns]
  case waitEnable => apply h.goto hp <;> simp [hpoint, Point.masked, Point.owns]
  case waitChan =>
      have hrunning := hfits.running hnone (by rw [hpoint]; decide)
      refine h.put (inr hp) (inr hp) ?_ (inl ⟨rfl, fun e => (by cases e)⟩)
      constructor <;> simp [hp, hnone, hrunning, Point.masked, Point.owns]
  case waitState =>
      have hchan := hfits.chan (inl hpoint)
      refine h.put (inr hp) (inr hp) ?_ (inl ⟨rfl, fun e => (by cases e)⟩)
      constructor <;> simp [hp, hnone, hchan, Point.masked, Point.owns]
  case waitSched =>
      have hchan := hfits.chan (inr (inl hpoint))
      refine h.put (inr hp) (inl rfl) ?_ (inl ⟨rfl, fun e => (by cases e)⟩)
      constructor <;> simp [hchan, Point.masked, Point.owns, Point.watches]
  case waitClear =>
      have hrunning := hfits.running hnone (by rw [hpoint]; decide)
      refine h.put (inr hp) (inr hp) ?_ (inl ⟨rfl, fun e => (by cases e)⟩)
      constructor <;> simp [hp, hnone, hrunning, Point.masked, Point.owns]
  case waitDisable => apply h.goto hp <;> simp [hpoint, Point.masked, Point.owns]
  case lockTake =>
      have hirq := (hfits.masked (by rw [hpoint]; rfl)).2
      have hfree := hfits.take hpoint
      apply h.goto hp <;> simp [hpoint, hirq, hfree, Point.masked, Point.owns]
  case lockEnable =>
      have hlocked := hfits.owner (by rw [hpoint]; rfl)
      apply h.goto hp <;> simp [hpoint, hlocked, Point.masked, Point.owns]
  case holding =>
      have hlocked := hfits.owner (by rw [hpoint]; rfl)
      apply h.goto hp <;> simp [hpoint, hlocked, Point.masked, Point.owns]
  case unlockDisable =>
      have hlocked := hfits.owner (by rw [hpoint]; rfl)
      apply h.goto hp <;> simp [hpoint, hlocked, Point.masked, Point.owns]
  case unlockTest =>
      -- The process owns the lock, so `sleep_unlock` does not panic.
      have hlocked := hfits.owner (by rw [hpoint]; rfl)
      have hirq := (hfits.masked (by rw [hpoint]; rfl)).2
      apply h.goto hp <;> simp [hpoint, hlocked, hirq, Point.masked, Point.owns]
  case unlockFree =>
      have hirq := (hfits.masked (by rw [hpoint]; rfl)).2
      apply h.goto hp <;> simp [hpoint, hirq, Point.masked, Point.owns]
  case unlockWake =>
      have hirq := (hfits.masked (by rw [hpoint]; rfl)).2
      apply Inv.procWakeup
      apply h.goto hp <;> simp [hpoint, hirq, Point.masked, Point.owns]
  case unlockEnable => apply h.goto hp <;> simp [hpoint, Point.masked, Point.owns]
  case panicked => exact absurd hpoint hfits.calm

/-- The current process is switched out, outside of the instructions with interrupts masked. -/
theorem Inv.switch (h : Inv s) (hp : s.current = some p) {x : Task} {park : Park}
    (hpoint : x.point = (s.tasks p).point) (hunmasked : x.point.masked = false)
    (hsleeping : x.state = .sleeping → x.point.free = true)
    (hready : x.point.free = true ∨ x.state = .runnable)
    (hchan : x.point.free = true ∨ x.chan = (s.tasks p).chan) : Inv (s.switch p x park) := by
  have hfits := h.fits p
  refine h.put (inr hp) (inl rfl) ?_ (inl ⟨rfl, fun ho => hpoint ▸ ho⟩)
  constructor
  · exact ⟨fun e => (by cases e), fun e => (by cases e)⟩
  · intro hm
    rw [show x.point.masked = true from hm] at hunmasked
    cases hunmasked
  · exact fun e => by cases e
  · exact fun hs => inl (hsleeping hs)
  · intro _ hw
    refine hready.resolve_left fun hf => ?_
    cases (Point.watches_of_free hf).symm.trans hw
  · intro hc
    rcases hchan with hfree | hchan
    · rcases hc with hc | hc | hc <;> (rw [show x.point = _ from hc] at hfree; cases hfree)
    · rw [hpoint] at hc
      exact hchan.trans (hfits.chan hc)
  · exact fun ho => hfits.owner (hpoint ▸ ho)
  · exact fun ht => hfits.take (hpoint.symm.trans ht)
  · exact fun hc => hfits.calm (hpoint.symm.trans hc)

/-- Every event keeps the invariant. -/
theorem Inv.step {e : Event ι} (h : Inv s) (hs : step s e = some s') : Inv s' := by
  cases e with
  | run =>
    rw [SleepLock.step, map_eq_some_iff] at hs
    obtain ⟨p, hp, rfl⟩ := hs
    exact h.advance hp
  | work irq =>
    rw [SleepLock.step] at hs
    split at hs
    · rename_i p hp
      split at hs
      · rename_i hfree
        obtain rfl := some.inj hs
        -- The mask matters only to masked instructions, and other code is not one.
        refine ⟨fun q => { h.fits q with masked := fun hq => ?_ }, h.unique⟩
        obtain rfl : p = q := some.inj (hp.symm.trans ((h.fits q).masked hq).1)
        rw [Point.masked_of_free hfree] at hq
        cases hq
      · cases hs
    · cases hs
  | leave state chan =>
    rw [SleepLock.step] at hs
    split at hs
    · rename_i p hp
      split at hs
      · rename_i hfree
        obtain rfl := some.inj hs
        exact h.switch hp rfl (Point.masked_of_free hfree) (fun _ => hfree) (inl hfree)
          (inl hfree)
      · cases hs
    · cases hs
  | tick =>
    rw [SleepLock.step] at hs
    split at hs
    · rename_i p hp
      split at hs
      · rename_i hirq
        obtain rfl := some.inj hs
        refine h.switch hp rfl ?_ (fun e => (by cases e)) (inr rfl) (inr rfl)
        rw [Bool.eq_false_iff]
        intro hmasked
        rw [((h.fits p).masked hmasked).2] at hirq
        cases hirq
      · cases hs
    · cases hs
  | pick p =>
    rw [SleepLock.step] at hs
    split at hs
    · rename_i hpick
      obtain rfl := some.inj hs
      have hfits := h.fits p
      refine h.put (inl hpick.1) (inr rfl) ?_ (inl ⟨rfl, fun ho => ho⟩)
      exact { hfits with
        park := ⟨fun _ => rfl, fun _ => rfl⟩
        masked := fun hm => absurd ((hfits.masked hm).1.symm.trans hpick.1) (by simp)
        running := fun _ _ => rfl
        sleeping := fun e => by cases e
        ready := fun hn _ => absurd rfl hn }
    · cases hs
  | wake p =>
    rw [SleepLock.step] at hs
    split at hs
    · rename_i hsleeping
      obtain rfl := some.inj hs
      refine h.alter (fun hpark => ?_) (fun e => (by cases e)) fun _ => rfl
      by_contra hsched
      cases hsleeping.symm.trans ((h.fits p).running hpark hsched)
    · cases hs
  | alter p state =>
    rw [SleepLock.step] at hs
    split at hs
    · rename_i hfree
      obtain rfl := some.inj hs
      refine h.alter (fun hpark => ?_) (fun _ => hfree.1) fun hw => ?_
      · cases hpark.symm.trans hfree.2.1
      · rw [Point.watches_of_free hfree.1] at hw
        cases hw
    · cases hs

omit [DecidableEq ι] in
theorem Start.inv (h : Start s) : Inv s := by
  obtain ⟨hlocked, hcurrent, hirq, htasks⟩ := h
  constructor
  · intro p
    obtain ⟨hpoint, hpark⟩ := htasks p
    constructor <;> simp [hpoint, hpark, hcurrent, Point.masked, Point.owns, Point.free, Point.watches]
  · intro p q hp
    rw [(htasks p).1] at hp
    cases hp

theorem Reach.inv {ok : Sys ι → Event ι → Prop} (h : Reach ok s) : Inv s := by
  induction h with
  | start hs => exact hs.inv
  | step _ _ hs ih => exact ih.step hs

end

/-! ## Lost wakeups -/

/-- Behind `state = SLEEPING` in `proc_wait_nointr`. -/
def Point.slept : Point → Bool
  | .waitSched | .waitClear => true
  | _ => false

/-- Whoever is about to sleep has the lock taken against it, and whoever sleeps will be woken. -/
structure Heard {ι : Type} (s : Sys ι) : Prop where
  held : ∀ p, (s.tasks p).point.watches = true → s.locked = true
  heard : ∀ p, (s.tasks p).state = .sleeping → (s.tasks p).point.slept = true →
    s.locked = true ∨ ∃ q, (s.tasks q).point = .unlockWake

section

variable {ι : Type} [DecidableEq ι] {s s' : Sys ι} {p : ι}

/-- A process that watches the lock will hear of its release. -/
theorem Heard.put {x : Task} {current : Option ι} {irq locked : Bool} (h : Heard s)
    (hheld : x.point.watches = true → locked = true)
    (hheard : x.state = .sleeping → x.point.slept = true → locked = true)
    (hlocked : s.locked = true → locked = true ∨
      x.point = .unlockWake ∧ ∀ q, (s.tasks q).point.watches = false)
    (hwake : (s.tasks p).point = .unlockWake → x.point = .unlockWake) :
    Heard ({ s.put p x with current := current, irq := irq, locked := locked } : Sys ι) := by
  constructor
  · intro q hq
    dsimp only [Sys.put] at hq
    by_cases hqp : q = p
    · rw [hqp, update_self] at hq
      exact hheld hq
    rw [update_of_ne hqp] at hq
    rcases hlocked (h.held q hq) with hl | ⟨-, hnone⟩
    · exact hl
    · rw [hnone q] at hq
      cases hq
  intro q hs hq
  dsimp only [Sys.put] at hs hq
  by_cases hqp : q = p
  · rw [hqp, update_self] at hs hq
    exact inl (hheard hs hq)
  rw [update_of_ne hqp] at hs hq
  -- The process that is about to call `proc_wakeup` is this one or as before.
  have hself : x.point = .unlockWake → ∃ r, (Function.update s.tasks p x r).point = .unlockWake :=
    fun hx => ⟨p, by rw [update_self, hx]⟩
  rcases h.heard q hs hq with hl | ⟨r, hr⟩
  · exact (hlocked hl).imp id fun hx => hself hx.1
  · by_cases hrp : r = p
    · exact inr (hself (hwake (hrp ▸ hr)))
    · exact inr ⟨r, by dsimp only [Sys.put]; rw [update_of_ne hrp, hr]⟩

/-- The current process goes to another instruction and does not free the lock. -/
theorem Heard.goto {point : Point} {irq locked : Bool} (h : Heard s)
    (hheld : point.watches = true → locked = true) (hslept : point.slept = false)
    (hlocked : s.locked = true → locked = true) (hwake : (s.tasks p).point ≠ .unlockWake) :
    Heard ({ s.goto p point with irq := irq, locked := locked } : Sys ι) := by
  refine h.put hheld (fun _ hs => ?_) (fun hl => inl (hlocked hl)) fun hw => absurd hw hwake
  rw [show point.slept = true from hs] at hslept
  cases hslept

omit [DecidableEq ι] in

/-- The wakeup reaches every sleeper. -/
theorem Heard.procWakeup (hinv : Inv s) (hheld : ∀ p, (s.tasks p).point.watches = true →
    s.locked = true) : Heard s.procWakeup := by
  constructor
  · intro q hq
    refine hheld q ?_
    dsimp only [Sys.procWakeup] at hq
    split at hq
    · exact hq
    · exact hq
  intro q hs hq
  dsimp only [Sys.procWakeup] at hs hq
  split at hs
  · cases hs
  rename_i hasleep
  rw [if_neg hasleep] at hq
  refine absurd ⟨hs, (hinv.fits q).chan ?_⟩ hasleep
  cases hpoint : (s.tasks q).point <;> rw [hpoint] at hq <;> simp [Point.slept] at hq ⊢

/-- The current process goes on, with nobody between its check and its sleep. -/
theorem Heard.advance (h : Heard s) (hinv : Inv s) (hp : s.current = some p)
    (hok : Unwatched s .run) : Heard (s.advance p) := by
  have hfits := hinv.fits p
  have hnone := hfits.park.2 hp
  cases hpoint : (s.tasks p).point <;> simp only [Sys.advance, hpoint]
  case lockTest =>
      cases hlocked : s.locked with
      | true => apply h.goto <;> simp [hpoint, hlocked, Point.watches, Point.slept]
      | false => apply h.goto <;> simp [hpoint, hlocked, Point.watches, Point.slept]
  case waitEnable =>
      have hlocked := h.held p (by rw [hpoint]; rfl)
      apply h.goto <;> simp [hpoint, hlocked, Point.watches, Point.slept]
  case waitChan =>
      have hlocked := h.held p (by rw [hpoint]; rfl)
      apply h.put <;> simp [hpoint, hlocked, Point.watches, Point.slept]
  case waitState =>
      -- Here the process goes to sleep, and the lock is taken.
      have hlocked := h.held p (by rw [hpoint]; rfl)
      apply h.put <;> simp [hpoint, hlocked, Point.watches, Point.slept]
  case waitSched =>
      refine h.put (fun e => (by cases e)) (fun hs _ => ?_) inl fun hw => ?_
      · rcases h.heard p hs (by rw [hpoint]; rfl) with hl | ⟨q, hq⟩
        · exact hl
        -- Only the current process can be about to call `proc_wakeup`.
        obtain rfl : p = q := some.inj (hp.symm.trans ((hinv.fits q).masked (by rw [hq]; rfl)).1)
        cases hpoint.symm.trans hq
      · cases hpoint.symm.trans hw
  case waitClear =>
      have hrunning := hfits.running hnone (by rw [hpoint]; decide)
      apply h.put <;> simp [hpoint, hrunning, Point.watches, Point.slept]
  case unlockTest =>
      have hlocked := hfits.owner (by rw [hpoint]; rfl)
      apply h.goto <;> simp [hpoint, hlocked, Point.watches, Point.slept]
  case unlockFree =>
      refine h.put (fun e => (by cases e)) (fun _ e => (by cases e)) (fun _ => inr ⟨rfl, ?_⟩)
        fun _ => rfl
      intro q
      obtain ⟨hchan, hstate⟩ := hok p hp hpoint q
      cases hq : (s.tasks q).point <;> first | rfl | exact absurd hq hchan | exact absurd hq hstate | skip
      obtain rfl : p = q := some.inj (hp.symm.trans ((hinv.fits q).masked (by rw [hq]; rfl)).1)
      cases hpoint.symm.trans hq
  case unlockWake =>
      have hirq := (hfits.masked (by rw [hpoint]; rfl)).2
      refine Heard.procWakeup ?_ fun q hq => ?_
      · apply hinv.goto hp <;> simp [hpoint, hirq, Point.masked, Point.owns]
      by_cases hqp : q = p
      · dsimp only [Sys.goto, Sys.put] at hq
        rw [hqp, update_self] at hq
        cases hq
      · dsimp only [Sys.goto, Sys.put] at hq
        rw [update_of_ne hqp] at hq
        exact h.held q hq
  case panicked => exact absurd hpoint hfits.calm
  all_goals apply h.goto <;> simp [hpoint, Point.watches, Point.slept]

/-- Every step at which no lock is freed under a watching process keeps the wakeups. -/
theorem Heard.step {e : Event ι} (h : Heard s) (hinv : Inv s) (hok : Unwatched s e)
    (hs : step s e = some s') : Heard s' := by
  have hkeep : ∀ {p : ι} {x : Task} {current : Option ι} {irq : Bool},
      x.point = (s.tasks p).point → (x.state = .sleeping → x.point.slept = false) →
      Heard { s.put p x with current := current, irq := irq } := by
    intro p x current irq hpoint hstate
    refine h.put (fun hw => h.held p (hpoint ▸ hw)) (fun hs hslept => ?_) inl fun hw =>
      hpoint.trans hw
    rw [hstate hs] at hslept
    cases hslept
  have hfree : ∀ {point : Point}, point.free = true → point.slept = false := by
    intro point hf
    cases point <;> first | rfl | cases hf
  cases e with
  | run =>
    rw [SleepLock.step, map_eq_some_iff] at hs
    obtain ⟨p, hp, rfl⟩ := hs
    exact h.advance hinv hp hok
  | work irq =>
    rw [SleepLock.step] at hs
    split at hs
    · split at hs
      · obtain rfl := some.inj hs
        exact ⟨h.held, h.heard⟩
      · cases hs
    · cases hs
  | leave state chan =>
    rw [SleepLock.step] at hs
    split at hs
    · split at hs
      · rename_i hf
        obtain rfl := some.inj hs
        exact hkeep rfl fun _ => hfree hf
      · cases hs
    · cases hs
  | tick =>
    rw [SleepLock.step] at hs
    split at hs
    · split at hs
      · obtain rfl := some.inj hs
        exact hkeep rfl fun e => by cases e
      · cases hs
    · cases hs
  | pick p =>
    rw [SleepLock.step] at hs
    split at hs
    · obtain rfl := some.inj hs
      exact hkeep rfl fun e => by cases e
    · cases hs
  | wake p =>
    rw [SleepLock.step] at hs
    split at hs
    · obtain rfl := some.inj hs
      exact hkeep rfl fun e => by cases e
    · cases hs
  | alter p state =>
    rw [SleepLock.step] at hs
    split at hs
    · rename_i hf
      obtain rfl := some.inj hs
      exact hkeep rfl fun _ => hfree hf.1
    · cases hs

theorem Reach.heard (h : Reach Unwatched s) : Heard s := by
  induction h with
  | start hs =>
    constructor
    · intro p hp
      rw [(hs.2.2.2 p).1] at hp
      cases hp
    · intro p _ hp
      rw [(hs.2.2.2 p).1] at hp
      cases hp
  | step hreach hok hs ih => exact ih.step hreach.inv hok hs

omit [DecidableEq ι] in
/-- Nobody in `proc_wait_nointr` sleeps for a free lock. -/
theorem Heard.not_lost (h : Heard s) (hinv : Inv s) (p : ι) : ¬ s.Lost p := by
  rintro ⟨hwaits, hsleeping, hfree, hnone⟩
  have hslept : (s.tasks p).point.slept = true := by
    rcases (hinv.fits p).sleeping hsleeping with hf | hf | hf
    · rcases hwaits with hw | hw | hw | hw <;> (rw [hw] at hf; cases hf)
    · rw [hf]
      rfl
    · rw [hf]
      rfl
  rcases h.heard p hsleeping hslept with hl | ⟨q, hq⟩
  · rw [hl] at hfree
    cases hfree
  · exact hnone q hq

/-- A process that watched when the lock was freed goes to sleep, and nobody will wake it. -/
theorem lost_of_watch {q : ι} (hinv : Inv s) (hcurrent : s.current = none) (hfree : s.locked = false)
    (hready : (s.tasks q).state = .runnable)
    (hq : (s.tasks q).point = .waitChan ∨ (s.tasks q).point = .waitState) :
    ∃ es s', runFrom s es = some s' ∧ s'.Lost q := by
  have hnone : ∀ r, (s.tasks r).point ≠ .unlockWake := by
    intro r hr
    cases ((hinv.fits r).masked (by rw [hr]; rfl)).1.symm.trans hcurrent
  rcases hq with hq | hq
  · refine ⟨[.pick q, .run, .run], _, by
      simp [runFrom, step, hcurrent, hready, Sys.advance, Sys.put, hq]; rfl, ?_⟩
    refine ⟨inr (inr (inl (by simp))), by simp, hfree, fun r => ?_⟩
    by_cases hr : r = q
    · simp [hr]
    · simp [hr, hnone r]
  refine ⟨[.pick q, .run], _, by
    simp [runFrom, step, hcurrent, hready, Sys.advance, Sys.put, hq]; rfl, ?_⟩
  refine ⟨inr (inr (inl (by simp))), by simp, hfree, fun r => ?_⟩
  by_cases hr : r = q
  · simp [hr]
  · simp [hr, hnone r]

/-- The rest of a `sleep_unlock`, and the timer interrupt right behind it. -/
theorem unlock_run {q : ι} (hinv : Inv s) (hp : s.current = some p)
    (hpoint : (s.tasks p).point = .unlockWake) (hq : q ≠ p) (hstate : (s.tasks q).state ≠ .sleeping) :
    ∃ s', runFrom s [.run, .run, .tick] = some s' ∧ s'.current = none ∧ s'.locked = s.locked ∧
      s'.tasks q = s.tasks q := by
  have hrunning : (s.tasks p).state = .running :=
    (hinv.fits p).running ((hinv.fits p).park.2 hp) (by rw [hpoint]; decide)
  refine ⟨?s, ?_, ?_, ?_, ?_⟩
  rotate_left
  · simp [runFrom, step, hp, hrunning, Sys.advance, Sys.goto, Sys.put, Sys.procWakeup, Sys.switch, hpoint]
    rfl
  · rfl
  · rfl
  · simp [hq, hstate]

theorem runFrom_append {s : Sys ι} {es : List (Event ι)} (h : runFrom s es = some s')
    (fs : List (Event ι)) : runFrom s (es ++ fs) = runFrom s' fs := by
  induction es generalizing s with
  | nil =>
    obtain rfl := some.inj h
    rfl
  | cons e es ih =>
    rw [runFrom, bind_eq_some_iff] at h
    obtain ⟨t, ht, hrun⟩ := h
    rw [List.cons_append, runFrom, ht, bind_some, ih hrun]

theorem Inv.run {es : List (Event ι)} (h : Inv s) (hs : runFrom s es = some s') : Inv s' := by
  induction es generalizing s with
  | nil =>
    obtain rfl := some.inj hs
    exact h
  | cons e es ih =>
    rw [runFrom, bind_eq_some_iff] at hs
    obtain ⟨t, ht, hrun⟩ := hs
    exact ih (h.step ht) hrun

/-- When the lock is freed under a watching process, a run goes on to a lost wakeup. -/
theorem lost_of_watched {e : Event ι} (hinv : Inv s) (hs : step s e = some s')
    (hwatched : ¬ Unwatched s e) : ∃ es s'' q, runFrom s' es = some s'' ∧ s''.Lost q := by
  cases e with
  | run =>
    simp only [Unwatched, not_forall] at hwatched
    obtain ⟨p, hp, hpoint, q, hq⟩ := hwatched
    have hqpoint : (s.tasks q).point = .waitChan ∨ (s.tasks q).point = .waitState := by
      by_contra hc
      exact hq (not_or.1 hc)
    have hne : q ≠ p := by
      rintro rfl
      rcases hqpoint with hc | hc <;> cases hpoint.symm.trans hc
    have hready : (s.tasks q).state = .runnable := by
      apply (hinv.fits q).ready
      · intro hpark
        exact hne (some.inj (((hinv.fits q).park.1 hpark).symm.trans hp))
      · rcases hqpoint with hc | hc <;> (rw [hc]; rfl)
    have hinv' := hinv.step hs
    rw [SleepLock.step, hp, map_some] at hs
    obtain rfl := some.inj hs
    have hadvance : s.advance p = { s.goto p .unlockWake with locked := false } := by
      rw [Sys.advance, hpoint]
    have htask : (s.advance p).tasks q = s.tasks q := by
      rw [hadvance]
      exact update_of_ne hne ..
    obtain ⟨s1, hrun1, hcurrent, hfree, hsame⟩ := unlock_run (q := q) hinv'
      (by rw [hadvance]; exact hp) (by rw [hadvance]; simp [Sys.goto, Sys.put]) hne
      (by rw [htask, hready]; decide)
    rw [htask] at hsame
    obtain ⟨es, s2, hrun2, hlost⟩ := lost_of_watch (q := q) (hinv'.run hrun1) hcurrent
      (by rw [hfree, hadvance]) (by rw [hsame]; exact hready) (by rw [hsame]; exact hqpoint)
    exact ⟨_, s2, q, (runFrom_append hrun1 es).trans hrun2, hlost⟩
  | _ => exact absurd trivial hwatched

/-- Sleep locks: in every run at most one process is between its `sleep_lock` and its `sleep_unlock`.
In every run in which no process frees the lock while another one stands between its test of the lock
and its `state = SLEEPING`, no process sleeps in `sleep_lock` while the lock is free. And from the
first step that frees the lock so, a run goes on to a process that does. -/
theorem sleep_lock_discipline :
    (∀ s : Sys ι, Reach (fun _ _ => True) s → ∀ p q, (s.tasks p).Holds → (s.tasks q).Holds → p = q) ∧
    (∀ s : Sys ι, Reach Unwatched s → ∀ p, ¬ s.Lost p) ∧
    ∀ (s s' : Sys ι) (e : Event ι), Reach Unwatched s → step s e = some s' → ¬ Unwatched s e →
      ∃ es s'' q, runFrom s' es = some s'' ∧ s''.Lost q := by
  refine ⟨fun s hreach p q hp hq => ?_, fun s hreach => hreach.heard.not_lost hreach.inv,
    fun s s' e hreach hs hwatched => lost_of_watched hreach.inv hs hwatched⟩
  apply hreach.inv.unique p q
  · rw [show (s.tasks p).point = .holding from hp]
    rfl
  · rw [show (s.tasks q).point = .holding from hq]
    rfl

end

/-- Two processes, both `RUNNABLE`, and a free lock. -/
def pair : Sys Bool :=
  { locked := false
    tasks := fun _ => ⟨.runnable, none, .outside, some .sched⟩
    current := none
    irq := true }

theorem pair_start : Start pair := ⟨rfl, rfl, rfl, fun _ => ⟨rfl, rfl⟩⟩

/-- The first process takes the lock; the second one finds it taken and is preempted before
`state = SLEEPING`; the first one is about to free the lock. Up to here all is well, and then a
wakeup can be lost. -/
theorem sleep_lock_discipline_pair : ∃ s s' : Sys Bool, Reach Unwatched s ∧ s.locked = true ∧
    (∀ p q, (s.tasks p).Holds → (s.tasks q).Holds → p = q) ∧ (∀ p, ¬ s.Lost p) ∧
    step s .run = some s' ∧ ¬ Unwatched s .run ∧
    ∃ es s'' q, runFrom s' es = some s'' ∧ s''.Lost q := by
  have hrun : ∀ {s s' : Sys Bool} {e : Event Bool}, Reach Unwatched s → step s e = some s' →
      (∀ p, s.current = some p → (s.tasks p).point ≠ .unlockFree) → Reach Unwatched s' := by
    intro s s' e h hs hfree
    refine h.step ?_ hs
    cases e with
    | run => exact fun p hp hpoint => absurd hpoint (hfree p hp)
    | _ => trivial
  have hall : ∀ {s : Sys Bool}, Reach Unwatched s → Reach (fun _ _ => True) s := by
    intro s h
    induction h with
    | start hs => exact .start hs
    | step _ _ hs ih => exact ih.step trivial hs
  have h0 : Reach Unwatched pair := .start pair_start
  have h1 := hrun (e := .pick false) h0 rfl (by decide)
  have h2 := hrun (e := .run) h1 rfl (by decide)
  have h3 := hrun (e := .run) h2 rfl (by decide)
  have h4 := hrun (e := .run) h3 rfl (by decide)
  have h5 := hrun (e := .run) h4 rfl (by decide)
  have h6 := hrun (e := .run) h5 rfl (by decide)
  have h7 := hrun (e := .tick) h6 rfl (by decide)
  have h8 := hrun (e := .pick true) h7 rfl (by decide)
  have h9 := hrun (e := .run) h8 rfl (by decide)
  have h10 := hrun (e := .run) h9 rfl (by decide)
  have h11 := hrun (e := .run) h10 rfl (by decide)
  have h12 := hrun (e := .run) h11 rfl (by decide)
  have h13 := hrun (e := .tick) h12 rfl (by decide)
  have h14 := hrun (e := .pick false) h13 rfl (by decide)
  have h15 := hrun (e := .run) h14 rfl (by decide)
  have h16 := hrun (e := .run) h15 rfl (by decide)
  have h17 := hrun (e := .run) h16 rfl (by decide)
  refine ⟨_, _, h17, rfl, sleep_lock_discipline.1 _ (hall h17), sleep_lock_discipline.2.1 _ h17, rfl,
    fun h => (h false rfl rfl true).1 rfl, sleep_lock_discipline.2.2 _ _ .run h17 rfl ?_⟩
  exact fun h => (h false rfl rfl true).1 rfl

/-- The first process takes the lock and is preempted; the second one finds it taken, enables
interrupts and is preempted before `state = SLEEPING`; the first one unlocks and wakes nobody; the
second one goes to sleep for ever. -/
theorem sleep_lock_lost_wakeup : Start pair ∧ ∃ s,
    runFrom pair [.pick false, .run, .run, .run, .run, .run, .tick, .pick true, .run, .run, .run, .run,
      .tick, .pick false, .run, .run, .run, .run, .run, .run, .tick, .pick true, .run, .run, .run] =
        some s ∧ s.current = none ∧ s.Lost true := by
  refine ⟨pair_start, _, rfl, rfl, ?_, rfl, rfl, ?_⟩
  · exact Or.inr (Or.inr (Or.inr rfl))
  · decide

end Slopix.Kernel.SleepLock
