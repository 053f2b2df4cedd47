import Mathlib.Algebra.BigOperators.Fin
import Mathlib.Algebra.Order.BigOperators.Group.Finset
import Slopix.Ipc.Pipe

/-!
# Interleaved pipe calls

Any number of processes call `piperead`, `pipewrite`, `dup` and `close` on the two ends of one pipe.
`Sys.step` runs one uninterrupted segment of one process. A sleeping call may be resumed at any time
and with either result of `proc_wait`; this covers every wake-up and every signal.

`pipe_fifo` states that every interleaving is a FIFO.
-/

namespace Slopix.Ipc.PipeInterleaving

open Lib Function List

/-- Where a process is: in user mode, or asleep inside `piperead` or `pipewrite`. A `pipewrite`
carries the number of its call, its bytes and how many of them it has stored. -/
inductive Call where
  | user
  | piperead (n : Int)
  | pipewrite (call : Nat) (addr : List UInt8) (i : Nat)
deriving DecidableEq

/-- One pipe and the processes that use it. `fds w p` counts the descriptor slots of process `p`
that refer to the open file of the write end (`w = true`) or of the read end; the sum over all
processes is the `ref` field of that file. `accepted` records the bytes stored so far in order, each
with the number of the `pipewrite` call it came from, and `calls` counts these calls. -/
structure Sys (N : Nat) where
  pi : Pipe
  proc : Fin N → Call
  fds : Bool → Fin N → Nat
  accepted : List (Nat × UInt8)
  calls : Nat

/-- An action of one process: a call, the continuation of a sleeping call (`intr` tells that
`proc_wait` returned `-EINTR`), one more descriptor for process `q` (`dup` and `fork`), or a
`close`. -/
inductive Act (N : Nat) where
  | read (p : Fin N) (n : Int)
  | write (p : Fin N) (addr : List UInt8)
  | resume (p : Fin N) (intr : Bool)
  | dup (p q : Fin N) (writable : Bool)
  | close (p : Fin N) (writable : Bool)

/-- What an action shows: the process sleeps, a read or a write returns, or nothing. -/
inductive Out where
  | sleep
  | readRet (n : Int) (bytes : List UInt8)
  | writeRet (call : Nat) (addr : List UInt8) (k : Int)
  | eintr
  | quiet

/-- The bytes a read returned. -/
def Out.bytes : Out → List UInt8
  | .readRet _ bs => bs
  | _ => []

namespace Sys

variable {N : Nat}

/-- The `ref` field of the open file of one end. -/
def ref (s : Sys N) (writable : Bool) : Nat := ∑ p, s.fds writable p

/-- The bytes of write call `c` in the stream. -/
def byCall (s : Sys N) (c : Nat) : List UInt8 :=
  (s.accepted.filter (·.1 = c)).map Prod.snd

/-- `piperead` from its loop test up to the next sleep or return. -/
def readSeg (s : Sys N) (p : Fin N) (n : Int) : Sys N × Out :=
  if s.pi.nread = s.pi.nwrite ∧ s.pi.writeopen = true then
    ({ s with proc := Function.update s.proc p (.piperead n) }, .sleep)
  else
    let r := readLoop n.toNat s.pi
    ({ s with pi := r.2, proc := Function.update s.proc p .user }, .readRet n r.1)

/-- `pipewrite` from its loop test up to the next sleep or return. -/
def writeSeg (s : Sys N) (p : Fin N) (call : Nat) (addr : List UInt8) (i : Nat) : Sys N × Out :=
  let r := writeLoop (addr.drop i) s.pi
  let s' : Sys N :=
    { s with
      pi := r.2.1
      accepted := s.accepted ++ ((addr.drop i).take r.1).map fun b => (call, b) }
  match r.2.2 with
  | .done =>
    ({ s' with proc := Function.update s.proc p .user }, .writeRet call addr (i + r.1 : Nat))
  | .closed => ({ s' with proc := Function.update s.proc p .user }, .writeRet call addr (-1))
  | .full => ({ s' with proc := Function.update s.proc p (.pipewrite call addr (i + r.1)) }, .sleep)

/-- The continuation of a sleeping call. -/
def resumeSeg (s : Sys N) (p : Fin N) (intr : Bool) : Option (Sys N × Out) :=
  match s.proc p with
  | .user => none
  | .piperead n =>
    if intr then some ({ s with proc := Function.update s.proc p .user }, .eintr)
    else some (s.readSeg p n)
  | .pipewrite c addr i =>
    if intr then
      some ({ s with proc := Function.update s.proc p .user },
        .writeRet c addr (if 0 < i then (i : Int) else -4))
    else some (s.writeSeg p c addr i)

/-- Change the number of descriptors of process `p` on one end. -/
def setFds (s : Sys N) (p : Fin N) (writable : Bool) (n : Nat) : Sys N :=
  { s with fds := Function.update s.fds writable (Function.update (s.fds writable) p n) }

/-- `fileclose` on one descriptor: the last one calls `pipeclose`. -/
def closeFd (s : Sys N) (p : Fin N) (writable : Bool) : Sys N :=
  let s' := s.setFds p writable (s.fds writable p - 1)
  if s'.ref writable = 0 then { s' with pi := pipeclose s'.pi writable } else s'

/-- One action. A process starts a call only from user mode and through a descriptor it has. -/
def step (s : Sys N) : Act N → Option (Sys N × Out)
  | .read p n => if s.proc p = .user ∧ 0 < s.fds false p then some (s.readSeg p n) else none
  | .write p addr =>
    if s.proc p = .user ∧ 0 < s.fds true p then
      some ({ s with calls := s.calls + 1 }.writeSeg p s.calls addr 0)
    else none
  | .resume p intr => s.resumeSeg p intr
  | .dup p q w =>
    if s.proc p = .user ∧ 0 < s.fds w p then
      some (s.setFds q w (s.fds w q + 1), .quiet)
    else none
  | .close p w =>
    if s.proc p = .user ∧ 0 < s.fds w p then some (s.closeFd p w, .quiet) else none

end Sys

/-- Runs from a new pipe whose creator `p` has one descriptor on each end, with what the actions
showed. -/
inductive Run {N : Nat} : Sys N → List Out → Prop
  | init (data : Nat → UInt8) (p : Fin N) :
      Run ⟨pipeInit data, fun _ => .user, fun _ q => if q = p then 1 else 0, [], 0⟩ []
  | step {s s' : Sys N} {outs : List Out} {a : Act N} {out : Out} :
      Run s outs → s.step a = some (s', out) → Run s' (outs ++ [out])

/-! ## The stream of bytes -/

/-- The bytes of call `c` are the first `k` of `addr`. -/
def Stored {N : Nat} (s : Sys N) (c : Nat) (addr : List UInt8) (k : Nat) : Prop :=
  k ≤ addr.length ∧ s.byCall c = addr.take k

/-- What the accepted bytes are: those returned by reads followed by those in the ring, and for each
call the bytes it reports. -/
structure Stream {N : Nat} (s : Sys N) (outs : List Out) : Prop where
  ring : s.pi.ring.WellFormed pipeSize uintMod
  fifo : s.accepted.map Prod.snd = outs.flatMap Out.bytes ++ s.pi.contents
  calls_lt : ∀ x ∈ s.accepted, x.1 < s.calls
  sleeping : ∀ p c addr i, s.proc p = .pipewrite c addr i →
    c < s.calls ∧ Stored s c addr i ∧
      (∀ q addr' i', q ≠ p → s.proc q ≠ .pipewrite c addr' i') ∧
      ∀ addr' k, Out.writeRet c addr' k ∉ outs
  returned : ∀ c addr k, Out.writeRet c addr k ∈ outs →
    c < s.calls ∧ (∀ q addr' i, s.proc q ≠ .pipewrite c addr' i) ∧
      (0 ≤ k → Stored s c addr k.toNat)

section

variable {N : Nat} {s : Sys N} {outs : List Out}

/-- An action that neither moves bytes nor returns from a write keeps the stream. -/
theorem Stream.quiet {s' : Sys N} {out : Out} (h : Stream s outs) (hpi : s'.pi.ring = s.pi.ring)
    (hacc : s'.accepted = s.accepted) (hcalls : s'.calls = s.calls)
    (hproc : ∀ p c addr i, s'.proc p = .pipewrite c addr i → s.proc p = .pipewrite c addr i)
    (hout : out.bytes = []) (hret : ∀ c addr k, out ≠ .writeRet c addr k) :
    Stream s' (outs ++ [out]) := by
  have hby : ∀ c, s'.byCall c = s.byCall c := fun c => by unfold Sys.byCall; rw [hacc]
  have hmem : ∀ c addr k, Out.writeRet c addr k ∈ outs ++ [out] → Out.writeRet c addr k ∈ outs := by
    intro c addr k hm
    rcases mem_append.1 hm with hm | hm
    · exact hm
    · exact absurd (mem_singleton.1 hm).symm (hret c addr k)
  refine ⟨by rw [hpi]; exact h.ring, ?_, ?_, ?_, ?_⟩
  · unfold Pipe.contents
    rw [hacc, hpi, h.fifo, flatMap_append, flatMap_singleton, hout, append_nil]
    rfl
  · rw [hacc, hcalls]
    exact h.calls_lt
  · intro p c addr i hp
    obtain ⟨h1, h2, h3, h4⟩ := h.sleeping p c addr i (hproc p c addr i hp)
    refine ⟨by rw [hcalls]; exact h1, by unfold Stored; rw [hby]; exact h2, ?_, ?_⟩
    · exact fun q addr' i' hq hq' => h3 q addr' i' hq (hproc q c addr' i' hq')
    · exact fun addr' k hm => h4 addr' k (hmem _ _ _ hm)
  intro c addr k hm
  obtain ⟨h1, h2, h3⟩ := h.returned c addr k (hmem _ _ _ hm)
  refine ⟨by rw [hcalls]; exact h1, fun q addr' i hq => h2 q addr' i (hproc q c addr' i hq), ?_⟩
  intro hk
  unfold Stored
  rw [hby]
  exact h3 hk

/-- A write returns with the number of bytes it has put in. -/
theorem Stream.writeRet (h : Stream s outs) {p : Fin N} {c : Nat} {addr : List UInt8} {i : Nat}
    (hp : s.proc p = .pipewrite c addr i) {k : Int} (hk : 0 ≤ k → k.toNat = i) :
    Stream { s with proc := update s.proc p .user } (outs ++ [.writeRet c addr k]) := by
  obtain ⟨hc, hst, hother, -⟩ := h.sleeping p c addr i hp
  have hproc : ∀ q c' addr' i', update s.proc p .user q = .pipewrite c' addr' i' →
      q ≠ p ∧ s.proc q = .pipewrite c' addr' i' := by
    intro q c' addr' i' hq
    by_cases e : q = p
    · subst e
      simp at hq
    · exact ⟨e, by simpa [update_of_ne e] using hq⟩
  refine ⟨h.ring, ?_, h.calls_lt, ?_, ?_⟩
  · rw [flatMap_append, flatMap_singleton]
    simpa [Out.bytes] using h.fifo
  · intro q c' addr' i' hq
    obtain ⟨hne, hq'⟩ := hproc q c' addr' i' hq
    obtain ⟨h1, h2, h3, h4⟩ := h.sleeping q c' addr' i' hq'
    refine ⟨h1, h2, fun r a j hr hr' => h3 r a j hr (hproc r c' a j hr').2, ?_⟩
    intro a j hm
    rcases mem_append.1 hm with hm | hm
    · exact h4 a j hm
    · obtain ⟨rfl, -, -⟩ : c' = c ∧ a = addr ∧ j = k := by simpa using hm
      exact hother q addr' i' hne hq'
  intro c' addr' k' hm
  rcases mem_append.1 hm with hm | hm
  · obtain ⟨h1, h2, h3⟩ := h.returned c' addr' k' hm
    exact ⟨h1, fun q a j hq => h2 q a j (hproc q c' a j hq).2, h3⟩
  · obtain ⟨rfl, rfl, rfl⟩ : c' = c ∧ addr' = addr ∧ k' = k := by simpa using hm
    refine ⟨hc, ?_, fun h0 => by rw [hk h0]; exact hst⟩
    exact fun q a j hq => hother q a j (hproc q c' a j hq).1 (hproc q c' a j hq).2

/-- Reading call `c'` back from bytes that are all marked with call `c`. -/
theorem bytes_of_tagged (c c' : Nat) (bs : List UInt8) :
    ((bs.map fun b => (c, b)).filter (·.1 = c')).map Prod.snd = if c = c' then bs else [] := by
  by_cases e : c = c'
  · simp [e, filter_map, comp_def]
  · simp [e, filter_map, comp_def]

/-- Storing the next `k` bytes of the call that process `p` is in. -/
theorem Stream.store (h : Stream s outs) {p : Fin N} {c : Nat} {addr : List UInt8} {i k : Nat}
    {pi' : Pipe} (hp : s.proc p = .pipewrite c addr i) (hk : k ≤ (addr.drop i).length)
    (hring : pi'.ring.WellFormed pipeSize uintMod)
    (hcont : pi'.contents = s.pi.contents ++ (addr.drop i).take k) :
    Stream { s with
      pi := pi'
      accepted := s.accepted ++ ((addr.drop i).take k).map fun b => (c, b)
      proc := update s.proc p (.pipewrite c addr (i + k)) } outs := by
  obtain ⟨hc, ⟨hile, hst⟩, hother, hnot⟩ := h.sleeping p c addr i hp
  have hby : ∀ (t : Sys N) (c' : Nat),
      t.accepted = s.accepted ++ ((addr.drop i).take k).map (fun b => (c, b)) →
        t.byCall c' = s.byCall c' ++ if c = c' then (addr.drop i).take k else [] := by
    intro t c' ht
    unfold Sys.byCall
    rw [ht, filter_append, map_append, bytes_of_tagged]
  have hproc : ∀ q c' addr' i',
      update s.proc p (.pipewrite c addr (i + k)) q = .pipewrite c' addr' i' → q ≠ p →
        s.proc q = .pipewrite c' addr' i' := by
    intro q c' addr' i' hq hne
    simpa [update_of_ne hne] using hq
  refine ⟨hring, ?_, ?_, ?_, ?_⟩
  · rw [map_append, h.fifo, hcont, append_assoc]
    simp [comp_def]
  · intro x hx
    rcases mem_append.1 hx with hx | hx
    · exact h.calls_lt x hx
    · obtain ⟨b, -, rfl⟩ := mem_map.1 hx
      exact hc
  · intro q c' addr' i' hq
    by_cases e : q = p
    · subst e
      obtain ⟨rfl, rfl, rfl⟩ : c = c' ∧ addr = addr' ∧ i + k = i' := by simpa using hq
      refine ⟨hc, ⟨by rw [length_drop] at hk; omega, ?_⟩, ?_, hnot⟩
      · rw [hby _ c rfl, if_pos rfl, hst, take_add]
      · exact fun r a j hr hr' => hother r a j hr (hproc r c a j hr' hr)
    obtain ⟨h1, h2, h3, h4⟩ := h.sleeping q c' addr' i' (hproc q c' addr' i' hq e)
    have hne : c ≠ c' := fun ec => by
      subst ec
      exact hother q addr' i' e (hproc q c addr' i' hq e)
    refine ⟨h1, ⟨h2.1, by rw [hby _ c' rfl, if_neg hne, append_nil]; exact h2.2⟩, ?_, h4⟩
    intro r a j hr hr'
    by_cases er : r = p
    · subst er
      exact hne (by simpa using (Call.pipewrite.inj (by simpa using hr')).1)
    · exact h3 r a j hr (hproc r c' a j hr' er)
  intro c' addr' k' hm
  obtain ⟨h1, h2, h3⟩ := h.returned c' addr' k' hm
  have hne : c ≠ c' := fun ec => by
    subst ec
    exact hnot addr' k' hm
  refine ⟨h1, ?_, ?_⟩
  · intro q a j hq
    by_cases e : q = p
    · subst e
      exact hne (Call.pipewrite.inj (by simpa using hq)).1
    · exact h2 q a j (hproc q c' a j hq e)
  intro h0
  refine ⟨(h3 h0).1, ?_⟩
  rw [hby _ c' rfl, if_neg hne, append_nil]
  exact (h3 h0).2

/-- `piperead` up to its next sleep or return keeps the stream. -/
theorem Stream.readSeg (h : Stream s outs) (p : Fin N) (n : Int)
    (hp : ∀ c addr i, s.proc p ≠ .pipewrite c addr i) :
    Stream (s.readSeg p n).1 (outs ++ [(s.readSeg p n).2]) := by
  have hproc : ∀ x : Call, (∀ c addr i, x ≠ .pipewrite c addr i) → ∀ q c addr i,
      update s.proc p x q = .pipewrite c addr i → s.proc q = .pipewrite c addr i := by
    intro x hx q c addr i hq
    by_cases e : q = p
    · subst e
      exact absurd (by simpa using hq) (hx c addr i)
    · simpa [update_of_ne e] using hq
  unfold Sys.readSeg
  split
  · exact h.quiet rfl rfl rfl (hproc _ (by simp)) rfl (by simp)
  obtain ⟨hring, hcont, -⟩ := readLoop_spec n.toNat s.pi h.ring
  -- the bytes move from the ring to the reader: the queue before the call is their concatenation
  refine ⟨hring, ?_, h.calls_lt, ?_, ?_⟩
  · rw [flatMap_append, flatMap_singleton, h.fifo, hcont, append_assoc]
    rfl
  · intro q c addr i hq
    obtain ⟨h1, h2, h3, h4⟩ := h.sleeping q c addr i (hproc .user (by simp) q c addr i hq)
    refine ⟨h1, h2, fun r a j hr hr' => h3 r a j hr (hproc .user (by simp) r c a j hr'), ?_⟩
    exact fun a j hm => h4 a j (by simpa using hm)
  · intro c addr k hm
    obtain ⟨h1, h2, h3⟩ := h.returned c addr k (by simpa using hm)
    exact ⟨h1, fun q a j hq => h2 q a j (hproc .user (by simp) q c a j hq), h3⟩

/-- `pipewrite` up to its next sleep or return keeps the stream. -/
theorem Stream.writeSeg (h : Stream s outs) {p : Fin N} {c : Nat} {addr : List UInt8} {i : Nat}
    (hp : s.proc p = .pipewrite c addr i) :
    Stream (s.writeSeg p c addr i).1 (outs ++ [(s.writeSeg p c addr i).2]) := by
  obtain ⟨hring, hcont, -, -, hle, -⟩ := writeLoop_spec (addr.drop i) s.pi h.ring
  have hst := h.store hp hle hring hcont
  have hself : ∀ k, update s.proc p (.pipewrite c addr k) p = .pipewrite c addr k :=
    fun k => update_self ..
  unfold Sys.writeSeg
  cases hstop : (writeLoop (addr.drop i) s.pi).2.2 with
  | done =>
    simp only [hstop]
    have := hst.writeRet (hself _) (k := ((i + (writeLoop (addr.drop i) s.pi).1 : Nat) : Int))
      fun _ => Int.toNat_natCast _
    simpa only [update_idem] using this
  | closed =>
    simp only [hstop]
    have := hst.writeRet (hself _) (k := -1) fun h0 => absurd h0 (by decide)
    simpa only [update_idem] using this
  | full =>
    simp only [hstop]
    exact hst.quiet rfl rfl rfl (fun _ _ _ _ hq => hq) rfl (fun _ _ _ h0 => Out.noConfusion h0)

/-- A new `pipewrite` call of process `p` has the next number and nothing stored. -/
theorem Stream.newCall (h : Stream s outs) {p : Fin N} (addr : List UInt8) :
    Stream { s with
      calls := s.calls + 1
      proc := update s.proc p (.pipewrite s.calls addr 0) } outs := by
  have hnil : s.byCall s.calls = [] := by
    unfold Sys.byCall
    rw [map_eq_nil_iff, filter_eq_nil_iff]
    intro x hx
    have := h.calls_lt x hx
    simp only [decide_eq_true_eq]
    omega
  refine ⟨h.ring, h.fifo, fun x hx => Nat.lt_succ_of_lt (h.calls_lt x hx), ?_, ?_⟩
  · intro q c addr' i hq
    by_cases e : q = p
    · subst e
      obtain ⟨rfl, rfl, rfl⟩ : s.calls = c ∧ addr = addr' ∧ 0 = i := by simpa using hq
      refine ⟨Nat.lt_succ_self _, ⟨Nat.zero_le _, hnil⟩, ?_, ?_⟩
      · intro r a j hr hr'
        have := (h.sleeping r _ a j (by simpa [update_of_ne hr] using hr')).1
        omega
      · intro a k hm
        have := (h.returned _ a k hm).1
        omega
    have hq' : s.proc q = .pipewrite c addr' i := by simpa [update_of_ne e] using hq
    obtain ⟨h1, h2, h3, h4⟩ := h.sleeping q c addr' i hq'
    refine ⟨Nat.lt_succ_of_lt h1, h2, ?_, h4⟩
    intro r a j hr hr'
    by_cases er : r = p
    · subst er
      have := (Call.pipewrite.inj (by simpa using hr')).1
      omega
    · exact h3 r a j hr (by simpa [update_of_ne er] using hr')
  intro c addr' k hm
  obtain ⟨h1, h2, h3⟩ := h.returned c addr' k hm
  refine ⟨Nat.lt_succ_of_lt h1, ?_, h3⟩
  intro q a j hq
  by_cases e : q = p
  · subst e
    have := (Call.pipewrite.inj (by simpa using hq)).1
    omega
  · exact h2 q a j (by simpa [update_of_ne e] using hq)

theorem writeSeg_setProc (s : Sys N) (p : Fin N) (x : Call) (c : Nat) (addr : List UInt8) (i : Nat) :
    { s with proc := update s.proc p x }.writeSeg p c addr i = s.writeSeg p c addr i := by
  unfold Sys.writeSeg
  cases (writeLoop (addr.drop i) s.pi).2.2 <;> simp only [update_idem]

/-- Every step keeps the stream. -/
theorem Stream.step (h : Stream s outs) {a : Act N} {s' : Sys N} {out : Out}
    (hs : s.step a = some (s', out)) : Stream s' (outs ++ [out]) := by
  cases a with
  | read p n =>
    simp only [Sys.step] at hs
    split at hs
    · rename_i hp
      obtain ⟨rfl, rfl⟩ := Prod.mk.inj (Option.some.inj hs)
      exact h.readSeg p n fun c addr i => by rw [hp.1]; exact fun h0 => Call.noConfusion h0
    · cases hs
  | write p addr =>
    simp only [Sys.step] at hs
    split at hs
    · obtain ⟨rfl, rfl⟩ := Prod.mk.inj (Option.some.inj hs)
      have := (h.newCall addr (p := p)).writeSeg (update_self ..)
      rwa [writeSeg_setProc { s with calls := s.calls + 1 }] at this
    · cases hs
  | resume p intr =>
    simp only [Sys.step, Sys.resumeSeg] at hs
    cases hp : s.proc p with
    | user => simp [hp] at hs
    | piperead n =>
      have hne : ∀ c addr i, s.proc p ≠ .pipewrite c addr i := fun c addr i => by
        rw [hp]
        exact fun h0 => Call.noConfusion h0
      cases intr with
      | false =>
        simp only [hp, Bool.false_eq_true, if_false, Option.some.injEq] at hs
        obtain ⟨rfl, rfl⟩ := Prod.mk.inj hs
        exact h.readSeg p n hne
      | true =>
        simp only [hp, if_true, Option.some.injEq] at hs
        obtain ⟨rfl, rfl⟩ := Prod.mk.inj hs
        refine h.quiet rfl rfl rfl (fun q c addr i hq => ?_) rfl
          (fun _ _ _ h0 => Out.noConfusion h0)
        by_cases e : q = p
        · subst e
          simp at hq
        · simpa [update_of_ne e] using hq
    | pipewrite c addr i =>
      cases intr with
      | false =>
        simp only [hp, Bool.false_eq_true, if_false, Option.some.injEq] at hs
        obtain ⟨rfl, rfl⟩ := Prod.mk.inj hs
        exact h.writeSeg hp
      | true =>
        simp only [hp, if_true, Option.some.injEq] at hs
        obtain ⟨rfl, rfl⟩ := Prod.mk.inj hs
        refine h.writeRet hp fun h0 => ?_
        by_cases hi : 0 < i
        · rw [if_pos hi]
          exact Int.toNat_natCast i
        · rw [if_neg hi] at h0
          exact absurd h0 (by decide)
  | dup p q w =>
    simp only [Sys.step] at hs
    split at hs
    · obtain ⟨rfl, rfl⟩ := Prod.mk.inj (Option.some.inj hs)
      exact h.quiet rfl rfl rfl (fun _ _ _ _ hq => hq) rfl (fun _ _ _ h0 => Out.noConfusion h0)
    · cases hs
  | close p w =>
    simp only [Sys.step] at hs
    split at hs
    · obtain ⟨rfl, rfl⟩ := Prod.mk.inj (Option.some.inj hs)
      have hring : ∀ pi : Pipe, (pipeclose pi w).ring = pi.ring := fun pi => by cases w <;> rfl
      unfold Sys.closeFd
      by_cases hr : (s.setFds p w (s.fds w p - 1)).ref w = 0
      · simp only [if_pos hr]
        exact h.quiet (hring _) rfl rfl (fun _ _ _ _ hq => hq) rfl
          (fun _ _ _ h0 => Out.noConfusion h0)
      · simp only [if_neg hr]
        exact h.quiet rfl rfl rfl (fun _ _ _ _ hq => hq) rfl (fun _ _ _ h0 => Out.noConfusion h0)
    · cases hs

end

/-! ## The two ends -/

/-- Whether an end is open. -/
def endOpen (pi : Pipe) (writable : Bool) : Bool := if writable then pi.writeopen else pi.readopen

/-- The end that a call holds open; `true` is the one for writing. -/
def Call.usesEnd : Call → Option Bool
  | .user => none
  | .piperead _ => some false
  | .pipewrite _ _ _ => some true

/-- An end is open exactly while some descriptor refers to it, and a sleeping call keeps one. -/
structure Ends {N : Nat} (s : Sys N) : Prop where
  open_iff : ∀ w, endOpen s.pi w = true ↔ 0 < s.ref w
  held : ∀ p w, (s.proc p).usesEnd = some w → 0 < s.fds w p

section

variable {N : Nat} {s : Sys N}

theorem endOpen_readLoop (n : Nat) (pi : Pipe) (w : Bool) :
    endOpen (readLoop n pi).2 w = endOpen pi w := by
  induction n generalizing pi with
  | zero => rfl
  | succ n ih =>
    unfold readLoop
    split
    · rfl
    · exact ih pi.advance

theorem endOpen_writeLoop (cs : List UInt8) (pi : Pipe) (w : Bool) :
    endOpen (writeLoop cs pi).2.1 w = endOpen pi w := by
  induction cs generalizing pi with
  | nil => rfl
  | cons c cs ih =>
    unfold writeLoop
    split
    · rfl
    split
    · rfl
    · exact ih (pi.store c)

/-- Only the call of one process changes. -/
theorem Ends.setProc (h : Ends s) {s' : Sys N} {p : Fin N} {x : Call}
    (hpi : ∀ w, endOpen s'.pi w = endOpen s.pi w) (hfds : s'.fds = s.fds)
    (hproc : s'.proc = update s.proc p x) (hx : ∀ w, x.usesEnd = some w → 0 < s.fds w p) :
    Ends s' := by
  refine ⟨fun w => ?_, fun q w hq => ?_⟩
  · unfold Sys.ref
    rw [hpi, hfds]
    exact h.open_iff w
  rw [hfds]
  rw [hproc] at hq
  by_cases e : q = p
  · subst e
    exact hx w (by simpa using hq)
  · exact h.held q w (by simpa [update_of_ne e] using hq)

theorem Ends.readSeg (h : Ends s) (p : Fin N) (n : Int) (hfd : 0 < s.fds false p) :
    Ends (s.readSeg p n).1 := by
  unfold Sys.readSeg
  split
  · refine h.setProc (p := p) (x := .piperead n) (fun _ => rfl) rfl rfl fun w hw => ?_
    obtain rfl : false = w := Option.some.inj hw
    exact hfd
  · exact h.setProc (p := p) (x := .user) (endOpen_readLoop _ _) rfl rfl fun w hw => by cases hw

theorem Ends.writeSeg (h : Ends s) (p : Fin N) (c : Nat) (addr : List UInt8) (i : Nat)
    (hfd : 0 < s.fds true p) : Ends (s.writeSeg p c addr i).1 := by
  unfold Sys.writeSeg
  cases hstop : (writeLoop (addr.drop i) s.pi).2.2 with
  | done =>
    simp only [hstop]
    exact h.setProc (p := p) (x := .user) (endOpen_writeLoop _ _) rfl rfl fun w hw => by cases hw
  | closed =>
    simp only [hstop]
    exact h.setProc (p := p) (x := .user) (endOpen_writeLoop _ _) rfl rfl fun w hw => by cases hw
  | full =>
    simp only [hstop]
    refine h.setProc (p := p) (x := .pipewrite c addr (i + (writeLoop (addr.drop i) s.pi).1))
      (endOpen_writeLoop _ _) rfl rfl fun w hw => ?_
    obtain rfl : true = w := Option.some.inj hw
    exact hfd

theorem ref_setFds (s : Sys N) (p : Fin N) (w w' : Bool) (n : Nat) :
    (s.setFds p w n).ref w' + (if w' = w then s.fds w p else 0) =
      s.ref w' + if w' = w then n else 0 := by
  unfold Sys.ref Sys.setFds
  by_cases e : w' = w
  · subst e
    simp only [update_self, if_true]
    have h1 := Finset.sum_update_of_mem (Finset.mem_univ p) (s.fds w') n
    have h2 := Finset.sum_update_of_mem (Finset.mem_univ p) (s.fds w') (s.fds w' p)
    rw [update_eq_self] at h2
    omega
  · simp only [update_of_ne e, if_neg e]

/-- Every step keeps the ends open that calls use. -/
theorem Ends.step (h : Ends s) {a : Act N} {s' : Sys N} {out : Out}
    (hs : s.step a = some (s', out)) : Ends s' := by
  cases a with
  | read p n =>
    simp only [Sys.step] at hs
    split at hs
    · rename_i hp
      obtain ⟨rfl, rfl⟩ := Prod.mk.inj (Option.some.inj hs)
      exact h.readSeg p n hp.2
    · cases hs
  | write p addr =>
    simp only [Sys.step] at hs
    split at hs
    · rename_i hp
      obtain ⟨rfl, rfl⟩ := Prod.mk.inj (Option.some.inj hs)
      exact Ends.writeSeg (s := { s with calls := s.calls + 1 }) ⟨h.open_iff, h.held⟩ p _ addr 0 hp.2
    · cases hs
  | resume p intr =>
    simp only [Sys.step, Sys.resumeSeg] at hs
    cases hp : s.proc p with
    | user => simp [hp] at hs
    | piperead n =>
      cases intr with
      | false =>
        simp only [hp, Bool.false_eq_true, if_false, Option.some.injEq] at hs
        obtain ⟨rfl, rfl⟩ := Prod.mk.inj hs
        exact h.readSeg p n (h.held p false (by rw [hp]; rfl))
      | true =>
        simp only [hp, if_true, Option.some.injEq] at hs
        obtain ⟨rfl, rfl⟩ := Prod.mk.inj hs
        exact h.setProc (p := p) (x := .user) (fun _ => rfl) rfl rfl fun w hw => by cases hw
    | pipewrite c addr i =>
      cases intr with
      | false =>
        simp only [hp, Bool.false_eq_true, if_false, Option.some.injEq] at hs
        obtain ⟨rfl, rfl⟩ := Prod.mk.inj hs
        exact h.writeSeg p c addr i (h.held p true (by rw [hp]; rfl))
      | true =>
        simp only [hp, if_true, Option.some.injEq] at hs
        obtain ⟨rfl, rfl⟩ := Prod.mk.inj hs
        exact h.setProc (p := p) (x := .user) (fun _ => rfl) rfl rfl fun w hw => by cases hw
  | dup p q w =>
    simp only [Sys.step] at hs
    split at hs
    · rename_i hp
      obtain ⟨rfl, rfl⟩ := Prod.mk.inj (Option.some.inj hs)
      have hpos : 0 < s.ref w := by
        have := Finset.single_le_sum (f := s.fds w) (fun _ _ => Nat.zero_le _) (Finset.mem_univ p)
        exact Nat.lt_of_lt_of_le hp.2 this
      refine ⟨fun w' => ?_, fun r w' hr => ?_⟩
      · have href := ref_setFds s q w w' (s.fds w q + 1)
        have ho := h.open_iff w'
        show endOpen s.pi w' = true ↔ _
        by_cases e : w' = w
        · subst e
          simp only [if_true] at href
          rw [ho]
          omega
        · simp only [if_neg e] at href
          rw [ho]
          omega
      have hheld := h.held r w' hr
      show 0 < update s.fds w (update (s.fds w) q (s.fds w q + 1)) w' r
      by_cases e : w' = w
      · subst e
        rw [update_self]
        by_cases er : r = q
        · subst er
          rw [update_self]
          omega
        · rwa [update_of_ne er]
      · rwa [update_of_ne e]
    · cases hs
  | close p w =>
    simp only [Sys.step] at hs
    split at hs
    · rename_i hp
      obtain ⟨rfl, rfl⟩ := Prod.mk.inj (Option.some.inj hs)
      -- the closing process is in user mode, so no sleeping call loses its descriptor
      have hheld : ∀ r w', (s.proc r).usesEnd = some w' →
          0 < (s.setFds p w (s.fds w p - 1)).fds w' r := by
        intro r w' hr
        have hne : r ≠ p := fun e => by
          rw [e, hp.1] at hr
          cases hr
        show 0 < update s.fds w (update (s.fds w) p (s.fds w p - 1)) w' r
        by_cases e : w' = w
        · subst e
          rw [update_self, update_of_ne hne]
          exact h.held r w' hr
        · rw [update_of_ne e]
          exact h.held r w' hr
      unfold Sys.closeFd
      by_cases hz : (s.setFds p w (s.fds w p - 1)).ref w = 0
      · simp only [if_pos hz]
        refine ⟨fun w' => ?_, hheld⟩
        have href := ref_setFds s p w w' (s.fds w p - 1)
        have ho := h.open_iff w'
        by_cases e : w' = w
        · subst e
          have hclosed : endOpen (pipeclose s.pi w') w' = false := by cases w' <;> rfl
          show endOpen (pipeclose s.pi w') w' = true ↔ 0 < (s.setFds p w' (s.fds w' p - 1)).ref w'
          rw [hclosed, hz]
          simp
        have hsame : endOpen (pipeclose s.pi w) w' = endOpen s.pi w' := by
          cases w <;> cases w' <;> first | rfl | exact absurd rfl e
        simp only [if_neg e] at href
        show endOpen (pipeclose s.pi w) w' = true ↔ 0 < (s.setFds p w (s.fds w p - 1)).ref w'
        rw [hsame, ho]
        omega
      simp only [if_neg hz]
      refine ⟨fun w' => ?_, hheld⟩
      have href := ref_setFds s p w w' (s.fds w p - 1)
      have ho := h.open_iff w'
      show endOpen s.pi w' = true ↔ _
      by_cases e : w' = w
      · subst e
        simp only [if_true] at href
        rw [ho]
        omega
      · simp only [if_neg e] at href
        rw [ho]
        omega
    · cases hs

end

/-! ## Whole runs -/

section

variable {N : Nat} {s : Sys N} {outs : List Out}

theorem run_invariant (h : Run s outs) : Stream s outs ∧ Ends s := by
  induction h with
  | init data p =>
    have hz : RingBuf.count uintMod (pipeInit data).ring = 0 := by
      unfold RingBuf.count
      simp [pipeInit, Pipe.ring]
    have hpos : 0 < uintMod := by decide
    refine ⟨⟨⟨hpos, hpos, by rw [hz]; exact Nat.zero_le _⟩, ?_, by simp, by simp, by simp⟩, ?_, ?_⟩
    · show [] = [] ++ Pipe.contents (pipeInit data)
      unfold Pipe.contents RingBuf.contents
      rw [hz]
      rfl
    · intro w
      have hsum : 0 < ∑ q : Fin N, (if q = p then 1 else 0) := by simp
      have hopen : endOpen (pipeInit data) w = true := by cases w <;> rfl
      exact ⟨fun _ => hsum, fun _ => hopen⟩
    · intro q w hq
      cases hq
  | step _ hs ih => exact ⟨ih.1.step hs, ih.2.step hs⟩

/-- A read of `n > 0` bytes that returns none leaves an empty ring without a write end. -/
theorem readSeg_eof (hr : s.pi.ring.WellFormed pipeSize uintMod) {p : Fin N} {n : Int} {s' : Sys N}
    (hs : s.readSeg p n = (s', .readRet n [])) (hn : 0 < n) :
    s'.pi.nread = s'.pi.nwrite ∧ s'.pi.writeopen = false ∧ s'.fds = s.fds := by
  unfold Sys.readSeg at hs
  split at hs
  · exact absurd (Prod.mk.inj hs).2 (fun h0 => Out.noConfusion h0)
  rename_i hloop
  obtain ⟨-, hcont, -, hwo, hempty⟩ := readLoop_spec n.toNat s.pi hr
  obtain ⟨hs1, hs2⟩ := Prod.mk.inj hs
  have hnil : (readLoop n.toNat s.pi).1 = [] := (Out.readRet.inj hs2).2
  have heq := hempty (by omega) hnil
  subst hs1
  refine ⟨heq, ?_, rfl⟩
  -- nothing was taken and the ring is empty now, so it was empty when the wait loop was left
  rw [hwo]
  have h0 : s.pi.nread = s.pi.nwrite := by
    obtain ⟨m, hm⟩ : ∃ m, n.toNat = m + 1 := ⟨n.toNat - 1, by omega⟩
    rw [hm] at hnil
    by_contra hne
    simp [readLoop, if_neg hne] at hnil
  cases hwopen : s.pi.writeopen with
  | false => rfl
  | true => exact absurd ⟨h0, hwopen⟩ hloop

/-- **Every interleaving of reads, writes and closes is a FIFO.** Along every run: the bytes that
reads returned are a prefix of the bytes accepted from writers; at most `PIPESIZE` bytes are
buffered, modulo the wrap-around of the counters; a write that returned `k ≥ 0` has put exactly its
first `k` bytes in the stream, in order; and a read of `n > 0` bytes returns none only when no byte
is buffered and no write end is open. -/
theorem pipe_fifo (h : Run s outs) :
    outs.flatMap Out.bytes <+: s.accepted.map Prod.snd ∧
      s.pi.buffered ≤ pipeSize ∧
      (∀ c addr k, Out.writeRet c addr k ∈ outs → 0 ≤ k →
        k ≤ addr.length ∧ s.byCall c = addr.take k.toNat) ∧
      ∀ a s' n, s.step a = some (s', .readRet n []) → 0 < n →
        s'.pi.buffered = 0 ∧ s'.pi.writeopen = false ∧ s'.ref true = 0 := by
  obtain ⟨hst, hends⟩ := run_invariant h
  refine ⟨⟨s.pi.contents, hst.fifo.symm⟩, hst.ring.count_le, ?_, ?_⟩
  · intro c addr k hm hk
    obtain ⟨-, -, hstored⟩ := hst.returned c addr k hm
    obtain ⟨hle, hby⟩ := hstored hk
    exact ⟨by omega, hby⟩
  intro a s' n hs hn
  have hst' := hst.step hs
  have hends' := hends.step hs
  have hseg : ∃ p m, s.readSeg p m = (s', .readRet n []) := by
    cases a with
    | read p m =>
      simp only [Sys.step] at hs
      split at hs
      · exact ⟨p, m, Option.some.inj hs⟩
      · cases hs
    | write p addr =>
      simp only [Sys.step, Sys.writeSeg] at hs
      split at hs
      · split at hs <;> cases hs
      · cases hs
    | resume p intr =>
      simp only [Sys.step, Sys.resumeSeg, Sys.writeSeg] at hs
      split at hs
      · cases hs
      · rename_i m _
        cases intr with
        | false => exact ⟨p, m, Option.some.inj hs⟩
        | true => cases hs
      cases intr with
      | false =>
        simp only [Bool.false_eq_true, if_false, Option.some.injEq] at hs
        split at hs <;> cases hs
      | true => cases hs
    | dup p q w =>
      simp only [Sys.step] at hs
      split at hs <;> cases hs
    | close p w =>
      simp only [Sys.step] at hs
      split at hs <;> cases hs
  obtain ⟨p, m, hseg⟩ := hseg
  have hm : m = n := by
    unfold Sys.readSeg at hseg
    split at hseg
    · cases hseg
    · exact (Out.readRet.inj (Prod.mk.inj hseg).2).1
  subst hm
  obtain ⟨heq, hwo, -⟩ := readSeg_eof hst.ring hseg hn
  refine ⟨(RingBuf.count_eq_zero_iff hst'.ring).2 heq, hwo, ?_⟩
  have := hends'.open_iff true
  simp only [endOpen, if_true, hwo, Bool.false_eq_true, false_iff] at this
  omega

/-- A writer stores two bytes and a reader takes them. -/
theorem pipe_fifo_two_bytes :
    ∃ (s : Sys 1) (outs : List Out), Run s outs ∧ outs.flatMap Out.bytes = [65, 66] ∧
      [65, 66] <+: s.accepted.map Prod.snd := by
  have h := Run.step (a := .read 0 2) (Run.step (a := .write 0 [65, 66])
    (Run.init (N := 1) (fun _ => 0) 0) rfl) rfl
  exact ⟨_, _, h, rfl, (pipe_fifo h).1⟩

end

end Slopix.Ipc.PipeInterleaving
