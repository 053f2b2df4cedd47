import Slopix.Kernel.Fork

/-!
# Parents and children

`fork` makes the caller the parent of the new process, `exit` leaves a zombie and wakes the parent,
`wait` and `waitpid` report the end of a child and free its slot. A parent is a slot of the process
table, and slots are used again.

`Annals` is the history of a run: who forked whom, who was told of whose end, who was handed over to
whom. `WellFathered` says that `wait` reports only the end of the caller's own children, each once, and
that the parent field of a process is right: it is the process that forked it while that one lives,
and afterwards a live process that it was handed over to. The kernel never hands a process over, so
this holds exactly as long as no process exits before its children have been reported.
-/

namespace Slopix.Kernel

open Lib Mm Fs Ipc List

/-! ## History -/

/-- Pairs of process numbers: forker and child, caller of `wait` and child, new parent and child. -/
structure Annals where
  forked : List (Nat × Nat)
  reported : List (Nat × Nat)
  handed : List (Nat × Nat)

/-- The processes that appear, with the number of `p`. -/
def births (k k' : Kern) (p : Nat) : List (Nat × Nat) :=
  ((List.range nproc).filter fun c =>
    (k.procs c).state == .unused && (k'.procs c).state != .unused).map fun c =>
      ((k.procs p).pid, (k'.procs c).pid)

/-- The zombies that leave the process table, with the number of `p`. -/
def burials (k k' : Kern) (p : Nat) : List (Nat × Nat) :=
  ((List.range nproc).filter fun c =>
    (k.procs c).state == .zombie && (k'.procs c).state == .unused).map fun c =>
      ((k.procs p).pid, (k.procs c).pid)

/-- The processes that get another parent. -/
def handovers (k k' : Kern) : List (Nat × Nat) :=
  (List.range nproc).filterMap fun c =>
    if (k.procs c).state ≠ .unused ∧ (k'.procs c).state ≠ .unused ∧
      (k'.procs c).parent ≠ (k.procs c).parent then
      (k'.procs c).parent.map fun q => ((k'.procs q).pid, (k'.procs c).pid)
    else none

/-- The history after one more action. -/
def Annals.record (h : Annals) (k : Kern) (a : Action) (k' : Kern) : Annals where
  forked := h.forked ++
    match a with
    | .call p .fork => births k k' p
    | _ => []
  reported := h.reported ++
    match a with
    | .call p (.wait _) => burials k k' p
    | .call p (.waitpid _ _ _) => burials k k' p
    | _ => []
  handed := h.handed ++ handovers k k'

/-- The states of the runs from `k0` whose actions all satisfy `ok`, with their history. -/
inductive Lives (ok : Kern → Action → Prop) (k0 : Kern) : Kern → Annals → Prop where
  | start : Lives ok k0 k0 ⟨[], [], []⟩
  | step {k k' : Kern} {a : Action} {h : Annals} (hrun : Lives ok k0 k h) (hok : ok k a)
      (hs : Step k a k') : Lives ok k0 k' (h.record k a k')

theorem Lives.reach {ok : Kern → Action → Prop} {k0 k : Kern} {h : Annals} (hrun : Lives ok k0 k h) :
    Reach (fun _ _ => True) k0 k := by
  induction hrun with
  | start => exact Reach.start
  | step _ _ hs ih => exact ih.step trivial hs

/-- Only the caller's children are reported, each once, and every process has the right parent. -/
structure WellFathered (k : Kern) (h : Annals) : Prop where
  own : ∀ x y, (x, y) ∈ h.reported → (x, y) ∈ h.forked ∨ (x, y) ∈ h.handed
  once : (h.reported.map Prod.snd).Nodup
  parent : ∀ c < nproc, (k.procs c).state ≠ .unused → ∀ x, (x, (k.procs c).pid) ∈ h.forked →
    (∀ q, k.alive q → (k.procs q).pid = x → (k.procs c).parent = some q) ∧
    ((∀ q, k.alive q → (k.procs q).pid ≠ x) → ∃ q, k.alive q ∧ (k.procs c).parent = some q ∧
      ((k.procs q).pid, (k.procs c).pid) ∈ h.handed)

/-- No process exits while the process table still has a child of it. -/
def NoOrphans (k : Kern) (a : Action) : Prop :=
  ∀ p status, a = .call p (.exit status) → ∀ c < nproc, (k.procs c).state ≠ .unused →
    (k.procs c).parent ≠ some p

/-! ## One action -/

/-- No process starts or ends. -/
structure Alike (k k' : Kern) : Prop where
  nextpid : k.nextpid ≤ k'.nextpid
  state : ∀ q, (k'.procs q).state = (k.procs q).state ∨
    ((k.procs q).state.isLive = true ∧ (k'.procs q).state.isLive = true)
  id : ∀ q, (k.procs q).state ≠ .unused →
    (k'.procs q).pid = (k.procs q).pid ∧ (k'.procs q).parent = (k.procs q).parent

/-- A new process in slot `c`. -/
structure Born (k : Kern) (p c : Nat) (k' : Kern) : Prop where
  lt : c < nproc
  unused : (k.procs c).state = .unused
  nextpid : k'.nextpid = k.nextpid + 1
  state : (k'.procs c).state = .runnable
  pid : (k'.procs c).pid = k.nextpid
  parent : (k'.procs c).parent = some p
  others : ∀ q, q ≠ c → (k'.procs q).mem = (k.procs q).mem

/-- What an action does to the process table. -/
inductive Turn (k : Kern) : Action → Kern → Prop where
  | quiet {a : Action} {k' : Kern} (h : Alike k k') : Turn k a k'
  | fork {p c : Nat} {k' : Kern} (halive : k.alive p) (h : Born k p c k') :
      Turn k (.call p .fork) k'
  | exit {p : Nat} {status : Int} {k' : Kern} (halive : k.alive p) (h : Exits k p k') :
      Turn k (.call p (.exit status)) k'
  | report {p c : Nat} {a : Action} {k' : Kern} (halive : k.alive p) (hlt : c < nproc)
      (ha : (∃ intr, a = .call p (.wait intr)) ∨
        ∃ pid options intr, a = .call p (.waitpid pid options intr))
      (hchild : k.isChild p c = true) (hz : (k.procs c).state = .zombie) (h : Buries k c k') :
      Turn k a k'

section

variable {k k1 k' : Kern} {p c : Nat} {a : Action}

theorem Kin.alike (h : Kin k k') : Alike k k' := ⟨h.nextpid, fun q => Or.inl (h.state q), h.id⟩

/-- The return value is not in the memory of the process. -/
theorem setReturn_mem (k : Kern) (p : Nat) (r : Int) (q : Nat) :
    ((k.setReturn p r).procs q).mem = (k.procs q).mem := by
  unfold Kern.setReturn
  by_cases hq : q = p
  · rw [hq, Kern.setProc_procs_self]
    rfl
  · rw [Kern.setProc_procs_of_ne _ _ hq]

theorem Kin.setReturn (h : Kin k k1) (p : Nat) (r : Int) : Kin k (k1.setReturn p r) where
  nextpid := h.nextpid
  state q := (mem_state (setReturn_mem k1 p r q)).trans (h.state q)
  id q hq := by
    rw [mem_pid (setReturn_mem k1 p r q), mem_parent (setReturn_mem k1 p r q)]
    exact h.id q hq

theorem Buries.setReturn (h : Buries k c k1) (p : Nat) (r : Int) :
    Buries k c (k1.setReturn p r) where
  nextpid := h.nextpid
  state := (mem_state (setReturn_mem k1 p r c)).trans h.state
  others q hq := (setReturn_mem k1 p r q).trans (h.others q hq)

theorem Exits.setReturn (h : Exits k p k1) (r : Int) : Exits k p (k1.setReturn p r) where
  nextpid := h.nextpid
  state := (mem_state (setReturn_mem k1 p r p)).trans h.state
  pid := (mem_pid (setReturn_mem k1 p r p)).trans h.pid
  parent := (mem_parent (setReturn_mem k1 p r p)).trans h.parent
  others q hq := (setReturn_mem k1 p r q).trans (h.others q hq)

theorem turn_waits (halive : k.alive p) (r : Int)
    (ha : (∃ intr, a = .call p (.wait intr)) ∨
      ∃ pid options intr, a = .call p (.waitpid pid options intr)) (h : Waits k p k1) :
    Turn k a (k1.setReturn p r) := by
  rcases h with h | ⟨c, hlt, hchild, hz, h⟩
  · exact .quiet (h.setReturn p r).alike
  · exact .report halive hlt ha hchild hz (h.setReturn p r)

theorem turn_call {K : Ledger} {H : Multiset Nat} (hK : FrameSet K) (hns : ¬ K.strict)
    (ho : Owned K k 0 H) {cl : Call} {r : Int} (halive : k.alive p)
    (hret : syscall p cl k = .ok (r, k1)) : Turn k (.call p cl) (k1.setReturn p r) := by
  have hkin := ((syscall_spec hK cl ho halive fun hs => absurd hs hns).ok r k1 hret).2.2
  unfold Kindred at hkin
  split at hkin
  · rcases hkin with ⟨-, h⟩ | ⟨c, hlt, hunused, -, hnext, hstate, hpid, hparent, hothers⟩
    · exact .quiet (h.setReturn p r).alike
    refine .fork (c := c) halive ⟨hlt, hunused, hnext, ?_, ?_, ?_, fun q hq => ?_⟩
    · rw [mem_state (setReturn_mem k1 p r c), hstate]
    · rw [mem_pid (setReturn_mem k1 p r c), hpid]
    · rw [mem_parent (setReturn_mem k1 p r c), hparent]
    · rw [setReturn_mem k1 p r q, hothers q hq]
  · exact .exit halive (hkin.setReturn r)
  · exact turn_waits halive r (Or.inl ⟨_, rfl⟩) hkin
  · exact turn_waits halive r (Or.inr ⟨_, _, _, rfl⟩) hkin
  · exact .quiet (Kin.setReturn hkin p r).alike

theorem turn_step {K : Ledger} {H : Multiset Nat} (hK : FrameSet K) (hns : ¬ K.strict)
    (ho : Owned K k 0 H) (hs : Step k a k') : Turn k a k' := by
  cases hs with
  | @call p cl r k1 halive hret => exact turn_call hK hns ho halive hret
  | @user p halive tf =>
    exact .quiet (ho.setProc_quiet (p := p) (x := { k.procs p with tf := tf }) rfl).kin.alike
  | @store p pa halive hpage b =>
    exact .quiet (ho.setPage_data hK ⟨_, ho.root_mem halive, hpage⟩ b).kin.alike
  | recycle b => exact .quiet ⟨le_refl _, fun _ => Or.inl rfl, fun _ _ => ⟨rfl, rfl⟩⟩
  | @reap p k1 hp hret => exact .quiet ((steady_schedReap hK ho hp).ok _ _ hret).2.alike
  | @sched p halive state hlive =>
    obtain ⟨-, hlive'⟩ := alive_iff.1 halive
    refine .quiet ⟨le_refl _, fun q => ?_, fun q _ => ?_⟩
    · by_cases hq : q = p
      · rw [hq, Kern.setProc_procs_self]
        exact Or.inr ⟨hlive', hlive⟩
      · rw [Kern.setProc_procs_of_ne _ _ hq]
        exact Or.inl rfl
    by_cases hq : q = p
    · rw [hq, Kern.setProc_procs_self]
      exact ⟨rfl, rfl⟩
    · rw [Kern.setProc_procs_of_ne _ _ hq]
      exact ⟨rfl, rfl⟩
  | @signal p halive pgid pending stopSignal =>
    exact .quiet (ho.setProc_quiet (p := p) (x := { k.procs p with
      pgid := pgid, pending := pending, stopSignal := stopSignal }) rfl).kin.alike

theorem Alike.unused_iff (h : Alike k k') (q : Nat) :
    (k'.procs q).state = .unused ↔ (k.procs q).state = .unused := by
  rcases h.state q with e | ⟨e, e'⟩
  · rw [e]
  constructor
  · intro hq
    rw [hq] at e'
    cases e'
  · intro hq
    rw [hq] at e
    cases e

theorem Alike.alive_iff (h : Alike k k') (q : Nat) : k'.alive q ↔ k.alive q := by
  rw [Kernel.alive_iff, Kernel.alive_iff]
  rcases h.state q with e | ⟨e, e'⟩
  · rw [e]
  · rw [e, e']

end

/-! ## What is recorded -/

section

variable {k k' : Kern} {p c : Nat}

theorem filter_range_singleton {n c : Nat} {f : Nat → Bool} (hc : c < n) (hf : f c = true)
    (hothers : ∀ q, q ≠ c → f q = false) : (List.range n).filter f = [c] := by
  have hbeq : f = fun q => q == c := by
    funext q
    by_cases hq : q = c
    · rw [hq, hf, beq_self_eq_true]
    · rw [hothers q hq, beq_false_of_ne hq]
  rw [hbeq, filter_beq, count_eq_one_of_mem nodup_range (mem_range.2 hc)]
  rfl

theorem births_alike (h : Alike k k') (p : Nat) : births k k' p = [] := by
  unfold births
  rw [map_eq_nil_iff, filter_eq_nil_iff]
  intro c _ hc
  rw [Bool.and_eq_true, beq_iff_eq, bne_iff_ne] at hc
  exact hc.2 ((h.unused_iff c).2 hc.1)

theorem burials_alike (h : Alike k k') (p : Nat) : burials k k' p = [] := by
  unfold burials
  rw [map_eq_nil_iff, filter_eq_nil_iff]
  intro c _ hc
  rw [Bool.and_eq_true, beq_iff_eq, beq_iff_eq] at hc
  have hunused := (h.unused_iff c).1 hc.2
  rw [hc.1] at hunused
  cases hunused

theorem handovers_nil (h : ∀ c < nproc, (k.procs c).state ≠ .unused → (k'.procs c).state ≠ .unused →
    (k'.procs c).parent = (k.procs c).parent) : handovers k k' = [] := by
  unfold handovers
  rw [filterMap_eq_nil_iff]
  intro c hc
  apply if_neg
  rintro ⟨hold, hnew, hne⟩
  exact hne (h c (mem_range.1 hc) hold hnew)

theorem births_born (h : Born k p c k') : births k k' p = [((k.procs p).pid, k.nextpid)] := by
  have hfilter : ((List.range nproc).filter fun c =>
      (k.procs c).state == .unused && (k'.procs c).state != .unused) = [c] := by
    apply filter_range_singleton h.lt
    · rw [h.unused, h.state]
      rfl
    · intro q hq
      rw [mem_state (h.others q hq), Bool.and_eq_false_iff, beq_eq_false_iff_ne, bne_eq_false_iff_eq]
      exact (Classical.em _).symm
  unfold births
  rw [hfilter, map_singleton, h.pid]

theorem burials_buries (hlt : c < nproc) (hz : (k.procs c).state = .zombie) (h : Buries k c k')
    (p : Nat) : burials k k' p = [((k.procs p).pid, (k.procs c).pid)] := by
  have hfilter : ((List.range nproc).filter fun c =>
      (k.procs c).state == .zombie && (k'.procs c).state == .unused) = [c] := by
    apply filter_range_singleton hlt
    · rw [hz, h.state]
      rfl
    · intro q hq
      rw [mem_state (h.others q hq)]
      cases (k.procs q).state <;> rfl
  unfold burials
  rw [hfilter, map_singleton]

end

/-! ## The invariant -/

/-- Numbers are new and belong to one process; every process but the first has a live parent that
forked it; what was reported is gone. -/
structure Descent (k : Kern) (h : Annals) : Prop where
  young : ∀ c < nproc, (k.procs c).state ≠ .unused → (k.procs c).pid < k.nextpid
  distinct : ∀ c < nproc, ∀ d < nproc, (k.procs c).state ≠ .unused → (k.procs d).state ≠ .unused →
    (k.procs c).pid = (k.procs d).pid → c = d
  kin : ∀ c < nproc, (k.procs c).state ≠ .unused →
    ((k.procs c).parent = none ∧ ∀ x, (x, (k.procs c).pid) ∉ h.forked) ∨
      ∃ q, (k.procs c).parent = some q ∧ k.alive q ∧ ((k.procs q).pid, (k.procs c).pid) ∈ h.forked
  order : ∀ x y, (x, y) ∈ h.forked → x < y ∧ y < k.nextpid
  one : ∀ x x' y, (x, y) ∈ h.forked → (x', y) ∈ h.forked → x = x'
  gone : ∀ x y, (x, y) ∈ h.reported → (x, y) ∈ h.forked ∧
    ∀ c < nproc, (k.procs c).state ≠ .unused → (k.procs c).pid ≠ y
  once : (h.reported.map Prod.snd).Nodup
  handed : h.handed = []

section

variable {k k' : Kern} {h h' : Annals} {p c : Nat} {a : Action}

theorem Descent.wellFathered (hd : Descent k h) : WellFathered k h := by
  refine ⟨fun x y hxy => Or.inl (hd.gone x y hxy).1, hd.once, fun c hc hused x hx => ?_⟩
  rcases hd.kin c hc hused with ⟨-, hnone⟩ | ⟨q, hparent, halive, hq⟩
  · exact absurd hx (hnone x)
  obtain rfl := hd.one _ _ _ hx hq
  constructor
  · intro q' halive' hpid
    rw [hparent, hd.distinct q' halive'.1 q halive.1 halive'.2.1 halive.2.1 hpid]
  · exact fun hdead => absurd rfl (hdead q halive)

/-- The first process has no father. -/
theorem Descent.start {b : Machine} {k0 : Kern} (hboot : b.boot = .ok ((), k0)) :
    Descent k0 ⟨[], [], []⟩ := by
  have hs := starts_boot b hboot
  have hzero : ∀ c, (k0.procs c).state ≠ .unused → c = 0 := by
    intro c hc
    by_contra hne
    apply hc
    rw [mem_state (hs.others c hne)]
    rfl
  constructor
  · intro c _ hc
    rw [hzero c hc, hs.pid, hs.nextpid]
    exact Nat.lt_succ_self _
  · intro c _ d _ hc hd _
    rw [hzero c hc, hzero d hd]
  · intro c _ hc
    rw [hzero c hc]
    exact Or.inl ⟨hs.parent, fun x => not_mem_nil⟩
  · exact fun x y hxy => absurd hxy not_mem_nil
  · exact fun x x' y hxy => absurd hxy not_mem_nil
  · exact fun x y hxy => absurd hxy not_mem_nil
  · exact nodup_nil
  · rfl

/-- The slots that a turn leaves in use were in use with the same number and parent. -/
theorem Descent.shrink (hd : Descent k h) (hnext : k.nextpid ≤ k'.nextpid)
    (hsame : ∀ c < nproc, (k'.procs c).state ≠ .unused → (k.procs c).state ≠ .unused ∧
      (k'.procs c).pid = (k.procs c).pid ∧ (k'.procs c).parent = (k.procs c).parent)
    (hlive : ∀ c < nproc, ∀ q, (k'.procs c).state ≠ .unused → (k.procs c).parent = some q →
      k.alive q → k'.alive q) : Descent k' h := by
  constructor
  · intro c hc hused
    obtain ⟨hused0, hpid, -⟩ := hsame c hc hused
    rw [hpid]
    exact (hd.young c hc hused0).trans_le hnext
  · intro c hc d hd' husedc husedd hpid
    obtain ⟨husedc0, hpidc, -⟩ := hsame c hc husedc
    obtain ⟨husedd0, hpidd, -⟩ := hsame d hd' husedd
    exact hd.distinct c hc d hd' husedc0 husedd0 (by rw [← hpidc, hpid, hpidd])
  · intro c hc hused
    obtain ⟨hused0, hpid, hparent⟩ := hsame c hc hused
    rw [hpid, hparent]
    rcases hd.kin c hc hused0 with hnone | ⟨q, hq, halive, hforked⟩
    · exact Or.inl hnone
    have halive' := hlive c hc q hused hq halive
    refine Or.inr ⟨q, hq, halive', ?_⟩
    rw [(hsame q halive'.1 halive'.2.1).2.1]
    exact hforked
  · exact fun x y hxy => ⟨(hd.order x y hxy).1, (hd.order x y hxy).2.trans_le hnext⟩
  · exact hd.one
  · intro x y hxy
    refine ⟨(hd.gone x y hxy).1, fun c hc hused => ?_⟩
    obtain ⟨hused0, hpid, -⟩ := hsame c hc hused
    rw [hpid]
    exact (hd.gone x y hxy).2 c hc hused0
  · exact hd.once
  · exact hd.handed

theorem record_alike (hal : Alike k k') (h : Annals) (a : Action) : h.record k a k' = h := by
  have hforked : (match a with
      | .call p .fork => births k k' p
      | _ => []) = [] := by
    split
    · exact births_alike hal _
    · rfl
  have hreported : (match a with
      | .call p (.wait _) => burials k k' p
      | .call p (.waitpid _ _ _) => burials k k' p
      | _ => []) = [] := by
    split
    · exact burials_alike hal _
    · exact burials_alike hal _
    · rfl
  have hhanded : handovers k k' = [] := handovers_nil fun c _ hc _ => (hal.id c hc).2
  unfold Annals.record
  rw [hforked, hreported, hhanded, append_nil, append_nil, append_nil]

theorem alive_of_mem {q : Nat} (hmem : (k'.procs q).mem = (k.procs q).mem) (hq : k.alive q) :
    k'.alive q := by
  rw [alive_iff, mem_state hmem]
  exact alive_iff.1 hq

theorem Descent.quiet (hd : Descent k h) (hal : Alike k k') : Descent k' h := by
  apply hd.shrink hal.nextpid
  · intro c _ hused
    have hused0 : (k.procs c).state ≠ .unused := fun e => hused ((hal.unused_iff c).2 e)
    exact ⟨hused0, hal.id c hused0⟩
  · exact fun _ _ q _ _ halive => (hal.alive_iff q).2 halive

/-- An exit hands no child over, when the process has none. -/
theorem Descent.exit (hd : Descent k h) (he : Exits k p k')
    (hno : ∀ c < nproc, (k.procs c).state ≠ .unused → (k.procs c).parent ≠ some p)
    (halive : k.alive p) : Descent k' h := by
  have hsame : ∀ c < nproc, (k'.procs c).state ≠ .unused → (k.procs c).state ≠ .unused ∧
      (k'.procs c).pid = (k.procs c).pid ∧ (k'.procs c).parent = (k.procs c).parent := by
    intro c _ hused
    by_cases hc : c = p
    · rw [hc]
      exact ⟨halive.2.1, he.pid, he.parent⟩
    · have hmem := he.others c hc
      rw [← mem_state hmem]
      exact ⟨hused, mem_pid hmem, mem_parent hmem⟩
  apply hd.shrink he.nextpid.ge hsame
  intro c hc q hused hparent hq
  have hqp : q ≠ p := by
    rintro rfl
    exact hno c hc (hsame c hc hused).1 hparent
  exact alive_of_mem (he.others q hqp) hq

/-- The child's father is the process that forked. -/
theorem Descent.fork (hd : Descent k h) (hb : Born k p c k') (halive : k.alive p) :
    Descent k' { h with forked := h.forked ++ [((k.procs p).pid, k.nextpid)] } := by
  have hpc : p ≠ c := by
    rintro rfl
    exact halive.2.1 hb.unused
  have hyoung := hd.young p halive.1 halive.2.1
  have hother : ∀ q, q ≠ c → (k'.procs q).state ≠ .unused → (k.procs q).state ≠ .unused := by
    intro q hq hused
    rw [← mem_state (hb.others q hq)]
    exact hused
  have hfresh : ∀ x, (x, k.nextpid) ∉ h.forked := fun x hx =>
    absurd (hd.order x _ hx).2 (lt_irrefl _)
  constructor
  · intro q hq hused
    rw [hb.nextpid]
    by_cases hqc : q = c
    · rw [hqc, hb.pid]
      exact Nat.lt_succ_self _
    · rw [mem_pid (hb.others q hqc)]
      exact (hd.young q hq (hother q hqc hused)).trans (Nat.lt_succ_self _)
  · intro q hq d hd' husedq husedd hpid
    by_cases hqc : q = c
    · by_cases hdc : d = c
      · rw [hqc, hdc]
      · rw [hqc, hb.pid, mem_pid (hb.others d hdc)] at hpid
        exact absurd (hd.young d hd' (hother d hdc husedd)) (by omega)
    by_cases hdc : d = c
    · rw [hdc, hb.pid, mem_pid (hb.others q hqc)] at hpid
      exact absurd (hd.young q hq (hother q hqc husedq)) (by omega)
    · rw [mem_pid (hb.others q hqc), mem_pid (hb.others d hdc)] at hpid
      exact hd.distinct q hq d hd' (hother q hqc husedq) (hother d hdc husedd) hpid
  · intro q hq hused
    by_cases hqc : q = c
    · refine Or.inr ⟨p, by rw [hqc, hb.parent], alive_of_mem (hb.others p hpc) halive, ?_⟩
      rw [hqc, mem_pid (hb.others p hpc), hb.pid]
      exact mem_append_right _ mem_cons_self
    have hused0 := hother q hqc hused
    rw [mem_pid (hb.others q hqc), mem_parent (hb.others q hqc)]
    rcases hd.kin q hq hused0 with ⟨hnone, hroot⟩ | ⟨r, hparent, hr, hforked⟩
    · refine Or.inl ⟨hnone, fun x hx => ?_⟩
      rcases mem_append.1 hx with hx | hx
      · exact hroot x hx
      · have hpid := (Prod.mk.inj (mem_singleton.1 hx)).2
        exact absurd (hd.young q hq hused0) (by omega)
    have hrc : r ≠ c := by
      rintro rfl
      exact hr.2.1 hb.unused
    refine Or.inr ⟨r, hparent, alive_of_mem (hb.others r hrc) hr, ?_⟩
    rw [mem_pid (hb.others r hrc)]
    exact mem_append_left _ hforked
  · intro x y hxy
    rw [hb.nextpid]
    rcases mem_append.1 hxy with hxy | hxy
    · exact ⟨(hd.order x y hxy).1, (hd.order x y hxy).2.trans (Nat.lt_succ_self _)⟩
    · obtain ⟨rfl, rfl⟩ := Prod.mk.inj (mem_singleton.1 hxy)
      exact ⟨hyoung, Nat.lt_succ_self _⟩
  · intro x x' y hxy hxy'
    rcases mem_append.1 hxy with hxy | hxy <;> rcases mem_append.1 hxy' with hxy' | hxy'
    · exact hd.one x x' y hxy hxy'
    · rw [(Prod.mk.inj (mem_singleton.1 hxy')).2] at hxy
      exact absurd hxy (hfresh x)
    · rw [(Prod.mk.inj (mem_singleton.1 hxy)).2] at hxy'
      exact absurd hxy' (hfresh x')
    · rw [(Prod.mk.inj (mem_singleton.1 hxy)).1, (Prod.mk.inj (mem_singleton.1 hxy')).1]
  · intro x y hxy
    obtain ⟨hforked, hgone⟩ := hd.gone x y hxy
    refine ⟨mem_append_left _ hforked, fun q hq hused => ?_⟩
    by_cases hqc : q = c
    · rw [hqc, hb.pid]
      exact fun e => hfresh x (by rw [e]; exact hforked)
    · rw [mem_pid (hb.others q hqc)]
      exact hgone q hq (hother q hqc hused)
  · exact hd.once
  · exact hd.handed

/-- A report is about a child of the caller that was not reported before. -/
theorem Descent.report (hd : Descent k h) (hlt : c < nproc) (hchild : k.isChild p c = true)
    (hz : (k.procs c).state = .zombie) (hb : Buries k c k') :
    Descent k' { h with reported := h.reported ++ [((k.procs p).pid, (k.procs c).pid)] } := by
  have husedc : (k.procs c).state ≠ .unused := by
    rw [hz]
    exact fun e => by cases e
  have hne : ∀ q, (k'.procs q).state ≠ .unused → q ≠ c := by
    rintro q hq rfl
    exact hq hb.state
  have hsame : ∀ q < nproc, (k'.procs q).state ≠ .unused → (k.procs q).state ≠ .unused ∧
      (k'.procs q).pid = (k.procs q).pid ∧ (k'.procs q).parent = (k.procs q).parent := by
    intro q _ hused
    have hmem := hb.others q (hne q hused)
    rw [← mem_state hmem]
    exact ⟨hused, mem_pid hmem, mem_parent hmem⟩
  have hshrunk : Descent k' h := by
    apply hd.shrink hb.nextpid.ge hsame
    intro d _ q _ _ hq
    have hqc : q ≠ c := by
      rintro rfl
      exact hq.2.2.2 hz
    exact alive_of_mem (hb.others q hqc) hq
  have hparent : (k.procs c).parent = some p := by
    unfold Kern.isChild at hchild
    rw [Bool.and_eq_true] at hchild
    exact eq_of_beq hchild.1
  have hforked : ((k.procs p).pid, (k.procs c).pid) ∈ h.forked := by
    rcases hd.kin c hlt husedc with ⟨hnone, -⟩ | ⟨q, hq, -, hq'⟩
    · rw [hnone] at hparent
      cases hparent
    · rw [hparent] at hq
      obtain rfl := Option.some.inj hq
      exact hq'
  refine { hshrunk with gone := fun x y hxy => ?_, once := ?_ }
  · rcases mem_append.1 hxy with hxy | hxy
    · exact hshrunk.gone x y hxy
    obtain ⟨rfl, rfl⟩ := Prod.mk.inj (mem_singleton.1 hxy)
    refine ⟨hforked, fun q hq hused hpid => hne q hused ?_⟩
    obtain ⟨hused0, hpid0, -⟩ := hsame q hq hused
    exact hd.distinct q hq c hlt hused0 husedc (hpid0.symm.trans hpid)
  rw [map_append, map_singleton, ← concat_eq_append]
  refine List.Nodup.concat (fun hmem => ?_) hd.once
  obtain ⟨⟨x, y⟩, hxy, rfl⟩ := mem_map.1 hmem
  exact (hd.gone x _ hxy).2 c hlt husedc rfl

/-- Every turn keeps the descent, while no father exits before its children. -/
theorem Descent.step (hd : Descent k h) (ht : Turn k a k') (hok : NoOrphans k a) :
    Descent k' (h.record k a k') := by
  cases ht with
  | quiet hal =>
    rw [record_alike hal]
    exact hd.quiet hal
  | @fork p c _ halive hb =>
    have hhanded : handovers k k' = [] := by
      refine handovers_nil fun q _ hused _ => mem_parent (hb.others q ?_)
      rintro rfl
      exact hused hb.unused
    unfold Annals.record
    dsimp only
    rw [births_born hb, hhanded, append_nil, append_nil]
    exact hd.fork hb halive
  | @exit p status _ halive he =>
    have hhanded : handovers k k' = [] := by
      refine handovers_nil fun q _ _ _ => ?_
      by_cases hq : q = p
      · rw [hq, he.parent]
      · exact mem_parent (he.others q hq)
    unfold Annals.record
    rw [hhanded, append_nil, append_nil, append_nil]
    exact hd.exit he (hok p status rfl) halive
  | @report p c _ _ halive hlt ha hchild hz hb =>
    have hhanded : handovers k k' = [] := by
      refine handovers_nil fun q _ _ hused => mem_parent (hb.others q ?_)
      rintro rfl
      exact hused hb.state
    have hrep := hd.report hlt hchild hz hb
    rcases ha with ⟨intr, rfl⟩ | ⟨pid, options, intr, rfl⟩
    all_goals
      unfold Annals.record
      dsimp only
      rw [burials_buries hlt hz hb p, hhanded, append_nil, append_nil]
      exact hrep

theorem Descent.orphan (hd : Descent k h) (he : Exits k p k') (halive : k.alive p) (hlt : c < nproc)
    (hused : (k.procs c).state ≠ .unused) (hparent : (k.procs c).parent = some p)
    (hforked : ∀ x ∈ h.forked, x ∈ h'.forked) : ¬ WellFathered k' h' := by
  intro hw
  have hdead : ¬ k'.alive p := by
    intro hp
    have hstate := he.state
    split at hstate
    · exact hp.2.2.2 hstate
    · exact hp.2.1 hstate
  obtain ⟨q, hq, -, hfork⟩ : ∃ q, (k.procs c).parent = some q ∧ k.alive q ∧
      ((k.procs q).pid, (k.procs c).pid) ∈ h.forked := by
    rcases hd.kin c hlt hused with ⟨hnone, -⟩ | hkin
    · rw [hnone] at hparent
      cases hparent
    · exact hkin
  rw [hparent] at hq
  obtain rfl := Option.some.inj hq
  have hcp : c ≠ p := by
    rintro rfl
    exact lt_irrefl _ (hd.order _ _ hfork).1
  have hmem := he.others c hcp
  -- nobody alive has the number of the parent, and the parent field still names its slot
  obtain ⟨q, hq, hfield, -⟩ := (hw.parent c hlt (by rw [mem_state hmem]; exact hused)
    (k.procs p).pid (by rw [mem_pid hmem]; exact hforked _ hfork)).2 (by
      intro r hr hpid
      have hrp : r ≠ p := by
        rintro rfl
        exact hdead hr
      have hused' : (k.procs r).state ≠ .unused := by
        rw [← mem_state (he.others r hrp)]
        exact hr.2.1
      rw [mem_pid (he.others r hrp)] at hpid
      exact hrp (hd.distinct r hr.1 p halive.1 hused' halive.2.1 hpid))
  rw [mem_parent hmem, hparent] at hfield
  obtain rfl := Option.some.inj hfield
  exact hdead hq

end

/-! ## Runs -/

section

variable {b : Machine} {k0 k k' : Kern} {h : Annals}

/-- The frames of the machine in a state of a run, whatever its actions. -/
theorem Lives.owned {ok : Kern → Action → Prop} (hboot : b.boot = .ok ((), k0))
    (hrun : Lives ok k0 k h) : Owned ⟨b.managed, False⟩ k 0 b.kernelFrames :=
  hrun.reach.invariant (owned_boot b False hboot) fun _ _ _ ho _ hs =>
    (owned_step (frameSet_managed b False) ho (fun hs' => hs'.elim) hs).1

theorem Lives.descent (hboot : b.boot = .ok ((), k0)) (hrun : Lives NoOrphans k0 k h) :
    Descent k h := by
  induction hrun with
  | start => exact Descent.start hboot
  | step hrun hok hs ih =>
    exact ih.step (turn_step (frameSet_managed b False) (fun hs' => hs') (hrun.owned hboot) hs) hok

/-- A step that keeps the reports and the parent fields right leaves no child behind. -/
theorem Lives.noOrphans {a : Action} (hboot : b.boot = .ok ((), k0)) (hrun : Lives NoOrphans k0 k h)
    (hs : Step k a k') (hw : WellFathered k' (h.record k a k')) : NoOrphans k a := by
  intro p status ha c hlt hused hparent
  subst ha
  cases hs with
  | @call _ _ r k1 halive hret =>
    have hkin := ((syscall_spec (frameSet_managed b False) (.exit status) (hrun.owned hboot) halive
      fun hs' => hs'.elim).ok r k1 hret).2.2
    exact (hrun.descent hboot).orphan (Exits.setReturn hkin r) halive hlt hused hparent
      (fun x hx => mem_append_left _ hx) hw

/-- Parents and children: as long as no process exits before its children, the reports and the parent
fields are right; the first exit that leaves a child behind makes them wrong. -/
theorem parents_right (hboot : b.boot = .ok ((), k0)) (hrun : Lives NoOrphans k0 k h) :
    WellFathered k h ∧ ∀ a k', Step k a k' →
      (WellFathered k' (h.record k a k') ↔ NoOrphans k a) := by
  refine ⟨(hrun.descent hboot).wellFathered, fun a k' hs => ⟨hrun.noOrphans hboot hs, fun hok => ?_⟩⟩
  exact ((hrun.step hok hs).descent hboot).wellFathered

/-- A run goes on with a `fork`, while there is room. -/
theorem Lives.fork {P : Kern → Action → Prop} {p n : Nat} (hok : P k (.call p .fork))
    (hboot : b.boot = .ok ((), k0)) (hrun : Lives P k0 k h) (hp : k.alive p) (hs : Spare k.mm n)
    (hn : n + n + 4 ≤ frameCount) (hslot : ∃ q < nproc, (k.procs q).state = .unused)
    (hplain : Plain k.files) :
    ∃ c k', Lives P k0 k' (h.record k (.call p .fork) k') ∧ Born k p c k' ∧
      Spare k'.mm (n + n + 4) ∧ Plain k'.files := by
  obtain ⟨c, k1, hret, hspare, hgrown, hchild⟩ := sysFork_spare (frameSet_managed b False)
    (hrun.owned hboot) (counted_reachable ⟨k0, hboot, hrun.reach⟩) hp hs hn hslot
  obtain ⟨-, hforks⟩ := ((syscall_spec (frameSet_managed b False) .fork (hrun.owned hboot) hp
    fun hs' => hs'.elim).ok _ k1 hret).2
  refine ⟨c, k1.setReturn p k.nextpid, hrun.step hok (.call hp hret), ?_, hspare, hplain.grown hgrown⟩
  have hmem := setReturn_mem k1 p k.nextpid
  constructor
  · exact hchild.lt
  · exact hchild.free
  · rcases hforks with ⟨hneg, -⟩ | ⟨_, _, _, _, hnext, _⟩
    · omega
    · exact hnext
  · rw [mem_state (hmem c), hchild.state]
  · rw [mem_pid (hmem c), hchild.pid]
  · rw [mem_parent (hmem c), hchild.parent]
  · intro q hq
    rw [hmem q, hchild.others q hq]

theorem Born.unused_of_ne {p c q : Nat} (hb : Born k p c k') (hq : q ≠ c)
    (hunused : (k.procs q).state = .unused) : (k'.procs q).state = .unused := by
  rw [mem_state (hb.others q hq), hunused]

theorem Born.alive {p c : Nat} (hb : Born k p c k') : k'.alive c := by
  rw [alive_iff, hb.state]
  exact ⟨hb.lt, rfl⟩

theorem small_fork {P : Kern → Action → Prop} (hok : ∀ k p, P k (.call p .fork)) :
    ∃ k0 k c h, smallMachine.boot = .ok ((), k0) ∧ Lives P k0 k h ∧ k.alive c ∧
      Spare k.mm 568 ∧ Plain k.files ∧ ∃ q < nproc, (k.procs q).state = .unused := by
  obtain ⟨k0, hboot, hstart⟩ := boot_bare smallMachine_bare
  have hfree : ∀ q, q ≠ 0 → (k0.procs q).state = .unused := fun q hq => by
    rw [hstart.others q hq]
    rfl
  have halive : k0.alive 0 := by
    rw [alive_iff, hstart.state]
    exact ⟨by decide, rfl⟩
  obtain ⟨c, k, hrun, hborn, hspare, hplain⟩ := Lives.fork (hok k0 0) hboot Lives.start halive
    hstart.spare (by decide) ⟨1, by decide, hfree 1 (by decide)⟩ hstart.files
  refine ⟨k0, k, c, _, hboot, hrun, hborn.alive, hspare, hplain, ?_⟩
  by_cases hc : c = 1
  · exact ⟨2, by decide, hborn.unused_of_ne (by omega) (hfree 2 (by decide))⟩
  · exact ⟨1, by decide, hborn.unused_of_ne (Ne.symm hc) (hfree 1 (by decide))⟩

theorem noOrphans_fork (k : Kern) (p : Nat) : NoOrphans k (.call p .fork) := by
  intro q status e
  cases e

/-- The first process has forked. -/
theorem parents_right_small : ∃ k0 k h, smallMachine.boot = .ok ((), k0) ∧
    Lives NoOrphans k0 k h ∧ WellFathered k h := by
  obtain ⟨k0, k, c, h, hboot, hrun, -⟩ := small_fork noOrphans_fork
  exact ⟨k0, k, h, hboot, hrun, (parents_right hboot hrun).1⟩

/-- A child of the first process forks and exits: its own child is left behind. -/
theorem parents_wrong : ¬ ∀ (b : Machine) (k0 k : Kern) (h : Annals), b.boot = .ok ((), k0) →
    Lives (fun _ _ => True) k0 k h → WellFathered k h := by
  intro hall
  obtain ⟨k0, k1, c, h1, hboot, hrun1, halive1, hspare1, hplain1, hslot1⟩ :=
    small_fork noOrphans_fork
  obtain ⟨d, k2, hrun2, hborn, -, hplain2⟩ :=
    Lives.fork (noOrphans_fork k1 c) hboot hrun1 halive1 hspare1 (by decide) hslot1 hplain1
  have hcd : c ≠ d := by
    rintro rfl
    exact halive1.2.1 hborn.unused
  have halive2 : k2.alive c := alive_of_mem (hborn.others c hcd) halive1
  have hcounted := counted_reachable ⟨k0, hboot, hrun2.reach⟩
  obtain ⟨k3, hexit, -⟩ := procCleanup_plain c 0 hplain2 fun i => by
    by_contra hlocked
    rw [Bool.not_eq_false] at hlocked
    exact Finset.notMem_empty i ((hcounted.filed.cache.locked i).1 hlocked)
  have hret : syscall c (.exit 0) k2 = .ok (0, k3) := Exec.bind_ok hexit
  have hstep : Step k2 (.call c (.exit 0)) (k3.setReturn c 0) := .call halive2 hret
  have hsome : ∀ {k h}, Lives NoOrphans k0 k h → Lives (fun _ _ => True) k0 k h := by
    intro k h hrun
    induction hrun with
    | start => exact Lives.start
    | step _ _ hs ih => exact ih.step trivial hs
  have hwell := hall smallMachine k0 _ _ hboot ((hsome hrun2).step trivial hstep)
  have hno := hrun2.noOrphans hboot hstep hwell
  exact hno c 0 rfl d hborn.lt (by rw [hborn.state]; exact fun e => by cases e) hborn.parent

end

end Slopix.Kernel
