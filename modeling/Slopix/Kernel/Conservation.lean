import Slopix.Kernel.Boot
import Slopix.Kernel.Spaces

/-!
# Frame conservation over whole runs

The calls that create, replace, end and reap processes, the start of the machine, and the result: in
every state between two calls, each frame `pmm` manages is on the free list or is owned by exactly one
place, and a reaped process owns nothing.
-/

namespace Slopix.Kernel

open Lib Mm Fs Ipc Function Multiset Or Kern

/-- The frames of the process in slot `q`. -/
def Kern.framesOf (k : Kern) (q : Nat) : Multiset Nat :=
  (k.procs q).root.bind (space k.mm) + (k.procs q).stack

/-- A slot that was a zombie and is not any more has given all its frames back. -/
def Reaps (k k' : Kern) : Prop :=
  ∀ q, (k.procs q).state = .zombie → (k'.procs q).state ≠ .zombie →
    ∀ x ∈ k.framesOf q, x ∈ k'.mm.free

/-- No process starts or ends; only free slots may get another number. -/
structure Kin (k k' : Kern) : Prop where
  nextpid : k.nextpid ≤ k'.nextpid
  state : ∀ q, (k'.procs q).state = (k.procs q).state
  id : ∀ q, (k.procs q).state ≠ .unused →
    (k'.procs q).pid = (k.procs q).pid ∧ (k'.procs q).parent = (k.procs q).parent

/-- What `fork` returns: an error, or the number of a new process whose parent is the caller. -/
def Forks (k : Kern) (p : Nat) (r : Int) (k' : Kern) : Prop :=
  (r < 0 ∧ Kin k k') ∨ ∃ c, c < nproc ∧ (k.procs c).state = .unused ∧ r = k.nextpid ∧
    k'.nextpid = k.nextpid + 1 ∧ (k'.procs c).state = .runnable ∧ (k'.procs c).pid = k.nextpid ∧
    (k'.procs c).parent = some p ∧ ∀ q, q ≠ c → (k'.procs q).mem = (k.procs q).mem

/-- What `exit` does: a process with a parent stays as a zombie. -/
structure Exits (k : Kern) (p : Nat) (k' : Kern) : Prop where
  nextpid : k'.nextpid = k.nextpid
  state : (k'.procs p).state = if (k.procs p).parent.isSome then .zombie else .unused
  pid : (k'.procs p).pid = (k.procs p).pid
  parent : (k'.procs p).parent = (k.procs p).parent
  others : ∀ q, q ≠ p → (k'.procs q).mem = (k.procs q).mem

/-- A zombie leaves the process table. -/
structure Buries (k : Kern) (c : Nat) (k' : Kern) : Prop where
  nextpid : k'.nextpid = k.nextpid
  state : (k'.procs c).state = .unused
  others : ∀ q, q ≠ c → (k'.procs q).mem = (k.procs q).mem

/-- What `wait` and `waitpid` do: nothing, or they report the end of a child. -/
def Waits (k : Kern) (p : Nat) (k' : Kern) : Prop :=
  Kin k k' ∨ ∃ c, c < nproc ∧ k.isChild p c = true ∧ (k.procs c).state = .zombie ∧ Buries k c k'

/-- What the start of the first process does to the process table. -/
structure Starts (k k' : Kern) : Prop where
  pid : (k'.procs 0).pid = k.nextpid
  parent : (k'.procs 0).parent = none
  nextpid : k'.nextpid = k.nextpid + 1
  others : ∀ q, q ≠ 0 → (k'.procs q).mem = (k.procs q).mem

/-- What a call does to the process table. -/
def Kindred (k : Kern) (p : Nat) (r : Int) (k' : Kern) : Call → Prop
  | .fork => Forks k p r k'
  | .exit _ => Exits k p k'
  | .wait _ => Waits k p k'
  | .waitpid _ _ _ => Waits k p k'
  | _ => Kin k k'

/-- What a call that starts and ends no process keeps. -/
def Steady {α : Type} (K : Ledger) (H : Multiset Nat) (k : Kern) (m : KM α) : Prop :=
  Holds (m k) (fun _ k' => Owned K k' 0 H ∧ Kin k k') fun _ => True

section

variable {K : Ledger} {H : Multiset Nat} {k k' : Kern} {p : Nat}

theorem alive_iff : k.alive p ↔ p < nproc ∧ (k.procs p).state.isLive = true := by
  unfold alive ProcState.isLive
  simp only [Bool.and_eq_true, bne_iff_ne, and_assoc]

theorem reaps_of_state (h : ∀ q, (k.procs q).state = .zombie → (k'.procs q).state = .zombie) :
    Reaps k k' := fun q hq hq' => absurd (h q hq) hq'

variable {y : Proc} {R : Multiset Nat} {pt : Nat}

theorem mem_state {x : Proc} (h : x.mem = y.mem) : x.state = y.state := congrArg Prod.fst h

theorem Kept.reaps (h : Kept K R H k k') : Reaps k k' :=
  reaps_of_state fun q hq => (mem_state (h.mem q)).trans hq

theorem mem_parent {x : Proc} (h : x.mem = y.mem) : x.parent = y.parent :=
  congrArg (fun m => m.2.1) h

theorem mem_pid {x : Proc} (h : x.mem = y.mem) : x.pid = y.pid := congrArg (fun m => m.2.2.2.2) h

theorem Kept.kin (h : Kept K R H k k') : Kin k k' where
  nextpid := h.nextpid.ge
  state q := mem_state (h.mem q)
  id q _ := ⟨mem_pid (h.mem q), mem_parent (h.mem q)⟩

theorem Kin.refl (k : Kern) : Kin k k := ⟨Nat.le_refl _, fun _ => rfl, fun _ _ => ⟨rfl, rfl⟩⟩

theorem Kin.trans {k'' : Kern} (h : Kin k k') (h' : Kin k' k'') : Kin k k'' where
  nextpid := h.nextpid.trans h'.nextpid
  state q := (h'.state q).trans (h.state q)
  id q hq := by
    obtain ⟨hpid, hparent⟩ := h.id q hq
    obtain ⟨hpid', hparent'⟩ := h'.id q (by rw [h.state q]; exact hq)
    exact ⟨hpid'.trans hpid, hparent'.trans hparent⟩

theorem Kin.reaps (h : Kin k k') : Reaps k k' := reaps_of_state fun q hq => (h.state q).trans hq

theorem Keeps.steady {α : Type} {m : KM α} (hm : Keeps K m) (h : Owned K k 0 H) : Steady K H k m :=
  (hm k 0 H h).imp fun _ _ h' => ⟨h'.owned, h'.kin⟩

theorem reaps_setProc {x : Proc} (h : ∀ q, (k.procs q).state = .zombie → (k'.procs q).state = .zombie)
    (hp : (k.procs p).state ≠ .zombie) : Reaps k (k'.setProc p x) := by
  apply reaps_of_state
  intro q hq
  unfold setProc
  simp only [update_apply]
  split
  · rename_i e
    rw [e] at hq
    exact absurd hq hp
  · exact h q hq

theorem slotOk_embryo {x : Proc} (h : x.state = .embryo) : SlotOk K.strict p x := by
  constructor <;> rw [h] <;> exact fun e => by cases e

/-- A process with an address space and a parent changes its state. -/
theorem Owned.setState (h : Owned K k R H) (hp : p < nproc) (state : ProcState)
    (hne : state ≠ .unused) (hlive : state.isLive = true →
      (k.procs p).pagetable ≠ 0 ∧ (p ≠ 0 → (k.procs p).parent ≠ none)) :
    Owned K (k.setProc p { k.procs p with state := state }) R H :=
  h.setProc hp rfl rfl ⟨fun e => absurd e hne, hlive⟩

variable (hK : FrameSet K)

/-- A live process has its page table among the owned ones. -/
theorem Owned.root_mem (h : Owned K k R H) (hp : k.alive p) :
    (k.procs p).pagetable ∈ k.roots + R := by
  obtain ⟨hlt, hlive⟩ := alive_iff.1 hp
  exact mem_add.2 (inl (mem_roots hlt ((h.slot p).live hlive).1))

include hK

/-! ## Memory of the caller -/

omit hK in
theorem setSz_spec {k1 : Kern} (h1 : Kept K 0 H k k1) (sz : Nat) (r : Int) :
    Holds ((do modifyProc p fun x => { x with sz := sz }; pure r : KM Int) k1)
      (fun _ k' => Owned K k' 0 H ∧ Kin k k') fun _ => True := by
  apply holds_modify_bind
  apply holds_pure
  have h2 := h1.trans (h1.owned.setProc_quiet (p := p) (x := { k1.procs p with sz := sz }) rfl)
  exact ⟨h2.owned, h2.kin⟩

theorem steady_sysSbrk (n : Int) (h : Owned K k 0 H) (hp : k.alive p) :
    Steady K H k (sysSbrk p n) := by
  apply holds_getProc_bind
  refine holds_ite (fun _ => holds_pure ⟨h, (Kept.refl h).kin⟩) fun _ => ?_
  refine holds_ite (fun _ => ?_) fun _ => setSz_spec (Kept.refl h) _ _
  refine (mapPages_spec hK (fun _ => pageInit_pure true) _ _ h (h.root_mem hp)).bind
    fun ok k1 h1 => ?_
  exact holds_ite (fun _ => setSz_spec h1 _ _) fun _ => holds_pure ⟨h1.owned, h1.kin⟩

theorem steady_sysMmap (addr len prot flags : Nat) (h : Owned K k 0 H) (hp : k.alive p) :
    Steady K H k (sysMmap p addr len prot flags) := by
  have hfail : ∀ e, Steady K H k (fail e) := fun e => (keeps_fail e).steady h
  apply holds_getProc_bind
  refine holds_ite (fun _ => hfail _) fun _ => holds_ite (fun _ => hfail _) fun _ =>
    holds_ite (fun _ => hfail _) fun _ => holds_ite (fun _ => hfail _) fun _ => ?_
  refine (mmapLoop_spec hK _ _ _ _ h (h.root_mem hp)).bind fun ok k1 h1 => ?_
  refine holds_ite (fun _ => ?_) fun _ => holds_pure ⟨h1.owned, h1.kin⟩
  refine holds_ite (fun _ => ?_) fun _ => holds_pure ⟨h1.owned, h1.kin⟩
  exact setSz_spec h1 _ _

theorem steady_sysMunmap (addr len : Nat) (h : Owned K k 0 H) (hp : k.alive p) :
    Steady K H k (sysMunmap p addr len) := by
  have hfail : ∀ e, Steady K H k (fail e) := fun e => (keeps_fail e).steady h
  apply holds_getProc_bind
  refine holds_ite (fun _ => hfail _) fun _ => holds_ite (fun _ => hfail _) fun _ => ?_
  refine (unmapPages_spec hK _ _ h (h.root_mem hp)).bind fun ok k1 h1 => ?_
  exact holds_pure ⟨h1.owned, h1.kin⟩

/-! ## Fork -/

/-- `proc_alloc`: a new kernel stack for a slot that had none, or nothing. -/
theorem procAlloc_spec (h : Owned K k R H) :
    match k.procAlloc with
    | (none, k') => Owned K k' R H ∧ Kin k k'
    | (some c, k') => c < nproc ∧ (k.procs c).state = .unused ∧ Owned K k' R H ∧
        (k'.procs c).state = .embryo ∧ (k'.procs c).pagetable = 0 ∧ (k'.procs c).pid = k.nextpid ∧
        (k'.procs c).parent = none ∧ k'.nextpid = k.nextpid + 1 ∧
        ∀ q, q ≠ c → k'.procs q = k.procs q := by
  unfold procAlloc
  cases hfind : (List.range nproc).find? fun p => (k.procs p).state == .unused with
  | none => exact ⟨h, Kin.refl k⟩
  | some c =>
    have hc : c < nproc := List.mem_range.1 (List.mem_of_find?_eq_some hfind)
    have hstate : (k.procs c).state = .unused := by
      have hunused := List.find?_some hfind
      exact eq_of_beq hunused
    have hnext : Owned K { k with nextpid := k.nextpid + 1 } R H :=
      ⟨h.total, h.slot, h.ends.congr (SameEnds.of_eq rfl rfl)⟩
    cases hal : pmmAllocContiguous k.mm kstackPages with
    | none =>
      refine ⟨hnext.setProc hc rfl rfl ⟨fun _ => (h.slot c).unused hstate, fun e => by cases e⟩,
        Nat.le_succ _, fun q => ?_, fun q hq => ?_⟩
      · by_cases hqc : q = c
        · subst hqc
          show (update k.procs q _ q).state = _
          rw [update_self, hstate]
        · exact congrArg Proc.state (update_of_ne hqc ..)
      have hqc : q ≠ c := by
        rintro rfl
        exact hq hstate
      show (update k.procs c _ q).pid = _ ∧ (update k.procs c _ q).parent = _
      rw [update_of_ne hqc]
      exact ⟨rfl, rfl⟩
    | some r =>
      obtain ⟨pa, m⟩ := r
      have hstack := hnext.allocContiguous hK hal
      have hpa : pa ≠ 0 := by
        have hmem : pa ∈ runFrames pa kstackPages + H := by
          apply mem_add.2 (inl _)
          unfold kstackPages
          rw [runFrames_succ, runFrames_succ, runFrames_succ, runFrames_succ]
          simp
        have hframe := hK.isFrame pa (mem_of_le hstack.owned.world_le (mem_add.2 (inr hmem)))
        have hge := hframe.ge
        unfold ramBase at hge
        omega
      refine ⟨hc, hstate, ?_, ?_, ?_, ?_, ?_, rfl, ?_⟩
      · by_cases hclean : K.strict ∨ c ≠ 0
        · -- the slot owns nothing
          obtain ⟨hpt, hks⟩ := (h.slot c).unused hstate hclean
          apply hstack.owned.setProc hc
          · show Proc.root _ + R = (k.procs c).root + R
            unfold Proc.root Proc.reset
            rw [if_pos rfl, if_pos hpt]
          · show Proc.stack _ + H = (k.procs c).stack + _
            unfold Proc.stack Proc.reset
            rw [if_neg hpa, if_pos hks, zero_add]
          · exact slotOk_embryo rfl
        apply hstack.owned.setProc_lost hc fun hs => hclean (inl hs)
        · unfold Proc.root Proc.reset
          rw [if_pos rfl]
        · unfold Proc.stack Proc.reset
          rw [if_neg hpa]
        · exact slotOk_embryo rfl
      · show (update k.procs c _ c).state = _
        rw [update_self]
        rfl
      · show (update k.procs c _ c).pagetable = _
        rw [update_self]
        rfl
      · show (update k.procs c _ c).pid = _
        rw [update_self]
        rfl
      · show (update k.procs c _ c).parent = _
        rw [update_self]
        rfl
      · exact fun q hq => update_of_ne hq ..

omit hK in
theorem keeps_forkFd (p c fd : Nat) : Keeps K (forkFd p c fd) := by
  unfold forkFd
  refine (keeps_getProc p).bind fun proc => ?_
  cases proc.ofile fd with
  | none => exact keeps_pure ()
  | some f => exact (keeps_filedup f).bind fun r => keeps_setOfile c fd r

omit hK in
theorem keeps_forkCwd (c : Nat) (cwd : Option Nat) : Keeps K (Exec.modify fun k => k.forkCwd c cwd) := by
  refine keeps_modify fun k R H h => ?_
  cases cwd with
  | none => exact Kept.refl h
  | some i =>
    have h1 : Kept K R H k (k.withFs (k.fs.idup i)) :=
      h.quiet (l := k.withFs (k.fs.idup i)) rfl (fun _ => rfl) rfl (SameEnds.of_eq rfl rfl)
    exact h1.trans (h1.owned.setProc_quiet rfl)

theorem Owned.ne_zero {r : Nat} (h : Owned K k R H) (hr : r ∈ k.roots + R) :
    r ≠ 0 := by
  have hmem : r ∈ world k.mm (k.roots + R) :=
    mem_of_le (space_le_world hr) (mem_add.2 (inl (mem_singleton_self r)))
  have hge := ((h.good hK).isFrame r hmem).ge
  unfold ramBase at hge
  omega

/-- `fork` keeps the accounts, whether it fails or not, and makes one child. -/
theorem sysFork_spec (h : Owned K k 0 H) (hp : k.alive p) :
    Holds (sysFork p k) (fun r k' => Owned K k' 0 H ∧ Reaps k k' ∧ Forks k p r k') fun _ => True := by
  apply holds_gets_bind
  apply holds_step_bind
  have h1 := h.copy hK (h.root_mem hp)
  cases hc : (vmmCopy k.mm (k.procs p).pagetable).1 with
  | none =>
    rw [hc, returned, zero_add] at h1
    exact holds_pure ⟨h1.owned, h1.reaps, inl ⟨by decide, h1.kin⟩⟩
  | some pt =>
    rw [hc, returned] at h1
    apply holds_step_bind
    have halloc := procAlloc_spec hK h1.owned
    rcases hres : (k.withMm (vmmCopy k.mm (k.procs p).pagetable).2).procAlloc with ⟨_ | c, k2⟩
    · rw [hres] at halloc
      have h2 : Owned K k2 _ H ∧ Kin _ k2 := halloc
      have hfree := h2.1.vmmFree hK
      have hkin := (h1.kin.trans h2.2).trans hfree.kin
      exact holds_modify_bind
        (holds_pure ⟨hfree.owned, hkin.reaps, inl ⟨by decide, hkin⟩⟩)
    rw [hres] at halloc
    obtain ⟨hclt, hunused, h2, hembryo, hnone, hpid, -, hnext, hother⟩ := halloc
    have hunused' : (k.procs c).state = .unused := hunused
    have hpt : pt ≠ 0 := h1.owned.ne_zero hK
      (mem_add.2 (inr (mem_add.2 (inl (mem_singleton_self pt)))))
    apply holds_modify_bind
    -- the child owns the new address space
    have h3 : Owned K (k2.setProc c { k2.procs c with
        pagetable := pt, parent := some p, pgid := (k.procs p).pgid, tf := (k.procs p).tf.child })
        0 H := by
      apply h2.setProc (S := 0) (T := H) hclt
      · show (if pt = 0 then 0 else {pt}) + 0 = (k2.procs c).root + ({pt} + 0)
        unfold Proc.root
        rw [if_neg hpt, if_pos hnone, zero_add]
      · rfl
      · exact slotOk_embryo hembryo
    refine (keeps_forkCwd c (k.procs p).cwd _ 0 H h3).bind fun _ k4 h4 => ?_
    refine (keeps_each (keeps_forkFd p c) _ k4 0 H h4.owned).bind fun _ k5 h5 => ?_
    have hmem := (h4.trans h5).mem
    have hmemc : (k5.procs c).mem = (ProcState.embryo, some p, (k2.procs c).kstack, pt, k.nextpid) := by
      rw [hmem c]
      unfold setProc
      simp only [update_self]
      simp only [hembryo, hpid]
      rfl
    have hmemq : ∀ q, q ≠ c → (k5.procs q).mem = (k.procs q).mem := by
      intro q hqc
      rw [hmem q]
      unfold setProc
      simp only [update_of_ne hqc]
      rw [hother q hqc]
      rfl
    have hparent : (k5.procs c).parent = some p := congrArg (fun m => m.2.1) hmemc
    have hpid5 : (k5.procs c).pid = k.nextpid := congrArg (fun m => m.2.2.2.2) hmemc
    have hroot : (k5.procs c).pagetable = pt := congrArg (fun m => m.2.2.2.1) hmemc
    apply holds_modify_bind
    apply holds_gets_bind
    apply holds_pure
    refine ⟨h5.owned.setState hclt .runnable (fun e => by cases e) fun _ => ?_,
      reaps_setProc (fun q hq => ?_) (by rw [hunused']; exact fun e => by cases e),
      inr ⟨c, hclt, hunused', ?_, ?_, ?_, ?_, ?_, fun q hqc => ?_⟩⟩
    · rw [hparent, hroot]
      exact ⟨hpt, fun _ e => by cases e⟩
    · have hqc : q ≠ c := by
        rintro rfl
        rw [hunused'] at hq
        cases hq
      rw [mem_state (hmemq q hqc)]
      exact hq
    · show ((update k5.procs c _ c).pid : Int) = _
      rw [update_self, hpid5]
    · show k5.nextpid = _
      rw [(h4.trans h5).nextpid]
      exact hnext
    · rw [setProc_procs_self]
    · rw [setProc_procs_self, hpid5]
    · rw [setProc_procs_self, hparent]
    · rw [setProc_procs_of_ne _ _ hqc, hmemq q hqc]

/-! ## Exec -/

/-- The program, loaded into a new address space that the call holds, or an error. -/
def Loads (K : Ledger) (H : Multiset Nat) (k : Kern) (r : Except Errno (Nat × Nat × Nat)) (k' : Kern) : Prop :=
  match r with
  | .error _ => Kept K 0 H k k'
  | .ok (pt, _, _) => Kept K {pt} H k k'

theorem execInitramfs_spec (name : List UInt8) (h : Owned K k 0 H) :
    Holds (execInitramfs name k) (Loads K H k) fun _ => True := by
  apply holds_gets_bind
  cases k.initramfs name with
  | none => exact holds_pure (Kept.refl h)
  | some img =>
    refine (allocPage_spec hK h).bind fun pt k1 halloc => ?_
    obtain ⟨h1, hzero, -, -⟩ := halloc
    cases pt with
    | none =>
      rw [returned, zero_add] at h1
      exact holds_pure h1
    | some pt =>
      have hspace : Kept K ({pt} + 0) H k k1 := ⟨h1.owned.create (hzero pt rfl), h1.mem, h1.nextpid⟩
      have hmem : pt ∈ k1.roots + ({pt} + 0) :=
        mem_add.2 (inr (mem_add.2 (inl (mem_singleton_self pt))))
      refine (elfLoad_spec hK img hspace.owned hmem).bind fun r k2 h2 => ?_
      rcases r with _ | ⟨entry, brk⟩
      · apply holds_modify_bind
        exact holds_pure ((hspace.trans h2).trans (h2.owned.vmmFree hK))
      · exact holds_pure (hspace.trans h2)

theorem execInode_spec (cwd : Option Nat) (path : List UInt8) (h : Owned K k 0 H) :
    Holds (execInode cwd path k) (Loads K H k) fun _ => True := by
  refine (keeps_onFs _ k 0 H h).bind fun ip k1 h1 => ?_
  cases ip with
  | none => exact holds_pure h1
  | some ip =>
    refine (keeps_onFs _ k1 0 H h1.owned).bind fun _ k2 h2 => ?_
    apply holds_gets_bind
    have h12 := h1.trans h2
    refine holds_ite (fun _ => ?_) fun _ => ?_
    · exact (keeps_onFs _ k2 0 H h2.owned).bind fun _ k3 h3 => holds_pure (h12.trans h3)
    refine (allocPage_spec hK h2.owned).bind fun pt k3 halloc => ?_
    obtain ⟨h3, hzero, -, -⟩ := halloc
    cases pt with
    | none =>
      rw [returned, zero_add] at h3
      exact (keeps_onFs _ k3 0 H h3.owned).bind fun _ k4 h4 =>
        holds_pure ((h12.trans h3).trans h4)
    | some pt =>
      have hspace : Kept K ({pt} + 0) H k k3 :=
        ⟨h3.owned.create (hzero pt rfl), (h12.trans h3).mem, (h12.trans h3).nextpid⟩
      have hmem : pt ∈ k3.roots + ({pt} + 0) :=
        mem_add.2 (inr (mem_add.2 (inl (mem_singleton_self pt))))
      refine (elfLoadFromInode_spec hK ip hspace.owned hmem).bind fun r k4 h4 => ?_
      rcases r with _ | ⟨entry, brk⟩
      · refine (keeps_onFs _ k4 _ H h4.owned).bind fun _ k5 h5 => ?_
        exact holds_modify_bind
          (holds_pure (((hspace.trans h4).trans h5).trans (h5.owned.vmmFree hK)))
      · exact (keeps_onFs _ k4 _ H h4.owned).bind fun _ k5 h5 =>
          holds_pure ((hspace.trans h4).trans h5)

theorem switch_spec {k3 : Kern} {x : Proc} (h : Kept K {pt} H k k3) (hp : k.alive p)
    (hxstate : x.state = (k3.procs p).state) (hxparent : x.parent = (k3.procs p).parent)
    (hxstack : x.kstack = (k3.procs p).kstack) (hxpid : x.pid = (k3.procs p).pid)
    (hxpt : x.pagetable = pt) :
    Owned K ((k3.setProc p x).withMm (Mm.vmmFree k3.mm (k3.procs p).pagetable)) 0 H ∧
      Kin k ((k3.setProc p x).withMm (Mm.vmmFree k3.mm (k3.procs p).pagetable)) := by
  obtain ⟨hlt, hlive⟩ := alive_iff.1 hp
  have hstate : (k3.procs p).state = (k.procs p).state := mem_state (h.mem p)
  have hold := (h.owned.slot p).live (by rw [hstate]; exact hlive)
  have hpt : pt ≠ 0 :=
    h.owned.ne_zero hK (mem_add.2 (inr (mem_singleton_self pt)))
  have hswap : Owned K (k3.setProc p x) ({(k3.procs p).pagetable} + 0) H := by
    apply h.owned.setProc hlt
    · unfold Proc.root
      rw [hxpt, if_neg hpt, if_neg hold.1, add_zero]
      exact add_comm _ _
    · unfold Proc.stack
      rw [hxstack]
    constructor
    · rw [hxstate, hstate]
      intro e
      rw [e] at hlive
      cases hlive
    · intro _
      rw [hxpt, hxparent]
      exact ⟨hpt, hold.2⟩
  have hfree := hswap.vmmFree hK
  have hswapped : Kin k3 (k3.setProc p x) := by
    refine ⟨Nat.le_refl _, fun q => ?_, fun q _ => ?_⟩
    · by_cases hqp : q = p
      · rw [hqp, setProc_procs_self, hxstate]
      · rw [setProc_procs_of_ne _ _ hqp]
    by_cases hqp : q = p
    · rw [hqp, setProc_procs_self]
      exact ⟨hxpid, hxparent⟩
    · rw [setProc_procs_of_ne _ _ hqp]
      exact ⟨rfl, rfl⟩
  exact ⟨hfree.owned, (h.kin.trans hswapped).trans hfree.kin⟩

/-- The end of `exec`: the new address space replaces the old one, which is freed. -/
theorem execFinish_spec {k1 : Kern} {entry brk : Nat} {argv : List (List UInt8)}
    (h1 : Kept K {pt} H k k1) (hp : k.alive p) :
    Holds (execFinish p pt entry brk argv k1) (fun _ k' => Owned K k' 0 H ∧ Kin k k')
      fun _ => True := by
  obtain ⟨hlt, hlive⟩ := alive_iff.1 hp
  have hmem : pt ∈ k1.roots + {pt} := mem_add.2 (inr (mem_singleton_self pt))
  refine (mapStack_spec hK h1.owned hmem).bind fun stack k2 ⟨h2, hdata⟩ => ?_
  have h12 := h1.trans h2
  cases stack with
  | none =>
    have hheld : Owned K k2 ({pt} + 0) H := h2.owned
    have h3 := h12.trans (hheld.vmmFree hK)
    exact holds_modify_bind (holds_pure ⟨h3.owned, h3.kin⟩)
  | some stackPa =>
    apply holds_gets_bind
    apply holds_modify_bind
    have hdata2 : IsData k2.mm (k2.roots + {pt}) stackPa := by
      rw [h2.roots]
      exact hdata stackPa rfl
    have h3 := h2.owned.setPage_data hK hdata2 (pushArgv (k2.mm.page stackPa) argv).1
    have h13 := h12.trans h3
    apply holds_gets_bind
    apply holds_modify_bind
    apply holds_modify_bind
    apply holds_pure
    exact switch_spec hK h13 hp rfl rfl rfl rfl rfl

theorem steady_sysExec (cmdline : Option (List UInt8)) (h : Owned K k 0 H) (hp : k.alive p) :
    Steady K H k (sysExec p cmdline) := by
  have hfail : ∀ e, Steady K H k (fail e) := fun e => (keeps_fail e).steady h
  unfold Steady sysExec
  cases cmdline with
  | none => exact hfail _
  | some cmd =>
    dsimp only
    cases words 64 cmd with
    | nil => exact hfail _
    | cons arg args =>
      apply holds_gets_bind
      have hload : ∀ r k1, Loads K H k r k1 →
          Holds ((match r with
            | .error e => fail e
            | .ok (pt, entry, brk) => execFinish p pt entry brk (arg :: args) : KM Int) k1)
            (fun _ k' => Owned K k' 0 H ∧ Kin k k') fun _ => True := by
        intro r k1 hr
        match r with
        | .error e => exact holds_pure ⟨Kept.owned hr, Kept.kin hr⟩
        | .ok (pt, entry, brk) => exact execFinish_spec hK hr hp
      refine holds_ite (fun _ => ?_) fun _ => ?_
      · exact (execInitramfs_spec hK _ h).bind hload
      · exact (execInode_spec hK _ _ h).bind hload

/-! ## Exit and wait -/

omit hK in
theorem keeps_dropCwd (p : Nat) : Keeps K (dropCwd p) := by
  unfold dropCwd
  refine (keeps_getProc p).bind fun proc => ?_
  cases proc.cwd with
  | none => exact keeps_pure ()
  | some i => exact (keeps_onFs _).bind fun _ => keeps_modifyProc p fun _ => by rfl

theorem keeps_closeFd (p fd : Nat) : Keeps K (closeFd p fd) := by
  refine (keeps_getProc p).bind fun proc => ?_
  cases proc.ofile fd with
  | none => exact keeps_pure ()
  | some f => exact (keeps_fileclose hK f).bind fun _ => keeps_setOfile p fd none

/-- `exit`: the process keeps its memory, as a zombie or, without a parent, in a free slot. -/
theorem procCleanup_spec (status : Int) (h : Owned K k 0 H) (hp : k.alive p)
    (hp0 : K.strict → p ≠ 0) :
    Holds (procCleanup p status k) (fun _ k' => Owned K k' 0 H ∧ Reaps k k' ∧ Exits k p k')
      fun _ => True := by
  obtain ⟨hlt, hlive⟩ := alive_iff.1 hp
  have hparent := ((h.slot p).live hlive).2
  refine (keeps_each (keeps_closeFd hK p) _ k 0 H h).bind fun _ k1 h1 => ?_
  refine (keeps_dropCwd p k1 0 H h1.owned).bind fun _ k2 h2 => ?_
  have h12 := h1.trans h2
  have hparent2 : p ≠ 0 → (k2.procs p).parent.isSome = true := by
    rw [mem_parent (h12.mem p)]
    exact fun hne => Option.isSome_iff_ne_none.2 (hparent hne)
  apply holds_modify
  dsimp only
  refine ⟨h2.owned.setProc hlt rfl rfl ⟨fun e hclean => ?_, fun e => ?_⟩, ?_, ?_⟩
  · have hne : p ≠ 0 := hclean.elim hp0 id
    rw [hparent2 hne, if_pos rfl] at e
    cases e
  · split at e <;> cases e
  · apply reaps_setProc (fun q hq => (mem_state (h12.mem q)).trans hq)
    intro e
    rw [e] at hlive
    cases hlive
  constructor
  · exact h12.nextpid
  · rw [setProc_procs_self, ← mem_parent (h12.mem p)]
  · rw [setProc_procs_self, ← mem_pid (h12.mem p)]
  · rw [setProc_procs_self, ← mem_parent (h12.mem p)]
  · intro q hq
    rw [setProc_procs_of_ne _ _ hq, h12.mem q]

/-- The address space of a dead process goes back to the free list. -/
theorem freeSpace_spec {c : Nat} (h : Owned K k 0 H) (hc : c < nproc)
    (hz : (k.procs c).state.isLive = false) :
    Holds (freeSpace c k) (fun _ k' => Owned K k' 0 H ∧
      k'.procs c = { k.procs c with pagetable := 0 } ∧ (∀ q, q ≠ c → k'.procs q = k.procs q) ∧
      (k'.mm.free : Multiset Nat) = (k.mm.free : Multiset Nat) + (k.procs c).root.bind (space k.mm) ∧
      k'.nextpid = k.nextpid) fun _ => True := by
  apply holds_gets_bind
  refine holds_ite (fun hpt => ?_) fun hpt => ?_
  · apply holds_modify_bind
    apply holds_modify
    -- the slot gives the root to the call, which frees it
    have hgive : Owned K (k.setProc c { k.procs c with pagetable := 0 })
        ({(k.procs c).pagetable} + 0) H := by
      apply h.setProc hc
      · show (0 : Multiset Nat) + _ = (k.procs c).root + 0
        unfold Proc.root
        rw [if_neg hpt, zero_add]
      · rfl
      constructor
      · exact fun e hclean => ⟨rfl, ((h.slot c).unused e hclean).2⟩
      exact fun e => by
        rw [show ({ k.procs c with pagetable := 0 } : Proc).state = (k.procs c).state from rfl,
          hz] at e
        cases e
    refine ⟨(hgive.vmmFree hK).owned, update_self .., fun q hq => update_of_ne hq ..,
      ?_, rfl⟩
    obtain ⟨rest, hrest⟩ := exists_cons_of_mem (mem_add.2 (inl (mem_roots hc hpt)))
    have hgood := h.good hK
    rw [hrest] at hgood
    have hfree := (vmmFree_spec hgood.sep).1
    show ((Mm.vmmFree k.mm (k.procs c).pagetable).free : Multiset Nat) = _
    unfold Proc.root
    rw [if_neg hpt, singleton_bind, hfree]
    rfl
  have hpt' : (k.procs c).pagetable = 0 := not_not.1 hpt
  refine holds_pure ⟨h, ?_, fun _ _ => rfl, ?_, rfl⟩
  · rw [← hpt']
  · unfold Proc.root
    rw [if_pos hpt', zero_bind, add_zero]

/-- The kernel stack of a dead process goes back to the free list. -/
theorem freeStack_spec {c : Nat} (h : Owned K k 0 H) (hc : c < nproc)
    (hz : (k.procs c).state.isLive = false) :
    Holds (freeStack c k) (fun _ k' => Owned K k' 0 H ∧
      k'.procs c = { k.procs c with kstack := 0 } ∧ (∀ q, q ≠ c → k'.procs q = k.procs q) ∧
      (k'.mm.free : Multiset Nat) = (k.mm.free : Multiset Nat) + (k.procs c).stack ∧
      k'.nextpid = k.nextpid) fun _ => True := by
  apply holds_getProc_bind
  refine holds_ite (fun hks => ?_) fun hks => ?_
  · apply holds_modify_bind
    apply holds_modify
    have hgive : Owned K (k.setProc c { k.procs c with kstack := 0 }) 0
        (runFrames (k.procs c).kstack kstackPages + H) := by
      apply h.setProc hc
      · rfl
      · show (0 : Multiset Nat) + _ = (k.procs c).stack + H
        unfold Proc.stack
        rw [if_neg hks, zero_add]
      constructor
      · exact fun e hclean => ⟨((h.slot c).unused e hclean).1, rfl⟩
      exact fun e => by
        rw [show ({ k.procs c with kstack := 0 } : Proc).state = (k.procs c).state from rfl,
          hz] at e
        cases e
    have hafter := (hgive.freeContiguous hK).owned
    have hfree : ((pmmFreeContiguous k.mm (k.procs c).kstack kstackPages).free : Multiset Nat) =
        (k.mm.free : Multiset Nat) + runFrames (k.procs c).kstack kstackPages := by
      refine (pmmFreeContiguous_spec (fun x hx => ?_) ?_).1
      · exact hK.isFrame x (mem_of_le hgive.world_le (mem_add.2 (inr (mem_add.2 (inl hx)))))
      · refine nodup_of_le ?_ (hgive.nodup hK)
        refine add_le_add ?_ (Multiset.le_add_right _ _)
        exact Multiset.le_add_right _ _
    have hmm : (k.setProc c { k.procs c with kstack := 0 }).mm = k.mm := rfl
    rw [hmm] at hafter
    beta_reduce
    generalize pmmFreeContiguous k.mm (k.procs c).kstack kstackPages = m at hafter hfree ⊢
    refine ⟨hafter, update_self .., fun q hq => update_of_ne hq .., ?_, rfl⟩
    unfold Proc.stack
    rw [if_neg hks]
    exact hfree
  have hks' : (k.procs c).kstack = 0 := not_not.1 hks
  refine holds_pure ⟨h, ?_, fun _ _ => rfl, ?_, rfl⟩
  · rw [← hks']
  · unfold Proc.stack
    rw [if_pos hks', add_zero]

/-- A zombie is reaped: its slot is free and all its frames are on the free list. -/
theorem encodeWaitStatus_spec {c : Nat} (h : Owned K k 0 H) (hc : c < nproc)
    (hz : (k.procs c).state = .zombie) :
    Holds (encodeWaitStatus c k) (fun _ k' => Owned K k' 0 H ∧ Reaps k k' ∧ Buries k c k')
      fun _ => True := by
  apply holds_gets_bind
  have hdead : (k.procs c).state.isLive = false := by
    rw [hz]
    rfl
  refine (freeSpace_spec hK h hc hdead).bind fun _ k1
    ⟨h1, hproc1, hother1, hfree1, hnext1⟩ => ?_
  have hz1 : (k1.procs c).state.isLive = false := by
    rw [hproc1]
    exact hdead
  refine (freeStack_spec hK h1 hc hz1).bind fun _ k2
    ⟨h2, hproc2, hother2, hfree2, hnext2⟩ => ?_
  apply holds_modify_bind
  have hdone : Owned K (k2.setProc c { k2.procs c with state := .unused }) 0 H ∧
      Reaps k (k2.setProc c { k2.procs c with state := .unused }) ∧
      Buries k c (k2.setProc c { k2.procs c with state := .unused }) := by
    refine ⟨?_, ?_, hnext2.trans hnext1, ?_, fun q hq => ?_⟩
    · refine h2.setProc hc rfl rfl ⟨fun _ _ => ?_, fun e => by cases e⟩
      rw [hproc2, hproc1]
      exact ⟨rfl, rfl⟩
    · intro q hq hq' x hx
      by_cases hqc : q = c
      · subst hqc
        have hstack : (k1.procs q).stack = (k.procs q).stack := by
          rw [hproc1]
          rfl
        show x ∈ k2.mm.free
        rw [← mem_coe, hfree2, hfree1, hstack, add_assoc]
        exact mem_add.2 (inr hx)
      apply absurd _ hq'
      unfold setProc
      simp only [update_of_ne hqc]
      rw [hother2 q hqc, hother1 q hqc]
      exact hq
    · rw [setProc_procs_self]
    · rw [setProc_procs_of_ne _ _ hq, hother2 q hq, hother1 q hq]
  exact holds_pure hdone

/-- The pass of the scheduler over the slot of a process that had no parent. -/
theorem steady_schedReap (h : Owned K k 0 H) (hp : p < nproc) : Steady K H k (schedReap p) := by
  apply holds_gets_bind
  refine holds_ite (fun hc => ?_) fun _ => holds_pure ⟨h, Kin.refl k⟩
  have hdead : (k.procs p).state.isLive = false := by
    rw [hc.1]
    rfl
  refine (freeSpace_spec hK h hp hdead).bind fun _ k1 ⟨h1, hproc1, hother1, _, hnext1⟩ => ?_
  have hdead1 : (k1.procs p).state.isLive = false := by
    rw [hproc1]
    exact hdead
  refine (freeStack_spec hK h1 hp hdead1).imp fun _ k2 ⟨h2, hproc2, hother2, _, hnext2⟩ => ⟨h2, ?_⟩
  refine ⟨(hnext2.trans hnext1).ge, fun q => ?_, fun q hq => ?_⟩
  · by_cases hqp : q = p
    · rw [hqp, hproc2, hproc1]
    · rw [hother2 q hqp, hother1 q hqp]
  have hqp : q ≠ p := by
    rintro rfl
    exact hq hc.1
  rw [hother2 q hqp, hother1 q hqp]
  exact ⟨rfl, rfl⟩

omit hK in
theorem keeps_waitMore (found intr : Bool) : Keeps K (waitMore found intr) :=
  keeps_ite (keeps_fail _) (keeps_ite (keeps_fail _) (keeps_stop _))

theorem sysWait_spec (intr : Bool) (h : Owned K k 0 H) :
    Holds (sysWait p intr k) (fun _ k' => Owned K k' 0 H ∧ Reaps k k' ∧ Waits k p k')
      fun _ => True := by
  apply holds_gets_bind
  cases hfind : (List.range nproc).find? fun c => k.isChild p c && (k.procs c).state == .zombie with
  | none =>
    simp only [id_eq, hfind]
    exact ((keeps_waitMore _ _).steady h).imp fun _ _ h' => ⟨h'.1, h'.2.reaps, inl h'.2⟩
  | some c =>
    simp only [id_eq, hfind]
    have hc := List.mem_range.1 (List.mem_of_find?_eq_some hfind)
    have hz := List.find?_some hfind
    rw [Bool.and_eq_true, beq_iff_eq] at hz
    exact (encodeWaitStatus_spec hK h hc hz.2).imp fun _ _ h' =>
      ⟨h'.1, h'.2.1, inr ⟨c, hc, hz.1, hz.2, h'.2.2⟩⟩

theorem sysWaitpid_spec (pid : Int) (options : Nat) (intr : Bool) (h : Owned K k 0 H) :
    Holds (sysWaitpid p pid options intr k) (fun _ k' => Owned K k' 0 H ∧ Reaps k k' ∧ Waits k p k')
      fun _ => True := by
  have hsame : Owned K k 0 H ∧ Reaps k k ∧ Waits k p k :=
    ⟨h, (Kin.refl k).reaps, inl (Kin.refl k)⟩
  apply holds_gets_bind
  dsimp only [id_eq]
  cases hfind : (List.range nproc).find? fun c => (k.isChild p c && (decide (pid ≤ 0) ||
      decide (((k.procs c).pid : Int) = pid))) && (k.procs c).state == .zombie with
  | some c =>
    have hc := List.mem_range.1 (List.mem_of_find?_eq_some hfind)
    have hz := List.find?_some hfind
    rw [Bool.and_eq_true, Bool.and_eq_true, beq_iff_eq] at hz
    exact (encodeWaitStatus_spec hK h hc hz.2).imp fun _ _ h' =>
      ⟨h'.1, h'.2.1, inr ⟨c, hc, hz.1.1, hz.2, h'.2.2⟩⟩
  | none =>
    cases ((List.range nproc).filter fun c => (k.isChild p c && (decide (pid ≤ 0) ||
      decide (((k.procs c).pid : Int) = pid))) && options.testBit 1 &&
        (k.procs c).state == .stopped).getLast? with
    | some c => exact holds_pure hsame
    | none =>
      refine holds_ite (fun _ => holds_pure hsame) fun _ => ?_
      exact ((keeps_waitMore _ _).steady h).imp fun _ _ h' => ⟨h'.1, h'.2.reaps, inl h'.2⟩

/-! ## All calls and all actions -/

/-- Every call of a live process; in a strict run not the exit of the first one. -/
theorem syscall_spec (c : Call) (h : Owned K k 0 H) (hp : k.alive p)
    (hinit : K.strict → ∀ status, p = 0 → c ≠ .exit status) :
    Holds (syscall p c k) (fun r k' => Owned K k' 0 H ∧ Reaps k k' ∧ Kindred k p r k' c)
      fun _ => True := by
  have hsteady : ∀ {m : KM Int}, Steady K H k m →
      Holds (m k) (fun _ k' => Owned K k' 0 H ∧ Reaps k k' ∧ Kin k k') fun _ => True :=
    fun hm => hm.imp fun _ _ h' => ⟨h'.1, h'.2.reaps, h'.2⟩
  cases c with
  | fork => exact sysFork_spec hK h hp
  | exec cmdline => exact hsteady (steady_sysExec hK cmdline h hp)
  | exit status =>
    refine (procCleanup_spec hK status h hp fun hs e => hinit hs status e rfl).bind ?_
    exact fun _ _ h' => holds_pure h'
  | wait intr => exact sysWait_spec hK intr h
  | waitpid pid options intr => exact sysWaitpid_spec hK pid options intr h
  | sbrk n => exact hsteady (steady_sysSbrk hK n h hp)
  | mmap addr len prot flags => exact hsteady (steady_sysMmap hK addr len prot flags h hp)
  | munmap addr len => exact hsteady (steady_sysMunmap hK addr len h hp)
  | openCall path flags => exact hsteady ((keeps_sysOpen hK p path flags).steady h)
  | close fd => exact hsteady ((keeps_sysClose hK p fd).steady h)
  | dup fd => exact hsteady ((keeps_sysDup p fd).steady h)
  | pipe ok => exact hsteady ((keeps_sysPipe hK p ok).steady h)
  | read fd n ok dev =>
    exact hsteady (((keeps_sysRead p fd n ok dev).bind fun _ => keeps_pure _).steady h)
  | write fd src ok dev => exact hsteady ((keeps_sysWrite p fd src ok dev).steady h)
  | lseek fd offset whence => exact hsteady ((keeps_sysLseek p fd offset whence).steady h)
  | fstat fd ok => exact hsteady ((keeps_sysFstat p fd ok).steady h)
  | ftruncate fd length => exact hsteady ((keeps_sysFtruncate p fd length).steady h)
  | getdents fd count ok => exact hsteady ((keeps_sysGetdents p fd count ok).steady h)
  | mkdir path => exact hsteady ((keeps_createAndDrop p path _ _ _).steady h)
  | mknod path major minor => exact hsteady ((keeps_createAndDrop p path _ _ _).steady h)
  | link old new => exact hsteady ((keeps_onPaths p link old new).steady h)
  | unlink path => exact hsteady ((keeps_sysUnlink p path).steady h)
  | rename old new => exact hsteady ((keeps_onPaths p rename old new).steady h)
  | chdir path => exact hsteady ((keeps_sysChdir p path).steady h)
  | stat path ok => exact hsteady ((keeps_sysStat p path ok).steady h)
  | getcwd size ok => exact hsteady ((keeps_sysGetcwd p size ok).steady h)

/-- The first process does not exit. -/
def InitStays (_ : Kern) (a : Action) : Prop := ∀ status, a ≠ .call 0 (.exit status)

/-- Every action keeps the accounts, and a parent is told of each child once. -/
theorem owned_step {a : Action} (h : Owned K k 0 H) (hok : K.strict → InitStays k a)
    (hs : Step k a k') :
    Owned K k' 0 H ∧ Reaps k k' := by
  cases hs with
  | @call p c r k1 halive hret =>
    have hcall := (syscall_spec hK c h halive fun hs status e hc => by
      subst e hc
      exact hok hs status rfl).ok r k1 hret
    have hregs : Kept K 0 H k1 (k1.setReturn p r) := hcall.1.setProc_quiet rfl
    refine ⟨hregs.owned, fun q hq hq' => ?_⟩
    rw [mem_state (hregs.mem q)] at hq'
    exact hcall.2.1 q hq hq'
  | @user p halive tf =>
    have hkept := h.setProc_quiet (p := p) (x := { k.procs p with tf := tf }) rfl
    exact ⟨hkept.owned, hkept.reaps⟩
  | @store p pa halive hpage b =>
    have hkept := h.setPage_data hK ⟨_, h.root_mem halive, hpage⟩ b
    exact ⟨hkept.owned, hkept.reaps⟩
  | recycle b =>
    have hkept : Kept K 0 H k (k.withFs (k.fs.recycle b)) :=
      h.quiet (l := k.withFs _) rfl (fun _ => rfl) rfl (SameEnds.of_eq rfl rfl)
    exact ⟨hkept.owned, hkept.reaps⟩
  | @reap p k1 hp hret =>
    have hreap := (steady_schedReap hK h hp).ok _ _ hret
    exact ⟨hreap.1, hreap.2.reaps⟩
  | @sched p halive state hlive =>
    obtain ⟨hlt, hlive'⟩ := alive_iff.1 halive
    constructor
    · apply h.setState hlt state
      · intro e
        rw [e] at hlive
        cases hlive
      · exact fun _ => (h.slot p).live hlive'
    apply reaps_setProc (fun _ hq => hq)
    intro e
    rw [e] at hlive'
    cases hlive'
  | @signal p halive pgid pending stopSignal =>
    have hkept := h.setProc_quiet (p := p) (x := { k.procs p with
      pgid := pgid, pending := pending, stopSignal := stopSignal }) rfl
    exact ⟨hkept.owned, hkept.reaps⟩

/-! ## The start -/

omit hK in
theorem procAlloc_first {c : Nat} (h : k.procAlloc = (some c, k')) (h0 : (k.procs 0).state = .unused) :
    c = 0 := by
  unfold procAlloc at h
  have hfind : (List.range nproc).find? (fun p => (k.procs p).state == .unused) = some 0 := by
    rw [List.find?_range_eq_some]
    exact ⟨by rw [h0]; rfl, by decide, fun j hj => absurd hj (Nat.not_lt_zero j)⟩
  rw [hfind] at h
  dsimp only at h
  split at h
  · cases h
  · injection h with hc
    injection hc with hc
    exact hc.symm

theorem initLoad_spec (program : List UInt8) (h : Owned K k R H)
    (hpt : pt ∈ k.roots + R) :
    Holds (initLoad program pt k) (fun _ k' => Kept K R H k k') fun _ => True := by
  -- what comes after either loader
  have hend : ∀ after : Option (Nat × Nat) → KM (Nat × Nat), after none = Exec.stop .fault →
      (∀ r, after (some r) = pure r) → ∀ r k1, Kept K R H k k1 →
        Holds (after r k1) (fun _ k' => Kept K R H k k') fun _ => True := by
    intro after hnone hsome r k1 h1
    cases r with
    | none =>
      rw [hnone]
      exact holds_stop trivial
    | some r =>
      rw [hsome]
      exact holds_pure h1
  refine holds_ite (fun _ => ?_) fun _ => ?_
  · apply holds_gets_bind
    cases k.initramfs (program.drop 10) with
    | none => exact holds_stop_bind trivial
    | some img => exact (elfLoad_spec hK img h hpt).bind (hend _ rfl fun _ => rfl)
  refine (keeps_onFs _ k R H h).bind fun ip k1 h1 => ?_
  cases ip with
  | none => exact holds_stop_bind trivial
  | some ip =>
    refine (keeps_onFs _ k1 R H h1.owned).bind fun _ k2 h2 => ?_
    apply holds_gets_bind
    refine holds_ite (fun _ => holds_stop_bind trivial) fun _ => ?_
    have h12 := h1.trans h2
    have hpt2 : pt ∈ k2.roots + R := h12.root hpt
    refine (elfLoadFromInode_spec hK ip h2.owned hpt2).bind fun r k3 h3 => ?_
    refine (keeps_onFs _ k3 R H h3.owned).bind fun _ k4 h4 => ?_
    exact Holds.bind (holds_pure ((h12.trans h3).trans h4)) (hend _ rfl fun _ => rfl)

omit hK in
theorem keeps_initConsole (p fd : Nat) : Keeps K (initConsole p fd) := by
  intro k R H h
  unfold initConsole
  apply holds_step_bind
  have h1 : Kept K R H k k.filealloc.2 := kept_filealloc h
  rcases hf : k.filealloc with ⟨_ | f, k1⟩ <;> rw [hf] at h1
  · exact holds_pure h1
  obtain ⟨-, -, hk1⟩ := filealloc_spec hf
  apply holds_modify_bind
  apply holds_modify
  have h2 : ∀ x : File, x.type = .device → Kept K R H k (k1.setFile f x) := by
    intro x hx
    refine h1.trans (h1.owned.quiet (l := k1.setFile f x) rfl (fun _ => rfl) rfl
      (SameEnds.setFile_none ?_ ?_))
    · rw [hk1]
      unfold setFile
      simp only [update_self]
      rfl
    · rw [hx]
      exact fun e => by cases e
  exact (h2 _ rfl).trans ((h2 _ rfl).owned.setProc_quiet rfl)

/-- The start of the first process. -/
theorem init_spec (program : List UInt8) (h : Owned K k 0 H) (h0 : (k.procs 0).state = .unused) :
    Holds (init program k) (fun _ k' => Owned K k' 0 H ∧ Starts k k') fun _ => True := by
  refine (allocPage_spec hK h).bind fun pt k1 ⟨h1, hzero, _, _⟩ => ?_
  cases pt with
  | none => exact holds_stop trivial
  | some pt =>
    have hspace : Kept K ({pt} + 0) H k k1 := ⟨h1.owned.create (hzero pt rfl), h1.mem, h1.nextpid⟩
    have hmem : ∀ k' : Kern, pt ∈ k'.roots + ({pt} + 0) := fun k' =>
      mem_add.2 (inr (mem_add.2 (inl (mem_singleton_self pt))))
    refine (initLoad_spec hK program hspace.owned (hmem k1)).bind fun r k2 h2 => ?_
    refine (mapStack_spec hK h2.owned (hmem k2)).bind fun stack k3 ⟨h3, _⟩ => ?_
    have hk3 := (hspace.trans h2).trans h3
    cases stack with
    | none => exact holds_stop trivial
    | some _ =>
      apply holds_step_bind
      have halloc := procAlloc_spec hK h3.owned
      rcases hres : k3.procAlloc with ⟨_ | p, k4⟩
      · exact holds_stop trivial
      rw [hres] at halloc
      obtain ⟨hlt, -, h4, -, hnone, hpid, hparent, hnext, hother⟩ := halloc
      have hp : p = 0 := procAlloc_first hres ((mem_state (hk3.mem 0)).trans h0)
      have hpt : pt ≠ 0 := h3.owned.ne_zero hK (hmem k3)
      apply holds_modify_bind
      have h5 : ∀ x : Proc, x.pagetable = pt → x.kstack = (k4.procs p).kstack →
          x.state = .runnable → Owned K (k4.setProc p x) 0 H := by
        intro x hxpt hxstack hxstate
        apply h4.setProc (S := 0) (T := H) hlt
        · unfold Proc.root
          rw [hxpt, if_neg hpt, if_pos hnone, zero_add]
        · unfold Proc.stack
          rw [hxstack]
        refine ⟨fun e => ?_, fun _ => ⟨?_, fun hne => absurd hp hne⟩⟩
        · rw [hxstate] at e
          cases e
        · rw [hxpt]
          exact hpt
      refine (keeps_onFs _ _ 0 H (h5 _ (by rfl) (by rfl) (by rfl))).bind fun root k6 h6 => ?_
      cases root with
      | none => exact holds_stop trivial
      | some root =>
        have hrest : Keeps K (do
            onFs (ilock root)
            onFs (Fs.iunlock root)
            modifyProc p fun x => { x with cwd := some root }
            initConsole p 0
            initConsole p 1
            initConsole p 2) :=
          (keeps_onFs _).bind fun _ => (keeps_onFs _).bind fun _ =>
            (keeps_modifyProc p fun _ => by rfl).bind fun _ =>
              (keeps_initConsole p 0).bind fun _ => (keeps_initConsole p 1).bind fun _ =>
                keeps_initConsole p 2
        refine (hrest k6 0 H h6.owned).imp fun _ k7 h7 => ⟨h7.owned, ?_⟩
        subst hp
        have h67 := h6.trans h7
        constructor
        · rw [mem_pid (h67.mem 0), setProc_procs_self]
          exact hpid.trans hk3.nextpid
        · rw [mem_parent (h67.mem 0), setProc_procs_self]
          exact hparent
        · rw [h67.nextpid]
          exact hnext.trans (congrArg (· + 1) hk3.nextpid)
        · intro q hq
          rw [h67.mem q, setProc_procs_of_ne _ _ hq, hother q hq, hk3.mem q]

end

section

variable (b : Machine)

theorem frameSet_managed (strict : Prop) : FrameSet ⟨b.managed, strict⟩ where
  nodup := coe_nodup.2 (nodup_ramFrames.filter _)
  isFrame _ hx := mem_ramFrames.1 (List.mem_filter.1 (mem_coe.1 hx)).1

theorem good_memory : Good b.memory 0 := by
  have hworld : world b.memory 0 = b.managed := by
    unfold world
    rw [zero_bind, add_zero]
    rfl
  constructor
  · rw [hworld]
    exact (frameSet_managed b True).nodup
  · rw [hworld]
    exact (frameSet_managed b True).isFrame

/-- The queue of the disk driver takes two frames or none. -/
theorem virtioQueueInit_spec :
    world (virtioQueueInit b.memory).2 0 + b.kernelFrames = b.managed := by
  have hgood := good_memory b
  have hmanaged : b.managed = world b.memory 0 := by
    unfold world
    rw [zero_bind, add_zero]
    rfl
  have hnd := hgood.nodup
  rw [hmanaged]
  unfold Machine.kernelFrames virtioQueueInit
  cases hal1 : pmmAlloc b.memory with
  | none => exact add_zero _
  | some r1 =>
    obtain ⟨pa1, m1⟩ := r1
    obtain ⟨hw1, hf1⟩ := world_alloc hgood hal1
    have hgood1 : Good m1 0 := by
      rw [hw1] at hnd
      refine ⟨(nodup_add.1 hnd).2.1, fun x hx => hgood.isFrame x ?_⟩
      rw [hw1]
      exact mem_add.2 (inr hx)
    dsimp only
    cases hal2 : pmmAlloc m1 with
    | none =>
      rw [hw1] at hnd ⊢
      exact (add_zero _).trans (world_free hf1 hnd)
    | some r2 =>
      obtain ⟨pa2, m2⟩ := r2
      obtain ⟨hw2, hf2⟩ := world_alloc hgood1 hal2
      have hrun : ∀ pa, runFrames pa 2 = {pa} + {pa + pageSize} := by
        intro pa
        rw [runFrames_succ, runFrames_succ]
        exact pair_comm _ _
      dsimp only
      rw [hw1, hw2] at hnd ⊢
      split
      · rename_i hnext
        show world m2 0 + runFrames pa1 2 = _
        rw [hrun, ← hnext]
        abel
      split
      · rename_i hnext
        show world m2 0 + runFrames pa2 2 = _
        rw [hrun, ← hnext]
        abel
      have hnd1 : ({pa1} + world m2 0).Nodup := by
        refine nodup_of_le ?_ hnd
        exact Multiset.add_le_add_left (Multiset.le_add_left _ _)
      have hfree1 := world_free hf1 hnd1
      have hnd2 : ({pa2} + world (pmmFree m2 pa1) 0).Nodup := by
        rw [hfree1]
        refine nodup_of_le (le_of_eq ?_) hnd
        abel
      rw [world_free hf2 hnd2, hfree1]
      abel

/-- Before the first process only the kernel owns frames. -/
theorem owned_powerOn {K : Ledger} {H : Multiset Nat} {m : PhysMem} {pipes : Nat → Pipe} {s : FileSys}
    {initramfs : List UInt8 → Option Image} (h : world m 0 + H = K.frames) :
    Owned K (powerOn m pipes s initramfs) 0 H := by
  have hroots : (powerOn m pipes s initramfs).roots = 0 := Finset.sum_eq_zero fun _ _ => rfl
  have hstacks : (powerOn m pipes s initramfs).kstacks = 0 := Finset.sum_eq_zero fun _ _ => rfl
  have hends : PipeEnds (powerOn m pipes s initramfs) := by
    constructor
    · intro f e hf
      cases hf
    · intro f e hf
      cases hf
    · intro f g e hf
      cases hf
    · intro f pa w w' hf
      cases hf
    · intro f hf
      cases hf
  have hpipes : (powerOn m pipes s initramfs).pipePages = ∅ := by
    apply Finset.eq_empty_of_forall_notMem
    intro pa
    rw [mem_pipePages hends]
    rintro ⟨f, w, hf⟩
    cases hf
  have hcensus : (powerOn m pipes s initramfs).census 0 H = K.frames := by
    unfold census
    rw [hroots, hstacks, hpipes, zero_add, ← h]
    show world m 0 + (0 + 0 + H) = _
    rw [add_zero, zero_add]
  have htotal : K.Covers ((powerOn m pipes s initramfs).census 0 H) := by
    generalize (powerOn m pipes s initramfs).census 0 H = c at hcensus
    exact ⟨le_of_eq hcensus, fun _ => hcensus⟩
  exact ⟨htotal, fun p => ⟨fun _ _ => ⟨rfl, rfl⟩, fun e => (by cases e)⟩, hends⟩

theorem owned_boot {k0 : Kern} (strict : Prop) (h : b.boot = .ok ((), k0)) :
    Owned ⟨b.managed, strict⟩ k0 0 b.kernelFrames :=
  ((init_spec (frameSet_managed b strict) b.program (owned_powerOn (virtioQueueInit_spec b)) rfl).ok
    _ _ h).1

theorem starts_boot {k0 : Kern} (h : b.boot = .ok ((), k0)) :
    Starts (powerOn (virtioQueueInit b.memory).2 b.pipes (mount b.sb b.disk) b.initramfs) k0 :=
  ((init_spec (frameSet_managed b True) b.program (owned_powerOn (virtioQueueInit_spec b)) rfl).ok
    _ _ h).2

end

namespace Kern

/-- The tables of all processes. -/
def tablePages (k : Kern) : Multiset Nat :=
  ∑ p ∈ Finset.range nproc, (k.procs p).root.bind (tables k.mm 4)

/-- The user mappings of all processes. -/
def userPages (k : Kern) : Multiset Nat :=
  ∑ p ∈ Finset.range nproc, (k.procs p).root.bind (pages k.mm 4)

end Kern

theorem bind_sum {s : Finset Nat} (f : Nat → Multiset Nat) (g : Nat → Multiset Nat) :
    (∑ i ∈ s, f i).bind g = ∑ i ∈ s, (f i).bind g := by
  induction s using Finset.induction_on with
  | empty => rfl
  | insert i s hi ih => rw [Finset.sum_insert hi, Finset.sum_insert hi, add_bind, ih]

theorem census_eq (k : Kern) (H : Multiset Nat) :
    k.census 0 H = (k.mm.free : Multiset Nat) + k.tablePages + k.userPages + k.kstacks +
      k.pipePages.val + H := by
  have hspace : k.roots.bind (space k.mm) = k.tablePages + k.userPages := by
    unfold roots tablePages userPages
    rw [bind_sum, ← Finset.sum_add_distrib]
    apply Finset.sum_congr rfl
    intro p _
    rw [← bind_add]
    apply Multiset.bind_congr
    intro r _
    unfold space
    rw [tables_add_pages]
  unfold census world
  rw [add_zero, hspace]
  abel

/-- Frame conservation: whatever calls are made in whatever order, successful or not, as long as the
first process does not exit, the frames that `pmm` manages are the free list, the page-table pages,
the user mappings, the kernel stacks, the pipes and the frames of the kernel, each frame once; and a
process that is reaped leaves all its frames on the free list. -/
theorem frame_conservation {b : Machine} {k : Kern} (h : b.Reachable InitStays k) :
    b.managed.Nodup ∧
      (k.mm.free : Multiset Nat) + k.tablePages + k.userPages + k.kstacks + k.pipePages.val +
        b.kernelFrames = b.managed ∧
      ∀ a k', InitStays k a → Step k a k' → ∀ q, (k.procs q).state = .zombie →
        (k'.procs q).state = .unused → ∀ x ∈ k.framesOf q, x ∈ k'.mm.free := by
  obtain ⟨k0, hboot, hreach⟩ := h
  have hK := frameSet_managed b True
  have howned : Owned ⟨b.managed, True⟩ k 0 b.kernelFrames :=
    hreach.invariant (owned_boot b True hboot) fun _ _ _ h hok hs =>
      (owned_step hK h (fun _ => hok) hs).1
  refine ⟨hK.nodup, ?_, fun a k' hok hs q hq hq' => ?_⟩
  · rw [← census_eq]
    exact howned.total.eq trivial
  · apply (owned_step hK howned (fun _ => hok) hs).2 q hq
    rw [hq']
    exact fun e => by cases e

end Slopix.Kernel
