import Slopix.Kernel.Ends
import Slopix.Kernel.Run
import Slopix.Mm.World

/-!
# Who owns a frame

`census k R H` counts every frame with its owners: the free list and the address spaces of the
processes, the address spaces `R` that a running call is building, the kernel stacks, the pipes, and
the frames `H` that the call or the kernel itself holds. `Owned K k R H` says that the census is `K`,
so that each operation below moves frames from one owner to another and loses none.
-/

namespace Slopix.Kernel

open Lib Mm Fs Ipc Multiset Function Kern

/-- The page table of a process, if it has one. -/
def Proc.root (x : Proc) : Multiset Nat := if x.pagetable = 0 then 0 else {x.pagetable}

/-- The frames of its kernel stack. -/
def Proc.stack (x : Proc) : Multiset Nat := if x.kstack = 0 then 0 else runFrames x.kstack kstackPages

/-- The fields of a process that say what it is and what it owns. -/
def Proc.mem (x : Proc) : ProcState × Option Nat × Nat × Nat × Nat :=
  (x.state, x.parent, x.kstack, x.pagetable, x.pid)

namespace Kern

/-- The page tables of all processes. -/
def roots (k : Kern) : Multiset Nat := ∑ p ∈ Finset.range nproc, (k.procs p).root

/-- The frames of all kernel stacks. -/
def kstacks (k : Kern) : Multiset Nat := ∑ p ∈ Finset.range nproc, (k.procs p).stack

/-- All frames with their owners. -/
def census (k : Kern) (R H : Multiset Nat) : Multiset Nat :=
  world k.mm (k.roots + R) + (k.kstacks + k.pipePages.val + H)

end Kern

/-- A free slot owns nothing, unless it is the one of the first process after its exit; a live process
has an address space and, the first one apart, a parent. -/
structure SlotOk (strict : Prop) (p : Nat) (x : Proc) : Prop where
  unused : x.state = .unused → strict ∨ p ≠ 0 → x.pagetable = 0 ∧ x.kstack = 0
  live : x.state.isLive = true → x.pagetable ≠ 0 ∧ (p ≠ 0 → x.parent ≠ none)

/-- The frames of a run; it is `strict` when the first process does not exit. After such an exit the
slot may be taken again before its memory is freed. -/
structure Ledger where
  frames : Multiset Nat
  strict : Prop

/-- No frame is counted twice, and in a strict run none is lost. -/
structure Ledger.Covers (K : Ledger) (c : Multiset Nat) : Prop where
  le : c ≤ K.frames
  eq : K.strict → c = K.frames

/-- A set of frames, none of them listed twice. -/
structure FrameSet (K : Ledger) : Prop where
  nodup : K.frames.Nodup
  isFrame : ∀ x ∈ K.frames, IsFrame x

/-- Every frame of `K` has at most one owner, in a strict run exactly one. -/
structure Owned (K : Ledger) (k : Kern) (R H : Multiset Nat) : Prop where
  total : K.Covers (k.census R H)
  slot : ∀ p, SlotOk K.strict p (k.procs p)
  ends : PipeEnds k

/-- What a call that only works on its own frames leaves behind. -/
structure Kept (K : Ledger) (R H : Multiset Nat) (k k' : Kern) : Prop where
  owned : Owned K k' R H
  mem : ∀ p, (k'.procs p).mem = (k.procs p).mem
  nextpid : k'.nextpid = k.nextpid

section

variable {K : Ledger} {R R' H H' : Multiset Nat} {k k' : Kern} {r pa : Nat}

theorem Ledger.Covers.of_eq {c c' : Multiset Nat} (h : K.Covers c) (e : c' = c) : K.Covers c' := e ▸ h

/-- Frames may be lost once the first process has exited. -/
theorem Ledger.Covers.mono {c c' : Multiset Nat} (h : K.Covers c) (hc : c' ≤ c)
    (hs : ¬ K.strict) : K.Covers c' :=
  ⟨hc.trans h.le, fun hs' => absurd hs' hs⟩

variable {y : Proc} {m : PhysMem}

theorem root_congr {x : Proc} (h : x.mem = y.mem) : x.root = y.root := by
  injection h with _ h
  injection h with _ h
  injection h with _ h
  injection h with hpt _
  unfold Proc.root
  rw [hpt]

theorem stack_congr {x : Proc} (h : x.mem = y.mem) : x.stack = y.stack := by
  injection h with _ h
  injection h with _ h
  injection h with hst _
  unfold Proc.stack
  rw [hst]

theorem SlotOk.congr {strict : Prop} {p : Nat} {x : Proc} (h : SlotOk strict p x)
    (hmem : y.mem = x.mem) : SlotOk strict p y := by
  injection hmem with hstate hmem
  injection hmem with hparent hmem
  injection hmem with hst hmem
  injection hmem with hpt _
  constructor
  · rw [hstate, hst, hpt]
    exact h.unused
  · rw [hstate, hparent, hpt]
    exact h.live

theorem roots_congr (h : ∀ p, (k'.procs p).mem = (k.procs p).mem) : k'.roots = k.roots :=
  Finset.sum_congr rfl fun p _ => root_congr (h p)

theorem stacks_congr (h : ∀ p, (k'.procs p).mem = (k.procs p).mem) : k'.kstacks = k.kstacks :=
  Finset.sum_congr rfl fun p _ => stack_congr (h p)

theorem Kept.roots (h : Kept K R H k k') : k'.roots = k.roots := roots_congr h.mem

theorem Kept.root {r : Nat} {R' : Multiset Nat} (h : Kept K R H k k') (hr : r ∈ k.roots + R') :
    r ∈ k'.roots + R' := by
  rwa [h.roots]

theorem holds_getProc_bind {α : Type} {p : Nat} {g : Proc → KM α} {Q : α → Kern → Prop} {E : Stop → Prop}
    (h : Holds (g (k.procs p) k) Q E) : Holds ((getProc p >>= g) k) Q E := h

theorem Kept.refl (h : Owned K k R H) : Kept K R H k k := ⟨h, fun _ => rfl, rfl⟩

theorem Kept.trans {k'' : Kern} {R1 H1 : Multiset Nat} (h : Kept K R1 H1 k k')
    (h' : Kept K R H k' k'') : Kept K R H k k'' :=
  ⟨h'.owned, fun p => (h'.mem p).trans (h.mem p), h'.nextpid.trans h.nextpid⟩

theorem mem_roots {p : Nat} (hp : p < nproc) (hpt : (k.procs p).pagetable ≠ 0) :
    (k.procs p).pagetable ∈ k.roots := by
  apply mem_of_le (le_sum_range (f := fun p => (k.procs p).root) hp)
  unfold Proc.root
  rw [if_neg hpt]
  exact mem_singleton_self _

/-! ## Changes of the tables -/

theorem Owned.quiet {l : Kern} (h : Owned K k R H) (hmm : l.mm = k.mm)
    (hmem : ∀ p, (l.procs p).mem = (k.procs p).mem) (hnext : l.nextpid = k.nextpid)
    (hs : SameEnds k l) : Kept K R H k l := by
  refine ⟨⟨h.total.of_eq ?_, fun p => (h.slot p).congr (hmem p), h.ends.congr hs⟩, hmem, hnext⟩
  unfold census
  rw [hmm, roots_congr hmem, stacks_congr hmem, hs.pipePages]

theorem roots_setProc {p : Nat} (hp : p < nproc) (x : Proc) :
    (k.setProc p x).roots + (k.procs p).root = k.roots + x.root := by
  have h := sum_range_change (f := fun q => ((k.setProc p x).procs q).root)
    (g := fun q => (k.procs q).root) hp (by
      intro q _ hq
      unfold setProc
      simp only [update_of_ne hq])
  simp only [setProc, update_self] at h
  exact h

theorem stacks_setProc {p : Nat} (hp : p < nproc) (x : Proc) :
    (k.setProc p x).kstacks + (k.procs p).stack = k.kstacks + x.stack := by
  have h := sum_range_change (f := fun q => ((k.setProc p x).procs q).stack)
    (g := fun q => (k.procs q).stack) hp (by
      intro q _ hq
      unfold setProc
      simp only [update_of_ne hq])
  simp only [setProc, update_self] at h
  exact h

/-- A process takes over frames that the call held, or gives some up to it. -/
theorem Owned.setProc {S T : Multiset Nat} {p : Nat} {x : Proc} (h : Owned K k R H) (hp : p < nproc)
    (hroot : x.root + S = (k.procs p).root + R) (hstack : x.stack + T = (k.procs p).stack + H)
    (hslot : SlotOk K.strict p x) : Owned K (k.setProc p x) S T := by
  have hroots : (k.setProc p x).roots + S = k.roots + R := by
    apply add_right_cancel (b := (k.procs p).root)
    calc
      (k.setProc p x).roots + S + (k.procs p).root
          = (k.setProc p x).roots + (k.procs p).root + S := by abel
      _ = k.roots + (x.root + S) := by rw [roots_setProc hp]; abel
      _ = k.roots + R + (k.procs p).root := by rw [hroot]; abel
  have hstacks : (k.setProc p x).kstacks + T = k.kstacks + H := by
    apply add_right_cancel (b := (k.procs p).stack)
    calc
      (k.setProc p x).kstacks + T + (k.procs p).stack
          = (k.setProc p x).kstacks + (k.procs p).stack + T := by abel
      _ = k.kstacks + (x.stack + T) := by rw [stacks_setProc hp]; abel
      _ = k.kstacks + H + (k.procs p).stack := by rw [hstack]; abel
  refine ⟨h.total.of_eq ?_, fun q => ?_, h.ends.congr ?_⟩
  · unfold census
    rw [hroots]
    calc
      world k.mm (k.roots + R) + ((k.setProc p x).kstacks + k.pipePages.val + T)
          = world k.mm (k.roots + R) + ((k.setProc p x).kstacks + T + k.pipePages.val) := by abel
      _ = world k.mm (k.roots + R) + (k.kstacks + k.pipePages.val + H) := by rw [hstacks]; abel
  · unfold Kern.setProc
    simp only [update_apply]
    split
    · rename_i e
      rw [e]
      exact hslot
    · exact h.slot q
  · exact SameEnds.of_eq rfl rfl

/-- The slot of the first process is taken again while it still has memory: its frames are lost. -/
theorem Owned.setProc_lost {p : Nat} {x : Proc} (h : Owned K k R H) (hp : p < nproc)
    (hs : ¬ K.strict) (hroot : x.root = 0) (hstack : x.stack + H' = H)
    (hslot : SlotOk K.strict p x) : Owned K (k.setProc p x) R H' := by
  have hroots : (k.setProc p x).roots + R ≤ k.roots + R := by
    have hsum := roots_setProc (k := k) hp x
    rw [hroot, add_zero] at hsum
    rw [← hsum]
    exact Multiset.add_le_add_right (Multiset.le_add_right _ _)
  have hstacks : (k.setProc p x).kstacks + H' ≤ k.kstacks + H := by
    have hsum := stacks_setProc (k := k) hp x
    calc
      (k.setProc p x).kstacks + H'
          ≤ (k.setProc p x).kstacks + H' + (k.procs p).stack := le_add_right _ _
      _ = (k.setProc p x).kstacks + (k.procs p).stack + H' := by abel
      _ = k.kstacks + H := by rw [hsum, ← hstack]; abel
  refine ⟨h.total.mono ?_ hs, fun q => ?_, h.ends.congr (SameEnds.of_eq rfl rfl)⟩
  · unfold census
    refine add_le_add (world_mono k.mm hroots) ?_
    calc
      (k.setProc p x).kstacks + k.pipePages.val + H'
          = (k.setProc p x).kstacks + H' + k.pipePages.val := by abel
      _ ≤ k.kstacks + H + k.pipePages.val := Multiset.add_le_add_right hstacks
      _ = k.kstacks + k.pipePages.val + H := by abel
  unfold Kern.setProc
  simp only [update_apply]
  split
  · rename_i e
    rw [e]
    exact hslot
  · exact h.slot q

/-- Fields of a process that say nothing about its frames. -/
theorem Owned.setProc_quiet {p : Nat} {x : Proc} (h : Owned K k R H)
    (hmem : x.mem = (k.procs p).mem) : Kept K R H k (k.setProc p x) := by
  apply h.quiet (l := k.setProc p x) rfl
  · intro q
    unfold Kern.setProc
    simp only [update_apply]
    split
    · rename_i e
      rw [e, hmem]
    · rfl
  · rfl
  · exact SameEnds.of_eq rfl rfl

/-! ## Changes of memory -/

/-- Frames move between the pools. -/
theorem Owned.withMm (h : Owned K k R H)
    (hw : world m (k.roots + R') + H' = world k.mm (k.roots + R) + H) :
    Kept K R' H' k (k.withMm m) := by
  refine ⟨⟨h.total.of_eq ?_, h.slot, h.ends.congr (SameEnds.of_eq rfl rfl)⟩, fun _ => rfl, rfl⟩
  calc
    world m (k.roots + R') + (k.kstacks + k.pipePages.val + H')
        = world m (k.roots + R') + H' + (k.kstacks + k.pipePages.val) := by abel
    _ = world k.mm (k.roots + R) + (k.kstacks + k.pipePages.val + H) := by rw [hw]; abel

theorem Owned.world_le (h : Owned K k R H) : world k.mm (k.roots + R) + H ≤ K.frames := by
  refine le_trans ?_ h.total.le
  refine Multiset.add_le_add_left ?_
  exact le_add_left _ _

variable (hK : FrameSet K)
include hK

theorem Owned.nodup (h : Owned K k R H) : (world k.mm (k.roots + R) + H).Nodup :=
  nodup_of_le h.world_le hK.nodup

theorem Owned.good (h : Owned K k R H) : Good k.mm (k.roots + R) where
  nodup := (nodup_add.1 (h.nodup hK)).1
  isFrame x hx := hK.isFrame x (mem_of_le h.world_le (mem_add.2 (Or.inl hx)))

theorem Owned.held (h : Owned K k R ({pa} + H)) :
    IsFrame pa ∧ pa ∉ world k.mm (k.roots + R) := by
  have hmem : pa ∈ ({pa} : Multiset Nat) + H := mem_add.2 (Or.inl (mem_singleton_self pa))
  refine ⟨hK.isFrame pa (mem_of_le h.world_le (mem_add.2 (Or.inr hmem))), ?_⟩
  exact fun hpa => disjoint_left.1 (nodup_add.1 (h.nodup hK)).2.2 hpa hmem

theorem Owned.alloc (h : Owned K k R H) (hal : pmmAlloc k.mm = some (pa, m)) :
    Kept K R ({pa} + H) k (k.withMm m) := by
  apply h.withMm
  rw [(world_alloc (h.good hK) hal).1]
  abel

theorem Owned.free (h : Owned K k R ({pa} + H)) :
    Kept K R H k (k.withMm (pmmFree k.mm pa)) := by
  obtain ⟨hframe, -⟩ := h.held hK
  apply h.withMm
  rw [world_free hframe]
  · abel
  · refine nodup_of_le ?_ (h.nodup hK)
    rw [add_comm]
    exact Multiset.add_le_add_left (Multiset.le_add_right _ _)

omit hK in
/-- A held page of zeros becomes the root of an address space. -/
theorem Owned.create (h : Owned K k R ({pa} + H)) (hzero : k.mm.page pa = fun _ => 0) :
    Owned K k ({pa} + R) H := by
  have hroots : k.roots + ({pa} + R) = pa ::ₘ (k.roots + R) := by
    rw [← singleton_add]
    abel
  refine ⟨h.total.of_eq ?_, h.slot, h.ends⟩
  unfold census
  rw [hroots, world_root hzero]
  abel

theorem Owned.map (h : Owned K k R ({pa} + H)) (hr : r ∈ k.roots + R) (va : Nat)
    (write exec : Bool) :
    Kept K R (if (vmmMapPage k.mm r va pa write exec).1 then H else {pa} + H) k
      (k.withMm (vmmMapPage k.mm r va pa write exec).2) := by
  obtain ⟨rest, hrest⟩ := exists_cons_of_mem hr
  have hgood := h.good hK
  rw [hrest] at hgood
  have hworld := world_mapPage hgood (h.held hK).1 va write exec
  apply h.withMm
  rw [hrest, hworld]
  split <;> abel

theorem Owned.unmap (h : Owned K k R H) (hr : r ∈ k.roots + R) (va : Nat) :
    Kept K R (returned (vmmUnmapPage k.mm r va).1 + H) k (k.withMm (vmmUnmapPage k.mm r va).2) := by
  obtain ⟨rest, hrest⟩ := exists_cons_of_mem hr
  have hgood := h.good hK
  rw [hrest] at hgood
  have hworld := world_unmapPage hgood va
  apply h.withMm
  rw [hrest, ← hworld]
  abel

/-- A page table and its pages become free. -/
theorem Owned.vmmFree (h : Owned K k ({r} + R) H) : Kept K R H k (k.withMm (vmmFree k.mm r)) := by
  have hroots : k.roots + ({r} + R) = r ::ₘ (k.roots + R) := by
    rw [← singleton_add]
    abel
  have hgood := h.good hK
  rw [hroots] at hgood
  apply h.withMm
  rw [hroots, world_vmmFree hgood]

theorem Owned.copy (h : Owned K k R H) (hr : r ∈ k.roots + R) :
    Kept K (returned (vmmCopy k.mm r).1 + R) H k (k.withMm (vmmCopy k.mm r).2) := by
  obtain ⟨rest, hrest⟩ := exists_cons_of_mem hr
  have hgood := h.good hK
  rw [hrest] at hgood
  have hroots : k.roots + (returned (vmmCopy k.mm r).1 + R) =
      returned (vmmCopy k.mm r).1 + (k.roots + R) := by abel
  apply h.withMm
  rw [hroots, hrest, world_copy hgood]

theorem Owned.allocContiguous {n : Nat} (h : Owned K k R H)
    (hal : pmmAllocContiguous k.mm n = some (pa, m)) :
    Kept K R (runFrames pa n + H) k (k.withMm m) := by
  apply h.withMm
  rw [world_allocContiguous (h.good hK) hal]
  abel

theorem Owned.freeContiguous {n : Nat} (h : Owned K k R (runFrames pa n + H)) :
    Kept K R H k (k.withMm (pmmFreeContiguous k.mm pa n)) := by
  apply h.withMm
  rw [world_freeContiguous]
  · abel
  · intro x hx
    exact hK.isFrame x (mem_of_le h.world_le (mem_add.2 (Or.inr (mem_add.2 (Or.inl hx)))))
  · refine nodup_of_le ?_ (h.nodup hK)
    rw [add_comm]
    exact Multiset.add_le_add_left (Multiset.le_add_right _ _)

theorem Owned.setPage_held (h : Owned K k R ({pa} + H)) (b : Bytes) :
    Kept K R ({pa} + H) k (k.withMm (k.mm.setPage pa b)) := by
  obtain ⟨-, hnot⟩ := h.held hK
  apply h.withMm
  rw [world_setPage]
  intro r hr hmem
  exact hnot (mem_of_le ((tables_le_space k.mm r).trans (space_le_world hr)) hmem)

theorem Owned.setPage_data (h : Owned K k R H) (hpa : IsData k.mm (k.roots + R) pa) (b : Bytes) :
    Kept K R H k (k.withMm (k.mm.setPage pa b)) := by
  apply h.withMm
  rw [world_setPage b (hpa.notMem_tables (h.good hK))]

/-! ## Pipes -/

/-- The last end frees the page of a pipe. -/
theorem Owned.closePipe {f : Nat} {w : Bool} {x : File} (h : Owned K k R H)
    (hf : (k.files f).target = some (pa, w)) (hx : x.type ≠ .pipe) :
    Kept K R H k ((k.setFile f x).closePipe pa w) := by
  have hpages := h.ends.pipePages_close hf hx
  have hmem : ∀ p, (((k.setFile f x).closePipe pa w).procs p).mem = (k.procs p).mem := by
    intro p
    rw [closePipe_procs]
    rfl
  have hnext : ((k.setFile f x).closePipe pa w).nextpid = k.nextpid := by
    unfold Kern.closePipe
    dsimp only
    split <;> rfl
  refine ⟨⟨h.total.of_eq ?_, fun p => (h.slot p).congr (hmem p), h.ends.close hf hx⟩, hmem, hnext⟩
  have hle := h.total.le
  unfold census at hle ⊢
  rw [roots_congr hmem, stacks_congr hmem, closePipe_mm]
  rw [hpages] at hle ⊢
  show world (if endOpen (k.pipes pa) (!w) = false then pmmFree k.mm pa else k.mm) _ + _ = _
  split
  · rename_i hclosed
    rw [if_pos hclosed] at hle
    -- the frame goes from the pipe to the free list
    have hone : {pa} + world k.mm (k.roots + R) ≤ K.frames := by
      refine le_trans ?_ hle
      calc
        {pa} + world k.mm (k.roots + R) = world k.mm (k.roots + R) + {pa} := add_comm _ _
        _ ≤ _ := by
          refine Multiset.add_le_add_left ?_
          refine le_trans ?_ (le_add_right _ H)
          refine le_trans ?_ (le_add_left _ k.kstacks)
          exact le_add_left _ _
    have hframe : IsFrame pa :=
      hK.isFrame pa (mem_of_le hone (mem_add.2 (Or.inl (mem_singleton_self pa))))
    rw [world_free hframe (nodup_of_le hone hK.nodup)]
    abel
  · rename_i hopen
    rw [add_zero]

theorem Owned.initPipe {f0 f1 : Nat} (h : Owned K k R ({pa} + H)) (hne : f0 ≠ f1)
    (h0 : (k.files f0).target = none) (h1 : (k.files f1).target = none) (hb0 : f0 < nfile)
    (hb1 : f1 < nfile) (hr0 : 0 < (k.files f0).ref) (hr1 : 0 < (k.files f1).ref) :
    Kept K R H k (k.initPipe pa f0 f1) := by
  have hpa : pa ∉ k.pipePages := by
    intro hmem
    have hnd := nodup_of_le h.total.le hK.nodup
    have hnd' := (nodup_add.1 (nodup_add.1 hnd).2.1).2.2
    exact disjoint_left.1 hnd' (mem_add.2 (Or.inr hmem))
      (mem_add.2 (Or.inl (mem_singleton_self pa)))
  obtain ⟨hends, hpages⟩ := h.ends.init hne h0 h1 hb0 hb1 hr0 hr1 hpa
  refine ⟨⟨h.total.of_eq ?_, h.slot, hends⟩, fun _ => rfl, rfl⟩
  unfold census
  rw [hpages]
  show world k.mm (k.roots + R) + (k.kstacks + _ + H) = _
  abel

end

end Slopix.Kernel
