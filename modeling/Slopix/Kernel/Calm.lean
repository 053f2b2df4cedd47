import Slopix.Kernel.Refs

/-!
# Programs that touch no reference

Mapping memory, loading a program, moving bytes through a pipe: these programs change neither a
descriptor nor a working directory nor a reference count, and lock nothing.
-/

namespace Slopix.Kernel

open Lib Mm Fs Ipc

/-- A program that touches no reference and never locks. -/
def Calm {α : Type} (m : KM α) : Prop :=
  ∀ k, Holds (m k) (fun _ k' => SameLinks k k') fun e => ∀ i, e ≠ .deadlock i

section

variable {α β : Type}

theorem calm_pure (a : α) : Calm (pure a) := fun k => holds_pure (SameLinks.refl k)

theorem calm_gets (f : Kern → α) : Calm (Exec.gets f) := fun k => holds_gets (SameLinks.refl k)

theorem calm_sleep : Calm (Exec.stop .sleep : KM α) := fun _ => holds_stop fun _ e => by cases e

theorem calm_modify {f : Kern → Kern} (h : ∀ k, SameLinks k (f k)) : Calm (Exec.modify f) :=
  fun k => holds_modify (h k)

theorem Calm.bind {m : KM β} {f : β → KM α} (hm : Calm m) (hf : ∀ b, Calm (f b)) :
    Calm (m >>= f) := by
  intro k
  refine (hm k).bind fun b k1 h1 => ?_
  exact (hf b k1).imp fun _ _ h2 => h1.trans h2

theorem calm_ite {c : Prop} [Decidable c] {m m' : KM α} (hm : Calm m) (hm' : Calm m') :
    Calm (if c then m else m') :=
  fun k => holds_ite (fun _ => hm k) fun _ => hm' k

theorem calm_all {body : β → KM Bool} (h : ∀ b, Calm (body b)) (l : List β) :
    Calm (Exec.all body l) := by
  induction l with
  | nil => exact calm_pure true
  | cons b l ih => exact (h b).bind fun _ => calm_ite ih (calm_pure false)

theorem calm_fail (e : Errno) : Calm (fail e) := calm_pure _

theorem calm_onMm (f : PhysMem → α × PhysMem) : Calm (onMm f) :=
  fun _ => holds_step ⟨rfl, fun _ => rfl, SameTags.refl _⟩

theorem calm_modifyMm (f : PhysMem → PhysMem) : Calm (modifyMm f) :=
  calm_modify fun _ => ⟨rfl, fun _ => rfl, SameTags.refl _⟩

theorem calm_modifyProc (p : Nat) {f : Proc → Proc} (hf : ∀ x, (f x).links = x.links) :
    Calm (modifyProc p f) := by
  refine calm_modify fun k => ⟨rfl, fun q => ?_, SameTags.refl _⟩
  unfold Kern.setProc
  simp only [Function.update_apply]
  split
  · rename_i e
    rw [e, hf]
  · rfl

theorem calm_onFs {f : FileSys → α × FileSys} (h : ∀ s, SameTags s (f s).2) :
    Calm (onFs (Exec.step f)) := by
  intro k
  apply holds_zoom
  exact holds_step ⟨rfl, fun _ => rfl, h k.fs⟩

theorem calm_allocPage : Calm allocPage := calm_onMm _

theorem calm_mapNew (pt va : Nat) {init : Nat → KM Bool} (hinit : ∀ pa, Calm (init pa))
    (write exec : Bool) : Calm (mapNew pt va init write exec) := by
  have hback : ∀ pa, Calm (do modifyMm fun m => pmmFree m pa; pure none : KM (Option Nat)) :=
    fun pa => (calm_modifyMm _).bind fun _ => calm_pure _
  refine calm_allocPage.bind fun pa => ?_
  cases pa with
  | none => exact calm_pure _
  | some pa =>
    refine (hinit pa).bind fun ok => calm_ite ?_ (hback pa)
    exact (calm_onMm _).bind fun _ => calm_ite (calm_pure _) (hback pa)

theorem calm_mapPages (pt : Nat) {init : Nat → Nat → KM Bool} (hinit : ∀ va pa, Calm (init va pa))
    (write exec : Bool) (n va : Nat) : Calm (mapPages pt init write exec n va) := by
  induction n generalizing va with
  | zero => exact calm_pure true
  | succ n ih =>
    refine (calm_mapNew pt va (hinit va) write exec).bind fun r => ?_
    cases r with
    | none => exact calm_pure false
    | some _ => exact ih (va + 4096)

theorem calm_unmapPages (pt n va : Nat) : Calm (unmapPages pt n va) := by
  induction n generalizing va with
  | zero => exact calm_pure ()
  | succ n ih =>
    refine (calm_onMm _).bind fun pa => ?_
    cases pa with
    | none => exact (calm_pure ()).bind fun _ => ih (va + 4096)
    | some pa => exact (calm_modifyMm _).bind fun _ => ih (va + 4096)

theorem calm_mmapLoop (pt : Nat) (write : Bool) (n done va : Nat) :
    Calm (mmapLoop pt write n done va) := by
  induction n generalizing done va with
  | zero => exact calm_pure true
  | succ n ih =>
    refine (calm_mapNew pt va (fun pa => (calm_modifyMm _).bind fun _ => calm_pure _) write
      false).bind fun r => ?_
    cases r with
    | none => exact (calm_unmapPages pt _ _).bind fun _ => calm_pure false
    | some _ => exact ih (done + 1) (va + 4096)

theorem calm_mapStack (pt : Nat) : Calm (mapStack pt) := by
  have hpage : ∀ va, Calm (mapNew pt va (fun _ => pure true) true false) :=
    fun va => calm_mapNew pt va (fun _ => calm_pure true) true false
  refine (hpage _).bind fun top => ?_
  cases top with
  | none => exact calm_pure _
  | some pa =>
    refine (calm_all (fun i => (hpage _).bind fun _ => calm_pure _) _).bind fun ok => ?_
    exact calm_pure _

/-! ## The loader -/

theorem calm_loadPage (h : Phdr) {read : Nat → Nat → KM (List UInt8)}
    (hread : ∀ off len, Calm (read off len)) (va pa : Nat) : Calm (loadPage h read va pa) := by
  unfold loadPage
  split
  · exact calm_pure _
  · exact (hread _ _).bind fun _ => (calm_modifyMm _).bind fun _ => calm_pure _

theorem calm_loadSegments (phdrs : List Phdr) (pt : Nat) {read : Nat → Nat → KM (List UInt8)}
    (hread : ∀ off len, Calm (read off len)) : Calm (loadSegments phdrs pt read) := by
  refine (calm_all (fun h => calm_ite (calm_pure _) ?_) phdrs).bind
    fun ok => calm_ite (calm_pure _) (calm_pure _)
  exact calm_mapPages pt (fun va pa => calm_loadPage h hread va pa) _ _ _ _

theorem calm_elfLoad (img : Image) (pt : Nat) : Calm (elfLoad img pt) := by
  refine calm_ite (calm_pure _) (calm_ite (calm_pure _) ?_)
  exact (calm_loadSegments _ pt fun _ _ => calm_pure _).bind fun _ => calm_pure _

theorem calm_readi (i off n : Nat) : Calm (onFs (Exec.step fun s => s.readi i off n)) :=
  calm_onFs fun _ => sameTags_readi i off n

theorem calm_elfLoadFromInode (i pt : Nat) : Calm (elfLoadFromInode i pt) := by
  refine (calm_readi i 0 64).bind fun hdr => ?_
  refine calm_ite (calm_pure _) (calm_ite (calm_pure _) (calm_ite (calm_pure _) ?_))
  refine (calm_readi i _ _).bind fun ph => calm_ite (calm_pure _) ?_
  exact (calm_loadSegments _ pt fun off len => calm_readi i _ _).bind fun _ => calm_pure _

/-! ## Memory calls -/

theorem calm_sysSbrk (p : Nat) (n : Int) : Calm (sysSbrk p n) := by
  have hset : ∀ (sz : Nat) (r : Int), Calm (do modifyProc p fun x => { x with sz := sz }; pure r) :=
    fun sz r => (calm_modifyProc p fun _ => by rfl).bind fun _ => calm_pure _
  refine (calm_gets _).bind fun proc => calm_ite (calm_fail _) (calm_ite ?_ (hset _ _))
  exact (calm_mapPages _ (fun _ _ => calm_pure true) _ _ _ _).bind fun ok =>
    calm_ite (hset _ _) (calm_fail _)

theorem calm_sysMmap (p addr len prot flags : Nat) : Calm (sysMmap p addr len prot flags) := by
  refine (calm_gets _).bind fun proc => calm_ite (calm_fail _) (calm_ite (calm_fail _)
    (calm_ite (calm_fail _) (calm_ite (calm_fail _) ?_)))
  refine (calm_mmapLoop _ _ _ _ _).bind fun ok => calm_ite (calm_ite ?_ (calm_pure _)) (calm_fail _)
  exact (calm_modifyProc p fun _ => by rfl).bind fun _ => calm_pure _

theorem calm_sysMunmap (p addr len : Nat) : Calm (sysMunmap p addr len) :=
  (calm_gets _).bind fun _ => calm_ite (calm_fail _) (calm_ite (calm_fail _)
    ((calm_unmapPages _ _ _).bind fun _ => calm_pure _))

theorem calm_freeSpace (c : Nat) : Calm (freeSpace c) :=
  (calm_gets _).bind fun _ => calm_ite ((calm_modifyMm _).bind fun _ =>
    calm_modifyProc c fun _ => by rfl) (calm_pure _)

theorem calm_freeStack (c : Nat) : Calm (freeStack c) :=
  (calm_gets _).bind fun _ => calm_ite ((calm_modifyMm _).bind fun _ =>
    calm_modifyProc c fun _ => by rfl) (calm_pure _)

theorem calm_schedReap (p : Nat) : Calm (schedReap p) :=
  (calm_gets _).bind fun _ => calm_ite ((calm_freeSpace p).bind fun _ => calm_freeStack p)
    (calm_pure _)

theorem calm_execFinish (p pt entry brk : Nat) (argv : List (List UInt8)) :
    Calm (execFinish p pt entry brk argv) := by
  refine (calm_mapStack pt).bind fun stack => ?_
  cases stack with
  | none => exact (calm_modifyMm _).bind fun _ => calm_fail _
  | some pa =>
    exact (calm_gets _).bind fun _ => (calm_modifyMm _).bind fun _ => (calm_gets _).bind fun _ =>
      (calm_modifyProc p fun _ => by rfl).bind fun _ => (calm_modifyMm _).bind fun _ => calm_pure _

theorem calm_waitMore (found intr : Bool) : Calm (waitMore found intr) :=
  calm_ite (calm_fail _) (calm_ite (calm_fail _) calm_sleep)

/-! ## Pipes -/

theorem sameLinks_setPipe (k : Kern) (pa : Nat) (pi : Pipe) :
    SameLinks k { k with pipes := Function.update k.pipes pa pi } :=
  ⟨rfl, fun _ => rfl, SameTags.refl _⟩

theorem calm_piperead (pa : Nat) (n : Int) : Calm (piperead pa n) :=
  (calm_gets _).bind fun _ => calm_ite calm_sleep
    ((calm_modify fun k => sameLinks_setPipe k pa _).bind fun _ => calm_pure _)

theorem calm_pipewrite (pa : Nat) (addr : List UInt8) : Calm (pipewrite pa addr) := by
  refine (calm_gets _).bind fun pi => ?_
  dsimp only
  cases (Ipc.writeLoop addr pi).2.2 with
  | done => exact (calm_modify fun k => sameLinks_setPipe k pa _).bind fun _ => calm_pure _
  | full => exact calm_sleep
  | closed => exact (calm_modify fun k => sameLinks_setPipe k pa _).bind fun _ => calm_pure _

end

end Slopix.Kernel
