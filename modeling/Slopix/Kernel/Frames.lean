import Slopix.Kernel.Owned

/-!
# Frame conservation

Every program of the kernel keeps `Owned`: the calls on files and paths move no frame, the calls that
build or tear down an address space move each frame exactly once, also on their error paths. The
result is that in every state between two calls each frame `pmm` manages is on the free list or has
exactly one owner.
-/

namespace Slopix.Kernel

open Lib Mm Fs Ipc Function Exec

/-- A program that moves no frame between the call and the rest. -/
def Keeps {α : Type} (K : Ledger) (m : KM α) : Prop :=
  ∀ k R H, Owned K k R H → Holds (m k) (fun _ k' => Kept K R H k k') fun _ => True

section

variable {K : Ledger} {α β : Type}

theorem keeps_pure (a : α) : Keeps K (pure a) := fun _ _ _ h => holds_pure (Kept.refl h)

theorem keeps_gets (f : Kern → α) : Keeps K (gets f) := fun _ _ _ h => holds_gets (Kept.refl h)

theorem keeps_stop (e : Stop) : Keeps K (stop e : KM α) := fun _ _ _ _ => holds_stop trivial

theorem keeps_modify {f : Kern → Kern} (hf : ∀ k R H, Owned K k R H → Kept K R H k (f k)) :
    Keeps K (modify f) :=
  fun k R H h => holds_modify (hf k R H h)

theorem Keeps.bind {m : KM β} {f : β → KM α} (hm : Keeps K m) (hf : ∀ b, Keeps K (f b)) :
    Keeps K (m >>= f) := by
  intro k R H h
  refine (hm k R H h).bind fun b k1 h1 => ?_
  exact (hf b k1 R H h1.owned).imp fun _ _ h2 => h1.trans h2

theorem keeps_ite {c : Prop} [Decidable c] {m m' : KM α} (hm : Keeps K m) (hm' : Keeps K m') :
    Keeps K (if c then m else m') := by
  intro k R H h
  exact holds_ite (fun _ => hm k R H h) fun _ => hm' k R H h

theorem keeps_each {body : β → KM Unit} (h : ∀ b, Keeps K (body b)) (l : List β) :
    Keeps K (each body l) := by
  induction l with
  | nil => exact keeps_pure ()
  | cons b l ih => exact (h b).bind fun _ => ih

/-- What the file system does leaves the memory alone. -/
theorem keeps_onFs (m : FsM α) : Keeps K (onFs m) := by
  intro k R H h
  apply holds_zoom
  have hfs : ∀ s, Kept K R H k (k.withFs s) :=
    fun s => h.quiet (l := k.withFs s) rfl (fun _ => rfl) rfl (SameEnds.of_eq rfl rfl)
  exact ⟨fun _ s _ => hfs s, fun _ _ => trivial⟩

theorem keeps_fail (e : Errno) : Keeps K (fail e) := keeps_pure _

theorem keeps_getProc (p : Nat) : Keeps K (getProc p) := keeps_gets _

/-- Fields of a process that say nothing about its frames. -/
theorem keeps_modifyProc (p : Nat) {f : Proc → Proc} (hf : ∀ x, (f x).mem = x.mem) :
    Keeps K (modifyProc p f) :=
  keeps_modify fun k _ _ h => h.setProc_quiet (hf (k.procs p))

/-- Fields of an open file that say nothing about a pipe. -/
theorem keeps_modifyFile (f : Nat) {g : File → File} (htarget : ∀ x, (g x).target = x.target)
    (href : ∀ x, (g x).ref = x.ref) (hside : ∀ x, (g x).type = x.type ∧
      (g x).readable = x.readable ∧ (g x).writable = x.writable) : Keeps K (modifyFile f g) := by
  refine keeps_modify fun k R H h => ?_
  apply h.quiet (l := k.setFile f (g (k.files f))) rfl (fun _ => rfl) rfl
  apply SameEnds.setFile
  · exact htarget _
  · intro e _ hpos
    rw [href]
    exact hpos
  · intro htype
    rw [(hside _).1] at htype
    exact ⟨htype, (hside _).2⟩

theorem keeps_setOfile (p fd : Nat) (f : Option Nat) :
    Keeps K (modify fun k => k.setOfile p fd f) :=
  keeps_modify fun _ _ _ h => h.setProc_quiet rfl

theorem keeps_fdalloc (p f : Nat) : Keeps K (step fun k => k.fdalloc p f) := by
  intro k R H h
  apply holds_step
  unfold Kern.fdalloc
  split
  · exact h.setProc_quiet rfl
  · exact Kept.refl h

theorem kept_filealloc {k : Kern} {R H : Multiset Nat} (h : Owned K k R H) :
    Kept K R H k k.filealloc.2 := by
  apply h.quiet
  · unfold Kern.filealloc
    split <;> rfl
  · intro p
    unfold Kern.filealloc
    split <;> rfl
  · unfold Kern.filealloc
    split <;> rfl
  · exact sameEnds_filealloc h.ends

theorem keeps_filedup (f : Nat) : Keeps K (step fun k => k.filedup f) := by
  intro k R H h
  apply holds_step
  apply h.quiet
  · unfold Kern.filedup
    split <;> rfl
  · intro p
    unfold Kern.filedup
    split <;> rfl
  · unfold Kern.filedup
    split <;> rfl
  · exact sameEnds_filedup f

end

section

variable {K : Ledger}

theorem kept_setPipe {k : Kern} {R H : Multiset Nat} {pa : Nat} {pi : Pipe} (h : Owned K k R H)
    (hflag : ∀ w, endOpen pi w = endOpen (k.pipes pa) w) :
    Kept K R H k { k with pipes := update k.pipes pa pi } :=
  h.quiet (l := { k with pipes := update k.pipes pa pi }) rfl (fun _ => rfl) rfl
    (SameEnds.setPipe hflag)

theorem keeps_piperead (pa : Nat) (n : Int) : Keeps K (piperead pa n) := by
  intro k R H h
  apply holds_gets_bind
  refine holds_ite (fun _ => holds_stop trivial) fun _ => ?_
  apply holds_modify_bind
  apply holds_pure
  exact kept_setPipe h fun w => endOpen_readLoop n.toNat _ w

theorem keeps_pipewrite (pa : Nat) (addr : List UInt8) : Keeps K (pipewrite pa addr) := by
  intro k R H h
  have hstore := kept_setPipe h fun w => endOpen_writeLoop addr (k.pipes pa) w
  apply holds_gets_bind
  cases (Ipc.writeLoop addr (k.pipes pa)).2.2 with
  | done => exact holds_modify_bind (holds_pure hstore)
  | full => exact holds_stop trivial
  | closed => exact holds_modify_bind (holds_pure hstore)

theorem keeps_setOff (f : Nat) (g : File → Nat) :
    Keeps K (modifyFile f fun x => { x with off := g x }) :=
  keeps_modifyFile f (fun _ => rfl) (fun _ => rfl) fun _ => ⟨rfl, rfl, rfl⟩

theorem keeps_fileread (f n : Nat) (dev : Int) : Keeps K (fileread f n dev) := by
  refine (keeps_gets _).bind fun ff => keeps_ite (keeps_pure _) ?_
  cases ff.type with
  | none => exact keeps_pure _
  | pipe => cases ff.pipe with
    | none => exact keeps_stop _
    | some pa => exact (keeps_piperead pa n).bind fun _ => keeps_pure _
  | inode => cases ff.ip with
    | none => exact keeps_stop _
    | some i =>
      exact (keeps_onFs _).bind fun _ => (keeps_onFs _).bind fun bs =>
        (keeps_setOff f _).bind fun _ => (keeps_onFs _).bind fun _ => keeps_pure _
  | device => exact keeps_pure _
  | bdevice =>
    exact keeps_ite (keeps_pure _) <| (keeps_gets _).bind fun _ =>
      (keeps_setOff f _).bind fun _ => keeps_pure _

theorem keeps_filewrite (f : Nat) (src : List UInt8) (dev : Int) : Keeps K (filewrite f src dev) := by
  refine (keeps_gets _).bind fun ff => keeps_ite (keeps_pure _) ?_
  cases ff.type with
  | none => exact keeps_pure _
  | pipe => cases ff.pipe with
    | none => exact keeps_stop _
    | some pa => exact keeps_pipewrite pa src
  | inode => cases ff.ip with
    | none => exact keeps_stop _
    | some i =>
      exact (keeps_onFs _).bind fun _ => (keeps_gets _).bind fun _ => (keeps_onFs _).bind fun _ =>
        (keeps_setOff f _).bind fun _ => (keeps_onFs _).bind fun _ => keeps_pure _
  | device => exact keeps_pure _
  | bdevice =>
    refine keeps_ite (keeps_pure _) (Keeps.bind ?_ fun _ =>
      (keeps_setOff f _).bind fun _ => keeps_pure _)
    exact keeps_onFs (modify fun s => bdevWrite src.length s _ src)

end

theorem keeps_closeTarget {K : Ledger} {x : File} (h : x.type ≠ .pipe) :
    Keeps K (closeTarget x) := by
  unfold closeTarget
  cases htype : x.type with
  | none => exact keeps_pure ()
  | pipe => exact absurd htype h
  | inode => cases x.ip with
    | none => exact keeps_pure ()
    | some i => exact keeps_onFs _
  | device => cases x.ip with
    | none => exact keeps_pure ()
    | some i => exact keeps_onFs _
  | bdevice => cases x.ip with
    | none => exact keeps_pure ()
    | some i => exact keeps_onFs _

section

variable {K : Ledger} (hK : FrameSet K)
include hK

/-- `fileclose`: only the last end of a pipe gives a frame back. -/
theorem keeps_fileclose (f : Nat) : Keeps K (fileclose f) := by
  intro k R H h
  apply holds_gets_bind
  refine holds_ite (fun _ => holds_pure (Kept.refl h)) fun _ => ?_
  refine holds_ite (fun href => holds_modify ?_) fun _ => ?_
  · apply h.quiet (l := k.setFile f _) rfl (fun _ => rfl) rfl
    apply SameEnds.setFile
    · rfl
    · exact fun _ _ _ => href
    · exact fun htype => ⟨htype, rfl, rfl⟩
  apply holds_modify_bind
  have hclosed : (k.files f).target = none →
      Kept K R H k (k.setFile f { k.files f with
        ref := (k.files f).ref - 1, type := .none, ip := none, pipe := none }) := by
    intro hnone
    apply h.quiet (l := k.setFile f _) rfl (fun _ => rfl) rfl
    exact SameEnds.setFile_none hnone fun e => by cases e
  by_cases htype : (k.files f).type = .pipe
  · cases hpipe : (k.files f).pipe with
    | none =>
      rw [closeTarget, htype, hpipe]
      exact holds_stop trivial
    | some pa =>
      rw [closeTarget, htype, hpipe]
      apply holds_modify
      apply h.closePipe hK
      · unfold File.target
        rw [htype, hpipe]
        rfl
      · exact fun e => by cases e
  · have hfirst := hclosed (target_of_ne_pipe htype)
    exact (keeps_closeTarget htype _ R H hfirst.owned).imp fun _ _ hlast => hfirst.trans hlast

/-- `pmm_alloc`: the call holds the new frame, a page of zeros; user pages stay user pages. -/
theorem allocPage_spec {k : Kern} {R H : Multiset Nat} (h : Owned K k R H) :
    Holds (allocPage k) (fun r k' => Kept K R (returned r + H) k k' ∧
      (∀ pa, r = some pa → k'.mm.page pa = fun _ => 0) ∧
      k'.files = k.files ∧ ∀ x, IsData k.mm (k.roots + R) x → IsData k'.mm (k.roots + R) x)
      fun _ => True := by
  apply holds_step
  dsimp only
  cases hal : pmmAlloc k.mm with
  | none =>
    rw [returned, zero_add]
    exact ⟨Kept.refl h, fun _ e => (by cases e), rfl, fun _ hx => hx⟩
  | some r =>
    obtain ⟨pa, m⟩ := r
    obtain ⟨hfree, hzero, hpage⟩ := pmmAlloc_spec hal
    refine ⟨h.alloc hK hal, fun pa' e => ?_, rfl, fun x hx => hx.congr fun r hr y hy => ?_⟩
    · obtain rfl := Option.some.inj e
      exact hzero
    apply hpage
    have hmem : pa ∈ k.mm.free := by
      rw [← Multiset.mem_coe, hfree]
      exact Multiset.mem_add.2 (Or.inl (Multiset.mem_singleton_self pa))
    exact (ne_of_mem_of_not_mem hmem ((h.good hK).notMem_free hr
      (Multiset.mem_of_le (tables_le_space k.mm r) hy))).symm

theorem keeps_pipealloc : Keeps K pipealloc := by
  intro k R H h
  apply holds_step_bind
  have h1 : Kept K R H k k.filealloc.2 := kept_filealloc h
  rcases hf0 : k.filealloc with ⟨_ | f0, k1⟩
  · rw [hf0] at h1
    exact holds_pure h1
  rw [hf0] at h1
  obtain ⟨hb0, -, hk1⟩ := filealloc_spec hf0
  apply holds_step_bind
  have h2 : Kept K R H k1 k1.filealloc.2 := kept_filealloc h1.owned
  rcases hf1 : k1.filealloc with ⟨_ | f1, k2⟩
  · rw [hf1] at h2
    refine (keeps_fileclose hK f0 k2 R H h2.owned).bind fun _ k3 h3 => holds_pure ?_
    exact (h1.trans h2).trans h3
  rw [hf1] at h2
  obtain ⟨hb1, href1, hk2⟩ := filealloc_spec hf1
  have hfile0 : k1.files f0 = newFile := by
    rw [hk1]
    exact update_self ..
  have hne : f0 ≠ f1 := by
    rintro rfl
    rw [hfile0] at href1
    cases href1
  have hfile0' : k2.files f0 = newFile := by
    rw [hk2, ← hfile0]
    exact update_of_ne hne ..
  have hfile1 : k2.files f1 = newFile := by
    rw [hk2]
    exact update_self ..
  refine (allocPage_spec hK h2.owned).bind fun pa k3 hpa => ?_
  obtain ⟨h3, -, hfiles, -⟩ := hpa
  cases pa with
  | none =>
    rw [returned, zero_add] at h3
    refine (keeps_fileclose hK f0 k3 R H h3.owned).bind fun _ k4 h4 => ?_
    refine (keeps_fileclose hK f1 k4 R H h4.owned).bind fun _ k5 h5 => holds_pure ?_
    exact (((h1.trans h2).trans h3).trans h4).trans h5
  | some pa =>
    apply holds_modify_bind
    apply holds_pure
    refine ((h1.trans h2).trans h3).trans (h3.owned.initPipe hK hne ?_ ?_ hb0 hb1 ?_ ?_)
    · rw [hfiles, hfile0']
      rfl
    · rw [hfiles, hfile1]
      rfl
    · rw [hfiles, hfile0']
      decide
    · rw [hfiles, hfile1]
      decide

theorem keeps_sysPipe (p : Nat) (ok : Bool) : Keeps K (sysPipe p ok) := by
  refine keeps_ite (keeps_fail _) ((keeps_pipealloc hK).bind fun r => ?_)
  match r with
  | none => exact keeps_fail _
  | some (rf, wf) =>
    have hclose : ∀ e, Keeps K (do fileclose rf; fileclose wf; fail e) := fun e =>
      (keeps_fileclose hK rf).bind fun _ => (keeps_fileclose hK wf).bind fun _ => keeps_fail e
    refine (keeps_fdalloc p rf).bind fun fd0 => ?_
    cases fd0 with
    | none => exact hclose _
    | some fd0 =>
      refine (keeps_fdalloc p wf).bind fun fd1 => ?_
      cases fd1 with
      | none => exact (keeps_setOfile p fd0 none).bind fun _ => hclose _
      | some _ => exact keeps_pure _

/-! ## Calls on files and paths -/

theorem keeps_sysClose (p fd : Nat) : Keeps K (sysClose p fd) := by
  refine (keeps_gets _).bind fun f => ?_
  cases f with
  | none => exact keeps_fail _
  | some f =>
    exact (keeps_setOfile p fd none).bind fun _ => (keeps_fileclose hK f).bind fun _ => keeps_pure _

omit hK in
theorem keeps_sysDup (p fd : Nat) : Keeps K (sysDup p fd) := by
  unfold sysDup
  refine (keeps_gets _).bind fun f => ?_
  cases f with
  | none => exact keeps_fail _
  | some f =>
    refine (keeps_fdalloc p f).bind fun newfd => ?_
    cases newfd with
    | none => exact keeps_fail _
    | some newfd => exact (keeps_filedup f).bind fun _ => keeps_pure _

/-- `open` touches no frame. -/
theorem keeps_sysOpen (p : Nat) (path : Option (List UInt8)) (flags : OpenFlags) :
    Keeps K (sysOpen p path flags) := by
  cases path with
  | none => exact keeps_fail _
  | some path =>
    refine (keeps_getProc p).bind fun proc => (keeps_onFs _).bind fun r => ?_
    cases r with
    | error e => exact keeps_fail _
    | ok ip =>
      intro k R H h
      apply holds_step_bind
      have h1 : Kept K R H k k.filealloc.2 := kept_filealloc h
      rcases hf : k.filealloc with ⟨_ | f, k1⟩ <;> rw [hf] at h1
      · exact ((keeps_onFs _).bind (fun _ => keeps_fail _) k1 R H h1.owned).imp
          fun _ _ h2 => h1.trans h2
      obtain ⟨-, -, hk1⟩ := filealloc_spec hf
      have hfile : k1.files f = newFile := by
        rw [hk1]
        exact update_self ..
      apply holds_gets_bind
      apply holds_modify_bind
      have h2 : ∀ d, Kept K R H k (k1.setFile f (openFile ip d flags)) := by
        intro d
        refine h1.trans (h1.owned.quiet (l := k1.setFile f (openFile ip d flags)) rfl
          (fun _ => rfl) rfl (SameEnds.setFile_none ?_ ?_))
        · rw [hfile]
          rfl
        show (if d.type = tDevice then FdType.device
          else if d.type = tBdevice then FdType.bdevice else FdType.inode) ≠ .pipe
        split
        · exact fun e => by cases e
        · split <;> exact fun e => by cases e
      -- unlock, then the descriptor
      have hrest : ∀ after : Option Nat → KM Int, (after none = do fileclose f; fail .enomem) →
          (∀ fd, after (some fd) = pure (fd : Int)) → Keeps K (do
            onFs (Fs.iunlock ip)
            let fd ← step fun k => k.fdalloc p f
            after fd) := by
        intro after hnone hsome
        refine (keeps_onFs _).bind fun _ => (keeps_fdalloc p f).bind fun fd => ?_
        cases fd with
        | none =>
          rw [hnone]
          exact (keeps_fileclose hK f).bind fun _ => keeps_fail _
        | some fd =>
          rw [hsome]
          exact keeps_pure _
      refine holds_ite (fun _ => ?_) fun _ => ?_
      · refine Holds.bind (keeps_onFs _ _ R H (h2 _).owned) fun _ k3 h3 => ?_
        exact Holds.imp (hrest _ rfl (fun _ => rfl) k3 R H h3.owned) fun _ _ h4 =>
          ((h2 _).trans h3).trans h4
      · exact Holds.imp (hrest _ rfl (fun _ => rfl) _ R H (h2 _).owned) fun _ _ h3 => (h2 _).trans h3

omit hK

theorem keeps_createAndDrop (p : Nat) (path : Option (List UInt8)) (type major minor : Nat) :
    Keeps K (createAndDrop p path type major minor) := by
  cases path with
  | none => exact keeps_fail _
  | some path =>
    refine (keeps_getProc p).bind fun proc => (keeps_onFs _).bind fun r => ?_
    cases r with
    | none => exact keeps_fail _
    | some ip => exact (keeps_onFs _).bind fun _ => keeps_pure _

theorem keeps_onPaths (p : Nat) (prog : Option Nat → List UInt8 → List UInt8 → FsM Int)
    (old new : Option (List UInt8)) :
    Keeps K (match old, new with
      | some old, some new => do
          let proc ← getProc p
          onFs (prog proc.cwd old new)
      | _, _ => fail .efault) := by
  match old, new with
  | some old, some new => exact (keeps_getProc p).bind fun _ => keeps_onFs _
  | none, _ => exact keeps_fail _
  | some _, none => exact keeps_fail _

theorem keeps_sysUnlink (p : Nat) (path : Option (List UInt8)) : Keeps K (sysUnlink p path) := by
  cases path with
  | none => exact keeps_fail _
  | some path => exact (keeps_getProc p).bind fun _ => keeps_onFs _

theorem keeps_sysChdir (p : Nat) (path : Option (List UInt8)) : Keeps K (sysChdir p path) := by
  cases path with
  | none => exact keeps_fail _
  | some path =>
    refine (keeps_getProc p).bind fun proc => (keeps_onFs _).bind fun ip => ?_
    cases ip with
    | none => exact keeps_fail _
    | some ip =>
      refine (keeps_onFs _).bind fun _ => (keeps_gets _).bind fun type => keeps_ite ?_ ?_
      · exact (keeps_onFs _).bind fun _ => keeps_fail _
      refine (keeps_onFs _).bind fun _ => ?_
      cases proc.cwd with
      | none => exact keeps_stop _
      | some old =>
        exact (keeps_onFs _).bind fun _ =>
          (keeps_modifyProc p fun _ => by rfl).bind fun _ => keeps_pure _

theorem keeps_sysStat (p : Nat) (path : Option (List UInt8)) (ok : Bool) :
    Keeps K (sysStat p path ok) := by
  cases path with
  | none => exact keeps_fail _
  | some path =>
    refine keeps_ite (keeps_fail _) ?_
    refine (keeps_getProc p).bind fun proc => (keeps_onFs _).bind fun ip => ?_
    cases ip with
    | none => exact keeps_fail _
    | some ip => exact (keeps_onFs _).bind fun _ => (keeps_onFs _).bind fun _ => keeps_pure _

theorem keeps_sysGetcwd (p size : Nat) (ok : Bool) : Keeps K (sysGetcwd p size ok) := by
  refine keeps_ite (keeps_fail _) (keeps_ite (keeps_fail _) ?_)
  refine (keeps_getProc p).bind fun proc => ?_
  cases proc.cwd with
  | none => exact keeps_stop _
  | some i =>
    refine (keeps_onFs _).bind fun _ => (keeps_onFs _).bind fun r => ?_
    cases r with
    | none => exact keeps_fail _
    | some names =>
      simp only
      cases cwdLength size names with
      | none => exact keeps_fail _
      | some n => exact keeps_pure _

theorem keeps_sysFstat (p fd : Nat) (ok : Bool) : Keeps K (sysFstat p fd ok) := by
  refine (keeps_gets _).bind fun f => ?_
  cases f with
  | none => exact keeps_fail _
  | some f =>
    refine keeps_ite (keeps_fail _) ((keeps_gets _).bind fun ff => ?_)
    have hlock : ∀ i, Keeps K (do onFs (ilock i); onFs (Fs.iunlock i); pure (0 : Int)) :=
      fun i => (keeps_onFs _).bind fun _ => (keeps_onFs _).bind fun _ => keeps_pure _
    cases ff.type <;> cases ff.ip <;> first | exact keeps_pure _ | exact hlock _

theorem keeps_sysRead (p fd n : Nat) (ok : Bool) (dev : Int) : Keeps K (sysRead p fd n ok dev) := by
  refine (keeps_gets _).bind fun f => ?_
  cases f with
  | none => exact keeps_pure _
  | some f => exact keeps_ite (keeps_pure _) (keeps_fileread f n dev)

theorem keeps_sysWrite (p fd : Nat) (src : List UInt8) (ok : Bool) (dev : Int) :
    Keeps K (sysWrite p fd src ok dev) := by
  refine (keeps_gets _).bind fun f => ?_
  cases f with
  | none => exact keeps_fail _
  | some f => exact keeps_ite (keeps_fail _) (keeps_filewrite f src dev)

theorem keeps_sysLseek (p fd : Nat) (offset : Int) (whence : Nat) :
    Keeps K (sysLseek p fd offset whence) := by
  refine (keeps_gets _).bind fun f => ?_
  cases f with
  | none => exact keeps_fail _
  | some f =>
    refine (keeps_gets _).bind fun ff => keeps_ite (keeps_fail _) (keeps_ite (keeps_fail _) ?_)
    have hset : ∀ base : Nat, Keeps K (
        if toLong ((base : Int) + offset) < 0 then fail .einval
        else do
          modifyFile f fun x => { x with off := (toLong ((base : Int) + offset)).toNat % Fs.uintMod }
          pure (toLong ((base : Int) + offset))) := fun base =>
      keeps_ite (keeps_fail _) ((keeps_setOff f _).bind fun _ => keeps_pure _)
    refine keeps_ite ((keeps_pure _).bind hset) (keeps_ite ((keeps_pure _).bind hset) ?_)
    cases ff.ip with
    | none => exact (keeps_stop _).bind hset
    | some i =>
      exact (keeps_onFs _).bind fun _ => (keeps_gets _).bind fun size =>
        (keeps_onFs _).bind fun _ => (keeps_pure _).bind hset

theorem keeps_sysFtruncate (p fd : Nat) (length : Int) : Keeps K (sysFtruncate p fd length) := by
  refine (keeps_gets _).bind fun f => ?_
  cases f with
  | none => exact keeps_fail _
  | some f =>
    refine (keeps_gets _).bind fun ff => ?_
    have htrunc : ∀ i, Keeps K (do
        onFs (ilock i)
        onFs (modify fun s => s.itruncTo i (length.toNat % Fs.uintMod))
        onFs (Fs.iunlock i)
        pure (0 : Int)) := fun i =>
      (keeps_onFs _).bind fun _ => (keeps_onFs _).bind fun _ => (keeps_onFs _).bind fun _ => keeps_pure _
    cases ff.type <;> cases ff.ip <;>
      first
      | exact keeps_fail _
      | exact keeps_ite (keeps_fail _) (keeps_ite (keeps_fail _) (htrunc _))

theorem keeps_sysGetdents (p fd count : Nat) (ok : Bool) : Keeps K (sysGetdents p fd count ok) := by
  refine (keeps_gets _).bind fun f => ?_
  cases f with
  | none => exact keeps_fail _
  | some f =>
    refine (keeps_gets _).bind fun ff => keeps_ite (keeps_fail _) (keeps_ite (keeps_fail _) ?_)
    cases ff.ip with
    | none => exact keeps_stop _
    | some i =>
      refine (keeps_onFs _).bind fun _ => (keeps_gets _).bind fun d => keeps_ite ?_ ?_
      · exact (keeps_onFs _).bind fun _ => keeps_fail _
      · exact (keeps_onFs _).bind fun r => (keeps_setOff f _).bind fun _ =>
          (keeps_onFs _).bind fun _ => keeps_pure _

end

end Slopix.Kernel
