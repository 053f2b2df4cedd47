import Mathlib.Data.Finset.Option
import Slopix.Kernel.Files

/-!
# The ends of pipes

An open file of type `FD_PIPE` is one of the two ends of the pipe in some frame. `PipeEnds` relates
the file table to the flags `readopen` and `writeopen`: each end is at most one open file, and while a
pipe is in use its flags tell which of its ends are open. `fileclose` relies on this when it frees the
frame together with the second end.
-/

namespace Slopix.Kernel

open Lib Mm Fs Ipc Function Kern

/-- The end of a pipe that an open file is: the frame, and whether it is the write end. -/
def File.target (x : File) : Option (Nat × Bool) :=
  match x.type with
  | .pipe => x.pipe.map fun pa => (pa, x.writable)
  | _ => none

/-- `writeopen` or `readopen`. -/
def endOpen (pi : Pipe) (writable : Bool) : Bool := if writable then pi.writeopen else pi.readopen

/-- Open files and pipes agree. -/
structure PipeEnds (k : Kern) : Prop where
  bound : ∀ f e, (k.files f).target = some e → f < nfile
  ref : ∀ f e, (k.files f).target = some e → 0 < (k.files f).ref
  unique : ∀ f g e, (k.files f).target = some e → (k.files g).target = some e → f = g
  flag : ∀ f pa w w', (k.files f).target = some (pa, w) →
    (endOpen (k.pipes pa) w' = true ↔ ∃ g, (k.files g).target = some (pa, w'))
  side : ∀ f, (k.files f).type = .pipe → (k.files f).readable = !(k.files f).writable

/-- The frames used as pipes. -/
def Kern.pipePages (k : Kern) : Finset Nat :=
  (Finset.range nfile).biUnion fun f => ((k.files f).target.map Prod.fst).toFinset

/-- Changes of the file table and of the pipes that keep every end. -/
structure SameEnds (k k' : Kern) : Prop where
  target : ∀ f, (k'.files f).target = (k.files f).target
  ref : ∀ f e, (k.files f).target = some e → 0 < (k.files f).ref → 0 < (k'.files f).ref
  flag : ∀ pa w, endOpen (k'.pipes pa) w = endOpen (k.pipes pa) w
  side : ∀ f, (k'.files f).type = .pipe →
    (k.files f).type = .pipe ∧ (k'.files f).readable = (k.files f).readable ∧
      (k'.files f).writable = (k.files f).writable

section

variable {k k' : Kern}

theorem mem_pipePages (h : PipeEnds k) {pa : Nat} :
    pa ∈ k.pipePages ↔ ∃ f w, (k.files f).target = some (pa, w) := by
  unfold pipePages
  simp only [Finset.mem_biUnion, Finset.mem_range, Option.mem_toFinset, Option.mem_def,
    Option.map_eq_some_iff]
  constructor
  · rintro ⟨f, -, ⟨pa', w⟩, htarget, rfl⟩
    exact ⟨f, w, htarget⟩
  · rintro ⟨f, w, htarget⟩
    exact ⟨f, h.bound f _ htarget, (pa, w), htarget, rfl⟩

theorem SameEnds.refl (k : Kern) : SameEnds k k where
  target _ := rfl
  ref _ _ _ h := h
  flag _ _ := rfl
  side _ h := ⟨h, rfl, rfl⟩

theorem SameEnds.of_eq (hfiles : k'.files = k.files) (hpipes : k'.pipes = k.pipes) :
    SameEnds k k' where
  target f := by rw [hfiles]
  ref f _ _ h := by rw [hfiles]; exact h
  flag pa w := by rw [hpipes]
  side f h := by
    rw [hfiles] at h ⊢
    exact ⟨h, rfl, rfl⟩

/-- Files with the same ends have the same pages. -/
theorem SameEnds.pipePages (h : SameEnds k k') : k'.pipePages = k.pipePages := by
  apply Finset.biUnion_congr rfl
  intro f _
  rw [h.target f]

theorem PipeEnds.congr (h : PipeEnds k) (hs : SameEnds k k') : PipeEnds k' where
  bound f e hf := h.bound f e (by rw [← hs.target f]; exact hf)
  ref f e hf := by
    rw [hs.target f] at hf
    exact hs.ref f e hf (h.ref f e hf)
  unique f g e hf hg := by
    rw [hs.target] at hf hg
    exact h.unique f g e hf hg
  flag f pa w w' hf := by
    rw [hs.target] at hf
    rw [hs.flag, h.flag f pa w w' hf]
    constructor
    · rintro ⟨g, hg⟩
      exact ⟨g, by rw [hs.target]; exact hg⟩
    · rintro ⟨g, hg⟩
      exact ⟨g, by rw [← hs.target]; exact hg⟩
  side f hf := by
    obtain ⟨htype, hr, hw⟩ := hs.side f hf
    rw [hr, hw]
    exact h.side f htype

/-- One entry of the file table changes and keeps its end. -/
theorem SameEnds.setFile {f : Nat} {x : File} (htarget : x.target = (k.files f).target)
    (href : ∀ e, (k.files f).target = some e → 0 < (k.files f).ref → 0 < x.ref)
    (hside : x.type = .pipe → (k.files f).type = .pipe ∧ x.readable = (k.files f).readable ∧
      x.writable = (k.files f).writable) : SameEnds k (k.setFile f x) where
  target g := by
    unfold Kern.setFile
    simp only [update_apply]
    split
    · rename_i e
      rw [e, htarget]
    · rfl
  ref g e hg hpos := by
    unfold Kern.setFile
    simp only [update_apply]
    split
    · rename_i heq
      subst heq
      exact href e hg hpos
    · exact hpos
  flag _ _ := rfl
  side g := by
    unfold Kern.setFile
    simp only [update_apply]
    split
    · rename_i heq
      subst heq
      exact hside
    · exact fun h => ⟨h, rfl, rfl⟩

theorem target_of_ne_pipe {x : File} (h : x.type ≠ .pipe) : x.target = none := by
  unfold File.target
  split
  · rename_i htype
    exact absurd htype h
  · rfl

theorem SameEnds.setFile_none {f : Nat} {x : File} (hf : (k.files f).target = none)
    (hx : x.type ≠ .pipe) : SameEnds k (k.setFile f x) := by
  apply SameEnds.setFile
  · rw [target_of_ne_pipe hx, hf]
  · intro e he
    rw [hf] at he
    cases he
  · exact fun h => absurd h hx

theorem sameEnds_filealloc (h : PipeEnds k) : SameEnds k k.filealloc.2 := by
  unfold filealloc
  cases hfind : (List.range nfile).find? fun f => (k.files f).ref == 0 with
  | none => exact SameEnds.refl k
  | some f =>
    have href := List.find?_some hfind
    simp only [beq_iff_eq] at href
    apply SameEnds.setFile_none
    · cases htarget : (k.files f).target with
      | none => rfl
      | some e =>
        have hpos := h.ref f e htarget
        omega
    · exact fun e => by cases e

theorem sameEnds_filedup (f : Nat) : SameEnds k (k.filedup f).2 := by
  unfold filedup
  split
  · exact SameEnds.refl k
  apply SameEnds.setFile
  · rfl
  · intro e _ hpos
    show 0 < (k.files f).ref + 1
    omega
  · exact fun h => ⟨h, rfl, rfl⟩

/-- What `filealloc` returns was not in use. -/
theorem filealloc_spec {f : Nat} (h : k.filealloc = (some f, k')) :
    f < nfile ∧ (k.files f).ref = 0 ∧ k' = k.setFile f newFile := by
  unfold filealloc at h
  cases hfind : (List.range nfile).find? fun f => (k.files f).ref == 0 with
  | none =>
    rw [hfind] at h
    cases h
  | some g =>
    rw [hfind] at h
    injection h with hg hk
    injection hg with hg
    subst hg
    have href := List.find?_some hfind
    rw [beq_iff_eq] at href
    exact ⟨List.mem_range.1 (List.mem_of_find?_eq_some hfind), href, hk.symm⟩

theorem endOpen_readLoop (n : Nat) (pi : Pipe) (w : Bool) :
    endOpen (Ipc.readLoop n pi).2 w = endOpen pi w := by
  induction n generalizing pi with
  | zero => rfl
  | succ n ih =>
    rw [Ipc.readLoop]
    split
    · rfl
    · rw [ih]
      cases w <;> rfl

theorem endOpen_writeLoop (cs : List UInt8) (pi : Pipe) (w : Bool) :
    endOpen (Ipc.writeLoop cs pi).2.1 w = endOpen pi w := by
  induction cs generalizing pi with
  | nil => rfl
  | cons c cs ih =>
    rw [Ipc.writeLoop]
    split
    · rfl
    split
    · rfl
    · rw [ih]
      cases w <;> rfl

theorem SameEnds.setPipe {pa : Nat} {pi : Pipe} (h : ∀ w, endOpen pi w = endOpen (k.pipes pa) w) :
    SameEnds k { k with pipes := update k.pipes pa pi } where
  target _ := rfl
  ref _ _ _ h := h
  flag pa' w := by
    simp only [update_apply]
    split
    · rename_i e
      rw [e, h]
    · rfl
  side _ h := ⟨h, rfl, rfl⟩

theorem target_setFile_closed {f : Nat} {x : File} (hx : x.target = none) (g : Nat)
    (e : Nat × Bool) :
    ((k.setFile f x).files g).target = some e ↔ g ≠ f ∧ (k.files g).target = some e := by
  unfold setFile
  simp only [update_apply]
  split
  · rename_i heq
    rw [hx]
    constructor
    · intro h
      cases h
    · exact fun h => absurd heq h.1
  · rename_i hne
    exact ⟨fun h => ⟨hne, h⟩, fun h => h.2⟩

theorem endOpen_pipeclose (pi : Pipe) (w w' : Bool) :
    endOpen (pipeclose pi w) w' = (if w' = w then false else endOpen pi w') := by
  cases w <;> cases w' <;> rfl

/-- The file table and the pipes after an end is closed; the frame is freed with the last end. -/
theorem closePipe_files (k : Kern) (pa : Nat) (w : Bool) : (k.closePipe pa w).files = k.files := by
  unfold closePipe
  dsimp only
  split <;> rfl

@[inherit_doc closePipe_files]
theorem closePipe_pipes (k : Kern) (pa : Nat) (w : Bool) :
    (k.closePipe pa w).pipes = update k.pipes pa (pipeclose (k.pipes pa) w) := by
  unfold closePipe
  dsimp only
  split <;> rfl

@[inherit_doc closePipe_files]
theorem closePipe_mm (k : Kern) (pa : Nat) (w : Bool) :
    (k.closePipe pa w).mm =
      if endOpen (k.pipes pa) (!w) = false then pmmFree k.mm pa else k.mm := by
  unfold closePipe
  cases w <;> cases hr : (k.pipes pa).readopen <;> cases hw : (k.pipes pa).writeopen <;>
    simp [pipeclose, endOpen, hr, hw, withMm]

theorem closePipe_procs (k : Kern) (pa : Nat) (w : Bool) : (k.closePipe pa w).procs = k.procs := by
  unfold closePipe
  dsimp only
  split <;> rfl

/-- One end less. -/
theorem PipeEnds.close {f pa : Nat} {w : Bool} {x : File} (h : PipeEnds k)
    (hf : (k.files f).target = some (pa, w)) (hx : x.type ≠ .pipe) :
    PipeEnds ((k.setFile f x).closePipe pa w) := by
  have htarget : ∀ g e, (((k.setFile f x).closePipe pa w).files g).target = some e ↔
      g ≠ f ∧ (k.files g).target = some e := by
    intro g e
    rw [closePipe_files]
    exact target_setFile_closed (target_of_ne_pipe hx) g e
  have hother : ∀ g, g ≠ f → ((k.setFile f x).closePipe pa w).files g = k.files g := by
    intro g hg
    rw [closePipe_files]
    exact update_of_ne hg ..
  refine ⟨fun g e hg => ?_, fun g e hg => ?_, fun g g' e hg hg' => ?_, fun g pa' w1 w2 hg => ?_,
    fun g hg => ?_⟩
  · exact h.bound g e ((htarget g e).1 hg).2
  · obtain ⟨hne, hg⟩ := (htarget g e).1 hg
    rw [hother g hne]
    exact h.ref g e hg
  · exact h.unique g g' e ((htarget g e).1 hg).2 ((htarget g' e).1 hg').2
  · obtain ⟨hne, hg⟩ := (htarget g _).1 hg
    have hflag := h.flag g pa' w1 w2 hg
    -- the closed end was open as `f` only
    have hends : (∃ g, (((k.setFile f x).closePipe pa w).files g).target = some (pa', w2)) ↔
        (∃ g, (k.files g).target = some (pa', w2)) ∧ ¬ (pa' = pa ∧ w2 = w) := by
      constructor
      · rintro ⟨g', hopen⟩
        obtain ⟨hne', hg'⟩ := (htarget g' _).1 hopen
        refine ⟨⟨g', hg'⟩, ?_⟩
        rintro ⟨hpa, hw⟩
        rw [hpa, hw] at hg'
        exact hne' (h.unique g' f _ hg' hf)
      rintro ⟨⟨g', hg'⟩, hnot⟩
      refine ⟨g', (htarget g' _).2 ⟨?_, hg'⟩⟩
      rintro rfl
      rw [hf] at hg'
      injection hg' with hg'
      injection hg' with hpa hw
      exact hnot ⟨hpa.symm, hw.symm⟩
    rw [hends, closePipe_pipes]
    by_cases hpa : pa' = pa
    · subst hpa
      rw [update_self]
      show endOpen (pipeclose (k.pipes pa') w) w2 = true ↔ _
      rw [endOpen_pipeclose, ← hflag]
      by_cases hw : w2 = w <;> simp [hw]
    rw [update_of_ne hpa]
    show endOpen (k.pipes pa') w2 = true ↔ _
    rw [hflag]
    simp [hpa]
  by_cases hne : g = f
  · subst hne
    rw [closePipe_files] at hg
    unfold setFile at hg
    simp only [update_self] at hg
    exact absurd hg hx
  · rw [hother g hne] at hg ⊢
    exact h.side g hg

/-- The frame stays in use exactly while the other end is open. -/
theorem PipeEnds.pipePages_close {f pa : Nat} {w : Bool} {x : File} (h : PipeEnds k)
    (hf : (k.files f).target = some (pa, w)) (hx : x.type ≠ .pipe) :
    k.pipePages.val = ((k.setFile f x).closePipe pa w).pipePages.val +
      if endOpen (k.pipes pa) (!w) = false then {pa} else 0 := by
  have h' := h.close hf hx
  have hmem : ∀ pa', pa' ∈ ((k.setFile f x).closePipe pa w).pipePages ↔
      ∃ g w', g ≠ f ∧ (k.files g).target = some (pa', w') := by
    intro pa'
    rw [mem_pipePages h']
    simp only [closePipe_files, target_setFile_closed (target_of_ne_pipe hx)]
  have hflag := h.flag f pa w (!w) hf
  split
  · rename_i hclosed
    have hnone : ∀ g w', g ≠ f → (k.files g).target ≠ some (pa, w') := by
      intro g w' hne hg
      by_cases hw : w' = w
      · subst hw
        exact hne (h.unique g f _ hg hf)
      have hw' : w' = !w := by cases w <;> cases w' <;> simp_all
      subst hw'
      rw [hflag.2 ⟨g, hg⟩] at hclosed
      cases hclosed
    have hinsert : k.pipePages = insert pa ((k.setFile f x).closePipe pa w).pipePages := by
      ext pa'
      rw [Finset.mem_insert, hmem, mem_pipePages h]
      constructor
      · rintro ⟨g, w', hg⟩
        by_cases hg' : g = f
        · subst hg'
          rw [hf] at hg
          injection hg with hg
          injection hg with hpa _
          exact Or.inl hpa.symm
        · exact Or.inr ⟨g, w', hg', hg⟩
      · rintro (rfl | ⟨g, w', -, hg⟩)
        · exact ⟨f, w, hf⟩
        · exact ⟨g, w', hg⟩
    have hnot : pa ∉ ((k.setFile f x).closePipe pa w).pipePages := by
      rw [hmem]
      rintro ⟨g, w', hne, hg⟩
      exact hnone g w' hne hg
    rw [hinsert, Finset.insert_val_of_notMem hnot, add_comm, Multiset.singleton_add]
  rename_i hopen
  obtain ⟨g, hg⟩ := hflag.1 (by simpa using hopen)
  have hgf : g ≠ f := by
    rintro rfl
    rw [hf] at hg
    injection hg with hg
    injection hg with _ hw
    cases w <;> cases hw
  have hsame : k.pipePages = ((k.setFile f x).closePipe pa w).pipePages := by
    ext pa'
    rw [hmem, mem_pipePages h]
    constructor
    · rintro ⟨g', w', hg'⟩
      by_cases hne : g' = f
      · subst hne
        rw [hf] at hg'
        injection hg' with hg'
        injection hg' with hpa _
        subst hpa
        exact ⟨g, !w, hgf, hg⟩
      · exact ⟨g', w', hne, hg'⟩
    · rintro ⟨g', w', -, hg'⟩
      exact ⟨g', w', hg'⟩
  rw [add_zero, ← hsame]

/-! ## A new pipe -/

variable {f0 f1 : Nat}

theorem initPipe_files (hne : f0 ≠ f1) (pa g : Nat) :
    (k.initPipe pa f0 f1).files g =
      if g = f1 then { k.files f1 with
        type := .pipe, readable := false, writable := true, pipe := some pa }
      else if g = f0 then { k.files f0 with
        type := .pipe, readable := true, writable := false, pipe := some pa }
      else k.files g := by
  unfold initPipe setFile
  simp only [update_apply]
  split
  · rw [if_neg (Ne.symm hne)]
  · rfl

theorem initPipe_target (hne : f0 ≠ f1) (h0 : (k.files f0).target = none)
    (h1 : (k.files f1).target = none) (pa g : Nat) (e : Nat × Bool) :
    ((k.initPipe pa f0 f1).files g).target = some e ↔
      (g = f1 ∧ (pa, true) = e) ∨ (g = f0 ∧ (pa, false) = e) ∨ (k.files g).target = some e := by
  rw [initPipe_files hne]
  by_cases hg1 : g = f1
  · subst hg1
    rw [h1, if_pos rfl]
    simp [File.target, Ne.symm hne]
  by_cases hg0 : g = f0
  · subst hg0
    rw [h0, if_neg hne, if_pos rfl]
    simp [File.target, hne]
  · simp [hg1, hg0]

/-- A new pipe has both ends open. -/
theorem PipeEnds.init {pa : Nat} (h : PipeEnds k) (hne : f0 ≠ f1)
    (h0 : (k.files f0).target = none) (h1 : (k.files f1).target = none) (hb0 : f0 < nfile)
    (hb1 : f1 < nfile) (hr0 : 0 < (k.files f0).ref) (hr1 : 0 < (k.files f1).ref)
    (hpa : pa ∉ k.pipePages) :
    PipeEnds (k.initPipe pa f0 f1) ∧ (k.initPipe pa f0 f1).pipePages.val = {pa} + k.pipePages.val := by
  have htarget := initPipe_target (k := k) hne h0 h1 pa
  have hfree : ∀ g w, (k.files g).target ≠ some (pa, w) :=
    fun g w hg => hpa ((mem_pipePages h).2 ⟨g, w, hg⟩)
  have hends : PipeEnds (k.initPipe pa f0 f1) := by
    refine ⟨fun g e hg => ?_, fun g e hg => ?_, fun g g' e hg hg' => ?_, fun g pa' w w' hg => ?_,
      fun g hg => ?_⟩
    · rcases (htarget g e).1 hg with ⟨rfl, -⟩ | ⟨rfl, -⟩ | hg
      · exact hb1
      · exact hb0
      · exact h.bound g e hg
    · rw [initPipe_files hne]
      rcases (htarget g e).1 hg with ⟨rfl, -⟩ | ⟨rfl, -⟩ | hold
      · rw [if_pos rfl]
        exact hr1
      · rw [if_neg hne, if_pos rfl]
        exact hr0
      have hg1 : g ≠ f1 := by
        rintro rfl
        rw [h1] at hold
        cases hold
      have hg0 : g ≠ f0 := by
        rintro rfl
        rw [h0] at hold
        cases hold
      rw [if_neg hg1, if_neg hg0]
      exact h.ref g e hold
    · rcases (htarget g e).1 hg with ⟨rfl, rfl⟩ | ⟨rfl, rfl⟩ | hold <;>
        rcases (htarget g' _).1 hg' with ⟨rfl, he⟩ | ⟨rfl, he⟩ | hold'
      · rfl
      · cases he
      · exact absurd hold' (hfree g' true)
      · cases he
      · rfl
      · exact absurd hold' (hfree g' false)
      · exact absurd hold (by rw [← he]; exact hfree g true)
      · exact absurd hold (by rw [← he]; exact hfree g false)
      · exact h.unique g g' e hold hold'
    · by_cases hpa' : pa' = pa
      · subst hpa'
        have hopen : endOpen ((k.initPipe pa' f0 f1).pipes pa') w' = true := by
          show endOpen (update k.pipes pa' (pipeInit (k.pipes pa').data) pa') w' = true
          rw [update_self]
          cases w' <;> rfl
        refine ⟨fun _ => ?_, fun _ => hopen⟩
        cases w' with
        | true => exact ⟨f1, (htarget f1 _).2 (Or.inl ⟨rfl, rfl⟩)⟩
        | false => exact ⟨f0, (htarget f0 _).2 (Or.inr (Or.inl ⟨rfl, rfl⟩))⟩
      have hold : ∀ g w, ((k.initPipe pa f0 f1).files g).target = some (pa', w) ↔
          (k.files g).target = some (pa', w) := by
        intro g w
        rw [htarget]
        constructor
        · rintro (⟨-, he⟩ | ⟨-, he⟩ | hg)
          · injection he with he
            exact absurd he.symm hpa'
          · injection he with he
            exact absurd he.symm hpa'
          · exact hg
        · exact fun hg => Or.inr (Or.inr hg)
      have hpipe : (k.initPipe pa f0 f1).pipes pa' = k.pipes pa' := update_of_ne hpa' ..
      rw [hpipe, h.flag g pa' w w' ((hold g w).1 hg)]
      simp only [hold]
    rw [initPipe_files hne] at hg ⊢
    by_cases hg1 : g = f1
    · rw [if_pos hg1]
      rfl
    rw [if_neg hg1] at hg ⊢
    by_cases hg0 : g = f0
    · rw [if_pos hg0]
      rfl
    · rw [if_neg hg0] at hg ⊢
      exact h.side g hg
  refine ⟨hends, ?_⟩
  have hinsert : (k.initPipe pa f0 f1).pipePages = insert pa k.pipePages := by
    ext pa'
    rw [Finset.mem_insert, mem_pipePages hends, mem_pipePages h]
    simp only [htarget]
    constructor
    · rintro ⟨g, w, ⟨-, he⟩ | ⟨-, he⟩ | hg⟩
      · injection he with he
        exact Or.inl he.symm
      · injection he with he
        exact Or.inl he.symm
      · exact Or.inr ⟨g, w, hg⟩
    · rintro (rfl | ⟨g, w, hg⟩)
      · exact ⟨f1, true, Or.inl ⟨rfl, rfl⟩⟩
      · exact ⟨g, w, Or.inr (Or.inr hg)⟩
  rw [hinsert, Finset.insert_val_of_notMem hpa, Multiset.singleton_add]

end

end Slopix.Kernel
