import Slopix.Kernel.Frames

/-!
# Frames of address spaces under construction

The programs that map and unmap pages: the common body `mapNew` of the loops in `sbrk`, `mmap`,
`exec` and the loader, the loops themselves, and the loader. Each moves frames between the free list
and one address space, on success and on failure.
-/

namespace Slopix.Kernel

open Lib Mm Fs Ipc

/-- The user pages of the processes and of the address spaces under construction stay user pages. -/
def KeepsData (R : Multiset Nat) (k k' : Kern) : Prop :=
  ∀ x, IsData k.mm (k.roots + R) x → IsData k'.mm (k.roots + R) x

/-- Setting up a page keeps the accounts and the pages of all others. -/
def PageInit (K : Ledger) (R H : Multiset Nat) (init : Nat → KM Bool) : Prop :=
  ∀ k pa, Owned K k R ({pa} + H) →
    Holds (init pa k) (fun _ k' => Kept K R ({pa} + H) k k' ∧ KeepsData R k k') fun _ => True

section

variable {K : Ledger} {R H : Multiset Nat} {k : Kern} {r pa : Nat} (hK : FrameSet K)

theorem KeepsData.refl (R : Multiset Nat) (k : Kern) : KeepsData R k k := fun _ hx => hx

theorem KeepsData.trans {k' k'' : Kern} (h : KeepsData R k k') (hroots : k'.roots = k.roots)
    (h' : KeepsData R k' k'') : KeepsData R k k'' := by
  intro x hx
  have hx' := h x hx
  rw [← hroots] at hx' ⊢
  exact h' x hx'

include hK

theorem keepsData_of_held (h : Owned K k R ({pa} + H)) {m : PhysMem}
    (hpage : ∀ x, x ≠ pa → m.page x = k.mm.page x) : KeepsData R k (k.withMm m) := by
  intro x hx
  refine hx.congr fun r hr y hy => hpage y ?_
  rintro rfl
  exact (h.held hK).2 (Multiset.mem_of_le ((tables_le_space k.mm r).trans (space_le_world hr)) hy)

theorem keepsData_free (h : Owned K k R ({pa} + H)) :
    KeepsData R k (k.withMm (pmmFree k.mm pa)) := by
  obtain ⟨hframe, hnot⟩ := h.held hK
  exact keepsData_of_held hK h (pmmFree_spec hframe fun hmem => hnot (mem_world_of_free hmem)).2

theorem freeHeld_spec (h : Owned K k R ({pa} + H)) :
    Holds ((do modifyMm fun m => pmmFree m pa; pure none : KM (Option Nat)) k)
      (fun res k' => Kept K R H k k' ∧ KeepsData R k k' ∧ res = none) fun _ => True :=
  holds_modify_bind (holds_pure ⟨h.free hK, keepsData_free hK h, rfl⟩)

/-- A new page of a process, with its set-up. -/
theorem mapNew_spec {va : Nat} {init : Nat → KM Bool} {write exec : Bool} (h : Owned K k R H)
    (hr : r ∈ k.roots + R) (hinit : PageInit K R H init) :
    Holds (mapNew r va init write exec k) (fun res k' => Kept K R H k k' ∧ KeepsData R k k' ∧
      ∀ x, res = some x → IsData k'.mm (k.roots + R) x) fun _ => True := by
  refine (allocPage_spec hK h).bind fun pa k1 halloc => ?_
  obtain ⟨h1, -, -, hdata1⟩ := halloc
  cases pa with
  | none =>
    rw [returned, zero_add] at h1
    exact holds_pure ⟨h1, hdata1, fun x e => by cases e⟩
  | some pa =>
    refine (hinit k1 pa h1.owned).bind fun ok k2 hset => ?_
    obtain ⟨h2, hdata2⟩ := hset
    have hdata12 : KeepsData R k k2 := KeepsData.trans hdata1 h1.roots hdata2
    have h12 := h1.trans h2
    -- what both failures end with
    have hback : ∀ k3, Kept K R ({pa} + H) k k3 → KeepsData R k k3 →
        Holds ((do modifyMm fun m => pmmFree m pa; pure none : KM (Option Nat)) k3)
          (fun res k' => Kept K R H k k' ∧ KeepsData R k k' ∧
            ∀ x, res = some x → IsData k'.mm (k.roots + R) x) fun _ => True := by
      intro k3 h3 hdata3
      refine (freeHeld_spec hK h3.owned).imp fun res k4 hfreed => ?_
      obtain ⟨h4, hdata4, hres⟩ := hfreed
      refine ⟨h3.trans h4, KeepsData.trans hdata3 h3.roots hdata4, fun x e => ?_⟩
      rw [hres] at e
      cases e
    refine holds_ite (fun _ => ?_) fun _ => hback k2 h12 hdata12
    apply holds_step_bind
    have hr2 : r ∈ k2.roots + R := h12.root hr
    have hmap := h2.owned.map hK hr2 va write exec
    obtain ⟨rest, hrest⟩ := Multiset.exists_cons_of_mem hr2
    have hgood := h2.owned.good hK
    rw [hrest] at hgood
    have hdata : ∀ x, IsData k2.mm (k2.roots + R) x ∨
        x = pa ∧ (vmmMapPage k2.mm r va pa write exec).1 = true →
        IsData (vmmMapPage k2.mm r va pa write exec).2 (k2.roots + R) x := by
      intro x hx
      rw [hrest] at hx ⊢
      exact IsData.mapPage hgood (h2.owned.held hK).1 va write exec hx
    refine holds_ite (fun hok => ?_) fun hfail => ?_
    · rw [if_pos hok] at hmap
      refine holds_pure ⟨h12.trans hmap, fun x hx => ?_, fun x e => ?_⟩
      · rw [← h12.roots]
        exact hdata x (Or.inl (by rw [h12.roots]; exact hdata12 x hx))
      · obtain rfl := Option.some.inj e
        rw [← h12.roots]
        exact hdata pa (Or.inr ⟨rfl, hok⟩)
    rw [if_neg hfail] at hmap
    apply hback _ (h12.trans hmap)
    intro x hx
    rw [← h12.roots]
    exact hdata x (Or.inl (by rw [h12.roots]; exact hdata12 x hx))

omit hK in
theorem pageInit_pure (b : Bool) : PageInit K R H fun _ => pure b :=
  fun k _ h => holds_pure ⟨Kept.refl h, KeepsData.refl R k⟩

theorem pageInit_zero : PageInit K R H (fun pa => do
    modifyMm fun m => m.zeroPage pa
    pure true) :=
  fun _ _ h => holds_modify_bind (holds_pure ⟨h.setPage_held hK _,
    keepsData_of_held hK h fun _ hx => PhysMem.zeroPage_page_of_ne hx⟩)

/-- A page of a segment; the reader works on the file system only. -/
theorem pageInit_loadPage (hdr : Phdr) (read : Nat → Nat → FsM (List UInt8)) (va : Nat) :
    PageInit K R H (loadPage hdr (fun off len => onFs (read off len)) va) := by
  intro k pa h
  unfold loadPage
  cases hdr.copyRange va with
  | none => exact holds_pure ⟨Kept.refl h, KeepsData.refl R k⟩
  | some c =>
    obtain ⟨pageOff, fileOff, len⟩ := c
    have hread : Holds (onFs (read fileOff len) k)
        (fun _ k' => Kept K R ({pa} + H) k k' ∧ k'.mm = k.mm) fun _ => True := by
      apply holds_zoom
      have hfs : ∀ s, Kept K R ({pa} + H) k (k.withFs s) :=
        fun s => h.quiet (l := k.withFs s) rfl (fun _ => rfl) rfl (SameEnds.of_eq rfl rfl)
      exact ⟨fun _ s _ => ⟨hfs s, rfl⟩, fun _ _ => trivial⟩
    refine hread.bind fun bs k1 ⟨h1, hmm⟩ => ?_
    apply holds_modify_bind
    apply holds_pure
    refine ⟨h1.trans (h1.owned.setPage_held hK _), ?_⟩
    have hset := keepsData_of_held hK h1.owned (m := k1.mm.setPage pa
      (putBytes (k1.mm.page pa) pageOff bs)) fun _ hx => PhysMem.setPage_page_of_ne hx _
    refine KeepsData.trans (fun x hx => ?_) h1.roots hset
    rw [hmm]
    exact hx

/-! ## The loops -/

theorem mapPages_spec {init : Nat → Nat → KM Bool} {write exec : Bool}
    (hinit : ∀ va, PageInit K R H (init va)) (n va : Nat) (h : Owned K k R H)
    (hr : r ∈ k.roots + R) :
    Holds (mapPages r init write exec n va k) (fun _ k' => Kept K R H k k') fun _ => True := by
  induction n generalizing va k with
  | zero => exact holds_pure (Kept.refl h)
  | succ n ih =>
    refine (mapNew_spec hK h hr (hinit va)).bind fun res k1 ⟨h1, _, _⟩ => ?_
    cases res with
    | none => exact holds_pure h1
    | some pa =>
      have hr1 : r ∈ k1.roots + R := h1.root hr
      exact (ih (va + 4096) h1.owned hr1).imp fun _ _ h2 => h1.trans h2

theorem unmapPages_spec (n va : Nat) (h : Owned K k R H) (hr : r ∈ k.roots + R) :
    Holds (unmapPages r n va k) (fun _ k' => Kept K R H k k') fun _ => True := by
  induction n generalizing va k with
  | zero => exact holds_pure (Kept.refl h)
  | succ n ih =>
    apply holds_step_bind
    have h1 := h.unmap hK hr va
    have hnext : ∀ k', Kept K R H k k' →
        Holds (unmapPages r n (va + 4096) k') (fun _ k'' => Kept K R H k k'') fun _ => True := by
      intro k' h'
      have hr' : r ∈ k'.roots + R := h'.root hr
      exact (ih (va + 4096) h'.owned hr').imp fun _ _ h2 => h'.trans h2
    cases hres : (vmmUnmapPage k.mm r va).1 with
    | none =>
      rw [hres, returned, zero_add] at h1
      exact hnext _ h1
    | some pa =>
      rw [hres, returned] at h1
      apply holds_modify_bind
      exact hnext _ (h1.trans (h1.owned.free hK))

theorem mmapLoop_spec (write : Bool) (n done va : Nat) (h : Owned K k R H)
    (hr : r ∈ k.roots + R) :
    Holds (mmapLoop r write n done va k) (fun _ k' => Kept K R H k k') fun _ => True := by
  induction n generalizing done va k with
  | zero => exact holds_pure (Kept.refl h)
  | succ n ih =>
    refine (mapNew_spec hK h hr (pageInit_zero hK)).bind fun res k1 ⟨h1, _, _⟩ => ?_
    have hr1 : r ∈ k1.roots + R := h1.root hr
    cases res with
    | none =>
      exact (unmapPages_spec hK done _ h1.owned hr1).bind
        fun _ k2 h2 => holds_pure (h1.trans h2)
    | some pa =>
      exact (ih (done + 1) (va + 4096) h1.owned hr1).imp fun _ _ h2 => h1.trans h2

/-! ## The loader -/

theorem loadSegment_spec (read : Nat → Nat → FsM (List UInt8)) (hdr : Phdr) (h : Owned K k R H)
    (hr : r ∈ k.roots + R) :
    Holds (loadSegment r (fun off len => onFs (read off len)) hdr k)
      (fun _ k' => Kept K R H k k') fun _ => True := by
  refine holds_ite (fun _ => holds_pure (Kept.refl h)) fun _ => ?_
  have hinit : ∀ va, PageInit K R H (loadPage hdr (fun off len => onFs (read off len)) va) :=
    fun va => pageInit_loadPage hK hdr read va
  exact mapPages_spec hK hinit _ _ h hr

theorem loadSegments_spec (read : Nat → Nat → FsM (List UInt8)) (phdrs : List Phdr)
    (h : Owned K k R H) (hr : r ∈ k.roots + R) :
    Holds (loadSegments phdrs r (fun off len => onFs (read off len)) k)
      (fun _ k' => Kept K R H k k') fun _ => True := by
  have hloop : Holds (Exec.all (loadSegment r fun off len => onFs (read off len)) phdrs k)
      (fun _ k' => Kept K R H k k') fun _ => True := by
    refine holds_all (I := fun k' => Kept K R H k k') (fun hdr _ k' h' => ?_) (Kept.refl h)
    have hr' : r ∈ k'.roots + R := h'.root hr
    exact (loadSegment_spec hK read hdr h'.owned hr').imp fun _ _ h2 => h'.trans h2
  refine hloop.bind fun ok k1 h1 => ?_
  exact holds_ite (fun _ => holds_pure h1) fun _ => holds_pure h1

theorem elfLoad_spec (img : Image) (h : Owned K k R H) (hr : r ∈ k.roots + R) :
    Holds (elfLoad img r k) (fun _ k' => Kept K R H k k') fun _ => True := by
  refine holds_ite (fun _ => holds_pure (Kept.refl h)) fun _ =>
    holds_ite (fun _ => holds_pure (Kept.refl h)) fun _ => ?_
  have hread : (fun off len => pure (getBytes img.data off len) : Nat → Nat → KM (List UInt8)) =
      fun off len => onFs (pure (getBytes img.data off len)) := rfl
  rw [hread]
  exact (loadSegments_spec hK _ _ h hr).bind fun _ _ h1 => holds_pure h1

theorem elfLoadFromInode_spec (ip : Nat) (h : Owned K k R H) (hr : r ∈ k.roots + R) :
    Holds (elfLoadFromInode ip r k) (fun _ k' => Kept K R H k k') fun _ => True := by
  refine (keeps_onFs _ k R H h).bind fun hdr k1 h1 => ?_
  generalize getLe 2 (ofList hdr) 56 = phnum
  generalize getLe 8 (ofList hdr) 32 % Fs.uintMod = phoff
  refine holds_ite (fun _ => holds_pure h1) fun _ => holds_ite (fun _ => holds_pure h1) fun _ =>
    holds_ite (fun _ => holds_pure h1) fun _ => ?_
  have hread := keeps_onFs (Exec.step fun s => s.readi ip phoff (phnum * 56)) k1 R H h1.owned
  refine hread.bind fun ph k2 h2 => ?_
  refine holds_ite (fun _ => holds_pure (h1.trans h2)) fun _ => ?_
  have hr2 : r ∈ k2.roots + R := (h1.trans h2).root hr
  refine (loadSegments_spec hK (fun off len => Exec.step fun s => s.readi ip (off % Fs.uintMod)
    (len % Fs.uintMod)) _ h2.owned hr2).bind fun _ _ h3 => ?_
  exact holds_pure ((h1.trans h2).trans h3)

/-- The user stack; its top page is a user page of the address space. -/
theorem mapStack_spec (h : Owned K k R H) (hr : r ∈ k.roots + R) :
    Holds (mapStack r k) (fun res k' => Kept K R H k k' ∧
      ∀ x, res = some x → IsData k'.mm (k.roots + R) x) fun _ => True := by
  refine (mapNew_spec hK h hr (pageInit_pure true)).bind fun top k1 ⟨h1, _, htop⟩ => ?_
  cases top with
  | none => exact holds_pure ⟨h1, fun x e => by cases e⟩
  | some pa =>
    have hloop : Holds (Exec.all (fun i => do
        let res ← mapNew r (userStack - (i + 2) * 4096) (fun _ => pure true) true false
        pure res.isSome) (List.range 15) k1)
        (fun _ k' => Kept K R H k k' ∧ IsData k'.mm (k.roots + R) pa) fun _ => True := by
      refine holds_all (I := fun k' => Kept K R H k k' ∧ IsData k'.mm (k.roots + R) pa)
        (fun i _ k' ⟨h', hdata'⟩ => ?_) ⟨h1, htop pa rfl⟩
      have hr' : r ∈ k'.roots + R := h'.root hr
      refine (mapNew_spec hK h'.owned hr' (pageInit_pure true)).bind
        fun res k2 ⟨h2, hdata2, _⟩ => holds_pure ⟨h'.trans h2, ?_⟩
      rw [← h'.roots]
      exact hdata2 pa (by rw [h'.roots]; exact hdata')
    refine hloop.bind fun ok k2 ⟨h2, hdata2⟩ => holds_pure ⟨h2, fun x e => ?_⟩
    split at e
    · obtain rfl := Option.some.inj e
      exact hdata2
    · cases e

end

end Slopix.Kernel
