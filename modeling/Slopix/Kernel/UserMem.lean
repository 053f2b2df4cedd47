import Slopix.Kernel.Spaces
import Slopix.Mm.Mapping

/-!
# What a process sees in its memory

`validate_page` and `vmm_copyinstr` of `kernel/vmm.c`, and what a user address holds. Mapping a page
writes only to entries that are not valid, so that an address stays mapped to its page while pages
are added to the address space.
-/

namespace Slopix.Kernel

open Lib Mm Fs Ipc Multiset Option Nat

/-- `entry & PTE_AP_EL0_BIT`. -/
def pteUser (e : Nat) : Bool := e &&& 0x40 != 0

/-- `validate_page`, with the page the address is in. -/
def validatePage (m : PhysMem) (pagetable va : Nat) : Option Nat :=
  if userStack ≤ va then none
  else
    match walkTables m (tableIndices va) pagetable with
    | none => none
    | some t =>
      if pteValid (m.pte t (l3Index va)) = false then none
      else if pteUser (m.pte t (l3Index va)) = false then none
      else some (pteAddr (m.pte t (l3Index va)))

/-- The loop of `vmm_copyinstr` with `n` bytes of room left: byte `i` is read next, and the last one
was in page `page`, which is at `pa`. -/
def copyinstrLoop (m : PhysMem) (pagetable srcva : Nat) : Nat → Nat → Nat → Nat → Option (List UInt8)
  | 0, _, _, _ => some []
  | n + 1, i, page, pa =>
    let addr := (srcva + i) % ulongMod
    let cur := if addr / 4096 * 4096 = page then some pa else validatePage m pagetable addr
    match cur with
    | none => none
    | some pa =>
      let c := m.page pa (addr % 4096)
      if c = 0 then some []
      else (copyinstrLoop m pagetable srcva n (i + 1) (addr / 4096 * 4096) pa).map (c :: ·)

/-- `vmm_copyinstr`: the string that is copied. -/
def vmmCopyinstr (m : PhysMem) (pagetable srcva max : Nat) : Option (List UInt8) :=
  match validatePage m pagetable srcva with
  | none => none
  | some pa => copyinstrLoop m pagetable srcva (max - 1) 0 (srcva / 4096 * 4096) pa

/-! ## User data -/

/-- The byte that a process reads at `va`. -/
def userByte (m : PhysMem) (pagetable va : Nat) : Option UInt8 :=
  (validatePage m pagetable va).map fun pa => m.page pa (va % 4096)

/-- The string `s` is at `va`. -/
structure HasString (m : PhysMem) (pagetable va : Nat) (s : List UInt8) : Prop where
  nonzero : 0 ∉ s
  byte : ∀ i ≤ s.length, userByte m pagetable (va + i) = some (s.getD i 0)

/-- The 64-bit number `v` is at `va`. -/
structure HasWord (m : PhysMem) (pagetable va v : Nat) : Prop where
  lt : v < 256 ^ 8
  byte : ∀ i < 8, userByte m pagetable (va + i) = some (UInt8.ofNat (v / 256 ^ i))

/-- The vector `argv` of strings is at `va`: the addresses of the strings and a closing null. -/
def HasArgv (m : PhysMem) (pagetable va : Nat) (argv : List (List UInt8)) : Prop :=
  ∃ ptrs : List Nat, List.Forall₂ (HasString m pagetable) ptrs argv ∧
    ∀ j ≤ argv.length, HasWord m pagetable (va + 8 * j) (ptrs.getD j 0)

section

variable {m : PhysMem} {pt va : Nat}

theorem HasString.head_ne_zero {c : UInt8} {s : List UInt8} (h : HasString m pt va (c :: s)) :
    c ≠ 0 := fun e => h.nonzero (e ▸ List.mem_cons_self)

theorem HasString.tail {c : UInt8} {s : List UInt8} (h : HasString m pt va (c :: s)) :
    HasString m pt (va + 1) s where
  nonzero hs := h.nonzero (List.mem_cons_of_mem c hs)
  byte i hi := by
    have hbyte := h.byte (i + 1) (succ_le_succ hi)
    rw [List.getD_cons_succ, add_comm i 1, ← add_assoc] at hbyte
    exact hbyte

theorem HasString.unique {s s' : List UInt8} (h : HasString m pt va s) (h' : HasString m pt va s') :
    s = s' := by
  induction s generalizing va s' with
  | nil =>
    cases s' with
    | nil => rfl
    | cons c s' =>
      have hbyte := (h.byte 0 (le_refl 0)).symm.trans (h'.byte 0 (zero_le _))
      exact absurd (some.inj hbyte).symm h'.head_ne_zero
  | cons c s ih =>
    cases s' with
    | nil =>
      have hbyte := (h.byte 0 (zero_le _)).symm.trans (h'.byte 0 (le_refl 0))
      exact absurd (some.inj hbyte) h.head_ne_zero
    | cons c' s' =>
      have hbyte := (h.byte 0 (zero_le _)).symm.trans (h'.byte 0 (zero_le _))
      rw [show c = c' from some.inj hbyte, ih h.tail h'.tail]

theorem HasWord.unique {v v' : Nat} (h : HasWord m pt va v) (h' : HasWord m pt va v') : v = v' := by
  have hread : ∀ {w}, HasWord m pt va w →
      getLe 8 (fun i => (userByte m pt (va + i)).getD 0) 0 = w := by
    intro w hw
    apply getLe_of_bytes hw.lt
    intro i hi
    rw [zero_add, hw.byte i hi]
    rfl
  exact (hread h).symm.trans (hread h')

/-- At most one vector of a given length is at an address. -/
theorem HasArgv.unique {argv argv' : List (List UInt8)} (h : HasArgv m pt va argv)
    (h' : HasArgv m pt va argv') (hlen : argv.length = argv'.length) : argv = argv' := by
  obtain ⟨ptrs, hstr, hword⟩ := h
  obtain ⟨ptrs', hstr', hword'⟩ := h'
  have hptrs : ptrs = ptrs' := by
    apply List.ext_getElem
    · rw [hstr.length_eq, hstr'.length_eq, hlen]
    intro j hj hj'
    have hle : j ≤ argv.length := by
      rw [← hstr.length_eq]
      exact le_of_lt hj
    have heq := (hword j hle).unique (hword' j (hlen ▸ hle))
    rwa [List.getD_eq_getElem _ _ hj, List.getD_eq_getElem _ _ hj'] at heq
  rw [hptrs] at hstr
  clear hword hword' hlen hptrs
  induction hstr generalizing argv' with
  | nil =>
    cases hstr'
    rfl
  | cons hs _ ih =>
    cases hstr' with
    | cons hs' hrest => rw [hs.unique hs', ih hrest]

/-- `validate_page` finds the entries that user code may read. -/
theorem validatePage_eq_some : validatePage m pt va = some pa ↔
    va < userStack ∧ ∃ e, userEntry m pt va = some e ∧ pteUser e = true ∧ pteAddr e = pa := by
  unfold validatePage userEntry
  by_cases hlt : va < userStack
  · rw [if_neg (not_le.2 hlt)]
    cases walkTables m (tableIndices va) pt with
    | none => simp
    | some t =>
      by_cases hv : pteValid (m.pte t (l3Index va)) = true
      · by_cases hu : pteUser (m.pte t (l3Index va)) = true
        · simp [hv, hu, hlt]
        · simp [hv, hu]
      · simp [hv]
  · rw [if_pos (not_lt.1 hlt)]
    simp [hlt]

theorem userByte_eq_some {c : UInt8} (h : userByte m pt va = some c) :
    va < userStack ∧ ∃ pa, validatePage m pt va = some pa ∧ m.page pa (va % 4096) = c := by
  obtain ⟨pa, hpa, hc⟩ := map_eq_some_iff.1 h
  exact ⟨(validatePage_eq_some.1 hpa).1, pa, hpa, hc⟩

theorem validatePage_page {w : Nat} (h : va / 4096 = w / 4096) :
    validatePage m pt va = validatePage m pt w := by
  have htables : tableIndices va = tableIndices w := by
    unfold tableIndices
    rw [List.cons.injEq, List.cons.injEq, List.cons.injEq]
    refine ⟨by omega, by omega, by omega, rfl⟩
  have hl3 : l3Index va = l3Index w := by
    unfold l3Index
    omega
  have hstack : (userStack ≤ va) = (userStack ≤ w) := by
    unfold userStack
    apply propext
    omega
  unfold validatePage
  simp only [htables, hl3, hstack]

theorem copyinstrLoop_succ {n i page pa : Nat} {c : UInt8} (h : userByte m pt (va + i) = some c)
    (hpage : (va + i) / 4096 * 4096 = page → validatePage m pt (va + i) = some pa) :
    ∃ pa', validatePage m pt (va + i) = some pa' ∧ copyinstrLoop m pt va (n + 1) i page pa =
      if c = 0 then some []
      else (copyinstrLoop m pt va n (i + 1) ((va + i) / 4096 * 4096) pa').map (c :: ·) := by
  obtain ⟨hlt, pa', hpa', hc⟩ := userByte_eq_some h
  have hmod : (va + i) % ulongMod = va + i := by
    apply mod_eq_of_lt
    unfold ulongMod userStack at *
    omega
  have hcur : (if (va + i) / 4096 * 4096 = page then some pa
      else validatePage m pt (va + i)) = some pa' := by
    split
    · rename_i hp
      rw [← hpage hp]
      exact hpa'
    · exact hpa'
  refine ⟨pa', hpa', ?_⟩
  rw [copyinstrLoop]
  rw [hmod, hcur]
  dsimp only
  rw [hc]

/-- The loop copies the string that is there, as far as it goes. -/
theorem copyinstrLoop_take {n i page pa : Nat} {s : List UInt8} (h : HasString m pt (va + i) s)
    (hpage : (va + i) / 4096 * 4096 = page → validatePage m pt (va + i) = some pa) :
    copyinstrLoop m pt va n i page pa = some (s.take n) := by
  induction n generalizing s i page pa with
  | zero => rfl
  | succ n ih =>
    cases s with
    | nil =>
      have hbyte : userByte m pt (va + i) = some 0 := h.byte 0 (le_refl 0)
      obtain ⟨pa', -, hstep⟩ := copyinstrLoop_succ (n := n) hbyte hpage
      rw [hstep, if_pos rfl]
      rfl
    | cons c s =>
      have hbyte : userByte m pt (va + i) = some c := h.byte 0 (zero_le _)
      obtain ⟨pa', hpa', hstep⟩ := copyinstrLoop_succ (n := n) hbyte hpage
      have hnext : copyinstrLoop m pt va n (i + 1) ((va + i) / 4096 * 4096) pa' =
          some (s.take n) := by
        apply ih h.tail
        intro hp
        rw [validatePage_page (w := va + i) (by omega)]
        exact hpa'
      rw [hstep, if_neg h.head_ne_zero, hnext]
      rfl

/-- `vmm_copyinstr` copies a string up to its end or to the end of the buffer, and succeeds in both
cases. -/
theorem vmmCopyinstr_take {s : List UInt8} (h : HasString m pt va s) (n : Nat) :
    vmmCopyinstr m pt va n = some (s.take (n - 1)) := by
  obtain ⟨-, pa, hpa, -⟩ := userByte_eq_some (h.byte 0 (zero_le _))
  unfold vmmCopyinstr
  rw [add_zero] at hpa
  rw [hpa]
  exact copyinstrLoop_take h fun _ => hpa

theorem vmmCopyinstr_eq {s : List UInt8} {n : Nat} (h : HasString m pt va s)
    (hmax : s.length ≤ n - 1) : vmmCopyinstr m pt va n = some s := by
  rw [vmmCopyinstr_take h n, List.take_of_length_le hmax]

end

/-! ## Mapped addresses stay mapped -/

/-- The user addresses of the address space `r` stay where they are. -/
def KeepsMaps (r : Nat) (m m' : PhysMem) : Prop :=
  ∀ va pa, validatePage m r va = some pa → validatePage m' r va = some pa

section

variable {m m' m'' : PhysMem} {r t : Nat}

theorem KeepsMaps.refl (r : Nat) (m : PhysMem) : KeepsMaps r m m := fun _ _ h => h

theorem KeepsMaps.trans (h : KeepsMaps r m m') (h' : KeepsMaps r m' m'') : KeepsMaps r m m'' :=
  fun va pa hpa => h' va pa (h va pa hpa)

/-- What leaves the valid entries alone leaves the addresses alone. -/
theorem keepsMaps_of_entries (h : ∀ va e, userEntry m r va = some e → userEntry m' r va = some e) :
    KeepsMaps r m m' := by
  intro va pa hva
  obtain ⟨hlt, e, he, huser, rfl⟩ := validatePage_eq_some.1 hva
  exact validatePage_eq_some.2 ⟨hlt, e, h va e he, huser, rfl⟩

/-- What leaves the tables alone leaves the addresses alone. -/
theorem keepsMaps_of_tables (h : ∀ x ∈ tables m 4 r, m'.page x = m.page x) : KeepsMaps r m m' :=
  keepsMaps_of_entries fun va _ he => (userEntry_congr h va).trans he

/-- User code may access the pages that are mapped for it. -/
theorem pteUser_pageDesc {pa : Nat} (hpa : IsFrame pa) {write exec : Bool} :
    pteUser (makePageDescUser pa write exec) = true := by
  unfold pteUser makePageDescUser
  rw [and_or_distrib_right, hpa.and_mask, bne_iff_ne]
  intro e
  revert e
  cases write <;> cases exec <;> simp [userFlags]

theorem keepsMaps_mapPage (h : Sep m 4 r) {pa : Nat} (hpa : IsFrame pa) (va : Nat)
    (write exec : Bool) :
    KeepsMaps r m (vmmMapPage m r va pa write exec).2 ∧
      ((vmmMapPage m r va pa write exec).1 = true → va < userStack →
        validatePage (vmmMapPage m r va pa write exec).2 r va = some pa) := by
  cases hmap : (vmmMapPage m r va pa write exec).1 with
  | false =>
    refine ⟨keepsMaps_of_entries fun va' e he => ?_, nofun⟩
    rw [(vmmMapPage_undone h hmap).2.2.userEntry, he]
  | true =>
    obtain ⟨hnone, hentries⟩ := userEntry_mapPage h hpa hmap
    refine ⟨keepsMaps_of_entries fun va' e he => ?_, fun _ hva => ?_⟩
    · have hne : pageNo va' ≠ pageNo va := by
        intro hpage
        rw [userEntry_pageNo hpage, hnone] at he
        cases he
      rw [hentries, if_neg hne, he]
    · have hentry := (hentries va).trans (if_pos rfl)
      exact validatePage_eq_some.2 ⟨hva, _, hentry, pteUser_pageDesc hpa, pteAddr_pageDesc hpa write exec⟩

end

/-! ## The stack of a new program -/

section

variable {K : Ledger} {R H : Multiset Nat} {k : Kern} {r pa : Nat} (hK : FrameSet K)

include hK

theorem Owned.tables_used (h : Owned K k R H) (hr : r ∈ k.roots + R) :
    ∀ x ∈ tables k.mm 4 r, x ∉ k.mm.free := fun _ hx =>
  (h.good hK).notMem_free hr (mem_of_le (tables_le_space k.mm r) hx)

theorem allocPage_maps (h : Owned K k R H) (hr : r ∈ k.roots + R) :
    Holds (allocPage k) (fun res k' => Kept K R (returned res + H) k k' ∧ KeepsMaps r k.mm k'.mm)
      fun _ => True := by
  have hmaps : Holds (allocPage k) (fun _ k' => KeepsMaps r k.mm k'.mm) fun _ => True := by
    apply holds_step
    dsimp only
    cases hal : pmmAlloc k.mm with
    | none => exact KeepsMaps.refl r k.mm
    | some res =>
      obtain ⟨pa, m⟩ := res
      apply keepsMaps_of_tables
      intro x hx
      apply (pmmAlloc_spec hal).2.2
      exact (ne_of_mem_of_not_mem (mem_free_of_alloc hal) (h.tables_used hK hr x hx)).symm
  exact ((allocPage_spec hK h).both hmaps).imp fun _ _ hres => ⟨hres.1.1, hres.2⟩

theorem keepsMaps_free (h : Owned K k R ({pa} + H)) (hr : r ∈ k.roots + R) :
    KeepsMaps r k.mm (pmmFree k.mm pa) := by
  apply keepsMaps_of_tables
  intro x hx
  apply pmmFree_page
  rintro rfl
  exact (h.held hK).2 (mem_of_le ((tables_le_space k.mm r).trans (space_le_world hr)) hx)

/-- A new page without contents is where it is asked for, and nothing else moves. -/
theorem mapNew_maps {va : Nat} {write exec : Bool} (h : Owned K k R H) (hr : r ∈ k.roots + R) :
    Holds (mapNew r va (fun _ => pure true) write exec k) (fun res k' => KeepsMaps r k.mm k'.mm ∧
      ∀ x, res = some x → va < userStack → validatePage k'.mm r va = some x) fun _ => True := by
  refine (allocPage_maps hK h hr).bind fun res k1 ⟨h1, hmaps1⟩ => ?_
  cases res with
  | none => exact holds_pure ⟨hmaps1, fun x e => by cases e⟩
  | some pa =>
    have hr1 : r ∈ k1.roots + R := h1.root hr
    apply holds_pure_bind
    apply holds_step_bind
    obtain ⟨rest, hrest⟩ := exists_cons_of_mem hr1
    have hgood := h1.owned.good hK
    rw [hrest] at hgood
    obtain ⟨hmaps2, hnew⟩ :=
      keepsMaps_mapPage hgood.sep (h1.owned.held hK).1 va write exec
    have hmap := h1.owned.map hK hr1 va write exec
    refine holds_ite (fun hok => ?_) fun hfail => ?_
    · refine holds_pure ⟨hmaps1.trans hmaps2, fun x e hva => ?_⟩
      obtain rfl := some.inj e
      exact hnew hok hva
    rw [if_neg hfail] at hmap
    have hr2 := hr1
    have hback := keepsMaps_free hK hmap.owned hr2
    exact holds_modify_bind (holds_pure
      ⟨(hmaps1.trans hmaps2).trans hback, fun x e => by cases e⟩)

/-- The top page of the user stack is the page `mapStack` returns. -/
theorem mapStack_maps (h : Owned K k R H) (hr : r ∈ k.roots + R) :
    Holds (mapStack r k) (fun res k' => ∀ x, res = some x →
      validatePage k'.mm r (userStack - 4096) = some x) fun _ => True := by
  have hpage : ∀ {k'} va, Owned K k' R H → k'.roots = k.roots →
      Holds (mapNew r va (fun _ => pure true) true false k') (fun res k'' => Kept K R H k' k'' ∧
        KeepsMaps r k'.mm k''.mm ∧
        ∀ x, res = some x → va < userStack → validatePage k''.mm r va = some x) fun _ => True := by
    intro k' va h' hroots
    have hr' : r ∈ k'.roots + R := by
      rw [hroots]
      exact hr
    exact ((mapNew_spec hK h' hr' (pageInit_pure true)).both (mapNew_maps hK h' hr')).imp
      fun _ _ hres => ⟨hres.1.1, hres.2⟩
  refine (hpage (userStack - 4096) h rfl).bind fun top k1 ⟨h1, _, htop⟩ => ?_
  cases top with
  | none => exact holds_pure fun x e => by cases e
  | some pa =>
    have hloop : Holds (Exec.all (fun i => do
        let res ← mapNew r (userStack - (i + 2) * 4096) (fun _ => pure true) true false
        pure res.isSome) (List.range 15) k1)
        (fun _ k' => Kept K R H k k' ∧ validatePage k'.mm r (userStack - 4096) = some pa)
        fun _ => True := by
      refine holds_all (I := fun k' => Kept K R H k k' ∧
        validatePage k'.mm r (userStack - 4096) = some pa) (fun i _ k' ⟨h', hva⟩ => ?_)
        ⟨h1, htop pa rfl (by decide)⟩
      exact (hpage _ h'.owned h'.roots).bind fun _ _ ⟨h2, hmaps, _⟩ =>
        holds_pure ⟨h'.trans h2, hmaps _ _ hva⟩
    refine hloop.bind fun ok k2 ⟨_, hva⟩ => holds_pure fun x e => ?_
    split at e
    · obtain rfl := some.inj e
      exact hva
    · cases e

end

end Slopix.Kernel
