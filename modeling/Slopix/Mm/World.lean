import Slopix.Mm.Copy

/-!
# All address spaces together

`world m roots` is the multiset of every frame of the free list and of the address spaces with the
given roots. Each operation of `pmm.c` and `vmm.c` changes it by exactly the frames that it hands out
or takes back; an operation on one address space leaves the others alone because they share no frame.
-/

namespace Slopix.Mm

open Lib Multiset

/-- The frames of one address space, its root included. -/
def space (m : PhysMem) (r : Nat) : Multiset Nat := {r} + frames m 4 r

/-- The free frames and the frames of the address spaces `roots`. -/
def world (m : PhysMem) (roots : Multiset Nat) : Multiset Nat :=
  (m.free : Multiset Nat) + roots.bind (space m)

/-- The frame that an operation returns, if any. -/
def returned : Option Nat → Multiset Nat
  | some pa => {pa}
  | none => 0

/-- No frame is used twice and all are frames of the RAM. -/
structure Good (m : PhysMem) (roots : Multiset Nat) : Prop where
  nodup : (world m roots).Nodup
  isFrame : ∀ x ∈ world m roots, IsFrame x

section

variable {m m' : PhysMem} {roots rest : Multiset Nat} {r pa : Nat}

theorem world_cons (m : PhysMem) (r : Nat) (rest : Multiset Nat) :
    world m (r ::ₘ rest) = extent m 4 r + rest.bind (space m) := by
  unfold world extent
  rw [cons_bind]
  unfold space
  abel

theorem space_le_world (h : r ∈ roots) : space m r ≤ world m roots := by
  exact (le_bind roots h).trans (le_add_left _ _)

theorem world_mono (m : PhysMem) {roots roots' : Multiset Nat} (h : roots ≤ roots') :
    world m roots ≤ world m roots' := by
  obtain ⟨rest, rfl⟩ := Multiset.le_iff_exists_add.1 h
  unfold world
  rw [add_bind, ← add_assoc]
  exact Multiset.le_add_right _ _

theorem mem_world_of_free {x : Nat} (h : x ∈ m.free) : x ∈ world m roots :=
  mem_add.2 (Or.inl (mem_coe.2 h))

theorem Good.extent_le (r : Nat) (rest : Multiset Nat) :
    extent m 4 r ≤ world m (r ::ₘ rest) := by
  rw [world_cons]
  exact le_add_right _ _

theorem Good.sep (h : Good m (r ::ₘ rest)) : Sep m 4 r where
  nodup := nodup_of_le (Good.extent_le r rest) h.nodup
  isFrame x hx := h.isFrame x (mem_of_le (Good.extent_le r rest) hx)

/-- A frame of one address space is in no other one and not free. -/
theorem Good.notMem_extent (h : Good m (r ::ₘ rest)) {r' x : Nat} (hr' : r' ∈ rest)
    (hx : x ∈ space m r') : x ∉ extent m 4 r := by
  have hnd := h.nodup
  rw [world_cons, nodup_add] at hnd
  exact fun hx' => disjoint_left.1 hnd.2.2 hx'
    (mem_of_le (le_bind rest hr') hx)

theorem Good.notMem_free (h : Good m roots) (hr : r ∈ roots) {x : Nat} (hx : x ∈ space m r) :
    x ∉ m.free := by
  have hnd := h.nodup
  unfold world at hnd
  rw [nodup_add] at hnd
  exact fun hx' => disjoint_left.1 hnd.2.2 (mem_coe.2 hx')
    (mem_of_le (le_bind roots hr) hx)

theorem space_congr (h : ∀ x ∈ tables m 4 r, m'.page x = m.page x) : space m' r = space m r := by
  unfold space
  rw [(frames_congr h).1]

theorem bind_space_congr (h : ∀ r ∈ rest, ∀ x ∈ tables m 4 r, m'.page x = m.page x) :
    rest.bind (space m') = rest.bind (space m) :=
  bind_congr fun r hr => space_congr (h r hr)

theorem tables_le_space (m : PhysMem) (r : Nat) : tables m 4 r ≤ space m r := tables_le m 4 r

/-- The address spaces that an operation on `r` does not touch. -/
theorem Good.rest_congr (h : Good m (r ::ₘ rest))
    (hpage : ∀ x, x ∉ extent m 4 r → m'.page x = m.page x) :
    rest.bind (space m') = rest.bind (space m) :=
  bind_space_congr fun _ hr' x hx =>
    hpage x (h.notMem_extent hr' (mem_of_le (tables_le_space m _) hx))

theorem world_mapPage (h : Good m (r ::ₘ rest)) (hpa : IsFrame pa) (va : Nat) (write exec : Bool) :
    world (vmmMapPage m r va pa write exec).2 (r ::ₘ rest) =
      world m (r ::ₘ rest) + if (vmmMapPage m r va pa write exec).1 then {pa} else 0 := by
  obtain ⟨htotal, hpage⟩ := vmmMapPage_spec h.sep hpa va write exec
  rw [world_cons, world_cons, h.rest_congr hpage, extent_eq, extent_eq, htotal]
  abel

theorem world_unmapPage (h : Good m (r ::ₘ rest)) (va : Nat) :
    world (vmmUnmapPage m r va).2 (r ::ₘ rest) + returned (vmmUnmapPage m r va).1 =
      world m (r ::ₘ rest) := by
  obtain ⟨hfree, hframes, hpage⟩ := vmmUnmapPage_spec h.sep va
  rw [world_cons, world_cons, h.rest_congr hpage, extent_eq, extent_eq, hfree, ← hframes]
  abel

theorem world_vmmFree (h : Good m (r ::ₘ rest)) :
    world (vmmFree m r) rest = world m (r ::ₘ rest) := by
  obtain ⟨hfree, hpage⟩ := vmmFree_spec h.sep
  rw [world_cons]
  unfold world
  rw [hfree, h.rest_congr hpage]

/-- Pages outside the free list stay: no address space changes. -/
theorem Good.bind_congr (h : Good m roots) (hpage : ∀ x, x ∉ m.free → m'.page x = m.page x) :
    roots.bind (space m') = roots.bind (space m) :=
  bind_space_congr fun _ hr x hx =>
    hpage x (h.notMem_free hr (mem_of_le (tables_le_space m _) hx))

theorem world_alloc (h : Good m roots) (hal : pmmAlloc m = some (pa, m')) :
    world m roots = {pa} + world m' roots ∧ IsFrame pa := by
  obtain ⟨hfree, -, hpage⟩ := pmmAlloc_spec hal
  have hmem : pa ∈ m.free := by
    rw [← mem_coe, hfree]
    simp
  have hsame : roots.bind (space m') = roots.bind (space m) :=
    h.bind_congr fun x hx => hpage x (ne_of_mem_of_not_mem hmem hx).symm
  refine ⟨?_, h.isFrame pa (mem_world_of_free hmem)⟩
  unfold world
  rw [hsame, hfree]
  abel

theorem world_free (hpa : IsFrame pa) (hnd : ({pa} + world m roots).Nodup) :
    world (pmmFree m pa) roots = {pa} + world m roots := by
  have hnot : pa ∉ world m roots := by
    rw [singleton_add, nodup_cons] at hnd
    exact hnd.1
  obtain ⟨hfree, hpage⟩ := pmmFree_spec hpa fun hmem => hnot (mem_world_of_free hmem)
  have hsame : roots.bind (space (pmmFree m pa)) = roots.bind (space m) := by
    apply bind_space_congr
    intro r hr x hx
    apply hpage
    intro e
    rw [e] at hx
    exact hnot (mem_of_le ((tables_le_space m r).trans (space_le_world hr)) hx)
  unfold world
  rw [hsame, hfree]
  abel

theorem world_allocContiguous {n : Nat} (h : Good m roots)
    (hal : pmmAllocContiguous m n = some (pa, m')) :
    world m roots = runFrames pa n + world m' roots := by
  obtain ⟨hfree, hpage⟩ := pmmAllocContiguous_spec hal
  have hsame : roots.bind (space m') = roots.bind (space m) := by
    apply h.bind_congr
    intro x hx
    apply hpage
    intro hmem
    apply hx
    rw [← mem_coe, hfree]
    exact mem_add.2 (Or.inl hmem)
  unfold world
  rw [hsame, hfree]
  abel

theorem world_freeContiguous {base n : Nat} (hframe : ∀ x ∈ runFrames base n, IsFrame x)
    (hnd : (runFrames base n + world m roots).Nodup) :
    world (pmmFreeContiguous m base n) roots = runFrames base n + world m roots := by
  obtain ⟨-, hndw, hdis⟩ := nodup_add.1 hnd
  have hle : (m.free : Multiset Nat) + runFrames base n ≤ runFrames base n + world m roots := by
    rw [add_comm]
    exact Multiset.add_le_add_left (Multiset.le_add_right _ _)
  obtain ⟨hfree, hpage⟩ := pmmFreeContiguous_spec hframe (nodup_of_le hle hnd)
  have hsame : roots.bind (space (pmmFreeContiguous m base n)) = roots.bind (space m) := by
    apply bind_space_congr
    intro r hr x hx
    apply hpage
    intro hmem
    exact disjoint_left.1 hdis hmem
      (mem_of_le ((tables_le_space m r).trans (space_le_world hr)) hx)
  unfold world
  rw [hsame, hfree]
  abel

/-- `vmm_copy`: a new address space out of free frames, or nothing. -/
theorem world_copy (h : Good m (r ::ₘ rest)) :
    world (vmmCopy m r).2 (returned (vmmCopy m r).1 + r ::ₘ rest) = world m (r ::ₘ rest) := by
  obtain ⟨hres, hpage⟩ := vmmCopy_spec h.sep
  have hsame := h.bind_congr hpage
  cases hc : (vmmCopy m r).1 with
  | none =>
    rw [hc] at hres
    rw [returned, zero_add]
    unfold world
    rw [hsame, hres]
  | some dst =>
    rw [hc] at hres
    rw [returned, singleton_add, world_cons, ← hres.1, hsame]
    rfl

theorem world_setPage {x : Nat} (b : Bytes) (hx : ∀ r ∈ roots, x ∉ tables m 4 r) :
    world (m.setPage x b) roots = world m roots := by
  refine congrArg (fun s : Multiset Nat => (m.free : Multiset Nat) + s) ?_
  apply bind_space_congr
  intro r hr y hy
  exact PhysMem.setPage_page_of_ne (ne_of_mem_of_not_mem hy (hx r hr)) b

/-- A page of zeros can become the root of a new address space. -/
theorem world_root (hzero : m.page pa = fun _ => 0) (roots : Multiset Nat) :
    world m (pa ::ₘ roots) = {pa} + world m roots := by
  rw [world_cons, extent_eq, frames_of_zero 4 hzero]
  unfold world
  abel

/-- A user page of one of the address spaces. -/
def IsData (m : PhysMem) (roots : Multiset Nat) (x : Nat) : Prop := ∃ r ∈ roots, x ∈ pages m 4 r

theorem IsData.notMem_tables {x : Nat} (h : IsData m roots x) (hg : Good m roots) :
    ∀ r ∈ roots, x ∉ tables m 4 r := by
  obtain ⟨r, hr, hx⟩ := h
  obtain ⟨rest, rfl⟩ := exists_cons_of_mem hr
  have hspace := hg.sep.nodup_space
  rw [← tables_add_pages, nodup_add] at hspace
  intro r' hr' hx'
  rw [mem_cons] at hr'
  rcases hr' with rfl | hr'
  · exact disjoint_left.1 hspace.2.2 hx' hx
  apply hg.notMem_extent hr' (mem_of_le (tables_le_space m r') hx')
  unfold extent
  rw [← tables_add_pages]
  exact mem_add.2 (Or.inr (mem_add.2 (Or.inr hx)))

theorem IsData.congr {x : Nat} (h : IsData m roots x)
    (hsame : ∀ r ∈ roots, ∀ y ∈ tables m 4 r, m'.page y = m.page y) : IsData m' roots x := by
  obtain ⟨r, hr, hx⟩ := h
  exact ⟨r, hr, by rw [(frames_congr (hsame r hr)).2.2]; exact hx⟩

theorem IsData.mapPage {x : Nat} (hg : Good m (r ::ₘ rest)) (hpa : IsFrame pa) (va : Nat)
    (write exec : Bool) (h : IsData m (r ::ₘ rest) x ∨
      x = pa ∧ (vmmMapPage m r va pa write exec).1 = true) :
    IsData (vmmMapPage m r va pa write exec).2 (r ::ₘ rest) x := by
  have hpages := pages_mapPage hg.sep hpa va write exec
  obtain ⟨-, hpage⟩ := vmmMapPage_spec hg.sep hpa va write exec
  have hroot : x ∈ pages m 4 r ∨ x = pa ∧ (vmmMapPage m r va pa write exec).1 = true →
      x ∈ pages (vmmMapPage m r va pa write exec).2 4 r := by
    rw [hpages, mem_add]
    rintro (hx | ⟨rfl, hok⟩)
    · exact Or.inl hx
    · rw [if_pos hok]
      exact Or.inr (mem_singleton_self x)
  rcases h with ⟨r', hr', hx⟩ | hx
  · rw [mem_cons] at hr'
    rcases hr' with rfl | hr'
    · exact ⟨r', mem_cons_self r' rest, hroot (Or.inl hx)⟩
    refine ⟨r', mem_cons_of_mem hr', ?_⟩
    rw [(frames_congr fun y hy => hpage y (hg.notMem_extent hr'
      (mem_of_le (tables_le_space m r') hy))).2.2]
    exact hx
  · exact ⟨r, mem_cons_self r rest, hroot (Or.inr hx)⟩

end

end Slopix.Mm
