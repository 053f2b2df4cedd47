import Mathlib.Algebra.BigOperators.Group.Finset.Basic
import Mathlib.Data.Nat.Bitwise
import Slopix.Lib.Loop
import Slopix.Mm.Pmm

/-!
# User page tables

`kernel/vmm.c`. A table is a page of 512 little-endian 64-bit entries; a table pointer is the
physical address of its page and `0` is the null pointer. `walk` runs from level 0 to level 3, so a
table of level `l` has `4 - l` levels of entries below it: `frames m d t` counts every frame that a
table `t` with `d` levels reaches, tables and user pages alike.
-/

namespace Slopix.Mm

open Lib

/-! ## Page table entries -/

/-- `PTE_PER_TABLE`. -/
@[irreducible] def ptePerTable : Nat := 512

/-- `PTE_ADDR_MASK`. -/
def pteAddrMask : Nat := 0x0000FFFFFFFFF000

/-- The complement of `PTE_ADDR_MASK` in 64 bits. -/
def pteFlagMask : Nat := 0xFFFF000000000FFF

/-- `entry & PTE_VALID`. -/
def pteValid (e : Nat) : Bool := e &&& 1 != 0

/-- `entry & PTE_ADDR_MASK`. -/
def pteAddr (e : Nat) : Nat := e &&& pteAddrMask

/-- `entry & ~PTE_ADDR_MASK`: the permissions and attributes. -/
def pteFlags (e : Nat) : Nat := e &&& pteFlagMask

/-- `make_table_desc`: `PTE_TABLE | PTE_VALID`. -/
def makeTableDesc (pa : Nat) : Nat := (pa &&& pteAddrMask) ||| 3

/-- The attribute bits of `make_page_desc_user`: `PTE_AF | PTE_SH_INNER | PTE_ATTR_NORMAL | PTE_PAGE |
PTE_VALID`, the access permissions, `PTE_UXN` unless executable, and `PTE_PXN`. -/
def userFlags (write exec : Bool) : Nat :=
  0x707 ||| (if write then 0x40 else 0xC0) ||| (if exec then 0 else 1 <<< 54) ||| (1 <<< 53)

/-- `make_page_desc_user`. -/
def makePageDescUser (pa : Nat) (write exec : Bool) : Nat :=
  (pa &&& pteAddrMask) ||| userFlags write exec

/-- Entry `i` of table `t`. -/
def PhysMem.pte (m : PhysMem) (t i : Nat) : Nat := getLe 8 (m.page t) (8 * i)

/-- Store entry `i` of table `t`. -/
def PhysMem.setPte (m : PhysMem) (t i v : Nat) : PhysMem :=
  m.setPage t (putLe 8 (m.page t) (8 * i) v)

/-- The table indices of levels 0, 1 and 2: `L0_INDEX`, `L1_INDEX`, `L2_INDEX`. -/
def tableIndices (va : Nat) : List Nat :=
  [va / 2 ^ 39 % 512, va / 2 ^ 30 % 512, va / 2 ^ 21 % 512]

/-- `L3_INDEX`. -/
def l3Index (va : Nat) : Nat := va / 2 ^ 12 % 512

/-! ## Operations -/

/-- `walk(pagetable, va, 0)` up to the last table: follow the entries `is` from `t`. -/
def walkTables (m : PhysMem) : List Nat → Nat → Option Nat
  | [], t => some t
  | i :: is, t => if pteValid (m.pte t i) then walkTables m is (pteAddr (m.pte t i)) else none

/-- `walk(pagetable, va, 1)` up to the last table. A missing table is allocated; when an allocation
fails, the tables allocated on the way are unlinked and freed again, the last one first. -/
def walkAlloc : List Nat → Nat → PhysMem → Option Nat × PhysMem
  | [], t, m => (some t, m)
  | i :: is, t, m =>
    if pteValid (m.pte t i) then walkAlloc is (pteAddr (m.pte t i)) m
    else
      match pmmAlloc m with
      | none => (none, m)
      | some (pa, m1) =>
        match walkAlloc is pa (m1.setPte t i (makeTableDesc pa)) with
        | (some t', m2) => (some t', m2)
        | (none, m2) => (none, pmmFree (m2.setPte t i 0) pa)

/-- `vmm_map_page`: a page that is mapped already is an error. -/
def vmmMapPage (m : PhysMem) (pagetable va pa : Nat) (write exec : Bool) : Bool × PhysMem :=
  match walkAlloc (tableIndices va) pagetable m with
  | (none, m') => (false, m')
  | (some t, m') =>
    if pteValid (m'.pte t (l3Index va)) then (false, m')
    else (true, m'.setPte t (l3Index va) (makePageDescUser pa write exec))

/-- `vmm_unmap_page`, with the page that was mapped. -/
def vmmUnmapPage (m : PhysMem) (pagetable va : Nat) : Option Nat × PhysMem :=
  match walkTables m (tableIndices va) pagetable with
  | none => (none, m)
  | some t =>
    if pteValid (m.pte t (l3Index va)) then
      (some (pteAddr (m.pte t (l3Index va))), m.setPte t (l3Index va) 0)
    else (none, m)

/-- `vmm_create`. -/
def vmmCreate (m : PhysMem) : Option (Nat × PhysMem) := pmmAlloc m

/-- `freewalk` on a table with `d` levels of entries. Freeing a user page and a table differ only in
the recursion. -/
def freewalk : Nat → Nat → PhysMem → PhysMem
  | 0, _, m => m
  | d + 1, t, m =>
    (List.range ptePerTable).foldl (fun m i =>
      if pteValid (m.pte t i) then
        pmmFree (freewalk d (pteAddr (m.pte t i)) m) (pteAddr (m.pte t i))
      else m) m

/-- `vmm_free`: the tables and pages below, then the root. -/
def vmmFree (m : PhysMem) (pagetable : Nat) : PhysMem :=
  if pagetable = 0 then m else pmmFree (freewalk 4 pagetable m) pagetable

/-- One entry of `copywalk` at level 3: a new page with the bytes and the flags of the old one. -/
def copyPageEntry (dst src i : Nat) (m : PhysMem) : Bool × PhysMem :=
  let entry := m.pte src i
  if pteValid entry then
    match pmmAlloc m with
    | none => (false, m)
    | some (pa, m1) =>
      (true, (m1.setPage pa (m1.page (pteAddr entry))).setPte dst i (pteFlags entry ||| pa))
  else (true, m)

/-- One entry of `copywalk` above level 3: a new table, linked before it is filled by `copyTable`. -/
def copyTableEntry (copyTable : Nat → Nat → PhysMem → Bool × PhysMem) (dst src i : Nat)
    (m : PhysMem) : Bool × PhysMem :=
  let entry := m.pte src i
  if pteValid entry then
    match pmmAlloc m with
    | none => (false, m)
    | some (pa, m1) => copyTable pa (pteAddr entry) (m1.setPte dst i (makeTableDesc pa))
  else (true, m)

/-- `copywalk` on tables with `d + 1` levels of entries. -/
def copywalk : Nat → Nat → Nat → PhysMem → Bool × PhysMem
  | 0, dst, src, m => forList (copyPageEntry dst src) (List.range ptePerTable) m
  | d + 1, dst, src, m => forList (copyTableEntry (copywalk d) dst src) (List.range ptePerTable) m

/-- `vmm_copy`: a copy that fails is freed again. -/
def vmmCopy (m : PhysMem) (src : Nat) : Option Nat × PhysMem :=
  match vmmCreate m with
  | none => (none, m)
  | some (dst, m1) =>
    match copywalk 3 dst src m1 with
    | (true, m2) => (some dst, m2)
    | (false, m2) => (none, vmmFree m2 dst)

/-! ## Entry arithmetic -/

theorem testBit_pteAddrMask (k : Nat) : pteAddrMask.testBit k = (decide (12 ≤ k) && decide (k < 48)) := by
  have hmask : pteAddrMask = (2 ^ 36 - 1) <<< 12 := by decide
  rw [hmask, Nat.testBit_shiftLeft, Nat.testBit_two_pow_sub_one]
  by_cases h : 12 ≤ k
  · simp [h]
    omega
  · simp [h]

theorem and_pteAddrMask {pa : Nat} (hal : pa % 4096 = 0) (hlt : pa < 2 ^ 48) :
    pa &&& pteAddrMask = pa := by
  apply Nat.eq_of_testBit_eq
  intro k
  rw [Nat.testBit_and, testBit_pteAddrMask]
  by_cases hlow : k < 12
  · have hbit : pa.testBit k = false := by
      have : (pa % 2 ^ 12).testBit k = pa.testBit k := by
        rw [Nat.testBit_mod_two_pow, decide_eq_true hlow, Bool.true_and]
      rw [← this, show pa % 2 ^ 12 = 0 from hal, Nat.zero_testBit]
    simp [hbit]
  by_cases hhigh : k < 48
  · simp [hhigh, not_lt.1 hlow]
  · have hbit : pa.testBit k = false :=
      Nat.testBit_lt_two_pow (lt_of_lt_of_le hlt (Nat.pow_le_pow_right (by omega) (by omega)))
    simp [hbit]

theorem IsFrame.lt_two_pow {pa : Nat} (h : IsFrame pa) : pa < 2 ^ 48 := by
  have := h.lt
  unfold ramBase ramSize at this
  omega

theorem IsFrame.and_mask {pa : Nat} (h : IsFrame pa) : pa &&& pteAddrMask = pa :=
  and_pteAddrMask h.aligned h.lt_two_pow

/-- The address of an entry made from a frame and bits outside the address field. -/
theorem pteAddr_or {pa f : Nat} (h : IsFrame pa) (hf : f &&& pteAddrMask = 0) :
    pteAddr (pa ||| f) = pa := by
  unfold pteAddr
  rw [Nat.and_or_distrib_right, h.and_mask, hf, Nat.or_zero]

/-- An entry with the valid bit among its flags is valid. -/
theorem pteValid_or {pa f : Nat} (h : IsFrame pa) (hf : f &&& 1 = 1) :
    pteValid (pa ||| f) = true := by
  have heven : pa &&& 1 = 0 := by
    have := h.aligned
    unfold pageSize at this
    rw [Nat.and_one_is_mod]
    omega
  unfold pteValid
  rw [Nat.and_or_distrib_right, heven, hf]
  rfl

/-- A table descriptor leads to its table. -/
theorem pteAddr_tableDesc {pa : Nat} (h : IsFrame pa) : pteAddr (makeTableDesc pa) = pa := by
  unfold makeTableDesc
  rw [h.and_mask]
  exact pteAddr_or h (by decide)

/-- And it is valid. -/
theorem pteValid_tableDesc {pa : Nat} (h : IsFrame pa) : pteValid (makeTableDesc pa) = true := by
  unfold makeTableDesc
  rw [h.and_mask]
  exact pteValid_or h (by decide)

theorem pteAddr_pageDesc {pa : Nat} (h : IsFrame pa) (write exec : Bool) :
    pteAddr (makePageDescUser pa write exec) = pa := by
  unfold makePageDescUser
  rw [h.and_mask]
  exact pteAddr_or h (by cases write <;> cases exec <;> decide)

theorem pteValid_pageDesc {pa : Nat} (h : IsFrame pa) (write exec : Bool) :
    pteValid (makePageDescUser pa write exec) = true := by
  unfold makePageDescUser
  rw [h.and_mask]
  exact pteValid_or h (by cases write <;> cases exec <;> decide)

theorem pteAddr_copied {pa e : Nat} (h : IsFrame pa) : pteAddr (pteFlags e ||| pa) = pa := by
  rw [Nat.or_comm]
  apply pteAddr_or h
  unfold pteFlags
  rw [Nat.and_assoc, show pteFlagMask &&& pteAddrMask = 0 by decide, Nat.and_zero]

theorem pteValid_copied {pa e : Nat} (h : IsFrame pa) (he : pteValid e = true) :
    pteValid (pteFlags e ||| pa) = true := by
  rw [Nat.or_comm]
  apply pteValid_or h
  unfold pteFlags
  rw [Nat.and_assoc, show pteFlagMask &&& 1 = 1 by decide]
  unfold pteValid at he
  have : e &&& 1 = e % 2 := Nat.and_one_is_mod e
  have hne : e &&& 1 ≠ 0 := by simpa using he
  omega

/-- The copied entry keeps the permissions and attributes. -/
theorem pteFlags_copied {pa e : Nat} (h : IsFrame pa) : pteFlags (pteFlags e ||| pa) = pteFlags e := by
  have hpa : pa &&& pteFlagMask = 0 := by
    rw [← h.and_mask, Nat.and_assoc, show pteAddrMask &&& pteFlagMask = 0 by decide, Nat.and_zero]
  unfold pteFlags
  rw [Nat.and_or_distrib_right, hpa, Nat.or_zero, Nat.and_assoc, Nat.and_self]

theorem makeTableDesc_lt {pa : Nat} (h : IsFrame pa) : makeTableDesc pa < 2 ^ 64 := by
  unfold makeTableDesc
  rw [h.and_mask]
  exact Nat.or_lt_two_pow (lt_of_lt_of_le h.lt_two_pow (by decide)) (by decide)

theorem makePageDescUser_lt {pa : Nat} (h : IsFrame pa) (write exec : Bool) :
    makePageDescUser pa write exec < 2 ^ 64 := by
  unfold makePageDescUser
  rw [h.and_mask]
  exact Nat.or_lt_two_pow (lt_of_lt_of_le h.lt_two_pow (by decide))
    (by cases write <;> cases exec <;> decide)

theorem copied_lt {pa e : Nat} (h : IsFrame pa) : pteFlags e ||| pa < 2 ^ 64 :=
  Nat.or_lt_two_pow (lt_of_le_of_lt Nat.and_le_right (by decide))
    (lt_of_lt_of_le h.lt_two_pow (by decide))

@[simp] theorem pteValid_zero : pteValid 0 = false := rfl

/-! ## Reading back entries -/

section

variable {m : PhysMem}

theorem pte_setPte_self {t i v : Nat} (hv : v < 2 ^ 64) : (m.setPte t i v).pte t i = v := by
  unfold PhysMem.pte PhysMem.setPte
  rw [PhysMem.setPage_page_self]
  exact getLe_putLe_self hv

theorem pte_setPte_of_ne {t i j v : Nat} (h : j ≠ i) : (m.setPte t i v).pte t j = m.pte t j := by
  unfold PhysMem.pte PhysMem.setPte
  rw [PhysMem.setPage_page_self]
  exact getLe_putLe_of_disjoint (by omega)

theorem pte_congr {m m' : PhysMem} {t : Nat} (h : m'.page t = m.page t) (i : Nat) :
    m'.pte t i = m.pte t i := by
  unfold PhysMem.pte
  rw [h]

theorem pte_of_zero {t : Nat} (h : m.page t = fun _ => 0) (i : Nat) : m.pte t i = 0 := by
  unfold PhysMem.pte
  rw [h]
  exact getLe_zero 8 _

theorem setPte_page_of_ne {t i v x : Nat} (h : x ≠ t) : (m.setPte t i v).page x = m.page x :=
  PhysMem.setPage_page_of_ne h _

@[simp] theorem setPte_free (t i v : Nat) : (m.setPte t i v).free = m.free := rfl

end

end Slopix.Mm
