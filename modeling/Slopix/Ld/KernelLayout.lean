import Mathlib.Data.List.Find
import Slopix.Ld.Image

/-!
# The layout of a kernel

`assign_addresses_kernel` puts the boot section and the tables at fixed places and the other sections one behind the
other from 64 KiB on. The code does not compare the two parts. The load addresses are in order exactly when the first
part ends at or before the first section of the second one.
-/

namespace Slopix.Ld

open Lib Elf Function List

/-! ## What the layout should be -/

/-- What is added to the load address of a section of the high half. -/
def highOffset : Nat := KERNEL_VIRT_BASE - KERNEL_PHYS_BASE

/-- The stack behind the zeros. -/
def KERNEL_STACK_SIZE : Nat := 0x10000

/-- The value of a linker-defined symbol; the names are in the order of `kernelSymbols`. -/
def kernelSymbol (global : SymbolTable) (k : Nat) : Option Nat :=
  (symbolLookup global (kernelSymbols.getD k [])).map Symbol.value

/-- The symbols stand at the ends of what they name. The stack is the next 64 KiB behind `.bss` that start at a multiple
of 16. -/
structure SymbolsRight (secs : Sections) (global : SymbolTable) : Prop where
  physBase : kernelSymbol global 0 = some KERNEL_PHYS_BASE
  virtBase : kernelSymbol global 1 = some KERNEL_VIRT_BASE
  bssStart : kernelSymbol global 2 = some (secs KOUT_BSS).addr
  bssEnd : kernelSymbol global 3 = some (((secs KOUT_BSS).addr + (secs KOUT_BSS).size) % 2 ^ 64)
  stackTop : ∃ stack gap, stack = ((secs KOUT_BSS).addr + (secs KOUT_BSS).size) % 2 ^ 64 + gap ∧ gap < 16 ∧
    16 ∣ stack ∧ kernelSymbol global 4 = some ((stack + KERNEL_STACK_SIZE) % 2 ^ 64)

/-- The layout of the sections that are not empty: load addresses in the order of the sections, one virtual address for
each load address of the high half, and the symbols. -/
structure KernelLaidOut (secs : Sections) (global : SymbolTable) : Prop where
  fits : ∀ i, 0 < i → i < KOUT_COUNT → 0 < (secs i).size → (secs i).lma + (secs i).size ≤ 2 ^ 64
  ordered : ∀ i j, 0 < i → i < j → j < KOUT_COUNT → 0 < (secs i).size → 0 < (secs j).size →
    (secs i).lma + (secs i).size ≤ (secs j).lma
  offset : ∀ i, KOUT_TEXT ≤ i → i < KOUT_COUNT → 0 < (secs i).size →
    (secs i).addr = ((secs i).lma + highOffset) % 2 ^ 64
  symbols : SymbolsRight secs global

/-! ## When it is -/

/-- Sections placed one behind the other from `x` on, given by size and alignment: no load address runs over, and
aligning the virtual address moves it as far as aligning the load address. -/
def InStep : Nat → List (Nat × Nat) → Prop
  | _, [] => True
  | x, (size, align) :: l =>
    if size = 0 then InStep x l
    else
      x ≤ alignUp (x % 2 ^ 64) align ∧ alignUp (x % 2 ^ 64) align + size ≤ 2 ^ 64 ∧
        alignUp ((x + highOffset) % 2 ^ 64) align = (alignUp (x % 2 ^ 64) align + highOffset) % 2 ^ 64 ∧
        InStep (alignUp (x % 2 ^ 64) align + size) l

/-- For a power of two, aligning moves both addresses as far exactly when it is at most 2^48. -/
theorem inStep_pow {k : Nat} (hk : k < 64) (x : Nat) :
    alignUp ((x + highOffset) % 2 ^ 64) (2 ^ k) = (alignUp (x % 2 ^ 64) (2 ^ k) + highOffset) % 2 ^ 64 ↔ k ≤ 48 := by
  have hoff : highOffset = 2 ^ 64 - 2 ^ 48 := by decide
  have hdvd64 : 2 ^ k ∣ 2 ^ 64 := Nat.pow_dvd_pow 2 hk.le
  rw [alignUp_pow hk, alignUp_pow hk, hoff]
  constructor
  · intro h
    have hdvd : 2 ^ k ∣ (((x % 2 ^ 64 + 2 ^ k - 1) % 2 ^ 64 / 2 ^ k * 2 ^ k + (2 ^ 64 - 2 ^ 48)) % 2 ^ 64) := h ▸ Nat.dvd_mul_left _ _
    rw [Nat.dvd_mod_iff hdvd64, Nat.dvd_add_right (Nat.dvd_mul_left _ _)] at hdvd
    have h48 : 2 ^ k ∣ 2 ^ 48 := (Nat.dvd_sub_iff_right (by decide) hdvd64).1 hdvd
    exact (Nat.pow_dvd_pow_iff_le_right (by decide)).1 h48
  intro hk48
  have hpos := Nat.two_pow_pos k
  have hoff48 : 2 ^ k ∣ 2 ^ 64 - 2 ^ 48 := Nat.dvd_sub hdvd64 (Nat.pow_dvd_pow 2 hk48)
  -- cutting to 64 bits and rounding down to the power of two can be done in either order
  have hfloor : ∀ b, b % 2 ^ 64 / 2 ^ k * 2 ^ k = b / 2 ^ k * 2 ^ k % 2 ^ 64 := fun b => by
    have hle := Nat.div_mul_le_self (b % 2 ^ 64) (2 ^ k)
    have hlt := Nat.mod_lt b (show 0 < 2 ^ 64 by decide)
    obtain ⟨m, hm⟩ := hdvd64
    have hb : b / 2 ^ k = m * (b / 2 ^ 64) + b % 2 ^ 64 / 2 ^ k := by
      conv_lhs => rw [← Nat.div_add_mod b (2 ^ 64), hm, Nat.mul_assoc, Nat.mul_add_div hpos, ← hm]
    rw [hb, Nat.add_mul, Nat.mul_right_comm, Nat.mul_comm m, ← hm, Nat.mul_add_mod, Nat.mod_eq_of_lt (hle.trans_lt hlt)]
  have hcut : ((x + (2 ^ 64 - 2 ^ 48)) % 2 ^ 64 + 2 ^ k - 1) % 2 ^ 64 =
      ((x % 2 ^ 64 + 2 ^ k - 1) % 2 ^ 64 + (2 ^ 64 - 2 ^ 48)) % 2 ^ 64 := by omega
  rw [hcut, hfloor, Nat.add_div_of_dvd_left hoff48, Nat.add_mul, Nat.div_mul_cancel hoff48]

/-- The sections that run in the upper half. -/
def highSections : List Nat := [KOUT_TEXT, KOUT_RODATA, KOUT_DATA, KOUT_BSS]

/-- Where the first of them is loaded. -/
def highStart : Nat := KERNEL_PHYS_BASE + KERNEL_BOOT_SIZE

/-- What the placement reads of a section. -/
def sizeAndAlign (secs : Sections) (i : Nat) : Nat × Nat := ((secs i).size, (secs i).alignment)

/-- The load address of the first section of the high half that is not empty. -/
def firstHigh (secs : Sections) : Option Nat :=
  (highSections.find? fun i => 0 < (secs i).size).map fun i => alignUp highStart (secs i).alignment

/-- The end of the boot code. -/
def bootEnd (secs : Sections) : Nat := KERNEL_PHYS_BASE + (secs KOUT_TEXT_BOOT).size

/-- Where its tables go. -/
def tablesAt (secs : Sections) : Nat := alignUp (bootEnd secs % 2 ^ 64) 0x1000

/-- The merged sections, not yet placed, have room: the boot section and the tables end at or before the first section of
the high half, and those of the high half stay in step. -/
structure KernelFits (secs : Sections) : Prop where
  boot : bootEnd secs ≤ 2 ^ 64
  tables : 0 < (secs KOUT_TABLES).size →
    bootEnd secs ≤ tablesAt secs ∧ tablesAt secs + (secs KOUT_TABLES).size ≤ 2 ^ 64
  low : ∀ high, firstHigh secs = some high → (0 < (secs KOUT_TEXT_BOOT).size → bootEnd secs ≤ high) ∧
    (0 < (secs KOUT_TABLES).size → tablesAt secs + (secs KOUT_TABLES).size ≤ high)
  high : InStep highStart (highSections.map (sizeAndAlign secs))

/-! ## The high half -/

section

variable {secs secs' : Sections} {l : List Nat} {i x y : Nat}

/-- The sections of `l` that are not empty stand one behind the other from `x` on. -/
structure Stepped (secs : Sections) (x : Nat) (l : List Nat) : Prop where
  each : ∀ i ∈ l, 0 < (secs i).size → x ≤ (secs i).lma ∧ (secs i).lma + (secs i).size ≤ 2 ^ 64 ∧
    (secs i).addr = ((secs i).lma + highOffset) % 2 ^ 64
  ordered : l.Pairwise fun i j => 0 < (secs i).size → 0 < (secs j).size → (secs i).lma + (secs i).size ≤ (secs j).lma

theorem stepped_cons_empty (h0 : (secs i).size = 0) : Stepped secs x (i :: l) ↔ Stepped secs x l := by
  constructor
  · rintro ⟨heach, hordered⟩
    exact ⟨fun j hj => heach j (mem_cons_of_mem i hj), (pairwise_cons.1 hordered).2⟩
  rintro ⟨heach, hordered⟩
  refine ⟨fun j hj hpos => ?_, pairwise_cons.2 ⟨fun j _ hpos => ?_, hordered⟩⟩
  · rcases mem_cons.1 hj with rfl | hj
    · omega
    · exact heach j hj hpos
  · omega

theorem stepped_cons (hpos : 0 < (secs i).size) : Stepped secs x (i :: l) ↔
    x ≤ (secs i).lma ∧ (secs i).lma + (secs i).size ≤ 2 ^ 64 ∧ (secs i).addr = ((secs i).lma + highOffset) % 2 ^ 64 ∧
      Stepped secs ((secs i).lma + (secs i).size) l := by
  constructor
  · rintro ⟨heach, hordered⟩
    obtain ⟨hx, hfits, haddr⟩ := heach i mem_cons_self hpos
    obtain ⟨hfirst, hrest⟩ := pairwise_cons.1 hordered
    refine ⟨hx, hfits, haddr, fun j hj hj0 => ?_, hrest⟩
    exact ⟨hfirst j hj hpos hj0, (heach j (mem_cons_of_mem i hj) hj0).2⟩
  rintro ⟨hx, hfits, haddr, heach, hordered⟩
  refine ⟨fun j hj hj0 => ?_, pairwise_cons.2 ⟨fun j hj _ hj0 => (heach j hj hj0).1, hordered⟩⟩
  rcases mem_cons.1 hj with rfl | hj
  · exact ⟨hx, hfits, haddr⟩
  · obtain ⟨hge, hrest⟩ := heach j hj hj0
    exact ⟨by omega, hrest⟩

theorem placeKernelSection_other (st : Sections × Nat × Nat) {k : Nat} (hk : k ≠ i) :
    (placeKernelSection st i).1 k = st.1 k := by
  unfold placeKernelSection
  dsimp only
  split
  · rfl
  · exact update_of_ne hk _ _

theorem placeHigh_other (st : Sections × Nat × Nat) {k : Nat} (hk : k ∉ l) :
    (l.foldl placeKernelSection st).1 k = st.1 k := by
  induction l generalizing st with
  | nil => rfl
  | cons i l ih =>
    rw [mem_cons, not_or] at hk
    rw [foldl_cons, ih _ hk.2, placeKernelSection_other st hk.1]

theorem placeKernelSection_size (st : Sections × Nat × Nat) (i k : Nat) :
    ((placeKernelSection st i).1 k).size = (st.1 k).size := by
  unfold placeKernelSection
  dsimp only
  split
  · rfl
  dsimp only
  by_cases hk : k = i
  · subst hk
    rw [update_self]
  · rw [update_of_ne hk]

theorem placeHigh_size (st : Sections × Nat × Nat) (k : Nat) :
    ((l.foldl placeKernelSection st).1 k).size = (st.1 k).size := by
  induction l generalizing st with
  | nil => rfl
  | cons i l ih => rw [foldl_cons, ih, placeKernelSection_size]

/-- The state in which the loop over the high half reaches `x`. -/
def highState (secs : Sections) (x : Nat) : Sections × Nat × Nat := (secs, x % 2 ^ 64, (x + highOffset) % 2 ^ 64)

theorem placeKernelSection_empty (h0 : (secs i).size = 0) : placeKernelSection (highState secs x) i = highState secs x := by
  exact if_pos h0

theorem placeKernelSection_placed (hpos : 0 < (secs i).size) :
    ((placeKernelSection (highState secs x) i).1 i).lma = alignUp (x % 2 ^ 64) (secs i).alignment ∧
      ((placeKernelSection (highState secs x) i).1 i).addr =
        alignUp ((x + highOffset) % 2 ^ 64) (secs i).alignment := by
  have hne : ¬ (secs i).size = 0 := by omega
  unfold placeKernelSection highState
  rw [if_neg hne]
  dsimp only
  rw [update_self]
  exact ⟨rfl, rfl⟩

/-- After a section that keeps the two addresses in step the loop goes on behind it. -/
theorem placeKernelSection_next (hpos : 0 < (secs i).size) (hy : alignUp (x % 2 ^ 64) (secs i).alignment = y)
    (hstep : alignUp ((x + highOffset) % 2 ^ 64) (secs i).alignment = (y + highOffset) % 2 ^ 64) :
    placeKernelSection (highState secs x) i =
      highState (placeKernelSection (highState secs x) i).1 (y + (secs i).size) := by
  have hne : ¬ (secs i).size = 0 := by omega
  unfold placeKernelSection highState
  rw [if_neg hne, hy, hstep]
  refine Prod.ext rfl (Prod.ext rfl ?_)
  show ((y + highOffset) % 2 ^ 64 + (secs i).size) % 2 ^ 64 = (y + (secs i).size + highOffset) % 2 ^ 64
  omega

/-- The loop leaves the sections in step exactly when their sizes and alignments allow it. -/
theorem placeHigh_stepped (hnodup : l.Nodup) (secs : Sections) (x : Nat) :
    Stepped (l.foldl placeKernelSection (highState secs x)).1 x l ↔ InStep x (l.map (sizeAndAlign secs)) := by
  induction l generalizing secs x with
  | nil => exact ⟨fun _ => trivial, fun _ => ⟨fun _ hi => absurd hi not_mem_nil, List.Pairwise.nil⟩⟩
  | cons i l ih =>
    obtain ⟨hi, hl⟩ := nodup_cons.1 hnodup
    have hsize := @placeHigh_size (i :: l) (highState secs x) i
    rw [map_cons, foldl_cons] at *
    rcases Nat.eq_zero_or_pos (secs i).size with h0 | hpos
    · have hin : InStep x (sizeAndAlign secs i :: l.map (sizeAndAlign secs)) ↔ InStep x (l.map (sizeAndAlign secs)) := by
        rw [sizeAndAlign, InStep, if_pos h0]
      rw [hin, placeKernelSection_empty h0, ← ih hl secs x]
      rw [placeKernelSection_empty h0] at hsize
      exact stepped_cons_empty (hsize.trans h0)
    obtain ⟨hlma, haddr⟩ := @placeKernelSection_placed secs i x hpos
    rw [← @placeHigh_other l _ i hi] at hlma haddr
    generalize hy : alignUp (x % 2 ^ 64) (secs i).alignment = y at hlma
    have hin : InStep x (sizeAndAlign secs i :: l.map (sizeAndAlign secs)) ↔
        x ≤ y ∧ y + (secs i).size ≤ 2 ^ 64 ∧
          alignUp ((x + highOffset) % 2 ^ 64) (secs i).alignment = (y + highOffset) % 2 ^ 64 ∧
          InStep (y + (secs i).size) (l.map (sizeAndAlign secs)) := by
      rw [sizeAndAlign, InStep, if_neg (ne_of_gt hpos), hy]
    rw [hin, stepped_cons (by rw [hsize]; exact hpos), hlma, hsize, haddr]
    refine and_congr_right fun _ => and_congr_right fun _ => and_congr_right fun hstep => ?_
    have hmap : l.map (sizeAndAlign secs) =
        l.map (sizeAndAlign (placeKernelSection (highState secs x) i).1) := by
      refine map_congr_left fun k hk => ?_
      unfold sizeAndAlign
      have hki : k ≠ i := ne_of_mem_of_not_mem hk hi
      rw [placeKernelSection_other _ hki]
      rfl
    rw [hmap, placeKernelSection_next hpos hy hstep]
    exact ih hl _ _

theorem placeHigh_first (hnodup : l.Nodup) (hfirst : l.find? (fun i => 0 < (secs i).size) = some i) :
    ((l.foldl placeKernelSection (highState secs x)).1 i).lma = alignUp (x % 2 ^ 64) (secs i).alignment ∧
      ((l.foldl placeKernelSection (highState secs x)).1 i).addr =
        alignUp ((x + highOffset) % 2 ^ 64) (secs i).alignment := by
  induction l with
  | nil => cases hfirst
  | cons k l ih =>
    obtain ⟨hk, hl⟩ := nodup_cons.1 hnodup
    rw [foldl_cons]
    rcases Nat.eq_zero_or_pos (secs k).size with h0 | hpos
    · rw [find?_cons_of_neg (by simp [h0])] at hfirst
      rw [placeKernelSection_empty h0]
      exact ih hl hfirst
    rw [find?_cons_of_pos (by simpa using hpos)] at hfirst
    cases hfirst
    rw [placeHigh_other _ hk]
    exact placeKernelSection_placed hpos

/-- In a sorted list nothing that fits comes before the first that fits. -/
theorem exists_first {p : Nat → Bool} (hsorted : l.Pairwise (· < ·)) (hi : i ∈ l) (hp : p i = true) :
    ∃ k, l.find? p = some k ∧ k ≤ i := by
  induction l with
  | nil => cases hi
  | cons k l ih =>
    obtain ⟨hk, hl⟩ := pairwise_cons.1 hsorted
    cases hpk : p k with
    | true =>
      refine ⟨k, find?_cons_of_pos hpk, ?_⟩
      rcases mem_cons.1 hi with rfl | hi
      · exact le_refl i
      · exact le_of_lt (hk i hi)
    | false =>
      rw [find?_cons_of_neg (by simp [hpk])]
      rcases mem_cons.1 hi with rfl | hi
      · rw [hp] at hpk
        cases hpk
      · exact ih hl hi

/-- In a sorted list a relation that holds in the order of the list holds in the order of the numbers. -/
theorem rel_of_lt {R : Nat → Nat → Prop} {j : Nat} (hsorted : l.Pairwise (· < ·)) (hR : l.Pairwise R) (hi : i ∈ l)
    (hj : j ∈ l) (hij : i < j) : R i j := by
  induction l with
  | nil => cases hi
  | cons k l ih =>
    obtain ⟨hk, hl⟩ := pairwise_cons.1 hsorted
    obtain ⟨hRk, hRl⟩ := pairwise_cons.1 hR
    rcases mem_cons.1 hj with rfl | hjl
    · rcases mem_cons.1 hi with rfl | hil
      · exact absurd hij (lt_irrefl _)
      · exact absurd (hk i hil) (Nat.not_lt_of_lt hij)
    · rcases mem_cons.1 hi with rfl | hil
      · exact hRk j hjl
      · exact ih hl hRl hil hjl

/-- An alignment that keeps the first section in step does not wrap. -/
theorem highStart_le {align : Nat}
    (h : alignUp ((highStart + highOffset) % 2 ^ 64) align = (alignUp highStart align + highOffset) % 2 ^ 64) :
    highStart ≤ alignUp highStart align := by
  by_contra hlt
  have hpos : align ≠ 0 := by
    rintro rfl
    exact hlt (le_refl _)
  by_cases hroom : highStart + align ≤ 2 ^ 64
  · exact hlt (alignUp_bounds hroom).1
  -- both are below `2 ^ 64 - align`, which is far from the offset
  have hmask : ∀ v, alignUp v align ≤ 2 ^ 64 - 1 - (align - 1) := by
    intro v
    unfold alignUp
    rw [if_neg hpos]
    exact Nat.and_le_right
  have hvirt := hmask ((highStart + highOffset) % 2 ^ 64)
  unfold highStart highOffset KERNEL_VIRT_BASE KERNEL_PHYS_BASE KERNEL_BOOT_SIZE at *
  omega

end

/-! ## All sections -/

section

variable {secs : Sections} {i : Nat}

theorem placeLow_other {k phys : Nat} (hk : k ≠ i) : (placeLow secs i phys).1 k = secs k := by
  unfold placeLow
  dsimp only
  split
  · rfl
  · exact update_of_ne hk _ _

theorem placeLow_size (i k phys : Nat) : ((placeLow secs i phys).1 k).size = (secs k).size := by
  unfold placeLow
  dsimp only
  split
  · rfl
  dsimp only
  by_cases hk : k = i
  · subst hk
    rw [update_self]
  · rw [update_of_ne hk]

theorem placeLow_placed {phys : Nat} (hpos : 0 < (secs i).size) : ((placeLow secs i phys).1 i).lma = phys := by
  have hne : ¬ (secs i).size = 0 := by omega
  unfold placeLow
  rw [if_neg hne]
  dsimp only
  rw [update_self]

theorem placeLow_next {phys : Nat} (hphys : phys < 2 ^ 64) :
    (placeLow secs i phys).2 = (phys + (secs i).size) % 2 ^ 64 := by
  unfold placeLow
  dsimp only
  split
  · rename_i h0
    rw [h0, add_zero, Nat.mod_eq_of_lt hphys]
  · rfl

/-- The sections when the two of the lower half are placed. -/
def lowPlaced (secs : Sections) : Sections :=
  (placeLow (placeLow secs KOUT_TEXT_BOOT KERNEL_PHYS_BASE).1 KOUT_TABLES (tablesAt secs)).1

theorem assignAddressesKernel_eq (secs : Sections) : assignAddressesKernel secs =
    (highSections.foldl placeKernelSection (highState (lowPlaced secs) highStart)).1 := by
  have hboot := @placeLow_next secs KOUT_TEXT_BOOT KERNEL_PHYS_BASE (by decide)
  unfold assignAddressesKernel lowPlaced tablesAt bootEnd
  rw [← hboot]
  rfl

theorem assignAddressesKernel_size (secs : Sections) (i : Nat) :
    (assignAddressesKernel secs i).size = (secs i).size := by
  rw [assignAddressesKernel_eq, placeHigh_size]
  exact (placeLow_size _ _ _).trans (placeLow_size _ _ _)

theorem lowPlaced_high (hi : KOUT_TEXT ≤ i) : lowPlaced secs i = secs i := by
  unfold lowPlaced
  unfold KOUT_TEXT at hi
  rw [placeLow_other (by unfold KOUT_TABLES; omega), placeLow_other (by unfold KOUT_TEXT_BOOT; omega)]

theorem mem_highSections : i ∈ highSections ↔ KOUT_TEXT ≤ i ∧ i < KOUT_COUNT := by
  unfold highSections KOUT_TEXT KOUT_RODATA KOUT_DATA KOUT_BSS KOUT_COUNT
  simp only [mem_cons, not_mem_nil, or_false]
  omega

theorem boot_lma (hpos : 0 < (secs KOUT_TEXT_BOOT).size) :
    (assignAddressesKernel secs KOUT_TEXT_BOOT).lma = KERNEL_PHYS_BASE := by
  rw [assignAddressesKernel_eq, placeHigh_other _ (by decide)]
  unfold highState lowPlaced
  rw [placeLow_other (by decide), placeLow_placed hpos]

theorem tables_lma (hpos : 0 < (secs KOUT_TABLES).size) :
    (assignAddressesKernel secs KOUT_TABLES).lma = tablesAt secs := by
  rw [assignAddressesKernel_eq, placeHigh_other _ (by decide)]
  exact placeLow_placed (by rw [placeLow_size]; exact hpos)

theorem high_stepped (secs : Sections) : Stepped (assignAddressesKernel secs) highStart highSections ↔
    InStep highStart (highSections.map (sizeAndAlign secs)) := by
  have hmap : highSections.map (sizeAndAlign secs) = highSections.map (sizeAndAlign (lowPlaced secs)) := by
    refine map_congr_left fun i hi => ?_
    unfold sizeAndAlign
    rw [lowPlaced_high (mem_highSections.1 hi).1]
  rw [hmap, assignAddressesKernel_eq]
  exact placeHigh_stepped (by decide) _ _

/-- The first section of the high half that is not empty has its address, and comes before the others. -/
theorem exists_firstHigh (hi : i ∈ highSections) (hpos : 0 < (secs i).size) : ∃ k ∈ highSections, k ≤ i ∧
    0 < (secs k).size ∧ firstHigh secs = some (assignAddressesKernel secs k).lma ∧
    (assignAddressesKernel secs k).lma = alignUp highStart (secs k).alignment ∧
    (assignAddressesKernel secs k).addr = alignUp ((highStart + highOffset) % 2 ^ 64) (secs k).alignment := by
  have hsorted : highSections.Pairwise (· < ·) := by decide
  obtain ⟨k, hk, hle⟩ := exists_first hsorted hi (p := fun i => 0 < (secs i).size) (by simpa using hpos)
  have hmem := mem_of_find?_eq_some hk
  have hk0 : 0 < (secs k).size := by simpa using find?_some hk
  have hsame := @lowPlaced_high secs k (mem_highSections.1 hmem).1
  have hfind : highSections.find? (fun i => 0 < (lowPlaced secs i).size) = some k := by
    rw [← hk]
    refine find?_congr fun i hi => ?_
    rw [lowPlaced_high (mem_highSections.1 hi).1]
  obtain ⟨hlma, haddr⟩ := @placeHigh_first (lowPlaced secs) highSections k highStart (by decide) hfind
  rw [← assignAddressesKernel_eq, hsame] at hlma haddr
  refine ⟨k, hmem, hle, hk0, ?_, hlma, haddr⟩
  unfold firstHigh
  rw [hk, hlma]
  rfl

/-- Placement and symbols are right exactly when the sizes fit. -/
theorem placed_iff (secs : Sections) {global : SymbolTable} {out : Sections} (hsymbols : SymbolsRight out global)
    (hlayout : ∀ i, (out i).size = (secs i).size ∧ (out i).lma = (assignAddressesKernel secs i).lma ∧
      (out i).addr = (assignAddressesKernel secs i).addr) : KernelLaidOut out global ↔ KernelFits secs := by
  have hsize := fun i => (hlayout i).1
  have hlma := fun i => (hlayout i).2.1
  have haddr := fun i => (hlayout i).2.2
  have hassigned := assignAddressesKernel_size secs
  have hboot : 0 < (secs KOUT_TEXT_BOOT).size → (out KOUT_TEXT_BOOT).lma + (out KOUT_TEXT_BOOT).size = bootEnd secs := by
    intro hpos
    rw [hlma, hsize, boot_lma hpos]
    rfl
  have htables : 0 < (secs KOUT_TABLES).size → (out KOUT_TABLES).lma = tablesAt secs := by
    intro hpos
    rw [hlma, tables_lma hpos]
  have hbase : bootEnd secs = KERNEL_PHYS_BASE + (secs KOUT_TEXT_BOOT).size := rfl
  have hlow : ∀ i, 0 < i → i < KOUT_TEXT → i = KOUT_TEXT_BOOT ∨ i = KOUT_TABLES := by
    unfold KOUT_TEXT KOUT_TEXT_BOOT KOUT_TABLES
    omega
  constructor
  · rintro ⟨hfits, hordered, hoffset, -⟩
    simp only [hsize] at hfits hordered hoffset hboot
    refine ⟨?_, fun hpos => ⟨?_, ?_⟩, fun high hhigh => ?_, (high_stepped secs).1 ⟨fun i hi hpos => ?_, ?_⟩⟩
    · rcases Nat.eq_zero_or_pos (secs KOUT_TEXT_BOOT).size with h0 | hpos
      · rw [hbase, h0]
        decide
      · rw [← hboot hpos]
        exact hfits _ (by decide) (by decide) hpos
    · rcases Nat.eq_zero_or_pos (secs KOUT_TEXT_BOOT).size with h0 | hpos'
      · unfold tablesAt
        rw [hbase, h0]
        decide +kernel
      · rw [← hboot hpos', ← htables hpos]
        exact hordered _ _ (by decide) (by decide) (by decide) hpos' hpos
    · rw [← htables hpos]
      exact hfits _ (by decide) (by decide) hpos
    · obtain ⟨k, hk, -⟩ := Option.map_eq_some_iff.1 hhigh
      have hk0 : 0 < (secs k).size := by simpa using find?_some hk
      obtain ⟨j, hj, -, hj0, hfirst, -⟩ := exists_firstHigh (mem_of_find?_eq_some hk) hk0
      obtain ⟨hge, hlt⟩ := mem_highSections.1 hj
      unfold KOUT_TEXT at hge
      rw [hhigh] at hfirst
      obtain rfl := Option.some.inj hfirst
      rw [← hlma]
      constructor
      · intro hpos
        rw [← hboot hpos]
        exact hordered _ _ (by decide) (by unfold KOUT_TEXT_BOOT; omega) hlt hpos hj0
      · intro hpos
        rw [← htables hpos]
        exact hordered _ _ (by decide) (by unfold KOUT_TABLES; omega) hlt hpos hj0
    · rw [hassigned] at hpos ⊢
      obtain ⟨k, hk, hle, hk0, -, hkl, hka⟩ := exists_firstHigh hi hpos
      obtain ⟨hge, hlt⟩ := mem_highSections.1 hi
      obtain ⟨hge', hlt'⟩ := mem_highSections.1 hk
      have hstep := hoffset k hge' hlt' hk0
      rw [haddr, hlma, hka, hkl] at hstep
      have hfirst := highStart_le hstep
      rw [← hkl, ← hlma] at hfirst
      rw [← hlma, ← haddr]
      have h3 : 0 < KOUT_TEXT := by decide
      refine ⟨?_, hfits i (by omega) hlt hpos, hoffset i hge hlt hpos⟩
      rcases lt_or_eq_of_le hle with hki | rfl
      · have := hordered k i (by omega) hki hlt hk0 hpos
        omega
      · exact hfirst
    have hsorted : highSections.Pairwise (· < ·) := by decide
    refine hsorted.imp_of_mem fun {i j} hi hj hij hi0 hj0 => ?_
    obtain ⟨hge, hlt⟩ := mem_highSections.1 hi
    obtain ⟨-, hlt'⟩ := mem_highSections.1 hj
    rw [hassigned] at hi0 hj0 ⊢
    rw [← hlma, ← hlma]
    exact hordered i j (lt_of_lt_of_le (by decide) hge) hij hlt' hi0 hj0
  rintro ⟨hb, ht, hfirst, hhigh⟩
  obtain ⟨heach, hpairs⟩ := (high_stepped secs).2 hhigh
  simp only [hassigned, ← hlma, ← haddr] at heach hpairs
  have hin : ∀ i, KOUT_TEXT ≤ i → i < KOUT_COUNT → i ∈ highSections := fun i hge hlt => mem_highSections.2 ⟨hge, hlt⟩
  have hbehind : ∀ i j, i ∈ highSections → j ∈ highSections → i < j → 0 < (secs i).size → 0 < (secs j).size →
      (out i).lma + (secs i).size ≤ (out j).lma :=
    fun i j hi hj hij => rel_of_lt (by decide) hpairs hi hj hij
  -- what ends before the first section of the high half ends before all of them
  have habove : ∀ j, KOUT_TEXT ≤ j → j < KOUT_COUNT → 0 < (secs j).size →
      ∃ high, firstHigh secs = some high ∧ high ≤ (out j).lma := by
    intro j hge hlt hpos
    obtain ⟨k, hk, hle, hk0, hfirst, -⟩ := exists_firstHigh (hin j hge hlt) hpos
    refine ⟨_, hfirst, ?_⟩
    rw [← hlma]
    rcases lt_or_eq_of_le hle with hkj | rfl
    · exact Nat.le_trans (Nat.le_add_right _ _) (hbehind k j hk (hin j hge hlt) hkj hk0 hpos)
    · exact le_refl _
  refine ⟨fun i h0 hlt hpos => ?_, fun i j h0 hij hlt hi0 hj0 => ?_, fun i hge hlt hpos => ?_, hsymbols⟩
  · rw [hsize] at hpos
    rcases lt_or_ge i KOUT_TEXT with hlo | hge
    · rcases hlow i h0 hlo with rfl | rfl
      · rw [hboot hpos]
        exact hb
      · rw [htables hpos, hsize]
        exact (ht hpos).2
    · rw [hsize]
      exact (heach i (hin i hge hlt) hpos).2.1
  · rw [hsize] at hi0 hj0
    rcases lt_or_ge j KOUT_TEXT with hlo | hge
    · have hcases := hlow j (lt_trans h0 hij) hlo
      obtain ⟨rfl, rfl⟩ : i = KOUT_TEXT_BOOT ∧ j = KOUT_TABLES := by
        unfold KOUT_TEXT_BOOT KOUT_TABLES at *
        omega
      rw [hboot hi0, htables hj0]
      exact (ht hj0).1
    obtain ⟨high, hhigh, hle⟩ := habove j hge hlt hj0
    obtain ⟨hlow1, hlow2⟩ := hfirst high hhigh
    rcases lt_or_ge i KOUT_TEXT with hlo | hge'
    · rcases hlow i h0 hlo with rfl | rfl
      · rw [hboot hi0]
        exact le_trans (hlow1 hi0) hle
      · rw [htables hi0, hsize]
        exact le_trans (hlow2 hi0) hle
    · rw [hsize]
      exact hbehind i j (hin i hge' (lt_trans hij hlt)) (hin j hge hlt) hij hi0 hj0
  · rw [hsize] at hpos
    exact (heach i (hin i hge hlt) hpos).2.2

end

/-! ## The symbols of the linker -/

section

variable {secs : Sections} {global tab : SymbolTable} {name name' : Name} {value : Nat}

theorem setValue_lookup (name' : Name) : symbolLookup (setValue global name value) name' =
    if name' = name then (symbolLookup global name').map fun s => { s with value := value % 2 ^ 64 }
    else symbolLookup global name' := by
  unfold symbolLookup
  induction global with
  | nil => simp [setValue]
  | cons s global ih =>
    unfold setValue
    by_cases hs : s.name = name
    · rw [if_pos hs]
      by_cases hn : s.name = name'
      · rw [find?_cons_of_pos (by simpa using hn), find?_cons_of_pos (by simpa using hn),
          if_pos (hn.symm.trans hs)]
        rfl
      · rw [find?_cons_of_neg (by simpa using hn), find?_cons_of_neg (by simpa using hn),
          if_neg fun h => hn (hs.trans h.symm)]
    rw [if_neg hs]
    by_cases hn : s.name = name'
    · rw [find?_cons_of_pos (by simpa using hn), find?_cons_of_pos (by simpa using hn),
        if_neg fun h => hs (hn.trans h)]
    · rw [find?_cons_of_neg (by simpa using hn), find?_cons_of_neg (by simpa using hn)]
      exact ih

theorem setValues_other {l : List (Name × Nat)} (hname : name ∉ l.map Prod.fst) :
    symbolLookup (l.foldl (fun g s => setValue g s.1 s.2) global) name = symbolLookup global name := by
  induction l generalizing global with
  | nil => rfl
  | cons s l ih =>
    rw [map_cons, mem_cons, not_or] at hname
    rw [foldl_cons, ih hname.2, setValue_lookup, if_neg hname.1]

/-- Values stored one after the other into symbols of different names are all there. -/
theorem setValues_lookup {l : List (Name × Nat)} (hnodup : (l.map Prod.fst).Nodup) (hmem : (name, value) ∈ l)
    {s : Symbol} (hs : symbolLookup global name = some s) :
    symbolLookup (l.foldl (fun g s => setValue g s.1 s.2) global) name = some { s with value := value % 2 ^ 64 } := by
  induction l generalizing global s with
  | nil => cases hmem
  | cons p l ih =>
    obtain ⟨hp, hl⟩ := nodup_cons.1 hnodup
    rw [foldl_cons]
    rcases mem_cons.1 hmem with rfl | hmem
    · rw [setValues_other hp, setValue_lookup, if_pos rfl, hs]
      rfl
    · have hne : name ≠ p.1 := fun h => hp (h ▸ mem_map_of_mem hmem)
      refine ih hl hmem ?_
      rw [setValue_lookup, if_neg hne, hs]

/-- The entries of the placeholders stand in front of those of the objects. -/
theorem placeholder_lookup (hname : name ∈ kernelSymbols) : ∃ s, symbolLookup (addKernelSymbolPlaceholders tab) name = some s ∧
    s.shndx = shnAbs := by
  have hfold : ∀ (l : List Name) (tab : SymbolTable), (name ∈ l ∨ ∃ s, symbolLookup tab name = some s ∧ s.shndx = shnAbs) →
      ∃ s, symbolLookup (l.foldl (fun tab name => addLinkerSymbol tab name 0) tab) name = some s ∧ s.shndx = shnAbs := by
    intro l
    induction l with
    | nil => exact fun tab h => h.resolve_left not_mem_nil
    | cons n l ih =>
      intro tab h
      apply ih
      by_cases hn : n = name
      · refine Or.inr ⟨_, find?_cons_of_pos (by simpa using hn), rfl⟩
      rcases h with h | ⟨s, hs, habs⟩
      · exact Or.inl ((mem_cons.1 h).resolve_left (Ne.symm hn))
      refine Or.inr ⟨s, ?_, habs⟩
      unfold symbolLookup addLinkerSymbol
      rw [find?_cons_of_neg (by simpa using hn)]
      exact hs
  exact hfold kernelSymbols tab (Or.inl hname)

theorem updateSymbolValues_lookup {count : Nat} {s : Symbol} (hs : symbolLookup global name = some s)
    (habs : s.shndx = shnAbs) : symbolLookup (updateSymbolValues global secs count) name = some s := by
  have hname : ∀ s, (updateSymbol secs count s).name = s.name := by
    intro s
    unfold updateSymbol
    split
    · rfl
    · split <;> rfl
  unfold symbolLookup at hs ⊢
  rw [updateSymbolValues, find?_map]
  have hcomp : ((fun s : Symbol => s.name == name) ∘ updateSymbol secs count) = fun s => s.name == name := by
    funext s
    rw [comp_apply, hname]
  rw [hcomp, hs, Option.map_some]
  unfold updateSymbol
  rw [if_pos habs]

/-- The values that `define_kernel_symbols` stores. -/
def kernelValues (secs : Sections) : List Nat :=
  let bss := secs KOUT_BSS
  [KERNEL_PHYS_BASE, KERNEL_VIRT_BASE, bss.addr, bss.addr + bss.size,
    alignUp ((bss.addr + bss.size) % 2 ^ 64) 16 + KERNEL_STACK_SIZE]

theorem kernelSymbol_value {count k : Nat} (hk : (kernelValues secs)[k]? = some value) :
    kernelSymbol (updateSymbolValues (defineKernelSymbols (addKernelSymbolPlaceholders tab) secs) secs count) k =
      some (value % 2 ^ 64) := by
  have hlen : k < 5 := (List.getElem?_eq_some_iff.1 hk).1
  have hget : kernelSymbols[k]? = some (kernelSymbols.getD k []) := by
    rw [getD_eq_getElem?_getD, List.getElem?_eq_getElem (show k < kernelSymbols.length from hlen)]
    rfl
  have hmem : (kernelSymbols.getD k [], value) ∈ kernelSymbols.zip (kernelValues secs) := by
    refine mem_of_getElem? (i := k) ?_
    rw [List.getElem?_zip_eq_some]
    exact ⟨hget, hk⟩
  have hnames : (kernelSymbols.zip (kernelValues secs)).map Prod.fst = kernelSymbols := map_fst_zip (le_refl 5)
  have hnodup : kernelSymbols.Nodup := by decide +kernel
  obtain ⟨s, hs, habs⟩ := @placeholder_lookup tab (kernelSymbols.getD k []) (mem_of_getElem? hget)
  have hset := setValues_lookup (by rw [hnames]; exact hnodup) hmem hs
  change symbolLookup (defineKernelSymbols (addKernelSymbolPlaceholders tab) secs) _ = _ at hset
  unfold kernelSymbol
  rw [updateSymbolValues_lookup hset habs]
  rfl

theorem symbolsRight {out : Sections} {count : Nat} (haddr : (out KOUT_BSS).addr = (secs KOUT_BSS).addr)
    (hsize : (out KOUT_BSS).size = (secs KOUT_BSS).size) (h64 : (secs KOUT_BSS).addr < 2 ^ 64) :
    SymbolsRight out (updateSymbolValues (defineKernelSymbols (addKernelSymbolPlaceholders tab) secs) secs count) := by
  have hvalue : ∀ k value, (kernelValues secs)[k]? = some value → value < 2 ^ 64 → kernelSymbol
      (updateSymbolValues (defineKernelSymbols (addKernelSymbolPlaceholders tab) secs) secs count) k = some value := by
    intro k value hk hlt
    rw [kernelSymbol_value hk, Nat.mod_eq_of_lt hlt]
  rw [← haddr] at h64
  refine ⟨hvalue 0 _ rfl (by decide), hvalue 1 _ rfl (by decide), ?_, ?_, ?_⟩
  · exact hvalue 2 _ (by rw [haddr]; rfl) h64
  · rw [haddr, hsize]
    exact kernelSymbol_value rfl
  generalize hv : ((out KOUT_BSS).addr + (out KOUT_BSS).size) % 2 ^ 64 = v
  have hk : (kernelValues secs)[4]? = some (alignUp v 16 + KERNEL_STACK_SIZE) := by
    rw [← hv, haddr, hsize]
    rfl
  refine ⟨(v + 15) / 16 * 16, (v + 15) / 16 * 16 - v, by omega, by omega, Nat.dvd_mul_left _ _, ?_⟩
  rw [kernelSymbol_value hk, show alignUp _ 16 = _ from @alignUp_pow 4 (by decide) _]
  refine congrArg some ?_
  omega

end

/-! ## The claims of the layout -/

section

variable {junk : Nat → Nat → UInt8} {objects : List ObjectFile} {secs : Sections}

theorem mergeSections_addr (categorize : Name → Nat → Option Nat) (i : Nat) :
    (mergeSections junk categorize objects secs i).addr = (secs i).addr := by
  rw [mergeSections_eq]
  generalize inputs objects = l
  induction l generalizing secs with
  | nil => rfl
  | cons x l ih =>
    rw [foldl_cons, ih]
    rcases @mergeSection_cases junk categorize secs x with hskip | ⟨sh, name, c, -, -, hadd⟩
    · rw [hskip]
    rw [hadd]
    by_cases hi : i = c
    · subst hi
      rw [update_self]
      rfl
    · rw [update_of_ne hi]

theorem alignUp_lt {val : Nat} (h : val < 2 ^ 64) (align : Nat) : alignUp val align < 2 ^ 64 := by
  unfold alignUp
  split
  · exact h
  · exact lt_of_le_of_lt Nat.and_le_left (Nat.mod_lt _ (by decide))

theorem placeHigh_addr_lt {l : List Nat} (st : Sections × Nat × Nat) (hst : ∀ i, (st.1 i).addr < 2 ^ 64)
    (hvirt : st.2.2 < 2 ^ 64) (i : Nat) : ((l.foldl placeKernelSection st).1 i).addr < 2 ^ 64 := by
  induction l generalizing st with
  | nil => exact hst i
  | cons k l ih =>
    refine ih _ (fun j => ?_) ?_
    · unfold placeKernelSection
      dsimp only
      split
      · exact hst j
      dsimp only
      by_cases hj : j = k
      · subst hj
        rw [update_self]
        exact alignUp_lt hvirt _
      · rw [update_of_ne hj]
        exact hst j
    unfold placeKernelSection
    dsimp only
    split
    · exact hvirt
    · exact Nat.mod_lt _ (by decide)

theorem bss_addr_lt (hzero : ∀ i, (secs i).addr = 0) : (assignAddressesKernel secs KOUT_BSS).addr < 2 ^ 64 := by
  have hlow : ∀ (secs : Sections) k phys i, (∀ i, (secs i).addr < 2 ^ 64) → phys < 2 ^ 64 →
      ((placeLow secs k phys).1 i).addr < 2 ^ 64 := by
    intro secs k phys i hsecs hphys
    unfold placeLow
    dsimp only
    split
    · exact hsecs i
    dsimp only
    by_cases hi : i = k
    · subst hi
      rw [update_self]
      exact hphys
    · rw [update_of_ne hi]
      exact hsecs i
  have hstart : ∀ i, (secs i).addr < 2 ^ 64 := fun i => by rw [hzero]; decide
  have htables : tablesAt secs < 2 ^ 64 := alignUp_lt (Nat.mod_lt _ (by decide)) _
  rw [assignAddressesKernel_eq]
  refine placeHigh_addr_lt _ (fun i => ?_) (Nat.mod_lt _ (by decide)) _
  exact hlow _ _ _ i (fun i => hlow _ _ _ i hstart (by decide)) htables

/-- An object file with one instruction, `n` bytes of tables that are not initialised, and the symbol `_start`. -/
def tablesObject (n : Nat) : List UInt8 := objectWith nop [] nameTables shtNobits 3 n 4096

/-- The kernel made of one object file, with a check of the result. -/
def linkKernelOne (data : List UInt8) (good : ObjectFile → Sections → Bool) : Bool :=
  match elfReadMemory data data.length [0x6f] with
  | .error _ => false
  | .ok obj =>
    match collectDefinitions 0 [obj] [] with
    | .error _ => false
    | .ok (_, global) =>
      match linkKernel (fun _ _ => 0) [obj] (addKernelSymbolPlaceholders global) with
      | .error _ => false
      | .ok (secs, _) =>
        (checkUndefined [obj] (addKernelSymbolPlaceholders global) nameStart).isEmpty &&
          (writeBinary (fun _ _ => 0) secs KOUT_COUNT).isSome && good obj secs

theorem linkKernelOne_run {data : List UInt8} {good : ObjectFile → Sections → Bool} (h : linkKernelOne data good = true) :
    ∃ obj global secs global', elfReadMemory data data.length [0x6f] = .ok obj ∧
      collectDefinitions 0 [obj] [] = .ok ((), global) ∧
      checkUndefined [obj] (addKernelSymbolPlaceholders global) nameStart = [] ∧
      linkKernel (fun _ _ => 0) [obj] (addKernelSymbolPlaceholders global) = .ok (secs, global') ∧
      (writeBinary (fun _ _ => 0) secs KOUT_COUNT).isSome = true ∧ good obj secs = true := by
  unfold linkKernelOne at h
  split at h
  · cases h
  rename_i obj hobj
  split at h
  · cases h
  rename_i u global hglobal
  split at h
  · cases h
  rename_i secs global' hlink
  rw [Bool.and_eq_true, Bool.and_eq_true] at h
  obtain ⟨⟨hdefined, hwrite⟩, hgood⟩ := h
  exact ⟨obj, global, secs, global', hobj, hglobal, isEmpty_iff.1 hdefined, hlink, hwrite, hgood⟩

end

end Slopix.Ld
