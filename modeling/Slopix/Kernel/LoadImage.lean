import Slopix.Kernel.Process

/-!
# The image a program starts with

`elf_load_segments` on an address space as a table of pages: every page it asks for is new and zeroed,
what stands in the file is copied in, and a page that is mapped already makes the load fail. A segment
that does not wrap ends up with the bytes of the file up to `p_filesz` and zeros behind them.
-/

namespace Slopix.Kernel

open Lib List

/-- Page contents by the address of the page. -/
abbrev AddressSpace := Nat → Option Bytes

/-- The byte at an address below the stack's end. -/
def AddressSpace.byte (sp : AddressSpace) (va : Nat) : Option UInt8 :=
  if userStack ≤ va then none else (sp (va / 4096 * 4096)).map fun page => page (va % 4096)

/-- What a page of the segment holds: the bytes of the file in it, and zeros. -/
def Phdr.pageContents (h : Phdr) (file : Bytes) (pageVa : Nat) : Bytes :=
  match h.copyRange pageVa with
  | none => fun _ => 0
  | some (pageOff, fileOff, len) => putBytes (fun _ => 0) pageOff (getBytes file fileOff len)

/-- The pages of a segment, `n` from `va` on. -/
def imagePages (h : Phdr) (file : Bytes) : Nat → Nat → AddressSpace → Option AddressSpace
  | 0, _, sp => some sp
  | n + 1, va, sp =>
    match sp va with
    | some _ => none
    | none => imagePages h file n (va + 4096) (Function.update sp va (some (h.pageContents file va)))

/-- The segment put into the address space, page by page; `none` when a page is taken. -/
def imageSegment (file : Bytes) (sp : AddressSpace) (h : Phdr) : Option AddressSpace :=
  if h.type ≠ 1 then some sp
  else
    let vaStart := h.vaddr / 4096 * 4096
    imagePages h file ((h.vaEnd - vaStart) / 4096) vaStart sp

/-- `elf_load` into an empty address space: the entry point and the pages. -/
def elfImage (data : List UInt8) : Option (Nat × AddressSpace) :=
  let file := ofList data
  if data.length < 64 then none
  else if elfValidate file = false then none
  else
    (((List.range (getLe 2 file 56)).map fun j => getPhdr file (getLe 8 file 32 + 56 * j)).foldlM
      (imageSegment file) fun _ => none).map fun sp => (getLe 8 file 24, sp)

section

variable {h : Phdr} {file : Bytes} {sp : AddressSpace}

theorem imagePages_eq {n va : Nat} (hnew : ∀ j < n, sp (va + 4096 * j) = none) :
    imagePages h file n va sp = some fun q =>
      if va ≤ q ∧ q < va + 4096 * n ∧ (q - va) % 4096 = 0 then some (h.pageContents file q) else sp q := by
  induction n generalizing va sp with
  | zero =>
    rw [imagePages]
    congr 1
    funext q
    rw [if_neg (by omega)]
  | succ n ih =>
    have hhead : sp va = none := hnew 0 (by omega)
    rw [imagePages, hhead]
    dsimp only
    rw [ih]
    · congr 1
      funext q
      by_cases hq : q = va
      · subst hq
        rw [if_neg (by omega), if_pos (by omega), Function.update_self]
      · rw [Function.update_of_ne hq]
        exact if_congr (by omega) rfl rfl
    intro j hj
    rw [Function.update_of_ne (by omega)]
    have hnext := hnew (j + 1) (by omega)
    rw [show va + 4096 + 4096 * j = va + 4096 * (j + 1) by omega]
    exact hnext

/-- A segment that does not wrap, neither in memory nor in the file. -/
structure Phdr.Straight (h : Phdr) : Prop where
  filesz : h.filesz ≤ h.memsz
  memory : h.vaddr + h.memsz + 4095 < ulongMod
  file : h.offset + h.filesz < ulongMod

/-- A page of a segment holds the bytes of the file, and zeros outside the part that is in the file. -/
theorem Phdr.Straight.pageContents (hs : h.Straight) {va : Nat}
    (hva : va / 4096 * 4096 + 4096 < ulongMod) :
    h.pageContents file (va / 4096 * 4096) (va % 4096) =
      if h.vaddr ≤ va ∧ va < h.vaddr + h.filesz then file (h.offset + (va - h.vaddr)) else 0 := by
  obtain ⟨hfilesz, hmem, hfile⟩ := hs
  have hend : (h.vaddr + h.filesz) % ulongMod = h.vaddr + h.filesz := Nat.mod_eq_of_lt (by omega)
  unfold Phdr.pageContents Phdr.copyRange
  rw [hend, Nat.mod_eq_of_lt hva]
  generalize hstart : (if va / 4096 * 4096 < h.vaddr then h.vaddr else va / 4096 * 4096) = start
  generalize hstop : (if h.vaddr + h.filesz < va / 4096 * 4096 + 4096 then h.vaddr + h.filesz
    else va / 4096 * 4096 + 4096) = stop
  have hstart' : start = max h.vaddr (va / 4096 * 4096) := by
    rw [← hstart]
    split <;> omega
  have hstop' : stop = min (h.vaddr + h.filesz) (va / 4096 * 4096 + 4096) := by
    rw [← hstop]
    split <;> omega
  dsimp only
  rw [hstop]
  by_cases hcopy : start < stop
  · rw [if_pos hcopy]
    have hoff : (h.offset + (start - h.vaddr)) % ulongMod = h.offset + (start - h.vaddr) :=
      Nat.mod_eq_of_lt (by omega)
    simp only [putBytes, hoff, length_getBytes]
    by_cases hin : h.vaddr ≤ va ∧ va < h.vaddr + h.filesz
    · rw [if_pos (by omega), if_pos hin, getBytes, getD_eq_getElem?_getD, List.getElem?_map,
        List.getElem?_range (by omega)]
      simp only [Option.map_some, Option.getD_some]
      congr 1
      omega
    · rw [if_neg (by omega), if_neg hin]
  · rw [if_neg hcopy, if_neg (by omega)]

/-- The byte at an address of a segment. -/
def Phdr.byteAt (h : Phdr) (file : Bytes) (va : Nat) : UInt8 :=
  if h.vaddr ≤ va ∧ va < h.vaddr + h.filesz then file (h.offset + (va - h.vaddr)) else 0

/-- The pages of a segment. -/
def Phdr.covers (h : Phdr) (va : Nat) : Prop := h.vaddr / 4096 * 4096 ≤ va ∧ va < h.vaEnd

theorem Phdr.Straight.vaEnd_eq (hs : h.Straight) :
    h.vaEnd = (h.vaddr + h.memsz + 4095) / 4096 * 4096 := by
  have hmem := hs.memory
  unfold Phdr.vaEnd pageAlign
  rw [Nat.mod_eq_of_lt (a := h.vaddr + h.memsz) (by omega), Nat.mod_eq_of_lt hmem]

/-- A segment none of whose pages is mapped is loaded, and adds its pages. -/
theorem imageSegment_eq (hs : h.Straight) (htype : h.type = 1)
    (hnew : ∀ va, h.covers va → sp (va / 4096 * 4096) = none) :
    ∃ sp', imageSegment file sp h = some sp' ∧
      (∀ va, h.covers va → sp' (va / 4096 * 4096) = some (h.pageContents file (va / 4096 * 4096))) ∧
      ∀ va, ¬ h.covers va → sp' (va / 4096 * 4096) = sp (va / 4096 * 4096) := by
  have hend := hs.vaEnd_eq
  unfold imageSegment
  rw [if_neg (by omega)]
  rw [imagePages_eq]
  · refine ⟨_, rfl, fun va hva => ?_, fun va hva => ?_⟩
    · unfold Phdr.covers at hva
      rw [if_pos (by omega)]
    · unfold Phdr.covers at hva
      rw [if_neg (by omega)]
  intro j hj
  have hpage := hnew (h.vaddr / 4096 * 4096 + 4096 * j) ⟨by omega, by omega⟩
  rw [show (h.vaddr / 4096 * 4096 + 4096 * j) / 4096 * 4096 = h.vaddr / 4096 * 4096 + 4096 * j by
    omega] at hpage
  exact hpage

/-- Two segments have no page in common. -/
def Phdr.Apart (h h' : Phdr) : Prop := ∀ va, h.covers va → ¬ h'.covers va

/-- Segments without a page in common are all loaded, and nothing else is. -/
theorem imageSegments_eq {hs : List Phdr} (hstraight : ∀ h ∈ hs, h.Straight ∧ h.type = 1)
    (hapart : hs.Pairwise Phdr.Apart)
    (hnew : ∀ h ∈ hs, ∀ va, h.covers va → sp (va / 4096 * 4096) = none) :
    ∃ sp', hs.foldlM (imageSegment file) sp = some sp' ∧
      (∀ h ∈ hs, ∀ va, h.covers va →
        sp' (va / 4096 * 4096) = some (h.pageContents file (va / 4096 * 4096))) ∧
      ∀ va, (∀ h ∈ hs, ¬ h.covers va) → sp' (va / 4096 * 4096) = sp (va / 4096 * 4096) := by
  induction hs generalizing sp with
  | nil => exact ⟨sp, rfl, fun h hh => absurd hh not_mem_nil, fun _ _ => rfl⟩
  | cons h hs ih =>
    obtain ⟨hfirst, hrest⟩ := pairwise_cons.1 hapart
    obtain ⟨hs1, htype⟩ := hstraight h mem_cons_self
    obtain ⟨sp1, hload, hin, hout⟩ :=
      @imageSegment_eq h file sp hs1 htype (hnew h mem_cons_self)
    obtain ⟨sp', hloads, hins, houts⟩ := @ih sp1
      (fun h' hh' => hstraight h' (mem_cons_of_mem _ hh')) hrest
      (fun h' hh' va hva => by
        rw [hout va fun hc => hfirst h' hh' va hc hva]
        exact hnew h' (mem_cons_of_mem _ hh') va hva)
    refine ⟨sp', ?_, ?_, ?_⟩
    · rw [foldlM_cons, hload]
      exact hloads
    · intro h' hh' va hva
      rcases mem_cons.1 hh' with rfl | hh'
      · rw [houts va fun h'' hh'' hc => hfirst h'' hh'' va hva hc]
        exact hin va hva
      · exact hins h' hh' va hva
    · intro va hva
      rw [houts va fun h' hh' => hva h' (mem_cons_of_mem _ hh'), hout va (hva h mem_cons_self)]

/-- What a file whose segments have no page in common looks like in memory. -/
theorem elfImage_eq {data : List UInt8} {hs : List Phdr} (hlen : 64 ≤ data.length)
    (hvalid : elfValidate (ofList data) = true)
    (hphdrs : ((List.range (getLe 2 (ofList data) 56)).map fun j =>
      getPhdr (ofList data) (getLe 8 (ofList data) 32 + 56 * j)) = hs)
    (hstraight : ∀ h ∈ hs, h.Straight ∧ h.type = 1) (hapart : hs.Pairwise Phdr.Apart) :
    ∃ sp, elfImage data = some (getLe 8 (ofList data) 24, sp) ∧
      (∀ h ∈ hs, ∀ va < userStack, h.covers va → sp.byte va = some (h.byteAt (ofList data) va)) ∧
      ∀ va, (∀ h ∈ hs, ¬ h.covers va) → sp.byte va = none := by
  obtain ⟨sp, hload, hin, hout⟩ := @imageSegments_eq (ofList data) (fun _ => none) hs hstraight hapart
    (fun _ _ _ _ => rfl)
  refine ⟨sp, ?_, fun h hh va hva hc => ?_, fun va hc => ?_⟩
  · unfold elfImage
    rw [if_neg (by omega), hvalid, if_neg (by simp), hphdrs, hload]
    rfl
  · unfold AddressSpace.byte
    rw [if_neg (by omega), hin h hh va hc, Option.map_some,
      (hstraight h hh).1.pageContents (by unfold ulongMod userStack at *; omega)]
    rfl
  unfold AddressSpace.byte
  split
  · rfl
  · rw [hout va hc]
    rfl

end

end Slopix.Kernel
