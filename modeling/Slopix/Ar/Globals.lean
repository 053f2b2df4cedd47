import Mathlib.Data.List.GetD
import Slopix.Ar.Archive

/-!
# The global symbols of an object

`extract_symbols` walks the section headers by itself. On an object file it finds what the object that
`elf_read_memory` makes of the same bytes has as global symbols.
-/

namespace Slopix.Ar

open Lib Elf Libc Ld List

/-- The names of the global and the weak symbols that an object defines. -/
def globals (obj : ObjectFile) : List Name :=
  ((obj.symtab.getD []).drop 1).filterMap fun sym =>
    if (sym.bind = stbGlobal ∨ sym.bind = stbWeak) ∧ sym.stShndx ≠ shnUndef then
      obj.strtab.map fun t => cstrAt obj.data (t + sym.stName)
    else none

/-- Those of the object that a file holds. -/
def globalsOf (data : List UInt8) : List Name :=
  match elfReadMemory data data.length [] with
  | .error _ => []
  | .ok obj => globals obj

/-- The ELF header of a member. -/
def headerOf (data : List UInt8) : Elf64Ehdr := ehdrAt (fileBytesOf data) 0

/-- The section header with an index. -/
def sectionOf (data : List UInt8) (i : Nat) : Elf64Shdr :=
  shdrAt (fileBytesOf data) ((headerOf data).eShoff + shdrSize * i)

/-- The linker accepts the file; the section headers have the size that ELF64 gives them and are not at
offset 0, and the symbol table names its strings. -/
structure IsObject (data : List UInt8) : Prop where
  accepted : ∃ obj, elfReadMemory data data.length [] = .ok obj
  headers : (headerOf data).eShnum ≠ 0 →
    (headerOf data).eShoff ≠ 0 ∧ (headerOf data).eShentsize = shdrSize
  strings : ∀ i < (headerOf data).eShnum, (sectionOf data i).shType = shtSymtab →
    (sectionOf data i).shLink < (headerOf data).eShnum

section

variable {data : List UInt8} {obj : ObjectFile}

/-- The index of the symbol table, as `extract_symbols` looks for it. -/
def symtabIndex (data : List UInt8) : Option Nat :=
  (List.range (headerOf data).eShnum).find? fun i => (sectionOf data i).shType == shtSymtab

theorem findIdx?_range {α : Type} (n : Nat) (f : Nat → α) (p : α → Bool) :
    ((range n).map f).findIdx? p = (range n).find? fun i => p (f i) := by
  cases hfind : (range n).find? fun i => p (f i) with
  | none =>
    rw [findIdx?_eq_none_iff]
    intro x hx
    obtain ⟨i, hi, rfl⟩ := mem_map.1 hx
    simpa using find?_eq_none.1 hfind i hi
  | some i =>
    obtain ⟨hp, hi, hmin⟩ := find?_range_eq_some.1 hfind
    rw [findIdx?_eq_some_iff_getElem]
    refine ⟨by simpa using hi, by simpa using hp, fun j hj => ?_⟩
    simpa using hmin j hj

theorem accepted_header (h : elfReadMemory data data.length [] = .ok obj) :
    64 ≤ data.length ∧ (headerOf data).eIdent.take 4 = [0x7f, 0x45, 0x4c, 0x46] ∧
      (headerOf data).eIdent.getD 4 0 = 2 := by
  unfold elfReadMemory at h
  split at h
  · cases h
  rename_i hsize
  refine ⟨Nat.le_of_not_lt hsize, ?_⟩
  cases hcheck : elfCheckHeader (ehdrAt (fileBytesOf data) 0) [] with
  | error e =>
    rw [hcheck] at h
    cases h
  | ok u =>
    change elfCheckHeader (headerOf data) [] = .ok u at hcheck
    unfold elfCheckHeader at hcheck
    by_cases hmagic : (headerOf data).eIdent.take 4 ≠ [0x7f, 0x45, 0x4c, 0x46]
    · rw [if_pos hmagic] at hcheck
      cases hcheck
    rw [if_neg hmagic] at hcheck
    refine ⟨not_not.1 hmagic, ?_⟩
    by_contra hclass
    rw [if_pos hclass] at hcheck
    cases hcheck

theorem accepted_tables (h : elfReadMemory data data.length [] = .ok obj) :
    obj.data = data ∧ obj.symtab = (symtabIndex data).map (fun i => symtabOf data (sectionOf data i)) ∧
      ∀ i, symtabIndex data = some i → (sectionOf data i).shLink < (headerOf data).eShnum →
        obj.strtab = some (sectionOf data (sectionOf data i).shLink).shOffset := by
  unfold elfReadMemory at h
  split at h
  · cases h
  split at h
  · cases h
  unfold elfParseSections at h
  dsimp only at h
  split at h
  · cases h
  simp only [Except.ok.injEq] at h
  have hindex : ((range (headerOf data).eShnum).map (sectionOf data)).findIdx?
      (fun sh => sh.shType == shtSymtab) = symtabIndex data := findIdx?_range _ _ _
  have hget : ∀ i < (headerOf data).eShnum,
      ((range (headerOf data).eShnum).map (sectionOf data))[i]? = some (sectionOf data i) := by
    intro i hi
    simp [hi]
  have hbind : ((symtabIndex data).bind fun i =>
      ((range (headerOf data).eShnum).map (sectionOf data))[i]?) =
        (symtabIndex data).map (sectionOf data) := by
    cases hsym : symtabIndex data with
    | none => rfl
    | some i =>
      obtain ⟨-, hi, -⟩ := find?_range_eq_some.1 hsym
      exact hget i (mem_range.1 hi)
  have hsymSh : ((((range (headerOf data).eShnum).map (sectionOf data)).findIdx?
      (fun sh => sh.shType == shtSymtab)).bind fun i =>
        ((range (headerOf data).eShnum).map (sectionOf data))[i]?) =
          (symtabIndex data).map (sectionOf data) := by
    rw [hindex, hbind]
  refine ⟨by rw [← h], ?_, fun i hsym hlink => ?_⟩
  · rw [← h]
    exact (congrArg (Option.map (symtabOf data)) hsymSh).trans (Option.map_map ..)
  rw [← h]
  refine (congrArg (fun x : Option Elf64Shdr => x.bind fun sh =>
    ((range (headerOf data).eShnum).map (sectionOf data))[sh.shLink]?.map
      Elf64Shdr.shOffset) hsymSh).trans ?_
  rw [hsym, Option.map_some, Option.bind_some, hget _ hlink, Option.map_some]

/-- The magic number and the class, as `extract_symbols` reads them. -/
theorem ident_bytes (hlen : 64 ≤ data.length) (h : (headerOf data).eIdent.take 4 = [0x7f, 0x45, 0x4c, 0x46])
    (hclass : (headerOf data).eIdent.getD 4 0 = 2) :
    data.take 4 = [0x7f, 0x45, 0x4c, 0x46] ∧ data.getD 4 0 = 2 := by
  refine ⟨?_, by simpa [headerOf, ehdrAt, getBytes, fileBytesOf, range_succ] using hclass⟩
  rw [← h]
  apply ext_getElem
  · simp [headerOf, ehdrAt, getBytes]
    omega
  intro k hk hk'
  have hk4 : k < 4 := by
    rw [length_take] at hk
    omega
  have hbyte := getD_eq_getElem data 0 (show k < data.length by omega)
  simp [headerOf, ehdrAt, getBytes, fileBytesOf, getD_eq_getElem?_getD] at hbyte ⊢
  exact hbyte.symm

/-- On an object the names of the index are those of its global definitions. -/
theorem extractSymbols_eq (h : IsObject data) : extractSymbols data = globalsOf data := by
  obtain ⟨obj, hobj⟩ := h.accepted
  obtain ⟨hlen, hmagic, hclass⟩ := accepted_header hobj
  obtain ⟨hbytes, hsymtab, hstrtab⟩ := accepted_tables hobj
  obtain ⟨htake, hfour⟩ := ident_bytes hlen hmagic hclass
  have hglobals : globalsOf data = globals obj := by
    rw [globalsOf, hobj]
  have hshoff : getLe 8 (fileBytesOf data) 40 = (headerOf data).eShoff := rfl
  have hshentsize : getLe 2 (fileBytesOf data) 58 = (headerOf data).eShentsize := rfl
  have hshnum : getLe 2 (fileBytesOf data) 60 = (headerOf data).eShnum := rfl
  rw [hglobals, extractSymbols]
  rw [if_neg (by rw [htake]; simp; omega), if_neg (by rw [hfour]; simp), hshoff, hshentsize, hshnum]
  by_cases hzero : (headerOf data).eShnum = 0
  · have hnone : symtabIndex data = none := by
      rw [symtabIndex, hzero]
      rfl
    rw [if_pos (.inr hzero), globals, hsymtab, hnone]
    rfl
  obtain ⟨hoff, hsize⟩ := h.headers hzero
  have hfind : ((range (headerOf data).eShnum).find? fun i =>
      getLe 4 (fileBytesOf data) ((headerOf data).eShoff + i * shdrSize + 4) == shtSymtab) =
        symtabIndex data := by
    unfold symtabIndex sectionOf shdrAt
    congr 1
    funext i
    rw [mul_comm]
  rw [if_neg (by simp [hoff, hzero]), hsize, hfind]
  cases hsym : symtabIndex data with
  | none =>
    rw [globals, hsymtab, hsym]
    rfl
  | some i =>
    obtain ⟨htype, hi, -⟩ := find?_range_eq_some.1 hsym
    have hlink := h.strings i (mem_range.1 hi) (by simpa using htype)
    have hnum : (headerOf data).eShnum < 256 ^ 2 := getLe_lt _ _ _
    have hmod : (sectionOf data i).shLink * shdrSize % 2 ^ 32 = shdrSize * (sectionOf data i).shLink := by
      simp only [shdrSize]
      omega
    rw [globals, hsymtab, hsym, hstrtab i hsym hlink, hbytes]
    simp only [Option.map_some, Option.getD_some, symtabOf, ← map_drop, filterMap_map]
    rw [mul_comm i]
    refine filterMap_congr fun j _ => ?_
    change (if _ then some (cstrAt data (getLe 8 (fileBytesOf data)
      ((headerOf data).eShoff + (sectionOf data i).shLink * shdrSize % 2 ^ 32 + 24) + _)) else none) = _
    rw [hmod, mul_comm j]
    rfl

end

end Slopix.Ar
