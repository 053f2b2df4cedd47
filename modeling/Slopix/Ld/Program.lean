import Slopix.Kernel.LoadSegments
import Slopix.Ld.Image

/-!
# A linked program in a process

What `elf_load` leaves in the page tables of a new process when it loads an executable that `ld` wrote.
-/

namespace Slopix.Ld

open Lib Elf Kernel List Option

variable {junk : Nat → Nat → UInt8} {objects : List ObjectFile} {global global' : SymbolTable}
  {entryPoint : Name} {entry : Nat} {secs : Sections} {file : List UInt8} {k : Kern} {root : Nat}

/-- The segments end below the stack, so the page tables that `elf_load` makes hold the image. -/
theorem written_elfLoad (h : Placed secs) (hw : Written junk secs entry file)
    (hsep : Mm.Sep k.mm 4 root) (hempty : ∀ q < userStack, Mm.userEntry k.mm root q = none) :
    Holds (elfLoad ⟨ofList file, file.length⟩ root k)
      (fun r k' => ∀ e brk, r = some (e, brk) →
        ∃ sp, elfImage file = some (e, sp) ∧ ∀ va, userByte k'.mm root va = sp.byte va) fun _ => True := by
  have hphdrs := written_phdrs hw
  refine elfLoad_image hsep hempty fun j hj _ => ?_
  have hmem := mem_map_of_mem (f := fun j => getPhdr (ofList file) (getLe 8 (ofList file) 32 + 56 * j))
    (mem_range.2 hj)
  rw [hphdrs, mem_cons, mem_singleton] at hmem
  have htext := h.fits OUT_TEXT (by decide) (by decide)
  have hrodata := h.fits OUT_RODATA (by decide) (by decide)
  have horder := h.rodata
  rcases hmem with hcode | hdata
  · rw [hcode, (code_straight h).vaEnd_eq]
    have hsize := (segments_eq h).1
    have haddr : (segments secs).codeVaddr = (secs OUT_TEXT).addr := rfl
    unfold toPhdr codeHeader userStack
    dsimp only
    omega
  · rw [hdata, (data_straight h).vaEnd_eq]
    have hend := (segments_eq h).2.2.2
    unfold toPhdr dataHeader userStack
    dsimp only
    omega

/-- In a process that `elf_load` has made from the file, user code reads every piece at its address. -/
theorem linkUser_elfLoad
    (hglobal : ∀ s ∈ global, s.value < 2 ^ 64) (hroom : linkRoom objects + 2 ^ 20 ≤ 2 ^ 48)
    (hlink : linkUser junk objects global = .ok (secs, global'))
    (hwrite : writeExecutable junk secs global' entryPoint = some file)
    (hgaps : GapsUnseen junk objects secs) (hsep : Mm.Sep k.mm 4 root)
    (hempty : ∀ q < userStack, Mm.userEntry k.mm root q = none) :
    Holds (elfLoad ⟨ofList file, file.length⟩ root k)
      (fun r k' => ∀ e brk, r = some (e, brk) →
        (∃ start, symbolLookup global' entryPoint = some start ∧ e = start.value) ∧
          ∀ i, 0 < i → i < OUT_COUNT → ∀ p ∈ (secs i).pieces, ∀ j < p.size,
            userByte k'.mm root ((secs i).addr + p.outputOffset + j) = some (pieceByte objects (secs i) p j))
      fun _ => True := by
  obtain ⟨start, sp, hstart, himage, hpieces⟩ := (linkUser_loads hglobal hroom hlink hwrite).2 hgaps
  obtain ⟨hplaced, -⟩ := linkUser_layout hlink hroom
  obtain ⟨start', hstart', hwritten⟩ := writeExecutable_written hplaced hwrite
  obtain rfl : start = start' := Option.some.inj (hstart.symm.trans hstart')
  have hvalue := linkUser_value hglobal hlink hstart
  refine (written_elfLoad hplaced (hwritten hvalue) hsep hempty).imp fun r k' hload e brk hr => ?_
  obtain ⟨sp', himage', hbytes⟩ := hload e brk hr
  obtain ⟨rfl, rfl⟩ := Prod.mk.inj (Option.some.inj (himage.symm.trans himage'))
  refine ⟨⟨start, hstart, rfl⟩, fun i h0 hlt p hp j hj => ?_⟩
  rw [hbytes]
  exact hpieces i h0 hlt p hp j hj

end Slopix.Ld
