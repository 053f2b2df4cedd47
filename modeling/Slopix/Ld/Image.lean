import Slopix.Kernel.LoadImage
import Slopix.Ld.Layout

/-!
# What a linked program looks like in memory

The executable has one segment for `.text` and `.rodata` and one for `.data` and `.bss`. In the file
`.rodata` follows `.text` without a gap, and the data segment is as long as the two sections together,
whatever room alignment has left between them. So the image is right unless one of these gaps matters.
-/

namespace Slopix.Ld

open Lib Elf Kernel List Option

/-- Byte `j` of a section as it is written. -/
def content (junk : Nat → Nat → UInt8) (secs : Sections) (i j : Nat) : UInt8 :=
  (sectionContents (junk i) (secs i)).getD j 0

/-- The piece comes from a section without bytes in its file. -/
def isNobits (objects : List ObjectFile) (p : SectionPiece) : Bool :=
  (pieceHeader objects p).any fun sh => sh.shType == shtNobits

/-- Byte `k` of a piece: what the linker has in its buffer, or zero where there are no bytes. -/
def pieceByte (objects : List ObjectFile) (sec : OutputSection) (p : SectionPiece) (k : Nat) : UInt8 :=
  if isNobits objects p then 0 else sec.data.getD (p.outputOffset + k) 0

/-- The program is loaded with every byte of every piece at its address, and starts at the entry
symbol. -/
def LoadsRight (objects : List ObjectFile) (secs : Sections) (global : SymbolTable) (entryPoint : Name)
    (file : List UInt8) : Prop :=
  ∃ start sp, symbolLookup global entryPoint = some start ∧ elfImage file = some (start.value, sp) ∧
    ∀ i, 0 < i → i < OUT_COUNT → ∀ p ∈ (secs i).pieces, ∀ k < p.size,
      sp.byte ((secs i).addr + p.outputOffset + k) = some (pieceByte objects (secs i) p k)

/-- The end of the last page of code. -/
def codeEnd (secs : Sections) : Nat :=
  ((secs OUT_TEXT).addr + (secs OUT_TEXT).size + (secs OUT_RODATA).size + 4095) / 4096 * 4096

/-- The end of the last page of data. -/
def dataEnd (secs : Sections) : Nat :=
  ((segments secs).dataVaddr + (secs OUT_DATA).size + (secs OUT_BSS).size + 4095) / 4096 * 4096

/-- The room that alignment leaves between `.text` and `.rodata`. -/
def rodataGap (secs : Sections) : Nat :=
  (secs OUT_RODATA).addr - ((secs OUT_TEXT).addr + (secs OUT_TEXT).size)

/-- No gap between two sections is seen in memory. -/
structure GapsUnseen (junk : Nat → Nat → UInt8) (objects : List ObjectFile) (secs : Sections) : Prop where
  /-- What the buffers hold for pieces without bytes is zero. -/
  zeros : ∀ i, i = OUT_TEXT ∨ i = OUT_DATA → ∀ p ∈ (secs i).pieces, isNobits objects p = true →
    ∀ k < p.size, content junk secs i (p.outputOffset + k) = 0
  /-- `.rodata` follows `.text` directly, or reads the same when shifted by the gap. -/
  rodata : ∀ p ∈ (secs OUT_RODATA).pieces, ∀ k < p.size,
    (secs OUT_RODATA).addr + p.outputOffset + k < codeEnd secs ∧
      content junk secs OUT_RODATA (rodataGap secs + p.outputOffset + k) =
        pieceByte objects (secs OUT_RODATA) p k
  /-- `.bss` ends in the pages of the data segment, and has no bytes of its own. -/
  bss : ∀ p ∈ (secs OUT_BSS).pieces, ∀ k < p.size,
    (secs OUT_BSS).addr + p.outputOffset + k < dataEnd secs ∧ pieceByte objects (secs OUT_BSS) p k = 0

/-! ## The file -/

section

variable {junk : Nat → Nat → UInt8} {objects : List ObjectFile} {global : SymbolTable}
  {entryPoint : Name} {secs : Sections} {file : List UInt8}

theorem length_sectionContents {junk : Nat → UInt8} {sec : OutputSection} :
    (sectionContents junk sec).length = sec.size := by
  unfold sectionContents
  simp only [length_append, length_take, length_map, length_range']
  omega

theorem writeSection_eq {junk : Nat → UInt8} {sec : OutputSection} {l : List UInt8}
    (h : writeSection junk sec = some l) : l = sectionContents junk sec := by
  unfold writeSection at h
  split at h
  · rename_i h0
    cases h
    exact (eq_nil_of_length_eq_zero (length_sectionContents.trans h0)).symm
  split at h
  · cases h
  · cases h
    rfl

/-- The bytes of a part in the file. -/
theorem StandsAt.getD {file piece : List UInt8} {off j : Nat} (h : StandsAt file off piece)
    (hj : j < piece.length) : file.getD (off + j) 0 = piece.getD j 0 := by
  obtain ⟨pre, post, rfl, rfl⟩ := h
  rw [getD_append_right _ _ _ _ (Nat.le_add_right _ _), Nat.add_sub_cancel_left, getD_append _ _ _ _ hj]

/-- Where everything stands in an executable. -/
structure Written (junk : Nat → Nat → UInt8) (secs : Sections) (entry : Nat) (file : List UInt8) : Prop where
  length : 64 ≤ file.length
  ehdr : ehdrAt (fileBytesOf file) 0 = execHeader entry
  code : phdrAt (fileBytesOf file) 64 = codeHeader (segments secs)
  data : phdrAt (fileBytesOf file) 120 = dataHeader (segments secs)
  text : ∀ j < (secs OUT_TEXT).size, fileBytesOf file (4096 + j) = content junk secs OUT_TEXT j
  rodata : ∀ j < (secs OUT_RODATA).size,
    fileBytesOf file (4096 + (secs OUT_TEXT).size + j) = content junk secs OUT_RODATA j
  dataBytes : ∀ j < (secs OUT_DATA).size,
    fileBytesOf file ((segments secs).dataFileOffset + j) = content junk secs OUT_DATA j

theorem segments_eq (h : Placed secs) :
    (segments secs).codeSize = (secs OUT_TEXT).size + (secs OUT_RODATA).size ∧
      (segments secs).dataFileOffset =
        (4096 + ((secs OUT_TEXT).size + (secs OUT_RODATA).size) + 4095) / 4096 * 4096 ∧
      (segments secs).dataMemsz = (secs OUT_DATA).size + (secs OUT_BSS).size ∧
      (segments secs).dataVaddr + (segments secs).dataMemsz + 2 ^ 16 ≤ 2 ^ 48 := by
  have htext := h.fits OUT_TEXT (by decide) (by decide)
  have hrodata := h.fits OUT_RODATA (by decide) (by decide)
  have hdata := h.fits OUT_DATA (by decide) (by decide)
  have hbss := h.fits OUT_BSS (by decide) (by decide)
  have horder := h.bss
  have hcode : ((secs OUT_TEXT).size + (secs OUT_RODATA).size) % 2 ^ 64 =
      (secs OUT_TEXT).size + (secs OUT_RODATA).size := Nat.mod_eq_of_lt (by omega)
  have hmem : ((secs OUT_DATA).size + (secs OUT_BSS).size) % 2 ^ 64 =
      (secs OUT_DATA).size + (secs OUT_BSS).size := Nat.mod_eq_of_lt (by omega)
  refine ⟨hcode, ?_, hmem, ?_⟩
  · unfold segments
    dsimp only
    rw [hcode, pageUp_eq, Nat.mod_eq_of_lt] <;> unfold PAGE_SIZE <;> omega
  · unfold segments
    dsimp only
    split <;> omega

/-- The file has the header, the two segments and their bytes. -/
theorem writeExecutable_written (hplaced : Placed secs)
    (h : writeExecutable junk secs global entryPoint = some file) :
    ∃ start, symbolLookup global entryPoint = some start ∧
      (start.value < 2 ^ 64 → Written junk secs start.value file) := by
  unfold writeExecutable at h
  split at h
  · cases h
  rename_i start hstart
  split at h
  · rename_i text rodata data htext hrodata hdata
    have h := some.inj h
    refine ⟨start, hstart, fun hvalue => ?_⟩
    obtain ⟨hcode, hoffset, hmemsz, hvaddr⟩ := segments_eq hplaced
    have hltext := congrArg length (writeSection_eq htext)
    have hlrodata := congrArg length (writeSection_eq hrodata)
    have hldata := congrArg length (writeSection_eq hdata)
    rw [length_sectionContents] at hltext hlrodata hldata
    have hfitsText := hplaced.fits OUT_TEXT (by decide) (by decide)
    have hfitsRodata := hplaced.fits OUT_RODATA (by decide) (by decide)
    -- the parts of the file from front to back
    have r0 : Remains file 0 ((execHeader start.value).encode ++ ((codeHeader (segments secs)).encode ++
        ((dataHeader (segments secs)).encode ++ (replicate (PAGE_SIZE - (ehdrSize + 2 * phdrSize)) 0 ++
          (text ++ (rodata ++ (replicate ((segments secs).dataFileOffset -
            (PAGE_SIZE + (segments secs).codeSize)) 0 ++ data))))))) := by
      rw [← h]
      simp only [append_assoc]
      exact Remains.start _
    have r1 := r0.skip 64 (by rw [length_ehdr]; rfl)
    have r2 := r1.skip 120 (by rw [length_phdr]; rfl)
    have r3 := r2.skip 176 (by rw [length_phdr]; rfl)
    have r4 := r3.skip 4096 (by rw [length_replicate]; rfl)
    have r5 := r4.skip (4096 + (secs OUT_TEXT).size) (by rw [hltext])
    have r6 := r5.skip (4096 + (secs OUT_TEXT).size + (secs OUT_RODATA).size) (by rw [hlrodata])
    have r7 := r6.skip (segments secs).dataFileOffset (by
      rw [length_replicate, hcode, hoffset]
      unfold PAGE_SIZE
      omega)
    have hcodeFits : Fits (codeHeader (segments secs)).fields := by
      have haddr : (segments secs).codeVaddr = (secs OUT_TEXT).addr := rfl
      unfold Fits Elf64Phdr.fields codeHeader ptLoad PAGE_SIZE
      simp only [forall_mem_cons, not_mem_nil, IsEmpty.forall_iff, implies_true, and_true]
      refine ⟨?_, ?_, ?_, ?_, ?_, ?_, ?_, ?_⟩ <;> norm_num <;> omega
    have hdataFits : Fits (dataHeader (segments secs)).fields := by
      have hsz : (segments secs).dataFilesz = (secs OUT_DATA).size := rfl
      unfold Fits Elf64Phdr.fields dataHeader ptLoad PAGE_SIZE
      simp only [forall_mem_cons, not_mem_nil, IsEmpty.forall_iff, implies_true, and_true]
      refine ⟨?_, ?_, ?_, ?_, ?_, ?_, ?_, ?_⟩ <;> norm_num <;> omega
    have hehdrFits : Fits (execHeader start.value).fields := by
      unfold Fits Elf64Ehdr.fields execHeader etExec emAarch64 ehdrSize phdrSize
      norm_num
      exact hvalue
    refine ⟨?_, ?_, ?_, ?_, fun j hj => ?_, fun j hj => ?_, fun j hj => ?_⟩
    · obtain ⟨pre, hfile, hpre⟩ := r1
      rw [hfile, length_append]
      omega
    · exact r0.part.record fun pre post => ehdrAt_encode pre post rfl hehdrFits
    · exact r1.part.record fun pre post => phdrAt_encode pre post hcodeFits
    · exact r2.part.record fun pre post => phdrAt_encode pre post hdataFits
    · rw [← hltext] at hj
      have hbyte := StandsAt.getD r4.part hj
      rw [writeSection_eq htext] at hbyte
      exact hbyte
    · rw [← hlrodata] at hj
      have hbyte := StandsAt.getD r5.part hj
      rw [writeSection_eq hrodata] at hbyte
      exact hbyte
    rw [← hldata] at hj
    have hbyte := StandsAt.getD r7.last hj
    rw [writeSection_eq hdata] at hbyte
    exact hbyte
  · cases h

end

/-! ## The image -/

/-- A program header as the kernel reads it. -/
def toPhdr (h : Elf64Phdr) : Phdr := ⟨h.pType, h.pFlags, h.pOffset, h.pVaddr, h.pFilesz, h.pMemsz⟩

/-- The memory of a loaded program: code, data, and nothing else. -/
structure Loaded (secs : Sections) (file : List UInt8) (sp : AddressSpace) : Prop where
  code : ∀ va < userStack, (secs OUT_TEXT).addr / 4096 * 4096 ≤ va → va < codeEnd secs →
    sp.byte va = some ((toPhdr (codeHeader (segments secs))).byteAt (fileBytesOf file) va)
  data : ∀ va < userStack, (segments secs).dataVaddr / 4096 * 4096 ≤ va → va < dataEnd secs →
    sp.byte va = some ((toPhdr (dataHeader (segments secs))).byteAt (fileBytesOf file) va)
  rest : ∀ va, codeEnd secs ≤ va →
    va < (segments secs).dataVaddr / 4096 * 4096 ∨ dataEnd secs ≤ va → sp.byte va = none

section

variable {sp : AddressSpace} {junk : Nat → Nat → UInt8} {objects : List ObjectFile} {entry : Nat} {secs : Sections}
  {file : List UInt8}

theorem elfValidate_ident {b : Bytes} (hident : (ehdrAt b 0).eIdent = elfIdent)
    (hmachine : (ehdrAt b 0).eMachine = emAarch64) (htype : (ehdrAt b 0).eType = etExec) :
    elfValidate b = true := by
  have hbytes : [b 0, b 1, b 2, b 3] = [0x7f, 0x45, 0x4c, 0x46] := congrArg (take 4) hident
  simp only [cons.injEq, and_true] at hbytes
  obtain ⟨h0, h1, h2, h3⟩ := hbytes
  have hmagic : getLe 4 b 0 = 0x464C457F := by
    simp only [getLe, zero_add, h0, h1, h2, h3]
    decide
  have hmachine' : getLe 2 b 18 = 183 := hmachine
  have htype' : getLe 2 b 16 = 2 := htype
  unfold elfValidate
  rw [hmagic, hmachine', htype']
  rfl

theorem code_straight (h : Placed secs) : (toPhdr (codeHeader (segments secs))).Straight := by
  obtain ⟨hcode, -, -, -⟩ := segments_eq h
  have htext := h.fits OUT_TEXT (by decide) (by decide)
  have hrodata := h.fits OUT_RODATA (by decide) (by decide)
  have haddr : (segments secs).codeVaddr = (secs OUT_TEXT).addr := rfl
  unfold toPhdr codeHeader
  exact ⟨le_refl _, by unfold ulongMod; dsimp only; omega,
    by unfold ulongMod PAGE_SIZE; dsimp only; omega⟩

theorem data_straight (h : Placed secs) : (toPhdr (dataHeader (segments secs))).Straight := by
  obtain ⟨-, hoffset, hmem, hvaddr⟩ := segments_eq h
  have htext := h.fits OUT_TEXT (by decide) (by decide)
  have hrodata := h.fits OUT_RODATA (by decide) (by decide)
  have hsz : (segments secs).dataFilesz = (secs OUT_DATA).size := rfl
  unfold toPhdr dataHeader
  exact ⟨by dsimp only; omega, by unfold ulongMod; dsimp only; omega,
    by unfold ulongMod; dsimp only; omega⟩

theorem code_covers (h : Placed secs) (va : Nat) :
    (toPhdr (codeHeader (segments secs))).covers va ↔
      (secs OUT_TEXT).addr / 4096 * 4096 ≤ va ∧ va < codeEnd secs := by
  have hcode := (segments_eq h).1
  unfold Phdr.covers
  rw [(code_straight h).vaEnd_eq]
  unfold toPhdr codeHeader codeEnd
  rw [hcode, ← add_assoc]
  rfl

theorem data_covers (h : Placed secs) (va : Nat) :
    (toPhdr (dataHeader (segments secs))).covers va ↔
      (segments secs).dataVaddr / 4096 * 4096 ≤ va ∧ va < dataEnd secs := by
  have hmem := (segments_eq h).2.2.1
  unfold Phdr.covers
  rw [(data_straight h).vaEnd_eq]
  unfold toPhdr dataHeader dataEnd
  rw [hmem, ← add_assoc]

theorem codeEnd_le (h : Placed secs) (hmem : 0 < (secs OUT_DATA).size + (secs OUT_BSS).size) :
    codeEnd secs ≤ (segments secs).dataVaddr / 4096 * 4096 := by
  obtain ⟨q, htext, hrodata, hdata, hbss⟩ := h.page
  have horder := h.rodata
  unfold codeEnd segments
  dsimp only
  split <;> omega

theorem segments_apart (h : Placed secs) :
    (toPhdr (codeHeader (segments secs))).Apart (toPhdr (dataHeader (segments secs))) := by
  intro va hcode hdata
  rw [code_covers h] at hcode
  rw [data_covers h] at hdata
  rcases Nat.eq_zero_or_pos ((secs OUT_DATA).size + (secs OUT_BSS).size) with h0 | hmem
  · -- no data segment to speak of
    have hvaddr : (segments secs).dataVaddr = 0 := by
      unfold segments
      rw [if_neg (by omega)]
      exact h.empty OUT_DATA (by omega)
    unfold dataEnd at hdata
    omega
  · have hle := codeEnd_le h hmem
    omega

theorem written_phdrs (hw : Written junk secs entry file) :
    ((range (getLe 2 (ofList file) 56)).map fun j =>
      getPhdr (ofList file) (getLe 8 (ofList file) 32 + 56 * j)) =
        [toPhdr (codeHeader (segments secs)), toPhdr (dataHeader (segments secs))] := by
  obtain ⟨-, hehdr, hcode, hdata, -, -, -⟩ := hw
  have hphnum := congrArg Elf64Ehdr.ePhnum hehdr
  have hphnum : getLe 2 (ofList file) 56 = 2 := hphnum
  have hphoff := congrArg Elf64Ehdr.ePhoff hehdr
  have hphoff : getLe 8 (ofList file) 32 = 64 := hphoff
  rw [hphnum, hphoff, ← hcode, ← hdata]
  rfl

theorem written_image (h : Placed secs) (hw : Written junk secs entry file) :
    ∃ sp, elfImage file = some (entry, sp) ∧ Loaded secs file sp := by
  have hphdrs := written_phdrs hw
  obtain ⟨hlength, hehdr, hcode, hdata, -, -, -⟩ := hw
  have hident := congrArg Elf64Ehdr.eIdent hehdr
  have hmachine := congrArg Elf64Ehdr.eMachine hehdr
  have htype := congrArg Elf64Ehdr.eType hehdr
  have hentry := congrArg Elf64Ehdr.eEntry hehdr
  have hentry : getLe 8 (ofList file) 24 = entry := hentry
  obtain ⟨sp, himage, hbytes, hnone⟩ := elfImage_eq hlength (elfValidate_ident hident hmachine htype) hphdrs
    (by
      simp only [forall_mem_cons, not_mem_nil, IsEmpty.forall_iff, implies_true, and_true]
      exact ⟨⟨code_straight h, rfl⟩, data_straight h, rfl⟩)
    (by simpa using segments_apart h)
  rw [hentry] at himage
  refine ⟨sp, himage, fun va hva hlo hhi => ?_, fun va hva hlo hhi => ?_, fun va hlo hout => hnone va ?_⟩
  · exact hbytes _ mem_cons_self va hva ((code_covers h va).2 ⟨hlo, hhi⟩)
  · exact hbytes _ (mem_cons_of_mem _ mem_cons_self) va hva ((data_covers h va).2 ⟨hlo, hhi⟩)
  · simp only [forall_mem_cons, not_mem_nil, IsEmpty.forall_iff, implies_true, and_true]
    rw [code_covers h, data_covers h]
    omega

theorem Loaded.text_byte (hl : Loaded secs file sp) (h : Placed secs) (hw : Written junk secs entry file)
    {j : Nat} (hj : j < (secs OUT_TEXT).size) :
    sp.byte ((secs OUT_TEXT).addr + j) = some (content junk secs OUT_TEXT j) := by
  have hfits := h.fits OUT_TEXT (by decide) (by decide)
  rw [hl.code _ (by unfold userStack; omega) (by omega) (by unfold codeEnd; omega), ← hw.text j hj]
  unfold Phdr.byteAt toPhdr codeHeader PAGE_SIZE
  rw [(segments_eq h).1, if_pos]
  · congr 2
    exact congrArg (4096 + ·) (Nat.add_sub_cancel_left _ _)
  constructor
  · exact Nat.le_add_right _ _
  · unfold segments
    dsimp only
    omega

/-- `.rodata` is shifted by the gap in front of it, and what is behind the last page is lost. -/
theorem Loaded.rodata_byte (hl : Loaded secs file sp) (h : Placed secs)
    (hw : Written junk secs entry file) {j : Nat} (hj : j < (secs OUT_RODATA).size) :
    sp.byte ((secs OUT_RODATA).addr + j) =
      if (secs OUT_RODATA).addr + j < codeEnd secs then some (content junk secs OUT_RODATA (rodataGap secs + j))
      else none := by
  have hfits := h.fits OUT_RODATA (by decide) (by decide)
  obtain ⟨hbase, horder⟩ := h.rodata (by omega)
  have hgap : (secs OUT_RODATA).addr = (secs OUT_TEXT).addr + (secs OUT_TEXT).size + rodataGap secs := by
    unfold rodataGap
    omega
  split
  · rename_i hlt
    rw [hl.code _ (by unfold userStack; omega) (by omega) hlt]
    congr 1
    unfold Phdr.byteAt toPhdr codeHeader PAGE_SIZE
    dsimp only
    have hvaddr : (segments secs).codeVaddr = (secs OUT_TEXT).addr := rfl
    rw [(segments_eq h).1, hvaddr]
    by_cases hin : rodataGap secs + j < (secs OUT_RODATA).size
    · rw [if_pos (by omega), ← hw.rodata _ hin]
      congr 1
      omega
    rw [if_neg (by omega)]
    unfold content
    rw [getD_eq_default]
    rw [length_sectionContents]
    omega
  obtain ⟨q, htext, hrodata, hdata, hbss⟩ := h.page
  refine hl.rest ((secs OUT_RODATA).addr + j) (by omega) ?_
  rcases Nat.eq_zero_or_pos ((secs OUT_DATA).size + (secs OUT_BSS).size) with h0 | hmem
  · right
    have hvaddr : (segments secs).dataVaddr = 0 := by
      unfold segments
      rw [if_neg (by omega)]
      exact h.empty OUT_DATA (by omega)
    unfold dataEnd
    omega
  left
  have hvaddr : 4096 * q ≤ (segments secs).dataVaddr := by
    unfold segments
    dsimp only
    split <;> omega
  omega

theorem Loaded.data_byte (hl : Loaded secs file sp) (h : Placed secs) (hw : Written junk secs entry file)
    {j : Nat} (hj : j < (secs OUT_DATA).size) :
    sp.byte ((secs OUT_DATA).addr + j) = some (content junk secs OUT_DATA j) := by
  have hfits := h.fits OUT_DATA (by decide) (by decide)
  have hvaddr : (segments secs).dataVaddr = (secs OUT_DATA).addr := by
    unfold segments
    rw [if_neg (by omega)]
  have hsz : (segments secs).dataFilesz = (secs OUT_DATA).size := rfl
  rw [hl.data _ (by unfold userStack; omega) (by omega) (by unfold dataEnd; omega), ← hw.dataBytes j hj]
  unfold Phdr.byteAt toPhdr dataHeader
  dsimp only
  rw [hvaddr, hsz, if_pos (by omega), Nat.add_sub_cancel_left]

/-- `.bss` is zero up to the end of the last page of the data segment. -/
theorem Loaded.bss_byte (hl : Loaded secs file sp) (h : Placed secs)
    {j : Nat} (hj : j < (secs OUT_BSS).size) :
    sp.byte ((secs OUT_BSS).addr + j) =
      if (secs OUT_BSS).addr + j < dataEnd secs then some 0 else none := by
  have hfits := h.fits OUT_BSS (by decide) (by decide)
  have horder := h.bss (by omega)
  have hvaddr : (segments secs).dataVaddr + (secs OUT_DATA).size ≤ (secs OUT_BSS).addr := by
    unfold segments
    dsimp only
    split <;> omega
  have hsz : (segments secs).dataFilesz = (secs OUT_DATA).size := rfl
  split
  · rename_i hlt
    rw [hl.data _ (by unfold userStack; omega) (by omega) hlt]
    unfold Phdr.byteAt toPhdr dataHeader
    dsimp only
    rw [hsz, if_neg (by omega)]
  · rename_i hge
    have hle := codeEnd_le h (by omega)
    exact hl.rest ((secs OUT_BSS).addr + j) (by omega) (by omega)

theorem content_eq {i j : Nat} (hlaid : Laid objects (secs i)) (hj : j < (secs i).data.length) :
    content junk secs i j = (secs i).data.getD j 0 := by
  have hbuffer := hlaid.buffer
  unfold content sectionContents
  rw [getD_append _ _ _ _ (by rw [length_take]; omega), take_of_length_le hbuffer]

/-- What is written of a piece with bytes is its bytes; of one without bytes, whatever is there. -/
theorem content_piece {i : Nat} {p : SectionPiece} {k : Nat} (hlaid : Laid objects (secs i))
    (hp : p ∈ (secs i).pieces) (hk : k < p.size) :
    content junk secs i (p.outputOffset + k) = pieceByte objects (secs i) p k ↔
      (isNobits objects p = true → content junk secs i (p.outputOffset + k) = 0) := by
  unfold pieceByte
  by_cases hbits : isNobits objects p = true
  · rw [if_pos hbits]
    simp [hbits]
  rw [if_neg hbits]
  obtain ⟨sh, hsh, hsize, hend, hlen⟩ := hlaid.piece p hp
  have htype : sh.shType ≠ shtNobits := by
    intro h
    apply hbits
    unfold isNobits
    rw [hsh]
    simp [h]
  exact ⟨fun _ h => absurd h hbits, fun _ => content_eq hlaid (by omega)⟩

/-- The program is loaded right exactly if no gap is seen: section by section, by the byte at each
address. -/
theorem loadsRight_iff {global : SymbolTable} {entryPoint : Name} {start : Symbol}
    (h : Placed secs) (hlaid : ∀ i, Laid objects (secs i))
    (hstart : symbolLookup global entryPoint = some start) (hw : Written junk secs start.value file) :
    LoadsRight objects secs global entryPoint file ↔ GapsUnseen junk objects secs := by
  obtain ⟨sp, himage, hl⟩ := written_image h hw
  have hin : ∀ i, ∀ p ∈ (secs i).pieces, ∀ k < p.size, p.outputOffset + k < (secs i).size := by
    intro i p hp k hk
    obtain ⟨sh, -, -, hend, -⟩ := (hlaid i).piece p hp
    omega
  constructor
  · rintro ⟨start', sp', hstart', himage', hpieces⟩
    rw [himage] at himage'
    obtain rfl : sp = sp' := congrArg Prod.snd (some.inj himage')
    refine ⟨fun i hi p hp hbits k hk => ?_, fun p hp k hk => ?_, fun p hp k hk => ?_⟩
    · have hbyte : content junk secs i (p.outputOffset + k) = pieceByte objects (secs i) p k := by
        rcases hi with rfl | rfl
        · have hloaded := hpieces OUT_TEXT (by decide) (by decide) p hp k hk
          rw [add_assoc, hl.text_byte h hw (hin _ p hp k hk)] at hloaded
          exact some.inj hloaded
        · have hloaded := hpieces OUT_DATA (by decide) (by decide) p hp k hk
          rw [add_assoc, hl.data_byte h hw (hin _ p hp k hk)] at hloaded
          exact some.inj hloaded
      exact (content_piece (hlaid i) hp hk).1 hbyte hbits
    · have hloaded := hpieces OUT_RODATA (by decide) (by decide) p hp k hk
      rw [add_assoc, hl.rodata_byte h hw (hin _ p hp k hk)] at hloaded
      rw [add_assoc, add_assoc]
      split at hloaded
      · rename_i hlt
        exact ⟨hlt, some.inj hloaded⟩
      · cases hloaded
    have hloaded := hpieces OUT_BSS (by decide) (by decide) p hp k hk
    rw [add_assoc, hl.bss_byte h (hin _ p hp k hk)] at hloaded
    rw [add_assoc]
    split at hloaded
    · rename_i hlt
      exact ⟨hlt, (some.inj hloaded).symm⟩
    · cases hloaded
  intro hgaps
  refine ⟨start, sp, hstart, himage, fun i h0 hlt p hp k hk => ?_⟩
  have hi : i = OUT_TEXT ∨ i = OUT_RODATA ∨ i = OUT_DATA ∨ i = OUT_BSS := by
    unfold OUT_TEXT OUT_RODATA OUT_DATA OUT_BSS
    unfold OUT_COUNT at hlt
    omega
  rw [add_assoc]
  rcases hi with rfl | rfl | rfl | rfl
  · rw [hl.text_byte h hw (hin _ p hp k hk), (content_piece (hlaid _) hp hk).2 fun hbits =>
      hgaps.zeros _ (.inl rfl) p hp hbits k hk]
  · obtain ⟨hend, hbyte⟩ := hgaps.rodata p hp k hk
    rw [add_assoc] at hend hbyte
    rw [hl.rodata_byte h hw (hin _ p hp k hk), if_pos hend, hbyte]
  · rw [hl.data_byte h hw (hin _ p hp k hk), (content_piece (hlaid _) hp hk).2 fun hbits =>
      hgaps.zeros _ (.inr rfl) p hp hbits k hk]
  · obtain ⟨hend, hzero⟩ := hgaps.bss p hp k hk
    rw [add_assoc] at hend
    rw [hl.bss_byte h (hin _ p hp k hk), if_pos hend, hzero]

end

/-! ## The flat binary -/

/-- Every piece with bytes is in a section that is written, and the bytes of every piece of such a section are
in the file at its load address minus the base. -/
def BinaryHolds (objects : List ObjectFile) (secs : Sections) (file : List UInt8) : Prop :=
  ∀ i, 0 < i → i < KOUT_COUNT → ∀ p ∈ (secs i).pieces, ∀ k < p.size,
    isNobits objects p = false ∨ i ∈ loadable secs KOUT_COUNT → i ∈ loadable secs KOUT_COUNT ∧
      file[(secs i).lma + p.outputOffset + k - baseLma secs KOUT_COUNT]? = some (pieceByte objects (secs i) p k)

/-- `write_binary` copies section `i` over the load address `a`. -/
def Writes (secs : Sections) (i a : Nat) : Prop :=
  i ∈ loadable secs KOUT_COUNT ∧ (secs i).data ≠ [] ∧ (secs i).lma ≤ a ∧ a < (secs i).lma + (secs i).size

/-- Nothing with bytes is in `.bss`, and where a section is written over a piece of another, or over a piece
without bytes, it is the same there. -/
structure NothingOverwritten (junk : Nat → Nat → UInt8) (objects : List ObjectFile) (secs : Sections) :
    Prop where
  bss : ∀ p ∈ (secs KOUT_BSS).pieces, isNobits objects p = false → p.size = 0
  overlap : ∀ i, 0 < i → i < KOUT_BSS → ∀ p ∈ (secs i).pieces, ∀ k < p.size,
    ∀ j, i < j ∨ isNobits objects p = true → Writes secs j ((secs i).lma + p.outputOffset + k) →
      (∀ m, j < m → ¬ Writes secs m ((secs i).lma + p.outputOffset + k)) →
      content junk secs j ((secs i).lma + p.outputOffset + k - (secs j).lma) = pieceByte objects (secs i) p k

section

variable {junk : Nat → Nat → UInt8} {objects : List ObjectFile} {secs : Sections} {file : List UInt8}
  {i j a : Nat} {l : List Nat}

theorem mem_loadable : i ∈ loadable secs KOUT_COUNT ↔
    0 < i ∧ i < KOUT_COUNT ∧ 0 < (secs i).size ∧ (secs i).type ≠ shtNobits := by
  unfold loadable KOUT_COUNT
  simp only [mem_filter, mem_range'_1, Bool.and_eq_true, decide_eq_true_eq, bne_iff_ne]
  omega

theorem loadable_sorted : (loadable secs KOUT_COUNT).Pairwise (· < ·) :=
  List.Pairwise.filter _ (pairwise_lt_range' _)

theorem foldl_min_le (f : Nat → Nat) (b : Nat) :
    (l.foldl (fun base i => if f i < base then f i else base) b ≤ b) ∧
      ∀ i ∈ l, l.foldl (fun base i => if f i < base then f i else base) b ≤ f i := by
  induction l generalizing b with
  | nil => simp
  | cons c l ih =>
    obtain ⟨hle, hall⟩ := ih (if f c < b then f c else b)
    refine ⟨le_trans hle (by split <;> omega), fun i hi => ?_⟩
    rcases mem_cons.1 hi with rfl | hi
    · exact le_trans hle (by split <;> omega)
    · exact hall i hi

theorem baseLma_le (hi : i ∈ loadable secs KOUT_COUNT) : baseLma secs KOUT_COUNT ≤ (secs i).lma :=
  (foldl_min_le (fun i => (secs i).lma) _).2 i hi

theorem le_fileSize (hfits : LmaFits secs) (hi : i ∈ loadable secs KOUT_COUNT) :
    (secs i).lma - baseLma secs KOUT_COUNT + (secs i).size ≤ fileSize secs KOUT_COUNT := by
  have hlma := hfits i (mem_loadable.1 hi).2.1
  have hmax := (le_foldl_max
    (fun i => ((secs i).lma - baseLma secs KOUT_COUNT + (secs i).size) % 2 ^ 64) (loadable secs KOUT_COUNT) 0).2 i hi
  rw [Nat.mod_eq_of_lt (by omega)] at hmax
  simpa only [fileSize, gt_iff_lt, max_def_lt] using hmax

theorem placeImages_other {base : Nat} {out : Bytes}
    (h : ∀ i ∈ l, (secs i).data = [] ∨ a < (secs i).lma - base ∨ (secs i).lma - base + (secs i).size ≤ a) :
    l.foldl (placeImage junk secs base) out a = out a := by
  induction l generalizing out with
  | nil => rfl
  | cons c l ih =>
    rw [foldl_cons, ih fun i hi => h i (mem_cons_of_mem _ hi)]
    have hc := h c mem_cons_self
    unfold placeImage
    split
    · rfl
    unfold putBytes
    rw [length_sectionContents, if_neg]
    rcases hc with hc | hc | hc
    · contradiction
    · omega
    · omega

/-- The last section that is written over a place decides. -/
theorem placeImages_last {base : Nat} {out : Bytes} (hsorted : l.Pairwise (· < ·)) (hj : j ∈ l)
    (hdata : (secs j).data ≠ []) (hlo : (secs j).lma - base ≤ a)
    (hhi : a < (secs j).lma - base + (secs j).size)
    (hlast : ∀ i ∈ l, j < i →
      (secs i).data = [] ∨ a < (secs i).lma - base ∨ (secs i).lma - base + (secs i).size ≤ a) :
    l.foldl (placeImage junk secs base) out a = content junk secs j (a - ((secs j).lma - base)) := by
  induction l generalizing out with
  | nil => exact absurd hj not_mem_nil
  | cons c l ih =>
    obtain ⟨hfirst, hrest⟩ := pairwise_cons.1 hsorted
    rw [foldl_cons]
    rcases mem_cons.1 hj with rfl | hj
    · rw [placeImages_other fun i hi => hlast i (mem_cons_of_mem _ hi) (hfirst i hi)]
      unfold placeImage putBytes
      rw [if_neg hdata, length_sectionContents, if_pos ⟨hlo, hhi⟩]
      rfl
    · exact ih hrest hj fun i hi hlt => hlast i (mem_cons_of_mem _ hi) hlt

theorem writeBinary_byte (hfits : LmaFits secs) (h : writeBinary junk secs KOUT_COUNT = some file)
    (hj : Writes secs j a) (hlast : ∀ m, j < m → ¬ Writes secs m a) :
    file[a - baseLma secs KOUT_COUNT]? = some (content junk secs j (a - (secs j).lma)) := by
  obtain ⟨hmem, hdata, hlo, hhi⟩ := hj
  have hbase := baseLma_le hmem
  have hsize := le_fileSize hfits hmem
  unfold writeBinary at h
  split at h
  · cases h
  have h := some.inj h
  rw [← h, getBytes, getElem?_map, getElem?_range (by omega), map_some, zero_add,
    placeImages_last loadable_sorted hmem hdata (by omega) (by omega)]
  · congr 2
    omega
  intro i hi hlt
  have hbase' := baseLma_le hi
  by_contra hnot
  push Not at hnot
  exact hlast i hlt ⟨hi, hnot.1, by omega, by omega⟩

/-- Where nothing is written the file has the zeros of `calloc`. -/
theorem writeBinary_zero (hfits : LmaFits secs) (h : writeBinary junk secs KOUT_COUNT = some file)
    (hmem : i ∈ loadable secs KOUT_COUNT) (hlo : (secs i).lma ≤ a) (hhi : a < (secs i).lma + (secs i).size)
    (hnone : ∀ j, ¬ Writes secs j a) : file[a - baseLma secs KOUT_COUNT]? = some 0 := by
  have hbase := baseLma_le hmem
  have hsize := le_fileSize hfits hmem
  unfold writeBinary at h
  split at h
  · cases h
  have h := some.inj h
  rw [← h, getBytes, getElem?_map, getElem?_range (by omega), map_some, zero_add, placeImages_other]
  intro j hj
  have hbase' := baseLma_le hj
  by_contra hnot
  push Not at hnot
  exact hnone j ⟨hj, hnot.1, by omega, by omega⟩

theorem exists_last (hi : Writes secs i a) :
    ∃ j, i ≤ j ∧ Writes secs j a ∧ ∀ m, j < m → ¬ Writes secs m a := by
  by_contra hnot
  push Not at hnot
  have hall : ∀ n, ∃ j, i + n ≤ j ∧ Writes secs j a := by
    intro n
    induction n with
    | zero => exact ⟨i, le_refl _, hi⟩
    | succ n ih =>
      obtain ⟨j, hle, hj⟩ := ih
      obtain ⟨m, hlt, hm⟩ := hnot j (by omega) hj
      exact ⟨m, by omega, hm⟩
  obtain ⟨j, hle, hj⟩ := hall KOUT_COUNT
  have hlt := (mem_loadable.1 hj.1).2.1
  omega

theorem piece_loadable (hlaid : Laid objects (secs i)) (htype : (secs i).type = (kernelSections i).type)
    (h0 : 0 < i) (hlt : i < KOUT_BSS) {p : SectionPiece} (hp : p ∈ (secs i).pieces) {k : Nat} (hk : k < p.size) :
    i ∈ loadable secs KOUT_COUNT := by
  obtain ⟨-, -, -, hend, -⟩ := hlaid.piece p hp
  refine mem_loadable.2 ⟨h0, lt_trans hlt (by decide), by omega, ?_⟩
  rw [htype]
  unfold kernelSections outputSectionInit
  rw [if_neg (by omega), if_neg (by omega)]
  decide

theorem writes_piece (hlaid : Laid objects (secs i)) (htype : (secs i).type = (kernelSections i).type)
    (h0 : 0 < i) (hlt : i < KOUT_BSS) {p : SectionPiece} (hp : p ∈ (secs i).pieces)
    (hbits : isNobits objects p = false) {k : Nat} (hk : k < p.size) :
    Writes secs i ((secs i).lma + p.outputOffset + k) := by
  obtain ⟨sh, hsh, hsize, hend, hlen⟩ := hlaid.piece p hp
  have hin := hlen (by
    intro h
    unfold isNobits at hbits
    rw [hsh] at hbits
    simp [h] at hbits) (by omega)
  refine ⟨piece_loadable hlaid htype h0 hlt hp hk, fun hnil => ?_, by omega, by omega⟩
  rw [hnil, length_nil] at hin
  omega

/-- The flat binary is right exactly if nothing that matters is overwritten. -/
theorem binaryHolds_iff (hfits : LmaFits secs) (hlaid : ∀ i, Laid objects (secs i))
    (htype : ∀ i, (secs i).type = (kernelSections i).type)
    (h : writeBinary junk secs KOUT_COUNT = some file) :
    BinaryHolds objects secs file ↔ NothingOverwritten junk objects secs := by
  constructor
  · intro hholds
    refine ⟨fun p hp hbits => ?_, fun i h0 hlt p hp k hk j hij hj hlast => ?_⟩
    · by_contra hsize
      have hmem := (hholds KOUT_BSS (by decide) (by decide) p hp 0 (by omega) (.inl hbits)).1
      exact (mem_loadable.1 hmem).2.2.2 (htype KOUT_BSS)
    · have hmem := piece_loadable (hlaid i) (htype i) h0 hlt hp hk
      have hbyte := (hholds i h0 (lt_trans hlt (by decide)) p hp k hk (.inr hmem)).2
      rw [writeBinary_byte hfits h hj hlast] at hbyte
      exact some.inj hbyte
  rintro ⟨hbss, hoverlap⟩ i h0 hlt p hp k hk hwritten
  have hlt' : i < KOUT_BSS := by
    rcases lt_or_ge i KOUT_BSS with hlt' | hge
    · exact hlt'
    obtain rfl : i = KOUT_BSS := by
      unfold KOUT_BSS at hge ⊢
      unfold KOUT_COUNT at hlt
      omega
    rcases hwritten with hbits | hmem
    · have h0 := hbss p hp hbits
      omega
    · exact absurd (htype KOUT_BSS) (mem_loadable.1 hmem).2.2.2
  have hmem := piece_loadable (hlaid i) (htype i) h0 hlt' hp hk
  refine ⟨hmem, ?_⟩
  cases hbits : isNobits objects p with
  | false =>
    obtain ⟨j, hij, hj, hlast⟩ := exists_last (writes_piece (hlaid i) (htype i) h0 hlt' hp hbits hk)
    rw [writeBinary_byte hfits h hj hlast]
    congr 1
    rcases lt_or_eq_of_le hij with hij | rfl
    · exact hoverlap i h0 hlt' p hp k hk j (.inl hij) hj hlast
    · rw [Nat.add_assoc, Nat.add_sub_cancel_left]
      exact (content_piece (hlaid i) hp hk).2 fun hyes => by rw [hbits] at hyes; cases hyes
  | true =>
    by_cases hany : ∃ j, Writes secs j ((secs i).lma + p.outputOffset + k)
    · obtain ⟨j, hj⟩ := hany
      obtain ⟨j, -, hj, hlast⟩ := exists_last hj
      rw [writeBinary_byte hfits h hj hlast]
      exact congrArg some (hoverlap i h0 hlt' p hp k hk j (.inr hbits) hj hlast)
    · obtain ⟨-, -, -, hend, -⟩ := (hlaid i).piece p hp
      rw [writeBinary_zero hfits h hmem (by omega) (by omega) (not_exists.1 hany)]
      unfold pieceByte
      rw [if_pos hbits]

end

/-! ## The claims of the linker -/

section

variable {global : SymbolTable}
  {secs : Sections} {junk : Nat → Nat → UInt8} {objects : List ObjectFile} {entryPoint : Name} {global' : SymbolTable}

theorem updateSymbolValues_lt {count : Nat} (h : ∀ s ∈ global, s.value < 2 ^ 64) :
    ∀ s ∈ updateSymbolValues global secs count, s.value < 2 ^ 64 := by
  intro s hs
  obtain ⟨s', hs', rfl⟩ := mem_map.1 hs
  have hs := h s' hs'
  unfold updateSymbol
  split
  · exact hs
  · split
    · exact hs
    · exact Nat.mod_lt _ (by decide)

/-- The values of the linked symbols are 64-bit numbers. -/
theorem linkUser_value
    {start : Symbol} (hglobal : ∀ s ∈ global, s.value < 2 ^ 64)
    (hlink : linkUser junk objects global = .ok (secs, global'))
    (hstart : symbolLookup global' entryPoint = some start) : start.value < 2 ^ 64 := by
  have hmem := mem_of_find?_eq_some hstart
  unfold linkUser at hlink
  dsimp only at hlink
  split at hlink
  · cases hlink
  · cases hlink
    exact updateSymbolValues_lt hglobal _ hmem

/-- User mode: what is written is loaded right exactly if no gap is seen. -/
theorem linkUser_loads
    {file : List UInt8}
    (hglobal : ∀ s ∈ global, s.value < 2 ^ 64) (hroom : linkRoom objects + 2 ^ 20 ≤ 2 ^ 48)
    (hlink : linkUser junk objects global = .ok (secs, global'))
    (hwrite : writeExecutable junk secs global' entryPoint = some file) :
    LoadsRight objects secs global' entryPoint file ↔ GapsUnseen junk objects secs := by
  obtain ⟨hplaced, hlaid⟩ := linkUser_layout hlink hroom
  obtain ⟨start, hstart, hwritten⟩ := writeExecutable_written hplaced hwrite
  exact loadsRight_iff hplaced hlaid hstart (hwritten (linkUser_value hglobal hlink hstart))

/-- What `ld` writes is loaded right exactly if no gap between two sections is seen, and its flat binary
holds every piece exactly if nothing that matters is overwritten. -/
theorem link_loads (junk : Nat → Nat → UInt8) (objects : List ObjectFile) (global : SymbolTable)
    (entryPoint : Name) (hglobal : ∀ s ∈ global, s.value < 2 ^ 64)
    (hroom : linkRoom objects + 2 ^ 20 ≤ 2 ^ 48) :
    (∀ secs global' file, linkUser junk objects global = .ok (secs, global') →
      writeExecutable junk secs global' entryPoint = some file →
        (LoadsRight objects secs global' entryPoint file ↔ GapsUnseen junk objects secs)) ∧
    ∀ secs global' file, linkKernel junk objects global = .ok (secs, global') →
      writeBinary junk secs KOUT_COUNT = some file →
        (BinaryHolds objects secs file ↔ NothingOverwritten junk objects secs) := by
  refine ⟨fun secs global' file hlink hwrite => linkUser_loads hglobal hroom hlink hwrite,
    fun secs global' file hlink hwrite => ?_⟩
  obtain ⟨hfits, hlaid, htype⟩ := linkKernel_layout hlink hroom
  exact binaryHolds_iff hfits hlaid htype hwrite

/-- The name `_start`. -/
def nameStart : Name := [0x5f, 0x73, 0x74, 0x61, 0x72, 0x74]

/-- An object file with the code `text`, the symbol `_start` in front of it, and a second section with `data` in the
file. -/
def objectWith (text data name : List UInt8) (type flags size align : Nat) : List UInt8 :=
  let names := [0] ++ nameText ++ [0] ++ name ++ [0] ++ nameStart ++ [0]
  let second := 64 + text.length
  let strings := second + data.length
  let symbols := strings + names.length
  (Elf64Ehdr.encode ⟨elfIdent, etRel, emAarch64, 1, 0, 0, symbols + 48, 0, 64, 0, 0, 64, 5, 3⟩) ++ text ++ data ++
    names ++ Elf64Sym.encode ⟨0, 0, 0, 0, 0, 0⟩ ++ Elf64Sym.encode ⟨8 + name.length, 16, 0, 1, 0, 0⟩ ++
    Elf64Shdr.encode ⟨0, 0, 0, 0, 0, 0, 0, 0, 0, 0⟩ ++
    Elf64Shdr.encode ⟨1, shtProgbits, 6, 0, 64, text.length, 0, 0, 4, 0⟩ ++
    Elf64Shdr.encode ⟨7, type, flags, 0, second, size, 0, 0, align, 0⟩ ++
    Elf64Shdr.encode ⟨0, shtStrtab, 0, 0, strings, names.length, 0, 0, 1, 0⟩ ++
    Elf64Shdr.encode ⟨0, shtSymtab, 0, 0, symbols, 48, 3, 1, 8, 24⟩

/-- An object file with the code `text`, one byte of read-only data and the symbol `_start`. -/
def gapObject (text : List UInt8) : List UInt8 := objectWith text [0x41] nameRodata shtProgbits 2 1 1

/-- The run of the linker on one object file, with a check of what it ends with. -/
def linkOne (data : List UInt8) (good : ObjectFile → SymbolTable → Sections → SymbolTable → Bool) : Bool :=
  match elfReadMemory data data.length [0x6f] with
  | .error _ => false
  | .ok obj =>
    match collectDefinitions 0 [obj] [] with
    | .error _ => false
    | .ok (_, global) =>
      match linkUser (fun _ _ => 0) [obj] global with
      | .error _ => false
      | .ok (secs, global') =>
        (writeExecutable (fun _ _ => 0) secs global' nameStart).isSome && good obj global secs global'

theorem linkOne_run {data : List UInt8} {good : ObjectFile → SymbolTable → Sections → SymbolTable → Bool}
    (h : linkOne data good = true) :
    ∃ obj global secs global' file, elfReadMemory data data.length [0x6f] = .ok obj ∧
      collectDefinitions 0 [obj] [] = .ok ((), global) ∧
      linkUser (fun _ _ => 0) [obj] global = .ok (secs, global') ∧
      writeExecutable (fun _ _ => 0) secs global' nameStart = some file ∧
      good obj global secs global' = true := by
  unfold linkOne at h
  split at h
  · cases h
  rename_i obj hobj
  split at h
  · cases h
  rename_i u global hglobal
  split at h
  · cases h
  rename_i secs global' hlink
  obtain ⟨hwrite, hgood⟩ := Bool.and_eq_true_iff.1 h
  obtain ⟨file, hfile⟩ := isSome_iff_exists.1 hwrite
  exact ⟨obj, global, secs, global', file, hobj, hglobal, hlink, hfile, hgood⟩

/-- A `nop`. -/
def nop : List UInt8 := [0x1f, 0x20, 0x03, 0xd5]

/-- With four bytes of code there is a gap of four bytes in front of the read-only byte, which reads as
zero in the program. -/
theorem link_loads_wrong :
    ¬ ∀ (data : List UInt8) (obj : ObjectFile) (global : SymbolTable) (secs : Sections)
      (global' : SymbolTable) (file : List UInt8),
      elfReadMemory data data.length [0x6f] = .ok obj →
      collectDefinitions 0 [obj] [] = .ok ((), global) →
      linkUser (fun _ _ => 0) [obj] global = .ok (secs, global') →
      writeExecutable (fun _ _ => 0) secs global' nameStart = some file →
      LoadsRight [obj] secs global' nameStart file := by
  intro hall
  have hrun : linkOne (gapObject nop) (fun obj global secs _ =>
      decide (∀ x ∈ global, x.value < 2 ^ 64) && decide (linkRoom [obj] + 2 ^ 20 ≤ 2 ^ 48) &&
        decide ((secs OUT_RODATA).pieces = [⟨0, 2, 0, 1⟩]) &&
        decide (content (fun _ _ => 0) secs OUT_RODATA (rodataGap secs + 0 + 0) ≠
          pieceByte [obj] (secs OUT_RODATA) ⟨0, 2, 0, 1⟩ 0)) = true := by decide +kernel
  obtain ⟨obj, global, secs, global', file, hobj, hglobal, hlink, hwrite, hgood⟩ := linkOne_run hrun
  simp only [Bool.and_eq_true, decide_eq_true_eq] at hgood
  obtain ⟨⟨⟨hvalue, hroom⟩, hpieces⟩, hbyte⟩ := hgood
  have hloads := hall _ _ _ _ _ _ hobj hglobal hlink hwrite
  have hgaps := (linkUser_loads hvalue hroom hlink hwrite).1 hloads
  exact hbyte (hgaps.rodata ⟨0, 2, 0, 1⟩ (by rw [hpieces]; exact mem_singleton_self _) 0
    (by decide)).2

/-- With eight bytes of code there is no gap. -/
theorem link_loads_small :
    ∃ obj global secs global' file, elfReadMemory (gapObject (nop ++ nop))
        (gapObject (nop ++ nop)).length [0x6f] = .ok obj ∧
      collectDefinitions 0 [obj] [] = .ok ((), global) ∧
      linkUser (fun _ _ => 0) [obj] global = .ok (secs, global') ∧
      writeExecutable (fun _ _ => 0) secs global' nameStart = some file ∧
      LoadsRight [obj] secs global' nameStart file := by
  have hrun : linkOne (gapObject (nop ++ nop)) (fun obj global secs _ =>
      decide (∀ x ∈ global, x.value < 2 ^ 64) && decide (linkRoom [obj] + 2 ^ 20 ≤ 2 ^ 48) &&
        decide (∀ i ∈ [OUT_TEXT, OUT_DATA], ∀ p ∈ (secs i).pieces, isNobits [obj] p = false) &&
        decide (∀ p ∈ (secs OUT_RODATA).pieces, ∀ k < p.size,
          (secs OUT_RODATA).addr + p.outputOffset + k < codeEnd secs ∧
            content (fun _ _ => 0) secs OUT_RODATA (rodataGap secs + p.outputOffset + k) =
              pieceByte [obj] (secs OUT_RODATA) p k) &&
        decide ((secs OUT_BSS).pieces = [])) = true := by decide +kernel
  obtain ⟨obj, global, secs, global', file, hobj, hglobal, hlink, hwrite, hgood⟩ := linkOne_run hrun
  simp only [Bool.and_eq_true, decide_eq_true_eq] at hgood
  obtain ⟨⟨⟨⟨hvalue, hroom⟩, hbits⟩, hrodata⟩, hbss⟩ := hgood
  refine ⟨obj, global, secs, global', file, hobj, hglobal, hlink, hwrite,
    ((link_loads _ _ _ _ hvalue hroom).1 _ _ _ hlink hwrite).2 ⟨fun i hi p hp hno => ?_, hrodata, ?_⟩⟩
  · have hyes := hbits i (by
      rcases hi with rfl | rfl
      · exact mem_cons_self
      · exact mem_cons_of_mem _ mem_cons_self) p hp
    rw [hno] at hyes
    cases hyes
  · rw [hbss]
    simp

end

end Slopix.Ld
