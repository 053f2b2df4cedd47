import Mathlib.Data.List.Forall2
import Slopix.As.ElfWrite
import Slopix.Ld.Object

/-!
# What the linker reads of an object file

The linker's reader applied to the file `elf_write` produces gives back the sections, the symbols under
their new numbers, and the relocations with their symbols renumbered in the same way.
-/

namespace Slopix.As

open Lib Elf Ld Option

/-! ## The symbol table -/

section

/-- A symbol to emit: its binding in the file, the symbol, its index. -/
abbrev Entry := Nat × Symbol × Nat

/-- Write one entry. -/
def emitEntry (e : Emit) (x : Entry) : Emit := emitSymbol x.1 e x.2.2 x.2.1

/-- The entries of one of the two loops, in the order of the symbols. -/
def loopEntries (want : Symbol → Bool) (binding i : Nat) (syms : List Symbol) : List Entry :=
  ((syms.zipIdx i).filter fun x => want x.1).map fun x => (binding, x)

/-- All entries in the order in which they are emitted. -/
def entries (syms : List Symbol) : List Entry :=
  loopEntries isLocal stbLocal 0 syms ++ loopEntries (fun s => !isLocal s) stbGlobal 0 syms

theorem emitLoop_eq (want : Symbol → Bool) (binding : Nat) (e : Emit) (i : Nat)
    (syms : List Symbol) :
    emitLoop want binding e i syms = (loopEntries want binding i syms).foldl emitEntry e := by
  induction syms generalizing e i with
  | nil => rfl
  | cons sym syms ih =>
    rw [emitLoop, ih]
    unfold loopEntries
    rw [List.zipIdx_cons]
    by_cases hwant : want sym = true
    · rw [if_pos hwant, List.filter_cons_of_pos (by simpa using hwant), List.map_cons,
        List.foldl_cons]
      rfl
    · rw [if_neg hwant, List.filter_cons_of_neg (by simpa using hwant)]

theorem emitSymbols_eq (syms : List Symbol) :
    emitSymbols syms = (entries syms).foldl emitEntry emitStart := by
  unfold emitSymbols entries
  rw [emitLoop_eq, emitLoop_eq, List.foldl_append]

variable {syms : List Symbol} {x : Entry}

theorem mem_loopEntries {want : Symbol → Bool} {binding : Nat} :
    x ∈ loopEntries want binding 0 syms ↔
      x.1 = binding ∧ syms[x.2.2]? = some x.2.1 ∧ want x.2.1 = true := by
  obtain ⟨b, sym, i⟩ := x
  unfold loopEntries
  simp only [List.mem_map, List.mem_filter, Prod.mk.injEq, List.mem_zipIdx_iff_getElem?]
  constructor
  · rintro ⟨y, ⟨hy, hwant⟩, rfl, rfl⟩
    exact ⟨rfl, hy, hwant⟩
  · rintro ⟨rfl, hi, hwant⟩
    exact ⟨(sym, i), ⟨hi, hwant⟩, rfl, rfl⟩

/-- The binding a symbol gets in the file: undefined symbols are global. -/
def bindOf (sym : Symbol) : Nat := if isLocal sym then stbLocal else stbGlobal

theorem mem_entries : x ∈ entries syms ↔ x.1 = bindOf x.2.1 ∧ syms[x.2.2]? = some x.2.1 := by
  unfold entries bindOf
  rw [List.mem_append, mem_loopEntries, mem_loopEntries]
  by_cases hlocal : isLocal x.2.1 = true
  · simp [hlocal]
  · simp [hlocal]

theorem nodup_loopEntries (want : Symbol → Bool) (binding : Nat) :
    ((loopEntries want binding 0 syms).map fun x => x.2.2).Nodup := by
  unfold loopEntries
  rw [List.map_map]
  refine List.Nodup.sublist (List.filter_sublist.map _) ?_
  have hidx : (syms.zipIdx 0).map ((fun x : Entry => x.2.2) ∘ fun x => (binding, x)) =
      List.range' 0 syms.length := by
    rw [← List.zipIdx_map_snd 0 syms]
    rfl
  rw [hidx]
  exact List.nodup_range'

theorem nodup_entries : ((entries syms).map fun x => x.2.2).Nodup := by
  unfold entries
  rw [List.map_append]
  refine List.nodup_append.2 ⟨nodup_loopEntries _ _, nodup_loopEntries _ _, fun i hi j hi' hij => ?_⟩
  subst hij
  obtain ⟨x, hx, rfl⟩ := List.mem_map.1 hi
  obtain ⟨y, hy, hxy⟩ := List.mem_map.1 hi'
  rw [mem_loopEntries] at hx hy
  -- One index is one symbol, and that is local or not.
  rw [hxy, hx.2.1] at hy
  rw [← some.inj hy.2.1, hx.2.2] at hy
  exact absurd hy.2.2 (by decide)

theorem length_loopEntries (want : Symbol → Bool) (binding : Nat) :
    (loopEntries want binding 0 syms).length = (syms.filter want).length := by
  unfold loopEntries
  rw [List.length_map, ← List.length_map (f := Prod.fst)]
  congr 1
  have hfst : ((syms.zipIdx 0).map Prod.fst) = syms := List.zipIdx_map_fst 0 syms
  conv_rhs => rw [← hfst, List.filter_map]
  rfl

theorem length_entries : (entries syms).length = syms.length := by
  unfold entries
  rw [List.length_append, length_loopEntries, length_loopEntries]
  exact (List.length_eq_length_filter_add isLocal).symm

/-- The entry `es` describes the symbol `x`, with its name in the string table. -/
structure Describes (strtab : List UInt8) (x : Entry) (es : Elf64Sym) : Prop where
  named : es.stName ≠ 0
  name : cstrAt strtab es.stName = x.2.1.name
  info : es.stInfo = stInfoOf x.1 x.2.1.type
  other : es.stOther = 0
  shndx : es.stShndx = shndxOf x.2.1
  value : es.stValue = x.2.1.value
  size : es.stSize = signExtend x.2.1.size
  short : es.stName < 2 ^ 32
  inside : es.stName + x.2.1.name.length < strtab.length

/-- The symbol table entry that emitting appends. -/
def symOf (e : Emit) (x : Entry) : Elf64Sym :=
  ⟨(strtabAdd e.strtab x.2.1.name).1, stInfoOf x.1 x.2.1.type, 0, shndxOf x.2.1, x.2.1.value,
    signExtend x.2.1.size⟩

theorem foldl_emit_grows (l : List Entry) (e : Emit) :
    (∃ t, (l.foldl emitEntry e).strtab = e.strtab ++ t) ∧
      ∃ t, (l.foldl emitEntry e).elfSyms = e.elfSyms ++ t ∧ t.length = l.length := by
  induction l generalizing e with
  | nil => exact ⟨⟨[], (List.append_nil _).symm⟩, [], (List.append_nil _).symm, rfl⟩
  | cons x l ih =>
    obtain ⟨⟨t, ht⟩, t', ht', hlen⟩ := ih (emitEntry e x)
    refine ⟨⟨x.2.1.name ++ [0] ++ t, ?_⟩, symOf e x :: t', ?_, by simp [hlen]⟩
    · rw [List.foldl_cons, ht]
      simp [emitEntry, emitSymbol, strtabAdd]
    · rw [List.foldl_cons, ht', emitEntry, emitSymbol, List.append_assoc]
      rfl

theorem foldl_symToElf_of_notMem {l : List Entry} {i : Nat} (e : Emit)
    (hi : i ∉ l.map fun x => x.2.2) : (l.foldl emitEntry e).symToElf i = e.symToElf i := by
  induction l generalizing e with
  | nil => rfl
  | cons x l ih =>
    rw [List.map_cons, List.mem_cons, not_or] at hi
    rw [List.foldl_cons, ih _ hi.2]
    exact Function.update_of_ne hi.1 _ _

/-- Where the entries of a run of emissions stand, and what they say. -/
theorem foldl_emit {l : List Entry} (e : Emit) (hnodup : (l.map fun x => x.2.2).Nodup)
    (hne : e.strtab ≠ []) (hshort : (l.foldl emitEntry e).strtab.length < 2 ^ 32)
    (hnames : ∀ x ∈ l, 0 ∉ x.2.1.name) {k : Nat} {x : Entry} (hk : l[k]? = some x) :
    (l.foldl emitEntry e).symToElf x.2.2 = e.elfSyms.length + k ∧
      ∃ es, (l.foldl emitEntry e).elfSyms[e.elfSyms.length + k]? = some es ∧
        Describes (l.foldl emitEntry e).strtab x es := by
  induction l generalizing e k with
  | nil => cases hk
  | cons y l ih =>
    rw [List.map_cons, List.nodup_cons] at hnodup
    rw [List.foldl_cons] at hshort ⊢
    obtain ⟨⟨t, ht⟩, t', ht', -⟩ := foldl_emit_grows l (emitEntry e y)
    cases k with
    | zero =>
      obtain rfl : y = x := some.inj hk
      refine ⟨?_, symOf e y, ?_, ?_⟩
      · rw [foldl_symToElf_of_notMem _ hnodup.1]
        exact Function.update_self _ _ _
      · rw [ht', emitEntry, emitSymbol, List.append_assoc, add_zero,
          List.getElem?_append_right (Nat.le_refl _), Nat.sub_self]
        rfl
      have hlen : e.strtab.length < 2 ^ 32 := by
        rw [ht] at hshort
        simp only [emitEntry, emitSymbol, strtabAdd, List.length_append] at hshort
        omega
      have hmod : (strtabAdd e.strtab y.2.1.name).1 = e.strtab.length := Nat.mod_eq_of_lt hlen
      unfold symOf
      rw [hmod]
      refine ⟨?_, ?_, rfl, rfl, rfl, rfl, rfl, hlen, ?_⟩
      · exact fun hzero => hne (List.length_eq_zero_iff.1 hzero)
      · rw [ht]
        simp only [emitEntry, emitSymbol, strtabAdd, List.append_assoc]
        exact cstrAt_middle e.strtab t (hnames y List.mem_cons_self)
      · rw [ht]
        simp [emitEntry, emitSymbol, strtabAdd]
    | succ k =>
      have hstep : (emitEntry e y).elfSyms.length = e.elfSyms.length + 1 := by
        simp [emitEntry, emitSymbol]
      obtain ⟨hidx, es, hes, hdesc⟩ := ih (emitEntry e y) hnodup.2
        (by simp [emitEntry, emitSymbol, strtabAdd]) hshort
        (fun z hz => hnames z (List.mem_cons_of_mem _ hz)) hk
      rw [hstep, add_assoc, add_comm 1 k] at hidx hes
      exact ⟨hidx, es, hes, hdesc⟩

end

/-! ## The layout of the file -/

/-- What the assembler can hold: C strings, numbers of the widths of their fields, counts of type `int`,
string tables with offsets of 32 bits, and a file with a `size_t` size. -/
structure Holdable (a : Assembly) : Prop where
  names : ∀ sym ∈ a.symbols, 0 ∉ sym.name
  tname : 0 ∉ a.tname
  values : ∀ sym ∈ a.symbols, sym.value < 2 ^ 64
  types : ∀ sym ∈ a.symbols, sym.type ≤ sttSection
  relocs : ∀ r ∈ a.textRelocs ++ a.dataRelocs,
    r.offset < 2 ^ 64 ∧ r.type < 2 ^ 31 ∧ r.addend < 2 ^ 64
  bss : a.bssSize < 2 ^ 64
  counts : a.totalElfSyms < 2 ^ 31 ∧ a.textRelocs.length < 2 ^ 31 ∧ a.dataRelocs.length < 2 ^ 31
  strings : a.emitted.strtab.length < 2 ^ 32 ∧ a.names.table.length < 2 ^ 32
  file : a.elfWrite.length < 2 ^ 64

section

variable {a : Assembly}

theorem alignUp_eq {val : Nat} (hval : val + 7 < 2 ^ 64) : alignUp val 8 = (val + 7) / 8 * 8 := by
  unfold alignUp
  rw [show val + 8 - 1 = val + 7 from rfl, Nat.mod_eq_of_lt hval]

theorem length_emitted : a.emitted.elfSyms.length = a.totalElfSyms := by
  obtain ⟨-, t, ht, hlen⟩ := foldl_emit_grows (entries a.symbols) emitStart
  unfold Assembly.emitted Assembly.totalElfSyms
  rw [emitSymbols_eq, ht, List.length_append, hlen, length_entries]
  rfl

theorem length_padding (cur next : Nat) : (Assembly.padding cur next).length = next - cur :=
  List.length_replicate

theorem length_elfWrite : a.elfWrite.length = 64 + a.text.length +
    (a.dataOff - (Assembly.textOff + a.text.length)) + a.data.length +
    (a.symtabOff - (a.dataOff + a.data.length)) + symSize * a.totalElfSyms +
    a.emitted.strtab.length + a.names.table.length +
    (a.relaTextOff - (a.shstrtabOff + a.names.table.length)) + relaSize * a.textRelocs.length +
    relaSize * a.dataRelocs.length +
    (a.shdrOff - (a.relaDataOff + a.dataRelocs.length * relaSize)) + shdrSize * 9 := by
  unfold Assembly.elfWrite
  simp only [List.length_append, length_padding, length_flatMap length_sym, length_emitted,
    length_flatMap length_rela, length_flatMap length_shdr, length_ehdr]
  simp [Assembly.textRelas, Assembly.dataRelas, relasOf, Assembly.shdrs, Assembly.ehdr, elfIdent]

/-- No offset wraps, and each part follows the one before it. -/
structure Ordered (a : Assembly) : Prop where
  data : ehdrSize + a.text.length ≤ a.dataOff
  symtab : a.dataOff + a.data.length ≤ a.symtabOff
  strtab : a.strtabOff = a.symtabOff + symSize * a.totalElfSyms
  shstrtab : a.shstrtabOff = a.strtabOff + a.emitted.strtab.length
  relaText : a.shstrtabOff + a.names.table.length ≤ a.relaTextOff
  relaData : a.relaDataOff = a.relaTextOff + relaSize * a.textRelocs.length
  shdr : a.relaDataOff + relaSize * a.dataRelocs.length ≤ a.shdrOff
  size : a.elfWrite.length = a.shdrOff + shdrSize * 9

/-- The parts of the file lie one behind the other. -/
theorem Holdable.ordered (h : Holdable a) : Ordered a := by
  have hfile := h.file
  have hlen := length_elfWrite (a := a)
  have hstrtab : a.strtabOff = a.symtabOff + symSize * a.totalElfSyms := by
    unfold Assembly.strtabOff Assembly.symtabSize
    rw [mul_comm]
  have hrelaData : a.relaDataOff = a.relaTextOff + relaSize * a.textRelocs.length := by
    unfold Assembly.relaDataOff
    rw [mul_comm]
  rw [mul_comm a.dataRelocs.length] at hlen
  have hdata : ehdrSize + a.text.length ≤ a.dataOff := by
    unfold Assembly.dataOff Assembly.textOff
    rw [alignUp_eq (by unfold ehdrSize shdrSize at *; omega)]
    omega
  unfold Assembly.textOff ehdrSize shdrSize at *
  have hsymtab : a.dataOff + a.data.length ≤ a.symtabOff := by
    unfold Assembly.symtabOff
    rw [alignUp_eq (by omega)]
    omega
  have hshstrtab : a.shstrtabOff = a.strtabOff + a.emitted.strtab.length := rfl
  have hrelaText : a.shstrtabOff + a.names.table.length ≤ a.relaTextOff := by
    unfold Assembly.relaTextOff
    rw [alignUp_eq (by omega)]
    omega
  have hshdr : a.relaDataOff + relaSize * a.dataRelocs.length ≤ a.shdrOff := by
    unfold Assembly.shdrOff
    rw [mul_comm a.dataRelocs.length, alignUp_eq (by omega)]
    omega
  exact ⟨hdata, hsymtab, hstrtab, hshstrtab, hrelaText, hrelaData, hshdr, by unfold shdrSize; omega⟩

/-- Where the parts of the file stand. -/
structure Parts (a : Assembly) : Prop where
  ehdr : StandsAt a.elfWrite 0 a.ehdr.encode
  text : StandsAt a.elfWrite Assembly.textOff a.text
  data : StandsAt a.elfWrite a.dataOff a.data
  symtab : StandsAt a.elfWrite a.symtabOff (a.emitted.elfSyms.flatMap Elf64Sym.encode)
  strtab : StandsAt a.elfWrite a.strtabOff a.emitted.strtab
  names : StandsAt a.elfWrite a.shstrtabOff a.names.table
  relaText : StandsAt a.elfWrite a.relaTextOff (a.textRelas.flatMap Elf64Rela.encode)
  relaData : StandsAt a.elfWrite a.relaDataOff (a.dataRelas.flatMap Elf64Rela.encode)
  shdrs : StandsAt a.elfWrite a.shdrOff (a.shdrs.flatMap Elf64Shdr.encode)

theorem length_relasOf (n : Nat) (f : Nat → Nat) (l : List Reloc) :
    (relasOf n f l).length = l.length := by
  simp [relasOf]

theorem length_ehdr_encode : a.ehdr.encode.length = 64 := by
  rfl

/-- So each part is found where its header says. -/
theorem Ordered.parts (h : Ordered a) : Parts a := by
  obtain ⟨hdata, hsymtab, hstrtab, hshstrtab, hrelaText, hrelaData, hshdr, -⟩ := h
  have hsyms : (a.emitted.elfSyms.flatMap Elf64Sym.encode).length = symSize * a.totalElfSyms := by
    rw [length_flatMap length_sym, length_emitted]
  have htext : (a.textRelas.flatMap Elf64Rela.encode).length = relaSize * a.textRelocs.length := by
    rw [length_flatMap length_rela]
    unfold Assembly.textRelas
    rw [length_relasOf]
  have hdat : (a.dataRelas.flatMap Elf64Rela.encode).length = relaSize * a.dataRelocs.length := by
    rw [length_flatMap length_rela]
    unfold Assembly.dataRelas
    rw [length_relasOf]
  have hehdr := length_ehdr_encode (a := a)
  unfold ehdrSize at hdata
  have hstart := Remains.start a.elfWrite
  conv at hstart => rhs; unfold Assembly.elfWrite
  simp only [List.append_assoc] at hstart
  have h1 := hstart.skip Assembly.textOff (by rw [hehdr]; rfl)
  have h2 := h1.skip _ rfl
  have h3 := h2.skip a.dataOff (by
    rw [length_padding]
    unfold Assembly.textOff ehdrSize
    omega)
  have h4 := h3.skip _ rfl
  have h5 := h4.skip a.symtabOff (by rw [length_padding]; omega)
  have h6 := h5.skip a.strtabOff (by rw [hsyms]; omega)
  have h7 := h6.skip a.shstrtabOff (by omega)
  have h8 := h7.skip _ rfl
  have h9 := h8.skip a.relaTextOff (by rw [length_padding]; omega)
  have h10 := h9.skip a.relaDataOff (by rw [htext]; omega)
  have h11 := h10.skip (a.relaDataOff + a.dataRelocs.length * relaSize)
    (by rw [hdat, mul_comm])
  have h12 := h11.skip a.shdrOff (by rw [length_padding, mul_comm]; omega)
  exact ⟨hstart.part, h1.part, h3.part, h5.part, h6.part, h7.part, h9.part, h10.part, h12.last⟩

/-! ## Reading it back -/

theorem Holdable.entry (h : Holdable a) {k : Nat} {x : Entry}
    (hx : (entries a.symbols)[k]? = some x) :
    a.emitted.symToElf x.2.2 = 4 + k ∧
      ∃ es, a.emitted.elfSyms[4 + k]? = some es ∧ Describes a.emitted.strtab x es := by
  have hshort := h.strings.1
  have hnames : ∀ x ∈ entries a.symbols, 0 ∉ x.2.1.name := fun x hx =>
    h.names x.2.1 (List.mem_of_getElem? (mem_entries.1 hx).2)
  unfold Assembly.emitted at *
  rw [emitSymbols_eq] at *
  exact foldl_emit emitStart nodup_entries (by decide) hshort hnames hx

/-- Every symbol of the assembler has a number, and is described there. -/
theorem Holdable.symbol (h : Holdable a) {i : Nat} {sym : Symbol} (hi : a.symbols[i]? = some sym) :
    ∃ k es, (entries a.symbols)[k]? = some (bindOf sym, sym, i) ∧ a.emitted.symToElf i = 4 + k ∧
      a.emitted.elfSyms[4 + k]? = some es ∧
      Describes a.emitted.strtab (bindOf sym, sym, i) es := by
  have hx : (bindOf sym, sym, i) ∈ entries a.symbols := mem_entries.2 ⟨rfl, hi⟩
  obtain ⟨k, hk⟩ := List.getElem?_of_mem hx
  obtain ⟨hidx, es, hes, hdesc⟩ := h.entry hk
  exact ⟨k, es, hk, hidx, hes, hdesc⟩

/-- An entry of the symbol table stands for a section or for a symbol. -/
theorem Holdable.emitted_get (h : Holdable a) {k : Nat} {es : Elf64Sym}
    (hk : a.emitted.elfSyms[k]? = some es) :
    (k < 4 ∧ emitStart.elfSyms[k]? = some es) ∨
      ∃ x, (entries a.symbols)[k - 4]? = some x ∧ 4 ≤ k ∧ Describes a.emitted.strtab x es := by
  obtain ⟨-, t, ht, -⟩ := foldl_emit_grows (entries a.symbols) emitStart
  have hstart : emitStart.elfSyms.length = 4 := rfl
  have hbound := (List.getElem?_eq_some_iff.1 hk).1
  rw [length_emitted, Assembly.totalElfSyms, ← length_entries] at hbound
  by_cases hlt : k < 4
  · left
    unfold Assembly.emitted at hk
    rw [emitSymbols_eq, ht, List.getElem?_append_left (by omega)] at hk
    exact ⟨hlt, hk⟩
  right
  have hx := List.getElem?_eq_getElem (l := entries a.symbols) (i := k - 4) (by omega)
  obtain ⟨-, es', hes', hdesc⟩ := h.entry hx
  rw [Nat.add_sub_cancel' (by omega), hk] at hes'
  exact ⟨_, hx, by omega, some.inj hes' ▸ hdesc⟩

theorem shndxOf_lt (sym : Symbol) : shndxOf sym < 2 ^ 16 := by
  unfold shndxOf SEC_TEXT SEC_DATA SEC_BSS shnAbs shnUndef
  split
  · decide
  · decide
  · decide
  · split <;> decide

theorem bindOf_lt (sym : Symbol) : bindOf sym < 16 := by
  unfold bindOf
  split <;> decide

theorem Holdable.type_lt (h : Holdable a) {sym : Symbol} (hsym : sym ∈ a.symbols) : sym.type < 16 :=
  lt_of_le_of_lt (h.types sym hsym) (by decide)

theorem Holdable.fits_sym (h : Holdable a) {es : Elf64Sym} (hes : es ∈ a.emitted.elfSyms) :
    Fits es.fields := by
  obtain ⟨k, hk⟩ := List.getElem?_of_mem hes
  rcases h.emitted_get hk with ⟨hlt, hstart⟩ | ⟨x, hx, -, hdesc⟩
  · have hall : ∀ e ∈ emitStart.elfSyms, Fits e.fields := by decide
    exact hall es (List.mem_of_getElem? hstart)
  obtain ⟨hbind, hmem⟩ := mem_entries.1 (List.mem_of_getElem? hx)
  have hsym := List.mem_of_getElem? hmem
  obtain ⟨-, -, hinfo⟩ := stInfoOf_parts (hbind ▸ bindOf_lt x.2.1) (h.type_lt hsym)
  have hsize : signExtend x.2.1.size < 2 ^ 64 := by
    unfold signExtend
    omega
  have hvalue := h.values _ hsym
  have hshndx := shndxOf_lt x.2.1
  have hshort := hdesc.short
  rw [← hdesc.value] at hvalue
  rw [← hdesc.size] at hsize
  rw [← hdesc.shndx] at hshndx
  rw [← hdesc.info] at hinfo
  have hother := hdesc.other
  intro f hf
  simp only [Elf64Sym.fields, List.mem_cons, List.not_mem_nil, or_false] at hf
  rcases hf with rfl | rfl | rfl | rfl | rfl | rfl <;> dsimp only <;> omega

theorem names_lt (tname : Name) :
    (sectionNames tname).text < 2 ^ 32 ∧ (sectionNames tname).data < 2 ^ 32 ∧
      (sectionNames tname).bss < 2 ^ 32 ∧ (sectionNames tname).symtab < 2 ^ 32 ∧
      (sectionNames tname).strtab < 2 ^ 32 ∧ (sectionNames tname).shstrtab < 2 ^ 32 ∧
      (sectionNames tname).relaText < 2 ^ 32 ∧ (sectionNames tname).relaData < 2 ^ 32 := by
  refine ⟨?_, ?_, ?_, ?_, ?_, ?_, ?_, ?_⟩ <;> exact Nat.mod_lt _ (by decide)

theorem addralign_lt {power least : Nat} (hleast : least < 64) :
    Assembly.addralign power least < 2 ^ 64 := by
  unfold Assembly.addralign
  split
  · exact Nat.mod_lt _ (by decide)
  · exact Nat.pow_lt_pow_right (by decide) hleast

theorem Holdable.fits_ehdr (h : Holdable a) : Fits a.ehdr.fields := by
  have hord := h.ordered
  have hfile := h.file
  have hsize := hord.size
  intro f hf
  simp only [Elf64Ehdr.fields, Assembly.ehdr, etRel, emAarch64, ehdrSize, shdrSize, SEC_COUNT,
    SEC_SHSTRTAB, List.mem_cons, List.not_mem_nil, or_false] at hf
  rcases hf with rfl | rfl | rfl | rfl | rfl | rfl | rfl | rfl | rfl | rfl | rfl | rfl | rfl <;>
    dsimp only <;> omega

theorem Holdable.fits_shdr (h : Holdable a) {sh : Elf64Shdr} (hsh : sh ∈ a.shdrs) :
    Fits sh.fields := by
  obtain ⟨hdata, hsymtab, hstrtab, hshstrtab, hrelaText, hrelaData, hshdr, hsize⟩ := h.ordered
  have hfile := h.file
  have hbss := h.bss
  have hcounts := h.counts
  have hal2 : Assembly.addralign a.textSectionAlignment 2 < 2 ^ 64 := addralign_lt (by decide)
  have hal3 : Assembly.addralign a.dataSectionAlignment 3 < 2 ^ 64 := addralign_lt (by decide)
  have hnames : a.names.text < 2 ^ 32 ∧ a.names.data < 2 ^ 32 ∧ a.names.bss < 2 ^ 32 ∧
      a.names.symtab < 2 ^ 32 ∧ a.names.strtab < 2 ^ 32 ∧ a.names.shstrtab < 2 ^ 32 ∧
      a.names.relaText < 2 ^ 32 ∧ a.names.relaData < 2 ^ 32 := names_lt a.tname
  have hfirst : a.firstGlobal ≤ a.totalElfSyms := by
    unfold Assembly.firstGlobal Assembly.totalElfSyms
    have hle := List.length_filter_le isLocal a.symbols
    omega
  have hsyms : a.symtabSize = symSize * a.totalElfSyms := mul_comm _ _
  intro f hf
  simp only [Assembly.shdrs, List.mem_cons, List.not_mem_nil, or_false] at hsh
  rcases hsh with rfl | rfl | rfl | rfl | rfl | rfl | rfl | rfl | rfl <;>
    simp only [Elf64Shdr.fields, List.mem_cons, List.not_mem_nil, or_false] at hf <;>
    rcases hf with rfl | rfl | rfl | rfl | rfl | rfl | rfl | rfl | rfl | rfl <;>
    first
      | decide
      | (dsimp only [Assembly.textOff, ehdrSize, relaSize, symSize]; omega)

theorem Holdable.number_lt (h : Holdable a) (i : Nat) (hi : i < a.symbols.length) :
    a.emitted.symToElf i < 2 ^ 31 := by
  obtain ⟨k, es, -, hidx, hes, -⟩ := h.symbol (List.getElem?_eq_getElem hi)
  have hlt := (List.getElem?_eq_some_iff.1 hes).1
  have hcount := h.counts.1
  rw [length_emitted] at hlt
  omega

theorem Holdable.rela_parts (h : Holdable a) {r : Reloc} (hr : r ∈ a.textRelocs ++ a.dataRelocs) :
    (relaOf a.symbols.length a.emitted.symToElf r).type = r.type ∧
      (relaOf a.symbols.length a.emitted.symToElf r).sym =
        (if 0 ≤ r.symbolIdx ∧ r.symbolIdx < a.symbols.length
          then a.emitted.symToElf r.symbolIdx.toNat else 0) ∧
      Fits (relaOf a.symbols.length a.emitted.symToElf r).fields := by
  obtain ⟨hoffset, htype, haddend⟩ := h.relocs r hr
  have hlt : (if 0 ≤ r.symbolIdx ∧ r.symbolIdx < a.symbols.length
      then a.emitted.symToElf r.symbolIdx.toNat else 0) < 2 ^ 31 := by
    split
    · rename_i hin
      exact h.number_lt _ (by omega)
    · decide
  unfold relaOf Elf64Rela.type Elf64Rela.sym
  obtain ⟨hsym, htyp, hsum⟩ := @rInfoOf_parts (if 0 ≤ r.symbolIdx ∧
    r.symbolIdx < a.symbols.length then a.emitted.symToElf r.symbolIdx.toNat else 0) r.type
    (by omega)
  refine ⟨htyp, hsym, fun f hf => ?_⟩
  simp only [Elf64Rela.fields, List.mem_cons, List.not_mem_nil, or_false] at hf
  rcases hf with rfl | rfl | rfl <;> dsimp only <;> omega

/-- The reader of the linker accepts the file, and these are its sections. -/
theorem Holdable.read (h : Holdable a) (name : Name) :
    elfReadMemory a.elfWrite a.elfWrite.length name = .ok {
      filename := name
      data := a.elfWrite
      size := a.elfWrite.length
      shdrs := a.shdrs
      shstrtab := some a.shstrtabOff
      strtab := some a.strtabOff
      symtab := some a.emitted.elfSyms
      symtabShndx := SEC_SYMTAB } := by
  have hord := h.ordered
  have hparts := hord.parts
  have hsize := hord.size
  have hehdr : ehdrAt (fileBytesOf a.elfWrite) 0 = a.ehdr :=
    hparts.ehdr.record fun pre post => ehdrAt_encode pre post rfl h.fits_ehdr
  have hshdrs : ((List.range 9).map fun i =>
      shdrAt (fileBytesOf a.elfWrite) (a.shdrOff + shdrSize * i)) = a.shdrs :=
    hparts.shdrs.table length_shdr fun sh hsh pre post => shdrAt_encode pre post (h.fits_shdr hsh)
  have hcount : intCount (a.symtabSize / symSize) = a.emitted.elfSyms.length := by
    have hlt := h.counts.1
    rw [length_emitted]
    unfold intCount Assembly.symtabSize
    rw [Nat.mul_div_cancel _ (by decide), Nat.mod_eq_of_lt (by omega), if_pos hlt]
  have hsyms : symtabOf a.elfWrite ⟨a.names.symtab, shtSymtab, 0, 0, a.symtabOff, a.symtabSize,
      SEC_STRTAB, a.firstGlobal, 8, symSize⟩ = a.emitted.elfSyms := by
    unfold symtabOf
    rw [hcount]
    exact hparts.symtab.table length_sym fun es hes pre post => symAt_encode pre post (h.fits_sym hes)
  have hcheck : elfCheckHeader a.ehdr name = .ok () := rfl
  have hfits : ¬ a.elfWrite.length < (a.ehdr.eShoff + a.ehdr.eShnum * shdrSize) % 2 ^ 64 := by
    have hsum : a.ehdr.eShoff + a.ehdr.eShnum * shdrSize = a.shdrOff + 9 * shdrSize := rfl
    omega
  unfold elfReadMemory elfParseSections
  rw [if_neg (by unfold ehdrSize shdrSize at *; omega), hehdr, hcheck]
  dsimp only
  rw [if_neg hfits]
  have hnum : a.ehdr.eShnum = 9 := rfl
  have hoff : a.ehdr.eShoff = a.shdrOff := rfl
  rw [hnum, hoff, hshdrs]
  have hat : (a.shdrs.findIdx? fun sh => sh.shType == shtSymtab) = some 4 := rfl
  rw [hat]
  simp only [bind_some]
  have hget : a.shdrs[4]? = some ⟨a.names.symtab, shtSymtab, 0, 0, a.symtabOff, a.symtabSize,
      SEC_STRTAB, a.firstGlobal, 8, symSize⟩ := rfl
  rw [hget, map_some, hsyms]
  rfl

end

/-! ## The round trip -/

/-- The bytes of a section as the reader finds them. -/
def sectionBytes (obj : ObjectFile) (idx : Nat) : Option (List UInt8) :=
  (obj.sectionData idx).bind fun off =>
    obj.shdrs[idx]?.map fun sh => (obj.data.drop off).take sh.shSize

/-- A relocation as the linker reads it, against the one the assembler held: its symbol goes by the
number that symbol has in the file, 0 if it has none. -/
structure SameReloc (a : Assembly) (r : Reloc) (e : Elf64Rela) : Prop where
  offset : e.rOffset = r.offset
  type : e.type = r.type
  addend : e.rAddend = r.addend
  sym : ∀ i : Nat, r.symbolIdx = i → i < a.symbols.length → e.sym = a.emitted.symToElf i
  none : ¬ (0 ≤ r.symbolIdx ∧ r.symbolIdx < a.symbols.length) → e.sym = 0

/-- The linker's view of the file is what the assembler held. -/
structure RoundTrip (a : Assembly) (obj : ObjectFile) : Prop where
  text : sectionBytes obj SEC_TEXT = some a.text
  data : sectionBytes obj SEC_DATA = some a.data
  bss : ∃ sh, obj.shdrs[SEC_BSS]? = some sh ∧ sh.shType = shtNobits ∧ sh.shSize = a.bssSize
  /-- Every symbol is found under its number. -/
  symbols : ∀ i sym, a.symbols[i]? = some sym →
    obj.symbolName (a.emitted.symToElf i) = some sym.name ∧
      ∃ es, (obj.symtab.getD [])[a.emitted.symToElf i]? = some es ∧ es.type = sym.type ∧
        es.stShndx = shndxOf sym ∧ es.stValue = sym.value ∧ es.bind = bindOf sym
  /-- Different symbols have different numbers. -/
  numbers : ∀ i < a.symbols.length, ∀ j < a.symbols.length,
    a.emitted.symToElf i = a.emitted.symToElf j → i = j
  /-- Behind the null symbol and the three sections there is nothing but the symbols. -/
  only : ∀ k es, (obj.symtab.getD [])[k]? = some es → 4 ≤ k →
    ∃ i < a.symbols.length, a.emitted.symToElf i = k
  /-- Exactly the local symbols stand before `sh_info`. -/
  order : ∃ sh, obj.shdrs[obj.symtabShndx]? = some sh ∧
    ∀ k es, (obj.symtab.getD [])[k]? = some es → (es.bind = stbLocal ↔ k < sh.shInfo)
  textRelocs : List.Forall₂ (SameReloc a) a.textRelocs.reverse (obj.relasFor SEC_TEXT)
  dataRelocs : List.Forall₂ (SameReloc a) a.dataRelocs.reverse (obj.relasFor SEC_DATA)

section

variable {a : Assembly}

/-- Exactly the entries before `first_global` are local. -/
theorem Holdable.local_iff (h : Holdable a) {k : Nat} {es : Elf64Sym}
    (hk : a.emitted.elfSyms[k]? = some es) : es.bind = stbLocal ↔ k < a.firstGlobal := by
  rcases h.emitted_get hk with ⟨hlt, hstart⟩ | ⟨x, hx, hge, hdesc⟩
  · have hall : ∀ e ∈ emitStart.elfSyms, e.bind = stbLocal := by decide
    have hfirst : 4 ≤ a.firstGlobal := by
      unfold Assembly.firstGlobal
      omega
    exact iff_of_true (hall es (List.mem_of_getElem? hstart)) (by omega)
  have hlen := @length_loopEntries a.symbols isLocal stbLocal
  obtain ⟨hbind, hmem⟩ := mem_entries.1 (List.mem_of_getElem? hx)
  have hsym := List.mem_of_getElem? hmem
  have hparts := stInfoOf_parts (hbind ▸ bindOf_lt x.2.1) (h.type_lt hsym)
  have hes : es.bind = x.1 := by
    unfold Elf64Sym.bind
    rw [hdesc.info]
    exact hparts.1
  have hfirst : k < a.firstGlobal ↔ k - 4 < (loopEntries isLocal stbLocal 0 a.symbols).length := by
    unfold Assembly.firstGlobal
    omega
  rw [hes, hfirst]
  unfold entries at hx
  constructor
  · intro hlocal
    by_contra hnot
    rw [List.getElem?_append_right (Nat.le_of_not_lt hnot)] at hx
    have hglobal := (mem_loopEntries.1 (List.mem_of_getElem? hx)).1
    rw [hlocal] at hglobal
    exact absurd hglobal (by decide)
  · intro hlt
    rw [List.getElem?_append_left hlt] at hx
    exact (mem_loopEntries.1 (List.mem_of_getElem? hx)).1

/-- A relocation table is read back in the order in which its entries were added. -/
theorem Holdable.relas (h : Holdable a) {off : Nat} {relocs : List Reloc}
    (hin : ∀ r ∈ relocs, r ∈ a.textRelocs ++ a.dataRelocs) (hcount : relocs.length < 2 ^ 31)
    (hat : StandsAt a.elfWrite off
      ((relasOf a.symbols.length a.emitted.symToElf relocs).flatMap Elf64Rela.encode)) :
    List.Forall₂ (SameReloc a) relocs.reverse
      ((List.range (intCount (relocs.length * relaSize / relaSize))).map fun k =>
        relaAt (fileBytesOf a.elfWrite) (off + relaSize * k)) := by
  have hnum : intCount (relocs.length * relaSize / relaSize) =
      (relasOf a.symbols.length a.emitted.symToElf relocs).length := by
    rw [length_relasOf]
    unfold intCount
    rw [Nat.mul_div_cancel _ (by decide), Nat.mod_eq_of_lt (by omega), if_pos hcount]
  have hlist : relasOf a.symbols.length a.emitted.symToElf relocs =
      relocs.reverse.map (relaOf a.symbols.length a.emitted.symToElf) := by
    unfold relasOf
    rw [List.map_reverse]
  rw [hnum, hat.table length_rela, hlist]
  · rw [List.forall₂_map_right_iff, List.forall₂_same]
    intro r hr
    obtain ⟨htype, hsym, -⟩ := h.rela_parts (hin r (List.mem_reverse.1 hr))
    refine ⟨rfl, htype, rfl, fun i hi hlt => ?_, fun hnot => ?_⟩
    · rw [hsym, if_pos (by omega), hi]
      rfl
    · rw [hsym, if_neg hnot]
  intro e he pre post
  rw [hlist] at he
  obtain ⟨r, hr, rfl⟩ := List.mem_map.1 he
  exact relaAt_encode pre post (h.rela_parts (hin r (List.mem_reverse.1 hr))).2.2

end

/-- Reading the file that `elf_write` produces gives back what the assembler held. -/
theorem elf_round_trip {a : Assembly} (h : Holdable a) (name : Name) :
    ∃ obj, elfReadMemory a.elfWrite a.elfWrite.length name = .ok obj ∧ RoundTrip a obj := by
  refine ⟨_, h.read name, ?_⟩
  have hparts := h.ordered.parts
  refine ⟨?_, ?_, ?_, fun i sym hi => ?_, fun i hi j hj hij => ?_, fun k es hk hge => ?_, ?_, ?_, ?_⟩
  · exact congrArg some hparts.text.bytes
  · exact congrArg some hparts.data.bytes
  · exact ⟨_, rfl, rfl, rfl⟩
  · obtain ⟨k, es, -, hidx, hes, hdesc⟩ := h.symbol hi
    have hinfo := stInfoOf_parts (bindOf_lt sym) (h.type_lt (List.mem_of_getElem? hi))
    rw [hidx]
    refine ⟨?_, es, hes, ?_, hdesc.shndx, hdesc.value, ?_⟩
    · simp only [ObjectFile.symbolName, ObjectFile.nameOf, getD_some, hes, bind_some,
        if_neg hdesc.named]
      exact congrArg some (hparts.strtab.cstr hdesc.name hdesc.inside)
    · unfold Elf64Sym.type
      rw [hdesc.info]
      exact hinfo.2.1
    · unfold Elf64Sym.bind
      rw [hdesc.info]
      exact hinfo.1
  · obtain ⟨k, -, hk, hidx, -, -⟩ := h.symbol (List.getElem?_eq_getElem hi)
    obtain ⟨k', -, hk', hidx', -, -⟩ := h.symbol (List.getElem?_eq_getElem hj)
    obtain rfl : k = k' := by omega
    rw [hk] at hk'
    exact (Prod.mk.inj (Prod.mk.inj (some.inj hk')).2).2
  · rcases h.emitted_get hk with ⟨hlt, -⟩ | ⟨x, hx, -, -⟩
    · omega
    have hmem := (mem_entries.1 (List.mem_of_getElem? hx)).2
    refine ⟨x.2.2, (List.getElem?_eq_some_iff.1 hmem).1, ?_⟩
    rw [(h.entry hx).1]
    omega
  · exact ⟨_, rfl, fun k es hk => h.local_iff hk⟩
  · exact h.relas (fun r hr => List.mem_append_left _ hr) h.counts.2.1 hparts.relaText
  · exact h.relas (fun r hr => List.mem_append_right _ hr) h.counts.2.2 hparts.relaData

/-- A branch to an undefined symbol, and a local label behind it in the table. -/
def smallAssembly : Assembly where
  textSectionName := none
  text := [0, 0, 0, 0x94, 0, 0, 0, 0]
  data := [1, 2, 3]
  bssSize := 16
  textSectionAlignment := 0
  dataSectionAlignment := 4
  symbols := [⟨[0x66], .none, 0, stbLocal, sttNotype, 0, false, false⟩,
    ⟨[0x61], .text, 4, stbLocal, sttFunc, 0, true, false⟩]
  textRelocs := [⟨4, 257, 1, 8⟩, ⟨0, 283, 0, 0⟩]
  dataRelocs := []

/-- Two symbols and two relocations of the code. -/
theorem elf_round_trip_small :
    ∃ obj, elfReadMemory smallAssembly.elfWrite smallAssembly.elfWrite.length [0x6f] = .ok obj ∧
      RoundTrip smallAssembly obj :=
  elf_round_trip ⟨by decide, by decide, by decide, by decide, by decide, by decide, by decide,
    by decide +kernel, by decide +kernel⟩ [0x6f]

end Slopix.As
