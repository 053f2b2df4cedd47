import Mathlib.Algebra.BigOperators.Group.Finset.Piecewise
import Mathlib.Algebra.Order.BigOperators.Group.Finset
import Slopix.Ld.Output
import Slopix.Lib.Loop

/-!
# The layout the linker computes

Alignment never moves a place back. Merging therefore puts every input section at its own place in a
buffer, and the sections get addresses one behind the other, as long as the sizes and alignments of the
input sections together are small against 64 bits.
-/

namespace Slopix.Ld

open Lib Elf Function List BitVec Nat

/-! ## Alignment -/

section

variable {val align : Nat}

theorem and_complement {x m : Nat} (hx : x < 2 ^ 64) (hm : m < 2 ^ 64) :
    (x &&& (2 ^ 64 - 1 - m)) + (x &&& m) = x := by
  have hsplit : BitVec.ofNat 64 x &&& ~~~(BitVec.ofNat 64 m) &&& (BitVec.ofNat 64 x &&& BitVec.ofNat 64 m) =
      0#64 := by
    ext i hi
    simp only [getElem_and, getElem_not, BitVec.getElem_zero]
    cases (BitVec.ofNat 64 m)[i] <;> simp
  have hsum := add_eq_or_of_and_eq_zero _ _ hsplit
  have hor : BitVec.ofNat 64 x &&& ~~~(BitVec.ofNat 64 m) ||| BitVec.ofNat 64 x &&& BitVec.ofNat 64 m =
      BitVec.ofNat 64 x := by
    ext i hi
    simp only [getElem_and, getElem_not, getElem_or]
    cases (BitVec.ofNat 64 m)[i] <;> simp
  rw [hor] at hsum
  have hnat := congrArg BitVec.toNat hsum
  simp only [toNat_add, toNat_and, toNat_not, toNat_ofNat, mod_eq_of_lt hx, mod_eq_of_lt hm] at hnat
  have hle : x &&& m ≤ x := and_le_left
  have hle' : x &&& (2 ^ 64 - 1 - m) ≤ x := and_le_left
  by_cases hlt : (x &&& (2 ^ 64 - 1 - m)) + (x &&& m) < 2 ^ 64
  · rwa [mod_eq_of_lt hlt] at hnat
  · omega

theorem alignUp_bounds (h : val + align ≤ 2 ^ 64) :
    val ≤ alignUp val align ∧ alignUp val align ≤ val + align := by
  unfold alignUp
  split
  · omega
  rw [mod_eq_of_lt (by omega)]
  have hsplit := @and_complement (val + align - 1) (align - 1) (by omega) (by omega)
  have hle : (val + align - 1) &&& (align - 1) ≤ align - 1 := and_le_right
  omega

/-- Aligning to a power of two. -/
theorem alignUp_pow {k : Nat} (hk : k < 64) (val : Nat) : alignUp val (2 ^ k) = (val + 2 ^ k - 1) % 2 ^ 64 / 2 ^ k * 2 ^ k := by
  have hpos := Nat.two_pow_pos k
  have hlt : 2 ^ k < 2 ^ 64 := Nat.pow_lt_pow_right (by decide) hk
  have hx : (val + 2 ^ k - 1) % 2 ^ 64 < 2 ^ 64 := mod_lt _ (by decide)
  unfold alignUp
  rw [if_neg hpos.ne']
  generalize (val + 2 ^ k - 1) % 2 ^ 64 = x at hx ⊢
  have hsplit := @and_complement x (2 ^ k - 1) hx (by omega)
  rw [and_two_pow_sub_one_eq_mod] at hsplit
  have hdiv := Nat.div_add_mod' x (2 ^ k)
  omega

theorem pageUp_eq (h : val + PAGE_SIZE ≤ 2 ^ 64) : pageUp val = (val + 4095) / 4096 * 4096 := by
  unfold PAGE_SIZE at h
  have hsplit := @and_complement (val + 0x1000 - 1) (0x1000 - 1) (by omega) (by omega)
  have hmod := and_two_pow_sub_one_eq_mod (val + 0x1000 - 1) 12
  unfold pageUp alignUp PAGE_SIZE
  rw [if_neg (by omega), mod_eq_of_lt (by omega)]
  norm_num at hmod hsplit ⊢
  omega

end

/-! ## Merging -/

/-- An input section: the object, its place among the objects, and the number of the section. -/
structure InputRef where
  obj : ObjectFile
  file : Nat
  shndx : Nat

/-- The input sections in the order `merge_sections` goes over them. -/
def inputs (objects : List ObjectFile) : List InputRef :=
  objects.zipIdx.flatMap fun o => (List.range' 1 (o.1.shdrs.length - 1)).map fun j => ⟨o.1, o.2, j⟩

/-- Room for an allocated section: its size, and its alignment once for the place of the piece and once
for that of the output section. -/
def InputRef.room (x : InputRef) : Nat :=
  match x.obj.shdrs[x.shndx]? with
  | some sh => if sh.shFlags &&& shfAlloc = 0 then 0 else sh.shSize + 2 * max 1 sh.shAddralign
  | none => 0

/-- Room for all allocated sections. -/
def linkRoom (objects : List ObjectFile) : Nat := ((inputs objects).map InputRef.room).sum

/-- The sizes and alignments of the output sections. -/
def extent (secs : Sections) : Nat := ∑ i ∈ Finset.range KOUT_COUNT, ((secs i).size + (secs i).alignment)

/-- The header of the input section that a piece comes from. -/
def pieceHeader (objects : List ObjectFile) (p : SectionPiece) : Option Elf64Shdr :=
  objects[p.file]?.bind fun obj => obj.shdrs[p.inputShndx]?

/-- Every piece lies in the section, and one with bytes stands in the buffer. -/
structure Filled (objects : List ObjectFile) (sec : OutputSection) : Prop where
  buffer : sec.data.length ≤ sec.size
  piece : ∀ p ∈ sec.pieces, ∃ obj sh, objects[p.file]? = some obj ∧
    obj.shdrs[p.inputShndx]? = some sh ∧ p.size = sh.shSize ∧ p.outputOffset + p.size ≤ sec.size ∧
    (sh.shType ≠ shtNobits → 0 < p.size → StandsAt sec.data p.outputOffset (inputBytes obj sh))

section

variable {junk : Nat → UInt8} {junks : Nat → Nat → UInt8} {categorize : Name → Nat → Option Nat}
  {objects : List ObjectFile} {obj : ObjectFile} {sh : Elf64Shdr} {file j : Nat}
  {out : OutputSection} {secs : Sections}

theorem mem_inputs {x : InputRef} (hx : x ∈ inputs objects) : objects[x.file]? = some x.obj := by
  obtain ⟨o, ho, hx⟩ := mem_flatMap.1 hx
  obtain ⟨j, hj, rfl⟩ := mem_map.1 hx
  exact List.mem_zipIdx_iff_getElem?.1 ho

theorem mergeSections_eq :
    mergeSections junks categorize objects secs =
      (inputs objects).foldl (fun s x => mergeSection junks categorize x.file x.obj s x.shndx) secs := by
  unfold mergeSections inputs
  rw [foldl_flatMap]
  congr 1
  funext s o
  rw [foldl_map]
  rfl

theorem addInput_filled (h : Filled objects out) (hobj : objects[file]? = some obj)
    (hsh : obj.shdrs[j]? = some sh) (hroom : out.size + sh.shSize + max 1 sh.shAddralign ≤ 2 ^ 63) :
    Filled objects (addInput junk file obj j sh out) ∧
      (addInput junk file obj j sh out).size + (addInput junk file obj j sh out).alignment ≤
        out.size + out.alignment + (sh.shSize + 2 * max 1 sh.shAddralign) := by
  generalize halign : (if sh.shAddralign = 0 then 1 else sh.shAddralign) = align
  have hpos : align = max 1 sh.shAddralign := by
    rw [← halign]
    split <;> omega
  obtain ⟨hge, hlt⟩ := @alignUp_bounds out.size align (by omega)
  have hnowrap : (alignUp out.size align + sh.shSize) % 2 ^ 64 = alignUp out.size align + sh.shSize :=
    mod_eq_of_lt (by omega)
  have hbuffer := h.buffer
  have hlength : (if sh.shType ≠ shtNobits ∧ 0 < sh.shSize then
      out.data ++ (List.range' out.data.length (out.size - out.data.length)).map junk ++
        List.replicate (alignUp out.size align - out.size) 0 ++ inputBytes obj sh
      else out.data).length ≤ alignUp out.size align + sh.shSize := by
    split
    · simp only [length_append, length_map, length_range', length_replicate, inputBytes, length_getBytes]
      omega
    · omega
  unfold addInput
  rw [halign]
  dsimp only
  rw [hnowrap]
  refine ⟨⟨hlength, fun p hp => ?_⟩, ?_⟩
  · rcases mem_append.1 hp with hp | hp
    · -- an old piece: the buffer only grows behind it
      obtain ⟨obj', sh', hobj', hsh', hsize, hend, hbytes⟩ := h.piece p hp
      refine ⟨obj', sh', hobj', hsh', hsize, by dsimp only; omega, fun hbits h0 => ?_⟩
      have hold := hbytes hbits h0
      dsimp only
      split
      · exact StandsAt.append (StandsAt.append (StandsAt.append hold _) _) _
      · exact hold
    rw [mem_singleton] at hp
    subst hp
    refine ⟨obj, sh, hobj, hsh, rfl, le_refl _, fun hbits h0 => ?_⟩
    dsimp only at h0 ⊢
    rw [if_pos ⟨hbits, h0⟩]
    refine ⟨_, [], by rw [append_nil], ?_⟩
    simp only [length_append, length_map, length_range', length_replicate]
    omega
  · split <;> omega

theorem size_le_extent {c : Nat} (hc : c < KOUT_COUNT) : (secs c).size + (secs c).alignment ≤ extent secs :=
  Finset.single_le_sum (f := fun i => (secs i).size + (secs i).alignment)
    (fun _ _ => zero_le _) (Finset.mem_range.2 hc)

theorem extent_update {c w : Nat} (hc : c < KOUT_COUNT)
    (hw : out.size + out.alignment ≤ (secs c).size + (secs c).alignment + w) :
    extent (update secs c out) ≤ extent secs + w := by
  calc extent (update secs c out)
      ≤ ∑ i ∈ Finset.range KOUT_COUNT, (((secs i).size + (secs i).alignment) + if i = c then w else 0) := by
        refine Finset.sum_le_sum fun i _ => ?_
        by_cases hi : i = c
        · subst hi
          rw [update_self, if_pos rfl]
          exact hw
        · rw [update_of_ne hi, if_neg hi]
          exact le_refl _
    _ = extent secs + w := by
        rw [Finset.sum_add_distrib, Finset.sum_ite_eq', if_pos (Finset.mem_range.2 hc)]
        rfl

/-- One pass of the loop leaves the sections alone, or adds an allocated input section to one of them. -/
theorem mergeSection_cases (x : InputRef) :
    mergeSection junks categorize x.file x.obj secs x.shndx = secs ∨
      ∃ sh name c, x.obj.shdrs[x.shndx]? = some sh ∧ categorize name sh.shFlags = some c ∧
        mergeSection junks categorize x.file x.obj secs x.shndx =
          update secs c (addInput (junks c) x.file x.obj x.shndx sh (secs c)) := by
  unfold mergeSection
  split
  · rename_i sh name hsh hname
    split
    · rename_i c hc
      exact .inr ⟨sh, name, c, hsh, hc, rfl⟩
    · exact .inl rfl
  · exact .inl rfl

/-- What merging keeps of the sections it started with. -/
structure Merged (objects : List ObjectFile) (init secs : Sections) : Prop where
  filled : ∀ i, Filled objects (secs i)
  kept : ∀ i, (secs i).type = (init i).type ∧ (secs i).addr = (init i).addr ∧
    (secs i).lma = (init i).lma

/-- Merging puts every allocated input section into the buffer of its output section. -/
theorem mergeSections_merged {init : Sections}
    (hcat : ∀ name flags c, categorize name flags = some c → c < KOUT_COUNT ∧ flags &&& shfAlloc ≠ 0)
    (hinit : ∀ i, (init i).data = [] ∧ (init i).pieces = [])
    (hroom : extent init + linkRoom objects ≤ 2 ^ 62) :
    Merged objects init (mergeSections junks categorize objects init) ∧
      extent (mergeSections junks categorize objects init) ≤ extent init + linkRoom objects := by
  rw [mergeSections_eq]
  refine foldl_measure (fun s x hx hI hbound => ?_) ⟨fun i => ?_, fun i => ⟨rfl, rfl, rfl⟩⟩ hroom
  · -- one input section
    have hobj := mem_inputs hx
    rcases @mergeSection_cases junks categorize s x with hskip | ⟨sh, name, c, hsh, hc, hadd⟩
    · rw [hskip]
      exact ⟨hI, le_add_right _ _⟩
    rw [hadd]
    obtain ⟨hlt, halloc⟩ := hcat _ _ _ hc
    have hx : x.room = sh.shSize + 2 * max 1 sh.shAddralign := by
      unfold InputRef.room
      rw [hsh]
      exact if_neg halloc
    rw [hx] at hbound ⊢
    have hsize := @size_le_extent s c hlt
    obtain ⟨hfill, hgrow⟩ := @addInput_filled (junks c) objects x.obj sh x.file x.shndx (s c)
      (hI.filled c) hobj hsh (by omega)
    refine ⟨⟨fun i => ?_, fun i => ?_⟩, extent_update hlt hgrow⟩
    · by_cases hi : i = c
      · subst hi
        rw [update_self]
        exact hfill
      · rw [update_of_ne hi]
        exact hI.filled i
    by_cases hi : i = c
    · subst hi
      rw [update_self]
      exact hI.kept i
    · rw [update_of_ne hi]
      exact hI.kept i
  · obtain ⟨hdata, hpieces⟩ := hinit i
    exact ⟨by rw [hdata]; exact zero_le _, by rw [hpieces]; simp⟩

end

/-! ## Addresses -/

/-- The user sections have addresses in their order, and the data starts on a page of its own. -/
structure Placed (secs : Sections) : Prop where
  empty : ∀ i, (secs i).size = 0 → (secs i).addr = 0
  text : 0 < (secs OUT_TEXT).size → TEXT_BASE ≤ (secs OUT_TEXT).addr
  rodata : 0 < (secs OUT_RODATA).size → TEXT_BASE ≤ (secs OUT_RODATA).addr ∧
    (secs OUT_TEXT).addr + (secs OUT_TEXT).size ≤ (secs OUT_RODATA).addr
  page : ∃ q, (secs OUT_TEXT).addr + (secs OUT_TEXT).size ≤ 4096 * q ∧
    (secs OUT_RODATA).addr + (secs OUT_RODATA).size ≤ 4096 * q ∧
    (0 < (secs OUT_DATA).size → 4096 * q ≤ (secs OUT_DATA).addr) ∧
    (0 < (secs OUT_BSS).size → 4096 * q ≤ (secs OUT_BSS).addr)
  bss : 0 < (secs OUT_BSS).size →
    (secs OUT_DATA).addr + (secs OUT_DATA).size ≤ (secs OUT_BSS).addr
  fits : ∀ i, 0 < i → i < OUT_COUNT → (secs i).addr + (secs i).size + 2 ^ 16 ≤ 2 ^ 48

/-- A section before it has an address. -/
def OutputSection.unplaced (sec : OutputSection) : OutputSection := { sec with addr := 0, lma := 0 }

/-- The sections differ at most in their addresses. -/
def SameContents (secs secs' : Sections) : Prop := ∀ i, (secs' i).unplaced = (secs i).unplaced

theorem SameContents.size {secs secs' : Sections} (h : SameContents secs secs') (i : Nat) :
    (secs' i).size = (secs i).size := by
  have hi := congrArg OutputSection.size (h i)
  exact hi

section

variable {secs : Sections} {i next : Nat}

theorem placeSection_spec (h : next + (secs i).size + (secs i).alignment ≤ 2 ^ 63) :
    ∃ secs' next', placeSection (secs, next) i = (secs', next') ∧
      next ≤ next' ∧ next' ≤ next + (secs i).size + (secs i).alignment ∧
      (∀ k, k ≠ i → secs' k = secs k) ∧
      (secs' i).unplaced = (secs i).unplaced ∧
      ((secs i).size = 0 → (secs' i).addr = (secs i).addr) ∧
      (0 < (secs i).size → next ≤ (secs' i).addr ∧ (secs' i).addr + (secs i).size = next') := by
  unfold placeSection
  dsimp only
  split
  · rename_i h0
    exact ⟨secs, next, rfl, le_refl _, by omega, fun _ _ => rfl, rfl, fun _ => rfl, fun _ => by omega⟩
  obtain ⟨hge, hle⟩ := @alignUp_bounds next (secs i).alignment (by omega)
  refine ⟨_, _, rfl, ?_, ?_, fun k hk => update_of_ne hk _ _, ?_, fun h0 => ?_, fun _ => ?_⟩
  · rw [mod_eq_of_lt (by omega)]
    omega
  · rw [mod_eq_of_lt (by omega)]
    omega
  · rw [update_self]
    rfl
  · omega
  · rw [update_self, mod_eq_of_lt (by omega)]
    exact ⟨hge, rfl⟩

theorem extent_eq (secs : Sections) :
    extent secs = (secs 0).size + (secs 0).alignment + ((secs 1).size + (secs 1).alignment) +
      ((secs 2).size + (secs 2).alignment) + ((secs 3).size + (secs 3).alignment) +
      ((secs 4).size + (secs 4).alignment) + ((secs 5).size + (secs 5).alignment) +
      ((secs 6).size + (secs 6).alignment) := by
  simp only [extent, KOUT_COUNT, Finset.sum_range_succ, Finset.sum_range_zero, zero_add]

/-- The sections of a user program lie one behind the other. -/
theorem assignAddresses_placed (hzero : ∀ i, (secs i).addr = 0)
    (hext : extent secs + 2 ^ 18 ≤ 2 ^ 48) :
    Placed (assignAddresses secs) ∧ SameContents secs (assignAddresses secs) := by
  rw [extent_eq] at hext
  obtain ⟨s1, n1, e1, lo1, hi1, k1, c1, z1, p1⟩ := @placeSection_spec secs 1 0x10000 (by omega)
  have h2 : s1 2 = secs 2 := k1 2 (by decide)
  obtain ⟨s2, n2, e2, lo2, hi2, k2, c2, z2, p2⟩ := @placeSection_spec s1 2 n1 (by rw [h2]; omega)
  rw [h2] at hi2 c2 z2 p2
  -- the data goes to the next page
  have hpage : alignUp n2 PAGE_SIZE = (n2 + 4095) / 4096 * 4096 :=
    pageUp_eq (by unfold PAGE_SIZE; omega)
  have h3 : s2 3 = secs 3 := (k2 3 (by decide)).trans (k1 3 (by decide))
  obtain ⟨s3, n3, e3, lo3, hi3, k3, c3, z3, p3⟩ :=
    @placeSection_spec s2 3 (alignUp n2 PAGE_SIZE) (by rw [h3, hpage]; omega)
  rw [h3] at hi3 c3 z3 p3
  have h4 : s3 4 = secs 4 := (k3 4 (by decide)).trans ((k2 4 (by decide)).trans (k1 4 (by decide)))
  obtain ⟨s4, n4, e4, lo4, hi4, k4, c4, z4, p4⟩ := @placeSection_spec s3 4 n3 (by rw [h4]; omega)
  rw [h4] at hi4 c4 z4 p4
  have heq : assignAddresses secs = s4 := by
    simp only [assignAddresses, OUT_TEXT, OUT_RODATA, OUT_DATA, OUT_BSS, TEXT_BASE, foldl_cons,
      foldl_nil, e1, e2, e3, e4]
  have f1 : s4 1 = s1 1 := (k4 1 (by decide)).trans ((k3 1 (by decide)).trans (k2 1 (by decide)))
  have f2 : s4 2 = s2 2 := (k4 2 (by decide)).trans (k3 2 (by decide))
  have f3 : s4 3 = s3 3 := k4 3 (by decide)
  have hsame : SameContents secs s4 := by
    intro i
    by_cases h : i = 1 ∨ i = 2 ∨ i = 3 ∨ i = 4
    · rcases h with rfl | rfl | rfl | rfl
      · rw [f1, c1]
      · rw [f2, c2]
      · rw [f3, c3]
      · exact c4
    · rw [k4 i (by omega), k3 i (by omega), k2 i (by omega), k1 i (by omega)]
  have hsize := hsame.size
  have hz : ∀ i, (s4 i).size = 0 → (s4 i).addr = 0 := by
    intro i h0
    rw [hsize] at h0
    by_cases h : i = 1 ∨ i = 2 ∨ i = 3 ∨ i = 4
    · rcases h with rfl | rfl | rfl | rfl
      · rw [f1, z1 h0, hzero]
      · rw [f2, z2 h0, hzero]
      · rw [f3, z3 h0, hzero]
      · rw [z4 h0, hzero]
    · rw [k4 i (by omega), k3 i (by omega), k2 i (by omega), k1 i (by omega), hzero]
  rw [heq]
  have a1 : (s4 1).addr = (s1 1).addr := by rw [f1]
  have a2 : (s4 2).addr = (s2 2).addr := by rw [f2]
  have a3 : (s4 3).addr = (s3 3).addr := by rw [f3]
  have hz1 := hz 1
  have hz2 := hz 2
  have hz3 := hz 3
  have hz4 := hz 4
  simp only [hsize, a1, a2, a3] at hz1 hz2 hz3 hz4
  have hend1 : (s1 1).addr + (secs 1).size ≤ n1 := by omega
  have hend3 : (s3 3).addr + (secs 3).size ≤ n3 := by omega
  refine ⟨⟨hz, ?_, ?_, ⟨(n2 + 4095) / 4096, ?_⟩, ?_, fun i h0 hlt => ?_⟩, hsame⟩
  · simp only [OUT_TEXT, TEXT_BASE, hsize, a1]
    exact fun h0 => (p1 h0).1
  · simp only [OUT_TEXT, OUT_RODATA, TEXT_BASE, hsize, a1, a2]
    exact fun h0 => ⟨le_trans lo1 (p2 h0).1, le_trans hend1 (p2 h0).1⟩
  · simp only [OUT_TEXT, OUT_RODATA, OUT_DATA, OUT_BSS, hsize, a1, a2, a3]
    rw [hpage] at p3 lo3
    refine ⟨by omega, by omega, fun h0 => ?_, fun h0 => ?_⟩
    · rw [mul_comm]
      exact (p3 h0).1
    · rw [mul_comm]
      exact le_trans lo3 (p4 h0).1
  · simp only [OUT_DATA, OUT_BSS, hsize, a3]
    exact fun h0 => le_trans hend3 (p4 h0).1
  have hi : i = 1 ∨ i = 2 ∨ i = 3 ∨ i = 4 := by
    unfold OUT_COUNT at hlt
    omega
  rcases hi with rfl | rfl | rfl | rfl
  · rw [hsize, a1]
    omega
  · rw [hsize, a2]
    omega
  · rw [hsize, a3]
    omega
  · rw [hsize]
    omega

end

/-! ## The linked sections -/

/-- Every piece lies in its section, and one with bytes in the buffer. -/
structure Laid (objects : List ObjectFile) (sec : OutputSection) : Prop where
  buffer : sec.data.length ≤ sec.size
  piece : ∀ p ∈ sec.pieces, ∃ sh, pieceHeader objects p = some sh ∧ p.size = sh.shSize ∧
    p.outputOffset + p.size ≤ sec.size ∧
    (sh.shType ≠ shtNobits → 0 < p.size → p.outputOffset + p.size ≤ sec.data.length)

section

variable {junk : Nat → Nat → UInt8} {objects : List ObjectFile} {global global' : SymbolTable}
  {sec sec' : OutputSection} {secs secs' : Sections}

theorem Filled.laid (h : Filled objects sec) : Laid objects sec := by
  refine ⟨h.buffer, fun p hp => ?_⟩
  obtain ⟨obj, sh, hobj, hsh, hsize, hend, hbytes⟩ := h.piece p hp
  refine ⟨sh, ?_, hsize, hend, fun hbits h0 => ?_⟩
  · unfold pieceHeader
    rw [hobj]
    exact hsh
  · obtain ⟨pre, post, hdata, hpre⟩ := hbytes hbits h0
    rw [hdata, length_append, length_append, inputBytes, length_getBytes, hpre, hsize]
    omega

/-- Only the size, the pieces and the length of the buffer matter. -/
theorem Laid.congr (h : Laid objects sec) (hsize : sec'.size = sec.size)
    (hpieces : sec'.pieces = sec.pieces) (hlength : sec'.data.length = sec.data.length) :
    Laid objects sec' := by
  refine ⟨by rw [hlength, hsize]; exact h.buffer, fun p hp => ?_⟩
  rw [hpieces] at hp
  rw [hsize, hlength]
  exact h.piece p hp

theorem Placed.congr (h : Placed secs)
    (hsame : ∀ i, (secs' i).size = (secs i).size ∧ (secs' i).addr = (secs i).addr) :
    Placed secs' := by
  have hsize := fun i => (hsame i).1
  have haddr := fun i => (hsame i).2
  refine ⟨fun i => ?_, ?_, ?_, ?_, ?_, fun i => ?_⟩
  · rw [hsize, haddr]
    exact h.empty i
  · rw [hsize, haddr]
    exact h.text
  · simp only [hsize, haddr]
    exact h.rodata
  · simp only [hsize, haddr]
    exact h.page
  · simp only [hsize, haddr]
    exact h.bss
  · rw [hsize, haddr]
    exact h.fits i

theorem SameLayout.fields (h : SameLayout secs secs') (i : Nat) :
    (secs' i).data.length = (secs i).data.length ∧ (secs' i).size = (secs i).size ∧
      (secs' i).pieces = (secs i).pieces ∧ (secs' i).addr = (secs i).addr ∧
      (secs' i).lma = (secs i).lma ∧ (secs' i).type = (secs i).type := by
  obtain ⟨hlength, hrest⟩ := h i
  have hsize := congrArg OutputSection.size hrest
  have hpieces := congrArg OutputSection.pieces hrest
  have haddr := congrArg OutputSection.addr hrest
  have hlma := congrArg OutputSection.lma hrest
  have htype := congrArg OutputSection.type hrest
  exact ⟨hlength, hsize, hpieces, haddr, hlma, htype⟩

theorem SameContents.fields (h : SameContents secs secs') (i : Nat) :
    (secs' i).data = (secs i).data ∧ (secs' i).pieces = (secs i).pieces ∧
      (secs' i).type = (secs i).type := by
  have hdata := congrArg OutputSection.data (h i)
  have hpieces := congrArg OutputSection.pieces (h i)
  have htype := congrArg OutputSection.type (h i)
  exact ⟨hdata, hpieces, htype⟩

theorem categorizeSection_lt (name : Name) (flags c : Nat) (h : categorizeSection name flags = some c) :
    c < KOUT_COUNT ∧ flags &&& shfAlloc ≠ 0 := by
  unfold categorizeSection at h
  split at h
  · cases h
  rename_i halloc
  refine ⟨?_, halloc⟩
  repeat' split at h
  all_goals cases h
  all_goals decide

/-- What `ld` has in user mode when everything is relocated: the sections have their addresses, and every
piece its place. -/
theorem linkUser_layout (h : linkUser junk objects global = .ok (secs, global'))
    (hroom : linkRoom objects + 2 ^ 20 ≤ 2 ^ 48) : Placed secs ∧ ∀ i, Laid objects (secs i) := by
  have hinit : extent userSections = 56 := by decide
  obtain ⟨⟨hfilled, hkept⟩, hextent⟩ := @mergeSections_merged junk categorizeSection objects userSections
    categorizeSection_lt (fun _ => ⟨rfl, rfl⟩) (by omega)
  obtain ⟨hplaced, hcontents⟩ := @assignAddresses_placed
    (mergeSections junk categorizeSection objects userSections) (fun i => (hkept i).2.1) (by omega)
  unfold linkUser at h
  dsimp only at h
  split at h
  · cases h
  rename_i secs' hreloc
  cases h
  have hlayout := (applyRelocations_layout hreloc).fields
  refine ⟨hplaced.congr fun i => ⟨(hlayout i).2.1, (hlayout i).2.2.2.1⟩, fun i => ?_⟩
  refine (hfilled i).laid.congr ?_ ?_ ?_
  · rw [(hlayout i).2.1, hcontents.size]
  · rw [(hlayout i).2.2.1, (hcontents.fields i).2.1]
  · rw [(hlayout i).1, (hcontents.fields i).1]

theorem categorizeSectionKernel_lt (name : Name) (flags c : Nat)
    (h : categorizeSectionKernel name flags = some c) : c < KOUT_COUNT ∧ flags &&& shfAlloc ≠ 0 := by
  unfold categorizeSectionKernel at h
  split at h
  · cases h
  rename_i halloc
  refine ⟨?_, halloc⟩
  repeat' split at h
  all_goals cases h
  all_goals decide

/-- The load addresses are far from the end of 64 bits. -/
def LmaFits (secs : Sections) : Prop := ∀ i < KOUT_COUNT, (secs i).lma + (secs i).size ≤ 2 ^ 62

/-- The sections of kernel mode while they get their addresses. -/
def Placing (init secs : Sections) : Prop := LmaFits secs ∧ SameContents init secs

/-- One more section has its address. -/
theorem Placing.update {init : Sections} (h : Placing init secs) {i : Nat}
    (hsame : sec.unplaced = (secs i).unplaced) (hfits : sec.lma + sec.size ≤ 2 ^ 62) :
    Placing init (update secs i sec) := by
  refine ⟨fun k hlt => ?_, fun k => ?_⟩
  · by_cases hk : k = i
    · subst hk
      rw [update_self]
      exact hfits
    · rw [update_of_ne hk]
      exact h.1 k hlt
  by_cases hk : k = i
  · subst hk
    rw [update_self, hsame]
    exact h.2 k
  · rw [update_of_ne hk]
    exact h.2 k

theorem placeLow_placing {init : Sections} (h : Placing init secs) {i phys : Nat}
    (hphys : phys + (init i).size ≤ 2 ^ 62) :
    Placing init (placeLow secs i phys).1 ∧ (placeLow secs i phys).2 ≤ phys + (init i).size := by
  have hsize := h.2.size i
  unfold placeLow
  dsimp only
  split
  · exact ⟨h, le_add_right _ _⟩
  · dsimp only
    rw [← hsize] at hphys ⊢
    exact ⟨h.update rfl hphys, mod_le _ _⟩

theorem placeKernelSection_placing {init : Sections} {st : Sections × Nat × Nat} (h : Placing init st.1)
    {i : Nat} (hphys : st.2.1 + ((init i).size + (init i).alignment) ≤ 2 ^ 62) :
    Placing init (placeKernelSection st i).1 ∧
      (placeKernelSection st i).2.1 ≤ st.2.1 + ((init i).size + (init i).alignment) := by
  have hsize := h.2.size i
  have halign := congrArg OutputSection.alignment (h.2 i)
  have halign : (st.1 i).alignment = (init i).alignment := halign
  unfold placeKernelSection
  dsimp only
  split
  · exact ⟨h, le_add_right _ _⟩
  obtain ⟨hge, hle⟩ := @alignUp_bounds st.2.1 (st.1 i).alignment (by omega)
  refine ⟨h.update rfl (by dsimp only; omega), le_trans (mod_le _ _) (by omega)⟩

theorem assignAddressesKernel_placing (hlma : ∀ i, (secs i).lma = 0) (hext : extent secs ≤ 2 ^ 48) :
    Placing secs (assignAddressesKernel secs) := by
  have hstart : Placing secs secs := by
    refine ⟨fun i hi => ?_, fun _ => rfl⟩
    have hsize := @size_le_extent secs i hi
    rw [hlma]
    omega
  have hsum := extent_eq secs
  have hboot := @size_le_extent secs KOUT_TEXT_BOOT (by decide)
  have htables := @size_le_extent secs KOUT_TABLES (by decide)
  unfold assignAddressesKernel
  obtain ⟨h1, hend1⟩ := @placeLow_placing secs secs hstart KOUT_TEXT_BOOT KERNEL_PHYS_BASE
    (by unfold KERNEL_PHYS_BASE; omega)
  rcases hr1 : placeLow secs KOUT_TEXT_BOOT KERNEL_PHYS_BASE with ⟨s1, n1⟩
  rw [hr1] at h1 hend1
  unfold KERNEL_PHYS_BASE at hend1
  dsimp only at h1 hend1 ⊢
  obtain ⟨hge, hle⟩ := @alignUp_bounds n1 0x1000 (by omega)
  obtain ⟨h2, -⟩ := @placeLow_placing s1 secs h1 KOUT_TABLES (alignUp n1 0x1000) (by omega)
  rcases hr2 : placeLow s1 KOUT_TABLES (alignUp n1 0x1000) with ⟨s2, n2⟩
  rw [hr2] at h2
  refine (@foldl_measure _ _ placeKernelSection (fun st => Placing secs st.1) (fun st => st.2.1)
    (fun i => (secs i).size + (secs i).alignment) (2 ^ 62) _ _
    (fun st i _ hI hb => placeKernelSection_placing hI hb) h2 ?_).1
  simp only [map_cons, map_nil, sum_cons, sum_nil, KOUT_TEXT, KOUT_RODATA,
    KOUT_DATA, KOUT_BSS, KERNEL_PHYS_BASE, KERNEL_BOOT_SIZE]
  omega

/-- What `ld` has in kernel mode when everything is relocated. -/
theorem linkKernel_layout (h : linkKernel junk objects global = .ok (secs, global'))
    (hroom : linkRoom objects + 2 ^ 20 ≤ 2 ^ 48) :
    LmaFits secs ∧ (∀ i, Laid objects (secs i)) ∧ ∀ i, (secs i).type = (kernelSections i).type := by
  have hinit : extent kernelSections = 56 := by decide
  obtain ⟨⟨hfilled, hkept⟩, hextent⟩ := @mergeSections_merged junk categorizeSectionKernel objects
    kernelSections categorizeSectionKernel_lt (fun _ => ⟨rfl, rfl⟩) (by omega)
  obtain ⟨hfits, hcontents⟩ := @assignAddressesKernel_placing
    (mergeSections junk categorizeSectionKernel objects kernelSections) (fun i => (hkept i).2.2) (by omega)
  unfold linkKernel at h
  dsimp only at h
  split at h
  · cases h
  rename_i secs' hreloc
  cases h
  have hlayout := (applyRelocations_layout hreloc).fields
  refine ⟨fun i hi => ?_, fun i => ?_, fun i => ?_⟩
  · rw [(hlayout i).2.2.2.2.1, (hlayout i).2.1]
    exact hfits i hi
  · refine (hfilled i).laid.congr ?_ ?_ ?_
    · rw [(hlayout i).2.1, hcontents.size]
    · rw [(hlayout i).2.2.1, (hcontents.fields i).2.1]
    · rw [(hlayout i).1, (hcontents.fields i).1]
  · rw [(hlayout i).2.2.2.2.2, (hcontents.fields i).2.2]
    exact (hkept i).1

end

end Slopix.Ld
