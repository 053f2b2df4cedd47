import Slopix.Ld.Complete

/-!
# The pieces of an output section

What `merge_sections` owes an output section: its pieces in order, aligned and apart, its size the end of the last
one, and a buffer that holds the bytes of every piece at its offset and zeros between them. A piece without bytes
moves the size but not the buffer, so that the two drift apart where such a piece leaves a gap.
-/

namespace Slopix.Ld

open Lib Elf List

/-- An input section with its object, as it is sorted into an output section. -/
abbrev Member := InputRef × Elf64Shdr

/-- The bytes of a piece; a section of type `SHT_NOBITS` stands for zeros. -/
def memberBytes (y : Member) : List UInt8 :=
  if y.2.shType = shtNobits then List.replicate y.2.shSize 0 else inputBytes y.1.obj y.2

/-- Where the piece ends. -/
def SectionPiece.stop (p : SectionPiece) : Nat := p.outputOffset + p.size

/-- A piece of the input section, at a multiple of its alignment. -/
structure PieceOf (p : SectionPiece) (y : Member) : Prop where
  file : p.file = y.1.file
  shndx : p.inputShndx = y.1.shndx
  size : p.size = y.2.shSize
  aligned : inputAlign y.2 ∣ p.outputOffset

/-- The buffer has the bytes of the pieces, and zeros outside them. -/
structure Initialised (pieces : List SectionPiece) (ys : List Member) (size : Nat) (data : List UInt8) : Prop where
  length : data.length = size
  stands : List.Forall₂ (fun (p : SectionPiece) y => StandsAt data p.outputOffset (memberBytes y)) pieces ys
  gaps : ∀ k < size, (∀ p ∈ pieces, k < p.outputOffset ∨ p.stop ≤ k) → data[k]? = some 0

/-- An output section as it should be after the merge. -/
structure LaidOut (out : OutputSection) (ys : List Member) : Prop where
  pieces : List.Forall₂ PieceOf out.pieces ys
  apart : Apart out
  size : out.size = out.pieces.getLast?.elim 0 SectionPiece.stop
  data : out.type ≠ shtNobits → Initialised out.pieces ys out.size out.data

/-- Output sections before the merge. -/
def emptySections (types : Nat → Nat) : Sections := fun i => outputSectionInit (types i)

/-- Every alignment is 0 or a power of two. -/
def PowersOfTwo (ys : List Member) : Prop := ∀ y ∈ ys, y.2.shAddralign = 0 ∨ ∃ k < 64, y.2.shAddralign = 2 ^ k

/-- A piece without bytes leaves the size as it is. -/
def Steady : Nat → List Member → Prop
  | _, [] => True
  | n, y :: ys => ((y.2.shType ≠ shtNobits ∧ 0 < y.2.shSize) ∨ alignUp n (inputAlign y.2) + y.2.shSize = n) ∧
      Steady (alignUp n (inputAlign y.2) + y.2.shSize) ys

instance : DecidablePred PowersOfTwo := fun ys =>
  inferInstanceAs (Decidable (∀ y ∈ ys, y.2.shAddralign = 0 ∨ ∃ k < 64, y.2.shAddralign = 2 ^ k))

/-- It can be decided along the list. -/
def decideSteady : (n : Nat) → (ys : List Member) → Decidable (Steady n ys)
  | _, [] => .isTrue trivial
  | n, y :: ys =>
    have := decideSteady (alignUp n (inputAlign y.2) + y.2.shSize) ys
    inferInstanceAs (Decidable (_ ∧ Steady _ ys))

instance (n : Nat) (ys : List Member) : Decidable (Steady n ys) := decideSteady n ys

/-! ## The layout -/

/-- The pieces from offset `n` on. -/
def placedFrom : Nat → List Member → List SectionPiece
  | _, [] => []
  | n, y :: ys => ⟨y.1.file, y.1.shndx, alignUp n (inputAlign y.2), y.2.shSize⟩ ::
      placedFrom (alignUp n (inputAlign y.2) + y.2.shSize) ys

/-- Where the last of the pieces ends, when the first starts from `n` on. -/
def endFrom : Nat → List Member → Nat
  | n, [] => n
  | n, y :: ys => endFrom (alignUp n (inputAlign y.2) + y.2.shSize) ys

/-- The bytes from offset `n` on. -/
def layoutFrom : Nat → List Member → List UInt8
  | _, [] => []
  | n, y :: ys => List.replicate (alignUp n (inputAlign y.2) - n) 0 ++ (memberBytes y ++
      layoutFrom (alignUp n (inputAlign y.2) + y.2.shSize) ys)

section

variable {n : Nat} {y : Member} {ys : List Member}

theorem length_memberBytes (y : Member) : (memberBytes y).length = y.2.shSize := by
  unfold memberBytes
  split
  · exact length_replicate
  · exact length_getBytes _ _ _

theorem alignUp_dvd {align : Nat} (h : align = 0 ∨ ∃ k < 64, align = 2 ^ k) (val : Nat) :
    (if align = 0 then 1 else align) ∣ alignUp val (if align = 0 then 1 else align) := by
  obtain ⟨k, hk, hpow⟩ : ∃ k < 64, (if align = 0 then 1 else align) = 2 ^ k := by
    rcases h with rfl | ⟨k, hk, rfl⟩
    · exact ⟨0, by omega, rfl⟩
    · exact ⟨k, hk, if_neg (Nat.two_pow_pos k).ne'⟩
  rw [hpow, alignUp_pow hk]
  exact Nat.dvd_mul_left _ _

theorem endFrom_le (hno : NoOverflow n ys) : n ≤ endFrom n ys := by
  induction ys generalizing n with
  | nil => exact Nat.le_refl n
  | cons y ys ih =>
    obtain ⟨hge, -, hrest⟩ := hno
    have htail := ih hrest
    rw [endFrom]
    omega

theorem placedFrom_bounds (hno : NoOverflow n ys) : ∀ p ∈ placedFrom n ys, n ≤ p.outputOffset ∧ p.stop ≤ endFrom n ys := by
  induction ys generalizing n with
  | nil => simp [placedFrom]
  | cons y ys ih =>
    obtain ⟨hge, -, hrest⟩ := hno
    intro p hp
    rcases mem_cons.mp hp with rfl | hp
    · exact ⟨hge, endFrom_le hrest⟩
    · obtain ⟨hlo, hhi⟩ := ih hrest p hp
      exact ⟨by omega, hhi⟩

theorem placedFrom_apart (hno : NoOverflow n ys) :
    (placedFrom n ys).Pairwise fun p q => p.outputOffset + p.size ≤ q.outputOffset := by
  induction ys generalizing n with
  | nil => exact List.Pairwise.nil
  | cons y ys ih =>
    obtain ⟨-, -, hrest⟩ := hno
    exact List.Pairwise.cons (fun q hq => (placedFrom_bounds hrest q hq).1) (ih hrest)

theorem placedFrom_pieces (hpow : PowersOfTwo ys) : List.Forall₂ PieceOf (placedFrom n ys) ys := by
  induction ys generalizing n with
  | nil => exact .nil
  | cons y ys ih =>
    exact .cons ⟨rfl, rfl, rfl, alignUp_dvd (hpow y mem_cons_self) n⟩
      (ih fun z hz => hpow z (mem_cons_of_mem _ hz))

theorem placedFrom_last (n : Nat) (ys : List Member) :
    endFrom n ys = (placedFrom n ys).getLast?.elim n SectionPiece.stop := by
  induction ys generalizing n with
  | nil => rfl
  | cons y ys ih =>
    rw [endFrom, ih, placedFrom]
    cases hrest : placedFrom (alignUp n (inputAlign y.2) + y.2.shSize) ys with
    | nil => rfl
    | cons q qs => rw [getLast?_cons_cons, getLast?_cons]; rfl

theorem length_layoutFrom (hno : NoOverflow n ys) : (layoutFrom n ys).length = endFrom n ys - n := by
  induction ys generalizing n with
  | nil => exact (Nat.sub_self n).symm
  | cons y ys ih =>
    obtain ⟨hge, -, hrest⟩ := hno
    have hend := endFrom_le hrest
    rw [layoutFrom, length_append, length_append, length_replicate, length_memberBytes, ih hrest, endFrom]
    omega

/-- The layout has the bytes of every piece at its offset. -/
theorem layoutFrom_stands (hno : NoOverflow n ys) (pre : List UInt8) (hpre : pre.length = n) :
    List.Forall₂ (fun (p : SectionPiece) y => StandsAt (pre ++ layoutFrom n ys) p.outputOffset (memberBytes y))
      (placedFrom n ys) ys := by
  induction ys generalizing n pre with
  | nil => exact .nil
  | cons y ys ih =>
    obtain ⟨hge, -, hrest⟩ := hno
    have hzeros : (pre ++ replicate (alignUp n (inputAlign y.2) - n) 0).length = alignUp n (inputAlign y.2) := by
      rw [length_append, length_replicate]
      omega
    refine .cons ⟨pre ++ replicate (alignUp n (inputAlign y.2) - n) 0,
      layoutFrom (alignUp n (inputAlign y.2) + y.2.shSize) ys, ?_, hzeros⟩ ?_
    · rw [layoutFrom, append_assoc]
    · have htail := ih hrest (pre ++ replicate (alignUp n (inputAlign y.2) - n) 0 ++ memberBytes y) (by
        rw [length_append, hzeros, length_memberBytes])
      simpa only [layoutFrom, append_assoc] using htail

theorem layoutFrom_gaps (hno : NoOverflow n ys) {k : Nat} (hlo : n ≤ k) (hhi : k < endFrom n ys)
    (hgap : ∀ p ∈ placedFrom n ys, k < p.outputOffset ∨ p.stop ≤ k) : (layoutFrom n ys)[k - n]? = some 0 := by
  induction ys generalizing n with
  | nil =>
    rw [endFrom] at hhi
    omega
  | cons y ys ih =>
    obtain ⟨hge, -, hrest⟩ := hno
    have hrep : (replicate (alignUp n (inputAlign y.2) - n) (0 : UInt8)).length = alignUp n (inputAlign y.2) - n :=
      length_replicate
    have hmem := length_memberBytes y
    rw [layoutFrom]
    rcases hgap _ mem_cons_self with hfront | hbehind
    · -- in front of the first piece
      dsimp only at hfront
      rw [getElem?_append_left (by omega), getElem?_replicate_of_lt (by omega)]
    unfold SectionPiece.stop at hbehind
    dsimp only at hbehind
    have hsub : k - n - (alignUp n (inputAlign y.2) - n) - y.2.shSize =
        k - (alignUp n (inputAlign y.2) + y.2.shSize) := by omega
    rw [getElem?_append_right (by omega), hrep, getElem?_append_right (by omega), hmem, hsub]
    exact ih hrest (by omega) hhi fun p hp => hgap p (mem_cons_of_mem _ hp)

theorem layoutFrom_initialised (hno : NoOverflow 0 ys) :
    Initialised (placedFrom 0 ys) ys (endFrom 0 ys) (layoutFrom 0 ys) where
  length := length_layoutFrom hno
  stands := layoutFrom_stands hno [] rfl
  gaps := by
    intro k hk hgap
    exact layoutFrom_gaps hno (Nat.zero_le k) hk hgap

end

/-! ## A buffer is determined by the pieces -/

section

variable {pieces : List SectionPiece} {ys : List Member} {size : Nat} {data data' : List UInt8}

theorem stands_byte {file piece : List UInt8} {off k : Nat} (h : StandsAt file off piece) (hlo : off ≤ k)
    (hhi : k < off + piece.length) : file[k]? = piece[k - off]? := by
  obtain ⟨pre, post, rfl, rfl⟩ := h
  rw [getElem?_append_right hlo, getElem?_append_left (by omega)]

theorem Initialised.unique (hpieces : List.Forall₂ PieceOf pieces ys) (h : Initialised pieces ys size data)
    (h' : Initialised pieces ys size data') : data = data' := by
  apply ext_getElem?
  intro k
  by_cases hk : k < size
  · by_cases hgap : ∀ p ∈ pieces, k < p.outputOffset ∨ p.stop ≤ k
    · rw [h.gaps k hk hgap, h'.gaps k hk hgap]
    push Not at hgap
    obtain ⟨p, hp, hlo, hhi⟩ := hgap
    -- the input section of the piece
    obtain ⟨i, hi, rfl⟩ := mem_iff_getElem.mp hp
    have hlen := hpieces.length_eq
    have hmem : (pieces[i], ys.get ⟨i, hlen ▸ hi⟩) ∈ pieces.zip ys := by
      rw [mem_iff_getElem]
      exact ⟨i, by rw [length_zip]; omega, getElem_zip⟩
    have hof := (forall₂_iff_zip.mp hpieces).2 hmem
    have hbytes := length_memberBytes (ys.get ⟨i, hlen ▸ hi⟩)
    have hin : k < pieces[i].outputOffset + (memberBytes (ys.get ⟨i, hlen ▸ hi⟩)).length := by
      rw [hbytes, ← hof.size]
      exact hhi
    rw [stands_byte ((forall₂_iff_zip.mp h.stands).2 hmem) hlo hin,
      stands_byte ((forall₂_iff_zip.mp h'.stands).2 hmem) hlo hin]
  · rw [getElem?_eq_none (by rw [h.length]; omega), getElem?_eq_none (by rw [h'.length]; omega)]

end

/-! ## What merging does -/

section

variable (junk : Nat → UInt8) {out : OutputSection} {l : List Member}

theorem addMember_size {y : Member} (hlt : alignUp out.size (inputAlign y.2) + y.2.shSize < 2 ^ 64) :
    (addMember junk out y).size = alignUp out.size (inputAlign y.2) + y.2.shSize := Nat.mod_eq_of_lt hlt

theorem addMember_data (y : Member) : (addMember junk out y).data = if y.2.shType ≠ shtNobits ∧ 0 < y.2.shSize then
      out.data ++ (range' out.data.length (out.size - out.data.length)).map junk ++
        replicate (alignUp out.size (inputAlign y.2) - out.size) 0 ++ inputBytes y.1.obj y.2
      else out.data := rfl

theorem foldl_grows (l : List Member) (out : OutputSection) :
    ∃ rest, (l.foldl (addMember junk) out).data = out.data ++ rest := by
  induction l generalizing out with
  | nil => exact ⟨[], (append_nil _).symm⟩
  | cons y l ih =>
    obtain ⟨rest, hrest⟩ := ih (addMember junk out y)
    rw [foldl_cons, hrest, addMember_data]
    split
    · simp only [append_assoc]
      exact ⟨_, rfl⟩
    · exact ⟨rest, rfl⟩

theorem foldl_placed (out : OutputSection) (hno : NoOverflow out.size l) :
    (l.foldl (addMember junk) out).pieces = out.pieces ++ placedFrom out.size l ∧
      (l.foldl (addMember junk) out).size = endFrom out.size l := by
  induction l generalizing out with
  | nil => exact ⟨(append_nil _).symm, rfl⟩
  | cons y l ih =>
    obtain ⟨-, hlt, hrest⟩ := hno
    have hsize := addMember_size junk hlt
    rw [← hsize] at hrest
    obtain ⟨hpieces, hend⟩ := ih _ hrest
    rw [foldl_cons, hpieces, hend, addMember_pieces, hsize, append_assoc]
    exact ⟨rfl, rfl⟩

theorem addMember_steady {y : Member} (hge : out.size ≤ alignUp out.size (inputAlign y.2))
    (hlt : alignUp out.size (inputAlign y.2) + y.2.shSize < 2 ^ 64)
    (hfirst : (y.2.shType ≠ shtNobits ∧ 0 < y.2.shSize) ∨ alignUp out.size (inputAlign y.2) + y.2.shSize = out.size)
    (hlen : out.data.length = out.size) :
    (addMember junk out y).data =
        out.data ++ (replicate (alignUp out.size (inputAlign y.2) - out.size) 0 ++ memberBytes y) ∧
      (addMember junk out y).data.length = (addMember junk out y).size := by
  have hdata : (addMember junk out y).data =
      out.data ++ (replicate (alignUp out.size (inputAlign y.2) - out.size) 0 ++ memberBytes y) := by
    rw [addMember_data]
    by_cases hbytes : y.2.shType ≠ shtNobits ∧ 0 < y.2.shSize
    · rw [if_pos hbytes, hlen, Nat.sub_self, memberBytes, if_neg hbytes.1]
      simp
    have hnone : (memberBytes y).length = 0 := by
      rw [length_memberBytes]
      omega
    have hzero : alignUp out.size (inputAlign y.2) - out.size = 0 := by omega
    rw [if_neg hbytes, hzero, length_eq_zero_iff.mp hnone]
    simp
  refine ⟨hdata, ?_⟩
  rw [hdata, addMember_size junk hlt, length_append, length_append, length_replicate, length_memberBytes]
  omega

/-- While no piece without bytes leaves a gap, the buffer grows with the section. -/
theorem foldl_layout (out : OutputSection) (hno : NoOverflow out.size l) (hsteady : Steady out.size l) (hlen : out.data.length = out.size) :
    (l.foldl (addMember junk) out).data = out.data ++ layoutFrom out.size l := by
  induction l generalizing out with
  | nil => exact (append_nil _).symm
  | cons y l ih =>
    obtain ⟨hge, hlt, hrest⟩ := hno
    obtain ⟨hfirst, hsteady⟩ := hsteady
    have hsize := addMember_size junk hlt
    obtain ⟨hdata, hlen'⟩ := addMember_steady junk hge hlt hfirst hlen
    rw [← hsize] at hrest hsteady
    rw [foldl_cons, ih _ hrest hsteady hlen', hdata, hsize, layoutFrom]
    simp only [append_assoc]

/-- Where the buffer has fallen behind the section it stays behind, or the next piece leaves a byte that nothing has
set. -/
theorem foldl_behind (hno : NoOverflow out.size l) (hlen : out.data.length < out.size) :
    (l.foldl (addMember junk) out).data.length < (l.foldl (addMember junk) out).size ∨
      (l.foldl (addMember junk) out).data[out.data.length]? = some (junk out.data.length) := by
  induction l generalizing out with
  | nil => exact .inl hlen
  | cons y l ih =>
    obtain ⟨hge, hlt, hrest⟩ := hno
    have hsize := addMember_size junk hlt
    rw [← hsize] at hrest
    rw [foldl_cons]
    by_cases hbytes : y.2.shType ≠ shtNobits ∧ 0 < y.2.shSize
    · right
      obtain ⟨rest, hgrow⟩ : ∃ rest, (l.foldl (addMember junk) (addMember junk out y)).data =
          (addMember junk out y).data ++ rest := foldl_grows junk l _
      rw [hgrow, addMember_data, if_pos hbytes]
      obtain ⟨m, hm⟩ : ∃ m, out.size - out.data.length = m + 1 := ⟨out.size - out.data.length - 1, by omega⟩
      rw [hm, range'_succ, map_cons]
      simp
    have hsame : (addMember junk out y).data = out.data := by rw [addMember_data, if_neg hbytes]
    have hbehind := ih hrest (by rw [hsame, hsize]; omega)
    rw [hsame] at hbehind
    exact hbehind

/-- A piece without bytes that leaves a gap is never made up for. -/
theorem foldl_unsteady (out : OutputSection) (hno : NoOverflow out.size l) (hunsteady : ¬ Steady out.size l)
    (hlen : out.data.length = out.size) :
    (l.foldl (addMember junk) out).data.length < (l.foldl (addMember junk) out).size ∨
      ∃ k, (l.foldl (addMember junk) out).data[k]? = some (junk k) := by
  induction l generalizing out with
  | nil => exact absurd trivial hunsteady
  | cons y l ih =>
    obtain ⟨hge, hlt, hrest⟩ := hno
    have hsize := addMember_size junk hlt
    by_cases hfirst : (y.2.shType ≠ shtNobits ∧ 0 < y.2.shSize) ∨
        alignUp out.size (inputAlign y.2) + y.2.shSize = out.size
    · have hlen' := (addMember_steady junk hge hlt hfirst hlen).2
      rw [← hsize] at hrest
      refine ih _ hrest ?_ hlen'
      rw [hsize]
      exact fun h => hunsteady ⟨hfirst, h⟩
    obtain ⟨hbytes, hmoved⟩ := not_or.mp hfirst
    have hsame : (addMember junk out y).data = out.data := by rw [addMember_data, if_neg hbytes]
    rw [← hsize] at hrest
    rcases foldl_behind junk hrest (by rw [hsame, hsize]; omega) with hshort | hjunk
    · exact .inl hshort
    · exact .inr ⟨_, hjunk⟩

end

/-! ## The whole merge -/

section

variable {types : Nat → Nat} {categorize : Name → Nat → Option Nat} {objects : List ObjectFile} {c : Nat}
  {out : OutputSection} {ys : List Member}

/-- Every piece lies inside its section. -/
theorem LaidOut.within (h : LaidOut out ys) : ∀ p ∈ out.pieces, p.outputOffset + p.size ≤ out.size := by
  intro p hp
  rcases eq_nil_or_concat' out.pieces with hnil | ⟨A, q, hcons⟩
  · rw [hnil] at hp
    cases hp
  have hsize := h.size
  have hapart := h.apart
  rw [hcons, getLast?_concat] at hsize
  rw [Apart, hcons, pairwise_append] at hapart
  rw [hcons, mem_append, mem_singleton] at hp
  rw [hsize]
  show _ ≤ q.outputOffset + q.size
  rcases hp with hp | rfl
  · have := hapart.2.2 p hp q (mem_singleton_self q)
    omega
  · exact Nat.le_refl _

/-- **What `merge_sections` does to an output section**, whatever memory `realloc` gives it: the section is laid out
as it should be exactly when the offsets do not overflow, and no piece without bytes leaves a gap in a section that has
a buffer. -/
theorem merge_exact (hpow : PowersOfTwo (members categorize c (inputs objects))) :
    (∀ junk, LaidOut (mergeSections junk categorize objects (emptySections types) c)
        (members categorize c (inputs objects))) ↔
      NoOverflow 0 (members categorize c (inputs objects)) ∧
        (types c ≠ shtNobits → Steady 0 (members categorize c (inputs objects))) := by
  generalize hys : members categorize c (inputs objects) = ys at hpow ⊢
  have hout : ∀ junk, mergeSections junk categorize objects (emptySections types) c =
      ys.foldl (addMember (junk c)) (outputSectionInit (types c)) := by
    intro junk
    rw [mergeSections_at, hys]
    rfl
  simp only [hout]
  have htype : ∀ junk, (ys.foldl (addMember junk) (outputSectionInit (types c))).type = types c := by
    intro junk
    exact addMembers_kept _ _
  constructor
  · intro h
    have hno : NoOverflow 0 ys := by
      have hlaid := h fun _ _ => 0
      have hstart : NoOverflow (outputSectionInit (types c)).size ys :=
        noOverflow_of_apart (Nat.two_pow_pos 64) (.inl rfl) hlaid.apart hlaid.within
      exact hstart
    refine ⟨hno, fun hbss => ?_⟩
    by_contra hunsteady
    -- memory that differs from the layout everywhere
    have hlaid := h fun _ k => (layoutFrom 0 ys).getD k 0 + 1
    obtain ⟨hpieces, hsize⟩ := foldl_placed (fun k => (layoutFrom 0 ys).getD k 0 + 1)
      (outputSectionInit (types c)) hno
    have hdata := hlaid.data (by rw [htype]; exact hbss)
    rcases foldl_unsteady (fun k => (layoutFrom 0 ys).getD k 0 + 1) (outputSectionInit (types c)) hno
      hunsteady rfl with hshort | ⟨k, hk⟩
    · have := hdata.length
      omega
    have hlayout := layoutFrom_initialised hno
    have hfirst : (outputSectionInit (types c)).pieces ++ placedFrom (outputSectionInit (types c)).size ys =
        placedFrom 0 ys := rfl
    have hend : endFrom (outputSectionInit (types c)).size ys = endFrom 0 ys := rfl
    rw [hpieces, hsize, hfirst, hend] at hdata
    rw [hdata.unique (placedFrom_pieces hpow) hlayout] at hk
    have hsucc : (layoutFrom 0 ys).getD k 0 = (layoutFrom 0 ys).getD k 0 + 1 := by
      conv_lhs => rw [getD_eq_getElem?_getD, hk]
      rfl
    simp at hsucc
  rintro ⟨hno, hsteady⟩ junk
  obtain ⟨hpieces, hsize⟩ := foldl_placed (junk c) (outputSectionInit (types c)) hno
  refine ⟨by rw [hpieces]; exact placedFrom_pieces hpow, by rw [Apart, hpieces]; exact placedFrom_apart hno,
    by rw [hpieces, hsize]; exact placedFrom_last 0 ys, ?_⟩
  intro hbss
  rw [htype] at hbss
  have hdata := foldl_layout (junk c) (outputSectionInit (types c)) hno (hsteady hbss) rfl
  have hlayout : (outputSectionInit (types c)).data ++ layoutFrom (outputSectionInit (types c)).size ys =
      layoutFrom 0 ys := rfl
  rw [hdata, hlayout, hpieces, hsize]
  exact layoutFrom_initialised hno

/-- An object with two sections `.data`: three bytes, and `n` bytes at a multiple of `align`. -/
def twoSections (n align : Nat) : ObjectFile where
  filename := []
  data := [0] ++ nameData ++ [0] ++ [1, 2, 3, 4, 5]
  size := 12
  shdrs := [⟨0, 0, 0, 0, 0, 0, 0, 0, 0, 0⟩, ⟨1, shtProgbits, shfAlloc, 0, 7, 3, 0, 0, 1, 0⟩,
    ⟨1, shtProgbits, shfAlloc, 0, 10, n, 0, 0, align, 0⟩]
  shstrtab := some 0
  strtab := none
  symtab := none
  symtabShndx := 0

/-- Three bytes, a gap of five, and two bytes, in memory that was not clear. -/
theorem merge_exact_two : LaidOut
    (mergeSections (fun _ _ => 7) categorizeSection [twoSections 2 8] (emptySections fun _ => shtProgbits) OUT_DATA)
    (members categorizeSection OUT_DATA (inputs [twoSections 2 8])) :=
  (merge_exact (by decide +kernel)).mpr ⟨by decide +kernel, fun _ => by decide +kernel⟩ fun _ _ => 7

/-- An empty section at a multiple of 16 behind three bytes: the size is 16, and the buffer has three bytes. -/
theorem empty_piece_gap : ¬ ∀ types categorize objects c, PowersOfTwo (members categorize c (inputs objects)) →
    ∀ junk, LaidOut (mergeSections junk categorize objects (emptySections types) c)
      (members categorize c (inputs objects)) := by
  intro h
  have hlaid := h (fun _ => shtProgbits) categorizeSection [twoSections 0 16] OUT_DATA (by decide +kernel) fun _ _ => 0
  have hlength := (hlaid.data (by decide +kernel)).length
  revert hlength
  decide +kernel

end

end Slopix.Ld
