import Slopix.Lib.LinkedRing

/-!
# The buffer cache

`kernel/bio.c`: `NBUF` buffers on a doubly linked ring in least-recently-used order, looked up by
device and block number. A block is two disk sectors; the code moves sectors and never looks inside
them, so the sector contents are an arbitrary type `S`.

Buffers are numbered `0 .. NBUF - 1`, and `NBUF` stands for the ring's head `&bcache.head`. The disk
has one address space of sectors: the driver ignores the device number.
-/

namespace Slopix.Bio

open Lib Function List

universe u

/-- `NBUF`. -/
def nbuf : Nat := 64

/-- The modulus of an `unsigned int`. -/
def uintMod : Nat := 4294967296

/-- `struct buf`; `data` holds the two sectors of the block. -/
structure Buf (S : Type u) where
  valid : Bool
  dev : Nat
  blockno : Nat
  refcnt : Nat
  data : S × S

/-- `bcache`: the buffers and the links of the ring. -/
structure Bcache (S : Type u) where
  buf : Nat → Buf S
  links : Links Nat

variable {S : Type u}

/-- The buffer holds block `blockno` of device `dev`. -/
def Buf.isBlock (b : Buf S) (dev blockno : Nat) : Bool := b.dev == dev && b.blockno == blockno

namespace Bcache

/-- Change one buffer. -/
def setBuf (c : Bcache S) (i : Nat) (b : Buf S) : Bcache S :=
  { c with buf := Function.update c.buf i b }

/-- Start a forward or backward walk around the ring and stop at the first match. -/
def findNext (c : Bcache S) (f : Buf S → Bool) : Option Nat :=
  Links.scan c.links.next nbuf (fun i => f (c.buf i)) (nbuf + 1) (c.links.next nbuf)

/-- The search from the least recently used buffer on. -/
def findPrev (c : Bcache S) (f : Buf S → Bool) : Option Nat :=
  Links.scan c.links.prev nbuf (fun i => f (c.buf i)) (nbuf + 1) (c.links.prev nbuf)

end Bcache

/-- `bio_init`: every buffer empty, pushed on the ring in index order. The sectors are whatever the
memory holds. -/
def bioInit (data : Nat → S × S) : Bcache S where
  buf i := { valid := false, dev := 0, blockno := 0, refcnt := 0, data := data i }
  links := (List.range nbuf).foldl (fun L i => L.pushFront nbuf i) ⟨fun _ => nbuf, fun _ => nbuf⟩

/-- `bget`: the buffer of the block if some buffer carries it, else the least recently used buffer
without a reference, recycled for the block, else null. -/
def bget (c : Bcache S) (dev blockno : Nat) : Option Nat × Bcache S :=
  match c.findNext fun b => b.isBlock dev blockno with
  | some i =>
    (some i, c.setBuf i { c.buf i with refcnt := ((c.buf i).refcnt + 1) % uintMod })
  | none =>
    match c.findPrev fun b => b.refcnt == 0 with
    | some i =>
      (some i, c.setBuf i { c.buf i with
        dev := dev, blockno := blockno, valid := false, refcnt := 1 })
    | none => (none, c)

/-- `bio_release`: drop a reference; at zero the buffer moves to the front of the ring. -/
def bioRelease (c : Bcache S) (i : Nat) : Bcache S :=
  let c' := c.setBuf i
    { c.buf i with refcnt := ((c.buf i).refcnt + (uintMod - 1)) % uintMod }
  if (c'.buf i).refcnt = 0 then { c' with links := (c'.links.unlink i).pushFront nbuf i } else c'

/-- `unsigned long sector = blockno * SECTORS_PER_BLOCK`: the product is an `unsigned int`. -/
def sectorOf (blockno : Nat) : Nat := blockno * 2 % uintMod

/-! ## The ring order -/

/-- The order of the buffers on the ring: `l` lists them from the most recently used one. -/
structure RingOrder (c : Bcache S) (l : List Nat) : Prop where
  isRing : c.links.IsRing nbuf l
  perm : l.Perm (List.range nbuf)

namespace RingOrder

variable {c : Bcache S} {l : List Nat}

theorem mem_iff (h : RingOrder c l) {i : Nat} : i ∈ l ↔ i < nbuf := by
  rw [h.perm.mem_iff, mem_range]

theorem length_eq (h : RingOrder c l) : l.length = nbuf := by
  rw [h.perm.length_eq, length_range]

theorem findNext_eq (h : RingOrder c l) (f : Buf S → Bool) :
    c.findNext f = l.find? fun i => f (c.buf i) :=
  Links.scan_next h.isRing _ (by rw [h.length_eq]; exact Nat.lt_succ_self _)

theorem findPrev_eq (h : RingOrder c l) (f : Buf S → Bool) :
    c.findPrev f = l.reverse.find? fun i => f (c.buf i) :=
  Links.scan_prev h.isRing _ (by rw [h.length_eq]; exact Nat.lt_succ_self _)

/-- Change one buffer. -/
theorem setBuf (h : RingOrder c l) (i : Nat) (b : Buf S) : RingOrder (c.setBuf i b) l :=
  ⟨h.isRing, h.perm⟩

end RingOrder

theorem ringOrder_bioInit (data : Nat → S × S) :
    RingOrder (bioInit data) (range nbuf).reverse := by
  have key : ∀ n ≤ nbuf,
      ((range n).foldl (fun L i => L.pushFront nbuf i)
        (⟨fun _ => nbuf, fun _ => nbuf⟩ : Links Nat)).IsRing nbuf (range n).reverse := by
    intro n
    induction n with
    | zero => exact fun _ => ⟨by simp, rfl, rfl⟩
    | succ n ih =>
      intro hn
      have hnot : n ∉ nbuf :: (range n).reverse := by
        simp
        omega
      rw [range_succ, foldl_append, reverse_append]
      exact Links.pushFront_isRing (ih (by omega)) hnot
  exact ⟨key nbuf (Nat.le_refl _), reverse_perm _⟩

/-- What `bget` does: a hit takes a reference on the first buffer of the block in ring order, a miss
recycles an unreferenced buffer when no buffer carries the block, and it fails only when every
buffer is referenced. -/
theorem bget_cases {c : Bcache S} {l : List Nat} (h : RingOrder c l) (dev blockno : Nat) :
    (∃ i, l.find? (fun j => (c.buf j).isBlock dev blockno) = some i ∧
      bget c dev blockno =
        (some i, c.setBuf i { c.buf i with refcnt := ((c.buf i).refcnt + 1) % uintMod })) ∨
    (∃ i, i < nbuf ∧ (c.buf i).refcnt = 0 ∧ (∀ j < nbuf, (c.buf j).isBlock dev blockno = false) ∧
      bget c dev blockno =
        (some i, c.setBuf i { c.buf i with
          dev := dev, blockno := blockno, valid := false, refcnt := 1 })) ∨
    ((∀ j < nbuf, (c.buf j).refcnt ≠ 0) ∧ bget c dev blockno = (none, c)) := by
  unfold bget
  rw [h.findNext_eq, h.findPrev_eq]
  cases hhit : l.find? fun j => (c.buf j).isBlock dev blockno with
  | some i => exact Or.inl ⟨i, rfl, rfl⟩
  | none =>
    have hmiss : ∀ j < nbuf, (c.buf j).isBlock dev blockno = false := by
      intro j hj
      simpa using find?_eq_none.1 hhit j (h.mem_iff.2 hj)
    cases hfree : l.reverse.find? fun j => (c.buf j).refcnt == 0 with
    | some i =>
      have hmem : i < nbuf := h.mem_iff.1 (mem_reverse.1 (mem_of_find?_eq_some hfree))
      have hzero : (c.buf i).refcnt = 0 := by simpa using find?_some hfree
      exact Or.inr (Or.inl ⟨i, hmem, hzero, hmiss, rfl⟩)
    | none =>
      refine Or.inr (Or.inr ⟨fun j hj => ?_, rfl⟩)
      have := find?_eq_none.1 hfree j (mem_reverse.2 (h.mem_iff.2 hj))
      simpa using this

theorem ringOrder_bioRelease {c : Bcache S} {l : List Nat} (h : RingOrder c l) {i : Nat}
    (hi : i < nbuf) :
    ∃ l', RingOrder (bioRelease c i) l' ∧ (l' = l ∨ l' = i :: l.erase i) := by
  have hmem := h.mem_iff.2 hi
  unfold bioRelease
  simp only
  split
  · refine ⟨i :: l.erase i, ⟨?_, ?_⟩, Or.inr rfl⟩
    · exact Links.moveFront_isRing h.isRing hmem
    · exact (perm_cons_erase hmem).symm.trans h.perm
  · exact ⟨l, h.setBuf _ _, Or.inl rfl⟩

theorem bioRelease_buf (c : Bcache S) (i : Nat) :
    (bioRelease c i).buf = Function.update c.buf i
      { c.buf i with refcnt := ((c.buf i).refcnt + (uintMod - 1)) % uintMod } := by
  unfold bioRelease
  simp only
  split <;> rfl

/-! ## One buffer per block -/

/-- The buffer is valid or referenced. -/
def Buf.live (b : Buf S) : Prop := b.valid = true ∨ b.refcnt ≠ 0

/-- On the ring, a live buffer comes before every other buffer with the same block. -/
def FirstOfBlock (c : Bcache S) (l : List Nat) : Prop :=
  ∀ i < nbuf, (c.buf i).live →
    l.find? (fun j => (c.buf j).isBlock (c.buf i).dev (c.buf i).blockno) = some i

theorem Buf.isBlock_iff {b : Buf S} {dev blockno : Nat} :
    b.isBlock dev blockno = true ↔ b.dev = dev ∧ b.blockno = blockno := by
  simp [Buf.isBlock]

section

variable {c : Bcache S} {l : List Nat}

theorem FirstOfBlock.eq_of_block (h : FirstOfBlock c l) {i j : Nat} (hi : i < nbuf) (hj : j < nbuf)
    (hli : (c.buf i).live) (hlj : (c.buf j).live) (hdev : (c.buf i).dev = (c.buf j).dev)
    (hblk : (c.buf i).blockno = (c.buf j).blockno) : i = j := by
  have h1 := h i hi hli
  rw [hdev, hblk, h j hj hlj] at h1
  exact (Option.some.inj h1).symm

/-- A search that finds the same node before and after the predicate changed elsewhere. -/
theorem find?_congr_of_false {f g : Nat → Bool} {l : List Nat} {i : Nat} (h : l.find? f = some i)
    (hi : g i = true) (hne : ∀ j ∈ l, f j = false → g j = false) : l.find? g = some i := by
  induction l with
  | nil => simp at h
  | cons x xs ih =>
    rw [find?_cons] at h ⊢
    cases hfx : f x with
    | true =>
      rw [hfx] at h
      obtain rfl : x = i := Option.some.inj h
      rw [hi]
    | false =>
      rw [hfx] at h
      rw [hne x (by simp) hfx]
      exact ih h fun j hj => hne j (mem_cons_of_mem _ hj)

/-- Rewriting a buffer without changing its block leaves every block test as it was. -/
theorem isBlock_setBuf {i : Nat} {b : Buf S} (hd : b.dev = (c.buf i).dev)
    (hn : b.blockno = (c.buf i).blockno) (j d n : Nat) :
    ((c.setBuf i b).buf j).isBlock d n = (c.buf j).isBlock d n := by
  by_cases e : j = i
  · subst e
    simp [Bcache.setBuf, Buf.isBlock, hd, hn]
  · simp [Bcache.setBuf, update_of_ne e]

theorem FirstOfBlock.setBuf (h : FirstOfBlock c l) {i : Nat} {b : Buf S}
    (hd : b.dev = (c.buf i).dev) (hn : b.blockno = (c.buf i).blockno)
    (hfirst : l.find? (fun j => (c.buf j).isBlock (c.buf i).dev (c.buf i).blockno) = some i) :
    FirstOfBlock (c.setBuf i b) l := by
  intro k hk hlive
  simp only [isBlock_setBuf hd hn]
  by_cases e : k = i
  · subst e
    simpa [Bcache.setBuf, hd, hn] using hfirst
  · simp only [Bcache.setBuf, update_of_ne e] at hlive ⊢
    exact h k hk hlive

/-- The search returns the first buffer of its block, and there is no second one. -/
theorem firstOfBlock_bget (ho : RingOrder c l) (h : FirstOfBlock c l) (dev blockno : Nat) :
    RingOrder (bget c dev blockno).2 l ∧ FirstOfBlock (bget c dev blockno).2 l ∧
      ∀ i, (bget c dev blockno).1 = some i →
        l.find? (fun j => ((bget c dev blockno).2.buf j).isBlock
          ((bget c dev blockno).2.buf i).dev ((bget c dev blockno).2.buf i).blockno) = some i := by
  rcases bget_cases ho dev blockno with ⟨i, hfind, hget⟩ | ⟨i, hi, hzero, hmiss, hget⟩ | ⟨-, hget⟩
  · rw [hget]
    have hk := find?_some hfind
    obtain ⟨hd, hn⟩ := Buf.isBlock_iff.1 hk
    have hfirst : l.find? (fun j => (c.buf j).isBlock (c.buf i).dev (c.buf i).blockno) = some i := by
      rw [hd, hn]
      exact hfind
    refine ⟨ho.setBuf _ _, h.setBuf rfl rfl hfirst, fun k hk => ?_⟩
    obtain rfl : i = k := Option.some.inj hk
    simp only [isBlock_setBuf (b := { c.buf i with
      refcnt := ((c.buf i).refcnt + 1) % uintMod }) rfl rfl]
    simpa [Bcache.setBuf] using hfirst
  · rw [hget]
    -- no other buffer carries the block, so the recycled one is the first
    have hself : l.find? (fun j => ((c.setBuf i { c.buf i with
        dev := dev, blockno := blockno, valid := false, refcnt := 1 }).buf j).isBlock dev blockno) =
        some i := by
      cases hf : l.find? (fun j => ((c.setBuf i { c.buf i with
          dev := dev, blockno := blockno, valid := false, refcnt := 1 }).buf j).isBlock dev blockno) with
      | none =>
        have := find?_eq_none.1 hf i (ho.mem_iff.2 hi)
        simp [Bcache.setBuf, Buf.isBlock] at this
      | some j =>
        have hj := find?_some hf
        have hjmem := ho.mem_iff.1 (mem_of_find?_eq_some hf)
        by_contra hne
        have hji : j ≠ i := fun e => hne (by rw [e])
        simp only [Bcache.setBuf, update_of_ne hji, hmiss j hjmem] at hj
        cases hj
    refine ⟨ho.setBuf _ _, fun k hk hlive => ?_, fun k hk => ?_⟩
    · by_cases e : k = i
      · subst e
        simpa [Bcache.setBuf] using hself
      have hk' : (c.buf k).live := by simpa [Bcache.setBuf, update_of_ne e] using hlive
      have hnot : ¬ ((c.buf k).dev = dev ∧ (c.buf k).blockno = blockno) := fun hb => by
        have := hmiss k hk
        rw [Buf.isBlock_iff.2 hb] at this
        cases this
      simp only [Bcache.setBuf, update_of_ne e]
      refine find?_congr_of_false (h k hk hk') ?_ fun j hj hjf => ?_
      · simp [update_of_ne e, Buf.isBlock]
      by_cases ej : j = i
      · subst ej
        simp only [update_self, Buf.isBlock, Bool.and_eq_false_iff, beq_eq_false_iff_ne]
        by_contra hcon
        push Not at hcon
        exact hnot ⟨hcon.1.symm, hcon.2.symm⟩
      · rwa [update_of_ne ej]
    · obtain rfl : i = k := Option.some.inj hk
      simpa [Bcache.setBuf] using hself
  · rw [hget]
    exact ⟨ho, h, fun i hi => by cases hi⟩

/-- `bio_release` of a referenced buffer keeps one live buffer per block. -/
theorem firstOfBlock_bioRelease (ho : RingOrder c l) (h : FirstOfBlock c l) {i : Nat} (hi : i < nbuf)
    (href : (c.buf i).refcnt ≠ 0) :
    ∃ l', RingOrder (bioRelease c i) l' ∧ FirstOfBlock (bioRelease c i) l' := by
  obtain ⟨l', ho', hl'⟩ := ringOrder_bioRelease ho hi
  refine ⟨l', ho', fun k hk hlive => ?_⟩
  have hblk : ∀ j dev blockno, ((bioRelease c i).buf j).isBlock dev blockno =
      (c.buf j).isBlock dev blockno := by
    intro j dev blockno
    rw [bioRelease_buf]
    by_cases e : j = i
    · subst e
      simp [Buf.isBlock]
    · rw [update_of_ne e]
  have hkey : ∀ j, ((bioRelease c i).buf j).dev = (c.buf j).dev ∧
      ((bioRelease c i).buf j).blockno = (c.buf j).blockno := by
    intro j
    rw [bioRelease_buf]
    by_cases e : j = i
    · subst e
      simp
    · rw [update_of_ne e]
      exact ⟨rfl, rfl⟩
  have hk' : (c.buf k).live := by
    rw [bioRelease_buf] at hlive
    by_cases e : k = i
    · exact Or.inr (by rw [e]; exact href)
    · rwa [update_of_ne e] at hlive
  have hold := h k hk hk'
  simp only [hblk, (hkey k).1, (hkey k).2]
  rcases hl' with rfl | rfl
  · exact hold
  by_cases e : k = i
  · subst e
    simp [Buf.isBlock]
  -- the moved buffer is another block's, so the search passes over it
  have hne : (c.buf i).isBlock (c.buf k).dev (c.buf k).blockno = false := by
    by_contra hcon
    obtain ⟨hd, hb⟩ := Buf.isBlock_iff.1 (by simpa using hcon)
    exact e (h.eq_of_block hk hi hk' (Or.inr href) hd.symm hb.symm)
  rw [find?_cons, hne]
  obtain ⟨l1, l2, -, rfl, herase⟩ := exists_erase_eq (ho.mem_iff.2 hi)
  rw [herase, find?_append]
  rw [find?_append, find?_cons, hne] at hold
  exact hold

end

end Slopix.Bio
