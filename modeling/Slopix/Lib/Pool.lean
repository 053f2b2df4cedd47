import Mathlib.Data.List.Basic
import Mathlib.Data.List.Pairwise

/-!
# A pool of blocks

Memory between `base` and `top` is cut into blocks, each a header of `h` bytes and a body. Some blocks
are live, some are free, and taking a block from the free list may cut it in two. `Tidy` says that the
blocks do not overlap, lie inside and are aligned; every operation replaces a block by blocks inside
it or adds one at the top, and both keep this.
-/

namespace Slopix.Lib

open List

/-- A block: where its header starts and how long its body is. -/
structure Block where
  addr : Nat
  size : Nat
  deriving DecidableEq

section

variable (h : Nat)

/-- The first address behind the block. -/
def Block.stop (b : Block) : Nat := b.addr + h + b.size

/-- The blocks have no byte in common. -/
def Block.Apart (b c : Block) : Prop := b.stop h ≤ c.addr ∨ c.stop h ≤ b.addr

/-- Blocks that do not overlap, between `base` and `top`, with addresses and sizes multiples of
`align`. -/
structure Tidy (align base top : Nat) (blocks : List Block) : Prop where
  apart : blocks.Pairwise (Block.Apart h)
  inside : ∀ b ∈ blocks, base ≤ b.addr ∧ b.stop h ≤ top
  aligned : ∀ b ∈ blocks, align ∣ b.addr ∧ align ∣ b.size

variable {h} {align base top : Nat} {blocks rest : List Block} {b : Block}

theorem Block.Apart.symm {c d : Block} (hc : Block.Apart h c d) : Block.Apart h d c := Or.symm hc

instance : Std.Symm (Block.Apart h) := ⟨fun _ _ hc => hc.symm⟩

theorem Tidy.perm {blocks' : List Block} (hp : blocks.Perm blocks') :
    Tidy h align base top blocks ↔ Tidy h align base top blocks' := by
  constructor
  · rintro ⟨hapart, hin, hal⟩
    exact ⟨(hp.pairwise_iff fun hc => hc.symm).1 hapart, fun b hb => hin b (hp.mem_iff.2 hb),
      fun b hb => hal b (hp.mem_iff.2 hb)⟩
  · rintro ⟨hapart, hin, hal⟩
    exact ⟨(hp.pairwise_iff fun hc => hc.symm).2 hapart, fun b hb => hin b (hp.mem_iff.1 hb),
      fun b hb => hal b (hp.mem_iff.1 hb)⟩

/-- A block may be cut into blocks that lie apart. -/
theorem Tidy.cut {bs : List Block} (ht : Tidy h align base top (b :: rest))
    (hbs : bs.Pairwise (Block.Apart h))
    (hin : ∀ c ∈ bs, b.addr ≤ c.addr ∧ c.stop h ≤ b.stop h)
    (hal : ∀ c ∈ bs, align ∣ c.addr ∧ align ∣ c.size) :
    Tidy h align base top (bs ++ rest) := by
  obtain ⟨hapart, hrest⟩ := pairwise_cons.1 ht.apart
  have hb := ht.inside b mem_cons_self
  refine ⟨pairwise_append.2 ⟨hbs, hrest, fun c hc d hd => ?_⟩, fun c hc => ?_, fun c hc => ?_⟩
  · have hd' := hapart d hd
    have hc' := hin c hc
    unfold Block.Apart at hd' ⊢
    omega
  · rcases mem_append.1 hc with hc | hc
    · have hc' := hin c hc
      omega
    · exact ht.inside c (mem_cons_of_mem _ hc)
  · rcases mem_append.1 hc with hc | hc
    · exact hal c hc
    · exact ht.aligned c (mem_cons_of_mem _ hc)

theorem Tidy.extend {size : Nat} (ht : Tidy h align base top rest) (hbase : base ≤ top)
    (htop : align ∣ top) (hsize : align ∣ size) :
    Tidy h align base (top + h + size) (⟨top, size⟩ :: rest) := by
  refine ⟨pairwise_cons.2 ⟨fun c hc => ?_, ht.apart⟩, fun c hc => ?_, fun c hc => ?_⟩
  · exact .inr (ht.inside c hc).2
  · rcases mem_cons.1 hc with rfl | hc
    · exact ⟨hbase, Nat.le_refl _⟩
    · have := ht.inside c hc
      omega
  · rcases mem_cons.1 hc with rfl | hc
    · exact ⟨htop, hsize⟩
    · exact ht.aligned c hc

theorem Tidy.eq_of_addr {c : Block} (ht : Tidy h align base top blocks) (hpos : 0 < h)
    (hb : b ∈ blocks) (hc : c ∈ blocks) (haddr : b.addr = c.addr) : b = c := by
  by_contra hne
  have hapart := ht.apart.forall hb hc hne
  unfold Block.Apart Block.stop at hapart
  omega

end

/-! ## Pools -/

/-- The live blocks, each with the number of bytes asked for; the free list; the end of the memory. -/
structure Pool where
  live : List (Block × Nat)
  freed : List Block
  top : Nat

namespace Pool

variable (h least : Nat)

/-- The blocks in use and the free ones. -/
def blocks (p : Pool) : List Block := p.live.map Prod.fst ++ p.freed

/-- The part of a free block that is handed out, and what is left of it as a free block: nothing if
there is no room for a header and `least` bytes. -/
def portion (size : Nat) (b : Block) : Block × List Block :=
  if size + h + least ≤ b.size then
    (⟨b.addr, size⟩, [⟨b.addr + h + size, b.size - size - h⟩])
  else (b, [])

/-- The first block of the free list that is large enough, with those before and behind it. -/
def firstFit (size : Nat) : List Block → Option (List Block × Block × List Block)
  | [] => none
  | b :: bs =>
    if size ≤ b.size then some ([], b, bs)
    else (firstFit size bs).map fun r => (b :: r.1, r.2)

/-- Hand out a part of `b`, which stands between `pre` and `post` in the free list. -/
def take (p : Pool) (size asked : Nat) (pre : List Block) (b : Block) (post : List Block) : Pool where
  live := ((portion h least size b).1, asked) :: p.live
  freed := pre ++ (portion h least size b).2 ++ post
  top := p.top

/-- Hand out a new block at the top. -/
def extend (p : Pool) (size asked : Nat) : Pool where
  live := (⟨p.top, size⟩, asked) :: p.live
  freed := p.freed
  top := p.top + h + size

/-- Hand out a block of `size` bytes: from the free list, else at the top if there is more memory. -/
def alloc (p : Pool) (grant : Bool) (size asked : Nat) : Option (Block × Pool) :=
  match firstFit size p.freed with
  | some (pre, b, post) => some ((portion h least size b).1, p.take h least size asked pre b post)
  | none => if grant then some (⟨p.top, size⟩, p.extend h size asked) else none

/-- The blocks in use, without the one at `addr`. -/
def liveBut (p : Pool) (addr : Nat) : List (Block × Nat) :=
  p.live.filter fun l => l.1.addr != addr

/-- Put a live block at the head of the free list. -/
def release (p : Pool) (b : Block) : Pool where
  live := p.liveBut b.addr
  freed := b :: p.freed
  top := p.top

/-- Make a live block smaller; the bytes behind it are in no block any more. -/
def shrink (p : Pool) (b : Block) (size asked : Nat) : Pool where
  live := (⟨b.addr, size⟩, asked) :: p.liveBut b.addr
  freed := p.freed
  top := p.top

/-- The invariant of a pool. -/
structure Inv (align base : Nat) (p : Pool) : Prop where
  tidy : Tidy h align base p.top p.blocks
  asked : ∀ l ∈ p.live, l.2 ≤ l.1.size
  base : base ≤ p.top
  top : align ∣ p.top

section

variable {h least} {align base : Nat} {p : Pool} {size asked : Nat} {b : Block}

theorem firstFit_some {l pre post : List Block} (hf : firstFit size l = some (pre, b, post)) :
    l = pre ++ b :: post ∧ size ≤ b.size ∧ ∀ c ∈ pre, c.size < size := by
  induction l generalizing pre with
  | nil => cases hf
  | cons c l ih =>
    unfold firstFit at hf
    split at hf
    · cases hf
      exact ⟨rfl, by assumption, fun c hc => absurd hc not_mem_nil⟩
    obtain ⟨⟨pre', b', post'⟩, hr, he⟩ := Option.map_eq_some_iff.1 hf
    obtain ⟨rfl, hbp⟩ := Prod.mk.inj he
    obtain ⟨rfl, rfl⟩ := Prod.mk.inj hbp
    obtain ⟨rfl, hsize, hpre⟩ := ih hr
    refine ⟨rfl, hsize, fun d hd => ?_⟩
    rcases mem_cons.1 hd with rfl | hd
    · omega
    · exact hpre d hd

theorem firstFit_none {l : List Block} (hf : firstFit size l = none) : ∀ c ∈ l, c.size < size := by
  induction l with
  | nil => exact fun c hc => absurd hc not_mem_nil
  | cons b l ih =>
    unfold firstFit at hf
    split at hf
    · cases hf
    intro c hc
    rcases mem_cons.1 hc with rfl | hc
    · omega
    · exact ih (Option.map_eq_none_iff.1 hf) c hc

theorem Inv.perm_live (hi : Inv h align base p) (hpos : 0 < h) {l : Block × Nat} (hl : l ∈ p.live) :
    p.blocks.Perm (l.1 :: ((p.liveBut l.1.addr).map Prod.fst ++ p.freed)) := by
  have hother : ∀ l' ∈ p.live, l'.1.addr = l.1.addr → l'.1 = l.1 := by
    intro l' hl' haddr
    exact hi.tidy.eq_of_addr hpos (mem_append_left _ (mem_map_of_mem hl'))
      (mem_append_left _ (mem_map_of_mem hl)) haddr
  have hnodup : (p.live.map Prod.fst).Pairwise (Block.Apart h) :=
    (pairwise_append.1 hi.tidy.apart).1
  unfold blocks liveBut
  rw [← cons_append]
  apply List.Perm.append_right
  generalize p.live = live at *
  induction live with
  | nil => cases hl
  | cons l' live ih =>
    obtain ⟨hhead, htail⟩ := pairwise_cons.1 hnodup
    by_cases he : l'.1.addr = l.1.addr
    · -- No later block has this address, so the filter drops only the head.
      have hfirst : l'.1 = l.1 := hother l' mem_cons_self he
      have hrest : live.filter (fun x => x.1.addr != l.1.addr) = live := by
        rw [filter_eq_self]
        intro x hx
        have hap := hhead x.1 (mem_map_of_mem hx)
        unfold Block.Apart Block.stop at hap
        simp only [bne_iff_ne, ne_eq]
        intro haddr
        omega
      rw [filter_cons_of_neg (by simp [he]), hrest, map_cons, hfirst]
    have hmem : l ∈ live := by
      rcases mem_cons.1 hl with rfl | hl
      · exact absurd rfl he
      · exact hl
    rw [filter_cons_of_pos (by simpa using he), map_cons, map_cons]
    exact ((ih hmem (fun x hx => hother x (mem_cons_of_mem _ hx)) htail).cons _).trans
      (List.Perm.swap _ _ _)

/-- The two portions lie inside the block, apart from each other and aligned. -/
theorem portion_cut (least : Nat) (hsize : size ≤ b.size) (hh : align ∣ h) (hsz : align ∣ size)
    (hb : align ∣ b.addr ∧ align ∣ b.size) :
    ((portion h least size b).1 :: (portion h least size b).2).Pairwise (Block.Apart h) ∧
      ∀ c ∈ (portion h least size b).1 :: (portion h least size b).2,
        (b.addr ≤ c.addr ∧ c.stop h ≤ b.stop h) ∧ align ∣ c.addr ∧ align ∣ c.size := by
  unfold portion Block.stop
  split
  · refine ⟨?_, ?_⟩
    · rw [pairwise_pair]
      exact .inl (Nat.le_refl _)
    intro c hc
    rcases mem_cons.1 hc with rfl | hc
    · exact ⟨⟨Nat.le_refl _, by dsimp only; omega⟩, hb.1, hsz⟩
    rw [mem_singleton.1 hc]
    refine ⟨by dsimp only; omega, ?_, ?_⟩
    · exact Nat.dvd_add (Nat.dvd_add hb.1 hh) hsz
    · exact Nat.dvd_sub (Nat.dvd_sub hb.2 hsz) hh
  · refine ⟨pairwise_singleton _ _, fun c hc => ?_⟩
    rw [mem_singleton.1 hc]
    exact ⟨⟨Nat.le_refl _, Nat.le_refl _⟩, hb⟩

theorem portion_addr : (portion h least size b).1.addr = b.addr := by
  unfold portion
  split <;> rfl

theorem portion_size (hsize : size ≤ b.size) : size ≤ (portion h least size b).1.size := by
  unfold portion
  split
  · exact Nat.le_refl _
  · exact hsize

theorem Inv.take (hi : Inv h align base p) (hh : align ∣ h) (hsz : align ∣ size)
    {pre post : List Block} (hf : p.freed = pre ++ b :: post) (hsize : size ≤ b.size)
    (hasked : asked ≤ size) : Inv h align base (p.take h least size asked pre b post) := by
  have hperm : p.blocks.Perm (b :: (p.live.map Prod.fst ++ (pre ++ post))) := by
    rw [perm_iff_count]
    intro c
    simp only [blocks, hf, count_append, count_cons]
    omega
  have hb := (Tidy.perm hperm).1 hi.tidy
  obtain ⟨hapart, hin⟩ :=
    portion_cut least hsize hh hsz (hb.aligned b mem_cons_self)
  refine ⟨?_, ?_, hi.base, hi.top⟩
  · refine (Tidy.perm ?_).1
      (hb.cut hapart (fun c hc => (hin c hc).1) (fun c hc => (hin c hc).2))
    rw [perm_iff_count]
    intro c
    simp only [blocks, Pool.take, map_cons, count_append, count_cons]
    omega
  intro l hl
  rcases mem_cons.1 hl with rfl | hl
  · exact Nat.le_trans hasked (portion_size hsize)
  · exact hi.asked l hl

theorem Inv.extend (hi : Inv h align base p) (hh : align ∣ h) (hsz : align ∣ size)
    (hasked : asked ≤ size) : Inv h align base (p.extend h size asked) := by
  refine ⟨hi.tidy.extend hi.base hi.top hsz, ?_, ?_, ?_⟩
  · intro l hl
    rcases mem_cons.1 hl with rfl | hl
    · exact hasked
    · exact hi.asked l hl
  · have := hi.base
    dsimp only [Pool.extend]
    omega
  · exact Nat.dvd_add (Nat.dvd_add hi.top hh) hsz

theorem Inv.release (hi : Inv h align base p) (hpos : 0 < h) {l : Block × Nat}
    (hl : l ∈ p.live) : Inv h align base (p.release l.1) := by
  refine ⟨?_, ?_, hi.base, hi.top⟩
  · refine (Tidy.perm ?_).1 hi.tidy
    refine (hi.perm_live hpos hl).trans ?_
    rw [perm_iff_count]
    intro c
    simp only [blocks, Pool.release, count_append, count_cons]
    omega
  · intro l' hl'
    exact hi.asked l' (mem_of_mem_filter hl')

theorem Inv.shrink (hi : Inv h align base p) (hpos : 0 < h) (hsz : align ∣ size)
    (hasked : asked ≤ size) {l : Block × Nat} (hl : l ∈ p.live) (hsize : size ≤ l.1.size) :
    Inv h align base (p.shrink l.1 size asked) := by
  have hb := (Tidy.perm (hi.perm_live hpos hl)).1 hi.tidy
  refine ⟨?_, ?_, hi.base, hi.top⟩
  · have hone : [Block.mk l.1.addr size].Pairwise (Block.Apart h) := pairwise_singleton _ _
    refine hb.cut hone ?_ ?_
    · intro c hc
      rw [mem_singleton.1 hc]
      exact ⟨Nat.le_refl _, by unfold Block.stop; dsimp only; omega⟩
    · intro c hc
      rw [mem_singleton.1 hc]
      exact ⟨(hb.aligned l.1 mem_cons_self).1, hsz⟩
  intro l' hl'
  rcases mem_cons.1 hl' with rfl | hl'
  · exact hasked
  · exact hi.asked l' (mem_of_mem_filter hl')

end

end Pool

end Slopix.Lib
