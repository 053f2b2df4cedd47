import Slopix.Lib.Pool
import Slopix.Libc.Malloc

/-!
# The free list in memory

`Chain` reads the list from `free_list` through the `next` fields. The walk of `malloc` along a chain
finds the first block that fits, cutting a block puts a second one behind it, and unlinking takes a
block out; nothing else of the chain changes.
-/

namespace Slopix.Libc

open Lib List

/-! ## Header fields -/

namespace Heap

section

variable {h : Heap} {b c v : Nat}

theorem mem_setSize_of {k : Nat} (hk : k < b ∨ b + 8 ≤ k) : (h.setSize b v).mem k = h.mem k := by
  simp only [setSize, putLe]
  rw [if_neg (by omega)]

theorem mem_setNext_of {k : Nat} (hk : k < b + 8 ∨ b + 16 ≤ k) :
    (h.setNext b v).mem k = h.mem k := by
  simp only [setNext, putLe]
  rw [if_neg (by omega)]

theorem mem_setFlags_of {k : Nat} (hk : k < b + 16 ∨ b + 24 ≤ k) :
    (h.setFlags b v).mem k = h.mem k := by
  simp only [setFlags, putLe]
  rw [if_neg (by omega)]

@[simp] theorem brk_setSize : (h.setSize b v).brk = h.brk := rfl
@[simp] theorem brk_setNext : (h.setNext b v).brk = h.brk := rfl
@[simp] theorem brk_setFlags : (h.setFlags b v).brk = h.brk := rfl

theorem blockSize_setSize (hv : v < 2 ^ 64) : (h.setSize b v).blockSize b = v :=
  getLe_putLe_self hv

end

theorem blockFlags_lt (h : Heap) (b : Nat) : h.blockFlags b < 2 ^ 64 := by
  have hlt := getLe_lt 8 h.mem (b + 16)
  unfold blockFlags
  omega

theorem fields_congr {h h' : Heap} {b : Nat} (hsame : ∀ k, b ≤ k → k < b + 24 → h.mem k = h'.mem k) :
    h.blockSize b = h'.blockSize b ∧ h.blockNext b = h'.blockNext b ∧
      h.blockFlags b = h'.blockFlags b :=
  ⟨getLe_congr fun k hk hk' => hsame k hk (by omega),
    getLe_congr fun k hk hk' => hsame k (by omega) (by omega),
    getLe_congr fun k hk hk' => hsame k (by omega) (by omega)⟩

/-- The chain of headers from `ptr` runs through these blocks in order and ends in NULL. -/
def Chain (h : Heap) : Nat → List Block → Prop
  | ptr, [] => ptr = 0
  | ptr, b :: bs =>
    ptr = b.addr ∧ h.blockSize ptr = b.size ∧ h.blockFlags ptr % 2 = FLAG_FREE ∧
      Chain h (h.blockNext ptr) bs

section

variable {h h' : Heap} {bs : List Block}

/-- A chain lives on in a memory that has the same headers. -/
theorem Chain.congr {ptr : Nat} (hc : h.Chain ptr bs)
    (hsame : ∀ b ∈ bs, ∀ k, b.addr ≤ k → k < b.addr + 24 → h.mem k = h'.mem k) :
    h'.Chain ptr bs := by
  induction bs generalizing ptr with
  | nil => exact hc
  | cons b bs ih =>
    obtain ⟨rfl, hsize, hflags, hnext⟩ := hc
    obtain ⟨hs, hn, hf⟩ := fields_congr (hsame b mem_cons_self)
    refine ⟨rfl, hs ▸ hsize, hf ▸ hflags, ?_⟩
    rw [← hn]
    exact ih hnext fun c hc => hsame c (mem_cons_of_mem _ hc)

/-- The address of the last block, or `prev` if there is none. -/
def lastAddr (prev : Nat) (bs : List Block) : Nat := bs.foldl (fun _ b => b.addr) prev

theorem lastAddr_append_singleton (prev : Nat) (b : Block) :
    lastAddr prev (bs ++ [b]) = b.addr := by
  simp [lastAddr]

/-- Whatever holds of every block's address holds of the last one's. -/
theorem lastAddr_of {P : Nat → Prop} (hall : ∀ b ∈ bs, P b.addr) (hne : lastAddr 0 bs ≠ 0) :
    P (lastAddr 0 bs) := by
  rcases eq_nil_or_concat bs with rfl | ⟨pre, d, rfl⟩
  · exact absurd rfl hne
  · rw [concat_eq_append, lastAddr_append_singleton]
    exact hall d (by simp)

/-- The walk finds what `firstFit` finds, if it may make one more step than there are blocks. -/
theorem Chain.findBlock {ptr prev size fuel : Nat} (hc : h.Chain ptr bs) (hfuel : bs.length < fuel)
    (hpos : ∀ b ∈ bs, 0 < b.addr) :
    h.findBlock size fuel prev ptr =
      some ((Pool.firstFit size bs).map fun r => (lastAddr prev r.1, r.2.1.addr)) := by
  induction bs generalizing ptr prev fuel with
  | nil =>
    obtain ⟨fuel, rfl⟩ : ∃ n, fuel = n + 1 := ⟨fuel - 1, by simp only [length_nil] at hfuel; omega⟩
    rw [show ptr = 0 from hc]
    rfl
  | cons b bs ih =>
    obtain ⟨fuel, rfl⟩ : ∃ n, fuel = n + 1 := ⟨fuel - 1, by omega⟩
    obtain ⟨rfl, hsize, hflags, hnext⟩ := hc
    have hne : b.addr ≠ 0 := Nat.pos_iff_ne_zero.1 (hpos b mem_cons_self)
    rw [Heap.findBlock, if_neg hne, hsize, Pool.firstFit]
    by_cases hfit : size ≤ b.size
    · rw [if_pos ⟨hflags, hfit⟩, if_pos hfit]
      rfl
    rw [if_neg fun hx => hfit hx.2, if_neg hfit,
      ih hnext (Nat.lt_of_succ_lt_succ hfuel) fun c hc => hpos c (mem_cons_of_mem _ hc),
      Option.map_map]
    rfl

variable {pre post : List Block}

/-- Writing the `next` field of the last block of `pre` to go on with other blocks. -/
theorem Chain.relink {ptr : Nat} {b : Block} {rest : List Block}
    (hc : h.Chain ptr (pre ++ b :: post)) (hne : pre ≠ [])
    (hdistinct : (pre.map Block.addr).Nodup)
    (hsize : ∀ c ∈ pre, h'.blockSize c.addr = h.blockSize c.addr)
    (hflags : ∀ c ∈ pre, h'.blockFlags c.addr = h.blockFlags c.addr)
    (hnext : ∀ c ∈ pre, c.addr ≠ lastAddr 0 pre → h'.blockNext c.addr = h.blockNext c.addr)
    (hrest : h'.Chain (h'.blockNext (lastAddr 0 pre)) rest) :
    h'.Chain ptr (pre ++ rest) := by
  induction pre generalizing ptr with
  | nil => exact absurd rfl hne
  | cons c pre ih =>
    obtain ⟨rfl, hs, hf, hn⟩ := hc
    refine ⟨rfl, (hsize c mem_cons_self).trans hs, ?_, ?_⟩
    · rw [hflags c mem_cons_self]
      exact hf
    rcases eq_nil_or_concat pre with rfl | ⟨pre', d, rfl⟩
    · exact hrest
    -- The last block comes later, so this one keeps its successor.
    rw [concat_eq_append] at *
    have hlast : lastAddr 0 (c :: (pre' ++ [d])) = d.addr := by simp [lastAddr]
    have hlast' : lastAddr 0 (pre' ++ [d]) = d.addr := lastAddr_append_singleton 0 d
    rw [hlast] at hnext hrest
    obtain ⟨hnot, hdistinct⟩ := nodup_cons.1 hdistinct
    have hcd : c.addr ≠ d.addr := by
      intro heq
      exact hnot (heq ▸ mem_map_of_mem (mem_append_right _ (mem_singleton_self d)))
    rw [hnext c mem_cons_self hcd]
    refine ih hn (by simp) hdistinct
      (fun e he => hsize e (mem_cons_of_mem _ he))
      (fun e he => hflags e (mem_cons_of_mem _ he)) ?_ ?_
    · rw [hlast']
      exact fun e he => hnext e (mem_cons_of_mem _ he)
    · rw [hlast']
      exact hrest

theorem Chain.suffix {ptr : Nat} {b : Block}
    (hc : h.Chain ptr (pre ++ b :: post)) : h.Chain b.addr (b :: post) := by
  induction pre generalizing ptr with
  | nil =>
    obtain ⟨rfl, hrest⟩ := hc
    exact ⟨rfl, hrest⟩
  | cons c pre ih => exact ih hc.2.2.2

theorem Chain.splice {ptr : Nat} {b b' : Block} {post' : List Block}
    (hc : h.Chain ptr (pre ++ b :: post))
    (hsame : ∀ c ∈ pre, ∀ k, c.addr ≤ k → k < c.addr + 24 → h.mem k = h'.mem k)
    (hnew : h'.Chain b.addr (b' :: post')) : h'.Chain ptr (pre ++ b' :: post') := by
  induction pre generalizing ptr with
  | nil =>
    obtain ⟨rfl, _⟩ := hc
    exact hnew
  | cons c pre ih =>
    obtain ⟨rfl, hsize, hflags, hnext⟩ := hc
    obtain ⟨hs, hn, hf⟩ := fields_congr (hsame c mem_cons_self)
    refine ⟨rfl, hs ▸ hsize, hf ▸ hflags, ?_⟩
    rw [← hn]
    exact ih hnext fun d hd => hsame d (mem_cons_of_mem _ hd)

end

section

variable {h : Heap} {b : Block} {pre post : List Block} {size top : Nat}

theorem brk_splitBlock (curr : Nat) : (h.splitBlock curr size).brk = h.brk := by
  unfold splitBlock
  split <;> rfl

theorem freeList_splitBlock (curr size : Nat) : (h.splitBlock curr size).freeList = h.freeList := by
  unfold splitBlock
  split <;> rfl

theorem splitBlock_mem {curr : Nat} (hfit : size + HEADER_SIZE + MIN_ALLOC ≤ h.blockSize curr)
    (htop : curr + HEADER_SIZE + h.blockSize curr < 2 ^ 64) (hcurr : 16 ≤ curr) :
    (h.splitBlock curr size).mem =
      putLe 8 (putLe 8 (putLe 8 (putLe 8 (putLe 8 h.mem
        (curr + HEADER_SIZE + size) (h.blockSize curr - size - HEADER_SIZE))
        (curr + HEADER_SIZE + size + 8) (h.blockNext curr))
        (curr + HEADER_SIZE + size + 16) FLAG_FREE)
        curr size)
        (curr + 8) (curr + HEADER_SIZE + size) := by
  unfold HEADER_SIZE MIN_ALLOC at *
  have hwrap : size64 (size + 32 + 16) = size + 32 + 16 := Nat.mod_eq_of_lt (by omega)
  have hnew : size64 (curr + 32 + size) = curr + 32 + size := Nat.mod_eq_of_lt (by omega)
  have hleft : size64 (h.blockSize curr + 2 ^ 64 - size + 2 ^ 64 - 32) =
      h.blockSize curr - size - 32 := by
    unfold size64
    omega
  have hnext : (h.setSize (curr + 32 + size) (h.blockSize curr - size - 32)).blockNext curr =
      h.blockNext curr :=
    getLe_putLe_of_disjoint (.inl (by omega))
  unfold splitBlock HEADER_SIZE MIN_ALLOC
  rw [hwrap, if_pos hfit]
  simp only [hnew, hleft, hnext]
  rfl

theorem splitBlock_of_lt {curr : Nat} (hfit : ¬ size + HEADER_SIZE + MIN_ALLOC ≤ h.blockSize curr)
    (hsize : size ≤ h.blockSize curr) (htop : curr + HEADER_SIZE + h.blockSize curr < 2 ^ 64)
    (hcurr : 16 ≤ curr) : h.splitBlock curr size = h := by
  unfold HEADER_SIZE MIN_ALLOC at *
  have hwrap : size64 (size + 32 + 16) = size + 32 + 16 := Nat.mod_eq_of_lt (by omega)
  unfold splitBlock HEADER_SIZE MIN_ALLOC
  rw [hwrap, if_neg hfit]

theorem mem_splitBlock (hb : h.blockSize b.addr = b.size) (htop : b.stop HEADER_SIZE < 2 ^ 64)
    (haddr : 16 ≤ b.addr) (hsize : size ≤ b.size) {k : Nat}
    (hk : k < b.addr ∨ b.stop HEADER_SIZE ≤ k) : (h.splitBlock b.addr size).mem k = h.mem k := by
  unfold Block.stop at htop hk
  rw [← hb] at htop hk hsize
  by_cases hfit : size + HEADER_SIZE + MIN_ALLOC ≤ h.blockSize b.addr
  · rw [splitBlock_mem hfit htop haddr]
    unfold HEADER_SIZE MIN_ALLOC at *
    simp only [putLe]
    repeat rw [if_neg (by omega)]
  · rw [splitBlock_of_lt hfit hsize htop haddr]

/-- After the cut the chain runs through the first part, then through the second if there is one. -/
theorem Chain.splitBlock {ptr : Nat} (hc : h.Chain ptr (pre ++ b :: post))
    (hapart : ∀ c ∈ pre ++ post, Block.Apart HEADER_SIZE b c)
    (htop : b.stop HEADER_SIZE < 2 ^ 64) (haddr : 16 ≤ b.addr) (hsize : size ≤ b.size) :
    (h.splitBlock b.addr size).Chain ptr
      (pre ++ (Pool.portion HEADER_SIZE MIN_ALLOC size b).1 ::
        ((Pool.portion HEADER_SIZE MIN_ALLOC size b).2 ++ post)) := by
  obtain ⟨-, hb, hflags, hnext⟩ := hc.suffix
  have hsame : ∀ c ∈ pre ++ post, ∀ k, c.addr ≤ k → k < c.addr + 24 →
      h.mem k = (h.splitBlock b.addr size).mem k := by
    intro c hc k hk hk'
    have hout := hapart c hc
    unfold Block.Apart Block.stop HEADER_SIZE at hout
    refine (mem_splitBlock hb htop haddr hsize ?_).symm
    unfold Block.stop HEADER_SIZE
    omega
  have hpost : (h.splitBlock b.addr size).Chain (h.blockNext b.addr) post :=
    hnext.congr fun c hc => hsame c (mem_append_right _ hc)
  refine hc.splice (fun c hc => hsame c (mem_append_left _ hc)) ?_
  unfold Pool.portion
  by_cases hfit : size + HEADER_SIZE + MIN_ALLOC ≤ b.size
  · rw [if_pos hfit]
    have hmem := splitBlock_mem (hb.symm ▸ hfit) (hb.symm ▸ htop) haddr
    unfold Block.stop HEADER_SIZE MIN_ALLOC at *
    rw [hb] at hmem
    have hlt : size < 256 ^ 8 := by omega
    have hlt' : b.size - size - 32 < 256 ^ 8 := by omega
    have hlt'' : b.addr + 32 + size < 256 ^ 8 := by omega
    refine ⟨rfl, ?_, ?_, ?_⟩
    · simp only [blockSize, hmem]
      rw [getLe_putLe_of_disjoint (by omega), getLe_putLe_self hlt]
    · simp only [blockFlags, hmem] at hflags ⊢
      repeat rw [getLe_putLe_of_disjoint (by omega)]
      exact hflags
    -- The first part is followed by the second, and that by what followed the block.
    have hlink : (h.splitBlock b.addr size).blockNext b.addr = b.addr + 32 + size := by
      simp only [blockNext, hmem]
      rw [getLe_putLe_self hlt'']
    rw [hlink]
    refine ⟨rfl, ?_, ?_, ?_⟩
    · simp only [blockSize, hmem]
      repeat rw [getLe_putLe_of_disjoint (by omega)]
      exact getLe_putLe_self hlt'
    · simp only [blockFlags, hmem]
      repeat rw [getLe_putLe_of_disjoint (by omega)]
      rw [getLe_putLe_self (by decide)]
      rfl
    simp only [blockNext, hmem] at hpost ⊢
    repeat rw [getLe_putLe_of_disjoint (by omega)]
    rw [getLe_putLe_self (getLe_lt _ _ _)]
    exact hpost
  · rw [if_neg hfit, splitBlock_of_lt (hb ▸ hfit) (hb ▸ hsize) (hb ▸ htop) haddr]
    exact ⟨rfl, hb, hflags, hnext⟩

end

section

variable {h : Heap} {b : Block} {pre post : List Block}

theorem brk_unlinkBlock (prev curr : Nat) : (h.unlinkBlock prev curr).brk = h.brk := by
  unfold unlinkBlock
  split <;> rfl

/-- Taking a block out writes its own header and the `next` field before it. -/
theorem mem_unlinkBlock {prev curr k : Nat} (hk : k < curr + 8 ∨ curr + 24 ≤ k)
    (hprev : prev ≠ 0 → k < prev + 8 ∨ prev + 16 ≤ k) :
    (h.unlinkBlock prev curr).mem k = h.mem k := by
  unfold unlinkBlock
  split
  · rw [mem_setNext_of (by omega), mem_setFlags_of (by omega)]
  · rename_i hne
    rw [mem_setNext_of (by omega), mem_setFlags_of (by omega), mem_setNext_of (hprev hne)]

/-- The free list without one of its blocks. -/
theorem Chain.unlinkBlock (hc : h.Chain h.freeList (pre ++ b :: post))
    (hapart : (pre ++ b :: post).Pairwise (Block.Apart HEADER_SIZE))
    (hpos : ∀ c ∈ pre, 0 < c.addr) :
    (h.unlinkBlock (lastAddr 0 pre) b.addr).Chain
      (h.unlinkBlock (lastAddr 0 pre) b.addr).freeList (pre ++ post) := by
  obtain ⟨hpre, hbpost, hcross⟩ := pairwise_append.1 hapart
  have hbp := (pairwise_cons.1 hbpost).1
  obtain ⟨-, hb, hflags, hnext⟩ := hc.suffix
  -- The blocks behind `b` keep their headers.
  have hpost : (h.unlinkBlock (lastAddr 0 pre) b.addr).Chain (h.blockNext b.addr) post := by
    refine hnext.congr fun c hcp k hk hk' => (mem_unlinkBlock ?_ ?_).symm
    · have hx := hbp c hcp
      unfold Block.Apart Block.stop HEADER_SIZE at hx
      omega
    intro hne
    rcases eq_nil_or_concat pre with rfl | ⟨pre', d, rfl⟩
    · exact absurd rfl hne
    have hx := hcross d (by simp) c (mem_cons_of_mem _ hcp)
    rw [concat_eq_append, lastAddr_append_singleton]
    unfold Block.Apart Block.stop HEADER_SIZE at hx
    omega
  rcases eq_nil_or_concat pre with rfl | ⟨pre', d, rfl⟩
  · exact hpost
  rw [concat_eq_append] at *
  have hlast : lastAddr 0 (pre' ++ [d]) = d.addr := lastAddr_append_singleton 0 d
  have hd : d ∈ pre' ++ [d] := by simp
  have hdpos : d.addr ≠ 0 := Nat.pos_iff_ne_zero.1 (hpos d hd)
  have hdb := hcross d hd b mem_cons_self
  rw [hlast] at hpost ⊢
  have hmem : ∀ c ∈ pre' ++ [d], ∀ k, c.addr ≤ k → k < c.addr + 24 →
      (c = d → k < d.addr + 8 ∨ d.addr + 16 ≤ k) →
      (h.unlinkBlock d.addr b.addr).mem k = h.mem k := by
    intro c hc k hk hk' hcd
    have hx := hcross c hc b mem_cons_self
    refine mem_unlinkBlock ?_ fun _ => ?_
    · unfold Block.Apart Block.stop HEADER_SIZE at hx
      omega
    by_cases he : c = d
    · exact hcd he
    · have hy := hpre.forall hc hd he
      unfold Block.Apart Block.stop HEADER_SIZE at hy
      omega
  have hfree : (h.unlinkBlock d.addr b.addr).freeList = h.freeList := by
    unfold Heap.unlinkBlock
    rw [if_neg hdpos]
    rfl
  rw [hfree]
  have hlink : (h.unlinkBlock d.addr b.addr).blockNext d.addr = h.blockNext b.addr := by
    unfold Heap.unlinkBlock Block.Apart Block.stop HEADER_SIZE at *
    rw [if_neg hdpos]
    simp only [blockNext, setNext, setFlags]
    repeat rw [getLe_putLe_of_disjoint (by omega)]
    exact getLe_putLe_self (getLe_lt _ _ _)
  refine Chain.relink hc (by simp) ?_ (fun c hc => ?_) (fun c hc => ?_) (fun c hc hne => ?_) ?_
  · refine pairwise_map.2 (hpre.imp fun hx heq => ?_)
    unfold Block.Apart Block.stop HEADER_SIZE at hx
    omega
  · refine getLe_congr fun k hk hk' => hmem c hc k hk (by omega) ?_
    rintro rfl
    omega
  · refine getLe_congr fun k hk hk' => hmem c hc k (by omega) (by omega) ?_
    rintro rfl
    omega
  · rw [hlast] at hne
    refine getLe_congr fun k hk hk' => hmem c hc k (by omega) (by omega) ?_
    rintro rfl
    exact absurd rfl hne
  · rw [hlast, hlink]
    exact hpost

end

end Heap

end Slopix.Libc
