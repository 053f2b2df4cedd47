import Slopix.Libc.FreeList

/-!
# The heap as a pool of blocks

The memory that `malloc` manages represents a pool: the chain from `free_list` runs through the free
blocks in order and ends in NULL, every header holds the size of its block, and the break is the top.
Each call keeps this, returns what the pool returns, and writes nothing into live blocks that it was
not given.
-/

namespace Slopix.Libc

open Lib List Option Heap

/-! ## Calls -/

/-- The calls of a client, and its own stores into memory. -/
inductive Call where
  | malloc (size : Nat)
  | calloc (count size : Nat)
  | realloc (ptr size : Nat)
  | free (ptr : Nat)
  | store (addr : Nat) (c : UInt8)

/-- A call on the heap; `grant` says whether the kernel gives memory. -/
def Heap.exec (h : Heap) (fuel : Nat) (grant : Bool) : Call → Option (Nat × Heap)
  | .malloc size => h.malloc fuel grant size
  | .calloc count size => h.calloc fuel grant count size
  | .realloc ptr size => h.realloc fuel grant ptr size
  | .free ptr => some (0, h.free ptr)
  | .store addr c => some (0, { h with mem := Function.update h.mem addr c })

/-- The pointer to the body of a live block. -/
def ptrOf (l : Block × Nat) : Nat := l.1.addr + HEADER_SIZE

/-- The live block whose pointer this is. -/
def liveAt (p : Pool) (ptr : Nat) : Option (Block × Nat) := p.live.find? fun l => ptrOf l == ptr

/-- What a pool gives for a request. -/
def request (p : Pool) (grant : Bool) (size asked : Nat) : Nat × Pool :=
  if size = 0 then (0, p)
  else
    match p.alloc HEADER_SIZE MIN_ALLOC (grant && decide (p.top + allocSize size < 2 ^ 64))
        (roundSize size) asked with
    | none => (0, p)
    | some (b, p') => (b.addr + HEADER_SIZE, p')

/-- A call on the pool. -/
def answer (p : Pool) (grant : Bool) : Call → Nat × Pool
  | .malloc size => request p grant size size
  | .calloc count size =>
    if count = 0 ∨ size = 0 ∨ count > (2 ^ 64 - 1) / size then (0, p)
    else request p grant (count * size) (count * size)
  | .realloc ptr size =>
    if ptr = 0 then request p grant size size
    else
      match liveAt p ptr with
      | none => (0, p)
      | some l =>
        if size = 0 then (0, p.release l.1)
        else if roundSize size ≤ l.1.size then (ptr, p.shrink l.1 (roundSize size) size)
        else if (request p grant (roundSize size) size).1 = 0 then (0, p)
        else
          ((request p grant (roundSize size) size).1,
            (request p grant (roundSize size) size).2.release l.1)
  | .free ptr =>
    match liveAt p ptr with
    | none => (0, p)
    | some l => (0, p.release l.1)
  | .store _ _ => (0, p)

/-- The bytes that a call asks for. -/
def Call.size : Call → Nat
  | .malloc size => size
  | .calloc count size => if count > (2 ^ 64 - 1) / size then 0 else count * size
  | .realloc _ size => size
  | _ => 0

/-- The pointer that a call is given. -/
def Call.ptr : Call → Nat
  | .realloc ptr _ => ptr
  | .free ptr => ptr
  | _ => 0

/-- What a client may call: `free` and `realloc` get NULL or a live pointer, stores go to bytes it asked
for, sizes are of type `size_t`, and the argument for `sbrk` is positive as a long. -/
structure Proper (p : Pool) (c : Call) : Prop where
  live : c.ptr = 0 ∨ ∃ l ∈ p.live, ptrOf l = c.ptr
  store : ∀ addr v, c = .store addr v → ∃ l ∈ p.live, ptrOf l ≤ addr ∧ addr < ptrOf l + l.2
  size : c.size < 2 ^ 64
  positive : 0 < allocSize c.size ∧ allocSize c.size < 2 ^ 63

/-- Rounding the size up and adding the header does not wrap. -/
def Unwrapped (c : Call) : Prop := c.size + 15 + HEADER_SIZE < 2 ^ 64

instance (c : Call) : Decidable (Unwrapped c) :=
  inferInstanceAs (Decidable (c.size + 15 + HEADER_SIZE < 2 ^ 64))

/-- The heaps and pools that calls lead to, from an empty free list and the break at `base`. -/
inductive Reachable (ok : Call → Prop) (base : Nat) : Heap → Pool → Prop
  | init (mem : Bytes) : Reachable ok base ⟨mem, 0, base⟩ ⟨[], [], base⟩
  | call {h h' : Heap} {p : Pool} {c : Call} {fuel r : Nat} {grant : Bool} :
      Reachable ok base h p → Proper p c → ok c → h.exec fuel grant c = some (r, h') →
      Reachable ok base h' (answer p grant c).2

/-! ## What the heap promises -/

/-- The blocks are where they should be. -/
structure Sound (base : Nat) (h : Heap) (p : Pool) : Prop where
  aligned : ∀ l ∈ p.live, ptrOf l % 16 = 0
  inside : ∀ l ∈ p.live, base ≤ ptrOf l ∧ l.2 ≤ l.1.size ∧ ptrOf l + l.1.size ≤ h.brk
  apart : (p.live.map Prod.fst ++ p.freed).Pairwise (Block.Apart HEADER_SIZE)
  chain : h.Chain h.freeList p.freed
  acyclic : (p.freed.map Block.addr).Nodup

/-- The bytes of a live block are the same before and after. -/
def SameBytes (h h' : Heap) (l : Block × Nat) : Prop :=
  ∀ k < l.1.size, h'.mem (ptrOf l + k) = h.mem (ptrOf l + k)

/-- What one call does for the client. -/
structure Effect (c : Call) (h : Heap) (p : Pool) (r : Nat) (h' : Heap) (p' : Pool) : Prop where
  kept : ∀ l ∈ p.live, ptrOf l ≠ c.ptr → l ∈ p'.live ∧ ∀ k < l.1.size,
    (∀ v, c ≠ .store (ptrOf l + k) v) → h'.mem (ptrOf l + k) = h.mem (ptrOf l + k)
  fresh : (∀ addr v, c ≠ .store addr v) → r ≠ 0 → ∃ l ∈ p'.live, ptrOf l = r ∧ l.2 = c.size
  zeroed : ∀ count size, c = .calloc count size → r ≠ 0 → ∀ k < count * size, h'.mem (r + k) = 0
  copied : ∀ l ∈ p.live, ∀ size, c = .realloc (ptrOf l) size → r ≠ 0 →
    ∀ k < min l.2 size, h'.mem (r + k) = h.mem (ptrOf l + k)
  refused : ∀ l ∈ p.live, ∀ size, c = .realloc (ptrOf l) size → size ≠ 0 → r = 0 →
    l ∈ p'.live ∧ SameBytes h h' l

/-! ## Heap and pool agree -/

/-- The heap represents the pool. -/
structure Rep (base : Nat) (h : Heap) (p : Pool) : Prop where
  chain : h.Chain h.freeList p.freed
  sizes : ∀ l ∈ p.live, h.blockSize l.1.addr = l.1.size
  brk : h.brk = p.top
  inv : p.Inv HEADER_SIZE 16 base
  base : 0 < base
  top : p.top < 2 ^ 64

section

variable {base : Nat} {h h' : Heap} {p : Pool}

theorem Rep.bounds (hr : Rep base h p) {b : Block} (hb : b ∈ p.blocks) :
    base ≤ b.addr ∧ 16 ≤ b.addr ∧ b.stop HEADER_SIZE ≤ p.top ∧ 16 ∣ b.addr := by
  have hin := hr.inv.tidy.inside b hb
  have hal := (hr.inv.tidy.aligned b hb).1
  have hpos := hr.base
  refine ⟨hin.1, ?_, hin.2, hal⟩
  omega

theorem live_mem {l : Block × Nat} (hl : l ∈ p.live) : l.1 ∈ p.blocks :=
  mem_append_left _ (mem_map_of_mem hl)

theorem freed_mem {b : Block} (hb : b ∈ p.freed) : b ∈ p.blocks := mem_append_right _ hb

theorem Rep.live_freed (hr : Rep base h p) {l : Block × Nat} (hl : l ∈ p.live) {b : Block}
    (hb : b ∈ p.freed) : Block.Apart HEADER_SIZE l.1 b :=
  (pairwise_append.1 hr.inv.tidy.apart).2.2 l.1 (mem_map_of_mem hl) b hb

/-- Live blocks with different pointers have no byte in common. -/
theorem Rep.live_live (hr : Rep base h p) {l l' : Block × Nat} (hl : l ∈ p.live) (hl' : l' ∈ p.live)
    (hne : ptrOf l ≠ ptrOf l') : Block.Apart HEADER_SIZE l.1 l'.1 := by
  refine (pairwise_append.1 hr.inv.tidy.apart).1.forall (mem_map_of_mem hl)
    (mem_map_of_mem hl') fun heq => hne ?_
  unfold ptrOf
  rw [heq]

/-- A heap that differs only in bodies of live blocks represents the same pool. -/
theorem Rep.store (hr : Rep base h p) (hfree : h'.freeList = h.freeList) (hbrk : h'.brk = h.brk)
    {l : Block × Nat} (hl : l ∈ p.live)
    (hsame : ∀ k, k < ptrOf l ∨ ptrOf l + l.1.size ≤ k → h'.mem k = h.mem k) : Rep base h' p := by
  refine ⟨?_, fun l' hl' => ?_, hbrk.trans hr.brk, hr.inv, hr.base, hr.top⟩
  · rw [hfree]
    refine hr.chain.congr fun b hb k hk hk' => (hsame k ?_).symm
    have hx := hr.live_freed hl hb
    unfold Block.Apart Block.stop HEADER_SIZE at hx
    unfold ptrOf HEADER_SIZE
    omega
  refine (getLe_congr fun k hk hk' => hsame k ?_).trans (hr.sizes l' hl')
  by_cases he : ptrOf l = ptrOf l'
  · unfold ptrOf HEADER_SIZE at *
    omega
  have hx := hr.live_live hl hl' he
  unfold Block.Apart Block.stop HEADER_SIZE at hx
  unfold ptrOf HEADER_SIZE
  omega

/-- What the heap represents is sound. -/
theorem Rep.sound (hr : Rep base h p) : Sound base h p where
  aligned l hl := by
    have hx := (hr.bounds (live_mem hl)).2.2.2
    unfold ptrOf HEADER_SIZE
    omega
  inside l hl := by
    have hx := hr.bounds (live_mem hl)
    have hbrk := hr.brk
    have hasked := hr.inv.asked l hl
    unfold Block.stop at hx
    unfold ptrOf
    omega
  apart := hr.inv.tidy.apart
  chain := hr.chain
  acyclic := by
    have hx := (pairwise_append.1 hr.inv.tidy.apart).2.1
    refine pairwise_map.2 (hx.imp fun hab heq => ?_)
    unfold Block.Apart Block.stop HEADER_SIZE at hab
    omega

/-! ## Requests -/

theorem roundSize_spec {size : Nat} (hsize : size + 15 + HEADER_SIZE < 2 ^ 64) :
    size ≤ roundSize size ∧ 16 ≤ roundSize size ∧ 16 ∣ roundSize size ∧
      allocSize size = HEADER_SIZE + roundSize size := by
  unfold allocSize roundSize alignUp size64 MIN_ALLOC HEADER_SIZE at *
  split <;> omega

theorem roundSize_of_dvd {size : Nat} (hsize : size + 15 < 2 ^ 64) (hdvd : 16 ∣ size)
    (hmin : 16 ≤ size) : roundSize size = size := by
  unfold roundSize alignUp size64 MIN_ALLOC
  rw [Nat.mod_eq_of_lt hsize]
  split <;> omega

/-- What `malloc` does to a heap that represents a pool. -/
structure Served (base : Nat) (h : Heap) (p : Pool) (h' : Heap) (p' : Pool) (r size asked : Nat) :
    Prop where
  rep : Rep base h' p'
  kept : ∀ l ∈ p.live, SameBytes h h' l
  got : r ≠ 0 → ∃ l, ptrOf l = r ∧ p'.live = l :: p.live ∧ l.2 = asked ∧ roundSize size ≤ l.1.size
  none : r = 0 → p' = p

variable {asked : Nat}

/-- A request is served from the free list. -/
theorem Rep.reuse (hr : Rep base h p) {size : Nat} (hsize : size + 15 + HEADER_SIZE < 2 ^ 64)
    (hasked : asked ≤ roundSize size) {pre post : List Block} {b : Block}
    (hfit : Pool.firstFit (roundSize size) p.freed = some (pre, b, post)) :
    Served base h p
      ((h.splitBlock b.addr (roundSize size)).unlinkBlock (lastAddr 0 pre) b.addr)
      (p.take HEADER_SIZE MIN_ALLOC (roundSize size) asked pre b post) (b.addr + HEADER_SIZE)
      size asked := by
  obtain ⟨hround, hmin, hdvd, -⟩ := roundSize_spec hsize
  obtain ⟨hfreed, hbsize, -⟩ := Pool.firstFit_some hfit
  have hb : b ∈ p.freed := by simp [hfreed]
  have hbounds := hr.bounds (freed_mem hb)
  have htop := hr.top
  have hstop : b.stop HEADER_SIZE < 2 ^ 64 := by omega
  have hchain := hr.chain
  rw [hfreed] at hchain
  have hlist := (pairwise_append.1 hr.inv.tidy.apart).2.1
  rw [hfreed] at hlist
  obtain ⟨-, hbpost, hcross⟩ := pairwise_append.1 hlist
  have hapart : ∀ c ∈ pre ++ post, Block.Apart HEADER_SIZE b c := by
    intro c hc
    rcases mem_append.1 hc with hc | hc
    · exact (hcross c hc b mem_cons_self).symm
    · exact (pairwise_cons.1 hbpost).1 c hc
  have hinv : (p.take HEADER_SIZE MIN_ALLOC (roundSize size) asked pre b post).Inv HEADER_SIZE 16
      base := hr.inv.take (by decide) hdvd hfreed hbsize hasked
  have hcut := hchain.splitBlock hapart hstop hbounds.2.1 hbsize
  have hmem := fun {k : Nat} => mem_splitBlock (k := k) (hchain.suffix).2.1 hstop
    hbounds.2.1 hbsize
  rw [← freeList_splitBlock b.addr (roundSize size)] at hcut
  have haddr : (Pool.portion HEADER_SIZE MIN_ALLOC (roundSize size) b).1.addr = b.addr :=
    Pool.portion_addr
  have hblocks : (pre ++ (Pool.portion HEADER_SIZE MIN_ALLOC (roundSize size) b).1 ::
      ((Pool.portion HEADER_SIZE MIN_ALLOC (roundSize size) b).2 ++ post)).Pairwise
      (Block.Apart HEADER_SIZE) := by
    have hperm : (p.take HEADER_SIZE MIN_ALLOC (roundSize size) asked pre b post).blocks.Perm
        (p.live.map Prod.fst ++ (pre ++ (Pool.portion HEADER_SIZE MIN_ALLOC (roundSize size) b).1 ::
          ((Pool.portion HEADER_SIZE MIN_ALLOC (roundSize size) b).2 ++ post))) := by
      rw [perm_iff_count]
      intro c
      simp only [Pool.blocks, Pool.take, map_cons, count_append, count_cons]
      omega
    exact (pairwise_append.1 ((Tidy.perm hperm).1 hinv.tidy).apart).2.1
  have hunlink := hcut.unlinkBlock hblocks fun c hc => by
    have hx := hr.bounds (freed_mem (p := p) (b := c) (by simp [hfreed, hc]))
    omega
  rw [haddr] at hunlink
  -- Nothing outside the taken block and the `next` field before it changes.
  have hframe : ∀ l ∈ p.live, ∀ k, l.1.addr ≤ k → k < l.1.stop HEADER_SIZE →
      ((h.splitBlock b.addr (roundSize size)).unlinkBlock (lastAddr 0 pre) b.addr).mem k =
        h.mem k := by
    intro l hl k hk hk'
    have hxb := hr.live_freed hl hb
    rw [mem_unlinkBlock, hmem]
    · unfold Block.Apart at hxb
      omega
    · unfold Block.Apart Block.stop HEADER_SIZE at *
      omega
    refine lastAddr_of (P := fun a => k < a + 8 ∨ a + 16 ≤ k) fun c hc => ?_
    have hxc := hr.live_freed hl (b := c) (by simp [hfreed, hc])
    unfold Block.Apart Block.stop HEADER_SIZE at *
    omega
  refine ⟨⟨?_, ?_, ?_, hinv, hr.base, hr.top⟩, ?_, ?_, ?_⟩
  · simpa only [Pool.take, append_assoc] using hunlink
  · intro l hl
    rcases mem_cons.1 hl with rfl | hl
    · refine Eq.trans ?_ hcut.suffix.2.1
      rw [haddr]
      refine getLe_congr fun k hk hk' => mem_unlinkBlock (.inl hk') ?_
      refine lastAddr_of (P := fun a => k < a + 8 ∨ a + 16 ≤ k) fun c hc => ?_
      have hxc := hcross c hc b mem_cons_self
      unfold Block.Apart Block.stop HEADER_SIZE at hxc
      omega
    · rw [← hr.sizes l hl]
      exact getLe_congr fun k hk hk' => hframe l hl k hk (by unfold Block.stop HEADER_SIZE; omega)
  · rw [brk_unlinkBlock, brk_splitBlock]
    exact hr.brk
  · intro l hl k hk
    refine hframe l hl _ ?_ ?_
    · unfold ptrOf
      omega
    · unfold ptrOf Block.stop
      omega
  · intro _
    refine ⟨((Pool.portion HEADER_SIZE MIN_ALLOC (roundSize size) b).1, asked), ?_, rfl, rfl,
      Pool.portion_size hbsize⟩
    unfold ptrOf
    rw [haddr]
  · intro hzero
    omega

/-- A request is served by `sbrk`. -/
theorem Rep.grow (hr : Rep base h p) {size : Nat} (hsize : size + 15 + HEADER_SIZE < 2 ^ 64)
    (hasked : asked ≤ roundSize size) (htop : p.top + allocSize size < 2 ^ 64) :
    Served base h p
      ((({ h with brk := h.brk + allocSize size }.setSize h.brk (roundSize size)).setNext h.brk
        0).setFlags h.brk 0)
      (p.extend HEADER_SIZE (roundSize size) asked) (p.top + HEADER_SIZE) size asked := by
  obtain ⟨hround, hmin, hdvd, halloc⟩ := roundSize_spec hsize
  have hbrk := hr.brk
  have hbase := hr.base
  have hinvbase := hr.inv.base
  have hframe : ∀ b ∈ p.blocks, ∀ k, k < b.stop HEADER_SIZE →
      ((({ h with brk := h.brk + (HEADER_SIZE + roundSize size) }.setSize h.brk
        (roundSize size)).setNext h.brk 0).setFlags h.brk 0).mem k = h.mem k := by
    intro b hb k hk
    have hx := (hr.bounds hb).2.2.1
    rw [mem_setFlags_of (by omega), mem_setNext_of (by omega),
      mem_setSize_of (by omega)]
  refine ⟨⟨?_, ?_, ?_, hr.inv.extend (by decide) hdvd hasked, hbase, ?_⟩, ?_, ?_, ?_⟩
  · refine hr.chain.congr fun b hb k hk hk' => (hframe b (freed_mem hb) k ?_).symm
    unfold Block.stop HEADER_SIZE
    omega
  · intro l hl
    rcases mem_cons.1 hl with rfl | hl
    · rw [← hbrk]
      have hv : roundSize size < 256 ^ 8 := by
        omega
      simp only [blockSize, setFlags, setNext, setSize]
      rw [getLe_putLe_of_disjoint (by omega), getLe_putLe_of_disjoint (by omega),
        getLe_putLe_self hv]
    rw [← hr.sizes l hl]
    refine getLe_congr fun k hk hk' => hframe l.1 (live_mem hl) k ?_
    unfold Block.stop HEADER_SIZE
    omega
  · simp only [brk_setFlags, brk_setNext, brk_setSize, Pool.extend]
    omega
  · simp only [Pool.extend]
    omega
  · intro l hl k hk
    refine hframe l.1 (live_mem hl) _ ?_
    unfold ptrOf Block.stop
    omega
  · intro _
    exact ⟨(⟨p.top, roundSize size⟩, asked), rfl, rfl, rfl, le_refl _⟩
  · intro hzero
    omega

theorem Served.refl (hr : Rep base h p) {size : Nat} : Served base h p h p 0 size asked :=
  ⟨hr, fun _ _ _ _ => rfl, fun hne => absurd rfl hne, fun _ => rfl⟩

/-- `malloc` does what the abstract request does. -/
theorem Rep.malloc (hr : Rep base h p) {size fuel : Nat} (asked : Nat) (grant : Bool)
    (hsize : size + 15 + HEADER_SIZE < 2 ^ 64) (hpos : allocSize size < 2 ^ 63)
    (hasked : asked ≤ roundSize size) (hfuel : p.freed.length < fuel) :
    ∃ h', h.malloc fuel grant size = some ((request p grant size asked).1, h') ∧
      Served base h p h' (request p grant size asked).2 (request p grant size asked).1 size
        asked := by
  obtain ⟨-, hmin, -, halloc⟩ := roundSize_spec hsize
  have htop := hr.top
  unfold Heap.malloc request
  by_cases hzero : size = 0
  · rw [if_pos hzero, if_pos hzero]
    exact ⟨h, rfl, Served.refl hr⟩
  rw [if_neg hzero, if_neg hzero, hr.chain.findBlock hfuel fun b hb => by
    have hx := hr.bounds (freed_mem hb)
    omega]
  unfold Pool.alloc
  rcases hfit : Pool.firstFit (roundSize size) p.freed with _ | ⟨pre, b, post⟩
  · simp only [map_none]
    unfold sbrk
    rw [if_neg (by unfold HEADER_SIZE at halloc; omega), if_pos hpos, hr.brk]
    by_cases hgrant : grant = true ∧ p.top + allocSize size < 2 ^ 64
    · rw [if_pos hgrant, if_pos (by simpa using hgrant)]
      have hgrow := hr.grow hsize hasked hgrant.2
      rw [hr.brk] at hgrow
      have hptr : size64 (p.top + HEADER_SIZE) = p.top + HEADER_SIZE :=
        Nat.mod_eq_of_lt (by unfold HEADER_SIZE at *; omega)
      simp only [hptr]
      exact ⟨_, rfl, hgrow⟩
    · rw [if_neg hgrant, if_neg (by simpa using hgrant)]
      exact ⟨h, rfl, Served.refl hr⟩
  have hbounds := hr.bounds (freed_mem (p := p) (b := b) (by
    rw [(Pool.firstFit_some hfit).1]
    simp))
  have hptr : size64 (b.addr + HEADER_SIZE) = b.addr + HEADER_SIZE := by
    unfold Block.stop at hbounds
    exact Nat.mod_eq_of_lt (by omega)
  have haddr : (Pool.portion HEADER_SIZE MIN_ALLOC (roundSize size) b).1.addr = b.addr :=
    Pool.portion_addr
  simp only [map_some, hptr, haddr]
  exact ⟨_, rfl, hr.reuse hsize hasked hfit⟩

/-! ## Giving back and resizing -/

theorem Rep.ptr_bounds (hr : Rep base h p) {l : Block × Nat} (hl : l ∈ p.live) :
    ptrOf l ≠ 0 ∧ size64 (ptrOf l + 2 ^ 64 - HEADER_SIZE) = l.1.addr := by
  have hx := hr.bounds (live_mem hl)
  have htop := hr.top
  unfold ptrOf size64 Block.stop HEADER_SIZE at *
  omega

theorem mem_liveBut {l l' : Block × Nat} :
    l' ∈ p.liveBut l.1.addr ↔ l' ∈ p.live ∧ ptrOf l' ≠ ptrOf l := by
  unfold Pool.liveBut ptrOf
  rw [mem_filter, bne_iff_ne, ne_eq, ne_eq, Nat.add_right_cancel_iff]

theorem Rep.free_eq (hr : Rep base h p) {l : Block × Nat} (hl : l ∈ p.live) :
    h.free (ptrOf l) =
      { mem := putLe 8 (putLe 8 h.mem (l.1.addr + 16) (h.blockFlags l.1.addr ||| FLAG_FREE))
          (l.1.addr + 8) h.freeList
        freeList := l.1.addr
        brk := h.brk } := by
  obtain ⟨hne, hblock⟩ := hr.ptr_bounds hl
  unfold free
  rw [if_neg hne, hblock]
  rfl

theorem Rep.mem_free (hr : Rep base h p) {l : Block × Nat} (hl : l ∈ p.live) {k : Nat}
    (hk : k < l.1.addr + 8 ∨ ptrOf l ≤ k) : (h.free (ptrOf l)).mem k = h.mem k := by
  rw [hr.free_eq hl]
  unfold ptrOf HEADER_SIZE at hk
  simp only [putLe]
  rw [if_neg (by omega), if_neg (by omega)]

theorem Rep.freeList_lt (hr : Rep base h p) : h.freeList < 2 ^ 64 := by
  have hc := hr.chain
  have htop := hr.top
  rcases hfreed : p.freed with _ | ⟨b, bs⟩
  · rw [hfreed] at hc
    rw [show h.freeList = 0 from hc]
    decide
  rw [hfreed] at hc
  have hx := hr.bounds (freed_mem (p := p) (b := b) (by simp [hfreed]))
  unfold Block.stop at hx
  rw [hc.1]
  omega

/-- `free` releases the block. -/
theorem Rep.free (hr : Rep base h p) {l : Block × Nat} (hl : l ∈ p.live) :
    Rep base (h.free (ptrOf l)) (p.release l.1) := by
  have hsame : ∀ b : Block, Block.Apart HEADER_SIZE l.1 b → ∀ k, b.addr ≤ k → k < b.addr + 24 →
      (h.free (ptrOf l)).mem k = h.mem k := by
    intro b hb k hk hk'
    refine hr.mem_free hl ?_
    unfold Block.Apart Block.stop HEADER_SIZE at hb
    unfold ptrOf HEADER_SIZE
    omega
  have hsize : (h.free (ptrOf l)).blockSize l.1.addr = l.1.size := by
    rw [← hr.sizes l hl]
    exact getLe_congr fun k _ hk' => hr.mem_free hl (.inl hk')
  have hflags : (h.free (ptrOf l)).blockFlags l.1.addr = h.blockFlags l.1.addr ||| FLAG_FREE := by
    have hlt : h.blockFlags l.1.addr ||| FLAG_FREE < 2 ^ 64 :=
      Nat.or_lt_two_pow (h.blockFlags_lt _) (by decide)
    rw [hr.free_eq hl]
    simp only [blockFlags] at hlt ⊢
    rw [getLe_putLe_of_disjoint (by omega), getLe_putLe_self (by omega)]
  have hnext : (h.free (ptrOf l)).blockNext l.1.addr = h.freeList := by
    have hlt := hr.freeList_lt
    rw [hr.free_eq hl]
    simp only [blockNext]
    rw [getLe_putLe_self (by omega)]
  have hfree : (h.free (ptrOf l)).freeList = l.1.addr := by rw [hr.free_eq hl]
  refine ⟨?_, ?_, ?_, hr.inv.release (by decide) hl, hr.base, hr.top⟩
  · rw [hfree]
    refine ⟨rfl, hsize, ?_, ?_⟩
    · rw [hflags]
      simp [FLAG_FREE, Nat.or_mod_two_eq_one]
    · rw [hnext]
      exact hr.chain.congr fun b hb k hk hk' => (hsame b (hr.live_freed hl hb) k hk hk').symm
  · intro l' hl'
    obtain ⟨hmem, hptr⟩ := mem_liveBut.1 hl'
    rw [← hr.sizes l' hmem]
    refine getLe_congr fun k hk hk' =>
      hsame l'.1 (hr.live_live hl hmem (Ne.symm hptr)) k hk (by omega)
  · rw [hr.free_eq hl]
    exact hr.brk

theorem Rep.shrink (hr : Rep base h p) {l : Block × Nat} (hl : l ∈ p.live) {size : Nat}
    (hdvd : 16 ∣ size) (hasked : asked ≤ size) (hsize : size ≤ l.1.size) :
    Rep base (h.setSize l.1.addr size) (p.shrink l.1 size asked) := by
  have hx := hr.bounds (live_mem hl)
  have htop := hr.top
  have hsame : ∀ b : Block, Block.Apart HEADER_SIZE l.1 b → ∀ k, b.addr ≤ k → k < b.addr + 24 →
      (h.setSize l.1.addr size).mem k = h.mem k := by
    intro b hb k hk hk'
    refine mem_setSize_of ?_
    unfold Block.Apart Block.stop HEADER_SIZE at hb
    omega
  refine ⟨?_, ?_, hr.brk, hr.inv.shrink (by decide) hdvd hasked hl hsize, hr.base, htop⟩
  · exact hr.chain.congr fun b hb k hk hk' => (hsame b (hr.live_freed hl hb) k hk hk').symm
  intro l' hl'
  rcases mem_cons.1 hl' with rfl | hl'
  · unfold Block.stop at hx
    exact blockSize_setSize (by omega)
  obtain ⟨hmem, hptr⟩ := mem_liveBut.1 hl'
  rw [← hr.sizes l' hmem]
  refine getLe_congr fun k hk hk' =>
    hsame l'.1 (hr.live_live hl hmem (Ne.symm hptr)) k hk (by omega)

/-! ## The calls -/

theorem memset_apply (n : Nat) (m : Bytes) (q k : Nat) (c : UInt8) :
    memset n m q c k = if q ≤ k ∧ k < q + n then c else m k := by
  induction n generalizing m q with
  | zero =>
    rw [if_neg (by omega)]
    rfl
  | succ n ih =>
    rw [memset, ih, Function.update_apply]
    by_cases hk : k = q
    · rw [if_neg (by omega), if_pos hk, if_pos (by omega)]
    · rw [if_neg hk]
      exact if_congr (by omega) rfl rfl

theorem memcpy_apply {n d q : Nat} (hdis : d + n ≤ q ∨ q + n ≤ d) (m : Bytes) (k : Nat) :
    memcpy n m d q k = if d ≤ k ∧ k < d + n then m (q + (k - d)) else m k := by
  induction n generalizing m d q with
  | zero =>
    rw [if_neg (by omega)]
    rfl
  | succ n ih =>
    rw [memcpy, ih (by omega)]
    by_cases hk : k = d
    · rw [if_neg (by omega), if_pos (by omega), hk, Function.update_self, Nat.sub_self]
      rfl
    by_cases hin : d ≤ k ∧ k < d + (n + 1)
    · rw [if_pos (by omega), if_pos hin, Function.update_of_ne (by omega)]
      congr 1
      omega
    · rw [if_neg (by omega), if_neg hin, Function.update_of_ne hk]

/-- What a call owes its client: the same answer as the pool, the pool kept, the effect. -/
def Done (base : Nat) (h : Heap) (p : Pool) (fuel : Nat) (grant : Bool) (c : Call) : Prop :=
  ∃ h', h.exec fuel grant c = some ((answer p grant c).1, h') ∧ Rep base h' (answer p grant c).2 ∧
    Effect c h p (answer p grant c).1 h' (answer p grant c).2

/-- A served request is seen by the client as a fresh block, and nothing else moves. -/
theorem Served.kept_live {r size : Nat} {p' : Pool}
    (hs : Served base h p h' p' r size asked) {l : Block × Nat} (hl : l ∈ p.live) : l ∈ p'.live := by
  by_cases hr : r = 0
  · rw [hs.none hr]
    exact hl
  · obtain ⟨l', -, hlive, -⟩ := hs.got hr
    rw [hlive]
    exact mem_cons_of_mem _ hl

/-- The fresh block has no byte in common with the blocks that were live. -/
theorem Served.apart {r size asked : Nat} {p' : Pool} (hs : Served base h p h' p' r size asked)
    {l : Block × Nat} (hlive : p'.live = l :: p.live) {l' : Block × Nat} (hl' : l' ∈ p.live) :
    Block.Apart HEADER_SIZE l.1 l'.1 := by
  have htidy := (pairwise_append.1 hs.rep.inv.tidy.apart).1
  rw [hlive, map_cons] at htidy
  exact (pairwise_cons.1 htidy).1 l'.1 (mem_map_of_mem hl')

theorem Served.effect {r : Nat} {p' : Pool} {c : Call}
    (hs : Served base h p h' p' r c.size c.size)
    (hcalloc : ∀ count size, c ≠ .calloc count size)
    (hrealloc : ∀ l ∈ p.live, ∀ size, c ≠ .realloc (ptrOf l) size) : Effect c h p r h' p' where
  kept l hl _ := ⟨hs.kept_live hl, fun k hk _ => hs.kept l hl k hk⟩
  fresh _ hr := by
    obtain ⟨l, hptr, hlive, hasked, -⟩ := hs.got hr
    exact ⟨l, hlive ▸ mem_cons_self, hptr, hasked⟩
  zeroed count size heq := absurd heq (hcalloc count size)
  copied l hl size heq := absurd heq (hrealloc l hl size)
  refused l hl size heq := absurd heq (hrealloc l hl size)

section

variable {fuel : Nat} {grant : Bool}

theorem Rep.done_malloc (hr : Rep base h p) (hfuel : p.freed.length < fuel) {size : Nat}
    (hproper : Proper p (.malloc size)) (hun : Unwrapped (.malloc size)) :
    Done base h p fuel grant (.malloc size) := by
  obtain ⟨h', hrun, hs⟩ := hr.malloc size grant hun hproper.positive.2
    (roundSize_spec hun).1 hfuel
  exact ⟨h', hrun, hs.rep, hs.effect (c := .malloc size) (fun _ _ hx => by cases hx)
    (fun _ _ _ hx => by cases hx)⟩

theorem Rep.done_store (hr : Rep base h p) {addr : Nat} {v : UInt8}
    (hproper : Proper p (.store addr v)) : Done base h p fuel grant (.store addr v) := by
  obtain ⟨l, hl, hlo, hhi⟩ := hproper.store addr v rfl
  have hasked := hr.inv.asked l hl
  refine ⟨_, rfl, hr.store rfl rfl hl fun k hk => Function.update_of_ne (by omega) _ _, ?_⟩
  refine ⟨fun l' hl' _ => ⟨hl', fun k hk hne => ?_⟩, ?_, ?_, ?_, ?_⟩
  · refine Function.update_of_ne (fun heq => hne v ?_) _ _
    rw [heq]
  · exact fun hx => absurd rfl (hx addr v)
  · exact fun _ _ hx => by cases hx
  · exact fun _ _ _ hx => by cases hx
  · exact fun _ _ _ hx => by cases hx

/-- A call that returns null and changes nothing. -/
theorem Done.null (hr : Rep base h p) {c : Call} (hrun : h.exec fuel grant c = some (0, h))
    (hanswer : answer p grant c = (0, p)) : Done base h p fuel grant c := by
  refine ⟨h, by rw [hrun, hanswer], by rw [hanswer]; exact hr, ?_⟩
  rw [hanswer]
  exact ⟨fun l hl _ => ⟨hl, fun _ _ _ => rfl⟩, fun _ hne => absurd rfl hne,
    fun _ _ _ hne => absurd rfl hne, fun _ _ _ _ hne => absurd rfl hne,
    fun l hl _ _ _ _ => ⟨hl, fun _ _ => rfl⟩⟩

/-- `calloc`: a request and zeros. -/
theorem Rep.done_calloc (hr : Rep base h p) (hfuel : p.freed.length < fuel) {count size : Nat}
    (hproper : Proper p (.calloc count size)) (hun : Unwrapped (.calloc count size)) :
    Done base h p fuel grant (.calloc count size) := by
  by_cases hnull : count = 0 ∨ size = 0 ∨ count > (2 ^ 64 - 1) / size
  · have hanswer : answer p grant (.calloc count size) = (0, p) := if_pos hnull
    refine Done.null hr ?_ hanswer
    simp only [exec, calloc]
    by_cases hzero : count = 0 ∨ size = 0
    · rw [if_pos hzero]
    · rw [if_neg hzero, if_pos (by tauto)]
  have hcall : (Call.calloc count size).size = count * size := if_neg (by tauto)
  have hfits := hproper.size
  have hpos := hproper.positive.2
  unfold Unwrapped at hun
  rw [hcall] at hun hfits hpos
  have hwrap : size64 (count * size) = count * size := Nat.mod_eq_of_lt hfits
  obtain ⟨h', hrun, hs⟩ := hr.malloc (count * size) grant hun hpos
    (roundSize_spec hun).1 hfuel
  have hanswer : answer p grant (.calloc count size) =
      request p grant (count * size) (count * size) := if_neg hnull
  unfold Done
  rw [hanswer]
  simp only [exec, calloc]
  rw [if_neg (by tauto), if_neg (by tauto), hwrap, hrun, map_some]
  by_cases hzero : (request p grant (count * size) (count * size)).1 = 0
  · rw [if_pos hzero]
    refine ⟨h', rfl, hs.rep, fun l hl _ => ⟨hs.kept_live hl, fun k hk _ => hs.kept l hl k hk⟩,
      fun _ hne => absurd hzero hne, fun _ _ _ hne => absurd hzero hne, ?_, ?_⟩
    · exact fun _ _ _ hx => by cases hx
    · exact fun _ _ _ hx => by cases hx
  rw [if_neg hzero]
  obtain ⟨l, hptr, hlive, hasked, hroom⟩ := hs.got hzero
  have hl : l ∈ (request p grant (count * size) (count * size)).2.live := by simp [hlive]
  have hbig : count * size ≤ l.1.size := le_trans (roundSize_spec hun).1 hroom
  rw [← hptr]
  refine ⟨_, rfl, hs.rep.store rfl rfl hl fun k hk => ?_, fun l' hl' _ => ?_, fun _ _ => ?_,
    fun count' size' heq _ k hk => ?_, ?_, ?_⟩
  · dsimp only
    rw [memset_apply, if_neg (by omega)]
  · refine ⟨hs.kept_live hl', fun k hk _ => ?_⟩
    have hx := hs.apart hlive hl'
    dsimp only
    rw [← hs.kept l' hl' k hk, memset_apply, if_neg]
    unfold Block.Apart Block.stop at hx
    unfold ptrOf
    omega
  · exact ⟨l, hl, rfl, by rw [hasked, hcall]⟩
  · cases heq
    dsimp only
    rw [memset_apply, if_pos (by omega)]
  · exact fun _ _ _ hx => by cases hx
  · exact fun _ _ _ hx => by cases hx

theorem Rep.eq_of_ptr (hr : Rep base h p) {l l' : Block × Nat} (hl : l ∈ p.live)
    (hl' : l' ∈ p.live) (hptr : ptrOf l = ptrOf l') : l = l' := by
  by_contra hne
  have hlive := pairwise_map.1 (pairwise_append.1 hr.inv.tidy.apart).1
  have hx := hlive.forall hl hl' hne
  unfold Block.Apart Block.stop HEADER_SIZE at hx
  unfold ptrOf at hptr
  omega

theorem Rep.liveAt_ptr (hr : Rep base h p) {l : Block × Nat} (hl : l ∈ p.live) :
    liveAt p (ptrOf l) = some l := by
  rcases hfind : liveAt p (ptrOf l) with _ | l'
  · have hnone := List.find?_eq_none.1 hfind l hl
    simp at hnone
  · have hptr : ptrOf l' = ptrOf l := by simpa using List.find?_some hfind
    rw [hr.eq_of_ptr (List.mem_of_find?_eq_some hfind) hl hptr]

theorem Rep.liveAt_zero (hr : Rep base h p) : liveAt p 0 = none := by
  refine List.find?_eq_none.2 fun l hl => ?_
  have hne := (hr.ptr_bounds hl).1
  simpa using hne

theorem Rep.kept_free (hr : Rep base h p) {l l' : Block × Nat} (hl : l ∈ p.live)
    (hl' : l' ∈ p.live) (hne : ptrOf l' ≠ ptrOf l) :
    l' ∈ (p.release l.1).live ∧ SameBytes h (h.free (ptrOf l)) l' := by
  refine ⟨mem_liveBut.2 ⟨hl', hne⟩, fun k hk => hr.mem_free hl ?_⟩
  have hx := hr.live_live hl hl' (Ne.symm hne)
  unfold Block.Apart Block.stop HEADER_SIZE at hx
  unfold ptrOf HEADER_SIZE
  omega

theorem Rep.done_free (hr : Rep base h p) {ptr : Nat} (hproper : Proper p (.free ptr)) :
    Done base h p fuel grant (.free ptr) := by
  rcases hproper.live with hzero | ⟨l, hl, hptr⟩
  · cases hzero
    refine Done.null hr rfl ?_
    simp only [answer, hr.liveAt_zero]
  obtain rfl : ptrOf l = ptr := hptr
  have hanswer : answer p grant (.free (ptrOf l)) = (0, p.release l.1) := by
    simp only [answer, hr.liveAt_ptr hl]
  unfold Done
  rw [hanswer]
  refine ⟨_, rfl, hr.free hl, fun l' hl' hne => ?_, fun _ hne => absurd rfl hne,
    fun _ _ _ hne => absurd rfl hne, fun _ _ _ _ hne => absurd rfl hne, ?_⟩
  · obtain ⟨hkept, hsame⟩ := hr.kept_free hl hl' hne
    exact ⟨hkept, fun k hk _ => hsame k hk⟩
  · exact fun _ _ _ hx => by cases hx

/-- `realloc`: in place, or a new block, a copy and a release. -/
theorem Rep.done_realloc (hr : Rep base h p) (hfuel : p.freed.length < fuel) {ptr size : Nat}
    (hproper : Proper p (.realloc ptr size)) (hun : Unwrapped (.realloc ptr size)) :
    Done base h p fuel grant (.realloc ptr size) := by
  obtain ⟨hround, hmin, hdvd, halloc⟩ := roundSize_spec hun
  rcases hproper.live with hzero | ⟨l, hl, hptr⟩
  · -- NULL: a fresh block.
    obtain rfl : ptr = 0 := hzero
    obtain ⟨h', hrun, hs⟩ := hr.malloc size grant hun hproper.positive.2 hround hfuel
    exact ⟨h', hrun, hs.rep, hs.effect (c := .realloc 0 size) (fun _ _ hx => by cases hx)
      fun l hl _ hx => (hr.ptr_bounds hl).1 (Call.realloc.inj hx).1.symm⟩
  obtain rfl : ptrOf l = ptr := hptr
  obtain ⟨hne, hblock⟩ := hr.ptr_bounds hl
  by_cases hzero : size = 0
  · -- Size 0: the block is given back.
    have hanswer : answer p grant (.realloc (ptrOf l) size) = (0, p.release l.1) := by
      simp only [answer, hr.liveAt_ptr hl, if_neg hne, if_pos hzero]
    have hrun : h.exec fuel grant (.realloc (ptrOf l) size) = some (0, h.free (ptrOf l)) := by
      simp only [exec, realloc, if_neg hne, if_pos hzero]
    unfold Done
    rw [hanswer, hrun]
    refine ⟨_, rfl, hr.free hl, fun l' hl' hne => ?_, fun _ hne => absurd rfl hne,
      fun _ _ _ hne => absurd rfl hne, fun _ _ _ _ hne => absurd rfl hne, ?_⟩
    · obtain ⟨hkept, hsame⟩ := hr.kept_free hl hl' hne
      exact ⟨hkept, fun k hk _ => hsame k hk⟩
    · intro l' hl' size' heq hsize'
      exact absurd ((Call.realloc.inj heq).2 ▸ hzero) hsize'
  by_cases hfits : roundSize size ≤ l.1.size
  · -- The block is large enough and becomes smaller in place.
    have hanswer : answer p grant (.realloc (ptrOf l) size) =
        (ptrOf l, p.shrink l.1 (roundSize size) size) := by
      simp only [answer, hr.liveAt_ptr hl, if_neg hne, if_neg hzero, if_pos hfits]
    have hrun : h.exec fuel grant (.realloc (ptrOf l) size) =
        some (ptrOf l, h.setSize l.1.addr (roundSize size)) := by
      simp only [exec, realloc, if_neg hne, if_neg hzero, hblock, hr.sizes l hl, if_pos hfits]
    unfold Done
    rw [hanswer, hrun]
    refine ⟨_, rfl, hr.shrink hl hdvd hround hfits, fun l' hl' hother => ?_, fun _ _ => ?_, ?_,
      fun l' hl' size' heq _ k hk => ?_, ?_⟩
    · refine ⟨mem_cons_of_mem _ (mem_liveBut.2 ⟨hl', hother⟩), fun k hk _ => ?_⟩
      have hx := hr.live_live hl hl' (Ne.symm hother)
      refine mem_setSize_of ?_
      unfold Block.Apart Block.stop HEADER_SIZE at hx
      unfold ptrOf HEADER_SIZE
      omega
    · exact ⟨(⟨l.1.addr, roundSize size⟩, size), mem_cons_self, rfl, rfl⟩
    · exact fun _ _ hx => by cases hx
    · rw [← (Call.realloc.inj heq).1]
      refine mem_setSize_of (.inr ?_)
      unfold ptrOf HEADER_SIZE
      omega
    · exact fun _ _ _ _ _ hx => absurd hx hne
  -- A fresh block, the contents copied, the old block given back.
  have hpos := hproper.positive.2
  have hcsize : (Call.realloc (ptrOf l) size).size = size := rfl
  rw [hcsize] at hround hmin hdvd halloc hpos
  have hun' : roundSize size + 15 + HEADER_SIZE < 2 ^ 64 := by
    omega
  have hidem : roundSize (roundSize size) = roundSize size := roundSize_of_dvd (by omega) hdvd hmin
  have halloc' : allocSize (roundSize size) < 2 ^ 63 := by
    rw [(roundSize_spec hun').2.2.2, hidem, ← halloc]
    exact hpos
  obtain ⟨h', hrun', hs⟩ := hr.malloc size grant hun' halloc' (hidem.symm ▸ hround) hfuel
  by_cases hnull : (request p grant (roundSize size) size).1 = 0
  · have hanswer : answer p grant (.realloc (ptrOf l) size) = (0, p) := by
      simp only [answer, hr.liveAt_ptr hl, if_neg hne, if_neg hzero, if_neg hfits, if_pos hnull]
    have hrun : h.exec fuel grant (.realloc (ptrOf l) size) = some (0, h') := by
      simp only [exec, realloc, if_neg hne, if_neg hzero, hblock, hr.sizes l hl,
        if_neg hfits, hrun', map_some, if_pos hnull]
    have hrep := hs.rep
    rw [hs.none hnull] at hrep
    unfold Done
    rw [hanswer, hrun]
    refine ⟨_, rfl, hrep, fun l' hl' _ => ⟨hl', fun k hk _ => hs.kept l' hl' k hk⟩,
      fun _ hne => absurd rfl hne, fun _ _ _ hne => absurd rfl hne,
      fun _ _ _ _ hne => absurd rfl hne, fun l' hl' _ _ _ _ => ⟨hl', hs.kept l' hl'⟩⟩
  obtain ⟨l', hptr, hlive, hasked, hroom⟩ := hs.got hnull
  have hl' : l' ∈ (request p grant (roundSize size) size).2.live := by simp [hlive]
  have hanswer : answer p grant (.realloc (ptrOf l) size) =
      (ptrOf l', (request p grant (roundSize size) size).2.release l.1) := by
    simp only [answer, hr.liveAt_ptr hl, if_neg hne, if_neg hzero, if_neg hfits, if_neg hnull, hptr]
  have hrun : h.exec fuel grant (.realloc (ptrOf l) size) =
      some (ptrOf l',
        { h' with mem := memcpy l.1.size h'.mem (ptrOf l') (ptrOf l) }.free (ptrOf l)) := by
    simp only [exec, realloc, if_neg hne, if_neg hzero, hblock, hr.sizes l hl,
      if_neg hfits, hrun', map_some, if_neg hnull, hptr]
  have hother : ∀ l1 ∈ p.live, Block.Apart HEADER_SIZE l'.1 l1.1 := fun l1 => hs.apart hlive
  have hcopy := fun k => memcpy_apply (n := l.1.size) (d := ptrOf l') (q := ptrOf l) (by
    have hx := hother l hl
    unfold Block.Apart Block.stop HEADER_SIZE at hx
    unfold ptrOf HEADER_SIZE
    omega) h'.mem k
  generalize hh : { h' with mem := memcpy l.1.size h'.mem (ptrOf l') (ptrOf l) } = h1 at hrun
  have hmem : h1.mem = memcpy l.1.size h'.mem (ptrOf l') (ptrOf l) := by rw [← hh]
  rw [← hmem] at hcopy
  have hrep : Rep base h1 (request p grant (roundSize size) size).2 := by
    refine hs.rep.store (by rw [← hh]) (by rw [← hh]) hl' fun k hk => ?_
    rw [hcopy, if_neg (by omega)]
  have hlp := hs.kept_live hl
  have hne' : ptrOf l' ≠ ptrOf l := by
    have hx := hother l hl
    unfold Block.Apart Block.stop HEADER_SIZE at hx
    unfold ptrOf
    omega
  obtain ⟨hfresh, hbody⟩ := hrep.kept_free hlp hl' hne'
  unfold Done
  rw [hanswer, hrun]
  refine ⟨_, rfl, hrep.free hlp, fun l1 hl1 hne1 => ?_, fun _ _ => ⟨l', hfresh, rfl, hasked⟩, ?_,
    fun l1 hl1 size' heq _ k hk => ?_, ?_⟩
  · obtain ⟨hkept, hsame⟩ := hrep.kept_free hlp (hs.kept_live hl1) hne1
    refine ⟨hkept, fun k hk _ => ?_⟩
    have hx := hother l1 hl1
    rw [hsame k hk, hcopy, if_neg, hs.kept l1 hl1 k hk]
    unfold Block.Apart Block.stop at hx
    unfold ptrOf
    omega
  · exact fun _ _ hx => by cases hx
  · obtain ⟨hptr1, rfl⟩ := Call.realloc.inj heq
    obtain rfl : l = l1 := hr.eq_of_ptr hl hl1 hptr1
    have hasked1 := hr.inv.asked l hl
    rw [hbody k (by omega), hcopy, if_pos (by omega), Nat.add_sub_cancel_left,
      hs.kept l hl k (by omega)]
  · exact fun _ _ _ _ _ hx => absurd hx (hs.rep.ptr_bounds hl').1

/-- Every call that a client may make is answered as the pool answers it. -/
theorem Rep.done (hr : Rep base h p) (hfuel : p.freed.length < fuel) (grant : Bool) {c : Call}
    (hproper : Proper p c) (hun : Unwrapped c) : Done base h p fuel grant c := by
  cases c with
  | malloc size => exact hr.done_malloc hfuel hproper hun
  | calloc count size => exact hr.done_calloc hfuel hproper hun
  | realloc ptr size => exact hr.done_realloc hfuel hproper hun
  | free ptr => exact hr.done_free hproper
  | store addr v => exact hr.done_store hproper

/-! ## Runs -/

variable {fuel' : Nat}

theorem findBlock_mono {size : Nat} {x : Option (Nat × Nat)} (hle : fuel ≤ fuel') :
    ∀ {prev curr : Nat}, h.findBlock size fuel prev curr = some x →
      h.findBlock size fuel' prev curr = some x := by
  induction fuel generalizing fuel' with
  | zero => exact fun hx => by cases hx
  | succ fuel ih =>
    intro prev curr hx
    obtain ⟨fuel', rfl⟩ : ∃ n, fuel' = n + 1 := ⟨fuel' - 1, by omega⟩
    unfold findBlock at hx ⊢
    split
    · rename_i hzero
      rwa [if_pos hzero] at hx
    rename_i hzero
    rw [if_neg hzero] at hx
    split
    · rename_i hfit
      rwa [if_pos hfit] at hx
    · rename_i hfit
      rw [if_neg hfit] at hx
      exact ih (by omega) hx

theorem malloc_mono {size : Nat} {x : Nat × Heap} (hle : fuel ≤ fuel')
    (hx : h.malloc fuel grant size = some x) : h.malloc fuel' grant size = some x := by
  unfold malloc at hx ⊢
  by_cases hzero : size = 0
  · rwa [if_pos hzero] at hx ⊢
  rw [if_neg hzero] at hx ⊢
  rcases hfind : h.findBlock (roundSize size) fuel 0 h.freeList with _ | y
  · rw [hfind] at hx
    cases hx
  · rw [hfind] at hx
    rw [findBlock_mono hle hfind]
    exact hx

theorem exec_mono {c : Call} {x : Nat × Heap} (hle : fuel ≤ fuel')
    (hx : h.exec fuel grant c = some x) : h.exec fuel' grant c = some x := by
  cases c with
  | malloc size => exact malloc_mono hle hx
  | calloc count size =>
    simp only [exec, calloc] at hx ⊢
    split_ifs at hx ⊢
    · exact hx
    · exact hx
    · obtain ⟨y, hy, hxy⟩ := map_eq_some_iff.1 hx
      rw [malloc_mono hle hy, map_some, hxy]
  | realloc ptr size =>
    simp only [exec, realloc] at hx ⊢
    split_ifs at hx ⊢
    · exact malloc_mono hle hx
    · exact hx
    · exact hx
    · obtain ⟨y, hy, hxy⟩ := map_eq_some_iff.1 hx
      rw [malloc_mono hle hy, map_some, hxy]
  | free ptr => exact hx
  | store addr v => exact hx

end

/-- Every reachable heap represents its pool. -/
theorem Reachable.rep (hbase : 0 < base) (hlt : base < 2 ^ 64) (hdvd : 16 ∣ base)
    (hreach : Reachable Unwrapped base h p) : Rep base h p := by
  induction hreach with
  | init mem =>
    refine ⟨rfl, fun l hl => absurd hl not_mem_nil, rfl, ⟨⟨List.Pairwise.nil, ?_, ?_⟩, ?_,
      le_refl _, hdvd⟩, hbase, hlt⟩
    · exact fun b hb => absurd hb not_mem_nil
    · exact fun b hb => absurd hb not_mem_nil
    · exact fun l hl => absurd hl not_mem_nil
  | call _ hproper hun hrun ih =>
    rename_i p c fuel r grant _
    have hfuel : p.freed.length < max fuel (p.freed.length + 1) := by omega
    obtain ⟨h1, hrun1, hrep, -⟩ := ih.done hfuel grant hproper hun
    rw [exec_mono (le_max_left _ _) hrun] at hrun1
    obtain rfl := (Prod.mk.inj (some.inj hrun1)).2
    exact hrep

end

theorem Reachable.first {ok : Call → Prop} {size r : Nat} {h' : Heap} (hok : ok (.malloc size))
    (hsize : size < 2 ^ 64) (hpos : 0 < allocSize size ∧ allocSize size < 2 ^ 63)
    (hrun : exec ⟨fun _ => 0, 0, 4096⟩ 1 true (.malloc size) = some (r, h')) :
    Reachable ok 4096 h' (answer ⟨[], [], 4096⟩ true (.malloc size)).2 :=
  .call (.init _) ⟨.inl rfl, fun _ _ hx => (by cases hx), hsize, hpos⟩ hok hrun

/-- The pool after the calls, the kernel giving memory. -/
def answers (p : Pool) (calls : List Call) : Pool := calls.foldl (fun p c => (answer p true c).2) p

/-- A client may make the calls one after the other. -/
def AllProper : Pool → List Call → Prop
  | _, [] => True
  | p, c :: calls => Proper p c ∧ Unwrapped c ∧ AllProper (answer p true c).2 calls

/-- Calls that are allowed all return. -/
theorem Reachable.calls {base : Nat} {h : Heap} {p : Pool} {calls : List Call} (hbase : 0 < base) (hlt : base < 2 ^ 64)
    (hdvd : 16 ∣ base) (hreach : Reachable Unwrapped base h p) (hproper : AllProper p calls) :
    ∃ h', Reachable Unwrapped base h' (answers p calls) := by
  induction calls generalizing h p with
  | nil => exact ⟨h, hreach⟩
  | cons c calls ih =>
    obtain ⟨hproper, hun, hrest⟩ := hproper
    obtain ⟨h1, hrun, -⟩ := (hreach.rep hbase hlt hdvd).done (Nat.lt_succ_self p.freed.length) true hproper hun
    exact ih (hreach.call hproper hun hrun) hrest

/-- A live block of 200 bytes that `realloc` has moved, and two free blocks. -/
def usedPool : Pool := ⟨[(⟨4288, 208⟩, 200)], [⟨4144, 112⟩, ⟨4096, 16⟩], 4528⟩

/-- Two blocks are taken, the first one is freed and the second one made larger. -/
theorem used_reachable : ∃ h, Reachable Unwrapped 4096 h usedPool := by
  have hafter : answers ⟨[], [], 4096⟩ [.malloc 10, .malloc 100, .free 4128, .realloc 4176 200] = usedPool := rfl
  rw [← hafter]
  have hstart : Reachable Unwrapped 4096 _ _ := .init fun _ => 0
  refine hstart.calls (by decide) (by decide) (by decide) ⟨?_, by decide, ?_⟩
  · exact ⟨.inl rfl, nofun, by decide, by decide⟩
  refine ⟨⟨.inl rfl, nofun, by decide, by decide⟩, by decide, ?_⟩
  refine ⟨⟨.inr (by decide), nofun, by decide, by decide⟩, by decide, ?_⟩
  exact ⟨⟨.inr (by decide), nofun, by decide, by decide⟩, by decide, trivial⟩

end Slopix.Libc
