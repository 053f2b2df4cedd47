import Slopix.Libc.Heap

/-!
# All sizes

What `malloc`, `calloc` and `realloc` do for each of the 2^64 sizes. Rounding up and adding the header wrap near
the top of the range, and from 2^63 on the argument of `sbrk` is negative: then the kernel either refuses, or
lowers the break below the block that is handed out.
-/

namespace Slopix.Libc

open Lib Option Or

/-! ## The law -/

/-- The bytes of a block, its header included, are the same before and after. -/
def SameBlock (h h' : Heap) (b : Block) : Prop :=
  ∀ k, b.addr ≤ k → k < b.stop HEADER_SIZE → h'.mem k = h.mem k

/-- The `size` bytes at `r` are in the heap, and outside every live block but the one at `own`. -/
structure Usable (base : Nat) (h' : Heap) (p : Pool) (own r size : Nat) : Prop where
  low : base + HEADER_SIZE ≤ r
  high : r + size ≤ h'.brk
  apart : ∀ l ∈ p.live, ptrOf l ≠ own → r + size ≤ l.1.addr ∨ l.1.stop HEADER_SIZE ≤ r

/-- What a request of `size` bytes promises, `own` being the pointer that `realloc` is given: a block of that
many bytes, or NULL with the break and the live blocks as they were. With size 0 `realloc` is told to give its
own block back. -/
structure Promise (base : Nat) (h : Heap) (p : Pool) (own size r : Nat) (h' : Heap) : Prop where
  block : r ≠ 0 → Usable base h' p own r size
  null : r = 0 → h'.brk = h.brk ∧ ∀ l ∈ p.live, ptrOf l ≠ own ∨ size ≠ 0 → SameBlock h h' l.1

/-- The sizes for which `malloc` keeps the promise: those that fit a positive long with the header; those that do
not wrap, when a free block has the size; and those for which no free block is taken and `sbrk` refuses. (A break
32 bytes below 2^64 makes a block at the break look like NULL.) -/
def Answered (h : Heap) (p : Pool) (grant : Bool) (size : Nat) : Prop :=
  size ≤ 2 ^ 63 - 48 ∨ (size ≤ 2 ^ 64 - 48 ∧ ∃ b ∈ p.freed, roundSize size ≤ b.size) ∨
    ((∀ b ∈ p.freed, b.size < roundSize size) ∧
      (h.sbrk grant (allocSize size) = none ∨ allocSize size = 0 ∧ h.brk = 2 ^ 64 - HEADER_SIZE))

section

variable {base : Nat} {h h' : Heap} {p : Pool} {size fuel r : Nat} {grant : Bool}

/-! ## Rounding -/

theorem roundSize_dvd (size : Nat) : 16 ∣ roundSize size ∧ 16 ≤ roundSize size := by
  unfold roundSize alignUp size64 MIN_ALLOC
  split <;> omega

theorem le_roundSize (hwrap : size ≤ 2 ^ 64 - 16) : size ≤ roundSize size := by
  unfold roundSize alignUp size64 MIN_ALLOC
  split <;> omega

/-- Rounding stays below a bound that is rounded itself. -/
theorem roundSize_le_of_dvd {n : Nat} (hn : n ≤ 2 ^ 64 - 16) (hdvd : 16 ∣ n) (hmin : 16 ≤ n) (hle : size ≤ n) :
    roundSize size ≤ n := by
  unfold roundSize alignUp size64 MIN_ALLOC
  split <;> omega

theorem roundSize_wrapped (hsize : size < 2 ^ 64) (hwrap : 2 ^ 64 - 16 < size) : roundSize size = 16 := by
  unfold roundSize alignUp size64 MIN_ALLOC
  rw [if_pos (by omega)]

theorem roundSize_lt (hsize : size < 2 ^ 64) : roundSize size ≤ 2 ^ 64 - 16 := by
  by_cases hwrap : size ≤ 2 ^ 64 - 16
  · exact roundSize_le_of_dvd (Nat.le_refl _) (by omega) (by omega) hwrap
  · rw [roundSize_wrapped hsize (by omega)]
    omega

theorem roundSize_idem (hsize : size < 2 ^ 64) : roundSize (roundSize size) = roundSize size := by
  obtain ⟨hdvd, hmin⟩ := roundSize_dvd size
  exact roundSize_of_dvd (by have := roundSize_lt hsize; omega) hdvd hmin

/-- What `sbrk` is asked for: the header added, with the two sums that wrap. -/
theorem allocSize_cases (hsize : size < 2 ^ 64) :
    (size ≤ 2 ^ 64 - 48 ∧ allocSize size = HEADER_SIZE + roundSize size ∧ size ≤ roundSize size ∧
        roundSize size ≤ 2 ^ 64 - 48) ∨
      (2 ^ 64 - 48 < size ∧ size ≤ 2 ^ 64 - 16 ∧ 2 ^ 64 - 32 ≤ roundSize size ∧ allocSize size ≤ 16) ∨
      (2 ^ 64 - 16 < size ∧ roundSize size = 16 ∧ allocSize size = 48) := by
  unfold allocSize size64 HEADER_SIZE
  obtain ⟨hdvd, hmin⟩ := roundSize_dvd size
  by_cases hwrap : size ≤ 2 ^ 64 - 16
  · have hle := le_roundSize hwrap
    have hlt := roundSize_lt hsize
    by_cases h48 : size ≤ 2 ^ 64 - 48
    · have hround := roundSize_le_of_dvd (by omega) (by omega) (by omega) h48
      exact inl ⟨h48, by omega, hle, hround⟩
    · exact inr (inl ⟨by omega, hwrap, by omega, by omega⟩)
  · have hround := roundSize_wrapped hsize (by omega)
    exact inr (inr ⟨by omega, hround, by omega⟩)

/-! ## The outcome of `malloc` -/

/-- The good outcomes: NULL with the heap's blocks as they were, or a block of the size that was rounded to. -/
def Good (base : Nat) (h : Heap) (p : Pool) (size r : Nat) (h' : Heap) : Prop :=
  (r = 0 ∧ h'.brk = h.brk ∧ ∀ l ∈ p.live, SameBlock h h' l.1) ∨
    (r ≠ 0 ∧ size ≤ roundSize size ∧ Usable base h' p 0 r (roundSize size))

/-- The call has moved the break and returned null, or its block is not below the break. -/
def Bad (base : Nat) (h : Heap) (size r : Nat) (h' : Heap) : Prop :=
  (r = 0 ∧ h'.brk ≠ h.brk) ∨ (r ≠ 0 ∧ ¬ (base + HEADER_SIZE ≤ r ∧ r + size ≤ h'.brk))

theorem Served.usable {p' : Pool} {asked : Nat} (hs : Served base h p h' p' r size asked) (hr : r ≠ 0) :
    Usable base h' p 0 r (roundSize size) := by
  obtain ⟨l, hptr, hlive, -, hround⟩ := hs.got hr
  have hl : l ∈ p'.live := hlive ▸ List.mem_cons_self
  have hbounds := hs.rep.bounds (live_mem hl)
  have hbrk := hs.rep.brk
  unfold Block.stop at hbounds
  unfold ptrOf at hptr
  refine ⟨by omega, by omega, fun l' hl' _ => ?_⟩
  have hapart := hs.apart hlive hl'
  unfold Block.Apart Block.stop at hapart
  unfold Block.stop
  omega

theorem Good.refused (base : Nat) (h : Heap) (p : Pool) (size : Nat) : Good base h p size 0 h :=
  inl ⟨rfl, rfl, fun _ _ _ _ _ => rfl⟩

theorem Rep.malloc_found (hr : Rep base h p) (hzero : size ≠ 0) (hfuel : p.freed.length < fuel)
    {pre post : List Block} {b : Block} (hfit : Pool.firstFit (roundSize size) p.freed = some (pre, b, post)) :
    h.malloc fuel grant size = some (b.addr + HEADER_SIZE,
      (h.splitBlock b.addr (roundSize size)).unlinkBlock (Heap.lastAddr 0 pre) b.addr) := by
  have hb : b ∈ p.freed := by simp [(Pool.firstFit_some hfit).1]
  have hbounds := hr.bounds (freed_mem hb)
  have htop := hr.top
  have hptr : size64 (b.addr + HEADER_SIZE) = b.addr + HEADER_SIZE := by
    unfold Block.stop at hbounds
    exact Nat.mod_eq_of_lt (by omega)
  unfold Heap.malloc
  rw [if_neg hzero, hr.chain.findBlock hfuel fun c hc => by
    have hx := hr.bounds (freed_mem hc)
    omega, hfit]
  simp only [map_some, hptr]

theorem Rep.malloc_new (hr : Rep base h p) (hzero : size ≠ 0) (hfuel : p.freed.length < fuel)
    (hfit : Pool.firstFit (roundSize size) p.freed = none) :
    h.malloc fuel grant size = some (match h.sbrk grant (allocSize size) with
      | none => (0, h)
      | some (block, h) =>
        (size64 (block + HEADER_SIZE), ((h.setSize block (roundSize size)).setNext block 0).setFlags block 0)) := by
  unfold Heap.malloc
  rw [if_neg hzero, hr.chain.findBlock hfuel fun c hc => by
    have hx := hr.bounds (freed_mem hc)
    omega, hfit, map_none]
  cases h.sbrk grant (allocSize size) <;> rfl

/-- What `sbrk` does when it does not refuse: the old break, and the new one. -/
theorem sbrk_some {n block : Nat} {h1 : Heap} (hn : n < 2 ^ 64) (hbrk : h.brk < 2 ^ 64)
    (hs : h.sbrk grant n = some (block, h1)) :
    block = h.brk ∧ h1 = { h with brk := h1.brk } ∧ (h1.brk = h.brk + n ∧ h.brk + n < 2 ^ 64 ∧ n < 2 ^ 63 ∨
      2 ^ 63 ≤ n ∧ h1.brk + (2 ^ 64 - n) = h.brk) := by
  unfold Heap.sbrk at hs
  split at hs
  · cases hs
    exact ⟨rfl, rfl, by omega⟩
  split at hs
  · split at hs
    · cases hs
      exact ⟨rfl, rfl, by dsimp only; omega⟩
    · cases hs
  split at hs
  · cases hs
  · cases hs
    exact ⟨rfl, rfl, by dsimp only; omega⟩

/-- Every request ends well for the sizes that are answered, and badly for the others. -/
theorem Rep.malloc_outcome (hr : Rep base h p) (grant : Bool) (hsize : size < 2 ^ 64)
    (hfuel : p.freed.length < fuel) :
    ∃ r h', h.malloc fuel grant size = some (r, h') ∧ (Answered h p grant size → Good base h p size r h') ∧
      (¬ Answered h p grant size → Bad base h size r h') := by
  have hbrk := hr.brk
  have htop := hr.top
  by_cases hzero : size = 0
  · exact ⟨0, h, by rw [hzero]; rfl, fun _ => Good.refused base h p size,
      fun hno => absurd (inl (by omega)) hno⟩
  rcases hfit : Pool.firstFit (roundSize size) p.freed with _ | ⟨pre, b, post⟩
  · have hnone := Pool.firstFit_none hfit
    rw [hr.malloc_new hzero hfuel hfit]
    rcases hs : h.sbrk grant (allocSize size) with _ | ⟨block, h1⟩
    · exact ⟨0, h, rfl, fun _ => Good.refused base h p size,
        fun hno => absurd (inr (inr ⟨hnone, inl hs⟩)) hno⟩
    have halloc : allocSize size < 2 ^ 64 := Nat.mod_lt _ (by decide)
    obtain ⟨rfl, hmem, hmoved⟩ := sbrk_some halloc (by omega) hs
    have hcases := allocSize_cases hsize
    refine ⟨_, _, rfl, fun hans => ?_, fun hno => ?_⟩
    · rcases hans with hans | ⟨-, b, hb, hfits⟩ | ⟨-, hrefused | ⟨hnull, hend⟩⟩
      · have hun : size + 15 + HEADER_SIZE < 2 ^ 64 := by
          unfold HEADER_SIZE
          omega
        obtain ⟨hle, -, -, hsum⟩ := roundSize_spec hun
        have hround := roundSize_le_of_dvd (by omega) (by omega) (by omega) hans
        have hgrown : h1.brk = h.brk + allocSize size ∧ p.top + allocSize size < 2 ^ 64 := by
          unfold HEADER_SIZE at *
          omega
        have hserved := hr.grow hun hle hgrown.2
        have hptr : size64 (h.brk + HEADER_SIZE) = p.top + HEADER_SIZE := by
          rw [hbrk]
          exact Nat.mod_eq_of_lt (by unfold HEADER_SIZE at *; omega)
        rw [hmem, hgrown.1, hptr]
        exact inr ⟨by unfold HEADER_SIZE; omega, hle, hserved.usable (by unfold HEADER_SIZE; omega)⟩
      · have hlt := hnone b hb
        omega
      · rw [hs] at hrefused
        cases hrefused
      -- a header beyond all blocks, and a pointer that wraps to NULL
      have hptr : size64 (h.brk + HEADER_SIZE) = 0 := by
        rw [hend]
        rfl
      refine inl ⟨hptr, ?_, fun l hl k hk hk' => ?_⟩
      · simp only [Heap.brk_setFlags, Heap.brk_setNext, Heap.brk_setSize]
        omega
      · have hbounds := hr.bounds (live_mem hl)
        rw [Heap.mem_setFlags_of (by omega), Heap.mem_setNext_of (by omega), Heap.mem_setSize_of (by omega), hmem]
    have hbig : 2 ^ 63 - 48 < size := by
      by_contra hle
      exact hno (inl (by omega))
    have hseen : ¬ (allocSize size = 0 ∧ h.brk = 2 ^ 64 - HEADER_SIZE) := fun hend =>
      hno (inr (inr ⟨hnone, inr hend⟩))
    have hdvd := (roundSize_dvd size).1
    unfold Bad
    simp only [Heap.brk_setFlags, Heap.brk_setNext, Heap.brk_setSize]
    unfold size64 HEADER_SIZE at *
    -- the break goes down, moves by less than a header, or makes room for the least block only
    rcases hcases with ⟨hle, hsum, hround, -⟩ | ⟨-, -, -, hsum⟩ | ⟨hlt, -, hsum⟩
    · rcases hmoved with ⟨-, -, hneg⟩ | ⟨-, hdown⟩
      · omega
      · omega
    · rcases hmoved with ⟨hup, hfits, -⟩ | ⟨hneg, -⟩
      · omega
      · omega
    · rcases hmoved with ⟨hup, hfits, -⟩ | ⟨hneg, -⟩
      · omega
      · omega
  obtain ⟨hfreed, hfits, -⟩ := Pool.firstFit_some hfit
  have hb : b ∈ p.freed := by simp [hfreed]
  have hbounds := hr.bounds (freed_mem hb)
  unfold Block.stop HEADER_SIZE at hbounds
  refine ⟨_, _, hr.malloc_found hzero hfuel hfit, fun hans => ?_, fun hno => inr ⟨?_, ?_⟩⟩
  · -- the block is too small for what was asked only if the size has wrapped
    have hsmall : size ≤ 2 ^ 64 - 48 := by
      rcases hans with hans | ⟨hans, -⟩ | ⟨hans, -⟩
      · omega
      · exact hans
      · have hlt := hans b hb
        omega
    have hun : size + 15 + HEADER_SIZE < 2 ^ 64 := by
      unfold HEADER_SIZE
      omega
    have hserved := hr.reuse hun (roundSize_spec hun).1 hfit
    exact inr ⟨by unfold HEADER_SIZE; omega, (roundSize_spec hun).1,
      hserved.usable (by unfold HEADER_SIZE; omega)⟩
  · unfold HEADER_SIZE
    omega
  have hbig : 2 ^ 64 - 48 < size := by
    by_contra hle
    exact hno (inr (inl ⟨by omega, b, hb, hfits⟩))
  have hlarge : 2 ^ 64 - 16 < size := by
    rcases allocSize_cases hsize with ⟨hle, -⟩ | ⟨-, -, hround, -⟩ | ⟨hlt, -⟩
    · omega
    · omega
    · exact hlt
  rw [Heap.brk_unlinkBlock, Heap.brk_splitBlock]
  omega

end

/-! ## The three functions -/

/-- The sizes for which `realloc` of a live block keeps the promise: 0, those that do not wrap when the block is
large enough, and those that `malloc` answers when it is not. -/
def Resized (h : Heap) (p : Pool) (grant : Bool) (l : Block × Nat) (size : Nat) : Prop :=
  size = 0 ∨ (roundSize size ≤ l.1.size ∧ size ≤ 2 ^ 64 - 16) ∨ (l.1.size < roundSize size ∧ Answered h p grant size)

section

variable {base : Nat} {h h' h'' : Heap} {p : Pool} {size fuel r own : Nat} {grant : Bool} {l : Block × Nat}

theorem Usable.mono {size' : Nat} (hu : Usable base h' p 0 r size') (hr : Rep base h p) (hle : size ≤ size')
    (hbrk : h''.brk = h'.brk) : Usable base h'' p own r size where
  low := hu.low
  high := by
    have hhigh := hu.high
    omega
  apart l hl _ := by
    have hapart := hu.apart l hl (hr.ptr_bounds hl).1
    omega

theorem Good.promise (hg : Good base h p size r h') (hr : Rep base h p) : Promise base h p own size r h' := by
  rcases hg with ⟨rfl, hbrk, hsame⟩ | ⟨hne, hle, hu⟩
  · exact ⟨fun hne => absurd rfl hne, fun _ => ⟨hbrk, fun l hl _ => hsame l hl⟩⟩
  · exact ⟨fun _ => hu.mono hr hle rfl, fun hzero => absurd hzero hne⟩

theorem Bad.not_promise (hb : Bad base h size r h') : ¬ Promise base h p own size r h' := by
  intro hp
  rcases hb with ⟨hzero, hbrk⟩ | ⟨hne, hout⟩
  · exact hbrk (hp.null hzero).1
  · exact hout ⟨(hp.block hne).low, (hp.block hne).high⟩

/-- After a call that returned a block only the break matters. -/
theorem Promise.of_brk (hp : Promise base h p own size r h') (hne : r ≠ 0) (hbrk : h''.brk = h'.brk) :
    Promise base h p own size r h'' where
  block hr :=
    let hu := hp.block hr
    { low := hu.low, high := hbrk ▸ hu.high, apart := hu.apart }
  null hzero := absurd hzero hne

theorem Bad.of_brk (hb : Bad base h size r h') (hbrk : h''.brk = h'.brk) : Bad base h size r h'' := by
  unfold Bad at *
  rwa [hbrk]

theorem Heap.malloc_roundSize (h : Heap) (fuel : Nat) (grant : Bool) (hsize : size < 2 ^ 64) (hzero : size ≠ 0) :
    h.malloc fuel grant (roundSize size) = h.malloc fuel grant size := by
  have hne : roundSize size ≠ 0 := by
    have hmin := (roundSize_dvd size).2
    omega
  have halloc : allocSize (roundSize size) = allocSize size := by
    unfold allocSize
    rw [roundSize_idem hsize]
  unfold Heap.malloc
  rw [if_neg hne, if_neg hzero, roundSize_idem hsize, halloc]

theorem Heap.brk_free (h : Heap) (ptr : Nat) : (h.free ptr).brk = h.brk := by
  have hkeep : ∀ block v next, ({ (h.setFlags block v).setNext block next with freeList := block } : Heap).brk = h.brk :=
    fun _ _ _ => rfl
  by_cases hzero : ptr = 0
  · exact congrArg Heap.brk (if_pos hzero)
  · exact (congrArg Heap.brk (if_neg hzero)).trans (hkeep _ _ _)

theorem Rep.malloc_exact (hr : Rep base h p) (grant : Bool) (hsize : size < 2 ^ 64) (hfuel : p.freed.length < fuel) :
    ∃ r h', h.malloc fuel grant size = some (r, h') ∧
      (Promise base h p 0 size r h' ↔ Answered h p grant size) := by
  obtain ⟨r, h', hrun, hgood, hbad⟩ := hr.malloc_outcome grant hsize hfuel
  refine ⟨r, h', hrun, fun hp => ?_, fun hans => (hgood hans).promise hr⟩
  by_contra hno
  exact (hbad hno).not_promise hp

theorem Promise.refused (base : Nat) (h : Heap) (p : Pool) (own size : Nat) : Promise base h p own size 0 h where
  block hne := absurd rfl hne
  null _ := ⟨rfl, fun _ _ _ _ _ _ => rfl⟩

theorem Rep.calloc_exact (hr : Rep base h p) (grant : Bool) (count size : Nat) (hfuel : p.freed.length < fuel) :
    ∃ r h', h.calloc fuel grant count size = some (r, h') ∧
      (Promise base h p 0 (count * size) r h' ↔ 2 ^ 64 ≤ count * size ∨ Answered h p grant (count * size)) := by
  unfold Heap.calloc
  by_cases hzero : count = 0 ∨ size = 0
  · have hprod : count * size = 0 := Nat.mul_eq_zero.2 hzero
    rw [if_pos hzero, hprod]
    exact ⟨0, h, rfl, fun _ => inr (inl (by omega)), fun _ => Promise.refused base h p 0 0⟩
  have hover : count > (2 ^ 64 - 1) / size ↔ 2 ^ 64 ≤ count * size := by
    rw [gt_iff_lt, Nat.div_lt_iff_lt_mul (by omega)]
    omega
  rw [if_neg hzero]
  by_cases hbig : 2 ^ 64 ≤ count * size
  · rw [if_pos (hover.2 hbig)]
    exact ⟨0, h, rfl, fun _ => inl hbig, fun _ => Promise.refused base h p 0 _⟩
  have htotal : size64 (count * size) = count * size := Nat.mod_eq_of_lt (by omega)
  obtain ⟨r, h', hrun, hexact⟩ := hr.malloc_exact grant (show count * size < 2 ^ 64 by omega) hfuel
  rw [if_neg (fun hgt => hbig (hover.1 hgt)), htotal, hrun, map_some, or_iff_right hbig]
  dsimp only
  by_cases hnull : r = 0
  · rw [if_pos hnull]
    exact ⟨r, h', rfl, hexact⟩
  · rw [if_neg hnull]
    exact ⟨r, _, rfl, fun hp => hexact.1 (hp.of_brk hnull rfl), fun hans => (hexact.2 hans).of_brk hnull rfl⟩

/-- `realloc` keeps its promise exactly when the new size can be had. -/
theorem Rep.realloc_exact (hr : Rep base h p) (grant : Bool) (hl : l ∈ p.live) (hsize : size < 2 ^ 64)
    (hfuel : p.freed.length < fuel) :
    ∃ r h', h.realloc fuel grant (ptrOf l) size = some (r, h') ∧
      (Promise base h p (ptrOf l) size r h' ↔ Resized h p grant l size) := by
  obtain ⟨hne, hblock⟩ := hr.ptr_bounds hl
  have hbounds := hr.bounds (live_mem hl)
  have hbrk := hr.brk
  have htop := hr.top
  unfold Heap.realloc
  by_cases hzero : size = 0
  · rw [if_pos hzero]
    refine ⟨0, _, rfl, fun _ => inl hzero, fun _ => ⟨fun h0 => absurd rfl h0, fun _ => ⟨h.brk_free _, ?_⟩⟩⟩
    rintro l' hl' hkept k hk hk'
    have hother : ptrOf l' ≠ ptrOf l := hkept.resolve_right (not_not.2 hzero)
    refine hr.mem_free hl ?_
    have hapart := hr.live_live hl hl' (Ne.symm hother)
    unfold Block.Apart Block.stop HEADER_SIZE at hapart
    unfold Block.stop HEADER_SIZE at hk'
    unfold ptrOf HEADER_SIZE
    omega
  rw [if_neg hzero]
  simp only [hblock, hr.sizes l hl]
  by_cases hfits : roundSize size ≤ l.1.size
  · -- in place: the block is as large as the rounded size, and the rounded size as what was asked, or not
    rw [if_pos hfits]
    refine ⟨_, _, rfl, fun hp => ?_, fun hres => ⟨fun _ => ?_, fun h0 => absurd h0 hne⟩⟩
    · have hhigh := (hp.block hne).high
      rw [Heap.brk_setSize] at hhigh
      unfold ptrOf HEADER_SIZE at hhigh
      exact inr (inl ⟨hfits, by omega⟩)
    have hle : size ≤ roundSize size := by
      rcases hres with h0 | ⟨-, hwrap⟩ | ⟨hlt, -⟩
      · exact absurd h0 hzero
      · exact le_roundSize hwrap
      · omega
    unfold Block.stop at hbounds
    refine ⟨?_, ?_, fun l' hl' hother => ?_⟩
    · unfold ptrOf
      omega
    · rw [Heap.brk_setSize]
      unfold ptrOf
      omega
    have hapart := hr.live_live hl hl' (Ne.symm hother)
    unfold Block.Apart Block.stop at hapart
    unfold ptrOf Block.stop
    omega
  rw [if_neg hfits, h.malloc_roundSize fuel grant hsize hzero]
  obtain ⟨r, h', hrun, hgood, hbad⟩ := hr.malloc_outcome grant hsize hfuel
  have hres : Resized h p grant l size ↔ Answered h p grant size :=
    ⟨fun hres => (hres.resolve_left hzero).elim (fun hx => absurd hx.1 hfits) And.right,
      fun hans => inr (inr ⟨by omega, hans⟩)⟩
  rw [hrun, map_some, hres]
  by_cases hnull : r = 0
  · rw [if_pos hnull]
    subst hnull
    refine ⟨0, h', rfl, fun hp => ?_, fun hans => (hgood hans).promise hr⟩
    by_contra hno
    exact (hbad hno).not_promise hp
  rw [if_neg hnull]
  have hbrk' : (Heap.free { h' with mem := Heap.memcpy l.1.size h'.mem r (ptrOf l) } (ptrOf l)).brk = h'.brk :=
    Heap.brk_free _ _
  refine ⟨r, _, rfl, fun hp => ?_, fun hans => ((hgood hans).promise hr).of_brk hnull hbrk'⟩
  by_contra hno
  exact ((hbad hno).of_brk hbrk').not_promise hp

end

/-- In every heap that represents a pool, and for every size and whatever the kernel says, the three functions
return, and keep the promise exactly for the sizes that are answered. -/
theorem alloc_exact {base fuel : Nat} {h : Heap} {p : Pool} (hr : Rep base h p) (grant : Bool)
    (hfuel : p.freed.length < fuel) :
    (∀ size < 2 ^ 64, ∃ r h', h.malloc fuel grant size = some (r, h') ∧
      (Promise base h p 0 size r h' ↔ Answered h p grant size)) ∧
    (∀ count size, ∃ r h', h.calloc fuel grant count size = some (r, h') ∧
      (Promise base h p 0 (count * size) r h' ↔ 2 ^ 64 ≤ count * size ∨ Answered h p grant (count * size))) ∧
    (∀ size < 2 ^ 64, ∃ r h', h.realloc fuel grant 0 size = some (r, h') ∧
      (Promise base h p 0 size r h' ↔ Answered h p grant size)) ∧
    (∀ l ∈ p.live, ∀ size < 2 ^ 64, ∃ r h', h.realloc fuel grant (ptrOf l) size = some (r, h') ∧
      (Promise base h p (ptrOf l) size r h' ↔ Resized h p grant l size)) :=
  ⟨fun _ hsize => hr.malloc_exact grant hsize hfuel, fun count size => hr.calloc_exact grant count size hfuel,
    fun _ hsize => hr.malloc_exact grant hsize hfuel, fun _ hl _ hsize => hr.realloc_exact grant hl hsize hfuel⟩

theorem empty_rep : Rep 4096 ⟨fun _ => 0, 0, 4096⟩ ⟨[], [], 4096⟩ :=
  Reachable.rep (by decide) (by decide) (by decide) (.init _)

/-- With two free blocks and a live one, 50 bytes are given, a product that does not fit is refused, and the live block is
made larger. -/
theorem alloc_exact_small : ∃ h, Reachable Unwrapped 4096 h usedPool ∧
    (∃ r h', h.malloc 3 true 50 = some (r, h') ∧ Promise 4096 h usedPool 0 50 r h') ∧
    (∃ r h', h.calloc 3 true (2 ^ 33) (2 ^ 33) = some (r, h') ∧ Promise 4096 h usedPool 0 (2 ^ 33 * 2 ^ 33) r h') ∧
    ∃ r h', h.realloc 3 true 4320 1000 = some (r, h') ∧ Promise 4096 h usedPool 4320 1000 r h' := by
  obtain ⟨h, hreach⟩ := used_reachable
  obtain ⟨hmalloc, hcalloc, -, hrealloc⟩ :=
    alloc_exact (hreach.rep (by decide) (by decide) (by decide)) true (show usedPool.freed.length < 3 by decide)
  obtain ⟨r, h1, hrun, hexact⟩ := hmalloc 50 (by decide)
  obtain ⟨r', h2, hrun', hexact'⟩ := hcalloc (2 ^ 33) (2 ^ 33)
  obtain ⟨r'', h3, hrun'', hexact''⟩ := hrealloc (⟨4288, 208⟩, 200) (by decide) 1000 (by decide)
  exact ⟨h, hreach, ⟨r, h1, hrun, hexact.2 (Or.inl (by decide))⟩, ⟨r', h2, hrun', hexact'.2 (Or.inl (by decide))⟩, r'', h3,
    hrun'', hexact''.2 (Or.inr (Or.inr ⟨by decide, Or.inl (by decide)⟩))⟩

/-- The largest size wraps, and gets the least block. -/
theorem malloc_max_size : ∃ r h', Heap.malloc ⟨fun _ => 0, 0, 4096⟩ 1 true (2 ^ 64 - 1) = some (r, h') ∧
    ¬ Promise 4096 ⟨fun _ => 0, 0, 4096⟩ ⟨[], [], 4096⟩ 0 (2 ^ 64 - 1) r h' := by
  obtain ⟨r, h', hrun, hexact⟩ := empty_rep.malloc_exact true (by decide : 2 ^ 64 - 1 < 2 ^ 64)
    Nat.zero_lt_one
  refine ⟨r, h', hrun, fun hp => ?_⟩
  rcases hexact.1 hp with hle | ⟨hle, -⟩ | ⟨-, hrefused | ⟨hzero, -⟩⟩
  · exact absurd hle (by decide)
  · exact absurd hle (by decide)
  · cases hrefused
  · exact absurd hzero (by decide)

end Slopix.Libc
