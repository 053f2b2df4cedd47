import Slopix.Lib.Bytes

/-!
# malloc, free, calloc, realloc

`libc/malloc.c` over a byte memory. Every block starts with a header of 32 bytes: `size` at 0, `next`
at 8, `flags` at 16. `free_list` is a pointer into this memory and 0 is NULL; `size_t` and pointer
arithmetic wrap at 2^64. The free-list walk takes fuel, and `none` means that it did not end.
-/

namespace Slopix.Libc

open Lib

/-- The flag of a block on the free list. -/
def FLAG_FREE : Nat := 1

/-- `sizeof(block_header_t)`. -/
def HEADER_SIZE : Nat := 32

/-- What is left of a block must have this many bytes to become one of its own. -/
def MIN_ALLOC : Nat := 16

/-- `size_t` arithmetic. -/
def size64 (x : Nat) : Nat := x % 2 ^ 64

/-- `ALIGN_UP` to 16, on 64 bits. -/
def alignUp (x : Nat) : Nat := size64 (x + 15) / 16 * 16

/-- The size of the block that a request of `size` bytes gets. -/
def roundSize (size : Nat) : Nat := if alignUp size < MIN_ALLOC then MIN_ALLOC else alignUp size

/-- What `malloc` passes to `sbrk` for a request of `size` bytes. -/
def allocSize (size : Nat) : Nat := size64 (HEADER_SIZE + roundSize size)

/-- The memory of the process, the head of the free list, and the program break. -/
structure Heap where
  mem : Bytes
  freeList : Nat
  brk : Nat

namespace Heap

variable (h : Heap)

/-- The field `size` of the header at `b`. -/
def blockSize (b : Nat) : Nat := getLe 8 h.mem b

/-- The field `next`. -/
def blockNext (b : Nat) : Nat := getLe 8 h.mem (b + 8)

/-- The field `flags`. -/
def blockFlags (b : Nat) : Nat := getLe 8 h.mem (b + 16)

/-- Store to `size`. -/
def setSize (b v : Nat) : Heap := { h with mem := putLe 8 h.mem b v }

/-- Store to `next`. -/
def setNext (b v : Nat) : Heap := { h with mem := putLe 8 h.mem (b + 8) v }

/-- Store to `flags`. -/
def setFlags (b v : Nat) : Heap := { h with mem := putLe 8 h.mem (b + 16) v }

/-- `sbrk` with the argument read as a long. A request for more may be refused, and is refused where
the break would wrap; what it gives starts at the old break. -/
def sbrk (grant : Bool) (n : Nat) : Option (Nat × Heap) :=
  if n = 0 then some (h.brk, h)
  else if n < 2 ^ 63 then
    if grant ∧ h.brk + n < 2 ^ 64 then some (h.brk, { h with brk := h.brk + n }) else none
  else if h.brk < 2 ^ 64 - n then none
  else some (h.brk, { h with brk := h.brk - (2 ^ 64 - n) })

/-- The walk of `malloc` along the free list: the first free block that is large enough, with the
block before it. -/
def findBlock (size : Nat) : Nat → Nat → Nat → Option (Option (Nat × Nat))
  | 0, _, _ => none
  | fuel + 1, prev, curr =>
    if curr = 0 then some none
    else if h.blockFlags curr % 2 = FLAG_FREE ∧ size ≤ h.blockSize curr then
      some (some (prev, curr))
    else findBlock size fuel curr (h.blockNext curr)

/-- Cut the block in two if the rest has room for a header and `MIN_ALLOC` bytes. -/
def splitBlock (curr size : Nat) : Heap :=
  if size64 (size + HEADER_SIZE + MIN_ALLOC) ≤ h.blockSize curr then
    let new_block := size64 (curr + HEADER_SIZE + size)
    let h := h.setSize new_block (size64 (h.blockSize curr + 2 ^ 64 - size + 2 ^ 64 - HEADER_SIZE))
    let h := h.setNext new_block (h.blockNext curr)
    let h := h.setFlags new_block FLAG_FREE
    let h := h.setSize curr size
    h.setNext curr new_block
  else h

/-- Take the block out of the free list and clear its flag. -/
def unlinkBlock (prev curr : Nat) : Heap :=
  let h := if prev = 0 then { h with freeList := h.blockNext curr }
    else h.setNext prev (h.blockNext curr)
  let h := h.setFlags curr (h.blockFlags curr / 2 * 2)
  h.setNext curr 0

/-- `malloc`: a block of the free list, or one from `sbrk` when `grant` says that it succeeds. -/
def malloc (fuel : Nat) (grant : Bool) (size : Nat) : Option (Nat × Heap) :=
  if size = 0 then some (0, h)
  else
    match h.findBlock (roundSize size) fuel 0 h.freeList with
    | none => none
    | some (some (prev, curr)) =>
      some (size64 (curr + HEADER_SIZE), (h.splitBlock curr (roundSize size)).unlinkBlock prev curr)
    | some none =>
      match h.sbrk grant (allocSize size) with
      | none => some (0, h)
      | some (block, h) =>
        let h := h.setSize block (roundSize size)
        let h := h.setNext block 0
        let h := h.setFlags block 0
        some (size64 (block + HEADER_SIZE), h)

/-- `free`: the block goes to the head of the free list. -/
def free (ptr : Nat) : Heap :=
  if ptr = 0 then h
  else
    let block := size64 (ptr + 2 ^ 64 - HEADER_SIZE)
    let h := h.setFlags block (h.blockFlags block ||| FLAG_FREE)
    let h := h.setNext block h.freeList
    { h with freeList := block }

/-- `memset`, byte after byte. -/
def memset : Nat → Bytes → Nat → UInt8 → Bytes
  | 0, m, _, _ => m
  | n + 1, m, p, c => memset n (Function.update m p c) (p + 1) c

/-- `memcpy`, byte after byte. -/
def memcpy : Nat → Bytes → Nat → Nat → Bytes
  | 0, m, _, _ => m
  | n + 1, m, d, s => memcpy n (Function.update m d (m s)) (d + 1) (s + 1)

/-- `calloc`, with its check of the product. -/
def calloc (fuel : Nat) (grant : Bool) (count size : Nat) : Option (Nat × Heap) :=
  if count = 0 ∨ size = 0 then some (0, h)
  else if count > (2 ^ 64 - 1) / size then some (0, h)
  else
    (h.malloc fuel grant (size64 (count * size))).map fun (ptr, h) =>
      if ptr = 0 then (ptr, h)
      else (ptr, { h with mem := memset (size64 (count * size)) h.mem ptr 0 })

/-- `realloc`: in place when the block is large enough, else by a new one and a copy. -/
def realloc (fuel : Nat) (grant : Bool) (ptr size : Nat) : Option (Nat × Heap) :=
  if ptr = 0 then h.malloc fuel grant size
  else if size = 0 then some (0, h.free ptr)
  else
    let block := size64 (ptr + 2 ^ 64 - HEADER_SIZE)
    let old_size := h.blockSize block
    if roundSize size ≤ old_size then some (ptr, h.setSize block (roundSize size))
    else
      (h.malloc fuel grant (roundSize size)).map fun (new_ptr, h) =>
        if new_ptr = 0 then (0, h)
        else (new_ptr, { h with mem := memcpy old_size h.mem new_ptr ptr }.free ptr)

end Heap

end Slopix.Libc
