import Slopix.Lib.Bytes
import Slopix.Lib.Sorting

/-!
# `qsort`

`qsort` of `libc/stdlib.c` on the bytes of an array: quicksort with the median of three as the pivot, and an explicit
stack of 64 ranges. The comparison is given the bytes of two elements. Whatever reaches outside the array or the stack
has no result.
-/

namespace Slopix.Libc

open Lib Function Option

/-! ## The code -/

/-- The loop of `swap` over elements of more than 256 bytes, from byte `i` on. -/
def swapLoop (a b : Nat) : Nat → Nat → Bytes → Bytes
  | 0, _, mem => mem
  | n + 1, i, mem =>
    swapLoop a b n (i + 1) (Function.update (Function.update mem (a + i) (mem (b + i))) (b + i) (mem (a + i)))

/-- `swap` of the elements at `a` and `b`. -/
def swapElems (a b size : Nat) (mem : Bytes) : Bytes :=
  if size ≤ 256 then
    let buf := getBytes mem a size
    let mem := putBytes mem a (getBytes mem b size)
    putBytes mem b buf
  else swapLoop a b size 0 mem

/-- The bytes of element `k`. -/
def elem (size : Nat) (mem : Bytes) (k : Nat) : List UInt8 := getBytes mem (k * size) size

section

variable (nmemb size : Nat) (compar : List UInt8 → List UInt8 → Int)

/-- `compar` of the elements `i` and `j`. -/
def compareAt (i j : Nat) (mem : Bytes) : Option Int :=
  if i < nmemb ∧ j < nmemb then some (compar (elem size mem i) (elem size mem j)) else none

/-- `swap` of the elements `i` and `j`. -/
def swapAt (i j : Nat) (mem : Bytes) : Option Bytes :=
  if i < nmemb ∧ j < nmemb then some (swapElems (i * size) (j * size) size mem) else none

/-- `if (compar(..) < 0) swap(..)` -/
def orderPair (i j : Nat) (mem : Bytes) : Option Bytes :=
  (compareAt nmemb size compar i j mem).bind fun r => if r < 0 then swapAt nmemb size i j mem else some mem

/-- The `for` loop: `n` elements from `j` on are still to be looked at; the elements below `i` go to the left. -/
def partitionLoop (hi : Nat) : Nat → Nat → Nat → Bytes → Option (Nat × Bytes)
  | 0, _, i, mem => some (i, mem)
  | n + 1, j, i, mem =>
    (compareAt nmemb size compar j hi mem).bind fun r =>
      if r < 0 then (swapAt nmemb size i j mem).bind fun mem => partitionLoop hi n (j + 1) (i + 1) mem
      else partitionLoop hi n (j + 1) i mem

/-- The median of three goes to `hi`, and is the pivot of the partition; the result is its place. -/
def partitionRange (lo hi : Nat) (mem : Bytes) : Option (Nat × Bytes) :=
  let mid := lo + (hi - lo) / 2
  (orderPair nmemb size compar mid lo mem).bind fun mem =>
    (orderPair nmemb size compar hi lo mem).bind fun mem =>
      (orderPair nmemb size compar mid hi mem).bind fun mem =>
        (partitionLoop nmemb size compar hi (hi - lo) lo lo mem).bind fun r =>
          (swapAt nmemb size r.1 hi r.2).map fun mem => (r.1, mem)

/-- `stack[top++] = {lo, hi}`; the newest range is in front. -/
def pushRange (lo hi : Nat) (stack : List (Nat × Nat)) : Option (List (Nat × Nat)) :=
  if stack.length < 64 then some ((lo, hi) :: stack) else none

/-- The loop `while (lo < hi)`. -/
def qsortInner : Nat → Nat → Nat → List (Nat × Nat) → Bytes → Option (List (Nat × Nat) × Bytes)
  | 0, _, _, _, _ => none
  | fuel + 1, lo, hi, stack, mem =>
    if lo < hi then
      (partitionRange nmemb size compar lo hi mem).bind fun r =>
        let i := r.1
        let left := if lo < i then i - lo else 0
        let right := if i < hi then hi - i else 0
        if right < left then
          (if lo + 1 < i then pushRange lo (i - 1) stack else some stack).bind fun stack =>
            qsortInner fuel (i + 1) hi stack r.2
        else
          (if i + 1 < hi then pushRange (i + 1) hi stack else some stack).bind fun stack =>
            if i = 0 then some (stack, r.2) else qsortInner fuel lo (i - 1) stack r.2
    else some (stack, mem)

/-- The loop `while (top > 0)`. -/
def qsortOuter : Nat → List (Nat × Nat) → Bytes → Option Bytes
  | 0, _, _ => none
  | _ + 1, [], mem => some mem
  | fuel + 1, r :: stack, mem =>
    (qsortInner nmemb size compar (nmemb + 1) r.1 r.2 stack mem).bind fun q => qsortOuter fuel q.1 q.2

/-- `qsort`; `none` when the stack of ranges overflows. -/
def qsort (mem : Bytes) : Option Bytes :=
  if nmemb < 2 then some mem
  else (pushRange 0 (nmemb - 1) []).bind fun stack => qsortOuter nmemb size compar (nmemb + 1) stack mem

end

/-! ## Swapping -/

section

variable {size a b i j : Nat} {mem : Bytes}

/-- Two elements change places. -/
def exchanged (a b size : Nat) (mem : Bytes) : Bytes := fun x =>
  if a ≤ x ∧ x < a + size then mem (b + (x - a))
  else if b ≤ x ∧ x < b + size then mem (a + (x - b))
  else mem x

theorem swapLoop_eq (h : a = b ∨ a + size ≤ b ∨ b + size ≤ a) (n : Nat) (hi : i + n = size) (mem : Bytes) :
    swapLoop a b n i mem = fun x =>
      if a + i ≤ x ∧ x < a + size then mem (b + (x - a))
      else if b + i ≤ x ∧ x < b + size then mem (a + (x - b))
      else mem x := by
  induction n generalizing i mem with
  | zero =>
    funext x
    rw [swapLoop, if_neg (by omega), if_neg (by omega)]
  | succ n ih =>
    rw [swapLoop, ih (by omega)]
    funext x
    simp only [update_apply]
    grind

theorem swapElems_eq (h : a = b ∨ a + size ≤ b ∨ b + size ≤ a) (mem : Bytes) :
    swapElems a b size mem = exchanged a b size mem := by
  unfold swapElems
  split
  · -- through the buffer
    funext x
    have hget : ∀ o k, k < size → (getBytes mem o size).getD k 0 = mem (o + k) := by
      intro o k hk
      simp [getBytes, hk]
    simp only [putBytes, exchanged, length_getBytes]
    grind
  · rw [swapLoop_eq h size (by omega)]
    rfl

/-- An element lies in front of those with a larger index. -/
theorem elem_before (h : i < j) (size : Nat) : i * size + size ≤ j * size := by
  have hstep : (i + 1) * size ≤ j * size := Nat.mul_le_mul_right size h
  rwa [add_mul, one_mul] at hstep

theorem elem_apart {k : Nat} (hk : k ≠ i) {t : Nat} (ht : t < size) :
    ¬ (i * size ≤ k * size + t ∧ k * size + t < i * size + size) := by
  rintro ⟨hlo, hhi⟩
  rcases Nat.lt_or_gt_of_ne hk with hlt | hgt
  · have hbefore := elem_before hlt size
    omega
  · have hbefore := elem_before hgt size
    omega

theorem elems_exchanged (i j size : Nat) (mem : Bytes) :
    swapElems (i * size) (j * size) size mem = exchanged (i * size) (j * size) size mem := by
  apply swapElems_eq
  rcases Nat.lt_trichotomy i j with hlt | rfl | hgt
  · exact Or.inr (Or.inl (elem_before hlt size))
  · exact Or.inl rfl
  · exact Or.inr (Or.inr (elem_before hgt size))

/-- **Swapping exchanges two elements of the array.** -/
theorem elem_swapElems (i j size : Nat) (mem : Bytes) :
    elem size (swapElems (i * size) (j * size) size mem) = elem size mem ∘ Equiv.swap i j := by
  rw [elems_exchanged]
  funext k
  refine List.map_congr_left fun t ht => ?_
  have hlt : t < size := List.mem_range.1 ht
  unfold exchanged
  by_cases hki : k = i
  · subst hki
    rw [if_pos (by omega), Equiv.swap_apply_left, Nat.add_sub_cancel_left]
  rw [if_neg (elem_apart hki hlt)]
  by_cases hkj : k = j
  · subst hkj
    rw [if_pos (by omega), Equiv.swap_apply_right, Nat.add_sub_cancel_left]
  · rw [if_neg (elem_apart hkj hlt), Equiv.swap_apply_of_ne_of_ne hki hkj]

theorem swapElems_behind {n x : Nat} (hi : i < n) (hj : j < n) (hx : n * size ≤ x) (mem : Bytes) :
    swapElems (i * size) (j * size) size mem x = mem x := by
  have hi' := elem_before hi size
  have hj' := elem_before hj size
  rw [elems_exchanged, exchanged, if_neg (by omega), if_neg (by omega)]

end

/-! ## One round -/

/-- The comparison is a total preorder. -/
structure TotalPreorder (size : Nat) (compar : List UInt8 → List UInt8 → Int) : Prop where
  flip : ∀ a b : List UInt8, a.length = size → b.length = size → (compar a b < 0 ↔ 0 < compar b a)
  trans : ∀ a b c : List UInt8, a.length = size → b.length = size → c.length = size →
    compar a b ≤ 0 → compar b c ≤ 0 → compar a c ≤ 0

section

variable {nmemb size lo hi : Nat} {compar : List UInt8 → List UInt8 → Int} {mem : Bytes}

/-- Where the code got: the elements at `lo` to `hi` are rearranged, and nothing behind the array has changed. -/
structure Kept (nmemb size lo hi : Nat) (mem mem' : Bytes) : Prop where
  elems : Rearranged lo hi (elem size mem) (elem size mem')
  behind : ∀ x, nmemb * size ≤ x → mem' x = mem x

theorem Kept.refl (nmemb size lo hi : Nat) (mem : Bytes) : Kept nmemb size lo hi mem mem :=
  ⟨.refl _ _ _, fun _ _ => rfl⟩

theorem Kept.trans {mem' mem'' : Bytes} (h : Kept nmemb size lo hi mem mem') (h' : Kept nmemb size lo hi mem' mem'') :
    Kept nmemb size lo hi mem mem'' :=
  ⟨h.elems.trans h'.elems, fun x hx => (h'.behind x hx).trans (h.behind x hx)⟩

theorem swapAt_spec (size lo : Nat) {i j : Nat} (hn : hi < nmemb) (hi1 : lo ≤ i ∧ i ≤ hi) (hj1 : lo ≤ j ∧ j ≤ hi) (mem : Bytes) :
    ∃ mem', swapAt nmemb size i j mem = some mem' ∧ Kept nmemb size lo hi mem mem' ∧
      elem size mem' = elem size mem ∘ Equiv.swap i j := by
  have helems := elem_swapElems i j size mem
  refine ⟨_, if_pos ⟨by omega, by omega⟩, ⟨?_, fun x hx => ?_⟩, helems⟩
  · rw [helems]
    exact .swap _ hi1.1 hi1.2 hj1.1 hj1.2
  · exact swapElems_behind (by omega : i < nmemb) (by omega) hx mem

theorem orderPair_spec (size lo : Nat) (compar : List UInt8 → List UInt8 → Int) {i j : Nat} (hn : hi < nmemb) (hi1 : lo ≤ i ∧ i ≤ hi) (hj1 : lo ≤ j ∧ j ≤ hi) (mem : Bytes) :
    ∃ mem', orderPair nmemb size compar i j mem = some mem' ∧ Kept nmemb size lo hi mem mem' := by
  unfold orderPair compareAt
  rw [if_pos ⟨by omega, by omega⟩, bind_some]
  split
  · obtain ⟨mem', hswap, hkept, -⟩ := swapAt_spec size lo hn hi1 hj1 mem
    exact ⟨mem', hswap, hkept⟩
  · exact ⟨mem, rfl, .refl _ _ _ _ _⟩

/-- The elements in front of `i` are less than the one at `hi`, those from `i` up to `j` are not. -/
structure Sifted (size : Nat) (compar : List UInt8 → List UInt8 → Int) (lo hi i j : Nat) (mem : Bytes) : Prop where
  bounds : lo ≤ i ∧ i ≤ j ∧ j ≤ hi
  left : ∀ k, lo ≤ k → k < i → compar (elem size mem k) (elem size mem hi) < 0
  right : ∀ k, i ≤ k → k < j → ¬ compar (elem size mem k) (elem size mem hi) < 0

/-- **The loop of the partition.** -/
theorem partitionLoop_spec (hn : hi < nmemb) {n i j : Nat} (hj : j + n = hi) (h : Sifted size compar lo hi i j mem) :
    ∃ p mem', partitionLoop nmemb size compar hi n j i mem = some (p, mem') ∧ Kept nmemb size lo hi mem mem' ∧
      Sifted size compar lo hi p hi mem' := by
  induction n generalizing i j mem with
  | zero =>
    obtain rfl : j = hi := by omega
    exact ⟨i, mem, rfl, .refl _ _ _ _ _, h⟩
  | succ n ih =>
    obtain ⟨hlo, hij, hjhi⟩ := h.bounds
    unfold partitionLoop compareAt
    rw [if_pos ⟨by omega, by omega⟩, bind_some]
    split
    · rename_i hless
      -- the element at `j` goes to `i`, and the one from `i` to `j`
      obtain ⟨mem1, hswap, hkept, helems⟩ := swapAt_spec size lo (i := i) (j := j) hn
        ⟨hlo, by omega⟩ ⟨by omega, by omega⟩ mem
      have hsame : ∀ k, k ≠ i → k ≠ j → elem size mem1 k = elem size mem k := by
        intro k hki hkj
        rw [helems, comp_apply, Equiv.swap_apply_of_ne_of_ne hki hkj]
      have hsifted : Sifted size compar lo hi (i + 1) (j + 1) mem1 := by
        refine ⟨⟨by omega, by omega, by omega⟩, fun k hk1 hk2 => ?_, fun k hk1 hk2 => ?_⟩
        · rw [hsame hi (by omega) (by omega)]
          by_cases hki : k = i
          · subst hki
            rwa [helems, comp_apply, Equiv.swap_apply_left]
          · rw [hsame k hki (by omega)]
            exact h.left k hk1 (by omega)
        rw [hsame hi (by omega) (by omega)]
        by_cases hkj : k = j
        · subst hkj
          rw [helems, comp_apply, Equiv.swap_apply_right]
          exact h.right i (le_refl i) (by omega)
        · rw [hsame k (by omega) hkj]
          exact h.right k (by omega) (by omega)
      obtain ⟨p, mem', hloop, hkept', hsifted'⟩ := ih (by omega) hsifted
      exact ⟨p, mem', by rw [hswap, bind_some, hloop], hkept.trans hkept', hsifted'⟩
    rename_i hless
    refine ih (by omega) ⟨⟨hlo, by omega, by omega⟩, h.left, fun k hk1 hk2 => ?_⟩
    by_cases hkj : k = j
    · subst hkj
      exact hless
    · exact h.right k hk1 (by omega)

/-- The order of the elements. -/
def leOf (compar : List UInt8 → List UInt8 → Int) (a b : List UInt8) : Prop := compar a b ≤ 0

/-- **A round puts the pivot in its place.** -/
theorem partitionRange_spec (hcompar : TotalPreorder size compar) (hlo : lo < hi) (hn : hi < nmemb) (mem : Bytes) :
    ∃ p mem', partitionRange nmemb size compar lo hi mem = some (p, mem') ∧ Kept nmemb size lo hi mem mem' ∧
      SplitAt (leOf compar) lo hi p (elem size mem') := by
  have hlen : ∀ mem k, (elem size mem k).length = size := fun mem k => length_getBytes _ _ _
  have hmid : lo ≤ lo + (hi - lo) / 2 ∧ lo + (hi - lo) / 2 ≤ hi := by omega
  obtain ⟨mem1, h1, hkept1⟩ := orderPair_spec size lo compar hn hmid
    ⟨le_refl lo, le_of_lt hlo⟩ mem
  obtain ⟨mem2, h2, hkept2⟩ := orderPair_spec size lo compar hn
    ⟨le_of_lt hlo, le_refl hi⟩ ⟨le_refl lo, le_of_lt hlo⟩ mem1
  obtain ⟨mem3, h3, hkept3⟩ := orderPair_spec size lo compar hn hmid
    ⟨le_of_lt hlo, le_refl hi⟩ mem2
  have hstart : Sifted size compar lo hi lo lo mem3 :=
    ⟨⟨le_refl lo, le_refl lo, le_of_lt hlo⟩, fun k hk1 hk2 => by omega, fun k hk1 hk2 => by omega⟩
  obtain ⟨p, mem4, hloop, hkept4, hsifted⟩ := partitionLoop_spec (n := hi - lo) hn (by omega) hstart
  obtain ⟨hp1, hp2, -⟩ := hsifted.bounds
  obtain ⟨mem5, h5, hkept5, helems⟩ := swapAt_spec size lo (i := p) (j := hi) hn ⟨hp1, hp2⟩
    ⟨le_of_lt hlo, le_refl hi⟩ mem4
  refine ⟨p, mem5, ?_, (((hkept1.trans hkept2).trans hkept3).trans hkept4).trans hkept5, ⟨hp1, hp2⟩, ?_, ?_⟩
  · simp only [partitionRange, h1, h2, h3, hloop, h5, bind_some, map_some]
  · intro k hk1 hk2
    have hless := hsifted.left k hk1 hk2
    rw [helems, comp_apply, comp_apply, Equiv.swap_apply_left,
      Equiv.swap_apply_of_ne_of_ne (by omega) (by omega)]
    exact Int.le_of_lt hless
  intro k hk1 hk2
  have hnot : ∀ k, p ≤ k → k < hi → leOf compar (elem size mem4 hi) (elem size mem4 k) := by
    intro k hk1 hk2
    have hless := hsifted.right k hk1 hk2
    rw [hcompar.flip _ _ (hlen _ _) (hlen _ _)] at hless
    exact Int.not_lt.1 hless
  rw [helems, comp_apply, comp_apply, Equiv.swap_apply_left]
  by_cases hkhi : k = hi
  · subst hkhi
    rw [Equiv.swap_apply_right]
    exact hnot p (le_refl p) hk1
  · rw [Equiv.swap_apply_of_ne_of_ne (by omega) hkhi]
    exact hnot k (by omega) (by omega)

end

/-! ## The loops -/

section

variable {nmemb size : Nat} {compar : List UInt8 → List UInt8 → Int} {mem0 mem : Bytes}

/-- How many elements a range has. -/
def rangeSize (r : Nat × Nat) : Nat := r.2 + 1 - r.1

/-- The ranges on the stack have two elements or more, and each has at most half of what the one below it could
have. -/
def Halving (n : Nat) : List (Nat × Nat) → Prop
  | [] => True
  | r :: rest => 2 ≤ rangeSize r ∧ rangeSize r * 2 ^ rest.length ≤ n ∧ Halving n rest

/-- What is true between two rounds, with the ranges `todo`. -/
structure Working (nmemb size : Nat) (compar : List UInt8 → List UInt8 → Int) (mem0 : Bytes) (todo : List (Nat × Nat))
    (mem : Bytes) : Prop where
  pending : Pending (leOf compar) nmemb todo (elem size mem)
  kept : Kept nmemb size 0 (nmemb - 1) mem0 mem

theorem pushRange_spec {lo hi : Nat} {stack : List (Nat × Nat)} (hn : nmemb < 2 ^ 64) (htwo : 2 ≤ rangeSize (lo, hi))
    (hsize : rangeSize (lo, hi) * 2 ^ stack.length ≤ nmemb) : pushRange lo hi stack = some ((lo, hi) :: stack) := by
  refine if_pos ?_
  have hpow : 2 ^ (stack.length + 1) < 2 ^ 64 := by
    rw [pow_succ, mul_comm]
    exact lt_of_le_of_lt ((Nat.mul_le_mul_right _ htwo).trans hsize) hn
  have hlen := (Nat.pow_lt_pow_iff_right (by decide : 1 < 2)).1 hpow
  omega

/-- One pass of the outer loop: a range is parted in two. -/
theorem Working.round (hcompar : TotalPreorder size compar) {lo hi : Nat} {stack : List (Nat × Nat)}
    (h : Working nmemb size compar mem0 ((lo, hi) :: stack) mem) (hlo : lo < hi) :
    ∃ p mem', partitionRange nmemb size compar lo hi mem = some (p, mem') ∧ lo ≤ p ∧ p ≤ hi ∧
      Working nmemb size compar mem0 ((lo, p - 1) :: (p + 1, hi) :: stack) mem' := by
  have hn : hi < nmemb := h.pending.inside (lo, hi) List.mem_cons_self
  obtain ⟨p, mem', hrun, hkept, hsplit⟩ := partitionRange_spec hcompar hlo hn mem
  have hlen : ∀ k, (elem size mem' k).length = size := fun k => length_getBytes _ _ _
  refine ⟨p, mem', hrun, hsplit.mem.1, hsplit.mem.2, ?_, ?_⟩
  · exact h.pending.split hkept.elems hsplit fun i j k =>
      hcompar.trans _ _ _ (hlen i) (hlen j) (hlen k)
  · exact h.kept.trans ⟨hkept.elems.mono (Nat.zero_le lo) (by omega), hkept.behind⟩

theorem Working.swap {r s : Nat × Nat} {stack : List (Nat × Nat)}
    (h : Working nmemb size compar mem0 (r :: s :: stack) mem) : Working nmemb size compar mem0 (s :: r :: stack) mem :=
  ⟨h.pending.perm (List.Perm.swap s r stack), h.kept⟩

theorem Working.drop {r : Nat × Nat} {stack : List (Nat × Nat)} (h : Working nmemb size compar mem0 (r :: stack) mem)
    (hr : rangeSize r ≤ 1) : Working nmemb size compar mem0 stack mem := by
  unfold rangeSize at hr
  exact ⟨h.pending.drop (by omega), h.kept⟩

/-- The larger side is pushed when it has two elements or more. -/
theorem Working.keep {r s : Nat × Nat} {stack : List (Nat × Nat)} (hn : nmemb < 2 ^ 64) (hstack : Halving nmemb stack)
    (h : Working nmemb size compar mem0 (r :: s :: stack) mem) (hsize : rangeSize s * 2 ^ stack.length ≤ nmemb)
    {c : Prop} [Decidable c] (hc : c ↔ 2 ≤ rangeSize s) :
    ∃ stack', (if c then pushRange s.1 s.2 stack else some stack) = some stack' ∧
      Halving nmemb stack' ∧ Working nmemb size compar mem0 (r :: stack') mem ∧
      (stack'.map rangeSize).sum ≤ (stack.map rangeSize).sum + rangeSize s ∧
      (stack' = stack ∨ stack'.length = stack.length + 1) := by
  by_cases htwo : 2 ≤ rangeSize s
  · refine ⟨s :: stack, ?_, ⟨htwo, hsize, hstack⟩, h, ?_, Or.inr rfl⟩
    · rw [if_pos (hc.2 htwo)]
      exact pushRange_spec hn htwo hsize
    · rw [List.map_cons, List.sum_cons, add_comm]
  · refine ⟨stack, if_neg (mt hc.1 htwo), hstack, ?_, Nat.le_add_right _ _, Or.inl rfl⟩
    exact h.swap.drop (by omega)

/-- The smaller side fits on a stack with one more range. -/
theorem half_fits {m k n : Nat} {l l' : List (Nat × Nat)} (hk : k * 2 ^ l.length ≤ n) (hm : 2 * m ≤ k)
    (hl : l' = l ∨ l'.length = l.length + 1) : m * 2 ^ l'.length ≤ n := by
  have hdouble : 2 * m * 2 ^ l.length ≤ n := (Nat.mul_le_mul_right _ hm).trans hk
  rcases hl with rfl | hl
  · exact (Nat.mul_le_mul_right _ (by omega)).trans hdouble
  · calc m * 2 ^ l'.length = 2 * m * 2 ^ l.length := by rw [hl, pow_succ]; ac_rfl
      _ ≤ n := hdouble

/-- **The inner loop** works on a range until nothing of it is left but what it has pushed. -/
theorem qsortInner_spec (hcompar : TotalPreorder size compar) (hn : nmemb < 2 ^ 64) (fuel : Nat) {lo hi : Nat}
    {stack : List (Nat × Nat)} (hfuel : hi - lo < fuel) (hstack : Halving nmemb stack)
    (hsize : rangeSize (lo, hi) * 2 ^ stack.length ≤ nmemb)
    (h : Working nmemb size compar mem0 ((lo, hi) :: stack) mem) :
    ∃ stack' mem', qsortInner nmemb size compar fuel lo hi stack mem = some (stack', mem') ∧
      Halving nmemb stack' ∧ Working nmemb size compar mem0 stack' mem' ∧
      (stack'.map rangeSize).sum ≤ (stack.map rangeSize).sum + (hi - lo) := by
  induction fuel generalizing lo hi stack mem with
  | zero => omega
  | succ fuel ih =>
    rw [qsortInner]
    by_cases hlo : lo < hi
    · obtain ⟨p, mem1, hround, hp1, hp2, hwork⟩ := h.round hcompar hlo
      have hleft : rangeSize (lo, p - 1) ≤ rangeSize (lo, hi) := by
        unfold rangeSize
        omega
      have hright : rangeSize (p + 1, hi) ≤ rangeSize (lo, hi) := by
        unfold rangeSize
        omega
      have hleftSize : (if lo < p then p - lo else 0) = p - lo := by split <;> omega
      have hrightSize : (if p < hi then hi - p else 0) = hi - p := by split <;> omega
      rw [if_pos hlo, hround, bind_some]
      dsimp only
      rw [hleftSize, hrightSize]
      by_cases hlarger : hi - p < p - lo
      · -- the left side is larger, and is pushed
        have hhalf : 2 * rangeSize (p + 1, hi) ≤ rangeSize (lo, hi) := by
          unfold rangeSize
          omega
        rw [if_pos hlarger]
        obtain ⟨stack1, hpush, hstack1, hwork1, hsum1, hlen1⟩ := hwork.swap.keep hn hstack
          ((Nat.mul_le_mul_right _ hleft).trans hsize) (c := lo + 1 < p)
          (by unfold rangeSize; dsimp only; omega)
        obtain ⟨stack', mem', hrun, hstack', hwork', hsum⟩ := ih (by omega) hstack1 (half_fits hsize hhalf hlen1) hwork1
        refine ⟨stack', mem', ?_, hstack', hwork', ?_⟩
        · rw [hpush, bind_some, hrun]
        · unfold rangeSize at hsum1 hsum ⊢
          omega
      -- the right side is at least as large, and is pushed
      have hhalf : 2 * rangeSize (lo, p - 1) ≤ rangeSize (lo, hi) := by
        unfold rangeSize
        omega
      rw [if_neg hlarger]
      obtain ⟨stack1, hpush, hstack1, hwork1, hsum1, hlen1⟩ := hwork.keep hn hstack
        ((Nat.mul_le_mul_right _ hright).trans hsize) (c := p + 1 < hi)
        (by unfold rangeSize; dsimp only; omega)
      rw [hpush, bind_some]
      by_cases hzero : p = 0
      · rw [if_pos hzero]
        refine ⟨stack1, mem1, rfl, hstack1, hwork1.drop (by unfold rangeSize; dsimp only; omega), ?_⟩
        unfold rangeSize at hsum1 ⊢
        omega
      obtain ⟨stack', mem', hrun, hstack', hwork', hsum⟩ :=
        ih (by omega) hstack1 (half_fits hsize hhalf hlen1) hwork1
      rw [if_neg hzero]
      refine ⟨stack', mem', hrun, hstack', hwork', ?_⟩
      unfold rangeSize at hsum1 hsum ⊢
      omega
    · rw [if_neg hlo]
      exact ⟨stack, mem, rfl, hstack, h.drop (by unfold rangeSize; dsimp only; omega), Nat.le_add_right _ _⟩

/-- **The outer loop** works until no range is left. -/
theorem qsortOuter_spec (hcompar : TotalPreorder size compar) (hn : nmemb < 2 ^ 64) (fuel : Nat)
    {stack : List (Nat × Nat)} (hfuel : (stack.map rangeSize).sum < fuel) (hstack : Halving nmemb stack)
    (h : Working nmemb size compar mem0 stack mem) :
    ∃ mem', qsortOuter nmemb size compar fuel stack mem = some mem' ∧ Working nmemb size compar mem0 [] mem' := by
  induction fuel generalizing stack mem with
  | zero => omega
  | succ fuel ih =>
    cases stack with
    | nil => exact ⟨mem, rfl, h⟩
    | cons r stack =>
      obtain ⟨htwo, hsize, hrest⟩ := hstack
      have hin := h.pending.inside r List.mem_cons_self
      obtain ⟨stack', mem', hrun, hstack', hwork, hsum⟩ :=
        qsortInner_spec hcompar hn (nmemb + 1) (by omega) hrest hsize h
      rw [List.map_cons, List.sum_cons] at hfuel
      obtain ⟨mem'', houter, hdone⟩ := ih (by unfold rangeSize at htwo hfuel hsum ⊢; omega) hstack' hwork
      exact ⟨mem'', by rw [qsortOuter, hrun, bind_some, houter], hdone⟩

end

/-- The elements of the array. -/
def elements (nmemb size : Nat) (mem : Bytes) : List (List UInt8) := (List.range nmemb).map (elem size mem)

/-- **`qsort` sorts.** For every comparison that is a total preorder of the elements it returns without a step outside
the array or the stack, the elements are the same in another order, and they are sorted. -/
theorem qsort_sorts (nmemb : BitVec 64) (size : Nat) {compar : List UInt8 → List UInt8 → Int}
    (hcompar : TotalPreorder size compar) (mem : Bytes) :
    ∃ mem', qsort nmemb.toNat size compar mem = some mem' ∧
      (elements nmemb.toNat size mem').Perm (elements nmemb.toNat size mem) ∧
      (elements nmemb.toNat size mem').Pairwise (fun a b => compar a b ≤ 0) ∧
      ∀ x, nmemb.toNat * size ≤ x → mem' x = mem x := by
  have hn := nmemb.isLt
  generalize nmemb.toNat = n at hn ⊢
  unfold qsort
  by_cases hsmall : n < 2
  · rw [if_pos hsmall]
    refine ⟨mem, rfl, .refl _, ?_, fun _ _ => rfl⟩
    have hone : n = 0 ∨ n = 1 := by omega
    rcases hone with rfl | rfl
    · exact List.Pairwise.nil
    · exact List.pairwise_singleton _ _
  have hsize : rangeSize (0, n - 1) = n := by
    unfold rangeSize
    omega
  have hstack : Halving n [(0, n - 1)] := ⟨by omega, by simp [hsize], trivial⟩
  have hwork : Working n size compar mem [(0, n - 1)] mem :=
    ⟨pending_all _ (by omega) _, .refl _ _ _ _ _⟩
  have hpush : pushRange 0 (n - 1) [] = some [(0, n - 1)] := rfl
  obtain ⟨mem', hrun, hdone⟩ := qsortOuter_spec hcompar hn (n + 1) (by simp [hsize]) hstack hwork
  rw [if_neg hsmall, hpush, bind_some]
  exact ⟨mem', hrun, hdone.kept.elems.perm (by omega), hdone.pending.sorted, hdone.kept.behind⟩

/-- The difference of the first bytes. -/
def compareBytes (a b : List UInt8) : Int := (a.headD 0).toNat - (b.headD 0).toNat

/-- Three bytes, the largest first. -/
theorem qsort_sorts_bytes : ∃ mem', qsort 3 1 compareBytes (fun k => if k = 0 then 9 else 4) = some mem' ∧
    (elements 3 1 mem').Perm [[9], [4], [4]] ∧
    (elements 3 1 mem').Pairwise (fun a b => compareBytes a b ≤ 0) := by
  have hcompar : TotalPreorder 1 compareBytes := by
    unfold compareBytes
    constructor <;> intros <;> omega
  obtain ⟨mem', hrun, hperm, hsorted, -⟩ := qsort_sorts 3 1 hcompar (fun k => if k = 0 then 9 else 4)
  exact ⟨mem', hrun, hperm, hsorted⟩

end Slopix.Libc
