import Mathlib.Data.Nat.ModEq

/-!
# Ring buffers with free-running counters

A ring buffer over an arbitrary element type whose read and write counters run freely modulo `M`
and address the cells modulo the capacity `N`. When `N` divides `M`, a cell index survives the
wrap-around of its counter, so the buffer is a FIFO queue of at most `N` elements: `contents_push`
and `contents_pop` are the two equations, `count_push` and `count_pop` their lengths.
-/

namespace Slopix.Lib

open List Nat

universe u

/-- Cells and the two free-running counters. -/
structure RingBuf (α : Type u) where
  cells : Nat → α
  rd : Nat
  wr : Nat

namespace RingBuf

variable {α : Type u} (N M : Nat)

/-- Number of buffered elements, computed modulo `M`. -/
def count (r : RingBuf α) : Nat := (r.wr + M - r.rd) % M

/-- The buffered elements, oldest first. -/
def contents (r : RingBuf α) : List α :=
  (List.range (r.count M)).map fun k => r.cells ((r.rd + k) % N)

/-- Store an element at the write counter and advance it. -/
def push (r : RingBuf α) (a : α) : RingBuf α :=
  { r with cells := Function.update r.cells (r.wr % N) a, wr := (r.wr + 1) % M }

/-- Advance the read counter. -/
def pop (r : RingBuf α) : RingBuf α := { r with rd := (r.rd + 1) % M }

/-- The element the next `pop` gives up. -/
def front (r : RingBuf α) : α := r.cells (r.rd % N)

/-- Counters below the modulus and at most `N` elements buffered. -/
structure WellFormed (r : RingBuf α) : Prop where
  rd_lt : r.rd < M
  wr_lt : r.wr < M
  count_le : r.count M ≤ N

variable {N M}

theorem count_eq_zero_iff {r : RingBuf α} (h : r.WellFormed N M) :
    r.count M = 0 ↔ r.rd = r.wr := by
  have hr := h.rd_lt
  have hw := h.wr_lt
  unfold count
  by_cases hle : r.rd ≤ r.wr
  · have e : r.wr + M - r.rd = (r.wr - r.rd) + M := by omega
    rw [e, add_mod_right, mod_eq_of_lt (by omega)]
    omega
  · rw [mod_eq_of_lt (by omega)]
    omega

/-- The full test of a free-running ring: the write counter is `N` ahead of the read counter. -/
theorem count_eq_cap_iff {r : RingBuf α} (h : r.WellFormed N M) (hNM : N < M) :
    r.count M = N ↔ r.wr = (r.rd + N) % M := by
  have hr := h.rd_lt
  have hw := h.wr_lt
  unfold count
  by_cases hle : r.rd ≤ r.wr
  · have e : r.wr + M - r.rd = (r.wr - r.rd) + M := by omega
    rw [e, add_mod_right, mod_eq_of_lt (a := r.wr - r.rd) (by omega)]
    by_cases hlt : r.rd + N < M
    · rw [mod_eq_of_lt hlt]
      omega
    · rw [mod_eq_sub_mod (by omega), mod_eq_of_lt (by omega)]
      omega
  rw [mod_eq_of_lt (a := r.wr + M - r.rd) (by omega)]
  by_cases hlt : r.rd + N < M
  · rw [mod_eq_of_lt hlt]
    omega
  · rw [mod_eq_sub_mod (by omega), mod_eq_of_lt (by omega)]
    omega

theorem count_push {r : RingBuf α} (h : r.WellFormed N M) (hc : r.count M + 1 < M) (a : α) :
    (r.push N M a).count M = r.count M + 1 := by
  have hr := h.rd_lt
  have hw := h.wr_lt
  unfold count at hc ⊢
  show ((r.wr + 1) % M + M - r.rd) % M = (r.wr + M - r.rd) % M + 1
  by_cases hwrap : r.wr + 1 = M
  · rw [hwrap, mod_self]
    by_cases hle : r.rd ≤ r.wr
    · have e : r.wr + M - r.rd = (r.wr - r.rd) + M := by omega
      rw [e, add_mod_right, mod_eq_of_lt (a := r.wr - r.rd) (by omega)] at hc ⊢
      rw [mod_eq_of_lt (by omega)]
      omega
    · omega
  rw [mod_eq_of_lt (a := r.wr + 1) (by omega)]
  by_cases hle : r.rd ≤ r.wr
  · have e : r.wr + M - r.rd = (r.wr - r.rd) + M := by omega
    have e' : r.wr + 1 + M - r.rd = (r.wr + 1 - r.rd) + M := by omega
    rw [e, e', add_mod_right, add_mod_right, mod_eq_of_lt (a := r.wr - r.rd) (by omega),
      mod_eq_of_lt (by omega)]
    omega
  · rw [mod_eq_of_lt (a := r.wr + M - r.rd) (by omega)] at hc ⊢
    rw [mod_eq_of_lt (by omega)]
    omega

theorem count_pop {r : RingBuf α} (h : r.WellFormed N M) (hc : 0 < r.count M) :
    (r.pop M).count M = r.count M - 1 := by
  have hr := h.rd_lt
  have hw := h.wr_lt
  have hne : r.rd ≠ r.wr := fun e => by
    have := (count_eq_zero_iff h).2 e
    omega
  show (r.wr + M - (r.rd + 1) % M) % M = (r.wr + M - r.rd) % M - 1
  by_cases hle : r.rd ≤ r.wr
  · have e : r.wr + M - r.rd = (r.wr - r.rd) + M := by omega
    have e' : r.wr + M - (r.rd + 1) = (r.wr - (r.rd + 1)) + M := by omega
    rw [Nat.mod_eq_of_lt (a := r.rd + 1) (by omega), e, e', Nat.add_mod_right, Nat.add_mod_right,
      Nat.mod_eq_of_lt (a := r.wr - r.rd) (by omega), Nat.mod_eq_of_lt (by omega)]
    omega
  rw [Nat.mod_eq_of_lt (a := r.wr + M - r.rd) (by omega)]
  by_cases hwrap : r.rd + 1 = M
  · rw [hwrap, Nat.mod_self, Nat.sub_zero, Nat.add_mod_right, Nat.mod_eq_of_lt hw]
    omega
  · rw [Nat.mod_eq_of_lt (a := r.rd + 1) (by omega), Nat.mod_eq_of_lt (by omega)]
    omega

theorem wellFormed_push {r : RingBuf α} (h : r.WellFormed N M) (hM : r.count M + 1 < M) (hc : r.count M < N)
    (a : α) : (r.push N M a).WellFormed N M where
  rd_lt := h.rd_lt
  wr_lt := mod_lt _ (by have := h.rd_lt; omega)
  count_le := by rw [count_push h hM]; omega

theorem wellFormed_pop {r : RingBuf α} (h : r.WellFormed N M) (hc : 0 < r.count M) :
    (r.pop M).WellFormed N M where
  rd_lt := mod_lt _ (by have := h.rd_lt; omega)
  wr_lt := h.wr_lt
  count_le := by rw [count_pop h hc]; have := h.count_le; omega

/-- The write counter addresses the cell `count` places after the read counter. -/
theorem wr_mod_eq {r : RingBuf α} (h : r.WellFormed N M) (hdvd : N ∣ M) :
    r.wr % N = (r.rd + r.count M) % N := by
  have hr := h.rd_lt
  have hmod : (r.rd + r.count M) % M = r.wr % M := by
    unfold count
    rw [add_mod_mod]
    have e : r.rd + (r.wr + M - r.rd) = r.wr + M := by omega
    rw [e, add_mod_right]
  have hN := Nat.ModEq.of_dvd hdvd (show r.rd + r.count M ≡ r.wr [MOD M] from hmod)
  exact hN.symm

/-- Distinct offsets below the capacity address distinct cells. -/
theorem add_mod_ne {a j k : Nat} (hj : j < N) (hk : k < N) (hjk : j ≠ k) :
    (a + j) % N ≠ (a + k) % N := by
  intro e
  have h : j ≡ k [MOD N] := Nat.ModEq.add_left_cancel' a e
  exact hjk (Nat.ModEq.eq_of_lt_of_lt h hj hk)

/-- **A push appends.** -/
theorem contents_push {r : RingBuf α} (h : r.WellFormed N M) (hM : r.count M + 1 < M) (hdvd : N ∣ M)
    (hc : r.count M < N) (a : α) :
    (r.push N M a).contents N M = r.contents N M ++ [a] := by
  unfold contents
  rw [count_push h hM, range_succ, map_append]
  congr 1
  · refine map_congr_left fun k hk => ?_
    have hk' := mem_range.1 hk
    show Function.update r.cells (r.wr % N) a ((r.rd + k) % N) = _
    rw [wr_mod_eq h hdvd]
    exact Function.update_of_ne (add_mod_ne (by omega) hc (by omega)) _ _
  · show [Function.update r.cells (r.wr % N) a ((r.rd + r.count M) % N)] = [a]
    rw [wr_mod_eq h hdvd, Function.update_self]

/-- **A pop removes the front.** -/
theorem contents_pop {r : RingBuf α} (h : r.WellFormed N M) (hdvd : N ∣ M) (hc : 0 < r.count M) :
    r.contents N M = r.front N :: (r.pop M).contents N M := by
  unfold contents
  obtain ⟨n, hn⟩ : ∃ n, r.count M = n + 1 := ⟨r.count M - 1, by omega⟩
  rw [count_pop h hc, hn, range_succ_eq_map, map_cons, map_map, Nat.add_sub_cancel]
  congr 1
  refine map_congr_left fun k _ => ?_
  show r.cells ((r.rd + (k + 1)) % N) = r.cells (((r.rd + 1) % M + k) % N)
  congr 1
  have hstep : (r.rd + 1) % M ≡ r.rd + 1 [MOD N] :=
    Nat.ModEq.of_dvd hdvd (Nat.mod_modEq (r.rd + 1) M)
  have hadd : (r.rd + 1) % M + k ≡ r.rd + 1 + k [MOD N] := hstep.add_right k
  have e : r.rd + (k + 1) = r.rd + 1 + k := by omega
  rw [e]
  exact hadd.symm

end RingBuf

end Slopix.Lib
