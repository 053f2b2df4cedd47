import Mathlib.Tactic.Ring
import Slopix.Libc.Format

/-!
# Decimal numbers

`strtoul` in base 10 reads back what `%lu` prints. A number that does not fit a field of `k` characters
is cut to a smaller one.
-/

namespace Slopix.Libc

open List

/-- `isspace`. -/
def isSpace (c : UInt8) : Bool := c == 32 || (9 ≤ c && c ≤ 13)

/-- `isdigit`. -/
def isDigit (c : UInt8) : Bool := 48 ≤ c && c ≤ 57

/-- The number that a list of digits denotes. -/
def digitsValue (s : List UInt8) : Nat := s.foldl (fun n c => 10 * n + (c.toNat - 48)) 0

/-- `strtoul` in base 10. -/
def strtoul10 (s : List UInt8) : Nat :=
  match s.dropWhile isSpace with
  | [] => 0
  | c :: rest =>
    if c = 45 then (2 ^ 64 - digitsValue (rest.takeWhile isDigit) % 2 ^ 64) % 2 ^ 64
    else if c = 43 then digitsValue (rest.takeWhile isDigit) % 2 ^ 64
    else digitsValue ((c :: rest).takeWhile isDigit) % 2 ^ 64

section

variable {s t acc : List UInt8} {fuel k v : Nat} {c : UInt8}

theorem foldl_digits (s : List UInt8) (n : Nat) :
    s.foldl (fun n c => 10 * n + (c.toNat - 48)) n = n * 10 ^ s.length + digitsValue s := by
  unfold digitsValue
  induction s generalizing n with
  | nil => simp
  | cons c s ih =>
    rw [foldl_cons, foldl_cons, ih, ih (10 * 0 + _), length_cons]
    ring

theorem digitsValue_append (s t : List UInt8) :
    digitsValue (s ++ t) = digitsValue s * 10 ^ t.length + digitsValue t := by
  rw [digitsValue, foldl_append, foldl_digits]
  rfl

theorem digitsValue_cons (c : UInt8) (s : List UInt8) :
    digitsValue (c :: s) = (c.toNat - 48) * 10 ^ s.length + digitsValue s := by
  rw [digitsValue, foldl_cons, foldl_digits]
  simp

theorem digitsValue_lt (hs : ∀ c ∈ s, isDigit c = true) : digitsValue s < 10 ^ s.length := by
  induction s with
  | nil => decide
  | cons c s ih =>
    have hc := hs c mem_cons_self
    simp only [isDigit, Bool.and_eq_true, decide_eq_true_eq, UInt8.le_iff_toNat_le] at hc
    have hlt : c.toNat ≤ 57 := hc.2
    have ih := ih fun c hc => hs c (mem_cons_of_mem _ hc)
    rw [digitsValue_cons, length_cons, pow_succ]
    have hmul : (c.toNat - 48) * 10 ^ s.length ≤ 9 * 10 ^ s.length := Nat.mul_le_mul_right _ (by omega)
    omega

theorem digit_char (v : Nat) : isDigit (UInt8.ofNat (0x30 + v % 10)) = true ∧
    (UInt8.ofNat (0x30 + v % 10)).toNat - 48 = v % 10 := by
  have hall : ∀ d < 10, isDigit (UInt8.ofNat (0x30 + d)) = true ∧
      (UInt8.ofNat (0x30 + d)).toNat - 48 = d := by decide
  exact hall _ (Nat.mod_lt _ (by decide))

theorem formatDigits_ten (fuel v : Nat) (acc : List UInt8) :
    formatDigits 10 false (fuel + 1) v acc =
      if v / 10 = 0 then UInt8.ofNat (0x30 + v % 10) :: acc
      else formatDigits 10 false fuel (v / 10) (UInt8.ofNat (0x30 + v % 10) :: acc) := by
  rw [formatDigits]
  simp only [show v % 10 < 10 from Nat.mod_lt _ (by decide), if_true]

theorem formatDigits_spec (hv : v < 10 ^ fuel) (hacc : ∀ c ∈ acc, isDigit c = true) :
    (∀ c ∈ formatDigits 10 false fuel v acc, isDigit c = true) ∧
      digitsValue (formatDigits 10 false fuel v acc) = v * 10 ^ acc.length + digitsValue acc := by
  induction fuel generalizing v acc with
  | zero =>
    obtain rfl : v = 0 := by simpa using hv
    exact ⟨hacc, by simp [formatDigits]⟩
  | succ fuel ih =>
    obtain ⟨hdigit, hvalue⟩ := digit_char v
    have hacc' : ∀ c ∈ UInt8.ofNat (0x30 + v % 10) :: acc, isDigit c = true := by
      intro c hc
      rcases mem_cons.1 hc with rfl | hc
      · exact hdigit
      · exact hacc c hc
    have hsplit : v = 10 * (v / 10) + v % 10 := (Nat.div_add_mod v 10).symm
    rw [formatDigits_ten]
    split
    · rename_i hzero
      refine ⟨hacc', ?_⟩
      rw [digitsValue_cons, hvalue]
      congr 2
      omega
    obtain ⟨hall, hval⟩ := ih (v := v / 10) (by rw [pow_succ] at hv; omega) hacc'
    refine ⟨hall, ?_⟩
    rw [hval, digitsValue_cons, hvalue, length_cons, pow_succ]
    nth_rewrite 3 [hsplit]
    ring

theorem formatDigits_length {base : Nat} {upper : Bool} (hk : 0 < k) (hv : v < base ^ k) :
    (formatDigits base upper fuel v acc).length ≤ k + acc.length := by
  induction fuel generalizing v acc k with
  | zero => exact Nat.le_add_left _ _
  | succ fuel ih =>
    rw [formatDigits]
    split
    · rw [length_cons]
      omega
    rename_i hne
    obtain ⟨k, rfl⟩ := Nat.exists_eq_add_of_lt hk
    rw [zero_add, pow_succ] at hv
    have hk' : 0 < k := by
      rcases Nat.eq_zero_or_pos k with rfl | hpos
      · exact absurd (Nat.div_eq_of_lt (by simpa using hv)) hne
      · exact hpos
    refine (ih hk' (Nat.div_lt_of_lt_mul (by rwa [mul_comm]))).trans ?_
    rw [length_cons]
    omega

theorem formatUint_spec (hv : v < 2 ^ 64) :
    (∀ c ∈ formatUint v, isDigit c = true) ∧ digitsValue (formatUint v) = v := by
  have hspec := @formatDigits_spec [] 64 v (by omega) (by simp)
  simpa [digitsValue, formatUint] using hspec

theorem formatUint_length (hk : 0 < k) (hv : v < 10 ^ k) : (formatUint v).length ≤ k :=
  formatDigits_length hk hv

/-- Digits with something behind them that is no digit are read back. -/
theorem strtoul10_digits (hs : ∀ c ∈ s, isDigit c = true) (hne : s ≠ [])
    (ht : ∀ c ∈ t.head?, isDigit c = false) : strtoul10 (s ++ t) = digitsValue s % 2 ^ 64 := by
  have htake : (s ++ t).takeWhile isDigit = s := by
    rw [takeWhile_append_of_pos hs]
    cases t with
    | nil => simp
    | cons c t => rw [takeWhile_cons_of_neg (by simp [ht c rfl]), append_nil]
  cases s with
  | nil => exact absurd rfl hne
  | cons c s =>
    have hc := hs c mem_cons_self
    simp only [isDigit, Bool.and_eq_true, decide_eq_true_eq, UInt8.le_iff_toNat_le] at hc
    have h48 : 48 ≤ c.toNat := hc.1
    have hspace : isSpace c = false := by
      simp only [isSpace, Bool.or_eq_false_iff, Bool.and_eq_false_iff, decide_eq_false_iff_not,
        UInt8.le_iff_toNat_le, beq_eq_false_iff_ne]
      refine ⟨?_, .inr ?_⟩
      · rintro rfl
        exact absurd h48 (by decide)
      · show ¬ c.toNat ≤ 13
        omega
    have h45 : c ≠ 45 := by
      rintro rfl
      exact absurd h48 (by decide)
    have h43 : c ≠ 43 := by
      rintro rfl
      exact absurd h48 (by decide)
    unfold strtoul10
    rw [cons_append] at htake ⊢
    rw [dropWhile_cons_of_neg (by simp [hspace])]
    dsimp only
    rw [if_neg h45, if_neg h43, htake]

theorem formatUint_ne_nil (v : Nat) : formatUint v ≠ [] := by
  unfold formatUint
  rw [formatDigits_ten]
  split
  · exact cons_ne_nil _ _
  intro hnil
  have hlen : ∀ fuel v acc, acc ≠ [] → formatDigits 10 false fuel v acc ≠ [] := by
    intro fuel
    induction fuel with
    | zero => exact fun _ _ h => h
    | succ fuel ih =>
      intro v acc _
      rw [formatDigits_ten]
      split
      · exact cons_ne_nil _ _
      · exact ih _ _ (cons_ne_nil _ _)
  exact hlen _ _ _ (cons_ne_nil _ _) hnil

/-- A number in a field of `k` characters is cut to its first `k` digits. -/
theorem strtoul10_field (hv : v < 2 ^ 64) (hk : 0 < k) (ht : ∀ c ∈ t.head?, isDigit c = false) :
    strtoul10 ((formatUint v).take k ++ t) = v / 10 ^ ((formatUint v).length - k) := by
  obtain ⟨hall, hvalue⟩ := formatUint_spec hv
  have hne : (formatUint v).take k ≠ [] := by
    intro hnil
    rcases take_eq_nil_iff.1 hnil with h0 | hnil
    · omega
    · exact formatUint_ne_nil v hnil
  have hsplit := digitsValue_append ((formatUint v).take k) ((formatUint v).drop k)
  have hdrop := digitsValue_lt (s := (formatUint v).drop k) fun c hc => hall c (mem_of_mem_drop hc)
  rw [take_append_drop, hvalue] at hsplit
  rw [length_drop] at hsplit hdrop
  have hdiv : v / 10 ^ ((formatUint v).length - k) = digitsValue ((formatUint v).take k) :=
    Nat.div_eq_of_lt_le (by omega) (by rw [add_mul, one_mul]; omega)
  rw [strtoul10_digits (fun c hc => hall c (mem_of_mem_take hc)) hne ht, ← hdiv]
  exact Nat.mod_eq_of_lt (lt_of_le_of_lt (Nat.div_le_self _ _) hv)

theorem strtoul10_fits (hv : v < 2 ^ 64) (hk : 0 < k) (hfit : v < 10 ^ k)
    (ht : ∀ c ∈ t.head?, isDigit c = false) : strtoul10 ((formatUint v).take k ++ t) = v := by
  have hlen := formatUint_length hk hfit
  rw [strtoul10_field hv hk ht, Nat.sub_eq_zero_of_le hlen, pow_zero, Nat.div_one]

end

end Slopix.Libc
