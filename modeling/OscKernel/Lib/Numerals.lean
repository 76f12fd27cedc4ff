import Mathlib.Data.Nat.Digits.Lemmas

/-! # Numerals

A number is written by its digits to a base, the most significant one first: without leading zeros,
or in a fixed number of places. Reading the digits gives the number back.
-/

namespace OscKernel.Lib

/-- The digits of a number; zero has one. -/
def numeral (base n : ℕ) : List ℕ := if n = 0 then [0] else (Nat.digits base n).reverse

/-- The digits of a number in so many places. -/
def places (base : ℕ) : ℕ → ℕ → List ℕ
  | 0, _ => []
  | width + 1, n => places base width (n / base) ++ [n % base]

/-- The number that digits stand for. -/
def readDigits (base : ℕ) (digits : List ℕ) : ℕ :=
  digits.foldl (fun value digit => base * value + digit) 0

variable {base n : ℕ}

theorem readDigits_concat (base : ℕ) (digits : List ℕ) (digit : ℕ) :
    readDigits base (digits ++ [digit]) = base * readDigits base digits + digit := by
  rw [readDigits, List.foldl_append]
  rfl

private theorem readDigits_reverse (base : ℕ) (digits : List ℕ) :
    readDigits base digits.reverse = Nat.ofDigits base digits := by
  induction digits with
  | nil => rfl
  | cons digit rest ih =>
    rw [List.reverse_cons, readDigits_concat, ih, Nat.ofDigits_cons, Nat.add_comm]

/-- A number is read back. -/
theorem readDigits_numeral (base n : ℕ) : readDigits base (numeral base n) = n := by
  rw [numeral]
  split
  · rename_i zero
    rw [zero]
    exact Nat.mul_zero base
  · rw [readDigits_reverse, Nat.ofDigits_digits]

theorem numeral_lt (valid : 1 < base) {digit : ℕ} (member : digit ∈ numeral base n) :
    digit < base := by
  rw [numeral] at member
  split at member
  · obtain rfl := List.mem_singleton.mp member
    omega
  · exact Nat.digits_lt_base valid (List.mem_reverse.mp member)

theorem places_lt (positive : 0 < base) {width digit : ℕ} (member : digit ∈ places base width n) :
    digit < base := by
  induction width generalizing n with
  | zero => exact absurd member List.not_mem_nil
  | succ width ih =>
    rcases List.mem_append.mp member with high | low
    · exact ih high
    · rw [List.mem_singleton.mp low]
      exact Nat.mod_lt n positive

/-- Each place by the power that it stands for. -/
theorem places_eq_map (base width n : ℕ) :
    places base width n = (List.range width).map fun i => n / base ^ (width - 1 - i) % base := by
  induction width generalizing n with
  | zero => rfl
  | succ width ih =>
    rw [places, ih, List.range_succ, List.map_append, List.map_singleton, Nat.add_sub_cancel,
      Nat.sub_self, Nat.pow_zero, Nat.div_one]
    congr 1
    apply List.map_congr_left
    intro i member
    have before := List.mem_range.mp member
    have exponent : width - i = width - 1 - i + 1 := by omega
    rw [exponent, Nat.pow_succ', Nat.div_div_eq_div_mul]

/-- A number is read back from its places, if they are enough. -/
theorem readDigits_places {width : ℕ} (fits : n < base ^ width) :
    readDigits base (places base width n) = n := by
  induction width generalizing n with
  | zero =>
    rw [Nat.pow_zero, Nat.lt_one_iff] at fits
    rw [fits]
    rfl
  | succ width ih =>
    rw [places, readDigits_concat, ih (Nat.div_lt_of_lt_mul (by rwa [Nat.pow_succ'] at fits))]
    exact Nat.div_add_mod n base

end OscKernel.Lib
