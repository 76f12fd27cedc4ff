import Mathlib.Data.BitVec
import Mathlib.Data.Nat.Digits.Defs

/-! # Low bits and bytes of a machine word

Alignment code masks a word with `2 ^ k - 1` or with its complement. The first is the remainder
modulo `2 ^ k`, the second the multiple of `2 ^ k` below the word; the second also equals shifting
the low bits out and back in. Memory holds a word as its bytes, the least significant one first.
-/

namespace OscKernel.Lib

variable {w : ℕ}

theorem getLsbD_lowMask (k i : ℕ) (bound : i < w) :
    (BitVec.ofNat w (2 ^ k - 1)).getLsbD i = decide (i < k) := by
  rw [BitVec.getLsbD_ofNat, Nat.testBit_two_pow_sub_one, decide_eq_true bound, Bool.true_and]

theorem toNat_and_lowMask (x : BitVec w) {k : ℕ} (fits : k ≤ w) :
    (x &&& BitVec.ofNat w (2 ^ k - 1)).toNat = x.toNat % 2 ^ k := by
  have small : 2 ^ k - 1 < 2 ^ w := by
    have := Nat.pow_le_pow_right (n := 2) (by decide) fits
    have := Nat.two_pow_pos k
    omega
  rw [BitVec.toNat_and, BitVec.toNat_ofNat, Nat.mod_eq_of_lt small, Nat.and_two_pow_sub_one_eq_mod]

/-- Clearing the low bits is shifting them out. -/
private theorem and_not_lowMask (x : BitVec w) (k : ℕ) :
    x &&& ~~~BitVec.ofNat w (2 ^ k - 1) = (x >>> k) <<< k := by
  apply BitVec.eq_of_getLsbD_eq
  intro i bound
  rw [BitVec.getLsbD_and, BitVec.getLsbD_not, getLsbD_lowMask k i bound, BitVec.getLsbD_shiftLeft,
    BitVec.getLsbD_ushiftRight]
  by_cases low : i < k
  · simp [low]
  · simp [low, bound, show k + (i - k) = i by omega]

theorem toNat_and_not_lowMask (x : BitVec w) (k : ℕ) :
    (x &&& ~~~BitVec.ofNat w (2 ^ k - 1)).toNat = x.toNat / 2 ^ k * 2 ^ k := by
  rw [and_not_lowMask, BitVec.toNat_shiftLeft, BitVec.toNat_ushiftRight, Nat.shiftRight_eq_div_pow,
    Nat.shiftLeft_eq]
  exact Nat.mod_eq_of_lt (lt_of_le_of_lt (Nat.div_mul_le_self _ _) x.isLt)

/-! ## Bytes -/

/-- A byte of a word, counted from the least significant one. -/
def byte (x : BitVec w) (i : ℕ) : BitVec 8 := x.extractLsb' (8 * i) 8

/-- The word with the given bytes. -/
def ofBytes (w : ℕ) (bytes : ℕ → BitVec 8) (length : ℕ) : BitVec w :=
  BitVec.ofNat w (Nat.ofDigits 256 ((List.range length).map fun i => (bytes i).toNat))

private theorem toNat_byte (x : BitVec w) (i : ℕ) : (byte x i).toNat = x.toNat / 256 ^ i % 256 := by
  rw [byte, BitVec.extractLsb'_toNat, Nat.shiftRight_eq_div_pow, Nat.pow_mul]

private theorem ofDigits_digits_range (b x length : ℕ) :
    Nat.ofDigits b ((List.range length).map fun i => x / b ^ i % b) = x % b ^ length := by
  induction length with
  | zero => simp [Nat.mod_one]
  | succ n ih =>
    simp only [List.range_succ, List.map_append, List.map_cons, List.map_nil, Nat.ofDigits_append,
      ih, List.length_map, List.length_range, Nat.ofDigits_singleton]
    exact (Nat.mod_pow_succ).symm

/-- A word is what its bytes make up. -/
theorem ofBytes_byte (x : BitVec w) {length : ℕ} (whole : w = 8 * length) :
    ofBytes w (byte x) length = x := by
  apply BitVec.eq_of_toNat_eq
  simp only [ofBytes, toNat_byte, ofDigits_digits_range, BitVec.toNat_ofNat]
  have bound : x.toNat < 256 ^ length := by
    have same : 2 ^ w = 256 ^ length := by rw [whole, Nat.pow_mul]
    exact same ▸ x.isLt
  rw [Nat.mod_eq_of_lt bound, Nat.mod_eq_of_lt x.isLt]

end OscKernel.Lib
