import Mathlib.Data.Nat.Bitwise
import Mathlib.Data.Set.Lattice
import Mathlib.Data.Set.Pairwise.Basic
import Mathlib.Order.CompletePartialOrder
import Mathlib.Order.Interval.Set.Basic
import Mathlib.Tactic.Ring

/-! # Dyadic blocks and their buddies

A block of order `k` is the interval of `2 ^ k` indices from a multiple of `2 ^ k`. Its buddy, found
by flipping bit `k` of its index, is the other half of the block of order `k + 1` around it. A
family of disjoint blocks in which no two buddies occur is determined by the indices it covers
(`Canonical.unique`).
-/

namespace OscKernel.Lib

/-- The other half of the enclosing block of the next order. -/
def buddy (index order : ℕ) : ℕ := index ^^^ 2 ^ order

theorem two_pow_succ (k : ℕ) : 2 ^ (k + 1) = 2 ^ k + 2 ^ k := by
  rw [pow_succ]
  omega

private theorem mul_xor_two_pow (m k : ℕ) : (m * 2 ^ k) ^^^ 2 ^ k = (m ^^^ 1) * 2 ^ k := by
  have shifted := Nat.shiftLeft_xor_distrib (a := m) (b := 1) (i := k)
  simp only [Nat.shiftLeft_eq, one_mul] at shifted
  exact shifted.symm

/-- A block is the lower or the upper half of the enclosing block, and its buddy the other half. -/
theorem buddy_cases {index order : ℕ} (aligned : 2 ^ order ∣ index) :
    (2 ^ (order + 1) ∣ index ∧ buddy index order = index + 2 ^ order) ∨
    (2 ^ (order + 1) ∣ buddy index order ∧ index = buddy index order + 2 ^ order) := by
  obtain ⟨m, rfl⟩ := aligned
  rw [buddy, mul_comm, mul_xor_two_pow]
  rcases Nat.even_or_odd m with even | odd
  · left
    obtain ⟨half, rfl⟩ := even
    refine ⟨⟨half, ?_⟩, ?_⟩
    · rw [two_pow_succ]
      ring
    · rw [Nat.xor_one_of_even ⟨half, rfl⟩]
      ring
  · right
    obtain ⟨half, rfl⟩ := odd
    rw [Nat.xor_one_of_odd ⟨half, rfl⟩, Nat.add_sub_cancel]
    refine ⟨⟨half, ?_⟩, ?_⟩
    · rw [pow_succ]
      ring
    · ring

/-- The two halves of a block are aligned for their order. -/
theorem dvd_halves {index order : ℕ} (aligned : 2 ^ (order + 1) ∣ index) :
    2 ^ order ∣ index ∧ 2 ^ order ∣ index + 2 ^ order := by
  have lower : 2 ^ order ∣ index := dvd_trans (pow_dvd_pow 2 (Nat.le_succ order)) aligned
  exact ⟨lower, Nat.dvd_add lower (dvd_refl _)⟩

theorem buddy_buddy (index order : ℕ) : buddy (buddy index order) order = index :=
  Nat.xor_xor_cancel_right index (2 ^ order)

theorem buddy_ne (index order : ℕ) : buddy index order ≠ index := by
  intro same
  have flipped := congrArg (index ^^^ ·) same
  simp only [buddy, Nat.xor_self, Nat.xor_xor_cancel_left] at flipped
  exact absurd flipped (Nat.two_pow_pos order).ne'

/-- The buddy of a lower half is the upper half. -/
theorem buddy_of_lower {index order : ℕ} (aligned : 2 ^ (order + 1) ∣ index) :
    buddy index order = index + 2 ^ order := by
  obtain ⟨-, upper⟩ | ⟨lowAligned, lower⟩ := buddy_cases (dvd_halves aligned).1
  · exact upper
  · rw [lower] at aligned
    have divides := (Nat.dvd_add_right lowAligned).mp aligned
    have small := Nat.le_of_dvd (Nat.two_pow_pos order) divides
    rw [two_pow_succ] at small
    have := Nat.two_pow_pos order
    omega

/-! ## Families of blocks -/

/-- The indices of a block, which is given with its order. -/
def span (block : ℕ × ℕ) : Set ℕ := Set.Ico block.1 (block.1 + 2 ^ block.2)

@[simp] theorem mem_span {i k j : ℕ} : j ∈ span (i, k) ↔ i ≤ j ∧ j < i + 2 ^ k := Iff.rfl

theorem start_mem_span (block : ℕ × ℕ) : block.1 ∈ span block :=
  ⟨le_refl _, Nat.lt_add_of_pos_right (Nat.two_pow_pos block.2)⟩

/-- A block is made of its two halves. -/
theorem span_succ (index order : ℕ) :
    span (index, order + 1) = span (index, order) ∪ span (index + 2 ^ order, order) := by
  ext j
  have doubled := two_pow_succ order
  simp only [Set.mem_union, mem_span]
  omega

/-- Blocks that meet are nested. -/
theorem span_subset {small large : ℕ × ℕ} (alignedSmall : 2 ^ small.2 ∣ small.1)
    (alignedLarge : 2 ^ large.2 ∣ large.1) (le : small.2 ≤ large.2) {j : ℕ}
    (inSmall : j ∈ span small) (inLarge : j ∈ span large) : span small ⊆ span large := by
  obtain ⟨i, k⟩ := small
  obtain ⟨i', l⟩ := large
  obtain ⟨m, rfl⟩ : 2 ^ k ∣ i := alignedSmall
  obtain ⟨d, rfl⟩ : ∃ d, l = k + d := ⟨l - k, (Nat.add_sub_cancel' le).symm⟩
  obtain ⟨n, rfl⟩ : 2 ^ (k + d) ∣ i' := alignedLarge
  simp only [mem_span] at inSmall inLarge
  -- both ends of the larger block are multiples of the smaller size
  have positive := Nat.two_pow_pos k
  have low : 2 ^ d * n ≤ m := by
    have := Nat.lt_of_mul_lt_mul_left (a := 2 ^ k) (b := 2 ^ d * n) (c := m + 1)
      (by rw [← mul_assoc, ← pow_add, mul_add]; omega)
    omega
  have high : m + 1 ≤ 2 ^ d * n + 2 ^ d := by
    have := Nat.lt_of_mul_lt_mul_left (a := 2 ^ k) (b := m) (c := 2 ^ d * n + 2 ^ d)
      (by rw [mul_add, ← mul_assoc, ← pow_add]; omega)
    omega
  have lowScaled := Nat.mul_le_mul_left (2 ^ k) low
  have highScaled := Nat.mul_le_mul_left (2 ^ k) high
  rw [← mul_assoc, ← pow_add] at lowScaled
  rw [mul_add, mul_add, ← mul_assoc, ← pow_add] at highScaled
  intro x inside
  simp only [mem_span] at inside ⊢
  omega

/-- Disjoint blocks of order at most `top`, no two of them buddies below that order. -/
structure Canonical (top : ℕ) (blocks : Set (ℕ × ℕ)) : Prop where
  bounded : ∀ b ∈ blocks, b.2 ≤ top
  aligned : ∀ b ∈ blocks, 2 ^ b.2 ∣ b.1
  disjoint : blocks.PairwiseDisjoint span
  merged : ∀ i k, k < top → (i, k) ∈ blocks → (buddy i k, k) ∉ blocks

namespace Canonical

variable {top : ℕ} {blocks other : Set (ℕ × ℕ)}

theorem eq_of_mem (canonical : Canonical top blocks) {b c : ℕ × ℕ} (first : b ∈ blocks)
    (second : c ∈ blocks) {j : ℕ} (inFirst : j ∈ span b) (inSecond : j ∈ span c) : b = c := by
  by_contra different
  exact Set.disjoint_left.mp (canonical.disjoint first second different) inFirst inSecond

/-- A block all of whose indices are covered lies inside one block of the family. -/
theorem inside (canonical : Canonical top blocks) {i k : ℕ} (small : k ≤ top) (aligned : 2 ^ k ∣ i)
    (covered : span (i, k) ⊆ ⋃ b ∈ blocks, span b) : ∃ b ∈ blocks, span (i, k) ⊆ span b := by
  induction k generalizing i with
  | zero =>
    obtain ⟨b, member, start⟩ := Set.mem_iUnion₂.mp (covered (start_mem_span (i, 0)))
    refine ⟨b, member, fun j inside => ?_⟩
    obtain rfl : j = i := by
      simp only [mem_span, pow_zero] at inside
      omega
    exact start
  | succ k ih =>
    obtain ⟨alignedLow, alignedHigh⟩ := dvd_halves aligned
    rw [span_succ] at covered
    obtain ⟨b, memberB, low⟩ :=
      ih (Nat.le_of_succ_le small) alignedLow (Set.subset_union_left.trans covered)
    obtain ⟨c, memberC, high⟩ :=
      ih (Nat.le_of_succ_le small) alignedHigh (Set.subset_union_right.trans covered)
    -- a block that contains a half is the half itself or contains both
    have cases : ∀ {h d}, d ∈ blocks → 2 ^ k ∣ h → span (h, k) ⊆ span d → h ∈ span (i, k + 1) →
        d = (h, k) ∨ span (i, k + 1) ⊆ span d := by
      intro h d member alignedHalf half start
      have starts := half (start_mem_span (h, k))
      rcases Nat.lt_or_ge k d.2 with larger | smaller
      · right
        exact span_subset aligned (canonical.aligned d member) larger start starts
      · left
        have back := span_subset (canonical.aligned d member)
          alignedHalf smaller starts (start_mem_span (h, k))
        have startD := back (start_mem_span d)
        have same : d.1 = h := le_antisymm starts.1 startD.1
        have power : d.1 + 2 ^ k ≤ d.1 + 2 ^ d.2 := by
          have last := half (show h + 2 ^ k - 1 ∈ span (h, k) by
            have := Nat.two_pow_pos k
            simp only [mem_span]
            omega)
          have := last.2
          omega
        have order :=
          (Nat.pow_le_pow_iff_right (by decide : 1 < 2)).mp (Nat.add_le_add_iff_left.mp power)
        exact Prod.ext same (le_antisymm smaller order)
    have upperStart : i + 2 ^ k ∈ span (i, k + 1) := by
      rw [span_succ]
      exact .inr (start_mem_span (i + 2 ^ k, k))
    rcases cases memberB alignedLow low (start_mem_span (i, k + 1)) with rfl | whole
    · rcases cases memberC alignedHigh high upperStart with rfl | whole
      · rw [← buddy_of_lower aligned] at memberC
        exact absurd memberC (canonical.merged i k small memberB)
      · exact ⟨c, memberC, whole⟩
    · exact ⟨b, memberB, whole⟩

private theorem subset (first : Canonical top blocks) (second : Canonical top other)
    (same : ⋃ b ∈ blocks, span b = ⋃ b ∈ other, span b) : blocks ⊆ other := by
  intro b member
  obtain ⟨c, memberC, inC⟩ := second.inside (first.bounded b member) (first.aligned b member)
    (same ▸ Set.subset_biUnion_of_mem (u := span) member)
  obtain ⟨d, memberD, inD⟩ := first.inside (second.bounded c memberC) (second.aligned c memberC)
    (same ▸ Set.subset_biUnion_of_mem (u := span) memberC)
  have inDStart := inD (inC (start_mem_span b))
  obtain rfl := first.eq_of_mem member memberD (start_mem_span b) inDStart
  -- the two spans are equal, and a span determines its block
  have starts : b.1 = c.1 := le_antisymm (inD (start_mem_span c)).1 (inC (start_mem_span b)).1
  have equal : span b = span c := Set.Subset.antisymm inC inD
  have lengths : b.1 + 2 ^ b.2 = c.1 + 2 ^ c.2 := by
    have positiveB := Nat.two_pow_pos b.2
    have positiveC := Nat.two_pow_pos c.2
    have lastB : b.1 + 2 ^ b.2 - 1 ∈ span c := equal ▸ ⟨by omega, by omega⟩
    have lastC : c.1 + 2 ^ c.2 - 1 ∈ span b := equal ▸ ⟨by omega, by omega⟩
    have := lastB.2
    have := lastC.2
    omega
  have orders : b.2 = c.2 := Nat.pow_right_injective (le_refl 2) (by simpa [starts] using lengths)
  rwa [Prod.ext starts orders]

/-- A canonical family is determined by the indices it covers. -/
theorem unique (first : Canonical top blocks) (second : Canonical top other)
    (same : ⋃ b ∈ blocks, span b = ⋃ b ∈ other, span b) : blocks = other :=
  Set.Subset.antisymm (first.subset second same) (second.subset first same.symm)

end Canonical

end OscKernel.Lib
