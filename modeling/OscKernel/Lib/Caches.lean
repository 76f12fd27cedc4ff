import Mathlib.Algebra.Order.Group.Nat
import Mathlib.Order.Lattice
import OscKernel.Lib.System

/-! # Caches that grow by whole units

A cache hands out items and takes them back. A unit holds `capacity` items; another one is added
when every item is handed out, and none is ever given back. So the units are as many as the largest
number of items that were out at one time needs, and no fewer (`units_eq`).
-/

namespace OscKernel.Lib

/-- A cache of items, with the largest number that was out at one time. -/
structure Cache (capacity : ℕ) where
  units : ℕ
  out : ℕ
  peak : ℕ
  out_le : out ≤ peak
  peak_le : peak ≤ capacity * units
  tight : capacity * units < peak + capacity

namespace Cache

variable {capacity : ℕ}

def empty (positive : 0 < capacity) : Cache capacity where
  units := 0
  out := 0
  peak := 0
  out_le := le_refl 0
  peak_le := Nat.zero_le _
  tight := by rwa [Nat.mul_zero, Nat.zero_add]

/-- An item of a unit in hand. -/
def acquire (c : Cache capacity) (left : c.out < capacity * c.units) : Cache capacity where
  units := c.units
  out := c.out + 1
  peak := max c.peak (c.out + 1)
  out_le := Nat.le_max_right _ _
  peak_le := Nat.max_le.mpr ⟨c.peak_le, left⟩
  tight := Nat.lt_of_lt_of_le c.tight (Nat.add_le_add_right (Nat.le_max_left _ _) capacity)

private theorem tight_grow (c : Cache capacity) (full : c.out = capacity * c.units) :
    capacity * (c.units + 1) < c.out + 1 + capacity := by
  rw [full, Nat.mul_succ]
  omega

private theorem out_succ_le (c : Cache capacity) (positive : 0 < capacity)
    (full : c.out = capacity * c.units) :
    c.out + 1 ≤ capacity * (c.units + 1) := by
  rw [full, Nat.mul_succ]
  omega

/-- The first item of another unit. -/
def grow (c : Cache capacity) (positive : 0 < capacity) (full : c.out = capacity * c.units) :
    Cache capacity where
  units := c.units + 1
  out := c.out + 1
  peak := c.out + 1
  out_le := le_refl _
  peak_le := c.out_succ_le positive full
  tight := c.tight_grow full

def release (c : Cache capacity) : Cache capacity where
  units := c.units
  out := c.out - 1
  peak := c.peak
  out_le := Nat.le_trans (Nat.sub_le _ _) c.out_le
  peak_le := c.peak_le
  tight := c.tight

/-- The units are as many as the largest number of items out at one time needs. -/
private theorem units_eq (c : Cache capacity) : c.units = (c.peak + (capacity - 1)) / capacity := by
  have enough := c.peak_le
  have tight := c.tight
  have positive : 0 < capacity := by omega
  apply Nat.le_antisymm
  · rw [Nat.le_div_iff_mul_le positive, Nat.mul_comm]
    omega
  · rw [Nat.div_le_iff_le_mul_add_pred positive]
    omega

/-! ## Runs -/

/-- The steps of a cache, each with the number of items that are out after it. -/
inductive Step : Cache capacity → ℕ → Cache capacity → Prop
  | idle (c : Cache capacity) : Step c c.out c
  | acquire (c : Cache capacity) (left : c.out < capacity * c.units) :
      Step c (c.out + 1) (c.acquire left)
  | grow (c : Cache capacity) (positive : 0 < capacity) (full : c.out = capacity * c.units) :
      Step c (c.out + 1) (c.grow positive full)
  | release (c : Cache capacity) : Step c (c.out - 1) c.release

def demands (capacity : ℕ) : System (Cache capacity) ℕ := ⟨Step⟩

theorem Step.peak_eq {c c' : Cache capacity} {out : ℕ} (step : (demands capacity).Step c out c') :
    c'.peak = max c.peak out := by
  have most := c.out_le
  cases step with
  | idle => exact (Nat.max_eq_left most).symm
  | acquire => rfl
  | grow positive full =>
    -- with every item out, one more is a new peak
    have enough := c.peak_le
    have larger : c.peak ≤ c.out + 1 := by omega
    exact (Nat.max_eq_right larger).symm
  | release => exact (Nat.max_eq_left (Nat.le_trans (Nat.sub_le _ _) most)).symm

private theorem peak_of_path {c c' : Cache capacity} {outs : List ℕ}
    (path : System.Path (demands capacity) c outs c') :
    c'.peak = outs.foldl max c.peak := by
  induction path with
  | nil => rfl
  | cons step _ ih => rw [List.foldl_cons, ih, Step.peak_eq step]

/-- After a run the units are as many as the largest demand of the run needs. -/
theorem units_of_path (positive : 0 < capacity) {c : Cache capacity} {outs : List ℕ}
    (path : System.Path (demands capacity) (empty positive) outs c) :
    c.units = (outs.foldl max 0 + (capacity - 1)) / capacity := by
  rw [c.units_eq, peak_of_path path]
  rfl

end Cache

end OscKernel.Lib
