import Mathlib.Data.ZMod.Defs
import Mathlib.Data.List.Basic
import Mathlib.Logic.Function.Basic

/-! # Circular buffers

An array with the index to write next and the index to read next, both modulo its size. One cell
stays unused, so that equal indices mean an empty buffer. The elements from the read index on are a
queue: writing appends to it, reading takes its first element.
-/

namespace OscKernel.Lib

structure Circular (α : Type*) (n : ℕ) where
  buffer : Fin n → α
  head : Fin n
  tail : Fin n

namespace Circular

variable {α : Type*} {n : ℕ} [NeZero n]

def put (r : Circular α n) (a : α) : Circular α n :=
  { r with buffer := Function.update r.buffer r.head a, head := r.head + 1 }

def front (r : Circular α n) : α := r.buffer r.tail

def drop (r : Circular α n) : Circular α n := { r with tail := r.tail + 1 }

/-- The number of elements. -/
def count (r : Circular α n) : ℕ := (r.head - r.tail).val

/-- The elements, the one to read next first. -/
def contents (r : Circular α n) : List α :=
  (List.range r.count).map fun k => r.buffer (r.tail + Fin.ofNat n k)

variable {r : Circular α n} {a : α}

@[simp] theorem length_contents : r.contents.length = r.count := by
  simp only [contents, List.length_map, List.length_range]

omit [NeZero n] in
theorem count_lt (r : Circular α n) : r.count < n := (r.head - r.tail).isLt

/-- One more than an index, unless it wraps to 0. -/
theorem val_succ {d : Fin n} (wraps : d + 1 ≠ 0) : (d + 1).val = d.val + 1 := by
  have bound : d.val + 1 < n := by
    by_contra large
    have last : d.val + 1 = n := Nat.le_antisymm d.isLt (Nat.le_of_not_lt large)
    apply wraps
    rw [← Fin.val_eq_zero_iff, Fin.val_add, Fin.val_one', Nat.add_mod_mod, last, Nat.mod_self]
  rw [Fin.val_add, Fin.val_one', Nat.add_mod_mod, Nat.mod_eq_of_lt bound]

/-- The next index to write is the one to read exactly if all cells but one are in use. -/
theorem full_iff : r.head + 1 = r.tail ↔ r.count + 1 = n := by
  have shifted : r.head + 1 = r.tail ↔ (r.head - r.tail) + 1 = 0 := by
    rw [← sub_eq_zero, sub_add_eq_add_sub]
  rw [shifted]
  constructor
  · intro wraps
    by_contra short
    have bound : r.count + 1 < n := Nat.lt_of_le_of_ne r.count_lt short
    have value := congrArg Fin.val wraps
    rw [count] at bound
    rw [Fin.val_add, Fin.val_one', Nat.add_mod_mod, Nat.mod_eq_of_lt bound] at value
    exact Nat.succ_ne_zero _ value
  · intro last
    by_contra wraps
    have value : (r.head - r.tail + 1).val = n := (val_succ wraps).trans last
    exact Nat.ne_of_lt (r.head - r.tail + 1).isLt value

theorem count_put (room : r.head + 1 ≠ r.tail) : (r.put a).count = r.count + 1 := by
  have moved : (r.put a).head - (r.put a).tail = r.head - r.tail + 1 := by
    rw [put, sub_add_eq_add_sub]
  rw [count, moved]
  apply val_succ
  rw [sub_add_eq_add_sub]
  exact sub_ne_zero.mpr room

/-- The cells that are in use are apart from the one to write next. -/
private theorem cell_ne_head {k : ℕ} (used : k < r.count) : r.tail + Fin.ofNat n k ≠ r.head := by
  intro same
  have offset : Fin.ofNat n k = r.head - r.tail := eq_sub_of_add_eq' same
  have value := congrArg Fin.val offset
  rw [Fin.val_ofNat, Nat.mod_eq_of_lt (used.trans r.count_lt)] at value
  exact Nat.ne_of_lt used value

theorem contents_put (room : r.head + 1 ≠ r.tail) : (r.put a).contents = r.contents ++ [a] := by
  rw [contents, count_put room, List.range_succ, List.map_append, List.map_singleton]
  congr 1
  · refine List.map_congr_left fun k member => ?_
    exact Function.update_of_ne (cell_ne_head (List.mem_range.mp member)) _ _
  · have last : r.tail + Fin.ofNat n r.count = r.head := by
      rw [count, Fin.ofNat_val_eq_self, add_sub_cancel]
    simp only [put, last, Function.update_self]

theorem contents_drop (nonempty : r.head ≠ r.tail) : r.contents = r.front :: r.drop.contents := by
  have moved : r.head - r.tail = r.drop.head - r.drop.tail + 1 := by
    rw [drop, sub_add_eq_sub_sub, sub_add_cancel]
  have counted : r.count = r.drop.count + 1 := by
    rw [count, moved]
    apply val_succ
    rw [← moved]
    exact sub_ne_zero.mpr nonempty
  rw [contents, counted, List.range_succ_eq_map, List.map_cons, List.map_map]
  congr 1
  · rw [front, Fin.ofNat_zero, add_zero]
  · refine List.map_congr_left fun k _ => ?_
    have shifted : Fin.ofNat n (k + 1) = 1 + Fin.ofNat n k := by
      apply Fin.ext
      rw [Fin.val_ofNat, Fin.val_add, Fin.val_ofNat, Fin.val_one', ← Nat.add_mod, Nat.add_comm]
    change r.buffer (r.tail + Fin.ofNat n (k + 1)) = r.buffer (r.tail + 1 + Fin.ofNat n k)
    rw [shifted, add_assoc]

end Circular

end OscKernel.Lib
