import Mathlib.Data.Finset.Card
import Mathlib.Logic.Function.Basic

/-! # Counting references

A table of slots holds references to objects. `references` counts the slots in use that refer to one
object, and each rule says how one change of the table or of the slots in use changes the count.
-/

namespace OscKernel.Lib

variable {ι β : Type*} [DecidableEq β]

/-- How many of the slots refer to the object. -/
def references (slots : Finset ι) (table : ι → Option β) (x : β) : ℕ :=
  (slots.filter fun i => table i = some x).card

variable {slots : Finset ι} {table : ι → Option β} {i : ι} {x : β}

theorem references_le (slots : Finset ι) (table : ι → Option β) (x : β) :
    references slots table x ≤ slots.card :=
  Finset.card_filter_le _ _

theorem references_pos (inUse : i ∈ slots) (refers : table i = some x) :
    0 < references slots table x :=
  Finset.card_pos.mpr ⟨i, Finset.mem_filter.mpr ⟨inUse, refers⟩⟩

theorem references_congr {table' : ι → Option β} (same : ∀ i ∈ slots, table' i = table i) (x : β) :
    references slots table' x = references slots table x := by
  rw [references, references]
  congr 1
  apply Finset.filter_congr
  intro i inUse
  rw [same i inUse]

/-- Slots that hold nothing do not count. -/
theorem references_of_subset {more : Finset ι} (subset : slots ⊆ more)
    (empty : ∀ i ∈ more, i ∉ slots → table i = none) (x : β) :
    references more table x = references slots table x := by
  rw [references, references]
  congr 1
  ext i
  simp only [Finset.mem_filter]
  constructor
  · rintro ⟨inMore, refers⟩
    by_contra out
    have notSlot : i ∉ slots := fun inUse => out ⟨inUse, refers⟩
    rw [empty i inMore notSlot] at refers
    simp at refers
  · exact fun both => ⟨subset both.1, both.2⟩

/-- Writing one slot trades its old reference for the new one. -/
theorem references_update [DecidableEq ι] (inUse : i ∈ slots) (value : Option β) (x : β) :
    references slots (Function.update table i value) x + (if table i = some x then 1 else 0) =
      references slots table x + if value = some x then 1 else 0 := by
  have apart : ∀ t : ι → Option β, references slots t x =
      references (slots.erase i) t x + if t i = some x then 1 else 0 := by
    intro t
    have whole := Finset.insert_erase inUse
    rw [references, ← whole, Finset.filter_insert, references]
    split
    · rw [Finset.card_insert_of_notMem (by simp), Finset.erase_insert (Finset.notMem_erase i slots)]
    · rw [Finset.erase_insert (Finset.notMem_erase i slots), Nat.add_zero]
  have others : references (slots.erase i) (Function.update table i value) x =
      references (slots.erase i) table x :=
    references_congr (fun j other => Function.update_of_ne (Finset.ne_of_mem_erase other) _ _) x
  rw [apart (Function.update table i value), apart table, others, Function.update_self]
  omega

end OscKernel.Lib
