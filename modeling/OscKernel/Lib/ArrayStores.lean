import Mathlib.Data.List.Basic
import Mathlib.Logic.Function.Basic

/-! # Stores into an array

A loop that fills an array is the list of its stores, each an index and a value; the array it leaves
is the fold of single updates. A loop that copies consecutive cells leaves the copied values there
and everything else as it was, and a string is read from an array up to its first zero.
-/

namespace OscKernel.Lib

variable {β : Type*}

/-- The memory after the stores, in their order. -/
def storeAll (memory : ℕ → β) (stores : List (ℕ × β)) : ℕ → β :=
  stores.foldl (fun memory store => Function.update memory store.1 store.2) memory

@[simp] theorem storeAll_nil (memory : ℕ → β) : storeAll memory [] = memory := rfl

@[simp] theorem storeAll_cons (memory : ℕ → β) (store : ℕ × β) (stores : List (ℕ × β)) :
    storeAll memory (store :: stores) = storeAll (Function.update memory store.1 store.2) stores :=
  rfl

theorem storeAll_append (memory : ℕ → β) (first second : List (ℕ × β)) :
    storeAll memory (first ++ second) = storeAll (storeAll memory first) second :=
  List.foldl_append

/-- What a loop over the first `n` indices leaves. -/
theorem storeAll_range (memory source : ℕ → β) (n i : ℕ) :
    storeAll memory ((List.range n).map fun k => (k, source k)) i = if i < n then source i
      else memory i := by
  induction n with
  | zero => rfl
  | succ n ih =>
    rw [List.range_succ, List.map_append, storeAll_append]
    change Function.update (storeAll memory ((List.range n).map fun k => (k, source k)))
      n (source n) i = _
    by_cases last : i = n
    · rw [last, Function.update_self, if_pos (Nat.lt_succ_self n)]
    · rw [Function.update_of_ne last, ih]
      by_cases inside : i < n
      · rw [if_pos inside, if_pos (Nat.lt_succ_of_lt inside)]
      · rw [if_neg inside, if_neg (by omega)]

/-- The array begins with the bytes and a terminator. -/
structure HoldsString [Zero β] (memory : ℕ → β) (text : List β) : Prop where
  bytes : ∀ i (inside : i < text.length), memory i = text[i]
  nonzero : 0 ∉ text
  terminated : memory text.length = 0

/-- An array holds one string only. -/
theorem HoldsString.unique [Zero β] {memory : ℕ → β} {text other : List β}
    (holds : HoldsString memory text) (holds' : HoldsString memory other) : text = other := by
  have shorter : ∀ {text other : List β}, HoldsString memory text → HoldsString memory other →
      other.length ≤ text.length := by
    intro text other holds holds'
    by_contra longer
    have inside : text.length < other.length := by omega
    have zero := (holds'.bytes text.length inside).symm.trans holds.terminated
    exact holds'.nonzero (zero ▸ List.getElem_mem inside)
  apply List.ext_getElem (Nat.le_antisymm (shorter holds' holds) (shorter holds holds'))
  intro i inside inside'
  exact (holds.bytes i inside).symm.trans (holds'.bytes i inside')

end OscKernel.Lib
