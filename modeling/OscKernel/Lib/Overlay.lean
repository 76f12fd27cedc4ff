import Mathlib.Data.List.Basic
import Mathlib.Tactic.Cases

/-! # Overwriting intervals of a memory

A store writes `length` consecutive cells from `start`. `overlay` is its effect on a memory;
`lastWritten` reads a log of stores, the most recent first, as the memory it produces on the
cells that were ever written. `Covers log size` says that every cell below `size` was written;
a store that starts at or below `size` keeps it.
-/

namespace OscKernel.Lib

/-- The memory after storing `source 0, …, source (length - 1)` from `start` on. -/
def overlay {β : Type*} (memory : ℕ → β) (start length : ℕ) (source : ℕ → β) : ℕ → β :=
  fun i => if start ≤ i ∧ i < start + length then source (i - start) else memory i

/-- One recorded store. -/
structure Store (β : Type*) where
  start : ℕ
  length : ℕ
  source : ℕ → β

/-- The value most recently written to cell `i`, if any; the log has its newest entry first. -/
def lastWritten {β : Type*} : List (Store β) → ℕ → Option β
  | [], _ => none
  | store :: older, i =>
      if store.start ≤ i ∧ i < store.start + store.length then some (store.source (i - store.start))
      else lastWritten older i

/-- Every cell below `size` has been written. -/
def Covers {β : Type*} (log : List (Store β)) (size : ℕ) : Prop :=
  ∀ i < size, (lastWritten log i).isSome

/-- The memory holds what was last written to each written cell. -/
def Holds {β : Type*} (memory : ℕ → β) (log : List (Store β)) : Prop :=
  ∀ i b, lastWritten log i = some b → memory i = b

variable {β : Type*}

theorem overlay_inside {memory source : ℕ → β} {start length i : ℕ} (low : start ≤ i)
    (high : i < start + length) : overlay memory start length source i = source (i - start) :=
  if_pos ⟨low, high⟩

theorem overlay_outside {memory source : ℕ → β} {start length i : ℕ}
    (outside : i < start ∨ start + length ≤ i) : overlay memory start length source i = memory i :=
  if_neg (by omega)

@[simp] theorem overlay_zero (memory : ℕ → β) (start : ℕ) (source : ℕ → β) :
    overlay memory start 0 source = memory := by
  funext i
  exact overlay_outside (by omega)

theorem holds_nil (memory : ℕ → β) : Holds memory [] := by
  intro i b written
  cases written

theorem holds_overlay {memory : ℕ → β} {log : List (Store β)} (holds : Holds memory log)
    (store : Store β) :
    Holds (overlay memory store.start store.length store.source) (store :: log) := by
  intro i b written
  simp only [lastWritten] at written
  split_ifs at written with inside
  · rw [overlay_inside inside.1 inside.2]
    exact Option.some.inj written
  · rw [overlay_outside (by omega)]
    exact holds i b written

theorem covers_nil : Covers ([] : List (Store β)) 0 :=
  fun _ bound => absurd bound (Nat.not_lt_zero _)

/-- A store that leaves no gap above the covered cells extends the cover to its end. -/
theorem covers_cons {log : List (Store β)} {size : ℕ} (covers : Covers log size) (store : Store β)
    (adjacent : store.start ≤ size) :
    Covers (store :: log) (max size (store.start + store.length)) := by
  intro i bound
  simp only [lastWritten]
  split_ifs with inside
  · rfl
  · exact covers i (by omega)

/-- A written cell of a memory that holds its log reads as the last value written there. -/
theorem Holds.read {memory : ℕ → β} {log : List (Store β)} (holds : Holds memory log) {i : ℕ}
    (written : (lastWritten log i).isSome) : lastWritten log i = some (memory i) := by
  obtain ⟨b, found⟩ := Option.isSome_iff_exists.mp written
  rw [found, holds i b found]

end OscKernel.Lib
