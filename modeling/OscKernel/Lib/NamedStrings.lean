import Mathlib.Data.List.Basic
import Mathlib.Logic.Function.Basic
import OscKernel.Lib.Overlay
import OscKernel.Lib.System

/-! # Strings under names

A store keeps a string of bounded length under each name it has, and handles are cursors into them.
What a call returns is part of its label, so the runs of `strings` are what can be observed of a
store whose calls do not interfere. `splice` is the effect of a write; a memory holds a spliced
string after an `overlay`.
-/

namespace OscKernel.Lib

section Splice

variable {β : Type*} {data items first second : List β} {position : ℕ}

/-- The items in place of what stands from the position on, as far as they reach. -/
def splice (data : List β) (position : ℕ) (items : List β) : List β :=
  data.take position ++ items ++ data.drop (position + items.length)

theorem length_splice (inside : position ≤ data.length) :
    (splice data position items).length = max data.length (position + items.length) := by
  rw [splice, List.length_append, List.length_append, List.length_take, List.length_drop]
  omega

/-- A string in a memory after a store that leaves no gap. -/
theorem map_overlay {memory source : ℕ → β} {size length : ℕ} (inside : position ≤ size) :
    (List.range (max size (position + length))).map (overlay memory position length source) =
      splice ((List.range size).map memory) position ((List.range length).map source) := by
  apply List.ext_getElem
  · rw [length_splice (by simpa using inside)]
    simp
  · intro i bound _
    have low : i < max size (position + length) := by simpa using bound
    simp only [splice, List.getElem_map, List.getElem_range, List.getElem_append,
      List.length_append, List.length_take, List.length_map, List.length_range, List.getElem_take,
      List.getElem_drop, min_eq_left inside]
    split
    · split
      · exact overlay_outside (.inl (by assumption))
      · rw [overlay_inside (by omega) (by omega)]
    · rw [overlay_outside (.inr (by omega))]
      congr 1
      omega

end Splice

/-- The strings, and where each handle stands in which of them. -/
structure NamedStrings (ν η β : Type*) where
  content : ν → Option (List β)
  cursor : η → Option (ν × ℕ)

/-- A call with what it returns; a write that stores nothing returns -1. -/
inductive StringCall (ν η β ε : Type*) where
  /-- The string is empty if it is created, and no handle is made if there is no memory for it. -/
  | opened (handle : Option η) (name : ν) (created : Bool)
  | read (handle : η) (len : ℕ) (result : ℤ) (items : List β)
  | write (handle : η) (items : List β) (result : ℤ)
  /-- No string changes. -/
  | other (call : ε)

namespace NamedStrings

variable {ν η β ε : Type*} [DecidableEq ν] [DecidableEq η]

def empty : NamedStrings ν η β := ⟨fun _ => none, fun _ => none⟩

def setContent (store : NamedStrings ν η β) (name : ν) (data : List β) : NamedStrings ν η β :=
  { store with content := Function.update store.content name (some data) }

def setCursor (store : NamedStrings ν η β) (handle : η) (name : ν)
    (position : ℕ) : NamedStrings ν η β :=
  { store with cursor := Function.update store.cursor handle (some (name, position)) }

/-- The call is one of a store whose strings are no longer than `capacity`. -/
inductive Step (capacity : ℕ) : NamedStrings ν η β → StringCall ν η β ε →
    NamedStrings ν η β → Prop where
  | found {store : NamedStrings ν η β} {name : ν} {data : List β}
      (here : store.content name = some data)
      (handle : Option η) :
      Step capacity store (.opened handle name false)
        (handle.elim store fun handle => store.setCursor handle name 0)
  | created {store : NamedStrings ν η β} {name : ν} (new : store.content name = none)
      (handle : Option η) :
      Step capacity store (.opened handle name true)
        (handle.elim (store.setContent name []) fun handle =>
          (store.setContent name []).setCursor handle name 0)
  | read {store : NamedStrings ν η β} {handle : η} {name : ν} {position : ℕ} {data : List β}
      (stands : store.cursor handle = some (name, position))
      (here : store.content name = some data) (len : ℕ) :
      Step capacity store
      (.read handle len ((data.drop position).take len).length ((data.drop position).take len))
        (store.setCursor handle name (position + ((data.drop position).take len).length))
  | write {store : NamedStrings ν η β} {handle : η} {name : ν} {position : ℕ} {data items : List β}
      (stands : store.cursor handle = some (name, position)) (here : store.content name = some data)
      (room : items.take (capacity - position) ≠ []) :
      Step capacity store (.write handle items (items.take (capacity - position)).length)
        ((store.setContent name (splice data position (items.take (capacity - position)))).setCursor
          handle name
          (position + (items.take (capacity - position)).length))
  | refused {store : NamedStrings ν η β} {handle : η} {name : ν} {position : ℕ} {items : List β}
      (stands : store.cursor handle = some (name, position))
      (full : items.take (capacity - position) = []) :
      Step capacity store (.write handle items (-1)) store
  | other (store : NamedStrings ν η β) (call : ε) : Step capacity store (.other call) store

/-- No string is removed. -/
theorem Step.present {capacity : ℕ} {store next : NamedStrings ν η β} {call : StringCall ν η β ε}
    {name : ν} (step : Step capacity store call next) (here : (store.content name).isSome = true) :
    (next.content name).isSome = true := by
  have kept : ∀ {other data}, ((store.setContent other data).content name).isSome = true := by
    intro other data
    rw [setContent]
    dsimp only
    rcases eq_or_ne name other with rfl | different
    · rw [Function.update_self]
      rfl
    · rwa [Function.update_of_ne different]
  cases step with
  | found _ handle => cases handle <;> exact here
  | created _ handle => cases handle <;> exact kept
  | read => exact here
  | write => exact kept
  | refused => exact here
  | other => exact here

/-- What can be observed of a store. -/
def strings (capacity : ℕ) : System (NamedStrings ν η β) (StringCall ν η β ε) := ⟨Step capacity⟩

end NamedStrings

end OscKernel.Lib
