import Mathlib.Data.Nat.Notation
import Mathlib.Tactic.TypeStar

/-! # Loops with fuel

A loop that need not end is computed for a number of rounds and has no result when they run out. It
ends with a result when all large enough numbers of rounds give that result; such loops compose like
the results they end with.
-/

namespace OscKernel.Lib

variable {α β : Type*}

/-- Enough rounds end with the result. -/
def EndsWith (loop : ℕ → Option α) (result : α) : Prop :=
  ∃ enough, ∀ fuel ≥ enough, loop fuel = some result

namespace EndsWith

variable {loop rest : ℕ → Option α} {result : α}

/-- What does not use its fuel. -/
theorem const (result : α) : EndsWith (fun _ => some result) result := ⟨0, fun _ _ => rfl⟩

/-- One round more. -/
theorem round (later : EndsWith rest result) (unfolds : ∀ fuel, loop (fuel + 1) = rest fuel) :
    EndsWith loop result := by
  obtain ⟨enough, ends⟩ := later
  refine ⟨enough + 1, fun fuel large => ?_⟩
  obtain ⟨fuel, rfl⟩ :=
    Nat.exists_eq_add_one_of_ne_zero (Nat.ne_of_gt (Nat.lt_of_lt_of_le (Nat.succ_pos enough) large))
  rw [unfolds]
  exact ends fuel (Nat.le_of_succ_le_succ large)

/-- The result goes on with its own loop. -/
theorem bind {first : ℕ → Option β} {value : β} {next : ℕ → β → Option α}
    (ends : EndsWith first value) (later : EndsWith (fun fuel => next fuel value) result) :
    EndsWith (fun fuel => (first fuel).bind (next fuel)) result := by
  obtain ⟨enough, ends⟩ := ends
  obtain ⟨enoughLater, later⟩ := later
  refine ⟨max enough enoughLater, fun fuel large => ?_⟩
  have one : enough ≤ fuel := Nat.le_trans (Nat.le_max_left enough enoughLater) large
  have two : enoughLater ≤ fuel := Nat.le_trans (Nat.le_max_right enough enoughLater) large
  change (first fuel).bind (next fuel) = some result
  rw [ends fuel one]
  exact later fuel two

theorem map {first : ℕ → Option β} {value : β} (ends : EndsWith first value) (f : β → α) :
    EndsWith (fun fuel => (first fuel).map f) (f value) := by
  obtain ⟨enough, ends⟩ := ends
  refine ⟨enough, fun fuel large => ?_⟩
  change (first fuel).map f = some (f value)
  rw [ends fuel large]
  rfl

/-- Going on after a result that is known. -/
theorem of_bind {first : ℕ → Option β} {value : β} {next : ℕ → β → Option α}
    (ends : EndsWith first value)
    (all : EndsWith (fun fuel => (first fuel).bind (next fuel)) result) :
    EndsWith (fun fuel => next fuel value) result := by
  obtain ⟨one, ends⟩ := ends
  obtain ⟨two, all⟩ := all
  refine ⟨max one two, fun fuel large => ?_⟩
  have here := all fuel (Nat.le_trans (Nat.le_max_right one two) large)
  simp only [ends fuel (Nat.le_trans (Nat.le_max_left one two) large), Option.bind_some] at here
  exact here

/-- What a loop was mapped from. -/
theorem of_map {first : ℕ → Option β} {f : β → α}
    (injective : ∀ {value other}, f value = f other → value = other)
    (ends : EndsWith (fun fuel => (first fuel).map f) result) :
    ∃ value, EndsWith first value ∧ f value = result := by
  obtain ⟨enough, ends⟩ := ends
  obtain ⟨value, found, same⟩ := Option.map_eq_some_iff.mp (ends enough (Nat.le_refl enough))
  refine ⟨value, ⟨enough, fun fuel large => ?_⟩, same⟩
  obtain ⟨other, also, sameOther⟩ := Option.map_eq_some_iff.mp (ends fuel large)
  exact injective (sameOther.trans same.symm) ▸ also

/-- Later rounds end with the same result. -/
theorem of_round (ends : EndsWith loop result)
    (unfolds : ∃ enough, ∀ fuel ≥ enough, loop (fuel + 1) = rest fuel) :
    EndsWith rest result := by
  obtain ⟨enough, ends⟩ := ends
  obtain ⟨other, unfolds⟩ := unfolds
  refine ⟨max enough other, fun fuel large => ?_⟩
  rw [← unfolds fuel (Nat.le_trans (Nat.le_max_right enough other) large)]
  exact ends (fuel + 1) (Nat.le_succ_of_le (Nat.le_trans (Nat.le_max_left enough other) large))

theorem unique {other : α} (ends : EndsWith loop result) (also : EndsWith loop other) :
    result = other := by
  obtain ⟨enough, ends⟩ := ends
  obtain ⟨enoughOther, also⟩ := also
  have here := ends (max enough enoughOther) (Nat.le_max_left _ _)
  rw [also (max enough enoughOther) (Nat.le_max_right _ _)] at here
  exact (Option.some.inj here).symm

end EndsWith

/-! ## Following pointers -/

/-- The loop that goes on to the next value as long as there is one. -/
def chase (next : α → Option α) : ℕ → α → Option α
  | 0, _ => none
  | fuel + 1, value =>
    match next value with
    | some other => chase next fuel other
    | none => some value

variable {next : α → Option α} (Inv : α → Prop)

/-- Pointers that go down in a measure come to an end. -/
theorem chase_ends (measure : α → ℕ)
    (decreases : ∀ {value other}, Inv value → next value = some other → Inv other ∧ measure other <
      measure value) {fuel : ℕ} {value : α} (start : Inv value) (enough : measure value < fuel) :
    ∃ last, chase next fuel value = some last := by
  induction fuel generalizing value with
  | zero => exact absurd enough (Nat.not_lt_zero _)
  | succ fuel ih =>
    cases found : next value with
    | none => exact ⟨value, by rw [chase, found]⟩
    | some other =>
      obtain ⟨inside, smaller⟩ := decreases start found
      obtain ⟨last, ends⟩ := ih inside (Nat.lt_of_lt_of_le smaller (Nat.le_of_lt_succ enough))
      exact ⟨last, by rw [chase, found, ← ends]⟩

/-- Pointers that always lead on are followed forever. -/
theorem chase_endless (leads : ∀ {value}, Inv value → ∃ other, next value = some other ∧ Inv other)
    (fuel : ℕ) {value : α} (start : Inv value) : chase next fuel value = none := by
  induction fuel generalizing value with
  | zero => rfl
  | succ fuel ih =>
    obtain ⟨other, found, inside⟩ := leads start
    rw [chase, found]
    exact ih inside

/-- The same pointers lead to the same end. -/
theorem chase_congr {other : α → Option α} (agree : ∀ {value}, Inv value → other value = next value)
    (closed : ∀ {value later}, Inv value → next value = some later → Inv later) (fuel : ℕ)
    {value : α} (start : Inv value) : chase other fuel value = chase next fuel value := by
  induction fuel generalizing value with
  | zero => rfl
  | succ fuel ih =>
    rw [chase, chase, agree start]
    cases found : next value with
    | none => rfl
    | some later => exact ih (closed start found)

end OscKernel.Lib
