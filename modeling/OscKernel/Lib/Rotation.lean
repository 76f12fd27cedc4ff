import Mathlib.Data.List.Nodup
import Mathlib.Data.List.Sublists

/-! # Rotating queues

The first element of a queue has its turn until it goes behind the others or leaves the queue, and
the next one is dispatched. Others may come and go at any time. An element that is dispatched twice
while another one stays in the queue with it has seen exactly one dispatch of the other: the order
of the two in the queue tells whether that dispatch is still to come.
-/

namespace OscKernel.Lib

open scoped List

structure Rotation (α : Type*) where
  queue : List α
  current : α
  /-- The current element left the queue, and nothing was dispatched since. -/
  left : Bool

namespace Rotation

variable {α : Type*} [DecidableEq α]

/-- A step, with the element it dispatches if any. -/
inductive Step : Rotation α → Option α → Rotation α → Prop
  | stay {r : Rotation α} : Step r none r
  | add {r : Rotation α} {a : α} : r.left = false → a ∉ r.queue →
      Step r none { r with queue := r.queue ++ [a] }
  | remove {r : Rotation α} {a : α} : r.left = false → a ≠ r.current →
      Step r none { r with queue := r.queue.erase a }
  | leave {r : Rotation α} : r.left = false →
      Step r none { r with queue := r.queue.erase r.current, left := true }
  | turn {r : Rotation α} {next : α} {rest : List α} : r.left = false →
      r.queue = r.current :: next :: rest →
      Step r (some next) { r with queue := next :: rest ++ [r.current], current := next }
  | takeOver {r : Rotation α} {next : α} {rest : List α} : r.left = true → r.queue = next :: rest →
      Step r (some next) { r with current := next, left := false }

/-- The current element is the first, unless it left. -/
structure Sound (r : Rotation α) : Prop where
  nodup : r.queue.Nodup
  head : r.left = false → r.queue.head? = some r.current
  gone : r.left = true → r.current ∉ r.queue

variable {r t : Rotation α} {x y : α} {dispatched : Option α} {seen : List α}

omit [DecidableEq α] in
theorem Sound.cons (sound : Sound r) (here : r.left = false) :
    ∃ rest, r.queue = r.current :: rest := by
  obtain ⟨rest, same⟩ := List.head?_eq_some_iff.mp (sound.head here)
  exact ⟨rest, same⟩

theorem Sound.step (sound : Sound r) (step : Step r dispatched t) : Sound t := by
  cases step with
  | stay => exact sound
  | @add a here new =>
    obtain ⟨rest, shape⟩ := sound.cons here
    refine ⟨?_, fun _ => ?_, fun left => ?_⟩
    · exact (List.perm_append_singleton a r.queue).nodup_iff.mpr
        (List.nodup_cons.mpr ⟨new, sound.nodup⟩)
    · simp only [shape, List.cons_append, List.head?_cons]
    · cases here.symm.trans left
  | @remove a here other =>
    obtain ⟨rest, shape⟩ := sound.cons here
    refine ⟨sound.nodup.erase a, fun _ => ?_, fun left => ?_⟩
    · rw [shape, List.erase_cons_tail (by simpa using other.symm)]
      rfl
    · cases here.symm.trans left
  | leave here => exact ⟨sound.nodup.erase r.current, nofun, fun _ => sound.nodup.not_mem_erase⟩
  | @turn next rest here shape =>
    have nodup := sound.nodup
    rw [shape] at nodup
    exact ⟨(List.perm_append_singleton r.current (next :: rest)).nodup_iff.mpr nodup, fun _ => rfl,
      fun left => by cases here.symm.trans left⟩
  | @takeOver next rest left shape =>
    refine ⟨sound.nodup, fun _ => ?_, nofun⟩
    rw [shape]
    rfl

/-- How far the turns have come since `x` was dispatched, for an element `y` that waits with it. -/
inductive Phase (x y : α) (r : Rotation α) (seen : List α) : Prop
  /-- It still has its turn. -/
  | running : r.left = false → r.current = x → seen = [] → Phase x y r seen
  /-- The other one will be dispatched before it. -/
  | before : [y, x] <+ r.queue → (r.left = false → r.current ≠ y) →
      seen.count y = 0 → Phase x y r seen
  | serving : [y, x] <+ r.queue → r.left = false → r.current = y →
      seen.count y = 1 → Phase x y r seen
  /-- The other one will be dispatched after it. -/
  | after : [x, y] <+ r.queue → (r.left = false → r.current ≠ x) →
      seen.count y = 1 → Phase x y r seen

omit [DecidableEq α] in
/-- An element that is not the first, and one behind it. -/
theorem pair_tail {a b first : α} {rest : List α} (pair : [a, b] <+ first :: rest)
    (other : first ≠ a) : [a, b] <+ rest := by
  cases pair with
  | cons _ pair => exact pair
  | cons_cons _ _ => exact absurd rfl other

omit [DecidableEq α] in
/-- The first element of a pair goes behind. -/
theorem pair_turned {a b : α} {rest : List α} (member : b ∈ rest) : [b, a] <+ rest ++ [a] :=
  (List.singleton_sublist.mpr member).append (List.Sublist.refl [a])

omit [DecidableEq α] in
theorem pair_second {a b : α} {queue : List α} (pair : [a, b] <+ queue) : b ∈ queue :=
  pair.subset (List.mem_cons_of_mem a (List.mem_singleton_self b))

/-- The order of two elements that stay is not changed by the others. -/
theorem pair_erase {a b c : α} {queue : List α} (pair : [a, b] <+ queue) (notFirst : a ≠ c)
    (notSecond : b ≠ c) : [a, b] <+ queue.erase c := by
  have kept := pair.erase c
  rwa [List.erase_of_not_mem (by simp [notFirst.symm, notSecond.symm])] at kept

/-- A step that dispatches something other than `x` leads from phase to phase. -/
theorem Phase.step (phase : Phase x y r seen) (sound : Sound r) (step : Step r dispatched t)
    (different : x ≠ y) (other : dispatched ≠ some x) (stays : x ∈ t.queue) (waits : y ∈ t.queue) :
    Phase x y t (seen ++ dispatched.toList) := by
  cases step with
  | stay => rwa [Option.toList_none, List.append_nil]
  | @add a here new =>
    rw [Option.toList_none, List.append_nil]
    cases phase with
    | running _ current none => exact .running here current none
    | before pair notYet none =>
      exact .before (List.sublist_append_of_sublist_left pair) notYet none
    | serving pair _ current once =>
      exact .serving (List.sublist_append_of_sublist_left pair) here current once
    | after pair notYet once => exact .after (List.sublist_append_of_sublist_left pair) notYet once
  | @remove a here elsewhere =>
    rw [Option.toList_none, List.append_nil]
    have notX : x ≠ a := by
      rintro rfl
      exact sound.nodup.not_mem_erase stays
    have notY : y ≠ a := by
      rintro rfl
      exact sound.nodup.not_mem_erase waits
    cases phase with
    | running _ current none => exact .running here current none
    | before pair notYet none => exact .before (pair_erase pair notY notX) notYet none
    | serving pair _ current once => exact .serving (pair_erase pair notY notX) here current once
    | after pair notYet once => exact .after (pair_erase pair notX notY) notYet once
  | leave here =>
    rw [Option.toList_none, List.append_nil]
    have notX : x ≠ r.current := by
      rintro rfl
      exact sound.nodup.not_mem_erase stays
    have notY : y ≠ r.current := by
      rintro rfl
      exact sound.nodup.not_mem_erase waits
    cases phase with
    | running _ current _ => exact absurd current.symm notX
    | before pair _ none => exact .before (pair_erase pair notY notX) nofun none
    | serving _ _ current _ => exact absurd current.symm notY
    | after pair _ once => exact .after (pair_erase pair notX notY) nofun once
  | @turn next rest here shape =>
    have notX : next ≠ x := fun same => other (congrArg some same)
    have nodup := sound.nodup
    rw [shape] at nodup
    obtain ⟨apart, nodup⟩ := List.nodup_cons.mp nodup
    rw [Option.toList_some, List.cons_append] at *
    cases phase with
    | running _ current none =>
      have waiting : y ∈ next :: rest := by
        rw [current] at waits
        exact (List.mem_append.mp waits).resolve_right fun last =>
          different (List.mem_singleton.mp last).symm
      subst none current
      rcases eq_or_ne next y with rfl | notY
      · exact .serving (pair_turned waiting) here rfl (by simp)
      · exact .before (pair_turned waiting) (fun _ => notY) (by simp [notY])
    | before pair notYet none =>
      rw [shape] at pair
      have behind : [y, x] <+ next :: rest ++ [r.current] :=
        List.sublist_append_of_sublist_left (pair_tail pair (notYet here))
      rcases eq_or_ne next y with rfl | notY
      · exact .serving behind here rfl (by simp [none])
      · exact .before behind (fun _ => notY) (by simp [none, notY])
    | serving pair _ current once =>
      subst current
      rw [shape] at pair
      have notY : next ≠ r.current := fun same => apart (same ▸ List.mem_cons_self)
      have member : x ∈ next :: rest := (List.mem_cons.mp (pair_second pair)).resolve_left different
      exact .after (pair_turned member) (fun _ => notX) (by simp [once, notY])
    | after pair notYet once =>
      rw [shape] at pair
      have behind := pair_tail pair (notYet here)
      have later : y ∈ rest := pair_second (pair_tail behind notX)
      have notY : next ≠ y := by
        rintro rfl
        exact (List.nodup_cons.mp nodup).1 later
      exact .after (List.sublist_append_of_sublist_left behind)
        (fun _ => notX) (by simp [once, notY])
  | @takeOver next rest left shape =>
    have notX : next ≠ x := fun same => other (congrArg some same)
    have nodup := sound.nodup
    rw [shape] at nodup
    rw [Option.toList_some]
    cases phase with
    | running here _ _ => cases here.symm.trans left
    | before pair notYet none =>
      rcases eq_or_ne next y with rfl | notY
      · exact .serving pair rfl rfl (by simp [none])
      · exact .before pair (fun _ => notY) (by simp [none, notY])
    | serving _ here _ _ => cases here.symm.trans left
    | after pair notYet once =>
      have later : y ∈ rest := pair_second (pair_tail (shape ▸ pair) notX)
      have notY : next ≠ y := by
        rintro rfl
        exact (List.nodup_cons.mp nodup).1 later
      exact .after pair (fun _ => notX) (by simp [once, notY])

/-- When `x` is dispatched again, `y` was dispatched once. -/
theorem Phase.again (phase : Phase x y r seen) (sound : Sound r)
    (step : Step r (some x) t) (different : x ≠ y) :
    seen.count y = 1 := by
  cases step with
  | @turn _ rest here shape =>
    have nodup := sound.nodup
    rw [shape] at nodup
    obtain ⟨apart, nodup⟩ := List.nodup_cons.mp nodup
    cases phase with
    | running _ current _ => exact absurd (current ▸ List.mem_cons_self) apart
    | before pair notYet _ =>
      rw [shape] at pair
      have behind := pair_tail (pair_tail pair (notYet here)) different
      exact absurd (pair_second behind) (List.nodup_cons.mp nodup).1
    | serving _ _ _ once => exact once
    | after _ _ once => exact once
  | @takeOver _ rest left shape =>
    have nodup := sound.nodup
    rw [shape] at nodup
    cases phase with
    | running here _ _ => cases here.symm.trans left
    | before pair _ _ =>
      rw [shape] at pair
      exact absurd (pair_second (pair_tail pair different)) (List.nodup_cons.mp nodup).1
    | serving _ _ _ once => exact once
    | after _ _ once => exact once

end Rotation

/-! ## Neighbours -/

section Neighbours

variable {α : Type*} {a b c first : α} {rest : List α}

/-- Going round the queue, `b` comes right after `a`. -/
def Precedes (a b : α) (queue : List α) : Prop :=
  (∃ front back, queue = front ++ a :: b :: back) ∨ ∃ middle, queue = b :: middle ++ [a]

namespace Precedes

theorem add (precedes : Precedes a b (first :: rest)) (other : first ≠ b) (c : α) :
    Precedes a b (first :: rest ++ [c]) := by
  obtain ⟨front, back, shape⟩ | ⟨middle, shape⟩ := precedes
  · exact .inl ⟨front, back ++ [c],
      by rw [shape, List.append_assoc, List.cons_append, List.cons_append]⟩
  · exact absurd (List.cons.inj shape).1 other

theorem turn (precedes : Precedes a b (first :: rest)) : Precedes a b (rest ++ [first]) := by
  obtain ⟨front, back, shape⟩ | ⟨middle, shape⟩ := precedes
  · cases front with
    | nil =>
      obtain ⟨rfl, rfl⟩ := List.cons.inj shape
      exact .inr ⟨back, rfl⟩
    | cons x front =>
      obtain ⟨rfl, rfl⟩ := List.cons.inj shape
      exact .inl ⟨front, back ++ [first], List.append_assoc front (a :: b :: back) [first]⟩
  · obtain ⟨rfl, rfl⟩ := List.cons.inj shape
    exact .inl ⟨middle, [], List.append_assoc middle [a] [first]⟩

theorem erase [DecidableEq α] {queue : List α} (precedes : Precedes a b queue)
    (notFirst : c ≠ a) (notSecond : c ≠ b) :
    Precedes a b (queue.erase c) := by
  have pair (back : List α) : (a :: b :: back).erase c = a :: b :: back.erase c := by
    rw [List.erase_cons_tail (by simpa using notFirst.symm),
      List.erase_cons_tail (by simpa using notSecond.symm)]
  have last : [a].erase c = [a] := List.erase_of_not_mem (by simpa using notFirst)
  obtain ⟨front, back, rfl⟩ | ⟨middle, rfl⟩ := precedes
  · by_cases member : c ∈ front
    · exact .inl ⟨front.erase c, back, List.erase_append_left _ member⟩
    · exact .inl ⟨front, back.erase c, by rw [List.erase_append_right _ member, pair]⟩
  · have tail : (b :: middle ++ [a]).erase c = b :: (middle ++ [a]).erase c :=
      List.erase_cons_tail (by simpa using notSecond.symm)
    rw [tail]
    by_cases member : c ∈ middle
    · exact .inr ⟨middle.erase c, by rw [List.erase_append_left _ member, List.cons_append]⟩
    · exact .inr ⟨middle, by rw [List.erase_append_right _ member, last, List.cons_append]⟩

/-- Nothing else comes right before `b`. -/
theorem unique (precedes : Precedes a b (first :: b :: rest)) (nodup : (first :: b :: rest).Nodup) :
    first = a := by
  obtain ⟨notIn, nodup⟩ := List.nodup_cons.mp nodup
  obtain ⟨front, back, shape⟩ | ⟨middle, shape⟩ := precedes
  · cases front with
    | nil => exact (List.cons.inj shape).1
    | cons x front =>
      obtain ⟨-, shape⟩ := List.cons.inj shape
      have later : b ∈ (front ++ a :: b :: back).tail := by
        cases front with
        | nil => exact List.mem_cons_self
        | cons y front =>
          exact List.mem_append_right front (List.mem_cons_of_mem a List.mem_cons_self)
      have same : (b :: rest).tail = (front ++ a :: b :: back).tail := congrArg List.tail shape
      rw [← same] at later
      exact absurd later (List.nodup_cons.mp nodup).1
  · exact absurd ((List.cons.inj shape).1 ▸ List.mem_cons_self) notIn

/-- After the first comes `b` if it is the one before `b`. -/
theorem second (precedes : Precedes a b (a :: rest)) (nodup : (a :: rest).Nodup)
    (different : a ≠ b) : rest.head? = some b := by
  obtain ⟨front, back, shape⟩ | ⟨middle, shape⟩ := precedes
  · cases front with
    | nil =>
      obtain ⟨-, rfl⟩ := List.cons.inj shape
      rfl
    | cons x front =>
      obtain ⟨-, rfl⟩ := List.cons.inj shape
      exact absurd (List.mem_append_right front List.mem_cons_self) (List.nodup_cons.mp nodup).1
  · exact absurd (List.cons.inj shape).1 different

end Precedes

end Neighbours

end OscKernel.Lib
