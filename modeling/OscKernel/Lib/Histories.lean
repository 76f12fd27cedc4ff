import OscKernel.Lib.Allocations

/-! # Undoing allocations

An allocation history that carries its numbering, and the comparison of two histories by what is in
use. An address passed back right after it was allocated leaves nothing in use that was not in use
before, and passing back the same address keeps histories alike, so a call that frees what it
allocated in any nesting is undone.
-/

namespace OscKernel.Lib

namespace Allocations

variable {α π : Type*} [DecidableEq α] {h h' h'' : Allocations α π} {first a b : α}
  {region : List α} {purpose : π}
  {id : ℕ}

theorem Numbered.free (numbered : h.Numbered) (a : α) : (h.free a).Numbered := by
  refine ⟨fun home => ?_, fun freed => ?_⟩
  · rw [free_home] at home
    rw [free_count]
    exact numbered.home_lt home
  · rw [free_count]
    rcases (mem_freed_free a).mp freed with old | ⟨home, -⟩
    · exact numbered.freed_lt old
    · exact numbered.home_lt home

/-- Passing back the start of an allocation in use records its number. -/
theorem Within.freed_free (within : h.Within a id) (start : h.start id = a) :
    (h.free a).freed = id :: h.freed := by
  rw [free, within.1]
  simp only
  rw [if_pos start]

theorem within_free_iff : (h.free a).Within b id ↔ h.Within b id ∧
    ¬ (h.Within a id ∧ h.start id = a) := by
  rw [Within, free_home, mem_freed_free]
  constructor
  · rintro ⟨home, notFreed⟩
    refine ⟨⟨home, fun freed => notFreed (.inl freed)⟩,
      fun ⟨within, start⟩ => notFreed (.inr ⟨within.1, start⟩)⟩
  · rintro ⟨within, other⟩
    refine ⟨within.1, ?_⟩
    rintro (freed | ⟨home, start⟩)
    · exact within.2 freed
    · exact other ⟨⟨home, within.2⟩, start⟩

/-- Passing back starts of distinct allocations in use records their numbers, the last one first. -/
theorem freed_freeAll {starts : List (α × ℕ)}
    (inUse : ∀ p ∈ starts, h.Within p.1 p.2 ∧ h.start p.2 = p.1)
    (distinct : (starts.map Prod.snd).Nodup) :
    (h.freeAll (starts.map Prod.fst)).freed = (starts.map Prod.snd).reverse ++ h.freed := by
  induction starts generalizing h with
  | nil => rfl
  | cons p rest ih =>
    obtain ⟨notIn, distinctRest⟩ := List.nodup_cons.mp distinct
    obtain ⟨within, start⟩ := inUse p List.mem_cons_self
    have later : ∀ q ∈ rest, (h.free p.1).Within q.1 q.2 ∧ (h.free p.1).start q.2 = q.1 := by
      intro q member
      obtain ⟨withinLater, startLater⟩ := inUse q (List.mem_cons_of_mem p member)
      refine ⟨within_free_iff.mpr ⟨withinLater, ?_⟩, by rw [free_start]; exact startLater⟩
      rintro ⟨withinBoth, -⟩
      have same : p.2 = q.2 := Option.some.inj (within.1.symm.trans withinBoth.1)
      exact notIn (same ▸ List.mem_map_of_mem member)
    have tail := ih later distinctRest
    rw [freeAll] at tail
    rw [List.map_cons, List.map_cons, freeAll, List.foldl_cons, tail, within.freed_free start,
      List.reverse_cons, List.append_assoc, List.singleton_append]

/-! ## Histories with the same in use -/

/-- The same addresses are in use, by the same allocations. -/
structure Alike (h h' : Allocations α π) : Prop where
  within : ∀ a id, h'.Within a id ↔ h.Within a id
  start : ∀ a id, h.Within a id → h'.start id = h.start id

omit [DecidableEq α] in
theorem Alike.refl (h : Allocations α π) : h.Alike h := ⟨fun _ _ => Iff.rfl, fun _ _ _ => rfl⟩

omit [DecidableEq α] in
theorem Alike.trans (one : h.Alike h') (two : h'.Alike h'') : h.Alike h'' := by
  refine ⟨fun a id => (two.within a id).trans (one.within a id), fun a id within => ?_⟩
  rw [two.start a id ((one.within a id).mpr within), one.start a id within]

omit [DecidableEq α] in
theorem Alike.available (alike : h.Alike h') (a : α) : h'.available a = h.available a := by
  have same : h'.available a = false ↔ h.available a = false := by
    rw [not_available_iff, not_available_iff]
    exact exists_congr fun id => alike.within a id
  cases old : h.available a with
  | false => exact same.mpr old
  | true =>
    cases new : h'.available a with
    | false => exact absurd (same.mp new) (by rw [old]; decide)
    | true => rfl

/-- Passing back one address keeps histories alike. -/
theorem Alike.free (alike : h.Alike h') (a : α) : (h.free a).Alike (h'.free a) := by
  have named : ∀ id, (h'.Within a id ∧ h'.start id = a) ↔ (h.Within a id ∧ h.start id = a) := by
    intro id
    rw [alike.within]
    exact and_congr_right fun within => by rw [alike.start a id within]
  constructor
  · intro b id
    rw [within_free_iff, within_free_iff, alike.within, named]
  · intro b id within
    rw [free_start, free_start]
    exact alike.start b id (within_free_iff.mp within).1

/-- What was just allocated and is passed back is undone. -/
theorem Alike.allocate_free (numbered : h.Numbered)
    (result : h.allocate first region purpose = some h') (member : first ∈ region) :
    h.Alike (h'.free first) := by
  obtain ⟨here, start, -⟩ := within_new numbered result member
  constructor
  · intro a id
    rw [within_free_iff]
    constructor
    · rintro ⟨within, other⟩
      obtain ⟨available, rfl⟩ := allocate_eq result
      have home := within.1
      simp only at home
      split at home
      · obtain rfl := Option.some.inj home
        exact absurd ⟨here, start⟩ other
      · exact ⟨home, within.2⟩
    · intro within
      refine ⟨(within.allocate numbered result).1, ?_⟩
      rintro ⟨newer, -⟩
      have same : h.count = id := Option.some.inj (here.1.symm.trans newer.1)
      exact absurd (numbered.home_lt within.1) (same ▸ Nat.lt_irrefl _)
  · intro a id within
    rw [free_start]
    exact (within.allocate numbered result).2.1

end Allocations

/-! ## Histories -/

/-- Allocations whose numbers were all given. -/
structure History (α π : Type*) where
  allocations : Allocations α π
  numbered : allocations.Numbered

namespace History

variable {α π : Type*} [DecidableEq α] {h h' : History α π} {first a : α}
  {region : List α} {purpose : π}

def allocate (h : History α π) (first : α) (region : List α) (purpose : π) : Option (History α π) :=
  match result : h.allocations.allocate first region purpose with
  | none => none
  | some next => some ⟨next, h.numbered.allocate result⟩

def free (h : History α π) (a : α) : History α π := ⟨h.allocations.free a, h.numbered.free a⟩

theorem allocate_eq_some (result : h.allocate first region purpose = some h') :
    h.allocations.allocate first region purpose = some h'.allocations := by
  rw [allocate] at result
  split at result
  · cases result
  · rename_i next made
    obtain rfl := Option.some.inj result
    exact made

/-- Addresses that no allocation ever had can be allocated; the others stay where they are. -/
theorem allocate_succeeds (first : α) (purpose : π)
    (unused : ∀ a ∈ region, h.allocations.home a = none) :
    ∃ h', h.allocate first region purpose = some h' ∧
      ∀ a, a ∉ region → h'.allocations.home a = h.allocations.home a := by
  obtain ⟨next, made, kept⟩ := Allocations.allocate_succeeds first purpose unused
  refine ⟨⟨next, h.numbered.allocate made⟩, ?_, kept⟩
  rw [allocate]
  split
  · rename_i refused
    rw [made] at refused
    cases refused
  · rename_i other result
    rw [made] at result
    obtain rfl := Option.some.inj result
    rfl

/-- The history before the first allocation. -/
def empty (first : α) (purpose : π) : History α π where
  allocations := ⟨fun _ => none, fun _ => first, fun _ => purpose, 0, []⟩
  numbered := ⟨nofun, nofun⟩

end History

end OscKernel.Lib
