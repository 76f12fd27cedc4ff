import Mathlib.Data.List.Nodup
import Mathlib.Logic.Function.Basic

/-! # Allocation histories

What the clients of an allocator can rely on: each address belongs to the allocation that was given
it last, an allocation is in use until its start is passed back, and a new one takes only addresses
that no allocation in use has. The history names allocations by number and lists the numbers in the
order in which they were passed back, so that a second time shows.
-/

namespace OscKernel.Lib

/-- Allocations of addresses `α`, each made for a purpose in `π`. -/
structure Allocations (α π : Type*) where
  home : α → Option ℕ
  start : ℕ → α
  purpose : ℕ → π
  count : ℕ
  freed : List ℕ

namespace Allocations

variable {α π : Type*} [DecidableEq α]

/-- No allocation in use has the address. -/
def available (h : Allocations α π) (a : α) : Bool :=
  match h.home a with
  | none => true
  | some id => decide (id ∈ h.freed)

/-- A new allocation of the region, which must be available. -/
def allocate (h : Allocations α π) (first : α) (region : List α) (purpose : π) :
    Option (Allocations α π) :=
  if region.all h.available then
    some { h with
      home := fun a => if a ∈ region then some h.count else h.home a
      start := Function.update h.start h.count first
      purpose := Function.update h.purpose h.count purpose
      count := h.count + 1 }
  else none

/-- Passing an address back: only the start of an allocation names it. -/
def free (h : Allocations α π) (a : α) : Allocations α π :=
  match h.home a with
  | none => h
  | some id => if h.start id = a then { h with freed := id :: h.freed } else h

def freeAll (h : Allocations α π) (addresses : List α) : Allocations α π := addresses.foldl free h

/-- The address is in an allocation in use. -/
def Within (h : Allocations α π) (a : α) (id : ℕ) : Prop := h.home a = some id ∧ id ∉ h.freed

/-- The address starts an allocation in use that was made for the purpose. -/
def Owns (h : Allocations α π) (a : α) (purpose : π) : Prop :=
  ∃ id, h.Within a id ∧ h.start id = a ∧ h.purpose id = purpose

/-- Numbers name allocations that were made. -/
structure Numbered (h : Allocations α π) : Prop where
  home_lt : ∀ {a id}, h.home a = some id → id < h.count
  freed_lt : ∀ {id}, id ∈ h.freed → id < h.count

/-- Numbers name allocations that were made, and none was passed back twice. -/
structure Valid (h : Allocations α π) : Prop where
  home_lt : ∀ {a id}, h.home a = some id → id < h.count
  freed_lt : ∀ {id}, id ∈ h.freed → id < h.count
  once : h.freed.Nodup

variable {h h' : Allocations α π} {first a : α} {region : List α} {purpose : π} {id : ℕ}

omit [DecidableEq α] in
theorem Valid.numbered (valid : h.Valid) : h.Numbered := ⟨valid.home_lt, valid.freed_lt⟩

omit [DecidableEq α] in
/-- An address starts at most one allocation in use. -/
theorem Owns.unique {purpose purpose' : π} (owns : h.Owns a purpose) (owns' : h.Owns a purpose') :
    purpose = purpose' := by
  obtain ⟨id, within, -, made⟩ := owns
  obtain ⟨id', within', -, made'⟩ := owns'
  obtain rfl := Option.some.inj (within.1.symm.trans within'.1)
  exact made.symm.trans made'

/-! ## Allocating -/

theorem allocate_eq (result : h.allocate first region purpose = some h') :
    (∀ a ∈ region, h.available a = true) ∧ h' = { h with
      home := fun a => if a ∈ region then some h.count else h.home a
      start := Function.update h.start h.count first
      purpose := Function.update h.purpose h.count purpose
      count := h.count + 1 } := by
  rw [allocate] at result
  split at result
  · rename_i available
    exact ⟨List.all_eq_true.mp available, (Option.some.inj result).symm⟩
  · exact absurd result (by simp)

/-- Addresses that no allocation ever had can be allocated; the others stay where they are. -/
theorem allocate_succeeds (first : α) (purpose : π) (unused : ∀ a ∈ region, h.home a = none) :
    ∃ h', h.allocate first region purpose = some h' ∧ ∀ a, a ∉ region → h'.home a = h.home a := by
  have available : region.all h.available = true := List.all_eq_true.mpr fun a member => by
    rw [Allocations.available, unused a member]
  exact ⟨_, if_pos available, fun a outside => if_neg outside⟩

omit [DecidableEq α] in
theorem Within.not_available (within : h.Within a id) : h.available a = false := by
  rw [available, within.1]
  exact decide_eq_false within.2

omit [DecidableEq α] in
/-- An address is not available exactly when an allocation in use has it. -/
theorem not_available_iff : h.available a = false ↔ ∃ id, h.Within a id := by
  constructor
  · intro taken
    rw [available] at taken
    split at taken
    · cases taken
    · rename_i id home
      exact ⟨id, home, of_decide_eq_false taken⟩
  · rintro ⟨id, within⟩
    exact within.not_available

section Allocate

variable (numbered : h.Numbered) (result : h.allocate first region purpose = some h')
include numbered result

theorem Numbered.allocate : h'.Numbered := by
  obtain ⟨-, rfl⟩ := allocate_eq result
  refine ⟨fun {a id} home => ?_, fun freed => Nat.lt_succ_of_lt (numbered.freed_lt freed)⟩
  simp only at home
  split at home
  · obtain rfl := Option.some.inj home
    exact Nat.lt_succ_self _
  · exact Nat.lt_succ_of_lt (numbered.home_lt home)

/-- What is in use stays where it is. -/
theorem Within.allocate (within : h.Within a id) :
    h'.Within a id ∧ h'.start id = h.start id ∧ h'.purpose id = h.purpose id := by
  obtain ⟨available, rfl⟩ := allocate_eq result
  have outside : a ∉ region := by
    intro member
    have free := available a member
    rw [within.not_available] at free
    exact absurd free (by decide)
  have old : id ≠ h.count := Nat.ne_of_lt (numbered.home_lt within.1)
  refine ⟨⟨?_, within.2⟩, Function.update_of_ne old _ _, Function.update_of_ne old _ _⟩
  simp only [if_neg outside]
  exact within.1

theorem Owns.allocate {other : π} (owns : h.Owns a other) : h'.Owns a other := by
  obtain ⟨id, within, start, made⟩ := owns
  obtain ⟨within', start', made'⟩ := within.allocate numbered result
  exact ⟨id, within', start'.trans start, made'.trans made⟩

/-- The new allocation has its whole region. -/
theorem within_new (member : a ∈ region) :
    h'.Within a h.count ∧ h'.start h.count = first ∧ h'.purpose h.count = purpose := by
  obtain ⟨-, rfl⟩ := allocate_eq result
  refine ⟨⟨?_, fun freed => Nat.lt_irrefl _ (numbered.freed_lt freed)⟩, Function.update_self _ _ _,
    Function.update_self _ _ _⟩
  simp only [if_pos member]

theorem owns_new (member : first ∈ region) : h'.Owns first purpose := by
  obtain ⟨within, start, made⟩ := within_new numbered result member
  exact ⟨h.count, within, start, made⟩

omit numbered in
/-- The new allocation starts where none in use did. -/
theorem not_owns_new (member : first ∈ region) {other : π} : ¬ h.Owns first other := by
  rintro ⟨id, within, -⟩
  obtain ⟨available, -⟩ := allocate_eq result
  have free := available first member
  rw [within.not_available] at free
  exact absurd free (by decide)

end Allocate

theorem Valid.allocate (valid : h.Valid) (result : h.allocate first region purpose = some h') :
    h'.Valid := by
  have numbered := valid.numbered.allocate result
  refine ⟨numbered.home_lt, numbered.freed_lt, ?_⟩
  obtain ⟨-, rfl⟩ := allocate_eq result
  exact valid.once

/-- Nothing but allocations leads from one history to the other. -/
structure Extends (h h' : Allocations α π) : Prop where
  valid : h'.Valid
  freed : h'.freed = h.freed
  kept : ∀ {a id}, h.Within a id → h'.Within a id ∧ h'.start id = h.start id ∧
    h'.purpose id = h.purpose id

omit [DecidableEq α] in
theorem Extends.refl (valid : h.Valid) : h.Extends h :=
  ⟨valid, rfl, fun within => ⟨within, rfl, rfl⟩⟩

omit [DecidableEq α] in
theorem Extends.trans {mid : Allocations α π} (first : h.Extends mid) (second : mid.Extends h') :
    h.Extends h' := by
  refine ⟨second.valid, second.freed.trans first.freed, fun within => ?_⟩
  obtain ⟨withinMid, startMid, purposeMid⟩ := first.kept within
  obtain ⟨within', start', purpose'⟩ := second.kept withinMid
  exact ⟨within', start'.trans startMid, purpose'.trans purposeMid⟩

theorem Extends.of_allocate (valid : h.Valid) (result : h.allocate first region purpose = some h') :
    h.Extends h' := by
  refine ⟨valid.allocate result, ?_, fun within => within.allocate valid.numbered result⟩
  obtain ⟨-, rfl⟩ := allocate_eq result
  rfl

omit [DecidableEq α] in
theorem Extends.owns (extended : h.Extends h') (owns : h.Owns a purpose) : h'.Owns a purpose := by
  obtain ⟨id, within, start, made⟩ := owns
  obtain ⟨within', start', made'⟩ := extended.kept within
  exact ⟨id, within', start'.trans start, made'.trans made⟩

/-! ## Passing back -/

@[simp] theorem free_home (a : α) : (h.free a).home = h.home := by
  rw [free]
  split
  · rfl
  · split <;> rfl

@[simp] theorem free_start (a : α) : (h.free a).start = h.start := by
  rw [free]
  split
  · rfl
  · split <;> rfl

@[simp] theorem free_purpose (a : α) : (h.free a).purpose = h.purpose := by
  rw [free]
  split
  · rfl
  · split <;> rfl

@[simp] theorem free_count (a : α) : (h.free a).count = h.count := by
  rw [free]
  split
  · rfl
  · split <;> rfl

theorem mem_freed_free (a : α) : id ∈ (h.free a).freed ↔ id ∈ h.freed ∨
    h.home a = some id ∧ h.start id = a := by
  rw [free]
  split
  · rename_i home
    simp [home]
  · rename_i other home
    split
    · rename_i start
      rw [List.mem_cons, home, Option.some.injEq]
      constructor
      · rintro (rfl | old)
        · exact .inr ⟨rfl, start⟩
        · exact .inl old
      · rintro (old | ⟨rfl, -⟩)
        · exact .inr old
        · exact .inl rfl
    · rename_i start
      rw [home, Option.some.injEq]
      constructor
      · exact .inl
      · rintro (old | ⟨rfl, start'⟩)
        · exact old
        · exact absurd start' start

@[simp] theorem freeAll_home (addresses : List α) : (h.freeAll addresses).home = h.home := by
  induction addresses generalizing h with
  | nil => rfl
  | cons a rest ih => exact ih.trans (free_home a)

@[simp] theorem freeAll_start (addresses : List α) : (h.freeAll addresses).start = h.start := by
  induction addresses generalizing h with
  | nil => rfl
  | cons a rest ih => exact ih.trans (free_start a)

@[simp] theorem freeAll_purpose (addresses : List α) :
    (h.freeAll addresses).purpose = h.purpose := by
  induction addresses generalizing h with
  | nil => rfl
  | cons a rest ih => exact ih.trans (free_purpose a)

@[simp] theorem freeAll_count (addresses : List α) : (h.freeAll addresses).count = h.count := by
  induction addresses generalizing h with
  | nil => rfl
  | cons a rest ih => exact ih.trans (free_count a)

/-- An allocation is passed back exactly through its start. -/
theorem mem_freed_freeAll (addresses : List α) :
    id ∈ (h.freeAll addresses).freed ↔ id ∈ h.freed ∨ h.home (h.start id) = some id ∧
    h.start id ∈ addresses := by
  induction addresses generalizing h with
  | nil => simp [freeAll]
  | cons a rest ih =>
    rw [freeAll, List.foldl_cons, ← freeAll, ih, mem_freed_free, free_home,
      free_start, List.mem_cons, or_assoc]
    constructor
    · rintro (old | ⟨home, rfl⟩ | ⟨home, member⟩)
      · exact .inl old
      · exact .inr ⟨home, .inl rfl⟩
      · exact .inr ⟨home, .inr member⟩
    · rintro (old | ⟨home, here | member⟩)
      · exact .inl old
      · exact .inr (.inl ⟨here ▸ home, here⟩)
      · exact .inr (.inr ⟨home, member⟩)

/-- Passing back distinct starts of allocations in use keeps the history valid. -/
theorem Valid.freeAll {addresses : List α} (valid : h.Valid) (nodup : addresses.Nodup)
    (inUse : ∀ a ∈ addresses, ∀ id, h.home a = some id → h.start id = a → id ∉ h.freed) :
    (h.freeAll addresses).Valid := by
  refine ⟨fun home => ?_, fun freed => ?_, ?_⟩
  · rw [freeAll_home] at home
    rw [freeAll_count]
    exact valid.home_lt home
  · rw [freeAll_count]
    rcases (mem_freed_freeAll addresses).mp freed with old | ⟨home, -⟩
    · exact valid.freed_lt old
    · exact valid.home_lt home
  · have once := valid.once
    clear valid
    induction addresses generalizing h with
    | nil => exact once
    | cons a rest ih =>
      obtain ⟨notIn, nodupRest⟩ := List.nodup_cons.mp nodup
      apply ih nodupRest
      · intro b member id home start
        rw [free_home] at home
        rw [free_start] at start
        rw [mem_freed_free]
        rintro (old | ⟨home', start'⟩)
        · exact inUse b (List.mem_cons_of_mem a member) id home start old
        · exact notIn (start'.symm.trans start ▸ member)
      · rw [free]
        split
        · exact once
        · rename_i id home
          split
          · rename_i start
            exact List.nodup_cons.mpr ⟨inUse a List.mem_cons_self id home start, once⟩
          · exact once

/-- An allocation whose start is not passed back stays in use. -/
theorem Within.freeAll {addresses : List α} (within : h.Within a id)
    (kept : h.start id ∉ addresses) : (h.freeAll addresses).Within a id := by
  refine ⟨by rw [freeAll_home]; exact within.1, fun freed => ?_⟩
  rcases (mem_freed_freeAll addresses).mp freed with old | ⟨-, member⟩
  · exact within.2 old
  · exact kept member

theorem Owns.freeAll {addresses : List α} {purpose : π} (owns : h.Owns a purpose)
    (kept : a ∉ addresses) : (h.freeAll addresses).Owns a purpose := by
  obtain ⟨id, within, start, made⟩ := owns
  refine ⟨id, within.freeAll (start ▸ kept), ?_, ?_⟩
  · rw [freeAll_start]
    exact start
  · rw [freeAll_purpose]
    exact made

/-! ## What is in use -/

omit [DecidableEq α] in
/-- Every allocation from number `base` on that is in use is one whose start somebody holds. -/
def Accounted (h : Allocations α π) (base : ℕ) (held : α → Prop) : Prop :=
  ∀ id, base ≤ id → id < h.count → id ∉ h.freed → h.Within (h.start id) id ∧ held (h.start id)

variable {base : ℕ} {held held' : α → Prop}

omit [DecidableEq α] in
theorem Accounted.mono (accounted : h.Accounted base held) (more : ∀ a, held a → held' a) :
    h.Accounted base held' :=
  fun id new made inUse => ⟨(accounted id new made inUse).1, more _ (accounted id new made inUse).2⟩

/-- A new allocation must be held by somebody. -/
theorem Accounted.allocate (accounted : h.Accounted base held) (numbered : h.Numbered)
    (result : h.allocate first region purpose = some h') (member : first ∈ region) :
    h'.Accounted base fun a => held a ∨ a = first := by
  intro id new made inUse
  have next : h'.count = h.count + 1 ∧ h'.freed = h.freed := by
    obtain ⟨-, rfl⟩ := allocate_eq result
    exact ⟨rfl, rfl⟩
  rcases Nat.lt_succ_iff_lt_or_eq.mp (next.1 ▸ made) with old | rfl
  · obtain ⟨within, held⟩ := accounted id new old (next.2 ▸ inUse)
    obtain ⟨within', start, -⟩ := within.allocate numbered result
    rw [start]
    exact ⟨within', .inl held⟩
  · obtain ⟨within, start, -⟩ := within_new numbered result member
    rw [start]
    exact ⟨within, .inr rfl⟩

/-- What is passed back need no longer be held. -/
theorem Accounted.freeAll {addresses : List α} (accounted : h.Accounted base held)
    (kept : ∀ a, held a → a ∉ addresses → held' a) :
    (h.freeAll addresses).Accounted base held' := by
  intro id new made inUse
  rw [freeAll_count] at made
  rw [mem_freed_freeAll] at inUse
  obtain ⟨notBefore, notNow⟩ := not_or.mp inUse
  obtain ⟨within, held⟩ := accounted id new made notBefore
  have start : h.start id ∉ addresses := fun member => notNow ⟨within.1, member⟩
  rw [freeAll_start]
  exact ⟨within.freeAll start, kept _ held start⟩

omit [DecidableEq α] in
/-- Where nothing is held, everything has been passed back. -/
theorem Accounted.all_freed (accounted : h.Accounted base held) (nothing : ∀ a, ¬ held a) {id : ℕ}
    (new : base ≤ id) (made : id < h.count) : id ∈ h.freed :=
  by_contra fun inUse => nothing _ (accounted id new made inUse).2

end Allocations

end OscKernel.Lib
