import Mathlib.Data.List.Nodup
import Mathlib.Logic.Function.Basic

/-! # Singly linked lists

A place holds a pointer to a node: `none` is the head pointer, `some a` the `next` field of the node
`a`. `Linked link p l` says that following the pointers from the place `p` meets exactly the nodes
`l`. A walk with a pointer to a place stops at the first node that meets a condition, and an
insertion writes two places.
-/

namespace OscKernel.Lib

variable {α : Type*}

/-- The nodes met from a place on. -/
def Linked (link : Option α → Option α) : Option α → List α → Prop
  | p, [] => link p = none
  | p, a :: rest => link p = some a ∧ Linked link (some a) rest

/-- The place after the last of some nodes. -/
def lastPlace : Option α → List α → Option α
  | p, [] => p
  | _, a :: rest => lastPlace (some a) rest

/-- The first place from `p` on whose node meets the condition, or that points to none. -/
def walk (link : Option α → Option α) (stop : α → Bool) : ℕ → Option α → Option (Option α)
  | 0, _ => none
  | fuel + 1, p =>
    match link p with
    | none => some p
    | some a => if stop a then some p else walk link stop fuel (some a)

namespace Linked

variable {link link' : Option α → Option α} {p : Option α} {l : List α}

theorem unique {l' : List α} (chain : Linked link p l) (other : Linked link p l') : l = l' := by
  induction l generalizing p l' with
  | nil =>
    cases l' with
    | nil => rfl
    | cons a rest => exact absurd (chain.symm.trans other.1) (by simp)
  | cons a rest ih =>
    cases l' with
    | nil => exact absurd (other.symm.trans chain.1) (by simp)
    | cons b rest' =>
      obtain rfl := Option.some.inj (chain.1.symm.trans other.1)
      rw [ih chain.2 other.2]

/-- Only the places of the chain matter. -/
theorem congr (chain : Linked link p l) (here : link' p = link p)
    (same : ∀ a ∈ l, link' (some a) = link (some a)) :
    Linked link' p l := by
  induction l generalizing p with
  | nil => exact here.trans chain
  | cons a rest ih =>
    obtain ⟨first, later⟩ := List.forall_mem_cons.mp same
    exact ⟨here.trans chain.1, ih chain.2 first later⟩

private theorem lastPlace_mem (p : Option α) (l : List α) : lastPlace p l = p ∨
    ∃ a ∈ l, lastPlace p l = some a := by
  induction l generalizing p with
  | nil => exact .inl rfl
  | cons a rest ih =>
    rcases ih (some a) with here | ⟨b, member, later⟩
    · exact .inr ⟨a, List.mem_cons_self, here⟩
    · exact .inr ⟨b, List.mem_cons_of_mem a member, later⟩

/-- A walk with enough fuel stops before the first node that meets the condition. -/
theorem walk_eq {stop : α → Bool} {fuel : ℕ} (chain : Linked link p l) (enough : l.length < fuel) :
    walk link stop fuel p = some (lastPlace p (l.takeWhile fun a => !stop a)) := by
  induction l generalizing p fuel with
  | nil =>
    obtain ⟨n, rfl⟩ := Nat.exists_eq_succ_of_ne_zero (Nat.ne_of_gt enough)
    have missing : link p = none := chain
    simp only [walk, missing, List.takeWhile_nil, lastPlace]
  | cons a rest ih =>
    obtain ⟨n, rfl⟩ := Nat.exists_eq_succ_of_ne_zero (Nat.ne_zero_of_lt enough)
    obtain ⟨first, later⟩ := chain
    have shorter : rest.length < n := Nat.lt_of_succ_lt_succ enough
    cases stops : stop a with
    | true => simp [walk, first, stops, lastPlace]
    | false => simp [walk, first, stops, lastPlace, ih later shorter]

/-- The last node points to none. -/
theorem last {a : α} {before : List α} (chain : Linked link p (before ++ [a])) :
    link (some a) = none := by
  induction before generalizing p with
  | nil => exact chain.2
  | cons b before ih => exact ih chain.2

section Insert

variable [DecidableEq α] {a : α} {before after : List α}

/-- Linking a new node between two parts of a chain. -/
theorem insert (chain : Linked link p (before ++ after)) (distinct : (before ++ after).Nodup)
    (outside : ∀ b ∈ before ++ after, p ≠ some b)
    (fresh : a ∉ before ++ after) (notHere : p ≠ some a) :
    Linked (Function.update (Function.update link (some a) (link (lastPlace p before)))
      (lastPlace p before) (some a)) p
      (before ++ a :: after) := by
  induction before generalizing p with
  | nil =>
    refine ⟨Function.update_self _ _ _, ?_⟩
    apply (show Linked (Function.update link (some a) (link p)) (some a) after from ?_).congr
    · rw [lastPlace, Function.update_of_ne notHere.symm]
    · intro b member
      rw [lastPlace, Function.update_of_ne (outside b member).symm]
    · have kept : ∀ b ∈ after, Function.update link (some a) (link p) (some b) = link (some b) := by
        intro b member
        apply Function.update_of_ne
        rintro ⟨⟩
        exact fresh member
      cases after with
      | nil => exact (Function.update_self _ _ _).trans chain
      | cons b rest =>
        obtain ⟨here, later⟩ := List.forall_mem_cons.mp kept
        exact ⟨(Function.update_self _ _ _).trans chain.1, chain.2.congr here later⟩
  | cons b before ih =>
    obtain ⟨notIn, distinct⟩ := List.nodup_cons.mp distinct
    have later := ih chain.2 distinct (fun c member same => notIn (Option.some.inj same ▸ member))
      (fun member => fresh (List.mem_cons_of_mem b member))
      (fun same => fresh (Option.some.inj same ▸ List.mem_cons_self))
    refine ⟨?_, later⟩
    have elsewhere : p ≠ lastPlace (some b) before := by
      intro same
      rcases lastPlace_mem (some b) before with here | ⟨c, member, there⟩
      · exact outside b List.mem_cons_self (same.trans here)
      · exact outside c (List.mem_cons_of_mem b (List.mem_append_left after member))
          (same.trans there)
    rw [lastPlace, Function.update_of_ne elsewhere, Function.update_of_ne notHere]
    exact chain.1

/-- Clearing the pointer of a node cuts the chain after it. -/
theorem cut (chain : Linked link p (before ++ a :: after)) (distinct : (before ++ a :: after).Nodup)
    (outside : p ≠ some a) : Linked (Function.update link (some a) none) p (before ++ [a]) := by
  induction before generalizing p with
  | nil => exact ⟨(Function.update_of_ne outside _ _).trans chain.1, Function.update_self _ _ _⟩
  | cons b before ih =>
    obtain ⟨notIn, distinct⟩ := List.nodup_cons.mp distinct
    have different : some b ≠ some a := by
      rintro ⟨⟩
      exact notIn (List.mem_append_right before List.mem_cons_self)
    exact ⟨(Function.update_of_ne outside _ _).trans chain.1, ih chain.2 distinct different⟩

end Insert

end Linked

end OscKernel.Lib
