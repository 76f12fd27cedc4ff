import Mathlib.Data.List.Chain

/-! # Linked rings and chains

Two partial link maps hold a doubly linked ring when following `next` around the listed nodes comes
back to the first and `prev` undoes each step. Rotating the list, inserting a node before the first
and unlinking the first are the rules; the last two give the maps after the pointer updates. A chain
follows `next` alone, down to no node.
-/

namespace OscKernel.Lib

variable {α : Type*}

/-- Consecutive nodes point at each other. -/
def Links (next prev : α → Option α) (nodes : List α) : Prop :=
  nodes.IsChain fun x y => next x = some y ∧ prev y = some x

/-- The nodes, in order, form a ring. -/
def Ring (next prev : α → Option α) : List α → Prop
  | [] => True
  | first :: rest => Links next prev (first :: rest ++ [first])

/-- The nodes are reached from the pointer by following `next`, which then ends. -/
def Chain (next : α → Option α) : Option α → List α → Prop
  | pointer, [] => pointer = none
  | pointer, node :: rest => pointer = some node ∧ Chain next (next node) rest

variable {next prev next' prev' : α → Option α}

theorem links_split {before after : List α} {node : α} :
    Links next prev (before ++ node :: after) ↔
      Links next prev (before ++ [node]) ∧ Links next prev (node :: after) :=
  List.isChain_split

theorem links_pair {x y : α} : Links next prev [x, y] ↔ next x = some y ∧ prev y = some x :=
  List.isChain_pair

/-- Following `next` from the first node reaches every other. -/
theorem Links.reaches {first node : α} {rest : List α} (links : Links next prev (first :: rest))
    (member : node ∈ first :: rest) :
    ∃ n, (fun pointer => pointer.bind next)^[n] (some first) = some node := by
  induction rest generalizing first with
  | nil => exact ⟨0, congrArg some (List.mem_singleton.mp member).symm⟩
  | cons second rest ih =>
    obtain ⟨⟨following, -⟩, links⟩ := List.isChain_cons_cons.mp links
    rcases List.mem_cons.mp member with rfl | later
    · exact ⟨0, rfl⟩
    · obtain ⟨n, reached⟩ := ih links later
      refine ⟨n + 1, ?_⟩
      rw [Function.iterate_succ_apply, Option.bind_some, following]
      exact reached

/-- Only the links between the listed nodes matter. -/
theorem Links.congr {before : List α} {last : α} (links : Links next prev (before ++ [last]))
    (sameNext : ∀ x ∈ before, next' x = next x)
    (samePrev : ∀ x ∈ (before ++ [last]).tail, prev' x = prev x) :
    Links next' prev' (before ++ [last]) := by
  induction before with
  | nil => exact List.isChain_singleton last
  | cons first rest ih =>
    obtain ⟨second, tail, shape⟩ : ∃ second tail, rest ++ [last] = second :: tail :=
      List.exists_cons_of_ne_nil (by simp)
    rw [Links, List.cons_append, shape, List.isChain_cons_cons] at links ⊢
    rw [← shape] at links ⊢
    rw [List.cons_append, List.tail_cons, shape] at samePrev
    refine ⟨⟨(sameNext first List.mem_cons_self).trans links.1.1, ?_⟩, ?_⟩
    · exact (samePrev second List.mem_cons_self).trans links.1.2
    · apply ih links.2
      · exact fun x member => sameNext x (List.mem_cons_of_mem first member)
      · intro x member
        rw [shape] at member
        exact samePrev x (List.mem_cons_of_mem second member)

namespace Ring

theorem rotate {first : α} {rest : List α} (ring : Ring next prev (first :: rest)) :
    Ring next prev (rest ++ [first]) := by
  cases rest with
  | nil => exact ring
  | cons second rest =>
    rw [Ring, List.cons_append, List.cons_append, Links, List.isChain_cons_cons] at ring
    change Links next prev (second :: rest ++ [first] ++ [second])
    rw [List.append_assoc, List.singleton_append, links_split, links_pair]
    exact ⟨ring.2, ring.1⟩

theorem rotate_append {before after : List α} (ring : Ring next prev (before ++ after)) :
    Ring next prev (after ++ before) := by
  induction before generalizing after with
  | nil => rwa [List.append_nil]
  | cons first rest ih =>
    have rotated : Ring next prev (rest ++ after ++ [first]) := ring.rotate
    rw [List.append_assoc] at rotated
    have moved := ih rotated
    rwa [List.append_assoc, List.singleton_append] at moved

variable {first last node : α} {before rest : List α}

/-- The last node is the one before the first. -/
theorem ends (ring : Ring next prev (first :: rest)) (shape : first :: rest = before ++ [last]) :
    next last = some first ∧ prev first = some last := by
  rw [Ring, shape, List.append_assoc, List.singleton_append, links_split, links_pair] at ring
  exact ring.2

/-- The second node, which is the first again when the ring has one node, follows the first. -/
theorem next_first (ring : Ring next prev (first :: rest)) :
    ∃ second, (rest ++ [first]).head? = some second ∧ next first = some second ∧
      prev second = some first := by
  obtain ⟨second, tail, shape⟩ : ∃ second tail, rest ++ [first] = second :: tail :=
    List.exists_cons_of_ne_nil (by simp)
  rw [Ring, List.cons_append, shape, Links, List.isChain_cons_cons] at ring
  exact ⟨second, by rw [shape]; rfl, ring.1⟩

/-- Following `next` stays in the ring. -/
theorem next_mem {nodes : List α} (ring : Ring next prev nodes) (member : node ∈ nodes) :
    ∃ following ∈ nodes, next node = some following := by
  obtain ⟨before, after, rfl⟩ := List.append_of_mem member
  have rotated : Ring next prev (node :: (after ++ before)) := ring.rotate_append
  obtain ⟨following, head, links, -⟩ := rotated.next_first
  refine ⟨following, ?_, links⟩
  have inside : following ∈ after ++ before ++ [node] := List.mem_of_mem_head? head
  simp only [List.mem_append, List.mem_cons, List.not_mem_nil, or_false] at inside ⊢
  rcases inside with (inAfter | inBefore) | rfl
  · exact .inr (.inr inAfter)
  · exact .inl inBefore
  · exact .inr (.inl rfl)

/-- A node enters between the last and the first. -/
theorem insert (ring : Ring next prev (first :: rest)) (shape : first :: rest = before ++ [last])
    (nodup : (first :: rest).Nodup) (new : node ∉ first :: rest)
    (nextLast : next' last = some node) (nextNode : next' node = some first)
    (prevNode : prev' node = some last) (prevFirst : prev' first = some node)
    (sameNext : ∀ x, x ≠ last → x ≠ node → next' x = next x)
    (samePrev : ∀ x, x ≠ first → x ≠ node → prev' x = prev x) :
    Ring next' prev' (first :: rest ++ [node]) := by
  have body : Links next prev (before ++ [last]) := by
    rw [Ring, shape, List.append_assoc, List.singleton_append, links_split] at ring
    exact ring.1
  change Links next' prev' (first :: rest ++ [node] ++ [first])
  rw [List.append_assoc, List.singleton_append, links_split, links_pair]
  refine ⟨?_, nextNode, prevFirst⟩
  rw [shape, List.append_assoc, List.singleton_append, links_split, links_pair]
  refine ⟨body.congr (fun x member => ?_) (fun x member => ?_), nextLast, prevNode⟩
  · rw [shape] at nodup new
    apply sameNext
    · rintro rfl
      exact (List.nodup_append.mp nodup).2.2 x member x (List.mem_singleton_self x) rfl
    · rintro rfl
      exact new (List.mem_append_left _ member)
  · rw [← shape, List.tail_cons] at member
    apply samePrev
    · rintro rfl
      exact (List.nodup_cons.mp nodup).1 member
    · rintro rfl
      exact new (List.mem_cons_of_mem _ member)

/-- The first node leaves a ring of at least two. -/
theorem remove (ring : Ring next prev (node :: first :: rest))
    (shape : first :: rest = before ++ [last]) (nodup : (node :: first :: rest).Nodup)
    (nextLast : next' last = some first) (prevFirst : prev' first = some last)
    (sameNext : ∀ x, x ≠ last → x ≠ node → next' x = next x)
    (samePrev : ∀ x, x ≠ first → x ≠ node → prev' x = prev x) :
    Ring next' prev' (first :: rest) := by
  obtain ⟨absent, nodupRest⟩ := List.nodup_cons.mp nodup
  have body : Links next prev (before ++ [last]) := by
    rw [Ring, List.cons_append, List.cons_append, Links, List.isChain_cons_cons,
      ← List.cons_append, shape] at ring
    have tail : Links next prev (before ++ [last] ++ [node]) := ring.2
    rw [List.append_assoc, List.singleton_append, links_split] at tail
    exact tail.1
  rw [Ring, shape, List.append_assoc, List.singleton_append, links_split, links_pair]
  refine ⟨body.congr (fun x member => ?_) (fun x member => ?_), nextLast, prevFirst⟩
  · rw [shape] at absent nodupRest
    apply sameNext
    · rintro rfl
      exact (List.nodup_append.mp nodupRest).2.2 x member x (List.mem_singleton_self x) rfl
    · rintro rfl
      exact absent (List.mem_append_left _ member)
  · rw [← shape, List.tail_cons] at member
    apply samePrev
    · rintro rfl
      exact (List.nodup_cons.mp nodupRest).1 member
    · rintro rfl
      exact absent (List.mem_cons_of_mem _ member)

end Ring

/-- Only the links of the listed nodes matter to a chain. -/
theorem Chain.congr {pointer : Option α} {nodes : List α} (chain : Chain next pointer nodes)
    (same : ∀ x ∈ nodes, next' x = next x) : Chain next' pointer nodes := by
  induction nodes generalizing pointer with
  | nil => exact chain
  | cons node rest ih =>
    refine ⟨chain.1, ?_⟩
    rw [same node List.mem_cons_self]
    exact ih chain.2 fun x member => same x (List.mem_cons_of_mem node member)

end OscKernel.Lib
