import Mathlib.Data.List.Basic
import OscKernel.Lib.System

/-! # Sequential programs on a line

A program reads the items that arrive one after the other, writes items and changes a store. It runs
beside a line that puts items into its queue at any time (`machine`). What it did in an interleaving
is a run of the program on the items that it read (`Runs`), and these were read in the order in
which they were put there. Assertions about every point of every run are established along the
program (`Meets`); left alone, it stops or waits for the line (`Runs.settle`).
-/

namespace OscKernel.Lib

inductive Dialogue (ι ο σ α : Type*) where
  | done (result : α)
  /-- An endless loop that does nothing. -/
  | halt
  | read (next : ι → Dialogue ι ο σ α)
  | write (item : ο) (next : Dialogue ι ο σ α)
  | update (change : σ → σ) (next : Dialogue ι ο σ α)

namespace Dialogue

variable {ι ο σ : Type*}

def bind {α β : Type*} : Dialogue ι ο σ α → (α → Dialogue ι ο σ β) → Dialogue ι ο σ β
  | done result, f => f result
  | halt, _ => halt
  | read next, f => read fun i => (next i).bind f
  | write item next, f => write item (next.bind f)
  | update change next, f => update change (next.bind f)

instance : Monad (Dialogue ι ο σ) where
  pure := done
  bind := bind

variable {α β : Type*}

/-- Writes the items of a list. -/
def writeAll : List ο → Dialogue ι ο σ Unit
  | [] => done ()
  | item :: rest => write item (writeAll rest)

/-! ## Runs -/

/-- The program reads the first list of items and writes the second, and a program is left. -/
inductive Runs : Dialogue ι ο σ α → σ → List ι → List ο → Dialogue ι ο σ α → σ → Prop
  | nil (p : Dialogue ι ο σ α) (s : σ) : Runs p s [] [] p s
  | read {next : ι → Dialogue ι ο σ α} {q : Dialogue ι ο σ α} {s t : σ} {i : ι}
      {is : List ι} {os : List ο} :
      Runs (next i) s is os q t → Runs (read next) s (i :: is) os q t
  | write {next q : Dialogue ι ο σ α} {s t : σ} {item : ο} {is : List ι} {os : List ο} :
      Runs next s is os q t → Runs (write item next) s is (item :: os) q t
  | update {change : σ → σ} {next q : Dialogue ι ο σ α} {s t : σ} {is : List ι} {os : List ο} :
      Runs next (change s) is os q t → Runs (update change next) s is os q t

section Runs

/-- The program has stopped, or waits with nothing left to read. -/
def Settled : Dialogue ι ο σ α → List ι → Prop
  | done _, _ | halt, _ => True
  | read _, rest => rest = []
  | write _ _, _ | update _ _, _ => False

/-- On any items the program comes to a point where it has stopped or has read all of them. -/
theorem Runs.settle (p : Dialogue ι ο σ α) (s : σ) (items : List ι) :
    ∃ is rest os q t, items = is ++ rest ∧ Runs p s is os q t ∧ q.Settled rest := by
  induction p generalizing s items with
  | done result => exact ⟨[], items, [], _, s, rfl, .nil _ s, trivial⟩
  | halt => exact ⟨[], items, [], _, s, rfl, .nil _ s, trivial⟩
  | read next ih =>
    cases items with
    | nil => exact ⟨[], [], [], _, s, rfl, .nil _ s, rfl⟩
    | cons i items =>
      obtain ⟨is, rest, os, q, t, rfl, runs, settled⟩ := ih i s items
      exact ⟨i :: is, rest, os, q, t, rfl, .read runs, settled⟩
  | write item next ih =>
    obtain ⟨is, rest, os, q, t, same, runs, settled⟩ := ih s items
    exact ⟨is, rest, item :: os, q, t, same, .write runs, settled⟩
  | update change next ih =>
    obtain ⟨is, rest, os, q, t, same, runs, settled⟩ := ih (change s) items
    exact ⟨is, rest, os, q, t, same, .update runs, settled⟩

end Runs

/-! ## Assertions -/

/-- What is asserted of the items read and written and of the store: where the program waits for an
item, where it writes one or changes the store, when it has halted and when it has ended. -/
structure Assertions (ι ο σ α : Type*) where
  waiting : List ι → List ο → σ → Prop
  busy : List ι → List ο → σ → Prop
  halted : List ι → List ο → σ → Prop
  ended : List ι → List ο → α → σ → Prop

namespace Assertions

/-- The assertions of what comes after these items. -/
def after (A : Assertions ι ο σ α) (is : List ι) (os : List ο) : Assertions ι ο σ α where
  waiting is' os' := A.waiting (is ++ is') (os ++ os')
  busy is' os' := A.busy (is ++ is') (os ++ os')
  halted is' os' := A.halted (is ++ is') (os ++ os')
  ended is' os' := A.ended (is ++ is') (os ++ os')

theorem after_after (A : Assertions ι ο σ α) (is is' : List ι) (os os' : List ο) :
    (A.after is os).after is' os' = A.after (is ++ is') (os ++ os') := by
  simp only [after, List.append_assoc]

/-- The assertion for a program that is left. -/
def holds (A : Assertions ι ο σ α) (is : List ι) (os : List ο) : Dialogue ι ο σ α → σ → Prop
  | done result, t => A.ended is os result t
  | .halt, t => A.halted is os t
  | .read _, t => A.waiting is os t
  | .write _ _, t | .update _ _, t => A.busy is os t

end Assertions

/-- The assertions hold at every point of every run. -/
def Meets : Dialogue ι ο σ α → σ → Assertions ι ο σ α → Prop
  | done result, s, A => A.ended [] [] result s
  | halt, s, A => A.halted [] [] s
  | read next, s, A => A.waiting [] [] s ∧ ∀ i, (next i).Meets s (A.after [i] [])
  | write item next, s, A => A.busy [] [] s ∧ next.Meets s (A.after [] [item])
  | update change next, s, A => A.busy [] [] s ∧ next.Meets (change s) A

section Meets

variable {p q : Dialogue ι ο σ α} {s t : σ} {is : List ι} {os : List ο} {A : Assertions ι ο σ α}

theorem Meets.holds_start (meets : p.Meets s A) : A.holds [] [] p s := by
  cases p with
  | done result => exact meets
  | halt => exact meets
  | read next => exact meets.1
  | write item next => exact meets.1
  | update change next => exact meets.1

theorem Meets.holds (meets : p.Meets s A) (runs : Runs p s is os q t) : A.holds is os q t := by
  induction runs generalizing A with
  | nil => exact meets.holds_start
  | @read next q s t i is os _ ih =>
    have later := ih (meets.2 i)
    cases q <;> exact later
  | @write next q s t item is os _ ih =>
    have later := ih meets.2
    cases q <;> exact later
  | update _ ih => exact ih meets.2

/-- The assertions of the first program, up to its end, imply those of the whole. -/
structure Assertions.Below (A : Assertions ι ο σ α) (B : Assertions ι ο σ β) : Prop where
  waiting : ∀ is os t, A.waiting is os t → B.waiting is os t
  busy : ∀ is os t, A.busy is os t → B.busy is os t
  halted : ∀ is os t, A.halted is os t → B.halted is os t

theorem Assertions.Below.after {B : Assertions ι ο σ β} (below : A.Below B) (is : List ι)
    (os : List ο) : (A.after is os).Below (B.after is os) :=
  ⟨fun _ _ t => below.waiting _ _ t, fun _ _ t => below.busy _ _ t, fun _ _ t => below.halted _ _ t⟩

/-- The rule for one program after another. -/
theorem Meets.bind {f : α → Dialogue ι ο σ β} {B : Assertions ι ο σ β} (first : p.Meets s A)
    (below : A.Below B)
    (next : ∀ is os result t, A.ended is os result t → (f result).Meets t (B.after is os)) :
    (p.bind f).Meets s B := by
  induction p generalizing s A B with
  | done result => exact next [] [] result s first
  | halt => exact below.halted [] [] s first
  | read following ih =>
    refine ⟨below.waiting [] [] s first.1,
      fun i => ih i (first.2 i) (below.after _ _) fun is os result t ended => ?_⟩
    rw [Assertions.after_after]
    exact next _ _ result t ended
  | write item following ih =>
    refine ⟨below.busy [] [] s first.1, ih first.2 (below.after _ _) fun is os result t ended => ?_⟩
    rw [Assertions.after_after]
    exact next _ _ result t ended
  | update change following ih => exact ⟨below.busy [] [] s first.1, ih first.2 below next⟩

/-- The rule of consequence. -/
theorem Meets.mono {B : Assertions ι ο σ α} (meets : p.Meets s A) (below : A.Below B)
    (ended : ∀ is os result t, A.ended is os result t → B.ended is os result t) : p.Meets s B := by
  induction p generalizing s A B with
  | done result => exact ended [] [] result s meets
  | halt => exact below.halted [] [] s meets
  | read next ih =>
    exact ⟨below.waiting [] [] s meets.1,
      fun i => ih i (meets.2 i) (below.after _ _) fun _ _ => ended _ _⟩
  | write item next ih =>
    exact ⟨below.busy [] [] s meets.1, ih meets.2 (below.after _ _) fun _ _ => ended _ _⟩
  | update change next ih => exact ⟨below.busy [] [] s meets.1, ih meets.2 below ended⟩

/-- While the items of a list are written, an initial part of it is out. -/
theorem meets_writeAll (items : List ο) (s : σ) : (writeAll items : Dialogue ι ο σ Unit).Meets s
    ⟨fun _ _ _ => False, fun is os t => is = [] ∧ os <+: items ∧ t = s, fun _ _ _ => False,
      fun is os _ t => is = [] ∧ os = items ∧ t = s⟩ := by
  suffices general : ∀ (before rest : List ο),
      (writeAll rest : Dialogue ι ο σ Unit).Meets s (Assertions.after
      ⟨fun _ _ _ => False, fun is os t => is = [] ∧ os <+: before ++ rest ∧
        t = s, fun _ _ _ => False,
        fun is os _ t => is = [] ∧ os = before ++ rest ∧ t = s⟩ [] before) by
    exact general [] items
  intro before rest
  induction rest generalizing before with
  | nil => exact ⟨rfl, rfl, rfl⟩
  | cons item rest ih =>
    refine ⟨⟨rfl, ?_, rfl⟩, ?_⟩
    · rw [List.append_nil]
      exact List.prefix_append before _
    · have later := ih (before ++ [item])
      rw [List.append_assoc, List.singleton_append] at later
      rw [Assertions.after_after]
      exact later

/-- Two lists written one after the other. -/
theorem writeAll_append (first second : List ο) (f : Unit → Dialogue ι ο σ α) :
    (writeAll first).bind (fun _ => (writeAll second).bind f) =
    (writeAll (first ++ second)).bind f := by
  induction first with
  | nil => rfl
  | cons item rest ih => exact congrArg (write item) ih

end Meets

/-! ## The program and its line -/

/-- A program with its store and the items that arrived and it has not read. -/
structure Station (ι ο σ α : Type*) where
  program : Dialogue ι ο σ α
  store : σ
  queue : List ι

inductive Event (ι ο : Type*) where
  | arrive (i : ι)
  /-- An item arrives and finds the queue full. -/
  | lose (i : ι)
  | read (i : ι)
  | write (item : ο)
  | update

namespace Event

def arrived? : Event ι ο → Option ι
  | arrive i => some i
  | _ => none

/-- The items that the other side sent. -/
def sent? : Event ι ο → Option ι
  | arrive i => some i
  | lose i => some i
  | _ => none

def read? : Event ι ο → Option ι
  | read i => some i
  | _ => none

def written? : Event ι ο → Option ο
  | write item => some item
  | _ => none

end Event

/-- What was not sent does not arrive. -/
theorem arrived_eq_nil {events : List (Event ι ο)} (silent : events.filterMap Event.sent? = []) :
    events.filterMap Event.arrived? = [] := by
  rw [List.filterMap_eq_nil_iff] at silent ⊢
  intro event member
  cases event with
  | arrive i => cases silent _ member
  | _ => rfl

/-- What the line and the program do, with room for so many items in the queue. -/
inductive Step (capacity : ℕ) : Station ι ο σ α → Event ι ο → Station ι ο σ α → Prop
  | arrive {c : Station ι ο σ α} {i : ι} (room : c.queue.length < capacity) :
      Step capacity c (.arrive i) { c with queue := c.queue ++ [i] }
  | lose {c : Station ι ο σ α} {i : ι} (full : capacity ≤ c.queue.length) :
      Step capacity c (.lose i) c
  | read {next : ι → Dialogue ι ο σ α} {s : σ} {i : ι} {rest : List ι} :
      Step capacity ⟨.read next, s, i :: rest⟩ (.read i) ⟨next i, s, rest⟩
  | write {next : Dialogue ι ο σ α} {s : σ} {item : ο} {queue : List ι} :
      Step capacity ⟨.write item next, s, queue⟩ (.write item) ⟨next, s, queue⟩
  | update {change : σ → σ} {next : Dialogue ι ο σ α} {s : σ} {queue : List ι} :
      Step capacity ⟨.update change next, s, queue⟩ .update ⟨next, change s, queue⟩

def machine (capacity : ℕ) : System (Station ι ο σ α) (Event ι ο) := ⟨Step capacity⟩

section Machine

variable {capacity : ℕ} {p q : Dialogue ι ο σ α} {s t : σ} {c d : Station ι ο σ α}
  {events : List (Event ι ο)}

/-- Every interleaving is a run of the program on what it read, which is the first of what was there
and arrived. -/
theorem runs_of_path (path : System.Path (machine capacity) c events d) :
    Runs c.program c.store (events.filterMap Event.read?)
      (events.filterMap Event.written?) d.program d.store ∧
      c.queue ++ events.filterMap Event.arrived? = events.filterMap Event.read? ++ d.queue := by
  induction path with
  | nil c => exact ⟨.nil _ _, List.append_nil _⟩
  | @cons c mid d e events step _ ih =>
    obtain ⟨runs, queue⟩ := ih
    cases step with
    | @arrive i room =>
      refine ⟨runs, ?_⟩
      rw [List.append_assoc] at queue
      exact queue
    | lose full => exact ⟨runs, queue⟩
    | @read next s i rest => exact ⟨.read runs, congrArg (i :: ·) queue⟩
    | write => exact ⟨.write runs, queue⟩
    | update => exact ⟨.update runs, queue⟩

/-- A run on what is in the queue can be taken with nothing arriving. -/
theorem Runs.perform {is : List ι} {os : List ο} (runs : Runs p s is os q t) (rest : List ι) :
    ∃ events, System.Path (machine capacity) ⟨p, s, is ++ rest⟩ events ⟨q, t, rest⟩ ∧
      events.filterMap Event.sent? = [] := by
  induction runs with
  | nil p s => exact ⟨[], .nil _, rfl⟩
  | @read next q s t i is os _ ih =>
    obtain ⟨events, path, sent⟩ := ih
    exact ⟨.read i :: events, .cons .read path, sent⟩
  | @write next q s t item is os _ ih =>
    obtain ⟨events, path, sent⟩ := ih
    exact ⟨.write item :: events, .cons .write path, sent⟩
  | @update change next q s t is os _ ih =>
    obtain ⟨events, path, sent⟩ := ih
    exact ⟨.update :: events, .cons .update path, sent⟩

/-- Where there is room, all that is sent arrives. -/
theorem path_arrive (c : Station ι ο σ α) (items : List ι)
    (room : c.queue.length + items.length ≤ capacity) :
    System.Path (machine capacity) c (items.map Event.arrive)
      { c with queue := c.queue ++ items } := by
  induction items generalizing c with
  | nil =>
    rw [List.append_nil]
    exact .nil c
  | cons i rest ih =>
    rw [List.length_cons] at room
    have later := ih { c with queue := c.queue ++ [i] } (by
      rw [List.length_append, List.length_singleton]
      omega)
    rw [List.append_assoc, List.singleton_append] at later
    exact .cons (.arrive (by omega)) later

theorem sent_arrive (items : List ι) :
    (items.map (@Event.arrive ι ο)).filterMap Event.sent? = items := by
  rw [List.filterMap_map]
  exact List.filterMap_some

theorem arrived_arrive (items : List ι) :
    (items.map (@Event.arrive ι ο)).filterMap Event.arrived? = items := by
  rw [List.filterMap_map]
  exact List.filterMap_some

/-- From every point the program can go on by itself until it has stopped or waits with nothing left
to read. -/
theorem exists_settled (capacity : ℕ) (c : Station ι ο σ α) :
    ∃ events d, System.Path (machine capacity) c events d ∧ events.filterMap Event.sent? = [] ∧
      d.program.Settled d.queue := by
  obtain ⟨is, rest, os, q, t, same, runs, settled⟩ := Runs.settle c.program c.store c.queue
  obtain ⟨events, path, sent⟩ := @Runs.perform _ _ _ _ capacity _ _ _ _ _ _ runs rest
  rw [← same] at path
  exact ⟨events, ⟨q, t, rest⟩, path, sent, settled⟩

end Machine

end Dialogue

end OscKernel.Lib
