import Mathlib.Data.List.Sort
import OscKernel.Lib.System
import OscKernel.Model.PreemptiveTasks

/-! # Preemptive tasks

Each accepted task gets a number, in the order of the calls of `add_task`. A run in which no
callback executes the shell command `exec` keeps the tasks on the stack strictly ordered, serves the
queue by priority and then by number, and starts every task once; the first `exec` of a missing
program already breaks the order, since it sets the current priority while its own task still runs.
-/

namespace OscKernel.Soundness.PreemptiveTasks

open OscKernel.Lib OscKernel.Model
open scoped List

/-! ## Numbered tasks -/

/-- A state with the number of the task in each slot, the priorities of the accepted tasks and the
numbers of the started ones. -/
structure Tracked where
  machine : TaskMachine
  number : Fin 64 → ℕ
  added : List ℤ
  started : List ℕ

/-- The priority that an event passes to `add_task`. -/
def requested : TaskEvent → Option ℤ
  | .timer => some 5
  | .receive _ => some 1
  | .addTask _ _ priority => some priority
  | _ => none

namespace Tracked

def priority (s : Tracked) (i : Fin 64) : ℤ := (s.machine.taskPool i).priority

/-- The step of the machine, with what it accepts and starts. -/
def step (s : Tracked) (event : TaskEvent) : Option Tracked :=
  (s.machine.step event).map fun machine =>
    match requested event with
    | some priority => { s with
        machine := machine
        number := fun i => if s.machine.freeSlot = some i then s.added.length else s.number i
        added := s.added ++ [priority] }
    | none => { s with
        machine := machine
        started :=
          if event = .start then s.started ++ s.machine.taskQueue.head?.toList.map s.number
          else s.started }

/-- The priority of the innermost running task. -/
def innermost (s : Tracked) : List RunFrame → ℤ
  | [] => 999
  | frame :: _ => s.priority frame.idx

end Tracked

def initial : Tracked := ⟨.initial, fun _ => 0, [], []⟩

def transitions : System Tracked TaskEvent := .ofStep Tracked.step

/-- Fewer than 64 tasks are outstanding when one is added, and every callback returns. -/
def Premise (s : Tracked) : TaskEvent → Prop
  | .timer | .receive _ | .addTask _ _ _ =>
    s.machine.taskQueue.length + s.machine.frames.length < 64
  | .exec found => found = false
  | _ => True

instance (s : Tracked) (event : TaskEvent) : Decidable (Premise s event) :=
  match event with
  | .timer | .receive _ | .addTask _ _ _ => inferInstanceAs (Decidable (_ < _))
  | .exec _ => inferInstanceAs (Decidable (_ = _))
  | .trap | .run | .start | .leave | .finish => inferInstanceAs (Decidable True)

/-- The first of two tasks in the queue has a smaller priority number, or was added earlier. -/
def Tracked.Earlier (s : Tracked) (a b : Fin 64) : Prop :=
  s.priority a < s.priority b ∨ s.priority a = s.priority b ∧ s.number a < s.number b

structure Scheduled (s : Tracked) : Prop where
  /-- From the innermost running task outwards the priority numbers grow. -/
  nested : (s.machine.frames.map fun frame => s.priority frame.idx).Pairwise (· < ·)
  below : ∀ frame ∈ s.machine.frames, s.priority frame.idx < 999
  current : s.machine.currentTaskPriority = s.innermost s.machine.frames
  sorted : s.machine.taskQueue.Pairwise s.Earlier
  /-- Every accepted task is in the queue or was started, and none twice. -/
  once : (s.machine.taskQueue.map s.number ++ s.started).Perm (List.range s.added.length)
  least : ∀ t, s.step .start = some t → ∀ frame, t.machine.frames.head? = some frame →
    ∀ i ∈ s.machine.taskQueue, s.priority frame.idx ≤ s.priority i
  /-- When the outermost call has returned. -/
  drained : s.machine.pc = .enabled → s.machine.frames = [] →
    (∀ i ∈ s.machine.taskQueue, 999 ≤ s.priority i) ∧
    ∀ id priority, s.added[id]? = some priority → priority < 999 → id ∈ s.started

/-! ## Adding -/

section Adding

variable {s : TaskMachine} {i : Fin 64} {priority : ℤ}

theorem freeSlot_unused (free : s.freeSlot = some i) : s.taskUsed i = false := by
  have found := List.find?_some free
  simpa using found

/-- A slot is free while not all are listed. -/
private theorem exists_freeSlot {slots : List (Fin 64)}
    (used : ∀ i, s.taskUsed i = true → i ∈ slots) (few : slots.length < 64) :
    ∃ i, s.freeSlot = some i := by
  cases found : s.freeSlot with
  | some i => exact ⟨i, rfl⟩
  | none =>
    have all : List.finRange 64 ⊆ slots := by
      intro i member
      have none := List.find?_eq_none.mp found i member
      apply used
      simpa using none
    have many := ((List.nodup_finRange 64).subperm all).length_le
    rw [List.length_finRange] at many
    omega

theorem addTask_eq (callback : Callback) (arg : Word) (priority : ℤ) (free : s.freeSlot = some i) :
    s.addTask callback arg priority = { s with
      taskUsed := Function.update s.taskUsed i true
      taskPool := Function.update s.taskPool i ⟨priority, callback, arg⟩
      taskQueue := TaskMachine.insertTask s.taskPool i priority s.taskQueue } := by
  simp only [TaskMachine.addTask, free]

/-- The walk of `add_task` stops before the first task with a greater priority number. -/
private theorem insertAfter_eq {pool : Fin 64 → Task} {r : Fin 64 → Fin 64 → Prop} [DecidableRel r]
    (curr : Fin 64) (rest : List (Fin 64))
    (stops : ∀ b ∈ rest, r i b ↔ priority < (pool b).priority) :
    TaskMachine.insertAfter pool i priority curr rest = curr :: rest.orderedInsert r i := by
  induction rest generalizing curr with
  | nil => rfl
  | cons next rest ih =>
    obtain ⟨here, later⟩ := List.forall_mem_cons.mp stops
    by_cases passes : (pool next).priority ≤ priority
    · have stays : ¬ r i next := fun related => absurd (here.mp related) (not_lt.mpr passes)
      simp only [TaskMachine.insertAfter, if_pos passes,
        List.orderedInsert_of_not_le r rest stays, ih next later]
    · have goes : r i next := here.mpr (not_le.mp passes)
      simp only [TaskMachine.insertAfter, if_neg passes, List.orderedInsert_cons_of_le r rest goes]

theorem insertTask_eq {pool : Fin 64 → Task} {r : Fin 64 → Fin 64 → Prop} [DecidableRel r]
    (queue : List (Fin 64)) (stops : ∀ b ∈ queue, r i b ↔ priority < (pool b).priority) :
    TaskMachine.insertTask pool i priority queue = queue.orderedInsert r i := by
  cases queue with
  | nil => rfl
  | cons head rest =>
    obtain ⟨here, later⟩ := List.forall_mem_cons.mp stops
    by_cases first : priority < (pool head).priority
    · simp only [TaskMachine.insertTask, if_pos first,
        List.orderedInsert_cons_of_le r rest (here.mpr first)]
    · have stays : ¬ r i head := fun related => first (here.mp related)
      simp only [TaskMachine.insertTask, if_neg first, List.orderedInsert_of_not_le r rest stays,
        insertAfter_eq head rest later]

theorem insertTask_perm {pool : Fin 64 → Task} (queue : List (Fin 64)) :
    (TaskMachine.insertTask pool i priority queue).Perm (i :: queue) := by
  rw [insertTask_eq (r := fun _ b => priority < (pool b).priority) queue fun _ _ => Iff.rfl]
  exact List.perm_orderedInsert _ _ _

/-- The steps that add a task. -/
private theorem step_adds {t : TaskMachine} {event : TaskEvent}
    (request : requested event = some priority) (result : s.step event = some t) :
    ∃ timer rx callback arg,
      t = { s with sieTimer := timer, ierRx := rx }.addTask callback arg priority ∧
        (s.pc = .enabled → s.frames ≠ []) := by
  cases event with
  | timer =>
    obtain ⟨⟨inTrap, -⟩, same⟩ := Option.ite_none_right_eq_some.mp result
    obtain rfl := Option.some.inj request
    exact ⟨false, s.ierRx, _, _, (Option.some.inj same).symm,
      fun enabled => by rw [inTrap] at enabled; cases enabled⟩
  | receive c =>
    obtain ⟨⟨inTrap, -⟩, same⟩ := Option.ite_none_right_eq_some.mp result
    obtain rfl := Option.some.inj request
    exact ⟨s.sieTimer, false, _, _, (Option.some.inj same).symm,
      fun enabled => by rw [inTrap] at enabled; cases enabled⟩
  | addTask callback arg other =>
    obtain ⟨place, same⟩ := Option.ite_none_right_eq_some.mp result
    obtain rfl := Option.some.inj request
    refine ⟨s.sieTimer, s.ierRx, callback, arg, (Option.some.inj same).symm, fun enabled => ?_⟩
    rcases place with inTrap | ⟨-, nonempty⟩
    · rw [inTrap] at enabled
      cases enabled
    · exact nonempty
  | trap => cases request
  | run => cases request
  | start => cases request
  | leave => cases request
  | finish => cases request
  | exec found => cases request

end Adding

/-! ## The invariant -/

/-- The slots of the queue and of the running tasks. -/
def Tracked.slots (s : Tracked) : List (Fin 64) :=
  s.machine.taskQueue ++ s.machine.frames.map (·.idx)

/-- Each call remembers the priority of the task that it interrupted. -/
def Linked (s : Tracked) : List RunFrame → Prop
  | [] => True
  | frame :: outer =>
    frame.oldPriority = s.innermost outer ∧
      s.priority frame.idx < frame.oldPriority ∧ Linked s outer

structure Sound (s : Tracked) : Prop where
  distinct : s.slots.Nodup
  used : ∀ i, s.machine.taskUsed i = true ↔ i ∈ s.slots
  linked : Linked s s.machine.frames
  current : s.machine.currentTaskPriority = s.innermost s.machine.frames
  sorted : s.machine.taskQueue.Pairwise s.Earlier
  once : (s.machine.taskQueue.map s.number ++ s.started).Perm (List.range s.added.length)
  queued : ∀ i ∈ s.machine.taskQueue, s.added[s.number i]? = some (s.priority i)
  drained : s.machine.pc = .enabled → s.machine.frames = [] →
    ∀ i ∈ s.machine.taskQueue, 999 ≤ s.priority i

theorem sound_initial : Sound initial where
  distinct := List.nodup_nil
  used := fun _ =>
    ⟨fun used => absurd used Bool.false_ne_true, fun member => absurd member List.not_mem_nil⟩
  linked := trivial
  current := rfl
  sorted := .nil
  once := .rfl
  queued := fun _ member => absurd member List.not_mem_nil
  drained := fun _ _ _ member => absurd member List.not_mem_nil

section Invariant

variable {s t : Tracked}

theorem innermost_congr {frames : List RunFrame}
    (same : ∀ frame ∈ frames, t.priority frame.idx = s.priority frame.idx) :
    t.innermost frames = s.innermost frames := by
  cases frames with
  | nil => rfl
  | cons frame outer => exact same frame List.mem_cons_self

theorem linked_congr {frames : List RunFrame}
    (same : ∀ frame ∈ frames, t.priority frame.idx = s.priority frame.idx) :
    Linked s frames → Linked t frames := by
  induction frames with
  | nil => exact fun _ => trivial
  | cons frame outer ih =>
    obtain ⟨here, below⟩ := List.forall_mem_cons.mp same
    rintro ⟨old, less, linked⟩
    refine ⟨old.trans (innermost_congr below).symm, ?_, ih below linked⟩
    rw [here]
    exact less

/-- The outer tasks have greater priority numbers, all of them below 999. -/
theorem Linked.ordered {frames : List RunFrame} (linked : Linked s frames) :
    (frames.map fun frame => s.priority frame.idx).Pairwise (· < ·) ∧
      (∀ frame ∈ frames, s.innermost frames ≤ s.priority frame.idx ∧ s.priority frame.idx < 999) ∧
      s.innermost frames ≤ 999 := by
  induction frames with
  | nil => exact ⟨.nil, fun _ member => absurd member List.not_mem_nil, le_refl _⟩
  | cons frame outer ih =>
    obtain ⟨old, less, linked⟩ := linked
    obtain ⟨pairwise, above, top⟩ := ih linked
    have smaller : s.priority frame.idx < s.innermost outer := old ▸ less
    refine ⟨List.pairwise_cons.mpr ⟨?_, pairwise⟩, ?_, ?_⟩
    · intro other member
      obtain ⟨frame', inOuter, rfl⟩ := List.mem_map.mp member
      exact lt_of_lt_of_le smaller (above frame' inOuter).1
    · intro frame' member
      rcases List.mem_cons.mp member with rfl | inOuter
      · exact ⟨le_refl _, lt_of_lt_of_le smaller top⟩
      · exact ⟨le_trans (le_of_lt smaller) (above frame' inOuter).1, (above frame' inOuter).2⟩
    · exact le_trans (le_of_lt smaller) top

theorem Tracked.Earlier.le {a b : Fin 64} (earlier : s.Earlier a b) :
    s.priority a ≤ s.priority b := by
  rcases earlier with less | ⟨equal, -⟩
  · exact le_of_lt less
  · exact le_of_eq equal

theorem Sound.number_lt (sound : Sound s) {i : Fin 64} (member : i ∈ s.machine.taskQueue) :
    s.number i < s.added.length := by
  have listed : s.number i ∈ s.machine.taskQueue.map s.number ++ s.started :=
    List.mem_append_left _ (List.mem_map_of_mem member)
  exact List.mem_range.mp (sound.once.mem_iff.mp listed)

/-- An invariant state is scheduled. -/
theorem Sound.scheduled (sound : Sound s) : Scheduled s := by
  obtain ⟨nested, bounds, -⟩ := sound.linked.ordered
  refine ⟨nested, fun frame member => (bounds frame member).2, sound.current,
    sound.sorted, sound.once, ?_, ?_⟩
  · intro t result frame top i member
    obtain ⟨machine, started, rfl⟩ := Option.map_eq_some_iff.mp result
    simp only [TaskMachine.step] at started
    split at started
    · cases started
    · rename_i first rest queue
      obtain ⟨-, same⟩ := Option.ite_none_right_eq_some.mp started
      obtain rfl := Option.some.inj same
      obtain rfl := Option.some.inj top
      have sorted := sound.sorted
      rw [queue] at sorted member
      rcases List.mem_cons.mp member with rfl | later
      · exact le_refl _
      · exact ((List.pairwise_cons.mp sorted).1 i later).le
  · intro enabled outside
    have waiting := sound.drained enabled outside
    refine ⟨waiting, fun id priority here small => ?_⟩
    have known : id < s.added.length := by
      obtain ⟨bound, -⟩ := List.getElem?_eq_some_iff.mp here
      exact bound
    rcases List.mem_append.mp (sound.once.mem_iff.mpr (List.mem_range.mpr known)) with
      inQueue | done
    · obtain ⟨i, member, rfl⟩ := List.mem_map.mp inQueue
      have same := Option.some.inj ((sound.queued i member).symm.trans here)
      have large := waiting i member
      omega
    · exact done

/-! ## Steps -/

/-- What is asked of a task that is inserted in the queue. -/
theorem Sound.sorted_insert (sound : Sound s) {i : Fin 64} {priority : ℤ}
    (fresh : i ∉ s.machine.taskQueue) (here : t.priority i = priority)
    (last : t.number i = s.added.length)
    (kept : ∀ b, b ≠ i → t.priority b = s.priority b ∧ t.number b = s.number b)
    (queue : t.machine.taskQueue =
      TaskMachine.insertTask s.machine.taskPool i priority s.machine.taskQueue) :
    t.machine.taskQueue.Pairwise t.Earlier := by
  let r : Fin 64 → Fin 64 → Prop := fun a b =>
    t.priority a < t.priority b ∨ t.priority a = t.priority b ∧ t.number a ≤ t.number b
  have total : Std.Total r := ⟨fun a b => by simp only [r]; omega⟩
  have transitive : IsTrans (Fin 64) r := ⟨fun a b c => by simp only [r]; omega⟩
  have decidable : DecidableRel r := fun a b => inferInstanceAs (Decidable (_ ∨ _))
  have old : ∀ b ∈ s.machine.taskQueue, b ≠ i := fun b member same => fresh (same ▸ member)
  have stops : ∀ b ∈ s.machine.taskQueue, r i b ↔ priority < (s.machine.taskPool b).priority := by
    intro b member
    obtain ⟨samePriority, sameNumber⟩ := kept b (old b member)
    have earlier := sound.number_lt member
    simp only [r, here, last, samePriority, sameNumber]
    change _ ↔ priority < s.priority b
    omega
  have before : s.machine.taskQueue.Pairwise r := by
    refine sound.sorted.imp_of_mem fun {a b} memberA memberB earlier => ?_
    obtain ⟨priorityA, numberA⟩ := kept a (old a memberA)
    obtain ⟨priorityB, numberB⟩ := kept b (old b memberB)
    simp only [r, priorityA, numberA, priorityB, numberB]
    exact earlier.imp_right fun ⟨same, less⟩ => ⟨same, le_of_lt less⟩
  have sorted : t.machine.taskQueue.Pairwise r := by
    rw [queue, insertTask_eq s.machine.taskQueue stops]
    exact before.orderedInsert i _
  -- Two tasks in the queue have different numbers.
  have numbers : (t.machine.taskQueue.map t.number).Nodup := by
    have listed : (s.machine.taskQueue.map s.number).Nodup :=
      (List.nodup_append.mp (sound.once.nodup_iff.mpr List.nodup_range)).1
    have same : s.machine.taskQueue.map t.number = s.machine.taskQueue.map s.number :=
      List.map_congr_left fun b member => (kept b (old b member)).2
    rw [queue, ((insertTask_perm s.machine.taskQueue).map t.number).nodup_iff, List.map_cons, same]
    refine List.nodup_cons.mpr ⟨fun member => ?_, listed⟩
    obtain ⟨b, inQueue, equal⟩ := List.mem_map.mp member
    have less := sound.number_lt inQueue
    omega
  have distinct : t.machine.taskQueue.Pairwise fun a b => t.number a ≠ t.number b :=
    List.pairwise_map.mp numbers
  refine (sorted.and distinct).imp fun {a b} ⟨ordered, different⟩ => ?_
  exact ordered.imp_right fun ⟨same, le⟩ => ⟨same, lt_of_le_of_ne le different⟩

/-- What a step that adds a task changes. -/
structure Adds (s t : Tracked) (i : Fin 64) (priority : ℤ) : Prop where
  used : t.machine.taskUsed = Function.update s.machine.taskUsed i true
  queue : t.machine.taskQueue =
    TaskMachine.insertTask s.machine.taskPool i priority s.machine.taskQueue
  frames : t.machine.frames = s.machine.frames
  current : t.machine.currentTaskPriority = s.machine.currentTaskPriority
  pc : t.machine.pc = s.machine.pc
  busy : s.machine.pc = .enabled → s.machine.frames ≠ []
  here : t.priority i = priority
  last : t.number i = s.added.length
  kept : ∀ b, b ≠ i → t.priority b = s.priority b ∧ t.number b = s.number b
  added : t.added = s.added ++ [priority]
  started : t.started = s.started

private theorem step_tracked {event : TaskEvent} {priority : ℤ}
    (request : requested event = some priority) (result : s.step event = some t) :
    ∃ machine, s.machine.step event = some machine ∧ t = ⟨machine,
      fun i => if s.machine.freeSlot = some i then s.added.length
      else s.number i, s.added ++ [priority], s.started⟩ := by
  obtain ⟨machine, stepped, same⟩ := Option.map_eq_some_iff.mp result
  rw [request] at same
  exact ⟨machine, stepped, same.symm⟩

private theorem step_adds_spec {event : TaskEvent} {priority : ℤ} {i : Fin 64}
    (request : requested event = some priority) (free : s.machine.freeSlot = some i)
    (result : s.step event = some t) : Adds s t i priority := by
  obtain ⟨machine, stepped, rfl⟩ := step_tracked request result
  obtain ⟨timer, rx, callback, arg, rfl, busy⟩ := step_adds request stepped
  have effect :=
    addTask_eq (s := { s.machine with sieTimer := timer, ierRx := rx }) callback arg priority free
  refine ⟨?_, ?_, ?_, ?_, ?_, busy, ?_, if_pos free, fun b different => ⟨?_, ?_⟩, rfl, rfl⟩
  · rw [effect]
  · rw [effect]
  · rw [effect]
  · rw [effect]
  · rw [effect]
  · simp only [Tracked.priority, effect, Function.update_self]
  · simp only [Tracked.priority, effect, Function.update_of_ne different]
  · refine if_neg fun same => different ?_
    exact Option.some.inj (same.symm.trans free)

theorem Sound.add (sound : Sound s) {i : Fin 64} {priority : ℤ} (unused : i ∉ s.slots)
    (adds : Adds s t i priority) :
    Sound t := by
  have notQueued : i ∉ s.machine.taskQueue := fun member => unused (List.mem_append_left _ member)
  have notRunning : ∀ frame ∈ s.machine.frames, t.priority frame.idx = s.priority frame.idx := by
    intro frame member
    refine (adds.kept frame.idx fun same => unused ?_).1
    exact List.mem_append_right _ (same ▸ List.mem_map_of_mem member)
  have queued : t.machine.taskQueue.Perm (i :: s.machine.taskQueue) :=
    adds.queue ▸ insertTask_perm s.machine.taskQueue
  have slots : t.slots.Perm (i :: s.slots) := by
    rw [Tracked.slots, Tracked.slots, adds.frames]
    exact queued.append_right _
  have numbers : s.machine.taskQueue.map t.number = s.machine.taskQueue.map s.number :=
    List.map_congr_left fun b member => (adds.kept b fun same => notQueued (same ▸ member)).2
  refine ⟨?_, ?_, ?_, ?_, ?_, ?_, ?_, ?_⟩
  · exact slots.nodup_iff.mpr (List.nodup_cons.mpr ⟨unused, sound.distinct⟩)
  · intro b
    rw [adds.used, slots.mem_iff, List.mem_cons]
    rcases eq_or_ne b i with rfl | different
    · simp
    · simp [different, sound.used b]
  · rw [adds.frames]
    exact linked_congr notRunning sound.linked
  · rw [adds.current, adds.frames, innermost_congr notRunning]
    exact sound.current
  · exact sound.sorted_insert notQueued adds.here adds.last adds.kept adds.queue
  · rw [adds.started, adds.added, List.length_append, List.length_singleton, List.range_succ]
    calc t.machine.taskQueue.map t.number ++ s.started
      _ ~ (i :: s.machine.taskQueue).map t.number ++ s.started := (queued.map _).append_right _
      _ = s.added.length :: (s.machine.taskQueue.map s.number ++ s.started) := by
          rw [List.map_cons, adds.last, numbers, List.cons_append]
      _ ~ s.added.length :: List.range s.added.length := sound.once.cons _
      _ ~ List.range s.added.length ++ [s.added.length] := (List.perm_append_singleton _ _).symm
  · intro b member
    rw [adds.added]
    rcases List.mem_cons.mp (queued.mem_iff.mp member) with rfl | old
    · rw [adds.last, adds.here, List.getElem?_concat_length]
    · obtain ⟨samePriority, sameNumber⟩ := adds.kept b fun same => notQueued (same ▸ old)
      rw [samePriority, sameNumber, List.getElem?_append_left (sound.number_lt old)]
      exact sound.queued b old
  · intro enabled outside
    rw [adds.pc] at enabled
    rw [adds.frames] at outside
    exact absurd outside (adds.busy enabled)

theorem Sound.start (sound : Sound s) {head : Fin 64} {rest : List (Fin 64)}
    (queue : s.machine.taskQueue = head :: rest) (continues : s.machine.ends = false) :
    Sound ⟨s.machine.start head rest, s.number, s.added, s.started ++ [s.number head]⟩ := by
  have first : (s.machine.taskPool head).priority < s.machine.currentTaskPriority := by
    simpa [TaskMachine.ends, queue] using continues
  have slots : (rest ++ head :: s.machine.frames.map (·.idx)).Perm s.slots := by
    rw [Tracked.slots, queue]
    exact List.perm_middle
  refine ⟨?_, ?_, ?_, rfl, ?_, ?_, ?_, ?_⟩
  · exact slots.nodup_iff.mpr sound.distinct
  · exact fun b => (sound.used b).trans slots.mem_iff.symm
  · exact ⟨sound.current, first, linked_congr (s := s) (fun _ _ => rfl) sound.linked⟩
  · have sorted := sound.sorted
    rw [queue] at sorted
    exact (List.pairwise_cons.mp sorted).2
  · have once := sound.once
    rw [queue] at once
    calc rest.map s.number ++ (s.started ++ [s.number head])
      _ ~ s.number head :: (rest.map s.number ++ s.started) := by
          rw [← List.append_assoc]
          exact List.perm_append_singleton _ _
      _ ~ List.range s.added.length := once
  · intro b member
    exact sound.queued b (by rw [queue]; exact List.mem_cons_of_mem head member)
  · intro _ outside
    exact absurd outside (List.cons_ne_nil _ _)

theorem Sound.leave (sound : Sound s) (ends : s.machine.ends = true) :
    Sound { s with machine := { s.machine with pc := .enabled } } := by
  refine ⟨sound.distinct, sound.used, linked_congr (s := s) (fun _ _ => rfl) sound.linked, ?_,
    sound.sorted, sound.once, sound.queued, ?_⟩
  · exact sound.current.trans (innermost_congr fun _ _ => rfl)
  · intro _ outside i member
    change i ∈ s.machine.taskQueue at member
    have current : s.machine.currentTaskPriority = 999 := by
      have inner := sound.current
      rw [show s.machine.frames = [] from outside] at inner
      exact inner
    have sorted := sound.sorted
    cases queue : s.machine.taskQueue with
    | nil =>
      rw [queue] at member
      exact absurd member List.not_mem_nil
    | cons head rest =>
      rw [queue] at member sorted
      have large : 999 ≤ (s.machine.taskPool head).priority := by
        simpa [TaskMachine.ends, queue, current] using ends
      rcases List.mem_cons.mp member with rfl | later
      · exact large
      · exact le_trans large ((List.pairwise_cons.mp sorted).1 i later).le

theorem Sound.finish (sound : Sound s) {frame : RunFrame} {outer : List RunFrame}
    (frames : s.machine.frames = frame :: outer) :
    Sound { s with machine := s.machine.finish frame outer } := by
  have slots : s.slots.Perm (frame.idx :: (s.machine.taskQueue ++ outer.map (·.idx))) := by
    rw [Tracked.slots, frames, List.map_cons]
    exact List.perm_middle
  obtain ⟨gone, distinct⟩ := List.nodup_cons.mp (slots.nodup_iff.mp sound.distinct)
  have linked := sound.linked
  rw [frames] at linked
  obtain ⟨old, -, linked⟩ := linked
  refine ⟨distinct, ?_, ?_, ?_, sound.sorted, sound.once, sound.queued, ?_⟩
  · intro b
    change Function.update s.machine.taskUsed frame.idx false b = true ↔
      b ∈ s.machine.taskQueue ++ outer.map (·.idx)
    rcases eq_or_ne b frame.idx with rfl | different
    · simp only [Function.update_self, Bool.false_eq_true, false_iff]
      exact gone
    · rw [Function.update_of_ne different, sound.used b, slots.mem_iff, List.mem_cons]
      simp only [different, false_or]
  · exact linked_congr (s := s) (fun _ _ => rfl) linked
  · exact old.trans (innermost_congr fun _ _ => rfl)
  · intro enabled
    cases enabled

/-! ## Runs -/

theorem step_untracked {event : TaskEvent} (request : requested event = none)
    (result : s.step event = some t) :
    ∃ machine, s.machine.step event = some machine ∧ t = { s with
      machine := machine
      started :=
        if event = .start then s.started ++ s.machine.taskQueue.head?.toList.map s.number
        else s.started } := by
  obtain ⟨machine, stepped, same⟩ := Option.map_eq_some_iff.mp result
  rw [request] at same
  exact ⟨machine, stepped, same.symm⟩

theorem Sound.request (sound : Sound s) {event : TaskEvent} {priority : ℤ}
    (request : requested event = some priority)
    (few : s.machine.taskQueue.length + s.machine.frames.length < 64)
    (result : s.step event = some t) : Sound t := by
  have short : s.slots.length < 64 := by
    rw [Tracked.slots, List.length_append, List.length_map]
    exact few
  obtain ⟨i, free⟩ := exists_freeSlot (fun i used => (sound.used i).mp used) short
  refine sound.add (fun member => ?_) (step_adds_spec request free result)
  have used := (sound.used i).mpr member
  rw [freeSlot_unused free] at used
  exact Bool.false_ne_true used

theorem Sound.step (sound : Sound s) {event : TaskEvent} (premise : Premise s event)
    (noExec : ∀ found, event ≠ .exec found) (result : s.step event = some t) : Sound t := by
  cases event with
  | timer => exact sound.request rfl premise result
  | receive c => exact sound.request rfl premise result
  | addTask callback arg priority => exact sound.request rfl premise result
  | trap =>
    obtain ⟨machine, stepped, rfl⟩ := step_untracked rfl result
    obtain ⟨-, same⟩ := Option.ite_none_right_eq_some.mp stepped
    obtain rfl := Option.some.inj same
    exact ⟨sound.distinct, sound.used, linked_congr (s := s) (fun _ _ => rfl) sound.linked,
      sound.current.trans (innermost_congr fun _ _ => rfl), sound.sorted,
      sound.once, sound.queued, nofun⟩
  | run =>
    obtain ⟨machine, stepped, rfl⟩ := step_untracked rfl result
    obtain ⟨-, same⟩ := Option.ite_none_right_eq_some.mp stepped
    obtain rfl := Option.some.inj same
    exact ⟨sound.distinct, sound.used, linked_congr (s := s) (fun _ _ => rfl) sound.linked,
      sound.current.trans (innermost_congr fun _ _ => rfl), sound.sorted,
      sound.once, sound.queued, nofun⟩
  | start =>
    obtain ⟨machine, stepped, rfl⟩ := step_untracked rfl result
    simp only [TaskMachine.step] at stepped
    split at stepped
    · cases stepped
    · rename_i head rest queue
      obtain ⟨⟨-, continues⟩, same⟩ := Option.ite_none_right_eq_some.mp stepped
      obtain rfl := Option.some.inj same
      have next := sound.start queue (by simpa using continues)
      simp only [if_pos, queue, List.head?_cons, Option.toList_some, List.map_cons, List.map_nil]
      exact next
  | leave =>
    obtain ⟨machine, stepped, rfl⟩ := step_untracked rfl result
    obtain ⟨⟨-, ends⟩, same⟩ := Option.ite_none_right_eq_some.mp stepped
    obtain rfl := Option.some.inj same
    exact sound.leave ends
  | finish =>
    obtain ⟨machine, stepped, rfl⟩ := step_untracked rfl result
    simp only [TaskMachine.step] at stepped
    split at stepped
    · cases stepped
    · rename_i frame outer frames
      obtain ⟨-, same⟩ := Option.ite_none_right_eq_some.mp stepped
      obtain rfl := Option.some.inj same
      exact sound.finish frames
  | exec found => exact absurd rfl (noExec found)

/-- A callback that executes `exec` for a missing program runs with the priority of no task. -/
theorem exec_unscheduled (result : s.step (.exec false) = some t) : ¬ Scheduled t := by
  intro scheduled
  obtain ⟨machine, stepped, rfl⟩ := step_untracked rfl result
  simp only [TaskMachine.step] at stepped
  split at stepped
  · cases stepped
  · rename_i frame outer frames
    obtain ⟨-, same⟩ := Option.ite_none_right_eq_some.mp stepped
    obtain rfl := Option.some.inj same
    have here : frame ∈ (s.machine.exec false).frames := by
      change frame ∈ s.machine.frames
      rw [frames]
      exact List.mem_cons_self
    have below := scheduled.below frame here
    have current := scheduled.current
    have top : (s.machine.exec false).frames = frame :: outer := frames
    rw [top] at current
    exact absurd current (ne_of_gt below)

end Invariant

/-- In a run in which callbacks return and fewer than 64 tasks are outstanding when one is added,
every state is scheduled exactly if no callback executes the shell command `exec`. -/
theorem tasks_scheduled {t : Tracked} {events : List TaskEvent}
    (run : System.Path (transitions.restrict Premise) initial events t) :
    (∀ u, System.Path.Visits (transitions.restrict Premise) initial events t u → Scheduled u) ↔
      ∀ found, .exec found ∉ events := by
  constructor
  · intro scheduled found member
    obtain ⟨u, v, -, step, visited⟩ := System.Path.visits_step run member
    have missing : found = false := step.1
    rw [missing] at step
    exact exec_unscheduled step.2 (scheduled v visited)
  · rintro noExec u ⟨first, second, rfl, before, -⟩
    have meets : ∀ event ∈ first, ∀ found, event ≠ .exec found := by
      rintro event member found rfl
      exact noExec found (List.mem_append_left second member)
    have sound : Sound u := (before.to_restrict meets).invariant
      (fun sound step => sound.step step.2.1 step.1 step.2.2) sound_initial
    exact sound.scheduled

/-- A task adds one of higher priority, and the next interrupt preempts it. -/
def nestedEvents : List TaskEvent :=
  [.trap, .addTask (.other 4) 0#64 40, .run, .start, .addTask (.other 2) 0#64 20, .trap, .run,
    .start, .finish, .leave, .finish, .leave]

theorem tasks_scheduled_nested :
    ∃ t, System.Path (transitions.restrict Premise) initial nestedEvents t ∧ ((∀ u,
      System.Path.Visits (transitions.restrict Premise) initial nestedEvents t u → Scheduled u) ↔
      ∀ found, .exec found ∉ nestedEvents) := by
  have run : ∃ t, System.Path (transitions.restrict Premise) initial nestedEvents t :=
    ⟨_, .cons ⟨trivial, rfl⟩
      (.cons ⟨by decide, rfl⟩ (.cons ⟨trivial, rfl⟩ (.cons ⟨trivial, rfl⟩ (.cons ⟨by decide, rfl⟩
      (.cons ⟨trivial, rfl⟩
        (.cons ⟨trivial, rfl⟩ (.cons ⟨trivial, rfl⟩ (.cons ⟨trivial, rfl⟩ (.cons ⟨trivial, rfl⟩
        (.cons ⟨trivial, rfl⟩ (.cons ⟨trivial, rfl⟩ (.nil _))))))))))))⟩
  obtain ⟨t, run⟩ := run
  exact ⟨t, run, tasks_scheduled run⟩

/-- The shell is asked to execute a program that is not in the archive. -/
theorem tasks_unscheduled_exec :
    ¬ ∀ t events, System.Path (transitions.restrict Premise) initial events t →
    Scheduled t := by
  intro always
  have started : ∃ s,
      System.Path (transitions.restrict Premise) initial [.trap, .receive 13#8, .run, .start] s ∧
      ∃ t, s.step (.exec false) = some t :=
    ⟨_, .cons ⟨trivial, rfl⟩
      (.cons ⟨by decide, rfl⟩ (.cons ⟨trivial, rfl⟩ (.cons ⟨trivial, rfl⟩ (.nil _)))), _, rfl⟩
  obtain ⟨s, run, t, missing⟩ := started
  have executes : (transitions.restrict Premise).Step s (.exec false) t := ⟨rfl, missing⟩
  exact exec_unscheduled missing (always t _ (run.snoc executes))

end OscKernel.Soundness.PreemptiveTasks
