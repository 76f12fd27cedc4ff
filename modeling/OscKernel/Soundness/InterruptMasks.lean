import OscKernel.Soundness.PreemptiveTasks

/-! # Masked interrupts

The top half of an interrupt masks its source and queues a task, and `run_preemptive_tasks` unmasks
the source when the task has returned. A masked source has such a task, in the queue or on the
stack, in every run in which `add_task` does not refuse the task for want of a slot and no program
is executed: `exec` leaves the tasks on the stack for good.
-/

namespace OscKernel.Soundness.InterruptMasks

open OscKernel.Lib OscKernel.Model OscKernel.Soundness.PreemptiveTasks

/-- A task with the callback is queued or runs. -/
def Outstanding (s : TaskMachine) (callback : Callback) : Prop :=
  (∃ i ∈ s.taskQueue, (s.taskPool i).callback = callback) ∨ ∃ frame ∈ s.frames, frame.cb = callback

/-- A masked source has a task that will unmask it. -/
structure Unmaskable (s : TaskMachine) : Prop where
  timer : s.sieTimer = false → Outstanding s .handleTimerInterruptTask
  receive : s.ierRx = false → Outstanding s .uartRxTask

def transitions : System TaskMachine TaskEvent := .ofStep TaskMachine.step

/-- A top half finds a slot for its task, or one with the same callback is outstanding, and the
shell finds no program to execute. -/
def Safe (s : TaskMachine) : TaskEvent → Prop
  | .timer => s.freeSlot ≠ none ∨ Outstanding s .handleTimerInterruptTask
  | .receive _ => s.freeSlot ≠ none ∨ Outstanding s .uartRxTask
  | .exec found => found = false
  | _ => True

/-! ## The invariant -/

/-- The slots of the queue and of the running tasks. -/
def slots (s : TaskMachine) : List (Fin 64) := s.taskQueue ++ s.frames.map (·.idx)

structure Sound (s : TaskMachine) : Prop where
  distinct : (slots s).Nodup
  used : ∀ i ∈ slots s, s.taskUsed i = true
  unmaskable : Unmaskable s

theorem sound_initial : Sound .initial where
  distinct := List.nodup_nil
  used := fun _ member => absurd member List.not_mem_nil
  unmaskable := ⟨nofun, nofun⟩

section Adding

variable {s : TaskMachine} {callback other : Callback} {arg : Word} {priority : ℤ}

theorem addTask_refused (full : s.freeSlot = none) : s.addTask callback arg priority = s := by
  simp only [TaskMachine.addTask, full]

/-- What is outstanding stays so. -/
theorem Outstanding.addTask (used : ∀ i ∈ s.taskQueue, s.taskUsed i = true)
    (outstanding : Outstanding s other) :
    Outstanding (s.addTask callback arg priority) other := by
  cases free : s.freeSlot with
  | none =>
    rw [addTask_refused free]
    exact outstanding
  | some i =>
    rw [addTask_eq callback arg priority free]
    rcases outstanding with ⟨b, member, kind⟩ | running
    · have different : b ≠ i := by
        rintro rfl
        have inUse := used b member
        rw [freeSlot_unused free] at inUse
        exact Bool.false_ne_true inUse
      refine .inl ⟨b, (insertTask_perm s.taskQueue).mem_iff.mpr (List.mem_cons_of_mem i member), ?_⟩
      simp only [Function.update_of_ne different]
      exact kind
    · exact .inr running

private theorem outstanding_added (free : s.freeSlot ≠ none) :
    Outstanding (s.addTask callback arg priority) callback := by
  obtain ⟨i, free⟩ := Option.ne_none_iff_exists'.mp free
  rw [addTask_eq callback arg priority free]
  refine .inl ⟨i, (insertTask_perm s.taskQueue).mem_iff.mpr List.mem_cons_self, ?_⟩
  simp only [Function.update_self]

variable (s callback arg priority) in
theorem addTask_masks : (s.addTask callback arg priority).sieTimer = s.sieTimer ∧
    (s.addTask callback arg priority).ierRx = s.ierRx := by
  simp only [TaskMachine.addTask]
  split
  · exact ⟨rfl, rfl⟩
  · exact ⟨rfl, rfl⟩

variable (callback arg priority) in
/-- Adding keeps the slots apart. -/
theorem slots_addTask (distinct : (slots s).Nodup) (used : ∀ i ∈ slots s, s.taskUsed i = true) :
    (slots (s.addTask callback arg priority)).Nodup ∧ ∀ i ∈ slots (s.addTask callback arg priority),
      (s.addTask callback arg priority).taskUsed i = true := by
  cases free : s.freeSlot with
  | none =>
    rw [addTask_refused free]
    exact ⟨distinct, used⟩
  | some i =>
    rw [addTask_eq callback arg priority free]
    have listed : (TaskMachine.insertTask s.taskPool i priority s.taskQueue ++
        s.frames.map (·.idx)).Perm
        (i :: slots s) := (insertTask_perm s.taskQueue).append_right _
    have fresh : i ∉ slots s := by
      intro member
      have inUse := used i member
      rw [freeSlot_unused free] at inUse
      exact Bool.false_ne_true inUse
    refine ⟨listed.nodup_iff.mpr (List.nodup_cons.mpr ⟨fresh, distinct⟩), fun b member => ?_⟩
    rcases List.mem_cons.mp (listed.mem_iff.mp member) with rfl | old
    · exact Function.update_self _ _ _
    · have different : b ≠ i := fun same => fresh (same ▸ old)
      simp only [Function.update_of_ne different]
      exact used b old

end Adding

section Steps

variable {s t : TaskMachine}

/-- A top half that masks one source. -/
theorem Sound.topHalf (sound : Sound s) {callback : Callback} {arg : Word} {priority : ℤ}
    (timer rx : Bool) (masks : (timer = s.sieTimer ∧ callback = .uartRxTask) ∨
      (rx = s.ierRx ∧ callback = .handleTimerInterruptTask))
    (room : s.freeSlot ≠ none ∨ Outstanding s callback) :
    Sound ({ s with sieTimer := timer, ierRx := rx }.addTask callback arg priority) := by
  have used : ∀ i ∈ s.taskQueue, s.taskUsed i = true :=
    fun i member => sound.used i (List.mem_append_left _ member)
  obtain ⟨distinct, slotsUsed⟩ :=
    slots_addTask (s := { s with sieTimer := timer, ierRx := rx }) callback arg priority
    sound.distinct sound.used
  have queued : Outstanding
      ({ s with sieTimer := timer, ierRx := rx }.addTask callback arg priority) callback := by
    rcases room with free | outstanding
    · exact outstanding_added free
    · exact Outstanding.addTask used outstanding
  obtain ⟨sameTimer, sameRx⟩ :=
    addTask_masks { s with sieTimer := timer, ierRx := rx } callback arg priority
  refine ⟨distinct, slotsUsed, fun masked => ?_, fun masked => ?_⟩
  · rcases masks with ⟨same, -⟩ | ⟨-, rfl⟩
    · have before : s.sieTimer = false := same.symm.trans (sameTimer.symm.trans masked)
      exact Outstanding.addTask used (sound.unmaskable.timer before)
    · exact queued
  · rcases masks with ⟨-, rfl⟩ | ⟨same, -⟩
    · exact queued
    · have before : s.ierRx = false := same.symm.trans (sameRx.symm.trans masked)
      exact Outstanding.addTask used (sound.unmaskable.receive before)

theorem Sound.addTask (sound : Sound s) (callback : Callback) (arg : Word) (priority : ℤ) :
    Sound (s.addTask callback arg priority) := by
  have used : ∀ i ∈ s.taskQueue, s.taskUsed i = true :=
    fun i member => sound.used i (List.mem_append_left _ member)
  obtain ⟨distinct, slotsUsed⟩ := slots_addTask callback arg priority sound.distinct sound.used
  obtain ⟨sameTimer, sameRx⟩ := addTask_masks s callback arg priority
  refine ⟨distinct, slotsUsed, fun masked => ?_, fun masked => ?_⟩
  · exact Outstanding.addTask used (sound.unmaskable.timer (sameTimer.symm.trans masked))
  · exact Outstanding.addTask used (sound.unmaskable.receive (sameRx.symm.trans masked))

/-- A started task is outstanding on the stack. -/
theorem Sound.start (sound : Sound s) {head : Fin 64} {rest : List (Fin 64)}
    (queue : s.taskQueue = head :: rest) :
    Sound (s.start head rest) := by
  have listed : (slots (s.start head rest)).Perm (slots s) := by
    rw [slots, slots, queue]
    exact List.perm_middle
  have kept : ∀ {callback}, Outstanding s callback → Outstanding (s.start head rest) callback := by
    rintro callback (⟨i, member, kind⟩ | ⟨frame, member, kind⟩)
    · rw [queue] at member
      rcases List.mem_cons.mp member with rfl | later
      · exact .inr ⟨_, List.mem_cons_self, kind⟩
      · exact .inl ⟨i, later, kind⟩
    · exact .inr ⟨frame, List.mem_cons_of_mem _ member, kind⟩
  refine ⟨listed.nodup_iff.mpr sound.distinct,
    fun i member => sound.used i (listed.mem_iff.mp member), ?_⟩
  exact ⟨fun masked => kept (sound.unmaskable.timer masked),
    fun masked => kept (sound.unmaskable.receive masked)⟩

/-- A task that returns unmasks its own source only. -/
theorem Sound.finish (sound : Sound s) {frame : RunFrame} {outer : List RunFrame}
    (frames : s.frames = frame :: outer) :
    Sound (s.finish frame outer) := by
  have listed : (slots s).Perm (frame.idx :: (s.taskQueue ++ outer.map (·.idx))) := by
    rw [slots, frames, List.map_cons]
    exact List.perm_middle
  obtain ⟨gone, distinct⟩ := List.nodup_cons.mp (listed.nodup_iff.mp sound.distinct)
  have kept : ∀ {callback}, frame.cb ≠ callback → Outstanding s callback →
      Outstanding (s.finish frame outer) callback := by
    rintro callback different (queued | ⟨other, member, kind⟩)
    · exact .inl queued
    · rw [frames] at member
      rcases List.mem_cons.mp member with rfl | below
      · exact absurd kind different
      · exact .inr ⟨other, below, kind⟩
  refine ⟨distinct, fun i member => ?_, fun masked => ?_, fun masked => ?_⟩
  · change Function.update s.taskUsed frame.idx false i = true
    have different : i ≠ frame.idx := fun same => gone (same ▸ member)
    simp only [Function.update_of_ne different]
    exact sound.used i (listed.mem_iff.mpr (List.mem_cons_of_mem _ member))
  · by_cases own : frame.cb = .handleTimerInterruptTask
    · simp only [TaskMachine.finish, own, if_true, Bool.true_eq_false] at masked
    · simp only [TaskMachine.finish, own, if_false] at masked
      exact kept own (sound.unmaskable.timer masked)
  · by_cases own : frame.cb = .uartRxTask
    · simp only [TaskMachine.finish, own, if_true, Bool.true_eq_false] at masked
    · simp only [TaskMachine.finish, own, if_false] at masked
      exact kept own (sound.unmaskable.receive masked)

theorem Sound.step (sound : Sound s) {event : TaskEvent}
    (step : (transitions.restrict Safe).Step s event t) : Sound t := by
  obtain ⟨safe, result⟩ := step
  change s.step event = some t at result
  cases event with
  | trap =>
    obtain ⟨-, same⟩ := Option.ite_none_right_eq_some.mp result
    obtain rfl := Option.some.inj same
    exact ⟨sound.distinct, sound.used, sound.unmaskable.timer, sound.unmaskable.receive⟩
  | timer =>
    obtain ⟨-, same⟩ := Option.ite_none_right_eq_some.mp result
    obtain rfl := Option.some.inj same
    exact sound.topHalf false s.ierRx (.inr ⟨rfl, rfl⟩) safe
  | receive c =>
    obtain ⟨-, same⟩ := Option.ite_none_right_eq_some.mp result
    obtain rfl := Option.some.inj same
    exact sound.topHalf s.sieTimer false (.inl ⟨rfl, rfl⟩) safe
  | addTask callback arg priority =>
    obtain ⟨-, same⟩ := Option.ite_none_right_eq_some.mp result
    obtain rfl := Option.some.inj same
    exact sound.addTask callback arg priority
  | run =>
    obtain ⟨-, same⟩ := Option.ite_none_right_eq_some.mp result
    obtain rfl := Option.some.inj same
    exact ⟨sound.distinct, sound.used, sound.unmaskable.timer, sound.unmaskable.receive⟩
  | start =>
    simp only [TaskMachine.step] at result
    split at result
    · cases result
    · rename_i head rest queue
      obtain ⟨-, same⟩ := Option.ite_none_right_eq_some.mp result
      obtain rfl := Option.some.inj same
      exact sound.start queue
  | leave =>
    obtain ⟨-, same⟩ := Option.ite_none_right_eq_some.mp result
    obtain rfl := Option.some.inj same
    exact ⟨sound.distinct, sound.used, sound.unmaskable.timer, sound.unmaskable.receive⟩
  | finish =>
    simp only [TaskMachine.step] at result
    split at result
    · cases result
    · rename_i frame outer frames
      obtain ⟨-, same⟩ := Option.ite_none_right_eq_some.mp result
      obtain rfl := Option.some.inj same
      exact sound.finish frames
  | exec found =>
    obtain rfl : found = false := safe
    simp only [TaskMachine.step] at result
    split at result
    · cases result
    · obtain ⟨-, same⟩ := Option.ite_none_right_eq_some.mp result
      obtain rfl := Option.some.inj same
      exact ⟨sound.distinct, sound.used, sound.unmaskable.timer, sound.unmaskable.receive⟩

/-- A top half whose task is refused leaves its source masked with no task, unless one was
outstanding. -/
theorem refused_masks {event : TaskEvent} (topHalf : event = .timer ∨ ∃ c, event = .receive c)
    (refused : ¬ Safe s event) (result : s.step event = some t) : ¬ Unmaskable t := by
  intro unmaskable
  rcases topHalf with rfl | ⟨c, rfl⟩
  · obtain ⟨full, none⟩ := not_or.mp refused
    obtain ⟨-, same⟩ := Option.ite_none_right_eq_some.mp result
    rw [addTask_refused (s := { s with sieTimer := false }) (not_not.mp full)] at same
    obtain rfl := Option.some.inj same
    exact none (unmaskable.timer rfl)
  · obtain ⟨full, none⟩ := not_or.mp refused
    obtain ⟨-, same⟩ := Option.ite_none_right_eq_some.mp result
    rw [addTask_refused (s := { s with ierRx := false }) (not_not.mp full)] at same
    obtain rfl := Option.some.inj same
    exact none (unmaskable.receive rfl)

end Steps

/-! ## Runs -/

/-- In every run that meets the conditions of `Safe`, a masked source has a task that will unmask
it. -/
theorem masked_has_task {t : TaskMachine} {events : List TaskEvent}
    (run : System.Path (transitions.restrict Safe) .initial events t) : Unmaskable t := by
  have sound : Sound t := run.invariant (fun sound step => Sound.step sound step) sound_initial
  exact sound.unmaskable

/-- A character arrives while the timer task runs. -/
theorem masked_has_task_both : ∃ t, System.Path (transitions.restrict Safe) .initial
    [.trap, .timer, .run, .start, .trap, .receive 13#8, .run, .start] t ∧ Unmaskable t := by
  have run : ∃ t, System.Path (transitions.restrict Safe) .initial
      [.trap, .timer, .run, .start, .trap, .receive 13#8, .run, .start] t :=
    ⟨_, .cons ⟨trivial, rfl⟩
      (.cons ⟨.inl nofun, rfl⟩ (.cons ⟨trivial, rfl⟩ (.cons ⟨trivial, rfl⟩ (.cons ⟨trivial, rfl⟩
      (.cons ⟨.inl nofun, rfl⟩ (.cons ⟨trivial, rfl⟩ (.cons ⟨trivial, rfl⟩ (.nil _))))))))⟩
  obtain ⟨t, run⟩ := run
  exact ⟨t, run, masked_has_task run⟩

/-- A program that the shell executes never sees input again. -/
theorem exec_masks_receive : ¬ ∀ t events, System.Path transitions .initial events t →
    Unmaskable t := by
  intro always
  have run : ∃ t,
      System.Path transitions .initial [.trap, .receive 13#8, .run, .start, .exec true] t ∧
      t.ierRx = false ∧ t.taskQueue = [] ∧ t.frames = [] :=
    ⟨_, .cons rfl (.cons rfl (.cons rfl (.cons rfl (.cons rfl (.nil _))))), rfl, rfl, rfl⟩
  obtain ⟨t, run, masked, queue, frames⟩ := run
  rcases (always t _ run).receive masked with ⟨i, member, -⟩ | ⟨frame, member, -⟩
  · rw [queue] at member
    exact List.not_mem_nil member
  · rw [frames] at member
    exact List.not_mem_nil member

end OscKernel.Soundness.InterruptMasks
