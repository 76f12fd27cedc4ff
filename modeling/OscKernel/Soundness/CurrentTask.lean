import OscKernel.Soundness.TrapFrames

/-! # The current task

The kernel finds the current task through `tp`, which trap entry takes over from user code. As long
as user code leaves `tp` alone and no interrupt is taken while a context is restored, it is the task
that `switch_to` switched to last, whatever is in the other registers.
-/

namespace OscKernel.Soundness.CurrentTask

open OscKernel.Lib OscKernel.Model OscKernel.Model.Machine OscKernel.Soundness.TrapFrames

/-! ## Booting -/

/-- `start_kernel` before `idle()`: one kernel thread and no trap so far. The stack of the idle task
is here the one that it runs on. -/
structure Booted (s : Machine) : Prop where
  thread : ∃ top, s.pc = .thread top ∧ (s.x sp - s.stack s.dispatched).toNat ≤
    (top - s.stack s.dispatched).toNat ∧
    (top - s.stack s.dispatched).toNat ≤ 0x4000
  current : s.getCurrent = s.dispatched
  sscratch : s.sscratch = 0#64
  frames : ∀ a, s.frames a = none
  savedRegs : ∀ task, s.savedRegs task = none
  kernelSp : s.kernelSp s.dispatched = 0#64
  context : ∃ top, (s.thread s.dispatched).ra = .thread top
  live : s.live = {s.dispatched}
  runnable : s.runnable = {s.dispatched}

theorem Booted.sound {s : Machine} (booted : Booted s) : Sound s where
  current := by simp [booted.live]
  runnable := by simp [booted.live, booted.runnable]
  apart := by
    intro a b liveA liveB different
    rw [booted.live, Finset.mem_singleton] at liveA liveB
    exact absurd (liveA.trans liveB.symm) different
  running := by
    obtain ⟨top, pc, below, inside⟩ := booted.thread
    refine .kernel booted.current booted.sscratch ?_
    rw [pc]
    exact .thread (by simp [booted.runnable]) below inside
  suspended := by
    intro task inQueue different
    rw [booted.runnable, Finset.mem_singleton] at inQueue
    exact absurd inQueue different
  savedRegs := by
    intro task r _ saved
    rw [booted.savedRegs] at saved
    exact absurd saved (by simp)

/-! ## What a run dispatches -/

/-- The task that is running after a step. -/
def dispatchedAfter (task : Word) : Event → Word
  | .schedule next => next
  | _ => task

/-- The label without the values of the registers. -/
def withoutRegisters : Event → Event
  | .user _ va => .user (fun _ => 0#64) va
  | .compute _ => .compute fun _ => 0#64
  | event => event

private theorem dispatchedAfter_withoutRegisters (task : Word) (event : Event) :
    dispatchedAfter task (withoutRegisters event) = dispatchedAfter task event := by
  cases event <;> rfl

theorem foldl_withoutRegisters (task : Word) (events : List Event) :
    (events.map withoutRegisters).foldl dispatchedAfter task =
    events.foldl dispatchedAfter task := by
  rw [List.foldl_map]
  simp only [dispatchedAfter_withoutRegisters]

private theorem advance_dispatched {s t : Machine} (result : s.advance = some t) :
    t.dispatched = s.dispatched := by
  rw [Machine.advance] at result
  cases pc : s.pc with
  | doTrap regs cause =>
    rw [pc] at result
    cases cause with
    | timer => simp at result
    | _ => exact (Option.some.inj result) ▸ rfl
  | callback | runPreemptiveTasks | schedule | switchRet | mvTp | csrwSstatus =>
    rw [pc] at result
    exact (Option.some.inj result) ▸ rfl
  | retFromException | csrwSepc =>
    rw [pc] at result
    obtain ⟨r, -, rfl⟩ := Option.map_eq_some_iff.mp result
    rfl
  | restore =>
    rw [pc] at result
    obtain ⟨r, -, rest⟩ := Option.bind_eq_some_iff.mp result
    split at rest
    · exact (Option.some.inj rest) ▸ rfl
    · exact absurd rest (by simp)
  | user | thread | handleSyscall | report | checkPendingSignals | threadExit => simp [pc] at result

private theorem step_dispatched {s t : Machine} {event : Event} (sound : Sound s)
    (step : Step s event t) :
    t.dispatched = dispatchedAfter s.dispatched event := by
  cases step with
  | advance result => exact advance_dispatched result
  | schedule calls inQueue =>
    rw [schedule]
    split
    · rename_i same
      exact (sound.caller calls).1.symm.trans same
    · rfl
  | sysFork _ _ result | endSyscall _ result =>
    obtain ⟨r, -, rfl⟩ := Option.map_eq_some_iff.mp result
    rfl
  | checkPendingSignals _ result =>
    obtain ⟨r, -, rfl⟩ := Option.map_eq_some_iff.mp result
    dsimp only
    split
    · rfl
    · split <;> rfl
  | sysSigreturn =>
    rw [sysSigreturn]
    split <;> rfl
  | _ => rfl

theorem run_dispatched {s t : Machine} {events : List Event} (sound : Sound s)
    (run : System.Path (transitions.restrict Safe) s events t) :
    Sound t ∧ t.dispatched = events.foldl dispatchedAfter s.dispatched := by
  induction run with
  | nil => exact ⟨sound, rfl⟩
  | cons step _ ih =>
    obtain ⟨sound', same⟩ := ih (sound.step step)
    refine ⟨sound', ?_⟩
    rw [same, step_dispatched sound step.2]
    rfl

/-! ## The current task -/

/-- `do_trap`, or what it calls, runs for a trap that was taken from user mode. -/
def InUserTrap (s : Machine) : Prop :=
  ∃ regs r, s.pc.regs = some regs ∧ s.frames regs = some r ∧ r.sstatus.spp = false

theorem Sound.getCurrent {s : Machine} (sound : Sound s) (trapped : InUserTrap s) :
    s.getCurrent = s.dispatched := by
  obtain ⟨regs, -, here, -⟩ := trapped
  refine (TrapFrames.Sound.kernel sound ?_ ?_).1
  · cases pc : s.pc with
    | user => simp [pc, Pc.regs] at here
    | _ => rfl
  · cases pc : s.pc with
    | mvTp | csrwSepc | csrwSstatus | restore => simp [pc, Pc.regs] at here
    | _ => trivial

/-- In every run in which user code leaves `tp` alone and no interrupt is taken while a context is
restored, `get_current` returns the task that was dispatched last whenever a trap from user mode is
handled, and runs that differ in register values only have the same current task. -/
theorem current_is_dispatched {s t : Machine} {events : List Event} (booted : Booted s)
    (run : System.Path (transitions.restrict Safe) s events t) (trapped : InUserTrap t) :
    t.getCurrent = t.dispatched ∧
      ∀ events' t', System.Path (transitions.restrict Safe) s events' t' → InUserTrap t' →
        events'.map withoutRegisters = events.map withoutRegisters →
        t'.getCurrent = t.getCurrent := by
  obtain ⟨sound, dispatched⟩ := run_dispatched booted.sound run
  refine ⟨Sound.getCurrent sound trapped, fun events' t' run' trapped' same => ?_⟩
  obtain ⟨sound', dispatched'⟩ := run_dispatched booted.sound run'
  calc
    t'.getCurrent = t'.dispatched := Sound.getCurrent sound' trapped'
    _ = events'.foldl dispatchedAfter s.dispatched := dispatched'
    _ = (events'.map withoutRegisters).foldl dispatchedAfter s.dispatched :=
      (foldl_withoutRegisters _ _).symm
    _ = (events.map withoutRegisters).foldl dispatchedAfter s.dispatched := by rw [same]
    _ = events.foldl dispatchedAfter s.dispatched := foldl_withoutRegisters _ _
    _ = t.dispatched := dispatched.symm
    _ = t.getCurrent := (Sound.getCurrent sound trapped).symm

/-! ## The first process -/

section FirstProcess

variable (guard : Machine → Event → Prop) {s : Machine} {top task stack : Word}

/-- A new process is dispatched at once, up to `ret_from_exception`. -/
theorem dispatch_path (create : guard s (.createUserProcess task stack))
    (schedules : ∀ s, guard s (.schedule task)) (advances : ∀ s, guard s .advance)
    (here : s.pc = .thread top) (fresh : s.Fresh task stack) (other : s.getCurrent ≠ task) :
    ∃ t, System.Path (transitions.restrict guard) s [.createUserProcess task stack,
      .schedule task, .advance, .advance] t ∧
      t.pc = .retFromException ∧ t.x sp = stack + stackSize - ptRegsSize ∧
      t.getCurrent = task ∧ t.dispatched = task ∧
      t.sstatus = s.sstatus ∧ t.frames (t.x sp) = some (execFrame s task) := by
  let created := s.createUserProcess task stack
  have caller : Calls created.pc (.thread top) := .inl ⟨here, top, .inl here⟩
  have inQueue : task ∈ created.runnable := Finset.mem_insert_self _ _
  let switched := created.schedule (.thread top) task
  have isSwitched : switched =
      (created.setSie false).switchTo s.getCurrent task (.schedule s.sstatus.sie (.thread top)) :=
    if_neg other
  have context : ∀ ctx, Function.update (created.setSie false).thread s.getCurrent ctx task =
      ⟨.retFromException, stack + stackSize - ptRegsSize, s.sstatus⟩ := fun ctx => by
    rw [Function.update_of_ne (Ne.symm other)]
    exact Function.update_self _ _ _
  have pc : switched.pc = .mvTp task .retFromException := by
    rw [isSwitched, switchTo]
    simp only [context]
  let ready : Machine :=
    { switched with x := Function.update switched.x tp task, pc := .retFromException }
  have first : switched.advance =
      some { switched with
        x := Function.update switched.x tp task, pc := .switchRet .retFromException } := by
    rw [advance, pc]
  have place : switched.x sp = stack + stackSize - ptRegsSize := by
    rw [isSwitched, switchTo]
    simp only [context, Function.update_self]
  have readySp : ready.x sp = stack + stackSize - ptRegsSize := by
    change Function.update switched.x tp task sp = _
    rw [Function.update_of_ne (by decide)]
    exact place
  have frames : switched.frames =
      store s.frames (stack + stackSize - ptRegsSize) (execFrame s task) := by
    rw [isSwitched]
    change created.frames = _
    rw [show created = _ from createUserProcess_eq task stack]
    rfl
  refine ⟨ready, .cons ⟨create, .createUserProcess here fresh⟩
    (.cons ⟨schedules _, .schedule caller inQueue⟩ (.cons ⟨advances _, .advance first⟩
      (.cons ⟨advances _, .advance rfl⟩ (.nil _)))),
    rfl, readySp, ?_, ?_, ?_, ?_⟩
  · change Function.update switched.x tp task tp = task
    exact Function.update_self _ _ _
  · change switched.dispatched = task
    rw [isSwitched]
    rfl
  · change switched.sstatus = s.sstatus
    rw [isSwitched, switchTo]
    simp only [context]
  · rw [readySp]
    change switched.frames _ = _
    rw [frames, store_self]

/-- `ret_from_exception` goes back to the user. -/
private theorem return_path {r : PtRegs} {va : Word} (advances : ∀ s, guard s .advance)
    (here : s.pc = .retFromException) (frame : s.frames (s.x sp) = some r)
    (user : r.sstatus.spp = false) (epc : r.epc = .user va) :
    System.Path (transitions.restrict guard) s [.advance, .advance, .advance, .advance]
      { s with
        x := r.x, pc := .user va, sepc := .user va, sscratch := s.x sp + ptRegsSize
        sstatus := ⟨r.sstatus.spie, true, false⟩ } := by
  let entered : Machine := { s with sscratch := s.x sp + ptRegsSize, pc := .csrwSepc }
  let loaded : Machine := { entered with sepc := .user va, pc := .csrwSstatus r.sstatus }
  have first : s.advance = some entered := by
    rw [advance, here]
    simp only [retFromException, frame, Option.map_some, user, Bool.false_eq_true, if_false]
    rfl
  have second : entered.advance = some loaded := by
    change entered.csrwSepc = _
    rw [csrwSepc, show entered.frames (entered.x sp) = some r from frame, Option.map_some, epc]
  have third : loaded.advance = some (loaded.csrwSstatus r.sstatus) := rfl
  have fourth : (loaded.csrwSstatus r.sstatus).advance = some
      { s with
        x := r.x, pc := .user va, sepc := .user va, sscratch := s.x sp + ptRegsSize
        sstatus := ⟨r.sstatus.spie, true, false⟩ } := by
    change (loaded.csrwSstatus r.sstatus).sret = _
    have frame' : (loaded.csrwSstatus r.sstatus).frames ((loaded.csrwSstatus r.sstatus).x sp) =
        some r := frame
    rw [sret, frame', Option.bind_some]
    exact if_pos (by rw [csrwSstatus, user]; rfl)
  exact .cons ⟨advances _, .advance first⟩
    (.cons ⟨advances _, .advance second⟩ (.cons ⟨advances _, .advance third⟩
    (.cons ⟨advances _, .advance fourth⟩ (.nil _))))

end FirstProcess

/-- The idle thread right after boot. -/
def bootMachine : Machine where
  pc := .thread 0x14000#64
  x i := if i = sp then 0x14000#64 else if i = tp then 0x1000#64 else 0#64
  sstatus := ⟨true, false, false⟩
  sepc := .thread 0x14000#64
  sscratch := 0#64
  frames _ := none
  thread _ := ⟨.thread 0x14000#64, 0x14000#64, ⟨true, false, false⟩⟩
  kernelSp _ := 0#64
  stack _ := 0x10000#64
  savedRegs _ := none
  live := {0x1000#64}
  runnable := {0x1000#64}
  dispatched := 0x1000#64

theorem bootMachine_booted : Booted bootMachine where
  thread := ⟨0x14000#64, rfl, by decide, by decide⟩
  current := rfl
  sscratch := rfl
  frames _ := rfl
  savedRegs _ := rfl
  kernelSp := rfl
  context := ⟨_, rfl⟩
  live := rfl
  runnable := rfl

theorem bootMachine_fresh : bootMachine.Fresh 0x2000#64 0x20000#64 where
  task := by decide
  top := by decide
  stack := by
    intro other _ a here there
    change a - 0x10000#64 < stackSize at there
    rw [stackSize] at here there
    bv_omega

/-- A trap from the first process, whose code left the values in the registers. -/
theorem trap_path (guard : Machine → Event → Prop) (x : Reg → Word)
    (create : guard bootMachine (.createUserProcess 0x2000#64 0x20000#64))
    (schedules : ∀ s next, guard s (.schedule next)) (advances : ∀ s, guard s .advance)
    (user : ∀ s : Machine, s.pc = .user 0#64 → s.getCurrent = 0x2000#64 → guard s (.user x 0#64))
    (traps : ∀ s : Machine, s.pc.isUser = true → guard s (.trap .ecall)) :
    ∃ events t, System.Path (transitions.restrict guard) bootMachine events t ∧ InUserTrap t ∧
      t.dispatched = 0x2000#64 ∧ t.getCurrent = x tp := by
  obtain ⟨ready, dispatched, pc, place, current, isTask, sstatus, frame⟩ :=
    dispatch_path guard create
    (fun s => schedules s _) advances rfl bootMachine_fresh (by decide)
  have returned := return_path guard advances pc frame rfl rfl
  let running : Machine := { ready with
    x := (execFrame bootMachine 0x2000#64).x, pc := .user 0#64, sepc := .user 0#64
    sscratch := ready.x sp + ptRegsSize, sstatus := ⟨true, true, false⟩ }
  let left : Machine := { running with x := x, pc := .user 0#64 }
  have first : (transitions.restrict guard).Step running (.user x 0#64) left :=
    ⟨user running rfl rfl, .user rfl⟩
  have second : (transitions.restrict guard).Step left (.trap .ecall)
      (left.handleException .ecall) :=
    ⟨traps left rfl, .trap rfl⟩
  refine ⟨_, _, (dispatched.append returned).append (.cons first (.cons second (.nil _))),
    ?_, isTask, rfl⟩
  exact ⟨_, _, rfl, store_self _ _ _, rfl⟩

/-- A process clears `tp` before a system call, and the kernel takes it for another task. -/
theorem current_not_dispatched : ¬ ∀ s t events, Booted s →
    System.Path transitions s events t → InUserTrap t →
    t.getCurrent = t.dispatched := by
  intro always
  obtain ⟨events, t, run, trapped, dispatched, current⟩ :=
    trap_path (fun _ _ => True) (fun _ => 0#64)
    trivial (fun _ _ => trivial) (fun _ => trivial) (fun _ _ _ => trivial) (fun _ _ => trivial)
  have same := always bootMachine t events bootMachine_booted run.of_restrict trapped
  rw [dispatched, current] at same
  exact absurd same (by decide)

/-- A process that uses every register but `tp`. -/
theorem current_is_dispatched_ecall :
    ∃ events t, System.Path (transitions.restrict Safe) bootMachine events t ∧
    t.dispatched = 0x2000#64 ∧ t.getCurrent = t.dispatched := by
  let x : Reg → Word := fun i => if i = tp then 0x2000#64 else 0xdeadbeef#64
  have settled : ∀ s : Machine, s.pc.isUser = true → Safe s (.trap .ecall) := by
    intro s kernel
    cases pc : s.pc with
    | user => simp [Safe, pc, Settled]
    | _ => simp [pc, Pc.isUser] at kernel
  obtain ⟨events, t, run, trapped, dispatched, -⟩ :=
    trap_path Safe x trivial (fun _ _ => trivial) (fun _ => trivial)
    (fun _ _ current => current.symm) settled
  exact ⟨events, t, run, dispatched, (current_is_dispatched bootMachine_booted run trapped).1⟩

end OscKernel.Soundness.CurrentTask
