import OscKernel.Soundness.CurrentTask

/-! # Returning from traps

`ret_from_exception` sets `sscratch` to the top of the kernel stack, so that an interrupt before
`sret` would store its frame over the one that is being restored. None can be taken as long as
`do_exec` runs with interrupts disabled, since every other frame and context that is restored there
has `SIE` clear.
-/

namespace OscKernel.Soundness.TrapReturn

open OscKernel.Lib OscKernel.Model OscKernel.Model.Machine OscKernel.Soundness.TrapFrames
  OscKernel.Soundness.CurrentTask

/-! ## The invariant -/

/-- Positions at which interrupts may be enabled. -/
def Open : Pc → Prop
  | .user _ => True
  | .mvTp _ ra | .switchRet ra => Open ra
  | pc => pc.mayEnable = true

/-- What the position stores of `sstatus` does not enable interrupts where they must be off. -/
def Calm : Pc → Prop
  | .schedule sie caller => (sie = true → Open caller) ∧ Calm caller
  | .mvTp _ ra | .switchRet ra => Calm ra
  | .csrwSstatus s2 => s2.sie = false
  | _ => True

structure Tame (r : PtRegs) : Prop where
  sie : r.sstatus.sie = false
  opened : Open r.epc
  calm : Calm r.epc

structure Quiet (s : Machine) : Prop where
  frames : ∀ {a r}, s.frames a = some r → Tame r
  savedRegs : ∀ {task r}, s.savedRegs task = some r → Tame r
  contexts : ∀ {task}, task ∈ s.live → Calm (s.thread task).ra ∧
    ((s.thread task).sstatus.sie = true → s.kernelSp task = 0#64 ∧ Open (s.thread task).ra)
  opened : s.sstatus.sie = true → Open s.pc
  calm : Calm s.pc

/-- Besides what `TrapFrames.Safe` asks of user code, `do_exec` runs with interrupts disabled, and
no interrupt is taken right before `switch_to` sets `tp`. -/
def Safe (s : Machine) : Event → Prop
  | .user x _ => x tp = s.x tp
  | .createUserProcess _ _ | .sysExec => s.sstatus.sie = false
  | .trap _ => ∀ next ra, s.pc ≠ .mvTp next ra
  | _ => True

private theorem open_of_mayEnable {pc : Pc} (may : pc.mayEnable = true) : Open pc := by
  cases pc <;> simp_all [Open, Pc.mayEnable]

theorem open_next {pc : Pc} (opened : Open pc) : Open pc.next := by
  cases pc <;> exact opened

theorem calm_next {pc : Pc} (calm : Calm pc) : Calm pc.next := by
  cases pc <;> exact calm

/-- An interrupt is only taken at a settled position. -/
private theorem settled_of_open {pc : Pc} (opened : Open pc)
    (notSwitching : ∀ next ra, pc ≠ .mvTp next ra) : Settled pc := by
  cases pc with
  | mvTp next ra => exact absurd rfl (notSwitching next ra)
  | csrwSepc | csrwSstatus | restore => simp [Open, Pc.mayEnable] at opened
  | _ => trivial

section Quiet

variable {s t : Machine} (quiet : Quiet s)
include quiet

theorem Quiet.sie (closed : ¬ Open s.pc) : s.sstatus.sie = false := by
  by_contra on
  exact closed (quiet.opened (Bool.not_eq_false _ ▸ on))

/-- The steps of `restrict Safe` are steps that keep `Sound`. -/
theorem Quiet.safe {event : Event} (safe : Safe s event) (step : Step s event t) :
    TrapFrames.Safe s event := by
  cases step with
  | user => exact safe
  | trap here =>
    rw [TrapFrames.Safe, here]
    trivial
  | interrupt _ on => exact settled_of_open (quiet.opened on) safe
  | pageFault here =>
    rw [TrapFrames.Safe, here]
    trivial
  | _ => trivial

theorem Quiet.store {regs : Word} {r : PtRegs} (tame : Tame r) {a : Word} {found : PtRegs}
    (here : store s.frames regs r a = some found) : Tame found := by
  rw [Machine.store] at here
  split at here
  · obtain rfl := Option.some.inj here
    exact tame
  · split at here
    · exact absurd here (by simp)
    · exact quiet.frames here

/-- Only the position and `sstatus` change, besides the registers. -/
theorem Quiet.move {pc : Pc} {x : Reg → Word} {sstatus : Sstatus} {sepc : Pc} {sscratch : Word}
    (opened : sstatus.sie = true → Open pc) (calm : Calm pc) :
    Quiet { s with pc := pc, x := x, sstatus := sstatus, sepc := sepc, sscratch := sscratch } :=
  ⟨quiet.frames, quiet.savedRegs, quiet.contexts, opened, calm⟩

theorem Quiet.trap {cause : Cause} (opened : Open s.pc) : Quiet (s.handleException cause) := by
  refine ⟨?_, quiet.savedRegs, quiet.contexts,
    fun on => absurd on (by simp [handleException]), trivial⟩
  intro a r here
  exact quiet.store ⟨rfl, opened, quiet.calm⟩ here

theorem Quiet.advance (sound : Sound s) (result : s.advance = some t) : Quiet t := by
  rw [Machine.advance] at result
  cases pc : s.pc with
  | doTrap regs cause =>
    have off : s.sstatus.sie = false := quiet.sie (by rw [pc]; simp [Open, Pc.mayEnable])
    rw [pc] at result
    cases cause with
    | timer => simp at result
    | ecall | other =>
      obtain rfl := Option.some.inj result
      exact quiet.move (fun _ => rfl) trivial
    | external | pageFault =>
      obtain rfl := Option.some.inj result
      exact quiet.move (fun on => absurd (off.symm.trans on) (by decide)) trivial
  | callback =>
    rw [pc] at result
    obtain rfl := Option.some.inj result
    exact quiet.move (fun on => absurd on (by simp)) trivial
  | runPreemptiveTasks =>
    have off : s.sstatus.sie = false := quiet.sie (by rw [pc]; simp [Open, Pc.mayEnable])
    rw [pc] at result
    obtain rfl := Option.some.inj result
    exact quiet.move (fun on => absurd (off.symm.trans on) (by decide)) trivial
  | schedule sie caller =>
    have off : s.sstatus.sie = false := quiet.sie (by rw [pc]; simp [Open, Pc.mayEnable])
    have calm := quiet.calm
    rw [pc] at result calm
    obtain rfl := Option.some.inj result
    refine quiet.move (fun on => calm.1 ?_) calm.2
    rw [off] at on
    exact on
  | switchRet ra =>
    have opened := quiet.opened
    have calm := quiet.calm
    rw [pc] at result opened calm
    obtain rfl := Option.some.inj result
    exact quiet.move opened calm
  | mvTp next ra =>
    have opened := quiet.opened
    have calm := quiet.calm
    rw [pc] at result opened calm
    obtain rfl := Option.some.inj result
    exact quiet.move opened calm
  | retFromException =>
    have off : s.sstatus.sie = false := quiet.sie (by rw [pc]; simp [Open, Pc.mayEnable])
    rw [pc] at result
    obtain ⟨r, -, rfl⟩ := Option.map_eq_some_iff.mp result
    exact quiet.move (fun on => absurd (off.symm.trans on) (by decide)) trivial
  | csrwSepc =>
    have off : s.sstatus.sie = false := quiet.sie (by rw [pc]; simp [Open, Pc.mayEnable])
    rw [pc] at result
    obtain ⟨r, frame, rfl⟩ := Option.map_eq_some_iff.mp result
    exact quiet.move (fun on => absurd (off.symm.trans on) (by decide)) (quiet.frames frame).sie
  | csrwSstatus s2 =>
    have calm := quiet.calm
    rw [pc] at result calm
    obtain rfl := Option.some.inj result
    exact quiet.move (fun on => absurd (calm.symm.trans on) (by decide)) trivial
  | restore =>
    rw [pc] at result
    obtain ⟨r, frame, rest⟩ := Option.bind_eq_some_iff.mp result
    split at rest
    swap
    · exact absurd rest (by simp)
    obtain rfl := Option.some.inj rest
    have sepc : s.sepc = r.epc := by
      cases sound.running with
      | restore _ returns sepc =>
        obtain rfl := Option.some.inj (frame.symm.trans returns.frame)
        exact sepc
      | kernel _ _ active =>
        rw [pc] at active
        cases active with
        | trap noFrame => exact absurd noFrame (by simp [Pc.regs])
      | user here | mvTp here | csrwSepc here | csrwSstatus here =>
        exact absurd (pc.symm.trans here) (by simp)
    have tame := quiet.frames frame
    exact quiet.move (fun _ => sepc ▸ tame.opened) (sepc ▸ tame.calm)
  | user | thread | handleSyscall | report | checkPendingSignals | threadExit => simp [pc] at result

theorem Quiet.schedule (sound : Sound s) {caller : Pc} {next : Word} (calls : Calls s.pc caller)
    (inQueue : next ∈ s.runnable) : Quiet (s.schedule caller next) := by
  have opened : s.sstatus.sie = true → Open caller := by
    intro on
    rcases calls with ⟨rfl, -⟩ | ⟨regs, here, -⟩
    · exact quiet.opened on
    · have was := quiet.opened on
      rw [here] at was
      simp [Open, Pc.mayEnable] at was
  have calm : Calm caller := by
    rcases calls with ⟨rfl, -⟩ | ⟨regs, -, rfl⟩
    · exact quiet.calm
    · trivial
  have current := (sound.caller calls).1
  rw [Machine.schedule]
  split
  · exact quiet.move opened calm
  rename_i different
  rw [current] at different
  let context : Thread := ⟨.schedule s.sstatus.sie caller, s.x sp, (s.setSie false).sstatus⟩
  have old : Function.update s.thread s.dispatched context next = s.thread next :=
    Function.update_of_ne (Ne.symm different) _ _
  obtain ⟨calmNext, openNext⟩ := quiet.contexts (sound.runnable inQueue)
  rw [current, switchTo]
  refine ⟨quiet.frames, quiet.savedRegs, ?_, ?_, ?_⟩
  · intro task inLive
    change Calm (Function.update s.thread s.dispatched context task).ra ∧ _
    rcases eq_or_ne task s.dispatched with rfl | notCurrent
    · change Calm (Function.update s.thread s.dispatched context s.dispatched).ra ∧
        ((Function.update s.thread s.dispatched context s.dispatched).sstatus.sie = true → _)
      rw [Function.update_self]
      exact ⟨⟨opened, calm⟩, fun on => absurd on (by simp [context, setSie])⟩
    · change Calm (Function.update s.thread s.dispatched context task).ra ∧
        ((Function.update s.thread s.dispatched context task).sstatus.sie = true →
          s.kernelSp task = 0#64 ∧ Open (Function.update s.thread s.dispatched context task).ra)
      rw [Function.update_of_ne notCurrent]
      exact quiet.contexts inLive
  · change (Function.update s.thread s.dispatched context next).sstatus.sie = true →
      Open (Function.update s.thread s.dispatched context next).ra
    rw [old]
    exact fun on => (openNext on).2
  · change Calm (Function.update s.thread s.dispatched context next).ra
    rw [old]
    exact calmNext

theorem Quiet.enqueue {frames : Word → Option PtRegs} {task stack kernelSp : Word}
    {context : Thread} (fresh : s.Fresh task stack) (tame : ∀ {a r}, frames a = some r → Tame r)
    (calm : Calm context.ra)
    (opened : context.sstatus.sie = true → kernelSp = 0#64 ∧ Open context.ra) :
    Quiet ({ s with frames := frames }.enqueue task stack kernelSp context) := by
  refine ⟨tame, ?_, ?_, quiet.opened, quiet.calm⟩
  · intro other r saved
    change Function.update s.savedRegs task none other = some r at saved
    rcases eq_or_ne other task with rfl | different
    · rw [Function.update_self] at saved
      exact absurd saved (by simp)
    · rw [Function.update_of_ne different] at saved
      exact quiet.savedRegs saved
  · intro other inLive
    change Calm (Function.update s.thread task context other).ra ∧
      ((Function.update s.thread task context other).sstatus.sie = true →
        Function.update s.kernelSp task kernelSp other = 0#64 ∧
        Open (Function.update s.thread task context other).ra)
    rcases Finset.mem_insert.mp inLive with rfl | was
    · simp only [Function.update_self]
      exact ⟨calm, opened⟩
    · have different : other ≠ task := fun same => fresh.task (same ▸ was)
      simp only [Function.update_of_ne different]
      exact quiet.contexts was

/-- A frame is stored and interrupts stay as they are. -/
theorem Quiet.replace {regs : Word} {r : PtRegs} {pc : Pc} {x : Reg → Word} {sstatus : Sstatus}
    {savedRegs : Word → Option PtRegs} (tame : Tame r)
    (saved : ∀ {task r}, savedRegs task = some r → Tame r)
    (opened : sstatus.sie = true → Open pc) (calm : Calm pc) :
    Quiet { s with
      pc := pc, x := x, sstatus := sstatus, savedRegs := savedRegs,
      frames := Machine.store s.frames regs r } :=
  ⟨quiet.store tame, saved, quiet.contexts, opened, calm⟩

theorem Quiet.sysFork (sound : Sound s) {regs child stack : Word}
    (here : s.pc = .handleSyscall regs) (fresh : s.Fresh child stack)
    (result : s.sysFork regs child stack = some t) : Quiet t := by
  obtain ⟨current, active, old, oldFrame, user⟩ := sound.syscall here
  obtain ⟨-, -, -, -, nonzero⟩ := Activation.of_user oldFrame active user
  obtain ⟨r, frame, rfl⟩ := Option.map_eq_some_iff.mp result
  rw [current] at frame ⊢
  have copied : ∀ {a r}, copyStack s.frames (s.stack s.dispatched) stack a = some r → Tame r := by
    intro a r there
    rw [copyStack] at there
    split at there
    · split at there
      · exact quiet.frames there
      · exact absurd there (by simp)
    · split at there
      · exact absurd there (by simp)
      · exact quiet.frames there
  have off : (s.thread s.dispatched).sstatus.sie = false := by
    by_contra on
    exact nonzero ((quiet.contexts sound.current).2 (Bool.not_eq_false _ ▸ on)).1
  have tame := copied frame
  have childTame : Tame { r with
      x := Function.update (Function.update r.x a0 0#64) tp child, epc := r.epc.next } :=
    ⟨tame.sie, open_next tame.opened, calm_next tame.calm⟩
  refine quiet.enqueue fresh (fun {a found} there => ?_) trivial fun on =>
    absurd (off.symm.trans on) (by decide)
  rw [Machine.store] at there
  split at there
  · obtain rfl := Option.some.inj there
    exact childTame
  · split at there
    · exact absurd there (by simp)
    · exact copied there

theorem Quiet.checkPendingSignals {regs : Word} {handler : Option Word}
    (here : s.pc = .checkPendingSignals regs)
    (result : s.checkPendingSignals regs handler = some t) : Quiet t := by
  have off : s.sstatus.sie = false := quiet.sie (by rw [here]; simp [Open, Pc.mayEnable])
  have opened : s.sstatus.sie = true → Open .retFromException :=
    fun on => absurd (off.symm.trans on) (by decide)
  obtain ⟨r, frame, rfl⟩ := Option.map_eq_some_iff.mp result
  have tame := quiet.frames frame
  cases handler with
  | none => exact quiet.move opened trivial
  | some va =>
    simp only
    split
    · exact quiet.move opened trivial
    · refine quiet.replace ⟨tame.sie, trivial, trivial⟩
        (fun {task found} saved => ?_) opened trivial
      change Function.update s.savedRegs s.getCurrent (some r) task = some found at saved
      rcases eq_or_ne task s.getCurrent with rfl | different
      · rw [Function.update_self] at saved
        obtain rfl := Option.some.inj saved
        exact tame
      · rw [Function.update_of_ne different] at saved
        exact quiet.savedRegs saved

/-- One step keeps interrupts off wherever they must be. -/
theorem Quiet.step {event : Event} (sound : Sound s) (safe : Safe s event)
    (step : Step s event t) : Quiet t := by
  cases step with
  | user here => exact quiet.move (fun _ => trivial) trivial
  | trap here => exact quiet.trap (by rw [here]; trivial)
  | interrupt _ on => exact quiet.trap (quiet.opened on)
  | pageFault here => exact quiet.trap (by rw [here]; rfl)
  | compute => exact quiet.move quiet.opened quiet.calm
  | setSie may => exact quiet.move (fun _ => open_of_mayEnable may) quiet.calm
  | advance result => exact quiet.advance sound result
  | startCallback => exact quiet.move (fun _ => rfl) trivial
  | schedule calls inQueue => exact quiet.schedule sound calls inQueue
  | createUserProcess here fresh =>
    rename_i task stack
    rw [createUserProcess_eq]
    have off : s.sstatus.sie = false := safe
    have tame : Tame (execFrame s task) := ⟨off, trivial, trivial⟩
    exact quiet.enqueue fresh (quiet.store tame) trivial fun on =>
      absurd (off.symm.trans on) (by decide)
  | threadCreate here fresh => exact quiet.enqueue fresh quiet.frames trivial fun _ => ⟨rfl, rfl⟩
  | killZombies here =>
    exact ⟨quiet.frames, quiet.savedRegs,
      fun inLive => quiet.contexts (Finset.mem_inter.mp inLive).1, quiet.opened, quiet.calm⟩
  | threadExit => exact ⟨quiet.frames, quiet.savedRegs, quiet.contexts, fun _ => rfl, trivial⟩
  | sysStop => exact ⟨quiet.frames, quiet.savedRegs, quiet.contexts, quiet.opened, quiet.calm⟩
  | sysExec here =>
    have off : s.sstatus.sie = false := safe
    exact quiet.replace ⟨off, trivial, trivial⟩ quiet.savedRegs quiet.opened quiet.calm
  | sysFork here fresh result => exact quiet.sysFork sound here fresh result
  | sysSigreturn here =>
    rw [Machine.sysSigreturn]
    split
    · exact quiet
    · rename_i r saved
      refine quiet.replace (quiet.savedRegs saved)
        (fun {task found} there => ?_) quiet.opened quiet.calm
      rcases eq_or_ne task s.getCurrent with rfl | different
      · rw [Function.update_self] at there
        exact absurd there (by simp)
      · rw [Function.update_of_ne different] at there
        exact quiet.savedRegs there
  | endSyscall here result =>
    rename_i regs value skip
    obtain ⟨r, frame, rfl⟩ := Option.map_eq_some_iff.mp result
    have tame := quiet.frames frame
    have next : Open (if skip then r.epc else r.epc.next) ∧
        Calm (if skip then r.epc else r.epc.next) := by
      split
      · exact ⟨tame.opened, tame.calm⟩
      · exact ⟨open_next tame.opened, calm_next tame.calm⟩
    exact quiet.replace ⟨tame.sie, next.1, next.2⟩
      quiet.savedRegs (fun on => absurd on (by simp)) trivial
  | checkPendingSignals here result => exact quiet.checkPendingSignals here result

end Quiet

/-! ## Runs -/

/-- The positions of `ret_from_exception`. -/
def Returning : Pc → Prop
  | .retFromException | .csrwSepc | .csrwSstatus _ | .restore => True
  | _ => False

/-- A frame that is restored for a return to user mode has `SIE` clear. -/
def ReturnsMasked (s : Machine) : Prop :=
  Returning s.pc → ∀ r, s.frames (s.x sp) = some r → r.sstatus.spp = false → r.sstatus.sie = false

/-- No trap is taken in `ret_from_exception`, and no frame is stored. -/
def ReturnsAlone (s : Machine) : Prop :=
  Returning s.pc → ∀ event t, Step s event t → (∀ cause, event ≠ .trap cause) ∧ t.frames = s.frames

private theorem advance_frames {s t : Machine} (returning : Returning s.pc)
    (result : s.advance = some t) :
    t.frames = s.frames := by
  rw [advance] at result
  cases pc : s.pc with
  | retFromException | csrwSepc =>
    rw [pc] at result
    obtain ⟨r, -, rfl⟩ := Option.map_eq_some_iff.mp result
    rfl
  | csrwSstatus =>
    rw [pc] at result
    obtain rfl := Option.some.inj result
    rfl
  | restore =>
    rw [pc] at result
    obtain ⟨r, -, rest⟩ := Option.bind_eq_some_iff.mp result
    split at rest
    · obtain rfl := Option.some.inj rest
      rfl
    · exact absurd rest (by simp)
  | _ =>
    rw [pc] at returning
    exact returning.elim

theorem Quiet.alone {s : Machine} (quiet : Quiet s) : ReturnsAlone s := by
  intro returning event t step
  have off : s.sstatus.sie = false := by
    apply quiet.sie
    cases pc : s.pc <;> simp_all [Returning, Open, Pc.mayEnable]
  have elsewhere : ∀ {pc : Pc}, s.pc = pc → ¬ Returning pc →
      (∀ cause, event ≠ .trap cause) ∧ t.frames = s.frames :=
    fun here not => absurd (here ▸ returning) not
  cases step with
  | advance result => exact ⟨fun _ => by simp, advance_frames returning result⟩
  | interrupt _ on => exact absurd (off.symm.trans on) (by decide)
  | user here | trap here | pageFault here | startCallback here | createUserProcess here
  | threadCreate here | killZombies here | sysStop here | sysExec here | sysFork here
  | sysSigreturn here | endSyscall here | checkPendingSignals here =>
    exact elsewhere here (by simp [Returning])
  | compute here => cases pc : s.pc <;> simp_all [Returning, Pc.base, Pc.regs]
  | setSie may => cases pc : s.pc <;> simp_all [Returning, Pc.mayEnable]
  | schedule calls =>
    rcases calls with ⟨-, base, here | here | here⟩ | ⟨regs, here, -⟩
    all_goals exact elsewhere here (by simp [Returning])
  | threadExit exits =>
    rcases exits with here | here | here
    all_goals exact elsewhere here (by simp [Returning])

private theorem run_quiet {s t : Machine} {events : List Event} (sound : Sound s) (quiet : Quiet s)
    (run : System.Path (transitions.restrict Safe) s events t) : Quiet t := by
  refine (run.invariant (P := fun s => Sound s ∧ Quiet s)
    (fun {s event t} both step => ?_) ⟨sound, quiet⟩).2
  obtain ⟨sound, quiet⟩ := both
  exact ⟨sound.step ⟨quiet.safe step.1 step.2, step.2⟩, quiet.step sound step.1 step.2⟩

private theorem quiet_booted {s : Machine} (booted : Booted s) : Quiet s where
  frames := by
    intro a r here
    rw [booted.frames] at here
    exact absurd here (by simp)
  savedRegs := by
    intro task r saved
    rw [booted.savedRegs] at saved
    exact absurd saved (by simp)
  contexts := by
    intro task inLive
    rw [booted.live, Finset.mem_singleton] at inLive
    obtain ⟨top, context⟩ := booted.context
    rw [inLive, context]
    exact ⟨trivial, fun _ => ⟨booted.kernelSp, rfl⟩⟩
  opened := by
    obtain ⟨top, pc, -⟩ := booted.thread
    rw [pc]
    exact fun _ => rfl
  calm := by
    obtain ⟨top, pc, -⟩ := booted.thread
    rw [pc]
    trivial

/-- In every run in which `do_exec` runs with interrupts disabled, besides the conditions of `Safe`
on user code and `switch_to`, every frame that is restored for a return to user mode has `SIE`
clear, no trap is taken while it is restored, and nothing is stored over it. -/
theorem trap_return_masked {s t : Machine} {events : List Event} (booted : Booted s)
    (run : System.Path (transitions.restrict Safe) s events t) :
    ReturnsMasked t ∧ ReturnsAlone t := by
  have quiet := run_quiet booted.sound (quiet_booted booted) run
  exact ⟨fun _ r frame _ => (quiet.frames frame).sie, quiet.alone⟩

/-- An interrupt after `sscratch` was set stores its frame over the one that is being restored. -/
theorem interrupt_overwrites {s : Machine} (cause : Cause) (here : s.pc = .csrwSepc)
    (scratch : s.sscratch = s.x sp + ptRegsSize) (nonzero : s.sscratch ≠ 0#64) :
    (s.handleException cause).frames
    (s.x sp) = some ⟨s.x, .csrwSepc, ⟨false, s.sstatus.sie, true⟩⟩ := by
  have place : s.x sp + ptRegsSize - ptRegsSize = s.x sp := BitVec.add_sub_cancel _ _
  simp only [handleException, if_pos nonzero, here]
  rw [scratch, place, store_self]
  rfl

/-- The shell starts a process with interrupts enabled. -/
theorem trap_return_enabled : ¬ ∀ s t events, Booted s → System.Path transitions s events t →
    ReturnsMasked t ∧ ReturnsAlone t := by
  intro always
  obtain ⟨t, run, pc, -, -, -, -, frame⟩ :=
    dispatch_path (fun _ _ => True) trivial (fun _ => trivial)
    (fun _ => trivial) rfl bootMachine_fresh (by decide)
  have masked := (always bootMachine t _ bootMachine_booted run.of_restrict).1
  exact absurd (masked (by rw [pc]; trivial) _ frame rfl) (by decide)

/-- A kernel thread that starts a process with interrupts disabled. -/
theorem trap_return_masked_boot :
    ∃ events t, System.Path (transitions.restrict Safe) bootMachine events t ∧
    t.pc = .retFromException ∧ ReturnsMasked t ∧ ReturnsAlone t := by
  have first : (transitions.restrict Safe).Step bootMachine (.setSie false)
      (bootMachine.setSie false) :=
    ⟨trivial, .setSie rfl⟩
  have fresh : (bootMachine.setSie false).Fresh 0x2000#64 0x20000#64 :=
    ⟨bootMachine_fresh.task, bootMachine_fresh.top, bootMachine_fresh.stack⟩
  obtain ⟨t, run, pc, -⟩ :=
    dispatch_path (s := bootMachine.setSie false) Safe rfl (fun _ => trivial)
    (fun _ => trivial) rfl fresh (by decide)
  exact ⟨_, t, .cons first run, pc, trap_return_masked bootMachine_booted (.cons first run)⟩

end OscKernel.Soundness.TrapReturn
