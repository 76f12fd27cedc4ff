import OscKernel.Lib.System
import OscKernel.Model.SignalDelivery

/-! # Delivery of caught signals

`check_pending_signals` knows one signal number. A task gets all its caught signals exactly when
none of them has another number (`delivered_iff`). In the runs in which every posted signal has that
number, every task gets all its signals in every state, and a pending bit is cleared only by
entering its handler.
-/

namespace OscKernel.Soundness.SignalDelivery

open OscKernel.Lib OscKernel.Model

/-! ## One task -/

/-- The signal is pending. -/
def Pending (t : SignalTask) (signum : Fin 32) : Prop := t.pendingSignals.getLsbD signum = true

/-- The signal is pending and has a handler. -/
def Caught (t : SignalTask) (signum : Fin 32) : Prop :=
  Pending t signum ∧ t.sigHandlers signum ≠ 0#64

/-- Returning to user mode from a trap with these registers. -/
def trapReturn (t : SignalTask) (regs : Vm.PtRegs) : SignalTask × Option (Fin 32) :=
  { t with regs }.checkPendingSignals

/-- Whatever the traps, the next returns to user mode enter the handlers of these signals one after
the other, each return clearing the bit of its signal and no other, and the return after them enters
none. -/
def Enters : SignalTask → List (Fin 32) → Prop
  | t, [] => ∀ regs, trapReturn t regs = ({ t with regs }, none)
  | t, signum :: rest => ∀ regs, (trapReturn t regs).2 = some signum ∧
      (trapReturn t regs).1.regs Vm.PtRegs.epc = t.sigHandlers signum ∧
      (trapReturn t regs).1.pendingSignals = t.pendingSignals &&& ~~~signalBit signum ∧
      (trapReturn t regs).1.sigHandlers = t.sigHandlers ∧ Enters (trapReturn t regs).1 rest

/-- The next returns enter the handler of each caught signal once, and no caught signal is left. -/
def Delivered (t : SignalTask) : Prop :=
  ∃ order : List (Fin 32), order.Nodup ∧ (∀ signum, signum ∈ order ↔ Caught t signum) ∧
    Enters t order

theorem getLsbD_signalBit (signum other : Fin 32) :
    (signalBit signum).getLsbD other = decide (other = signum) := by
  rw [signalBit, BitVec.getLsbD_shiftLeft, BitVec.getLsbD_one]
  have small := other.isLt
  rcases eq_or_ne other signum with rfl | different
  · simp
  · have values : other.val ≠ signum.val := fun same => different (Fin.val_injective same)
    simp only [different, decide_false, small, decide_true, Bool.true_and]
    rcases Nat.lt_or_ge other.val signum.val with below | above
    · simp [below]
    · simp
      omega

theorem and_signalBit (x : BitVec 32) (signum : Fin 32) :
    x &&& signalBit signum ≠ 0#32 ↔ x.getLsbD signum = true := by
  constructor
  · intro nonzero
    by_contra clear
    apply nonzero
    apply BitVec.eq_of_getLsbD_eq
    intro i inside
    have bit := getLsbD_signalBit signum ⟨i, inside⟩
    simp only at bit
    rw [BitVec.getLsbD_and, bit, BitVec.getLsbD_zero]
    rcases eq_or_ne (⟨i, inside⟩ : Fin 32) signum with rfl | different
    · simpa using clear
    · simp [different]
  · intro set zero
    have bit := congrArg (BitVec.getLsbD · signum) zero
    simp only [BitVec.getLsbD_and, set, getLsbD_signalBit, decide_true, Bool.and_self,
      BitVec.getLsbD_zero] at bit
    exact absurd bit (by decide)

/-- Adding a bit to what was pending. -/
theorem getLsbD_or_signalBit (x : BitVec 32) (signum other : Fin 32) :
    (x ||| signalBit signum).getLsbD other = (x.getLsbD other || decide (other = signum)) := by
  rw [BitVec.getLsbD_or, getLsbD_signalBit]

theorem getLsbD_clear (x : BitVec 32) (signum other : Fin 32) :
    (x &&& ~~~signalBit signum).getLsbD other = (x.getLsbD other && !decide (other = signum)) := by
  rw [BitVec.getLsbD_and, BitVec.getLsbD_not, getLsbD_signalBit]
  simp [other.isLt]

/-- A return either finds signal 15 caught and enters its handler, or does nothing. -/
theorem trapReturn_eq (t : SignalTask) (regs : Vm.PtRegs) :
    (Caught t 15 ∧ trapReturn t regs = ({ t with
        savedRegs := some regs
        regs := Processes.enterHandler regs (t.sigHandlers 15)
        pendingSignals := t.pendingSignals &&& ~~~signalBit 15 }, some 15)) ∨
    (¬ Caught t 15 ∧ trapReturn t regs = ({ t with regs }, none)) := by
  rw [trapReturn, SignalTask.checkPendingSignals]
  by_cases nothing : t.pendingSignals = 0#32
  · right
    refine ⟨?_, if_pos nothing⟩
    rintro ⟨pending, -⟩
    rw [Pending, nothing] at pending
    simp at pending
  · rw [if_neg nothing]
    by_cases caught : t.sigHandlers 15 ≠ 0#64 ∧ t.pendingSignals &&& signalBit 15 ≠ 0#32
    · left
      exact ⟨⟨(and_signalBit _ _).mp caught.2, caught.1⟩, if_pos caught⟩
    · right
      refine ⟨fun ⟨pending, handled⟩ => caught ⟨handled, (and_signalBit _ _).mpr pending⟩,
        if_neg caught⟩

/-- A task gets all its caught signals exactly when there is none but signal 15. -/
theorem delivered_iff (t : SignalTask) : Delivered t ↔ ∀ signum, Caught t signum → signum = 15 := by
  constructor
  · rintro ⟨order, -, members, enters⟩ signum caught
    have inOrder := (members signum).mpr caught
    clear caught members
    induction order generalizing t with
    | nil => exact absurd inOrder List.not_mem_nil
    | cons first rest ih =>
      obtain ⟨entered, -, -, -, later⟩ := enters t.regs
      rcases List.mem_cons.mp inOrder with rfl | inRest
      · rcases trapReturn_eq t t.regs with ⟨-, returned⟩ | ⟨-, returned⟩
        · rw [returned] at entered
          exact (Option.some.inj entered).symm
        · rw [returned] at entered
          cases entered
      · exact ih _ later inRest
  · intro only
    by_cases caught : Caught t 15
    · refine ⟨[15], List.nodup_singleton _, fun signum => ?_, fun regs => ?_⟩
      · rw [List.mem_singleton]
        exact ⟨fun same => same ▸ caught, only signum⟩
      · rcases trapReturn_eq t regs with ⟨-, returned⟩ | ⟨uncaught, -⟩
        · rw [returned]
          refine ⟨rfl, rfl, rfl, rfl, fun again => ?_⟩
          rcases trapReturn_eq { t with
            savedRegs := some regs
            regs := Processes.enterHandler regs (t.sigHandlers 15)
            pendingSignals := t.pendingSignals &&& ~~~signalBit 15 } again with ⟨⟨pending, -⟩, -⟩ |
              ⟨-, returned'⟩
          · rw [Pending, getLsbD_clear] at pending
            simp at pending
          · exact returned'
        · exact absurd caught uncaught
    · refine ⟨[], List.nodup_nil, fun signum => ?_, fun regs => ?_⟩
      · refine ⟨fun member => absurd member List.not_mem_nil, fun here => ?_⟩
        exact absurd (only signum here ▸ here) caught
      · rcases trapReturn_eq t regs with ⟨here, -⟩ | ⟨-, returned⟩
        · exact absurd here caught
        · exact returned

/-! ## All tasks -/

inductive Event where
  | start (sigHandlers : Fin 32 → Word) (regs : Vm.PtRegs)
  | fork (parent : ℕ) (regs : Vm.PtRegs)
  | exit (pid : ℕ)
  | sysSignal (pid : ℕ) (signum : BitVec 32) (handler : Word) (ret : ℤ)
  | sysKill (killer pid : ℕ) (signum : BitVec 32) (ret : Option ℤ)
  | post (killer : ℕ) (posting : Posting)
  | trapReturn (pid : ℕ) (regs : Vm.PtRegs) (entered : Option (Fin 32))
  | sysSigreturn (pid : ℕ)

/-- A task that is inside `sys_kill` does nothing else. -/
inductive Step (s : SignalTasks) : Event → SignalTasks → Prop
  /-- `create_user_process`: the new `task_struct` is cleared. -/
  | start (regs : Vm.PtRegs) : Step s (.start (fun _ => 0#64) regs) (s.start (fun _ => 0#64) regs)
  | fork {parent : ℕ} {t : SignalTask} (present : s.task parent = some t) (regs : Vm.PtRegs) :
      Step s (.fork parent regs) (s.start t.sigHandlers regs)
  | exit (pid : ℕ) : Step s (.exit pid) (s.setTask pid none)
  | sysSignal {pid : ℕ} {t : SignalTask} (present : s.task pid = some t)
      (ready : s.posting pid = none)
      (signum : BitVec 32) (handler : Word) :
      Step s (.sysSignal pid signum handler (t.sysSignal signum handler).1)
        (s.setTask pid (some (t.sysSignal signum handler).2))
  | sysKill {killer : ℕ} (present : (s.task killer).isSome)
      (ready : s.posting killer = none) (pid : ℕ)
      (signum : BitVec 32) : Step s (.sysKill killer pid signum (s.sysKill killer pid signum).1)
        (s.sysKill killer pid signum).2
  | post {killer : ℕ} {posting : Posting} (present : (s.task killer).isSome)
      (begun : s.posting killer = some posting) :
      Step s (.post killer posting) (s.post killer posting)
  | trapReturn {pid : ℕ} {t : SignalTask} (present : s.task pid = some t)
      (ready : s.posting pid = none)
      (regs : Vm.PtRegs) : Step s (.trapReturn pid regs (trapReturn t regs).2)
        (s.setTask pid (some (trapReturn t regs).1))
  | sysSigreturn {pid : ℕ} {t : SignalTask} (present : s.task pid = some t)
      (ready : s.posting pid = none) :
      Step s (.sysSigreturn pid) (s.setTask pid (some t.sysSigreturn))

/-- Tasks that register handlers, send signals to each other, fork, exit and return from traps in
any order. -/
def transitions : System SignalTasks Event := ⟨Step⟩

/-- Before the first user process. -/
def boot : SignalTasks := ⟨fun _ => none, fun _ => none, 0⟩

/-- A signal that is posted has number 15. -/
def Terminates (_ : SignalTasks) : Event → Prop
  | .post _ posting => posting.signum.val = 15
  | _ => True

/-- A pending signal of a task that stays is pending after the step, unless the step entered its
handler; and a signal that was posted is pending. -/
structure Keeps (s : SignalTasks) (event : Event) (t : SignalTasks) : Prop where
  pending : ∀ {pid before after signum}, s.task pid = some before →
    t.task pid = some after → Pending before signum →
    Pending after signum ∨ ∃ regs, event = .trapReturn pid regs (some signum)
  posted : ∀ {killer posting after}, event = .post killer posting →
    t.task posting.target = some after →
    Pending after posting.signum

/-- Only signal 15 is pending or about to be. -/
structure Only (s : SignalTasks) : Prop where
  pending : ∀ {pid t signum}, s.task pid = some t → Pending t signum → signum = 15
  loaded : ∀ {killer posting} {signum : Fin 32}, s.posting killer = some posting →
    posting.loaded.getLsbD signum = true → signum = 15
  fresh : ∀ {pid}, s.nrThreads ≤ pid → s.task pid = none

private theorem only_boot : Only boot where
  pending := nofun
  loaded := nofun
  fresh _ := rfl

section Steps

variable {s : SignalTasks}

/-- Replacing one task by one with no other pending signals. -/
theorem Only.setTask (only : Only s) {pid : ℕ} {task : Option SignalTask}
    (pending : ∀ {t signum}, task = some t → Pending t signum → signum = 15)
    (known : task = none ∨ (s.task pid).isSome) : Only (s.setTask pid task) where
  pending := by
    intro other t signum present here
    rw [SignalTasks.setTask_task] at present
    split_ifs at present with same
    · exact pending present here
    · exact only.pending present here
  loaded := only.loaded
  fresh := by
    intro other beyond
    rw [SignalTasks.setTask_task]
    split_ifs with same
    · subst same
      rcases known with rfl | there
      · rfl
      · rw [only.fresh beyond] at there
        cases there
    · exact only.fresh beyond

theorem Only.start (only : Only s) (sigHandlers : Fin 32 → Word) (regs : Vm.PtRegs) :
    Only (s.start sigHandlers regs) where
  pending := by
    intro pid t signum present here
    rw [SignalTasks.start_task] at present
    split_ifs at present with same
    · obtain rfl := Option.some.inj present
      rw [Pending, BitVec.getLsbD_zero] at here
      cases here
    · exact only.pending present here
  loaded := only.loaded
  fresh := by
    intro pid beyond
    change s.nrThreads + 1 ≤ pid at beyond
    rw [SignalTasks.start_task, if_neg (by omega)]
    exact only.fresh (by omega)

theorem Only.setPosting (only : Only s) {killer : ℕ} {posting : Option Posting}
    (loaded : ∀ {p} {signum : Fin 32}, posting = some p →
      p.loaded.getLsbD signum = true → signum = 15) :
    Only (s.setPosting killer posting) where
  pending := only.pending
  loaded := by
    intro other p signum begun here
    rw [SignalTasks.setPosting_posting] at begun
    split_ifs at begun with same
    · exact loaded begun here
    · exact only.loaded begun here
  fresh := only.fresh

/-- A return to user mode leaves pending what was, or clears the bit of the signal it entered. -/
theorem trapReturn_pending (t : SignalTask) (regs : Vm.PtRegs) (signum : Fin 32) :
    (Pending (trapReturn t regs).1 signum → Pending t signum) ∧
      (Pending t signum → Pending (trapReturn t regs).1 signum ∨
        (trapReturn t regs).2 = some signum) := by
  rcases trapReturn_eq t regs with ⟨-, returned⟩ | ⟨-, returned⟩
  · rw [returned]
    simp only [Pending, getLsbD_clear, Bool.and_eq_true, Bool.not_eq_true', decide_eq_false_iff_not]
    refine ⟨fun here => here.1, fun here => ?_⟩
    rcases eq_or_ne signum 15 with rfl | other
    · exact .inr rfl
    · exact .inl ⟨here, other⟩
  · rw [returned]
    exact ⟨id, .inl⟩

theorem sysSignal_pending (t : SignalTask) (signum : BitVec 32) (handler : Word) :
    (t.sysSignal signum handler).2.pendingSignals = t.pendingSignals := by
  rw [SignalTask.sysSignal]
  split <;> rfl

theorem sysSigreturn_pending (t : SignalTask) :
    t.sysSigreturn.pendingSignals = t.pendingSignals := by
  rw [SignalTask.sysSigreturn]
  split <;> rfl

/-- What `sys_kill` does before its write. -/
theorem sysKill_cases (s : SignalTasks) (killer pid : ℕ) (signum : BitVec 32) :
    (s.sysKill killer pid signum).2 = s ∨ (s.sysKill killer pid signum).2 = s.setTask pid none ∨
    ∃ target number, s.task pid = some target ∧
      (s.sysKill killer pid signum).2 = s.setPosting killer
      (some ⟨pid, number, target.pendingSignals⟩) := by
  rw [SignalTasks.sysKill]
  cases acceptedSignal signum with
  | none => exact .inl rfl
  | some number =>
    cases present : s.task pid with
    | none => exact .inl rfl
    | some target =>
      simp only
      split
      · exact .inr (.inr ⟨target, number, rfl, rfl⟩)
      · rw [SignalTasks.sysStop]
        split
        · exact .inl rfl
        · exact .inr (.inl rfl)

/-- A step that posts no signal but 15 leaves no other signal pending. -/
theorem Only.step {t : SignalTasks} {event : Event} (only : Only s)
    (step : (transitions.restrict Terminates).Step s event t) : Only t := by
  obtain ⟨terminates, step⟩ := step
  cases step with
  | start regs => exact only.start _ regs
  | fork present regs => exact only.start _ regs
  | exit pid => exact only.setTask nofun (.inl rfl)
  | @sysSignal pid task present ready signum handler =>
    refine only.setTask ?_ (.inr (Option.isSome_iff_exists.mpr ⟨_, present⟩))
    rintro _ number ⟨⟩ here
    rw [Pending, sysSignal_pending] at here
    exact only.pending present here
  | sysKill present ready pid signum =>
    rcases sysKill_cases s _ pid signum with same | same | ⟨target, number, found, same⟩
    · rwa [same]
    · rw [same]
      exact only.setTask nofun (.inl rfl)
    · rw [same]
      refine only.setPosting ?_
      rintro _ other ⟨⟩ here
      exact only.pending found here
  | @post killer posting present begun =>
    have done : Only (s.setPosting killer none) := only.setPosting nofun
    rw [SignalTasks.post]
    cases found : (s.setPosting killer none).task posting.target with
    | none => exact done
    | some target =>
      refine done.setTask ?_ (.inr (Option.isSome_iff_exists.mpr ⟨_, found⟩))
      rintro _ number ⟨⟩ here
      rw [Pending, getLsbD_or_signalBit, Bool.or_eq_true, decide_eq_true_eq] at here
      rcases here with loaded | same
      · exact only.loaded begun loaded
      · exact same.trans (Fin.ext terminates)
  | @trapReturn pid task present ready regs =>
    refine only.setTask ?_ (.inr (Option.isSome_iff_exists.mpr ⟨_, present⟩))
    rintro _ number ⟨⟩ here
    exact only.pending present ((trapReturn_pending task regs number).1 here)
  | @sysSigreturn pid task present ready =>
    refine only.setTask ?_ (.inr (Option.isSome_iff_exists.mpr ⟨_, present⟩))
    rintro _ number ⟨⟩ here
    rw [Pending, sysSigreturn_pending] at here
    exact only.pending present here

/-- Replacing a task keeps its pending signals when they are pending in the new one. -/
theorem keeps_setTask {event : Event} {pid : ℕ} {task : Option SignalTask}
    (noPost : ∀ killer posting, event ≠ .post killer posting) (pending : ∀ {before after signum},
      s.task pid = some before → task = some after → Pending before signum →
      Pending after signum ∨ ∃ regs, event = .trapReturn pid regs (some signum)) :
      Keeps s event (s.setTask pid task) where
  pending := by
    intro other before after signum present present' here
    rw [SignalTasks.setTask_task] at present'
    split_ifs at present' with same
    · subst same
      exact pending present present' here
    · obtain rfl := Option.some.inj (present.symm.trans present')
      exact .inl here
  posted same := absurd same (noPost _ _)

theorem keeps_start (only : Only s) {event : Event}
    (noPost : ∀ killer posting, event ≠ .post killer posting) (sigHandlers : Fin 32 → Word)
    (regs : Vm.PtRegs) : Keeps s event (s.start sigHandlers regs) where
  pending := by
    intro other before after signum present present' here
    rw [SignalTasks.start_task] at present'
    split_ifs at present' with same
    · rw [same, only.fresh (le_refl _)] at present
      cases present
    · obtain rfl := Option.some.inj (present.symm.trans present')
      exact .inl here
  posted same := absurd same (noPost _ _)

/-- A step that posts no signal but 15 loses no pending signal. -/
private theorem keeps_of_only {t : SignalTasks} {event : Event} (only : Only s)
    (step : (transitions.restrict Terminates).Step s event t) : Keeps s event t := by
  obtain ⟨terminates, step⟩ := step
  have unchanged : ∀ {u : SignalTasks} {event : Event}, u.task = s.task →
      (∀ killer posting, event ≠ .post killer posting) → Keeps s event u := by
    intro u event same noPost
    refine ⟨fun {pid before after signum} present present' here => ?_,
      fun equal => absurd equal (noPost _ _)⟩
    rw [same] at present'
    obtain rfl := Option.some.inj (present.symm.trans present')
    exact .inl here
  cases step with
  | start regs => exact keeps_start only (by nofun) _ regs
  | fork present regs => exact keeps_start only (by nofun) _ regs
  | exit pid => exact keeps_setTask nofun nofun
  | @sysSignal pid task present ready signum handler =>
    refine keeps_setTask nofun ?_
    rintro before _ number there ⟨⟩ here
    obtain rfl := Option.some.inj (present.symm.trans there)
    left
    rwa [Pending, sysSignal_pending]
  | sysKill present ready pid signum =>
    rcases sysKill_cases s _ pid signum with same | same | ⟨target, number, found, same⟩
    · rw [same]
      exact unchanged rfl nofun
    · rw [same]
      exact keeps_setTask nofun nofun
    · rw [same]
      exact unchanged rfl nofun
  | @post killer posting present begun =>
    rw [SignalTasks.post]
    cases found : (s.setPosting killer none).task posting.target with
    | none =>
      refine ⟨fun {pid before after signum} there there' here => ?_,
        fun {killer' posting' after} same there => ?_⟩
      · obtain rfl := Option.some.inj (there.symm.trans there')
        exact .inl here
      · obtain ⟨rfl, rfl⟩ := Event.post.inj same
        exact absurd (found.symm.trans there) (by simp)
    | some target =>
      refine ⟨fun {pid before after signum} there there' here => ?_,
        fun {killer' posting' after} same there => ?_⟩
      · obtain rfl := only.pending there here
        left
        rw [SignalTasks.setTask_task] at there'
        split_ifs at there' with same
        · obtain rfl := Option.some.inj there'
          rw [Pending, getLsbD_or_signalBit, show posting.signum = 15 from Fin.ext terminates]
          simp
        · obtain rfl := Option.some.inj (there.symm.trans there')
          exact here
      · obtain ⟨rfl, rfl⟩ := Event.post.inj same
        rw [SignalTasks.setTask_task, if_pos rfl] at there
        obtain rfl := Option.some.inj there
        rw [Pending, getLsbD_or_signalBit]
        simp
  | @trapReturn pid task present ready regs =>
    refine keeps_setTask nofun ?_
    rintro before _ number there ⟨⟩ here
    obtain rfl := Option.some.inj (present.symm.trans there)
    rcases (trapReturn_pending task regs number).2 here with still | entered
    · exact .inl still
    · exact .inr ⟨regs, by rw [entered]⟩
  | @sysSigreturn pid task present ready =>
    refine keeps_setTask nofun ?_
    rintro before _ number there ⟨⟩ here
    obtain rfl := Option.some.inj (present.symm.trans there)
    left
    rwa [Pending, sysSigreturn_pending]

end Steps

/-- A task gets all its caught signals exactly when none has a number other than 15. In every run in
which each signal posted is signal 15, every task gets all its caught signals in every state, and in
every step a posted signal becomes pending and only entering its handler makes it not pending. -/
theorem signals_delivered (t : SignalTask) :
    (Delivered t ↔ ∀ signum, Caught t signum → signum = 15) ∧
    ∀ past s, (transitions.restrict Terminates).Path boot past s →
      (∀ pid t, s.task pid = some t → Delivered t) ∧
      ∀ event next, (transitions.restrict Terminates).Step s event next → Keeps s event next := by
  refine ⟨delivered_iff t, fun past s run => ?_⟩
  have only : Only s := run.invariant Only.step only_boot
  refine ⟨fun pid t present => ?_, fun event next step => keeps_of_only only step⟩
  rw [delivered_iff]
  exact fun signum caught => only.pending present caught.1

/-! ## A run with one signal -/

/-- The first task has registered a handler for the signal. -/
def listener (number : Fin 32) : SignalTask :=
  ⟨Function.update (fun _ => 0#64) number 0x1000#64, 0#32, fun _ => 0#64, none⟩

def twoTasks : SignalTasks :=
  (boot.start (fun _ => 0#64) fun _ => 0#64).start (fun _ => 0#64) fun _ => 0#64

def listening (number : Fin 32) : SignalTasks := twoTasks.setTask 0 (some (listener number))

/-- The second task has sent it the signal. -/
def signalled (number : Fin 32) : SignalTasks :=
  ((listening number).setPosting 1 (some ⟨0, number, 0#32⟩)).post 1 ⟨0, number, 0#32⟩

theorem acceptedSignal_ofNat :
    ∀ number : Fin 32, acceptedSignal (BitVec.ofNat 32 number) = some number := by decide

theorem registers (number : Fin 32) :
    transitions.Step twoTasks (.sysSignal 0 (BitVec.ofNat 32 number) 0x1000#64 0)
      (listening number) := by
  have present : twoTasks.task 0 = some ⟨fun _ => 0#64, 0#32, fun _ => 0#64, none⟩ := rfl
  have registered : SignalTask.sysSignal ⟨fun _ => 0#64, 0#32, fun _ => 0#64,
      none⟩ (BitVec.ofNat 32 number) 0x1000#64 =
      (0, listener number) := by
    rw [SignalTask.sysSignal, acceptedSignal_ofNat]
    rfl
  have step := Step.sysSignal present rfl (BitVec.ofNat 32 number) 0x1000#64
  rwa [registered] at step

theorem kills (number : Fin 32) :
    transitions.Step (listening number) (.sysKill 1 0 (BitVec.ofNat 32 number) none)
    ((listening number).setPosting 1 (some ⟨0, number, 0#32⟩)) := by
  have found : (listening number).sysKill 1 0 (BitVec.ofNat 32 number) =
      (none, (listening number).setPosting 1 (some ⟨0, number, 0#32⟩)) := by
    have present : (listening number).task 0 = some (listener number) := rfl
    have handled : (listener number).sigHandlers number ≠ 0#64 := by
      simp [listener]
    rw [SignalTasks.sysKill, acceptedSignal_ofNat]
    simp only [present, if_pos handled]
    rfl
  have present : ((listening number).task 1).isSome = true := rfl
  have step := Step.sysKill present rfl 0 (BitVec.ofNat 32 number)
  rwa [found] at step

theorem posts (number : Fin 32) : transitions.Step ((listening number).setPosting 1
      (some ⟨0, number, 0#32⟩)) (.post 1 ⟨0, number, 0#32⟩) (signalled number) := by
  have present :
      (((listening number).setPosting 1 (some ⟨0, number, 0#32⟩)).task 1).isSome = true := rfl
  exact Step.post present rfl

theorem signalled_task (number : Fin 32) : (signalled number).task 0 =
    some { listener number with pendingSignals := 0#32 ||| signalBit number } := rfl

theorem signalled_caught (number : Fin 32) :
    Caught { listener number with pendingSignals := 0#32 ||| signalBit number } number := by
  constructor
  · rw [Pending, getLsbD_or_signalBit]
    simp
  · rw [listener]
    simp

theorem starts : transitions.Step boot (.start (fun _ => 0#64) fun _ => 0#64)
    (boot.start (fun _ => 0#64) fun _ => 0#64) ∧
    transitions.Step (boot.start (fun _ => 0#64) fun _ => 0#64)
      (.start (fun _ => 0#64) fun _ => 0#64) twoTasks :=
  ⟨Step.start _, Step.start _⟩

/-- Signal 15 reaches its handler. -/
theorem signals_delivered_fifteen :
    Delivered { listener 15 with pendingSignals := 0#32 ||| signalBit 15 } := by
  have allowed : ∀ {s event t}, transitions.Step s event t → Terminates s event →
      (transitions.restrict Terminates).Step s event t := fun step terminates => ⟨terminates, step⟩
  have run : (transitions.restrict Terminates).Path boot _ (signalled 15) :=
    .cons (allowed starts.1 trivial)
      (.cons (allowed starts.2 trivial) (.cons (allowed (registers 15) trivial)
      (.cons (allowed (kills 15) trivial) (.cons (allowed (posts 15) rfl) (.nil _)))))
  exact ((signals_delivered (listener 15)).2 _ _ run).1 0 _ (signalled_task 15)

/-- Signal 5 is posted with result 0, and no return to user mode enters its handler. -/
theorem signal_five_undelivered : ∃ past s t, transitions.Path boot past s ∧ s.task 0 = some t ∧
    Caught t 5 ∧ (∀ regs, trapReturn t regs = ({ t with regs }, none)) ∧ ¬ Delivered t := by
  have run : transitions.Path boot _ (signalled 5) := .cons starts.1 (.cons starts.2
    (.cons (registers 5) (.cons (kills 5) (.cons (posts 5) (.nil _)))))
  refine ⟨_, _, _, run, signalled_task 5, signalled_caught 5, fun regs => ?_, fun delivered => ?_⟩
  · rcases trapReturn_eq { listener 5 with pendingSignals := 0#32 ||| signalBit 5 } regs with
      ⟨⟨pending, -⟩, -⟩ | ⟨-, nothing⟩
    · rw [Pending] at pending
      exact absurd pending (by decide)
    · exact nothing
  · exact absurd ((delivered_iff _).mp delivered 5 (signalled_caught 5)) (by decide)

end OscKernel.Soundness.SignalDelivery
