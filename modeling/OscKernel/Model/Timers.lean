import OscKernel.Lib.LinkedList
import OscKernel.Model.Address

/-! # Timers of lab4

timer.c of lab4: `add_timer`, and `handle_timer_interrupt_task` as a sequence of steps with
interrupts enabled between them, where a complete `add_timer` may run. A null function pointer is 0.
Time passes between steps; the tick that `rdtime` gives is part of an event.
-/

namespace OscKernel.Model

open OscKernel.Lib

structure TimerEvent where
  timeoutTick : Word
  callback : Word
  arg : Word
  isUsed : Bool
  next : Option (Fin 20)

/-- A position in `handle_timer_interrupt_task`, with the variables that are used later. -/
inductive TimerPc where
  | idle
  /-- The head of the loop. -/
  | loop (now : Word)
  /-- After the event was taken off the list. -/
  | fire (now : Word) (ev : Fin 20)
  | callback (now : Word) (ev : Fin 20)
  | clearUsed (now : Word) (ev : Fin 20)
  | clearNext (now : Word) (ev : Fin 20)
  | setTimer
  deriving DecidableEq

structure Timers where
  timerPool : Fin 20 → TimerEvent
  timerListHead : Option (Fin 20)
  cpuFreq : Word
  pc : TimerPc

namespace Timers

/-- What the pointer at a place is: the list head, or the `next` field of an event. -/
def link (s : Timers) : Option (Fin 20) → Option (Fin 20)
  | none => s.timerListHead
  | some i => (s.timerPool i).next

def setNext (s : Timers) (i : Fin 20) (next : Option (Fin 20)) : Timers :=
  { s with timerPool := Function.update s.timerPool i { s.timerPool i with next := next } }

def setLink (s : Timers) (place next : Option (Fin 20)) : Timers :=
  match place with
  | none => { s with timerListHead := next }
  | some i => s.setNext i next

/-- The slot that the loop of `add_timer` finds. -/
def freeSlot (s : Timers) : Option (Fin 20) :=
  (List.finRange 20).find? fun i => !(s.timerPool i).isUsed

/-- `add_timer`. The walk along the list has no result if it never ends. -/
def addTimer (s : Timers) (callback arg ticks : Word) (sec : BitVec 32) : Option Timers :=
  match s.freeSlot with
  | none => some s
  | some i =>
    let timeoutTick := ticks + sec.signExtend 64 * s.cpuFreq
    let s :=
      { s with timerPool := Function.update s.timerPool i ⟨timeoutTick, callback, arg, true, none⟩ }
    (walk s.link (fun j => !((s.timerPool j).timeoutTick < timeoutTick)) 21 none).map fun p =>
      (s.setLink (some i) (s.link p)).setLink p (some i)

inductive Event where
  | addTimer (callback arg ticks : Word) (sec : BitVec 32)
  /-- The task is started and reads the tick. -/
  | start (now : Word)
  /-- The first critical section finds an event that is due. -/
  | pop
  /-- It finds none. -/
  | leave
  /-- The callback is called, if there is one. -/
  | call
  | callbackReturns
  | clearUsed
  | clearNext
  /-- The second critical section. -/
  | setTimer

/-- Whether the list is empty or its first event is not due. -/
def nothingDue (s : Timers) (now : Word) : Bool :=
  match s.timerListHead with
  | none => true
  | some ev => (s.timerPool ev).timeoutTick > now

def step (s : Timers) : Event → Option Timers
  | .addTimer callback arg ticks sec => s.addTimer callback arg ticks sec
  | .start now => if s.pc = .idle then some { s with pc := .loop now } else none
  | .pop =>
    match s.pc, s.timerListHead with
    | .loop now, some ev =>
      if s.nothingDue now then none
      else some { s with timerListHead := (s.timerPool ev).next, pc := .fire now ev }
    | _, _ => none
  | .leave =>
    match s.pc with
    | .loop now => if s.nothingDue now then some { s with pc := .setTimer } else none
    | _ => none
  | .call =>
    match s.pc with
    | .fire now ev =>
      some { s with pc :=
        if (s.timerPool ev).callback ≠ 0#64 then .callback now ev else .clearUsed now ev }
    | _ => none
  | .callbackReturns =>
    match s.pc with
    | .callback now ev => some { s with pc := .clearUsed now ev }
    | _ => none
  | .clearUsed =>
    match s.pc with
    | .clearUsed now ev => some { s with
        timerPool := Function.update s.timerPool ev { s.timerPool ev with isUsed := false }
        pc := .clearNext now ev }
    | _ => none
  | .clearNext =>
    match s.pc with
    | .clearNext now ev => some { s.setNext ev none with pc := .loop now }
    | _ => none
  | .setTimer => if s.pc = .setTimer then some { s with pc := .idle } else none

/-- The state after `init_timer`. -/
def initial (cpuFreq : Word) : Timers where
  timerPool _ := ⟨0#64, 0#64, 0#64, false, none⟩
  timerListHead := none
  cpuFreq := cpuFreq
  pc := .idle

end Timers

end OscKernel.Model
