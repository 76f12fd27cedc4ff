import OscKernel.Model.Address
import OscKernel.Model.Trap
import OscKernel.Model.Uart

/-! # Printing and the interrupt-enable bit

`sstatus.SIE` along the call paths of the kernel: trap.c, task.c and sched.c, and the functions that
call `uart_printf` or `uart_puts` with interrupts disabled. A thread is the list of the contexts
that are active in it, the innermost first. Kernel code prints anything where interrupts are
enabled. User code may clear `tp`, and the kernel starts with any; where kernel code reads `current`
through a null `tp`, it takes a page fault, or goes on if user memory is accessible. What
`add_timer` and `free` print is left out: nothing calls `add_timer`, and nothing frees a null
pointer. The return from a trap is one step.
-/

namespace OscKernel.Model

/-! ## Texts -/

/-- `uart_hex`. -/
def uartHex (h : Word) : List (BitVec 8) :=
  literal "0x" ++ (List.range 16).map fun i =>
    let n := (h >>> (60 - 4 * i)) &&& 0xf#64
    (n + if n > 9#64 then 0x57#64 else 48#64).truncate 8

/-- What `start_kernel` prints before `irq_enable`. -/
def bootMessage (start stop : Word) : List (BitVec 8) :=
  literal "start: " ++ uartHex start ++ literal "\nend: " ++ uartHex stop ++ literal "\n"

/-- What `schedule` prints with interrupts disabled. -/
def panicMessage : List (BitVec 8) := literal "Panic: tp is zero!\n"

/-- The paths through `page_fault_handler`. -/
inductive FaultPath where
  | cow
  | mmap
  | stack (outOfMemory : Bool)
  | code (outOfMemory : Bool)
  | segmentation

namespace FaultPath

/-- The path ends in `thread_exit`. -/
def exits : FaultPath → Bool
  | cow | mmap => false
  | stack outOfMemory | code outOfMemory => outOfMemory
  | segmentation => true

def threadExiting : List (BitVec 8) := literal "Thread exiting!\n"

/-- What is printed on the path, by `thread_exit` too. -/
def message (faultAddr : Word) : FaultPath → List (BitVec 8)
  | cow => literal "[Permission fault]: " ++ uartHex faultAddr ++ literal "\n"
  | mmap => literal "[Mmap Translation fault]: " ++ uartHex faultAddr ++ literal "\n"
  | stack outOfMemory =>
    literal "[Stack Translation fault]: " ++ uartHex faultAddr ++ literal "\n" ++
      if outOfMemory then literal "[Stack Error]: Out of memory!\n" ++ threadExiting else []
  | code outOfMemory => literal "[Code Translation fault]: " ++ uartHex faultAddr ++ literal "\n" ++
      if outOfMemory then literal "[Code Error]: Out of memory!\n" ++ threadExiting else []
  | segmentation => literal "[Segmentation fault]: Kill Process\n" ++ threadExiting

end FaultPath

/-! ## Contexts -/

/-- A position in `do_trap` and what it calls. -/
inductive TrapPc where
  | doTrap (cause : Cause)
  /-- Between `irq_enable` and `irq_disable` of a system call. -/
  | handleSyscall
  /-- The default branch, after `irq_enable`. -/
  | report
  /-- `page_fault_handler` with nothing left to print. -/
  | faultHandled (exits : Bool)
  | runPreemptiveTasks
  /-- A callback of `run_preemptive_tasks`, after `irq_enable`. -/
  | callback
  | checkPendingSignals

/-- The interrupts are enabled by `irq_enable`. -/
def TrapPc.enabled : TrapPc → Bool
  | handleSyscall | report | callback => true
  | _ => false

/-- What `handle_exception` saved: `SPIE`, and whether `tp` was null. -/
structure TrapFrame where
  spie : Bool
  tpNull : Bool

inductive CallContext where
  | user
  /-- `ret_from_exception` when a process is dispatched for the first time. -/
  | retFromException
  /-- `start_kernel` before `irq_enable`. -/
  | startKernel
  /-- The code of a kernel thread. -/
  | thread
  /-- After `thread_exit` removed the thread. -/
  | exited
  /-- `handle_exception` and `do_trap`. -/
  | trap (frame : TrapFrame) (pc : TrapPc)
  /-- Between `disable_and_save_sstatus` and `restore_sstatus(s)`. -/
  | critical (s : Bool)
  /-- `schedule` with a null `tp`, once it has printed that. -/
  | nullSchedule (s : Bool)
  /-- `uart_printf` or `uart_puts` with the bytes left to store; in the wait loop of `uart_putc`
  with its `s`. -/
  | print (waits : Option Bool) (bytes : List (BitVec 8))

structure Hart where
  sie : Bool
  contexts : List CallContext
  current : ℕ
  /-- `get_current()` is null. -/
  tpNull : Bool
  /-- The contexts that `switch_to` saved last, for the threads that can be switched to. -/
  saved : ℕ → Option (List CallContext)
  /-- The bit `SIE` of `thread.sstatus`. -/
  threadSie : ℕ → Bool
  uart : Uart

namespace Hart

inductive Event where
  | irqEnable
  /-- Kernel code calls `uart_printf` or `uart_puts`. -/
  | print (text : List (BitVec 8))
  /-- A pass through the loop of `uart_putc`. -/
  | putc
  | printReturns
  | disableAndSaveSstatus
  | restoreSstatus
  | trap (cause : Cause)
  /-- `do_trap` goes on, and returns at last. -/
  | advance
  | tx (ready : ℕ)
  | rx (received : List (BitVec 8))
  | pageFaultHandler (path : FaultPath) (faultAddr : Word)
  | startCallback
  | threadExit
  /-- User code, or `start_kernel` once it has created the idle thread. -/
  | writeTp (null : Bool)
  | schedule (next : ℕ)
  /-- `schedule` with a null `tp`, up to its message. -/
  | schedulePanics
  /-- `switch_to(NULL, next)`, which saves at address 0 what it should save in a task. -/
  | switchFromNull (next : ℕ)
  | threadCreate (task : ℕ)
  | createUserProcess (task : ℕ)
  | sysFork (child : ℕ)

/-- Code that runs with interrupts enabled unless in a critical section. -/
def mayPrint : CallContext → Bool
  | .thread => true
  | .trap _ pc => pc.enabled
  | _ => false

/-- The interrupts that `SIE` enables, and the exceptions of user code. -/
def trap (s : Hart) (cause : Cause) : Option Hart :=
  let entered :=
    some { s with sie := false, contexts := .trap ⟨s.sie, s.tpNull⟩ (.doTrap cause) :: s.contexts }
  match s.contexts, cause with
  | .user :: _, _ => entered
  | _, .timer | _, .external => if s.sie then entered else none
  -- Kernel code accesses user memory, or memory through a null pointer.
  | .trap .. :: _, .pageFault | .critical _ :: _, .pageFault |
      .nullSchedule _ :: _, .pageFault => entered
  | _, _ => none

def advance (s : Hart) : Option Hart :=
  match s.contexts with
  | [.retFromException] => some { s with sie := true, tpNull := false, contexts := [.user] }
  | .trap frame pc :: rest =>
    match pc with
    | .doTrap .external => some { s with contexts := .trap frame .runPreemptiveTasks :: rest }
    | .doTrap .ecall => some { s with sie := true, contexts := .trap frame .handleSyscall :: rest }
    | .doTrap .other => some { s with sie := true, contexts := .trap frame .report :: rest }
    | .faultHandled false => some { s with contexts := .trap frame .checkPendingSignals :: rest }
    | .handleSyscall =>
      some { s with sie := false, contexts := .trap frame .checkPendingSignals :: rest }
    | .callback => some { s with sie := false, contexts := .trap frame .runPreemptiveTasks :: rest }
    | .runPreemptiveTasks => some { s with contexts := .trap frame .checkPendingSignals :: rest }
    | .checkPendingSignals =>
      some { s with sie := frame.spie, tpNull := frame.tpNull, contexts := rest }
    | _ => none
  | _ => none

/-- Where `schedule` returns to, for the contexts that call it. -/
def scheduleReturns : List CallContext → Option (List CallContext)
  | .thread :: rest => some (.thread :: rest)
  | .trap frame .handleSyscall :: rest => some (.trap frame .handleSyscall :: rest)
  | .trap frame .callback :: rest => some (.trap frame .callback :: rest)
  | .trap frame (.doTrap .timer) :: rest => some (.trap frame .runPreemptiveTasks :: rest)
  | _ => none

/-- `switch_to(prev, next)`, where the contexts of the one are saved, if any, and those of the other
are found. -/
def switchTo (s : Hart) (prev : Option (List CallContext)) (next : ℕ)
    (found : List CallContext) : Hart :=
  let threadSie := Function.update s.threadSie s.current false
  { s with
    saved := Function.update s.saved s.current prev
    threadSie := threadSie
    sie := threadSie next
    contexts := found
    tpNull := false
    current := next }

def schedule (s : Hart) (next : ℕ) : Option Hart :=
  if s.tpNull then none
  else match s.contexts with
    | [.exited] => if next = s.current then none else (s.saved next).map (s.switchTo none next)
    | _ =>
      (scheduleReturns s.contexts).bind fun contexts =>
        if next = s.current then some { s with contexts := contexts }
        else (s.saved next).map (s.switchTo (some (.critical s.sie :: contexts)) next)

/-- `schedule` up to its message, where `tp` is null. -/
def schedulePanics (s : Hart) : Option Hart :=
  if s.tpNull then
    let entered := fun contexts => { s with
      sie := false
      contexts := .print none (putsBytes panicMessage) :: .nullSchedule s.sie :: contexts }
    match s.contexts with
    | [.exited] => some (entered [.exited])
    | _ => (scheduleReturns s.contexts).map entered
  else none

/-- `switch_to(NULL, next)`; the task that ran keeps what it had saved before. -/
def switchFromNull (s : Hart) (next : ℕ) : Option Hart :=
  match s.contexts with
  | .nullSchedule _ :: _ => (s.saved next).map fun found =>
    { s with sie := s.threadSie next, contexts := found, tpNull := false, current := next }
  | _ => none

/-- The end of `thread_create`, `create_user_process` and `sys_fork`. -/
def enqueue (s : Hart) (task : ℕ) (context : CallContext) (sie : Bool) : Option Hart :=
  if task = s.current ∨ s.saved task ≠ none then none
  else some { s with
    saved := Function.update s.saved task (some [context])
    threadSie := Function.update s.threadSie task sie }

def step (s : Hart) : Event → Option Hart
  | .irqEnable => if s.contexts matches [.startKernel] then some { s with
      sie := true, contexts := [.thread] } else none
  | .print text =>
    match s.contexts with
    | top :: rest => if mayPrint top then some { s with
        contexts := .print none (putsBytes text) :: top :: rest } else none
    | [] => none
  | .putc =>
    match s.contexts with
    | .print waits (c :: bytes) :: rest =>
      let sie := waits.getD s.sie
      match s.uart.uartPutc c with
      | none => some { s with sie := sie, contexts := .print (some sie) (c :: bytes) :: rest }
      | some uart => some { s with sie := sie, uart := uart, contexts := .print none bytes :: rest }
    | _ => none
  | .printReturns =>
    match s.contexts with
    | .print none [] :: rest => some { s with contexts := rest }
    | _ => none
  | .disableAndSaveSstatus =>
    match s.contexts with
    | .thread :: _ | .trap .. :: _ | .critical _ :: _ =>
      some { s with sie := false, contexts := .critical s.sie :: s.contexts }
    | _ => none
  | .restoreSstatus =>
    match s.contexts with
    | .critical sie :: rest | .nullSchedule sie :: rest =>
      some { s with sie := s.sie || sie, contexts := rest }
    | _ => none
  | .trap cause => s.trap cause
  | .advance => s.advance
  | .tx ready =>
    match s.contexts with
    | .trap _ (.doTrap .external) :: _ => some { s with uart := (s.uart.handleUartTx ready).2 }
    | _ => none
  | .rx received =>
    match s.contexts with
    | .trap _ (.doTrap .external) :: _ =>
      let (uart, overflow) := s.uart.handleUartRx received
      some { s with
        uart := uart
        contexts :=
          if overflow then .print none (putsBytes overflowMessage) :: s.contexts else s.contexts }
    | _ => none
  | .pageFaultHandler path faultAddr =>
    match s.contexts with
    | .trap frame (.doTrap .pageFault) :: rest =>
      let message := putsBytes (path.message faultAddr)
      some { s with
        contexts := .print none message :: .trap frame (.faultHandled path.exits) :: rest }
    | _ => none
  | .startCallback =>
    match s.contexts with
    | .trap frame .runPreemptiveTasks :: rest =>
      some { s with sie := true, contexts := .trap frame .callback :: rest }
    | _ => none
  | .threadExit =>
    match s.contexts with
    | .trap _ .handleSyscall :: _ | .trap _ (.faultHandled true) :: _ =>
      some { s with contexts := [.exited] }
    | _ => none
  | .writeTp null =>
    match s.contexts with
    | .user :: _ => some { s with tpNull := null }
    | [.thread] => if s.current = 0 then some { s with tpNull := null } else none
    | _ => none
  | .schedule next => s.schedule next
  | .schedulePanics => s.schedulePanics
  | .switchFromNull next => s.switchFromNull next
  | .threadCreate task =>
    match s.contexts with
    | .thread :: _ => s.enqueue task .thread s.sie
    | _ => none
  | .createUserProcess task =>
    match s.contexts with
    | .thread :: _ => s.enqueue task .retFromException s.sie
    | _ => none
  | .sysFork child =>
    match s.contexts with
    | .trap _ .handleSyscall :: _ => s.enqueue child .retFromException (s.threadSie s.current)
    | _ => none

/-- The state at the beginning of `start_kernel`, which finds any `tp`. -/
def initial (start stop : Word) (ier : BitVec 8) (tpNull : Bool) : Hart where
  sie := false
  contexts := [.print none (putsBytes (bootMessage start stop)), .startKernel]
  current := 0
  tpNull := tpNull
  saved _ := none
  threadSie _ := false
  uart := .initial ier

end Hart

end OscKernel.Model
