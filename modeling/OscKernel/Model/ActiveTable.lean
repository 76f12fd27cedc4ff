import OscKernel.Model.PageFault

/-! # The table that mappings go to

`active_user_pgd` with the functions that write it and `pagewalk`, which reads it: the global is set
by `schedule`, `page_fault_handler`, `sys_mmap` and `create_user_process`, and
`check_pending_signals` maps without setting it. Each access to the global is one step, and a timer
interrupt can come between two of them where interrupts are enabled. `schedule` runs with interrupts
disabled, and between its write and `switch_to` nothing else is executed.

A task is named by its `task_struct`, and the current one is the one switched to last, as it is for
the kernel as long as user code leaves `tp` alone and no interrupt is taken inside `switch_to`. A
task that leaves the run queue is not alone on it. A table is kept at the address of its top-level
page, without its kernel half; an allocation for a new table returns an address that no other table
has.
-/

namespace OscKernel.Model

/-- The callers of `map_pages`. -/
inductive Mapper where
  | fault
  | populate
  | signal
  deriving DecidableEq

/-- What a task does next. -/
inductive TablePc where
  | idle
  /-- `active_user_pgd = curr->pgd`. -/
  | assigning (mapper : Mapper) (request : MapRequest) (rest : List MapRequest)
  /-- The read of `active_user_pgd` in `pagewalk`. -/
  | loading (mapper : Mapper) (request : MapRequest) (rest : List MapRequest)
  /-- `pagewalk` with its `pgd_base`. -/
  | walking (mapper : Mapper) (pgdBase : Word) (request : MapRequest) (rest : List MapRequest)
  /-- `active_user_pgd = task->pgd`. -/
  | creating (child : ℕ)
  /-- `create_user_process` from `vfs_open` on. -/
  | starting (child : ℕ)
  /-- `sys_fork` after the allocation of the table. -/
  | forking (child : ℕ)
  | exited
  deriving DecidableEq

/-- Whether interrupts are enabled. -/
def TablePc.interruptible : TablePc → Bool
  | .assigning mapper _ _ | .loading mapper _ _ | .walking mapper _ _ _ => mapper = .populate
  | _ => true

/-- What follows a `pagewalk`: `sys_mmap` sets the global again for each page. -/
def Mapper.next (mapper : Mapper) : List MapRequest → TablePc
  | [] => .idle
  | request :: rest =>
    match mapper with
    | .signal => .loading mapper request rest
    | _ => .assigning mapper request rest

/-- `pagewalk` from the table it has chosen, with the two pages that it may allocate. -/
def Pgd.pagewalk (pgd : Pgd) (slot : Slot) (pte newPmd newPte : Word) : Pgd :=
  let pmd := (pgd.entry slot.1).getD ⟨newPmd, fun _ => none⟩
  let table := (pmd.entry slot.2.1).getD ⟨newPte, fun _ => 0#64⟩
  let table := { table with entry := Function.update table.entry slot.2.2 pte }
  let pmd := { pmd with entry := Function.update pmd.entry slot.2.1 (some table) }
  { pgd with entry := Function.update pgd.entry slot.1 (some pmd) }

/-- The global, the tables, and the tasks with their queues. -/
structure ActiveTable where
  kernelPgd : Word
  activeUserPgd : Word
  tables : Word → Pgd
  pgd : ℕ → Word
  pc : ℕ → TablePc
  live : Finset ℕ
  runQueue : List ℕ
  zombieQueue : List ℕ
  current : ℕ
  /-- The task that `schedule` has set the global for and is about to switch to. -/
  switching : Option ℕ

namespace ActiveTable

/-- A task with a table of its own. -/
def User (s : ActiveTable) (task : ℕ) : Prop := s.pgd task ≠ s.kernelPgd

instance (s : ActiveTable) (task : ℕ) : Decidable (s.User task) :=
  inferInstanceAs (Decidable (_ ≠ _))

def goto (s : ActiveTable) (pc : TablePc) : ActiveTable :=
  { s with pc := Function.update s.pc s.current pc }

def setTable (s : ActiveTable) (va : Word) (table : Pgd) : ActiveTable :=
  { s with tables := Function.update s.tables va table }

/-- `schedule` up to `switch_to`. -/
def schedule (s : ActiveTable) : ActiveTable :=
  let runQueue := match s.runQueue with
    | [] => []
    | head :: rest => if s.current = head then rest ++ [head] else head :: rest
  match runQueue with
  | [] => s
  | next :: _ =>
    let s := { s with runQueue }
    if s.current = next then s else { s with activeUserPgd := s.pgd next, switching := some next }

/-- `pagewalk` behind its choice of a table; an address whose entry lies in the kernel half changes
none of the tables kept here. -/
def pagewalk (s : ActiveTable) (pgdBase : Word) (request : MapRequest) (newPmd newPte : Word) :
    ActiveTable :=
  if vpn2 request.va < 256 then
    s.setTable pgdBase ((s.tables pgdBase).pagewalk (userSlot request.va)
      (makePte request.pa (request.prot ||| pteV))
      newPmd newPte)
  else s

/-- A new `task_struct` with a zeroed table. -/
def addTask (s : ActiveTable) (task : ℕ) (va : Word) : ActiveTable :=
  { s with
    live := insert task s.live
    pgd := Function.update s.pgd task va
    pc := Function.update s.pc task .idle
    tables := Function.update s.tables va ⟨va, fun _ => none⟩ }

/-- What an allocation for a table can return. -/
def Unused (s : ActiveTable) (va : Word) : Prop :=
  va ≠ s.kernelPgd ∧ ∀ task ∈ s.live, s.pgd task ≠ va

instance (s : ActiveTable) (va : Word) : Decidable (s.Unused va) :=
  inferInstanceAs (Decidable (_ ∧ _))

/-- What the accesses take from outside: the pages for new tables, and whether the archive has the
program. -/
structure Supply where
  pages : Vm.ForkPages
  newPmd : Word
  newPte : Word
  found : Bool

/-- The next access of the current task. -/
def advance (s : ActiveTable) (supply : Supply) : Option ActiveTable :=
  match s.pc s.current with
  | .idle | .exited => none
  | .assigning mapper request rest =>
    some ({ s with activeUserPgd := s.pgd s.current }.goto (.loading mapper request rest))
  | .loading mapper request rest =>
    let pgdBase := if request.va ≥ pageOffset then s.kernelPgd else s.activeUserPgd
    some (s.goto (.walking mapper pgdBase request rest))
  | .walking mapper pgdBase request rest =>
    some ((s.pagewalk pgdBase request supply.newPmd supply.newPte).goto (mapper.next rest))
  | .creating child => some ({ s with activeUserPgd := s.pgd child }.goto (.starting child))
  | .starting child =>
    if supply.found then some ({ s with runQueue := s.runQueue ++ [child] }.goto .idle)
    else some ({ s with live := s.live.erase child }.goto .idle)
  | .forking child =>
    let src := s.tables (s.pgd s.current)
    let s := s.setTable (s.pgd s.current) (Vm.parentTable src)
    let s := s.setTable (s.pgd child) (Vm.childTable src { supply.pages with pgd := s.pgd child })
    some ({ s with runQueue := s.runQueue ++ [child] }.goto .idle)

/-- `thread_exit` up to `schedule`. -/
def threadExit (s : ActiveTable) : ActiveTable :=
  { s with runQueue := s.runQueue.erase s.current, zombieQueue := s.current ::
    s.zombieQueue }.goto .exited

/-- `sys_stop` of another task. -/
def sysStop (s : ActiveTable) (task : ℕ) : ActiveTable :=
  { s with runQueue := s.runQueue.erase task, zombieQueue := task :: s.zombieQueue }

/-- `kill_zombies`. -/
def killZombies (s : ActiveTable) : ActiveTable :=
  { s with live := s.live \ s.zombieQueue.toFinset, zombieQueue := [] }

inductive Event where
  /-- A timer interrupt, or a call of `schedule`. -/
  | schedule
  | switchTo
  | advance (supply : Supply)
  | pageFault (request : MapRequest)
  | sysMmap (request : MapRequest) (rest : List MapRequest)
  | checkPendingSignals (request : MapRequest) (rest : List MapRequest)
  | sysFork (child : ℕ) (va : Word)
  | createUserProcess (child : ℕ) (va : Word)
  | sysExec
  | threadExit
  | sysStop (task : ℕ)
  | killZombies

/-- The current task is in user mode or in code that does not touch the tables. -/
def Idle (s : ActiveTable) : Prop := s.switching = none ∧ s.pc s.current = .idle

instance (s : ActiveTable) : Decidable s.Idle := inferInstanceAs (Decidable (_ ∧ _))

/-- One step, in the states in which it can be taken: user processes map, fork and exec, and the
kernel's own threads create processes and reclaim them. -/
def step (s : ActiveTable) : Event → Option ActiveTable
  | .schedule =>
    if s.switching = none ∧ (s.pc s.current).interruptible = true then some s.schedule else none
  | .switchTo => s.switching.map fun next => { s with current := next, switching := none }
  | .advance supply => if s.switching = none then s.advance supply else none
  | .pageFault request =>
    if s.Idle ∧ s.User s.current then some (s.goto (.assigning .fault request [])) else none
  | .sysMmap request rest =>
    if s.Idle ∧ s.User s.current then some (s.goto (.assigning .populate request rest)) else none
  | .checkPendingSignals request rest =>
    if s.Idle ∧ s.User s.current then some (s.goto (.loading .signal request rest)) else none
  | .sysFork child va =>
    if s.Idle ∧ s.User s.current ∧ child ∉ s.live ∧ s.Unused va then
      some ((s.addTask child va).goto (.forking child))
    else none
  | .createUserProcess child va =>
    if s.Idle ∧ ¬ s.User s.current ∧ child ∉ s.live ∧ s.Unused va then
      some ((s.addTask child va).goto (.creating child))
    else none
  | .sysExec =>
    if s.Idle ∧ s.User s.current then
      some (s.setTable (s.pgd s.current) { s.tables (s.pgd s.current) with entry := fun _ => none })
    else none
  | .threadExit => if s.Idle ∧ s.runQueue ≠ [s.current] then some s.threadExit else none
  | .sysStop task =>
    if s.Idle ∧ task ≠ s.current ∧ task ∈ s.runQueue ∧ s.runQueue ≠ [task] then
      some (s.sysStop task)
    else none
  | .killZombies => if s.Idle ∧ ¬ s.User s.current then some s.killZombies else none

/-- `start_kernel` before `idle()`: the idle thread runs, and the shell is behind it. -/
def boot (kernelPgd : Word) (tables : Word → Pgd) : ActiveTable where
  kernelPgd
  activeUserPgd := 0#64
  tables
  pgd := fun _ => kernelPgd
  pc := fun _ => .idle
  live := {0, 1}
  runQueue := [0, 1]
  zombieQueue := []
  current := 0
  switching := none

end ActiveTable

end OscKernel.Model
