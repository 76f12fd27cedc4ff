import Mathlib.Data.Finset.Prod
import Mathlib.Data.Fintype.Basic
import OscKernel.Lib.Allocations
import OscKernel.Model.Address

/-! # User page tables

paging.c over the user half of the page tables, with its callers in syscall.c, sched.c and trap.c. A
table keeps the address of its page and its entries; an upper entry without `PTE_V` is `none`. The
pages behind level-0 entries are kept by physical address. The allocator is seen as its clients see
it: a call of `allocate` returns an address that the caller of the model supplies and that no
allocation in use has, in the linear map, which `page_ref_counts` covers; it never fails here. A
task is named by the address of its `task_struct`.
-/

namespace OscKernel.Model

open OscKernel.Lib

/-- The two configurations of paging.h; `DEBUG` selects the second. -/
inductive Build where
  | board
  | debug
  deriving DecidableEq

/-- `RAM_START`. -/
def Build.ramStart : Build → Word
  | .board => 0x00000000#64
  | .debug => 0x80000000#64

/-- `NUM_PAGES`. -/
def Build.numPages : Build → Word
  | .board => 0x80000000#64 >>> 12
  | .debug => 0x40000000#64 >>> 12

/-- `(pa - RAM_START) >> 12`. -/
def Build.pageIdx (build : Build) (pa : Word) : Word := (pa - build.ramStart) >>> 12

/-- What an allocation is made for. -/
inductive Purpose where
  | userPage
  | table
  | savedRegs
  | signalStack
  deriving DecidableEq

/-! ## Tables -/

structure PteTable where
  va : Word
  entry : Fin 512 → Word

structure PmdTable where
  va : Word
  entry : Fin 512 → Option PteTable

/-- A top-level table; its kernel half is shared by all tasks and left out. -/
structure Pgd where
  va : Word
  entry : Fin 256 → Option PmdTable

/-- The three indices of a user address. -/
abbrev Slot := Fin 256 × Fin 512 × Fin 512

def present (pte : Word) : Bool := pte &&& pteV ≠ 0#64
def writable (pte : Word) : Bool := pte &&& pteW ≠ 0#64
def readable (pte : Word) : Bool := pte &&& pteR ≠ 0#64
def copyOnWrite (pte : Word) : Bool := pte &&& pteCow ≠ 0#64

/-- The level-0 entry a walk ends at; 0 where an upper entry is missing. -/
def Pgd.entryAt (pgd : Pgd) (slot : Slot) : Word :=
  match pgd.entry slot.1 with
  | none => 0#64
  | some pmd =>
    match pmd.entry slot.2.1 with
    | none => 0#64
    | some table => table.entry slot.2.2

inductive PteFunc where
  | checkCow
  | getPa
  | getProt

/-- `iterate_page_table`. -/
def iteratePageTable (pgd : Pgd) (slot : Slot) (func : PteFunc) : Word :=
  let pte := pgd.entryAt slot
  if present pte then
    match func with
    | .checkCow => if copyOnWrite pte then 1#64 else 0#64
    | .getPa => ptePa pte
    | .getProt => (pte &&& 0x3ff#64) &&& ~~~pteCow
  else 0#64

/-- The state that paging.c and its callers work on. -/
structure Vm where
  build : Build
  heap : Allocations Word Purpose
  pageRefCounts : Word → BitVec 8
  ram : Word → Fin 4096 → BitVec 8
  pgd : ℕ → Pgd
  live : Finset ℕ
  sigHandler : ℕ → Word
  pending : ℕ → Bool
  savedRegs : ℕ → Word
  signalStack : ℕ → Word

namespace Vm

/-! ## Reference counts -/

def incrementPageRef (s : Vm) (pa : Word) : Vm :=
  let pageIdx := s.build.pageIdx pa
  if pageIdx < s.build.numPages then
    { s with pageRefCounts :=
      Function.update s.pageRefCounts pageIdx (s.pageRefCounts pageIdx + 1#8) }
  else s

/-- `decrement_page_ref` with the count it returns. -/
def decrementPageRef (s : Vm) (pa : Word) : Vm × BitVec 8 :=
  let pageIdx := s.build.pageIdx pa
  if pageIdx < s.build.numPages then
    let count := s.pageRefCounts pageIdx
    let remaining := if count > 0#8 then count - 1#8 else count
    ({ s with pageRefCounts := Function.update s.pageRefCounts pageIdx remaining }, remaining)
  else (s, 0#8)

def setPageRefInit (s : Vm) (pa : Word) : Vm :=
  let pageIdx := s.build.pageIdx pa
  if pageIdx < s.build.numPages then
    { s with pageRefCounts := Function.update s.pageRefCounts pageIdx 1#8 }
  else s

/-! ## Allocation -/

/-- The addresses of an allocation. -/
def region (va : Word) (length : ℕ) : List Word :=
  (List.range length).map fun i => va + BitVec.ofNat 64 i

def allocate (s : Vm) (va : Word) (length : ℕ) (purpose : Purpose) : Option Vm :=
  (s.heap.allocate va (region va length) purpose).map fun heap => { s with heap := heap }

/-- Whether the address is the linear-map address of a page frame of RAM. -/
def isPage (s : Vm) (va : Word) : Bool :=
  va &&& 4095#64 = 0#64 && s.build.pageIdx (virtToPhys va) < s.build.numPages

/-- `allocate(PAGE_SIZE)`. -/
def allocatePage (s : Vm) (va : Word) (purpose : Purpose) : Option Vm :=
  if s.isPage va then s.allocate va 4096 purpose else none

def free (s : Vm) (va : Word) : Vm := { s with heap := s.heap.free va }

/-! ## Freeing page tables -/

/-- A page loses an entry: `decrement_page_ref`, and `free` if no reference remains. -/
def releasePage (s : Vm) (pa : Word) : Vm :=
  let (s, remaining) := s.decrementPageRef pa
  if remaining = 0#8 then s.free (physToVirt pa) else s

def releasePte (s : Vm) (table : PteTable) : Vm :=
  let s := (List.finRange 512).foldl
    (fun s k => if present (table.entry k) then s.releasePage (ptePa (table.entry k)) else s) s
  s.free table.va

def releasePmd (s : Vm) (pmd : PmdTable) : Vm :=
  let s := (List.finRange 512).foldl
    (fun s j => match pmd.entry j with
      | none => s
      | some table => s.releasePte table) s
  s.free pmd.va

/-- The loop over the user half that `free_user_page_table` and `clear_user_space_mappings`
share. -/
def releaseUserHalf (s : Vm) (pgd : Pgd) : Vm :=
  (List.finRange 256).foldl
    (fun s i => match pgd.entry i with
      | none => s
      | some pmd => s.releasePmd pmd) s

/-- `free_user_page_table`, called by `kill_zombies` for a task that has exited and is gone then. -/
def freeUserPageTable (s : Vm) (task : ℕ) : Vm :=
  let pgd := s.pgd task
  let s := (s.releaseUserHalf pgd).free pgd.va
  { s with live := s.live.erase task }

/-- `clear_user_space_mappings`, called by `do_exec`. -/
def clearUserSpaceMappings (s : Vm) (task : ℕ) : Vm :=
  let pgd := s.pgd task
  let s := s.releaseUserHalf pgd
  { s with pgd := Function.update s.pgd task { pgd with entry := fun _ => none } }

/-! ## Copying page tables -/

/-- The level-0 entry after the copy, in the parent as in the child. -/
def share (pte : Word) : Word := if writable pte then (pte &&& ~~~pteW) ||| pteCow else pte

/-- The addresses that the calls of `allocate` of one fork return. -/
structure ForkPages where
  pgd : Word
  pmd : Fin 256 → Word
  pte : Fin 256 → Fin 512 → Word

/-- The counts along one level-0 table. -/
def copyPte (s : Vm) (table : PteTable) : Vm :=
  (List.finRange 512).foldl
    (fun s k => if present (table.entry k) then s.incrementPageRef (ptePa (share (table.entry k)))
      else s) s

def copyPmd (s : Vm) (pmd : PmdTable) (pages : Fin 512 → Word) : Option Vm :=
  (List.finRange 512).foldlM
    (fun s j => match pmd.entry j with
      | none => some s
      | some table => (s.allocatePage (pages j) .table).map fun s => s.copyPte table) s

/-- The allocations and counts of `fork_copy_page_table_cow`, in the order of its loops. -/
def copyUserHalf (s : Vm) (pgd : Pgd) (pages : ForkPages) : Option Vm :=
  (List.finRange 256).foldlM
    (fun s i => match pgd.entry i with
      | none => some s
      | some pmd => (s.allocatePage (pages.pmd i) .table).bind fun s =>
        s.copyPmd pmd (pages.pte i)) s

def sharePte (table : PteTable) (va : Word) : PteTable where
  va := va
  entry k := if present (table.entry k) then share (table.entry k) else 0#64

/-- The table that the child gets; its entries were zeroed. -/
def childTable (src : Pgd) (pages : ForkPages) : Pgd where
  va := pages.pgd
  entry i := (src.entry i).map fun pmd =>
    ⟨pages.pmd i, fun j => (pmd.entry j).map fun table => sharePte table (pages.pte i j)⟩

/-- The table that the parent is left with. -/
def parentTable (src : Pgd) : Pgd where
  va := src.va
  entry i := (src.entry i).map fun pmd =>
    { pmd with entry := fun j => (pmd.entry j).map fun table =>
      { table with entry := fun k => if present (table.entry k) then share (table.entry k)
        else table.entry k } }

/-- `sys_fork` as far as page tables and signals go: the child inherits the handlers, and has
neither a pending signal nor a saved frame. -/
def sysFork (s : Vm) (parent child : ℕ) (pages : ForkPages) : Option Vm := do
  let src := s.pgd parent
  let s ← s.allocatePage pages.pgd .table
  let s ← s.copyUserHalf src pages
  some { s with
    pgd :=
      Function.update (Function.update s.pgd parent (parentTable src)) child (childTable src pages)
    live := insert child s.live
    sigHandler := Function.update s.sigHandler child (s.sigHandler parent)
    pending := Function.update s.pending child false
    savedRegs := Function.update s.savedRegs child 0#64
    signalStack := Function.update s.signalStack child 0#64 }

/-! ## Mapping pages -/

/-- One level of `pagewalk`: the table that an upper entry points to, or a new one at the
address. -/
def walkLevel {τ : Type} (s : Vm) (entry : Option τ) (va : Word) (empty : τ) : Option (Vm × τ) :=
  match entry with
  | some table => some (s, table)
  | none => (s.allocatePage va .table).map fun s => (s, empty)

/-- `pagewalk` in the table of a task, which is the one `active_user_pgd` points to while the task
runs. The two addresses are used where an upper entry is missing. -/
def pagewalk (s : Vm) (task : ℕ) (slot : Slot) (pa prot newPmd newPte : Word) : Option Vm := do
  let pgd := s.pgd task
  let (s, pmd) ← s.walkLevel (pgd.entry slot.1) newPmd ⟨newPmd, fun _ => none⟩
  let (s, table) ← s.walkLevel (pmd.entry slot.2.1) newPte ⟨newPte, fun _ => 0#64⟩
  let table :=
    { table with entry := Function.update table.entry slot.2.2 (makePte pa (prot ||| pteV)) }
  let pmd := { pmd with entry := Function.update pmd.entry slot.2.1 (some table) }
  some { s with pgd := Function.update s.pgd task { pgd with
    entry := Function.update pgd.entry slot.1 (some pmd) } }

/-- The copy-on-write branch of `page_fault_handler`; the tables on the path exist. -/
def cowFault (s : Vm) (task : ℕ) (slot : Slot) (newPage : Word) : Option Vm :=
  if iteratePageTable (s.pgd task) slot .checkCow = 0#64 then none
  else do
    let s ← s.allocatePage newPage .userPage
    let s := s.setPageRefInit (virtToPhys newPage)
    let oldPa := iteratePageTable (s.pgd task) slot .getPa
    let s := { s with ram := Function.update s.ram (virtToPhys newPage) (s.ram oldPa) }
    let updatedProt := iteratePageTable (s.pgd task) slot .getProt ||| pteW
    let s ← s.pagewalk task slot (virtToPhys newPage) updatedProt 0#64 0#64
    some (s.releasePage oldPa)

/-! ## User accesses -/

/-- A load by user code that does not fault. -/
def loadByte (s : Vm) (task : ℕ) (slot : Slot) (offset : Fin 4096) : Option (BitVec 8) :=
  let pte := (s.pgd task).entryAt slot
  if present pte && readable pte then some (s.ram (ptePa pte) offset) else none

/-- A store by user code through a writable entry. -/
def writeByte (s : Vm) (task : ℕ) (slot : Slot) (offset : Fin 4096)
    (value : BitVec 8) : Option Vm :=
  let pte := (s.pgd task).entryAt slot
  if present pte && writable pte then
    let bytes := Function.update (s.ram (ptePa pte)) offset value
    some { s with ram := Function.update s.ram (ptePa pte) bytes }
  else none

/-- A store by user code: a fault is resolved by the copy-on-write branch, and the store is
retried. -/
def storeByte (s : Vm) (task : ℕ) (slot : Slot) (offset : Fin 4096)
    (value : BitVec 8) (newPage : Word) :
    Option Vm :=
  let pte := (s.pgd task).entryAt slot
  if present pte && writable pte then s.writeByte task slot offset value
  else (s.cowFault task slot newPage).bind fun s => s.writeByte task slot offset value

/-! ## Signals -/

/-- `sys_signal` for the one signal number that `check_pending_signals` knows. -/
def sysSignal (s : Vm) (task : ℕ) (handler : Word) : Vm :=
  { s with sigHandler := Function.update s.sigHandler task handler }

/-- `sys_kill` for that number; a task without a handler is stopped instead, and exits later. -/
def sysKill (s : Vm) (task : ℕ) : Vm :=
  if s.sigHandler task ≠ 0#64 then { s with pending := Function.update s.pending task true } else s

/-- `sizeof(struct pt_regs)`. -/
def sizeofPtRegs : ℕ := 35 * 8

/-- The four pages from `0x50000000`. -/
def signalSlot (i : Fin 4) : Slot := (1, 128, ⟨i, by omega⟩)

/-- What the calls of `allocate` of one delivery return. -/
structure SignalPages where
  savedRegs : Word
  signalStack : Word
  pmd : Word
  pte : Word

/-- `map_pages(0x50000000, STACK_SIZE, sig_stack_pa, PROT_USER_RW | PTE_X)`. -/
def mapSignalStack (s : Vm) (task : ℕ) (pages : SignalPages) : Option Vm :=
  (List.finRange 4).foldlM (fun s i => s.pagewalk task (signalSlot i)
    (virtToPhys pages.signalStack + BitVec.ofNat 64 (i * 4096))
    (protUserRw ||| pteX) pages.pmd pages.pte) s

/-- `allocate(STACK_SIZE)`. -/
def allocateStack (s : Vm) (va : Word) : Option Vm :=
  if (List.finRange 4).all fun i => s.isPage (va + BitVec.ofNat 64 (i * 4096)) then
    s.allocate va stackSize.toNat .signalStack
  else none

/-- `check_pending_signals`, which knows one signal number. -/
def checkPendingSignals (s : Vm) (task : ℕ) (pages : SignalPages) : Option Vm :=
  if s.pending task && s.sigHandler task ≠ 0#64 then do
    let s ← s.allocate pages.savedRegs sizeofPtRegs .savedRegs
    let s := { s with savedRegs := Function.update s.savedRegs task pages.savedRegs }
    let s ← s.allocateStack pages.signalStack
    let s := { s with signalStack := Function.update s.signalStack task pages.signalStack }
    let s ← s.mapSignalStack task pages
    some { s with pending := Function.update s.pending task false }
  else some s

/-- `sys_sigreturn`. -/
def sysSigreturn (s : Vm) (task : ℕ) : Vm :=
  if s.savedRegs task ≠ 0#64 then
    let s := s.free (s.signalStack task)
    let s := s.free (s.savedRegs task)
    { s with
      savedRegs := Function.update s.savedRegs task 0#64
      signalStack := Function.update s.signalStack task 0#64 }
  else s

end Vm

end OscKernel.Model
