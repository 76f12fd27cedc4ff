import OscKernel.Model.Mmap
import OscKernel.Model.PageWalk
import OscKernel.Model.Signals

/-! # Page faults of user programs

`page_fault_handler` of paging.c with its four checks, and the population loop of `sys_mmap`, on the
tables of `Vm`. A fault address lies in the user half. An address whose index into the top-level
table is in its kernel half is mapped outside these tables. The messages of `page_fault_handler` are
left out, and so is the wait on a full transmit buffer in which printing them can end; both are
those of `Printing`.
-/

namespace OscKernel.Model

/-- `PROT_USER_RX`. -/
def protUserRx : Word := protUserBase ||| pteR ||| pteX

/-- The causes 12, 13 and 15 of `scause`, for which `do_trap` calls `page_fault_handler`. -/
inductive FaultCause where
  | fetch
  | load
  | store
  deriving DecidableEq

/-- The permission of `prot` that the handler asks for. -/
def FaultCause.allowedBy (cause : FaultCause) (prot : BitVec 32) : Bool :=
  match cause with
  | .fetch => prot &&& 4#32 ≠ 0#32
  | .load => prot &&& 1#32 ≠ 0#32
  | .store => prot &&& 2#32 ≠ 0#32

def VmArea.contains (vma : VmArea) (va : Word) : Bool := vma.start ≤ va && va < vma.stop

/-- The fields of `task_struct` that say what lies in the user half. -/
structure UserRegions where
  memory : MmapTask
  codePa : Word

/-- The program that `do_exec` notes: a file of the archive, whose size has 32 bits. -/
def UserRegions.load (curr : UserRegions) (codeStart size : Word) (size_lt : size.toNat < 2 ^ 32) :
    UserRegions where
  memory := ⟨curr.memory.vmas, size, size_lt⟩
  codePa := virtToPhys codeStart

/-- What the calls of `allocate` for one mapping return: the page, and the tables where they are
missing. -/
structure FaultPages where
  page : Word
  pmd : Word
  pte : Word

/-- How the handler ends. -/
inductive FaultEnd where
  | threadExit
  | returned (s : Vm)

/-- The indices of a user address. -/
def userSlot (va : Word) : Slot :=
  (⟨vpn2 va % 256, Nat.mod_lt _ (by decide)⟩, ⟨vpn1 va % 512, Nat.mod_lt _ (by decide)⟩,
    ⟨vpn0 va % 512, Nat.mod_lt _ (by decide)⟩)

namespace Vm

/-- `allocate`, `memzero` and `set_page_ref_init`, which come first wherever a page is installed. -/
def newPage (s : Vm) (page : Word) : Option Vm :=
  (s.allocatePage page .userPage).map fun s =>
    let s := { s with ram := Function.update s.ram (virtToPhys page) fun _ => 0#8 }
    s.setPageRefInit (virtToPhys page)

/-- `map_pages` of one page. -/
def mapPage (s : Vm) (task : ℕ) (va prot : Word) (pages : FaultPages) : Option Vm :=
  if vpn2 va < 256 then
    s.pagewalk task (userSlot va) (virtToPhys pages.page) prot pages.pmd pages.pte
  else some s

/-- A page of zeros at an address: demand paging of a region, of the stack, or one round of
population. -/
def zeroPage (s : Vm) (task : ℕ) (va prot : Word) (pages : FaultPages) : Option Vm :=
  (s.newPage pages.page).bind fun s => s.mapPage task va prot pages

/-- A page of the program at an address: the code branch of `page_fault_handler`. -/
def codePage (s : Vm) (task : ℕ) (curr : UserRegions) (pageVa : Word)
    (pages : FaultPages) : Option Vm :=
  (s.newPage pages.page).bind fun s =>
    let count := curr.memory.codeSize - pageVa
    let count := if count > pageSize then pageSize else count
    let srcVa := physToVirt curr.codePa + pageVa
    let s := { s with
      ram := Function.update s.ram (virtToPhys pages.page) fun i =>
        if i.val < count.toNat then s.byteAt (srcVa + BitVec.ofNat 64 i)
        else s.ram (virtToPhys pages.page) i }
    s.mapPage task pageVa protUserRx pages

/-- The checks of `page_fault_handler` after that of the regions. -/
def stackOrCodeFault (s : Vm) (task : ℕ) (curr : UserRegions) (faultAddr : Word)
    (pages : FaultPages) : Option FaultEnd :=
  let pageVa := faultAddr &&& ~~~4095#64
  if userStack ≤ faultAddr ∧ faultAddr < userStack + stackSize then
    (s.zeroPage task pageVa protUserRw pages).map .returned
  else if faultAddr < curr.memory.codeSize then (s.codePage task curr pageVa pages).map .returned
  else some .threadExit

/-- `page_fault_handler`. The loop over the regions ends at the first one with the address, and goes
on behind the loop where that one does not allow the access. -/
def pageFaultHandler (s : Vm) (task : ℕ) (curr : UserRegions) (faultAddr : Word)
    (cause : FaultCause) (pages : FaultPages) : Option FaultEnd :=
  let pageVa := faultAddr &&& ~~~4095#64
  if cause = .store ∧ iteratePageTable (s.pgd task) (userSlot faultAddr) .checkCow ≠ 0#64 then
    (s.cowFault task (userSlot faultAddr) pages.page).map .returned
  else
    match (curr.memory.vmas.find? (·.contains faultAddr)).filter (cause.allowedBy ·.prot) with
    | some vma => (s.zeroPage task pageVa (mmapPageProt vma.prot) pages).map .returned
    | none => s.stackOrCodeFault task curr faultAddr pages

/-- The calls of `map_pages` that `sys_mmap` makes, each for a new page; the tables are those that a
walk to the address may need. -/
def populate (s : Vm) (task : ℕ) (requests : List MapRequest)
    (tables : Word → Word × Word) : Option Vm :=
  requests.foldlM (fun s request => s.zeroPage task request.va request.prot
    ⟨physToVirt request.pa, (tables request.va).1, (tables request.va).2⟩) s

/-- `create_user_process` as far as page tables and signals go. -/
def createUserProcess (s : Vm) (task : ℕ) (pgd : Word) : Option Vm :=
  (s.allocatePage pgd .table).map fun s => { s with
    pgd := Function.update s.pgd task ⟨pgd, fun _ => none⟩
    live := insert task s.live
    sigHandler := Function.update s.sigHandler task 0#64
    pending := Function.update s.pending task false
    savedRegs := Function.update s.savedRegs task 0#64
    signalStack := Function.update s.signalStack task 0#64 }

end Vm

end OscKernel.Model
