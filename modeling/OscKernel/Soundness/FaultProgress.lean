import OscKernel.Lib.System
import OscKernel.Soundness.UserMappings

/-! # Progress of page faults

The stack branch of `page_fault_handler` and its code branch do not look at the cause of the fault.
A fetch from the stack and a store to the code install a page that does not permit the access, and
replace an entry that may be valid. In every state of the tables that the kernel builds, every other
fault ends the thread, or leaves an entry that permits the access, and replaces a valid entry only
to resolve a copy-on-write store.
-/

namespace OscKernel.Soundness.FaultProgress

open OscKernel.Lib OscKernel.Model OscKernel.Soundness.PageTables OscKernel.Soundness.UserMappings
open OscKernel.Soundness.PageWalks (User present_makePte)
open OscKernel.Soundness.VmaTable (Valid)

/-! ## The tables that the kernel builds -/

/-- The user processes, with the part of each `task_struct` that the handler reads. -/
structure UserProcesses where
  vm : Vm
  regions : ℕ → UserRegions

inductive Event where
  | createUserProcess (task : ℕ)
  | exec (task : ℕ)
  | sysFork (parent child : ℕ)
  | sysMmap (task : ℕ) (ret : Word)
  | pageFault (task : ℕ) (faultAddr : Word) (cause : FaultCause)
  | sysSignal (task : ℕ)
  | sysKill (task : ℕ)
  | checkPendingSignals (task : ℕ)
  | sysSigreturn (task : ℕ)
  | store (task : ℕ) (slot : Slot)
  | exit (task : ℕ)

inductive Step (s : UserProcesses) : Event → UserProcesses → Prop
  | createUserProcess {task : ℕ} {pgd codeStart size : Word} {t : Vm} (fresh : task ∉ s.vm.live)
      (created : s.vm.createUserProcess task pgd = some t) (size_lt : size.toNat < 2 ^ 32) :
      Step s (.createUserProcess task)
        ⟨t, Function.update s.regions task
          (UserRegions.load ⟨⟨[], 0#64, by decide⟩, 0#64⟩ codeStart size size_lt)⟩
  | exec {task : ℕ} {codeStart size : Word} (live : task ∈ s.vm.live)
      (size_lt : size.toNat < 2 ^ 32) :
      Step s (.exec task) ⟨s.vm.clearUserSpaceMappings task,
        Function.update s.regions task ((s.regions task).load codeStart size size_lt)⟩
  | sysFork {parent child : ℕ} {pages : Vm.ForkPages} {t : Vm} (live : parent ∈ s.vm.live)
      (fresh : child ∉ s.vm.live)
      (forked : s.vm.sysFork parent child pages = some t) :
      Step s (.sysFork parent child) ⟨t, Function.update s.regions child (s.regions parent)⟩
  | sysMmap {task : ℕ} {addr length ret : Word} {prot flags : BitVec 32}
      {allocate : ℕ → Option Word} {memory : MmapTask}
      {requests : List MapRequest} {tables : Word → Word × Word} {t : Vm} (live : task ∈ s.vm.live)
      (called : sysMmap (s.regions task).memory addr length prot flags allocate =
        (ret, memory, requests))
      (populated : s.vm.populate task requests tables = some t) :
      Step s (.sysMmap task ret)
      ⟨t, Function.update s.regions task { s.regions task with memory := memory }⟩
  | pageFault {task : ℕ} {faultAddr : Word} {cause : FaultCause} {pages : FaultPages} {t : Vm}
      (live : task ∈ s.vm.live)
      (user : User faultAddr)
      (handled : s.vm.pageFaultHandler task (s.regions task) faultAddr cause pages =
        some (.returned t)) :
      Step s (.pageFault task faultAddr cause) { s with vm := t }
  | sysSignal {task : ℕ} {handler : Word} : Step s (.sysSignal task)
      { s with vm := s.vm.sysSignal task handler }
  | sysKill {task : ℕ} : Step s (.sysKill task) { s with vm := s.vm.sysKill task }
  | checkPendingSignals {task : ℕ} {pages : Vm.SignalPages} {t : Vm} (live : task ∈ s.vm.live)
      (delivered : s.vm.checkPendingSignals task pages = some t) :
      Step s (.checkPendingSignals task) { s with vm := t }
  | sysSigreturn {task : ℕ} (live : task ∈ s.vm.live) :
      Step s (.sysSigreturn task) { s with vm := s.vm.sysSigreturn task }
  | store {task : ℕ} {slot : Slot} {offset : Fin 4096} {value : BitVec 8} {t : Vm}
      (live : task ∈ s.vm.live)
      (written : s.vm.writeByte task slot offset value = some t) :
      Step s (.store task slot) { s with vm := t }
  | exit {task : ℕ} (live : task ∈ s.vm.live) :
      Step s (.exit task) { s with vm := s.vm.freeUserPageTable task }

def transitions : System UserProcesses Event := ⟨Step⟩

theorem noCode_lt : (0#64).toNat < 2 ^ 32 := by decide

/-- Before the first user process, whatever the kernel has allocated. -/
def boot (vm : Vm) : UserProcesses where
  vm := { vm with live := ∅, pgd := fun _ => ⟨0#64, fun _ => none⟩ }
  regions _ := ⟨⟨[], 0#64, noCode_lt⟩, 0#64⟩

/-- Where the VMA table of a process is valid, its entries permit what is allowed at their pages. -/
def Sound (s : UserProcesses) : Prop :=
  ∀ task, Valid (s.regions task).memory → Mapped (s.regions task) (s.vm.pgd task)

theorem sound_boot (vm : Vm) : Sound (boot vm) := fun _ _ => mapped_empty _ ⟨0#64, fun _ => none⟩

section Steps

variable {s : UserProcesses} {t : Vm} {task : ℕ} {curr : UserRegions}

/-- An operation on one process. -/
theorem Sound.update (sound : Sound s)
    (others : ∀ {other}, other ≠ task → t.pgd other = s.vm.pgd other)
    (mapped : Valid curr.memory → Mapped curr (t.pgd task)) :
    Sound ⟨t, Function.update s.regions task curr⟩ := by
  intro other valid
  rcases eq_or_ne other task with rfl | different
  · simp only [Function.update_self] at valid ⊢
    exact mapped valid
  · simp only [Function.update_of_ne different] at valid ⊢
    rw [others different]
    exact sound other valid

theorem Sound.same (sound : Sound s) (same : t.pgd = s.vm.pgd) : Sound { s with vm := t } := by
  intro other valid
  rw [same]
  exact sound other valid

theorem Sound.vm (sound : Sound s) (others : ∀ {other}, other ≠ task → t.pgd other = s.vm.pgd other)
    (mapped : Valid (s.regions task).memory → Mapped (s.regions task) (t.pgd task)) :
    Sound { s with vm := t } := by
  have updated := sound.update others mapped
  rwa [Function.update_eq_self] at updated

theorem Sound.sysMmap (sound : Sound s) {addr length ret : Word} {prot flags : BitVec 32}
    {allocate : ℕ → Option Word} {memory : MmapTask} {requests : List MapRequest}
    {tables : Word → Word × Word}
    (called : sysMmap (s.regions task).memory addr length prot flags allocate =
      (ret, memory, requests)) (populated : s.vm.populate task requests tables = some t) :
    Sound ⟨t, Function.update s.regions task { s.regions task with memory := memory }⟩ := by
  apply sound.update fun different => populate_others populated different
  intro valid
  rcases sysMmap_cases (s.regions task) addr length prot flags allocate with
    refused | ⟨vma, appends, requestsOf⟩
  · rw [called] at refused
    obtain ⟨rfl, rfl⟩ := Prod.mk.inj refused
    obtain rfl := Option.some.inj populated
    exact sound task valid
  · rw [called] at appends requestsOf
    have before := sound task (appends.valid valid)
    exact (before.append appends valid).populate appends valid requestsOf populated

theorem Sound.sysFork (sound : Sound s) {parent child : ℕ} {pages : Vm.ForkPages}
    (notSame : parent ≠ child) (forked : s.vm.sysFork parent child pages = some t) :
    Sound ⟨t, Function.update s.regions child (s.regions parent)⟩ := by
  have tables := sysFork_pgd forked
  intro other valid
  simp only [tables]
  rcases eq_or_ne other child with rfl | notChild
  · simp only [Function.update_self] at valid ⊢
    apply (sound parent valid).fork
    intro slot there
    rw [present_childTable] at there
    exact ⟨there, by rw [entryAt_childTable, if_pos there]⟩
  · simp only [Function.update_of_ne notChild] at valid ⊢
    rcases eq_or_ne other parent with rfl | notParent
    · rw [Function.update_self]
      apply (sound other valid).fork
      intro slot there
      rw [present_parentTable] at there
      exact ⟨there, by rw [entryAt_parentTable, if_pos there]⟩
    · rw [Function.update_of_ne notParent]
      exact sound other valid

/-- A step keeps what the entries permit. -/
theorem Sound.step {event : Event} {next : UserProcesses} (sound : Sound s)
    (step : transitions.Step s event next) :
    Sound next := by
  cases step with
  | createUserProcess fresh created size_lt =>
    obtain ⟨u, allocated, rfl⟩ := Option.map_eq_some_iff.mp created
    apply sound.update
    · intro other different
      rw [← (Bookkeeping.allocatePage allocated).pgd]
      exact Function.update_of_ne different _ _
    · intro _
      simp only [Function.update_self]
      exact mapped_empty _ ⟨_, fun _ => none⟩
  | @exec task codeStart size live size_lt =>
    have tables := clearUserSpaceMappings_pgd s.vm task
    apply sound.update
    · intro other different
      rw [tables, Function.update_of_ne different]
    · intro _
      rw [tables, Function.update_self]
      exact mapped_empty _ _
  | sysFork live fresh forked =>
    exact sound.sysFork (fun same => fresh (same ▸ live)) forked
  | sysMmap live called populated => exact sound.sysMmap called populated
  | pageFault live user handled =>
    have cases := pageFaultHandler_handled user handled
    exact sound.vm cases.others fun valid => (sound _ valid).fault valid user cases
  | sysSignal => exact sound.same rfl
  | @sysKill task => exact sound.same (sysKill_pgd s.vm task)
  | checkPendingSignals live delivered =>
    obtain ⟨others, mapped⟩ := checkPendingSignals_mapped delivered
    exact sound.vm others fun valid => mapped (sound _ valid)
  | @sysSigreturn task live => exact sound.same (sysSigreturn_pgd s.vm task)
  | store live written => exact sound.same (writeByte_pgd written)
  | @exit task live => exact sound.same (freeUserPageTable_pgd s.vm task)

end Steps

/-! ## One fault -/

/-- The handler ends the thread, or the access is permitted at the entry it leaves; and it replaces
a valid entry only to resolve a store at a shared page. -/
def Progress (s : Vm) (task : ℕ) (va : Word) (cause : FaultCause) : FaultEnd → Prop
  | .threadExit => True
  | .returned t => Permits ((t.pgd task).entryAt (userSlot va)) cause ∧
      ∀ other slot, present ((s.pgd other).entryAt slot) = true →
        (t.pgd other).entryAt slot ≠ (s.pgd other).entryAt slot →
        other = task ∧ slot = userSlot va ∧ SharedStore ((s.pgd task).entryAt (userSlot va)) cause

/-- A fetch from the stack, or a store to the code that does not go to a shared page. -/
def Misdirected (s : Vm) (task : ℕ) (curr : UserRegions) (va : Word) (cause : FaultCause) : Prop :=
  (cause = .fetch ∧ InStack va) ∨
    (cause = .store ∧ va < curr.memory.codeSize ∧
      ¬ SharedStore ((s.pgd task).entryAt (userSlot va)) cause)

section Fault

variable {s t : Vm} {task : ℕ} {curr : UserRegions} {va pa flags pte : Word} {cause : FaultCause}
  {allowed : FaultCause → Prop}

/-- An installed entry permits what its flags allow. -/
theorem permits_makePte (fits : Fits (flags ||| pteV) allowed)
    (single : (flags ||| pteV).getLsbD 8 = false) (pa : Word) (here : allowed cause) :
    Permits (makePte pa (flags ||| pteV)) cause := by
  apply (fits.makePte pa).permits (present_makePte pa flags) here
  rintro ⟨-, shared⟩
  rw [copyOnWrite_eq, getLsbD_makePte (by decide), single] at shared
  cases shared

theorem not_permits_makePte (refused : (flags ||| pteV) &&& permission cause = 0#64) (pa : Word) :
    ¬ Permits (makePte pa (flags ||| pteV)) cause := by
  intro permits
  have granted := permits.permission
  have bit : ∀ i, i < 10 → ((makePte pa (flags ||| pteV)) &&& (1#64 <<< i) ≠ 0#64 ↔
      (flags ||| pteV) &&& (1#64 <<< i) ≠ 0#64) := by
    intro i small
    rw [and_bit_ne_zero _ i (by omega), and_bit_ne_zero _ i (by omega), getLsbD_makePte small]
  cases cause with
  | fetch => exact (bit 3 (by decide)).mp granted refused
  | load => exact (bit 1 (by decide)).mp granted refused
  | store => exact (bit 2 (by decide)).mp granted refused

theorem region_single (prot : BitVec 32) : (mmapPageProt prot ||| pteV).getLsbD 8 = false := by
  unfold mmapPageProt
  dsimp only
  split_ifs <;> decide

/-- Where an access is allowed and faults, there is no valid entry, except one that is shared. -/
theorem not_present (mapped : Mapped curr (s.pgd task)) (user : User va)
    (faults : ¬ Permits ((s.pgd task).entryAt (userSlot va)) cause)
    (single : ¬ SharedStore ((s.pgd task).entryAt (userSlot va)) cause)
    (here : Allows curr (pageVa va) cause) :
    ¬ present ((s.pgd task).entryAt (userSlot va)) = true := fun there =>
  faults ((mapped.fits user there).permits there here fun shared =>
    single ⟨shared.1, there, shared.2⟩)

theorem progress_of_writes (writes : Writes s t task (userSlot va) pte)
    (permits : Permits pte cause) (replaces : present ((s.pgd task).entryAt (userSlot va)) = true →
      SharedStore ((s.pgd task).entryAt (userSlot va)) cause) :
      Progress s task va cause (.returned t) := by
  constructor
  · rwa [writes.entry, Function.update_self]
  · intro other slot there changed
    rcases eq_or_ne other task with rfl | different
    · rw [writes.entry] at changed
      rcases eq_or_ne slot (userSlot va) with rfl | elsewhere
      · exact ⟨rfl, rfl, replaces there⟩
      · exact absurd (Function.update_of_ne elsewhere _ _) changed
    · exact absurd (congrArg (fun pgd => Pgd.entryAt pgd slot) (writes.others different)) changed

theorem not_progress_of_writes (writes : Writes s t task (userSlot va) pte)
    (refused : ¬ Permits pte cause) :
    ¬ Progress s task va cause (.returned t) := by
  rintro ⟨permits, -⟩
  rw [writes.entry, Function.update_self] at permits
  exact refused permits

/-- A fault at an entry that permits what is allowed makes progress exactly when it is not
misdirected. -/
theorem handled_progress_iff (mapped : Mapped curr (s.pgd task)) (valid : Valid curr.memory)
    (user : User va) (faults : ¬ Permits ((s.pgd task).entryAt (userSlot va)) cause)
    {fault : FaultEnd} (handled : Handled s task curr va cause pa fault) :
    Progress s task va cause fault ↔ ¬ Misdirected s task curr va cause := by
  cases handled with
  | copied shared writes =>
    apply iff_of_true
    · obtain ⟨fits, granted⟩ := (mapped.fits user shared.2.1).unshared shared.2.2 pa
      have permits : Permits (unshared ((s.pgd task).entryAt (userSlot va)) pa) cause := by
        apply fits.permits_of_granted (present_makePte pa _)
        rw [shared.1]
        exact (and_bit_ne_zero _ 2 (by decide)).mpr granted
      exact progress_of_writes writes permits fun _ => shared
    · rintro (⟨fetch, -⟩ | ⟨-, -, single⟩)
      · rw [shared.1] at fetch
        cases fetch
      · exact single shared
  | region single found allowed writes =>
    apply iff_of_true
    · have absent := not_present mapped user faults single ((allows_region valid found).mpr allowed)
      exact progress_of_writes writes (permits_makePte (fits_region _) (region_single _) pa allowed)
        fun there => absurd there absent
    · rintro (⟨-, stack⟩ | ⟨-, code, -⟩)
      · rw [regionAt_stack valid stack] at found
        cases found
      · rw [regionAt_code valid code] at found
        cases found
  | stack single refused stack writes =>
    by_cases fetch : cause = .fetch
    · apply iff_of_false
      · subst fetch
        exact not_progress_of_writes writes (not_permits_makePte (by decide) pa)
      · exact fun directed => directed (.inl ⟨fetch, stack⟩)
    · apply iff_of_true
      · have absent := not_present mapped user faults single ((allows_stack valid stack).mpr fetch)
        exact progress_of_writes writes (permits_makePte fits_stack (by decide) pa fetch)
          fun there => absurd there absent
      · rintro (⟨same, -⟩ | ⟨-, code, -⟩)
        · exact fetch same
        · exact not_inStack_code code stack
  | code single refused offStack code writes =>
    by_cases store : cause = .store
    · apply iff_of_false
      · subst store
        exact not_progress_of_writes writes (not_permits_makePte (by decide) pa)
      · exact fun directed => directed (.inr ⟨store, code, single⟩)
    · apply iff_of_true
      · have absent := not_present mapped user faults single ((allows_code valid code).mpr store)
        exact progress_of_writes writes (permits_makePte fits_code (by decide) pa store)
          fun there => absurd there absent
      · rintro (⟨-, stack⟩ | ⟨same, -⟩)
        · exact offStack stack
        · exact store same
  | threadExit single refused offStack offCode =>
    apply iff_of_true trivial
    rintro (⟨-, stack⟩ | ⟨-, code, -⟩)
    · exact offStack stack
    · exact offCode code

end Fault

/-! ## Allocation that succeeds -/

/-- `allocate` can return these: different page frames of RAM that no allocation has had. -/
structure Supplied (s : Vm) (pages : FaultPages) : Prop where
  page : s.isPage pages.page = true
  pmd : s.isPage pages.pmd = true
  pte : s.isPage pages.pte = true
  pageUnused : Unused s pages.page
  pmdUnused : Unused s pages.pmd
  pteUnused : Unused s pages.pte
  pmdOther : frame pages.pmd ≠ frame pages.page
  pteOther : frame pages.pte ≠ frame pages.page
  tablesOther : frame pages.pte ≠ frame pages.pmd

section Supplied

variable {s : Vm} {task : ℕ} {curr : UserRegions} {va prot : Word} {pages : FaultPages}

theorem walkLevel_succeeds {τ : Type} (found : Option τ) (empty : τ)
    (page : s.isPage va = true) (unused : Unused s va) :
    ∃ t used, s.walkLevel found va empty = some (t, used) ∧ t.build = s.build ∧
      ∀ a, frame a ≠ frame va → t.heap.home a = s.heap.home a := by
  cases found with
  | some table => exact ⟨s, table, rfl, rfl, fun _ _ => rfl⟩
  | none =>
    obtain ⟨heap, allocated, others⟩ := allocatePage_succeeds .table page unused
    refine ⟨{ s with heap := heap }, empty, ?_, rfl, others⟩
    rw [Vm.walkLevel, allocated]
    rfl

/-- The page has been taken, and the tables are still to be had. -/
theorem mapPage_succeeds {t : Vm} (supplied : Supplied s pages) (build : t.build = s.build)
    (home : ∀ a, frame a ≠ frame pages.page → t.heap.home a = s.heap.home a) :
    ∃ u, t.mapPage task va prot pages = some u := by
  rw [Vm.mapPage]
  split
  · have isPage : ∀ {u : Vm} {va}, u.build = s.build → u.isPage va = s.isPage va := by
      intro u va same
      rw [Vm.isPage, Vm.isPage, same]
    have unused : Unused t pages.pmd := fun a same => by
      rw [home a (by rw [same]; exact supplied.pmdOther)]
      exact supplied.pmdUnused a same
    obtain ⟨u, pmd, upper, build', home'⟩ := walkLevel_succeeds ((t.pgd task).entry (userSlot va).1)
      ⟨pages.pmd, fun _ => none⟩ ((isPage build).trans supplied.pmd) unused
    have unused' : Unused u pages.pte := fun a same => by
      rw [home' a (by rw [same]; exact supplied.tablesOther),
        home a (by rw [same]; exact supplied.pteOther)]
      exact supplied.pteUnused a same
    obtain ⟨w, table, lower, -, -⟩ :=
      walkLevel_succeeds (pmd.entry (userSlot va).2.1) ⟨pages.pte, fun _ => 0#64⟩
      ((isPage (build'.trans build)).trans supplied.pte) unused'
    rw [Vm.pagewalk]
    simp only [upper, lower, Option.bind_eq_bind, Option.bind_some]
    exact ⟨_, rfl⟩
  · exact ⟨t, rfl⟩

theorem newPage_succeeds (supplied : Supplied s pages) :
    ∃ t, s.newPage pages.page = some t ∧ t.build = s.build ∧
    ∀ a, frame a ≠ frame pages.page → t.heap.home a = s.heap.home a := by
  obtain ⟨heap, allocated, others⟩ :=
    allocatePage_succeeds .userPage supplied.page supplied.pageUnused
  have kept : ∀ (u : Vm) (pa : Word), (u.setPageRefInit pa).build = u.build ∧
      (u.setPageRefInit pa).heap = u.heap := by
    intro u pa
    rw [Vm.setPageRefInit]
    split <;> exact ⟨rfl, rfl⟩
  rw [Vm.newPage, allocated]
  refine ⟨_, rfl, (kept _ _).1, fun a different => ?_⟩
  rw [← others a different]
  exact congrArg (fun heap => heap.home a) (kept _ _).2

/-- Where allocation succeeds the handler ends. -/
theorem pageFaultHandler_isSome (supplied : Supplied s pages) (cause : FaultCause) :
    (s.pageFaultHandler task curr va cause pages).isSome = true := by
  obtain ⟨t, fresh, build, home⟩ := newPage_succeeds supplied
  have zero : ∀ va prot, ∃ u, s.zeroPage task va prot pages = some u := by
    intro va prot
    rw [Vm.zeroPage, fresh]
    exact mapPage_succeeds supplied build home
  rw [Vm.pageFaultHandler]
  split
  · rename_i store
    obtain ⟨there, shared⟩ := checkCow_spec store.2
    obtain ⟨u, copied⟩ := cowFault_succeeds there shared supplied.page supplied.pageUnused
    rw [copied]
    rfl
  split
  · rename_i vma found
    obtain ⟨u, installed⟩ := zero (va &&& ~~~4095#64) (mmapPageProt vma.prot)
    rw [installed]
    rfl
  rw [Vm.stackOrCodeFault]
  split
  · obtain ⟨u, installed⟩ := zero (va &&& ~~~4095#64) protUserRw
    rw [installed]
    rfl
  split
  · rw [Vm.codePage, fresh, Option.bind_some, Option.isSome_map]
    exact Option.isSome_iff_exists.mpr (mapPage_succeeds supplied build home)
  · rfl

end Supplied

/-- In every state of the processes, a user access that faults in a process with a valid VMA table
ends in the handler wherever allocation succeeds, and makes progress exactly when it is neither a
fetch from the stack nor a store to the code that does not go to a shared page. -/
theorem fault_progress_iff (vm : Vm) {past : List Event} {s : UserProcesses}
    (run : transitions.Path (boot vm) past s) {task : ℕ} (_live : task ∈ s.vm.live)
    (valid : Valid (s.regions task).memory) {va : Word} (user : User va) {cause : FaultCause}
    (faults : ¬ Permits ((s.vm.pgd task).entryAt (userSlot va)) cause)
    (pages : FaultPages) : (Supplied s.vm pages →
      (s.vm.pageFaultHandler task (s.regions task) va cause pages).isSome = true) ∧
      ∀ fault, s.vm.pageFaultHandler task (s.regions task) va cause pages = some fault →
        (Progress s.vm task va cause fault ↔
          ¬ Misdirected s.vm task (s.regions task) va cause) := by
  refine ⟨fun supplied => pageFaultHandler_isSome supplied cause, fun fault result => ?_⟩
  have sound : Sound s := run.invariant Sound.step (sound_boot vm)
  exact handled_progress_iff (sound task valid)
    valid user faults (pageFaultHandler_handled user result)

/-! ## One process with one page of code -/

/-- Nothing is allocated. -/
def unusedMemory : Vm where
  build := .board
  heap := ⟨fun _ => none, fun _ => 0#64, fun _ => .table, 0, []⟩
  pageRefCounts _ := 0#8
  ram _ _ := 0#8
  pgd _ := ⟨0#64, fun _ => none⟩
  live := ∅
  sigHandler _ := 0#64
  pending _ := false
  savedRegs _ := 0#64
  signalStack _ := 0#64

theorem codePage_lt : (4096#64).toNat < 2 ^ 32 := by decide

def oneCodePage : UserRegions :=
  UserRegions.load ⟨⟨[], 0#64, noCode_lt⟩, 0#64⟩ (physToVirt 0x8000#64) 4096#64 codePage_lt

def somePages : FaultPages := ⟨physToVirt 0x1000#64, physToVirt 0x2000#64, physToVirt 0x3000#64⟩

theorem one_process : ∃ t, transitions.Path (boot unusedMemory) [.createUserProcess 0]
    ⟨t, Function.update (boot unusedMemory).regions 0 oneCodePage⟩ ∧
    0 ∈ t.live ∧ t.pgd 0 = ⟨physToVirt 0#64, fun _ => none⟩ ∧ Supplied t somePages := by
  have page : (boot unusedMemory).vm.isPage (physToVirt 0#64) = true := by decide
  obtain ⟨heap, allocated, others⟩ := allocatePage_succeeds .table page fun _ _ => rfl
  have created : ∃ t, (boot unusedMemory).vm.createUserProcess 0 (physToVirt 0#64) = some t ∧
      t.heap = heap ∧
      t.build = .board ∧ 0 ∈ t.live ∧ t.pgd 0 = ⟨physToVirt 0#64, fun _ => none⟩ := by
    rw [Vm.createUserProcess, allocated]
    exact ⟨_, rfl, rfl, rfl, Finset.mem_insert_self _ _, rfl⟩
  obtain ⟨t, created, rfl, build, live, table⟩ := created
  have step : transitions.Step (boot unusedMemory) (.createUserProcess 0)
      ⟨t, Function.update (boot unusedMemory).regions 0 oneCodePage⟩ :=
    Step.createUserProcess (Finset.notMem_empty 0) created (by decide)
  have unused : ∀ {va}, frame va ≠ frame (physToVirt 0#64) → Unused t va := fun different a same =>
    others a (by rw [same]; exact different)
  refine ⟨t, .cons step (.nil _), live, table, ?_⟩
  constructor
  · rw [Vm.isPage, build]
    decide
  · rw [Vm.isPage, build]
    decide
  · rw [Vm.isPage, build]
    decide
  · exact unused (by decide)
  · exact unused (by decide)
  · exact unused (by decide)
  · decide
  · decide
  · decide

theorem valid_oneCodePage : Valid oneCodePage.memory := VmaTable.valid_of_fresh rfl

theorem not_permits_missing (pgd : Word) (slot : Slot) (cause : FaultCause) :
    ¬ Permits (Pgd.entryAt ⟨pgd, fun _ => none⟩ slot) cause := by
  have missing : Pgd.entryAt ⟨pgd, fun _ => none⟩ slot = 0#64 := rfl
  rw [missing]
  exact fun permits => absurd permits.present (by decide)

/-- A load from the code makes progress. -/
theorem fault_progress_load : ∃ s t, transitions.Path (boot unusedMemory) [.createUserProcess 0] s ∧
    s.vm.pageFaultHandler 0 (s.regions 0) 0#64 .load somePages = some t ∧
    Progress s.vm 0 0#64 .load t := by
  obtain ⟨t, run, live, table, supplied⟩ := one_process
  have faults : ¬ Permits ((t.pgd 0).entryAt (userSlot 0#64)) .load := by
    rw [table]
    exact not_permits_missing _ _ _
  obtain ⟨ends, progress⟩ :=
    fault_progress_iff unusedMemory run live valid_oneCodePage (by decide) faults somePages
  obtain ⟨fault, result⟩ := Option.isSome_iff_exists.mp (ends supplied)
  refine ⟨_, fault, run, result, (progress fault result).mpr ?_⟩
  rintro (⟨fetch, -⟩ | ⟨store, -⟩)
  · cases fetch
  · cases store

/-- A store to the code returns to the same fault. -/
theorem code_store_refaults : ∃ s t, transitions.Path (boot unusedMemory) [.createUserProcess 0] s ∧
    0 ∈ s.vm.live ∧
    Valid (s.regions 0).memory ∧ Supplied s.vm somePages ∧
    ¬ Permits ((s.vm.pgd 0).entryAt (userSlot 0#64)) .store ∧
    s.vm.pageFaultHandler 0 (s.regions 0) 0#64 .store somePages = some (.returned t) ∧
    ¬ Permits ((t.pgd 0).entryAt (userSlot 0#64)) .store := by
  obtain ⟨t, run, live, table, supplied⟩ := one_process
  have missing : ∀ cause, ¬ Permits ((t.pgd 0).entryAt (userSlot 0#64)) cause := by
    intro cause
    rw [table]
    exact not_permits_missing _ _ _
  have ends : (t.pageFaultHandler 0 oneCodePage 0#64 .store somePages).isSome = true :=
    pageFaultHandler_isSome supplied .store
  obtain ⟨fault, result⟩ := Option.isSome_iff_exists.mp ends
  have handled := pageFaultHandler_handled (by decide) result
  cases handled with
  | copied shared =>
    have there := shared.2.1
    rw [table] at there
    exact absurd there (by decide)
  | region single found =>
    have nowhere : regionAt oneCodePage 0#64 = none := rfl
    rw [nowhere] at found
    cases found
  | stack single refused stack => exact absurd stack (by decide)
  | code single refused offStack code writes =>
    refine ⟨_, _, run, live, valid_oneCodePage, supplied, missing .store, result, ?_⟩
    rw [writes.entry, Function.update_self]
    exact not_permits_makePte (by decide) _
  | threadExit single refused offStack offCode => exact absurd (by decide) offCode

end OscKernel.Soundness.FaultProgress
