import OscKernel.Soundness.DemandPaging

/-! # Every process has a memory of its own

The user processes with what their programs see: every byte they fetch or load, every store, and
every access that ends them. Any interleaving of theirs, with page faults wherever they occur, is a
run of processes that have all of their memory from the start and share none of it.
-/

namespace OscKernel.Soundness.ProcessMemory

open OscKernel.Lib OscKernel.Model OscKernel.Soundness.PageTables OscKernel.Soundness.UserMappings
open OscKernel.Soundness.CopyOnWrite (WritableOnce view pageAt view_fork view_unmap Eager)
open OscKernel.Soundness.MemoryAccounts
open OscKernel.Soundness.ExecImage (framePage)
open OscKernel.Soundness.FaultProgress (UserProcesses Misdirected)
open OscKernel.Soundness.PageWalks (User)
open OscKernel.Soundness.PrivateMemory (Allowed Granted Program Process PrivateProcesses Action)
open OscKernel.Soundness.VmaTable (Valid)

/-! ## Fork, exec and exit -/

section Spaces

variable {s t : Vm} {reserved : Word → Prop} {regions : ℕ → UserRegions} {process : ℕ → Process}
  {task parent child : ℕ} {curr : UserRegions} {q : Process}

/-- The entries of a fork are those of the task they come from, some of them shared. -/
private theorem confined_fork (forks : Forks s t parent child)
    (confined : EveryEntry (Confined curr) (s.pgd (origin parent child task))) :
    EveryEntry (Confined curr) (t.pgd task) := by
  rcases eq_or_ne task child with rfl | notChild
  · obtain ⟨pages, childPgd⟩ := forks.childPgd
    rw [origin_child] at confined
    intro page user aligned there
    rw [childPgd, entryAt_childTable] at there ⊢
    split at there
    · rename_i present
      rw [if_pos present]
      exact (confined page user aligned present).share
    · exact absurd there (by decide)
  rw [origin_of_ne notChild] at confined
  rcases eq_or_ne task parent with rfl | notParent
  · intro page user aligned there
    rw [forks.parentPgd, entryAt_parentTable] at there ⊢
    split
    · rename_i present
      exact (confined page user aligned present).share
    · rename_i absent
      rw [if_neg absent] at there
      exact absurd there absent
  · rw [forks.others notParent notChild]
    exact confined

/-- The child sees what the parent sees. -/
theorem Represents.fork (all : Represents reserved s regions process) (parentLive : parent ∈ s.live)
    (childNew : child ∉ s.live) (forks : Forks s t parent child) :
    Represents reserved t (Function.update regions child (regions parent))
      (Function.update process child (process parent)) := by
  refine ⟨WritableOnce.fork forks all.writableOnce parentLive childNew, fun {task} inLive => ?_⟩
  have shows := all.shows (forks.was_live parentLive inLive)
  have same := view_fork forks task
  have moved : Shows reserved t (regions (origin parent child task))
      task (process (origin parent child task)) := by
    apply shows.of_view same (fun pa _ => by rw [forks.ram]) (confined_fork forks shows.confined)
    intro pa maps
    exact shows.unreserved ((forks.sameMaps task).mapsPage.mp maps)
  rcases eq_or_ne task child with rfl | notChild
  · rw [origin_child] at moved
    rwa [Function.update_self, Function.update_self]
  · rw [origin_of_ne notChild] at moved
    rwa [Function.update_of_ne notChild, Function.update_of_ne notChild]

/-- A task gives its pages up, and the others keep theirs. -/
theorem Represents.unmap {gone : List Word} (all : Represents reserved s regions process)
    (taskLive : task ∈ s.live) (unmaps : Unmaps s t task gone)
    (mine : task ∈ t.live → Shows reserved t curr task q) :
    Represents reserved t (Function.update regions task curr) (Function.update process task q) := by
  refine ⟨WritableOnce.unmap unmaps all.writableOnce taskLive, fun {other} inLive => ?_⟩
  rcases eq_or_ne other task with rfl | different
  · rw [Function.update_self, Function.update_self]
    exact mine inLive
  · rw [Function.update_of_ne different, Function.update_of_ne different]
    exact (all.shows ((unmaps.live different).mp inLive)).of_pgd (unmaps.others different)
      (view_unmap unmaps different)
      fun pa _ => by rw [unmaps.ram]

/-- The file lies in reserved pages and has the bytes of the program. -/
structure Holds (reserved : Word → Prop) (s : Vm) (codeStart : Word)
    (program : Program) : Prop where
  reserved : ∀ va < program.size, reserved (framePage (codeStart + va))
  byte : ∀ va < program.size, s.byteAt (codeStart + va) = program.byte va

/-- A process without pages shows its program. -/
theorem shows_program {codeStart : Word} {program : Program}
    (holds : Holds reserved s codeStart program) (ram : t.ram = s.ram)
    (empty : ∀ slot, (t.pgd task).entryAt slot = 0#64) (vmas : q.vmas = curr.memory.vmas) :
    Shows reserved t (curr.load codeStart program.size program.size_lt) task { q with
      codeSize := program.size, byte := program.image } where
  vmas := vmas
  codeSize := rfl
  byte := by
    intro va _
    have absent : ¬ present (entryOf t task (userSlot va)) = true := by
      rw [entryOf, empty]
      decide
    have same : t.byteAt (codeStart + va) = s.byteAt (codeStart + va) := by
      rw [Vm.byteAt, Vm.byteAt, ram]
    rw [shown_absent absent, broughtIn]
    simp only [UserRegions.load, Program.image, physToVirt_virtToPhys, same]
    split
    · rename_i code
      exact (holds.byte va code).symm
    · rfl
  confined := by
    intro page _ _ there
    rw [empty] at there
    exact absurd there (by decide)
  file := by
    intro va code
    simp only [UserRegions.load, physToVirt_virtToPhys] at code ⊢
    exact holds.reserved va code
  unreserved := by
    rintro pa ⟨slot, there, -⟩
    rw [empty] at there
    exact absurd there (by decide)

theorem Represents.exec {codeStart : Word} {program : Program}
    (all : Represents reserved s regions process) (separate : Separate s) (taskLive : task ∈ s.live)
    (holds : Holds reserved s codeStart program) :
    Represents reserved (s.clearUserSpaceMappings task)
      (Function.update regions task ((regions task).load codeStart program.size program.size_lt))
      (Function.update process task ((process task).exec program)) := by
  obtain ⟨gone, unmaps, -⟩ := exec_unmaps separate taskLive
  apply all.unmap taskLive unmaps
  intro _
  apply shows_program holds unmaps.ram _ (all.shows taskLive).vmas
  intro slot
  rw [clearUserSpaceMappings_pgd, Function.update_self, entryAt_cleared]

theorem Represents.exit (all : Represents reserved s regions process) (separate : Separate s)
    (taskLive : task ∈ s.live) :
    Represents reserved (s.freeUserPageTable task) regions process := by
  obtain ⟨gone, unmaps, live, -⟩ := exit_unmaps separate taskLive
  have gone' : task ∉ (s.freeUserPageTable task).live := by
    rw [live]
    exact Finset.notMem_erase task s.live
  have left : Represents reserved (s.freeUserPageTable task)
      (Function.update regions task (regions task))
      (Function.update process task (process task)) :=
      all.unmap taskLive unmaps fun inLive => absurd inLive gone'
  rwa [Function.update_eq_self, Function.update_eq_self] at left

theorem Represents.createUserProcess {pgd codeStart : Word} {program : Program}
    (all : Represents reserved s regions process) (separate : Separate s) (fresh : task ∉ s.live)
    (created : s.createUserProcess task pgd = some t) (holds : Holds reserved s codeStart program) :
    Represents reserved t
      (Function.update regions task
        (UserRegions.load ⟨⟨[], 0#64, by decide⟩, 0#64⟩ codeStart program.size program.size_lt))
      (Function.update process task (.start program)) := by
  have joins := createUserProcess_joins separate.valid created
  have ram : t.ram = s.ram := by
    obtain ⟨u, allocated, rfl⟩ := Option.map_eq_some_iff.mp created
    exact (Bookkeeping.allocatePage allocated).ram
  have before : ∀ {other}, other ∈ t.live → other ≠ task → other ∈ s.live := by
    intro other inLive different
    rw [joins.live] at inLive
    exact (Finset.mem_insert.mp inLive).resolve_left different
  have empty : ∀ slot, (t.pgd task).entryAt slot = 0#64 := by
    intro slot
    rw [joins.mine]
    rfl
  constructor
  · intro other slot inLive there writes
    rcases eq_or_ne other task with rfl | different
    · rw [entryOf, empty] at there
      exact absurd there (by decide)
    have same : entryOf t other slot = entryOf s other slot := by
      rw [entryOf, joins.others different]
      rfl
    rw [same] at there writes ⊢
    rw [← all.writableOnce (before inLive different) there writes]
    ext holder
    rw [mem_mappers, mem_mappers]
    constructor
    · rintro ⟨holderLive, maps⟩
      obtain ⟨wasLive, -, maps⟩ := joins.mapsPage holderLive maps
      exact ⟨wasLive, maps⟩
    · rintro ⟨holderLive, maps⟩
      rw [joins.live, joins.others fun same => fresh (same ▸ holderLive)]
      exact ⟨Finset.mem_insert_of_mem holderLive, maps⟩
  · intro other inLive
    rcases eq_or_ne other task with rfl | different
    · rw [Function.update_self, Function.update_self]
      exact @shows_program s t reserved other ⟨⟨[], 0#64, by decide⟩, 0#64⟩ ⟨[], 0#64, fun _ => 0#8⟩
        codeStart program holds ram
        empty rfl
    · rw [Function.update_of_ne different, Function.update_of_ne different]
      apply (all.shows (before inLive different)).of_pgd (joins.others different)
      · funext slot
        rw [view, view, entryOf, joins.others different, ram]
        rfl
      · exact fun pa _ => by rw [ram]

end Spaces

/-! ## Mapping a region -/

section Regions

variable {s t : Vm} {base : ℕ} {reserved : Word → Prop}
  {regions : ℕ → UserRegions} {process : ℕ → Process}
  {task : ℕ} {curr next : UserRegions} {vma : VmArea}

/-- A new region shows zeros. -/
theorem Represents.append (all : Represents reserved s regions process) (inLive : task ∈ s.live)
    (appends : Appends (regions task) next vma) (codePa : next.codePa = (regions task).codePa)
    (valid : Valid next.memory) :
    Represents reserved s (Function.update regions task next)
      (Function.update process task { process task with vmas := next.memory.vmas }) := by
  refine ⟨all.writableOnce, fun {other} otherLive => ?_⟩
  rcases eq_or_ne other task with rfl | different
  · have shows := all.shows inLive
    rw [Function.update_self, Function.update_self]
    refine ⟨rfl, shows.codeSize.trans appends.codeSize.symm, fun va user => ?_,
      fun page user aligned there => ?_, ?_, shows.unreserved⟩
    · have same : broughtIn s next va = broughtIn s (regions other) va := by
        rw [broughtIn, broughtIn, appends.codeSize, codePa]
      rw [shown, same]
      exact shows.byte va user
    · exact (shows.confined page user aligned there).append appends valid
    · intro va code
      rw [codePa]
      rw [appends.codeSize] at code
      exact shows.file va code
  · rw [Function.update_of_ne different, Function.update_of_ne different]
    exact all.shows otherLive

/-- Populating a region changes no byte. -/
theorem Represents.populate {requests : List MapRequest} {tables : Word → Word × Word}
    (all : Represents reserved s regions process) (balanced : Balanced base s)
    (inLive : task ∈ s.live) (appends : Appends curr (regions task) vma)
    (valid : Valid (regions task).memory) (requestsOf : RequestsOf vma requests)
    (nodup : (requests.map MapRequest.va).Nodup)
    (unreserved : ∀ request ∈ requests, ¬ reserved request.pa)
    (absent : ∀ request ∈ requests, ¬ present ((s.pgd task).entryAt (userSlot request.va)) = true)
    (result : s.populate task requests tables = some t) :
    Represents reserved t regions process := by
  have kept : task ∈ t.live ∧ Balanced base t ∧ Represents reserved t regions process := by
    apply populate_rule (P := fun s => task ∈ s.live ∧ Balanced base s ∧
      Represents reserved s regions process) appends valid
      requestsOf nodup _ ⟨inLive, balanced, all⟩ absent result
    intro s u request member before missing ran
    obtain ⟨here, balanced, all⟩ := before
    obtain ⟨user, aligned, found⟩ := appends.request valid requestsOf member
    have prot := (requestsOf request member).2
    refine ⟨?_, ?_, ?_⟩
    · rw [(zeroPage_memoryOnly ran).live]
      exact here
    · apply balanced.zeroPage here user _ missing ran
      rw [prot]
      exact region_flags _
    · rw [prot, ← aligned] at ran
      rw [← aligned] at missing
      apply all.regionPage balanced.exact.separate here user valid found _ _ ran
      · rwa [aligned] at missing ⊢
      · rw [virtToPhys_physToVirt]
        exact unreserved request member
  exact kept.2.2

/-- `sys_mmap` adds a region, or changes nothing. -/
theorem Represents.sysMmap {addr length ret : Word} {prot flags : BitVec 32}
    {allocate : ℕ → Option Word} {memory : MmapTask} {requests : List MapRequest}
    {tables : Word → Word × Word} (all : Represents reserved s regions process)
    (balanced : Balanced base s) (inLive : task ∈ s.live)
    (inside : Inside (regions task) (s.pgd task))
    (called : Model.sysMmap (regions task).memory addr length prot flags allocate =
      (ret, memory, requests)) (populated : s.populate task requests tables = some t)
    (valid : Valid memory) (unreserved : ∀ request ∈ requests, ¬ reserved request.pa) :
    (regions task).memory.vmas <+: memory.vmas ∧
      Represents reserved t (Function.update regions task { regions task with memory := memory })
        (Function.update process task { process task with vmas := memory.vmas }) := by
  have nodup := nodup_sysMmap (regions task).memory addr length prot flags allocate
  rcases sysMmap_cases (regions task) addr length prot flags allocate with
    refused | ⟨vma, appends, requestsOf⟩
  · rw [called] at refused
    obtain ⟨rfl, rfl⟩ := Prod.mk.inj refused
    obtain rfl := Option.some.inj populated
    refine ⟨List.prefix_rfl, ?_⟩
    rw [← (all.shows inLive).vmas]
    change Represents reserved s (Function.update regions task (regions task))
      (Function.update process task (process task))
    rwa [Function.update_eq_self, Function.update_eq_self]
  · rw [called] at appends requestsOf nodup
    have absent : ∀ request ∈ requests,
        ¬ present ((s.pgd task).entryAt (userSlot request.va)) = true := by
      intro request member
      obtain ⟨user, aligned, found⟩ := appends.request valid requestsOf member
      have start := aligned_pageVa request.va
      rw [aligned] at start
      exact inside.absent user start (Appends.uncovered appends valid found)
    have appended := all.append inLive appends rfl valid
    refine ⟨⟨[vma], appends.vmas.symm⟩, ?_⟩
    have here : (Function.update regions task { regions task with memory := memory } task) =
        { regions task with memory := memory } := Function.update_self _ _ _
    exact appended.populate balanced inLive (here.symm ▸ appends)
      (here.symm ▸ valid) requestsOf nodup
      unreserved absent populated

end Regions

/-! ## Stores -/

section Stores

variable {s t : Vm} {reserved : Word → Prop} {regions : ℕ → UserRegions}
  {process : ℕ → Process} {task : ℕ} {va : Word}
  {value : BitVec 8}

/-- The place of a byte in its page and the place of the page determine its address. -/
private theorem address_eq {va' : Word} (user : User va) (user' : User va')
    (slot : userSlot va' = userSlot va) (offset : offsetOf va' = offsetOf va) : va' = va := by
  have page : pageVa va' = pageVa va := by
    apply pageVa_of_userSlot user (user_pageVa user') (aligned_pageVa va')
    rw [userSlot_pageVa, slot]
  rw [← pageVa_add va', ← pageVa_add va, page, offset]

/-- A store changes one byte of one process. -/
theorem Represents.store (all : Represents reserved s regions process) (exact : Exact s)
    (inLive : task ∈ s.live) (user : User va)
    (result : s.writeByte task (userSlot va) (offsetOf va) value = some t) :
    Represents reserved t regions
      (Function.update process task ((process task).store va value)) := by
  have related : CopyOnWrite.Related s (CopyOnWrite.eagerOf s) :=
    ⟨exact, all.writableOnce, rfl, fun _ => rfl⟩
  obtain ⟨f, stored, after⟩ := related.write inLive result
  have pgd := writeByte_pgd result
  obtain ⟨sameLive, others⟩ := Eager.store_frame stored
  have kept : ∀ pa, reserved pa → t.ram pa = s.ram pa := by
    intro pa isReserved
    obtain ⟨both, written⟩ := Option.ite_none_right_eq_some.mp result
    have there := (Bool.and_eq_true_iff.mp both).1
    have different : pa ≠ ptePa ((s.pgd task).entryAt (userSlot va)) := fun here =>
      (all.shows inLive).unreserved ⟨userSlot va, there, rfl⟩ (here ▸ isReserved)
    rw [← Option.some.inj written]
    exact Function.update_of_ne different _ _
  refine ⟨after.writableOnce, fun {other} otherLive => ?_⟩
  have viewed := after.page otherLive
  rw [← after.live, sameLive] at otherLive
  have shows := all.shows otherLive
  rcases eq_or_ne other task with rfl | different
  · obtain ⟨page, here, now⟩ := Option.bind_eq_some_iff.mp stored
    obtain ⟨-, now⟩ := Option.ite_none_right_eq_some.mp now
    change view s other (userSlot va) = some page at here
    rw [← Option.some.inj now] at viewed
    simp only [Function.update_self] at viewed
    rw [Function.update_self]
    refine ⟨shows.vmas, shows.codeSize, fun va' user' => ?_, pgd ▸ shows.confined,
      shows.file, pgd ▸ shows.unreserved⟩
    have before := shows.byte va' user'
    rw [shown, ← viewed, broughtIn_kept kept shows.file, Process.byte_store]
    by_cases slot : userSlot va' = userSlot va
    · rw [shown, slot, here] at before
      rw [slot, Function.update_self]
      dsimp only at before ⊢
      by_cases offset : offsetOf va' = offsetOf va
      · obtain rfl := address_eq user user' slot offset
        rw [Function.update_self, Function.update_self]
      · have elsewhere : va' ≠ va := fun same => offset (congrArg offsetOf same)
        rw [Function.update_of_ne elsewhere, Function.update_of_ne offset]
        exact before
    · have elsewhere : va' ≠ va := fun same => slot (congrArg userSlot same)
      rw [Function.update_of_ne elsewhere, Function.update_of_ne slot]
      exact before
  · rw [Function.update_of_ne different]
    refine shows.of_pgd (congrFun pgd other) ?_ kept
    rw [← viewed, others other different]
    rfl

end Stores

/-! ## Steps -/

inductive Event where
  | program (action : Action)
  /-- The kernel handles a fault, and the access can be repeated. -/
  | pageFault (task : ℕ) (va : Word) (cause : FaultCause)

/-- What is seen of the event by programs. -/
def Event.action? : Event → Option Action
  | .program action => some action
  | .pageFault .. => none

/-- A step of the user processes. The archive lies in reserved pages, which `allocate` does not
return. -/
inductive Step (reserved : Word → Prop) (s : UserProcesses) : Event → UserProcesses → Prop
  | createUserProcess {task : ℕ} {pgd codeStart : Word} {program : Program} {t : Vm}
      (fresh : task ∉ s.vm.live)
      (created : s.vm.createUserProcess task pgd = some t)
      (holds : Holds reserved s.vm codeStart program) :
      Step reserved s (.program (.start task program)) ⟨t, Function.update s.regions task
        (UserRegions.load ⟨⟨[], 0#64, by decide⟩, 0#64⟩ codeStart program.size program.size_lt)⟩
  | exec {task : ℕ} {codeStart : Word} {program : Program} (live : task ∈ s.vm.live)
      (holds : Holds reserved s.vm codeStart program) :
      Step reserved s (.program (.exec task program)) ⟨s.vm.clearUserSpaceMappings task,
        Function.update s.regions task
        ((s.regions task).load codeStart program.size program.size_lt)⟩
  | sysFork {parent child : ℕ} {pages : Vm.ForkPages} {t : Vm} (live : parent ∈ s.vm.live)
      (fresh : child ∉ s.vm.live)
      (forked : s.vm.sysFork parent child pages = some t) :
      Step reserved s (.program (.fork parent child))
      ⟨t, Function.update s.regions child (s.regions parent)⟩
  | sysMmap {task : ℕ} {addr length ret : Word} {prot flags : BitVec 32}
      {allocate : ℕ → Option Word} {memory : MmapTask}
      {requests : List MapRequest} {tables : Word → Word × Word} {t : Vm} (live : task ∈ s.vm.live)
      (called : Model.sysMmap (s.regions task).memory addr length prot flags allocate =
        (ret, memory, requests))
      (populated : s.vm.populate task requests tables = some t)
      (unreserved : ∀ request ∈ requests, ¬ reserved request.pa) :
      Step reserved s (.program (.map task memory.vmas))
        ⟨t, Function.update s.regions task { s.regions task with memory := memory }⟩
  | pageFault {task : ℕ} {va : Word} {cause : FaultCause} {pages : FaultPages} {t : Vm}
      (live : task ∈ s.vm.live)
      (user : User va) (faults : ¬ Permits ((s.vm.pgd task).entryAt (userSlot va)) cause)
      (handled : s.vm.pageFaultHandler task (s.regions task) va cause pages = some (.returned t))
      (unreserved : ¬ reserved (virtToPhys pages.page)) :
      Step reserved s (.pageFault task va cause) { s with vm := t }
  | killed {task : ℕ} {va : Word} {cause : FaultCause} {pages : FaultPages}
      (live : task ∈ s.vm.live) (user : User va)
      (faults : ¬ Permits ((s.vm.pgd task).entryAt (userSlot va)) cause)
      (handled : s.vm.pageFaultHandler task (s.regions task) va cause pages = some .threadExit) :
      Step reserved s (.program (.killed task va cause)) s
  | read {task : ℕ} {va : Word} {cause : FaultCause} (live : task ∈ s.vm.live)
      (user : User va) (reads : cause ≠ .store)
      (permits : Permits ((s.vm.pgd task).entryAt (userSlot va)) cause) :
      Step reserved s (.program (.read task va cause
        (s.vm.ram (ptePa ((s.vm.pgd task).entryAt (userSlot va))) (offsetOf va)))) s
  | store {task : ℕ} {va : Word} {value : BitVec 8} {t : Vm} (live : task ∈ s.vm.live)
      (user : User va)
      (permits : Permits ((s.vm.pgd task).entryAt (userSlot va)) .store)
      (written : s.vm.writeByte task (userSlot va) (offsetOf va) value = some t) :
      Step reserved s (.program (.store task va value)) { s with vm := t }
  | exit {task : ℕ} (live : task ∈ s.vm.live) :
      Step reserved s (.program (.exit task)) { s with vm := s.vm.freeUserPageTable task }

/-- No count overflows, the VMA tables stay valid, and no fetch from the stack and no store to the
code is tried. -/
def Safe (s : UserProcesses) (event : Event) (t : UserProcesses) : Prop :=
  match event with
  | .program (.fork parent _) => Room s.vm parent
  | .program (.exec task _) | .program (.map task _) => Valid (t.regions task).memory
  | .pageFault task va cause => ¬ Misdirected s.vm task (s.regions task) va cause
  | _ => True

def machine (reserved : Word → Prop) : System UserProcesses Event :=
  ⟨fun s event t => Safe s event t ∧ Step reserved s event t⟩

/-! ## The relation -/

structure Related (base : ℕ) (reserved : Word → Prop) (s : UserProcesses)
    (p : PrivateProcesses) : Prop where
  conserved : Conserved base s
  live : p.live = s.vm.live
  represents : Represents reserved s.vm s.regions p.process

section Related

variable {base : ℕ} {reserved : Word → Prop} {s t : UserProcesses} {p : PrivateProcesses}
  {event : Event} {action : Action}
  {task : ℕ} {va : Word} {cause : FaultCause}

/-- The memory is kept in order as before. -/
theorem Step.conserved (conserved : Conserved base s) (step : (machine reserved).Step s event t) :
    Conserved base t := by
  obtain ⟨safe, step⟩ := step
  have kept : ∀ {e}, FaultProgress.Step s e t → MemoryAccounts.Orderly s e t → Conserved base t :=
    fun here orderly => conserved.step ⟨orderly, here⟩
  cases step with
  | @createUserProcess task pgd codeStart program u fresh created holds =>
    have here := @FaultProgress.Step.createUserProcess s task pgd codeStart program.size u
      fresh created program.size_lt
    exact kept here trivial
  | @exec task codeStart program live holds =>
    have here := @FaultProgress.Step.exec s task codeStart program.size live program.size_lt
    exact kept here safe
  | sysFork live fresh forked => exact kept (.sysFork live fresh forked) safe
  | sysMmap live called populated unreserved => exact kept (.sysMmap live called populated) safe
  | pageFault live user faults handled unreserved =>
    exact kept (.pageFault live user handled) ⟨faults, safe⟩
  | killed live user faults handled => exact conserved
  | read live user reads permits => exact conserved
  | store live user permits written => exact kept (.store live written) trivial
  | exit live => exact kept (.exit live) trivial

theorem Related.granted (related : Related base reserved s p) (live : task ∈ s.vm.live)
    (user : User va) (permits : Permits ((s.vm.pgd task).entryAt (userSlot va)) cause) :
    Granted (p.process task).vmas (p.process task).codeSize va cause := by
  have shows := related.represents.shows live
  have confined := shows.confined (pageVa va) (user_pageVa user) (aligned_pageVa va)
  rw [userSlot_pageVa] at confined
  rw [shows.vmas, shows.codeSize, ← granted_pageVa]
  exact (confined permits.present).granted permits

/-- The handler ends a thread for an access that is not allowed. -/
theorem Related.refused (related : Related base reserved s p) (live : task ∈ s.vm.live)
    (user : User va) {pages : FaultPages}
    (handled : s.vm.pageFaultHandler task (s.regions task) va cause pages = some .threadExit) :
    ¬ Allowed (p.process task).vmas (p.process task).codeSize va cause := by
  have shows := related.represents.shows live
  rw [shows.vmas, shows.codeSize, Allowed]
  cases pageFaultHandler_handled user handled with
  | threadExit single refused offStack offCode =>
    cases found : (s.regions task).memory.vmas.find? (·.contains va) with
    | some vma =>
      have no := refused vma found
      exact Bool.eq_false_iff.mp no
    | none =>
      rintro (⟨stack, -⟩ | ⟨code, -⟩)
      · exact offStack stack
      · exact offCode code

/-- A fault changes nothing for the programs. -/
theorem Related.hidden (related : Related base reserved s p)
    (step : (machine reserved).Step s event t) (unseen : event.action? = none) :
    Related base reserved t p := by
  have conserved := Step.conserved related.conserved step
  obtain ⟨safe, step⟩ := step
  cases step with
  | pageFault live user faults handled unreserved =>
    have valid := related.conserved.valid live
    refine ⟨conserved, ?_, ?_⟩
    · exact related.live.trans (pageFaultHandler_memoryOnly handled).live.symm
    · exact related.represents.pageFault related.conserved.balanced.exact.separate live
        (related.conserved.sound _ valid) valid user faults safe unreserved handled
  | _ => cases unseen

/-- Every other step is a step of processes with memory of their own. -/
theorem Related.shown (related : Related base reserved s p)
    (step : (machine reserved).Step s event t) (seen : event.action? = some action) :
    ∃ q, PrivateProcesses.transitions.Step p action q ∧ Related base reserved t q := by
  have conserved := Step.conserved related.conserved step
  have exact := related.conserved.balanced.exact
  have represents := related.represents
  obtain ⟨safe, step⟩ := step
  cases step with
  | @createUserProcess task pgd codeStart program u fresh created holds =>
    obtain rfl := Option.some.inj seen
    refine ⟨_, .start (related.live ▸ fresh), conserved, ?_,
      represents.createUserProcess exact.separate fresh created holds⟩
    rw [(createUserProcess_joins exact.separate.valid created).live, ← related.live]
    rfl
  | @exec task codeStart program live holds =>
    obtain rfl := Option.some.inj seen
    refine ⟨_, .exec (related.live ▸ live), conserved, ?_,
      represents.exec exact.separate live holds⟩
    rw [clearUserSpaceMappings_live exact.separate live]
    exact related.live
  | @sysFork parent child pages u live fresh forked =>
    obtain rfl := Option.some.inj seen
    have forks := fork_forks exact.separate live fresh forked
    refine ⟨_, .fork (related.live ▸ live) (related.live ▸ fresh), conserved, ?_,
      represents.fork live fresh forks⟩
    rw [forks.live, ← related.live]
    rfl
  | @sysMmap task _ _ _ _ _ _ memory _ _ u live called populated unreserved =>
    obtain rfl := Option.some.inj seen
    have valid : Valid (Function.update s.regions task
        { s.regions task with memory := memory } task).memory := safe
    rw [Function.update_self] at valid
    obtain ⟨more, mapped⟩ :=
      represents.sysMmap related.conserved.balanced live (related.conserved.inside live) called
      populated valid unreserved
    rw [← (represents.shows live).vmas] at more
    refine ⟨_, .map (related.live ▸ live) more, conserved, ?_, mapped⟩
    exact related.live.trans (populate_memoryOnly populated).live.symm
  | pageFault => cases seen
  | killed live user faults handled =>
    obtain rfl := Option.some.inj seen
    exact ⟨p, .killed (related.live ▸ live) (related.refused live user handled), related⟩
  | @read task va cause live user reads permits =>
    obtain rfl := Option.some.inj seen
    have byte := (represents.shows live).byte va user
    rw [shown_present permits.present] at byte
    refine ⟨p, ?_, related⟩
    have step : PrivateProcesses.transitions.Step p
        (.read task va cause ((p.process task).byte va)) p :=
      .read (related.live ▸ live) reads (related.granted live user permits)
    rwa [byte] at step
  | @store task va value u live user permits written =>
    obtain rfl := Option.some.inj seen
    refine ⟨_, .store (related.live ▸ live) (related.granted live user permits), conserved, ?_,
      represents.store exact live user written⟩
    obtain ⟨-, same⟩ := Option.ite_none_right_eq_some.mp written
    rw [← Option.some.inj same]
    exact related.live
  | @exit task live =>
    obtain rfl := Option.some.inj seen
    refine ⟨_, .exit (related.live ▸ live), conserved, ?_, represents.exit exact.separate live⟩
    rw [(related.conserved.balanced.exit live).2, ← related.live]

end Related

/-! ## Runs -/

def freePages : FaultPages := ⟨physToVirt 0x4000#64, physToVirt 0x5000#64, physToVirt 0x6000#64⟩

end OscKernel.Soundness.ProcessMemory
