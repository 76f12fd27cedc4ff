import OscKernel.Soundness.CpioReaders
import OscKernel.Soundness.ForkFailure

/-! # What a failed process creation leaves behind

`create_user_process` gives up at four points. The first three are its own allocations, and each
frees what was allocated before it. The fourth comes after the console was opened for three
descriptors, when the archive has no such file; there the page table, the stack and the
`task_struct` are freed, and the handle is not. So the call fails cleanly exactly when one of the
three allocations failed.
-/

namespace OscKernel.Soundness.ProcessCreation

open OscKernel.Lib OscKernel.Model OscKernel.Soundness.ForkFailure

/-- Every object allocated since was freed once, the run queue is as before, and a handle that is
new or counted anew has no count without a slot that refers to it. -/
structure Clean (s t : Kernel) : Prop where
  freed : ∀ id, s.heap.allocations.count ≤ id → id < t.heap.allocations.count →
    t.heap.allocations.freed.count id = 1
  runQueue : t.runQueue = s.runQueue
  referred : ∀ {file object}, t.files file = some object →
    s.files file ≠ some object → 0 < object.refCount →
    ∃ task fd, t.heap.allocations.Owns task .taskStruct ∧ (t.tasks task).fds fd = some file

/-- The allocation of the `task_struct`, the kernel stack or the page table fails. -/
def OutOfMemory (s : Kernel) : Prop := ∃ k < 3, s.grant (s.calls + k) = 0#64

/-! ## Numbers -/

section Numbers

variable {h h' : History Word KernelObject} {va : Word} {size : ℕ} {purpose : KernelObject}

/-- A new allocation has the next number, its start is in use, and what was in use stays in use. -/
theorem allocate_spec (positive : 0 < size)
    (made : h.allocate va (Vm.region va size) purpose = some h') :
    h'.allocations.count = h.allocations.count + 1 ∧ h'.allocations.freed = h.allocations.freed ∧
      (h'.allocations.Within va h.allocations.count ∧
        h'.allocations.start h.allocations.count = va) ∧
      ∀ {a id}, h.allocations.Within a id ∧ h.allocations.start id = a →
        h'.allocations.Within a id ∧ h'.allocations.start id = a := by
  have allocated := History.allocate_eq_some made
  obtain ⟨within, start, -⟩ :=
    Allocations.within_new h.numbered allocated (mem_region_start va positive)
  have next : h'.allocations.count = h.allocations.count + 1 ∧
      h'.allocations.freed = h.allocations.freed := by
    obtain ⟨-, same⟩ := Allocations.allocate_eq allocated
    rw [same]
    exact ⟨rfl, rfl⟩
  refine ⟨next.1, next.2, ⟨within, start⟩, fun {a id} ⟨inUse, startOld⟩ => ?_⟩
  obtain ⟨withinNew, startNew, -⟩ := inUse.allocate h.numbered allocated
  exact ⟨withinNew, startNew.trans startOld⟩

/-- A number that was not given yet was not passed back. -/
private theorem count_freed_new (h : History Word KernelObject) {id : ℕ}
    (new : h.allocations.count ≤ id) :
    h.allocations.freed.count id = 0 :=
  List.count_eq_zero.mpr fun freed => absurd (h.numbered.freed_lt freed) (Nat.not_lt.mpr new)

end Numbers

/-! ## How the call ends -/

private theorem vfsOpen_handle {fs fs' : VfsHeap} {fuel : ℕ} {base : VnodeId}
    {pathname behind : List UInt8} {grants : Grants} {object : File}
    (result : vfsOpen fs fuel base pathname 0#32 behind grants = some (.handle object, fs')) :
    grants.handle = true := by
  obtain ⟨outcome, -, opened⟩ := Option.bind_eq_some_iff.mp result
  cases outcome with
  | error code =>
    dsimp only at opened
    rw [if_neg (show ¬ (0#32 &&& oCreat ≠ 0#32) by decide)] at opened
    cases opened
  | found node =>
    have found := Option.some.inj opened
    rw [openFound] at found
    split at found
    · cases found
    · rename_i granted
      exact Bool.eq_true_of_not_eq_false granted

/-- The console is opened with a handle of its own. -/
private theorem openUart_cases {s t : Kernel} {fuel : ℕ} {uartFile : Word}
    (result : s.openUart fuel = some (uartFile, t)) :
    ∃ heap, s.heap.allocate uartFile (Vm.region uartFile sizeofFile) .fileHandle =
      some heap ∧ t.heap = heap := by
  obtain ⟨⟨va, u⟩, first, opened⟩ := Option.bind_eq_some_iff.mp result
  obtain ⟨⟨outcome, vfs⟩, opening, same⟩ := Option.bind_eq_some_iff.mp opened
  cases outcome with
  | error code => cases same
  | handle object =>
    obtain ⟨rfl, rfl⟩ := Prod.mk.inj (Option.some.inj same)
    obtain ⟨rfl, ⟨null, -⟩ | ⟨-, heap, made, rfl⟩⟩ := allocate_cases first
    · have granted := vfsOpen_handle opening
      exact absurd null (of_decide_eq_true granted)
    · exact ⟨heap, made, rfl⟩

private theorem installUart_heap {s t : Kernel} {task uartFile : Word}
    (result : s.installUart task uartFile = some t) :
    t.heap = s.heap := by
  obtain ⟨object, -, rfl⟩ := Option.map_eq_some_iff.mp result
  simp only [Kernel.setFile_heap, Kernel.setFd_heap]

/-- The descriptors are installed wherever the handle exists. -/
private theorem installUart_some {s : Kernel} (task : Word) {uartFile : Word} {object : File}
    (here : s.files uartFile = some object) :
    ∃ t, s.installUart task uartFile = some t ∧ t.memory = s.memory ∧ t.cpioBase = s.cpioBase := by
  refine ⟨_, Option.map_eq_some_iff.mpr ⟨object, here, rfl⟩, ?_, ?_⟩
  · simp only [Kernel.setFile_memory, Kernel.setFd_memory]
  · simp only [Kernel.setFile_cpioBase, Kernel.setFd_cpioBase]

/-- `do_exec` fails where the archive has no such file. -/
private theorem doExec_missing {s : Kernel} (task : Word) {filename : List UInt8} {fuel : ℕ}
    (missing : cpioGetFile s.memory s.cpioBase filename fuel = some none) :
    s.doExec task filename fuel = some (-1, s) := by
  rw [Kernel.doExec]
  split
  · rename_i result
    cases result.symm.trans missing
  · rfl
  · rename_i result
    cases result.symm.trans missing

private theorem doExec_heap {s t : Kernel} {task : Word} {filename : List UInt8} {fuel : ℕ}
    {ret : ℤ} (result : s.doExec task filename fuel = some (ret, t)) : t.heap = s.heap := by
  rw [Kernel.doExec] at result
  split at result
  · cases result
  · obtain ⟨-, rfl⟩ := Prod.mk.inj (Option.some.inj result)
    rfl
  · obtain ⟨-, rfl⟩ := Prod.mk.inj (Option.some.inj result)
    rfl

/-- The heap after this many objects were allocated, of which the first so many were freed, each
once. -/
structure Freed (h h' : History Word KernelObject) (allocated freed : ℕ) : Prop where
  count : h'.allocations.count = h.allocations.count + allocated
  freed : h'.allocations.freed = List.range' h.allocations.count freed ++ h.allocations.freed

/-- Objects allocated one after the other, with what is freed in the opposite order. -/
theorem Freed.of_task {h h₁ : History Word KernelObject} {task : Word} {size : ℕ}
    (positive : 0 < size) (made : h.allocate task (Vm.region task size) .taskStruct = some h₁) :
    Freed h (h₁.free task) 1 1 := by
  obtain ⟨count, freed, here, -⟩ := allocate_spec positive made
  refine ⟨(Allocations.free_count task).trans count, ?_⟩
  have all := @Allocations.freed_freeAll _ _ _ h₁.allocations [(task, h.allocations.count)]
    (by simpa using here)
    (by simp)
  rw [← freed]
  exact all

theorem Freed.of_stack {h h₁ h₂ : History Word KernelObject} {task stack : Word} {size depth : ℕ}
    (positive : 0 < size) (deep : 0 < depth)
    (made : h.allocate task (Vm.region task size) .taskStruct = some h₁)
    (stacked : h₁.allocate stack (Vm.region stack depth) .kernelStack = some h₂) :
    Freed h ((h₂.free stack).free task) 2 2 := by
  obtain ⟨count₁, freed₁, task₁, -⟩ := allocate_spec positive made
  obtain ⟨count₂, freed₂, stack₂, kept₂⟩ := allocate_spec deep stacked
  rw [count₁] at count₂ stack₂
  refine ⟨(Allocations.free_count task).trans ((Allocations.free_count stack).trans count₂), ?_⟩
  have all := @Allocations.freed_freeAll _ _ _ h₂.allocations
    [(stack, h.allocations.count + 1), (task, h.allocations.count)]
    (by simpa using ⟨stack₂, kept₂ task₁⟩) (by simp)
  rw [← freed₁, ← freed₂]
  exact all

/-- The handle that was allocated last is not freed. -/
theorem Freed.of_handle {h h₁ h₂ h₃ h₄ : History Word KernelObject} {task stack pgd file : Word}
    {size depth width length : ℕ} (positive : 0 < size) (deep : 0 < depth) (wide : 0 < width)
    (long : 0 < length) (made : h.allocate task (Vm.region task size) .taskStruct = some h₁)
    (stacked : h₁.allocate stack (Vm.region stack depth) .kernelStack = some h₂)
    (tabled : h₂.allocate pgd (Vm.region pgd width) .pageTable = some h₃)
    (handled : h₃.allocate file (Vm.region file length) .fileHandle = some h₄) :
    Freed h (((h₄.free pgd).free stack).free task) 4 3 := by
  obtain ⟨count₁, freed₁, task₁, -⟩ := allocate_spec positive made
  obtain ⟨count₂, freed₂, stack₂, kept₂⟩ := allocate_spec deep stacked
  obtain ⟨count₃, freed₃, pgd₃, kept₃⟩ := allocate_spec wide tabled
  obtain ⟨count₄, freed₄, -, kept₄⟩ := allocate_spec long handled
  rw [count₁] at count₂ stack₂
  rw [count₂] at count₃ pgd₃
  rw [count₃] at count₄
  refine ⟨(Allocations.free_count task).trans ((Allocations.free_count stack).trans
    ((Allocations.free_count pgd).trans count₄)), ?_⟩
  have all := @Allocations.freed_freeAll _ _ _ h₄.allocations
    [(pgd, h.allocations.count + 1 + 1), (stack, h.allocations.count + 1),
      (task, h.allocations.count)]
    (by simpa using ⟨kept₄ pgd₃, kept₄ (kept₃ stack₂), kept₄ (kept₃ (kept₂ task₁))⟩)
    (by simp; omega)
  rw [← freed₁, ← freed₂, ← freed₃, ← freed₄]
  exact all

/-- A call that returned null ran out of memory and freed what it had, or it allocated four objects,
freed the first three of them and added two references to the fourth, which no slot holds. -/
private theorem createUserProcess_cases {s t : Kernel} {filename : List UInt8} {fuel : ℕ}
    (result : s.createUserProcess filename fuel = some (0#64, t)) :
    (OutOfMemory s ∧ t.files = s.files ∧ t.runQueue = s.runQueue ∧
      ∃ objects, Freed s.heap t.heap objects objects) ∨
      (¬ OutOfMemory s ∧ Freed s.heap t.heap 4 3) := by
  obtain ⟨⟨task, s₁⟩, first, result⟩ := Option.bind_eq_some_iff.mp result
  obtain ⟨rfl, ⟨null, rfl⟩ | ⟨notNull, h₁, made, rfl⟩⟩ := allocate_cases first
  · dsimp only at result
    rw [if_pos null] at result
    obtain ⟨-, rfl⟩ := Prod.mk.inj (Option.some.inj result)
    exact .inl ⟨⟨0, by decide, null⟩, rfl, rfl, 0, rfl, rfl⟩
  dsimp only at result
  rw [if_neg notNull] at result
  obtain ⟨⟨stack, s₂⟩, second, result⟩ := Option.bind_eq_some_iff.mp result
  obtain ⟨rfl, ⟨null, rfl⟩ | ⟨stackNotNull, h₂, stacked, rfl⟩⟩ := allocate_cases second
  · dsimp only at result
    rw [if_pos null] at result
    obtain ⟨-, rfl⟩ := Prod.mk.inj (Option.some.inj result)
    exact .inl ⟨⟨1, by decide, null⟩, rfl, rfl, 1, .of_task (by decide) made⟩
  dsimp only at result
  rw [if_neg stackNotNull] at result
  obtain ⟨⟨pgd, s₃⟩, third, result⟩ := Option.bind_eq_some_iff.mp result
  obtain ⟨rfl, ⟨null, rfl⟩ | ⟨pgdNotNull, h₃, tabled, rfl⟩⟩ := allocate_cases third
  · dsimp only at result
    rw [if_pos null] at result
    obtain ⟨-, rfl⟩ := Prod.mk.inj (Option.some.inj result)
    exact .inl ⟨⟨2, by decide, null⟩, rfl, rfl, 2, .of_stack (by decide) (by decide) made stacked⟩
  dsimp only at result
  rw [if_neg pgdNotNull] at result
  obtain ⟨⟨uartFile, s₄⟩, opened, result⟩ := Option.bind_eq_some_iff.mp result
  obtain ⟨s₅, installed, result⟩ := Option.bind_eq_some_iff.mp result
  obtain ⟨⟨ret, s₆⟩, executed, result⟩ := Option.map_eq_some_iff.mp result
  obtain ⟨h₄, handled, heap⟩ := openUart_cases opened
  have kept : s₆.heap = h₄ := (doExec_heap executed).trans ((installUart_heap installed).trans heap)
  dsimp only at result
  split at result
  · obtain ⟨-, rfl⟩ := Prod.mk.inj result
    refine .inr ⟨?_, ?_⟩
    · rintro ⟨k, below, null⟩
      obtain rfl | rfl | rfl : k = 0 ∨ k = 1 ∨ k = 2 := by omega
      · exact notNull null
      · exact stackNotNull null
      · exact pgdNotNull null
    · have freed :=
        Freed.of_handle (by decide) (by decide) (by decide) (by decide) made stacked tabled handled
      rw [← kept] at freed
      exact freed
  · exact absurd (Prod.mk.inj result).1 notNull

/-! ## Clean failures -/

/-- Every object was freed once exactly when as many were freed as were allocated. -/
theorem Freed.once_iff {h h' : History Word KernelObject} {allocated freed : ℕ}
    (result : Freed h h' allocated freed) (atMost : freed ≤ allocated) : (∀ id,
      h.allocations.count ≤ id → id < h'.allocations.count → h'.allocations.freed.count id = 1) ↔
      freed = allocated := by
  have new : ∀ id, h.allocations.count ≤ id →
      h'.allocations.freed.count id = (List.range' h.allocations.count freed).count id := by
    intro id after
    rw [result.freed, List.count_append, count_freed_new h after, Nat.add_zero]
  constructor
  · intro once
    by_contra fewer
    have last := once (h.allocations.count + freed) (by omega) (by rw [result.count]; omega)
    rw [new _ (by omega), List.count_eq_zero.mpr
      fun member => by have := List.mem_range'_1.mp member; omega] at last
    cases last
  · rintro rfl id after before
    rw [new id after]
    rw [result.count] at before
    exact List.count_eq_one_of_mem List.nodup_range' (List.mem_range'_1.mpr ⟨after, before⟩)

/-- A call that returns null fails cleanly exactly when one of its own three allocations failed. -/
theorem creation_clean_iff {s t : Kernel} {filename : List UInt8} {fuel : ℕ}
    (result : s.createUserProcess filename fuel = some (0#64, t)) : Clean s t ↔ OutOfMemory s := by
  rcases createUserProcess_cases result with
    ⟨outOfMemory, files, runQueue, objects, freed⟩ | ⟨enough, freed⟩
  · refine iff_of_true ⟨(freed.once_iff (le_refl objects)).mpr rfl, runQueue, ?_⟩ outOfMemory
    exact fun here other => absurd (files ▸ here) other
  · refine iff_of_false (fun clean => ?_) enough
    exact absurd ((freed.once_iff (by decide)).mp clean.freed) (by decide)

/-! ## A file that is missing -/

theorem firstSlot_lt : 0 < maxEntries := by decide

/-- A tree with the console. -/
def consoleVfs : VfsHeap where
  vnodes v := match v with
    | 0 => ⟨none, some .tmpfs, some .tmpfs, some 0, .dir, 0⟩
    | 1 => ⟨none, some .devfs, none, some 0, .dir, 1⟩
    | _ => ⟨none, some .devfs, some .devfsUart, some 1, .file, 2⟩
  nodes n := match n with
    | 0 => ⟨[47, 0], .dir, 0, fun _ => 0, fun i => if i = ⟨0, firstSlot_lt⟩ then some 1 else none⟩
    | 1 => ⟨[100, 101, 118, 0], .dir, 0, fun _ => 0, fun i => if i = ⟨0, firstSlot_lt⟩ then some 2
        else none⟩
    | _ => ⟨[117, 97, 114, 116, 0], .file, 0, fun _ => 0, fun _ => none⟩
  mounts _ := ⟨0, 0⟩
  rootfs := 0
  activeMounts := [0]
  vnodeCount := 3
  nodeCount := 3
  mountCount := 1

/-- The last entry of an archive. -/
def lastAttributes : CpioArchive.Attributes := CpioReaders.letterEntry.attributes

/-- What the calls of `allocate` return: four addresses, and then nothing. -/
def fourGrants (k : ℕ) : Word :=
  if k = 0 then 0x2000#64 else if k = 1 then 0x4000#64 else if k = 2 then 0x9000#64
  else if k = 3 then 0xb000#64 else 0#64

/-- A kernel with one task, the console and an archive without files, that has memory for four
objects. -/
def stocked : Kernel :=
  { lone fourGrants with
    vfs := consoleVfs
    memory := memoryOf 4096#64 (CpioArchive.encode [] lastAttributes)
    cpioBase := 4096#64 }

/-- Without memory for the top-level table the `task_struct` and the stack are given back. -/
theorem creation_clean_iff_tableless :
    ∃ t, tableless.createUserProcess [98] 4 = some (0#64, t) ∧ t.calls = 3 ∧
    Clean tableless t := by
  obtain ⟨h₁, first, fresh₁⟩ :=
    allocate_fresh tableless 0x2000#64 sizeofTaskStruct .taskStruct rfl (by decide)
    (lone_fresh _) (by decide) (by decide)
  let created : Kernel := { ({ tableless with calls := 1, heap := h₁ } : Kernel).setTask 0x2000#64
    { TaskStruct.zeroed with pid := tableless.nrThreads } with nrThreads :=
    tableless.nrThreads + 1#32 }
  obtain ⟨h₂, second, -⟩ :=
    allocate_fresh created 0x8000#64 stackSize.toNat .kernelStack rfl (by decide)
    fresh₁ (by decide) (by decide)
  let stacked : Kernel := ({ created with calls := 2, heap := h₂ } : Kernel).setTask 0x2000#64
    { created.tasks 0x2000#64 with stack := 0x8000#64, kernelSp := 0x8000#64 + stackSize }
  have third : stacked.allocate 4096 .pageTable = some (0#64, { stacked with calls := 3 }) := rfl
  have failed : tableless.createUserProcess [98] 4 =
      some (0#64, ((({ stacked with calls := 3 } : Kernel).free 0x8000#64).free 0x2000#64)) := by
    refine Option.bind_eq_some_iff.mpr ⟨_, first, ?_⟩
    refine (if_neg (by decide)).trans (Option.bind_eq_some_iff.mpr ⟨_, second, ?_⟩)
    refine (if_neg (by decide)).trans (Option.bind_eq_some_iff.mpr ⟨_, third, ?_⟩)
    exact if_pos rfl
  exact ⟨_, failed, rfl, (creation_clean_iff failed).mpr ⟨2, by decide, rfl⟩⟩

private theorem console_found : vfsLookupFrom consoleVfs.toVfs 4 0 devUart = some (.found 2) := by
  decide +kernel

/-- An archive without files has none of any name. -/
private theorem no_file (filename : List UInt8) (nulFree : 0 ∉ filename) :
    cpioGetFile stocked.memory stocked.cpioBase filename 4 = some none := by
  have archive := CpioReaders.archive_memoryOf [] lastAttributes (by decide)
  obtain ⟨files, reads, scan⟩ := CpioReaders.scans archive
  cases reads
  exact (scan filename nulFree 4 (by decide)).2

/-- When the archive has no such file, the handle of the console stays allocated and counted. -/
theorem handle_leaks : ∃ t, stocked.createUserProcess [98] 4 = some (0#64, t) ∧
    ¬ Clean stocked t := by
  obtain ⟨h₁, first, fresh₁⟩ :=
    allocate_fresh stocked 0x2000#64 sizeofTaskStruct .taskStruct rfl (by decide)
    (lone_fresh fourGrants) (by decide) (by decide)
  let created : Kernel := { ({ stocked with calls := 1, heap := h₁ } : Kernel).setTask 0x2000#64
    { TaskStruct.zeroed with pid := stocked.nrThreads } with nrThreads := stocked.nrThreads + 1#32 }
  obtain ⟨h₂, second, fresh₂⟩ :=
    allocate_fresh created 0x4000#64 stackSize.toNat .kernelStack rfl (by decide)
    fresh₁ (by decide) (by decide)
  let stacked : Kernel := ({ created with calls := 2, heap := h₂ } : Kernel).setTask 0x2000#64
    { created.tasks 0x2000#64 with stack := 0x4000#64, kernelSp := 0x4000#64 + stackSize }
  obtain ⟨h₃, third, fresh₃⟩ := allocate_fresh stacked 0x9000#64 4096 .pageTable rfl (by decide)
    fresh₂ (by decide) (by decide)
  let tabled : Kernel := {
    ({ stacked with calls := 3, heap := h₃ } : Kernel).setPgd 0x2000#64
    ⟨0x9000#64, fun _ => none⟩ with
    activeUserPgd := 0x9000#64 }
  obtain ⟨h₄, fourth, -⟩ := allocate_fresh tabled 0xb000#64 sizeofFile .fileHandle rfl (by decide)
    fresh₃ (by decide) (by decide)
  have opened : tabled.openUart 4 = some (0xb000#64,
      ({ tabled with calls := 4, heap := h₄ } : Kernel).setFile 0xb000#64
      (openHandle 2 (some .devfsUart) 0)) := by
    rw [Kernel.openUart, fourth]
    change (vfsOpen consoleVfs 4 0 devUart 0#32 [] ⟨true, true, true, true, true⟩).bind _ = _
    rw [vfsOpen, console_found]
    rfl
  let opening : Kernel := ({ tabled with calls := 4, heap := h₄ } : Kernel).setFile 0xb000#64
    (openHandle 2 (some .devfsUart) 0)
  have counted : opening.files 0xb000#64 = some (openHandle 2 (some .devfsUart) 0) :=
    Kernel.setFile_files _ _ _
  obtain ⟨installed, seeded, memory, cpioBase⟩ := installUart_some 0x2000#64 counted
  have missing : cpioGetFile installed.memory installed.cpioBase [98] 4 = some none := by
    rw [memory, cpioBase]
    exact no_file [98] (by decide)
  let rooted : Kernel := installed.setTask 0x2000#64
    { installed.tasks 0x2000#64 with cwd := some installed.vfs.root }
  have failed : stocked.createUserProcess [98] 4 =
      some (0#64, ((rooted.free 0x9000#64).free 0x4000#64).free 0x2000#64) := by
    refine Option.bind_eq_some_iff.mpr ⟨_, first, ?_⟩
    refine (if_neg (by decide)).trans (Option.bind_eq_some_iff.mpr ⟨_, second, ?_⟩)
    refine (if_neg (by decide)).trans (Option.bind_eq_some_iff.mpr ⟨_, third, ?_⟩)
    refine (if_neg (by decide)).trans (Option.bind_eq_some_iff.mpr ⟨_, opened, ?_⟩)
    refine Option.bind_eq_some_iff.mpr ⟨_, seeded, ?_⟩
    exact Option.map_eq_some_iff.mpr ⟨_, doExec_missing (s := rooted) 0x2000#64 missing, rfl⟩
  refine ⟨_, failed, fun clean => ?_⟩
  obtain ⟨k, below, null⟩ := (creation_clean_iff failed).mp clean
  obtain rfl | rfl | rfl : k = 0 ∨ k = 1 ∨ k = 2 := by omega
  · exact absurd null (by decide)
  · exact absurd null (by decide)
  · exact absurd null (by decide)

end OscKernel.Soundness.ProcessCreation
