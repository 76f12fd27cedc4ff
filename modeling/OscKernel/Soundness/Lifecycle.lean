import OscKernel.Model.Lifecycle
import OscKernel.Soundness.OpenFiles
import OscKernel.Soundness.UserMemory

/-! # Nothing of a process is lost

Processes are created, fork, run, open files and exit in any order. Every allocation since the start
is held by a process or is an open file, as long as no task is interrupted inside a call on files by
another one's, no task exits inside such a call, and the memory of the processes is conserved. Each
part of the state keeps the account of what it allocates, and the parts meet where a process is made
and where `kill_zombies` takes it apart.
-/

namespace OscKernel.Soundness.Lifecycle

open OscKernel.Lib OscKernel.Model OscKernel.Model.Lifecycle OscKernel.Soundness.MemoryAccounts
open OscKernel.Soundness.OpenFiles (Alone Consistent Counted Unborn opens_cases holders)
open OscKernel.Soundness.PageTables (Room)
open OscKernel.Soundness.PageWalks (User)
open OscKernel.Soundness.UserMappings (Permits)
open OscKernel.Soundness.FaultProgress (UserProcesses Misdirected)
open OscKernel.Soundness.VmaTable (Valid EndFits sysMmap_valid_iff)

/-! ## Objects -/

/-- The `task_struct` or the stack of a process, or an open file. -/
def Mine (s : Lifecycle) (a : ℕ) : Prop :=
  (∃ task ∈ s.vm.live, a = task ∨ a = s.stack task) ∨ (s.files.files a).isSome = true

/-- Tasks have a `task_struct` and a stack of their own, open files are handles, and what was
allocated from number `base` on is one of these or has been passed back. -/
structure Objects (base : ℕ) (s : Lifecycle) : Prop where
  valid : s.objects.Valid
  taskStruct : ∀ {task}, task ∈ s.files.live → s.objects.Owns task .taskStruct
  kernelStack : ∀ {task}, task ∈ s.files.live → s.objects.Owns (s.stack task) .kernelStack
  distinct : ∀ {a b}, a ∈ s.files.live → b ∈ s.files.live → s.stack a = s.stack b → a = b
  handle : ∀ {file}, (s.files.files file).isSome = true → s.objects.Owns file .fileHandle
  accounted : s.objects.Accounted base (Mine s)

section Objects

variable {s t : Lifecycle} {base task : ℕ} {address : ℕ} {purpose : KernelObject}

theorem owned_in_use {a id : ℕ} (owns : s.objects.Owns a purpose)
    (home : s.objects.home a = some id) :
    id ∉ s.objects.freed := by
  obtain ⟨other, within, -⟩ := owns
  obtain rfl := Option.some.inj (within.1.symm.trans home)
  exact within.2

/-- The step is not about objects. -/
theorem Objects.congr (objects : Objects base s) (same : t.objects = s.objects)
    (stack : t.stack = s.stack) (live : t.files.live = s.files.live)
    (processes : t.vm.live = s.vm.live)
    (present : ∀ a, (t.files.files a).isSome = (s.files.files a).isSome) : Objects base t := by
  refine ⟨?_, ?_, ?_, ?_, ?_, ?_⟩
  · rw [same]
    exact objects.valid
  · rw [same, live]
    exact objects.taskStruct
  · rw [same, live, stack]
    exact objects.kernelStack
  · rw [live, stack]
    exact objects.distinct
  · intro file here
    rw [present] at here
    rw [same]
    exact objects.handle here
  · rw [same]
    apply objects.accounted.mono
    intro a
    rw [Mine, Mine, processes, stack, present]
    exact id

/-- `vfs_open` makes a handle. -/
theorem Objects.opened (objects : Objects base s) {file : ℕ} {history : Allocations ℕ KernelObject}
    (made : s.objects.allocate file [file] .fileHandle = some history) (same : t.objects = history)
    (stack : t.stack = s.stack) (live : t.files.live = s.files.live)
    (processes : t.vm.live = s.vm.live)
    (present : ∀ a, (t.files.files a).isSome = true ↔ (s.files.files a).isSome = true ∨ a = file) :
    Objects base t := by
  subst same
  have valid := objects.valid.allocate made
  have numbered := objects.valid.numbered
  refine ⟨valid, ?_, ?_, ?_, ?_, ?_⟩
  · rw [live]
    exact fun inLive => (objects.taskStruct inLive).allocate numbered made
  · rw [live, stack]
    exact fun inLive => (objects.kernelStack inLive).allocate numbered made
  · rw [live, stack]
    exact objects.distinct
  · intro other here
    rcases (present other).mp here with before | rfl
    · exact (objects.handle before).allocate numbered made
    · exact Allocations.owns_new numbered made List.mem_cons_self
  · apply (objects.accounted.allocate numbered made List.mem_cons_self).mono
    intro a
    rw [Mine, Mine, processes, stack, present]
    exact fun either => or_assoc.mp either

/-- A handle is freed. -/
theorem Objects.closed (objects : Objects base s) {file : ℕ}
    (was : (s.files.files file).isSome = true) (same : t.objects = s.objects.free file)
    (stack : t.stack = s.stack) (live : t.files.live = s.files.live)
    (processes : t.vm.live = s.vm.live)
    (present : ∀ a, (t.files.files a).isSome = true ↔ (s.files.files a).isSome = true ∧ a ≠ file) :
    Objects base t := by
  have owns := objects.handle was
  have other : ∀ {a purpose}, s.objects.Owns a purpose → purpose ≠ .fileHandle → a ∉ [file] := by
    intro a purpose owns' different member
    obtain rfl := List.mem_singleton.mp member
    exact different (owns'.unique owns)
  have freed : t.objects = s.objects.freeAll [file] := same
  refine ⟨?_, ?_, ?_, ?_, ?_, ?_⟩
  · rw [freed]
    apply objects.valid.freeAll (List.nodup_singleton file)
    intro a member id home _
    obtain rfl := List.mem_singleton.mp member
    exact owned_in_use owns home
  · intro task inLive
    rw [live] at inLive
    rw [freed]
    exact (objects.taskStruct inLive).freeAll (other (objects.taskStruct inLive) (by decide))
  · intro task inLive
    rw [live] at inLive
    rw [freed, stack]
    exact (objects.kernelStack inLive).freeAll (other (objects.kernelStack inLive) (by decide))
  · rw [live, stack]
    exact objects.distinct
  · intro a here
    obtain ⟨before, different⟩ := (present a).mp here
    rw [freed]
    exact (objects.handle before).freeAll (by simpa using different)
  · rw [freed]
    apply objects.accounted.freeAll
    intro a mine kept
    rw [Mine, processes, stack, present]
    exact mine.imp_right fun here => ⟨here, by simpa using kept⟩

/-- A task gets its `task_struct` and its stack. -/
theorem Objects.newTask (objects : Objects base s) {child stack : ℕ} {u : Lifecycle}
    (new : child ∉ s.files.live) (made : s.newTask child stack = some u)
    (same : t.objects = u.objects) (stackSame : t.stack = u.stack)
    (live : t.files.live = insert child s.files.live)
    (processes : t.vm.live = insert child s.vm.live) (inside : s.vm.live ⊆ s.files.live)
    (present : t.files.files = s.files.files) : Objects base t := by
  obtain ⟨first, madeStruct, rest⟩ := Option.bind_eq_some_iff.mp made
  obtain ⟨second, madeStack, rfl⟩ := Option.map_eq_some_iff.mp rest
  obtain ⟨middle, struct, rfl⟩ := Option.map_eq_some_iff.mp madeStruct
  obtain ⟨last, kernelStack, rfl⟩ := Option.map_eq_some_iff.mp madeStack
  dsimp only at same stackSame kernelStack
  have numbered := objects.valid.numbered
  have validMiddle := objects.valid.allocate struct
  have kept : ∀ {a purpose}, s.objects.Owns a purpose → t.objects.Owns a purpose := by
    intro a purpose owns
    rw [same]
    exact (owns.allocate numbered struct).allocate validMiddle.numbered kernelStack
  have ownStack : t.objects.Owns stack .kernelStack := by
    rw [same]
    exact Allocations.owns_new validMiddle.numbered kernelStack List.mem_cons_self
  have ownStruct : t.objects.Owns child .taskStruct := by
    rw [same]
    exact (Allocations.owns_new numbered struct List.mem_cons_self).allocate
      validMiddle.numbered kernelStack
  have mine : t.stack child = stack := by rw [stackSame, Function.update_self]
  have others : ∀ {other}, other ∈ s.files.live → t.stack other = s.stack other := by
    intro other inLive
    rw [stackSame, Function.update_of_ne fun clash : other = child => new (clash ▸ inLive)]
  -- no stack in use was at the new one
  have apart : ∀ {other}, other ∈ s.files.live → s.stack other ≠ stack := by
    intro other inLive clash
    have owns := (objects.kernelStack inLive).allocate numbered struct
    rw [clash] at owns
    exact Allocations.not_owns_new kernelStack List.mem_cons_self owns
  refine ⟨?_, ?_, ?_, ?_, ?_, ?_⟩
  · rw [same]
    exact validMiddle.allocate kernelStack
  · intro task inLive
    rw [live] at inLive
    rcases Finset.mem_insert.mp inLive with rfl | before
    · exact ownStruct
    · exact kept (objects.taskStruct before)
  · intro task inLive
    rw [live] at inLive
    rcases Finset.mem_insert.mp inLive with rfl | before
    · rwa [mine]
    · rw [others before]
      exact kept (objects.kernelStack before)
  · intro a b liveA liveB equal
    rw [live] at liveA liveB
    rcases Finset.mem_insert.mp liveA with rfl | beforeA <;>
      rcases Finset.mem_insert.mp liveB with rfl | beforeB
    · rfl
    · rw [mine, others beforeB] at equal
      exact absurd equal.symm (apart beforeB)
    · rw [mine, others beforeA] at equal
      exact absurd equal (apart beforeA)
    · rw [others beforeA, others beforeB] at equal
      exact objects.distinct beforeA beforeB equal
  · intro file here
    rw [present] at here
    exact kept (objects.handle here)
  · rw [same]
    apply ((objects.accounted.allocate numbered struct List.mem_cons_self).allocate
      validMiddle.numbered kernelStack
      List.mem_cons_self).mono
    rintro a (((⟨task, inLive, here⟩ | here) | rfl) | rfl)
    · refine .inl ⟨task, ?_, ?_⟩
      · rw [processes]
        exact Finset.mem_insert_of_mem inLive
      · rwa [others (inside inLive)]
    · exact .inr (by rwa [present])
    · exact .inl ⟨a, by rw [processes]; exact Finset.mem_insert_self _ _, .inl rfl⟩
    · exact .inl ⟨child, by rw [processes]; exact Finset.mem_insert_self _ _, .inr mine.symm⟩

/-- `kill_zombies` frees the stack and the `task_struct`. -/
theorem Objects.buried (objects : Objects base s) (inLive : task ∈ s.files.live)
    (same : t.objects = (s.objects.free (s.stack task)).free task) (stack : t.stack = s.stack)
    (live : t.files.live = s.files.live.erase task) (processes : t.vm.live = s.vm.live.erase task)
    (present : t.files.files = s.files.files) : Objects base t := by
  have struct := objects.taskStruct inLive
  have ownStack := objects.kernelStack inLive
  have different : s.stack task ≠ task := by
    intro clash
    rw [clash] at ownStack
    exact absurd (struct.unique ownStack) (by decide)
  have freed : t.objects = s.objects.freeAll [s.stack task, task] := same
  have keeps : ∀ {a}, a ∉ [s.stack task, task] ↔ a ≠ s.stack task ∧ a ≠ task := by simp
  have leftStruct : ∀ {other}, other ∈ t.files.live → other ∉ [s.stack task, task] := by
    intro other inLive'
    rw [live] at inLive'
    obtain ⟨notTask, before⟩ := Finset.mem_erase.mp inLive'
    refine keeps.mpr ⟨?_, notTask⟩
    rintro rfl
    exact absurd ((objects.taskStruct before).unique ownStack) (by decide)
  have leftStack : ∀ {other}, other ∈ t.files.live → s.stack other ∉ [s.stack task, task] := by
    intro other inLive'
    rw [live] at inLive'
    obtain ⟨notTask, before⟩ := Finset.mem_erase.mp inLive'
    refine keeps.mpr ⟨fun clash => notTask (objects.distinct before inLive clash), fun clash => ?_⟩
    have owns := objects.kernelStack before
    rw [clash] at owns
    exact absurd (struct.unique owns) (by decide)
  have was : ∀ {other}, other ∈ t.files.live → other ∈ s.files.live := by
    intro other inLive'
    rw [live] at inLive'
    exact Finset.mem_of_mem_erase inLive'
  refine ⟨?_, ?_, ?_, ?_, ?_, ?_⟩
  · rw [freed]
    apply objects.valid.freeAll (by simpa using different)
    intro a member id home _
    rcases List.mem_cons.mp member with rfl | last
    · exact owned_in_use ownStack home
    · obtain rfl := List.mem_singleton.mp last
      exact owned_in_use struct home
  · intro other inLive'
    rw [freed]
    exact (objects.taskStruct (was inLive')).freeAll (leftStruct inLive')
  · intro other inLive'
    rw [freed, stack]
    exact (objects.kernelStack (was inLive')).freeAll (leftStack inLive')
  · intro a b liveA liveB
    rw [stack]
    exact objects.distinct (was liveA) (was liveB)
  · intro file here
    rw [present] at here
    have owns := objects.handle here
    rw [freed]
    apply owns.freeAll
    refine keeps.mpr ⟨?_, ?_⟩
    · rintro rfl
      exact absurd (owns.unique ownStack) (by decide)
    · rintro rfl
      exact absurd (owns.unique struct) (by decide)
  · rw [freed]
    apply objects.accounted.freeAll
    rintro a (⟨other, inLive', here⟩ | here) kept
    · obtain ⟨notStack, notTask⟩ := keeps.mp kept
      have notSame : other ≠ task := by
        rintro rfl
        exact here.elim notTask notStack
      refine .inl ⟨other, ?_, ?_⟩
      · rw [processes]
        exact Finset.mem_erase.mpr ⟨notSame, inLive'⟩
      · rwa [stack]
    · exact .inr (by rwa [present])

end Objects

/-! ## Calls on files -/

/-- The task whose descriptors a call works on. -/
def beneficiary (task : ℕ) : FilePc → Option ℕ
  | .idle => none
  | .opening .. | .installing .. | .closing .. | .decrementing .. | .testing .. | .freeing .. |
      .clearing .. => some task
  | .copying child _ | .starting child | .seeding child _ _ | .sharing _ child _ _ |
      .incrementing _ child _ _ _ =>
    some child

/-- What an access leaves alone: it fills and empties slots of one task only. -/
structure Serves (s t : OpenFiles) (task : ℕ) : Prop where
  live : t.live = s.live
  others : ∀ {other}, other ≠ task → t.pc other = s.pc other
  served : ∀ {owner}, beneficiary task (t.pc task) = some owner →
    beneficiary task (s.pc task) = some owner
  fds : ∀ {other}, beneficiary task (s.pc task) ≠ some other → t.fds other = s.fds other

section Files

variable {s t : OpenFiles} {task fuel file : ℕ} {behind : List UInt8} {grants : Grants}
  {pc : FilePc} {value : ℤ}

/-- The slots of the task that is served may change before the call goes on or ends. -/
theorem serves_goto {u : OpenFiles} (live : u.live = s.live) (pcs : u.pc = s.pc)
    (fds : ∀ {other}, beneficiary task (s.pc task) ≠ some other → u.fds other = s.fds other)
    (next : beneficiary task pc = none ∨ beneficiary task pc = beneficiary task (s.pc task)) :
    Serves s (u.goto task pc) task where
  live := live
  others different := (Function.update_of_ne different _ _).trans (congrFun pcs _)
  served := by
    intro owner here
    simp only [OpenFiles.goto, Function.update_self] at here
    rcases next with ends | goes
    · rw [ends] at here
      cases here
    · exact goes ▸ here
  fds := fds

theorem serves_returns {u : OpenFiles} (live : u.live = s.live) (pcs : u.pc = s.pc)
    (fds : ∀ {other}, beneficiary task (s.pc task) ≠ some other → u.fds other = s.fds other) :
    Serves s (u.returns task value) task :=
  serves_goto (u := { u with result := Function.update u.result task value })
    live pcs fds (.inl rfl)

theorem setFd_others {owner other : ℕ} (fd : Fin maxFd) (content : Option ℕ)
    (different : some owner ≠ some other) : (s.setFd owner fd content).fds other = s.fds other :=
  Function.update_of_ne (fun same => different (congrArg some same.symm)) _ _

/-- The step lemma of a call: only the slots of the task it serves change. -/
theorem resume_serves (access : s.resume task fuel behind grants file = some t) :
    Serves s t task := by
  rw [OpenFiles.resume] at access
  cases pc : s.pc task with
  | idle =>
    rw [pc] at access
    cases access
  | opening fd pathname flags =>
    rw [pc] at access
    obtain ⟨⟨code, u⟩, opened, rfl⟩ := Option.map_eq_some_iff.mp access
    obtain ⟨heap, ⟨-, rfl⟩ | ⟨-, -, object, -, rfl⟩⟩ := opens_cases opened
    all_goals
      dsimp only
      split
      · exact serves_goto rfl rfl (fun _ => rfl) (.inr (by rw [pc]; rfl))
      · exact serves_returns rfl rfl fun _ => rfl
  | installing fd file =>
    rw [pc] at access
    obtain rfl := Option.some.inj access
    exact serves_returns rfl rfl fun away => setFd_others fd _ (by rwa [pc] at away)
  | closing fd file =>
    rw [pc] at access
    obtain ⟨object, -, rfl⟩ := Option.map_eq_some_iff.mp access
    exact serves_goto rfl rfl (fun _ => rfl) (.inr (by rw [pc]; rfl))
  | decrementing fd file loaded =>
    rw [pc] at access
    obtain ⟨object, -, rfl⟩ := Option.map_eq_some_iff.mp access
    exact serves_goto rfl rfl (fun _ => rfl) (.inr (by rw [pc]; rfl))
  | testing fd file =>
    rw [pc] at access
    obtain ⟨object, -, rfl⟩ := Option.map_eq_some_iff.mp access
    refine serves_goto rfl rfl (fun _ => rfl) (.inr ?_)
    rw [pc]
    split <;> rfl
  | freeing fd file =>
    rw [pc] at access
    obtain ⟨object, -, rfl⟩ := Option.map_eq_some_iff.mp access
    exact serves_goto rfl rfl (fun _ => rfl) (.inr (by rw [pc]; rfl))
  | clearing fd file =>
    rw [pc] at access
    obtain rfl := Option.some.inj access
    exact serves_returns rfl rfl fun away => setFd_others fd _ (by rwa [pc] at away)
  | copying child i =>
    rw [pc] at access
    dsimp only at access
    split at access
    · split at access
      · obtain rfl := Option.some.inj access
        exact serves_goto rfl rfl (fun away => setFd_others _ _ (by rwa [pc] at away))
          (.inr (by rw [pc]; rfl))
      · obtain rfl := Option.some.inj access
        exact serves_goto rfl rfl (fun away => setFd_others _ _ (by rwa [pc] at away))
          (.inr (by rw [pc]; rfl))
    · obtain rfl := Option.some.inj access
      exact serves_goto rfl rfl (fun _ => rfl) (.inl rfl)
  | starting child =>
    rw [pc] at access
    obtain ⟨⟨code, u⟩, opened, access⟩ := Option.bind_eq_some_iff.mp access
    obtain ⟨-, rest⟩ := Option.ite_none_right_eq_some.mp access
    obtain rfl := Option.some.inj rest
    obtain ⟨heap, ⟨-, rfl⟩ | ⟨-, -, object, -, rfl⟩⟩ := opens_cases opened
    all_goals exact serves_goto rfl rfl (fun _ => rfl) (.inr (by rw [pc]; rfl))
  | seeding child i file =>
    rw [pc] at access
    dsimp only at access
    split at access
    · obtain rfl := Option.some.inj access
      refine serves_goto rfl rfl (fun away => setFd_others _ _ (by rwa [pc] at away)) (.inr ?_)
      rw [pc]
      split <;> rfl
    · obtain rfl := Option.some.inj access
      exact serves_goto rfl rfl (fun _ => rfl) (.inl rfl)
  | sharing sharer child i file =>
    rw [pc] at access
    obtain ⟨object, -, rfl⟩ := Option.map_eq_some_iff.mp access
    exact serves_goto rfl rfl (fun _ => rfl) (.inr (by rw [pc]; rfl))
  | incrementing sharer child i file loaded =>
    rw [pc] at access
    obtain ⟨object, -, rfl⟩ := Option.map_eq_some_iff.mp access
    refine serves_goto rfl rfl (fun _ => rfl) (.inr ?_)
    rw [pc]
    cases sharer <;> rfl

/-- The accesses that make or free a handle. -/
def changesHandles : FilePc → Bool
  | .opening .. | .starting _ | .freeing .. => true
  | _ => false

theorem isSome_update_some {files : ℕ → Option File} {object : File}
    (here : (files file).isSome = true) (a : ℕ) :
    (Function.update files file (some object) a).isSome = (files a).isSome := by
  rcases eq_or_ne a file with rfl | different
  · rw [Function.update_self, here]
    rfl
  · rw [Function.update_of_ne different]

/-- The others make and free none. -/
private theorem resume_present (access : s.resume task fuel behind grants file = some t)
    (plain : changesHandles (s.pc task) = false) (a : ℕ) :
    (t.files a).isSome = (s.files a).isSome := by
  rw [OpenFiles.resume] at access
  cases pc : s.pc task with
  | idle =>
    rw [pc] at access
    cases access
  | opening fd pathname flags =>
    rw [pc] at plain
    cases plain
  | installing fd file =>
    rw [pc] at access
    obtain rfl := Option.some.inj access
    rfl
  | closing fd file =>
    rw [pc] at access
    obtain ⟨object, -, rfl⟩ := Option.map_eq_some_iff.mp access
    rfl
  | decrementing fd file loaded =>
    rw [pc] at access
    obtain ⟨object, present, rfl⟩ := Option.map_eq_some_iff.mp access
    exact isSome_update_some (Option.isSome_of_eq_some present) a
  | testing fd file =>
    rw [pc] at access
    obtain ⟨object, -, rfl⟩ := Option.map_eq_some_iff.mp access
    rfl
  | freeing fd file =>
    rw [pc] at plain
    cases plain
  | clearing fd file =>
    rw [pc] at access
    obtain rfl := Option.some.inj access
    rfl
  | copying child i =>
    rw [pc] at access
    dsimp only at access
    split at access
    · split at access
      · obtain rfl := Option.some.inj access
        rfl
      · obtain rfl := Option.some.inj access
        rfl
    · obtain rfl := Option.some.inj access
      rfl
  | starting child =>
    rw [pc] at plain
    cases plain
  | seeding child i file =>
    rw [pc] at access
    dsimp only at access
    split at access
    · obtain rfl := Option.some.inj access
      rfl
    · obtain rfl := Option.some.inj access
      rfl
  | sharing sharer child i file =>
    rw [pc] at access
    obtain ⟨object, -, rfl⟩ := Option.map_eq_some_iff.mp access
    rfl
  | incrementing sharer child i file loaded =>
    rw [pc] at access
    obtain ⟨object, present, rfl⟩ := Option.map_eq_some_iff.mp access
    exact isSome_update_some (Option.isSome_of_eq_some present) a

/-- `vfs_open` changes the objects only by a handle where none was. -/
theorem opens_present {pathname : List UInt8} {flags : BitVec 32} {code : ℤ}
    (opened : s.opens task pathname flags fuel behind grants file = some (code, t)) :
    (∀ a, (t.files a).isSome = (s.files a).isSome) ∨
      (s.files file).isNone = true ∧ (t.files file).isSome = true ∧
        ∀ a, (t.files a).isSome = true ↔ (s.files a).isSome = true ∨ a = file := by
  obtain ⟨heap, ⟨-, rfl⟩ | ⟨-, free, object, -, rfl⟩⟩ := opens_cases opened
  · exact .inl fun _ => rfl
  · have here : Function.update s.files file (some object) file = some object :=
      Function.update_self _ _ _
    refine .inr ⟨by rw [free]; rfl, Option.isSome_of_eq_some here, fun a => ?_⟩
    change (Function.update s.files file (some object) a).isSome = true ↔ _
    rcases eq_or_ne a file with rfl | different
    · rw [here]
      simp
    · rw [Function.update_of_ne different]
      simp [different]

end Files

section Resume

variable {s t : Lifecycle} {base task fuel file : ℕ} {behind : List UInt8} {grants : Grants}

/-- What an access of a call does to the rest of the state. -/
structure Resumes (s t : Lifecycle) : Prop where
  vm : t.vm = s.vm
  regions : t.regions = s.regions
  stack : t.stack = s.stack

/-- A handle is allocated exactly if there is one more. -/
theorem Objects.opening (objects : Objects base s) {files : OpenFiles}
    (live : files.live = s.files.live)
    (present : (∀ a, (files.files a).isSome = (s.files.files a).isSome) ∨
      (s.files.files file).isNone = true ∧ (files.files file).isSome = true ∧
        ∀ a, (files.files a).isSome = true ↔ (s.files.files a).isSome = true ∨ a = file)
    (access : (if (s.files.files file).isNone ∧ (files.files file).isSome then
      { s with files }.allocate file .fileHandle else some { s with files }) = some t) :
    Objects base t ∧ t.files = files ∧ Resumes s t := by
  rcases present with same | ⟨absent, new, present⟩
  · have kept : ¬ ((s.files.files file).isNone = true ∧ (files.files file).isSome = true) := by
      rintro ⟨absent, new⟩
      rw [same, ← Option.not_isNone, absent] at new
      cases new
    rw [if_neg kept] at access
    obtain rfl := Option.some.inj access
    exact ⟨objects.congr rfl rfl live rfl same, rfl, rfl, rfl, rfl⟩
  · rw [if_pos ⟨absent, new⟩] at access
    obtain ⟨history, made, rfl⟩ := Option.map_eq_some_iff.mp access
    exact ⟨objects.opened made rfl rfl live rfl present, rfl, rfl, rfl, rfl⟩

/-- The step lemma of a call for the objects. -/
theorem Objects.resume (objects : Objects base s)
    (access : s.resume task fuel behind grants file = some t) :
    Objects base t ∧ s.files.resume task fuel behind grants file = some t.files ∧ Resumes s t := by
  obtain ⟨files, resumed, access⟩ := Option.bind_eq_some_iff.mp access
  have live : files.live = s.files.live := (resume_serves resumed).live
  have plain : changesHandles (s.files.pc task) = false → some { s with files } = some t →
      Objects base t ∧ s.files.resume task fuel behind grants file = some t.files ∧
      Resumes s t := by
    intro plain same
    obtain rfl := Option.some.inj same
    exact ⟨objects.congr rfl rfl live rfl (resume_present resumed plain), resumed, rfl, rfl, rfl⟩
  cases pc : s.files.pc task with
  | opening fd pathname flags =>
    rw [pc] at access
    have opened := resumed
    rw [OpenFiles.resume, pc] at opened
    obtain ⟨⟨code, u⟩, opened, same⟩ := Option.map_eq_some_iff.mp opened
    have present := opens_present opened
    have samePresent : files.files = u.files := by
      rw [← same]
      dsimp only
      split <;> rfl
    rw [← samePresent] at present
    obtain ⟨kept, sameFiles, rest⟩ := objects.opening live present access
    exact ⟨kept, sameFiles ▸ resumed, rest⟩
  | starting child =>
    rw [pc] at access
    have opened := resumed
    rw [OpenFiles.resume, pc] at opened
    obtain ⟨⟨code, u⟩, opened, same⟩ := Option.bind_eq_some_iff.mp opened
    have present := opens_present opened
    have samePresent : files.files = u.files := by
      obtain ⟨-, rest⟩ := Option.ite_none_right_eq_some.mp same
      rw [← Option.some.inj rest]
      rfl
    rw [← samePresent] at present
    obtain ⟨kept, sameFiles, rest⟩ := objects.opening live present access
    exact ⟨kept, sameFiles ▸ resumed, rest⟩
  | freeing fd closed =>
    rw [pc] at access
    obtain rfl := Option.some.inj access
    have freed := resumed
    rw [OpenFiles.resume, pc] at freed
    obtain ⟨object, present, same⟩ := Option.map_eq_some_iff.mp freed
    have gone : files.files = Function.update s.files.files closed none := by rw [← same]; rfl
    refine ⟨objects.closed (Option.isSome_of_eq_some present) rfl rfl live rfl fun a => ?_, resumed,
      rfl, rfl, rfl⟩
    change (files.files a).isSome = true ↔ _
    rw [gone]
    rcases eq_or_ne a closed with rfl | different
    · rw [Function.update_self]
      simp
    · rw [Function.update_of_ne different]
      simp [different]
  | _ =>
    rw [pc] at access
    exact plain (by rw [pc]; rfl) access

end Resume

/-! ## Reclaiming -/

/-- What a process and the open files of all tasks hold is accounted for, and only processes have
open files. -/
structure Kept (memory base : ℕ) (s : Lifecycle) : Prop where
  conserved : Conserved memory ⟨s.vm, s.regions⟩
  objects : Objects base s
  processes : s.vm.live ⊆ s.files.live
  slots : ∀ {task}, task ∈ s.files.live → task ∉ s.vm.live → ∀ fd, s.files.fds task fd = none

section Reclaim

variable {s t : Lifecycle} {memory base task : ℕ} {fd : Fin maxFd}

/-- The part of the state that knows open files goes its own way. -/
private theorem closeSlot_files (s : Lifecycle) (task : ℕ) (fd : Fin maxFd) :
    (s.closeSlot task fd).map Lifecycle.files = s.files.closeSlot task fd := by
  rw [Lifecycle.closeSlot, Option.map_map]
  refine (congrArg (Option.map · _) (funext fun files => ?_)).trans Option.map_id'
  dsimp only [Function.comp_apply]
  split
  · rfl
  · split <;> rfl

theorem freeTables_files (s : Lifecycle) (task : ℕ) : (s.freeTables task).files = s.files := by
  rw [Lifecycle.freeTables]
  split <;> rfl

private theorem reclaim_files (s : Lifecycle) (task : ℕ) :
    (s.reclaim task).map Lifecycle.files = s.files.reclaim task := by
  rw [Lifecycle.reclaim, OpenFiles.reclaim, Option.map_map,
    ← System.Path.foldlM_view Lifecycle.files (fun s fd => closeSlot_files s task fd),
    Option.map_map]
  refine congrArg (Option.map · _) (funext fun u => ?_)
  simp only [Function.comp_apply, Lifecycle.free, freeTables_files]

theorem killZombies_files (s : Lifecycle) :
    s.killZombies.map Lifecycle.files = s.files.killZombies :=
  System.Path.foldlM_view Lifecycle.files reclaim_files _ _

/-- What closing descriptors of a task leaves alone. -/
structure Closes (s t : Lifecycle) (task : ℕ) : Prop where
  vm : t.vm = s.vm
  regions : t.regions = s.regions
  stack : t.stack = s.stack
  live : t.files.live = s.files.live
  pc : t.files.pc = s.files.pc
  fds : ∀ {other}, other ≠ task → t.files.fds other = s.files.fds other

/-- A handle is freed exactly if its last reference goes. -/
theorem Objects.closeSlot (objects : Objects base s) (result : s.closeSlot task fd = some t) :
    Objects base t ∧ Closes s t task := by
  obtain ⟨files, closed, rfl⟩ := Option.map_eq_some_iff.mp result
  rw [OpenFiles.closeSlot] at closed
  cases points : s.files.fds task fd with
  | none =>
    rw [points] at closed
    obtain rfl := Option.some.inj closed
    exact ⟨objects, rfl, rfl, rfl, rfl, rfl, fun _ => rfl⟩
  | some file =>
    rw [points] at closed
    obtain ⟨object, present, rfl⟩ := Option.map_eq_some_iff.mp closed
    have others : ∀ {other}, other ≠ task →
        ((s.files.setFile file (vfsClose object)).setFd task fd none).fds other =
        s.files.fds other :=
      fun different => Function.update_of_ne different _ _
    have was : (s.files.files file).isSome = true := Option.isSome_of_eq_some present
    have here : (Function.update s.files.files file (vfsClose object)) file = vfsClose object :=
      Function.update_self _ _ _
    dsimp only
    split
    · rename_i gone
      refine ⟨objects.closed was rfl rfl rfl rfl fun a => ?_, rfl, rfl, rfl, rfl, rfl, others⟩
      change (Function.update s.files.files file (vfsClose object) a).isSome = true ↔ _
      rcases eq_or_ne a file with rfl | different
      · change (Function.update s.files.files a (vfsClose object) a).isNone = true at gone
        rw [← Option.not_isNone, gone]
        simp
      · rw [Function.update_of_ne different]
        simp [different]
    · rename_i stays
      refine ⟨objects.congr rfl rfl rfl rfl fun a => ?_, rfl, rfl, rfl, rfl, rfl, others⟩
      change (Function.update s.files.files file (vfsClose object) a).isSome = _
      rcases eq_or_ne a file with rfl | different
      · change ¬ (Function.update s.files.files a (vfsClose object) a).isNone = true at stays
        rw [was, ← Option.not_isNone, eq_false_of_ne_true stays]
        rfl
      · rw [Function.update_of_ne different]

theorem Closes.trans {u : Lifecycle} (first : Closes s t task) (second : Closes t u task) :
    Closes s u task where
  vm := second.vm.trans first.vm
  regions := second.regions.trans first.regions
  stack := second.stack.trans first.stack
  live := second.live.trans first.live
  pc := second.pc.trans first.pc
  fds different := (second.fds different).trans (first.fds different)

/-- `free_user_page_table` for a process, and nothing for a kernel thread. -/
private theorem freeTables_conserved (conserved : Conserved memory ⟨s.vm, s.regions⟩) (task : ℕ) :
    Conserved memory ⟨(s.freeTables task).vm, (s.freeTables task).regions⟩ ∧
      (s.freeTables task).vm.live = s.vm.live.erase task ∧
      (s.freeTables task).objects = s.objects ∧ (s.freeTables task).stack = s.stack := by
  rw [Lifecycle.freeTables]
  split
  · rename_i process
    have exits : orderly.Step ⟨s.vm, s.regions⟩ (.exit task)
        ⟨s.vm.freeUserPageTable task, s.regions⟩ :=
      ⟨trivial, .exit process⟩
    exact ⟨conserved.step exits, (conserved.balanced.exit process).2, rfl, rfl⟩
  · rename_i thread
    exact ⟨conserved, (Finset.erase_eq_of_notMem thread).symm, rfl, rfl⟩

/-- The step lemma of `kill_zombies`. -/
theorem Kept.reclaim (kept : Kept memory base s) (inLive : task ∈ s.files.live)
    (result : s.reclaim task = some t) :
    Kept memory base t ∧ t.files.live = s.files.live.erase task ∧ t.vm.live = s.vm.live.erase task ∧
      t.files.pc = s.files.pc := by
  obtain ⟨u, closed, rfl⟩ := Option.map_eq_some_iff.mp result
  have start : Objects base s ∧ Closes s s task :=
    ⟨kept.objects, rfl, rfl, rfl, rfl, rfl, fun _ => rfl⟩
  obtain ⟨objects, closes⟩ :=
    System.Path.foldlM_invariant (P := fun u => Objects base u ∧ Closes s u task)
    (fun _ both step => by
      obtain ⟨objects, closes⟩ := both
      obtain ⟨objects', closes'⟩ := objects.closeSlot step
      exact ⟨objects', closes.trans closes'⟩) start closed
  let v : Lifecycle :=
    { u with files := { u.files with cwd := Function.update u.files.cwd task none } }
  have conserved : Conserved memory ⟨v.vm, v.regions⟩ := by
    change Conserved memory ⟨u.vm, u.regions⟩
    rw [closes.vm, closes.regions]
    exact kept.conserved
  have files : (v.freeTables task).files = v.files := freeTables_files v task
  obtain ⟨conserved', processes, sameObjects, sameStack⟩ := freeTables_conserved conserved task
  have live : (v.freeTables task).files.live.erase task = s.files.live.erase task := by
    rw [files]
    exact congrArg (Finset.erase · task) closes.live
  have processesLive : (v.freeTables task).vm.live = s.vm.live.erase task := by
    rw [processes]
    exact congrArg (fun vm => Finset.erase vm.live task) closes.vm
  have buried := objects.buried (t := { ((v.freeTables task).free (v.stack task)).free task with
      files := { v.files with live := v.files.live.erase task } })
        (by rw [closes.live]; exact inLive)
    (by change ((v.freeTables task).objects.free _).free _ = _; rw [sameObjects]) sameStack rfl
    (by rw [closes.vm]; exact processesLive) rfl
  dsimp only
  change Kept memory base { ((v.freeTables task).free (v.stack task)).free task with
      files :=
        { (v.freeTables task).files with live := (v.freeTables task).files.live.erase task } } ∧
    (v.freeTables task).files.live.erase task = _ ∧ (v.freeTables task).vm.live = _ ∧
      (v.freeTables task).files.pc = _
  rw [files]
  refine ⟨⟨conserved', buried, ?_, ?_⟩, ?_, processesLive, closes.pc⟩
  · change (v.freeTables task).vm.live ⊆ v.files.live.erase task
    rw [processesLive, show v.files.live = s.files.live from closes.live]
    exact Finset.erase_subset_erase task kept.processes
  · intro other inLive' thread fd
    change other ∈ v.files.live.erase task at inLive'
    change other ∉ (v.freeTables task).vm.live at thread
    rw [show v.files.live = s.files.live from closes.live] at inLive'
    obtain ⟨different, before⟩ := Finset.mem_erase.mp inLive'
    rw [processesLive] at thread
    have wasThread : other ∉ s.vm.live :=
      fun process => thread (Finset.mem_erase.mpr ⟨different, process⟩)
    exact (congrFun (closes.fds different) fd).trans (kept.slots before wasThread fd)
  · exact congrArg (Finset.erase · task) closes.live

/-- `kill_zombies`, by induction on the zombies. -/
theorem Kept.reclaimAll {tasks : List ℕ} (kept : Kept memory base s) (nodup : tasks.Nodup)
    (inLive : ∀ task ∈ tasks, task ∈ s.files.live)
    (result : tasks.foldlM Lifecycle.reclaim s = some t) :
    Kept memory base t ∧ t.files.pc = s.files.pc ∧
      ∀ task, task ∈ t.vm.live → task ∈ s.vm.live ∧ task ∉ tasks := by
  induction tasks generalizing s with
  | nil =>
    obtain rfl := Option.some.inj result
    exact ⟨kept, rfl, fun task process => ⟨process, List.not_mem_nil⟩⟩
  | cons task rest ih =>
    obtain ⟨mid, first, rest⟩ := Option.bind_eq_some_iff.mp result
    obtain ⟨notLater, nodupRest⟩ := List.nodup_cons.mp nodup
    obtain ⟨keptMid, live, processes, pc⟩ := kept.reclaim (inLive task List.mem_cons_self) first
    obtain ⟨keptT, pc', left⟩ := ih keptMid nodupRest (fun other member => by
      rw [live]
      refine Finset.mem_erase.mpr ⟨fun same => notLater (same ▸ member), ?_⟩
      exact inLive other (List.mem_cons_of_mem _ member)) rest
    refine ⟨keptT, pc'.trans pc, fun other process => ?_⟩
    obtain ⟨before, notRest⟩ := left other process
    rw [processes] at before
    obtain ⟨different, was⟩ := Finset.mem_erase.mp before
    exact ⟨was, fun member => (List.mem_cons.mp member).elim different notRest⟩

end Reclaim

/-! ## Steps -/

def transitions : System Lifecycle Lifecycle.Event := .ofStep Lifecycle.step

/-- The event as one of `OpenFiles`, if it is a step of a call on files or the beginning of one. -/
def fileEvent : Lifecycle.Event → Option OpenFiles.Event
  | .createUserProcess task child .. => some (.createUserProcess task child)
  | .sysFork task child .. => some (.sysFork task child)
  | .sysOpen task pathname flags => some (.sysOpen task pathname flags)
  | .sysClose task fd => some (.sysClose task fd)
  | .resume task fuel behind grants file => some (.resume task fuel behind grants file)
  | .killZombies => some .killZombies
  | _ => none

/-- Nothing in the step makes the kernel lose an object: no other task is inside a call on files, a
task that ends is not inside one, and the memory of the processes is conserved. -/
def Safe (s : Lifecycle) (event : Lifecycle.Event) : Prop :=
  (∀ files, fileEvent event = some files → Alone s.files files) ∧
  match event with
  | .sysFork task .. => Room s.vm task
  | .sysExec task codeStart size =>
    Valid ((s.regions task).load codeStart (size.setWidth 64) (fileSize_lt size)).memory
  | .sysMmap task addr length prot flags allocate _ =>
    EndFits (s.regions task).memory ⟨addr, length, prot, flags, allocate⟩
  | .pageFault task va cause _ =>
    ¬ Permits ((s.vm.pgd task).entryAt (userSlot va)) cause ∧
      ¬ Misdirected s.vm task (s.regions task) va cause
  | .checkPendingSignals task _ => Undisturbed s.vm task
  | .sysKill _ target | .sysStop _ target => s.files.pc target = .idle
  | .threadExit task => s.files.pc task = .idle
  | _ => True

/-- What every step keeps. -/
structure Invariant (memory base : ℕ) (s : Lifecycle) : Prop where
  kept : Kept memory base s
  consistent : Consistent s.files
  serves : ∀ {task owner}, beneficiary task (s.files.pc task) = some owner → owner ∈ s.vm.live

section Steps

variable {s t : Lifecycle} {memory base task : ℕ}

/-- A task that is not inside a call can end while another one is. -/
private theorem consistent_exit {s : OpenFiles} (consistent : Consistent s)
    (runs : task ∈ s.runnable) (idle : s.pc task = .idle) :
    Consistent (s.exit task) := by
  obtain ⟨active, others, activeRuns, counted, knows⟩ := consistent.active
  have unborn : ∀ {child i}, Unborn s child i → Unborn (s.exit task) child i := by
    rintro child i ⟨live, notRuns, notZombie, empty⟩
    refine ⟨live, fun member => notRuns (Finset.mem_of_mem_erase member), fun zombie => ?_, empty⟩
    rcases List.mem_cons.mp zombie with rfl | old
    · exact notRuns runs
    · exact notZombie old
  refine ⟨(Finset.erase_subset task s.runnable).trans consistent.runnable,
    ⟨List.nodup_cons.mpr ⟨fun zombie => ?_, consistent.zombies.1⟩, fun other member => ?_⟩, active,
    others, fun busy => ?_, ?_, ?_⟩
  · exact (consistent.zombies.2 task zombie).2 runs
  · rcases List.mem_cons.mp member with rfl | before
    · exact ⟨consistent.runnable runs, Finset.notMem_erase other s.runnable⟩
    · obtain ⟨live, out⟩ := consistent.zombies.2 other before
      exact ⟨live, fun member => out (Finset.mem_of_mem_erase member)⟩
  · refine Finset.mem_erase.mpr ⟨?_, activeRuns busy⟩
    rintro rfl
    exact busy idle
  · exact counted.congr rfl (fun _ => rfl) (fun _ dies => dies)
  · change OpenFiles.Knows (s.exit task) active (s.pc active)
    cases pc : s.pc active with
    | copying child i =>
      rw [pc] at knows
      exact unborn knows
    | starting child =>
      rw [pc] at knows
      exact unborn knows
    | seeding child i file =>
      rw [pc] at knows
      exact ⟨unborn knows.1, knows.2⟩
    | sharing sharer child i file =>
      rw [pc] at knows
      exact ⟨unborn knows.1, knows.2⟩
    | incrementing sharer child i file loaded =>
      rw [pc] at knows
      exact ⟨unborn knows.1, knows.2⟩
    | _ =>
      rw [pc] at knows
      exact knows

/-- A step of the memory that keeps the processes. -/
theorem Invariant.vm {vm : Vm} {regions : ℕ → UserRegions} (invariant : Invariant memory base s)
    (conserved : Conserved memory ⟨vm, regions⟩) (live : vm.live = s.vm.live) :
    Invariant memory base { s with vm, regions } where
  kept := by
    refine ⟨conserved, invariant.kept.objects.congr rfl rfl rfl live fun _ => rfl, ?_, ?_⟩
    · dsimp only
      rw [live]
      exact invariant.kept.processes
    · dsimp only
      rw [live]
      exact invariant.kept.slots
  consistent := invariant.consistent
  serves here := by
    dsimp only
    rw [live]
    exact invariant.serves here

/-- A task ends. -/
theorem Invariant.exit (invariant : Invariant memory base s) (runs : task ∈ s.files.runnable)
    (idle : s.files.pc task = .idle) :
    Invariant memory base { s with files := s.files.exit task } where
  kept := ⟨invariant.kept.conserved, invariant.kept.objects.congr rfl rfl rfl rfl fun _ => rfl,
    invariant.kept.processes, invariant.kept.slots⟩
  consistent := consistent_exit invariant.consistent runs idle
  serves := invariant.serves

theorem Invariant.sysStop (invariant : Invariant memory base s) {target : ℕ}
    (idle : s.files.pc target = .idle) :
    Invariant memory base (s.sysStop task target) := by
  rw [Lifecycle.sysStop]
  split
  · rename_i stops
    exact invariant.exit stops.1 idle
  · exact invariant

/-- Making room for a task leaves the processes and the files alone. -/
theorem newTask_same {child stack : ℕ} (made : s.newTask child stack = some t) :
    t.vm = s.vm ∧ t.regions = s.regions ∧ t.files = s.files := by
  obtain ⟨first, struct, rest⟩ := Option.bind_eq_some_iff.mp made
  obtain ⟨second, kernelStack, rfl⟩ := Option.map_eq_some_iff.mp rest
  obtain ⟨_, -, rfl⟩ := Option.map_eq_some_iff.mp struct
  obtain ⟨_, -, rfl⟩ := Option.map_eq_some_iff.mp kernelStack
  exact ⟨rfl, rfl, rfl⟩

/-- A process is made, and its maker goes on to fill its descriptors. -/
theorem Invariant.newTask {child stack : ℕ} {u : Lifecycle} {pc : FilePc} {cwd : Option VnodeId}
    (invariant : Invariant memory base s) (new : child ∉ s.files.live)
    (made : s.newTask child stack = some u) (conserved : Conserved memory ⟨t.vm, t.regions⟩)
    (live : t.vm.live = insert child s.vm.live) (objects : t.objects = u.objects)
    (stackSame : t.stack = u.stack) (files : t.files = (s.files.addTask child cwd).goto task pc)
    (consistent : Consistent t.files) (serves : beneficiary task pc = some child) :
    Invariant memory base t where
  kept := by
    have filesLive : t.files.live = insert child s.files.live := by
      rw [files]
      rfl
    refine ⟨conserved, invariant.kept.objects.newTask new made objects stackSame filesLive
      live invariant.kept.processes
      (by rw [files]; rfl), ?_, ?_⟩
    · rw [filesLive, live]
      exact Finset.insert_subset_insert child invariant.kept.processes
    · intro other inLive thread fd
      rw [filesLive] at inLive
      rw [live] at thread
      have different : other ≠ child :=
        fun same => thread (same ▸ Finset.mem_insert_self child s.vm.live)
      have before := (Finset.mem_insert.mp inLive).resolve_left different
      have wasThread : other ∉ s.vm.live := fun process => thread (Finset.mem_insert_of_mem process)
      have sameFds : t.files.fds other = s.files.fds other := by
        rw [files]
        exact Function.update_of_ne different _ _
      rw [sameFds]
      exact invariant.kept.slots before wasThread fd
  consistent := consistent
  serves := by
    intro other owner here
    rw [files] at here
    rw [live]
    rcases eq_or_ne other task with rfl | different
    · simp only [OpenFiles.goto, Function.update_self] at here
      obtain rfl := Option.some.inj (serves.symm.trans here)
      exact Finset.mem_insert_self _ _
    · simp only [OpenFiles.goto, Function.update_of_ne different] at here
      exact Finset.mem_insert_of_mem (invariant.serves here)

/-- A call on files begins: it works on the slots of its caller. -/
theorem Invariant.call {files : OpenFiles} {pc : FilePc} {result : ℕ → ℤ}
    (invariant : Invariant memory base s) (process : task ∈ s.vm.live)
    (consistent : Consistent files)
    (begins : files = ({ s.files with result } : OpenFiles).goto task pc)
    (serves : ∀ owner, beneficiary task pc = some owner → owner = task) :
    Invariant memory base { s with files } := by
  subst begins
  refine ⟨⟨invariant.kept.conserved, invariant.kept.objects.congr rfl rfl rfl rfl fun _ => rfl,
    invariant.kept.processes, invariant.kept.slots⟩, consistent, fun {other owner} here => ?_⟩
  rcases eq_or_ne other task with rfl | different
  · simp only [OpenFiles.goto, Function.update_self] at here
    rw [serves owner here]
    exact process
  · simp only [OpenFiles.goto, Function.update_of_ne different] at here
    exact invariant.serves here

private theorem sysOpen_begins (s : OpenFiles) (task : ℕ)
    (pathname : List UInt8) (flags : BitVec 32) :
    ∃ result pc, s.sysOpen task pathname flags = ({ s with result } : OpenFiles).goto task pc ∧
      ∀ owner, beneficiary task pc = some owner → owner = task := by
  rw [OpenFiles.sysOpen]
  split
  · exact ⟨_, .idle, rfl, fun owner here => absurd here (by simp [beneficiary])⟩
  · exact ⟨s.result, _, rfl, fun owner here => (Option.some.inj here).symm⟩

private theorem sysClose_begins (s : OpenFiles) (task : ℕ) (fd : BitVec 32) :
    ∃ result pc, s.sysClose task fd = ({ s with result } : OpenFiles).goto task pc ∧
      ∀ owner, beneficiary task pc = some owner → owner = task := by
  rw [OpenFiles.sysClose]
  split
  · split
    · exact ⟨_, .idle, rfl, fun owner here => absurd here (by simp [beneficiary])⟩
    · exact ⟨s.result, _, rfl, fun owner here => (Option.some.inj here).symm⟩
  · exact ⟨_, .idle, rfl, fun owner here => absurd here (by simp [beneficiary])⟩

theorem Invariant.resume {fuel file : ℕ} {behind : List UInt8} {grants : Grants}
    (invariant : Invariant memory base s) (consistent : ∀ files,
      s.files.resume task fuel behind grants file = some files → Consistent files)
    (access : s.resume task fuel behind grants file = some t) : Invariant memory base t := by
  obtain ⟨objects, resumed, resumes⟩ := invariant.kept.objects.resume access
  have serves := resume_serves resumed
  refine ⟨⟨?_, objects, ?_, ?_⟩, consistent _ resumed, ?_⟩
  · rw [resumes.vm, resumes.regions]
    exact invariant.kept.conserved
  · rw [resumes.vm, serves.live]
    exact invariant.kept.processes
  · intro other inLive thread fd
    rw [serves.live] at inLive
    rw [resumes.vm] at thread
    rw [serves.fds fun here => thread (invariant.serves here)]
    exact invariant.kept.slots inLive thread fd
  · intro other owner here
    rw [resumes.vm]
    rcases eq_or_ne other task with rfl | different
    · exact invariant.serves (serves.served here)
    · rw [serves.others different] at here
      exact invariant.serves here

theorem Invariant.killZombies (invariant : Invariant memory base s)
    (idle : ∀ task ∈ s.files.runnable, s.files.pc task = .idle) (result : s.killZombies = some t) :
    Invariant memory base t ∧ ∀ task, task ∈ t.vm.live → task ∈ s.vm.live ∧
      task ∉ s.files.zombies := by
  have files : s.files.killZombies = some t.files := by
    rw [← killZombies_files, result]
    rfl
  obtain ⟨u, reclaimed, consistent, -⟩ := invariant.consistent.killZombies idle
  obtain rfl := Option.some.inj (files.symm.trans reclaimed)
  obtain ⟨nodup, inside⟩ := invariant.consistent.zombies
  have start : Kept memory base { s with files := { s.files with zombies := [] } } :=
    ⟨invariant.kept.conserved, invariant.kept.objects.congr rfl rfl rfl rfl fun _ => rfl,
      invariant.kept.processes, invariant.kept.slots⟩
  obtain ⟨kept, pc, left⟩ :=
    start.reclaimAll nodup (fun task zombie => (inside task zombie).1) result
  refine ⟨⟨kept, consistent, fun {other owner} here => ?_⟩, left⟩
  have quiet : ({ s with files := { s.files with zombies := [] } } : Lifecycle).files.pc other =
      .idle := (invariant.consistent.quiet idle).1 other
  rw [pc, quiet] at here
  cases here

/-- The step lemma. -/
theorem Invariant.step {event : Lifecycle.Event} (invariant : Invariant memory base s)
    (step : (transitions.restrict Safe).Step s event t) : Invariant memory base t := by
  obtain ⟨⟨alone, safe⟩, step⟩ := step
  have conserved := invariant.kept.conserved
  have consistent : ∀ {event' files}, fileEvent event = some event' →
      s.files.step event' = some files →
      Consistent files := fun same effect => invariant.consistent.step ⟨alone _ same, effect⟩
  have effect : s.step event = some t := step
  cases event with
  | createUserProcess task child stack pgd codeStart size =>
    obtain ⟨⟨ready, new⟩, made⟩ := Option.ite_none_right_eq_some.mp effect
    obtain ⟨u, newTask, rest⟩ := Option.bind_eq_some_iff.mp made
    obtain ⟨vm, created, rfl⟩ := Option.map_eq_some_iff.mp rest
    have same : u.vm = s.vm ∧ u.regions = s.regions ∧ u.files = s.files := newTask_same newTask
    rw [same.1] at created
    have fresh : child ∉ s.vm.live := fun process => new (invariant.kept.processes process)
    have joins := createUserProcess_joins conserved.balanced.exact.separate.valid created
    have creates : orderly.Step ⟨s.vm, s.regions⟩ (.createUserProcess child)
        ⟨vm, Function.update s.regions child
        (UserImage.zeroed.regions.load codeStart (size.setWidth 64) (fileSize_lt size))⟩ :=
      ⟨trivial, FaultProgress.Step.createUserProcess (s := ⟨s.vm, s.regions⟩)
        fresh created (fileSize_lt size)⟩
    have conserved' := conserved.step creates
    have begun : u.files.createUserProcess task child =
        (s.files.addTask child none).goto task (.starting child) := by
      rw [same.2.2]
      rfl
    have consistent' : Consistent (u.files.createUserProcess task child) := by
      rw [same.2.2]
      exact consistent rfl (if_pos ⟨ready, new⟩)
    rw [← same.2.1] at conserved'
    exact invariant.newTask new newTask conserved' joins.live rfl rfl begun consistent' rfl
  | sysFork task child stack pages =>
    obtain ⟨⟨inUser, new⟩, made⟩ := Option.ite_none_right_eq_some.mp effect
    obtain ⟨u, newTask, rest⟩ := Option.bind_eq_some_iff.mp made
    obtain ⟨vm, forked, rfl⟩ := Option.map_eq_some_iff.mp rest
    have same : u.vm = s.vm ∧ u.regions = s.regions ∧ u.files = s.files := newTask_same newTask
    rw [same.1] at forked
    have fresh : child ∉ s.vm.live := fun process => new (invariant.kept.processes process)
    have forks := PageTables.fork_forks conserved.balanced.exact.separate inUser.1 fresh forked
    have copies : orderly.Step ⟨s.vm, s.regions⟩ (.sysFork task child)
        ⟨vm, Function.update s.regions child
        (s.regions task)⟩ :=
        ⟨safe, FaultProgress.Step.sysFork (s := ⟨s.vm, s.regions⟩) inUser.1 fresh forked⟩
    have conserved' := conserved.step copies
    have begun : u.files.sysFork task child =
        (s.files.addTask child (s.files.cwd task)).goto task (.copying child 0) := by
      rw [same.2.2]
      rfl
    have consistent' : Consistent (u.files.sysFork task child) := by
      rw [same.2.2]
      exact consistent rfl (if_pos ⟨inUser.2, new⟩)
    rw [← same.2.1] at conserved'
    exact invariant.newTask new newTask conserved' forks.live rfl rfl begun consistent' rfl
  | sysExec task codeStart size =>
    obtain ⟨inUser, rest⟩ := Option.ite_none_right_eq_some.mp effect
    obtain rfl := Option.some.inj rest
    have executes : orderly.Step ⟨s.vm, s.regions⟩ (.exec task)
        ⟨s.vm.clearUserSpaceMappings task, Function.update s.regions task
        ((s.regions task).load codeStart (size.setWidth 64) (fileSize_lt size))⟩ := by
      refine ⟨?_, .exec inUser.1 (fileSize_lt size)⟩
      change Valid (Function.update s.regions task _ task).memory
      rw [Function.update_self]
      exact safe
    exact invariant.vm (conserved.step executes)
      (clearUserSpaceMappings_live conserved.balanced.exact.separate inUser.1)
  | sysMmap task addr length prot flags allocate tables =>
    obtain ⟨inUser, rest⟩ := Option.ite_none_right_eq_some.mp effect
    obtain ⟨vm, populated, rfl⟩ := Option.map_eq_some_iff.mp rest
    have valid : Valid
        (Model.sysMmap (s.regions task).memory addr length prot flags allocate).2.1 :=
      (sysMmap_valid_iff (conserved.valid inUser.1) ⟨addr, length, prot, flags, allocate⟩).mpr safe
    exact invariant.vm (conserved.sysMmap inUser.1 rfl populated valid)
      (populate_memoryOnly populated).live
  | pageFault task va cause pages =>
    obtain ⟨⟨inUser, user⟩, rest⟩ := Option.ite_none_right_eq_some.mp effect
    obtain ⟨fault, handled, same⟩ := Option.map_eq_some_iff.mp rest
    cases fault with
    | threadExit =>
      obtain rfl := same
      exact invariant.exit inUser.2.1 inUser.2.2
    | returned vm =>
      obtain rfl := same
      have faults : orderly.Step ⟨s.vm, s.regions⟩ (.pageFault task va cause) ⟨vm, s.regions⟩ :=
        ⟨safe, .pageFault inUser.1 (of_decide_eq_true user) handled⟩
      exact invariant.vm (conserved.step faults) (pageFaultHandler_memoryOnly handled).live
  | store task slot offset value =>
    obtain ⟨inUser, rest⟩ := Option.ite_none_right_eq_some.mp effect
    obtain ⟨vm, written, rfl⟩ := Option.map_eq_some_iff.mp rest
    have stores : orderly.Step ⟨s.vm, s.regions⟩ (.store task slot) ⟨vm, s.regions⟩ :=
      ⟨trivial, .store inUser.1 written⟩
    obtain ⟨-, stored⟩ := Option.ite_none_right_eq_some.mp written
    refine invariant.vm (conserved.step stores) ?_
    rw [← Option.some.inj stored]
  | sysSignal task handler =>
    obtain ⟨-, rest⟩ := Option.ite_none_right_eq_some.mp effect
    obtain rfl := Option.some.inj rest
    have registers :
        orderly.Step ⟨s.vm, s.regions⟩ (.sysSignal task) ⟨s.vm.sysSignal task handler, s.regions⟩ :=
      ⟨trivial, .sysSignal⟩
    exact invariant.vm (conserved.step registers) rfl
  | sysKill task target =>
    obtain ⟨-, rest⟩ := Option.ite_none_right_eq_some.mp effect
    obtain rfl := Option.some.inj rest
    rw [Lifecycle.sysKill]
    split
    · split
      · have raises :
          orderly.Step ⟨s.vm, s.regions⟩ (.sysKill target) ⟨s.vm.sysKill target, s.regions⟩ :=
          ⟨trivial, .sysKill⟩
        refine invariant.vm (conserved.step raises) ?_
        rw [Vm.sysKill]
        split <;> rfl
      · exact invariant.sysStop safe
    · exact invariant
  | checkPendingSignals task pages =>
    obtain ⟨inUser, rest⟩ := Option.ite_none_right_eq_some.mp effect
    obtain ⟨vm, delivered, rfl⟩ := Option.map_eq_some_iff.mp rest
    have same : vm = s.vm := by
      have idle : (s.vm.pending task && decide (s.vm.sigHandler task ≠ 0#64)) = false := by
        rw [Bool.and_eq_false_iff, decide_eq_false_iff_not, ← Bool.not_eq_true, ← not_and_or]
        exact safe
      rw [Vm.checkPendingSignals, idle] at delivered
      exact (Option.some.inj delivered).symm
    rw [same]
    exact invariant
  | sysSigreturn task =>
    obtain ⟨inUser, rest⟩ := Option.ite_none_right_eq_some.mp effect
    obtain rfl := Option.some.inj rest
    have nothing : s.vm.sysSigreturn task = s.vm := by
      rw [Vm.sysSigreturn, if_neg (not_not.mpr (conserved.unsignalled inUser.1))]
    rw [nothing]
    exact invariant
  | sysOpen task pathname flags =>
    obtain ⟨inUser, rest⟩ := Option.ite_none_right_eq_some.mp effect
    obtain rfl := Option.some.inj rest
    obtain ⟨result, pc, begins, serves⟩ := sysOpen_begins s.files task pathname flags
    exact invariant.call inUser.1 (consistent rfl (if_pos inUser.2)) begins serves
  | sysClose task fd =>
    obtain ⟨inUser, rest⟩ := Option.ite_none_right_eq_some.mp effect
    obtain rfl := Option.some.inj rest
    obtain ⟨result, pc, begins, serves⟩ := sysClose_begins s.files task fd
    exact invariant.call inUser.1 (consistent rfl (if_pos inUser.2)) begins serves
  | resume task fuel behind grants file =>
    obtain ⟨runs, access⟩ := Option.ite_none_right_eq_some.mp effect
    exact invariant.resume
      (fun files resumed => consistent rfl ((if_pos runs).trans resumed)) access
  | threadExit task =>
    obtain ⟨runs, rest⟩ := Option.ite_none_right_eq_some.mp effect
    obtain rfl := Option.some.inj rest
    exact invariant.exit runs safe
  | sysStop task target =>
    obtain ⟨-, rest⟩ := Option.ite_none_right_eq_some.mp effect
    obtain rfl := Option.some.inj rest
    exact invariant.sysStop safe
  | killZombies =>
    exact (invariant.killZombies
      (fun task runs => alone _ rfl task runs (by simp [OpenFiles.task])) effect).1

/-- Once no process is left and no call is in progress, nothing is held. -/
theorem Invariant.all_freed (invariant : Invariant memory base s)
    (idle : ∀ task ∈ s.files.runnable, s.files.pc task = .idle) (nobody : s.vm.live = ∅) :
    (∀ id, memory ≤ id → id < s.vm.heap.count → id ∈ s.vm.heap.freed) ∧
      ∀ id, base ≤ id → id < s.objects.count → id ∈ s.objects.freed := by
  refine ⟨fun id new made => invariant.kept.conserved.balanced.all_freed nobody new made,
    fun id new made => ?_⟩
  apply invariant.kept.objects.accounted.all_freed _ new made
  have exact := (invariant.consistent.quiet idle).2.exact
  rintro a (⟨task, process, -⟩ | here)
  · rw [nobody] at process
    exact absurd process (Finset.notMem_empty task)
  · -- only kernel threads are left, and they have no open files
    have unheld : holders s.files a = 0 := by
      rw [holders, references, Finset.card_eq_zero, Finset.filter_eq_empty_iff]
      rintro ⟨task, fd⟩ slot points
      have thread : task ∉ s.vm.live := nobody ▸ Finset.notMem_empty task
      have empty := invariant.kept.slots (Finset.mem_product.mp slot).1 thread fd
      rw [empty] at points
      cases points
    rw [(exact.freed a).mpr unheld] at here
    cases here

end Steps

/-! ## Runs -/

/-- Before the first process. -/
def boot (vm : Vm) (heap : VfsHeap) (objects : Allocations ℕ KernelObject)
    (stack : ℕ → ℕ) (threads : Finset ℕ) :
    Lifecycle where
  vm := (FaultProgress.boot vm).vm
  regions := (FaultProgress.boot vm).regions
  files := OpenFiles.boot heap threads
  objects := objects
  stack := stack

section Runs

variable {vm : Vm} {heap : VfsHeap} {objects : Allocations ℕ KernelObject}
  {stack : ℕ → ℕ} {threads : Finset ℕ}

end Runs

section Example

/-- Two kernel threads and their stacks. -/
def twoThreads : Allocations ℕ KernelObject where
  home address :=
    if address < 2 then some address else if address = 10 ∨ address = 11 then some (address - 8)
    else none
  start id := if id < 2 then id else id + 8
  purpose id := if id < 2 then .taskStruct else .kernelStack
  count := 4
  freed := []

def accesses (task n : ℕ) : List Lifecycle.Event :=
  List.replicate n (.resume task 3 [] ⟨true, true, true, true, true⟩ 9)

/-- The creation and the exit of a process, and what it does with its files. -/
def plain (s : Lifecycle) (event : Lifecycle.Event) : Bool :=
  (fileEvent event).all (fun files => decide (Alone s.files files)) &&
  match event with
  | .createUserProcess .. | .sysOpen .. | .sysClose .. | .resume .. => true
  | .threadExit task => decide (s.files.pc task = .idle)
  | _ => false

end Example

end OscKernel.Soundness.Lifecycle
