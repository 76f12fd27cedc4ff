import OscKernel.Model.TaskCreation

/-! # What a failed fork leaves behind

`sys_fork` tests two of its allocations: the one for the `task_struct`, before which it did nothing,
and the one for the top-level table, after which it frees the stack and the `task_struct`. The
others, for the kernel stack and for the tables of the lower levels, go to `memcpy` and `memzero` as
they are. So a fork that runs out of memory is undone exactly when the first call that fails is one
of the two.
-/

namespace OscKernel.Soundness.ForkFailure

open OscKernel.Lib OscKernel.Model

/-- What the claim of a failed call is about: the parent's entries, the counts, the open files, the
run queue and the free memory are as before. -/
structure Undone (s t : Kernel) : Prop where
  entries : ∀ slot, (t.tasks s.current).pgd.entryAt slot = (s.tasks s.current).pgd.entryAt slot
  pageRefCounts : t.pageRefCounts = s.pageRefCounts
  files : t.files = s.files
  runQueue : t.runQueue = s.runQueue
  available : ∀ a, t.heap.allocations.available a = s.heap.allocations.available a

/-- The call returned -1 without a store through a null pointer, and undid what it had done. -/
def FailsAtomically (s : Kernel) : ForkEnd → Prop
  | .returned value t => value = -1 ∧ Undone s t
  | .nullStore _ => False

/-- The state at the end. -/
def endState : ForkEnd → Kernel
  | .returned _ t => t
  | .nullStore t => t

/-- A call of `allocate` between the two states returned a null pointer. -/
def RanOut (s t : Kernel) : Prop := ∃ k, s.calls ≤ k ∧ k < t.calls ∧ s.grant k = 0#64

/-! ## The calls of allocate -/

/-- The calls of `allocate` between the two states all returned memory. -/
structure Granted (s t : Kernel) : Prop where
  grant : t.grant = s.grant
  calls : s.calls ≤ t.calls
  granted : ∀ k, s.calls ≤ k → k < t.calls → s.grant k ≠ 0#64

theorem Granted.of_calls {s t : Kernel} (grant : t.grant = s.grant) (calls : t.calls = s.calls) :
    Granted s t :=
  ⟨grant, calls.ge, fun k from_ before => absurd (calls ▸ before) (by omega)⟩

theorem Granted.setTask (s : Kernel) (task : Word) (value : TaskStruct) :
    Granted s (s.setTask task value) :=
  .of_calls rfl rfl

theorem Granted.trans {s t u : Kernel} (first : Granted s t) (second : Granted t u) :
    Granted s u := by
  refine ⟨second.grant.trans first.grant, first.calls.trans second.calls, fun k after before => ?_⟩
  rcases Nat.lt_or_ge k t.calls with early | late
  · exact first.granted k after early
  · rw [← first.grant]
    exact second.granted k late before

theorem Granted.not_ranOut {s t : Kernel} (granted : Granted s t) : ¬ RanOut s t := by
  rintro ⟨k, after, before, null⟩
  exact granted.granted k after before null

/-- A call of `allocate` returns the next word; where that is not null, it is the start of a new
allocation. -/
theorem allocate_cases {s t : Kernel} {size : ℕ} {purpose : KernelObject} {va : Word}
    (result : s.allocate size purpose = some (va, t)) :
    va = s.grant s.calls ∧
      ((va = 0#64 ∧ t = { s with calls := s.calls + 1 }) ∨
        (va ≠ 0#64 ∧ ∃ heap, s.heap.allocate va (Vm.region va size) purpose = some heap ∧
          t = { s with calls := s.calls + 1, heap := heap })) := by
  rw [Kernel.allocate] at result
  simp only at result
  split at result
  · rename_i null
    obtain ⟨rfl, rfl⟩ := Prod.mk.inj (Option.some.inj result)
    exact ⟨null.symm, .inl ⟨rfl, rfl⟩⟩
  · rename_i notNull
    obtain ⟨heap, made, same⟩ := Option.map_eq_some_iff.mp result
    obtain ⟨rfl, rfl⟩ := Prod.mk.inj same
    exact ⟨rfl, .inr ⟨notNull, heap, made, rfl⟩⟩

theorem Granted.allocate {s t : Kernel} {size : ℕ} {purpose : KernelObject} {va : Word}
    (result : s.allocate size purpose = some (va, t)) (notNull : va ≠ 0#64) : Granted s t := by
  obtain ⟨rfl, ⟨null, -⟩ | ⟨-, heap, -, rfl⟩⟩ := allocate_cases result
  · exact absurd null notNull
  · refine ⟨rfl, Nat.le_succ _, fun k after before => ?_⟩
    obtain rfl : k = s.calls := Nat.le_antisymm (Nat.le_of_lt_succ before) after
    exact notNull

/-! ## Copying the tables -/

/-- A loop whose rounds were all given memory was given memory. -/
theorem Granted.loop {ι : Type} {body : Kernel → ι → Option CopyEnd} {s t : Kernel} {items : List ι}
    (round : ∀ {s t : Kernel} {i : ι}, body s i = some (.done t) → Granted s t)
    (result : s.loop body items = some (.done t)) : Granted s t := by
  induction items generalizing s with
  | nil =>
    obtain rfl := CopyEnd.done.inj (Option.some.inj result)
    exact .of_calls rfl rfl
  | cons i rest ih =>
    rw [Kernel.loop] at result
    obtain ⟨ending, first, after⟩ := Option.bind_eq_some_iff.mp result
    cases ending with
    | done u => exact (round first).trans (ih after)
    | nullStore u => cases after

theorem incrementPageRef_calls (s : Kernel) (pa : Word) :
    (s.incrementPageRef pa).grant = s.grant ∧ (s.incrementPageRef pa).calls = s.calls := by
  rw [Kernel.incrementPageRef]
  split <;> exact ⟨rfl, rfl⟩

theorem Granted.copyEntry (s : Kernel) (parent child : Word) (slot : Slot) :
    Granted s (s.copyEntry parent child slot) := by
  rw [Kernel.copyEntry]
  split
  · split
    · exact .of_calls (incrementPageRef_calls _ _).1 (incrementPageRef_calls _ _).2
    · exact .of_calls (incrementPageRef_calls _ _).1 (incrementPageRef_calls _ _).2
  · exact .of_calls rfl rfl

theorem Granted.copyEntries (s : Kernel) (parent child : Word) (i : Fin 256)
    (j : Fin 512) (ks : List (Fin 512)) :
    Granted s (ks.foldl (fun s k => s.copyEntry parent child (i, j, k)) s) := by
  induction ks generalizing s with
  | nil => exact .of_calls rfl rfl
  | cons k rest ih => exact (Granted.copyEntry s parent child (i, j, k)).trans (ih _)

section Levels

variable {s t : Kernel} {parent child : Word} {i : Fin 256} {j : Fin 512}

theorem Granted.newPmd (result : s.newPmd child i = some (.done t)) : Granted s t := by
  rw [Kernel.newPmd] at result
  split at result
  · obtain rfl := CopyEnd.done.inj (Option.some.inj result)
    exact .of_calls rfl rfl
  · obtain ⟨⟨newPmd, u⟩, made, same⟩ := Option.map_eq_some_iff.mp result
    dsimp only at same
    split at same
    · cases same
    · rename_i notNull
      obtain rfl := CopyEnd.done.inj same
      exact (Granted.allocate made notNull).trans (.of_calls rfl rfl)

theorem Granted.newPte (result : s.newPte child i j = some (.done t)) : Granted s t := by
  rw [Kernel.newPte] at result
  split at result
  · obtain rfl := CopyEnd.done.inj (Option.some.inj result)
    exact .of_calls rfl rfl
  · obtain ⟨⟨newPte, u⟩, made, same⟩ := Option.map_eq_some_iff.mp result
    dsimp only at same
    split at same
    · cases same
    · rename_i notNull
      obtain rfl := CopyEnd.done.inj same
      exact (Granted.allocate made notNull).trans (.of_calls rfl rfl)

theorem Granted.copyTable (result : s.copyTable parent child i j = some (.done t)) :
    Granted s t := by
  rw [Kernel.copyTable] at result
  split at result
  · obtain rfl := CopyEnd.done.inj (Option.some.inj result)
    exact .of_calls rfl rfl
  · obtain ⟨ending, made, same⟩ := Option.map_eq_some_iff.mp result
    cases ending with
    | done u =>
      obtain rfl := CopyEnd.done.inj same
      exact (Granted.newPte made).trans (.copyEntries u parent child i j _)
    | nullStore u => cases same

theorem Granted.copyPmd (result : s.copyPmd parent child i = some (.done t)) : Granted s t := by
  rw [Kernel.copyPmd] at result
  split at result
  · obtain rfl := CopyEnd.done.inj (Option.some.inj result)
    exact .of_calls rfl rfl
  · obtain ⟨ending, made, after⟩ := Option.bind_eq_some_iff.mp result
    cases ending with
    | done u => exact (Granted.newPmd made).trans (.loop Granted.copyTable after)
    | nullStore u => cases after

/-- A copy that comes to its end was given every table it asked for. -/
theorem Granted.forkCopyPageTableCow
    (result : s.forkCopyPageTableCow parent child = some (.done t)) : Granted s t :=
  .loop Granted.copyPmd result

end Levels

/-! ## The end of fork -/

theorem Granted.shareFiles {s t : Kernel} {parent child : Word} {fds : List (Fin maxFd)}
    (result : fds.foldlM (fun (s : Kernel) fd => s.shareFile parent child fd) s = some t) :
    Granted s t := by
  induction fds generalizing s with
  | nil =>
    obtain rfl := Option.some.inj result
    exact .of_calls rfl rfl
  | cons fd rest ih =>
    rw [List.foldlM_cons] at result
    obtain ⟨u, first, after⟩ := Option.bind_eq_some_iff.mp result
    refine Granted.trans ?_ (ih after)
    rw [Kernel.shareFile] at first
    split at first
    · obtain rfl := Option.some.inj first
      exact .of_calls rfl rfl
    · obtain ⟨object, -, rfl⟩ := Option.map_eq_some_iff.mp first
      exact .of_calls rfl rfl

/-- The end of fork returns, and allocates nothing. -/
private theorem finishFork_returns {s : Kernel} {parent child regs : Word} {fork : ForkEnd}
    (result : s.finishFork parent child regs = some fork) :
    ∃ value t, fork = .returned value t ∧ Granted s t := by
  obtain ⟨t, shared, rfl⟩ := Option.map_eq_some_iff.mp result
  have files := Granted.shareFiles shared
  have before := (Granted.setTask s child _).trans files
  exact ⟨_, _, rfl, before.trans (.of_calls rfl rfl)⟩

/-! ## Undoing -/

theorem mem_region_start (va : Word) {size : ℕ} (positive : 0 < size) : va ∈ Vm.region va size :=
  List.mem_map.mpr ⟨0, List.mem_range.mpr positive, by simp⟩

/-- Freeing the stack and then the task that were allocated before it leaves what was free. -/
private theorem available_free_free {h h₁ h₂ : History Word KernelObject} {task stack : Word}
    {size depth : ℕ} (made : h.allocate task (Vm.region task size) .taskStruct = some h₁)
    (stacked : h₁.allocate stack (Vm.region stack depth) .kernelStack = some h₂)
    (positive : 0 < size) (deep : 0 < depth) (a : Word) :
    ((h₂.free stack).free task).allocations.available a = h.allocations.available a := by
  have inner : h₁.allocations.Alike (h₂.free stack).allocations :=
    .allocate_free h₁.numbered (History.allocate_eq_some stacked) (mem_region_start stack deep)
  have outer : h.allocations.Alike (h₁.free task).allocations :=
    .allocate_free h.numbered (History.allocate_eq_some made) (mem_region_start task positive)
  exact (outer.trans (inner.free task)).available a

/-- A task in use is not where a new one is allocated. -/
private theorem ne_of_allocate {h h' : History Word KernelObject} {task new : Word} {size : ℕ}
    (running : h.allocations.Owns task .taskStruct) (positive : 0 < size)
    (made : h.allocate new (Vm.region new size) .taskStruct = some h') : task ≠ new := by
  rintro rfl
  exact Allocations.not_owns_new (History.allocate_eq_some made)
    (mem_region_start task positive) running

/-! ## How a fork ends -/

/-- The four ends of a fork: the first or the third call of `allocate` fails, and the fork is
undone; the second fails, and the stack is copied to the null pointer; or the three succeed, and the
copy stores through a null pointer or the fork returns with every call granted. -/
private theorem sysFork_cases {s : Kernel} {regs : Word} {fork : ForkEnd}
    (running : s.heap.allocations.Owns s.current .taskStruct)
    (result : s.sysFork regs = some fork) : (s.grant s.calls = 0#64 ∧ FailsAtomically s fork) ∨
      s.grant s.calls ≠ 0#64 ∧
        ((s.grant (s.calls + 1) = 0#64 ∧ ∃ t, fork = .nullStore t) ∨
          s.grant (s.calls + 1) ≠ 0#64 ∧
            ((s.grant (s.calls + 2) = 0#64 ∧ FailsAtomically s fork) ∨
              s.grant (s.calls + 2) ≠ 0#64 ∧
                ((∃ t, fork = .nullStore t) ∨
                  ∃ value t, fork = .returned value t ∧ Granted s t))) := by
  obtain ⟨⟨task, s₁⟩, first, result⟩ := Option.bind_eq_some_iff.mp result
  obtain ⟨rfl, ⟨null, rfl⟩ | ⟨notNull, heap₁, made, rfl⟩⟩ := allocate_cases first
  · dsimp only at result
    rw [if_pos null] at result
    obtain rfl := Option.some.inj result
    exact .inl ⟨null, rfl, fun _ => rfl, rfl, rfl, rfl, fun _ => rfl⟩
  refine .inr ⟨notNull, ?_⟩
  dsimp only at result
  rw [if_neg notNull] at result
  obtain ⟨⟨stack, s₂⟩, second, result⟩ := Option.bind_eq_some_iff.mp result
  obtain ⟨rfl, ⟨null, rfl⟩ | ⟨stackNotNull, heap₂, stacked, rfl⟩⟩ := allocate_cases second
  · dsimp only at result
    rw [if_pos null] at result
    exact .inl ⟨null, _, (Option.some.inj result).symm⟩
  refine .inr ⟨stackNotNull, ?_⟩
  dsimp only at result
  rw [if_neg stackNotNull] at result
  obtain ⟨⟨pgd, s₃⟩, third, result⟩ := Option.bind_eq_some_iff.mp result
  obtain ⟨rfl, ⟨null, rfl⟩ | ⟨pgdNotNull, heap₃, tabled, rfl⟩⟩ := allocate_cases third
  · dsimp only at result
    rw [if_pos null] at result
    obtain rfl := Option.some.inj result
    have apart : s.current ≠ s.grant s.calls := ne_of_allocate running (by decide) made
    have parent : Function.update s.tasks (s.grant s.calls) TaskStruct.zeroed s.current =
        s.tasks s.current :=
      Function.update_of_ne apart _ _
    refine .inl ⟨null, rfl, fun slot => ?_, rfl, rfl, rfl,
      available_free_free made stacked (by decide) (by decide)⟩
    exact congrArg (fun task : TaskStruct => task.pgd.entryAt slot) parent
  refine .inr ⟨pgdNotNull, ?_⟩
  dsimp only at result
  rw [if_neg pgdNotNull] at result
  obtain ⟨ending, copied, after⟩ := Option.bind_eq_some_iff.mp result
  cases ending with
  | nullStore t => exact .inl ⟨t, (Option.some.inj after).symm⟩
  | done t =>
    obtain ⟨value, u, rfl, finished⟩ := finishFork_returns after
    have zeroed := (Granted.allocate first notNull).trans (.setTask _ (s.grant s.calls) .zeroed)
    have tabled := (zeroed.trans (Granted.allocate second stackNotNull)).trans
      (Granted.allocate third pgdNotNull)
    have copied := Granted.forkCopyPageTableCow copied
    exact .inr ⟨value, u, rfl,
      (tabled.trans ⟨copied.grant, copied.calls, copied.granted⟩).trans finished⟩

/-- A fork that runs out of memory fails atomically exactly when the first call of `allocate` that
fails is the one for the `task_struct` or the one for the top-level table. -/
theorem fork_atomic_iff {s : Kernel} {regs : Word} {fork : ForkEnd}
    (running : s.heap.allocations.Owns s.current .taskStruct) (result : s.sysFork regs = some fork)
    (ranOut : RanOut s (endState fork)) :
    FailsAtomically s fork ↔
      s.grant s.calls = 0#64 ∨ (s.grant (s.calls + 1) ≠ 0#64 ∧ s.grant (s.calls + 2) = 0#64) := by
  rcases sysFork_cases running result with
    ⟨null, fails⟩ |
      ⟨notNull, ⟨null, t, rfl⟩ | ⟨stackNotNull, ⟨null, fails⟩ | ⟨pgdNotNull, ⟨t, rfl⟩ | finished⟩⟩⟩
  · exact iff_of_true fails (.inl null)
  · refine iff_of_false id ?_
    rintro (first | ⟨second, -⟩)
    · exact notNull first
    · exact second null
  · exact iff_of_true fails (.inr ⟨stackNotNull, null⟩)
  · refine iff_of_false id ?_
    rintro (first | ⟨-, third⟩)
    · exact notNull first
    · exact pgdNotNull third
  · obtain ⟨value, t, rfl, granted⟩ := finished
    exact absurd ranOut granted.not_ranOut

/-! ## A kernel out of memory -/

/-- The address of the only task. -/
def onlyTask : Word := 0x1000#64

/-- A kernel with one task and nothing else. -/
def lone (grant : ℕ → Word) : Kernel where
  build := .board
  heap :=
    { allocations := ⟨fun a => if a = onlyTask then some 0 else none, fun _ => onlyTask,
      fun _ => .taskStruct, 1, []⟩
      numbered := by
        refine ⟨fun {a id} home => ?_, nofun⟩
        simp only at home
        split at home
        · obtain rfl := Option.some.inj home
          exact Nat.zero_lt_one
        · cases home }
  grant
  calls := 0
  pageRefCounts := fun _ => 0#8
  vfs := bootVfs ⟨fun _ => ⟨none, none, none, none, .file, 0⟩,
    fun _ => ⟨[], .file, 0, fun _ => 0, fun _ => none⟩, fun _ => ⟨0, 0⟩, 0, []⟩
  files := fun _ => none
  tasks := fun _ => .zeroed
  current := onlyTask
  runQueue := [onlyTask]
  nrThreads := 1#32
  activeUserPgd := 0#64
  memory := fun _ => 0
  cpioBase := 0#64
  sstatus := 0#64
  retFromException := 0#64

theorem lone_owns (grant : ℕ → Word) :
    (lone grant).heap.allocations.Owns (lone grant).current .taskStruct :=
  ⟨0, ⟨show (if onlyTask = onlyTask then some 0 else none) = some 0 from if_pos rfl,
    List.not_mem_nil⟩, rfl, rfl⟩

/-- No allocation ever had the address or one above it. -/
def Fresh (h : History Word KernelObject) (low : ℕ) : Prop :=
  ∀ a : Word, low ≤ a.toNat → h.allocations.home a = none

theorem lone_fresh (grant : ℕ → Word) : Fresh (lone grant).heap 0x1001 := by
  intro a high
  have apart : a ≠ onlyTask := by
    rintro rfl
    exact absurd high (by decide)
  exact if_neg apart

theorem mem_region_bounds {va a : Word} {size : ℕ} (fits : va.toNat + size ≤ 2 ^ 64)
    (member : a ∈ Vm.region va size) :
    va.toNat ≤ a.toNat ∧ a.toNat < va.toNat + size := by
  obtain ⟨i, inside, rfl⟩ := List.mem_map.mp member
  have below := List.mem_range.mp inside
  rw [BitVec.toNat_add, BitVec.toNat_ofNat]
  omega

/-- A call of `allocate` that is given addresses no allocation ever had succeeds. -/
theorem allocate_fresh (s : Kernel) (va : Word) (size : ℕ) (purpose : KernelObject) {low : ℕ}
    (given : s.grant s.calls = va) (notNull : va ≠ 0#64) (fresh : Fresh s.heap low)
    (above : low ≤ va.toNat) (fits : va.toNat + size ≤ 2 ^ 64) :
    ∃ heap, s.allocate size purpose = some (va, { s with calls := s.calls + 1, heap := heap }) ∧
      Fresh heap (va.toNat + size) := by
  obtain ⟨heap, made, kept⟩ := History.allocate_succeeds va purpose fun a member =>
    fresh a (above.trans (mem_region_bounds fits member).1)
  refine ⟨heap, ?_, fun a high => ?_⟩
  · rw [Kernel.allocate]
    dsimp only
    rw [given, if_neg notNull, made]
    rfl
  · have outside : a ∉ Vm.region va size :=
      fun member => absurd (mem_region_bounds fits member).2 (Nat.not_lt.mpr high)
    rw [kept a outside]
    exact fresh a (above.trans ((Nat.le_add_right _ _).trans high))

/-- The kernel that has memory for the `task_struct` and the kernel stack of a child only. -/
def tableless : Kernel := lone fun k => if k = 0 then 0x2000#64 else if k = 1 then 0x8000#64
  else 0#64

/-- A fork without memory for the top-level table. -/
private theorem sysFork_tableless {s s₁ s₂ s₃ : Kernel} {regs task stack : Word}
    (first : s.allocate sizeofTaskStruct .taskStruct = some (task, s₁)) (notNull : task ≠ 0#64)
    (second : (s₁.setTask task .zeroed).allocate stackSize.toNat .kernelStack = some (stack, s₂))
    (stackNotNull : stack ≠ 0#64) (third : s₂.allocate 4096 .pageTable = some (0#64, s₃)) :
    s.sysFork regs = some (.returned (-1) ((s₃.free stack).free task)) := by
  rw [Kernel.sysFork, first, Option.bind_some]
  dsimp only
  rw [if_neg notNull, second, Option.bind_some]
  dsimp only
  rw [if_neg stackNotNull, third, Option.bind_some]
  exact if_pos rfl

/-- The `task_struct` and the stack are given back. -/
theorem fork_atomic_iff_tableless : ∃ fork, tableless.sysFork 0#64 = some fork ∧
    (endState fork).calls = 3 ∧
    FailsAtomically tableless fork := by
  obtain ⟨heap, granted, fresh⟩ :=
    allocate_fresh tableless 0x2000#64 sizeofTaskStruct .taskStruct rfl (by decide)
    (lone_fresh _) (by decide) (by decide)
  obtain ⟨heap', granted', -⟩ := allocate_fresh
    (({ tableless with calls := 1, heap := heap } : Kernel).setTask 0x2000#64 .zeroed)
    0x8000#64 stackSize.toNat
    .kernelStack rfl (by decide) fresh (by decide) (by decide)
  have failed := @sysFork_tableless _ _ _ _ 0#64 _ _ granted (by decide) granted' (by decide) rfl
  refine ⟨_, failed, rfl, ?_⟩
  exact (fork_atomic_iff (lone_owns _) failed ⟨2, Nat.zero_le 2, Nat.lt_succ_self 2, rfl⟩).mpr
    (.inr ⟨by decide, rfl⟩)

/-- The kernel whose only grant is the `task_struct` of a child. -/
def starved : Kernel := lone fun k => if k = 0 then 0x2000#64 else 0#64

/-- Without memory for the kernel stack the parent's stack is copied to the null pointer. -/
theorem stack_copied_to_null : ∃ fork, starved.heap.allocations.Owns starved.current .taskStruct ∧
    starved.sysFork 0#64 = some fork ∧ RanOut starved (endState fork) ∧
    ¬ FailsAtomically starved fork := by
  obtain ⟨heap, granted, -⟩ :=
    allocate_fresh starved 0x2000#64 sizeofTaskStruct .taskStruct rfl (by decide)
    (lone_fresh _) (by decide) (by decide)
  refine ⟨.nullStore { ({ starved with calls := 1, heap := heap } : Kernel).setTask 0x2000#64
    .zeroed with calls := 2 }, lone_owns _, ?_, ⟨1, Nat.zero_le 1, Nat.lt_succ_self 1, rfl⟩, id⟩
  rw [Kernel.sysFork, granted]
  rfl

end OscKernel.Soundness.ForkFailure
