import OscKernel.Model.MmapMemory
import OscKernel.Soundness.PageWalks
import OscKernel.Soundness.VmaTable

/-! # What a failed mapping leaves behind

`sys_mmap` records its region before it populates it and undoes nothing. So a call that fails leaves
the process as it was exactly when one of the three tests before the recording refused it.
-/

namespace OscKernel.Soundness.MmapFailure

open OscKernel.Lib OscKernel.Model PageWalks

/-- The table, the page tables in memory, the counts and the pages passed out are the same. -/
structure Unchanged (s t : MmapProcess) : Prop where
  task : t.task = s.task
  word : t.memory.word = s.memory.word
  counts : t.pageRefCounts = s.pageRefCounts
  pages : taken t.memory.allocate 0 t.memory.calls = taken s.memory.allocate 0 s.memory.calls

/-- A test before the recording refuses the request: the table is full, the length rounds to zero,
or no place is found. -/
def Refused (task : MmapTask) (addr length : Word) : Prop :=
  32 ≤ task.vmas.length ∨ align length 4096#32 = 0#64 ∨
    (if hintRejected task addr (align length 4096#32) then
      findFreeVmaSpace task (align length 4096#32) else addr) = 0#64

instance (task : MmapTask) (addr length : Word) : Decidable (Refused task addr length) :=
  inferInstanceAs (Decidable (_ ∨ _ ∨ _))

@[simp] theorem setPageRefInit_task (s : MmapProcess) (pa : Word) :
    (s.setPageRefInit pa).task = s.task := by
  rw [MmapProcess.setPageRefInit]
  split_ifs <;> rfl

/-- Population leaves the table of regions alone. -/
theorem populate_task {s t : MmapProcess} {vaStart pageProt : Word} {offset remaining : ℕ}
    {populated : Bool}
    (result : s.populate vaStart pageProt offset remaining = some (populated, t)) :
    t.task = s.task := by
  induction remaining generalizing s offset with
  | zero =>
    obtain ⟨-, rfl⟩ := Prod.mk.inj (Option.some.inj result)
    rfl
  | succ remaining ih =>
    rw [MmapProcess.populate] at result
    cases returned : s.memory.allocate s.memory.calls with
    | none =>
      rw [returned] at result
      obtain ⟨-, rfl⟩ := Prod.mk.inj (Option.some.inj result)
      rfl
    | some paPage =>
      rw [returned] at result
      obtain ⟨memory, -, rest⟩ := Option.bind_eq_some_iff.mp result
      have later := ih rest
      simpa using later

private theorem populate_congr {vaStart pageProt : Word} {allocate allocate' : ℕ → Option Word}
    {i remaining : ℕ} (same : ∀ k, i ≤ k → allocate k = allocate' k) :
    populate vaStart pageProt allocate i remaining =
      populate vaStart pageProt allocate' i remaining := by
  induction remaining generalizing i with
  | zero => rfl
  | succ remaining ih =>
    rw [populate, populate, same i (le_refl i), ih fun k later => same k (by omega)]

/-- Population succeeds as in the model of the table, for some outcome of the calls for its
pages. -/
private theorem populate_refines {s t : MmapProcess} {vaStart pageProt : Word}
    {offset i remaining : ℕ} {populated : Bool}
    (result : s.populate vaStart pageProt offset remaining = some (populated, t)) :
    ∃ allocate, (populate vaStart pageProt allocate i remaining).2 = populated := by
  induction remaining generalizing s offset i with
  | zero =>
    obtain ⟨rfl, -⟩ := Prod.mk.inj (Option.some.inj result)
    exact ⟨fun _ => none, rfl⟩
  | succ remaining ih =>
    rw [MmapProcess.populate] at result
    cases returned : s.memory.allocate s.memory.calls with
    | none =>
      rw [returned] at result
      obtain ⟨rfl, -⟩ := Prod.mk.inj (Option.some.inj result)
      exact ⟨fun _ => none, rfl⟩
    | some paPage =>
      rw [returned] at result
      obtain ⟨memory, -, rest⟩ := Option.bind_eq_some_iff.mp result
      obtain ⟨allocate, outcome⟩ := ih (i := i + 1) rest
      refine ⟨Function.update allocate i (some paPage), ?_⟩
      have later : ∀ k, i + 1 ≤ k → Function.update allocate i (some paPage) k = allocate k :=
        fun k after => Function.update_of_ne (by omega) _ _
      rw [populate, Function.update_self]
      change (populate vaStart pageProt (Function.update allocate i (some paPage))
        (i + 1) remaining).2 = populated
      rw [populate_congr later, outcome]

/-- The call returns and records as the model of the table does. -/
theorem sysMmap_refines {s t : MmapProcess} {addr length ret : Word} {prot flags : BitVec 32}
    (result : s.sysMmap addr length prot flags = some (ret, t)) :
    ∃ allocate requests, sysMmap s.task addr length prot flags allocate =
      (ret, t.task, requests) := by
  rw [MmapProcess.sysMmap] at result
  simp only [sysMmap]
  by_cases full : s.task.vmas.length ≥ 32
  · rw [if_pos full] at result
    obtain ⟨rfl, rfl⟩ := Prod.mk.inj (Option.some.inj result)
    exact ⟨fun _ => none, [], if_pos full⟩
  simp only [if_neg full] at result ⊢
  by_cases empty : align length 4096#32 = 0#64
  · simp only [if_pos empty] at result ⊢
    obtain ⟨rfl, rfl⟩ := Prod.mk.inj (Option.some.inj result)
    exact ⟨fun _ => none, [], rfl⟩
  simp only [if_neg empty] at result ⊢
  generalize (if hintRejected s.task addr (align length 4096#32) = true then
    findFreeVmaSpace s.task (align length 4096#32) else addr) = vaStart at result ⊢
  by_cases nowhere : vaStart = 0#64
  · simp only [if_pos nowhere] at result ⊢
    obtain ⟨rfl, rfl⟩ := Prod.mk.inj (Option.some.inj result)
    exact ⟨fun _ => none, [], rfl⟩
  simp only [if_neg nowhere] at result ⊢
  by_cases populates : flags &&& mapPopulate ≠ 0#32
  · simp only [if_pos populates] at result ⊢
    obtain ⟨⟨populated, u⟩, loop, same⟩ := Option.map_eq_some_iff.mp result
    obtain ⟨rfl, rfl⟩ := Prod.mk.inj same
    obtain ⟨allocate, outcome⟩ := populate_refines (i := 0) loop
    refine ⟨allocate, (populate vaStart (mmapPageProt prot) allocate 0
      (BitVec.toNat (align length 4096#32) / 4096)).1, ?_⟩
    rw [outcome, populate_task loop]
  · simp only [if_neg populates] at result ⊢
    obtain ⟨rfl, rfl⟩ := Prod.mk.inj (Option.some.inj result)
    exact ⟨fun _ => none, [], rfl⟩

/-- A call that fails leaves the process unchanged exactly when it was refused before its region was
recorded. -/
theorem unchanged_iff_refused {s t : MmapProcess} {addr length : Word} {prot flags : BitVec 32}
    (failed : s.sysMmap addr length prot flags = some (-1#64, t)) : Unchanged s t ↔
    Refused s.task addr length := by
  constructor
  · intro unchanged
    by_contra accepted
    simp only [Refused, not_or, not_le] at accepted
    obtain ⟨room, nonempty, chosen⟩ := accepted
    have recorded : t.task.vmas.length = s.task.vmas.length + 1 := by
      rw [MmapProcess.sysMmap, if_neg (by omega)] at failed
      simp only [if_neg nonempty, if_neg chosen] at failed
      split at failed
      · obtain ⟨⟨populated, u⟩, loop, same⟩ := Option.map_eq_some_iff.mp failed
        obtain ⟨-, rfl⟩ := Prod.mk.inj same
        rw [populate_task loop, List.length_append, List.length_singleton]
      · obtain ⟨-, rfl⟩ := Prod.mk.inj (Option.some.inj failed)
        rw [List.length_append, List.length_singleton]
    rw [unchanged.task] at recorded
    omega
  · intro refused
    obtain rfl : s = t := by
      rw [MmapProcess.sysMmap] at failed
      rcases refused with full | empty | nowhere
      · rw [if_pos full] at failed
        exact (Prod.mk.inj (Option.some.inj failed)).2
      · split at failed
        · exact (Prod.mk.inj (Option.some.inj failed)).2
        · simp only [if_pos empty] at failed
          exact (Prod.mk.inj (Option.some.inj failed)).2
      · split at failed
        · exact (Prod.mk.inj (Option.some.inj failed)).2
        · simp only [if_pos nowhere] at failed
          split at failed
          · exact (Prod.mk.inj (Option.some.inj failed)).2
          · exact (Prod.mk.inj (Option.some.inj failed)).2
    exact ⟨rfl, rfl, rfl, rfl⟩

/-- A process with a one-page program and nothing mapped, whose calls of `allocate` fail. -/
def exhausted : MmapProcess where
  build := .board
  task := VmaTable.idleTask
  pgd := pageOffset + 0x1000#64
  memory := { clearedMemory with allocate := fun _ => none }
  pageRefCounts := fun _ => 0#8

/-- The same process with three pages to allocate: one to populate and two for its tables. -/
def scarce : MmapProcess :=
  { exhausted with memory := { exhausted.memory with
      allocate := fun i => if i < 3 then some (pageOffset + 0x2000#64 + BitVec.ofNat 64 (4096 * i))
        else none } }

/-- Of two pages the first is mapped, and there is no memory for the second. -/
theorem unchanged_iff_refused_halfway :
    ∃ t, scarce.sysMmap 0x10000000#64 8192#64 3#32 mapPopulate = some (-1#64, t) ∧
    t.memory.calls = 4 ∧ (Unchanged scarce t ↔ Refused scarce.task 0x10000000#64 8192#64) ∧
    ¬ Unchanged scarce t := by
  have evaluated : (scarce.sysMmap 0x10000000#64 8192#64 3#32 mapPopulate).map (fun result =>
      (result.1, result.2.memory.calls)) = some (-1#64, 4) := by decide +kernel
  obtain ⟨⟨ret, t⟩, failed, same⟩ := Option.map_eq_some_iff.mp evaluated
  obtain ⟨rfl, calls⟩ := Prod.mk.inj same
  have whole := unchanged_iff_refused failed
  have accepted : ¬ Refused scarce.task 0x10000000#64 8192#64 := by decide
  exact ⟨t, failed, calls, whole, fun unchanged => accepted (whole.mp unchanged)⟩

/-- A page that cannot be populated stays in the table although the call returns -1. -/
theorem region_stays :
    ∃ t, exhausted.sysMmap 0x10000000#64 4096#64 3#32 mapPopulate = some (-1#64, t) ∧
    ¬ Unchanged exhausted t := by
  refine ⟨_, rfl, fun unchanged => ?_⟩
  have lengths := congrArg (fun task => task.vmas.length) unchanged.task
  exact absurd lengths (by decide)

end OscKernel.Soundness.MmapFailure
