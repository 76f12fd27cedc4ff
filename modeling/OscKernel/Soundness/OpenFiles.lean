import Mathlib.Data.Finset.Prod
import Mathlib.Data.Fintype.Card
import OscKernel.Lib.References
import OscKernel.Lib.System
import OscKernel.Model.OpenFiles
import OscKernel.Soundness.TreeUpdates

/-! # Reference counts of open files

Tasks open, close, fork and exit in any order. The invariant follows one task through its call:
between two accesses the count of the file it works on is off by what the call still owes. As long
as no other task steps in between, nothing is owed when no call is in progress, and then every count
is the number of slots. A switch between the read and the write of a count loses one of two updates.
-/

namespace OscKernel.Soundness.OpenFiles

open OscKernel.Lib OscKernel.Model OscKernel.Model.OpenFiles OscKernel.Soundness.TreeUpdates

/-! ## Counting slots -/

/-- The descriptor slots of the tasks that have not been reclaimed. -/
def slots (s : OpenFiles) : Finset (ℕ × Fin maxFd) := s.live ×ˢ Finset.univ

/-- How many of them point to the file. -/
def holders (s : OpenFiles) (file : ℕ) : ℕ := references (slots s) (fun p => s.fds p.1 p.2) file

theorem mem_slots {s : OpenFiles} {task : ℕ} (live : task ∈ s.live)
    (fd : Fin maxFd) : (task, fd) ∈ slots s :=
  Finset.mem_product.mpr ⟨live, Finset.mem_univ fd⟩

private theorem holders_le (s : OpenFiles) (file : ℕ) : holders s file ≤ maxFd * s.live.card := by
  apply (references_le (slots s) _ file).trans
  rw [slots, Finset.card_product, Finset.card_univ, Fintype.card_fin, Nat.mul_comm]

theorem holders_pos {s : OpenFiles} {task : ℕ} {fd : Fin maxFd} {file : ℕ} (live : task ∈ s.live)
    (points : s.fds task fd = some file) : 0 < holders s file :=
  references_pos (mem_slots live fd)
    (show (fun p : ℕ × Fin maxFd => s.fds p.1 p.2) (task, fd) = some file from points)

theorem holders_setFd {s : OpenFiles} {task : ℕ} (live : task ∈ s.live) (fd : Fin maxFd)
    (value : Option ℕ) (file : ℕ) :
    holders (s.setFd task fd value) file + (if s.fds task fd = some file then 1 else 0) =
      holders s file + if value = some file then 1 else 0 := by
  have table : (fun p : ℕ × Fin maxFd => (s.setFd task fd value).fds p.1 p.2) =
      Function.update (fun p : ℕ × Fin maxFd => s.fds p.1 p.2) (task, fd) value := by
    funext p
    obtain ⟨other, i⟩ := p
    simp only [setFd]
    rcases eq_or_ne other task with rfl | different
    · rcases eq_or_ne i fd with rfl | elsewhere
      · simp
      · simp [elsewhere]
    · simp [different]
  have slotsSame : slots (s.setFd task fd value) = slots s := rfl
  rw [holders, table, slotsSame]
  exact references_update (mem_slots live fd) value file

/-! ## What a call owes -/

/-- The reference that a task has made or dropped in a slot but not in the count, or the other way
round. -/
def debt : FilePc → ℕ → ℤ
  | .installing _ file, other => if file = other then 1 else 0
  | .testing _ file, other => if file = other then -1 else 0
  | .freeing _ file, other => if file = other then -1 else 0
  | .clearing _ file, other => if file = other then -1 else 0
  | .seeding _ i file, other => if i = 0 ∧ file = other then 1 else 0
  | .sharing _ _ _ file, other => if file = other then -1 else 0
  | .incrementing _ _ _ file _, other => if file = other then -1 else 0
  | _, _ => 0

/-- The file whose count may have reached zero while it is not yet freed. -/
def dying : FilePc → Option ℕ
  | .testing _ file => some file
  | .freeing _ file => some file
  | _ => none

/-- Up to what the call owes, the count is the number of slots, and what is not allocated is not
pointed to. -/
def CountedAt (s : OpenFiles) (pc : FilePc) (file : ℕ) : Prop :=
  match s.files file with
  | none => (holders s file : ℤ) + debt pc file = 0
  | some object =>
    object.refCount = holders s file + debt pc file ∧ (0 < object.refCount ∨ dying pc = some file)

def Counted (s : OpenFiles) (pc : FilePc) : Prop := ∀ file, CountedAt s pc file

/-- A task that is being made, whose slots from `i` on are empty. -/
def Unborn (s : OpenFiles) (child i : ℕ) : Prop :=
  child ∈ s.live ∧ child ∉ s.runnable ∧ child ∉ s.zombies ∧
    ∀ fd : Fin maxFd, i ≤ fd → s.fds child fd = none

/-- What a task knows between two of its accesses. -/
def Knows (s : OpenFiles) (task : ℕ) : FilePc → Prop
  | .idle => True
  | .opening fd _ _ => s.fds task fd = none
  | .installing fd file => s.fds task fd = none ∧ (s.files file).isSome
  | .closing fd file => s.fds task fd = some file
  | .decrementing fd file loaded =>
    s.fds task fd = some file ∧ ∃ object, s.files file = some object ∧ object.refCount = loaded
  | .testing fd file => s.fds task fd = some file ∧ (s.files file).isSome
  | .freeing fd file =>
    s.fds task fd = some file ∧ ∃ object, s.files file = some object ∧ object.refCount = 0
  | .clearing fd file => s.fds task fd = some file
  | .copying child i => Unborn s child i
  | .starting child => Unborn s child 0
  | .seeding child i file => Unborn s child i ∧ (s.files file).isSome
  | .sharing _ child i file => Unborn s child (i + 1) ∧ (s.files file).isSome
  | .incrementing _ child i file loaded =>
    Unborn s child (i + 1) ∧ ∃ object, s.files file = some object ∧ object.refCount = loaded

/-- The tasks, one of which may be inside a call. -/
structure Consistent (s : OpenFiles) : Prop where
  runnable : s.runnable ⊆ s.live
  zombies : s.zombies.Nodup ∧ ∀ task ∈ s.zombies, task ∈ s.live ∧ task ∉ s.runnable
  active : ∃ task, (∀ other, other ≠ task → s.pc other = .idle) ∧
    (s.pc task ≠ .idle → task ∈ s.runnable) ∧
    Counted s (s.pc task) ∧ Knows s task (s.pc task)

section

variable {s t : OpenFiles} {pc pc' : FilePc} {task file : ℕ} {fd : Fin maxFd}

theorem CountedAt.none (counted : CountedAt s pc file) (freed : s.files file = none) :
    (holders s file : ℤ) + debt pc file = 0 := by
  rwa [CountedAt, freed] at counted

theorem CountedAt.some {object : File} (counted : CountedAt s pc file)
    (allocated : s.files file = some object) :
    object.refCount = holders s file + debt pc file ∧
    (0 < object.refCount ∨ dying pc = some file) := by
  rwa [CountedAt, allocated] at counted

theorem countedAt_some {object : File} (allocated : s.files file = some object)
    (counted : object.refCount = holders s file + debt pc file ∧
      (0 < object.refCount ∨ dying pc = some file)) :
    CountedAt s pc file := by
  rwa [CountedAt, allocated]

theorem countedAt_none (freed : s.files file = none)
    (counted : (holders s file : ℤ) + debt pc file = 0) :
    CountedAt s pc file := by
  rwa [CountedAt, freed]

/-- A step about one file leaves the others as they were. -/
theorem Counted.step (counted : Counted s pc) (file : ℕ)
    (others : ∀ other, other ≠ file → t.files other = s.files other ∧
      (holders t other : ℤ) + debt pc' other = holders s other + debt pc other ∧
      dying pc ≠ some other)
    (here : CountedAt t pc' file) : Counted t pc' := by
  intro other
  rcases eq_or_ne other file with rfl | different
  · exact here
  · obtain ⟨same, balance, alive⟩ := others other different
    have before := counted other
    rw [CountedAt, same, balance]
    rw [CountedAt] at before
    split at before
    · exact before
    · exact ⟨before.1, before.2.imp_right fun dies => absurd dies alive⟩

/-- A file that a slot points to while nothing is owed is allocated. -/
theorem Counted.allocated (counted : Counted s pc) (live : task ∈ s.live)
    (points : s.fds task fd = some file) (nothing : 0 ≤ debt pc file) : (s.files file).isSome := by
  cases present : s.files file with
  | some object => rfl
  | none =>
    have balance := (counted file).none present
    have positive := holders_pos live points
    omega

theorem Consistent.others (consistent : Consistent s) (busy : s.pc task ≠ .idle) {other : ℕ}
    (different : other ≠ task) :
    s.pc other = .idle := by
  obtain ⟨active, idle, -⟩ := consistent.active
  have same : active = task := by
    by_contra elsewhere
    exact busy (idle task (Ne.symm elsewhere))
  exact idle other (same ▸ different)

theorem Consistent.counted (consistent : Consistent s) (busy : s.pc task ≠ .idle) :
    task ∈ s.runnable ∧ Counted s (s.pc task) ∧ Knows s task (s.pc task) := by
  obtain ⟨active, idle, runs, counted, knows⟩ := consistent.active
  have same : active = task := by
    by_contra elsewhere
    exact busy (idle task (Ne.symm elsewhere))
  subst same
  exact ⟨runs busy, counted, knows⟩

/-- When no call is in progress, nothing is owed. -/
theorem Consistent.quiet (consistent : Consistent s)
    (idle : ∀ task ∈ s.runnable, s.pc task = .idle) :
    (∀ task, s.pc task = .idle) ∧ Counted s .idle := by
  obtain ⟨active, others, runs, counted, -⟩ := consistent.active
  have activeIdle : s.pc active = .idle := by
    by_contra busy
    exact busy (idle active (runs busy))
  refine ⟨fun task => ?_, activeIdle ▸ counted⟩
  rcases eq_or_ne task active with rfl | different
  · exact activeIdle
  · exact others task different

/-- The active task goes on. -/
theorem consistent_goto (runnable : s.runnable ⊆ s.live)
    (zombies : s.zombies.Nodup ∧ ∀ task ∈ s.zombies, task ∈ s.live ∧ task ∉ s.runnable)
    (others : ∀ other, other ≠ task → s.pc other = .idle) (runs : task ∈ s.runnable)
    (counted : Counted s pc) (knows : Knows s task pc) : Consistent (s.goto task pc) := by
  have here : (s.goto task pc).pc task = pc := Function.update_self _ _ _
  refine ⟨runnable, zombies, task, fun other different => ?_, fun _ => runs, ?_, ?_⟩
  · exact (Function.update_of_ne different _ _).trans (others other different)
  · rw [here]
    exact counted
  · rw [here]
    cases pc <;> exact knows

theorem consistent_returns {value : ℤ} (runnable : s.runnable ⊆ s.live)
    (zombies : s.zombies.Nodup ∧ ∀ task ∈ s.zombies, task ∈ s.live ∧ task ∉ s.runnable)
    (others : ∀ other, other ≠ task → s.pc other = .idle) (runs : task ∈ s.runnable)
    (counted : Counted s .idle) :
    Consistent (s.returns task value) :=
  consistent_goto (s := { s with result := Function.update s.result task value })
    runnable zombies others runs counted
    trivial

end

/-! ## Opening -/

/-- A new handle has one reference, and the only error is -1. -/
private theorem vfsOpen_result {fs t : VfsHeap} {fuel : ℕ} {base : VnodeId}
    {path behind : List UInt8} {flags : BitVec 32} {grants : Grants} {opened : Opened}
    (result : vfsOpen fs fuel base path flags behind grants = some (opened, t)) :
    opened = .error (-1) ∨ ∃ object, opened = .handle object ∧ object.refCount = 1 := by
  have ends : ∀ {u : VfsHeap} {v : VnodeId}, openFound u v flags grants = (opened, t) →
      opened = .error (-1) ∨ ∃ object, opened = .handle object ∧ object.refCount = 1 := by
    intro u v same
    rw [openFound] at same
    split at same
    · exact .inl (Prod.mk.inj same).1.symm
    · exact .inr ⟨_, (Prod.mk.inj same).1.symm, rfl⟩
  rw [vfsOpen] at result
  obtain ⟨outcome, lookup, result⟩ := Option.bind_eq_some_iff.mp result
  cases outcome with
  | found v => exact ends (Option.some.inj result)
  | error code =>
    simp only at result
    split at result
    · obtain ⟨⟨created, u⟩, made, result⟩ := Option.map_eq_some_iff.mp result
      rw [createAt] at made
      obtain ⟨rfl, -⟩ | ⟨-, -, -, -, -, rfl, -⟩ :=
        insertAt_cases
          (show VnodeOps.create .tmpfs = some (tmpfsInsert .file) from rfl) rfl rfl made
      · exact .inl (Prod.mk.inj result).1.symm
      · exact ends result
    · rw [Lookup.vfsLookupFrom_code lookup] at result
      exact .inl (Prod.mk.inj (Option.some.inj result)).1.symm

section

variable {s t : OpenFiles} {pc pc' : FilePc} {task fuel file : ℕ}
  {pathname behind : List UInt8} {flags : BitVec 32}
  {grants : Grants} {code : ℤ}

theorem opens_cases
    (opened : s.opens task pathname flags fuel behind grants file = some (code, t)) :
    ∃ heap, (code = -1 ∧ t = { s with heap }) ∨
      (code = 0 ∧ s.files file = none ∧
        ∃ object, object.refCount = 1 ∧ t = ({ s with heap }.setFile file (some object))) := by
  rw [opens] at opened
  obtain ⟨⟨result, heap⟩, ran, opened⟩ := Option.bind_eq_some_iff.mp opened
  refine ⟨heap, ?_⟩
  obtain rfl | ⟨object, rfl, one⟩ := vfsOpen_result ran
  · obtain ⟨rfl, rfl⟩ := Prod.mk.inj (Option.some.inj opened)
    exact .inl ⟨rfl, rfl⟩
  · simp only at opened
    split at opened
    · rename_i free
      obtain ⟨rfl, rfl⟩ := Prod.mk.inj (Option.some.inj opened)
      exact .inr ⟨rfl, Option.isNone_iff_eq_none.mp free, object, one, rfl⟩
    · simp at opened

/-- The handle of `vfs_open` has its one reference before any slot points to it. -/
theorem Counted.opened (counted : Counted s pc) (nothing : debt pc = fun _ => 0)
    (alive : dying pc = none) (free : s.files file = none) {object : File}
    (one : object.refCount = 1) (heap : VfsHeap)
    (owes : ∀ other, debt pc' other = if file = other then 1 else 0) :
    Counted ({ s with heap }.setFile file (some object)) pc' := by
  apply counted.step file
  · intro other different
    refine ⟨Function.update_of_ne different _ _, ?_, by simp [alive]⟩
    rw [nothing, owes, if_neg (Ne.symm different)]
    rfl
  · have nobody := (counted file).none free
    simp only [nothing] at nobody
    have here : (({ s with heap }.setFile file (some object)).files file) = some object :=
      Function.update_self _ _ _
    apply countedAt_some here
    rw [one, owes, if_pos rfl]
    refine ⟨?_, .inl Int.one_pos⟩
    change (1 : ℤ) = holders s file + 1
    omega

end

/-! ## One access -/

section

variable {s t : OpenFiles} {pc pc' : FilePc} {task file : ℕ} {fd : Fin maxFd}

/-- The objects stay, and what is owed moves with the slots. -/
theorem Counted.congr (counted : Counted s pc) (files : t.files = s.files)
    (balance : ∀ other, (holders t other : ℤ) + debt pc' other = holders s other + debt pc other)
    (dies : ∀ other, dying pc = some other → dying pc' = some other) : Counted t pc' := by
  intro other
  have before := counted other
  rw [CountedAt, files, balance other]
  rw [CountedAt] at before
  split at before
  · exact before
  · exact ⟨before.1, before.2.imp_right (dies other)⟩

/-- Writing a slot that was empty. -/
theorem Counted.fill (counted : Counted s pc) (live : task ∈ s.live) (empty : s.fds task fd = none)
    (owes : ∀ other, debt pc other = debt pc' other + if file = other then 1 else 0)
    (alive : dying pc = none) :
    Counted (s.setFd task fd (some file)) pc' := by
  apply counted.congr (t := s.setFd task fd (some file)) rfl
  · intro other
    have count := holders_setFd live fd (some file) other
    rw [empty] at count
    simp only [reduceCtorEq, if_false, Nat.add_zero, Option.some.injEq] at count
    rw [count, owes other]
    push_cast
    split <;> omega
  · simp [alive]

/-- Writing NULL to a slot. -/
theorem Counted.clear (counted : Counted s pc) (live : task ∈ s.live)
    (points : s.fds task fd = some file)
    (owes : ∀ other, debt pc' other = debt pc other + if file = other then 1 else 0)
    (alive : dying pc = none) :
    Counted (s.setFd task fd none) pc' := by
  apply counted.congr (t := s.setFd task fd none) rfl
  · intro other
    have count := holders_setFd live fd none other
    rw [points] at count
    simp only [reduceCtorEq, if_false, Nat.add_zero, Option.some.injEq] at count
    rw [owes other]
    split at count
    · rename_i same
      rw [if_pos same]
      omega
    · rename_i different
      rw [if_neg different]
      omega
  · simp [alive]

/-- Writing the count of a file. -/
theorem Counted.write (counted : Counted s pc)
    (alive : ∀ other, other ≠ file → dying pc ≠ some other) {object : File}
    (value : object.refCount = holders s file + debt pc' file)
    (dies : 0 < object.refCount ∨ dying pc' = some file)
    (owes : ∀ other, other ≠ file → debt pc' other = debt pc other) :
    Counted (s.setFile file (some object)) pc' := by
  apply counted.step file
  · intro other different
    refine ⟨Function.update_of_ne different _ _, ?_, alive other different⟩
    rw [owes other different]
    rfl
  · have here : (s.setFile file (some object)).files file = some object :=
      Function.update_self _ _ _
    exact countedAt_some here ⟨value, dies⟩

theorem isSome_setFile (s : OpenFiles) (file : ℕ) (object : File) :
    ((s.setFile file (some object)).files file).isSome := by
  have here : (s.setFile file (some object)).files file = some object := Function.update_self _ _ _
  rw [here]
  rfl

theorem Unborn.congr {child i : ℕ} (unborn : Unborn s child i) (live : t.live = s.live)
    (runnable : t.runnable = s.runnable) (zombies : t.zombies = s.zombies)
    (fds : t.fds child = s.fds child) : Unborn t child i := by
  rw [Unborn, live, runnable, zombies, fds]
  exact unborn

theorem Unborn.setFd {child i : ℕ} (unborn : Unborn s child i)
    (inside : i < maxFd) (value : Option ℕ) :
    Unborn (s.setFd child ⟨i, inside⟩ value) child (i + 1) := by
  obtain ⟨live, notRunnable, notZombie, empty⟩ := unborn
  refine ⟨live, notRunnable, notZombie, fun fd above => ?_⟩
  have other : fd ≠ ⟨i, inside⟩ := by
    rintro rfl
    exact absurd above (Nat.not_succ_le_self i)
  simp only [OpenFiles.setFd, Function.update_self, Function.update_of_ne other]
  exact empty fd (Nat.le_of_succ_le above)

/-- The step lemma of a call: the next access keeps the account. -/
theorem Consistent.resume {fuel : ℕ} {behind : List UInt8} {grants : Grants}
    (consistent : Consistent s) (runs : task ∈ s.runnable)
    (access : s.resume task fuel behind grants file = some t) : Consistent t := by
  have busy : s.pc task ≠ .idle := by
    intro idle
    rw [OpenFiles.resume, idle] at access
    simp at access
  have others : ∀ {other}, other ≠ task → s.pc other = .idle :=
    fun different => consistent.others busy different
  obtain ⟨-, counted, knows⟩ := consistent.counted busy
  have runnable := consistent.runnable
  have zombies := consistent.zombies
  have live := runnable runs
  rw [OpenFiles.resume] at access
  cases pc : s.pc task with
  | idle => exact absurd pc busy
  | opening fd pathname flags =>
    rw [pc] at access counted knows
    obtain ⟨⟨code, u⟩, opened, rfl⟩ := Option.map_eq_some_iff.mp access
    obtain ⟨heap, ⟨rfl, rfl⟩ | ⟨rfl, free, object, one, rfl⟩⟩ := opens_cases opened
    · exact consistent_returns runnable zombies (fun _ => others) runs counted
    · refine consistent_goto runnable zombies (fun _ => others) runs
        (counted.opened rfl rfl free one heap fun other => rfl)
        ⟨knows, isSome_setFile _ file object⟩
  | installing fd file =>
    rw [pc] at access counted knows
    obtain rfl := Option.some.inj access
    exact consistent_returns runnable zombies (fun _ => others) runs
      (counted.fill live knows.1 (fun other => by simp [debt]) rfl)
  | closing fd file =>
    rw [pc] at access counted knows
    obtain ⟨object, present, rfl⟩ := Option.map_eq_some_iff.mp access
    exact consistent_goto runnable zombies (fun _ => others) runs
      (counted.congr rfl (fun _ => rfl) (fun _ dies => by simp [dying] at dies))
      ⟨knows, object, present, rfl⟩
  | decrementing fd file loaded =>
    rw [pc] at access counted knows
    obtain ⟨points, object, present, rfl⟩ := knows
    obtain ⟨object', present', rfl⟩ := Option.map_eq_some_iff.mp access
    have value := ((counted file).some present).1
    refine consistent_goto runnable zombies (fun _ => others)
      runs (counted.write (by simp [dying]) ?_ (.inr rfl) ?_)
      ⟨points, isSome_setFile s file _⟩
    · simp only [debt, if_true] at value ⊢
      omega
    · intro other different
      simp [debt, Ne.symm different]
  | testing fd file =>
    rw [pc] at access counted knows
    obtain ⟨object, present, rfl⟩ := Option.map_eq_some_iff.mp access
    obtain ⟨value, -⟩ := (counted file).some present
    have held := holders_pos live knows.1
    simp only [debt, if_true] at value
    split
    · rename_i zero
      exact consistent_goto runnable zombies (fun _ => others) runs
        (counted.congr rfl (fun _ => rfl) (fun _ dies => dies)) ⟨knows.1, object, present, zero⟩
    · rename_i nonzero
      refine consistent_goto runnable zombies (fun _ => others)
        runs (counted.step file ?_ ?_) knows.1
      · exact fun other different => ⟨rfl, rfl, by simp [dying, Ne.symm different]⟩
      · exact countedAt_some present ⟨by simpa [debt] using value, .inl (by omega)⟩
  | freeing fd file =>
    rw [pc] at access counted knows
    obtain ⟨points, object, present, zero⟩ := knows
    obtain ⟨object', -, rfl⟩ := Option.map_eq_some_iff.mp access
    obtain ⟨value, -⟩ := (counted file).some present
    refine consistent_goto runnable zombies (fun _ => others) runs (counted.step file ?_ ?_) points
    · exact fun other different =>
        ⟨Function.update_of_ne different _ _, rfl, by simp [dying, Ne.symm different]⟩
    · have freed : (s.setFile file none).files file = none := Function.update_self _ _ _
      apply countedAt_none freed
      change (holders s file : ℤ) + debt (.freeing fd file) file = 0
      omega
  | clearing fd file =>
    rw [pc] at access counted knows
    obtain rfl := Option.some.inj access
    refine consistent_returns runnable zombies (fun _ => others)
      runs (counted.clear live knows (fun other => ?_) rfl)
    simp only [debt]
    split <;> simp
  | copying child i =>
    rw [pc] at access counted knows
    simp only at access
    split at access
    · rename_i inside
      have notSelf : task ≠ child := fun same => knows.2.1 (same ▸ runs)
      split at access
      · rename_i file points
        obtain rfl := Option.some.inj access
        refine consistent_goto runnable zombies (fun _ => others) runs
          (counted.fill knows.1 (knows.2.2.2 ⟨i, inside⟩ le_rfl) (fun other => ?_) rfl)
          ⟨knows.setFd inside _, counted.allocated live points (le_refl 0)⟩
        simp only [debt]
        split <;> simp
      · obtain rfl := Option.some.inj access
        refine consistent_goto runnable zombies (fun _ => others) runs
          (counted.congr rfl (fun other => ?_) (fun _ dies => dies)) (knows.setFd inside _)
        have count := holders_setFd knows.1 ⟨i, inside⟩ none other
        rw [knows.2.2.2 ⟨i, inside⟩ le_rfl] at count
        simp only [debt]
        omega
    · obtain rfl := Option.some.inj access
      obtain ⟨childLive, childNot, childZombie, -⟩ := knows
      refine consistent_goto (s := s.enqueue child) (Finset.insert_subset childLive runnable)
        ⟨zombies.1, fun other zombie => ⟨(zombies.2 other zombie).1, ?_⟩⟩ (fun _ => others)
        (Finset.mem_insert_of_mem runs)
        (counted.congr rfl (fun _ => rfl) (fun _ dies => dies)) trivial
      intro member
      obtain rfl | member := Finset.mem_insert.mp member
      · exact childZombie zombie
      · exact (zombies.2 other zombie).2 member
  | starting child =>
    rw [pc] at access counted knows
    obtain ⟨⟨code, u⟩, opened, access⟩ := Option.bind_eq_some_iff.mp access
    obtain ⟨heap, ⟨rfl, rfl⟩ | ⟨rfl, free, object, one, rfl⟩⟩ := opens_cases opened
    · simp at access
    · obtain rfl := Option.some.inj access
      refine consistent_goto runnable zombies (fun _ => others) runs
        (counted.opened rfl rfl free one heap fun other => by simp [debt])
        ⟨knows.congr rfl rfl rfl rfl, isSome_setFile _ file object⟩
  | seeding child i file =>
    rw [pc] at access counted knows
    obtain ⟨unborn, present⟩ := knows
    simp only at access
    split at access
    · rename_i inside
      obtain rfl := Option.some.inj access
      have slot : i < maxFd := inside.trans (by decide)
      have empty := unborn.2.2.2 ⟨i, slot⟩ le_rfl
      split
      · rename_i zero
        subst zero
        exact consistent_goto runnable zombies (fun _ => others) runs
          (counted.fill unborn.1 empty (fun other => by simp [debt]) rfl)
          ⟨unborn.setFd slot _, present⟩
      · rename_i nonzero
        refine consistent_goto runnable zombies (fun _ => others) runs
          (counted.fill unborn.1 empty (fun other => ?_) rfl) ⟨unborn.setFd slot _, present⟩
        simp only [debt, nonzero, false_and, if_false]
        split <;> simp
    · rename_i outside
      obtain rfl := Option.some.inj access
      obtain ⟨childLive, childNot, childZombie, -⟩ := unborn
      have nonzero : i ≠ 0 := fun zero => outside (zero ▸ by decide)
      have settled : Counted s .idle :=
        counted.congr rfl (fun other => by simp [debt, nonzero]) (fun _ dies => dies)
      refine @consistent_goto
        ({ s with cwd := Function.update s.cwd child (some s.heap.root) }.enqueue child) .idle task
        (Finset.insert_subset childLive runnable)
        ⟨zombies.1, fun other zombie => ⟨(zombies.2 other zombie).1, ?_⟩⟩ (fun _ => others)
        (Finset.mem_insert_of_mem runs) settled trivial
      intro member
      obtain rfl | member := Finset.mem_insert.mp member
      · exact childZombie zombie
      · exact (zombies.2 other zombie).2 member
  | sharing sharer child i file =>
    rw [pc] at access counted knows
    obtain ⟨object, present, rfl⟩ := Option.map_eq_some_iff.mp access
    exact consistent_goto runnable zombies (fun _ => others) runs
      (counted.congr rfl (fun _ => rfl) (fun _ dies => by simp [dying] at dies))
      ⟨knows.1, object, present, rfl⟩
  | incrementing sharer child i file loaded =>
    rw [pc] at access counted knows
    obtain ⟨unborn, object, present, rfl⟩ := knows
    obtain ⟨object', present', rfl⟩ := Option.map_eq_some_iff.mp access
    obtain ⟨value, positive⟩ := (counted file).some present
    have owes : ∀ other, debt (sharer.next child i file) other = 0 := by
      intro other
      cases sharer <;> simp [Sharer.next, debt]
    have alive : 0 < object.refCount := positive.resolve_right (by simp [dying])
    refine consistent_goto runnable zombies (fun _ => others)
      runs (counted.write (by simp [dying]) ?_ (.inl ?_) ?_) ?_
    · rw [owes file]
      simp only [debt, if_true] at value
      simp only
      omega
    · simp only
      omega
    · intro other different
      rw [owes other]
      simp [debt, Ne.symm different]
    · have again := unborn.congr (t :=
        s.setFile file (some { object' with refCount := object.refCount + 1 })) rfl rfl rfl rfl
      cases sharer with
      | fork => exact again
      | create => exact ⟨again, isSome_setFile s file _⟩

end

/-! ## Reclaiming -/

section

variable {s t : OpenFiles} {task : ℕ} {fd : Fin maxFd}

/-- The fields that closing a descriptor leaves alone. -/
structure Frame (s t : OpenFiles) : Prop where
  live : t.live = s.live
  runnable : t.runnable = s.runnable
  zombies : t.zombies = s.zombies
  pc : t.pc = s.pc

theorem Frame.trans {u : OpenFiles} (first : Frame s t) (second : Frame t u) : Frame s u :=
  ⟨second.live.trans first.live, second.runnable.trans first.runnable,
    second.zombies.trans first.zombies, second.pc.trans first.pc⟩

/-- Closing a descriptor is defined and keeps the account. -/
theorem Counted.closeSlot (counted : Counted s .idle) (live : task ∈ s.live) (fd : Fin maxFd) :
    ∃ t, s.closeSlot task fd = some t ∧ Counted t .idle ∧ Frame s t ∧ t.fds task fd = none ∧
      ∀ other, other ≠ fd → t.fds task other = s.fds task other := by
  rw [OpenFiles.closeSlot]
  cases points : s.fds task fd with
  | none => exact ⟨s, rfl, counted, ⟨rfl, rfl, rfl, rfl⟩, points, fun _ _ => rfl⟩
  | some file =>
    obtain ⟨object, present⟩ :=
      Option.isSome_iff_exists.mp (counted.allocated live points (le_refl 0))
    obtain ⟨value, -⟩ := (counted file).some present
    have held := holders_pos live points
    refine ⟨(s.setFile file (vfsClose object)).setFd task fd none, by simp only [present]; rfl, ?_,
      ⟨rfl, rfl, rfl, rfl⟩, ?_, ?_⟩
    · have count :=
        fun other => holders_setFd (s := s.setFile file (vfsClose object)) live fd none other
      have before : (s.setFile file (vfsClose object)).fds task fd = some file := points
      simp only [before, reduceCtorEq, if_false, Nat.add_zero, Option.some.injEq] at count
      apply counted.step file
      · intro other different
        refine ⟨Function.update_of_ne different _ _, ?_, by simp [dying]⟩
        have same := count other
        rw [if_neg (Ne.symm different), Nat.add_zero] at same
        rw [same]
        rfl
      · have here : ((s.setFile file (vfsClose object)).setFd task fd none).files file =
          vfsClose object :=
          Function.update_self _ _ _
        have less := count file
        rw [if_pos rfl] at less
        change _ + 1 = holders s file at less
        simp only [debt] at value
        by_cases last : object.refCount - 1 = 0
        · have freed : vfsClose object = none := if_pos last
          apply countedAt_none (here.trans freed)
          simp only [debt]
          omega
        · have kept : vfsClose object = some { object with refCount := object.refCount - 1 } :=
            if_neg last
          apply countedAt_some (here.trans kept)
          simp only [debt]
          exact ⟨by omega, .inl (by omega)⟩
    · simp only [setFd, Function.update_self]
    · intro other different
      simp only [setFd, Function.update_self, Function.update_of_ne different]
      rfl

/-- Closing the descriptors of a list, by induction on the list. -/
theorem Counted.closeSlots (counted : Counted s .idle) (live : task ∈ s.live)
    (fds : List (Fin maxFd)) :
    ∃ t, fds.foldlM (fun s fd => s.closeSlot task fd) s = some t ∧ Counted t .idle ∧ Frame s t ∧
      ∀ fd, fd ∈ fds ∨ s.fds task fd = none → t.fds task fd = none := by
  induction fds generalizing s with
  | nil => exact ⟨s, rfl, counted, ⟨rfl, rfl, rfl, rfl⟩,
      fun fd empty => empty.resolve_left List.not_mem_nil⟩
  | cons fd rest ih =>
    obtain ⟨mid, closed, countedMid, frame, empty, others⟩ := counted.closeSlot live fd
    obtain ⟨t, folded, countedT, frame', rest'⟩ := ih countedMid (frame.live ▸ live)
    refine ⟨t, ?_, countedT, frame.trans frame', fun fd' either => rest' fd' ?_⟩
    · rw [List.foldlM_cons, closed]
      exact folded
    · rcases eq_or_ne fd' fd with rfl | different
      · exact .inr empty
      · obtain listed | before := either
        · exact .inl ((List.mem_cons.mp listed).resolve_left different)
        · exact .inr ((others fd' different).trans before)

theorem Counted.reclaim (counted : Counted s .idle) (live : task ∈ s.live) :
    ∃ t, s.reclaim task = some t ∧ Counted t .idle ∧ t.live = s.live.erase task ∧
      t.runnable = s.runnable ∧
      t.zombies = s.zombies ∧ t.pc = s.pc := by
  obtain ⟨mid, closed, countedMid, frame, empty⟩ := counted.closeSlots live (List.finRange maxFd)
  refine ⟨{ mid with cwd := Function.update mid.cwd task none, live := mid.live.erase task },
    by rw [OpenFiles.reclaim, closed]; rfl, ?_, congrArg (Finset.erase · task) frame.live,
    frame.runnable, frame.zombies, frame.pc⟩
  apply countedMid.congr
    (t := { mid with cwd := Function.update mid.cwd task none, live := mid.live.erase task }) rfl
  · intro other
    have same : holders { mid with
        cwd := Function.update mid.cwd task none, live := mid.live.erase task } other =
        holders mid other := by
      refine (references_of_subset
        (Finset.product_subset_product_left (Finset.erase_subset task mid.live)) ?_ other).symm
      intro slot inUse erased
      obtain ⟨holder, fd⟩ := slot
      have isTask : holder = task := by
        by_contra different
        exact erased (Finset.mem_product.mpr
          ⟨Finset.mem_erase.mpr ⟨different, (Finset.mem_product.mp inUse).1⟩, Finset.mem_univ fd⟩)
      rw [isTask]
      exact empty fd (.inl (List.mem_finRange fd))
    rw [same]
  · exact fun _ dies => dies

/-- Reclaiming any list of distinct tasks. -/
theorem Counted.reclaimAll (counted : Counted s .idle) {tasks : List ℕ} (nodup : tasks.Nodup)
    (live : ∀ task ∈ tasks, task ∈ s.live) :
    ∃ t, tasks.foldlM OpenFiles.reclaim s = some t ∧ Counted t .idle ∧
      (∀ task ∈ s.live, task ∉ tasks → task ∈ t.live) ∧
      t.runnable = s.runnable ∧ t.zombies = s.zombies ∧
      t.pc = s.pc := by
  induction tasks generalizing s with
  | nil => exact ⟨s, rfl, counted, fun _ inside _ => inside, rfl, rfl, rfl⟩
  | cons task rest ih =>
    obtain ⟨notLater, nodupRest⟩ := List.nodup_cons.mp nodup
    obtain ⟨mid, reclaimed, countedMid, liveMid, runnable, zombies, pc⟩ :=
      counted.reclaim (live task (List.mem_cons_self ..))
    obtain ⟨t, folded, countedT, liveT, runnable', zombies', pc'⟩ := ih countedMid nodupRest (by
      intro other later
      rw [liveMid]
      exact Finset.mem_erase.mpr ⟨fun same => notLater (same ▸ later),
        live other (List.mem_cons_of_mem _ later)⟩)
    refine ⟨t, ?_, countedT, fun other inside out => ?_, runnable'.trans runnable,
      zombies'.trans zombies, pc'.trans pc⟩
    · rw [List.foldlM_cons, reclaimed]
      exact folded
    · apply liveT other _ (List.not_mem_of_not_mem_cons out)
      rw [liveMid]
      exact Finset.mem_erase.mpr ⟨List.ne_of_not_mem_cons out, inside⟩

/-- `kill_zombies` follows no pointer to a freed file and keeps the account. -/
theorem Consistent.killZombies (consistent : Consistent s)
    (idle : ∀ task ∈ s.runnable, s.pc task = .idle) :
    ∃ t, s.killZombies = some t ∧ Consistent t ∧ t.pc = s.pc := by
  obtain ⟨allIdle, counted⟩ := consistent.quiet idle
  obtain ⟨nodup, inside⟩ := consistent.zombies
  have start : Counted { s with zombies := [] } .idle :=
    counted.congr rfl (fun _ => rfl) (fun _ dies => dies)
  obtain ⟨t, folded, countedT, live, runnable, zombies, pc⟩ :=
    start.reclaimAll nodup fun task zombie => (inside task zombie).1
  refine ⟨t, folded, ⟨fun task runs => ?_, ?_, 0, fun other _ => ?_, fun busy => ?_, ?_, ?_⟩, pc⟩
  · rw [runnable] at runs
    exact live task (consistent.runnable runs) fun zombie => (inside task zombie).2 runs
  · rw [zombies]
    exact ⟨List.nodup_nil, fun task zombie => absurd zombie List.not_mem_nil⟩
  · rw [pc]
    exact allIdle other
  · rw [pc] at busy
    exact absurd (allIdle 0) busy
  · rw [pc, show s.pc 0 = .idle from allIdle 0]
    exact countedT
  · rw [pc, show s.pc 0 = .idle from allIdle 0]
    trivial

end

/-! ## Runs -/

def steps : System OpenFiles OpenFiles.Event := .ofStep OpenFiles.step

/-- The task that takes the step; `kill_zombies` is not inside a call. -/
def task : OpenFiles.Event → Option ℕ
  | .sysOpen task _ _ | .sysClose task _ | .sysFork task _ | .createUserProcess task _ |
      .resume task .. | .exit task =>
    some task
  | .killZombies => none

/-- No other task is inside a call on files. -/
def Alone (s : OpenFiles) (event : OpenFiles.Event) : Prop :=
  ∀ other ∈ s.runnable, task event ≠ some other → s.pc other = .idle

theorem Counted.addTask {s : OpenFiles} (counted : Counted s .idle) (child : ℕ)
    (fresh : child ∉ s.live) (cwd : Option VnodeId) : Counted (s.addTask child cwd) .idle := by
  apply counted.congr (t := s.addTask child cwd) rfl
  · intro other
    have empty : ∀ fd, (s.addTask child cwd).fds child fd = none := by
      intro fd
      simp only [OpenFiles.addTask, Function.update_self]
    have same : holders (s.addTask child cwd) other = holders s other := by
      have subset : slots s ⊆ slots (s.addTask child cwd) :=
        Finset.product_subset_product_left (Finset.subset_insert child s.live)
      rw [holders, references_of_subset subset]
      · apply references_congr
        intro slot inUse
        have different : slot.1 ≠ child :=
          fun isChild => fresh (isChild ▸ (Finset.mem_product.mp inUse).1)
        exact congrFun (Function.update_of_ne different _ _) slot.2
      · intro slot inMore out
        obtain isChild | old := Finset.mem_insert.mp (Finset.mem_product.mp inMore).1
        · rw [isChild]
          exact empty slot.2
        · exact absurd (Finset.mem_product.mpr ⟨old, Finset.mem_univ _⟩) out
    rw [same]
  · exact fun _ dies => dies

theorem unborn_addTask {s : OpenFiles} (consistent : Consistent s) {child : ℕ}
    (fresh : child ∉ s.live) (cwd : Option VnodeId) : Unborn (s.addTask child cwd) child 0 := by
  refine ⟨Finset.mem_insert_self child s.live, fun runs => fresh (consistent.runnable runs),
    fun zombie => fresh (consistent.zombies.2 child zombie).1, fun fd _ => ?_⟩
  simp only [OpenFiles.addTask, Function.update_self]

/-- The step lemma. -/
theorem Consistent.step {s t : OpenFiles} {event : OpenFiles.Event} (consistent : Consistent s)
    (step : (steps.restrict Alone).Step s event t) : Consistent t := by
  obtain ⟨alone, step⟩ := step
  have quiet : ∀ {caller}, task event = some caller → s.pc caller = .idle →
      (∀ other, s.pc other = .idle) ∧ Counted s .idle := by
    intro caller takes idle
    apply consistent.quiet
    intro other runs
    rcases eq_or_ne other caller with rfl | different
    · exact idle
    · exact alone other runs fun same => different (Option.some.inj (takes.symm.trans same)).symm
  have grown : ∀ child,
      (∀ zombie ∈ s.zombies, zombie ∈ insert child s.live ∧ zombie ∉ s.runnable) :=
    fun child zombie member =>
      ⟨Finset.mem_insert_of_mem (consistent.zombies.2 zombie member).1,
        (consistent.zombies.2 zombie member).2⟩
  have effect : s.step event = some t := step
  cases event with
  | sysOpen caller pathname flags =>
    obtain ⟨ready, ⟨⟩⟩ := Option.ite_none_right_eq_some.mp effect
    obtain ⟨idle, counted⟩ := quiet rfl ready.2
    rw [OpenFiles.sysOpen]
    split
    · exact consistent_returns consistent.runnable consistent.zombies
        (fun other _ => idle other) ready.1 counted
    · rename_i fd free
      have empty := List.find?_some free
      exact consistent_goto consistent.runnable consistent.zombies
        (fun other _ => idle other) ready.1
        (counted.congr rfl (fun _ => rfl) (fun _ dies => dies)) (Option.isNone_iff_eq_none.mp empty)
  | sysClose caller fd =>
    obtain ⟨ready, ⟨⟩⟩ := Option.ite_none_right_eq_some.mp effect
    obtain ⟨idle, counted⟩ := quiet rfl ready.2
    have returns : ∀ value, Consistent (s.returns caller value) := fun value =>
      consistent_returns consistent.runnable consistent.zombies (fun other _ => idle other)
        ready.1 counted
    rw [OpenFiles.sysClose]
    split
    · split
      · exact returns _
      · rename_i file points
        exact consistent_goto consistent.runnable consistent.zombies
          (fun other _ => idle other) ready.1
          (counted.congr rfl (fun _ => rfl) (fun _ dies => dies)) points
    · exact returns _
  | sysFork caller child =>
    obtain ⟨⟨ready, fresh⟩, ⟨⟩⟩ := Option.ite_none_right_eq_some.mp effect
    obtain ⟨idle, counted⟩ := quiet rfl ready.2
    exact consistent_goto (s := s.addTask child (s.cwd caller))
      (consistent.runnable.trans (Finset.subset_insert child s.live))
      ⟨consistent.zombies.1, grown child⟩
      (fun other _ => idle other) ready.1
      ((counted.addTask child fresh _).congr rfl (fun _ => rfl) (fun _ dies => dies))
      (unborn_addTask consistent fresh _)
  | createUserProcess caller child =>
    obtain ⟨⟨ready, fresh⟩, ⟨⟩⟩ := Option.ite_none_right_eq_some.mp effect
    obtain ⟨idle, counted⟩ := quiet rfl ready.2
    exact consistent_goto (s := s.addTask child none)
      (consistent.runnable.trans (Finset.subset_insert child s.live))
      ⟨consistent.zombies.1, grown child⟩
      (fun other _ => idle other) ready.1
      ((counted.addTask child fresh _).congr rfl (fun _ => rfl) (fun _ dies => dies))
      (unborn_addTask consistent fresh _)
  | resume caller fuel behind grants file =>
    obtain ⟨runs, access⟩ := Option.ite_none_right_eq_some.mp effect
    exact consistent.resume runs access
  | exit caller =>
    obtain ⟨ready, ⟨⟩⟩ := Option.ite_none_right_eq_some.mp effect
    obtain ⟨idle, counted⟩ := quiet rfl ready.2
    refine ⟨(Finset.erase_subset caller s.runnable).trans consistent.runnable,
      ⟨List.nodup_cons.mpr ⟨fun zombie => ?_, consistent.zombies.1⟩, fun other member => ?_⟩, 0,
      fun other _ => idle other, fun busy => absurd (idle 0) busy, ?_, ?_⟩
    · exact (consistent.zombies.2 caller zombie).2 ready.1
    · obtain rfl | before := List.mem_cons.mp member
      · exact ⟨consistent.runnable ready.1, Finset.notMem_erase other s.runnable⟩
      · obtain ⟨live, out⟩ := consistent.zombies.2 other before
        exact ⟨live, fun runs => out (Finset.mem_of_mem_erase runs)⟩
    · rw [show (s.exit caller).pc 0 = .idle from idle 0]
      exact counted.congr rfl (fun _ => rfl) (fun _ dies => dies)
    · rw [show (s.exit caller).pc 0 = .idle from idle 0]
      trivial
  | killZombies =>
    obtain ⟨u, same, consistentU, -⟩ :=
      consistent.killZombies fun other runs => alone other runs (by simp [task])
    exact Option.some.inj (same.symm.trans effect) ▸ consistentU

theorem boot_consistent (heap : VfsHeap) (threads : Finset ℕ) : Consistent (boot heap threads) := by
  refine ⟨Finset.Subset.refl threads, ⟨List.nodup_nil, fun task zombie => absurd zombie
    List.not_mem_nil⟩, 0, fun _ _ => rfl, fun busy => absurd rfl busy, fun file => ?_, trivial⟩
  apply countedAt_none rfl
  have nobody : holders (boot heap threads) file = 0 := by
    rw [holders, references, Finset.card_eq_zero, Finset.filter_eq_empty_iff]
    simp [boot]
  rw [nobody]
  rfl

/-- Every count is the number of slots that point to the file, a file is allocated as long as there
is one, and an `int` holds the count of fewer than 2^27 tasks. -/
structure Exact (s : OpenFiles) : Prop where
  counted : ∀ file object, s.files file = some object → object.refCount = holders s file
  freed : ∀ file, s.files file = none ↔ holders s file = 0
  slot : ∀ task ∈ s.live, ∀ fd file, s.fds task fd = some file → s.files file ≠ none
  bounded : ∀ file object, s.files file = some object → object.refCount ≤ maxFd * s.live.card

theorem Counted.exact {s : OpenFiles} (counted : Counted s .idle) : Exact s := by
  have freed : ∀ file, s.files file = none → holders s file = 0 := by
    intro file free
    have balance := (counted file).none free
    simp only [debt] at balance
    omega
  have value : ∀ file object, s.files file = some object → object.refCount = holders s file := by
    intro file object present
    have balance := ((counted file).some present).1
    simpa [debt] using balance
  refine ⟨value, fun file => ⟨freed file, fun nobody => ?_⟩,
    fun task live fd file points free => ?_, fun file object present => ?_⟩
  · cases present : s.files file with
    | none => rfl
    | some object =>
      have positive := ((counted file).some present).2.resolve_right (by simp [dying])
      rw [value file object present, nobody] at positive
      simp at positive
  · exact absurd (freed file free) (Nat.ne_of_gt (holders_pos live points))
  · rw [value file object present]
    exact_mod_cast holders_le s file

/-- The file whose count or memory the next access touches. -/
def touches : FilePc → Option ℕ
  | .closing _ file | .decrementing _ file _ | .testing _ file |
      .freeing _ file | .sharing _ _ _ file
  | .incrementing _ _ _ file _ => some file
  | _ => none

/-- In every run in which no task's call on files is interrupted by another's: whenever no call is
in progress, counts are exact and reclaiming is defined, and no access ever touches a freed file. -/
theorem open_files_exact {heap : VfsHeap} {threads : Finset ℕ} {events : List OpenFiles.Event}
    {s : OpenFiles} (run : System.Path (steps.restrict Alone) (boot heap threads) events s) :
    ((∀ task ∈ s.runnable, s.pc task = .idle) → Exact s ∧ s.killZombies ≠ none) ∧
    ∀ task file, touches (s.pc task) = some file → s.files file ≠ none := by
  have consistent : Consistent s :=
    run.invariant (P := Consistent) (fun consistent step => consistent.step step)
      (boot_consistent heap threads)
  refine ⟨fun idle => ⟨(consistent.quiet idle).2.exact, ?_⟩, fun task file accesses => ?_⟩
  · obtain ⟨t, reclaimed, -⟩ := consistent.killZombies idle
    simp [reclaimed]
  · have busy : s.pc task ≠ .idle := by
      intro idle
      rw [idle] at accesses
      simp [touches] at accesses
    obtain ⟨runs, counted, knows⟩ := consistent.counted busy
    have live := consistent.runnable runs
    suffices present : (s.files file).isSome from Option.isSome_iff_ne_none.mp present
    cases pc : s.pc task with
    | closing fd other =>
      rw [pc] at accesses counted knows
      obtain rfl := Option.some.inj accesses
      exact counted.allocated live knows (le_refl 0)
    | decrementing fd other loaded =>
      rw [pc] at accesses knows
      obtain rfl := Option.some.inj accesses
      obtain ⟨-, object, present, -⟩ := knows
      exact Option.isSome_of_eq_some present
    | testing fd other =>
      rw [pc] at accesses knows
      obtain rfl := Option.some.inj accesses
      exact knows.2
    | freeing fd other =>
      rw [pc] at accesses knows
      obtain rfl := Option.some.inj accesses
      obtain ⟨-, object, present, -⟩ := knows
      exact Option.isSome_of_eq_some present
    | sharing sharer child i other =>
      rw [pc] at accesses knows
      obtain rfl := Option.some.inj accesses
      exact knows.2
    | incrementing sharer child i other loaded =>
      rw [pc] at accesses knows
      obtain rfl := Option.some.inj accesses
      obtain ⟨-, object, present, -⟩ := knows
      exact Option.isSome_of_eq_some present
    | _ =>
      rw [pc] at accesses
      simp [touches] at accesses

/-- The root filesystem with devfs mounted on `/dev`. -/
def console : VfsHeap :=
  let made :=
    (tmpfsMkdir (bootVfs Lookup.smallTree) 0 [100, 101, 118] ⟨true, true, true, true, true⟩).2
  match devfsSetupMount { made with mountCount := made.mountCount + 1 }
    ⟨true, true, true, true, true⟩ with
  | some (_, set) => set.link made.mountCount 2 1
  | none => made

/-- The accesses that a task makes one after the other. -/
def accesses (task n : ℕ) : List OpenFiles.Event :=
  List.replicate n (.resume task 3 [] ⟨true, true, true, true, true⟩ 9)

/-- The shell creates a process, which forks. -/
def forkedEvents : List OpenFiles.Event :=
  .createUserProcess 1 2 :: accesses 1 9 ++ .sysFork 2 3 :: accesses 2 23

instance (s : OpenFiles) (event : OpenFiles.Event) : Decidable (Alone s event) :=
  inferInstanceAs (Decidable (∀ other ∈ s.runnable, _ → _))

/-- The parent exits and is reclaimed. -/
def survivedEvents : List OpenFiles.Event := forkedEvents ++ [.exit 2, .killZombies]

/-- The slots of the child remain. -/
theorem open_files_exact_forked : ∃ s, System.Path (steps.restrict Alone) (boot console {0, 1})
    survivedEvents s ∧ Exact s ∧ s.killZombies ≠ none ∧ holders s 9 = 3 := by
  let guarded (s : OpenFiles) (event : OpenFiles.Event) :=
    if Alone s event then s.step event else none
  have evaluated : (survivedEvents.foldlM guarded (boot console {0, 1})).map
      (fun s => (holders s 9, decide (∀ task ∈ s.runnable, s.pc task = .idle))) =
      some (3, true) := by decide +kernel
  obtain ⟨s, folded, result⟩ := Option.map_eq_some_iff.mp evaluated
  obtain ⟨three, idle⟩ := Prod.mk.inj result
  have run : System.Path (steps.restrict Alone) (boot console {0, 1}) survivedEvents s :=
    (System.Path.of_foldlM folded).mono fun taken => Option.ite_none_right_eq_some.mp taken
  obtain ⟨exact, reclaims⟩ := (open_files_exact run).1 (of_decide_eq_true idle)
  exact ⟨s, run, exact, reclaims, three⟩

/-- Parent and child close descriptor 0, and the parent is interrupted between reading and writing
the count. -/
def racingEvents : List OpenFiles.Event :=
  forkedEvents ++ .sysClose 2 0#32 :: accesses 2 1 ++ .sysClose 3 0#32 ::
    accesses 3 4 ++ accesses 2 3

/-- One of the two updates is lost: four slots point to the file, and its count is five. -/
theorem open_files_exact_racing :
    ∃ s object, System.Path steps (boot console {0, 1}) racingEvents s ∧
    (∀ task ∈ s.runnable, s.pc task = .idle) ∧ s.files 9 = some object ∧ object.refCount = 5 ∧
    holders s 9 = 4 := by
  have evaluated : (racingEvents.foldlM OpenFiles.step (boot console {0, 1})).map (fun s =>
      (holders s 9, decide (∀ task ∈ s.runnable, s.pc task = .idle),
        (s.files 9).map File.refCount)) =
      some (4, true, some 5) := by decide +kernel
  obtain ⟨s, folded, result⟩ := Option.map_eq_some_iff.mp evaluated
  obtain ⟨four, idle, count⟩ : holders s 9 = 4 ∧
      decide (∀ task ∈ s.runnable, s.pc task = .idle) = true ∧
      (s.files 9).map File.refCount = some 5 := by simpa only [Prod.mk.injEq] using result
  obtain ⟨object, present, five⟩ := Option.map_eq_some_iff.mp count
  exact ⟨s, object, System.Path.of_foldlM folded, of_decide_eq_true idle, present, five, four⟩

end OscKernel.Soundness.OpenFiles
