import OscKernel.Soundness.RefCounts

/-! # Signal stacks

A delivered signal maps a stack of four pages that has neither a VMA nor reference counts of its
own, while fork, exec and exit treat its entries like any others and `sys_sigreturn` frees it
without removing them. The state carries, for each entry, the allocation it was made for. No entry
outlives its allocation, and nothing is freed twice, in every run that avoids three kinds of steps
(`Safe`).
-/

namespace OscKernel.Soundness.SignalStack

open OscKernel.Lib OscKernel.Model OscKernel.Soundness.PageTables

/-! ## Steps -/

/-- A state with the allocation that each entry was made for. -/
structure Traced where
  vm : Vm
  madeFor : ℕ → Slot → ℕ

/-- The number of the allocation that the page of an entry is in. -/
def allocationOf (s : Vm) (task : ℕ) (slot : Slot) : ℕ :=
  (s.heap.home (physToVirt (ptePa (entryOf s task slot)))).getD 0

/-- Whether `check_pending_signals` has a signal to deliver. -/
def Due (s : Vm) (task : ℕ) : Prop := s.pending task = true ∧ s.sigHandler task ≠ 0#64

open scoped Classical in
/-- A delivery makes the entries of the signal stack anew. -/
noncomputable def delivered (s : Traced) (t : Vm) (task : ℕ) : ℕ → Slot → ℕ := fun other slot =>
  if Due s.vm task ∧ other = task ∧ ∃ i, slot = Vm.signalSlot i then allocationOf t task slot
  else s.madeFor other slot

inductive Event where
  | sysSignal (task : ℕ) (handler : Word)
  | sysKill (task : ℕ)
  | deliver (task : ℕ) (pages : Vm.SignalPages)
  | sysSigreturn (task : ℕ)
  | sysFork (parent child : ℕ) (pages : Vm.ForkPages)
  | exec (task : ℕ)
  | exit (task : ℕ)

inductive Step (s : Traced) : Event → Traced → Prop
  | sysSignal {task : ℕ} {handler : Word} : Step s (.sysSignal task handler)
      { s with vm := s.vm.sysSignal task handler }
  | sysKill {task : ℕ} : Step s (.sysKill task) { s with vm := s.vm.sysKill task }
  | deliver {task : ℕ} {pages : Vm.SignalPages} {t : Vm} : task ∈ s.vm.live →
      s.vm.checkPendingSignals task pages = some t →
      Step s (.deliver task pages) ⟨t, delivered s t task⟩
  | sysSigreturn {task : ℕ} : task ∈ s.vm.live →
      Step s (.sysSigreturn task) { s with vm := s.vm.sysSigreturn task }
  | sysFork {parent child : ℕ} {pages : Vm.ForkPages} {t : Vm} : parent ∈
      s.vm.live → child ∉ s.vm.live →
      s.vm.sysFork parent child pages = some t →
      Step s (.sysFork parent child pages) ⟨t, Function.update s.madeFor child (s.madeFor parent)⟩
  | exec {task : ℕ} : task ∈ s.vm.live →
      Step s (.exec task) { s with vm := s.vm.clearUserSpaceMappings task }
  | exit {task : ℕ} : task ∈ s.vm.live →
      Step s (.exit task) { s with vm := s.vm.freeUserPageTable task }

def transitions : System Traced Event := ⟨Step⟩

/-! ## The invariant -/

/-- The allocation of an entry: a user page with enough references, or the signal stack at its
place. -/
def Backed (s : Vm) (task id : ℕ) (slot : Slot) : Prop :=
  let pa := ptePa (entryOf s task slot)
  (s.heap.purpose id = .userPage ∧ s.heap.start id = physToVirt pa ∧
    (mappers s pa).card ≤ count s pa) ∨
    s.heap.purpose id = .signalStack

structure Sound (s : Traced) : Prop where
  separate : Separate s.vm
  within : ∀ {task slot}, task ∈ s.vm.live → present (entryOf s.vm task slot) = true →
    s.vm.heap.Within (physToVirt (ptePa (entryOf s.vm task slot))) (s.madeFor task slot)
  start : ∀ {task slot}, task ∈ s.vm.live → present (entryOf s.vm task slot) = true →
    s.vm.heap.Within (s.vm.heap.start (s.madeFor task slot)) (s.madeFor task slot)
  backed : ∀ {task slot}, task ∈ s.vm.live → present (entryOf s.vm task slot) = true →
    Backed s.vm task (s.madeFor task slot) slot
  savedRegs : ∀ {task}, task ∈ s.vm.live → s.vm.savedRegs task ≠ 0#64 →
    s.vm.heap.Owns (s.vm.savedRegs task) .savedRegs
  savedApart : ∀ {a b}, a ∈ s.vm.live → b ∈ s.vm.live → a ≠ b → s.vm.savedRegs a ≠ 0#64 →
    s.vm.savedRegs a ≠ s.vm.savedRegs b

/-- The task maps the first page of a signal stack with at most one reference, and another task maps
a page of the same stack. -/
def StackShared (s : Traced) (task : ℕ) : Prop :=
  ∃ slot other place, present (entryOf s.vm task slot) = true ∧
  other ∈ s.vm.live ∧ other ≠ task ∧ present (entryOf s.vm other place) = true ∧
  s.madeFor other place = s.madeFor task slot ∧
    s.vm.heap.purpose (s.madeFor task slot) = .signalStack ∧
  s.vm.heap.start (s.madeFor task slot) = physToVirt (ptePa (entryOf s.vm task slot)) ∧
  count s.vm (ptePa (entryOf s.vm task slot)) ≤ 1

/-- The stack of the task is still allocated, and no entry points into it. -/
def StackUnmapped (s : Traced) (task : ℕ) : Prop :=
  s.vm.heap.Owns (s.vm.signalStack task) .signalStack ∧
  ∀ other ∈ s.vm.live, ∀ slot, present (entryOf s.vm other slot) = true →
    s.vm.heap.start (s.madeFor other slot) ≠ s.vm.signalStack task

/-- The step is none of these: a `SYS_SIGRETURN` that frees a stack which is still mapped or was
already freed; an exec or exit that counts the last reference of a signal stack which another task
maps; a fork of a page at count 255. -/
def Safe (s : Traced) : Event → Prop
  | .sysSigreturn task => s.vm.savedRegs task = 0#64 ∨ StackUnmapped s task
  | .exec task | .exit task => ¬ StackShared s task
  | .sysFork parent _ _ => Room s.vm parent
  | _ => True

/-- Every valid entry points into the allocation it was made for, which is still in use. -/
def NoDangling (s : Traced) : Prop :=
  ∀ task ∈ s.vm.live, ∀ slot, present (entryOf s.vm task slot) = true →
  s.vm.heap.Within (physToVirt (ptePa (entryOf s.vm task slot))) (s.madeFor task slot)

/-! ## Exec and exit -/

section Unmapped

variable {s : Traced} {t : Vm} {task : ℕ} {gone : List Word}

/-- The allocations behind the entries of the other tasks are not passed to `free`. -/
theorem Sound.unmap_kept (sound : Sound s) (taskLive : task ∈ s.vm.live)
    (unmaps : Unmaps s.vm t task gone) (unshared : ¬ StackShared s task) {other : ℕ} {place : Slot}
    (otherLive : other ∈ s.vm.live) (different : other ≠ task)
    (there : present (entryOf s.vm other place) = true) :
    s.vm.heap.start (s.madeFor other place) ∉ gone := by
  intro member
  have start := sound.start otherLive there
  rcases unmaps.released.of_gone member with ⟨pa, ⟨slot, slotThere, rfl⟩, last, same⟩ | table
  · change present (entryOf s.vm task slot) = true at slotThere
    change physToVirt (ptePa (entryOf s.vm task slot)) = _ at same
    change count s.vm (ptePa (entryOf s.vm task slot)) ≤ 1 at last
    have within := sound.within taskLive slotThere
    rw [same] at within
    have sameId : s.madeFor other place = s.madeFor task slot :=
      Option.some.inj (start.1.symm.trans within.1)
    rcases sound.backed taskLive slotThere with ⟨purpose, startsAt, few⟩ | purpose
    · have samePage : ptePa (entryOf s.vm other place) = ptePa (entryOf s.vm task slot) := by
        rcases sound.backed otherLive there with ⟨-, startsAt', -⟩ | purpose'
        · apply physToVirt_injective
          rw [← startsAt', sameId, startsAt]
        · rw [sameId, purpose] at purpose'
          exact absurd purpose' (by decide)
      have both := Finset.card_le_one.mp (le_trans few last)
        other (mem_mappers.mpr ⟨otherLive, place, there, samePage⟩)
        task (mem_mappers.mpr ⟨taskLive, slot, slotThere, rfl⟩)
      exact different both
    · refine unshared ⟨slot, other, place, slotThere, otherLive, different, there,
        sameId, purpose, ?_, last⟩
      rw [← sameId, same]
  · obtain ⟨id, within, -, purpose⟩ := sound.separate.table taskLive table
    have sameId : s.madeFor other place = id := Option.some.inj (start.1.symm.trans within.1)
    rcases sound.backed otherLive there with ⟨purpose', -⟩ | purpose'
    · rw [sameId, purpose] at purpose'
      exact absurd purpose' (by decide)
    · rw [sameId, purpose] at purpose'
      exact absurd purpose' (by decide)

/-- Nor are saved frames. -/
theorem Sound.saved_kept (sound : Sound s) (taskLive : task ∈ s.vm.live)
    (unmaps : Unmaps s.vm t task gone) {a : Word} (owns : s.vm.heap.Owns a .savedRegs) :
    a ∉ gone := by
  intro member
  rcases unmaps.released.of_gone member with ⟨pa, ⟨slot, there, rfl⟩, -, rfl⟩ | table
  · have purpose := (purpose_unique (sound.within taskLive there) owns).2
    rcases sound.backed taskLive there with ⟨purpose', -⟩ | purpose'
    · exact absurd (purpose.symm.trans purpose') (by decide)
    · exact absurd (purpose.symm.trans purpose') (by decide)
  · obtain ⟨id, within, -, purpose⟩ := sound.separate.table taskLive table
    exact absurd (purpose.symm.trans (purpose_unique within owns).2) (by decide)

theorem Sound.unmap (sound : Sound s) (taskLive : task ∈ s.vm.live)
    (unmaps : Unmaps s.vm t task gone) (unshared : ¬ StackShared s task) :
    Sound ⟨t, s.madeFor⟩ where
  separate := by
    apply sound.separate.unmap taskLive unmaps
    rintro other pa id otherLive different ⟨slot, there, rfl⟩ within
    have sameId : id = s.madeFor other slot :=
      Option.some.inj (within.1.symm.trans (sound.within otherLive there).1)
    rw [sameId]
    exact sound.unmap_kept taskLive unmaps unshared otherLive different there
  within := by
    intro other slot inLive there
    obtain ⟨different, same⟩ := unmaps.entry inLive there
    have otherLive := unmaps.was_live taskLive inLive
    simp only [same, unmaps.heap] at there ⊢
    exact (sound.within otherLive there).freeAll
      (sound.unmap_kept taskLive unmaps unshared otherLive different there)
  start := by
    intro other slot inLive there
    obtain ⟨different, same⟩ := unmaps.entry inLive there
    have otherLive := unmaps.was_live taskLive inLive
    simp only [same, unmaps.heap, Allocations.freeAll_start] at there ⊢
    exact (sound.start otherLive there).freeAll
      (sound.unmap_kept taskLive unmaps unshared otherLive different there)
  backed := by
    intro other slot inLive there
    obtain ⟨different, same⟩ := unmaps.entry inLive there
    have otherLive := unmaps.was_live taskLive inLive
    simp only [same] at there
    simp only [Backed, same, unmaps.heap, Allocations.freeAll_purpose, Allocations.freeAll_start]
    refine (sound.backed otherLive there).imp_left fun ⟨purpose, startsAt, few⟩ =>
      ⟨purpose, startsAt, ?_⟩
    rw [unmaps.mappers taskLive, count, unmaps.build]
    by_cases own : MapsPage (s.vm.pgd task) (ptePa (entryOf s.vm other slot))
    · rw [Finset.card_erase_of_mem (mem_mappers.mpr ⟨taskLive, own⟩), unmaps.released.lowered own]
      exact Nat.sub_le_sub_right few 1
    · rw [Finset.erase_eq_of_notMem (fun member => own (mem_mappers.mp member).2),
        unmaps.released.kept (aligned_ptePa _) own]
      exact few
  savedRegs := by
    intro other inLive saved
    simp only [unmaps.savedRegs, unmaps.heap] at saved ⊢
    have owns := sound.savedRegs (unmaps.was_live taskLive inLive) saved
    exact owns.freeAll (sound.saved_kept taskLive unmaps owns)
  savedApart := by
    intro a b liveA liveB different saved
    simp only [unmaps.savedRegs] at saved ⊢
    exact sound.savedApart (unmaps.was_live taskLive liveA)
      (unmaps.was_live taskLive liveB) different saved

end Unmapped

/-! ## Forking -/

theorem Sound.fork {s : Traced} {t : Vm} {parent child : ℕ} (sound : Sound s)
    (parentLive : parent ∈ s.vm.live) (childNew : child ∉ s.vm.live)
    (forks : Forks s.vm t parent child) (room : Room s.vm parent) :
    Sound ⟨t, Function.update s.madeFor child (s.madeFor parent)⟩ := by
  refine ⟨sound.separate.fork forks parentLive, ?_, ?_, ?_, ?_, ?_⟩
  · intro other slot inLive there
    obtain ⟨was, same⟩ := forks.toCopies.entry there
    simp only [update_origin, same]
    exact (forks.heap.kept (sound.within (forks.was_live parentLive inLive) was)).1
  · intro other slot inLive there
    obtain ⟨was, -⟩ := forks.toCopies.entry there
    have start := sound.start (forks.was_live parentLive inLive) was
    obtain ⟨within, startsAt, -⟩ := forks.heap.kept start
    simp only [update_origin, startsAt]
    exact within
  · intro other slot inLive there
    obtain ⟨was, same⟩ := forks.toCopies.entry there
    have wasLive := forks.was_live parentLive inLive
    obtain ⟨-, startsAt, purpose⟩ := forks.heap.kept (sound.within wasLive was)
    simp only [Backed, update_origin, same, startsAt, purpose]
    refine (sound.backed wasLive was).imp_left fun ⟨user, first, few⟩ => ⟨user, first, ?_⟩
    obtain ⟨shared, unshared⟩ :=
      forks.mappers childNew (ptePa (entryOf s.vm (origin parent child other) slot))
    by_cases own : MapsPage (s.vm.pgd parent)
      (ptePa (entryOf s.vm (origin parent child other) slot))
    · have new : child ∉ mappers s.vm (ptePa (entryOf s.vm (origin parent child other) slot)) :=
        fun member =>
        childNew (mem_mappers.mp member).1
      have small := room _ own
      rw [shared own, Finset.card_insert_of_notMem new, forks.raised (aligned_ptePa _) own,
        Nat.mod_eq_of_lt (by omega)]
      exact Nat.succ_le_succ few
    · rw [unshared own, forks.kept (aligned_ptePa _) own]
      exact few
  · intro other inLive saved
    simp only [forks.savedRegs] at saved ⊢
    rcases eq_or_ne other child with rfl | notChild
    · exact absurd (Function.update_self _ _ _) saved
    · have wasLive := forks.was_live parentLive inLive
      rw [origin_of_ne notChild] at wasLive
      rw [Function.update_of_ne notChild] at saved ⊢
      exact forks.heap.owns (sound.savedRegs wasLive saved)
  · intro a b liveA liveB different saved
    simp only [forks.savedRegs] at saved ⊢
    rcases eq_or_ne a child with rfl | notA
    · exact absurd (Function.update_self _ _ _) saved
    rw [Function.update_of_ne notA] at saved ⊢
    rcases eq_or_ne b child with rfl | notB
    · rw [Function.update_self]
      exact saved
    · have wasA := forks.was_live parentLive liveA
      have wasB := forks.was_live parentLive liveB
      rw [origin_of_ne notA] at wasA
      rw [origin_of_ne notB] at wasB
      rw [Function.update_of_ne notB]
      exact sound.savedApart wasA wasB different saved

/-! ## Returning from a handler -/

theorem Sound.purpose_ne {s : Traced} (sound : Sound s) {task : ℕ} {slot : Slot}
    (taskLive : task ∈ s.vm.live) (there : present (entryOf s.vm task slot) = true) :
    s.vm.heap.purpose (s.madeFor task slot) ≠ .savedRegs ∧
    s.vm.heap.purpose (s.madeFor task slot) ≠ .table := by
  rcases sound.backed taskLive there with ⟨purpose, -⟩ | purpose
  · rw [purpose]
    decide
  · rw [purpose]
    decide

theorem sysSigreturn_eq {s : Vm} {task : ℕ} (saved : s.savedRegs task ≠ 0#64) :
    s.sysSigreturn task = { s with
    heap := s.heap.freeAll [s.signalStack task, s.savedRegs task]
    savedRegs := Function.update s.savedRegs task 0#64
    signalStack := Function.update s.signalStack task 0#64 } := by
  rw [Vm.sysSigreturn, if_pos saved]
  rfl

/-- What a return passes back are two allocations, and neither is a table. -/
theorem returned_apart {h : Allocations Word Purpose} {stack frame : Word}
    (isStack : h.Owns stack .signalStack) (isFrame : h.Owns frame .savedRegs) :
    [stack, frame].Nodup ∧ ∀ a ∈ [stack, frame], ∃ id, h.Within a id ∧ h.purpose id ≠ .table := by
  have apart : stack ≠ frame := fun same =>
    absurd (isStack.unique (same ▸ isFrame)) (by decide)
  refine ⟨List.nodup_cons.mpr
    ⟨fun member => apart (List.mem_singleton.mp member), List.nodup_singleton _⟩, ?_⟩
  intro a member
  rcases List.mem_cons.mp member with rfl | isFrame'
  · obtain ⟨id, within, -, purpose⟩ := isStack
    exact ⟨id, within, by rw [purpose]; decide⟩
  · obtain rfl := List.mem_singleton.mp isFrame'
    obtain ⟨id, within, -, purpose⟩ := isFrame
    exact ⟨id, within, by rw [purpose]; decide⟩

theorem Sound.sysSigreturn {s : Traced} {task : ℕ} (sound : Sound s) (taskLive : task ∈ s.vm.live)
    (safe : s.vm.savedRegs task = 0#64 ∨ StackUnmapped s task) :
    Sound { s with vm := s.vm.sysSigreturn task } := by
  rcases eq_or_ne (s.vm.savedRegs task) 0#64 with none | saved
  · have same : s.vm.sysSigreturn task = s.vm := if_neg (fun other => other none)
    rw [same]
    exact sound
  obtain ⟨stack, unmapped⟩ := safe.resolve_left saved
  have frame := sound.savedRegs taskLive saved
  -- No entry is in an allocation that is passed back.
  have kept : ∀ {other slot}, other ∈ s.vm.live → present (entryOf s.vm other slot) = true →
      s.vm.heap.start (s.madeFor other slot) ∉ [s.vm.signalStack task, s.vm.savedRegs task] := by
    intro other slot otherLive there member
    rcases List.mem_cons.mp member with isStack | isFrame
    · exact unmapped other otherLive slot there isStack
    · have within := sound.start otherLive there
      rw [List.mem_singleton.mp isFrame] at within
      exact (sound.purpose_ne otherLive there).1 (purpose_unique within frame).2
  rw [sysSigreturn_eq saved]
  refine ⟨?_, ?_, ?_, ?_, ?_, ?_⟩
  · obtain ⟨nodup, inUse⟩ := returned_apart stack frame
    refine sound.separate.free rfl rfl rfl rfl nodup inUse ?_
    rintro other pa id otherLive ⟨slot, there, rfl⟩ within
    have sameId : id = s.madeFor other slot :=
      Option.some.inj (within.1.symm.trans (sound.within otherLive there).1)
    rw [sameId]
    exact kept otherLive there
  · intro other slot otherLive there
    exact (sound.within otherLive there).freeAll (kept otherLive there)
  · intro other slot otherLive there
    simp only [Allocations.freeAll_start]
    exact (sound.start otherLive there).freeAll (kept otherLive there)
  · intro other slot otherLive there
    have backed := sound.backed otherLive there
    simp only [Backed, Allocations.freeAll_purpose, Allocations.freeAll_start]
    exact backed
  · intro other otherLive saved'
    rcases eq_or_ne other task with rfl | different
    · exact absurd (Function.update_self _ _ _) saved'
    simp only [Function.update_of_ne different] at saved' ⊢
    have owns := sound.savedRegs otherLive saved'
    apply owns.freeAll
    intro member
    rcases List.mem_cons.mp member with isStack | isFrame
    · obtain ⟨id, within, -, purpose⟩ := stack
      have purpose' := (purpose_unique within (isStack ▸ owns)).2
      exact absurd (purpose.symm.trans purpose') (by decide)
    · exact sound.savedApart otherLive taskLive different saved' (List.mem_singleton.mp isFrame)
  · intro a b liveA liveB different saved'
    rcases eq_or_ne a task with rfl | notA
    · exact absurd (Function.update_self _ _ _) saved'
    simp only [Function.update_of_ne notA] at saved' ⊢
    rcases eq_or_ne b task with rfl | notB
    · rw [Function.update_self]
      exact saved'
    · rw [Function.update_of_ne notB]
      exact sound.savedApart liveA liveB different saved'

/-! ## Delivering a signal -/

section Stack

variable (pages : Vm.SignalPages)

/-- The pages of the new stack and their entries. -/
def stackPa (i : Fin 4) : Word := virtToPhys pages.signalStack + BitVec.ofNat 64 (i * 4096)

def stackPte (i : Fin 4) : Word := makePte (stackPa pages i) ((protUserRw ||| pteX) ||| pteV)

theorem physToVirt_stackPa (i : Fin 4) :
    physToVirt (stackPa pages i) = pages.signalStack + BitVec.ofNat 64 (i * 4096) := by
  rw [stackPa, physToVirt, virtToPhys]
  bv_omega

theorem stackPa_injective : Function.Injective (stackPa pages) := by
  intro i j same
  have equal := (BitVec.add_right_inj _).mp same
  have numbers := congrArg BitVec.toNat equal
  rw [BitVec.toNat_ofNat, BitVec.toNat_ofNat] at numbers
  omega

private theorem signalSlot_injective : Function.Injective Vm.signalSlot := by
  intro i j same
  simp only [Vm.signalSlot, Prod.mk.injEq, Fin.mk.injEq, true_and] at same
  exact Fin.ext same

variable {pages}

private theorem present_stackPte (i : Fin 4) : present (stackPte pages i) = true := by
  rw [present_eq, stackPte, getLsbD_makePte (by decide)]
  decide

theorem ptePa_stackPte {i : Fin 4} (aligned : Aligned (stackPa pages i)) :
    ptePa (stackPte pages i) = stackPa pages i :=
  ptePa_makePte aligned (by decide)

private theorem mapStack_fold {s t : Vm} {task : ℕ} {places : List (Fin 4)} (nodup : places.Nodup)
    (all : Tables s) (taskLive : task ∈ s.live)
    (result : places.foldlM (fun s i => s.pagewalk task (Vm.signalSlot i)
      (virtToPhys pages.signalStack + BitVec.ofNat 64 (i * 4096))
      (protUserRw ||| pteX) pages.pmd pages.pte) s = some t) :
    Tables t ∧ t = { s with heap := t.heap, pgd := t.pgd } ∧ s.heap.Extends t.heap ∧
      (∀ other, other ≠ task → t.pgd other = s.pgd other) ∧
      (∀ i ∈ places, entryOf t task (Vm.signalSlot i) = stackPte pages i) ∧
      ∀ slot, (∀ i ∈ places, slot ≠ Vm.signalSlot i) →
      entryOf t task slot = entryOf s task slot := by
  induction places generalizing s with
  | nil =>
    obtain rfl := Option.some.inj result
    exact ⟨all, rfl, .refl all.valid, fun _ _ => rfl,
      fun i member => absurd member List.not_mem_nil, fun _ _ => rfl⟩
  | cons i rest ih =>
    obtain ⟨notIn, nodupRest⟩ := List.nodup_cons.mp nodup
    obtain ⟨mid, first, others⟩ := Option.bind_eq_some_iff.mp result
    have walked : Walked s mid task (Vm.signalSlot i) (stackPte pages i) :=
      pagewalk_walked all.valid (fun here => by
        obtain ⟨id, within, -⟩ := all.table taskLive (.inr ⟨_, here⟩)
        exact ⟨id, within⟩) first
    obtain ⟨final, frame, grown, untouched, mapped, kept⟩ := ih nodupRest (all.walk walked)
      (by rw [walked.frame]; exact taskLive) others
    have entry : ∀ slot, entryOf mid task slot =
        Function.update (entryOf s task) (Vm.signalSlot i) (stackPte pages i) slot :=
      fun slot => congrFun walked.entry slot
    refine ⟨final, ?_, walked.heap.trans grown, ?_, ?_, ?_⟩
    · rw [frame, walked.frame]
    · intro other different
      rw [untouched other different, walked.others different]
    · intro j member
      rcases List.mem_cons.mp member with rfl | later
      · have distinct : ∀ k ∈ rest, Vm.signalSlot j ≠ Vm.signalSlot k := by
          intro k inRest same
          rw [← signalSlot_injective same] at inRest
          exact notIn inRest
        rw [kept _ distinct, entry, Function.update_self]
      · exact mapped j later
    · intro slot outside
      rw [kept slot fun j member => outside j (List.mem_cons_of_mem _ member), entry,
        Function.update_of_ne (outside i List.mem_cons_self)]

/-- A delivery saves the frame and maps a new stack. -/
structure Delivers (s t : Vm) (task : ℕ) (pages : Vm.SignalPages) : Prop where
  tables : Tables t
  build : t.build = s.build
  ram : t.ram = s.ram
  live : t.live = s.live
  sigHandler : t.sigHandler = s.sigHandler
  pageRefs : ∀ pa, count t pa = count s pa
  savedRegs : t.savedRegs = Function.update s.savedRegs task pages.savedRegs
  signalStack : t.signalStack = Function.update s.signalStack task pages.signalStack
  heap : s.heap.Extends t.heap
  others : ∀ other, other ≠ task → t.pgd other = s.pgd other
  mapped : ∀ i, entryOf t task (Vm.signalSlot i) = stackPte pages i
  kept : ∀ slot, (∀ i, slot ≠ Vm.signalSlot i) → entryOf t task slot = entryOf s task slot
  counted : ∀ i, Counted s.build (stackPa pages i)
  stack : ∃ id, (∀ a ∈ Vm.region pages.signalStack stackSize.toNat, t.heap.Within a id) ∧
    t.heap.start id = pages.signalStack ∧ t.heap.purpose id = .signalStack
  stackNew : ∀ a ∈ Vm.region pages.signalStack stackSize.toNat, ∀ id, ¬ s.heap.Within a id
  saved : ∃ id, (∀ a ∈ Vm.region pages.savedRegs Vm.sizeofPtRegs, t.heap.Within a id) ∧
    t.heap.start id = pages.savedRegs ∧ t.heap.purpose id = .savedRegs
  savedNew : ∀ a ∈ Vm.region pages.savedRegs Vm.sizeofPtRegs, ∀ id, ¬ s.heap.Within a id

theorem allocate_spec {s t : Vm} {va : Word} {length : ℕ} {purpose : Purpose} (valid : s.heap.Valid)
    (result : s.allocate va length purpose = some t) :
    ∃ heap, t = { s with heap := heap } ∧ s.heap.Extends heap ∧
      heap.start s.heap.count = va ∧ heap.purpose s.heap.count = purpose ∧
      ∀ a ∈ Vm.region va length, heap.Within a s.heap.count ∧ ∀ id, ¬ s.heap.Within a id := by
  obtain ⟨heap, allocated, rfl⟩ := Option.map_eq_some_iff.mp result
  obtain ⟨available, equal⟩ := Allocations.allocate_eq allocated
  refine ⟨heap, rfl, .of_allocate valid allocated, ?_, ?_,
    fun a member => ⟨?_, fun id within => ?_⟩⟩
  · rw [equal]
    exact Function.update_self _ _ _
  · rw [equal]
    exact Function.update_self _ _ _
  · exact (Allocations.within_new valid.numbered allocated member).1
  · have free := available a member
    rw [within.not_available] at free
    exact absurd free (by decide)

/-- The pages of the stack are in its region. -/
theorem mem_stack_of_mem_page {i : Fin 4} {a : Word}
    (member : a ∈ Vm.region (physToVirt (stackPa pages i)) 4096) :
    a ∈ Vm.region pages.signalStack stackSize.toNat := by
  obtain ⟨k, inside, rfl⟩ := List.mem_map.mp member
  have below := List.mem_range.mp inside
  refine List.mem_map.mpr ⟨i * 4096 + k, List.mem_range.mpr ?_, ?_⟩
  · rw [show stackSize.toNat = 16384 from rfl]
    omega
  · rw [physToVirt_stackPa, BitVec.ofNat_add, BitVec.add_assoc]

theorem mem_stack_page (i : Fin 4) :
    physToVirt (stackPa pages i) ∈ Vm.region pages.signalStack stackSize.toNat :=
  mem_stack_of_mem_page (mem_region (by decide))

private theorem allocateStack_spec {s t : Vm} (valid : s.heap.Valid)
    (result : s.allocateStack pages.signalStack = some t) :
    (∀ i, Counted s.build (stackPa pages i)) ∧
    ∃ heap, t = { s with heap := heap } ∧ s.heap.Extends heap ∧
      heap.start s.heap.count = pages.signalStack ∧ heap.purpose s.heap.count = .signalStack ∧
      ∀ a ∈ Vm.region pages.signalStack stackSize.toNat,
        heap.Within a s.heap.count ∧ ∀ id, ¬ s.heap.Within a id := by
  rw [Vm.allocateStack] at result
  split at result
  swap
  · exact absurd result (by simp)
  rename_i every
  refine ⟨fun i => ?_, allocate_spec valid result⟩
  have page := List.all_eq_true.mp every i (List.mem_finRange i)
  rw [← physToVirt_stackPa] at page
  have counted := isPage_spec page
  rwa [virtToPhys_physToVirt] at counted

theorem deliver_delivers {s t : Vm} {task : ℕ} (all : Tables s) (taskLive : task ∈ s.live)
    (due : Due s task) (result : s.checkPendingSignals task pages = some t) :
    Delivers s t task pages := by
  rw [Vm.checkPendingSignals, if_pos (by rw [due.1, decide_eq_true due.2]; rfl)] at result
  obtain ⟨first, frameResult, rest⟩ := Option.bind_eq_some_iff.mp result
  obtain ⟨second, stackResult, rest⟩ := Option.bind_eq_some_iff.mp rest
  obtain ⟨third, mapResult, last⟩ := Option.bind_eq_some_iff.mp rest
  obtain ⟨heap, rfl, grown, frameStart, framePurpose, frameRegion⟩ :=
    allocate_spec all.valid frameResult
  obtain ⟨counted, heap', rfl, grown', start, purpose, region⟩ :=
    allocateStack_spec grown.valid stackResult
  let ready : Vm := { s with
    heap := heap'
    savedRegs := Function.update s.savedRegs task pages.savedRegs
    signalStack := Function.update s.signalStack task pages.signalStack }
  have readyTables : Tables ready := all.extend rfl rfl (grown.trans grown')
  obtain ⟨final, frame, mapGrown, others, mapped, kept⟩ :=
    mapStack_fold (s := ready) (List.nodup_finRange 4) readyTables taskLive mapResult
  have ends : some { third with pending := Function.update third.pending task false } = some t :=
    last
  have framed : t = { ready with heap := third.heap, pgd := third.pgd, pending := t.pending } := by
    rw [← Option.some.inj ends, frame]
  have heapEq : t.heap = third.heap := by rw [framed]
  have pgdEq : t.pgd = third.pgd := by rw [framed]
  have entryEq : ∀ slot, entryOf t task slot = entryOf third task slot :=
    fun slot => by rw [entryOf, pgdEq]; rfl
  have later := grown'.trans mapGrown
  refine ⟨?_, ?_, ?_, ?_, ?_, ?_, ?_, ?_, ?_, ?_, fun i => ?_, fun slot outside => ?_, counted, ?_,
    ?_, ?_, fun a member => (frameRegion a member).2⟩
  · exact final.extend (by rw [framed, frame]) pgdEq (by rw [heapEq]; exact .refl final.valid)
  · rw [framed]
  · rw [framed]
  · rw [framed]
  · rw [framed]
  · intro pa
    rw [count, count, framed]
  · rw [framed]
  · rw [framed]
  · rw [heapEq]
    exact grown.trans later
  · rw [pgdEq]
    exact others
  · rw [entryEq]
    exact mapped i (List.mem_finRange i)
  · rw [entryEq]
    exact kept slot fun i _ => outside i
  · rw [heapEq]
    obtain ⟨-, start', purpose'⟩ :=
      mapGrown.kept (region pages.signalStack (mem_region (by decide))).1
    exact ⟨_, fun a member => (mapGrown.kept (region a member).1).1,
      start'.trans start, purpose'.trans purpose⟩
  · exact fun a member id within => (region a member).2 id (grown.kept within).1
  · rw [heapEq]
    obtain ⟨-, start', purpose'⟩ :=
      later.kept (frameRegion pages.savedRegs (mem_region (by decide))).1
    exact ⟨_, fun a member => (later.kept (frameRegion a member).1).1, start'.trans frameStart,
      purpose'.trans framePurpose⟩

theorem Delivers.pages_new {s t : Vm} {task : ℕ}
    (delivers : Delivers s t task pages) (i : Fin 4) (id : ℕ) :
    ¬ s.heap.Within (physToVirt (stackPa pages i)) id :=
  delivers.stackNew _ (mem_stack_page i) id

theorem Delivers.saved_owned {s t : Vm} {task : ℕ} (delivers : Delivers s t task pages) :
    t.heap.Owns pages.savedRegs .savedRegs := by
  obtain ⟨id, within, start, purpose⟩ := delivers.saved
  exact ⟨id, within _ (mem_region (by decide)), start, purpose⟩

/-- Where an entry of a state after a delivery comes from. -/
theorem Delivers.entry {s t : Vm} {task other : ℕ} (delivers : Delivers s t task pages)
    (slot : Slot) :
    (other = task ∧ ∃ i, slot = Vm.signalSlot i ∧ entryOf t other slot = stackPte pages i) ∨
      (¬ (other = task ∧ ∃ i, slot = Vm.signalSlot i)) ∧
      entryOf t other slot = entryOf s other slot := by
  rcases eq_or_ne other task with rfl | different
  · by_cases signal : ∃ i, slot = Vm.signalSlot i
    · obtain ⟨i, rfl⟩ := signal
      exact .inl ⟨rfl, i, rfl, delivers.mapped i⟩
    · exact .inr ⟨fun both => signal both.2, delivers.kept slot (not_exists.mp signal)⟩
  · refine .inr ⟨fun both => different both.1, ?_⟩
    rw [entryOf, entryOf, delivers.others other different]

theorem Delivers.separate {s t : Vm} {task : ℕ} (delivers : Delivers s t task pages)
    (separate : Separate s) :
    Separate t := by
  have all := delivers.tables
  have old : ∀ {other slot}, other ∈ s.live → present (entryOf s other slot) = true →
      ∀ i, ptePa (entryOf s other slot) ≠ stackPa pages i := by
    intro other slot wasLive was i same
    obtain ⟨-, id, within, -⟩ := separate.page wasLive ⟨slot, was, rfl⟩
    change s.heap.Within (physToVirt (ptePa (entryOf s other slot))) id at within
    rw [same] at within
    exact delivers.pages_new i id within
  refine ⟨all.valid, all.table, all.distinct, all.apart, ?_, ?_⟩
  · intro other inLive a b thereA thereB same
    rw [delivers.live] at inLive
    change present (entryOf t other a) = true at thereA
    change present (entryOf t other b) = true at thereB
    change ptePa (entryOf t other a) = ptePa (entryOf t other b) at same
    rcases delivers.entry a with ⟨-, i, rfl, newA⟩ | ⟨-, oldA⟩
    · rw [newA, ptePa_stackPte (delivers.counted i).1] at same
      rcases delivers.entry b with ⟨-, j, rfl, newB⟩ | ⟨-, oldB⟩
      · rw [newB, ptePa_stackPte (delivers.counted j).1] at same
        rw [stackPa_injective pages same]
      · rw [oldB] at thereB same
        exact absurd same.symm (old inLive thereB i)
    · rw [oldA] at thereA same
      rcases delivers.entry b with ⟨-, j, rfl, newB⟩ | ⟨-, oldB⟩
      · rw [newB, ptePa_stackPte (delivers.counted j).1] at same
        exact absurd same (old inLive thereA j)
      · rw [oldB] at thereB same
        exact separate.injective inLive a b thereA thereB same
  · rintro other pa inLive ⟨slot, there, rfl⟩
    rw [delivers.live] at inLive
    rw [delivers.build]
    change present (entryOf t other slot) = true at there
    change Counted s.build (ptePa (entryOf t other slot)) ∧
      ∃ id, t.heap.Within (physToVirt (ptePa (entryOf t other slot))) id ∧
        t.heap.purpose id ≠ .table
    rcases delivers.entry slot with ⟨-, i, -, new⟩ | ⟨-, same⟩
    · obtain ⟨id, within, -, purpose⟩ := delivers.stack
      rw [new, ptePa_stackPte (delivers.counted i).1]
      exact ⟨delivers.counted i, id, within _ (mem_stack_page i), by rw [purpose]; decide⟩
    · rw [same] at there ⊢
      obtain ⟨counted, id, within, purpose⟩ := separate.page inLive ⟨slot, there, rfl⟩
      obtain ⟨within', -, purpose'⟩ := delivers.heap.kept within
      exact ⟨counted, id, within', purpose' ▸ purpose⟩

/-- No page that was mapped before is mapped by more tasks. -/
theorem Delivers.mappers_subset {s t : Vm} {task : ℕ} (delivers : Delivers s t task pages)
    {pa : Word} {id : ℕ} (within : s.heap.Within (physToVirt pa) id) :
    mappers t pa ⊆ mappers s pa := by
  intro other member
  obtain ⟨inLive, slot, there, same⟩ := mem_mappers.mp member
  change present (entryOf t other slot) = true at there
  change ptePa (entryOf t other slot) = pa at same
  rw [delivers.live] at inLive
  rcases delivers.entry slot with ⟨-, i, -, new⟩ | ⟨-, old⟩
  · rw [new, ptePa_stackPte (delivers.counted i).1] at same
    exact absurd (same ▸ within) (delivers.pages_new i id)
  · rw [old] at there same
    exact mem_mappers.mpr ⟨inLive, slot, there, same⟩

theorem Sound.deliver {s : Traced} {t : Vm} {task : ℕ} (sound : Sound s)
    (taskLive : task ∈ s.vm.live) (result : s.vm.checkPendingSignals task pages = some t) :
    Sound ⟨t, delivered s t task⟩ := by
  by_cases due : Due s.vm task
  swap
  · have nothing : (s.vm.pending task && decide (s.vm.sigHandler task ≠ 0#64)) ≠ true := by
      rw [Ne, Bool.and_eq_true, decide_eq_true_iff]
      exact due
    rw [Vm.checkPendingSignals, if_neg nothing] at result
    obtain rfl := Option.some.inj result
    have same : delivered s s.vm task = s.madeFor := by
      funext other slot
      exact if_neg fun all => due all.1
    rw [same]
    exact sound
  have delivers := deliver_delivers sound.separate.tables taskLive due result
  obtain ⟨id, stackWithin, stackStart, stackPurpose⟩ := delivers.stack
  have firstWithin : t.heap.Within (t.heap.start id) id := by
    rw [stackStart]
    exact stackWithin _ (mem_region (by decide))
  -- An entry is either new, in the new stack, or was there before.
  have cases : ∀ {other slot}, other ∈ t.live → present (entryOf t other slot) = true →
      (delivered s t task other slot = id ∧
        t.heap.Within (physToVirt (ptePa (entryOf t other slot))) id) ∨
        (delivered s t task other slot = s.madeFor other slot ∧
          entryOf t other slot = entryOf s.vm other slot ∧
          other ∈ s.vm.live ∧ present (entryOf s.vm other slot) = true) := by
    intro other slot inLive there
    rw [delivers.live] at inLive
    rcases delivers.entry slot with ⟨isTask, i, isSignal, new⟩ | ⟨notHere, old⟩
    · left
      have within := stackWithin _ (mem_stack_page i)
      rw [new, ptePa_stackPte (delivers.counted i).1]
      refine ⟨?_, within⟩
      rw [delivered, if_pos ⟨due, isTask, i, isSignal⟩, allocationOf, ← isTask, new,
        ptePa_stackPte (delivers.counted i).1, within.1, Option.getD_some]
    · right
      rw [old] at there
      exact ⟨if_neg fun all => notHere all.2, old, inLive, there⟩
  refine ⟨delivers.separate sound.separate, ?_, ?_, ?_, ?_, ?_⟩
  · intro other slot inLive there
    rcases cases inLive there with ⟨made, within⟩ | ⟨made, same, wasLive, was⟩
    · simp only [made]
      exact within
    · simp only [made, same]
      exact (delivers.heap.kept (sound.within wasLive was)).1
  · intro other slot inLive there
    rcases cases inLive there with ⟨made, -⟩ | ⟨made, -, wasLive, was⟩
    · simp only [made]
      exact firstWithin
    · obtain ⟨within, startsAt, -⟩ := delivers.heap.kept (sound.start wasLive was)
      simp only [made, startsAt]
      exact within
  · intro other slot inLive there
    rcases cases inLive there with ⟨made, -⟩ | ⟨made, same, wasLive, was⟩
    · simp only [made]
      exact .inr stackPurpose
    · have within := sound.within wasLive was
      obtain ⟨-, startsAt, purpose⟩ := delivers.heap.kept within
      simp only [Backed, made, same, startsAt, purpose, delivers.pageRefs]
      refine (sound.backed wasLive was).imp_left fun ⟨user, first, few⟩ => ⟨user, first, ?_⟩
      exact le_trans (Finset.card_le_card (delivers.mappers_subset within)) few
  · intro other inLive saved
    simp only [delivers.live, delivers.savedRegs] at inLive saved ⊢
    rcases eq_or_ne other task with rfl | different
    · rw [Function.update_self]
      exact delivers.saved_owned
    · rw [Function.update_of_ne different] at saved ⊢
      exact delivers.heap.owns (sound.savedRegs inLive saved)
  · intro a b liveA liveB different saved
    simp only [delivers.live, delivers.savedRegs] at liveA liveB saved ⊢
    have fresh : ∀ {other}, other ∈ s.vm.live → s.vm.savedRegs other ≠ 0#64 →
        s.vm.savedRegs other ≠ pages.savedRegs := by
      intro other otherLive otherSaved same
      obtain ⟨old, within, -⟩ := sound.savedRegs otherLive otherSaved
      exact delivers.savedNew _ (mem_region (by decide)) old (same ▸ within)
    rcases eq_or_ne a task with rfl | notA
    · rw [Function.update_self] at saved ⊢
      rw [Function.update_of_ne different.symm]
      intro same
      exact fresh liveB (same ▸ saved) same.symm
    rw [Function.update_of_ne notA] at saved ⊢
    rcases eq_or_ne b task with rfl | notB
    · rw [Function.update_self]
      exact fresh liveA saved
    · rw [Function.update_of_ne notB]
      exact sound.savedApart liveA liveB different saved

end Stack

/-! ## Runs -/

theorem Sound.step {s t : Traced} {event : Event} (sound : Sound s)
    (step : (transitions.restrict Safe).Step s event t) : Sound t := by
  obtain ⟨safe, step⟩ := step
  cases step with
  | sysSignal => exact ⟨⟨sound.separate.valid, sound.separate.table, sound.separate.distinct,
      sound.separate.apart, sound.separate.injective, sound.separate.page⟩, sound.within,
      sound.start, sound.backed, sound.savedRegs,
      sound.savedApart⟩
  | sysKill =>
    rename_i task
    have same : s.vm.sysKill task = { s.vm with pending := (s.vm.sysKill task).pending } := by
      rw [Vm.sysKill]
      split <;> rfl
    rw [same]
    exact ⟨⟨sound.separate.valid, sound.separate.table, sound.separate.distinct,
      sound.separate.apart, sound.separate.injective, sound.separate.page⟩, sound.within,
      sound.start, sound.backed, sound.savedRegs,
      sound.savedApart⟩
  | deliver taskLive result => exact sound.deliver taskLive result
  | sysSigreturn taskLive => exact sound.sysSigreturn taskLive safe
  | sysFork parentLive childNew result =>
    exact sound.fork parentLive childNew (fork_forks sound.separate parentLive childNew result) safe
  | exec taskLive =>
    obtain ⟨gone, unmaps, -⟩ := exec_unmaps sound.separate taskLive
    exact sound.unmap taskLive unmaps safe
  | exit taskLive =>
    obtain ⟨gone, unmaps, -⟩ := exit_unmaps sound.separate taskLive
    exact sound.unmap taskLive unmaps safe

/-- Processes with installed pages, before any signal. -/
def start (s : Vm) : Traced := ⟨s, allocationOf s⟩

private theorem sound_start {s : Vm} (installed : RefCounts.Installed s)
    (quiet : ∀ task, s.savedRegs task = 0#64) :
    Sound (start s) := by
  have exact := installed.exact
  have owned : ∀ {task slot}, task ∈ s.live → present (entryOf s task slot) = true →
      s.heap.Within (physToVirt (ptePa (entryOf s task slot))) (allocationOf s task slot) ∧
        s.heap.start (allocationOf s task slot) = physToVirt (ptePa (entryOf s task slot)) ∧
        s.heap.purpose (allocationOf s task slot) = .userPage := by
    intro task slot taskLive there
    obtain ⟨id, within, startsAt, purpose⟩ := installed.owned taskLive ⟨slot, there, rfl⟩
    have number : allocationOf s task slot = id := by
      rw [allocationOf]
      exact congrArg (·.getD 0) within.1
    rw [number]
    exact ⟨within, startsAt, purpose⟩
  refine ⟨installed.separate, fun taskLive there => (owned taskLive there).1,
    fun {task slot} taskLive there => ?_, fun {task slot} taskLive there => ?_,
    fun _ saved => absurd (quiet _) saved, fun _ _ _ saved => absurd (quiet _) saved⟩
  · obtain ⟨within, startsAt, -⟩ := owned taskLive there
    change s.heap.Within (s.heap.start (allocationOf s task slot)) (allocationOf s task slot)
    rw [startsAt]
    exact within
  · obtain ⟨-, startsAt, purpose⟩ := owned taskLive there
    exact .inl ⟨purpose, startsAt, le_of_eq (exact.counted taskLive ⟨slot, there, rfl⟩).symm⟩

/-- In every run that avoids the steps excluded by `Safe`, every valid entry points into the
allocation it was made for, which is still in use, and no allocation is passed to `free` twice. -/
theorem no_dangling_mapping {s : Vm} {t : Traced} {events : List Event}
    (installed : RefCounts.Installed s) (quiet : ∀ task, s.savedRegs task = 0#64)
    (run : System.Path (transitions.restrict Safe) (start s) events t) :
    NoDangling t ∧ t.vm.heap.freed.Nodup := by
  have sound : Sound t :=
    run.invariant (fun sound step => Sound.step sound step) (sound_start installed quiet)
  exact ⟨fun task taskLive slot there => sound.within taskLive there, sound.separate.valid.once⟩

/-! ## The process that returns from a handler -/

section Return

open RefCounts (firstFrame pageVa isPage_pageVa oneProcess oneProcess_installed)

/-- No allocation was ever made from this frame on. -/
def FreshFrom (s : Vm) (n : ℕ) : Prop :=
  ∀ a, firstFrame + n ≤ (frame a).toNat → s.heap.home a = none

theorem frame_of_mem_frames {n length : ℕ} {a : Word} (small : n + length < 2 ^ 20)
    (member : a ∈ Vm.region (pageVa n) length) :
    firstFrame + n ≤ (frame a).toNat ∧
    (frame a).toNat * 4096 < (firstFrame + n) * 4096 + length := by
  obtain ⟨i, inside, rfl⟩ := List.mem_map.mp member
  have below := List.mem_range.mp inside
  rw [frame, pageVa, physToVirt, BitVec.toNat_ushiftRight, BitVec.toNat_add, BitVec.toNat_add,
    BitVec.toNat_ofNat, BitVec.toNat_ofNat, Nat.shiftRight_eq_div_pow,
    show pageOffset.toNat = 0xffffffc000000000 from rfl, firstFrame]
  omega

theorem allocate_fresh {s : Vm} {n : ℕ} (k length : ℕ) (purpose : Purpose) (fresh : FreshFrom s n)
    (small : n + length < 2 ^ 20) (fits : length ≤ k * 4096) :
    ∃ heap, s.allocate (pageVa n) length purpose = some { s with heap := heap } ∧
      FreshFrom { s with heap := heap } (n + k) := by
  have unused : ∀ a ∈ Vm.region (pageVa n) length, s.heap.home a = none := fun a member =>
    fresh a (frame_of_mem_frames small member).1
  obtain ⟨heap, allocated, others⟩ := s.heap.allocate_succeeds (pageVa n) purpose unused
  refine ⟨heap, ?_, fun a beyond => ?_⟩
  · rw [Vm.allocate, allocated, Option.map_some]
  · refine (others a fun member => ?_).trans (fresh a (by omega))
    have last := (frame_of_mem_frames small member).2
    omega

theorem walkLevel_fresh {τ : Type} {s : Vm} {n : ℕ} (found : Option τ) (empty : τ)
    (build : s.build = .board) (fresh : FreshFrom s n) (small : n < 1000) :
    ∃ heap used, s.walkLevel found (pageVa n) empty = some ({ s with heap := heap }, used) ∧
      FreshFrom { s with heap := heap } (n + 1) := by
  cases found with
  | some table => exact ⟨s.heap, table, rfl, fun a beyond => fresh a (by omega)⟩
  | none =>
    obtain ⟨heap, allocated, fresh'⟩ := allocate_fresh 1 4096 .table fresh (by omega) (by omega)
    refine ⟨heap, empty, ?_, fresh'⟩
    rw [Vm.walkLevel, Vm.allocatePage, if_pos (isPage_pageVa build (by omega)), allocated]
    rfl

theorem pagewalk_hasTable {s t : Vm} {task : ℕ} {slot other : Slot} {pa prot newPmd newPte : Word}
    (same : other.1 = slot.1 ∧ other.2.1 = slot.2.1)
    (result : s.pagewalk task slot pa prot newPmd newPte = some t) :
    HasTable t task other := by
  obtain ⟨⟨first, pmd⟩, -, rest⟩ := Option.bind_eq_some_iff.mp result
  obtain ⟨⟨second, table⟩, -, last⟩ := Option.bind_eq_some_iff.mp rest
  obtain rfl := Option.some.inj last
  rw [HasTable, same.1, same.2]
  simp [nodeVa]

/-- Nor does it take any. -/
private theorem pagewalk_heap {s t : Vm} {task : ℕ} {slot : Slot} {pa prot newPmd newPte : Word}
    (table : HasTable s task slot) (result : s.pagewalk task slot pa prot newPmd newPte = some t) :
    t.heap = s.heap := by
  obtain ⟨pmd, found, upper, lower⟩ := table.entries
  simp only [Vm.pagewalk, Vm.walkLevel, upper, lower, Option.bind_eq_bind,
    Option.bind_some] at result
  rw [← Option.some.inj result]

private theorem mapStack_succeeds {s : Vm} {task : ℕ} (pages : Vm.SignalPages)
    (places : List (Fin 4)) (table : HasTable s task (Vm.signalSlot 0)) :
    ∃ t, places.foldlM (fun s i => s.pagewalk task (Vm.signalSlot i)
      (virtToPhys pages.signalStack + BitVec.ofNat 64 (i * 4096))
      (protUserRw ||| pteX) pages.pmd pages.pte) s = some t ∧
      t.heap = s.heap := by
  induction places generalizing s with
  | nil => exact ⟨s, rfl, rfl⟩
  | cons i rest ih =>
    have here : HasTable s task (Vm.signalSlot i) := table
    obtain ⟨mid, first⟩ := pagewalk_succeeds here
      (virtToPhys pages.signalStack + BitVec.ofNat 64 (i * 4096))
      (protUserRw ||| pteX) pages.pmd pages.pte
    have still : HasTable mid task (Vm.signalSlot 0) := by
      apply pagewalk_hasTable _ first
      exact ⟨rfl, rfl⟩
    obtain ⟨t, others, heap⟩ := ih still
    exact ⟨t, Option.bind_eq_some_iff.mpr ⟨mid, first, others⟩,
      heap.trans (pagewalk_heap here first)⟩

/-- The addresses of a delivery that takes the frames from `n` on. -/
def freshPages (n : ℕ) : Vm.SignalPages where
  savedRegs := pageVa n
  signalStack := pageVa (n + 1)
  pmd := pageVa (n + 5)
  pte := pageVa (n + 6)

theorem pageVa_add (n i : ℕ) : pageVa n + BitVec.ofNat 64 (i * 4096) = pageVa (n + i) := by
  rw [pageVa, pageVa, physToVirt, physToVirt, BitVec.add_assoc, BitVec.add_comm pageOffset,
    ← BitVec.add_assoc, ← BitVec.ofNat_add, ← Nat.add_mul]

/-- A delivery succeeds where its allocations do, and takes seven frames at most. -/
theorem deliver_succeeds {s : Vm} {n : ℕ} (task : ℕ) (build : s.build = .board)
    (fresh : FreshFrom s n) (small : n < 900) :
    ∃ t, s.checkPendingSignals task (freshPages n) = some t ∧ FreshFrom t (n + 7) := by
  rw [Vm.checkPendingSignals]
  split
  swap
  · exact ⟨s, rfl, fun a beyond => fresh a (by omega)⟩
  obtain ⟨frameHeap, frameResult, fresh⟩ := allocate_fresh 1 Vm.sizeofPtRegs .savedRegs fresh
    (by rw [show Vm.sizeofPtRegs = 280 from rfl]; omega) (by decide)
  let framed : Vm := { s with
    heap := frameHeap
    savedRegs := Function.update s.savedRegs task (freshPages n).savedRegs }
  obtain ⟨stackHeap, stackResult, fresh⟩ :=
    allocate_fresh (s := framed) 4 stackSize.toNat .signalStack
    fresh (by rw [show stackSize.toNat = 16384 from rfl]; omega) (by decide)
  have stackPages : framed.allocateStack (freshPages n).signalStack =
      some { framed with heap := stackHeap } := by
    rw [Vm.allocateStack, if_pos]
    · exact stackResult
    · refine List.all_eq_true.mpr fun i _ => ?_
      rw [freshPages, pageVa_add]
      exact isPage_pageVa build (by omega)
  let ready : Vm := { framed with
    heap := stackHeap
    signalStack := Function.update s.signalStack task (freshPages n).signalStack }
  -- The first page may need both tables; the others find them.
  obtain ⟨pmdHeap, pmd, pmdResult, fresh⟩ := walkLevel_fresh (s := ready) ((s.pgd task).entry 1)
    ⟨(freshPages n).pmd, fun _ => none⟩ build fresh (by omega)
  obtain ⟨pteHeap, table, pteResult, fresh⟩ :=
    walkLevel_fresh (s := { ready with heap := pmdHeap }) (pmd.entry 128)
    ⟨(freshPages n).pte, fun _ => 0#64⟩ build fresh (by omega)
  obtain ⟨first, firstResult, firstHeap⟩ : ∃ t, ready.pagewalk task (Vm.signalSlot 0)
      (virtToPhys (freshPages n).signalStack + BitVec.ofNat 64 ((0 : Fin 4) * 4096))
      (protUserRw ||| pteX)
      (freshPages n).pmd (freshPages n).pte = some t ∧ t.heap = pteHeap :=
    ⟨_, Option.bind_eq_some_iff.mpr ⟨_, pmdResult, Option.bind_eq_some_iff.mpr ⟨_, pteResult, rfl⟩⟩,
      rfl⟩
  obtain ⟨mapped, others, mappedHeap⟩ :=
    mapStack_succeeds (freshPages n) [1, 2, 3] (pagewalk_hasTable ⟨rfl, rfl⟩ firstResult)
  have mapResult : ready.mapSignalStack task (freshPages n) = some mapped :=
    Option.bind_eq_some_iff.mpr ⟨first, firstResult, others⟩
  refine ⟨_, Option.bind_eq_some_iff.mpr ⟨_, frameResult, Option.bind_eq_some_iff.mpr
    ⟨_, stackPages, Option.bind_eq_some_iff.mpr ⟨mapped, mapResult, rfl⟩⟩⟩, fun a beyond => ?_⟩
  have home : mapped.heap.home a = pteHeap.home a := by rw [mappedHeap, firstHeap]
  exact home.trans (fresh a beyond)

/-- `sys_sigreturn` frees the stack of a delivered signal and leaves its entries valid. -/
private theorem return_dangles {s : Traced} {t : Vm} {task : ℕ} {pages : Vm.SignalPages}
    (separate : Separate s.vm) (taskLive : task ∈ s.vm.live) (due : Due s.vm task)
    (saved : pages.savedRegs ≠ 0#64) (result : s.vm.checkPendingSignals task pages = some t) :
    ¬ NoDangling ⟨t.sysSigreturn task, delivered s t task⟩ := by
  intro noDangling
  have delivers := deliver_delivers separate.tables taskLive due result
  obtain ⟨id, stackWithin, startsAt, -⟩ := delivers.stack
  have within := stackWithin _ (mem_stack_page 0)
  have mine : t.savedRegs task ≠ 0#64 := by
    rw [delivers.savedRegs, Function.update_self]
    exact saved
  have madeFor : delivered s t task task (Vm.signalSlot 0) = id := by
    rw [delivered, if_pos ⟨due, rfl, 0, rfl⟩, allocationOf, delivers.mapped,
      ptePa_stackPte (delivers.counted 0).1, within.1, Option.getD_some]
  have there : present (entryOf t task (Vm.signalSlot 0)) = true := by
    rw [delivers.mapped]
    exact present_stackPte 0
  have notFreed : delivered s t task task (Vm.signalSlot 0) ∉
      (t.heap.freeAll [t.signalStack task, t.savedRegs task]).freed := by
    have inUse := noDangling task
    rw [sysSigreturn_eq mine] at inUse
    exact (inUse (delivers.live ▸ taskLive) (Vm.signalSlot 0) there).2
  rw [madeFor] at notFreed
  apply notFreed
  refine (Allocations.mem_freed_freeAll _).mpr (.inr ⟨?_, ?_⟩)
  · have home := within.1
    rw [physToVirt_stackPa] at home
    rw [startsAt, ← home]
    exact congrArg t.heap.home (BitVec.add_zero _).symm
  · rw [startsAt, delivers.signalStack, Function.update_self]
    exact List.mem_cons_self

/-- The process installs a handler and is sent the signal. -/
def signalled : Vm := (oneProcess.sysSignal 0 0x1000#64).sysKill 0

theorem signalled_separate : Separate signalled :=
  oneProcess_installed.separate.extend rfl rfl rfl (.refl oneProcess_installed.separate.valid)

theorem signalled_due : Due signalled 0 := ⟨rfl, by decide⟩

theorem signalled_live : 0 ∈ signalled.live := by decide

theorem signalled_delivers : ∃ t, signalled.checkPendingSignals 0 (freshPages 4) =
    some t ∧ FreshFrom t 11 :=
  deliver_succeeds 0 rfl (fun a beyond => if_neg (by omega)) (by omega)

/-- A process whose handler returns is left with entries that point to a freed stack. -/
theorem signal_stack_dangles : ¬ ∀ s t events, RefCounts.Installed s →
    (∀ task, s.savedRegs task = 0#64) →
    System.Path transitions (start s) events t → NoDangling t ∧ t.vm.heap.freed.Nodup := by
  intro always
  obtain ⟨t, result, -⟩ := signalled_delivers
  have taskLive : 0 ∈ t.live :=
    (deliver_delivers signalled_separate.tables signalled_live signalled_due result).live ▸
      signalled_live
  have run : System.Path transitions (start oneProcess)
      [.sysSignal 0 0x1000#64, .sysKill 0, .deliver 0 (freshPages 4), .sysSigreturn 0]
      ⟨t.sysSigreturn 0, delivered ⟨signalled, allocationOf oneProcess⟩ t 0⟩ :=
    .cons .sysSignal (.cons .sysKill
      (.cons (.deliver signalled_live result) (.cons (.sysSigreturn taskLive) (.nil _))))
  have saved : (freshPages 4).savedRegs ≠ 0#64 := by decide
  exact return_dangles (s := ⟨signalled, allocationOf oneProcess⟩)
    signalled_separate signalled_live signalled_due saved
    result (always oneProcess _ _ oneProcess_installed (fun _ => rfl) run).1

end Return

/-- The process runs another program while it handles the signal. -/
theorem no_dangling_mapping_exec :
    ∃ t, System.Path (transitions.restrict Safe) (start RefCounts.oneProcess)
    [.sysSignal 0 0x1000#64, .sysKill 0, .deliver 0 (freshPages 4), .exec 0] t ∧ NoDangling t ∧
      t.vm.heap.freed.Nodup := by
  obtain ⟨mid, result, -⟩ := signalled_delivers
  have live : mid.live = {0} :=
    (deliver_delivers signalled_separate.tables signalled_live signalled_due result).live
  have unshared : ∀ madeFor, ¬ StackShared ⟨mid, madeFor⟩ 0 := by
    rintro madeFor ⟨slot, other, place, -, otherLive, different, -⟩
    rw [live] at otherLive
    exact different (Finset.mem_singleton.mp otherLive)
  have taskLive : 0 ∈ mid.live := live ▸ Finset.mem_singleton_self 0
  have run : System.Path (transitions.restrict Safe) (start RefCounts.oneProcess)
      [.sysSignal 0 0x1000#64, .sysKill 0, .deliver 0 (freshPages 4), .exec 0]
      ⟨mid.clearUserSpaceMappings 0,
        delivered ⟨signalled, allocationOf RefCounts.oneProcess⟩ mid 0⟩ :=
    .cons ⟨trivial, .sysSignal⟩
      (.cons ⟨trivial, .sysKill⟩ (.cons ⟨trivial, .deliver signalled_live result⟩
      (.cons ⟨unshared _, .exec taskLive⟩ (.nil _))))
  exact ⟨_, run, no_dangling_mapping RefCounts.oneProcess_installed (fun _ => rfl) run⟩

end OscKernel.Soundness.SignalStack
