import OscKernel.Model.Signals
import OscKernel.Soundness.SignalStack

/-! # Returning from signal handlers

A delivery copies the trap frame to a fresh allocation and `sys_sigreturn` copies it back, but the
task has one slot for the copy and one place for the stack of a handler. Every return restores the
frame of the latest delivery in every run in which no return is made while two deliveries are open,
and no task stores through an entry whose page was freed, or execs or exits with one (`Safe`). What
goes through the other entries reaches user pages and signal stacks in use, and so none of the
copies.
-/

namespace OscKernel.Soundness.NestedSignals

open OscKernel.Lib OscKernel.Model OscKernel.Soundness.PageTables

/-! ## Memory -/

section Memory

open Vm

variable {s t : Vm} {va a : Word} {length : ℕ} {value : ℕ → BitVec 8}

/-- A page and an offset in it make up the address. -/
theorem page_add_offset (va : Word) : physToVirt (virtToPhys va &&& ~~~4095#64) +
    BitVec.ofNat 64 ((virtToPhys va).toNat % 4096) = va := by
  have page : (virtToPhys va &&& ~~~4095#64).toNat = (virtToPhys va).toNat / 4096 * 4096 :=
    toNat_and_not_lowMask (virtToPhys va) 12
  have whole : (virtToPhys va &&& ~~~4095#64) + BitVec.ofNat 64 ((virtToPhys va).toNat % 4096) =
      virtToPhys va := by
    apply BitVec.eq_of_toNat_eq
    rw [BitVec.toNat_add, page, BitVec.toNat_ofNat]
    omega
  calc physToVirt (virtToPhys va &&& ~~~4095#64) + BitVec.ofNat 64 ((virtToPhys va).toNat % 4096)
    _ = physToVirt ((virtToPhys va &&& ~~~4095#64) +
      BitVec.ofNat 64 ((virtToPhys va).toNat % 4096)) := by
        simp only [physToVirt, BitVec.add_assoc, BitVec.add_comm pageOffset]
    _ = va := by rw [whole, physToVirt_virtToPhys]

theorem sizeofPtRegs_le : sizeofPtRegs ≤ 2 ^ 64 := by
  rw [show sizeofPtRegs = 280 from rfl]
  omega

theorem stackSize_le : stackSize.toNat ≤ 2 ^ 64 := by
  rw [show stackSize.toNat = 16384 from rfl]
  omega

theorem fill_eq (s : Vm) (va : Word) (length : ℕ) (value : ℕ → BitVec 8) :
    ∃ ram, s.fill va length value = { s with ram := ram } := ⟨_, rfl⟩

theorem byteAt_fill (a : Word) : (s.fill va length value).byteAt a =
    if (a - va).toNat < length then value (a - va).toNat else s.byteAt a := by
  simp only [byteAt, fill, page_add_offset]

theorem toNat_offset {i : ℕ} (small : i < 2 ^ 64) : (va + BitVec.ofNat 64 i - va).toNat = i := by
  rw [BitVec.add_comm, BitVec.add_sub_cancel, BitVec.toNat_ofNat, Nat.mod_eq_of_lt small]

theorem mem_region_iff (small : length ≤ 2 ^ 64) : a ∈ region va length ↔
    (a - va).toNat < length := by
  constructor
  · intro member
    obtain ⟨i, inside, rfl⟩ := List.mem_map.mp member
    have below := List.mem_range.mp inside
    rw [toNat_offset (by omega)]
    exact below
  · intro below
    refine List.mem_map.mpr ⟨(a - va).toNat, List.mem_range.mpr below, ?_⟩
    rw [BitVec.ofNat_toNat, BitVec.setWidth_eq, BitVec.add_comm, BitVec.sub_add_cancel]

private theorem byteAt_fill_inside {i : ℕ} (inside : i < length) (small : length ≤ 2 ^ 64) :
    (s.fill va length value).byteAt (va + BitVec.ofNat 64 i) = value i := by
  rw [byteAt_fill, toNat_offset (by omega), if_pos inside]

/-- The bytes elsewhere stay. -/
theorem byteAt_fill_outside (small : length ≤ 2 ^ 64) (outside : a ∉ region va length) :
    (s.fill va length value).byteAt a = s.byteAt a := by
  rw [byteAt_fill, if_neg]
  exact fun below => outside ((mem_region_iff small).mpr below)

private theorem byteAt_storeRegs {regs : Vm.PtRegs} (outside : a ∉ region va sizeofPtRegs) :
    (s.storeRegs va regs).byteAt a = s.byteAt a :=
  byteAt_fill_outside sizeofPtRegs_le outside

theorem mem_region_of_page {pa : Word} (same : virtToPhys a &&& ~~~4095#64 = pa) :
    a ∈ region (physToVirt pa) 4096 := by
  rw [← same]
  exact List.mem_map.mpr ⟨(virtToPhys a).toNat % 4096,
    List.mem_range.mpr (Nat.mod_lt _ (by decide)), page_add_offset a⟩

/-- A trap frame is read from its bytes only. -/
theorem loadRegs_congr (same : ∀ a ∈ region va sizeofPtRegs, s.byteAt a = t.byteAt a) :
    s.loadRegs va = t.loadRegs va := by
  funext j
  have bytes : ∀ i ∈ List.range 8, (s.byteAt (va + BitVec.ofNat 64 (8 * j + i))).toNat =
      (t.byteAt (va + BitVec.ofNat 64 (8 * j + i))).toNat := by
    intro i inside
    have below := List.mem_range.mp inside
    apply congrArg BitVec.toNat
    apply same
    apply List.mem_map_of_mem
    apply List.mem_range.mpr
    rw [show sizeofPtRegs = 280 from rfl]
    omega
  simp only [loadRegs, ofBytes, List.map_congr_left bytes]

/-- What was copied is read back. -/
private theorem loadRegs_storeRegs (regs : Vm.PtRegs) :
    (s.storeRegs va regs).loadRegs va = regs := by
  funext j
  have bytes : ∀ i ∈ List.range 8,
      ((s.storeRegs va regs).byteAt (va + BitVec.ofNat 64 (8 * j + i))).toNat =
      (byte (regs j) i).toNat := by
    intro i inside
    have below := List.mem_range.mp inside
    have field : Fin.ofNat 35 ((8 * j + i) / 8) = j := by
      apply Fin.ext
      simp only [Fin.ofNat]
      omega
    have place : (8 * (j : ℕ) + i) % 8 = i := by omega
    rw [storeRegs, byteAt_fill_inside (by rw [show sizeofPtRegs = 280 from rfl]; omega)
      sizeofPtRegs_le, field, place]
  calc (s.storeRegs va regs).loadRegs va j
    _ = ofBytes 64 (byte (regs j)) 8 := by simp only [loadRegs, ofBytes, List.map_congr_left bytes]
    _ = regs j := ofBytes_byte (regs j) rfl

end Memory

/-! ## Steps -/

section System

open Vm (SignalPages ForkPages signalSlot sizeofPtRegs region)

/-- What the task sees in the pages of its signal stack. -/
def stackSeen (s : Vm) (task : ℕ) (i : Fin 4) : Fin 4096 → BitVec 8 :=
  s.ram (ptePa (entryOf s task (signalSlot i)))

/-- The frame that a delivery captured, and the signal stack of the code that it interrupted. -/
structure Delivery where
  regs : Vm.PtRegs
  stack : Fin 4 → Fin 4096 → BitVec 8

/-- A state with the allocation that each entry was made for, and the deliveries to each task that
were not returned from, the latest one first. -/
structure Tracked extends Processes where
  madeFor : ℕ → Slot → ℕ
  outstanding : ℕ → List Delivery

/-- A store through an entry without write permission gets the entry a page of its own. -/
def stored (s : Tracked) (t : Vm) (task : ℕ) (slot : Slot) : ℕ → Slot → ℕ :=
  if writable (entryOf s.vm task slot) then s.madeFor
  else Function.update s.madeFor task
    (Function.update (s.madeFor task) slot (SignalStack.allocationOf t task slot))

inductive Event where
  | sysSignal (task : ℕ) (handler : Word)
  | sysKill (task : ℕ)
  | trap (task : ℕ) (regs : Vm.PtRegs)
  | store (task : ℕ) (slot : Slot) (offset : Fin 4096) (value : BitVec 8) (newPage : Word)
  | sysFork (parent child : ℕ) (pages : ForkPages)
  | exec (task : ℕ)
  | exit (task : ℕ)
  | deliver (task : ℕ) (pages : SignalPages)
  | sysSigreturn (task : ℕ)

/-- A task traps with any frame. Its returns do not outnumber the deliveries to it. -/
inductive Step (s : Tracked) : Event → Tracked → Prop
  | sysSignal {task : ℕ} {handler : Word} : Step s (.sysSignal task handler)
      { s with vm := s.vm.sysSignal task handler }
  | sysKill {task : ℕ} : Step s (.sysKill task) { s with vm := s.vm.sysKill task }
  | trap {task : ℕ} {regs : Vm.PtRegs} : Step s (.trap task regs)
      { s with regs := Function.update s.regs task regs }
  | store {task : ℕ} {slot : Slot} {offset : Fin 4096} {value : BitVec 8}
      {newPage : Word} {t : Vm} :
      task ∈ s.vm.live → s.vm.storeByte task slot offset value newPage = some t →
      Step s (.store task slot offset value newPage)
      { s with vm := t, madeFor := stored s t task slot }
  | sysFork {parent child : ℕ} {pages : ForkPages} {t : Vm} : parent ∈
      s.vm.live → child ∉ s.vm.live →
      s.vm.sysFork parent child pages = some t → Step s (.sysFork parent child pages)
        ⟨⟨t, Function.update s.regs child (s.regs parent)⟩, Function.update s.madeFor child
          (s.madeFor parent), Function.update s.outstanding child []⟩
  | exec {task : ℕ} : task ∈ s.vm.live →
      Step s (.exec task) { s with vm := s.vm.clearUserSpaceMappings task }
  | exit {task : ℕ} : task ∈ s.vm.live →
      Step s (.exit task) { s with vm := s.vm.freeUserPageTable task }
  | deliver {task : ℕ} {pages : SignalPages} {t : Processes} : task ∈ s.vm.live →
      SignalStack.Due s.vm task →
      s.regs task Vm.PtRegs.sstatus &&& (1#64 <<< 8) = 0#64 → pages.savedRegs ≠ 0#64 →
      s.doTrapEnd task pages = some t → Step s (.deliver task pages)
        ⟨t, SignalStack.delivered ⟨s.vm, s.madeFor⟩ t.vm task,
          Function.update s.outstanding task
          (⟨s.regs task, stackSeen s.vm task⟩ :: s.outstanding task)⟩
  | sysSigreturn {task : ℕ} : task ∈ s.vm.live → s.outstanding task ≠ [] →
      Step s (.sysSigreturn task)
      ⟨s.toProcesses.sysSigreturn task, s.madeFor,
        Function.update s.outstanding task (s.outstanding task).tail⟩

def transitions : System Tracked Event := ⟨Step⟩

/-- The return puts the frame of the latest delivery back, and a handler that it resumes finds its
stack as it was. -/
def Restored (s t : Tracked) (task : ℕ) : Prop :=
  ∀ delivery earlier, s.outstanding task = delivery :: earlier →
  t.regs task = delivery.regs ∧ (earlier ≠ [] → stackSeen t.vm task = delivery.stack)

/-- Processes with installed pages, to which no signal was delivered yet. -/
structure Unsignalled (s : Tracked) : Prop where
  installed : RefCounts.Installed s.vm
  /-- User pages are whole pages. -/
  whole : ∀ {task slot}, task ∈ s.vm.live → present (entryOf s.vm task slot) = true →
    ∀ a ∈ region (physToVirt (ptePa (entryOf s.vm task slot))) 4096,
    s.vm.heap.Within a (s.madeFor task slot)
  savedRegs : ∀ task, s.vm.savedRegs task = 0#64
  outstanding : ∀ task, s.outstanding task = []

/-- The entry is valid, but what it was made for has been freed. -/
def Dangles (s : Tracked) (task : ℕ) (slot : Slot) : Prop :=
  present (entryOf s.vm task slot) = true ∧ s.madeFor task slot ∈ s.vm.heap.freed

/-- A return is made with one delivery outstanding, whose stack is still allocated. No store goes
through a dangling entry, and no task execs or exits while it has one. -/
def Safe (s : Tracked) : Event → Prop
  | .sysSigreturn task =>
    (s.outstanding task).length = 1 ∧ s.vm.heap.Owns (s.vm.signalStack task) .signalStack
  | .store task slot _ _ _ => ¬ Dangles s task slot
  | .exec task | .exit task => ∀ slot, ¬ Dangles s task slot
  | _ => True

/-! ## The invariant -/

/-- An allocation of its own holds the frame. -/
def Copied (s : Vm) (va : Word) (regs : Vm.PtRegs) : Prop :=
  ∃ id, (∀ a ∈ region va sizeofPtRegs, s.heap.Within a id) ∧
  s.heap.start id = va ∧ s.heap.purpose id = .savedRegs ∧ s.loadRegs va = regs

/-- The page is a frame of RAM in an allocation that user code may access. -/
structure UserFrame (s : Vm) (pa : Word) (id : ℕ) : Prop where
  counted : Counted s.build pa
  within : ∀ a ∈ region (physToVirt pa) 4096, s.heap.Within a id
  notTable : s.heap.purpose id ≠ .table
  notSaved : s.heap.purpose id ≠ .savedRegs

/-- The entry is valid, and what it was made for is in use. -/
def Backed (s : Tracked) (task : ℕ) (slot : Slot) : Prop :=
  present (entryOf s.vm task slot) = true ∧ s.madeFor task slot ∉ s.vm.heap.freed

/-- Entries that do not dangle lead to user pages and signal stacks, one from each task. The latest
frame to return to is in its slot, in an allocation of its own. -/
structure Sound (s : Tracked) : Prop where
  tables : Tables s.vm
  frame : ∀ {task slot}, task ∈ s.vm.live → Backed s task slot →
    UserFrame s.vm (ptePa (entryOf s.vm task slot)) (s.madeFor task slot)
  once : ∀ {task a b}, task ∈ s.vm.live → Backed s task a → Backed s task b →
    ptePa (entryOf s.vm task a) = ptePa (entryOf s.vm task b) → a = b
  saved : ∀ {task}, s.outstanding task ≠ [] → s.vm.savedRegs task ≠ 0#64
  copied : ∀ {task delivery earlier}, s.outstanding task = delivery :: earlier →
    Copied s.vm (s.vm.savedRegs task) delivery.regs
  apart : ∀ {a b}, a ≠ b → s.outstanding a ≠ [] → s.outstanding b ≠ [] →
    s.vm.savedRegs a ≠ s.vm.savedRegs b

theorem Unsignalled.sound {s : Tracked} (fresh : Unsignalled s) : Sound s where
  tables := fresh.installed.separate.tables
  frame := by
    rintro task slot taskLive ⟨there, -⟩
    have maps : MapsPage (s.vm.pgd task) (ptePa (entryOf s.vm task slot)) := ⟨slot, there, rfl⟩
    have whole := fresh.whole taskLive there
    have purpose :=
      (purpose_unique (whole _ (mem_region (by decide))) (fresh.installed.owned taskLive maps)).2
    exact ⟨(fresh.installed.separate.page taskLive maps).1,
      whole, by rw [purpose]; decide, by rw [purpose]; decide⟩
  once taskLive a b same := fresh.installed.separate.injective taskLive _ _ a.1 b.1 same
  saved := fun {task} some => absurd (fresh.outstanding task) some
  copied := fun {task _ _} some =>
    absurd ((fresh.outstanding task).symm.trans some) (List.cons_ne_nil _ _).symm
  apart := fun {a _} _ some => absurd (fresh.outstanding a) some

theorem Copied.owns {s : Vm} {va : Word} {regs : Vm.PtRegs} (copied : Copied s va regs) :
    s.heap.Owns va .savedRegs := by
  obtain ⟨id, within, start, purpose, -⟩ := copied
  exact ⟨id, within va (mem_region (by decide)), start, purpose⟩

/-- Allocations keep a copy whose bytes stay. -/
theorem Copied.extend {s t : Vm} {va : Word} {regs : Vm.PtRegs} (copied : Copied s va regs)
    (grown : s.heap.Extends t.heap)
    (same : ∀ a id, s.heap.Within a id → s.heap.purpose id = .savedRegs → t.byteAt a = s.byteAt a) :
    Copied t va regs := by
  obtain ⟨id, within, start, purpose, loaded⟩ := copied
  obtain ⟨-, start', purpose'⟩ := grown.kept (within va (mem_region (by decide)))
  refine ⟨id, fun a member => (grown.kept (within a member)).1, start'.trans start,
    purpose'.trans purpose, ?_⟩
  rw [← loaded]
  apply loadRegs_congr
  exact fun a member => same a id (within a member) purpose

/-- A copy that is not passed back stays. -/
theorem Copied.freeAll {s t : Vm} {va : Word} {regs : Vm.PtRegs} {gone : List Word}
    (copied : Copied s va regs) (heap : t.heap = s.heap.freeAll gone) (ram : t.ram = s.ram)
    (kept : va ∉ gone) : Copied t va regs := by
  obtain ⟨id, within, start, purpose, loaded⟩ := copied
  refine ⟨id, fun a member => ?_, ?_, ?_, ?_⟩
  · rw [heap]
    exact (within a member).freeAll (start ▸ kept)
  · rw [heap, Allocations.freeAll_start]
    exact start
  · rw [heap, Allocations.freeAll_purpose]
    exact purpose
  · rw [← loaded]
    apply loadRegs_congr
    intro a _
    simp only [Vm.byteAt, ram]

section UserFrame

variable {s t : Vm} {pa a : Word} {id : ℕ}

theorem UserFrame.extend (frame : UserFrame s pa id) (build : t.build = s.build)
    (grown : s.heap.Extends t.heap) :
    UserFrame t pa id := by
  obtain ⟨-, -, purpose⟩ := grown.kept (frame.within _ (mem_region (by decide)))
  refine ⟨?_, fun a member => (grown.kept (frame.within a member)).1, ?_, ?_⟩
  · rw [build]
    exact frame.counted
  · rw [purpose]
    exact frame.notTable
  · rw [purpose]
    exact frame.notSaved

theorem UserFrame.freeAll {gone : List Word} (frame : UserFrame s pa id) (build : t.build = s.build)
    (heap : t.heap = s.heap.freeAll gone) (kept : id ∉ t.heap.freed) : UserFrame t pa id := by
  refine ⟨?_, fun a member => ⟨?_, kept⟩, ?_, ?_⟩
  · rw [build]
    exact frame.counted
  · rw [heap, Allocations.freeAll_home]
    exact (frame.within a member).1
  · rw [heap, Allocations.freeAll_purpose]
    exact frame.notTable
  · rw [heap, Allocations.freeAll_purpose]
    exact frame.notSaved

/-- Copies are in no page that user code may access. -/
theorem UserFrame.not_copy (frame : UserFrame s pa id) {other : ℕ} (within : s.heap.Within a other)
    (purpose : s.heap.purpose other = .savedRegs) : virtToPhys a &&& ~~~4095#64 ≠ pa := by
  intro same
  have inPage := frame.within a (mem_region_of_page same)
  rw [Option.some.inj (within.1.symm.trans inPage.1)] at purpose
  exact frame.notSaved purpose

theorem UserFrame.start_ne (frame : UserFrame s pa id) (owns : s.heap.Owns a .savedRegs) :
    a ≠ physToVirt pa := by
  rintro rfl
  exact frame.notSaved (purpose_unique (frame.within _ (mem_region (by decide))) owns).2

end UserFrame

/-- Where a task has no dangling entry, all its entries lead to allocated pages. -/
theorem Sound.mapsFrames {s : Tracked} {task : ℕ} (sound : Sound s) (taskLive : task ∈ s.vm.live)
    (calm : ∀ slot, ¬ Dangles s task slot) : MapsFrames s.vm task where
  injective a b thereA thereB same :=
    sound.once taskLive ⟨thereA, fun freed => calm a ⟨thereA, freed⟩⟩
      ⟨thereB, fun freed => calm b ⟨thereB, freed⟩⟩ same
  page := by
    rintro pa ⟨slot, there, rfl⟩
    have frame := sound.frame taskLive ⟨there, fun freed => calm slot ⟨there, freed⟩⟩
    exact ⟨frame.counted, _, frame.within _ (mem_region (by decide)), frame.notTable⟩

/-! ## Exec and exit -/

theorem Sound.unmap {s : Tracked} {t : Vm} {task : ℕ} {gone : List Word} (sound : Sound s)
    (taskLive : task ∈ s.vm.live) (calm : ∀ slot, ¬ Dangles s task slot)
    (unmaps : Unmaps s.vm t task gone) : Sound { s with vm := t } := by
  have frames := sound.mapsFrames taskLive calm
  -- An entry that is left was there before, with its allocation in use.
  have before : ∀ {other slot}, other ∈ t.live →
      Backed { s with vm := t } other slot → other ∈ s.vm.live ∧
      entryOf t other slot = entryOf s.vm other slot ∧ Backed s other slot := by
    rintro other slot inLive ⟨there, inUse⟩
    obtain ⟨-, same⟩ := unmaps.entry inLive there
    refine ⟨unmaps.was_live taskLive inLive, same, same ▸ there, fun freed => inUse ?_⟩
    rw [unmaps.heap]
    exact (Allocations.mem_freed_freeAll gone).mpr (.inl freed)
  refine ⟨sound.tables.unmap frames taskLive unmaps, ?_, ?_, ?_, ?_, ?_⟩
  · intro other slot inLive backed
    obtain ⟨wasLive, same, was⟩ := before inLive backed
    simp only [same]
    exact (sound.frame wasLive was).freeAll unmaps.build unmaps.heap backed.2
  · intro other a b inLive backedA backedB same
    obtain ⟨wasLive, sameA, wasA⟩ := before inLive backedA
    obtain ⟨-, sameB, wasB⟩ := before inLive backedB
    simp only [sameA, sameB] at same
    exact sound.once wasLive wasA wasB same
  · simp only [unmaps.savedRegs]
    exact sound.saved
  · intro other delivery earlier here
    have copied := sound.copied here
    simp only [unmaps.savedRegs]
    apply copied.freeAll unmaps.heap unmaps.ram
    intro member
    rcases unmaps.released.of_gone member with ⟨pa, ⟨slot, there, rfl⟩, -, same⟩ | table
    · have frame := sound.frame taskLive ⟨there, fun freed => calm slot ⟨there, freed⟩⟩
      exact frame.start_ne copied.owns same.symm
    · exact absurd ((sound.tables.table taskLive table).unique copied.owns) (by decide)
  · simp only [unmaps.savedRegs]
    exact sound.apart

/-! ## Forking -/

theorem Sound.fork {s : Tracked} {t : Vm} {parent child : ℕ} (sound : Sound s)
    (parentLive : parent ∈ s.vm.live) (copies : Copies s.vm t parent child) :
    Sound ⟨⟨t, Function.update s.regs child (s.regs parent)⟩,
      Function.update s.madeFor child (s.madeFor parent),
      Function.update s.outstanding child []⟩ := by
  let final : Tracked := ⟨⟨t, Function.update s.regs child (s.regs parent)⟩,
    Function.update s.madeFor child (s.madeFor parent), Function.update s.outstanding child []⟩
  have before : ∀ {other slot}, Backed final other slot →
      Backed s (origin parent child other) slot ∧
      ptePa (entryOf t other slot) = ptePa (entryOf s.vm (origin parent child other) slot) := by
    rintro other slot ⟨there, inUse⟩
    obtain ⟨was, same⟩ := copies.entry there
    refine ⟨⟨was, ?_⟩, same⟩
    simp only [final, update_origin, copies.heap.freed] at inUse
    exact inUse
  have others : ∀ {other}, Function.update s.outstanding child [] other ≠ [] →
      s.outstanding other ≠ [] ∧
      Function.update s.outstanding child [] other = s.outstanding other ∧
        t.savedRegs other = s.vm.savedRegs other := by
    intro other some
    rcases eq_or_ne other child with rfl | different
    · rw [Function.update_self] at some
      exact absurd rfl some
    · rw [Function.update_of_ne different] at some ⊢
      rw [copies.savedRegs, Function.update_of_ne different]
      exact ⟨some, rfl, rfl⟩
  refine ⟨sound.tables.fork copies parentLive, ?_, ?_, ?_, ?_, ?_⟩
  · intro other slot inLive backed
    obtain ⟨was, same⟩ := before backed
    simp only [update_origin, same]
    exact (sound.frame (copies.was_live parentLive inLive) was).extend copies.build copies.heap
  · intro other a b inLive backedA backedB same
    obtain ⟨wasA, sameA⟩ := before backedA
    obtain ⟨wasB, sameB⟩ := before backedB
    exact sound.once (copies.was_live parentLive inLive)
      wasA wasB (sameA.symm.trans (same.trans sameB))
  · intro other some
    obtain ⟨before, -, slot⟩ := others some
    change t.savedRegs other ≠ 0#64
    rw [slot]
    exact sound.saved before
  · intro other latest earlier here
    change Function.update s.outstanding child [] other = latest :: earlier at here
    obtain ⟨-, same, slot⟩ := others (by rw [here]; exact List.cons_ne_nil _ _)
    change Copied t (t.savedRegs other) latest.regs
    rw [slot]
    apply (sound.copied (same.symm.trans here)).extend copies.heap
    intro a id _ _
    simp only [Vm.byteAt, copies.ram]
  · intro a b different someA someB
    obtain ⟨beforeA, -, slotA⟩ := others someA
    obtain ⟨beforeB, -, slotB⟩ := others someB
    change t.savedRegs a ≠ t.savedRegs b
    rw [slotA, slotB]
    exact sound.apart different beforeA beforeB

/-! ## Delivering -/

section Copies

variable {s : Processes} {vm : Vm} {task : ℕ} {pages : SignalPages} {regs : Vm.PtRegs}

/-- The memory that a delivery writes. -/
def written (vm : Vm) (pages : SignalPages) (regs : Vm.PtRegs) : Vm :=
  ((vm.storeRegs pages.savedRegs regs).memzero pages.signalStack stackSize.toNat).fill
    pages.signalStack 8
    (byte Vm.trampoline)

theorem deliver_eq {t : Processes} (due : SignalStack.Due s.vm task)
    (toUser : s.regs task Vm.PtRegs.sstatus &&& (1#64 <<< 8) = 0#64)
    (result : s.doTrapEnd task pages = some t) :
    ∃ vm, s.vm.checkPendingSignals task pages = some vm ∧ t = ⟨written vm pages (s.regs task),
      Function.update s.regs task
      (Processes.enterHandler (s.regs task) (s.vm.sigHandler task))⟩ := by
  rw [Processes.doTrapEnd, if_pos toUser, Processes.checkPendingSignals,
    if_pos (by rw [due.1, decide_eq_true due.2]; rfl)] at result
  obtain ⟨vm, allocated, last⟩ := Option.bind_eq_some_iff.mp result
  exact ⟨vm, allocated, (Option.some.inj last).symm⟩

theorem byteAt_written {a : Word} (outside : a ∉ region pages.signalStack stackSize.toNat) :
    (written vm pages regs).byteAt a = (vm.storeRegs pages.savedRegs regs).byteAt a := by
  have beyond : a ∉ region pages.signalStack 8 := by
    intro member
    have below := (mem_region_iff (by omega)).mp member
    apply outside
    apply (mem_region_iff stackSize_le).mpr
    rw [show stackSize.toNat = 16384 from rfl]
    omega
  calc (written vm pages regs).byteAt a
    _ = ((vm.storeRegs pages.savedRegs regs).memzero pages.signalStack stackSize.toNat).byteAt a :=
        byteAt_fill_outside (by omega) beyond
    _ = (vm.storeRegs pages.savedRegs regs).byteAt a := byteAt_fill_outside stackSize_le outside

theorem written_eq (vm : Vm) (pages : SignalPages) (regs : Vm.PtRegs) :
    ∃ ram, written vm pages regs = { vm with ram := ram } := by
  obtain ⟨saved, first⟩ :=
    fill_eq vm pages.savedRegs sizeofPtRegs fun k => byte (regs (Fin.ofNat 35 (k / 8))) (k % 8)
  obtain ⟨zeroed, second⟩ :=
    fill_eq { vm with ram := saved } pages.signalStack stackSize.toNat fun _ => 0#8
  obtain ⟨ram, third⟩ := fill_eq { vm with ram := zeroed } pages.signalStack 8 (byte Vm.trampoline)
  exact ⟨ram, by rw [written, Vm.memzero, Vm.storeRegs, first, second, third]⟩

theorem written_heap (vm : Vm) (pages : SignalPages) (regs : Vm.PtRegs) :
    (written vm pages regs).heap = vm.heap := by
  obtain ⟨ram, same⟩ := written_eq vm pages regs
  rw [same]

theorem written_savedRegs (vm : Vm) (pages : SignalPages) (regs : Vm.PtRegs) :
    (written vm pages regs).savedRegs = vm.savedRegs := by
  obtain ⟨ram, same⟩ := written_eq vm pages regs
  rw [same]

/-- A delivery does not touch what was in use before. -/
theorem Copied.deliver {before : Vm} (delivers : SignalStack.Delivers before vm task pages)
    {va : Word} {old : Vm.PtRegs} (copied : Copied before va old) :
    Copied (written vm pages regs) va old := by
  apply copied.extend
  · rw [written_heap]
    exact delivers.heap
  · intro a id within _
    calc (written vm pages regs).byteAt a
      _ = (vm.storeRegs pages.savedRegs regs).byteAt a :=
          byteAt_written fun member => delivers.stackNew a member id within
      _ = vm.byteAt a := byteAt_storeRegs fun member => delivers.savedNew a member id within
      _ = before.byteAt a := by simp only [Vm.byteAt, delivers.ram]

private theorem copied_new {before : Vm} (delivers : SignalStack.Delivers before vm task pages) :
    Copied (written vm pages regs) pages.savedRegs regs := by
  obtain ⟨id, within, start, purpose⟩ := delivers.saved
  obtain ⟨other, stackWithin, -, stackPurpose⟩ := delivers.stack
  have apart : ∀ a ∈ region pages.savedRegs sizeofPtRegs, a ∉
      region pages.signalStack stackSize.toNat := by
    intro a member inStack
    have same : id = other :=
      Option.some.inj ((within a member).1.symm.trans (stackWithin a inStack).1)
    rw [same, stackPurpose] at purpose
    exact absurd purpose (by decide)
  refine ⟨id, ?_, ?_, ?_, ?_⟩
  · rw [written_heap]
    exact within
  · rw [written_heap]
    exact start
  · rw [written_heap]
    exact purpose
  calc (written vm pages regs).loadRegs pages.savedRegs
    _ = (vm.storeRegs pages.savedRegs regs).loadRegs pages.savedRegs :=
        loadRegs_congr fun a member => byteAt_written (apart a member)
    _ = regs := loadRegs_storeRegs regs

end Copies

/-- The entries of a new stack are backed by it, the others by what they were made for. -/
theorem Sound.delivered_frames {s : Tracked} {vm : Vm} {task : ℕ} {pages : SignalPages}
    (sound : Sound s) (due : SignalStack.Due s.vm task)
    (delivers : SignalStack.Delivers s.vm vm task pages) {other : ℕ} {slot : Slot}
    (inLive : other ∈ vm.live) (there : present (entryOf vm other slot) = true)
    (inUse : SignalStack.delivered ⟨s.vm, s.madeFor⟩ vm task other slot ∉ vm.heap.freed) :
    UserFrame vm (ptePa (entryOf vm other slot))
      (SignalStack.delivered ⟨s.vm, s.madeFor⟩ vm task other slot) := by
  rcases delivers.entry slot with ⟨isTask, i, isSignal, new⟩ | ⟨notHere, old⟩
  · obtain ⟨id, within, -, purpose⟩ := delivers.stack
    have page : ptePa (entryOf vm other slot) = SignalStack.stackPa pages i := by
      rw [new, SignalStack.ptePa_stackPte (delivers.counted i).1]
    have made : SignalStack.delivered ⟨s.vm, s.madeFor⟩ vm task other slot = id := by
      rw [SignalStack.delivered, if_pos ⟨due, isTask, i, isSignal⟩, SignalStack.allocationOf,
        ← isTask, page, (within _ (SignalStack.mem_stack_page i)).1, Option.getD_some]
    rw [made, page]
    refine ⟨?_, fun a member => within a (SignalStack.mem_stack_of_mem_page member), ?_, ?_⟩
    · rw [delivers.build]
      exact delivers.counted i
    · rw [purpose]
      decide
    · rw [purpose]
      decide
  · have made : SignalStack.delivered ⟨s.vm, s.madeFor⟩ vm task other slot = s.madeFor other slot :=
      if_neg fun all => notHere all.2
    rw [made, delivers.heap.freed] at inUse
    rw [delivers.live] at inLive
    rw [old] at there
    rw [made, old]
    exact (sound.frame inLive ⟨there, inUse⟩).extend delivers.build delivers.heap

theorem Sound.delivered_once {s : Tracked} {vm : Vm} {task : ℕ} {pages : SignalPages}
    (sound : Sound s) (delivers : SignalStack.Delivers s.vm vm task pages) {other : ℕ} {a b : Slot}
    (inLive : other ∈ vm.live) (thereA : present (entryOf vm other a) = true)
    (thereB : present (entryOf vm other b) = true)
    (inUseA : SignalStack.delivered ⟨s.vm, s.madeFor⟩ vm task other a ∉ vm.heap.freed)
    (inUseB : SignalStack.delivered ⟨s.vm, s.madeFor⟩ vm task other b ∉ vm.heap.freed)
    (same : ptePa (entryOf vm other a) = ptePa (entryOf vm other b)) : a = b := by
  rw [delivers.live] at inLive
  -- An entry that was there before leads to a page that was in use.
  have old : ∀ {slot}, (¬ (other = task ∧ ∃ i, slot = signalSlot i)) →
      entryOf vm other slot = entryOf s.vm other slot →
      present (entryOf vm other slot) = true →
      SignalStack.delivered ⟨s.vm, s.madeFor⟩ vm task other slot ∉ vm.heap.freed →
      Backed s other slot ∧ ∀ i, ptePa (entryOf vm other slot) ≠ SignalStack.stackPa pages i := by
    intro slot notHere kept there inUse
    have made : SignalStack.delivered ⟨s.vm, s.madeFor⟩ vm task other slot = s.madeFor other slot :=
      if_neg fun all => notHere all.2
    rw [made, delivers.heap.freed] at inUse
    rw [kept] at there ⊢
    refine ⟨⟨there, inUse⟩, fun i isStack => ?_⟩
    have within := (sound.frame inLive ⟨there, inUse⟩).within _ (mem_region (by decide))
    rw [isStack] at within
    exact delivers.pages_new i _ within
  rcases delivers.entry a with ⟨-, i, rfl, newA⟩ | ⟨notA, oldA⟩
  · rw [newA, SignalStack.ptePa_stackPte (delivers.counted i).1] at same
    rcases delivers.entry b with ⟨-, j, rfl, newB⟩ | ⟨notB, oldB⟩
    · rw [newB, SignalStack.ptePa_stackPte (delivers.counted j).1] at same
      rw [SignalStack.stackPa_injective pages same]
    · exact absurd same.symm ((old notB oldB thereB inUseB).2 i)
  · obtain ⟨wasA, notStack⟩ := old notA oldA thereA inUseA
    rcases delivers.entry b with ⟨-, j, rfl, newB⟩ | ⟨notB, oldB⟩
    · rw [newB, SignalStack.ptePa_stackPte (delivers.counted j).1] at same
      exact absurd same (notStack j)
    · rw [oldA, oldB] at same
      exact sound.once inLive wasA (old notB oldB thereB inUseB).1 same

theorem Sound.deliver {s : Tracked} {t : Processes} {task : ℕ} {pages : SignalPages}
    {delivery : Delivery} (sound : Sound s) (taskLive : task ∈ s.vm.live)
    (due : SignalStack.Due s.vm task)
    (toUser : s.regs task Vm.PtRegs.sstatus &&& (1#64 <<< 8) = 0#64)
    (nonzero : pages.savedRegs ≠ 0#64) (result : s.doTrapEnd task pages = some t)
    (captured : delivery.regs = s.regs task) :
    Sound ⟨t, SignalStack.delivered ⟨s.vm, s.madeFor⟩ t.vm task,
      Function.update s.outstanding task (delivery :: s.outstanding task)⟩ := by
  obtain ⟨vm, allocated, rfl⟩ := deliver_eq due toUser result
  have delivers := SignalStack.deliver_delivers sound.tables taskLive due allocated
  have saved : ∀ {other}, other ≠ task → (written vm pages (s.regs task)).savedRegs other =
      s.vm.savedRegs other := by
    intro other different
    rw [written_savedRegs, delivers.savedRegs, Function.update_of_ne different]
  have savedHere : (written vm pages (s.regs task)).savedRegs task = pages.savedRegs := by
    rw [written_savedRegs, delivers.savedRegs, Function.update_self]
  -- The new copy starts where no other one does.
  have fresh : ∀ {other}, s.outstanding other ≠ [] → s.vm.savedRegs other ≠ pages.savedRegs := by
    intro other some same
    obtain ⟨latest, earlier, here⟩ := List.exists_cons_of_ne_nil some
    obtain ⟨id, within, -⟩ := (sound.copied here).owns
    rw [same] at within
    exact delivers.savedNew _ (mem_region (by decide)) id within
  obtain ⟨ram, same⟩ := written_eq vm pages (s.regs task)
  refine ⟨?_, ?_, ?_, ?_, ?_, ?_⟩
  · simp only [same]
    exact delivers.tables.extend rfl rfl (.refl delivers.tables.valid)
  · rintro other slot inLive ⟨there, inUse⟩
    simp only [same] at inLive there inUse ⊢
    have frame := sound.delivered_frames due delivers inLive there inUse
    exact frame.extend rfl (.refl delivers.tables.valid)
  · rintro other a b inLive ⟨thereA, inUseA⟩ ⟨thereB, inUseB⟩ samePage
    simp only [same] at inLive thereA inUseA thereB inUseB samePage
    exact sound.delivered_once delivers inLive thereA thereB inUseA inUseB samePage
  · intro other some
    rcases eq_or_ne other task with rfl | different
    · rw [savedHere]
      exact nonzero
    · simp only [Function.update_of_ne different] at some
      rw [saved different]
      exact sound.saved some
  · intro other latest earlier here
    rcases eq_or_ne other task with rfl | different
    · simp only [Function.update_self, List.cons.injEq] at here
      rw [savedHere, ← here.1, captured]
      exact copied_new delivers
    · simp only [Function.update_of_ne different] at here
      rw [saved different]
      exact (sound.copied here).deliver delivers
  · intro a b different someA someB
    rcases eq_or_ne a task with rfl | notA
    · have notB : b ≠ a := different.symm
      simp only [Function.update_of_ne notB] at someB
      rw [savedHere, saved notB]
      exact (fresh someB).symm
    simp only [Function.update_of_ne notA] at someA
    rcases eq_or_ne b task with rfl | notB
    · rw [savedHere, saved notA]
      exact fresh someA
    · simp only [Function.update_of_ne notB] at someB
      rw [saved notA, saved notB]
      exact sound.apart different someA someB

/-! ## Returning -/

theorem Sound.sysSigreturn {s : Tracked} {task : ℕ} (sound : Sound s)
    (single : (s.outstanding task).length = 1)
    (stack : s.vm.heap.Owns (s.vm.signalStack task) .signalStack) :
    Sound ⟨s.toProcesses.sysSigreturn task, s.madeFor,
      Function.update s.outstanding task (s.outstanding task).tail⟩ := by
  obtain ⟨delivery, only⟩ := List.length_eq_one_iff.mp single
  have some : s.outstanding task ≠ [] := by
    rw [only]
    exact List.cons_ne_nil _ _
  have saved := sound.saved some
  have frame := (sound.copied only).owns
  have ended : s.vm.sysSigreturn task = _ := SignalStack.sysSigreturn_eq saved
  have heap : (s.vm.sysSigreturn task).heap =
      s.vm.heap.freeAll [s.vm.signalStack task, s.vm.savedRegs task] := by
    rw [ended]
  have ram : (s.vm.sysSigreturn task).ram = s.vm.ram := by
    rw [ended]
  have build : (s.vm.sysSigreturn task).build = s.vm.build := by
    rw [ended]
  have pgd : (s.vm.sysSigreturn task).pgd = s.vm.pgd := by
    rw [ended]
  have live : (s.vm.sysSigreturn task).live = s.vm.live := by
    rw [ended]
  have entry : ∀ other slot, entryOf (s.vm.sysSigreturn task) other slot =
      entryOf s.vm other slot := by
    intro other slot
    rw [entryOf, entryOf, pgd]
  -- What is still in use was in use before.
  have before : ∀ {other slot}, present (entryOf (s.vm.sysSigreturn task) other slot) = true →
      s.madeFor other slot ∉ (s.vm.sysSigreturn task).heap.freed → Backed s other slot := by
    intro other slot there inUse
    refine ⟨entry other slot ▸ there, fun freed => inUse ?_⟩
    rw [heap]
    exact (Allocations.mem_freed_freeAll _).mpr (.inl freed)
  -- The other tasks with deliveries keep their slot.
  have others : ∀ {other}, Function.update s.outstanding task (s.outstanding task).tail other ≠ [] →
      other ≠ task ∧ s.outstanding other ≠ [] ∧ (s.vm.sysSigreturn task).savedRegs other =
      s.vm.savedRegs other := by
    intro other still
    rcases eq_or_ne other task with rfl | different
    · rw [Function.update_self, only, List.tail_cons] at still
      exact absurd rfl still
    · rw [Function.update_of_ne different] at still
      refine ⟨different, still, ?_⟩
      rw [ended]
      exact Function.update_of_ne different _ _
  refine ⟨?_, ?_, ?_, ?_, ?_, ?_⟩
  · obtain ⟨nodup, inUse⟩ := SignalStack.returned_apart stack frame
    exact sound.tables.free live pgd heap nodup inUse
  · rintro other slot inLive ⟨there, inUse⟩
    change other ∈ (s.vm.sysSigreturn task).live at inLive
    rw [live] at inLive
    have was := before there inUse
    change UserFrame (s.vm.sysSigreturn task)
      (ptePa (entryOf (s.vm.sysSigreturn task) other slot)) _
    rw [entry]
    exact (sound.frame inLive was).freeAll build heap inUse
  · rintro other a b inLive ⟨thereA, inUseA⟩ ⟨thereB, inUseB⟩ same
    change other ∈ (s.vm.sysSigreturn task).live at inLive
    change ptePa (entryOf (s.vm.sysSigreturn task) other a) =
      ptePa (entryOf (s.vm.sysSigreturn task) other b) at same
    rw [live] at inLive
    rw [entry, entry] at same
    exact sound.once inLive (before thereA inUseA) (before thereB inUseB) same
  · intro other still
    obtain ⟨-, some', slot⟩ := others still
    change (s.vm.sysSigreturn task).savedRegs other ≠ 0#64
    rw [slot]
    exact sound.saved some'
  · intro other latest earlier here
    change Function.update s.outstanding task (s.outstanding task).tail other =
      latest :: earlier at here
    obtain ⟨different, some', slot⟩ := others (by rw [here]; exact List.cons_ne_nil _ _)
    rw [Function.update_of_ne different] at here
    have copied := sound.copied here
    change Copied (s.vm.sysSigreturn task) ((s.vm.sysSigreturn task).savedRegs other) latest.regs
    rw [slot]
    apply copied.freeAll heap ram
    intro member
    rcases List.mem_cons.mp member with isStack | isFrame
    · exact absurd (stack.unique (isStack ▸ copied.owns)) (by decide)
    · exact sound.apart different some' some (List.mem_singleton.mp isFrame)
  · intro a b different someA someB
    obtain ⟨-, openA, slotA⟩ := others someA
    obtain ⟨-, openB, slotB⟩ := others someB
    change (s.vm.sysSigreturn task).savedRegs a ≠ (s.vm.sysSigreturn task).savedRegs b
    rw [slotA, slotB]
    exact sound.apart different openA openB

/-! ## Stores -/

/-- Steps that neither allocate nor map, and write no copy. -/
theorem Sound.same_maps {s : Tracked} {t : Vm} (sound : Sound s) (build : t.build = s.vm.build)
    (heap : t.heap = s.vm.heap) (live : t.live = s.vm.live) (pgd : t.pgd = s.vm.pgd)
    (savedRegs : t.savedRegs = s.vm.savedRegs)
    (bytes : ∀ a id, s.vm.heap.Within a id → s.vm.heap.purpose id = .savedRegs →
      t.byteAt a = s.vm.byteAt a) :
    Sound { s with vm := t } := by
  have grown : s.vm.heap.Extends t.heap := by
    rw [heap]
    exact .refl sound.tables.valid
  have entry : ∀ other slot, entryOf t other slot = entryOf s.vm other slot := by
    intro other slot
    rw [entryOf, entryOf, pgd]
  refine ⟨sound.tables.extend live pgd grown, ?_, ?_, ?_, ?_, ?_⟩
  · rintro other slot inLive ⟨there, inUse⟩
    simp only [live, heap, entry] at inLive there inUse ⊢
    exact (sound.frame inLive ⟨there, inUse⟩).extend build grown
  · rintro other a b inLive ⟨thereA, inUseA⟩ ⟨thereB, inUseB⟩ same
    simp only [live, heap, entry] at inLive thereA inUseA thereB inUseB same
    exact sound.once inLive ⟨thereA, inUseA⟩ ⟨thereB, inUseB⟩ same
  · simp only [savedRegs]
    exact sound.saved
  · intro other delivery earlier here
    simp only [savedRegs]
    exact (sound.copied here).extend grown bytes
  · simp only [savedRegs]
    exact sound.apart

theorem Sound.write {s : Tracked} {t : Vm} {task : ℕ} {slot : Slot} {offset : Fin 4096}
    {value : BitVec 8} (sound : Sound s) (taskLive : task ∈ s.vm.live)
    (calm : ¬ Dangles s task slot) (result : s.vm.writeByte task slot offset value = some t) :
    Sound { s with vm := t } := by
  obtain ⟨both, written⟩ := Option.ite_none_right_eq_some.mp result
  obtain rfl := Option.some.inj written
  obtain ⟨there, -⟩ := Bool.and_eq_true_iff.mp both
  have frame := sound.frame taskLive ⟨there, fun freed => calm ⟨there, freed⟩⟩
  refine sound.same_maps rfl rfl rfl rfl rfl fun a id within purpose => ?_
  rw [Vm.byteAt, Vm.byteAt]
  exact congrFun (Function.update_of_ne (frame.not_copy within purpose) _ _) _

theorem eq_of_mem_lastOwner {s : Vm} {pa a : Word} (member : a ∈ lastOwner s pa) :
    a = physToVirt pa := by
  rw [lastOwner] at member
  split at member
  · exact List.mem_singleton.mp member
  · exact absurd member List.not_mem_nil

private theorem nodup_lastOwner (s : Vm) (pa : Word) : (lastOwner s pa).Nodup := by
  rw [lastOwner]
  split
  · exact List.nodup_singleton _
  · exact List.nodup_nil

/-- The map of what each entry was made for, after the entry was made anew. -/
def remade (s : Tracked) (task : ℕ) (slot : Slot) : ℕ → Slot → ℕ :=
  Function.update s.madeFor task (Function.update (s.madeFor task) slot s.vm.heap.count)

/-- What a copy-on-write fault does: the heap grows by the new page and by tables, the entry leads
to the new page, and the old page may be freed. -/
structure Renewed (s : Tracked) (t : Vm) (task : ℕ) (slot : Slot) (newPage : Word)
    (heap : Allocations Word Purpose) (mid : Vm) : Prop where
  old : UserFrame s.vm (ptePa (entryOf s.vm task slot)) (s.madeFor task slot)
  granted : s.vm.heap.Extends heap
  whole : ∀ a ∈ Vm.region newPage 4096,
    heap.Within a s.vm.heap.count ∧ ∀ id, ¬ s.vm.heap.Within a id
  walked : Walked
    (PageTables.copied s.vm heap (ptePa (entryOf s.vm task slot)) (virtToPhys newPage))
    mid task slot (unshared (entryOf s.vm task slot) (virtToPhys newPage))
  new : UserFrame mid (virtToPhys newPage) s.vm.heap.count
  kept : s.vm.heap.count ∉ t.heap.freed
  released : ∃ counts, t = { mid with
    pageRefCounts := counts
    heap := mid.heap.freeAll (lastOwner mid (ptePa (entryOf s.vm task slot))) }

namespace Renewed

variable {s : Tracked} {t mid : Vm} {task : ℕ} {slot : Slot} {newPage : Word}
  {heap : Allocations Word Purpose}

theorem of_cowFault (sound : Sound s) (taskLive : task ∈ s.vm.live) (calm : ¬ Dangles s task slot)
    (result : s.vm.cowFault task slot newPage = some t) :
    ∃ heap mid, Renewed s t task slot newPage heap mid := by
  obtain ⟨⟨there, -⟩, heap, mid, grown, owns, whole, page, walked, last, -⟩ :=
    cowFault_steps sound.tables taskLive result
  have old := sound.frame taskLive ⟨there, fun freed => calm ⟨there, freed⟩⟩
  have inNew := (whole newPage (mem_region (by decide))).1
  obtain ⟨newStart, newPurpose⟩ := purpose_unique inNew owns
  obtain ⟨-, start, purpose⟩ := walked.heap.kept inNew
  change mid.heap.purpose s.vm.heap.count = heap.purpose s.vm.heap.count at purpose
  have build : mid.build = s.vm.build := by
    rw [walked.frame]
    rfl
  have new : UserFrame mid (virtToPhys newPage) s.vm.heap.count := by
    refine ⟨?_, ?_, by rw [purpose, newPurpose]; decide, by rw [purpose, newPurpose]; decide⟩
    · rw [build]
      exact isPage_spec page
    · rw [physToVirt_virtToPhys]
      exact fun a member => (walked.heap.kept (whole a member).1).1
  have released := releasePage_free (s := mid) (old.extend build (grown.trans walked.heap)).counted
  rw [← last] at released
  obtain ⟨counts, final, -⟩ := released
  refine ⟨heap, mid, old, grown, whole, walked, new, ?_, counts, final⟩
  -- The new page is not the old one, so it is not what is freed.
  have different : newPage ≠ physToVirt (ptePa (entryOf s.vm task slot)) := fun same =>
    (whole newPage (mem_region (by decide))).2 _
      (old.within newPage (same ▸ mem_region (by decide)))
  rw [final]
  refine ((walked.heap.kept inNew).1.freeAll fun member => different ?_).2
  exact (start.trans newStart).symm.trans (eq_of_mem_lastOwner member)

section Fields

variable (renewed : Renewed s t task slot newPage heap mid)
include renewed

theorem heap_eq : t.heap =
    mid.heap.freeAll (lastOwner mid (ptePa (entryOf s.vm task slot))) := by
  obtain ⟨counts, rfl⟩ := renewed.released
  rfl

theorem pgd : t.pgd = mid.pgd := by
  obtain ⟨counts, rfl⟩ := renewed.released
  rfl

theorem build_mid : mid.build = s.vm.build := by
  rw [renewed.walked.frame]
  rfl

theorem build : t.build = mid.build := by
  obtain ⟨counts, rfl⟩ := renewed.released
  rfl

theorem live : t.live = s.vm.live := by
  obtain ⟨counts, rfl⟩ := renewed.released
  change mid.live = s.vm.live
  rw [renewed.walked.frame]
  rfl

theorem savedRegs : t.savedRegs = s.vm.savedRegs := by
  obtain ⟨counts, rfl⟩ := renewed.released
  change mid.savedRegs = s.vm.savedRegs
  rw [renewed.walked.frame]
  rfl

theorem ram : t.ram = mid.ram := by
  obtain ⟨counts, rfl⟩ := renewed.released
  rfl

theorem grown : s.vm.heap.Extends mid.heap := renewed.granted.trans renewed.walked.heap

theorem entry : ptePa (entryOf t task slot) = virtToPhys newPage := by
  have here : entryOf t task slot = unshared (entryOf s.vm task slot) (virtToPhys newPage) := by
    rw [entryOf, renewed.pgd, renewed.walked.entry, Function.update_self]
  rw [here]
  exact (unshared_spec _ renewed.new.counted.1).2.2.2

/-- Any other entry is one that was there before. -/
theorem before {other : ℕ} {place : Slot} (notHere : ¬ (other = task ∧ place = slot)) :
    entryOf t other place = entryOf s.vm other place ∧
      remade s task slot other place = s.madeFor other place := by
  rcases eq_or_ne other task with rfl | notTask
  · have notSlot : place ≠ slot := fun same => notHere ⟨rfl, same⟩
    rw [remade, Function.update_self, Function.update_of_ne notSlot, entryOf, renewed.pgd,
      renewed.walked.entry, Function.update_of_ne notSlot]
    exact ⟨rfl, rfl⟩
  · rw [remade, Function.update_of_ne notTask, entryOf, renewed.pgd, renewed.walked.others notTask]
    exact ⟨rfl, rfl⟩

theorem was {other : ℕ} {place : Slot} (notHere : ¬ (other = task ∧ place = slot))
    (backed : Backed { s with vm := t, madeFor := remade s task slot } other place) :
    Backed s other place := by
  obtain ⟨there, inUse⟩ := backed
  obtain ⟨entry, made⟩ := renewed.before notHere
  change present (entryOf t other place) = true at there
  refine ⟨entry ▸ there, fun freed => inUse ?_⟩
  simp only [made, renewed.heap_eq]
  exact (Allocations.mem_freed_freeAll _).mpr (.inl (renewed.grown.freed ▸ freed))

/-- No entry that was there before leads to the new page. -/
theorem notNew (sound : Sound s) {other : ℕ} {place : Slot} (otherLive : other ∈ s.vm.live)
    (backed : Backed s other place) :
    ptePa (entryOf s.vm other place) ≠ virtToPhys newPage := by
  intro same
  have within := (sound.frame otherLive backed).within newPage (by
    rw [same, physToVirt_virtToPhys]
    exact mem_region (by decide))
  exact (renewed.whole newPage (mem_region (by decide))).2 _ within

theorem tables (sound : Sound s) : Tables t := by
  have start :
    Tables (PageTables.copied s.vm heap (ptePa (entryOf s.vm task slot)) (virtToPhys newPage)) :=
    sound.tables.extend rfl rfl renewed.granted
  have live : t.live = mid.live := by
    obtain ⟨counts, rfl⟩ := renewed.released
    rfl
  refine (start.walk renewed.walked).free live
    renewed.pgd renewed.heap_eq (nodup_lastOwner _ _) fun a member => ?_
  have old := renewed.old.extend renewed.build_mid renewed.grown
  obtain rfl := eq_of_mem_lastOwner member
  exact ⟨_, old.within _ (mem_region (by decide)), old.notTable⟩

theorem frame (sound : Sound s) {other : ℕ} {place : Slot} (inLive : other ∈ s.vm.live)
    (backed : Backed { s with vm := t, madeFor := remade s task slot } other place) :
    UserFrame t (ptePa (entryOf t other place)) (remade s task slot other place) := by
  have inUse := backed.2
  by_cases here : other = task ∧ place = slot
  · obtain ⟨rfl, rfl⟩ := here
    simp only [remade, Function.update_self, renewed.entry]
    exact renewed.new.freeAll renewed.build renewed.heap_eq renewed.kept
  · obtain ⟨entry, made⟩ := renewed.before here
    simp only [entry, made] at inUse ⊢
    exact ((sound.frame inLive (renewed.was here backed)).extend renewed.build_mid
      renewed.grown).freeAll renewed.build renewed.heap_eq inUse

theorem once (sound : Sound s) {other : ℕ} {a b : Slot} (inLive : other ∈ s.vm.live)
    (backedA : Backed { s with vm := t, madeFor := remade s task slot } other a)
    (backedB : Backed { s with vm := t, madeFor := remade s task slot } other b)
    (same : ptePa (entryOf t other a) = ptePa (entryOf t other b)) : a = b := by
  by_cases hereA : other = task ∧ a = slot
  · by_cases hereB : other = task ∧ b = slot
    · exact hereA.2.trans hereB.2.symm
    · rw [(renewed.before hereB).1, hereA.1, hereA.2, renewed.entry] at same
      exact absurd same.symm (hereA.1 ▸ renewed.notNew sound inLive (renewed.was hereB backedB))
  · by_cases hereB : other = task ∧ b = slot
    · rw [(renewed.before hereA).1, hereB.1, hereB.2, renewed.entry] at same
      exact absurd same (hereB.1 ▸ renewed.notNew sound inLive (renewed.was hereA backedA))
    · rw [(renewed.before hereA).1, (renewed.before hereB).1] at same
      exact sound.once inLive (renewed.was hereA backedA) (renewed.was hereB backedB) same

/-- A saved frame is neither in the new page nor freed with the old one. -/
theorem copied {va : Word} {regs : Vm.PtRegs} (copied : Copied s.vm va regs) :
    Copied t va regs := by
  have inMid : Copied mid va regs := by
    apply copied.extend renewed.grown
    intro a id within _
    have outside : virtToPhys a &&& ~~~4095#64 ≠ virtToPhys newPage := by
      intro same
      have inNew := mem_region_of_page same
      rw [physToVirt_virtToPhys] at inNew
      exact (renewed.whole a inNew).2 id within
    have ram : mid.ram = Function.update s.vm.ram (virtToPhys newPage)
        (s.vm.ram (ptePa (entryOf s.vm task slot))) := by
      rw [renewed.walked.frame]
      rfl
    rw [Vm.byteAt, Vm.byteAt, ram, Function.update_of_ne outside]
  apply inMid.freeAll renewed.heap_eq renewed.ram
  exact fun member => renewed.old.start_ne copied.owns (eq_of_mem_lastOwner member)

theorem home :
    t.heap.home (physToVirt (ptePa (entryOf t task slot))) = some s.vm.heap.count := by
  rw [renewed.entry, physToVirt_virtToPhys, renewed.heap_eq, Allocations.freeAll_home]
  exact (renewed.walked.heap.kept (renewed.whole newPage (mem_region (by decide))).1).1.1

end Fields

/-- A copy-on-write fault makes the entry anew. -/
theorem sound (renewed : Renewed s t task slot newPage heap mid) (sound : Sound s) :
    Sound { s with vm := t, madeFor := remade s task slot } where
  tables := renewed.tables sound
  frame inLive backed := renewed.frame sound (renewed.live ▸ inLive) backed
  once inLive a b same := renewed.once sound (renewed.live ▸ inLive) a b same
  saved := by
    simp only [renewed.savedRegs]
    exact sound.saved
  copied := by
    simp only [renewed.savedRegs]
    exact fun here => renewed.copied (sound.copied here)
  apart := by
    simp only [renewed.savedRegs]
    exact sound.apart

end Renewed

theorem Sound.store {s : Tracked} {t : Vm} {task : ℕ} {slot : Slot} {offset : Fin 4096}
    {value : BitVec 8} {newPage : Word} (sound : Sound s) (taskLive : task ∈ s.vm.live)
    (calm : ¬ Dangles s task slot)
    (result : s.vm.storeByte task slot offset value newPage = some t) :
    Sound { s with vm := t, madeFor := stored s t task slot } := by
  simp only [Vm.storeByte] at result
  split at result
  · rename_i both
    have same : stored s t task slot = s.madeFor := if_pos (Bool.and_eq_true_iff.mp both).2
    rw [same]
    exact sound.write taskLive calm result
  · rename_i notBoth
    obtain ⟨mid, fault, write⟩ := Option.bind_eq_some_iff.mp result
    obtain ⟨⟨there, -⟩, -⟩ := cowFault_steps sound.tables taskLive fault
    obtain ⟨_, _, renewed⟩ := Renewed.of_cowFault sound taskLive calm fault
    have readOnly : ¬ writable (entryOf s.vm task slot) = true := fun writes =>
      notBoth (Bool.and_eq_true_iff.mpr ⟨there, writes⟩)
    obtain ⟨-, written⟩ := Option.ite_none_right_eq_some.mp write
    have made : SignalStack.allocationOf t task slot = s.vm.heap.count := by
      rw [← Option.some.inj written]
      exact congrArg (·.getD 0) renewed.home
    have same : stored s t task slot = remade s task slot := by
      rw [stored, if_neg readOnly, made, remade]
    rw [same]
    refine (renewed.sound sound).write (renewed.live ▸ taskLive) ?_ write
    rintro ⟨-, freed⟩
    simp only [remade, Function.update_self] at freed
    exact renewed.kept freed

/-! ## Runs -/

theorem Sound.step {s t : Tracked} {event : Event} (sound : Sound s)
    (step : (transitions.restrict Safe).Step s event t) : Sound t := by
  obtain ⟨safe, step⟩ := step
  cases step with
  | sysSignal => exact sound.same_maps rfl rfl rfl rfl rfl fun _ _ _ _ => rfl
  | sysKill =>
    rename_i task
    have same : s.vm.sysKill task = { s.vm with pending := (s.vm.sysKill task).pending } := by
      rw [Vm.sysKill]
      split <;> rfl
    rw [same]
    exact sound.same_maps rfl rfl rfl rfl rfl fun _ _ _ _ => rfl
  | trap => exact ⟨sound.tables, sound.frame, sound.once, sound.saved, sound.copied, sound.apart⟩
  | store taskLive result => exact sound.store taskLive safe result
  | sysFork parentLive childNew result =>
    exact sound.fork parentLive (sound.tables.fork_copies parentLive childNew result)
  | exec taskLive =>
    obtain ⟨gone, unmaps, -⟩ := sound.tables.exec_unmaps (sound.mapsFrames taskLive safe) taskLive
    exact sound.unmap taskLive safe unmaps
  | exit taskLive =>
    obtain ⟨gone, unmaps, -⟩ := sound.tables.exit_unmaps (sound.mapsFrames taskLive safe) taskLive
    exact sound.unmap taskLive safe unmaps
  | deliver taskLive due toUser nonzero result =>
    exact sound.deliver taskLive due toUser nonzero result rfl
  | sysSigreturn _ some => exact sound.sysSigreturn safe.1 safe.2

/-- In every run without nested returns, each return restores the frame of the latest delivery. No
handler is resumed there: the stack of one does not survive a delivery
(`nested_return_loses_stack`). -/
theorem sigreturn_restores {s t u : Tracked} {events : List Event} {task : ℕ}
    (fresh : Unsignalled s) (run : System.Path (transitions.restrict Safe) s events t)
    (step : (transitions.restrict Safe).Step t (.sysSigreturn task) u) : Restored t u task := by
  have sound : Sound t := run.invariant (fun sound step => Sound.step sound step) fresh.sound
  obtain ⟨⟨single, -⟩, step⟩ := step
  cases step
  rename_i some
  intro delivery earlier latest
  obtain ⟨-, -, -, -, loaded⟩ := sound.copied latest
  have saved := sound.saved some
  constructor
  · simp only [Processes.sysSigreturn, if_pos saved, Function.update_self]
    exact loaded
  · intro nested
    rw [latest, List.length_cons] at single
    exact absurd (List.length_eq_zero_iff.mp (Nat.succ.inj single)) nested

/-! ## Nested handlers -/

private theorem exec_savedRegs (s : Vm) (task : ℕ) :
    (s.clearUserSpaceMappings task).savedRegs = s.savedRegs := by
  rw [Vm.clearUserSpaceMappings, releaseUserHalf_eq]
  exact (Bookkeeping.release (releaseVisits (s.pgd task)) s).savedRegs

private theorem exit_savedRegs (s : Vm) (task : ℕ) :
    (s.freeUserPageTable task).savedRegs = s.savedRegs := by
  rw [Vm.freeUserPageTable, releaseUserHalf_eq]
  exact (Bookkeeping.release (releaseVisits (s.pgd task)) s).savedRegs

theorem writeByte_savedRegs {s t : Vm} {task : ℕ} {slot : Slot} {offset : Fin 4096}
    {value : BitVec 8} (result : s.writeByte task slot offset value = some t) :
    t.savedRegs = s.savedRegs := by
  obtain ⟨-, stored⟩ := Option.ite_none_right_eq_some.mp result
  obtain rfl := Option.some.inj stored
  rfl

private theorem storeByte_savedRegs {s t : Vm} {task : ℕ} {slot : Slot} {offset : Fin 4096}
    {value : BitVec 8} {newPage : Word}
    (result : s.storeByte task slot offset value newPage = some t) : t.savedRegs = s.savedRegs := by
  simp only [Vm.storeByte] at result
  split at result
  · exact writeByte_savedRegs result
  · obtain ⟨mid, fault, write⟩ := Option.bind_eq_some_iff.mp result
    exact (writeByte_savedRegs write).trans (MemoryOnly.cowFault fault).savedRegs

private theorem fork_savedRegs {s t : Vm} {parent child : ℕ} {pages : ForkPages}
    (result : s.sysFork parent child pages = some t) :
    t.savedRegs = Function.update s.savedRegs child 0#64 := by
  obtain ⟨top, topResult, rest⟩ := Option.bind_eq_some_iff.mp result
  obtain ⟨copied, copyResult, last⟩ := Option.bind_eq_some_iff.mp rest
  rw [copyUserHalf_eq] at copyResult
  obtain rfl := Option.some.inj last
  exact congrArg (fun saved => Function.update saved child 0#64)
    ((Bookkeeping.copy copyResult).savedRegs.trans (Bookkeeping.allocatePage topResult).savedRegs)

private theorem mapStack_savedRegs {s t : Vm} {task : ℕ} {pages : SignalPages}
    {places : List (Fin 4)} (result : places.foldlM (fun s i => s.pagewalk task (signalSlot i)
      (virtToPhys pages.signalStack + BitVec.ofNat 64 (i * 4096))
      (protUserRw ||| pteX) pages.pmd pages.pte) s = some t) :
    t.savedRegs = s.savedRegs := by
  induction places generalizing s with
  | nil =>
    obtain rfl := Option.some.inj result
    rfl
  | cons i rest ih =>
    obtain ⟨mid, first, others⟩ := Option.bind_eq_some_iff.mp result
    exact (ih others).trans (Bookkeeping.pagewalk first).savedRegs

private theorem deliver_savedRegs {s t : Vm} {task : ℕ} {pages : SignalPages}
    (due : SignalStack.Due s task) (result : s.checkPendingSignals task pages = some t) :
    t.savedRegs = Function.update s.savedRegs task pages.savedRegs := by
  rw [Vm.checkPendingSignals, if_pos (by rw [due.1, decide_eq_true due.2]; rfl)] at result
  obtain ⟨first, frameResult, rest⟩ := Option.bind_eq_some_iff.mp result
  obtain ⟨second, stackResult, rest⟩ := Option.bind_eq_some_iff.mp rest
  obtain ⟨third, mapResult, last⟩ := Option.bind_eq_some_iff.mp rest
  obtain rfl := Option.some.inj last
  obtain ⟨heap, -, rfl⟩ := Option.map_eq_some_iff.mp frameResult
  obtain ⟨-, stackResult⟩ := Option.ite_none_right_eq_some.mp stackResult
  obtain ⟨heap', -, rfl⟩ := Option.map_eq_some_iff.mp stackResult
  exact mapStack_savedRegs mapResult

/-- Only a delivery fills the slot of a task. -/
theorem Step.empty {s t : Tracked} {event : Event} {task : ℕ} (step : Step s event t)
    (noDelivery : ∀ pages, event ≠ .deliver task pages) (empty : s.vm.savedRegs task = 0#64) :
    t.vm.savedRegs task = 0#64 := by
  cases step with
  | sysSignal => exact empty
  | sysKill =>
    simp only [Vm.sysKill]
    split
    · exact empty
    · exact empty
  | trap => exact empty
  | store _ result =>
    rw [storeByte_savedRegs result]
    exact empty
  | sysFork _ _ result =>
    rw [fork_savedRegs result, Function.update_apply]
    split
    · rfl
    · exact empty
  | exec =>
    rw [exec_savedRegs]
    exact empty
  | exit =>
    rw [exit_savedRegs]
    exact empty
  | @deliver other pages t _ due toUser _ result =>
    obtain ⟨vm, allocated, rfl⟩ := deliver_eq due toUser result
    have different : task ≠ other := by
      rintro rfl
      exact noDelivery pages rfl
    rw [written_savedRegs, deliver_savedRegs due allocated, Function.update_of_ne different]
    exact empty
  | @sysSigreturn other _ _ =>
    simp only [Processes.sysSigreturn, Vm.sysSigreturn]
    split
    · rcases eq_or_ne task other with rfl | different
      · exact Function.update_self _ _ _
      · exact (Function.update_of_ne different _ _).trans empty
    · exact empty

private theorem sigreturn_empties (s : Processes) (task : ℕ) :
    (s.sysSigreturn task).vm.savedRegs task = 0#64 := by
  simp only [Processes.sysSigreturn, Vm.sysSigreturn]
  split
  · exact Function.update_self _ _ _
  · rename_i empty
    exact not_not.mp empty

/-- Once a handler has returned, the return from the handler that it interrupted changes nothing. -/
private theorem second_return_keeps_frame {s t u v : Tracked} {events : List Event} {task : ℕ}
    (first : Step s (.sysSigreturn task) t) (run : System.Path transitions t events u)
    (noDelivery : ∀ event ∈ events, ∀ pages, event ≠ .deliver task pages)
    (second : Step u (.sysSigreturn task) v) :
    v.regs = u.regs := by
  have empty : t.vm.savedRegs task = 0#64 := by
    cases first
    exact sigreturn_empties s.toProcesses task
  have still : u.vm.savedRegs task = 0#64 := by
    clear first second
    induction run with
    | nil => exact empty
    | @cons t mid u event rest step _ ih =>
      apply ih
      · exact fun later member => noDelivery later (List.mem_cons_of_mem event member)
      · exact Step.empty step (noDelivery event List.mem_cons_self) empty
  cases second
  exact if_neg (fun saved => saved still)

private theorem sigreturn_pgd (s : Processes) (task : ℕ) :
    (s.sysSigreturn task).vm.pgd = s.vm.pgd := by
  simp only [Processes.sysSigreturn, Vm.sysSigreturn]
  split <;> rfl

/-- The stack of a delivery lies over the stack of the handler that it interrupts, also when that
handler goes on: none of its pages was in use before. -/
theorem nested_return_loses_stack {s t u v : Tracked} {events : List Event} {task : ℕ}
    {pages : SignalPages} (fresh : Unsignalled s)
    (run : System.Path (transitions.restrict Safe) s events t)
    (second : Step t (.deliver task pages) u)
    (first : Step u (.sysSigreturn task) v) (i : Fin 4) (id : ℕ) :
    ¬ t.vm.heap.Within (physToVirt (ptePa (entryOf v.vm task (signalSlot i)))) id := by
  have sound : Sound t := run.invariant (fun sound step => Sound.step sound step) fresh.sound
  cases first
  cases second
  rename_i final taskLive due toUser _ result _ _
  obtain ⟨vm, allocated, rfl⟩ := deliver_eq due toUser result
  have delivers := SignalStack.deliver_delivers sound.tables taskLive due allocated
  obtain ⟨ram, same⟩ := written_eq vm pages (t.regs task)
  have entry : entryOf
      (Processes.sysSigreturn ⟨written vm pages (t.regs task), Function.update t.regs task
      (Processes.enterHandler (t.regs task) (t.vm.sigHandler task))⟩ task).vm task (signalSlot i) =
        SignalStack.stackPte pages i := by
    rw [entryOf, sigreturn_pgd]
    simp only [same]
    exact delivers.mapped i
  intro within
  simp only [entry, SignalStack.ptePa_stackPte (delivers.counted i).1] at within
  exact delivers.pages_new i id within

/-! ## A process that is signalled while its handler runs -/

section Twice

open RefCounts (oneProcess oneProcess_installed)
open SignalStack (signalled signalled_separate signalled_live signalled_due signalled_delivers
  deliver_delivers freshPages
  FreshFrom Due)

def begun (s : Vm) : Tracked := ⟨⟨s, fun _ _ => 0#64⟩, SignalStack.allocationOf s, fun _ => []⟩

theorem begun_unsignalled : Unsignalled (begun oneProcess) := by
  refine ⟨oneProcess_installed, fun {task slot} taskLive there a member => ?_,
    fun _ => rfl, fun _ => rfl⟩
  have page : ptePa (entryOf oneProcess task slot) = 0x3000#64 :=
    RefCounts.mapsPage_onePage.mp ⟨slot, there, rfl⟩
  have within : ∀ {b}, frame b = frame (RefCounts.pageVa 3) → oneProcess.heap.Within b 3 := by
    intro b same
    have first := RefCounts.oneProcess_within (n := 3) (by omega)
    refine ⟨?_, first.2⟩
    rw [← first.1]
    simp only [oneProcess, same]
  change a ∈ region (physToVirt (ptePa (entryOf oneProcess task slot))) 4096 at member
  rw [page] at member
  have number : SignalStack.allocationOf oneProcess task slot = 3 := by
    rw [SignalStack.allocationOf, page,
      (within (b := physToVirt 0x3000#64) rfl).1, Option.getD_some]
  change oneProcess.heap.Within a (SignalStack.allocationOf oneProcess task slot)
  rw [number]
  exact within (frame_of_mem_region (by decide) member)

theorem doTrapEnd_eq {s : Processes} {vm : Vm} {task : ℕ} {pages : SignalPages}
    (due : Due s.vm task) (toUser : s.regs task Vm.PtRegs.sstatus &&& (1#64 <<< 8) = 0#64)
    (allocated : s.vm.checkPendingSignals task pages = some vm) : s.doTrapEnd task pages =
      some ⟨written vm pages (s.regs task),
        Function.update s.regs task
        (Processes.enterHandler (s.regs task) (s.vm.sigHandler task))⟩ := by
  rw [Processes.doTrapEnd, if_pos toUser, Processes.checkPendingSignals,
    if_pos (by rw [due.1, decide_eq_true due.2]; rfl)]
  exact Option.bind_eq_some_iff.mpr ⟨vm, allocated, rfl⟩

/-- After a delivery the same signal can be delivered again. -/
private theorem delivers_again {s t : Vm} {task n : ℕ} {pages : SignalPages} {regs : Vm.PtRegs}
    (delivers : SignalStack.Delivers s t task pages) (build : s.build = .board) (due : Due s task)
    (fresh : FreshFrom t n) (small : n < 900) : Due ((written t pages regs).sysKill task) task ∧
      ∃ u, ((written t pages regs).sysKill task).checkPendingSignals task (freshPages n) =
      some u := by
  obtain ⟨ram, same⟩ := written_eq t pages regs
  have handler : t.sigHandler task ≠ 0#64 := by
    rw [delivers.sigHandler]
    exact due.2
  have killed : (written t pages regs).sysKill task =
      { t with ram := ram, pending := Function.update t.pending task true } := by
    rw [same, Vm.sysKill, if_pos handler]
  rw [killed]
  refine ⟨⟨Function.update_self _ _ _, handler⟩, ?_⟩
  obtain ⟨u, again, -⟩ := SignalStack.deliver_succeeds
    (s := { t with ram := ram, pending := Function.update t.pending task true })
    task (delivers.build.trans build) fresh
    small
  exact ⟨u, again⟩

/-- The trap frame of the process when its handler has started. -/
def inHandler : Vm.PtRegs := Processes.enterHandler (fun _ => 0#64) 0x1000#64

/-- The state after one delivery to the process. -/
noncomputable def handling (t : Vm) : Tracked :=
  ⟨⟨written t (freshPages 4) fun _ => 0#64, Function.update (fun _ _ => 0#64) 0 inHandler⟩,
    SignalStack.delivered ⟨signalled, SignalStack.allocationOf oneProcess⟩ (written t (freshPages 4)
      fun _ => 0#64) 0, Function.update (fun _ => []) 0 [⟨fun _ => 0#64, stackSeen signalled 0⟩]⟩

theorem signalled_handles {t : Vm}
    (result : signalled.checkPendingSignals 0 (freshPages 4) = some t) :
    System.Path (transitions.restrict Safe) (begun oneProcess)
      [.sysSignal 0 0x1000#64, .sysKill 0, .deliver 0 (freshPages 4)] (handling t) := by
  have delivered : Processes.doTrapEnd ⟨signalled, fun _ _ => 0#64⟩ 0 (freshPages 4) =
      some ⟨written t (freshPages 4) fun _ => 0#64,
        Function.update (fun _ _ => 0#64) 0 inHandler⟩ :=
    doTrapEnd_eq signalled_due rfl result
  exact .cons ⟨trivial, .sysSignal⟩ (.cons ⟨trivial, .sysKill⟩
    (.cons ⟨trivial, .deliver signalled_live signalled_due rfl (by decide) delivered⟩ (.nil _)))

/-- The process is signalled again in the handler. -/
private theorem signalled_nests :
    ∃ events t second first, System.Path (transitions.restrict Safe) (begun oneProcess) events t ∧
    0 ∈ t.vm.live ∧ t.outstanding 0 = [second, first] ∧ second.regs = inHandler ∧
    first.regs = fun _ => 0#64 := by
  obtain ⟨once, result, fresh⟩ := signalled_delivers
  have delivers := deliver_delivers signalled_separate.tables signalled_live signalled_due result
  obtain ⟨due, twice, again⟩ :=
    @delivers_again _ _ _ _ _ (fun _ => 0#64) delivers rfl signalled_due fresh (by omega)
  let killed : Tracked := { handling once with vm := (handling once).vm.sysKill 0 }
  have frame : killed.regs 0 = inHandler := by
    simp only [killed, handling, Function.update_self]
  have toUser : killed.regs 0 Vm.PtRegs.sstatus &&& (1#64 <<< 8) = 0#64 := by
    rw [frame]
    decide
  have delivered := doTrapEnd_eq due toUser again
  have kill : (transitions.restrict Safe).Step (handling once) (.sysKill 0) killed :=
    ⟨trivial, .sysKill⟩
  have onceLive : 0 ∈ once.live := delivers.live ▸ signalled_live
  have killedLive : 0 ∈ killed.vm.live := by
    obtain ⟨ram, same⟩ := written_eq once (freshPages 4) fun _ => 0#64
    simp only [killed, handling, same, Vm.sysKill]
    split
    · exact onceLive
    · exact onceLive
  have nest : (transitions.restrict Safe).Step killed (.deliver 0 (freshPages 11)) _ :=
    ⟨trivial, .deliver killedLive due toUser (by decide) delivered⟩
  have run := (signalled_handles result).snoc kill
  have sound : Sound killed :=
    run.invariant (fun sound step => Sound.step sound step) begun_unsignalled.sound
  refine ⟨_, _, ⟨inHandler, stackSeen killed.vm 0⟩, ⟨fun _ => 0#64, stackSeen signalled 0⟩,
    run.snoc nest, ?_, ?_, rfl, rfl⟩
  · obtain ⟨ram, same⟩ := written_eq twice (freshPages 11) (killed.regs 0)
    simp only [same, (deliver_delivers sound.tables killedLive due again).live]
    exact killedLive
  · have before : killed.outstanding 0 = [⟨fun _ => 0#64, stackSeen signalled 0⟩] := by
      simp only [killed, handling, Function.update_self]
    simp only [Function.update_self, before, frame]

/-- When the process then returns from both handlers, the frame it was interrupted with first is
lost. -/
theorem sigreturn_loses_frame : ¬ ∀ s t u events task, Unsignalled s →
    System.Path transitions s events t →
    Step t (.sysSigreturn task) u → Restored t u task := by
  intro always
  obtain ⟨events, t, second, first, nested, taskLive, outstanding, inner, outer⟩ := signalled_nests
  have sound : Sound t :=
    nested.invariant (fun sound step => Sound.step sound step) begun_unsignalled.sound
  have some : t.outstanding 0 ≠ [] := by
    rw [outstanding]
    exact List.cons_ne_nil _ _
  let mid : Tracked := ⟨t.toProcesses.sysSigreturn 0, t.madeFor,
    Function.update t.outstanding 0 (t.outstanding 0).tail⟩
  have left : mid.outstanding 0 = [first] := by
    simp only [mid, Function.update_self, outstanding, List.tail_cons]
  have still : mid.outstanding 0 ≠ [] := by
    rw [left]
    exact List.cons_ne_nil _ _
  have midLive : 0 ∈ mid.vm.live := by
    simp only [mid, Processes.sysSigreturn, SignalStack.sysSigreturn_eq (sound.saved some)]
    exact taskLive
  have firstReturn : Step t (.sysSigreturn 0) mid := .sysSigreturn taskLive some
  have secondReturn : Step mid (.sysSigreturn 0) _ := .sysSigreturn midLive still
  have innerRestored := always _ _ _ _ 0 begun_unsignalled nested.of_restrict firstReturn
  have outerRestored :=
    always _ _ _ _ 0 begun_unsignalled (nested.of_restrict.snoc firstReturn) secondReturn
  have kept := second_return_keeps_frame firstReturn (.nil mid)
    (fun _ member => absurd member List.not_mem_nil) secondReturn
  have same : inHandler = fun _ => 0#64 := by
    rw [← inner, ← (innerRestored _ _ outstanding).1, ← outer, ← (outerRestored _ _ left).1, kept]
  have entry := congrFun same Vm.PtRegs.epc
  exact absurd entry (by decide)

/-- The process is signalled once and its handler returns. -/
theorem sigreturn_restores_once : ∃ t u, System.Path (transitions.restrict Safe) (begun oneProcess)
    [.sysSignal 0 0x1000#64, .sysKill 0, .deliver 0 (freshPages 4)] t ∧
      (transitions.restrict Safe).Step t (.sysSigreturn 0) u ∧ Restored t u 0 := by
  obtain ⟨once, result, -⟩ := signalled_delivers
  have delivers := deliver_delivers signalled_separate.tables signalled_live signalled_due result
  have outstanding : (handling once).outstanding 0 = [⟨fun _ => 0#64, stackSeen signalled 0⟩] := by
    simp only [handling, Function.update_self]
  obtain ⟨ram, same⟩ := written_eq once (freshPages 4) fun _ => 0#64
  have stack : (handling once).vm.heap.Owns ((handling once).vm.signalStack 0) .signalStack := by
    obtain ⟨id, within, start, purpose⟩ := delivers.stack
    simp only [handling, same, delivers.signalStack, Function.update_self]
    exact ⟨id, within _ (mem_region (by decide)), start, purpose⟩
  have taskLive : 0 ∈ (handling once).vm.live := by
    simp only [handling, same, delivers.live]
    exact signalled_live
  have return' : (transitions.restrict Safe).Step (handling once) (.sysSigreturn 0) _ :=
    ⟨⟨by rw [outstanding]; rfl, stack⟩,
      .sysSigreturn taskLive (by rw [outstanding]; exact List.cons_ne_nil _ _)⟩
  have run := signalled_handles result
  exact ⟨_, _, run, return', sigreturn_restores begun_unsignalled run return'⟩

end Twice

end System

end OscKernel.Soundness.NestedSignals
