import OscKernel.Soundness.MemoryAccounts

/-! # The memory of user processes

The operations of user processes, with the regions that say where their pages may lie. With valid
VMA tables, entries are written only where there is none: at a fault that is not misdirected, and
where a new region is populated. So they keep the account of the memory.
-/

namespace OscKernel.Soundness.MemoryAccounts

open OscKernel.Lib OscKernel.Model OscKernel.Soundness.PageTables OscKernel.Soundness.UserMappings
open OscKernel.Soundness.PageWalks (User slotOf_injective flags_lt)
open OscKernel.Soundness.FaultProgress (UserProcesses Sound Misdirected not_present)
open OscKernel.Soundness.VmaTable (Valid Request serve EndFits sysMmap_valid_iff)

/-! ## Installing pages -/

section Pages

variable {s t : Vm} {base task : ℕ} {slot : Slot} {va prot newPage : Word}
  {curr : UserRegions} {pages : FaultPages}

theorem Balanced.mapPage {u : Vm} (balanced : Balanced base s) (taskLive : task ∈ s.live)
    (fresh : Fresh s u pages.page) (result : u.mapPage task va prot pages = some t) (user : User va)
    (flags : (prot ||| pteV).toNat < 2 ^ 10)
    (absent : ¬ present ((s.pgd task).entryAt (userSlot va)) = true) : Balanced base t := by
  rw [Vm.mapPage, if_pos (vpn2_lt user)] at result
  exact balanced.install taskLive fresh result flags absent

theorem Balanced.zeroPage (balanced : Balanced base s) (taskLive : task ∈ s.live) (user : User va)
    (flags : (prot ||| pteV).toNat < 2 ^ 10)
    (absent : ¬ present ((s.pgd task).entryAt (userSlot va)) = true)
    (result : s.zeroPage task va prot pages = some t) : Balanced base t := by
  obtain ⟨u, new, mapped⟩ := Option.bind_eq_some_iff.mp result
  exact balanced.mapPage taskLive (newPage_fresh balanced.exact.separate.valid new)
    mapped user flags absent

theorem Balanced.codePage (balanced : Balanced base s) (taskLive : task ∈ s.live) (user : User va)
    (absent : ¬ present ((s.pgd task).entryAt (userSlot va)) = true)
    (result : s.codePage task curr va pages = some t) :
    Balanced base t := by
  obtain ⟨u, new, mapped⟩ := Option.bind_eq_some_iff.mp result
  have fresh := newPage_fresh balanced.exact.separate.valid new
  exact balanced.mapPage taskLive (fresh.write _) mapped user (by decide) absent

/-- The copy-on-write branch trades one page for another. -/
theorem Balanced.cowFault (balanced : Balanced base s) (taskLive : task ∈ s.live)
    (result : s.cowFault task slot newPage = some t) : Balanced base t := by
  have exact := balanced.exact
  have unshares := cowFault_unshares exact.separate taskLive result
  refine ⟨exact.unshare taskLive unshares, ?_⟩
  obtain ⟨-, heap, mid, -, -, whole, isPage, walked, last, tables, accounted⟩ :=
    cowFault_steps exact.separate.tables taskLive result
  have fresh := (whole newPage (mem_region (by decide))).2
  have oldMaps : MapsPage (s.pgd task) (ptePa (entryOf s task slot)) := ⟨slot, unshares.there, rfl⟩
  obtain ⟨oldCounted, id, within, -⟩ := exact.separate.page taskLive oldMaps
  have oldNew : ptePa (entryOf s task slot) ≠ virtToPhys newPage := by
    intro same
    rw [same, physToVirt_virtToPhys] at within
    exact fresh id within
  have midBuild : mid.build = s.build := by
    rw [walked.frame]
    rfl
  have midCount : count mid (ptePa (entryOf s task slot)) =
      count s (ptePa (entryOf s task slot)) := by
    have before : count (copied s heap (ptePa (entryOf s task slot)) (virtToPhys newPage))
        (ptePa (entryOf s task slot)) =
        if ptePa (entryOf s task slot) = virtToPhys newPage then 1
        else count s (ptePa (entryOf s task slot)) :=
      count_copied (isPage_spec isPage) oldCounted.1
    have counts : mid.pageRefCounts =
        (copied s heap (ptePa (entryOf s task slot)) (virtToPhys newPage)).pageRefCounts :=
      (congrArg Vm.pageRefCounts walked.frame).trans rfl
    rw [if_neg oldNew] at before
    rw [← before, count, midBuild, counts]
    rfl
  obtain ⟨counts, final, -⟩ := releasePage_free (s := mid) (by rw [midBuild]; exact oldCounted)
  rw [← last] at final
  have samePgd : t.pgd = mid.pgd := by rw [final]
  have sameHeap : t.heap =
      mid.heap.freeAll (lastOwner mid (ptePa (entryOf s task slot))) := by rw [final]
  rw [sameHeap]
  apply (accounted balanced.accounted).freeAll
  have stillMaps : ∀ pa, MapsPage (t.pgd task) pa ↔
      pa = virtToPhys newPage ∨ pa ≠ ptePa (entryOf s task slot) ∧ MapsPage (s.pgd task) pa :=
    fun pa => unshares.mapsPage (exact.separate.injective taskLive)
  have mine : task ∈ t.live := unshares.live ▸ taskLive
  rintro a ((⟨holder, holderLive, holds⟩ | rfl) | table) kept
  · have holderStays : holder ∈ t.live := unshares.live ▸ holderLive
    rcases eq_or_ne holder task with rfl | different
    · rcases holds with table | ⟨pa, maps, rfl⟩
      · refine ⟨holder, mine, .inl ?_⟩
        rw [samePgd]
        exact tables a table
      · by_cases isOld : pa = ptePa (entryOf s holder slot)
        · subst isOld
          have shared : 1 < (mappers s (ptePa (entryOf s holder slot))).card := by
            rw [← exact.counted holderLive maps, ← midCount]
            by_contra few
            apply kept
            rw [lastOwner, if_pos (Nat.le_of_not_lt few)]
            exact List.mem_singleton_self _
          obtain ⟨other, member, different⟩ := Finset.exists_mem_ne shared holder
          obtain ⟨otherLive, otherMaps⟩ := mem_mappers.mp member
          refine ⟨other, unshares.live ▸ otherLive, .inr ⟨_, ?_, rfl⟩⟩
          rw [unshares.others different]
          exact otherMaps
        · exact ⟨holder, mine, .inr ⟨pa, (stillMaps pa).mpr (.inr ⟨isOld, maps⟩), rfl⟩⟩
    · refine ⟨holder, holderStays, ?_⟩
      rwa [unshares.others different]
  · exact ⟨task, mine, .inr ⟨virtToPhys a, (stillMaps _).mpr (.inl rfl), physToVirt_virtToPhys a⟩⟩
  · refine ⟨task, mine, .inl ?_⟩
    rwa [samePgd]

/-- A store through a writable entry. -/
theorem Balanced.writeByte {offset : Fin 4096} {value : BitVec 8} (balanced : Balanced base s)
    (result : s.writeByte task slot offset value = some t) : Balanced base t := by
  rw [Vm.writeByte] at result
  dsimp only at result
  split at result
  · obtain rfl := Option.some.inj result
    exact balanced.congr rfl rfl rfl rfl rfl
  · cases result

end Pages

/-! ## Where pages lie -/

/-- A page of a region, of the stack or of the code. -/
def Covered (curr : UserRegions) (page : Word) : Prop :=
  (regionAt curr page).isSome = true ∨ InStack page ∨ page < curr.memory.codeSize

/-- Every valid entry of the user half is at such a page. -/
def Inside (curr : UserRegions) (pgd : Pgd) : Prop :=
  EveryEntry (fun page _ => Covered curr page) pgd

section Inside

variable {s t : Vm} {task : ℕ} {curr next : UserRegions} {va pa pte : Word}
  {cause : FaultCause} {vma : VmArea}

private theorem covered_pageVa (valid : Valid curr.memory) (va : Word) (covered : Covered curr va) :
    Covered curr (pageVa va) :=
  covered.imp (fun region => by rwa [regionAt_pageVa valid])
    (Or.imp (inStack_pageVa va).mpr pageVa_lt)

theorem Inside.absent (inside : Inside curr (s.pgd task)) (user : User va) (aligned : Aligned va)
    (outside : ¬ Covered curr va) : ¬ present ((s.pgd task).entryAt (userSlot va)) = true :=
  fun there => outside (inside va user aligned there)

theorem Inside.write (inside : Inside curr (s.pgd task)) (valid : Valid curr.memory)
    (user : User va) (writes : Writes s t task (userSlot va) pte) (covered : Covered curr va) :
    Inside curr (t.pgd task) := by
  apply EveryEntry.write inside writes
  intro page user' aligned same
  obtain rfl := pageVa_of_userSlot user user' aligned same
  exact covered_pageVa valid va covered

theorem Inside.fault (inside : Inside curr (s.pgd task)) (valid : Valid curr.memory)
    (user : User va) (handled : Handled s task curr va cause pa (.returned t)) :
    Inside curr (t.pgd task) := by
  cases handled with
  | copied shared writes =>
    apply EveryEntry.write inside writes
    intro page user' aligned same
    have there := shared.2.1
    rw [← same] at there
    exact inside page user' aligned there
  | region single found allowed writes =>
    apply inside.write valid user writes
    rw [Covered, found]
    exact .inl rfl
  | stack single refused stack writes => exact inside.write valid user writes (.inr (.inl stack))
  | code single refused offStack code writes =>
    exact inside.write valid user writes (.inr (.inr code))

theorem Inside.append {pgd : Pgd} (inside : Inside curr pgd) (appends : Appends curr next vma) :
    Inside next pgd := by
  intro page user aligned there
  refine (inside page user aligned there).imp (fun region => ?_) (Or.imp_right fun code => ?_)
  · rw [appends.regionAt, Option.isSome_or, region]
    rfl
  · rwa [appends.codeSize]

/-- The entries of a fork are where those of the parent were. -/
theorem Inside.sameMaps {pgd pgd' : Pgd} (inside : Inside curr pgd) (same : SameMaps pgd' pgd) :
    Inside curr pgd' :=
  fun page user aligned there => inside page user aligned ((same _).1.symm.trans there)

end Inside

/-! ## Faults and mappings -/

section Faults

variable {s t : Vm} {base task : ℕ} {curr next : UserRegions} {va : Word}
  {cause : FaultCause} {pages : FaultPages}

/-- The branch of `page_fault_handler` that brought the state about. -/
inductive Branch (s : Vm) (task : ℕ) (curr : UserRegions) (va : Word) (cause : FaultCause)
    (pages : FaultPages) (t : Vm) : Prop
  | copied (shared : SharedStore ((s.pgd task).entryAt (userSlot va)) cause)
      (ran : s.cowFault task (userSlot va) pages.page = some t)
  | region {vma : VmArea} (single : ¬ SharedStore ((s.pgd task).entryAt (userSlot va)) cause)
      (found : regionAt curr va = some vma) (allowed : cause.allowedBy vma.prot = true)
      (ran : s.zeroPage task (pageVa va) (mmapPageProt vma.prot) pages = some t)
  | stack (single : ¬ SharedStore ((s.pgd task).entryAt (userSlot va)) cause) (stack : InStack va)
      (ran : s.zeroPage task (pageVa va) protUserRw pages = some t)
  | code (single : ¬ SharedStore ((s.pgd task).entryAt (userSlot va)) cause)
      (code : va < curr.memory.codeSize)
      (ran : s.codePage task curr (pageVa va) pages = some t)

theorem pageFaultHandler_branch
    (result : s.pageFaultHandler task curr va cause pages = some (.returned t)) :
    Branch s task curr va cause pages t := by
  rw [Vm.pageFaultHandler] at result
  split at result
  · rename_i store
    obtain ⟨u, copied, same⟩ := Option.map_eq_some_iff.mp result
    obtain rfl := FaultEnd.returned.inj same
    exact .copied ⟨store.1, checkCow_ne_zero.mp store.2⟩ copied
  rename_i notStore
  have single : ¬ SharedStore ((s.pgd task).entryAt (userSlot va)) cause := fun both =>
    notStore ⟨both.1, checkCow_ne_zero.mpr both.2⟩
  split at result
  · rename_i vma found
    obtain ⟨found, allowed⟩ := Option.filter_eq_some_iff.mp found
    obtain ⟨u, installed, same⟩ := Option.map_eq_some_iff.mp result
    obtain rfl := FaultEnd.returned.inj same
    exact .region single found allowed installed
  rw [Vm.stackOrCodeFault] at result
  split at result
  · rename_i stack
    obtain ⟨u, installed, same⟩ := Option.map_eq_some_iff.mp result
    obtain rfl := FaultEnd.returned.inj same
    exact .stack single stack installed
  split at result
  · rename_i code
    obtain ⟨u, installed, same⟩ := Option.map_eq_some_iff.mp result
    obtain rfl := FaultEnd.returned.inj same
    exact .code single code installed
  · cases Option.some.inj result

/-- Where the handler brings a page in there was no valid entry, unless the fault is misdirected. -/
theorem Branch.absent (branch : Branch s task curr va cause pages t)
    (mapped : Mapped curr (s.pgd task)) (valid : Valid curr.memory) (user : User va)
    (faults : ¬ Permits ((s.pgd task).entryAt (userSlot va)) cause)
    (directed : ¬ Misdirected s task curr va cause) :
    SharedStore ((s.pgd task).entryAt (userSlot va)) cause ∨
    ¬ present ((s.pgd task).entryAt (userSlot (pageVa va))) = true := by
  rw [userSlot_pageVa]
  cases branch with
  | copied shared => exact .inl shared
  | region single found allowed =>
    exact .inr (not_present mapped user faults single ((allows_region valid found).mpr allowed))
  | stack single stack =>
    have notFetch : cause ≠ .fetch := fun fetch => directed (.inl ⟨fetch, stack⟩)
    exact .inr (not_present mapped user faults single ((allows_stack valid stack).mpr notFetch))
  | code single code =>
    have notStore : cause ≠ .store := fun store => directed (.inr ⟨store, code, single⟩)
    exact .inr (not_present mapped user faults single ((allows_code valid code).mpr notStore))

theorem region_flags (prot : BitVec 32) : (mmapPageProt prot ||| pteV).toNat < 2 ^ 10 := by
  unfold mmapPageProt
  dsimp only
  split_ifs <;> decide

/-- A fault that is not misdirected writes an entry where there is none, or copies a shared page. -/
theorem Balanced.pageFault (balanced : Balanced base s) (taskLive : task ∈ s.live)
    (mapped : Mapped curr (s.pgd task)) (valid : Valid curr.memory) (user : User va)
    (faults : ¬ Permits ((s.pgd task).entryAt (userSlot va)) cause)
    (directed : ¬ Misdirected s task curr va cause)
    (result : s.pageFaultHandler task curr va cause pages = some (.returned t)) :
    Balanced base t := by
  have user' := user_pageVa user
  have branch := pageFaultHandler_branch result
  have absent := branch.absent mapped valid user faults directed
  cases branch with
  | copied shared ran => exact balanced.cowFault taskLive ran
  | region single found allowed ran =>
    exact balanced.zeroPage taskLive user' (region_flags _) (absent.resolve_left single) ran
  | stack single stack ran =>
    exact balanced.zeroPage taskLive user' (by decide) (absent.resolve_left single) ran
  | code single code ran => exact balanced.codePage taskLive user' (absent.resolve_left single) ran

/-- The population loop goes from page to page. -/
private theorem populate_vas (vaStart pageProt : Word)
    (allocate : ℕ → Option Word) (i remaining : ℕ) :
    ∃ n ≤ remaining, (populate vaStart pageProt allocate i remaining).1.map MapRequest.va =
      (List.range' i n).map fun k => vaStart + BitVec.ofNat 64 (4096 * k) := by
  induction remaining generalizing i with
  | zero => exact ⟨0, le_rfl, rfl⟩
  | succ remaining ih =>
    rw [populate]
    cases allocate i with
    | none => exact ⟨0, Nat.zero_le _, rfl⟩
    | some page =>
      obtain ⟨n, bound, rest⟩ := ih (i + 1)
      refine ⟨n + 1, Nat.succ_le_succ bound, ?_⟩
      rw [List.range'_succ]
      exact congrArg (List.cons _) rest

/-- It names no page twice. -/
private theorem nodup_populate {vaStart pageProt : Word} {allocate : ℕ → Option Word}
    {remaining : ℕ} (small : 4096 * remaining < 2 ^ 64) :
    ((populate vaStart pageProt allocate 0 remaining).1.map MapRequest.va).Nodup := by
  obtain ⟨n, bound, vas⟩ := populate_vas vaStart pageProt allocate 0 remaining
  rw [vas]
  apply List.Nodup.map_on _ List.nodup_range'
  intro a memberA b memberB same
  have offsets := congrArg BitVec.toNat (add_left_cancel same)
  rw [BitVec.toNat_ofNat, BitVec.toNat_ofNat] at offsets
  have insideA := List.mem_range'_1.mp memberA
  have insideB := List.mem_range'_1.mp memberB
  omega

theorem nodup_sysMmap (curr : MmapTask) (addr length : Word) (prot flags : BitVec 32)
    (allocate : ℕ → Option Word) :
    ((sysMmap curr addr length prot flags allocate).2.2.map MapRequest.va).Nodup := by
  rw [sysMmap]
  dsimp only
  generalize (if hintRejected curr addr (align length 4096#32) then
    findFreeVmaSpace curr (align length 4096#32) else addr) =
    vaStart
  have populated :
      ((populate vaStart (mmapPageProt prot) allocate 0 ((align length 4096#32).toNat / 4096)).1.map
      MapRequest.va).Nodup := by
    apply nodup_populate
    have bound := (align length 4096#32).isLt
    omega
  split_ifs
  · exact List.nodup_nil
  · exact List.nodup_nil
  · exact List.nodup_nil
  · exact populated
  · exact populated
  · exact List.nodup_nil

/-- Populating a new region brings in one page after the other, each where there is no entry. -/
theorem populate_rule {P : Vm → Prop} {requests : List MapRequest} {tables : Word → Word × Word}
    {vma : VmArea} (appends : Appends curr next vma) (valid : Valid next.memory)
    (requestsOf : RequestsOf vma requests) (nodup : (requests.map MapRequest.va).Nodup)
    (kept : ∀ {s u : Vm} {request}, request ∈ requests → P s →
      ¬ present ((s.pgd task).entryAt (userSlot request.va)) = true →
      s.zeroPage task request.va request.prot ⟨physToVirt request.pa, (tables request.va).1,
        (tables request.va).2⟩ = some u →
      P u)
    (start : P s)
    (absent : ∀ request ∈ requests, ¬ present ((s.pgd task).entryAt (userSlot request.va)) = true)
    (result : s.populate task requests tables = some t) : P t := by
  induction requests generalizing s with
  | nil =>
    obtain rfl := Option.some.inj result
    exact start
  | cons request rest ih =>
    rw [populate_cons] at result
    obtain ⟨u, first, result⟩ := Option.bind_eq_some_iff.mp result
    obtain ⟨user, aligned, -⟩ := appends.request valid requestsOf List.mem_cons_self
    obtain ⟨notLater, nodupRest⟩ := List.nodup_cons.mp nodup
    apply ih (fun other member => requestsOf other (List.mem_cons_of_mem _ member)) nodupRest
      (fun member => kept (List.mem_cons_of_mem _ member))
      (kept List.mem_cons_self start (absent request List.mem_cons_self) first) _ result
    intro other member
    obtain ⟨user', aligned', -⟩ :=
      appends.request valid requestsOf (List.mem_cons_of_mem request member)
    have elsewhere : userSlot other.va ≠ userSlot request.va := by
      intro same
      apply notLater
      have start := aligned_pageVa other.va
      rw [aligned'] at start
      rw [← aligned, ← pageVa_of_userSlot user user' start same]
      exact List.mem_map_of_mem member
    rw [((zeroPage_writes first).2 user).entry, Function.update_of_ne elsewhere]
    exact absent other (List.mem_cons_of_mem _ member)

theorem Balanced.populate {requests : List MapRequest} {tables : Word → Word × Word} {vma : VmArea}
    (balanced : Balanced base s) (taskLive : task ∈ s.live) (appends : Appends curr next vma)
    (valid : Valid next.memory) (requestsOf : RequestsOf vma requests)
    (nodup : (requests.map MapRequest.va).Nodup)
    (absent : ∀ request ∈ requests, ¬ present ((s.pgd task).entryAt (userSlot request.va)) = true)
    (result : s.populate task requests tables = some t) : Balanced base t := by
  have kept : task ∈ t.live ∧ Balanced base t := by
    apply populate_rule (P := fun s => task ∈ s.live ∧ Balanced base s)
      appends valid requestsOf nodup _
      ⟨taskLive, balanced⟩ absent result
    intro s u request member before missing ran
    obtain ⟨user, -, -⟩ := appends.request valid requestsOf member
    have flags : (request.prot ||| pteV).toNat < 2 ^ 10 := by
      rw [(requestsOf request member).2]
      exact region_flags _
    refine ⟨?_, before.2.zeroPage before.1 user flags missing ran⟩
    rw [(zeroPage_memoryOnly ran).live]
    exact before.1
  exact kept.2

/-- Where a new region lies, nothing was mapped. -/
theorem Appends.uncovered {vma : VmArea} (appends : Appends curr next vma)
    (valid : Valid next.memory) {page : Word} (found : regionAt next page = some vma) :
    ¬ Covered curr page := by
  have inside := (regionAt_spec found).2
  rintro (old | stack | code)
  · obtain ⟨other, here⟩ := Option.isSome_iff_exists.mp old
    obtain ⟨member, low, high⟩ := regionAt_spec here
    have apart := valid.apart
    rw [appends.vmas] at apart
    have disjoint := (List.pairwise_append.mp apart).2.2 other member vma List.mem_cons_self
    rw [VmaTable.Apart] at disjoint
    omega
  · rw [regionAt_stack valid stack] at found
    cases found
  · rw [regionAt_code valid (appends.codeSize ▸ code)] at found
    cases found

theorem Inside.populate {requests : List MapRequest} {tables : Word → Word × Word} {vma : VmArea}
    (inside : Inside next (s.pgd task)) (appends : Appends curr next vma)
    (valid : Valid next.memory) (requestsOf : RequestsOf vma requests)
    (result : s.populate task requests tables = some t) :
    Inside next (t.pgd task) := by
  apply EveryEntry.populate inside appends valid requestsOf result
  intro page pa found
  rw [Covered, found]
  exact .inl rfl

end Faults

/-! ## What the operations leave alone -/

section MemoryOnly

variable {s t u : Vm} {task : ℕ} {va : Word} {pages : FaultPages}

theorem pageFaultHandler_memoryOnly {curr : UserRegions} {cause : FaultCause}
    (result : s.pageFaultHandler task curr va cause pages = some (.returned t)) :
    MemoryOnly s t := by
  cases pageFaultHandler_branch result with
  | copied _ ran => exact .cowFault ran
  | region _ _ _ ran => exact zeroPage_memoryOnly ran
  | stack _ _ ran => exact zeroPage_memoryOnly ran
  | code _ _ ran => exact codePage_memoryOnly ran

theorem populate_memoryOnly {requests : List MapRequest} {tables : Word → Word × Word}
    (result : s.populate task requests tables = some t) : MemoryOnly s t := by
  induction requests generalizing s with
  | nil =>
    obtain rfl := Option.some.inj result
    exact ⟨rfl, rfl⟩
  | cons request rest ih =>
    rw [populate_cons] at result
    obtain ⟨u, first, result⟩ := Option.bind_eq_some_iff.mp result
    exact (zeroPage_memoryOnly first).trans (ih result)

end MemoryOnly

/-! ## Runs -/

/-- A task without a signal that `check_pending_signals` would deliver. -/
def Undisturbed (s : Vm) (task : ℕ) : Prop := ¬ (s.pending task = true ∧ s.sigHandler task ≠ 0#64)

/-- Nothing in the step makes the kernel lose a page: no count overflows, the VMA tables stay valid,
the access of a fault is refused by its entry and not misdirected, and no signal is delivered. -/
def Orderly (s : UserProcesses) (event : FaultProgress.Event) (t : UserProcesses) : Prop :=
  match event with
  | .sysFork parent _ => Room s.vm parent
  | .exec task | .sysMmap task _ => Valid (t.regions task).memory
  | .pageFault task va cause =>
    ¬ Permits ((s.vm.pgd task).entryAt (userSlot va)) cause ∧
      ¬ Misdirected s.vm task (s.regions task) va cause
  | .checkPendingSignals task => Undisturbed s.vm task
  | _ => True

/-- The steps that are orderly. -/
def orderly : System UserProcesses FaultProgress.Event :=
  ⟨fun s event t => Orderly s event t ∧ FaultProgress.transitions.Step s event t⟩

/-- What such a run keeps. -/
structure Conserved (base : ℕ) (s : UserProcesses) : Prop where
  balanced : Balanced base s.vm
  sound : Sound s
  valid : ∀ {task}, task ∈ s.vm.live → Valid (s.regions task).memory
  inside : ∀ {task}, task ∈ s.vm.live → Inside (s.regions task) (s.vm.pgd task)
  unsignalled : ∀ {task}, task ∈ s.vm.live → s.vm.savedRegs task = 0#64

section Runs

variable {s t : UserProcesses} {base task : ℕ} {u : Vm} {curr : UserRegions}

/-- An operation on one task, with the regions it has afterwards. -/
theorem Conserved.update (conserved : Conserved base s) (balanced : Balanced base u)
    (sound : Sound ⟨u, Function.update s.regions task curr⟩)
    (live : ∀ {other}, other ≠ task → other ∈ u.live → other ∈ s.vm.live)
    (others : ∀ {other}, other ≠ task → u.pgd other = s.vm.pgd other ∧
      u.savedRegs other = s.vm.savedRegs other) (valid : Valid curr.memory)
    (inside : Inside curr (u.pgd task)) (saved : u.savedRegs task = 0#64) :
    Conserved base ⟨u, Function.update s.regions task curr⟩ where
  balanced := balanced
  sound := sound
  valid := by
    intro other inLive
    dsimp only
    rcases eq_or_ne other task with rfl | different
    · rwa [Function.update_self]
    · rw [Function.update_of_ne different]
      exact conserved.valid (live different inLive)
  inside := by
    intro other inLive
    dsimp only
    rcases eq_or_ne other task with rfl | different
    · rwa [Function.update_self]
    · rw [Function.update_of_ne different, (others different).1]
      exact conserved.inside (live different inLive)
  unsignalled := by
    intro other inLive
    rcases eq_or_ne other task with rfl | different
    · exact saved
    · exact (others different).2.trans (conserved.unsignalled (live different inLive))

/-- An operation on one task that leaves the regions as they are. -/
theorem Conserved.vm (task : ℕ) (conserved : Conserved base s) (balanced : Balanced base u)
    (sound : Sound { s with vm := u }) (live : u.live = s.vm.live)
    (saved : u.savedRegs = s.vm.savedRegs)
    (others : ∀ {other}, other ≠ task → u.pgd other = s.vm.pgd other)
    (inside : task ∈ s.vm.live → Inside (s.regions task) (u.pgd task)) :
    Conserved base { s with vm := u } where
  balanced := balanced
  sound := sound
  valid inLive := conserved.valid (live ▸ inLive)
  inside := by
    intro other inLive
    have wasLive : other ∈ s.vm.live := live ▸ inLive
    rcases eq_or_ne other task with rfl | different
    · exact inside wasLive
    · dsimp only
      rw [others different]
      exact conserved.inside wasLive
  unsignalled := by
    intro other inLive
    rw [saved]
    exact conserved.unsignalled (live ▸ inLive)

/-- An operation that touches no table. -/
theorem Conserved.same (conserved : Conserved base s) (balanced : Balanced base u)
    (live : u.live = s.vm.live) (saved : u.savedRegs = s.vm.savedRegs) (pgd : u.pgd = s.vm.pgd) :
    Conserved base { s with vm := u } :=
  conserved.vm 0 balanced (conserved.sound.same pgd) live saved (fun _ => congrFun pgd _)
    fun inLive => by
      rw [pgd]
      exact conserved.inside inLive

theorem Conserved.sysFork {parent child : ℕ} {pages : Vm.ForkPages} (conserved : Conserved base s)
    (parentLive : parent ∈ s.vm.live) (childNew : child ∉ s.vm.live) (room : Room s.vm parent)
    (forked : s.vm.sysFork parent child pages = some u) :
    Conserved base ⟨u, Function.update s.regions child (s.regions parent)⟩ := by
  have forks := fork_forks conserved.balanced.exact.separate parentLive childNew forked
  have notSame : parent ≠ child := fun same => childNew (same ▸ parentLive)
  refine ⟨conserved.balanced.fork parentLive childNew room forked,
    conserved.sound.sysFork notSame forked, ?_, ?_, ?_⟩
  · intro other inLive
    have wasLive := forks.was_live parentLive inLive
    dsimp only
    rcases eq_or_ne other child with rfl | different
    · rw [Function.update_self]
      exact conserved.valid parentLive
    · rw [Function.update_of_ne different]
      rw [origin_of_ne different] at wasLive
      exact conserved.valid wasLive
  · intro other inLive
    have wasLive := forks.was_live parentLive inLive
    have same := forks.sameMaps other
    dsimp only
    rcases eq_or_ne other child with rfl | different
    · rw [Function.update_self]
      rw [origin_child] at same
      exact (conserved.inside parentLive).sameMaps same
    · rw [Function.update_of_ne different]
      rw [origin_of_ne different] at wasLive same
      exact (conserved.inside wasLive).sameMaps same
  · intro other inLive
    have wasLive := forks.was_live parentLive inLive
    rw [forks.savedRegs]
    rcases eq_or_ne other child with rfl | different
    · rw [Function.update_self]
    · rw [Function.update_of_ne different]
      rw [origin_of_ne different] at wasLive
      exact conserved.unsignalled wasLive

theorem Conserved.sysMmap {addr length ret : Word} {prot flags : BitVec 32}
    {allocate : ℕ → Option Word} {memory : MmapTask} {requests : List MapRequest}
    {tables : Word → Word × Word} (conserved : Conserved base s) (live : task ∈ s.vm.live)
    (called : Model.sysMmap (s.regions task).memory addr length prot flags allocate = (ret, memory,
      requests)) (populated : s.vm.populate task requests tables = some u) (valid : Valid memory) :
    Conserved base
      ⟨u, Function.update s.regions task { s.regions task with memory := memory }⟩ := by
  have only := populate_memoryOnly populated
  have sound := conserved.sound.sysMmap called populated
  have nodup := nodup_sysMmap (s.regions task).memory addr length prot flags allocate
  have inside := conserved.inside live
  suffices kept : Balanced base u ∧ Inside { s.regions task with memory := memory } (u.pgd task) by
    apply conserved.update kept.1 sound (fun _ inLive => only.live ▸ inLive)
      (fun different => ⟨populate_others populated different, by rw [only.savedRegs]⟩) valid kept.2
    rw [only.savedRegs]
    exact conserved.unsignalled live
  rcases sysMmap_cases (s.regions task) addr length prot flags allocate with
    refused | ⟨vma, appends, requestsOf⟩
  · rw [called] at refused
    obtain ⟨rfl, rfl⟩ := Prod.mk.inj refused
    obtain rfl := Option.some.inj populated
    exact ⟨conserved.balanced, inside⟩
  · rw [called] at appends requestsOf nodup
    have absent : ∀ request ∈ requests,
        ¬ present ((s.vm.pgd task).entryAt (userSlot request.va)) = true := by
      intro request member
      obtain ⟨user, aligned, found⟩ := appends.request valid requestsOf member
      have start := aligned_pageVa request.va
      rw [aligned] at start
      exact inside.absent user start (Appends.uncovered appends valid found)
    exact ⟨conserved.balanced.populate live appends valid requestsOf nodup absent populated,
      (inside.append appends).populate appends valid requestsOf populated⟩

/-- The step lemma. -/
theorem Conserved.step {event : FaultProgress.Event} (conserved : Conserved base s)
    (step : orderly.Step s event t) :
    Conserved base t := by
  obtain ⟨safe, step⟩ := step
  have sound := conserved.sound.step step
  have exact := conserved.balanced.exact
  cases step with
  | createUserProcess fresh created size_lt =>
    have joins := createUserProcess_joins exact.separate.valid created
    have mine := joins.mine
    apply conserved.update (conserved.balanced.createUserProcess fresh created) sound
    · intro other different inLive
      rw [joins.live] at inLive
      exact (Finset.mem_insert.mp inLive).resolve_left different
    · intro other different
      refine ⟨joins.others different, ?_⟩
      obtain ⟨v, allocated, rfl⟩ := Option.map_eq_some_iff.mp created
      exact (Function.update_of_ne different _ _).trans
        (congrFun (Bookkeeping.allocatePage allocated).savedRegs other)
    · exact ⟨fun vma member => absurd member List.not_mem_nil, List.Pairwise.nil⟩
    · rw [mine]
      exact EveryEntry.empty _ ⟨_, fun _ => none⟩
    · obtain ⟨v, allocated, rfl⟩ := Option.map_eq_some_iff.mp created
      exact Function.update_self _ _ _
  | @exec task codeStart size live size_lt =>
    obtain ⟨gone, unmaps, -⟩ := exec_unmaps exact.separate live
    have kept : Valid ((s.regions task).load codeStart size size_lt).memory := by
      have after : Valid (Function.update s.regions task
          ((s.regions task).load codeStart size size_lt) task).memory := safe
      rwa [Function.update_self] at after
    apply conserved.update (conserved.balanced.exec live) sound
    · exact fun different inLive => (unmaps.live different).mp inLive
    · exact fun different => ⟨unmaps.others different, by rw [unmaps.savedRegs]⟩
    · exact kept
    · rw [clearUserSpaceMappings_pgd, Function.update_self]
      exact EveryEntry.empty _ _
    · rw [unmaps.savedRegs]
      exact conserved.unsignalled live
  | sysFork live fresh forked => exact conserved.sysFork live fresh safe forked
  | @sysMmap task _ _ _ _ _ _ memory _ _ u live called populated =>
    have after : Valid (Function.update s.regions task
        { s.regions task with memory := memory } task).memory := safe
    rw [Function.update_self] at after
    exact conserved.sysMmap live called populated after
  | @pageFault task va cause pages u live user handled =>
    have cases := pageFaultHandler_handled user handled
    have only := pageFaultHandler_memoryOnly handled
    have valid := conserved.valid live
    have balanced := conserved.balanced.pageFault live (conserved.sound task valid)
      valid user safe.1 safe.2 handled
    exact conserved.vm task balanced sound only.live only.savedRegs cases.others fun _ =>
      (conserved.inside live).fault valid user cases
  | sysSignal => exact conserved.same (conserved.balanced.congr rfl rfl rfl rfl rfl) rfl rfl rfl
  | @sysKill task =>
    have kept : Balanced base (s.vm.sysKill task) ∧ (s.vm.sysKill task).live = s.vm.live ∧
        (s.vm.sysKill task).savedRegs = s.vm.savedRegs := by
      rw [Vm.sysKill]
      split
      · exact ⟨conserved.balanced.congr rfl rfl rfl rfl rfl, rfl, rfl⟩
      · exact ⟨conserved.balanced, rfl, rfl⟩
    exact conserved.same kept.1 kept.2.1 kept.2.2 (sysKill_pgd s.vm task)
  | @checkPendingSignals task pages u live delivered =>
    have idle : (s.vm.pending task && decide (s.vm.sigHandler task ≠ 0#64)) = false := by
      rw [Bool.and_eq_false_iff, decide_eq_false_iff_not, ← Bool.not_eq_true, ← not_and_or]
      exact safe
    rw [Vm.checkPendingSignals, idle] at delivered
    obtain rfl := Option.some.inj delivered
    exact conserved
  | @sysSigreturn task live =>
    have nothing : s.vm.sysSigreturn task = s.vm := by
      rw [Vm.sysSigreturn, if_neg (not_not.mpr (conserved.unsignalled live))]
    rw [nothing]
    exact conserved
  | store live written =>
    have only := writeByte_pgd written
    obtain ⟨-, stored⟩ := Option.ite_none_right_eq_some.mp written
    have balanced := conserved.balanced.writeByte written
    obtain rfl := Option.some.inj stored
    exact conserved.same balanced rfl rfl only
  | @exit task live =>
    obtain ⟨gone, unmaps, left, -⟩ := exit_unmaps exact.separate live
    have inLive : ∀ {other}, other ∈ (s.vm.freeUserPageTable task).live → other ∈ s.vm.live := by
      intro other member
      rw [left] at member
      exact Finset.mem_of_mem_erase member
    refine ⟨(conserved.balanced.exit live).1, sound, fun member => conserved.valid (inLive member),
      fun member => ?_, fun member => ?_⟩
    · dsimp only
      rw [freeUserPageTable_pgd]
      exact conserved.inside (inLive member)
    · rw [unmaps.savedRegs]
      exact conserved.unsignalled (inLive member)

end Runs

end OscKernel.Soundness.MemoryAccounts
