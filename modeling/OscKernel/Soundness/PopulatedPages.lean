import OscKernel.Soundness.FaultProgress

/-! # Populated pages and pages mapped on demand

The entry of a page of a region, whether `sys_mmap` has populated the page or a fault has brought it
in, has the flags that `prot` is translated to. They let a region that may be written also be read,
while `page_fault_handler` refuses the load where `prot` does not say so. So the outcome of an
access depends on the history of the page for a load from such a region, and for no other access.
-/

namespace OscKernel.Soundness.PopulatedPages

open OscKernel.Lib OscKernel.Model OscKernel.Soundness.PageTables OscKernel.Soundness.UserMappings
open OscKernel.Soundness.FaultProgress
open OscKernel.Soundness.PageWalks (User present_makePte)
open OscKernel.Soundness.VmaTable (Valid serve_valid)

/-! ## Accesses -/

inductive Outcome where
  | succeeds
  | killed
  | faultsAgain
  deriving DecidableEq

/-- How a user access ends, directly or when `page_fault_handler` is through. -/
inductive Access (s : Vm) (task : ℕ) (curr : UserRegions) (va : Word) (cause : FaultCause) :
    Outcome → Prop
  | direct (permits : Permits ((s.pgd task).entryAt (userSlot va)) cause) :
      Access s task curr va cause .succeeds
  | handled {pages : FaultPages} {t : Vm}
      (faults : ¬ Permits ((s.pgd task).entryAt (userSlot va)) cause)
      (ran : s.pageFaultHandler task curr va cause pages = some (.returned t))
      (permits : Permits ((t.pgd task).entryAt (userSlot va)) cause) :
      Access s task curr va cause .succeeds
  | refused {pages : FaultPages} {t : Vm}
      (faults : ¬ Permits ((s.pgd task).entryAt (userSlot va)) cause)
      (ran : s.pageFaultHandler task curr va cause pages = some (.returned t))
      (still : ¬ Permits ((t.pgd task).entryAt (userSlot va)) cause) :
      Access s task curr va cause .faultsAgain
  | killed {pages : FaultPages} (faults : ¬ Permits ((s.pgd task).entryAt (userSlot va)) cause)
      (ran : s.pageFaultHandler task curr va cause pages = some .threadExit) :
      Access s task curr va cause .killed

/-- A load from a region that may be written and not read. -/
def WriteOnlyLoad (prot : BitVec 32) (cause : FaultCause) : Prop :=
  cause = .load ∧ prot &&& 2#32 ≠ 0#32 ∧ prot &&& 1#32 = 0#32

instance (prot : BitVec 32) (cause : FaultCause) : Decidable (WriteOnlyLoad prot cause) :=
  inferInstanceAs (Decidable (_ ∧ _ ∧ _))

/-- Every region of the process lies in the user half. -/
def InUserHalf (curr : UserRegions) : Prop :=
  ∀ vma ∈ curr.memory.vmas, vma.start.toNat < vma.stop.toNat ∧ vma.stop.toNat ≤ 0x4000000000

/-- The process is not forked, gets no signal and executes no other program once it has mapped a
region. -/
def Undisturbed (task : ℕ) (s : UserProcesses) : FaultProgress.Event → Prop
  | .exec other => other = task → (s.regions task).memory.vmas = []
  | .sysFork parent child => parent ≠ task ∧ child ≠ task
  | .checkPendingSignals other => other ≠ task
  | _ => True

/-- All accesses of this kind, at any page of a region with these permissions, have the same
outcome, whatever the process has accessed and mapped before; and they have one where allocation
succeeds. -/
def Determined (prot : BitVec 32) (cause : FaultCause) : Prop :=
  ∃ outcome, ∀ {vm : Vm} {past : List FaultProgress.Event} {s : UserProcesses} {task : ℕ},
    (transitions.restrict (Undisturbed task)).Path (boot vm) past s → task ∈ s.vm.live →
    InUserHalf (s.regions task) → ∀ vma ∈ (s.regions task).memory.vmas, vma.prot = prot →
    ∀ va, vma.contains va = true →
      (∀ pages, Supplied s.vm pages → ∃ actual, Access s.vm task (s.regions task) va cause actual) ∧
      ∀ actual, Access s.vm task (s.regions task) va cause actual → actual = outcome

/-! ## The entries of regions -/

/-- The translation of `prot`: what may be written may also be read. -/
theorem granted_iff (prot : BitVec 32) (cause : FaultCause) :
    (mmapPageProt prot ||| pteV) &&& permission cause ≠ 0#64 ↔ cause.allowedBy prot = true ∨
    WriteOnlyLoad prot cause := by
  unfold mmapPageProt WriteOnlyLoad
  dsimp only
  cases cause <;> simp only [FaultCause.allowedBy, decide_eq_true_eq] <;>
    split_ifs <;> simp_all <;> decide

/-- What the flags of a region let code do. -/
theorem permits_region_iff (prot : BitVec 32) (pa : Word) (cause : FaultCause) :
    Permits (makePte pa (mmapPageProt prot ||| pteV)) cause ↔ cause.allowedBy prot = true ∨
    WriteOnlyLoad prot cause := by
  rw [← granted_iff]
  constructor
  · intro permits refused
    exact not_permits_makePte refused pa permits
  · intro granted
    apply ((fits_region prot).makePte pa).permits_of_granted (present_makePte pa _)
    have bit : ∀ i, i < 10 → ((makePte pa (mmapPageProt prot ||| pteV)) &&& (1#64 <<< i) ≠ 0#64 ↔
        (mmapPageProt prot ||| pteV) &&& (1#64 <<< i) ≠ 0#64) := by
      intro i small
      rw [and_bit_ne_zero _ i (by omega), and_bit_ne_zero _ i (by omega), getLsbD_makePte small]
    cases cause with
    | fetch => exact (bit 3 (by decide)).mpr granted
    | load => exact (bit 1 (by decide)).mpr granted
    | store => exact (bit 2 (by decide)).mpr granted

/-- A valid entry lies in a region and has its flags, or it lies in the stack or in the code. -/
def Placed (curr : UserRegions) (page pte : Word) : Prop :=
  match regionAt curr page with
  | some vma => ∃ pa, pte = makePte pa (mmapPageProt vma.prot ||| pteV)
  | none => InStack page ∨ page < curr.memory.codeSize

/-- What holds of a process that is undisturbed. -/
def Kept (task : ℕ) (s : UserProcesses) : Prop := InUserHalf (s.regions task) →
  Valid (s.regions task).memory ∧ EveryEntry (Placed (s.regions task)) (s.vm.pgd task)

section Steps

variable {s next : UserProcesses} {t : Vm} {task : ℕ} {curr : UserRegions}
  {va pa : Word} {cause : FaultCause}

theorem placed_region {vma : VmArea} (found : regionAt curr va = some vma) (pa : Word) :
    Placed curr va (makePte pa (mmapPageProt vma.prot ||| pteV)) := by
  rw [Placed, found]
  exact ⟨pa, rfl⟩

theorem placed_stack (valid : Valid curr.memory) (stack : InStack va)
    (pte : Word) : Placed curr va pte := by
  rw [Placed, regionAt_stack valid stack]
  exact .inl stack

theorem placed_code (valid : Valid curr.memory) (code : va < curr.memory.codeSize)
    (pte : Word) : Placed curr va pte := by
  rw [Placed, regionAt_code valid code]
  exact .inr code

/-- No page of a region is shared. -/
theorem Placed.not_shared {page pte pte' : Word} (placed : Placed curr page pte)
    (shared : copyOnWrite pte = true) :
    Placed curr page pte' := by
  rw [Placed] at placed ⊢
  cases found : regionAt curr page with
  | none =>
    rw [found] at placed
    exact placed
  | some vma =>
    rw [found] at placed
    obtain ⟨pa, rfl⟩ := placed
    rw [copyOnWrite_eq, getLsbD_makePte (by decide), region_single] at shared
    cases shared

/-- A page fault installs the entries of the process in their places. -/
private theorem fault_placed {s t : Vm} (every : EveryEntry (Placed curr) (s.pgd task))
    (valid : Valid curr.memory) (user : User va)
    (handled : Handled s task curr va cause pa (.returned t)) :
    EveryEntry (Placed curr) (t.pgd task) := by
  have onlyPage : ∀ page, User page → Aligned page →
      userSlot page = userSlot va → page = pageVa va :=
    fun page user' aligned same => pageVa_of_userSlot user user' aligned same
  cases handled with
  | copied shared writes =>
    apply every.write writes
    intro page user' aligned same
    have placed := every page user' aligned (by rw [same]; exact shared.2.1)
    rw [same] at placed
    exact placed.not_shared shared.2.2
  | region single found allowed writes =>
    apply every.write writes
    intro page user' aligned same
    rw [onlyPage page user' aligned same]
    rw [← regionAt_pageVa valid] at found
    exact placed_region found pa
  | stack single refused stack writes =>
    apply every.write writes
    intro page user' aligned same
    rw [onlyPage page user' aligned same]
    exact placed_stack valid ((inStack_pageVa va).mpr stack) _
  | code single refused offStack code writes =>
    apply every.write writes
    intro page user' aligned same
    rw [onlyPage page user' aligned same]
    exact placed_code valid (pageVa_lt code) _

/-- Where a new region lies nothing was mapped. -/
private theorem append_placed {next : UserRegions} {vma : VmArea} {pgd : Pgd}
    (every : EveryEntry (Placed curr) pgd) (appends : Appends curr next vma)
    (valid : Valid next.memory) : EveryEntry (Placed next) pgd := by
  intro page user aligned there
  have placed := every page user aligned there
  rw [Placed] at placed
  cases found : regionAt curr page with
  | none =>
    rw [found] at placed
    rcases placed with stack | code
    · exact placed_stack valid stack _
    · exact placed_code valid (appends.codeSize ▸ code) _
  | some old =>
    rw [found] at placed
    have later := appends.regionAt page
    rw [found, Option.some_or] at later
    rw [Placed, later]
    exact placed

theorem Kept.same (kept : Kept task s) (regions : next.regions task = s.regions task)
    (tables : next.vm.pgd task = s.vm.pgd task) : Kept task next := by
  rw [Kept, regions, tables]
  exact kept

theorem Kept.unchanged (kept : Kept task s) (tables : t.pgd = s.vm.pgd) :
    Kept task { s with vm := t } :=
  kept.same rfl (congrFun tables task)

theorem Kept.sysMmap (kept : Kept task s) {addr length ret : Word} {prot flags : BitVec 32}
    {allocate : ℕ → Option Word} {memory : MmapTask} {requests : List MapRequest}
    {tables : Word → Word × Word}
    (called : sysMmap (s.regions task).memory addr length prot flags allocate =
      (ret, memory, requests)) (populated : s.vm.populate task requests tables = some t) :
    Kept task ⟨t, Function.update s.regions task { s.regions task with memory := memory }⟩ := by
  rw [Kept]
  simp only [Function.update_self]
  intro inUserHalf
  rcases sysMmap_cases (s.regions task) addr length prot flags allocate with
    refused | ⟨vma, appends, requestsOf⟩
  · rw [called] at refused
    obtain ⟨rfl, rfl⟩ := Prod.mk.inj refused
    obtain rfl := Option.some.inj populated
    exact kept inUserHalf
  · have before : InUserHalf (s.regions task) := by
      intro other member
      apply inUserHalf other
      rw [called] at appends
      rw [appends.vmas]
      exact List.mem_append_left _ member
    obtain ⟨valid, every⟩ := kept before
    have served : VmaTable.serve (s.regions task).memory ⟨addr, length, prot, flags, allocate⟩ =
        memory := by
      rw [VmaTable.serve, called]
    have later : Valid memory := by
      rw [← served]
      apply serve_valid valid
      rw [served]
      exact inUserHalf
    rw [called] at appends requestsOf
    refine ⟨later, ?_⟩
    apply (append_placed every appends later).populate appends later requestsOf populated
    exact fun page pa found => placed_region found pa

/-- A step that leaves the process undisturbed. -/
theorem Kept.step {event : FaultProgress.Event} (kept : Kept task s)
    (step : (transitions.restrict (Undisturbed task)).Step s event next) : Kept task next := by
  obtain ⟨undisturbed, step⟩ := step
  cases step with
  | @createUserProcess other pgd codeStart size t fresh created size_lt =>
    obtain ⟨u, allocated, rfl⟩ := Option.map_eq_some_iff.mp created
    rcases eq_or_ne task other with rfl | different
    · rw [Kept]
      simp only [Function.update_self]
      exact fun _ => ⟨VmaTable.valid_of_fresh rfl, EveryEntry.empty _ ⟨_, fun _ => none⟩⟩
    · apply kept.same (Function.update_of_ne different _ _)
      rw [← (Bookkeeping.allocatePage allocated).pgd]
      exact Function.update_of_ne different _ _
  | @exec other codeStart size live size_lt =>
    have tables := clearUserSpaceMappings_pgd s.vm other
    rcases eq_or_ne task other with rfl | different
    · rw [Kept]
      simp only [Function.update_self, tables]
      exact fun _ => ⟨VmaTable.valid_of_fresh (undisturbed rfl), EveryEntry.empty _ _⟩
    · apply kept.same (Function.update_of_ne different _ _)
      rw [tables, Function.update_of_ne different]
  | sysFork live fresh forked =>
    obtain ⟨notParent, notChild⟩ := undisturbed
    apply kept.same (Function.update_of_ne notChild.symm _ _)
    rw [sysFork_pgd forked, Function.update_of_ne notChild.symm,
      Function.update_of_ne notParent.symm]
  | @sysMmap other addr length ret prot flags allocate memory requests tables
      t live called populated =>
    rcases eq_or_ne task other with rfl | different
    · exact kept.sysMmap called populated
    · exact kept.same (Function.update_of_ne different _ _) (populate_others populated different)
  | @pageFault other faultAddr cause pages t live user handled =>
    have cases := pageFaultHandler_handled user handled
    rcases eq_or_ne task other with rfl | different
    · intro inUserHalf
      obtain ⟨valid, every⟩ := kept inUserHalf
      exact ⟨valid, fault_placed every valid user cases⟩
    · exact kept.same rfl (cases.others different)
  | sysSignal => exact kept
  | @sysKill other => exact kept.unchanged (sysKill_pgd s.vm other)
  | @checkPendingSignals other pages t live delivered =>
    have different : task ≠ other := Ne.symm undisturbed
    obtain ⟨others, -⟩ := @checkPendingSignals_mapped _ _ _ (s.regions other) _ delivered
    exact kept.same rfl (others different)
  | @sysSigreturn other live => exact kept.unchanged (sysSigreturn_pgd s.vm other)
  | store live written => exact kept.unchanged (writeByte_pgd written)
  | @exit other live => exact kept.unchanged (freeUserPageTable_pgd s.vm other)

end Steps

theorem kept_boot (vm : Vm) (task : ℕ) : Kept task (boot vm) :=
  fun _ => ⟨VmaTable.valid_of_fresh rfl, EveryEntry.empty _ ⟨0#64, fun _ => none⟩⟩

/-! ## One access -/

section Access

variable {s : Vm} {task : ℕ} {curr : UserRegions} {vma : VmArea} {va pa : Word} {cause : FaultCause}

/-- Regions are apart, so the handler finds the one that has the address. -/
theorem regionAt_of_mem (valid : Valid curr.memory) (member : vma ∈ curr.memory.vmas)
    (contained : vma.contains va = true) :
    regionAt curr va = some vma := by
  cases found : regionAt curr va with
  | none =>
    have missing := List.find?_eq_none.mp found vma member
    exact absurd contained missing
  | some other =>
    obtain ⟨isRegion, low, high⟩ := regionAt_spec found
    obtain ⟨low', high'⟩ := (contains_iff vma va).mp contained
    by_cases same : other = vma
    · rw [same]
    · have symmetric : Std.Symm VmaTable.Apart := ⟨fun a b apart => apart.symm⟩
      have apart := valid.apart.forall isRegion member same
      rw [VmaTable.Apart] at apart
      omega

/-- Where the entry of a page in a region is valid, it has the flags of the region. -/
theorem entry_of_region (every : EveryEntry (Placed curr) (s.pgd task)) (valid : Valid curr.memory)
    (user : User va) (found : regionAt curr va = some vma)
    (there : present ((s.pgd task).entryAt (userSlot va)) = true) :
    ∃ pa, (s.pgd task).entryAt (userSlot va) = makePte pa (mmapPageProt vma.prot ||| pteV) := by
  have placed := every (pageVa va) (user_pageVa user) (aligned_pageVa va)
  rw [userSlot_pageVa, Placed, regionAt_pageVa valid, found] at placed
  exact placed there

private theorem permits_entry_iff (every : EveryEntry (Placed curr) (s.pgd task))
    (valid : Valid curr.memory) (user : User va) (found : regionAt curr va = some vma) :
    Permits ((s.pgd task).entryAt (userSlot va)) cause ↔
      present ((s.pgd task).entryAt (userSlot va)) = true ∧
      (cause.allowedBy vma.prot = true ∨ WriteOnlyLoad vma.prot cause) := by
  constructor
  · intro permits
    obtain ⟨pa, same⟩ := entry_of_region every valid user found permits.present
    refine ⟨permits.present, ?_⟩
    rw [same] at permits
    exact (permits_region_iff _ pa cause).mp permits
  · rintro ⟨there, granted⟩
    obtain ⟨pa, same⟩ := entry_of_region every valid user found there
    rw [same]
    exact (permits_region_iff _ pa cause).mpr granted

/-- The handler of a fault in a region looks at its permissions only. -/
theorem region_handled (every : EveryEntry (Placed curr) (s.pgd task)) (valid : Valid curr.memory)
    (user : User va) (found : regionAt curr va = some vma) {fault : FaultEnd}
    (handled : Handled s task curr va cause pa fault) :
    (fault = .threadExit ∧ cause.allowedBy vma.prot = false) ∨
      ∃ t, fault = .returned t ∧ cause.allowedBy vma.prot = true ∧
      Permits ((t.pgd task).entryAt (userSlot va)) cause := by
  cases handled with
  | copied shared writes =>
    obtain ⟨pa, same⟩ := entry_of_region every valid user found shared.2.1
    have marked := shared.2.2
    rw [same, copyOnWrite_eq, getLsbD_makePte (by decide), region_single] at marked
    cases marked
  | region single found' allowed writes =>
    obtain rfl := Option.some.inj (found.symm.trans found')
    refine .inr ⟨_, rfl, allowed, ?_⟩
    rw [writes.entry, Function.update_self]
    exact (permits_region_iff _ _ cause).mpr (.inl allowed)
  | stack single refused stack writes =>
    rw [regionAt_stack valid stack] at found
    cases found
  | code single refused offStack code writes =>
    rw [regionAt_code valid code] at found
    cases found
  | threadExit single refused offStack offCode => exact .inl ⟨rfl, refused vma found⟩

/-- What an access in a region ends with: its permissions decide, but for the load. -/
private theorem access_outcome (every : EveryEntry (Placed curr) (s.pgd task))
    (valid : Valid curr.memory) (user : User va) (found : regionAt curr va = some vma)
    {actual : Outcome} (access : Access s task curr va cause actual) :
    actual = if cause.allowedBy vma.prot = true ∨
        WriteOnlyLoad vma.prot cause ∧ present ((s.pgd task).entryAt (userSlot va)) = true then
        .succeeds else .killed := by
  have permitted := @permits_entry_iff _ _ _ _ _ cause every valid user found
  cases access with
  | direct permits =>
    obtain ⟨there, granted⟩ := permitted.mp permits
    rw [if_pos (granted.imp_right fun load => ⟨load, there⟩)]
  | handled faults ran permits =>
    rcases region_handled every valid user found (pageFaultHandler_handled user ran) with
      ⟨ended, -⟩ | ⟨t, -, allowed, -⟩
    · cases ended
    · rw [if_pos (.inl allowed)]
  | refused faults ran still =>
    rcases region_handled every valid user found (pageFaultHandler_handled user ran) with
      ⟨ended, -⟩ | ⟨t, same, -, permits⟩
    · cases ended
    · cases same
      exact absurd permits still
  | killed faults ran =>
    rcases region_handled every valid user found (pageFaultHandler_handled user ran) with
      ⟨-, refused⟩ | ⟨t, same, -⟩
    · rw [if_neg]
      rintro (allowed | ⟨load, there⟩)
      · rw [refused] at allowed
        cases allowed
      · exact faults (permitted.mpr ⟨there, .inr load⟩)
    · cases same

private theorem access_exists {pages : FaultPages} (supplied : Supplied s pages) :
    ∃ actual, Access s task curr va cause actual := by
  by_cases permits : Permits ((s.pgd task).entryAt (userSlot va)) cause
  · exact ⟨_, .direct permits⟩
  have ends : (s.pageFaultHandler task curr va cause pages).isSome = true :=
    pageFaultHandler_isSome supplied cause
  obtain ⟨fault, ran⟩ := Option.isSome_iff_exists.mp ends
  cases fault with
  | threadExit => exact ⟨_, .killed permits ran⟩
  | returned t =>
    by_cases later : Permits ((t.pgd task).entryAt (userSlot va)) cause
    · exact ⟨_, .handled permits ran later⟩
    · exact ⟨_, .refused permits ran later⟩

end Access

/-! ## A page that may be written only -/

def onePage (prot flags : BitVec 32) : VmArea := ⟨0x60000000#64, 0x60001000#64, prot, flags⟩

/-- A process with this region. -/
def withPage (prot flags : BitVec 32) : UserRegions :=
  { oneCodePage with memory := { oneCodePage.memory with vmas := [onePage prot flags] } }

theorem inUserHalf_withPage (prot flags : BitVec 32) : InUserHalf (withPage prot flags) := by
  intro vma member
  rw [List.mem_singleton.mp member]
  have ends : (0x60000000#64).toNat < (0x60001000#64).toNat ∧
      (0x60001000#64).toNat ≤ 0x4000000000 := by decide
  exact ends

theorem onePage_contains (prot flags : BitVec 32) :
    (onePage prot flags).contains 0x60000000#64 = true := by
  have ends : (0x60000000#64).toNat ≤ (0x60000000#64).toNat ∧
      (0x60000000#64).toNat < (0x60001000#64).toNat := by decide
  exact (contains_iff _ _).mpr ends

/-- The calls of `map_pages` of a `sys_mmap` of one page. -/
def requestsOf (prot flags : BitVec 32) : List MapRequest :=
  if flags &&& mapPopulate ≠ 0#32 then
    [⟨0x60000000#64, virtToPhys somePages.page, mmapPageProt prot⟩]
  else []

private theorem mmap_onePage (prot flags : BitVec 32) :
    sysMmap oneCodePage.memory 0x60000000#64 4096#64 prot flags (fun _ => some somePages.page) =
      (0x60000000#64, (withPage prot flags).memory, requestsOf prot flags) := by
  have taken : hintRejected oneCodePage.memory 0x60000000#64 4096#64 = false := by decide
  have aligned : align 4096#64 4096#32 = 4096#64 := by decide
  rw [sysMmap]
  simp only [aligned, taken]
  rw [if_neg (by decide), if_neg (by decide), if_neg (by decide)]
  by_cases populates : flags &&& mapPopulate ≠ 0#32
  · rw [if_pos populates, requestsOf, if_pos populates]
    rfl
  · rw [if_neg populates, requestsOf, if_neg populates]
    rfl

/-- The first user process maps the page, once without population and once with it. -/
private theorem two_histories (prot : BitVec 32) : ∃ s t : Vm,
    (∀ u ∈ [(s, 0#32), (t, mapPopulate)], 0 ∈ u.1.live ∧
      (transitions.restrict (Undisturbed 0)).Path (boot unusedMemory)
        [.createUserProcess 0, .sysMmap 0 0x60000000#64]
        ⟨u.1, Function.update (boot unusedMemory).regions 0 (withPage prot u.2)⟩) ∧
    s.pgd 0 = ⟨physToVirt 0#64, fun _ => none⟩ ∧ Supplied s somePages ∧
    (t.pgd 0).entryAt (userSlot 0x60000000#64) = makePte (virtToPhys somePages.page)
    (mmapPageProt prot ||| pteV) := by
  obtain ⟨s, run, live, table, supplied⟩ := one_process
  have maps : ∀ {flags t},
      s.populate 0 (requestsOf prot flags) (fun _ => (somePages.pmd, somePages.pte)) = some t →
      (transitions.restrict (Undisturbed 0)).Path (boot unusedMemory)
        [.createUserProcess 0, .sysMmap 0 0x60000000#64]
        ⟨t, Function.update (boot unusedMemory).regions 0 (withPage prot flags)⟩ := by
    intro flags t populated
    have called : sysMmap ((Function.update (boot unusedMemory).regions 0 oneCodePage) 0).memory
        0x60000000#64 4096#64 prot
        flags (fun _ => some somePages.page) =
        (0x60000000#64, (withPage prot flags).memory, requestsOf prot flags) := by
      rw [Function.update_self]
      exact mmap_onePage prot flags
    have step := Step.sysMmap (s := ⟨s, Function.update (boot unusedMemory).regions 0 oneCodePage⟩)
      live called populated
    simp only [Function.update_self, Function.update_idem] at step
    refine System.Path.restrict_of_takes (run.snoc step) ?_
    rintro u event v ⟨first, second, same, -⟩
    have member : event ∈ first ++ event :: second := List.mem_append_right _ List.mem_cons_self
    rw [← same] at member
    rcases List.mem_pair.mp member with rfl | rfl <;> trivial
  obtain ⟨u, fresh, build, home⟩ := newPage_succeeds supplied
  obtain ⟨t, mapped⟩ :=
    @mapPage_succeeds s 0 0x60000000#64 (mmapPageProt prot) somePages u supplied build home
  have installed : s.zeroPage 0 0x60000000#64 (mmapPageProt prot) somePages = some t := by
    rw [Vm.zeroPage, fresh]
    exact mapped
  have populated : s.populate 0 (requestsOf prot mapPopulate)
      (fun _ => (somePages.pmd, somePages.pte)) = some t := by
    have page : physToVirt (virtToPhys somePages.page) = somePages.page := by decide
    rw [requestsOf, if_pos (by decide), populate_cons]
    simp only [page]
    rw [show (⟨somePages.page, somePages.pmd, somePages.pte⟩ : FaultPages) =
      somePages from rfl, installed]
    rfl
  have writes := (zeroPage_writes installed).2 (by decide)
  refine ⟨s, t, ?_, table, supplied, ?_⟩
  · intro u member
    rcases List.mem_pair.mp member with rfl | rfl
    · have nothing : requestsOf prot 0#32 = [] := if_neg (by decide)
      exact ⟨live, maps (by rw [nothing]; rfl)⟩
    · exact ⟨(zeroPage_memoryOnly installed).live.symm ▸ live, maps populated⟩
  · rw [writes.entry, Function.update_self]

/-- A load from a page that may be written and not read kills the process, and it succeeds where the
page has been populated. -/
theorem load_depends {prot : BitVec 32} (writes : prot &&& 2#32 ≠ 0#32)
    (notReads : prot &&& 1#32 = 0#32) :
    ∃ s t : Vm, (∀ u ∈ [(s, 0#32), (t, mapPopulate)], 0 ∈ u.1.live ∧
      (transitions.restrict (Undisturbed 0)).Path (boot unusedMemory)
        [.createUserProcess 0, .sysMmap 0 0x60000000#64]
        ⟨u.1, Function.update (boot unusedMemory).regions 0 (withPage prot u.2)⟩) ∧
    Access s 0 (withPage prot 0#32) 0x60000000#64 .load .killed ∧
    Access t 0 (withPage prot mapPopulate) 0x60000000#64 .load .succeeds := by
  obtain ⟨s, t, histories, table, supplied, entry⟩ := two_histories prot
  refine ⟨s, t, histories, ?_, ?_⟩
  · have faults : ¬ Permits ((s.pgd 0).entryAt (userSlot 0x60000000#64)) .load := by
      rw [table]
      exact not_permits_missing _ _ _
    have kept : Kept 0 ⟨s, Function.update (boot unusedMemory).regions 0 (withPage prot 0#32)⟩ :=
      (histories (s, 0#32) List.mem_cons_self).2.invariant Kept.step (kept_boot unusedMemory 0)
    rw [Kept] at kept
    simp only [Function.update_self] at kept
    obtain ⟨valid, every⟩ := kept (inUserHalf_withPage prot 0#32)
    have found : regionAt (withPage prot 0#32) 0x60000000#64 = some (onePage prot 0#32) :=
      regionAt_of_mem valid List.mem_cons_self (onePage_contains prot 0#32)
    have ends : (s.pageFaultHandler 0 (withPage prot 0#32) 0x60000000#64 .load somePages).isSome =
        true :=
      pageFaultHandler_isSome supplied .load
    obtain ⟨fault, ran⟩ := Option.isSome_iff_exists.mp ends
    have handled := pageFaultHandler_handled (by decide) ran
    rcases region_handled every valid (by decide) found handled with ⟨rfl, -⟩ | ⟨u, -, allowed, -⟩
    · exact .killed faults ran
    · exact absurd notReads (of_decide_eq_true allowed)
  · apply Access.direct
    rw [entry, permits_region_iff]
    exact .inr ⟨rfl, writes, notReads⟩

theorem not_determined {prot : BitVec 32} (writes : prot &&& 2#32 ≠ 0#32)
    (notReads : prot &&& 1#32 = 0#32) :
    ¬ Determined prot .load := by
  rintro ⟨outcome, determined⟩
  obtain ⟨s, t, histories, killed, succeeds⟩ := load_depends writes notReads
  have same : ∀ u ∈ [(s, 0#32), (t, mapPopulate)], ∀ actual,
      Access u.1 0 (withPage prot u.2) 0x60000000#64 .load actual → actual = outcome := by
    intro u member actual access
    obtain ⟨live, run⟩ := histories u member
    have outcomes := determined run live
    simp only [Function.update_self] at outcomes
    have contained := onePage_contains prot u.2
    exact (outcomes (inUserHalf_withPage prot u.2) _ List.mem_cons_self rfl _ contained).2 actual
      access
  have first := same (s, 0#32) List.mem_cons_self _ killed
  have second := same (t, mapPopulate) (List.mem_cons_of_mem _ List.mem_cons_self) _ succeeds
  rw [← first] at second
  cases second

/-- The outcome of an access in a region is determined by its permissions, for every kind of access
and every history of an undisturbed process, unless it is a load where they allow stores and no
loads. -/
theorem determined_iff (prot : BitVec 32) (cause : FaultCause) : Determined prot cause ↔
    ¬ WriteOnlyLoad prot cause := by
  constructor
  · rintro determined ⟨rfl, writes, notReads⟩
    exact not_determined writes notReads determined
  · intro plain
    refine ⟨if cause.allowedBy prot = true then .succeeds else .killed, ?_⟩
    intro vm past s task run live inUserHalf vma member sameProt va contained
    refine ⟨fun pages supplied => access_exists supplied, fun actual access => ?_⟩
    obtain ⟨valid, every⟩ := run.invariant Kept.step (kept_boot vm task) inUserHalf
    have found := regionAt_of_mem valid member contained
    have user : User va := by
      obtain ⟨-, high⟩ := (contains_iff vma va).mp contained
      obtain ⟨-, below⟩ := inUserHalf vma member
      rw [User]
      omega
    have outcome := access_outcome every valid user found access
    rw [sameProt] at outcome
    rw [outcome]
    simp only [plain, false_and, or_false]

/-- With `PROT_WRITE` alone the load depends on `MAP_POPULATE`. -/
theorem load_of_write_only : ¬ Determined 2#32 .load ∧
    ∃ s t : Vm, (∀ u ∈ [(s, 0#32), (t, mapPopulate)], 0 ∈ u.1.live ∧
      (transitions.restrict (Undisturbed 0)).Path (boot unusedMemory)
        [.createUserProcess 0, .sysMmap 0 0x60000000#64]
        ⟨u.1, Function.update (boot unusedMemory).regions 0 (withPage 2#32 u.2)⟩) ∧
    Access s 0 (withPage 2#32 0#32) 0x60000000#64 .load .killed ∧
    Access t 0 (withPage 2#32 mapPopulate) 0x60000000#64 .load .succeeds :=
  ⟨not_determined (by decide) (by decide), load_depends (by decide) (by decide)⟩

end OscKernel.Soundness.PopulatedPages
