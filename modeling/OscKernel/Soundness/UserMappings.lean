import Mathlib.Data.List.Find
import OscKernel.Model.PageFault
import OscKernel.Soundness.PageWalks
import OscKernel.Soundness.UserPages
import OscKernel.Soundness.VmaTable

/-! # What the entries of a process permit

Every entry of a table that the kernel builds has the flags that its region, the stack or the code
is given, or those of a signal stack. So in a valid VMA table a valid entry permits all accesses
that are allowed at its page, except for a store where the page is shared until it is copied
(`Mapped`).
-/

namespace OscKernel.Soundness.UserMappings

open OscKernel.Lib OscKernel.Model OscKernel.Soundness.PageTables
open OscKernel.Soundness.PageWalks (User slotOf slotOf_injective aligned_virtToPhys vpn_eq)
open OscKernel.Soundness.VmaTable (Valid)

/-! ## Entries -/

/-- The bit of an entry that the access needs. -/
def permission : FaultCause → Word
  | .fetch => pteX
  | .load => pteR
  | .store => pteW

/-- A user access with this cause does not fault at the entry: it is valid, for user code, not of
the reserved kind that is writable and not readable, and no bit the access sets is clear. -/
structure Permits (pte : Word) (cause : FaultCause) : Prop where
  present : present pte = true
  user : pte &&& pteU ≠ 0#64
  accessed : pte &&& pteA ≠ 0#64
  readable : writable pte = true → readable pte = true
  permission : pte &&& permission cause ≠ 0#64
  dirty : cause = .store → pte &&& pteD ≠ 0#64

/-- What the kernel makes an entry with, so that the allowed accesses do not fault at it, except for
a store where the page is shared until it is copied. -/
structure Fits (pte : Word) (allowed : FaultCause → Prop) : Prop where
  user : pte.getLsbD 4 = true
  accessed : pte.getLsbD 6 = true
  dirty : pte.getLsbD 7 = true
  readable : pte.getLsbD 2 = true ∨ pte.getLsbD 8 = true → pte.getLsbD 1 = true
  fetch : allowed .fetch → pte.getLsbD 3 = true
  load : allowed .load → pte.getLsbD 1 = true
  store : allowed .store → pte.getLsbD 2 = true ∨ pte.getLsbD 8 = true

section Entries

variable {pte pa : Word} {allowed : FaultCause → Prop} {cause : FaultCause}

theorem Fits.mono {fewer : FaultCause → Prop} (fits : Fits pte allowed)
    (less : ∀ cause, fewer cause → allowed cause) :
    Fits pte fewer where
  user := fits.user
  accessed := fits.accessed
  dirty := fits.dirty
  readable := fits.readable
  fetch here := fits.fetch (less _ here)
  load here := fits.load (less _ here)
  store here := fits.store (less _ here)

theorem Fits.permits_of_granted (fits : Fits pte allowed) (there : present pte = true)
    (granted : pte &&& permission cause ≠ 0#64) : Permits pte cause where
  present := there
  user := (and_bit_ne_zero pte 4 (by decide)).mpr fits.user
  accessed := (and_bit_ne_zero pte 6 (by decide)).mpr fits.accessed
  readable writes := by
    rw [writable_eq] at writes
    rw [readable_eq]
    exact fits.readable (.inl writes)
  permission := granted
  dirty _ := (and_bit_ne_zero pte 7 (by decide)).mpr fits.dirty

theorem Fits.permits (fits : Fits pte allowed) (there : present pte = true) (here : allowed cause)
    (single : ¬ (cause = .store ∧ copyOnWrite pte = true)) : Permits pte cause := by
  apply fits.permits_of_granted there
  cases cause with
  | fetch => exact (and_bit_ne_zero pte 3 (by decide)).mpr (fits.fetch here)
  | load => exact (and_bit_ne_zero pte 1 (by decide)).mpr (fits.load here)
  | store =>
    rcases fits.store here with writes | shared
    · exact (and_bit_ne_zero pte 2 (by decide)).mpr writes
    · rw [← copyOnWrite_eq] at shared
      exact absurd ⟨rfl, shared⟩ single

/-- Only the flags of an entry matter. -/
theorem Fits.makePte {flags : Word} (fits : Fits flags allowed) (pa : Word) :
    Fits (makePte pa flags) allowed := by
  have low : ∀ {i}, i < 10 → (Model.makePte pa flags).getLsbD i = flags.getLsbD i :=
    fun small => getLsbD_makePte small
  constructor <;> simp only [low (show 1 < 10 by decide), low (show 2 < 10 by decide),
    low (show 3 < 10 by decide), low (show 4 < 10 by decide), low (show 6 < 10 by decide),
    low (show 7 < 10 by decide), low (show 8 < 10 by decide)]
  · exact fits.user
  · exact fits.accessed
  · exact fits.dirty
  · exact fits.readable
  · exact fits.fetch
  · exact fits.load
  · exact fits.store

/-- Sharing an entry at a fork. -/
theorem Fits.share (fits : Fits pte allowed) : Fits (Vm.share pte) allowed := by
  have kept : ∀ {i}, i < 64 → i ≠ 2 → i ≠ 8 → (Vm.share pte).getLsbD i = pte.getLsbD i := by
    intro i small notW notCow
    rw [getLsbD_share pte small, if_neg notW, if_neg notCow]
  have marked : (Vm.share pte).getLsbD 8 = (writable pte || pte.getLsbD 8) := by
    rw [getLsbD_share pte (by decide), writable_eq]
    rfl
  have cleared : (Vm.share pte).getLsbD 2 = false := by
    rw [getLsbD_share pte (by decide)]
    rfl
  have copied : pte.getLsbD 2 = true ∨ pte.getLsbD 8 = true → (Vm.share pte).getLsbD 8 = true := by
    rintro (writes | shared)
    · rw [marked, writable_eq, writes, Bool.true_or]
    · rw [marked, shared, Bool.or_true]
  constructor
  · rw [kept (by decide) (by decide) (by decide)]
    exact fits.user
  · rw [kept (by decide) (by decide) (by decide)]
    exact fits.accessed
  · rw [kept (by decide) (by decide) (by decide)]
    exact fits.dirty
  · rw [cleared, marked, kept (by decide) (by decide) (by decide), writable_eq]
    rintro (never | either)
    · exact absurd never (by decide)
    · exact fits.readable (Bool.or_eq_true_iff.mp either)
  · rw [kept (by decide) (by decide) (by decide)]
    exact fits.fetch
  · rw [kept (by decide) (by decide) (by decide)]
    exact fits.load
  · exact fun here => .inr (copied (fits.store here))

/-- The entry that the copy-on-write branch writes. -/
theorem Fits.unshared (fits : Fits pte allowed) (shared : copyOnWrite pte = true) (pa : Word) :
    Fits (unshared pte pa) allowed ∧ (PageTables.unshared pte pa).getLsbD 2 = true := by
  rw [copyOnWrite_eq] at shared
  have low : ∀ {i}, i < 10 → (PageTables.unshared pte pa).getLsbD i =
      ((((pte &&& 0x3ff#64) &&& ~~~pteCow) ||| pteW) ||| pteV).getLsbD i :=
      fun small => getLsbD_makePte small
  have writes : (PageTables.unshared pte pa).getLsbD 2 = true := by
    rw [low (by decide)]
    simp [pteW]
  refine ⟨⟨?_, ?_, ?_, fun _ => ?_, fun here => ?_, fun _ => ?_, fun _ => .inl writes⟩, writes⟩
  · rw [low (by decide)]
    simpa [pteW, pteV, pteCow] using fits.user
  · rw [low (by decide)]
    simpa [pteW, pteV, pteCow] using fits.accessed
  · rw [low (by decide)]
    simpa [pteW, pteV, pteCow] using fits.dirty
  · rw [low (by decide)]
    simpa [pteW, pteV, pteCow] using fits.readable (.inr shared)
  · rw [low (by decide)]
    simpa [pteW, pteV, pteCow] using fits.fetch here
  · rw [low (by decide)]
    simpa [pteW, pteV, pteCow] using fits.readable (.inr shared)

/-- The stack lets code load and store. -/
theorem fits_stack : Fits (protUserRw ||| pteV) (· ≠ .fetch) where
  user := by decide
  accessed := by decide
  dirty := by decide
  readable := by decide
  fetch here := absurd rfl here
  load _ := by decide
  store _ := by decide

/-- The code lets code fetch and load. -/
theorem fits_code : Fits (protUserRx ||| pteV) (· ≠ .store) where
  user := by decide
  accessed := by decide
  dirty := by decide
  readable := by decide
  fetch _ := by decide
  load _ := by decide
  store here := absurd rfl here

/-- The signal stack lets everything. -/
private theorem fits_signal : Fits (protUserRw ||| pteX ||| pteV) fun _ => True where
  user := by decide
  accessed := by decide
  dirty := by decide
  readable := by decide
  fetch _ := by decide
  load _ := by decide
  store _ := by decide

/-- A region lets what its permissions say. -/
theorem fits_region (prot : BitVec 32) :
    Fits (mmapPageProt prot ||| pteV) (·.allowedBy prot = true) := by
  have fetch : FaultCause.fetch.allowedBy prot = true → prot &&& 4#32 ≠ 0 := of_decide_eq_true
  have load : FaultCause.load.allowedBy prot = true → prot &&& 1#32 ≠ 0 := of_decide_eq_true
  have store : FaultCause.store.allowedBy prot = true → prot &&& 2#32 ≠ 0 := of_decide_eq_true
  unfold mmapPageProt
  dsimp only
  split_ifs <;>
    refine ⟨by decide, by decide, by decide, by decide, fun here => ?_,
      fun here => ?_, fun here => ?_⟩ <;>
    first
      | decide
      | exact absurd (fetch here) (by assumption)
      | exact absurd (load here) (by assumption)
      | exact absurd (store here) (by assumption)

end Entries

/-! ## Regions -/

/-- The start of the page of an address. -/
def pageVa (va : Word) : Word := va &&& ~~~4095#64

theorem toNat_pageVa (va : Word) : (pageVa va).toNat = va.toNat / 4096 * 4096 :=
  toNat_and_not_lowMask va 12

theorem userSlot_pageVa (va : Word) : userSlot (pageVa va) = userSlot va := by
  obtain ⟨first, second, third⟩ := vpn_eq (pageVa va)
  obtain ⟨first', second', third'⟩ := vpn_eq va
  rw [toNat_pageVa] at first second third
  have same : vpn2 (pageVa va) = vpn2 va ∧ vpn1 (pageVa va) = vpn1 va ∧
      vpn0 (pageVa va) = vpn0 va := by omega
  simp only [userSlot, same.1, same.2.1, same.2.2]

theorem user_pageVa {va : Word} (user : User va) : User (pageVa va) := by
  rw [User] at user ⊢
  rw [toNat_pageVa]
  omega

theorem aligned_pageVa (va : Word) : Aligned (pageVa va) := by
  rw [Aligned, toNat_pageVa]
  omega

theorem vpn2_lt {va : Word} (user : User va) : vpn2 va < 256 := by
  have value := (vpn_eq va).1
  rw [User] at user
  omega

def InStack (va : Word) : Prop := userStack ≤ va ∧ va < userStack + stackSize

instance (va : Word) : Decidable (InStack va) := inferInstanceAs (Decidable (_ ∧ _))

theorem inStack_iff (va : Word) : InStack va ↔ 0x3fffffc000 ≤ va.toNat ∧
    va.toNat < 0x4000000000 := Iff.rfl

theorem contains_iff (vma : VmArea) (va : Word) :
    vma.contains va = true ↔ vma.start.toNat ≤ va.toNat ∧ va.toNat < vma.stop.toNat := by
  rw [VmArea.contains, Bool.and_eq_true, decide_eq_true_iff, decide_eq_true_iff]
  exact Iff.rfl

/-- The region that the handler finds for an address. -/
def regionAt (curr : UserRegions) (va : Word) : Option VmArea :=
  curr.memory.vmas.find? (·.contains va)

/-- The accesses that the region, the stack or the code allows at a page; elsewhere all are
allowed. -/
def Allows (curr : UserRegions) (page : Word) (cause : FaultCause) : Prop :=
  match regionAt curr page with
  | some vma => cause.allowedBy vma.prot = true
  | none => (InStack page → cause ≠ .fetch) ∧ (page < curr.memory.codeSize → cause ≠ .store)

section Regions

variable {curr : UserRegions} {va : Word}

theorem regionAt_spec {vma : VmArea} (found : regionAt curr va = some vma) :
    vma ∈ curr.memory.vmas ∧ vma.start.toNat ≤ va.toNat ∧ va.toNat < vma.stop.toNat := by
  have contained : vma.contains va = true :=
    List.find?_some (p := fun vma : VmArea => vma.contains va) found
  exact ⟨List.mem_of_find?_eq_some found, (contains_iff vma va).mp contained⟩

/-- A region has whole pages. -/
theorem regionAt_pageVa (valid : Valid curr.memory) (va : Word) :
    regionAt curr (pageVa va) = regionAt curr va := by
  apply List.find?_congr
  intro vma member
  have placed := valid.placed vma member
  have start := placed.startAligned
  have stop := placed.stopAligned
  rw [Bool.eq_iff_iff, contains_iff, contains_iff, toNat_pageVa]
  omega

theorem inStack_pageVa (va : Word) : InStack (pageVa va) ↔ InStack va := by
  rw [inStack_iff, inStack_iff, toNat_pageVa]
  omega

theorem regionAt_stack (valid : Valid curr.memory) (stack : InStack va) :
    regionAt curr va = none := by
  rw [Option.eq_none_iff_forall_ne_some]
  intro vma found
  obtain ⟨member, low, high⟩ := regionAt_spec found
  have off := (valid.placed vma member).offStack
  rw [inStack_iff] at stack
  omega

theorem regionAt_code (valid : Valid curr.memory) (code : va < curr.memory.codeSize) :
    regionAt curr va = none := by
  rw [Option.eq_none_iff_forall_ne_some]
  intro vma found
  obtain ⟨member, low, high⟩ := regionAt_spec found
  have off := (valid.placed vma member).offCode
  have below : va.toNat < curr.memory.codeSize.toNat := code
  omega

theorem not_inStack_code (code : va < curr.memory.codeSize) : ¬ InStack va := by
  intro stack
  rw [inStack_iff] at stack
  have below : va.toNat < curr.memory.codeSize.toNat := code
  have := curr.memory.codeSize_lt
  omega

theorem pageVa_lt {size : Word} (code : va < size) : pageVa va < size := by
  have below : va.toNat < size.toNat := code
  have page := toNat_pageVa va
  rw [BitVec.lt_def]
  omega

end Regions

/-! ## What the model does to entries -/

/-- One entry of a task is written. -/
structure Writes (s t : Vm) (task : ℕ) (slot : Slot) (pte : Word) : Prop where
  entry : (t.pgd task).entryAt = Function.update (s.pgd task).entryAt slot pte
  others : ∀ {other}, other ≠ task → t.pgd other = s.pgd other

section Effects

variable {s t : Vm} {task : ℕ} {slot : Slot} {pa prot newPmd newPte va : Word} {pages : FaultPages}

private theorem walkLevel_onPath {τ : Type} {found : Option τ} {empty used : τ}
    (result : s.walkLevel found va empty = some (t, used)) : OnPath found empty used := by
  cases found with
  | some table =>
    obtain ⟨-, rfl⟩ := Prod.mk.inj (Option.some.inj result)
    exact .inl rfl
  | none =>
    obtain ⟨next, -, same⟩ := Option.map_eq_some_iff.mp result
    obtain ⟨-, rfl⟩ := Prod.mk.inj same
    exact .inr ⟨rfl, rfl⟩

theorem pagewalk_writes (result : s.pagewalk task slot pa prot newPmd newPte = some t) :
    Writes s t task slot (makePte pa (prot ||| pteV)) := by
  obtain ⟨⟨first, pmd⟩, upperResult, rest⟩ := Option.bind_eq_some_iff.mp result
  obtain ⟨⟨second, table⟩, lowerResult, rest⟩ := Option.bind_eq_some_iff.mp rest
  have same := (Bookkeeping.walkLevel upperResult).pgd
  have same' := (Bookkeeping.walkLevel lowerResult).pgd
  have upper := walkLevel_onPath upperResult
  have lower := walkLevel_onPath lowerResult
  have pgds : t.pgd =
      Function.update s.pgd task
      (withPath (s.pgd task) slot pmd table (makePte pa (prot ||| pteV))) := by
    rw [← same, ← same', ← Option.some.inj rest]
    simp only [same', same]
    rfl
  constructor
  · rw [pgds, Function.update_self]
    exact entryAt_withPath upper lower
  · intro other different
    rw [pgds, Function.update_of_ne different]

theorem newPage_bookkeeping (result : s.newPage va = some t) :
    Bookkeeping { s with ram := t.ram } t := by
  obtain ⟨u, allocated, rfl⟩ := Option.map_eq_some_iff.mp result
  have granted := Bookkeeping.allocatePage allocated
  have counted := Bookkeeping.setPageRefInit { u with
    ram := Function.update u.ram (virtToPhys va) fun _ => 0#8 } (virtToPhys va)
  exact ⟨rfl, counted.pgd.trans granted.pgd, counted.live.trans granted.live,
    counted.savedRegs.trans granted.savedRegs⟩

theorem mapPage_bookkeeping (result : s.mapPage task va prot pages = some t) :
    Bookkeeping { s with pgd := t.pgd } t := by
  rw [Vm.mapPage] at result
  split at result
  · exact .pagewalk result
  · rw [← Option.some.inj result]
    exact ⟨rfl, rfl, rfl, rfl⟩

theorem zeroPage_memoryOnly (result : s.zeroPage task va prot pages = some t) :
    MemoryOnly s t := by
  obtain ⟨u, new, mapped⟩ := Option.bind_eq_some_iff.mp result
  have first := newPage_bookkeeping new
  have rest := mapPage_bookkeeping mapped
  exact MemoryOnly.trans ⟨first.live, first.savedRegs⟩ ⟨rest.live, rest.savedRegs⟩

theorem codePage_memoryOnly {curr : UserRegions}
    (result : s.codePage task curr va pages = some t) : MemoryOnly s t := by
  obtain ⟨u, new, mapped⟩ := Option.bind_eq_some_iff.mp result
  have first := newPage_bookkeeping new
  have rest := mapPage_bookkeeping mapped
  exact MemoryOnly.trans ⟨first.live, first.savedRegs⟩ ⟨rest.live, rest.savedRegs⟩

/-- What `map_pages` does to the tables of the user half. -/
theorem mapPage_writes (result : s.mapPage task va prot pages = some t) :
    (∀ {other}, other ≠ task → t.pgd other = s.pgd other) ∧ (User va →
      Writes s t task (userSlot va) (makePte (virtToPhys pages.page) (prot ||| pteV))) := by
  rw [Vm.mapPage] at result
  split at result
  · have writes := pagewalk_writes result
    exact ⟨writes.others, fun _ => writes⟩
  · rename_i outside
    obtain rfl := Option.some.inj result
    exact ⟨fun _ => rfl, fun user => absurd (vpn2_lt user) outside⟩

theorem zeroPage_writes (result : s.zeroPage task va prot pages = some t) :
    (∀ {other}, other ≠ task → t.pgd other = s.pgd other) ∧ (User va →
      Writes s t task (userSlot va) (makePte (virtToPhys pages.page) (prot ||| pteV))) := by
  obtain ⟨u, fresh, mapped⟩ := Option.bind_eq_some_iff.mp result
  obtain ⟨others, writes⟩ := mapPage_writes mapped
  have same := (newPage_bookkeeping fresh).pgd
  rw [same] at others
  refine ⟨others, fun user => ⟨?_, others⟩⟩
  rw [← same]
  exact (writes user).entry

theorem codePage_writes {curr : UserRegions} (result : s.codePage task curr va pages = some t)
    (user : User va) :
    Writes s t task (userSlot va) (makePte (virtToPhys pages.page) (protUserRx ||| pteV)) := by
  obtain ⟨u, fresh, mapped⟩ := Option.bind_eq_some_iff.mp result
  obtain ⟨others, writes⟩ := mapPage_writes mapped
  have same := (newPage_bookkeeping fresh).pgd
  have entry := (writes user).entry
  simp only [same] at others entry
  exact ⟨entry, others⟩

private theorem cowFault_writes {newPage : Word} (result : s.cowFault task slot newPage = some t) :
    present ((s.pgd task).entryAt slot) = true ∧ copyOnWrite ((s.pgd task).entryAt slot) = true ∧
      Writes s t task slot (unshared ((s.pgd task).entryAt slot) (virtToPhys newPage)) := by
  rw [Vm.cowFault] at result
  split at result
  · cases result
  rename_i marked
  obtain ⟨there, shared⟩ := checkCow_spec marked
  obtain ⟨first, allocated, rest⟩ := Option.bind_eq_some_iff.mp result
  obtain ⟨mid, walk, rest⟩ := Option.bind_eq_some_iff.mp rest
  obtain rfl := Option.some.inj rest
  have same : (first.setPageRefInit (virtToPhys newPage)).pgd = s.pgd :=
    ((Bookkeeping.allocatePage allocated).trans (.setPageRefInit first _)).pgd
  have getProt : iteratePageTable (s.pgd task) slot .getProt =
      ((s.pgd task).entryAt slot &&& 0x3ff#64) &&& ~~~pteCow :=
    if_pos there
  have writes := pagewalk_writes walk
  refine ⟨there, shared, ?_, fun different => ?_⟩
  · rw [(Bookkeeping.releasePage mid _).pgd, writes.entry]
    simp only [same, getProt]
    rfl
  · rw [(Bookkeeping.releasePage mid _).pgd, writes.others different]
    simp only [same]

/-! ## The handler -/

/-- A store at a page that is shared until it is copied. -/
def SharedStore (pte : Word) (cause : FaultCause) : Prop :=
  cause = .store ∧ present pte = true ∧ copyOnWrite pte = true

/-- What `page_fault_handler` does, by the check that it ends in; `pa` is the page it was given. -/
inductive Handled (s : Vm) (task : ℕ) (curr : UserRegions) (va : Word) (cause : FaultCause)
    (pa : Word) : FaultEnd → Prop
  | copied {t : Vm} (shared : SharedStore ((s.pgd task).entryAt (userSlot va)) cause)
      (writes : Writes s t task (userSlot va) (unshared ((s.pgd task).entryAt (userSlot va)) pa)) :
      Handled s task curr va cause pa (.returned t)
  | region {t : Vm} {vma : VmArea}
      (single : ¬ SharedStore ((s.pgd task).entryAt (userSlot va)) cause)
      (found : regionAt curr va = some vma) (allowed : cause.allowedBy vma.prot = true)
      (writes : Writes s t task (userSlot va) (makePte pa (mmapPageProt vma.prot ||| pteV))) :
      Handled s task curr va cause pa (.returned t)
  | stack {t : Vm} (single : ¬ SharedStore ((s.pgd task).entryAt (userSlot va)) cause)
      (refused : ∀ vma, regionAt curr va = some vma → cause.allowedBy vma.prot = false)
      (stack : InStack va)
      (writes : Writes s t task (userSlot va) (makePte pa (protUserRw ||| pteV))) :
      Handled s task curr va cause pa (.returned t)
  | code {t : Vm} (single : ¬ SharedStore ((s.pgd task).entryAt (userSlot va)) cause)
      (refused : ∀ vma, regionAt curr va = some vma → cause.allowedBy vma.prot = false)
      (offStack : ¬ InStack va)
      (code : va < curr.memory.codeSize)
      (writes : Writes s t task (userSlot va) (makePte pa (protUserRx ||| pteV))) :
      Handled s task curr va cause pa (.returned t)
  | threadExit (single : ¬ SharedStore ((s.pgd task).entryAt (userSlot va)) cause)
      (refused : ∀ vma, regionAt curr va = some vma → cause.allowedBy vma.prot = false)
      (offStack : ¬ InStack va)
      (offCode : ¬ va < curr.memory.codeSize) : Handled s task curr va cause pa .threadExit

theorem checkCow_ne_zero {pgd : Pgd} {slot : Slot} : iteratePageTable pgd slot .checkCow ≠ 0#64 ↔
    present (pgd.entryAt slot) = true ∧ copyOnWrite (pgd.entryAt slot) = true := by
  refine ⟨checkCow_spec, fun ⟨there, shared⟩ => ?_⟩
  rw [iteratePageTable]
  simp only [there, shared, if_true]
  decide

theorem pageFaultHandler_handled {curr : UserRegions} {cause : FaultCause} {fault : FaultEnd}
    (user : User va) (result : s.pageFaultHandler task curr va cause pages = some fault) :
    Handled s task curr va cause (virtToPhys pages.page) fault := by
  rw [Vm.pageFaultHandler] at result
  have user' := user_pageVa user
  split at result
  · rename_i store
    obtain ⟨t, copied, rfl⟩ := Option.map_eq_some_iff.mp result
    obtain ⟨there, shared, writes⟩ := cowFault_writes copied
    exact .copied ⟨store.1, there, shared⟩ writes
  rename_i notStore
  have single : ¬ SharedStore ((s.pgd task).entryAt (userSlot va)) cause := fun ⟨store, shared⟩ =>
    notStore ⟨store, checkCow_ne_zero.mpr shared⟩
  split at result
  · rename_i vma found
    obtain ⟨found, allowed⟩ := Option.filter_eq_some_iff.mp found
    obtain ⟨t, installed, rfl⟩ := Option.map_eq_some_iff.mp result
    have writes := (zeroPage_writes installed).2 user'
    rw [← pageVa, userSlot_pageVa] at writes
    exact .region single found allowed writes
  rename_i none
  have refused : ∀ vma, regionAt curr va = some vma → cause.allowedBy vma.prot = false := by
    intro vma found
    have kept := Option.filter_eq_none_iff.mp none vma found
    exact Bool.eq_false_iff.mpr kept
  rw [Vm.stackOrCodeFault] at result
  split at result
  · rename_i stack
    obtain ⟨t, installed, rfl⟩ := Option.map_eq_some_iff.mp result
    have writes := (zeroPage_writes installed).2 user'
    rw [← pageVa, userSlot_pageVa] at writes
    exact .stack single refused stack writes
  rename_i offStack
  split at result
  · rename_i code
    obtain ⟨t, installed, rfl⟩ := Option.map_eq_some_iff.mp result
    have writes := codePage_writes installed user'
    rw [← pageVa, userSlot_pageVa] at writes
    exact .code single refused offStack code writes
  · rename_i offCode
    obtain rfl := Option.some.inj result
    exact .threadExit single refused offStack offCode

theorem Handled.others {curr : UserRegions} {cause : FaultCause}
    (handled : Handled s task curr va cause pa (.returned t)) {other : ℕ}
    (different : other ≠ task) : t.pgd other = s.pgd other := by
  cases handled with
  | copied _ writes => exact writes.others different
  | region _ _ _ writes => exact writes.others different
  | stack _ _ _ writes => exact writes.others different
  | code _ _ _ _ writes => exact writes.others different

end Effects

/-! ## The invariant -/

/-- What every valid entry of the user half has, by its page. -/
def EveryEntry (P : Word → Word → Prop) (pgd : Pgd) : Prop := ∀ page, User page → Aligned page →
  present (pgd.entryAt (userSlot page)) = true → P page (pgd.entryAt (userSlot page))

/-- Every valid entry of the user half permits what is allowed at its page. -/
def Mapped (curr : UserRegions) (pgd : Pgd) : Prop := ∀ page, User page → Aligned page →
  present (pgd.entryAt (userSlot page)) = true →
    Fits (pgd.entryAt (userSlot page)) (Allows curr page)

section Mapped

variable {s t : Vm} {task : ℕ} {curr : UserRegions} {va pa pte : Word}
  {pages : FaultPages} {cause : FaultCause}

theorem EveryEntry.empty (P : Word → Word → Prop) (pgd : Pgd) :
    EveryEntry P { pgd with entry := fun _ => none } := by
  intro page user aligned there
  rw [entryAt_cleared] at there
  exact absurd there (by decide)

theorem EveryEntry.write {P : Word → Word → Prop} (every : EveryEntry P (s.pgd task)) {slot : Slot}
    (writes : Writes s t task slot pte)
    (written : ∀ page, User page → Aligned page → userSlot page = slot → P page pte) :
    EveryEntry P (t.pgd task) := by
  intro page user aligned there
  rw [writes.entry] at there ⊢
  rcases eq_or_ne (userSlot page) slot with here | elsewhere
  · rw [here, Function.update_self]
    exact written page user aligned here
  · rw [Function.update_of_ne elsewhere] at there ⊢
    exact every page user aligned there

theorem Mapped.write (mapped : Mapped curr (s.pgd task)) {slot : Slot}
    (writes : Writes s t task slot pte)
    (fits : ∀ page, User page → Aligned page → userSlot page = slot → Fits pte (Allows curr page)) :
    Mapped curr (t.pgd task) :=
  EveryEntry.write (P := fun page pte => Fits pte (Allows curr page)) mapped writes fits

/-- Only the page of the address has the slot of the address. -/
theorem pageVa_of_userSlot {page : Word} (user : User va) (user' : User page)
    (aligned : Aligned page) (same : userSlot page = userSlot va) : page = pageVa va := by
  apply slotOf_injective user' (user_pageVa user) aligned (aligned_pageVa va)
  exact same.trans (userSlot_pageVa va).symm

theorem Mapped.fits (mapped : Mapped curr (s.pgd task)) (user : User va)
    (there : present ((s.pgd task).entryAt (userSlot va)) = true) :
    Fits ((s.pgd task).entryAt (userSlot va)) (Allows curr (pageVa va)) := by
  have fits := mapped (pageVa va) (user_pageVa user) (aligned_pageVa va)
  rw [userSlot_pageVa] at fits
  exact fits there

theorem allows_region (valid : Valid curr.memory) {vma : VmArea}
    (found : regionAt curr va = some vma) :
    Allows curr (pageVa va) cause ↔ cause.allowedBy vma.prot = true := by
  rw [Allows, regionAt_pageVa valid, found]

theorem allows_stack (valid : Valid curr.memory) (stack : InStack va) :
    Allows curr (pageVa va) cause ↔ cause ≠ .fetch := by
  have none := regionAt_stack valid ((inStack_pageVa va).mpr stack)
  rw [Allows, none]
  refine ⟨fun here => here.1 ((inStack_pageVa va).mpr stack),
    fun here => ⟨fun _ => here, fun code => ?_⟩⟩
  exact absurd ((inStack_pageVa va).mpr stack) (not_inStack_code code)

theorem allows_code (valid : Valid curr.memory) (code : va < curr.memory.codeSize) :
    Allows curr (pageVa va) cause ↔ cause ≠ .store := by
  rw [Allows, regionAt_code valid (pageVa_lt code)]
  refine ⟨fun here => here.2 (pageVa_lt code), fun here => ⟨fun stack => ?_, fun _ => here⟩⟩
  exact absurd stack (not_inStack_code (pageVa_lt code))

/-- A page fault keeps what the entries permit. -/
theorem Mapped.fault (mapped : Mapped curr (s.pgd task)) (valid : Valid curr.memory)
    (user : User va) (handled : Handled s task curr va cause pa (.returned t)) :
    Mapped curr (t.pgd task) := by
  cases handled with
  | copied shared writes =>
    apply mapped.write writes
    intro page user' aligned same
    obtain rfl := pageVa_of_userSlot user user' aligned same
    exact ((mapped.fits user shared.2.1).unshared shared.2.2 pa).1
  | region single found allowed writes =>
    apply mapped.write writes
    intro page user' aligned same
    obtain rfl := pageVa_of_userSlot user user' aligned same
    exact ((fits_region _).makePte pa).mono fun cause here => (allows_region valid found).mp here
  | stack single refused stack writes =>
    apply mapped.write writes
    intro page user' aligned same
    obtain rfl := pageVa_of_userSlot user user' aligned same
    exact (fits_stack.makePte pa).mono fun cause here => (allows_stack valid stack).mp here
  | code single refused offStack code writes =>
    apply mapped.write writes
    intro page user' aligned same
    obtain rfl := pageVa_of_userSlot user user' aligned same
    exact (fits_code.makePte pa).mono fun cause here => (allows_code valid code).mp here

end Mapped

/-! ## The other operations -/

section Operations

variable {s t : Vm} {task : ℕ} {curr next : UserRegions} {va pa pte : Word} {vma : VmArea}

/-- After a fork the entries of both processes are shared. -/
theorem Mapped.fork {pgd pgd' : Pgd} (mapped : Mapped curr pgd)
    (shared : ∀ slot, present (pgd'.entryAt slot) = true →
    present (pgd.entryAt slot) = true ∧ pgd'.entryAt slot = Vm.share (pgd.entryAt slot)) :
    Mapped curr pgd' := by
  intro page user aligned there
  obtain ⟨before, same⟩ := shared _ there
  rw [same]
  exact (mapped page user aligned before).share

theorem sysFork_pgd {parent child : ℕ} {pages : Vm.ForkPages}
    (result : s.sysFork parent child pages = some t) :
    t.pgd = Function.update (Function.update s.pgd parent (Vm.parentTable (s.pgd parent))) child
      (Vm.childTable (s.pgd parent) pages) := by
  obtain ⟨first, allocated, rest⟩ := Option.bind_eq_some_iff.mp result
  obtain ⟨second, copied, rest⟩ := Option.bind_eq_some_iff.mp rest
  rw [copyUserHalf_eq] at copied
  rw [← Option.some.inj rest]
  simp only [(Bookkeeping.copy copied).pgd, (Bookkeeping.allocatePage allocated).pgd]

theorem clearUserSpaceMappings_pgd (s : Vm) (task : ℕ) : (s.clearUserSpaceMappings task).pgd =
    Function.update s.pgd task { s.pgd task with entry := fun _ => none } := by
  rw [Vm.clearUserSpaceMappings, releaseUserHalf_eq]
  simp only [(Bookkeeping.release _ s).pgd]

theorem freeUserPageTable_pgd (s : Vm) (task : ℕ) : (s.freeUserPageTable task).pgd = s.pgd := by
  rw [Vm.freeUserPageTable, releaseUserHalf_eq]
  exact (Bookkeeping.release _ s).pgd

theorem sysKill_pgd (s : Vm) (task : ℕ) : (s.sysKill task).pgd = s.pgd := by
  rw [Vm.sysKill]
  split <;> rfl

theorem sysSigreturn_pgd (s : Vm) (task : ℕ) : (s.sysSigreturn task).pgd = s.pgd := by
  rw [Vm.sysSigreturn]
  split <;> rfl

theorem writeByte_pgd {slot : Slot} {offset : Fin 4096} {value : BitVec 8}
    (written : s.writeByte task slot offset value = some t) :
    t.pgd = s.pgd := by
  rw [Vm.writeByte] at written
  dsimp only at written
  split at written
  · rw [← Option.some.inj written]
  · cases written

theorem mapped_empty (curr : UserRegions) (pgd : Pgd) :
    Mapped curr { pgd with entry := fun _ => none } :=
  EveryEntry.empty (fun page pte => Fits pte (Allows curr page)) pgd

/-- The pages of a signal stack permit everything. -/
private theorem signalStack_mapped {pages : Vm.SignalPages} {stack : List (Fin 4)}
    (result : stack.foldlM (fun s i => s.pagewalk task (Vm.signalSlot i)
      (virtToPhys pages.signalStack + BitVec.ofNat 64 (i * 4096))
      (protUserRw ||| pteX) pages.pmd pages.pte) s = some t) :
    (∀ {other}, other ≠ task → t.pgd other = s.pgd other) ∧
    (Mapped curr (s.pgd task) → Mapped curr (t.pgd task)) := by
  induction stack generalizing s with
  | nil =>
    obtain rfl := Option.some.inj result
    exact ⟨fun _ => rfl, id⟩
  | cons i rest ih =>
    obtain ⟨u, first, rest⟩ := Option.bind_eq_some_iff.mp result
    have writes := pagewalk_writes first
    obtain ⟨others, later⟩ := ih rest
    refine ⟨fun different => (others different).trans (writes.others different),
      fun mapped => later ?_⟩
    apply mapped.write writes
    intro page _ _ _
    exact (fits_signal.makePte _).mono fun _ _ => trivial

theorem checkPendingSignals_mapped {pages : Vm.SignalPages}
    (result : s.checkPendingSignals task pages = some t) :
    (∀ {other}, other ≠ task → t.pgd other = s.pgd other) ∧
    (Mapped curr (s.pgd task) → Mapped curr (t.pgd task)) := by
  rw [Vm.checkPendingSignals] at result
  split at result
  · obtain ⟨first, saved, result⟩ := Option.bind_eq_some_iff.mp result
    obtain ⟨second, stack, result⟩ := Option.bind_eq_some_iff.mp result
    obtain ⟨third, walked, result⟩ := Option.bind_eq_some_iff.mp result
    have first' : first.pgd = s.pgd := (Bookkeeping.allocate saved).pgd
    have second' := (Bookkeeping.allocateStack stack).pgd
    have same : second.pgd = s.pgd := second'.trans first'
    rw [Vm.mapSignalStack] at walked
    obtain ⟨others, mapped⟩ := @signalStack_mapped _ _ task curr pages _ walked
    obtain rfl := Option.some.inj result
    rw [← same]
    exact ⟨others, mapped⟩
  · obtain rfl := Option.some.inj result
    exact ⟨fun _ => rfl, id⟩

/-! ## Mapping a region -/

/-- The region is put behind the others. -/
structure Appends (curr next : UserRegions) (vma : VmArea) : Prop where
  vmas : next.memory.vmas = curr.memory.vmas ++ [vma]
  codeSize : next.memory.codeSize = curr.memory.codeSize

theorem Appends.valid (appends : Appends curr next vma) (valid : Valid next.memory) :
    Valid curr.memory where
  placed := by
    intro other member
    have placed := valid.placed other (by rw [appends.vmas]; exact List.mem_append_left _ member)
    rwa [appends.codeSize] at placed
  apart := by
    have apart := valid.apart
    rw [appends.vmas] at apart
    exact (List.pairwise_append.mp apart).1

theorem Appends.regionAt (appends : Appends curr next vma) (va : Word) :
    regionAt next va = (regionAt curr va).or (if vma.contains va then some vma else none) := by
  rw [UserMappings.regionAt, appends.vmas, List.find?_append, List.find?_singleton]
  rfl

/-- Where the new region lies nothing was refused before. -/
theorem Mapped.append {pgd : Pgd} (mapped : Mapped curr pgd) (appends : Appends curr next vma)
    (valid : Valid next.memory) :
    Mapped next pgd := by
  intro page user aligned there
  apply (mapped page user aligned there).mono
  intro cause here
  rw [Allows] at here ⊢
  have later := appends.regionAt page
  cases found : regionAt curr page with
  | some old =>
    rw [found, Option.some_or] at later
    rw [later] at here
    exact here
  | none =>
    rw [found, Option.none_or] at later
    by_cases inside : vma.contains page = true
    · rw [if_pos inside] at later
      refine ⟨fun stack => ?_, fun code => ?_⟩
      · rw [regionAt_stack valid stack] at later
        cases later
      · rw [regionAt_code valid (appends.codeSize ▸ code)] at later
        cases later
    · rw [if_neg inside] at later
      rw [later, appends.codeSize] at here
      exact here

/-- The calls of `map_pages` for a region give each of its pages the flags of the region. -/
def RequestsOf (vma : VmArea) (requests : List MapRequest) : Prop := ∀ request ∈ requests,
  (∃ k : ℕ, request.va = vma.start + BitVec.ofNat 64 (4096 * k) ∧
    vma.start.toNat + 4096 * k < vma.start.toNat + (vma.stop - vma.start).toNat) ∧
  request.prot = mmapPageProt vma.prot

private theorem populate_requests {vaStart pageProt : Word} {allocate : ℕ → Option Word}
    {i remaining : ℕ} {request : MapRequest}
    (member : request ∈ (populate vaStart pageProt allocate i remaining).1) :
    (∃ k < i + remaining, request.va = vaStart + BitVec.ofNat 64 (4096 * k)) ∧
    request.prot = pageProt := by
  induction remaining generalizing i with
  | zero => exact absurd member List.not_mem_nil
  | succ remaining ih =>
    rw [populate] at member
    cases returned : allocate i with
    | none =>
      rw [returned] at member
      exact absurd member List.not_mem_nil
    | some page =>
      rw [returned] at member
      rcases List.mem_cons.mp member with rfl | later
      · exact ⟨⟨i, by omega, rfl⟩, rfl⟩
      · obtain ⟨⟨k, below, here⟩, prot⟩ := ih later
        exact ⟨⟨k, by omega, here⟩, prot⟩

/-- A call of `sys_mmap` records no region and maps nothing, or records one and maps pages of it. -/
theorem sysMmap_cases (curr : UserRegions) (addr length : Word) (prot flags : BitVec 32)
    (allocate : ℕ → Option Word) :
    (sysMmap curr.memory addr length prot flags allocate).2 = (curr.memory, []) ∨
      ∃ vma, Appends curr { curr with
        memory := (sysMmap curr.memory addr length prot flags allocate).2.1 } vma ∧
        RequestsOf vma (sysMmap curr.memory addr length prot flags allocate).2.2 := by
  rw [sysMmap]
  dsimp only
  generalize (if hintRejected curr.memory addr (align length 4096#32) then
    findFreeVmaSpace curr.memory (align length 4096#32) else addr) = vaStart
  by_cases full : curr.memory.vmas.length ≥ 32
  · rw [if_pos full]
    exact .inl rfl
  rw [if_neg full]
  by_cases empty : align length 4096#32 = 0#64
  · rw [if_pos empty]
    exact .inl rfl
  rw [if_neg empty]
  by_cases nowhere : vaStart = 0#64
  · rw [if_pos nowhere]
    exact .inl rfl
  rw [if_neg nowhere]
  right
  refine ⟨⟨vaStart, vaStart + align length 4096#32, prot, flags⟩, ?_⟩
  by_cases populates : flags &&& mapPopulate ≠ 0#32
  · rw [if_pos populates]
    refine ⟨⟨rfl, rfl⟩, fun request member => ?_⟩
    obtain ⟨⟨k, below, here⟩, prot⟩ := populate_requests member
    refine ⟨⟨k, here, ?_⟩, prot⟩
    dsimp only
    rw [add_sub_cancel_left]
    omega
  · rw [if_neg populates]
    exact ⟨⟨rfl, rfl⟩, fun request member => absurd member List.not_mem_nil⟩

theorem populate_cons (s : Vm) (task : ℕ) (request : MapRequest) (rest : List MapRequest)
    (tables : Word → Word × Word) :
    s.populate task (request :: rest) tables = (s.zeroPage task request.va request.prot
      ⟨physToVirt request.pa, (tables request.va).1, (tables request.va).2⟩).bind fun s =>
      s.populate task rest tables := by
  rw [Vm.populate, List.foldlM_cons]
  rfl

theorem populate_others {requests : List MapRequest} {tables : Word → Word × Word}
    (result : s.populate task requests tables = some t) {other : ℕ} (different : other ≠ task) :
    t.pgd other = s.pgd other := by
  induction requests generalizing s with
  | nil =>
    obtain rfl := Option.some.inj result
    rfl
  | cons request rest ih =>
    rw [populate_cons] at result
    obtain ⟨u, first, rest⟩ := Option.bind_eq_some_iff.mp result
    rw [ih rest]
    exact (zeroPage_writes first).1 different

/-- Where population maps a page, the new region lies. -/
theorem Appends.request (appends : Appends curr next vma) (valid : Valid next.memory)
    {requests : List MapRequest} (requestsOf : RequestsOf vma requests) {request : MapRequest}
    (member : request ∈ requests) :
    User request.va ∧ pageVa request.va = request.va ∧
    UserMappings.regionAt next request.va = some vma := by
  obtain ⟨⟨k, here, inside⟩, -⟩ := requestsOf request member
  have isLast : vma ∈ next.memory.vmas := by
    rw [appends.vmas]
    exact List.mem_append_right _ List.mem_cons_self
  have placed := valid.placed vma isLast
  have nonempty := placed.nonempty
  have userHalf := placed.userHalf
  have start := placed.startAligned
  have length : (vma.stop - vma.start).toNat = vma.stop.toNat - vma.start.toNat :=
    BitVec.toNat_sub_of_le (le_of_lt nonempty)
  have value : request.va.toNat = vma.start.toNat + 4096 * k := by
    rw [here, BitVec.toNat_add, BitVec.toNat_ofNat]
    omega
  refine ⟨?_, ?_, ?_⟩
  · rw [User]
    omega
  · apply BitVec.eq_of_toNat_eq
    rw [toNat_pageVa]
    omega
  · rw [appends.regionAt]
    have contained : vma.contains request.va = true := (contains_iff vma _).mpr (by omega)
    rw [if_pos contained]
    cases old : UserMappings.regionAt curr request.va with
    | none => rfl
    | some other =>
      obtain ⟨member, low, high⟩ := regionAt_spec old
      have apart := valid.apart
      rw [appends.vmas] at apart
      have disjoint := (List.pairwise_append.mp apart).2.2 other member vma List.mem_cons_self
      rw [VmaTable.Apart] at disjoint
      omega

/-- Population writes entries of the new region only, with its flags. -/
theorem EveryEntry.populate {P : Word → Word → Prop} {requests : List MapRequest}
    {tables : Word → Word × Word} (every : EveryEntry P (s.pgd task))
    (appends : Appends curr next vma) (valid : Valid next.memory)
    (requestsOf : RequestsOf vma requests) (result : s.populate task requests tables = some t)
    (written : ∀ page pa, UserMappings.regionAt next page = some vma →
      P page (makePte pa (mmapPageProt vma.prot ||| pteV))) :
    EveryEntry P (t.pgd task) := by
  induction requests generalizing s with
  | nil =>
    obtain rfl := Option.some.inj result
    exact every
  | cons request rest ih =>
    rw [populate_cons] at result
    obtain ⟨u, first, rest⟩ := Option.bind_eq_some_iff.mp result
    refine ih ?_ (fun other member => requestsOf other (List.mem_cons_of_mem _ member)) rest
    obtain ⟨user, aligned, found⟩ := appends.request valid requestsOf List.mem_cons_self
    apply every.write ((zeroPage_writes first).2 user)
    intro page user' aligned' same
    obtain rfl := pageVa_of_userSlot user user' aligned' same
    rw [(requestsOf request List.mem_cons_self).2]
    apply written
    rwa [aligned]

/-- Population gives the pages of the region what the region allows. -/
theorem Mapped.populate {requests : List MapRequest} {tables : Word → Word × Word}
    (mapped : Mapped next (s.pgd task)) (appends : Appends curr next vma)
    (valid : Valid next.memory) (requestsOf : RequestsOf vma requests)
    (result : s.populate task requests tables = some t) : Mapped next (t.pgd task) := by
  apply EveryEntry.populate (P := fun page pte => Fits pte (Allows next page))
    mapped appends valid requestsOf result
  intro page pa found
  apply ((fits_region _).makePte pa).mono
  intro cause allowed
  rw [Allows, found] at allowed
  exact allowed

end Operations

end OscKernel.Soundness.UserMappings
