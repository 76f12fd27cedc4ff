import OscKernel.Soundness.CopyOnWrite
import OscKernel.Soundness.ExecImage
import OscKernel.Soundness.PrivateMemory
import OscKernel.Soundness.UserMemory

/-! # What paged memory shows

The bytes that a process would read: those of the page behind a valid entry, and where there is none
those that a fault would bring in, the file of the code or zeros. Faults, whether they bring a page
in or copy a shared one, change no byte of any process, and a store changes one byte of one process.
-/

namespace OscKernel.Soundness.ProcessMemory

open OscKernel.Lib OscKernel.Model OscKernel.Soundness.PageTables OscKernel.Soundness.UserMappings
open OscKernel.Soundness.CopyOnWrite OscKernel.Soundness.MemoryAccounts
open OscKernel.Soundness.ExecImage (framePage)
open OscKernel.Soundness.PageWalks (User present_makePte)
open OscKernel.Soundness.PopulatedPages (WriteOnlyLoad)
open OscKernel.Soundness.PrivateMemory (Allowed Granted Program Process)
open OscKernel.Soundness.VmaTable (Valid)

/-! ## Bytes -/

def offsetOf (va : Word) : Fin 4096 := ⟨va.toNat % 4096, Nat.mod_lt _ (by decide)⟩

/-- The byte that a fault at an address brings in. -/
def broughtIn (s : Vm) (curr : UserRegions) (va : Word) : BitVec 8 :=
  if va < curr.memory.codeSize then s.byteAt (physToVirt curr.codePa + va) else 0#8

/-- The byte that the process sees at an address, once its faults are handled. -/
def shown (s : Vm) (curr : UserRegions) (task : ℕ) (va : Word) : BitVec 8 :=
  match view s task (userSlot va) with
  | some page => page.bytes (offsetOf va)
  | none => broughtIn s curr va

/-- What an entry permits may be granted at its page. -/
structure Confined (curr : UserRegions) (page pte : Word) : Prop where
  fetch : pte.getLsbD 3 = true → Granted curr.memory.vmas curr.memory.codeSize page .fetch
  load : pte.getLsbD 1 = true → Granted curr.memory.vmas curr.memory.codeSize page .load
  store : pte.getLsbD 2 = true ∨ pte.getLsbD 8 = true →
    Granted curr.memory.vmas curr.memory.codeSize page .store

/-- The memory of a process behind its page table; pages with the file of the code are reserved. -/
structure Shows (reserved : Word → Prop) (s : Vm) (curr : UserRegions) (task : ℕ)
    (process : Process) : Prop where
  vmas : process.vmas = curr.memory.vmas
  codeSize : process.codeSize = curr.memory.codeSize
  byte : ∀ va, User va → process.byte va = shown s curr task va
  confined : EveryEntry (Confined curr) (s.pgd task)
  file : ∀ va < curr.memory.codeSize, reserved (framePage (physToVirt curr.codePa + va))
  unreserved : ∀ {pa}, MapsPage (s.pgd task) pa → ¬ reserved pa

section Bytes

variable {s t : Vm} {curr next : UserRegions} {task other : ℕ} {va pa pte : Word}
  {reserved : Word → Prop} {process : Process}

theorem shown_present (there : present (entryOf s task (userSlot va)) = true) :
    shown s curr task va = s.ram (ptePa (entryOf s task (userSlot va))) (offsetOf va) := by
  rw [shown, view, pageAt, if_pos there]

theorem shown_absent (absent : ¬ present (entryOf s task (userSlot va)) = true) :
    shown s curr task va = broughtIn s curr va := by
  rw [shown, view, pageAt, if_neg absent]

/-- The file of the code is kept where reserved pages are. -/
theorem broughtIn_kept (kept : ∀ pa, reserved pa → t.ram pa = s.ram pa)
    (file : ∀ va < curr.memory.codeSize, reserved (framePage (physToVirt curr.codePa + va)))
    (va : Word) :
    broughtIn t curr va = broughtIn s curr va := by
  rw [broughtIn, broughtIn]
  split
  · rename_i code
    exact congrFun (kept _ (file va code)) _
  · rfl

/-- An operation that changes no page the process sees. -/
theorem Shows.of_view {source : ℕ} (shows : Shows reserved s curr source process)
    (same : view t other = view s source) (kept : ∀ pa, reserved pa → t.ram pa = s.ram pa)
    (confined : EveryEntry (Confined curr) (t.pgd other))
    (unreserved : ∀ {pa}, MapsPage (t.pgd other) pa → ¬ reserved pa) :
    Shows reserved t curr other process where
  vmas := shows.vmas
  codeSize := shows.codeSize
  byte := by
    intro va user
    rw [shows.byte va user, shown, shown, same, broughtIn_kept kept shows.file]
  confined := confined
  file := shows.file
  unreserved := unreserved

theorem Shows.of_pgd (shows : Shows reserved s curr task process) (pgd : t.pgd task = s.pgd task)
    (same : view t task = view s task) (kept : ∀ pa, reserved pa → t.ram pa = s.ram pa) :
    Shows reserved t curr task process := by
  apply shows.of_view same kept
  · rw [pgd]
    exact shows.confined
  · rw [pgd]
    exact shows.unreserved

end Bytes

/-! ## Permissions -/

section Permissions

variable {s t : Vm} {curr next : UserRegions} {task : ℕ} {va page pa pte : Word}
  {cause : FaultCause} {vma : VmArea}

theorem Confined.share (confined : Confined curr page pte) : Confined curr page (Vm.share pte) := by
  have bit : ∀ {i}, i < 64 → i ≠ 2 → i ≠ 8 → (Vm.share pte).getLsbD i = pte.getLsbD i := by
    intro i small notW notCow
    rw [getLsbD_share pte small, if_neg notW, if_neg notCow]
  constructor
  · rw [bit (by decide) (by decide) (by decide)]
    exact confined.fetch
  · rw [bit (by decide) (by decide) (by decide)]
    exact confined.load
  · rintro (writes | marked)
    · rw [getLsbD_share pte (by decide)] at writes
      cases writes
    · rw [getLsbD_share pte (by decide)] at marked
      exact confined.store (Bool.or_eq_true_iff.mp marked)

theorem Confined.unshared (confined : Confined curr page pte)
    (marked : copyOnWrite pte = true) (pa : Word) :
    Confined curr page (unshared pte pa) := by
  have low : ∀ {i}, i < 10 → (PageTables.unshared pte pa).getLsbD i =
      ((((pte &&& 0x3ff#64) &&& ~~~pteCow) ||| pteW) ||| pteV).getLsbD i :=
      fun small => getLsbD_makePte small
  rw [copyOnWrite_eq] at marked
  constructor
  · rw [low (by decide)]
    simpa [pteW, pteV, pteCow] using confined.fetch
  · rw [low (by decide)]
    simpa [pteW, pteV, pteCow] using confined.load
  · exact fun _ => confined.store (.inr marked)

/-- An entry of a region, of the stack or of the code. -/
theorem Confined.makePte {flags : Word}
    (granted : ∀ cause, (flags ||| pteV) &&& permission cause ≠ 0#64 →
      Granted curr.memory.vmas curr.memory.codeSize page cause)
      (single : (flags ||| pteV).getLsbD 8 = false) (pa : Word) :
    Confined curr page (makePte pa (flags ||| pteV)) := by
  constructor
  · rw [getLsbD_makePte (by decide)]
    exact fun here => granted .fetch ((and_bit_ne_zero _ 3 (by decide)).mpr here)
  · rw [getLsbD_makePte (by decide)]
    exact fun here => granted .load ((and_bit_ne_zero _ 1 (by decide)).mpr here)
  · rw [getLsbD_makePte (by decide), getLsbD_makePte (by decide), single]
    rintro (here | never)
    · exact granted .store ((and_bit_ne_zero _ 2 (by decide)).mpr here)
    · cases never

theorem Confined.granted (confined : Confined curr page pte) (permits : Permits pte cause) :
    Granted curr.memory.vmas curr.memory.codeSize page cause := by
  have bit := permits.permission
  cases cause with
  | fetch => exact confined.fetch ((and_bit_ne_zero pte 3 (by decide)).mp bit)
  | load => exact confined.load ((and_bit_ne_zero pte 1 (by decide)).mp bit)
  | store => exact confined.store (.inl ((and_bit_ne_zero pte 2 (by decide)).mp bit))

theorem pageVa_pageVa (va : Word) : pageVa (pageVa va) = pageVa va := by
  apply BitVec.eq_of_toNat_eq
  rw [toNat_pageVa, toNat_pageVa]
  omega

theorem granted_pageVa (vmas : List VmArea) (codeSize va : Word) (cause : FaultCause) :
    Granted vmas codeSize (pageVa va) cause ↔ Granted vmas codeSize va cause := by
  rw [Granted, Granted, pageVa_pageVa]

private theorem granted_region (valid : Valid curr.memory) (found : regionAt curr va = some vma)
    (bit : (mmapPageProt vma.prot ||| pteV) &&& permission cause ≠ 0#64) :
    Granted curr.memory.vmas curr.memory.codeSize va cause := by
  have here : curr.memory.vmas.find? (·.contains (pageVa va)) = some vma :=
    (regionAt_pageVa valid va).trans found
  rw [Granted, here]
  exact (PopulatedPages.granted_iff vma.prot cause).mp bit

private theorem granted_stack (valid : Valid curr.memory) (stack : InStack va)
    (bit : (protUserRw ||| pteV) &&& permission cause ≠ 0#64) :
    Granted curr.memory.vmas curr.memory.codeSize va cause := by
  have onPage := (inStack_pageVa va).mpr stack
  have none : curr.memory.vmas.find? (·.contains (pageVa va)) = none := regionAt_stack valid onPage
  rw [Granted, none]
  refine .inl ⟨onPage, ?_⟩
  rintro rfl
  exact absurd bit (by decide)

private theorem granted_code (valid : Valid curr.memory) (code : va < curr.memory.codeSize)
    (bit : (protUserRx ||| pteV) &&& permission cause ≠ 0#64) :
    Granted curr.memory.vmas curr.memory.codeSize va cause := by
  have none : curr.memory.vmas.find? (·.contains (pageVa va)) = none :=
    regionAt_code valid (pageVa_lt code)
  rw [Granted, none]
  refine .inr ⟨pageVa_lt code, ?_⟩
  rintro rfl
  exact absurd bit (by decide)

/-- A new region takes nothing back. -/
theorem granted_append (appends : Appends curr next vma) (valid : Valid next.memory)
    (granted : Granted curr.memory.vmas curr.memory.codeSize va cause) :
    Granted next.memory.vmas next.memory.codeSize va cause := by
  have later : next.memory.vmas.find? (·.contains (pageVa va)) = _ := appends.regionAt (pageVa va)
  rw [Granted] at granted ⊢
  cases found : curr.memory.vmas.find? (·.contains (pageVa va)) with
  | some old =>
    rw [regionAt, found, Option.some_or] at later
    rw [found] at granted
    rw [later]
    exact granted
  | none =>
    rw [found] at granted
    rcases granted with ⟨stack, notFetch⟩ | ⟨code, notStore⟩
    · have nothing : next.memory.vmas.find? (·.contains (pageVa va)) = none :=
        regionAt_stack valid stack
      rw [nothing]
      exact .inl ⟨stack, notFetch⟩
    · rw [← appends.codeSize] at code
      have nothing : next.memory.vmas.find? (·.contains (pageVa va)) = none :=
        regionAt_code valid code
      rw [nothing]
      exact .inr ⟨code, notStore⟩

theorem Confined.append (confined : Confined curr page pte) (appends : Appends curr next vma)
    (valid : Valid next.memory) :
    Confined next page pte :=
  ⟨fun bit => granted_append appends valid (confined.fetch bit), fun bit => granted_append appends
    valid (confined.load bit), fun bit => granted_append appends valid (confined.store bit)⟩

end Permissions

/-! ## Pages that are brought in -/

/-- The memory shows every process its own, and what it may write through is mapped once. -/
structure Represents (reserved : Word → Prop) (s : Vm) (regions : ℕ → UserRegions)
    (process : ℕ → Process) : Prop where
  writableOnce : WritableOnce s
  shows : ∀ {task}, task ∈ s.live → Shows reserved s (regions task) task (process task)

/-- A new page is written to the table of a task, in the place of nothing. -/
structure BringsIn (s t : Vm) (task : ℕ) (slot : Slot) (pa pte : Word)
    (bytes : Fin 4096 → BitVec 8) : Prop where
  live : t.live = s.live
  writes : Writes s t task slot pte
  ram : t.ram = Function.update s.ram pa bytes
  absent : ¬ present (entryOf s task slot) = true
  there : present pte = true
  page : ptePa pte = pa
  unmapped : ∀ {other}, other ∈ s.live → ¬ MapsPage (s.pgd other) pa

section BringsIn

variable {s t : Vm} {task other : ℕ} {slot place : Slot} {pa pte : Word}
  {bytes : Fin 4096 → BitVec 8}
  (bringsIn : BringsIn s t task slot pa pte bytes)
include bringsIn

theorem BringsIn.pageAt_eq (inLive : other ∈ s.live) :
    pageAt t.ram (entryOf s other place) = pageAt s.ram (entryOf s other place) :=
  pageAt_congr fun there => by
    rw [bringsIn.ram]
    exact Function.update_of_ne (fun same => bringsIn.unmapped inLive ⟨place, there, same⟩) _ _

theorem BringsIn.view_other (inLive : other ∈ s.live) (different : other ≠ task) :
    view t other = view s other := by
  funext place
  rw [view, view, entryOf, bringsIn.writes.others different]
  exact bringsIn.pageAt_eq inLive

theorem BringsIn.view_task (inLive : task ∈ s.live) :
    view t task = Function.update (view s task)
      slot (some ⟨readable pte, writable pte || copyOnWrite pte, bytes⟩) := by
  funext place
  rw [view, entryOf, bringsIn.writes.entry]
  rcases eq_or_ne place slot with rfl | elsewhere
  · rw [Function.update_self, Function.update_self, pageAt, if_pos bringsIn.there, bringsIn.page,
      bringsIn.ram, Function.update_self]
  · rw [Function.update_of_ne elsewhere, Function.update_of_ne elsewhere]
    exact bringsIn.pageAt_eq inLive

theorem BringsIn.mapsPage {pa' : Word} (maps : MapsPage (t.pgd other) pa') :
    other = task ∧ pa' = pa ∨ MapsPage (s.pgd other) pa' := by
  rcases eq_or_ne other task with rfl | different
  · obtain ⟨place, there, rfl⟩ := maps
    rw [bringsIn.writes.entry] at there ⊢
    rcases eq_or_ne place slot with rfl | elsewhere
    · rw [Function.update_self, bringsIn.page]
      exact .inl ⟨rfl, rfl⟩
    · rw [Function.update_of_ne elsewhere] at there ⊢
      exact .inr ⟨place, there, rfl⟩
  · rw [bringsIn.writes.others different] at maps
    exact .inr maps

/-- What was mapped stays mapped. -/
theorem BringsIn.still {pa' : Word} (maps : MapsPage (s.pgd other) pa') :
    MapsPage (t.pgd other) pa' := by
  rcases eq_or_ne other task with rfl | different
  · obtain ⟨place, there, rfl⟩ := maps
    have elsewhere : place ≠ slot := fun same => bringsIn.absent (same ▸ there)
    refine ⟨place, ?_, ?_⟩
    · rw [bringsIn.writes.entry, Function.update_of_ne elsewhere]
      exact there
    · rw [bringsIn.writes.entry, Function.update_of_ne elsewhere]
  · rw [bringsIn.writes.others different]
    exact maps

theorem BringsIn.mappers (pa' : Word) (old : pa' ≠ pa) : mappers t pa' = mappers s pa' := by
  ext other
  rw [mem_mappers, mem_mappers, bringsIn.live]
  refine and_congr_right fun _ => ⟨fun maps => ?_, bringsIn.still⟩
  exact (bringsIn.mapsPage maps).resolve_left fun both => old both.2

theorem BringsIn.writableOnce (inLive : task ∈ s.live) (writableOnce : WritableOnce s) :
    WritableOnce t := by
  intro other place otherLive there writes
  rw [bringsIn.live] at otherLive
  by_cases here : other = task ∧ place = slot
  · obtain ⟨rfl, rfl⟩ := here
    have new : entryOf t other place = pte := by
      rw [entryOf, bringsIn.writes.entry, Function.update_self]
    rw [new, bringsIn.page]
    ext holder
    rw [mem_mappers, bringsIn.live, Finset.mem_singleton]
    constructor
    · rintro ⟨holderLive, maps⟩
      exact ((bringsIn.mapsPage maps).resolve_right (bringsIn.unmapped holderLive)).1
    · rintro rfl
      refine ⟨inLive, place, there, ?_⟩
      change ptePa (entryOf t holder place) = pa
      rw [new, bringsIn.page]
  · have same : entryOf t other place = entryOf s other place := by
      rcases eq_or_ne other task with rfl | different
      · have elsewhere : place ≠ slot := fun same => here ⟨rfl, same⟩
        rw [entryOf, bringsIn.writes.entry, Function.update_of_ne elsewhere]
        rfl
      · rw [entryOf, bringsIn.writes.others different]
        rfl
    rw [same] at there writes ⊢
    have old : ptePa (entryOf s other place) ≠ pa :=
      fun same => bringsIn.unmapped otherLive ⟨place, there, same⟩
    rw [bringsIn.mappers _ old]
    exact writableOnce otherLive there writes

end BringsIn

/-- The page of an address gets the bytes that were shown there. -/
theorem Represents.bringIn {reserved : Word → Prop} {s t : Vm} {regions : ℕ → UserRegions}
    {process : ℕ → Process} {task : ℕ} {va pa pte : Word} {bytes : Fin 4096 → BitVec 8}
    (all : Represents reserved s regions process) (inLive : task ∈ s.live) (user : User va)
    (bringsIn : BringsIn s t task (userSlot va) pa pte bytes) (unreserved : ¬ reserved pa)
    (confined : Confined (regions task) (pageVa va) pte) (same : ∀ va', User va' →
      pageVa va' = pageVa va → bytes (offsetOf va') = broughtIn s (regions task) va') :
    Represents reserved t regions process := by
  have kept : ∀ pa', reserved pa' → t.ram pa' = s.ram pa' := by
    intro pa' isReserved
    rw [bringsIn.ram]
    have different : pa' ≠ pa := fun here => unreserved (here ▸ isReserved)
    exact Function.update_of_ne different _ _
  refine ⟨bringsIn.writableOnce inLive all.writableOnce, fun {other} otherLive => ?_⟩
  rw [bringsIn.live] at otherLive
  have shows := all.shows otherLive
  rcases eq_or_ne other task with rfl | different
  · refine ⟨shows.vmas, shows.codeSize, fun va' user' => ?_, ?_, shows.file, fun maps => ?_⟩
    · rw [shows.byte va' user', shown, shown, bringsIn.view_task inLive,
        broughtIn_kept kept shows.file]
      by_cases here : userSlot va' = userSlot va
      · have nothing : view s other (userSlot va) = none := by
          rw [view, pageAt, if_neg bringsIn.absent]
        have onPage : pageVa va' = pageVa va := by
          apply pageVa_of_userSlot user (user_pageVa user') (aligned_pageVa va')
          rw [userSlot_pageVa, here]
        rw [here, Function.update_self, nothing]
        exact (same va' user' onPage).symm
      · rw [Function.update_of_ne here]
    · apply EveryEntry.write shows.confined bringsIn.writes
      intro page user' aligned here
      rw [pageVa_of_userSlot user user' aligned here]
      exact confined
    · rcases bringsIn.mapsPage maps with ⟨-, rfl⟩ | before
      · exact unreserved
      · exact shows.unreserved before
  · exact shows.of_pgd (bringsIn.writes.others different)
      (bringsIn.view_other otherLive different) kept

/-! ## Faults -/

section Faults

variable {s t u : Vm} {base task : ℕ} {curr : UserRegions} {va prot pa : Word}
  {pages : FaultPages} {cause : FaultCause}
  {reserved : Word → Prop} {regions : ℕ → UserRegions} {process : ℕ → Process}

/-- A page that `allocate` returns is mapped by no process. -/
theorem newPage_unmapped (separate : Separate s) (new : s.newPage pages.page = some u) {other : ℕ}
    (inLive : other ∈ s.live) :
    ¬ MapsPage (s.pgd other) (virtToPhys pages.page) := by
  intro maps
  obtain ⟨-, id, within, -⟩ := separate.page inLive maps
  rw [physToVirt_virtToPhys] at within
  exact (newPage_fresh separate.valid new).new id within

theorem zeroPage_bringsIn (separate : Separate s) (user : User va)
    (flags : (prot ||| pteV).toNat < 2 ^ 10)
    (absent : ¬ present ((s.pgd task).entryAt (userSlot va)) = true)
    (result : s.zeroPage task va prot pages = some t) :
    BringsIn s t task (userSlot va) (virtToPhys pages.page)
      (makePte (virtToPhys pages.page) (prot ||| pteV)) fun _ => 0#8 := by
  have writes := (zeroPage_writes result).2 user
  have live := (zeroPage_memoryOnly result).live
  obtain ⟨u, new, mapped⟩ := Option.bind_eq_some_iff.mp result
  obtain ⟨ram, aligned⟩ := ExecImage.newPage_ram new
  exact ⟨live, writes, (mapPage_bookkeeping mapped).ram.trans ram, absent, present_makePte _ _,
    ptePa_makePte aligned flags, newPage_unmapped separate new⟩

/-- The bytes of a page of the code. -/
private theorem codePage_bringsIn (separate : Separate s) (user : User va)
    (code : va < curr.memory.codeSize)
    (file : ∀ va < curr.memory.codeSize, reserved (framePage (physToVirt curr.codePa + va)))
    (unreserved : ¬ reserved (virtToPhys pages.page))
    (absent : ¬ present ((s.pgd task).entryAt (userSlot va)) = true)
    (result : s.codePage task curr va pages = some t) :
    BringsIn s t task (userSlot va) (virtToPhys pages.page)
      (makePte (virtToPhys pages.page) (protUserRx ||| pteV))
      fun i => ExecImage.fileByte s (physToVirt curr.codePa) curr.memory.codeSize va i := by
  have writes := codePage_writes result user
  have live := (codePage_memoryOnly result).live
  have apart : ∀ i < curr.memory.codeSize.toNat,
      framePage (physToVirt curr.codePa + BitVec.ofNat 64 i) ≠ virtToPhys pages.page := by
    intro i below same
    apply unreserved
    rw [← same]
    apply file
    have size := curr.memory.codeSize.isLt
    rw [BitVec.lt_def, BitVec.toNat_ofNat]
    omega
  have codePa : curr.codePa = virtToPhys (physToVirt curr.codePa) := (virtToPhys_physToVirt _).symm
  obtain ⟨aligned, bytes⟩ := ExecImage.codePage_ram codePa rfl code result apart
  obtain ⟨u, new, mapped⟩ := Option.bind_eq_some_iff.mp result
  refine ⟨live, writes, ?_, absent, present_makePte _ _, ptePa_makePte aligned (by decide),
    newPage_unmapped separate new⟩
  funext page
  rcases eq_or_ne page (virtToPhys pages.page) with rfl | elsewhere
  · rw [Function.update_self]
    exact funext bytes
  · rw [(mapPage_bookkeeping mapped).ram]
    simp only [(ExecImage.newPage_ram new).1, Function.update_of_ne elsewhere]

/-- An address is behind the start of its page. -/
theorem pageVa_add (va : Word) : pageVa va + BitVec.ofNat 64 (offsetOf va) = va := by
  apply BitVec.eq_of_toNat_eq
  have small := va.isLt
  rw [BitVec.toNat_add, toNat_pageVa, BitVec.toNat_ofNat, offsetOf]
  dsimp only
  omega

private theorem fileByte_eq (s : Vm) (curr : UserRegions) (va : Word) :
    ExecImage.fileByte s (physToVirt curr.codePa) curr.memory.codeSize (pageVa va) (offsetOf va) =
      broughtIn s curr va := by
  have inside : (pageVa va).toNat + (offsetOf va).val < curr.memory.codeSize.toNat ↔
      va < curr.memory.codeSize := by
    rw [toNat_pageVa, offsetOf, BitVec.lt_def]
    dsimp only
    omega
  rw [ExecImage.fileByte, broughtIn]
  simp only [inside]
  rw [BitVec.add_assoc, pageVa_add]

/-- A fault that copies a shared page changes no byte. -/
theorem Represents.cowFault (all : Represents reserved s regions process) (separate : Separate s)
    (inLive : task ∈ s.live) {slot : Slot} {newPage : Word}
    (unreserved : ¬ reserved (virtToPhys newPage))
    (result : s.cowFault task slot newPage = some t) : Represents reserved t regions process := by
  have unshares := cowFault_unshares separate inLive result
  have kept : ∀ pa, reserved pa → t.ram pa = s.ram pa := by
    intro pa isReserved
    have different : pa ≠ virtToPhys newPage := fun here => unreserved (here ▸ isReserved)
    rw [unshares.ram]
    exact Function.update_of_ne different _ _
  refine ⟨WritableOnce.unshare unshares separate all.writableOnce inLive,
    fun {other} otherLive => ?_⟩
  rw [unshares.live] at otherLive
  have shows := all.shows otherLive
  have same := view_unshare unshares separate otherLive
  rcases eq_or_ne other task with rfl | different
  · apply shows.of_view same kept
    · have writes : Writes s t other slot (unshared (entryOf s other slot) (virtToPhys newPage)) :=
        ⟨unshares.entry, fun different => unshares.others different⟩
      apply EveryEntry.write shows.confined writes
      intro page user aligned here
      have there := unshares.there
      have marked := unshares.marked
      rw [← here] at there marked ⊢
      exact (shows.confined page user aligned there).unshared marked _
    · intro pa maps
      rcases (unshares.mapsPage (separate.injective otherLive)).mp maps with rfl | ⟨-, before⟩
      · exact unreserved
      · exact shows.unreserved before
  · exact shows.of_pgd (unshares.others different) same kept

private theorem not_code_region {vma : VmArea} (valid : Valid curr.memory)
    (found : regionAt curr va = some vma) :
    ¬ va < curr.memory.codeSize := by
  intro code
  rw [regionAt_code valid code] at found
  cases found

/-- A page of a region, at a fault or where the region is populated. -/
theorem Represents.regionPage {vma : VmArea} (all : Represents reserved s regions process)
    (separate : Separate s) (inLive : task ∈ s.live) (user : User va)
    (valid : Valid (regions task).memory) (found : regionAt (regions task) va = some vma)
    (absent : ¬ present ((s.pgd task).entryAt (userSlot (pageVa va))) = true)
    (unreserved : ¬ reserved (virtToPhys pages.page))
    (result : s.zeroPage task (pageVa va) (mmapPageProt vma.prot) pages = some t) :
    Represents reserved t regions process := by
  have onPage : regionAt (regions task) (pageVa va) = some vma :=
    (regionAt_pageVa valid va).trans found
  apply all.bringIn inLive (user_pageVa user)
    (zeroPage_bringsIn separate (user_pageVa user) (region_flags _) absent result) unreserved
  · apply Confined.makePte _ (FaultProgress.region_single _)
    intro cause bit
    rw [granted_pageVa]
    exact granted_region valid onPage bit
  · intro va' user' same
    have same' : pageVa va' = pageVa va := same.trans (pageVa_pageVa va)
    have here : regionAt (regions task) va' = some vma := by
      rw [← regionAt_pageVa valid, same', onPage]
    rw [broughtIn, if_neg (not_code_region valid here)]

/-- A fault changes no byte of any process. -/
theorem Represents.pageFault (all : Represents reserved s regions process) (separate : Separate s)
    (inLive : task ∈ s.live) (mapped : Mapped (regions task) (s.pgd task))
    (valid : Valid (regions task).memory) (user : User va)
    (faults : ¬ Permits ((s.pgd task).entryAt (userSlot va)) cause)
    (directed : ¬ FaultProgress.Misdirected s task (regions task) va cause)
    (unreserved : ¬ reserved (virtToPhys pages.page))
    (result : s.pageFaultHandler task (regions task) va cause pages = some (.returned t)) :
    Represents reserved t regions process := by
  have branch := pageFaultHandler_branch result
  have absent := branch.absent mapped valid user faults directed
  have user' := user_pageVa user
  cases branch with
  | copied shared ran => exact all.cowFault separate inLive unreserved ran
  | region single found allowed ran =>
    exact all.regionPage separate inLive user valid found (absent.resolve_left single)
      unreserved ran
  | stack single stack ran =>
    have onPage := (inStack_pageVa va).mpr stack
    apply all.bringIn inLive user'
      (zeroPage_bringsIn separate user' (by decide) (absent.resolve_left single) ran) unreserved
    · apply Confined.makePte _ (by decide)
      intro cause bit
      rw [granted_pageVa]
      exact granted_stack valid onPage bit
    · intro va' user'' same
      have here : InStack va' := by
        rw [← inStack_pageVa, same.trans (pageVa_pageVa va)]
        exact onPage
      rw [broughtIn, if_neg fun code => not_inStack_code code here]
  | code single code ran =>
    have onPage := pageVa_lt code
    have bringsIn := codePage_bringsIn separate user' onPage (all.shows inLive).file unreserved
      (absent.resolve_left single) ran
    apply all.bringIn inLive user' bringsIn unreserved
    · apply Confined.makePte _ (by decide)
      intro cause bit
      rw [granted_pageVa]
      exact granted_code valid onPage bit
    · intro va' user'' same
      rw [← fileByte_eq, same.trans (pageVa_pageVa va)]

end Faults

end OscKernel.Soundness.ProcessMemory
