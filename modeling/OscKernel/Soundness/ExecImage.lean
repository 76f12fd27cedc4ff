import OscKernel.Model.Exec
import OscKernel.Soundness.FaultProgress

/-! # The image after exec

`do_exec` unmaps the user half and notes the new program, and does not look at the regions, the
handlers, the saved frame and the signal stack of the old one. So the new image is that of its file
exactly when the old program left none of these. A code page that is installed then shows the bytes
of the file, filled up with zeros.
-/

namespace OscKernel.Soundness.ExecImage

open OscKernel.Lib OscKernel.Model OscKernel.Soundness.PageTables OscKernel.Soundness.UserMappings
open OscKernel.Soundness.PageWalks (User present_makePte aligned_virtToPhys)
open OscKernel.Soundness.FaultProgress (permits_makePte)

/-! ## What a code page shows -/

/-- The page of the linear map that an address is in. -/
def framePage (va : Word) : Word := virtToPhys va &&& ~~~4095#64

/-- Byte `i` of a page of a file. -/
def fileByte (s : Vm) (codeStart size page : Word) (i : ℕ) : BitVec 8 :=
  if page.toNat + i < size.toNat then s.byteAt (codeStart + page + BitVec.ofNat 64 i) else 0#8

section Pages

variable {s t : Vm} {task : ℕ} {slot : Slot} {pa prot newPmd newPte va : Word} {pages : FaultPages}

theorem newPage_ram (result : s.newPage va = some t) :
    t.ram = Function.update s.ram (virtToPhys va) (fun _ => 0#8) ∧ Aligned (virtToPhys va) := by
  obtain ⟨u, allocated, rfl⟩ := Option.map_eq_some_iff.mp result
  have page := (Option.ite_none_right_eq_some.mp allocated).1
  refine ⟨?_, aligned_virtToPhys (aligned_of_isPage page)⟩
  rw [← (Bookkeeping.allocatePage allocated).ram]
  exact (Bookkeeping.setPageRefInit _ _).ram

/-- Memory outside a page that is written keeps its bytes. -/
private theorem byteAt_of_update {bytes : Fin 4096 → BitVec 8}
    (ram : t.ram = Function.update s.ram pa bytes) (elsewhere : framePage va ≠ pa) :
    t.byteAt va = s.byteAt va := by
  rw [Vm.byteAt, Vm.byteAt, ram]
  exact congrFun (Function.update_of_ne elsewhere _ _) _

private theorem clearUserSpaceMappings_ram (s : Vm) (task : ℕ) :
    (s.clearUserSpaceMappings task).ram = s.ram := by
  rw [Vm.clearUserSpaceMappings, releaseUserHalf_eq]
  exact (Bookkeeping.release _ s).ram

/-- The code branch fills its page with the file. -/
theorem codePage_ram {curr : UserRegions} {codeStart size : Word}
    (codePa : curr.codePa = virtToPhys codeStart) (codeSize : curr.memory.codeSize = size)
    (below : va < size) (result : s.codePage task curr va pages = some t)
    (apart : ∀ i < size.toNat, framePage (codeStart + BitVec.ofNat 64 i) ≠ virtToPhys pages.page) :
    Aligned (virtToPhys pages.page) ∧ ∀ i : Fin 4096, t.ram (virtToPhys pages.page) i =
      fileByte s codeStart size va i := by
  obtain ⟨u, fresh, mapped⟩ := Option.bind_eq_some_iff.mp result
  obtain ⟨ram, aligned⟩ := newPage_ram fresh
  refine ⟨aligned, fun i => ?_⟩
  have inFile : va.toNat < size.toNat := below
  have sizes := size.isLt
  have count : (if size - va > pageSize then pageSize else size - va).toNat =
      min (size.toNat - va.toNat) 4096 := by
    have rest : (size - va).toNat = size.toNat - va.toNat :=
      BitVec.toNat_sub_of_le (show va.toNat ≤ size.toNat from le_of_lt inFile)
    have unit : pageSize.toNat = 4096 := rfl
    have decided : size - va > pageSize ↔ 4096 < size.toNat - va.toNat := by
      rw [gt_iff_lt, BitVec.lt_def, rest, unit]
    split
    · rename_i more
      have := decided.mp more
      omega
    · rename_i less
      have := mt decided.mpr less
      omega
  rw [(mapPage_bookkeeping mapped).ram]
  simp only [Function.update_self, codeSize, codePa, physToVirt_virtToPhys]
  rw [count, fileByte]
  by_cases inside : va.toNat + i.val < size.toNat
  · have place : codeStart + va + BitVec.ofNat 64 i.val =
      codeStart + BitVec.ofNat 64 (va.toNat + i.val) := by
      rw [BitVec.ofNat_add, BitVec.ofNat_toNat, BitVec.setWidth_eq, BitVec.add_assoc]
    rw [if_pos inside, if_pos (by omega), place]
    exact byteAt_of_update ram (apart _ inside)
  · rw [if_neg inside, if_neg (by omega), ram, Function.update_self]

end Pages

/-! ## The new image -/

/-- The image of a file: no page is mapped yet, a fault at a missing page ends the thread outside
the code and the stack and installs a page in them, the pages of the code show the file as long as
its bytes are not overwritten, as they are not by exec, and nothing else is left in the
`task_struct`. -/
structure Replaced (s t : Vm) (task : ℕ) (next : UserImage) (codeStart size : Word) : Prop where
  unmapped : ∀ slot, present ((t.pgd task).entryAt slot) = false
  installs : ∀ {u : Vm} {va cause pages fault}, User va →
    present ((u.pgd task).entryAt (userSlot va)) = false →
    u.pageFaultHandler task next.regions va cause pages = some fault →
    ((∃ w, fault = .returned w) ↔ va < size ∨ InStack va)
  shows : ∀ {u w : Vm} {va cause pages}, va < size →
    present ((u.pgd task).entryAt (userSlot va)) = false →
    (∀ i < size.toNat, u.byteAt (codeStart + BitVec.ofNat 64 i) =
      s.byteAt (codeStart + BitVec.ofNat 64 i) ∧
      framePage (codeStart + BitVec.ofNat 64 i) ≠ virtToPhys pages.page) →
    u.pageFaultHandler task next.regions va cause pages = some (.returned w) →
    ∀ i : Fin 4096, w.loadByte task (userSlot va) i = some (fileByte s codeStart size (pageVa va) i)
  unwritten : ∀ va, t.byteAt va = s.byteAt va
  vmas : next.regions.memory.vmas = []
  sigHandlers : ∀ signum, next.signals.sigHandlers signum = 0#64
  savedRegs : next.signals.savedRegs = none
  signalStack : next.signalStack = 0#64

/-- The old program has mapped no region and registered no handler, and no handler of it is
suspended. -/
structure NothingLeft (curr : UserImage) : Prop where
  vmas : curr.regions.memory.vmas = []
  sigHandlers : ∀ signum, curr.signals.sigHandlers signum = 0#64
  savedRegs : curr.signals.savedRegs = none
  signalStack : curr.signalStack = 0#64

section Image

variable {s t u : Vm} {task : ℕ} {curr : UserImage} {regions : UserRegions} {codeStart size : Word}

private theorem user_code {va : Word} (size_lt : size.toNat < 2 ^ 32)
    (code : va < size) : User va := by
  have below : va.toNat < size.toNat := code
  rw [User]
  omega

private theorem not_sharedStore {pte : Word} {cause : FaultCause} (missing : present pte = false) :
    ¬ SharedStore pte cause := by
  rintro ⟨-, there, -⟩
  rw [missing] at there
  cases there

/-- Without regions the handler installs a page in the stack and in the code. -/
private theorem returned_iff {va pa : Word} {cause : FaultCause} {fault : FaultEnd}
    (empty : regions.memory.vmas = [])
    (missing : present ((u.pgd task).entryAt (userSlot va)) = false)
    (handled : Handled u task regions va cause pa fault) : (∃ w, fault = .returned w) ↔
    va < regions.memory.codeSize ∨ InStack va := by
  cases handled with
  | copied shared => exact absurd shared (not_sharedStore missing)
  | region single found =>
    rw [regionAt, empty] at found
    cases found
  | stack single refused stack => exact iff_of_true ⟨_, rfl⟩ (.inr stack)
  | code single refused offStack code => exact iff_of_true ⟨_, rfl⟩ (.inl code)
  | threadExit single refused offStack offCode =>
    apply iff_of_false
    · rintro ⟨w, returned⟩
      cases returned
    · rintro (code | stack)
      · exact offCode code
      · exact offStack stack

/-- In the code the handler of a process without regions takes the code branch. -/
private theorem pageFaultHandler_code {va : Word} {cause : FaultCause} {pages : FaultPages}
    (empty : regions.memory.vmas = [])
    (missing : present ((u.pgd task).entryAt (userSlot va)) = false)
    (code : va < regions.memory.codeSize) :
    u.pageFaultHandler task regions va cause pages =
      (u.codePage task regions (pageVa va) pages).map .returned := by
  have notShared :
      ¬ (cause = .store ∧ iteratePageTable (u.pgd task) (userSlot va) .checkCow ≠ 0#64) := by
    rintro ⟨-, marked⟩
    have there := (checkCow_spec marked).1
    rw [missing] at there
    cases there
  have offStack : ¬ (userStack ≤ va ∧ va < userStack + stackSize) := not_inStack_code code
  rw [Vm.pageFaultHandler, if_neg notShared, empty, List.find?_nil, Option.filter_none,
    Vm.stackOrCodeFault, if_neg offStack, if_pos code]
  rfl

private theorem codePage_loads {va : Word} {pages : FaultPages} {w : Vm} (code : va < size)
    (size_lt : size.toNat < 2 ^ 32) (codePa : regions.codePa = virtToPhys codeStart)
    (codeSize : regions.memory.codeSize = size) (apart : ∀ i < size.toNat,
      u.byteAt (codeStart + BitVec.ofNat 64 i) = s.byteAt (codeStart + BitVec.ofNat 64 i) ∧
      framePage (codeStart + BitVec.ofNat 64 i) ≠ virtToPhys pages.page)
    (result : u.codePage task regions (pageVa va) pages = some w) (i : Fin 4096) :
    w.loadByte task (userSlot va) i = some (fileByte s codeStart size (pageVa va) i) := by
  have user := user_pageVa (user_code size_lt code)
  obtain ⟨aligned, bytes⟩ :=
    codePage_ram codePa codeSize (pageVa_lt code) result fun i inside => (apart i inside).2
  have writes := codePage_writes result user
  have entry : (w.pgd task).entryAt (userSlot va) =
      makePte (virtToPhys pages.page) (protUserRx ||| pteV) := by
    rw [writes.entry, userSlot_pageVa, Function.update_self]
  have there : present (makePte (virtToPhys pages.page) (protUserRx ||| pteV)) = true :=
    present_makePte _ _
  have reads : readable (makePte (virtToPhys pages.page) (protUserRx ||| pteV)) = true := by
    rw [readable_eq, getLsbD_makePte (by decide)]
    decide
  have same : fileByte u codeStart size (pageVa va) i =
      fileByte s codeStart size (pageVa va) i := by
    rw [fileByte, fileByte]
    split
    · rename_i inside
      have place : codeStart + pageVa va + BitVec.ofNat 64 i.val =
          codeStart + BitVec.ofNat 64 ((pageVa va).toNat + i.val) := by
        rw [BitVec.ofNat_add, BitVec.ofNat_toNat, BitVec.setWidth_eq, BitVec.add_assoc]
      rw [place]
      exact (apart _ inside).1
    · rfl
  rw [Vm.loadByte, entry]
  simp only [there, reads, Bool.and_self, if_true]
  rw [ptePa_makePte aligned (by decide), bytes i, same]

/-- The image is that of the file exactly when the old program left nothing. -/
private theorem replaced_iff (size_lt : size.toNat < 2 ^ 32) (userStack : Word) (regs : Vm.PtRegs) :
    Replaced s (s.clearUserSpaceMappings task) task { curr with
      regions := curr.regions.load codeStart size size_lt
      userStack := userStack
      signals := { curr.signals with regs := regs } } codeStart size ↔ NothingLeft curr := by
  constructor
  · intro replaced
    exact ⟨replaced.vmas, replaced.sigHandlers, replaced.savedRegs, replaced.signalStack⟩
  · intro nothing
    have empty : (curr.regions.load codeStart size size_lt).memory.vmas = [] := nothing.vmas
    refine ⟨fun slot => ?_, fun user missing result => ?_, fun code missing apart result i => ?_,
      fun va => ?_, nothing.vmas, nothing.sigHandlers, nothing.savedRegs, nothing.signalStack⟩
    · rw [clearUserSpaceMappings_pgd, Function.update_self, entryAt_cleared]
      decide
    · exact returned_iff empty missing (pageFaultHandler_handled user result)
    · rw [pageFaultHandler_code empty missing code] at result
      obtain ⟨v, installed, same⟩ := Option.map_eq_some_iff.mp result
      obtain rfl := FaultEnd.returned.inj same
      exact codePage_loads code size_lt rfl rfl apart installed i
    · rw [Vm.byteAt, Vm.byteAt, clearUserSpaceMappings_ram]

/-- A call of `do_exec` either finds no file and changes nothing, or starts the image of the file it
finds. -/
private theorem doExec_cases {cpioBase taskVa sstatus : Word} {filename : List UInt8} {fuel : ℕ}
    {ret : ℤ} {next : UserImage}
    (result : doExec s task curr cpioBase filename taskVa sstatus fuel = some (ret, t, next)) :
    (cpioGetFile s.bytes cpioBase filename fuel = some none ∧ ret = -1 ∧ t = s ∧ next = curr) ∨
    ∃ codeStart size, cpioGetFile s.bytes cpioBase filename fuel =
      some (some (codeStart, size)) ∧ ret = 0 ∧
      (Replaced s t task next codeStart size ↔ NothingLeft curr) := by
  unfold doExec at result
  split at result
  · cases result
  · rename_i found
    obtain ⟨rfl, rest⟩ := Prod.mk.inj (Option.some.inj result)
    obtain ⟨rfl, rfl⟩ := Prod.mk.inj rest
    exact .inl ⟨found, rfl, rfl, rfl⟩
  · rename_i codeStart size found
    obtain ⟨rfl, rest⟩ := Prod.mk.inj (Option.some.inj result)
    obtain ⟨rfl, rfl⟩ := Prod.mk.inj rest
    exact .inr ⟨codeStart, size, found, rfl, replaced_iff (cpioGetFile_size found) _ _⟩

end Image

/-- `sys_exec` returns 0 with a file that the archive has, and then the image is that of the file
exactly when the old program left no region, handler, saved frame or signal stack; or it returns -1
and has changed nothing. -/
theorem sys_exec_replaces_iff {s t : Vm} {task : ℕ} {curr next : UserImage}
    {cpioBase taskVa sstatus : Word} {filename : List UInt8} {fuel : ℕ} {ret : ℤ}
    (result : sysExec s task curr cpioBase filename taskVa sstatus fuel = some (ret, t, next)) :
    (ret = -1 ∧ t = s ∧ next = curr) ∨
    ∃ codeStart size, cpioGetFile s.bytes cpioBase filename fuel =
      some (some (codeStart, size)) ∧ ret = 0 ∧
      (Replaced s t task next codeStart size ↔ NothingLeft curr) := by
  obtain ⟨⟨ret', t', next'⟩, called, same⟩ := Option.map_eq_some_iff.mp result
  obtain ⟨rfl, rest⟩ := Prod.mk.inj same
  obtain ⟨rfl, rfl⟩ := Prod.mk.inj rest
  rcases doExec_cases called with ⟨-, rfl, unchanged⟩ | ⟨codeStart, size, found, rfl, replaced⟩
  · exact .inl ⟨rfl, unchanged⟩
  · exact .inr ⟨codeStart, size, found, rfl, replaced⟩

/-! ## An archive with one file -/

/-- A file `a` of one byte, in the second page frame. -/
def archiveByte (offset : ℕ) : BitVec 8 :=
  if offset < 6 then BitVec.ofNat 8 ((cpioMagic.getD offset 0).toNat)
  else if offset = 61 then 49#8
  else if offset = 101 then 50#8
  else if offset < 110 then 48#8
  else if offset = 110 then 97#8
  else if offset = 112 then 0x13#8
  else 0#8

def archiveMemory : Vm := { FaultProgress.unusedMemory with
  ram := fun page offset => if page = 0x1000#64 then archiveByte offset else 0#8
  live := {0} }

/-- The program has mapped these regions and nothing else. -/
def imageWith (vmas : List VmArea) : UserImage where
  regions := ⟨⟨vmas, 4096#64, FaultProgress.codePage_lt⟩, 0x8000#64⟩
  userStack := 0#64
  signals := ⟨fun _ => 0#64, 0#32, fun _ => 0#64, none⟩
  signalStack := 0#64

theorem archive_found : cpioGetFile archiveMemory.bytes (physToVirt 0x1000#64) [97] 1 =
    some (some (physToVirt 0x1070#64, 1#64)) := by decide +kernel

theorem archive_exec (curr : UserImage) : ∃ t next,
    sysExec archiveMemory 0 curr (physToVirt 0x1000#64) [97] 0#64 0#64 1 = some (0, t, next) ∧
      next.regions.memory.vmas = curr.regions.memory.vmas := by
  rw [sysExec, doExec]
  split
  · rename_i found
    rw [archive_found] at found
    cases found
  · rename_i found
    rw [archive_found] at found
    cases found
  · exact ⟨_, _, rfl, rfl⟩

/-- A program that left nothing is replaced. -/
theorem sys_exec_replaces_first : ∃ t next,
    sysExec archiveMemory 0 (imageWith []) (physToVirt 0x1000#64) [97] 0#64 0#64 1 =
      some (0, t, next) ∧
      Replaced archiveMemory t 0 next (physToVirt 0x1070#64) 1#64 := by
  obtain ⟨t, next, result, -⟩ := archive_exec (imageWith [])
  refine ⟨t, next, result, ?_⟩
  rcases sys_exec_replaces_iff result with ⟨failed, -⟩ | ⟨codeStart, size, found, -, replaced⟩
  · exact absurd failed (by decide)
  · rw [archive_found] at found
    obtain ⟨rfl, rfl⟩ := Prod.mk.inj (Option.some.inj (Option.some.inj found))
    exact replaced.mpr ⟨rfl, fun _ => rfl, rfl, rfl⟩

/-- A region that the old program had mapped is a region of the new one, where the handler installs
a page. -/
theorem region_survives : ∃ t next,
    sysExec archiveMemory 0 (imageWith [⟨0x10000000#64, 0x10001000#64, 3#32, mapAnonymous⟩])
      (physToVirt 0x1000#64) [97]
      0#64 0#64 1 = some (0, t, next) ∧ next.regions.memory.vmas ≠ [] ∧
    ∀ cause pages fault, cause ≠ .fetch →
      t.pageFaultHandler 0 next.regions 0x10000000#64 cause pages = some fault →
      ∃ u, fault = .returned u := by
  obtain ⟨t, next, result, vmas⟩ :=
    archive_exec (imageWith [⟨0x10000000#64, 0x10001000#64, 3#32, mapAnonymous⟩])
  refine ⟨t, next, result, by rw [vmas]; exact List.cons_ne_nil _ _,
    fun cause pages fault notFetch faulted => ?_⟩
  have found : regionAt next.regions 0x10000000#64 =
      some ⟨0x10000000#64, 0x10001000#64, 3#32, mapAnonymous⟩ := by
    rw [regionAt, vmas]
    rfl
  have handled := pageFaultHandler_handled (by decide) faulted
  cases handled with
  | threadExit single refused =>
    have allowed := refused _ found
    cases cause with
    | fetch => exact absurd rfl notFetch
    | load => exact absurd allowed (by decide)
    | store => exact absurd allowed (by decide)
  | _ => exact ⟨_, rfl⟩

end OscKernel.Soundness.ExecImage
