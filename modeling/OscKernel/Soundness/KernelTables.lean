import OscKernel.Soundness.ProcessTables

/-! # The kernel tables

What `setup_vm` and `drop_identity_map` leave in the static tables: the kernel half of `kernel_pgd`
points to the table of the devices and to those of the linear map, whose entries are leaves that map
two megabytes each.
-/

namespace OscKernel.Soundness.KernelTables

open OscKernel.Lib OscKernel.Model PageTables PageWalks ProcessTables

theorem vpn_lt (va : Word) : vpn2 va < 512 ∧ vpn1 va < 512 ∧ vpn0 va < 512 := by
  obtain ⟨first, second, third⟩ := vpn_eq va
  exact ⟨first ▸ Nat.mod_lt _ (by decide), second ▸ Nat.mod_lt _ (by decide),
    third ▸ Nat.mod_lt _ (by decide)⟩

/-! ## Loops over a table -/

theorem entry_fill (s : PageMemory) {table other : Word} {j : ℕ} (pte : ℕ → Word)
    (aligned : Aligned table) (aligned' : Aligned other)
    (small : j < 512) : (s.fill table pte).entry other j = if other = table then pte j
    else s.entry other j := by
  have rounds : ∀ n ≤ 512,
      ((List.range n).foldl (fun s k => s.setEntry table k (pte k)) s).entry other j =
      if other = table ∧ j < n then pte j else s.entry other j := by
    intro n
    induction n with
    | zero =>
      intro _
      simp
    | succ n ih =>
      intro le
      rw [List.range_succ, List.foldl_append, List.foldl_cons, List.foldl_nil,
        entry_setEntry _ _ aligned aligned' (by omega) small, ih (by omega)]
      rcases eq_or_ne j n with rfl | different
      · by_cases same : other = table
        · simp [same]
        · simp [same]
      · have lower : j < n + 1 ↔ j < n := by omega
        simp only [different, and_false, if_false, lower]
  rw [PageMemory.fill, rounds 512 (le_refl _)]
  simp only [small, and_true]

/-- A new top-level table has the kernel half and no user half. -/
theorem entry_newPgd (s : PageMemory) {kernelPgd pgd other : Word} {j : ℕ}
    (alignedKernel : Aligned kernelPgd) (aligned : Aligned pgd) (aligned' : Aligned other)
    (different : kernelPgd ≠ pgd) (small : j < 512) : (s.newPgd kernelPgd pgd).entry other j =
      if other = pgd then if 256 ≤ j then s.entry kernelPgd j else 0#64 else s.entry other j := by
  have rounds : ∀ n ≤ 256, ∀ {other : Word} {j : ℕ}, Aligned other → j < 512 →
      ((List.range' 256 n).foldl (fun s i => s.setEntry pgd i (s.entry kernelPgd i))
        (s.memzero pgd pageSize)).entry
        other j =
      if other = pgd then if 256 ≤ j ∧ j < 256 + n then s.entry kernelPgd j else 0#64
      else s.entry other j := by
    intro n
    induction n with
    | zero =>
      intro _ other j aligned' small
      rw [List.range'_zero, List.foldl_nil, entry_memzero s aligned aligned' small]
      split_ifs with same inside
      · omega
      · rfl
      · rfl
    | succ n ih =>
      intro le other j aligned' small
      rw [List.range'_1_concat, List.foldl_append, List.foldl_cons, List.foldl_nil,
        entry_setEntry _ _ aligned aligned' (by omega) small, ih (by omega) aligned' small,
        ih (by omega) alignedKernel (by omega), if_neg different]
      rcases eq_or_ne j (256 + n) with rfl | other'
      · by_cases same : other = pgd
        · simp [same]
        · simp [same]
      · have lower : j < 256 + (n + 1) ↔ j < 256 + n := by omega
        simp only [other', and_false, if_false, lower]
  rw [PageMemory.newPgd, rounds 256 (le_refl _) aligned' small]
  simp only [small, and_true]

/-! ## The static tables -/

def allTables (build : Build) (tables : KernelTables) : List Word :=
  [tables.kernelPgd, tables.mmioPmd, tables.uartPte, tables.plicPteLow, tables.plicPteHigh] ++
    (List.range build.linearMapGib).map tables.kernelPmdAt

/-- The static tables are different pages. -/
structure LaidOut (build : Build) (tables : KernelTables) : Prop where
  page : ∀ table ∈ allTables build tables, Page table
  nodup : (allTables build tables).Nodup

theorem LaidOut.aligned {build : Build} {tables : KernelTables} (laid : LaidOut build tables) :
    ∀ table ∈ allTables build tables, Aligned table :=
  fun table member => (laid.page table member).1

/-- The gigabyte of the linear map that an index of the top-level table stands for. -/
def gibOf (build : Build) (i : ℕ) : Option ℕ :=
  (List.range build.linearMapGib).find? fun n => build.kernelIdx n = i

/-- The kernel half of `kernel_pgd`. -/
def topEntry (build : Build) (tables : KernelTables) (i : ℕ) : Word :=
  if i = build.mmioIdx then makePte (virtToPhys tables.mmioPmd) pteV
  else match gibOf build i with
    | some n => makePte (virtToPhys (tables.kernelPmdAt n)) pteV
    | none => 0#64

/-- The words of the static tables. -/
structure Ready (build : Build) (tables : KernelTables) (s : PageMemory) : Prop where
  top : ∀ i, 256 ≤ i → i < 512 → s.entry tables.kernelPgd i = topEntry build tables i
  mmio : ∀ i < 512,
    Links (s.entry tables.mmioPmd i) [tables.uartPte, tables.plicPteLow, tables.plicPteHigh]
  device : ∀ table ∈ [tables.uartPte, tables.plicPteLow, tables.plicPteHigh], ∀ i < 512,
    Maps [protKernelRw] (s.entry table i)
  linear : ∀ n < build.linearMapGib, ∀ i < 512, ∃ pa, s.entry (tables.kernelPmdAt n) i =
    makePte pa protKernel

/-- What start.S leaves of tables that were zero. -/
def Started (build : Build) (tables : KernelTables) (s : PageMemory) : Prop :=
  ∃ start : PageMemory, (∀ table ∈ allTables build tables, ∀ i < 512, start.entry table i = 0#64) ∧
    Same ((start.setupVm build tables).dropIdentityMap build tables) s (allTables build tables)

theorem board_indices : Build.board.mmioIdx = 259 ∧ vpn1 Build.board.plicBase = 256 ∧
    vpn1 (Build.board.plicBase + pmdSize) = 257 ∧ vpn1 Build.board.uartBase = 160 ∧
    vpn0 Build.board.uartBase = 23 ∧
    Build.board.identityIdx 0 = 0 ∧ Build.board.identityIdx 1 = 1 ∧ Build.board.kernelIdx 0 = 256 ∧
    Build.board.kernelIdx 1 = 257 := by decide

theorem debug_indices : Build.debug.mmioIdx = 256 ∧ vpn1 Build.debug.plicBase = 96 ∧
    vpn1 (Build.debug.plicBase + pmdSize) = 97 ∧ vpn1 Build.debug.uartBase = 128 ∧
    vpn0 Build.debug.uartBase = 0 ∧
    vpn0 fwCfgBase = 256 ∧ Build.debug.identityIdx 0 = 2 ∧
    Build.debug.kernelIdx 0 = 258 := by decide

theorem gibOf_board (i : ℕ) : gibOf .board i = if i = 256 then some 0 else if i = 257 then some 1
    else none := by
  obtain ⟨-, -, -, -, -, -, -, kernel0, kernel1⟩ := board_indices
  rw [gibOf, show List.range Build.board.linearMapGib = [0, 1] from rfl, List.find?_cons,
    List.find?_cons, kernel0, kernel1]
  grind

theorem gibOf_debug (i : ℕ) : gibOf .debug i = if i = 258 then some 0 else none := by
  obtain ⟨-, -, -, -, -, -, -, kernel0⟩ := debug_indices
  rw [gibOf, show List.range Build.debug.linearMapGib = [0] from rfl, List.find?_cons, kernel0]
  grind

/-- The entries of the static tables after both functions. -/
theorem board_entries {s : PageMemory} {tables : KernelTables} (laid : LaidOut .board tables)
    (zero : ∀ table ∈ allTables .board tables, ∀ i < 512, s.entry table i = 0#64)
    {i : ℕ} (small : i < 512) :
    let t := (s.setupVm .board tables).dropIdentityMap .board tables
    (256 ≤ i → t.entry tables.kernelPgd i = topEntry .board tables i) ∧
      t.entry tables.mmioPmd i = (if i = 160 then makePte (virtToPhys tables.uartPte) pteV
        else if i = 257 then makePte (virtToPhys tables.plicPteHigh) pteV
        else if i = 256 then makePte (virtToPhys tables.plicPteLow) pteV else 0#64) ∧
      t.entry tables.uartPte i =
        (if i = 23 then makePte (virtToPhys Build.board.uartBase) protKernelRw else 0#64) ∧
      t.entry tables.plicPteLow i =
        makePte (virtToPhys Build.board.plicBase + BitVec.ofNat 64 i * pageSize) protKernelRw ∧
      t.entry tables.plicPteHigh i =
        makePte (virtToPhys (Build.board.plicBase + pmdSize) +
          BitVec.ofNat 64 i * pageSize) protKernelRw ∧
      t.entry (tables.kernelPmdAt 0) i =
        makePte (Build.board.gibStart 0 + BitVec.ofNat 64 i * pmdSize) protKernel ∧
      t.entry (tables.kernelPmdAt 1) i =
        makePte (Build.board.gibStart 1 + BitVec.ofNat 64 i * pmdSize) protKernel := by
  obtain ⟨page, nodup⟩ := laid
  obtain ⟨mmio, low, high, uart, uartSlot, identity0, identity1, kernel0, kernel1⟩ := board_indices
  have gib : Build.board.linearMapGib = 2 := rfl
  simp only [allTables, gib, List.range_succ, List.range_zero, List.nil_append, List.cons_append,
    List.map_cons, List.map_nil, List.forall_mem_cons] at page zero
  obtain ⟨⟨a1, -⟩, ⟨a2, -⟩, ⟨a3, -⟩, ⟨a4, -⟩, ⟨a5, -⟩, ⟨a6, -⟩, ⟨a7, -⟩, -⟩ := page
  have reversed : [tables.kernelPmdAt 1, tables.kernelPmdAt 0, tables.plicPteHigh,
      tables.plicPteLow, tables.uartPte, tables.mmioPmd, tables.kernelPgd].Nodup :=
    List.nodup_reverse.mpr nodup
  simp [allTables, gib, List.range_succ] at nodup
  simp at reversed
  simp only [PageMemory.dropIdentityMap, PageMemory.setupVm, PageMemory.mapGib, gib,
    List.range_succ, List.range_zero, List.nil_append, List.cons_append, List.foldl_cons,
    List.foldl_nil, mmio, low, high, uart, uartSlot, identity0, identity1, kernel0, kernel1]
  simp [entry_setEntry, entry_fill, a1, a2, a3, a4, a5, a6, a7, nodup, reversed, small, zero]
  intro above
  rw [topEntry, gibOf_board, mmio]
  grind

theorem debug_entries {s : PageMemory} {tables : KernelTables} (laid : LaidOut .debug tables)
    (zero : ∀ table ∈ allTables .debug tables, ∀ i < 512, s.entry table i = 0#64)
    {i : ℕ} (small : i < 512) :
    let t := (s.setupVm .debug tables).dropIdentityMap .debug tables
    (256 ≤ i → t.entry tables.kernelPgd i = topEntry .debug tables i) ∧
      t.entry tables.mmioPmd i = (if i = 128 then makePte (virtToPhys tables.uartPte) pteV
        else if i = 97 then makePte (virtToPhys tables.plicPteHigh) pteV
        else if i = 96 then makePte (virtToPhys tables.plicPteLow) pteV else 0#64) ∧
      t.entry tables.uartPte i = (if i = 256 then makePte (virtToPhys fwCfgBase) protKernelRw
        else if i = 0 then makePte (virtToPhys Build.debug.uartBase) protKernelRw else 0#64) ∧
      t.entry tables.plicPteLow i =
        makePte (virtToPhys Build.debug.plicBase + BitVec.ofNat 64 i * pageSize) protKernelRw ∧
      t.entry tables.plicPteHigh i =
        makePte (virtToPhys (Build.debug.plicBase + pmdSize) +
          BitVec.ofNat 64 i * pageSize) protKernelRw ∧
      t.entry (tables.kernelPmdAt 0) i =
        makePte (Build.debug.gibStart 0 + BitVec.ofNat 64 i * pmdSize) protKernel := by
  obtain ⟨page, nodup⟩ := laid
  obtain ⟨mmio, low, high, uart, uartSlot, fwCfgSlot, identity0, kernel0⟩ := debug_indices
  have gib : Build.debug.linearMapGib = 1 := rfl
  simp only [allTables, gib, List.range_succ, List.range_zero, List.nil_append, List.cons_append,
    List.map_cons, List.map_nil, List.forall_mem_cons] at page zero
  obtain ⟨⟨a1, -⟩, ⟨a2, -⟩, ⟨a3, -⟩, ⟨a4, -⟩, ⟨a5, -⟩, ⟨a6, -⟩, -⟩ := page
  have reversed : [tables.kernelPmdAt 0, tables.plicPteHigh, tables.plicPteLow, tables.uartPte,
      tables.mmioPmd, tables.kernelPgd].Nodup := List.nodup_reverse.mpr nodup
  simp [allTables, gib, List.range_succ] at nodup
  simp at reversed
  simp only [PageMemory.dropIdentityMap, PageMemory.setupVm, PageMemory.mapGib, gib,
    List.range_succ, List.range_zero, List.nil_append, List.foldl_cons, List.foldl_nil, mmio, low,
    high, uart, uartSlot, fwCfgSlot, identity0, kernel0]
  simp [entry_setEntry, entry_fill, a1, a2, a3, a4, a5, a6, nodup, reversed, small, zero]
  intro above
  rw [topEntry, gibOf_debug, mmio]
  grind

/-! ## The tables are ready -/

/-- A page of the devices that an entry of the lower tables maps. -/
theorem maps_device {base : Word} (aligned : Aligned base) (below : base.toNat < 2 ^ 38)
    {i : ℕ} (small : i < 512) :
    Maps [protKernelRw] (makePte (base + BitVec.ofNat 64 i * pageSize) protKernelRw) := by
  have value : (base + BitVec.ofNat 64 i * pageSize).toNat = base.toNat + i * 4096 := by
    rw [BitVec.toNat_add, BitVec.toNat_mul, BitVec.toNat_ofNat, show pageSize.toNat = 4096 from rfl]
    omega
  refine .inr ⟨_, _, ?_, ?_, List.mem_cons_self, rfl⟩
  · rw [Aligned] at aligned ⊢
    omega
  · omega

theorem maps_register {base : Word} (aligned : Aligned base) (below : base.toNat < 2 ^ 38) :
    Maps [protKernelRw] (makePte base protKernelRw) := by
  have first := maps_device aligned below (show 0 < 512 by decide)
  rwa [show BitVec.ofNat 64 0 * pageSize = 0#64 from rfl, BitVec.add_zero] at first

theorem links_pointer {tables : List Word} {table : Word} (member : table ∈ tables) :
    Links (makePte (virtToPhys table) pteV) tables := .inr ⟨table, member, rfl⟩

private theorem board_ready {s : PageMemory} {tables : KernelTables} (laid : LaidOut .board tables)
    (zero : ∀ table ∈ allTables .board tables, ∀ i < 512, s.entry table i = 0#64) :
    Ready .board tables ((s.setupVm .board tables).dropIdentityMap .board tables) where
  top i low small := (board_entries laid zero small).1 low
  mmio i small := by
    rw [(board_entries laid zero small).2.1]
    split_ifs
    · exact links_pointer (by simp)
    · exact links_pointer (by simp)
    · exact links_pointer (by simp)
    · exact links_zero _
  device table member i small := by
    obtain ⟨-, -, uart, low, high, -⟩ := board_entries laid zero small
    simp only [List.mem_cons, List.not_mem_nil, or_false] at member
    rcases member with rfl | rfl | rfl
    · rw [uart]
      split_ifs
      · exact maps_register (by decide) (by decide)
      · exact maps_zero _
    · rw [low]
      exact maps_device (by decide) (by decide) small
    · rw [high]
      exact maps_device (by decide) (by decide) small
  linear n inside i small := by
    obtain ⟨-, -, -, -, -, first, second⟩ := board_entries laid zero small
    have cases : n = 0 ∨ n = 1 := by
      have gib : Build.board.linearMapGib = 2 := rfl
      omega
    rcases cases with rfl | rfl
    · exact ⟨_, first⟩
    · exact ⟨_, second⟩

private theorem debug_ready {s : PageMemory} {tables : KernelTables} (laid : LaidOut .debug tables)
    (zero : ∀ table ∈ allTables .debug tables, ∀ i < 512, s.entry table i = 0#64) :
    Ready .debug tables ((s.setupVm .debug tables).dropIdentityMap .debug tables) where
  top i low small := (debug_entries laid zero small).1 low
  mmio i small := by
    rw [(debug_entries laid zero small).2.1]
    split_ifs
    · exact links_pointer (by simp)
    · exact links_pointer (by simp)
    · exact links_pointer (by simp)
    · exact links_zero _
  device table member i small := by
    obtain ⟨-, -, uart, low, high, -⟩ := debug_entries laid zero small
    simp only [List.mem_cons, List.not_mem_nil, or_false] at member
    rcases member with rfl | rfl | rfl
    · rw [uart]
      split_ifs
      · exact maps_register (by decide) (by decide)
      · exact maps_register (by decide) (by decide)
      · exact maps_zero _
    · rw [low]
      exact maps_device (by decide) (by decide) small
    · rw [high]
      exact maps_device (by decide) (by decide) small
  linear n inside i small := by
    obtain ⟨-, -, -, -, -, first⟩ := debug_entries laid zero small
    obtain rfl : n = 0 := by
      have gib : Build.debug.linearMapGib = 1 := rfl
      omega
    exact ⟨_, first⟩

/-- The tables stay ready while their words stay. -/
theorem Ready.congr {build : Build} {tables : KernelTables} {s t : PageMemory}
    (ready : Ready build tables s) (same : Same s t (allTables build tables)) :
    Ready build tables t where
  top i low small := by
    rw [same _ (by simp [allTables]) i small]
    exact ready.top i low small
  mmio i small := by
    rw [same _ (by simp [allTables]) i small]
    exact ready.mmio i small
  device table member i small := by
    rw [same table (by simp only [allTables]; grind) i small]
    exact ready.device table member i small
  linear n inside i small := by
    rw [same _ (List.mem_append_right _ (List.mem_map_of_mem (List.mem_range.mpr inside))) i small]
    exact ready.linear n inside i small

theorem Started.ready {build : Build} {tables : KernelTables} {s : PageMemory}
    (laid : LaidOut build tables) (started : Started build tables s) : Ready build tables s := by
  obtain ⟨start, zero, same⟩ := started
  cases build with
  | board => exact (board_ready laid zero).congr same
  | debug => exact (debug_ready laid zero).congr same

end OscKernel.Soundness.KernelTables
