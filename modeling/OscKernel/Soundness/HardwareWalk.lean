import OscKernel.Lib.Sv39
import OscKernel.Soundness.KernelTables

/-! # The walk of the software and the walk of the hardware

`iterate_page_table` follows the three levels of every address as if each upper entry were a pointer
and as if the bits above the 39 that it uses did not count. In the user half and for the devices it
ends at the entry of the Sv39 walk; below a leaf of the linear map it goes on into the page.
-/

namespace OscKernel.Soundness.HardwareWalk

open OscKernel.Lib OscKernel.Model PageTables PageWalks ProcessTables KernelTables

/-! ## Tables that the kernel builds -/

/-- The table of a process at an address, with the pages that it is known to consist of. In between,
everything but its pages and the static tables may change, and `exec` clears its user half. -/
inductive Built (build : Build) (static : KernelTables) : PageMemory → Word → List Word → Prop
  | create {s : PageMemory} {pgd : Word} (started : Started build static s) (page : Page pgd)
      (new : pgd ∉ allTables build static) :
      Built build static (s.newPgd static.kernelPgd pgd) pgd [pgd]
  | walk {s t : PageMemory} {pgd va pa prot : Word} {tables : List Word}
      (built : Built build static s pgd tables)
      (active : s.activeUserPgd = pgd) (user : va < pageOffset)
      (lower : vpn2 va < 256) (aligned : Aligned pa)
      (physical : pa.toNat < 2 ^ 56) (flags : prot ||| pteV ∈ userFlags)
      (result : s.pagewalk va pa prot = some t)
      (supplied : Supplied s t (allTables build static ++ tables)) :
      Built build static t pgd (tables ++ taken s.allocate s.calls t.calls)
  | forkParent {s t : SharedMemory} {src dst : Word} {tables : List Word}
      (parent : Built build static s.toPageMemory src tables)
      (child : Built build static s.toPageMemory dst [dst])
      (new : dst ∉ tables) (result : s.forkCopyPageTableCow dst src = some t)
      (supplied : Supplied s.toPageMemory t.toPageMemory
        (allTables build static ++ tables ++ [dst])) :
      Built build static t.toPageMemory src tables
  | forkChild {s t : SharedMemory} {src dst : Word} {tables : List Word}
      (parent : Built build static s.toPageMemory src tables)
      (child : Built build static s.toPageMemory dst [dst])
      (new : dst ∉ tables) (result : s.forkCopyPageTableCow dst src = some t)
      (supplied : Supplied s.toPageMemory t.toPageMemory
        (allTables build static ++ tables ++ [dst])) :
      Built build static t.toPageMemory dst (dst :: taken s.allocate s.calls t.calls)
  | clear {s t : PageMemory} {pgd : Word} {tables : List Word}
      (built : Built build static s pgd tables)
      (cleared : ∀ i < 256, present (t.entry pgd i) = false)
      (kernel : ∀ i, 256 ≤ i → i < 512 → t.entry pgd i = s.entry pgd i)
      (same : Same s t (allTables build static)) : Built build static t pgd [pgd]
  | other {s t : PageMemory} {pgd : Word} {tables : List Word}
      (built : Built build static s pgd tables)
      (same : Same s t (allTables build static ++ tables)) : Built build static t pgd tables

/-- The table is a tree over the kernel half that is ready. -/
structure Process (build : Build) (static : KernelTables) (s : PageMemory)
    (pgd : Word) (tables : List Word) :
    Prop where
  tree : ∃ pmds ptes, Tree (topEntry build static) s pgd pmds ptes ∧ pgd :: (pmds ++ ptes) ⊆ tables
  ready : Ready build static s
  apart : List.Disjoint (allTables build static) tables

section Process

variable {build : Build} {static : KernelTables} {s t : PageMemory}
  {pgd : Word} {tables : List Word}

/-- A top-level table whose user half is empty. -/
theorem tree_empty {high : ℕ → Word} (page : Page pgd)
    (cleared : ∀ i < 256, present (s.entry pgd i) = false)
    (kernel : ∀ i, 256 ≤ i → i < 512 → s.entry pgd i = high i) : Tree high s pgd [] [] where
  page table member := by
    obtain rfl := List.mem_singleton.mp member
    exact page
  top_pmd := List.not_mem_nil
  top_pte := List.not_mem_nil
  apart _ member := absurd member List.not_mem_nil
  upper i small := .inl (cleared i small)
  middle _ member := absurd member List.not_mem_nil
  lower _ member := absurd member List.not_mem_nil
  kernel := kernel

/-- A table that consists of its top-level page has an empty user half. -/
theorem Process.tree_single (process : Process build static s pgd [pgd]) :
    Tree (topEntry build static) s pgd [] [] := by
  obtain ⟨pmds, ptes, tree, known⟩ := process.tree
  have none : ∀ {table : Word}, table ∈ pmds ++ ptes → False := by
    intro table member
    obtain rfl := List.mem_singleton.mp (known (List.mem_cons_of_mem _ member))
    rcases List.mem_append.mp member with there | there
    · exact tree.top_pmd there
    · exact tree.top_pte there
  obtain ⟨rfl, rfl⟩ :=
    List.append_eq_nil_iff.mp (List.eq_nil_iff_forall_not_mem.mpr fun _ member => none member)
  exact tree

theorem Process.create (laid : LaidOut build static) (started : Started build static s)
    (page : Page pgd) (new : pgd ∉ allTables build static) :
    Process build static (s.newPgd static.kernelPgd pgd) pgd [pgd] := by
  have ready := started.ready laid
  have here : static.kernelPgd ∈ allTables build static := List.mem_cons_self
  have different : static.kernelPgd ≠ pgd := by
    rintro rfl
    exact new here
  have read : ∀ {other : Word} {j : ℕ}, Aligned other → j < 512 →
      (s.newPgd static.kernelPgd pgd).entry other j =
      if other = pgd then if 256 ≤ j then s.entry static.kernelPgd j else 0#64
      else s.entry other j :=
    fun aligned small => entry_newPgd s (laid.page _ here).1 page.1 aligned different small
  refine ⟨⟨[], [], tree_empty page (fun i small => ?_) (fun i low small => ?_), List.Subset.refl _⟩,
    ready.congr fun table member i small => ?_, List.disjoint_singleton.mpr new⟩
  · rw [read page.1 (by omega), if_pos rfl, if_neg (by omega)]
    exact not_present_zero
  · rw [read page.1 small, if_pos rfl, if_pos low]
    exact ready.top i low small
  · rw [read (laid.page table member).1 small, if_neg]
    rintro rfl
    exact new member

theorem Process.walk (laid : LaidOut build static) (process : Process build static s pgd tables)
    {va pa prot : Word} (active : s.activeUserPgd = pgd) (user : va < pageOffset)
    (lower : vpn2 va < 256) (aligned : Aligned pa) (physical : pa.toNat < 2 ^ 56)
    (flags : prot ||| pteV ∈ userFlags) (result : s.pagewalk va pa prot = some t)
    (supplied : Supplied s t (allTables build static ++ tables)) :
    Process build static t pgd (tables ++ taken s.allocate s.calls t.calls) := by
  obtain ⟨pmds, ptes, tree, known⟩ := process.tree
  obtain ⟨grown, same⟩ :=
    tree.pagewalk active user lower aligned physical flags result supplied known laid.aligned
    process.apart
  refine ⟨grown, process.ready.congr same, fun table member there => ?_⟩
  rcases List.mem_append.mp there with old | new
  · exact process.apart member old
  · exact supplied.not_taken (List.mem_append_left _ member) new

/-- A fork keeps the table of the parent and completes that of the child. -/
theorem Process.fork (laid : LaidOut build static) {s t : SharedMemory} {src dst : Word}
    (parent : Process build static s.toPageMemory src tables)
    (child : Process build static s.toPageMemory dst [dst]) (new : dst ∉ tables)
    (result : s.forkCopyPageTableCow dst src = some t) (supplied : Supplied s.toPageMemory
      t.toPageMemory (allTables build static ++ tables ++ [dst])) :
    Process build static t.toPageMemory src tables ∧
      Process build static t.toPageMemory dst (dst :: taken s.allocate s.calls t.calls) := by
  obtain ⟨pmds, ptes, tree, known⟩ := parent.tree
  have subset : allTables build static ++ src :: (pmds ++ ptes) ⊆
      allTables build static ++ tables :=
    List.append_subset.mpr ⟨List.subset_append_left _ _, List.subset_append_of_subset_right _ known⟩
  have supplied' : Supplied s.toPageMemory t.toPageMemory
      (allTables build static ++ src :: (pmds ++ ptes) ++ [dst]) :=
    supplied.mono (List.append_subset.mpr
      ⟨List.subset_append_of_subset_left _ subset, List.subset_append_right _ _⟩)
  obtain ⟨source, target, same⟩ :=
    forkCopyPageTableCow_trees tree child.tree_single result supplied' laid.aligned
    (fun table member there => parent.apart member (known there)) (by
      intro member
      rcases List.mem_append.mp (subset member) with kernel | own
      · exact child.apart kernel List.mem_cons_self
      · exact new own)
  refine ⟨⟨⟨pmds, ptes, source, known⟩, parent.ready.congr same, parent.apart⟩,
    ⟨target, parent.ready.congr same, fun table member there => ?_⟩⟩
  rcases List.mem_cons.mp there with rfl | there
  · exact child.apart member List.mem_cons_self
  · exact supplied.not_taken (List.mem_append_left _ (List.mem_append_left _ member)) there

theorem Process.clear (process : Process build static s pgd tables)
    (cleared : ∀ i < 256, present (t.entry pgd i) = false)
    (kernel : ∀ i, 256 ≤ i → i < 512 → t.entry pgd i = s.entry pgd i)
    (same : Same s t (allTables build static)) :
    Process build static t pgd [pgd] := by
  obtain ⟨pmds, ptes, tree, known⟩ := process.tree
  have page := tree.page pgd List.mem_cons_self
  have empty : Tree (topEntry build static) t pgd [] [] :=
    tree_empty page cleared fun i low small => by
    rw [kernel i low small]
    exact tree.kernel i low small
  refine ⟨⟨[], [], empty, List.Subset.refl _⟩, process.ready.congr same,
    List.disjoint_singleton.mpr fun member => ?_⟩
  exact process.apart member (known List.mem_cons_self)

theorem Process.other (process : Process build static s pgd tables)
    (same : Same s t (allTables build static ++ tables)) :
    Process build static t pgd tables := by
  obtain ⟨pmds, ptes, tree, known⟩ := process.tree
  exact ⟨⟨pmds, ptes, tree.congr (same.mono (List.subset_append_of_subset_right _ known)), known⟩,
    process.ready.congr (same.mono (List.subset_append_left _ _)), process.apart⟩

/-- Every table that the kernel builds is a tree. -/
theorem Built.process (laid : LaidOut build static) (built : Built build static s pgd tables) :
    Process build static s pgd tables := by
  induction built with
  | create started page new => exact Process.create laid started page new
  | walk built active user lower aligned physical flags result supplied ih =>
    exact ih.walk laid active user lower aligned physical flags result supplied
  | forkParent parent child new result supplied ihParent ihChild =>
    exact (ihParent.fork laid ihChild new result supplied).1
  | forkChild parent child new result supplied ihParent ihChild =>
    exact (ihParent.fork laid ihChild new result supplied).2
  | clear built cleared kernel same ih => exact ih.clear cleared kernel same
  | other built same ih => exact ih.other same

end Process

/-! ## Entries as the hardware reads them -/

/-- Memory by physical address. -/
def physical (s : PageMemory) (pa : Word) : Word := s.word (physToVirt pa)

theorem index_eq (va : Word) : Sv39.index va 2 = vpn2 va ∧ Sv39.index va 1 = vpn1 va ∧
    Sv39.index va 0 = vpn0 va := by
  obtain ⟨first, second, third⟩ := vpn_eq va
  exact ⟨first.symm, second.symm, third.symm⟩

theorem entryAddress_physical (table : Word) (i : ℕ) :
    physToVirt (Sv39.entryAddress (virtToPhys table) i) = entryAddress table i := by
  rw [physToVirt, Sv39.entryAddress, virtToPhys, entryAddress, BitVec.add_assoc,
    BitVec.add_comm _ pageOffset, ← BitVec.add_assoc, BitVec.sub_add_cancel]

theorem entryIn_physical (s : PageMemory) (va table : Word) (level : ℕ) :
    Sv39.entryIn (physical s) va level (virtToPhys table) =
      s.entry table (Sv39.index va level) := by
  rw [Sv39.entryIn, physical, entryAddress_physical]
  rfl

theorem valid_eq (pte : Word) : Sv39.valid pte = present pte := (present_eq pte).symm

private theorem high_makePte {pa flag : Word} (below : pa.toNat < 2 ^ 56)
    (small : flag.toNat < 2 ^ 10) :
    makePte pa flag >>> 54 = 0#64 := by
  have number : ((pa >>> 12) <<< 10).toNat < 2 ^ 54 := by
    rw [BitVec.toNat_shiftLeft, BitVec.toNat_ushiftRight,
      Nat.shiftRight_eq_div_pow, Nat.shiftLeft_eq]
    omega
  have whole : (makePte pa flag).toNat < 2 ^ 54 := by
    rw [makePte, BitVec.toNat_or]
    exact Nat.or_lt_two_pow number (lt_of_lt_of_le small (by decide))
  apply BitVec.eq_of_toNat_eq
  rw [BitVec.toNat_ushiftRight, Nat.shiftRight_eq_div_pow, Nat.div_eq_of_lt whole]
  rfl

/-- What the flags of an entry say about it. -/
theorem usable_makePte {pa flag : Word} (below : pa.toNat < 2 ^ 56) (small : flag.toNat < 2 ^ 10) :
    Sv39.leaf (makePte pa flag) = Sv39.leaf flag ∧
    Sv39.usable (makePte pa flag) = Sv39.usable flag := by
  have bits : ∀ i < 10, (makePte pa flag).getLsbD i = flag.getLsbD i :=
    fun i low => getLsbD_makePte low
  have flagHigh : flag >>> 54 = 0#64 := by
    apply BitVec.eq_of_toNat_eq
    rw [BitVec.toNat_ushiftRight, Nat.shiftRight_eq_div_pow,
      Nat.div_eq_of_lt (lt_of_lt_of_le small (by decide))]
    rfl
  have leaf : Sv39.leaf (makePte pa flag) = Sv39.leaf flag := by
    simp only [Sv39.leaf, Sv39.readable, Sv39.executable, bits 1 (by decide), bits 3 (by decide)]
  refine ⟨leaf, ?_⟩
  simp only [Sv39.usable, Sv39.reserved, leaf, Sv39.valid, Sv39.writable, Sv39.readable,
    high_makePte below small, flagHigh, bits 0 (by decide), bits 1 (by decide), bits 2 (by decide),
    bits 4 (by decide), bits 6 (by decide), bits 7 (by decide)]

private theorem virtToPhys_lt {table : Word} (page : Page table) :
    (virtToPhys table).toNat < 2 ^ 56 := by
  have offset : pageOffset.toNat = 0xffffffc000000000 := rfl
  have le : pageOffset.toNat ≤ table.toNat := page.2
  have bound := table.isLt
  rw [virtToPhys, BitVec.toNat_sub_of_le page.2]
  omega

/-- The hardware reads an upper entry as a pointer to the table that it was made for. -/
theorem pointer_makePte {table : Word} (page : Page table) :
    Sv39.leaf (makePte (virtToPhys table) pteV) = false ∧
    Sv39.usable (makePte (virtToPhys table) pteV) = true ∧
      Sv39.pageAddress (makePte (virtToPhys table) pteV) = virtToPhys table := by
  obtain ⟨leaf, usable⟩ := usable_makePte (virtToPhys_lt page) (show pteV.toNat < 2 ^ 10 by decide)
  have ok : Sv39.usable (makePte (virtToPhys table) pteV) = true := usable.trans (by decide)
  refine ⟨leaf.trans (by decide), ok, ?_⟩
  rw [Sv39.pageAddress_of_usable ok]
  exact ptePa_makePte (aligned_virtToPhys page.1) (by decide)

/-- The flags of the entries of lower tables. -/
def lowerFlags : List Word := protKernelRw :: userFlags

private theorem lowerFlags_usable {flag : Word} (member : flag ∈ lowerFlags)
    (leaf : Sv39.leaf flag = true) :
    Sv39.usable flag = true ∧ flag.toNat < 2 ^ 10 := by
  have all : List.Forall (fun flag : Word => Sv39.leaf flag = true →
      Sv39.usable flag = true ∧ flag.toNat < 2 ^ 10)
      lowerFlags := by decide
  exact List.forall_iff_forall_mem.mp all flag member leaf

private theorem lowerFlags_small {flag : Word} (member : flag ∈ lowerFlags) :
    flag.toNat < 2 ^ 10 := by
  have all : List.Forall (fun flag : Word => flag.toNat < 2 ^ 10) lowerFlags := by decide
  exact List.forall_iff_forall_mem.mp all flag member

/-- An entry of a lower table that is a leaf is one that the hardware uses. -/
theorem Maps.usable {pte : Word} (maps : Maps lowerFlags pte) (there : present pte = true)
    (leaf : Sv39.leaf pte = true) : Sv39.usable pte = true := by
  rcases maps with absent | ⟨pa, flag, -, below, member, rfl⟩
  · rw [there] at absent
    cases absent
  · obtain ⟨sameLeaf, sameUsable⟩ := usable_makePte below (lowerFlags_small member)
    exact sameUsable.trans (lowerFlags_usable member (sameLeaf.symm.trans leaf)).1

/-! ## Agreement -/

/-- What `iterate_page_table` is to report of a leaf: its page, its flags without the mark, and the
mark. -/
def report (leaf : Sv39.Leaf) : PteFunc → Word
  | .checkCow => if copyOnWrite leaf.pte then 1#64 else 0#64
  | .getPa => leaf.page
  | .getProt => (leaf.pte &&& 0x3ff#64) &&& ~~~pteCow

/-- A mapping is reported only where the hardware finds a leaf, and as that leaf has it; and every
word read as an entry of a level is the entry of the address in the table of that level. -/
structure Agrees (s : PageMemory) (pgd va : Word) : Prop where
  reports : ∀ func, s.iteratePageTable pgd va func ≠ 0#64 →
    ∃ leaf, Sv39.walk (physical s) va (virtToPhys pgd) = some leaf ∧
      s.iteratePageTable pgd va func = report leaf func
  reads : ∀ level address, (level, address) ∈ s.iterateReads pgd va →
    ∃ table, Sv39.IsTable (physical s) va (virtToPhys pgd) level table ∧
      address = physToVirt (Sv39.entryAddress table (Sv39.index va level))

/-- The address lies in a gigabyte of the linear map, or would if its upper bits were right. -/
def Linear (build : Build) (va : Word) : Prop := (gibOf build (vpn2 va)).isSome = true

instance (build : Build) (va : Word) : Decidable (Linear build va) :=
  inferInstanceAs (Decidable (_ = _))

/-- A page that is mapped at the lower bits of the address is mapped with some access right, and the
upper bits of the address are right. -/
def Regular (s : PageMemory) (pgd va : Word) : Prop :=
  ∀ table, Sv39.IsTable (physical s) va (virtToPhys pgd) 0 table →
    Sv39.valid (Sv39.entryIn (physical s) va 0 table) = true →
    Sv39.Canonical va ∧ Sv39.leaf (Sv39.entryIn (physical s) va 0 table) = true

/-- The ways that the entries of an address can go. -/
inductive Path (build : Build) (s : PageMemory) (pgd va : Word) : Prop
  | noMiddle (notLinear : ¬ Linear build va) (absent : present (s.entry pgd (vpn2 va)) = false)
  | noLower {pmd : Word} (notLinear : ¬ Linear build va) (pagePmd : Page pmd)
      (upper : s.entry pgd (vpn2 va) = makePte (virtToPhys pmd) pteV)
      (absent : present (s.entry pmd (vpn1 va)) = false)
  | lower {pmd pte : Word} (notLinear : ¬ Linear build va) (pagePmd : Page pmd) (pagePte : Page pte)
      (upper : s.entry pgd (vpn2 va) = makePte (virtToPhys pmd) pteV)
      (middle : s.entry pmd (vpn1 va) = makePte (virtToPhys pte) pteV)
      (maps : Maps lowerFlags (s.entry pte (vpn0 va)))
  | linear {pmd pa : Word} (linear : Linear build va) (pagePmd : Page pmd)
      (upper : s.entry pgd (vpn2 va) = makePte (virtToPhys pmd) pteV)
      (middle : s.entry pmd (vpn1 va) = makePte pa protKernel)

section Agreement

variable {build : Build} {static : KernelTables} {s : PageMemory}
  {pgd va : Word} {tables : List Word}

/-- An entry of a table that is no leaf of the linear map. -/
theorem path_below {pmd : Word} {ptes : List Word} (notLinear : ¬ Linear build va)
    (pagePmd : Page pmd) (upper : s.entry pgd (vpn2 va) = makePte (virtToPhys pmd) pteV)
    (links : Links (s.entry pmd (vpn1 va)) ptes) (pages : ∀ pte ∈ ptes, Page pte)
    (maps : ∀ pte ∈ ptes, Maps lowerFlags (s.entry pte (vpn0 va))) : Path build s pgd va := by
  rcases links with absent | ⟨pte, member, middle⟩
  · exact .noLower notLinear pagePmd upper absent
  · exact .lower notLinear pagePmd (pages pte member) upper middle (maps pte member)

private theorem gibOf_low {i : ℕ} (low : i < 256) : gibOf build i = none := by
  cases build with
  | board => rw [gibOf_board, if_neg (by omega), if_neg (by omega)]
  | debug => rw [gibOf_debug, if_neg (by omega)]

private theorem gibOf_mmio : gibOf build build.mmioIdx = none := by
  cases build with
  | board => rw [gibOf_board, board_indices.1, if_neg (by decide), if_neg (by decide)]
  | debug => rw [gibOf_debug, debug_indices.1, if_neg (by decide)]

private theorem gibOf_lt {i n : ℕ} (found : gibOf build i = some n) : n < build.linearMapGib :=
  List.mem_range.mp (List.mem_of_find?_eq_some found)

theorem Process.path (laid : LaidOut build static)
    (process : Process build static s pgd tables) (va : Word) :
    Path build s pgd va := by
  obtain ⟨pmds, ptes, tree, -⟩ := process.tree
  obtain ⟨small2, small1, small0⟩ := vpn_lt va
  rcases Nat.lt_or_ge (vpn2 va) 256 with low | high
  · have notLinear : ¬ Linear build va := by
      rw [Linear, gibOf_low low]
      decide
    rcases tree.upper _ low with absent | ⟨pmd, member, upper⟩
    · exact .noMiddle notLinear absent
    · exact path_below notLinear (tree.mem_pmd member) upper (tree.middle pmd member _ small1)
        (fun _ there => tree.mem_pte there)
        fun pte there => (tree.lower pte there _ small0).mono (List.subset_cons_self _ _)
  · have top := tree.kernel _ high small2
    rw [topEntry] at top
    split_ifs at top with mmio
    · have notLinear : ¬ Linear build va := by
        rw [Linear, mmio, gibOf_mmio]
        decide
      refine path_below notLinear (laid.page _ (by simp [allTables]))
        top (process.ready.mmio _ small1)
        (fun pte member => laid.page pte (by simp only [allTables]; grind)) fun pte member => ?_
      exact (process.ready.device pte member _ small0).mono
        (List.cons_subset_cons _ (List.nil_subset _))
    · cases found : gibOf build (vpn2 va) with
      | none =>
        rw [found] at top
        refine .noMiddle (by rw [Linear, found]; decide) ?_
        rw [top]
        exact not_present_zero
      | some n =>
        rw [found] at top
        have inside := gibOf_lt found
        obtain ⟨pa, middle⟩ := process.ready.linear n inside _ small1
        refine .linear (by rw [Linear, found]; rfl) (laid.page _ ?_) top middle
        exact List.mem_append_right _ (List.mem_map_of_mem (List.mem_range.mpr inside))

/-! ### The tables of an address -/

theorem isTable_pmd {pmd : Word} (pagePmd : Page pmd)
    (upper : s.entry pgd (vpn2 va) = makePte (virtToPhys pmd) pteV) :
    Sv39.IsTable (physical s) va (virtToPhys pgd) 1 (virtToPhys pmd) := by
  obtain ⟨leaf, usable, address⟩ := pointer_makePte pagePmd
  have entry : Sv39.entryIn (physical s) va 2 (virtToPhys pgd) = makePte (virtToPhys pmd) pteV := by
    rw [entryIn_physical, (index_eq va).1, upper]
  have top : Sv39.IsTable (physical s) va (virtToPhys pgd) (1 + 1) (virtToPhys pgd) := .root
  have next := Sv39.IsTable.step top (entry ▸ usable) (entry ▸ leaf)
  rwa [entry, address] at next

theorem isTable_pte {pmd pte : Word} (pagePmd : Page pmd) (pagePte : Page pte)
    (upper : s.entry pgd (vpn2 va) = makePte (virtToPhys pmd) pteV)
    (middle : s.entry pmd (vpn1 va) = makePte (virtToPhys pte) pteV) :
    Sv39.IsTable (physical s) va (virtToPhys pgd) 0 (virtToPhys pte) := by
  obtain ⟨leaf, usable, address⟩ := pointer_makePte pagePte
  have entry : Sv39.entryIn (physical s) va 1 (virtToPhys pmd) = makePte (virtToPhys pte) pteV := by
    rw [entryIn_physical, (index_eq va).2.1, middle]
  have next := Sv39.IsTable.step (isTable_pmd pagePmd upper) (entry ▸ usable) (entry ▸ leaf)
  rwa [entry, address] at next

/-- Without a pointer in the top-level table an address has no lower table. -/
theorem no_table_of_noMiddle (absent : present (s.entry pgd (vpn2 va)) = false) {table : Word} :
    ¬ Sv39.IsTable (physical s) va (virtToPhys pgd) 0 table := by
  intro isTable
  obtain ⟨middle, isMiddle, -⟩ := isTable.above (by decide)
  obtain ⟨top, isTop, usable, -⟩ := isMiddle.above (by decide)
  rw [isTop.unique Sv39.IsTable.root] at usable
  have valid := Sv39.valid_of_usable usable
  rw [entryIn_physical, (index_eq va).1, valid_eq, absent] at valid
  cases valid

/-- Nor without a pointer in the middle table. -/
theorem no_table_of_entry {pmd : Word} (pagePmd : Page pmd)
    (upper : s.entry pgd (vpn2 va) = makePte (virtToPhys pmd) pteV)
    (noPointer : Sv39.usable (s.entry pmd (vpn1 va)) = true →
      Sv39.leaf (s.entry pmd (vpn1 va)) = true) {table : Word} :
    ¬ Sv39.IsTable (physical s) va (virtToPhys pgd) 0 table := by
  intro isTable
  obtain ⟨middle, isMiddle, usable, pointer⟩ := isTable.above (by decide)
  rw [isMiddle.unique (isTable_pmd pagePmd upper), entryIn_physical,
    (index_eq va).2.1] at usable pointer
  rw [noPointer usable] at pointer
  cases pointer

private theorem no_table_of_noLower {pmd : Word} (pagePmd : Page pmd)
    (upper : s.entry pgd (vpn2 va) = makePte (virtToPhys pmd) pteV)
    (absent : present (s.entry pmd (vpn1 va)) = false) {table : Word} :
    ¬ Sv39.IsTable (physical s) va (virtToPhys pgd) 0 table := by
  refine no_table_of_entry pagePmd upper fun usable => ?_
  have valid := Sv39.valid_of_usable usable
  rw [valid_eq, absent] at valid
  cases valid

private theorem no_table_of_linear {pmd pa : Word} (pagePmd : Page pmd)
    (upper : s.entry pgd (vpn2 va) = makePte (virtToPhys pmd) pteV)
    (middle : s.entry pmd (vpn1 va) = makePte pa protKernel) {table : Word} :
    ¬ Sv39.IsTable (physical s) va (virtToPhys pgd) 0 table := by
  refine no_table_of_entry pagePmd upper fun _ => ?_
  rw [middle, Sv39.leaf, Sv39.readable, getLsbD_makePte (show 1 < 10 by decide)]
  rfl

/-! ### The walk of the software -/

theorem reads_top {level : ℕ} {address : Word}
    (here : (level, address) = (2, entryAddress pgd (vpn2 va))) :
    ∃ table, Sv39.IsTable (physical s) va (virtToPhys pgd) level table ∧
      address = physToVirt (Sv39.entryAddress table (Sv39.index va level)) := by
  obtain ⟨rfl, rfl⟩ := Prod.mk.inj here
  exact ⟨_, .root, by rw [(index_eq va).1, entryAddress_physical]⟩

theorem reads_pmd {pmd : Word} (pagePmd : Page pmd)
    (upper : s.entry pgd (vpn2 va) = makePte (virtToPhys pmd) pteV) {level : ℕ} {address : Word}
    (here : (level, address) = (1, entryAddress pmd (vpn1 va))) :
    ∃ table, Sv39.IsTable (physical s) va (virtToPhys pgd) level table ∧
      address = physToVirt (Sv39.entryAddress table (Sv39.index va level)) := by
  obtain ⟨rfl, rfl⟩ := Prod.mk.inj here
  exact ⟨_, isTable_pmd pagePmd upper, by rw [(index_eq va).2.1, entryAddress_physical]⟩

private theorem agrees_noMiddle (absent : present (s.entry pgd (vpn2 va)) = false) :
    Agrees s pgd va := by
  constructor
  · intro func reported
    rw [PageMemory.iteratePageTable, if_pos absent] at reported
    exact absurd rfl reported
  · intro level address member
    rw [PageMemory.iterateReads, if_pos absent] at member
    exact reads_top (List.mem_singleton.mp member)

private theorem agrees_noLower {pmd : Word} (pagePmd : Page pmd)
    (upper : s.entry pgd (vpn2 va) = makePte (virtToPhys pmd) pteV)
    (absent : present (s.entry pmd (vpn1 va)) = false) :
    Agrees s pgd va := by
  constructor
  · intro func reported
    rw [PageMemory.iteratePageTable, upper, present_upper, if_neg (by decide)] at reported
    simp only [ptePa_upper pagePmd.1, absent, if_true] at reported
    exact absurd rfl reported
  · intro level address member
    rw [PageMemory.iterateReads, upper, present_upper, if_neg (by decide)] at member
    simp only [ptePa_upper pagePmd.1, absent, if_true] at member
    rcases List.mem_cons.mp member with here | there
    · exact reads_top here
    · exact reads_pmd pagePmd upper (List.mem_singleton.mp there)

/-- Below two pointers the walk answers with the entry of the lower table. -/
theorem iterate_lower {pmd pte : Word} (pagePmd : Page pmd) (pagePte : Page pte)
    (upper : s.entry pgd (vpn2 va) = makePte (virtToPhys pmd) pteV)
    (middle : s.entry pmd (vpn1 va) = makePte (virtToPhys pte) pteV) (func : PteFunc) :
    s.iteratePageTable pgd va func = answer (s.entry pte (vpn0 va)) func := by
  rw [PageMemory.iteratePageTable, upper, present_upper, if_neg (by decide)]
  simp only [ptePa_upper pagePmd.1, middle, present_upper, Bool.true_eq_false,
    if_false, ptePa_upper pagePte.1]
  unfold answer
  cases present (s.entry pte (vpn0 va)) <;> rfl

private theorem reads_lower {pmd pte : Word} (pagePmd : Page pmd) (pagePte : Page pte)
    (upper : s.entry pgd (vpn2 va) = makePte (virtToPhys pmd) pteV)
    (middle : s.entry pmd (vpn1 va) = makePte (virtToPhys pte) pteV) {level : ℕ} {address : Word}
    (member : (level, address) ∈ s.iterateReads pgd va) :
    ∃ table, Sv39.IsTable (physical s) va (virtToPhys pgd) level table ∧
      address = physToVirt (Sv39.entryAddress table (Sv39.index va level)) := by
  rw [PageMemory.iterateReads, upper, present_upper, if_neg (by decide)] at member
  simp only [ptePa_upper pagePmd.1, middle, present_upper, Bool.true_eq_false,
    if_false, ptePa_upper pagePte.1]
    at member
  rcases List.mem_cons.mp member with here | there
  · exact reads_top here
  rcases List.mem_cons.mp there with here | there
  · exact reads_pmd pagePmd upper here
  · obtain ⟨rfl, rfl⟩ := Prod.mk.inj (List.mem_singleton.mp there)
    exact ⟨_, isTable_pte pagePmd pagePte upper
      middle, by rw [(index_eq va).2.2, entryAddress_physical]⟩

private theorem answer_getProt_ne {pte : Word} (there : present pte = true) :
    answer pte .getProt ≠ 0#64 := by
  intro zero
  have bit := congrArg (BitVec.getLsbD · 0) zero
  rw [present_eq] at there
  have mark : pteCow[0] = false := rfl
  simp [answer, present_eq, there, mark] at bit
  exact absurd (there.symm.trans bit) (by decide)

/-- Below two pointers the walks agree where a mapping is a leaf and the address is right. -/
private theorem agrees_lower_iff {pmd pte : Word} (pagePmd : Page pmd) (pagePte : Page pte)
    (upper : s.entry pgd (vpn2 va) = makePte (virtToPhys pmd) pteV)
    (middle : s.entry pmd (vpn1 va) = makePte (virtToPhys pte) pteV)
    (maps : Maps lowerFlags (s.entry pte (vpn0 va))) :
    Agrees s pgd va ↔ Regular s pgd va := by
  have isTable := isTable_pte pagePmd pagePte upper middle
  have entry : Sv39.entryIn (physical s) va 0 (virtToPhys pte) = s.entry pte (vpn0 va) := by
    rw [entryIn_physical, (index_eq va).2.2]
  constructor
  · intro agrees table isTable' valid
    obtain rfl := isTable.unique isTable'
    rw [entry, valid_eq] at valid
    have reported : s.iteratePageTable pgd va .getProt ≠ 0#64 := by
      rw [iterate_lower pagePmd pagePte upper middle]
      exact answer_getProt_ne valid
    obtain ⟨leaf, walks, -⟩ := agrees.reports .getProt reported
    constructor
    · by_contra notCanonical
      rw [Sv39.walk, if_neg notCanonical] at walks
      cases walks
    · by_contra notLeaf
      rw [isTable.walk_pointer (by simpa using notLeaf)] at walks
      cases walks
  · intro regular
    refine ⟨fun func reported => ?_,
      fun level address member => reads_lower pagePmd pagePte upper middle member⟩
    rw [iterate_lower pagePmd pagePte upper middle] at reported ⊢
    cases there : present (s.entry pte (vpn0 va)) with
    | false => exact absurd (answer_of_not_present there func) reported
    | true =>
      obtain ⟨canonical, leaf⟩ := regular _ isTable (by rw [entry, valid_eq, there])
      have usable := Maps.usable maps there (entry ▸ leaf)
      refine ⟨_, isTable.walk_leaf canonical (entry ▸ usable) leaf, ?_⟩
      rw [entry]
      unfold answer
      rw [there, if_pos rfl]
      cases func with
      | checkCow => rfl
      | getPa => exact (Sv39.pageAddress_of_usable usable).symm
      | getProt => rfl

/-- Below a leaf of the linear map a word of the page is read as an entry. -/
private theorem not_agrees_linear {pmd pa : Word} (pagePmd : Page pmd)
    (upper : s.entry pgd (vpn2 va) = makePte (virtToPhys pmd) pteV)
    (middle : s.entry pmd (vpn1 va) = makePte pa protKernel) : ¬ Agrees s pgd va := by
  intro agrees
  have there : present (makePte pa protKernel) = true := by
    rw [present_eq, getLsbD_makePte (by decide)]
    rfl
  have member : (0, entryAddress (physToVirt (ptePa (makePte pa protKernel))) (vpn0 va)) ∈
      s.iterateReads pgd va := by
    rw [PageMemory.iterateReads, upper, present_upper, if_neg (by decide)]
    simp only [ptePa_upper pagePmd.1, middle, there, Bool.true_eq_false, if_false]
    exact List.mem_cons_of_mem _ (List.mem_cons_of_mem _ List.mem_cons_self)
  obtain ⟨table, isTable, -⟩ := agrees.reads 0 _ member
  exact no_table_of_linear pagePmd upper middle isTable

theorem agrees_iff_of_path (path : Path build s pgd va) :
    Agrees s pgd va ↔ ¬ Linear build va ∧ Regular s pgd va := by
  cases path with
  | noMiddle notLinear absent =>
    exact iff_of_true (agrees_noMiddle absent)
      ⟨notLinear, fun table isTable => absurd isTable (no_table_of_noMiddle absent)⟩
  | noLower notLinear pagePmd upper absent =>
    exact iff_of_true (agrees_noLower pagePmd upper absent)
      ⟨notLinear, fun table isTable => absurd isTable (no_table_of_noLower pagePmd upper absent)⟩
  | lower notLinear pagePmd pagePte upper middle maps =>
    rw [agrees_lower_iff pagePmd pagePte upper middle maps]
    exact ⟨fun regular => ⟨notLinear, regular⟩, fun both => both.2⟩
  | linear linear pagePmd upper middle =>
    exact iff_of_false (not_agrees_linear pagePmd upper middle) fun both => both.1 linear

/-- On every table that the kernel builds, the walks agree about exactly the addresses outside the
linear map at which no page is mapped, or one with an access right and the address is canonical. -/
theorem walks_agree_iff (laid : LaidOut build static)
    (built : Built build static s pgd tables) (va : Word) :
    Agrees s pgd va ↔ ¬ Linear build va ∧ Regular s pgd va :=
  agrees_iff_of_path ((built.process laid).path laid va)

end Agreement

/-! ## Just after boot -/

/-- Static tables behind the start of the kernel. -/
def bootTables : KernelTables where
  kernelPgd := pageOffset + 0x201000#64
  kernelPmd := pageOffset + 0x202000#64
  mmioPmd := pageOffset + 0x204000#64
  uartPte := pageOffset + 0x205000#64
  plicPteLow := pageOffset + 0x206000#64
  plicPteHigh := pageOffset + 0x207000#64

def firstPgd : Word := pageOffset + 0x400000#64

/-- Memory of zeros after start.S. -/
def bootMemory : PageMemory :=
  let zeros : PageMemory := ⟨fun _ => 0#64, bootTables.kernelPgd, firstPgd, fun _ => none, 0⟩
  (zeros.setupVm .board bootTables).dropIdentityMap .board bootTables

/-- The table of the first process, just created. -/
def firstTable : PageMemory := bootMemory.newPgd bootTables.kernelPgd firstPgd

theorem bootTables_laidOut : LaidOut .board bootTables where
  page := List.forall_iff_forall_mem.mp (by decide)
  nodup := by decide

theorem firstTable_built : Built .board bootTables firstTable firstPgd [firstPgd] :=
  .create ⟨_, fun _ _ _ _ => rfl, Same.refl _ _⟩ (by decide) (by decide)

/-- At address zero nothing is mapped, and the walks agree. -/
theorem walks_agree_iff_zero : Agrees firstTable firstPgd 0#64 := by
  refine (walks_agree_iff bootTables_laidOut firstTable_built 0#64).mpr
    ⟨by decide, fun table isTable => ?_⟩
  exact absurd isTable (no_table_of_noMiddle (by decide +kernel))

/-- The first word of RAM looks like a copy-on-write entry. -/
def markedTable : PageMemory := firstTable.setEntry pageOffset 0 0x101#64

theorem markedTable_built : Built .board bootTables markedTable firstPgd [firstPgd] := by
  refine firstTable_built.other (same_setEntry firstTable _ (by decide) (by decide) ?_ (by decide))
  exact List.forall_iff_forall_mem.mp (by decide)

/-- At the first address of the linear map the software walk reads that word as an entry and reports
it as marked. -/
theorem linear_map_disagrees : Built .board bootTables markedTable firstPgd [firstPgd] ∧
    markedTable.iteratePageTable firstPgd pageOffset .checkCow = 1#64 ∧
    ¬ Agrees markedTable firstPgd pageOffset := by
  refine ⟨markedTable_built, by decide +kernel, fun agrees => ?_⟩
  have path := (markedTable_built.process bootTables_laidOut).path bootTables_laidOut pageOffset
  exact ((agrees_iff_of_path path).mp agrees).1 (by decide)

end OscKernel.Soundness.HardwareWalk
