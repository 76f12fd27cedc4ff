import OscKernel.Model.ProcessTables
import OscKernel.Soundness.PageWalks

/-! # Process tables in memory

The pages behind the user half of a process table are of two kinds: an entry of a middle table is
missing or points to a lower table, and an entry of a lower table is missing or maps a page with
flags that user mappings have. Walks and the copy at a fork write entries of these kinds only, and
the kernel half stays what `setup_vm` left.
-/

namespace OscKernel.Soundness.ProcessTables

open OscKernel.Lib OscKernel.Model PageTables PageWalks

/-! ## Entries -/

/-- A page of the linear map. -/
def Page (va : Word) : Prop := Aligned va ∧ pageOffset ≤ va

instance (va : Word) : Decidable (Page va) := inferInstanceAs (Decidable (_ ∧ _))

/-- The flags of user mappings, and what a fork leaves of those that can be written. -/
def userFlags : List Word :=
  [protUserBase, protUserBase ||| pteR, protUserRw, protUserBase ||| pteX,
    protUserBase ||| pteR ||| pteX, protUserRw ||| pteX, protUserBase ||| pteR ||| pteCow,
    protUserBase ||| pteR ||| pteX ||| pteCow]

/-- The entry maps a page below the end of the physical addresses with one of the flags, or
nothing. -/
def Maps (flags : List Word) (pte : Word) : Prop :=
  present pte = false ∨ ∃ pa flag, Aligned pa ∧ pa.toNat < 2 ^ 56 ∧
    flag ∈ flags ∧ pte = makePte pa flag

theorem maps_zero (flags : List Word) : Maps flags 0#64 := .inl not_present_zero

theorem Maps.mono {flags flags' : List Word} {pte : Word} (maps : Maps flags pte)
    (subset : flags ⊆ flags') :
    Maps flags' pte := by
  rcases maps with absent | ⟨pa, flag, aligned, small, member, rfl⟩
  · exact .inl absent
  · exact .inr ⟨pa, flag, aligned, small, subset member, rfl⟩

/-- Taking the write flag away and marking the entry changes its flags only. -/
private theorem share_makePte {pa flag : Word} (small : flag.toNat < 2 ^ 10) :
    Vm.share (makePte pa flag) = makePte pa (Vm.share flag) := by
  have high : ∀ i, 10 ≤ i → flag.getLsbD i = false := fun i le =>
    Nat.testBit_lt_two_pow (lt_of_lt_of_le small (Nat.pow_le_pow_right (by decide) le))
  apply BitVec.eq_of_getLsbD_eq
  intro i inside
  rw [getLsbD_share _ inside]
  by_cases low : i < 10
  · rw [getLsbD_makePte low, getLsbD_makePte low, getLsbD_share _ inside,
      getLsbD_makePte (show 2 < 10 by decide), getLsbD_makePte (show 8 < 10 by decide)]
  · have notW : i ≠ 2 := by omega
    have notCow : i ≠ 8 := by omega
    have shared : (Vm.share flag).getLsbD i = flag.getLsbD i := by
      rw [getLsbD_share _ inside]
      simp [notW, notCow]
    simp [makePte, BitVec.getLsbD_or, shared, notW, notCow]

theorem userFlags_induct {P : Word → Prop} (all : List.Forall P userFlags) {flag : Word}
    (member : flag ∈ userFlags) :
    P flag :=
  List.forall_iff_forall_mem.mp all flag member

private theorem flag_small {flag : Word} (member : flag ∈ userFlags) : flag.toNat < 2 ^ 10 :=
  userFlags_induct (P := fun flag => flag.toNat < 2 ^ 10) (by decide) member

private theorem share_mem {flag : Word} (member : flag ∈ userFlags) : Vm.share flag ∈ userFlags :=
  userFlags_induct (P := fun flag => Vm.share flag ∈ userFlags) (by decide) member

theorem Maps.share {pte : Word} (maps : Maps userFlags pte) : Maps userFlags (Vm.share pte) := by
  rcases maps with absent | ⟨pa, flag, aligned, small, member, rfl⟩
  · exact .inl ((present_share pte).trans absent)
  · exact .inr ⟨pa, Vm.share flag, aligned, small, share_mem member,
      share_makePte (flag_small member)⟩

/-- The entry is missing, or points to one of the tables. -/
def Links (pte : Word) (tables : List Word) : Prop :=
  present pte = false ∨ ∃ table ∈ tables, pte = makePte (virtToPhys table) pteV

theorem links_zero (tables : List Word) : Links 0#64 tables := .inl not_present_zero

theorem Links.mono {tables tables' : List Word} {pte : Word} (links : Links pte tables)
    (subset : tables ⊆ tables') :
    Links pte tables' := by
  rcases links with absent | ⟨table, member, same⟩
  · exact .inl absent
  · exact .inr ⟨table, subset member, same⟩

/-! ## What stays -/

/-- The entries of the tables are the same. -/
def Same (s t : PageMemory) (tables : List Word) : Prop :=
  ∀ table ∈ tables, ∀ i < 512, t.entry table i = s.entry table i

theorem Same.refl (s : PageMemory) (tables : List Word) : Same s s tables := fun _ _ _ _ => rfl

theorem Same.trans {s t u : PageMemory} {tables : List Word} (first : Same s t tables)
    (second : Same t u tables) :
    Same s u tables :=
  fun table member i small => (second table member i small).trans (first table member i small)

theorem Same.mono {s t : PageMemory} {tables tables' : List Word} (same : Same s t tables)
    (subset : tables' ⊆ tables) :
    Same s t tables' := fun table member => same table (subset member)

theorem same_setEntry (s : PageMemory) {table : Word} {i : ℕ} (pte : Word) {tables : List Word}
    (aligned : Aligned table) (small : i < 512) (others : ∀ other ∈ tables, Aligned other)
    (apart : table ∉ tables) :
    Same s (s.setEntry table i pte) tables := by
  intro other member j small'
  rw [entry_setEntry s pte aligned (others other member) small small', if_neg]
  rintro ⟨rfl, -⟩
  exact apart member

private theorem same_newTable (s : PageMemory) {page table : Word} {i : ℕ} {tables : List Word}
    (alignedPage : Aligned page) (aligned : Aligned table) (small : i < 512)
    (others : ∀ other ∈ tables, Aligned other) (apart : table ∉ tables) (new : page ∉ tables) :
    Same s (newTable s page table i) tables := by
  intro other member j small'
  rw [entry_newTable s alignedPage aligned (others other member) small small', if_neg, if_neg]
  · rintro rfl
    exact new member
  · rintro ⟨rfl, -⟩
    exact apart member

/-! ## The tree of a process -/

/-- The pages of a process table: the top-level one, whose kernel half is given, and those behind
its user half. -/
structure Tree (high : ℕ → Word) (s : PageMemory) (pgd : Word) (pmds ptes : List Word) : Prop where
  page : ∀ table ∈ pgd :: (pmds ++ ptes), Page table
  top_pmd : pgd ∉ pmds
  top_pte : pgd ∉ ptes
  apart : ∀ table ∈ pmds, table ∉ ptes
  upper : ∀ i < 256, Links (s.entry pgd i) pmds
  middle : ∀ table ∈ pmds, ∀ i < 512, Links (s.entry table i) ptes
  lower : ∀ table ∈ ptes, ∀ i < 512, Maps userFlags (s.entry table i)
  kernel : ∀ i, 256 ≤ i → i < 512 → s.entry pgd i = high i

section Tree

variable {high : ℕ → Word} {s t : PageMemory} {pgd : Word} {pmds ptes : List Word}

theorem Tree.mem_pmd (tree : Tree high s pgd pmds ptes) {table : Word}
    (member : table ∈ pmds) : Page table :=
  tree.page table (List.mem_cons_of_mem _ (List.mem_append_left _ member))

theorem Tree.mem_pte (tree : Tree high s pgd pmds ptes) {table : Word}
    (member : table ∈ ptes) : Page table :=
  tree.page table (List.mem_cons_of_mem _ (List.mem_append_right _ member))

theorem Tree.aligned (tree : Tree high s pgd pmds ptes) :
    ∀ table ∈ pgd :: (pmds ++ ptes), Aligned table :=
  fun table member => (tree.page table member).1

theorem Tree.congr (tree : Tree high s pgd pmds ptes) (same : Same s t (pgd :: (pmds ++ ptes))) :
    Tree high t pgd pmds ptes where
  page := tree.page
  top_pmd := tree.top_pmd
  top_pte := tree.top_pte
  apart := tree.apart
  upper i small := by
    rw [same pgd List.mem_cons_self i (by omega)]
    exact tree.upper i small
  middle table member i small := by
    rw [same table (List.mem_cons_of_mem _ (List.mem_append_left _ member)) i small]
    exact tree.middle table member i small
  lower table member i small := by
    rw [same table (List.mem_cons_of_mem _ (List.mem_append_right _ member)) i small]
    exact tree.lower table member i small
  kernel i low small := by
    rw [same pgd List.mem_cons_self i small]
    exact tree.kernel i low small

/-- Writing an entry of a lower table. -/
theorem Tree.setLower (tree : Tree high s pgd pmds ptes) {table : Word} (member : table ∈ ptes)
    {i : ℕ} (small : i < 512) {pte : Word} (maps : Maps userFlags pte) :
    Tree high (s.setEntry table i pte) pgd pmds ptes := by
  have aligned := (tree.mem_pte member).1
  have frame : Same s (s.setEntry table i pte) (pgd :: pmds) := by
    apply same_setEntry s pte aligned small
    · intro other there
      rcases List.mem_cons.mp there with rfl | there
      · exact tree.aligned _ List.mem_cons_self
      · exact (tree.mem_pmd there).1
    · intro there
      rcases List.mem_cons.mp there with rfl | there
      · exact tree.top_pte member
      · exact tree.apart table there member
  refine { tree with upper := ?_, middle := ?_, lower := ?_, kernel := ?_ }
  · intro j below
    rw [frame pgd List.mem_cons_self j (by omega)]
    exact tree.upper j below
  · intro other there j below
    rw [frame other (List.mem_cons_of_mem _ there) j below]
    exact tree.middle other there j below
  · intro other there j below
    rw [entry_setEntry s pte aligned (tree.mem_pte there).1 small below]
    split_ifs
    · exact maps
    · exact tree.lower other there j below
  · intro j low below
    rw [frame pgd List.mem_cons_self j below]
    exact tree.kernel j low below

/-- A cleared page under an entry of the user half is a middle table. -/
theorem Tree.newPmd (tree : Tree high s pgd pmds ptes) {page : Word} {i : ℕ} (small : i < 256)
    (isPage : Page page) (new : page ∉ pgd :: (pmds ++ ptes)) :
    Tree high (newTable s page pgd i) pgd (page :: pmds) ptes := by
  have alignedTop := tree.aligned pgd List.mem_cons_self
  have read : ∀ {other : Word} {j : ℕ}, Aligned other → j < 512 →
      (newTable s page pgd i).entry other j =
      if other = pgd ∧ j = i then makePte (virtToPhys page) pteV
      else if other = page then 0#64 else s.entry other j :=
    fun aligned below => entry_newTable s isPage.1 alignedTop aligned (by omega) below
  simp only [List.mem_cons, List.mem_append, not_or] at new
  obtain ⟨notTop, notPmd, notPte⟩ := new
  have old : ∀ {other : Word} {j : ℕ}, other ∈ pmds ++ ptes → j < 512 →
      (newTable s page pgd i).entry other j = s.entry other j := by
    intro other j member below
    rw [read (tree.aligned other (List.mem_cons_of_mem _ member)) below, if_neg, if_neg]
    · rintro rfl
      rcases List.mem_append.mp member with there | there
      · exact notPmd there
      · exact notPte there
    · rintro ⟨rfl, -⟩
      rcases List.mem_append.mp member with there | there
      · exact tree.top_pmd there
      · exact tree.top_pte there
  refine ⟨fun table member => ?_, fun member => ?_, tree.top_pte, fun table member => ?_,
    fun j below => ?_, fun table member j below => ?_,
    fun table member j below => ?_, fun j low below => ?_⟩
  · simp only [List.cons_append, List.mem_cons] at member
    rcases member with rfl | rfl | member
    · exact tree.page _ List.mem_cons_self
    · exact isPage
    · exact tree.page table (List.mem_cons_of_mem _ member)
  · rcases List.mem_cons.mp member with same | there
    · exact notTop same.symm
    · exact tree.top_pmd there
  · rcases List.mem_cons.mp member with rfl | there
    · exact notPte
    · exact tree.apart table there
  · rw [read alignedTop (by omega)]
    rcases eq_or_ne j i with rfl | other
    · rw [if_pos ⟨rfl, rfl⟩]
      exact .inr ⟨page, List.mem_cons_self, rfl⟩
    · rw [if_neg (fun both => other both.2), if_neg (fun same => notTop same.symm)]
      exact (tree.upper j below).mono (List.subset_cons_self _ _)
  · rcases List.mem_cons.mp member with rfl | there
    · rw [read isPage.1 below, if_neg (fun both => notTop both.1), if_pos rfl]
      exact links_zero ptes
    · rw [old (List.mem_append_left _ there) below]
      exact tree.middle table there j below
  · rw [old (List.mem_append_right _ member) below]
    exact tree.lower table member j below
  · rw [read alignedTop below, if_neg (fun both => absurd both.2 (by omega)),
      if_neg (fun same => notTop same.symm)]
    exact tree.kernel j low below

/-- A cleared page under an entry of a middle table is a lower table. -/
theorem Tree.newPte (tree : Tree high s pgd pmds ptes) {page pmd : Word} {i : ℕ}
    (member : pmd ∈ pmds) (small : i < 512) (isPage : Page page)
    (new : page ∉ pgd :: (pmds ++ ptes)) :
    Tree high (newTable s page pmd i) pgd pmds (page :: ptes) := by
  have alignedPmd := (tree.mem_pmd member).1
  have read : ∀ {other : Word} {j : ℕ}, Aligned other → j < 512 →
      (newTable s page pmd i).entry other j =
      if other = pmd ∧ j = i then makePte (virtToPhys page) pteV
      else if other = page then 0#64 else s.entry other j :=
    fun aligned below => entry_newTable s isPage.1 alignedPmd aligned small below
  simp only [List.mem_cons, List.mem_append, not_or] at new
  obtain ⟨notTop, notPmd, notPte⟩ := new
  have top : ∀ {j : ℕ}, j < 512 → (newTable s page pmd i).entry pgd j = s.entry pgd j := by
    intro j below
    rw [read (tree.aligned pgd List.mem_cons_self) below, if_neg,
      if_neg (fun same => notTop same.symm)]
    rintro ⟨rfl, -⟩
    exact tree.top_pmd member
  refine ⟨fun table there => ?_, tree.top_pmd, fun there => ?_, fun table there there' => ?_,
    fun j below => ?_, fun table there j below => ?_,
    fun table there j below => ?_, fun j low below => ?_⟩
  · simp only [List.mem_cons, List.mem_append] at there
    rcases there with rfl | there | rfl | there
    · exact tree.page _ List.mem_cons_self
    · exact tree.mem_pmd there
    · exact isPage
    · exact tree.mem_pte there
  · rcases List.mem_cons.mp there with same | there
    · exact notTop same.symm
    · exact tree.top_pte there
  · rcases List.mem_cons.mp there' with rfl | there'
    · exact notPmd there
    · exact tree.apart table there there'
  · rw [top (by omega)]
    exact tree.upper j below
  · rw [read (tree.mem_pmd there).1 below]
    split_ifs with here same
    · exact .inr ⟨page, List.mem_cons_self, rfl⟩
    · exact links_zero _
    · exact (tree.middle table there j below).mono (List.subset_cons_self _ _)
  · rcases List.mem_cons.mp there with rfl | old
    · rw [read isPage.1 below, if_neg, if_pos rfl]
      · exact maps_zero _
      · rintro ⟨rfl, -⟩
        exact notPmd member
    · rw [read (tree.mem_pte old).1 below, if_neg, if_neg]
      · exact tree.lower table old j below
      · rintro rfl
        exact notPte old
      · rintro ⟨rfl, -⟩
        exact tree.apart table member old
  · rw [top below]
    exact tree.kernel j low below

end Tree

/-! ## One level of a walk -/

/-- Between the two states `allocate` returns pages of the linear map that differ from one another
and from the tables. -/
structure Supplied (s t : PageMemory) (tables : List Word) : Prop where
  fresh : Fresh s.allocate s.calls t.calls tables
  mapped : ∀ n page, s.allocate n = some page → pageOffset ≤ page

section Supplied

variable {s t u : PageMemory} {tables : List Word}

theorem Supplied.left (supplied : Supplied s u tables) (later : Advances t u) :
    Supplied s t tables :=
  ⟨supplied.fresh.left later.calls, supplied.mapped⟩

theorem Supplied.right (supplied : Supplied s u tables) (first : Advances s t) :
    Supplied t u (tables ++ taken s.allocate s.calls t.calls) := by
  constructor
  · rw [first.allocate]
    exact supplied.fresh.right first.calls
  · rw [first.allocate]
    exact supplied.mapped

theorem Supplied.mono (supplied : Supplied s t tables) {tables' : List Word}
    (subset : tables' ⊆ tables) :
    Supplied s t tables' where
  fresh :=
    { page := fun n page low high returned => by
        obtain ⟨aligned, new⟩ := supplied.fresh.page n page low high returned
        exact ⟨aligned, fun member => new (subset member)⟩
      distinct := supplied.fresh.distinct }
  mapped := supplied.mapped

theorem Supplied.page (supplied : Supplied s t tables) {page : Word} (later : s.calls < t.calls)
    (returned : s.allocate s.calls = some page) : Page page ∧ page ∉ tables := by
  obtain ⟨aligned, new⟩ := supplied.fresh.page s.calls page (le_refl _) later returned
  exact ⟨⟨aligned, supplied.mapped _ _ returned⟩, new⟩

theorem Supplied.not_taken (supplied : Supplied s t tables) {table : Word}
    (member : table ∈ tables) :
    table ∉ taken s.allocate s.calls t.calls := by
  intro there
  obtain ⟨n, low, below, returned⟩ := mem_taken.mp there
  exact (supplied.fresh.page n table low below returned).2 member

end Supplied

/-- A level of a walk follows a pointer, or puts a new page under a missing entry. -/
theorem walkTable_cases {s t : PageMemory} {table va : Word} {i : ℕ} {targets tables : List Word}
    (links : Links (s.entry table i) targets) (aligned : ∀ target ∈ targets, Aligned target)
    (supplied : Supplied s t tables) (result : s.walkTable table i = some (t, va)) :
    (t = s ∧ va ∈ targets) ∨
      ∃ page, Page page ∧ page ∉ tables ∧ taken s.allocate s.calls t.calls = [page] ∧ va = page ∧
        t = newTable { s with calls := s.calls + 1 } page table i := by
  rcases links with absent | ⟨target, member, pointer⟩
  · obtain ⟨page, returned, rfl, rfl⟩ := walkTable_missing absent result
    obtain ⟨isPage, new⟩ := supplied.page (Nat.lt_succ_self _) returned
    exact .inr ⟨page, isPage, new, taken_one returned, ptePa_upper isPage.1, rfl⟩
  · rw [walkTable_present (aligned target member) pointer] at result
    obtain ⟨rfl, rfl⟩ := Prod.mk.inj (Option.some.inj result)
    exact .inl ⟨rfl, member⟩

section Walk

variable {high : ℕ → Word} {s t : PageMemory} {pgd va : Word} {pmds ptes tables : List Word} {i : ℕ}

theorem Tree.walkUpper (tree : Tree high s pgd pmds ptes) (small : i < 256)
    (result : s.walkTable pgd i = some (t, va)) (supplied : Supplied s t tables)
    (known : pgd :: (pmds ++ ptes) ⊆ tables) :
    ∃ pmds', Tree high t pgd pmds' ptes ∧ va ∈ pmds' ∧ pmds ⊆ pmds' ∧
      pmds' ⊆ pmds ++ taken s.allocate s.calls t.calls := by
  rcases walkTable_cases (tree.upper i small)
    (fun _ member => (tree.mem_pmd member).1) supplied result with
    ⟨rfl, member⟩ | ⟨page, isPage, new, takes, rfl, rfl⟩
  · exact ⟨pmds, tree, member, List.Subset.refl _, List.subset_append_left _ _⟩
  · have before : Tree high { s with calls := s.calls + 1 } pgd pmds ptes :=
      tree.congr fun _ _ _ _ => rfl
    refine ⟨va :: pmds, before.newPmd small isPage (fun member => new (known member)),
      List.mem_cons_self, List.subset_cons_self _ _, ?_⟩
    rw [takes]
    exact List.cons_subset.mpr ⟨List.mem_append_right _ List.mem_cons_self,
      List.subset_append_left _ _⟩

theorem Tree.walkLower (tree : Tree high s pgd pmds ptes) {pmd : Word} (member : pmd ∈ pmds)
    (small : i < 512) (result : s.walkTable pmd i = some (t, va)) (supplied : Supplied s t tables)
    (known : pgd :: (pmds ++ ptes) ⊆ tables) :
    ∃ ptes', Tree high t pgd pmds ptes' ∧ va ∈ ptes' ∧ ptes ⊆ ptes' ∧
      ptes' ⊆ ptes ++ taken s.allocate s.calls t.calls := by
  rcases walkTable_cases (tree.middle pmd member i small)
    (fun _ member => (tree.mem_pte member).1) supplied result with
    ⟨rfl, there⟩ | ⟨page, isPage, new, takes, rfl, rfl⟩
  · exact ⟨ptes, tree, there, List.Subset.refl _, List.subset_append_left _ _⟩
  · have before : Tree high { s with calls := s.calls + 1 } pgd pmds ptes :=
      tree.congr fun _ _ _ _ => rfl
    refine ⟨va :: ptes, before.newPte member small isPage (fun there => new (known there)),
      List.mem_cons_self, List.subset_cons_self _ _, ?_⟩
    rw [takes]
    exact List.cons_subset.mpr ⟨List.mem_append_right _ List.mem_cons_self,
      List.subset_append_left _ _⟩

/-- A level of a walk writes into the given table and into new ones. -/
theorem walkTable_same {table : Word} {targets kept : List Word}
    (links : Links (s.entry table i) targets) (alignedTargets : ∀ target ∈ targets, Aligned target)
    (aligned : Aligned table) (small : i < 512) (result : s.walkTable table i = some (t, va))
    (supplied : Supplied s t kept) (others : ∀ other ∈ kept, Aligned other)
    (apart : table ∉ kept) : Same s t kept := by
  rcases walkTable_cases links alignedTargets supplied result with
    ⟨rfl, -⟩ | ⟨page, isPage, new, -, -, rfl⟩
  · exact Same.refl t kept
  · exact same_newTable { s with calls := s.calls + 1 } isPage.1 aligned small others apart new

theorem known_grown {pmds' ptes' new : List Word} (known : pgd :: (pmds ++ ptes) ⊆ tables)
    (fromPmds : pmds' ⊆ pmds ++ new) (fromPtes : ptes' ⊆ ptes ++ new) :
    pgd :: (pmds' ++ ptes') ⊆ tables ++ new := by
  have old : ∀ {table : Word}, table ∈ pgd :: (pmds ++ ptes) →
      table ∈ tables ++ new := fun member =>
    List.mem_append_left _ (known member)
  intro table member
  rcases List.mem_cons.mp member with rfl | member
  · exact old List.mem_cons_self
  rcases List.mem_append.mp member with there | there
  · rcases List.mem_append.mp (fromPmds there) with before | added
    · exact old (List.mem_cons_of_mem _ (List.mem_append_left _ before))
    · exact List.mem_append_right _ added
  · rcases List.mem_append.mp (fromPtes there) with before | added
    · exact old (List.mem_cons_of_mem _ (List.mem_append_right _ before))
    · exact List.mem_append_right _ added

theorem taken_advances {u : PageMemory} (first : Advances s u) (second : Advances u t) :
    taken s.allocate s.calls t.calls = taken s.allocate s.calls u.calls ++
      taken u.allocate u.calls t.calls := by
  rw [first.allocate, ← taken_append s.allocate first.calls second.calls]

/-- A walk in the user half keeps the tree, and writes into its tables and into new ones. -/
theorem Tree.pagewalk (tree : Tree high s pgd pmds ptes) (active : s.activeUserPgd = pgd)
    {pa prot : Word} (user : va < pageOffset) (lower : vpn2 va < 256) (alignedPa : Aligned pa)
    (physical : pa.toNat < 2 ^ 56) (flags : prot ||| pteV ∈ userFlags)
    (result : s.pagewalk va pa prot = some t) {kept : List Word}
    (supplied : Supplied s t (kept ++ tables)) (known : pgd :: (pmds ++ ptes) ⊆ tables)
    (others : ∀ other ∈ kept, Aligned other) (apart : List.Disjoint kept tables) :
    (∃ pmds' ptes', Tree high t pgd pmds' ptes' ∧
      pgd :: (pmds' ++ ptes') ⊆ tables ++ taken s.allocate s.calls t.calls) ∧ Same s t kept := by
  rw [PageMemory.pagewalk] at result
  simp only [if_neg (BitVec.not_le.mpr user), active] at result
  obtain ⟨⟨u, pmd⟩, upper, rest⟩ := Option.bind_eq_some_iff.mp result
  obtain ⟨⟨v, pte⟩, below, rest⟩ := Option.bind_eq_some_iff.mp rest
  obtain rfl := Option.some.inj rest
  have toU := walkTable_advances upper
  have toV := walkTable_advances below
  have vpn : ∀ {x : ℕ}, x % 512 < 512 := Nat.mod_lt _ (by decide)
  have small1 : vpn1 va < 512 := (vpn_eq va).2.1 ▸ vpn
  have small0 : vpn0 va < 512 := (vpn_eq va).2.2 ▸ vpn
  have suppliedV : Supplied s v (kept ++ tables) := ⟨supplied.fresh, supplied.mapped⟩
  have suppliedU := suppliedV.left toV
  have suppliedRest := suppliedV.right toU
  obtain ⟨pmds', tree₁, member₁, -, from₁⟩ := tree.walkUpper lower upper suppliedU
    (List.subset_append_of_subset_right _ known)
  have known₁ := known_grown known from₁ (List.subset_append_left _ _)
  have suppliedRest' : Supplied u v (kept ++ (tables ++ taken s.allocate s.calls u.calls)) := by
    rwa [List.append_assoc] at suppliedRest
  obtain ⟨ptes', tree₂, member₂, -, from₂⟩ := tree₁.walkLower member₁ small1 below suppliedRest'
    (List.subset_append_of_subset_right _ known₁)
  have known₂ := known_grown known₁ (List.subset_append_left _ _) from₂
  rw [List.append_assoc, ← taken_advances toU toV] at known₂
  have keptApart : ∀ {table : Word}, table ∈ tables ++ taken s.allocate s.calls v.calls →
      table ∉ kept := by
    intro table member there
    rcases List.mem_append.mp member with old | new
    · exact apart there old
    · exact suppliedV.not_taken (List.mem_append_left _ there) new
  have knownAll := known₂
  simp only [List.cons_subset, List.append_subset] at knownAll
  constructor
  · exact ⟨pmds', ptes',
      tree₂.setLower member₂ small0 (.inr ⟨pa, _, alignedPa, physical, flags, rfl⟩), known₂⟩
  · have first : Same s u kept :=
      walkTable_same (tree.upper _ lower) (fun _ member => (tree.mem_pmd member).1)
      (tree.aligned _ List.mem_cons_self) (by omega)
      upper (suppliedU.mono (List.subset_append_left _ _)) others
      (keptApart knownAll.1)
    have second : Same u v kept := walkTable_same (tree₁.middle _ member₁ _ small1)
      (fun _ member => (tree₁.mem_pte member).1) (tree₁.mem_pmd member₁).1 small1 below
      (suppliedRest'.mono (List.subset_append_left _ _)) others (keptApart (knownAll.2.1 member₁))
    have third : Same v (v.setEntry pte (vpn0 va) (makePte pa (prot ||| pteV))) kept :=
      same_setEntry v _ (tree₂.mem_pte member₂).1 small0 others (keptApart (knownAll.2.2 member₂))
    exact (first.trans second).trans third

end Walk

/-! ## Copying the user half -/

/-- The trees of parent and child while the one is copied to the other, and the tables that stay. -/
structure Copying (high : ℕ → Word) (start : PageMemory) (kept : List Word) (src : Word)
    (srcPmds srcPtes : List Word) (dst : Word) (s : PageMemory) (pmds ptes : List Word) : Prop where
  source : Tree high s src srcPmds srcPtes
  target : Tree high s dst pmds ptes
  apart : List.Disjoint (kept ++ src :: (srcPmds ++ srcPtes)) (dst :: (pmds ++ ptes))
  keptSource : List.Disjoint kept (src :: (srcPmds ++ srcPtes))
  aligned : ∀ table ∈ kept, Aligned table
  same : Same start s kept

section Copying

variable {high : ℕ → Word} {start : PageMemory} {kept : List Word} {src dst : Word}
  {srcPmds srcPtes : List Word}
  {s : PageMemory} {pmds ptes : List Word}

theorem Copying.notTarget (copying : Copying high start kept src srcPmds srcPtes dst s pmds ptes)
    {table : Word} (member : table ∈ dst :: (pmds ++ ptes)) : table ∉ kept ∧
    table ∉ src :: (srcPmds ++ srcPtes) :=
  ⟨fun there => copying.apart (List.mem_append_left _ there) member,
    fun there => copying.apart (List.mem_append_right _ there) member⟩

/-- Marking an entry of the parent. -/
theorem Copying.setSource (copying : Copying high start kept src srcPmds srcPtes dst s pmds ptes)
    {table : Word} {i : ℕ} {pte : Word} (member : table ∈ srcPtes) (small : i < 512)
    (maps : Maps userFlags pte) :
    Copying high start kept src srcPmds srcPtes dst (s.setEntry table i pte) pmds ptes := by
  have there : table ∈ src :: (srcPmds ++ srcPtes) :=
    List.mem_cons_of_mem _ (List.mem_append_right _ member)
  have aligned := (copying.source.mem_pte member).1
  exact { copying with
    source := copying.source.setLower member small maps
    target := copying.target.congr (same_setEntry s pte aligned small copying.target.aligned
      fun member => (copying.notTarget member).2 there)
    same := copying.same.trans (same_setEntry s pte aligned small copying.aligned
      fun member => copying.keptSource member there) }

/-- Writing an entry of the child. -/
theorem Copying.setTarget (copying : Copying high start kept src srcPmds srcPtes dst s pmds ptes)
    {table : Word} {i : ℕ} {pte : Word} (member : table ∈ ptes) (small : i < 512)
    (maps : Maps userFlags pte) :
    Copying high start kept src srcPmds srcPtes dst (s.setEntry table i pte) pmds ptes := by
  obtain ⟨notKept, notSource⟩ :=
    copying.notTarget (List.mem_cons_of_mem _ (List.mem_append_right _ member))
  have aligned := (copying.target.mem_pte member).1
  exact { copying with
    source :=
      copying.source.congr (same_setEntry s pte aligned small copying.source.aligned notSource)
    target := copying.target.setLower member small maps
    same := copying.same.trans (same_setEntry s pte aligned small copying.aligned notKept) }

/-- The tables of the child after some calls of `allocate`, which none of the other tables is. -/
theorem Copying.apart_grown (copying : Copying high start kept src srcPmds srcPtes dst s pmds ptes)
    {t : PageMemory} {pmds' ptes' tables : List Word} (supplied : Supplied s t tables)
    (known : kept ++ src :: (srcPmds ++ srcPtes) ⊆ tables)
    (fromPmds : pmds' ⊆ pmds ++ taken s.allocate s.calls t.calls)
    (fromPtes : ptes' ⊆ ptes ++ taken s.allocate s.calls t.calls) :
    List.Disjoint (kept ++ src :: (srcPmds ++ srcPtes)) (dst :: (pmds' ++ ptes')) := by
  intro table other member
  rcases List.mem_append.mp (known_grown (List.Subset.refl _) fromPmds fromPtes member) with
    old | new
  · exact copying.apart other old
  · exact supplied.not_taken (known other) new

/-- The level of `fork_copy_page_table_cow` that gives the child a middle table. -/
theorem Copying.walkUpper (copying : Copying high start kept src srcPmds srcPtes dst s pmds ptes)
    {t : PageMemory} {va : Word} {i : ℕ} {tables : List Word} (small : i < 256)
    (result : s.walkTable dst i = some (t, va)) (supplied : Supplied s t tables)
    (known : kept ++ src :: (srcPmds ++ srcPtes) ⊆ tables)
    (knownTarget : dst :: (pmds ++ ptes) ⊆ tables) :
    ∃ pmds', Copying high start kept src srcPmds srcPtes dst t pmds' ptes ∧ va ∈ pmds' ∧
      pmds' ⊆ pmds ++ taken s.allocate s.calls t.calls ∧
      Same s t (src :: (srcPmds ++ srcPtes)) := by
  obtain ⟨pmds', target, member, -, fromPmds⟩ :=
    copying.target.walkUpper small result supplied knownTarget
  obtain ⟨knownKept, knownSource⟩ := List.append_subset.mp known
  obtain ⟨notKept, notSource⟩ := copying.notTarget List.mem_cons_self
  have same : ∀ {others : List Word}, others ⊆ tables →
      (∀ other ∈ others, Aligned other) → dst ∉ others →
      Same s t others := fun subset aligned apart =>
    walkTable_same (copying.target.upper i small) (fun _ there => (copying.target.mem_pmd there).1)
      (copying.target.aligned _ List.mem_cons_self) (by omega)
      result (supplied.mono subset) aligned apart
  refine ⟨pmds', ⟨copying.source.congr (same knownSource copying.source.aligned notSource), target,
    copying.apart_grown supplied known fromPmds (List.subset_append_left _ _), copying.keptSource,
    copying.aligned, copying.same.trans (same knownKept copying.aligned notKept)⟩, member, fromPmds,
    same knownSource copying.source.aligned notSource⟩

/-- The level that gives the child a lower table. -/
theorem Copying.walkLower (copying : Copying high start kept src srcPmds srcPtes dst s pmds ptes)
    {t : PageMemory} {pmd va : Word} {i : ℕ} {tables : List Word} (inPmds : pmd ∈ pmds)
    (small : i < 512) (result : s.walkTable pmd i = some (t, va)) (supplied : Supplied s t tables)
    (known : kept ++ src :: (srcPmds ++ srcPtes) ⊆ tables)
    (knownTarget : dst :: (pmds ++ ptes) ⊆ tables) :
    ∃ ptes', Copying high start kept src srcPmds srcPtes dst t pmds ptes' ∧ va ∈ ptes' ∧
      ptes' ⊆ ptes ++ taken s.allocate s.calls t.calls ∧
      Same s t (src :: (srcPmds ++ srcPtes)) := by
  obtain ⟨ptes', target, member, -, fromPtes⟩ :=
    copying.target.walkLower inPmds small result supplied knownTarget
  obtain ⟨knownKept, knownSource⟩ := List.append_subset.mp known
  obtain ⟨notKept, notSource⟩ :=
    copying.notTarget (List.mem_cons_of_mem _ (List.mem_append_left _ inPmds))
  have same : ∀ {others : List Word}, others ⊆ tables →
      (∀ other ∈ others, Aligned other) → pmd ∉ others →
      Same s t others := fun subset aligned apart =>
    walkTable_same (copying.target.middle pmd inPmds i small)
      (fun _ there => (copying.target.mem_pte there).1)
      (copying.target.mem_pmd inPmds).1 small result (supplied.mono subset) aligned apart
  refine ⟨ptes', ⟨copying.source.congr (same knownSource copying.source.aligned notSource), target,
    copying.apart_grown supplied known (List.subset_append_left _ _) fromPtes, copying.keptSource,
    copying.aligned, copying.same.trans (same knownKept copying.aligned notKept)⟩, member, fromPtes,
    same knownSource copying.source.aligned notSource⟩

end Copying

section Fork

variable {high : ℕ → Word} {start : PageMemory} {kept : List Word} {src dst : Word}
  {srcPmds srcPtes : List Word}
  {s t : SharedMemory} {pmds ptes tables : List Word}

theorem toPageMemory_incrementPageRef (s : SharedMemory) (pa : Word) :
    (s.incrementPageRef pa).toPageMemory = s.toPageMemory := by
  simp only [SharedMemory.incrementPageRef]
  split_ifs <;> rfl

/-- A round of the innermost loop leaves the shared entry in both tables. -/
theorem copyEntry_eq (s : SharedMemory) (dstPte srcPte : Word) (k : ℕ) :
    (s.copyEntry dstPte srcPte k).toPageMemory =
      if present (s.entry srcPte k) then
        (if writable (s.entry srcPte k) then
          s.toPageMemory.setEntry srcPte k (Vm.share (s.entry srcPte k))
          else s.toPageMemory).setEntry dstPte k (Vm.share (s.entry srcPte k))
      else s.toPageMemory := by
  cases there : present (s.entry srcPte k) with
  | false => simp only [SharedMemory.copyEntry, there, Bool.false_eq_true, if_false]
  | true =>
    cases canWrite : writable (s.entry srcPte k) with
    | true =>
      simp only [SharedMemory.copyEntry, Vm.share, there, canWrite, if_true]
      rw [SharedMemory.setEntry, toPageMemory_incrementPageRef]
      rfl
    | false =>
      simp only [SharedMemory.copyEntry, Vm.share, there, canWrite, if_true,
        Bool.false_eq_true, if_false]
      rw [SharedMemory.setEntry, toPageMemory_incrementPageRef]

private theorem copyEntry_advances (s : SharedMemory) (dstPte srcPte : Word) (k : ℕ) :
    (s.copyEntry dstPte srcPte k).calls = s.calls ∧
      Advances s.toPageMemory (s.copyEntry dstPte srcPte k).toPageMemory := by
  rw [copyEntry_eq]
  split_ifs
  · exact ⟨rfl, le_refl _, rfl, rfl⟩
  · exact ⟨rfl, le_refl _, rfl, rfl⟩
  · exact ⟨rfl, le_refl _, rfl, rfl⟩

theorem Copying.copyEntry
    (copying : Copying high start kept src srcPmds srcPtes dst s.toPageMemory pmds ptes)
    {dstPte srcPte : Word} {k : ℕ} (inTarget : dstPte ∈ ptes)
    (inSource : srcPte ∈ srcPtes) (small : k < 512) :
    Copying high start kept src srcPmds srcPtes dst
      (s.copyEntry dstPte srcPte k).toPageMemory pmds ptes := by
  have maps := (copying.source.lower srcPte inSource k small).share
  rw [copyEntry_eq]
  split_ifs
  · exact (copying.setSource inSource small maps).setTarget inTarget small maps
  · exact copying.setTarget inTarget small maps
  · exact copying

theorem Copying.copyEntries
    (copying : Copying high start kept src srcPmds srcPtes dst s.toPageMemory pmds ptes)
    {dstPte srcPte : Word} (inTarget : dstPte ∈ ptes) (inSource : srcPte ∈ srcPtes) {l : List ℕ}
    (small : ∀ k ∈ l, k < 512) :
    Copying high start kept src srcPmds srcPtes dst
      (l.foldl (fun s k => s.copyEntry dstPte srcPte k) s).toPageMemory pmds ptes := by
  induction l generalizing s with
  | nil => exact copying
  | cons k l ih =>
    exact ih (copying.copyEntry inTarget inSource (small k List.mem_cons_self)) fun k member =>
      small k (List.mem_cons_of_mem _ member)

private theorem copyEntries_advances (s : SharedMemory) (dstPte srcPte : Word) (l : List ℕ) :
    (l.foldl (fun s k => s.copyEntry dstPte srcPte k) s).calls = s.calls ∧
      Advances s.toPageMemory
      (l.foldl (fun s k => s.copyEntry dstPte srcPte k) s).toPageMemory := by
  induction l generalizing s with
  | nil => exact ⟨rfl, le_refl _, rfl, rfl⟩
  | cons k l ih =>
    obtain ⟨calls, advances⟩ := copyEntry_advances s dstPte srcPte k
    obtain ⟨calls', advances'⟩ := ih (s.copyEntry dstPte srcPte k)
    exact ⟨calls'.trans calls, advances.trans advances'⟩

theorem Copying.copyPte
    (copying : Copying high start kept src srcPmds srcPtes dst s.toPageMemory pmds ptes)
    {dstPte srcPte : Word} (inTarget : dstPte ∈ ptes) (inSource : srcPte ∈ srcPtes) :
    Copying high start kept src srcPmds srcPtes dst
      (s.copyPte dstPte srcPte).toPageMemory pmds ptes := by
  rw [SharedMemory.copyPte]
  exact copying.copyEntries inTarget inSource fun k below => List.mem_range.mp below

private theorem copyPte_advances (s : SharedMemory) (dstPte srcPte : Word) :
    (s.copyPte dstPte srcPte).calls = s.calls ∧
      Advances s.toPageMemory (s.copyPte dstPte srcPte).toPageMemory := by
  rw [SharedMemory.copyPte]
  exact copyEntries_advances s dstPte srcPte (List.range 512)

variable (high start kept src dst srcPmds srcPtes) in
/-- From one state to the other the child only gets tables that `allocate` returned, provided that
it has the middle tables `need`; then it has those of `gain`. -/
structure Copies (need gain : List Word) (s t : SharedMemory) : Prop where
  advances : Advances s.toPageMemory t.toPageMemory
  keeps : ∀ {tables pmds ptes}, Supplied s.toPageMemory t.toPageMemory tables →
    kept ++ src :: (srcPmds ++ srcPtes) ⊆ tables → dst :: (pmds ++ ptes) ⊆ tables → need ⊆ pmds →
    Copying high start kept src srcPmds srcPtes dst s.toPageMemory pmds ptes →
    ∃ pmds' ptes', Copying high start kept src srcPmds srcPtes dst t.toPageMemory pmds' ptes' ∧
      gain ⊆ pmds' ∧
      pmds' ⊆ pmds ++ taken s.allocate s.calls t.calls ∧
      ptes' ⊆ ptes ++ taken s.allocate s.calls t.calls

theorem Copies.refl (need : List Word) (s : SharedMemory) :
    Copies high start kept src dst srcPmds srcPtes need need s s where
  advances := ⟨le_refl _, rfl, rfl⟩
  keeps {_ pmds ptes} _ _ _ have_ copying :=
    ⟨pmds, ptes, copying, have_, List.subset_append_left _ _, List.subset_append_left _ _⟩

theorem Copies.trans {u : SharedMemory} {need mid gain : List Word}
    (first : Copies high start kept src dst srcPmds srcPtes need mid s t)
    (second : Copies high start kept src dst srcPmds srcPtes mid gain t u) :
    Copies high start kept src dst srcPmds srcPtes need gain s u := by
  refine ⟨first.advances.trans second.advances, fun supplied known knownTarget needed copying => ?_⟩
  obtain ⟨pmds₁, ptes₁, copying₁, gained₁, fromPmds₁, fromPtes₁⟩ :=
    first.keeps (supplied.left second.advances) known knownTarget needed copying
  obtain ⟨pmds₂, ptes₂, copying₂, gained₂, fromPmds₂, fromPtes₂⟩ :=
    second.keeps (supplied.right first.advances) (List.subset_append_of_subset_left _ known)
      (known_grown knownTarget fromPmds₁ fromPtes₁) gained₁ copying₁
  have grow : ∀ {l l₁ l₂ : List Word}, l₁ ⊆ l ++ taken s.allocate s.calls t.calls →
      l₂ ⊆ l₁ ++ taken t.allocate t.calls u.calls → l₂ ⊆ l ++ taken s.allocate s.calls u.calls := by
    intro l l₁ l₂ from₁ from₂
    rw [taken_advances first.advances second.advances, ← List.append_assoc]
    exact List.Subset.trans from₂ (List.append_subset.mpr
      ⟨List.subset_append_of_subset_left _ from₁, List.subset_append_right _ _⟩)
  exact ⟨pmds₂, ptes₂, copying₂, gained₂, grow fromPmds₁ fromPmds₂, grow fromPtes₁ fromPtes₂⟩

theorem Copies.less {need gain gain' : List Word}
    (copies : Copies high start kept src dst srcPmds srcPtes need gain s t)
    (subset : gain' ⊆ gain) : Copies high start kept src dst srcPmds srcPtes need gain' s t := by
  refine ⟨copies.advances, fun supplied known knownTarget needed copying => ?_⟩
  obtain ⟨pmds', ptes', copying', gained, rest⟩ :=
    copies.keeps supplied known knownTarget needed copying
  exact ⟨pmds', ptes', copying', List.Subset.trans subset gained, rest⟩

/-- A loop copies when each of its rounds does. -/
theorem Copies.foldlM {need : List Word} {round : SharedMemory → ℕ → Option SharedMemory}
    {l : List ℕ} (each : ∀ k ∈ l, ∀ u v, round u k = some v →
      Copies high start kept src dst srcPmds srcPtes need need u v)
    (result : l.foldlM round s = some t) :
    Copies high start kept src dst srcPmds srcPtes need need s t := by
  induction l generalizing s with
  | nil =>
    obtain rfl := Option.some.inj result
    exact Copies.refl need s
  | cons k l ih =>
    rw [List.foldlM_cons] at result
    obtain ⟨u, first, rest⟩ := Option.bind_eq_some_iff.mp result
    exact (each k List.mem_cons_self s u first).trans
      (ih (fun k member => each k (List.mem_cons_of_mem _ member)) rest)

/-- The pointer of the parent leads to one of its tables. -/
theorem source_target {u : PageMemory} {table : Word} {i : ℕ} {targets : List Word}
    (links : Links (u.entry table i) targets) (aligned : ∀ target ∈ targets, Aligned target)
    (there : present (u.entry table i) = true) :
    physToVirt (ptePa (u.entry table i)) ∈ targets := by
  rcases links with absent | ⟨target, member, pointer⟩
  · rw [there] at absent
    cases absent
  · rw [pointer, ptePa_upper (aligned target member)]
    exact member

private theorem copyPmdEntry_copies {dstPmd srcPmd : Word} (inSource : srcPmd ∈ srcPmds) {j : ℕ}
    (small : j < 512) (result : s.copyPmdEntry dstPmd srcPmd j = some t) :
    Copies high start kept src dst srcPmds srcPtes [dstPmd] [dstPmd] s t := by
  cases there : present (s.entry srcPmd j) with
  | false =>
    rw [SharedMemory.copyPmdEntry, there] at result
    obtain rfl := Option.some.inj result
    exact Copies.refl _ s
  | true =>
    rw [SharedMemory.copyPmdEntry, there, if_pos rfl] at result
    obtain ⟨⟨u, dstPte⟩, level, rest⟩ := Option.bind_eq_some_iff.mp result
    obtain ⟨⟨memory, va⟩, walk, same⟩ := Option.map_eq_some_iff.mp level
    obtain ⟨rfl, rfl⟩ := Prod.mk.inj same
    obtain rfl := Option.some.inj rest
    obtain ⟨calls, advances⟩ := copyPte_advances { s with toPageMemory := memory } va
      (physToVirt (ptePa (memory.entry srcPmd j)))
    refine ⟨(walkTable_advances walk).trans advances,
      fun supplied known knownTarget needed copying => ?_⟩
    have first : Supplied s.toPageMemory memory _ := supplied.left advances
    obtain ⟨ptes', copying', member, fromPtes, unchanged⟩ :=
      copying.walkLower (needed List.mem_cons_self) small walk first known knownTarget
    have entry : memory.entry srcPmd j = s.entry srcPmd j :=
      unchanged srcPmd (List.mem_cons_of_mem _ (List.mem_append_left _ inSource)) j small
    have inPtes : physToVirt (ptePa (memory.entry srcPmd j)) ∈ srcPtes :=
      source_target (copying'.source.middle srcPmd inSource j small)
        (fun _ member => (copying'.source.mem_pte member).1) (entry ▸ there)
    rw [calls]
    have copied : Copying high start kept src srcPmds srcPtes dst
        ({ s with toPageMemory := memory } : SharedMemory).toPageMemory _ ptes' := copying'
    exact ⟨_, ptes', copied.copyPte member inPtes, needed, List.subset_append_left _ _, fromPtes⟩

theorem copyPmd_copies {dstPmd srcPmd : Word} (inSource : srcPmd ∈ srcPmds)
    (result : s.copyPmd dstPmd srcPmd = some t) :
    Copies high start kept src dst srcPmds srcPtes [dstPmd] [dstPmd] s t := by
  rw [SharedMemory.copyPmd] at result
  exact Copies.foldlM
    (fun j below u v round => copyPmdEntry_copies inSource (List.mem_range.mp below) round) result

private theorem copyPgdEntry_copies {i : ℕ} (small : i < 256)
    (result : s.copyPgdEntry dst src i = some t) :
    Copies high start kept src dst srcPmds srcPtes [] [] s t := by
  cases there : present (s.entry src i) with
  | false =>
    rw [SharedMemory.copyPgdEntry, there] at result
    obtain rfl := Option.some.inj result
    exact Copies.refl _ s
  | true =>
    rw [SharedMemory.copyPgdEntry, there, if_pos rfl] at result
    obtain ⟨⟨u, dstPmd⟩, level, rest⟩ := Option.bind_eq_some_iff.mp result
    obtain ⟨⟨memory, va⟩, walk, same⟩ := Option.map_eq_some_iff.mp level
    obtain ⟨rfl, rfl⟩ := Prod.mk.inj same
    -- the loop advances whatever the tables of the parent are
    have later : Copies high start kept src dst [physToVirt (ptePa (memory.entry src i))]
        srcPtes [va] [va] _ t :=
      copyPmd_copies List.mem_cons_self rest
    have upper : Copies high start kept src dst srcPmds srcPtes [] [va] s { s with
        toPageMemory := memory } := by
      refine ⟨walkTable_advances walk, fun supplied known knownTarget needed copying => ?_⟩
      obtain ⟨pmds', copying', member, fromPmds, -⟩ :=
        copying.walkUpper small walk supplied known knownTarget
      exact ⟨pmds', _, copying', List.cons_subset.mpr ⟨member, List.nil_subset _⟩, fromPmds,
        List.subset_append_left _ _⟩
    refine ⟨upper.advances.trans later.advances,
      fun supplied known knownTarget needed copying => ?_⟩
    obtain ⟨pmds', copying', -, -, unchanged⟩ :=
      copying.walkUpper small walk (supplied.left later.advances) known knownTarget
    have entry : memory.entry src i = s.entry src i := unchanged src List.mem_cons_self i (by omega)
    have inPmds : physToVirt (ptePa (memory.entry src i)) ∈ srcPmds :=
      source_target (copying'.source.upper i small)
        (fun _ member => (copying'.source.mem_pmd member).1) (entry ▸ there)
    exact ((upper.trans (copyPmd_copies inPmds rest)).less (List.nil_subset _)).keeps
      supplied known knownTarget needed
      copying

private theorem forkCopyPageTableCow_copies (result : s.forkCopyPageTableCow dst src = some t) :
    Copies high start kept src dst srcPmds srcPtes [] [] s t := by
  rw [SharedMemory.forkCopyPageTableCow] at result
  exact Copies.foldlM
    (fun i below u v round => copyPgdEntry_copies (List.mem_range.mp below) round) result

/-- A fork keeps the tree of the parent, and makes a tree of the new top-level table of the child
and of new pages. -/
theorem forkCopyPageTableCow_trees (source : Tree high s.toPageMemory src srcPmds srcPtes)
    (target : Tree high s.toPageMemory dst [] []) (result : s.forkCopyPageTableCow dst src = some t)
    (supplied : Supplied s.toPageMemory t.toPageMemory
      (kept ++ src :: (srcPmds ++ srcPtes) ++ [dst])) (aligned : ∀ table ∈ kept, Aligned table)
    (keptSource : List.Disjoint kept (src :: (srcPmds ++ srcPtes)))
    (new : dst ∉ kept ++ src :: (srcPmds ++ srcPtes)) :
    Tree high t.toPageMemory src srcPmds srcPtes ∧
      (∃ pmds ptes, Tree high t.toPageMemory dst pmds ptes ∧
        dst :: (pmds ++ ptes) ⊆ dst :: taken s.allocate s.calls t.calls) ∧
      Same s.toPageMemory t.toPageMemory kept := by
  have copying : Copying high s.toPageMemory kept src srcPmds srcPtes dst s.toPageMemory [] [] :=
    ⟨source, target, List.disjoint_singleton.mpr new, keptSource, aligned, Same.refl _ _⟩
  obtain ⟨pmds, ptes, copied, -, fromPmds, fromPtes⟩ :=
    (forkCopyPageTableCow_copies result).keeps supplied
    (List.subset_append_left _ _) (List.subset_append_right _ _) (List.nil_subset _) copying
  refine ⟨copied.source, ⟨pmds, ptes, copied.target, ?_⟩, copied.same⟩
  exact List.cons_subset_cons _ (List.append_subset.mpr ⟨fromPmds, fromPtes⟩)

end Fork

end OscKernel.Soundness.ProcessTables
