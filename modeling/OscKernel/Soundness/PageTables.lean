import OscKernel.Model.Paging
import Mathlib.Data.List.ProdSigma
import Mathlib.Data.Fintype.Prod

/-! # Walks over page tables

The loops over the three levels visit the present level-0 entries and the table pages. Written as
one list of visits, the walk that frees a table and the walk that copies one each have a single
description: what they do to the reference count of every page, and what they do to the allocator.
The entries after a fork and after `pagewalk` are described slot by slot.
-/

namespace OscKernel.Soundness.PageTables

open OscKernel.Lib OscKernel.Model OscKernel.Model.Vm

/-! ## Entry words -/

private theorem pteW_eq : pteW = BitVec.twoPow 64 2 := rfl
theorem pteCow_eq : pteCow = BitVec.twoPow 64 8 := rfl

theorem and_bit_ne_zero (x : Word) (i : ℕ) (small : i < 64) :
    (x &&& (1#64 <<< i) ≠ 0#64) ↔ x.getLsbD i = true := by
  rw [← BitVec.twoPow_eq, BitVec.and_twoPow]
  have nonzero : BitVec.twoPow 64 i ≠ 0#64 := by
    intro zero
    have bit := congrArg (·.getLsbD i) zero
    simp [small] at bit
  split <;> simp_all

theorem present_eq (pte : Word) : present pte = pte.getLsbD 0 := by
  rw [present, Bool.eq_iff_iff, decide_eq_true_iff]
  exact and_bit_ne_zero pte 0 (by decide)

theorem readable_eq (pte : Word) : readable pte = pte.getLsbD 1 := by
  rw [readable, Bool.eq_iff_iff, decide_eq_true_iff]
  exact and_bit_ne_zero pte 1 (by decide)

theorem writable_eq (pte : Word) : writable pte = pte.getLsbD 2 := by
  rw [writable, Bool.eq_iff_iff, decide_eq_true_iff]
  exact and_bit_ne_zero pte 2 (by decide)

theorem copyOnWrite_eq (pte : Word) : copyOnWrite pte = pte.getLsbD 8 := by
  rw [copyOnWrite, Bool.eq_iff_iff, decide_eq_true_iff]
  exact and_bit_ne_zero pte 8 (by decide)

/-- The bits of a shared entry: the write permission turns into the copy-on-write mark. -/
theorem getLsbD_share (pte : Word) {i : ℕ} (small : i < 64) : (share pte).getLsbD i =
    if i = 2 then false else if i = 8 then pte.getLsbD 2 || pte.getLsbD 8 else pte.getLsbD i := by
  rw [share, writable_eq, pteW_eq, pteCow_eq]
  cases set : pte.getLsbD 2 with
  | false =>
    simp only [Bool.false_eq_true, if_false, Bool.false_or]
    split
    · rename_i isTwo
      rw [isTwo, set]
    · split
      · rename_i isEight
        rw [isEight]
      · rfl
  | true =>
    simp only [if_true, BitVec.getLsbD_or, BitVec.getLsbD_and, BitVec.getLsbD_not,
      BitVec.getLsbD_twoPow, small, Bool.true_or]
    rcases eq_or_ne i 2 with rfl | notTwo
    · simp
    rcases eq_or_ne i 8 with rfl | notEight
    · simp
    · simp [notTwo, notEight, notTwo.symm, notEight.symm, small]

@[simp] theorem present_share (pte : Word) : present (share pte) = present pte := by
  rw [present_eq, present_eq, getLsbD_share pte (by decide)]
  rfl

@[simp] theorem readable_share (pte : Word) : readable (share pte) = readable pte := by
  rw [readable_eq, readable_eq, getLsbD_share pte (by decide)]
  rfl

@[simp] theorem writable_share (pte : Word) : writable (share pte) = false := by
  rw [writable_eq, getLsbD_share pte (by decide)]
  rfl

@[simp] theorem copyOnWrite_share (pte : Word) :
    copyOnWrite (share pte) = (writable pte || copyOnWrite pte) := by
  rw [copyOnWrite_eq, writable_eq, copyOnWrite_eq, getLsbD_share pte (by decide)]
  rfl

@[simp] theorem ptePa_share (pte : Word) : ptePa (share pte) = ptePa pte := by
  apply BitVec.eq_of_getLsbD_eq
  intro i small
  simp only [ptePa, BitVec.getLsbD_shiftLeft, BitVec.getLsbD_ushiftRight]
  rcases Nat.lt_or_ge (10 + (i - 12)) 64 with inside | outside
  · rw [getLsbD_share pte inside, if_neg (by omega), if_neg (by omega)]
  · rw [BitVec.getLsbD_of_ge _ _ outside, BitVec.getLsbD_of_ge _ _ outside]

/-- A word is the address of a page. -/
def Aligned (x : Word) : Prop := x.toNat % 4096 = 0

instance (x : Word) : Decidable (Aligned x) := inferInstanceAs (Decidable (_ = _))

theorem aligned_ptePa (pte : Word) : Aligned (ptePa pte) := by
  rw [Aligned, ptePa, BitVec.toNat_shiftLeft, Nat.shiftLeft_eq]
  omega

/-- An entry made for a page holds its address. -/
theorem ptePa_makePte {pa flags : Word} (aligned : Aligned pa) (low : flags.toNat < 2 ^ 10) :
    ptePa (makePte pa flags) = pa := by
  apply BitVec.eq_of_getLsbD_eq
  intro i inside
  have noFlag : flags.getLsbD (10 + (i - 12)) = false :=
    Nat.testBit_lt_two_pow (lt_of_lt_of_le low (Nat.pow_le_pow_right (by decide) (by omega)))
  simp only [ptePa, makePte, BitVec.getLsbD_shiftLeft, BitVec.getLsbD_ushiftRight,
    BitVec.getLsbD_or, inside, noFlag, Bool.or_false, decide_true, Bool.true_and]
  rcases Nat.lt_or_ge i 12 with offset | page
  · have bit := congrArg (Nat.testBit · i) aligned
    simp only [Nat.zero_testBit, show 4096 = 2 ^ 12 from rfl, Nat.testBit_mod_two_pow, offset,
      decide_true, Bool.true_and] at bit
    simp only [offset, decide_true, Bool.not_true, Bool.false_and]
    exact bit.symm
  · have notLow : ¬ i < 12 := by omega
    have notLow' : ¬ 10 + (i - 12) < 10 := by omega
    have small : 10 + (i - 12) < 64 := by omega
    simp only [notLow, notLow', small, decide_true, decide_false, Bool.not_false, Bool.true_and]
    congr 1
    omega

theorem getLsbD_makePte {pa flags : Word} {i : ℕ} (small : i < 10) :
    (makePte pa flags).getLsbD i = flags.getLsbD i := by
  have inside : i < 64 := by omega
  simp [makePte, small]

@[simp] theorem not_present_zero : present 0#64 = false := by decide

/-- The entry that the copy-on-write branch writes. -/
def unshared (pte pa : Word) : Word :=
  makePte pa ((((pte &&& 0x3ff#64) &&& ~~~pteCow) ||| pteW) ||| pteV)

theorem unshared_spec (pte : Word) {pa : Word} (aligned : Aligned pa) :
    present (unshared pte pa) = true ∧ writable (unshared pte pa) = true ∧
      readable (unshared pte pa) = readable pte ∧ ptePa (unshared pte pa) = pa := by
  have low : ((((pte &&& 0x3ff#64) &&& ~~~pteCow) ||| pteW) ||| pteV).toNat < 2 ^ 10 := by
    rw [BitVec.toNat_or, BitVec.toNat_or, BitVec.toNat_and, BitVec.toNat_and]
    have field : pte.toNat &&& (0x3ff#64).toNat < 2 ^ 10 := Nat.and_lt_two_pow _ (by decide)
    exact Nat.or_lt_two_pow
      (Nat.or_lt_two_pow (lt_of_le_of_lt Nat.and_le_left field) (by decide)) (by decide)
  refine ⟨?_, ?_, ?_, ptePa_makePte aligned low⟩
  · rw [present_eq, unshared, getLsbD_makePte (by decide)]
    simp [pteV]
  · rw [writable_eq, unshared, getLsbD_makePte (by decide)]
    simp [pteW]
  · rw [readable_eq, readable_eq, unshared, getLsbD_makePte (by decide)]
    simp [pteW, pteV, pteCow]

/-! ## Visits -/

/-- What a walk does at one place: a present level-0 entry, or the page of a table. -/
inductive Visit where
  | page (pte : Word)
  | table (va : Word)

namespace Visit

def page? : Visit → Option Word
  | page pte => some pte
  | table _ => none

def table? : Visit → Option Word
  | page _ => none
  | table va => some va

/-- A visit of the walk that frees. -/
def release (s : Vm) : Visit → Vm
  | page pte => s.releasePage (ptePa pte)
  | table va => s.free va

/-- A visit of the walk that copies. -/
def copy (s : Vm) : Visit → Option Vm
  | page pte => some (s.incrementPageRef (ptePa (share pte)))
  | table va => s.allocatePage va .table

end Visit

/-- The entries a level-0 table contributes. -/
def pteVisits (table : PteTable) : List Visit :=
  ((List.finRange 512).filter fun k => present (table.entry k)).map fun k =>
    Visit.page (table.entry k)

def releaseVisits (pgd : Pgd) : List Visit :=
  (List.finRange 256).flatMap fun i => match pgd.entry i with
    | none => []
    | some pmd => ((List.finRange 512).flatMap fun j => match pmd.entry j with
      | none => []
      | some table => pteVisits table ++ [Visit.table table.va]) ++ [Visit.table pmd.va]

def copyVisits (pgd : Pgd) (pages : ForkPages) : List Visit :=
  (List.finRange 256).flatMap fun i => match pgd.entry i with
    | none => []
    | some pmd => Visit.table (pages.pmd i) :: (List.finRange 512).flatMap fun j =>
      match pmd.entry j with
      | none => []
      | some table => Visit.table (pages.pte i j) :: pteVisits table

private theorem releasePte_eq (s : Vm) (table : PteTable) :
    s.releasePte table = (pteVisits table ++ [Visit.table table.va]).foldl Visit.release s := by
  rw [List.foldl_append, pteVisits, List.foldl_map, List.foldl_filter, releasePte]
  generalize List.finRange 512 = entries
  rfl

private theorem releasePmd_eq (s : Vm) (pmd : PmdTable) : s.releasePmd pmd =
    (((List.finRange 512).flatMap fun j => match pmd.entry j with
      | none => []
      | some table => pteVisits table ++ [Visit.table table.va]) ++ [Visit.table pmd.va]).foldl
          Visit.release s := by
  rw [List.foldl_append, List.foldl_flatMap, releasePmd]
  generalize List.finRange 512 = entries
  have body : (fun (s : Vm) j => match pmd.entry j with
      | none => s
      | some table => s.releasePte table) =
    fun s j => (match pmd.entry j with
      | none => []
      | some table => pteVisits table ++ [Visit.table table.va]).foldl Visit.release s := by
    funext s j
    cases pmd.entry j with
    | none => rfl
    | some table => exact releasePte_eq s table
  exact congrArg (fun visit => (entries.foldl visit s).free pmd.va) body

theorem releaseUserHalf_eq (s : Vm) (pgd : Pgd) :
    s.releaseUserHalf pgd = (releaseVisits pgd).foldl Visit.release s := by
  rw [releaseVisits, List.foldl_flatMap, releaseUserHalf]
  generalize List.finRange 256 = entries
  congr 1
  funext s i
  cases pgd.entry i with
  | none => rfl
  | some pmd => exact releasePmd_eq s pmd

/-- Folding over nested loops is folding over the joined list. -/
theorem foldlM_flatMap {α β σ : Type} (f : α → List β) (g : σ → β → Option σ) (l : List α) (s : σ) :
    (l.flatMap f).foldlM g s = l.foldlM (fun s a => (f a).foldlM g s) s := by
  induction l generalizing s with
  | nil => rfl
  | cons a rest ih =>
    rw [List.flatMap_cons, List.foldlM_append, List.foldlM_cons]
    congr 1
    funext s
    exact ih s

private theorem copyPte_eq (s : Vm) (table : PteTable) :
    (pteVisits table).foldlM Visit.copy s = some (s.copyPte table) := by
  rw [copyPte, ← List.foldl_filter, pteVisits, List.foldlM_map]
  generalize (List.finRange 512).filter _ = entries
  induction entries generalizing s with
  | nil => rfl
  | cons k rest ih => exact ih _

private theorem copyPmd_eq (s : Vm) (pmd : PmdTable) (pages : Fin 512 → Word) :
    s.copyPmd pmd pages = ((List.finRange 512).flatMap fun j => match pmd.entry j with
      | none => []
      | some table => Visit.table (pages j) :: pteVisits table).foldlM Visit.copy s := by
  rw [foldlM_flatMap, copyPmd]
  generalize List.finRange 512 = entries
  congr 1
  funext s j
  cases pmd.entry j with
  | none => rfl
  | some table =>
    simp only [List.foldlM_cons, copyPte_eq, Visit.copy]
    cases s.allocatePage (pages j) .table <;> rfl

theorem copyUserHalf_eq (s : Vm) (pgd : Pgd) (pages : ForkPages) :
    s.copyUserHalf pgd pages = (copyVisits pgd pages).foldlM Visit.copy s := by
  rw [copyVisits, foldlM_flatMap, copyUserHalf]
  generalize List.finRange 256 = entries
  congr 1
  funext s i
  cases pgd.entry i with
  | none => rfl
  | some pmd =>
    simp only [List.foldlM_cons, Visit.copy, Option.bind_eq_bind]
    cases s.allocatePage (pages.pmd i) .table with
    | none => simp only [Option.bind_none]
    | some s =>
      simp only [Option.bind_some]
      exact copyPmd_eq s pmd (pages.pte i)

/-! ## The pages and tables of a table -/

/-- Every index triple, in the order of the loops. -/
def allSlots : List Slot :=
  (List.finRange 256).flatMap fun i => (List.finRange 512).flatMap fun j =>
    (List.finRange 512).map fun k => (i, j, k)

private theorem mem_allSlots (slot : Slot) : slot ∈ allSlots := by
  obtain ⟨i, j, k⟩ := slot
  simp only [allSlots, List.mem_flatMap, List.mem_map]
  exact ⟨i, List.mem_finRange i, j, List.mem_finRange j, k, List.mem_finRange k, rfl⟩

theorem nodup_allSlots : allSlots.Nodup := by
  have product :=
    (List.nodup_finRange 256).product ((List.nodup_finRange 512).product (List.nodup_finRange 512))
  have same : (List.finRange 256 ×ˢ (List.finRange 512 ×ˢ List.finRange 512) : List Slot) =
      allSlots := by
    rw [allSlots]
    generalize List.finRange 256 = first
    generalize List.finRange 512 = second
    simp only [SProd.sprod, List.product, List.map_flatMap, List.map_map]
    rfl
  rwa [same] at product

/-- The present level-0 entries, in the order of the loops. -/
def pageWords (pgd : Pgd) : List Word :=
  (allSlots.filter fun slot => present (pgd.entryAt slot)).map pgd.entryAt

theorem mem_pageWords {pgd : Pgd} {pte : Word} :
    pte ∈ pageWords pgd ↔ ∃ slot, present (pgd.entryAt slot) = true ∧ pgd.entryAt slot = pte := by
  simp [pageWords, mem_allSlots]

theorem pageWords_eq (pgd : Pgd) :
    pageWords pgd = (List.finRange 256).flatMap fun i => match pgd.entry i with
    | none => []
    | some pmd => (List.finRange 512).flatMap fun j => match pmd.entry j with
      | none => []
      | some table =>
        ((List.finRange 512).filter fun k => present (table.entry k)).map table.entry := by
  rw [pageWords, allSlots, List.filter_flatMap, List.map_flatMap]
  generalize List.finRange 256 = first
  generalize List.finRange 512 = second
  congr 1
  funext i
  rw [List.filter_flatMap, List.map_flatMap]
  cases upper : pgd.entry i with
  | none => simp [Pgd.entryAt, upper]
  | some pmd =>
    congr 1
    funext j
    rw [List.filter_map, List.map_map]
    cases lower : pmd.entry j with
    | none => simp [Pgd.entryAt, upper, lower, Function.comp_def]
    | some table => simp [Pgd.entryAt, upper, lower, Function.comp_def]

theorem pteVisits_pages (table : PteTable) : (pteVisits table).filterMap Visit.page? =
    ((List.finRange 512).filter fun k => present (table.entry k)).map table.entry := by
  rw [pteVisits, List.filterMap_map]
  exact congrFun List.filterMap_eq_map' _

/-- The walk that frees visits exactly the present entries. -/
theorem releaseVisits_pages (pgd : Pgd) :
    (releaseVisits pgd).filterMap Visit.page? = pageWords pgd := by
  rw [pageWords_eq, releaseVisits, List.filterMap_flatMap]
  generalize List.finRange 256 = first
  congr 1
  funext i
  cases pgd.entry i with
  | none => rfl
  | some pmd =>
    simp only [List.filterMap_append, List.filterMap_flatMap]
    rw [List.filterMap_cons_none (by rfl), List.filterMap_nil, List.append_nil]
    congr 1
    funext j
    cases pmd.entry j with
    | none => rfl
    | some table =>
      rw [List.filterMap_append, pteVisits_pages, List.filterMap_cons_none (by rfl),
        List.filterMap_nil, List.append_nil]

/-- The walk that copies visits exactly the present entries. -/
theorem copyVisits_pages (pgd : Pgd) (pages : ForkPages) :
    (copyVisits pgd pages).filterMap Visit.page? = pageWords pgd := by
  rw [pageWords_eq, copyVisits, List.filterMap_flatMap]
  generalize List.finRange 256 = first
  congr 1
  funext i
  cases pgd.entry i with
  | none => rfl
  | some pmd =>
    simp only
    rw [List.filterMap_cons_none (by rfl), List.filterMap_flatMap]
    congr 1
    funext j
    cases pmd.entry j with
    | none => rfl
    | some table =>
      simp only
      rw [List.filterMap_cons_none (by rfl), pteVisits_pages]

/-- The place of a table below the top-level one: a middle table, or a level-0 table in it. -/
abbrev Node := Fin 256 × Option (Fin 512)

/-- The address of the table at a place. -/
def nodeVa (pgd : Pgd) : Node → Option Word
  | (i, none) => (pgd.entry i).map PmdTable.va
  | (i, some j) => ((pgd.entry i).bind fun pmd => pmd.entry j).map PteTable.va

/-- The address that a fork gives to the table at a place. -/
def forkVa (pages : ForkPages) : Node → Word
  | (i, none) => pages.pmd i
  | (i, some j) => pages.pte i j

/-- The places in the order in which they are freed. -/
def releaseNodes : List Node :=
  (List.finRange 256).flatMap fun i => ((List.finRange 512).map fun j => (i, some j)) ++ [(i, none)]

/-- The places in the order in which they are copied. -/
def copyNodes : List Node :=
  (List.finRange 256).flatMap fun i => (i, none) :: (List.finRange 512).map fun j => (i, some j)

theorem mem_copyNodes (node : Node) : node ∈ copyNodes := by
  obtain ⟨i, j⟩ := node
  simp only [copyNodes, List.mem_flatMap]
  refine ⟨i, List.mem_finRange i, ?_⟩
  cases j with
  | none => exact List.mem_cons_self
  | some j => exact List.mem_cons_of_mem _ (List.mem_map_of_mem (List.mem_finRange j))

theorem nodup_copyNodes : copyNodes.Nodup := by
  rw [copyNodes, List.nodup_flatMap]
  refine ⟨fun i _ => List.nodup_cons.mpr ⟨?_, ?_⟩, ?_⟩
  · simp
  · apply (List.nodup_finRange 512).map
    intro j j' same
    simpa using same
  · apply (List.nodup_finRange 256).imp
    intro i i' different
    refine List.disjoint_left.mpr fun node first second => ?_
    have atFirst : node.1 = i := by
      rcases List.mem_cons.mp first with rfl | member
      · rfl
      · obtain ⟨_, _, rfl⟩ := List.mem_map.mp member
        rfl
    have atSecond : node.1 = i' := by
      rcases List.mem_cons.mp second with rfl | member
      · rfl
      · obtain ⟨_, _, rfl⟩ := List.mem_map.mp member
        rfl
    exact different (atFirst.symm.trans atSecond)

theorem releaseNodes_perm : releaseNodes.Perm copyNodes := by
  rw [releaseNodes, copyNodes]
  generalize List.finRange 512 = second
  apply List.Perm.flatMap_left
  intro i _
  exact List.perm_append_singleton _ _

theorem pteVisits_tables (table : PteTable) : (pteVisits table).filterMap Visit.table? = [] := by
  rw [pteVisits, List.filterMap_map]
  generalize (List.finRange 512).filter _ = entries
  exact List.filterMap_eq_nil_iff.mpr fun _ _ => rfl

/-- The walk that frees visits exactly the tables below the top-level one. -/
theorem releaseVisits_tables (pgd : Pgd) :
    (releaseVisits pgd).filterMap Visit.table? = releaseNodes.filterMap (nodeVa pgd) := by
  rw [releaseVisits, releaseNodes, List.filterMap_flatMap, List.filterMap_flatMap]
  generalize List.finRange 256 = first
  refine congrArg (first.flatMap ·) (funext fun i => ?_)
  rw [List.filterMap_append, List.filterMap_map]
  cases upper : pgd.entry i with
  | none =>
    have none' : (nodeVa pgd ∘ fun j => (i, some j)) = fun _ => none := by
      funext j
      simp [nodeVa, upper]
    rw [none', List.filterMap_cons_none (by simp [nodeVa, upper])]
    simp
  | some pmd =>
    simp only [List.filterMap_append, List.filterMap_flatMap]
    generalize List.finRange 512 = second
    congr 1
    · induction second with
      | nil => rfl
      | cons j rest ih =>
        rw [List.flatMap_cons, List.filterMap_cons, ih]
        cases lower : pmd.entry j with
        | none => simp [nodeVa, upper, lower]
        | some table => simp [nodeVa, upper, lower, pteVisits_tables, Visit.table?]
    · simp [nodeVa, upper, Visit.table?]

/-- The walk that copies allocates exactly the tables below the child's top-level one. -/
theorem copyVisits_tables (pgd : Pgd) (pages : ForkPages) :
    (copyVisits pgd pages).filterMap Visit.table? = copyNodes.filterMap
    (nodeVa (childTable pgd pages)) := by
  rw [copyVisits, copyNodes, List.filterMap_flatMap, List.filterMap_flatMap]
  generalize List.finRange 256 = first
  refine congrArg (first.flatMap ·) (funext fun i => ?_)
  rw [List.filterMap_cons, List.filterMap_map]
  cases upper : pgd.entry i with
  | none =>
    have none' : (nodeVa (childTable pgd pages) ∘ fun j => (i, some j)) = fun _ => none := by
      funext j
      simp [nodeVa, childTable, upper]
    rw [none']
    simp [nodeVa, childTable, upper]
  | some pmd =>
    have here : nodeVa (childTable pgd pages) (i, none) = some (pages.pmd i) := by
      simp [nodeVa, childTable, upper]
    rw [here]
    simp only [List.filterMap_cons, Visit.table?, List.filterMap_flatMap]
    generalize List.finRange 512 = second
    congr 1
    induction second with
    | nil => rfl
    | cons j rest ih =>
      rw [List.flatMap_cons, List.filterMap_cons, ih]
      cases lower : pmd.entry j with
      | none => simp [nodeVa, childTable, upper, lower]
      | some table =>
        simp [nodeVa, childTable, upper, lower, pteVisits_tables, Visit.table?, sharePte]

/-! ## Entries after a fork and after a mapping -/

theorem entryAt_childTable (src : Pgd) (pages : ForkPages) (slot : Slot) :
    (childTable src pages).entryAt slot =
    if present (src.entryAt slot) then share (src.entryAt slot) else 0#64 := by
  cases upper : src.entry slot.1 with
  | none => simp [Pgd.entryAt, childTable, upper]
  | some pmd =>
    cases lower : pmd.entry slot.2.1 with
    | none => simp [Pgd.entryAt, childTable, upper, lower]
    | some table => simp [Pgd.entryAt, childTable, upper, lower, sharePte]

theorem entryAt_parentTable (src : Pgd) (slot : Slot) : (parentTable src).entryAt slot =
    if present (src.entryAt slot) then share (src.entryAt slot) else src.entryAt slot := by
  cases upper : src.entry slot.1 with
  | none => simp [Pgd.entryAt, parentTable, upper]
  | some pmd =>
    cases lower : pmd.entry slot.2.1 with
    | none => simp [Pgd.entryAt, parentTable, upper, lower]
    | some table => simp [Pgd.entryAt, parentTable, upper, lower]

theorem nodeVa_parentTable (src : Pgd) (node : Node) :
    nodeVa (parentTable src) node = nodeVa src node := by
  obtain ⟨i, j⟩ := node
  cases j with
  | none => cases upper : src.entry i <;> simp [nodeVa, parentTable, upper]
  | some j =>
    cases upper : src.entry i with
    | none => simp [nodeVa, parentTable, upper]
    | some pmd => cases lower : pmd.entry j <;> simp [nodeVa, parentTable, upper, lower]

theorem nodeVa_childTable (src : Pgd) (pages : ForkPages) (node : Node) :
    nodeVa (childTable src pages) node = (nodeVa src node).map fun _ => forkVa pages node := by
  obtain ⟨i, j⟩ := node
  cases j with
  | none => cases upper : src.entry i <;> simp [nodeVa, childTable, forkVa, upper]
  | some j =>
    cases upper : src.entry i with
    | none => simp [nodeVa, childTable, upper]
    | some pmd => cases lower : pmd.entry j <;> simp [nodeVa, childTable,
        forkVa, sharePte, upper, lower]

/-- A child page is present, or writable, exactly as its parent's; see `share` for the rest. -/
theorem present_childTable (src : Pgd) (pages : ForkPages) (slot : Slot) :
    present ((childTable src pages).entryAt slot) = present (src.entryAt slot) := by
  rw [entryAt_childTable]
  split
  · exact present_share _
  · rename_i absent
    simp [absent]

theorem present_parentTable (src : Pgd) (slot : Slot) :
    present ((parentTable src).entryAt slot) = present (src.entryAt slot) := by
  rw [entryAt_parentTable]
  split
  · exact present_share _
  · rfl

theorem ptePa_parentTable (src : Pgd) (slot : Slot) :
    ptePa ((parentTable src).entryAt slot) = ptePa (src.entryAt slot) := by
  rw [entryAt_parentTable]
  split
  · exact ptePa_share _
  · rfl

theorem ptePa_childTable {src : Pgd} {slot : Slot} (pages : ForkPages)
    (there : present (src.entryAt slot) = true) :
    ptePa ((childTable src pages).entryAt slot) = ptePa (src.entryAt slot) := by
  rw [entryAt_childTable, if_pos there, ptePa_share]

end OscKernel.Soundness.PageTables
