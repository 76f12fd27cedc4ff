import OscKernel.Model.PageWalk
import OscKernel.Soundness.AddressSpaces

/-! # Page tables in memory

The words of memory represent a page table: each upper entry holds the address of the table below
it, each table is a page of its own, and a walk through the words ends at the entry of the table
that they represent. A write to one entry changes no other, since the tables are aligned and
different; a new table is a page that holds zeros only. So a walk that maps a page updates the
represented table at one slot.
-/

namespace OscKernel.Soundness.PageWalks

open OscKernel.Lib OscKernel.Model PageTables

/-! ## Entries -/

/-- Entries of pages have different addresses. -/
private theorem entryAddress_injective {table other : Word} {i j : ℕ} (aligned : Aligned table)
    (aligned' : Aligned other) (small : i < 512) (small' : j < 512)
    (same : entryAddress table i = entryAddress other j) :
    table = other ∧ i = j := by
  have values := congrArg BitVec.toNat same
  simp only [entryAddress, BitVec.toNat_add, BitVec.toNat_ofNat] at values
  rw [Aligned] at aligned aligned'
  have bound := table.isLt
  have bound' := other.isLt
  have tables : table.toNat = other.toNat := by omega
  exact ⟨BitVec.eq_of_toNat_eq tables, by omega⟩

theorem entry_setEntry (s : PageMemory) {table other : Word} {i j : ℕ} (pte : Word)
    (aligned : Aligned table) (aligned' : Aligned other) (small : i < 512)
    (small' : j < 512) : (s.setEntry table i pte).entry other j = if other = table ∧ j = i then pte
    else s.entry other j := by
  change Function.update s.word (entryAddress table i) pte (entryAddress other j) = _
  split_ifs with same
  · rw [same.1, same.2, Function.update_self]
  · apply Function.update_of_ne
    intro address
    exact same (entryAddress_injective aligned' aligned small' small address)

private theorem entry_setEntry_self (s : PageMemory) (table : Word) (i : ℕ) (pte : Word) :
    (s.setEntry table i pte).entry table i = pte :=
  Function.update_self _ _ _

theorem entry_memzero (s : PageMemory) {page table : Word} {i : ℕ} (aligned : Aligned page)
    (aligned' : Aligned table) (small : i < 512) :
    (s.memzero page pageSize).entry table i = if table = page then 0#64 else s.entry table i := by
  have value : (entryAddress table i - page).toNat =
      (2 ^ 64 - page.toNat + (table.toNat + 8 * i)) % 2 ^ 64 := by
    simp only [entryAddress, BitVec.toNat_sub, BitVec.toNat_add, BitVec.toNat_ofNat]
    omega
  have size : pageSize.toNat = 4096 := rfl
  have bound := table.isLt
  have bound' := page.isLt
  rw [Aligned] at aligned aligned'
  change (if entryAddress table i - page < pageSize then 0#64
    else s.word (entryAddress table i)) = _
  by_cases same : table = page
  · subst same
    rw [if_pos rfl, if_pos]
    change (entryAddress table i - table).toNat < pageSize.toNat
    omega
  · have different : table.toNat ≠ page.toNat := fun equal => same (BitVec.eq_of_toNat_eq equal)
    rw [if_neg same, if_neg]
    · rfl
    · change ¬ (entryAddress table i - page).toNat < pageSize.toNat
      omega

theorem aligned_virtToPhys {va : Word} (aligned : Aligned va) : Aligned (virtToPhys va) := by
  have offset : pageOffset.toNat = 0xffffffc000000000 := rfl
  rw [Aligned] at aligned ⊢
  rw [virtToPhys, BitVec.toNat_sub, offset]
  omega

/-- An upper entry leads back to the table it was made for. -/
theorem ptePa_upper {va : Word} (aligned : Aligned va) :
    physToVirt (ptePa (makePte (virtToPhys va) pteV)) = va := by
  rw [ptePa_makePte (aligned_virtToPhys aligned) (by decide), physToVirt_virtToPhys]

theorem present_makePte (pa flags : Word) : present (makePte pa (flags ||| pteV)) = true := by
  rw [present_eq, getLsbD_makePte (by decide)]
  simp [pteV]

theorem present_upper (pa : Word) : present (makePte pa pteV) = true := by
  have whole := present_makePte pa 0#64
  rwa [BitVec.zero_or] at whole

/-! ## The table that memory represents -/

/-- An upper entry for a table that may be missing. -/
def Points (pte : Word) (table : Option Word) : Prop :=
  match table with
  | none => present pte = false
  | some va => pte = makePte (virtToPhys va) pteV

/-- The words at the tables of `pgd` are its entries, and its tables are different pages. -/
structure Represents (s : PageMemory) (pgd : Pgd) : Prop where
  top : s.activeUserPgd = pgd.va
  upper : ∀ i, Points (s.entry pgd.va i.val) ((pgd.entry i).map PmdTable.va)
  middle : ∀ i pmd, pgd.entry i = some pmd →
    ∀ j, Points (s.entry pmd.va j.val) ((pmd.entry j).map PteTable.va)
  lower : ∀ i pmd, pgd.entry i = some pmd → ∀ j table, pmd.entry j = some table →
    ∀ k, s.entry table.va k.val = table.entry k
  aligned : ∀ va, TableOf pgd va → Aligned va
  distinct : DistinctTables pgd

private theorem vpn2_mod_lt (va : Word) : vpn2 va % 256 < 256 := Nat.mod_lt _ (by decide)
private theorem vpn1_mod_lt (va : Word) : vpn1 va % 512 < 512 := Nat.mod_lt _ (by decide)
private theorem vpn0_mod_lt (va : Word) : vpn0 va % 512 < 512 := Nat.mod_lt _ (by decide)

/-- The slot of a user address. -/
def slotOf (va : Word) : Slot :=
  (⟨vpn2 va % 256, vpn2_mod_lt va⟩, ⟨vpn1 va % 512, vpn1_mod_lt va⟩,
    ⟨vpn0 va % 512, vpn0_mod_lt va⟩)

/-- An address of the user half. -/
def User (va : Word) : Prop := va.toNat < 2 ^ 38

instance (va : Word) : Decidable (User va) := inferInstanceAs (Decidable (_ < _))

theorem vpn_eq (va : Word) : vpn2 va = va.toNat / 2 ^ 30 % 512 ∧ vpn1 va = va.toNat / 2 ^ 21 % 512 ∧
    vpn0 va = va.toNat / 2 ^ 12 % 512 := by
  have mask : (0x1ff#64) = BitVec.ofNat 64 (2 ^ 9 - 1) := rfl
  simp only [vpn2, vpn1, vpn0, mask, toNat_and_lowMask _ (show 9 ≤ 64 by decide),
    BitVec.toNat_ushiftRight, Nat.shiftRight_eq_div_pow]
  exact ⟨rfl, rfl, rfl⟩

theorem slotOf_val {va : Word} (user : User va) :
    (slotOf va).1.val = vpn2 va ∧ (slotOf va).2.1.val = vpn1 va ∧
    (slotOf va).2.2.val = vpn0 va := by
  obtain ⟨first, second, third⟩ := vpn_eq va
  rw [User] at user
  refine ⟨?_, ?_, ?_⟩
  · change vpn2 va % 256 = vpn2 va
    omega
  · change vpn1 va % 512 = vpn1 va
    omega
  · change vpn0 va % 512 = vpn0 va
    omega

/-- Pages have different slots. -/
theorem slotOf_injective {va other : Word} (user : User va) (user' : User other)
    (aligned : Aligned va) (aligned' : Aligned other) (same : slotOf va = slotOf other) :
    va = other := by
  obtain ⟨first, second, third⟩ := slotOf_val user
  obtain ⟨first', second', third'⟩ := slotOf_val user'
  rw [same] at first second third
  obtain ⟨a, b, c⟩ := vpn_eq va
  obtain ⟨a', b', c'⟩ := vpn_eq other
  rw [User] at user user'
  rw [Aligned] at aligned aligned'
  apply BitVec.eq_of_toNat_eq
  omega

/-- What `iterate_page_table` answers about a level-0 entry. -/
def answer (pte : Word) (func : PteFunc) : Word :=
  if present pte then
    match func with
    | .checkCow => if copyOnWrite pte then 1#64 else 0#64
    | .getPa => ptePa pte
    | .getProt => (pte &&& 0x3ff#64) &&& ~~~pteCow
  else 0#64

theorem answer_of_not_present {pte : Word} (absent : present pte = false) (func : PteFunc) :
    answer pte func = 0#64 := by
  unfold answer
  rw [absent]
  rfl

/-- A walk through the words ends at the entry of the represented table. -/
theorem Represents.iteratePageTable {s : PageMemory} {pgd : Pgd} (represents : Represents s pgd)
    {va : Word} (user : User va) (func : PteFunc) :
    s.iteratePageTable s.activeUserPgd va func = answer (pgd.entryAt (slotOf va)) func := by
  obtain ⟨first, second, third⟩ := slotOf_val user
  have upper := represents.upper (slotOf va).1
  rw [first, ← represents.top] at upper
  rw [PageMemory.iteratePageTable]
  cases found : pgd.entry (slotOf va).1 with
  | none =>
    have missing : pgd.entryAt (slotOf va) = 0#64 := by rw [Pgd.entryAt, found]
    rw [found] at upper
    rw [if_pos (show present _ = false from upper), missing, answer_of_not_present not_present_zero]
  | some pmd =>
    rw [found] at upper
    have pmdVa : s.entry s.activeUserPgd (vpn2 va) = makePte (virtToPhys pmd.va) pteV := upper
    have alignedPmd : Aligned pmd.va :=
      represents.aligned _ (.inr ⟨((slotOf va).1, none), by simp [nodeVa, found]⟩)
    have middle := represents.middle _ pmd found (slotOf va).2.1
    rw [second] at middle
    rw [pmdVa, present_upper, if_neg (by decide)]
    simp only [ptePa_upper alignedPmd]
    cases found' : pmd.entry (slotOf va).2.1 with
    | none =>
      have missing : pgd.entryAt (slotOf va) = 0#64 := by simp only [Pgd.entryAt, found, found']
      rw [found'] at middle
      rw [if_pos (show present _ = false from middle), missing,
        answer_of_not_present not_present_zero]
    | some table =>
      have there : pgd.entryAt (slotOf va) = table.entry (slotOf va).2.2 := by
        simp only [Pgd.entryAt, found, found']
      rw [found'] at middle
      have tableVa : s.entry pmd.va (vpn1 va) = makePte (virtToPhys table.va) pteV := middle
      have alignedTable : Aligned table.va :=
        represents.aligned _
          (.inr ⟨((slotOf va).1, some (slotOf va).2.1), by simp [nodeVa, found, found']⟩)
      have lower := represents.lower _ pmd found _ table found' (slotOf va).2.2
      rw [third] at lower
      rw [tableVa, present_upper, if_neg (by decide), there]
      unfold answer
      simp only [ptePa_upper alignedTable, lower]
      cases present (table.entry (slotOf va).2.2) <;> rfl

/-! ## New tables -/

/-- An upper entry that is missing gets an empty table. -/
def withPmd (pgd : Pgd) (i : Fin 256) (va : Word) : Pgd :=
  { pgd with entry := Function.update pgd.entry i (some ⟨va, fun _ => none⟩) }

def withPte (pgd : Pgd) (i : Fin 256) (pmd : PmdTable) (j : Fin 512) (va : Word) : Pgd :=
  let pmd := { pmd with entry := Function.update pmd.entry j (some ⟨va, fun _ => 0#64⟩) }
  { pgd with entry := Function.update pgd.entry i (some pmd) }

private theorem entryAt_withPmd {pgd : Pgd} {i : Fin 256} (va : Word)
    (missing : pgd.entry i = none) : (withPmd pgd i va).entryAt = pgd.entryAt := by
  funext slot
  rcases eq_or_ne slot.1 i with rfl | other
  · simp [Pgd.entryAt, withPmd, missing]
  · simp [Pgd.entryAt, withPmd, other]

private theorem entryAt_withPte {pgd : Pgd} {i : Fin 256} {pmd : PmdTable} {j : Fin 512} (va : Word)
    (found : pgd.entry i = some pmd) (missing : pmd.entry j = none) :
    (withPte pgd i pmd j va).entryAt = pgd.entryAt := by
  funext slot
  rcases eq_or_ne slot.1 i with rfl | otherI
  · rcases eq_or_ne slot.2.1 j with rfl | otherJ
    · simp [Pgd.entryAt, withPte, found, missing]
    · simp [Pgd.entryAt, withPte, found, otherJ]
  · simp [Pgd.entryAt, withPte, otherI]

theorem nodeVa_withPmd {pgd : Pgd} {i : Fin 256} {va : Word} (missing : pgd.entry i = none)
    {node : Node} {there : Word} (here : nodeVa (withPmd pgd i va) node = some there) :
    nodeVa pgd node = some there ∨ node = (i, none) ∧ there = va := by
  obtain ⟨i', j'⟩ := node
  rcases eq_or_ne i' i with rfl | other
  · cases j' with
    | none => exact .inr ⟨rfl, by simpa [nodeVa, withPmd] using here.symm⟩
    | some j' => simp [nodeVa, withPmd] at here
  · left
    cases j' <;> simpa [nodeVa, withPmd, other] using here

theorem nodeVa_withPte {pgd : Pgd} {i : Fin 256} {pmd : PmdTable} {j : Fin 512} {va : Word}
    (found : pgd.entry i = some pmd) {node : Node} {there : Word}
    (here : nodeVa (withPte pgd i pmd j va) node = some there) :
    nodeVa pgd node = some there ∨ node = (i, some j) ∧ there = va := by
  obtain ⟨i', j'⟩ := node
  rcases eq_or_ne i' i with rfl | otherI
  · cases j' with
    | none =>
      left
      simpa [nodeVa, withPte, found] using here
    | some j' =>
      rcases eq_or_ne j' j with rfl | otherJ
      · exact .inr ⟨rfl, by simpa [nodeVa, withPte] using here.symm⟩
      · left
        simpa [nodeVa, withPte, found, otherJ] using here
  · left
    cases j' <;> simpa [nodeVa, withPte, otherI] using here

/-- A table of the new tree is a table of the old one or the new one. -/
theorem distinct_of_added (pgd : Pgd) {pgd' : Pgd} {place : Node} {va : Word}
    (distinct : DistinctTables pgd) (top : pgd'.va = pgd.va) (fresh : ¬ TableOf pgd va)
    (added : ∀ {node there}, nodeVa pgd' node = some there → nodeVa pgd node = some there ∨
      node = place ∧ there = va) :
    DistinctTables pgd' := by
  constructor
  · intro a b there atA atB
    rcases added atA with oldA | ⟨rfl, rfl⟩
    · rcases added atB with oldB | ⟨rfl, rfl⟩
      · exact distinct.1 a b there oldA oldB
      · exact absurd (.inr ⟨a, oldA⟩) fresh
    · rcases added atB with oldB | ⟨rfl, -⟩
      · exact absurd (.inr ⟨b, oldB⟩) fresh
      · rfl
  · intro node here
    rw [top] at here
    rcases added here with old | ⟨-, same⟩
    · exact distinct.2 node old
    · exact fresh (.inl same.symm)

theorem tableOf_of_added (pgd : Pgd) {pgd' : Pgd} {place : Node} {va there : Word}
    (table : TableOf pgd' there) (top : pgd'.va = pgd.va) (added : ∀ {node there},
      nodeVa pgd' node = some there → nodeVa pgd node = some there ∨ node = place ∧ there = va) :
    TableOf pgd there ∨ there = va := by
  rcases table with rfl | ⟨node, here⟩
  · exact .inl (.inl top)
  · rcases added here with old | ⟨-, same⟩
    · exact .inl (.inr ⟨node, old⟩)
    · exact .inr same

/-- The words after a new page was cleared and an upper entry made to point to it. -/
def newTable (s : PageMemory) (page table : Word) (i : ℕ) : PageMemory :=
  (s.memzero page pageSize).setEntry table i (makePte (virtToPhys page) pteV)

theorem entry_newTable (s : PageMemory) {page table other : Word} {i j : ℕ}
    (alignedPage : Aligned page) (aligned : Aligned table) (aligned' : Aligned other)
    (small : i < 512) (small' : j < 512) : (newTable s page table i).entry other j =
      if other = table ∧ j = i then makePte (virtToPhys page) pteV
      else if other = page then 0#64 else s.entry other j := by
  rw [newTable, entry_setEntry _ _ aligned aligned' small small',
    entry_memzero s alignedPage aligned' small']

theorem fin_small {n : ℕ} (bound : n ≤ 512) (i : Fin n) : i.val < 512 := lt_of_lt_of_le i.isLt bound

section Represents

variable {s : PageMemory} {pgd : Pgd}

theorem tableOf_pmd {i : Fin 256} {pmd : PmdTable} (found : pgd.entry i = some pmd) :
    TableOf pgd pmd.va :=
  .inr ⟨(i, none), by simp [nodeVa, found]⟩

theorem tableOf_pte {i : Fin 256} {pmd : PmdTable} {j : Fin 512} {table : PteTable}
    (found : pgd.entry i = some pmd) (found' : pmd.entry j = some table) : TableOf pgd table.va :=
  .inr ⟨(i, some j), by simp [nodeVa, found, found']⟩

theorem top_ne_pmd (distinct : DistinctTables pgd) {i : Fin 256} {pmd : PmdTable}
    (found : pgd.entry i = some pmd) :
    pmd.va ≠ pgd.va := by
  intro same
  exact distinct.2 (i, none) (by simp [nodeVa, found, same])

theorem top_ne_pte (distinct : DistinctTables pgd) {i : Fin 256} {pmd : PmdTable} {j : Fin 512}
    {table : PteTable} (found : pgd.entry i = some pmd) (found' : pmd.entry j = some table) :
    table.va ≠ pgd.va := by
  intro same
  exact distinct.2 (i, some j) (by simp [nodeVa, found, found', same])

private theorem pmd_unique (distinct : DistinctTables pgd) {i i' : Fin 256} {pmd pmd' : PmdTable}
    (found : pgd.entry i = some pmd) (found' : pgd.entry i' = some pmd')
    (same : pmd.va = pmd'.va) : i = i' := by
  have places := distinct.1 (i, none) (i', none) pmd.va (by simp [nodeVa, found])
    (by simp [nodeVa, found', same])
  exact (Prod.mk.inj places).1

theorem pte_unique (distinct : DistinctTables pgd) {i i' : Fin 256} {pmd pmd' : PmdTable}
    {j j' : Fin 512} {table table' : PteTable} (found : pgd.entry i = some pmd)
    (found' : pgd.entry i' = some pmd') (at_j : pmd.entry j = some table)
    (at_j' : pmd'.entry j' = some table') (same : table.va = table'.va) :
    i = i' ∧ j = j' := by
  have places := distinct.1 (i, some j) (i', some j') table.va (by simp [nodeVa, found, at_j])
    (by simp [nodeVa, found', at_j', same])
  obtain ⟨first, second⟩ := Prod.mk.inj places
  exact ⟨first, Option.some.inj second⟩

theorem pmd_ne_pte (distinct : DistinctTables pgd) {i i' : Fin 256} {pmd pmd' : PmdTable}
    {j : Fin 512} {table : PteTable} (found : pgd.entry i = some pmd)
    (found' : pgd.entry i' = some pmd') (found'' : pmd'.entry j = some table) :
    table.va ≠ pmd.va := by
  intro same
  have places := distinct.1 (i', some j) (i, none) table.va (by simp [nodeVa, found', found''])
    (by simp [nodeVa, found, same])
  exact absurd (Prod.mk.inj places).2 (by simp)

/-- A cleared page under a missing upper entry is an empty middle table. -/
theorem Represents.withPmd (represents : Represents s pgd) {i : Fin 256} {page : Word}
    (missing : pgd.entry i = none) (alignedPage : Aligned page) (fresh : ¬ TableOf pgd page) :
    Represents (newTable s page pgd.va i.val) (withPmd pgd i page) := by
  have alignedTop : Aligned pgd.va := represents.aligned _ (.inl rfl)
  have read : ∀ {other : Word} {j : ℕ}, Aligned other → j < 512 →
      (newTable s page pgd.va i.val).entry other j =
      if other = pgd.va ∧ j = i.val then makePte (virtToPhys page) pteV
      else if other = page then 0#64 else s.entry other j :=
    fun aligned small =>
      entry_newTable s alignedPage alignedTop aligned (fin_small (by decide) i) small
  have added : ∀ {node there}, nodeVa (PageWalks.withPmd pgd i page) node = some there →
      nodeVa pgd node = some there ∨ node = (i, none) ∧ there = page := nodeVa_withPmd missing
  have old : ∀ {other : Word} {j : ℕ}, TableOf pgd other → other ≠ pgd.va → j < 512 →
      (newTable s page pgd.va i.val).entry other j = s.entry other j := by
    intro other j table notTop small
    have notPage : other ≠ page := fun same => fresh (same ▸ table)
    rw [read (represents.aligned _ table) small, if_neg (fun both => notTop both.1), if_neg notPage]
  refine ⟨represents.top, fun i' => ?_, fun i' pmd found j => ?_,
    fun i' pmd found j table found' k => ?_, fun va table => ?_,
    distinct_of_added pgd represents.distinct rfl fresh added⟩
  · change Points ((newTable s page pgd.va i.val).entry pgd.va i'.val) _
    rw [read alignedTop (fin_small (by decide) i')]
    rcases eq_or_ne i' i with rfl | other
    · rw [if_pos ⟨rfl, rfl⟩]
      simp [PageWalks.withPmd, Points]
    · rw [if_neg (fun both => other (Fin.val_injective both.2)),
        if_neg (fun same => fresh (.inl same.symm))]
      simpa [PageWalks.withPmd, other] using represents.upper i'
  · rcases eq_or_ne i' i with rfl | other
    · obtain rfl : ⟨page, fun _ => none⟩ = pmd := by simpa [PageWalks.withPmd] using found
      change Points ((newTable s page pgd.va i'.val).entry page j.val) none
      rw [read alignedPage j.isLt, if_neg (fun both => fresh (.inl both.1)), if_pos rfl]
      exact not_present_zero
    · have before : pgd.entry i' = some pmd := by simpa [PageWalks.withPmd, other] using found
      rw [old (tableOf_pmd before) (top_ne_pmd represents.distinct before) j.isLt]
      exact represents.middle i' pmd before j
  · rcases eq_or_ne i' i with rfl | other
    · obtain rfl : ⟨page, fun _ => none⟩ = pmd := by simpa [PageWalks.withPmd] using found
      cases found'
    · have before : pgd.entry i' = some pmd := by simpa [PageWalks.withPmd, other] using found
      rw [old (tableOf_pte before found') (top_ne_pte represents.distinct before found') k.isLt]
      exact represents.lower i' pmd before j table found' k
  · rcases tableOf_of_added pgd table rfl added with before | rfl
    · exact represents.aligned va before
    · exact alignedPage

/-- A cleared page under a missing middle entry is an empty level-0 table. -/
theorem Represents.withPte (represents : Represents s pgd) {i : Fin 256} {pmd : PmdTable}
    {j : Fin 512} {page : Word} (found : pgd.entry i = some pmd) (missing : pmd.entry j = none)
    (alignedPage : Aligned page) (fresh : ¬ TableOf pgd page) :
    Represents (newTable s page pmd.va j.val) (withPte pgd i pmd j page) := by
  have alignedPmd : Aligned pmd.va := represents.aligned _ (tableOf_pmd found)
  have read : ∀ {other : Word} {k : ℕ}, Aligned other → k < 512 →
      (newTable s page pmd.va j.val).entry other k =
      if other = pmd.va ∧ k = j.val then makePte (virtToPhys page) pteV
      else if other = page then 0#64 else s.entry other k :=
    fun aligned small => entry_newTable s alignedPage alignedPmd aligned j.isLt small
  have added : ∀ {node there}, nodeVa (PageWalks.withPte pgd i pmd j page) node = some there →
      nodeVa pgd node = some there ∨ node = (i, some j) ∧ there = page := nodeVa_withPte found
  have old : ∀ {other : Word} {k : ℕ}, TableOf pgd other → other ≠ pmd.va ∨ k ≠ j.val → k < 512 →
      (newTable s page pmd.va j.val).entry other k = s.entry other k := by
    intro other k table elsewhere small
    have notPage : other ≠ page := fun same => fresh (same ▸ table)
    rw [read (represents.aligned _ table) small, if_neg (by tauto), if_neg notPage]
  refine ⟨represents.top, fun i' => ?_, fun i' pmd' found' j' => ?_,
    fun i' pmd' found' j' table found'' k => ?_, fun va table => ?_,
    distinct_of_added pgd represents.distinct rfl fresh added⟩
  · change Points ((newTable s page pmd.va j.val).entry pgd.va i'.val) _
    rw [old (.inl rfl) (.inl (top_ne_pmd represents.distinct found).symm)
      (fin_small (by decide) i')]
    rcases eq_or_ne i' i with rfl | other
    · simpa [PageWalks.withPte, found] using represents.upper i'
    · simpa [PageWalks.withPte, other] using represents.upper i'
  · rcases eq_or_ne i' i with rfl | other
    · obtain rfl :
        { pmd with entry := Function.update pmd.entry j (some ⟨page, fun _ => 0#64⟩) } = pmd' := by
        simpa [PageWalks.withPte] using found'
      change Points ((newTable s page pmd.va j.val).entry pmd.va j'.val) _
      rcases eq_or_ne j' j with rfl | otherJ
      · rw [read alignedPmd j'.isLt, if_pos ⟨rfl, rfl⟩]
        simp [Points]
      · rw [old (tableOf_pmd found) (.inr (fun same => otherJ (Fin.val_injective same))) j'.isLt]
        simpa [otherJ] using represents.middle i' pmd found j'
    · have before : pgd.entry i' = some pmd' := by simpa [PageWalks.withPte, other] using found'
      rw [old (tableOf_pmd before)
        (.inl fun same => other (pmd_unique represents.distinct before found same)) j'.isLt]
      exact represents.middle i' pmd' before j'
  · rcases eq_or_ne i' i with rfl | other
    · obtain rfl :
        { pmd with entry := Function.update pmd.entry j (some ⟨page, fun _ => 0#64⟩) } = pmd' := by
        simpa [PageWalks.withPte] using found'
      rcases eq_or_ne j' j with rfl | otherJ
      · obtain rfl : ⟨page, fun _ => 0#64⟩ = table := by simpa using found''
        have notPmd : page ≠ pmd.va := fun same => fresh (same ▸ tableOf_pmd found)
        rw [read alignedPage k.isLt, if_neg (fun both => notPmd both.1), if_pos rfl]
      · have before : pmd.entry j' = some table := by simpa [otherJ] using found''
        rw [old (tableOf_pte found before)
          (.inl (pmd_ne_pte represents.distinct found found before)) k.isLt]
        exact represents.lower i' pmd found j' table before k
    · have before : pgd.entry i' = some pmd' := by simpa [PageWalks.withPte, other] using found'
      rw [old (tableOf_pte before found'')
        (.inl (pmd_ne_pte represents.distinct found before found'')) k.isLt]
      exact represents.lower i' pmd' before j' table found'' k
  · rcases tableOf_of_added pgd table rfl added with before | rfl
    · exact represents.aligned va before
    · exact alignedPage

/-- Where the path is there, a new entry adds no table. -/
theorem nodeVa_of_withPath {slot : Slot} {pmd : PmdTable} {table : PteTable} {pte : Word}
    (found : pgd.entry slot.1 = some pmd) (found' : pmd.entry slot.2.1 = some table) {node : Node}
    {there : Word} (here : nodeVa (PageTables.withPath pgd slot pmd table pte) node = some there) :
    nodeVa pgd node = some there := by
  have upper : OnPath (pgd.entry slot.1) ⟨0#64, fun _ => none⟩ pmd := .inl found
  have lower : OnPath (pmd.entry slot.2.1) ⟨0#64, fun _ => 0#64⟩ table := .inl found'
  rcases nodeVa_withPath upper lower here with same | ⟨missing, -⟩ | ⟨missing, -⟩
  · exact same
  · exact absurd (found.symm.trans missing) (by simp)
  · exact absurd (found'.symm.trans missing) (by simp)

/-- Writing a level-0 entry. -/
theorem Represents.withPath (represents : Represents s pgd) {slot : Slot} {pmd : PmdTable}
    {table : PteTable} (found : pgd.entry slot.1 = some pmd)
    (found' : pmd.entry slot.2.1 = some table) (pte : Word) :
    Represents (s.setEntry table.va slot.2.2.val pte) (withPath pgd slot pmd table pte) := by
  obtain ⟨i, j, k⟩ := slot
  have alignedTable : Aligned table.va := represents.aligned _ (tableOf_pte found found')
  have old : ∀ {other : Word} {n : ℕ}, TableOf pgd other → other ≠ table.va ∨ n ≠ k.val → n < 512 →
      (s.setEntry table.va k.val pte).entry other n = s.entry other n := by
    intro other n isTable elsewhere small
    rw [entry_setEntry _ _ alignedTable (represents.aligned _ isTable) k.isLt small,
      if_neg (by tauto)]
  have added : ∀ {node there},
      nodeVa (PageTables.withPath pgd (i, j, k) pmd table pte) node = some there →
      nodeVa pgd node = some there := nodeVa_of_withPath found found'
  refine ⟨represents.top, fun i' => ?_, fun i' pmd' here j' => ?_,
    fun i' pmd' here j' table' here' n => ?_, fun va isTable => ?_,
    fun a b va atA atB => represents.distinct.1 a b va (added atA) (added atB),
    fun node here => represents.distinct.2 node (added here)⟩
  · change Points ((s.setEntry table.va k.val pte).entry pgd.va i'.val) _
    rw [old (.inl rfl) (.inl (top_ne_pte represents.distinct found found').symm)
      (fin_small (by decide) i')]
    rcases eq_or_ne i' i with rfl | other
    · simpa [PageTables.withPath, found] using represents.upper i'
    · simpa [PageTables.withPath, other] using represents.upper i'
  · rcases eq_or_ne i' i with rfl | other
    · obtain ⟨va, entries⟩ := pmd'
      obtain ⟨rfl, rfl⟩ :=
        PmdTable.mk.inj (Option.some.inj (by simpa [PageTables.withPath] using here))
      rw [old (tableOf_pmd found)
        (.inl (pmd_ne_pte represents.distinct found found found').symm) j'.isLt]
      rcases eq_or_ne j' j with rfl | otherJ
      · simpa [found'] using represents.middle i' pmd found j'
      · simpa [otherJ] using represents.middle i' pmd found j'
    · have before : pgd.entry i' = some pmd' := by simpa [PageTables.withPath, other] using here
      rw [old (tableOf_pmd before)
        (.inl (pmd_ne_pte represents.distinct before found found').symm) j'.isLt]
      exact represents.middle i' pmd' before j'
  · rcases eq_or_ne i' i with rfl | other
    · obtain ⟨va, entries⟩ := pmd'
      obtain ⟨rfl, rfl⟩ :=
        PmdTable.mk.inj (Option.some.inj (by simpa [PageTables.withPath] using here))
      rcases eq_or_ne j' j with rfl | otherJ
      · obtain ⟨va, entries⟩ := table'
        obtain ⟨rfl, rfl⟩ := PteTable.mk.inj (Option.some.inj (by simpa using here'))
        rcases eq_or_ne n k with rfl | otherK
        · rw [entry_setEntry _ _ alignedTable alignedTable n.isLt n.isLt, if_pos ⟨rfl, rfl⟩]
          exact (Function.update_self n pte table.entry).symm
        · rw [old (tableOf_pte found found')
            (.inr fun same => otherK (Fin.val_injective same)) n.isLt]
          exact (represents.lower i' pmd found j' table found' n).trans
            (Function.update_of_ne otherK _ _).symm
      · have before : pmd.entry j' = some table' := by simpa [otherJ] using here'
        have elsewhere : table'.va ≠ table.va := fun same =>
          otherJ (pte_unique represents.distinct found found before found' same).2
        rw [old (tableOf_pte found before) (.inl elsewhere) n.isLt]
        exact represents.lower i' pmd found j' table' before n
    · have before : pgd.entry i' = some pmd' := by simpa [PageTables.withPath, other] using here
      have elsewhere : table'.va ≠ table.va := fun same =>
        other (pte_unique represents.distinct before found here' found' same).1
      rw [old (tableOf_pte before here') (.inl elsewhere) n.isLt]
      exact represents.lower i' pmd' before j' table' here' n
  · refine represents.aligned va ?_
    rcases isTable with rfl | ⟨node, here⟩
    · exact .inl rfl
    · exact .inr ⟨node, added here⟩

end Represents

/-! ## One walk -/

/-- The calls of `allocate` from `first` up to `last` returned page addresses that differ from one
another and from the tables in use. -/
structure Fresh (allocate : ℕ → Option Word) (first last : ℕ) (tables : List Word) : Prop where
  page : ∀ n page, first ≤ n → n < last → allocate n = some page → Aligned page ∧ page ∉ tables
  distinct : ∀ m n page, first ≤ m → m < last → first ≤ n → n < last → allocate m = some page →
    allocate n = some page → m = n

/-- What the calls returned. -/
def taken (allocate : ℕ → Option Word) (first last : ℕ) : List Word :=
  (List.range' first (last - first)).filterMap allocate

theorem mem_taken {allocate : ℕ → Option Word} {first last : ℕ} {page : Word} :
    page ∈ taken allocate first last ↔ ∃ n, first ≤ n ∧ n < last ∧ allocate n = some page := by
  simp only [taken, List.mem_filterMap, List.mem_range'_1]
  constructor
  · rintro ⟨n, ⟨low, high⟩, returned⟩
    exact ⟨n, low, by omega, returned⟩
  · rintro ⟨n, low, high, returned⟩
    exact ⟨n, ⟨low, by omega⟩, returned⟩

theorem Fresh.left {allocate : ℕ → Option Word} {first mid last : ℕ} {tables : List Word}
    (fresh : Fresh allocate first last tables) (le : mid ≤ last) :
    Fresh allocate first mid tables where
  page n page low high := fresh.page n page low (by omega)
  distinct m n page low high low' high' := fresh.distinct m n page low (by omega) low' (by omega)

/-- The later calls are fresh also with regard to the tables that the earlier ones returned. -/
theorem Fresh.right {allocate : ℕ → Option Word} {first mid last : ℕ} {tables : List Word}
    (fresh : Fresh allocate first last tables) (le : first ≤ mid) :
    Fresh allocate mid last (tables ++ taken allocate first mid) where
  page n page low high returned := by
    obtain ⟨aligned, notOld⟩ := fresh.page n page (by omega) high returned
    refine ⟨aligned, fun member => ?_⟩
    rcases List.mem_append.mp member with old | new
    · exact notOld old
    · obtain ⟨m, low', high', returned'⟩ := mem_taken.mp new
      have same := fresh.distinct m n page low' (by omega) (by omega) high returned' returned
      omega
  distinct m n page low high low' high' := fresh.distinct m n page (by omega) high (by omega) high'

/-- Memory represents the table, all of whose pages are among the given ones. -/
structure Holds (s : PageMemory) (pgd : Pgd) (tables : List Word) : Prop where
  represents : Represents s pgd
  known : ∀ {va}, TableOf pgd va → va ∈ tables

/-- A level of the walk whose entry is there changes nothing. -/
theorem walkTable_present {s : PageMemory} {table va : Word} {vpn : ℕ} (aligned : Aligned va)
    (entry : s.entry table vpn = makePte (virtToPhys va) pteV) :
    s.walkTable table vpn = some (s, va) := by
  rw [PageMemory.walkTable, entry, if_pos (present_upper _), ptePa_upper aligned]

/-- A level whose entry is missing takes the next page that `allocate` returns. -/
theorem walkTable_missing {s : PageMemory} {table : Word} {vpn : ℕ}
    (missing : present (s.entry table vpn) = false) {t : PageMemory} {va : Word}
    (result : s.walkTable table vpn = some (t, va)) :
    ∃ page, s.allocate s.calls = some page ∧
      t = newTable { s with calls := s.calls + 1 } page table vpn ∧
      va = physToVirt (ptePa (makePte (virtToPhys page) pteV)) := by
  rw [PageMemory.walkTable, missing, if_neg (by decide)] at result
  obtain ⟨page, returned, same⟩ := Option.map_eq_some_iff.mp result
  obtain ⟨rfl, rfl⟩ := Prod.mk.inj same
  refine ⟨page, returned, rfl, ?_⟩
  rw [entry_setEntry_self]

/-- Time passes for the allocator only. -/
structure Advances (s t : PageMemory) : Prop where
  calls : s.calls ≤ t.calls
  allocate : t.allocate = s.allocate
  activeUserPgd : t.activeUserPgd = s.activeUserPgd

theorem Advances.trans {s t u : PageMemory} (first : Advances s t) (second : Advances t u) :
    Advances s u :=
  ⟨first.calls.trans second.calls, second.allocate.trans first.allocate,
    second.activeUserPgd.trans first.activeUserPgd⟩

theorem walkTable_advances {s t : PageMemory} {table va : Word} {vpn : ℕ}
    (result : s.walkTable table vpn = some (t, va)) : Advances s t := by
  cases there : present (s.entry table vpn) with
  | true =>
    rw [PageMemory.walkTable, there, if_pos rfl] at result
    obtain ⟨rfl, -⟩ := Prod.mk.inj (Option.some.inj result)
    exact ⟨le_refl _, rfl, rfl⟩
  | false =>
    obtain ⟨page, -, rfl, -⟩ := walkTable_missing there result
    exact ⟨Nat.le_succ _, rfl, rfl⟩

theorem pagewalk_advances {s t : PageMemory} {va pa prot : Word}
    (result : s.pagewalk va pa prot = some t) :
    Advances s t := by
  obtain ⟨⟨first, pmd⟩, upper, rest⟩ := Option.bind_eq_some_iff.mp result
  obtain ⟨⟨second, pte⟩, lower, rest⟩ := Option.bind_eq_some_iff.mp rest
  obtain rfl := Option.some.inj rest
  exact (walkTable_advances upper).trans ((walkTable_advances lower).trans ⟨le_refl _, rfl, rfl⟩)

theorem taken_self (allocate : ℕ → Option Word) (first : ℕ) : taken allocate first first = [] := by
  rw [taken, Nat.sub_self]
  rfl

theorem taken_one {allocate : ℕ → Option Word} {first : ℕ} {page : Word}
    (returned : allocate first = some page) :
    taken allocate first (first + 1) = [page] := by
  rw [taken, Nat.add_sub_cancel_left]
  simp [List.range', returned]

theorem taken_append (allocate : ℕ → Option Word) {first mid last : ℕ}
    (low : first ≤ mid) (high : mid ≤ last) :
    taken allocate first last = taken allocate first mid ++ taken allocate mid last := by
  have split : List.range' first (last - first) =
      List.range' first (mid - first) ++ List.range' mid (last - mid) := by
    have lengths : List.range' first (mid - first) ++
        List.range' (first + 1 * (mid - first)) (last - mid) =
        List.range' first (mid - first + (last - mid)) := List.range'_append
    rw [Nat.one_mul, Nat.add_sub_cancel' low, show mid - first + (last - mid) =
      last - first by omega] at lengths
    exact lengths.symm
  rw [taken, split, List.filterMap_append]
  rfl

/-- What the first level of a walk leaves. -/
theorem Holds.upper {s t : PageMemory} {pgd : Pgd} {tables : List Word} (holds : Holds s pgd tables)
    {i : Fin 256} {va : Word} (result : s.walkTable pgd.va i.val = some (t, va))
    (fresh : Fresh s.allocate s.calls t.calls tables) :
    ∃ pgd' pmd, Holds t pgd' (tables ++ taken s.allocate s.calls t.calls) ∧
      pgd'.entry i = some pmd ∧ pmd.va = va ∧
      pgd'.entryAt = pgd.entryAt := by
  obtain ⟨represents, known⟩ := holds
  have upper := represents.upper i
  cases found : pgd.entry i with
  | some pmd =>
    rw [found] at upper
    rw [walkTable_present (represents.aligned _ (tableOf_pmd found)) upper] at result
    obtain ⟨rfl, rfl⟩ := Prod.mk.inj (Option.some.inj result)
    refine ⟨pgd, pmd, ⟨represents, fun table => ?_⟩, found, rfl, rfl⟩
    rw [taken_self, List.append_nil]
    exact known table
  | none =>
    rw [found] at upper
    obtain ⟨page, returned, rfl, rfl⟩ := walkTable_missing upper result
    obtain ⟨aligned, notOld⟩ := fresh.page s.calls page (le_refl _) (Nat.lt_succ_self _) returned
    have new : ¬ TableOf pgd page := fun table => notOld (known table)
    have later := represents.withPmd found aligned new
    refine ⟨withPmd pgd i page, ⟨page, fun _ => none⟩,
      ⟨⟨later.top, later.upper, later.middle, later.lower, later.aligned, later.distinct⟩,
        fun table => ?_⟩, Function.update_self _ _ _, (ptePa_upper aligned).symm,
      entryAt_withPmd page found⟩
    change _ ∈ tables ++ taken s.allocate s.calls (s.calls + 1)
    rw [taken_one returned]
    rcases tableOf_of_added pgd table rfl (nodeVa_withPmd found) with old | rfl
    · exact List.mem_append_left _ (known old)
    · exact List.mem_append_right _ List.mem_cons_self

/-- What the second level of a walk leaves. -/
theorem Holds.middle {s t : PageMemory} {pgd : Pgd} {tables : List Word}
    (holds : Holds s pgd tables) {i : Fin 256} {pmd : PmdTable} {j : Fin 512} {va : Word}
    (found : pgd.entry i = some pmd) (result : s.walkTable pmd.va j.val = some (t, va))
    (fresh : Fresh s.allocate s.calls t.calls tables) :
    ∃ pgd' pmd' table, Holds t pgd' (tables ++ taken s.allocate s.calls t.calls) ∧
      pgd'.entry i = some pmd' ∧
      pmd'.entry j = some table ∧ table.va = va ∧ pgd'.entryAt = pgd.entryAt := by
  obtain ⟨represents, known⟩ := holds
  have middle := represents.middle i pmd found j
  cases found' : pmd.entry j with
  | some table =>
    rw [found'] at middle
    rw [walkTable_present (represents.aligned _ (tableOf_pte found found')) middle] at result
    obtain ⟨rfl, rfl⟩ := Prod.mk.inj (Option.some.inj result)
    refine ⟨pgd, pmd, table, ⟨represents, fun table => ?_⟩, found, found', rfl, rfl⟩
    rw [taken_self, List.append_nil]
    exact known table
  | none =>
    rw [found'] at middle
    obtain ⟨page, returned, rfl, rfl⟩ := walkTable_missing middle result
    obtain ⟨aligned, notOld⟩ := fresh.page s.calls page (le_refl _) (Nat.lt_succ_self _) returned
    have new : ¬ TableOf pgd page := fun table => notOld (known table)
    have later := represents.withPte found found' aligned new
    refine ⟨withPte pgd i pmd j page, _, ⟨page, fun _ => 0#64⟩,
      ⟨⟨later.top, later.upper, later.middle, later.lower, later.aligned, later.distinct⟩,
        fun table => ?_⟩, Function.update_self _ _ _, Function.update_self _ _ _,
      (ptePa_upper aligned).symm, entryAt_withPte page found found'⟩
    change _ ∈ tables ++ taken s.allocate s.calls (s.calls + 1)
    rw [taken_one returned]
    rcases tableOf_of_added pgd table rfl (nodeVa_withPte found) with old | rfl
    · exact List.mem_append_left _ (known old)
    · exact List.mem_append_right _ List.mem_cons_self

/-- A walk in the user half updates the represented table at one slot. -/
theorem Holds.pagewalk {s t : PageMemory} {pgd : Pgd} {tables : List Word}
    (holds : Holds s pgd tables) {va pa prot : Word} (user : User va)
    (result : s.pagewalk va pa prot = some t) (fresh : Fresh s.allocate s.calls t.calls tables) :
    ∃ pgd', Holds t pgd' (tables ++ taken s.allocate s.calls t.calls) ∧
      pgd'.entryAt = Function.update pgd.entryAt (slotOf va) (makePte pa (prot ||| pteV)) := by
  obtain ⟨first, second, third⟩ := slotOf_val user
  have notKernel : ¬ va ≥ pageOffset := by
    change ¬ pageOffset.toNat ≤ va.toNat
    have offset : pageOffset.toNat = 0xffffffc000000000 := rfl
    rw [User] at user
    omega
  rw [PageMemory.pagewalk] at result
  simp only [if_neg notKernel] at result
  obtain ⟨⟨u, pmdVa⟩, upperResult, rest⟩ := Option.bind_eq_some_iff.mp result
  obtain ⟨⟨v, pteVa⟩, lowerResult, rest⟩ := Option.bind_eq_some_iff.mp rest
  have toU := walkTable_advances upperResult
  have toV := walkTable_advances lowerResult
  have sameCalls : t.calls = v.calls := by
    rw [← Option.some.inj rest]
    rfl
  rw [sameCalls] at fresh ⊢
  rw [holds.represents.top, ← first] at upperResult
  obtain ⟨pgd₁, pmd₁, holds₁, found₁, rfl, entries₁⟩ :=
    holds.upper upperResult (fresh.left toV.calls)
  have fresh₁ : Fresh u.allocate u.calls v.calls (tables ++ taken s.allocate s.calls u.calls) := by
    rw [toU.allocate]
    exact fresh.right toU.calls
  rw [← second] at lowerResult
  obtain ⟨pgd₂, pmd₂, table, holds₂, found₂, foundTable, rfl, entries₂⟩ :=
    holds₁.middle found₁ lowerResult fresh₁
  rw [List.append_assoc, toU.allocate, ← taken_append s.allocate toU.calls toV.calls] at holds₂
  have final := Option.some.inj rest
  rw [← third] at final
  refine ⟨withPath pgd₂ (slotOf va) pmd₂ table (makePte pa (prot ||| pteV)), ?_, ?_⟩
  · have written := holds₂.represents.withPath found₂ foundTable (makePte pa (prot ||| pteV))
    rw [final] at written
    refine ⟨written, fun isTable => holds₂.known ?_⟩
    rcases isTable with rfl | ⟨node, here⟩
    · exact .inl rfl
    · exact .inr ⟨node, nodeVa_of_withPath found₂ foundTable here⟩
  · have upper : OnPath (pgd₂.entry (slotOf va).1) ⟨0#64, fun _ => none⟩ pmd₂ := .inl found₂
    have lower : OnPath (pmd₂.entry (slotOf va).2.1) ⟨0#64, fun _ => 0#64⟩ table := .inl foundTable
    rw [entryAt_withPath upper lower, entries₂, entries₁]

/-! ## The loop -/

private theorem mapPagesFrom_advances {s t : PageMemory} {va pa prot : Word} {i rounds : ℕ}
    (result : s.mapPagesFrom va pa prot i rounds = some t) : Advances s t := by
  induction rounds generalizing s i with
  | zero =>
    obtain rfl := Option.some.inj result
    exact ⟨le_refl _, rfl, rfl⟩
  | succ rounds ih =>
    obtain ⟨u, first, rest⟩ := Option.bind_eq_some_iff.mp result
    exact (pagewalk_advances first).trans (ih rest)

theorem toNat_offset {va : Word} {i : ℕ} (bound : va.toNat + i < 2 ^ 64) :
    (va + BitVec.ofNat 64 i).toNat = va.toNat + i := by
  rw [BitVec.toNat_add, BitVec.toNat_ofNat]
  omega

/-- The loop writes one entry for each of its pages and no other. -/
theorem Holds.mapPagesFrom {s t : PageMemory} {pgd : Pgd} {tables : List Word}
    (holds : Holds s pgd tables) {va pa prot : Word} {i rounds : ℕ}
    (user : va.toNat + i + 4096 * rounds ≤ 2 ^ 38) (aligned : (va.toNat + i) % 4096 = 0)
    (result : s.mapPagesFrom va pa prot i rounds = some t)
    (fresh : Fresh s.allocate s.calls t.calls tables) :
    ∃ pgd', Holds t pgd' (tables ++ taken s.allocate s.calls t.calls) ∧
      (∀ k < rounds, pgd'.entryAt (slotOf (va + BitVec.ofNat 64 (i + 4096 * k))) =
        makePte (pa + BitVec.ofNat 64 (i + 4096 * k)) (prot ||| pteV)) ∧
      ∀ slot, (∀ k < rounds, slot ≠ slotOf (va + BitVec.ofNat 64 (i + 4096 * k))) →
        pgd'.entryAt slot = pgd.entryAt slot := by
  induction rounds generalizing s pgd tables i with
  | zero =>
    obtain rfl := Option.some.inj result
    rw [taken_self, List.append_nil]
    exact ⟨pgd, holds, fun k low => absurd low (Nat.not_lt_zero k), fun slot _ => rfl⟩
  | succ rounds ih =>
    obtain ⟨u, walk, rest⟩ := Option.bind_eq_some_iff.mp result
    have toU := pagewalk_advances walk
    have toT := mapPagesFrom_advances rest
    have place : ∀ k ≤ rounds, (va + BitVec.ofNat 64 (i + 4096 * k)).toNat =
        va.toNat + (i + 4096 * k) :=
      fun k le => toNat_offset (by omega)
    have userAt : ∀ k ≤ rounds, User (va + BitVec.ofNat 64 (i + 4096 * k)) := by
      intro k le
      rw [User, place k le]
      omega
    have alignedAt : ∀ k ≤ rounds, Aligned (va + BitVec.ofNat 64 (i + 4096 * k)) := by
      intro k le
      rw [Aligned, place k le]
      omega
    have here := userAt 0 (Nat.zero_le _)
    have alignedHere := alignedAt 0 (Nat.zero_le _)
    rw [Nat.mul_zero, Nat.add_zero] at here alignedHere
    obtain ⟨pgd₁, holds₁, entries₁⟩ := holds.pagewalk here walk (fresh.left toT.calls)
    have freshRest :
        Fresh u.allocate u.calls t.calls (tables ++ taken s.allocate s.calls u.calls) := by
      rw [toU.allocate]
      exact fresh.right toU.calls
    obtain ⟨pgd₂, holds₂, written, kept⟩ := ih holds₁ (by omega) (by omega) rest freshRest
    rw [List.append_assoc, toU.allocate, ← taken_append s.allocate toU.calls toT.calls] at holds₂
    have shift : ∀ k, i + 4096 + 4096 * k = i + 4096 * (k + 1) := fun k => by omega
    simp only [shift] at written kept
    refine ⟨pgd₂, holds₂, fun k below => ?_, fun slot elsewhere => ?_⟩
    · cases k with
      | zero =>
        rw [Nat.mul_zero, Nat.add_zero, kept, entries₁, Function.update_self]
        intro k below same
        have pages :=
          slotOf_injective here (userAt (k + 1) below) alignedHere (alignedAt (k + 1) below) same
        have values := congrArg BitVec.toNat pages
        rw [place (k + 1) below, toNat_offset (by omega)] at values
        omega
      | succ k => exact written k (by omega)
    · rw [kept slot fun k below => elsewhere (k + 1) (by omega), entries₁, Function.update_of_ne]
      simpa using elsewhere 0 (Nat.succ_pos _)

private theorem pagewalk_isSome {s : PageMemory}
    (supplied : ∀ n, (s.allocate n).isSome) (va pa prot : Word) :
    ∃ t, s.pagewalk va pa prot = some t := by
  have level : ∀ {u : PageMemory} (table : Word) (vpn : ℕ), u.allocate = s.allocate →
      ∃ t va, u.walkTable table vpn = some (t, va) := by
    intro u table vpn same
    obtain ⟨page, returned⟩ := Option.isSome_iff_exists.mp (supplied u.calls)
    rw [PageMemory.walkTable, same, returned]
    split
    · exact ⟨_, _, rfl⟩
    · exact ⟨_, _, rfl⟩
  obtain ⟨u, pmd, upper⟩ :=
    level (if va ≥ pageOffset then s.kernelPgd else s.activeUserPgd) (vpn2 va) rfl
  obtain ⟨v, pte, lower⟩ := level (u := u) pmd (vpn1 va) (walkTable_advances upper).allocate
  exact ⟨_, Option.bind_eq_some_iff.mpr ⟨_, upper, Option.bind_eq_some_iff.mpr ⟨_, lower, rfl⟩⟩⟩

private theorem mapPagesFrom_isSome {s : PageMemory} (supplied : ∀ n, (s.allocate n).isSome)
    (va pa prot : Word) (i rounds : ℕ) :
    ∃ t, s.mapPagesFrom va pa prot i rounds = some t := by
  induction rounds generalizing s i with
  | zero => exact ⟨s, rfl⟩
  | succ rounds ih =>
    obtain ⟨u, walk⟩ :=
      pagewalk_isSome supplied (va + BitVec.ofNat 64 i) (pa + BitVec.ofNat 64 i) prot
    obtain ⟨t, rest⟩ := ih (s := u) (by rwa [(pagewalk_advances walk).allocate]) (i + 4096)
    exact ⟨t, Option.bind_eq_some_iff.mpr ⟨u, walk, rest⟩⟩

/-! ## Tables that walks build -/

/-- The user tables that walks build from a cleared top-level page, with the pages they take. In
between, everything but their pages may change. -/
inductive Built : PageMemory → List Word → Prop
  | empty {s : PageMemory} (aligned : Aligned s.activeUserPgd)
      (cleared : ∀ i < 256, present (s.entry s.activeUserPgd i) = false) : Built s [s.activeUserPgd]
  | walk {s t : PageMemory} {tables : List Word} {va pa prot : Word}
      (built : Built s tables) (user : User va)
      (result : s.pagewalk va pa prot = some t) (fresh : Fresh s.allocate s.calls t.calls tables) :
      Built t (tables ++ taken s.allocate s.calls t.calls)
  | other {s t : PageMemory} {tables : List Word} (built : Built s tables)
      (top : t.activeUserPgd = s.activeUserPgd)
      (kept : ∀ table ∈ tables, ∀ i < 512, t.entry table i = s.entry table i) : Built t tables

theorem Holds.congr {s t : PageMemory} {pgd : Pgd} {tables : List Word} (holds : Holds s pgd tables)
    (top : t.activeUserPgd = s.activeUserPgd)
    (kept : ∀ table ∈ tables, ∀ i < 512, t.entry table i = s.entry table i) :
    Holds t pgd tables := by
  obtain ⟨represents, known⟩ := holds
  refine ⟨⟨top.trans represents.top, fun i => ?_, fun i pmd found j => ?_,
    fun i pmd found j table found' k => ?_, represents.aligned, represents.distinct⟩, known⟩
  · rw [kept _ (known (.inl rfl)) _ (fin_small (by decide) i)]
    exact represents.upper i
  · rw [kept _ (known (tableOf_pmd found)) _ j.isLt]
    exact represents.middle i pmd found j
  · rw [kept _ (known (tableOf_pte found found')) _ k.isLt]
    exact represents.lower i pmd found j table found' k

theorem Built.holds {s : PageMemory} {tables : List Word} (built : Built s tables) :
    ∃ pgd, Holds s pgd tables := by
  induction built with
  | @empty s aligned cleared =>
    have noTable : ∀ {va}, TableOf ⟨s.activeUserPgd, fun _ => none⟩ va → va = s.activeUserPgd := by
      rintro va (rfl | ⟨⟨i, j⟩, here⟩)
      · rfl
      · cases j <;> simp [nodeVa] at here
    refine ⟨⟨s.activeUserPgd, fun _ => none⟩,
      ⟨rfl, fun i => cleared i.val i.isLt, fun i pmd found => ?_, fun i pmd found => ?_,
      fun va table => ?_, fun a b va atA => ?_, fun node here => ?_⟩, fun table => ?_⟩
    · cases found
    · cases found
    · rw [noTable table]
      exact aligned
    · obtain ⟨i, j⟩ := a
      cases j <;> simp [nodeVa] at atA
    · obtain ⟨i, j⟩ := node
      cases j <;> simp [nodeVa] at here
    · rw [noTable table]
      exact List.mem_cons_self
  | walk built user result fresh ih =>
    obtain ⟨pgd, holds⟩ := ih
    obtain ⟨pgd', holds', -⟩ := holds.pagewalk user result fresh
    exact ⟨pgd', holds'⟩
  | other built top kept ih =>
    obtain ⟨pgd, holds⟩ := ih
    exact ⟨pgd, holds.congr top kept⟩

/-! ## Mapping a range -/

/-- What `iterate_page_table` answers about a page that was mapped to `pa` with `prot`. -/
def mapped (pa prot : Word) : PteFunc → Word
  | .checkCow => if copyOnWrite prot then 1#64 else 0#64
  | .getPa => pa
  | .getProt => (prot &&& ~~~pteCow) ||| pteV

theorem prot_lt {prot : Word} (flags : prot &&& ~~~0x3ff#64 = 0#64) : prot.toNat < 2 ^ 10 := by
  have high := toNat_and_not_lowMask prot 10
  rw [show BitVec.ofNat 64 (2 ^ 10 - 1) = 0x3ff#64 from rfl, flags] at high
  have zero : prot.toNat / 2 ^ 10 * 2 ^ 10 = 0 := high.symm
  omega

theorem flags_lt {prot : Word} (flags : prot &&& ~~~0x3ff#64 = 0#64) :
    (prot ||| pteV).toNat < 2 ^ 10 := by
  rw [BitVec.toNat_or]
  exact Nat.or_lt_two_pow (prot_lt flags) (by decide)

/-- The entry gives back what it was made from. -/
private theorem answer_makePte {pa prot : Word} (aligned : Aligned pa)
    (flags : prot &&& ~~~0x3ff#64 = 0#64) (func : PteFunc) :
    answer (makePte pa (prot ||| pteV)) func = mapped pa prot func := by
  have there := present_makePte pa prot
  unfold answer
  rw [if_pos there]
  cases func with
  | checkCow =>
    have cow : copyOnWrite (makePte pa (prot ||| pteV)) = copyOnWrite prot := by
      rw [copyOnWrite_eq, copyOnWrite_eq, getLsbD_makePte (by decide)]
      simp [pteV]
    simp only [cow, mapped]
  | getPa => exact ptePa_makePte aligned (flags_lt flags)
  | getProt =>
    change (makePte pa (prot ||| pteV) &&& 0x3ff#64) &&& ~~~pteCow = (prot &&& ~~~pteCow) ||| pteV
    apply BitVec.eq_of_getLsbD_eq
    intro i inside
    have mask : (0x3ff#64).getLsbD i = decide (i < 10) := getLsbD_lowMask 10 i inside
    have valid : pteV.getLsbD i = decide (i = 0) := by
      rw [show pteV = BitVec.twoPow 64 0 from rfl, BitVec.getLsbD_twoPow]
      simp [eq_comm]
    have cow : pteCow.getLsbD i = decide (i = 8) := by
      rw [pteCow_eq, BitVec.getLsbD_twoPow]
      simp [eq_comm]
    simp only [BitVec.getLsbD_and, BitVec.getLsbD_or, BitVec.getLsbD_not, mask, valid, cow, inside,
      decide_true, Bool.true_and]
    by_cases low : i < 10
    · rw [getLsbD_makePte low, BitVec.getLsbD_or, valid]
      rcases eq_or_ne i 0 with rfl | notValid
      · simp
      · simp [notValid, low]
    · have none : prot.getLsbD i = false :=
        Nat.testBit_lt_two_pow
          (lt_of_lt_of_le (prot_lt flags) (Nat.pow_le_pow_right (by decide) (by omega)))
      have notValid : i ≠ 0 := by omega
      simp [low, none, notValid]

/-- Mapping a range of pages into a user table that walks built returns when `allocate` does not
fail, and, when the pages it gets are fresh, it changes what a walk answers about the pages of the
range and no other. -/
theorem map_pages_updates {s : PageMemory} {tables : List Word} (built : Built s tables)
    {va size pa prot : Word} (alignedVa : Aligned va) (alignedSize : Aligned size)
    (user : va.toNat + size.toNat ≤ 2 ^ 38) (alignedPa : Aligned pa)
    (flags : prot &&& ~~~0x3ff#64 = 0#64) :
    ((∀ n, (s.allocate n).isSome) → ∃ t, s.mapPages va size pa prot = some t) ∧
    ∀ t, s.mapPages va size pa prot = some t → Fresh s.allocate s.calls t.calls tables →
      ∀ page, Aligned page → User page → ∀ func,
        t.iteratePageTable t.activeUserPgd page func =
          if va ≤ page ∧ page.toNat < va.toNat + size.toNat then mapped (pa + (page - va)) prot func
          else s.iteratePageTable s.activeUserPgd page func := by
  have rounds : (size.toNat + 4095) / 4096 = size.toNat / 4096 := by
    rw [Aligned] at alignedSize
    omega
  have noWrap : size.toNat ≤ 2 ^ 64 - 4096 := by omega
  rw [PageMemory.mapPages, if_pos noWrap, rounds]
  refine ⟨fun supplied => mapPagesFrom_isSome supplied va pa prot 0 _,
    fun t result fresh page aligned inUser func => ?_⟩
  obtain ⟨pgd, holds⟩ := built.holds
  have start : (va.toNat + 0) % 4096 = 0 := alignedVa
  obtain ⟨pgd', holds', written, kept⟩ := holds.mapPagesFrom (by omega) start result fresh
  rw [holds'.represents.iteratePageTable inUser, holds.represents.iteratePageTable inUser]
  rw [Aligned] at alignedVa alignedSize aligned
  split_ifs with inside
  · obtain ⟨low, high⟩ := inside
    have le : va.toNat ≤ page.toNat := low
    have offset : page - va = BitVec.ofNat 64 (0 + 4096 * ((page.toNat - va.toNat) / 4096)) := by
      apply BitVec.eq_of_toNat_eq
      rw [BitVec.toNat_sub_of_le low, BitVec.toNat_ofNat]
      omega
    have here := written ((page.toNat - va.toNat) / 4096) (by omega)
    rw [← offset, add_comm va, BitVec.sub_add_cancel] at here
    rw [here]
    refine answer_makePte ?_ flags func
    rw [Aligned] at alignedPa ⊢
    rw [BitVec.toNat_add, BitVec.toNat_sub_of_le low]
    omega
  · rw [kept]
    intro k below same
    have place : (va + BitVec.ofNat 64 (0 + 4096 * k)).toNat = va.toNat + (0 + 4096 * k) :=
      toNat_offset (by omega)
    have equal := slotOf_injective inUser (by rw [User, place]; omega)
      aligned (by rw [Aligned, place]; omega) same
    apply inside
    rw [equal]
    constructor
    · change va.toNat ≤ _
      rw [place]
      omega
    · rw [place]
      omega

/-- Cleared memory with a top-level page, and two more pages to take. -/
def clearedMemory : PageMemory where
  word := fun _ => 0#64
  kernelPgd := pageOffset
  activeUserPgd := pageOffset + 0x1000#64
  allocate := fun n => if n = 0 then some (pageOffset + 0x2000#64)
    else if n = 1 then some (pageOffset + 0x3000#64)
    else none
  calls := 0

/-- Mapping the first page of the user half takes both pages. -/
theorem map_pages_updates_first :
    ∃ t, clearedMemory.mapPages 0#64 pageSize 0x5000#64 protUserRw = some t ∧
    t.iteratePageTable t.activeUserPgd 0#64 .getPa = 0x5000#64 := by
  have built : Built clearedMemory [clearedMemory.activeUserPgd] :=
    .empty (by decide) fun i _ => not_present_zero
  obtain ⟨t, result⟩ : ∃ t, clearedMemory.mapPages 0#64 pageSize 0x5000#64 protUserRw = some t :=
    Option.isSome_iff_exists.mp (by decide +kernel)
  have returned : ∀ {n page}, clearedMemory.allocate n = some page →
      n = 0 ∧ page = pageOffset + 0x2000#64 ∨ n = 1 ∧ page = pageOffset + 0x3000#64 := by
    intro n page here
    simp only [clearedMemory] at here
    split_ifs at here with first second
    · exact .inl ⟨first, (Option.some.inj here).symm⟩
    · exact .inr ⟨second, (Option.some.inj here).symm⟩
  have fresh : Fresh clearedMemory.allocate clearedMemory.calls t.calls
      [clearedMemory.activeUserPgd] := by
    constructor
    · intro n page _ _ here
      rcases returned here with ⟨-, rfl⟩ | ⟨-, rfl⟩
      · decide
      · decide
    · intro m n page _ _ _ _ here here'
      rcases returned here with ⟨rfl, rfl⟩ | ⟨rfl, rfl⟩
      · rcases returned here' with ⟨rfl, -⟩ | ⟨-, same⟩
        · rfl
        · exact absurd same (by decide)
      · rcases returned here' with ⟨-, same⟩ | ⟨rfl, -⟩
        · exact absurd same (by decide)
        · rfl
  refine ⟨t, result, ?_⟩
  rw [(map_pages_updates built (by decide) (by decide) (by decide) (by decide) (by decide)).2 t
    result fresh 0#64
    (by decide) (by decide) .getPa]
  decide

end OscKernel.Soundness.PageWalks
