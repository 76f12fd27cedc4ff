import OscKernel.Soundness.PageTables

/-! # What the walks do to counts and allocations

For a table that maps no page twice, freeing it lowers each mapped page's count by one and passes
back exactly the pages whose count falls to zero and the tables; copying it raises each mapped
page's count by one and takes new memory for the tables.
-/

namespace OscKernel.Soundness.PageTables

open OscKernel.Lib OscKernel.Model OscKernel.Model.Vm

/-! ## Counts -/

/-- `page_ref_counts` of the page at an address. -/
def count (s : Vm) (pa : Word) : ℕ := (s.pageRefCounts (s.build.pageIdx pa)).toNat

/-- The address is a page frame of RAM. -/
def Counted (build : Build) (pa : Word) : Prop := Aligned pa ∧ build.pageIdx pa < build.numPages

private theorem pageIdx_injective {build : Build} {pa pb : Word} (alignedA : Aligned pa)
    (alignedB : Aligned pb) (same : build.pageIdx pa = build.pageIdx pb) : pa = pb := by
  have shifted := congrArg BitVec.toNat same
  simp only [Build.pageIdx, BitVec.toNat_ushiftRight, Nat.shiftRight_eq_div_pow,
    BitVec.toNat_sub] at shifted
  have boundA := pa.isLt
  have boundB := pb.isLt
  rw [Aligned] at alignedA alignedB
  apply BitVec.eq_of_toNat_eq
  cases build with
  | board =>
    have start : Build.board.ramStart.toNat = 0 := rfl
    rw [start] at shifted
    omega
  | debug =>
    have start : Build.debug.ramStart.toNat = 0x80000000 := rfl
    rw [start] at shifted
    omega

/-- A count lowered by one, never below zero. -/
def lowered (c : BitVec 8) : BitVec 8 := if c > 0#8 then c - 1#8 else c

theorem toNat_lowered (c : BitVec 8) : (lowered c).toNat = c.toNat - 1 := by
  rw [lowered]
  split
  · rename_i positive
    have : (0#8).toNat < c.toNat := positive
    rw [BitVec.toNat_sub_of_le (by bv_omega)]
    rfl
  · rename_i zero
    have : ¬ (0#8).toNat < c.toNat := zero
    simp only [BitVec.toNat_ofNat] at this
    omega

private theorem lowered_eq_zero (s : Vm) (pa : Word) :
    lowered (s.pageRefCounts (s.build.pageIdx pa)) = 0#8 ↔ count s pa ≤ 1 := by
  rw [← BitVec.toNat_inj, toNat_lowered, count]
  simp only [BitVec.toNat_ofNat]
  omega

private theorem decrementPageRef_eq {s : Vm} {pa : Word} (counted : Counted s.build pa) :
    let remaining := lowered (s.pageRefCounts (s.build.pageIdx pa))
    s.decrementPageRef pa =
      ({ s with pageRefCounts := Function.update s.pageRefCounts (s.build.pageIdx pa) remaining },
        remaining) := by
  rw [decrementPageRef]
  simp only [if_pos counted.2]
  rfl

private theorem incrementPageRef_eq {s : Vm} {pa : Word} (counted : Counted s.build pa) :
    let raised := s.pageRefCounts (s.build.pageIdx pa) + 1#8
    s.incrementPageRef pa =
      { s with pageRefCounts := Function.update s.pageRefCounts (s.build.pageIdx pa) raised } := by
  rw [incrementPageRef]
  simp only [if_pos counted.2]

theorem releasePage_eq {s : Vm} {pa : Word} (counted : Counted s.build pa) :
    let remaining := lowered (s.pageRefCounts (s.build.pageIdx pa))
    s.releasePage pa = { s with
      pageRefCounts := Function.update s.pageRefCounts (s.build.pageIdx pa) remaining
      heap := if count s pa ≤ 1 then s.heap.free (physToVirt pa) else s.heap } := by
  rw [releasePage, decrementPageRef_eq counted]
  simp only [lowered_eq_zero]
  split
  · rfl
  · rfl

/-- The counts of other pages stay. -/
theorem update_pageIdx {β : Type} {build : Build} {f : Word → β} {pa pb : Word} {value : β}
    (alignedA : Aligned pa) (alignedB : Aligned pb) :
    Function.update f (build.pageIdx pa) value (build.pageIdx pb) =
      if pb = pa then value else f (build.pageIdx pb) := by
  split
  · rename_i same
    rw [same, Function.update_self]
  · rename_i other
    exact Function.update_of_ne (fun same => other (pageIdx_injective alignedB alignedA same)) _ _

/-! ## What allocating and counting leave alone -/

/-- Nothing changes but the heap and the counts. -/
structure Bookkeeping (s t : Vm) : Prop where
  ram : t.ram = s.ram
  pgd : t.pgd = s.pgd
  live : t.live = s.live
  savedRegs : t.savedRegs = s.savedRegs

/-- Nothing changes but memory and the tables in it. -/
structure MemoryOnly (s t : Vm) : Prop where
  live : t.live = s.live
  savedRegs : t.savedRegs = s.savedRegs

section Bookkeeping

variable {s t u : Vm} {va : Word} {purpose : Purpose}

theorem Bookkeeping.trans (first : Bookkeeping s t) (second : Bookkeeping t u) :
    Bookkeeping s u :=
  ⟨second.ram.trans first.ram, second.pgd.trans first.pgd, second.live.trans first.live,
    second.savedRegs.trans first.savedRegs⟩

theorem MemoryOnly.trans (first : MemoryOnly s t) (second : MemoryOnly t u) : MemoryOnly s u :=
  ⟨second.live.trans first.live, second.savedRegs.trans first.savedRegs⟩

theorem Bookkeeping.memoryOnly (books : Bookkeeping s t) : MemoryOnly s t :=
  ⟨books.live, books.savedRegs⟩

theorem Bookkeeping.allocate {length : ℕ} (result : s.allocate va length purpose = some t) :
    Bookkeeping s t := by
  obtain ⟨heap, -, rfl⟩ := Option.map_eq_some_iff.mp result
  exact ⟨rfl, rfl, rfl, rfl⟩

theorem Bookkeeping.allocatePage (result : s.allocatePage va purpose = some t) :
    Bookkeeping s t :=
  .allocate (Option.ite_none_right_eq_some.mp result).2

theorem Bookkeeping.allocateStack (result : s.allocateStack va = some t) : Bookkeeping s t :=
  .allocate (Option.ite_none_right_eq_some.mp result).2

theorem Bookkeeping.setPageRefInit (s : Vm) (pa : Word) : Bookkeeping s (s.setPageRefInit pa) := by
  rw [Vm.setPageRefInit]
  split <;> exact ⟨rfl, rfl, rfl, rfl⟩

private theorem Bookkeeping.incrementPageRef (s : Vm) (pa : Word) :
    Bookkeeping s (s.incrementPageRef pa) := by
  rw [Vm.incrementPageRef]
  split <;> exact ⟨rfl, rfl, rfl, rfl⟩

private theorem Bookkeeping.decrementPageRef (s : Vm) (pa : Word) :
    Bookkeeping s (s.decrementPageRef pa).1 := by
  rw [Vm.decrementPageRef]
  dsimp only
  split <;> exact ⟨rfl, rfl, rfl, rfl⟩

theorem Bookkeeping.releasePage (s : Vm) (pa : Word) : Bookkeeping s (s.releasePage pa) := by
  have lowered := Bookkeeping.decrementPageRef s pa
  unfold Vm.releasePage
  dsimp only
  split
  · exact ⟨lowered.ram, lowered.pgd, lowered.live, lowered.savedRegs⟩
  · exact lowered

theorem Bookkeeping.release (visits : List Visit) (s : Vm) :
    Bookkeeping s (visits.foldl Visit.release s) := by
  induction visits generalizing s with
  | nil => exact ⟨rfl, rfl, rfl, rfl⟩
  | cons visit rest ih =>
    cases visit with
    | page pte => exact (Bookkeeping.releasePage s (ptePa pte)).trans (ih _)
    | table va =>
      have others := ih (s.free va)
      exact ⟨others.ram, others.pgd, others.live, others.savedRegs⟩

theorem Bookkeeping.copy {visits : List Visit} (result : visits.foldlM Visit.copy s = some t) :
    Bookkeeping s t := by
  induction visits generalizing s with
  | nil =>
    obtain rfl := Option.some.inj result
    exact ⟨rfl, rfl, rfl, rfl⟩
  | cons visit rest ih =>
    obtain ⟨mid, first, others⟩ := Option.bind_eq_some_iff.mp result
    cases visit with
    | page pte =>
      obtain rfl := Option.some.inj first
      exact (Bookkeeping.incrementPageRef s _).trans (ih others)
    | table va => exact (Bookkeeping.allocatePage first).trans (ih others)

theorem Bookkeeping.walkLevel {τ : Type} {found : Option τ} {empty used : τ}
    (result : s.walkLevel found va empty = some (t, used)) : Bookkeeping s t := by
  cases found with
  | some table =>
    obtain ⟨rfl, -⟩ := Prod.mk.inj (Option.some.inj result)
    exact ⟨rfl, rfl, rfl, rfl⟩
  | none =>
    obtain ⟨next, allocated, same⟩ := Option.map_eq_some_iff.mp result
    obtain ⟨rfl, -⟩ := Prod.mk.inj same
    exact .allocatePage allocated

/-- A walk writes one table besides. -/
theorem Bookkeeping.pagewalk {task : ℕ} {slot : Slot} {pa prot newPmd newPte : Word}
    (result : s.pagewalk task slot pa prot newPmd newPte = some t) :
    Bookkeeping { s with pgd := t.pgd } t := by
  obtain ⟨⟨first, pmd⟩, upper, rest⟩ := Option.bind_eq_some_iff.mp result
  obtain ⟨⟨second, table⟩, lower, rest⟩ := Option.bind_eq_some_iff.mp rest
  obtain rfl := Option.some.inj rest
  have walked := (Bookkeeping.walkLevel upper).trans (Bookkeeping.walkLevel lower)
  exact ⟨walked.ram, rfl, walked.live, walked.savedRegs⟩

/-- A copy-on-write fault also writes a page. -/
theorem MemoryOnly.cowFault {task : ℕ} {slot : Slot} {newPage : Word}
    (result : s.cowFault task slot newPage = some t) : MemoryOnly s t := by
  obtain ⟨-, steps⟩ := Option.ite_none_left_eq_some.mp result
  obtain ⟨first, allocated, rest⟩ := Option.bind_eq_some_iff.mp steps
  obtain ⟨mid, walk, rest⟩ := Option.bind_eq_some_iff.mp rest
  obtain rfl := Option.some.inj rest
  have counted :=
    (Bookkeeping.allocatePage allocated).trans (.setPageRefInit first (virtToPhys newPage))
  have walked := Bookkeeping.pagewalk walk
  exact (counted.memoryOnly.trans ⟨walked.live, walked.savedRegs⟩).trans
    (Bookkeeping.releasePage mid _).memoryOnly

end Bookkeeping

/-! ## Freeing -/

/-- The pages of a list of visits. -/
def pagesOf (visits : List Visit) : List Word := (visits.filterMap Visit.page?).map ptePa

/-- The addresses that the walk passes to `free`. -/
def released (s : Vm) (visits : List Visit) : List Word := visits.filterMap fun
  | .page pte => if count s (ptePa pte) ≤ 1 then some (physToVirt (ptePa pte)) else none
  | .table va => some va

theorem release_fold {s : Vm} {visits : List Visit} (nodup : (pagesOf visits).Nodup)
    (counted : ∀ pa ∈ pagesOf visits, Counted s.build pa) :
    ∃ counts, visits.foldl Visit.release s =
        { s with pageRefCounts := counts, heap := s.heap.freeAll (released s visits) } ∧
      ∀ pa, Aligned pa → counts (s.build.pageIdx pa) =
        if pa ∈ pagesOf visits then lowered (s.pageRefCounts (s.build.pageIdx pa))
        else s.pageRefCounts (s.build.pageIdx pa) := by
  induction visits generalizing s with
  | nil => exact ⟨s.pageRefCounts, rfl, fun pa _ => by simp [pagesOf]⟩
  | cons visit rest ih =>
    cases visit with
    | table va =>
      obtain ⟨counts, result, lower⟩ := ih (s := s.free va) nodup counted
      exact ⟨counts, result, lower⟩
    | page pte =>
      have split : pagesOf (.page pte :: rest) = ptePa pte :: pagesOf rest := rfl
      rw [split] at nodup counted ⊢
      obtain ⟨notIn, nodupRest⟩ := List.nodup_cons.mp nodup
      have here := counted _ List.mem_cons_self
      have step := releasePage_eq here
      obtain ⟨counts, result, lower⟩ := ih (s := s.releasePage (ptePa pte)) nodupRest
        (fun pa member => by
          rw [step]
          exact counted pa (List.mem_cons_of_mem _ member))
      have same : ∀ pa ∈ pagesOf rest, count (s.releasePage (ptePa pte)) pa = count s pa := by
        intro pa member
        have other : pa ≠ ptePa pte := fun equal => notIn (equal ▸ member)
        have aligned := (counted pa (List.mem_cons_of_mem _ member)).1
        rw [step, count]
        simp only [update_pageIdx here.1 aligned, if_neg other]
        rfl
      have later : released (s.releasePage (ptePa pte)) rest = released s rest := by
        apply List.filterMap_congr
        intro visit member
        cases visit with
        | table va => rfl
        | page other =>
          have inRest : ptePa other ∈ pagesOf rest :=
            List.mem_map_of_mem (List.mem_filterMap.mpr ⟨_, member, rfl⟩)
          simp only [same _ inRest]
      refine ⟨counts, ?_, fun pa aligned => ?_⟩
      · rw [List.foldl_cons]
        change rest.foldl Visit.release (s.releasePage (ptePa pte)) = _
        rw [result, later, step]
        simp only [released, List.filterMap_cons]
        split <;> rfl
      · have value := lower pa aligned
        rw [step] at value
        simp only [update_pageIdx here.1 aligned] at value
        rw [value]
        rcases eq_or_ne pa (ptePa pte) with rfl | other
        · simp [notIn]
        · simp [other]

/-- The tables of a list of visits. -/
def tablesOf (visits : List Visit) : List Word := visits.filterMap Visit.table?

theorem mem_released {s : Vm} {visits : List Visit} {a : Word} : a ∈ released s visits ↔
    (∃ pa ∈ pagesOf visits, count s pa ≤ 1 ∧ physToVirt pa = a) ∨ a ∈ tablesOf visits := by
  simp only [released, pagesOf, tablesOf, List.mem_filterMap, List.mem_map]
  constructor
  · rintro ⟨visit, member, address⟩
    cases visit with
    | page pte =>
      simp only [Option.ite_none_right_eq_some, Option.some.injEq] at address
      exact .inl ⟨_, ⟨pte, ⟨_, member, rfl⟩, rfl⟩, address⟩
    | table va => exact .inr ⟨_, member, address⟩
  · rintro (⟨pa, ⟨pte, ⟨visit, member, page⟩, rfl⟩, last, address⟩ | ⟨visit, member, table⟩)
    · cases visit with
      | page other =>
        obtain rfl := Option.some.inj page
        exact ⟨_, member, by simp only [if_pos last, address]⟩
      | table va => exact absurd page (by simp [Visit.page?])
    · cases visit with
      | page pte => exact absurd table (by simp [Visit.table?])
      | table va => exact ⟨_, member, table⟩

theorem physToVirt_injective : Function.Injective physToVirt :=
  Function.LeftInverse.injective virtToPhys_physToVirt

/-- No address is passed to `free` twice. -/
theorem nodup_released {s : Vm} {visits : List Visit} (pages : (pagesOf visits).Nodup)
    (tables : (tablesOf visits).Nodup)
    (apart : ∀ pa ∈ pagesOf visits, physToVirt pa ∉ tablesOf visits) :
    (released s visits).Nodup := by
  induction visits with
  | nil => exact List.nodup_nil
  | cons visit rest ih =>
    cases visit with
    | table va =>
      obtain ⟨notIn, nodupRest⟩ := List.nodup_cons.mp tables
      apply List.nodup_cons.mpr ⟨?_, ih pages nodupRest fun pa member => ?_⟩
      · intro member
        rcases mem_released.mp member with ⟨pa, inPages, -, rfl⟩ | inTables
        · exact apart pa inPages List.mem_cons_self
        · exact notIn inTables
      · exact fun inTables => apart pa member (List.mem_cons_of_mem _ inTables)
    | page pte =>
      obtain ⟨notIn, nodupRest⟩ := List.nodup_cons.mp pages
      have later := ih nodupRest tables fun pa member => apart pa (List.mem_cons_of_mem _ member)
      rw [released, List.filterMap_cons]
      split
      · exact later
      · rename_i a address
        simp only [Option.ite_none_right_eq_some, Option.some.injEq] at address
        obtain ⟨-, rfl⟩ := address
        apply List.nodup_cons.mpr ⟨?_, later⟩
        intro member
        rcases mem_released.mp member with ⟨pa, inPages, -, same⟩ | inTables
        · exact notIn (physToVirt_injective same ▸ inPages)
        · exact apart _ List.mem_cons_self inTables

/-! ## Copying -/

theorem mem_region {va : Word} {length : ℕ} (positive : 0 < length) : va ∈ region va length :=
  List.mem_map.mpr ⟨0, List.mem_range.mpr positive, BitVec.add_zero va⟩

/-- An allocated page is a page frame, in an allocation of its own. -/
theorem allocatePage_spec {s t : Vm} {va : Word} {purpose : Purpose} (valid : s.heap.Valid)
    (result : s.allocatePage va purpose = some t) :
    ∃ heap, t = { s with heap := heap } ∧ s.heap.Extends heap ∧ heap.Owns va purpose ∧
      (∀ id, ¬ s.heap.Within va id) ∧ s.isPage va = true := by
  rw [allocatePage] at result
  split at result
  · rename_i page
    obtain ⟨heap, allocated, rfl⟩ := Option.map_eq_some_iff.mp result
    have first : va ∈ region va 4096 := mem_region (by decide)
    refine ⟨heap, rfl, .of_allocate valid allocated,
      Allocations.owns_new valid.numbered allocated first, fun id within => ?_, page⟩
    have available := (Allocations.allocate_eq allocated).1 va first
    rw [within.not_available] at available
    exact absurd available (by decide)
  · exact absurd result (by simp)

theorem allocatePage_whole {s t : Vm} {va a : Word} {purpose : Purpose} (valid : s.heap.Valid)
    (result : s.allocatePage va purpose = some t) (member : a ∈ region va 4096) :
    t.heap.Within a s.heap.count ∧ ∀ id, ¬ s.heap.Within a id := by
  obtain ⟨-, result⟩ := Option.ite_none_right_eq_some.mp result
  obtain ⟨heap, allocated, rfl⟩ := Option.map_eq_some_iff.mp result
  refine ⟨(Allocations.within_new valid.numbered allocated member).1, fun id within => ?_⟩
  have available := (Allocations.allocate_eq allocated).1 a member
  rw [within.not_available] at available
  exact absurd available (by decide)

private theorem incrementPageRef_frame (s : Vm) (pa : Word) :
    s.incrementPageRef pa = { s with pageRefCounts := (s.incrementPageRef pa).pageRefCounts } := by
  simp only [incrementPageRef]
  split <;> rfl

/-- The walk that copies takes new memory for the tables, and changes the counts besides. -/
theorem copy_tables {s t : Vm} {visits : List Visit} (valid : s.heap.Valid)
    (result : visits.foldlM Visit.copy s = some t) :
    t = { s with pageRefCounts := t.pageRefCounts, heap := t.heap } ∧ s.heap.Extends t.heap ∧
      (tablesOf visits).Nodup ∧ ∀ va ∈ tablesOf visits, t.heap.Owns va .table ∧
      ∀ id, ¬ s.heap.Within va id := by
  induction visits generalizing s with
  | nil =>
    obtain rfl := Option.some.inj result
    exact ⟨rfl, .refl valid, List.nodup_nil, fun va member => by simp [tablesOf] at member⟩
  | cons visit rest ih =>
    obtain ⟨mid, first, others⟩ := Option.bind_eq_some_iff.mp result
    cases visit with
    | table va =>
      obtain ⟨heap, rfl, grown, owns, fresh, -⟩ := allocatePage_spec valid first
      obtain ⟨frame, grown', nodup, new⟩ := ih (s := { s with heap := heap }) grown.valid others
      refine ⟨frame, grown.trans grown', List.nodup_cons.mpr ⟨?_, nodup⟩, ?_⟩
      · intro member
        obtain ⟨id, within, -⟩ := owns
        exact (new va member).2 id within
      · intro other member
        rcases List.mem_cons.mp member with rfl | member
        · exact ⟨grown'.owns owns, fresh⟩
        · exact ⟨(new other member).1,
            fun id within => (new other member).2 id (grown.kept within).1⟩
    | page pte =>
      obtain rfl := Option.some.inj first
      rw [incrementPageRef_frame] at others
      exact ih (s := { s with
        pageRefCounts := (s.incrementPageRef (ptePa (share pte))).pageRefCounts }) valid others

/-- Each page of the walk is counted once more. -/
theorem copy_counts {s t : Vm} {visits : List Visit} (valid : s.heap.Valid)
    (nodup : (pagesOf visits).Nodup) (counted : ∀ pa ∈ pagesOf visits, Counted s.build pa)
    (result : visits.foldlM Visit.copy s = some t) {pa : Word} (aligned : Aligned pa) :
    t.pageRefCounts (s.build.pageIdx pa) =
      if pa ∈ pagesOf visits then s.pageRefCounts (s.build.pageIdx pa) + 1#8
      else s.pageRefCounts (s.build.pageIdx pa) := by
  induction visits generalizing s with
  | nil =>
    obtain rfl := Option.some.inj result
    simp [pagesOf]
  | cons visit rest ih =>
    obtain ⟨mid, first, others⟩ := Option.bind_eq_some_iff.mp result
    cases visit with
    | table va =>
      obtain ⟨heap, rfl, grown, -⟩ := allocatePage_spec valid first
      exact ih (s := { s with heap := heap }) grown.valid nodup counted others
    | page pte =>
      have split : pagesOf (.page pte :: rest) = ptePa pte :: pagesOf rest := rfl
      rw [split] at nodup counted ⊢
      obtain ⟨notIn, nodupRest⟩ := List.nodup_cons.mp nodup
      have here := counted _ List.mem_cons_self
      obtain rfl := Option.some.inj first
      have step := incrementPageRef_eq here
      rw [ptePa_share] at others
      have value := ih (s := s.incrementPageRef (ptePa pte)) (by rw [step]; exact valid) nodupRest
        (fun pa member => by rw [step]; exact counted pa (List.mem_cons_of_mem _ member)) others
      rw [step] at value
      simp only [update_pageIdx here.1 aligned] at value
      rw [value]
      rcases eq_or_ne pa (ptePa pte) with rfl | other
      · simp [notIn]
      · simp [other]

/-! ## Tables that map no page twice -/

/-- A page appears at one place of the table only. -/
def Injective (pgd : Pgd) : Prop :=
  ∀ a b : Slot, present (pgd.entryAt a) = true → present (pgd.entryAt b) = true →
  ptePa (pgd.entryAt a) = ptePa (pgd.entryAt b) → a = b

/-- The table has a level-0 entry for the page. -/
def MapsPage (pgd : Pgd) (pa : Word) : Prop :=
  ∃ slot, present (pgd.entryAt slot) = true ∧ ptePa (pgd.entryAt slot) = pa

theorem mem_pages {pgd : Pgd} {pa : Word} : pa ∈ (pageWords pgd).map ptePa ↔ MapsPage pgd pa := by
  constructor
  · intro member
    obtain ⟨pte, word, rfl⟩ := List.mem_map.mp member
    obtain ⟨slot, there, rfl⟩ := mem_pageWords.mp word
    exact ⟨slot, there, rfl⟩
  · rintro ⟨slot, there, rfl⟩
    exact List.mem_map_of_mem (mem_pageWords.mpr ⟨slot, there, rfl⟩)

theorem nodup_pages {pgd : Pgd} (injective : Injective pgd) :
    ((pageWords pgd).map ptePa).Nodup := by
  rw [pageWords, List.map_map]
  apply List.Nodup.map_on
  · intro a inA b inB same
    exact injective a b (List.mem_filter.mp inA).2 (List.mem_filter.mp inB).2 same
  · exact nodup_allSlots.filter _

/-- The tables below the top-level one have different addresses. -/
def DistinctTables (pgd : Pgd) : Prop :=
  (∀ a b va, nodeVa pgd a = some va → nodeVa pgd b = some va → a = b) ∧
  ∀ node, nodeVa pgd node ≠ some pgd.va

/-- The address of one of the tables. -/
def TableOf (pgd : Pgd) (va : Word) : Prop := va = pgd.va ∨ ∃ node, nodeVa pgd node = some va

theorem nodup_nodes {pgd : Pgd} (distinct : DistinctTables pgd) {nodes : List Node}
    (nodup : nodes.Nodup) : (nodes.filterMap (nodeVa pgd)).Nodup := by
  apply List.Nodup.filterMap _ nodup
  intro a b va inA inB
  exact distinct.1 a b va inA inB

end OscKernel.Soundness.PageTables
