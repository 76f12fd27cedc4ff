import OscKernel.Soundness.AddressSpaces

/-! # User pages and their counts

A copy-on-write fault moves one entry of a task to a new page. `Exact` says that mapped pages are
user pages whose count is the number of entries that point to them; forks below the range of the
count, copy-on-write faults, exec and exit keep it.
-/

namespace OscKernel.Soundness.PageTables

open OscKernel.Lib OscKernel.Model OscKernel.Model.Vm

/-! ## Copy-on-write faults -/

/-- The entry of a task at a place. -/
def entryOf (s : Vm) (task : ℕ) (slot : Slot) : Word := (s.pgd task).entryAt slot

/-- A task that was cleared has no entries; the others keep theirs. -/
theorem Unmaps.entry {s t : Vm} {task other : ℕ} {gone : List Word} {slot : Slot}
    (unmaps : Unmaps s t task gone) (inLive : other ∈ t.live)
    (there : present (entryOf t other slot) = true) :
    other ≠ task ∧ entryOf t other slot = entryOf s other slot := by
  have different := ((unmaps.mapsPage inLive).mp ⟨slot, there, rfl⟩).1
  refine ⟨different, ?_⟩
  rw [entryOf, entryOf, unmaps.others different]

/-- An entry after a fork comes from the same place in the task that it was copied from. -/
theorem Copies.entry {s t : Vm} {parent child other : ℕ} {slot : Slot}
    (copies : Copies s t parent child) (there : present (entryOf t other slot) = true) :
    present (entryOf s (origin parent child other) slot) = true ∧
      ptePa (entryOf t other slot) = ptePa (entryOf s (origin parent child other) slot) := by
  obtain ⟨samePresent, samePage⟩ := copies.sameMaps other slot
  have was := samePresent.symm.trans there
  exact ⟨was, samePage was⟩

/-- What a child inherits is found at the task that it was copied from. -/
theorem update_origin {β : Type} (f : ℕ → β) (parent child other : ℕ) :
    Function.update f child (f parent) other = f (origin parent child other) := by
  rcases eq_or_ne other child with rfl | notChild
  · rw [Function.update_self, origin_child]
  · rw [Function.update_of_ne notChild, origin_of_ne notChild]

theorem isPage_spec {s : Vm} {va : Word} (page : s.isPage va = true) :
    Counted s.build (virtToPhys va) := by
  have aligned := aligned_of_isPage page
  rw [isPage, Bool.and_eq_true, decide_eq_true_iff, decide_eq_true_iff] at page
  refine ⟨?_, page.2⟩
  rw [Aligned] at aligned
  rw [Aligned, virtToPhys, pageOffset]
  bv_omega

theorem setPageRefInit_eq {s : Vm} {pa : Word} (counted : Counted s.build pa) : s.setPageRefInit
    pa = { s with pageRefCounts := Function.update s.pageRefCounts (s.build.pageIdx pa) 1#8 } := by
  rw [setPageRefInit]
  simp only [if_pos counted.2]

/-- The copy-on-write branch is taken for a present entry with the mark. -/
theorem checkCow_spec {pgd : Pgd} {slot : Slot}
    (marked : iteratePageTable pgd slot .checkCow ≠ 0#64) :
    present (pgd.entryAt slot) = true ∧ copyOnWrite (pgd.entryAt slot) = true := by
  rw [iteratePageTable] at marked
  split at marked
  · rename_i there
    refine ⟨there, ?_⟩
    split at marked
    · rename_i cow
      exact cow
    · exact absurd rfl marked
  · exact absurd rfl marked

/-- What the copy-on-write branch passes to `free`. -/
def lastOwner (s : Vm) (pa : Word) : List Word := if count s pa ≤ 1 then [physToVirt pa] else []

/-- A copy-on-write fault gives the task a page of its own at the place. -/
structure Unshares (s t : Vm) (task : ℕ) (slot : Slot) (newPa : Word) : Prop where
  build : t.build = s.build
  live : t.live = s.live
  there : present (entryOf s task slot) = true
  marked : copyOnWrite (entryOf s task slot) = true
  ram : t.ram = Function.update s.ram newPa (s.ram (ptePa (entryOf s task slot)))
  others : ∀ {other}, other ≠ task → t.pgd other = s.pgd other
  entry : entryOf t task =
    Function.update (entryOf s task) slot (unshared (entryOf s task slot) newPa)
  fresh : ∀ id, ¬ s.heap.Within (physToVirt newPa) id
  counted : Counted s.build newPa
  newCount : count t newPa = 1
  oldCount : count t (ptePa (entryOf s task slot)) = count s (ptePa (entryOf s task slot)) - 1
  kept : ∀ {pa}, Aligned pa → pa ≠ newPa →
    pa ≠ ptePa (entryOf s task slot) → count t pa = count s pa
  /-- The state before the old page is passed back, if it is. -/
  mid : ∃ mid : Vm, Separate mid ∧ mid.build = s.build ∧ mid.live = s.live ∧ mid.pgd = t.pgd ∧
    s.heap.Extends mid.heap ∧ mid.heap.Owns (physToVirt newPa) .userPage ∧
    t.heap = mid.heap.freeAll (lastOwner s (ptePa (entryOf s task slot)))

/-- The state in which the copy-on-write branch calls `map_pages`. -/
def copied (s : Vm) (heap : Allocations Word Purpose) (oldPa newPa : Word) : Vm := { s with
  heap := heap
  pageRefCounts := Function.update s.pageRefCounts (s.build.pageIdx newPa) 1#8
  ram := Function.update s.ram newPa (s.ram oldPa) }

theorem count_copied {s : Vm} {heap : Allocations Word Purpose} {oldPa newPa pa : Word}
    (counted : Counted s.build newPa) (aligned : Aligned pa) :
    count (copied s heap oldPa newPa) pa = if pa = newPa then 1
    else count s pa := by
  have refs : Function.update s.pageRefCounts (s.build.pageIdx newPa) 1#8 (s.build.pageIdx pa) =
      if pa = newPa then 1#8
      else s.pageRefCounts (s.build.pageIdx pa) := update_pageIdx counted.1 aligned
  refine (congrArg BitVec.toNat refs).trans ?_
  split <;> rfl

theorem releasePage_free {s : Vm} {pa : Word} (counted : Counted s.build pa) :
    ∃ counts, s.releasePage pa =
      { s with pageRefCounts := counts, heap := s.heap.freeAll (lastOwner s pa) } ∧
      ∀ other, Aligned other → (counts (s.build.pageIdx other)).toNat =
        if other = pa then count s pa - 1 else count s other := by
  refine ⟨Function.update s.pageRefCounts (s.build.pageIdx pa)
    (lowered (s.pageRefCounts (s.build.pageIdx pa))), ?_, fun other aligned => ?_⟩
  · rw [releasePage_eq counted, lastOwner]
    split <;> rfl
  · rw [update_pageIdx counted.1 aligned]
    split
    · exact toNat_lowered _
    · rfl

/-- The branch allocates a page, maps it and lowers the count of the old page. -/
theorem cowFault_steps {s t : Vm} {task : ℕ} {slot : Slot} {newPage : Word} (all : Tables s)
    (taskLive : task ∈ s.live) (result : s.cowFault task slot newPage = some t) :
    (present (entryOf s task slot) = true ∧ copyOnWrite (entryOf s task slot) = true) ∧ ∃ heap mid,
      s.heap.Extends heap ∧ heap.Owns newPage .userPage ∧
      (∀ a ∈ region newPage 4096, heap.Within a s.heap.count ∧ ∀ id, ¬ s.heap.Within a id) ∧
      s.isPage newPage = true ∧
      Walked (copied s heap (ptePa (entryOf s task slot)) (virtToPhys newPage)) mid task slot
        (unshared (entryOf s task slot) (virtToPhys newPage)) ∧
      t = mid.releasePage (ptePa (entryOf s task slot)) ∧
      (∀ va, TableOf (s.pgd task) va → TableOf (mid.pgd task) va) ∧
      ∀ {base held}, s.heap.Accounted base held →
        mid.heap.Accounted base fun a => (held a ∨ a = newPage) ∨ TableOf (mid.pgd task) a := by
  rw [cowFault] at result
  split at result
  · exact absurd result (by simp)
  rename_i marked
  obtain ⟨there, -⟩ := checkCow_spec marked
  have getPa : iteratePageTable (s.pgd task) slot .getPa = ptePa (entryOf s task slot) :=
    if_pos there
  have getProt : iteratePageTable (s.pgd task) slot .getProt =
      (entryOf s task slot &&& 0x3ff#64) &&& ~~~pteCow :=
    if_pos there
  obtain ⟨first, allocated, rest⟩ := Option.bind_eq_some_iff.mp result
  obtain ⟨mid, walk, rest⟩ := Option.bind_eq_some_iff.mp rest
  have whole := fun a => allocatePage_whole (a := a) all.valid allocated
  obtain ⟨heap, rfl, grown, owns, fresh, page⟩ := allocatePage_spec all.valid allocated
  rw [setPageRefInit_eq (s := { s with heap := heap }) (isPage_spec page)] at walk rest
  simp only [getPa, getProt] at walk rest
  have walked : Walked
      (copied s heap (ptePa (entryOf s task slot)) (virtToPhys newPage)) mid task slot
      (unshared (entryOf s task slot) (virtToPhys newPage)) :=
    pagewalk_walked grown.valid (fun here => by
      obtain ⟨id, within, -⟩ := all.table taskLive (.inr ⟨_, here⟩)
      exact ⟨id, (grown.kept within).1⟩) walk
  obtain ⟨tables, walkAccounted⟩ :=
    pagewalk_accounted (s := copied s heap (ptePa (entryOf s task slot)) (virtToPhys newPage))
      grown.valid walk
  refine ⟨checkCow_spec marked, heap, mid, grown, owns, whole, page, walked,
    (Option.some.inj rest).symm, tables, ?_⟩
  intro base held accounted
  have granted := allocatePage_accounted all.valid accounted allocated
  exact walkAccounted granted

/-- The table that a level-0 entry would be in exists. -/
def HasTable (s : Vm) (task : ℕ) (slot : Slot) : Prop :=
  nodeVa (s.pgd task) (slot.1, some slot.2.1) ≠ none

theorem HasTable.entries {s : Vm} {task : ℕ} {slot : Slot} (table : HasTable s task slot) :
    ∃ pmd found, (s.pgd task).entry slot.1 = some pmd ∧ pmd.entry slot.2.1 = some found := by
  rw [HasTable, nodeVa, Ne, Option.map_eq_none_iff, Option.bind_eq_none_iff] at table
  push Not at table
  obtain ⟨pmd, upper, lower⟩ := table
  obtain ⟨found, lower⟩ := Option.ne_none_iff_exists'.mp lower
  exact ⟨pmd, found, upper, lower⟩

private theorem hasTable_of_present {s : Vm} {task : ℕ} {slot : Slot}
    (there : present (entryOf s task slot) = true) :
    HasTable s task slot := by
  intro missing
  rw [nodeVa, Option.map_eq_none_iff] at missing
  have zero : entryOf s task slot = 0#64 := by
    rw [entryOf, Pgd.entryAt]
    cases upper : (s.pgd task).entry slot.1 with
    | none => rfl
    | some pmd =>
      rw [upper, Option.bind_some] at missing
      simp only [missing]
  rw [zero] at there
  exact absurd there (by decide)

/-- A walk along existing tables needs no memory. -/
theorem pagewalk_succeeds {s : Vm} {task : ℕ} {slot : Slot} (table : HasTable s task slot)
    (pa prot newPmd newPte : Word) :
    ∃ t, s.pagewalk task slot pa prot newPmd newPte = some t := by
  obtain ⟨pmd, found, upper, lower⟩ := table.entries
  simp only [pagewalk, walkLevel, upper, lower, Option.bind_eq_bind, Option.bind_some]
  exact ⟨_, rfl⟩

/-- A copy-on-write fault succeeds where its page can be allocated. -/
theorem cowFault_succeeds {s : Vm} {task : ℕ} {slot : Slot} {newPage : Word}
    (there : present (entryOf s task slot) = true)
    (marked : copyOnWrite (entryOf s task slot) = true) (page : s.isPage newPage = true)
    (unused : Unused s newPage) :
    ∃ t, s.cowFault task slot newPage = some t := by
  have check : iteratePageTable (s.pgd task) slot .checkCow ≠ 0#64 := by
    change (if present (entryOf s task slot) then if copyOnWrite (entryOf s task slot) then 1#64
      else 0#64 else 0#64) ≠ _
    rw [if_pos there, if_pos marked]
    decide
  obtain ⟨heap, allocated, -⟩ := allocatePage_succeeds .userPage page unused
  rw [cowFault, if_neg check, allocated]
  simp only [Option.bind_eq_bind, Option.bind_some,
    setPageRefInit_eq (s := { s with heap := heap }) (isPage_spec page)]
  generalize iteratePageTable (s.pgd task) slot .getProt ||| pteW = prot
  obtain ⟨t, walked⟩ := pagewalk_succeeds
    (s := copied s heap (iteratePageTable (s.pgd task) slot .getPa) (virtToPhys newPage))
    (hasTable_of_present there) (virtToPhys newPage) prot 0#64 0#64
  rw [copied] at walked
  rw [walked]
  exact ⟨_, rfl⟩

theorem cowFault_unshares {s t : Vm} {task : ℕ} {slot : Slot} {newPage : Word}
    (separate : Separate s) (taskLive : task ∈ s.live)
    (result : s.cowFault task slot newPage = some t) :
    Unshares s t task slot (virtToPhys newPage) := by
  obtain ⟨⟨there, marked⟩, heap, mid, grown, owns, whole, page, walked, last, -⟩ :=
    cowFault_steps separate.tables taskLive result
  have fresh := (whole newPage (mem_region (by decide))).2
  have counted := isPage_spec page
  generalize entry : entryOf s task slot = pte at *
  have oldMaps : MapsPage (s.pgd task) (ptePa pte) :=
    ⟨slot, by rw [← entry] at there; exact there, congrArg ptePa entry⟩
  obtain ⟨oldCounted, -⟩ := separate.page taskLive oldMaps
  have unmapped : ∀ {other}, other ∈ s.live → ¬ MapsPage (s.pgd other) (virtToPhys newPage) := by
    intro other inLive maps
    obtain ⟨-, id, within, -⟩ := separate.page inLive maps
    rw [physToVirt_virtToPhys] at within
    exact fresh id within
  have oldNew : ptePa pte ≠ virtToPhys newPage := fun same => unmapped taskLive (same ▸ oldMaps)
  obtain ⟨-, -, -, newPa⟩ := unshared_spec pte counted.1
  have newWithin : ∃ id, heap.Within (physToVirt (virtToPhys newPage)) id ∧
      heap.purpose id ≠ .table := by
    obtain ⟨id, within, -, purpose⟩ := owns
    rw [physToVirt_virtToPhys]
    exact ⟨id, within, by rw [purpose]; decide⟩
  have start : Separate (copied s heap (ptePa pte) (virtToPhys newPage)) :=
    separate.extend rfl rfl rfl grown
  have midSeparate : Separate mid :=
    start.walk taskLive walked (by rw [newPa]; exact unmapped taskLive)
    (by rw [newPa]; exact counted) (by rw [newPa]; exact newWithin)
  have build : mid.build = s.build := by rw [walked.frame]; rfl
  have midCount : ∀ {pa}, Aligned pa → count mid pa = if pa = virtToPhys newPage then 1
      else count s pa := by
    intro pa aligned
    have same : count (copied s heap (ptePa pte) (virtToPhys newPage)) pa =
      if pa = virtToPhys newPage then 1 else count s pa := count_copied counted aligned
    rw [← same, walked.frame]
    rfl
  have owner : lastOwner mid (ptePa pte) = lastOwner s (ptePa pte) := by
    rw [lastOwner, lastOwner, midCount oldCounted.1, if_neg oldNew]
  obtain ⟨counts, final, lower⟩ := releasePage_free (s := mid) (by rw [build]; exact oldCounted)
  rw [← last, owner] at final
  have tCount : ∀ {pa}, Aligned pa → count t pa = if pa = ptePa pte then count mid (ptePa pte) - 1
      else count mid pa := by
    intro pa aligned
    rw [← lower pa aligned, final]
    rfl
  refine ⟨by rw [final]; exact build, by rw [final, walked.frame]; rfl, entry ▸ there,
    entry ▸ marked, ?_, fun different => by rw [final]; exact walked.others different, ?_, ?_,
    counted, ?_, ?_, ?_, ⟨mid, midSeparate, build, ?_, ?_, ?_, ?_, ?_⟩⟩
  · rw [entry, final, walked.frame]
    rfl
  · rw [entry, final]
    exact walked.entry
  · rw [physToVirt_virtToPhys]
    exact fresh
  · rw [tCount counted.1, if_neg oldNew.symm, midCount counted.1, if_pos rfl]
  · rw [entry, tCount oldCounted.1, if_pos rfl, midCount oldCounted.1, if_neg oldNew]
  · rw [entry]
    intro pa aligned notNew notOld
    rw [tCount aligned, if_neg notOld, midCount aligned, if_neg notNew]
  · rw [walked.frame]
    rfl
  · rw [final]
  · exact grown.trans walked.heap
  · rw [physToVirt_virtToPhys]
    exact walked.heap.owns owns
  · rw [entry, final]

/-- The pages of the task afterwards: the new one, and the others it had. -/
theorem Unshares.mapsPage {s t : Vm} {task : ℕ} {slot : Slot} {newPa pa : Word}
    (unshares : Unshares s t task slot newPa) (injective : Injective (s.pgd task)) :
    MapsPage (t.pgd task) pa ↔
      pa = newPa ∨ pa ≠ ptePa (entryOf s task slot) ∧ MapsPage (s.pgd task) pa := by
  obtain ⟨there, -, -, newEntry⟩ := unshared_spec (entryOf s task slot) unshares.counted.1
  have entry := unshares.entry
  constructor
  · rintro ⟨other, present', rfl⟩
    change present (entryOf t task other) = true at present'
    change ptePa (entryOf t task other) = newPa ∨ ptePa (entryOf t task other) ≠ _ ∧
      MapsPage _ (ptePa (entryOf t task other))
    rw [entry] at present' ⊢
    rcases eq_or_ne other slot with rfl | different
    · rw [Function.update_self]
      exact .inl newEntry
    · rw [Function.update_of_ne different] at present' ⊢
      exact .inr ⟨fun same => different (injective other slot present' unshares.there same), other,
        present', rfl⟩
  · rintro (rfl | ⟨notOld, other, present', rfl⟩)
    · refine ⟨slot, ?_, ?_⟩
      · change present (entryOf t task slot) = true
        rw [entry, Function.update_self]
        exact there
      · change ptePa (entryOf t task slot) = _
        rw [entry, Function.update_self]
        exact newEntry
    · have different : other ≠ slot := by
        rintro rfl
        exact notOld rfl
      refine ⟨other, ?_, ?_⟩
      · change present (entryOf t task other) = true
        rw [entry, Function.update_of_ne different]
        exact present'
      · change ptePa (entryOf t task other) = _
        rw [entry, Function.update_of_ne different]
        rfl

/-! ## Entries that point to a page -/

/-- The level-0 entries of all live tasks that point to the page. -/
def entriesTo (s : Vm) (pa : Word) : Finset (ℕ × Slot) :=
  (s.live ×ˢ Finset.univ).filter fun place =>
  present (entryOf s place.1 place.2) = true ∧ ptePa (entryOf s place.1 place.2) = pa

theorem mem_entriesTo {s : Vm} {pa : Word} {task : ℕ} {slot : Slot} :
    (task, slot) ∈ entriesTo s pa ↔
    task ∈ s.live ∧ present (entryOf s task slot) = true ∧ ptePa (entryOf s task slot) = pa := by
  rw [entriesTo, Finset.mem_filter, Finset.mem_product]
  simp only [Finset.mem_univ, and_true]

open scoped Classical in
/-- The live tasks that map the page. -/
noncomputable def mappers (s : Vm) (pa : Word) : Finset ℕ :=
  s.live.filter fun task => MapsPage (s.pgd task) pa

theorem mem_mappers {s : Vm} {pa : Word} {task : ℕ} :
    task ∈ mappers s pa ↔ task ∈ s.live ∧ MapsPage (s.pgd task) pa := by
  classical exact Finset.mem_filter

/-- Tasks that map no page twice have as many entries to a page as there are tasks that map it. -/
theorem card_entriesTo {s : Vm} (injective : ∀ task ∈ s.live, Injective (s.pgd task)) (pa : Word) :
    (entriesTo s pa).card = (mappers s pa).card := by
  classical
  apply Finset.card_bij fun place _ => place.1
  · rintro ⟨task, slot⟩ member
    obtain ⟨inLive, there, same⟩ := mem_entriesTo.mp member
    exact mem_mappers.mpr ⟨inLive, slot, there, same⟩
  · rintro ⟨task, slot⟩ first ⟨task', slot'⟩ second (rfl : task = task')
    obtain ⟨inLive, there, same⟩ := mem_entriesTo.mp first
    obtain ⟨-, there', same'⟩ := mem_entriesTo.mp second
    exact congrArg (Prod.mk task)
      (injective task inLive slot slot' there there' (same.trans same'.symm))
  · intro task member
    obtain ⟨inLive, slot, there, same⟩ := mem_mappers.mp member
    exact ⟨(task, slot), mem_entriesTo.mpr ⟨inLive, there, same⟩, rfl⟩

theorem card_entriesTo_le {s : Vm} (injective : ∀ task ∈ s.live, Injective (s.pgd task))
    (pa : Word) : (entriesTo s pa).card ≤ s.live.card := by
  rw [card_entriesTo injective]
  exact Finset.card_le_card fun task member => (mem_mappers.mp member).1

theorem Forks.mappers {s t : Vm} {parent child : ℕ} (forks : Forks s t parent child)
    (childNew : child ∉ s.live) (pa : Word) :
    (MapsPage (s.pgd parent) pa → mappers t pa = insert child (mappers s pa)) ∧
      (¬ MapsPage (s.pgd parent) pa → mappers t pa = mappers s pa) := by
  have here : ∀ other, other ∈ PageTables.mappers t pa ↔
      (other = child ∧ MapsPage (s.pgd parent) pa) ∨ other ∈ PageTables.mappers s pa := by
    intro other
    rw [mem_mappers, mem_mappers, forks.live, Finset.mem_insert, (forks.sameMaps other).mapsPage]
    rcases eq_or_ne other child with rfl | notChild
    · rw [origin_child]
      exact ⟨fun both => .inl ⟨rfl, both.2⟩,
        fun either => ⟨.inl rfl, (either.resolve_right fun both => childNew both.1).2⟩⟩
    · rw [origin_of_ne notChild]
      simp [notChild]
  constructor
  · intro maps
    ext other
    rw [here, Finset.mem_insert]
    simp [maps]
  · intro unmapped
    ext other
    rw [here]
    simp [unmapped]

theorem Unmaps.mappers {s t : Vm} {task : ℕ} {gone : List Word} (unmaps : Unmaps s t task gone)
    (taskLive : task ∈ s.live) (pa : Word) : mappers t pa = (mappers s pa).erase task := by
  ext other
  rw [mem_mappers, Finset.mem_erase, mem_mappers]
  constructor
  · rintro ⟨inLive, maps⟩
    obtain ⟨different, before⟩ := (unmaps.mapsPage inLive).mp maps
    exact ⟨different, unmaps.was_live taskLive inLive, before⟩
  · rintro ⟨different, inLive, maps⟩
    have inLive' := (unmaps.live different).mpr inLive
    exact ⟨inLive', (unmaps.mapsPage inLive').mpr ⟨different, maps⟩⟩

theorem Unshares.mappers {s t : Vm} {task : ℕ} {slot : Slot} {newPa : Word}
    (unshares : Unshares s t task slot newPa) (separate : Separate s) (taskLive : task ∈ s.live)
    (pa : Word) : mappers t pa = if pa = newPa then {task}
      else if pa = ptePa (entryOf s task slot) then (mappers s pa).erase task
      else mappers s pa := by
  have task_maps : MapsPage (t.pgd task) pa ↔ pa = newPa ∨ pa ≠ ptePa (entryOf s task slot) ∧
      MapsPage (s.pgd task) pa :=
    unshares.mapsPage (separate.injective taskLive)
  have unmapped : ∀ other ∈ s.live, ¬ MapsPage (s.pgd other) newPa := by
    intro other inLive maps
    obtain ⟨-, id, within, -⟩ := separate.page inLive maps
    exact unshares.fresh id within
  ext other
  rw [mem_mappers, unshares.live]
  rcases eq_or_ne other task with rfl | different
  · rw [task_maps]
    split
    · rename_i isNew
      simp [isNew, taskLive]
    · rename_i notNew
      split
      · rename_i isOld
        rw [isOld] at notNew
        simp [notNew, isOld]
      · rename_i notOld
        simp [notNew, notOld, mem_mappers]
  · rw [unshares.others different]
    split
    · rename_i isNew
      rw [isNew]
      simp only [Finset.mem_singleton, different, iff_false]
      exact fun both => unmapped other both.1 both.2
    · split
      · simp [different, mem_mappers]
      · rw [mem_mappers]

/-! ## Exact counts -/

/-- Mapped pages are user pages, and each has the count of the tasks that map it. -/
structure Exact (s : Vm) : Prop where
  separate : Separate s
  owned : ∀ {task pa}, task ∈ s.live → MapsPage (s.pgd task) pa →
    s.heap.Owns (physToVirt pa) .userPage
  counted : ∀ {task pa}, task ∈ s.live → MapsPage (s.pgd task) pa → count s pa = (mappers s pa).card

/-- A page with one reference left is mapped by one task. -/
theorem Exact.sole {s : Vm} (exact : Exact s) {task other : ℕ} {pa : Word}
    (taskLive : task ∈ s.live) (maps : MapsPage (s.pgd task) pa) (last : count s pa ≤ 1)
    (otherLive : other ∈ s.live) (otherMaps : MapsPage (s.pgd other) pa) : other = task := by
  rw [exact.counted taskLive maps] at last
  exact Finset.card_le_one.mp last other (mem_mappers.mpr ⟨otherLive, otherMaps⟩)
    task (mem_mappers.mpr ⟨taskLive, maps⟩)

/-- The allocation behind a mapped page starts at the page. -/
theorem Exact.start {s : Vm} (exact : Exact s) {task id : ℕ} {pa : Word} (taskLive : task ∈ s.live)
    (maps : MapsPage (s.pgd task) pa) (within : s.heap.Within (physToVirt pa) id) :
    s.heap.start id = physToVirt pa ∧ s.heap.purpose id = .userPage :=
  purpose_unique within (exact.owned taskLive maps)

/-- What exec and exit free is behind no page of another task. -/
theorem Exact.unmap_kept {s t : Vm} {task other : ℕ} {pa : Word} {gone : List Word}
    (exact : Exact s) (taskLive : task ∈ s.live) (unmaps : Unmaps s t task gone)
    (otherLive : other ∈ s.live) (different : other ≠ task) (maps : MapsPage (s.pgd other) pa) :
    physToVirt pa ∉ gone := by
  intro member
  rcases unmaps.released.of_gone member with ⟨pa', own, last, same⟩ | table
  · obtain rfl := physToVirt_injective same
    exact different (exact.sole taskLive own last otherLive maps)
  · exact (exact.separate.frames otherLive).page_not_table exact.separate.tables taskLive maps table

theorem Exact.unmap {s t : Vm} {task : ℕ} {gone : List Word} (exact : Exact s)
    (taskLive : task ∈ s.live) (unmaps : Unmaps s t task gone) : Exact t where
  separate := by
    apply exact.separate.unmap taskLive unmaps
    intro other pa id otherLive different maps within
    rw [(exact.start otherLive maps within).1]
    exact exact.unmap_kept taskLive unmaps otherLive different maps
  owned := by
    intro other pa inLive maps
    obtain ⟨different, before⟩ := (unmaps.mapsPage inLive).mp maps
    have otherLive := unmaps.was_live taskLive inLive
    rw [unmaps.heap]
    exact (exact.owned otherLive before).freeAll
      (exact.unmap_kept taskLive unmaps otherLive different before)
  counted := by
    intro other pa inLive maps
    obtain ⟨different, before⟩ := (unmaps.mapsPage inLive).mp maps
    have otherLive := unmaps.was_live taskLive inLive
    have old := exact.counted otherLive before
    have aligned := (exact.separate.page otherLive before).1.1
    rw [unmaps.mappers taskLive]
    by_cases own : MapsPage (s.pgd task) pa
    · rw [Finset.card_erase_of_mem (mem_mappers.mpr ⟨taskLive, own⟩), ← old, count, unmaps.build]
      exact unmaps.released.lowered own
    · rw [Finset.erase_eq_of_notMem (fun member => own (mem_mappers.mp member).2),
        ← old, count, unmaps.build]
      exact unmaps.released.kept aligned own

/-- No page of the task is at the largest count that `page_ref_counts` can hold. -/
def Room (s : Vm) (task : ℕ) : Prop := ∀ pa, MapsPage (s.pgd task) pa → count s pa < 255

theorem Exact.fork {s t : Vm} {parent child : ℕ} (exact : Exact s) (parentLive : parent ∈ s.live)
    (childNew : child ∉ s.live) (forks : Forks s t parent child)
    (room : Room s parent) : Exact t where
  separate := exact.separate.fork forks parentLive
  owned := by
    intro other pa inLive maps
    exact forks.heap.owns
      (exact.owned (forks.was_live parentLive inLive) ((forks.sameMaps other).mapsPage.mp maps))
  counted := by
    intro other pa inLive maps
    have before := (forks.sameMaps other).mapsPage.mp maps
    have wasLive := forks.was_live parentLive inLive
    have aligned := (exact.separate.page wasLive before).1.1
    have old := exact.counted wasLive before
    obtain ⟨shared, unshared⟩ := forks.mappers childNew pa
    by_cases own : MapsPage (s.pgd parent) pa
    · have new : child ∉ mappers s pa := fun member => childNew (mem_mappers.mp member).1
      have small := room pa own
      rw [shared own, Finset.card_insert_of_notMem new, ← old, forks.raised aligned own,
        Nat.mod_eq_of_lt (by omega)]
    · rw [unshared own, ← old, forks.kept aligned own]

theorem Exact.unshare {s t : Vm} {task : ℕ} {slot : Slot} {newPa : Word} (exact : Exact s)
    (taskLive : task ∈ s.live) (unshares : Unshares s t task slot newPa) : Exact t := by
  have oldMaps : MapsPage (s.pgd task) (ptePa (entryOf s task slot)) := ⟨slot, unshares.there, rfl⟩
  have injective := exact.separate.injective taskLive
  obtain ⟨mid, midSeparate, midBuild, midLive, midPgd, grown, owns, heap⟩ := unshares.mid
  -- A page that is still mapped is the new page, or another page that was mapped before.
  have known : ∀ {other pa}, other ∈ s.live → MapsPage (t.pgd other) pa →
      pa = newPa ∨ MapsPage (s.pgd other) pa ∧
      (other = task → pa ≠ ptePa (entryOf s task slot)) := by
    intro other pa otherLive maps
    rcases eq_or_ne other task with rfl | different
    · exact ((unshares.mapsPage injective).mp maps).imp_right fun both => ⟨both.2, fun _ => both.1⟩
    · rw [unshares.others different] at maps
      exact .inr ⟨maps, fun same => absurd same different⟩
  have midOwned : ∀ {other pa}, other ∈ s.live → MapsPage (t.pgd other) pa →
      mid.heap.Owns (physToVirt pa) .userPage := by
    intro other pa otherLive maps
    rcases known otherLive maps with rfl | ⟨before, -⟩
    · exact owns
    · exact grown.owns (exact.owned otherLive before)
  have notLast : ∀ {other pa}, other ∈ s.live → MapsPage (t.pgd other) pa →
      physToVirt pa ∉ lastOwner s (ptePa (entryOf s task slot)) := by
    intro other pa otherLive maps member
    rw [lastOwner] at member
    split at member
    · rename_i last
      obtain rfl := physToVirt_injective (List.mem_singleton.mp member)
      rcases known otherLive maps with same | ⟨before, notOld⟩
      · obtain ⟨-, id, within, -⟩ := exact.separate.page taskLive oldMaps
        rw [same] at within
        exact unshares.fresh id within
      · exact notOld (exact.sole taskLive oldMaps last otherLive before) rfl
    · exact absurd member List.not_mem_nil
  refine ⟨?_, ?_, ?_⟩
  · apply midSeparate.free (unshares.build.trans midBuild.symm)
      (unshares.live.trans midLive.symm) midPgd.symm heap
    · rw [lastOwner]
      split
      · exact List.nodup_singleton _
      · exact List.nodup_nil
    · intro a member
      rw [lastOwner] at member
      split at member
      · obtain rfl := List.mem_singleton.mp member
        obtain ⟨-, id, within, purpose⟩ := exact.separate.page taskLive oldMaps
        obtain ⟨within', -, purpose'⟩ := grown.kept within
        exact ⟨id, within', purpose' ▸ purpose⟩
      · exact absurd member List.not_mem_nil
    · intro other pa id otherLive maps within
      rw [midLive] at otherLive
      rw [midPgd] at maps
      rw [(purpose_unique within (midOwned otherLive maps)).1]
      exact notLast otherLive maps
  · intro other pa otherLive maps
    rw [unshares.live] at otherLive
    rw [heap]
    exact (midOwned otherLive maps).freeAll (notLast otherLive maps)
  · intro other pa otherLive maps
    rw [unshares.live] at otherLive
    rw [unshares.mappers exact.separate taskLive]
    rcases known otherLive maps with rfl | ⟨before, -⟩
    · rw [if_pos rfl, unshares.newCount, Finset.card_singleton]
    · have notNew : pa ≠ newPa := by
        rintro rfl
        obtain ⟨-, id, within, -⟩ := exact.separate.page otherLive before
        exact unshares.fresh id within
      rw [if_neg notNew]
      rcases eq_or_ne pa (ptePa (entryOf s task slot)) with rfl | notOld
      · rw [if_pos rfl, unshares.oldCount, Finset.card_erase_of_mem
          (mem_mappers.mpr ⟨taskLive, oldMaps⟩), exact.counted taskLive oldMaps]
      · rw [if_neg notOld, unshares.kept (exact.separate.page otherLive before).1.1 notNew notOld,
          exact.counted otherLive before]

end OscKernel.Soundness.PageTables
