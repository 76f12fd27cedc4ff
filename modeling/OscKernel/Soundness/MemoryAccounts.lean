import OscKernel.Soundness.FaultProgress

/-! # What user memory is used for

`Balanced` says that every allocation made since a number, and still in use, is a table of a live
task or the page behind one of its entries. Each operation on page tables keeps it if the counts are
exact, as long as an entry is only written where there was none. So when no task is left, everything
has been passed back.
-/

namespace OscKernel.Soundness.MemoryAccounts

open OscKernel.Lib OscKernel.Model OscKernel.Soundness.PageTables OscKernel.Soundness.UserMappings
open OscKernel.Soundness.PageWalks
  (User slotOf_injective aligned_virtToPhys present_makePte flags_lt)
open OscKernel.Soundness.VmaTable (Valid)

/-- A table of a live task, or the page behind one of its entries. -/
def Held (s : Vm) (a : Word) : Prop :=
  ∃ task ∈ s.live, TableOf (s.pgd task) a ∨ ∃ pa, MapsPage (s.pgd task) pa ∧ physToVirt pa = a

/-- What was allocated from number `base` on is held or has been passed back. -/
structure Balanced (base : ℕ) (s : Vm) : Prop where
  exact : Exact s
  accounted : s.heap.Accounted base (Held s)

section Balanced

variable {s t : Vm} {base task : ℕ} {slot : Slot} {page prot newPmd newPte va pa : Word}

/-- Nothing is held once no task is left. -/
theorem Balanced.all_freed (balanced : Balanced base s) (nobody : s.live = ∅) {id : ℕ}
    (new : base ≤ id) (made : id < s.heap.count) : id ∈ s.heap.freed := by
  apply balanced.accounted.all_freed _ new made
  rintro a ⟨task, taskLive, -⟩
  rw [nobody] at taskLive
  exact absurd taskLive (Finset.notMem_empty task)

/-- The operation is not about memory. -/
theorem Balanced.congr (balanced : Balanced base s) (build : t.build = s.build)
    (heap : t.heap = s.heap) (counts : t.pageRefCounts = s.pageRefCounts) (pgd : t.pgd = s.pgd)
    (live : t.live = s.live) : Balanced base t := by
  have mappersSame : ∀ pa, mappers t pa = mappers s pa := by
    intro pa
    ext other
    rw [mem_mappers, mem_mappers, live, pgd]
  have countSame : ∀ pa, count t pa = count s pa := by
    intro pa
    rw [count, count, counts, build]
  have separate : Separate t := by
    apply balanced.exact.separate.extend build live pgd
    rw [heap]
    exact .refl balanced.exact.separate.valid
  refine ⟨⟨separate, fun taskLive maps => ?_, fun taskLive maps => ?_⟩, ?_⟩
  · rw [live] at taskLive
    rw [pgd] at maps
    rw [heap]
    exact balanced.exact.owned taskLive maps
  · rw [live] at taskLive
    rw [pgd] at maps
    rw [mappersSame, countSame]
    exact balanced.exact.counted taskLive maps
  · rw [heap]
    apply balanced.accounted.mono
    intro a held
    rw [Held, live, pgd]
    exact held

/-! ## Exec and exit -/

/-- What a task gives up is passed back, unless another task maps it. -/
theorem Balanced.unmap {gone : List Word} (balanced : Balanced base s) (taskLive : task ∈ s.live)
    (unmaps : Unmaps s t task gone)
    (tables : ∀ {va}, TableOf (s.pgd task) va → va ∉ gone → task ∈ t.live ∧
      TableOf (t.pgd task) va) : Balanced base t where
  exact := balanced.exact.unmap taskLive unmaps
  accounted := by
    rw [unmaps.heap]
    apply balanced.accounted.freeAll
    rintro a ⟨holder, holderLive, holds⟩ notGone
    rcases eq_or_ne holder task with rfl | different
    · rcases holds with table | ⟨pa, maps, rfl⟩
      · obtain ⟨stays, there⟩ := tables table notGone
        exact ⟨holder, stays, .inl there⟩
      · have shared : 1 < (mappers s pa).card := by
          rw [← balanced.exact.counted holderLive maps]
          by_contra few
          exact notGone (unmaps.released.mem_gone maps (Nat.le_of_not_lt few))
        obtain ⟨other, member, different⟩ := Finset.exists_mem_ne shared holder
        obtain ⟨otherLive, otherMaps⟩ := mem_mappers.mp member
        refine ⟨other, (unmaps.live different).mpr otherLive, .inr ⟨pa, ?_, rfl⟩⟩
        rw [unmaps.others different]
        exact otherMaps
    · refine ⟨holder, (unmaps.live different).mpr holderLive, ?_⟩
      rw [unmaps.others different]
      exact holds

theorem clearUserSpaceMappings_live (separate : Separate s) (taskLive : task ∈ s.live) :
    (s.clearUserSpaceMappings task).live = s.live := by
  obtain ⟨counts, result, -⟩ := release_walk separate.tables (separate.frames taskLive) taskLive
    (releaseVisits_pages _)
    (nodup_tablesOf_releaseVisits (separate.distinct taskLive)) fun va member =>
    .inr (mem_tablesOf_releaseVisits member)
  rw [Vm.clearUserSpaceMappings, releaseUserHalf_eq, result]

theorem Balanced.exec (balanced : Balanced base s) (taskLive : task ∈ s.live) :
    Balanced base (s.clearUserSpaceMappings task) := by
  obtain ⟨gone, unmaps, below⟩ := exec_unmaps balanced.exact.separate taskLive
  have stays : task ∈ (s.clearUserSpaceMappings task).live := by
    rwa [clearUserSpaceMappings_live balanced.exact.separate taskLive]
  apply balanced.unmap taskLive unmaps
  rintro va (rfl | ⟨node, here⟩) notGone
  · refine ⟨stays, .inl ?_⟩
    rw [(unmaps.cleared stays).2]
  · exact absurd (below here) notGone

theorem Balanced.exit (balanced : Balanced base s) (taskLive : task ∈ s.live) :
    Balanced base (s.freeUserPageTable task) ∧
    (s.freeUserPageTable task).live = s.live.erase task := by
  obtain ⟨gone, unmaps, live, all⟩ := exit_unmaps balanced.exact.separate taskLive
  exact ⟨balanced.unmap taskLive unmaps fun table notGone => absurd (all table) notGone, live⟩

/-! ## Fork -/

/-- What the copy allocates are the tables of its list. -/
private theorem copy_accounted {visits : List Visit} {held : Word → Prop} (valid : s.heap.Valid)
    (accounted : s.heap.Accounted base held) (result : visits.foldlM Visit.copy s = some t) :
    t.heap.Accounted base fun a => held a ∨ a ∈ tablesOf visits := by
  induction visits generalizing s held with
  | nil =>
    obtain rfl := Option.some.inj result
    exact accounted.mono fun a here => .inl here
  | cons visit rest ih =>
    obtain ⟨u, first, rest⟩ := Option.bind_eq_some_iff.mp result
    cases visit with
    | page pte =>
      have same : u.heap = s.heap := by
        rw [← Option.some.inj first, Vm.incrementPageRef]
        split <;> rfl
      exact ih (same ▸ valid) (same ▸ accounted) rest
    | table va =>
      obtain ⟨heap, rfl, grown, -⟩ := allocatePage_spec valid first
      refine (ih grown.valid (allocatePage_accounted valid accounted first) rest).mono ?_
      rintro a ((old | rfl) | later)
      · exact .inl old
      · exact .inr List.mem_cons_self
      · exact .inr (List.mem_cons_of_mem _ later)

theorem Balanced.fork {parent child : ℕ} {pages : Vm.ForkPages} (balanced : Balanced base s)
    (parentLive : parent ∈ s.live) (childNew : child ∉ s.live) (room : Room s parent)
    (result : s.sysFork parent child pages = some t) :
    Balanced base t := by
  have separate := balanced.exact.separate
  have forks := fork_forks separate parentLive childNew result
  refine ⟨balanced.exact.fork parentLive childNew forks room, ?_⟩
  have childPgd : t.pgd child = Vm.childTable (s.pgd parent) pages := by
    rw [sysFork_pgd result, Function.update_self]
  have childLive : child ∈ t.live := by
    rw [forks.live]
    exact Finset.mem_insert_self child s.live
  obtain ⟨first, allocated, rest⟩ := Option.bind_eq_some_iff.mp result
  obtain ⟨second, copied, rest⟩ := Option.bind_eq_some_iff.mp rest
  have heap : t.heap = second.heap := by rw [← Option.some.inj rest]
  obtain ⟨granted, rfl, grown, -⟩ := allocatePage_spec separate.valid allocated
  rw [copyUserHalf_eq] at copied
  rw [heap]
  refine (copy_accounted grown.valid
    (allocatePage_accounted separate.valid balanced.accounted allocated) copied).mono ?_
  rintro a ((⟨holder, holderLive, holds⟩ | rfl) | table)
  · have notChild : holder ≠ child := fun same => childNew (same ▸ holderLive)
    refine ⟨holder, ?_,
      holds.imp (forks.tableOf notChild).mpr fun ⟨pa, maps, same⟩ => ⟨pa, ?_, same⟩⟩
    · rw [forks.live]
      exact Finset.mem_insert_of_mem holderLive
    · apply (forks.sameMaps holder).mapsPage.mpr
      rwa [origin_of_ne notChild]
  · refine ⟨child, childLive, .inl (.inl ?_)⟩
    rw [childPgd]
    rfl
  · rw [tablesOf, copyVisits_tables] at table
    obtain ⟨node, -, here⟩ := List.mem_filterMap.mp table
    refine ⟨child, childLive, .inl (.inr ⟨node, ?_⟩)⟩
    rw [childPgd]
    exact here

/-! ## New processes -/

/-- A task joins the others with a table of its own, which has no entries. -/
structure Joins (s t : Vm) (task : ℕ) (pgd : Word) : Prop where
  build : t.build = s.build
  counts : t.pageRefCounts = s.pageRefCounts
  heap : s.heap.Extends t.heap
  owns : t.heap.Owns pgd .table
  fresh : ∀ id, ¬ s.heap.Within pgd id
  live : t.live = insert task s.live
  mine : t.pgd task = ⟨pgd, fun _ => none⟩
  others : ∀ {other}, other ≠ task → t.pgd other = s.pgd other

theorem createUserProcess_joins {pgd : Word} (valid : s.heap.Valid)
    (result : s.createUserProcess task pgd = some t) :
    Joins s t task pgd := by
  obtain ⟨u, allocated, rfl⟩ := Option.map_eq_some_iff.mp result
  obtain ⟨heap, rfl, grown, owns, fresh, -⟩ := allocatePage_spec valid allocated
  exact ⟨rfl, rfl, grown, owns, fresh, rfl, Function.update_self _ _ _,
    fun different => Function.update_of_ne different _ _⟩

section Joins

variable {pgd : Word} (joins : Joins s t task pgd)
include joins

theorem Joins.tableOf (table : TableOf (t.pgd task) va) : va = pgd := by
  rw [joins.mine] at table
  rcases table with same | ⟨node, here⟩
  · exact same
  · rw [nodeVa_cleared ⟨pgd, fun _ => none⟩] at here
    cases here

theorem Joins.mapsPage {other : ℕ} (inLive : other ∈ t.live) (maps : MapsPage (t.pgd other) pa) :
    other ∈ s.live ∧ other ≠ task ∧ MapsPage (s.pgd other) pa := by
  rw [joins.live] at inLive
  rcases eq_or_ne other task with rfl | different
  · rw [joins.mine] at maps
    exact absurd maps (not_mapsPage_cleared ⟨pgd, fun _ => none⟩ pa)
  · rw [joins.others different] at maps
    exact ⟨(Finset.mem_insert.mp inLive).resolve_left different, different, maps⟩

theorem Joins.separate (separate : Separate s) : Separate t := by
  have before : ∀ {other}, other ∈ t.live → other ≠ task → other ∈ s.live := by
    intro other inLive different
    rw [joins.live] at inLive
    exact (Finset.mem_insert.mp inLive).resolve_left different
  have apart : ∀ {other va}, other ∈ t.live → other ≠ task → TableOf (t.pgd task) va →
      ¬ TableOf (t.pgd other) va := by
    intro other va inLive different mine table
    rw [joins.others different, joins.tableOf mine] at table
    obtain ⟨id, within, -⟩ := separate.table (before inLive different) table
    exact joins.fresh id within
  refine ⟨joins.heap.valid, ?_, ?_, ?_, ?_, ?_⟩
  · intro other va inLive table
    rcases eq_or_ne other task with rfl | different
    · rw [joins.tableOf table]
      exact joins.owns
    · rw [joins.others different] at table
      exact joins.heap.owns (separate.table (before inLive different) table)
  · intro other inLive
    rcases eq_or_ne other task with rfl | different
    · rw [joins.mine]
      refine ⟨fun a b va here => ?_, fun node here => ?_⟩
      · rw [nodeVa_cleared ⟨pgd, fun _ => none⟩] at here
        cases here
      · rw [nodeVa_cleared ⟨pgd, fun _ => none⟩] at here
        cases here
    · rw [joins.others different]
      exact separate.distinct (before inLive different)
  · intro a b va liveA liveB different tableA tableB
    rcases eq_or_ne a task with rfl | notA
    · exact apart liveB different.symm tableA tableB
    rcases eq_or_ne b task with rfl | notB
    · exact apart liveA notA tableB tableA
    rw [joins.others notA] at tableA
    rw [joins.others notB] at tableB
    exact separate.apart (before liveA notA) (before liveB notB) different tableA tableB
  · intro other inLive
    rcases eq_or_ne other task with rfl | different
    · rw [joins.mine]
      intro a b there
      exact absurd there (by simp [entryAt_cleared ⟨pgd, fun _ => none⟩])
    · rw [joins.others different]
      exact separate.injective (before inLive different)
  · intro other pa inLive maps
    obtain ⟨wasLive, -, maps⟩ := joins.mapsPage inLive maps
    obtain ⟨counted, id, within, purpose⟩ := separate.page wasLive maps
    obtain ⟨within', -, purpose'⟩ := joins.heap.kept within
    rw [joins.build]
    exact ⟨counted, id, within', purpose' ▸ purpose⟩

theorem Joins.exact (exact : Exact s) (new : task ∉ s.live) : Exact t := by
  refine ⟨joins.separate exact.separate, ?_, ?_⟩
  · intro other pa inLive maps
    obtain ⟨wasLive, -, maps⟩ := joins.mapsPage inLive maps
    exact joins.heap.owns (exact.owned wasLive maps)
  · intro other pa inLive maps
    obtain ⟨wasLive, -, maps⟩ := joins.mapsPage inLive maps
    have same : mappers t pa = mappers s pa := by
      ext holder
      rw [mem_mappers, mem_mappers]
      constructor
      · rintro ⟨holderLive, holds⟩
        obtain ⟨before, -, holds⟩ := joins.mapsPage holderLive holds
        exact ⟨before, holds⟩
      · rintro ⟨holderLive, holds⟩
        rw [joins.live, joins.others fun same => new (same ▸ holderLive)]
        exact ⟨Finset.mem_insert_of_mem holderLive, holds⟩
    rw [same, ← exact.counted wasLive maps, count, count, joins.counts, joins.build]

end Joins

theorem Balanced.createUserProcess {pgd : Word} (balanced : Balanced base s) (new : task ∉ s.live)
    (result : s.createUserProcess task pgd = some t) : Balanced base t := by
  have valid := balanced.exact.separate.valid
  have joins := createUserProcess_joins valid result
  refine ⟨joins.exact balanced.exact new, ?_⟩
  obtain ⟨u, allocated, same⟩ := Option.map_eq_some_iff.mp result
  have heap : t.heap = u.heap := by rw [← same]
  rw [heap]
  refine (allocatePage_accounted valid balanced.accounted allocated).mono ?_
  rintro a (⟨holder, holderLive, holds⟩ | rfl)
  · refine ⟨holder, ?_, ?_⟩
    · rw [joins.live]
      exact Finset.mem_insert_of_mem holderLive
    · rwa [joins.others fun same => new (same ▸ holderLive)]
  · refine ⟨task, ?_, .inl ?_⟩
    · rw [joins.live]
      exact Finset.mem_insert_self task s.live
    · rw [joins.mine]
      exact .inl rfl

/-! ## New pages -/

/-- A page that was allocated, initialised and counted, before it is mapped. -/
structure Fresh (s u : Vm) (page : Word) : Prop where
  frame : u = { s with heap := u.heap, pageRefCounts := u.pageRefCounts, ram := u.ram }
  heap : s.heap.Extends u.heap
  owns : u.heap.Owns page .userPage
  new : ∀ id, ¬ s.heap.Within page id
  counted : Counted s.build (virtToPhys page)
  counts : ∀ {pa}, Aligned pa → count u pa = if pa = virtToPhys page then 1 else count s pa
  accounted : ∀ {base held}, s.heap.Accounted base held →
    u.heap.Accounted base fun a => held a ∨ a = page

theorem newPage_fresh (valid : s.heap.Valid) (result : s.newPage page = some t) :
    Fresh s t page := by
  obtain ⟨u, allocated, rfl⟩ := Option.map_eq_some_iff.mp result
  obtain ⟨heap, rfl, grown, owns, new, isPage⟩ := allocatePage_spec valid allocated
  have counted := isPage_spec isPage
  dsimp only
  rw [setPageRefInit_eq (by exact counted)]
  refine ⟨rfl, grown, owns, new, counted, fun {pa} aligned => ?_, fun accounted => ?_⟩
  · have value : count (copied s heap (virtToPhys page) (virtToPhys page)) pa =
      if pa = virtToPhys page then 1
      else count s pa :=
      count_copied counted aligned
    exact value
  · have granted := allocatePage_accounted valid accounted allocated
    exact granted

theorem Fresh.write {u : Vm} (fresh : Fresh s u page) (ram : Word → Fin 4096 → BitVec 8) :
    Fresh s { u with ram := ram } page where
  frame := by
    conv_lhs => rw [fresh.frame]
  heap := fresh.heap
  owns := fresh.owns
  new := fresh.new
  counted := fresh.counted
  counts := fresh.counts
  accounted := fresh.accounted

/-- A new page takes the place of nothing. -/
theorem Balanced.install {u : Vm} (balanced : Balanced base s) (taskLive : task ∈ s.live)
    (fresh : Fresh s u page)
    (walk : u.pagewalk task slot (virtToPhys page) prot newPmd newPte = some t)
    (flags : (prot ||| pteV).toNat < 2 ^ 10)
    (absent : ¬ present ((s.pgd task).entryAt slot) = true) : Balanced base t := by
  have exact := balanced.exact
  have sameBuild : u.build = s.build := by rw [fresh.frame]
  have samePgd : u.pgd = s.pgd := by rw [fresh.frame]
  have sameLive : u.live = s.live := by rw [fresh.frame]
  have newPa : ptePa (makePte (virtToPhys page) (prot ||| pteV)) = virtToPhys page :=
    ptePa_makePte fresh.counted.1 flags
  have there : present (makePte (virtToPhys page) (prot ||| pteV)) = true := present_makePte _ _
  have start : Separate u := exact.separate.extend sameBuild sameLive samePgd fresh.heap
  have walked := pagewalk_walked start.valid (fun here => by
    obtain ⟨id, within, -⟩ := start.table (sameLive ▸ taskLive) (.inr ⟨_, here⟩)
    exact ⟨id, within⟩) walk
  obtain ⟨oldTables, walkAccounted⟩ := pagewalk_accounted start.valid walk
  have unmapped : ∀ {other}, other ∈ s.live → ¬ MapsPage (s.pgd other) (virtToPhys page) := by
    intro other inLive maps
    obtain ⟨-, id, within, -⟩ := exact.separate.page inLive maps
    rw [physToVirt_virtToPhys] at within
    exact fresh.new id within
  have tLive : t.live = s.live := by
    rw [walked.frame]
    exact sameLive
  have tCount : ∀ {pa}, Aligned pa → count t pa = if pa = virtToPhys page then 1
      else count s pa := by
    intro pa aligned
    rw [← fresh.counts aligned, walked.frame]
    rfl
  have entries : (t.pgd task).entryAt =
      Function.update (s.pgd task).entryAt slot (makePte (virtToPhys page) (prot ||| pteV)) := by
    rw [walked.entry, samePgd]
  have others : ∀ {other}, other ≠ task → t.pgd other = s.pgd other := fun different => by
    rw [walked.others different, samePgd]
  have mapsTask : ∀ pa, MapsPage (t.pgd task) pa ↔ pa = virtToPhys page ∨
      MapsPage (s.pgd task) pa := by
    intro pa
    constructor
    · intro maps
      rw [← newPa, ← samePgd]
      exact walked.mapsPage maps
    · rintro (rfl | ⟨other, isThere, rfl⟩)
      · refine ⟨slot, ?_, ?_⟩
        · rw [entries, Function.update_self]
          exact there
        · rw [entries, Function.update_self]
          exact newPa
      · have elsewhere : other ≠ slot := fun same => absent (same ▸ isThere)
        refine ⟨other, ?_, ?_⟩
        · rw [entries, Function.update_of_ne elsewhere]
          exact isThere
        · rw [entries, Function.update_of_ne elsewhere]
  have mapsAny : ∀ {other pa}, other ∈ s.live → MapsPage (t.pgd other) pa →
      other = task ∧ pa = virtToPhys page ∨ MapsPage (s.pgd other) pa := by
    intro other pa inLive maps
    rcases eq_or_ne other task with rfl | different
    · exact ((mapsTask pa).mp maps).imp_left fun same => ⟨rfl, same⟩
    · rw [others different] at maps
      exact .inr maps
  have tMappers : ∀ pa, mappers t pa = if pa = virtToPhys page then {task} else mappers s pa := by
    intro pa
    ext other
    rw [mem_mappers, tLive]
    by_cases same : pa = virtToPhys page
    · rw [if_pos same, Finset.mem_singleton]
      subst same
      constructor
      · rintro ⟨inLive, maps⟩
        exact ((mapsAny inLive maps).resolve_right (unmapped inLive)).1
      · rintro rfl
        exact ⟨taskLive, (mapsTask _).mpr (.inl rfl)⟩
    · rw [if_neg same, mem_mappers]
      refine and_congr_right fun inLive =>
        ⟨fun maps => (mapsAny inLive maps).resolve_left fun both => same both.2, ?_⟩
      intro maps
      rcases eq_or_ne other task with rfl | different
      · exact (mapsTask pa).mpr (.inr maps)
      · rwa [others different]
  have pageWithin : ∃ id, u.heap.Within (physToVirt (virtToPhys page)) id ∧
      u.heap.purpose id ≠ .table := by
    obtain ⟨id, within, -, purpose⟩ := fresh.owns
    rw [physToVirt_virtToPhys]
    exact ⟨id, within, by rw [purpose]; decide⟩
  refine ⟨⟨?_, ?_, ?_⟩, ?_⟩
  · apply start.walk (sameLive ▸ taskLive) walked
    · rw [newPa, samePgd]
      exact unmapped taskLive
    · rw [newPa, sameBuild]
      exact fresh.counted
    · rw [newPa]
      exact pageWithin
  · intro other pa inLive maps
    rw [tLive] at inLive
    rcases mapsAny inLive maps with ⟨-, rfl⟩ | before
    · rw [physToVirt_virtToPhys]
      exact walked.heap.owns fresh.owns
    · exact walked.heap.owns (fresh.heap.owns (exact.owned inLive before))
  · intro other pa inLive maps
    rw [tLive] at inLive
    rw [tMappers]
    rcases mapsAny inLive maps with ⟨-, rfl⟩ | before
    · rw [tCount fresh.counted.1, if_pos rfl, if_pos rfl, Finset.card_singleton]
    · have notNew : pa ≠ virtToPhys page := fun same => unmapped inLive (same ▸ before)
      rw [tCount (exact.separate.page inLive before).1.1, if_neg notNew, if_neg notNew]
      exact exact.counted inLive before
  · refine (walkAccounted (fresh.accounted balanced.accounted)).mono ?_
    rintro a ((⟨holder, holderLive, holds⟩ | rfl) | table)
    · refine ⟨holder, tLive ▸ holderLive, ?_⟩
      rcases eq_or_ne holder task with rfl | different
      · rw [← samePgd] at holds
        refine holds.imp (oldTables a) fun ⟨pa, maps, same⟩ => ⟨pa, ?_, same⟩
        rw [samePgd] at maps
        exact (mapsTask pa).mpr (.inr maps)
      · rwa [others different]
    · exact ⟨task, tLive ▸ taskLive,
        .inr ⟨virtToPhys a, (mapsTask _).mpr (.inl rfl), physToVirt_virtToPhys a⟩⟩
    · exact ⟨task, tLive ▸ taskLive, .inl table⟩

end Balanced

end OscKernel.Soundness.MemoryAccounts
