import OscKernel.Soundness.TableWalks

/-! # Address spaces of live tasks

`Separate` is what every operation on page tables relies on and keeps: the tables of live tasks are
allocations of their own, and they map allocated page frames. Each operation has one description
that later proofs use in place of its definition: `Unmaps` for exec and exit, `Forks`, `Walked` for
`pagewalk` and `Unshares` for a copy-on-write fault.
-/

namespace OscKernel.Soundness.PageTables

open OscKernel.Lib OscKernel.Model OscKernel.Model.Vm

/-- The tables of live tasks are separate allocations. -/
structure Tables (s : Vm) : Prop where
  valid : s.heap.Valid
  table : ∀ {task va}, task ∈ s.live → TableOf (s.pgd task) va → s.heap.Owns va .table
  distinct : ∀ {task}, task ∈ s.live → DistinctTables (s.pgd task)
  apart : ∀ {a b va}, a ∈ s.live → b ∈ s.live → a ≠ b →
    TableOf (s.pgd a) va → ¬ TableOf (s.pgd b) va

/-- The entries of the task lead to allocated page frames, no two of them to the same. -/
structure MapsFrames (s : Vm) (task : ℕ) : Prop where
  injective : Injective (s.pgd task)
  page : ∀ {pa}, MapsPage (s.pgd task) pa →
    Counted s.build pa ∧ ∃ id, s.heap.Within (physToVirt pa) id ∧ s.heap.purpose id ≠ .table

/-- The tables of live tasks are separate allocations and map allocated page frames. -/
structure Separate (s : Vm) : Prop where
  valid : s.heap.Valid
  table : ∀ {task va}, task ∈ s.live → TableOf (s.pgd task) va → s.heap.Owns va .table
  distinct : ∀ {task}, task ∈ s.live → DistinctTables (s.pgd task)
  apart : ∀ {a b va}, a ∈ s.live → b ∈ s.live → a ≠ b →
    TableOf (s.pgd a) va → ¬ TableOf (s.pgd b) va
  injective : ∀ {task}, task ∈ s.live → Injective (s.pgd task)
  /-- The page may be anything but a table. -/
  page : ∀ {task pa}, task ∈ s.live → MapsPage (s.pgd task) pa →
    Counted s.build pa ∧ ∃ id, s.heap.Within (physToVirt pa) id ∧ s.heap.purpose id ≠ .table

/-- An allocation that is in use has one purpose. -/
theorem purpose_unique {h : Allocations Word Purpose} {a : Word} {id : ℕ} {purpose : Purpose}
    (within : h.Within a id) (owns : h.Owns a purpose) : h.start id = a ∧
    h.purpose id = purpose := by
  obtain ⟨id', within', start, made⟩ := owns
  have same : id = id' := Option.some.inj (within.1.symm.trans within'.1)
  exact ⟨same ▸ start, same ▸ made⟩

theorem Separate.tables {s : Vm} (separate : Separate s) : Tables s :=
  ⟨separate.valid, separate.table, separate.distinct, separate.apart⟩

theorem Separate.frames {s : Vm} (separate : Separate s) {task : ℕ} (inLive : task ∈ s.live) :
    MapsFrames s task :=
  ⟨separate.injective inLive, separate.page inLive⟩

theorem MapsFrames.page_not_table {s : Vm} {a b : ℕ} {pa : Word} (frames : MapsFrames s a)
    (tables : Tables s) (liveB : b ∈ s.live) (maps : MapsPage (s.pgd a) pa) :
    ¬ TableOf (s.pgd b) (physToVirt pa) := by
  intro table
  obtain ⟨-, id, within, other⟩ := frames.page maps
  exact other (purpose_unique within (tables.table liveB table)).2

/-! ## Freeing the user half -/

/-- What the walk over a task's table leaves of the counts, and what it passes to `free`. -/
structure Released (s : Vm) (task : ℕ) (counts : Word → BitVec 8) (gone : List Word) : Prop where
  nodup : gone.Nodup
  mem_gone : ∀ {pa}, MapsPage (s.pgd task) pa → count s pa ≤ 1 → physToVirt pa ∈ gone
  of_gone : ∀ {a}, a ∈ gone →
    (∃ pa, MapsPage (s.pgd task) pa ∧ count s pa ≤ 1 ∧ physToVirt pa = a) ∨ TableOf (s.pgd task) a
  lowered : ∀ {pa}, MapsPage (s.pgd task) pa → (counts (s.build.pageIdx pa)).toNat = count s pa - 1
  kept : ∀ {pa}, Aligned pa → ¬ MapsPage (s.pgd task) pa →
    (counts (s.build.pageIdx pa)).toNat = count s pa

/-- The walk over a live task's table, with or without the top-level table itself. -/
theorem release_walk {s : Vm} {task : ℕ} {visits : List Visit} (all : Tables s)
    (frames : MapsFrames s task) (inLive : task ∈ s.live)
    (pages : visits.filterMap Visit.page? = pageWords (s.pgd task))
    (nodup : (tablesOf visits).Nodup) (tables : ∀ va ∈ tablesOf visits, TableOf (s.pgd task) va) :
    ∃ counts, visits.foldl Visit.release s =
        { s with pageRefCounts := counts, heap := s.heap.freeAll (released s visits) } ∧
      Released s task counts (released s visits) := by
  have mapped : ∀ {pa}, pa ∈ pagesOf visits ↔ MapsPage (s.pgd task) pa := by
    intro pa
    rw [pagesOf, pages]
    exact mem_pages
  have nodupPages : (pagesOf visits).Nodup := by
    rw [pagesOf, pages]
    exact nodup_pages frames.injective
  have counted : ∀ pa ∈ pagesOf visits, Counted s.build pa := fun pa member =>
    (frames.page (mapped.mp member)).1
  have notTable : ∀ pa ∈ pagesOf visits, physToVirt pa ∉ tablesOf visits := fun pa member table =>
    frames.page_not_table all inLive (mapped.mp member) (tables _ table)
  obtain ⟨counts, result, lower⟩ := release_fold nodupPages counted
  refine ⟨counts, result, nodup_released nodupPages nodup notTable, ?_, ?_, ?_, ?_⟩
  · intro pa maps last
    exact mem_released.mpr (.inl ⟨pa, mapped.mpr maps, last, rfl⟩)
  · intro a member
    rcases mem_released.mp member with ⟨pa, inPages, last, same⟩ | table
    · exact .inl ⟨pa, mapped.mp inPages, last, same⟩
    · exact .inr (tables a table)
  · intro pa maps
    rw [lower pa (frames.page maps).1.1, if_pos (mapped.mpr maps), toNat_lowered, count]
  · intro pa aligned unmapped
    rw [lower pa aligned, if_neg (fun member => unmapped (mapped.mp member)), count]

/-- The user half of a task's table is freed, at exec or at exit. -/
structure Unmaps (s t : Vm) (task : ℕ) (gone : List Word) : Prop where
  build : t.build = s.build
  ram : t.ram = s.ram
  savedRegs : t.savedRegs = s.savedRegs
  signalStack : t.signalStack = s.signalStack
  heap : t.heap = s.heap.freeAll gone
  released : Released s task t.pageRefCounts gone
  live : ∀ {other}, other ≠ task → (other ∈ t.live ↔ other ∈ s.live)
  others : ∀ {other}, other ≠ task → t.pgd other = s.pgd other
  /-- After exec the top-level table stays, without entries. -/
  cleared : task ∈ t.live → (s.pgd task).va ∉ gone ∧
    t.pgd task = { s.pgd task with entry := fun _ => none }

theorem tablesOf_releaseVisits (pgd : Pgd) :
    tablesOf (releaseVisits pgd) = releaseNodes.filterMap (nodeVa pgd) :=
  releaseVisits_tables pgd

theorem nodup_tablesOf_releaseVisits {pgd : Pgd} (distinct : DistinctTables pgd) :
    (tablesOf (releaseVisits pgd)).Nodup := by
  rw [tablesOf_releaseVisits]
  exact nodup_nodes distinct (releaseNodes_perm.nodup_iff.mpr nodup_copyNodes)

theorem mem_tablesOf_releaseVisits {pgd : Pgd} {va : Word}
    (member : va ∈ tablesOf (releaseVisits pgd)) :
    ∃ node, nodeVa pgd node = some va := by
  rw [tablesOf_releaseVisits] at member
  obtain ⟨node, -, here⟩ := List.mem_filterMap.mp member
  exact ⟨node, here⟩

theorem nodeVa_mem_releaseVisits {pgd : Pgd} {node : Node} {va : Word}
    (here : nodeVa pgd node = some va) :
    va ∈ tablesOf (releaseVisits pgd) := by
  rw [tablesOf_releaseVisits]
  exact List.mem_filterMap.mpr ⟨node, releaseNodes_perm.mem_iff.mpr (mem_copyNodes node), here⟩

/-- Exec passes all tables below the top-level one to `free`. -/
theorem Tables.exec_unmaps {s : Vm} {task : ℕ} (all : Tables s) (frames : MapsFrames s task)
    (inLive : task ∈ s.live) :
    ∃ gone, Unmaps s (s.clearUserSpaceMappings task) task gone ∧
      ∀ {node va}, nodeVa (s.pgd task) node = some va → va ∈ gone := by
  have distinct := all.distinct inLive
  obtain ⟨counts, result, effect⟩ := release_walk all frames inLive (releaseVisits_pages _)
    (nodup_tablesOf_releaseVisits distinct) fun va member =>
    .inr (mem_tablesOf_releaseVisits member)
  refine ⟨released s (releaseVisits (s.pgd task)), ?_⟩
  rw [clearUserSpaceMappings, releaseUserHalf_eq, result]
  refine ⟨⟨rfl, rfl, rfl, rfl, rfl, effect, fun _ => Iff.rfl, fun other =>
    Function.update_of_ne other _ _, fun _ => ⟨fun member => ?_, Function.update_self _ _ _⟩⟩,
    fun here => mem_released.mpr (.inr (nodeVa_mem_releaseVisits here))⟩
  rcases mem_released.mp member with ⟨pa, inPages, -, same⟩ | inTables
  · have maps : MapsPage (s.pgd task) pa := by
      rw [pagesOf, releaseVisits_pages] at inPages
      exact mem_pages.mp inPages
    exact frames.page_not_table all inLive maps (.inl same)
  · obtain ⟨node, here⟩ := mem_tablesOf_releaseVisits inTables
    exact distinct.2 node here

theorem exec_unmaps {s : Vm} {task : ℕ} (separate : Separate s) (inLive : task ∈ s.live) :
    ∃ gone, Unmaps s (s.clearUserSpaceMappings task) task gone ∧
      ∀ {node va}, nodeVa (s.pgd task) node = some va → va ∈ gone :=
  separate.tables.exec_unmaps (separate.frames inLive) inLive

/-- Exit passes all tables to `free`. -/
theorem Tables.exit_unmaps {s : Vm} {task : ℕ} (all : Tables s) (frames : MapsFrames s task)
    (inLive : task ∈ s.live) :
    ∃ gone, Unmaps s (s.freeUserPageTable task) task gone ∧
      (s.freeUserPageTable task).live = s.live.erase task ∧
      ∀ {va}, TableOf (s.pgd task) va → va ∈ gone := by
  have distinct := all.distinct inLive
  let visits := releaseVisits (s.pgd task) ++ [.table (s.pgd task).va]
  have split : tablesOf visits = tablesOf (releaseVisits (s.pgd task)) ++ [(s.pgd task).va] :=
    List.filterMap_append
  have whole : (s.releaseUserHalf (s.pgd task)).free (s.pgd task).va =
      visits.foldl Visit.release s := by
    rw [List.foldl_append, ← releaseUserHalf_eq]
    rfl
  have pages : visits.filterMap Visit.page? = pageWords (s.pgd task) := by
    rw [List.filterMap_append, releaseVisits_pages]
    exact List.append_nil _
  have nodup : (tablesOf visits).Nodup := by
    rw [split, List.nodup_append_comm, List.singleton_append]
    refine List.nodup_cons.mpr ⟨fun member => ?_, nodup_tablesOf_releaseVisits distinct⟩
    obtain ⟨node, here⟩ := mem_tablesOf_releaseVisits member
    exact distinct.2 node here
  have tables : ∀ va ∈ tablesOf visits, TableOf (s.pgd task) va := by
    intro va member
    rw [split] at member
    rcases List.mem_append.mp member with below | top
    · exact .inr (mem_tablesOf_releaseVisits below)
    · exact .inl (List.mem_singleton.mp top)
  have allTables : ∀ {va}, TableOf (s.pgd task) va → va ∈ tablesOf visits := by
    rintro va (rfl | ⟨node, here⟩)
    · rw [split]
      exact List.mem_append_right _ List.mem_cons_self
    · rw [split]
      exact List.mem_append_left _ (nodeVa_mem_releaseVisits here)
  obtain ⟨counts, result, effect⟩ := release_walk all frames inLive pages nodup tables
  refine ⟨released s visits, ?_⟩
  rw [freeUserPageTable, whole, result]
  exact ⟨⟨rfl, rfl, rfl, rfl, rfl, effect, fun other => Finset.mem_erase.trans
    (and_iff_right other), fun _ => rfl, fun stays => absurd rfl (Finset.mem_erase.mp stays).1⟩,
    rfl, fun table => mem_released.mpr (.inr (allTables table))⟩

theorem exit_unmaps {s : Vm} {task : ℕ} (separate : Separate s) (inLive : task ∈ s.live) :
    ∃ gone, Unmaps s (s.freeUserPageTable task) task gone ∧
      (s.freeUserPageTable task).live = s.live.erase task ∧
      ∀ {va}, TableOf (s.pgd task) va → va ∈ gone :=
  separate.tables.exit_unmaps (separate.frames inLive) inLive

/-- A table whose user half is empty. -/
theorem entryAt_cleared (pgd : Pgd) (slot : Slot) :
    Pgd.entryAt { pgd with entry := fun _ => none } slot = 0#64 := rfl

theorem not_mapsPage_cleared (pgd : Pgd) (pa : Word) :
    ¬ MapsPage { pgd with entry := fun _ => none } pa := by
  rintro ⟨slot, there, -⟩
  exact absurd there (by simp [entryAt_cleared])

theorem nodeVa_cleared (pgd : Pgd) (node : Node) :
    nodeVa { pgd with entry := fun _ => none } node = none := by
  obtain ⟨i, j⟩ := node
  cases j <;> rfl

/-- The pages that a task maps afterwards are those it mapped, for the task itself none. -/
theorem Unmaps.mapsPage {s t : Vm} {task other : ℕ} {gone : List Word} {pa : Word}
    (unmaps : Unmaps s t task gone) (inLive : other ∈ t.live) : MapsPage (t.pgd other) pa ↔
    other ≠ task ∧ MapsPage (s.pgd other) pa := by
  rcases eq_or_ne other task with rfl | different
  · rw [(unmaps.cleared inLive).2]
    exact ⟨fun maps => absurd maps (not_mapsPage_cleared _ _), fun both => absurd rfl both.1⟩
  · rw [unmaps.others different]
    exact ⟨fun maps => ⟨different, maps⟩, And.right⟩

/-- The tables that a task has afterwards it had before, and they were not freed. -/
theorem Unmaps.tableOf {s t : Vm} {task other : ℕ} {gone : List Word} {va : Word}
    (unmaps : Unmaps s t task gone) (all : Tables s) (frames : MapsFrames s task)
    (taskLive : task ∈ s.live) (inLive : other ∈ t.live) (table : TableOf (t.pgd other) va) :
    TableOf (s.pgd other) va ∧ va ∉ gone := by
  rcases eq_or_ne other task with rfl | different
  · obtain ⟨kept, cleared⟩ := unmaps.cleared inLive
    rw [cleared] at table
    rcases table with rfl | ⟨node, here⟩
    · exact ⟨.inl rfl, kept⟩
    · rw [nodeVa_cleared] at here
      exact absurd here (by simp)
  · rw [unmaps.others different] at table
    have otherLive := (unmaps.live different).mp inLive
    refine ⟨table, fun member => ?_⟩
    rcases unmaps.released.of_gone member with ⟨pa, maps, -, rfl⟩ | own
    · exact frames.page_not_table all otherLive maps table
    · exact all.apart otherLive taskLive different table own

theorem Unmaps.was_live {s t : Vm} {task other : ℕ} {gone : List Word}
    (unmaps : Unmaps s t task gone) (taskLive : task ∈ s.live) (inLive : other ∈ t.live) :
    other ∈ s.live := by
  rcases eq_or_ne other task with rfl | different
  · exact taskLive
  · exact (unmaps.live different).mp inLive

/-- Only allocations in use are passed to `free`, each once. -/
theorem Unmaps.valid {s t : Vm} {task : ℕ} {gone : List Word} (unmaps : Unmaps s t task gone)
    (all : Tables s) (frames : MapsFrames s task) (taskLive : task ∈ s.live) : t.heap.Valid := by
  rw [unmaps.heap]
  apply all.valid.freeAll unmaps.released.nodup
  intro a member id home _
  rcases unmaps.released.of_gone member with ⟨pa, maps, -, rfl⟩ | table
  · obtain ⟨-, id', within, -⟩ := frames.page maps
    obtain rfl := Option.some.inj (within.1.symm.trans home)
    exact within.2
  · obtain ⟨id', within, -⟩ := all.table taskLive table
    obtain rfl := Option.some.inj (within.1.symm.trans home)
    exact within.2

/-- The other tasks keep their tables. -/
theorem Tables.unmap {s t : Vm} {task : ℕ} {gone : List Word} (all : Tables s)
    (frames : MapsFrames s task) (taskLive : task ∈ s.live) (unmaps : Unmaps s t task gone) :
    Tables t where
  valid := unmaps.valid all frames taskLive
  table inLive table := by
    obtain ⟨before, notGone⟩ := unmaps.tableOf all frames taskLive inLive table
    rw [unmaps.heap]
    exact (all.table (unmaps.was_live taskLive inLive) before).freeAll notGone
  distinct := by
    intro other inLive
    rcases eq_or_ne other task with rfl | different
    · rw [(unmaps.cleared inLive).2]
      constructor
      · intro a b va here
        rw [nodeVa_cleared] at here
        exact absurd here (by simp)
      · intro node here
        rw [nodeVa_cleared] at here
        exact absurd here (by simp)
    · rw [unmaps.others different]
      exact all.distinct (unmaps.was_live taskLive inLive)
  apart liveA liveB different tableA tableB := by
    obtain ⟨beforeA, -⟩ := unmaps.tableOf all frames taskLive liveA tableA
    obtain ⟨beforeB, -⟩ := unmaps.tableOf all frames taskLive liveB tableB
    exact all.apart (unmaps.was_live taskLive liveA) (unmaps.was_live taskLive liveB)
      different beforeA beforeB

/-- And their address spaces, if the allocations behind their pages are kept. -/
theorem Separate.unmap {s t : Vm} {task : ℕ} {gone : List Word} (separate : Separate s)
    (taskLive : task ∈ s.live) (unmaps : Unmaps s t task gone)
    (kept : ∀ {other pa id}, other ∈ s.live → other ≠ task → MapsPage (s.pgd other) pa →
      s.heap.Within (physToVirt pa) id → s.heap.start id ∉ gone) : Separate t := by
  have all := separate.tables.unmap (separate.frames taskLive) taskLive unmaps
  refine ⟨all.valid, all.table, all.distinct, all.apart, ?_, ?_⟩
  · intro other inLive
    rcases eq_or_ne other task with rfl | different
    · rw [(unmaps.cleared inLive).2]
      intro a b there
      exact absurd there (by simp [entryAt_cleared])
    · rw [unmaps.others different]
      exact separate.injective (unmaps.was_live taskLive inLive)
  · intro other pa inLive maps
    obtain ⟨different, before⟩ := (unmaps.mapsPage inLive).mp maps
    have otherLive := unmaps.was_live taskLive inLive
    obtain ⟨counted, id, within, purpose⟩ := separate.page otherLive before
    rw [unmaps.build, unmaps.heap, Allocations.freeAll_purpose]
    exact ⟨counted, id, within.freeAll (kept otherLive different before within), purpose⟩

/-! ## Forking -/

/-- The page tables of a parent are copied for a new child. -/
structure Copies (s t : Vm) (parent child : ℕ) : Prop where
  build : t.build = s.build
  ram : t.ram = s.ram
  savedRegs : t.savedRegs = Function.update s.savedRegs child 0#64
  signalStack : t.signalStack = Function.update s.signalStack child 0#64
  heap : s.heap.Extends t.heap
  live : t.live = insert child s.live
  parentPgd : t.pgd parent = parentTable (s.pgd parent)
  childPgd : ∃ pages, t.pgd child = childTable (s.pgd parent) pages
  others : ∀ {other}, other ≠ parent → other ≠ child → t.pgd other = s.pgd other
  distinct : DistinctTables (t.pgd child)
  fresh : ∀ {va}, TableOf (t.pgd child) va → t.heap.Owns va .table ∧ ∀ id, ¬ s.heap.Within va id

/-- And each page of the parent is counted once more. -/
structure Forks (s t : Vm) (parent child : ℕ) : Prop extends Copies s t parent child where
  raised : ∀ {pa}, Aligned pa → MapsPage (s.pgd parent) pa → count t pa = (count s pa + 1) % 256
  kept : ∀ {pa}, Aligned pa → ¬ MapsPage (s.pgd parent) pa → count t pa = count s pa

/-- Tables at different places have different addresses if their list has no duplicates. -/
private theorem distinct_of_nodup {pgd : Pgd} (nodup : (copyNodes.filterMap (nodeVa pgd)).Nodup)
    {a b : Node} {va : Word} (atA : nodeVa pgd a = some va)
    (atB : nodeVa pgd b = some va) : a = b := by
  have pairwise := List.pairwise_filterMap.mp nodup
  have symmetric : Std.Symm fun a b : Node => ∀ va, nodeVa pgd a = some va →
      ∀ vb, nodeVa pgd b = some vb → va ≠ vb :=
    ⟨fun _ _ apart vb atB va atA => (apart va atA vb atB).symm⟩
  by_contra different
  exact pairwise.forall (mem_copyNodes a) (mem_copyNodes b) different va atA va atB rfl

theorem Tables.fork_copies {s t : Vm} {parent child : ℕ} {pages : ForkPages} (all : Tables s)
    (parentLive : parent ∈ s.live) (childNew : child ∉ s.live)
    (result : s.sysFork parent child pages = some t) :
    Copies s t parent child := by
  obtain ⟨first, allocated, rest⟩ := Option.bind_eq_some_iff.mp result
  obtain ⟨second, copied, rest⟩ := Option.bind_eq_some_iff.mp rest
  obtain rfl := Option.some.inj rest
  obtain ⟨heap, rfl, grown, top, topFresh, -⟩ := allocatePage_spec all.valid allocated
  have different : parent ≠ child := fun same => childNew (same ▸ parentLive)
  rw [copyUserHalf_eq] at copied
  obtain ⟨frame, grown', nodup, new⟩ :=
    copy_tables (s := { s with heap := heap }) grown.valid copied
  have tables : tablesOf (copyVisits (s.pgd parent) pages) =
      copyNodes.filterMap (nodeVa (childTable (s.pgd parent) pages)) := copyVisits_tables _ _
  rw [tables] at nodup new
  have fresh : ∀ {node va}, nodeVa (childTable (s.pgd parent) pages) node = some va →
      second.heap.Owns va .table ∧ ∀ id, ¬ heap.Within va id := fun here =>
    new _ (List.mem_filterMap.mpr ⟨_, mem_copyNodes _, here⟩)
  have childEq :
      Function.update (Function.update second.pgd parent (parentTable (s.pgd parent))) child
      (childTable (s.pgd parent) pages) child = childTable (s.pgd parent) pages :=
      Function.update_self _ _ _
  refine ⟨by rw [frame], by rw [frame], by rw [frame], by rw [frame],
    grown.trans grown', by rw [frame], ?_, ⟨pages, childEq⟩, fun notParent notChild => ?_, ?_, ?_⟩
  · exact (Function.update_of_ne different _ _).trans (Function.update_self _ _ _)
  · refine (Function.update_of_ne notChild _ _).trans
      ((Function.update_of_ne notParent _ _).trans ?_)
    rw [frame]
  · simp only [childEq]
    refine ⟨fun a b va atA atB => distinct_of_nodup nodup atA atB, fun node here => ?_⟩
    obtain ⟨id, within, -⟩ := top
    exact (fresh here).2 id within
  · intro va table
    simp only [childEq] at table
    rcases table with rfl | ⟨node, here⟩
    · exact ⟨grown'.owns top, topFresh⟩
    · obtain ⟨owns, notWithin⟩ := fresh here
      exact ⟨owns, fun id within => notWithin id (grown.kept within).1⟩

theorem fork_forks {s t : Vm} {parent child : ℕ} {pages : ForkPages} (separate : Separate s)
    (parentLive : parent ∈ s.live) (childNew : child ∉ s.live)
    (result : s.sysFork parent child pages = some t) :
    Forks s t parent child := by
  have copies := separate.tables.fork_copies parentLive childNew result
  refine ⟨copies, fun aligned maps => ?_, fun aligned unmapped => ?_⟩
  all_goals
    rw [count, copies.build]
    obtain ⟨first, allocated, rest⟩ := Option.bind_eq_some_iff.mp result
    obtain ⟨second, copied, rest⟩ := Option.bind_eq_some_iff.mp rest
    obtain rfl := Option.some.inj rest
    obtain ⟨heap, rfl, grown, -⟩ := allocatePage_spec separate.valid allocated
    have mapped : ∀ {pa}, pa ∈ pagesOf (copyVisits (s.pgd parent) pages) ↔
      MapsPage (s.pgd parent) pa := by
      intro pa
      rw [pagesOf, copyVisits_pages]
      exact mem_pages
    rw [copyUserHalf_eq] at copied
    have value := copy_counts (s := { s with heap := heap }) grown.valid
      (by rw [pagesOf, copyVisits_pages]; exact nodup_pages (separate.injective parentLive))
      (fun pa member => (separate.page parentLive (mapped.mp member)).1) copied aligned
  · rw [if_pos (mapped.mpr maps)] at value
    exact (congrArg BitVec.toNat value).trans (BitVec.toNat_add _ _)
  · rw [if_neg (fun member => unmapped (mapped.mp member))] at value
    exact congrArg BitVec.toNat value

/-- The number of the page that an address is in. -/
def frame (a : Word) : Word := a >>> 12

/-- No allocation ever had an address of the page. -/
def Unused (s : Vm) (va : Word) : Prop := ∀ a, frame a = frame va → s.heap.home a = none

theorem frame_of_mem_region {va a : Word} (aligned : Aligned va) (member : a ∈ region va 4096) :
    frame a = frame va := by
  obtain ⟨i, inside, rfl⟩ := List.mem_map.mp member
  have small := List.mem_range.mp inside
  have bound := va.isLt
  rw [Aligned] at aligned
  apply BitVec.eq_of_toNat_eq
  rw [frame, frame, BitVec.toNat_ushiftRight, BitVec.toNat_ushiftRight, BitVec.toNat_add,
    BitVec.toNat_ofNat, Nat.shiftRight_eq_div_pow, Nat.shiftRight_eq_div_pow]
  omega

theorem aligned_of_isPage {s : Vm} {va : Word} (page : s.isPage va = true) : Aligned va := by
  rw [isPage, Bool.and_eq_true, decide_eq_true_iff] at page
  have low := congrArg BitVec.toNat page.1
  rw [BitVec.toNat_and, show (4095#64).toNat = 2 ^ 12 - 1 from rfl,
    Nat.and_two_pow_sub_one_eq_mod] at low
  exact low

theorem allocatePage_succeeds {s : Vm} {va : Word} (purpose : Purpose)
    (page : s.isPage va = true) (unused : Unused s va) :
    ∃ heap, s.allocatePage va purpose = some { s with heap := heap } ∧
      ∀ a, frame a ≠ frame va → heap.home a = s.heap.home a := by
  have aligned := aligned_of_isPage page
  have free : ∀ a ∈ region va 4096, s.heap.home a = none := fun a member =>
    unused a (frame_of_mem_region aligned member)
  obtain ⟨heap, allocated, others⟩ := s.heap.allocate_succeeds va purpose free
  refine ⟨heap, ?_,
    fun a different => others a fun member => different (frame_of_mem_region aligned member)⟩
  rw [allocatePage, if_pos page, Vm.allocate, allocated, Option.map_some]

/-- Copying succeeds where the tables can be allocated. -/
private theorem copy_succeeds {s : Vm} {visits : List Visit}
    (nodup : ((tablesOf visits).map frame).Nodup)
    (pages : ∀ va ∈ tablesOf visits, s.isPage va = true ∧ Unused s va) :
    ∃ t, visits.foldlM Visit.copy s = some t ∧
      ∀ a, frame a ∉ (tablesOf visits).map frame → t.heap.home a = s.heap.home a := by
  induction visits generalizing s with
  | nil => exact ⟨s, rfl, fun _ _ => rfl⟩
  | cons visit rest ih =>
    cases visit with
    | page pte =>
      have same : (s.incrementPageRef (ptePa (share pte))).heap = s.heap ∧
          (s.incrementPageRef (ptePa (share pte))).build = s.build := by
        rw [incrementPageRef]
        split <;> exact ⟨rfl, rfl⟩
      obtain ⟨t, result, others⟩ :=
        ih (s := s.incrementPageRef (ptePa (share pte))) nodup fun va member => by
        rw [isPage, Unused, same.1, same.2]
        exact pages va member
      rw [same.1] at others
      exact ⟨t, result, others⟩
    | table va =>
      obtain ⟨notIn, nodupRest⟩ := List.nodup_cons.mp nodup
      obtain ⟨page, unused⟩ := pages va List.mem_cons_self
      obtain ⟨heap, allocated, kept⟩ := allocatePage_succeeds .table page unused
      obtain ⟨t, result, others⟩ :=
        ih (s := { s with heap := heap }) nodupRest fun other member => by
        obtain ⟨page', unused'⟩ := pages other (List.mem_cons_of_mem _ member)
        refine ⟨page', fun a here => ?_⟩
        have different : frame a ≠ frame va := fun same =>
          notIn (same ▸ here ▸ List.mem_map_of_mem member)
        exact (kept a different).trans (unused' a here)
      refine ⟨t, ?_, fun a outside => ?_⟩
      · rw [List.foldlM_cons, Visit.copy, allocated]
        exact result
      · obtain ⟨notVa, notRest⟩ := not_or.mp (fun member => outside (List.mem_cons.mpr member))
        exact (others a notRest).trans (kept a notVa)

/-- A fork succeeds where its tables can be allocated. -/
theorem fork_succeeds {s : Vm} {pages : ForkPages} (parent child : ℕ)
    (nodup : ((pages.pgd :: tablesOf (copyVisits (s.pgd parent) pages)).map frame).Nodup)
    (unused : ∀ va ∈ pages.pgd :: tablesOf (copyVisits (s.pgd parent) pages), s.isPage va = true ∧
      Unused s va) :
    ∃ t, s.sysFork parent child pages = some t ∧ ∀ a,
      frame a ∉ (pages.pgd :: tablesOf (copyVisits (s.pgd parent) pages)).map frame →
        t.heap.home a = s.heap.home a := by
  let visits : List Visit := .table pages.pgd :: copyVisits (s.pgd parent) pages
  have nodupVisits : ((tablesOf visits).map frame).Nodup := nodup
  obtain ⟨t, result, others⟩ := copy_succeeds nodupVisits unused
  obtain ⟨mid, first, rest⟩ := Option.bind_eq_some_iff.mp result
  rw [← copyUserHalf_eq] at rest
  have forked : ∃ final, s.sysFork parent child pages = some final ∧ final.heap = t.heap := by
    simp only [Visit.copy] at first
    simp only [sysFork, first, rest, Option.bind_eq_bind, Option.bind_some]
    exact ⟨_, rfl, rfl⟩
  obtain ⟨final, result', heap⟩ := forked
  exact ⟨final, result', fun a outside => heap ▸ others a outside⟩

/-- The same pages at the same places. -/
def SameMaps (p q : Pgd) : Prop := ∀ slot, present (p.entryAt slot) = present (q.entryAt slot) ∧
  (present (q.entryAt slot) = true → ptePa (p.entryAt slot) = ptePa (q.entryAt slot))

theorem SameMaps.mapsPage {p q : Pgd} (same : SameMaps p q) {pa : Word} :
    MapsPage p pa ↔ MapsPage q pa := by
  constructor
  · rintro ⟨slot, there, rfl⟩
    have before := (same slot).1.symm.trans there
    exact ⟨slot, before, ((same slot).2 before).symm⟩
  · rintro ⟨slot, there, rfl⟩
    exact ⟨slot, (same slot).1.trans there, (same slot).2 there⟩

theorem SameMaps.injective {p q : Pgd} (same : SameMaps p q) (injective : Injective q) :
    Injective p := by
  intro a b thereA thereB equal
  have beforeA := (same a).1.symm.trans thereA
  have beforeB := (same b).1.symm.trans thereB
  exact injective a b beforeA beforeB
    (((same a).2 beforeA).symm.trans (equal.trans ((same b).2 beforeB)))

/-- The task whose table a task has after a fork. -/
def origin (parent child other : ℕ) : ℕ := if other = child then parent else other

theorem origin_child (parent child : ℕ) : origin parent child child = parent := if_pos rfl

theorem origin_of_ne {parent child other : ℕ} (notChild : other ≠ child) :
    origin parent child other = other :=
  if_neg notChild

section Forked

variable {s t : Vm} {parent child : ℕ} (copies : Copies s t parent child)
include copies

theorem Copies.sameMaps (other : ℕ) :
    SameMaps (t.pgd other) (s.pgd (origin parent child other)) := by
  rcases eq_or_ne other child with rfl | notChild
  · obtain ⟨pages, childPgd⟩ := copies.childPgd
    rw [origin_child, childPgd]
    exact fun slot => ⟨present_childTable _ _ slot, ptePa_childTable pages⟩
  rw [origin_of_ne notChild]
  rcases eq_or_ne other parent with rfl | notParent
  · rw [copies.parentPgd]
    exact fun slot => ⟨present_parentTable _ slot, fun _ => ptePa_parentTable _ slot⟩
  · rw [copies.others notParent notChild]
    exact fun slot => ⟨rfl, fun _ => rfl⟩

theorem Copies.tableOf {other : ℕ} {va : Word} (notChild : other ≠ child) :
    TableOf (t.pgd other) va ↔ TableOf (s.pgd other) va := by
  rcases eq_or_ne other parent with rfl | notParent
  · rw [copies.parentPgd, TableOf, TableOf]
    simp only [nodeVa_parentTable]
    rfl
  · rw [copies.others notParent notChild]

theorem Copies.distinctTables {other : ℕ} (notChild : other ≠ child)
    (distinct : DistinctTables (s.pgd other)) :
    DistinctTables (t.pgd other) := by
  rcases eq_or_ne other parent with rfl | notParent
  · rw [copies.parentPgd, DistinctTables]
    simp only [nodeVa_parentTable]
    exact distinct
  · rw [copies.others notParent notChild]
    exact distinct

theorem Copies.was_live {other : ℕ} (parentLive : parent ∈ s.live) (inLive : other ∈ t.live) :
    origin parent child other ∈ s.live := by
  rw [copies.live] at inLive
  rcases eq_or_ne other child with rfl | notChild
  · rw [origin_child]
    exact parentLive
  · rw [origin_of_ne notChild]
    exact (Finset.mem_insert.mp inLive).resolve_left notChild

/-- The child's tables are new. -/
theorem Tables.fork (all : Tables s) (parentLive : parent ∈ s.live) : Tables t where
  valid := copies.heap.valid
  table := by
    intro other va inLive table
    rcases eq_or_ne other child with rfl | notChild
    · exact (copies.fresh table).1
    · have wasLive := copies.was_live parentLive inLive
      rw [origin_of_ne notChild] at wasLive
      exact copies.heap.owns (all.table wasLive ((copies.tableOf notChild).mp table))
  distinct := by
    intro other inLive
    rcases eq_or_ne other child with rfl | notChild
    · exact copies.distinct
    · have wasLive := copies.was_live parentLive inLive
      rw [origin_of_ne notChild] at wasLive
      exact copies.distinctTables notChild (all.distinct wasLive)
  apart := by
    have fromChild : ∀ {other va}, other ∈ t.live → other ≠ child → TableOf (t.pgd child) va →
        ¬ TableOf (t.pgd other) va := by
      intro other va inLive notChild childTable table
      have wasLive := copies.was_live parentLive inLive
      rw [origin_of_ne notChild] at wasLive
      obtain ⟨id, within, -⟩ := all.table wasLive ((copies.tableOf notChild).mp table)
      exact (copies.fresh childTable).2 id within
    intro a b va liveA liveB different tableA tableB
    rcases eq_or_ne a child with rfl | notA
    · exact fromChild liveB different.symm tableA tableB
    rcases eq_or_ne b child with rfl | notB
    · exact fromChild liveA notA tableB tableA
    have wasA := copies.was_live parentLive liveA
    have wasB := copies.was_live parentLive liveB
    rw [origin_of_ne notA] at wasA
    rw [origin_of_ne notB] at wasB
    exact all.apart wasA wasB different ((copies.tableOf notA).mp tableA)
      ((copies.tableOf notB).mp tableB)

omit copies in
theorem Separate.fork (forks : Forks s t parent child) (separate : Separate s)
    (parentLive : parent ∈ s.live) :
    Separate t := by
  have all := separate.tables.fork forks.toCopies parentLive
  refine ⟨all.valid, all.table, all.distinct, all.apart, fun inLive => ?_, ?_⟩
  · exact (forks.sameMaps _).injective (separate.injective (forks.was_live parentLive inLive))
  · intro other pa inLive maps
    obtain ⟨counted, id, within, purpose⟩ :=
      separate.page (forks.was_live parentLive inLive) ((forks.sameMaps other).mapsPage.mp maps)
    obtain ⟨within', -, purpose'⟩ := forks.heap.kept within
    rw [forks.build]
    exact ⟨counted, id, within', purpose' ▸ purpose⟩

end Forked

/-! ## Mapping a page -/

/-- The path of tables that a walk ends with, with the entry written. -/
def withPath (pgd : Pgd) (slot : Slot) (pmd : PmdTable) (table : PteTable) (pte : Word) : Pgd :=
  let table := { table with entry := Function.update table.entry slot.2.2 pte }
  let pmd := { pmd with entry := Function.update pmd.entry slot.2.1 (some table) }
  { pgd with entry := Function.update pgd.entry slot.1 (some pmd) }

/-- The table is where the walk found it, or empty where it found none. -/
def OnPath {τ : Type} (found : Option τ) (empty used : τ) : Prop :=
  found = some used ∨ found = none ∧ used = empty

theorem entryAt_withPath {pgd : Pgd} {slot : Slot} {pmd : PmdTable} {table : PteTable}
    {pte newPmd newPte : Word} (upper : OnPath (pgd.entry slot.1) ⟨newPmd, fun _ => none⟩ pmd)
    (lower : OnPath (pmd.entry slot.2.1) ⟨newPte, fun _ => 0#64⟩ table) :
    (withPath pgd slot pmd table pte).entryAt = Function.update pgd.entryAt slot pte := by
  funext other
  obtain ⟨i, j, k⟩ := slot
  obtain ⟨i', j', k'⟩ := other
  simp only at upper lower
  rcases eq_or_ne i' i with rfl | otherI
  · rcases eq_or_ne j' j with rfl | otherJ
    · have before : pgd.entryAt (i', j', k') = table.entry k' := by
        rcases upper with found | ⟨missing, rfl⟩
        · rcases lower with found' | ⟨missing', rfl⟩
          · simp [Pgd.entryAt, found, found']
          · simp [Pgd.entryAt, found, missing']
        · rcases lower with found' | ⟨-, rfl⟩
          · exact absurd found' (by simp)
          · simp [Pgd.entryAt, missing]
      rcases eq_or_ne k' k with rfl | otherK
      · simp [Pgd.entryAt, withPath]
      · rw [Function.update_of_ne (by simpa using otherK), before]
        simp [Pgd.entryAt, withPath, otherK]
    · rw [Function.update_of_ne (by simp [otherJ])]
      rcases upper with found | ⟨missing, rfl⟩
      · simp [Pgd.entryAt, withPath, otherJ, found]
      · simp [Pgd.entryAt, withPath, otherJ, missing]
  · rw [Function.update_of_ne (by simp [otherI])]
    simp [Pgd.entryAt, withPath, otherI]

/-- The places of the two tables on the path get their addresses, and no other place changes. -/
theorem nodeVa_withPath {pgd : Pgd} {slot : Slot} {pmd : PmdTable} {table : PteTable}
    {pte newPmd newPte : Word} (upper : OnPath (pgd.entry slot.1) ⟨newPmd, fun _ => none⟩ pmd)
    (lower : OnPath (pmd.entry slot.2.1) ⟨newPte, fun _ => 0#64⟩ table) {node : Node} {va : Word}
    (here : nodeVa (withPath pgd slot pmd table pte) node = some va) : nodeVa pgd node = some va ∨
      (pgd.entry slot.1 = none ∧ node = (slot.1, none) ∧ va = newPmd) ∨
      (pmd.entry slot.2.1 = none ∧ node = (slot.1, some slot.2.1) ∧ va = newPte) := by
  obtain ⟨i, j, k⟩ := slot
  obtain ⟨i', j'⟩ := node
  simp only at upper lower ⊢
  rcases eq_or_ne i' i with rfl | otherI
  · cases j' with
    | none =>
      rw [nodeVa, withPath] at here
      simp only [Function.update_self, Option.map_some, Option.some.injEq] at here
      rcases upper with found | ⟨missing, rfl⟩
      · exact .inl (by rw [nodeVa, found, Option.map_some, here])
      · exact .inr (.inl ⟨missing, rfl, here.symm⟩)
    | some j' =>
      rw [nodeVa, withPath] at here
      simp only [Function.update_self, Option.bind_some] at here
      rcases eq_or_ne j' j with rfl | otherJ
      · simp only [Function.update_self, Option.map_some, Option.some.injEq] at here
        rcases lower with found' | ⟨missing', rfl⟩
        · rcases upper with found | ⟨missing, rfl⟩
          · exact .inl (by rw [nodeVa, found, Option.bind_some, found', Option.map_some, here])
          · exact absurd found' (by simp)
        · exact .inr (.inr ⟨missing', rfl, here.symm⟩)
      · rw [Function.update_of_ne otherJ] at here
        rcases upper with found | ⟨missing, rfl⟩
        · exact .inl (by rw [nodeVa, found, Option.bind_some, here])
        · exact absurd here (by simp)
  · have same : nodeVa (withPath pgd (i, j, k) pmd table pte) (i', j') = nodeVa pgd (i', j') := by
      cases j' <;> simp [nodeVa, withPath, otherI]
    exact .inl (same ▸ here)

/-- What `pagewalk` leaves. -/
structure Walked (s t : Vm) (task : ℕ) (slot : Slot) (pte : Word) : Prop where
  frame : t = { s with heap := t.heap, pgd := t.pgd }
  heap : s.heap.Extends t.heap
  others : ∀ {other}, other ≠ task → t.pgd other = s.pgd other
  entry : (t.pgd task).entryAt = Function.update (s.pgd task).entryAt slot pte
  top : (t.pgd task).va = (s.pgd task).va
  /-- A table that is new is an allocation that is new. -/
  node : ∀ {node va}, nodeVa (t.pgd task) node = some va →
    nodeVa (s.pgd task) node = some va ∨ (t.heap.Owns va .table ∧ ∀ id, ¬ s.heap.Within va id)
  unique : ∀ {a b va}, nodeVa (t.pgd task) a = some va → nodeVa (t.pgd task) b = some va →
    (∀ id, ¬ s.heap.Within va id) → a = b

/-- One level of the walk: the table that is there, or a new one. -/
theorem walkLevel_spec {τ : Type} {s t : Vm} {found : Option τ} {empty used : τ} {va : Word}
    (valid : s.heap.Valid) (result : s.walkLevel found va empty = some (t, used)) :
    ∃ heap, t = { s with heap := heap } ∧ s.heap.Extends heap ∧ OnPath found empty used ∧
      (found = none → heap.Owns va .table ∧ ∀ id, ¬ s.heap.Within va id) := by
  cases found with
  | some table =>
    obtain ⟨rfl, rfl⟩ := Prod.mk.inj (Option.some.inj result)
    exact ⟨s.heap, rfl, .refl valid, .inl rfl, fun missing => absurd missing (by simp)⟩
  | none =>
    obtain ⟨next, allocated, same⟩ := Option.map_eq_some_iff.mp result
    obtain ⟨rfl, rfl⟩ := Prod.mk.inj same
    obtain ⟨heap, rfl, grown, owns, fresh, -⟩ := allocatePage_spec valid allocated
    exact ⟨heap, rfl, grown, .inr ⟨rfl, rfl⟩, fun _ => ⟨owns, fresh⟩⟩

theorem pagewalk_walked {s t : Vm} {task : ℕ} {slot : Slot} {pa prot newPmd newPte : Word}
    (valid : s.heap.Valid)
    (inUse : ∀ {node va}, nodeVa (s.pgd task) node = some va → ∃ id, s.heap.Within va id)
    (result : s.pagewalk task slot pa prot newPmd newPte = some t) :
    Walked s t task slot (makePte pa (prot ||| pteV)) := by
  obtain ⟨⟨first, pmd⟩, upperResult, rest⟩ := Option.bind_eq_some_iff.mp result
  obtain ⟨⟨second, table⟩, lowerResult, rest⟩ := Option.bind_eq_some_iff.mp rest
  obtain ⟨heap, rfl, grown, upper, newUpper⟩ := walkLevel_spec valid upperResult
  obtain ⟨heap', rfl, grown', lower, newLower⟩ :=
    walkLevel_spec (s := { s with heap := heap }) grown.valid lowerResult
  have notBoth : (s.pgd task).entry slot.1 = none →
      pmd.entry slot.2.1 = none → newPmd ≠ newPte := by
    rintro missing missing' rfl
    obtain ⟨id, within, -⟩ := (newUpper missing).1
    exact (newLower missing').2 id within
  have final : t = { s with
      heap := heap'
      pgd := Function.update s.pgd task
        (withPath (s.pgd task) slot pmd table (makePte pa (prot ||| pteV))) } :=
    (Option.some.inj rest).symm
  have mine : t.pgd task = withPath (s.pgd task) slot pmd table (makePte pa (prot ||| pteV)) := by
    rw [final]
    exact Function.update_self _ _ _
  have heapEq : t.heap = heap' := congrArg Vm.heap final
  refine ⟨?_, ?_, fun different => ?_, ?_, ?_, ?_, ?_⟩
  · rw [final]
  · rw [heapEq]
    exact grown.trans grown'
  · rw [final]
    exact Function.update_of_ne different _ _
  · rw [mine]
    exact entryAt_withPath upper lower
  · rw [mine]
    rfl
  · intro node va here
    rw [mine] at here
    rw [heapEq]
    rcases nodeVa_withPath upper lower here with old | ⟨missing, -, rfl⟩ | ⟨missing, -, rfl⟩
    · exact .inl old
    · obtain ⟨owns, fresh⟩ := newUpper missing
      exact .inr ⟨grown'.owns owns, fresh⟩
    · obtain ⟨owns, fresh⟩ := newLower missing
      exact .inr ⟨owns, fun id within => fresh id (grown.kept within).1⟩
  · intro a b va atA atB fresh
    rw [mine] at atA atB
    have notOld : ∀ {node}, nodeVa (s.pgd task) node ≠ some va := fun old =>
      (inUse old).elim fresh
    rcases nodeVa_withPath upper lower atA with old | ⟨missing, rfl, newA⟩ | ⟨missing, rfl, newA⟩
    · exact absurd old notOld
    · rcases nodeVa_withPath upper lower atB with old | ⟨-, rfl, -⟩ | ⟨missing', -, newB⟩
      · exact absurd old notOld
      · rfl
      · exact absurd (newA.symm.trans newB) (notBoth missing missing')
    · rcases nodeVa_withPath upper lower atB with old | ⟨missing', -, newB⟩ | ⟨-, rfl, -⟩
      · exact absurd old notOld
      · exact absurd (newB.symm.trans newA) (notBoth missing' missing)
      · rfl

section Accounts

variable {s t : Vm} {task base : ℕ} {slot : Slot} {held held' : Word → Prop}

theorem allocatePage_accounted {va : Word} {purpose : Purpose} (valid : s.heap.Valid)
    (accounted : s.heap.Accounted base held) (result : s.allocatePage va purpose = some t) :
    t.heap.Accounted base fun a => held a ∨ a = va := by
  rw [allocatePage] at result
  split at result
  · obtain ⟨heap, allocated, rfl⟩ := Option.map_eq_some_iff.mp result
    exact accounted.allocate valid.numbered allocated (mem_region (by decide))
  · cases result

theorem walkLevel_accounted {τ : Type} {found : Option τ} {empty used : τ} {va : Word}
    (valid : s.heap.Valid) (accounted : s.heap.Accounted base held)
    (result : s.walkLevel found va empty = some (t, used)) :
    t.heap.Accounted base fun a => held a ∨ found = none ∧ a = va := by
  cases found with
  | some table =>
    obtain ⟨rfl, rfl⟩ := Prod.mk.inj (Option.some.inj result)
    exact accounted.mono fun a here => .inl here
  | none =>
    obtain ⟨next, allocated, same⟩ := Option.map_eq_some_iff.mp result
    obtain ⟨rfl, rfl⟩ := Prod.mk.inj same
    exact (allocatePage_accounted valid accounted allocated).mono fun a =>
      Or.imp_right fun here => ⟨rfl, here⟩

/-- The tables on the path are among the tables afterwards, and so are all tables that were
there. -/
private theorem nodeVa_withPath_of {pgd : Pgd} {pmd : PmdTable} {table : PteTable}
    {pte newPmd newPte : Word} (upper : OnPath (pgd.entry slot.1) ⟨newPmd, fun _ => none⟩ pmd)
    (lower : OnPath (pmd.entry slot.2.1) ⟨newPte, fun _ => 0#64⟩ table) {node : Node} {va : Word}
    (here : nodeVa pgd node = some va) :
    nodeVa (withPath pgd slot pmd table pte) node = some va := by
  obtain ⟨i, j, k⟩ := slot
  obtain ⟨i', j'⟩ := node
  simp only at upper lower
  rcases eq_or_ne i' i with rfl | otherI
  · rcases upper with found | ⟨missing, rfl⟩
    · cases j' with
      | none =>
        rw [nodeVa, found] at here
        simpa [nodeVa, withPath] using here
      | some j' =>
        rw [nodeVa, found, Option.bind_some] at here
        rcases eq_or_ne j' j with rfl | otherJ
        · rcases lower with found' | ⟨missing', rfl⟩
          · rw [found'] at here
            simpa [nodeVa, withPath] using here
          · rw [missing'] at here
            cases here
        · simpa [nodeVa, withPath, otherJ] using here
    · cases j' <;> simp [nodeVa, missing] at here
  · cases j' <;> simpa [nodeVa, withPath, otherI] using here

theorem pagewalk_accounted {pa prot newPmd newPte : Word} (valid : s.heap.Valid)
    (result : s.pagewalk task slot pa prot newPmd newPte = some t) :
    (∀ va, TableOf (s.pgd task) va → TableOf (t.pgd task) va) ∧
    ∀ {base held}, s.heap.Accounted base held →
      t.heap.Accounted base fun a => held a ∨ TableOf (t.pgd task) a := by
  obtain ⟨⟨first, pmd⟩, upperResult, rest⟩ := Option.bind_eq_some_iff.mp result
  obtain ⟨⟨second, table⟩, lowerResult, rest⟩ := Option.bind_eq_some_iff.mp rest
  obtain ⟨heap, rfl, grown, upper, -⟩ := walkLevel_spec valid upperResult
  obtain ⟨heap', rfl, -, lower, -⟩ :=
    walkLevel_spec (s := { s with heap := heap }) grown.valid lowerResult
  obtain rfl := Option.some.inj rest
  simp only [Function.update_self]
  change (∀ va, TableOf (s.pgd task) va →
      TableOf (withPath (s.pgd task) slot pmd table (makePte pa (prot ||| pteV))) va) ∧
    ∀ {base held}, s.heap.Accounted base held → heap'.Accounted base fun a =>
      held a ∨ TableOf (withPath (s.pgd task) slot pmd table (makePte pa (prot ||| pteV))) a
  refine ⟨fun va old => old.imp_right fun ⟨node, here⟩ =>
    ⟨node, nodeVa_withPath_of upper lower here⟩, ?_⟩
  intro base held accounted
  have mid := walkLevel_accounted valid accounted upperResult
  refine (walkLevel_accounted (s := { s with heap := heap }) grown.valid mid lowerResult).mono ?_
  rintro a ((old | ⟨missing, rfl⟩) | ⟨missing, rfl⟩)
  · exact .inl old
  · obtain ⟨-, rfl⟩ := upper.resolve_left (by simp [missing])
    exact .inr (.inr ⟨(slot.1, none), by simp [nodeVa, withPath]⟩)
  · obtain ⟨-, rfl⟩ := lower.resolve_left (by simp [missing])
    exact .inr (.inr ⟨(slot.1, some slot.2.1), by simp [nodeVa, withPath]⟩)

end Accounts

/-- A walk adds at most the page it maps. -/
theorem Walked.mapsPage {s t : Vm} {task : ℕ} {slot : Slot} {pte pa : Word}
    (walked : Walked s t task slot pte) (maps : MapsPage (t.pgd task) pa) : pa = ptePa pte ∨
    MapsPage (s.pgd task) pa := by
  obtain ⟨other, there, rfl⟩ := maps
  rw [walked.entry] at there ⊢
  rcases eq_or_ne other slot with rfl | different
  · rw [Function.update_self]
    exact .inl rfl
  · rw [Function.update_of_ne different] at there ⊢
    exact .inr ⟨other, there, rfl⟩

theorem Walked.tableOf {s t : Vm} {task other : ℕ} {slot : Slot} {pte va : Word}
    (walked : Walked s t task slot pte) (table : TableOf (t.pgd other) va) :
    TableOf (s.pgd other) va ∨
      other = task ∧ t.heap.Owns va .table ∧ ∀ id, ¬ s.heap.Within va id := by
  rcases eq_or_ne other task with rfl | different
  · rcases table with rfl | ⟨node, here⟩
    · exact .inl (.inl walked.top)
    · rcases walked.node here with old | new
      · exact .inl (.inr ⟨node, old⟩)
      · exact .inr ⟨rfl, new⟩
  · rw [walked.others different] at table
    exact .inl table

/-- The tables that a walk makes are new. -/
theorem Tables.walk {s t : Vm} {task : ℕ} {slot : Slot} {pte : Word} (all : Tables s)
    (walked : Walked s t task slot pte) : Tables t where
  valid := walked.heap.valid
  table := by
    intro other va inLive table
    rw [walked.frame] at inLive
    rcases walked.tableOf table with old | ⟨-, owns, -⟩
    · exact walked.heap.owns (all.table inLive old)
    · exact owns
  distinct := by
    intro other inLive
    rw [walked.frame] at inLive
    rcases eq_or_ne other task with rfl | different
    · have old := all.distinct inLive
      have oldWithin : ∀ {node va}, nodeVa (s.pgd other) node = some va →
          ∃ id, s.heap.Within va id := fun here => by
        obtain ⟨id, within, -⟩ := all.table inLive (.inr ⟨_, here⟩)
        exact ⟨id, within⟩
      constructor
      · intro a b va atA atB
        rcases walked.node atA with oldA | ⟨-, freshA⟩
        · rcases walked.node atB with oldB | ⟨-, freshB⟩
          · exact old.1 a b va oldA oldB
          · exact absurd (oldWithin oldA) (not_exists.mpr freshB)
        · exact walked.unique atA atB freshA
      · intro node here
        rw [walked.top] at here
        rcases walked.node here with oldNode | ⟨-, fresh⟩
        · exact old.2 node oldNode
        · obtain ⟨id, within, -⟩ := all.table inLive (.inl rfl)
          exact fresh id within
    · rw [walked.others different]
      exact all.distinct inLive
  apart := by
    intro a b va liveA liveB different tableA tableB
    rw [walked.frame] at liveA liveB
    rcases walked.tableOf tableA with oldA | ⟨isA, -, fresh⟩
    · rcases walked.tableOf tableB with oldB | ⟨-, -, fresh⟩
      · exact all.apart liveA liveB different oldA oldB
      · obtain ⟨id, within, -⟩ := all.table liveA oldA
        exact fresh id within
    · rcases walked.tableOf tableB with oldB | ⟨isB, -, -⟩
      · obtain ⟨id, within, -⟩ := all.table liveB oldB
        exact fresh id within
      · exact different (isA.trans isB.symm)

/-- Mapping an allocated page that the task does not map yet keeps address spaces separate. -/
theorem Separate.walk {s t : Vm} {task : ℕ} {slot : Slot} {pte : Word} (separate : Separate s)
    (taskLive : task ∈ s.live) (walked : Walked s t task slot pte)
    (unmapped : ¬ MapsPage (s.pgd task) (ptePa pte)) (counted : Counted s.build (ptePa pte))
    (page : ∃ id, s.heap.Within (physToVirt (ptePa pte)) id ∧ s.heap.purpose id ≠ .table) :
    Separate t := by
  have all := separate.tables.walk walked
  refine ⟨all.valid, all.table, all.distinct, all.apart, ?_, ?_⟩
  · intro other inLive
    rw [walked.frame] at inLive
    rcases eq_or_ne other task with rfl | different
    · intro a b thereA thereB same
      rw [walked.entry] at thereA thereB same
      rcases eq_or_ne a slot with rfl | otherA <;> rcases eq_or_ne b a with rfl | otherB
      · rfl
      · rw [Function.update_self, Function.update_of_ne otherB] at same
        rw [Function.update_of_ne otherB] at thereB
        exact absurd ⟨b, thereB, same.symm⟩ unmapped
      · rfl
      · rw [Function.update_of_ne otherA] at thereA same
        rcases eq_or_ne b slot with rfl | otherB'
        · rw [Function.update_self] at same
          exact absurd ⟨a, thereA, same⟩ unmapped
        · rw [Function.update_of_ne otherB'] at thereB same
          exact separate.injective inLive a b thereA thereB same
    · rw [walked.others different]
      exact separate.injective inLive
  · intro other pa inLive maps
    have liveBefore : other ∈ s.live := by
      rw [walked.frame] at inLive
      exact inLive
    have known : Counted s.build pa ∧ ∃ id, s.heap.Within (physToVirt pa) id ∧
        s.heap.purpose id ≠ .table := by
      rcases eq_or_ne other task with rfl | different
      · rcases walked.mapsPage maps with rfl | old
        · exact ⟨counted, page⟩
        · exact separate.page liveBefore old
      · rw [walked.others different] at maps
        exact separate.page liveBefore maps
    obtain ⟨countedPage, id, within, purpose⟩ := known
    obtain ⟨within', -, purpose'⟩ := walked.heap.kept within
    refine ⟨?_, id, within', purpose' ▸ purpose⟩
    rw [walked.frame]
    exact countedPage

/-- Allocations made for something else keep the tables. -/
theorem Tables.extend {s t : Vm} (all : Tables s) (live : t.live = s.live) (pgd : t.pgd = s.pgd)
    (heap : s.heap.Extends t.heap) : Tables t := by
  refine ⟨heap.valid, ?_, ?_, ?_⟩
  · rw [live, pgd]
    exact fun inLive table => heap.owns (all.table inLive table)
  · rw [live, pgd]
    exact all.distinct
  · rw [live, pgd]
    exact all.apart

theorem Separate.extend {s t : Vm} (separate : Separate s) (build : t.build = s.build)
    (live : t.live = s.live) (pgd : t.pgd = s.pgd) (heap : s.heap.Extends t.heap) : Separate t := by
  have all := separate.tables.extend live pgd heap
  refine ⟨all.valid, all.table, all.distinct, all.apart, ?_, ?_⟩
  · rw [live, pgd]
    exact separate.injective
  · rw [live, pgd, build]
    intro task pa inLive maps
    obtain ⟨counted, id, within, purpose⟩ := separate.page inLive maps
    obtain ⟨within', -, purpose'⟩ := heap.kept within
    exact ⟨counted, id, within', purpose' ▸ purpose⟩

/-- Passing back allocations that are no tables keeps the tables. -/
theorem Tables.free {s t : Vm} {gone : List Word} (all : Tables s) (live : t.live = s.live)
    (pgd : t.pgd = s.pgd) (heap : t.heap = s.heap.freeAll gone) (nodup : gone.Nodup)
    (inUse : ∀ a ∈ gone, ∃ id, s.heap.Within a id ∧ s.heap.purpose id ≠ .table) : Tables t := by
  refine ⟨?_, ?_, ?_, ?_⟩
  · rw [heap]
    apply all.valid.freeAll nodup
    intro a member id home _
    obtain ⟨id', within, -⟩ := inUse a member
    obtain rfl := Option.some.inj (within.1.symm.trans home)
    exact within.2
  · rw [live, pgd, heap]
    intro task va inLive table
    have owns := all.table inLive table
    apply owns.freeAll
    intro member
    obtain ⟨id, within, other⟩ := inUse va member
    exact other (purpose_unique within owns).2
  · rw [live, pgd]
    exact all.distinct
  · rw [live, pgd]
    exact all.apart

/-- And, where they are behind no mapped page, address spaces separate. -/
theorem Separate.free {s t : Vm} {gone : List Word} (separate : Separate s)
    (build : t.build = s.build) (live : t.live = s.live) (pgd : t.pgd = s.pgd)
    (heap : t.heap = s.heap.freeAll gone) (nodup : gone.Nodup)
    (inUse : ∀ a ∈ gone, ∃ id, s.heap.Within a id ∧ s.heap.purpose id ≠ .table) (kept :
      ∀ {task pa id}, task ∈ s.live → MapsPage (s.pgd task) pa → s.heap.Within (physToVirt pa) id →
      s.heap.start id ∉ gone) : Separate t := by
  have all := separate.tables.free live pgd heap nodup inUse
  refine ⟨all.valid, all.table, all.distinct, all.apart, ?_, ?_⟩
  · rw [live, pgd]
    exact separate.injective
  · rw [live, pgd, build, heap, Allocations.freeAll_purpose]
    intro task pa inLive maps
    obtain ⟨counted, id, within, purpose⟩ := separate.page inLive maps
    exact ⟨counted, id, within.freeAll (kept inLive maps within), purpose⟩

end OscKernel.Soundness.PageTables
