import OscKernel.Lib.System
import OscKernel.Soundness.UserPages

/-! # Reference counts of user pages

Any number of processes fork, take copy-on-write faults, exec and exit. As long as no page is forked
from the largest count that an `unsigned char` holds, the count of a mapped page is the number of
entries that point to it, and a step passes the page to `free` exactly if it removes the last of
them. A fork beyond that wraps the count around.
-/

namespace OscKernel.Soundness.RefCounts

open OscKernel.Lib OscKernel.Model OscKernel.Soundness.PageTables

/-! ## Steps -/

/-- The operations that change counts, with the addresses that their allocations return. -/
inductive Event where
  | sysFork (parent child : ℕ) (pages : Vm.ForkPages)
  | cowFault (task : ℕ) (slot : Slot) (newPage : Word)
  | exec (task : ℕ)
  | exit (task : ℕ)

inductive Step (s : Vm) : Event → Vm → Prop
  | sysFork {parent child : ℕ} {pages : Vm.ForkPages} {t : Vm} : parent ∈ s.live → child ∉ s.live →
      s.sysFork parent child pages = some t → Step s (.sysFork parent child pages) t
  | cowFault {task : ℕ} {slot : Slot} {newPage : Word} {t : Vm} : task ∈ s.live →
      s.cowFault task slot newPage = some t → Step s (.cowFault task slot newPage) t
  | exec {task : ℕ} : task ∈ s.live → Step s (.exec task) (s.clearUserSpaceMappings task)
  | exit {task : ℕ} : task ∈ s.live → Step s (.exit task) (s.freeUserPageTable task)

def transitions : System Vm Event := ⟨Step⟩

/-- A fork finds no page of the parent at count 255. -/
def Uncapped (s : Vm) : Event → Prop
  | .sysFork parent _ _ => Room s parent
  | _ => True

/-! ## What holds in every state and of every step -/

/-- A page that an entry points to is in use, and its count is the number of such entries. -/
def CountsExact (s : Vm) : Prop := ∀ pa, entriesTo s pa ≠ ∅ →
  count s pa = (entriesTo s pa).card ∧ s.heap.Owns (physToVirt pa) .userPage

/-- The page is passed to `free` exactly if its number of entries falls to zero. -/
def FreesAtZero (s t : Vm) : Prop :=
  ∀ pa id, entriesTo s pa ≠ ∅ → s.heap.Within (physToVirt pa) id →
  (id ∈ t.heap.freed ↔ entriesTo t pa = ∅)

/-- Processes whose pages were each installed once, by `set_page_ref_init`. -/
structure Installed (s : Vm) : Prop where
  separate : Separate s
  owned : ∀ {task pa}, task ∈ s.live → MapsPage (s.pgd task) pa →
    s.heap.Owns (physToVirt pa) .userPage
  once : ∀ pa, (entriesTo s pa).card ≤ 1
  counted : ∀ {task pa}, task ∈ s.live → MapsPage (s.pgd task) pa → count s pa = 1

theorem Installed.exact {s : Vm} (installed : Installed s) : Exact s where
  separate := installed.separate
  owned := installed.owned
  counted := by
    intro task pa taskLive maps
    have once := installed.once pa
    rw [card_entriesTo (fun _ => installed.separate.injective)] at once
    have positive := Finset.card_pos.mpr ⟨task, mem_mappers.mpr ⟨taskLive, maps⟩⟩
    rw [installed.counted taskLive maps]
    omega

/-- Some entry points to the page exactly if a task maps it. -/
theorem entriesTo_eq_empty {s : Vm} (exact : Exact s) {pa : Word} :
    entriesTo s pa = ∅ ↔ mappers s pa = ∅ := by
  rw [← Finset.card_eq_zero, ← Finset.card_eq_zero,
    card_entriesTo fun _ => exact.separate.injective]

theorem Exact.countsExact {s : Vm} (exact : Exact s) : CountsExact s := by
  intro pa pointed
  rw [Ne, entriesTo_eq_empty exact] at pointed
  obtain ⟨task, member⟩ := Finset.nonempty_iff_ne_empty.mpr pointed
  obtain ⟨taskLive, maps⟩ := mem_mappers.mp member
  rw [card_entriesTo fun _ => exact.separate.injective]
  exact ⟨exact.counted taskLive maps, exact.owned taskLive maps⟩

section Freed

variable {s t : Vm} (exact : Exact s) {task id : ℕ} {pa : Word} (pageMapped : mappers s pa ≠ ∅)
  (within : s.heap.Within (physToVirt pa) id)
include exact pageMapped within

omit exact in
private theorem fork_frees_none {parent child : ℕ} (forks : Forks s t parent child)
    (childNew : child ∉ s.live) :
    id ∈ t.heap.freed ↔ mappers t pa = ∅ := by
  rw [forks.heap.freed]
  obtain ⟨shared, unshared⟩ := forks.mappers childNew pa
  refine ⟨fun freed => absurd freed within.2, fun empty => ?_⟩
  by_cases own : MapsPage (s.pgd parent) pa
  · rw [shared own] at empty
    exact absurd empty (Finset.insert_ne_empty _ _)
  · rw [unshared own] at empty
    exact absurd empty pageMapped

theorem unmap_frees {gone : List Word} (unmaps : Unmaps s t task gone) (taskLive : task ∈ s.live) :
    id ∈ t.heap.freed ↔ mappers t pa = ∅ := by
  obtain ⟨other, member⟩ := Finset.nonempty_iff_ne_empty.mpr pageMapped
  obtain ⟨otherLive, maps⟩ := mem_mappers.mp member
  have start := (exact.start otherLive maps within).1
  have passed : id ∈ t.heap.freed ↔ physToVirt pa ∈ gone := by
    rw [unmaps.heap, Allocations.mem_freed_freeAll, start]
    exact ⟨fun either => (either.resolve_left within.2).2, fun member => .inr ⟨within.1, member⟩⟩
  rw [passed, unmaps.mappers taskLive]
  constructor
  · intro inGone
    rw [Finset.eq_empty_iff_forall_notMem]
    intro left leftMember
    obtain ⟨different, leftMapper⟩ := Finset.mem_erase.mp leftMember
    obtain ⟨leftLive, leftMaps⟩ := mem_mappers.mp leftMapper
    exact exact.unmap_kept taskLive unmaps leftLive different leftMaps inGone
  · intro empty
    have sole : other = task := by
      by_contra different
      exact absurd (Finset.mem_erase.mpr ⟨different, member⟩) (empty ▸ Finset.notMem_empty other)
    rw [sole] at maps
    apply unmaps.released.mem_gone maps
    have size := Finset.card_erase_of_mem (mem_mappers.mpr ⟨taskLive, maps⟩)
    rw [empty, Finset.card_empty] at size
    rw [exact.counted taskLive maps]
    omega

private theorem unshare_frees {slot : Slot} {newPa : Word} (unshares : Unshares s t task slot newPa)
    (taskLive : task ∈ s.live) :
    id ∈ t.heap.freed ↔ mappers t pa = ∅ := by
  obtain ⟨other, member⟩ := Finset.nonempty_iff_ne_empty.mpr pageMapped
  obtain ⟨otherLive, maps⟩ := mem_mappers.mp member
  have start := (exact.start otherLive maps within).1
  obtain ⟨mid, -, -, -, -, grown, -, heap⟩ := unshares.mid
  obtain ⟨within', start', -⟩ := grown.kept within
  have oldMaps : MapsPage (s.pgd task) (ptePa (entryOf s task slot)) := ⟨slot, unshares.there, rfl⟩
  have passed : id ∈ t.heap.freed ↔ physToVirt pa ∈ lastOwner s (ptePa (entryOf s task slot)) := by
    rw [heap, Allocations.mem_freed_freeAll, start', start]
    exact ⟨fun either => (either.resolve_left within'.2).2, fun member => .inr ⟨within'.1, member⟩⟩
  have notNew : pa ≠ newPa := by
    rintro rfl
    exact unshares.fresh id within
  rw [passed, unshares.mappers exact.separate taskLive, if_neg notNew, lastOwner]
  rcases eq_or_ne pa (ptePa (entryOf s task slot)) with rfl | notOld
  · rw [if_pos rfl, exact.counted taskLive oldMaps, ← Finset.card_eq_zero,
      Finset.card_erase_of_mem (mem_mappers.mpr ⟨taskLive, oldMaps⟩)]
    split
    · rename_i last
      simp only [List.mem_singleton, true_iff]
      omega
    · rename_i shared
      simp only [List.not_mem_nil, false_iff]
      omega
  · rw [if_neg notOld]
    refine ⟨fun inGone => ?_, fun empty => absurd empty pageMapped⟩
    split at inGone
    · exact absurd (physToVirt_injective (List.mem_singleton.mp inGone)) notOld
    · exact absurd inGone List.not_mem_nil

end Freed

/-- One step keeps the counts exact and frees what lost its last entry. -/
theorem Exact.step {s t : Vm} {event : Event} (exact : Exact s)
    (step : (transitions.restrict Uncapped).Step s event t) : Exact t ∧ FreesAtZero s t := by
  obtain ⟨room, step⟩ := step
  have frees : Exact t → (∀ {pa id}, mappers s pa ≠ ∅ → s.heap.Within (physToVirt pa) id →
      (id ∈ t.heap.freed ↔ mappers t pa = ∅)) → FreesAtZero s t := by
    intro exact' each pa id pointed within
    rw [Ne, entriesTo_eq_empty exact] at pointed
    rw [entriesTo_eq_empty exact']
    exact each pointed within
  cases step with
  | sysFork parentLive childNew result =>
    have forks := fork_forks exact.separate parentLive childNew result
    have exact' := exact.fork parentLive childNew forks room
    exact ⟨exact', frees exact' fun pageMapped within =>
      fork_frees_none pageMapped within forks childNew⟩
  | cowFault taskLive result =>
    have unshares := cowFault_unshares exact.separate taskLive result
    have exact' := exact.unshare taskLive unshares
    exact ⟨exact', frees exact' fun pageMapped within =>
      unshare_frees exact pageMapped within unshares taskLive⟩
  | exec taskLive =>
    obtain ⟨gone, unmaps, -⟩ := exec_unmaps exact.separate taskLive
    have exact' := exact.unmap taskLive unmaps
    exact ⟨exact', frees exact' fun pageMapped within =>
      unmap_frees exact pageMapped within unmaps taskLive⟩
  | exit taskLive =>
    obtain ⟨gone, unmaps, -⟩ := exit_unmaps exact.separate taskLive
    have exact' := exact.unmap taskLive unmaps
    exact ⟨exact', frees exact' fun pageMapped within =>
      unmap_frees exact pageMapped within unmaps taskLive⟩

/-- In every run in which no page is forked from count 255, the counts are exact in every state, and
every step frees a page exactly if it removes the last entry that points to it. -/
theorem ref_counts_exact {s t : Vm} {events : List Event} (installed : Installed s)
    (run : System.Path (transitions.restrict Uncapped) s events t) :
    CountsExact t ∧ t.heap.freed.Nodup ∧
      ∀ event u, (transitions.restrict Uncapped).Step t event u → FreesAtZero t u := by
  have exact : Exact t :=
    run.invariant (fun exact step => (Exact.step exact step).1) installed.exact
  exact ⟨Exact.countsExact exact, exact.separate.valid.once,
    fun event u step => (Exact.step exact step).2⟩

/-! ## A process with one page -/

/-- The linear-map address of a page frame of the board's RAM. -/
def pageVa (n : ℕ) : Word := physToVirt (BitVec.ofNat 64 (n * 4096))

/-- The number of the first frame of the linear map. -/
def firstFrame : ℕ := 0xffffffc000000

theorem frame_pageVa {n : ℕ} (small : n < 2 ^ 26) : (frame (pageVa n)).toNat = firstFrame + n := by
  rw [frame, pageVa, physToVirt, BitVec.toNat_ushiftRight, BitVec.toNat_add, BitVec.toNat_ofNat,
    Nat.shiftRight_eq_div_pow, show pageOffset.toNat = 0xffffffc000000000 from rfl, firstFrame]
  omega

theorem isPage_pageVa {s : Vm} (build : s.build = .board) {n : ℕ} (inRam : n < 0x80000) :
    s.isPage (pageVa n) = true := by
  rw [Vm.isPage, Bool.and_eq_true, decide_eq_true_iff, decide_eq_true_iff]
  constructor
  · apply BitVec.eq_of_toNat_eq
    rw [BitVec.toNat_and, show (4095#64).toNat = 2 ^ 12 - 1 from rfl,
      Nat.and_two_pow_sub_one_eq_mod, pageVa, physToVirt, BitVec.toNat_add, BitVec.toNat_ofNat,
      show pageOffset.toNat = 0xffffffc000000000 from rfl]
    simp only [BitVec.toNat_ofNat, Nat.zero_mod]
    omega
  · rw [build, pageVa, virtToPhys_physToVirt, BitVec.lt_def, Build.pageIdx]
    simp only [Build.ramStart, Build.numPages, BitVec.toNat_ushiftRight, BitVec.toNat_ofNat,
      BitVec.toNat_sub, Nat.shiftRight_eq_div_pow]
    omega

/-- A writable user page in frame 3, below tables in the first three frames. -/
def onePage : Pgd where
  va := pageVa 0
  entry i := if i.val = 0 then some ⟨pageVa 1, fun j => if j.val = 0 then some ⟨pageVa 2, fun k =>
    if k.val = 0 then makePte 0x3000#64 protUserRw else 0#64⟩ else none⟩ else none

/-- One process, task 0, right after its page was installed. -/
def oneProcess : Vm where
  build := .board
  heap :=
    { home := fun a => if firstFrame ≤ (frame a).toNat ∧ (frame a).toNat < firstFrame + 4
        then some ((frame a).toNat - firstFrame) else none
      start := pageVa
      purpose := fun id => if id = 3 then .userPage else .table
      count := 4
      freed := [] }
  pageRefCounts _ := 1#8
  ram _ _ := 0#8
  pgd _ := onePage
  live := {0}
  sigHandler _ := 0#64
  pending _ := false
  savedRegs _ := 0#64
  signalStack _ := 0#64

theorem entryAt_onePage (slot : Slot) :
    onePage.entryAt slot = if slot = (0, 0, 0) then makePte 0x3000#64 protUserRw else 0#64 := by
  obtain ⟨i, j, k⟩ := slot
  rcases eq_or_ne i 0 with rfl | otherI
  · rcases eq_or_ne j 0 with rfl | otherJ
    · rcases eq_or_ne k 0 with rfl | otherK
      · rfl
      · simp [Pgd.entryAt, onePage, otherK]
    · simp [Pgd.entryAt, onePage, otherJ]
  · simp [Pgd.entryAt, onePage, otherI]

theorem mapsPage_onePage {pa : Word} : MapsPage onePage pa ↔ pa = 0x3000#64 := by
  constructor
  · rintro ⟨slot, there, rfl⟩
    rw [entryAt_onePage] at there ⊢
    split at there
    · rename_i isFirst
      rw [if_pos isFirst]
      decide
    · exact absurd there (by decide)
  · rintro rfl
    exact ⟨(0, 0, 0), by decide, by decide⟩

/-- The two tables below the top-level one. -/
theorem nodeVa_onePage {node : Node} {va : Word} (here : nodeVa onePage node = some va) :
    node = (0, none) ∧ va = pageVa 1 ∨ node = (0, some 0) ∧ va = pageVa 2 := by
  obtain ⟨i, j⟩ := node
  rcases eq_or_ne i 0 with rfl | otherI
  · cases j with
    | none => exact .inl ⟨rfl, (Option.some.inj here).symm⟩
    | some j =>
      rcases eq_or_ne j 0 with rfl | otherJ
      · exact .inr ⟨rfl, (Option.some.inj here).symm⟩
      · exact absurd here (by simp [nodeVa, onePage, otherJ])
  · exact absurd here (by cases j <;> simp [nodeVa, onePage, otherI])

theorem oneProcess_within {n : ℕ} (small : n < 4) : oneProcess.heap.Within (pageVa n) n := by
  have number := frame_pageVa (n := n) (by omega)
  refine ⟨?_, List.not_mem_nil⟩
  have inside : firstFrame ≤ (frame (pageVa n)).toNat ∧
      (frame (pageVa n)).toNat < firstFrame + 4 := by omega
  have home : oneProcess.heap.home (pageVa n) = some ((frame (pageVa n)).toNat - firstFrame) :=
    if_pos inside
  rw [home, number, Nat.add_sub_cancel_left]

theorem pageVa_injective {m n : ℕ} (smallM : m < 2 ^ 26) (smallN : n < 2 ^ 26)
    (same : pageVa m = pageVa n) : m = n := by
  have frames := congrArg (fun va => (frame va).toNat) same
  simp only [frame_pageVa smallM, frame_pageVa smallN] at frames
  omega

private theorem tableOf_onePage {va : Word} (table : TableOf onePage va) :
    ∃ n, n < 3 ∧ va = pageVa n := by
  rcases table with rfl | ⟨node, here⟩
  · exact ⟨0, by omega, rfl⟩
  · rcases nodeVa_onePage here with ⟨-, rfl⟩ | ⟨-, rfl⟩
    · exact ⟨1, by omega, rfl⟩
    · exact ⟨2, by omega, rfl⟩

theorem oneProcess_installed : Installed oneProcess := by
  have only : ∀ {task}, task ∈ oneProcess.live → task = 0 :=
    fun inLive => Finset.mem_singleton.mp inLive
  have injective : ∀ task : ℕ, Injective (oneProcess.pgd task) := by
    intro task a b thereA thereB _
    change present (onePage.entryAt a) = true at thereA
    change present (onePage.entryAt b) = true at thereB
    rw [entryAt_onePage] at thereA thereB
    split at thereA
    · split at thereB
      · simp_all
      · exact absurd thereB (by decide)
    · exact absurd thereA (by decide)
  have separate : Separate oneProcess := by
    refine ⟨⟨?_, fun freed => absurd freed List.not_mem_nil, List.nodup_nil⟩, ?_, ?_, ?_,
      fun _ => injective _, ?_⟩
    · intro a id home
      simp only [oneProcess] at home ⊢
      split at home
      · have := Option.some.inj home
        omega
      · exact absurd home (by simp)
    · intro task va _ table
      obtain ⟨n, small, rfl⟩ := tableOf_onePage table
      exact ⟨n, oneProcess_within (by omega), rfl, if_neg (by omega)⟩
    · intro task _
      refine ⟨fun a b va atA atB => ?_, fun node here => ?_⟩
      · rcases nodeVa_onePage atA with ⟨rfl, rfl⟩ | ⟨rfl, rfl⟩ <;>
          rcases nodeVa_onePage atB with ⟨rfl, same⟩ | ⟨rfl, same⟩
        · rfl
        · exact absurd (pageVa_injective (by omega) (by omega) same) (by omega)
        · exact absurd (pageVa_injective (by omega) (by omega) same) (by omega)
        · rfl
      · rcases nodeVa_onePage here with ⟨-, same⟩ | ⟨-, same⟩
        · exact absurd (pageVa_injective (m := 0) (by omega) (by omega) same) (by omega)
        · exact absurd (pageVa_injective (m := 0) (by omega) (by omega) same) (by omega)
    · intro a b va liveA liveB different
      exact absurd ((only liveA).trans (only liveB).symm) different
    · intro task pa _ maps
      obtain rfl := mapsPage_onePage.mp maps
      exact ⟨⟨rfl, by decide⟩, 3, oneProcess_within (n := 3) (by omega), by decide⟩
  refine ⟨separate, ?_, ?_, fun _ _ => rfl⟩
  · intro task pa _ maps
    obtain rfl := mapsPage_onePage.mp maps
    exact ⟨3, oneProcess_within (n := 3) (by omega), rfl, rfl⟩
  · intro pa
    rw [card_entriesTo (fun task _ => injective task)]
    apply Finset.card_le_one.mpr
    intro a memberA b memberB
    rw [only (mem_mappers.mp memberA).1, only (mem_mappers.mp memberB).1]

/-! ## Forking the process again and again -/

/-- What the allocator returns for the fork after `n` others. -/
def forkPages (n : ℕ) : Vm.ForkPages :=
  ⟨pageVa (4 + 3 * n), fun _ => pageVa (5 + 3 * n), fun _ _ => pageVa (6 + 3 * n)⟩

/-- Task 0 has forked `n` times. -/
structure Forked (n : ℕ) (s : Vm) : Prop where
  separate : Separate s
  build : s.build = .board
  live : s.live = Finset.range (n + 1)
  nodes : nodeVa (s.pgd 0) = nodeVa onePage
  maps : ∀ task < n + 1, MapsPage (s.pgd task) 0x3000#64
  counted : count s 0x3000#64 = (n + 1) % 256
  unused : ∀ a, firstFrame + 4 + 3 * n ≤ (frame a).toNat → s.heap.home a = none

theorem forked_zero : Forked 0 oneProcess where
  separate := oneProcess_installed.separate
  build := rfl
  live := rfl
  nodes := rfl
  maps _ _ := mapsPage_onePage.mpr rfl
  counted := rfl
  unused a beyond := if_neg (by omega)

/-- The tables of the next child are in three frames of their own. -/
theorem forkPages_tables {n : ℕ} {src : Pgd} {va : Word} (nodes : nodeVa src = nodeVa onePage)
    (member : va ∈ (forkPages n).pgd :: tablesOf (copyVisits src (forkPages n))) :
    ∃ i, i < 3 ∧ va = pageVa (4 + 3 * n + i) := by
  rcases List.mem_cons.mp member with rfl | below
  · exact ⟨0, by omega, rfl⟩
  · rw [tablesOf, copyVisits_tables] at below
    obtain ⟨node, -, here⟩ := List.mem_filterMap.mp below
    rw [nodeVa_childTable, nodes] at here
    obtain ⟨old, oldHere, rfl⟩ := Option.map_eq_some_iff.mp here
    rcases nodeVa_onePage oldHere with ⟨rfl, -⟩ | ⟨rfl, -⟩
    · exact ⟨1, by omega, congrArg pageVa (by omega)⟩
    · exact ⟨2, by omega, congrArg pageVa (by omega)⟩

private theorem forkPages_nodup {n : ℕ} (small : n < 1000) {src : Pgd}
    (nodes : nodeVa src = nodeVa onePage) :
    (((forkPages n).pgd :: tablesOf (copyVisits src (forkPages n))).map frame).Nodup := by
  have apart : ∀ {i j}, i < 3 → j < 3 → frame (pageVa (4 + 3 * n + i)) =
      frame (pageVa (4 + 3 * n + j)) → i = j := by
    intro i j smallI smallJ same
    have numbers := congrArg BitVec.toNat same
    rw [frame_pageVa (by omega), frame_pageVa (by omega)] at numbers
    omega
  have at_node : ∀ {node va}, nodeVa (Vm.childTable src (forkPages n)) node = some va →
      node = (0, none) ∧ va = pageVa (4 + 3 * n + 1) ∨ node = (0, some 0) ∧
      va = pageVa (4 + 3 * n + 2) := by
    intro node va here
    rw [nodeVa_childTable, nodes] at here
    obtain ⟨old, oldHere, rfl⟩ := Option.map_eq_some_iff.mp here
    rcases nodeVa_onePage oldHere with ⟨rfl, -⟩ | ⟨rfl, -⟩
    · exact .inl ⟨rfl, congrArg pageVa (by omega)⟩
    · exact .inr ⟨rfl, congrArg pageVa (by omega)⟩
  rw [List.map_cons, tablesOf, copyVisits_tables, List.map_filterMap]
  refine List.nodup_cons.mpr
    ⟨fun member => ?_, nodup_copyNodes.filterMap fun a b x memberA memberB => ?_⟩
  · obtain ⟨node, -, here⟩ := List.mem_filterMap.mp member
    obtain ⟨va, atVa, same⟩ := Option.map_eq_some_iff.mp here
    rcases at_node atVa with ⟨-, rfl⟩ | ⟨-, rfl⟩
    · exact absurd (apart (i := 1) (j := 0) (by omega) (by omega) same) (by omega)
    · exact absurd (apart (i := 2) (j := 0) (by omega) (by omega) same) (by omega)
  · obtain ⟨va, atA, sameA⟩ := Option.map_eq_some_iff.mp memberA
    obtain ⟨vb, atB, sameB⟩ := Option.map_eq_some_iff.mp memberB
    have same := sameA.trans sameB.symm
    rcases at_node atA with ⟨rfl, rfl⟩ | ⟨rfl, rfl⟩ <;>
      rcases at_node atB with ⟨rfl, rfl⟩ | ⟨rfl, rfl⟩
    · rfl
    · exact absurd (apart (i := 1) (j := 2) (by omega) (by omega) same) (by omega)
    · exact absurd (apart (i := 2) (j := 1) (by omega) (by omega) same) (by omega)
    · rfl

theorem Forked.next {n : ℕ} {s : Vm} (forked : Forked n s) (small : n < 1000) :
    ∃ t, s.sysFork 0 (n + 1) (forkPages n) = some t ∧ Forked (n + 1) t := by
  have parentLive : 0 ∈ s.live := by simp [forked.live]
  have childNew : n + 1 ∉ s.live := by simp [forked.live]
  obtain ⟨t, result, others⟩ :=
    fork_succeeds (s := s) 0 (n + 1) (forkPages_nodup small forked.nodes) (by
    intro va member
    obtain ⟨i, inside, rfl⟩ := forkPages_tables forked.nodes member
    refine ⟨isPage_pageVa forked.build (by omega), fun a here => forked.unused a ?_⟩
    rw [here, frame_pageVa (by omega)]
    omega)
  have forks := fork_forks forked.separate parentLive childNew result
  have aligned : Aligned 0x3000#64 := rfl
  refine ⟨t, result, forked.separate.fork forks parentLive,
    forks.build.trans forked.build, ?_, ?_, ?_, ?_, ?_⟩
  · rw [forks.live, forked.live]
    exact (Finset.range_add_one).symm
  · funext node
    rw [forks.parentPgd, nodeVa_parentTable, forked.nodes]
  · intro task bound
    rw [(forks.sameMaps task).mapsPage, origin]
    split
    · exact forked.maps 0 (by omega)
    · exact forked.maps task (by omega)
  · rw [forks.raised aligned (forked.maps 0 (by omega)), forked.counted]
    omega
  · intro a beyond
    have outside : frame a ∉
        ((forkPages n).pgd :: tablesOf (copyVisits (s.pgd 0) (forkPages n))).map frame := by
      intro member
      obtain ⟨va, inList, same⟩ := List.mem_map.mp member
      obtain ⟨i, inside, rfl⟩ := forkPages_tables forked.nodes inList
      rw [← same, frame_pageVa (by omega)] at beyond
      omega
    rw [others a outside]
    exact forked.unused a (by omega)

private theorem forked_path (n : ℕ) (small : n < 1000) :
    ∃ events s, System.Path transitions oneProcess events s ∧ Forked n s := by
  induction n with
  | zero => exact ⟨[], oneProcess, .nil _, forked_zero⟩
  | succ n ih =>
    obtain ⟨events, s, run, forked⟩ := ih (by omega)
    obtain ⟨t, result, next⟩ := forked.next (by omega)
    have step : Step s (.sysFork 0 (n + 1) (forkPages n)) t :=
      .sysFork (by simp [forked.live]) (by simp [forked.live]) result
    exact ⟨_, t, run.snoc step, next⟩

/-- After 255 forks of one process, 256 entries point to its page and the count has wrapped around
to 0. -/
theorem ref_counts_wrap : ¬ ∀ s t events, Installed s →
    System.Path transitions s events t → CountsExact t := by
  intro always
  obtain ⟨events, t, run, forked⟩ := forked_path 255 (by omega)
  have exact := always oneProcess t events oneProcess_installed run
  have all : mappers t 0x3000#64 = Finset.range 256 := by
    ext task
    rw [mem_mappers, forked.live]
    exact ⟨And.left, fun member => ⟨member, forked.maps task (Finset.mem_range.mp member)⟩⟩
  have size : (entriesTo t 0x3000#64).card = 256 := by
    rw [card_entriesTo fun _ => forked.separate.injective, all, Finset.card_range]
  have pointed : entriesTo t 0x3000#64 ≠ ∅ := by
    intro empty
    rw [empty, Finset.card_empty] at size
    exact absurd size (by decide)
  have counted := (exact _ pointed).1
  rw [size, forked.counted] at counted
  exact absurd counted (by decide)

/-- A fork and the exit of the child. -/
theorem ref_counts_exact_fork_exit : ∃ mid t, Installed oneProcess ∧
    System.Path (transitions.restrict Uncapped) oneProcess [.sysFork 0 1 (forkPages 0), .exit 1] t ∧
    count mid 0x3000#64 = 2 ∧ CountsExact mid ∧ CountsExact t := by
  obtain ⟨mid, result, forked⟩ := forked_zero.next (by omega)
  have room : Room oneProcess 0 := fun _ _ => Nat.one_lt_succ_succ _
  have first : (transitions.restrict Uncapped).Step oneProcess (.sysFork 0 1 (forkPages 0)) mid :=
    ⟨room, .sysFork (by decide) (by decide) result⟩
  have second : (transitions.restrict Uncapped).Step mid (.exit 1) (mid.freeUserPageTable 1) :=
    ⟨trivial, .exit (by simp [forked.live])⟩
  have run := System.Path.cons first (.cons second (.nil _))
  exact ⟨mid, _, oneProcess_installed, run, forked.counted,
    (ref_counts_exact oneProcess_installed (.cons first (.nil _))).1,
    (ref_counts_exact oneProcess_installed run).1⟩

end OscKernel.Soundness.RefCounts
