import OscKernel.Soundness.RefCounts

/-! # Copy-on-write fork and eager copying

The processes of `Eager` have pages of their own, and a fork copies all of them at once. Every run
of forks, loads, stores and exits over shared page tables is a run of `Eager` with the same events,
in which each load returns the same byte.
-/

namespace OscKernel.Soundness.CopyOnWrite

open OscKernel.Lib OscKernel.Model OscKernel.Soundness.PageTables

/-! ## Eager copying -/

/-- A page as the process that has it sees it. -/
structure UserPage where
  readable : Bool
  writable : Bool
  bytes : Fin 4096 → BitVec 8

/-- Processes with pages of their own. -/
structure Eager where
  live : Finset ℕ
  page : ℕ → Slot → Option UserPage

namespace Eager

/-- The child gets a copy of every page of the parent. -/
def fork (e : Eager) (parent child : ℕ) : Eager :=
  ⟨insert child e.live, Function.update e.page child (e.page parent)⟩

def load (e : Eager) (task : ℕ) (slot : Slot) (offset : Fin 4096) : Option (BitVec 8) :=
  (e.page task slot).bind fun page => if page.readable then some (page.bytes offset) else none

def store (e : Eager) (task : ℕ) (slot : Slot) (offset : Fin 4096)
    (value : BitVec 8) : Option Eager :=
  (e.page task slot).bind fun page =>
    if page.writable then
      let page := { page with bytes := Function.update page.bytes offset value }
      some { e with page :=
        Function.update e.page task (Function.update (e.page task) slot (some page)) }
    else none

def exit (e : Eager) (task : ℕ) : Eager := { e with live := e.live.erase task }

private theorem store_eq {e : Eager} {task : ℕ} {slot : Slot} {page : UserPage} (offset : Fin 4096)
    (value : BitVec 8) (here : e.page task slot = some page) (writable : page.writable = true) :
    let page := { page with bytes := Function.update page.bytes offset value }
    e.store task slot offset value = some { e with
      page := Function.update e.page task (Function.update (e.page task) slot (some page)) } := by
  rw [store, here, Option.bind_some, if_pos writable]

/-- A store changes no other process. -/
theorem store_frame {e f : Eager} {task : ℕ} {slot : Slot} {offset : Fin 4096} {value : BitVec 8}
    (result : e.store task slot offset value = some f) : f.live = e.live ∧ ∀ other, other ≠ task →
      f.page other = e.page other := by
  obtain ⟨page, here, written⟩ := Option.bind_eq_some_iff.mp result
  split at written
  · obtain rfl := Option.some.inj written
    exact ⟨rfl, fun other different => Function.update_of_ne different _ _⟩
  · exact absurd written (by simp)

end Eager

/-! ## Runs -/

/-- What the processes do. A load carries the byte it returns, and a store the page that a
copy-on-write fault would be given. -/
inductive Event where
  | fork (parent child : ℕ) (pages : Vm.ForkPages)
  | load (task : ℕ) (slot : Slot) (offset : Fin 4096) (byte : BitVec 8)
  | store (task : ℕ) (slot : Slot) (offset : Fin 4096) (value : BitVec 8) (newPage : Word)
  | exit (task : ℕ)

inductive Step (s : Vm) : Event → Vm → Prop
  | fork {parent child : ℕ} {pages : Vm.ForkPages} {t : Vm} : parent ∈ s.live → child ∉ s.live →
      s.sysFork parent child pages = some t → Step s (.fork parent child pages) t
  | load {task : ℕ} {slot : Slot} {offset : Fin 4096} {byte : BitVec 8} : task ∈ s.live →
      s.loadByte task slot offset = some byte → Step s (.load task slot offset byte) s
  | store {task : ℕ} {slot : Slot} {offset : Fin 4096} {value : BitVec
      8} {newPage : Word} {t : Vm} : task ∈ s.live →
      s.storeByte task slot offset value newPage = some t →
      Step s (.store task slot offset value newPage) t
  | exit {task : ℕ} : task ∈ s.live → Step s (.exit task) (s.freeUserPageTable task)

/-- The steps after which no page is shared by more than 255 entries. -/
def shared : System Vm Event :=
  ⟨fun s event t => Step s event t ∧ ∀ pa, (entriesTo t pa).card ≤ 255⟩

inductive EagerStep (e : Eager) : Event → Eager → Prop
  | fork {parent child : ℕ} {pages : Vm.ForkPages} : parent ∈ e.live → child ∉ e.live →
      EagerStep e (.fork parent child pages) (e.fork parent child)
  | load {task : ℕ} {slot : Slot} {offset : Fin 4096} {byte : BitVec 8} : task ∈ e.live →
      e.load task slot offset = some byte → EagerStep e (.load task slot offset byte) e
  | store {task : ℕ} {slot : Slot} {offset : Fin 4096} {value : BitVec 8}
      {newPage : Word} {f : Eager} :
      task ∈ e.live → e.store task slot offset value = some f →
      EagerStep e (.store task slot offset value newPage) f
  | exit {task : ℕ} : task ∈ e.live → EagerStep e (.exit task) (e.exit task)

def eager : System Eager Event := ⟨EagerStep⟩

/-! ## The relation -/

/-- The page that an entry shows; a page marked for copying counts as writable. -/
def pageAt (ram : Word → Fin 4096 → BitVec 8) (pte : Word) : Option UserPage :=
  if present pte then some ⟨readable pte, writable pte || copyOnWrite pte, ram (ptePa pte)⟩
  else none

/-- The page that a task sees at a place. -/
def view (s : Vm) (task : ℕ) (slot : Slot) : Option UserPage := pageAt s.ram (entryOf s task slot)

def eagerOf (s : Vm) : Eager := ⟨s.live, view s⟩

/-- A page that an entry with `PTE_W` points to is mapped by its task only. -/
def WritableOnce (s : Vm) : Prop :=
  ∀ {task slot}, task ∈ s.live → present (entryOf s task slot) = true →
  writable (entryOf s task slot) = true → mappers s (ptePa (entryOf s task slot)) = {task}

structure Related (s : Vm) (e : Eager) : Prop where
  exact : Exact s
  writableOnce : WritableOnce s
  live : e.live = s.live
  page : ∀ {task}, task ∈ s.live → e.page task = view s task

theorem Related.load {s : Vm} {e : Eager} (related : Related s e) {task : ℕ}
    (taskLive : task ∈ s.live) (slot : Slot) (offset : Fin 4096) :
    e.load task slot offset = s.loadByte task slot offset := by
  rw [Eager.load, related.page taskLive, view, pageAt, Vm.loadByte]
  change _ = if present (entryOf s task slot) && readable (entryOf s task slot) then _ else none
  cases there : present (entryOf s task slot) with
  | false => rfl
  | true =>
    simp only [if_true, Option.bind_some, Bool.true_and]
    rfl

/-! ## Forking -/

/-- Sharing an entry does not change what it shows. -/
theorem pageAt_share (ram : Word → Fin 4096 → BitVec 8) (pte : Word) :
    pageAt ram (Vm.share pte) = pageAt ram pte := by
  simp [pageAt]

section Forked

variable {s t : Vm} {parent child : ℕ} (forks : Forks s t parent child)
include forks

/-- After a fork parent and child see what the parent saw, and no one else sees a difference. -/
theorem view_fork (task : ℕ) : view t task = view s (origin parent child task) := by
  funext slot
  rw [view, view, forks.ram]
  rcases eq_or_ne task child with rfl | notChild
  · obtain ⟨pages, childPgd⟩ := forks.childPgd
    rw [origin_child, entryOf, entryOf, childPgd, entryAt_childTable]
    split
    · exact pageAt_share _ _
    · rename_i absent
      simp [pageAt, absent]
  rw [origin_of_ne notChild]
  rcases eq_or_ne task parent with rfl | notParent
  · rw [entryOf, entryOf, forks.parentPgd, entryAt_parentTable]
    split
    · exact pageAt_share _ _
    · rfl
  · rw [entryOf, entryOf, forks.others notParent notChild]

/-- Entries of parent and child are not writable after a fork. -/
private theorem not_writable_fork {task : ℕ} {slot : Slot}
    (there : present (entryOf t task slot) = true) (either : task = parent ∨ task = child) :
    writable (entryOf t task slot) = false := by
  rcases eq_or_ne task child with rfl | notChild
  · obtain ⟨pages, childPgd⟩ := forks.childPgd
    rw [entryOf, childPgd, entryAt_childTable] at there ⊢
    split
    · exact writable_share _
    · rename_i absent
      rw [if_neg absent] at there
      exact absurd there (by decide)
  · obtain rfl := either.resolve_right notChild
    rw [entryOf, forks.parentPgd, entryAt_parentTable] at there ⊢
    split
    · exact writable_share _
    · rename_i absent
      rw [if_neg absent] at there
      exact absurd there absent

theorem WritableOnce.fork (writableOnce : WritableOnce s) (parentLive : parent ∈ s.live)
    (childNew : child ∉ s.live) :
    WritableOnce t := by
  intro task slot taskLive there writes
  have neither : ¬ (task = parent ∨ task = child) := by
    intro either
    rw [not_writable_fork forks there either] at writes
    exact absurd writes (by decide)
  obtain ⟨notParent, notChild⟩ := not_or.mp neither
  have same : entryOf t task slot = entryOf s task slot := by
    rw [entryOf, forks.others notParent notChild, entryOf]
  rw [same] at there writes ⊢
  rw [forks.live] at taskLive
  have wasLive := (Finset.mem_insert.mp taskLive).resolve_left notChild
  have once := writableOnce wasLive there writes
  obtain ⟨-, unshared⟩ := forks.mappers childNew (ptePa (entryOf s task slot))
  by_cases own : MapsPage (s.pgd parent) (ptePa (entryOf s task slot))
  · have isParent : parent ∈ ({task} : Finset ℕ) := once ▸ mem_mappers.mpr ⟨parentLive, own⟩
    exact absurd (Finset.mem_singleton.mp isParent).symm notParent
  · rw [unshared own, once]

end Forked

/-! ## Exiting -/

section Unmapped

variable {s t : Vm} {task : ℕ} {gone : List Word} (unmaps : Unmaps s t task gone)
include unmaps

theorem view_unmap {other : ℕ} (different : other ≠ task) : view t other = view s other := by
  funext slot
  rw [view, view, unmaps.ram, entryOf, entryOf, unmaps.others different]

theorem WritableOnce.unmap (writableOnce : WritableOnce s) (taskLive : task ∈ s.live) :
    WritableOnce t := by
  intro other slot otherLive there writes
  obtain ⟨different, -⟩ := (unmaps.mapsPage otherLive).mp ⟨slot, there, rfl⟩
  have same : entryOf t other slot = entryOf s other slot := by
    rw [entryOf, unmaps.others different, entryOf]
  rw [same] at there writes ⊢
  rw [unmaps.mappers taskLive, writableOnce (unmaps.was_live taskLive otherLive) there writes]
  exact Finset.erase_eq_of_notMem fun member => different (Finset.mem_singleton.mp member).symm

end Unmapped

/-! ## Copy-on-write faults -/

/-- An entry shows the same page where its bytes are the same. -/
theorem pageAt_congr {ram ram' : Word → Fin 4096 → BitVec 8} {pte : Word}
    (same : present pte = true → ram (ptePa pte) = ram' (ptePa pte)) :
    pageAt ram pte = pageAt ram' pte := by
  rw [pageAt, pageAt]
  split
  · rename_i there
    rw [same there]
  · rfl

section Unshared

variable {s t : Vm} {task : ℕ} {slot : Slot} {newPa : Word}
  (unshares : Unshares s t task slot newPa)
  (separate : Separate s)
include unshares separate

theorem new_unmapped {other : ℕ} (otherLive : other ∈ s.live) {place : Slot}
    (there : present (entryOf s other place) = true) : ptePa (entryOf s other place) ≠ newPa := by
  intro same
  obtain ⟨-, id, within, -⟩ := separate.page otherLive ⟨place, there, rfl⟩
  change s.heap.Within (physToVirt (ptePa (entryOf s other place))) id at within
  rw [same] at within
  exact unshares.fresh id within

/-- The new page has the bytes of the old one, so that no process sees a difference. -/
theorem view_unshare {other : ℕ} (otherLive : other ∈ s.live) : view t other = view s other := by
  funext place
  have untouched : pageAt t.ram (entryOf s other place) = pageAt s.ram (entryOf s other place) :=
    pageAt_congr fun there => by
      rw [unshares.ram]
      exact Function.update_of_ne (new_unmapped unshares separate otherLive there) _ _
  rcases eq_or_ne other task with rfl | different
  · rw [view, view, unshares.entry]
    rcases eq_or_ne place slot with rfl | otherPlace
    · obtain ⟨there, writes, reads, newEntry⟩ :=
        unshared_spec (entryOf s other place) unshares.counted.1
      rw [Function.update_self, pageAt, pageAt, if_pos there, if_pos unshares.there, writes, reads,
        unshares.marked, newEntry, unshares.ram, Function.update_self]
      simp
    · rw [Function.update_of_ne otherPlace]
      exact untouched
  · rw [view, view, entryOf, unshares.others different]
    exact untouched

theorem WritableOnce.unshare (writableOnce : WritableOnce s) (taskLive : task ∈ s.live) :
    WritableOnce t := by
  intro other place otherLive there writes
  rw [unshares.live] at otherLive
  rw [unshares.mappers separate taskLive]
  have old : entryOf t other place = entryOf s other place →
      (if ptePa (entryOf t other place) = newPa then {task}
        else if ptePa (entryOf t other place) = ptePa (entryOf s task slot)
          then (mappers s (ptePa (entryOf t other place))).erase task
          else mappers s (ptePa (entryOf t other place))) = {other} ∨ (other = task ∧
            ptePa (entryOf s other place) = ptePa (entryOf s task slot)) := by
    intro same
    rw [same] at there writes ⊢
    have once := writableOnce otherLive there writes
    rw [if_neg (new_unmapped unshares separate otherLive there), once]
    split
    · rename_i isOld
      rcases eq_or_ne other task with rfl | different
      · exact .inr ⟨rfl, isOld⟩
      · exact .inl (Finset.erase_eq_of_notMem fun member =>
          different (Finset.mem_singleton.mp member).symm)
    · exact .inl rfl
  rcases eq_or_ne other task with rfl | different
  · rcases eq_or_ne place slot with rfl | otherPlace
    · have new : entryOf t other place = unshared (entryOf s other place) newPa := by
        rw [unshares.entry, Function.update_self]
      rw [new, (unshared_spec _ unshares.counted.1).2.2.2, if_pos rfl]
    · have same : entryOf t other place = entryOf s other place := by
        rw [unshares.entry, Function.update_of_ne otherPlace]
      rcases old same with once | ⟨-, isOld⟩
      · exact once
      · rw [same] at there
        exact absurd (separate.injective otherLive place slot there unshares.there isOld) otherPlace
  · have same : entryOf t other place = entryOf s other place := by
      rw [entryOf, unshares.others different, entryOf]
    exact (old same).resolve_right fun both => different both.1

end Unshared

/-! ## Stores -/

/-- A store through a writable entry is a store to the page of one process. -/
theorem Related.write {s t : Vm} {e : Eager} (related : Related s e) {task : ℕ}
    (taskLive : task ∈ s.live) {slot : Slot} {offset : Fin 4096} {value : BitVec 8}
    (result : s.writeByte task slot offset value = some t) :
    ∃ f, e.store task slot offset value = some f ∧ Related t f := by
  have exact := related.exact
  change (if present (entryOf s task slot) && writable (entryOf s task slot) then _
    else none) = some t at result
  split at result
  swap
  · exact absurd result (by simp)
  rename_i both
  obtain ⟨there, writes⟩ := Bool.and_eq_true_iff.mp both
  obtain ⟨ram, written⟩ : ∃ ram, ram = Function.update s.ram (ptePa (entryOf s task slot))
    (Function.update (s.ram (ptePa (entryOf s task slot))) offset value) := ⟨_, rfl⟩
  have final : t = { s with ram := ram } := by
    rw [written]
    exact (Option.some.inj result).symm
  subst final
  have here : e.page task slot =
      some ⟨readable (entryOf s task slot), true, s.ram (ptePa (entryOf s task slot))⟩ := by
    rw [related.page taskLive, view, pageAt, if_pos there, writes, Bool.true_or]
  -- No other entry points to the page that is written.
  have elsewhere : ∀ {other place}, other ∈ s.live → present (entryOf s other place) = true →
      ptePa (entryOf s other place) = ptePa (entryOf s task slot) →
      other = task ∧ place = slot := by
    intro other place otherLive otherThere same
    have once := related.writableOnce taskLive there writes
    have isTask : other ∈ ({task} : Finset ℕ) :=
      once ▸ mem_mappers.mpr ⟨otherLive, place, otherThere, same⟩
    obtain rfl := Finset.mem_singleton.mp isTask
    exact ⟨rfl, exact.separate.injective otherLive place slot otherThere there same⟩
  refine ⟨_, Eager.store_eq offset value here rfl, ⟨?_, exact.owned, exact.counted⟩,
    related.writableOnce, related.live, fun {other} otherLive => ?_⟩
  · exact exact.separate.extend rfl rfl rfl (.refl exact.separate.valid)
  · funext place
    have untouched : ¬ (other = task ∧ place = slot) →
        pageAt s.ram (entryOf s other place) = pageAt ram (entryOf s other place) := fun notHere =>
      pageAt_congr fun otherThere => by
        rw [written]
        exact (Function.update_of_ne
          (fun same => notHere (elsewhere otherLive otherThere same)) _ _).symm
    change Function.update e.page task _ other place = pageAt ram (entryOf s other place)
    rcases eq_or_ne other task with rfl | different
    · rw [Function.update_self]
      rcases eq_or_ne place slot with rfl | otherPlace
      · rw [Function.update_self, pageAt, if_pos there, writes, Bool.true_or,
          written, Function.update_self]
      · rw [Function.update_of_ne otherPlace, related.page otherLive]
        exact untouched fun both => otherPlace both.2
    · rw [Function.update_of_ne different, related.page otherLive]
      exact untouched fun both => different both.1

/-- A store that faults first gets a page of its own. -/
theorem Related.store {s t : Vm} {e : Eager} (related : Related s e) {task : ℕ}
    (taskLive : task ∈ s.live) {slot : Slot} {offset : Fin 4096} {value : BitVec 8} {newPage : Word}
    (result : s.storeByte task slot offset value newPage = some t) :
    ∃ f, e.store task slot offset value = some f ∧ Related t f := by
  simp only [Vm.storeByte] at result
  split at result
  · exact related.write taskLive result
  · obtain ⟨mid, fault, write⟩ := Option.bind_eq_some_iff.mp result
    have separate := related.exact.separate
    have unshares := cowFault_unshares separate taskLive fault
    have midRelated : Related mid e := by
      refine ⟨related.exact.unshare taskLive unshares,
        WritableOnce.unshare unshares separate related.writableOnce taskLive,
        related.live.trans unshares.live.symm, fun {other} otherLive => ?_⟩
      rw [unshares.live] at otherLive
      rw [view_unshare unshares separate otherLive]
      exact related.page otherLive
    exact midRelated.write (unshares.live ▸ taskLive) write

/-! ## The refinement -/

/-- Every step over shared page tables is a step over copies. -/
theorem Related.step {s t : Vm} {e : Eager} {event : Event} (related : Related s e)
    (step : shared.Step s event t) :
    ∃ f, eager.Step e event f ∧ Related t f := by
  obtain ⟨step, atMost⟩ := step
  have exact := related.exact
  cases step with
  | fork parentLive childNew result =>
    rename_i parent child pages
    have forks := fork_forks exact.separate parentLive childNew result
    have room : Room s parent := by
      intro pa maps
      have few := atMost pa
      rw [card_entriesTo (fun _ => (exact.separate.fork forks parentLive).injective),
        (forks.mappers childNew pa).1 maps,
        Finset.card_insert_of_notMem fun member => childNew (mem_mappers.mp member).1,
        ← exact.counted parentLive maps] at few
      omega
    refine ⟨_, .fork (related.live ▸ parentLive) (related.live ▸ childNew), exact.fork parentLive
      childNew forks room, WritableOnce.fork forks related.writableOnce parentLive childNew, ?_,
      fun {task} taskLive => ?_⟩
    · rw [Eager.fork, related.live, forks.live]
    · rw [view_fork forks]
      change Function.update e.page child (e.page parent) task = _
      have wasLive := forks.was_live parentLive taskLive
      rcases eq_or_ne task child with rfl | notChild
      · rw [origin_child, Function.update_self]
        exact related.page parentLive
      · rw [origin_of_ne notChild] at wasLive ⊢
        rw [Function.update_of_ne notChild]
        exact related.page wasLive
  | load taskLive result =>
    refine ⟨e, .load (related.live ▸ taskLive) ?_, related⟩
    rw [related.load taskLive]
    exact result
  | store taskLive result =>
    obtain ⟨f, stored, after⟩ := related.store taskLive result
    exact ⟨f, .store (related.live ▸ taskLive) stored, after⟩
  | exit taskLive =>
    rename_i task
    obtain ⟨gone, unmaps, live, -⟩ := exit_unmaps exact.separate taskLive
    refine ⟨_, .exit (related.live ▸ taskLive), exact.unmap taskLive unmaps,
      WritableOnce.unmap unmaps related.writableOnce taskLive, ?_, fun {other} otherLive => ?_⟩
    · rw [live, Eager.exit, related.live]
    · rw [live] at otherLive
      obtain ⟨different, wasLive⟩ := Finset.mem_erase.mp otherLive
      rw [view_unmap unmaps different]
      exact related.page wasLive

theorem related_installed {s : Vm} (installed : RefCounts.Installed s) : Related s (eagerOf s) where
  exact := installed.exact
  writableOnce := by
    intro task slot taskLive there _
    have exact := installed.exact
    have maps : MapsPage (s.pgd task) (ptePa (entryOf s task slot)) := ⟨slot, there, rfl⟩
    have once := installed.once (ptePa (entryOf s task slot))
    rw [card_entriesTo fun _ => exact.separate.injective] at once
    have member := mem_mappers.mpr ⟨taskLive, maps⟩
    exact Finset.eq_singleton_iff_unique_mem.mpr
      ⟨member, fun other otherMember => Finset.card_le_one.mp once other otherMember task member⟩
  live := rfl
  page _ := rfl

/-- A page that is mapped with `PTE_W` is mapped by no other entry. -/
def WritesUnshared (s : Vm) : Prop :=
  ∀ {task slot}, task ∈ s.live → present (entryOf s task slot) = true →
  writable (entryOf s task slot) = true → entriesTo s (ptePa (entryOf s task slot)) = {(task, slot)}

theorem Related.writesUnshared {s : Vm} {e : Eager} (related : Related s e) : WritesUnshared s := by
  intro task slot taskLive there writes
  ext ⟨other, place⟩
  rw [mem_entriesTo, Finset.mem_singleton, Prod.mk.injEq]
  constructor
  · rintro ⟨otherLive, otherThere, same⟩
    have once := related.writableOnce taskLive there writes
    have isTask : other ∈ ({task} : Finset ℕ) :=
      once ▸ mem_mappers.mpr ⟨otherLive, place, otherThere, same⟩
    obtain rfl := Finset.mem_singleton.mp isTask
    exact ⟨rfl, related.exact.separate.injective otherLive place slot otherThere there same⟩
  · rintro ⟨rfl, rfl⟩
    exact ⟨taskLive, there, rfl⟩

/-- From processes whose pages are each mapped once with count 1, every run in which no page is
shared by more than 255 entries is a run of processes that copy eagerly: the same loads return the
same bytes, and every byte that can be read afterwards is the same. In every state reached, a page
mapped with `PTE_W` is mapped by no other entry. -/
theorem fork_refines_eager_copy {s t : Vm} {events : List Event} (installed : RefCounts.Installed s)
    (run : System.Path shared s events t) :
    (∃ e, System.Path eager (eagerOf s) events e ∧ ∀ task ∈ t.live, ∀ slot offset,
      e.load task slot offset = t.loadByte task slot offset) ∧ WritesUnshared t := by
  obtain ⟨e, copies, related⟩ :=
    run.simulate (fun related step => Related.step related step) (related_installed installed)
  exact ⟨⟨e, copies, fun task taskLive => related.load taskLive⟩, related.writesUnshared⟩

/-- After a fork the child stores a byte through a copy-on-write fault, and the parent still reads
the old one. -/
theorem fork_refines_eager_copy_store :
    ∃ (t : Vm) (e : Eager), RefCounts.Installed RefCounts.oneProcess ∧
    System.Path shared RefCounts.oneProcess [.fork 0 1 (RefCounts.forkPages 0),
      .store 1 (0, 0, 0) 0 7#8 (RefCounts.pageVa 7), .load 0 (0, 0, 0) 0 0#8] t ∧
    (∀ task ∈ t.live, ∀ slot offset, e.load task slot offset = t.loadByte task slot offset) ∧
    WritesUnshared t := by
  have installed := RefCounts.oneProcess_installed
  obtain ⟨mid, forkResult, forked⟩ := RefCounts.forked_zero.next (by omega)
  have few : ∀ {s : Vm}, Exact s → s.live = Finset.range 2 → ∀ pa, (entriesTo s pa).card ≤ 255 := by
    intro s exact live pa
    have atMost := card_entriesTo_le (fun _ => exact.separate.injective) pa
    rw [live, Finset.card_range] at atMost
    omega
  have forks := fork_forks installed.separate (by decide) (by decide) forkResult
  have midExact :=
    installed.exact.fork (by decide) (by decide) forks fun _ _ => Nat.one_lt_succ_succ _
  have fork : shared.Step RefCounts.oneProcess (.fork 0 1 (RefCounts.forkPages 0)) mid :=
    ⟨.fork (by decide) (by decide) forkResult, few midExact forked.live⟩
  obtain ⟨e, -, related⟩ := Related.step (related_installed installed) fork
  have childLive : 1 ∈ mid.live := by simp [forked.live]
  -- The child's entry is the parent's, without `PTE_W` and with `PTE_COW`.
  have entry : entryOf mid 1 (0, 0, 0) = Vm.share (makePte 0x3000#64 protUserRw) := by
    obtain ⟨pages, childPgd⟩ := forks.childPgd
    rw [entryOf, childPgd, entryAt_childTable]
    rfl
  have there : present (entryOf mid 1 (0, 0, 0)) = true := by rw [entry]; decide
  have marked : copyOnWrite (entryOf mid 1 (0, 0, 0)) = true := by rw [entry]; decide
  have fixed : writable (entryOf mid 1 (0, 0, 0)) = false := by rw [entry, writable_share]
  obtain ⟨faulted, fault⟩ :=
    cowFault_succeeds there marked (RefCounts.isPage_pageVa forked.build (n := 7) (by omega))
    fun a here => forked.unused a (by rw [here, RefCounts.frame_pageVa (by omega)])
  have unshares := cowFault_unshares midExact.separate childLive fault
  have newThere : present (entryOf faulted 1 (0, 0, 0)) = true ∧
      writable (entryOf faulted 1 (0, 0, 0)) = true := by
    rw [unshares.entry, Function.update_self]
    exact ⟨(unshared_spec _ unshares.counted.1).1, (unshared_spec _ unshares.counted.1).2.1⟩
  obtain ⟨t, write⟩ : ∃ t, faulted.writeByte 1 (0, 0, 0) 0 7#8 = some t :=
    ⟨_, if_pos (Bool.and_eq_true_iff.mpr newThere)⟩
  have storeResult : mid.storeByte 1 (0, 0, 0) 0 7#8 (RefCounts.pageVa 7) = some t := by
    have notDirect :
        (present (entryOf mid 1 (0, 0, 0)) && writable (entryOf mid 1 (0, 0, 0))) ≠ true := by
      rw [fixed, Bool.and_false]
      decide
    refine (if_neg notDirect).trans ?_
    rw [fault]
    exact write
  obtain ⟨f, stored, after⟩ := related.store childLive storeResult
  obtain ⟨live, others⟩ := Eager.store_frame stored
  have tLive : t.live = Finset.range 2 := by rw [← after.live, live, related.live, forked.live]
  have store : shared.Step mid (.store 1 (0, 0, 0) 0 7#8 (RefCounts.pageVa 7)) t :=
    ⟨.store childLive storeResult, few after.exact tLive⟩
  have parentLive : 0 ∈ t.live := by rw [tLive]; decide
  have byte : t.loadByte 0 (0, 0, 0) 0 = some 0#8 := by
    rw [← after.load parentLive, Eager.load, others 0 (by decide), ← Eager.load,
      related.load (by rw [forked.live]; decide)]
    have parentEntry : entryOf mid 0 (0, 0, 0) = Vm.share (makePte 0x3000#64 protUserRw) := by
      rw [entryOf, forks.parentPgd, entryAt_parentTable]
      rfl
    change (if present (entryOf mid 0 (0, 0, 0)) && readable (entryOf mid 0 (0, 0, 0)) then _
      else none) = _
    rw [parentEntry, present_share, readable_share, forks.ram]
    rfl
  have load : shared.Step t (.load 0 (0, 0, 0) 0 0#8) t :=
    ⟨.load parentLive byte, few after.exact tLive⟩
  have run := System.Path.cons fork (.cons store (.cons load (.nil t)))
  obtain ⟨⟨final, -, same⟩, unshared⟩ := fork_refines_eager_copy installed run
  exact ⟨t, final, installed, run, same, unshared⟩

end OscKernel.Soundness.CopyOnWrite
