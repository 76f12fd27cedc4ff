import OscKernel.Lib.System
import OscKernel.Soundness.FreeLists
import Mathlib.Data.Rat.Floor

/-! # What startup leaves on the free lists

The marking loop reserves the pages that a region touches, and the last loop frees the others one by
one, merging as it goes. Page indices are differences of unsigned words cut to an `int`: they come
out as the floor and the ceiling of the signed distance from the base as long as that distance stays
below `2 ^ 43` (`startIdx_eq`, `endIdx_eq`).
-/

namespace OscKernel.Soundness.Allocator

open OscKernel.Lib OscKernel.Model OscKernel.Model.Allocator

/-! ## Freeing page by page -/

/-- No two pages share an address. -/
def Spaced (a : Allocator) : Prop := a.baseAddr < 2 ^ 64 ∧ a.totalPages ≤ 2 ^ 52

theorem frameIndex_frameAddr {a : Allocator} (spaced : Spaced a) {idx : ℕ}
    (bound : idx < a.totalPages) :
    a.frameIndex (a.frameAddr idx) = idx := by
  obtain ⟨base, total⟩ := spaced
  rw [frameIndex, frameAddr]
  omega

/-- The allocator while regions are marked: no block is free yet. -/
structure Marked (base total : ℕ) (a : Allocator) : Prop where
  base : a.baseAddr = base
  total : a.totalPages = total
  freelists : a.freelists = fun _ => []
  freelistsSize : a.freelistsSize = fun _ => 0
  frames : ∀ j, (a.frameArray j).order = 0 ∧
    ((a.frameArray j).status = frameAlloc ∨ (a.frameArray j).status = frameReserved)

theorem Marked.markPage {base total : ℕ} {a : Allocator} (marked : Marked base total a) (j : ℤ) :
    Marked base total (a.markPage j) := by
  rw [Allocator.markPage]
  simp only
  split
  · refine ⟨marked.base, marked.total, marked.freelists, marked.freelistsSize, fun page => ?_⟩
    rcases eq_or_ne page (BitVec.ofInt 32 j).toNat with rfl | other
    · rw [setFrame_frame_self]
      exact ⟨(marked.frames _).1, .inr rfl⟩
    · rw [setFrame_frame_of_ne _ _ _ _ other]
      exact marked.frames page
  · exact marked

theorem marked_markRegions (base total : ℕ) (start : Word) (regions : List ReservedRegion) :
    Marked base total ((buddyInit base total).markRegions start regions) := by
  apply List.foldlRecOn regions _ ⟨rfl, rfl, rfl, rfl, fun _ => ⟨rfl, .inl rfl⟩⟩
  intro a marked region _
  exact List.foldlRecOn (region.pages start) _ marked fun a marked j _ => marked.markPage j

namespace Marked

variable {base total : ℕ} {a : Allocator}

theorem wellFormed (marked : Marked base total a) : WellFormed a where
  heads i bound _ := by
    refine ⟨0, (marked.frames i).1, by decide, one_dvd _, by omega, fun j after inside => ?_⟩
    omega
  listed k i := by
    have notFree : a.frameArray i ≠ ⟨k, frameFree⟩ := by
      intro free
      have status := (marked.frames i).2
      simp [free, frameFree, frameAlloc, frameReserved] at status
    simp [marked.freelists, notFree]
  nodup k := by simp [marked.freelists]
  size k := by simp [marked.freelists, marked.freelistsSize]

theorem merged (marked : Marked base total a) : Merged a := by
  intro k small i member
  simp [marked.freelists] at member

theorem freePages (marked : Marked base total a) : freePages a = ∅ := by
  apply Set.eq_empty_of_forall_notMem
  intro j free
  obtain ⟨k, i, member, -⟩ := mem_freePages.mp free
  simp [marked.freelists] at member

/-- A marked frame is a page of its own, allocated or reserved. -/
theorem page (marked : Marked base total a) (j : ℕ) :
    a.frameArray j = ⟨0, frameAlloc⟩ ∨ (a.frameArray j).status = frameReserved := by
  obtain ⟨order, allocated | reserved⟩ := marked.frames j
  · exact .inl (by rw [← order, ← allocated])
  · exact .inr reserved

end Marked

/-- Releasing pages that are still allocated or reserved succeeds and frees those not reserved. -/
private theorem releasePages_spec {a : Allocator} (spaced : Spaced a) (wellFormed : WellFormed a)
    (merged : Merged a) {pages : List ℕ} (nodup : pages.Nodup)
    (bound : ∀ j ∈ pages, j < a.totalPages) (untouched : ∀ j ∈ pages, a.frameArray j =
      ⟨0, frameAlloc⟩ ∨ (a.frameArray j).status = frameReserved) :
    ∃ a', a.releasePages a.baseAddr pages = some a' ∧ WellFormed a' ∧ Merged a' ∧
      a'.baseAddr = a.baseAddr ∧ a'.totalPages = a.totalPages ∧
      freePages a' = freePages a ∪ {j | j ∈ pages ∧ (a.frameArray j).status ≠ frameReserved} := by
  induction pages generalizing a with
  | nil => exact ⟨a, rfl, wellFormed, merged, rfl, rfl, by simp⟩
  | cons i rest ih =>
    have boundI := bound i List.mem_cons_self
    obtain ⟨notIn, nodupRest⟩ := List.nodup_cons.mp nodup
    rw [releasePages]
    rcases untouched i List.mem_cons_self with allocated | reserved
    · have index : a.frameIndex ((a.baseAddr + i * 4096) % 2 ^ 64) = i :=
        frameIndex_frameAddr spaced boundI
      have frame : a.frameArray i = ⟨(0 : ℕ), frameAlloc⟩ := by
        rw [allocated]
        rfl
      obtain ⟨b, freed, wellFormedB, calm⟩ := buddyFree_spec wellFormed index boundI frame
      obtain ⟨mergedB, pagesB⟩ := buddyFree_merged wellFormed merged index boundI frame freed
      rw [if_pos (by rw [allocated]; decide), freed, Option.bind_some]
      have base : b.baseAddr = a.baseAddr := calm.baseAddr
      have total : b.totalPages = a.totalPages := calm.totalPages
      have kept : ∀ j ∈ rest, b.frameArray j = a.frameArray j := by
        intro j member
        have other : j ≠ i := fun same => notIn (same ▸ member)
        have same := setFrame_frame_of_ne a i j ⟨-1, frameBuddy⟩ other
        rw [calm.kept j (.inl (by
          rw [same]
          rcases untouched j (List.mem_cons_of_mem i member) with allocated | reserved
          · simp [Settled, allocated, frameAlloc, frameFree, frameBuddy]
          · simp [Settled, reserved, frameReserved, frameFree, frameBuddy])), same]
      obtain ⟨a', released, wellFormed', merged', base', total', pages'⟩ := ih (a := b)
        (by rw [Spaced, base, total]; exact spaced) wellFormedB mergedB nodupRest
        (fun j member => by rw [total]; exact bound j (List.mem_cons_of_mem i member))
        (fun j member => by rw [kept j member]; exact untouched j (List.mem_cons_of_mem i member))
      rw [base] at released
      refine ⟨a', released, wellFormed', merged', base'.trans base, total'.trans total, ?_⟩
      rw [pages', pagesB]
      ext j
      simp only [Set.mem_union, Set.mem_ofPred_eq, mem_span, List.mem_cons, pow_zero]
      constructor
      · rintro ((inPage | free) | ⟨member, status⟩)
        · obtain rfl : j = i := by omega
          exact .inr ⟨.inl rfl, by rw [allocated]; decide⟩
        · exact .inl free
        · exact .inr ⟨.inr member, kept j member ▸ status⟩
      · rintro (free | ⟨rfl | member, status⟩)
        · exact .inl (.inr free)
        · exact .inl (.inl (by omega))
        · exact .inr ⟨member, (kept j member).symm ▸ status⟩
    · rw [if_neg (not_not.mpr reserved)]
      obtain ⟨a', released, wellFormed', merged', base', total', pages'⟩ :=
        ih spaced wellFormed merged nodupRest
        (fun j member => bound j (List.mem_cons_of_mem i member))
        (fun j member => untouched j (List.mem_cons_of_mem i member))
      refine ⟨a', released, wellFormed', merged', base', total', ?_⟩
      rw [pages']
      congr 1
      ext j
      simp only [Set.mem_ofPred_eq, List.mem_cons]
      constructor
      · rintro ⟨member, status⟩
        exact ⟨.inr member, status⟩
      · rintro ⟨rfl | member, status⟩
        · exact absurd reserved status
        · exact ⟨member, status⟩

/-! ## The whole of startup -/

/-- The bytes of the frame array. -/
def metadataLength (size : Word) : Word := ((size / pageSize).setWidth 32).setWidth 64 * sizeofFrame

/-- Where the search for a place for the frame array starts. -/
def metadataStart (kernelEnd : Word) : Word :=
  (kernelEnd + pageSize - 1#64) &&& ~~~(pageSize - 1#64)

/-- The allocator that startup frees from: the regions and the frame array are marked. -/
def markedAllocator (start size : Word) (regions : List ReservedRegion)
    (metadata : Word) : Allocator :=
  (buddyInit start.toNat ((size / pageSize).setWidth 32).toNat).markRegions start
    (regions ++ [⟨metadata, metadata + metadataLength size⟩])

/-- What startup leaves: the pages not marked are free, and nothing else is. -/
structure Started (start size : Word) (regions : List ReservedRegion)
    (metadata : Word) (a : Allocator) :
    Prop where
  baseAddr : a.baseAddr = start.toNat
  totalPages : a.totalPages = ((size / pageSize).setWidth 32).toNat
  wellFormed : WellFormed a
  merged : Merged a
  pages : freePages a = {j | j < a.totalPages ∧
    ((markedAllocator start size regions metadata).frameArray j).status ≠ frameReserved}

theorem Started.spaced {start size metadata : Word} {regions : List ReservedRegion} {a : Allocator}
    (started : Started start size regions metadata a) : Spaced a := by
  rw [Spaced, started.baseAddr, started.totalPages]
  have := ((size / pageSize).setWidth 32).isLt
  exact ⟨start.isLt, by omega⟩

/-- Startup places the frame array, marks the regions and releases the pages. -/
theorem startupAllocator_eq (start size kernelEnd : Word)
    (regions : List ReservedRegion) (fuel : ℕ) :
    startupAllocator start size kernelEnd regions fuel =
      (placeMetadata regions (metadataLength size)
        fuel (metadataStart kernelEnd)).bind fun metadata =>
        (markedAllocator start size regions metadata).releasePages start.toNat
          (List.range ((size / pageSize).setWidth 32).toNat) := by
  unfold startupAllocator markedAllocator metadataLength metadataStart
  simp only
  cases placeMetadata regions _ fuel _ with
  | none => rfl
  | some metadata => rfl

/-- Once the frame array has a place, startup comes to its end. -/
theorem startupAllocator_started {start size kernelEnd metadata : Word}
    {regions : List ReservedRegion} {fuel : ℕ} (placed : placeMetadata regions (metadataLength size)
      fuel (metadataStart kernelEnd) = some metadata) :
    ∃ a, startupAllocator start size kernelEnd regions fuel = some a ∧
      Started start size regions metadata a := by
  have marked := marked_markRegions start.toNat ((size / pageSize).setWidth 32).toNat start
    (regions ++ [⟨metadata, metadata + metadataLength size⟩])
  have spaced : Spaced (markedAllocator start size regions metadata) := by
    rw [Spaced, markedAllocator, marked.base, marked.total]
    have := ((size / pageSize).setWidth 32).isLt
    exact ⟨start.isLt, by omega⟩
  obtain ⟨a, released, wellFormed, merged, base, total, pages⟩ :=
    releasePages_spec spaced marked.wellFormed
    marked.merged (List.nodup_range (n := ((size / pageSize).setWidth 32).toNat))
    (fun j member => by rw [markedAllocator, marked.total]; exact List.mem_range.mp member)
    (fun j _ => marked.page j)
  refine ⟨a, ?_, base.trans marked.base, total.trans marked.total, wellFormed, merged, ?_⟩
  · rw [startupAllocator_eq, placed, Option.bind_some]
    rw [show (markedAllocator start size regions metadata).baseAddr =
      start.toNat from marked.base] at released
    exact released
  · rw [pages, show freePages (markedAllocator start size regions metadata) =
      ∅ from marked.freePages, Set.empty_union, total,
      show (markedAllocator start size regions metadata).totalPages = _ from marked.total]
    simp only [List.mem_range]

theorem started_of_boot {start size kernelEnd : Word} {regions : List ReservedRegion} {fuel : ℕ}
    {a : Allocator} (boot : startupAllocator start size kernelEnd regions fuel = some a) :
    ∃ metadata, placeMetadata regions (metadataLength size) fuel (metadataStart kernelEnd) =
      some metadata ∧
      Started start size regions metadata a := by
  cases placed : placeMetadata regions (metadataLength size) fuel (metadataStart kernelEnd) with
  | none =>
    rw [startupAllocator_eq, placed, Option.bind_none] at boot
    exact absurd boot (by simp)
  | some metadata =>
    obtain ⟨b, result, started⟩ : ∃ b, startupAllocator start size kernelEnd regions fuel = some b ∧
        Started start size regions metadata b := startupAllocator_started placed
    rw [boot] at result
    obtain rfl := Option.some.inj result
    exact ⟨metadata, rfl, started⟩

/-! ## Page indices -/

/-- The signed distance of an address from the RAM base. -/
def offset (base w : Word) : ℤ := (w - base).toInt

theorem toInt_eq (w : Word) : w.toInt = if 2 * w.toNat < 2 ^ 64 then (w.toNat : ℤ)
    else w.toNat - 2 ^ 64 :=
  BitVec.toInt_eq_toNat_cond w

private theorem startIdx_eq {base : Word} {r : ReservedRegion}
    (near : |offset base r.start| ≤ 2 ^ 43 - 4096) :
    r.startIdx base = ⌊(offset base r.start : ℚ) / 4096⌋ := by
  have floor := Rat.floor_intCast_div_natCast (offset base r.start) 4096
  push_cast at floor
  rw [floor, ReservedRegion.startIdx, BitVec.toInt_eq_toNat_cond, BitVec.toNat_setWidth,
    BitVec.toNat_udiv, show pageSize.toNat = 4096 from rfl]
  rw [offset, toInt_eq] at near ⊢
  have bound := (r.start - base).isLt
  rw [abs_le] at near
  split at near <;> split <;> omega

private theorem endIdx_eq {base : Word} {r : ReservedRegion}
    (near : |offset base r.stop| ≤ 2 ^ 43 - 4096) :
    r.endIdx base = ⌈(offset base r.stop : ℚ) / 4096⌉ := by
  have ceil := Rat.ceil_intCast_div_natCast (offset base r.stop) 4096
  push_cast at ceil
  rw [ceil, ReservedRegion.endIdx, BitVec.toInt_eq_toNat_cond, BitVec.toNat_setWidth,
    BitVec.toNat_udiv, show pageSize.toNat = 4096 from rfl]
  have sum : (r.stop - base + pageSize - 1#64).toNat = ((r.stop - base).toNat + 4095) % 2 ^ 64 := by
    rw [show r.stop - base + pageSize - 1#64 = r.stop - base + 4095#64 by
      rw [show pageSize = 4096#64 from rfl]
      bv_omega, BitVec.toNat_add]
    rfl
  rw [sum]
  rw [offset, toInt_eq] at near ⊢
  have bound := (r.stop - base).isLt
  rw [abs_le] at near
  split at near <;> split <;> omega

/-- The marking loop of a region reaches a page whose index stays below `2 ^ 31`. -/
theorem mem_pages {r : ReservedRegion} {base : Word} {j : ℕ} (bound : j < 2 ^ 31) :
    (∃ x ∈ r.pages base, (BitVec.ofInt 32 x).toNat = j) ↔ r.startIdx base ≤ j ∧
    (j : ℤ) < r.endIdx base := by
  have low : -2 ^ 31 ≤ r.startIdx base := BitVec.le_toInt _
  have high : r.endIdx base < 2 ^ 31 := BitVec.toInt_lt
  have member : ∀ x, x ∈ r.pages base ↔ r.startIdx base ≤ x ∧ x < r.endIdx base := by
    intro x
    simp only [ReservedRegion.pages, List.mem_map, List.bind_eq_flatMap, List.mem_flatMap,
      List.mem_range, List.pure_def, List.mem_singleton]
    constructor
    · rintro ⟨_, ⟨i, inside, rfl⟩, rfl⟩
      omega
    · rintro ⟨start, stop⟩
      exact ⟨x - r.startIdx base, ⟨(x - r.startIdx base).toNat, by omega, by omega⟩, by omega⟩
  simp only [member, BitVec.toNat_ofInt]
  constructor
  · rintro ⟨x, inside, same⟩
    omega
  · intro inside
    exact ⟨j, inside, by omega⟩

/-! ## Marking -/

private theorem markPage_status (a : Allocator) (x : ℤ) (j : ℕ) :
    ((a.markPage x).frameArray j).status = frameReserved ↔ (a.frameArray j).status = frameReserved ∨
      j < a.totalPages ∧ (BitVec.ofInt 32 x).toNat = j := by
  rw [Allocator.markPage]
  simp only
  split
  · rename_i inside
    rcases eq_or_ne j (BitVec.ofInt 32 x).toNat with rfl | other
    · rw [setFrame_frame_self]
      exact iff_of_true rfl (.inr ⟨inside, rfl⟩)
    · rw [setFrame_frame_of_ne _ _ _ _ other]
      exact ⟨.inl, fun reached => reached.resolve_right fun here => other here.2.symm⟩
  · rename_i outside
    constructor
    · exact .inl
    · rintro (reserved | ⟨inside, rfl⟩)
      · exact reserved
      · exact absurd inside outside

@[simp] theorem markPage_totalPages (a : Allocator) (x : ℤ) :
    (a.markPage x).totalPages = a.totalPages := by
  rw [Allocator.markPage]
  simp only
  split <;> rfl

private theorem markRegion_status (a : Allocator) (pages : List ℤ) (j : ℕ) :
    (pages.foldl markPage a).totalPages = a.totalPages ∧
    (((pages.foldl markPage a).frameArray j).status = frameReserved ↔
      (a.frameArray j).status = frameReserved ∨
      j < a.totalPages ∧ ∃ x ∈ pages, (BitVec.ofInt 32 x).toNat = j) := by
  induction pages generalizing a with
  | nil => simp
  | cons x rest ih =>
    obtain ⟨total, status⟩ := ih (a.markPage x)
    rw [List.foldl_cons, total, status, markPage_status,
      markPage_totalPages, or_assoc, ← and_or_left]
    simp only [List.mem_cons, exists_eq_or_imp, true_and]

/-- A frame is reserved once some region's loop reaches it. -/
private theorem markRegions_status (a : Allocator) (base : Word) (regions : List ReservedRegion)
    (j : ℕ) : ((a.markRegions base regions).frameArray j).status = frameReserved ↔
      (a.frameArray j).status = frameReserved ∨
        j < a.totalPages ∧ ∃ r ∈ regions, ∃ x ∈ r.pages base, (BitVec.ofInt 32 x).toNat = j := by
  rw [Allocator.markRegions]
  induction regions generalizing a with
  | nil => simp
  | cons r rest ih =>
    obtain ⟨total, status⟩ := markRegion_status a (r.pages base) j
    rw [List.foldl_cons, ih, total, status, or_assoc, ← and_or_left]
    simp only [List.mem_cons, exists_eq_or_imp]

/-! ## The place of the frame array -/

/-- An address at most `2 ^ 42` bytes away from the RAM base. -/
def Near (base w : Word) : Prop := |(w.toNat : ℤ) - base.toNat| ≤ 2 ^ 42

theorem offset_of_near {base w : Word} (near : Near base w) :
    offset base w = w.toNat - base.toNat := by
  have boundW := w.isLt
  have boundBase := base.isLt
  rw [Near, abs_le] at near
  rw [offset, toInt_eq, BitVec.toNat_sub]
  split <;> omega

theorem toNat_metadataStart (w : Word) :
    (metadataStart w).toNat = (w.toNat + 4095) % 2 ^ 64 / 4096 * 4096 := by
  have sum : w + pageSize - 1#64 = w + 4095#64 := by
    rw [show pageSize = 4096#64 from rfl]
    bv_omega
  rw [metadataStart, sum, show pageSize - 1#64 = BitVec.ofNat 64 (2 ^ 12 - 1) from rfl,
    toNat_and_not_lowMask, BitVec.toNat_add]
  rfl

/-- Rounding up moves an address by less than a page, around the end of the address space if need
be. -/
private theorem offset_metadataStart {base w : Word} (near : Near base w) :
    -2 ^ 42 ≤ offset base (metadataStart w) ∧ offset base (metadataStart w) ≤ 2 ^ 42 + 4095 := by
  have boundW := w.isLt
  have boundBase := base.isLt
  rw [Near, abs_le] at near
  rw [offset, toInt_eq, BitVec.toNat_sub, toNat_metadataStart]
  split <;> omega

private theorem offset_add {base w length : Word} (low : -2 ^ 43 ≤ offset base w)
    (high : offset base w ≤ 2 ^ 43) (short : length.toNat < 2 ^ 43) :
    offset base (w + length) = offset base w + length.toNat := by
  have sum : w + length - base = w - base + length := by bv_omega
  have bound := (w - base).isLt
  rw [offset, toInt_eq] at low high ⊢
  rw [sum, BitVec.toNat_add, offset, toInt_eq]
  split at low <;> split <;> omega

theorem toNat_total {size : Word} (small : size.toNat < 2 ^ 42) :
    ((size / pageSize).setWidth 32).toNat = size.toNat / 4096 := by
  rw [BitVec.toNat_setWidth, BitVec.toNat_udiv, show pageSize.toNat = 4096 from rfl]
  exact Nat.mod_eq_of_lt (by omega)

private theorem metadataLength_lt {size : Word} (small : size.toNat < 2 ^ 42) :
    (metadataLength size).toNat < 2 ^ 35 := by
  rw [metadataLength, BitVec.toNat_mul, BitVec.toNat_setWidth, toNat_total small,
    show sizeofFrame.toNat = 24 from rfl]
  have pages : size.toNat / 4096 < 2 ^ 30 := by omega
  rw [Nat.mod_eq_of_lt (by omega), Nat.mod_eq_of_lt (by omega)]
  omega

theorem countP_lt_countP {α : Type*} {p q : α → Bool} {l : List α} (narrower : ∀ x, p x → q x)
    {r : α} (member : r ∈ l) (wide : q r) (narrow : p r = false) : l.countP p < l.countP q := by
  have inside : l.countP p = (l.filter q).countP p := by
    rw [List.countP_filter]
    apply List.countP_congr
    intro x _
    simpa using narrower x
  rw [inside, List.countP_eq_length_filter (p := q), List.countP_lt_length_iff]
  exact ⟨r, List.mem_filter.mpr ⟨member, wide⟩, narrow⟩

/-- The search for a place moves past one region in each round, so it ends. -/
private theorem placeMetadata_terminates {base length : Word} (short : length.toNat < 2 ^ 35)
    {regions : List ReservedRegion} (near : ∀ r ∈ regions, Near base r.start ∧ Near base r.stop)
    {fuel : ℕ} {start : Word}
    (enough : regions.countP (fun r => decide (start.toNat < r.stop.toNat)) < fuel) :
    ∃ metadata, placeMetadata regions length fuel start = some metadata := by
  induction fuel generalizing start with
  | zero => exact absurd enough (Nat.not_lt_zero _)
  | succ fuel ih =>
    rw [placeMetadata]
    cases met : regions.find? fun r =>
      !(decide (start + length ≤ r.start) || decide (start ≥ r.stop)) with
    | none => exact ⟨start, rfl⟩
    | some r =>
      change ∃ metadata, placeMetadata regions length fuel (metadataStart r.stop) = some metadata
      have member := List.mem_of_find?_eq_some met
      have before : start.toNat < r.stop.toNat := by
        have overlaps := List.find?_some met
        simp only [ge_iff_le, Bool.not_or, Bool.and_eq_true, Bool.not_eq_true',
          decide_eq_false_iff_not, BitVec.le_def] at overlaps
        omega
      have next := toNat_metadataStart r.stop
      rcases Nat.lt_or_ge (r.stop.toNat + 4095) (2 ^ 64) with inside | wraps
      · apply ih
        have fewer :=
          countP_lt_countP (p := fun r' => decide ((metadataStart r.stop).toNat < r'.stop.toNat))
          (q := fun r' => decide (start.toNat < r'.stop.toNat))
          (fun r' => by simp only [decide_eq_true_eq]; omega) member (decide_eq_true before)
          (decide_eq_false (by omega))
        omega
      · -- rounded around the end of the address space, the array lies below every region
        have atZero : metadataStart r.stop = 0#64 := by
          apply BitVec.eq_of_toNat_eq
          rw [next]
          have := r.stop.isLt
          simp only [BitVec.toNat_ofNat]
          omega
        have positive : 0 < regions.countP (fun r => decide (start.toNat < r.stop.toNat)) :=
          List.countP_pos_iff.mpr ⟨r, member, decide_eq_true before⟩
        obtain ⟨rounds, rfl⟩ : ∃ rounds, fuel = rounds + 1 := ⟨fuel - 1, by omega⟩
        have free : regions.find?
            (fun r' => !(decide (0#64 + length ≤ r'.start) || decide (0#64 ≥ r'.stop))) = none := by
          apply List.find?_eq_none.mpr
          intro r' member'
          have low := (near r' member').1
          have high := (near r member).2
          rw [Near, abs_le] at low high
          simp only [ge_iff_le, Bool.not_or, Bool.and_eq_true, Bool.not_eq_true',
            decide_eq_false_iff_not, BitVec.le_def, BitVec.zero_add]
          omega
        refine ⟨0#64, ?_⟩
        rw [atZero, placeMetadata, free]

/-- The frame array starts at a rounded address of the kernel or of a region. -/
private theorem placeMetadata_near {base length metadata : Word} {regions : List ReservedRegion}
    (near : ∀ r ∈ regions, Near base r.start ∧ Near base r.stop) {fuel : ℕ} {from' : Word}
    (first : Near base from')
    (placed : placeMetadata regions length fuel (metadataStart from') = some metadata) :
    ∃ w, Near base w ∧ metadata = metadataStart w := by
  induction fuel generalizing from' with
  | zero => exact absurd placed (by simp [placeMetadata])
  | succ fuel ih =>
    rw [placeMetadata] at placed
    split at placed
    · rename_i r met
      exact ih (near r (List.mem_of_find?_eq_some met)).2 placed
    · exact ⟨from', first, (Option.some.inj placed).symm⟩

/-! ## The pages startup frees -/

/-- The pages from the floor of the start of a region to the ceiling of its end. -/
def Reserves (base : Word) (r : ReservedRegion) (j : ℕ) : Prop :=
  ⌊(offset base r.start : ℚ) / 4096⌋ ≤ j ∧ (j : ℤ) < ⌈(offset base r.stop : ℚ) / 4096⌉

/-- Startup ends, and a page is covered by a free block, and then by one only, exactly if neither a
region nor the frame array reserves it. -/
theorem startup_frees_unreserved {start size kernelEnd : Word} {regions : List ReservedRegion}
    {fuel : ℕ} (ram : size.toNat < 2 ^ 42)
    (near : ∀ r ∈ regions, Near start r.start ∧ Near start r.stop)
    (kernel : ∃ r ∈ regions, r.stop = kernelEnd) (enough : regions.length < fuel) :
    ∃ metadata started,
      placeMetadata regions (metadataLength size) fuel (metadataStart kernelEnd) = some metadata ∧
      startupAllocator start size kernelEnd regions fuel = some started ∧
      started.totalPages = size.toNat / 4096 ∧
      ∀ j < started.totalPages,
        ((∃ b ∈ freeBlocks started, j ∈ span b) ↔
          ∀ r ∈ regions ++ [⟨metadata, metadata + metadataLength size⟩], ¬ Reserves start r j) ∧
        ∀ b ∈ freeBlocks started, ∀ c ∈ freeBlocks started, j ∈ span b → j ∈ span c → b = c := by
  have short := metadataLength_lt ram
  obtain ⟨kernelRegion, memberKernel, rfl⟩ := kernel
  obtain ⟨metadata, placed⟩ : ∃ metadata, placeMetadata regions (metadataLength size) fuel
      (metadataStart kernelRegion.stop) = some metadata :=
    placeMetadata_terminates short near (lt_of_le_of_lt List.countP_le_length enough)
  obtain ⟨started, boot, left⟩ : ∃ a,
      startupAllocator start size kernelRegion.stop regions fuel = some a ∧
      Started start size regions metadata a := startupAllocator_started placed
  have total : started.totalPages = size.toNat / 4096 := left.totalPages.trans (toNat_total ram)
  refine ⟨metadata, started, placed, boot, total, fun j bound => ⟨?_, fun b first c second => ?_⟩⟩
  · have small : j < 2 ^ 30 := by omega
    -- every region, the frame array included, is close enough for its page indices to be exact
    have reach : ∀ r ∈ regions ++ [⟨metadata, metadata + metadataLength size⟩],
        |offset start r.start| ≤ 2 ^ 43 - 4096 ∧ |offset start r.stop| ≤ 2 ^ 43 - 4096 := by
      intro r member
      rcases List.mem_append.mp member with given | array
      · obtain ⟨nearStart, nearStop⟩ := near r given
        rw [offset_of_near nearStart, offset_of_near nearStop]
        exact ⟨le_trans nearStart (by norm_num), le_trans nearStop (by norm_num)⟩
      · obtain rfl := List.mem_singleton.mp array
        obtain ⟨w, nearW, rfl⟩ := placeMetadata_near near (near kernelRegion memberKernel).2 placed
        obtain ⟨low, high⟩ := offset_metadataStart nearW
        simp only [abs_le]
        rw [offset_add (by omega) (by omega) (by omega)]
        omega
    have marks : ∀ r ∈ regions ++ [⟨metadata, metadata + metadataLength size⟩],
        ((∃ x ∈ r.pages start, (BitVec.ofInt 32 x).toNat = j) ↔ Reserves start r j) := by
      intro r member
      obtain ⟨reachStart, reachStop⟩ := reach r member
      rw [mem_pages (by omega), startIdx_eq reachStart, endIdx_eq reachStop, Reserves]
    have free : (∃ b ∈ freeBlocks started, j ∈ span b) ↔ j ∈ freePages started := by
      simp only [freePages, Set.mem_iUnion₂, exists_prop]
    rw [free, left.pages, Set.mem_ofPred_eq, markedAllocator, Ne, markRegions_status]
    simp only [← left.totalPages, buddyInit, bound, true_and]
    constructor
    · intro unmarked r member reserves
      exact unmarked (.inr ⟨r, member, (marks r member).mpr reserves⟩)
    · rintro unreserved (allocated | ⟨r, member, reached⟩)
      · exact absurd allocated (by decide)
      · exact unreserved r member ((marks r member).mp reached)
  · exact fun inB inC => (left.wellFormed.canonical left.merged).eq_of_mem first second inB inC

/-- Eight pages that start in the middle of the kernel image: the part of the image below RAM
reserves nothing, and the frame array takes the page behind it. -/
theorem startup_frees_unreserved_eightPages : ∃ metadata started,
    placeMetadata [⟨0xffffffc07fffe000#64, 0xffffffc080000f00#64⟩] (metadataLength 0x8000#64) 2
      (metadataStart 0xffffffc080000f00#64) = some metadata ∧
    startupAllocator 0xffffffc080000000#64 0x8000#64 0xffffffc080000f00#64
      [⟨0xffffffc07fffe000#64, 0xffffffc080000f00#64⟩] 2 = some started ∧
    started.totalPages = (0x8000#64).toNat / 4096 ∧
    ∀ j < started.totalPages,
      ((∃ b ∈ freeBlocks started, j ∈ span b) ↔
        ∀ r ∈ [⟨0xffffffc07fffe000#64, 0xffffffc080000f00#64⟩] ++
          [⟨metadata, metadata + metadataLength 0x8000#64⟩], ¬ Reserves 0xffffffc080000000#64 r j) ∧
      ∀ b ∈ freeBlocks started, ∀ c ∈ freeBlocks started, j ∈ span b → j ∈ span c → b = c :=
  startup_frees_unreserved (by decide) (by simp [Near])
    ⟨_, List.mem_singleton_self _, rfl⟩ (by decide)

end OscKernel.Soundness.Allocator
