import Mathlib.Order.CompletePartialOrder
import Mathlib.Order.Interval.Set.Disjoint
import OscKernel.Soundness.Startup

/-! # The place of the frame array

The search jumps from a region that the array meets behind that region's end. Every aligned address
in between meets the same region, so no place is skipped, and no region is met twice.
-/

namespace OscKernel.Soundness.MetadataPlacement

open OscKernel.Lib OscKernel.Model OscKernel.Soundness.Allocator

/-! ## Meeting a region -/

/-- An array of this length at an address meets the region; an empty one does inside of the
region. -/
def Meets (length : ℕ) (r : ReservedRegion) (x : ℕ) : Prop :=
  r.start.toNat < x + length ∧ x < r.stop.toNat

/-- The test of the search, with the end of the array cut to 64 bits. -/
def overlaps (length start : Word) (r : ReservedRegion) : Bool :=
  !(decide (start + length ≤ r.start) || decide (start ≥ r.stop))

theorem overlaps_iff {length start : Word}
    (fits : start.toNat + length.toNat < 2 ^ 64) (r : ReservedRegion) :
    overlaps length start r ↔ Meets length.toNat r start.toNat := by
  have sum : (start + length).toNat = start.toNat + length.toNat := by
    rw [BitVec.toNat_add, Nat.mod_eq_of_lt fits]
  rw [overlaps, Meets]
  simp only [ge_iff_le, Bool.not_or, Bool.and_eq_true, Bool.not_eq_true', decide_eq_false_iff_not,
    BitVec.le_def, sum, not_le]

private theorem disjoint_iff {length x : ℕ} {r : ReservedRegion} (positive : 0 < length)
    (proper : r.start.toNat < r.stop.toNat) :
    Disjoint (Set.Ico x (x + length)) (Set.Ico r.start.toNat r.stop.toNat) ↔
    ¬ Meets length r x := by
  rw [Set.Ico_disjoint_Ico, Meets]
  omega

/-- Up to the end of a region that is met, rounded up to a page, there is no aligned address that
does not meet it. -/
private theorem meets_until {length x y : ℕ} {r : ReservedRegion} (meets : Meets length r x)
    (behind : x ≤ y) (aligned : 4096 ∣ y) (before : y < (r.stop.toNat + 4095) / 4096 * 4096) :
    Meets length r y := by
  obtain ⟨page, rfl⟩ := aligned
  have low := meets.1
  constructor
  · omega
  · omega

theorem toNat_rounded {w : Word} (fits : w.toNat + 4095 < 2 ^ 64) :
    (metadataStart w).toNat = (w.toNat + 4095) / 4096 * 4096 := by
  rw [toNat_metadataStart, Nat.mod_eq_of_lt fits]

/-! ## The search -/

section Search

variable {regions : List ReservedRegion} {length start : Word}

/-- The search comes from one address to another. -/
inductive Reaches (regions : List ReservedRegion) (length : Word) : Word → Word → Prop
  | here (start : Word) : Reaches regions length start start
  | jump {start x : Word} {r : ReservedRegion}
      (met : regions.find? (overlaps length start) = some r)
      (behind : Reaches regions length (metadataStart r.stop) x) : Reaches regions length start x

/-- No address that the search computes from here on reaches 2 ^ 64. -/
structure Fits (regions : List ReservedRegion) (length start : Word) : Prop where
  array : ∀ x, Reaches regions length start x → x.toNat + length.toNat < 2 ^ 64
  region : ∀ x r, Reaches regions length start x → regions.find? (overlaps length x) = some r →
    r.stop.toNat + 4095 < 2 ^ 64

theorem Fits.jump {r : ReservedRegion} (fits : Fits regions length start)
    (met : regions.find? (overlaps length start) = some r) :
    Fits regions length (metadataStart r.stop) :=
  ⟨fun x reached => fits.array x (.jump met reached),
    fun x next reached => fits.region x next (.jump met reached)⟩

/-- Regions that the search can still meet. -/
def ahead (regions : List ReservedRegion) (start : Word) : ℕ :=
  regions.countP fun r => decide (start.toNat < r.stop.toNat)

/-- A jump goes forward over aligned addresses that all meet a region, and leaves the region
behind. -/
private theorem jump_step {r : ReservedRegion} (fits : Fits regions length start)
    (met : regions.find? (overlaps length start) = some r) :
    start.toNat < (metadataStart r.stop).toNat ∧ 4096 ∣ (metadataStart r.stop).toNat ∧
    (∀ y, start.toNat ≤ y → 4096 ∣ y → y < (metadataStart r.stop).toNat →
      ∃ r ∈ regions, Meets length.toNat r y) ∧
    ahead regions (metadataStart r.stop) < ahead regions start := by
  have member := List.mem_of_find?_eq_some met
  have meets := (overlaps_iff (fits.array start (.here start)) r).mp (List.find?_some met)
  have next := toNat_rounded (fits.region start r (.here start) met)
  have behind := meets.2
  refine ⟨by omega, next ▸ Nat.dvd_mul_left _ _, fun y low aligned high => ⟨r, member, ?_⟩, ?_⟩
  · exact meets_until meets low aligned (next ▸ high)
  · exact countP_lt_countP (fun other => by simp only [decide_eq_true_eq]; omega)
      member (decide_eq_true behind)
      (decide_eq_false (by omega))

theorem placeMetadata_succ (regions : List ReservedRegion) (length : Word)
    (fuel : ℕ) (start : Word) :
    placeMetadata regions length (fuel + 1) start = match regions.find? (overlaps length start) with
      | some r => placeMetadata regions length fuel (metadataStart r.stop)
      | none => some start := rfl

/-- What the search returns. -/
structure Placed (regions : List ReservedRegion) (length start metadata : Word) : Prop where
  behind : start.toNat ≤ metadata.toNat
  aligned : 4096 ∣ metadata.toNat
  free : ∀ r ∈ regions, ¬ Meets length.toNat r metadata.toNat
  skipped : ∀ y, start.toNat ≤ y → 4096 ∣ y → y < metadata.toNat →
    ∃ r ∈ regions, Meets length.toNat r y

/-- The search ends, since each region is left behind once, and has skipped nothing. -/
private theorem placeMetadata_placed (fits : Fits regions length start)
    (aligned : 4096 ∣ start.toNat) :
    ∃ metadata,
      (∀ fuel > ahead regions start, placeMetadata regions length fuel start = some metadata) ∧
      Placed regions length start metadata := by
  induction rounds : ahead regions start using Nat.strong_induction_on generalizing start with
  | _ rounds ih =>
    cases met : regions.find? (overlaps length start) with
    | none =>
      refine ⟨start, fun fuel enough => ?_, le_rfl, aligned,
        fun r member meets => ?_, fun y low _ high => ?_⟩
      · obtain ⟨fuel, rfl⟩ :=
          Nat.exists_eq_add_one_of_ne_zero (Nat.ne_of_gt (Nat.zero_lt_of_lt enough))
        rw [placeMetadata_succ, met]
      · have free := List.find?_eq_none.mp met r member
        exact free ((overlaps_iff (fits.array start (.here start)) r).mpr meets)
      · omega
    | some r =>
      obtain ⟨forward, roundedAligned, between, fewer⟩ := jump_step fits met
      obtain ⟨metadata, returned, placed⟩ :=
        ih _ (rounds ▸ fewer) (fits.jump met) roundedAligned rfl
      refine ⟨metadata, fun fuel enough => ?_, forward.le.trans placed.behind,
        placed.aligned, placed.free, ?_⟩
      · obtain ⟨fuel, rfl⟩ :=
          Nat.exists_eq_add_one_of_ne_zero (Nat.ne_of_gt (Nat.zero_lt_of_lt enough))
        rw [← returned fuel (by omega), placeMetadata_succ, met]
      · intro y low aligned high
        rcases Nat.lt_or_ge y (metadataStart r.stop).toNat with early | late
        · exact between y low aligned early
        · exact placed.skipped y late aligned high

end Search

/-! ## The least place -/

/-- `total_pages * sizeof(struct frame)`. -/
def arrayLength (totalPages : BitVec 32) : Word := totalPages.setWidth 64 * sizeofFrame

private theorem toNat_arrayLength (totalPages : BitVec 32) :
    (arrayLength totalPages).toNat = totalPages.toNat * 24 := by
  have below := totalPages.isLt
  rw [arrayLength, BitVec.toNat_mul, BitVec.toNat_setWidth, show sizeofFrame.toNat = 24 from rfl]
  omega

/-- The aligned addresses from the end of the kernel on where the array meets no region. -/
def Places (kernelEnd : Word) (totalPages : BitVec 32) (regions : List ReservedRegion) : Set ℕ :=
  {x | 4096 ∣ x ∧ kernelEnd.toNat ≤ x ∧
    ∀ r ∈ regions,
    Disjoint (Set.Ico x (x + totalPages.toNat * 24)) (Set.Ico r.start.toNat r.stop.toNat)}

theorem Placed.isLeast {kernelEnd metadata : Word} {regions : List ReservedRegion} {length : Word}
    (ends : kernelEnd.toNat + 4095 < 2 ^ 64)
    (placed : Placed regions length (metadataStart kernelEnd) metadata) :
    IsLeast {x | 4096 ∣ x ∧ kernelEnd.toNat ≤ x ∧ ∀ r ∈ regions, ¬ Meets length.toNat r x}
      metadata.toNat := by
  have first := toNat_rounded ends
  have behind := placed.behind
  refine ⟨⟨placed.aligned, by omega, placed.free⟩, ?_⟩
  rintro y ⟨aligned, low, free⟩
  by_contra early
  obtain ⟨page, rfl⟩ := aligned
  obtain ⟨r, member, meets⟩ :=
    placed.skipped (4096 * page) (by omega) (Nat.dvd_mul_right _ _) (by omega)
  exact free r member meets

/-- The search ends for all regions and page counts for which no computed address reaches 2 ^ 64.
With at least one page it finds the least aligned address behind the kernel where the array meets no
region, and with none the least one that is not inside of a region. -/
theorem placement_least {kernelEnd : Word} {totalPages : BitVec 32} {regions : List ReservedRegion}
    (proper : ∀ r ∈ regions, r.start.toNat < r.stop.toNat) (ends : kernelEnd.toNat + 4095 < 2 ^ 64)
    (fits : Fits regions (arrayLength totalPages) (metadataStart kernelEnd)) :
    ∃ metadata : Word, (∀ fuel > regions.length,
        placeMetadata regions (arrayLength totalPages) fuel (metadataStart kernelEnd) =
        some metadata) ∧
      (totalPages ≠ 0#32 → IsLeast (Places kernelEnd totalPages regions) metadata.toNat) ∧
      (totalPages = 0#32 → IsLeast {x | 4096 ∣ x ∧ kernelEnd.toNat ≤ x ∧
        ∀ r ∈ regions, ¬ (r.start.toNat < x ∧ x < r.stop.toNat)} metadata.toNat) := by
  have aligned : 4096 ∣ (metadataStart kernelEnd).toNat := toNat_rounded ends ▸ Nat.dvd_mul_left _ _
  obtain ⟨metadata, returned, placed⟩ := placeMetadata_placed fits aligned
  have length := toNat_arrayLength totalPages
  have least := placed.isLeast ends
  rw [length] at least
  refine ⟨metadata,
    fun fuel enough => returned fuel (lt_of_le_of_lt List.countP_le_length enough), ?_, ?_⟩
  · intro some
    have positive : 0 < totalPages.toNat * 24 := by
      have nonzero : totalPages.toNat ≠ 0 := fun zero => some (BitVec.eq_of_toNat_eq zero)
      omega
    have same : Places kernelEnd totalPages regions = {x | 4096 ∣ x ∧ kernelEnd.toNat ≤ x ∧
        ∀ r ∈ regions, ¬ Meets (totalPages.toNat * 24) r x} := by
      ext x
      exact and_congr_right fun _ => and_congr_right fun _ => forall₂_congr fun r member =>
        disjoint_iff positive (proper r member)
    rwa [same]
  · rintro rfl
    exact least

/-- A region around the end of a kernel that ends at 4096. -/
def insideRegion : ReservedRegion := ⟨2048#64, 6144#64⟩

private theorem reaches_inside {x : Word}
    (reached : Reaches [insideRegion] (arrayLength 1#32) (metadataStart 4096#64) x) :
    x = 4096#64 ∨ x = 8192#64 := by
  cases reached with
  | here => exact .inl (by decide)
  | jump met behind =>
    have met' : [insideRegion].find? (overlaps (arrayLength 1#32) (metadataStart 4096#64)) =
        some insideRegion := rfl
    obtain rfl := Option.some.inj (met.symm.trans met')
    cases behind with
    | here => exact .inr (by decide)
    | jump again _ =>
      have ends : [insideRegion].find?
          (overlaps (arrayLength 1#32) (metadataStart insideRegion.stop)) = none := rfl
      exact absurd (again.symm.trans ends) (Option.some_ne_none _)

theorem placement_least_inside : ∃ metadata : Word,
    (∀ fuel > 1, placeMetadata [insideRegion] (arrayLength 1#32) fuel (metadataStart 4096#64) =
      some metadata) ∧
    IsLeast (Places 4096#64 1#32 [insideRegion]) metadata.toNat := by
  have fits : Fits [insideRegion] (arrayLength 1#32) (metadataStart 4096#64) := by
    constructor
    · intro x reached
      rcases reaches_inside reached with rfl | rfl
      · decide
      · decide
    · intro x r _ met
      obtain rfl := List.mem_singleton.mp (List.mem_of_find?_eq_some met)
      decide
  obtain ⟨metadata, returned, least, -⟩ := placement_least (by decide) (by decide) fits
  exact ⟨metadata, returned, least (by decide)⟩

/-- For no pages the array is empty and meets nothing, yet it is moved out of the region; and where
the end of the array is exactly 2 ^ 64 it is left in a region. -/
theorem empty_array_moved :
    (placeMetadata [insideRegion] (arrayLength 0#32) 2 (metadataStart 4096#64) = some 8192#64 ∧
      IsLeast (Places 4096#64 0#32 [insideRegion]) 4096) ∧
    placeMetadata [⟨-4096#64, -1#64⟩] (arrayLength 512#32) 1 (metadataStart (-12288#64)) =
      some (-12288#64) ∧ (-12288#64).toNat + 512 * 24 = 2 ^ 64 ∧
    (-12288#64).toNat ∉ Places (-12288#64) 512#32 [⟨-4096#64, -1#64⟩] := by
  refine ⟨⟨rfl, ⟨Nat.dvd_refl 4096, le_rfl, fun r _ => ?_⟩, fun y place => place.2.1⟩,
    rfl, by decide, fun place => ?_⟩
  · simp
  · have apart := place.2.2 _ List.mem_cons_self
    rw [Set.Ico_disjoint_Ico] at apart
    exact absurd apart (by decide)

end OscKernel.Soundness.MetadataPlacement
