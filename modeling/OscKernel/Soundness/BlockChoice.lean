import OscKernel.Soundness.Allocator

/-! # The block that `allocate` chooses

The loop over the orders compares sizes with `PAGE_SIZE << order`, which has 64 bits: from order 52
on it is zero. Every size up to `2 ^ 63` is reached before, by the least order that covers it;
beyond it no shift does.
-/

namespace OscKernel.Soundness.Allocator

open OscKernel.Lib OscKernel.Model OscKernel.Model.Allocator

/-! ## Orders and pools -/

section Sizes

variable {size : ℕ}

/-- The least order whose blocks cover the size. -/
private theorem orderFor_least (small : size ≤ 2 ^ 63) :
    ∃ order, orderFor size = some order ∧ IsLeast {k | size ≤ 4096 * 2 ^ k} order := by
  have general : ∀ shifts order, order + shifts = 64 → order ≤ 51 →
      (∀ k < order, 4096 * 2 ^ k < size) →
      ∃ k, orderLoop size order shifts = some k ∧ IsLeast {k | size ≤ 4096 * 2 ^ k} k := by
    intro shifts
    induction shifts with
    | zero =>
      intro order sum bound
      omega
    | succ shifts ih =>
      intro order sum bound below
      have power : 2 ^ order ≤ 2 ^ 51 := Nat.pow_le_pow_right (by decide) bound
      have exact : 4096 * 2 ^ order % 2 ^ 64 = 4096 * 2 ^ order := Nat.mod_eq_of_lt (by omega)
      rw [orderLoop, exact]
      split
      · rename_i tooSmall
        have notLast : order ≠ 51 := by
          rintro rfl
          omega
        refine ih (order + 1) (by omega) (by omega) fun k less => ?_
        rcases Nat.lt_succ_iff_lt_or_eq.mp less with before | rfl
        · exact below k before
        · exact tooSmall
      · rename_i enough
        refine ⟨order, rfl, not_lt.mp enough, fun k covers => ?_⟩
        by_contra less
        exact absurd covers (not_le.mpr (below k (not_le.mp less)))
  exact general 64 0 rfl (by decide) fun k none => absurd none (Nat.not_lt_zero k)

/-- No shifted page size reaches a size beyond `2 ^ 63`. -/
private theorem orderFor_none (large : 2 ^ 63 < size) : orderFor size = none := by
  have shifted : ∀ order, 4096 * 2 ^ order % 2 ^ 64 ≤ 2 ^ 63 := by
    intro order
    rcases Nat.lt_or_ge order 52 with low | high
    · have power : 2 ^ order ≤ 2 ^ 51 := Nat.pow_le_pow_right (by decide) (by omega)
      rw [Nat.mod_eq_of_lt (by omega)]
      omega
    · obtain ⟨rest, rfl⟩ := Nat.exists_eq_add_of_le high
      have zero : 4096 * 2 ^ (52 + rest) % 2 ^ 64 = 0 := by
        rw [Nat.pow_add, ← Nat.mul_assoc]
        exact Nat.mul_mod_right _ _
      omega
  have general : ∀ shifts order, orderLoop size order shifts = none := by
    intro shifts
    induction shifts with
    | zero => exact fun _ => rfl
    | succ shifts ih =>
      intro order
      rw [orderLoop, if_pos (lt_of_le_of_lt (shifted order) large), ih]
  exact general 64 0

/-- The pool of the least chunk size that covers the size. -/
theorem poolFor_least (small : size ≤ 2048) :
    ∃ pool < 8, poolFor size = some pool ∧
      IsLeast {chunk | chunk ∈ poolSizes ∧ size ≤ chunk} (chunkSize pool) := by
  obtain ⟨pool, valid, found, covers⟩ := poolFor_spec small
  obtain ⟨inside, -, before⟩ := List.findIdx?_eq_some_iff_getElem.mp found
  have member : chunkSize pool ∈ poolSizes := by
    rw [chunkSize, List.getD_eq_getElem _ _ inside]
    exact List.getElem_mem inside
  refine ⟨pool, valid, found, ⟨member, covers⟩, ?_⟩
  rintro chunk ⟨listed, enough⟩
  obtain ⟨i, bound, rfl⟩ := List.mem_iff_getElem.mp listed
  have notBefore : pool ≤ i := by
    by_contra less
    have short := before i (not_le.mp less)
    simp only [decide_eq_true_eq] at short
    exact short enough
  have sorted : poolSizes.Pairwise (· ≤ ·) := by decide
  rw [chunkSize, List.getD_eq_getElem _ _ inside]
  rcases Nat.eq_or_lt_of_le notBefore with rfl | later
  · exact le_rfl
  · exact List.pairwise_iff_getElem.mp sorted pool i inside bound later

end Sizes

/-! ## The search for a block -/

section Blocks

variable {a : Allocator}

private theorem buddyAlloc_eq_none_iff (a : Allocator) (order : ℕ) :
    (a.buddyAlloc order).1 = none ↔ ∀ i, order ≤ i → i ≤ maxOrder → a.freelists i = [] := by
  have general : ∀ orders : List ℕ, (a.buddyAllocLoop order orders).1 = none ↔
      ∀ i ∈ orders, a.freelists i = [] := by
    intro orders
    induction orders with
    | nil => exact iff_of_true rfl nofun
    | cons i rest ih =>
      rw [buddyAllocLoop, List.forall_mem_cons]
      cases free : a.freelists i with
      | nil => exact ih.trans (and_iff_right rfl).symm
      | cons idx tail =>
        exact iff_of_false (Option.some_ne_none _) fun both => List.cons_ne_nil idx tail both.1
  rw [buddyAlloc, general]
  constructor
  · intro empty i low high
    exact empty i (List.mem_range'_1.mpr (by omega))
  · intro empty i member
    have bounds := List.mem_range'_1.mp member
    exact empty i (by omega) (by omega)

/-- A free block of an order, wherever it is. -/
def HasFreeBlock (a : Allocator) (order : ℕ) : Prop :=
  ∃ idx < a.totalPages, a.frameArray idx = ⟨order, frameFree⟩

private theorem hasFreeBlock_iff (wellFormed : WellFormed a) (order : ℕ) :
    HasFreeBlock a order ↔ a.freelists order ≠ [] := by
  constructor
  · rintro ⟨idx, bound, frame⟩
    exact List.ne_nil_of_mem ((wellFormed.listed order idx).mpr ⟨bound, frame⟩)
  · intro nonempty
    obtain ⟨idx, member⟩ := List.exists_mem_of_ne_nil _ nonempty
    exact ⟨idx, (wellFormed.listed order idx).mp member⟩

theorem buddyAlloc_null_iff (wellFormed : WellFormed a) (order : ℕ) :
    (a.buddyAlloc order).1 = none ↔ ¬ ∃ k, order ≤ k ∧ k ≤ maxOrder ∧ HasFreeBlock a k := by
  rw [buddyAlloc_eq_none_iff]
  simp only [hasFreeBlock_iff wellFormed, not_exists, not_and, not_not]

/-- Without a free block of any order there is no free page. -/
private theorem freePages_eq_empty_iff (wellFormed : WellFormed a) :
    freePages a = ∅ ↔ ∀ k ≤ maxOrder, ¬ HasFreeBlock a k := by
  rw [Set.eq_empty_iff_forall_notMem]
  constructor
  · rintro none k - ⟨idx, bound, frame⟩
    have listed := (wellFormed.listed k idx).mpr ⟨bound, frame⟩
    exact none idx (mem_freePages.mpr ⟨k, idx, listed, start_mem_span (idx, k)⟩)
  · intro none page free
    obtain ⟨k, idx, listed, -⟩ := mem_freePages.mp free
    obtain ⟨bound, frame⟩ := (wellFormed.listed k idx).mp listed
    have head : (a.frameArray idx).status ≠ frameBuddy := by
      rw [frame]
      exact (by decide : frameFree ≠ frameBuddy)
    exact none k (wellFormed.block bound (congrArg Frame.order frame) head).1 ⟨idx, bound, frame⟩

theorem takeChunk_pointer {pool : ℕ} {outcome : Option ℕ × Allocator}
    (taken : a.takeChunk pool = some outcome) :
    outcome.1 ≠ none := by
  rw [Allocator.takeChunk] at taken
  cases chunks : a.poolFreeList pool with
  | nil =>
    rw [chunks] at taken
    exact absurd taken (Option.some_ne_none outcome).symm
  | cons node rest =>
    rw [chunks] at taken
    obtain rfl := Option.some.inj taken
    exact Option.some_ne_none node

end Blocks

/-! ## The choice -/

/-- For more than 2048 bytes `allocate` asks for the least order that covers them, and otherwise it
serves the least chunk; it returns null only where there is none. -/
structure Chooses (a : Allocator) (size : ℕ) (outcome : Option ℕ × Allocator) : Prop where
  block : 2048 < size → ∃ order, IsLeast {k | size ≤ 4096 * 2 ^ k} order ∧
    outcome = a.buddyAlloc order ∧
    (outcome.1 = none ↔ ¬ ∃ k, order ≤ k ∧ k ≤ maxOrder ∧ HasFreeBlock a k) ∧
    ∀ ptr, outcome.1 = some ptr → LiveCell outcome.2 ptr (4096 * 2 ^ order)
  chunk : size ≤ 2048 →
    ∃ pool < 8, IsLeast {chunk | chunk ∈ poolSizes ∧ size ≤ chunk} (chunkSize pool) ∧
    (outcome.1 = none ↔ a.poolFreeList pool = [] ∧ freePages a = ∅) ∧
    ∀ ptr, outcome.1 = some ptr → LiveCell outcome.2 ptr (chunkSize pool)

section Choice

variable {started a : Allocator} {live : List (ℕ × ℕ)} {size : ℕ}

/-- What is served is a cell of the length for the size. -/
theorem Served.cell {outcome : Option ℕ × Allocator} (served : Served started a live size outcome)
    {ptr : ℕ} (returned : outcome.1 = some ptr) : LiveCell outcome.2 ptr (extent size) := by
  cases served with
  | null => exact absurd returned.symm (Option.some_ne_none ptr)
  | @pointer ptr' a' sound =>
    obtain rfl := Option.some.inj returned
    exact sound.cells (ptr', size) List.mem_cons_self

theorem Sound.chooses (sound : Sound started a live) (small : size ≤ 2 ^ 63) :
    ∃ outcome, a.allocate size = some outcome ∧ Chooses a size outcome := by
  obtain ⟨outcome, returned, served⟩ := sound.allocate small
  refine ⟨outcome, returned, fun large => ?_, fun notLarge => ?_⟩
  · obtain ⟨order, found, least⟩ := orderFor_least small
    have length : extent size = 4096 * 2 ^ order := by simp [extent, large, found]
    rw [Allocator.allocate, if_pos large, found, Option.map_some] at returned
    obtain rfl := Option.some.inj returned
    refine ⟨order, least, rfl, buddyAlloc_null_iff sound.wellFormed order, fun ptr given => ?_⟩
    exact length ▸ served.cell given
  · obtain ⟨pool, valid, found, least⟩ := poolFor_least notLarge
    have length : extent size = chunkSize pool := by simp [extent, not_lt.mpr notLarge, found]
    refine ⟨pool, valid, least, ?_, fun ptr given => length ▸ served.cell given⟩
    rw [Allocator.allocate, if_neg (not_lt.mpr notLarge), found] at returned
    simp only at returned
    have pages : freePages a = ∅ ↔ (a.buddyAlloc 0).1 = none := by
      rw [freePages_eq_empty_iff sound.wellFormed, buddyAlloc_null_iff sound.wellFormed]
      simp only [Nat.zero_le, true_and, not_exists, not_and]
    rw [pages]
    split at returned
    · rename_i empty
      rw [and_iff_right empty]
      generalize a.buddyAlloc 0 = searched at returned
      obtain ⟨result, taken⟩ := searched
      cases result with
      | none =>
        obtain rfl := Option.some.inj returned
        exact iff_of_true rfl rfl
      | some page => exact iff_of_false (takeChunk_pointer returned) (Option.some_ne_none page)
    · rename_i nonempty
      exact iff_of_false (takeChunk_pointer returned) fun both => nonempty both.1

theorem allocate_none (large : 2 ^ 63 < size) : a.allocate size = none := by
  rw [Allocator.allocate, if_pos (by omega), orderFor_none large, Option.map_none]

/-- In every state that keeps the invariants, `allocate` chooses rightly for the sizes up to
`2 ^ 63` and for no other: beyond it, no shift of the page size by less than 64 covers the size. -/
theorem allocate_chooses_iff (sound : Sound started a live) :
    (∃ outcome, a.allocate size = some outcome ∧ Chooses a size outcome) ↔ size ≤ 2 ^ 63 := by
  refine ⟨?_, sound.chooses⟩
  rintro ⟨outcome, returned, -⟩
  by_contra large
  rw [allocate_none (not_le.mp large)] at returned
  exact absurd returned (Option.some_ne_none outcome).symm

/-- The eight pages after startup serve the least chunk for a hundred bytes. -/
theorem allocate_chooses_eightPages :
    ∃ started, startupAllocator 0xffffffc080000000#64 0x8000#64 0xffffffc080000f00#64
      [⟨0xffffffc080000000#64, 0xffffffc080000f00#64⟩] 4 = some started ∧
    ∃ outcome, started.mallocInit.allocate 100 = some outcome ∧
      Chooses started.mallocInit 100 outcome := by
  have result : (startupAllocator 0xffffffc080000000#64 0x8000#64 0xffffffc080000f00#64
      [⟨0xffffffc080000000#64, 0xffffffc080000f00#64⟩] 4).isSome := by decide +kernel
  obtain ⟨started, boot⟩ := Option.isSome_iff_exists.mp result
  have sound := sound_mallocInit ⟨by decide, by decide⟩ boot
  exact ⟨started, boot, (allocate_chooses_iff sound).mpr (by decide)⟩

/-- For one byte more than `2 ^ 63` the loop does not end before the shift by 64. -/
theorem half_space_unserved :
    ∃ started, startupAllocator 0xffffffc080000000#64 0x8000#64 0xffffffc080000f00#64
      [⟨0xffffffc080000000#64, 0xffffffc080000f00#64⟩] 4 = some started ∧
    Sound started started.mallocInit [] ∧ started.mallocInit.allocate (2 ^ 63 + 1) = none := by
  have result : (startupAllocator 0xffffffc080000000#64 0x8000#64 0xffffffc080000f00#64
      [⟨0xffffffc080000000#64, 0xffffffc080000f00#64⟩] 4).isSome := by decide +kernel
  obtain ⟨started, boot⟩ := Option.isSome_iff_exists.mp result
  exact ⟨started, boot, sound_mallocInit ⟨by decide, by decide⟩ boot, allocate_none (by decide)⟩

end Choice

end OscKernel.Soundness.Allocator
