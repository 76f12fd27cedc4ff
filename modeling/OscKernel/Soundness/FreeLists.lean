import OscKernel.Soundness.BuddyBlocks

/-! # The free lists are canonical

The free blocks and their orders are a family of dyadic blocks. `buddy_free` merges before it files
a block and `buddy_alloc` files only halves whose other half is in hand, so two free buddies never
lie side by side (`Merged`). The pages of the block in hand and the free pages together stay the
same through both loops, and a canonical family is determined by its pages.
-/

namespace OscKernel.Soundness.Allocator

open OscKernel.Lib OscKernel.Model OscKernel.Model.Allocator

/-- The free blocks, each with its order. -/
def freeBlocks (a : Allocator) : Set (ℕ × ℕ) := {b | b.1 ∈ a.freelists b.2}

/-- The pages of the free blocks. -/
def freePages (a : Allocator) : Set ℕ := ⋃ b ∈ freeBlocks a, span b

/-- No two free buddies lie side by side below the largest order. -/
def Merged (a : Allocator) : Prop := ∀ k < maxOrder, ∀ i ∈ a.freelists k, buddy i k ∉ a.freelists k

theorem mem_freePages {a : Allocator} {j : ℕ} :
    j ∈ freePages a ↔ ∃ k, ∃ i ∈ a.freelists k, j ∈ span (i, k) := by
  simp only [freePages, Set.mem_iUnion₂]
  constructor
  · rintro ⟨b, member, inside⟩
    exact ⟨b.2, b.1, member, inside⟩
  · rintro ⟨k, i, member, inside⟩
    exact ⟨(i, k), member, inside⟩

/-! ## Both invariants give a canonical family -/

theorem WellFormed.heads_of_free {a : Allocator} (wellFormed : WellFormed a) {i k : ℕ}
    (member : i ∈ a.freelists k) : Heads a i k ∧ (a.frameArray i).status ≠ frameBuddy := by
  obtain ⟨bound, frame⟩ := (wellFormed.listed k i).mp member
  have head : (a.frameArray i).status ≠ frameBuddy := by simp [frame, frameFree, frameBuddy]
  exact ⟨wellFormed.block bound (by rw [frame]) head, head⟩

/-- The pages of two heads are disjoint. -/
theorem span_disjoint {a : Allocator} {i j k l : ℕ} (first : Heads a i k) (second : Heads a j l)
    (firstHead : (a.frameArray i).status ≠ frameBuddy)
    (secondHead : (a.frameArray j).status ≠ frameBuddy) (different : i ≠ j) :
    Disjoint (span (i, k)) (span (j, l)) := by
  apply Set.disjoint_left.mpr
  intro page inFirst inSecond
  simp only [mem_span] at inFirst inSecond
  have apart := heads_disjoint first second firstHead secondHead different
  omega

theorem WellFormed.canonical {a : Allocator} (wellFormed : WellFormed a) (merged : Merged a) :
    Canonical maxOrder (freeBlocks a) where
  bounded b member := (wellFormed.heads_of_free member).1.1
  aligned b member := (wellFormed.heads_of_free member).1.2.1
  disjoint b first c second different := by
    obtain ⟨headsB, headB⟩ := wellFormed.heads_of_free first
    obtain ⟨headsC, headC⟩ := wellFormed.heads_of_free second
    apply span_disjoint headsB headsC headB headC
    intro same
    -- a frame is free with one order only
    have frameB := ((wellFormed.listed b.2 b.1).mp first).2
    have frameC := ((wellFormed.listed c.2 c.1).mp second).2
    rw [same, frameC] at frameB
    have orders := Int.ofNat.inj (congrArg Frame.order frameB)
    exact different (Prod.ext same orders.symm)
  merged i k small member := merged k small i member

/-- A block that is not free has no free page. -/
theorem WellFormed.span_not_free {a : Allocator} (wellFormed : WellFormed a) {i k : ℕ}
    (heads : Heads a i k) (head : (a.frameArray i).status ≠ frameBuddy)
    (busy : (a.frameArray i).status ≠ frameFree) :
    Disjoint (span (i, k)) (freePages a) := by
  apply Set.disjoint_left.mpr
  intro page inside free
  obtain ⟨l, j, member, covered⟩ := mem_freePages.mp free
  obtain ⟨headsFree, headFree⟩ := wellFormed.heads_of_free member
  have different : i ≠ j := by
    rintro rfl
    exact busy (by rw [((wellFormed.listed l i).mp member).2])
  exact Set.disjoint_left.mp (span_disjoint heads headsFree head headFree different) inside covered

/-! ## Filing and taking a block -/

section Moves

variable {a : Allocator} {idx k : ℕ}

theorem mem_freelists_pushFree {i l : ℕ} :
    i ∈ (a.pushFree idx k).freelists l ↔ (i = idx ∧ l = k) ∨ i ∈ a.freelists l := by
  change i ∈ Function.update a.freelists k (idx :: a.freelists k) l ↔ _
  rcases eq_or_ne l k with rfl | other
  · simp
  · simp [other]

theorem mem_of_mem_unlink {i l : ℕ} (member : i ∈ (a.unlink idx k).freelists l) :
    i ∈ a.freelists l := by
  change i ∈ Function.update a.freelists k ((a.freelists k).erase idx) l at member
  rcases eq_or_ne l k with rfl | other
  · rw [Function.update_self] at member
    exact List.mem_of_mem_erase member
  · rwa [Function.update_of_ne other] at member

private theorem mem_unlink (a : Allocator) (idx k : ℕ) {i l : ℕ} (member : i ∈ a.freelists l) :
    (i = idx ∧ l = k) ∨ i ∈ (a.unlink idx k).freelists l := by
  change _ ∨ i ∈ Function.update a.freelists k ((a.freelists k).erase idx) l
  rcases eq_or_ne l k with rfl | other
  · rcases eq_or_ne i idx with rfl | different
    · exact .inl ⟨rfl, rfl⟩
    · right
      rw [Function.update_self]
      exact (List.mem_erase_of_ne different).mpr member
  · right
    rwa [Function.update_of_ne other]

theorem freePages_pushFree : freePages (a.pushFree idx k) = span (idx, k) ∪ freePages a := by
  ext j
  simp only [Set.mem_union, mem_freePages, mem_freelists_pushFree]
  constructor
  · rintro ⟨l, i, ⟨rfl, rfl⟩ | member, inside⟩
    · exact .inl inside
    · exact .inr ⟨l, i, member, inside⟩
  · rintro (inside | ⟨l, i, member, inside⟩)
    · exact ⟨k, idx, .inl ⟨rfl, rfl⟩, inside⟩
    · exact ⟨l, i, .inr member, inside⟩

theorem freePages_unlink (free : idx ∈ a.freelists k) :
    span (idx, k) ∪ freePages (a.unlink idx k) = freePages a := by
  ext j
  simp only [Set.mem_union, mem_freePages]
  constructor
  · rintro (inside | ⟨l, i, member, inside⟩)
    · exact ⟨k, idx, free, inside⟩
    · exact ⟨l, i, mem_of_mem_unlink member, inside⟩
  · rintro ⟨l, i, member, inside⟩
    rcases mem_unlink a idx k member with ⟨rfl, rfl⟩ | left
    · exact .inl inside
    · exact .inr ⟨l, i, left, inside⟩

@[simp] theorem freePages_setFrame (f : Frame) : freePages (a.setFrame idx f) = freePages a := rfl

theorem Merged.setFrame (merged : Merged a) (f : Frame) : Merged (a.setFrame idx f) := merged

theorem Merged.unlink (merged : Merged a) : Merged (a.unlink idx k) :=
  fun l small i member other =>
    merged l small i (mem_of_mem_unlink member) (mem_of_mem_unlink other)

/-- A block whose buddy is not free may be filed. -/
theorem Merged.pushFree (merged : Merged a) (alone : k < maxOrder → buddy idx k ∉ a.freelists k) :
    Merged (a.pushFree idx k) := by
  intro l small i member other
  rw [mem_freelists_pushFree] at member other
  rcases member with ⟨rfl, rfl⟩ | member
  · rcases other with ⟨same, -⟩ | other
    · exact buddy_ne i l same
    · exact alone small other
  · rcases other with ⟨same, rfl⟩ | other
    · apply alone small
      rwa [← same, buddy_buddy]
    · exact merged l small i member other

end Moves

/-- The block in hand is on no list. -/
theorem Holding.absent {a : Allocator} {idx k : ℕ} (holding : Holding a idx k) (l : ℕ) :
    idx ∉ a.freelists l := by
  intro member
  have listed := ((holding.2.listed l idx).mp member).2
  rw [setFrame_frame_self] at listed
  simp [frameAlloc, frameFree] at listed

theorem Holding.aligned {a : Allocator} {idx k : ℕ} (holding : Holding a idx k) : 2 ^ k ∣ idx :=
  (holding.2.block holding.1 (by rw [setFrame_frame_self]) (by simp [frameAlloc, frameBuddy])).2.1

/-! ## The loops -/

private theorem splitLoop_merged {a : Allocator} {idx order levels : ℕ}
    (holding : Holding a idx (order + levels)) (merged : Merged a) :
    Merged (splitLoop a idx order levels) ∧
      span (idx, order) ∪ freePages (splitLoop a idx order levels) =
        span (idx, order + levels) ∪ freePages a := by
  induction levels generalizing a with
  | zero => exact ⟨merged, rfl⟩
  | succ levels ih =>
    obtain ⟨-, next⟩ := Holding.split (k := order + levels) holding
    -- the buddy of the upper half is the block in hand
    have aligned : 2 ^ (order + levels + 1) ∣ idx := holding.aligned
    have lower : buddy (idx + 2 ^ (order + levels)) (order + levels) = idx := by
      rw [← buddy_of_lower aligned, buddy_buddy]
    have alone : buddy (idx + 2 ^ (order + levels)) (order + levels) ∉
        a.freelists (order + levels) := by
      rw [lower]
      exact holding.absent _
    obtain ⟨mergedLast, pages⟩ := ih next (merged.pushFree fun _ => alone)
    refine ⟨mergedLast, ?_⟩
    rw [splitLoop, pages, freePages_pushFree, ← add_assoc, span_succ, Set.union_assoc]

private theorem mergeLoop_merged {a : Allocator} {idx order levels : ℕ}
    (holding : Holding a idx order) (hidden : a.frameArray idx = ⟨-1, frameBuddy⟩)
    (remaining : order + levels = maxOrder) (merged : Merged a) :
    let result := mergeLoop a idx order levels
    Merged result.1 ∧
    (result.2.2 < maxOrder → buddy result.2.1 result.2.2 ∉ result.1.freelists result.2.2) ∧
      span (result.2.1, result.2.2) ∪ freePages result.1 = span (idx, order) ∪ freePages a := by
  induction levels generalizing a idx order with
  | zero => exact ⟨merged, fun small => absurd small (by simp [mergeLoop, ← remaining]), rfl⟩
  | succ levels ih =>
    -- a buddy on a list is a free frame other than the one in hand
    have listed : buddy idx order ∈ a.freelists order →
        buddy idx order < a.totalPages ∧ a.frameArray (buddy idx order) = ⟨order, frameFree⟩ := by
      intro member
      have free := (holding.2.listed order _).mp member
      rwa [setFrame_frame_of_ne _ _ _ _ (buddy_ne idx order)] at free
    rw [mergeLoop]
    simp only
    split
    · rename_i outside
      exact ⟨merged, fun _ member => absurd (listed member).1 (not_lt.mpr outside), rfl⟩
    rename_i inRam
    split
    · rename_i mergeable
      have free : a.frameArray (buddy idx order) = ⟨order, frameFree⟩ := by
        obtain ⟨status, sameOrder⟩ := mergeable
        rw [← status, ← sameOrder]
      obtain ⟨held, hiddenNext, -⟩ := holding.merge hidden (by omega) (not_le.mp inRam) free
      obtain ⟨mergedLast, alone, pages⟩ :=
        ih held hiddenNext (by omega) (Merged.setFrame merged.unlink _)
      refine ⟨mergedLast, alone, pages.trans ?_⟩
      have member : buddy idx order ∈ a.freelists order := by
        apply (holding.2.listed order _).mpr
        rw [setFrame_frame_of_ne _ _ _ _ (buddy_ne idx order)]
        exact ⟨not_le.mp inRam, free⟩
      -- the two halves are the block in hand and the buddy that left its list
      have halves : span (if buddy idx order < idx then buddy idx order else idx, order + 1) =
          span (idx, order) ∪ span (buddy idx order, order) := by
        have positive := Nat.two_pow_pos order
        rcases buddy_cases holding.aligned with ⟨-, upper⟩ | ⟨-, lower⟩
        · rw [if_neg (by omega), span_succ, upper]
        · rw [if_pos (by omega), span_succ, ← lower, Set.union_comm]
      rw [halves, freePages_setFrame, Set.union_assoc, freePages_unlink member]
    · rename_i kept
      refine ⟨merged, fun _ member => kept ?_, rfl⟩
      rw [(listed member).2]
      exact ⟨rfl, rfl⟩

/-! ## The two calls -/

/-- Freeing a block adds its pages. -/
theorem buddyFree_merged {a a' : Allocator} (wellFormed : WellFormed a) (merged : Merged a)
    {ptr idx order : ℕ} (index : a.frameIndex ptr = idx) (bound : idx < a.totalPages)
    (frame : a.frameArray idx = ⟨order, frameAlloc⟩) (freed : a.buddyFree ptr = some a') :
    Merged a' ∧ freePages a' = span (idx, order) ∪ freePages a := by
  have head : (a.frameArray idx).status ≠ frameBuddy := by simp [frame, frameAlloc, frameBuddy]
  have small : order ≤ maxOrder := (wellFormed.block bound (by rw [frame]) head).1
  have inHand : Holding (a.setFrame idx ⟨-1, frameBuddy⟩) idx order := by
    refine ⟨bound, ?_⟩
    rw [setFrame_setFrame, setFrame_eq_self _ _ _ frame]
    exact wellFormed
  obtain ⟨mergedLast, alone, pages⟩ := mergeLoop_merged inHand (setFrame_frame_self _ _ _)
    (Nat.add_sub_cancel' small) (Merged.setFrame merged _)
  rw [buddyFree, index] at freed
  simp only [frame, Int.toNat_natCast] at freed
  rw [if_neg (not_lt.mpr (Int.natCast_nonneg order))] at freed
  obtain rfl := Option.some.inj freed
  refine ⟨mergedLast.pushFree alone, ?_⟩
  rw [freePages_pushFree, pages, freePages_setFrame]

/-- What a successful `buddy_alloc` returns: an allocated block whose pages have left the free
ones. -/
structure Taken (a a' : Allocator) (idx order : ℕ) : Prop where
  bound : idx < a.totalPages
  frame : a'.frameArray idx = ⟨order, frameAlloc⟩
  fresh : ¬ Settled (a.frameArray idx)
  calm : ∃ b, Calm a b ∧ a' = b.setFrame idx ⟨order, frameAlloc⟩
  wellFormed : WellFormed a'
  merged : Merged a'
  pages : span (idx, order) ∪ freePages a' = freePages a

theorem buddyAlloc_merged {a : Allocator} (wellFormed : WellFormed a)
    (merged : Merged a) (order : ℕ) :
    a.buddyAlloc order = (none, a) ∨
      ∃ idx a', a.buddyAlloc order = (some (a.frameAddr idx), a') ∧ Taken a a' idx order := by
  obtain failed | ⟨levels, idx, member, result⟩ := buddyAlloc_cases a order
  · exact .inl failed
  · right
    obtain ⟨bound, frame⟩ := (wellFormed.listed _ idx).mp member
    obtain ⟨holding, calm⟩ := splitLoop_spec (wellFormed.take member)
    obtain ⟨mergedSplit, pages⟩ := splitLoop_merged (wellFormed.take member) merged.unlink
    refine ⟨idx, _, result, bound, setFrame_frame_self _ _ _, frame ▸ not_settled_free _,
      ⟨_, (Calm.unlink a idx _).trans calm, rfl⟩, holding.2, mergedSplit.setFrame _, ?_⟩
    rw [freePages_setFrame, pages, freePages_unlink member]

theorem settled_alloc (order : ℤ) : Settled ⟨order, frameAlloc⟩ := by
  simp [Settled, frameAlloc, frameFree, frameBuddy]

/-- A block in use keeps its frame when another block is taken. -/
theorem Taken.kept {a a' : Allocator} {idx order : ℕ} (taken : Taken a a' idx order) {j : ℕ}
    (settled : Settled (a.frameArray j)) : j ≠ idx ∧ a'.frameArray j = a.frameArray j := by
  have other : j ≠ idx := fun same => taken.fresh (same ▸ settled)
  obtain ⟨b, calm, rfl⟩ := taken.calm
  exact ⟨other, (setFrame_frame_of_ne _ _ _ _ other).trans (calm.kept j (.inl settled))⟩

theorem Taken.fields {a a' : Allocator} {idx order : ℕ} (taken : Taken a a' idx order) :
    a'.baseAddr = a.baseAddr ∧ a'.totalPages = a.totalPages := by
  obtain ⟨b, calm, rfl⟩ := taken.calm
  exact ⟨calm.baseAddr, calm.totalPages⟩

theorem frameIndex_congr {a a' : Allocator} (base : a'.baseAddr = a.baseAddr) (ptr : ℕ) :
    a'.frameIndex ptr = a.frameIndex ptr := by
  rw [frameIndex, base, frameIndex]

theorem frameAddr_congr {a a' : Allocator} (base : a'.baseAddr = a.baseAddr) (idx : ℕ) :
    a'.frameAddr idx = a.frameAddr idx := by
  rw [frameAddr, base, frameAddr]

end OscKernel.Soundness.Allocator
