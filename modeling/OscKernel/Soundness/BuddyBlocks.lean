import OscKernel.Model.Memory

/-! # The blocks of the buddy allocator

Every frame that is not the interior of a block heads one, and the blocks are dyadic and disjoint.
While a block is in hand, its frame says nothing: the invariant is then stated of the state in which
that frame heads an allocated block (`Holding`). Splitting, merging, taking a block from its list
and putting one back are four lemmas about holding; `buddyAlloc_spec` and `buddyFree_spec` follow by
induction on the loops. What these leave alone is every frame a client can rely on (`Calm`).
-/

namespace OscKernel.Soundness.Allocator

open OscKernel.Lib OscKernel.Model OscKernel.Model.Allocator

/-! ## Field lemmas -/

section Fields

variable (a : Allocator) (i j k : ℕ) (f g : Frame)

@[simp] theorem setFrame_baseAddr : (a.setFrame i f).baseAddr = a.baseAddr := rfl
@[simp] theorem setFrame_totalPages : (a.setFrame i f).totalPages = a.totalPages := rfl
@[simp] theorem setFrame_freelists : (a.setFrame i f).freelists = a.freelists := rfl
@[simp] theorem setFrame_freelistsSize : (a.setFrame i f).freelistsSize = a.freelistsSize := rfl
@[simp] theorem setFrame_frame_self : (a.setFrame i f).frameArray i = f := by simp [setFrame]

theorem setFrame_frame_of_ne (other : j ≠ i) : (a.setFrame i f).frameArray j = a.frameArray j := by
  simp [setFrame, Function.update_of_ne other]

@[simp] theorem setFrame_setFrame : (a.setFrame i f).setFrame i g = a.setFrame i g := by
  simp [setFrame]

theorem setFrame_comm (different : i ≠ j) :
    (a.setFrame i f).setFrame j g = (a.setFrame j g).setFrame i f := by
  simp [setFrame, Function.update_comm different]

theorem setFrame_eq_self (same : a.frameArray i = f) : a.setFrame i f = a := by
  simp [setFrame, ← same]

@[simp] theorem unlink_baseAddr : (a.unlink i k).baseAddr = a.baseAddr := rfl
@[simp] theorem unlink_totalPages : (a.unlink i k).totalPages = a.totalPages := rfl
@[simp] theorem unlink_frameArray : (a.unlink i k).frameArray = a.frameArray := rfl
private theorem unlink_setFrame : (a.unlink i k).setFrame j f = (a.setFrame j f).unlink i k := rfl

@[simp] theorem pushFree_baseAddr : (a.pushFree i k).baseAddr = a.baseAddr := rfl
@[simp] theorem pushFree_totalPages : (a.pushFree i k).totalPages = a.totalPages := rfl

private theorem pushFree_setFrame_self : (a.setFrame i f).pushFree i k = a.pushFree i k := by
  simp [pushFree, setFrame]

private theorem pushFree_setFrame (different : j ≠ i) :
    (a.setFrame j f).pushFree i k = (a.pushFree i k).setFrame j f := by
  simp [pushFree, setFrame, Function.update_comm different]

@[simp] theorem pushFree_frame_self : (a.pushFree i k).frameArray i = ⟨k, frameFree⟩ := by
  simp [pushFree]

theorem pushFree_frame_of_ne (other : j ≠ i) : (a.pushFree i k).frameArray j = a.frameArray j := by
  simp [pushFree, Function.update_of_ne other]

end Fields

/-! ## The invariant -/

/-- The frame heads a dyadic block inside RAM, and the rest of the block is its interior. -/
def Heads (a : Allocator) (i k : ℕ) : Prop :=
  k ≤ maxOrder ∧ 2 ^ k ∣ i ∧ i + 2 ^ k ≤ a.totalPages ∧
    ∀ j, i < j → j < i + 2 ^ k → (a.frameArray j).status = frameBuddy

/-- Every frame that is no interior heads a block, and the free lists hold exactly the free
blocks. -/
structure WellFormed (a : Allocator) : Prop where
  heads : ∀ i < a.totalPages, (a.frameArray i).status ≠ frameBuddy →
    ∃ k : ℕ, (a.frameArray i).order = k ∧ Heads a i k
  listed : ∀ k i, i ∈ a.freelists k ↔ i < a.totalPages ∧ a.frameArray i = ⟨k, frameFree⟩
  nodup : ∀ k, (a.freelists k).Nodup
  size : ∀ k, a.freelistsSize k = (a.freelists k).length

/-- The state in which the block in hand counts as allocated is well formed. -/
def Holding (a : Allocator) (idx k : ℕ) : Prop :=
  idx < a.totalPages ∧ WellFormed (a.setFrame idx ⟨k, frameAlloc⟩)

theorem WellFormed.block {a : Allocator} (wellFormed : WellFormed a) {i k : ℕ}
    (bound : i < a.totalPages) (order : (a.frameArray i).order = k)
    (head : (a.frameArray i).status ≠ frameBuddy) : Heads a i k := by
  obtain ⟨k', order', heads⟩ := wellFormed.heads i bound head
  rw [order] at order'
  rw [Nat.cast_inj.mp order']
  exact heads

/-- Distinct heads have disjoint blocks. -/
theorem heads_disjoint {a : Allocator} {i j k l : ℕ} (first : Heads a i k) (second : Heads a j l)
    (firstHead : (a.frameArray i).status ≠ frameBuddy)
    (secondHead : (a.frameArray j).status ≠ frameBuddy) (different : i ≠ j) :
    i + 2 ^ k ≤ j ∨ j + 2 ^ l ≤ i := by
  rcases Nat.lt_or_gt_of_ne different with before | after
  · left
    by_contra inside
    exact secondHead (first.2.2.2 j before (by omega))
  · right
    by_contra inside
    exact firstHead (second.2.2.2 i after (by omega))

/-- Changing one frame that stays a head keeps every block. -/
private theorem heads_setFrame {a : Allocator} {idx : ℕ} {f : Frame} {i k : ℕ} (heads : Heads a i k)
    (head : (a.frameArray idx).status ≠ frameBuddy) : Heads (a.setFrame idx f) i k := by
  refine ⟨heads.1, heads.2.1, heads.2.2.1, fun j after inside => ?_⟩
  have interior := heads.2.2.2 j after inside
  have other : j ≠ idx := by
    rintro rfl
    exact head interior
  rw [setFrame_frame_of_ne _ _ _ _ other, interior]

/-- Retagging an allocated block keeps the invariant. -/
theorem WellFormed.retag {a : Allocator} (wellFormed : WellFormed a) {idx k : ℕ} {s s' : ℤ}
    (frame : a.frameArray idx = ⟨k, s⟩) (before : s ≠ frameFree) (notBuddy : s ≠ frameBuddy)
    (after : s' ≠ frameFree) : WellFormed (a.setFrame idx ⟨k, s'⟩) where
  heads i bound head := by
    have old : (a.frameArray idx).status ≠ frameBuddy := by rw [frame]; exact notBuddy
    rcases eq_or_ne i idx with rfl | same
    · exact ⟨k, by simp, heads_setFrame (wellFormed.block bound (by rw [frame]) old) old⟩
    · rw [setFrame_frame_of_ne _ _ _ _ same] at head ⊢
      obtain ⟨l, order, heads⟩ := wellFormed.heads i bound head
      exact ⟨l, order, heads_setFrame heads old⟩
  listed l i := by
    rw [setFrame_freelists, wellFormed.listed l i, setFrame_totalPages]
    rcases eq_or_ne i idx with rfl | same
    · rw [frame, setFrame_frame_self]
      simp [before, after]
    · rw [setFrame_frame_of_ne _ _ _ _ same]
  nodup := wellFormed.nodup
  size := wellFormed.size

/-- Taking a free block from its list. -/
theorem WellFormed.take {a : Allocator} (wellFormed : WellFormed a) {idx k : ℕ}
    (member : idx ∈ a.freelists k) : Holding (a.unlink idx k) idx k := by
  obtain ⟨bound, frame⟩ := (wellFormed.listed k idx).mp member
  have old : (a.frameArray idx).status ≠ frameBuddy := by simp [frame, frameFree, frameBuddy]
  refine ⟨bound, ⟨fun i below head => ?_, fun l i => ?_, fun l => ?_, fun l => ?_⟩⟩
  · rcases eq_or_ne i idx with rfl | same
    · exact ⟨k, by simp, heads_setFrame (wellFormed.block bound (by rw [frame]) old) old⟩
    · rw [setFrame_frame_of_ne _ _ _ _ same] at head ⊢
      obtain ⟨l, order, heads⟩ := wellFormed.heads i below head
      exact ⟨l, order, heads_setFrame (a := a.unlink idx k) heads old⟩
  · have listed := wellFormed.listed l i
    change i ∈ Function.update a.freelists k ((a.freelists k).erase idx) l ↔ _
    rcases eq_or_ne l k with rfl | sameOrder
    · rw [Function.update_self, (wellFormed.nodup l).mem_erase_iff, listed]
      rcases eq_or_ne i idx with rfl | same
      · simp [frameFree, frameAlloc]
      · rw [setFrame_frame_of_ne _ _ _ _ same]
        simp [same]
    · rw [Function.update_of_ne sameOrder, listed]
      rcases eq_or_ne i idx with rfl | same
      · rw [frame]
        simp [frameFree, frameAlloc, Ne.symm sameOrder]
      · rw [setFrame_frame_of_ne _ _ _ _ same]
        rfl
  · change (Function.update a.freelists k ((a.freelists k).erase idx) l).Nodup
    rcases eq_or_ne l k with rfl | sameOrder
    · rw [Function.update_self]
      exact (wellFormed.nodup l).erase idx
    · rw [Function.update_of_ne sameOrder]
      exact wellFormed.nodup l
  · change Function.update a.freelistsSize k _ l = ((Function.update a.freelists k _ l).length : ℤ)
    rcases eq_or_ne l k with rfl | sameOrder
    · have positive := List.length_pos_of_mem member
      rw [Function.update_self, Function.update_self, wellFormed.size,
        List.length_erase_of_mem member]
      omega
    · rw [Function.update_of_ne sameOrder, Function.update_of_ne sameOrder, wellFormed.size]

/-- Putting the block in hand on its list. -/
theorem Holding.put {a : Allocator} {idx k : ℕ} (holding : Holding a idx k) :
    WellFormed (a.pushFree idx k) := by
  obtain ⟨bound, wellFormed⟩ := holding
  rw [← pushFree_setFrame_self a idx k ⟨k, frameAlloc⟩]
  generalize held : a.setFrame idx ⟨k, frameAlloc⟩ = b at wellFormed ⊢
  have frame : b.frameArray idx = ⟨k, frameAlloc⟩ := by rw [← held, setFrame_frame_self]
  have boundB : idx < b.totalPages := by rw [← held]; exact bound
  have old : (b.frameArray idx).status ≠ frameBuddy := by simp [frame, frameAlloc, frameBuddy]
  have absent : ∀ l, idx ∉ b.freelists l := by
    intro l member
    have listed := ((wellFormed.listed l idx).mp member).2
    rw [frame] at listed
    simp [frameFree, frameAlloc] at listed
  refine ⟨fun i below head => ?_, fun l i => ?_, fun l => ?_, fun l => ?_⟩
  · rcases eq_or_ne i idx with rfl | same
    · exact ⟨k, by simp,
        heads_setFrame (f := ⟨k, frameFree⟩) (wellFormed.block boundB (by rw [frame]) old) old⟩
    · rw [pushFree_frame_of_ne _ _ _ _ same] at head ⊢
      obtain ⟨l, order, heads⟩ := wellFormed.heads i below head
      exact ⟨l, order, heads_setFrame (f := ⟨k, frameFree⟩) heads old⟩
  · have listed := wellFormed.listed l i
    change i ∈ Function.update b.freelists k (idx :: b.freelists k) l ↔ _
    rcases eq_or_ne i idx with rfl | same
    · rw [pushFree_frame_self]
      rcases eq_or_ne l k with rfl | sameOrder
      · simp [boundB]
      · rw [Function.update_of_ne sameOrder]
        simp [absent l, Ne.symm sameOrder]
    · rw [pushFree_frame_of_ne _ _ _ _ same]
      rcases eq_or_ne l k with rfl | sameOrder
      · rw [Function.update_self, List.mem_cons, listed]
        simp [same]
      · rw [Function.update_of_ne sameOrder, listed]
        rfl
  · change (Function.update b.freelists k (idx :: b.freelists k) l).Nodup
    rcases eq_or_ne l k with rfl | sameOrder
    · rw [Function.update_self]
      exact List.nodup_cons.mpr ⟨absent l, wellFormed.nodup l⟩
    · rw [Function.update_of_ne sameOrder]
      exact wellFormed.nodup l
  · change Function.update b.freelistsSize k _ l = ((Function.update b.freelists k _ l).length : ℤ)
    rcases eq_or_ne l k with rfl | sameOrder
    · rw [Function.update_self, Function.update_self, wellFormed.size, List.length_cons]
      omega
    · rw [Function.update_of_ne sameOrder, Function.update_of_ne sameOrder, wellFormed.size]

/-- Splitting the block in hand: its upper half becomes free. -/
theorem Holding.split {a : Allocator} {idx k : ℕ} (holding : Holding a idx (k + 1)) :
    (a.frameArray (idx + 2 ^ k)).status = frameBuddy ∧ Holding
    (a.pushFree (idx + 2 ^ k) k) idx k := by
  obtain ⟨bound, wellFormed⟩ := holding
  have positive := Nat.two_pow_pos k
  have doubled := two_pow_succ k
  have different : idx ≠ idx + 2 ^ k := by omega
  generalize held : a.setFrame idx ⟨(k + 1 : ℕ), frameAlloc⟩ = b at wellFormed
  have frame : b.frameArray idx = ⟨(k + 1 : ℕ), frameAlloc⟩ := by rw [← held, setFrame_frame_self]
  have total : b.totalPages = a.totalPages := by rw [← held]; rfl
  have old : (b.frameArray idx).status ≠ frameBuddy := by simp [frame, frameAlloc, frameBuddy]
  have block : Heads b idx (k + 1) := wellFormed.block (total ▸ bound) (by rw [frame]) old
  have upper : (b.frameArray (idx + 2 ^ k)).status = frameBuddy :=
    block.2.2.2 _ (by omega) (by omega)
  obtain ⟨lowAligned, highAligned⟩ := dvd_halves block.2.1
  refine ⟨?_, bound, ?_⟩
  · rw [← held, setFrame_frame_of_ne _ _ _ _ different.symm] at upper
    exact upper
  -- both halves count as allocated before the upper one goes on its list
  have halves : Holding (b.setFrame idx ⟨k, frameAlloc⟩) (idx + 2 ^ k) k := by
    have fits := block.2.2.1
    have notInterior : ∀ {i l}, Heads b i l → (b.frameArray i).status ≠ frameBuddy → i ≠ idx →
        ∀ j, i < j → j < i + 2 ^ l → j ≠ idx ∧ j ≠ idx + 2 ^ k := by
      intro i l heads head other j after inside
      have apart := heads_disjoint heads block head old other
      omega
    refine ⟨by simp only [setFrame_totalPages]; omega,
      ⟨fun i below head => ?_, fun l i => ?_, wellFormed.nodup, wellFormed.size⟩⟩
    · rcases eq_or_ne i (idx + 2 ^ k) with rfl | notUpper
      · refine ⟨k, by simp, Nat.le_of_succ_le block.1, highAligned, by simp; omega,
          fun j after inside => ?_⟩
        rw [setFrame_frame_of_ne _ _ _ _ (by omega), setFrame_frame_of_ne _ _ _ _ (by omega)]
        exact block.2.2.2 j (by omega) (by omega)
      rw [setFrame_frame_of_ne _ _ _ _ notUpper] at head ⊢
      rcases eq_or_ne i idx with rfl | notLower
      · refine ⟨k, by simp, Nat.le_of_succ_le block.1, lowAligned, by simp; omega,
          fun j after inside => ?_⟩
        rw [setFrame_frame_of_ne _ _ _ _ (by omega), setFrame_frame_of_ne _ _ _ _ (by omega)]
        exact block.2.2.2 j (by omega) (by omega)
      rw [setFrame_frame_of_ne _ _ _ _ notLower] at head ⊢
      obtain ⟨l, order, heads⟩ := wellFormed.heads i below head
      refine ⟨l, order, heads.1, heads.2.1, heads.2.2.1, fun j after inside => ?_⟩
      obtain ⟨notIdx, notHalf⟩ := notInterior heads head notLower j after inside
      rw [setFrame_frame_of_ne _ _ _ _ notHalf, setFrame_frame_of_ne _ _ _ _ notIdx]
      exact heads.2.2.2 j after inside
    · rw [setFrame_freelists, setFrame_freelists, wellFormed.listed]
      rcases eq_or_ne i (idx + 2 ^ k) with rfl | notUpper
      · rw [setFrame_frame_self]
        have hidden : b.frameArray (idx + 2 ^ k) ≠ ⟨l, frameFree⟩ := by
          intro free
          simp [free, frameFree, frameBuddy] at upper
        exact ⟨fun listed => absurd listed.2 hidden,
          fun listed => by simp [frameAlloc, frameFree] at listed⟩
      rw [setFrame_frame_of_ne _ _ _ _ notUpper]
      rcases eq_or_ne i idx with rfl | notLower
      · rw [setFrame_frame_self, frame]
        simp [frameAlloc, frameFree]
      · rw [setFrame_frame_of_ne _ _ _ _ notLower]
        rfl
  have put := halves.put
  rw [← held, setFrame_setFrame, pushFree_setFrame _ _ _ _ _ different] at put
  exact put

/-- Joining two allocated halves: the upper one becomes interior. -/
theorem WellFormed.join {b : Allocator} (wellFormed : WellFormed b) {lo k : ℕ}
    (lower : b.frameArray lo = ⟨k, frameAlloc⟩)
    (upper : b.frameArray (lo + 2 ^ k) = ⟨k, frameAlloc⟩) (bound : lo + 2 ^ k < b.totalPages)
    (aligned : 2 ^ (k + 1) ∣ lo) (small : k < maxOrder) :
    WellFormed ((b.setFrame (lo + 2 ^ k) ⟨-1, frameBuddy⟩).setFrame lo
      ⟨(k + 1 : ℕ), frameAlloc⟩) := by
  have positive := Nat.two_pow_pos k
  have doubled := two_pow_succ k
  have lowHead : (b.frameArray lo).status ≠ frameBuddy := by simp [lower, frameAlloc, frameBuddy]
  have highHead : (b.frameArray (lo + 2 ^ k)).status ≠
      frameBuddy := by simp [upper, frameAlloc, frameBuddy]
  have low : Heads b lo k := wellFormed.block (by omega) (by rw [lower]) lowHead
  have high : Heads b (lo + 2 ^ k) k := wellFormed.block bound (by rw [upper]) highHead
  have fits := high.2.2.1
  refine ⟨fun i below head => ?_, fun l i => ?_, wellFormed.nodup, wellFormed.size⟩
  · rcases eq_or_ne i lo with rfl | notLower
    · refine ⟨k + 1, by simp, small, aligned, by simp; omega, fun j after inside => ?_⟩
      rw [setFrame_frame_of_ne _ _ _ _ (by omega)]
      rcases eq_or_ne j (i + 2 ^ k) with rfl | notUpper
      · rw [setFrame_frame_self]
      · rw [setFrame_frame_of_ne _ _ _ _ notUpper]
        rcases Nat.lt_or_gt_of_ne notUpper with inLow | inHigh
        · exact low.2.2.2 j after inLow
        · exact high.2.2.2 j inHigh (by omega)
    rw [setFrame_frame_of_ne _ _ _ _ notLower] at head ⊢
    rcases eq_or_ne i (lo + 2 ^ k) with rfl | notUpper
    · rw [setFrame_frame_self] at head
      exact absurd rfl head
    rw [setFrame_frame_of_ne _ _ _ _ notUpper] at head ⊢
    obtain ⟨l, order, heads⟩ := wellFormed.heads i below head
    exact ⟨l, order, heads_setFrame (heads_setFrame heads highHead)
      (by rw [setFrame_frame_of_ne _ _ _ _ (by omega)]; exact lowHead)⟩
  · rw [setFrame_freelists, setFrame_freelists, wellFormed.listed]
    rcases eq_or_ne i lo with rfl | notLower
    · rw [setFrame_frame_self, lower]
      simp [frameAlloc, frameFree]
    rw [setFrame_frame_of_ne _ _ _ _ notLower]
    rcases eq_or_ne i (lo + 2 ^ k) with rfl | notUpper
    · rw [setFrame_frame_self, upper]
      simp [frameAlloc, frameFree, frameBuddy]
    · rw [setFrame_frame_of_ne _ _ _ _ notUpper]
      rfl

/-! ## What the operations leave alone -/

/-- A frame whose owner relies on it: neither free nor interior. -/
def Settled (f : Frame) : Prop := f.status ≠ frameFree ∧ f.status ≠ frameBuddy

/-- The change neither touches a settled frame nor settles one. -/
structure Calm (a a' : Allocator) : Prop where
  baseAddr : a'.baseAddr = a.baseAddr
  totalPages : a'.totalPages = a.totalPages
  poolFreeList : a'.poolFreeList = a.poolFreeList
  poolFreelistSize : a'.poolFreelistSize = a.poolFreelistSize
  kept : ∀ j, Settled (a.frameArray j) ∨ Settled (a'.frameArray j) →
    a'.frameArray j = a.frameArray j

theorem not_settled_free (order : ℤ) : ¬ Settled ⟨order, frameFree⟩ := fun settled => settled.1 rfl

theorem not_settled_buddy {f : Frame} (status : f.status = frameBuddy) : ¬ Settled f :=
  fun settled => settled.2 status

namespace Calm

theorem refl (a : Allocator) : Calm a a := ⟨rfl, rfl, rfl, rfl, fun _ _ => rfl⟩

theorem trans {a b c : Allocator} (first : Calm a b) (second : Calm b c) : Calm a c where
  baseAddr := second.baseAddr.trans first.baseAddr
  totalPages := second.totalPages.trans first.totalPages
  poolFreeList := second.poolFreeList.trans first.poolFreeList
  poolFreelistSize := second.poolFreelistSize.trans first.poolFreelistSize
  kept j settled := by
    rcases settled with before | after
    · have same := first.kept j (.inl before)
      rw [second.kept j (.inl (same ▸ before)), same]
    · have same := second.kept j (.inr after)
      rw [same, first.kept j (.inr (same ▸ after))]

theorem unlink (a : Allocator) (i k : ℕ) : Calm a (a.unlink i k) :=
  ⟨rfl, rfl, rfl, rfl, fun _ _ => rfl⟩

theorem setFrame {a : Allocator} {i : ℕ} {f : Frame} (before : ¬ Settled (a.frameArray i))
    (after : ¬ Settled f) : Calm a (a.setFrame i f) := by
  refine ⟨rfl, rfl, rfl, rfl, fun j settled => ?_⟩
  rcases eq_or_ne j i with rfl | other
  · rw [setFrame_frame_self] at settled
    exact absurd settled (by simp [before, after])
  · exact setFrame_frame_of_ne _ _ _ _ other

theorem pushFree {a : Allocator} {i k : ℕ} (before : ¬ Settled (a.frameArray i)) :
    Calm a (a.pushFree i k) := by
  have calm := Calm.setFrame before (not_settled_free k)
  exact ⟨rfl, rfl, rfl, rfl, calm.kept⟩

end Calm

/-! ## The loops -/

theorem splitLoop_spec {a : Allocator} {idx order levels : ℕ}
    (holding : Holding a idx (order + levels)) :
    Holding (splitLoop a idx order levels) idx order ∧ Calm a (splitLoop a idx order levels) := by
  induction levels generalizing a with
  | zero => exact ⟨holding, .refl a⟩
  | succ levels ih =>
    obtain ⟨interior, next⟩ := holding.split
    obtain ⟨holds, calm⟩ := ih next
    exact ⟨holds, (Calm.pushFree (not_settled_buddy interior)).trans calm⟩

/-- The outcome of a search for a block of `order`: nothing changes, or a free block becomes an
allocated one. -/
inductive Allocated (a : Allocator) (order : ℕ) : Option ℕ × Allocator → Prop
  | failed : Allocated a order (none, a)
  | block {b : Allocator} {idx : ℕ} (bound : idx < a.totalPages)
      (fresh : ¬ Settled (a.frameArray idx))
      (calm : Calm a b) (wellFormed : WellFormed (b.setFrame idx ⟨order, frameAlloc⟩)) :
      Allocated a order (some (a.frameAddr idx), b.setFrame idx ⟨order, frameAlloc⟩)

/-- What `buddy_alloc` does: it finds nothing, or it splits the first block of the list it takes. -/
theorem buddyAlloc_cases (a : Allocator) (order : ℕ) :
    a.buddyAlloc order = (none, a) ∨
    ∃ levels idx, idx ∈ a.freelists (order + levels) ∧
      a.buddyAlloc order = (some (a.frameAddr idx),
        (splitLoop (a.unlink idx (order + levels)) idx order levels).setFrame idx
          ⟨order, frameAlloc⟩) := by
  have general : ∀ orders : List ℕ, (∀ i ∈ orders, order ≤ i) →
      a.buddyAllocLoop order orders = (none, a) ∨
      ∃ levels idx, idx ∈ a.freelists (order + levels) ∧ a.buddyAllocLoop order orders =
        (some (a.frameAddr idx),
          (splitLoop (a.unlink idx (order + levels)) idx order levels).setFrame idx
          ⟨order, frameAlloc⟩) := by
    intro orders above
    induction orders with
    | nil => exact .inl rfl
    | cons i rest ih =>
      rw [buddyAllocLoop]
      cases free : a.freelists i with
      | nil => exact ih fun j member => above j (List.mem_cons_of_mem i member)
      | cons idx tail =>
        have levels : order + (i - order) = i := Nat.add_sub_cancel' (above i List.mem_cons_self)
        refine .inr ⟨i - order, idx, ?_, ?_⟩
        · rw [levels, free]
          exact List.mem_cons_self
        · rw [levels]
  exact general _ fun i member => (List.mem_range'_1.mp member).1

theorem buddyAlloc_spec {a : Allocator} (wellFormed : WellFormed a) (order : ℕ) :
    Allocated a order (a.buddyAlloc order) := by
  obtain failed | ⟨levels, idx, member, result⟩ := buddyAlloc_cases a order
  · rw [failed]
    exact .failed
  · rw [result]
    obtain ⟨bound, frame⟩ := (wellFormed.listed _ idx).mp member
    obtain ⟨holding, calm⟩ := splitLoop_spec (wellFormed.take member)
    exact .block bound (frame ▸ not_settled_free _) ((Calm.unlink a idx _).trans calm) holding.2

/-- Merging the block in hand with its free buddy. -/
theorem Holding.merge {a : Allocator} {idx order : ℕ} (holding : Holding a idx order)
    (hidden : a.frameArray idx = ⟨-1, frameBuddy⟩) (small : order < maxOrder)
    (inRam : buddy idx order < a.totalPages)
    (free : a.frameArray (buddy idx order) = ⟨order, frameFree⟩) :
    let next := (a.unlink (buddy idx order) order).setFrame (buddy idx order) ⟨-1, frameBuddy⟩
    let merged := if buddy idx order < idx then buddy idx order else idx
    Holding next merged (order + 1) ∧ next.frameArray merged = ⟨-1, frameBuddy⟩ ∧ Calm a next := by
  intro next merged
  have other : buddy idx order ≠ idx := by
    intro same
    rw [same, hidden] at free
    simp [frameBuddy, frameFree] at free
  have positive := Nat.two_pow_pos order
  obtain ⟨bound, wellFormed⟩ := holding
  have aligned : 2 ^ order ∣ idx :=
    (wellFormed.block bound (by rw [setFrame_frame_self]) (by simp [frameAlloc, frameBuddy])).2.1
  have calm : Calm a next :=
    (Calm.unlink a _ _).trans
      (Calm.setFrame (by rw [unlink_frameArray, free]; exact not_settled_free order)
      (not_settled_buddy rfl))
  -- both halves count as allocated once the buddy has left its list
  have member : buddy idx order ∈ (a.setFrame idx ⟨order, frameAlloc⟩).freelists order := by
    rw [wellFormed.listed, setFrame_frame_of_ne _ _ _ _ other]
    exact ⟨inRam, free⟩
  have both := (wellFormed.take member).2
  rw [← unlink_setFrame] at both
  have hiddenIdx : (a.unlink (buddy idx order) order).frameArray idx = ⟨-1, frameBuddy⟩ := hidden
  have boundNext : idx < (a.unlink (buddy idx order) order).totalPages := bound
  have inRamNext : buddy idx order < (a.unlink (buddy idx order) order).totalPages := inRam
  generalize unlinked : a.unlink (buddy idx order) order = b at both hiddenIdx boundNext inRamNext
  have nextEq : next = b.setFrame (buddy idx order) ⟨-1, frameBuddy⟩ := by rw [← unlinked]
  have idxFrame : ((b.setFrame idx ⟨order, frameAlloc⟩).setFrame (buddy idx order)
      ⟨order, frameAlloc⟩).frameArray idx = ⟨order, frameAlloc⟩ := by
    rw [setFrame_frame_of_ne _ _ _ _ other.symm, setFrame_frame_self]
  rcases buddy_cases aligned with ⟨lowAligned, upper⟩ | ⟨lowAligned, lower⟩
  · have keep : merged = idx := if_neg (by omega)
    have joined := both.join idxFrame (by rw [← upper, setFrame_frame_self])
      (by rw [← upper]; exact inRamNext) lowAligned small
    rw [← upper, setFrame_setFrame, ← setFrame_comm _ _ _ _ _ other, setFrame_setFrame] at joined
    rw [keep, nextEq]
    refine ⟨⟨boundNext, joined⟩, ?_, nextEq ▸ calm⟩
    rw [setFrame_frame_of_ne _ _ _ _ other.symm]
    exact hiddenIdx
  · have move : merged = buddy idx order := if_pos (by omega)
    have joined := both.join (setFrame_frame_self _ _ _) (by rw [← lower]; exact idxFrame)
      (by rw [← lower]; exact boundNext) lowAligned small
    rw [← lower, ← setFrame_comm _ _ _ _ _ other.symm, setFrame_setFrame, setFrame_setFrame,
      setFrame_eq_self _ _ _ hiddenIdx] at joined
    rw [move, nextEq]
    refine ⟨⟨inRamNext, by rw [setFrame_setFrame]; exact joined⟩,
      setFrame_frame_self _ _ _, nextEq ▸ calm⟩

/-- The merging loop ends with a block in hand whose frame is still interior. -/
private theorem mergeLoop_spec {a : Allocator} {idx order levels : ℕ}
    (holding : Holding a idx order) (hidden : a.frameArray idx = ⟨-1, frameBuddy⟩)
    (remaining : order + levels ≤ maxOrder) :
    let merged := mergeLoop a idx order levels
    Holding merged.1 merged.2.1 merged.2.2 ∧ merged.1.frameArray merged.2.1 = ⟨-1, frameBuddy⟩ ∧
      Calm a merged.1 := by
  induction levels generalizing a idx order with
  | zero => exact ⟨holding, hidden, .refl a⟩
  | succ levels ih =>
    rw [mergeLoop]
    simp only
    split
    · exact ⟨holding, hidden, .refl a⟩
    rename_i inRam
    split
    · rename_i mergeable
      have free : a.frameArray (buddy idx order) = ⟨order, frameFree⟩ := by
        obtain ⟨status, sameOrder⟩ := mergeable
        rw [← status, ← sameOrder]
      obtain ⟨held, hiddenNext, calm⟩ := holding.merge hidden (by omega) (not_le.mp inRam) free
      obtain ⟨holds, hiddenLast, calmLast⟩ := ih held hiddenNext (by omega)
      exact ⟨holds, hiddenLast, calm.trans calmLast⟩
    · exact ⟨holding, hidden, .refl a⟩

/-- Freeing an allocated block succeeds; apart from its own frame, no settled frame changes. -/
theorem buddyFree_spec {a : Allocator} (wellFormed : WellFormed a) {ptr idx order : ℕ}
    (index : a.frameIndex ptr = idx) (bound : idx < a.totalPages)
    (frame : a.frameArray idx = ⟨order, frameAlloc⟩) :
    ∃ a', a.buddyFree ptr = some a' ∧ WellFormed a' ∧
      Calm (a.setFrame idx ⟨-1, frameBuddy⟩) a' := by
  have head : (a.frameArray idx).status ≠ frameBuddy := by simp [frame, frameAlloc, frameBuddy]
  have small : order ≤ maxOrder := (wellFormed.block bound (by rw [frame]) head).1
  have inHand : Holding (a.setFrame idx ⟨-1, frameBuddy⟩) idx order := by
    refine ⟨bound, ?_⟩
    rw [setFrame_setFrame, setFrame_eq_self _ _ _ frame]
    exact wellFormed
  obtain ⟨holding, hidden, calm⟩ := mergeLoop_spec inHand (setFrame_frame_self _ _ _)
    (show order + (maxOrder - order) ≤ maxOrder by omega)
  refine ⟨_, ?_, holding.put, calm.trans (Calm.pushFree (not_settled_buddy (by rw [hidden])))⟩
  rw [buddyFree, index]
  simp only [frame, Int.toNat_natCast]
  exact if_neg (not_lt.mpr (Int.natCast_nonneg order))

end OscKernel.Soundness.Allocator
