import OscKernel.Soundness.Startup

/-! # Runs of the buddy allocator

From the state startup leaves, clients take blocks with `buddy_alloc` and return them in any order.
The free pages and the pages of the live blocks always make up the pages that startup freed, and the
free lists stay canonical: with no block live they hold what they held after startup.
-/

namespace OscKernel.Soundness.BlockRuns

open OscKernel.Lib OscKernel.Model OscKernel.Model.Allocator OscKernel.Soundness.Allocator

/-- The allocator with the blocks handed out and not freed since, as pointers with their orders. -/
structure State where
  allocator : Model.Allocator
  live : List (ℕ × ℕ)

inductive Call where
  | alloc (order : ℕ)
  | free (ptr : ℕ)

inductive Step : State → Call → State → Prop
  | returned {s : State} {order ptr : ℕ} {a : Model.Allocator}
      (result : s.allocator.buddyAlloc order = (some ptr, a)) :
      Step s (.alloc order) ⟨a, (ptr, order) :: s.live⟩
  | failed {s : State} {order : ℕ} {a : Model.Allocator}
      (result : s.allocator.buddyAlloc order = (none, a)) :
      Step s (.alloc order) ⟨a, s.live⟩
  | free {s : State} {ptr order : ℕ} {a : Model.Allocator} (member : (ptr, order) ∈ s.live)
      (result : s.allocator.buddyFree ptr = some a) :
      Step s (.free ptr) ⟨a, s.live.erase (ptr, order)⟩

def calls : System State Call := ⟨Step⟩

/-- The pages of the live blocks. -/
def livePages (s : State) : Set ℕ := {j | ∃ e ∈ s.live, j ∈ span (s.allocator.frameIndex e.1, e.2)}

/-- The invariant of a run: each live pointer is an allocated block of its order. -/
structure Sound (started : Model.Allocator) (s : State) : Prop where
  spaced : Spaced s.allocator
  base : s.allocator.baseAddr = started.baseAddr
  total : s.allocator.totalPages = started.totalPages
  wellFormed : WellFormed s.allocator
  merged : Merged s.allocator
  distinct : (s.live.map Prod.fst).Nodup
  blocks : ∀ e ∈ s.live, ∃ idx < s.allocator.totalPages, e.1 = s.allocator.frameAddr idx ∧
    s.allocator.frameArray idx = ⟨e.2, frameAlloc⟩
  pages : freePages s.allocator ∪ livePages s = freePages started

section Steps

variable {started : Model.Allocator} {s : State}

theorem Sound.frame (sound : Sound started s) {e : ℕ × ℕ} (member : e ∈ s.live) :
    s.allocator.frameIndex e.1 < s.allocator.totalPages ∧
      s.allocator.frameArray (s.allocator.frameIndex e.1) = ⟨e.2, frameAlloc⟩ := by
  obtain ⟨idx, bound, address, frame⟩ := sound.blocks e member
  rw [address, frameIndex_frameAddr sound.spaced bound]
  exact ⟨bound, frame⟩

theorem Sound.take (sound : Sound started s) {a : Model.Allocator} {idx order : ℕ}
    (taken : Taken s.allocator a idx order) :
    Sound started ⟨a, (s.allocator.frameAddr idx, order) :: s.live⟩ := by
  obtain ⟨base, total⟩ := taken.fields
  have others : ∀ e ∈ s.live, s.allocator.frameIndex e.1 ≠ idx ∧
      a.frameArray (s.allocator.frameIndex e.1) =
      s.allocator.frameArray (s.allocator.frameIndex e.1) := by
    intro e member
    obtain ⟨bound, frame⟩ := sound.frame member
    exact taken.kept (frame ▸ settled_alloc _)
  refine ⟨by rw [Spaced, base, total]; exact sound.spaced, base.trans sound.base,
    total.trans sound.total, taken.wellFormed, taken.merged, ?_, ?_, ?_⟩
  · refine List.nodup_cons.mpr ⟨fun member => ?_, sound.distinct⟩
    obtain ⟨e, present, same⟩ := List.mem_map.mp member
    apply (others e present).1
    rw [same]
    exact frameIndex_frameAddr sound.spaced taken.bound
  · intro e member
    rcases List.mem_cons.mp member with rfl | member
    · exact ⟨idx, total ▸ taken.bound, (frameAddr_congr base idx).symm, taken.frame⟩
    · obtain ⟨idx', bound, address, frame⟩ := sound.blocks e member
      refine ⟨idx', total ▸ bound, address.trans (frameAddr_congr base idx').symm, ?_⟩
      exact (taken.kept (frame ▸ settled_alloc _)).2.trans frame
  · rw [← sound.pages, ← taken.pages]
    ext j
    simp only [Set.mem_union, livePages, Set.mem_ofPred_eq, List.mem_cons, exists_eq_or_imp,
      frameIndex_congr base, frameIndex_frameAddr sound.spaced taken.bound]
    tauto

theorem Sound.give (sound : Sound started s) {e : ℕ × ℕ} (member : e ∈ s.live) :
    ∃ a, s.allocator.buddyFree e.1 = some a ∧ Sound started ⟨a, s.live.erase e⟩ := by
  obtain ⟨bound, frame⟩ := sound.frame member
  obtain ⟨a, freed, wellFormed, calm⟩ := buddyFree_spec sound.wellFormed rfl bound frame
  obtain ⟨merged, pages⟩ := buddyFree_merged sound.wellFormed sound.merged rfl bound frame freed
  have base : a.baseAddr = s.allocator.baseAddr := calm.baseAddr
  have total : a.totalPages = s.allocator.totalPages := calm.totalPages
  have nodup : s.live.Nodup := sound.distinct.of_map
  refine ⟨a, freed, by rw [Spaced, base, total]; exact sound.spaced, base.trans sound.base,
    total.trans sound.total, wellFormed, merged, ?_, ?_, ?_⟩
  · exact sound.distinct.sublist (List.erase_sublist.map Prod.fst)
  · intro f left
    obtain ⟨different, present⟩ := nodup.mem_erase_iff.mp left
    obtain ⟨idx, boundF, address, frameF⟩ := sound.blocks f present
    refine ⟨idx, total ▸ boundF, address.trans (frameAddr_congr base idx).symm, ?_⟩
    -- different live pointers have different frames
    have other : idx ≠ s.allocator.frameIndex e.1 := by
      intro same
      obtain ⟨idxE, boundE, addressE, -⟩ := sound.blocks e member
      apply different
      apply List.inj_on_of_nodup_map sound.distinct present member
      rw [addressE, frameIndex_frameAddr sound.spaced boundE] at same
      rw [address, addressE, same]
    have same :=
      setFrame_frame_of_ne s.allocator (s.allocator.frameIndex e.1) idx ⟨-1, frameBuddy⟩ other
    rw [calm.kept idx (.inl (by rw [same, frameF]; exact settled_alloc _)), same, frameF]
  · rw [← sound.pages, pages]
    ext j
    simp only [Set.mem_union, livePages, Set.mem_ofPred_eq, frameIndex_congr base]
    constructor
    · rintro ((inside | free) | ⟨f, left, inside⟩)
      · exact .inr ⟨e, member, inside⟩
      · exact .inl free
      · exact .inr ⟨f, List.mem_of_mem_erase left, inside⟩
    · rintro (free | ⟨f, present, inside⟩)
      · exact .inl (.inr free)
      · rcases eq_or_ne f e with rfl | different
        · exact .inl (.inl inside)
        · exact .inr ⟨f, (List.mem_erase_of_ne different).mpr present, inside⟩

theorem Sound.step {t : State} {call : Call} (sound : Sound started s)
    (step : calls.Step s call t) :
    Sound started t := by
  cases step with
  | @returned order ptr a result =>
    obtain failed | ⟨idx, a', taken, block⟩ := buddyAlloc_merged sound.wellFormed sound.merged order
    · rw [result] at failed
      simp at failed
    · rw [result] at taken
      obtain ⟨pointer, rfl⟩ := Prod.mk.inj taken
      obtain rfl := Option.some.inj pointer
      exact sound.take block
  | @failed order a result =>
    obtain failed | ⟨idx, a', taken, block⟩ := buddyAlloc_merged sound.wellFormed sound.merged order
    · rw [result] at failed
      obtain ⟨-, rfl⟩ := Prod.mk.inj failed
      exact sound
    · rw [result] at taken
      simp at taken
  | free member result =>
    obtain ⟨a, freed, next⟩ := sound.give member
    rw [result] at freed
    obtain rfl := Option.some.inj freed
    exact next

end Steps

/-- What holds of the free lists in every state of a run. -/
structure CanonicalLists (s : State) : Prop where
  unmerged : ∀ k < maxOrder, ∀ i ∈ s.allocator.freelists k, buddy i k ∉ s.allocator.freelists k
  inRam : ∀ k, ∀ i ∈ s.allocator.freelists k, k ≤ maxOrder ∧ 2 ^ k ∣ i ∧
    i + 2 ^ k ≤ s.allocator.totalPages
  size : ∀ k, s.allocator.freelistsSize k = (s.allocator.freelists k).length
  frees : ∀ e ∈ s.live, ∃ a, s.allocator.buddyFree e.1 = some a

theorem Sound.canonicalLists {started : Model.Allocator} {s : State} (sound : Sound started s) :
    CanonicalLists s where
  unmerged := sound.merged
  inRam k i member := by
    obtain ⟨⟨small, aligned, fits, -⟩, -⟩ := sound.wellFormed.heads_of_free member
    exact ⟨small, aligned, fits⟩
  size := sound.wellFormed.size
  frees e member := by
    obtain ⟨a, freed, -⟩ := sound.give member
    exact ⟨a, freed⟩

theorem Sound.blocks_of_pages {started : Model.Allocator} {s t : State} (first : Sound started s)
    (second : Sound started t) (same : freePages s.allocator = freePages t.allocator) :
    freeBlocks s.allocator = freeBlocks t.allocator :=
  (first.wellFormed.canonical first.merged).unique (second.wellFormed.canonical second.merged) same

/-- The free lists stay canonical, their blocks are determined by the free pages, and once every
block has been freed each list holds the blocks it held after startup. -/
theorem free_lists_canonical {start size kernelEnd : Word} {regions : List ReservedRegion}
    {fuel : ℕ} {started : Model.Allocator}
    (boot : startupAllocator start size kernelEnd regions fuel = some started) {events : List Call}
    {s : State} (run : System.Path calls ⟨started, []⟩ events s) :
    CanonicalLists s ∧
    (∀ {others : List Call} {t : State}, System.Path calls ⟨started, []⟩ others t →
      freePages s.allocator = freePages t.allocator →
        ∀ k i, i ∈ s.allocator.freelists k ↔ i ∈ t.allocator.freelists k) ∧
    (s.live = [] → ∀ k, (s.allocator.freelists k).Perm (started.freelists k)) := by
  obtain ⟨metadata, -, left⟩ := started_of_boot boot
  have initial : Sound started ⟨started, []⟩ :=
    ⟨left.spaced, rfl, rfl, left.wellFormed, left.merged, by simp, by simp, by simp [livePages]⟩
  have always : ∀ {es : List Call} {t : State}, System.Path calls ⟨started, []⟩ es t →
      Sound started t :=
    fun path => path.invariant (fun sound step => sound.step step) initial
  have sound := always run
  refine ⟨sound.canonicalLists, fun other same k i => ?_, fun idle k => ?_⟩
  · have blocks := sound.blocks_of_pages (always other) same
    exact Set.ext_iff.mp blocks (i, k)
  · have same : freePages s.allocator = freePages started := by
      rw [← sound.pages]
      simp [livePages, idle]
    have blocks := sound.blocks_of_pages initial same
    apply (List.perm_ext_iff_of_nodup (sound.wellFormed.nodup k) (left.wellFormed.nodup k)).mpr
    exact fun i => Set.ext_iff.mp blocks (i, k)

/-- Two blocks of eight pages with a hole, freed in the order they were taken. -/
theorem free_lists_canonical_eightPages : ∃ started s,
    startupAllocator 0xffffffc080000000#64 0x8000#64 0xffffffc080000f00#64
      [⟨0xffffffc080000000#64, 0xffffffc080000f00#64⟩] 4 = some started ∧
    System.Path calls ⟨started, []⟩
      [.alloc 0, .alloc 1, .free 0xffffffc080002000, .free 0xffffffc080004000] s ∧ s.live = [] ∧
    CanonicalLists s ∧ ∀ k, (s.allocator.freelists k).Perm (started.freelists k) := by
  have result : (startupAllocator 0xffffffc080000000#64 0x8000#64 0xffffffc080000f00#64
      [⟨0xffffffc080000000#64, 0xffffffc080000f00#64⟩] 4).bind (fun started =>
        ((started.buddyAlloc 0).2.buddyAlloc 1).2.buddyFree 0xffffffc080002000 |>.bind fun third =>
          (third.buddyFree 0xffffffc080004000).map fun _ =>
            ((started.buddyAlloc 0).1, ((started.buddyAlloc 0).2.buddyAlloc 1).1)) =
      some (some 0xffffffc080002000, some 0xffffffc080004000) := by
    decide +kernel
  obtain ⟨started, boot, rest⟩ := Option.bind_eq_some_iff.mp result
  obtain ⟨third, firstFree, rest⟩ := Option.bind_eq_some_iff.mp rest
  obtain ⟨last, secondFree, pointers⟩ := Option.map_eq_some_iff.mp rest
  obtain ⟨first, second⟩ := Prod.mk.inj pointers
  have inFirst : (0xffffffc080002000, 0) ∈
      [(0xffffffc080004000, 1), (0xffffffc080002000, 0)] := by simp
  have inSecond : (0xffffffc080004000, 1) ∈ [(0xffffffc080004000, 1)] := by simp
  have run : System.Path calls ⟨started, []⟩
      [.alloc 0, .alloc 1, .free 0xffffffc080002000, .free 0xffffffc080004000] ⟨last, []⟩ :=
    .cons (.returned (Prod.ext first rfl)) (.cons (.returned (Prod.ext second rfl))
      (.cons (.free inFirst firstFree) (.cons (.free inSecond secondFree) (.nil _))))
  obtain ⟨canonical, -, restored⟩ := free_lists_canonical boot run
  exact ⟨started, _, boot, run, rfl, canonical, restored rfl⟩

end OscKernel.Soundness.BlockRuns
