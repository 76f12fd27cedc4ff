import OscKernel.Model.Mmap

/-! # The memory-map table under arbitrary requests

A table is valid when its regions are nonempty page ranges of the user half, disjoint from one
another, from the stack and from the code. `sys_mmap` compares sums that wrap around, so a
request keeps the table valid exactly when its end does not: a hint that is taken must end within
the user half, and a length that goes to the search must not wrap from the search base
(`sysMmap_valid_iff`). The equivalence lifts to runs by induction on the requests.
-/

namespace OscKernel.Soundness.VmaTable

open OscKernel.Lib OscKernel.Model

/-- A region lies where a user mapping may lie. -/
structure WellPlaced (codeSize : ℕ) (vma : VmArea) : Prop where
  nonempty : vma.start.toNat < vma.stop.toNat
  startAligned : vma.start.toNat % 4096 = 0
  stopAligned : vma.stop.toNat % 4096 = 0
  userHalf : vma.stop.toNat ≤ 0x4000000000
  offStack : vma.stop.toNat ≤ 0x3fffffc000 ∨ 0x3fffffc000 + 0x4000 ≤ vma.start.toNat
  offCode : codeSize ≤ vma.start.toNat

/-- Two half-open ranges share no address. -/
def Apart (a b : VmArea) : Prop := a.stop.toNat ≤ b.start.toNat ∨ b.stop.toNat ≤ a.start.toNat

/-- The invariant of the table. -/
structure Valid (task : MmapTask) : Prop where
  placed : ∀ vma ∈ task.vmas, WellPlaced task.codeSize.toNat vma
  apart : task.vmas.Pairwise Apart

/-- The arguments of one call, with the outcomes of the allocations it may make. -/
structure Request where
  addr : Word
  length : Word
  prot : BitVec 32
  flags : BitVec 32
  allocate : ℕ → Option Word

/-- The task after one call. -/
def serve (task : MmapTask) (r : Request) : MmapTask :=
  (sysMmap task r.addr r.length r.prot r.flags r.allocate).2.1

/-- The task after a sequence of calls. -/
def serveAll (task : MmapTask) (requests : List Request) : MmapTask := requests.foldl serve task

/-- The length of the request in whole pages. -/
def Request.pages (r : Request) : Word := align r.length 4096#32

/-- The end of the request does not leave the address space it is compared in: a hint that is taken
ends within the user half, and a length that goes to the search does not wrap from its base. -/
def EndFits (task : MmapTask) (r : Request) : Prop :=
  task.vmas.length < 32 → r.pages ≠ 0#64 →
    if hintRejected task r.addr r.pages then 0x60000000 + r.pages.toNat < 2 ^ 64
    else r.addr.toNat + r.pages.toNat ≤ 0x4000000000

/-! ## The overlap test -/

/-- Without wraparound the test refuses every range that meets a region, the stack or the code. -/
theorem checkVmaOverlap_false_iff (task : MmapTask) (start stop : Word) :
    checkVmaOverlap task start stop = false ↔
      (∀ vma ∈ task.vmas, vma.stop.toNat ≤ start.toNat ∨ stop.toNat ≤ vma.start.toNat) ∧
      (0x3fffffc000 + 0x4000 ≤ start.toNat ∨ stop.toNat ≤ 0x3fffffc000) ∧
      task.codeSize.toNat ≤ start.toNat := by
  have top : (userStack + stackSize).toNat = 0x3fffffc000 + 0x4000 := rfl
  have bottom : userStack.toNat = 0x3fffffc000 := rfl
  simp only [checkVmaOverlap, Bool.or_eq_false_iff, List.any_eq_false, Bool.and_eq_true,
    decide_eq_true_eq, Bool.and_eq_false_iff, decide_eq_false_iff_not, BitVec.lt_def, gt_iff_lt,
    not_and_or, not_lt, top, bottom, and_assoc]

/-- A range that the test lets through, and whose end does not wrap, is a well-placed region. -/
theorem wellPlaced_of_free {task : MmapTask} {vma : VmArea}
    (free : checkVmaOverlap task vma.start vma.stop = false)
    (nonempty : vma.start.toNat < vma.stop.toNat) (userHalf : vma.stop.toNat ≤ 0x4000000000)
    (startAligned : vma.start.toNat % 4096 = 0) (stopAligned : vma.stop.toNat % 4096 = 0) :
    WellPlaced task.codeSize.toNat vma ∧ ∀ other ∈ task.vmas, Apart other vma := by
  obtain ⟨regions, stack, code⟩ := (checkVmaOverlap_false_iff task vma.start vma.stop).mp free
  exact ⟨⟨nonempty, startAligned, stopAligned, userHalf, stack.symm, code⟩, regions⟩

/-! ## The search -/

/-- From a base whose end does not wrap, a successful search ends below the stack at a free
range. -/
private theorem findFreeVmaSpaceFrom_spec (task : MmapTask) (length base : Word)
    (noWrap : base.toNat + length.toNat < 2 ^ 64)
    (found : findFreeVmaSpaceFrom task length base ≠ 0#64) :
    let start := findFreeVmaSpaceFrom task length base
    start.toNat + length.toNat ≤ 0x3fffffc000 ∧ start.toNat % 4096 = base.toNat % 4096 ∧
      checkVmaOverlap task start (start + length) = false := by
  have bottom : userStack.toNat = 0x3fffffc000 := rfl
  induction base using findFreeVmaSpaceFrom.induct task length with
  | case1 base below overlap ih =>
    have stepped : findFreeVmaSpaceFrom task length base =
        findFreeVmaSpaceFrom task length (base + 4096#64) := by
      rw [findFreeVmaSpaceFrom, if_pos below, if_pos overlap]
    have sum : (base + length).toNat ≤ 0x3fffffc000 := below
    have next : (base + 4096#64).toNat = base.toNat + 4096 := by bv_omega
    rw [stepped] at found ⊢
    have rest := ih (by rw [BitVec.toNat_add] at sum; omega) found
    refine ⟨rest.1, ?_, rest.2.2⟩
    rw [rest.2.1, next]
    omega
  | case2 base below free =>
    have stops : findFreeVmaSpaceFrom task length base = base := by
      rw [findFreeVmaSpaceFrom, if_pos below, if_neg free]
    have sum : (base + length).toNat ≤ 0x3fffffc000 := below
    rw [stops]
    refine ⟨?_, rfl, by simpa using free⟩
    rw [BitVec.toNat_add, Nat.mod_eq_of_lt noWrap] at sum
    exact sum
  | case3 base above =>
    rw [findFreeVmaSpaceFrom, if_neg above] at found
    exact absurd rfl found

/-- From a base whose end wraps, the search of a valid table always succeeds, at the stack at the
latest, and the range it returns ends before it starts. -/
theorem findFreeVmaSpaceFrom_wraps {task : MmapTask} (valid : Valid task) (length base : Word)
    (wraps : 2 ^ 64 ≤ base.toNat + length.toNat) (aligned : base.toNat % 4096 = 0)
    (low : 0x60000000 ≤ base.toNat) (high : base.toNat ≤ 0x3fffffc000) :
    let start := findFreeVmaSpaceFrom task length base
    start ≠ 0#64 ∧ (start + length).toNat < start.toNat := by
  have bottom : userStack.toNat = 0x3fffffc000 := rfl
  induction base using findFreeVmaSpaceFrom.induct task length with
  | case1 base below overlap ih =>
    have stepped : findFreeVmaSpaceFrom task length base =
        findFreeVmaSpaceFrom task length (base + 4096#64) := by
      rw [findFreeVmaSpaceFrom, if_pos below, if_pos overlap]
    have notLast : base.toNat ≠ 0x3fffffc000 := by
      -- at the stack itself nothing overlaps a range that ends before it starts
      intro last
      have free : checkVmaOverlap task base (base + length) = false := by
        rw [checkVmaOverlap_false_iff]
        refine ⟨fun vma member => ?_, ?_, ?_⟩
        · have placed := valid.placed vma member
          have := placed.offStack
          have := placed.nonempty
          have := placed.userHalf
          omega
        · right
          have := length.isLt
          rw [BitVec.toNat_add]
          omega
        · have := task.codeSize_lt
          omega
      rw [free] at overlap
      exact absurd overlap (by decide)
    rw [stepped]
    apply ih
    · bv_omega
    · bv_omega
    · bv_omega
    · bv_omega
  | case2 base below free =>
    have stops : findFreeVmaSpaceFrom task length base = base := by
      rw [findFreeVmaSpaceFrom, if_pos below, if_neg free]
    rw [stops]
    constructor
    · intro zero
      rw [zero] at low
      exact absurd low (by decide)
    · have := length.isLt
      rw [BitVec.toNat_add]
      omega
  | case3 base above =>
    refine absurd ?_ above
    change (base + length).toNat ≤ userStack.toNat
    have := length.isLt
    rw [BitVec.toNat_add, bottom]
    omega

/-! ## One call -/

/-- The start address the call settles on; zero stands for none. -/
def startOf (task : MmapTask) (r : Request) : Word :=
  if hintRejected task r.addr r.pages then findFreeVmaSpace task r.pages else r.addr

/-- The region the call records. -/
def recorded (task : MmapTask) (r : Request) : VmArea :=
  ⟨startOf task r, startOf task r + r.pages, r.prot, r.flags⟩

/-- A call leaves the task alone or appends one region, whatever its allocations do. -/
theorem serve_eq (task : MmapTask) (r : Request) :
    serve task r =
      if 32 ≤ task.vmas.length ∨ r.pages = 0#64 ∨ startOf task r = 0#64 then task
      else { task with vmas := task.vmas ++ [recorded task r] } := by
  simp only [serve, sysMmap, recorded, startOf, Request.pages, ge_iff_le]
  split_ifs <;> simp_all

private theorem valid_append {task : MmapTask} (valid : Valid task) {vma : VmArea}
    (placed : WellPlaced task.codeSize.toNat vma) (apart : ∀ other ∈ task.vmas, Apart other vma) :
    Valid { task with vmas := task.vmas ++ [vma] } where
  placed := by
    intro other member
    rcases List.mem_append.mp member with old | new
    · exact valid.placed other old
    · rw [List.mem_singleton.mp new]
      exact placed
  apart := by
    refine List.pairwise_append.mpr ⟨valid.apart, List.pairwise_singleton _ _, ?_⟩
    intro other member new isNew
    rw [List.mem_singleton.mp isNew]
    exact apart other member

private theorem pages_aligned (r : Request) : r.pages.toNat % 4096 = 0 := by
  rw [Request.pages, toNat_align_page]
  omega

/-- A hint that is taken is a nonzero page address whose range the test lets through. -/
theorem hintRejected_false {task : MmapTask} {addr pages : Word}
    (taken : hintRejected task addr pages = false) :
    addr ≠ 0#64 ∧ addr.toNat % 4096 = 0 ∧ checkVmaOverlap task addr (addr + pages) = false := by
  simp only [hintRejected, Bool.or_eq_false_iff, decide_eq_false_iff_not, not_not] at taken
  refine ⟨taken.1.1, ?_, taken.2⟩
  have low := toNat_and_lowMask addr (k := 12) (by decide)
  rw [show BitVec.ofNat 64 (2 ^ 12 - 1) = 4095#64 from rfl, taken.1.2] at low
  simpa using low.symm

/-- The recorded region is well placed and apart from the others if and only if its end fits. -/
private theorem recorded_placed_iff {task : MmapTask} (valid : Valid task) (r : Request)
    (room : task.vmas.length < 32) (nonempty : r.pages ≠ 0#64)
    (chosen : startOf task r ≠ 0#64) : (WellPlaced task.codeSize.toNat (recorded task r) ∧
      ∀ other ∈ task.vmas, Apart other (recorded task r)) ↔
      EndFits task r := by
  have positive : 0 < r.pages.toNat := by
    have : r.pages.toNat ≠ 0 := fun zero => nonempty (BitVec.eq_of_toNat_eq zero)
    omega
  have pagesAligned := pages_aligned r
  have bound := r.pages.isLt
  by_cases rejected : hintRejected task r.addr r.pages = true
  · have start : startOf task r = findFreeVmaSpace task r.pages := by rw [startOf, if_pos rejected]
    have fits : EndFits task r ↔ 0x60000000 + r.pages.toNat < 2 ^ 64 := by
      simp only [EndFits, room, nonempty, rejected, ne_eq, not_false_eq_true,
        forall_const, ↓reduceIte]
    have base : (0x60000000#64).toNat = 0x60000000 := rfl
    rw [fits]
    constructor
    · rintro ⟨placed, -⟩
      by_contra wraps
      have ends := (findFreeVmaSpaceFrom_wraps valid r.pages 0x60000000#64 (by omega) (by decide)
        (by decide) (by decide)).2
      have nonemptyRange := placed.nonempty
      rw [recorded, start] at nonemptyRange
      exact absurd nonemptyRange (not_lt.mpr (le_of_lt ends))
    · intro noWrap
      rw [start] at chosen
      obtain ⟨below, aligned, free⟩ :=
        findFreeVmaSpaceFrom_spec task r.pages 0x60000000#64 (by omega) chosen
      have stop : (findFreeVmaSpace task r.pages + r.pages).toNat =
          (findFreeVmaSpace task r.pages).toNat + r.pages.toNat := by
        rw [BitVec.toNat_add]
        exact Nat.mod_eq_of_lt (by rw [findFreeVmaSpace]; omega)
      rw [findFreeVmaSpace] at stop
      apply wellPlaced_of_free
      · rw [recorded, start]; exact free
      · rw [recorded, start, findFreeVmaSpace]; dsimp only; omega
      · rw [recorded, start, findFreeVmaSpace]; dsimp only; omega
      · rw [recorded, start, findFreeVmaSpace]; dsimp only; omega
      · rw [recorded, start, findFreeVmaSpace]; dsimp only; omega
  · have taken : hintRejected task r.addr r.pages = false := Bool.eq_false_iff.mpr rejected
    have start : startOf task r = r.addr := by rw [startOf, if_neg rejected]
    have fits : EndFits task r ↔ r.addr.toNat + r.pages.toNat ≤ 0x4000000000 := by
      simp only [EndFits, room, nonempty, taken, ne_eq, not_false_eq_true, forall_const,
        Bool.false_eq_true, ↓reduceIte]
    obtain ⟨-, aligned, free⟩ := hintRejected_false taken
    rw [fits]
    constructor
    · rintro ⟨placed, -⟩
      have nonemptyRange := placed.nonempty
      have userHalf := placed.userHalf
      rw [recorded, start] at nonemptyRange userHalf
      dsimp only at nonemptyRange userHalf
      rw [BitVec.toNat_add] at nonemptyRange userHalf
      omega
    · intro inUser
      have stop : (r.addr + r.pages).toNat = r.addr.toNat + r.pages.toNat := by
        rw [BitVec.toNat_add]
        exact Nat.mod_eq_of_lt (by omega)
      apply wellPlaced_of_free
      · rw [recorded, start]; exact free
      · rw [recorded, start]; dsimp only; omega
      · rw [recorded, start]; dsimp only; omega
      · rw [recorded, start]; dsimp only; omega
      · rw [recorded, start]; dsimp only; omega

/-- When the search finds nothing, its length did not wrap. -/
theorem endFits_of_not_chosen {task : MmapTask} (valid : Valid task) (r : Request)
    (none : startOf task r = 0#64) : EndFits task r := by
  intro room nonempty
  split_ifs with rejected
  · by_contra wraps
    have base : (0x60000000#64).toNat = 0x60000000 := rfl
    have found := (findFreeVmaSpaceFrom_wraps valid r.pages 0x60000000#64 (by omega) (by decide)
      (by decide) (by decide)).1
    rw [startOf, if_pos rejected] at none
    exact found none
  · rw [startOf, if_neg rejected] at none
    exact absurd none (hintRejected_false (Bool.eq_false_iff.mpr rejected)).1

/-- From a valid table, a call leaves a valid table if and only if its end fits. -/
theorem sysMmap_valid_iff {task : MmapTask} (valid : Valid task) (r : Request) :
    Valid (serve task r) ↔ EndFits task r := by
  rw [serve_eq]
  split_ifs with refused
  · refine iff_of_true valid ?_
    rcases refused with full | empty | none
    · exact fun room => absurd full (not_le.mpr room)
    · exact fun _ nonempty => absurd empty nonempty
    · exact endFits_of_not_chosen valid r none
  · push Not at refused
    obtain ⟨room, nonempty, chosen⟩ := refused
    rw [← recorded_placed_iff valid r room nonempty chosen]
    constructor
    · intro after
      refine ⟨after.placed _ (List.mem_append_right _ (List.mem_singleton_self _)),
        fun other member => ?_⟩
      exact (List.pairwise_append.mp after.apart).2.2 other member _ (List.mem_singleton_self _)
    · rintro ⟨placed, apart⟩
      exact valid_append valid placed apart

/-- Where the recorded regions are in the user half, the table stays valid. -/
theorem serve_valid {task : MmapTask} (valid : Valid task) (r : Request)
    (inUserHalf : ∀ vma ∈ (serve task r).vmas, vma.start.toNat < vma.stop.toNat ∧
      vma.stop.toNat ≤ 0x4000000000) :
    Valid (serve task r) := by
  rw [sysMmap_valid_iff valid]
  by_cases chosen : startOf task r = 0#64
  · exact endFits_of_not_chosen valid r chosen
  intro room nonempty
  have member : recorded task r ∈ (serve task r).vmas := by
    rw [serve_eq, if_neg (by push Not; exact ⟨room, nonempty, chosen⟩)]
    exact List.mem_append_right _ List.mem_cons_self
  obtain ⟨ordered, below⟩ := inUserHalf _ member
  split_ifs with rejected
  · by_contra wraps
    have start : startOf task r = findFreeVmaSpace task r.pages := by rw [startOf, if_pos rejected]
    have bound := r.pages.isLt
    have base : (0x60000000#64).toNat = 0x60000000 := rfl
    have ends := (findFreeVmaSpaceFrom_wraps valid r.pages 0x60000000#64 (by omega) (by decide)
      (by decide) (by decide)).2
    rw [recorded, start] at ordered
    exact absurd ordered (not_lt.mpr (le_of_lt ends))
  · have start : startOf task r = r.addr := by rw [startOf, if_neg rejected]
    rw [recorded, start] at ordered below
    dsimp only at ordered below
    rw [BitVec.toNat_add] at ordered below
    have bound := r.pages.isLt
    omega

/-! ## Sequences of calls -/

/-- A process that has mapped nothing. -/
def Fresh (task : MmapTask) : Prop := task.vmas = []

theorem valid_of_fresh {task : MmapTask} (fresh : Fresh task) : Valid task where
  placed := by rw [fresh]; simp
  apart := by rw [fresh]; exact List.Pairwise.nil

theorem serveAll_snoc (task : MmapTask) (requests : List Request) (r : Request) :
    serveAll task (requests ++ [r]) = serve (serveAll task requests) r := by
  simp [serveAll]

/-- Along any sequence of calls from a fresh process, the table is valid in every state reached if
and only if the end of every request fits where it is served. -/
theorem vma_table_valid_iff (task : MmapTask) (fresh : Fresh task) (requests : List Request) :
    (∀ before, before <+: requests → Valid (serveAll task before)) ↔
      ∀ before r, before ++ [r] <+: requests → EndFits (serveAll task before) r := by
  constructor
  · intro valid before r within
    have here := valid before ((List.prefix_append before [r]).trans within)
    have next := valid (before ++ [r]) within
    rw [serveAll_snoc] at next
    exact (sysMmap_valid_iff here r).mp next
  · intro fits before
    induction before using List.reverseRecOn with
    | nil => exact fun _ => valid_of_fresh fresh
    | append_singleton before r ih =>
      intro within
      rw [serveAll_snoc]
      exact (sysMmap_valid_iff (ih ((List.prefix_append before [r]).trans within)) r).mpr
        (fits before r within)

/-- A process with a one-page program and no mappings. -/
def idleTask : MmapTask := ⟨[], 4096#64, by decide⟩

/-- One anonymous page, its hint the first address above the user half. -/
def kernelHint : Request := ⟨0x4000000000#64, 4096#64, 3#32, mapAnonymous, fun _ => none⟩

/-- The hint is taken although the region lies outside the user half. -/
theorem vma_table_escapes : ¬ ∀ (task : MmapTask) (_ : Fresh task) (requests : List Request),
    Valid (serveAll task requests) := by
  intro always
  have placed := (always idleTask rfl [kernelHint]).placed
    ⟨0x4000000000#64, 0x4000001000#64, 3#32, mapAnonymous⟩ (by decide)
  exact absurd placed.userHalf (by decide)

/-- One page at a hint inside the user half keeps the table valid. -/
theorem vma_table_valid_iff_one :
    let r : Request := ⟨0x10000000#64, 4096#64, 3#32, mapAnonymous, fun _ => none⟩
    Valid (serveAll idleTask [r]) := by
  intro r
  refine (vma_table_valid_iff idleTask rfl [r]).mpr ?_ [r] (List.prefix_refl _)
  intro before request within
  obtain ⟨rfl, rfl⟩ : before = [] ∧ request = r := by
    obtain ⟨rest, same⟩ := within
    cases before with
    | nil => exact ⟨rfl, by simpa using (List.cons.inj same).1⟩
    | cons first before => simp at same
  intro _ _
  decide

end OscKernel.Soundness.VmaTable
