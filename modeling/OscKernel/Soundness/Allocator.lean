import Mathlib.Data.Set.Lattice
import Mathlib.Order.CompletePartialOrder
import Mathlib.Order.Interval.Set.Basic
import OscKernel.Soundness.Startup

/-! # Safety of the memory allocator

What an allocation returns is a cell: a whole block, or a chunk of a page whose status is the chunk
size. Cells with different starts share no byte (`cell_disjoint`), so safety over runs needs only
that live pointers and free chunks are different cells of settled frames (`Sound`). One lemma per
call preserves this, and `allocator_safe` reads the statements about bytes off the invariant.
-/

namespace OscKernel.Soundness.Allocator

open OscKernel.Lib OscKernel.Model OscKernel.Model.Allocator

/-! ## Sizes and addresses -/

/-- `pools[pool].chunk_size`. -/
def chunkSize (pool : ℕ) : ℕ := poolSizes.getD pool 0

theorem chunkSize_spec : ∀ pool < 8, 16 ≤ chunkSize pool ∧
    4096 / chunkSize pool * chunkSize pool = 4096 ∧
    poolSizes.findIdx? (fun chunk => decide ((chunk : ℤ) = (chunkSize pool : ℤ))) = some pool := by
  decide

theorem chunkSize_injective : ∀ first < 8, ∀ second < 8, chunkSize first = chunkSize second →
    first = second := by
  decide

theorem poolFor_spec {size : ℕ} (small : size ≤ 2048) :
    ∃ pool < 8, poolFor size = some pool ∧ size ≤ chunkSize pool := by
  have present : (poolFor size).isSome := by
    rw [poolFor, List.findIdx?_isSome, List.any_eq_true]
    exact ⟨2048, by decide, by simpa using small⟩
  obtain ⟨pool, found⟩ := Option.isSome_iff_exists.mp present
  obtain ⟨inside, fits, -⟩ := List.findIdx?_eq_some_iff_getElem.mp found
  refine ⟨pool, inside, found, ?_⟩
  rw [chunkSize, List.getD_eq_getElem _ _ inside]
  simpa using fits

private theorem orderFor_spec {size : ℕ} (small : size ≤ 2 ^ 63) :
    ∃ order, orderFor size = some order ∧ size ≤ 4096 * 2 ^ order := by
  -- shifting 4096 stays below 2 ^ 64 up to order 51, where it reaches every size
  have general : ∀ shifts order, order + shifts = 64 → order ≤ 51 →
      ∃ k, orderLoop size order shifts = some k ∧ size ≤ 4096 * 2 ^ k := by
    intro shifts
    induction shifts with
    | zero => intro order sum bound; omega
    | succ shifts ih =>
      intro order sum bound
      have power : 2 ^ order ≤ 2 ^ 51 := Nat.pow_le_pow_right (by decide) bound
      have exact : 4096 * 2 ^ order % 2 ^ 64 = 4096 * 2 ^ order := Nat.mod_eq_of_lt (by omega)
      rw [orderLoop, exact]
      split
      · rename_i tooSmall
        have notLast : order ≠ 51 := by
          rintro rfl
          omega
        exact ih (order + 1) (by omega) (by omega)
      · rename_i enough
        exact ⟨order, rfl, by omega⟩
  exact general 64 0 rfl (by decide)

/-- The RAM of the allocator is a range of addresses that does not contain the null pointer. -/
def InSpace (a : Allocator) : Prop := 0 < a.baseAddr ∧ a.baseAddr + 4096 * a.totalPages ≤ 2 ^ 64

theorem frameAddr_eq {a : Allocator} (space : InSpace a) {idx : ℕ} (bound : idx < a.totalPages) :
    a.frameAddr idx = a.baseAddr + idx * 4096 := by
  have := space.2
  exact Nat.mod_eq_of_lt (by omega)

theorem frameIndex_eq {a : Allocator} (space : InSpace a) {idx offset : ℕ}
    (bound : idx < a.totalPages) (inside : offset < 4096) :
    a.frameIndex (a.baseAddr + idx * 4096 + offset) = idx := by
  have := space.2
  rw [frameIndex, show a.baseAddr + idx * 4096 + offset + (2 ^ 64 - a.baseAddr) =
    idx * 4096 + offset + 2 ^ 64 by omega, Nat.add_mod_right, Nat.mod_eq_of_lt (by omega)]
  omega

/-! ## Cells -/

/-- The bytes of a range. -/
def bytes (start length : ℕ) : Set ℕ := Set.Ico start (start + length)

/-- A unit of memory at `start`, on the block that `page` heads: the block itself, allocated or
free, or a chunk of a page given to a pool. -/
inductive Cell (a : Allocator) (page : ℕ) : ℕ → ℕ → Prop
  | block {order : ℕ} {status : ℤ} (bound : page < a.totalPages)
      (frame : a.frameArray page = ⟨order, status⟩)
      (whole : status = frameAlloc ∨ status = frameFree) :
      Cell a page (a.baseAddr + page * 4096) (4096 * 2 ^ order)
  | chunk {pool i : ℕ} (bound : page < a.totalPages) (valid : pool < 8)
      (frame : a.frameArray page = ⟨0, chunkSize pool⟩) (inside : i < 4096 / chunkSize pool) :
      Cell a page (a.baseAddr + page * 4096 + i * chunkSize pool) (chunkSize pool)

/-- A chunk lies inside its page. -/
theorem chunk_fits {pool i : ℕ} (valid : pool < 8) (inside : i < 4096 / chunkSize pool) :
    i * chunkSize pool + chunkSize pool ≤ 4096 := by
  have covers := (chunkSize_spec pool valid).2.1
  have := Nat.mul_le_mul_right (chunkSize pool) (Nat.succ_le_of_lt inside)
  rw [Nat.succ_mul] at this
  omega

theorem not_buddy_of_chunk {a : Allocator} {page pool : ℕ}
    (frame : a.frameArray page = ⟨0, chunkSize pool⟩) :
    (a.frameArray page).status ≠ frameBuddy := by
  rw [frame]
  have : (0 : ℤ) ≤ chunkSize pool := Int.natCast_nonneg _
  simp only [frameBuddy]
  omega

/-- A cell lies in the block of its page. -/
theorem Cell.bounds {a : Allocator} (wellFormed : WellFormed a) {page start length : ℕ}
    (cell : Cell a page start length) :
    page < a.totalPages ∧ (a.frameArray page).status ≠ frameBuddy ∧ ∃ k, Heads a page k ∧
      a.baseAddr + page * 4096 ≤ start ∧ start + length ≤ a.baseAddr + (page + 2 ^ k) * 4096 := by
  cases cell with
  | @block order status bound frame whole =>
    have head : (a.frameArray page).status ≠ frameBuddy := by
      rw [frame]
      rcases whole with rfl | rfl <;> simp [frameAlloc, frameFree, frameBuddy]
    exact ⟨bound, head, order, wellFormed.block bound (by rw [frame]) head, le_refl _, by omega⟩
  | @chunk pool i bound valid frame inside =>
    have head := not_buddy_of_chunk frame
    have fits := chunk_fits valid inside
    exact ⟨bound, head, 0, wellFormed.block bound (by rw [frame]; rfl) head, by omega, by omega⟩

/-- The status of a page cut into chunks is not that of a whole block. -/
theorem chunkSize_ne_whole {pool : ℕ} (valid : pool < 8) {status : ℤ}
    (whole : status = frameAlloc ∨ status = frameFree) : (chunkSize pool : ℤ) ≠ status := by
  have positive := (chunkSize_spec pool valid).1
  rcases whole with rfl | rfl
  · rw [frameAlloc]
    omega
  · rw [frameFree]
    omega

/-- Cells that start at different addresses share no byte. -/
theorem cell_disjoint {a : Allocator} (wellFormed : WellFormed a)
    {page page' start start' length length' : ℕ} (first : Cell a page start length)
    (second : Cell a page' start' length') (different : start ≠ start') :
    Disjoint (bytes start length) (bytes start' length') := by
  suffices apart : start + length ≤ start' ∨ start' + length' ≤ start by
    rw [Set.disjoint_left]
    intro b inFirst inSecond
    simp only [bytes, Set.mem_Ico] at inFirst inSecond
    omega
  obtain ⟨-, head, k, heads, low, high⟩ := first.bounds wellFormed
  obtain ⟨-, head', k', heads', low', high'⟩ := second.bounds wellFormed
  rcases eq_or_ne page page' with rfl | otherPage
  · cases first with
    | @block order status bound frame whole =>
      cases second with
      | block => exact absurd rfl different
      | @chunk pool i _ valid frame' inside =>
        rw [frame] at frame'
        exact absurd (congrArg Frame.status frame').symm (chunkSize_ne_whole valid whole)
    | @chunk pool i bound valid frame inside =>
      cases second with
      | @block order status _ frame' whole =>
        rw [frame] at frame'
        exact absurd (congrArg Frame.status frame') (chunkSize_ne_whole valid whole)
      | @chunk pool' i' _ valid' frame' inside' =>
        rw [frame] at frame'
        have sameStatus : (chunkSize pool : ℤ) = chunkSize pool' := congrArg Frame.status frame'
        have same : pool = pool' :=
          chunkSize_injective pool valid pool' valid' (by exact_mod_cast sameStatus)
        subst same
        have other : i ≠ i' := by
          rintro rfl
          exact different rfl
        rcases Nat.lt_or_gt_of_ne other with before | after
        · left
          have := Nat.mul_le_mul_right (chunkSize pool) (Nat.succ_le_of_lt before)
          rw [Nat.succ_mul] at this
          omega
        · right
          have := Nat.mul_le_mul_right (chunkSize pool) (Nat.succ_le_of_lt after)
          rw [Nat.succ_mul] at this
          omega
  · rcases heads_disjoint heads heads' head head' otherPage with before | after
    · left
      omega
    · right
      omega

/-- A cell starts in its page. -/
theorem Cell.inPage {a : Allocator} {page start length : ℕ} (cell : Cell a page start length) :
    page < a.totalPages ∧ ∃ offset < 4096, start = a.baseAddr + page * 4096 + offset := by
  cases cell with
  | block bound => exact ⟨bound, 0, by decide, rfl⟩
  | @chunk pool i bound valid _ inside =>
    have fits := chunk_fits valid inside
    have positive := (chunkSize_spec pool valid).1
    exact ⟨bound, i * chunkSize pool, by omega, rfl⟩

theorem Cell.frameIndex {a : Allocator} (space : InSpace a) {page start length : ℕ}
    (cell : Cell a page start length) : a.frameIndex start = page := by
  obtain ⟨bound, offset, inside, rfl⟩ := cell.inPage
  exact frameIndex_eq space bound inside

theorem Cell.transport {a a' : Allocator} {page start length : ℕ} (cell : Cell a page start length)
    (base : a'.baseAddr = a.baseAddr) (total : a'.totalPages = a.totalPages)
    (frame : a'.frameArray page = a.frameArray page) : Cell a' page start length := by
  cases cell with
  | block bound old whole =>
    rw [← base]
    exact .block (total ▸ bound) (frame.trans old) whole
  | chunk bound valid old inside =>
    rw [← base]
    exact .chunk (total ▸ bound) valid (frame.trans old) inside

/-! ## The invariant of a run -/

/-- What the caller of `allocate` is given: the whole block of the order that was asked for, or a
chunk of the pool. -/
def extent (size : ℕ) : ℕ :=
  if size > 2048 then
    match orderFor size with
    | some order => 4096 * 2 ^ order
    | none => 0
  else
    match poolFor size with
    | some pool => chunkSize pool
    | none => 0

/-- A cell whose frame its owner relies on. -/
def LiveCell (a : Allocator) (start length : ℕ) : Prop :=
  ∃ page, Cell a page start length ∧ Settled (a.frameArray page)

def FreeChunk (a : Allocator) (pool node : ℕ) : Prop :=
  ∃ page i, page < a.totalPages ∧ a.frameArray page = ⟨0, chunkSize pool⟩ ∧
    i < 4096 / chunkSize pool ∧
    node = a.baseAddr + page * 4096 + i * chunkSize pool

theorem settled_of_chunk {a : Allocator} {page pool : ℕ} (valid : pool < 8)
    (frame : a.frameArray page = ⟨0, chunkSize pool⟩) : Settled (a.frameArray page) := by
  refine ⟨?_, not_buddy_of_chunk frame⟩
  have positive := (chunkSize_spec pool valid).1
  rw [frame]
  simp only [frameFree]
  omega

theorem FreeChunk.cell {a : Allocator} {pool node : ℕ} (valid : pool < 8)
    (chunk : FreeChunk a pool node) :
    LiveCell a node (chunkSize pool) := by
  obtain ⟨page, i, bound, frame, inside, rfl⟩ := chunk
  exact ⟨page, .chunk bound valid frame inside, settled_of_chunk valid frame⟩

/-- The invariant: `live` holds the pointers handed out and not freed since, with their sizes. -/
structure Sound (started a : Allocator) (live : List (ℕ × ℕ)) : Prop where
  space : InSpace a
  base : a.baseAddr = started.baseAddr
  total : a.totalPages = started.totalPages
  wellFormed : WellFormed a
  reserved : ∀ page, (started.frameArray page).status = frameReserved →
    (a.frameArray page).status = frameReserved
  covers : ∀ e ∈ live, e.2 ≤ extent e.2
  cells : ∀ e ∈ live, LiveCell a e.1 (extent e.2)
  chunks : ∀ pool < 8, ∀ node ∈ a.poolFreeList pool, FreeChunk a pool node
  distinct : (live.map Prod.fst).Nodup
  poolNodup : ∀ pool < 8, (a.poolFreeList pool).Nodup
  apart : ∀ ptr ∈ live.map Prod.fst, ∀ pool < 8, ptr ∉ a.poolFreeList pool

/-- No live pointer and no free chunk lies in the page. -/
def Unused (a : Allocator) (live : List (ℕ × ℕ)) (page : ℕ) : Prop :=
  ∀ offset < 4096, a.baseAddr + page * 4096 + offset ∉ live.map Prod.fst ∧
    ∀ pool < 8, a.baseAddr + page * 4096 + offset ∉ a.poolFreeList pool

section Steps

variable {started a b : Allocator} {live : List (ℕ × ℕ)} {page pool order size : ℕ}

theorem Sound.unused (sound : Sound started a live) (bound : page < a.totalPages)
    (fresh : ¬ Settled (a.frameArray page)) : Unused a live page := by
  have outside : ∀ {offset length}, offset < 4096 →
      ¬ LiveCell a (a.baseAddr + page * 4096 + offset) length := by
    rintro offset length inside ⟨other, cell, settled⟩
    have index := cell.frameIndex sound.space
    rw [frameIndex_eq sound.space bound inside] at index
    exact fresh (index ▸ settled)
  intro offset inside
  refine ⟨fun member => ?_, fun pool valid member => ?_⟩
  · obtain ⟨e, present, same⟩ := List.mem_map.mp member
    have cell := sound.cells e present
    rw [same] at cell
    exact outside inside cell
  · exact outside inside ((sound.chunks pool valid _ member).cell valid)

/-- A cell whose start is live or on a pool lies outside an unused page. -/
theorem Unused.off (unused : Unused a live page) {start length other : ℕ}
    (cell : Cell a other start length)
    (present : start ∈ live.map Prod.fst ∨ ∃ pool < 8, start ∈ a.poolFreeList pool) :
    other ≠ page := by
  rintro rfl
  obtain ⟨-, offset, inside, rfl⟩ := cell.inPage
  obtain ⟨notLive, notFree⟩ := unused offset inside
  rcases present with inLive | ⟨pool, valid, inPool⟩
  · exact notLive inLive
  · exact notFree pool valid inPool

/-- What lives on settled frames survives a change that keeps those frames, an allocated block apart
that nobody uses. -/
theorem Sound.keep (sound : Sound started a live) (wellFormed : WellFormed b)
    (base : b.baseAddr = a.baseAddr) (total : b.totalPages = a.totalPages)
    (pools : b.poolFreeList = a.poolFreeList)
    (kept : ∀ j, Settled (a.frameArray j) → b.frameArray j = a.frameArray j ∨
      Unused a live j ∧ (a.frameArray j).status = frameAlloc) : Sound started b live where
  space := by
    rw [InSpace, base, total]
    exact sound.space
  base := base.trans sound.base
  total := total.trans sound.total
  wellFormed := wellFormed
  reserved page marked := by
    have status := sound.reserved page marked
    rcases kept page (by simp [Settled, status, frameReserved, frameFree, frameBuddy]) with
      same | ⟨-, allocated⟩
    · rw [same, status]
    · rw [status] at allocated
      exact absurd allocated (by decide)
  covers := sound.covers
  cells e member := by
    obtain ⟨page, cell, settled⟩ := sound.cells e member
    rcases kept page settled with same | ⟨unused, -⟩
    · exact ⟨page, cell.transport base total same, same ▸ settled⟩
    · exact absurd rfl (unused.off cell (.inl (List.mem_map_of_mem member)))
  chunks pool valid node member := by
    rw [pools] at member
    obtain ⟨page, i, bound, frame, inside, rfl⟩ := sound.chunks pool valid node member
    rcases kept page (settled_of_chunk valid frame) with same | ⟨unused, -⟩
    · exact ⟨page, i, total ▸ bound, same.trans frame, inside, by rw [base]⟩
    · exact absurd rfl (unused.off (.chunk bound valid frame inside) (.inr ⟨pool, valid, member⟩))
  distinct := sound.distinct
  poolNodup := pools ▸ sound.poolNodup
  apart := pools ▸ sound.apart

/-- The state after `buddy_alloc` found a block. -/
theorem Sound.take (sound : Sound started a live) (bound : page < a.totalPages)
    (fresh : ¬ Settled (a.frameArray page)) (calm : Calm a b)
    (wellFormed : WellFormed (b.setFrame page ⟨order, frameAlloc⟩)) :
    Sound started (b.setFrame page ⟨order, frameAlloc⟩) live ∧
      Unused (b.setFrame page ⟨order, frameAlloc⟩) live page := by
  constructor
  · apply sound.keep wellFormed calm.baseAddr calm.totalPages calm.poolFreeList
    intro j settled
    have other : j ≠ page := by
      rintro rfl
      exact fresh settled
    exact .inl (by rw [setFrame_frame_of_ne _ _ _ _ other, calm.kept j (.inl settled)])
  · have unused := sound.unused bound fresh
    rw [Unused, ← calm.baseAddr, ← calm.poolFreeList] at unused
    exact unused

/-- Handing out a cell that nobody has. -/
theorem Sound.give (sound : Sound started a live) {ptr : ℕ} (covers : size ≤ extent size)
    (cell : LiveCell a ptr (extent size)) (new : ptr ∉ live.map Prod.fst)
    (apart : ∀ pool < 8, ptr ∉ a.poolFreeList pool) : Sound started a ((ptr, size) :: live) where
  space := sound.space
  base := sound.base
  total := sound.total
  wellFormed := sound.wellFormed
  reserved := sound.reserved
  covers := List.forall_mem_cons.mpr ⟨covers, sound.covers⟩
  cells := List.forall_mem_cons.mpr ⟨cell, sound.cells⟩
  chunks := sound.chunks
  distinct := List.nodup_cons.mpr ⟨new, sound.distinct⟩
  poolNodup := sound.poolNodup
  apart := List.forall_mem_cons.mpr ⟨apart, sound.apart⟩

/-- Taking back a live pointer. -/
theorem Sound.withdraw (sound : Sound started a live) {e : ℕ × ℕ} (member : e ∈ live) :
    Sound started a (live.erase e) ∧ e.1 ∉ (live.erase e).map Prod.fst := by
  have remains : ∀ {other}, other ∈ live.erase e → other ∈ live := List.mem_of_mem_erase
  have split := ((List.perm_cons_erase member).map Prod.fst).nodup sound.distinct
  rw [List.map_cons, List.nodup_cons] at split
  refine ⟨⟨sound.space, sound.base, sound.total, sound.wellFormed, sound.reserved,
    fun other inside => sound.covers other (remains inside),
    fun other inside => sound.cells other (remains inside), sound.chunks, split.2, sound.poolNodup,
    fun ptr inside => ?_⟩, split.1⟩
  obtain ⟨other, member, rfl⟩ := List.mem_map.mp inside
  exact sound.apart other.1 (List.mem_map_of_mem (remains member))

/-- A page in hand becomes the chunks of an empty pool. -/
theorem Sound.refill (sound : Sound started a live) (bound : page < a.totalPages) (valid : pool < 8)
    (frame : a.frameArray page = ⟨0, frameAlloc⟩) (unused : Unused a live page)
    (empty : a.poolFreeList pool = []) :
    Sound started (a.refill pool (chunkSize pool) (a.frameAddr page)) live ∧
      (a.refill pool (chunkSize pool) (a.frameAddr page)).poolFreeList pool ≠ [] := by
  obtain ⟨positive, whole, -⟩ := chunkSize_spec pool valid
  have index : a.frameIndex (a.frameAddr page) = page := by
    rw [frameAddr_eq sound.space bound]
    exact frameIndex_eq sound.space bound (show 0 < 4096 by decide)
  generalize chunksEq : (List.range (4096 / chunkSize pool)).map
    (fun i => a.baseAddr + page * 4096 + i * chunkSize pool) = chunks
  have refilled : a.refill pool (chunkSize pool) (a.frameAddr page) =
      { a.setFrame page ⟨0, chunkSize pool⟩ with
        poolFreeList := Function.update a.poolFreeList pool chunks
        poolFreelistSize := Function.update a.poolFreelistSize pool
          (a.poolFreelistSize pool + (4096 / chunkSize pool : ℕ)) } := by
    rw [Allocator.refill, index]
    simp only [frame, empty, List.nil_append, frameAddr_eq sound.space bound, chunksEq, setFrame]
  have member_chunks : ∀ {node}, node ∈ chunks ↔ ∃ i < 4096 / chunkSize pool,
      a.baseAddr + page * 4096 + i * chunkSize pool = node := by
    intro node
    rw [← chunksEq]
    simp only [List.mem_map, List.mem_range]
  have retagged : WellFormed (a.setFrame page ⟨0, chunkSize pool⟩) := by
    apply sound.wellFormed.retag (k := 0) frame (by decide) (by decide)
    simp only [frameFree]
    omega
  have kept : ∀ {other : ℕ}, other ≠ page →
      (a.setFrame page ⟨0, chunkSize pool⟩).frameArray other = a.frameArray other :=
    fun other => setFrame_frame_of_ne _ _ _ _ other
  rw [refilled]
  refine ⟨⟨sound.space, sound.base, sound.total,
    ⟨retagged.heads, retagged.listed, retagged.nodup, retagged.size⟩, fun other marked => ?_,
    sound.covers, fun e member => ?_, fun other validOther node member => ?_, sound.distinct,
    fun other validOther => ?_, fun ptr member other validOther => ?_⟩, ?_⟩
  · have status := sound.reserved other marked
    have different : other ≠ page := by
      rintro rfl
      rw [frame] at status
      exact absurd status (by decide)
    rw [← status]
    exact congrArg Frame.status (kept different)
  · obtain ⟨other, cell, settled⟩ := sound.cells e member
    have different := unused.off cell (.inl (List.mem_map_of_mem member))
    exact ⟨other, cell.transport rfl rfl (kept different), (kept different).symm ▸ settled⟩
  · change node ∈ Function.update a.poolFreeList pool chunks other at member
    rcases eq_or_ne other pool with rfl | otherPool
    · rw [Function.update_self, member_chunks] at member
      obtain ⟨i, inside, rfl⟩ := member
      exact ⟨page, i, bound, setFrame_frame_self _ _ _, inside, rfl⟩
    · rw [Function.update_of_ne otherPool] at member
      obtain ⟨home, i, boundHome, frameHome, inside, start⟩ :=
        sound.chunks other validOther node member
      have different : home ≠ page := by
        rw [start] at member
        exact unused.off (.chunk boundHome validOther frameHome inside)
          (.inr ⟨other, validOther, member⟩)
      exact ⟨home, i, boundHome, (kept different).trans frameHome, inside, start⟩
  · change (Function.update a.poolFreeList pool chunks other).Nodup
    rcases eq_or_ne other pool with rfl | otherPool
    · rw [Function.update_self, ← chunksEq]
      apply List.nodup_range.map
      intro i j same
      exact Nat.eq_of_mul_eq_mul_right (by omega : 0 < chunkSize other) (Nat.add_left_cancel same)
    · rw [Function.update_of_ne otherPool]
      exact sound.poolNodup other validOther
  · change ptr ∉ Function.update a.poolFreeList pool chunks other
    rcases eq_or_ne other pool with rfl | otherPool
    · rw [Function.update_self, member_chunks]
      rintro ⟨i, inside, rfl⟩
      have fits := chunk_fits valid inside
      exact (unused (i * chunkSize other) (by omega)).1 member
    · rw [Function.update_of_ne otherPool]
      exact sound.apart ptr member other validOther
  · change Function.update a.poolFreeList pool chunks pool ≠ []
    rw [Function.update_self, ← chunksEq]
    have : 4096 / chunkSize pool ≠ 0 := by
      intro none
      rw [none] at whole
      omega
    simpa using this

/-- The first chunk of a pool goes to the caller. -/
theorem Sound.takeChunk (sound : Sound started a live) (valid : pool < 8)
    (nonempty : a.poolFreeList pool ≠ []) (covers : size ≤ extent size)
    (length : extent size = chunkSize pool) :
    ∃ ptr a', a.takeChunk pool = some (some ptr, a') ∧ Sound started a' ((ptr, size) :: live) := by
  obtain ⟨node, rest, list⟩ := List.exists_cons_of_ne_nil nonempty
  have member : node ∈ a.poolFreeList pool := by simp [list]
  have nodup := sound.poolNodup pool valid
  rw [list, List.nodup_cons] at nodup
  have cell := (sound.chunks pool valid node member).cell valid
  refine ⟨node, _, by rw [Allocator.takeChunk, list], ?_⟩
  have smaller : ∀ {other ptr}, ptr ∈ Function.update a.poolFreeList pool rest other →
      ptr ∈ a.poolFreeList other := by
    intro other ptr inside
    rcases eq_or_ne other pool with rfl | otherPool
    · rw [Function.update_self] at inside
      rw [list]
      exact List.mem_cons_of_mem _ inside
    · rwa [Function.update_of_ne otherPool] at inside
  apply Sound.give
  · refine ⟨sound.space, sound.base, sound.total,
      ⟨sound.wellFormed.heads, sound.wellFormed.listed, sound.wellFormed.nodup,
        sound.wellFormed.size⟩, sound.reserved, sound.covers, fun e inside => ?_,
      fun other validOther ptr inside => ?_, sound.distinct, fun other validOther => ?_,
      fun ptr inLive other validOther inside => ?_⟩
    · obtain ⟨page, cell, settled⟩ := sound.cells e inside
      exact ⟨page, cell.transport rfl rfl rfl, settled⟩
    · exact sound.chunks other validOther ptr (smaller inside)
    · change (Function.update a.poolFreeList pool rest other).Nodup
      rcases eq_or_ne other pool with rfl | otherPool
      · rw [Function.update_self]
        exact nodup.2
      · rw [Function.update_of_ne otherPool]
        exact sound.poolNodup other validOther
    · exact sound.apart ptr inLive other validOther (smaller inside)
  · exact covers
  · obtain ⟨page, cell, settled⟩ := cell
    exact ⟨page, length ▸ cell.transport rfl rfl rfl, settled⟩
  · intro inLive
    exact sound.apart node inLive pool valid member
  · intro other validOther inside
    rcases eq_or_ne other pool with rfl | otherPool
    · change node ∈ Function.update a.poolFreeList other rest other at inside
      rw [Function.update_self] at inside
      exact nodup.1 inside
    · -- chunks of different pools lie in pages of different status
      obtain ⟨page, i, bound, frame, inPage, start⟩ := sound.chunks pool valid node member
      obtain ⟨page', i', bound', frame', inPage', start'⟩ :=
        sound.chunks other validOther node (smaller inside)
      have index := (Cell.chunk bound valid frame inPage).frameIndex sound.space
      have index' := (Cell.chunk bound' validOther frame' inPage').frameIndex sound.space
      rw [← start] at index
      rw [← start', index] at index'
      rw [← index', frame] at frame'
      have same : (chunkSize pool : ℤ) = chunkSize other := congrArg Frame.status frame'
      exact otherPool
        (chunkSize_injective other validOther pool valid (by exact_mod_cast same.symm))

/-- A chunk that nobody has any more goes back to its pool. -/
theorem Sound.putChunk (sound : Sound started a live) (valid : pool < 8) {node : ℕ}
    (chunk : FreeChunk a pool node) (gone : node ∉ live.map Prod.fst)
    (absent : node ∉ a.poolFreeList pool) :
    Sound started (a.putChunk pool node) live := by
  have larger : ∀ {other ptr}, ptr ∈
      Function.update a.poolFreeList pool (node :: a.poolFreeList pool) other →
      ptr ∈ a.poolFreeList other ∨ ptr = node ∧ other = pool := by
    intro other ptr inside
    rcases eq_or_ne other pool with rfl | otherPool
    · rw [Function.update_self, List.mem_cons] at inside
      exact inside.symm.imp_right fun same => ⟨same, rfl⟩
    · rw [Function.update_of_ne otherPool] at inside
      exact .inl inside
  refine ⟨sound.space, sound.base, sound.total,
    ⟨sound.wellFormed.heads, sound.wellFormed.listed, sound.wellFormed.nodup,
      sound.wellFormed.size⟩, sound.reserved, sound.covers, fun e inside => ?_,
    fun other validOther ptr inside => ?_, sound.distinct, fun other validOther => ?_,
    fun ptr inLive other validOther inside => ?_⟩
  · obtain ⟨page, cell, settled⟩ := sound.cells e inside
    exact ⟨page, cell.transport rfl rfl rfl, settled⟩
  · rcases larger inside with old | ⟨rfl, rfl⟩
    · exact sound.chunks other validOther ptr old
    · exact chunk
  · change (Function.update a.poolFreeList pool (node :: a.poolFreeList pool) other).Nodup
    rcases eq_or_ne other pool with rfl | otherPool
    · rw [Function.update_self]
      exact List.nodup_cons.mpr ⟨absent, sound.poolNodup other validOther⟩
    · rw [Function.update_of_ne otherPool]
      exact sound.poolNodup other validOther
  · rcases larger inside with old | ⟨rfl, rfl⟩
    · exact sound.apart ptr inLive other validOther old
    · exact gone inLive

/-- What a call of `allocate` leaves: either nothing changed, or one more live pointer. -/
inductive Served (started a : Allocator) (live : List (ℕ × ℕ)) (size : ℕ) :
    Option ℕ × Allocator → Prop
  | null : Served started a live size (none, a)
  | pointer {ptr : ℕ} {a' : Allocator} (sound : Sound started a' ((ptr, size) :: live)) :
      Served started a live size (some ptr, a')

theorem Sound.allocate (sound : Sound started a live) (small : size ≤ 2 ^ 63) :
    ∃ outcome, a.allocate size = some outcome ∧ Served started a live size outcome := by
  rw [Allocator.allocate]
  split
  · rename_i large
    obtain ⟨order, found, covers⟩ := orderFor_spec small
    have length : extent size = 4096 * 2 ^ order := by simp [extent, large, found]
    refine ⟨_, by rw [found, Option.map_some], ?_⟩
    have outcome := buddyAlloc_spec sound.wellFormed order
    generalize a.buddyAlloc order = searched at outcome ⊢
    cases outcome with
    | failed => exact .null
    | @block b page bound fresh calm wellFormed =>
      obtain ⟨taken, unused⟩ := sound.take bound fresh calm wellFormed
      obtain ⟨notLive, notFree⟩ := unused 0 (by decide)
      have boundB : page < (b.setFrame page ⟨order, frameAlloc⟩).totalPages :=
        calm.totalPages ▸ bound
      have frame : (b.setFrame page ⟨order, frameAlloc⟩).frameArray page = ⟨order, frameAlloc⟩ :=
        setFrame_frame_self _ _ _
      have address : a.frameAddr page =
          (b.setFrame page ⟨order, frameAlloc⟩).baseAddr + page * 4096 := by
        rw [frameAddr_eq sound.space bound, setFrame_baseAddr, calm.baseAddr]
      apply Served.pointer
      rw [address]
      apply taken.give (length ▸ covers) ?_ notLive notFree
      rw [length]
      exact ⟨page, .block boundB frame
        (.inl rfl), by simp [Settled, frameAlloc, frameFree, frameBuddy]⟩
  · rename_i notLarge
    obtain ⟨pool, valid, found, covers⟩ := poolFor_spec (not_lt.mp notLarge)
    have length : extent size = chunkSize pool := by simp [extent, notLarge, found]
    rw [found]
    simp only
    split
    · rename_i empty
      have outcome := buddyAlloc_spec sound.wellFormed 0
      generalize a.buddyAlloc 0 = searched at outcome ⊢
      cases outcome with
      | failed => exact ⟨_, rfl, .null⟩
      | @block b page bound fresh calm wellFormed =>
        obtain ⟨taken, unused⟩ := sound.take bound fresh calm wellFormed
        have frame : (b.setFrame page ⟨(0 : ℕ), frameAlloc⟩).frameArray page = ⟨0, frameAlloc⟩ :=
          setFrame_frame_self _ _ _
        have total : (b.setFrame page ⟨(0 : ℕ), frameAlloc⟩).totalPages = a.totalPages :=
          calm.totalPages
        have pools : (b.setFrame page ⟨(0 : ℕ), frameAlloc⟩).poolFreeList = a.poolFreeList :=
          calm.poolFreeList
        generalize b.setFrame page ⟨(0 : ℕ), frameAlloc⟩ = c at taken unused frame total pools ⊢
        have address : a.frameAddr page = c.frameAddr page := by
          rw [frameAddr_eq sound.space bound,
            frameAddr_eq taken.space (total ▸ bound), sound.base, taken.base]
        obtain ⟨refilled, nonempty⟩ :=
          taken.refill (total ▸ bound) valid frame unused (by rw [pools, empty])
        obtain ⟨ptr, a', result, next⟩ := refilled.takeChunk valid nonempty (length ▸ covers) length
        rw [← address] at result
        exact ⟨_, result, .pointer next⟩
    · rename_i nonempty
      obtain ⟨ptr, a', result, next⟩ := sound.takeChunk valid nonempty (length ▸ covers) length
      exact ⟨_, result, .pointer next⟩

theorem Sound.free (sound : Sound started a live) {e : ℕ × ℕ} (member : e ∈ live) :
    ∃ a', a.free e.1 = some a' ∧ Sound started a' (live.erase e) := by
  obtain ⟨page, cell, settled⟩ := sound.cells e member
  obtain ⟨withdrawn, gone⟩ := sound.withdraw member
  have index := cell.frameIndex sound.space
  have notNull : e.1 ≠ 0 := by
    obtain ⟨-, offset, -, start⟩ := cell.inPage
    have := sound.space.1
    omega
  rw [Allocator.free, if_neg notNull, index]
  generalize lengthEq : extent e.2 = length at cell
  generalize startEq : e.1 = start at cell gone index ⊢
  cases cell with
  | @block order status bound frame whole =>
    have allocated : status = frameAlloc := by
      rcases whole with rfl | rfl
      · rfl
      · rw [frame] at settled
        exact absurd rfl settled.1
    subst allocated
    obtain ⟨a', result, wellFormed, calm⟩ := buddyFree_spec sound.wellFormed index bound frame
    refine ⟨a', by simp only [frame, if_true, result], ?_⟩
    have unused : Unused a (live.erase e) page := by
      -- another cell of this page would be the same block, and a chunk has another status
      intro offset inside
      have samePage : ∀ {other : ℕ}, a.frameIndex (a.baseAddr + page * 4096 + offset) = other →
          other = page :=
        fun index => index ▸ frameIndex_eq sound.space bound inside
      refine ⟨fun present => ?_, fun pool valid present => ?_⟩
      · obtain ⟨other, remains, same⟩ := List.mem_map.mp present
        obtain ⟨home, otherCell, -⟩ := withdrawn.cells other remains
        rw [same] at otherCell
        obtain rfl := samePage (otherCell.frameIndex sound.space)
        generalize extent other.2 = otherLength at otherCell
        generalize otherStart : a.baseAddr + home * 4096 + offset = start at otherCell
        cases otherCell with
        | block => exact gone (List.mem_map.mpr ⟨other, remains, same.trans otherStart⟩)
        | @chunk pool i _ valid frame' _ =>
          rw [frame] at frame'
          have status : frameAlloc = (chunkSize pool : ℤ) := congrArg Frame.status frame'
          simp only [frameAlloc] at status
          omega
      · obtain ⟨home, i, boundHome, frame', inPage, start⟩ := sound.chunks pool valid _ present
        have index := (Cell.chunk boundHome valid frame' inPage).frameIndex sound.space
        rw [← start] at index
        obtain rfl := samePage index
        rw [frame] at frame'
        have status : frameAlloc = (chunkSize pool : ℤ) := congrArg Frame.status frame'
        simp only [frameAlloc] at status
        omega
    apply withdrawn.keep wellFormed calm.baseAddr calm.totalPages calm.poolFreeList
    intro j settledJ
    rcases eq_or_ne j page with rfl | other
    · exact .inr ⟨unused, by rw [frame]⟩
    · left
      have same := setFrame_frame_of_ne a page j ⟨-1, frameBuddy⟩ other
      rw [calm.kept j (.inl (same ▸ settledJ)), same]
  | @chunk pool i bound valid frame inside =>
    obtain ⟨positive, -, search⟩ := chunkSize_spec pool valid
    have notBlock : (chunkSize pool : ℤ) ≠ frameAlloc := by
      simp only [frameAlloc]
      omega
    refine ⟨a.putChunk pool (a.baseAddr + page * 4096 + i * chunkSize pool), ?_, ?_⟩
    · simp only [frame, notBlock, if_false, ge_iff_le]
      rw [if_pos (by omega), search]
    · exact withdrawn.putChunk valid ⟨page, i, bound, frame, inside, rfl⟩ gone
        (startEq ▸ sound.apart e.1 (List.mem_map_of_mem member) pool valid)

end Steps

/-! ## Startup -/

/-- RAM as `memory_init` passes it: a range of the linear map. -/
structure Ram (start size : Word) : Prop where
  linear : pageOffset.toNat ≤ start.toNat
  fits : start.toNat + size.toNat ≤ 2 ^ 64

private theorem startupAllocator_spec {start size kernelEnd : Word} (ram : Ram start size)
    {regions : List ReservedRegion} {fuel : ℕ} {started : Allocator}
    (boot : startupAllocator start size kernelEnd regions fuel = some started) :
    InSpace started ∧ WellFormed started := by
  obtain ⟨metadata, -, left⟩ := started_of_boot boot
  have low := ram.linear
  have high := ram.fits
  have pages : ((size / pageSize).setWidth 32).toNat ≤ size.toNat / 4096 := by
    rw [BitVec.toNat_setWidth, BitVec.toNat_udiv]
    exact Nat.mod_le _ _
  have positive : 0 < pageOffset.toNat := by decide
  refine ⟨?_, left.wellFormed⟩
  rw [InSpace, left.baseAddr, left.totalPages]
  omega

/-! ## Runs -/

structure State where
  allocator : Allocator
  live : List (ℕ × ℕ)

inductive Call where
  | allocate (size : ℕ)
  | free (ptr : ℕ)

/-- A call of `allocate` with a size up to `2 ^ 63`, or of `free` with a live pointer. -/
inductive Step : State → Call → State → Prop
  | returned {s : State} {size ptr : ℕ} {a : Allocator} (small : size ≤ 2 ^ 63)
      (result : s.allocator.allocate size = some (some ptr, a)) :
      Step s (.allocate size) ⟨a, (ptr, size) :: s.live⟩
  | failed {s : State} {size : ℕ} {a : Allocator} (small : size ≤ 2 ^ 63)
      (result : s.allocator.allocate size = some (none, a)) : Step s (.allocate size) ⟨a, s.live⟩
  | free {s : State} {ptr size : ℕ} {a : Allocator} (member : (ptr, size) ∈ s.live)
      (result : s.allocator.free ptr = some a) : Step s (.free ptr) ⟨a, s.live.erase (ptr, size)⟩

def calls : System State Call := ⟨Step⟩

/-- What safety says of one state of a run. -/
structure Safe (started : Allocator) (s : State) : Prop where
  covers : ∀ e ∈ s.live, e.2 ≤ extent e.2
  inRam : ∀ e ∈ s.live, ∀ b ∈ bytes e.1 (extent e.2), ∃ page < started.totalPages,
    (started.frameArray page).status ≠ frameReserved ∧
    b ∈ bytes (started.baseAddr + page * 4096) 4096
  disjoint : s.live.Pairwise fun e f => Disjoint (bytes e.1 (extent e.2)) (bytes f.1 (extent f.2))
  offBlocks : ∀ e ∈ s.live, ∀ order, ∀ idx ∈ s.allocator.freelists order,
    Disjoint (bytes e.1 (extent e.2)) (bytes (s.allocator.frameAddr idx) (4096 * 2 ^ order))
  offChunks : ∀ e ∈ s.live, ∀ pool < 8, ∀ node ∈ s.allocator.poolFreeList pool,
    Disjoint (bytes e.1 (extent e.2)) (bytes node (chunkSize pool))
  allocates : ∀ size ≤ 2 ^ 63, ∃ result a, s.allocator.allocate size = some (result, a) ∧
    (result = none → a = s.allocator)
  frees : ∀ e ∈ s.live, ∃ a, s.allocator.free e.1 = some a

theorem Sound.safe {started : Allocator} {s : State} (sound : Sound started s.allocator s.live) :
    Safe started s where
  covers := sound.covers
  inRam e member b inside := by
    obtain ⟨page, cell, settled⟩ := sound.cells e member
    obtain ⟨bound, head, k, heads, low, high⟩ := cell.bounds sound.wellFormed
    simp only [bytes, Set.mem_Ico] at inside ⊢
    have fits := heads.2.2.1
    have base := sound.base
    have total := sound.total
    have notReserved : ∀ j, page ≤ j → j < page + 2 ^ k →
        (s.allocator.frameArray j).status ≠ frameReserved := by
      intro j start inside
      rcases eq_or_lt_of_le start with rfl | after
      · generalize extent e.2 = length at cell
        generalize e.1 = first at cell
        cases cell with
        | block _ frame whole =>
          rw [frame]
          rcases whole with rfl | rfl <;> simp [frameAlloc, frameFree, frameReserved]
        | @chunk pool _ _ _ frame _ =>
          rw [frame]
          simp only [frameReserved]
          omega
      · rw [heads.2.2.2 j after inside]
        decide
    refine ⟨(b - s.allocator.baseAddr) / 4096, by omega, fun reserved => ?_, by omega, by omega⟩
    exact notReserved _ (by omega) (by omega) (sound.reserved _ reserved)
  disjoint := by
    have starts := List.pairwise_map.mp sound.distinct
    apply starts.imp_of_mem
    intro e f memberE memberF different
    obtain ⟨_, cellE, -⟩ := sound.cells e memberE
    obtain ⟨_, cellF, -⟩ := sound.cells f memberF
    exact cell_disjoint sound.wellFormed cellE cellF different
  offBlocks e member order idx free := by
    obtain ⟨page, cell, settled⟩ := sound.cells e member
    obtain ⟨bound, frame⟩ := (sound.wellFormed.listed order idx).mp free
    have block : Cell s.allocator idx (s.allocator.baseAddr + idx * 4096) (4096 * 2 ^ order) :=
      .block bound frame (.inr rfl)
    rw [frameAddr_eq sound.space bound]
    apply cell_disjoint sound.wellFormed cell block
    intro same
    have index := cell.frameIndex sound.space
    rw [same, block.frameIndex sound.space] at index
    rw [← index, frame] at settled
    exact not_settled_free order settled
  offChunks e member pool valid node free := by
    obtain ⟨_, cell, -⟩ := sound.cells e member
    obtain ⟨_, chunk, -⟩ := (sound.chunks pool valid node free).cell valid
    apply cell_disjoint sound.wellFormed cell chunk
    intro same
    exact sound.apart e.1 (List.mem_map_of_mem member) pool valid (same ▸ free)
  allocates size small := by
    obtain ⟨outcome, result, served⟩ := sound.allocate small
    cases served with
    | null => exact ⟨none, s.allocator, result, fun _ => rfl⟩
    | @pointer ptr a _ => exact ⟨some ptr, a, result, fun null => absurd null (by simp)⟩
  frees e member := by
    obtain ⟨a, freed, -⟩ := sound.free member
    exact ⟨a, freed⟩

theorem Sound.step {started : Allocator} {s t : State} {call : Call}
    (sound : Sound started s.allocator s.live) (step : calls.Step s call t) :
    Sound started t.allocator t.live := by
  cases step with
  | returned small result =>
    obtain ⟨outcome, result', served⟩ := sound.allocate small
    rw [result] at result'
    obtain rfl := Option.some.inj result'
    cases served with
    | pointer next => exact next
  | failed small result =>
    obtain ⟨outcome, result', served⟩ := sound.allocate small
    rw [result] at result'
    obtain rfl := Option.some.inj result'
    cases served with
    | null => exact sound
  | free member result =>
    obtain ⟨a, freed, next⟩ := sound.free member
    rw [result] at freed
    obtain rfl := Option.some.inj freed
    exact next

/-- The state that startup leaves, with nothing handed out. -/
theorem sound_mallocInit {start size kernelEnd : Word} (ram : Ram start size)
    {regions : List ReservedRegion} {fuel : ℕ} {started : Allocator}
    (boot : startupAllocator start size kernelEnd regions fuel = some started) :
    Sound started started.mallocInit [] := by
  obtain ⟨space, wellFormed⟩ := startupAllocator_spec ram boot
  exact ⟨space, rfl, rfl, ⟨wellFormed.heads, wellFormed.listed, wellFormed.nodup, wellFormed.size⟩,
    fun _ marked => marked, by simp, by simp, by simp [mallocInit], by simp, by
    simp [mallocInit], by simp⟩

/-- Allocator safety: from the state that startup leaves, every state of every run is safe. -/
theorem allocator_safe {start size kernelEnd : Word} (ram : Ram start size)
    {regions : List ReservedRegion} {fuel : ℕ} {started : Allocator}
    (boot : startupAllocator start size kernelEnd regions fuel = some started) {events : List Call}
    {s : State} (run : System.Path calls ⟨started.mallocInit, []⟩ events s) : Safe started s :=
  Sound.safe (run.invariant (P := fun s => Sound started s.allocator s.live)
    (fun sound step => sound.step step) (sound_mallocInit ram boot))

/-- Eight pages with the kernel image in the first: the frame array takes the second, and a chunk
and a block come from the others. -/
theorem allocator_safe_eightPages : ∃ started s,
    startupAllocator 0xffffffc080000000#64 0x8000#64 0xffffffc080000f00#64
      [⟨0xffffffc080000000#64, 0xffffffc080000f00#64⟩] 4 = some started ∧
    System.Path calls ⟨started.mallocInit, []⟩ [.allocate 100, .allocate 5000] s ∧
    s.live = [(0xffffffc080004000, 5000), (0xffffffc080002000, 100)] ∧ Safe started s := by
  have ram : Ram 0xffffffc080000000#64 0x8000#64 := ⟨by decide, by decide⟩
  have result : (startupAllocator 0xffffffc080000000#64 0x8000#64 0xffffffc080000f00#64
      [⟨0xffffffc080000000#64, 0xffffffc080000f00#64⟩] 4).bind (fun started =>
        (started.mallocInit.allocate 100).bind fun first =>
          (first.2.allocate 5000).map fun second => (first.1, second.1)) =
      some (some 0xffffffc080002000, some 0xffffffc080004000) := by
    decide +kernel
  obtain ⟨started, boot, rest⟩ := Option.bind_eq_some_iff.mp result
  obtain ⟨⟨first, a⟩, firstCall, rest⟩ := Option.bind_eq_some_iff.mp rest
  obtain ⟨⟨second, b⟩, secondCall, pointers⟩ := Option.map_eq_some_iff.mp rest
  obtain ⟨rfl, rfl⟩ := Prod.mk.inj pointers
  have run : System.Path calls ⟨started.mallocInit, []⟩ [.allocate 100, .allocate 5000]
      ⟨b, [(0xffffffc080004000, 5000), (0xffffffc080002000, 100)]⟩ :=
    .cons (.returned (by decide) firstCall) (.cons (.returned (by decide) secondCall) (.nil _))
  exact ⟨started, _, boot, run, rfl, allocator_safe ram boot run⟩

end OscKernel.Soundness.Allocator
