import Mathlib.Data.Finset.Prod
import OscKernel.Lib.Caches
import OscKernel.Soundness.BlockChoice

/-! # The accounts of the memory allocator

Over any run of `allocate` and `free`, the pages that startup freed are the free pages, the pages of
the live blocks and the pages cut into chunks; the chunks of a pool's pages are those on its list
and the live ones. `free` never gives a page of a pool back, so a pool is a cache that grows by
whole pages, and its pages are as many as the largest number of its chunks that were live at one
time needs.
-/

namespace OscKernel.Soundness.AllocatorAccounts

open OscKernel.Lib OscKernel.Model OscKernel.Model.Allocator OscKernel.Soundness.Allocator

/-- The chunks of one page of the pool. -/
def chunksPerPage (pool : ℕ) : ℕ := 4096 / chunkSize pool

theorem chunksPerPage_pos {pool : ℕ} (valid : pool < 8) : 0 < chunksPerPage pool := by
  have whole := (chunkSize_spec pool valid).2.1
  rw [chunksPerPage]
  by_contra none
  rw [Nat.eq_zero_of_not_pos none] at whole
  omega

theorem chunkSize_le : ∀ pool < 8, chunkSize pool ≤ 2048 := by
  decide

/-- The pages cut into the chunks of a pool. -/
def poolPages (a : Model.Allocator) (pool : ℕ) : Finset ℕ :=
  (Finset.range a.totalPages).filter fun j => a.frameArray j = ⟨0, chunkSize pool⟩

def chunkPages (a : Model.Allocator) : Set ℕ := {j | ∃ pool < 8, j ∈ poolPages a pool}

/-- The live pointers that are chunks of a pool. -/
def liveChunks (live : List (ℕ × ℕ)) (pool : ℕ) : List ℕ :=
  (live.filter fun e => decide (poolFor e.2 = some pool)).map Prod.fst

/-- The order of the block that a size gets. -/
def blockOrder (size : ℕ) : Option ℕ := if size > 2048 then orderFor size else none

/-- The pages of the block of a live pointer; a chunk has none. -/
def pagesOf (a : Model.Allocator) (e : ℕ × ℕ) : Set ℕ :=
  {j | ∃ order, blockOrder e.2 = some order ∧ j ∈ span (a.frameIndex e.1, order)}

def blockPages (a : Model.Allocator) (live : List (ℕ × ℕ)) : Set ℕ :=
  {j | ∃ e ∈ live, j ∈ pagesOf a e}

section Basics

variable {a a' : Model.Allocator} {live : List (ℕ × ℕ)} {pool size order idx j : ℕ}

theorem mem_poolPages : j ∈ poolPages a pool ↔ j < a.totalPages ∧
    a.frameArray j = ⟨0, chunkSize pool⟩ := by
  rw [poolPages, Finset.mem_filter, Finset.mem_range]

theorem poolFor_large (large : 2048 < size) : poolFor size = none := by
  rw [poolFor, List.findIdx?_eq_none_iff]
  have least : ∀ chunk ∈ poolSizes, chunk ≤ 2048 := by decide
  intro chunk member
  have := least chunk member
  simp only [decide_eq_false_iff_not]
  omega

private theorem blockOrder_of_pool (small : poolFor size = some pool) : blockOrder size = none := by
  rw [blockOrder]
  split
  · rename_i large
    rw [poolFor_large large] at small
    cases small
  · rfl

theorem pool_of_blockOrder (large : blockOrder size = some order) : poolFor size = none := by
  rw [blockOrder] at large
  split at large
  · rename_i larger
    exact poolFor_large larger
  · cases large

theorem poolFor_lt (small : poolFor size = some pool) : pool < 8 :=
  (List.findIdx?_eq_some_iff_getElem.mp small).1

private theorem extent_chunk (small : poolFor size = some pool) : extent size = chunkSize pool := by
  have notLarge : ¬ size > 2048 := fun large => by
    rw [poolFor_large large] at small
    cases small
  simp [extent, notLarge, small]

private theorem extent_block (large : blockOrder size = some order) :
    extent size = 4096 * 2 ^ order := by
  rw [blockOrder] at large
  split at large
  · rename_i larger
    simp [extent, larger, large]
  · cases large

theorem alloc_ne_chunk {order : ℤ} (pool : ℕ) :
    (⟨order, frameAlloc⟩ : Frame) ≠ ⟨0, chunkSize pool⟩ := by
  intro same
  have status : frameAlloc = (chunkSize pool : ℤ) := congrArg Frame.status same
  simp only [frameAlloc] at status
  omega

/-- A change of the frames that are in use by nobody keeps the pages of the pools. -/
theorem poolPages_congr (valid : pool < 8) (total : a'.totalPages = a.totalPages)
    (kept : ∀ j, j ≠ idx → Settled (a.frameArray j) ∨ Settled (a'.frameArray j) →
      a'.frameArray j = a.frameArray j) (before : a.frameArray idx ≠ ⟨0, chunkSize pool⟩)
    (after : a'.frameArray idx ≠ ⟨0, chunkSize pool⟩) :
    poolPages a' pool = poolPages a pool := by
  ext j
  rw [mem_poolPages, mem_poolPages, total]
  apply and_congr_right
  intro _
  rcases eq_or_ne j idx with rfl | other
  · exact iff_of_false after before
  · constructor
    · intro cut
      rw [← kept j other (.inr (settled_of_chunk valid cut)), cut]
    · intro cut
      rw [kept j other (.inl (settled_of_chunk valid cut)), cut]

theorem blockPages_cons (a : Model.Allocator) (e : ℕ × ℕ) (live : List (ℕ × ℕ)) :
    blockPages a (e :: live) = pagesOf a e ∪ blockPages a live := by
  ext j
  simp only [blockPages, List.mem_cons, exists_eq_or_imp, Set.mem_ofPred_eq, Set.mem_union]

theorem blockPages_erase (a : Model.Allocator) {e : ℕ × ℕ} (member : e ∈ live) :
    blockPages a live = pagesOf a e ∪ blockPages a (live.erase e) := by
  rw [← blockPages_cons]
  ext j
  have same : ∀ f, f ∈ live ↔ f ∈ e :: live.erase e :=
    fun f => (List.perm_cons_erase member).mem_iff
  simp only [blockPages, Set.mem_ofPred_eq, same]

theorem pagesOf_chunk {e : ℕ × ℕ} (a : Model.Allocator) (small : poolFor e.2 = some pool) :
    pagesOf a e = ∅ := by
  apply Set.eq_empty_iff_forall_notMem.mpr
  rintro j ⟨order, large, -⟩
  rw [blockOrder_of_pool small] at large
  cases large

theorem pagesOf_block {e : ℕ × ℕ} (a : Model.Allocator) (large : blockOrder e.2 = some order) :
    pagesOf a e = span (a.frameIndex e.1, order) := by
  ext j
  simp only [pagesOf, large, Option.some.injEq, exists_eq_left', Set.mem_ofPred_eq]

theorem blockPages_congr (base : a'.baseAddr = a.baseAddr) (live : List (ℕ × ℕ)) :
    blockPages a' live = blockPages a live := by
  ext j
  simp only [blockPages, pagesOf, frameIndex_congr base]

theorem chunkPages_congr (same : ∀ pool < 8, poolPages a' pool = poolPages a pool) :
    chunkPages a' = chunkPages a := by
  ext j
  simp only [chunkPages, Set.mem_ofPred_eq]
  exact exists_congr fun pool => and_congr_right fun valid => by rw [same pool valid]

/-- The number of live chunks of a pool, with one more pointer. -/
theorem liveChunks_cons (e : ℕ × ℕ) (live : List (ℕ × ℕ))
    (pool : ℕ) : (liveChunks (e :: live) pool).length =
    (liveChunks live pool).length + if poolFor e.2 = some pool then 1
    else 0 := by
  simp only [liveChunks, List.length_map, List.filter_cons, decide_eq_true_eq]
  split
  · rw [List.length_cons]
  · rfl

theorem liveChunks_erase {e : ℕ × ℕ} (member : e ∈ live)
    (pool : ℕ) : (liveChunks live pool).length =
    (liveChunks (live.erase e) pool).length + if poolFor e.2 = some pool then 1
    else 0 := by
  rw [← liveChunks_cons]
  exact (((List.perm_cons_erase member).filter _).map Prod.fst).length_eq

theorem freeChunk_iff {node : ℕ} : FreeChunk a pool node ↔
    ∃ page ∈ poolPages a pool, ∃ i < chunksPerPage pool, node =
      a.baseAddr + page * 4096 + i * chunkSize pool := by
  constructor
  · rintro ⟨page, i, bound, frame, inside, start⟩
    exact ⟨page, mem_poolPages.mpr ⟨bound, frame⟩, i, inside, start⟩
  · rintro ⟨page, member, i, inside, start⟩
    obtain ⟨bound, frame⟩ := mem_poolPages.mp member
    exact ⟨page, i, bound, frame, inside, start⟩

theorem freeChunk_congr (base : a'.baseAddr = a.baseAddr)
    (same : poolPages a' pool = poolPages a pool) {node : ℕ} :
    FreeChunk a' pool node ↔ FreeChunk a pool node := by
  rw [freeChunk_iff, freeChunk_iff, same, base]

end Basics

/-! ## The chunks of a pool -/

section Chunks

variable {started a : Model.Allocator} {live : List (ℕ × ℕ)} {pool size node : ℕ} {e : ℕ × ℕ}

/-- Only the sizes of a pool get its chunk length. -/
private theorem poolFor_of_extent (valid : pool < 8) (length : extent size = chunkSize pool) :
    poolFor size = some pool := by
  have positive := (chunkSize_spec pool valid).1
  have least := chunkSize_le pool valid
  rw [extent] at length
  split at length
  · cases found : orderFor size with
    | none =>
      rw [found] at length
      simp only at length
      omega
    | some order =>
      rw [found] at length
      have := Nat.one_le_two_pow (n := order)
      simp only at length
      omega
  · rename_i notLarge
    obtain ⟨other, validOther, found, -⟩ := poolFor_spec (not_lt.mp notLarge)
    rw [found] at length
    rw [found, chunkSize_injective other validOther pool valid length]

/-- A cell of the length of a pool's chunks is such a chunk. -/
private theorem chunk_of_cell (valid : pool < 8) {page start length : ℕ}
    (cell : Cell a page start length) (same : length = chunkSize pool) :
    FreeChunk a pool start := by
  cases cell with
  | @block order status bound frame whole =>
    have least := chunkSize_le pool valid
    have := Nat.one_le_two_pow (n := order)
    omega
  | @chunk other i bound validOther frame inside =>
    obtain rfl := chunkSize_injective other validOther pool valid same
    exact ⟨page, i, bound, frame, inside, rfl⟩

/-- A cell as long as a block is a block of that order. -/
private theorem block_of_cell {order page start length : ℕ} (cell : Cell a page start length)
    (same : length = 4096 * 2 ^ order) : start = a.baseAddr + page * 4096 ∧
      (a.frameArray page = ⟨order, frameAlloc⟩ ∨ a.frameArray page = ⟨order, frameFree⟩) := by
  cases cell with
  | @block found status bound frame whole =>
    obtain rfl := Nat.pow_right_injective (le_refl 2) (Nat.eq_of_mul_eq_mul_left (by decide) same)
    refine ⟨rfl, ?_⟩
    rcases whole with rfl | rfl
    · exact .inl frame
    · exact .inr frame
  | @chunk pool _ _ valid _ _ =>
    have least := chunkSize_le pool valid
    have := Nat.one_le_two_pow (n := order)
    omega

private theorem cell_length_pos {page start length : ℕ} (cell : Cell a page start length) :
    0 < length := by
  cases cell with
  | block => exact Nat.mul_pos (by decide) (Nat.two_pow_pos _)
  | @chunk pool _ _ valid _ _ =>
    have := (chunkSize_spec pool valid).1
    omega

/-- A live pointer of a small size is a chunk of the pool of that size. -/
theorem chunk_of_live (sound : Sound started a live) (member : e ∈ live)
    (small : poolFor e.2 = some pool) :
    FreeChunk a pool e.1 := by
  obtain ⟨page, cell, -⟩ := sound.cells e member
  exact chunk_of_cell (poolFor_lt small) cell (extent_chunk small)

/-- A live pointer to a chunk of a pool was handed out for a size of that pool. -/
theorem pool_of_chunk (sound : Sound started a live) (valid : pool < 8) (member : e ∈ live)
    (chunk : FreeChunk a pool e.1) : poolFor e.2 = some pool := by
  obtain ⟨page, cell, -⟩ := sound.cells e member
  obtain ⟨home, i, bound, frame, inside, start⟩ := chunk
  have here := cell.frameIndex sound.space
  have there := (Cell.chunk bound valid frame inside).frameIndex sound.space
  rw [← start, here] at there
  apply poolFor_of_extent valid
  subst there
  generalize extent e.2 = length at cell
  generalize e.1 = first at cell
  cases cell with
  | @block order status _ frame' whole =>
    rw [frame] at frame'
    exact absurd (congrArg Frame.status frame') (chunkSize_ne_whole valid whole)
  | @chunk other _ _ validOther frame' _ =>
    rw [frame] at frame'
    have same : (chunkSize pool : ℤ) = chunkSize other := congrArg Frame.status frame'
    exact_mod_cast same.symm

theorem mem_liveChunks : node ∈ liveChunks live pool ↔
    ∃ e ∈ live, poolFor e.2 = some pool ∧ e.1 = node := by
  simp only [liveChunks, List.mem_map, List.mem_filter, decide_eq_true_eq, and_assoc]

/-- Every chunk of the pool's pages is on its list or live. -/
def Complete (a : Model.Allocator) (live : List (ℕ × ℕ)) (pool : ℕ) : Prop :=
  ∀ node, FreeChunk a pool node → node ∈ a.poolFreeList pool ∨ node ∈ live.map Prod.fst

/-- The chunks on the list and the live ones are the chunks of the pool's pages. -/
theorem mem_chunks (sound : Sound started a live) (valid : pool < 8)
    (complete : Complete a live pool) :
    node ∈ a.poolFreeList pool ++ liveChunks live pool ↔ FreeChunk a pool node := by
  rw [List.mem_append, mem_liveChunks]
  constructor
  · rintro (free | ⟨e, member, small, rfl⟩)
    · exact sound.chunks pool valid node free
    · exact chunk_of_live sound member small
  · intro chunk
    rcases complete node chunk with free | inUse
    · exact .inl free
    · obtain ⟨e, member, rfl⟩ := List.mem_map.mp inUse
      exact .inr ⟨e, member, pool_of_chunk sound valid member chunk, rfl⟩

theorem chunks_nodup (sound : Sound started a live) (valid : pool < 8) :
    (a.poolFreeList pool ++ liveChunks live pool).Nodup := by
  have distinct : (liveChunks live pool).Nodup :=
    sound.distinct.sublist (List.filter_sublist.map Prod.fst)
  refine List.Nodup.append (sound.poolNodup pool valid) distinct fun node free inUse => ?_
  obtain ⟨e, member, -, rfl⟩ := mem_liveChunks.mp inUse
  exact sound.apart e.1 (List.mem_map_of_mem member) pool valid free

/-- Where a chunk lies says which chunk of which page it is. -/
private theorem chunk_injective (valid : pool < 8) {base page page' i i' : ℕ}
    (inside : i < chunksPerPage pool) (inside' : i' < chunksPerPage pool)
    (same : base + page * 4096 + i * chunkSize pool = base + page' * 4096 + i' * chunkSize pool) :
    page = page' ∧ i = i' := by
  have fits := chunk_fits valid inside
  have fits' := chunk_fits valid inside'
  have positive := (chunkSize_spec pool valid).1
  have pages : page = page' := by omega
  refine ⟨pages, Nat.eq_of_mul_eq_mul_right (by omega : 0 < chunkSize pool) (by omega)⟩

/-- The list and the live chunks of a pool together fill its pages. -/
theorem balance (sound : Sound started a live) (valid : pool < 8)
    (complete : Complete a live pool) : (a.poolFreeList pool).length +
    (liveChunks live pool).length = chunksPerPage pool * (poolPages a pool).card := by
  let place (cell : ℕ × ℕ) : ℕ := a.baseAddr + cell.1 * 4096 + cell.2 * chunkSize pool
  have cells : (a.poolFreeList pool ++ liveChunks live pool).toFinset =
      (poolPages a pool ×ˢ Finset.range (chunksPerPage pool)).image place := by
    ext node
    rw [List.mem_toFinset, mem_chunks sound valid complete, Finset.mem_image]
    constructor
    · rintro ⟨page, i, bound, frame, inside, rfl⟩
      exact ⟨(page, i),
        Finset.mk_mem_product (mem_poolPages.mpr ⟨bound, frame⟩) (Finset.mem_range.mpr inside), rfl⟩
    · rintro ⟨cell, member, rfl⟩
      obtain ⟨inPages, inside⟩ := Finset.mem_product.mp member
      obtain ⟨bound, frame⟩ := mem_poolPages.mp inPages
      exact ⟨cell.1, cell.2, bound, frame, Finset.mem_range.mp inside, rfl⟩
  rw [← List.length_append, ← List.toFinset_card_of_nodup (chunks_nodup sound valid), cells,
    Finset.card_image_of_injOn, Finset.card_product, Finset.card_range, Nat.mul_comm]
  intro first memberFirst second memberSecond same
  have insideFirst := Finset.mem_range.mp (Finset.mem_product.mp (Finset.mem_coe.mp memberFirst)).2
  have insideSecond :=
    Finset.mem_range.mp (Finset.mem_product.mp (Finset.mem_coe.mp memberSecond)).2
  obtain ⟨pages, indices⟩ := chunk_injective valid insideFirst insideSecond same
  exact Prod.ext pages indices

end Chunks

/-! ## What a call does -/

/-- The chunks that a page is cut into. -/
def pageChunks (pool page : ℕ) : List ℕ :=
  (List.range (chunksPerPage pool)).map fun i => page + i * chunkSize pool

/-- The list of a pool with its counter. -/
def setPool (a : Model.Allocator) (pool : ℕ) (nodes : List ℕ) (size : ℤ) : Model.Allocator :=
  { a with
    poolFreeList := Function.update a.poolFreeList pool nodes
    poolFreelistSize := Function.update a.poolFreelistSize pool size }

/-- What a call of `allocate` did: nothing, a block taken, a chunk of the list taken, or a page cut
into chunks. -/
inductive Allocates (a : Model.Allocator) (size : ℕ) : Option ℕ × Model.Allocator → Prop
  | null : Allocates a size (none, a)
  | block {order idx : ℕ} {b : Model.Allocator} (large : blockOrder size = some order)
      (taken : Taken a b idx order) :
      Allocates a size (some (a.frameAddr idx), b)
  | chunk {pool node : ℕ} {rest : List ℕ} (small : poolFor size = some pool)
      (list : a.poolFreeList pool = node :: rest) :
      Allocates a size (some node, setPool a pool rest (a.poolFreelistSize pool - 1))
  | page {pool idx : ℕ} {b : Model.Allocator} {rest : List ℕ} (small : poolFor size = some pool)
      (empty : a.poolFreeList pool = []) (taken : Taken a b idx 0)
      (cut : pageChunks pool (a.frameAddr idx) = a.frameAddr idx :: rest) :
      Allocates a size
      (some (a.frameAddr idx), setPool (b.setFrame idx ⟨0, chunkSize pool⟩) pool rest
        (a.poolFreelistSize pool + chunksPerPage pool - 1))

/-- What a call of `free` did with a live pointer: a block given back, or a chunk put on its
list. -/
inductive Frees (a : Model.Allocator) (e : ℕ × ℕ) : Model.Allocator → Prop
  | block {order : ℕ} {b : Model.Allocator} (large : blockOrder e.2 = some order)
      (frame : a.frameArray (a.frameIndex e.1) = ⟨order, frameAlloc⟩)
      (calm : Calm (a.setFrame (a.frameIndex e.1) ⟨-1, frameBuddy⟩) b) (merged : Merged b)
      (pages : freePages b = span (a.frameIndex e.1, order) ∪ freePages a) : Frees a e b
  | chunk {pool : ℕ} (small : poolFor e.2 = some pool) : Frees a e (a.putChunk pool e.1)

private theorem pageChunks_eq {pool : ℕ} (valid : pool < 8) (page : ℕ) :
    ∃ rest, pageChunks pool page = page :: rest := by
  obtain ⟨more, same⟩ := Nat.exists_eq_succ_of_ne_zero (chunksPerPage_pos valid).ne'
  refine ⟨(List.range more).map fun i => page + (i + 1) * chunkSize pool, ?_⟩
  rw [pageChunks, same, List.range_succ_eq_map, List.map_cons, Nat.zero_mul,
    Nat.add_zero, List.map_map]
  rfl

section Calls

variable {started a : Model.Allocator} {live : List (ℕ × ℕ)} {pool size : ℕ}
  {outcome : Option ℕ × Model.Allocator}

private theorem takeChunk_allocates (small : poolFor size = some pool)
    (taken : a.takeChunk pool = some outcome) :
    Allocates a size outcome := by
  rw [Allocator.takeChunk] at taken
  cases list : a.poolFreeList pool with
  | nil =>
    rw [list] at taken
    cases taken
  | cons node rest =>
    rw [list] at taken
    obtain rfl := Option.some.inj taken
    exact .chunk small list

/-- A page in hand cut into chunks, of which the first is taken. -/
private theorem refill_takeChunk {b : Model.Allocator} {idx : ℕ} (sound : Sound started a live)
    (empty : a.poolFreeList pool = []) (taken : Taken a b idx 0) {rest : List ℕ}
    (cut : pageChunks pool (a.frameAddr idx) = a.frameAddr idx :: rest) :
    (b.refill pool (chunkSize pool) (a.frameAddr idx)).takeChunk pool =
      some (some (a.frameAddr idx), setPool (b.setFrame idx ⟨0, chunkSize pool⟩) pool rest
        (a.poolFreelistSize pool + chunksPerPage pool - 1)) := by
  have index : b.frameIndex (a.frameAddr idx) = idx := by
    rw [frameIndex_congr taken.fields.1, frameAddr_eq sound.space taken.bound]
    exact frameIndex_eq sound.space taken.bound (show 0 < 4096 by decide)
  have lists : b.poolFreeList = a.poolFreeList ∧ b.poolFreelistSize = a.poolFreelistSize := by
    obtain ⟨c, calm, rfl⟩ := taken.calm
    exact ⟨calm.poolFreeList, calm.poolFreelistSize⟩
  have refilled : b.refill pool (chunkSize pool) (a.frameAddr idx) =
      setPool (b.setFrame idx ⟨0, chunkSize pool⟩)
      pool (a.frameAddr idx :: rest) (a.poolFreelistSize pool + chunksPerPage pool) := by
    rw [Allocator.refill, index, lists.1, empty, List.nil_append, lists.2, taken.frame, ← cut]
    simp only [setPool, Model.Allocator.setFrame, pageChunks, chunksPerPage,
      lists.1, lists.2, Nat.cast_zero]
  rw [refilled, Allocator.takeChunk]
  simp only [setPool, Function.update_self, Function.update_idem]

theorem allocates (sound : Sound started a live) (merged : Merged a)
    (result : a.allocate size = some outcome) :
    Allocates a size outcome := by
  rw [Allocator.allocate] at result
  split at result
  · rename_i large
    cases found : orderFor size with
    | none =>
      rw [found] at result
      cases result
    | some order =>
      rw [found, Option.map_some] at result
      obtain rfl := Option.some.inj result
      have order : blockOrder size = some order := by rw [blockOrder, if_pos large, found]
      obtain failed | ⟨idx, b, taken, block⟩ := buddyAlloc_merged sound.wellFormed merged _
      · rw [failed]
        exact .null
      · rw [taken]
        exact .block order block
  · cases small : poolFor size with
    | none =>
      rw [small] at result
      cases result
    | some pool =>
      rw [small] at result
      simp only at result
      split at result
      · rename_i empty
        obtain failed | ⟨idx, b, taken, block⟩ := buddyAlloc_merged sound.wellFormed merged 0
        · rw [failed] at result
          obtain rfl := Option.some.inj result
          exact .null
        · rw [taken] at result
          obtain ⟨rest, cut⟩ := pageChunks_eq (poolFor_lt small) (a.frameAddr idx)
          have same := refill_takeChunk sound empty block cut
          rw [chunkSize] at same
          obtain rfl := Option.some.inj (same.symm.trans result)
          exact .page small empty block cut
      · exact takeChunk_allocates small result

private theorem size_cases (positive : 0 < extent size) :
    (∃ pool, poolFor size = some pool) ∨ ∃ order, blockOrder size = some order := by
  rw [extent] at positive
  rw [blockOrder]
  split at positive
  · rename_i large
    rw [if_pos large]
    cases found : orderFor size with
    | none =>
      rw [found] at positive
      exact absurd positive (Nat.lt_irrefl 0)
    | some order => exact .inr ⟨order, rfl⟩
  · rename_i notLarge
    obtain ⟨pool, -, found, -⟩ := poolFor_spec (not_lt.mp notLarge)
    exact .inl ⟨pool, found⟩

variable {e : ℕ × ℕ}

/-- A live pointer of a large size is a block of the order for that size. -/
theorem block_of_live (sound : Sound started a live) (member : e ∈ live) {order : ℕ}
    (large : blockOrder e.2 = some order) : a.frameIndex e.1 < a.totalPages ∧
      e.1 = a.baseAddr + a.frameIndex e.1 * 4096 ∧
      a.frameArray (a.frameIndex e.1) = ⟨order, frameAlloc⟩ := by
  obtain ⟨page, cell, settled⟩ := sound.cells e member
  rw [cell.frameIndex sound.space]
  obtain ⟨start, frame | frame⟩ := block_of_cell cell (extent_block large)
  · exact ⟨cell.inPage.1, start, frame⟩
  · rw [frame] at settled
    exact absurd settled (not_settled_free order)

theorem frees (sound : Sound started a live) (merged : Merged a) (member : e ∈ live)
    {b : Model.Allocator} (result : a.free e.1 = some b) : Frees a e b := by
  have notNull : e.1 ≠ 0 := by
    obtain ⟨page, cell, -⟩ := sound.cells e member
    obtain ⟨-, offset, -, start⟩ := cell.inPage
    have := sound.space.1
    omega
  have positive : 0 < extent e.2 := by
    obtain ⟨page, cell, -⟩ := sound.cells e member
    exact cell_length_pos cell
  rw [Allocator.free, if_neg notNull] at result
  rcases size_cases positive with ⟨pool, small⟩ | ⟨order, large⟩
  · have valid := poolFor_lt small
    obtain ⟨page, i, bound, frame, inside, start⟩ := chunk_of_live sound member small
    have index := (Cell.chunk bound valid frame inside).frameIndex sound.space
    rw [← start] at index
    obtain ⟨least, -, search⟩ := chunkSize_spec pool valid
    have notBlock : (chunkSize pool : ℤ) ≠ frameAlloc := by
      simp only [frameAlloc]
      omega
    rw [index, frame] at result
    simp only [notBlock, if_false, ge_iff_le] at result
    rw [if_pos (by omega), search] at result
    obtain rfl := Option.some.inj result
    exact .chunk small
  · obtain ⟨bound, -, frame⟩ := block_of_live sound member large
    rw [frame] at result
    simp only [if_true] at result
    obtain ⟨c, freed, -, calm⟩ := buddyFree_spec sound.wellFormed rfl bound frame
    obtain rfl := Option.some.inj (freed.symm.trans result)
    obtain ⟨mergedAfter, pages⟩ := buddyFree_merged sound.wellFormed merged rfl bound frame freed
    exact .block large frame calm mergedAfter pages

end Calls

/-! ## The invariant -/

/-- The accounts of a state, besides its safety. -/
structure Accounted (started a : Model.Allocator) (live : List (ℕ × ℕ)) : Prop where
  sound : Sound started a live
  merged : Merged a
  complete : ∀ pool < 8, Complete a live pool
  sizes : ∀ pool < 8, a.poolFreelistSize pool = (a.poolFreeList pool).length
  pages : freePages a ∪ (blockPages a live ∪ chunkPages a) = freePages started

/-- The cache has the pages and the live chunks of the pool. -/
structure Draws (a : Model.Allocator) (live : List (ℕ × ℕ)) (pool : ℕ)
    (c : Cache (chunksPerPage pool)) : Prop where
  units : c.units = (poolPages a pool).card
  out : c.out = (liveChunks live pool).length

/-- The pool does what a cache may do. -/
def Follows (a : Model.Allocator) (live : List (ℕ × ℕ)) (a' : Model.Allocator)
    (live' : List (ℕ × ℕ)) (pool : ℕ) : Prop :=
  ∀ c, Draws a live pool c →
    ∃ c', (Cache.demands _).Step c (liveChunks live' pool).length c' ∧ Draws a' live' pool c'

section Changes

variable {started a b : Model.Allocator} {live live' : List (ℕ × ℕ)}
  {pool size idx order : ℕ} {e : ℕ × ℕ}

/-- A pool whose pages and live chunks are as many as before. -/
theorem follows_idle (pages : poolPages b pool = poolPages a pool)
    (count : (liveChunks live' pool).length = (liveChunks live pool).length) :
    Follows a live b live' pool := by
  intro c draws
  refine ⟨c, ?_, by rw [pages, draws.units], by rw [count, draws.out]⟩
  rw [count, ← draws.out]
  exact .idle c

theorem taken_frames (taken : Taken a b idx order) {j : ℕ} (other : j ≠ idx)
    (settled : Settled (a.frameArray j) ∨ Settled (b.frameArray j)) :
    b.frameArray j = a.frameArray j := by
  obtain ⟨c, calm, rfl⟩ := taken.calm
  rw [setFrame_frame_of_ne _ _ _ _ other] at settled ⊢
  exact calm.kept j settled

theorem taken_pool (taken : Taken a b idx order) :
    b.poolFreeList = a.poolFreeList ∧ b.poolFreelistSize = a.poolFreelistSize := by
  obtain ⟨c, calm, rfl⟩ := taken.calm
  exact ⟨calm.poolFreeList, calm.poolFreelistSize⟩

theorem taken_fresh (taken : Taken a b idx order) (valid : pool < 8) :
    a.frameArray idx ≠ ⟨0, chunkSize pool⟩ :=
  fun cut => taken.fresh (settled_of_chunk valid cut)

theorem taken_poolPages (taken : Taken a b idx order) (valid : pool < 8) :
    poolPages b pool = poolPages a pool := by
  refine @poolPages_congr a b pool idx valid taken.fields.2
    (fun j other settled => taken_frames taken other settled)
    (taken_fresh taken valid) ?_
  rw [taken.frame]
  exact alloc_ne_chunk pool

/-- A block leaves the free pages for the live blocks. -/
theorem Accounted.block (accounted : Accounted started a live)
    (large : blockOrder size = some order) (taken : Taken a b idx order)
    (sound : Sound started b ((a.frameAddr idx, size) :: live)) :
    Accounted started b ((a.frameAddr idx, size) :: live) ∧
      ∀ pool < 8, Follows a live b ((a.frameAddr idx, size) :: live) pool := by
  obtain ⟨base, total⟩ := taken.fields
  obtain ⟨lists, counters⟩ := taken_pool taken
  have pages : ∀ pool < 8, poolPages b pool = poolPages a pool :=
    fun pool valid => taken_poolPages taken valid
  have index : b.frameIndex (a.frameAddr idx) = idx := by
    rw [frameIndex_congr base, frameAddr_eq accounted.sound.space taken.bound]
    exact frameIndex_eq accounted.sound.space taken.bound (show 0 < 4096 by decide)
  refine ⟨⟨sound, taken.merged, fun pool valid node chunk => ?_, fun pool valid => ?_, ?_⟩,
    fun pool valid => ?_⟩
  · rw [lists]
    rcases accounted.complete pool valid node
      ((freeChunk_congr base (pages pool valid)).mp chunk) with free | inUse
    · exact .inl free
    · exact .inr (List.mem_cons_of_mem _ inUse)
  · rw [counters, lists]
    exact accounted.sizes pool valid
  · rw [blockPages_cons, pagesOf_block b large, index, blockPages_congr base,
      chunkPages_congr pages, ← accounted.pages, ← taken.pages, Set.union_assoc (span (idx, order)),
      Set.union_left_comm, Set.union_assoc]
  · apply follows_idle (pages pool valid)
    rw [liveChunks_cons, pool_of_blockOrder large,
      if_neg (Option.some_ne_none pool).symm, Nat.add_zero]

/-- A chunk of the list becomes live. -/
theorem Accounted.chunk (accounted : Accounted started a live) (small : poolFor size = some pool)
    {node : ℕ} {rest : List ℕ} (list : a.poolFreeList pool = node :: rest) (sound : Sound started
      (setPool a pool rest (a.poolFreelistSize pool - 1)) ((node, size) :: live)) :
    Accounted started (setPool a pool rest (a.poolFreelistSize pool - 1)) ((node, size) :: live) ∧
      ∀ other < 8, Follows a live (setPool a pool rest (a.poolFreelistSize pool - 1))
      ((node, size) :: live) other := by
  have valid := poolFor_lt small
  refine ⟨⟨sound, accounted.merged, fun other validOther ptr chunk => ?_,
    fun other validOther => ?_, ?_⟩, fun other validOther => ?_⟩
  · have before := accounted.complete other validOther ptr ((freeChunk_congr rfl rfl).mp chunk)
    simp only [setPool, List.map_cons, List.mem_cons]
    rcases eq_or_ne other pool with rfl | different
    · rw [list, List.mem_cons] at before
      rw [Function.update_self]
      tauto
    · rw [Function.update_of_ne different]
      tauto
  · simp only [setPool]
    rcases eq_or_ne other pool with rfl | different
    · rw [Function.update_self, Function.update_self,
        accounted.sizes other validOther, list, List.length_cons]
      omega
    · rw [Function.update_of_ne different, Function.update_of_ne different]
      exact accounted.sizes other validOther
  · rw [blockPages_cons, pagesOf_chunk _ small, Set.empty_union]
    exact accounted.pages
  · rcases eq_or_ne other pool with rfl | different
    · intro c draws
      have filled := balance accounted.sound validOther (accounted.complete other validOther)
      rw [list, List.length_cons, ← draws.out, ← draws.units] at filled
      have count := liveChunks_cons (node, size) live other
      rw [if_pos small, ← draws.out] at count
      refine ⟨c.acquire (by omega), ?_, draws.units, count.symm⟩
      rw [count]
      exact .acquire c _
    · refine follows_idle
        (show poolPages (setPool a pool rest _) other = poolPages a other from rfl) ?_
      rw [liveChunks_cons, small,
        if_neg (fun same => different (Option.some.inj same).symm), Nat.add_zero]

/-- What cutting a page into the chunks of a pool changes. -/
structure PageCut (a after : Model.Allocator) (pool idx : ℕ) (rest : List ℕ) : Prop where
  base : after.baseAddr = a.baseAddr
  list : after.poolFreeList = Function.update a.poolFreeList pool rest
  counter : after.poolFreelistSize = Function.update a.poolFreelistSize pool
    (a.poolFreelistSize pool + chunksPerPage pool - 1)
  merged : Merged after
  free : span (idx, 0) ∪ freePages after = freePages a
  fresh : idx ∉ poolPages a pool
  grown : poolPages after pool = insert idx (poolPages a pool)
  others : ∀ other < 8, other ≠ pool → poolPages after other = poolPages a other

private theorem pageCut (valid : pool < 8) (taken : Taken a b idx 0) (rest : List ℕ) :
    PageCut a (setPool (b.setFrame idx ⟨0, chunkSize pool⟩)
      pool rest (a.poolFreelistSize pool + chunksPerPage pool - 1))
      pool idx rest := by
  obtain ⟨base, total⟩ := taken.fields
  obtain ⟨lists, counters⟩ := taken_pool taken
  generalize sizeEq : a.poolFreelistSize pool + (chunksPerPage pool : ℤ) - 1 = size
  generalize same : setPool (b.setFrame idx ⟨0, chunkSize pool⟩) pool rest size = after
  have totalAfter : after.totalPages = a.totalPages := by rw [← same]; exact total
  have frame : after.frameArray idx = ⟨0, chunkSize pool⟩ := by
    rw [← same]; exact setFrame_frame_self _ _ _
  have frames : ∀ j, j ≠ idx → after.frameArray j = b.frameArray j := by
    intro j away
    rw [← same]
    exact setFrame_frame_of_ne _ _ _ _ away
  constructor
  · rw [← same]
    exact base
  · rw [← same, ← lists]
    rfl
  · rw [← same, sizeEq, ← counters]
    rfl
  · rw [← same]
    exact taken.merged
  · rw [← taken.pages, ← same]
    rfl
  · exact fun member => taken_fresh taken valid (mem_poolPages.mp member).2
  · ext j
    rw [Finset.mem_insert, mem_poolPages, totalAfter]
    rcases eq_or_ne j idx with rfl | away
    · exact iff_of_true ⟨taken.bound, frame⟩ (.inl rfl)
    · rw [or_iff_right away, frames j away, ← total, ← mem_poolPages, taken_poolPages taken valid]
  · intro other validOther different
    refine @poolPages_congr a after other idx validOther totalAfter (fun j away settled => ?_)
      (taken_fresh taken validOther) fun cut => ?_
    · rw [frames j away] at settled ⊢
      exact taken_frames taken away settled
    · rw [frame] at cut
      have sizes : (chunkSize pool : ℤ) = chunkSize other := congrArg Frame.status cut
      exact different
        (chunkSize_injective other validOther pool valid (by exact_mod_cast sizes.symm))

theorem PageCut.chunkPages (valid : pool < 8) {rest : List ℕ} {after : Model.Allocator}
    (cutPage : PageCut a after pool idx rest) :
    chunkPages after = span (idx, 0) ∪ chunkPages a := by
  have single : ∀ j, j ∈ span (idx, 0) ↔ j = idx := by
    intro j
    simp only [mem_span]
    omega
  ext j
  rw [Set.mem_union, single]
  constructor
  · rintro ⟨other, validOther, member⟩
    rcases eq_or_ne other pool with rfl | different
    · rw [cutPage.grown, Finset.mem_insert] at member
      exact member.imp_right fun old => ⟨other, validOther, old⟩
    · exact .inr ⟨other, validOther, cutPage.others other validOther different ▸ member⟩
  · rintro (rfl | ⟨other, validOther, member⟩)
    · exact ⟨pool, valid, cutPage.grown ▸ Finset.mem_insert_self _ _⟩
    · rcases eq_or_ne other pool with rfl | different
      · exact ⟨other, validOther, cutPage.grown ▸ Finset.mem_insert_of_mem member⟩
      · exact ⟨other, validOther, (cutPage.others other validOther different).symm ▸ member⟩

/-- A page leaves the free pages for the chunks of a pool. -/
theorem Accounted.page (accounted : Accounted started a live) (small : poolFor size = some pool)
    (empty : a.poolFreeList pool = []) {rest : List ℕ} {after : Model.Allocator}
    (cutPage : PageCut a after pool idx rest) (bound : idx < a.totalPages)
    (cut : pageChunks pool (a.frameAddr idx) = a.frameAddr idx :: rest)
    (sound : Sound started after ((a.frameAddr idx, size) :: live)) :
    Accounted started after ((a.frameAddr idx, size) :: live) ∧
      ∀ other < 8, Follows a live after ((a.frameAddr idx, size) :: live) other := by
  have valid := poolFor_lt small
  have length : rest.length + 1 = chunksPerPage pool := by
    rw [← List.length_cons (a := a.frameAddr idx), ← cut, pageChunks,
      List.length_map, List.length_range]
  refine ⟨⟨sound, cutPage.merged, fun other validOther ptr chunk => ?_, fun other validOther => ?_,
    ?_⟩, fun other validOther => ?_⟩
  · rw [List.map_cons, List.mem_cons, cutPage.list]
    rcases eq_or_ne other pool with rfl | different
    · obtain ⟨page, member, i, inside, start⟩ := freeChunk_iff.mp chunk
      rw [cutPage.base] at start
      rw [cutPage.grown, Finset.mem_insert] at member
      rcases member with rfl | old
      · -- a chunk of the new page: the first is live and the others are on the list
        have place : ptr ∈ pageChunks other (a.frameAddr page) := by
          rw [frameAddr_eq accounted.sound.space bound, start]
          exact List.mem_map.mpr ⟨i, List.mem_range.mpr inside, rfl⟩
        rw [cut, List.mem_cons] at place
        rw [Function.update_self]
        tauto
      · have before :=
          accounted.complete other validOther ptr (freeChunk_iff.mpr ⟨page, old, i, inside, start⟩)
        rw [empty] at before
        exact .inr (.inr (before.resolve_left List.not_mem_nil))
    · have before := accounted.complete other validOther ptr
        ((freeChunk_congr cutPage.base (cutPage.others other validOther different)).mp chunk)
      rw [Function.update_of_ne different]
      tauto
  · rw [cutPage.list, cutPage.counter]
    rcases eq_or_ne other pool with rfl | different
    · rw [Function.update_self, Function.update_self,
        accounted.sizes other validOther, empty, List.length_nil]
      omega
    · rw [Function.update_of_ne different, Function.update_of_ne different]
      exact accounted.sizes other validOther
  · rw [blockPages_cons, pagesOf_chunk _ small, Set.empty_union, blockPages_congr cutPage.base,
      cutPage.chunkPages valid, ← accounted.pages, ← cutPage.free]
    simp only [Set.union_assoc, Set.union_left_comm (span (idx, 0))]
  · rcases eq_or_ne other pool with rfl | different
    · intro c draws
      have filled := balance accounted.sound validOther (accounted.complete other validOther)
      rw [empty, List.length_nil, Nat.zero_add, ← draws.out, ← draws.units] at filled
      have count := liveChunks_cons (a.frameAddr idx, size) live other
      rw [if_pos small, ← draws.out] at count
      refine ⟨c.grow (chunksPerPage_pos validOther) filled, ?_, ?_, count.symm⟩
      · rw [count]
        exact .grow c _ _
      · rw [cutPage.grown, Finset.card_insert_of_notMem cutPage.fresh, ← draws.units]
        rfl
    · apply follows_idle (cutPage.others other validOther different)
      rw [liveChunks_cons, small,
        if_neg (fun same => different (Option.some.inj same).symm), Nat.add_zero]

/-- What is live stays live, the freed pointer apart. -/
theorem live_erase {node : ℕ} (inUse : node ∈ live.map Prod.fst) : node = e.1 ∨
    node ∈ (live.erase e).map Prod.fst := by
  obtain ⟨f, member, rfl⟩ := List.mem_map.mp inUse
  rcases eq_or_ne f e with rfl | different
  · exact .inl rfl
  · exact .inr (List.mem_map_of_mem ((List.mem_erase_of_ne different).mpr member))

theorem Accounted.freeBlock (accounted : Accounted started a live) (member : e ∈ live)
    (large : blockOrder e.2 = some order)
    (frame : a.frameArray (a.frameIndex e.1) = ⟨order, frameAlloc⟩)
    (calm : Calm (a.setFrame (a.frameIndex e.1) ⟨-1, frameBuddy⟩) b) (merged : Merged b)
    (pages : freePages b = span (a.frameIndex e.1, order) ∪ freePages a)
    (sound : Sound started b (live.erase e)) :
    Accounted started b (live.erase e) ∧ ∀ pool < 8, Follows a live b (live.erase e) pool := by
  have base : b.baseAddr = a.baseAddr := calm.baseAddr
  have lists : b.poolFreeList = a.poolFreeList := calm.poolFreeList
  have hidden : ∀ pool < 8, b.frameArray (a.frameIndex e.1) ≠ ⟨0, chunkSize pool⟩ := by
    intro pool valid cut
    have same := calm.kept (a.frameIndex e.1) (.inr (settled_of_chunk valid cut))
    rw [setFrame_frame_self] at same
    have status : frameBuddy = (chunkSize pool : ℤ) := congrArg Frame.status (same.symm.trans cut)
    simp only [frameBuddy] at status
    omega
  have samePages : ∀ pool < 8, poolPages b pool = poolPages a pool := by
    intro pool valid
    refine @poolPages_congr a b pool (a.frameIndex e.1)
      valid calm.totalPages (fun j other settled => ?_) ?_
      (hidden pool valid)
    · have same := setFrame_frame_of_ne a (a.frameIndex e.1) j ⟨-1, frameBuddy⟩ other
      rw [← same] at settled ⊢
      exact calm.kept j settled
    · rw [frame]
      exact alloc_ne_chunk pool
  refine ⟨⟨sound, merged, fun pool valid node chunk => ?_, fun pool valid => ?_, ?_⟩,
    fun pool valid => ?_⟩
  · rw [lists]
    have before := (freeChunk_congr base (samePages pool valid)).mp chunk
    refine (accounted.complete pool valid node before).imp_right fun inUse =>
      (live_erase inUse).resolve_left ?_
    -- the freed pointer is no chunk
    rintro rfl
    have small := pool_of_chunk accounted.sound valid member before
    rw [pool_of_blockOrder large] at small
    cases small
  · rw [calm.poolFreelistSize, lists]
    exact accounted.sizes pool valid
  · rw [← accounted.pages, blockPages_erase a member, pagesOf_block a large, pages, blockPages_congr
      base, chunkPages_congr samePages, Set.union_assoc, Set.union_assoc, Set.union_left_comm]
  · apply follows_idle (samePages pool valid)
    rw [liveChunks_erase member, pool_of_blockOrder large,
      if_neg (Option.some_ne_none pool).symm, Nat.add_zero]

theorem Accounted.freeChunk (accounted : Accounted started a live) (member : e ∈ live)
    (small : poolFor e.2 = some pool) (sound : Sound started (a.putChunk pool e.1) (live.erase e)) :
    Accounted started (a.putChunk pool e.1) (live.erase e) ∧
      ∀ other < 8, Follows a live (a.putChunk pool e.1) (live.erase e) other := by
  refine ⟨⟨sound, accounted.merged, fun other validOther node chunk => ?_,
    fun other validOther => ?_, ?_⟩, fun other validOther => ?_⟩
  · have before := accounted.complete other validOther node ((freeChunk_congr rfl rfl).mp chunk)
    simp only [putChunk]
    rcases eq_or_ne other pool with rfl | different
    · rw [Function.update_self, List.mem_cons]
      rcases before with free | inUse
      · exact .inl (.inr free)
      · exact (live_erase inUse).imp_left .inl
    · rw [Function.update_of_ne different]
      refine before.imp_right fun inUse => (live_erase inUse).resolve_left ?_
      rintro rfl
      have found :=
        pool_of_chunk accounted.sound validOther member ((freeChunk_congr rfl rfl).mp chunk)
      exact different (Option.some.inj (found.symm.trans small))
  · simp only [putChunk]
    rcases eq_or_ne other pool with rfl | different
    · rw [Function.update_self, Function.update_self,
        accounted.sizes other validOther, List.length_cons]
      omega
    · rw [Function.update_of_ne different, Function.update_of_ne different]
      exact accounted.sizes other validOther
  · rw [← accounted.pages, blockPages_erase a member, pagesOf_chunk a small, Set.empty_union]
    rfl
  · rcases eq_or_ne other pool with rfl | different
    · intro c draws
      have count := liveChunks_erase member other
      rw [if_pos small, ← draws.out] at count
      have less : (liveChunks (live.erase e) other).length = c.out - 1 := by omega
      refine ⟨c.release, ?_, draws.units, less.symm⟩
      rw [less]
      exact .release c
    · refine follows_idle
        (show poolPages (a.putChunk pool e.1) other = poolPages a other from rfl) ?_
      rw [liveChunks_erase member, small,
        if_neg (fun same => different (Option.some.inj same).symm), Nat.add_zero]

/-- Every call keeps the accounts, and every pool does what a cache may do. -/
theorem Accounted.step {s t : State} {call : Call}
    (accounted : Accounted started s.allocator s.live) (step : calls.Step s call t) :
    Accounted started t.allocator t.live ∧
      ∀ pool < 8, Follows s.allocator s.live t.allocator t.live pool := by
  have sound := accounted.sound.step step
  cases step with
  | returned _ result =>
    obtain _ | ⟨large, taken⟩ | ⟨small, list⟩ | ⟨small, empty, taken, cut⟩ :=
      allocates accounted.sound accounted.merged result
    · exact accounted.block large taken sound
    · exact accounted.chunk small list sound
    · exact accounted.page small empty (pageCut (poolFor_lt small) taken _) taken.bound cut sound
  | failed _ result =>
    obtain _ | _ := allocates accounted.sound accounted.merged result
    exact ⟨accounted, fun pool _ => follows_idle rfl rfl⟩
  | free member result =>
    obtain ⟨large, frame, calm, merged, pages⟩ | ⟨small⟩ :=
      frees accounted.sound accounted.merged member result
    · exact accounted.freeBlock member large frame calm merged pages sound
    · exact accounted.freeChunk member small sound

end Changes

/-! ## Startup cuts no page -/

/-- No frame has the status of a chunk size. -/
def Uncut (a : Model.Allocator) : Prop := ∀ j, (a.frameArray j).status ≤ 0

section Uncut

variable {a : Model.Allocator} {idx : ℕ}

theorem Uncut.setFrame (uncut : Uncut a) {f : Frame} (low : f.status ≤ 0) :
    Uncut (a.setFrame idx f) := by
  intro j
  rcases eq_or_ne j idx with rfl | other
  · rw [setFrame_frame_self]
    exact low
  · rw [setFrame_frame_of_ne _ _ _ _ other]
    exact uncut j

theorem Uncut.mergeLoop (uncut : Uncut a) (order levels : ℕ) :
    Uncut (mergeLoop a idx order levels).1 := by
  induction levels generalizing a idx order with
  | zero => exact uncut
  | succ levels ih =>
    rw [Model.Allocator.mergeLoop]
    split
    · exact uncut
    · split
      · exact ih (uncut.setFrame (a := a.unlink _ _) (by decide)) _
      · exact uncut

theorem Uncut.buddyFree (uncut : Uncut a) {ptr : ℕ} {b : Model.Allocator}
    (freed : a.buddyFree ptr = some b) :
    Uncut b := by
  rw [Model.Allocator.buddyFree] at freed
  simp only at freed
  split at freed
  · cases freed
  · obtain rfl := Option.some.inj freed
    have hidden : Uncut (a.setFrame (a.frameIndex ptr) ⟨-1, frameBuddy⟩) :=
      uncut.setFrame (by decide : frameBuddy ≤ 0)
    exact (hidden.mergeLoop _ _).setFrame (le_refl (0 : ℤ))

theorem Uncut.releasePages (uncut : Uncut a) {base : ℕ} {pages : List ℕ} {b : Model.Allocator}
    (released : a.releasePages base pages = some b) : Uncut b := by
  induction pages generalizing a with
  | nil =>
    obtain rfl := Option.some.inj released
    exact uncut
  | cons i rest ih =>
    rw [Model.Allocator.releasePages] at released
    split at released
    · obtain ⟨mid, freed, others⟩ := Option.bind_eq_some_iff.mp released
      exact ih (uncut.buddyFree freed) others
    · exact ih uncut released

private theorem uncut_of_boot {start size kernelEnd : Word} {regions : List ReservedRegion}
    {fuel : ℕ} {started : Model.Allocator}
    (boot : startupAllocator start size kernelEnd regions fuel = some started) : Uncut started := by
  obtain ⟨metadata, placed, -⟩ := started_of_boot boot
  rw [startupAllocator_eq, placed, Option.bind_some] at boot
  refine Uncut.releasePages (fun j => ?_) boot
  have marked := marked_markRegions start.toNat ((size / pageSize).setWidth 32).toNat start
    (regions ++ [⟨metadata, metadata + metadataLength size⟩])
  rcases (marked.frames j).2 with status | status
  · exact status.trans_le (by decide)
  · exact status.trans_le (by decide)

theorem Uncut.poolPages (uncut : Uncut a) {pool : ℕ} (valid : pool < 8) : poolPages a pool = ∅ := by
  apply Finset.eq_empty_of_forall_notMem
  intro j member
  have low := uncut j
  rw [(mem_poolPages.mp member).2] at low
  have positive := (chunkSize_spec pool valid).1
  have high : (chunkSize pool : ℤ) ≤ 0 := low
  omega

end Uncut

/-! ## Runs -/

section Runs

variable {started : Model.Allocator} {s : State}

/-- The number of live chunks of each pool after a call. -/
def demand (_ : State) (_ : Call) (t : State) (pool : ℕ) : ℕ := (liveChunks t.live pool).length

/-- What the accounts of a state say, with the largest demand on each pool so far. -/
structure Accounts (started : Model.Allocator) (s : State) (peak : ℕ → ℕ) : Prop where
  pages : freePages s.allocator ∪ (blockPages s.allocator s.live ∪ chunkPages s.allocator) =
    freePages started
  offBlocks : Disjoint (freePages s.allocator) (blockPages s.allocator s.live)
  offChunks : Disjoint (freePages s.allocator) (chunkPages s.allocator)
  apart : Disjoint (blockPages s.allocator s.live) (chunkPages s.allocator)
  canonical : Canonical maxOrder (freeBlocks s.allocator)
  blockCount : ∀ k, s.allocator.freelistsSize k = (s.allocator.freelists k).length
  chunkCount : ∀ pool < 8, s.allocator.poolFreelistSize pool =
    (s.allocator.poolFreeList pool).length
  chunks : ∀ pool < 8, ∀ node, node ∈ s.allocator.poolFreeList pool ++ liveChunks s.live pool ↔
    FreeChunk s.allocator pool node
  once : ∀ pool < 8, (s.allocator.poolFreeList pool ++ liveChunks s.live pool).Nodup
  grown : ∀ pool < 8, (poolPages s.allocator pool).card =
    (peak pool + (chunksPerPage pool - 1)) / chunksPerPage pool
  exhausted : ∀ size pool, poolFor size = some pool →
    ((∃ a, s.allocator.allocate size = some (none, a)) ↔
    blockPages s.allocator s.live ∪ chunkPages s.allocator = freePages started ∧
      (liveChunks s.live pool).length = chunksPerPage pool * (poolPages s.allocator pool).card)

/-- A page of a live block lies in an allocated block. -/
theorem Accounted.blockPages_spec {a : Model.Allocator} {live : List (ℕ × ℕ)}
    (accounted : Accounted started a live) {j : ℕ} (member : j ∈ blockPages a live) :
    ∃ idx order, j ∈ span (idx, order) ∧ Heads a idx order ∧
      (a.frameArray idx).status = frameAlloc := by
  obtain ⟨e, inUse, order, large, inside⟩ := member
  obtain ⟨bound, -, frame⟩ := block_of_live accounted.sound inUse large
  refine ⟨_, order, inside,
    accounted.sound.wellFormed.block bound (by rw [frame]) ?_, by rw [frame]⟩
  rw [frame]
  exact (by decide : frameAlloc ≠ frameBuddy)

/-- A page cut into chunks is a block of one page. -/
theorem Accounted.chunkPages_spec {a : Model.Allocator} {live : List (ℕ × ℕ)}
    (accounted : Accounted started a live) {j : ℕ} (member : j ∈ chunkPages a) :
    j ∈ span (j, 0) ∧ Heads a j 0 ∧ ∃ pool < 8, a.frameArray j = ⟨0, chunkSize pool⟩ := by
  obtain ⟨pool, valid, inPool⟩ := member
  obtain ⟨bound, frame⟩ := mem_poolPages.mp inPool
  exact ⟨start_mem_span (j, 0), accounted.sound.wellFormed.block bound (by rw [frame]; rfl)
    (not_buddy_of_chunk frame), pool, valid, frame⟩

theorem Accounted.offBlocks {a : Model.Allocator} {live : List (ℕ × ℕ)}
    (accounted : Accounted started a live) :
    Disjoint (freePages a) (blockPages a live) := by
  apply Set.disjoint_left.mpr
  intro j free member
  obtain ⟨idx, order, inside, heads, status⟩ := accounted.blockPages_spec member
  refine Set.disjoint_left.mp (accounted.sound.wellFormed.span_not_free heads ?_ ?_) inside free
  · rw [status]
    decide
  · rw [status]
    decide

theorem Accounted.offChunks {a : Model.Allocator} {live : List (ℕ × ℕ)}
    (accounted : Accounted started a live) :
    Disjoint (freePages a) (chunkPages a) := by
  apply Set.disjoint_left.mpr
  intro j free member
  obtain ⟨inside, heads, pool, valid, frame⟩ := accounted.chunkPages_spec member
  have settled := settled_of_chunk valid frame
  exact Set.disjoint_left.mp
    (accounted.sound.wellFormed.span_not_free heads settled.2 settled.1) inside free

theorem Accounted.apart {a : Model.Allocator} {live : List (ℕ × ℕ)}
    (accounted : Accounted started a live) :
    Disjoint (blockPages a live) (chunkPages a) := by
  apply Set.disjoint_left.mpr
  intro j block chunk
  obtain ⟨idx, order, inside, heads, status⟩ := accounted.blockPages_spec block
  obtain ⟨here, headsChunk, pool, valid, frame⟩ := accounted.chunkPages_spec chunk
  have different : idx ≠ j := by
    rintro rfl
    rw [frame] at status
    simp only [frameAlloc] at status
    omega
  exact Set.disjoint_left.mp
    (span_disjoint heads headsChunk (by rw [status]; decide) (not_buddy_of_chunk frame) different)
    inside here

/-- A chunk is refused when no page is free and every chunk of the pool is live. -/
theorem Accounted.exhausted {a : Model.Allocator} {live : List (ℕ × ℕ)}
    (accounted : Accounted started a live) {size pool : ℕ} (small : poolFor size = some pool) :
    (∃ b, a.allocate size = some (none, b)) ↔
      blockPages a live ∪ chunkPages a = freePages started ∧
        (liveChunks live pool).length = chunksPerPage pool * (poolPages a pool).card := by
  have valid := poolFor_lt small
  have notLarge : size ≤ 2048 := by
    by_contra large
    rw [poolFor_large (not_le.mp large)] at small
    cases small
  have pages : freePages a = ∅ ↔ blockPages a live ∪ chunkPages a = freePages started := by
    rw [← accounted.pages]
    constructor
    · intro none
      rw [none, Set.empty_union]
    · intro all
      have off : Disjoint (freePages a) (blockPages a live ∪ chunkPages a) :=
        Set.disjoint_union_right.mpr ⟨accounted.offBlocks, accounted.offChunks⟩
      rw [all] at off
      exact Set.subset_empty_iff.mp
        ((Set.subset_inter (subset_refl _) Set.subset_union_left).trans off.le_bot)
  have chunks : a.poolFreeList pool = [] ↔
      (liveChunks live pool).length = chunksPerPage pool * (poolPages a pool).card := by
    rw [← balance accounted.sound valid (accounted.complete pool valid), ← List.length_eq_zero_iff]
    omega
  rw [← pages, ← chunks]
  obtain ⟨outcome, returned, chooses⟩ := accounted.sound.chooses (notLarge.trans (by decide))
  obtain ⟨chosen, validChosen, least, refused, -⟩ := chooses.chunk notLarge
  obtain ⟨found, validFound, search, leastFound⟩ := poolFor_least notLarge
  obtain rfl : found = pool := Option.some.inj (search.symm.trans small)
  obtain rfl := chunkSize_injective chosen validChosen found validFound (least.unique leastFound)
  rw [and_comm, ← refused, returned]
  constructor
  · rintro ⟨b, same⟩
    rw [Option.some.inj same]
  · intro none
    exact ⟨outcome.2, congrArg some (Prod.ext none rfl)⟩

private theorem accounted_mallocInit {start size kernelEnd : Word} (ram : Ram start size)
    {regions : List ReservedRegion} {fuel : ℕ}
    (boot : startupAllocator start size kernelEnd regions fuel = some started) :
    Accounted started started.mallocInit [] ∧
      ∀ pool < 8, ∀ positive, Draws started.mallocInit [] pool (Cache.empty positive) := by
  obtain ⟨metadata, -, left⟩ := started_of_boot boot
  have uncut : Uncut started.mallocInit := fun j => uncut_of_boot boot j
  have cut : ∀ pool < 8, poolPages started.mallocInit pool = ∅ :=
    fun pool valid => uncut.poolPages valid
  refine ⟨⟨sound_mallocInit ram boot, left.merged, fun pool valid node chunk => ?_,
    fun pool valid => rfl, ?_⟩, fun pool valid positive => ⟨?_, rfl⟩⟩
  · obtain ⟨page, member, -⟩ := freeChunk_iff.mp chunk
    rw [cut pool valid] at member
    exact absurd member (Finset.notMem_empty page)
  · have noBlock : blockPages started.mallocInit [] = ∅ := by
      apply Set.eq_empty_iff_forall_notMem.mpr
      rintro j ⟨e, member, -⟩
      exact absurd member List.not_mem_nil
    have noChunk : chunkPages started.mallocInit = ∅ := by
      apply Set.eq_empty_iff_forall_notMem.mpr
      rintro j ⟨pool, valid, member⟩
      rw [cut pool valid] at member
      exact absurd member (Finset.notMem_empty j)
    rw [noBlock, noChunk, Set.union_empty, Set.union_empty]
    rfl
  · rw [cut pool valid, Finset.card_empty]
    rfl

/-- In every state of a run from startup, the pages that startup freed are the free ones, those of
the live blocks and those of the pools, each once; the chunks of a pool's pages are on its list or
live; and a pool has as many pages as the largest number of its chunks that were live at one time
needs. -/
theorem allocator_accounts {start size kernelEnd : Word} (ram : Ram start size)
    {regions : List ReservedRegion} {fuel : ℕ}
    (boot : startupAllocator start size kernelEnd regions fuel = some started)
    {labels : List (Call × (ℕ → ℕ))}
    (run : System.Path (calls.observed demand) ⟨started.mallocInit, []⟩ labels s) :
    Accounts started s fun pool => (labels.map fun label => label.2 pool).foldl max 0 := by
  obtain ⟨initial, draws⟩ := accounted_mallocInit ram boot
  have accounted : Accounted started s.allocator s.live := by
    refine run.invariant (P := fun s => Accounted started s.allocator s.live) ?_ initial
    intro u label v holds step
    exact (holds.step step.1).1
  refine ⟨accounted.pages, accounted.offBlocks, accounted.offChunks, accounted.apart,
    accounted.sound.wellFormed.canonical accounted.merged, accounted.sound.wellFormed.size,
    accounted.sizes, fun pool valid node =>
    mem_chunks accounted.sound valid (accounted.complete pool valid), fun pool valid =>
    chunks_nodup accounted.sound valid, fun pool valid => ?_, fun size pool => accounted.exhausted⟩
  -- the pool is a cache whose demand is seen after each call
  have seen : System.Path (calls.observed fun s call t => demand s call t pool)
      ⟨started.mallocInit, []⟩
      (labels.map fun label => (label.1, label.2 pool)) s := by
    refine run.relabel _ ?_
    intro u label v step
    exact ⟨step.1, congrFun step.2 pool⟩
  obtain ⟨c, path, -, drawn⟩ := seen.simulate_observed
    (R := fun s c => Accounted started s.allocator s.live ∧ Draws s.allocator s.live pool c)
    (fun related step => by
      obtain ⟨next, follows⟩ := related.1.step step
      obtain ⟨c', demanded, drawn⟩ := follows pool valid _ related.2
      exact ⟨c', demanded, next, drawn⟩)
    ⟨initial, draws pool valid (chunksPerPage_pos valid)⟩
  rw [← drawn.units, Cache.units_of_path (chunksPerPage_pos valid) path, List.map_map]
  rfl

/-- A chunk and a block of the eight pages are taken and the chunk is freed: its pool keeps the
page. -/
theorem allocator_accounts_eightPages : ∃ started labels s,
    startupAllocator 0xffffffc080000000#64 0x8000#64 0xffffffc080000f00#64
      [⟨0xffffffc080000000#64, 0xffffffc080000f00#64⟩] 4 = some started ∧
    System.Path (calls.observed demand) ⟨started.mallocInit, []⟩ labels s ∧
    s.live = [(0xffffffc080004000, 5000)] ∧ (poolPages s.allocator 3).card = 1 ∧
    Accounts started s fun pool => (labels.map fun label => label.2 pool).foldl max 0 := by
  have ram : Ram 0xffffffc080000000#64 0x8000#64 := ⟨by decide, by decide⟩
  have result : (startupAllocator 0xffffffc080000000#64 0x8000#64 0xffffffc080000f00#64
      [⟨0xffffffc080000000#64, 0xffffffc080000f00#64⟩] 4).bind (fun started =>
        (started.mallocInit.allocate 100).bind fun first =>
          (first.2.allocate 5000).bind fun second =>
            (second.2.free 0xffffffc080002000).map fun _ => (first.1, second.1)) =
      some (some 0xffffffc080002000, some 0xffffffc080004000) := by
    decide +kernel
  obtain ⟨started, boot, rest⟩ := Option.bind_eq_some_iff.mp result
  obtain ⟨first, firstCall, rest⟩ := Option.bind_eq_some_iff.mp rest
  obtain ⟨second, secondCall, rest⟩ := Option.bind_eq_some_iff.mp rest
  obtain ⟨last, freed, pointers⟩ := Option.map_eq_some_iff.mp rest
  obtain ⟨firstPtr, secondPtr⟩ := Prod.mk.inj pointers
  have takeFirst : started.mallocInit.allocate 100 = some (some 0xffffffc080002000, first.2) :=
    firstCall.trans (congrArg some (Prod.ext firstPtr rfl))
  have takeSecond : first.2.allocate 5000 = some (some 0xffffffc080004000, second.2) :=
    secondCall.trans (congrArg some (Prod.ext secondPtr rfl))
  have one : calls.Step ⟨started.mallocInit, []⟩ (.allocate 100) ⟨first.2,
      [(0xffffffc080002000, 100)]⟩ :=
    .returned (by decide) takeFirst
  have two : calls.Step ⟨first.2, [(0xffffffc080002000, 100)]⟩ (.allocate 5000)
      ⟨second.2, [(0xffffffc080004000, 5000), (0xffffffc080002000, 100)]⟩ :=
      .returned (by decide) takeSecond
  have member : (0xffffffc080002000, 100) ∈
      [((0xffffffc080004000 : ℕ), 5000), (0xffffffc080002000, 100)] := by simp
  have three : calls.Step ⟨second.2, [(0xffffffc080004000, 5000), (0xffffffc080002000, 100)]⟩
      (.free 0xffffffc080002000)
      ⟨last, [(0xffffffc080004000, 5000)]⟩ :=
    @Step.free ⟨second.2, [(0xffffffc080004000, 5000), (0xffffffc080002000, 100)]⟩
      _ _ _ member freed
  have run : System.Path (calls.observed demand) ⟨started.mallocInit, []⟩
      [(.allocate 100, _), (.allocate 5000, _), (.free 0xffffffc080002000, _)]
      ⟨last, [(0xffffffc080004000, 5000)]⟩ :=
    .cons ⟨one, rfl⟩ (.cons ⟨two, rfl⟩ (.cons ⟨three, rfl⟩ (.nil _)))
  have accounts := allocator_accounts ram boot run
  refine ⟨started, _, _, boot, run, rfl, ?_, accounts⟩
  have peak : max (max (max 0 (liveChunks [(0xffffffc080002000, 100)] 3).length)
      (liveChunks [(0xffffffc080004000, 5000), (0xffffffc080002000, 100)] 3).length)
      (liveChunks [(0xffffffc080004000, 5000)] 3).length = 1 := by decide +kernel
  have grown := accounts.grown 3 (by decide)
  exact grown.trans ((congrArg (fun most => (most + (chunksPerPage 3 - 1)) / chunksPerPage 3)
    peak).trans (by decide))

end Runs

end OscKernel.Soundness.AllocatorAccounts
