import OscKernel.Lib.Dyadic
import OscKernel.Model.Address

/-! # The physical memory allocator

memory.c: a buddy allocator over the page frames of RAM and eight pools of equal chunks cut from
single pages. A free list is the list of its nodes from the head on, named by frame index or by
chunk address; `list_add` puts a node in front, `list_add_tail` at the end. Page indices are the
`int` values of the source, which are exact because the linear map holds at most `2 ^ 26` pages;
`none` stands for a shift or an access that C leaves undefined.
-/

namespace OscKernel.Model

open OscKernel.Lib

/-- `MAX_ORDER` of memory.h. -/
def maxOrder : ℕ := 10

def frameFree : ℤ := 0
def frameAlloc : ℤ := -1
def frameBuddy : ℤ := -2
def frameReserved : ℤ := -3

/-- `struct frame`, whose list node is its place in the free lists. -/
structure Frame where
  order : ℤ
  status : ℤ
  deriving DecidableEq

/-- `page_allocator` and `pools`; pool `i` holds chunks of `poolSizes[i]` bytes. -/
structure Allocator where
  baseAddr : ℕ
  totalPages : ℕ
  frameArray : ℕ → Frame
  freelists : ℕ → List ℕ
  freelistsSize : ℕ → ℤ
  poolFreeList : ℕ → List ℕ
  poolFreelistSize : ℕ → ℤ

namespace Allocator

def setFrame (a : Allocator) (idx : ℕ) (f : Frame) : Allocator :=
  { a with frameArray := Function.update a.frameArray idx f }

/-- `list_del` of a frame of the free list of `order`, with its counter. -/
def unlink (a : Allocator) (idx order : ℕ) : Allocator :=
  { a with
    freelists := Function.update a.freelists order ((a.freelists order).erase idx)
    freelistsSize := Function.update a.freelistsSize order (a.freelistsSize order - 1) }

/-- A frame becomes a free block of `order`, in front of its list. -/
def pushFree (a : Allocator) (idx order : ℕ) : Allocator :=
  { a with
    frameArray := Function.update a.frameArray idx ⟨order, frameFree⟩
    freelists := Function.update a.freelists order (idx :: a.freelists order)
    freelistsSize := Function.update a.freelistsSize order (a.freelistsSize order + 1) }

/-- `base_addr + idx * PAGE_SIZE`. -/
def frameAddr (a : Allocator) (idx : ℕ) : ℕ := (a.baseAddr + idx * 4096) % 2 ^ 64

/-- `((unsigned long)ptr - base_addr) / PAGE_SIZE`. -/
def frameIndex (a : Allocator) (ptr : ℕ) : ℕ := (ptr + (2 ^ 64 - a.baseAddr)) % 2 ^ 64 / 4096

/-- The splitting loop of `buddy_alloc`, which has this many orders to go down to `order`: at each
it frees the upper half of the block. -/
def splitLoop (a : Allocator) (idx order : ℕ) : ℕ → Allocator
  | 0 => a
  | levels + 1 =>
    splitLoop (a.pushFree (idx + 2 ^ (order + levels)) (order + levels)) idx order levels

/-- The search of `buddy_alloc` over the orders still to try. -/
def buddyAllocLoop (a : Allocator) (order : ℕ) : List ℕ → Option ℕ × Allocator
  | [] => (none, a)
  | i :: rest =>
    match a.freelists i with
    | [] => buddyAllocLoop a order rest
    | idx :: _ =>
      let split := splitLoop (a.unlink idx i) idx order (i - order)
      (some (a.frameAddr idx), split.setFrame idx ⟨order, frameAlloc⟩)

def buddyAlloc (a : Allocator) (order : ℕ) : Option ℕ × Allocator :=
  buddyAllocLoop a order (List.range' order (maxOrder + 1 - order))

/-- The merging loop of `buddy_free`, with the number of orders below `MAX_ORDER`. It returns the
block it ends with. -/
def mergeLoop (a : Allocator) (idx order : ℕ) : ℕ → Allocator × ℕ × ℕ
  | 0 => (a, idx, order)
  | levels + 1 =>
    let buddyIdx := buddy idx order
    if buddyIdx ≥ a.totalPages then (a, idx, order)
    else if (a.frameArray buddyIdx).status = frameFree ∧ (a.frameArray buddyIdx).order = order then
      mergeLoop ((a.unlink buddyIdx order).setFrame buddyIdx ⟨-1, frameBuddy⟩)
        (if buddyIdx < idx then buddyIdx else idx) (order + 1) levels
    else (a, idx, order)

/-- `buddy_free`; a frame that is no block has a negative order, and shifting by it is undefined. -/
def buddyFree (a : Allocator) (ptr : ℕ) : Option Allocator :=
  let idx := a.frameIndex ptr
  let order := (a.frameArray idx).order
  if order < 0 then none
  else
    let merged :=
      mergeLoop (a.setFrame idx ⟨-1, frameBuddy⟩) idx order.toNat (maxOrder - order.toNat)
    some (merged.1.pushFree merged.2.1 merged.2.2)

end Allocator

/-! ## The pools -/

def poolSizes : List ℕ := [16, 32, 64, 128, 256, 512, 1024, 2048]

/-- The first pool whose chunks hold `size` bytes. -/
def poolFor (size : ℕ) : Option ℕ := poolSizes.findIdx? fun chunk => decide (size ≤ chunk)

/-- The loop that finds the order, with the number of shifts that stay defined. -/
def orderLoop (size order : ℕ) : ℕ → Option ℕ
  | 0 => none
  | shifts + 1 =>
    if 4096 * 2 ^ order % 2 ^ 64 < size then orderLoop size (order + 1) shifts else some order

def orderFor (size : ℕ) : Option ℕ := orderLoop size 0 64

namespace Allocator

/-- A page becomes chunks of a pool. -/
def refill (a : Allocator) (pool chunkSize page : ℕ) : Allocator :=
  let idx := a.frameIndex page
  let chunks := (List.range (4096 / chunkSize)).map fun i => page + i * chunkSize
  { a with
    frameArray := Function.update a.frameArray idx { a.frameArray idx with status := chunkSize }
    poolFreeList := Function.update a.poolFreeList pool (a.poolFreeList pool ++ chunks)
    poolFreelistSize := Function.update a.poolFreelistSize pool
      (a.poolFreelistSize pool + (4096 / chunkSize : ℕ)) }

/-- The first chunk of a pool leaves its list; an empty list has none to give. -/
def takeChunk (a : Allocator) (pool : ℕ) : Option (Option ℕ × Allocator) :=
  match a.poolFreeList pool with
  | [] => none
  | node :: rest => some (some node,
      { a with
        poolFreeList := Function.update a.poolFreeList pool rest
        poolFreelistSize := Function.update a.poolFreelistSize pool (a.poolFreelistSize pool - 1) })

/-- `allocate`; the inner `none` is the null pointer. -/
def allocate (a : Allocator) (size : ℕ) : Option (Option ℕ × Allocator) :=
  if size > 2048 then (orderFor size).map a.buddyAlloc
  else
    match poolFor size with
    | none => none
    | some pool =>
      if a.poolFreeList pool = [] then
        match a.buddyAlloc 0 with
        | (none, failed) => some (none, failed)
        | (some page, taken) => (taken.refill pool (poolSizes.getD pool 0) page).takeChunk pool
      else a.takeChunk pool

/-- `list_add` of a freed chunk to the pool of its size. -/
def putChunk (a : Allocator) (pool node : ℕ) : Allocator :=
  { a with
    poolFreeList := Function.update a.poolFreeList pool (node :: a.poolFreeList pool)
    poolFreelistSize := Function.update a.poolFreelistSize pool (a.poolFreelistSize pool + 1) }

/-- `free`, which tells a block from a chunk by the status of its frame. -/
def free (a : Allocator) (ptr : ℕ) : Option Allocator :=
  if ptr = 0 then some a
  else
    let status := (a.frameArray (a.frameIndex ptr)).status
    if status = frameAlloc then a.buddyFree ptr
    else if status ≥ 16 then
      match poolSizes.findIdx? fun chunk => decide ((chunk : ℤ) = status) with
      | some pool => some (a.putChunk pool ptr)
      | none => some a
    else some a

end Allocator

/-! ## Startup -/

/-- `reserved_region_t`. -/
structure ReservedRegion where
  start : Word
  stop : Word

namespace ReservedRegion

/-- `start_idx` of `startup_allocator`, a quotient cut to an `int`. -/
def startIdx (r : ReservedRegion) (base : Word) : ℤ :=
  (((r.start - base) / pageSize).setWidth 32).toInt

def endIdx (r : ReservedRegion) (base : Word) : ℤ :=
  (((r.stop - base + pageSize - 1#64) / pageSize).setWidth 32).toInt

/-- The `int` values of the marking loop. -/
def pages (r : ReservedRegion) (base : Word) : List ℤ :=
  (List.range (r.endIdx base - r.startIdx base).toNat).map fun i => r.startIdx base + i

end ReservedRegion

/-- `sizeof(struct frame)`: two `int` fields and a list node of two pointers. -/
def sizeofFrame : Word := 24#64

/-- The end of the kernel image and the size of the frame array decide where the array goes: behind
each reserved region it meets. The search need not end, so its rounds are bounded by `fuel`. -/
def placeMetadata (regions : List ReservedRegion) (length : Word) : ℕ → Word → Option Word
  | 0, _ => none
  | fuel + 1, start =>
    match regions.find? fun r =>
      !(decide (start + length ≤ r.start) || decide (start ≥ r.stop)) with
    | some r =>
      placeMetadata regions length fuel ((r.stop + pageSize - 1#64) &&& ~~~(pageSize - 1#64))
    | none => some start

namespace Allocator

/-- `buddy_init`. -/
def buddyInit (base totalPages : ℕ) : Allocator where
  baseAddr := base
  totalPages := totalPages
  frameArray := fun _ => ⟨0, frameAlloc⟩
  freelists := fun _ => []
  freelistsSize := fun _ => 0
  poolFreeList := fun _ => []
  poolFreelistSize := fun _ => 0

/-- One round of the marking loop; the comparison with `total_pages` is unsigned. -/
def markPage (a : Allocator) (j : ℤ) : Allocator :=
  let page := (BitVec.ofInt 32 j).toNat
  if page < a.totalPages then
    a.setFrame page { a.frameArray page with status := frameReserved }
  else a

def markRegions (a : Allocator) (base : Word) (regions : List ReservedRegion) : Allocator :=
  regions.foldl (fun a r => (r.pages base).foldl markPage a) a

/-- The last loop of `startup_allocator` over the pages still to free. -/
def releasePages (a : Allocator) (start : ℕ) : List ℕ → Option Allocator
  | [] => some a
  | i :: rest =>
    if (a.frameArray i).status ≠ frameReserved then
      (a.buddyFree ((start + i * 4096) % 2 ^ 64)).bind (releasePages · start rest)
    else a.releasePages start rest

/-- `startup_allocator` on the regions it finds: the device tree, the kernel image, the initial RAM
disk and the children of `/reserved-memory`. The frame array is the last region. -/
def startupAllocator (start size kernelEnd : Word) (regions : List ReservedRegion) (fuel : ℕ) :
    Option Allocator :=
  let totalPages : BitVec 32 := (size / pageSize).setWidth 32
  let length := totalPages.setWidth 64 * sizeofFrame
  match placeMetadata regions length fuel
    ((kernelEnd + pageSize - 1#64) &&& ~~~(pageSize - 1#64)) with
  | none => none
  | some metadata =>
    let marked := (buddyInit start.toNat totalPages.toNat).markRegions start
      (regions ++ [⟨metadata, metadata + length⟩])
    marked.releasePages start.toNat (List.range totalPages.toNat)

/-- `malloc_init`. -/
def mallocInit (a : Allocator) : Allocator :=
  { a with poolFreeList := fun _ => [], poolFreelistSize := fun _ => 0 }

end Allocator

end OscKernel.Model
