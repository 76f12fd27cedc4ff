import OscKernel.Model.Address

/-! # The memory-map table of a process

`check_vma_overlap`, `find_free_vma_space` and `sys_mmap` of syscall.c, on the fields of
`task_struct` that they read and write. The table is the used part of `vmas`. Demand paging and
the population loop act on the page table through `map_pages`; `sys_mmap` is given the addresses
that `allocate` hands out and returns the calls it makes.
-/

namespace OscKernel.Model

def mapAnonymous : BitVec 32 := 0x20#32
def mapPopulate : BitVec 32 := 0x8000#32

/-- `struct vm_area`; the range is `[start, stop)`. -/
structure VmArea where
  start : Word
  stop : Word
  prot : BitVec 32
  flags : BitVec 32
deriving DecidableEq, Repr

/-- The fields of `task_struct` behind `sys_mmap`. The code size is the 32-bit file size that
`cpio_get_file` reports. -/
structure MmapTask where
  vmas : List VmArea
  codeSize : Word
  codeSize_lt : codeSize.toNat < 2 ^ 32

/-- One call of `map_pages` for a single page. -/
structure MapRequest where
  va : Word
  pa : Word
  prot : Word
deriving DecidableEq, Repr

def checkVmaOverlap (curr : MmapTask) (start stop : Word) : Bool :=
  curr.vmas.any (fun vma => start < vma.stop && stop > vma.start) ||
    (start < userStack + stackSize && stop > userStack) ||
    start < curr.codeSize

/-- The search loop of `find_free_vma_space` from `base` on. -/
def findFreeVmaSpaceFrom (curr : MmapTask) (length base : Word) : Word :=
  if base + length ≤ userStack then
    if checkVmaOverlap curr base (base + length) then
      findFreeVmaSpaceFrom curr length (base + 4096#64)
    else base
  else 0#64
termination_by 2 ^ 64 - (base + length).toNat
decreasing_by
  have bound : (base + length).toNat ≤ userStack.toNat := ‹base + length ≤ userStack›
  have value : userStack.toNat = 0x3fffffc000 := rfl
  bv_omega

def findFreeVmaSpace (curr : MmapTask) (length : Word) : Word :=
  findFreeVmaSpaceFrom curr length 0x60000000#64

/-- The permission bits of a populated page. -/
def mmapPageProt (prot : BitVec 32) : Word :=
  let pageProt := protUserBase
  let pageProt := if prot &&& 1#32 ≠ 0 then pageProt ||| pteR else pageProt
  let pageProt := if prot &&& 2#32 ≠ 0 then pageProt ||| pteW ||| pteR else pageProt
  if prot &&& 4#32 ≠ 0 then pageProt ||| pteX else pageProt

/-- The population loop from page `i` on: the mapping calls, and whether every `allocate`
succeeded. -/
def populate (vaStart pageProt : Word) (allocate : ℕ → Option Word) (i : ℕ) :
    ℕ → List MapRequest × Bool
  | 0 => ([], true)
  | remaining + 1 =>
      match allocate i with
      | none => ([], false)
      | some paPage =>
          let rest := populate vaStart pageProt allocate (i + 1) remaining
          (⟨vaStart + BitVec.ofNat 64 (4096 * i), virtToPhys paPage, pageProt⟩ :: rest.1, rest.2)

/-- The hint is replaced by a search: it is null, not page aligned, or overlaps. -/
def hintRejected (curr : MmapTask) (addr alignedLen : Word) : Bool :=
  addr = 0#64 || addr &&& 4095#64 ≠ 0#64 || checkVmaOverlap curr addr (addr + alignedLen)

/-- `sys_mmap`: the returned pointer, the task, and the calls of `map_pages`. -/
def sysMmap (curr : MmapTask) (addr length : Word) (prot flags : BitVec 32)
    (allocate : ℕ → Option Word) : Word × MmapTask × List MapRequest :=
  if curr.vmas.length ≥ 32 then (-1#64, curr, [])
  else
    let alignedLen := align length 4096#32
    if alignedLen = 0#64 then (-1#64, curr, [])
    else
      let vaStart :=
        if hintRejected curr addr alignedLen then findFreeVmaSpace curr alignedLen else addr
      if vaStart = 0#64 then (-1#64, curr, [])
      else
        let curr :=
          { curr with vmas := curr.vmas ++ [⟨vaStart, vaStart + alignedLen, prot, flags⟩] }
        if flags &&& mapPopulate ≠ 0#32 then
          let populated := populate vaStart (mmapPageProt prot) allocate 0 (alignedLen.toNat / 4096)
          (if populated.2 then vaStart else -1#64, curr, populated.1)
        else (vaStart, curr, [])

end OscKernel.Model
