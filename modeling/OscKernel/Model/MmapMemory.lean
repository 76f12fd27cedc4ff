import OscKernel.Model.Mmap
import OscKernel.Model.PageWalk

/-! # Mapping with population

`sys_mmap` of syscall.c with all that its population loop touches: the page tables in memory, the
reference counts and the calls of `allocate`, any of which may return a null pointer.
-/

namespace OscKernel.Model

/-- The process that calls `sys_mmap`, with the memory behind its tables. -/
structure MmapProcess where
  build : Build
  task : MmapTask
  pgd : Word
  memory : PageMemory
  pageRefCounts : Word → BitVec 8

namespace MmapProcess

/-- `set_page_ref_init`. -/
def setPageRefInit (s : MmapProcess) (pa : Word) : MmapProcess :=
  let pageIdx := s.build.pageIdx pa
  if pageIdx < s.build.numPages then
    { s with pageRefCounts := Function.update s.pageRefCounts pageIdx 1#8 }
  else s

/-- The population loop from `offset` on, with the pages that remain: whether every page was
populated. -/
def populate (s : MmapProcess) (vaStart pageProt : Word) (offset : ℕ) :
    ℕ → Option (Bool × MmapProcess)
  | 0 => some (true, s)
  | remaining + 1 =>
    let returned := s.memory.allocate s.memory.calls
    let s := { s with memory := { s.memory with calls := s.memory.calls + 1 } }
    match returned with
    | none => some (false, s)
    | some paPage =>
      let s := { s with memory := s.memory.memzero paPage pageSize }
      let pa := virtToPhys paPage
      let s := s.setPageRefInit pa
      let memory := { s.memory with activeUserPgd := s.pgd }
      (memory.mapPages (vaStart + BitVec.ofNat 64 offset) pageSize pa pageProt).bind fun memory =>
        populate { s with memory } vaStart pageProt (offset + 4096) remaining

/-- `sys_mmap`: the returned pointer and the state after it. -/
def sysMmap (s : MmapProcess) (addr length : Word) (prot flags : BitVec 32) :
    Option (Word × MmapProcess) :=
  if s.task.vmas.length ≥ 32 then some (-1#64, s)
  else
    let alignedLen := align length 4096#32
    if alignedLen = 0#64 then some (-1#64, s)
    else
      let vaStart :=
        if hintRejected s.task addr alignedLen then findFreeVmaSpace s.task alignedLen else addr
      if vaStart = 0#64 then some (-1#64, s)
      else
        let vma : VmArea := ⟨vaStart, vaStart + alignedLen, prot, flags⟩
        let s := { s with task := { s.task with vmas := s.task.vmas ++ [vma] } }
        if flags &&& mapPopulate ≠ 0#32 then
          (s.populate vaStart (mmapPageProt prot) 0 (alignedLen.toNat / 4096)).map
            fun (populated, s) =>
            (if populated then vaStart else -1#64, s)
        else some (vaStart, s)

end MmapProcess

end OscKernel.Model
