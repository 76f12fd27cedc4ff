import OscKernel.Model.PageWalk

/-! # The page tables of the kernel and of a process in memory

`setup_vm` and `drop_identity_map` of paging.c, the copy of the kernel half in `create_user_process`
and `sys_fork`, and `fork_copy_page_table_cow`, on the words that the tables are made of. While
`setup_vm` runs, the tables are at their physical addresses; each word is named by its later virtual
address here. The writes of `satp` and the flushes are left out.
-/

namespace OscKernel.Model

def pgdSize : Word := 1#64 <<< 30
def pmdSize : Word := 1#64 <<< 21

def pteG : Word := 1#64 <<< 5
def protKernel : Word := pteV ||| pteR ||| pteW ||| pteX ||| pteG ||| pteA ||| pteD
def protKernelRw : Word := pteV ||| pteR ||| pteW ||| pteG ||| pteA ||| pteD

/-- `KERNEL_PGD_INDEX`. -/
def kernelPgdIndex : ℕ := vpn2 pageOffset

/-- `LINEAR_MAP_GIB`. -/
def Build.linearMapGib : Build → ℕ
  | .board => 2
  | .debug => 1

def Build.plicBase : Build → Word
  | .board => 0xffffffc0e0000000#64
  | .debug => 0xffffffc00c000000#64

def Build.uartBase : Build → Word
  | .board => 0xffffffc0d4017000#64
  | .debug => 0xffffffc010000000#64

def fwCfgBase : Word := 0xffffffc010100000#64

/-- The index at which `setup_vm` puts `mmio_pmd`. -/
def Build.mmioIdx : Build → ℕ
  | .board => kernelPgdIndex + 3
  | .debug => kernelPgdIndex

/-- `RAM_START + i * PGD_SIZE`. -/
def Build.gibStart (build : Build) (i : ℕ) : Word := build.ramStart + BitVec.ofNat 64 i * pgdSize

def Build.identityIdx (build : Build) (i : ℕ) : ℕ := (build.gibStart i >>> 30).toNat
def Build.kernelIdx (build : Build) (i : ℕ) : ℕ := kernelPgdIndex + build.identityIdx i

/-- Where the static tables of paging.c are. -/
structure KernelTables where
  kernelPgd : Word
  kernelPmd : Word
  mmioPmd : Word
  uartPte : Word
  plicPteLow : Word
  plicPteHigh : Word

/-- `kernel_pmd[i]`. -/
def KernelTables.kernelPmdAt (tables : KernelTables) (i : ℕ) : Word :=
  tables.kernelPmd + BitVec.ofNat 64 (4096 * i)

namespace PageMemory

/-- A loop that writes every entry of a table. -/
def fill (s : PageMemory) (table : Word) (pte : ℕ → Word) : PageMemory :=
  (List.range 512).foldl (fun s k => s.setEntry table k (pte k)) s

/-- One round of the loop over the linear map in `setup_vm`. -/
def mapGib (s : PageMemory) (build : Build) (tables : KernelTables) (i : ℕ) : PageMemory :=
  let s := s.setEntry tables.kernelPgd (build.identityIdx i)
    (makePte (virtToPhys (tables.kernelPmdAt i)) pteV)
  let s := s.setEntry tables.kernelPgd (build.kernelIdx i)
    (makePte (virtToPhys (tables.kernelPmdAt i)) pteV)
  s.fill (tables.kernelPmdAt i) fun j =>
    makePte (build.gibStart i + BitVec.ofNat 64 j * pmdSize) protKernel

def setupVm (s : PageMemory) (build : Build) (tables : KernelTables) : PageMemory :=
  let plic := build.plicBase
  let uart := build.uartBase
  let s := s.setEntry tables.kernelPgd build.mmioIdx (makePte (virtToPhys tables.mmioPmd) pteV)
  let s := s.setEntry tables.mmioPmd (vpn1 plic) (makePte (virtToPhys tables.plicPteLow) pteV)
  let s :=
    s.setEntry tables.mmioPmd (vpn1 (plic + pmdSize)) (makePte (virtToPhys tables.plicPteHigh) pteV)
  let s := s.setEntry tables.mmioPmd (vpn1 uart) (makePte (virtToPhys tables.uartPte) pteV)
  let s := s.setEntry tables.uartPte (vpn0 uart) (makePte (virtToPhys uart) protKernelRw)
  let s := match build with
    | .board => s
    | .debug =>
      s.setEntry tables.uartPte (vpn0 fwCfgBase) (makePte (virtToPhys fwCfgBase) protKernelRw)
  let s := s.fill tables.plicPteLow fun k =>
    makePte (virtToPhys plic + BitVec.ofNat 64 k * pageSize) protKernelRw
  let s := s.fill tables.plicPteHigh fun k =>
    makePte (virtToPhys (plic + pmdSize) + BitVec.ofNat 64 k * pageSize) protKernelRw
  (List.range build.linearMapGib).foldl (fun s i => s.mapGib build tables i) s

def dropIdentityMap (s : PageMemory) (build : Build) (tables : KernelTables) : PageMemory :=
  (List.range build.linearMapGib).foldl
    (fun s i => s.setEntry tables.kernelPgd (build.identityIdx i) 0#64) s

/-- The page of a new top-level table: `memzero`, and the loop that copies the kernel half of
`kernel_pgd`. -/
def newPgd (s : PageMemory) (kernelPgd pgd : Word) : PageMemory :=
  (List.range' 256 256).foldl (fun s i => s.setEntry pgd i (s.entry kernelPgd i))
    (s.memzero pgd pageSize)

/-- The words that `iterate_page_table` reads as entries, with the levels at which it does. -/
def iterateReads (s : PageMemory) (pgdBase va : Word) : List (ℕ × Word) :=
  (2, entryAddress pgdBase (vpn2 va)) ::
    if present (s.entry pgdBase (vpn2 va)) = false then []
    else
      let pmd := physToVirt (ptePa (s.entry pgdBase (vpn2 va)))
      (1, entryAddress pmd (vpn1 va)) ::
        if present (s.entry pmd (vpn1 va)) = false then []
        else
          let pte := physToVirt (ptePa (s.entry pmd (vpn1 va)))
          [(0, entryAddress pte (vpn0 va))]

end PageMemory

/-! ## Copying the user half -/

/-- Memory with the counts of the pages that tables share. -/
structure SharedMemory extends PageMemory where
  build : Build
  pageRefCounts : Word → BitVec 8

namespace SharedMemory

def setEntry (s : SharedMemory) (table : Word) (index : ℕ) (pte : Word) : SharedMemory :=
  { s with toPageMemory := s.toPageMemory.setEntry table index pte }

def incrementPageRef (s : SharedMemory) (pa : Word) : SharedMemory :=
  let pageIdx := s.build.pageIdx pa
  if pageIdx < s.build.numPages then
    { s with pageRefCounts :=
      Function.update s.pageRefCounts pageIdx (s.pageRefCounts pageIdx + 1#8) }
  else s

/-- The entry of the child where it is missing, and the table that it points to then. -/
def walkTable (s : SharedMemory) (table : Word) (index : ℕ) : Option (SharedMemory × Word) :=
  (s.toPageMemory.walkTable table index).map fun (memory, va) =>
    ({ s with toPageMemory := memory }, va)

/-- One round of the innermost loop of `fork_copy_page_table_cow`. -/
def copyEntry (s : SharedMemory) (dstPte srcPte : Word) (k : ℕ) : SharedMemory :=
  if present (s.entry srcPte k) then
    let pteVal := s.entry srcPte k
    let (s, pteVal) :=
      if writable pteVal then
        let pteVal := (pteVal &&& ~~~pteW) ||| pteCow
        (s.setEntry srcPte k pteVal, pteVal)
      else (s, pteVal)
    let s := s.incrementPageRef (ptePa pteVal)
    s.setEntry dstPte k pteVal
  else s

def copyPte (s : SharedMemory) (dstPte srcPte : Word) : SharedMemory :=
  (List.range 512).foldl (fun s k => s.copyEntry dstPte srcPte k) s

/-- One round of the loop over a middle table. -/
def copyPmdEntry (s : SharedMemory) (dstPmd srcPmd : Word) (j : ℕ) : Option SharedMemory :=
  if present (s.entry srcPmd j) then do
    let (s, dstPte) ← s.walkTable dstPmd j
    some (s.copyPte dstPte (physToVirt (ptePa (s.entry srcPmd j))))
  else some s

def copyPmd (s : SharedMemory) (dstPmd srcPmd : Word) : Option SharedMemory :=
  (List.range 512).foldlM (fun s j => s.copyPmdEntry dstPmd srcPmd j) s

/-- One round of the loop over the top-level table. -/
def copyPgdEntry (s : SharedMemory) (dstPgd srcPgd : Word) (i : ℕ) : Option SharedMemory :=
  if present (s.entry srcPgd i) then do
    let (s, dstPmd) ← s.walkTable dstPgd i
    s.copyPmd dstPmd (physToVirt (ptePa (s.entry srcPgd i)))
  else some s

def forkCopyPageTableCow (s : SharedMemory) (dstPgd srcPgd : Word) : Option SharedMemory :=
  (List.range 256).foldlM (fun s i => s.copyPgdEntry dstPgd srcPgd i) s

end SharedMemory

end OscKernel.Model
