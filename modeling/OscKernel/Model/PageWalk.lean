import OscKernel.Model.Paging

/-! # Page tables in memory

`pagewalk`, `map_pages` and `iterate_page_table` of paging.c on the words of memory that the tables
are made of. Memory gives a word to each virtual address of the kernel; only those of multiples of
eight are meant. What the calls of `allocate` return is given by their number; a walk that gets a
null pointer clears page zero, which C leaves undefined, and has no result.
-/

namespace OscKernel.Model

/-- The memory behind the tables, with the calls of `allocate` so far. -/
structure PageMemory where
  word : Word → Word
  kernelPgd : Word
  activeUserPgd : Word
  allocate : ℕ → Option Word
  calls : ℕ

def vpn2 (va : Word) : ℕ := ((va >>> 30) &&& 0x1ff#64).toNat
def vpn1 (va : Word) : ℕ := ((va >>> 21) &&& 0x1ff#64).toNat
def vpn0 (va : Word) : ℕ := ((va >>> 12) &&& 0x1ff#64).toNat

/-- `&table[index]`. -/
def entryAddress (table : Word) (index : ℕ) : Word := table + BitVec.ofNat 64 (8 * index)

namespace PageMemory

/-- `table[index]`. -/
def entry (s : PageMemory) (table : Word) (index : ℕ) : Word := s.word (entryAddress table index)

/-- `table[index] = pte`. -/
def setEntry (s : PageMemory) (table : Word) (index : ℕ) (pte : Word) : PageMemory :=
  { s with word := Function.update s.word (entryAddress table index) pte }

/-- `memzero`. -/
def memzero (s : PageMemory) (start n : Word) : PageMemory :=
  { s with word := fun a => if a - start < n then 0#64 else s.word a }

/-- One level of `pagewalk`: the table that the entry points to, after the entry has got one. -/
def walkTable (s : PageMemory) (table : Word) (vpn : ℕ) : Option (PageMemory × Word) :=
  if present (s.entry table vpn) then some (s, physToVirt (ptePa (s.entry table vpn)))
  else
    (s.allocate s.calls).map fun newVa =>
      let s := { s with calls := s.calls + 1 }
      let s := s.memzero newVa pageSize
      let s := s.setEntry table vpn (makePte (virtToPhys newVa) pteV)
      (s, physToVirt (ptePa (s.entry table vpn)))

def pagewalk (s : PageMemory) (va pa prot : Word) : Option PageMemory := do
  let pgdBase := if va ≥ pageOffset then s.kernelPgd else s.activeUserPgd
  let (s, pmd) ← s.walkTable pgdBase (vpn2 va)
  let (s, pte) ← s.walkTable pmd (vpn1 va)
  some (s.setEntry pte (vpn0 va) (makePte pa (prot ||| pteV)))

/-- The rounds of the loop of `map_pages` from offset `i` on. -/
def mapPagesFrom (s : PageMemory) (va pa prot : Word) (i : ℕ) : ℕ → Option PageMemory
  | 0 => some s
  | rounds + 1 =>
    (s.pagewalk (va + BitVec.ofNat 64 i) (pa + BitVec.ofNat 64 i) prot).bind fun s =>
      mapPagesFrom s va pa prot (i + 4096) rounds

/-- `map_pages`. Beyond the last multiple of the page size its counter wraps and the loop does not
end. -/
def mapPages (s : PageMemory) (va size pa prot : Word) : Option PageMemory :=
  if size.toNat ≤ 2 ^ 64 - 4096 then s.mapPagesFrom va pa prot 0 ((size.toNat + 4095) / 4096)
  else none

/-- `iterate_page_table`. -/
def iteratePageTable (s : PageMemory) (pgdBase va : Word) (func : PteFunc) : Word :=
  if present (s.entry pgdBase (vpn2 va)) = false then 0#64
  else
    let pmd := physToVirt (ptePa (s.entry pgdBase (vpn2 va)))
    if present (s.entry pmd (vpn1 va)) = false then 0#64
    else
      let pte := physToVirt (ptePa (s.entry pmd (vpn1 va)))
      if present (s.entry pte (vpn0 va)) = false then 0#64
      else
        match func with
        | .checkCow => if copyOnWrite (s.entry pte (vpn0 va)) then 1#64 else 0#64
        | .getPa => ptePa (s.entry pte (vpn0 va))
        | .getProt => (s.entry pte (vpn0 va) &&& 0x3ff#64) &&& ~~~pteCow

end PageMemory

end OscKernel.Model
