import OscKernel.Model.Fdt
import OscKernel.Model.Memory

/-! # The scan of the reserved memory

The part of `startup_allocator` that adds the regions of `/reserved-memory` to `rg`. Beside its
results each scan gives the pointers at which it reads a token, in the scan itself, in `skip_node`
and in `fdt_getprop`.
-/

namespace OscKernel.Model

/-- `"reg"`. -/
def regName : List UInt8 := [114, 101, 103]
/-- `"alloc-ranges"`. -/
def allocRangesName : List UInt8 := [97, 108, 108, 111, 99, 45, 114, 97, 110, 103, 101, 115]
/-- `"/reserved-memory"`. -/
def reservedMemoryPath : List UInt8 :=
  [47, 114, 101, 115, 101, 114, 118, 101, 100, 45, 109, 101, 109, 111, 114, 121]

/-- The regions that a scan adds to `rg`, and where it reads tokens. -/
structure ReservedScan where
  regions : List ReservedRegion
  tokens : List Word

namespace ByteMemory

variable (memory : ByteMemory)

/-- `fdt64_to_cpu`. -/
def fdt64ToCpu (p : Word) : Word :=
  (memory p).toBitVec.setWidth 64 <<< 56 ||| (memory (p + 1#64)).toBitVec.setWidth 64 <<< 48 |||
    (memory (p + 2#64)).toBitVec.setWidth 64 <<< 40 |||
    (memory (p + 3#64)).toBitVec.setWidth 64 <<< 32 |||
    (memory (p + 4#64)).toBitVec.setWidth 64 <<< 24 |||
    (memory (p + 5#64)).toBitVec.setWidth 64 <<< 16 |||
    (memory (p + 6#64)).toBitVec.setWidth 64 <<< 8 ||| (memory (p + 7#64)).toBitVec.setWidth 64

/-- Where the loop of `skip_node` reads tokens. -/
def skipNodeTokens : ℕ → ℕ → Word → Option (List Word)
  | _, 0, _ => some []
  | 0, _ + 1, _ => none
  | fuel + 1, level + 1, p =>
    let tag := memory.fdt32ToCpu p
    let behind := p + 4#64
    (if tag = fdtBeginNode then (memory.skipName fuel behind).bind (skipNodeTokens fuel (level + 2))
    else if tag = fdtEndNode then skipNodeTokens fuel level behind
    else if tag = fdtProp then skipNodeTokens fuel (level + 1) (memory.skipValue behind)
    else if tag = fdtEnd then some []
    else skipNodeTokens fuel (level + 1) behind).map (p :: ·)

/-- Where the loop of `fdt_getprop` reads tokens. -/
def fdtGetpropLoopTokens (stringsBase : Word) (name : List UInt8) : ℕ → Word → Option (List Word)
  | 0, _ => none
  | fuel + 1, p =>
    let tag := memory.fdt32ToCpu p
    let behind := p + 4#64
    (if tag = fdtProp then
      let nameoff := memory.fdt32ToCpu (behind + 4#64)
      if memory.strcmp (stringsBase + nameoff.setWidth 64) name = 0 then some []
      else fdtGetpropLoopTokens stringsBase name fuel (memory.skipValue behind)
    else if tag = fdtNop then fdtGetpropLoopTokens stringsBase name fuel behind
    else some []).map (p :: ·)

/-- Where `fdt_getprop` reads tokens. -/
def fdtGetpropTokens (fuel : ℕ) (fdt : Word) (nodeoffset : BitVec 32) (name : List UInt8) :
    Option (List Word) :=
  let p := memory.fdtStructBase fdt + nodeoffset.signExtend 64
  (if memory.fdt32ToCpu p ≠ fdtBeginNode then some []
  else (memory.skipName fuel (p + 4#64)).bind
    (memory.fdtGetpropLoopTokens (memory.fdtStringsBase fdt) name fuel)).map (p :: ·)

/-- The loop that skips the properties of the node, up to the first token that starts a node. -/
def skipToNode : ℕ → Word → Option (Word × List Word)
  | 0, _ => none
  | fuel + 1, p =>
    let tag := memory.fdt32ToCpu p
    if tag = fdtBeginNode then some (p, [p])
    else
      (skipToNode fuel (if tag = fdtProp then memory.skipValue (p + 4#64) else p + 4#64)).map
        fun reached =>
        (reached.1, p :: reached.2)

/-- The loop over the padding behind a child. -/
def skipNops : ℕ → Word → Option (Word × List Word)
  | 0, _ => none
  | fuel + 1, p =>
    if memory.fdt32ToCpu p = fdtNop then (skipNops fuel (p + 4#64)).map fun reached =>
      (reached.1, p :: reached.2)
    else some (p, [p])

/-- The region of the first two cells of a property. -/
def cellRegion (prop : Word) : ReservedRegion :=
  let start := physToVirt (memory.fdt64ToCpu prop)
  ⟨start, start + memory.fdt64ToCpu (prop + 8#64)⟩

/-- `fdt_getprop` and the region that is added when it finds the property. -/
def propRegions (fuel : ℕ) (fdt : Word) (childOffset : BitVec 32) (name : List UInt8) :
    Option ReservedScan := do
  let prop ← memory.fdtGetprop fuel fdt childOffset name
  let tokens ← memory.fdtGetpropTokens fuel fdt childOffset name
  some ⟨prop.toList.map fun found => memory.cellRegion found.1, tokens⟩

/-- The loop over the children. The null pointer of `skip_node` is read like any other. -/
def reservedChildren (fdt : Word) : ℕ → Word → Option ReservedScan
  | 0, _ => none
  | fuel + 1, p =>
    if memory.fdt32ToCpu p ≠ fdtBeginNode then some ⟨[], [p]⟩
    else do
      let childOffset := (p - memory.fdtStructBase fdt).setWidth 32
      let behindName ← memory.skipName fuel (p + 4#64)
      let reg ← memory.propRegions fuel fdt childOffset regName
      let allocRanges ← memory.propRegions fuel fdt childOffset allocRangesName
      let skipped ← memory.skipNode fuel behindName
      let skippedTokens ← memory.skipNodeTokens fuel 1 behindName
      let next ← memory.skipNops fuel (skipped.getD 0#64)
      let rest ← reservedChildren fdt fuel next.1
      some ⟨reg.regions ++ allocRanges.regions ++ rest.regions,
        p :: (reg.tokens ++ allocRanges.tokens ++ skippedTokens ++ next.2 ++ rest.tokens)⟩

/-- What `startup_allocator` adds from `/reserved-memory`. -/
def reservedMemory (fuel : ℕ) (fdt : Word) : Option ReservedScan := do
  let offset ← memory.fdtPathOffset fuel fdt reservedMemoryPath
  if offset.toInt ≥ 0 then
    let p := memory.fdtStructBase fdt + offset.signExtend 64
    let behindName ← memory.skipName fuel (p + 4#64)
    let first ← memory.skipToNode fuel behindName
    let children ← memory.reservedChildren fdt fuel first.1
    some ⟨children.regions, p :: (first.2 ++ children.tokens)⟩
  else some ⟨[], []⟩

end ByteMemory

end OscKernel.Model
