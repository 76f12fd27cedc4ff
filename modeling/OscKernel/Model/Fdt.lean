import OscKernel.Model.Cpio

/-! # The flattened device tree

The scans of fdt.c over the tokens of a flattened device tree. They are loops over memory that
nothing bounds, so they take fuel. A path is the list of its bytes, and the pointer into it the part
behind.
-/

namespace OscKernel.Model

/-- `FDT_BEGIN_NODE`. -/
def fdtBeginNode : BitVec 32 := 1#32
/-- `FDT_END_NODE`. -/
def fdtEndNode : BitVec 32 := 2#32
/-- `FDT_PROP`. -/
def fdtProp : BitVec 32 := 3#32
/-- `FDT_NOP`. -/
def fdtNop : BitVec 32 := 4#32
/-- `FDT_END`. -/
def fdtEnd : BitVec 32 := 9#32
/-- The value of `magic`. -/
def fdtMagic : BitVec 32 := 0xd00dfeed#32

/-- `'@'`. -/
def atSign : UInt8 := 64

/-- The separator of a path. -/
def pathSlash : UInt8 := 47

/-- `strchr`, with the part of the string that starts at the character. -/
def strchr (c : UInt8) : List UInt8 → Option (List UInt8)
  | [] => none
  | d :: rest => if d = c then some (d :: rest) else strchr c rest

namespace ByteMemory

variable (memory : ByteMemory)

/-- `fdt32_to_cpu`. -/
def fdt32ToCpu (p : Word) : BitVec 32 :=
  (memory p).toBitVec.setWidth 32 <<< 24 ||| (memory (p + 1#64)).toBitVec.setWidth 32 <<< 16 |||
    (memory (p + 2#64)).toBitVec.setWidth 32 <<< 8 ||| (memory (p + 3#64)).toBitVec.setWidth 32

/-- The pointer behind a name, aligned to four bytes. -/
def skipName (fuel : ℕ) (p : Word) : Option Word :=
  (memory.strlen fuel p).map fun length => align (p + BitVec.ofNat 64 length + 1#64) 4#32

/-- The pointer behind the length, name offset and value of a property, from the pointer to its
length. -/
def skipValue (p : Word) : Word := align (p + 8#64 + (memory.fdt32ToCpu p).setWidth 64) 4#32

/-- The loop of `skip_node`; the null pointer is the inner `none`. -/
def skipNodeFrom : ℕ → ℕ → Word → Option (Option Word)
  | _, 0, p => some (some p)
  | 0, _ + 1, _ => none
  | fuel + 1, level + 1, p =>
    let tag := memory.fdt32ToCpu p
    let p := p + 4#64
    if tag = fdtBeginNode then do
      let p ← memory.skipName fuel p
      skipNodeFrom fuel (level + 2) p
    else if tag = fdtEndNode then skipNodeFrom fuel level p
    else if tag = fdtProp then skipNodeFrom fuel (level + 1) (memory.skipValue p)
    else if tag = fdtEnd then some none
    else skipNodeFrom fuel (level + 1) p

/-- `skip_node`. -/
def skipNode (fuel : ℕ) (p : Word) : Option (Option Word) := memory.skipNodeFrom fuel 1 p

/-- The loop of `fdt_path_offset`, with its two pointers. -/
def fdtPathLoop (structBase : Word) : ℕ → List UInt8 → Word → Option (BitVec 32)
  | 0, _, _ => none
  | fuel + 1, curSeg, p =>
    let tag := memory.fdt32ToCpu p
    let tagAddr := p
    let p := p + 4#64
    if tag = fdtBeginNode then do
      let nodeName := p
      let p ← memory.skipName fuel p
      let slash := strchr pathSlash curSeg
      let segLen := match slash with
        | some rest => curSeg.length - rest.length
        | none => curSeg.length
      let following := memory (nodeName + BitVec.ofNat 64 segLen)
      if memory.strncmp nodeName curSeg segLen = 0 ∧ (following = 0 ∨ following = atSign) then
        match slash with
        | none => some ((tagAddr - structBase).setWidth 32)
        | some rest =>
          if rest.tail = [] then some ((tagAddr - structBase).setWidth 32)
          else fdtPathLoop structBase fuel rest.tail p
      else do
        match ← memory.skipNode fuel p with
        | none => some (-1#32)
        | some p => fdtPathLoop structBase fuel curSeg p
    else if tag = fdtProp then fdtPathLoop structBase fuel curSeg (memory.skipValue p)
    else if tag = fdtNop then fdtPathLoop structBase fuel curSeg p
    else some (-1#32)

/-- The pointer to the structure block, from `off_dt_struct`. -/
def fdtStructBase (fdt : Word) : Word := fdt + (memory.fdt32ToCpu (fdt + 8#64)).setWidth 64

/-- The pointer to the strings block, from `off_dt_strings`. -/
def fdtStringsBase (fdt : Word) : Word := fdt + (memory.fdt32ToCpu (fdt + 12#64)).setWidth 64

/-- `fdt_path_offset`; its result is an `int`. -/
def fdtPathOffset (fuel : ℕ) (fdt : Word) (path : List UInt8) : Option (BitVec 32) :=
  if memory.fdt32ToCpu fdt ≠ fdtMagic then some (-1#32)
  else
    match path with
    | [] => some (-1#32)
    | c :: curSeg =>
      if c ≠ pathSlash then some (-1#32)
      else if curSeg = [] then some 0#32
      else do
        let p := memory.fdtStructBase fdt
        let p ← if memory.fdt32ToCpu p = fdtBeginNode then memory.skipName fuel (p + 4#64)
            else some p
        memory.fdtPathLoop (memory.fdtStructBase fdt) fuel curSeg p

/-- The loop of `fdt_getprop`, with the value and its length as an `int`; the null pointer is the
inner `none`. -/
def fdtGetpropLoop (stringsBase : Word) (name : List UInt8) :
    ℕ → Word → Option (Option (Word × BitVec 32))
  | 0, _ => none
  | fuel + 1, p =>
    let tag := memory.fdt32ToCpu p
    let p := p + 4#64
    if tag = fdtProp then
      let len := memory.fdt32ToCpu p
      let nameoff := memory.fdt32ToCpu (p + 4#64)
      if memory.strcmp (stringsBase + nameoff.setWidth 64) name = 0 then some (some (p + 8#64, len))
      else fdtGetpropLoop stringsBase name fuel (memory.skipValue p)
    else if tag = fdtNop then fdtGetpropLoop stringsBase name fuel p
    else some none

/-- `fdt_getprop`; the node offset is an `int`. -/
def fdtGetprop (fuel : ℕ) (fdt : Word) (nodeoffset : BitVec 32) (name : List UInt8) :
    Option (Option (Word × BitVec 32)) :=
  let p := memory.fdtStructBase fdt + nodeoffset.signExtend 64
  if memory.fdt32ToCpu p ≠ fdtBeginNode then some none
  else do
    let p ← memory.skipName fuel (p + 4#64)
    memory.fdtGetpropLoop (memory.fdtStringsBase fdt) name fuel p

end ByteMemory

end OscKernel.Model
