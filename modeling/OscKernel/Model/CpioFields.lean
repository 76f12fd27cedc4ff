import OscKernel.Model.Cpio

/-! # Hexadecimal fields and offsets in both kernels

`hex8_to_uint` of lab2/kernel/cpio.c, and how the scans of that kernel and of this one come from the
header of an entry to its data and to the next entry.
-/

namespace OscKernel.Model

namespace ByteMemory

variable (memory : ByteMemory)

/-- The loop of `hex8_to_uint` with its result so far. -/
def hex8ToUintFrom (res : BitVec 32) : Word → ℕ → BitVec 32
  | _, 0 => res
  | s, n + 1 =>
    let c := BitVec.ofNat 32 (memory s).toNat
    let res := res <<< 4
    hex8ToUintFrom
      (if memory s ≥ 48 ∧ memory s ≤ 57 then res + (c - 48#32)
      else if memory s ≥ 65 ∧ memory s ≤ 70 then res + (c - 65#32 + 10#32)
      else if memory s ≥ 97 ∧ memory s ≤ 102 then res + (c - 97#32 + 10#32)
      else res) (s + 1#64) n

/-- `hex8_to_uint`. -/
def hex8ToUint (s : Word) : BitVec 32 := memory.hex8ToUintFrom 0#32 s 8

end ByteMemory

/-- Where the data of an entry and the entry behind it are, from its header on. -/
structure CpioOffsets where
  data : Word
  next : Word
  deriving DecidableEq

/-- The offsets of `cpio_get_file`. -/
def cpioOffsets (memory : ByteMemory) (p : Word) : CpioOffsets :=
  let namesize := memory.hextoi (p + cpioNamesizeOffset) 8
  let filesize := memory.hextoi (p + cpioFilesizeOffset) 8
  { data := (cpioDataOffset namesize).setWidth 64
    next := align (cpioHeaderSize + namesize.setWidth 64) 4#32 + align (filesize.setWidth 64) 4#32 }

/-- The offsets of `cpio_ls` and `cpio_cat` of lab2, which are kept in a `uint32_t`. -/
def labTwoCpioOffsets (memory : ByteMemory) (p : Word) : CpioOffsets :=
  let namesize := memory.hex8ToUint (p + cpioNamesizeOffset)
  let filesize := memory.hex8ToUint (p + cpioFilesizeOffset)
  let offset := (cpioHeaderSize + namesize.setWidth 64).setWidth 32
  let offset := (offset + 3#32) &&& ~~~3#32
  let data := offset.setWidth 64
  let offset := offset + filesize
  let offset := (offset + 3#32) &&& ~~~3#32
  { data, next := offset.setWidth 64 }

end OscKernel.Model
