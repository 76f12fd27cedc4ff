import OscKernel.Lib.Bytes
import OscKernel.Model.Address

/-! # Strings in memory and the CPIO archive

The string functions of utils.c that read the initial ramdisk and the device tree, and the two scans
of cpio.c. Memory is a byte at each address. A string argument that is a literal or comes from a
caller is the list of its bytes before the terminator; comparing with it ends, since it does. `char`
is unsigned on this machine, and an `int` a 32-bit word.
-/

namespace OscKernel.Model

abbrev ByteMemory := Word → UInt8

namespace ByteMemory

variable (memory : ByteMemory)

/-- The loop of `hextoi` with its result so far; the test `*s >= 0` of a digit is always true. -/
def hextoiFrom (r : BitVec 32) : Word → ℕ → BitVec 32
  | _, 0 => r
  | s, n + 1 =>
    let c := BitVec.ofNat 32 (memory s).toNat
    let r := r <<< 4
    hextoiFrom (if memory s ≥ 65 then r + (c - 65#32 + 10#32) else r + (c - 48#32)) (s + 1#64) n

/-- `hextoi`. -/
def hextoi (s : Word) (n : ℕ) : BitVec 32 := memory.hextoiFrom 0#32 s n

/-- `strcmp` of a string in memory with another. -/
def strcmp : Word → List UInt8 → ℤ
  | s, [] => (memory s).toNat
  | s, c :: rest =>
    if memory s ≠ 0 ∧ memory s = c then strcmp (s + 1#64) rest else ((memory s).toNat : ℤ) - c.toNat

/-- `strncmp` of a string in memory with another. -/
def strncmp : Word → List UInt8 → ℕ → ℤ
  | _, _, 0 => 0
  | s, [], _ + 1 => (memory s).toNat
  | s, c :: rest, n + 1 =>
    if memory s ≠ 0 ∧ memory s = c then strncmp (s + 1#64) rest n
    else ((memory s).toNat : ℤ) - c.toNat

/-- `memcmp` of bytes in memory with those of a literal, as many as it has. -/
def memcmp : Word → List UInt8 → ℤ
  | _, [] => 0
  | s, c :: rest =>
    if memory s ≠ c then ((memory s).toNat : ℤ) - c.toNat else memcmp (s + 1#64) rest

/-- `strlen`, for a string shorter than `fuel`. -/
def strlen : ℕ → Word → Option ℕ
  | 0, _ => none
  | fuel + 1, s => if memory s = 0 then some 0 else (strlen fuel (s + 1#64)).map (· + 1)

end ByteMemory

/-- `"070701"`, the value of `c_magic`. -/
def cpioMagic : List UInt8 := [48, 55, 48, 55, 48, 49]

/-- `"TRAILER!!!"`. -/
def cpioTrailer : List UInt8 := [84, 82, 65, 73, 76, 69, 82, 33, 33, 33]

/-- `sizeof(struct cpio_newc_header)`. -/
def cpioHeaderSize : Word := 110#64

/-- The offset of `c_filesize` in the header. -/
def cpioFilesizeOffset : Word := 54#64

/-- The offset of `c_namesize` in the header. -/
def cpioNamesizeOffset : Word := 94#64

/-- The offset of an entry's data from its header; it is kept in an `unsigned int`. -/
def cpioDataOffset (namesize : BitVec 32) : BitVec 32 :=
  (align (cpioHeaderSize + namesize.setWidth 64) 4#32).setWidth 32

/-- What `cpio_get_all_files` hands back: three values through its arguments and the data as its
result. -/
structure CpioCursor where
  name : Word
  size : Word
  next : Word
  data : Word

/-- `cpio_get_all_files`; a null result is `none`. -/
def cpioGetAllFiles (memory : ByteMemory) (cpioBase currentPtr : Word) : Option CpioCursor :=
  let p := if currentPtr = 0#64 then cpioBase else currentPtr
  if p = 0#64 then none
  else if memory.strncmp p cpioMagic 6 ≠ 0 then none
  else
    let namesize := memory.hextoi (p + cpioNamesizeOffset) 8
    let filesize := memory.hextoi (p + cpioFilesizeOffset) 8
    let filename := p + cpioHeaderSize
    if memory.strcmp filename cpioTrailer = 0 then none
    else
      let dataOffset := (cpioDataOffset namesize).setWidth 64
      some {
        name := filename
        size := filesize.setWidth 64
        next := p + dataOffset + align (filesize.setWidth 64) 4#32
        data := p + dataOffset }

/-- The files of the loop that starts at `currentPtr` and follows `next_ptr`, for fewer than `fuel`
of them. -/
def cpioFiles (memory : ByteMemory) (cpioBase : Word) : ℕ → Word → Option (List CpioCursor)
  | 0, _ => none
  | fuel + 1, currentPtr =>
    match cpioGetAllFiles memory cpioBase currentPtr with
    | none => some []
    | some file => (cpioFiles memory cpioBase fuel file.next).map (file :: ·)

/-- The scan of `cpio_get_file` from `p`, for fewer than `fuel` entries; a null result is the inner
`none`, and the size is written through an argument. -/
def cpioFindFile (memory : ByteMemory) (filename : List UInt8) :
    ℕ → Word → Option (Option (Word × Word))
  | 0, _ => none
  | fuel + 1, p =>
    if memory.strncmp p cpioMagic 6 ≠ 0 then some none
    else
      let namesize := memory.hextoi (p + cpioNamesizeOffset) 8
      let filesize := memory.hextoi (p + cpioFilesizeOffset) 8
      let currentFilename := p + cpioHeaderSize
      if memory.memcmp currentFilename cpioTrailer = 0 then some none
      else if memory.strcmp currentFilename filename = 0 then
        some (some (p + (cpioDataOffset namesize).setWidth 64, filesize.setWidth 64))
      else
        cpioFindFile memory filename fuel
          (p + (align (cpioHeaderSize + namesize.setWidth 64) 4#32 +
            align (filesize.setWidth 64) 4#32))

/-- `cpio_get_file`. -/
def cpioGetFile (memory : ByteMemory) (cpioBase : Word) (filename : List UInt8) (fuel : ℕ) :
    Option (Option (Word × Word)) :=
  if cpioBase = 0#64 then some none else cpioFindFile memory filename fuel cpioBase

end OscKernel.Model
