import Mathlib.Algebra.Group.Nat.Defs
import OscKernel.Lib.Overlay
import OscKernel.Model.Vfs

/-! # Open files and the tmpfs data path

`struct file` is a cursor into one vnode. Positions, sizes and lengths are 64-bit unsigned in the
source and natural numbers here, with the wraparound of every sum and difference written out. A
user buffer is the memory it points into.
-/

namespace OscKernel.Model

open OscKernel.Lib

/-- `struct file`. -/
structure File where
  vnode : VnodeId
  fPos : ℕ
  fOps : Option FileOps
  refCount : ℤ
  flags : ℤ

/-- `TMPFS_MAX_FILE_SIZE` of tmpfs.h. -/
def tmpfsMaxFileSize : ℕ := 4096

/-- The value of an `unsigned long` sum. -/
def wrap64 (n : ℕ) : ℕ := n % 2 ^ 64

/-- An `unsigned long` difference. -/
def sub64 (a b : ℕ) : ℕ := (a + 2 ^ 64 - b % 2 ^ 64) % 2 ^ 64

/-- The conversion of an `unsigned long` to the returned `int`. -/
def toInt32 (n : ℕ) : ℤ := (BitVec.ofNat 32 n).toInt

/-- `tmpfs_read`: the returned value, the bytes copied to the buffer, and the moved handle. -/
def tmpfsRead (node : FsNode) (file : File) (len : ℕ) : ℤ × List UInt8 × File :=
  if node.type ≠ .file then (-1, [], file)
  else if file.fPos ≥ node.size then (0, [], file)
  else
    let available := node.size - file.fPos
    let len := if len > available then available else len
    (toInt32 len, (List.range len).map (fun i => node.data (file.fPos + i)),
      { file with fPos := wrap64 (file.fPos + len) })

/-- `tmpfs_write`: the returned value, the written node, and the moved handle. -/
def tmpfsWrite (node : FsNode) (file : File) (buf : ℕ → UInt8) (len : ℕ) : ℤ × FsNode × File :=
  if node.type ≠ .file then (-1, node, file)
  else
    let len :=
      if wrap64 (file.fPos + len) > tmpfsMaxFileSize then sub64 tmpfsMaxFileSize file.fPos else len
    if len = 0 then (-1, node, file)
    else
      let fPos := wrap64 (file.fPos + len)
      (toInt32 len,
        { node with
          data := overlay node.data file.fPos len buf
          size := if fPos > node.size then fPos else node.size },
        { file with fPos })

/-- The handle that `vfs_open` allocates for the vnode it found or created. -/
def openHandle (foundNode : VnodeId) (fOps : Option FileOps) (flags : ℤ) : File where
  vnode := foundNode
  fPos := 0
  fOps
  refCount := 1
  flags

/-- `vfs_close`: a handle whose count reaches zero is freed. -/
def vfsClose (file : File) : Option File :=
  let file := { file with refCount := file.refCount - 1 }
  if file.refCount = 0 then none else some file

@[simp] theorem wrap64_of_lt {n : ℕ} (bound : n < 2 ^ 64) : wrap64 n = n := Nat.mod_eq_of_lt bound

theorem sub64_of_le {a b : ℕ} (le : b ≤ a) (bound : a < 2 ^ 64) : sub64 a b = a - b := by
  rw [sub64]
  omega

theorem toInt32_of_lt {n : ℕ} (bound : n < 2 ^ 31) : toInt32 n = n := by
  rw [toInt32, BitVec.toInt_eq_toNat_of_lt (by rw [BitVec.toNat_ofNat]; omega), BitVec.toNat_ofNat,
    Nat.mod_eq_of_lt (by omega)]

end OscKernel.Model
