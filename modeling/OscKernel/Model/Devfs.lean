import OscKernel.Model.Tmpfs

/-! # The framebuffer device

`devfs_fb_write` and `devfs_fb_lseek64` of devfs.c. Sums and differences of `unsigned long` values
wrap as in the tmpfs data path; the framebuffer is the memory at `FB_BASE`. How many bytes reach
`memcpy` is a function of its own for both drivers.
-/

namespace OscKernel.Model

open OscKernel.Lib

/-- `FB_WIDTH`, `FB_HEIGHT` and `FB_BPP` of devfs.c. -/
def fbWidth : ℕ := 1920
def fbHeight : ℕ := 1080
def fbBpp : ℕ := 4

/-- `FB_WIDTH * FB_HEIGHT * FB_BPP`. -/
def fbSize : ℕ := fbWidth * fbHeight * fbBpp

/-- `devfs_fb_write`: the returned value, the framebuffer, and the moved handle. -/
def devfsFbWrite (frame : ℕ → UInt8) (file : File) (buf : ℕ → UInt8) (len : ℕ) :
    ℤ × (ℕ → UInt8) × File :=
  let len := if wrap64 (file.fPos + len) > fbSize then sub64 fbSize file.fPos else len
  if len = 0 then (0, frame, file)
  else
    (toInt32 len, overlay frame file.fPos len buf, { file with fPos := wrap64 (file.fPos + len) })

/-- `devfs_fb_lseek64`; only `SEEK_SET` is supported. -/
def devfsFbLseek64 (file : File) (offset : BitVec 64) (whence : ℤ) : ℤ × File :=
  if whence = 0 then
    if offset.toInt < 0 ∨ offset.toInt > fbSize then (-1, file)
    else (offset.toInt, { file with fPos := offset.toNat })
  else (-1, file)

/-- The length that the `memcpy` of `tmpfs_write` copies, 0 when it is not reached. -/
def tmpfsWriteCopied (node : FsNode) (file : File) (len : ℕ) : ℕ :=
  if node.type ≠ .file then 0
  else if wrap64 (file.fPos + len) > tmpfsMaxFileSize then sub64 tmpfsMaxFileSize file.fPos else len

/-- The length that the `memcpy` of `devfs_fb_write` copies, 0 when it is not reached. -/
def devfsFbWriteCopied (file : File) (len : ℕ) : ℕ :=
  if wrap64 (file.fPos + len) > fbSize then sub64 fbSize file.fPos else len

/-- The bytes that `tmpfs_write` changes are those of its `memcpy`. -/
theorem tmpfsWrite_data (node : FsNode) (file : File) (buf : ℕ → UInt8) (len : ℕ) :
    (tmpfsWrite node file buf len).2.1.data =
      overlay node.data file.fPos (tmpfsWriteCopied node file len) buf := by
  unfold tmpfsWrite tmpfsWriteCopied
  by_cases isFile : node.type ≠ .file
  · rw [if_pos isFile, if_pos isFile, overlay_zero]
  · rw [if_neg isFile, if_neg isFile]
    generalize (if wrap64 (file.fPos + len) > tmpfsMaxFileSize then sub64 tmpfsMaxFileSize file.fPos
      else len) = copied
    by_cases empty : copied = 0
    · simp [empty]
    · simp [empty]

/-- The bytes that `devfs_fb_write` changes are those of its `memcpy`. -/
theorem devfsFbWrite_frame (frame : ℕ → UInt8) (file : File) (buf : ℕ → UInt8) (len : ℕ) :
    (devfsFbWrite frame file buf len).2.1 = overlay frame file.fPos
    (devfsFbWriteCopied file len) buf := by
  unfold devfsFbWrite devfsFbWriteCopied
  generalize (if wrap64 (file.fPos + len) > fbSize then sub64 fbSize file.fPos else len) = copied
  by_cases empty : copied = 0
  · simp [empty]
  · simp [empty]

end OscKernel.Model
