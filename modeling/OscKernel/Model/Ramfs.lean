import OscKernel.Model.Cpio
import OscKernel.Model.VfsUpdate

/-! # Files of the initial RAM disk

The loop of `ramfs_setup_mount` over the archive in memory, and `vfs_read` with the drivers' read
functions. A node of ramfs points to the data in the archive, which nothing writes.
-/

namespace OscKernel.Model

/-- The string at an address, where it is shorter than `fuel`. -/
def ByteMemory.string (memory : ByteMemory) : ℕ → Word → Option (List UInt8)
  | 0, _ => none
  | fuel + 1, s =>
    if memory s = 0 then some [] else (memory.string fuel (s + 1#64)).map (memory s :: ·)

/-- The bytes at an address. -/
def ByteMemory.bytes (memory : ByteMemory) (s : Word) (n : ℕ) : List UInt8 :=
  (List.range n).map fun i => memory (s + BitVec.ofNat 64 i)

/-- What `ramfs_setup_mount` takes from a file of the archive. -/
def cpioFile (memory : ByteMemory) (fuel : ℕ) (file : CpioCursor)
    (granted : Bool) : Option CpioFile :=
  (memory.string fuel file.name).map fun name =>
    { name, size := file.size.toNat, data := fun i =>
      memory (file.data + BitVec.ofNat 64 i), granted }

/-- The files that the loop of `ramfs_setup_mount` is given one by one, for fewer than `fuel` of
them; `granted` says for which of them both allocations succeed. -/
def ramDisk (memory : ByteMemory) (cpioBase : Word) (granted : ℕ → Bool) (fuel : ℕ) :
    Option (List CpioFile) :=
  (cpioFiles memory cpioBase fuel 0#64).bind fun files =>
    files.zipIdx.mapM fun (file, i) => cpioFile memory fuel file (granted i)

/-- `ramfs_read`: the returned value, the bytes copied to the buffer, and the moved handle. -/
def ramfsRead (node : FsNode) (file : File) (len : ℕ) : ℤ × List UInt8 × File :=
  if node.type = .dir then (0, [], file)
  else if node.type ≠ .file then (-1, [], file)
  else if file.fPos ≥ node.size then (0, [], file)
  else
    let available := sub64 node.size file.fPos
    let len := if len > available then available else len
    (toInt32 len, (List.range len).map (fun i => node.data (file.fPos + i)),
      { file with fPos := wrap64 (file.fPos + len) })

/-- `vfs_read`; what `devfs_uart_read` waits for is not modelled. -/
def vfsRead (fs : Vfs) (file : File) (len : ℕ) : Option (ℤ × List UInt8 × File) :=
  let node := fs.nodes (fs.vnodes file.vnode).internal
  match file.fOps with
  | none => some (-1, [], file)
  | some .tmpfs => some (tmpfsRead node file len)
  | some .devfsUart => none
  | some .devfsFb => some (-1, [], file)
  | some .ramfs => some (ramfsRead node file len)

end OscKernel.Model
