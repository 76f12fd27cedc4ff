import OscKernel.Model.Tmpfs

/-! # Creating, opening and mounting

The operations of vfs.c that change the tree, with what the three drivers do in them. Vnodes, nodes
and mounts are numbered in the order of their allocation, and memory just allocated holds what the
table holds at its number. Which allocations of a call succeed is an argument. An operation without
a result has left what C defines, or its lookup has run out of fuel.
-/

namespace OscKernel.Model

/-- `TMPFS_MAX_NAME` of tmpfs.h. -/
def tmpfsMaxName : ℕ := 16
/-- `O_CREAT` of vfs.h. -/
def oCreat : BitVec 32 := 64#32
/-- The slots of `active_mounts`. -/
def maxMounts : ℕ := 8
/-- The size of `parent_path` in `vfs_open` and `vfs_mkdir`. -/
def maxParentPath : ℕ := 256

/-- The tables with the number of vnodes, nodes and mounts allocated so far. -/
structure VfsHeap extends Vfs where
  vnodeCount : ℕ
  nodeCount : ℕ
  mountCount : ℕ

/-- Which allocations of a call succeed. -/
structure Grants where
  mount : Bool
  vnode : Bool
  node : Bool
  data : Bool
  handle : Bool

namespace VfsHeap

def addVnode (fs : VfsHeap) (vnode : Vnode) : VfsHeap :=
  { fs with vnodes := Function.update fs.vnodes fs.vnodeCount vnode, vnodeCount :=
    fs.vnodeCount + 1 }

def addNode (fs : VfsHeap) (node : FsNode) : VfsHeap :=
  { fs with nodes := Function.update fs.nodes fs.nodeCount node, nodeCount := fs.nodeCount + 1 }

def setInternal (fs : VfsHeap) (vnode : VnodeId) (node : NodeId) : VfsHeap :=
  { fs with vnodes := Function.update fs.vnodes vnode { fs.vnodes vnode with internal := node } }

/-- `node->entries[slot] = child`. -/
def setEntry (fs : VfsHeap) (node : NodeId) (slot : Fin maxEntries) (child : VnodeId) : VfsHeap :=
  let entries := Function.update (fs.nodes node).entries slot (some child)
  { fs with nodes := Function.update fs.nodes node { fs.nodes node with entries := entries } }

end VfsHeap

/-! ## The drivers -/

/-- The loop that copies a name. The terminator of a name of sixteen bytes falls on the low byte of
the type, which makes the node a directory. -/
def FsNode.writeName (node : FsNode) (componentName : List UInt8) : FsNode :=
  let copied := componentName.take tmpfsMaxName
  if copied.length < tmpfsMaxName then
    { node with name := copied ++ 0 :: node.name.drop (copied.length + 1) }
  else { node with name := copied, type := .dir }

/-- The first empty slot of a directory. -/
def FsNode.freeSlot (node : FsNode) : Option (Fin maxEntries) :=
  (List.finRange maxEntries).find? fun i => (node.entries i).isNone

/-- What `tmpfs_create` and `tmpfs_mkdir` share: a file allocates its data, a directory clears its
entries. -/
def tmpfsInsert (type : VnodeType) (fs : VfsHeap) (dirNode : VnodeId) (componentName : List UInt8)
    (grants : Grants) : Outcome × VfsHeap :=
  let dNode := (fs.vnodes dirNode).internal
  if (fs.nodes dNode).type ≠ .dir then (.error (-1), fs)
  else
    match tmpfsLookup fs.toVfs dirNode componentName with
    | .found _ => (.error (-1), fs)
    | .error _ =>
      match (fs.nodes dNode).freeSlot with
      | none => (.error (-1), fs)
      | some slot =>
        if grants.vnode = false then (.error (-1), fs)
        else
          let newVnode := fs.vnodeCount
          let fs := fs.addVnode
            { mount := none
              vOps := some .tmpfs
              fOps := some .tmpfs
              parent := some dirNode
              type
              internal := (fs.vnodes newVnode).internal }
          if grants.node = false then (.error (-1), fs)
          else
            let newTNode := fs.nodeCount
            let fresh : FsNode := { fs.nodes newTNode with type := type, size := 0 }
            if type = .file ∧ grants.data = false then (.error (-1), fs.addNode fresh)
            else
              let contents := match type with
                | .file => fresh
                | .dir => { fresh with entries := fun _ => none }
              let fs :=
                (fs.addNode (contents.writeName componentName)).setInternal newVnode newTNode
              (.found newVnode, fs.setEntry dNode slot newVnode)

def tmpfsCreate := tmpfsInsert .file
def tmpfsMkdir := tmpfsInsert .dir

/-- `ramfs_create` and `ramfs_mkdir`. -/
def ramfsRefuse (fs : VfsHeap) (_dirNode : VnodeId)
    (_componentName : List UInt8) (_grants : Grants) :
    Outcome × VfsHeap := (.error (-1), fs)

def ramfsCreate := ramfsRefuse
def ramfsMkdir := ramfsRefuse

/-- The function `v_ops->create` points to; devfs has none. -/
def VnodeOps.create : VnodeOps →
    Option (VfsHeap → VnodeId → List UInt8 → Grants → Outcome × VfsHeap)
  | .tmpfs => some tmpfsCreate
  | .devfs => none
  | .ramfs => some ramfsCreate

/-- The function `v_ops->mkdir` points to. -/
def VnodeOps.mkdir : VnodeOps → Option (VfsHeap → VnodeId → List UInt8 → Grants → Outcome × VfsHeap)
  | .tmpfs => some tmpfsMkdir
  | .devfs => none
  | .ramfs => some ramfsMkdir

/-- The vnode that a driver makes the root of a mount; it is its own parent. -/
def rootVnode (fs : VfsHeap) (vOps : VnodeOps) (fOps : Option FileOps) : Vnode where
  mount := none
  vOps := some vOps
  fOps
  parent := some fs.vnodeCount
  type := .dir
  internal := (fs.vnodes fs.vnodeCount).internal

/-- `tmpfs_setup_mount`; the target is the root of the mount. -/
def tmpfsSetupMount (fs : VfsHeap) (grants : Grants) : Outcome × VfsHeap :=
  if grants.vnode = false then (.error (-1), fs)
  else
    let root := fs.vnodeCount
    let fs := fs.addVnode (rootVnode fs .tmpfs (some .tmpfs))
    if grants.node = false then (.error (-1), fs)
    else
      let tRoot := fs.nodeCount
      let node : FsNode := { fs.nodes tRoot with type := .dir, size := 0, entries := fun _ => none }
      (.found root, (fs.addNode node).setInternal root tRoot)

/-- `strncpy(node->name, literal, n)` of a literal that is shorter than `n`. -/
def FsNode.named (node : FsNode) (literal : List UInt8) (n : ℕ) : FsNode :=
  { node with name := literal ++ List.replicate (n - literal.length) 0 ++ node.name.drop n }

/-- A file that a driver puts under its root while it is set up. -/
def addFile (fs : VfsHeap) (root : VnodeId) (rootNode : NodeId) (slot : Fin maxEntries)
    (vOps : VnodeOps) (fOps : FileOps) (node : FsNode) : VfsHeap :=
  let vnode := fs.vnodeCount
  let fs := fs.addVnode
    { mount := none, vOps := some vOps, fOps := some fOps, parent := some root, type :=
      .file, internal := fs.nodeCount }
  (fs.addNode node).setEntry rootNode slot vnode

/-- `devfs_setup_mount`, which does not look at its allocations: a failing one is undefined. -/
def devfsSetupMount (fs : VfsHeap) (grants : Grants) : Option (Outcome × VfsHeap) :=
  if grants.vnode = false ∨ grants.node = false then none
  else
    let root := fs.vnodeCount
    let fs := fs.addVnode (rootVnode fs .devfs none)
    let dRoot := fs.nodeCount
    let empty (fs : VfsHeap) (type : VnodeType) : FsNode :=
      { fs.nodes fs.nodeCount with type := type, size := 0, entries := fun _ => none }
    let fs := (fs.addNode ((empty fs .dir).named [47] 2)).setInternal root dRoot
    let fs := addFile fs root dRoot ⟨0, by decide⟩
      .devfs .devfsUart ((empty fs .file).named [117, 97, 114, 116] 5)
    let fs :=
      addFile fs root dRoot ⟨1, by decide⟩ .devfs .devfsFb ((empty fs .file).named [102, 98] 3)
    some (.found root, fs)

/-- A file of the initial RAM disk, and whether the two allocations for it succeed. -/
structure CpioFile where
  name : List UInt8
  size : ℕ
  data : ℕ → UInt8
  granted : Bool

/-- The loop of `ramfs_setup_mount` over the files of the RAM disk. -/
def ramfsFiles (fs : VfsHeap) (root : VnodeId) (rootNode : NodeId)
    (slotIdx : ℕ) : List CpioFile → VfsHeap
  | [] => fs
  | file :: rest =>
    if h : slotIdx < maxEntries then
      if strcmp file.name [dot] = 0 then ramfsFiles fs root rootNode slotIdx rest
      else if file.granted then
        let node : FsNode :=
          { name := file.name.take (maxName - 1) ++
            List.replicate (maxName - min file.name.length (maxName - 1)) 0
            type := .file
            size := file.size
            data := file.data
            entries := fun _ => none }
        ramfsFiles (addFile fs root rootNode ⟨slotIdx, h⟩ .ramfs .ramfs node)
          root rootNode (slotIdx + 1) rest
      else ramfsFiles fs root rootNode slotIdx rest
    else fs

def ramfsSetupMount (fs : VfsHeap) (cpio : List CpioFile) (grants : Grants) : Outcome × VfsHeap :=
  if grants.vnode = false then (.error (-1), fs)
  else
    let root := fs.vnodeCount
    let fs := fs.addVnode (rootVnode fs .ramfs (some .ramfs))
    if grants.node = false then (.error (-1), fs)
    else
      let rRoot := fs.nodeCount
      let node : FsNode := { fs.nodes rRoot with type := .dir, size := 0, entries := fun _ => none }
      let fs := (fs.addNode (node.named [47] 2)).setInternal root rRoot
      (.found root, ramfsFiles fs root rRoot 0 cpio)

/-! ## Opening and creating by path -/

/-- The scan of `vfs_open` and `vfs_mkdir` for the last slash. -/
def lastSlash : List UInt8 → Option ℕ
  | [] => none
  | c :: rest =>
    match lastSlash rest with
    | some i => some (i + 1)
    | none => if c = slash then some 0 else none

/-- The directory part, which keeps the slash only when it is the first byte. -/
def parentPath (pathname : List UInt8) (lastSlash : ℕ) : List UInt8 :=
  if lastSlash > 0 then pathname.take lastSlash else [slash]

/-- The name behind the last slash, as far as it fits. -/
def fileName (pathname : List UInt8) (lastSlash : ℕ) : List UInt8 :=
  (pathname.drop (lastSlash + 1)).take (maxName - 1)

/-- The string in `filename` after `strncpy(filename, pathname, MAX_NAME)`: a long name has no
terminator there, and reading it runs on into the bytes `behind` the array. -/
def plainName (pathname behind : List UInt8) : List UInt8 :=
  if pathname.length < maxName then pathname else pathname.take maxName ++ behind

/-- How `vfs_open` and `vfs_mkdir` find the directory and the name to create; the copy of a
directory part that is too long writes past its array. -/
def resolveParent (fs : VfsHeap) (fuel : ℕ) (base : VnodeId) (pathname behind : List UInt8) :
    Option (Outcome × List UInt8) :=
  match lastSlash pathname with
  | none => some (.found base, plainName pathname behind)
  | some i =>
    if i < maxParentPath then
      (vfsLookupFrom fs.toVfs fuel base (parentPath pathname i)).map fun outcome =>
        (outcome, fileName pathname i)
    else none

/-- What `vfs_open` returns: a handle and code 0, or a negative code. -/
inductive Opened where
  | handle (file : File)
  | error (code : ℤ)

/-- The end of `vfs_open`. -/
def openFound (fs : VfsHeap) (foundNode : VnodeId) (flags : BitVec 32)
    (grants : Grants) : Opened × VfsHeap :=
  if grants.handle = false then (.error (-1), fs)
  else (.handle (openHandle foundNode (fs.vnodes foundNode).fOps flags.toInt), fs)

/-- The part of `vfs_open` that creates the file, with its target. -/
def createAt (fs : VfsHeap) (fuel : ℕ) (base : VnodeId)
    (pathname behind : List UInt8) (grants : Grants) :
    Option (Outcome × VfsHeap) :=
  (resolveParent fs fuel base pathname behind).map fun
    | (.error code, _) => (.error code, fs)
    | (.found parent, name) =>
      match (fs.vnodes parent).vOps.bind VnodeOps.create with
      | none => (.error (-1), fs)
      | some create => create fs parent name grants

def vfsOpen (fs : VfsHeap) (fuel : ℕ) (base : VnodeId) (pathname : List UInt8) (flags : BitVec 32)
    (behind : List UInt8) (grants : Grants) : Option (Opened × VfsHeap) :=
  (vfsLookupFrom fs.toVfs fuel base pathname).bind fun
    | .found foundNode => some (openFound fs foundNode flags grants)
    | .error code =>
      if flags &&& oCreat ≠ 0#32 then
        (createAt fs fuel base pathname behind grants).map fun
          | (.error code, fs) => (.error code, fs)
          | (.found foundNode, fs) => openFound fs foundNode flags grants
      else some (.error code, fs)

/-- `vfs_mkdir`; the vnode it makes is returned beside code 0. -/
def vfsMkdir (fs : VfsHeap) (fuel : ℕ) (base : VnodeId)
    (pathname behind : List UInt8) (grants : Grants) :
    Option (Outcome × VfsHeap) :=
  (resolveParent fs fuel base pathname behind).map fun
    | (.error code, _) => (.error code, fs)
    | (.found parent, name) =>
      match (fs.vnodes parent).vOps.bind VnodeOps.mkdir with
      | none => (.error (-1), fs)
      | some mkdir => mkdir fs parent name grants

/-! ## Mounting -/

/-- The filesystems that `start_kernel` registers: tmpfs, ramfs and devfs. -/
def registeredFilesystems : List (List UInt8 × VnodeOps) :=
  [([116, 109, 112, 102, 115], .tmpfs), ([114, 97, 109, 102, 115], .ramfs),
    ([100, 101, 118, 102, 115], .devfs)]

/-- The call through `fs_driver->setup_mount`. -/
def VnodeOps.setupMount (fs : VfsHeap) (cpio : List CpioFile) (grants : Grants) :
    VnodeOps → Option (Outcome × VfsHeap)
  | .tmpfs => some (tmpfsSetupMount fs grants)
  | .devfs => devfsSetupMount fs grants
  | .ramfs => some (ramfsSetupMount fs cpio grants)

/-- The mount and its mountpoint point at each other, and the table takes the mount if it has
room. -/
def VfsHeap.link (fs : VfsHeap) (mnt : MountId) (root mountpoint : VnodeId) : VfsHeap :=
  { fs with
    mounts := Function.update fs.mounts mnt ⟨root, mountpoint⟩
    vnodes := Function.update fs.vnodes mountpoint { fs.vnodes mountpoint with mount := some mnt }
    activeMounts :=
      if fs.activeMounts.length < maxMounts then fs.activeMounts ++ [mnt] else fs.activeMounts }

def vfsMount (fs : VfsHeap) (fuel : ℕ) (base : VnodeId) (target filesystem : List UInt8)
    (cpio : List CpioFile) (grants : Grants) : Option (ℤ × VfsHeap) :=
  (vfsLookupFrom fs.toVfs fuel base target).bind fun
    | .error code => some (code, fs)
    | .found mountpoint =>
      match registeredFilesystems.find? fun driver => strcmp driver.1 filesystem = 0 with
      | none => some (-1, fs)
      | some (_, driver) =>
        if grants.mount = false then some (-1, fs)
        else
          (driver.setupMount { fs with mountCount := fs.mountCount + 1 } cpio grants).map fun
            | (.error code, fs) => (code, fs)
            | (.found root, made) => (0, made.link fs.mountCount root mountpoint)

/-- `vfs_chdir`, with the working directory after it. -/
def vfsChdir (fs : Vfs) (fuel : ℕ) (cwd : VnodeId) (pathname : List UInt8) : Option (ℤ × VnodeId) :=
  (vfsLookupFrom fs fuel cwd pathname).map fun
    | .error code => (code, cwd)
    | .found target => if (fs.vnodes target).type ≠ .dir then (-1, cwd) else (0, target)

/-- `start_kernel` up to the first `vfs_mkdir`: the root filesystem is a tmpfs mounted on its own
root. What the memory held before is the argument. -/
def bootVfs (memory : Vfs) : VfsHeap :=
  let fs : VfsHeap :=
    { memory with
      rootfs := 0, activeMounts := [], vnodeCount := 0, nodeCount := 0, mountCount := 1 }
  let fs := (tmpfsSetupMount fs ⟨true, true, true, true, true⟩).2
  { fs with mounts := Function.update fs.mounts 0 ⟨0, 0⟩, activeMounts := [0] }

end OscKernel.Model
