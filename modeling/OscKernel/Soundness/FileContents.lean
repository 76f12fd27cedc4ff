import OscKernel.Lib.NamedStrings
import OscKernel.Soundness.FileCalls
import OscKernel.Soundness.RamfsFiles
import OscKernel.Soundness.TmpfsFile

/-! # What is written under a path is read under it

The calls of any number of tasks on files are those of a store of strings under names: the regular
files of the tmpfs instances are the names, and the handles its cursors. A call of the file system
is one step, and none is made on a handle that has been freed. A path keeps leading to its file
until something is mounted, so what a task reads there is what was written.
-/

namespace OscKernel.Soundness.FileContents

open OscKernel.Lib OscKernel.Model OscKernel.Soundness.Lookup OscKernel.Soundness.TreeUpdates
  OscKernel.Soundness.MountTable OscKernel.Soundness.PathCreation OscKernel.Soundness.TmpfsFile
open OscKernel.Soundness.RamfsFiles (ReadsOut readChunks readChunks_cons)

/-! ## What is observed -/

/-- The handle behind a descriptor, if it is one of a regular tmpfs file. -/
def fileHandle (s : OpenFiles) (task : ℕ) (fd : BitVec 32) : Option ℕ :=
  (s.handle task fd).filter fun address =>
    (s.files address).any fun file => decide (IsFile s.heap.toVfs file.fOps file.vnode)

abbrev Call := StringCall VnodeId ℕ UInt8 FileSystem.Event

/-- The call that a step makes on the store of strings. -/
def observe (s : FileSystem) (event : FileSystem.Event) (t : FileSystem) : Call :=
  match event with
  | .files (.resume task fuel behind grants file) =>
    ((opening s.files task).bind fun (pathname, flags) =>
      ((vfsOpened s.files.heap fuel (s.files.base task)
        pathname flags behind grants).filter fun (v, _) =>
        decide (IsFile t.files.heap.toVfs (t.files.heap.vnodes v).fOps v)).map fun (v, created) =>
          StringCall.opened (if grants.handle then some file else none) v created).getD
            (.other event)
  | .sysRead task fd len _ =>
    ((fileHandle s.files task fd).map fun handle =>
      StringCall.read handle len.toNat (t.files.result task) (t.buffer task)).getD (.other event)
  | .sysWrite task fd buf len =>
    ((fileHandle s.files task fd).map fun handle =>
      StringCall.write handle ((List.range len.toNat).map buf) (t.files.result task)).getD
        (.other event)
  | _ => .other event

/-- Pathnames are C strings, and no length is so large that its sum with a position wraps. -/
def Fits (s : FileSystem) : FileSystem.Event → Prop
  | .files (.resume task ..) => ∀ call ∈ opening s.files task, (0 : UInt8) ∉ call.1
  | .sysMkdir _ _ pathname _ _ => (0 : UInt8) ∉ pathname
  | .sysWrite _ _ _ len => tmpfsMaxFileSize + len.toNat < 2 ^ 64
  | _ => True

/-- Nothing is mounted, and a name that is created is no longer than a lookup reads. -/
def Keeps (s : FileSystem) : FileSystem.Event → Prop
  | .files (.resume task ..) => ∀ call ∈ opening s.files task, PathCreation.Fits call.1
  | .sysMkdir _ _ pathname _ _ => PathCreation.Fits pathname
  | .sysMount .. => False
  | _ => True

def transitions : System FileSystem FileSystem.Event := .ofStep FileSystem.step

/-! ## The store of strings -/

abbrev Store := NamedStrings VnodeId ℕ UInt8

/-- The regular files among the known vnodes are strings of the store, each with a node of its
own. -/
structure Tracked (fs : VfsHeap) (store : Store) (known : VnodeId → Prop) : Prop where
  intact : Intact fs known
  content : ∀ {v data}, store.content v = some data → Allocated fs v ∧
    (nodeOf fs.toVfs v).type = .file ∧
    (nodeOf fs.toVfs v).size ≤ tmpfsMaxFileSize ∧ data = bytes (nodeOf fs.toVfs v)
  own : ∀ {v w data data'}, store.content v = some data → store.content w = some data' →
    (fs.vnodes v).internal = (fs.vnodes w).internal → v = w
  file : ∀ {v}, known v → IsFile fs.toVfs (fs.vnodes v).fOps v → ∃ data, store.content v = some data

/-- A handle on a regular file stands where the cursor of the store does. -/
def Stands (fs : VfsHeap) (store : Store) (address : ℕ) (file : File) : Prop :=
  Allocated fs file.vnode ∧ (IsFile fs.toVfs file.fOps file.vnode →
    store.cursor address = some (file.vnode, file.fPos) ∧
      ∃ data, store.content file.vnode = some data ∧ file.fPos ≤ data.length)

structure Refines (s : OpenFiles) (store : Store) (known : VnodeId → Prop) : Prop where
  tracked : Tracked s.heap store known
  handle : ∀ {address file}, s.files address = some file → Stands s.heap store address file
  cwd : ∀ {task v}, s.cwd task = some v → known v

section Store

variable {fs t : VfsHeap} {store : Store} {known known' : VnodeId → Prop}
  {address : ℕ} {file : File}

theorem length_bytes (node : FsNode) : (bytes node).length = node.size := by
  rw [bytes, List.length_map, List.length_range]

theorem Tracked.preserved (tracked : Tracked fs store known) (preserves : Preserves fs t)
    (intact : Intact t known')
    (new : ∀ v, known' v → known v ∨ ¬ IsFile t.toVfs (t.vnodes v).fOps v) :
    Tracked t store known' where
  intact := intact
  content {v data} here := by
    obtain ⟨old, isFile, bound, same⟩ := tracked.content here
    obtain ⟨allocated, -, -, type, size, contents⟩ := preserves v old
    rw [type, size, bytes, size, contents]
    exact ⟨allocated, isFile, bound, same⟩
  own {v w data data'} here there equal := by
    rw [(preserves v (tracked.content here).1).2.1,
      (preserves w (tracked.content there).1).2.1] at equal
    exact tracked.own here there equal
  file {v} inside isFile := by
    rcases new v inside with old | notFile
    · obtain ⟨-, -, fOps, type, -, -⟩ := preserves v (tracked.intact.allocated old)
      rw [IsFile, fOps, type] at isFile
      exact tracked.file old isFile
    · exact absurd isFile notFile

/-- A file has been created. -/
theorem Tracked.created (tracked : Tracked fs store known) (preserves : Preserves fs t)
    (intact : Intact t known') {n : VnodeId} (fresh : ¬ Allocated fs n) (allocated : Allocated t n)
    (isFile : (nodeOf t.toVfs n).type = .file) (empty : (nodeOf t.toVfs n).size = 0)
    (apart : ∀ v, Allocated fs v → (t.vnodes v).internal ≠ (t.vnodes n).internal)
    (new : ∀ v, known' v → known v ∨ v = n) : Tracked t (store.setContent n []) known' := by
  have cases : ∀ {v data}, (store.setContent n []).content v = some data →
      v = n ∧ data = [] ∨ v ≠ n ∧ store.content v = some data := by
    intro v data here
    change Function.update store.content n (some []) v = some data at here
    rcases eq_or_ne v n with rfl | different
    · rw [Function.update_self] at here
      exact .inl ⟨rfl, (Option.some.inj here).symm⟩
    · rw [Function.update_of_ne different] at here
      exact .inr ⟨different, here⟩
  refine ⟨intact, fun {v data} here => ?_, fun {v w data data'} here there equal => ?_,
    fun {v} inside file => ?_⟩
  · rcases cases here with ⟨rfl, rfl⟩ | ⟨-, before⟩
    · refine ⟨allocated, isFile, empty ▸ Nat.zero_le _, ?_⟩
      rw [bytes, empty]
      rfl
    · obtain ⟨old, isFile', bound, same⟩ := tracked.content before
      obtain ⟨allocated', -, -, type, size, contents⟩ := preserves v old
      rw [type, size, bytes, size, contents]
      exact ⟨allocated', isFile', bound, same⟩
  · rcases cases here with ⟨rfl, -⟩ | ⟨-, before⟩ <;>
      rcases cases there with ⟨rfl, -⟩ | ⟨-, before'⟩
    · rfl
    · exact absurd equal.symm (apart w (tracked.content before').1)
    · exact absurd equal (apart v (tracked.content before).1)
    · rw [(preserves v (tracked.content before).1).2.1,
        (preserves w (tracked.content before').1).2.1] at equal
      exact tracked.own before before' equal
  · change ∃ data, Function.update store.content n (some []) v = some data
    rcases eq_or_ne v n with rfl | different
    · exact ⟨[], Function.update_self ..⟩
    · rw [Function.update_of_ne different]
      have old := (new v inside).resolve_right different
      obtain ⟨-, -, fOps, type, -, -⟩ := preserves v (tracked.intact.allocated old)
      rw [IsFile, fOps, type] at file
      exact tracked.file old file

theorem Stands.preserved (stands : Stands fs store address file) (preserves : Preserves fs t) :
    Stands t store address file := by
  obtain ⟨allocated, -, -, type, -, -⟩ := preserves file.vnode stands.1
  refine ⟨allocated, fun isFile => ?_⟩
  rw [IsFile, type] at isFile
  exact stands.2 isFile

/-- The file is not the one that has been created. -/
theorem Stands.created (stands : Stands fs store address file) (preserves : Preserves fs t)
    {n : VnodeId} (fresh : ¬ Allocated fs n) : Stands t (store.setContent n []) address file := by
  obtain ⟨allocated, here⟩ := stands.preserved preserves
  refine ⟨allocated, fun isFile => ?_⟩
  obtain ⟨cursor, data, content, inside⟩ := here isFile
  have different : file.vnode ≠ n := fun same => fresh (same ▸ stands.1)
  exact ⟨cursor, data, (Function.update_of_ne different _ _).trans content, inside⟩

/-- Another handle has moved. -/
theorem Stands.setCursor (stands : Stands fs store address file) {other : ℕ}
    (different : address ≠ other) (name : VnodeId) (position : ℕ) :
    Stands fs (store.setCursor other name position) address file := by
  refine ⟨stands.1, fun isFile => ?_⟩
  obtain ⟨cursor, data⟩ := stands.2 isFile
  exact ⟨(Function.update_of_ne different _ _).trans cursor, data⟩

end Store

/-! ## Reading and writing -/

section Data

variable {fs : VfsHeap} {store : Store} {known : VnodeId → Prop} {node : FsNode}
  {file : File} {v : VnodeId}

/-- One read of a file, from inside it or from its end. -/
theorem tmpfsRead_bytes (isFile : node.type = .file) (bound : node.size ≤ tmpfsMaxFileSize)
    (inside : file.fPos ≤ node.size) (len : ℕ) :
    tmpfsRead node file len = (((((bytes node).drop file.fPos).take len).length : ℤ),
      ((bytes node).drop file.fPos).take len,
      { file with fPos := file.fPos + (((bytes node).drop file.fPos).take len).length }) := by
  have amount : (((bytes node).drop file.fPos).take len).length =
      delivered node.size file.fPos len := by
    rw [List.length_take, List.length_drop, length_bytes, delivered]
  rcases Nat.lt_or_eq_of_le inside with before | atEnd
  · rw [tmpfsRead_eq node file len isFile bound before, amount]
    congr 2
    apply List.ext_getElem
    · rw [amount]
      simp
    · intro i _ _
      simp [bytes]
  · have nothing : (bytes node).drop file.fPos = [] :=
      List.drop_of_length_le (by rw [length_bytes, atEnd])
    rw [nothing, List.take_nil, tmpfsRead, if_neg (not_not.mpr isFile), if_pos (by omega)]
    rfl

/-- One write, as much of it as fits. -/
private theorem tmpfsWrite_bytes (isFile : node.type = .file) (bound : node.size ≤ tmpfsMaxFileSize)
    (inside : file.fPos ≤ node.size) (buf : ℕ → UInt8) {len : ℕ} (noWrap : file.fPos + len < 2 ^ 64)
    {items : List UInt8}
    (same : ((List.range len).map buf).take (tmpfsMaxFileSize - file.fPos) = items) :
    (items = [] ∧ tmpfsWrite node file buf len = (-1, node, file)) ∨
    (items ≠ [] ∧ ∃ node', tmpfsWrite node file buf len =
      ((items.length : ℤ), node', { file with fPos := file.fPos + items.length }) ∧
      node'.type = .file ∧ node'.name = node.name ∧ node'.entries = node.entries ∧
      node'.size ≤ tmpfsMaxFileSize ∧
      bytes node' = splice (bytes node) file.fPos items) := by
  have shape : items = (List.range (stored file.fPos len)).map buf := by
    rw [← same, ← List.map_take, List.take_range, stored, Nat.min_comm]
  have amount : items.length = stored file.fPos len := by
    rw [shape, List.length_map, List.length_range]
  have written := tmpfsWrite_eq node file buf len isFile (inside.trans bound) noWrap
  split at written
  · rename_i empty
    exact .inl ⟨List.length_eq_zero_iff.mp (amount.trans empty), written⟩
  · rename_i some
    refine .inr ⟨fun empty => some (amount ▸ List.length_eq_zero_iff.mpr empty), { node with
      data := overlay node.data file.fPos (stored file.fPos len) buf
      size := max node.size (file.fPos + stored file.fPos len) }, ?_, isFile, rfl, rfl, ?_, ?_⟩
    · rw [amount]
      exact written
    · have fits : stored file.fPos len ≤ tmpfsMaxFileSize - file.fPos := min_le_right _ _
      have room := inside.trans bound
      change max node.size (file.fPos + stored file.fPos len) ≤ tmpfsMaxFileSize
      omega
    · rw [shape]
      exact map_overlay inside

theorem nodeOf_setNode (fs : VfsHeap) (v : VnodeId) (node : FsNode) (w : VnodeId) :
    nodeOf (fs.setNode v node).toVfs w =
      if (fs.vnodes w).internal = (fs.vnodes v).internal then node else nodeOf fs.toVfs w :=
  Function.update_apply _ _ _ _

/-- The walk does not depend on the data of a node. -/
private theorem kept_setNode (name : node.name = (nodeOf fs.toVfs v).name)
    (type : node.type = (nodeOf fs.toVfs v).type)
    (entries : node.entries = (nodeOf fs.toVfs v).entries) (w : VnodeId) :
    (nodeOf (fs.setNode v node).toVfs w).type = (nodeOf fs.toVfs w).type ∧
      (nodeOf (fs.setNode v node).toVfs w).entries = (nodeOf fs.toVfs w).entries ∧
      (nodeOf (fs.setNode v node).toVfs w).cName = (nodeOf fs.toVfs w).cName := by
  rw [nodeOf_setNode]
  split
  · rename_i same
    have shared : nodeOf fs.toVfs w = nodeOf fs.toVfs v := by rw [nodeOf, same, nodeOf]
    rw [shared, FsNode.cName, FsNode.cName, name, type]
    exact ⟨rfl, entries, rfl⟩
  · exact ⟨rfl, rfl, rfl⟩

private theorem intact_setNode (intact : Intact fs known)
    (same : ∀ w, (nodeOf (fs.setNode v node).toVfs w).type = (nodeOf fs.toVfs w).type ∧
      (nodeOf (fs.setNode v node).toVfs w).entries = (nodeOf fs.toVfs w).entries ∧
      (nodeOf (fs.setNode v node).toVfs w).cName = (nodeOf fs.toVfs w).cName) :
      Intact (fs.setNode v node) known where
  allocated := intact.allocated
  root := intact.root
  child {d slot w} inside entry := by
    rw [Child, (same d).1, (same d).2.1] at entry
    rw [(same w).2.2]
    exact intact.child inside entry
  mount := intact.mount
  active := intact.active
  parent := intact.parent

/-- A file has been written. -/
theorem Tracked.written (tracked : Tracked fs store known) {data data' : List UInt8}
    (here : store.content v = some data)
    (same : ∀ w, (nodeOf (fs.setNode v node).toVfs w).type = (nodeOf fs.toVfs w).type ∧
      (nodeOf (fs.setNode v node).toVfs w).entries = (nodeOf fs.toVfs w).entries ∧
      (nodeOf (fs.setNode v node).toVfs w).cName = (nodeOf fs.toVfs w).cName)
    (bound : node.size ≤ tmpfsMaxFileSize) (contents : bytes node = data') :
    Tracked (fs.setNode v node) (store.setContent v data') known := by
  have cases : ∀ {w data''}, (store.setContent v data').content w = some data'' →
      w = v ∧ data'' = data' ∨ w ≠ v ∧ store.content w = some data'' := by
    intro w data'' there
    change Function.update store.content v (some data') w = some data'' at there
    rcases eq_or_ne w v with rfl | different
    · rw [Function.update_self] at there
      exact .inl ⟨rfl, (Option.some.inj there).symm⟩
    · rw [Function.update_of_ne different] at there
      exact .inr ⟨different, there⟩
  have present : ∀ {w data''}, (store.setContent v data').content w = some data'' →
      ∃ before, store.content w = some before := by
    intro w data'' there
    rcases cases there with ⟨rfl, -⟩ | ⟨-, before⟩
    · exact ⟨data, here⟩
    · exact ⟨_, before⟩
  refine ⟨intact_setNode tracked.intact same, fun {w data''} there => ?_,
    fun {w x d d'} there there' equal => ?_, fun {w} inside file => ?_⟩
  · rcases cases there with ⟨rfl, rfl⟩ | ⟨different, before⟩
    · obtain ⟨old, isFile, -, -⟩ := tracked.content here
      refine ⟨old, (same w).1.trans isFile, ?_⟩
      rw [nodeOf_setNode, if_pos rfl]
      exact ⟨bound, contents.symm⟩
    · have apart : (fs.vnodes w).internal ≠ (fs.vnodes v).internal :=
        fun equal => different (tracked.own before here equal)
      rw [nodeOf_setNode, if_neg apart]
      exact tracked.content before
  · obtain ⟨_, before⟩ := present there
    obtain ⟨_, before'⟩ := present there'
    exact tracked.own before before' equal
  · change IsFile _ (fs.vnodes w).fOps w at file
    rw [IsFile, (same w).1] at file
    obtain ⟨before, there⟩ := tracked.file inside file
    change ∃ data, Function.update store.content v (some data') w = some data
    rcases eq_or_ne w v with rfl | different
    · exact ⟨data', Function.update_self ..⟩
    · exact ⟨before, (Function.update_of_ne different _ _).trans there⟩

private theorem kept_setNode_walk (known : VnodeId → Prop)
    (same : ∀ w, (nodeOf (fs.setNode v node).toVfs w).type = (nodeOf fs.toVfs w).type ∧
      (nodeOf (fs.setNode v node).toVfs w).entries = (nodeOf fs.toVfs w).entries ∧
      (nodeOf (fs.setNode v node).toVfs w).cName = (nodeOf fs.toVfs w).cName) :
    Kept fs.toVfs (fs.setNode v node).toVfs known where
  root := rfl
  mounts := rfl
  activeMounts := rfl
  vnode _ := rfl
  found {dir name child} inside _ found := by
    rw [← found]
    apply lookup_congr (same dir).1
    · exact fun slot => .inl (congrFun (same dir).2.1 slot)
    · exact fun slot w _ => (same w).2.2

theorem kept_grown {t : VfsHeap} (intact : Intact fs known) (grown : Grown fs t) :
    Kept fs.toVfs t.toVfs known where
  root := by rw [Vfs.root, grown.rootfs, grown.mounts, Vfs.root]
  mounts := grown.mounts
  activeMounts := grown.activeMounts
  vnode inside := (grown.nodeOf (intact.allocated inside)).1
  found inside _ found := by
    rw [grown.lookup (intact.allocated inside) (intact.children inside)]
    exact found

end Data

/-! ## One step -/

section Refines

variable {s t u : OpenFiles} {store : Store} {known : VnodeId → Prop} {task fuel address : ℕ}

theorem Refines.base (refines : Refines s store known) (task : ℕ) : known (s.base task) := by
  rw [OpenFiles.base]
  cases directory : s.cwd task with
  | none => exact refines.tracked.intact.root.2
  | some v => exact refines.cwd directory

theorem Refines.still (refines : Refines s store known) (still : Still s t) :
    Refines t store known where
  tracked := still.heap ▸ refines.tracked
  handle here := by
    obtain ⟨file, before, vnode, fPos, fOps⟩ := still.handle here
    rw [still.heap, Stands, vnode, fPos, fOps]
    exact refines.handle before
  cwd here := by
    rcases still.cwd here with rfl | ⟨other, before⟩
    · exact refines.tracked.intact.root.2
    · exact refines.cwd before

/-- A handle is made or moves; the others stand where they stood. -/
theorem Refines.setFile (refines : Refines s store known) {file : File} {v : VnodeId} {position : ℕ}
    (stands : Stands s.heap (store.setCursor address v position) address file) :
    Refines (s.setFile address (some file)) (store.setCursor address v position) known where
  tracked :=
    ⟨refines.tracked.intact, refines.tracked.content, refines.tracked.own, refines.tracked.file⟩
  handle {other file'} here := by
    change Function.update s.files address (some file) other = some file' at here
    rcases eq_or_ne other address with rfl | different
    · rw [Function.update_self] at here
      exact Option.some.inj here ▸ stands
    · rw [Function.update_of_ne different] at here
      exact (refines.handle here).setCursor different v position
  cwd := refines.cwd

/-- The same for a handle on anything but a regular file. -/
theorem Refines.setOther (refines : Refines s store known) {file : File}
    (stands : Stands s.heap store address file) :
    Refines (s.setFile address (some file)) store known where
  tracked := refines.tracked
  handle {other file'} here := by
    change Function.update s.files address (some file) other = some file' at here
    rcases eq_or_ne other address with rfl | different
    · rw [Function.update_self] at here
      exact Option.some.inj here ▸ stands
    · rw [Function.update_of_ne different] at here
      exact refines.handle here
  cwd := refines.cwd

/-- What `vfs_open` does to the tables. -/
theorem Refines.opens (refines : Refines s store known) {pathname behind : List UInt8}
    {flags : BitVec 32} {grants : Grants} {code : ℤ} (cString : (0 : UInt8) ∉ pathname)
    (opens : s.opens task pathname flags fuel behind grants address = some (code, u))
    (event : FileSystem.Event) :
    ∃ store' known', NamedStrings.Step tmpfsMaxFileSize store
        ((((vfsOpened s.heap fuel (s.base task) pathname flags behind grants).filter fun p =>
          decide (IsFile u.heap.toVfs (u.heap.vnodes p.1).fOps p.1)).map fun p =>
            StringCall.opened (if grants.handle then some address else none) p.1 p.2).getD
              (.other event)) store' ∧
      Refines u store' known' ∧ (∀ v, known v → known' v) ∧
      (PathCreation.Fits pathname → Kept s.heap.toVfs u.heap.toVfs known) := by
  obtain ⟨⟨opened, heap⟩, result, rest⟩ := Option.bind_eq_some_iff.mp opens
  have intact := refines.tracked.intact
  -- the handle, if there is one
  have ends : ∀ {v store'} {known' : VnodeId → Prop}, opened = openedResult heap v flags grants →
      Refines { s with heap } store' known' → Allocated heap v →
      (¬ IsFile heap.toVfs (heap.vnodes v).fOps v → Refines u store' known' ∧ u.heap = heap) ∧
      (∀ data, store'.content v = some data →
        Refines u (if grants.handle then store'.setCursor address v 0 else store') known' ∧
        u.heap = heap) := by
    intro v store' known' same before allocated
    rw [openedResult] at same
    cases granted : grants.handle with
    | false =>
      rw [granted] at same
      subst same
      obtain ⟨-, rfl⟩ := Prod.mk.inj (Option.some.inj rest)
      exact ⟨fun _ => ⟨before, rfl⟩, fun _ _ => ⟨before, rfl⟩⟩
    | true =>
      rw [granted] at same
      subst same
      obtain ⟨-, rest⟩ := Option.ite_none_right_eq_some.mp rest
      obtain ⟨-, rfl⟩ := Prod.mk.inj (Option.some.inj rest)
      refine ⟨fun notFile => ⟨before.setOther ⟨allocated, fun isFile => absurd isFile notFile⟩,
        rfl⟩, fun data content => ⟨?_, rfl⟩⟩
      exact before.setFile
        ⟨allocated, fun _ => ⟨Function.update_self _ _ _, data, content, Nat.zero_le _⟩⟩
  obtain ⟨v, names, rfl, lookup, same⟩ |
      ⟨parent, name, slot, names, resolved, created, inserted, same⟩ |
    ⟨names, grown, failed, same⟩ := vfsOpen_effect result
  · have inside := intact.closed.vfsLookupFrom (refines.base task) lookup
    obtain ⟨other, file⟩ := ends same refines (intact.allocated inside)
    by_cases isFile : IsFile s.heap.toVfs (s.heap.vnodes v).fOps v
    · obtain ⟨data, content⟩ := refines.tracked.file inside isFile
      obtain ⟨after, heap⟩ := file data content
      refine ⟨_, known, ?_, after, fun _ => id, fun _ => heap ▸ .refl _ _⟩
      rw [names, heap, Option.filter_some, if_pos (decide_eq_true isFile)]
      cases grants.handle
      · exact .found content none
      · exact .found content (some address)
    · obtain ⟨after, heap⟩ := other isFile
      refine ⟨store, known, ?_, after, fun _ => id, fun _ => heap ▸ .refl _ _⟩
      rw [names, heap, Option.filter_some, if_neg (fun same => isFile (of_decide_eq_true same))]
      exact .other store event
  · have parentInside := known_parent intact (refines.base task) resolved
    have nameStart := name_cString cString resolved
    have after := intact.inserted parentInside nameStart inserted
    have preserves := preserves_inserted inserted
    have fresh : ¬ Allocated s.heap s.heap.vnodeCount := fun old => lt_irrefl _ old.1
    have allocated : Allocated heap s.heap.vnodeCount := by
      rw [Allocated, inserted.newVnode, inserted.vnodeCount, inserted.nodeCount]
      exact ⟨Nat.lt_succ_self _, Nat.lt_succ_self _⟩
    have kept : PathCreation.Fits pathname → Kept s.heap.toVfs heap.toVfs known := by
      intro fits
      obtain ⟨-, short, nameCString⟩ := name_of_fits cString fits resolved
      exact kept_of_inserted intact parentInside inserted short nameCString
    by_cases isFile : IsFile heap.toVfs (heap.vnodes s.heap.vnodeCount).fOps s.heap.vnodeCount
    · have tracked := refines.tracked.created preserves after fresh allocated isFile.2
        (size_of_insert created (intact.allocated parentInside)) (fun v old => by
          rw [inserted.newVnode, (preserves v old).2.1]
          exact Nat.ne_of_lt old.2) (fun v inside => inside.imp_right And.left)
      have before : Refines { s with heap } (store.setContent s.heap.vnodeCount []) _ :=
        ⟨tracked, fun here => (refines.handle here).created preserves fresh,
          fun here => .inl (refines.cwd here)⟩
      obtain ⟨-, file⟩ := ends same before allocated
      obtain ⟨ended, rfl⟩ := file [] (Function.update_self _ _ _)
      refine ⟨_, _, ?_, ended, fun _ => .inl, kept⟩
      have new : store.content s.heap.vnodeCount = none := by
        rw [Option.eq_none_iff_forall_ne_some]
        exact fun data here => fresh (refines.tracked.content here).1
      rw [names, Option.filter_some, if_pos (decide_eq_true isFile)]
      cases grants.handle
      · exact .created new none
      · exact .created new (some address)
    · have tracked := refines.tracked.preserved preserves after fun v inside => by
        rcases inside with old | ⟨rfl, -⟩
        · exact .inl old
        · exact .inr isFile
      have before : Refines { s with heap } store _ :=
        ⟨tracked, fun here => (refines.handle here).preserved preserves,
          fun here => .inl (refines.cwd here)⟩
      obtain ⟨ended, rfl⟩ := (ends same before allocated).1 isFile
      refine ⟨store, _, ?_, ended, fun _ => .inl, kept⟩
      rw [names, Option.filter_some, if_neg (fun same => isFile (of_decide_eq_true same))]
      exact .other store event
  · subst same
    obtain ⟨-, rfl⟩ := Prod.mk.inj (Option.some.inj rest)
    refine ⟨store, known, ?_, ⟨?_, fun here => ?_, refines.cwd⟩, fun _ => id,
      fun _ => kept_grown intact grown⟩
    · rw [names]
      exact .other store event
    · exact refines.tracked.preserved (preserves_grown grown) (intact.grown grown) fun v => .inl
    · exact (refines.handle here).preserved (preserves_grown grown)

/-- What a call leaves a task with. -/
theorem Refines.returns (refines : Refines s store known) (task : ℕ) (value : ℤ) :
    Refines (s.returns task value) store known :=
  refines.still (.of_same rfl rfl rfl)

end Refines

section Steps

variable {s t : FileSystem} {store : Store} {known : VnodeId → Prop} {event : FileSystem.Event}
  {task : ℕ} {fd : BitVec 32}

/-- What the step lemma says: the step is the call that is observed, and the walk finds what it
found. -/
def Simulated (s : FileSystem) (store : Store) (known : VnodeId → Prop) (event : FileSystem.Event)
    (t : FileSystem) : Prop :=
  ∃ store' known', NamedStrings.Step tmpfsMaxFileSize store (observe s event t) store' ∧
    Refines t.files store' known' ∧
    (∀ v, known v → known' v) ∧ (Keeps s event → Kept s.files.heap.toVfs t.files.heap.toVfs known)

/-- The step is about no regular file. -/
theorem simulated_other (refines : Refines t.files store known)
    (seen : observe s event t = .other event) (heap : t.files.heap = s.files.heap) :
    Simulated s store known event t :=
  ⟨store, known, seen ▸ .other store event, refines, fun _ => id, fun _ => heap ▸ .refl _ _⟩

/-- The handle behind a descriptor is one of a regular file, or is not. -/
theorem fileHandle_cases {address : ℕ} {file : File}
    (handle : s.files.handle task fd = some address) (here : s.files.files address = some file) :
    (IsFile s.files.heap.toVfs file.fOps file.vnode ∧ fileHandle s.files task fd = some address) ∨
    (¬ IsFile s.files.heap.toVfs file.fOps file.vnode ∧ fileHandle s.files task fd = none) := by
  by_cases isFile : IsFile s.files.heap.toVfs file.fOps file.vnode
  · refine .inl ⟨isFile, ?_⟩
    rw [fileHandle, handle, Option.filter_some, here, if_pos]
    exact decide_eq_true isFile
  · refine .inr ⟨isFile, ?_⟩
    rw [fileHandle, handle, Option.filter_some, here, if_neg]
    exact fun same => isFile (of_decide_eq_true same)

theorem fileHandle_none (handle : s.files.handle task fd = none) :
    fileHandle s.files task fd = none := by
  rw [fileHandle, handle]
  rfl

private theorem tmpfsRead_same (node : FsNode) (file : File) (len : ℕ) :
    (tmpfsRead node file len).2.2.vnode = file.vnode ∧
    (tmpfsRead node file len).2.2.fOps = file.fOps := by
  simp only [tmpfsRead, apply_ite Prod.snd, apply_ite File.vnode,
    apply_ite File.fOps, ite_self, and_self]

private theorem ramfsRead_same (node : FsNode) (file : File) (len : ℕ) :
    (ramfsRead node file len).2.2.vnode = file.vnode ∧
    (ramfsRead node file len).2.2.fOps = file.fOps := by
  simp only [ramfsRead, apply_ite Prod.snd, apply_ite File.vnode,
    apply_ite File.fOps, ite_self, and_self]

/-- A read keeps what a handle is one of. -/
private theorem vfsRead_same {fs : Vfs} {file : File} {received : List UInt8} {len : ℕ}
    {result : ℤ × List UInt8 × File}
    (read : (vfsRead fs file len).or (FileSystem.devfsUartRead file received len) = some result) :
    result.2.2.vnode = file.vnode ∧ result.2.2.fOps = file.fOps := by
  simp only [vfsRead] at read
  split at read
  · obtain rfl := Option.some.inj read
    exact ⟨rfl, rfl⟩
  · obtain rfl := Option.some.inj read
    exact tmpfsRead_same _ file len
  · rw [Option.none_or, FileSystem.devfsUartRead] at read
    obtain ⟨-, same⟩ := Option.ite_none_right_eq_some.mp read
    obtain rfl := Option.some.inj same
    exact ⟨rfl, rfl⟩
  · obtain rfl := Option.some.inj read
    exact ⟨rfl, rfl⟩
  · obtain rfl := Option.some.inj read
    exact ramfsRead_same _ file len

theorem Refines.sysRead (refines : Refines s.files store known) {len : BitVec 64}
    {received : List UInt8} (read : s.sysRead task fd len received = some t) :
    Simulated s store known (.sysRead task fd len received) t := by
  rw [FileSystem.sysRead] at read
  cases handle : s.files.handle task fd with
  | none =>
    rw [handle] at read
    obtain rfl := Option.some.inj read
    refine simulated_other (refines.returns task (-1)) ?_ rfl
    rw [observe, fileHandle_none handle]
    rfl
  | some address =>
    rw [handle] at read
    obtain ⟨file, here, rest⟩ := Option.bind_eq_some_iff.mp read
    obtain ⟨result, reads, rfl⟩ := Option.map_eq_some_iff.mp rest
    obtain ⟨vnode, fOps⟩ := vfsRead_same reads
    have stands := refines.handle here
    rcases fileHandle_cases handle here with ⟨isFile, onFile⟩ | ⟨notFile, offFile⟩
    · obtain ⟨cursor, data, content, inside⟩ := stands.2 isFile
      obtain ⟨-, -, bound, same⟩ := refines.tracked.content content
      subst same
      rw [length_bytes] at inside
      have items := reads
      simp only [vfsRead, isFile.1, Option.some_or, Option.some.injEq] at items
      change tmpfsRead (nodeOf s.files.heap.toVfs file.vnode) file len.toNat = result at items
      rw [tmpfsRead_bytes isFile.2 bound inside] at items
      subst items
      generalize taken :
        ((bytes (nodeOf s.files.heap.toVfs file.vnode)).drop file.fPos).take len.toNat = items
      have stays : file.fPos + items.length ≤
          (bytes (nodeOf s.files.heap.toVfs file.vnode)).length := by
        rw [← taken, List.length_take, List.length_drop, length_bytes]
        omega
      have moved : Stands s.files.heap
          (store.setCursor address file.vnode (file.fPos + items.length)) address
          { file with fPos := file.fPos + items.length } :=
        ⟨stands.1, fun _ => ⟨Function.update_self _ _ _, _, content, stays⟩⟩
      refine ⟨_, known, ?_, (refines.setFile moved).returns task items.length,
        fun _ => id, fun _ => .refl _ _⟩
      rw [observe, onFile, Option.map_some, Option.getD_some]
      simp only [OpenFiles.returns, OpenFiles.goto, Function.update_self]
      rw [← taken]
      exact .read cursor content len.toNat
    · refine simulated_other (Refines.returns (refines.setOther ?_) task result.1) ?_ rfl
      · rw [Stands, vnode, fOps]
        exact ⟨stands.1, fun isFile => absurd isFile notFile⟩
      · rw [observe, offFile]
        rfl

theorem setNode_self (fs : VfsHeap) (v : VnodeId) : fs.setNode v (nodeOf fs.toVfs v) = fs := by
  rw [VfsHeap.setNode, nodeOf, Function.update_eq_self]

/-- A string that has grown still has every handle inside. -/
theorem Stands.written {fs : VfsHeap} {node : FsNode} {address : ℕ} {file : File} {v : VnodeId}
    {data data' : List UInt8} (stands : Stands fs store address file)
    (here : store.content v = some data) (grows : data.length ≤ data'.length)
    (type : ∀ w, (nodeOf (fs.setNode v node).toVfs w).type = (nodeOf fs.toVfs w).type) :
    Stands (fs.setNode v node) (store.setContent v data') address file := by
  refine ⟨stands.1, fun isFile => ?_⟩
  rw [IsFile, type] at isFile
  obtain ⟨cursor, before, content, inside⟩ := stands.2 isFile
  refine ⟨cursor, ?_⟩
  change ∃ after, Function.update store.content v (some data') file.vnode =
    some after ∧ file.fPos ≤ after.length
  rcases eq_or_ne file.vnode v with same | different
  · rw [same, here] at content
    obtain rfl := Option.some.inj content
    exact ⟨data', by rw [same, Function.update_self], inside.trans grows⟩
  · exact ⟨before, by rw [Function.update_of_ne different]; exact content, inside⟩

/-- A write to anything but a regular file moves at most the position in the framebuffer. -/
private theorem vfsWrite_other {fs : VfsHeap} {file : File}
    (notFile : ¬ IsFile fs.toVfs file.fOps file.vnode) (frame : ℕ → UInt8) (buf : ℕ → UInt8)
    (len : ℕ) : (FileSystem.vfsWrite fs frame file buf len).2.1 = fs ∧
      (FileSystem.vfsWrite fs frame file buf len).2.2.2.vnode = file.vnode ∧
      (FileSystem.vfsWrite fs frame file buf len).2.2.2.fOps = file.fOps := by
  rw [FileSystem.vfsWrite]
  cases ops : file.fOps with
  | none => exact ⟨rfl, rfl, ops⟩
  | some driver =>
    cases driver with
    | ramfs => exact ⟨rfl, rfl, ops⟩
    | devfsUart => exact ⟨rfl, rfl, ops⟩
    | devfsFb =>
      simp only [devfsFbWrite, apply_ite Prod.snd, apply_ite File.vnode,
        apply_ite File.fOps, ite_self, ops, and_self]
    | tmpfs =>
      have refused : tmpfsWrite (nodeOf fs.toVfs file.vnode) file buf len =
          (-1, nodeOf fs.toVfs file.vnode, file) := by
        rw [tmpfsWrite, if_pos fun isFile => notFile ⟨ops, isFile⟩]
      change fs.setNode file.vnode (tmpfsWrite (nodeOf fs.toVfs file.vnode) file buf len).2.1 = fs ∧
        (tmpfsWrite (nodeOf fs.toVfs file.vnode) file buf len).2.2.vnode = file.vnode ∧
        (tmpfsWrite (nodeOf fs.toVfs file.vnode) file buf len).2.2.fOps = some .tmpfs
      rw [refused]
      exact ⟨setNode_self fs file.vnode, rfl, ops⟩

theorem Refines.sysWrite (refines : Refines s.files store known) {buf : ℕ → UInt8} {len : BitVec 64}
    (fits : tmpfsMaxFileSize + len.toNat < 2 ^ 64) (written : s.sysWrite task fd buf len = some t) :
    Simulated s store known (.sysWrite task fd buf len) t := by
  rw [FileSystem.sysWrite] at written
  cases handle : s.files.handle task fd with
  | none =>
    rw [handle] at written
    obtain rfl := Option.some.inj written
    refine simulated_other (refines.returns task (-1)) ?_ rfl
    rw [observe, fileHandle_none handle]
    rfl
  | some address =>
    rw [handle] at written
    obtain ⟨file, here, rfl⟩ := Option.map_eq_some_iff.mp written
    have stands := refines.handle here
    rcases fileHandle_cases handle here with ⟨isFile, onFile⟩ | ⟨notFile, offFile⟩
    · obtain ⟨cursor, data, content, inside⟩ := stands.2 isFile
      obtain ⟨old, -, bound, same⟩ := refines.tracked.content content
      subst same
      have within := inside
      rw [length_bytes] at within
      have writes : FileSystem.vfsWrite s.files.heap s.frame file buf len.toNat =
          ((tmpfsWrite (nodeOf s.files.heap.toVfs file.vnode) file buf len.toNat).1,
            s.files.heap.setNode file.vnode
            (tmpfsWrite (nodeOf s.files.heap.toVfs file.vnode) file buf len.toNat).2.1,
            s.frame,
            (tmpfsWrite (nodeOf s.files.heap.toVfs file.vnode) file buf len.toNat).2.2) := by
        rw [FileSystem.vfsWrite, isFile.1]
        rfl
      have noWrap : file.fPos + len.toNat < 2 ^ 64 := by omega
      rcases tmpfsWrite_bytes isFile.2 bound within buf noWrap rfl with
        ⟨full, refused⟩ | ⟨room, node, stored, type, name, entries, bound', contents⟩
      · rw [refused, setNode_self] at writes
        rw [writes]
        refine ⟨store, known, ?_, (refines.setOther stands).returns task (-1),
          fun _ => id, fun _ => .refl _ _⟩
        rw [observe, onFile, Option.map_some, Option.getD_some]
        simp only [OpenFiles.returns, OpenFiles.goto, Function.update_self]
        exact .refused cursor full
      · generalize items : ((List.range len.toNat).map buf).take (tmpfsMaxFileSize - file.fPos) =
          taken at room stored contents
        rw [stored] at writes
        rw [writes]
        have kept := kept_setNode name (type.trans isFile.2.symm) entries
        have longer : (bytes (nodeOf s.files.heap.toVfs file.vnode)).length ≤
            (bytes node).length := by
          rw [contents, length_splice inside]
          exact le_max_left _ _
        have after : Refines { s.files with heap := s.files.heap.setNode file.vnode node }
            (store.setContent file.vnode (bytes node)) known :=
          ⟨refines.tracked.written content kept bound' rfl,
            fun there => (refines.handle there).written content longer fun w =>
            (kept w).1, refines.cwd⟩
        have moved : Stands (s.files.heap.setNode file.vnode node)
            ((store.setContent file.vnode (bytes node)).setCursor address file.vnode
              (file.fPos + taken.length)) address
            { file with fPos := file.fPos + taken.length } := by
          refine ⟨stands.1,
            fun _ => ⟨Function.update_self _ _ _, bytes node, Function.update_self _ _ _, ?_⟩⟩
          rw [contents, length_splice inside]
          exact le_max_right _ _
        refine ⟨_, known, ?_, (after.setFile moved).returns task taken.length, fun _ => id,
          fun _ => kept_setNode_walk known kept⟩
        rw [observe, onFile, Option.map_some, Option.getD_some]
        simp only [OpenFiles.returns, OpenFiles.goto, Function.update_self]
        rw [contents, ← items]
        exact .write cursor content (items ▸ room)
    · obtain ⟨heap, vnode, fOps⟩ := vfsWrite_other notFile s.frame buf len.toNat
      generalize FileSystem.vfsWrite s.files.heap s.frame file buf len.toNat =
        result at heap vnode fOps
      obtain ⟨count, heap', frame, file'⟩ := result
      dsimp only at heap vnode fOps
      subst heap
      refine simulated_other (Refines.returns (refines.setOther ?_) task count) ?_ rfl
      · rw [Stands, vnode, fOps]
        exact ⟨stands.1, fun isFile => absurd isFile notFile⟩
      · rw [observe, offFile]
        rfl

theorem Refines.sysLseek64 (refines : Refines s.files store known) {offset : BitVec 64} {whence : ℤ}
    (seeks : s.sysLseek64 task fd offset whence = some t) :
    Simulated s store known (.sysLseek64 task fd offset whence) t := by
  rw [FileSystem.sysLseek64] at seeks
  cases handle : s.files.handle task fd with
  | none =>
    rw [handle] at seeks
    obtain rfl := Option.some.inj seeks
    exact simulated_other (refines.returns task (-1)) rfl rfl
  | some address =>
    rw [handle] at seeks
    obtain ⟨file, here, rfl⟩ := Option.map_eq_some_iff.mp seeks
    refine simulated_other (Refines.returns (refines.setOther ?_) task _) rfl rfl
    have stands := refines.handle here
    by_cases frame : file.fOps = some .devfsFb
    · have same : (FileSystem.vfsLseek64 file offset whence).2.vnode = file.vnode ∧
          (FileSystem.vfsLseek64 file offset whence).2.fOps = file.fOps := by
        simp only [FileSystem.vfsLseek64, frame, devfsFbLseek64, apply_ite Prod.snd,
          apply_ite File.vnode, apply_ite File.fOps, ite_self, and_self]
      rw [Stands, same.1, same.2, frame]
      exact ⟨stands.1, fun isFile => absurd isFile.1 (by decide)⟩
    · have same : FileSystem.vfsLseek64 file offset whence = (-1, file) := by
        rw [FileSystem.vfsLseek64]
        split
        · rename_i ops
          exact absurd ops frame
        · rfl
      rw [same]
      exact stands

/-- A directory that has been made is no regular file. -/
private theorem not_isFile_dir {fs t : VfsHeap} {dir : VnodeId} {name : List UInt8}
    {slot : Fin maxEntries} (inserted : Inserted fs t .dir dir name slot) (old : Allocated fs dir)
    (fOps : Option FileOps) :
    ¬ IsFile t.toVfs fOps fs.vnodeCount := by
  obtain ⟨contents, isDir, -, node⟩ := inserted.newNode old
  rintro ⟨-, isFile⟩
  rw [node, FsNode.writeName] at isFile
  split at isFile
  · rw [isDir] at isFile
    cases isFile
  · cases isFile

theorem Refines.sysMkdir (refines : Refines s.files store known) {fuel : ℕ}
    {pathname behind : List UInt8} {grants : Grants} (cString : (0 : UInt8) ∉ pathname)
    (made : s.sysMkdir task fuel pathname behind grants = some t) :
    Simulated s store known (.sysMkdir task fuel pathname behind grants) t := by
  obtain ⟨⟨outcome, heap⟩, result, rfl⟩ := Option.map_eq_some_iff.mp made
  have intact := refines.tracked.intact
  obtain ⟨-, grown⟩ | ⟨parent, name, slot, resolved, -, -, inserted⟩ :=
    insertAt_cases (show VnodeOps.mkdir .tmpfs = some (tmpfsInsert .dir) from rfl) rfl rfl result
  · have after : Refines { s.files with heap } store known :=
      ⟨refines.tracked.preserved (preserves_grown grown) (intact.grown grown) fun v => .inl,
        fun here => (refines.handle here).preserved (preserves_grown grown), refines.cwd⟩
    exact ⟨store, known, .other store _, after.returns task _, fun _ => id,
      fun _ => kept_grown intact grown⟩
  · have parentInside := known_parent intact (refines.base task) resolved
    have after : Refines { s.files with heap } store _ :=
      ⟨refines.tracked.preserved (preserves_inserted inserted)
          (intact.inserted parentInside (name_cString cString resolved) inserted) fun v inside => by
            rcases inside with old | ⟨rfl, -⟩
            · exact .inl old
            · exact .inr (not_isFile_dir inserted (intact.allocated parentInside) _),
        fun here => (refines.handle here).preserved (preserves_inserted inserted),
        fun here => .inl (refines.cwd here)⟩
    refine ⟨store, _, .other store _, after.returns task _, fun _ => .inl, fun fits => ?_⟩
    obtain ⟨-, short, nameCString⟩ := name_of_fits cString fits resolved
    exact kept_of_inserted intact parentInside inserted short nameCString

theorem Refines.sysMount (refines : Refines s.files store known) {fuel : ℕ}
    {target filesystem : List UInt8} {cpio : List CpioFile} {grants : Grants}
    (mounted : s.sysMount task fuel target filesystem cpio grants = some t) :
    Simulated s store known (.sysMount task fuel target filesystem cpio grants) t := by
  obtain ⟨⟨code, heap⟩, result, rfl⟩ := Option.map_eq_some_iff.mp mounted
  have intact := refines.tracked.intact
  obtain ⟨-, grown⟩ | ⟨mountpoint, root, made, rfl, lookup, setup, same⟩ := vfsMount_cases result
  · have after : Refines { s.files with heap } store known :=
      ⟨refines.tracked.preserved (preserves_grown grown) (intact.grown grown) fun v => .inl,
        fun here => (refines.handle here).preserved (preserves_grown grown), refines.cwd⟩
    exact ⟨store, known, .other store _, after.returns task _, fun _ => id, False.elim⟩
  · have new : ∀ v, s.files.heap.vnodeCount ≤ v → v < heap.vnodeCount →
      ¬ IsFile heap.toVfs (heap.vnodes v).fOps v :=
      fun v low high => vfsMount_files result low high
    subst same
    have after : Refines { s.files with
        heap := made.link s.files.heap.mountCount root mountpoint } store _ :=
      ⟨refines.tracked.preserved (preserves_mounted setup)
          (intact.mounted (intact.closed.vfsLookupFrom (refines.base task) lookup) setup)
          fun v inside =>
            inside.imp_right fun range => new v range.1 range.2,
        fun here => (refines.handle here).preserved (preserves_mounted setup),
        fun here => .inl (refines.cwd here)⟩
    exact ⟨store, _, .other store _, after.returns task _, fun _ => .inl, False.elim⟩

theorem Refines.sysChdir (refines : Refines s.files store known) {fuel : ℕ} {pathname : List UInt8}
    (moved : s.sysChdir task fuel pathname = some t) :
    Simulated s store known (.sysChdir task fuel pathname) t := by
  obtain ⟨cwd, directory, rest⟩ := Option.bind_eq_some_iff.mp moved
  obtain ⟨⟨code, cwd'⟩, result, rfl⟩ := Option.map_eq_some_iff.mp rest
  have inside : known cwd' := by
    rw [vfsChdir] at result
    obtain ⟨outcome, lookup, same⟩ := Option.map_eq_some_iff.mp result
    have stays := refines.cwd directory
    cases outcome with
    | error code' => exact (Prod.mk.inj same).2 ▸ stays
    | found target =>
      simp only at same
      split at same
      · exact (Prod.mk.inj same).2 ▸ stays
      · exact (Prod.mk.inj same).2 ▸ refines.tracked.intact.closed.vfsLookupFrom stays lookup
  have after : Refines { s.files with
      cwd := Function.update s.files.cwd task (some cwd') } store known := by
    refine ⟨refines.tracked, refines.handle, fun {other v} here => ?_⟩
    simp only at here
    rcases eq_or_ne other task with rfl | different
    · rw [Function.update_self] at here
      exact Option.some.inj here ▸ inside
    · rw [Function.update_of_ne different] at here
      exact refines.cwd here
  exact simulated_other (after.returns task code) rfl rfl

theorem Refines.files (refines : Refines s.files store known) {event : OpenFiles.Event}
    (fits : Fits s (.files event)) {files : OpenFiles} (step : s.files.step event = some files) :
    Simulated s store known (.files event) { s with files } := by
  obtain ⟨still, closed⟩ |
      ⟨task, fuel, behind, grants, file, pathname, flags, code, u, rfl, opens, opened, still⟩ :=
    step_cases step
  · refine simulated_other (refines.still still) ?_ still.heap
    cases event with
    | resume task fuel behind grants file =>
      rw [observe, closed task fuel behind grants file rfl]
      rfl
    | _ => rfl
  · have cString : (0 : UInt8) ∉ pathname := fits (pathname, flags) opens
    obtain ⟨store', known', call, after, more, kept⟩ :=
      refines.opens cString opened (.files (.resume task fuel behind grants file))
    refine ⟨store', known', ?_, after.still still, more, fun keeps => ?_⟩
    · rw [observe, opens, Option.bind_some]
      dsimp only
      rw [still.heap]
      exact call
    · dsimp only
      rw [still.heap]
      exact kept (keeps (pathname, flags) opens)

/-- The step lemma. -/
theorem simulates (refines : Refines s.files store known) (fits : Fits s event)
    (step : s.step event = some t) :
    Simulated s store known event t := by
  cases event with
  | files event =>
    obtain ⟨files, taken, rfl⟩ := Option.map_eq_some_iff.mp step
    exact refines.files fits taken
  | sysRead task fd len received => exact refines.sysRead (Option.ite_none_right_eq_some.mp step).2
  | sysWrite task fd buf len =>
    exact refines.sysWrite fits (Option.ite_none_right_eq_some.mp step).2
  | sysLseek64 task fd offset whence =>
    exact refines.sysLseek64 (Option.ite_none_right_eq_some.mp step).2
  | sysMkdir task fuel pathname behind grants =>
    exact refines.sysMkdir fits (Option.ite_none_right_eq_some.mp step).2
  | sysMount task fuel target filesystem cpio grants =>
    exact refines.sysMount (Option.ite_none_right_eq_some.mp step).2
  | sysChdir task fuel pathname => exact refines.sysChdir (Option.ite_none_right_eq_some.mp step).2

end Steps

/-! ## Runs -/

/-- Reading a regular file in chunks of any sizes yields its bytes. -/
private theorem readChunks_bytes {fs : Vfs} {handle : File}
    (isFile : IsFile fs handle.fOps handle.vnode)
    (bound : (nodeOf fs handle.vnode).size ≤ tmpfsMaxFileSize)
    (inside : handle.fPos ≤ (nodeOf fs handle.vnode).size) (lens : List ℕ) :
    ∃ chunks, readChunks fs handle lens = some chunks ∧
      (∀ chunk ∈ chunks, chunk.1 = chunk.2.length) ∧
      chunks.flatMap Prod.snd =
      ((bytes (nodeOf fs handle.vnode)).drop handle.fPos).take lens.sum := by
  induction lens generalizing handle with
  | nil => exact ⟨[], rfl,
      fun _ member => absurd member List.not_mem_nil, by rw [List.sum_nil, List.take_zero]; rfl⟩
  | cons len rest ih =>
    have here : vfsRead fs handle len = some (tmpfsRead (nodeOf fs handle.vnode) handle len) := by
      simp only [vfsRead, isFile.1]
      rfl
    rw [tmpfsRead_bytes isFile.2 bound inside] at here
    have moved : handle.fPos +
        (((bytes (nodeOf fs handle.vnode)).drop handle.fPos).take len).length ≤
        (nodeOf fs handle.vnode).size := by
      rw [List.length_take, List.length_drop, length_bytes]
      omega
    obtain ⟨chunks, others, counts, pieces⟩ := @ih
      { handle with
        fPos := handle.fPos +
          (((bytes (nodeOf fs handle.vnode)).drop handle.fPos).take len).length }
      isFile bound moved
    refine ⟨_ :: chunks, by rw [readChunks_cons here, others]; rfl,
      List.forall_mem_cons.mpr ⟨rfl, counts⟩, ?_⟩
    have behind : (bytes (nodeOf fs handle.vnode)).drop
        (handle.fPos + (((bytes (nodeOf fs handle.vnode)).drop handle.fPos).take len).length) =
          (bytes (nodeOf fs handle.vnode)).drop (handle.fPos + len) := by
      rw [List.drop_eq_drop_iff, List.length_take, List.length_drop]
      omega
    rw [List.flatMap_cons, pieces, List.sum_cons, List.take_add, List.drop_drop, behind]

/-- Opening the path and reading in chunks of any sizes yields the data. -/
def ReadsBack (fs : VfsHeap) (fuel : ℕ) (base : VnodeId) (path data : List UInt8) : Prop :=
  ∀ flags behind grants, grants.handle = true →
    ∃ file, vfsOpen fs fuel base path flags behind grants = some (.handle file, fs) ∧
      ReadsOut fs.toVfs file data

section Runs

variable {s : FileSystem} {store : Store} {known : VnodeId → Prop} {fuel : ℕ}
  {base v : VnodeId} {path : List UInt8}

theorem Refines.readsBack (refines : Refines s.files store known)
    (lookup : vfsLookupFrom s.files.heap.toVfs fuel base path = some (.found v))
    (ops : (s.files.heap.vnodes v).fOps = some .tmpfs) {data : List UInt8}
    (content : store.content v = some data) :
    ReadsBack s.files.heap fuel base path data := by
  intro flags behind grants granted
  obtain ⟨-, isFile, bound, same⟩ := refines.tracked.content content
  refine ⟨openHandle v (s.files.heap.vnodes v).fOps flags.toInt, ?_, fun lens _ => ?_⟩
  · rw [vfsOpen, lookup, Option.bind_some]
    simp only [openFound_eq, openedResult, granted, if_true]
  · obtain ⟨chunks, read, counts, pieces⟩ := @readChunks_bytes
      s.files.heap.toVfs (openHandle v (s.files.heap.vnodes v).fOps flags.toInt) ⟨ops, isFile⟩
      bound (Nat.zero_le _) lens
    exact ⟨chunks, read, counts, by rw [pieces, same]; rfl⟩

theorem refines_boot (memory : Vfs) (threads : Finset ℕ) (frame : ℕ → UInt8) :
    ∃ known, Refines (FileSystem.boot memory threads frame).files NamedStrings.empty known := by
  obtain ⟨known, intact, directories⟩ := boot_intact memory
  refine ⟨known, ⟨intact, fun here => (by cases here), fun here => (by cases here),
    fun {v} inside isFile => ?_⟩, fun here => (by cases here), fun {task v} here => ?_⟩
  · -- the only vnode is the root
    obtain rfl : v = 0 := Nat.lt_one_iff.mp (intact.allocated inside).1
    cases isFile.2
  · obtain rfl := Option.some.inj here
    exact directories 0

/-- In every run of calls of any tasks, each call of the file system one step, the calls are those
of a store of strings that do not interfere; and where a path leads to a regular tmpfs file, opening
it there and reading in chunks of any sizes yields the string, now and after every further run in
which nothing is mounted. -/
theorem written_is_read {memory : Vfs} {threads : Finset ℕ} {frame : ℕ → UInt8}
    {past : List (FileSystem.Event × Call)}
    (run : System.Path ((transitions.restrict Fits).observed observe)
      (FileSystem.boot memory threads frame) past s) :
    ∃ store, System.Path (NamedStrings.strings tmpfsMaxFileSize)
      NamedStrings.empty (past.map Prod.snd) store ∧
      ∀ {task fuel path v}, (0 : UInt8) ∉ path →
        vfsLookupFrom s.files.heap.toVfs fuel (s.files.base task) path = some (.found v) →
        IsFile s.files.heap.toVfs (s.files.heap.vnodes v).fOps v →
        (∃ data, store.content v = some data ∧
          ReadsBack s.files.heap fuel (s.files.base task) path data) ∧
        ∀ {later t}, System.Path
        ((transitions.restrict fun s event => Fits s event ∧ Keeps s event).observed observe)
            s later t →
          ∃ store' data,
          System.Path (NamedStrings.strings tmpfsMaxFileSize) store (later.map Prod.snd) store' ∧
            store'.content v = some data ∧
            ReadsBack t.files.heap fuel (s.files.base task) path data := by
  obtain ⟨known, start⟩ := refines_boot memory threads frame
  obtain ⟨store, calls, known', refines⟩ :=
    run.simulate_observed (n := NamedStrings.strings tmpfsMaxFileSize)
    (R := fun s store => ∃ known, Refines s.files store known)
    (fun {_ _ _ _} related step => by
      obtain ⟨known, refines⟩ := related
      obtain ⟨store', known', call, after, -, -⟩ := simulates refines step.1 step.2
      exact ⟨store', call, known', after⟩) ⟨known, start⟩
  refine ⟨store, calls, fun {task fuel path v} cString lookup isFile => ?_⟩
  have inside := refines.base task
  obtain ⟨data, content⟩ :=
    refines.tracked.file (refines.tracked.intact.closed.vfsLookupFrom inside lookup) isFile
  refine ⟨⟨data, content, refines.readsBack lookup isFile.1 content⟩, fun {later t} further => ?_⟩
  obtain ⟨store', calls', known'', after, -, there, ops, present⟩ :=
    further.simulate_observed (n := NamedStrings.strings tmpfsMaxFileSize)
    (R := fun u store => ∃ known, Refines u.files store known ∧ known (s.files.base task) ∧
      vfsLookupFrom u.files.heap.toVfs fuel (s.files.base task) path = some (.found v) ∧
      (u.files.heap.vnodes v).fOps = some .tmpfs ∧ (store.content v).isSome = true)
    (fun {_ _ _ _} related step => by
      obtain ⟨known, refines, start, lookup, ops, present⟩ := related
      obtain ⟨store', known', call, after, more, kept⟩ := simulates refines step.1.1 step.2
      have closed := refines.tracked.intact.closed
      have walks := kept step.1.2
      refine ⟨store', call, known', after, more _ start,
        walks.vfsLookupFrom closed start cString lookup, ?_, call.present present⟩
      rw [walks.vnode (closed.vfsLookupFrom start lookup)]
      exact ops) ⟨known', refines, inside, lookup, isFile.1, Option.isSome_of_eq_some content⟩
  obtain ⟨data', content'⟩ := Option.isSome_iff_exists.mp present
  exact ⟨store', data', calls', content', after.readsBack there ops content'⟩

end Runs

/-- A thread creates the file `a` and writes three bytes to it. -/
def writtenEvents : List FileSystem.Event :=
  .files (.sysOpen 0 [97] oCreat) ::
    List.replicate 2 (.files (.resume 0 1 [] ⟨true, true, true, true, true⟩ 9)) ++
    [.sysWrite 0 0#32 (fun _ => 5) 3#64]

/-- It makes the directory `b`. -/
def laterEvents : List FileSystem.Event := [.sysMkdir 0 1 [98] [] ⟨true, true, true, true, true⟩]

/-- The names are short C strings, and so are the writes. -/
def short (s : FileSystem) : FileSystem.Event → Bool
  | .files (.sysOpen ..) => true
  | .files (.resume task ..) =>
    (opening s.files task).all fun call => decide ((0 : UInt8) ∉ call.1) &&
      decide (call.1.length < maxName)
  | .sysMkdir _ _ pathname _ _ =>
    decide ((0 : UInt8) ∉ pathname) && decide (pathname.length < maxName)
  | .sysWrite _ _ _ len => decide (tmpfsMaxFileSize + len.toNat < 2 ^ 64)
  | _ => false

theorem fits_of_short {s : FileSystem} {event : FileSystem.Event} (here : short s event = true) :
    Fits s event ∧ Keeps s event := by
  cases event with
  | files event =>
    cases event with
    | sysOpen => exact ⟨trivial, trivial⟩
    | resume task =>
      have names : ∀ call ∈ opening s.files task, (0 : UInt8) ∉ call.1 ∧
          call.1.length < maxName := by
        intro call opens
        simpa only [short, Option.mem_def.mp opens, Option.all_some, Bool.and_eq_true,
          decide_eq_true_eq] using here
      exact ⟨fun call opens => (names call opens).1, fun call opens => .inr (names call opens).2⟩
    | _ => cases here
  | sysMkdir task fuel pathname =>
    obtain ⟨cString, fits⟩ := Bool.and_eq_true_iff.mp here
    exact ⟨show (0 : UInt8) ∉ pathname from of_decide_eq_true cString,
      .inr (of_decide_eq_true fits)⟩
  | sysWrite task fd buf len =>
    exact ⟨show tmpfsMaxFileSize + len.toNat < 2 ^ 64 from of_decide_eq_true here, trivial⟩
  | _ => cases here

theorem written_is_read_shortNames : ∃ past s later t,
    System.Path ((transitions.restrict Fits).observed observe)
      (FileSystem.boot smallTree {0} fun _ => 0) past s ∧
    System.Path ((transitions.restrict fun s event => Fits s event ∧ Keeps s event).observed
      observe) s later t ∧
    later.map Prod.fst = laterEvents ∧
    ∃ data, ReadsBack t.files.heap 1 (s.files.base 0) [97] data := by
  let guarded (s : FileSystem) (event : FileSystem.Event) :=
    if short s event then s.step event else none
  have evaluated :
      (writtenEvents.foldlM guarded (FileSystem.boot smallTree {0} fun _ => 0)).map (fun s =>
      (vfsLookupFrom s.files.heap.toVfs 1 (s.files.base 0) [97],
        decide (IsFile s.files.heap.toVfs (s.files.heap.vnodes 1).fOps 1),
        (laterEvents.foldlM guarded s).isSome)) =
        some (some (.found 1), true, true) := by decide +kernel
  obtain ⟨s, folded, result⟩ := Option.map_eq_some_iff.mp evaluated
  obtain ⟨lookup, rest⟩ := Prod.mk.inj result
  obtain ⟨isFile, goesOn⟩ := Prod.mk.inj rest
  obtain ⟨t, folded'⟩ := Option.isSome_iff_exists.mp goesOn
  have begins : System.Path (transitions.restrict Fits)
      (FileSystem.boot smallTree {0} fun _ => 0) writtenEvents s := by
    refine (System.Path.of_foldlM folded).mono fun taken => ?_
    obtain ⟨here, step⟩ := Option.ite_none_right_eq_some.mp taken
    exact ⟨(fits_of_short here).1, step⟩
  have continues : System.Path (transitions.restrict fun s event => Fits s event ∧
      Keeps s event) s laterEvents t := by
    refine (System.Path.of_foldlM folded').mono fun taken => ?_
    obtain ⟨here, step⟩ := Option.ite_none_right_eq_some.mp taken
    exact ⟨fits_of_short here, step⟩
  obtain ⟨past, run, -⟩ := begins.observe observe
  obtain ⟨later, further, same⟩ := continues.observe observe
  obtain ⟨store, -, reads⟩ := written_is_read run
  obtain ⟨-, data, -, -, back⟩ := (reads (by decide) lookup (of_decide_eq_true isFile)).2 further
  exact ⟨past, s, later, t, run, further, same, data, back⟩

end OscKernel.Soundness.FileContents
