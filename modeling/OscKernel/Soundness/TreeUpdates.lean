import OscKernel.Model.VfsUpdate
import OscKernel.Soundness.Lookup
import Mathlib.Data.List.TakeWhile

/-! # What a creation changes

`tmpfs_create` and `tmpfs_mkdir` either leave every vnode and node that was allocated as it was, or
put one new vnode into an empty slot of the directory (`Inserted`). A lookup depends on the entries
of its directory and on the names of the children only, so its result changes for the new name
alone.
-/

namespace OscKernel.Soundness.TreeUpdates

open OscKernel.Model

/-! ## Names -/

theorem strcmp_eq_zero_iff {first second : List UInt8} (cString : (0 : UInt8) ∉ first)
    (cString' : (0 : UInt8) ∉ second) : strcmp first second = 0 ↔ first = second := by
  have nonzero : ∀ {c : UInt8}, (0 : UInt8) ≠ c → c.toNat ≠ 0 := by
    intro c other same
    exact other (UInt8.toNat_inj.mp (by rw [same]; rfl))
  induction first generalizing second with
  | nil =>
    cases second with
    | nil => simp [strcmp]
    | cons b bs =>
      have := nonzero (List.ne_of_not_mem_cons cString')
      simp only [strcmp, Int.neg_eq_zero, Int.natCast_eq_zero, reduceCtorEq, iff_false]
      exact this
  | cons a as ih =>
    cases second with
    | nil =>
      have := nonzero (List.ne_of_not_mem_cons cString)
      simp only [strcmp, Int.natCast_eq_zero, reduceCtorEq, iff_false]
      exact this
    | cons b bs =>
      rw [strcmp]
      split
      · rename_i same
        rw [same, List.cons.injEq, and_iff_right rfl]
        exact ih (List.not_mem_of_not_mem_cons cString) (List.not_mem_of_not_mem_cons cString')
      · rename_i different
        constructor
        · intro zero
          have same : a.toNat = b.toNat := by omega
          exact absurd (UInt8.toNat_inj.mp same) different
        · intro same
          exact absurd (List.cons.inj same).1 different

/-- A name that compares equal is at least as long as a string without a zero byte. -/
theorem length_le_of_strcmp {first second : List UInt8} (cString : (0 : UInt8) ∉ first)
    (same : strcmp first second = 0) : first.length ≤ second.length := by
  induction first generalizing second with
  | nil => exact Nat.zero_le _
  | cons a as ih =>
    have nonzero : a.toNat ≠ 0 := by
      intro zero
      exact List.ne_of_not_mem_cons cString (UInt8.toNat_inj.mp zero).symm
    cases second with
    | nil =>
      simp only [strcmp, Int.natCast_eq_zero] at same
      exact absurd same nonzero
    | cons b bs =>
      rw [strcmp] at same
      split at same
      · exact Nat.succ_le_succ (ih (List.not_mem_of_not_mem_cons cString) same)
      · rename_i different
        exact absurd (UInt8.toNat_inj.mp (by omega)) different

theorem zero_notMem_cName (node : FsNode) : (0 : UInt8) ∉ node.cName := by
  intro member
  have := List.mem_takeWhile_imp member
  simp at this

/-- A name that fits is what the name loop leaves. -/
private theorem cName_writeName {node : FsNode} {name : List UInt8}
    (fits : name.length < tmpfsMaxName) (cString : (0 : UInt8) ∉ name) :
    (node.writeName name).cName = name ∧ (node.writeName name).type = node.type := by
  have copied : name.take tmpfsMaxName = name := List.take_of_length_le (le_of_lt fits)
  have kept : ∀ c ∈ name, decide (c ≠ 0) = true := by
    intro c member
    rw [decide_eq_true_eq]
    rintro rfl
    exact cString member
  rw [FsNode.writeName]
  simp only [copied, if_pos fits, and_true]
  rw [FsNode.cName]
  simp only
  rw [List.append_assoc, List.takeWhile_append_of_pos kept]
  simp

/-- A longer name keeps sixteen bytes and its node becomes a directory. -/
theorem cName_writeName_long {node : FsNode} {name : List UInt8} (long : tmpfsMaxName ≤ name.length)
    (cString : (0 : UInt8) ∉ name.take tmpfsMaxName) :
    (node.writeName name).cName = name.take tmpfsMaxName ∧ (node.writeName name).type = .dir := by
  have length : (name.take tmpfsMaxName).length = tmpfsMaxName := by
    rw [List.length_take]
    exact min_eq_left long
  have kept : ∀ c ∈ name.take tmpfsMaxName, decide (c ≠ 0) = true := by
    intro c member
    rw [decide_eq_true_eq]
    rintro rfl
    exact cString member
  rw [FsNode.writeName]
  simp only [length, lt_irrefl, if_false, and_true]
  rw [FsNode.cName]
  simp only
  rw [List.takeWhile_append_of_pos kept]
  simp

/-! ## Lookups in one directory -/

/-- The filesystem node of a vnode. -/
def nodeOf (fs : Vfs) (vnode : VnodeId) : FsNode := fs.nodes (fs.vnodes vnode).internal

/-- The slot of a directory holds the vnode. -/
def Child (fs : Vfs) (dir : VnodeId) (slot : Fin maxEntries) (vnode : VnodeId) : Prop :=
  (nodeOf fs dir).type = .dir ∧ (nodeOf fs dir).entries slot = some vnode

/-- The children whose name compares equal, by slot. -/
private def matching (fs : Vfs) (componentName : List UInt8) (entry : Option VnodeId) : Bool :=
  entry.any fun child => decide (strcmp (nodeOf fs child).cName componentName = 0)

private theorem driverLookup_eq (fs : Vfs) (dir : VnodeId) (name : List UInt8) :
    driverLookup fs dir name =
      if (nodeOf fs dir).type ≠ .dir then .error (-1)
      else
        match ((List.finRange maxEntries).find? fun i =>
          matching fs name ((nodeOf fs dir).entries i)).bind
          (nodeOf fs dir).entries with
        | some child => .found child
        | none => .error (-1) := by
  rw [driverLookup]
  simp only [List.find?_filterMap]
  rfl

theorem child_of_found {fs : Vfs} {dir child : VnodeId} {name : List UInt8}
    (found : driverLookup fs dir name = .found child) :
    ∃ slot, Child fs dir slot child ∧ strcmp (nodeOf fs child).cName name = 0 := by
  rw [driverLookup_eq] at found
  split at found
  · exact absurd found (by simp)
  rename_i isDir
  split at found
  · rename_i v search
    obtain rfl := Outcome.found.inj found
    obtain ⟨slot, first, entry⟩ := Option.bind_eq_some_iff.mp search
    have matches' := List.find?_some first
    rw [matching, entry] at matches'
    exact ⟨slot, ⟨not_not.mp isDir, entry⟩, by simpa using matches'⟩
  · exact absurd found (by simp)

theorem not_child_of_error {fs : Vfs} {dir : VnodeId} {name : List UInt8} {code : ℤ}
    (missing : driverLookup fs dir name = .error code) {slot : Fin maxEntries} {child : VnodeId}
    (entry : Child fs dir slot child) : strcmp (nodeOf fs child).cName name ≠ 0 := by
  intro same
  rw [driverLookup_eq, if_neg (not_not.mpr entry.1)] at missing
  cases search : (List.finRange maxEntries).find? fun i =>
    matching fs name ((nodeOf fs dir).entries i) with
  | none =>
    have none' := List.find?_eq_none.mp search slot (List.mem_finRange slot)
    rw [matching, entry.2] at none'
    simp [same] at none'
  | some first =>
    have matches' := List.find?_some search
    rw [search] at missing
    cases present : (nodeOf fs dir).entries first with
    | none =>
      rw [matching, present] at matches'
      simp at matches'
    | some v =>
      simp [present] at missing

/-- The only child with the name is the one that is found. -/
private theorem found_of_child {fs : Vfs} {dir child : VnodeId} {name : List UInt8}
    {slot : Fin maxEntries} (entry : Child fs dir slot child)
    (same : strcmp (nodeOf fs child).cName name = 0)
    (only : ∀ {other v}, Child fs dir other v → strcmp (nodeOf fs v).cName name = 0 → v = child) :
    driverLookup fs dir name = .found child := by
  cases outcome : driverLookup fs dir name with
  | error code => exact absurd same (not_child_of_error outcome entry)
  | found v =>
    obtain ⟨other, entry', same'⟩ := child_of_found outcome
    rw [only entry' same']

/-- A lookup depends on the type and the entries of its directory and on the names of the children;
a new entry with another name is passed over. -/
theorem lookup_congr {fs fs' : Vfs} {dir : VnodeId} {name : List UInt8}
    (type : (nodeOf fs' dir).type = (nodeOf fs dir).type)
    (entries : ∀ slot, (nodeOf fs' dir).entries slot = (nodeOf fs dir).entries slot ∨
      (nodeOf fs dir).entries slot = none ∧ ∃ v, (nodeOf fs' dir).entries slot = some v ∧
        strcmp (nodeOf fs' v).cName name ≠ 0)
    (names : ∀ slot v, Child fs dir slot v → (nodeOf fs' v).cName = (nodeOf fs v).cName) :
    driverLookup fs' dir name = driverLookup fs dir name := by
  rw [driverLookup_eq, driverLookup_eq, type]
  split
  · rfl
  rename_i isDir
  have sameMatch : ∀ slot, matching fs' name ((nodeOf fs' dir).entries slot) =
      matching fs name ((nodeOf fs dir).entries slot) := by
    intro slot
    obtain same | ⟨empty, v, entry, other⟩ := entries slot
    · rw [same]
      cases entry : (nodeOf fs dir).entries slot with
      | none => rfl
      | some v =>
        have kept := names slot v ⟨not_not.mp isDir, entry⟩
        simp only [matching, Option.any_some, kept]
    · rw [empty, entry]
      simpa [matching] using other
  simp only [sameMatch]
  cases search : (List.finRange maxEntries).find? fun i =>
    matching fs name ((nodeOf fs dir).entries i) with
  | none => rfl
  | some slot =>
    obtain same | ⟨empty, -⟩ := entries slot
    · simp only [Option.bind_some, same]
    · have matches' := List.find?_some search
      rw [empty] at matches'
      simp [matching] at matches'

/-! ## Creations -/

/-- What was allocated before stays as it was. -/
structure Grown (fs fs' : VfsHeap) : Prop where
  vnodes : ∀ v < fs.vnodeCount, fs'.vnodes v = fs.vnodes v
  nodes : ∀ n < fs.nodeCount, fs'.nodes n = fs.nodes n
  mounts : fs'.mounts = fs.mounts
  rootfs : fs'.rootfs = fs.rootfs
  activeMounts : fs'.activeMounts = fs.activeMounts
  vnodeCount : fs.vnodeCount ≤ fs'.vnodeCount
  nodeCount : fs.nodeCount ≤ fs'.nodeCount
  mountCount : fs.mountCount ≤ fs'.mountCount

theorem Grown.refl (fs : VfsHeap) : Grown fs fs :=
  ⟨fun _ _ => rfl, fun _ _ => rfl, rfl, rfl, rfl, le_refl _, le_refl _, le_refl _⟩

theorem Grown.trans {fs fs' fs'' : VfsHeap} (first : Grown fs fs') (second : Grown fs' fs'') :
    Grown fs fs'' where
  vnodes v old := (second.vnodes v (lt_of_lt_of_le old first.vnodeCount)).trans (first.vnodes v old)
  nodes n old := (second.nodes n (lt_of_lt_of_le old first.nodeCount)).trans (first.nodes n old)
  mounts := second.mounts.trans first.mounts
  rootfs := second.rootfs.trans first.rootfs
  activeMounts := second.activeMounts.trans first.activeMounts
  vnodeCount := first.vnodeCount.trans second.vnodeCount
  nodeCount := first.nodeCount.trans second.nodeCount
  mountCount := first.mountCount.trans second.mountCount

theorem grown_addVnode (fs : VfsHeap) (vnode : Vnode) : Grown fs (fs.addVnode vnode) where
  vnodes _ old := Function.update_of_ne (Nat.ne_of_lt old) _ _
  nodes _ _ := rfl
  mounts := rfl
  rootfs := rfl
  activeMounts := rfl
  vnodeCount := Nat.le_succ _
  nodeCount := le_refl _
  mountCount := le_refl _

private theorem grown_addNode (fs : VfsHeap) (node : FsNode) : Grown fs (fs.addNode node) where
  vnodes _ _ := rfl
  nodes _ old := Function.update_of_ne (Nat.ne_of_lt old) _ _
  mounts := rfl
  rootfs := rfl
  activeMounts := rfl
  vnodeCount := le_refl _
  nodeCount := Nat.le_succ _
  mountCount := le_refl _

/-- A new vnode of the type, with its node, stands in a slot that was empty. -/
structure Inserted (fs fs' : VfsHeap) (type : VnodeType) (dir : VnodeId) (name : List UInt8)
    (slot : Fin maxEntries) : Prop where
  isDir : (nodeOf fs.toVfs dir).type = .dir
  missing : driverLookup fs.toVfs dir name = .error (-1)
  free : (nodeOf fs.toVfs dir).entries slot = none
  vnodes : fs'.vnodes = Function.update fs.vnodes fs.vnodeCount
    ⟨none, some .tmpfs, some .tmpfs, some dir, type, fs.nodeCount⟩
  nodes : ∃ contents : FsNode, contents.type = type ∧
    (type = .dir → contents.entries = fun _ => none) ∧
    fs'.nodes = Function.update (Function.update fs.nodes fs.nodeCount (contents.writeName name))
      (fs.vnodes dir).internal
      { Function.update fs.nodes fs.nodeCount (contents.writeName name)
        (fs.vnodes dir).internal with
        entries := Function.update (Function.update fs.nodes fs.nodeCount (contents.writeName name)
          (fs.vnodes dir).internal).entries slot (some fs.vnodeCount) }
  mounts : fs'.mounts = fs.mounts
  rootfs : fs'.rootfs = fs.rootfs
  activeMounts : fs'.activeMounts = fs.activeMounts
  vnodeCount : fs'.vnodeCount = fs.vnodeCount + 1
  nodeCount : fs'.nodeCount = fs.nodeCount + 1
  mountCount : fs'.mountCount = fs.mountCount

theorem tmpfsInsert_cases (type : VnodeType) (fs : VfsHeap) (dir : VnodeId) (name : List UInt8)
    (grants : Grants) :
    (∃ fs', tmpfsInsert type fs dir name grants = (.error (-1), fs') ∧ Grown fs fs') ∨
    (∃ fs' slot, tmpfsInsert type fs dir name grants = (.found fs.vnodeCount, fs') ∧
      Inserted fs fs' type dir name slot) := by
  rw [tmpfsInsert]
  simp only
  split
  · exact .inl ⟨fs, rfl, .refl fs⟩
  rename_i isDir
  cases outcome : tmpfsLookup fs.toVfs dir name with
  | found v => exact .inl ⟨fs, rfl, .refl fs⟩
  | error code =>
    obtain rfl := Lookup.driverLookup_code outcome
    cases search : (fs.nodes (fs.vnodes dir).internal).freeSlot with
    | none => exact .inl ⟨fs, rfl, .refl fs⟩
    | some slot =>
      simp only
      split
      · exact .inl ⟨fs, rfl, .refl fs⟩
      split
      · exact .inl ⟨_, rfl, grown_addVnode fs _⟩
      split
      · exact .inl ⟨_, rfl, (grown_addVnode fs _).trans (grown_addNode _ _)⟩
      · right
        refine ⟨_, slot, rfl, not_not.mp isDir, outcome, ?_, ?_, ?_, rfl, rfl, rfl, rfl, rfl, rfl⟩
        · have empty := List.find?_some search
          exact Option.isNone_iff_eq_none.mp empty
        · simp [VfsHeap.setEntry, VfsHeap.setInternal, VfsHeap.addNode, VfsHeap.addVnode]
        · cases type with
          | file => exact ⟨_, rfl, fun other => absurd other (by simp), rfl⟩
          | dir => exact ⟨_, rfl, fun _ => rfl, rfl⟩

/-- What `vfs_open` and `vfs_mkdir` do at the end of a path: either nothing that was there changes,
or the vnode is made in a tmpfs directory. -/
theorem insertAt_cases {type : VnodeType}
    {select : VnodeOps → Option (VfsHeap → VnodeId → List UInt8 → Grants → Outcome × VfsHeap)}
    (tmpfs : select .tmpfs = some (tmpfsInsert type)) (devfs : select .devfs = none)
    (ramfs : select .ramfs = some ramfsRefuse) {fs t : VfsHeap} {fuel : ℕ} {base : VnodeId}
    {pathname behind : List UInt8} {grants : Grants} {outcome : Outcome}
    (result : ((resolveParent fs fuel base pathname behind).map fun
      | (.error code, _) => (.error code, fs)
      | (.found parent, name) =>
        match (fs.vnodes parent).vOps.bind select with
        | none => (.error (-1), fs)
        | some insert => insert fs parent name grants) = some (outcome, t)) :
    (outcome = .error (-1) ∧ Grown fs t) ∨
    ∃ parent name slot, resolveParent fs fuel base pathname behind = some (.found parent, name) ∧
      (fs.vnodes parent).vOps = some .tmpfs ∧ outcome = .found fs.vnodeCount ∧
      Inserted fs t type parent name slot := by
  obtain ⟨⟨resolved, name⟩, resolves, result⟩ := Option.map_eq_some_iff.mp result
  cases resolved with
  | error code =>
    obtain rfl : code = -1 := by
      rw [resolveParent] at resolves
      split at resolves
      · simp at resolves
      · split at resolves
        · obtain ⟨walked, lookup, same⟩ := Option.map_eq_some_iff.mp resolves
          obtain ⟨rfl, -⟩ := Prod.mk.inj same
          exact Lookup.vfsLookupFrom_code lookup
        · simp at resolves
    obtain ⟨rfl, rfl⟩ := Prod.mk.inj result
    exact .inl ⟨rfl, .refl fs⟩
  | found parent =>
    simp only at result
    cases ops : (fs.vnodes parent).vOps with
    | none =>
      rw [ops] at result
      obtain ⟨rfl, rfl⟩ := Prod.mk.inj result
      exact .inl ⟨rfl, .refl fs⟩
    | some driver =>
      rw [ops, Option.bind_some] at result
      cases driver with
      | devfs =>
        rw [devfs] at result
        obtain ⟨rfl, rfl⟩ := Prod.mk.inj result
        exact .inl ⟨rfl, .refl fs⟩
      | ramfs =>
        rw [ramfs] at result
        obtain ⟨rfl, rfl⟩ := Prod.mk.inj result
        exact .inl ⟨rfl, .refl fs⟩
      | tmpfs =>
        rw [tmpfs] at result
        simp only at result
        obtain ⟨t', refused, grown⟩ | ⟨t', slot, inserted, effect⟩ :=
          tmpfsInsert_cases type fs parent name grants
        · rw [refused] at result
          obtain ⟨rfl, rfl⟩ := Prod.mk.inj result
          exact .inl ⟨rfl, grown⟩
        · rw [inserted] at result
          obtain ⟨rfl, rfl⟩ := Prod.mk.inj result
          exact .inr ⟨parent, name, slot, resolves, ops, rfl, effect⟩

/-- The vnode and its node have been allocated. -/
def Allocated (fs : VfsHeap) (vnode : VnodeId) : Prop :=
  vnode < fs.vnodeCount ∧ (fs.vnodes vnode).internal < fs.nodeCount

theorem Grown.nodeOf {fs fs' : VfsHeap} (grown : Grown fs fs')
    {v : VnodeId} (old : Allocated fs v) :
    fs'.vnodes v = fs.vnodes v ∧ nodeOf fs'.toVfs v = nodeOf fs.toVfs v := by
  have same := grown.vnodes v old.1
  refine ⟨same, ?_⟩
  rw [TreeUpdates.nodeOf, same, grown.nodes _ old.2, TreeUpdates.nodeOf]

theorem Grown.lookup {fs fs' : VfsHeap} (grown : Grown fs fs') {dir : VnodeId}
    (old : Allocated fs dir) (children : ∀ slot v, Child fs.toVfs dir slot v → Allocated fs v)
    (name : List UInt8) :
    driverLookup fs'.toVfs dir name = driverLookup fs.toVfs dir name := by
  have same := (grown.nodeOf old).2
  apply lookup_congr
  · rw [same]
  · exact fun slot => .inl (by rw [same])
  · exact fun slot v entry => by rw [(grown.nodeOf (children slot v entry)).2]

namespace Inserted

variable {fs fs' : VfsHeap} {type : VnodeType} {dir : VnodeId}
  {name : List UInt8} {slot : Fin maxEntries}

theorem vnode_of_lt (inserted : Inserted fs fs' type dir name slot) {v : VnodeId}
    (old : v < fs.vnodeCount) :
    fs'.vnodes v = fs.vnodes v := by
  rw [inserted.vnodes]
  exact Function.update_of_ne (Nat.ne_of_lt old) _ _

theorem newVnode (inserted : Inserted fs fs' type dir name slot) :
    fs'.vnodes fs.vnodeCount = ⟨none, some .tmpfs, some .tmpfs, some dir, type, fs.nodeCount⟩ := by
  rw [inserted.vnodes]
  exact Function.update_self _ _ _

/-- A node other than the directory's stays as it was. -/
theorem nodeOf_of_ne (inserted : Inserted fs fs' type dir name slot) {v : VnodeId}
    (old : Allocated fs v) (other : (fs.vnodes v).internal ≠ (fs.vnodes dir).internal) :
    nodeOf fs'.toVfs v = nodeOf fs.toVfs v := by
  obtain ⟨contents, -, -, nodes⟩ := inserted.nodes
  rw [nodeOf, inserted.vnode_of_lt old.1, nodes, Function.update_of_ne other,
    Function.update_of_ne (Nat.ne_of_lt old.2), nodeOf]

/-- The directory's node gains an entry. -/
theorem nodeOf_dir (inserted : Inserted fs fs' type dir name slot) {v : VnodeId}
    (old : Allocated fs v) (same : (fs.vnodes v).internal = (fs.vnodes dir).internal) :
    nodeOf fs'.toVfs v = { nodeOf fs.toVfs v with
      entries := Function.update (nodeOf fs.toVfs v).entries slot (some fs.vnodeCount) } := by
  obtain ⟨contents, -, -, nodes⟩ := inserted.nodes
  have notNew : (fs.vnodes dir).internal ≠ fs.nodeCount := same ▸ Nat.ne_of_lt old.2
  rw [nodeOf, inserted.vnode_of_lt old.1, nodes, same, Function.update_self,
    Function.update_of_ne notNew, nodeOf, same]

/-- Names and types of old nodes stay. -/
theorem kept (inserted : Inserted fs fs' type dir name slot) {v : VnodeId} (old : Allocated fs v) :
    (nodeOf fs'.toVfs v).type = (nodeOf fs.toVfs v).type ∧
    (nodeOf fs'.toVfs v).cName = (nodeOf fs.toVfs v).cName := by
  by_cases same : (fs.vnodes v).internal = (fs.vnodes dir).internal
  · rw [inserted.nodeOf_dir old same]
    exact ⟨rfl, rfl⟩
  · rw [inserted.nodeOf_of_ne old same]
    exact ⟨rfl, rfl⟩

theorem newNode (inserted : Inserted fs fs' type dir name slot) (old : Allocated fs dir) :
    ∃ contents : FsNode, contents.type = type ∧ (type = .dir → contents.entries = fun _ => none) ∧
      nodeOf fs'.toVfs fs.vnodeCount = contents.writeName name := by
  obtain ⟨contents, kind, empty, nodes⟩ := inserted.nodes
  refine ⟨contents, kind, empty, ?_⟩
  rw [nodeOf, inserted.newVnode, nodes]
  exact (Function.update_of_ne (Nat.ne_of_gt old.2) _ _).trans (Function.update_self _ _ _)

/-- With a name that fits, the new node has that name and its type. -/
theorem newNode_fits (inserted : Inserted fs fs' type dir name slot) (old : Allocated fs dir)
    (fits : name.length < tmpfsMaxName) (cString : (0 : UInt8) ∉ name) :
    (nodeOf fs'.toVfs fs.vnodeCount).cName = name ∧
    (nodeOf fs'.toVfs fs.vnodeCount).type = type := by
  obtain ⟨contents, kind, -, same⟩ := inserted.newNode old
  obtain ⟨named, typed⟩ := @cName_writeName contents name fits cString
  rw [same]
  exact ⟨named, typed.trans kind⟩

theorem newNode_empty (inserted : Inserted fs fs' .dir dir name slot) (old : Allocated fs dir) :
    (nodeOf fs'.toVfs fs.vnodeCount).entries = fun _ => none := by
  obtain ⟨contents, -, empty, same⟩ := inserted.newNode old
  rw [same, FsNode.writeName]
  split
  · exact empty rfl
  · exact empty rfl

/-- The children of an old directory are its old ones, and the new one in the directory of the
call. -/
theorem child_iff (inserted : Inserted fs fs' type dir name slot) {d : VnodeId}
    (old : Allocated fs d) {other : Fin maxEntries} {v : VnodeId} :
    Child fs'.toVfs d other v ↔ Child fs.toVfs d other v ∨
      (fs.vnodes d).internal = (fs.vnodes dir).internal ∧ other = slot ∧ v = fs.vnodeCount := by
  by_cases same : (fs.vnodes d).internal = (fs.vnodes dir).internal
  · have shared : nodeOf fs.toVfs d = nodeOf fs.toVfs dir := by rw [nodeOf, same, nodeOf]
    rw [Child, Child, inserted.nodeOf_dir old same, shared]
    rcases eq_or_ne other slot with rfl | different
    · simp only [Function.update_self, inserted.isDir, inserted.free, same, true_and,
        Option.some.injEq, reduceCtorEq, false_or]
      exact eq_comm
    · simp [different]
  · rw [Child, Child, inserted.nodeOf_of_ne old same]
    simp [same]

/-- Lookups of other names, and in other directories, give what they gave. -/
theorem lookup_other (inserted : Inserted fs fs' type dir name slot) {d : VnodeId}
    (old : Allocated fs d) (children : ∀ slot v, Child fs.toVfs d slot v → Allocated fs v)
    {c : List UInt8} (different : (fs.vnodes d).internal = (fs.vnodes dir).internal →
      strcmp (nodeOf fs'.toVfs fs.vnodeCount).cName c ≠ 0) :
    driverLookup fs'.toVfs d c = driverLookup fs.toVfs d c := by
  apply lookup_congr (inserted.kept old).1
  · intro other
    by_cases same : (fs.vnodes d).internal = (fs.vnodes dir).internal
    · rw [inserted.nodeOf_dir old same]
      rcases eq_or_ne other slot with rfl | elsewhere
      · have shared : nodeOf fs.toVfs d = nodeOf fs.toVfs dir := by rw [nodeOf, same, nodeOf]
        refine .inr ⟨by rw [shared]; exact inserted.free, fs.vnodeCount,
          Function.update_self _ _ _, different same⟩
      · exact .inl (Function.update_of_ne elsewhere _ _)
    · exact .inl (by rw [inserted.nodeOf_of_ne old same])
  · exact fun other v entry => (inserted.kept (children other v entry)).2

/-- The new vnode is found under its name. -/
theorem lookup_new (inserted : Inserted fs fs' type dir name slot) (old : Allocated fs dir)
    (children : ∀ slot v, Child fs.toVfs dir slot v → Allocated fs v)
    (fits : name.length < tmpfsMaxName) (cString : (0 : UInt8) ∉ name) :
    driverLookup fs'.toVfs dir name = .found fs.vnodeCount := by
  have entry : Child fs'.toVfs dir slot fs.vnodeCount :=
    (inserted.child_iff old).mpr (.inr ⟨rfl, rfl, rfl⟩)
  have named := (inserted.newNode_fits old fits cString).1
  apply found_of_child entry (by rw [named]; exact (strcmp_eq_zero_iff cString cString).mpr rfl)
  intro other v present same
  obtain before | ⟨-, -, rfl⟩ := (inserted.child_iff old).mp present
  · rw [(inserted.kept (children other v before)).2] at same
    exact absurd same (not_child_of_error inserted.missing before)
  · rfl

end Inserted

/-! ## Set-ups -/

/-- The heap with a new root vnode and its directory, from which every driver starts. -/
def withRoot (fs : VfsHeap) (vOps : VnodeOps) (fOps : Option FileOps) (directory : FsNode) :
    VfsHeap :=
  ((fs.addVnode (rootVnode fs vOps fOps)).addNode directory).setInternal fs.vnodeCount fs.nodeCount

theorem withRoot_spec (fs : VfsHeap) (vOps : VnodeOps) (fOps : Option FileOps)
    (directory : FsNode) :
    (withRoot fs vOps fOps directory).vnodes fs.vnodeCount =
      { rootVnode fs vOps fOps with internal := fs.nodeCount } ∧
    nodeOf (withRoot fs vOps fOps directory).toVfs fs.vnodeCount = directory := by
  constructor
  · simp [withRoot, VfsHeap.setInternal, VfsHeap.addNode, VfsHeap.addVnode]
  · simp [withRoot, nodeOf, VfsHeap.setInternal, VfsHeap.addNode, VfsHeap.addVnode]

theorem named_type (node : FsNode) (literal : List UInt8) (n : ℕ) :
    (node.named literal n).type = node.type := rfl

/-- What the driver makes when it succeeds: an empty directory, and in it its files. -/
inductive SetUp (fs : VfsHeap) (cpio : List CpioFile) : VnodeOps → VfsHeap → Prop where
  | tmpfs {directory : FsNode} (isDir : directory.type = .dir)
      (empty : directory.entries = fun _ => none) :
      SetUp fs cpio .tmpfs (withRoot fs .tmpfs (some .tmpfs) directory)
  | devfs {directory uart fb : FsNode} (isDir : directory.type = .dir)
      (empty : directory.entries = fun _ => none) (uartFile : uart.type = .file)
      (fbFile : fb.type = .file) :
      SetUp fs cpio .devfs (addFile (addFile (withRoot fs .devfs none directory)
        fs.vnodeCount fs.nodeCount ⟨0, by decide⟩ .devfs .devfsUart
        (uart.named [117, 97, 114, 116] 5))
        fs.vnodeCount fs.nodeCount ⟨1, by decide⟩ .devfs .devfsFb (fb.named [102, 98] 3))
  | ramfs {directory : FsNode} (isDir : directory.type = .dir)
      (empty : directory.entries = fun _ => none) :
      SetUp fs cpio .ramfs (ramfsFiles (withRoot fs .ramfs (some .ramfs) directory)
        fs.vnodeCount fs.nodeCount 0 cpio)

theorem setupMount_cases {fs t : VfsHeap} {driver : VnodeOps} {root : VnodeId}
    {cpio : List CpioFile} {grants : Grants}
    (setup : driver.setupMount fs cpio grants = some (.found root, t)) :
    root = fs.vnodeCount ∧ SetUp fs cpio driver t := by
  cases driver with
  | tmpfs =>
    simp only [VnodeOps.setupMount, tmpfsSetupMount, Option.some_inj] at setup
    split at setup
    · cases setup
    split at setup
    · cases setup
    obtain ⟨found, rfl⟩ := Prod.mk.inj setup
    exact ⟨(Outcome.found.inj found).symm, .tmpfs rfl rfl⟩
  | devfs =>
    simp only [VnodeOps.setupMount, devfsSetupMount] at setup
    split at setup
    · cases setup
    obtain ⟨found, rfl⟩ := Prod.mk.inj (Option.some.inj setup)
    exact ⟨(Outcome.found.inj found).symm, .devfs rfl rfl rfl rfl⟩
  | ramfs =>
    simp only [VnodeOps.setupMount, ramfsSetupMount, Option.some_inj] at setup
    split at setup
    · cases setup
    split at setup
    · cases setup
    obtain ⟨found, rfl⟩ := Prod.mk.inj setup
    exact ⟨(Outcome.found.inj found).symm, .ramfs rfl rfl⟩

end OscKernel.Soundness.TreeUpdates
