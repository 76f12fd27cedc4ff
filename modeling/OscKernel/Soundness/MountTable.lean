import OscKernel.Lib.System
import OscKernel.Soundness.TreeUpdates

/-! # Down a component and up again

`..` leaves the root of a mounted filesystem through `active_mounts`, while a lookup enters it
through the vnode it is mounted on. As long as every mount has found room in the table, the two
agree: from the root of a mount the table leads back to the mountpoint, and in the end to the vnode
that stands in a directory slot, whose parent is that directory.
-/

namespace OscKernel.Soundness.MountTable

open OscKernel.Lib OscKernel.Model OscKernel.Soundness.Lookup OscKernel.Soundness.TreeUpdates

/-! ## The invariant -/

/-- The vnodes and mounts of a state in which every call has succeeded. -/
structure Mounted (fs : VfsHeap) : Prop where
  rootfs : fs.rootfs = 0 ∧ 0 < fs.mountCount
  node : ∀ v < fs.vnodeCount, (fs.vnodes v).internal < fs.nodeCount
  ownNode : ∀ v < fs.vnodeCount, ∀ w < fs.vnodeCount, (fs.vnodes v).internal =
    (fs.vnodes w).internal → v = w
  child : ∀ d < fs.vnodeCount, ∀ slot v, Child fs.toVfs d slot v → v < fs.vnodeCount ∧
    (fs.vnodes v).parent = some d ∧ ∀ m < fs.mountCount, (fs.mounts m).root ≠ v
  parent : ∀ v < fs.vnodeCount, ∀ p, (fs.vnodes v).parent = some p → p < fs.vnodeCount
  ends : ∀ m < fs.mountCount, (fs.mounts m).root < fs.vnodeCount ∧
    (fs.mounts m).mountpoint < fs.vnodeCount
  rootOnce : ∀ m < fs.mountCount, ∀ m' < fs.mountCount, (fs.mounts m).root =
    (fs.mounts m').root → m = m'
  covered : ∀ v < fs.vnodeCount, ∀ m, (fs.vnodes v).mount = some m →
    m < fs.mountCount ∧ m ≠ 0 ∧ (fs.mounts m).mountpoint = v
  active : ∀ m ∈ fs.activeMounts, m < fs.mountCount

/-- Every mount has found room in the table. -/
def Recorded (fs : VfsHeap) : Prop := ∀ m < fs.mountCount, m ∈ fs.activeMounts

theorem Mounted.closed {fs : VfsHeap} (mounted : Mounted fs) :
    Closed fs.toVfs (· < fs.vnodeCount) where
  root := by
    rw [Vfs.root, mounted.rootfs.1]
    exact (mounted.ends 0 mounted.rootfs.2).1
  child known _ found := by
    obtain ⟨slot, entry, -⟩ := child_of_found found
    exact (mounted.child _ known slot _ entry).1
  crossed known mount := (mounted.ends _ (mounted.covered _ known _ mount).1).1
  popped active := (mounted.ends _ (mounted.active _ active)).2
  parent known above := mounted.parent _ known _ above

/-! ## Down and up -/

/-- The table leads back along every mount that was crossed. -/
private theorem pops_of_crosses {fs : VfsHeap} (mounted : Mounted fs) (recorded : Recorded fs)
    {x e v : VnodeId} {fuel : ℕ} (known : v < fs.vnodeCount)
    (crosses : crossMounts fs.toVfs fuel v = some e) (back : ∃ n, popMounts fs.toVfs n v = some x) :
    ∃ n, popMounts fs.toVfs n e = some x := by
  induction fuel generalizing v with
  | zero => cases crosses
  | succ fuel ih =>
    rw [crossMounts] at crosses
    split at crosses
    · rename_i m mount
      obtain ⟨inTable, -, point⟩ := mounted.covered v known m mount
      obtain ⟨n, pops⟩ := back
      apply ih (mounted.ends m inTable).1 crosses
      refine ⟨n + 1, ?_⟩
      have found : fs.activeMounts.find? (fun m' => (fs.mounts m').root = (fs.mounts m).root) =
          some m := by
        cases search :
          fs.activeMounts.find? (fun m' => (fs.mounts m').root = (fs.mounts m).root) with
        | none => simpa using List.find?_eq_none.mp search m (recorded m inTable)
        | some m' =>
          have same := List.find?_some search
          have inTable' := mounted.active m' (List.mem_of_find?_eq_some search)
          rw [mounted.rootOnce m' inTable' m inTable (by simpa using same)]
      rw [popMounts, found]
      simp only [point]
      exact pops
    · exact Option.some.inj crosses ▸ back

/-- From where a child's name leads, `..` leads to its directory. -/
private theorem up_of_down {fs : VfsHeap} (mounted : Mounted fs) (recorded : Recorded fs)
    {d e : VnodeId} {component : List UInt8} {fuel : ℕ} (known : d < fs.vnodeCount)
    (uncovered : (fs.vnodes d).mount = none) (notDot : component ≠ [dot])
    (notDotDot : component ≠ [dot, dot]) (cString : (0 : UInt8) ∉ component)
    (down : lookupComponent fs.toVfs fuel d component = some (.found e)) :
    ∃ n, lookupParent fs.toVfs n e = some d := by
  have plainDot : strcmp component [dot] ≠ 0 := by
    rw [Ne, strcmp_eq_zero_iff cString (by decide)]
    exact notDot
  have plainDotDot : strcmp component [dot, dot] ≠ 0 := by
    rw [Ne, strcmp_eq_zero_iff cString (by decide)]
    exact notDotDot
  rw [lookupComponent, if_neg plainDot, if_neg plainDotDot] at down
  split at down
  · simp at down
  rename_i ops _
  split at down
  · simp at down
  rename_i x found
  obtain ⟨_, crosses, same⟩ := Option.map_eq_some_iff.mp down
  obtain rfl := Outcome.found.inj same
  have entry : ∃ slot, Child fs.toVfs d slot x := by
    obtain ⟨slot, entry, -⟩ : ∃ slot, Child fs.toVfs d slot x ∧
        strcmp (nodeOf fs.toVfs x).cName component = 0 := by
      cases ops <;> exact child_of_found found
    exact ⟨slot, entry⟩
  obtain ⟨slot, entry⟩ := entry
  obtain ⟨knownX, parentX, notRoot⟩ := mounted.child d known slot x entry
  have rootDef : fs.root = (fs.mounts 0).root := by rw [Vfs.root, mounted.rootfs.1]
  -- the child itself is not the root of a mount
  have stays : popMounts fs.toVfs 1 x = some x := by
    have none' : fs.activeMounts.find? (fun m => (fs.mounts m).root = x) = none := by
      apply List.find?_eq_none.mpr
      intro m member
      simpa using notRoot m (mounted.active m member)
    rw [popMounts, none']
  obtain ⟨n, pops⟩ := pops_of_crosses mounted recorded knownX crosses ⟨1, stays⟩
  -- the walk does not stop early at the root of the root filesystem
  have below : ∀ {k v t}, v < fs.vnodeCount →
      (∀ m < fs.mountCount, (fs.mounts m).root = v → m ≠ 0) →
      crossMounts fs.toVfs k v = some t → t ≠ fs.root := by
    intro k
    induction k with
    | zero => intro v t _ _ ends; cases ends
    | succ k ih =>
      intro v t knownV notZero ends
      rw [crossMounts] at ends
      split at ends
      · rename_i m mount
        obtain ⟨inTable, nonzero, -⟩ := mounted.covered v knownV m mount
        refine ih (mounted.ends m inTable).1 (fun m' inTable' same => ?_) ends
        rw [mounted.rootOnce m' inTable' m inTable same]
        exact nonzero
      · obtain rfl := Option.some.inj ends
        intro same
        exact notZero 0 mounted.rootfs.2 (rootDef.symm.trans same.symm) rfl
  have notRootE := below knownX (fun m inTable same => absurd same (notRoot m inTable)) crosses
  refine ⟨max n 1, ?_⟩
  rw [lookupParent, if_neg notRootE, popMounts_mono fs.toVfs (Nat.le_max_left n 1) pops]
  have notRootX : x ≠ fs.root := by
    rw [rootDef]
    exact (notRoot 0 mounted.rootfs.2).symm
  simp only [Option.bind_eq_bind, Option.bind_some, if_pos notRootX, parentX, Option.getD_some]
  apply crossMounts_mono fs.toVfs (Nat.le_max_right n 1)
  rw [crossMounts, uncovered]

/-! ## What a driver sets up -/

/-- A new filesystem: its vnodes are new, their parent is the root, and only the root has
children. -/
structure RootMade (fs fs' : VfsHeap) (root : VnodeId) : Prop where
  number : root = fs.vnodeCount
  vnodes : ∀ v < fs.vnodeCount, fs'.vnodes v = fs.vnodes v
  nodes : ∀ n < fs.nodeCount, fs'.nodes n = fs.nodes n
  mounts : fs'.mounts = fs.mounts
  rootfs : fs'.rootfs = fs.rootfs
  activeMounts : fs'.activeMounts = fs.activeMounts
  mountCount : fs'.mountCount = fs.mountCount
  vnodeCount : fs.vnodeCount < fs'.vnodeCount
  nodeCount : fs.nodeCount < fs'.nodeCount
  rootNode : (fs'.vnodes root).internal = fs.nodeCount
  new : ∀ v, fs.vnodeCount ≤ v → v < fs'.vnodeCount → (fs'.vnodes v).mount = none ∧
    (fs'.vnodes v).parent = some root ∧ fs.nodeCount ≤ (fs'.vnodes v).internal ∧
    (fs'.vnodes v).internal < fs'.nodeCount
  ownNode : ∀ v, fs.vnodeCount ≤ v → v < fs'.vnodeCount →
    ∀ w, fs.vnodeCount ≤ w → w < fs'.vnodeCount →
    (fs'.vnodes v).internal = (fs'.vnodes w).internal → v = w
  child : ∀ v, fs.vnodeCount ≤ v → v < fs'.vnodeCount → ∀ slot w, Child fs'.toVfs v slot w →
    v = root ∧ root < w ∧ w < fs'.vnodeCount

/-- The root with an empty directory. -/
theorem rootMade_empty (fs : VfsHeap) (vOps : VnodeOps) (fOps : Option FileOps) {node : FsNode}
    (empty : node.entries = fun _ => none) :
    RootMade fs (withRoot fs vOps fOps node) fs.vnodeCount := by
  obtain ⟨vnode, contents⟩ := withRoot_spec fs vOps fOps node
  generalize made : withRoot fs vOps fOps node = t at vnode contents ⊢
  have counts : t.vnodeCount = fs.vnodeCount + 1 ∧ t.nodeCount = fs.nodeCount + 1 := by
    rw [← made]
    exact ⟨rfl, rfl⟩
  have only : ∀ v, fs.vnodeCount ≤ v → v < t.vnodeCount → v = fs.vnodeCount := by omega
  refine ⟨rfl, fun v old => ?_, fun n old => ?_, by rw [← made]; rfl, by rw [← made]; rfl, by
    rw [← made]; rfl, by rw [← made]; rfl, by omega, by omega, by rw [vnode], fun v low high => ?_,
    fun v low high w low' high' _ => ?_, fun v low high slot w entry => ?_⟩
  · have other : v ≠ fs.vnodeCount := Nat.ne_of_lt old
    rw [← made]
    simp [withRoot, VfsHeap.setInternal, VfsHeap.addNode, VfsHeap.addVnode,
      Function.update_of_ne other]
  · have other : n ≠ fs.nodeCount := Nat.ne_of_lt old
    rw [← made]
    simp [withRoot, VfsHeap.setInternal, VfsHeap.addNode, VfsHeap.addVnode,
      Function.update_of_ne other]
  · obtain rfl := only v low high
    rw [vnode, counts.2]
    exact ⟨rfl, rfl, le_refl _, Nat.lt_succ_self _⟩
  · exact (only v low high).trans (only w low' high').symm
  · obtain rfl := only v low high
    rw [Child, contents, empty] at entry
    simp at entry

/-- A file put under the root. -/
theorem RootMade.addFile {fs t : VfsHeap} {root : VnodeId} (made : RootMade fs t root)
    (slot : Fin maxEntries) (vOps : VnodeOps) (fOps : FileOps) {node : FsNode}
    (isFile : node.type = .file) :
    RootMade fs (addFile t root fs.nodeCount slot vOps fOps node) root := by
  generalize result : Model.addFile t root fs.nodeCount slot vOps fOps node = u
  have vnodes : u.vnodes = Function.update t.vnodes t.vnodeCount
      ⟨none, some vOps, some fOps, some root, .file, t.nodeCount⟩ := by
    rw [← result]
    rfl
  have otherNode : fs.nodeCount ≠ t.nodeCount := Nat.ne_of_lt made.nodeCount
  have nodes : ∀ n, n ≠ fs.nodeCount → u.nodes n = Function.update t.nodes t.nodeCount node n := by
    intro n other
    rw [← result]
    exact Function.update_of_ne other _ _
  have rootEntries : ∀ other, (u.nodes fs.nodeCount).entries other =
      if other = slot then some t.vnodeCount else (t.nodes fs.nodeCount).entries other := by
    intro other
    rw [← result]
    simp only [Model.addFile, VfsHeap.setEntry, VfsHeap.addNode, VfsHeap.addVnode,
      Function.update_self, Function.update_of_ne otherNode]
    exact Function.update_apply _ _ _ _
  have rootType : (u.nodes fs.nodeCount).type = (t.nodes fs.nodeCount).type := by
    rw [← result]
    simp only [Model.addFile, VfsHeap.setEntry, VfsHeap.addNode, VfsHeap.addVnode,
      Function.update_self, Function.update_of_ne otherNode]
  have counts : u.vnodeCount = t.vnodeCount + 1 ∧ u.nodeCount = t.nodeCount + 1 := by
    rw [← result]
    exact ⟨rfl, rfl⟩
  have oldVnode : ∀ v, v < t.vnodeCount → u.vnodes v = t.vnodes v := by
    intro v old
    rw [vnodes]
    exact Function.update_of_ne (Nat.ne_of_lt old) _ _
  have newVnode : u.vnodes t.vnodeCount =
      ⟨none, some vOps, some fOps, some root, .file, t.nodeCount⟩ := by
    rw [vnodes]
    exact Function.update_self _ _ _
  have split : ∀ v, v < u.vnodeCount → v < t.vnodeCount ∨ v = t.vnodeCount := by omega
  have grew := made.vnodeCount
  have moreVnodes : t.vnodeCount < u.vnodeCount := by omega
  have moreNodes : t.nodeCount < u.nodeCount := by omega
  have rootOld : root < t.vnodeCount := made.number ▸ grew
  refine ⟨made.number, fun v old => ?_, fun n old => ?_, ?_, ?_, ?_, ?_, grew.trans moreVnodes,
    made.nodeCount.trans moreNodes, ?_, fun v low high => ?_,
    fun v low high w low' high' same => ?_, fun v low high other w entry => ?_⟩
  · rw [oldVnode v (old.trans grew)]
    exact made.vnodes v old
  · rw [nodes n (Nat.ne_of_lt old), Function.update_of_ne (Nat.ne_of_lt (old.trans made.nodeCount))]
    exact made.nodes n old
  · rw [← result]
    exact made.mounts
  · rw [← result]
    exact made.rootfs
  · rw [← result]
    exact made.activeMounts
  · rw [← result]
    exact made.mountCount
  · rw [oldVnode root rootOld]
    exact made.rootNode
  · rcases split v high with before | rfl
    · obtain ⟨mount, parent, lowNode, highNode⟩ := made.new v low before
      rw [oldVnode v before]
      exact ⟨mount, parent, lowNode, highNode.trans moreNodes⟩
    · rw [newVnode]
      exact ⟨rfl, rfl, le_of_lt made.nodeCount, moreNodes⟩
  · rcases split v high with before | rfl <;> rcases split w high' with before' | rfl
    · rw [oldVnode v before, oldVnode w before'] at same
      exact made.ownNode v low before w low' before' same
    · rw [oldVnode v before, newVnode] at same
      exact absurd same (Nat.ne_of_lt (made.new v low before).2.2.2)
    · rw [oldVnode w before', newVnode] at same
      exact absurd same.symm (Nat.ne_of_lt (made.new w low' before').2.2.2)
    · rfl
  · rcases split v high with before | rfl
    · by_cases isRoot : v = root
      · subst isRoot
        rw [Child, nodeOf, oldVnode v before, made.rootNode, rootType, rootEntries] at entry
        obtain ⟨kind, present⟩ := entry
        split at present
        · obtain rfl := Option.some.inj present
          exact ⟨rfl, rootOld, moreVnodes⟩
        · have old := made.child v low before other w
            ⟨by rw [nodeOf, made.rootNode]; exact kind,
              by rw [nodeOf, made.rootNode]; exact present⟩
          exact ⟨rfl, old.2.1, old.2.2.trans moreVnodes⟩
      · have otherInternal : (t.vnodes v).internal ≠ fs.nodeCount := by
          intro same
          apply isRoot
          apply made.ownNode v low before root (made.number ▸ le_refl _) rootOld
          rw [same, made.rootNode]
        rw [Child, nodeOf, oldVnode v before, nodes _ otherInternal,
          Function.update_of_ne (Nat.ne_of_lt (made.new v low before).2.2.2)] at entry
        exact absurd (made.child v low before other w entry).1 isRoot
    · rw [Child, nodeOf, newVnode] at entry
      simp only [nodes _ otherNode.symm, Function.update_self, isFile] at entry
      exact absurd entry.1 (by simp)

theorem RootMade.ramfsFiles {fs t : VfsHeap} {root : VnodeId} (made : RootMade fs t root)
    (slotIdx : ℕ) (cpio : List CpioFile) :
    RootMade fs (ramfsFiles t root fs.nodeCount slotIdx cpio) root := by
  induction cpio generalizing t slotIdx with
  | nil => exact made
  | cons file rest ih =>
    rw [Model.ramfsFiles]
    split
    · split
      · exact ih made slotIdx
      · split
        · exact ih (made.addFile _ _ _ rfl) (slotIdx + 1)
        · exact ih made slotIdx
    · exact made

theorem setupMount_made {fs t : VfsHeap} {driver : VnodeOps} {root : VnodeId} {cpio : List CpioFile}
    {grants : Grants} (setup : driver.setupMount fs cpio grants = some (.found root, t)) :
    RootMade fs t root := by
  obtain ⟨rfl, made⟩ := setupMount_cases setup
  cases made with
  | tmpfs _ empty => exact rootMade_empty fs _ _ empty
  | devfs _ empty uartFile fbFile =>
    have uartMade :=
      (rootMade_empty fs .devfs none empty).addFile ⟨0, by decide⟩ .devfs .devfsUart
        ((named_type _ [117, 97, 114, 116] 5).trans uartFile)
    exact uartMade.addFile ⟨1, by decide⟩ .devfs .devfsFb
      ((named_type _ [102, 98] 3).trans fbFile)
  | ramfs _ empty => exact (rootMade_empty fs _ _ empty).ramfsFiles 0 cpio

/-- A driver that fails has changed nothing that was there. -/
theorem setupMount_error {fs t : VfsHeap} {driver : VnodeOps} {code : ℤ} {cpio : List CpioFile}
    {grants : Grants} (setup : driver.setupMount fs cpio grants = some (.error code, t)) :
    code = -1 ∧ Grown fs t := by
  have fails : ∀ {u : VfsHeap}, Grown fs u → ((.error (-1) : Outcome), u) = (.error code, t) →
      code = -1 ∧ Grown fs t := by
    intro u grown same
    obtain ⟨sameCode, rfl⟩ := Prod.mk.inj same
    exact ⟨(Outcome.error.inj sameCode).symm, grown⟩
  cases driver with
  | tmpfs =>
    simp only [VnodeOps.setupMount, tmpfsSetupMount] at setup
    split at setup
    · exact fails (.refl fs) (Option.some.inj setup)
    · split at setup
      · exact fails (grown_addVnode fs _) (Option.some.inj setup)
      · simp at setup
  | devfs =>
    simp only [VnodeOps.setupMount, devfsSetupMount] at setup
    split at setup <;> simp at setup
  | ramfs =>
    simp only [VnodeOps.setupMount, ramfsSetupMount] at setup
    split at setup
    · exact fails (.refl fs) (Option.some.inj setup)
    · split at setup
      · exact fails (grown_addVnode fs _) (Option.some.inj setup)
      · simp at setup

/-! ## The calls -/

/-- What a successful `vfs_mkdir` does: it makes a directory in a known vnode. -/
theorem vfsMkdir_cases {fs t : VfsHeap} {fuel : ℕ} {base new : VnodeId}
    {pathname behind : List UInt8} {grants : Grants}
    (made : vfsMkdir fs fuel base pathname behind grants = some (.found new, t)) :
    ∃ parent name slot, resolveParent fs fuel base pathname behind = some (.found parent, name) ∧
      (fs.vnodes parent).vOps = some .tmpfs ∧ new = fs.vnodeCount ∧
      Inserted fs t .dir parent name slot := by
  obtain ⟨same, -⟩ | ⟨parent, name, slot, resolved, ops, same, inserted⟩ :=
    insertAt_cases (show VnodeOps.mkdir .tmpfs = some (tmpfsInsert .dir) from rfl) rfl rfl made
  · simp at same
  · exact ⟨parent, name, slot, resolved, ops, Outcome.found.inj same, inserted⟩

/-- `vfs_mount` either fails and changes nothing that was there, or sets up a filesystem and links
it to the target. -/
theorem vfsMount_cases {fs t : VfsHeap} {fuel : ℕ} {base : VnodeId} {target filesystem : List UInt8}
    {cpio : List CpioFile} {grants : Grants} {code : ℤ}
    (result : vfsMount fs fuel base target filesystem cpio grants = some (code, t)) :
    (code = -1 ∧ Grown fs t) ∨
    ∃ mountpoint root made, code = 0 ∧ vfsLookupFrom fs.toVfs fuel base target =
      some (.found mountpoint) ∧
      RootMade { fs with mountCount := fs.mountCount + 1 } made root ∧
      t = made.link fs.mountCount root mountpoint := by
  rw [vfsMount] at result
  obtain ⟨outcome, lookup, result⟩ := Option.bind_eq_some_iff.mp result
  have fails : (-1, fs) = (code, t) → code = -1 ∧ Grown fs t := by
    intro same
    obtain ⟨rfl, rfl⟩ := Prod.mk.inj same
    exact ⟨rfl, .refl fs⟩
  cases outcome with
  | error code' =>
    obtain rfl := vfsLookupFrom_code lookup
    exact .inl (fails (Option.some.inj result))
  | found mountpoint =>
    simp only at result
    split at result
    · exact .inl (fails (Option.some.inj result))
    rename_i driver _
    split at result
    · exact .inl (fails (Option.some.inj result))
    obtain ⟨⟨setup, made⟩, ran, linked⟩ := Option.map_eq_some_iff.mp result
    cases setup with
    | error code' =>
      obtain ⟨rfl, rfl⟩ := Prod.mk.inj linked
      obtain ⟨minusOne, grown⟩ := setupMount_error ran
      have counted : Grown fs { fs with mountCount := fs.mountCount + 1 } :=
        ⟨fun _ _ => rfl, fun _ _ => rfl, rfl, rfl, rfl, le_refl _, le_refl _, Nat.le_succ _⟩
      exact .inl ⟨minusOne, counted.trans grown⟩
    | found root =>
      obtain ⟨rfl, rfl⟩ := Prod.mk.inj linked
      exact .inr ⟨mountpoint, root, made, rfl, lookup, setupMount_made ran, rfl⟩

theorem vfsMount_success {fs t : VfsHeap} {fuel : ℕ} {base : VnodeId}
    {target filesystem : List UInt8} {cpio : List CpioFile} {grants : Grants}
    (result : vfsMount fs fuel base target filesystem cpio grants = some (0, t)) :
    ∃ mountpoint root made, vfsLookupFrom fs.toVfs fuel base target = some (.found mountpoint) ∧
      RootMade { fs with mountCount := fs.mountCount + 1 } made root ∧
      t = made.link fs.mountCount root mountpoint := by
  obtain ⟨zero, -⟩ | ⟨mountpoint, root, made, -, lookup, setup, linked⟩ := vfsMount_cases result
  · simp at zero
  · exact ⟨mountpoint, root, made, lookup, setup, linked⟩

theorem Mounted.resolveParent {fs : VfsHeap} (mounted : Mounted fs) {fuel : ℕ}
    {base parent : VnodeId} {pathname behind name : List UInt8} (known : base < fs.vnodeCount)
    (resolved : resolveParent fs fuel base pathname behind = some (.found parent, name)) :
    parent < fs.vnodeCount := by
  rw [Model.resolveParent] at resolved
  split at resolved
  · obtain ⟨found, -⟩ := Prod.mk.inj (Option.some.inj resolved)
    exact Outcome.found.inj found ▸ known
  · split at resolved
    · obtain ⟨outcome, lookup, same⟩ := Option.map_eq_some_iff.mp resolved
      obtain ⟨rfl, -⟩ := Prod.mk.inj same
      exact mounted.closed.vfsLookupFrom known lookup
    · simp at resolved

theorem Mounted.allocated {fs : VfsHeap} (mounted : Mounted fs) {v : VnodeId}
    (known : v < fs.vnodeCount) :
    Allocated fs v := ⟨known, mounted.node v known⟩

theorem Mounted.mkdir {fs t : VfsHeap} (mounted : Mounted fs) {dir : VnodeId} {name : List UInt8}
    {slot : Fin maxEntries} (known : dir < fs.vnodeCount)
    (inserted : Inserted fs t .dir dir name slot) : Mounted t := by
  have vnode : ∀ {v}, v < fs.vnodeCount → t.vnodes v = fs.vnodes v :=
    fun old => inserted.vnode_of_lt old
  have cases : ∀ {v}, v < t.vnodeCount → v < fs.vnodeCount ∨ v = fs.vnodeCount := by
    intro v bound
    rw [inserted.vnodeCount] at bound
    omega
  have more : ∀ {v}, v < fs.vnodeCount → v < t.vnodeCount := by
    intro v old
    rw [inserted.vnodeCount]
    exact Nat.lt_succ_of_lt old
  refine ⟨?_, fun v bound => ?_, fun v bound w bound' same => ?_, fun d bound other v entry => ?_,
    fun v bound p above => ?_, fun m inTable => ?_, ?_, fun v bound m mount => ?_, ?_⟩
  · rw [inserted.rootfs, inserted.mountCount]
    exact mounted.rootfs
  · rw [inserted.nodeCount]
    rcases cases bound with old | rfl
    · rw [vnode old]
      exact Nat.lt_succ_of_lt (mounted.node v old)
    · rw [inserted.newVnode]
      exact Nat.lt_succ_self _
  · rcases cases bound with old | rfl <;> rcases cases bound' with old' | rfl
    · rw [vnode old, vnode old'] at same
      exact mounted.ownNode v old w old' same
    · rw [vnode old, inserted.newVnode] at same
      exact absurd same (Nat.ne_of_lt (mounted.node v old))
    · rw [vnode old', inserted.newVnode] at same
      exact absurd same.symm (Nat.ne_of_lt (mounted.node w old'))
    · rfl
  · rw [inserted.mountCount, inserted.mounts]
    rcases cases bound with old | rfl
    · obtain before | ⟨shared, -, rfl⟩ := (inserted.child_iff (mounted.allocated old)).mp entry
      · obtain ⟨knownV, parent, notRoot⟩ := mounted.child d old other v before
        exact ⟨more knownV, by rw [vnode knownV]; exact parent, notRoot⟩
      · obtain rfl := mounted.ownNode d old dir known shared
        rw [inserted.newVnode, inserted.vnodeCount]
        exact ⟨Nat.lt_succ_self _, rfl,
          fun m inTable same => absurd (mounted.ends m inTable).1 (by rw [same]; exact lt_irrefl _)⟩
    · have empty := inserted.newNode_empty (mounted.allocated known)
      have present := entry.2
      rw [empty] at present
      simp at present
  · rcases cases bound with old | rfl
    · rw [vnode old] at above
      exact more (mounted.parent v old p above)
    · rw [inserted.newVnode] at above
      exact more (Option.some.inj above ▸ known)
  · rw [inserted.mountCount] at inTable
    rw [inserted.mounts]
    obtain ⟨root, point⟩ := mounted.ends m inTable
    exact ⟨more root, more point⟩
  · rw [inserted.mountCount, inserted.mounts]
    exact mounted.rootOnce
  · rw [inserted.mountCount, inserted.mounts]
    rcases cases bound with old | rfl
    · rw [vnode old] at mount
      exact mounted.covered v old m mount
    · rw [inserted.newVnode] at mount
      simp at mount
  · rw [inserted.mountCount, inserted.activeMounts]
    exact mounted.active

/-! ## The new mount -/

/-- What `vfs_mount` leaves behind a successful set-up: the mount is in its place, its mountpoint is
covered, the table takes the mount if it has room, and all else is as the set-up left it. -/
structure Entered (fs made t : VfsHeap) (root mountpoint : VnodeId) : Prop where
  vnodeCount : t.vnodeCount = made.vnodeCount
  nodeCount : t.nodeCount = made.nodeCount
  mountCount : t.mountCount = fs.mountCount + 1
  rootfs : t.rootfs = fs.rootfs
  nodes : t.nodes = made.nodes
  internal : ∀ v, (t.vnodes v).internal = (made.vnodes v).internal
  parent : ∀ v, (t.vnodes v).parent = (made.vnodes v).parent
  vOps : ∀ v, (t.vnodes v).vOps = (made.vnodes v).vOps
  fOps : ∀ v, (t.vnodes v).fOps = (made.vnodes v).fOps
  covered : (t.vnodes mountpoint).mount = some fs.mountCount
  others : ∀ {v}, v ≠ mountpoint → (t.vnodes v).mount = (made.vnodes v).mount
  oldMount : ∀ m < fs.mountCount, t.mounts m = fs.mounts m
  newMount : t.mounts fs.mountCount = ⟨root, mountpoint⟩
  activeMounts : t.activeMounts =
    if fs.activeMounts.length < maxMounts then fs.activeMounts ++ [fs.mountCount]
    else fs.activeMounts

namespace Entered

variable {fs made t : VfsHeap} {root mountpoint : VnodeId}

theorem of_setup (mountpoint : VnodeId)
    (setup : RootMade { fs with mountCount := fs.mountCount + 1 } made root) :
    Entered fs made (made.link fs.mountCount root mountpoint) root mountpoint := by
  have vnode : ∀ v, v ≠ mountpoint →
      (made.link fs.mountCount root mountpoint).vnodes v = made.vnodes v :=
    fun v other => Function.update_of_ne other _ _
  have point : (made.link fs.mountCount root mountpoint).vnodes mountpoint =
      { made.vnodes mountpoint with mount := some fs.mountCount } := Function.update_self _ _ _
  have field : ∀ {α : Type} (f : Vnode → α), (∀ v mount, f { v with mount := mount } = f v) →
      ∀ v, f ((made.link fs.mountCount root mountpoint).vnodes v) = f (made.vnodes v) := by
    intro α f ignores v
    rcases eq_or_ne v mountpoint with rfl | other
    · rw [point, ignores]
    · rw [vnode v other]
  exact {
    vnodeCount := rfl
    nodeCount := rfl
    mountCount := setup.mountCount
    rootfs := setup.rootfs
    nodes := rfl
    internal := field Vnode.internal fun _ _ => rfl
    parent := field Vnode.parent fun _ _ => rfl
    vOps := field Vnode.vOps fun _ _ => rfl
    fOps := field Vnode.fOps fun _ _ => rfl
    covered := by rw [point]
    others := fun {v} other => by rw [vnode v other]
    oldMount := fun m old =>
      (Function.update_of_ne (Nat.ne_of_lt old) _ _).trans (congrFun setup.mounts m)
    newMount := Function.update_self _ _ _
    activeMounts := by
      rw [VfsHeap.link]
      simp only [setup.activeMounts] }

variable (entered : Entered fs made t root mountpoint)
include entered

theorem node (v : VnodeId) : nodeOf t.toVfs v = nodeOf made.toVfs v := by
  rw [nodeOf, entered.nodes, entered.internal, nodeOf]

/-- A vnode covers what the new mount does, or what was covered before. -/
theorem mount_cases {v : VnodeId} {m : MountId} (mount : (t.vnodes v).mount = some m) :
    (v = mountpoint ∧ m = fs.mountCount) ∨ (made.vnodes v).mount = some m := by
  rcases eq_or_ne v mountpoint with rfl | other
  · exact .inl ⟨rfl, (Option.some.inj (entered.covered.symm.trans mount)).symm⟩
  · exact .inr ((entered.others other).symm.trans mount)

theorem active_cases {m : MountId} (active : m ∈ t.activeMounts) :
    m ∈ fs.activeMounts ∨ m = fs.mountCount := by
  rw [entered.activeMounts] at active
  split at active
  · exact (List.mem_append.mp active).imp_right List.mem_singleton.mp
  · exact .inl active

theorem still {m : MountId} (active : m ∈ fs.activeMounts) : m ∈ t.activeMounts := by
  rw [entered.activeMounts]
  split
  · exact List.mem_append_left _ active
  · exact active

end Entered

theorem Mounted.mount {fs made : VfsHeap} (mounted : Mounted fs) {root mountpoint : VnodeId}
    (known : mountpoint < fs.vnodeCount)
    (setup : RootMade { fs with mountCount := fs.mountCount + 1 } made root) :
    Mounted (made.link fs.mountCount root mountpoint) := by
  have entered := Entered.of_setup mountpoint setup
  generalize made.link fs.mountCount root mountpoint = t at entered ⊢
  have number : root = fs.vnodeCount := setup.number
  have grew : fs.vnodeCount < made.vnodeCount := setup.vnodeCount
  have grewNodes : fs.nodeCount < made.nodeCount := setup.nodeCount
  have oldVnode : ∀ v < fs.vnodeCount, made.vnodes v = fs.vnodes v := setup.vnodes
  have cases : ∀ {v}, v < t.vnodeCount → v < fs.vnodeCount ∨ fs.vnodeCount ≤ v ∧
      v < made.vnodeCount := by
    intro v bound
    rw [entered.vnodeCount] at bound
    omega
  have mountCases : ∀ {m}, m < t.mountCount → m < fs.mountCount ∨ m = fs.mountCount := by
    intro m bound
    rw [entered.mountCount] at bound
    omega
  have oldNode : ∀ v < fs.vnodeCount, nodeOf made.toVfs v = nodeOf fs.toVfs v := by
    intro v old
    rw [nodeOf, oldVnode v old, setup.nodes _ (mounted.node v old)]
    rfl
  refine ⟨⟨entered.rootfs.trans mounted.rootfs.1, by rw [entered.mountCount]; omega⟩,
    fun v bound => ?_, fun v bound w bound' same => ?_, fun d bound other v entry => ?_,
    fun v bound p above => ?_, fun m inTable => ?_, fun m inTable m' inTable' same => ?_,
    fun v bound m mount => ?_, fun m active => ?_⟩
  · rw [entered.internal, entered.nodeCount]
    rcases cases bound with old | ⟨low, high⟩
    · rw [oldVnode v old]
      exact (mounted.node v old).trans grewNodes
    · exact (setup.new v low high).2.2.2
  · rw [entered.internal, entered.internal] at same
    rcases cases bound with old | ⟨low, high⟩ <;> rcases cases bound' with old' | ⟨low', high'⟩
    · rw [oldVnode v old, oldVnode w old'] at same
      exact mounted.ownNode v old w old' same
    · rw [oldVnode v old] at same
      exact absurd (mounted.node v old) (not_lt.mpr (same ▸ (setup.new w low' high').2.2.1))
    · rw [oldVnode w old'] at same
      exact absurd (mounted.node w old') (not_lt.mpr (same ▸ (setup.new v low high).2.2.1))
    · exact setup.ownNode v low high w low' high' same
  · rw [entered.parent, entered.vnodeCount]
    rw [Child, entered.node] at entry
    rcases cases bound with old | ⟨low, high⟩
    · rw [oldNode d old] at entry
      obtain ⟨knownV, parent, notRoot⟩ := mounted.child d old other v entry
      refine ⟨knownV.trans grew, by rw [oldVnode v knownV]; exact parent, fun m inTable => ?_⟩
      rcases mountCases inTable with before | rfl
      · rw [entered.oldMount m before]
        exact notRoot m before
      · rw [entered.newMount, number]
        exact Nat.ne_of_gt knownV
    · obtain ⟨rfl, above, bound'⟩ := setup.child d low high other v entry
      have newV : fs.vnodeCount ≤ v := le_of_lt (number ▸ above)
      refine ⟨bound', (setup.new v newV bound').2.1, fun m inTable => ?_⟩
      rcases mountCases inTable with before | rfl
      · rw [entered.oldMount m before]
        exact Nat.ne_of_lt (lt_of_lt_of_le (mounted.ends m before).1 newV)
      · rw [entered.newMount]
        exact Nat.ne_of_lt above
  · rw [entered.parent] at above
    rw [entered.vnodeCount]
    rcases cases bound with old | ⟨low, high⟩
    · rw [oldVnode v old] at above
      exact (mounted.parent v old p above).trans grew
    · rw [(setup.new v low high).2.1] at above
      rw [← Option.some.inj above, number]
      exact grew
  · rw [entered.vnodeCount]
    rcases mountCases inTable with before | rfl
    · rw [entered.oldMount m before]
      obtain ⟨rootBound, pointBound⟩ := mounted.ends m before
      exact ⟨rootBound.trans grew, pointBound.trans grew⟩
    · rw [entered.newMount]
      exact ⟨number ▸ grew, known.trans grew⟩
  · rcases mountCases inTable with before | rfl <;> rcases mountCases inTable' with before' | rfl
    · rw [entered.oldMount m before, entered.oldMount m' before'] at same
      exact mounted.rootOnce m before m' before' same
    · rw [entered.oldMount m before, entered.newMount, number] at same
      exact absurd same (Nat.ne_of_lt (mounted.ends m before).1)
    · rw [entered.oldMount m' before', entered.newMount, number] at same
      exact absurd same.symm (Nat.ne_of_lt (mounted.ends m' before').1)
    · rfl
  · obtain ⟨rfl, rfl⟩ | mount := entered.mount_cases mount
    · rw [entered.newMount, entered.mountCount]
      exact ⟨Nat.lt_succ_self _, Nat.ne_of_gt mounted.rootfs.2, rfl⟩
    · rcases cases bound with old | ⟨low, high⟩
      · rw [oldVnode v old] at mount
        obtain ⟨inTable, nonzero, point⟩ := mounted.covered v old m mount
        rw [entered.oldMount m inTable, entered.mountCount]
        exact ⟨Nat.lt_succ_of_lt inTable, nonzero, point⟩
      · rw [(setup.new v low high).1] at mount
        simp at mount
  · rw [entered.mountCount]
    obtain old | rfl := entered.active_cases active
    · exact Nat.lt_succ_of_lt (mounted.active m old)
    · exact Nat.lt_succ_self _

/-! ## Runs -/

/-- A call of `vfs_mkdir` or `vfs_mount` by a task with this working directory, with the fuel of its
lookups, the bytes behind its name array and the RAM disk. -/
inductive Call where
  | mkdir (fuel : ℕ) (base : VnodeId) (pathname behind : List UInt8) (grants : Grants)
  | mount (fuel : ℕ) (base : VnodeId) (target filesystem : List UInt8)
      (cpio : List CpioFile) (grants : Grants)

/-- A call that succeeds. -/
inductive Step : VfsHeap → Call → VfsHeap → Prop
  | mkdir {s t : VfsHeap} {fuel : ℕ} {base new : VnodeId}
      {pathname behind : List UInt8} {grants : Grants}
      (known : base < s.vnodeCount)
      (made : vfsMkdir s fuel base pathname behind grants = some (.found new, t)) :
      Step s (.mkdir fuel base pathname behind grants) t
  | mount {s t : VfsHeap} {fuel : ℕ} {base : VnodeId}
      {target filesystem : List UInt8} {cpio : List CpioFile}
      {grants : Grants} (known : base < s.vnodeCount)
      (result : vfsMount s fuel base target filesystem cpio grants = some (0, t)) :
      Step s (.mount fuel base target filesystem cpio grants) t

def calls : System VfsHeap Call := ⟨Step⟩

/-- A mount is made while `active_mounts` has room. -/
def Room (s : VfsHeap) : Call → Prop
  | .mkdir .. => True
  | .mount .. => s.activeMounts.length < maxMounts

theorem boot_mounted (memory : Vfs) : Mounted (bootVfs memory) ∧ Recorded (bootVfs memory) := by
  have only : ∀ v < (bootVfs memory).vnodeCount, v = 0 := fun v bound => Nat.lt_one_iff.mp bound
  have onlyMount : ∀ m < (bootVfs memory).mountCount, m = 0 :=
    fun m bound => Nat.lt_one_iff.mp bound
  have vnode : (bootVfs memory).vnodes 0 = ⟨none, some .tmpfs, some .tmpfs, some 0, .dir, 0⟩ := by
    simp [bootVfs, tmpfsSetupMount, VfsHeap.setInternal, VfsHeap.addNode,
      VfsHeap.addVnode, rootVnode]
  have mount : (bootVfs memory).mounts 0 = ⟨0, 0⟩ := by simp [bootVfs]
  have empty : (nodeOf (bootVfs memory).toVfs 0).entries = fun _ => none := by
    rw [nodeOf, vnode]
    simp [bootVfs, tmpfsSetupMount, VfsHeap.setInternal, VfsHeap.addNode, VfsHeap.addVnode]
  refine ⟨⟨⟨rfl, Nat.one_pos⟩, fun v bound => ?_, fun v bound w bound' _ => ?_,
    fun d bound slot v entry => ?_, fun v bound p above => ?_, fun m inTable => ?_,
    fun m inTable m' inTable' _ => ?_, fun v bound m covered => ?_, fun m active => ?_⟩,
    fun m inTable => ?_⟩
  · rw [only v bound, vnode]
    exact Nat.one_pos
  · rw [only v bound, only w bound']
  · have present := entry.2
    rw [only d bound, empty] at present
    simp at present
  · rw [only v bound, vnode] at above
    exact Option.some.inj above ▸ Nat.one_pos
  · rw [onlyMount m inTable, mount]
    exact ⟨Nat.one_pos, Nat.one_pos⟩
  · rw [onlyMount m inTable, onlyMount m' inTable']
  · rw [only v bound, vnode] at covered
    simp at covered
  · rw [List.mem_singleton.mp active]
    exact Nat.one_pos
  · rw [onlyMount m inTable]
    exact List.mem_singleton_self 0

theorem Mounted.step {s t : VfsHeap} {call : Call} (mounted : Mounted s)
    (step : calls.Step s call t) : Mounted t := by
  cases step with
  | mkdir known made =>
    obtain ⟨parent, name, slot, resolved, -, -, inserted⟩ := vfsMkdir_cases made
    exact mounted.mkdir (mounted.resolveParent known resolved) inserted
  | mount known result =>
    obtain ⟨mountpoint, root, made, lookup, setup, rfl⟩ := vfsMount_success result
    exact mounted.mount (mounted.closed.vfsLookupFrom known lookup) setup

theorem Recorded.step {s t : VfsHeap} {call : Call} (recorded : Recorded s)
    (step : (calls.restrict Room).Step s call t) :
    Recorded t := by
  obtain ⟨room, step⟩ := step
  cases step with
  | mkdir known made =>
    obtain ⟨parent, name, slot, -, -, -, inserted⟩ := vfsMkdir_cases made
    intro m inTable
    rw [inserted.mountCount] at inTable
    rw [inserted.activeMounts]
    exact recorded m inTable
  | mount known result =>
    obtain ⟨mountpoint, root, made, -, setup, rfl⟩ := vfsMount_success result
    have space : s.activeMounts.length < maxMounts := room
    have active : made.activeMounts = s.activeMounts := setup.activeMounts
    have count : made.mountCount = s.mountCount + 1 := setup.mountCount
    intro m inTable
    change m < made.mountCount at inTable
    rw [count] at inTable
    change m ∈ if made.activeMounts.length < maxMounts then made.activeMounts ++ [s.mountCount]
      else made.activeMounts
    rw [active, if_pos space]
    rcases Nat.lt_succ_iff_lt_or_eq.mp inTable with before | rfl
    · exact List.mem_append_left _ (recorded m before)
    · exact List.mem_append_right _ (List.mem_singleton_self _)

/-- In every run that mounts only while the table has room, `..` undoes a step down from any
directory that a lookup returns and that nothing is mounted on. -/
theorem up_undoes_down {memory : Vfs} {events : List Call} {s : VfsHeap}
    (run : System.Path (calls.restrict Room) (bootVfs memory) events s) {base d e : VnodeId}
    {path c : List UInt8} (known : base < s.vnodeCount)
    (found : Returns s.toVfs base path (.found d)) (uncovered : (s.vnodes d).mount = none)
    (component : c ≠ [] ∧ slash ∉ c ∧ (0 : UInt8) ∉ c) (plain : c ≠ [dot] ∧ c ≠ [dot, dot])
    (down : Returns s.toVfs d c (.found e)) : Returns s.toVfs e [dot, dot] (.found d) := by
  have mounted : Mounted s :=
    run.of_restrict.invariant (P := Mounted)
      (fun mounted step => mounted.step step) (boot_mounted memory).1
  have recorded : Recorded s :=
    run.invariant (P := Recorded) (fun recorded step => recorded.step step) (boot_mounted memory).2
  obtain ⟨n, walk⟩ := found
  obtain ⟨k, down⟩ := down
  obtain ⟨nonempty, noSlash, cString⟩ := component
  rw [vfsLookupFrom_component _ _ _ nonempty noSlash] at down
  -- cutting the component to what fits does not make it a special one
  have cut : ∀ special : List UInt8, special.length < maxName - 1 → c ≠ special →
      c.take (maxName - 1) ≠ special := by
    intro special short other same
    rw [← same, List.length_take] at short
    rw [List.take_of_length_le (by omega)] at same
    exact other same
  obtain ⟨m, up⟩ := up_of_down mounted recorded (mounted.closed.vfsLookupFrom known walk) uncovered
    (cut [dot] (by decide) plain.1) (cut [dot, dot] (by decide) plain.2)
    (fun member => cString (List.mem_of_mem_take member)) down
  refine ⟨m, ?_⟩
  rw [vfsLookupFrom_component _ _ _ (by decide) (by decide)]
  change lookupComponent s.toVfs m e [dot, dot] = _
  rw [lookupComponent, if_neg (by decide), if_pos (by decide), up]
  rfl

/-- `mkdir a` and `mount tmpfs a` in the root directory. -/
def makeA : Call := .mkdir 1 0 [97] [] ⟨true, true, true, true, true⟩
def mountA : Call := .mount 10 0 [97] [116, 109, 112, 102, 115] [] ⟨true, true, true, true, true⟩

/-- The state after `makeA` and this many times `mountA`. -/
def stacked : ℕ → VfsHeap
  | 0 => (tmpfsMkdir (bootVfs smallTree) 0 [97] ⟨true, true, true, true, true⟩).2
  | n + 1 =>
    let fs := stacked n
    ((tmpfsSetupMount { fs with mountCount := fs.mountCount + 1 }
      ⟨true, true, true, true, true⟩).2).link
      fs.mountCount fs.vnodeCount (n + 1)

theorem makeA_step : calls.Step (bootVfs smallTree) makeA (stacked 0) := by
  have made : vfsMkdir (bootVfs smallTree) 1 0 [97] [] ⟨true, true, true, true, true⟩ =
      some (.found 1, stacked 0) := rfl
  exact .mkdir (by decide) made

theorem mountA_step (n : Fin 8) : calls.Step (stacked n) mountA (stacked (n + 1)) := by
  have known : ∀ n : Fin 8, 0 < (stacked n).vnodeCount := by decide +kernel
  have target : ∀ n : Fin 8, vfsLookupFrom (stacked n).toVfs 10 0 [97] =
      some (.found (n + 1)) := by decide +kernel
  apply Step.mount (known n)
  rw [vfsMount, target n]
  rfl

theorem up_undoes_down_mountA : Returns (stacked 1).toVfs 2 [dot, dot] (.found 0) := by
  have run : System.Path (calls.restrict Room) (bootVfs smallTree) [makeA, mountA] (stacked 1) :=
    .cons ⟨trivial, makeA_step⟩
      (.cons ⟨show (stacked 0).activeMounts.length < maxMounts by decide +kernel, mountA_step 0⟩
      (.nil _))
  have start : Returns (stacked 1).toVfs 0 [slash] (.found 0) := ⟨1, by decide +kernel⟩
  exact up_undoes_down run (by decide : 0 < (stacked 1).vnodeCount) start (by decide +kernel)
    (by decide) (by decide)
    ⟨10, (by decide +kernel : vfsLookupFrom (stacked 1).toVfs 10 0 [97] = some (.found 2))⟩

/-- With eight mounts on `a` the table is full before the last one, and `..` stays at its root. -/
theorem up_undoes_down_tableFull :
    System.Path calls (bootVfs smallTree) (makeA :: List.replicate 8 mountA) (stacked 8) ∧
      Returns (stacked 8).toVfs 0 [slash] (.found 0) ∧ ((stacked 8).vnodes 0).mount = none ∧
      Returns (stacked 8).toVfs 0 [97] (.found 9) ∧ ((stacked 8).vnodes 9).type = .dir ∧
      ¬ Returns (stacked 8).toVfs 9 [dot, dot] (.found 0) := by
  have mounts : ∀ n ≤ 8,
      System.Path calls (stacked (8 - n)) (List.replicate n mountA) (stacked 8) := by
    intro n bound
    induction n with
    | zero => exact .nil _
    | succ n ih =>
      have step := mountA_step ⟨8 - (n + 1), by omega⟩
      rw [show 8 - (n + 1) + 1 = 8 - n by omega] at step
      exact .cons step (ih (by omega))
  refine ⟨.cons makeA_step (mounts 8 le_rfl), ⟨1, by decide +kernel⟩, by decide +kernel,
    ⟨10, by decide +kernel⟩, by decide +kernel, fun up => ?_⟩
  have stays : Returns (stacked 8).toVfs 9 [dot, dot] (.found 9) := ⟨10, by decide +kernel⟩
  exact absurd (Returns.unique up stays) (by decide)

end OscKernel.Soundness.MountTable
