import Mathlib.Data.List.Find
import Mathlib.Logic.Relation
import OscKernel.Soundness.LookupTermination

/-! # Where a new mount is seen

`vfs_mount` hangs a filesystem on the vnode that its target leads to, and a walk enters it only
where one of its steps lands on that vnode. The walk along a path after the mount is described by
where it stands in the tree before the mount: outside, at the new root, or at one of the files the
driver puts there. All drivers set up one level of files.
-/

namespace OscKernel.Soundness.MountVisibility

open OscKernel.Lib OscKernel.Model OscKernel.Soundness.Lookup OscKernel.Soundness.TreeUpdates
  OscKernel.Soundness.MountTable OscKernel.Soundness.PathCreation
  OscKernel.Soundness.LookupTermination

/-! ## One step of a walk -/

/-- The vnode `..` goes on to when no mount is left to climb out of. -/
def above (fs : Vfs) (v : VnodeId) : VnodeId :=
  if v ≠ fs.root then (fs.vnodes v).parent.getD v else v

/-- The vnode a step comes to before it follows the mounts on it; `.`, and `..` at the root, come to
none. -/
inductive Lands (fs : Vfs) (v : VnodeId) : List UInt8 → VnodeId → Prop
  | child {component : List UInt8} {ops : VnodeOps} {next : VnodeId}
      (plain : component ≠ [dot] ∧ component ≠ [dot, dot])
      (driver : (fs.vnodes v).vOps = some ops) (found : driverLookup fs v component = .found next) :
      Lands fs v component next
  | up {fuel : ℕ} {popped : VnodeId} (notRoot : v ≠ fs.root)
      (pops : popMounts fs fuel v = some popped) :
      Lands fs v [dot, dot] (above fs popped)

theorem Lands.of_name {fs : Vfs} {v w : VnodeId} {component : List UInt8}
    (lands : Lands fs v component w) (plain : component ≠ [dot, dot]) :
    driverLookup fs v component = .found w := by
  cases lands with
  | child _ _ found => exact found
  | up => exact absurd rfl plain

theorem Lands.known {fs : Vfs} {known : VnodeId → Prop} (closed : Closed fs known) {v w : VnodeId}
    {component : List UInt8} (inside : known v) (short : component.length < maxName)
    (lands : Lands fs v component w) :
    known w := by
  cases lands with
  | child _ _ found => exact closed.child inside short found
  | up _ pops =>
    rw [above]
    have popped := closed.popMounts inside pops
    split
    · rename_i popped' _ _
      cases parent : (fs.vnodes popped').parent with
      | none => exact popped
      | some p => exact closed.parent popped parent
    · exact popped

theorem lookupComponent_found_iff {fs : Vfs} {v w : VnodeId} {component : List UInt8}
    (cString : (0 : UInt8) ∉ component) :
    (∃ fuel, lookupComponent fs fuel v component = some (.found w)) ↔
      (component = [dot] ∧ w = v) ∨ (component = [dot, dot] ∧ v = fs.root ∧ w = v) ∨
        ∃ u, Lands fs v component u ∧ ∃ fuel, crossMounts fs fuel u = some w := by
  have isDot : strcmp component [dot] = 0 ↔ component = [dot] :=
    strcmp_eq_zero_iff cString (by decide)
  have isDotDot : strcmp component [dot, dot] = 0 ↔ component = [dot, dot] :=
    strcmp_eq_zero_iff cString (by decide)
  constructor
  · rintro ⟨fuel, ends⟩
    rw [lookupComponent] at ends
    split at ends
    · rename_i same
      exact .inl ⟨isDot.mp same, (Outcome.found.inj (Option.some.inj ends)).symm⟩
    rename_i notDot
    split at ends
    · rename_i same
      obtain ⟨w', parent, found⟩ := Option.map_eq_some_iff.mp ends
      obtain rfl := Outcome.found.inj found
      rw [lookupParent] at parent
      split at parent
      · rename_i atRoot
        exact .inr (.inl ⟨isDotDot.mp same, atRoot, (Option.some.inj parent).symm⟩)
      · rename_i notRoot
        obtain ⟨popped, pops, crosses⟩ := Option.bind_eq_some_iff.mp parent
        rw [isDotDot.mp same]
        exact .inr (.inr ⟨_, .up notRoot pops, fuel, crosses⟩)
    rename_i notDotDot
    split at ends
    · simp at ends
    rename_i ops driver
    split at ends
    · simp at ends
    rename_i next found
    obtain ⟨w', crosses, same⟩ := Option.map_eq_some_iff.mp ends
    obtain rfl := Outcome.found.inj same
    have found' : driverLookup fs v component = .found next := by
      cases ops <;> exact found
    exact .inr (.inr ⟨next, .child ⟨mt isDot.mpr notDot, mt isDotDot.mpr notDotDot⟩ driver found',
      fuel, crosses⟩)
  · rintro (⟨same, rfl⟩ | ⟨same, atRoot, rfl⟩ | ⟨u, lands, n, crosses⟩)
    · exact ⟨0, by rw [lookupComponent, if_pos (isDot.mpr same)]⟩
    · refine ⟨0, ?_⟩
      rw [lookupComponent, if_neg (by rw [same]; decide), if_pos (isDotDot.mpr same),
        lookupParent, if_pos atRoot]
      rfl
    · cases lands with
      | @child component ops next plain driver found =>
        have found' : ops.lookup fs v component = .found u := by
          cases ops <;> exact found
        refine ⟨n, ?_⟩
        rw [lookupComponent, if_neg (mt isDot.mp plain.1), if_neg (mt isDotDot.mp plain.2), driver]
        simp only [found', crosses, Option.map_some]
      | @up k popped notRoot pops =>
        refine ⟨max k n, ?_⟩
        have climbs := popMounts_mono fs (Nat.le_max_left k n) pops
        have descends := crossMounts_mono fs (Nat.le_max_right k n) crosses
        rw [lookupComponent, if_neg (by decide), if_pos (by decide),
          lookupParent, if_neg notRoot, climbs]
        simp only [Option.bind_eq_bind, Option.bind_some]
        rw [above] at descends
        rw [descends]
        rfl

/-! ## The walk after the mount, told before it -/

/-- Where a walk stands. -/
inductive Place where
  | outside (v : VnodeId)
  | root
  | file

section

variable (fs : Vfs) (mountpoint : VnodeId)

/-- The mounts on the vnode lead over the mountpoint. -/
def Over (v : VnodeId) : Prop :=
  Relation.ReflTransGen (fun v w => mountedOn fs v = some w) v mountpoint

/-- Where the mounts lead from a vnode that a step lands on. -/
inductive Ends (v : VnodeId) : Place → Prop
  | under (covered : Over fs mountpoint v) : Ends v .root
  | past {fuel : ℕ} {w : VnodeId} (clear : ¬ Over fs mountpoint v)
      (crosses : crossMounts fs fuel v = some w) :
      Ends v (.outside w)

/-- One step. `room` says that the mount is in the table, `names` are the names of its files. -/
inductive Moves (room : Prop) (names : List (List UInt8)) : Place → List UInt8 → Place → Prop
  | stay (place : Place) : Moves room names place [dot] place
  | top : Moves room names (.outside fs.root) [dot, dot] (.outside fs.root)
  | step {v w : VnodeId} {component : List UInt8} {place : Place} (lands : Lands fs v component w)
      (ends : Ends fs mountpoint w place) : Moves room names (.outside v) component place
  | out {w : VnodeId} {place : Place} (recorded : room) (notTop : mountpoint ≠ fs.root)
      (lands : Lands fs mountpoint [dot, dot] w) (ends : Ends fs mountpoint w place) :
      Moves room names .root [dot, dot] place
  | stuck (unrecorded : ¬ room) : Moves room names .root [dot, dot] .root
  | enter {component : List UInt8} (plain : component ≠ [dot] ∧ component ≠ [dot, dot])
      (member : component ∈ names) :
      Moves room names .root component .file
  | leave : Moves room names .file [dot, dot] .root

/-- A walk of several steps. -/
inductive Leads (room : Prop) (names : List (List UInt8)) : Place → List (List UInt8) → Place → Prop
  | nil (place : Place) : Leads room names place [] place
  | cons {place next last : Place} {component : List UInt8} {rest : List (List UInt8)}
      (moves : Moves fs mountpoint room names place component next)
      (leads : Leads room names next rest last) :
      Leads room names place (component :: rest) last

/-- Some step of the walk comes to the mountpoint: the path leads to it or below it. -/
inductive Enters : VnodeId → List (List UInt8) → Prop
  | here {v w : VnodeId} {component : List UInt8} {rest : List (List UInt8)}
      (lands : Lands fs v component w)
      (covered : Over fs mountpoint w) : Enters v (component :: rest)
  | later {fuel : ℕ} {v w : VnodeId} {component : List UInt8} {rest : List (List UInt8)}
      (step : lookupComponent fs fuel v component = some (.found w)) (enters : Enters w rest) :
      Enters v (component :: rest)

end

/-! ## The files that a driver sets up -/

/-- The name that `ramfs_setup_mount` keeps of a file. -/
def storedName (file : CpioFile) : List UInt8 := (file.name.take (maxName - 1)).takeWhile (· ≠ 0)

/-- The files of the RAM disk that get a slot. -/
def storedFiles (cpio : List CpioFile) (slots : ℕ) : List CpioFile :=
  (cpio.filter fun file => decide (strcmp file.name [dot] ≠ 0) && file.granted).take slots

theorem storedFiles_skipped {file : CpioFile} {rest : List CpioFile} {slots : ℕ}
    (skips : (decide (strcmp file.name [dot] ≠ 0) && file.granted) = false) :
    storedFiles (file :: rest) slots = storedFiles rest slots := by
  rw [storedFiles, List.filter_cons_of_neg (by rw [skips]; exact Bool.false_ne_true)]
  rfl

theorem storedFiles_kept {file : CpioFile} {rest : List CpioFile} {slots : ℕ}
    (notDot : strcmp file.name [dot] ≠ 0) (granted : file.granted = true) :
    storedFiles (file :: rest) (slots + 1) = file :: storedFiles rest slots := by
  rw [storedFiles, List.filter_cons_of_pos (by rw [granted]; simpa using notDot),
    List.take_succ_cons]
  rfl

/-- The names in the root directory of a new filesystem. -/
def driverNames (cpio : List CpioFile) : VnodeOps → List (List UInt8)
  | .tmpfs => []
  | .devfs => [[117, 97, 114, 116], [102, 98]]
  | .ramfs => (storedFiles cpio maxEntries).map storedName

/-- The root directory holds files of these names, in its first slots. -/
structure Listed (t : VfsHeap) (root : VnodeId) (names : List (List UInt8)) : Prop where
  ops : ∃ ops, (t.vnodes root).vOps = some ops
  isDir : (nodeOf t.toVfs root).type = .dir
  free : ∀ slot, names.length ≤ slot.val → (nodeOf t.toVfs root).entries slot = none
  named : ∀ c, (0 : UInt8) ∉ c →
    ((∃ slot w, (nodeOf t.toVfs root).entries slot = some w ∧
      strcmp (nodeOf t.toVfs w).cName c = 0) ↔ c ∈ names)

theorem takeWhile_zero (name rest : List UInt8) :
    (name ++ 0 :: rest).takeWhile (fun c => c ≠ 0) = name.takeWhile fun c => c ≠ 0 := by
  induction name with
  | nil => rfl
  | cons c name ih => rw [List.cons_append, List.takeWhile_cons, List.takeWhile_cons, ih]

/-- What `ramfs_setup_mount` copies of a name. -/
theorem cName_stored (file : CpioFile) :
    (FsNode.mk (file.name.take (maxName - 1) ++
      List.replicate (maxName - min file.name.length (maxName - 1)) 0) .file
      file.size file.data fun _ => none).cName = storedName file := by
  obtain ⟨n, zeros⟩ : ∃ n, maxName - min file.name.length (maxName - 1) = n + 1 := by
    have short : min file.name.length (maxName - 1) < maxName :=
      lt_of_le_of_lt (min_le_right _ _) (by decide)
    exact ⟨maxName - min file.name.length (maxName - 1) - 1, by omega⟩
  rw [FsNode.cName, zeros, List.replicate_succ, List.append_assoc]
  exact takeWhile_zero _ _

theorem cName_named (node : FsNode) {literal : List UInt8} (cString : (0 : UInt8) ∉ literal) :
    (node.named literal (literal.length + 1)).cName = literal := by
  have kept : ∀ c ∈ literal, decide (c ≠ 0) = true := by
    intro c member
    rw [decide_eq_true_eq]
    rintro rfl
    exact cString member
  rw [FsNode.cName, FsNode.named, Nat.add_sub_cancel_left, List.replicate_one,
    List.append_assoc, List.append_assoc]
  exact (takeWhile_zero _ _).trans (List.takeWhile_eq_self_iff.mpr kept)

namespace Listed

variable {fs t : VfsHeap} {root : VnodeId} {names : List (List UInt8)}

private theorem found_iff (listed : Listed t root names) {c : List UInt8}
    (cString : (0 : UInt8) ∉ c) : (∃ f, driverLookup t.toVfs root c = .found f) ↔ c ∈ names := by
  rw [← listed.named c cString]
  constructor
  · rintro ⟨f, found⟩
    obtain ⟨slot, entry, same⟩ := child_of_found found
    exact ⟨slot, f, entry.2, same⟩
  · rintro ⟨slot, w, entry, same⟩
    cases outcome : driverLookup t.toVfs root c with
    | found f => exact ⟨f, rfl⟩
    | error code => exact absurd same (not_child_of_error outcome ⟨listed.isDir, entry⟩)

/-- The empty root directory. -/
theorem empty (fs : VfsHeap) (vOps : VnodeOps) (fOps : Option FileOps) {node : FsNode}
    (isDir : node.type = .dir) (empty : node.entries = fun _ => none) :
    Listed (withRoot fs vOps fOps node) fs.vnodeCount [] := by
  obtain ⟨vnode, contents⟩ := withRoot_spec fs vOps fOps node
  generalize withRoot fs vOps fOps node = t at vnode contents ⊢
  refine ⟨⟨vOps, by rw [vnode]; rfl⟩, by rw [contents]; exact isDir,
    fun slot _ => by rw [contents, empty], fun c _ => ?_⟩
  rw [contents, empty]
  simp

/-- One more file in the next slot. -/
theorem addFile (listed : Listed t root names) (made : RootMade fs t root) (slot : Fin maxEntries)
    (next : slot.val = names.length) (vOps : VnodeOps) (fOps : FileOps) (node : FsNode) :
    Listed (Model.addFile t root fs.nodeCount slot vOps fOps node)
      root (names ++ [node.cName]) := by
  generalize result : Model.addFile t root fs.nodeCount slot vOps fOps node = u
  have rootOld : root < t.vnodeCount := made.number ▸ made.vnodeCount
  have otherNode : fs.nodeCount ≠ t.nodeCount := Nat.ne_of_lt made.nodeCount
  have oldVnode : ∀ v < t.vnodeCount, u.vnodes v = t.vnodes v := by
    intro v old
    rw [← result]
    exact Function.update_of_ne (Nat.ne_of_lt old) _ _
  have rootNode : nodeOf u.toVfs root = { nodeOf t.toVfs root with
      entries := Function.update (nodeOf t.toVfs root).entries slot (some t.vnodeCount) } := by
    rw [nodeOf, nodeOf, oldVnode root rootOld, made.rootNode, ← result]
    simp only [Model.addFile, VfsHeap.setEntry, VfsHeap.addNode, VfsHeap.addVnode,
      Function.update_self, Function.update_of_ne otherNode]
  have newNode : nodeOf u.toVfs t.vnodeCount = node := by
    rw [nodeOf, ← result]
    simp only [Model.addFile, VfsHeap.setEntry, VfsHeap.addNode, VfsHeap.addVnode,
      Function.update_self, Function.update_of_ne otherNode.symm]
  have oldNode : ∀ {other w}, (nodeOf t.toVfs root).entries other = some w →
      nodeOf u.toVfs w = nodeOf t.toVfs w := by
    intro other w entry
    have low : fs.vnodeCount ≤ root := le_of_eq made.number.symm
    obtain ⟨-, newer, bound⟩ := made.child root low rootOld other w ⟨listed.isDir, entry⟩
    have lowW : fs.vnodeCount ≤ w := low.trans (le_of_lt newer)
    have ownNode : (t.vnodes w).internal ≠ fs.nodeCount := by
      rw [← made.rootNode]
      exact fun same => Nat.ne_of_gt newer (made.ownNode w lowW bound root low rootOld same)
    have oldNumber : (t.vnodes w).internal ≠ t.nodeCount :=
      Nat.ne_of_lt (made.new w lowW bound).2.2.2
    rw [nodeOf, nodeOf, oldVnode w bound, ← result]
    simp only [Model.addFile, VfsHeap.setEntry, VfsHeap.addNode, VfsHeap.addVnode,
      Function.update_of_ne ownNode, Function.update_of_ne oldNumber]
  refine ⟨?_, by rw [rootNode]; exact listed.isDir, fun other later => ?_, fun c cString => ?_⟩
  · rw [oldVnode root rootOld]
    exact listed.ops
  · rw [List.length_append, List.length_singleton] at later
    have otherSlot : other ≠ slot := by
      rintro rfl
      omega
    rw [rootNode]
    exact (Function.update_of_ne otherSlot _ _).trans (listed.free other (by omega))
  · rw [List.mem_append, List.mem_singleton, ← listed.named c cString, rootNode]
    constructor
    · rintro ⟨other, w, entry, same⟩
      rcases eq_or_ne other slot with rfl | otherSlot
      · simp only [Function.update_self] at entry
        obtain rfl := Option.some.inj entry
        rw [newNode, strcmp_eq_zero_iff (zero_notMem_cName node) cString] at same
        exact .inr same.symm
      · simp only [Function.update_of_ne otherSlot] at entry
        rw [oldNode entry] at same
        exact .inl ⟨other, w, entry, same⟩
    · rintro (⟨other, w, entry, same⟩ | rfl)
      · have otherSlot : other ≠ slot := by
          rintro rfl
          rw [listed.free other (le_of_eq next.symm)] at entry
          simp at entry
        refine ⟨other, w, ?_, by rw [oldNode entry]; exact same⟩
        simp only [Function.update_of_ne otherSlot]
        exact entry
      · refine ⟨slot, t.vnodeCount, by simp only [Function.update_self], ?_⟩
        rw [newNode, strcmp_eq_zero_iff (zero_notMem_cName node) cString]

/-- The loop over the RAM disk fills the slots that are left. -/
theorem ramfsFiles (listed : Listed t root names)
    (made : RootMade fs t root) (cpio : List CpioFile) :
    Listed (Model.ramfsFiles t root fs.nodeCount names.length cpio) root
      (names ++ (storedFiles cpio (maxEntries - names.length)).map storedName) := by
  induction cpio generalizing t names with
  | nil =>
    have none' : storedFiles [] (maxEntries - names.length) = [] := List.take_nil
    rw [none', List.map_nil, List.append_nil]
    exact listed
  | cons file rest ih =>
    rw [Model.ramfsFiles]
    split
    · rename_i room
      split
      · rename_i isDot
        rw [storedFiles_skipped (by rw [isDot]; rfl)]
        exact ih listed made
      · rename_i notDot
        split
        · rename_i granted
          have stored : storedFiles (file :: rest) (maxEntries - names.length) =
              file :: storedFiles rest (maxEntries - (names.length + 1)) := by
            obtain ⟨left, more⟩ : ∃ left, maxEntries - names.length = left + 1 :=
              ⟨maxEntries - names.length - 1, by omega⟩
            rw [more, storedFiles_kept notDot granted,
              show maxEntries - (names.length + 1) = left by omega]
          have one := listed.addFile made ⟨names.length, room⟩ rfl .ramfs .ramfs
            ⟨file.name.take (maxName - 1) ++ List.replicate (maxName - min file.name.length
              (maxName - 1)) 0, .file, file.size, file.data, fun _ => none⟩
          have others := ih one (made.addFile ⟨names.length, room⟩ .ramfs .ramfs rfl)
          rw [List.length_append, List.length_singleton, cName_stored] at others
          rw [stored, List.map_cons, ← List.singleton_append, ← List.append_assoc]
          exact others
        · rename_i refused
          rw [storedFiles_skipped
            (by rw [Bool.not_eq_true] at refused; rw [refused, Bool.and_false])]
          exact ih listed made
    · rename_i full
      have none' : storedFiles (file :: rest) (maxEntries - names.length) = [] := by
        rw [storedFiles, show maxEntries - names.length = 0 by omega, List.take_zero]
      rw [none', List.map_nil, List.append_nil]
      exact listed

end Listed

theorem Listed.devices (fs : VfsHeap) {directory : FsNode} (isDir : directory.type = .dir)
    (isEmpty : directory.entries = fun _ => none) (uart fb : FsNode) (isFile : uart.type = .file) :
    Listed (Model.addFile (Model.addFile (withRoot fs .devfs none directory)
      fs.vnodeCount fs.nodeCount ⟨0, by decide⟩
      .devfs .devfsUart (uart.named [117, 97, 114, 116] 5))
      fs.vnodeCount fs.nodeCount ⟨1, by decide⟩ .devfs .devfsFb (fb.named [102, 98] 3))
      fs.vnodeCount
      [[117, 97, 114, 116], [102, 98]] := by
  have made := rootMade_empty fs .devfs none isEmpty
  have first :=
    (Listed.empty fs .devfs none isDir isEmpty).addFile made ⟨0, by decide⟩ rfl .devfs .devfsUart
    (uart.named [117, 97, 114, 116] 5)
  have second := first.addFile (made.addFile ⟨0, by decide⟩ .devfs .devfsUart isFile)
    ⟨1, by decide⟩ rfl .devfs .devfsFb
    (fb.named [102, 98] 3)
  have names : (uart.named [117, 97, 114, 116] 5).cName = [117, 97, 114, 116] ∧
      (fb.named [102, 98] 3).cName = [102, 98] :=
    ⟨cName_named uart (by decide), cName_named fb (by decide)⟩
  rw [names.1, names.2] at second
  exact second

/-- Every driver makes a root directory with its names. -/
theorem setupMount_listed {fs t : VfsHeap} {driver : VnodeOps} {root : VnodeId}
    {cpio : List CpioFile} {grants : Grants}
    (setup : driver.setupMount fs cpio grants = some (.found root, t)) :
    Listed t root (driverNames cpio driver) := by
  obtain ⟨rfl, made⟩ := setupMount_cases setup
  cases made with
  | tmpfs isDir empty => exact .empty fs _ _ isDir empty
  | devfs isDir empty uartFile => exact .devices fs isDir empty _ _ uartFile
  | ramfs isDir empty =>
    exact (Listed.empty fs _ _ isDir empty).ramfsFiles (rootMade_empty fs _ _ empty) cpio

/-! ## The tree after the mount -/

/-- A vnode of one of the new files. -/
structure NewFile (t : VfsHeap) (root f : VnodeId) : Prop where
  parent : (t.vnodes f).parent = some root
  notTop : f ≠ t.root
  notRoot : f ≠ root
  down : mountedOn t.toVfs f = none
  up : mountpointOf t.toVfs f = none
  noEntry : ∀ {name child}, driverLookup t.toVfs f name ≠ .found child

/-- What a walk sees of a mount: the known vnodes are as they were, but for what is mounted on one
of them. -/
structure Attached (fs t : VfsHeap) (known : VnodeId → Prop) (mountpoint root : VnodeId)
    (room : Prop) (names : List (List UInt8)) : Prop where
  layered : Layered fs known
  point : known mountpoint
  top : t.root = fs.root
  fresh : ¬ known root
  vOps : ∀ {v}, known v → (t.vnodes v).vOps = (fs.vnodes v).vOps
  parent : ∀ {v}, known v → (t.vnodes v).parent = (fs.vnodes v).parent
  lookup : ∀ {v}, known v → ∀ name, driverLookup t.toVfs v name = driverLookup fs.toVfs v name
  up : ∀ {v}, known v → mountpointOf t.toVfs v = mountpointOf fs.toVfs v
  down : ∀ {v}, known v → v ≠ mountpoint → mountedOn t.toVfs v = mountedOn fs.toVfs v
  covered : mountedOn t.toVfs mountpoint = some root
  rootOps : ∃ ops, (t.vnodes root).vOps = some ops
  rootParent : (t.vnodes root).parent = some root
  rootDown : mountedOn t.toVfs root = none
  rootRecorded : room → mountpointOf t.toVfs root = some mountpoint
  rootUnrecorded : ¬ room → mountpointOf t.toVfs root = none
  rootNames : ∀ {c}, (0 : UInt8) ∉ c → ((∃ f, driverLookup t.toVfs root c = .found f) ↔ c ∈ names)
  newFile : ∀ {c f}, driverLookup t.toVfs root c = .found f → NewFile t root f

theorem mounted_attached {fs made : VfsHeap} {known : VnodeId → Prop} (layered : Layered fs known)
    {mountpoint root : VnodeId} (point : known mountpoint)
    (setup : RootMade { fs with mountCount := fs.mountCount + 1 } made root)
    {names : List (List UInt8)} (listed : Listed made root names) :
    Attached fs (made.link fs.mountCount root mountpoint) known mountpoint root
      (fs.activeMounts.length < maxMounts) names := by
  have entered := Entered.of_setup mountpoint setup
  generalize made.link fs.mountCount root mountpoint = t at entered ⊢
  have number : root = fs.vnodeCount := setup.number
  have grew : fs.vnodeCount < made.vnodeCount := setup.vnodeCount
  have old : ∀ {v}, known v → v < fs.vnodeCount := fun inside => (layered.allocated inside).1
  have rootNotPoint : root ≠ mountpoint := by
    rw [number]
    exact Nat.ne_of_gt (old point)
  have sameVnode : ∀ {v}, known v → made.vnodes v = fs.vnodes v :=
    fun inside => setup.vnodes _ (old inside)
  have sameNode : ∀ {v}, Allocated fs v → nodeOf t.toVfs v = nodeOf fs.toVfs v := by
    intro v allocated
    have sameVnode : made.vnodes v = fs.vnodes v := setup.vnodes v allocated.1
    have sameNode : made.nodes (fs.vnodes v).internal = fs.nodes (fs.vnodes v).internal :=
      setup.nodes _ allocated.2
    rw [entered.node, nodeOf, sameVnode, sameNode, nodeOf]
  have lookup : ∀ v name, driverLookup t.toVfs v name = driverLookup made.toVfs v name := by
    intro v name
    exact lookup_congr (by rw [entered.node]) (fun slot => .inl (by rw [entered.node]))
      fun slot w _ => by rw [entered.node]
  have oldSearch : ∀ v, (fs.activeMounts.find? fun m => (t.mounts m).root = v) =
      fs.activeMounts.find? fun m => (fs.mounts m).root = v := by
    intro v
    apply List.find?_congr
    intro m member
    rw [entered.oldMount m (layered.active member).1]
  have oldFound : ∀ {v}, (fs.activeMounts.find? fun m => (fs.mounts m).root = v).map
      (fun m => (t.mounts m).mountpoint) =
      mountpointOf fs.toVfs v := by
    intro v
    rw [mountpointOf]
    cases search : fs.activeMounts.find? fun m => (fs.mounts m).root = v with
    | none => rfl
    | some m =>
      rw [Option.map_some, Option.map_some,
        entered.oldMount m (layered.active (List.mem_of_find?_eq_some search)).1]
  -- a vnode that was not there before is no root in the old table
  have newSearch : ∀ {v}, fs.vnodeCount ≤ v →
      (fs.activeMounts.find? fun m => (t.mounts m).root = v) = none := by
    intro v new
    rw [oldSearch, List.find?_eq_none]
    intro m member same
    have bound := old (layered.rootKnown member)
    rw [show (fs.mounts m).root = v by simpa using same] at bound
    exact absurd bound (not_lt.mpr new)
  have otherUp : ∀ {v}, v ≠ root → mountpointOf t.toVfs v =
      (fs.activeMounts.find? fun m => (t.mounts m).root = v).map fun m =>
      (t.mounts m).mountpoint := by
    intro v other
    rw [mountpointOf, entered.activeMounts]
    split
    · rw [List.find?_append, List.find?_singleton, entered.newMount,
        if_neg (by simpa using other.symm), Option.or_none]
    · rfl
  have top : t.root = fs.root := by
    rw [Vfs.root, entered.rootfs, entered.oldMount _ layered.root.1, Vfs.root]
  have newVnode : ∀ {v}, fs.vnodeCount ≤ v → v ≠ mountpoint := by
    rintro v new rfl
    exact absurd (old point) (not_lt.mpr new)
  have fileOf : ∀ {c f}, driverLookup t.toVfs root c = .found f → root < f ∧
      f < made.vnodeCount := by
    intro c f found
    rw [lookup] at found
    obtain ⟨slot, entry, -⟩ := child_of_found found
    exact (setup.child root (le_of_eq number.symm) (number ▸ grew) slot f entry).2
  refine ⟨layered, point, top, fun inside =>
    absurd (old inside) (not_lt.mpr (le_of_eq number.symm)), fun {v} inside => ?_, fun {v} inside =>
    ?_, fun {v} inside name => ?_, fun {v} inside => ?_, fun {v} inside other => ?_, ?_, ?_, ?_, ?_,
    fun room => ?_, fun full => ?_, fun {c} cString => ?_, fun {c f} found => ?_⟩
  · rw [entered.vOps, sameVnode inside]
  · rw [entered.parent, sameVnode inside]
  · have allocated := layered.allocated inside
    refine lookup_congr (by rw [sameNode allocated])
      (fun slot => .inl (by rw [sameNode allocated])) fun slot w entry => ?_
    rw [sameNode (layered.children inside slot w entry)]
  · rw [otherUp (by rw [number]; exact Nat.ne_of_lt (old inside)), oldSearch, oldFound]
  · have same : (t.vnodes v).mount = (fs.vnodes v).mount := by
      rw [entered.others other, sameVnode inside]
    rw [mountedOn, mountedOn, same]
    cases mount : (fs.vnodes v).mount with
    | none => rfl
    | some m => rw [Option.map_some, Option.map_some,
        entered.oldMount m (layered.mount inside mount).1]
  · rw [mountedOn, entered.covered, Option.map_some, entered.newMount]
  · rw [entered.vOps]
    exact listed.ops
  · rw [entered.parent]
    exact (setup.new root (le_of_eq number.symm) (number ▸ grew)).2.1
  · rw [mountedOn, entered.others rootNotPoint,
      (setup.new root (le_of_eq number.symm) (number ▸ grew)).1]
    rfl
  · rw [mountpointOf, entered.activeMounts, if_pos room, List.find?_append,
      newSearch (le_of_eq number.symm), Option.none_or, List.find?_singleton, entered.newMount,
      if_pos (by simp), Option.map_some, entered.newMount]
  · rw [mountpointOf, entered.activeMounts, if_neg full, newSearch (le_of_eq number.symm)]
    rfl
  · rw [← listed.found_iff cString]
    simp only [lookup]
  · obtain ⟨newer, bound⟩ := fileOf found
    have low : fs.vnodeCount ≤ f := (le_of_eq number.symm).trans (le_of_lt newer)
    obtain ⟨mount, parent, -⟩ := setup.new f low bound
    refine ⟨by rw [entered.parent]; exact parent, ?_, Nat.ne_of_gt newer, ?_, ?_,
      fun {name child} entry => ?_⟩
    · rw [top, layered.root_eq]
      exact Nat.ne_of_gt (lt_of_le_of_lt (Nat.zero_le root) newer)
    · rw [mountedOn, entered.others (newVnode low), mount]
      rfl
    · rw [otherUp (Nat.ne_of_gt newer), newSearch low]
      rfl
    · rw [lookup] at entry
      obtain ⟨slot, here, -⟩ := child_of_found entry
      exact absurd (setup.child f low bound slot child here).1 (Nat.ne_of_gt newer)

/-! ## The walk in the new tree -/

/-- The vnode of a place. -/
inductive Stands (t : VfsHeap) (known : VnodeId → Prop) (root : VnodeId) : Place → VnodeId → Prop
  | outside {v : VnodeId} (inside : known v) : Stands t known root (.outside v) v
  | root : Stands t known root .root root
  | file {f : VnodeId} (new : NewFile t root f) : Stands t known root .file f

namespace Attached

variable {fs t : VfsHeap} {known : VnodeId → Prop} {mountpoint root : VnodeId} {room : Prop}
  {names : List (List UInt8)}

theorem popMounts (attached : Attached fs t known mountpoint root room names) {v : VnodeId}
    (inside : known v) (fuel : ℕ) :
    Model.popMounts t.toVfs fuel v = Model.popMounts fs.toVfs fuel v := by
  rw [popMounts_eq_chase, popMounts_eq_chase]
  apply chase_congr known attached.up _ fuel inside
  intro v w _ found
  obtain ⟨m, search, rfl⟩ := Option.map_eq_some_iff.mp found
  exact (attached.layered.active (List.mem_of_find?_eq_some search)).2

theorem crossMounts_clear (attached : Attached fs t known mountpoint root room names) {v : VnodeId}
    (inside : known v) (clear : ¬ Over fs.toVfs mountpoint v) (fuel : ℕ) :
    Model.crossMounts t.toVfs fuel v = Model.crossMounts fs.toVfs fuel v := by
  rw [crossMounts_eq_chase, crossMounts_eq_chase]
  apply chase_congr (fun v => known v ∧ ¬ Over fs.toVfs mountpoint v) _ _ fuel ⟨inside, clear⟩
  · rintro v ⟨inside, clear⟩
    apply attached.down inside
    rintro rfl
    exact clear .refl
  · rintro v w ⟨inside, clear⟩ found
    refine ⟨?_, fun covered => clear (.head found covered)⟩
    obtain ⟨m, mount, rfl⟩ := Option.map_eq_some_iff.mp found
    exact (attached.layered.mount inside mount).2

theorem crossMounts_over (attached : Attached fs t known mountpoint root room names) {v : VnodeId}
    (inside : known v) (covered : Over fs.toVfs mountpoint v) :
    ∃ fuel, Model.crossMounts t.toVfs fuel v = some root := by
  have atPoint : Model.crossMounts t.toVfs 2 mountpoint = some root := by
    rw [crossMounts_eq_chase, chase, attached.covered]
    simp only [chase, attached.rootDown]
  induction covered using Relation.ReflTransGen.head_induction_on with
  | refl => exact ⟨2, atPoint⟩
  | @head v w found _ ih =>
    by_cases here : v = mountpoint
    · exact ⟨2, here ▸ atPoint⟩
    · obtain ⟨m, mount, same⟩ := Option.map_eq_some_iff.mp found
      obtain ⟨fuel, ends⟩ := ih (same ▸ (attached.layered.mount inside mount).2)
      refine ⟨fuel + 1, ?_⟩
      rw [crossMounts_eq_chase] at ends ⊢
      rw [chase, attached.down inside here, found]
      exact ends

theorem ends_iff (attached : Attached fs t known mountpoint root room names) {v x : VnodeId}
    (inside : known v) : (∃ fuel, Model.crossMounts t.toVfs fuel v = some x) ↔
      ∃ place, Ends fs.toVfs mountpoint v place ∧ Stands t known root place x := by
  constructor
  · rintro ⟨fuel, crosses⟩
    by_cases covered : Over fs.toVfs mountpoint v
    · obtain ⟨n, ends⟩ := attached.crossMounts_over inside covered
      have here := crossMounts_mono t.toVfs (Nat.le_max_left fuel n) crosses
      have there := crossMounts_mono t.toVfs (Nat.le_max_right fuel n) ends
      obtain rfl := Option.some.inj (here.symm.trans there)
      exact ⟨.root, .under covered, .root⟩
    · rw [attached.crossMounts_clear inside covered] at crosses
      exact ⟨.outside x, .past covered crosses,
        .outside (attached.layered.closed.crossMounts inside crosses)⟩
  · rintro ⟨place, ends, stands⟩
    cases ends with
    | under covered =>
      cases stands with
      | root => exact attached.crossMounts_over inside covered
    | @past fuel w clear crosses =>
      cases stands with
      | outside => exact ⟨fuel, (attached.crossMounts_clear inside clear fuel).trans crosses⟩

theorem above_eq (attached : Attached fs t known mountpoint root room names)
    {v : VnodeId} (inside : known v) :
    above t.toVfs v = above fs.toVfs v := by
  rw [above, above, attached.top, attached.parent inside]

/-- From a vnode that was there, a step lands where it landed. -/
theorem lands_iff (attached : Attached fs t known mountpoint root room names) {v w : VnodeId}
    {component : List UInt8} (inside : known v) : Lands t.toVfs v component w ↔
    Lands fs.toVfs v component w := by
  constructor
  · intro lands
    cases lands with
    | child plain driver found =>
      rw [attached.vOps inside] at driver
      rw [attached.lookup inside] at found
      exact .child plain driver found
    | up notRoot pops =>
      rw [attached.popMounts inside] at pops
      rw [attached.above_eq (attached.layered.closed.popMounts inside pops)]
      rw [attached.top] at notRoot
      exact .up notRoot pops
  · intro lands
    cases lands with
    | child plain driver found =>
      rw [← attached.vOps inside] at driver
      rw [← attached.lookup inside] at found
      exact .child plain driver found
    | up notRoot pops =>
      rw [← attached.above_eq (attached.layered.closed.popMounts inside pops)]
      rw [← attached.popMounts inside] at pops
      rw [← attached.top] at notRoot
      exact .up notRoot pops

theorem root_notTop (attached : Attached fs t known mountpoint root room names) :
    root ≠ t.root := by
  rw [attached.top]
  rintro rfl
  exact attached.fresh attached.layered.root.2

theorem popMounts_root (attached : Attached fs t known mountpoint root room names)
    (recorded : room) (fuel : ℕ) :
    Model.popMounts t.toVfs (fuel + 1) root = Model.popMounts fs.toVfs fuel mountpoint := by
  rw [← attached.popMounts attached.point, popMounts_eq_chase, popMounts_eq_chase, chase,
    attached.rootRecorded recorded]

/-- Out of the root of the new mount. -/
theorem lands_up_iff (attached : Attached fs t known mountpoint root room names)
    (recorded : room) {w : VnodeId} :
    Lands t.toVfs root [dot, dot] w ↔ mountpoint ≠ fs.root ∧
    Lands fs.toVfs mountpoint [dot, dot] w := by
  constructor
  · intro lands
    cases lands with
    | child plain => exact absurd rfl plain.2
    | @up fuel popped _ pops =>
      cases fuel with
      | zero => cases pops
      | succ fuel =>
        rw [attached.popMounts_root recorded] at pops
        have notTop : mountpoint ≠ fs.root := by
          rintro rfl
          have zero := attached.layered.rootMount
          have endless := attached.layered.popMounts_endless zero.2.2
            (by rw [zero.2.1, attached.layered.root_eq]) fuel
          rw [zero.2.1, ← attached.layered.root_eq, pops] at endless
          simp at endless
        rw [attached.above_eq (attached.layered.closed.popMounts attached.point pops)]
        exact ⟨notTop, .up notTop pops⟩
  · rintro ⟨-, lands⟩
    cases lands with
    | child plain => exact absurd rfl plain.2
    | @up fuel popped _ pops =>
      rw [← attached.above_eq (attached.layered.closed.popMounts attached.point pops)]
      exact .up attached.root_notTop ((attached.popMounts_root recorded fuel).trans pops)

/-- What is on no list of mounts is where the upward loop ends. -/
theorem popMounts_stays {v : VnodeId} (up : mountpointOf t.toVfs v = none) (fuel : ℕ) :
    Model.popMounts t.toVfs (fuel + 1) v = some v := by
  rw [popMounts_eq_chase, chase, up]

/-- `..` leads from the files, and from a root that is not in the table, to the root. -/
theorem lands_root (attached : Attached fs t known mountpoint root room names) {v w : VnodeId}
    (up : mountpointOf t.toVfs v = none) (notTop : v ≠ t.root)
    (parent : (t.vnodes v).parent = some root) :
    Lands t.toVfs v [dot, dot] w ↔ w = root := by
  have goes : above t.toVfs v = root := by
    rw [above, if_pos notTop, parent, Option.getD_some]
  constructor
  · intro lands
    cases lands with
    | child plain => exact absurd rfl plain.2
    | @up fuel popped _ pops =>
      cases fuel with
      | zero => cases pops
      | succ fuel =>
        rw [popMounts_stays up] at pops
        obtain rfl := Option.some.inj pops
        exact goes
  · rintro rfl
    have lands := Lands.up notTop (popMounts_stays up 0)
    rwa [goes] at lands

/-- Nothing is mounted here. -/
theorem crosses_iff {v x : VnodeId} (down : mountedOn t.toVfs v = none) :
    (∃ fuel, Model.crossMounts t.toVfs fuel v = some x) ↔ x = v := by
  constructor
  · rintro ⟨fuel, crosses⟩
    cases fuel with
    | zero => cases crosses
    | succ fuel =>
      rw [crossMounts_eq_chase, chase, down] at crosses
      exact (Option.some.inj crosses).symm
  · rintro rfl
    exact ⟨1, by rw [crossMounts_eq_chase, chase, down]⟩

end Attached

/-! ## Steps and walks -/

section

variable {fs t : VfsHeap} {known : VnodeId → Prop} {mountpoint root : VnodeId} {room : Prop}
  {names : List (List UInt8)}

/-- Where the description ends a step, the walk across mounts ends it. -/
theorem Ends.stands (attached : Attached fs t known mountpoint root room names) {u : VnodeId}
    {place : Place} (inside : known u) (ends : Ends fs.toVfs mountpoint u place) :
    ∃ w, Stands t known root place w ∧ ∃ fuel, Model.crossMounts t.toVfs fuel u = some w := by
  obtain ⟨w, stands⟩ : ∃ w, Stands t known root place w := by
    cases ends with
    | under => exact ⟨root, .root⟩
    | past _ before => exact ⟨_, .outside (attached.layered.closed.crossMounts inside before)⟩
  exact ⟨w, stands, (attached.ends_iff inside).mpr ⟨place, ends, stands⟩⟩

/-- A step of the description is a step of the walk. -/
theorem Moves.walks (attached : Attached fs t known mountpoint root room names) {place next : Place}
    {v : VnodeId} {component : List UInt8} (cString : (0 : UInt8) ∉ component)
    (short : component.length < maxName) (stands : Stands t known root place v)
    (moves : Moves fs.toVfs mountpoint room names place component next) :
    ∃ w, Stands t known root next w ∧
      ∃ fuel, lookupComponent t.toVfs fuel v component = some (.found w) := by
  simp only [lookupComponent_found_iff cString]
  cases moves with
  | stay => exact ⟨v, stands, .inl ⟨rfl, rfl⟩⟩
  | top =>
    cases stands with
    | outside inside => exact ⟨fs.root, .outside inside, .inr (.inl ⟨rfl, attached.top.symm, rfl⟩)⟩
  | @step v' u _ _ lands ends =>
    cases stands with
    | outside inside =>
      have insideU := lands.known attached.layered.closed inside short
      have new := (attached.lands_iff inside).mpr lands
      obtain ⟨w, stands', crosses⟩ := ends.stands attached insideU
      exact ⟨w, stands', .inr (.inr ⟨u, new, crosses⟩)⟩
  | @out u _ recorded notTop lands ends =>
    cases stands with
    | root =>
      have insideU := lands.known attached.layered.closed attached.point short
      have new := (attached.lands_up_iff recorded).mpr ⟨notTop, lands⟩
      obtain ⟨w, stands', crosses⟩ := ends.stands attached insideU
      exact ⟨w, stands', .inr (.inr ⟨u, new, crosses⟩)⟩
  | stuck unrecorded =>
    cases stands with
    | root =>
      have lands := (attached.lands_root (attached.rootUnrecorded unrecorded)
        attached.root_notTop attached.rootParent).mpr rfl
      exact ⟨root, .root,
        .inr (.inr ⟨root, lands, (Attached.crosses_iff attached.rootDown).mpr rfl⟩)⟩
  | enter plain member =>
    cases stands with
    | root =>
      obtain ⟨f, found⟩ := (attached.rootNames cString).mpr member
      obtain ⟨ops, driver⟩ := attached.rootOps
      have new := attached.newFile found
      exact ⟨f, .file new,
        .inr (.inr ⟨f, .child plain driver found, (Attached.crosses_iff new.down).mpr rfl⟩)⟩
  | leave =>
    cases stands with
    | file new =>
      have lands := (attached.lands_root new.up new.notTop new.parent).mpr rfl
      exact ⟨root, .root,
        .inr (.inr ⟨root, lands, (Attached.crosses_iff attached.rootDown).mpr rfl⟩)⟩

/-- A step of the walk is described. -/
theorem Stands.moves (attached : Attached fs t known mountpoint root room names) {place : Place}
    {v w : VnodeId} {component : List UInt8} (cString : (0 : UInt8) ∉ component)
    (short : component.length < maxName) (stands : Stands t known root place v)
    (step : ∃ fuel, lookupComponent t.toVfs fuel v component = some (.found w)) :
    ∃ next, Moves fs.toVfs mountpoint room names place component next ∧
      Stands t known root next w := by
  obtain ⟨rfl, rfl⟩ | ⟨rfl, atTop, rfl⟩ | ⟨u, lands, crosses⟩ :=
    (lookupComponent_found_iff cString).mp step
  · exact ⟨place, .stay place, stands⟩
  · cases stands with
    | outside inside =>
      rw [atTop, attached.top] at inside ⊢
      exact ⟨.outside fs.root, .top, .outside inside⟩
    | root => exact absurd atTop attached.root_notTop
    | file new => exact absurd atTop new.notTop
  · cases stands with
    | outside inside =>
      have before := (attached.lands_iff inside).mp lands
      obtain ⟨next, ends, stands⟩ :=
        (attached.ends_iff (before.known attached.layered.closed inside short)).mp crosses
      exact ⟨next, .step before ends, stands⟩
    | root =>
      by_cases up : component = [dot, dot]
      · subst up
        by_cases recorded : room
        · obtain ⟨notTop, before⟩ := (attached.lands_up_iff recorded).mp lands
          obtain ⟨next, ends, stands⟩ :=
            (attached.ends_iff (before.known attached.layered.closed attached.point short)).mp
              crosses
          exact ⟨next, .out recorded notTop before ends, stands⟩
        · obtain rfl :=
            (attached.lands_root (attached.rootUnrecorded recorded)
              attached.root_notTop attached.rootParent).mp lands
          obtain rfl := (Attached.crosses_iff attached.rootDown).mp crosses
          exact ⟨.root, .stuck recorded, .root⟩
      · have found := lands.of_name up
        have new := attached.newFile found
        obtain rfl := (Attached.crosses_iff new.down).mp crosses
        have notDot : component ≠ [dot] := by
          rintro rfl
          cases lands with
          | child plain => exact plain.1 rfl
        exact ⟨.file, .enter ⟨notDot, up⟩ ((attached.rootNames cString).mp ⟨_, found⟩), .file new⟩
    | file new =>
      by_cases up : component = [dot, dot]
      · subst up
        obtain rfl := (attached.lands_root new.up new.notTop new.parent).mp lands
        obtain rfl := (Attached.crosses_iff attached.rootDown).mp crosses
        exact ⟨.root, .leave, .root⟩
      · exact absurd (lands.of_name up) new.noEntry

end

theorem walk_mono (fs : Vfs) {fuel more : ℕ} (le : fuel ≤ more) {components : List (List UInt8)}
    {v : VnodeId} {outcome : Outcome} (ends : Lookup.walk fs fuel components v = some outcome) :
    Lookup.walk fs more components v = some outcome := by
  induction components generalizing v with
  | nil => exact ends
  | cons component rest ih =>
    obtain ⟨middle, first, continued⟩ := Option.bind_eq_some_iff.mp ends
    refine Option.bind_eq_some_iff.mpr ⟨middle, lookupComponent_mono fs le first, ?_⟩
    cases middle with
    | error code => exact continued
    | found next => exact ih continued

theorem walk_cons_iff {fs : Vfs} {component : List UInt8} {rest : List (List UInt8)}
    {v x : VnodeId} : (∃ fuel, Lookup.walk fs fuel (component :: rest) v = some (.found x)) ↔
      ∃ w, (∃ fuel, lookupComponent fs fuel v component = some (.found w)) ∧
        ∃ fuel, Lookup.walk fs fuel rest w = some (.found x) := by
  constructor
  · rintro ⟨fuel, ends⟩
    obtain ⟨middle, first, continued⟩ := Option.bind_eq_some_iff.mp ends
    cases middle with
    | error code => simp [continueWith] at continued
    | found w => exact ⟨w, ⟨fuel, first⟩, fuel, continued⟩
  · rintro ⟨w, ⟨n, first⟩, k, rest⟩
    refine ⟨max n k, Option.bind_eq_some_iff.mpr ⟨.found w, ?_, ?_⟩⟩
    · exact lookupComponent_mono fs (Nat.le_max_left n k) first
    · exact walk_mono fs (Nat.le_max_right n k) rest

theorem components_cString {path component : List UInt8} (cString : (0 : UInt8) ∉ path)
    (member : component ∈ components path) : (0 : UInt8) ∉ component := by
  fun_induction components path with
  | case1 => exact absurd member List.not_mem_nil
  | case2 => exact absurd member List.not_mem_nil
  | case3 c rest notSlash ih =>
    obtain ⟨head, tail⟩ := scanComponent_subset [] (c :: rest)
    obtain rfl | later := List.mem_cons.mp member
    · exact fun zero => cString (by simpa using head zero)
    · exact ih (fun zero => cString (tail (skipSlashes_subset _ zero))) later

theorem returns_iff_walk {fs : Vfs} {base v : VnodeId} {path : List UInt8} (nonempty : path ≠ []) :
    Returns fs base path (.found v) ↔
      ∃ fuel, Lookup.walk fs fuel (components (skipSlashes path)) (start fs base path) =
      some (.found v) := by
  simp only [Returns, vfsLookupFrom_eq_walk fs _ base nonempty]

section

variable {fs t : VfsHeap} {known : VnodeId → Prop} {mountpoint root : VnodeId} {room : Prop}
  {names : List (List UInt8)}

private theorem leads_iff (attached : Attached fs t known mountpoint root room names)
    {components : List (List UInt8)} (cString : ∀ component ∈ components, (0 : UInt8) ∉ component)
    (short : ∀ component ∈ components, component.length < maxName) {place : Place} {v : VnodeId}
    (stands : Stands t known root place v) :
    (∃ fuel, Lookup.walk t.toVfs fuel components v = some (.found root)) ↔
      Leads fs.toVfs mountpoint room names place components .root := by
  induction components generalizing place v with
  | nil =>
    constructor
    · rintro ⟨fuel, ends⟩
      obtain rfl := Outcome.found.inj (Option.some.inj ends)
      cases stands with
      | outside inside => exact absurd inside attached.fresh
      | root => exact .nil .root
      | file new => exact absurd rfl new.notRoot
    · intro leads
      cases leads with
      | nil =>
        cases stands with
        | root => exact ⟨0, rfl⟩
  | cons component rest ih =>
    obtain ⟨cHere, cLater⟩ := List.forall_mem_cons.mp cString
    obtain ⟨sHere, sLater⟩ := List.forall_mem_cons.mp short
    rw [walk_cons_iff]
    constructor
    · rintro ⟨w, step, others⟩
      obtain ⟨next, moves, stands'⟩ := stands.moves attached cHere sHere step
      exact .cons moves ((ih cLater sLater stands').mp others)
    · intro leads
      cases leads with
      | cons moves others =>
        obtain ⟨w, stands', step⟩ := moves.walks attached cHere sHere stands
        exact ⟨w, step, (ih cLater sLater stands').mpr others⟩

/-- A walk that does not come to the mountpoint is the walk it was. -/
private theorem walk_clear (attached : Attached fs t known mountpoint root room names)
    {components : List (List UInt8)} (cString : ∀ component ∈ components, (0 : UInt8) ∉ component)
    (short : ∀ component ∈ components, component.length < maxName) {v x : VnodeId}
    (inside : known v) (clear : ¬ Enters fs.toVfs mountpoint v components)
    (ends : ∃ fuel, Lookup.walk fs.toVfs fuel components v = some (.found x)) :
    ∃ fuel, Lookup.walk t.toVfs fuel components v = some (.found x) := by
  induction components generalizing v with
  | nil =>
    obtain ⟨fuel, ends⟩ := ends
    exact ⟨fuel, ends⟩
  | cons component rest ih =>
    obtain ⟨cHere, cLater⟩ := List.forall_mem_cons.mp cString
    obtain ⟨sHere, sLater⟩ := List.forall_mem_cons.mp short
    rw [walk_cons_iff] at ends ⊢
    obtain ⟨w, ⟨fuel, step⟩, others⟩ := ends
    have insideW : known w := attached.layered.closed.lookupComponent inside sHere step
    refine ⟨w, ?_, ih cLater sLater insideW (fun enters => clear (.later step enters)) others⟩
    rw [lookupComponent_found_iff cHere]
    obtain same | ⟨up, atTop, same⟩ | ⟨u, lands, crosses⟩ :=
      (lookupComponent_found_iff cHere).mp ⟨fuel, step⟩
    · exact .inl same
    · exact .inr (.inl ⟨up, atTop.trans attached.top.symm, same⟩)
    · have insideU := lands.known attached.layered.closed inside sHere
      obtain ⟨n, crosses⟩ := crosses
      have past : ¬ Over fs.toVfs mountpoint u := fun covered => clear (.here lands covered)
      exact .inr (.inr ⟨u, (attached.lands_iff inside).mpr lands, n,
        (attached.crossMounts_clear insideU past n).trans crosses⟩)

end

/-! ## Mounting -/

/-- What a successful `vfs_mount` does. -/
theorem vfsMount_made {fs t : VfsHeap} {fuel : ℕ} {base mountpoint : VnodeId}
    {target filesystem name : List UInt8} {driver : VnodeOps} {cpio : List CpioFile}
    {grants : Grants} (leadsTo : Returns fs.toVfs base target (.found mountpoint))
    (registered : (registeredFilesystems.find? fun driver => strcmp driver.1 filesystem = 0) = some
      (name, driver)) (result : vfsMount fs fuel base target filesystem cpio grants = some (0, t)) :
    ∃ root made, driver.setupMount { fs with mountCount := fs.mountCount + 1 } cpio grants =
      some (.found root, made) ∧
      t = made.link fs.mountCount root mountpoint := by
  rw [vfsMount] at result
  obtain ⟨outcome, lookup, result⟩ := Option.bind_eq_some_iff.mp result
  obtain rfl := Returns.unique ⟨fuel, lookup⟩ leadsTo
  simp only [registered] at result
  split at result
  · simp at result
  obtain ⟨⟨setup, made⟩, ran, linked⟩ := Option.map_eq_some_iff.mp result
  cases setup with
  | error code =>
    obtain ⟨zero, -⟩ := Prod.mk.inj linked
    have minusOne := (setupMount_error ran).1
    omega
  | found root =>
    obtain ⟨-, same⟩ := Prod.mk.inj linked
    exact ⟨root, made, ran, same.symm⟩

/-- In every state that calls of any tasks lead to: after a successful mount the target leads to the
new root, and every path that does not come to the mountpoint leads where it led, exactly when the
walk along the target, told in the tree before the mount, ends at the new root. -/
theorem mount_visible_iff {memory : Vfs} {events : List Action} {s : Session}
    (run : System.Path sessions (boot memory) events s) (task : ℕ) {fuel : ℕ}
    {target filesystem name : List UInt8} {driver : VnodeOps} {cpio : List CpioFile}
    {grants : Grants} {mountpoint : VnodeId} {t : VfsHeap} (cString : (0 : UInt8) ∉ target)
    (leadsTo : Returns s.heap.toVfs (s.cwd task) target (.found mountpoint))
    (registered : (registeredFilesystems.find? fun driver => strcmp driver.1 filesystem = 0) =
      some (name, driver))
    (result : vfsMount s.heap fuel (s.cwd task) target filesystem cpio grants = some (0, t)) :
    (Returns t.toVfs (s.cwd task) target (.found (t.mounts s.heap.mountCount).root) ∧
      ∀ base, Base s base → ∀ path v, (0 : UInt8) ∉ path →
        ¬ Enters s.heap.toVfs mountpoint (start s.heap.toVfs base path)
        (components (skipSlashes path)) →
        Returns s.heap.toVfs base path (.found v) → Returns t.toVfs base path (.found v)) ↔
      Leads s.heap.toVfs mountpoint (s.heap.activeMounts.length < maxMounts)
      (driverNames cpio driver)
        (.outside (start s.heap.toVfs (s.cwd task) target))
        (components (skipSlashes target)) .root := by
  obtain ⟨known, layered, directories⟩ :=
    run.invariant (P := Ordered) (fun ordered step => ordered.step step) (boot_ordered memory)
  obtain ⟨root, made, setup, rfl⟩ := vfsMount_made leadsTo registered result
  have point : known mountpoint := by
    obtain ⟨n, lookup⟩ := leadsTo
    exact layered.closed.vfsLookupFrom (directories task) lookup
  have attached := mounted_attached layered point (setupMount_made setup) (setupMount_listed setup)
  have newMount := (Entered.of_setup mountpoint (setupMount_made setup)).newMount
  have start_known : ∀ {base}, known base → ∀ path, known (start s.heap.toVfs base path) := by
    intro base inside path
    rw [start]
    split
    · exact layered.root.2
    · exact inside
  have same_start : ∀ base path,
      start (made.link s.heap.mountCount root mountpoint).toVfs base path =
      start s.heap.toVfs base path := by
    intro base path
    rw [start, start, attached.top]
  have nonempty : ∀ {fs : Vfs} {base v path}, Returns fs base path (.found v) → path ≠ [] := by
    rintro fs base v path ⟨n, lookup⟩ rfl
    simp [vfsLookupFrom] at lookup
  have zeroFree : ∀ {path : List UInt8}, (0 : UInt8) ∉ path →
      ∀ component ∈ components (skipSlashes path), (0 : UInt8) ∉ component :=
    fun zero component member =>
      components_cString (fun inside => zero (skipSlashes_subset _ inside)) member
  rw [newMount, returns_iff_walk (nonempty leadsTo), same_start,
    leads_iff attached (zeroFree cString) (fun _ member => components_short member)
      (.outside (start_known (directories task) target))]
  apply and_iff_left
  intro base isBase path v zero clear leadsTo
  have nonemptyPath := nonempty leadsTo
  rw [returns_iff_walk nonemptyPath] at leadsTo ⊢
  rw [same_start]
  exact walk_clear attached (zeroFree zero) (fun _ member => components_short member)
    (start_known (isBase.known layered directories) path) clear leadsTo

/-- `mount tmpfs a` after `mkdir a` is visible at `a`. -/
theorem mount_visible_a :
    ∃ t, vfsMount withA 10 0 [97] [116, 109, 112, 102, 115]
      [] ⟨true, true, true, true, true⟩ = some (0, t) ∧
      Returns t.toVfs 0 [97] (.found (t.mounts withA.mountCount).root) := by
  have lookup : vfsLookupFrom withA.toVfs 10 0 [97] = some (.found 1) := by decide +kernel
  have result : vfsMount withA 10 0 [97] [116, 109, 112, 102, 115] []
      ⟨true, true, true, true, true⟩ =
      some (0, (tmpfsSetupMount { withA with mountCount := withA.mountCount + 1 }
        ⟨true, true, true, true, true⟩).2.link
        withA.mountCount 2 1) := by
    simp only [vfsMount, lookup]
    rfl
  have path : components (skipSlashes [97]) = [[97]] := by decide +kernel
  have begins : start withA.toVfs 0 [97] = 0 := rfl
  have lands : Lands withA.toVfs 0 [97] 1 :=
    .child (by decide) (rfl : (withA.vnodes 0).vOps = some .tmpfs) (by decide +kernel)
  refine ⟨_, result, ((mount_visible_iff makeA_run 0 (by decide) ⟨10, lookup⟩ rfl result).mpr ?_).1⟩
  rw [path, begins]
  exact .cons (.step lands (.under .refl)) (.nil .root)

/-- A mount on `/` is not visible at `/`. -/
theorem mount_hidden_root :
    ∃ t, vfsMount (boot smallTree).heap 1 0 [slash] [116, 109, 112, 102, 115]
      [] ⟨true, true, true, true, true⟩ =
        some (0, t) ∧ (t.mounts 1).root = 1 ∧ Returns t.toVfs 0 [slash] (.found 0) ∧
      ¬ Returns t.toVfs 0 [slash] (.found (t.mounts 1).root) := by
  have lookup : vfsLookupFrom (boot smallTree).heap.toVfs 1 0 [slash] =
      some (.found 0) := by decide +kernel
  have result : vfsMount (boot smallTree).heap 1 0 [slash] [116, 109, 112, 102, 115] []
      ⟨true, true, true, true, true⟩ =
      some (0, (tmpfsSetupMount { (boot smallTree).heap with mountCount := 2 }
        ⟨true, true, true, true, true⟩).2.link
        1 1 0) := by
    simp only [vfsMount, lookup]
    rfl
  have stays : Returns ((tmpfsSetupMount { (boot smallTree).heap with mountCount := 2 }
      ⟨true, true, true, true, true⟩).2.link
      1 1 0).toVfs 0 [slash] (.found 0) := ⟨1, by decide +kernel⟩
  refine ⟨_, result, rfl, stays, fun visible => ?_⟩
  exact absurd (Returns.unique stays visible) (by decide)

end OscKernel.Soundness.MountVisibility
