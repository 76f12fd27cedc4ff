import Mathlib.Data.List.FinRange
import OscKernel.Model.Ramfs
import OscKernel.Soundness.MountVisibility

/-! # The directory of a mounted RAM disk

`ramfs_setup_mount` numbers the vnodes of its files one after the other and puts them in the first
slots of its root directory. A lookup there finds the first file with the name, as far as names are
kept. A walk from the root stands at the root or at one of the files until it goes up from the root.
-/

namespace OscKernel.Soundness.RamfsDirectory

open OscKernel.Lib OscKernel.Model OscKernel.Soundness.TreeUpdates
  OscKernel.Soundness.MountVisibility

/-! ## The directory -/

/-- The node of a file. -/
def ramfsNode (file : CpioFile) : FsNode where
  name := file.name.take (maxName - 1) ++
    List.replicate (maxName - min file.name.length (maxName - 1)) 0
  type := .file
  size := file.size
  data := file.data
  entries _ := none

/-- The root directory, with the files in its first slots. -/
structure Filled (t : VfsHeap) (root : VnodeId) (rootNode : NodeId)
    (files : List CpioFile) : Prop where
  rootVnode : t.vnodes root = ⟨none, some .ramfs, some .ramfs, some root, .dir, rootNode⟩
  isDir : (t.nodes rootNode).type = .dir
  entries : ∀ slot : Fin maxEntries,
    (t.nodes rootNode).entries slot = if slot.val < files.length then some (root + 1 + slot)
    else none
  fileVnode : ∀ k < files.length,
    t.vnodes (root + 1 + k) = ⟨none, some .ramfs, some .ramfs, some root, .file, rootNode + 1 + k⟩
  fileNode : ∀ k (inside : k < files.length), t.nodes (rootNode + 1 + k) = ramfsNode files[k]
  vnodeCount : t.vnodeCount = root + 1 + files.length
  nodeCount : t.nodeCount = rootNode + 1 + files.length
  fits : files.length ≤ maxEntries

namespace Filled

variable {fs t : VfsHeap} {root : VnodeId} {rootNode : NodeId} {files : List CpioFile}

theorem empty (fs : VfsHeap) {node : FsNode} (isDir : node.type = .dir)
    (empty : node.entries = fun _ => none) :
    Filled (withRoot fs .ramfs (some .ramfs) node) fs.vnodeCount fs.nodeCount [] := by
  constructor
  · simp [withRoot, VfsHeap.setInternal, VfsHeap.addNode, VfsHeap.addVnode, Model.rootVnode]
  · simpa [withRoot, VfsHeap.setInternal, VfsHeap.addNode, VfsHeap.addVnode] using isDir
  · intro slot
    simp [withRoot, VfsHeap.setInternal, VfsHeap.addNode, VfsHeap.addVnode, empty]
  · exact fun k inside => absurd inside (Nat.not_lt_zero k)
  · exact fun k inside => absurd inside (Nat.not_lt_zero k)
  · rfl
  · rfl
  · exact Nat.zero_le _

/-- One more file in the next slot. -/
theorem addFile (filled : Filled t root rootNode files)
    (room : files.length < maxEntries) (file : CpioFile) :
    Filled (Model.addFile t root rootNode ⟨files.length, room⟩ .ramfs .ramfs (ramfsNode file))
      root rootNode
      (files ++ [file]) := by
  have vnodes := filled.vnodeCount
  have nodes := filled.nodeCount
  have one : (files ++ [file]).length = files.length + 1 := by
    rw [List.length_append, List.length_singleton]
  have rootOld : rootNode ≠ t.nodeCount := Nat.ne_of_lt (by omega)
  constructor
  · rw [← filled.rootVnode]
    exact Function.update_of_ne (Nat.ne_of_lt (by omega)) _ _
  · simp only [Model.addFile, VfsHeap.setEntry, VfsHeap.addNode, VfsHeap.addVnode,
      Function.update_self, Function.update_of_ne rootOld]
    exact filled.isDir
  · intro slot
    simp only [Model.addFile, VfsHeap.setEntry, VfsHeap.addNode, VfsHeap.addVnode,
      Function.update_self, Function.update_of_ne rootOld, one]
    rcases eq_or_ne slot ⟨files.length, room⟩ with rfl | other
    · rw [Function.update_self, if_pos (Nat.lt_succ_self _), vnodes]
    · have different : slot.val ≠ files.length := fun same => other (Fin.ext same)
      rw [Function.update_of_ne other, filled.entries]
      exact if_congr (by omega) rfl rfl
  · intro k inside
    rw [one] at inside
    rcases Nat.lt_succ_iff_lt_or_eq.mp inside with old | rfl
    · rw [← filled.fileVnode k old]
      exact Function.update_of_ne (Nat.ne_of_lt (by omega)) _ _
    · rw [← vnodes, ← nodes]
      exact Function.update_self _ _ _
  · intro k inside
    have within := one ▸ inside
    have notRoot : rootNode + 1 + k ≠ rootNode := Nat.ne_of_gt (by omega)
    simp only [Model.addFile, VfsHeap.setEntry, VfsHeap.addNode, VfsHeap.addVnode,
      Function.update_of_ne notRoot]
    rcases Nat.lt_succ_iff_lt_or_eq.mp within with old | rfl
    · rw [Function.update_of_ne (Nat.ne_of_lt (by omega)), filled.fileNode k old,
        List.getElem_append_left old]
    · rw [← nodes, Function.update_self, List.getElem_concat_length rfl]
  · rw [one]
    exact congrArg (· + 1) vnodes
  · rw [one]
    exact congrArg (· + 1) nodes
  · rw [one]
    exact room

/-- The loop over the RAM disk fills the slots that are left. -/
theorem ramfsFiles (filled : Filled t root rootNode files) (cpio : List CpioFile) :
    Filled (Model.ramfsFiles t root rootNode files.length cpio) root rootNode
      (files ++ storedFiles cpio (maxEntries - files.length)) := by
  induction cpio generalizing t files with
  | nil =>
    rw [storedFiles, List.filter_nil, List.take_nil, List.append_nil]
    exact filled
  | cons file rest ih =>
    rw [Model.ramfsFiles]
    split
    · rename_i room
      split
      · rename_i isDot
        rw [storedFiles_skipped (by rw [isDot]; rfl)]
        exact ih filled
      · rename_i notDot
        split
        · rename_i granted
          have others := ih (filled.addFile room file)
          rw [List.length_append, List.length_singleton, List.append_assoc,
            List.singleton_append] at others
          obtain ⟨left, more⟩ : ∃ left, maxEntries - files.length = left + 1 :=
            ⟨maxEntries - files.length - 1, by omega⟩
          rw [show maxEntries - (files.length + 1) = left by omega] at others
          rw [more, storedFiles_kept notDot granted]
          exact others
        · rename_i refused
          rw [storedFiles_skipped
            (by rw [Bool.not_eq_true] at refused; rw [refused, Bool.and_false])]
          exact ih filled
    · rename_i full
      rw [storedFiles, show maxEntries - files.length = 0 by omega, List.take_zero, List.append_nil]
      exact filled

/-- The loop starts from an empty directory. -/
theorem setupMount {cpio : List CpioFile} {grants : Grants}
    (setup : VnodeOps.ramfs.setupMount fs cpio grants = some (.found root, t)) :
    ∃ rootNode, Filled t root rootNode (storedFiles cpio maxEntries) := by
  obtain ⟨rfl, made⟩ := setupMount_cases setup
  cases made with
  | ramfs isDir isEmpty => exact ⟨fs.nodeCount, (empty fs isDir isEmpty).ramfsFiles cpio⟩

end Filled

/-! ## Lookups and reads in it -/

/-- The slot of the first file with the name. -/
def firstNamed (names : List (List UInt8)) (component : List UInt8) : Option ℕ :=
  (List.range names.length).find? fun k => names[k]? = some component

private theorem firstNamed_bound {names : List (List UInt8)} {component : List UInt8} {k : ℕ}
    (first : firstNamed names component = some k) : k < names.length :=
  List.mem_range.mp (List.mem_of_find?_eq_some first)

/-- What a lookup returns for a slot. -/
def slotOutcome (root : VnodeId) : Option ℕ → Outcome
  | some k => .found (root + 1 + k)
  | none => .error (-1)

/-- The directory as it is seen in the mounted tree. -/
structure Shown (t : VfsHeap) (root : VnodeId) (files : List CpioFile) : Prop where
  vOps : (t.vnodes root).vOps = some .ramfs
  fOps : (t.vnodes root).fOps = some .ramfs
  isDir : (nodeOf t.toVfs root).type = .dir
  lookup : ∀ component, (0 : UInt8) ∉ component →
    driverLookup t.toVfs root component =
    slotOutcome root (firstNamed (files.map storedName) component)
  fileOps : ∀ k < files.length, (t.vnodes (root + 1 + k)).fOps = some .ramfs
  fileNode : ∀ k (inside : k < files.length), nodeOf t.toVfs (root + 1 + k) = ramfsNode files[k]

private theorem entries_range {α : Type} (f : ℕ → α) {n m : ℕ} (fits : n ≤ m) :
    (List.finRange m).filterMap (fun slot : Fin m => if slot.val < n then some (f slot) else none) =
      (List.range n).map f := by
  have onValues : (fun slot : Fin m => if slot.val < n then some (f slot) else none) =
      (fun k => if k < n then some (f k) else none) ∘ Fin.val := rfl
  obtain ⟨more, rfl⟩ := Nat.exists_eq_add_of_le fits
  rw [onValues, ← List.filterMap_map, List.map_coe_finRange_eq_range,
    List.range_add, List.filterMap_append]
  have first : (List.range n).filterMap (fun k => if k < n then some (f k) else none) =
      (List.range n).map f := by
    rw [← List.filterMap_eq_map]
    exact List.filterMap_congr fun k inside => if_pos (List.mem_range.mp inside)
  have others : ((List.range more).map (n + ·)).filterMap (fun k => if k < n then some (f k)
      else none) = [] := by
    rw [List.filterMap_eq_nil_iff]
    intro k member
    obtain ⟨i, -, rfl⟩ := List.mem_map.mp member
    exact if_neg (Nat.not_lt.mpr (Nat.le_add_right n i))
  rw [first, others, List.append_nil]

/-- Hanging the filesystem on an older vnode changes nothing of it. -/
theorem Filled.link {made : VfsHeap} {root mountpoint : VnodeId} {rootNode : NodeId}
    {files : List CpioFile} (filled : Filled made root rootNode files)
    (older : mountpoint < root) (mnt : MountId) :
    Shown (made.link mnt root mountpoint) root files := by
  have vnode : ∀ v, root ≤ v → (made.link mnt root mountpoint).vnodes v =
      made.vnodes v := fun v new =>
    Function.update_of_ne (Nat.ne_of_gt (Nat.lt_of_lt_of_le older new)) _ _
  have node : ∀ v, root ≤ v → nodeOf (made.link mnt root mountpoint).toVfs v =
      nodeOf made.toVfs v := fun v new => by
    rw [nodeOf, vnode v new]
    rfl
  have rootNode' : nodeOf made.toVfs root = made.nodes rootNode := by rw [nodeOf, filled.rootVnode]
  have fileNode : ∀ k (inside : k < files.length), nodeOf made.toVfs (root + 1 + k) =
      ramfsNode files[k] :=
    fun k inside => by rw [nodeOf, filled.fileVnode k inside, filled.fileNode k inside]
  have above : ∀ k, root ≤ root + 1 + k :=
    fun k => (Nat.le_succ root).trans (Nat.le_add_right (root + 1) k)
  refine ⟨by rw [vnode root (le_refl _), filled.rootVnode], by rw [vnode root (le_refl _),
    filled.rootVnode], by rw [node root (le_refl _), rootNode', filled.isDir],
    fun component cString => ?_, fun k inside => by rw [vnode _ (above k),
    filled.fileVnode k inside], fun k inside => by rw [node _ (above k), fileNode k inside]⟩
  have isDir : (nodeOf (made.link mnt root mountpoint).toVfs root).type = .dir := by
    rw [node root (le_refl _), rootNode', filled.isDir]
  have children : (List.finRange maxEntries).filterMap
      (fun slot => (nodeOf (made.link mnt root mountpoint).toVfs root).entries slot) =
      (List.range files.length).map (root + 1 + ·) := by
    rw [node root (le_refl _), rootNode', funext filled.entries]
    exact entries_range (root + 1 + ·) filled.fits
  have search : ((List.range files.length).map (root + 1 + ·)).find? (fun child =>
      strcmp (nodeOf (made.link mnt root mountpoint).toVfs child).cName component = 0) =
      (firstNamed (files.map storedName) component).map (root + 1 + ·) := by
    rw [List.find?_map, firstNamed, List.length_map]
    congr 1
    apply List.find?_congr
    intro k member
    have inside := List.mem_range.mp member
    have name : (ramfsNode files[k]).cName = storedName files[k] := cName_stored files[k]
    simp only [Function.comp_apply, node _ (above k), fileNode k inside, name, List.getElem?_map,
      List.getElem?_eq_getElem inside, Option.map_some, Option.some_inj]
    exact decide_eq_decide.mpr (strcmp_eq_zero_iff (name ▸ zero_notMem_cName _) cString)
  have outcome : driverLookup (made.link mnt root mountpoint).toVfs root component =
      ((firstNamed (files.map storedName) component).map (root + 1 + ·)).elim
      (.error (-1)) .found := by
    rw [← search, ← children, driverLookup]
    refine (if_neg (not_not.mpr isDir)).trans ?_
    split
    · rename_i found
      exact (congrArg (Option.elim · _ _) found).symm
    · rename_i missing
      exact (congrArg (Option.elim · _ _) missing).symm
  rw [outcome]
  cases firstNamed (files.map storedName) component <;> rfl

/-! ## Walks below the root -/

/-- Where a walk stands: at the root of the mount, or at the file in one of its slots. -/
inductive Spot where
  | root
  | file (slot : ℕ)
deriving DecidableEq

/-- One step that does not leave the mount. -/
def Spot.step (names : List (List UInt8)) : Spot → List UInt8 → Option Spot
  | .root, component =>
    if component = [dot] then some .root
    else if component = [dot, dot] then none
    else (firstNamed names component).map .file
  | .file slot, component =>
    if component = [dot] then some (.file slot) else if component = [dot, dot] then some .root
      else none

/-- Where the steps lead. -/
def destination (names : List (List UInt8)) : Spot → List (List UInt8) → Option Spot
  | spot, [] => some spot
  | spot, component :: rest => (spot.step names component).bind fun next =>
    destination names next rest

/-- What is still to come when the walk goes up from the root of the mount. -/
def leaves (names : List (List UInt8)) : Spot → List (List UInt8) → Option (List (List UInt8))
  | _, [] => none
  | spot, component :: rest =>
    if spot = .root ∧ component = [dot, dot] then some rest
    else (spot.step names component).bind fun next => leaves names next rest

def Spot.vnode (root : VnodeId) : Spot → VnodeId
  | .root => root
  | .file slot => root + 1 + slot

/-- The spot is there. -/
def Spot.Standing (t : VfsHeap) (root : VnodeId) : Spot → Prop
  | .root => True
  | .file slot => NewFile t root (root + 1 + slot)

/-- The slots that a walk comes to are those of the names. -/
theorem destination_bound {names components : List (List UInt8)} {spot : Spot} {slot : ℕ}
    (start : ∀ slot, spot = .file slot → slot < names.length)
    (leads : destination names spot components = some (.file slot)) : slot < names.length := by
  induction components generalizing spot with
  | nil => exact start slot (Option.some.inj leads)
  | cons component rest ih =>
    obtain ⟨next, step, others⟩ := Option.bind_eq_some_iff.mp leads
    refine ih ?_ others
    rintro k rfl
    cases spot with
    | root =>
      rw [Spot.step] at step
      split at step
      · simp at step
      split at step
      · simp at step
      obtain ⟨k', first, same⟩ := Option.map_eq_some_iff.mp step
      obtain rfl := Spot.file.inj same
      exact firstNamed_bound first
    | file slot' =>
      rw [Spot.step] at step
      split at step
      · exact start k (Option.some.inj step)
      split at step <;> simp at step

theorem leaves_subset {names components rest : List (List UInt8)} {spot : Spot}
    (left : leaves names spot components = some rest) : rest ⊆ components := by
  induction components generalizing spot with
  | nil => simp [leaves] at left
  | cons component others ih =>
    rw [leaves] at left
    split at left
    · obtain rfl := Option.some.inj left
      exact List.subset_cons_self component others
    · obtain ⟨next, -, later⟩ := Option.bind_eq_some_iff.mp left
      exact List.subset_cons_of_subset component (ih later)

theorem Spot.standing_root (t : VfsHeap) (root : VnodeId) : Spot.root.Standing t root := trivial

section Walks

variable {fs t : VfsHeap} {known : VnodeId → Prop} {mountpoint root : VnodeId}
  {room : Prop} {files : List CpioFile}

/-- A step in the mounted tree, where it is not up from the root. -/
theorem Spot.lookupComponent_iff (shown : Shown t root files)
    (attached : Attached fs t known mountpoint root room (files.map storedName)) {spot : Spot}
    (standing : spot.Standing t root) {component : List UInt8} (cString : (0 : UInt8) ∉ component)
    (inside : ¬ (spot = .root ∧ component = [dot, dot])) {w : VnodeId} :
    (∃ fuel, lookupComponent t.toVfs fuel (spot.vnode root) component = some (.found w)) ↔
      ∃ next, spot.step (files.map storedName) component = some next ∧ next.Standing t root ∧
      w = next.vnode root := by
  rw [lookupComponent_found_iff cString]
  by_cases isDot : component = [dot]
  · subst isDot
    have stays : spot.step (files.map storedName) [dot] = some spot := by cases spot <;> rfl
    rw [stays]
    constructor
    · rintro (⟨-, rfl⟩ | ⟨up, -, -⟩ | ⟨u, lands, -⟩)
      · exact ⟨spot, rfl, standing, rfl⟩
      · exact absurd up (by decide)
      · cases lands with
        | child plain => exact absurd rfl plain.1
    · rintro ⟨next, same, -, rfl⟩
      exact .inl ⟨rfl, by rw [Option.some.inj same]⟩
  · cases spot with
    | root =>
      have notUp : component ≠ [dot, dot] := fun up => inside ⟨rfl, up⟩
      have goes : Spot.root.step (files.map storedName) component =
          (firstNamed (files.map storedName) component).map .file := by
        rw [Spot.step, if_neg isDot, if_neg notUp]
      have driver := shown.lookup component cString
      rw [goes]
      constructor
      · rintro (⟨same, -⟩ | ⟨up, -, -⟩ | ⟨u, lands, crosses⟩)
        · exact absurd same isDot
        · exact absurd up notUp
        · have found := lands.of_name notUp
          have new := attached.newFile found
          obtain rfl := (Attached.crosses_iff new.down).mp crosses
          rw [Spot.vnode, driver] at found
          cases first : firstNamed (files.map storedName) component with
          | none => simp [first, slotOutcome] at found
          | some k =>
            rw [first, slotOutcome, Outcome.found.injEq] at found
            subst found
            exact ⟨.file k, rfl, new, rfl⟩
      · rintro ⟨next, same, new, rfl⟩
        obtain ⟨k, first, rfl⟩ := Option.map_eq_some_iff.mp same
        have found : driverLookup t.toVfs root component = .found (root + 1 + k) := by
          rw [driver, first, slotOutcome]
        have crosses := (Attached.crosses_iff (attached.newFile found).down).mpr rfl
        exact .inr (.inr ⟨_, .child ⟨isDot, notUp⟩ shown.vOps found, crosses⟩)
    | file slot =>
      have new : NewFile t root (root + 1 + slot) := standing
      by_cases up : component = [dot, dot]
      · subst up
        have goes : (Spot.file slot).step (files.map storedName) [dot, dot] = some .root := rfl
        rw [goes]
        constructor
        · rintro (⟨same, -⟩ | ⟨-, top, -⟩ | ⟨u, lands, crosses⟩)
          · exact absurd same isDot
          · exact absurd top new.notTop
          · obtain rfl := (attached.lands_root new.up new.notTop new.parent).mp lands
            obtain rfl := (Attached.crosses_iff attached.rootDown).mp crosses
            exact ⟨.root, rfl, trivial, rfl⟩
        · rintro ⟨next, same, -, rfl⟩
          obtain rfl := Option.some.inj same
          have lands := (attached.lands_root new.up new.notTop new.parent).mpr rfl
          exact .inr (.inr ⟨root, lands, (Attached.crosses_iff attached.rootDown).mpr rfl⟩)
      · have goes : (Spot.file slot).step (files.map storedName) component = none := by
          rw [Spot.step, if_neg isDot, if_neg up]
        rw [goes]
        constructor
        · rintro (⟨same, -⟩ | ⟨same, -, -⟩ | ⟨u, lands, -⟩)
          · exact absurd same isDot
          · exact absurd same up
          · exact absurd (lands.of_name up) new.noEntry
        · rintro ⟨next, same, -⟩
          simp at same

/-- A step stays at what is there. -/
theorem Spot.step_standing (shown : Shown t root files)
    (attached : Attached fs t known mountpoint root room (files.map storedName)) {spot next : Spot}
    (standing : spot.Standing t root) {component : List UInt8} (cString : (0 : UInt8) ∉ component)
    (step : spot.step (files.map storedName) component = some next) : next.Standing t root := by
  cases spot with
  | root =>
    rw [Spot.step] at step
    split at step
    · obtain rfl := Option.some.inj step
      exact trivial
    split at step
    · simp at step
    obtain ⟨k, first, rfl⟩ := Option.map_eq_some_iff.mp step
    have found : driverLookup t.toVfs root component = .found (root + 1 + k) := by
      rw [shown.lookup component cString, first, slotOutcome]
    exact attached.newFile found
  | file slot =>
    rw [Spot.step] at step
    split at step
    · obtain rfl := Option.some.inj step
      exact standing
    split at step
    · obtain rfl := Option.some.inj step
      exact trivial
    · simp at step

/-- A walk that stays in the mount. -/
theorem walk_destination (shown : Shown t root files)
    (attached : Attached fs t known mountpoint root room (files.map storedName))
    {components : List (List UInt8)} (cString : ∀ component ∈ components, (0 : UInt8) ∉ component)
    {spot last : Spot} (standing : spot.Standing t root)
    (leads : destination (files.map storedName) spot components = some last) :
    last.Standing t root ∧
      ∃ fuel, Lookup.walk t.toVfs fuel components (spot.vnode root) =
      some (.found (last.vnode root)) := by
  induction components generalizing spot with
  | nil =>
    obtain rfl := Option.some.inj leads
    exact ⟨standing, 0, rfl⟩
  | cons component rest ih =>
    obtain ⟨cHere, cLater⟩ := List.forall_mem_cons.mp cString
    obtain ⟨next, step, others⟩ := Option.bind_eq_some_iff.mp leads
    have inside : ¬ (spot = .root ∧ component = [dot, dot]) := by
      rintro ⟨rfl, rfl⟩
      exact absurd step (by simp [Spot.step, dot])
    have reached (new : next.Standing t root) :
        ∃ fuel, lookupComponent t.toVfs fuel (spot.vnode root) component =
        some (.found (next.vnode root)) :=
      (spot.lookupComponent_iff shown attached standing cHere inside).mpr ⟨next, step, new, rfl⟩
    have new : next.Standing t root := spot.step_standing shown attached standing cHere step
    obtain ⟨there, walks⟩ := ih cLater new others
    exact ⟨there, walk_cons_iff.mpr ⟨_, reached new, walks⟩⟩

/-- A walk that comes to an end elsewhere has left the mount. -/
theorem walk_leaves (shown : Shown t root files)
    (attached : Attached fs t known mountpoint root room (files.map storedName))
    {components : List (List UInt8)} (cString : ∀ component ∈ components, (0 : UInt8) ∉ component)
    {spot : Spot} {x : VnodeId} (standing : spot.Standing t root)
    (lost : destination (files.map storedName) spot components = none)
    (ends : ∃ fuel, Lookup.walk t.toVfs fuel components (spot.vnode root) = some (.found x)) :
    ∃ rest, leaves (files.map storedName) spot components = some rest ∧
      ∃ fuel, Lookup.walk t.toVfs fuel ([dot, dot] :: rest) root = some (.found x) := by
  induction components generalizing spot with
  | nil => exact absurd lost (Option.some_ne_none spot)
  | cons component rest ih =>
    obtain ⟨cHere, cLater⟩ := List.forall_mem_cons.mp cString
    by_cases up : spot = .root ∧ component = [dot, dot]
    · obtain ⟨rfl, rfl⟩ := up
      exact ⟨rest, if_pos ⟨rfl, rfl⟩, ends⟩
    · obtain ⟨w, first, others⟩ := walk_cons_iff.mp ends
      obtain ⟨next, step, new, rfl⟩ :=
        (spot.lookupComponent_iff shown attached standing cHere up).mp first
      rw [destination, step] at lost
      obtain ⟨left, left_eq, walks⟩ := ih cLater new lost others
      exact ⟨left, by rw [leaves, if_neg up, step]; exact left_eq, walks⟩

end Walks

end OscKernel.Soundness.RamfsDirectory
