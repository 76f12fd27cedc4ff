import OscKernel.Model.FileSystem
import OscKernel.Soundness.PathCreation

/-! # What calls on files do

One inversion lemma for each part of a call that the contents of files depend on: `vfs_open`, the
accesses of `OpenFiles` that open nothing, and what a creation or a mount leaves as it was.
-/

namespace OscKernel.Soundness.FileContents

open OscKernel.Lib OscKernel.Model OscKernel.Soundness.Lookup OscKernel.Soundness.TreeUpdates
  OscKernel.Soundness.MountTable OscKernel.Soundness.PathCreation

/-! ## Files and openings -/

/-- A regular file of a tmpfs instance, by the operations of its vnode or of a handle. -/
def IsFile (fs : Vfs) (fOps : Option FileOps) (v : VnodeId) : Prop :=
  fOps = some .tmpfs ∧ (nodeOf fs v).type = .file

instance (fs : Vfs) (fOps : Option FileOps) (v : VnodeId) : Decidable (IsFile fs fOps v) :=
  inferInstanceAs (Decidable (_ ∧ _))

/-- The bytes of a file. -/
def bytes (node : FsNode) : List UInt8 := (List.range node.size).map node.data

/-- The arguments of the `vfs_open` that a task is about to call. -/
def opening (s : OpenFiles) (task : ℕ) : Option (List UInt8 × BitVec 32) :=
  match s.pc task with
  | .opening _ pathname flags => some (pathname, flags)
  | .starting _ => some (devUart, 0#32)
  | _ => none

/-- The vnode that `vfs_open` finds or creates, and which of both. -/
def vfsOpened (fs : VfsHeap) (fuel : ℕ) (base : VnodeId) (pathname : List UInt8) (flags : BitVec 32)
    (behind : List UInt8) (grants : Grants) : Option (VnodeId × Bool) :=
  (vfsLookupFrom fs.toVfs fuel base pathname).bind fun
    | .found v => some (v, false)
    | .error _ =>
      if flags &&& oCreat ≠ 0#32 then
        (createAt fs fuel base pathname behind grants).bind fun
          | (.found v, _) => some (v, true)
          | (.error _, _) => none
      else none

/-! ## What the drivers set up -/

section Setup

variable {fs t : VfsHeap} {root : VnodeId}

/-- None of the vnodes from a number on is one with the operations of tmpfs files. -/
def NoTmpfs (t : VfsHeap) (first : VnodeId) : Prop :=
  ∀ v, first ≤ v → v < t.vnodeCount → (t.vnodes v).fOps ≠ some .tmpfs

theorem NoTmpfs.addFile {first root : VnodeId} (none : NoTmpfs t first) (rootNode : NodeId)
    (slot : Fin maxEntries) (vOps : VnodeOps) {fOps : FileOps}
    (other : fOps ≠ .tmpfs) (node : FsNode) :
    NoTmpfs (addFile t root rootNode slot vOps fOps node) first := by
  intro v low high
  change (Function.update t.vnodes t.vnodeCount _ v).fOps ≠ some .tmpfs
  rcases eq_or_ne v t.vnodeCount with rfl | different
  · rw [Function.update_self]
    exact fun same => other (Option.some.inj same)
  · rw [Function.update_of_ne different]
    exact none v low (Nat.lt_of_le_of_ne (Nat.le_of_lt_succ high) different)

theorem noTmpfs_root (fs : VfsHeap) (vOps : VnodeOps) {fOps : Option FileOps}
    (other : fOps ≠ some .tmpfs) (node : FsNode) :
    NoTmpfs (withRoot fs vOps fOps node) fs.vnodeCount := by
  intro v low high
  obtain rfl : v = fs.vnodeCount := Nat.le_antisymm (Nat.le_of_lt_succ high) low
  simpa [withRoot, VfsHeap.setInternal, VfsHeap.addNode, VfsHeap.addVnode, rootVnode] using other

theorem NoTmpfs.ramfsFiles {first root : VnodeId} (none : NoTmpfs t first) (rootNode : NodeId)
    (slotIdx : ℕ) (cpio : List CpioFile) :
    NoTmpfs (ramfsFiles t root rootNode slotIdx cpio) first := by
  induction cpio generalizing t slotIdx with
  | nil => exact none
  | cons file rest ih =>
    rw [Model.ramfsFiles]
    split
    · split
      · exact ih none slotIdx
      · split
        · exact ih (none.addFile _ _ _ FileOps.noConfusion _) (slotIdx + 1)
        · exact ih none slotIdx
    · exact none

/-- No new vnode is a regular tmpfs file. -/
private theorem setupMount_files {driver : VnodeOps} {cpio : List CpioFile} {grants : Grants}
    (setup : driver.setupMount fs cpio grants = some (.found root, t)) {v : VnodeId}
    (low : fs.vnodeCount ≤ v) (high : v < t.vnodeCount) : ¬ IsFile t.toVfs (t.vnodes v).fOps v := by
  rintro ⟨ops, isFile⟩
  obtain ⟨rfl, made⟩ := setupMount_cases setup
  cases made with
  | tmpfs isDir empty =>
    obtain rfl : v = fs.vnodeCount := Nat.le_antisymm (Nat.le_of_lt_succ high) low
    rw [(withRoot_spec fs _ _ _).2, isDir] at isFile
    cases isFile
  | devfs isDir empty =>
    exact ((noTmpfs_root fs _ (by decide) _).addFile _ _ _ FileOps.noConfusion _).addFile _
      _ _ FileOps.noConfusion _
      v low high ops
  | ramfs isDir empty =>
    exact (noTmpfs_root fs _ (by decide) _).ramfsFiles _ _ _ v low high ops

end Setup

/-! ## Opening -/

section Opening

variable {fs t : VfsHeap} {fuel : ℕ} {base : VnodeId} {pathname behind : List UInt8}
  {flags : BitVec 32} {grants : Grants}

/-- A new node is empty. -/
theorem size_of_insert {type : VnodeType} {dir new : VnodeId} {name : List UInt8}
    (made : tmpfsInsert type fs dir name grants = (.found new, t)) (old : Allocated fs dir) :
    (nodeOf t.toVfs fs.vnodeCount).size = 0 := by
  have other : fs.nodeCount ≠ (fs.vnodes dir).internal := Nat.ne_of_gt old.2
  rw [tmpfsInsert] at made
  simp only at made
  split at made
  · cases made
  split at made
  · cases made
  split at made
  · cases made
  split at made
  · cases made
  split at made
  · cases made
  split at made
  · cases made
  obtain ⟨-, rfl⟩ := Prod.mk.inj made
  simp only [nodeOf, VfsHeap.setEntry, VfsHeap.setInternal, VfsHeap.addNode, VfsHeap.addVnode,
    Function.update_self, Function.update_of_ne other, FsNode.writeName]
  cases type <;> (dsimp only; split <;> rfl)

/-- The code and the handle of `vfs_open` for the vnode. -/
def openedResult (t : VfsHeap) (v : VnodeId) (flags : BitVec 32) (grants : Grants) : Opened :=
  if grants.handle then .handle (openHandle v (t.vnodes v).fOps flags.toInt) else .error (-1)

theorem openFound_eq (t : VfsHeap) (v : VnodeId) (flags : BitVec 32) (grants : Grants) :
    openFound t v flags grants = (openedResult t v flags grants, t) := by
  rw [openFound, openedResult]
  cases grants.handle <;> rfl

/-- What `vfs_open` does: it finds a vnode, creates one in a tmpfs directory, or opens nothing. -/
theorem vfsOpen_effect {opened : Opened}
    (result : vfsOpen fs fuel base pathname flags behind grants = some (opened, t)) :
    (∃ v, vfsOpened fs fuel base pathname flags behind grants = some (v, false) ∧ t = fs ∧
      vfsLookupFrom fs.toVfs fuel base pathname = some (.found v) ∧
      opened = openedResult t v flags grants) ∨
    (∃ parent name slot, vfsOpened fs fuel base pathname flags behind grants =
      some (fs.vnodeCount, true) ∧
      resolveParent fs fuel base pathname behind = some (.found parent, name) ∧
      tmpfsCreate fs parent name grants = (.found fs.vnodeCount, t) ∧
      Inserted fs t .file parent name slot ∧
      opened = openedResult t fs.vnodeCount flags grants) ∨
    (vfsOpened fs fuel base pathname flags behind grants = none ∧ Grown fs t ∧
      ∃ code, opened = .error code) := by
  rw [vfsOpen] at result
  rw [vfsOpened]
  obtain ⟨outcome, lookup, result⟩ := Option.bind_eq_some_iff.mp result
  rw [lookup, Option.bind_some]
  cases outcome with
  | found v =>
    obtain ⟨rfl, rfl⟩ :=
      Prod.mk.inj ((openFound_eq fs v flags grants).symm.trans (Option.some.inj result))
    exact .inl ⟨v, rfl, rfl, rfl, rfl⟩
  | error code =>
    simp only at result ⊢
    split at result
    · rename_i creates
      rw [if_pos creates]
      obtain ⟨⟨created, u⟩, made, result⟩ := Option.map_eq_some_iff.mp result
      rw [made, Option.bind_some]
      obtain ⟨rfl, grown⟩ | ⟨parent, name, slot, resolved, ops, rfl, inserted⟩ :=
        insertAt_cases
          (show VnodeOps.create .tmpfs = some (tmpfsInsert .file) from rfl) rfl rfl made
      · obtain ⟨rfl, rfl⟩ := Prod.mk.inj result
        exact .inr (.inr ⟨rfl, grown, _, rfl⟩)
      · obtain ⟨rfl, rfl⟩ := Prod.mk.inj ((openFound_eq u _ flags grants).symm.trans result)
        refine .inr (.inl ⟨parent, name, slot, rfl, resolved, ?_, inserted, rfl⟩)
        rw [createAt, resolved] at made
        simp only [Option.map_some, ops, Option.bind_some, VnodeOps.create,
          Option.some.injEq] at made
        exact made
    · rename_i creates
      obtain ⟨rfl, rfl⟩ := Prod.mk.inj (Option.some.inj result)
      rw [if_neg creates]
      exact .inr (.inr ⟨rfl, .refl fs, code, rfl⟩)

end Opening

/-! ## The other accesses -/

/-- A step that opens nothing: handles stand where they stood, and a working directory is one of
before or the root. -/
structure Still (s t : OpenFiles) : Prop where
  heap : t.heap = s.heap
  handle : ∀ {address file'}, t.files address = some file' →
    ∃ file, s.files address = some file ∧ file'.vnode = file.vnode ∧
      file'.fPos = file.fPos ∧ file'.fOps = file.fOps
  cwd : ∀ {task v}, t.cwd task = some v → v = s.heap.root ∨ ∃ other, s.cwd other = some v

namespace Still

variable {s t u : OpenFiles} {task : ℕ}

theorem refl (s : OpenFiles) : Still s s :=
  ⟨rfl, fun here => ⟨_, here, rfl, rfl, rfl⟩, fun here => .inr ⟨_, here⟩⟩

theorem trans (first : Still s t) (second : Still t u) : Still s u where
  heap := second.heap.trans first.heap
  handle here := by
    obtain ⟨middle, present, vnode, fPos, fOps⟩ := second.handle here
    obtain ⟨file, before, vnode', fPos', fOps'⟩ := first.handle present
    exact ⟨file, before, vnode.trans vnode', fPos.trans fPos', fOps.trans fOps'⟩
  cwd here := by
    rcases second.cwd here with root | ⟨other, before⟩
    · exact .inl (root.trans (congrArg (fun heap : VfsHeap => heap.root) first.heap))
    · exact first.cwd before

/-- Only the descriptors, the queues or what the tasks do next change. -/
theorem of_same (heap : t.heap = s.heap) (files : t.files = s.files)
    (cwd : t.cwd = s.cwd) : Still s t :=
  ⟨heap, fun here => ⟨_, files ▸ here, rfl, rfl, rfl⟩, fun here => .inr ⟨_, cwd ▸ here⟩⟩

/-- A file object is counted or freed. -/
theorem setFile {address : ℕ} {file : File} (here : s.files address = some file)
    (object : Option File) (counted : ∀ file' ∈ object, file'.vnode = file.vnode ∧
      file'.fPos = file.fPos ∧ file'.fOps = file.fOps) :
    Still s (s.setFile address object) where
  heap := rfl
  handle {other file'} present := by
    change Function.update s.files address object other = some file' at present
    rcases eq_or_ne other address with rfl | different
    · rw [Function.update_self] at present
      exact ⟨file, here, counted file' present⟩
    · rw [Function.update_of_ne different] at present
      exact ⟨file', present, rfl, rfl, rfl⟩
  cwd present := .inr ⟨_, present⟩

theorem setCwd (task : ℕ) (value : Option VnodeId)
    (inside : ∀ v ∈ value, v = s.heap.root ∨ ∃ other, s.cwd other = some v) :
    Still s { s with cwd := Function.update s.cwd task value } where
  heap := rfl
  handle present := ⟨_, present, rfl, rfl, rfl⟩
  cwd {other v} present := by
    simp only at present
    rcases eq_or_ne other task with rfl | different
    · rw [Function.update_self] at present
      exact inside v present
    · rw [Function.update_of_ne different] at present
      exact .inr ⟨other, present⟩

theorem closeSlot {fd : Fin maxFd} (closed : s.closeSlot task fd = some t) : Still s t := by
  rw [OpenFiles.closeSlot] at closed
  split at closed
  · obtain rfl := Option.some.inj closed
    exact .refl s
  · obtain ⟨file, here, rfl⟩ := Option.map_eq_some_iff.mp closed
    refine (setFile here _ fun file' remains => ?_).trans (of_same rfl rfl rfl)
    rw [vfsClose] at remains
    simp only [Option.mem_def] at remains
    split at remains
    · cases remains
    · obtain rfl := Option.some.inj remains
      exact ⟨rfl, rfl, rfl⟩

theorem reclaim (reclaimed : s.reclaim task = some t) : Still s t := by
  obtain ⟨u, closed, rfl⟩ := Option.map_eq_some_iff.mp reclaimed
  have slots : Still s u := System.Path.foldlM_invariant (P := Still s)
    (fun _ before closes => before.trans (closeSlot closes)) (refl s) closed
  exact (slots.trans (setCwd task none fun v here => by cases here)).trans (of_same rfl rfl rfl)

theorem killZombies (killed : s.killZombies = some t) : Still s t :=
  System.Path.foldlM_invariant (P := Still s)
    (fun _ before reclaims => before.trans (reclaim reclaims))
    (of_same rfl rfl rfl : Still s { s with zombies := [] }) killed

end Still

/-- What a step of `OpenFiles` does: it opens a file, or opens nothing. -/
theorem step_cases {s t : OpenFiles} {event : OpenFiles.Event} (step : s.step event = some t) :
    Still s t ∧ (∀ task fuel behind grants file, event = .resume task fuel behind grants file →
      opening s task = none) ∨
    ∃ task fuel behind grants file pathname flags code u, event =
      .resume task fuel behind grants file ∧
      opening s task = some (pathname, flags) ∧
      s.opens task pathname flags fuel behind grants file = some (code, u) ∧ Still u t := by
  cases event with
  | sysOpen task pathname flags =>
    obtain ⟨-, rest⟩ := Option.ite_none_right_eq_some.mp step
    obtain rfl := Option.some.inj rest
    refine .inl ⟨?_, fun _ _ _ _ _ same => by cases same⟩
    rw [OpenFiles.sysOpen]
    split <;> exact .of_same rfl rfl rfl
  | sysClose task fd =>
    obtain ⟨-, rest⟩ := Option.ite_none_right_eq_some.mp step
    obtain rfl := Option.some.inj rest
    refine .inl ⟨?_, fun _ _ _ _ _ same => by cases same⟩
    rw [OpenFiles.sysClose]
    split
    · split <;> exact .of_same rfl rfl rfl
    · exact .of_same rfl rfl rfl
  | sysFork task child =>
    obtain ⟨-, rest⟩ := Option.ite_none_right_eq_some.mp step
    obtain rfl := Option.some.inj rest
    refine .inl ⟨?_, fun _ _ _ _ _ same => by cases same⟩
    exact (Still.setCwd child (s.cwd task) fun v here => .inr ⟨task, here⟩).trans
      (.of_same rfl rfl rfl)
  | createUserProcess task child =>
    obtain ⟨-, rest⟩ := Option.ite_none_right_eq_some.mp step
    obtain rfl := Option.some.inj rest
    refine .inl ⟨?_, fun _ _ _ _ _ same => by cases same⟩
    exact (Still.setCwd child none fun v here => by cases here).trans (.of_same rfl rfl rfl)
  | exit task =>
    obtain ⟨-, rest⟩ := Option.ite_none_right_eq_some.mp step
    obtain rfl := Option.some.inj rest
    exact .inl ⟨.of_same rfl rfl rfl, fun _ _ _ _ _ same => by cases same⟩
  | killZombies => exact .inl ⟨Still.killZombies step, fun _ _ _ _ _ same => by cases same⟩
  | resume task fuel behind grants file =>
    obtain ⟨-, access⟩ := Option.ite_none_right_eq_some.mp step
    rw [OpenFiles.resume] at access
    have closes : ∀ {u}, Still s u → (∀ call, opening s task ≠ some call) →
        Still s u ∧ ∀ task' fuel' behind' grants' file',
          OpenFiles.Event.resume task fuel behind grants file =
          .resume task' fuel' behind' grants' file' →
          opening s task' = none := by
      intro u still idle
      refine ⟨still, fun task' _ _ _ _ same => ?_⟩
      obtain rfl := (OpenFiles.Event.resume.inj same).1
      exact Option.eq_none_iff_forall_ne_some.mpr idle
    have counts : ∀ {address : ℕ} {object : File} {count : ℤ}
        {u : OpenFiles}, s.files address = some object →
        u.heap = s.heap →
        u.files = Function.update s.files address (some { object with refCount := count }) →
        u.cwd = s.cwd → Still s u := by
      intro address object count u here heap files cwd
      refine (Still.setFile here (some { object with refCount := count })
        fun file' same => ?_).trans
        (.of_same heap files cwd)
      obtain rfl := Option.some.inj same
      exact ⟨rfl, rfl, rfl⟩
    cases pc : s.pc task with
    | idle =>
      rw [pc] at access
      cases access
    | opening fd pathname flags =>
      rw [pc] at access
      obtain ⟨⟨code, u⟩, opens, rfl⟩ := Option.map_eq_some_iff.mp access
      refine .inr ⟨task, fuel, behind, grants, file, pathname, flags, code, u,
        rfl, by rw [opening, pc], opens, ?_⟩
      dsimp only
      split <;> exact .of_same rfl rfl rfl
    | starting child =>
      rw [pc] at access
      obtain ⟨⟨code, u⟩, opens, rest⟩ := Option.bind_eq_some_iff.mp access
      obtain ⟨-, rest⟩ := Option.ite_none_right_eq_some.mp rest
      obtain rfl := Option.some.inj rest
      exact .inr ⟨task, fuel, behind, grants, file, devUart, 0#32, code, u,
        rfl, by rw [opening, pc], opens, .of_same rfl rfl rfl⟩
    | installing fd file' =>
      rw [pc] at access
      obtain rfl := Option.some.inj access
      exact .inl (closes (.of_same rfl rfl rfl) (by simp [opening, pc]))
    | closing fd file' =>
      rw [pc] at access
      obtain ⟨object, here, rfl⟩ := Option.map_eq_some_iff.mp access
      exact .inl (closes (.of_same rfl rfl rfl) (by simp [opening, pc]))
    | decrementing fd file' loaded =>
      rw [pc] at access
      obtain ⟨object, here, rfl⟩ := Option.map_eq_some_iff.mp access
      exact .inl (closes (counts here rfl rfl rfl) (by simp [opening, pc]))
    | testing fd file' =>
      rw [pc] at access
      obtain ⟨object, here, rfl⟩ := Option.map_eq_some_iff.mp access
      exact .inl (closes (.of_same rfl rfl rfl) (by simp [opening, pc]))
    | freeing fd file' =>
      rw [pc] at access
      obtain ⟨object, here, rfl⟩ := Option.map_eq_some_iff.mp access
      refine .inl (closes ?_ (by simp [opening, pc]))
      exact (Still.setFile here none fun _ same => by cases same).trans (.of_same rfl rfl rfl)
    | clearing fd file' =>
      rw [pc] at access
      obtain rfl := Option.some.inj access
      exact .inl (closes (.of_same rfl rfl rfl) (by simp [opening, pc]))
    | copying child i =>
      rw [pc] at access
      refine .inl (closes ?_ (by simp [opening, pc]))
      simp only at access
      split at access
      · split at access <;> (obtain rfl := Option.some.inj access; exact .of_same rfl rfl rfl)
      · obtain rfl := Option.some.inj access
        exact .of_same rfl rfl rfl
    | seeding child i file' =>
      rw [pc] at access
      refine .inl (closes ?_ (by simp [opening, pc]))
      simp only at access
      split at access
      · obtain rfl := Option.some.inj access
        exact .of_same rfl rfl rfl
      · obtain rfl := Option.some.inj access
        exact (Still.setCwd child (some s.heap.root) fun v here =>
          .inl (Option.some.inj here).symm).trans (.of_same rfl rfl rfl)
    | sharing sharer child i file' =>
      rw [pc] at access
      obtain ⟨object, here, rfl⟩ := Option.map_eq_some_iff.mp access
      exact .inl (closes (.of_same rfl rfl rfl) (by simp [opening, pc]))
    | incrementing sharer child i file' loaded =>
      rw [pc] at access
      obtain ⟨object, here, rfl⟩ := Option.map_eq_some_iff.mp access
      exact .inl (closes (counts here rfl rfl rfl) (by simp [opening, pc]))

/-! ## What a change of the tables keeps -/

/-- The vnodes that were allocated keep their files. -/
def Preserves (fs t : VfsHeap) : Prop :=
  ∀ v, Allocated fs v → Allocated t v ∧ (t.vnodes v).internal = (fs.vnodes v).internal ∧
  (t.vnodes v).fOps = (fs.vnodes v).fOps ∧ (nodeOf t.toVfs v).type = (nodeOf fs.toVfs v).type ∧
  (nodeOf t.toVfs v).size = (nodeOf fs.toVfs v).size ∧
    (nodeOf t.toVfs v).data = (nodeOf fs.toVfs v).data

section Preserves

variable {fs t : VfsHeap} {type : VnodeType} {dir : VnodeId}
  {name : List UInt8} {slot : Fin maxEntries}

theorem preserves_grown (grown : Grown fs t) : Preserves fs t := by
  intro v old
  obtain ⟨vnode, node⟩ := grown.nodeOf old
  rw [node, Allocated, vnode]
  exact ⟨⟨lt_of_lt_of_le old.1 grown.vnodeCount, lt_of_lt_of_le old.2 grown.nodeCount⟩, rfl, rfl,
    rfl, rfl, rfl⟩

theorem preserves_inserted (inserted : Inserted fs t type dir name slot) : Preserves fs t := by
  intro v old
  rw [Allocated, inserted.vnode_of_lt old.1, inserted.vnodeCount, inserted.nodeCount]
  refine ⟨⟨Nat.lt_succ_of_lt old.1, Nat.lt_succ_of_lt old.2⟩, rfl, rfl, ?_⟩
  by_cases same : (fs.vnodes v).internal = (fs.vnodes dir).internal
  · rw [inserted.nodeOf_dir old same]
    exact ⟨rfl, rfl, rfl⟩
  · rw [inserted.nodeOf_of_ne old same]
    exact ⟨rfl, rfl, rfl⟩

theorem preserves_mounted {made : VfsHeap} {root mountpoint : VnodeId}
    (setup : RootMade { fs with mountCount := fs.mountCount + 1 } made root) :
    Preserves fs (made.link fs.mountCount root mountpoint) := by
  intro v old
  have entered := Entered.of_setup mountpoint setup
  have vnode : made.vnodes v = fs.vnodes v := setup.vnodes v old.1
  have node : nodeOf (made.link fs.mountCount root mountpoint).toVfs v = nodeOf fs.toVfs v := by
    rw [entered.node, nodeOf, vnode]
    exact setup.nodes _ old.2
  rw [Allocated, entered.internal, entered.fOps, vnode, node]
  exact ⟨⟨old.1.trans setup.vnodeCount, old.2.trans setup.nodeCount⟩, rfl, rfl, rfl, rfl, rfl⟩

/-- A new file system has no regular tmpfs file. -/
theorem vfsMount_files {fuel : ℕ} {base : VnodeId} {target filesystem : List UInt8}
    {cpio : List CpioFile} {grants : Grants}
    (result : vfsMount fs fuel base target filesystem cpio grants = some (0, t)) {v : VnodeId}
    (low : fs.vnodeCount ≤ v) (high : v < t.vnodeCount) : ¬ IsFile t.toVfs (t.vnodes v).fOps v := by
  rw [vfsMount] at result
  obtain ⟨outcome, lookup, result⟩ := Option.bind_eq_some_iff.mp result
  cases outcome with
  | error code =>
    obtain rfl := vfsLookupFrom_code lookup
    cases (Prod.mk.inj (Option.some.inj result)).1
  | found mountpoint =>
    simp only at result
    split at result
    · cases (Prod.mk.inj (Option.some.inj result)).1
    split at result
    · cases (Prod.mk.inj (Option.some.inj result)).1
    obtain ⟨⟨setup, made⟩, ran, linked⟩ := Option.map_eq_some_iff.mp result
    cases setup with
    | error code =>
      obtain ⟨rfl, -⟩ := setupMount_error ran
      cases (Prod.mk.inj linked).1
    | found root =>
      obtain ⟨-, rfl⟩ := Prod.mk.inj linked
      have entered := Entered.of_setup mountpoint (setupMount_made ran)
      rw [IsFile, nodeOf, entered.internal, entered.fOps]
      exact setupMount_files ran low high

end Preserves

end OscKernel.Soundness.FileContents
