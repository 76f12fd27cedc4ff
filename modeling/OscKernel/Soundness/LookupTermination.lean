import OscKernel.Lib.Fuel
import OscKernel.Soundness.PathCreation

/-! # Lookups come to an end

A walk has two loops without a bound. The downward one follows mounts to roots that are newer than
what they cover, so it ends before it runs out of vnodes. The upward one goes back to older vnodes,
and it ends unless it comes to the root of the root filesystem, which is mounted on itself. That
happens when another filesystem is mounted there.
-/

namespace OscKernel.Soundness.LookupTermination

open OscKernel.Lib OscKernel.Model OscKernel.Soundness.Lookup OscKernel.Soundness.TreeUpdates
  OscKernel.Soundness.MountTable OscKernel.Soundness.PathCreation

/-! ## The order of the mounts -/

/-- A mounted root is newer than the vnode it is mounted on; only the root filesystem is mounted on
itself. -/
structure Layered (fs : VfsHeap) (known : VnodeId → Prop) : Prop extends Intact fs known where
  rootMount : fs.rootfs = 0 ∧ fs.mounts 0 = ⟨0, 0⟩ ∧ 0 ∈ fs.activeMounts
  rootKnown : ∀ {m}, m ∈ fs.activeMounts → known (fs.mounts m).root
  newer : ∀ {m}, m ∈ fs.activeMounts → m ≠ 0 → (fs.mounts m).mountpoint < (fs.mounts m).root
  rootOnce : ∀ {m m'}, m ∈ fs.activeMounts → m' ∈ fs.activeMounts →
    (fs.mounts m).root = (fs.mounts m').root → m = m'
  covers : ∀ {v m}, known v → (fs.vnodes v).mount = some m → v < (fs.mounts m).root

namespace Layered

variable {fs t : VfsHeap} {known : VnodeId → Prop}

theorem root_eq (layered : Layered fs known) : fs.root = 0 := by
  rw [Vfs.root, layered.rootMount.1, layered.rootMount.2.1]

theorem grown (layered : Layered fs known) (grown : Grown fs t) : Layered t known where
  toIntact := layered.toIntact.grown grown
  rootMount := by
    rw [grown.rootfs, grown.mounts, grown.activeMounts]
    exact layered.rootMount
  rootKnown active := by
    rw [grown.activeMounts] at active
    rw [grown.mounts]
    exact layered.rootKnown active
  newer active other := by
    rw [grown.activeMounts] at active
    rw [grown.mounts]
    exact layered.newer active other
  rootOnce active active' same := by
    rw [grown.activeMounts] at active active'
    rw [grown.mounts] at same
    exact layered.rootOnce active active' same
  covers inside mount := by
    rw [(grown.nodeOf (layered.allocated inside)).1] at mount
    rw [grown.mounts]
    exact layered.covers inside mount

theorem inserted (layered : Layered fs known) {type : VnodeType} {dir : VnodeId} {name : List UInt8}
    {slot : Fin maxEntries} (inside : known dir) (cString : (0 : UInt8) ∉ name.take tmpfsMaxName)
    (inserted : Inserted fs t type dir name slot) :
    Layered t fun v => known v ∨ v = fs.vnodeCount ∧ name.length < tmpfsMaxName where
  toIntact := layered.toIntact.inserted inside cString inserted
  rootMount := by
    rw [inserted.rootfs, inserted.mounts, inserted.activeMounts]
    exact layered.rootMount
  rootKnown active := by
    rw [inserted.activeMounts] at active
    rw [inserted.mounts]
    exact .inl (layered.rootKnown active)
  newer active other := by
    rw [inserted.activeMounts] at active
    rw [inserted.mounts]
    exact layered.newer active other
  rootOnce active active' same := by
    rw [inserted.activeMounts] at active active'
    rw [inserted.mounts] at same
    exact layered.rootOnce active active' same
  covers {v m} either mount := by
    obtain old | ⟨rfl, -⟩ := either
    · rw [inserted.vnode_of_lt (layered.allocated old).1] at mount
      rw [inserted.mounts]
      exact layered.covers old mount
    · rw [inserted.newVnode] at mount
      simp at mount

/-- What a link leaves of the mounts that were there, and the one it adds. -/
theorem mounted {made : VfsHeap} (layered : Layered fs known) {root mountpoint : VnodeId}
    (inside : known mountpoint)
    (setup : RootMade { fs with mountCount := fs.mountCount + 1 } made root) :
    Layered (made.link fs.mountCount root mountpoint)
      fun v => known v ∨ fs.vnodeCount ≤ v ∧ v < made.vnodeCount := by
  have entered := Entered.of_setup mountpoint setup
  have intact := layered.toIntact.mounted inside setup
  generalize made.link fs.mountCount root mountpoint = t at entered intact ⊢
  have number : root = fs.vnodeCount := setup.number
  have grew : fs.vnodeCount < made.vnodeCount := setup.vnodeCount
  have oldRoot : ∀ {m}, m ∈ fs.activeMounts → (fs.mounts m).root < fs.vnodeCount :=
    fun active => (layered.allocated (layered.rootKnown active)).1
  obtain ⟨isZero, selfMount, zeroActive⟩ := layered.rootMount
  have zeroOld := (layered.active zeroActive).1
  refine ⟨intact, ?_, fun {m} active => ?_, fun {m} active other => ?_,
    fun {m m'} active active' same => ?_, fun {v m} either mount => ?_⟩
  · rw [entered.rootfs, entered.oldMount 0 zeroOld]
    exact ⟨isZero, selfMount, entered.still zeroActive⟩
  · obtain old | rfl := entered.active_cases active
    · rw [entered.oldMount m (layered.active old).1]
      exact .inl (layered.rootKnown old)
    · rw [entered.newMount]
      exact .inr ⟨le_of_eq number.symm, number ▸ grew⟩
  · obtain old | rfl := entered.active_cases active
    · rw [entered.oldMount m (layered.active old).1]
      exact layered.newer old other
    · rw [entered.newMount]
      exact number ▸ (layered.allocated inside).1
  · obtain old | rfl := entered.active_cases active <;> obtain old' | rfl :=
      entered.active_cases active'
    · rw [entered.oldMount m (layered.active old).1,
        entered.oldMount m' (layered.active old').1] at same
      exact layered.rootOnce old old' same
    · rw [entered.oldMount m (layered.active old).1, entered.newMount, number] at same
      exact absurd same (Nat.ne_of_lt (oldRoot old))
    · rw [entered.oldMount m' (layered.active old').1, entered.newMount, number] at same
      exact absurd same.symm (Nat.ne_of_lt (oldRoot old'))
    · rfl
  · obtain ⟨rfl, rfl⟩ | before := entered.mount_cases mount
    · rw [entered.newMount]
      exact number ▸ (layered.allocated inside).1
    · obtain old | ⟨low, high⟩ := either
      · have same : made.vnodes v = fs.vnodes v := setup.vnodes v (layered.allocated old).1
        rw [same] at before
        rw [entered.oldMount m (layered.mount old before).1]
        exact layered.covers old before
      · rw [(setup.new v low high).1] at before
        simp at before

end Layered

/-- The mounts of a session are in order. -/
def Ordered (s : Session) : Prop := ∃ known, Layered s.heap known ∧ ∀ task, known (s.cwd task)

theorem boot_ordered (memory : Vfs) : Ordered (boot memory) := by
  obtain ⟨known, intact, inside⟩ := boot_intact memory
  have uncovered : ((bootVfs memory).vnodes 0).mount = none := by
    simp [bootVfs, tmpfsSetupMount, VfsHeap.setInternal, VfsHeap.addNode,
      VfsHeap.addVnode, rootVnode]
  have mount : (bootVfs memory).mounts 0 = ⟨0, 0⟩ := by simp [bootVfs]
  have only : ∀ {m}, m ∈ (bootVfs memory).activeMounts → m = 0 :=
    fun member => List.mem_singleton.mp member
  refine ⟨known, ⟨intact, ⟨rfl, mount, List.mem_singleton_self 0⟩, fun active => ?_,
    fun active other => absurd (only active) other, fun active active' _ =>
    (only active).trans (only active').symm, fun {v m} old covered => ?_⟩, inside⟩
  · rw [only active]
    exact intact.root.2
  · have first : v = 0 := Nat.lt_one_iff.mp (intact.allocated old).1
    rw [first] at covered
    exact absurd (uncovered.symm.trans covered) (by simp)

theorem Ordered.step {s t : Session} {action : Action} (ordered : Ordered s)
    (step : sessions.Step s action t) :
    Ordered t := by
  obtain ⟨known, layered, inside⟩ := ordered
  obtain ⟨grown, moved⟩ | ⟨cwd, type, parent, name, slot, knownParent, cString, inserted⟩ |
    ⟨cwd, mountpoint, root, made, knownPoint, setup, same⟩ :=
    Session.step_cases layered.toIntact inside step
  · exact ⟨known, layered.grown grown, moved⟩
  · refine ⟨_, layered.inserted knownParent cString inserted, fun task => .inl ?_⟩
    rw [cwd]
    exact inside task
  · refine ⟨fun v => known v ∨ s.heap.vnodeCount ≤ v ∧ v < made.vnodeCount, ?_, fun task => .inl ?_⟩
    · rw [same]
      exact layered.mounted knownPoint setup
    · rw [cwd]
      exact inside task

/-! ## The two loops -/

/-- Up from the root of an active mount. -/
def mountpointOf (fs : Vfs) (v : VnodeId) : Option VnodeId :=
  (fs.activeMounts.find? fun m => (fs.mounts m).root = v).map fun m => (fs.mounts m).mountpoint

/-- Down to the root of what is mounted. -/
def mountedOn (fs : Vfs) (v : VnodeId) : Option VnodeId :=
  (fs.vnodes v).mount.map fun m => (fs.mounts m).root

theorem popMounts_eq_chase (fs : Vfs) (fuel : ℕ) (v : VnodeId) :
    popMounts fs fuel v = chase (mountpointOf fs) fuel v := by
  induction fuel generalizing v with
  | zero => rfl
  | succ fuel ih =>
    rw [popMounts, chase, mountpointOf]
    cases fs.activeMounts.find? fun m => (fs.mounts m).root = v with
    | none => rfl
    | some m => exact ih _

theorem crossMounts_eq_chase (fs : Vfs) (fuel : ℕ) (v : VnodeId) :
    crossMounts fs fuel v = chase (mountedOn fs) fuel v := by
  induction fuel generalizing v with
  | zero => rfl
  | succ fuel ih =>
    rw [crossMounts, chase, mountedOn]
    cases (fs.vnodes v).mount with
    | none => rfl
    | some m => exact ih _

/-- Nothing in the table but the root filesystem is mounted on the root of the root filesystem. -/
def RootFree (fs : Vfs) : Prop :=
  ∀ m ∈ fs.activeMounts, m ≠ fs.rootfs → (fs.mounts m).mountpoint ≠ fs.root

instance (fs : Vfs) : Decidable (RootFree fs) := by unfold RootFree; infer_instance

namespace Layered

variable {fs : VfsHeap} {known : VnodeId → Prop}

theorem crossMounts_ends (layered : Layered fs known) {v : VnodeId} (inside : known v) :
    ∃ w, crossMounts fs.toVfs (fs.vnodeCount + 1) v = some w := by
  rw [crossMounts_eq_chase]
  apply chase_ends known (fun v => fs.vnodeCount - v) _ inside (by omega)
  intro v w inside found
  obtain ⟨m, mount, rfl⟩ := Option.map_eq_some_iff.mp found
  have upwards := layered.covers inside mount
  exact ⟨(layered.mount inside mount).2, Nat.sub_lt_sub_left (layered.allocated inside).1 upwards⟩

/-- The upward loop stays below where it started and away from the root. -/
private theorem popMounts_ends (layered : Layered fs known) (free : RootFree fs.toVfs) {v : VnodeId}
    (inside : known v) (notRoot : v ≠ fs.root) :
    ∃ w, popMounts fs.toVfs (fs.vnodeCount + 1) v = some w := by
  have old := (layered.allocated inside).1
  rw [popMounts_eq_chase]
  apply chase_ends (fun v => v ≠ fs.root) id _ notRoot (Nat.lt_succ_of_lt old)
  intro v w notRoot found
  obtain ⟨m, search, rfl⟩ := Option.map_eq_some_iff.mp found
  have active := List.mem_of_find?_eq_some search
  have here : (fs.mounts m).root = v := by simpa using List.find?_some search
  have other : m ≠ fs.rootfs := by
    rintro rfl
    exact notRoot here.symm
  refine ⟨free m active other, ?_⟩
  rw [← here]
  exact layered.newer active (layered.rootMount.1 ▸ other)

/-- From the root of a filesystem mounted on the root, the upward loop goes round for ever. -/
theorem popMounts_endless (layered : Layered fs known) {m : MountId} (active : m ∈ fs.activeMounts)
    (onRoot : (fs.mounts m).mountpoint = fs.root) (fuel : ℕ) :
    popMounts fs.toVfs fuel (fs.mounts m).root = none := by
  have leads : ∀ m ∈ fs.activeMounts, mountpointOf fs.toVfs (fs.mounts m).root =
      some (fs.mounts m).mountpoint := by
    intro m active
    rw [mountpointOf]
    cases search : fs.activeMounts.find? fun m' => (fs.mounts m').root = (fs.mounts m).root with
    | none => simpa using List.find?_eq_none.mp search m active
    | some m' =>
      have same : (fs.mounts m').root = (fs.mounts m).root := by simpa using List.find?_some search
      rw [layered.rootOnce (List.mem_of_find?_eq_some search) active same]
      rfl
  obtain ⟨isZero, selfMount, zeroActive⟩ := layered.rootMount
  rw [popMounts_eq_chase]
  apply chase_endless (fun v => v = (fs.mounts m).root ∨ v = fs.root) _ fuel (.inl rfl)
  rintro v (rfl | rfl)
  · exact ⟨fs.root, by rw [leads m active, onRoot], .inr rfl⟩
  · refine ⟨fs.root, ?_, .inr rfl⟩
    have atZero := leads 0 zeroActive
    rw [selfMount] at atZero
    rw [layered.root_eq]
    exact atZero

private theorem lookupParent_ends (layered : Layered fs known) (free : RootFree fs.toVfs)
    {v : VnodeId} (inside : known v) :
    ∃ w, lookupParent fs.toVfs (fs.vnodeCount + 1) v = some w := by
  rw [lookupParent]
  split
  · exact ⟨v, rfl⟩
  rename_i notRoot
  obtain ⟨popped, pops⟩ := layered.popMounts_ends free inside notRoot
  have insidePopped := layered.closed.popMounts inside pops
  rw [pops]
  simp only [Option.bind_eq_bind, Option.bind_some]
  apply layered.crossMounts_ends
  split
  · cases above : (fs.vnodes popped).parent with
    | none => exact insidePopped
    | some p => exact layered.closed.parent insidePopped above
  · exact insidePopped

private theorem lookupComponent_ends (layered : Layered fs known) (free : RootFree fs.toVfs)
    {v : VnodeId} (inside : known v) {component : List UInt8} (short : component.length < maxName) :
    ∃ outcome, lookupComponent fs.toVfs (fs.vnodeCount + 1) v component = some outcome := by
  rw [lookupComponent]
  split
  · exact ⟨_, rfl⟩
  split
  · obtain ⟨w, ends⟩ := layered.lookupParent_ends free inside
    exact ⟨.found w, by rw [ends]; rfl⟩
  split
  · exact ⟨_, rfl⟩
  rename_i ops _
  split
  · exact ⟨_, rfl⟩
  rename_i next found
  have below : known next := by
    cases ops <;> exact layered.closed.child inside short found
  obtain ⟨w, ends⟩ := layered.crossMounts_ends below
  exact ⟨.found w, by rw [ends]; rfl⟩

private theorem walk_ends (layered : Layered fs known) (free : RootFree fs.toVfs)
    {components : List (List UInt8)} (short : ∀ component ∈ components, component.length < maxName)
    {v : VnodeId} (inside : known v) :
    ∃ outcome, Lookup.walk fs.toVfs (fs.vnodeCount + 1) components v = some outcome := by
  induction components generalizing v with
  | nil => exact ⟨.found v, rfl⟩
  | cons component rest ih =>
    obtain ⟨here, later⟩ := List.forall_mem_cons.mp short
    obtain ⟨outcome, ends⟩ := layered.lookupComponent_ends free inside here
    rw [Lookup.walk, ends, Option.bind_some]
    cases outcome with
    | error code => exact ⟨.error code, rfl⟩
    | found next => exact ih later (layered.closed.lookupComponent inside here ends)

/-- One more round of fuel than there are vnodes is enough for every walk. -/
private theorem lookup_ends (layered : Layered fs known) (free : RootFree fs.toVfs) {base : VnodeId}
    (inside : known base) (path : List UInt8) :
    ∃ outcome, vfsLookupFrom fs.toVfs (fs.vnodeCount + 1) base path = some outcome := by
  cases path with
  | nil => exact ⟨_, rfl⟩
  | cons c rest =>
    rw [vfsLookupFrom_eq_walk _ _ _ (List.cons_ne_nil c rest)]
    apply layered.walk_ends free fun _ member => components_short member
    rw [start]
    split
    · exact layered.root.2
    · exact inside

end Layered

/-! ## Every base and every path -/

/-- What a lookup can be made from: the working directories, the ends of the mounts, and what a step
of a walk leads to from there. -/
inductive Base (s : Session) : VnodeId → Prop
  | cwd (task : ℕ) : Base s (s.cwd task)
  | root {m : MountId} (active : m ∈ s.heap.activeMounts) : Base s (s.heap.mounts m).root
  | mountpoint {m : MountId} (active : m ∈ s.heap.activeMounts) :
      Base s (s.heap.mounts m).mountpoint
  | mounted {v : VnodeId} {m : MountId} (base : Base s v)
      (mount : (s.heap.vnodes v).mount = some m) :
      Base s (s.heap.mounts m).root
  | parent {v p : VnodeId} (base : Base s v) (above : (s.heap.vnodes v).parent = some p) : Base s p
  | child {d v : VnodeId} {name : List UInt8} (base : Base s d) (short : name.length < maxName)
      (found : driverLookup s.heap.toVfs d name = .found v) : Base s v

theorem Base.known {s : Session} {known : VnodeId → Prop} (layered : Layered s.heap known)
    (directories : ∀ task, known (s.cwd task)) {v : VnodeId} (base : Base s v) : known v := by
  induction base with
  | cwd task => exact directories task
  | root active => exact layered.rootKnown active
  | mountpoint active => exact (layered.active active).2
  | mounted _ mount ih => exact (layered.mount ih mount).2
  | parent _ above ih => exact layered.closed.parent ih above
  | child _ short found ih => exact layered.closed.child ih short found

/-- In every state that calls of any tasks lead to, every lookup returns exactly when no filesystem
in the table but the first is mounted on the root. -/
theorem lookup_returns_iff {memory : Vfs} {events : List Action} {s : Session}
    (run : System.Path sessions (boot memory) events s) :
    (∀ base, Base s base → ∀ path, ∃ outcome, Returns s.heap.toVfs base path outcome) ↔
    RootFree s.heap.toVfs := by
  obtain ⟨known, layered, directories⟩ :=
    run.invariant (P := Ordered) (fun ordered step => ordered.step step) (boot_ordered memory)
  constructor
  · intro returns m active other onRoot
    obtain ⟨outcome, fuel, walk⟩ := returns _ (.root active) [dot, dot]
    have notRoot : (s.heap.mounts m).root ≠ s.heap.root := by
      rw [← onRoot]
      exact Nat.ne_of_gt (layered.newer active (layered.rootMount.1 ▸ other))
    have loops : lookupParent s.heap.toVfs fuel (s.heap.mounts m).root = none := by
      rw [lookupParent, if_neg notRoot, layered.popMounts_endless active onRoot fuel]
      rfl
    rw [vfsLookupFrom_component _ _ _ (by decide) (by decide)] at walk
    change (lookupParent s.heap.toVfs fuel (s.heap.mounts m).root).map Outcome.found =
      some outcome at walk
    rw [loops] at walk
    simp at walk
  · intro free base isBase path
    obtain ⟨outcome, ends⟩ := layered.lookup_ends free (isBase.known layered directories) path
    exact ⟨outcome, _, ends⟩

/-- `mkdir a`, `mount tmpfs /` and `cd /a/..`. -/
def rootMount : List Action :=
  [.mkdir 1 0 [97] [] ⟨true, true, true, true, true⟩,
    .mount 1 0 [slash] [116, 109, 112, 102, 115] [] ⟨true, true, true, true, true⟩,
    .chdir 10 0 [slash, 97, slash, dot, dot]]

/-- The tables after `mkdir a`, and after the mount on the root. -/
def withA : VfsHeap := (tmpfsMkdir (boot smallTree).heap 0 [97] ⟨true, true, true, true, true⟩).2
def withRootMount : VfsHeap :=
  ((tmpfsSetupMount { withA with mountCount := 2 } ⟨true, true, true, true, true⟩).2).link 1 2 0

theorem makeA_run :
    System.Path sessions (boot smallTree) [.mkdir 1 0 [97] [] ⟨true, true, true, true, true⟩]
    ⟨withA, fun _ => 0⟩ := .cons ⟨show (0 : UInt8) ∉ [97] by decide, rfl⟩ (.nil _)

theorem lookup_returns_makeA : Base ⟨withA, fun _ => 0⟩ 0 ∧
    ∀ base, Base ⟨withA, fun _ => 0⟩ base →
      ∀ path, ∃ outcome, Returns withA.toVfs base path outcome :=
  ⟨.cwd 0, (lookup_returns_iff makeA_run).mpr (by decide +kernel)⟩

/-- The working directory is then the root of the mount, and `..` from it never returns. -/
theorem rootMount_hangs :
    ∃ s, System.Path sessions (boot smallTree) rootMount s ∧ Base s (s.cwd 0) ∧
      ∀ outcome, ¬ Returns s.heap.toVfs (s.cwd 0) [dot, dot] outcome := by
  have mount : (⟨withA, fun _ => 0⟩ : Session).step (.mount 1 0 [slash] [116, 109, 112, 102, 115] []
      ⟨true, true, true, true, true⟩) = some ⟨withRootMount, fun _ => 0⟩ := by
    have target : vfsLookupFrom withA.toVfs 1 0 [slash] = some (.found 0) := by decide +kernel
    simp only [Session.step, vfsMount, target]
    rfl
  have lookup : vfsLookupFrom withRootMount.toVfs 10 0 [slash, 97, slash, dot, dot] =
      some (.found 2) := by
    decide +kernel
  have change' :
      (⟨withRootMount, fun _ => 0⟩ : Session).step (.chdir 10 0 [slash, 97, slash, dot, dot]) =
      some ⟨withRootMount, Function.update (fun _ => 0) 0 2⟩ := by
    simp only [Session.step, vfsChdir, lookup]
    rfl
  refine ⟨⟨withRootMount, Function.update (fun _ => 0) 0 2⟩, ?_, .cwd 0, ?_⟩
  · exact makeA_run.append (.cons ⟨trivial, mount⟩ (.cons ⟨trivial, change'⟩ (.nil _)))
  · rintro outcome ⟨fuel, ends⟩
    have climbs : ∀ fuel, popMounts withRootMount.toVfs fuel 0 = none := by
      intro fuel
      induction fuel with
      | zero => rfl
      | succ fuel ih => exact ih
    have loops : popMounts withRootMount.toVfs fuel 2 = none := by
      cases fuel with
      | zero => rfl
      | succ fuel => exact climbs fuel
    have walk : (lookupParent withRootMount.toVfs fuel 2).map Outcome.found = some outcome := by
      rw [vfsLookupFrom_component _ _ _ (by decide) (by decide)] at ends
      exact ends
    rw [lookupParent, if_neg (show ¬ 2 = withRootMount.root by decide +kernel), loops] at walk
    simp at walk

end OscKernel.Soundness.LookupTermination
