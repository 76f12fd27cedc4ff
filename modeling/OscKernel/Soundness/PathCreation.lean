import OscKernel.Lib.System
import OscKernel.Soundness.MountTable

/-! # What is created is found

`vfs_open` and `vfs_mkdir` cut a path at its last slash by a scan of their own, and a lookup walks
the same text component by component. The walk to the directory is the walk along the text before
the last slash, and a creation does not disturb it. What is left is one component in one directory,
which the two sides cut to different lengths when the path has no slash.
-/

namespace OscKernel.Soundness.PathCreation

open OscKernel.Lib OscKernel.Model OscKernel.Soundness.Lookup OscKernel.Soundness.TreeUpdates
  OscKernel.Soundness.MountTable

/-! ## Cutting a path at its last slash -/

/-- What stands behind the last slash. -/
def lastComponent (path : List UInt8) : List UInt8 :=
  match lastSlash path with
  | none => path
  | some i => path.drop (i + 1)

theorem slash_notMem {path : List UInt8} (noSlash : lastSlash path = none) : slash ∉ path := by
  induction path with
  | nil => exact List.not_mem_nil
  | cons c rest ih =>
    rw [lastSlash] at noSlash
    split at noSlash
    · simp at noSlash
    · rename_i later
      split at noSlash
      · simp at noSlash
      · rename_i notHere
        intro member
        obtain here | there := List.mem_cons.mp member
        · exact notHere here.symm
        · exact ih later there

theorem path_split {path : List UInt8} {i : ℕ} (last : lastSlash path = some i) :
    path = path.take i ++ slash :: path.drop (i + 1) ∧ slash ∉ path.drop (i + 1) := by
  induction path generalizing i with
  | nil => simp [lastSlash] at last
  | cons c rest ih =>
    rw [lastSlash] at last
    split at last
    · rename_i j later
      obtain rfl := Option.some.inj last
      obtain ⟨split, notLater⟩ := ih later
      refine ⟨?_, notLater⟩
      rw [List.take_succ_cons, List.cons_append, List.drop_succ_cons, ← split]
    · rename_i later
      split at last
      · rename_i here
        obtain rfl := Option.some.inj last
        rw [here]
        exact ⟨rfl, slash_notMem later⟩
      · simp at last

theorem slash_mem {path : List UInt8} {i : ℕ} (last : lastSlash path = some i) : slash ∈ path := by
  rw [(path_split last).1]
  exact List.mem_append_right _ (List.mem_cons_self ..)

theorem lookupLoop_component (fs : Vfs) (fuel : ℕ) (vnode : VnodeId) {name : List UInt8}
    (noSlash : slash ∉ name) :
    lookupLoop fs fuel name vnode =
      if name = [] then some (.found vnode)
      else lookupComponent fs fuel vnode (name.take (maxName - 1)) := by
  split
  · rename_i empty
    rw [empty]
    exact lookupLoop_nil fs fuel vnode
  · rename_i nonempty
    rw [← vfsLookupFrom_component fs fuel vnode nonempty noSlash]
    exact (vfsLookupFrom_relative fs fuel vnode nonempty fun head =>
      noSlash (List.mem_of_mem_head? head)).symm

/-- The walk along a path is the walk to its directory part, continued by its last component. -/
theorem vfsLookupFrom_split (fs : Vfs) (fuel : ℕ) (base : VnodeId) {path : List UInt8} {i : ℕ}
    (last : lastSlash path = some i) :
    vfsLookupFrom fs fuel base path =
      (vfsLookupFrom fs fuel base (parentPath path i)).bind
        (continueWith (lookupLoop fs fuel (path.drop (i + 1)))) := by
  obtain ⟨split, noSlash⟩ := path_split last
  have stays : skipSlashes (path.drop (i + 1)) = path.drop (i + 1) := by
    cases rest : path.drop (i + 1) with
    | nil => rfl
    | cons c rest' =>
      rw [rest] at noSlash
      exact skipSlashes_of_ne (List.ne_of_not_mem_cons noSlash).symm
  conv_lhs => rw [split]
  rw [parentPath]
  cases i with
  | zero =>
    rw [List.take_zero, List.nil_append, vfsLookupFrom_absolute, stays, if_neg (lt_irrefl 0),
      vfsLookupFrom_absolute, skipSlashes_nil, lookupLoop_nil]
    rfl
  | succ i =>
    have nonempty : path.take (i + 1) ≠ [] := by
      intro empty
      rw [empty] at split
      have first := congrArg List.head? split
      cases path with
      | nil => simp at split
      | cons c rest => simp at empty
    rw [if_pos (Nat.succ_pos i), vfsLookupFrom_append fs fuel base _ _ nonempty, stays]

/-! ## Walks that a change does not disturb -/

theorem skipSlashes_subset (path : List UInt8) : skipSlashes path ⊆ path := by
  induction path with
  | nil => exact List.Subset.refl _
  | cons c rest ih =>
    rw [skipSlashes]
    split
    · exact List.Subset.trans ih (List.subset_cons_self c rest)
    · exact List.Subset.refl _

theorem scanComponent_subset (component path : List UInt8) :
    (scanComponent component path).1 ⊆ component ++ path ∧
    (scanComponent component path).2 ⊆ path := by
  induction path generalizing component with
  | nil => simp [scanComponent]
  | cons c rest ih =>
    rw [scanComponent]
    split
    · exact ⟨List.subset_append_left _ _, List.Subset.refl _⟩
    · obtain ⟨head, tail⟩ :=
        ih (if component.length < maxName - 1 then component ++ [c] else component)
      refine ⟨List.Subset.trans head ?_, List.Subset.trans tail (List.subset_cons_self c rest)⟩
      split
      · simp
      · exact List.append_subset.mpr ⟨List.subset_append_left _ _,
          List.Subset.trans (List.subset_cons_self c rest) (List.subset_append_right _ _)⟩

/-- On the known vnodes the walk finds what it found. -/
structure Kept (fs fs' : Vfs) (known : VnodeId → Prop) : Prop where
  root : fs'.root = fs.root
  mounts : fs'.mounts = fs.mounts
  activeMounts : fs'.activeMounts = fs.activeMounts
  vnode : ∀ {v}, known v → fs'.vnodes v = fs.vnodes v
  found : ∀ {dir name child}, known dir → (0 : UInt8) ∉ name →
    driverLookup fs dir name = .found child →
    driverLookup fs' dir name = .found child

namespace Kept

variable {fs fs' : Vfs} {known : VnodeId → Prop}

theorem refl (fs : Vfs) (known : VnodeId → Prop) : Kept fs fs known :=
  ⟨rfl, rfl, rfl, fun _ => rfl, fun _ _ found => found⟩

theorem crossMounts (kept : Kept fs fs' known) (closed : Closed fs known) {fuel : ℕ}
    {vnode : VnodeId} (start : known vnode) :
    Model.crossMounts fs' fuel vnode = Model.crossMounts fs fuel vnode := by
  induction fuel generalizing vnode with
  | zero => rfl
  | succ fuel ih =>
    rw [Model.crossMounts, Model.crossMounts, kept.vnode start, kept.mounts]
    split
    · rename_i m mount
      exact ih (closed.crossed start mount)
    · rfl

theorem popMounts (kept : Kept fs fs' known) {fuel : ℕ} {vnode : VnodeId} :
    Model.popMounts fs' fuel vnode = Model.popMounts fs fuel vnode := by
  induction fuel generalizing vnode with
  | zero => rfl
  | succ fuel ih =>
    simp only [Model.popMounts, kept.activeMounts, kept.mounts, ih]

theorem lookupParent (kept : Kept fs fs' known) (closed : Closed fs known) {fuel : ℕ}
    {vnode : VnodeId} (start : known vnode) :
    Model.lookupParent fs' fuel vnode = Model.lookupParent fs fuel vnode := by
  rw [Model.lookupParent, Model.lookupParent, kept.root, kept.popMounts]
  split
  · rfl
  · cases pops : Model.popMounts fs fuel vnode with
    | none => rfl
    | some popped =>
      have inside := closed.popMounts start pops
      simp only [Option.bind_eq_bind, Option.bind_some, kept.vnode inside]
      apply kept.crossMounts closed
      split
      · cases above : (fs.vnodes popped).parent with
        | none => exact inside
        | some p => exact closed.parent inside above
      · exact inside

theorem lookupComponent (kept : Kept fs fs' known) (closed : Closed fs known) {fuel : ℕ}
    {vnode target : VnodeId} {component : List UInt8} (start : known vnode)
    (short : component.length < maxName) (cString : (0 : UInt8) ∉ component)
    (ends : Model.lookupComponent fs fuel vnode component = some (.found target)) :
    Model.lookupComponent fs' fuel vnode component = some (.found target) := by
  rw [Model.lookupComponent] at ends ⊢
  split
  · rename_i same
    rwa [if_pos same] at ends
  rename_i notDot
  rw [if_neg notDot] at ends
  split
  · rename_i same
    rw [if_pos same] at ends
    rwa [kept.lookupParent closed start]
  rename_i notDotDot
  rw [if_neg notDotDot] at ends
  rw [kept.vnode start]
  cases vOps : (fs.vnodes vnode).vOps with
  | none =>
    rw [vOps] at ends
    exact ends
  | some ops =>
    rw [vOps] at ends
    simp only at ends ⊢
    split at ends
    · simp at ends
    rename_i next found
    have found' : driverLookup fs vnode component = .found next := by
      cases ops <;> exact found
    have below := closed.child start short found'
    have again : ops.lookup fs' vnode component = .found next := by
      cases ops <;> exact kept.found start cString found'
    rw [again]
    simp only [kept.crossMounts closed below]
    exact ends

theorem lookupLoop (kept : Kept fs fs' known) (closed : Closed fs known) {fuel : ℕ}
    (path : List UInt8) {vnode target : VnodeId} (start : known vnode)
    (cString : (0 : UInt8) ∉ path)
    (ends : Model.lookupLoop fs fuel path vnode = some (.found target)) :
    Model.lookupLoop fs' fuel path vnode = some (.found target) := by
  match path with
  | [] => rwa [lookupLoop_nil] at ends ⊢
  | c :: rest =>
    by_cases same : c = slash
    · rwa [Model.lookupLoop, if_pos same] at ends ⊢
    · have shorter := scanComponent_length_lt rest same
      obtain ⟨head, tail⟩ := scanComponent_subset [] (c :: rest)
      rw [lookupLoop_cons _ _ _ _ same] at ends ⊢
      obtain ⟨middle, component, continued⟩ := Option.bind_eq_some_iff.mp ends
      cases middle with
      | error code => simp [continueWith] at continued
      | found next =>
        have short :=
          scanComponent_length (c :: rest) (show ([] : List UInt8).length < maxName by decide)
        have here := kept.lookupComponent closed start short
          (fun member => cString (by simpa using head member)) component
        rw [here]
        exact kept.lookupLoop closed _ (closed.lookupComponent start short component)
          (fun member => cString (tail (skipSlashes_subset _ member))) continued
termination_by path.length
decreasing_by
  exact lt_of_le_of_lt (skipSlashes_length_le _) shorter

/-- A walk that ends at a vnode ends there afterwards. -/
theorem vfsLookupFrom (kept : Kept fs fs' known) (closed : Closed fs known) {fuel : ℕ}
    {path : List UInt8} {base target : VnodeId} (start : known base) (cString : (0 : UInt8) ∉ path)
    (ends : Model.vfsLookupFrom fs fuel base path = some (.found target)) :
    Model.vfsLookupFrom fs' fuel base path = some (.found target) := by
  cases path with
  | nil => simp [Model.vfsLookupFrom] at ends
  | cons c rest =>
    rw [Model.vfsLookupFrom] at ends ⊢
    split
    · rename_i absolute
      rw [if_pos absolute] at ends
      rw [kept.root]
      exact kept.lookupLoop closed _ closed.root
        (fun member => cString (skipSlashes_subset _ member)) ends
    · rename_i relative
      rw [if_neg relative] at ends
      exact kept.lookupLoop closed _ start cString ends

end Kept

/-! ## States without dangling references -/

/-- A walk stays among the known vnodes. A file whose name ran over its type is not one of them, but
no component is long enough to find it. -/
structure Intact (fs : VfsHeap) (known : VnodeId → Prop) : Prop where
  allocated : ∀ {v}, known v → Allocated fs v
  root : fs.rootfs < fs.mountCount ∧ known fs.root
  child : ∀ {d slot v}, known d → Child fs.toVfs d slot v →
    Allocated fs v ∧ (known v ∨ maxName ≤ (nodeOf fs.toVfs v).cName.length)
  mount : ∀ {v m}, known v → (fs.vnodes v).mount = some m →
    m < fs.mountCount ∧ known (fs.mounts m).root
  active : ∀ {m}, m ∈ fs.activeMounts → m < fs.mountCount ∧ known (fs.mounts m).mountpoint
  parent : ∀ {v p}, known v → (fs.vnodes v).parent = some p → known p

namespace Intact

variable {fs t : VfsHeap} {known : VnodeId → Prop}

theorem closed (intact : Intact fs known) : Closed fs.toVfs known where
  root := intact.root.2
  child inside short found := by
    obtain ⟨slot, entry, same⟩ := child_of_found found
    obtain inside' | long := (intact.child inside entry).2
    · exact inside'
    · exact absurd (long.trans (length_le_of_strcmp (zero_notMem_cName _) same)) (not_le.mpr short)
  crossed inside mount := (intact.mount inside mount).2
  popped active := (intact.active active).2
  parent inside above := intact.parent inside above

theorem children (intact : Intact fs known) {d : VnodeId} (inside : known d) (slot : Fin maxEntries)
    (v : VnodeId) (entry : Child fs.toVfs d slot v) : Allocated fs v :=
  (intact.child inside entry).1

theorem grown (intact : Intact fs known) (grown : Grown fs t) : Intact t known := by
  have vnode : ∀ {v}, known v → t.vnodes v = fs.vnodes v :=
    fun inside => (grown.nodeOf (intact.allocated inside)).1
  have allocated : ∀ {v}, Allocated fs v → Allocated t v := by
    intro v old
    refine ⟨lt_of_lt_of_le old.1 grown.vnodeCount, ?_⟩
    rw [(grown.nodeOf old).1]
    exact lt_of_lt_of_le old.2 grown.nodeCount
  refine ⟨fun inside => allocated (intact.allocated inside), ?_, fun inside entry => ?_,
    fun inside mount => ?_, fun active => ?_, fun inside above => ?_⟩
  · rw [Vfs.root, grown.rootfs, grown.mounts]
    exact ⟨lt_of_lt_of_le intact.root.1 grown.mountCount, intact.root.2⟩
  · rw [Child, (grown.nodeOf (intact.allocated inside)).2] at entry
    obtain ⟨old, either⟩ := intact.child inside entry
    rw [(grown.nodeOf old).2]
    exact ⟨allocated old, either⟩
  · rw [vnode inside] at mount
    rw [grown.mounts]
    exact (intact.mount inside mount).imp_left fun bound => lt_of_lt_of_le bound grown.mountCount
  · rw [grown.activeMounts] at active
    rw [grown.mounts]
    exact (intact.active active).imp_left fun bound => lt_of_lt_of_le bound grown.mountCount
  · rw [vnode inside] at above
    exact intact.parent inside above

theorem inserted (intact : Intact fs known) {type : VnodeType} {dir : VnodeId} {name : List UInt8}
    {slot : Fin maxEntries} (inside : known dir) (cString : (0 : UInt8) ∉ name.take tmpfsMaxName)
    (inserted : Inserted fs t type dir name slot) :
    Intact t fun v => known v ∨ v = fs.vnodeCount ∧ name.length < tmpfsMaxName := by
  have dirAllocated := intact.allocated inside
  have vnode : ∀ {v}, known v → t.vnodes v = fs.vnodes v :=
    fun inside => inserted.vnode_of_lt (intact.allocated inside).1
  have allocated : ∀ {v}, Allocated fs v → Allocated t v := by
    intro v old
    rw [Allocated, inserted.vnodeCount, inserted.nodeCount, inserted.vnode_of_lt old.1]
    exact ⟨Nat.lt_succ_of_lt old.1, Nat.lt_succ_of_lt old.2⟩
  have newAllocated : Allocated t fs.vnodeCount := by
    rw [Allocated, inserted.vnodeCount, inserted.nodeCount, inserted.newVnode]
    exact ⟨Nat.lt_succ_self _, Nat.lt_succ_self _⟩
  refine ⟨?_, ?_, ?_, ?_, fun active => ?_, ?_⟩
  · rintro v (old | ⟨rfl, -⟩)
    · exact allocated (intact.allocated old)
    · exact newAllocated
  · rw [Vfs.root, inserted.rootfs, inserted.mounts, inserted.mountCount]
    exact ⟨intact.root.1, .inl intact.root.2⟩
  · rintro d other v (old | ⟨rfl, fits⟩) entry
    · obtain before | ⟨-, -, rfl⟩ := (inserted.child_iff (intact.allocated old)).mp entry
      · obtain ⟨oldV, either⟩ := intact.child old before
        rw [(inserted.kept oldV).2]
        exact ⟨allocated oldV, either.imp_left .inl⟩
      · refine ⟨newAllocated, ?_⟩
        by_cases fits : name.length < tmpfsMaxName
        · exact .inl (.inr ⟨rfl, fits⟩)
        · obtain ⟨contents, -, -, node⟩ := inserted.newNode dirAllocated
          right
          rw [node, (cName_writeName_long (not_lt.mp fits) cString).1, List.length_take]
          exact le_min (by decide) (not_lt.mp fits)
    · exfalso
      cases type with
      | dir =>
        have present := entry.2
        rw [inserted.newNode_empty dirAllocated] at present
        simp at present
      | file =>
        have whole : (0 : UInt8) ∉ name := List.take_of_length_le (le_of_lt fits) ▸ cString
        have kind := entry.1
        rw [(inserted.newNode_fits dirAllocated fits whole).2] at kind
        simp at kind
  · rintro v m (old | ⟨rfl, -⟩) mount
    · rw [vnode old] at mount
      rw [inserted.mounts, inserted.mountCount]
      exact (intact.mount old mount).imp_right .inl
    · rw [inserted.newVnode] at mount
      simp at mount
  · rw [inserted.activeMounts] at active
    rw [inserted.mounts, inserted.mountCount]
    exact (intact.active active).imp_right .inl
  · rintro v p (old | ⟨rfl, -⟩) above
    · rw [vnode old] at above
      exact .inl (intact.parent old above)
    · rw [inserted.newVnode] at above
      exact .inl (Option.some.inj above ▸ inside)

theorem mounted {made : VfsHeap} (intact : Intact fs known) {root mountpoint : VnodeId}
    (inside : known mountpoint)
    (setup : RootMade { fs with mountCount := fs.mountCount + 1 } made root) :
    Intact (made.link fs.mountCount root mountpoint)
      fun v => known v ∨ fs.vnodeCount ≤ v ∧ v < made.vnodeCount := by
  have entered := Entered.of_setup mountpoint setup
  generalize made.link fs.mountCount root mountpoint = t at entered ⊢
  have number : root = fs.vnodeCount := setup.number
  have grew : fs.vnodeCount < made.vnodeCount := setup.vnodeCount
  have grewNodes : fs.nodeCount < made.nodeCount := setup.nodeCount
  have oldVnode : ∀ v < fs.vnodeCount, made.vnodes v = fs.vnodes v := setup.vnodes
  have oldNode : ∀ {v}, Allocated fs v → nodeOf made.toVfs v = nodeOf fs.toVfs v := by
    intro v old
    rw [nodeOf, oldVnode v old.1, setup.nodes _ old.2]
    rfl
  have allocated : ∀ {v}, Allocated fs v → Allocated t v := by
    intro v old
    rw [Allocated, entered.vnodeCount, entered.nodeCount, entered.internal, oldVnode v old.1]
    exact ⟨old.1.trans grew, old.2.trans grewNodes⟩
  have newAllocated : ∀ {v}, fs.vnodeCount ≤ v → v < made.vnodeCount → Allocated t v := by
    intro v low high
    rw [Allocated, entered.vnodeCount, entered.nodeCount, entered.internal]
    exact ⟨high, (setup.new v low high).2.2.2⟩
  refine ⟨?_, ?_, ?_, ?_, fun active => ?_, ?_⟩
  · rintro v (old | ⟨low, high⟩)
    · exact allocated (intact.allocated old)
    · exact newAllocated low high
  · rw [Vfs.root, entered.rootfs, entered.oldMount _ intact.root.1, entered.mountCount]
    exact ⟨Nat.lt_succ_of_lt intact.root.1, .inl intact.root.2⟩
  · rintro d slot v (old | ⟨low, high⟩) entry
    · rw [Child, entered.node, oldNode (intact.allocated old)] at entry
      obtain ⟨oldV, either⟩ := intact.child old entry
      rw [entered.node, oldNode oldV]
      exact ⟨allocated oldV, either.imp_left .inl⟩
    · rw [Child, entered.node] at entry
      obtain ⟨-, above, bound⟩ := setup.child d low high slot v entry
      have newV : fs.vnodeCount ≤ v := le_of_lt (number ▸ above)
      exact ⟨newAllocated newV bound, .inl (.inr ⟨newV, bound⟩)⟩
  · intro v m either mount
    obtain ⟨-, rfl⟩ | before := entered.mount_cases mount
    · rw [entered.newMount, entered.mountCount]
      exact ⟨Nat.lt_succ_self _, .inr ⟨le_of_eq number.symm, number ▸ grew⟩⟩
    · obtain old | ⟨low, high⟩ := either
      · rw [oldVnode v (intact.allocated old).1] at before
        obtain ⟨bound, inside⟩ := intact.mount old before
        rw [entered.oldMount m bound, entered.mountCount]
        exact ⟨Nat.lt_succ_of_lt bound, .inl inside⟩
      · rw [(setup.new v low high).1] at before
        simp at before
  · rename_i m
    rw [entered.mountCount]
    obtain old | rfl := entered.active_cases active
    · obtain ⟨bound, point⟩ := intact.active old
      rw [entered.oldMount m bound]
      exact ⟨Nat.lt_succ_of_lt bound, .inl point⟩
    · rw [entered.newMount]
      exact ⟨Nat.lt_succ_self _, .inl inside⟩
  · rintro v p (old | ⟨low, high⟩) above
    · rw [entered.parent, oldVnode v (intact.allocated old).1] at above
      exact .inl (intact.parent old above)
    · rw [entered.parent, (setup.new v low high).2.1] at above
      rw [← Option.some.inj above, number]
      exact .inr ⟨le_refl _, grew⟩

end Intact

/-! ## The last step -/

section

variable {fs t : VfsHeap} {known : VnodeId → Prop} {type : VnodeType}
  {dir : VnodeId} {name : List UInt8}
  {slot : Fin maxEntries}

/-- A creation with a name that fits disturbs no walk. -/
theorem kept_of_inserted (intact : Intact fs known) (inside : known dir)
    (inserted : Inserted fs t type dir name slot) (fits : name.length < tmpfsMaxName)
    (cString : (0 : UInt8) ∉ name) : Kept fs.toVfs t.toVfs known where
  root := by rw [Vfs.root, inserted.rootfs, inserted.mounts, Vfs.root]
  mounts := inserted.mounts
  activeMounts := inserted.activeMounts
  vnode old := inserted.vnode_of_lt (intact.allocated old).1
  found {d c child} old nonzero found := by
    rw [← found]
    apply inserted.lookup_other (intact.allocated old) (intact.children old)
    intro shared
    rw [(inserted.newNode_fits (intact.allocated inside) fits cString).1, Ne,
      strcmp_eq_zero_iff cString nonzero]
    rintro rfl
    -- the name was free in the directory
    have there : driverLookup fs.toVfs dir name = .found child := by
      rw [← found, driverLookup, driverLookup, shared]
    rw [inserted.missing] at there
    simp at there

/-- The names a walk treats itself. -/
def Special (name : List UInt8) : Prop := name = [] ∨ name = [dot] ∨ name = [dot, dot]

instance (name : List UInt8) : Decidable (Special name) := inferInstanceAs (Decidable (_ ∨ _ ∨ _))

theorem Special.noSlash {name : List UInt8} (special : Special name) : slash ∉ name := by
  obtain rfl | rfl | rfl := special <;> decide

theorem Special.take {name : List UInt8} (special : Special (name.take (maxName - 1))) :
    Special name := by
  have whole : name.take (maxName - 1) = name := by
    apply List.take_of_length_le
    by_contra long
    have length : (name.take (maxName - 1)).length = maxName - 1 := by
      rw [List.length_take]
      exact min_eq_left (le_of_lt (not_le.mp long))
    obtain same | same | same := special <;> rw [same] at length <;> simp [maxName] at length
  rwa [whole] at special

/-- A special name stays among the known vnodes, and it is never missing. -/
theorem Special.walk {fs fs' : Vfs} (kept : Kept fs fs' known) (closed : Closed fs known) {fuel : ℕ}
    {v : VnodeId} (inside : known v) (special : Special name) {outcome : Outcome}
    (ends : lookupLoop fs' fuel name v = some outcome) : ∃ x, outcome = .found x ∧ known x := by
  rw [lookupLoop_component fs' fuel v special.noSlash] at ends
  obtain rfl | rfl | rfl := special
  · exact ⟨v, (Option.some.inj ends).symm, inside⟩
  · exact ⟨v, (Option.some.inj ends).symm, inside⟩
  · obtain ⟨x, parent, same⟩ := Option.map_eq_some_iff.mp
      (show (lookupParent fs' fuel v).map Outcome.found = some outcome from ends)
    rw [kept.lookupParent closed inside] at parent
    exact ⟨x, same.symm, closed.lookupParent inside parent⟩

/-- The walk finds the new vnode in its directory. -/
private theorem walk_created (intact : Intact fs known) (inside : known dir)
    (tmpfs : (fs.vnodes dir).vOps = some .tmpfs) (inserted : Inserted fs t type dir name slot)
    (fits : name.length < tmpfsMaxName) (cString : (0 : UInt8) ∉ name)
    (plain : ¬ Special name) (fuel : ℕ) :
    lookupComponent t.toVfs (fuel + 1) dir name = some (.found fs.vnodeCount) := by
  have notDot : strcmp name [dot] ≠ 0 := by
    rw [Ne, strcmp_eq_zero_iff cString (by decide)]
    exact fun same => plain (.inr (.inl same))
  have notDotDot : strcmp name [dot, dot] ≠ 0 := by
    rw [Ne, strcmp_eq_zero_iff cString (by decide)]
    exact fun same => plain (.inr (.inr same))
  have found : VnodeOps.lookup .tmpfs t.toVfs dir name = .found fs.vnodeCount :=
    inserted.lookup_new (intact.allocated inside) (intact.children inside) fits cString
  have here : (t.vnodes dir).vOps = some .tmpfs := by
    rw [inserted.vnode_of_lt (intact.allocated inside).1]
    exact tmpfs
  rw [lookupComponent, if_neg notDot, if_neg notDotDot, here]
  simp only [found, crossMounts, inserted.newVnode, Option.map_some]

end

/-! ## Creating and looking up -/

/-- The condition on the text under which both sides read the same name. -/
def Fits (path : List UInt8) : Prop := slash ∈ path ∨ path.length < maxName

instance (path : List UInt8) : Decidable (Fits path) := inferInstanceAs (Decidable (_ ∨ _))

theorem resolveParent_cases {fs : VfsHeap} {fuel : ℕ} {base parent : VnodeId}
    {path behind name : List UInt8}
    (resolved : resolveParent fs fuel base path behind = some (.found parent, name)) :
    (lastSlash path = none ∧ parent = base ∧ name = plainName path behind) ∨
    ∃ i, lastSlash path = some i ∧
      vfsLookupFrom fs.toVfs fuel base (parentPath path i) = some (.found parent) ∧
      name = fileName path i := by
  rw [resolveParent] at resolved
  split at resolved
  · rename_i last
    obtain ⟨found, rfl⟩ := Prod.mk.inj (Option.some.inj resolved)
    exact .inl ⟨last, (Outcome.found.inj found).symm, rfl⟩
  · rename_i i last
    split at resolved
    · obtain ⟨outcome, lookup, same⟩ := Option.map_eq_some_iff.mp resolved
      obtain ⟨rfl, rfl⟩ := Prod.mk.inj same
      exact .inr ⟨i, last, lookup, rfl⟩
    · simp at resolved

theorem known_parent {fs : VfsHeap} {known : VnodeId → Prop} (intact : Intact fs known) {fuel : ℕ}
    {base parent : VnodeId} {path behind name : List UInt8} (inside : known base)
    (resolved : resolveParent fs fuel base path behind = some (.found parent, name)) :
    known parent := by
  obtain ⟨-, rfl, -⟩ | ⟨i, -, walk, -⟩ := resolveParent_cases resolved
  · exact inside
  · exact intact.closed.vfsLookupFrom inside walk

theorem parentPath_cString {path : List UInt8} (cString : (0 : UInt8) ∉ path) (i : ℕ) :
    (0 : UInt8) ∉ parentPath path i := by
  rw [parentPath]
  split
  · exact fun member => cString (List.mem_of_mem_take member)
  · decide

/-- The created name is the last component, as far as a walk reads it. -/
theorem name_of_fits {fs : VfsHeap} {fuel : ℕ} {base parent : VnodeId}
    {path behind name : List UInt8} (cString : (0 : UInt8) ∉ path) (fits : Fits path)
    (resolved : resolveParent fs fuel base path behind = some (.found parent, name)) :
    name = (lastComponent path).take (maxName - 1) ∧
    name.length < tmpfsMaxName ∧ (0 : UInt8) ∉ name := by
  obtain ⟨last, -, rfl⟩ | ⟨i, last, -, rfl⟩ := resolveParent_cases resolved
  · have short : path.length < maxName := fits.resolve_left (slash_notMem last)
    rw [plainName, if_pos short, lastComponent, last]
    exact ⟨(List.take_of_length_le (Nat.le_pred_of_lt short)).symm, short, cString⟩
  · rw [fileName, lastComponent, last]
    refine ⟨rfl, ?_, fun member => cString (List.mem_of_mem_drop (List.mem_of_mem_take member))⟩
    rw [List.length_take]
    exact lt_of_le_of_lt (min_le_left _ _) (by decide)

/-- A plain name that is too long keeps a byte more than a component does. -/
theorem plainName_long {path : List UInt8} (behind : List UInt8) (long : maxName ≤ path.length) :
    (plainName path behind).take tmpfsMaxName = path.take tmpfsMaxName ∧
      ¬ (plainName path behind).length < tmpfsMaxName := by
  have length : (path.take maxName).length = maxName := by
    rw [List.length_take]
    exact min_eq_left long
  rw [plainName, if_neg (not_lt.mpr long)]
  refine ⟨List.take_left' length, ?_⟩
  rw [List.length_append, length, not_lt]
  exact Nat.le_add_right _ _

/-- A path leads to the vnode that was just created along it exactly when its last component is no
special name and both sides read the same name. -/
theorem created_returned_iff {fs t : VfsHeap} {known : VnodeId → Prop} (intact : Intact fs known)
    {type : VnodeType} {fuel : ℕ} {base parent : VnodeId} {path behind name : List UInt8}
    {slot : Fin maxEntries} (inside : known base) (cString : (0 : UInt8) ∉ path)
    (resolved : resolveParent fs fuel base path behind = some (.found parent, name))
    (tmpfs : (fs.vnodes parent).vOps = some .tmpfs)
    (inserted : Inserted fs t type parent name slot) :
    Returns t.toVfs base path (.found fs.vnodeCount) ↔
    ¬ Special (lastComponent path) ∧ Fits path := by
  have parentInside := known_parent intact inside resolved
  have fresh : ¬ known fs.vnodeCount := fun old => lt_irrefl _ (intact.allocated old).1
  by_cases fits : Fits path
  · obtain ⟨named, short, nameCString⟩ := name_of_fits cString fits resolved
    have kept := kept_of_inserted intact parentInside inserted short nameCString
    rw [and_iff_left fits]
    constructor
    · rintro ⟨n, walk⟩ special
      obtain ⟨last, rfl, -⟩ | ⟨i, last, toParent, -⟩ := resolveParent_cases resolved
      · have whole : lastComponent path = path := by rw [lastComponent, last]
        rw [whole] at special
        cases path with
        | nil => simp [vfsLookupFrom] at walk
        | cons c rest =>
          have relative : (c :: rest).head? ≠ some slash :=
            fun head => slash_notMem last (List.mem_of_mem_head? head)
          rw [vfsLookupFrom_relative _ _ _ (List.cons_ne_nil c rest) relative] at walk
          obtain ⟨x, same, old⟩ := special.walk kept intact.closed inside walk
          obtain rfl := Outcome.found.inj same
          exact fresh old
      · have behindSlash : lastComponent path = path.drop (i + 1) := by rw [lastComponent, last]
        rw [behindSlash] at special
        rw [vfsLookupFrom_split _ _ _ last] at walk
        obtain ⟨middle, first, rest⟩ := Option.bind_eq_some_iff.mp walk
        have again :=
          kept.vfsLookupFrom intact.closed inside (parentPath_cString cString i) toParent
        obtain rfl := Returns.unique ⟨n, first⟩ ⟨fuel, again⟩
        obtain ⟨x, same, old⟩ := special.walk kept intact.closed parentInside rest
        obtain rfl := Outcome.found.inj same
        exact fresh old
    · intro plain
      have plainName : ¬ Special name := fun special => plain (named ▸ special).take
      have nonempty : lastComponent path ≠ [] := fun empty => plain (.inl empty)
      have found := walk_created intact parentInside tmpfs inserted short nameCString plainName fuel
      refine ⟨fuel + 1, ?_⟩
      obtain ⟨last, rfl, -⟩ | ⟨i, last, toParent, -⟩ := resolveParent_cases resolved
      · have whole : lastComponent path = path := by rw [lastComponent, last]
        rw [whole] at named nonempty
        rw [vfsLookupFrom_component _ _ _ nonempty (slash_notMem last), ← named]
        exact found
      · have behindSlash : lastComponent path = path.drop (i + 1) := by rw [lastComponent, last]
        rw [behindSlash] at named nonempty
        have again := kept.vfsLookupFrom intact.closed inside (parentPath_cString cString i)
          (vfsLookupFrom_mono _ (Nat.le_succ fuel) toParent)
        rw [vfsLookupFrom_split _ _ _ last, again, Option.bind_some, continueWith,
          lookupLoop_component _ _ _ (path_split last).2, if_neg nonempty, ← named]
        exact found
  · -- a long name without a slash is stored with a byte that no component has room for
    rw [iff_false_right fun both => fits both.2]
    rintro ⟨n, walk⟩
    obtain ⟨noSlash, long⟩ := not_or.mp fits
    obtain ⟨-, -, rfl⟩ | ⟨i, last, -, -⟩ := resolveParent_cases resolved
    · obtain ⟨start, tooLong⟩ := plainName_long behind (not_lt.mp long)
      have after := intact.inserted parentInside
        (by rw [start]; exact fun member => cString (List.mem_of_mem_take member)) inserted
      obtain old | ⟨-, short⟩ := after.closed.vfsLookupFrom (.inl inside) walk
      · exact fresh old
      · exact tooLong short
    · exact noSlash (slash_mem last)

/-! ## Sessions -/

/-- The tables and the working directory of each task. -/
structure Session where
  heap : VfsHeap
  cwd : ℕ → VnodeId

/-- A call by a task, with the fuel of its lookups, or the start of a task in the root directory or
in its parent's working directory. -/
inductive Action where
  | openFile (fuel task : ℕ) (pathname : List UInt8) (flags : BitVec 32)
      (behind : List UInt8) (grants : Grants)
  | mkdir (fuel task : ℕ) (pathname behind : List UInt8) (grants : Grants)
  | mount (fuel task : ℕ) (target filesystem : List UInt8) (cpio : List CpioFile) (grants : Grants)
  | chdir (fuel task : ℕ) (pathname : List UInt8)
  | create (task : ℕ)
  | fork (parent child : ℕ)

/-- The names that are created are C strings. -/
def Action.Valid : Action → Prop
  | .openFile _ _ pathname _ _ _ => (0 : UInt8) ∉ pathname
  | .mkdir _ _ pathname _ _ => (0 : UInt8) ∉ pathname
  | _ => True

/-- The state after a call, whatever it returns. -/
def Session.step (s : Session) : Action → Option Session
  | .openFile fuel task pathname flags behind grants =>
    (vfsOpen s.heap fuel (s.cwd task) pathname flags behind grants).map fun (_, fs) =>
      { s with heap := fs }
  | .mkdir fuel task pathname behind grants =>
    (vfsMkdir s.heap fuel (s.cwd task) pathname behind grants).map fun (_, fs) =>
      { s with heap := fs }
  | .mount fuel task target filesystem cpio grants =>
    (vfsMount s.heap fuel (s.cwd task) target filesystem cpio grants).map fun (_, fs) =>
      { s with heap := fs }
  | .chdir fuel task pathname =>
    (vfsChdir s.heap.toVfs fuel (s.cwd task) pathname).map fun (_, cwd) =>
      { s with cwd := Function.update s.cwd task cwd }
  | .create task => some { s with cwd := Function.update s.cwd task s.heap.root }
  | .fork parent child => some { s with cwd := Function.update s.cwd child (s.cwd parent) }

def sessions : System Session Action := ⟨fun s action t => action.Valid ∧ s.step action = some t⟩

def boot (memory : Vfs) : Session := ⟨bootVfs memory, fun _ => (bootVfs memory).root⟩

/-- No walk from a working directory meets a dangling reference. -/
def Session.Intact (s : Session) : Prop :=
  ∃ known, PathCreation.Intact s.heap known ∧ ∀ task, known (s.cwd task)

theorem boot_intact (memory : Vfs) : (boot memory).Intact := by
  have mounted := (boot_mounted memory).1
  refine ⟨(· < (bootVfs memory).vnodeCount), ?_, fun _ => mounted.closed.root⟩
  refine ⟨mounted.allocated, ⟨?_, mounted.closed.root⟩, fun {d slot v} inside entry => ?_,
    fun {v m} inside mount => ?_, fun {m} active => ?_,
    fun {v p} inside above => mounted.parent v inside p above⟩
  · change (bootVfs memory).rootfs < (bootVfs memory).mountCount
    rw [mounted.rootfs.1]
    exact mounted.rootfs.2
  · have inside' := (mounted.child d inside slot v entry).1
    exact ⟨mounted.allocated inside', .inl inside'⟩
  · have bound := (mounted.covered v inside m mount).1
    exact ⟨bound, (mounted.ends m bound).1⟩
  · have bound := mounted.active m active
    exact ⟨bound, (mounted.ends m bound).2⟩

/-- The name that is stored begins with bytes of the path. -/
theorem name_cString {fs : VfsHeap} {fuel : ℕ} {base parent : VnodeId}
    {path behind name : List UInt8} (cString : (0 : UInt8) ∉ path)
    (resolved : resolveParent fs fuel base path behind = some (.found parent, name)) :
    (0 : UInt8) ∉ name.take tmpfsMaxName := by
  by_cases fits : Fits path
  · exact fun member => (name_of_fits cString fits resolved).2.2 (List.mem_of_mem_take member)
  · obtain ⟨noSlash, long⟩ := not_or.mp fits
    obtain ⟨-, -, rfl⟩ | ⟨i, last, -, -⟩ := resolveParent_cases resolved
    · rw [(plainName_long behind (not_lt.mp long)).1]
      exact fun member => cString (List.mem_of_mem_take member)
    · exact absurd (slash_mem last) noSlash

/-- What `vfs_open` can do to the tables. -/
theorem vfsOpen_cases {fs t : VfsHeap} {fuel : ℕ} {base : VnodeId} {path behind : List UInt8}
    {flags : BitVec 32} {grants : Grants} {opened : Opened}
    (result : vfsOpen fs fuel base path flags behind grants = some (opened, t)) : (Grown fs t ∧
      ((∃ v, vfsLookupFrom fs.toVfs fuel base path = some (.found v)) ∨ opened = .error (-1))) ∨
    ∃ parent name slot, resolveParent fs fuel base path behind = some (.found parent, name) ∧
      (fs.vnodes parent).vOps = some .tmpfs ∧ Inserted fs t .file parent name slot ∧
      ∀ file, opened = .handle file → file.vnode = fs.vnodeCount := by
  have ends : ∀ {u : VfsHeap} {v : VnodeId}, openFound u v flags grants = (opened, t) →
      u = t ∧ ∀ file, opened = .handle file → file.vnode = v := by
    intro u v same
    rw [openFound] at same
    split at same
    · obtain ⟨rfl, rfl⟩ := Prod.mk.inj same
      exact ⟨rfl, fun file isHandle => by simp at isHandle⟩
    · obtain ⟨rfl, rfl⟩ := Prod.mk.inj same
      exact ⟨rfl, fun file isHandle => (Opened.handle.inj isHandle) ▸ rfl⟩
  rw [vfsOpen] at result
  obtain ⟨outcome, lookup, result⟩ := Option.bind_eq_some_iff.mp result
  cases outcome with
  | found v =>
    obtain ⟨rfl, -⟩ := ends (Option.some.inj result)
    exact .inl ⟨.refl fs, .inl ⟨v, lookup⟩⟩
  | error code =>
    simp only at result
    split at result
    · obtain ⟨⟨created, u⟩, made, result⟩ := Option.map_eq_some_iff.mp result
      rw [createAt] at made
      obtain ⟨rfl, grown⟩ | ⟨parent, name, slot, resolved, ops, rfl, inserted⟩ :=
        insertAt_cases
          (show VnodeOps.create .tmpfs = some (tmpfsInsert .file) from rfl) rfl rfl made
      · obtain ⟨rfl, rfl⟩ := Prod.mk.inj result
        exact .inl ⟨grown, .inr rfl⟩
      · obtain ⟨rfl, vnode⟩ := ends result
        exact .inr ⟨parent, name, slot, resolved, ops, inserted, vnode⟩
    · obtain ⟨rfl, rfl⟩ := Prod.mk.inj (Option.some.inj result)
      rw [vfsLookupFrom_code lookup]
      exact .inl ⟨.refl fs, .inr rfl⟩

/-- What a call can do: add nothing that is in use yet and at most change a working directory, put a
new vnode into a directory, or mount a new file system. -/
theorem Session.step_cases {s t : Session} {action : Action} {known : VnodeId → Prop}
    (heap : PathCreation.Intact s.heap known) (inside : ∀ task, known (s.cwd task))
    (step : sessions.Step s action t) : (Grown s.heap t.heap ∧ ∀ task, known (t.cwd task)) ∨
    (t.cwd = s.cwd ∧ ∃ type parent name slot, known parent ∧ (0 : UInt8) ∉ name.take tmpfsMaxName ∧
      Inserted s.heap t.heap type parent name slot) ∨
    (t.cwd = s.cwd ∧ ∃ mountpoint root made, known mountpoint ∧
      RootMade { s.heap with mountCount := s.heap.mountCount + 1 } made root ∧
      t.heap = made.link s.heap.mountCount root mountpoint) := by
  obtain ⟨valid, result⟩ := step
  cases action with
  | openFile fuel task pathname flags behind grants =>
    obtain ⟨⟨opened, fs⟩, ran, rfl⟩ := Option.map_eq_some_iff.mp result
    obtain ⟨grown, -⟩ | ⟨parent, name, slot, resolved, -, inserted, -⟩ := vfsOpen_cases ran
    · exact .inl ⟨grown, inside⟩
    · exact .inr (.inl ⟨rfl, .file, parent, name, slot, known_parent heap (inside task) resolved,
        name_cString valid resolved, inserted⟩)
  | mkdir fuel task pathname behind grants =>
    obtain ⟨⟨outcome, fs⟩, ran, rfl⟩ := Option.map_eq_some_iff.mp result
    obtain ⟨-, grown⟩ | ⟨parent, name, slot, resolved, -, -, inserted⟩ :=
      insertAt_cases (show VnodeOps.mkdir .tmpfs = some (tmpfsInsert .dir) from rfl) rfl rfl ran
    · exact .inl ⟨grown, inside⟩
    · exact .inr (.inl ⟨rfl, .dir, parent, name, slot, known_parent heap (inside task) resolved,
        name_cString valid resolved, inserted⟩)
  | mount fuel task target filesystem cpio grants =>
    obtain ⟨⟨code, fs⟩, ran, rfl⟩ := Option.map_eq_some_iff.mp result
    obtain ⟨-, grown⟩ | ⟨mountpoint, root, made, -, lookup, setup, same⟩ := vfsMount_cases ran
    · exact .inl ⟨grown, inside⟩
    · exact .inr (.inr ⟨rfl, mountpoint, root, made,
        heap.closed.vfsLookupFrom (inside task) lookup, setup, same⟩)
  | chdir fuel task pathname =>
    obtain ⟨⟨code, cwd⟩, ran, rfl⟩ := Option.map_eq_some_iff.mp result
    refine .inl ⟨.refl s.heap,
      (Function.forall_update_iff s.cwd fun _ v => known v).mpr ⟨?_, fun other _ => inside other⟩⟩
    rw [vfsChdir] at ran
    obtain ⟨outcome, lookup, same⟩ := Option.map_eq_some_iff.mp ran
    cases outcome with
    | error code' => exact (Prod.mk.inj same).2 ▸ inside task
    | found target =>
      simp only at same
      split at same
      · exact (Prod.mk.inj same).2 ▸ inside task
      · exact (Prod.mk.inj same).2 ▸ heap.closed.vfsLookupFrom (inside task) lookup
  | create task =>
    obtain rfl := Option.some.inj result
    exact .inl ⟨.refl s.heap,
      (Function.forall_update_iff s.cwd fun _ v => known v).mpr
      ⟨heap.root.2, fun other _ => inside other⟩⟩
  | fork parent child =>
    obtain rfl := Option.some.inj result
    exact .inl ⟨.refl s.heap,
      (Function.forall_update_iff s.cwd fun _ v => known v).mpr
      ⟨inside parent, fun other _ => inside other⟩⟩

theorem Session.Intact.step {s t : Session} {action : Action} (intact : s.Intact)
    (step : sessions.Step s action t) :
    t.Intact := by
  obtain ⟨known, heap, inside⟩ := intact
  obtain ⟨grown, moved⟩ | ⟨cwd, type, parent, name, slot, knownParent, cString, inserted⟩ |
    ⟨cwd, mountpoint, root, made, knownPoint, setup, same⟩ := Session.step_cases heap inside step
  · exact ⟨known, heap.grown grown, moved⟩
  · refine ⟨_, heap.inserted knownParent cString inserted, fun task => .inl ?_⟩
    rw [cwd]
    exact inside task
  · refine ⟨fun v => known v ∨ s.heap.vnodeCount ≤ v ∧ v < made.vnodeCount, ?_, fun task => .inl ?_⟩
    · rw [same]
      exact heap.mounted knownPoint setup
    · rw [cwd]
      exact inside task

/-- A following `vfs_open` without flags returns a handle of the vnode, given the memory for it. -/
def Reopens (fs : VfsHeap) (base : VnodeId) (path : List UInt8) (v : VnodeId) : Prop :=
  ∀ behind grants, grants.handle = true →
    ∃ fuel file, vfsOpen fs fuel base path 0#32 behind grants = some (.handle file, fs) ∧
      file.vnode = v

theorem reopens_iff {fs : VfsHeap} {base : VnodeId} {path : List UInt8} {v : VnodeId} :
    Reopens fs base path v ↔ Returns fs.toVfs base path (.found v) := by
  constructor
  · intro reopens
    obtain ⟨fuel, file, result, vnode⟩ := reopens [] ⟨true, true, true, true, true⟩ rfl
    refine ⟨fuel, ?_⟩
    rw [vfsOpen] at result
    obtain ⟨outcome, lookup, opened⟩ := Option.bind_eq_some_iff.mp result
    cases outcome with
    | error code => simp at opened
    | found w =>
      obtain ⟨handle, -⟩ := Prod.mk.inj (Option.some.inj opened)
      obtain rfl := Opened.handle.inj handle
      rw [lookup]
      exact congrArg (some ∘ Outcome.found) vnode
  · rintro ⟨fuel, lookup⟩ behind grants granted
    refine ⟨fuel, openHandle v (fs.vnodes v).fOps (0#32).toInt, ?_, rfl⟩
    rw [vfsOpen, lookup, Option.bind_some]
    simp only [openFound, granted, Bool.true_eq_false, if_false]

/-- When a walk has failed at a path that fits, its last component is a plain name. -/
private theorem plain_of_missing {fs : VfsHeap} {known : VnodeId → Prop} (intact : Intact fs known)
    {fuel : ℕ} {base parent : VnodeId} {path behind name : List UInt8} {code : ℤ}
    (inside : known base) (nonempty : path ≠ [])
    (missing : vfsLookupFrom fs.toVfs fuel base path = some (.error code))
    (resolved : resolveParent fs fuel base path behind = some (.found parent, name)) :
    ¬ Special (lastComponent path) := by
  intro special
  have kept := Kept.refl fs.toVfs known
  obtain ⟨last, rfl, -⟩ | ⟨i, last, toParent, -⟩ := resolveParent_cases resolved
  · have whole : lastComponent path = path := by rw [lastComponent, last]
    rw [whole] at special
    rw [vfsLookupFrom_relative _ _ _ nonempty fun head =>
      slash_notMem last (List.mem_of_mem_head? head)] at missing
    obtain ⟨x, same, -⟩ := special.walk kept intact.closed inside missing
    simp at same
  · have behindSlash : lastComponent path = path.drop (i + 1) := by rw [lastComponent, last]
    rw [behindSlash] at special
    rw [vfsLookupFrom_split _ _ _ last, toParent, Option.bind_some, continueWith] at missing
    obtain ⟨x, same, -⟩ :=
      special.walk kept intact.closed (known_parent intact inside resolved) missing
    simp at same

/-- In every state that calls of any tasks lead to: the file that `vfs_open` creates is the one the
path opens from then on exactly when the path is not empty and fits, and the directory that
`vfs_mkdir` makes is the one the path leads to exactly when the last component is not special
either. -/
theorem creation_agrees {memory : Vfs} {events : List Action} {s : Session}
    (run : System.Path sessions (boot memory) events s) (task : ℕ) {path : List UInt8}
    (cString : (0 : UInt8) ∉ path) :
    (∀ {fuel flags behind grants code file fs},
      vfsLookupFrom s.heap.toVfs fuel (s.cwd task) path = some (.error code) →
      vfsOpen s.heap fuel (s.cwd task) path flags behind grants = some (.handle file, fs) →
      (Reopens fs (s.cwd task) path file.vnode ↔ path ≠ [] ∧ Fits path)) ∧
    (∀ {fuel behind grants new fs},
      vfsMkdir s.heap fuel (s.cwd task) path behind grants = some (.found new, fs) →
      (Returns fs.toVfs (s.cwd task) path (.found new) ↔
        ¬ Special (lastComponent path) ∧ Fits path)) := by
  obtain ⟨known, intact, directories⟩ :=
    run.invariant (P := Session.Intact) (fun intact step => intact.step step) (boot_intact memory)
  have inside := directories task
  constructor
  · intro fuel flags behind grants code file fs missing opened
    obtain ⟨-, ⟨v, found⟩ | failed⟩ | ⟨parent, name, slot, resolved, ops, inserted, vnode⟩ :=
      vfsOpen_cases opened
    · rw [missing] at found
      simp at found
    · simp at failed
    rw [vnode file rfl, reopens_iff,
      created_returned_iff intact inside cString resolved ops inserted]
    refine and_congr_left fun fits => ⟨fun plain empty => plain (.inl ?_), fun nonempty => ?_⟩
    · rw [empty]
      rfl
    · exact plain_of_missing intact inside nonempty missing resolved
  · intro fuel behind grants new fs made
    obtain ⟨parent, name, slot, resolved, ops, rfl, inserted⟩ := vfsMkdir_cases made
    exact created_returned_iff intact inside cString resolved ops inserted

/-- After `mkdir a`, the file that `open a/b` creates is opened again. -/
theorem creation_agrees_nested :
    ∃ made file fs, vfsMkdir (boot smallTree).heap 1 0 [97] [] ⟨true, true, true, true, true⟩ =
      some (.found 1, made) ∧
      vfsOpen made 1 0 [97, slash, 98] oCreat [] ⟨true, true, true, true, true⟩ =
      some (.handle file, fs) ∧
      Returns made.toVfs 0 [97] (.found 1) ∧ Reopens fs 0 [97, slash, 98] file.vnode := by
  let made := (tmpfsMkdir (boot smallTree).heap 0 [97] ⟨true, true, true, true, true⟩).2
  have first : vfsMkdir (boot smallTree).heap 1 0 [97] [] ⟨true, true, true, true, true⟩ =
      some (.found 1, made) := rfl
  have step : (boot smallTree).step (.mkdir 1 0 [97] [] ⟨true, true, true, true, true⟩) =
      some ⟨made, (boot smallTree).cwd⟩ := rfl
  have run : System.Path sessions (boot smallTree)
      [.mkdir 1 0 [97] [] ⟨true, true, true, true, true⟩]
      ⟨made, (boot smallTree).cwd⟩ := .cons ⟨show (0 : UInt8) ∉ [97] by decide, step⟩ (.nil _)
  have missing : vfsLookupFrom made.toVfs 1 0 [97, slash, 98] =
      some (.error (-1)) := by decide +kernel
  have directory : vfsLookupFrom made.toVfs 1 0 [97] = some (.found 1) := by decide +kernel
  have opened : vfsOpen made 1 0 [97, slash, 98] oCreat [] ⟨true, true, true, true, true⟩ =
      some (openFound (tmpfsCreate made 1 [98] ⟨true, true, true, true, true⟩).2 2 oCreat
        ⟨true, true, true, true, true⟩) := by
    rw [vfsOpen, missing]
    change (Option.map _ ((Option.map _ (vfsLookupFrom made.toVfs 1 0 [97])).map _)) = _
    rw [directory]
    rfl
  refine ⟨made, _, _, first, opened, ⟨1, directory⟩, ?_⟩
  exact ((creation_agrees run 0 (by decide)).1 missing opened).mpr ⟨by decide, .inl (by decide)⟩

/-- A plain name of sixteen bytes creates a file that no open finds, and `mkdir .` a directory that
no lookup finds. -/
theorem creation_agrees_longName :
    (∃ file fs, vfsOpen (boot smallTree).heap 1 0 (List.replicate 16 97) oCreat []
      ⟨true, true, true, true, true⟩ =
        some (.handle file, fs) ∧ ¬ Reopens fs 0 (List.replicate 16 97) file.vnode) ∧
    ∃ new fs, vfsMkdir (boot smallTree).heap 1 0 [dot] [] ⟨true, true, true, true, true⟩ =
      some (.found new, fs) ∧
      ¬ Returns fs.toVfs 0 [dot] (.found new) := by
  have missing : vfsLookupFrom (boot smallTree).heap.toVfs 1 0 (List.replicate 16 97) =
      some (.error (-1)) := by
    decide +kernel
  let named :=
    (tmpfsCreate (boot smallTree).heap 0 (List.replicate 16 97) ⟨true, true, true, true, true⟩).2
  have opened : vfsOpen (boot smallTree).heap 1 0 (List.replicate 16 97) oCreat []
      ⟨true, true, true, true, true⟩ =
      some (openFound named 1 oCreat ⟨true, true, true, true, true⟩) := by
    rw [vfsOpen, missing]
    rfl
  refine ⟨⟨_, _, opened, fun reopens => ?_⟩,
    ⟨1, (tmpfsMkdir (boot smallTree).heap 0 [dot] ⟨true, true, true, true, true⟩).2, rfl,
      fun returns => ?_⟩⟩
  · have still : Returns named.toVfs 0 (List.replicate 16 97) (.error (-1)) :=
      ⟨1, by decide +kernel⟩
    exact absurd (Returns.unique (reopens_iff.mp reopens) still) (by simp)
  · have itself : Returns
      (tmpfsMkdir (boot smallTree).heap 0 [dot] ⟨true, true, true, true, true⟩).2.toVfs 0 [dot]
        (.found 0) := ⟨1, by decide +kernel⟩
    exact absurd (Returns.unique returns itself) (by simp)

end OscKernel.Soundness.PathCreation
