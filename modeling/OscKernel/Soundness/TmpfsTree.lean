import OscKernel.Lib.System
import OscKernel.Soundness.TreeUpdates
import Mathlib.Data.Set.Card
import Mathlib.Data.Set.Finite.Range

/-! # The tmpfs tree

One instance of tmpfs from `tmpfs_setup_mount` on, through any sequence of `tmpfs_create` and
`tmpfs_mkdir` in its directories. The vnodes below the root are a tree: distinct vnodes have
distinct nodes, so a creation changes the entries of one directory, and what it puts there is new.
-/

namespace OscKernel.Soundness.TmpfsTree

open OscKernel.Lib OscKernel.Model OscKernel.Soundness.TreeUpdates

/-- The vnodes reached from the root through directory slots. -/
inductive Below (fs : Vfs) (root : VnodeId) : VnodeId → Prop
  | root : Below fs root root
  | child {dir vnode : VnodeId} {slot : Fin maxEntries} (parent : Below fs root dir)
      (entry : Child fs dir slot vnode) : Below fs root vnode

/-- The tree invariant. -/
structure Tree (fs : VfsHeap) (root : VnodeId) : Prop where
  allocated : ∀ {v}, Below fs.toVfs root v → Allocated fs v
  ownNode : ∀ {v w}, Below fs.toVfs root v → Below fs.toVfs root w →
    (fs.vnodes v).internal = (fs.vnodes w).internal → v = w
  types : ∀ {v}, Below fs.toVfs root v → (fs.vnodes v).type = (nodeOf fs.toVfs v).type
  parent : ∀ {d slot v}, Below fs.toVfs root d → Child fs.toVfs d slot v →
    (fs.vnodes v).parent = some d
  single : ∀ {d slot slot' v}, Below fs.toVfs root d → Child fs.toVfs d slot v →
    Child fs.toVfs d slot' v → slot = slot'
  rootless : ∀ {d slot}, Below fs.toVfs root d → ¬ Child fs.toVfs d slot root
  names : ∀ {d slot slot' v w}, Below fs.toVfs root d → Child fs.toVfs d slot v →
    Child fs.toVfs d slot' w →
    (nodeOf fs.toVfs v).cName = (nodeOf fs.toVfs w).cName → slot = slot'

/-! ## The empty tree -/

private theorem setup_tree {fs start : VfsHeap} {root : VnodeId} {grants : Grants}
    (setup : tmpfsSetupMount fs grants = (.found root, start)) : Tree start root := by
  have mounted : VnodeOps.tmpfs.setupMount fs [] grants = some (.found root, start) :=
    congrArg some setup
  obtain ⟨rfl, @⟨directory, isDir, empty⟩⟩ := setupMount_cases mounted
  obtain ⟨vnode, node⟩ := withRoot_spec fs .tmpfs (some .tmpfs) directory
  generalize made : withRoot fs .tmpfs (some .tmpfs) directory = start at *
  have leaf : ∀ {slot v}, ¬ Child start.toVfs fs.vnodeCount slot v := by
    rintro slot v ⟨-, entry⟩
    rw [node, empty] at entry
    cases entry
  have only : ∀ {v}, Below start.toVfs fs.vnodeCount v → v = fs.vnodeCount := by
    intro v below
    induction below with
    | root => rfl
    | child _ entry ih =>
      rw [ih] at entry
      exact absurd entry leaf
  have counts : start.vnodeCount = fs.vnodeCount + 1 ∧ start.nodeCount = fs.nodeCount + 1 := by
    rw [← made]
    exact ⟨rfl, rfl⟩
  refine ⟨fun below => ?_, fun first second _ => (only first).trans (only second).symm, fun below =>
    ?_, fun below entry => ?_, fun below entry => ?_, fun below entry => ?_, fun below entry => ?_⟩
  · rw [only below, Allocated, vnode, counts.1, counts.2]
    exact ⟨Nat.lt_succ_self _, Nat.lt_succ_self _⟩
  · rw [only below, vnode, node, isDir]
    rfl
  all_goals
    rw [only below] at entry
    exact absurd entry leaf

/-! ## One call -/

theorem Below.isDir_or {fs : Vfs} {root v : VnodeId} (below : Below fs root v) :
    v = root ∨ ∃ d slot, Below fs root d ∧ Child fs d slot v := by
  cases below with
  | root => exact .inl rfl
  | child parent entry => exact .inr ⟨_, _, parent, entry⟩

section Calls

variable {fs fs' : VfsHeap} {root dir : VnodeId} {type : VnodeType}
  {name : List UInt8} {slot : Fin maxEntries}

theorem Tree.children (tree : Tree fs root) {d : VnodeId} (below : Below fs.toVfs root d)
    (slot : Fin maxEntries) (v : VnodeId) (entry : Child fs.toVfs d slot v) : Allocated fs v :=
  tree.allocated (.child below entry)

/-- A call that creates nothing leaves the tree as it was. -/
theorem Tree.grown_below (tree : Tree fs root) (grown : Grown fs fs') {v : VnodeId} :
    Below fs'.toVfs root v ↔ Below fs.toVfs root v := by
  constructor
  · intro below
    induction below with
    | root => exact .root
    | child _ entry ih =>
      rw [Child, (grown.nodeOf (tree.allocated ih)).2] at entry
      exact .child ih entry
  · intro below
    induction below with
    | root => exact .root
    | child parent entry ih =>
      rw [Child, ← (grown.nodeOf (tree.allocated parent)).2] at entry
      exact .child ih entry

theorem Tree.grown (tree : Tree fs root) (grown : Grown fs fs') : Tree fs' root := by
  have same : ∀ {v}, Below fs'.toVfs root v →
      Below fs.toVfs root v ∧ fs'.vnodes v = fs.vnodes v ∧
      nodeOf fs'.toVfs v = nodeOf fs.toVfs v := by
    intro v below
    have old := (tree.grown_below grown).mp below
    exact ⟨old, grown.nodeOf (tree.allocated old)⟩
  have child : ∀ {d slot v}, Below fs'.toVfs root d → Child fs'.toVfs d slot v →
      Below fs.toVfs root d ∧ Child fs.toVfs d slot v ∧ fs'.vnodes v = fs.vnodes v ∧
        nodeOf fs'.toVfs v = nodeOf fs.toVfs v := by
    intro d slot v below entry
    obtain ⟨old, -, node⟩ := same below
    have vnode := (same (.child below entry)).2
    rw [Child, node] at entry
    exact ⟨old, entry, vnode⟩
  refine ⟨fun below => ?_, fun first second shared => ?_, fun below => ?_, fun below entry => ?_,
    fun below entry entry' => ?_, fun below entry => ?_, fun below entry entry' names => ?_⟩
  · obtain ⟨old, vnode, -⟩ := same below
    obtain ⟨number, node⟩ := tree.allocated old
    exact ⟨lt_of_lt_of_le number
      grown.vnodeCount, by rw [vnode]; exact lt_of_lt_of_le node grown.nodeCount⟩
  · obtain ⟨old, vnode, -⟩ := same first
    obtain ⟨old', vnode', -⟩ := same second
    rw [vnode, vnode'] at shared
    exact tree.ownNode old old' shared
  · obtain ⟨old, vnode, node⟩ := same below
    rw [vnode, node]
    exact tree.types old
  · obtain ⟨old, before, vnode, -⟩ := child below entry
    rw [vnode]
    exact tree.parent old before
  · obtain ⟨old, before, -⟩ := child below entry
    obtain ⟨-, before', -⟩ := child below entry'
    exact tree.single old before before'
  · obtain ⟨old, before, -⟩ := child below entry
    exact tree.rootless old before
  · obtain ⟨old, before, -, node⟩ := child below entry
    obtain ⟨-, before', -, node'⟩ := child below entry'
    rw [node, node'] at names
    exact tree.names old before before' names

/-- After a creation the tree has one vnode more, without children. -/
theorem Tree.inserted_below (tree : Tree fs root) (inserted : Inserted fs fs' type dir name slot)
    (inTree : Below fs.toVfs root dir) (fits : name.length < tmpfsMaxName)
    (cString : (0 : UInt8) ∉ name) {v : VnodeId} :
    Below fs'.toVfs root v ↔ Below fs.toVfs root v ∨ v = fs.vnodeCount := by
  have leaf : ∀ {other w}, ¬ Child fs'.toVfs fs.vnodeCount other w := by
    rintro other w ⟨kind, entry⟩
    rw [(inserted.newNode_fits (tree.allocated inTree) fits cString).2] at kind
    subst kind
    rw [inserted.newNode_empty (tree.allocated inTree)] at entry
    simp at entry
  constructor
  · intro below
    induction below with
    | root => exact .inl .root
    | child _ entry ih =>
      obtain old | rfl := ih
      · obtain before | ⟨-, -, new⟩ := (inserted.child_iff (tree.allocated old)).mp entry
        · exact .inl (.child old before)
        · exact .inr new
      · exact absurd entry leaf
  · intro either
    have keeps : ∀ {w}, Below fs.toVfs root w → Below fs'.toVfs root w := by
      intro w below
      induction below with
      | root => exact .root
      | child parent entry ih =>
        exact .child ih ((inserted.child_iff (tree.allocated parent)).mpr (.inl entry))
    obtain below | rfl := either
    · exact keeps below
    · exact .child (keeps inTree)
        ((inserted.child_iff (tree.allocated inTree)).mpr (.inr ⟨rfl, rfl, rfl⟩))

/-- A child after a creation: an old one, or the new vnode in its slot. -/
theorem Tree.inserted_child (tree : Tree fs root) (inserted : Inserted fs fs' type dir name slot)
    (inTree : Below fs.toVfs root dir) (fits : name.length < tmpfsMaxName)
    (cString : (0 : UInt8) ∉ name) {d : VnodeId} {other : Fin maxEntries} {v : VnodeId}
    (below : Below fs'.toVfs root d) (entry : Child fs'.toVfs d other v) : Below fs.toVfs root d ∧
      (Child fs.toVfs d other v ∨ d = dir ∧ other = slot ∧ v = fs.vnodeCount) := by
  obtain old | rfl := (tree.inserted_below inserted inTree fits cString).mp below
  · obtain before | ⟨shared, rfl, rfl⟩ := (inserted.child_iff (tree.allocated old)).mp entry
    · exact ⟨old, .inl before⟩
    · exact ⟨old, .inr ⟨tree.ownNode old inTree shared, rfl, rfl⟩⟩
  · obtain ⟨kind, present⟩ := entry
    rw [(inserted.newNode_fits (tree.allocated inTree) fits cString).2] at kind
    subst kind
    rw [inserted.newNode_empty (tree.allocated inTree)] at present
    simp at present

theorem Tree.inserted (tree : Tree fs root) (inserted : Inserted fs fs' type dir name slot)
    (inTree : Below fs.toVfs root dir) (fits : name.length < tmpfsMaxName)
    (cString : (0 : UInt8) ∉ name) :
    Tree fs' root := by
  have below' :=
    @Tree.inserted_below fs fs' root dir type name slot tree inserted inTree fits cString
  have newNode := inserted.newNode_fits (tree.allocated inTree) fits cString
  have notNew : ∀ {v}, Below fs.toVfs root v → v ≠ fs.vnodeCount :=
    fun old => Nat.ne_of_lt (tree.allocated old).1
  have vnode : ∀ {v}, Below fs.toVfs root v → fs'.vnodes v = fs.vnodes v :=
    fun old => inserted.vnode_of_lt (tree.allocated old).1
  have child :=
    @Tree.inserted_child fs fs' root dir type name slot tree inserted inTree fits cString
  refine ⟨fun below => ?_, fun first second shared => ?_, fun below => ?_, fun below entry => ?_,
    fun below entry entry' => ?_, fun below entry => ?_, fun below entry entry' names => ?_⟩
  · rw [Allocated, inserted.vnodeCount, inserted.nodeCount]
    obtain old | rfl := below'.mp below
    · obtain ⟨number, node⟩ := tree.allocated old
      exact ⟨Nat.lt_succ_of_lt number, by rw [vnode old]; exact Nat.lt_succ_of_lt node⟩
    · rw [inserted.newVnode]
      exact ⟨Nat.lt_succ_self _, Nat.lt_succ_self _⟩
  · obtain old | rfl := below'.mp first
    · obtain old' | rfl := below'.mp second
      · rw [vnode old, vnode old'] at shared
        exact tree.ownNode old old' shared
      · rw [vnode old, inserted.newVnode] at shared
        exact absurd shared (Nat.ne_of_lt (tree.allocated old).2)
    · obtain old' | rfl := below'.mp second
      · rw [vnode old', inserted.newVnode] at shared
        exact absurd shared.symm (Nat.ne_of_lt (tree.allocated old').2)
      · rfl
  · obtain old | rfl := below'.mp below
    · rw [vnode old, (inserted.kept (tree.allocated old)).1]
      exact tree.types old
    · rw [inserted.newVnode, newNode.2]
  · obtain ⟨old, before | ⟨rfl, -, rfl⟩⟩ := child below entry
    · rw [vnode (.child old before)]
      exact tree.parent old before
    · rw [inserted.newVnode]
  · obtain ⟨old, before | ⟨rfl, rfl, rfl⟩⟩ := child below entry
    · obtain ⟨-, before' | ⟨-, -, new⟩⟩ := child below entry'
      · exact tree.single old before before'
      · exact absurd new (notNew (.child old before))
    · obtain ⟨-, before' | ⟨-, rfl, -⟩⟩ := child below entry'
      · exact absurd rfl (notNew (.child old before'))
      · rfl
  · obtain ⟨old, before | ⟨-, -, new⟩⟩ := child below entry
    · exact tree.rootless old before
    · exact notNew .root new
  · -- the directory had no child with the new name
    have absent : ∀ {other w}, Child fs.toVfs dir other w → (nodeOf fs'.toVfs w).cName ≠ name := by
      intro other w before same
      rw [(inserted.kept (tree.children inTree other w before)).2] at same
      apply not_child_of_error inserted.missing before
      rw [same]
      exact (strcmp_eq_zero_iff cString cString).mpr rfl
    obtain ⟨old, before | ⟨rfl, rfl, rfl⟩⟩ := child below entry
    · obtain ⟨-, before' | ⟨rfl, rfl, rfl⟩⟩ := child below entry'
      · rw [(inserted.kept (tree.children old _ _ before)).2,
          (inserted.kept (tree.children old _ _ before')).2] at names
        exact tree.names old before before' names
      · rw [newNode.1] at names
        exact absurd names (absent before)
    · obtain ⟨-, before' | ⟨-, rfl, -⟩⟩ := child below entry'
      · rw [newNode.1] at names
        exact absurd names.symm (absent before')
      · rfl

end Calls

/-! ## Runs -/

/-- A call of `tmpfs_create` or `tmpfs_mkdir`, by the type of what it makes. -/
structure Call where
  type : VnodeType
  dir : VnodeId
  name : List UInt8
  grants : Grants

def Call.run (call : Call) (fs : VfsHeap) : Outcome × VfsHeap :=
  match call.type with
  | .file => tmpfsCreate fs call.dir call.name call.grants
  | .dir => tmpfsMkdir fs call.dir call.name call.grants

theorem Call.run_eq (call : Call) (fs : VfsHeap) :
    call.run fs = tmpfsInsert call.type fs call.dir call.name call.grants := by
  rw [Call.run]
  split
  · rename_i file
    rw [file, tmpfsCreate]
  · rename_i dir
    rw [dir, tmpfsMkdir]

/-- A call on a vnode of the instance, with a name of at most fifteen characters. -/
structure Call.Valid (call : Call) (fs : VfsHeap) (root : VnodeId) : Prop where
  inTree : Below fs.toVfs root call.dir
  fits : call.name.length ≤ 15
  cString : (0 : UInt8) ∉ call.name

/-- Calls one after the other, whichever of their allocations fail. -/
def calls (root : VnodeId) : System VfsHeap Call :=
  ⟨fun s call t => call.Valid s root ∧ (call.run s).2 = t⟩

theorem Tree.step {root : VnodeId} {s t : VfsHeap} {call : Call} (tree : Tree s root)
    (step : (calls root).Step s call t) : Tree t root := by
  obtain ⟨⟨inTree, fits, cString⟩, rfl⟩ := step
  rw [call.run_eq]
  obtain ⟨t, result, grown⟩ | ⟨t, slot, result, inserted⟩ :=
    tmpfsInsert_cases call.type s call.dir call.name call.grants
  · rw [result]
    exact tree.grown grown
  · rw [result]
    exact tree.inserted inserted inTree (Nat.lt_succ_of_le fits) cString

/-- The shape of the instance: each vnode but the root is in one slot, of its parent. -/
structure Shape (fs : VfsHeap) (root : VnodeId) : Prop where
  oneSlot : ∀ v, Below fs.toVfs root v → v ≠ root → ∃ d slot, Below fs.toVfs root d ∧
    Child fs.toVfs d slot v ∧
    (fs.vnodes v).parent = some d ∧
    ∀ d' slot', Below fs.toVfs root d' → Child fs.toVfs d' slot' v → d' = d ∧ slot' = slot
  rootless : ∀ d slot, Below fs.toVfs root d → ¬ Child fs.toVfs d slot root
  names : ∀ d slot slot' v w, Below fs.toVfs root d → Child fs.toVfs d slot v →
    Child fs.toVfs d slot' w →
    (nodeOf fs.toVfs v).cName = (nodeOf fs.toVfs w).cName → slot = slot'
  types : ∀ v, Below fs.toVfs root v → (fs.vnodes v).type = (nodeOf fs.toVfs v).type
  entries : ∀ d, Below fs.toVfs root d → {v | ∃ slot, Child fs.toVfs d slot v}.ncard ≤ 16

theorem Tree.shape {fs : VfsHeap} {root : VnodeId} (tree : Tree fs root) : Shape fs root where
  oneSlot v below other := by
    obtain rfl | ⟨d, slot, inTree, entry⟩ := below.isDir_or
    · exact absurd rfl other
    refine ⟨d, slot, inTree, entry, tree.parent inTree entry, fun d' slot' inTree' entry' => ?_⟩
    have same := (tree.parent inTree' entry').symm.trans (tree.parent inTree entry)
    obtain rfl := Option.some.inj same
    exact ⟨rfl, tree.single inTree entry' entry⟩
  rootless _ _ below := tree.rootless below
  names _ _ _ _ _ below := tree.names below
  types _ below := tree.types below
  entries d below := by
    have inRange : {v | ∃ slot, Child fs.toVfs d slot v} ⊆
        Set.range fun slot : Fin maxEntries => ((nodeOf fs.toVfs d).entries slot).getD root := by
      rintro v ⟨slot, -, entry⟩
      exact ⟨slot, by simp only [entry, Option.getD_some]⟩
    apply (Set.ncard_le_ncard inRange (Set.toFinite _)).trans
    rw [← Set.image_univ]
    apply (Set.ncard_image_le Set.finite_univ).trans
    rw [Set.ncard_univ, Nat.card_fin, maxEntries]

/-- What the lookups of the instance find. -/
def bindings (fs : VfsHeap) (root : VnodeId) : Set (VnodeId × List UInt8 × VnodeId) :=
  {b | Below fs.toVfs root b.1 ∧ (0 : UInt8) ∉ b.2.1 ∧
    tmpfsLookup fs.toVfs b.1 b.2.1 = .found b.2.2}

/-- A call that succeeds adds one binding, a call that fails none, and no other lookup changes. -/
def Changes (s : VfsHeap) (root : VnodeId) (call : Call) : Outcome × VfsHeap → Prop
  | (.found new, t) => ¬ Below s.toVfs root new ∧ (call.dir, call.name, new) ∉ bindings s root ∧
      bindings t root = insert (call.dir, call.name, new) (bindings s root) ∧
      ∀ d c, Below s.toVfs root d → (0 : UInt8) ∉ c → (d, c) ≠ (call.dir, call.name) →
        tmpfsLookup t.toVfs d c = tmpfsLookup s.toVfs d c
  | (.error _, t) => bindings t root = bindings s root ∧
      ∀ d c, Below s.toVfs root d → tmpfsLookup t.toVfs d c = tmpfsLookup s.toVfs d c

theorem Tree.changes {s : VfsHeap} {root : VnodeId} (tree : Tree s root) {call : Call}
    (valid : call.Valid s root) :
    Changes s root call (call.run s) := by
  obtain ⟨inTree, fits, cString⟩ := valid
  have short : call.name.length < tmpfsMaxName := Nat.lt_succ_of_le fits
  rw [call.run_eq]
  obtain ⟨t, result, grown⟩ | ⟨t, slot, result, inserted⟩ :=
    tmpfsInsert_cases call.type s call.dir call.name call.grants
  · rw [result]
    have same : ∀ d c, Below s.toVfs root d → tmpfsLookup t.toVfs d c = tmpfsLookup s.toVfs d c :=
      fun d c below => grown.lookup (tree.allocated below) (tree.children below) c
    refine ⟨?_, same⟩
    ext ⟨d, c, v⟩
    simp only [bindings, Set.mem_ofPred_eq, tree.grown_below grown]
    constructor
    · rintro ⟨below, nonzero, found⟩
      exact ⟨below, nonzero, (same d c below).symm.trans found⟩
    · rintro ⟨below, nonzero, found⟩
      exact ⟨below, nonzero, (same d c below).trans found⟩
  · rw [result]
    have allocated := tree.allocated inTree
    have others : ∀ d c, Below s.toVfs root d → (0 : UInt8) ∉ c → (d, c) ≠ (call.dir, call.name) →
        tmpfsLookup t.toVfs d c = tmpfsLookup s.toVfs d c := by
      intro d c below nonzero different
      apply inserted.lookup_other (tree.allocated below) (tree.children below)
      intro shared
      rw [(inserted.newNode_fits allocated short cString).1, Ne, strcmp_eq_zero_iff cString nonzero]
      rintro rfl
      exact different (by rw [tree.ownNode below inTree shared])
    have here : tmpfsLookup t.toVfs call.dir call.name = .found s.vnodeCount :=
      inserted.lookup_new allocated (tree.children inTree) short cString
    have fresh : ¬ Below s.toVfs root s.vnodeCount :=
      fun below => absurd (tree.allocated below).1 (lt_irrefl _)
    have newLeaf : ∀ c v, tmpfsLookup t.toVfs s.vnodeCount c ≠ .found v := by
      intro c v found
      obtain ⟨other, entry, -⟩ := child_of_found found
      have below := (tree.inserted_below inserted inTree short cString).mpr (.inr rfl)
      exact fresh (tree.inserted_child inserted inTree short cString below entry).1
    refine ⟨fresh, fun bound => ?_, ?_, others⟩
    · rw [bindings, Set.mem_ofPred_eq, tmpfsLookup, inserted.missing] at bound
      simp at bound
    · ext ⟨d, c, v⟩
      simp only [bindings, Set.mem_ofPred_eq, Set.mem_insert_iff, Prod.mk.injEq,
        tree.inserted_below inserted inTree short cString]
      constructor
      · rintro ⟨old | rfl, nonzero, found⟩
        · by_cases same : (d, c) = (call.dir, call.name)
          · obtain ⟨rfl, rfl⟩ := Prod.mk.inj same
            rw [here] at found
            exact .inl ⟨rfl, rfl, (Outcome.found.inj found).symm⟩
          · exact .inr ⟨old, nonzero, (others d c old nonzero same).symm.trans found⟩
        · exact absurd found (newLeaf c v)
      · rintro (⟨rfl, rfl, rfl⟩ | ⟨old, nonzero, found⟩)
        · exact ⟨.inl inTree, cString, here⟩
        · refine ⟨.inl old, nonzero, (others d c old nonzero ?_).trans found⟩
          intro same
          obtain ⟨rfl, rfl⟩ := Prod.mk.inj same
          rw [tmpfsLookup, inserted.missing] at found
          simp at found

/-- From the setup of the instance on, every run keeps the shape, and every next call changes the
lookups by its own binding only. -/
theorem tmpfs_tree {fs start : VfsHeap} {root : VnodeId} {grants : Grants}
    (setup : tmpfsSetupMount fs grants = (.found root, start)) {events : List Call} {s : VfsHeap}
    (run : System.Path (calls root) start events s) :
    Shape s root ∧ ∀ call : Call, call.Valid s root → Changes s root call (call.run s) := by
  have tree : Tree s root :=
    run.invariant (P := fun s => Tree s root) (fun tree step => tree.step step) (setup_tree setup)
  exact ⟨tree.shape, fun call valid => tree.changes valid⟩

/-- Tables in which nothing has been allocated. -/
def blankHeap : VfsHeap where
  vnodes := fun _ => ⟨none, none, none, none, .file, 0⟩
  nodes := fun _ => ⟨[], .file, 0, fun _ => 0, fun _ => none⟩
  mounts := fun _ => ⟨0, 0⟩
  rootfs := 0
  activeMounts := []
  vnodeCount := 0
  nodeCount := 0
  mountCount := 0

/-- A directory `a`, a directory whose node cannot be allocated, and a file `b` in `a`. -/
def nestedCalls : List Call :=
  [⟨.dir, 0, [97], ⟨true, true, true, true, true⟩⟩,
    ⟨.dir, 0, [99], ⟨true, true, false, true, true⟩⟩,
    ⟨.file, 1, [98], ⟨true, true, true, true, true⟩⟩]

theorem tmpfs_tree_nested :
    ∃ start s, tmpfsSetupMount blankHeap ⟨true, true, true, true, true⟩ = (.found 0, start) ∧
    System.Path (calls 0) start nestedCalls s ∧ Shape s 0 ∧
    tmpfsLookup s.toVfs 1 [98] = .found 3 ∧ tmpfsLookup s.toVfs 0 [99] = .error (-1) := by
  let start := (tmpfsSetupMount blankHeap ⟨true, true, true, true, true⟩).2
  let after (n : ℕ) : VfsHeap := (nestedCalls.take n).foldl (fun fs call => (call.run fs).2) start
  have setup : tmpfsSetupMount blankHeap ⟨true, true, true, true, true⟩ = (.found 0, start) := rfl
  have inA : Below (after 2).toVfs 0 1 :=
    .child .root (show Child (after 2).toVfs 0 ⟨0, by decide⟩
      1 from ⟨by decide +kernel, by decide +kernel⟩)
  have run : System.Path (calls 0) start nestedCalls (after 3) :=
    .cons ⟨⟨.root, by decide, by decide⟩, rfl⟩ (.cons ⟨⟨.root, by decide, by decide⟩, rfl⟩
      (.cons ⟨⟨inA, by decide, by decide⟩, rfl⟩ (.nil _)))
  exact ⟨start, after 3, setup, run, (tmpfs_tree setup run).1, by decide +kernel, by decide +kernel⟩

end OscKernel.Soundness.TmpfsTree
