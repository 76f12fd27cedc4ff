import Mathlib.Data.List.Basic
import Mathlib.Data.Option.Basic
import Mathlib.Data.Int.Basic

/-! # The virtual file system and its pathname walk

Vnodes, filesystem nodes, mounts and open files live in kernel memory; the model names them by
natural numbers and keeps one table for each kind. A driver's operation tables are constants of
the source, so a vnode stores which table it points to. `tmpfs_node`, `devfs_node` and
`ramfs_node` have one layout and are one structure here; the union of `data` and `entries` is
kept as two fields, of which the node's type says which one is meant.

A C string is the list of its bytes before the terminator. The two loops of the walk that follow
mount pointers need not terminate, so they take fuel and a walk that runs out of it has no
outcome; `Returns` says that some amount of fuel suffices.
-/

namespace OscKernel.Model

abbrev VnodeId := ℕ
abbrev NodeId := ℕ
abbrev MountId := ℕ

/-- `MAX_NAME` of vfs.h. -/
def maxName : ℕ := 16
/-- `MAX_ENTRIES` of vfs.h, the slots of a directory in all three drivers. -/
def maxEntries : ℕ := 16

inductive VnodeType where
  | dir
  | file
deriving DecidableEq, Repr

/-- Which `vnode_operations` table a vnode points to. -/
inductive VnodeOps where
  | tmpfs
  | devfs
  | ramfs
deriving DecidableEq, Repr

/-- Which `file_operations` table a vnode or an open file points to. -/
inductive FileOps where
  | tmpfs
  | devfsUart
  | devfsFb
  | ramfs
deriving DecidableEq, Repr

structure Vnode where
  mount : Option MountId
  vOps : Option VnodeOps
  fOps : Option FileOps
  parent : Option VnodeId
  type : VnodeType
  internal : NodeId

/-- `struct tmpfs_node`, `struct devfs_node` and `struct ramfs_node`. -/
structure FsNode where
  name : List UInt8
  type : VnodeType
  size : ℕ
  data : ℕ → UInt8
  entries : Fin maxEntries → Option VnodeId

structure Mount where
  root : VnodeId
  mountpoint : VnodeId

/-- The tables behind the kernel's pointers; `activeMounts` is the used part of `active_mounts`. -/
structure Vfs where
  vnodes : VnodeId → Vnode
  nodes : NodeId → FsNode
  mounts : MountId → Mount
  rootfs : MountId
  activeMounts : List MountId

/-- `rootfs->root`. -/
def Vfs.root (fs : Vfs) : VnodeId := (fs.mounts fs.rootfs).root

/-- `strcmp` on the bytes before the terminators. -/
def strcmp : List UInt8 → List UInt8 → ℤ
  | [], [] => 0
  | a :: _, [] => a.toNat
  | [], b :: _ => -b.toNat
  | a :: as, b :: bs => if a = b then strcmp as bs else (a.toNat : ℤ) - b.toNat

/-- The string that starts at `name`: past sixteen nonzero bytes it runs on into the bytes of the
enumeration that follows. -/
def FsNode.cName (node : FsNode) : List UInt8 :=
  let typeByte : UInt8 := match node.type with
    | .dir => 0
    | .file => 1
  (node.name ++ [typeByte]).takeWhile (· ≠ 0)

/-- What a lookup hands back: the target vnode with code 0, or a negative code. -/
inductive Outcome where
  | found (target : VnodeId)
  | error (code : ℤ)
deriving DecidableEq, Repr

/-- `tmpfs_lookup`, `devfs_lookup` and `ramfs_lookup`, which differ in their constants' names
only. -/
def driverLookup (fs : Vfs) (dirNode : VnodeId) (componentName : List UInt8) : Outcome :=
  let dNode := fs.nodes (fs.vnodes dirNode).internal
  if dNode.type ≠ .dir then .error (-1)
  else
    match (List.finRange maxEntries).filterMap (fun i => dNode.entries i) |>.find? (fun child =>
        strcmp (fs.nodes (fs.vnodes child).internal).cName componentName = 0) with
    | some child => .found child
    | none => .error (-1)

def tmpfsLookup := driverLookup
def devfsLookup := driverLookup
def ramfsLookup := driverLookup

/-- The call through `v_ops->lookup`. -/
def VnodeOps.lookup : VnodeOps → Vfs → VnodeId → List UInt8 → Outcome
  | .tmpfs => tmpfsLookup
  | .devfs => devfsLookup
  | .ramfs => ramfsLookup

def slash : UInt8 := 47
def dot : UInt8 := 46

/-- The loop that steps over consecutive slashes. -/
def skipSlashes : List UInt8 → List UInt8
  | [] => []
  | c :: rest => if c = slash then skipSlashes rest else c :: rest

/-- The loop that copies one component: every byte up to the next slash is consumed, and as many
as fit below the terminator are kept. -/
def scanComponent (component : List UInt8) : List UInt8 → List UInt8 × List UInt8
  | [] => (component, [])
  | c :: rest =>
      if c = slash then (component, c :: rest)
      else scanComponent (if component.length < maxName - 1 then component ++ [c]
        else component) rest

/-- The upward loop of the `..` case: while the vnode is the root of an active mount, go to that
mount's mountpoint. -/
def popMounts (fs : Vfs) : ℕ → VnodeId → Option VnodeId
  | 0, _ => none
  | fuel + 1, vnode =>
      match fs.activeMounts.find? (fun m => (fs.mounts m).root = vnode) with
      | some targetMnt => popMounts fs fuel (fs.mounts targetMnt).mountpoint
      | none => some vnode

/-- The downward loop: while something is mounted on the vnode, go to the root mounted there. -/
def crossMounts (fs : Vfs) : ℕ → VnodeId → Option VnodeId
  | 0, _ => none
  | fuel + 1, vnode =>
      match (fs.vnodes vnode).mount with
      | some m => crossMounts fs fuel (fs.mounts m).root
      | none => some vnode

/-- The `..` case of the walk. -/
def lookupParent (fs : Vfs) (fuel : ℕ) (vnode : VnodeId) : Option VnodeId :=
  if vnode = fs.root then some vnode
  else do
    let vnode ← popMounts fs fuel vnode
    let vnode := if vnode ≠ fs.root then (fs.vnodes vnode).parent.getD vnode else vnode
    crossMounts fs fuel vnode

/-- One round of the walk, after its component has been copied. -/
def lookupComponent (fs : Vfs) (fuel : ℕ) (vnode : VnodeId) (component : List UInt8) :
    Option Outcome :=
  if strcmp component [dot] = 0 then some (.found vnode)
  else if strcmp component [dot, dot] = 0 then (lookupParent fs fuel vnode).map .found
  else
    match (fs.vnodes vnode).vOps with
    | none => some (.error (-1))
    | some ops =>
        match ops.lookup fs vnode component with
        | .error code => some (.error code)
        | .found next => (crossMounts fs fuel next).map .found

theorem skipSlashes_length_le (path : List UInt8) : (skipSlashes path).length ≤ path.length := by
  induction path with
  | nil => exact le_refl _
  | cons c rest ih =>
    rw [skipSlashes]
    split_ifs
    · exact Nat.le_succ_of_le ih
    · exact le_refl _

private theorem scanComponent_length_le (component path : List UInt8) :
    (scanComponent component path).2.length ≤ path.length := by
  induction path generalizing component with
  | nil => exact le_refl _
  | cons c rest ih =>
    rw [scanComponent]
    split_ifs
    · exact le_refl _
    · exact Nat.le_succ_of_le (ih _)
    · exact Nat.le_succ_of_le (ih _)

theorem scanComponent_slash (component rest : List UInt8) :
    scanComponent component (slash :: rest) = (component, slash :: rest) := by
  rw [scanComponent, if_pos rfl]

/-- A component is empty only where a slash stands, so the rest of the path shrinks. -/
theorem scanComponent_length_lt {c : UInt8} (rest : List UInt8) (notSlash : c ≠ slash) :
    (scanComponent [] (c :: rest)).2.length < (c :: rest).length := by
  rw [scanComponent, if_neg notSlash]
  exact Nat.lt_succ_of_le (scanComponent_length_le _ _)

/-- The main loop of `vfs_lookup_from`. -/
def lookupLoop (fs : Vfs) (fuel : ℕ) (path : List UInt8) (vnode : VnodeId) : Option Outcome :=
  match path with
  | [] => some (.found vnode)
  | c :: rest =>
      -- an empty component ends the loop, and only a slash leaves one
      if c = slash then some (.found vnode)
      else
        let scanned := scanComponent [] (c :: rest)
        match lookupComponent fs fuel vnode scanned.1 with
        | none => none
        | some (.error code) => some (.error code)
        | some (.found next) => lookupLoop fs fuel (skipSlashes scanned.2) next
termination_by path.length
decreasing_by
  exact lt_of_le_of_lt (skipSlashes_length_le _) (scanComponent_length_lt _ ‹_›)

/-- `vfs_lookup_from`; the target is written through a pointer in the source. -/
def vfsLookupFrom (fs : Vfs) (fuel : ℕ) (baseDir : VnodeId) (pathname : List UInt8) :
    Option Outcome :=
  match pathname with
  | [] => some (.error (-1))
  | c :: rest =>
      if c = slash then lookupLoop fs fuel (skipSlashes (c :: rest)) fs.root
      else lookupLoop fs fuel (c :: rest) baseDir

/-- The walk from `baseDir` along `pathname` terminates with this outcome. -/
def Returns (fs : Vfs) (baseDir : VnodeId) (pathname : List UInt8) (outcome : Outcome) : Prop :=
  ∃ fuel, vfsLookupFrom fs fuel baseDir pathname = some outcome

end OscKernel.Model
