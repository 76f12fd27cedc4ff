import OscKernel.Lib.ArrayStores
import OscKernel.Model.VfsUpdate

/-! # The buffers of path creation

The copy loops of `vfs_open`, `vfs_mkdir`, `tmpfs_create` and `tmpfs_mkdir`, store by store. An
array is the memory from its first element on, without an end: index 256 of `parent_path`, index 16
of `filename` and index 16 of a node's name are the memory behind them.
-/

namespace OscKernel.Model

open OscKernel.Lib

/-- An array with the memory behind it. -/
abbrev CArray := ℕ → UInt8

/-- The stores of a loop, an index and a byte each. -/
abbrev Stores := List (ℕ × UInt8)

/-- `text[i]`, where the terminator follows the bytes. -/
def charAt (text : List UInt8) (i : ℕ) : UInt8 := text.getD i 0

/-- `strncpy`: up to the terminator it copies, behind it it pads. -/
def strncpy (src : List UInt8) (n : ℕ) : Stores := (List.range n).map fun i => (i, charAt src i)

/-- The copy into `parent_path` up to the last slash, and its terminator. -/
def parentPathStores (pathname : List UInt8) (lastSlash : ℕ) : Stores :=
  (List.range (lastSlash + 1)).map (fun pIdx => (pIdx, charAt pathname pIdx)) ++
    [if lastSlash > 0 then (lastSlash, 0) else (1, 0)]

/-- The loop over the bytes behind the last slash into `filename` or `dirname`. -/
def fileNameStores (fIdx : ℕ) : List UInt8 → Stores
  | [] => [(fIdx, 0)]
  | c :: rest =>
    if fIdx < maxName - 1 then (fIdx, c) :: fileNameStores (fIdx + 1) rest
    else fileNameStores fIdx rest

/-- The stores to `parent_path` and to the array for the name. -/
def pathBuffers (pathname : List UInt8) : Stores × Stores :=
  match lastSlash pathname with
  | none => ([], strncpy pathname maxName)
  | some i => (parentPathStores pathname i, fileNameStores 0 (pathname.drop (i + 1)))

/-- The loop of `tmpfs_create` and `tmpfs_mkdir` into the name of the new node, from index `i` on
with `left` rounds before its bound. -/
def nodeNameStores (componentName : CArray) (i : ℕ) : ℕ → Stores
  | 0 => [(i, 0)]
  | left + 1 =>
    if componentName i = 0 then [(i, 0)]
    else (i, componentName i) :: nodeNameStores componentName (i + 1) left

/-- The bytes of a node from its name on: the low byte of its type stands behind the name. -/
def FsNode.bytes (node : FsNode) : CArray := fun i =>
  if i < tmpfsMaxName then charAt node.name i
  else match node.type with
    | .dir => 0
    | .file => 1

end OscKernel.Model
