import Mathlib.Data.List.GetD
import Mathlib.Data.UInt
import OscKernel.Model.PathBuffers
import OscKernel.Soundness.PathCreation

/-! # The buffers of path creation and their bounds

Read back as strings, the arrays that the copy loops leave are the directory part and the name of
the model of path creation, and the node's name is the one that `tmpfs_create` and `tmpfs_mkdir`
give it. Behind a slash at most fifteen bytes are kept and terminated. A path without a slash is
copied by `strncpy`, which leaves a long name without a terminator; the terminator of the node's
name then falls on the type.
-/

namespace OscKernel.Soundness.PathBuffers

open OscKernel.Lib OscKernel.Model TreeUpdates MountTable PathCreation

/-! ## Names -/

theorem charAt_of_lt {text : List UInt8} {i : ℕ} (inside : i < text.length) :
    charAt text i = text[i] :=
  List.getD_eq_getElem text 0 inside

theorem charAt_length (text : List UInt8) : charAt text text.length = 0 :=
  List.getD_eq_default text 0 (le_refl _)

theorem charAt_ne_zero {text : List UInt8} (cString : (0 : UInt8) ∉ text) {i : ℕ}
    (inside : i < text.length) :
    charAt text i ≠ 0 := by
  intro zero
  rw [charAt_of_lt inside] at zero
  exact cString (zero ▸ List.getElem_mem inside)

private theorem charAt_append (first second : List UInt8) (i : ℕ) :
    charAt (first ++ second) i = if i < first.length then charAt first i
      else charAt second (i - first.length) := by
  split_ifs with inside
  · exact List.getD_append first second 0 i inside
  · exact List.getD_append_right first second 0 i (Nat.le_of_not_lt inside)

private theorem charAt_cons_succ (c : UInt8) (text : List UInt8) (i : ℕ) :
    charAt (c :: text) (i + 1) = charAt text i :=
  List.getD_cons_succ

private theorem charAt_drop (text : List UInt8) (n i : ℕ) :
    charAt (text.drop n) i = charAt text (n + i) := by
  simp [charAt, List.getD_eq_getElem?_getD]

private theorem charAt_take {text : List UInt8} {n i : ℕ} (below : i < n) :
    charAt (text.take n) i = charAt text i := by
  simp [charAt, List.getD_eq_getElem?_getD, below]

/-- The loop behind the last slash stays below the terminator, which it writes. -/
theorem fileNameStores_lt {fIdx : ℕ} (rest : List UInt8) (low : fIdx < maxName) :
    ∀ store ∈ fileNameStores fIdx rest, store.1 < maxName := by
  induction rest generalizing fIdx with
  | nil =>
    intro store member
    obtain rfl := List.mem_singleton.mp member
    exact low
  | cons c rest ih =>
    rw [fileNameStores]
    split_ifs with room
    · intro store member
      rcases List.mem_cons.mp member with rfl | later
      · exact low
      · exact ih (by omega) store later
    · exact ih low

/-- What the loop leaves from `fIdx` on is what fits of the bytes, and a terminator. -/
private theorem storeAll_fileName (memory : CArray) (fIdx : ℕ) (rest : List UInt8)
    (low : fIdx < maxName) : (∀ i < fIdx, storeAll memory (fileNameStores fIdx rest) i = memory i) ∧
    (∀ i (inside : i < (rest.take (maxName - 1 - fIdx)).length),
      storeAll memory (fileNameStores fIdx rest) (fIdx + i) = (rest.take (maxName - 1 - fIdx))[i]) ∧
    storeAll memory (fileNameStores fIdx rest) (fIdx + (rest.take (maxName - 1 - fIdx)).length) =
      0 := by
  induction rest generalizing fIdx memory with
  | nil =>
    refine ⟨fun i below => ?_, fun i inside => ?_, ?_⟩
    · exact Function.update_of_ne (Nat.ne_of_lt below) _ _
    · simp at inside
    · simp [fileNameStores]
  | cons c rest ih =>
    rw [fileNameStores]
    split_ifs with room
    · obtain ⟨before, copied, terminated⟩ :=
        ih (Function.update memory fIdx c) (fIdx + 1) (by omega)
      have kept : (c :: rest).take (maxName - 1 - fIdx) =
          c :: rest.take (maxName - 1 - (fIdx + 1)) := by
        rw [show maxName - 1 - fIdx = maxName - 1 - (fIdx + 1) + 1 by omega, List.take_succ_cons]
      simp only [kept, storeAll_cons]
      refine ⟨fun i below => ?_, fun i inside => ?_, ?_⟩
      · rw [before i (by omega), Function.update_of_ne (Nat.ne_of_lt below)]
      · cases i with
        | zero =>
          have here := before fIdx (Nat.lt_succ_self _)
          rw [Function.update_self] at here
          exact here
        | succ i =>
          have there := copied i (by simpa using inside)
          rw [Nat.add_right_comm] at there
          exact there
      · rw [Nat.add_right_comm] at terminated
        exact terminated
    · have full : maxName - 1 - fIdx = 0 := by omega
      have none_left := ih memory fIdx low
      rw [full, List.take_zero] at none_left ⊢
      exact none_left

/-- The array for the name holds the last component, as far as it fits. -/
private theorem holds_fileName (memory : CArray) {path : List UInt8}
    (cString : (0 : UInt8) ∉ path) (i : ℕ) :
    HoldsString (storeAll memory (fileNameStores 0 (path.drop (i + 1)))) (fileName path i) := by
  obtain ⟨-, copied, terminated⟩ := storeAll_fileName memory 0 (path.drop (i + 1)) (by decide)
  simp only [Nat.zero_add, Nat.sub_zero] at copied terminated
  exact ⟨copied, fun member => cString (List.mem_of_mem_drop (List.mem_of_mem_take member)),
    terminated⟩

/-- After `strncpy` the array holds the path when it is short; a long path reads on behind the
array. -/
theorem holds_plainName {memory : CArray} {path behind : List UInt8} (cString : (0 : UInt8) ∉ path)
    (follows : HoldsString (fun i => memory (maxName + i)) behind) :
    HoldsString (storeAll memory (strncpy path maxName)) (plainName path behind) := by
  have read : ∀ i, storeAll memory (strncpy path maxName) i = if i < maxName then charAt path i
      else memory i :=
    storeAll_range memory (charAt path) maxName
  by_cases short : path.length < maxName
  · rw [plainName, if_pos short]
    refine ⟨fun i inside => ?_, cString, ?_⟩
    · rw [read, if_pos (by omega), charAt_of_lt inside]
    · rw [read, if_pos short, charAt_length]
  · have length : (path.take maxName).length = maxName := by
      rw [List.length_take]
      omega
    rw [plainName, if_neg short]
    refine ⟨fun i inside => ?_, ?_, ?_⟩
    · rw [read]
      split_ifs with first
      · rw [charAt_of_lt (by omega), List.getElem_append_left (by omega), List.getElem_take]
      · have later :=
          follows.bytes (i - maxName) (by simp only [List.length_append] at inside; omega)
        rw [List.getElem_append_right (by omega)]
        simpa only [length, Nat.add_sub_cancel' (Nat.le_of_not_lt first)] using later
    · rw [List.mem_append, not_or]
      exact ⟨fun member => cString (List.mem_of_mem_take member), follows.nonzero⟩
    · rw [read, List.length_append, length, if_neg (by omega)]
      exact follows.terminated

private theorem slash_at {path : List UInt8} {i : ℕ} (last : lastSlash path = some i) :
    i < path.length ∧ charAt path i = slash := by
  have split := (path_split last).1
  have lengths := congrArg List.length split
  simp only [List.length_append, List.length_cons, List.length_take, List.length_drop] at lengths
  have inside : i < path.length := by omega
  refine ⟨inside, ?_⟩
  have front : (path.take i).length = i := by
    rw [List.length_take]
    omega
  rw [split, charAt_of_lt (by simp only [List.length_append, List.length_cons, front]; omega)]
  rw [List.getElem_append_right (by omega)]
  simp [front]

/-- The array for the directory part holds it. -/
theorem holds_parentPath (memory : CArray) {path : List UInt8} (cString : (0 : UInt8) ∉ path)
    {i : ℕ} (last : lastSlash path = some i) :
    HoldsString (storeAll memory (parentPathStores path i)) (parentPath path i) := by
  obtain ⟨inside, first⟩ := slash_at last
  have read : ∀ j,
      storeAll memory ((List.range (i + 1)).map fun pIdx => (pIdx, charAt path pIdx)) j =
      if j < i + 1 then charAt path j else memory j := storeAll_range memory (charAt path) (i + 1)
  have stored : ∀ (place j : ℕ),
      storeAll memory ((List.range (i + 1)).map (fun pIdx => (pIdx, charAt path pIdx)) ++
      [(place, 0)]) j = if j = place then 0 else if j < i + 1 then charAt path j else memory j := by
    intro place j
    rw [storeAll_append, ← read j]
    exact Function.update_apply _ _ _ _
  rw [parentPathStores, parentPath]
  split_ifs with later
  · have length : (path.take i).length = i := by
      rw [List.length_take]
      omega
    refine ⟨fun j within => ?_, fun member => cString (List.mem_of_mem_take member), ?_⟩
    · rw [stored, if_neg (by omega), if_pos (by omega), charAt_of_lt (by omega), List.getElem_take]
    · rw [stored, length, if_pos rfl]
  · obtain rfl : i = 0 := by omega
    refine ⟨fun j within => ?_, by decide, ?_⟩
    · obtain rfl : j = 0 := by simpa using within
      rw [stored, if_neg (by decide), if_pos (by decide), first]
      rfl
    · rw [stored]
      exact if_pos rfl

/-! ## The node's name -/

/-- From index `i` on, the loop of the driver leaves the bytes of the string that its bound admits,
a terminator, and nothing else. -/
private theorem storeAll_nodeName {componentName : CArray} {text : List UInt8}
    (holds : HoldsString componentName text) (memory : CArray) {i left : ℕ}
    (reached : i ≤ text.length) (bound : i + left = tmpfsMaxName) (j : ℕ) :
    storeAll memory (nodeNameStores componentName i left) j =
      if j < i then memory j
      else if j < min text.length tmpfsMaxName then charAt text j
      else if j = min text.length tmpfsMaxName then 0 else memory j := by
  induction left generalizing i memory with
  | zero =>
    have full : min text.length tmpfsMaxName = i := by omega
    change Function.update memory i 0 j = _
    rw [Function.update_apply, full]
    split_ifs <;> first | rfl | omega
  | succ left ih =>
    rw [nodeNameStores]
    by_cases atEnd : i = text.length
    · have full : min text.length tmpfsMaxName = i := by omega
      rw [if_pos (by rw [atEnd]; exact holds.terminated)]
      change Function.update memory i 0 j = _
      rw [Function.update_apply, full]
      split_ifs <;> first | rfl | omega
    · have inside : i < text.length := by omega
      have byte : componentName i = charAt text i := by
        rw [holds.bytes i inside, charAt_of_lt inside]
      rw [byte, if_neg (charAt_ne_zero holds.nonzero inside), storeAll_cons, ih _ inside (by omega)]
      rw [Function.update_apply]
      split_ifs <;> first | rfl | omega | simp_all

/-- The driver's loop writes the name of the model, also over the type when no terminator is in
reach. -/
theorem storeAll_writeName {componentName : CArray} {text : List UInt8}
    (holds : HoldsString componentName text) (node : FsNode) {j : ℕ} (within : j ≤ tmpfsMaxName) :
    storeAll node.bytes (nodeNameStores componentName 0 tmpfsMaxName) j =
      (node.writeName text).bytes j := by
  rw [storeAll_nodeName holds node.bytes (Nat.zero_le _) (Nat.zero_add _),
    if_neg (Nat.not_lt_zero j)]
  have length : (text.take tmpfsMaxName).length = min text.length tmpfsMaxName := by
    rw [List.length_take]
    exact min_comm _ _
  rw [FsNode.writeName]
  simp only [length]
  by_cases short : text.length < tmpfsMaxName
  · have whole : text.take tmpfsMaxName = text := List.take_of_length_le (Nat.le_of_lt short)
    have least : min text.length tmpfsMaxName = text.length := min_eq_left (Nat.le_of_lt short)
    rw [least, if_pos short, whole]
    simp only [FsNode.bytes, charAt_append]
    by_cases atType : j < tmpfsMaxName
    · rw [if_pos atType, if_pos atType]
      by_cases copied : j < text.length
      · rw [if_pos copied, if_pos copied]
      · rw [if_neg copied, if_neg copied]
        obtain ⟨k, rfl⟩ := Nat.exists_eq_add_of_le (Nat.le_of_not_lt copied)
        rw [Nat.add_sub_cancel_left]
        cases k with
        | zero => exact if_pos rfl
        | succ k =>
          rw [if_neg (by omega), charAt_cons_succ, charAt_drop, Nat.add_right_comm, Nat.add_assoc]
    · rw [if_neg (by omega), if_neg (by omega), if_neg atType, if_neg atType]
  · have full : min text.length tmpfsMaxName = tmpfsMaxName := min_eq_right (Nat.le_of_not_lt short)
    rw [full, if_neg (Nat.lt_irrefl _)]
    simp only [FsNode.bytes]
    by_cases atType : j < tmpfsMaxName
    · rw [if_pos atType, if_pos atType, charAt_take atType]
    · rw [if_neg atType, if_pos (by omega), if_neg atType]

/-- A terminator in reach ends the loop below its bound. -/
private theorem nodeNameStores_lt {componentName : CArray} {i left : ℕ}
    (terminated : ∃ k, i ≤ k ∧ k < i + left ∧ componentName k = 0) :
    ∀ store ∈ nodeNameStores componentName i left, store.1 < i + left := by
  induction left generalizing i with
  | zero =>
    obtain ⟨k, low, high, -⟩ := terminated
    omega
  | succ left ih =>
    obtain ⟨k, low, high, zero⟩ := terminated
    rw [nodeNameStores]
    split_ifs with here
    · intro store member
      obtain rfl := List.mem_singleton.mp member
      exact Nat.lt_add_of_pos_right (Nat.succ_pos left)
    · intro store member
      rcases List.mem_cons.mp member with rfl | later
      · exact Nat.lt_add_of_pos_right (Nat.succ_pos left)
      · have beyond : i ≠ k := fun same => here (same ▸ zero)
        have next := ih ⟨k, by omega, by omega, zero⟩ store later
        omega

/-! ## Calls -/

/-- The two calls that create. -/
inductive Operation where
  | create
  | mkdir

namespace Operation

/-- The function of the driver that the call ends in. -/
def driver : Operation → VnodeOps →
    Option (VfsHeap → VnodeId → List UInt8 → Grants → Outcome × VfsHeap)
  | create => VnodeOps.create
  | mkdir => VnodeOps.mkdir

/-- The type of what it makes. -/
def type : Operation → VnodeType
  | create => .file
  | mkdir => .dir

/-- `vfs_open` from its test of `O_CREAT` on, and `vfs_mkdir`. -/
def run : Operation → VfsHeap → ℕ → VnodeId → List UInt8 → List UInt8 → Grants →
    Option (Outcome × VfsHeap)
  | create => createAt
  | mkdir => vfsMkdir

/-- `vfs_open` splits the path only when the lookup has failed. -/
def Splits (operation : Operation) (fs : VfsHeap) (base : VnodeId) (path : List UInt8) : Prop :=
  match operation with
  | create => ∃ code, Returns fs.toVfs base path (.error code)
  | mkdir => True

end Operation

/-- The call writes to no buffer beyond its end. -/
structure Contained (operation : Operation) (fs : VfsHeap) (base : VnodeId) (path : List UInt8)
    (stack : CArray) : Prop where
  parentPath : ∀ store ∈ (pathBuffers path).1, store.1 < maxParentPath
  /-- The name handed to a driver ends within its array. -/
  terminated : ∀ fuel behind parent name, resolveParent fs fuel base path behind =
    some (.found parent, name) →
    (fs.vnodes parent).vOps.bind operation.driver ≠ none →
    ∃ i < maxName, storeAll stack (pathBuffers path).2 i = 0
  /-- A node that was made has its name written within the array, and its type is as assigned. -/
  node : ∀ fuel behind grants v t, operation.run fs fuel base path behind grants =
    some (.found v, t) →
    (∀ store ∈ nodeNameStores (storeAll stack (pathBuffers path).2) 0 tmpfsMaxName, store.1 < 16) ∧
      (t.nodes (t.vnodes v).internal).type = operation.type

/-- The last slash is within reach, or, without a slash, the path is shorter than a name or never
gets to a driver. -/
def Short (operation : Operation) (fs : VfsHeap) (base : VnodeId) (path : List UInt8) : Prop :=
  match lastSlash path with
  | some i => i < maxParentPath
  | none => path.length < maxName ∨ (fs.vnodes base).vOps.bind operation.driver = none

theorem parentPathStores_lt {path : List UInt8} {i : ℕ} :
    (∀ store ∈ parentPathStores path i, store.1 < maxParentPath) ↔ i < maxParentPath := by
  constructor
  · intro below
    refine below (i, charAt path i) (List.mem_append_left _ (List.mem_map.mpr ⟨i, ?_, rfl⟩))
    exact List.mem_range.mpr (Nat.lt_succ_self i)
  · intro near store member
    rcases List.mem_append.mp member with copied | terminator
    · obtain ⟨j, within, rfl⟩ := List.mem_map.mp copied
      have := List.mem_range.mp within
      change j < maxParentPath
      omega
    · obtain rfl := List.mem_singleton.mp terminator
      split_ifs
      · exact near
      · exact (by decide : 1 < maxParentPath)

/-- The name that a driver gets is terminated within its array exactly when a slash cut it or it is
short. -/
theorem terminated_iff {path : List UInt8} (cString : (0 : UInt8) ∉ path) (stack : CArray) :
    (∃ i < maxName, storeAll stack (pathBuffers path).2 i = 0) ↔ Fits path := by
  cases last : lastSlash path with
  | none =>
    have noSlash := slash_notMem last
    have read : ∀ i, storeAll stack (strncpy path maxName) i = if i < maxName then charAt path i
        else stack i :=
      storeAll_range stack (charAt path) maxName
    simp only [pathBuffers, last, Fits, noSlash, false_or, read]
    constructor
    · rintro ⟨i, below, zero⟩
      by_contra long
      rw [if_pos below] at zero
      exact charAt_ne_zero cString (by omega) zero
    · intro short
      refine ⟨path.length, short, ?_⟩
      rw [if_pos short, charAt_length]
  | some i =>
    simp only [pathBuffers, last, Fits, slash_mem last, true_or, iff_true]
    have holds := holds_fileName stack cString i
    refine ⟨_, ?_, holds.terminated⟩
    rw [fileName, List.length_take]
    exact lt_of_le_of_lt (min_le_left _ _) (by decide)

/-- What a call makes is a tmpfs vnode under the name that the path was cut into. -/
private theorem run_cases {operation : Operation} {fs t : VfsHeap} {fuel : ℕ} {base v : VnodeId}
    {path behind : List UInt8} {grants : Grants}
    (made : operation.run fs fuel base path behind grants = some (.found v, t)) :
    ∃ parent name slot, resolveParent fs fuel base path behind = some (.found parent, name) ∧
      (fs.vnodes parent).vOps.bind operation.driver ≠ none ∧ v = fs.vnodeCount ∧
      Inserted fs t operation.type parent name slot := by
  cases operation with
  | create =>
    obtain ⟨same, -⟩ | ⟨parent, name, slot, resolved, ops, same, inserted⟩ :=
      insertAt_cases (show VnodeOps.create .tmpfs = some (tmpfsInsert .file) from rfl) rfl rfl made
    · cases same
    · exact ⟨parent, name, slot, resolved, by rw [ops]; nofun, Outcome.found.inj same, inserted⟩
  | mkdir =>
    obtain ⟨parent, name, slot, resolved, ops, same, inserted⟩ := vfsMkdir_cases made
    exact ⟨parent, name, slot, resolved, by rw [ops]; nofun, same, inserted⟩

/-- A name with room for its terminator leaves the new node its type. -/
private theorem made_type {fs t : VfsHeap} {type : VnodeType} {dir : VnodeId} {name : List UInt8}
    {slot : Fin maxEntries} (inserted : Inserted fs t type dir name slot)
    (short : name.length < tmpfsMaxName) :
    (t.nodes (t.vnodes fs.vnodeCount).internal).type = type := by
  obtain ⟨contents, sameType, -, nodes⟩ := inserted.nodes
  have named : (contents.writeName name).type = type := by
    rw [FsNode.writeName, if_pos (by rw [List.length_take]; omega)]
    exact sameType
  rw [inserted.newVnode, nodes]
  by_cases same : fs.nodeCount = (fs.vnodes dir).internal
  · simp only [← same, Function.update_self]
    exact named
  · rw [Function.update_of_ne same, Function.update_self]
    exact named

/-- Whatever the tree and the bytes on the stack, creating by a path writes to no buffer beyond its
end exactly when its last slash, or without one the path itself, is short enough. -/
theorem buffers_contained (operation : Operation) (fs : VfsHeap) (base : VnodeId)
    {path : List UInt8} (cString : (0 : UInt8) ∉ path) (stack : CArray) :
    (operation.Splits fs base path → Contained operation fs base path stack) ↔
      (operation.Splits fs base path → Short operation fs base path) := by
  refine forall_congr' fun _ => ?_
  constructor
  · intro contained
    cases last : lastSlash path with
    | none =>
      rw [Short, last]
      by_contra unfit
      obtain ⟨long, handed⟩ := not_or.mp unfit
      have resolved : resolveParent fs 0 base path [] = some (.found base, plainName path []) := by
        rw [resolveParent, last]
      have ends :=
        (terminated_iff cString stack).mp (contained.terminated 0 [] base _ resolved handed)
      exact ends.elim (slash_notMem last) long
    | some i =>
      rw [Short, last]
      have parentPath := contained.parentPath
      rw [pathBuffers, last] at parentPath
      exact parentPathStores_lt.mp parentPath
  · intro fits
    have ends : ∀ {fuel behind parent name}, resolveParent fs fuel base path behind =
        some (.found parent, name) →
        (fs.vnodes parent).vOps.bind operation.driver ≠ none →
        ∃ i < maxName, storeAll stack (pathBuffers path).2 i = 0 := by
      intro fuel behind parent name resolved handed
      rw [terminated_iff cString]
      obtain ⟨last, rfl, -⟩ | ⟨i, last, -, -⟩ := resolveParent_cases resolved
      · rw [Short, last] at fits
        exact .inr (fits.resolve_right handed)
      · exact .inl (slash_mem last)
    refine ⟨?_, fun fuel behind parent name => ends, ?_⟩
    · cases last : lastSlash path with
      | none =>
        rw [pathBuffers, last]
        intro store member
        exact absurd member List.not_mem_nil
      | some i =>
        rw [Short, last] at fits
        rw [pathBuffers, last]
        exact parentPathStores_lt.mpr fits
    · intro fuel behind grants v t made
      obtain ⟨parent, name, slot, resolved, handed, rfl, inserted⟩ := run_cases made
      have terminated := ends resolved handed
      have named := name_of_fits cString ((terminated_iff cString stack).mp terminated) resolved
      refine ⟨?_, made_type inserted named.2.1⟩
      obtain ⟨k, below, zero⟩ := terminated
      have inReach : k < 0 + tmpfsMaxName := by
        rw [Nat.zero_add]
        exact below
      intro store member
      exact nodeNameStores_lt ⟨k, Nat.zero_le k, inReach, zero⟩ store member

/-- `mkdir` of a name of fifteen bytes in the root directory. -/
theorem buffers_contained_short :
    Contained .mkdir (boot Lookup.smallTree).heap 0 (List.replicate 15 97) fun _ => 255 :=
  (buffers_contained .mkdir (boot Lookup.smallTree).heap 0 (by decide) fun _ => 255).mpr
    (fun _ => .inl (by decide)) trivial

/-- One byte more leaves the name without a terminator, and a slash at 256 overruns
`parent_path`. -/
theorem buffers_overrun :
    ¬ Contained .mkdir (boot Lookup.smallTree).heap 0 (List.replicate 16 97) (fun _ => 255) ∧
    ¬ Contained .mkdir (boot Lookup.smallTree).heap 0 (List.replicate 256 97 ++ [slash]) fun _ =>
      255 := by
  constructor
  · intro contained
    obtain ⟨i, below, zero⟩ := contained.terminated 0 [] 0 (List.replicate 16 97) rfl nofun
    have nonzero : ∀ i < maxName, storeAll (fun _ => 255) (pathBuffers (List.replicate 16 97)).2 i ≠
        0 := by decide
    exact nonzero i below zero
  · intro contained
    exact absurd (contained.parentPath (256, slash) (by decide +kernel)) (by decide)

end OscKernel.Soundness.PathBuffers
