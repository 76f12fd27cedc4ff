import OscKernel.Lib.System
import OscKernel.Model.Tmpfs

/-! # A tmpfs file is a byte array

The system has one tmpfs file and any number of handles on it. Handles are opened and closed at
any time and may be shared; reads and writes through them interleave in any order. A label
records what the call did: the position it worked at, the value it returned and the bytes it
delivered. The stores of a run, newest first, are the specification: what is read is what was
last written, and no position above the size was ever written.
-/

namespace OscKernel.Soundness.TmpfsFile

open OscKernel.Lib OscKernel.Model

/-- The file's node together with the open handles on it. -/
structure Shared where
  node : FsNode
  handles : ℕ → Option File

/-- What a call on a handle did. -/
inductive Call where
  | opened (handle : ℕ)
  | shared (handle : ℕ)
  | closed (handle : ℕ)
  | read (handle position len : ℕ) (ret : ℤ) (bytes : List UInt8)
  | write (handle position len : ℕ) (buf : ℕ → UInt8) (ret : ℤ)

/-- Replace one handle. -/
def Shared.setHandle (s : Shared) (handle : ℕ) (file : Option File) : Shared :=
  { s with handles := Function.update s.handles handle file }

inductive CallStep : Shared → Call → Shared → Prop
  /-- `vfs_open` on the file: a fresh handle at position zero. -/
  | opened (s : Shared) (handle : ℕ) (vnode : VnodeId) (flags : ℤ)
      (fresh : s.handles handle = none) :
      CallStep s (.opened handle) (s.setHandle handle (some (openHandle vnode (some .tmpfs) flags)))
  /-- `sys_fork` lets the child's slot point to the parent's handle. -/
  | shared (s : Shared) (handle : ℕ) (file : File) (present : s.handles handle = some file) :
      CallStep s (.shared handle)
      (s.setHandle handle (some { file with refCount := file.refCount + 1 }))
  | closed (s : Shared) (handle : ℕ) (file : File) (present : s.handles handle = some file) :
      CallStep s (.closed handle) (s.setHandle handle (vfsClose file))
  | read (s : Shared) (handle len : ℕ) (file : File) (present : s.handles handle = some file) :
      CallStep s (.read handle file.fPos len (tmpfsRead s.node file len).1
        (tmpfsRead s.node file len).2.1)
        (s.setHandle handle (some (tmpfsRead s.node file len).2.2))
  | write (s : Shared) (handle len : ℕ) (buf : ℕ → UInt8) (file : File)
      (present : s.handles handle = some file) :
      CallStep s (.write handle file.fPos len buf (tmpfsWrite s.node file buf len).1)
        ({ s with node := (tmpfsWrite s.node file buf len).2.1 }.setHandle handle
          (some (tmpfsWrite s.node file buf len).2.2))

/-- All interleavings of calls on the handles of one file. -/
def calls : System Shared Call := ⟨CallStep⟩

/-- The call does not add a length to a position past `2 ^ 64 - 1`. -/
def NoOverflow (_ : Shared) : Call → Prop
  | .read _ position len _ _ | .write _ position len _ _ => position + len < 2 ^ 64
  | _ => True

/-- The state after `tmpfs_create`, before the first handle. -/
def created (node : FsNode) : Shared := ⟨node, fun _ => none⟩

/-- The store a call made, if it made one. -/
def storeOf : Call → Option (Store UInt8)
  | .write _ position _ buf ret => if 0 < ret then some ⟨position, ret.toNat, buf⟩ else none
  | _ => none

/-- The stores of a run, the most recent first. -/
def stores (past : List Call) : List (Store UInt8) := (past.filterMap storeOf).reverse

@[simp] theorem stores_snoc (past : List Call) (call : Call) :
    stores (past ++ [call]) = (storeOf call).toList ++ stores past := by
  cases found : storeOf call <;> simp [stores, found]

/-! ## What one call computes -/

/-- Bytes that a write of `len` at `position` stores. -/
def stored (position len : ℕ) : ℕ := min len (tmpfsMaxFileSize - position)

/-- On a file whose position is within capacity a write clamps, and fails exactly when nothing
fits. -/
theorem tmpfsWrite_eq (node : FsNode) (file : File) (buf : ℕ → UInt8) (len : ℕ)
    (isFile : node.type = .file) (inside : file.fPos ≤ tmpfsMaxFileSize)
    (noOverflow : file.fPos + len < 2 ^ 64) :
    tmpfsWrite node file buf len =
      if stored file.fPos len = 0 then (-1, node, file)
      else ((stored file.fPos len : ℤ),
        { node with
          data := overlay node.data file.fPos (stored file.fPos len) buf
          size := max node.size (file.fPos + stored file.fPos len) },
        { file with fPos := file.fPos + stored file.fPos len }) := by
  have capacity : tmpfsMaxFileSize = 4096 := rfl
  have clamped :
      (if wrap64 (file.fPos + len) > tmpfsMaxFileSize then sub64 tmpfsMaxFileSize file.fPos
      else len) = stored file.fPos len := by
    rw [wrap64_of_lt noOverflow, sub64_of_le inside (by omega), stored]
    split_ifs <;> omega
  have bound : stored file.fPos len ≤ tmpfsMaxFileSize := by rw [stored]; omega
  have within : file.fPos + stored file.fPos len < 2 ^ 64 := by omega
  simp only [tmpfsWrite, isFile, ne_eq, not_true_eq_false, ↓reduceIte, clamped]
  split_ifs with empty larger
  · rfl
  · rw [wrap64_of_lt within] at larger
    rw [toInt32_of_lt (by omega), wrap64_of_lt within, max_eq_right (by omega)]
  · rw [wrap64_of_lt within] at larger
    rw [toInt32_of_lt (by omega), wrap64_of_lt within, max_eq_left (by omega)]

/-- Bytes that a read of `len` at `position` delivers from a file of `size` bytes. -/
def delivered (size position len : ℕ) : ℕ := min len (size - position)

theorem tmpfsRead_eq (node : FsNode) (file : File) (len : ℕ) (isFile : node.type = .file)
    (fits : node.size ≤ tmpfsMaxFileSize) (before : file.fPos < node.size) :
    tmpfsRead node file len =
      ((delivered node.size file.fPos len : ℤ),
        (List.range (delivered node.size file.fPos len)).map (fun i => node.data (file.fPos + i)),
        { file with fPos := file.fPos + delivered node.size file.fPos len }) := by
  have capacity : tmpfsMaxFileSize = 4096 := rfl
  have clamped : (if len > node.size - file.fPos then node.size - file.fPos else len) =
      delivered node.size file.fPos len := by
    rw [delivered]
    split_ifs <;> omega
  have bound : file.fPos + delivered node.size file.fPos len ≤ node.size := by rw [delivered]; omega
  simp only [tmpfsRead, isFile, ne_eq, not_true_eq_false, ↓reduceIte,
    if_neg (not_le.mpr before), clamped]
  rw [toInt32_of_lt (by omega), wrap64_of_lt (by omega)]

/-- A read moves its handle to a position within the file and leaves it elsewhere as it was. -/
private theorem tmpfsRead_fPos_le (node : FsNode) (file : File) (len : ℕ)
    (isFile : node.type = .file) (fits : node.size ≤ tmpfsMaxFileSize)
    (within : file.fPos ≤ node.size) : (tmpfsRead node file len).2.2.fPos ≤ node.size := by
  by_cases before : file.fPos < node.size
  · rw [tmpfsRead_eq node file len isFile fits before]
    change file.fPos + delivered node.size file.fPos len ≤ node.size
    rw [delivered]
    omega
  · rwa [tmpfsRead, if_neg (by simpa using isFile), if_pos (by omega)]

/-! ## The invariant -/

/-- Every handle is within the file, the file within its capacity, and the buffer holds, up to the
size, exactly what the stores of the run wrote. -/
structure Agrees (past : List Call) (s : Shared) : Prop where
  isFile : s.node.type = .file
  capacity : s.node.size ≤ tmpfsMaxFileSize
  cursor : ∀ handle file, s.handles handle = some file → file.fPos ≤ s.node.size
  holds : Holds s.node.data (stores past)
  covers : Covers (stores past) s.node.size

private theorem agrees_created (node : FsNode) (isFile : node.type = .file)
    (empty : node.size = 0) :
    Agrees [] (created node) where
  isFile := isFile
  capacity := by rw [created, empty]; exact Nat.zero_le _
  cursor := by intro handle file present; cases present
  holds := holds_nil _
  covers := by rw [created, empty]; exact covers_nil

/-- A call that stores nothing keeps the invariant when its handle stays within the file. -/
theorem Agrees.setHandle {past : List Call} {s : Shared} (agrees : Agrees past s) {call : Call}
    (storesNothing : storeOf call = none) (handle : ℕ) (file : Option File)
    (within : ∀ f, file = some f → f.fPos ≤ s.node.size) :
    Agrees (past ++ [call]) (s.setHandle handle file) where
  isFile := agrees.isFile
  capacity := agrees.capacity
  cursor := by
    intro other f present
    simp only [Shared.setHandle, Function.update_apply] at present
    split_ifs at present
    · exact within f present
    · exact agrees.cursor other f present
  holds := by
    rw [stores_snoc, storesNothing]
    exact agrees.holds
  covers := by
    rw [stores_snoc, storesNothing]
    exact agrees.covers

theorem Agrees.step {past : List Call} {s t : Shared} {call : Call} (agrees : Agrees past s)
    (step : (calls.restrict NoOverflow).Step s call t) : Agrees (past ++ [call]) t := by
  obtain ⟨noOverflow, step⟩ := step
  cases step with
  | opened handle vnode flags fresh =>
    refine agrees.setHandle rfl handle _ ?_
    rintro _ ⟨⟩
    exact Nat.zero_le _
  | shared handle file present =>
    refine agrees.setHandle rfl handle _ ?_
    rintro _ ⟨⟩
    exact agrees.cursor handle file present
  | closed handle file present =>
    refine agrees.setHandle rfl handle _ ?_
    intro f remains
    simp only [vfsClose] at remains
    split_ifs at remains
    cases remains
    exact agrees.cursor handle file present
  | read handle len file present =>
    refine agrees.setHandle rfl handle _ ?_
    rintro _ ⟨⟩
    exact tmpfsRead_fPos_le s.node file len agrees.isFile agrees.capacity
      (agrees.cursor handle file present)
  | write handle len buf file present =>
    have within := agrees.cursor handle file present
    have capacity := agrees.capacity
    have written :=
      tmpfsWrite_eq s.node file buf len agrees.isFile (within.trans capacity) noOverflow
    split_ifs at written with empty
    · rw [written]
      refine agrees.setHandle (by simp [storeOf]) handle _ ?_
      rintro _ ⟨⟩
      exact within
    · have fits : stored file.fPos len ≤ tmpfsMaxFileSize - file.fPos := by rw [stored]; omega
      have logged : storeOf (.write handle file.fPos len buf (stored file.fPos len)) =
          some ⟨file.fPos, stored file.fPos len, buf⟩ := by
        rw [storeOf, if_pos (by omega), Int.toNat_natCast]
      rw [written]
      refine ⟨agrees.isFile, ?_, ?_, ?_, ?_⟩
      · change max s.node.size (file.fPos + stored file.fPos len) ≤ tmpfsMaxFileSize
        omega
      · intro other f found
        change f.fPos ≤ max s.node.size (file.fPos + stored file.fPos len)
        simp only [Shared.setHandle, Function.update_apply] at found
        split_ifs at found
        · obtain rfl := Option.some.inj found
          exact le_max_right _ _
        · exact (agrees.cursor other f found).trans (le_max_left _ _)
      · rw [stores_snoc, logged]
        exact holds_overlay agrees.holds _
      · rw [stores_snoc, logged]
        exact covers_cons agrees.covers _ within

private theorem agrees_of_run {node : FsNode} (isFile : node.type = .file) (empty : node.size = 0)
    {past : List Call} {s : Shared} (run : (calls.restrict NoOverflow).Path (created node) past s) :
    Agrees past s :=
  run.history (agrees_created node isFile empty) Agrees.step

/-! ## The byte-array behaviour -/

/-- After any interleaving of calls on a fresh tmpfs file, every handle is within the size and the
size within the capacity; a write stores the bytes that fit and moves only its own handle, or fails
and changes nothing; a read before the end delivers, byte for byte, what was last written. -/
theorem tmpfs_file_is_byte_array {node : FsNode} (isFile : node.type = .file)
    (empty : node.size = 0) {past : List Call} {s : Shared}
    (run : (calls.restrict NoOverflow).Path (created node) past s) :
    s.node.size ≤ 4096 ∧
    (∀ handle file, s.handles handle = some file → file.fPos ≤ s.node.size) ∧
    (∀ handle file buf len, s.handles handle = some file → file.fPos + len ≤ 2 ^ 64 - 1 →
      tmpfsWrite s.node file buf len =
        if min len (4096 - file.fPos) = 0 then (-1, s.node, file)
        else (((min len (4096 - file.fPos) : ℕ) : ℤ),
          { s.node with
            data := overlay s.node.data file.fPos (min len (4096 - file.fPos)) buf
            size := max s.node.size (file.fPos + min len (4096 - file.fPos)) },
          { file with fPos := file.fPos + min len (4096 - file.fPos) })) ∧
    (∀ handle file len, s.handles handle = some file → file.fPos < s.node.size →
      ∃ bytes : List UInt8,
        tmpfsRead s.node file len = (((min len (s.node.size - file.fPos) : ℕ) : ℤ), bytes,
          { file with fPos := file.fPos + min len (s.node.size - file.fPos) }) ∧
        bytes.length = min len (s.node.size - file.fPos) ∧
        ∀ j < bytes.length, bytes[j]? = lastWritten (stores past) (file.fPos + j) ∧
          (lastWritten (stores past) (file.fPos + j)).isSome) := by
  have agrees := agrees_of_run isFile empty run
  refine ⟨agrees.capacity, agrees.cursor, ?_, ?_⟩
  · intro handle file buf len present noOverflow
    exact tmpfsWrite_eq s.node file buf len agrees.isFile
      ((agrees.cursor handle file present).trans agrees.capacity) (by omega)
  · intro handle file len present before
    refine ⟨_, tmpfsRead_eq s.node file len agrees.isFile agrees.capacity
      before, by simp [delivered], ?_⟩
    intro j bound
    have inside : j < delivered s.node.size file.fPos len := by simpa using bound
    have covered := agrees.covers (file.fPos + j) (by rw [delivered] at inside; omega)
    refine ⟨?_, covered⟩
    rw [agrees.holds.read covered]
    simp [inside]

/-- One handle is opened on the fresh file and three bytes are written through it. -/
theorem tmpfs_file_is_byte_array_write :
    let node : FsNode := ⟨[], .file, 0, fun _ => 7, fun _ => none⟩
    ∃ past s, (calls.restrict NoOverflow).Path (created node) past s ∧ s.node.size ≤ 4096 ∧
      s.node.size = 3 ∧ lastWritten (stores past) 2 = some 5 := by
  intro node
  let opened := (created node).setHandle 0 (some (openHandle 1 (some .tmpfs) 0))
  have first : (calls.restrict NoOverflow).Step (created node) (.opened 0) opened :=
    ⟨trivial, .opened (created node) 0 1 0 rfl⟩
  have second : (calls.restrict NoOverflow).Step opened (.write 0 0 3 (fun _ => 5) 3) _ :=
    ⟨by simp [NoOverflow], .write opened 0 3 (fun _ => 5) _ rfl⟩
  have run := System.Path.cons first (.cons second (.nil _))
  exact ⟨_, _, run, (tmpfs_file_is_byte_array rfl rfl run).1, rfl, rfl⟩

end OscKernel.Soundness.TmpfsFile
