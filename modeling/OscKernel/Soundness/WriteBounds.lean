import OscKernel.Model.Devfs
import OscKernel.Soundness.TmpfsFile

/-! # Writes and their bounds

The system has every tmpfs file, the framebuffer and any number of handles on them. Handles are
opened, shared, closed, read from, written to and, on the framebuffer, positioned in any order. The
label of a write records the length the caller passed, the length that reached `memcpy` and the
returned count.

The bound test adds the length to the position. When that sum wraps it is small again, and the
whole length is copied; these are the only writes that leave their buffer.
-/

namespace OscKernel.Soundness.WriteBounds

open OscKernel.Lib OscKernel.Model

/-- The tmpfs nodes by their vnodes, the framebuffer, and the open files by their addresses. -/
structure Outputs where
  nodes : VnodeId → FsNode
  frame : ℕ → UInt8
  files : ℕ → Option File

/-- What a write goes to. -/
inductive Device where
  | tmpfs
  | framebuffer
deriving DecidableEq

namespace Device

/-- The size of the buffer that a write copies into. -/
def limit : Device → ℕ
  | tmpfs => tmpfsMaxFileSize
  | framebuffer => fbSize

/-- What a write that copies nothing returns. -/
def nothing : Device → ℤ
  | tmpfs => -1
  | framebuffer => 0

/-- The operation table of the handles of a device. -/
def fOps : Device → FileOps
  | tmpfs => .tmpfs
  | framebuffer => .devfsFb

end Device

/-- What a call on an open file did. -/
inductive Call where
  | opened (file : ℕ)
  | shared (file : ℕ)
  | closed (file : ℕ)
  | read (file : ℕ) (len : BitVec 64)
  | seek (file : ℕ) (offset : BitVec 64) (whence ret : ℤ)
  | write (file : ℕ) (device : Device) (position : ℕ) (len : BitVec 64) (copied : ℕ) (ret : ℤ)

/-- Replace one open file. -/
def Outputs.setFile (s : Outputs) (address : ℕ) (file : Option File) : Outputs :=
  { s with files := Function.update s.files address file }

/-- Replace one tmpfs node. -/
def Outputs.setNode (s : Outputs) (vnode : VnodeId) (node : FsNode) : Outputs :=
  { s with nodes := Function.update s.nodes vnode node }

inductive CallStep : Outputs → Call → Outputs → Prop
  /-- `vfs_open`: a fresh handle at position zero. -/
  | opened (s : Outputs) (address : ℕ) (vnode : VnodeId) (fOps : Option FileOps) (flags : ℤ)
      (fresh : s.files address = none) :
      CallStep s (.opened address) (s.setFile address (some (openHandle vnode fOps flags)))
  /-- `sys_fork` counts the child's descriptor. -/
  | shared (s : Outputs) (address : ℕ) (file : File) (present : s.files address = some file) :
      CallStep s (.shared address)
      (s.setFile address (some { file with refCount := file.refCount + 1 }))
  | closed (s : Outputs) (address : ℕ) (file : File) (present : s.files address = some file) :
      CallStep s (.closed address) (s.setFile address (vfsClose file))
  | read (s : Outputs) (address : ℕ) (len : BitVec 64) (file : File)
      (present : s.files address = some file)
      (onTmpfs : file.fOps = some .tmpfs) :
      CallStep s (.read address len)
        (s.setFile address (some (tmpfsRead (s.nodes file.vnode) file len.toNat).2.2))
  | seek (s : Outputs) (address : ℕ) (offset : BitVec 64) (whence : ℤ) (file : File)
      (present : s.files address = some file) (onFrame : file.fOps = some .devfsFb) :
      CallStep s (.seek address offset whence (devfsFbLseek64 file offset whence).1)
        (s.setFile address (some (devfsFbLseek64 file offset whence).2))
  | writeFile (s : Outputs) (address : ℕ) (len : BitVec 64) (buf : ℕ → UInt8) (file : File)
      (present : s.files address = some file) (onTmpfs : file.fOps = some .tmpfs)
      (isFile : (s.nodes file.vnode).type = .file) :
      CallStep s
        (.write address .tmpfs file.fPos len (tmpfsWriteCopied (s.nodes file.vnode) file len.toNat)
          (tmpfsWrite (s.nodes file.vnode) file buf len.toNat).1)
        ((s.setNode file.vnode (tmpfsWrite (s.nodes file.vnode) file buf len.toNat).2.1).setFile
          address
          (some (tmpfsWrite (s.nodes file.vnode) file buf len.toNat).2.2))
  | writeFrame (s : Outputs) (address : ℕ) (len : BitVec 64) (buf : ℕ → UInt8) (file : File)
      (present : s.files address = some file) (onFrame : file.fOps = some .devfsFb) :
      CallStep s
        (.write address .framebuffer file.fPos len (devfsFbWriteCopied file len.toNat)
          (devfsFbWrite s.frame file buf len.toNat).1)
        ({ s with frame := (devfsFbWrite s.frame file buf len.toNat).2.1 }.setFile address
          (some (devfsFbWrite s.frame file buf len.toNat).2.2))

/-- All sequences of calls on tmpfs files and the framebuffer. -/
def calls : System Outputs Call := ⟨CallStep⟩

/-- The sum of the bound test does not wrap. -/
def NoWrap (_ : Outputs) : Call → Prop
  | .write _ _ position len _ _ => position + len.toNat < 2 ^ 64
  | _ => True

/-- A write copied only into its buffer and returned how much it copied. -/
def Clamped : Call → Prop
  | .write _ device position _ copied ret =>
    position + copied ≤ device.limit ∧ ret = if copied = 0 then device.nothing else copied
  | _ => True

/-- No size and no position is beyond its buffer. -/
structure Within (s : Outputs) : Prop where
  size : ∀ vnode, (s.nodes vnode).size ≤ tmpfsMaxFileSize
  position : ∀ address file, s.files address = some file →
    ∀ device : Device, file.fOps = some device.fOps → file.fPos ≤ device.limit

/-! ## One clamped write -/

/-- What the bound test leaves of a length: all that fits, unless the sum wrapped. -/
theorem clamp_eq {limit position len : ℕ} (small : limit < 2 ^ 64) (inside : position ≤ limit)
    (noWrap : position + len < 2 ^ 64) :
    (if wrap64 (position + len) > limit then sub64 limit position else len) = min len
    (limit - position) := by
  rw [wrap64_of_lt noWrap, sub64_of_le inside small]
  split_ifs <;> omega

/-- When the sum wraps the test passes and the length stays as it is. -/
theorem clamp_wrapped {limit position len : ℕ} (inside : position ≤ limit) (small : limit < 2 ^ 64)
    (short : len < 2 ^ 64) (wraps : 2 ^ 64 ≤ position + len) :
    (if wrap64 (position + len) > limit then sub64 limit position else len) = len := by
  have wrapped : wrap64 (position + len) = position + len - 2 ^ 64 := by
    rw [wrap64]
    omega
  rw [wrapped, if_neg (by omega)]

theorem limit_small (device : Device) : device.limit < 2 ^ 31 := by
  cases device <;> decide

theorem tmpfsWriteCopied_eq {node : FsNode} {file : File} {len : ℕ} (isFile : node.type = .file)
    (inside : file.fPos ≤ tmpfsMaxFileSize) (noWrap : file.fPos + len < 2 ^ 64) :
    tmpfsWriteCopied node file len = min len (tmpfsMaxFileSize - file.fPos) := by
  rw [tmpfsWriteCopied, if_neg (by simp [isFile])]
  exact clamp_eq (by decide) inside noWrap

theorem devfsFbWriteCopied_eq {file : File} {len : ℕ} (inside : file.fPos ≤ fbSize)
    (noWrap : file.fPos + len < 2 ^ 64) :
    devfsFbWriteCopied file len = min len (fbSize - file.fPos) :=
  clamp_eq (by decide) inside noWrap

/-- A write to the framebuffer copies what fits and moves its handle behind it. -/
theorem devfsFbWrite_eq (frame : ℕ → UInt8) (file : File) (buf : ℕ → UInt8) {len : ℕ}
    (inside : file.fPos ≤ fbSize) (noWrap : file.fPos + len < 2 ^ 64) :
    devfsFbWrite frame file buf len =
      if min len (fbSize - file.fPos) = 0 then (0, frame, file)
      else (((min len (fbSize - file.fPos) : ℕ) : ℤ),
        overlay frame file.fPos (min len (fbSize - file.fPos)) buf,
        { file with fPos := file.fPos + min len (fbSize - file.fPos) }) := by
  have small : fbSize < 2 ^ 31 := limit_small .framebuffer
  simp only [devfsFbWrite]
  rw [clamp_eq (by omega) inside noWrap]
  split_ifs with empty
  · rfl
  · rw [toInt32_of_lt (by omega), wrap64_of_lt (by omega)]

/-- A read moves its handle no further than the size. -/
private theorem tmpfsRead_within {node : FsNode} {file : File} (len : ℕ)
    (fits : node.size ≤ tmpfsMaxFileSize) (inside : file.fPos ≤ tmpfsMaxFileSize) :
    (tmpfsRead node file len).2.2.fPos ≤ tmpfsMaxFileSize := by
  have small : tmpfsMaxFileSize < 2 ^ 31 := limit_small .tmpfs
  simp only [tmpfsRead]
  split_ifs with notFile atEnd
  · exact inside
  · exact inside
  · rw [wrap64_of_lt (by omega)]
    dsimp only
    omega
  · rw [wrap64_of_lt (by omega)]
    dsimp only
    omega

private theorem tmpfsRead_fOps (node : FsNode) (file : File) (len : ℕ) :
    (tmpfsRead node file len).2.2.fOps = file.fOps := by
  simp only [tmpfsRead]
  split_ifs <;> rfl

/-- A position that `devfs_fb_lseek64` accepts is in the framebuffer or at its end. -/
private theorem devfsFbLseek64_within {file : File} (offset : BitVec 64) (whence : ℤ)
    (inside : file.fPos ≤ fbSize) : (devfsFbLseek64 file offset whence).2.fPos ≤ fbSize := by
  unfold devfsFbLseek64
  split_ifs with isSet outside
  · exact inside
  · have low : 0 ≤ offset.toInt ∧ offset.toInt ≤ fbSize := by omega
    have nonneg := BitVec.toInt_eq_toNat_cond offset
    change offset.toNat ≤ fbSize
    have value := offset.isLt
    split_ifs at nonneg <;> omega
  · exact inside

/-! ## The invariant -/

/-- Replacing a handle by one of the same table whose position is in range. -/
theorem Within.setFile {s : Outputs} (within : Within s) (address : ℕ) (file : Option File)
    (inside : ∀ f, file = some f → ∀ device : Device, f.fOps = some device.fOps →
      f.fPos ≤ device.limit) :
    Within (s.setFile address file) where
  size := within.size
  position := by
    intro other f present
    simp only [Outputs.setFile, Function.update_apply] at present
    split_ifs at present
    · exact inside f present
    · exact within.position other f present

/-- Replacing a node by one within its capacity. -/
theorem Within.setNode {s : Outputs} (within : Within s) (vnode : VnodeId) {node : FsNode}
    (fits : node.size ≤ tmpfsMaxFileSize) : Within (s.setNode vnode node) where
  size := by
    intro other
    by_cases same : other = vnode
    · subst same
      simpa [Outputs.setNode] using fits
    · simpa [Outputs.setNode, same] using within.size other
  position := within.position

/-- A handle's position is checked for the one device that its table belongs to. -/
theorem position_of_fOps {file : File} (device : Device) (table : file.fOps = some device.fOps)
    (inside : file.fPos ≤ device.limit) :
    ∀ other : Device, file.fOps = some other.fOps → file.fPos ≤ other.limit := by
  intro other same
  obtain rfl : device = other := by
    have equal := Option.some.inj (table.symm.trans same)
    cases device <;> cases other <;> first | rfl | cases equal
  exact inside

private theorem within_start {nodes : VnodeId → FsNode} (frame : ℕ → UInt8)
    (sizes : ∀ vnode, (nodes vnode).size ≤ tmpfsMaxFileSize) :
    Within ⟨nodes, frame, fun _ => none⟩ where
  size := sizes
  position := by
    intro address file present
    cases present

/-- One call whose sum does not wrap keeps every size and position in range. -/
theorem Within.step {s t : Outputs} {call : Call} (within : Within s)
    (step : (calls.restrict NoWrap).Step s call t) : Within t := by
  obtain ⟨noWrap, step⟩ := step
  cases step with
  | opened address vnode fOps flags fresh =>
    refine within.setFile address _ ?_
    rintro _ ⟨⟩ device -
    exact Nat.zero_le _
  | shared address file present =>
    refine within.setFile address _ ?_
    rintro _ ⟨⟩
    exact within.position address file present
  | closed address file present =>
    refine within.setFile address _ ?_
    intro f remains
    simp only [vfsClose] at remains
    split_ifs at remains
    cases remains
    exact within.position address file present
  | read address len file present onTmpfs =>
    refine within.setFile address _ ?_
    rintro _ ⟨⟩
    refine position_of_fOps .tmpfs ?_ ?_
    · rw [tmpfsRead_fOps]
      exact onTmpfs
    · exact tmpfsRead_within _ (within.size _) (within.position address file present .tmpfs onTmpfs)
  | seek address offset whence file present onFrame =>
    refine within.setFile address _ ?_
    rintro _ ⟨⟩
    refine position_of_fOps .framebuffer ?_ ?_
    · unfold devfsFbLseek64
      split_ifs <;> exact onFrame
    · exact devfsFbLseek64_within _ _ (within.position address file present .framebuffer onFrame)
  | writeFile address len buf file present onTmpfs isFile =>
    have inside : file.fPos ≤ tmpfsMaxFileSize :=
      within.position address file present .tmpfs onTmpfs
    rw [TmpfsFile.tmpfsWrite_eq (s.nodes file.vnode) file buf len.toNat isFile inside noWrap]
    have fits : TmpfsFile.stored file.fPos len.toNat ≤ tmpfsMaxFileSize - file.fPos :=
      Nat.min_le_right _ _
    have size := within.size file.vnode
    split_ifs with empty
    · apply (within.setNode file.vnode size).setFile address
      rintro _ ⟨⟩
      exact within.position address file present
    · refine (within.setNode file.vnode ?_).setFile address _ ?_
      · change max (s.nodes file.vnode).size (file.fPos + TmpfsFile.stored file.fPos len.toNat) ≤
          tmpfsMaxFileSize
        omega
      · rintro _ ⟨⟩
        refine position_of_fOps .tmpfs onTmpfs ?_
        change file.fPos + _ ≤ tmpfsMaxFileSize
        omega
  | writeFrame address len buf file present onFrame =>
    have inside : file.fPos ≤ fbSize := within.position address file present .framebuffer onFrame
    rw [devfsFbWrite_eq s.frame file buf inside noWrap]
    have drawn : ∀ frame, Within { s with frame } := fun _ => ⟨within.size, within.position⟩
    split_ifs with empty
    · apply (drawn _).setFile address
      rintro _ ⟨⟩
      exact within.position address file present
    · apply (drawn _).setFile address
      rintro _ ⟨⟩
      refine position_of_fOps .framebuffer onFrame ?_
      change file.fPos + min len.toNat (fbSize - file.fPos) ≤ fbSize
      omega

/-- A call whose sum does not wrap is clamped. -/
private theorem clamped_of_noWrap {s t : Outputs} {call : Call} (within : Within s)
    (step : calls.Step s call t) (noWrap : NoWrap s call) : Clamped call := by
  cases step with
  | writeFile address len buf file present onTmpfs isFile =>
    have inside : file.fPos ≤ tmpfsMaxFileSize :=
      within.position address file present .tmpfs onTmpfs
    constructor
    · rw [tmpfsWriteCopied_eq isFile inside noWrap]
      change file.fPos + min len.toNat (tmpfsMaxFileSize - file.fPos) ≤ tmpfsMaxFileSize
      omega
    · rw [tmpfsWriteCopied_eq isFile inside noWrap,
        TmpfsFile.tmpfsWrite_eq _ _ _ _ isFile inside noWrap]
      unfold TmpfsFile.stored
      split_ifs <;> rfl
  | writeFrame address len buf file present onFrame =>
    have inside : file.fPos ≤ fbSize := within.position address file present .framebuffer onFrame
    constructor
    · rw [devfsFbWriteCopied_eq inside noWrap]
      change file.fPos + min len.toNat (fbSize - file.fPos) ≤ fbSize
      omega
    · rw [devfsFbWriteCopied_eq inside noWrap, devfsFbWrite_eq _ _ _ inside noWrap]
      split_ifs <;> rfl
  | _ => exact trivial

/-- A write from a position in range whose sum wraps copies more than its buffer holds. -/
private theorem noWrap_of_clamped {s t : Outputs} {call : Call} (within : Within s)
    (step : calls.Step s call t) (clamped : Clamped call) : NoWrap s call := by
  cases step with
  | writeFile address len buf file present onTmpfs isFile =>
    have inside : file.fPos ≤ tmpfsMaxFileSize :=
      within.position address file present .tmpfs onTmpfs
    by_contra wraps
    have whole : tmpfsWriteCopied (s.nodes file.vnode) file len.toNat = len.toNat := by
      rw [tmpfsWriteCopied, if_neg (by simp [isFile])]
      exact clamp_wrapped inside (by decide) len.isLt (Nat.le_of_not_lt wraps)
    have bound := clamped.1
    rw [whole] at bound
    change file.fPos + len.toNat ≤ tmpfsMaxFileSize at bound
    have small : tmpfsMaxFileSize < 2 ^ 31 := limit_small .tmpfs
    exact wraps (show file.fPos + len.toNat < 2 ^ 64 by omega)
  | writeFrame address len buf file present onFrame =>
    have inside : file.fPos ≤ fbSize := within.position address file present .framebuffer onFrame
    by_contra wraps
    have whole : devfsFbWriteCopied file len.toNat = len.toNat :=
      clamp_wrapped inside (by decide) len.isLt (Nat.le_of_not_lt wraps)
    have bound := clamped.1
    rw [whole] at bound
    change file.fPos + len.toNat ≤ fbSize at bound
    have small : fbSize < 2 ^ 31 := limit_small .framebuffer
    exact wraps (show file.fPos + len.toNat < 2 ^ 64 by omega)
  | _ => exact trivial

/-! ## Runs -/

/-- In a run of calls from files within their capacity and no open handles, every write is clamped
to its buffer and returns what it copied, and every size and position stays in range, exactly when
no write wraps the sum of its bound test. -/
theorem writes_clamped {nodes : VnodeId → FsNode} (frame : ℕ → UInt8)
    (sizes : ∀ vnode, (nodes vnode).size ≤ tmpfsMaxFileSize) (past : List Call) (s : Outputs) :
    ((∀ u call v, System.Path.Takes calls ⟨nodes, frame, fun _ => none⟩ past s u call v →
      Clamped call) ∧
      ∀ u, System.Path.Visits calls ⟨nodes, frame, fun _ => none⟩ past s u → Within u) ↔
    ∀ u call v, System.Path.Takes calls ⟨nodes, frame, fun _ => none⟩ past s u call v →
      NoWrap u call := by
  constructor
  · rintro ⟨clamped, within⟩ u call v takes
    obtain ⟨first, second, same, before, step, after⟩ := id takes
    exact noWrap_of_clamped (within u takes.source) step (clamped u call v takes)
  · intro noWrap
    have within : ∀ u, System.Path.Visits calls ⟨nodes, frame, fun _ => none⟩ past s u → Within u :=
      fun u visits =>
        System.Path.visits_invariant visits noWrap Within.step (within_start frame sizes)
    refine ⟨?_, within⟩
    intro u call v takes
    obtain ⟨first, second, same, before, step, after⟩ := id takes
    exact clamped_of_noWrap (within u takes.source) step (noWrap u call v takes)

/-- The empty file and the black framebuffer that the runs below start from. -/
def blank : Outputs :=
  ⟨fun _ => ⟨[], .file, 0, fun _ => 0, fun _ => none⟩, fun _ => 0, fun _ => none⟩

/-- The blank file opened, and one byte written to it. -/
def opened : Outputs := blank.setFile 0 (some (openHandle 1 (some .tmpfs) 0))
def byteWritten : Outputs :=
  let file := openHandle 1 (some .tmpfs) 0
  (opened.setNode 1 (tmpfsWrite (opened.nodes 1) file (fun _ => 7) 1).2.1).setFile 0
    (some (tmpfsWrite (opened.nodes 1) file (fun _ => 7) 1).2.2)

theorem opened_step : calls.Step blank (.opened 0) opened :=
  CallStep.opened blank 0 1 (some .tmpfs) 0 rfl

theorem byteWritten_step : calls.Step opened (.write 0 .tmpfs 0 1#64 1 1) byteWritten :=
  CallStep.writeFile opened 0 1#64 (fun _ => 7) (openHandle 1 (some .tmpfs) 0) rfl rfl rfl

/-- A blank file takes one byte; a write of the largest length at position 1 then passes the bound
test and copies all of it. -/
theorem long_write : ∃ s, calls.Path blank
    [.opened 0, .write 0 .tmpfs 0 1#64 1 1, .write 0 .tmpfs 1 (-1#64) (2 ^ 64 - 1) (-1)] s ∧
    ¬ Clamped (.write 0 .tmpfs 1 (-1#64) (2 ^ 64 - 1) (-1)) := by
  have third : calls.Step byteWritten (.write 0 .tmpfs 1 (-1#64) (2 ^ 64 - 1) (-1)) _ :=
    CallStep.writeFile byteWritten 0 (-1#64) (fun _ => 7)
      { openHandle 1 (some .tmpfs) 0 with fPos := 1 } rfl rfl rfl
  refine ⟨_, .cons opened_step (.cons byteWritten_step (.cons third (.nil _))), ?_⟩
  rintro ⟨inside, -⟩
  exact absurd inside (by decide)

/-- In the run that opens the blank file and writes one byte no sum wraps. -/
theorem writes_clamped_byte : calls.Path blank [.opened 0, .write 0 .tmpfs 0 1#64 1 1] byteWritten ∧
    ∀ u, System.Path.Visits calls blank [.opened 0, .write 0 .tmpfs 0 1#64 1 1] byteWritten u →
      Within u := by
  refine ⟨.cons opened_step (.cons byteWritten_step (.nil _)), ?_⟩
  refine ((writes_clamped blank.frame (fun _ => Nat.zero_le _)
    [.opened 0, .write 0 .tmpfs 0 1#64 1 1]
    byteWritten).mpr ?_).2
  intro u call v takes
  obtain ⟨first, second, same, -⟩ := takes
  have member : call ∈ [Call.opened 0, .write 0 .tmpfs 0 1#64 1 1] := by
    rw [same]
    exact List.mem_append_right _ List.mem_cons_self
  simp only [List.mem_cons, List.not_mem_nil, or_false] at member
  rcases member with rfl | rfl
  · trivial
  · exact (by decide : 0 + (1#64).toNat < 2 ^ 64)

end OscKernel.Soundness.WriteBounds
