import Mathlib.Data.List.Forall2
import OscKernel.Soundness.CpioReaders
import OscKernel.Soundness.RamfsDirectory

/-! # Two views of the initial RAM disk

`exec` finds a file by its whole name, and a path below a mounted ramfs leads to the first kept file
of its last component. A file that is found is read in chunks of any sizes, as long as a chunk's
length fits the returned `int`.
-/

namespace OscKernel.Soundness.RamfsFiles

open OscKernel.Lib OscKernel.Model OscKernel.Soundness.Lookup OscKernel.Soundness.TreeUpdates
  OscKernel.Soundness.MountTable OscKernel.Soundness.PathCreation
  OscKernel.Soundness.LookupTermination
  OscKernel.Soundness.MountVisibility OscKernel.Soundness.CpioArchive
    OscKernel.Soundness.CpioReaders
  OscKernel.Soundness.RamfsDirectory

/-! ## Reading in chunks -/

/-- What `vfs_read` returns and copies, for one chunk size after the other. -/
def readChunks (fs : Vfs) (file : File) : List ℕ → Option (List (ℤ × List UInt8))
  | [] => some []
  | len :: rest =>
    (vfsRead fs file len).bind fun (count, bytes, file) =>
      (readChunks fs file rest).map ((count, bytes) :: ·)

/-- Reading in chunks of any sizes yields these bytes, and the length of each piece. -/
def ReadsOut (fs : Vfs) (file : File) (data : List UInt8) : Prop :=
  ∀ lens : List ℕ, (∀ len ∈ lens, len < 2 ^ 64) → ∃ chunks, readChunks fs file lens = some chunks ∧
    (∀ chunk ∈ chunks, chunk.1 = chunk.2.length) ∧ chunks.flatMap Prod.snd = data.take lens.sum

/-- The bytes of a file. -/
def contents (file : CpioFile) : List UInt8 := (List.range file.size).map file.data

theorem length_contents (file : CpioFile) : (contents file).length = file.size := by
  rw [contents, List.length_map, List.length_range]

section Reading

variable {fs : Vfs} {handle : File} {file : CpioFile} {data : List UInt8}

theorem readChunks_cons {next : File} {len : ℕ} {rest : List ℕ} {count : ℤ} {bytes : List UInt8}
    (here : vfsRead fs handle len = some (count, bytes, next)) :
    readChunks fs handle (len :: rest) = (readChunks fs next rest).map ((count, bytes) :: ·) := by
  rw [readChunks, here]
  rfl

/-- One read of a file, from inside it or from its end. -/
theorem ramfsRead_file (bound : file.size < 2 ^ 32) (inside : handle.fPos ≤ file.size) (len : ℕ) :
    ramfsRead (ramfsNode file) handle len =
      (toInt32 (min len (file.size - handle.fPos)), ((contents file).drop handle.fPos).take len,
        { handle with fPos := handle.fPos + min len (file.size - handle.fPos) }) := by
  have isFile : (ramfsNode file).type = .file := rfl
  have size : (ramfsNode file).size = file.size := rfl
  have bytes : (ramfsNode file).data = file.data := rfl
  have available := sub64_of_le inside (by omega)
  have piece : (List.range (min len (file.size - handle.fPos))).map
      (fun i => file.data (handle.fPos + i)) =
      ((contents file).drop handle.fPos).take len := by
    apply List.ext_getElem
    · simp [contents]
    · intro i _ _
      simp [contents]
  rw [ramfsRead, if_neg (by rw [isFile]; exact VnodeType.noConfusion),
    if_neg (not_not.mpr isFile), size, bytes]
  split
  · rename_i atEnd
    have same : handle.fPos = file.size := Nat.le_antisymm inside atEnd
    rw [same, Nat.sub_self, Nat.min_zero, Nat.add_zero,
      List.drop_of_length_le (le_of_eq (length_contents file)), List.take_nil, ← same]
    rfl
  · have amount : (if len > file.size - handle.fPos then file.size - handle.fPos else len) =
        min len (file.size - handle.fPos) := by
      split <;> omega
    have fits : handle.fPos + min len (file.size - handle.fPos) < 2 ^ 64 := by omega
    simp only [available, amount, piece, wrap64_of_lt fits]

/-- What is read from a position on. -/
private theorem readChunks_file (ops : handle.fOps = some .ramfs)
    (node : nodeOf fs handle.vnode = ramfsNode file) (small : file.size < 2 ^ 31)
    (inside : handle.fPos ≤ file.size) (lens : List ℕ) :
    ∃ chunks, readChunks fs handle lens = some chunks ∧
      (∀ chunk ∈ chunks, chunk.1 = chunk.2.length) ∧
      chunks.flatMap Prod.snd = ((contents file).drop handle.fPos).take lens.sum := by
  induction lens generalizing handle with
  | nil => exact ⟨[], rfl,
      fun _ member => absurd member List.not_mem_nil, by rw [List.sum_nil, List.take_zero]; rfl⟩
  | cons len rest ih =>
    have here : vfsRead fs handle len = some (ramfsRead (ramfsNode file) handle len) := by
      simp only [vfsRead, ops]
      rw [← node, nodeOf]
    rw [ramfsRead_file (by omega) inside] at here
    have moved : handle.fPos + min len (file.size - handle.fPos) ≤ file.size := by omega
    obtain ⟨chunks, others, counts, pieces⟩ :=
      @ih { handle with fPos := handle.fPos + min len (file.size - handle.fPos) } ops node moved
    refine ⟨_ :: chunks, by rw [readChunks_cons here, others]; rfl, ?_, ?_⟩
    · refine List.forall_mem_cons.mpr ⟨?_, counts⟩
      rw [toInt32_of_lt (by omega), List.length_take, List.length_drop, length_contents]
    · have behind : (contents file).drop (handle.fPos + min len (file.size - handle.fPos)) =
          (contents file).drop (handle.fPos + len) := by
        rw [List.drop_eq_drop_iff, length_contents]
        omega
      rw [List.flatMap_cons, pieces, List.sum_cons, List.take_add, List.drop_drop, behind]

private theorem readsOut_file_iff (ops : handle.fOps = some .ramfs)
    (node : nodeOf fs handle.vnode = ramfsNode file) (atStart : handle.fPos = 0)
    (bound : file.size < 2 ^ 32) (dataBound : data.length < 2 ^ 32) :
    ReadsOut fs handle data ↔ contents file = data ∧ data.length < 2 ^ 31 := by
  constructor
  · intro reads
    obtain ⟨chunks, read, counts, pieces⟩ := reads [2 ^ 32] (by simp)
    have here : vfsRead fs handle (2 ^ 32) = some (ramfsRead (ramfsNode file) handle (2 ^ 32)) := by
      simp only [vfsRead, ops]
      rw [← node, nodeOf]
    rw [ramfsRead_file bound (by omega)] at here
    rw [readChunks_cons here] at read
    obtain rfl := Option.some.inj read
    have atMost : (contents file).length ≤ 2 ^ 32 := by
      rw [length_contents]
      exact le_of_lt bound
    have whole : contents file = data := by
      rw [List.flatMap_singleton, List.sum_singleton, atStart, List.drop_zero,
        List.take_of_length_le (le_of_lt dataBound), List.take_of_length_le atMost] at pieces
      exact pieces
    refine ⟨whole, ?_⟩
    have count := counts _ List.mem_cons_self
    simp only [atStart, List.drop_zero, Nat.sub_zero] at count
    rw [List.take_of_length_le atMost, Nat.min_eq_right (le_of_lt bound), whole] at count
    have upper : toInt32 file.size < 2 ^ 31 := BitVec.toInt_lt
    omega
  · rintro ⟨rfl, small⟩ lens -
    rw [length_contents] at small
    obtain ⟨chunks, read, counts, pieces⟩ := readChunks_file ops node small (by omega) lens
    rw [atStart, List.drop_zero] at pieces
    exact ⟨chunks, read, counts, pieces⟩

/-- A directory is read as an empty file. -/
private theorem readsOut_directory_iff (ops : handle.fOps = some .ramfs)
    (isDir : (nodeOf fs handle.vnode).type = .dir) (dataBound : data.length < 2 ^ 32) :
    ReadsOut fs handle data ↔ data = [] := by
  have here : ∀ len, vfsRead fs handle len = some (0, [], handle) := by
    intro len
    simp only [vfsRead, ops]
    exact congrArg some (if_pos isDir)
  constructor
  · intro reads
    obtain ⟨chunks, read, -, pieces⟩ := reads [2 ^ 32] (by simp)
    rw [readChunks_cons (here _)] at read
    obtain rfl := Option.some.inj read
    rw [List.flatMap_singleton, List.sum_singleton,
      List.take_of_length_le (le_of_lt dataBound)] at pieces
    exact pieces.symm
  · rintro rfl lens -
    have empty : ∀ lens, readChunks fs handle lens = some (List.replicate lens.length (0, [])) := by
      intro lens
      induction lens with
      | nil => rfl
      | cons len rest ih =>
        rw [readChunks_cons (here len), ih]
        rfl
    refine ⟨_, empty lens, fun chunk member => ?_, ?_⟩
    · rw [List.eq_of_mem_replicate member]
      rfl
    · rw [List.take_nil, List.flatMap_eq_nil_iff]
      intro chunk member
      rw [List.eq_of_mem_replicate member]

/-- Reading a directory of tmpfs fails. -/
private theorem not_readsOut_tmpfs (ops : handle.fOps = some .tmpfs)
    (isDir : (nodeOf fs handle.vnode).type = .dir) :
    ¬ ReadsOut fs handle data := by
  intro reads
  have here : vfsRead fs handle 0 = some (-1, [], handle) := by
    simp only [vfsRead, ops]
    exact congrArg some (if_pos (by rw [← nodeOf, isDir]; exact VnodeType.noConfusion))
  obtain ⟨chunks, read, counts, -⟩ := reads [0] (by simp)
  rw [readChunks_cons here] at read
  obtain rfl := Option.some.inj read
  exact absurd (counts _ List.mem_cons_self) (by decide)

end Reading

/-! ## The files of an archive -/

section Archives

variable {memory : ByteMemory} {base s : Word} {entries : List Entry}
  {trailer : Attributes} {granted : ℕ → Bool}
  {name data : List UInt8}

private theorem string_stored (stored : Stored memory s (name ++ [0])) (nulFree : 0 ∉ name)
    {fuel : ℕ} (enough : name.length < fuel) : memory.string fuel s = some name := by
  induction name generalizing s fuel with
  | nil =>
    obtain ⟨fuel, rfl⟩ := Nat.exists_eq_add_one_of_ne_zero (Nat.ne_of_gt enough)
    rw [ByteMemory.string, if_pos stored.1]
  | cons c rest ih =>
    obtain ⟨fuel, rfl⟩ := Nat.exists_eq_add_one_of_ne_zero (Nat.ne_of_gt (Nat.zero_lt_of_lt enough))
    have notNul : c ≠ 0 := fun same => nulFree (same ▸ List.mem_cons_self)
    have here : memory s = c := stored.1
    have others := ih stored.2 (fun inside => nulFree (List.mem_cons_of_mem c inside))
      (Nat.lt_of_succ_lt_succ enough)
    rw [ByteMemory.string, here, if_neg notNul, others, Option.map_some]

theorem bytes_stored (stored : Stored memory s data) : memory.bytes s data.length = data := by
  apply List.ext_getElem
  · rw [ByteMemory.bytes, List.length_map, List.length_range]
  · intro i _ inside
    simp only [ByteMemory.bytes, List.getElem_map, List.getElem_range]
    exact stored.get inside

/-- What `ramfs_setup_mount` takes of an entry with its number. -/
def Holds (granted : ℕ → Bool) (file : CpioFile) (numbered : Entry × ℕ) : Prop :=
  file.name = numbered.1.name ∧ contents file = numbered.1.data ∧ file.granted = granted numbered.2

/-- The loop is given all the entries. -/
theorem ramDisk_archive (archive : ArchiveAt memory base entries trailer) (granted : ℕ → Bool) :
    ∃ cpio, (∃ bound, ∀ fuel ≥ bound, ramDisk memory base granted fuel = some cpio) ∧
      List.Forall₂ (Holds granted) cpio entries.zipIdx := by
  obtain ⟨files, enumerated, reads⟩ := cpio_round_trip archive
  have each : ∀ first, ∃ cpio, (∃ bound, ∀ fuel ≥ bound,
      ((files.zipIdx first).mapM fun numbered =>
        cpioFile memory fuel numbered.1 (granted numbered.2)) = some cpio) ∧
        List.Forall₂ (Holds granted) cpio (entries.zipIdx first) := by
    clear enumerated archive
    induction reads with
    | nil => exact fun _ => ⟨[], ⟨0, fun _ _ => rfl⟩, .nil⟩
    | @cons file entry files entries here _ ih =>
      intro first
      obtain ⟨cpio, ⟨bound, others⟩, holds⟩ := ih (first + 1)
      refine ⟨⟨entry.name, file.size.toNat, fun i => memory (file.data + BitVec.ofNat 64 i),
        granted first⟩ :: cpio, ⟨max bound (entry.name.length + 1), fun fuel enough => ?_⟩,
        .cons ⟨rfl, ?_, rfl⟩ holds⟩
      · have named :=
          string_stored here.1 entry.nulFree (Nat.lt_of_succ_le ((le_max_right _ _).trans enough))
        rw [List.zipIdx_cons, List.mapM_cons, others fuel ((le_max_left _ _).trans enough)]
        simp only [cpioFile, named, Option.map_some]
        rfl
      · rw [contents, here.2.1]
        exact bytes_stored here.2.2
  obtain ⟨cpio, ⟨bound, taken⟩, holds⟩ := each 0
  refine ⟨cpio, ⟨max bound (entries.length + 1), fun fuel enough => ?_⟩, holds⟩
  rw [ramDisk, enumerated fuel (Nat.lt_of_succ_le ((le_max_right _ _).trans enough)),
    Option.bind_some]
  exact taken fuel ((le_max_left _ _).trans enough)

/-- The entries that get a slot. -/
def keptEntries (granted : ℕ → Bool) (entries : List Entry) : List Entry :=
  ((entries.zipIdx.filter fun (entry, i) => decide (entry.name ≠ [dot]) && granted i).take
    maxEntries).map Prod.fst

/-- What is kept of their names. -/
def keptNames (granted : ℕ → Bool) (entries : List Entry) : List (List UInt8) :=
  (keptEntries granted entries).map fun entry => entry.name.take (maxName - 1)

theorem map_eq_of_forall₂ {α β γ : Type} {relation : α → β → Prop} {f : α → γ} {g : β → γ}
    {left : List α} {right : List β} (related : List.Forall₂ relation left right)
    (same : ∀ a b, relation a b → f a = g b) :
    left.map f = right.map g := by
  rw [← List.forall₂_eq_eq_eq, List.forall₂_map_left_iff, List.forall₂_map_right_iff]
  exact related.imp same

/-- What is in the directory. -/
theorem storedFiles_archive {cpio : List CpioFile}
    (holds : List.Forall₂ (Holds granted) cpio entries.zipIdx) :
    (storedFiles cpio maxEntries).map storedName = keptNames granted entries ∧
      (storedFiles cpio maxEntries).map contents =
      (keptEntries granted entries).map Entry.data := by
  have filtered : List.Forall₂ (Holds granted) (storedFiles cpio maxEntries)
      ((entries.zipIdx.filter fun (entry, i) => decide (entry.name ≠ [dot]) && granted i).take
        maxEntries) := by
    apply List.forall₂_take
    refine List.rel_filter ?_ holds
    rintro file ⟨entry, i⟩ ⟨named, -, grant⟩
    have isDot : strcmp file.name [dot] = 0 ↔ entry.name = [dot] := by
      rw [named]
      exact strcmp_eq_zero_iff entry.nulFree (by decide)
    simp only [grant, Bool.and_eq_true, decide_eq_true_eq, ne_eq, isDot]
  rw [keptNames, keptEntries, List.map_map, List.map_map]
  refine ⟨map_eq_of_forall₂ filtered ?_,
    map_eq_of_forall₂ filtered fun file numbered holds => holds.2.1⟩
  rintro file ⟨entry, i⟩ ⟨named, -, -⟩
  rw [storedName, named, Function.comp_apply, List.takeWhile_eq_self_iff]
  intro c member
  have inside : c ∈ entry.name := List.mem_of_mem_take member
  rw [decide_eq_true_eq]
  rintro rfl
  exact entry.nulFree inside

/-- `cpio_get_file` returns these bytes for the name. -/
def Gets (memory : ByteMemory) (base : Word) (name data : List UInt8) : Prop :=
  ∃ address size,
    (∃ bound, ∀ fuel ≥ bound, cpioGetFile memory base name fuel = some (some (address, size))) ∧
    memory.bytes address size.toNat = data

/-- Both look for the first entry with the name. -/
theorem find?_named {files : List CpioCursor} (reads : List.Forall₂ (Reads memory) files entries)
    (nulFree : 0 ∉ name) :
    Option.Rel (Reads memory) (files.find? fun file => Named memory name file)
      (entries.find? fun entry => entry.name = name) := by
  induction reads with
  | nil => exact .none
  | @cons file entry files entries here _ ih =>
    have named := named_iff here nulFree
    by_cases same : entry.name = name
    · rw [List.find?_cons_of_pos (by simpa using named.mpr same),
        List.find?_cons_of_pos (by simpa using same)]
      exact .some here
    · rw [List.find?_cons_of_neg (by simpa using mt named.mp same),
        List.find?_cons_of_neg (by simpa using same)]
      exact ih

theorem bytes_of_reads {file : CpioCursor} {entry : Entry} (reads : Reads memory file entry) :
    memory.bytes file.data file.size.toNat = entry.data := by
  rw [reads.2.1]
  exact bytes_stored reads.2.2

/-- What `cpio_get_file` returns is the data of the first entry with the name. -/
theorem Gets.entry (archive : ArchiveAt memory base entries trailer) (nulFree : 0 ∉ name)
    (gets : Gets memory base name data) :
    ∃ entry, (entries.find? fun entry => entry.name = name) = some entry ∧ entry.data = data := by
  obtain ⟨files, reads, scan⟩ := scans archive
  obtain ⟨address, size, ⟨bound, got⟩, rfl⟩ := gets
  have here :=
    (scan name nulFree (max bound (entries.length + 1)) (Nat.lt_of_succ_le (le_max_right _ _))).2
  rw [got _ (le_max_left _ _)] at here
  obtain ⟨file, search, same⟩ := Option.map_eq_some_iff.mp (Option.some.inj here).symm
  have whole := (List.takeWhile_prefix _).find?_eq_some search
  have both := find?_named reads nulFree
  rw [whole] at both
  obtain ⟨rfl, rfl⟩ := Prod.mk.inj same
  cases first : entries.find? fun entry => entry.name = name with
  | none =>
    rw [first] at both
    cases both
  | some entry =>
    rw [first] at both
    cases both with
    | some reads => exact ⟨entry, rfl, (bytes_of_reads reads).symm⟩

/-- Where no entry before it looks like the trailer, the data of the first entry are returned. -/
theorem gets_of_reached (archive : ArchiveAt memory base entries trailer) (nulFree : 0 ∉ name)
    (reached : Reached entries name) {entry : Entry}
    (first : (entries.find? fun entry => entry.name = name) = some entry) :
    Gets memory base name entry.data := by
  obtain ⟨files, reads, scan⟩ := scans archive
  have both := find?_named reads nulFree
  have cut := (cut_iff reads nulFree).mpr reached
  rw [first] at both
  cases search : files.find? fun file => Named memory name file with
  | none =>
    rw [search] at both
    cases both
  | some file =>
    rw [search] at both cut
    cases both with
    | some reads =>
      refine ⟨file.data, file.size, ⟨entries.length + 1, fun fuel enough => ?_⟩,
        bytes_of_reads reads⟩
      rw [(scan name nulFree fuel enough).2, cut]
      rfl

end Archives

/-! ## Mounted somewhere -/

/-- `"ramfs"`. -/
def ramfsName : List UInt8 := [114, 97, 109, 102, 115]

/-- After calls of any tasks ramfs was mounted with these files, and the path leads to its root. -/
inductive MountedAt (cpio : List CpioFile) : VfsHeap → VnodeId → List UInt8 → Prop
  | intro {tree : Vfs} {events : List Action} {s : Session}
      (run : System.Path sessions (boot tree) events s)
      {task fuel : ℕ} {target : List UInt8} {grants : Grants} {t : VfsHeap}
      (result : vfsMount s.heap fuel (s.cwd task) target ramfsName cpio grants = some (0, t))
      {base : VnodeId}
      {directory : List UInt8}
      (leadsTo : Returns t.toVfs base directory (.found (t.mounts s.heap.mountCount).root)) :
      MountedAt cpio t base directory

/-- What a walk sees of the mount. -/
theorem mounted_shown {s : Session} (ordered : Ordered s) {task fuel : ℕ} {target : List UInt8}
    {cpio : List CpioFile} {grants : Grants} {t : VfsHeap}
    (result : vfsMount s.heap fuel (s.cwd task) target ramfsName cpio grants = some (0, t)) :
    ∃ known mountpoint, Returns s.heap.toVfs (s.cwd task) target (.found mountpoint) ∧
      Attached s.heap t known mountpoint (t.mounts s.heap.mountCount).root
      (s.heap.activeMounts.length < maxMounts)
        ((storedFiles cpio maxEntries).map storedName) ∧
      Shown t (t.mounts s.heap.mountCount).root (storedFiles cpio maxEntries) ∧
      ∀ v, known v → (t.vnodes v).fOps = (s.heap.vnodes v).fOps ∧
      nodeOf t.toVfs v = nodeOf s.heap.toVfs v := by
  obtain ⟨known, layered, directories⟩ := ordered
  obtain ⟨mountpoint, lookup⟩ : ∃ mountpoint,
      vfsLookupFrom s.heap.toVfs fuel (s.cwd task) target = some (.found mountpoint) := by
    rw [vfsMount] at result
    obtain ⟨outcome, lookup, rest⟩ := Option.bind_eq_some_iff.mp result
    cases outcome with
    | error code =>
      have zero : code = 0 := congrArg Prod.fst (Option.some.inj rest)
      have minusOne := vfsLookupFrom_code lookup
      omega
    | found mountpoint => exact ⟨mountpoint, lookup⟩
  have registered : (registeredFilesystems.find? fun driver => strcmp driver.1 ramfsName = 0) =
      some (ramfsName, .ramfs) := rfl
  obtain ⟨root, made, setup, rfl⟩ := vfsMount_made ⟨fuel, lookup⟩ registered result
  have point : known mountpoint := layered.closed.vfsLookupFrom (directories task) lookup
  have rootMade := setupMount_made setup
  have entered := Entered.of_setup mountpoint rootMade
  have number : root = s.heap.vnodeCount := rootMade.number
  obtain ⟨rootNode, filled⟩ := Filled.setupMount setup
  have before : ∀ v, known v →
      ((made.link s.heap.mountCount root mountpoint).vnodes v).fOps = (s.heap.vnodes v).fOps ∧
      nodeOf (made.link s.heap.mountCount root mountpoint).toVfs v = nodeOf s.heap.toVfs v := by
    intro v inside
    have allocated := layered.allocated inside
    have vnode : made.vnodes v = s.heap.vnodes v := rootMade.vnodes v allocated.1
    have node : made.nodes (s.heap.vnodes v).internal = s.heap.nodes (s.heap.vnodes v).internal :=
      rootMade.nodes _ allocated.2
    rw [entered.fOps, entered.node, nodeOf, vnode, node, nodeOf]
    exact ⟨rfl, rfl⟩
  rw [entered.newMount]
  exact ⟨known, mountpoint, ⟨fuel, lookup⟩,
    mounted_attached layered point rootMade (setupMount_listed setup),
    filled.link (number ▸ (layered.allocated point).1) s.heap.mountCount, before⟩

section Opening

variable {t : VfsHeap} {root base : VnodeId} {files : List CpioFile}
  {directory name data : List UInt8}

/-- The vnode that is opened. -/
private theorem vfsOpen_found {v : VnodeId} {path : List UInt8}
    (leadsTo : Returns t.toVfs base path (.found v)) (flags : BitVec 32) (behind : List UInt8)
    {grants : Grants} (grant : grants.handle = true) :
    ∃ fuel, vfsOpen t fuel base path flags behind grants =
      some (.handle (openHandle v (t.vnodes v).fOps flags.toInt), t) := by
  obtain ⟨fuel, lookup⟩ := leadsTo
  refine ⟨fuel, ?_⟩
  rw [vfsOpen, lookup, Option.bind_some]
  exact congrArg some (if_neg (by rw [grant]; exact Bool.noConfusion))

private theorem found_of_vfsOpen {fuel : ℕ} {path behind : List UInt8} {grants : Grants}
    {handle : File} {u : VfsHeap}
    (opened : vfsOpen t fuel base path 0#32 behind grants = some (.handle handle, u)) :
    ∃ v, Returns t.toVfs base path (.found v) ∧
      handle = openHandle v (t.vnodes v).fOps 0 ∧ u = t := by
  rw [vfsOpen] at opened
  obtain ⟨outcome, lookup, rest⟩ := Option.bind_eq_some_iff.mp opened
  cases outcome with
  | error code =>
    simp at rest
  | found v =>
    simp only [openFound] at rest
    split at rest
    · simp at rest
    · obtain ⟨same, rfl⟩ := Prod.mk.inj (Option.some.inj rest)
      exact ⟨v, ⟨fuel, lookup⟩, (Opened.handle.inj same).symm, rfl⟩

/-- The walk to a name below the mount goes on from its root. -/
theorem returns_below (leadsTo : Returns t.toVfs base directory (.found root)) {v : VnodeId} :
    Returns t.toVfs base (directory ++ slash :: name) (.found v) ↔
      ∃ fuel, Lookup.walk t.toVfs fuel (components (skipSlashes name)) root = some (.found v) := by
  have nonempty : directory ≠ [] := by
    rintro rfl
    obtain ⟨fuel, lookup⟩ := leadsTo
    simp [vfsLookupFrom] at lookup
  rw [returns_append_iff nonempty leadsTo]
  simp only [continueWith, lookupLoop_eq_walk]

/-- What is read at a spot. -/
def Yields (kept : List (List UInt8)) (data : List UInt8) : Spot → Prop
  | .root => data = []
  | .file slot => kept[slot]? = some data ∧ data.length < 2 ^ 31

/-- What reading the handle of a spot yields. -/
theorem readsOut_spot_iff (shown : Shown t root files) (sizes : ∀ file ∈ files, file.size < 2 ^ 32)
    (dataBound : data.length < 2 ^ 32) (flags : ℤ) {spot : Spot}
    (inside : ∀ slot, spot = .file slot → slot < files.length) :
    ReadsOut t.toVfs (openHandle (spot.vnode root) (t.vnodes (spot.vnode root)).fOps flags) data ↔
      Yields (files.map contents) data spot := by
  cases spot with
  | root =>
    have ops : (openHandle root (t.vnodes root).fOps flags).fOps = some .ramfs := shown.fOps
    exact readsOut_directory_iff ops shown.isDir dataBound
  | file slot =>
    have within := inside slot rfl
    have ops : (openHandle (root + 1 + slot) (t.vnodes (root + 1 + slot)).fOps flags).fOps =
        some .ramfs :=
      shown.fileOps slot within
    have here : (files.map contents)[slot]? = some (contents files[slot]) := by
      rw [List.getElem?_map, List.getElem?_eq_getElem within, Option.map_some]
    simp only [Yields, here, Option.some_inj]
    exact readsOut_file_iff ops (shown.fileNode slot within)
      rfl (sizes _ (List.getElem_mem within)) dataBound

end Opening

/-! ## A directory that nothing else leads to -/

/-- The root directory with a single directory of this name in it. -/
def withDirectory (c : UInt8) : VfsHeap :=
  (tmpfsMkdir (boot smallTree).heap 0 [c] ⟨true, true, true, true, true⟩).2

private theorem withDirectory_run {c : UInt8} (letter : c = 97 ∨ c = 98) :
    System.Path sessions (boot smallTree) [.mkdir 1 0 [c] [] ⟨true, true, true, true, true⟩]
      ⟨withDirectory c, fun _ => 0⟩ := by
  rcases letter with rfl | rfl
  · exact .cons ⟨show (0 : UInt8) ∉ [97] by decide, rfl⟩ (.nil _)
  · exact .cons ⟨show (0 : UInt8) ∉ [98] by decide, rfl⟩ (.nil _)

/-- From `..` of the mounted root a walk comes to the root directory, where only this name leads
on. -/
structure Alone (t : VfsHeap) (root : VnodeId) (c : UInt8) : Prop where
  tmpfs : (t.vnodes 0).fOps = some .tmpfs
  isDir : (nodeOf t.toVfs 0).type = .dir
  up : ∀ {w}, (∃ fuel, lookupComponent t.toVfs fuel root [dot, dot] = some (.found w)) → w = 0
  stays : ∀ {component w}, component = [dot] ∨ component = [dot, dot] →
    (∃ fuel, lookupComponent t.toVfs fuel 0 component = some (.found w)) → w = 0
  only : ∀ {component w}, (0 : UInt8) ∉ component → component ≠ [dot] → component ≠ [dot, dot] →
    (∃ fuel, lookupComponent t.toVfs fuel 0 component = some (.found w)) → component = [c]

/-- The first component that is neither `.` nor `..`. -/
def firstPlain (components : List (List UInt8)) : Option (List UInt8) :=
  components.find? fun component => component ≠ [dot] ∧ component ≠ [dot, dot]

/-- A walk that left the mount ends at the root directory or comes back by the name. -/
theorem Alone.walk {t : VfsHeap} {root x : VnodeId} {c : UInt8} (alone : Alone t root c)
    {components : List (List UInt8)} (cString : ∀ component ∈ components, (0 : UInt8) ∉ component)
    (ends : ∃ fuel, Lookup.walk t.toVfs fuel components 0 = some (.found x)) :
    x = 0 ∨ firstPlain components = some [c] := by
  induction components with
  | nil =>
    obtain ⟨fuel, ends⟩ := ends
    exact .inl (Outcome.found.inj (Option.some.inj ends)).symm
  | cons component rest ih =>
    obtain ⟨cHere, cLater⟩ := List.forall_mem_cons.mp cString
    obtain ⟨w, first, others⟩ := walk_cons_iff.mp ends
    by_cases plain : component ≠ [dot] ∧ component ≠ [dot, dot]
    · obtain rfl := alone.only cHere plain.1 plain.2 first
      exact .inr (List.find?_cons_of_pos (by simpa using plain))
    · have special : component = [dot] ∨ component = [dot, dot] := by
        rwa [not_and_or, not_not, not_not] at plain
      obtain rfl := alone.stays special first
      rw [firstPlain, List.find?_cons_of_neg (by simpa using plain)]
      exact ih cLater others

/-- What is in the tree with the single directory. -/
theorem withDirectory_facts {c : UInt8} (letter : c = 97 ∨ c = 98) :
    vfsLookupFrom (withDirectory c).toVfs 10 0 [c] = some (.found 1) ∧
      ((withDirectory c).vnodes 0).fOps = some .tmpfs ∧
      (nodeOf (withDirectory c).toVfs 0).type = .dir ∧
      mountedOn (withDirectory c).toVfs 0 = none ∧ mountpointOf (withDirectory c).toVfs 1 = none ∧
      above (withDirectory c).toVfs 1 = 0 ∧ (withDirectory c).activeMounts.length < maxMounts ∧
      ((withDirectory c).vnodes 0).vOps = some .tmpfs ∧
      (nodeOf (withDirectory c).toVfs 1).cName = [c] ∧
      (List.finRange maxEntries).filterMap (nodeOf (withDirectory c).toVfs 0).entries = [1] ∧
      driverLookup (withDirectory c).toVfs 0 [c] = .found 1 ∧ ([c] ≠ [dot] ∧ [c] ≠ [dot, dot]) ∧
      components (skipSlashes [c]) = [[c]] ∧ [c].head? ≠ some slash ∧ (0 : UInt8) ∉ [c] := by
  rcases letter with rfl | rfl <;> decide +kernel

/-- Only the directory is found. -/
private theorem withDirectory_lookup {c : UInt8} (letter : c = 97 ∨ c = 98) {component : List UInt8}
    {w : VnodeId} (cString : (0 : UInt8) ∉ component)
    (found : driverLookup (withDirectory c).toVfs 0 component = .found w) :
    component = [c] := by
  obtain ⟨-, -, -, -, -, -, -, -, name, entries, -⟩ := withDirectory_facts letter
  obtain ⟨slot, entry, same⟩ := child_of_found found
  have member : w ∈
      (List.finRange maxEntries).filterMap (nodeOf (withDirectory c).toVfs 0).entries :=
    List.mem_filterMap.mpr ⟨slot, List.mem_finRange slot, entry.2⟩
  rw [entries, List.mem_singleton] at member
  rw [member, strcmp_eq_zero_iff (zero_notMem_cName _) cString, name] at same
  exact same.symm

/-- The mount on the only directory. -/
private theorem alone_mount {c : UInt8} (letter : c = 97 ∨ c = 98) (cpio : List CpioFile) :
    ∃ t root, MountedAt cpio t 0 [c] ∧ Returns t.toVfs 0 [c] (.found root) ∧ Alone t root c ∧
      Shown t root (storedFiles cpio maxEntries) ∧
      ∃ fs known mountpoint room,
        Attached fs t known mountpoint root room
        ((storedFiles cpio maxEntries).map storedName) := by
  obtain ⟨lookup, tmpfs, isDir, uncovered, lowest, goesUp, room, vOps, -, -, child, plain,
      path, relative, cString⟩ :=
    withDirectory_facts letter
  have run := withDirectory_run letter
  have ordered :=
    run.invariant (P := Ordered) (fun ordered step => ordered.step step) (boot_ordered smallTree)
  generalize session : (⟨withDirectory c, fun _ => 0⟩ : Session) = s at run ordered
  have heap : s.heap = withDirectory c := by rw [← session]
  have cwd : s.cwd 0 = 0 := by rw [← session]
  obtain ⟨t, result⟩ : ∃ t,
      vfsMount s.heap 10 (s.cwd 0) [c] ramfsName cpio ⟨true, true, true, true, true⟩ =
      some (0, t) := by
    rw [heap, cwd]
    simp only [vfsMount, lookup]
    exact ⟨_, rfl⟩
  obtain ⟨known, mountpoint, target, attached, shown, before⟩ := mounted_shown ordered result
  generalize mounted : (t.mounts s.heap.mountCount).root = root at attached shown
  rw [heap] at target attached before
  rw [cwd] at target
  obtain rfl : mountpoint = 1 := Outcome.found.inj (Returns.unique target ⟨10, lookup⟩)
  have top : t.root = 0 := attached.top.trans attached.layered.root_eq
  have inside : known 0 := by
    have rootKnown := attached.layered.root.2
    rwa [attached.layered.root_eq] at rootKnown
  have crosses : ∀ {x}, (∃ fuel, crossMounts t.toVfs fuel 0 = some x) ↔ x = 0 :=
    Attached.crosses_iff ((attached.down inside (by decide)).trans uncovered)
  have leadsTo : Returns t.toVfs 0 [c] (.found root) := by
    have lands := (attached.lands_iff inside).mpr (.child plain vOps child)
    have entered := attached.crossMounts_over attached.point .refl
    rw [returns_iff_walk (List.cons_ne_nil c []), path, start, if_neg relative, walk_cons_iff]
    exact ⟨root, (lookupComponent_found_iff cString).mpr (.inr (.inr ⟨1, lands, entered⟩)), 0, rfl⟩
  refine ⟨t, root, .intro run result (mounted ▸ leadsTo), leadsTo,
    ⟨(before 0 inside).1.trans tmpfs, ?_, ?_, ?_, ?_⟩, shown, _, _, _, _, attached⟩
  · rw [(before 0 inside).2]
    exact isDir
  · intro w step
    obtain ⟨same, -⟩ | ⟨-, atTop, -⟩ | ⟨u, lands, crossed⟩ :=
      (lookupComponent_found_iff (by decide)).mp step
    · exact absurd same (by decide)
    · exact absurd atTop attached.root_notTop
    · obtain ⟨-, lands⟩ := (attached.lands_up_iff room).mp lands
      cases lands with
      | child plain => exact absurd rfl plain.2
      | @up fuel popped notRoot pops =>
        cases fuel with
        | zero => cases pops
        | succ fuel =>
          rw [Attached.popMounts_stays lowest] at pops
          obtain rfl := Option.some.inj pops
          rw [goesUp] at crossed
          exact crosses.mp crossed
  · intro component w special step
    obtain ⟨-, same⟩ | ⟨-, -, same⟩ | ⟨u, lands, -⟩ := (lookupComponent_found_iff (by
      rcases special with rfl | rfl <;> decide)).mp step
    · exact same
    · exact same
    · cases lands with
      | child plain => exact absurd special (not_or.mpr plain)
      | up notRoot => exact absurd top.symm notRoot
  · intro component w cString notDot notUp step
    obtain ⟨same, -⟩ | ⟨same, -⟩ | ⟨u, lands, -⟩ := (lookupComponent_found_iff cString).mp step
    · exact absurd same notDot
    · exact absurd same notUp
    · exact withDirectory_lookup letter cString
        (((attached.lands_iff inside).mp lands).of_name notUp)

/-! ## When both views agree -/

/-- Wherever ramfs is mounted with the files of this archive, the name below the mount can be
opened, and reading the handle in chunks of any sizes yields these bytes. -/
def SameFile (memory : ByteMemory) (base : Word) (granted : ℕ → Bool)
    (name data : List UInt8) : Prop :=
  ∀ cpio, (∃ bound, ∀ fuel ≥ bound, ramDisk memory base granted fuel = some cpio) →
    ∀ t start directory, MountedAt cpio t start directory →
      ∀ flags behind grants, grants.handle = true →
      ∃ fuel handle u,
        vfsOpen t fuel start (directory ++ slash :: name) flags behind grants =
        some (.handle handle, u) ∧ ReadsOut u.toVfs handle data

/-- The components of the name lead to a kept file with the data of the first entry of the name, and
its size fits an `int`; or they lead to the root of the mount, and there are no data. -/
def KeptFile (granted : ℕ → Bool) (entries : List Entry) (name : List UInt8) : Prop :=
  ∃ entry spot, (entries.find? fun entry => entry.name = name) = some entry ∧
    destination (keptNames granted entries) .root (components (skipSlashes name)) = some spot ∧
    Yields ((keptEntries granted entries).map Entry.data) entry.data spot

section Agreement

variable {memory : ByteMemory} {base : Word} {entries : List Entry}
  {trailer : Attributes} {granted : ℕ → Bool}
  {name data : List UInt8}

/-- No file is larger than its entry. -/
theorem storedFiles_sizes {cpio : List CpioFile}
    (same : (storedFiles cpio maxEntries).map contents =
      (keptEntries granted entries).map Entry.data) :
    ∀ file ∈ storedFiles cpio maxEntries, file.size < 2 ^ 32 := by
  intro file member
  have inside : contents file ∈ (keptEntries granted entries).map Entry.data :=
    same ▸ List.mem_map_of_mem member
  obtain ⟨entry, -, data⟩ := List.mem_map.mp inside
  rw [← length_contents file, ← data]
  exact entry.dataBound

theorem zeroFree_components (nulFree : 0 ∉ name) :
    ∀ component ∈ components (skipSlashes name), (0 : UInt8) ∉ component :=
  fun _ member => components_cString (fun inside => nulFree (skipSlashes_subset _ inside)) member

private theorem sameFile_of_kept (archive : ArchiveAt memory base entries trailer)
    (nulFree : 0 ∉ name) (gets : Gets memory base name data)
    (kept : KeptFile granted entries name) :
    SameFile memory base granted name data := by
  obtain ⟨entry, spot, first, leads, yields⟩ := kept
  obtain ⟨entry', first', rfl⟩ := gets.entry archive nulFree
  obtain rfl := Option.some.inj (first.symm.trans first')
  rintro cpio taken t start directory ⟨run, result, leadsTo⟩ flags behind grants grant
  obtain ⟨cpio', taken', holds⟩ := ramDisk_archive archive granted
  obtain rfl : cpio = cpio' := by
    obtain ⟨bound, taken⟩ := taken
    obtain ⟨bound', taken'⟩ := taken'
    exact Option.some.inj
      ((taken _ (le_max_left bound bound')).symm.trans (taken' _ (le_max_right bound bound')))
  obtain ⟨names, same⟩ := storedFiles_archive holds
  have ordered :=
    run.invariant (P := Ordered) (fun ordered step => ordered.step step) (boot_ordered _)
  obtain ⟨known, mountpoint, -, attached, shown, -⟩ := mounted_shown ordered result
  rw [← names] at leads
  rw [← same] at yields
  obtain ⟨-, walks⟩ :=
    walk_destination shown attached (zeroFree_components nulFree) (Spot.standing_root t _) leads
  obtain ⟨fuel, opened⟩ := vfsOpen_found ((returns_below leadsTo).mpr walks) flags behind grant
  refine ⟨fuel, _, _, opened,
    (readsOut_spot_iff shown (storedFiles_sizes same) entry.dataBound _ ?_).mpr yields⟩
  rintro slot rfl
  have bound := destination_bound (fun _ root => Spot.noConfusion root) leads
  rwa [List.length_map] at bound

theorem kept_of_sameFile (archive : ArchiveAt memory base entries trailer) (nulFree : 0 ∉ name)
    (gets : Gets memory base name data) (sameFile : SameFile memory base granted name data) :
    KeptFile granted entries name := by
  obtain ⟨entry, first, rfl⟩ := gets.entry archive nulFree
  obtain ⟨cpio, taken, holds⟩ := ramDisk_archive archive granted
  obtain ⟨names, same⟩ := storedFiles_archive holds
  -- where the name leads when ramfs is mounted on the only directory, with this name
  have opens : ∀ c, c = 97 ∨ c = 98 → ∃ t root v, Alone t root c ∧
      Shown t root (storedFiles cpio maxEntries) ∧
      (∃ fs known mountpoint room,
        Attached fs t known mountpoint root room ((storedFiles cpio maxEntries).map storedName)) ∧
      (∃ fuel, Lookup.walk t.toVfs fuel (components (skipSlashes name)) root = some (.found v)) ∧
      ReadsOut t.toVfs (openHandle v (t.vnodes v).fOps 0) entry.data := by
    intro c letter
    obtain ⟨t, root, mounted, leadsTo, alone, shown, attached⟩ := alone_mount letter cpio
    obtain ⟨fuel, handle, u, opened, reads⟩ :=
      sameFile cpio taken t 0 [c] mounted 0#32 [] ⟨true, true, true, true, true⟩ rfl
    obtain ⟨v, returns, rfl, rfl⟩ := found_of_vfsOpen opened
    exact ⟨_, root, v, alone, shown, attached, (returns_below leadsTo).mp returns, reads⟩
  cases leads : destination ((storedFiles cpio maxEntries).map storedName)
    .root (components (skipSlashes name)) with
  | some spot =>
    obtain ⟨t, root, v, -, shown, ⟨fs, known, mountpoint, room, attached⟩, ends, reads⟩ :=
      opens 97 (.inl rfl)
    obtain ⟨-, walks⟩ :=
      walk_destination shown attached (zeroFree_components nulFree) (Spot.standing_root t _) leads
    obtain rfl : v = spot.vnode root := by
      obtain ⟨n, ends⟩ := ends
      obtain ⟨m, walks⟩ := walks
      have left := walk_mono t.toVfs (Nat.le_max_left n m) ends
      have right := walk_mono t.toVfs (Nat.le_max_right n m) walks
      exact Outcome.found.inj (Option.some.inj (left.symm.trans right))
    refine ⟨entry, spot, first, names ▸ leads, same ▸ ?_⟩
    refine (readsOut_spot_iff shown (storedFiles_sizes same) entry.dataBound 0 ?_).mp reads
    rintro slot rfl
    have bound := destination_bound (fun _ root => Spot.noConfusion root) leads
    rwa [List.length_map] at bound
  | none =>
    -- the walk leaves the mount, and can only come back by the name of the directory
    have comesBack : ∀ c, c = 97 ∨ c = 98 → ∃ rest,
        leaves ((storedFiles cpio maxEntries).map storedName) .root (components
          (skipSlashes name)) = some rest ∧
          firstPlain rest = some [c] := by
      intro c letter
      obtain ⟨t, root, v, alone, shown, ⟨fs, known, mountpoint, room, attached⟩, ends, reads⟩ :=
        opens c letter
      obtain ⟨rest, left, outside⟩ :=
        walk_leaves shown attached (zeroFree_components nulFree) (Spot.standing_root t _) leads ends
      obtain ⟨w, up, others⟩ := walk_cons_iff.mp outside
      obtain rfl := alone.up up
      have inside := leaves_subset left
      obtain rfl | back :=
        alone.walk (fun _ member => zeroFree_components nulFree _ (inside member)) others
      · exact absurd reads (not_readsOut_tmpfs alone.tmpfs alone.isDir)
      · exact ⟨rest, left, back⟩
    obtain ⟨rest, left, back⟩ := comesBack 97 (.inl rfl)
    obtain ⟨rest', left', back'⟩ := comesBack 98 (.inr rfl)
    obtain rfl := Option.some.inj (left.symm.trans left')
    exact absurd (back.symm.trans back') (by decide)

/-- For every archive, whichever allocations of the mount succeed, and every name that
`cpio_get_file` finds: opening it below a mounted ramfs and reading yields the same bytes exactly
when its components lead to a kept file with them. -/
theorem same_files_iff (archive : ArchiveAt memory base entries trailer) (granted : ℕ → Bool)
    (nulFree : 0 ∉ name) (gets : Gets memory base name data) :
    SameFile memory base granted name data ↔ KeptFile granted entries name :=
  ⟨kept_of_sameFile archive nulFree gets, sameFile_of_kept archive nulFree gets⟩

end Agreement

/-- The file `a` is seen by both. -/
theorem same_files_letter :
    SameFile (memoryOf 4096#64 (encode [letterEntry] letterEntry.attributes))
      4096#64 (fun _ => true) [97] [7] := by
  have archive := archive_memoryOf [letterEntry] letterEntry.attributes (by decide)
  have gets : Gets (memoryOf 4096#64 (encode [letterEntry] letterEntry.attributes))
      4096#64 [97] letterEntry.data :=
    gets_of_reached archive (by decide) (by decide) rfl
  refine (same_files_iff archive (fun _ => true) (by decide) gets).mpr
    ⟨letterEntry, .file 0, rfl, ?_, rfl, by decide⟩
  decide +kernel

/-- An entry in a directory of the archive. -/
def nestedEntry : Entry :=
  smallEntry [97, slash, 98] (by decide) (by decide) (by decide) (by decide)

/-- `cpio_get_file` finds `a/b`, and below a mounted ramfs it is not seen. -/
theorem nested_file_differs :
    let memory := memoryOf 4096#64 (encode [nestedEntry] nestedEntry.attributes)
    ArchiveAt memory 4096#64 [nestedEntry] nestedEntry.attributes ∧
      Gets memory 4096#64 [97, slash, 98] [7] ∧
      ¬ SameFile memory 4096#64 (fun _ => true) [97, slash, 98] [7] := by
  intro memory
  have archive := archive_memoryOf [nestedEntry] nestedEntry.attributes (by decide)
  have gets : Gets memory 4096#64 [97, slash, 98] nestedEntry.data :=
    gets_of_reached archive (by decide) (by decide) rfl
  refine ⟨archive, gets, fun same => ?_⟩
  obtain ⟨entry, spot, -, leads, -⟩ := kept_of_sameFile archive (by decide) gets same
  have lost : destination (keptNames (fun _ => true) [nestedEntry]) .root
      (components (skipSlashes [97, slash, 98])) = none := by
    decide +kernel
  exact absurd (lost.symm.trans leads) (Option.some_ne_none spot).symm

end OscKernel.Soundness.RamfsFiles
