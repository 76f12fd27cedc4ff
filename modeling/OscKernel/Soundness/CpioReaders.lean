import OscKernel.Soundness.CpioArchive

/-! # The two readers of an archive

`cpio_get_all_files` ends at the entry named `TRAILER!!!`, and `cpio_get_file` at the first one
whose name begins with these ten bytes. In between the two go the same way.
-/

namespace OscKernel.Soundness.CpioReaders

open OscKernel.Lib OscKernel.Model OscKernel.Soundness.CpioArchive

/-! ## Names -/

section Names

variable {memory : ByteMemory} {s : Word} {name other : List UInt8}

instance decidableStored (memory : ByteMemory) :
    ∀ (s : Word) (bytes : List UInt8), Decidable (Stored memory s bytes)
  | _, [] => inferInstanceAs (Decidable True)
  | s, byte :: rest =>
    have := decidableStored memory (s + 1#64) rest
    inferInstanceAs (Decidable (memory s = byte ∧ Stored memory (s + 1#64) rest))

private theorem stored_zero_iff (stored : Stored memory s (name ++ [0])) (nulFree : 0 ∉ name)
    (otherNulFree : 0 ∉ other) :
    Stored memory s (other ++ [0]) ↔ name = other := by
  induction name generalizing s other with
  | nil =>
    cases other with
    | nil => exact iff_of_true stored rfl
    | cons d others =>
      have notNul : d ≠ 0 := fun same => otherNulFree (same ▸ List.mem_cons_self)
      refine iff_of_false (fun there => notNul ?_) (List.cons_ne_nil d others).symm
      exact there.1.symm.trans stored.1
  | cons c rest ih =>
    have notNul : c ≠ 0 := fun same => nulFree (same ▸ List.mem_cons_self)
    cases other with
    | nil =>
      refine iff_of_false (fun there => notNul ?_) (List.cons_ne_nil c rest)
      exact stored.1.symm.trans there.1
    | cons d others =>
      have behind :=
        @ih (s + 1#64) others stored.2 (fun inside => nulFree (List.mem_cons_of_mem c inside))
        (fun inside => otherNulFree (List.mem_cons_of_mem d inside))
      rw [List.cons_append, Stored, behind, List.cons.injEq, stored.1]

private theorem memcmp_eq_zero_iff : memory.memcmp s other = 0 ↔ Stored memory s other := by
  induction other generalizing s with
  | nil => exact iff_of_true rfl trivial
  | cons d others ih =>
    rw [ByteMemory.memcmp, Stored]
    by_cases here : memory s = d
    · rw [if_neg (not_not.mpr here), ih, and_iff_right here]
    · have values : (memory s).toNat ≠ d.toNat := fun same => here (UInt8.toNat_inj.mp same)
      rw [if_pos here]
      refine iff_of_false (fun zero => ?_) fun both => here both.1
      omega

/-- A literal that is stored where a string is begins the string. -/
theorem stored_iff_begins (stored : Stored memory s (name ++ [0])) (otherNulFree : 0 ∉ other) :
    Stored memory s other ↔ other <+: name := by
  induction other generalizing s name with
  | nil => exact iff_of_true trivial List.nil_prefix
  | cons d others ih =>
    have notNul : d ≠ 0 := fun same => otherNulFree (same ▸ List.mem_cons_self)
    cases name with
    | nil =>
      refine iff_of_false (fun there => notNul (there.1.symm.trans stored.1)) fun beginning => ?_
      exact absurd (List.prefix_nil.mp beginning) (List.cons_ne_nil d others)
    | cons c rest =>
      rw [List.cons_prefix_cons, Stored, stored.1,
        ih stored.2 fun inside => otherNulFree (List.mem_cons_of_mem d inside)]
      exact and_congr_left fun _ => eq_comm

end Names

/-! ## Entries -/

/-- The handed-out file has this name. -/
def Named (memory : ByteMemory) (name : List UInt8) (file : CpioCursor) : Prop :=
  Stored memory file.name (name ++ [0])

/-- Where `cpio_get_file` ends. -/
def TrailerLike (name : List UInt8) : Prop := cpioTrailer <+: name

instance (memory : ByteMemory) (name : List UInt8) (file : CpioCursor) :
    Decidable (Named memory name file) :=
  decidableStored memory _ _

instance (name : List UInt8) : Decidable (TrailerLike name) := inferInstanceAs (Decidable (_ <+: _))

/-- What a caller of `cpio_get_file` makes of a file. -/
def found (file : CpioCursor) : Word × Word := (file.data, file.size)

section Files

variable {memory : ByteMemory} {file : CpioCursor} {entry : Entry} {name : List UInt8}

theorem named_iff (reads : Reads memory file entry) (nulFree : 0 ∉ name) :
    Named memory name file ↔ entry.name = name :=
  stored_zero_iff reads.1 entry.nulFree nulFree

theorem trailerLike_iff (reads : Reads memory file entry) :
    Stored memory file.name cpioTrailer ↔ TrailerLike entry.name :=
  stored_iff_begins reads.1 (by decide)

/-- The name of an entry is found in the enumeration. -/
theorem find?_eq_none_iff {files : List CpioCursor} {entries : List Entry}
    (reads : List.Forall₂ (Reads memory) files entries) (nulFree : 0 ∉ name) :
    (files.find? fun file => Named memory name file) = none ↔ name ∉ entries.map Entry.name := by
  induction reads with
  | nil => exact iff_of_true rfl List.not_mem_nil
  | @cons file entry files entries here _ ih =>
    have named := named_iff here nulFree
    rw [List.map_cons, List.mem_cons, not_or]
    by_cases same : entry.name = name
    · rw [List.find?_cons_of_pos (by simpa using named.mpr same)]
      exact iff_of_false (Option.some_ne_none file) fun both => both.1 same.symm
    · rw [List.find?_cons_of_neg (by simpa using mt named.mp same), ih]
      exact (and_iff_right (Ne.symm same)).symm

end Files

section Entries

variable {memory : ByteMemory} {p base current : Word} {a : Attributes}
  {name data wanted : List UInt8}

/-- What `cpio_get_file` does at an entry. -/
theorem cpioFindFile_entry (stored : Stored memory p (encodeEntry a name data)) (nulFree : 0 ∉ name)
    (wantedNulFree : 0 ∉ wanted) (nameBound : name.length < 2 ^ 31)
    (dataBound : data.length < 2 ^ 32) (fuel : ℕ) :
    cpioFindFile memory wanted (fuel + 1) p = if TrailerLike name then some none
      else if name = wanted then
        some (some (p + BitVec.ofNat 64 (roundUp 4 (110 + (name.length + 1))),
          BitVec.ofNat 64 data.length))
      else cpioFindFile memory wanted fuel
      (p + BitVec.ofNat 64 (encodeEntry a name data).length) := by
  have laid := laidOut stored
  have magic : memory.strncmp p cpioMagic 6 = 0 := strncmp_self laid.magic (by decide)
  have namesize := hextoi_field (by omega) laid.namesize
  have filesize := hextoi_field dataBound laid.filesize
  have trailer : memory.memcmp (p + cpioHeaderSize) cpioTrailer = 0 ↔ TrailerLike name :=
    memcmp_eq_zero_iff.trans (stored_iff_begins laid.nameAt (by decide))
  have same := strcmp_eq_zero laid.nameAt nulFree wantedNulFree
  have size := setWidth_filesize dataBound
  have named : cpioHeaderSize + (BitVec.ofNat 32 (name.length + 1)).setWidth 64 =
      BitVec.ofNat 64 (110 + (name.length + 1)) := by
    rw [setWidth_filesize (by omega), cpioHeaderSize, ← BitVec.ofNat_add]
  have next : BitVec.ofNat 64 (roundUp 4 (110 + (name.length + 1))) +
      BitVec.ofNat 64 (roundUp 4 data.length) =
      BitVec.ofNat 64 (encodeEntry a name data).length := by
    rw [← BitVec.ofNat_add, length_encodeEntry]
  simp only [cpioFindFile, magic, ne_eq, not_true_eq_false, if_false, namesize, filesize,
    setWidth_cpioDataOffset nameBound, size, named, align_ofNat, next]
  by_cases like : TrailerLike name
  · rw [if_pos like, if_pos (trailer.mpr like)]
  · rw [if_neg like, if_neg (mt trailer.mp like)]
    by_cases equal : name = wanted
    · rw [if_pos equal, if_pos (same.mpr equal)]
    · rw [if_neg equal, if_neg (mt same.mp equal)]

end Entries

/-! ## Archives -/

section Archives

variable {memory : ByteMemory} {base p current : Word} {entries : List Entry} {trailer : Attributes}
  {wanted : List UInt8}

/-- An entry with the name stands in the archive, and neither its name nor that of one before it
begins as the trailer's. -/
def Reached (entries : List Entry) (name : List UInt8) : Prop :=
  name ∈ entries.map Entry.name →
    ¬ TrailerLike name ∧
    ∀ entry ∈ entries.takeWhile fun entry => entry.name ≠ name, ¬ TrailerLike entry.name

instance (entries : List Entry) (name : List UInt8) : Decidable (Reached entries name) :=
  inferInstanceAs (Decidable (_ → _))

/-- The scan for a name runs through the same files as the enumeration, up to the first that looks
like the trailer. -/
private theorem scans_from (stored : Stored memory p (encode entries trailer)) (notNull : p ≠ 0#64)
    (fits : p.toNat + (encode entries trailer).length ≤ 2 ^ 64)
    (at_ : (if current = 0#64 then base else current) = p) :
    ∃ files, (∀ fuel > entries.length, cpioFiles memory base fuel current = some files) ∧
      List.Forall₂ (Reads memory) files entries ∧
      ∀ wanted, 0 ∉ wanted → ∀ fuel > entries.length, cpioFindFile memory wanted fuel p =
        some (((files.takeWhile fun file => ¬ Stored memory file.name cpioTrailer).find? fun file =>
          Named memory wanted file).map found) := by
  induction entries generalizing p current with
  | nil =>
    have ends := cpioGetAllFiles_entry stored notNull at_ (by decide) (by decide) (by decide)
    rw [if_pos rfl] at ends
    refine ⟨[], fun fuel enough => ?_, .nil, fun wanted nulFree fuel enough => ?_⟩
    · obtain ⟨fuel, rfl⟩ := Nat.exists_eq_add_one_of_ne_zero (Nat.ne_of_gt enough)
      rw [cpioFiles, ends]
    · obtain ⟨fuel, rfl⟩ := Nat.exists_eq_add_one_of_ne_zero (Nat.ne_of_gt enough)
      rw [cpioFindFile_entry stored (by decide) nulFree (by decide) (by decide), if_pos (by decide)]
      rfl
  | cons entry rest ih =>
    rw [encode_cons] at stored
    have reads :=
      cpioGetAllFiles_entry stored.left notNull at_ entry.nulFree entry.nameBound entry.dataBound
    rw [if_neg entry.notTrailer] at reads
    obtain ⟨nextNotNull, nextFits⟩ := behind_entry notNull fits
    obtain ⟨files, result, others, scan⟩ :=
      ih stored.right nextNotNull nextFits (if_neg nextNotNull)
    have readsEntry := reads_entry stored.left
    refine ⟨_ :: files, fun fuel enough => ?_, .cons readsEntry others,
      fun wanted nulFree fuel enough => ?_⟩
    · obtain ⟨fuel, rfl⟩ :=
        Nat.exists_eq_add_one_of_ne_zero (Nat.ne_of_gt (Nat.zero_lt_of_lt enough))
      rw [cpioFiles, reads]
      change (cpioFiles memory base fuel (p + BitVec.ofNat 64 entry.encode.length)).map _ = _
      rw [result fuel (Nat.lt_of_succ_lt_succ enough)]
      rfl
    · obtain ⟨fuel, rfl⟩ :=
        Nat.exists_eq_add_one_of_ne_zero (Nat.ne_of_gt (Nat.zero_lt_of_lt enough))
      have like := trailerLike_iff readsEntry
      have named := named_iff readsEntry nulFree
      rw [cpioFindFile_entry stored.left entry.nulFree nulFree entry.nameBound entry.dataBound]
      by_cases ends : TrailerLike entry.name
      · rw [if_pos ends, List.takeWhile_cons_of_neg (by simpa using like.mpr ends)]
        rfl
      · rw [if_neg ends, List.takeWhile_cons_of_pos (by simpa using mt like.mp ends)]
        by_cases same : entry.name = wanted
        · rw [if_pos same, List.find?_cons_of_pos (by simpa using named.mpr same)]
          rfl
        · rw [if_neg same, List.find?_cons_of_neg (by simpa using mt named.mp same)]
          exact scan wanted nulFree fuel (Nat.lt_of_succ_lt_succ enough)

/-- Stopping at what looks like the trailer does not change what is found, exactly when an entry
with the name is reached. -/
theorem cut_iff {files : List CpioCursor} (reads : List.Forall₂ (Reads memory) files entries)
    (nulFree : 0 ∉ wanted) :
    (((files.takeWhile fun file => ¬ Stored memory file.name cpioTrailer).find? fun file =>
      Named memory wanted file).map found) =
        (files.find? fun file => Named memory wanted file).map found ↔
      Reached entries wanted := by
  induction reads with
  | nil => exact iff_of_true rfl fun inside => absurd inside List.not_mem_nil
  | @cons file entry files entries here others ih =>
    have named := named_iff here nulFree
    have like := trailerLike_iff here
    by_cases ends : TrailerLike entry.name
    · rw [List.takeWhile_cons_of_neg (by simpa using like.mpr ends), List.find?_nil,
        Option.map_none, eq_comm, Option.map_eq_none_iff,
        find?_eq_none_iff (.cons here others) nulFree]
      refine ⟨fun missing inside => absurd inside missing, fun reached inside => ?_⟩
      obtain ⟨distinct, before⟩ := reached inside
      by_cases same : entry.name = wanted
      · exact distinct (same ▸ ends)
      · rw [List.takeWhile_cons_of_pos (by simpa using same)] at before
        exact before entry List.mem_cons_self ends
    · rw [List.takeWhile_cons_of_pos (by simpa using mt like.mp ends)]
      by_cases same : entry.name = wanted
      · rw [List.find?_cons_of_pos (by simpa using named.mpr same),
          List.find?_cons_of_pos (by simpa using named.mpr same)]
        refine iff_of_true rfl fun _ => ⟨same ▸ ends, ?_⟩
        rw [List.takeWhile_cons_of_neg (by simpa using same)]
        exact fun _ inside => absurd inside List.not_mem_nil
      · have behind : Reached (entry :: entries) wanted ↔ Reached entries wanted := by
          rw [Reached, Reached, List.map_cons, List.mem_cons,
            List.takeWhile_cons_of_pos (by simpa using same)]
          simp only [Ne.symm same, false_or, List.forall_mem_cons, ends,
            not_false_eq_true, true_and]
        rw [List.find?_cons_of_neg (by simpa using mt named.mp same),
          List.find?_cons_of_neg (by simpa using mt named.mp same), ih, behind]

/-- The two readers agree on a name. -/
def Agree (memory : ByteMemory) (base : Word) (name : List UInt8) : Prop :=
  ∃ files result, (∃ bound, ∀ fuel ≥ bound, cpioFiles memory base fuel 0#64 = some files ∧
    cpioGetFile memory base name fuel = some result) ∧
    result = (files.find? fun file => Named memory name file).map found

/-- What `cpio_get_file` and the enumeration return for an archive. -/
theorem scans (archive : ArchiveAt memory base entries trailer) :
    ∃ files, List.Forall₂ (Reads memory) files entries ∧
      ∀ wanted, 0 ∉ wanted → ∀ fuel > entries.length,
      cpioFiles memory base fuel 0#64 = some files ∧
      cpioGetFile memory base wanted fuel =
        some (((files.takeWhile fun file => ¬ Stored memory file.name cpioTrailer).find? fun file =>
          Named memory wanted file).map found) := by
  obtain ⟨files, enumerated, reads, scan⟩ :=
    scans_from archive.stored archive.notNull archive.fits (if_pos rfl)
  refine ⟨files, reads, fun wanted nulFree fuel enough => ⟨enumerated fuel enough, ?_⟩⟩
  rw [cpioGetFile, if_neg archive.notNull]
  exact scan wanted nulFree fuel enough

theorem reached_of_agree (archive : ArchiveAt memory base entries trailer) {name : List UInt8}
    (nulFree : 0 ∉ name) (agree : Agree memory base name) : Reached entries name := by
  obtain ⟨files, reads, scan⟩ := scans archive
  obtain ⟨others, result, ⟨bound, returned⟩, same⟩ := agree
  obtain ⟨enumerated, got⟩ := scan name nulFree (max bound (entries.length + 1))
    (Nat.lt_of_succ_le (le_max_right _ _))
  obtain ⟨enumeratedOther, gotOther⟩ := returned (max bound (entries.length + 1)) (le_max_left _ _)
  obtain rfl := Option.some.inj (enumerated.symm.trans enumeratedOther)
  rw [← Option.some.inj (got.symm.trans gotOther)] at same
  exact (cut_iff reads nulFree).mp same

/-- For every archive and name the two readers agree exactly if the name is reached when an entry
has it. -/
theorem readers_agree (archive : ArchiveAt memory base entries trailer)
    {name : List UInt8} (nulFree : 0 ∉ name) :
    Agree memory base name ↔ Reached entries name := by
  refine ⟨reached_of_agree archive nulFree, fun reached => ?_⟩
  obtain ⟨files, reads, scan⟩ := scans archive
  exact ⟨files, _, ⟨entries.length + 1, fun fuel enough => scan name nulFree fuel enough⟩,
    (cut_iff reads nulFree).mpr reached⟩

end Archives

/-! ## Two archives -/

/-- An entry with a short name and one byte of data. -/
def smallEntry (name : List UInt8) (nonempty : name ≠ []) (nulFree : 0 ∉ name)
    (notTrailer : name ≠ cpioTrailer) (short : name.length < 2 ^ 31) : Entry :=
  ⟨name, [7], ⟨0#32, 0#32, 0#32, 0#32, 0#32, 0#32, 0#32, 0#32, 0#32, 0#32, 0#32⟩, nonempty, nulFree,
    notTrailer, short, by decide⟩

def letterEntry : Entry := smallEntry [97] (by decide) (by decide) (by decide) (by decide)

/-- `TRAILER!!!.txt`. -/
def trailerTextEntry : Entry :=
  smallEntry (cpioTrailer ++ [46, 116, 120, 116]) (by decide) (by decide) (by decide) (by decide)

private theorem length_encode (entries : List Entry) (trailer : Attributes) :
    (encode entries trailer).length = (entries.map fun entry =>
      roundUp 4 (110 + (entry.name.length + 1)) + roundUp 4 entry.data.length).sum + 124 := by
  rw [encode, List.length_append, length_encodeEntry, List.length_flatMap]
  simp only [Entry.encode, length_encodeEntry]
  rfl

theorem archive_memoryOf (entries : List Entry) (trailer : Attributes)
    (small : (entries.map fun entry => roundUp 4 (110 + (entry.name.length + 1)) +
      roundUp 4 entry.data.length).sum +
      124 ≤ 2 ^ 63) :
    ArchiveAt (memoryOf 4096#64 (encode entries trailer)) 4096#64 entries trailer := by
  rw [← length_encode entries trailer] at small
  have base : (4096#64).toNat = 4096 := rfl
  exact ⟨stored_memoryOf _ _ (by omega), by decide, by decide, by omega⟩

theorem readers_agree_letter :
    Agree (memoryOf 4096#64 (encode [letterEntry] letterEntry.attributes)) 4096#64 [97] :=
  (readers_agree (archive_memoryOf [letterEntry] letterEntry.attributes (by decide))
    (by decide)).mpr (by decide)

/-- Behind `TRAILER!!!.txt` the enumeration finds `a`, and `cpio_get_file` finds neither. -/
theorem trailer_text_differs :
    let entries := [trailerTextEntry, letterEntry]
    ArchiveAt (memoryOf 4096#64 (encode entries letterEntry.attributes))
      4096#64 entries letterEntry.attributes ∧
    ¬ Agree (memoryOf 4096#64 (encode entries letterEntry.attributes)) 4096#64 [97] ∧
    ¬ Agree (memoryOf 4096#64 (encode entries letterEntry.attributes))
      4096#64 trailerTextEntry.name := by
  intro entries
  have archive := archive_memoryOf entries letterEntry.attributes (by decide)
  refine ⟨archive, fun agree => ?_, fun agree => ?_⟩
  · exact absurd (reached_of_agree archive (by decide) agree) (by decide)
  · exact absurd (reached_of_agree archive (by decide) agree) (by decide)

end OscKernel.Soundness.CpioReaders
