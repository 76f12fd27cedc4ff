import OscKernel.Model.Cpio

/-! # Reading a newc archive back

An archive is a list of entries, each a header of hexadecimal fields, the name and the data, both
padded to four bytes, with a last entry named `TRAILER!!!`. Where an archive is stored in memory,
the scan of `cpio_get_all_files` reads its entries back one by one and then ends, whatever bytes the
data consists of.
-/

namespace OscKernel.Soundness.CpioArchive

open OscKernel.Lib OscKernel.Model

/-! ## The format -/

/-- An upper-case hexadecimal digit. -/
def hexDigit (d : ℕ) : UInt8 := if d < 10 then UInt8.ofNat (48 + d) else UInt8.ofNat (55 + d)

/-- The lowest digits of a number, the most significant one first. -/
def hexDigits : ℕ → ℕ → List UInt8
  | 0, _ => []
  | k + 1, n => hexDigits k (n / 16) ++ [hexDigit (n % 16)]

/-- The fields of a header that the kernel does not read. -/
structure Attributes where
  ino : BitVec 32
  mode : BitVec 32
  uid : BitVec 32
  gid : BitVec 32
  nlink : BitVec 32
  mtime : BitVec 32
  devmajor : BitVec 32
  devminor : BitVec 32
  rdevmajor : BitVec 32
  rdevminor : BitVec 32
  check : BitVec 32

/-- A file of an archive. -/
structure Entry where
  name : List UInt8
  data : List UInt8
  attributes : Attributes
  nonempty : name ≠ []
  nulFree : 0 ∉ name
  notTrailer : name ≠ cpioTrailer
  nameBound : name.length < 2 ^ 31
  dataBound : data.length < 2 ^ 32

def field (n : ℕ) : List UInt8 := hexDigits 8 n

/-- The fields before the file size. -/
def Attributes.front (a : Attributes) : List UInt8 :=
  cpioMagic ++ (field a.ino.toNat ++ field a.mode.toNat ++ field a.uid.toNat ++ field a.gid.toNat ++
    field a.nlink.toNat ++ field a.mtime.toNat)

/-- The fields between the file size and the size of the name. -/
def Attributes.middle (a : Attributes) : List UInt8 :=
  field a.devmajor.toNat ++ field a.devminor.toNat ++
    field a.rdevmajor.toNat ++ field a.rdevminor.toNat

/-- `struct cpio_newc_header`. -/
def header (a : Attributes) (filesize namesize : ℕ) : List UInt8 :=
  a.front ++ (field filesize ++ (a.middle ++ (field namesize ++ field a.check.toNat)))

def encodeEntry (a : Attributes) (name data : List UInt8) : List UInt8 :=
  padded 4 (header a data.length (name.length + 1) ++ (name ++ [0])) ++ padded 4 data

def Entry.encode (entry : Entry) : List UInt8 := encodeEntry entry.attributes entry.name entry.data

/-- An archive, with the attributes of its last entry. -/
def encode (entries : List Entry) (trailer : Attributes) : List UInt8 :=
  entries.flatMap Entry.encode ++ encodeEntry trailer cpioTrailer []

/-- The archive is stored in memory; it does not reach around the end of the address space. -/
structure ArchiveAt (memory : ByteMemory) (base : Word) (entries : List Entry)
    (trailer : Attributes) : Prop where
  stored : Stored memory base (encode entries trailer)
  notNull : base ≠ 0#64
  aligned : base.toNat % 4 = 0
  fits : base.toNat + (encode entries trailer).length ≤ 2 ^ 64

/-- What the scan handed out is the entry. -/
def Reads (memory : ByteMemory) (file : CpioCursor) (entry : Entry) : Prop :=
  Stored memory file.name (entry.name ++ [0]) ∧ file.size.toNat = entry.data.length ∧
    Stored memory file.data entry.data

/-! ## Fields -/

section Fields

variable {memory : ByteMemory} {s : Word}

theorem length_hexDigits (k n : ℕ) : (hexDigits k n).length = k := by
  induction k generalizing n with
  | zero => rfl
  | succ k ih => rw [hexDigits, List.length_append, ih, List.length_singleton]

@[simp] theorem length_field (n : ℕ) : (field n).length = 8 := length_hexDigits 8 n

@[simp] theorem length_front (a : Attributes) :
    a.front.length = 54 := by simp [Attributes.front, cpioMagic]

@[simp] theorem length_middle (a : Attributes) : a.middle.length = 32 := by simp [Attributes.middle]

@[simp] theorem length_header (a : Attributes) (filesize namesize : ℕ) :
    (header a filesize namesize).length = 110 := by
  simp [header]

/-- The digits are read one after the other. -/
private theorem hextoiFrom_append (r : BitVec 32) (n m : ℕ) :
    memory.hextoiFrom r s (n + m) =
      memory.hextoiFrom (memory.hextoiFrom r s n) (s + BitVec.ofNat 64 n) m := by
  induction n generalizing r s with
  | zero => rw [Nat.zero_add, BitVec.add_zero, ByteMemory.hextoiFrom]
  | succ n ih =>
    have shift : s + 1#64 + BitVec.ofNat 64 n = s + BitVec.ofNat 64 (n + 1) := by
      rw [BitVec.add_assoc, ← BitVec.ofNat_add, Nat.add_comm]
    rw [Nat.add_right_comm, ByteMemory.hextoiFrom, ih, shift]
    rfl

/-- One digit more. -/
private theorem hextoiFrom_digit (r : BitVec 32) {d : ℕ} (digit : d < 16)
    (here : memory s = hexDigit d) :
    memory.hextoiFrom r s 1 = r * 16#32 + BitVec.ofNat 32 d := by
  have values : ∀ d < 16,
      (if hexDigit d ≥ 65 then BitVec.ofNat 32 (hexDigit d).toNat - 65#32 + 10#32
      else BitVec.ofNat 32 (hexDigit d).toNat - 48#32) = BitVec.ofNat 32 d := by decide
  have shifted : r <<< 4 = r * 16#32 := BitVec.shiftLeft_eq_mul_twoPow r 4
  simp only [ByteMemory.hextoiFrom, here, shifted]
  rw [← values d digit]
  split <;> rfl

/-- `hextoi` reads a number that fits. -/
private theorem hextoi_digits {k n : ℕ} (fits : k ≤ 8) (bound : n < 16 ^ k)
    (stored : Stored memory s (hexDigits k n)) :
    memory.hextoi s k = BitVec.ofNat 32 n := by
  induction k generalizing n with
  | zero =>
    obtain rfl := Nat.lt_one_iff.mp bound
    rfl
  | succ k ih =>
    have high : n / 16 < 16 ^ k := by
      rw [Nat.pow_succ] at bound
      exact Nat.div_lt_of_lt_mul (Nat.mul_comm _ 16 ▸ bound)
    have last := stored.right
    rw [length_hexDigits] at last
    have before := ih (Nat.le_of_succ_le fits) high stored.left
    rw [ByteMemory.hextoi] at before ⊢
    rw [hextoiFrom_append, before, hextoiFrom_digit _ (Nat.mod_lt n (by decide)) last.1,
      ← BitVec.ofNat_mul, ← BitVec.ofNat_add, Nat.div_add_mod']

theorem hextoi_field {n : ℕ} (bound : n < 2 ^ 32) (stored : Stored memory s (field n)) :
    memory.hextoi s 8 = BitVec.ofNat 32 n :=
  hextoi_digits (le_refl 8) bound stored

/-! ## Strings -/

theorem strcmp_eq_zero {string other : List UInt8} (stored : Stored memory s (string ++ [0]))
    (nulFree : 0 ∉ string) (otherNulFree : 0 ∉ other) :
    memory.strcmp s other = 0 ↔ string = other := by
  induction string generalizing s other with
  | nil =>
    have here : memory s = 0 := stored.1
    cases other with
    | nil => simp [ByteMemory.strcmp, here]
    | cons d others =>
      have notNul : d ≠ 0 := fun same => otherNulFree (same ▸ List.mem_cons_self)
      have positive : d.toNat ≠ 0 := fun zero => notNul (UInt8.toNat_inj.mp zero)
      simp [ByteMemory.strcmp, here, positive]
  | cons c rest ih =>
    have here : memory s = c := stored.1
    have notNul : c ≠ 0 := fun same => nulFree (same ▸ List.mem_cons_self)
    cases other with
    | nil =>
      have positive : c.toNat ≠ 0 := fun zero => notNul (UInt8.toNat_inj.mp zero)
      simp [ByteMemory.strcmp, here, positive]
    | cons d others =>
      rw [ByteMemory.strcmp, here]
      rcases eq_or_ne c d with rfl | different
      · rw [if_pos ⟨notNul, rfl⟩,
          ih stored.2 (fun inside => nulFree (List.mem_cons_of_mem c inside))
          (fun inside => otherNulFree (List.mem_cons_of_mem c inside))]
        simp
      · have values : c.toNat ≠ d.toNat := fun same => different (UInt8.toNat_inj.mp same)
        rw [if_neg (fun both => different both.2)]
        constructor
        · intro zero
          omega
        · intro same
          exact absurd (List.cons.inj same).1 different

/-- A string compares equal with itself as far as it is compared. -/
theorem strncmp_self {string : List UInt8}
    (stored : Stored memory s string) (nulFree : 0 ∉ string) :
    memory.strncmp s string string.length = 0 := by
  induction string generalizing s with
  | nil => rfl
  | cons c rest ih =>
    have notNul : c ≠ 0 := fun same => nulFree (same ▸ List.mem_cons_self)
    rw [List.length_cons, ByteMemory.strncmp, if_pos ⟨stored.1 ▸ notNul, stored.1⟩]
    exact ih stored.2 fun inside => nulFree (List.mem_cons_of_mem c inside)

end Fields

/-! ## Entries -/

section Entries

variable {memory : ByteMemory} {p base current : Word} {a : Attributes} {name data : List UInt8}

theorem length_encodeEntry (a : Attributes) (name data : List UInt8) :
    (encodeEntry a name data).length = roundUp 4
    (110 + (name.length + 1)) + roundUp 4 data.length := by
  rw [encodeEntry, List.length_append, length_padded (by decide), length_padded (by decide),
    List.length_append, length_header, List.length_append, List.length_singleton]

/-- The parts of an entry that the kernel reads. -/
structure LaidOut (memory : ByteMemory) (p : Word) (name data : List UInt8) : Prop where
  magic : Stored memory p cpioMagic
  filesize : Stored memory (p + cpioFilesizeOffset) (field data.length)
  namesize : Stored memory (p + cpioNamesizeOffset) (field (name.length + 1))
  nameAt : Stored memory (p + cpioHeaderSize) (name ++ [0])
  dataAt : Stored memory (p + BitVec.ofNat 64 (roundUp 4 (110 + (name.length + 1)))) data

theorem laidOut (stored : Stored memory p (encodeEntry a name data)) :
    LaidOut memory p name data := by
  have described : Stored memory p (header a data.length (name.length + 1) ++ (name ++ [0])) :=
    stored.left.left
  have fields := described.left.right
  have sizes := fields.right.right
  have string := described.right
  have contents : Stored memory _ data := stored.right.left
  rw [length_padded (by decide), List.length_append, length_header, List.length_append,
    List.length_singleton] at contents
  rw [length_header] at string
  rw [length_front] at fields sizes
  rw [length_field, length_middle, BitVec.add_assoc, BitVec.add_assoc] at sizes
  exact ⟨described.left.left.left, fields.left, sizes.left, string, contents⟩

theorem setWidth_cpioDataOffset {n : ℕ} (bound : n < 2 ^ 31) :
    ((cpioDataOffset (BitVec.ofNat 32 (n + 1))).setWidth 64) = BitVec.ofNat 64
    (roundUp 4 (110 + (n + 1))) := by
  have size : cpioHeaderSize + (BitVec.ofNat 32 (n + 1)).setWidth 64 =
      BitVec.ofNat 64 (110 + (n + 1)) := by
    apply BitVec.eq_of_toNat_eq
    rw [cpioHeaderSize, BitVec.toNat_add, BitVec.toNat_setWidth, BitVec.toNat_ofNat,
      BitVec.toNat_ofNat, BitVec.toNat_ofNat]
    omega
  rw [cpioDataOffset, size, align_ofNat]
  apply BitVec.eq_of_toNat_eq
  rw [BitVec.toNat_setWidth, BitVec.toNat_setWidth, BitVec.toNat_ofNat, roundUp]
  omega

theorem setWidth_filesize {n : ℕ} (bound : n < 2 ^ 32) :
    (BitVec.ofNat 32 n).setWidth 64 = BitVec.ofNat 64 n := by
  apply BitVec.eq_of_toNat_eq
  rw [BitVec.toNat_setWidth, BitVec.toNat_ofNat, BitVec.toNat_ofNat]
  omega

/-- What `cpio_get_all_files` does at an entry. -/
theorem cpioGetAllFiles_entry (stored : Stored memory p (encodeEntry a name data))
    (notNull : p ≠ 0#64) (at_ : (if current = 0#64 then base else current) = p) (nulFree : 0 ∉ name)
    (nameBound : name.length < 2 ^ 31) (dataBound : data.length < 2 ^ 32) :
    cpioGetAllFiles memory base current = if name = cpioTrailer then none else
      some {
        name := p + cpioHeaderSize
        size := BitVec.ofNat 64 data.length
        next := p + BitVec.ofNat 64 (encodeEntry a name data).length
        data := p + BitVec.ofNat 64 (roundUp 4 (110 + (name.length + 1))) } := by
  have laid := laidOut stored
  have magic : memory.strncmp p cpioMagic 6 = 0 := strncmp_self laid.magic (by decide)
  have namesize := hextoi_field (by omega) laid.namesize
  have filesize := hextoi_field dataBound laid.filesize
  have trailer := strcmp_eq_zero laid.nameAt nulFree (show 0 ∉ cpioTrailer by decide)
  have size := setWidth_filesize dataBound
  have next : p + BitVec.ofNat 64 (roundUp 4 (110 + (name.length + 1))) +
      BitVec.ofNat 64 (roundUp 4 data.length) =
      p + BitVec.ofNat 64 (encodeEntry a name data).length := by
    rw [BitVec.add_assoc, ← BitVec.ofNat_add, length_encodeEntry]
  rw [← next]
  simp only [cpioGetAllFiles, at_, if_neg notNull, magic, ne_eq, not_true_eq_false, if_false,
    namesize, filesize, trailer, setWidth_cpioDataOffset nameBound, size, align_ofNat]

end Entries

/-! ## Archives -/

section Archives

variable {memory : ByteMemory} {base p current : Word} {entries : List Entry} {trailer : Attributes}

private theorem encodeEntry_pos (a : Attributes) (name data : List UInt8) :
    0 < (encodeEntry a name data).length := by
  have header := le_roundUp (show 0 < 4 by decide) (110 + (name.length + 1))
  rw [length_encodeEntry]
  omega

theorem trailer_pos (entries : List Entry) (trailer : Attributes) :
    0 < (encode entries trailer).length := by
  have last := encodeEntry_pos trailer cpioTrailer []
  rw [encode, List.length_append]
  omega

theorem encode_cons (entry : Entry) (rest : List Entry) (trailer : Attributes) :
    encode (entry :: rest) trailer = entry.encode ++ encode rest trailer := by
  rw [encode, encode, List.flatMap_cons, List.append_assoc]

/-- Behind an entry the archive goes on, and not at the null pointer. -/
theorem behind_entry {entry : Entry} {rest : List Entry} (notNull : p ≠ 0#64)
    (fits : p.toNat + (encode (entry :: rest) trailer).length ≤ 2 ^ 64) :
    p + BitVec.ofNat 64 entry.encode.length ≠ 0#64 ∧
      (p + BitVec.ofNat 64 entry.encode.length).toNat + (encode rest trailer).length ≤ 2 ^ 64 := by
  have more := trailer_pos rest trailer
  rw [encode_cons, List.length_append] at fits
  have next : (p + BitVec.ofNat 64 entry.encode.length).toNat =
      p.toNat + entry.encode.length := by
    rw [BitVec.toNat_add, BitVec.toNat_ofNat]
    omega
  refine ⟨fun null => ?_, by omega⟩
  have here : p.toNat ≠ 0 := fun zero => notNull (BitVec.eq_of_toNat_eq zero)
  rw [null, BitVec.toNat_ofNat] at next
  omega

/-- The cursor at an entry reads it. -/
theorem reads_entry {entry : Entry} (stored : Stored memory p entry.encode) :
    Reads memory ⟨p + cpioHeaderSize, BitVec.ofNat 64 entry.data.length,
      p + BitVec.ofNat 64 entry.encode.length,
      p + BitVec.ofNat 64 (roundUp 4 (110 + (entry.name.length + 1)))⟩ entry := by
  have laid := laidOut stored
  refine ⟨laid.nameAt, ?_, laid.dataAt⟩
  have bound := entry.dataBound
  rw [BitVec.toNat_ofNat]
  omega

/-- The loop that has come to an entry reads it and those behind it. -/
private theorem cpioFiles_from (stored : Stored memory p (encode entries trailer))
    (notNull : p ≠ 0#64) (fits : p.toNat + (encode entries trailer).length ≤ 2 ^ 64)
    (at_ : (if current = 0#64 then base else current) = p) :
    ∃ files, (∀ fuel > entries.length, cpioFiles memory base fuel current = some files) ∧
      List.Forall₂ (Reads memory) files entries := by
  induction entries generalizing p current with
  | nil =>
    have ends := cpioGetAllFiles_entry stored notNull at_ (by decide) (by decide) (by decide)
    rw [if_pos rfl] at ends
    refine ⟨[], fun fuel enough => ?_, .nil⟩
    obtain ⟨fuel, rfl⟩ := Nat.exists_eq_add_one_of_ne_zero (Nat.ne_of_gt enough)
    rw [cpioFiles, ends]
  | cons entry rest ih =>
    rw [encode_cons] at stored
    have reads :=
      cpioGetAllFiles_entry stored.left notNull at_ entry.nulFree entry.nameBound entry.dataBound
    rw [if_neg entry.notTrailer] at reads
    obtain ⟨nextNotNull, nextFits⟩ := behind_entry notNull fits
    obtain ⟨files, result, others⟩ := ih stored.right nextNotNull nextFits (if_neg nextNotNull)
    refine ⟨_ :: files, fun fuel enough => ?_, .cons (reads_entry stored.left) others⟩
    obtain ⟨fuel, rfl⟩ :=
      Nat.exists_eq_add_one_of_ne_zero (Nat.ne_of_gt (Nat.zero_lt_of_lt enough))
    rw [cpioFiles, reads]
    change (cpioFiles memory base fuel (p + BitVec.ofNat 64 entry.encode.length)).map _ = _
    rw [result fuel (Nat.lt_of_succ_lt_succ enough)]
    rfl

/-- From an archive stored in memory, following `next_ptr` from a null pointer on reads all entries
in order, and then ends. -/
theorem cpio_round_trip (archive : ArchiveAt memory base entries trailer) :
    ∃ files, (∀ fuel > entries.length, cpioFiles memory base fuel 0#64 = some files) ∧
      List.Forall₂ (Reads memory) files entries :=
  cpioFiles_from archive.stored archive.notNull archive.fits (if_pos rfl)

/-- A file whose data are the magic number is read back, and nothing more. -/
theorem cpio_round_trip_magic : ∃ (entry : Entry) (memory : ByteMemory) (files : List CpioCursor),
    entry.name = [97] ∧ entry.data = cpioMagic ∧
    (∀ fuel > 1, cpioFiles memory 4096#64 fuel 0#64 = some files) ∧
      List.Forall₂ (Reads memory) files [entry] := by
  let zeros : Attributes := ⟨0#32, 0#32, 0#32, 0#32, 0#32, 0#32, 0#32, 0#32, 0#32, 0#32, 0#32⟩
  let entry : Entry :=
    ⟨[97], cpioMagic, zeros, by decide, by decide, by decide, by decide, by decide⟩
  have length : (encode [entry] zeros).length = 244 := by
    rw [encode, List.length_append, List.flatMap_singleton, Entry.encode,
      length_encodeEntry, length_encodeEntry]
    decide
  have stored := stored_memoryOf 4096#64 (encode [entry] zeros) (by rw [length]; decide)
  have archive : ArchiveAt (memoryOf 4096#64 (encode [entry] zeros)) 4096#64 [entry] zeros :=
    ⟨stored, by decide, by decide, by rw [length]; decide⟩
  obtain ⟨files, reads, same⟩ := cpio_round_trip archive
  exact ⟨entry, _, files, rfl, rfl, reads, same⟩

end Archives

end OscKernel.Soundness.CpioArchive
