import Mathlib.Data.Nat.Digits.Defs
import OscKernel.Model.CpioFields
import OscKernel.Soundness.CpioArchive

/-! # Hexadecimal digits in both cases

`hextoi` takes every byte from `A` on for an upper-case digit, so a lower-case digit counts
thirty-two more than it should. The sum has thirty-two bits, and there only the first of eight
digits gets away with it.
-/

namespace OscKernel.Soundness.HexFields

open OscKernel.Lib OscKernel.Model

/-! ## Digits -/

def IsUpper (c : UInt8) : Prop := 65 ≤ c ∧ c ≤ 70

def IsLower (c : UInt8) : Prop := 97 ≤ c ∧ c ≤ 102

/-- A hexadecimal digit in either case. -/
def IsHexDigit (c : UInt8) : Prop := (48 ≤ c ∧ c ≤ 57) ∨ IsUpper c ∨ IsLower c

instance (c : UInt8) : Decidable (IsUpper c) := inferInstanceAs (Decidable (_ ∧ _))
instance (c : UInt8) : Decidable (IsLower c) := inferInstanceAs (Decidable (_ ∧ _))
instance (c : UInt8) : Decidable (IsHexDigit c) := inferInstanceAs (Decidable (_ ∨ _ ∨ _))

def digitValue (c : UInt8) : ℕ :=
  if IsLower c then c.toNat - 87 else if IsUpper c then c.toNat - 55 else c.toNat - 48

/-- The number that digits stand for, the most significant one first. -/
def value (digits : List ℕ) : ℕ := Nat.ofDigits 16 digits.reverse

/-- The base-16 value of a string. -/
def hexValue (string : List UInt8) : ℕ := value (string.map digitValue)

/-- A digit of the last seven is not in lower case. -/
def Plain (string : List UInt8) : Prop := ∀ c ∈ string.drop (string.length - 7), ¬ IsLower c

instance (string : List UInt8) : Decidable (Plain string) := List.decidableBAll _ _

theorem value_cons (d : ℕ) (digits : List ℕ) :
    value (d :: digits) = d * 16 ^ digits.length + value digits := by
  rw [value, List.reverse_cons, Nat.ofDigits_append, Nat.ofDigits_singleton,
    List.length_reverse, value]
  ring

/-- Digit by digit, sums of digits have the sum of the values. -/
private theorem value_add_mul (k : ℕ) (first second : UInt8 → ℕ) (string : List UInt8) :
    value (string.map fun c => first c + k * second c) = value (string.map first) + k *
      value (string.map second) := by
  induction string with
  | nil => rfl
  | cons c rest ih =>
    simp only [List.map_cons, value_cons, List.length_map, ih]
    ring

private theorem value_lt {digits : List ℕ} (small : ∀ d ∈ digits, d < 16) :
    value digits < 16 ^ digits.length := by
  induction digits with
  | nil => decide
  | cons d digits ih =>
    obtain ⟨here, later⟩ := List.forall_mem_cons.mp small
    have below := ih later
    rw [value_cons, List.length_cons, Nat.pow_succ]
    nlinarith

private theorem value_append (first second : List ℕ) :
    value (first ++ second) = value first * 16 ^ second.length + value second := by
  induction first with
  | nil => simp [value]
  | cons d first ih =>
    rw [List.cons_append, value_cons, value_cons, ih, List.length_append, Nat.pow_add]
    ring

/-- A number of digits zero and one is below a fifteenth of the next power. -/
private theorem value_binary_lt {digits : List ℕ} (binary : ∀ d ∈ digits, d ≤ 1) :
    15 * value digits < 16 ^ digits.length := by
  induction digits with
  | nil => decide
  | cons d digits ih =>
    obtain ⟨here, later⟩ := List.forall_mem_cons.mp binary
    have below := ih later
    rw [value_cons, List.length_cons, Nat.pow_succ]
    have scaled : d * 16 ^ digits.length ≤ 1 * 16 ^ digits.length := Nat.mul_le_mul_right _ here
    omega

/-- A number of digits zero and one is zero where all of them are. -/
private theorem value_eq_zero_iff {digits : List ℕ} : value digits = 0 ↔ ∀ d ∈ digits, d = 0 := by
  induction digits with
  | nil => simp [value]
  | cons d digits ih =>
    rw [value_cons, Nat.add_eq_zero_iff, ih, List.forall_mem_cons]
    simp

/-! ## The loops -/

/-- What `hextoi` adds for a digit in lower case. -/
def excess (c : UInt8) : ℕ := if IsLower c then 1 else 0

section Loops

variable {memory : ByteMemory} {s : Word} {string : List UInt8}

/-- What `hextoi` and `hex8_to_uint` add for a digit. -/
theorem digit_weights {c : UInt8} (digit : IsHexDigit c) :
    (if c ≥ 65 then BitVec.ofNat 32 c.toNat - 65#32 + 10#32 else BitVec.ofNat 32 c.toNat - 48#32) =
      BitVec.ofNat 32 (digitValue c + 32 * excess c) ∧
    (if c ≥ 48 ∧ c ≤ 57 then BitVec.ofNat 32 c.toNat - 48#32
      else if c ≥ 65 ∧ c ≤ 70 then BitVec.ofNat 32 c.toNat - 65#32 + 10#32
      else if c ≥ 97 ∧ c ≤ 102 then BitVec.ofNat 32 c.toNat - 97#32 + 10#32
      else 0#32) = BitVec.ofNat 32 (digitValue c) ∧
    digitValue c < 16 := by
  have bytes : ∀ n < 256, IsHexDigit (UInt8.ofNat n) →
      (if UInt8.ofNat n ≥ 65 then BitVec.ofNat 32 (UInt8.ofNat n).toNat - 65#32 + 10#32
        else BitVec.ofNat 32 (UInt8.ofNat n).toNat - 48#32) =
        BitVec.ofNat 32 (digitValue (UInt8.ofNat n) + 32 * excess (UInt8.ofNat n)) ∧
      (if UInt8.ofNat n ≥ 48 ∧ UInt8.ofNat n ≤ 57 then BitVec.ofNat 32 (UInt8.ofNat n).toNat - 48#32
        else if UInt8.ofNat n ≥ 65 ∧ UInt8.ofNat n ≤ 70 then
        BitVec.ofNat 32 (UInt8.ofNat n).toNat - 65#32 + 10#32
        else if UInt8.ofNat n ≥ 97 ∧ UInt8.ofNat n ≤ 102 then
        BitVec.ofNat 32 (UInt8.ofNat n).toNat - 97#32 + 10#32
        else 0#32) = BitVec.ofNat 32 (digitValue (UInt8.ofNat n)) ∧
      digitValue (UInt8.ofNat n) < 16 := by decide +kernel
  have same : UInt8.ofNat c.toNat = c := UInt8.ofNat_toNat
  have here := bytes c.toNat c.toNat_lt
  rw [same] at here
  exact here digit

theorem shift_step (r : BitVec 32) (d n v : ℕ) :
    (r <<< 4 + BitVec.ofNat 32 d) * BitVec.ofNat 32 (16 ^ n) + BitVec.ofNat 32 v =
      r * BitVec.ofNat 32 (16 ^ (n + 1)) + BitVec.ofNat 32 (d * 16 ^ n + v) := by
  have shifted : r <<< 4 = r * 16#32 := BitVec.shiftLeft_eq_mul_twoPow r 4
  rw [shifted, Nat.pow_succ, BitVec.ofNat_add, BitVec.ofNat_mul, BitVec.ofNat_mul, BitVec.add_mul,
    BitVec.mul_assoc, BitVec.mul_comm 16#32, BitVec.add_assoc]

private theorem hextoiFrom_eq (digits : ∀ c ∈ string, IsHexDigit c)
    (stored : Stored memory s string) (r : BitVec 32) :
    memory.hextoiFrom r s string.length = r * BitVec.ofNat 32 (16 ^ string.length) +
      BitVec.ofNat 32 (value (string.map fun c => digitValue c + 32 * excess c)) := by
  induction string generalizing s r with
  | nil => simp [ByteMemory.hextoiFrom, value]
  | cons c rest ih =>
    obtain ⟨here, later⟩ := List.forall_mem_cons.mp digits
    obtain ⟨weight, -⟩ := digit_weights here
    rw [List.length_cons, ByteMemory.hextoiFrom, stored.1]
    rw [ih later stored.2, List.map_cons, value_cons, List.length_map, ← shift_step, ← weight]
    split
    · rfl
    · rfl

private theorem hex8ToUintFrom_eq (digits : ∀ c ∈ string, IsHexDigit c)
    (stored : Stored memory s string) (r : BitVec 32) :
    memory.hex8ToUintFrom r s string.length = r * BitVec.ofNat 32 (16 ^ string.length) +
      BitVec.ofNat 32 (hexValue string) := by
  induction string generalizing s r with
  | nil => simp [ByteMemory.hex8ToUintFrom, hexValue, value]
  | cons c rest ih =>
    obtain ⟨here, later⟩ := List.forall_mem_cons.mp digits
    obtain ⟨-, weight, -⟩ := digit_weights here
    rw [List.length_cons, ByteMemory.hex8ToUintFrom, stored.1]
    rw [ih later stored.2, hexValue, hexValue, List.map_cons, value_cons,
      List.length_map, ← shift_step, ← weight]
    split_ifs
    · rfl
    · rfl
    · rfl
    · rw [BitVec.add_zero]

/-! ## The results -/

private theorem excess_eq_zero_iff {c : UInt8} : excess c = 0 ↔ ¬ IsLower c := by
  rw [excess]
  split_ifs with lower
  · simpa using lower
  · exact iff_of_true rfl lower

theorem hexValue_lt (digits : ∀ c ∈ string, IsHexDigit c) :
    hexValue string < 16 ^ string.length := by
  have small : ∀ d ∈ string.map digitValue, d < 16 := by
    intro d member
    obtain ⟨c, present, rfl⟩ := List.mem_map.mp member
    exact (digit_weights (digits c present)).2.2
  have below := value_lt small
  rwa [List.length_map] at below

/-- Thirty-two times the lower-case digits, as a number, is a multiple of the modulus only if all
but the first of eight are zero. -/
theorem dvd_excess_iff (short : string.length ≤ 8) :
    2 ^ 27 ∣ value (string.map excess) ↔ Plain string := by
  have parts : value (string.map excess) = value ((string.take (string.length - 7)).map excess) *
      16 ^ (string.drop (string.length - 7)).length +
      value ((string.drop (string.length - 7)).map excess) := by
    have joined := value_append ((string.take (string.length - 7)).map excess)
      ((string.drop (string.length - 7)).map excess)
    rwa [← List.map_append, List.take_append_drop, List.length_map] at joined
  have first : 2 ^ 27 ∣ value ((string.take (string.length - 7)).map excess) *
      16 ^ (string.drop (string.length - 7)).length := by
    rcases Nat.lt_or_ge 7 string.length with long | few
    · have seven : (string.drop (string.length - 7)).length = 7 := by
        rw [List.length_drop]
        omega
      rw [seven]
      exact Dvd.dvd.mul_left (by decide) _
    · rw [Nat.sub_eq_zero_of_le few]
      exact (Nat.zero_mul _).symm ▸ Nat.dvd_zero _
  have last : 15 * value ((string.drop (string.length - 7)).map excess) < 16 ^ 7 := by
    have binary : ∀ d ∈ (string.drop (string.length - 7)).map excess, d ≤ 1 := by
      intro d member
      obtain ⟨c, -, rfl⟩ := List.mem_map.mp member
      rw [excess]
      split
      · exact le_rfl
      · exact Nat.zero_le 1
    have below := value_binary_lt binary
    have length : ((string.drop (string.length - 7)).map excess).length ≤ 7 := by
      rw [List.length_map, List.length_drop]
      omega
    exact below.trans_le (Nat.pow_le_pow_right (by decide) length)
  rw [parts, Nat.dvd_add_right first]
  have zero : 2 ^ 27 ∣ value ((string.drop (string.length - 7)).map excess) ↔
      value ((string.drop (string.length - 7)).map excess) = 0 := by
    constructor
    · intro multiple
      exact Nat.eq_zero_of_dvd_of_lt multiple (by omega)
    · intro none
      exact none ▸ Nat.dvd_zero _
  rw [zero, value_eq_zero_iff, List.forall_mem_map]
  exact forall₂_congr fun c _ => excess_eq_zero_iff

theorem hextoi_toNat (digits : ∀ c ∈ string, IsHexDigit c) (stored : Stored memory s string) :
    (memory.hextoi s string.length).toNat =
    (hexValue string + 32 * value (string.map excess)) % 2 ^ 32 := by
  rw [ByteMemory.hextoi, hextoiFrom_eq digits stored, BitVec.zero_mul, BitVec.zero_add,
    BitVec.toNat_ofNat, value_add_mul 32 digitValue excess, hexValue]

/-- `hextoi` is right on strings with lower-case digits nowhere but first of eight. -/
theorem hextoi_iff (digits : ∀ c ∈ string, IsHexDigit c) (short : string.length ≤ 8)
    (stored : Stored memory s string) :
    (memory.hextoi s string.length).toNat = hexValue string ↔ Plain string := by
  have below : hexValue string < 2 ^ 32 :=
    (hexValue_lt digits).trans_le (Nat.pow_le_pow_right (by decide) short)
  rw [hextoi_toNat digits stored, ← dvd_excess_iff short]
  omega

theorem hex8ToUint_toNat (digits : ∀ c ∈ string, IsHexDigit c) (eight : string.length = 8)
    (stored : Stored memory s string) : (memory.hex8ToUint s).toNat = hexValue string := by
  have below : hexValue string < 2 ^ 32 := by
    have small := hexValue_lt digits
    rwa [eight] at small
  rw [ByteMemory.hex8ToUint, ← eight, hex8ToUintFrom_eq digits stored, BitVec.zero_mul,
    BitVec.zero_add, BitVec.toNat_ofNat, Nat.mod_eq_of_lt below]

end Loops

/-! ## Offsets -/

section Offsets

variable {memory : ByteMemory} {p : Word} {namesize filesize : List UInt8}

/-- Rounding up to four in 32 bits. -/
theorem toNat_round (x : BitVec 32) :
    ((x + 3#32) &&& ~~~3#32).toNat = roundUp 4 x.toNat % 2 ^ 32 := by
  rw [show (3#32 : BitVec 32) = BitVec.ofNat 32 (2 ^ 2 - 1) from rfl, toNat_and_not_lowMask,
    BitVec.toNat_add, roundUp, BitVec.toNat_ofNat]
  omega

theorem toNat_align_four {n : Word} (small : n.toNat < 2 ^ 63) :
    (align n 4#32).toNat = roundUp 4 n.toNat := by
  have rounded := toNat_align (show 2 < 31 by decide) n
  rw [show BitVec.ofNat 32 (2 ^ 2) = 4#32 from rfl] at rounded
  rw [rounded, roundUp]
  omega

theorem toNat_cpioHeaderSize_add (n : BitVec 32) :
    (cpioHeaderSize + n.setWidth 64).toNat = 110 + n.toNat := by
  have below := n.isLt
  rw [cpioHeaderSize, BitVec.toNat_add, BitVec.toNat_setWidth, BitVec.toNat_ofNat]
  omega

private theorem cpioOffsets_toNat (memory : ByteMemory) (p : Word) :
    (cpioOffsets memory p).data.toNat =
      roundUp 4 (110 + (memory.hextoi (p + cpioNamesizeOffset) 8).toNat) % 2 ^ 32 ∧
    (cpioOffsets memory p).next.toNat =
      roundUp 4 (110 + (memory.hextoi (p + cpioNamesizeOffset) 8).toNat) +
        roundUp 4 (memory.hextoi (p + cpioFilesizeOffset) 8).toNat := by
  have name := toNat_cpioHeaderSize_add (memory.hextoi (p + cpioNamesizeOffset) 8)
  have nameBound := (memory.hextoi (p + cpioNamesizeOffset) 8).isLt
  have fileBound := (memory.hextoi (p + cpioFilesizeOffset) 8).isLt
  have file : ((memory.hextoi (p + cpioFilesizeOffset) 8).setWidth 64).toNat =
      (memory.hextoi (p + cpioFilesizeOffset) 8).toNat := by
    rw [BitVec.toNat_setWidth]
    omega
  have nameRounded := toNat_align_four (show (cpioHeaderSize +
    (memory.hextoi (p + cpioNamesizeOffset) 8).setWidth 64).toNat < 2 ^ 63 by omega)
  have fileRounded := toNat_align_four
    (show ((memory.hextoi (p + cpioFilesizeOffset) 8).setWidth 64).toNat < 2 ^ 63 by
    omega)
  rw [name] at nameRounded
  rw [file] at fileRounded
  constructor
  · rw [cpioOffsets, cpioDataOffset, BitVec.toNat_setWidth, BitVec.toNat_setWidth, nameRounded]
    omega
  · rw [cpioOffsets, BitVec.toNat_add, nameRounded, fileRounded]
    simp only [roundUp]
    omega

private theorem labTwoCpioOffsets_toNat (memory : ByteMemory) (p : Word) :
    (labTwoCpioOffsets memory p).data.toNat =
      roundUp 4 (110 + (memory.hex8ToUint (p + cpioNamesizeOffset)).toNat) % 2 ^ 32 ∧
    (labTwoCpioOffsets memory p).next.toNat =
      (roundUp 4 (110 + (memory.hex8ToUint (p + cpioNamesizeOffset)).toNat) +
        roundUp 4 (memory.hex8ToUint (p + cpioFilesizeOffset)).toNat) % 2 ^ 32 := by
  have name := toNat_cpioHeaderSize_add (memory.hex8ToUint (p + cpioNamesizeOffset))
  have data : (((cpioHeaderSize + (memory.hex8ToUint (p + cpioNamesizeOffset)).setWidth 64).setWidth
      32 + 3#32) &&&
      ~~~3#32).toNat =
      roundUp 4 (110 + (memory.hex8ToUint (p + cpioNamesizeOffset)).toNat) % 2 ^ 32 := by
    rw [toNat_round, BitVec.toNat_setWidth, name]
    simp only [roundUp]
    omega
  constructor
  · rw [labTwoCpioOffsets, BitVec.toNat_setWidth, data]
    omega
  · rw [labTwoCpioOffsets, BitVec.toNat_setWidth, toNat_round, BitVec.toNat_add, data]
    simp only [roundUp]
    omega

/-- Eight digits each in the fields of a header. Both kernels then find the same offsets exactly
when no digit that counts is in lower case and the entry is shorter than 2 ^ 32 bytes. -/
private theorem offsets_iff (names : ∀ c ∈ namesize, IsHexDigit c)
    (files : ∀ c ∈ filesize, IsHexDigit c) (eightName : namesize.length = 8)
    (eightFile : filesize.length = 8) (nameStored : Stored memory (p + cpioNamesizeOffset) namesize)
    (fileStored : Stored memory (p + cpioFilesizeOffset) filesize) :
    cpioOffsets memory p = labTwoCpioOffsets memory p ↔ Plain namesize ∧ Plain filesize ∧
      roundUp 4 (110 + hexValue namesize) + roundUp 4 (hexValue filesize) < 2 ^ 32 := by
  obtain ⟨data, next⟩ := cpioOffsets_toNat memory p
  obtain ⟨dataTwo, nextTwo⟩ := labTwoCpioOffsets_toNat memory p
  have name := hextoi_toNat names nameStored
  have file := hextoi_toNat files fileStored
  rw [eightName] at name
  rw [eightFile] at file
  have nameSmall : hexValue namesize < 2 ^ 32 := by
    have small := hexValue_lt names
    rwa [eightName] at small
  have fileSmall : hexValue filesize < 2 ^ 32 := by
    have small := hexValue_lt files
    rwa [eightFile] at small
  rw [name] at data
  rw [name, file] at next
  rw [hex8ToUint_toNat names eightName nameStored] at dataTwo nextTwo
  rw [hex8ToUint_toNat files eightFile fileStored] at nextTwo
  have same : cpioOffsets memory p = labTwoCpioOffsets memory p ↔
      (cpioOffsets memory p).data.toNat = (labTwoCpioOffsets memory p).data.toNat ∧
      (cpioOffsets memory p).next.toNat = (labTwoCpioOffsets memory p).next.toNat := by
    constructor
    · intro equal
      rw [equal]
      exact ⟨rfl, rfl⟩
    · rintro ⟨first, second⟩
      have dataSame := BitVec.eq_of_toNat_eq first
      have nextSame := BitVec.eq_of_toNat_eq second
      rw [CpioOffsets.mk.injEq]
      exact ⟨dataSame, nextSame⟩
  rw [same, data, dataTwo, next, nextTwo, ← dvd_excess_iff eightName.le,
    ← dvd_excess_iff eightFile.le]
  simp only [roundUp]
  omega

end Offsets

/-- A field is decoded as its value, and as the other kernel decodes it, exactly when no digit but
the first of eight is in lower case; with two such fields in its header an entry has the same
offsets in both kernels if its length fits in 32 bits, and only then. -/
theorem hex_fields (memory : ByteMemory) :
    (∀ s string, string.length ≤ 8 → (∀ c ∈ string, IsHexDigit c) → Stored memory s string →
      (((memory.hextoi s string.length).toNat = hexValue string ∧
        (string.length = 8 → memory.hextoi s 8 = memory.hex8ToUint s)) ↔ Plain string)) ∧
    ∀ p namesize filesize, (∀ c ∈ namesize, IsHexDigit c) → (∀ c ∈ filesize, IsHexDigit c) →
      namesize.length = 8 → filesize.length = 8 → Stored memory (p + cpioNamesizeOffset) namesize →
      Stored memory (p + cpioFilesizeOffset) filesize →
      (cpioOffsets memory p = labTwoCpioOffsets memory p ↔ Plain namesize ∧ Plain filesize ∧
        roundUp 4 (110 + hexValue namesize) + roundUp 4 (hexValue filesize) < 2 ^ 32) := by
  refine ⟨fun s string short digits stored => ?_,
    fun p namesize filesize names files eightName eightFile nameStored
    fileStored => offsets_iff names files eightName eightFile nameStored fileStored⟩
  rw [hextoi_iff digits short stored]
  refine and_iff_left_of_imp fun plain eight => BitVec.eq_of_toNat_eq ?_
  have decoded := (hextoi_iff digits short stored).mpr plain
  rw [eight] at decoded
  rw [decoded, hex8ToUint_toNat digits eight stored]

/-- A field `0000000A` at the place of a name size, and the same digits in lower case. -/
def upperField : ByteMemory := fun address => if address = 101#64 then 65 else 48
def lowerField : ByteMemory := fun address => if address = 101#64 then 97 else 48

theorem hexDigits_of_all {string : List UInt8}
    (digits : (string.all fun c => decide (IsHexDigit c)) = true) :
    ∀ c ∈ string, IsHexDigit c := by
  intro c member
  exact of_decide_eq_true (List.all_eq_true.mp digits c member)

theorem hex_fields_upper : cpioOffsets upperField 0#64 = labTwoCpioOffsets upperField 0#64 := by
  have namesize :
      Stored upperField (0#64 + cpioNamesizeOffset) [48, 48, 48, 48, 48, 48, 48, 65] := by
    simp only [Stored]
    decide
  have filesize :
      Stored upperField (0#64 + cpioFilesizeOffset) [48, 48, 48, 48, 48, 48, 48, 48] := by
    simp only [Stored]
    decide
  have plain := (hex_fields upperField).2 0#64 _ _ (hexDigits_of_all (by decide))
    (hexDigits_of_all (by decide)) rfl rfl
    namesize filesize
  exact plain.mpr (by decide)

/-- The digit `a` is read as 42, and a name size `0000000a` moves the data and the next entry. -/
theorem lower_digit : Stored lowerField 101#64 [97] ∧ hexValue [97] = 10 ∧
    (lowerField.hextoi 101#64 1).toNat = 42 ∧
    lowerField.hextoi 94#64 8 ≠ lowerField.hex8ToUint 94#64 ∧
    cpioOffsets lowerField 0#64 ≠ labTwoCpioOffsets lowerField 0#64 := by
  simp only [Stored]
  decide

end OscKernel.Soundness.HexFields
