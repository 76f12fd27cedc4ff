import OscKernel.Lib.Words

/-! # Sv39 address translation

The walk of the hardware through the page tables of the Sv39 scheme, on a memory whose 64-bit words
are named by their physical addresses. Access rights play no part: the walk ends at the leaf that
they are then checked against.
-/

namespace OscKernel.Lib.Sv39

/-! ## Entries -/

def valid (pte : BitVec 64) : Bool := pte.getLsbD 0
def readable (pte : BitVec 64) : Bool := pte.getLsbD 1
def writable (pte : BitVec 64) : Bool := pte.getLsbD 2
def executable (pte : BitVec 64) : Bool := pte.getLsbD 3

/-- A valid entry that is no leaf points to the table of the next level. -/
def leaf (pte : BitVec 64) : Bool := readable pte || executable pte

/-- Write without read, the high bits, and the bits for user, accessed and dirty in a pointer are
reserved. -/
def reserved (pte : BitVec 64) : Bool :=
  (writable pte && !readable pte) || pte >>> 54 ≠ 0#64 ||
    (!leaf pte && (pte.getLsbD 4 || pte.getLsbD 6 || pte.getLsbD 7))

def usable (pte : BitVec 64) : Bool := valid pte && !reserved pte

/-- The physical page number of an entry. -/
def pageNumber (pte : BitVec 64) : BitVec 64 := (pte >>> 10) &&& 0xfffffffffff#64

def pageAddress (pte : BitVec 64) : BitVec 64 := pageNumber pte <<< 12

theorem pageAddress_of_usable {pte : BitVec 64} (ok : usable pte = true) :
    pageAddress pte = (pte >>> 10) <<< 12 := by
  have high : pte >>> 54 = 0#64 := by
    simp only [usable, reserved, Bool.and_eq_true, Bool.not_eq_true', Bool.or_eq_false_iff] at ok
    simpa using ok.2.1.2
  have small := congrArg BitVec.toNat high
  rw [BitVec.toNat_ushiftRight, Nat.shiftRight_eq_div_pow,
    BitVec.toNat_ofNat, Nat.zero_mod] at small
  have number : pageNumber pte = pte >>> 10 := by
    apply BitVec.eq_of_toNat_eq
    rw [pageNumber, show (0xfffffffffff#64) = BitVec.ofNat 64 (2 ^ 44 - 1) from rfl,
      toNat_and_lowMask _ (by decide), BitVec.toNat_ushiftRight, Nat.shiftRight_eq_div_pow]
    omega
  rw [pageAddress, number]

/-! ## The walk -/

/-- Bits 63 to 39 repeat bit 38. -/
def Canonical (va : BitVec 64) : Prop := (va.extractLsb' 0 39).signExtend 64 = va

instance (va : BitVec 64) : Decidable (Canonical va) := inferInstanceAs (Decidable (_ = _))

/-- The index of an address in the table of a level. -/
def index (va : BitVec 64) (level : ℕ) : ℕ := va.toNat / 2 ^ (12 + 9 * level) % 512

def entryAddress (table : BitVec 64) (index : ℕ) : BitVec 64 := table + BitVec.ofNat 64 (8 * index)

/-- Where a walk ends: the leaf, and the address of the page that it maps the virtual page to. -/
structure Leaf where
  pte : BitVec 64
  page : BitVec 64

/-- A leaf of a level above the lowest maps several pages, and its own page number is a multiple of
theirs. -/
def leafAt (va : BitVec 64) (level : ℕ) (pte : BitVec 64) : Option Leaf :=
  let span := 2 ^ (9 * level)
  if (pageNumber pte).toNat % span = 0 then
    some ⟨pte, pageAddress pte + BitVec.ofNat 64 (va.toNat / 4096 % span * 4096)⟩
  else none

section Walk

variable (mem : BitVec 64 → BitVec 64) (va : BitVec 64)

/-- The entry of an address in the table of a level. -/
def entryIn (level : ℕ) (table : BitVec 64) : BitVec 64 := mem (entryAddress table (index va level))

def walkFrom : ℕ → BitVec 64 → Option Leaf
  | 0, table =>
    let pte := entryIn mem va 0 table
    if usable pte && leaf pte then leafAt va 0 pte else none
  | level + 1, table =>
    let pte := entryIn mem va (level + 1) table
    if usable pte then
      if leaf pte then leafAt va (level + 1) pte else walkFrom level (pageAddress pte)
    else none

def walk (root : BitVec 64) : Option Leaf := if Canonical va then walkFrom mem va 2 root else none

/-- The tables that the pointers for an address lead to, with their levels. -/
inductive IsTable (root : BitVec 64) : ℕ → BitVec 64 → Prop
  | root : IsTable root 2 root
  | step {level : ℕ} {table : BitVec 64} (above : IsTable root (level + 1) table)
      (ok : usable (entryIn mem va (level + 1) table) = true)
      (pointer : leaf (entryIn mem va (level + 1) table) = false) :
      IsTable root level (pageAddress (entryIn mem va (level + 1) table))

end Walk

section Tables

variable {mem : BitVec 64 → BitVec 64} {va root table table' : BitVec 64} {level : ℕ}

theorem IsTable.le_two (isTable : IsTable mem va root level table) : level ≤ 2 := by
  induction isTable with
  | root => exact le_refl _
  | step above ok pointer ih => exact Nat.le_of_succ_le ih

/-- An address has at most one table of each level. -/
theorem IsTable.unique (isTable : IsTable mem va root level table)
    (isTable' : IsTable mem va root level table') :
    table = table' := by
  induction isTable generalizing table' with
  | root =>
    cases isTable' with
    | root => rfl
    | step above => exact absurd above.le_two (by decide)
  | step above ok pointer ih =>
    cases isTable' with
    | root => exact absurd above.le_two (by decide)
    | step above' => rw [ih above']

/-- What lies above a table is a pointer that the hardware uses. -/
theorem IsTable.above (isTable : IsTable mem va root level table) (low : level < 2) :
    ∃ above, IsTable mem va root (level + 1) above ∧
      usable (entryIn mem va (level + 1) above) = true ∧
      leaf (entryIn mem va (level + 1) above) = false := by
  cases isTable with
  | root => exact absurd low (by decide)
  | step above ok pointer => exact ⟨_, above, ok, pointer⟩

theorem valid_of_usable {pte : BitVec 64} (ok : usable pte = true) : valid pte = true := by
  rw [usable, Bool.and_eq_true] at ok
  exact ok.1

/-- The walk passes through each table of the address. -/
theorem IsTable.walk_eq (isTable : IsTable mem va root level table) (canonical : Canonical va) :
    walk mem va root = walkFrom mem va level table := by
  induction isTable with
  | root => exact if_pos canonical
  | step above ok pointer ih =>
    rw [ih, walkFrom]
    simp only [ok, pointer, if_true, Bool.false_eq_true, if_false]

/-- The walk ends at a leaf of the lowest level. -/
theorem IsTable.walk_leaf (isTable : IsTable mem va root 0 table) (canonical : Canonical va)
    (ok : usable (entryIn mem va 0 table) = true) (isLeaf : leaf (entryIn mem va 0 table) = true) :
    walk mem va root = some ⟨entryIn mem va 0 table, pageAddress (entryIn mem va 0 table)⟩ := by
  rw [isTable.walk_eq canonical, walkFrom]
  simp only [ok, isLeaf, Bool.and_self, if_true, leafAt, Nat.mul_zero, Nat.pow_zero,
    Nat.mod_one, Nat.zero_mul]
  exact congrArg some (congrArg _ (BitVec.add_zero _))

/-- The walk fails where the entry of the lowest level is no leaf. -/
theorem IsTable.walk_pointer (isTable : IsTable mem va root 0 table)
    (pointer : leaf (entryIn mem va 0 table) = false) :
    walk mem va root = none := by
  by_cases canonical : Canonical va
  · rw [isTable.walk_eq canonical, walkFrom]
    simp only [pointer, Bool.and_false, Bool.false_eq_true, if_false]
  · exact if_neg canonical

end Tables

end OscKernel.Lib.Sv39
