import OscKernel.Lib.Words

/-! # Bytes in memory

Memory gives each address a byte. A list of bytes is stored at an address when its bytes stand there
one after the other, around the end of the address space if need be; a list can be taken apart where
it is stored. Data formats align what they store by padding it with zeros to a multiple of a unit.
-/

namespace OscKernel.Lib

variable {w : ℕ}

/-- The bytes stand in memory from the address on. -/
def Stored (memory : BitVec w → UInt8) : BitVec w → List UInt8 → Prop
  | _, [] => True
  | address, byte :: rest => memory address = byte ∧ Stored memory (address + 1#w) rest

variable {memory : BitVec w → UInt8} {address : BitVec w} {bytes more : List UInt8}

theorem stored_append : Stored memory address (bytes ++ more) ↔
    Stored memory address bytes ∧ Stored memory (address + BitVec.ofNat w bytes.length) more := by
  induction bytes generalizing address with
  | nil => simp [Stored]
  | cons byte rest ih =>
    have shift : address + 1#w + BitVec.ofNat w rest.length =
        address + BitVec.ofNat w (rest.length + 1) := by
      rw [BitVec.add_assoc, ← BitVec.ofNat_add, Nat.add_comm]
    simp only [List.cons_append, Stored, ih, shift, List.length_cons, and_assoc]

theorem Stored.left (stored : Stored memory address (bytes ++ more)) :
    Stored memory address bytes :=
  (stored_append.mp stored).1

theorem Stored.right (stored : Stored memory address (bytes ++ more)) :
    Stored memory (address + BitVec.ofNat w bytes.length) more :=
  (stored_append.mp stored).2

/-- The byte at a distance from the start. -/
theorem Stored.get (stored : Stored memory address bytes) {i : ℕ} (inside : i < bytes.length) :
    memory (address + BitVec.ofNat w i) = bytes[i] := by
  induction bytes generalizing address i with
  | nil => exact absurd inside (Nat.not_lt_zero i)
  | cons byte rest ih =>
    cases i with
    | zero =>
      rw [BitVec.add_zero]
      exact stored.1
    | succ i =>
      have shift : address + BitVec.ofNat w (i + 1) = address + 1#w + BitVec.ofNat w i := by
        rw [BitVec.add_assoc, ← BitVec.ofNat_add, Nat.add_comm]
      rw [shift]
      exact ih stored.2 (Nat.lt_of_succ_lt_succ inside)

/-- The memory that holds a list at an address, and zeros elsewhere. -/
def memoryOf (address : BitVec w) (bytes : List UInt8) : BitVec w → UInt8 :=
  fun place => bytes.getD (place - address).toNat 0

/-- A list that the address space has room for can be stored anywhere. -/
theorem stored_memoryOf (address : BitVec w) (bytes : List UInt8) (fits : bytes.length ≤ 2 ^ w) :
    Stored (memoryOf address bytes) address bytes := by
  have rest : ∀ before after, bytes = before ++ after →
      Stored (memoryOf address bytes) (address + BitVec.ofNat w before.length) after := by
    intro before after shape
    induction after generalizing before with
    | nil => trivial
    | cons byte after ih =>
      have bound : before.length < 2 ^ w := by
        rw [shape, List.length_append, List.length_cons] at fits
        omega
      have here : (address + BitVec.ofNat w before.length - address).toNat = before.length := by
        rw [BitVec.add_comm, BitVec.add_sub_cancel, BitVec.toNat_ofNat, Nat.mod_eq_of_lt bound]
      refine ⟨?_, ?_⟩
      · rw [memoryOf, here, shape]
        simp
      · have next := ih (before ++ [byte]) (by rw [shape, List.append_assoc, List.singleton_append])
        rwa [List.length_append, List.length_singleton, BitVec.ofNat_add,
          ← BitVec.add_assoc] at next
  have whole := rest [] bytes rfl
  rwa [List.length_nil, BitVec.add_zero] at whole

/-! ## Padding -/

/-- The next multiple of the unit. -/
def roundUp (unit n : ℕ) : ℕ := (n + (unit - 1)) / unit * unit

/-- The bytes with zeros behind them up to a multiple of the unit. -/
def padded (unit : ℕ) (bytes : List UInt8) : List UInt8 :=
  bytes ++ List.replicate (roundUp unit bytes.length - bytes.length) 0

theorem le_roundUp {unit : ℕ} (positive : 0 < unit) (n : ℕ) : n ≤ roundUp unit n := by
  have whole := Nat.div_add_mod (n + (unit - 1)) unit
  have below := Nat.mod_lt (n + (unit - 1)) positive
  rw [Nat.mul_comm] at whole
  rw [roundUp]
  omega

theorem length_padded {unit : ℕ} (positive : 0 < unit) (bytes : List UInt8) :
    (padded unit bytes).length = roundUp unit bytes.length := by
  rw [padded, List.length_append, List.length_replicate]
  exact Nat.add_sub_of_le (le_roundUp positive bytes.length)

theorem roundUp_mod (unit n : ℕ) : roundUp unit n % unit = 0 := Nat.mul_mod_left _ unit

end OscKernel.Lib
