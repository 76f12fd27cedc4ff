import OscKernel.Lib.Bytes

/-! # Addresses, alignment and page-table entry words

The constants and macros of paging.h and sched.h and the `align` helper of utils.c. Addresses and
page-table entries are 64-bit words, with the wraparound of the source.
-/

namespace OscKernel.Model

open OscKernel.Lib

abbrev Word := BitVec 64

/-- `PAGE_SIZE` of paging.h. -/
def pageSize : Word := 1#64 <<< 12
/-- `PAGE_OFFSET` of paging.h. -/
def pageOffset : Word := 0xffffffc000000000#64
/-- `STACK_SIZE` of sched.h. -/
def stackSize : Word := 0x4000#64
/-- Start of the user stack, the constant in syscall.c, paging.c and main.c. -/
def userStack : Word := 0x3fffffc000#64

def virtToPhys (x : Word) : Word := x - pageOffset
def physToVirt (x : Word) : Word := x + pageOffset

def pteV : Word := 1#64 <<< 0
def pteR : Word := 1#64 <<< 1
def pteW : Word := 1#64 <<< 2
def pteX : Word := 1#64 <<< 3
def pteU : Word := 1#64 <<< 4
def pteA : Word := 1#64 <<< 6
def pteD : Word := 1#64 <<< 7
def pteCow : Word := 1#64 <<< 8

def protUserBase : Word := pteV ||| pteU ||| pteA ||| pteD
def protUserRw : Word := protUserBase ||| pteR ||| pteW

/-- `MAKE_PTE`. -/
def makePte (pa flags : Word) : Word := ((pa >>> 12) <<< 10) ||| flags

/-- `(pte >> 10) << 12`, the page address in an entry. -/
def ptePa (pte : Word) : Word := (pte >>> 10) <<< 12

/-- `align` of utils.c; the `int` argument and its complement are sign-extended. -/
def align (n : Word) (byte : BitVec 32) : Word :=
  (n + byte.signExtend 64 - 1#64) &&& (~~~(byte - 1#32)).signExtend 64

@[simp] theorem physToVirt_virtToPhys (x : Word) : physToVirt (virtToPhys x) = x :=
  BitVec.sub_add_cancel x pageOffset

@[simp] theorem virtToPhys_physToVirt (x : Word) : virtToPhys (physToVirt x) = x :=
  BitVec.add_sub_cancel x pageOffset

/-- Rounding up to a multiple of a power of two, in the arithmetic of the source. -/
theorem toNat_align {k : ℕ} (small : k < 31) (n : Word) :
    (align n (BitVec.ofNat 32 (2 ^ k))).toNat = (n.toNat + (2 ^ k - 1)) %
    2 ^ 64 / 2 ^ k * 2 ^ k := by
  have mask : ∀ k < 31, (~~~(BitVec.ofNat 32 (2 ^ k) - 1#32)).signExtend 64 =
      ~~~BitVec.ofNat 64 (2 ^ k - 1) := by decide
  have step : ∀ k < 31, (BitVec.ofNat 32 (2 ^ k)).signExtend 64 - 1#64 =
      BitVec.ofNat 64 (2 ^ k - 1) := by decide
  have unit : 2 ^ k - 1 < 2 ^ 64 :=
    lt_of_le_of_lt (Nat.sub_le _ _) (Nat.pow_lt_pow_right (by decide) (lt_trans small (by decide)))
  rw [align, add_sub_assoc, step k small, mask k small, toNat_and_not_lowMask, BitVec.toNat_add,
    BitVec.toNat_ofNat, Nat.mod_eq_of_lt unit]

/-- Rounding a length up to whole pages. -/
theorem toNat_align_page (n : Word) :
    (align n 4096#32).toNat = (n.toNat + 4095) % 2 ^ 64 / 4096 * 4096 :=
  toNat_align (show 12 < 31 by decide) n

/-- Rounding up behind an aligned address rounds the distance up, also around the end of the address
space. -/
theorem align_add {address : Word} (aligned : address.toNat % 4 = 0) (n : ℕ) :
    align (address + BitVec.ofNat 64 n) 4#32 = address + BitVec.ofNat 64 (roundUp 4 n) := by
  apply BitVec.eq_of_toNat_eq
  have rounded := toNat_align (show 2 < 31 by decide) (address + BitVec.ofNat 64 n)
  rw [show BitVec.ofNat 32 (2 ^ 2) = 4#32 from rfl, BitVec.toNat_add, BitVec.toNat_ofNat] at rounded
  rw [rounded, BitVec.toNat_add, BitVec.toNat_ofNat, roundUp]
  omega

theorem align_ofNat (n : ℕ) : align (BitVec.ofNat 64 n) 4#32 = BitVec.ofNat 64 (roundUp 4 n) := by
  have start := align_add (show (0#64).toNat % 4 = 0 from rfl) n
  rwa [BitVec.zero_add, BitVec.zero_add] at start

end OscKernel.Model
