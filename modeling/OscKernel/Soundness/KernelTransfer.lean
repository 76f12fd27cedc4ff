import OscKernel.Model.Bootloader
import OscKernel.Soundness.FormattedOutput

/-! # Loading a kernel over the serial line

Whatever arrives, the bootloader has read a part of the magic number, of the size or of the kernel,
and the memory differs from what it was only by the bytes of the kernel that were stored (`Waiting`,
`Busy`). From what the host sends it therefore loads the kernel that was sent, in every interleaving
in which no byte is lost, and it jumps once one more byte has come. The kernel must end below the
registers of the port, which a larger one would be stored over.
-/

namespace OscKernel.Soundness.KernelTransfer

open OscKernel.Lib OscKernel.Lib.Dialogue OscKernel.Model OscKernel.Model.Bootloader
  OscKernel.Soundness.FormattedOutput

abbrev Bytes := List (BitVec 8)

/-! ## Texts and numbers -/

def boot : Bytes := literal "BOOT"

def rejection : Bytes := putsBytes (literal "Magic failed!\n")

def acceptance : Bytes := putsBytes (literal "Magic good!\n")

/-- The line with the size. -/
def sizeLine (n : ℕ) : Bytes := putsBytes (literal "Kernel size: " ++ (decimal n ++ literal "\n"))

/-- The lines before the jump. -/
def jumpLines : Bytes :=
  putsBytes (literal "Kernel loaded. Jumping...\nKernel address: " ++
    (uartHex kernelBase ++ literal "\n"))

/-- The number with these bytes, the least significant one first. -/
def littleEndian : Bytes → ℕ
  | [] => 0
  | c :: rest => c.toNat + 256 * littleEndian rest

private theorem littleEndian_pack (n : ℕ) :
    littleEndian ((List.range 4).map fun i => BitVec.ofNat 8 (n / 256 ^ i)) = n % 2 ^ 32 := by
  have bytes : List.range 4 = [0, 1, 2, 3] := rfl
  simp only [bytes, List.map_cons, List.map_nil, littleEndian, BitVec.toNat_ofNat]
  omega

/-! ## The bytes in memory -/

/-- Memory with the bytes from place `i` of the kernel on. -/
def load (memory : Memory) (i : ℕ) : Bytes → Memory
  | [] => memory
  | c :: rest => load (Function.update memory (kernelBase + BitVec.ofNat 64 i) c) (i + 1) rest

private theorem toNat_place {k : ℕ} (small : k < 2 ^ 32) :
    (kernelBase + BitVec.ofNat 64 k).toNat = kernelBase.toNat + k := by
  have base : kernelBase.toNat = 0x20000000 := rfl
  rw [BitVec.toNat_add, BitVec.toNat_ofNat, base]
  omega

/-- What is loaded at an address, and what was there before. -/
private theorem load_apply (memory : Memory) (bytes : Bytes) (i : ℕ)
    (fits : i + bytes.length ≤ 2 ^ 32) (address : Word) :
    load memory i bytes address = if kernelBase.toNat +
      i ≤ address.toNat ∧ address.toNat < kernelBase.toNat + i + bytes.length
      then bytes.getD (address.toNat - (kernelBase.toNat + i)) 0#8 else memory address := by
  induction bytes generalizing memory i with
  | nil => rw [load, if_neg (by simp only [List.length_nil]; omega)]
  | cons c rest ih =>
    rw [List.length_cons] at fits
    rw [load, ih _ _ (by omega), List.length_cons]
    have place := toNat_place (show i < 2 ^ 32 by omega)
    rcases eq_or_ne address (kernelBase + BitVec.ofNat 64 i) with rfl | other
    · rw [place, if_neg (by omega), if_pos (by omega), Function.update_self, Nat.sub_self]
      rfl
    · have apart : address.toNat ≠ kernelBase.toNat + i :=
        fun same => other (BitVec.eq_of_toNat_eq (same.trans place.symm))
      rw [Function.update_of_ne other]
      by_cases inside : kernelBase.toNat + (i + 1) ≤ address.toNat ∧
          address.toNat < kernelBase.toNat + (i + 1) + rest.length
      · have distance : address.toNat - (kernelBase.toNat + i) =
          address.toNat - (kernelBase.toNat + (i + 1)) + 1 := by omega
        rw [if_pos inside, if_pos (by omega), distance, List.getD_cons_succ]
      · rw [if_neg inside, if_neg (by omega)]

/-! ## The parts of the bootloader -/

section Parts

variable (s : Memory)

/-- What holds while so many bytes are read and nothing else is done. -/
def reading {α : Type} (n : ℕ) (ended : Bytes → α → Prop) :
    Assertions (BitVec 8) (BitVec 8) Memory α where
  waiting is os t := is.length < n ∧ os = [] ∧ t = s
  busy _ _ _ := False
  halted _ _ _ := False
  ended is os result t := is.length = n ∧ ended is result ∧ os = [] ∧ t = s

/-- One byte is read, and then the others are. -/
theorem reading_below {α β : Type} {n : ℕ} {ended : Bytes → α → Prop} {ended' : Bytes → β → Prop}
    (c : BitVec 8) : (reading s n ended).Below ((reading s (n + 1) ended').after [c] []) :=
  ⟨fun _ _ _ ⟨short, silent, same⟩ => ⟨Nat.succ_lt_succ short, silent, same⟩,
    fun _ _ _ => False.elim, fun _ _ _ => False.elim⟩

private theorem meets_magicLoop (n : ℕ) :
    (magicLoop n).Meets s (reading s n fun is magic => magic = is) := by
  induction n with
  | zero => exact ⟨rfl, rfl, rfl, rfl⟩
  | succ n ih =>
    refine ⟨⟨Nat.succ_pos n, rfl, rfl⟩, fun c => ?_⟩
    change ((magicLoop n).bind fun rest => .done (c :: rest)).Meets s _
    refine ih.bind (reading_below s c) ?_
    rintro is os magic t ⟨length, rfl, rfl, rfl⟩
    rw [Assertions.after_after]
    exact ⟨by simpa using length, by simp, rfl, rfl⟩

private theorem toNat_orByte {kernelSize : Word} {i : ℕ} (below : kernelSize.toNat < 256 ^ i)
    (place : i < 4)
    (c : BitVec 8) : (kernelSize ||| ((c.setWidth 32 <<< (i * 8)).setWidth 64)).toNat =
    kernelSize.toNat + 256 ^ i * c.toNat := by
  have power : 256 ^ i = 2 ^ (i * 8) := by
    rw [Nat.mul_comm, Nat.pow_mul]
  have byte := c.isLt
  have shifted : ((c.setWidth 32 <<< (i * 8)).setWidth 64).toNat = 2 ^ (i * 8) * c.toNat := by
    have small : c.toNat * 2 ^ (i * 8) < 2 ^ 32 := by
      calc c.toNat * 2 ^ (i * 8) < 2 ^ 8 * 2 ^ (i * 8) :=
        Nat.mul_lt_mul_of_pos_right byte (Nat.two_pow_pos _)
        _ = 2 ^ (8 + i * 8) := (Nat.pow_add 2 8 (i * 8)).symm
        _ ≤ 2 ^ 32 := Nat.pow_le_pow_right (by decide) (by omega)
    rw [BitVec.toNat_setWidth, BitVec.toNat_shiftLeft, BitVec.toNat_setWidth, Nat.shiftLeft_eq,
      Nat.mod_eq_of_lt (show c.toNat < 2 ^ 32 by omega), Nat.mod_eq_of_lt small, Nat.mul_comm]
    exact Nat.mod_eq_of_lt (by rw [Nat.mul_comm]; omega)
  rw [power] at below ⊢
  rw [BitVec.toNat_or, shifted, Nat.or_comm, ← Nat.two_pow_add_eq_or_of_lt below, Nat.add_comm]

/-- The bytes of the size are added to those read before. -/
private theorem meets_sizeLoop (n i : ℕ) (places : i + n ≤ 4) (kernelSize : Word)
    (below : kernelSize.toNat < 256 ^ i) : (sizeLoop kernelSize i n).Meets s
    (reading s n fun is size => size.toNat = kernelSize.toNat + 256 ^ i * littleEndian is) := by
  induction n generalizing i kernelSize with
  | zero => exact ⟨rfl, rfl, rfl, rfl⟩
  | succ n ih =>
    refine ⟨⟨Nat.succ_pos n, rfl, rfl⟩, fun c => ?_⟩
    have added := toNat_orByte below (by omega) c
    have byte := c.isLt
    have below' : (kernelSize ||| ((c.setWidth 32 <<< (i * 8)).setWidth 64)).toNat <
        256 ^ (i + 1) := by
      rw [added, Nat.pow_succ]
      nlinarith
    refine Meets.mono (ih (i + 1) (by omega) _ below') (reading_below s c) ?_
    rintro is os size t ⟨length, value, rfl, rfl⟩
    refine ⟨congrArg (· + 1) length, ?_, rfl, rfl⟩
    change size.toNat = kernelSize.toNat + 256 ^ i * (c.toNat + 256 * littleEndian is)
    rw [value, added, Nat.pow_succ]
    ring

/-- The bytes of the kernel are stored one after the other. -/
private theorem meets_loadLoop (n i : ℕ) : (loadLoop i n).Meets s
    { waiting is os t := is.length < n ∧ os = [] ∧ t = load s i is
      busy is os t := ∃ got c, is = got ++ [c] ∧ got.length < n ∧ os = [] ∧ t = load s i got
      halted _ _ _ := False
      ended is os _ t := is.length = n ∧ os = [] ∧ t = load s i is } := by
  induction n generalizing i s with
  | zero => exact ⟨rfl, rfl, rfl⟩
  | succ n ih =>
    refine ⟨⟨Nat.succ_pos n, rfl, rfl⟩, fun c => ⟨⟨[], c, rfl, Nat.succ_pos n, rfl, rfl⟩, ?_⟩⟩
    refine Meets.mono (ih _ (i + 1)) ⟨?_, ?_, fun _ _ _ => False.elim⟩ ?_
    · rintro is os t ⟨short, rfl, rfl⟩
      exact ⟨Nat.succ_lt_succ short, rfl, rfl⟩
    · rintro is os t ⟨got, last, rfl, short, rfl, rfl⟩
      exact ⟨c :: got, last, rfl, Nat.succ_lt_succ short, rfl, rfl⟩
    · rintro is os result t ⟨length, rfl, rfl⟩
      exact ⟨congrArg (· + 1) length, rfl, rfl⟩

end Parts

/-! ## The bootloader -/

/-- What was read and written and what memory holds when the bootloader waits for a byte. -/
inductive Waiting (s : Memory) : Bytes → Bytes → Memory → Prop
  | magic {is : Bytes} (short : is.length < 4) : Waiting s is [] s
  | size {is : Bytes} (short : is.length < 4) : Waiting s (boot ++ is) acceptance s
  /-- For the kernel, or for the byte after it. -/
  | kernel {size got : Bytes} (header : size.length = 4) (fits : got.length ≤ littleEndian size) :
      Waiting s (boot ++ (size ++ got)) (acceptance ++ sizeLine (littleEndian size)) (load s 0 got)

/-- The same while it writes a line or is about to store a byte. -/
inductive Busy (s : Memory) : Bytes → Bytes → Memory → Prop
  | rejects {is os : Bytes} (length : is.length = 4) (wrong : is ≠ boot) (out : os <+: rejection) :
      Busy s is os s
  | accepts {os : Bytes} (out : os <+: acceptance) : Busy s boot os s
  | announces {size os : Bytes} (header : size.length = 4)
      (out : os <+: sizeLine (littleEndian size)) :
      Busy s (boot ++ size) (acceptance ++ os) s
  | stores {size got : Bytes} {c : BitVec 8} (header : size.length = 4)
      (fits : got.length < littleEndian size) :
      Busy s (boot ++ (size ++ (got ++ [c])))
      (acceptance ++ sizeLine (littleEndian size)) (load s 0 got)
  | jumps {size kernel os : Bytes} {key : BitVec 8} (header : size.length = 4)
      (whole : kernel.length = littleEndian size) (out : os <+: jumpLines) :
      Busy s (boot ++ (size ++ (kernel ++ [key])))
      (acceptance ++ (sizeLine (littleEndian size) ++ os)) (load s 0 kernel)

/-- The bootloader stops for good only if the magic number is wrong, and jumps to the kernel when it
has all of it. -/
def bootloading (s : Memory) : Assertions (BitVec 8) (BitVec 8) Memory Word where
  waiting := Waiting s
  busy := Busy s
  halted is os t := is.length = 4 ∧ is ≠ boot ∧ os = rejection ∧ t = s
  ended is os entry t := entry = kernelBase ∧ ∃ size kernel key, size.length = 4 ∧
    kernel.length = littleEndian size ∧
    is = boot ++ (size ++ (kernel ++ [key])) ∧
    os = acceptance ++ (sizeLine (littleEndian size) ++ jumpLines) ∧
    t = load s 0 kernel

/-- The lines of a program that writes a text and goes on. -/
theorem meets_lines {β : Type} {s : Memory} {text : Bytes} {f : Unit → Polling β}
    {B : Assertions (BitVec 8) (BitVec 8) Memory β} (busy : ∀ os, os <+: text → B.busy [] os s)
    (next : (f ()).Meets s (B.after [] text)) : ((writeAll text).bind f).Meets s B := by
  refine (meets_writeAll text s).bind ⟨fun _ _ _ => False.elim, ?_, fun _ _ _ => False.elim⟩ ?_
  · rintro is os t ⟨rfl, out, rfl⟩
    exact busy os out
  · rintro is os result t ⟨rfl, rfl, rfl⟩
    exact next

/-- Two texts are written like one. -/
theorem uartPuts_append {β : Type} (first second : Bytes) (f : Unit → Polling β) :
    (uartPuts (first ++ second)).bind f = (uartPuts first).bind fun _ =>
    (uartPuts second).bind f := by
  have text : putsBytes (first ++ second) = putsBytes first ++ putsBytes second :=
    List.flatMap_append
  rw [uartPuts, uartPuts, uartPuts, writeAll_append, text]

/-- The end of `uart_bootloader`. -/
def jump : Polling Word := do
  uartPuts (literal "Kernel loaded. Jumping...\n")
  uartPuts (literal "Kernel address: ")
  uartPuts (uartHex kernelBase)
  uartPuts (literal "\n")
  return kernelBase

/-- What follows the line with the size. -/
def loading (n : ℕ) : Polling Word := do
  loadLoop 0 n
  let _ ← uartGetc
  jump

private theorem jump_eq : jump = (writeAll jumpLines).bind fun _ => .done kernelBase := by
  have lines : literal "Kernel loaded. Jumping...\nKernel address: " =
      literal "Kernel loaded. Jumping...\n" ++ literal "Kernel address: " := rfl
  change _ = (uartPuts _).bind _
  rw [lines, List.append_assoc, uartPuts_append, uartPuts_append, uartPuts_append]
  rfl

section Stages

variable {s : Memory} {size kernel : Bytes}

private theorem jump_meets (header : size.length = 4)
    (whole : kernel.length = littleEndian size) (key : BitVec 8) :
    jump.Meets (load s 0 kernel) ((bootloading s).after (boot ++ (size ++ (kernel ++ [key])))
      (acceptance ++ sizeLine (littleEndian size))) := by
  rw [jump_eq]
  refine meets_lines (fun os out => ?_) ?_
  · change Busy s (boot ++ (size ++ (kernel ++ [key])) ++ [])
      (acceptance ++ sizeLine (littleEndian size) ++ os) _
    rw [List.append_nil, List.append_assoc]
    exact .jumps header whole out
  · rw [Assertions.after_after, List.append_nil, List.append_assoc]
    refine ⟨rfl, size, kernel, key, header, whole, List.append_nil _, List.append_nil _, rfl⟩

private theorem loading_meets (header : size.length = 4) : (loading (littleEndian size)).Meets s
    ((bootloading s).after (boot ++ size) (acceptance ++ sizeLine (littleEndian size))) := by
  refine Meets.bind (meets_loadLoop s (littleEndian size) 0) ⟨?_, ?_, fun _ _ _ => False.elim⟩ ?_
  · rintro is os t ⟨short, rfl, rfl⟩
    change Waiting s (boot ++ size ++ is) (_ ++ []) _
    rw [List.append_assoc, List.append_nil]
    exact .kernel header short.le
  · rintro is os t ⟨got, c, rfl, short, rfl, rfl⟩
    change Busy s (boot ++ size ++ (got ++ [c])) (_ ++ []) _
    rw [List.append_assoc, List.append_nil]
    exact .stores header short
  rintro kernel os result t ⟨whole, rfl, rfl⟩
  rw [Assertions.after_after, List.append_nil, List.append_assoc]
  refine ⟨?_, fun key => ?_⟩
  · change Waiting s (boot ++ (size ++ kernel) ++ []) (_ ++ []) _
    rw [List.append_nil, List.append_nil]
    exact .kernel header whole.le
  · rw [Assertions.after_after, List.append_assoc, List.append_assoc, List.append_nil]
    exact jump_meets header whole key

end Stages

private theorem uartBootloader_meets (s : Memory) : uartBootloader.Meets s (bootloading s) := by
  refine Meets.bind (meets_magicLoop s 4) ⟨?_, fun _ _ _ => False.elim, fun _ _ _ => False.elim⟩ ?_
  · rintro is os t ⟨short, rfl, rfl⟩
    exact .magic short
  rintro magic os result t ⟨length, rfl, rfl, rfl⟩
  by_cases wrong : result ≠ boot
  · rw [if_pos (show result ≠ literal "BOOT" from wrong)]
    refine meets_lines (fun os out => ?_) ?_
    · change Busy t (result ++ []) os t
      rw [List.append_nil]
      exact .rejects length wrong out
    · change (result ++ []).length = 4 ∧ result ++ [] ≠ boot ∧ rejection ++ [] = rejection ∧ t = t
      rw [List.append_nil, List.append_nil]
      exact ⟨length, wrong, rfl, rfl⟩
  rw [if_neg (show ¬ result ≠ literal "BOOT" from wrong)]
  obtain rfl : result = boot := not_not.mp wrong
  refine meets_lines (fun os out => .accepts out) ?_
  rw [Assertions.after_after]
  refine Meets.bind (meets_sizeLoop t 4 0 (by decide) 0#64 (by decide))
    ⟨?_, fun _ _ _ => False.elim, fun _ _ _ => False.elim⟩ ?_
  · rintro is os t ⟨short, rfl, rfl⟩
    exact .size short
  rintro size os result t ⟨header, value, rfl, rfl⟩
  have number : result.toNat = littleEndian size := by
    rw [value]
    exact (Nat.zero_add _).trans (Nat.one_mul _)
  have goes : (uartPuts (literal "Kernel size: " ++ (decimal result.toNat ++ literal "\n"))).bind
      (fun _ => loading result.toNat) = (do
        uartPuts (literal "Kernel size: ")
        uartPuts ((uartDecimal result).getD [])
        uartPuts (literal "\n")
        loading result.toNat) := by
    rw [uartPuts_append, uartPuts_append, uartDecimal_eq]
    rfl
  rw [Assertions.after_after, List.append_nil, List.append_nil]
  refine Eq.mp (congrArg (fun program : Polling Word => program.Meets t _) goes) ?_
  rw [number]
  refine meets_lines (fun os out => ?_) ?_
  · change Busy t (boot ++ size ++ []) (acceptance ++ os) t
    rw [List.append_nil]
    exact .announces header out
  · rw [Assertions.after_after, List.append_nil]
    exact loading_meets header

/-! ## What the host sends -/

section Host

variable {image stream : Bytes}

/-- The size that the host sends is the one that the bootloader reads. -/
private theorem transmitKernel_spec (sent : transmitKernel image = some stream) :
    ∃ size, size.length = 4 ∧ littleEndian size = image.length ∧
      stream = boot ++ (size ++ image) := by
  have magic : pack 0x544F4F42 = some boot := by decide
  rw [transmitKernel, magic, Option.bind_eq_bind, Option.bind_some] at sent
  obtain ⟨size, packed, same⟩ := Option.bind_eq_some_iff.mp sent
  obtain ⟨small, bytes⟩ := Option.ite_none_right_eq_some.mp packed
  obtain rfl := Option.some.inj bytes
  obtain rfl := Option.some.inj same
  refine ⟨_, rfl, ?_, List.append_assoc _ _ _⟩
  rw [littleEndian_pack]
  exact Nat.mod_eq_of_lt small

/-- What is written when a kernel of this size is loaded. -/
def transcript (n : ℕ) : Bytes := acceptance ++ (sizeLine n ++ jumpLines)

/-- A point of the transfer: a part of the kernel is loaded, all of it when the bootloader jumps;
the bootloader has not given up, and where it waits it has not read beyond the kernel. -/
structure Transferring (m : Memory) (image is os : Bytes) (program : Polling Word)
    (t : Memory) : Prop where
  loaded : ∃ k ≤ image.length, t = load m 0 (image.take k) ∧
    ∀ entry, program = .done entry → k = image.length
  out : os <+: transcript image.length
  goes : program ≠ .halt
  jumps : ∀ entry, program = .done entry → entry = kernelBase ∧ os = transcript image.length
  waits : ∀ next, program = .read next → is.length ≤ 8 + image.length

/-- The size that was read is the one that was sent, and what comes after it is what was sent after
it. -/
theorem header_eq {size size' got rest : Bytes} (header : size.length = 4)
    (header' : size'.length = 4) (first : boot ++ (size ++ got) <+: boot ++ (size' ++ rest)) :
    size = size' ∧ got <+: rest := by
  obtain ⟨later, same⟩ := (List.prefix_append_right_inj boot).mp first
  rw [List.append_assoc] at same
  obtain ⟨equal, rest_eq⟩ := List.append_inj same (header.trans header'.symm)
  exact ⟨equal, later, rest_eq⟩

/-- What was got of the kernel is the first part of the image. -/
theorem eq_take {got keys : Bytes} (first : got <+: image ++ keys)
    (fits : got.length ≤ image.length) :
    got = image.take got.length := by
  have whole := List.prefix_iff_eq_take.mp first
  rwa [List.take_append_of_le_length fits] at whole

section Points

variable {m t : Memory} {size keys is os : Bytes}

theorem loaded_start (m : Memory) (image : Bytes) :
    ∃ k ≤ image.length, m = load m 0 (image.take k) :=
  ⟨0, Nat.zero_le _, rfl⟩

theorem Waiting.spec (waiting : Waiting m is os t) (header : size.length = 4)
    (number : littleEndian size = image.length) (read : is <+: boot ++ (size ++ (image ++ keys))) :
    (∃ k ≤ image.length, t = load m 0 (image.take k)) ∧ os <+: transcript image.length ∧
    is.length ≤ 8 + image.length := by
  have magic : boot.length = 4 := rfl
  cases waiting with
  | magic short => exact ⟨loaded_start m image, List.nil_prefix, by omega⟩
  | size short =>
    refine ⟨loaded_start m image, List.prefix_append _ _, ?_⟩
    rw [List.length_append]
    omega
  | @kernel size' got header' fits =>
    obtain ⟨rfl, first⟩ := header_eq header' header read
    rw [number] at fits ⊢
    refine ⟨⟨got.length, fits, congrArg (load m 0) (eq_take first fits)⟩, ?_, ?_⟩
    · rw [transcript, ← List.append_assoc]
      exact List.prefix_append _ _
    · rw [List.length_append, List.length_append]
      omega

theorem Busy.spec (busy : Busy m is os t) (header : size.length = 4)
    (number : littleEndian size = image.length) (read : is <+: boot ++ (size ++ (image ++ keys))) :
    (∃ k ≤ image.length, t = load m 0 (image.take k)) ∧ os <+: transcript image.length := by
  cases busy with
  | rejects length wrong out =>
    have same : is = boot := by
      have whole := List.prefix_iff_eq_take.mp read
      rwa [length] at whole
    exact absurd same wrong
  | accepts out => exact ⟨loaded_start m image, out.trans (List.prefix_append _ _)⟩
  | @announces size' os header' out =>
    rw [← List.append_nil size'] at read
    obtain ⟨rfl, -⟩ := header_eq header' header read
    rw [number] at out
    refine ⟨loaded_start m image,
      (List.prefix_append_right_inj _).mpr (out.trans (List.prefix_append _ _))⟩
  | @stores size' got c header' fits =>
    obtain ⟨rfl, first⟩ := header_eq header' header read
    rw [number] at fits ⊢
    refine ⟨⟨got.length, fits.le,
      congrArg (load m 0) (eq_take ((List.prefix_append _ _).trans first) fits.le)⟩, ?_⟩
    rw [transcript, ← List.append_assoc]
    exact List.prefix_append _ _
  | @jumps size' kernel os key header' whole out =>
    obtain ⟨rfl, first⟩ := header_eq header' header read
    rw [number] at whole ⊢
    refine ⟨⟨kernel.length, whole.le,
      congrArg (load m 0) (eq_take ((List.prefix_append _ _).trans first) whole.le)⟩, ?_⟩
    exact (List.prefix_append_right_inj _).mpr ((List.prefix_append_right_inj _).mpr out)

private theorem transferring_of_holds {program : Polling Word} (header : size.length = 4)
    (number : littleEndian size = image.length) (holds : (bootloading m).holds is os program t)
    (read : is <+: boot ++ (size ++ (image ++ keys))) : Transferring m image is os program t := by
  cases program with
  | done entry =>
    obtain ⟨rfl, size', kernel, key, header', whole, rfl, rfl, rfl⟩ := holds
    obtain ⟨rfl, first⟩ := header_eq header' header read
    rw [number] at whole ⊢
    have taken := eq_take ((List.prefix_append _ _).trans first) whole.le
    refine ⟨⟨kernel.length, whole.le, congrArg (load m 0) taken, fun _ _ => whole⟩, List.prefix_rfl,
      nofun, fun entry same => ?_, nofun⟩
    obtain rfl := Dialogue.done.inj same
    exact ⟨rfl, rfl⟩
  | halt =>
    obtain ⟨length, wrong, -, -⟩ := holds
    have same : is = boot := by
      have whole := List.prefix_iff_eq_take.mp read
      rwa [length] at whole
    exact absurd same wrong
  | read next =>
    obtain ⟨⟨k, atMost, same⟩, out, waits⟩ := Waiting.spec holds header number read
    exact ⟨⟨k, atMost, same, nofun⟩, out, nofun, nofun, fun _ _ => waits⟩
  | write item next =>
    obtain ⟨⟨k, atMost, same⟩, out⟩ := Busy.spec holds header number read
    exact ⟨⟨k, atMost, same, nofun⟩, out, nofun, nofun, nofun⟩
  | update change next =>
    obtain ⟨⟨k, atMost, same⟩, out⟩ := Busy.spec holds header number read
    exact ⟨⟨k, atMost, same, nofun⟩, out, nofun, nofun, nofun⟩

end Points

/-- What is loaded of an image that ends below the port. -/
private theorem load_take {m : Memory} {k : ℕ} (below : kernelBase.toNat + image.length ≤ uartBase)
    (atMost : k ≤ image.length) (address : Word) : load m 0 (image.take k) address =
      if kernelBase.toNat ≤ address.toNat ∧ address.toNat < kernelBase.toNat + k then
        image.getD (address.toNat - kernelBase.toNat) 0#8
      else m address := by
  have length : (image.take k).length = k := List.length_take_of_le atMost
  have fits : 0 + (image.take k).length ≤ 2 ^ 32 := by
    have base : kernelBase.toNat = 0x20000000 := rfl
    rw [uartBase] at below
    omega
  rw [load_apply m _ 0 fits address, length, Nat.add_zero]
  split
  · rename_i inside
    rw [List.getD_eq_getElem?_getD, List.getElem?_take_of_lt (by omega), List.getD_eq_getElem?_getD]
  · rfl

/-- In every interleaving in which no byte is lost, the bootloader loads what the host sends, a byte
at a time, and changes nothing else in memory; it writes the lines that announce the kernel, and
jumps to it once all of it is there and one more byte has come, which it then does by itself. -/
theorem kernel_transferred {capacity : ℕ} {m : Memory} {keys : Bytes}
    {events : List (Event (BitVec 8) (BitVec 8))} {c : Station (BitVec 8) (BitVec 8) Memory Word}
    (sent : transmitKernel image = some stream) (below : kernelBase.toNat + image.length ≤ uartBase)
    (run : System.Path (machine capacity) ⟨uartBootloader, m, []⟩ events c)
    (lossless : events.filterMap Event.arrived? = events.filterMap Event.sent?)
    (delivered : events.filterMap Event.sent? <+: stream ++ keys) :
    (∃ k ≤ image.length, (∀ address : Word, c.store address =
      if kernelBase.toNat ≤ address.toNat ∧ address.toNat < kernelBase.toNat + k then
        image.getD (address.toNat - kernelBase.toNat) 0#8
      else m address) ∧ ∀ entry, c.program = .done entry → k = image.length) ∧
    events.filterMap Event.written? <+: transcript image.length ∧ c.program ≠ .halt ∧
    (∀ entry, c.program = .done entry → entry = kernelBase ∧
      events.filterMap Event.written? = transcript image.length) ∧
    (stream.length < (events.filterMap Event.sent?).length →
      ∃ later d, System.Path (machine capacity) c later d ∧
      later.filterMap Event.sent? = [] ∧ d.program = .done kernelBase) := by
  obtain ⟨size, header, number, rfl⟩ := transmitKernel_spec sent
  have point : ∀ {events d}, System.Path (machine capacity) ⟨uartBootloader, m, []⟩ events d →
      events.filterMap Event.arrived? <+: boot ++ (size ++ image) ++ keys →
      Transferring m image (events.filterMap Event.read?)
      (events.filterMap Event.written?) d.program d.store := by
    intro events d path arrived
    obtain ⟨runs, queue⟩ := runs_of_path path
    rw [List.nil_append] at queue
    have read : events.filterMap Event.read? <+: boot ++ (size ++ (image ++ keys)) := by
      rw [queue, List.append_assoc, List.append_assoc] at arrived
      exact (List.prefix_append _ _).trans arrived
    exact transferring_of_holds header number ((uartBootloader_meets m).holds runs) read
  have here := point run (lossless ▸ delivered)
  refine ⟨?_, here.out, here.goes, fun entry jumps => ?_, fun more => ?_⟩
  · obtain ⟨k, atMost, same, jumps⟩ := here.loaded
    exact ⟨k, atMost,
      fun address => (congrFun same address).trans (load_take below atMost address), jumps⟩
  · exact ⟨(here.jumps entry jumps).1, (here.jumps entry jumps).2⟩
  · obtain ⟨later, d, goes, silent, settled⟩ := exists_settled capacity c
    have received := arrived_eq_nil silent
    have all : (events ++ later).filterMap Event.arrived? = events.filterMap Event.sent? := by
      rw [List.filterMap_append, received, List.append_nil, lossless]
    have there := point (run.append goes) (all ▸ delivered)
    have queue := (runs_of_path (run.append goes)).2
    rw [List.nil_append, all] at queue
    refine ⟨later, d, goes, silent, ?_⟩
    cases program : d.program with
    | done entry => rw [(there.jumps entry program).1]
    | halt => exact absurd program there.goes
    | read next =>
      -- it has read all that was sent, which is more than it can have read while it waits
      rw [program] at settled
      have waits := there.waits next program
      have magic : boot.length = 4 := rfl
      rw [show d.queue = [] from settled, List.append_nil] at queue
      rw [← queue] at waits
      simp only [List.length_append] at more
      omega
    | write item next =>
      rw [program] at settled
      exact False.elim settled
    | update change next =>
      rw [program] at settled
      exact False.elim settled

end Host

/-- A kernel of one byte, and a key. -/
theorem kernel_transferred_byte :
    ∃ events d, System.Path (machine 64) ⟨uartBootloader, fun _ => 0#8, []⟩ events d ∧
    d.program = .done kernelBase ∧ d.store kernelBase = 0x13#8 ∧
      events.filterMap Event.written? = transcript 1 := by
  obtain ⟨stream, sent, length⟩ : ∃ stream, transmitKernel [0x13#8] = some stream ∧
      stream.length = 9 := ⟨_, rfl, rfl⟩
  have below : kernelBase.toNat + [0x13#8].length ≤ uartBase := by decide
  have bytes : (stream ++ [13#8]).length = 10 := by
    rw [List.length_append, length]
    rfl
  let start : Station (BitVec 8) (BitVec 8) Memory Word := ⟨uartBootloader, fun _ => 0#8, []⟩
  have arrives := @path_arrive _ _ _ _ 64 start (stream ++ [13#8]) (by rw [bytes]; decide)
  have all := @sent_arrive (BitVec 8) (BitVec 8) (stream ++ [13#8])
  have received := @arrived_arrive (BitVec 8) (BitVec 8) (stream ++ [13#8])
  obtain ⟨-, -, -, -, goesOn⟩ := kernel_transferred sent below arrives (received.trans all.symm)
    (by rw [all])
  obtain ⟨later, d, goes, silent, jumped⟩ := goesOn (by rw [all, bytes, length]; decide)
  have run := arrives.append goes
  obtain ⟨⟨k, -, stored, whole⟩, -, -, jumps, -⟩ :=
    @kernel_transferred _ _ _ _ [13#8] _ _ sent below run
    (by rw [List.filterMap_append, List.filterMap_append,
      arrived_eq_nil silent, silent, all, received])
    (by rw [List.filterMap_append, silent, all, List.append_nil])
  obtain rfl : k = 1 := whole kernelBase jumped
  refine ⟨_, d, run, jumped, ?_, (jumps kernelBase jumped).2⟩
  rw [stored kernelBase, if_pos ⟨le_rfl, Nat.lt_succ_self _⟩, Nat.sub_self]
  rfl

end OscKernel.Soundness.KernelTransfer
