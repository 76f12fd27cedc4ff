import OscKernel.Lib.Numerals
import OscKernel.Model.Printf

/-! # What `uart_printf` prints

A format is a list of pieces: ordinary characters and directives with their values. `uart_printf` is
defined on a format and its arguments when they are those of some pieces, and it prints the pieces
one after the other. What it prints of a number is read back as that number, the least `long`
included.
-/

namespace OscKernel.Soundness.FormattedOutput

open OscKernel.Lib OscKernel.Model

/-! ## Numbers -/

/-- The character of a digit. -/
def digitChar (digit : ℕ) : BitVec 8 :=
  BitVec.ofNat 8 (if digit > 9 then 0x57 + digit else 48 + digit)

/-- The digit that a character stands for. -/
def charDigit (c : BitVec 8) : ℕ := if c.toNat ≥ 97 then c.toNat - 0x57 else c.toNat - 48

private theorem charDigit_digitChar : ∀ digit < 16, charDigit (digitChar digit) = digit := by
  decide

/-- The number that a text stands for. -/
def readText (base : ℕ) (text : List (BitVec 8)) : ℕ := readDigits base (text.map charDigit)

def decimal (n : ℕ) : List (BitVec 8) := (numeral 10 n).map digitChar

theorem map_charDigit {digits : List ℕ} (small : ∀ digit ∈ digits, digit < 16) :
    (digits.map digitChar).map charDigit = digits := by
  rw [List.map_map]
  exact (List.map_congr_left fun digit member =>
    charDigit_digitChar digit (small digit member)).trans (List.map_id _)

theorem readText_decimal (n : ℕ) : readText 10 (decimal n) = n := by
  have small : ∀ digit ∈ numeral 10 n, digit < 16 := fun digit member =>
    (numeral_lt (by decide) member).trans (by decide)
  rw [readText, decimal, map_charDigit small, readDigits_numeral]

/-- The digits of a word fit into the buffer. -/
private theorem decimalLoop_eq (room : ℕ) (d : Word) (buf : List (BitVec 8))
    (fits : d.toNat < 10 ^ room) :
    decimalLoop d buf room = some ((Nat.digits 10 d.toNat).reverse.map digitChar ++ buf) := by
  induction room generalizing d buf with
  | zero =>
    have zero : d = 0#64 := BitVec.eq_of_toNat_eq (by simpa using fits)
    subst zero
    rfl
  | succ room ih =>
    rw [decimalLoop]
    split
    · rename_i zero
      subst zero
      rfl
    · rename_i nonzero
      have positive : 0 < d.toNat := by
        rw [Nat.pos_iff_ne_zero]
        exact fun zero => nonzero (BitVec.eq_of_toNat_eq zero)
      have quotient : (d / 10#64).toNat = d.toNat / 10 := BitVec.toNat_udiv
      have digit : (48#64 + d % 10#64).truncate 8 = digitChar (d.toNat % 10) := by
        have remainder : (d % 10#64).toNat = d.toNat % 10 := BitVec.toNat_umod
        have small : ¬ d.toNat % 10 > 9 := by omega
        have sum : (48#64 + d % 10#64).toNat = 48 + d.toNat % 10 := by
          rw [BitVec.toNat_add, remainder]
          exact Nat.mod_eq_of_lt (show 48 + d.toNat % 10 < 2 ^ 64 by omega)
        rw [digitChar, if_neg small, ← sum]
        rfl
      have smaller : (d / 10#64).toNat < 10 ^ room := by
        rw [quotient]
        rw [Nat.pow_succ] at fits
        exact Nat.div_lt_of_lt_mul (by omega)
      rw [ih _ _ smaller, quotient, digit, Nat.digits_def' (by decide) positive, List.reverse_cons,
        List.map_append, List.append_assoc]
      rfl

theorem uartDecimal_eq (d : Word) : uartDecimal d = some (decimal d.toNat) := by
  rw [uartDecimal, decimal, numeral]
  split
  · rename_i zero
    subst zero
    rfl
  · rename_i nonzero
    have natural : d.toNat ≠ 0 := fun zero => nonzero (BitVec.eq_of_toNat_eq zero)
    have fits : d.toNat < 10 ^ 20 := d.isLt.trans (by decide)
    rw [if_neg natural, decimalLoop_eq 20 d [] fits, List.append_nil]

/-- The sixteen places of `uart_hex`. -/
theorem uartHex_eq (h : Word) :
    uartHex h = literal "0x" ++ (places 16 16 h.toNat).map digitChar := by
  rw [uartHex, places_eq_map, List.map_map]
  congr 1
  apply List.map_congr_left
  intro i member
  have below := List.mem_range.mp member
  have power : 16 ^ (16 - 1 - i) = 2 ^ (60 - 4 * i) := by
    rw [show (16 : ℕ) = 2 ^ 4 from rfl, ← Nat.pow_mul]
    congr 1
    omega
  have value : ((h >>> (60 - 4 * i)) &&& 0xf#64).toNat = h.toNat / 16 ^ (16 - 1 - i) % 16 := by
    rw [power, BitVec.toNat_and, BitVec.toNat_ushiftRight, Nat.shiftRight_eq_div_pow]
    exact Nat.and_two_pow_sub_one_eq_mod _ 4
  generalize (h >>> (60 - 4 * i)) &&& 0xf#64 = n at value
  have digits : ∀ m < 16,
      (BitVec.ofNat 64 m + if BitVec.ofNat 64 m > 9#64 then 0x57#64 else 48#64).truncate 8 =
      digitChar m := by decide
  rw [Function.comp_apply, ← value, ← digits n.toNat (value ▸ Nat.mod_lt _ (by decide)),
    BitVec.ofNat_toNat, BitVec.setWidth_eq]

/-! ## Pieces -/

/-- The characters behind `%` that the `switch` has a case for. -/
def directives : List (BitVec 8) := [99#8, 115#8, 100#8, 117#8, 120#8, 112#8, percent]

/-- A character of a format, or a directive with its value. -/
inductive Piece where
  | ordinary (c : BitVec 8) (plain : c ≠ percent)
  | character (w : Word)
  | string (text : List (BitVec 8))
  | signed (w : Word)
  | unsigned (w : Word)
  | hexadecimal (w : Word)
  | pointer (w : Word)
  | percentSign
  | unknown (c : BitVec 8) (other : c ∉ directives)

namespace Piece

def format : Piece → List (BitVec 8)
  | ordinary c _ => [c]
  | character _ => [percent, 99#8]
  | string _ => [percent, 115#8]
  | signed _ => [percent, 100#8]
  | unsigned _ => [percent, 117#8]
  | hexadecimal _ => [percent, 120#8]
  | pointer _ => [percent, 112#8]
  | percentSign => [percent, percent]
  | unknown c _ => [percent, c]

def arguments : Piece → List Argument
  | character w | signed w | unsigned w | hexadecimal w | pointer w => [.register w]
  | string text => [.string text]
  | ordinary _ _ | percentSign | unknown _ _ => []

/-- The places of a word behind `0x`. -/
def hexDigits (w : Word) : List (BitVec 8) := (places 16 16 w.toNat).map digitChar

def print : Piece → List (BitVec 8)
  | ordinary c _ => [c]
  | character w => [w.truncate 8]
  | string text => text
  | signed w => if w.toInt < 0 then minus :: decimal w.toInt.natAbs else decimal w.toInt.natAbs
  | unsigned w => decimal w.toNat
  | hexadecimal w | pointer w => literal "0x" ++ hexDigits w
  | percentSign => [percent]
  | unknown c _ => [percent, c]

end Piece

/-- The number that a text with or without a sign stands for. -/
def readSigned (text : List (BitVec 8)) : ℤ :=
  if text.head? = some minus then -(readText 10 text.tail : ℤ) else readText 10 text

private theorem head_decimal (n : ℕ) : (decimal n).head? ≠ some minus := by
  intro sign
  obtain ⟨digit, member, same⟩ := List.mem_map.mp (List.mem_of_head? sign)
  have small : digit < 16 := (numeral_lt (by decide) member).trans (by decide)
  have apart : ∀ digit < 16, digitChar digit ≠ minus := by decide
  exact apart digit small same

private theorem signed_print (w : Word) :
    (if w.slt 0#64 then (uartDecimal (-w)).map fun digits => minus :: digits else uartDecimal w) =
      some (Piece.signed w).print := by
  have sign : w.slt 0#64 = true ↔ w.toInt < 0 := by
    rw [BitVec.slt_iff_toInt_lt]
    rfl
  rw [uartDecimal_eq, uartDecimal_eq, Piece.print]
  by_cases negative : w.toInt < 0
  · rw [if_pos (sign.mpr negative), if_pos negative, Option.map_some]
    have magnitude : (-w).toNat = w.toInt.natAbs := by
      have value := BitVec.toInt_eq_toNat_cond w
      have bound := w.isLt
      rw [BitVec.toNat_neg]
      split at value <;> omega
    rw [magnitude]
  · rw [if_neg (fun slt => negative (sign.mp slt)), if_neg negative]
    have magnitude : w.toNat = w.toInt.natAbs := by
      have value := BitVec.toInt_eq_toNat_cond w
      have bound := w.isLt
      split at value <;> omega
    rw [magnitude]

/-- What is printed of a number is read back. -/
def Piece.ReadBack : Piece → Prop
  | signed w => readSigned (signed w).print = w.toInt
  | unsigned w => readText 10 (unsigned w).print = w.toNat
  | hexadecimal w | pointer w =>
    (hexadecimal w).print = literal "0x" ++ hexDigits w ∧ readText 16 (hexDigits w) = w.toNat
  | _ => True

theorem readText_hexDigits (w : Word) : readText 16 (Piece.hexDigits w) = w.toNat := by
  have fits : w.toNat < 16 ^ 16 := w.isLt
  rw [readText, Piece.hexDigits, map_charDigit fun digit => places_lt (by decide),
    readDigits_places fits]

theorem Piece.readBack (piece : Piece) : piece.ReadBack := by
  cases piece with
  | signed w =>
    rw [ReadBack, readSigned, print]
    by_cases negative : w.toInt < 0
    · rw [if_pos negative, List.head?_cons, if_pos rfl, List.tail_cons, readText_decimal]
      omega
    · rw [if_neg negative, if_neg (head_decimal _), readText_decimal]
      omega
  | unsigned w => exact readText_decimal w.toNat
  | hexadecimal w => exact ⟨rfl, readText_hexDigits w⟩
  | pointer w => exact ⟨rfl, readText_hexDigits w⟩
  | _ => trivial

/-! ## Formats -/

theorem uartPrintf_ordinary {c : BitVec 8} (plain : c ≠ percent)
    (rest : List (BitVec 8)) (args : List Argument) :
    uartPrintf (c :: rest) args = (uartPrintf rest args).map fun later => c :: later := by
  cases rest with
  | nil => simp only [uartPrintf, if_neg plain, Option.map_some]
  | cons next rest => rw [uartPrintf, if_neg plain]

theorem uartPrintf_directive (c : BitVec 8) (rest : List (BitVec 8)) (args : List Argument) :
    uartPrintf (percent :: c :: rest) args = (printfDirective c args).bind fun printed =>
      (uartPrintf rest printed.2).map fun later => printed.1 ++ later := by
  rw [uartPrintf, if_pos rfl]

/-- The directive of a piece prints the piece. -/
theorem printfDirective_of_piece {c : BitVec 8} {piece : Piece}
    (format : piece.format = [percent, c]) (rest : List Argument) :
    printfDirective c (piece.arguments ++ rest) = some (piece.print, rest) := by
  have letter : ∀ d, [percent, d] = [percent, c] → d = c :=
    fun d same => (List.cons.inj (List.cons.inj same).2).1
  cases piece with
  | ordinary c plain => cases format
  | character w =>
    obtain rfl := letter _ format
    rfl
  | string text =>
    obtain rfl := letter _ format
    rfl
  | signed w =>
    obtain rfl := letter _ format
    have digits : printfDirective 100#8 (.register w :: rest) =
        (if w.slt 0#64 then (uartDecimal (-w)).map fun digits => minus :: digits
          else uartDecimal w).map fun text =>
          (text, rest) := by
      change (if w.slt 0#64 then (uartDecimal (-w)).map fun digits => (minus :: digits, rest)
        else (uartDecimal w).map fun digits => (digits, rest)) = _
      split
      · rw [Option.map_map]
        rfl
      · rfl
    refine digits.trans ?_
    rw [signed_print, Option.map_some]
  | unsigned w =>
    obtain rfl := letter _ format
    exact congrArg (Option.map fun digits => (digits, rest)) (uartDecimal_eq w)
  | hexadecimal w =>
    obtain rfl := letter _ format
    exact congrArg (fun text => some (text, rest)) (uartHex_eq w)
  | pointer w =>
    obtain rfl := letter _ format
    exact congrArg (fun text => some (text, rest)) (uartHex_eq w)
  | percentSign =>
    obtain rfl := letter _ format
    rfl
  | unknown d other =>
    obtain rfl := letter _ format
    simp only [directives, List.mem_cons, List.not_mem_nil, or_false, not_or] at other
    obtain ⟨notC, notS, notD, notU, notX, notP, notPercent⟩ := other
    simp only [printfDirective, notC, notS, notD, notU, notX, notP, notPercent, if_false, or_false]
    rfl

/-- The directives of a number or a character take a register. -/
theorem register_of_directive {c : BitVec 8} {args : List Argument}
    {printed : List (BitVec 8) × List Argument} (takes : c ∈ [99#8, 100#8, 117#8, 120#8, 112#8])
    (result : printfDirective c args = some printed) :
    ∃ w rest, args = .register w :: rest := by
  simp only [List.mem_cons, List.not_mem_nil, or_false] at takes
  obtain _ | ⟨w | text, rest⟩ := args
  · rcases takes with rfl | rfl | rfl | rfl | rfl <;> cases result
  · exact ⟨w, rest, rfl⟩
  · rcases takes with rfl | rfl | rfl | rfl | rfl <;> cases result

/-- A defined directive is that of a piece. -/
private theorem piece_of_printfDirective {c : BitVec 8} {args : List Argument}
    {printed : List (BitVec 8) × List Argument} (result : printfDirective c args = some printed) :
    ∃ piece : Piece, piece.format = [percent, c] ∧ args = piece.arguments ++ printed.2 ∧
      printed.1 = piece.print := by
  -- it suffices to find the piece and what it leaves, since the directive of a piece prints the
  -- piece
  suffices found : ∃ (piece : Piece) (rest : List Argument), piece.format = [percent, c] ∧
      args = piece.arguments ++ rest by
    obtain ⟨piece, rest, format, rfl⟩ := found
    obtain rfl := Option.some.inj ((printfDirective_of_piece format rest).symm.trans result)
    exact ⟨piece, format, rfl, rfl⟩
  by_cases known : c ∈ directives
  · simp only [directives, List.mem_cons, List.not_mem_nil, or_false] at known
    rcases known with rfl | rfl | rfl | rfl | rfl | rfl | rfl
    · obtain ⟨w, rest, rfl⟩ := register_of_directive (by decide) result
      exact ⟨.character w, rest, rfl, rfl⟩
    · obtain _ | ⟨w | text, rest⟩ := args
      · cases result
      · cases result
      · exact ⟨.string text, rest, rfl, rfl⟩
    · obtain ⟨w, rest, rfl⟩ := register_of_directive (by decide) result
      exact ⟨.signed w, rest, rfl, rfl⟩
    · obtain ⟨w, rest, rfl⟩ := register_of_directive (by decide) result
      exact ⟨.unsigned w, rest, rfl, rfl⟩
    · obtain ⟨w, rest, rfl⟩ := register_of_directive (by decide) result
      exact ⟨.hexadecimal w, rest, rfl, rfl⟩
    · obtain ⟨w, rest, rfl⟩ := register_of_directive (by decide) result
      exact ⟨.pointer w, rest, rfl, rfl⟩
    · exact ⟨.percentSign, args, rfl, rfl⟩
  · exact ⟨.unknown c known, args, rfl, rfl⟩

private theorem uartPrintf_pieces (pieces : List Piece) (rest : List Argument) :
    uartPrintf (pieces.flatMap Piece.format) (pieces.flatMap Piece.arguments ++ rest) =
      some (pieces.flatMap Piece.print) := by
  induction pieces with
  | nil => rfl
  | cons piece pieces ih =>
    rw [List.flatMap_cons, List.flatMap_cons, List.flatMap_cons, List.append_assoc]
    by_cases plain : ∃ c h, piece = .ordinary c h
    · obtain ⟨c, h, rfl⟩ := plain
      exact (uartPrintf_ordinary h _ _).trans (congrArg (Option.map (fun later => c :: later)) ih)
    · obtain ⟨c, format⟩ : ∃ c, piece.format = [percent, c] := by
        cases piece with
        | ordinary c h => exact absurd ⟨c, h, rfl⟩ plain
        | _ => exact ⟨_, rfl⟩
      have directive :
          printfDirective c (piece.arguments ++ (pieces.flatMap Piece.arguments ++ rest)) =
          some (piece.print, pieces.flatMap Piece.arguments ++ rest) :=
        printfDirective_of_piece format _
      rw [format]
      refine (uartPrintf_directive c _ _).trans ?_
      rw [directive, Option.bind_some]
      exact congrArg (Option.map fun later => piece.print ++ later) ih

/-- A call that is defined prints the pieces of its format. -/
private theorem pieces_of_uartPrintf {fmt out : List (BitVec 8)} {args : List Argument}
    (printed : uartPrintf fmt args = some out) :
    ∃ pieces : List Piece, ∃ rest, fmt = pieces.flatMap Piece.format ∧
      args = pieces.flatMap Piece.arguments ++ rest ∧
      out = pieces.flatMap Piece.print := by
  induction fmt, args using uartPrintf.induct generalizing out with
  | case1 args =>
    obtain rfl := Option.some.inj printed
    exact ⟨[], args, rfl, rfl, rfl⟩
  | case2 args =>
    rw [uartPrintf, if_pos rfl] at printed
    cases printed
  | case3 c args plain =>
    rw [uartPrintf, if_neg plain] at printed
    obtain rfl := Option.some.inj printed
    exact ⟨[.ordinary c plain], args, rfl, rfl, rfl⟩
  | case4 next rest args ih =>
    rw [uartPrintf_directive] at printed
    obtain ⟨first, directive, later⟩ := Option.bind_eq_some_iff.mp printed
    obtain ⟨tail, goes, rfl⟩ := Option.map_eq_some_iff.mp later
    obtain ⟨piece, format, args, same⟩ := piece_of_printfDirective directive
    obtain ⟨pieces, left, rfl, more, rfl⟩ := ih first goes
    refine ⟨piece :: pieces, left, ?_, ?_, ?_⟩
    · rw [List.flatMap_cons, format]
      rfl
    · rw [List.flatMap_cons, args, more, List.append_assoc]
    · rw [List.flatMap_cons, same]
  | case5 c next rest args plain ih =>
    rw [uartPrintf_ordinary plain] at printed
    obtain ⟨tail, goes, rfl⟩ := Option.map_eq_some_iff.mp printed
    obtain ⟨pieces, left, same, args, rfl⟩ := ih goes
    exact ⟨.ordinary c plain :: pieces, left, congrArg (c :: ·) same, args, rfl⟩

/-- `uart_printf` is defined exactly on the formats of pieces with their arguments, prints the
pieces, and what it prints of a number is read back as that number. -/
theorem uartPrintf_eq_some_iff (fmt out : List (BitVec 8)) (args : List Argument) :
    (uartPrintf fmt args = some out ↔ ∃ (pieces : List Piece) (rest : List Argument), fmt =
      pieces.flatMap Piece.format ∧
      args = pieces.flatMap Piece.arguments ++ rest ∧ out = pieces.flatMap Piece.print) ∧
    ∀ piece : Piece, piece.ReadBack := by
  refine ⟨⟨pieces_of_uartPrintf, ?_⟩, Piece.readBack⟩
  rintro ⟨pieces, rest, rfl, rfl, rfl⟩
  exact uartPrintf_pieces pieces rest

example : uartPrintf (literal "%s: %d%%\n") [.string (literal "load"), .register (-7)] =
    some (literal "load: -7%\n") := by
  decide +kernel

end OscKernel.Soundness.FormattedOutput
