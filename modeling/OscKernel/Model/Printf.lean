import OscKernel.Model.Printing

/-! # Formatted output

`uart_decimal` and `uart_printf` of uart.c, by the characters that they pass to `uart_putc` one
after the other. An argument is what `va_arg` finds: a register, or a string by its characters. A
string's characters are those before its terminator, and the negation of the least `long` wraps.
`none` stands for an access that C leaves undefined: an element behind `buf`, an argument that was
not passed, or the format behind its end.
-/

namespace OscKernel.Model

/-- The loop of `uart_decimal` over the digits, with room for so many in `buf`. They are printed
from the last one. -/
def decimalLoop (d : Word) (buf : List (BitVec 8)) : ℕ → Option (List (BitVec 8))
  | 0 => if d = 0#64 then some buf else none
  | room + 1 =>
    if d = 0#64 then some buf
    else decimalLoop (d / 10#64) ((48#64 + d % 10#64).truncate 8 :: buf) room

def uartDecimal (d : Word) : Option (List (BitVec 8)) :=
  if d = 0#64 then some [48#8] else decimalLoop d [] 20

inductive Argument where
  | register (w : Word)
  | string (text : List (BitVec 8))

def percent : BitVec 8 := 37#8
def minus : BitVec 8 := 45#8

/-- The `switch` of `uart_printf`, with the arguments that are left. -/
def printfDirective (c : BitVec 8) (args : List Argument) :
    Option (List (BitVec 8) × List Argument) :=
  if c = 99#8 then -- 'c'
    match args with
    | .register w :: rest => some ([w.truncate 8], rest)
    | _ => none
  else if c = 115#8 then -- 's'
    match args with
    | .string text :: rest => some (text, rest)
    | _ => none
  else if c = 100#8 then -- 'd'
    match args with
    | .register w :: rest =>
      if w.slt 0#64 then (uartDecimal (-w)).map fun digits => (minus :: digits, rest)
      else (uartDecimal w).map fun digits => (digits, rest)
    | _ => none
  else if c = 117#8 then -- 'u'
    match args with
    | .register w :: rest => (uartDecimal w).map fun digits => (digits, rest)
    | _ => none
  else if c = 120#8 ∨ c = 112#8 then -- 'x' and 'p'
    match args with
    | .register w :: rest => some (uartHex w, rest)
    | _ => none
  else if c = percent then some ([percent], args)
  else some ([percent, c], args)

/-- `uart_printf`. Behind a `%` at the end of the format, the loop goes past the terminator. -/
def uartPrintf : List (BitVec 8) → List Argument → Option (List (BitVec 8))
  | [], _ => some []
  | [c], _ => if c = percent then none else some [c]
  | c :: next :: rest, args =>
    if c = percent then
      (printfDirective next args).bind fun printed =>
        (uartPrintf rest printed.2).map fun later => printed.1 ++ later
    else (uartPrintf (next :: rest) args).map fun later => c :: later

end OscKernel.Model
