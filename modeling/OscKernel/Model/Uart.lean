import Mathlib.Data.List.Basic
import OscKernel.Lib.Circular

/-! # The serial port

The ring buffers of uart.c with what reads and writes them. A step is what runs with interrupts
disabled: one pass through the loop of `uart_putc` or `uart_getc`, or the interrupt handlers, which
the first one may leave in the middle of a message of its own.
-/

namespace OscKernel.Model

open OscKernel.Lib

/-- `struct ring_buffer`; an index is only ever written modulo `RING_BUFFER_SIZE`. -/
abbrev RingBuffer := Circular (BitVec 8) 4096

namespace RingBuffer

def isBufEmpty (rb : RingBuffer) : Bool := rb.head = rb.tail

def isBufFull (rb : RingBuffer) : Bool := rb.head + 1 = rb.tail

end RingBuffer

structure Uart where
  rxBuf : RingBuffer
  txBuf : RingBuffer
  ier : BitVec 8

def newline : BitVec 8 := 10#8
def carriageReturn : BitVec 8 := 13#8

/-- The bytes that `uart_putc` stores for a character, one in each pass that finds room. -/
def putcBytes (c : BitVec 8) : List (BitVec 8) := if c = newline then [carriageReturn, c] else [c]

/-- The bytes that `uart_puts` stores. -/
def putsBytes (text : List (BitVec 8)) : List (BitVec 8) := text.flatMap putcBytes

/-- The characters of a literal. -/
def literal (text : String) : List (BitVec 8) := text.toList.map fun c => BitVec.ofNat 8 c.toNat

namespace Uart

/-- A pass through the loop of `uart_putc`, which fails while the buffer is full. -/
def uartPutc (s : Uart) (c : BitVec 8) : Option Uart :=
  if RingBuffer.isBufFull s.txBuf then none
  else some { s with txBuf := s.txBuf.put c, ier := s.ier ||| 0x02#8 }

/-- A pass through the loop of `uart_getc`, which fails while the buffer is empty. -/
def uartGetc (s : Uart) : Option (BitVec 8 × Uart) :=
  if RingBuffer.isBufEmpty s.rxBuf then none
  else some (s.rxBuf.front, { s with rxBuf := s.rxBuf.drop })

/-- `handle_uart_tx`, when `LSR_TDRQ` is set as often as the number says, with the bytes written to
the THR. -/
def handleUartTx (s : Uart) : ℕ → List (BitVec 8) × Uart
  | 0 => ([], if RingBuffer.isBufEmpty s.txBuf then { s with ier := s.ier &&& ~~~0x02#8 } else s)
  | ready + 1 =>
    if RingBuffer.isBufEmpty s.txBuf then ([], { s with ier := s.ier &&& ~~~0x02#8 })
    else
      let (sent, t) := handleUartTx { s with txBuf := s.txBuf.drop } ready
      (s.txBuf.front :: sent, t)

/-- `handle_uart_rx`, for the bytes that the RBR holds, and whether it prints that one was
dropped. -/
def handleUartRx (s : Uart) : List (BitVec 8) → Uart × Bool
  | [] => (s, false)
  | c :: rest =>
    if RingBuffer.isBufFull s.rxBuf then (s, true)
    else handleUartRx { s with rxBuf := s.rxBuf.put c } rest

def initial (ier : BitVec 8) : Uart where
  rxBuf := ⟨fun _ => 0#8, 0, 0⟩
  txBuf := ⟨fun _ => 0#8, 0, 0⟩
  ier := ier

end Uart

def overflowMessage : List (BitVec 8) := literal "Kernel RX Buffer Overflow!\n"

/-! ## Interleavings -/

/-- The port and its callers. -/
structure Console (Thread : Type) where
  uart : Uart
  /-- The bytes that the `uart_putc` a thread is in has still to store. -/
  putting : Thread → List (BitVec 8)
  /-- Those that `handle_uart_rx` has still to store, with interrupts disabled. -/
  warning : List (BitVec 8)

inductive ConsoleEvent (Thread : Type) where
  /-- A thread calls `uart_putc`. -/
  | call (thread : Thread) (c : BitVec 8)
  /-- A pass through its loop. -/
  | putc (thread : Thread)
  /-- The same in `handle_uart_rx`. -/
  | warn
  | getc (thread : Thread)
  | tx (ready : ℕ)
  | rx (received : List (BitVec 8))

namespace Console

variable {Thread : Type} [DecidableEq Thread]

/-- A step; while `handle_uart_rx` prints, nothing else runs. -/
def step (s : Console Thread) : ConsoleEvent Thread → Option (Console Thread)
  | .call thread c =>
    if s.warning = [] ∧ s.putting thread = [] then
      some { s with putting := Function.update s.putting thread (putcBytes c) }
    else none
  | .putc thread =>
    match s.warning, s.putting thread with
    | [], c :: rest =>
      match s.uart.uartPutc c with
      | none => some s
      | some uart => some { s with uart := uart, putting := Function.update s.putting thread rest }
    | _, _ => none
  | .warn =>
    match s.warning with
    | c :: rest =>
      match s.uart.uartPutc c with
      | none => some s
      | some uart => some { s with uart := uart, warning := rest }
    | [] => none
  | .getc thread =>
    if s.warning = [] ∧ s.putting thread = [] then
      match s.uart.uartGetc with
      | none => some s
      | some (_, uart) => some { s with uart := uart }
    else none
  | .tx ready =>
    if s.warning = [] then some { s with uart := (s.uart.handleUartTx ready).2 } else none
  | .rx received =>
    if s.warning = [] then
      let (uart, overflow) := s.uart.handleUartRx received
      some { s with uart := uart, warning := if overflow then putsBytes overflowMessage else [] }
    else none

def initial (ier : BitVec 8) : Console Thread := ⟨.initial ier, fun _ => [], []⟩

end Console

end OscKernel.Model
