import OscKernel.Lib.System
import OscKernel.Model.Uart

/-! # The ring buffers of the serial port

Both buffers are queues, in every interleaving of their users: what was sent and what is still in
the transmit buffer are the bytes stored, in the order of storing, and likewise what was returned
and what is still in the receive buffer are the bytes received but for those that found the buffer
full. The bytes a caller stores are those of the characters it was called with.
-/

namespace OscKernel.Soundness.SerialPort

open OscKernel.Lib OscKernel.Model

variable {Thread : Type} [DecidableEq Thread]

/-! ## The port -/

section Port

variable {s t : Uart} {c : BitVec 8}

theorem room_of_not_full {rb : RingBuffer} (room : RingBuffer.isBufFull rb ≠ true) :
    rb.head + 1 ≠ rb.tail := fun full =>
  room (decide_eq_true full)

theorem nonempty_of_not_empty {rb : RingBuffer} (some : RingBuffer.isBufEmpty rb ≠ true) :
    rb.head ≠ rb.tail := fun same =>
  some (decide_eq_true same)

theorem isBufFull_of_none (waits : s.uartPutc c = none) : RingBuffer.isBufFull s.txBuf = true := by
  by_contra room
  simp only [Uart.uartPutc, if_neg room, reduceCtorEq] at waits

theorem not_full_of_some (stored : s.uartPutc c = some t) : RingBuffer.isBufFull s.txBuf ≠ true :=
  (Option.ite_none_left_eq_some.mp stored).1

/-- A byte is stored behind the others, unless all cells but one are in use. -/
private theorem uartPutc_spec (stored : s.uartPutc c = some t) :
    t.txBuf.contents = s.txBuf.contents ++ [c] ∧ t.rxBuf = s.rxBuf := by
  obtain ⟨room, same⟩ := Option.ite_none_left_eq_some.mp stored
  obtain rfl := Option.some.inj same
  exact ⟨Circular.contents_put (room_of_not_full room), rfl⟩

private theorem uartGetc_spec (read : s.uartGetc = some (c, t)) :
    s.rxBuf.contents = c :: t.rxBuf.contents ∧ t.txBuf = s.txBuf := by
  obtain ⟨nonempty, same⟩ := Option.ite_none_left_eq_some.mp read
  obtain ⟨rfl, rfl⟩ := Prod.mk.inj (Option.some.inj same)
  exact ⟨Circular.contents_drop (nonempty_of_not_empty nonempty), rfl⟩

/-- What is sent is taken from the front. -/
private theorem handleUartTx_spec (s : Uart) (ready : ℕ) :
    (s.handleUartTx ready).1 ++ (s.handleUartTx ready).2.txBuf.contents = s.txBuf.contents ∧
      (s.handleUartTx ready).2.rxBuf = s.rxBuf := by
  induction ready generalizing s with
  | zero =>
    simp only [Uart.handleUartTx]
    split
    · exact ⟨rfl, rfl⟩
    · exact ⟨rfl, rfl⟩
  | succ ready ih =>
    simp only [Uart.handleUartTx]
    split
    · exact ⟨rfl, rfl⟩
    · rename_i nonempty
      obtain ⟨later, kept⟩ := ih { s with txBuf := s.txBuf.drop }
      refine ⟨?_, kept⟩
      rw [Circular.contents_drop (nonempty_of_not_empty nonempty), List.cons_append, later]

/-- The received bytes for which there is room are stored behind the others. -/
theorem handleUartRx_spec (s : Uart) (received : List (BitVec 8)) :
    (s.handleUartRx received).1.rxBuf.contents = s.rxBuf.contents ++ received.take
    (4095 - s.rxBuf.count) ∧
      (s.handleUartRx received).1.txBuf = s.txBuf := by
  induction received generalizing s with
  | nil => exact ⟨(List.append_nil _).symm.trans (congrArg _ List.take_nil.symm), rfl⟩
  | cons c rest ih =>
    simp only [Uart.handleUartRx]
    split
    · rename_i full
      have count : s.rxBuf.count + 1 = 4096 := Circular.full_iff.mp (of_decide_eq_true full)
      have none : 4095 - s.rxBuf.count = 0 := by omega
      rw [none, List.take_zero, List.append_nil]
      exact ⟨rfl, rfl⟩
    · rename_i notFull
      have room := room_of_not_full notFull
      obtain ⟨later, kept⟩ := ih { s with rxBuf := s.rxBuf.put c }
      refine ⟨?_, kept⟩
      have counted : (s.rxBuf.put c).count = s.rxBuf.count + 1 := Circular.count_put room
      have bound : s.rxBuf.count + 1 < 4096 := counted ▸ (s.rxBuf.put c).count_lt
      have more : 4095 - s.rxBuf.count = (4095 - (s.rxBuf.count + 1)) + 1 := by omega
      rw [later, counted, Circular.contents_put room, more, List.take_succ_cons,
        List.append_assoc, List.singleton_append]

end Port

/-! ## Characters -/

theorem putsBytes_append (first second : List (BitVec 8)) :
    putsBytes (first ++ second) = putsBytes first ++ putsBytes second := List.flatMap_append

private theorem putsBytes_singleton {c : BitVec 8} : putsBytes [c] = putcBytes c :=
  List.flatMap_singleton putcBytes c

/-! ## Histories -/

/-- The console with what its callers and the line have seen; no thread stands for the interrupt
handler. -/
structure Tracked (Thread : Type) where
  console : Console Thread
  /-- The characters `uart_putc` was called with. -/
  called : List (Option Thread × BitVec 8)
  stored : List (Option Thread × BitVec 8)
  /-- The bytes written to `UART_THR`. -/
  sent : List (BitVec 8)
  /-- The received bytes but for those that found the buffer full. -/
  accepted : List (BitVec 8)
  returned : List (BitVec 8)

namespace Tracked

def step (s : Tracked Thread) (e : ConsoleEvent Thread) : Option (Tracked Thread) :=
  (s.console.step e).map fun t =>
    match e with
    | .call thread c => { s with console := t, called := s.called ++ [(some thread, c)] }
    | .putc thread => { s with
        console := t
        stored := s.stored ++
          if RingBuffer.isBufFull s.console.uart.txBuf then []
          else (s.console.putting thread).head?.toList.map fun c => (some thread, c) }
    | .warn => { s with
        console := t
        stored := s.stored ++
          if RingBuffer.isBufFull s.console.uart.txBuf then []
          else s.console.warning.head?.toList.map fun c => (none, c) }
    | .getc _ => { s with
        console := t
        returned := s.returned ++ s.console.uart.uartGetc.toList.map Prod.fst }
    | .tx ready => { s with console := t, sent := s.sent ++ (s.console.uart.handleUartTx ready).1 }
    | .rx received => { s with
        console := t
        called := s.called ++
          if (s.console.uart.handleUartRx received).2 then overflowMessage.map fun c => (none, c)
          else []
        accepted := s.accepted ++ received.take (4095 - s.console.uart.rxBuf.count) }

/-- The bytes that a caller has still to store. -/
def putting (s : Tracked Thread) : Option Thread → List (BitVec 8)
  | none => s.console.warning
  | some thread => s.console.putting thread

end Tracked

def initial (ier : BitVec 8) : Tracked Thread := ⟨.initial ier, [], [], [], [], []⟩

def transitions : System (Tracked Thread) (ConsoleEvent Thread) := .ofStep Tracked.step

/-- What one caller contributed. -/
def ofCaller (caller : Option Thread) (history : List (Option Thread × BitVec 8)) :
    List (BitVec 8) :=
  (history.filter (·.1 = caller)).map Prod.snd

structure Kept (s : Tracked Thread) : Prop where
  transmitted : s.sent ++ s.console.uart.txBuf.contents = s.stored.map Prod.snd
  pending : s.console.uart.txBuf.contents.length ≤ 4095
  received : s.returned ++ s.console.uart.rxBuf.contents = s.accepted
  /-- Each caller stores the bytes of its characters, a newline after a carriage return. -/
  expanded : ∀ caller, ofCaller caller s.stored ++ s.putting caller =
    putsBytes (ofCaller caller s.called)

/-! ## Steps -/

section OfCaller

variable {caller other : Option Thread} {first second : List (Option Thread × BitVec 8)}
  {c : BitVec 8}

@[simp] theorem ofCaller_append :
    ofCaller caller (first ++ second) = ofCaller caller first ++ ofCaller caller second := by
  simp only [ofCaller, List.filter_append, List.map_append]

@[simp] theorem ofCaller_nil : ofCaller caller [] = [] := rfl

@[simp] theorem ofCaller_self {text : List (BitVec 8)} :
    ofCaller caller (text.map fun c => (caller, c)) = text := by
  induction text with
  | nil => rfl
  | cons c rest ih => simpa [ofCaller] using ih

@[simp] theorem ofCaller_other {text : List (BitVec 8)} (different : caller ≠ other) :
    ofCaller other (text.map fun c => (caller, c)) = [] := by
  induction text with
  | nil => rfl
  | cons c rest ih => simp [ofCaller, different]

end OfCaller

section Steps

variable {s t : Tracked Thread}

/-- A caller finds room for its next byte. -/
theorem Kept.store (kept : Kept s) {caller : Option Thread} {c : BitVec 8} {rest : List (BitVec 8)}
    {console : Console Thread} (next : s.putting caller = c :: rest)
    (stored : s.console.uart.uartPutc c = some console.uart)
    (moved : ∀ other, Tracked.putting { s with console := console } other =
      Function.update s.putting caller rest other) :
    Kept { s with console := console, stored := s.stored ++ [(caller, c)] } := by
  obtain ⟨contents, same⟩ := uartPutc_spec stored
  refine ⟨?_, ?_, ?_, fun other => ?_⟩
  · change s.sent ++ console.uart.txBuf.contents = (s.stored ++ [(caller, c)]).map Prod.snd
    rw [contents, ← List.append_assoc, kept.transmitted, List.map_append, List.map_singleton]
  · rw [Circular.length_contents]
    exact Nat.le_of_lt_succ console.uart.txBuf.count_lt
  · change s.returned ++ console.uart.rxBuf.contents = s.accepted
    rw [same]
    exact kept.received
  · have before := kept.expanded other
    change ofCaller other (s.stored ++ [(caller, c)]) ++
      Tracked.putting { s with console := console } other =
      putsBytes (ofCaller other s.called)
    have single : [(caller, c)] = [c].map fun c => (caller, c) := rfl
    rw [moved, ofCaller_append, single]
    rcases eq_or_ne other caller with rfl | different
    · rw [next] at before
      rw [ofCaller_self, Function.update_self, List.append_assoc, List.singleton_append]
      exact before
    · rw [ofCaller_other different.symm, Function.update_of_ne different, List.append_nil]
      exact before

theorem Kept.step (kept : Kept s) {e : ConsoleEvent Thread}
    (stepped : s.step e = some t) : Kept t := by
  obtain ⟨console, ran, rfl⟩ := Option.map_eq_some_iff.mp stepped
  cases e with
  | call thread c =>
    obtain ⟨⟨quiet, ready⟩, same⟩ := Option.ite_none_right_eq_some.mp ran
    obtain rfl := Option.some.inj same
    refine ⟨kept.transmitted, kept.pending, kept.received, fun caller => ?_⟩
    have before := kept.expanded caller
    have single : [(some thread, c)] = [c].map fun c => (some thread, c) := rfl
    simp only [single, ofCaller_append]
    cases caller with
    | none =>
      have apart : some thread ≠ (none : Option Thread) := Option.some_ne_none thread
      rw [ofCaller_other apart, List.append_nil]
      exact before
    | some other =>
      rcases eq_or_ne other thread with rfl | different
      · have nothing : s.putting (some other) = [] := ready
        rw [nothing, List.append_nil] at before
        simp only [Tracked.putting, Function.update_self, ofCaller_self, putsBytes_append, before]
        exact congrArg _ putsBytes_singleton.symm
      · have apart : (some thread : Option Thread) ≠ some other :=
          fun same => different (Option.some.inj same).symm
        simp only [Tracked.putting, Function.update_of_ne different,
          ofCaller_other apart, List.append_nil]
        exact before
  | putc thread =>
    cases quiet : s.console.warning with
    | cons c rest =>
      simp only [Console.step, quiet] at ran
      cases ran
    | nil =>
      cases next : s.console.putting thread with
      | nil =>
        simp only [Console.step, quiet, next] at ran
        cases ran
      | cons c rest =>
        simp only [Console.step, quiet, next] at ran
        cases stored : s.console.uart.uartPutc c with
        | none =>
          simp only [stored] at ran
          obtain rfl := Option.some.inj ran
          have full := isBufFull_of_none stored
          simp only [if_pos full, List.append_nil]
          exact kept
        | some uart =>
          simp only [stored] at ran
          obtain rfl := Option.some.inj ran
          have room := not_full_of_some stored
          simp only [if_neg room, next]
          have first : s.putting (some thread) = c :: rest := next
          apply kept.store first stored
          intro other
          cases other with
          | none =>
            rw [Function.update_of_ne (Option.some_ne_none thread).symm]
            exact quiet.symm
          | some other =>
            rcases eq_or_ne other thread with rfl | different
            · simp only [Tracked.putting, Function.update_self]
            · have apart : some other ≠ some thread := fun same => different (Option.some.inj same)
              simp only [Tracked.putting, Function.update_of_ne different,
                Function.update_of_ne apart]
  | warn =>
    cases next : s.console.warning with
    | nil =>
      simp only [Console.step, next] at ran
      cases ran
    | cons c rest =>
      simp only [Console.step, next] at ran
      cases stored : s.console.uart.uartPutc c with
      | none =>
        simp only [stored] at ran
        obtain rfl := Option.some.inj ran
        have full := isBufFull_of_none stored
        simp only [if_pos full, List.append_nil]
        exact kept
      | some uart =>
        simp only [stored] at ran
        obtain rfl := Option.some.inj ran
        have room := not_full_of_some stored
        simp only [if_neg room]
        have first : s.putting none = c :: rest := next
        apply kept.store first stored
        intro other
        cases other with
        | none =>
          rw [Function.update_self]
          rfl
        | some other =>
          rw [Function.update_of_ne (Option.some_ne_none other)]
          rfl
  | getc thread =>
    obtain ⟨⟨quiet, ready⟩, read⟩ := Option.ite_none_right_eq_some.mp ran
    cases got : s.console.uart.uartGetc with
    | none =>
      simp only [got] at read
      obtain rfl := Option.some.inj read
      simp only [Option.toList_none, List.map_nil, List.append_nil]
      exact kept
    | some result =>
      obtain ⟨c, uart⟩ := result
      simp only [got] at read
      obtain rfl := Option.some.inj read
      obtain ⟨contents, same⟩ := uartGetc_spec got
      refine ⟨?_, ?_, ?_, fun caller => kept.expanded caller⟩
      · change s.sent ++ uart.txBuf.contents = s.stored.map Prod.snd
        rw [same]
        exact kept.transmitted
      · change uart.txBuf.contents.length ≤ 4095
        rw [same]
        exact kept.pending
      · change s.returned ++ [c] ++ uart.rxBuf.contents = s.accepted
        rw [List.append_assoc, List.singleton_append, ← contents]
        exact kept.received
  | tx ready =>
    obtain ⟨quiet, same⟩ := Option.ite_none_right_eq_some.mp ran
    obtain rfl := Option.some.inj same
    obtain ⟨contents, untouched⟩ := handleUartTx_spec s.console.uart ready
    refine ⟨?_, ?_, ?_, fun caller => kept.expanded caller⟩
    · change s.sent ++ (s.console.uart.handleUartTx ready).1 ++
        (s.console.uart.handleUartTx ready).2.txBuf.contents = _
      rw [List.append_assoc, contents]
      exact kept.transmitted
    · rw [Circular.length_contents]
      exact Nat.le_of_lt_succ (Circular.count_lt _)
    · change s.returned ++ (s.console.uart.handleUartTx ready).2.rxBuf.contents = s.accepted
      rw [untouched]
      exact kept.received
  | rx received =>
    obtain ⟨quiet, same⟩ := Option.ite_none_right_eq_some.mp ran
    obtain rfl := Option.some.inj same
    obtain ⟨contents, untouched⟩ := handleUartRx_spec s.console.uart received
    refine ⟨?_, ?_, ?_, fun caller => ?_⟩
    · change s.sent ++ (s.console.uart.handleUartRx received).1.txBuf.contents =
        s.stored.map Prod.snd
      rw [untouched]
      exact kept.transmitted
    · change (s.console.uart.handleUartRx received).1.txBuf.contents.length ≤ 4095
      rw [untouched]
      exact kept.pending
    · change s.returned ++ (s.console.uart.handleUartRx received).1.rxBuf.contents = _
      rw [contents, ← List.append_assoc, kept.received]
    · have before := kept.expanded caller
      cases caller with
      | none =>
        have nothing : s.putting none = [] := quiet
        rw [nothing, List.append_nil] at before
        simp only [Tracked.putting, ofCaller_append]
        split
        · rw [ofCaller_self, putsBytes_append, before]
        · rw [ofCaller_nil, List.append_nil, List.append_nil]
          exact before
      | some thread =>
        simp only [Tracked.putting, ofCaller_append]
        have apart : (none : Option Thread) ≠ some thread := (Option.some_ne_none thread).symm
        split
        · rw [ofCaller_other apart, List.append_nil]
          exact before
        · rw [ofCaller_nil, List.append_nil]
          exact before

end Steps

/-! ## Runs -/

private theorem kept_initial (ier : BitVec 8) : Kept (initial ier : Tracked Thread) where
  transmitted := rfl
  pending := Nat.zero_le _
  received := rfl
  expanded := fun caller => by cases caller <;> rfl

/-- In every interleaving, both buffers are queues that lose nothing. -/
theorem buffers_lossless {ier : BitVec 8} {events : List (ConsoleEvent Thread)} {t : Tracked Thread}
    (run : System.Path transitions (initial ier) events t) : Kept t :=
  run.invariant (fun kept step => kept.step step) (kept_initial ier)

/-- Two threads print, the first a newline, while a byte arrives and one is sent. -/
def twoThreads : List (ConsoleEvent Bool) :=
  [.call true newline, .putc true, .call false 65#8, .putc false, .rx [66#8], .tx 1,
    .putc true, .getc false, .tx 2]

theorem buffers_lossless_twoThreads :
    ∃ t : Tracked Bool, System.Path transitions (initial 1#8) twoThreads t ∧ Kept t := by
  have run : ∃ t : Tracked Bool, System.Path transitions (initial 1#8) twoThreads t :=
    ⟨_, .cons rfl (.cons rfl
      (.cons rfl (.cons rfl (.cons rfl (.cons rfl (.cons rfl (.cons rfl (.cons rfl (.nil _)))))))))⟩
  obtain ⟨t, run⟩ := run
  exact ⟨t, run, buffers_lossless run⟩

end OscKernel.Soundness.SerialPort
