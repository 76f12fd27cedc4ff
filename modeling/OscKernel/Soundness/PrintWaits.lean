import OscKernel.Lib.System
import OscKernel.Model.Printing
import OscKernel.Soundness.SerialPort

/-! # Waiting for room with interrupts disabled

Only the transmit interrupt makes room in the buffer, so `uart_putc` must not wait when interrupts
were disabled at its call. The contexts of a thread determine the interrupt-enable bit: it is set in
system calls, threads, callbacks and the report of an exception, and it is not set in
`page_fault_handler`, `handle_uart_rx` and `schedule`, whose messages therefore need room for all of
their bytes.
-/

namespace OscKernel.Soundness.PrintWaits

open OscKernel.Lib OscKernel.Model OscKernel.Soundness.SerialPort

def transitions : System Hart Hart.Event := .ofStep Hart.step

/-- Execution is in the wait loop of a `uart_putc` that was entered with `SIE` clear. -/
def WaitsDisabled (s : Hart) : Prop := ∃ bytes rest, s.contexts = .print (some false) bytes :: rest

/-- The room of the transmit buffer. -/
def room (s : Hart) : ℕ := 4095 - s.uart.txBuf.count

/-- A page fault's messages have room, so has the warning if bytes are dropped, and so has what
`schedule` prints if `tp` is null. -/
def Safe (s : Hart) : Hart.Event → Prop
  | .pageFaultHandler path faultAddr => (putsBytes (path.message faultAddr)).length ≤ room s
  | .rx received =>
    received.length ≤ 4095 - s.uart.rxBuf.count ∨ (putsBytes overflowMessage).length ≤ room s
  | .schedulePanics => (putsBytes panicMessage).length ≤ room s
  | _ => True

/-! ## The interrupt-enable bit -/

/-- `SIE` in a thread with these contexts, where they determine it. -/
def expected : List CallContext → Option Bool
  | .thread :: _ => some true
  | .startKernel :: _ => some false
  | .trap _ pc :: _ => some pc.enabled
  | .critical _ :: _ | .nullSchedule _ :: _ => some false
  | .print _ _ :: rest => expected rest
  | _ => none

/-- The bit is the one that the contexts determine. -/
def Agrees (sie : Bool) (contexts : List CallContext) : Prop :=
  ∀ on, expected contexts = some on → sie = on

/-- Contexts in which everything that prints was called with interrupts enabled. -/
inductive Formed : List CallContext → Prop
  | user : Formed [.user]
  | retFromException : Formed [.retFromException]
  | startKernel : Formed [.startKernel]
  | thread : Formed [.thread]
  | exited : Formed [.exited]
  | trap {frame : TrapFrame} {pc : TrapPc} {rest : List CallContext} :
      Formed rest → Agrees frame.spie rest → Formed (.trap frame pc :: rest)
  | critical {s : Bool} {rest : List CallContext} :
      Formed rest → expected rest = some s → Formed (.critical s :: rest)
  | nullSchedule {s : Bool} {rest : List CallContext} :
      Formed rest → Agrees s rest → Formed (.nullSchedule s :: rest)
  | print {waits : Option Bool} {bytes : List (BitVec 8)} {rest : List CallContext} :
      Formed rest → expected rest = some true → waits ≠ some false →
      Formed (.print waits bytes :: rest)

/-- A message that is printed with interrupts disabled, and has room. -/
def Fits (s : Hart) : Prop :=
  ∃ bytes rest, s.contexts = .print none bytes :: rest ∧ Formed rest ∧
    expected rest = some false ∧ bytes.length ≤ room s

structure Sound (s : Hart) : Prop where
  contexts : Formed s.contexts ∨ Fits s
  sie : Agrees s.sie s.contexts
  saved : ∀ task found, s.saved task = some found → Formed found ∧ Agrees (s.threadSie task) found

theorem Sound.never_waits {s : Hart} (sound : Sound s) : ¬ WaitsDisabled s := by
  rintro ⟨bytes, rest, here⟩
  rcases sound.contexts with formed | ⟨bytes', rest', printing, -⟩
  · rw [here] at formed
    cases formed with
    | print _ _ different => exact different rfl
  · cases here.symm.trans printing

/-! ## Texts -/

private theorem length_uartHex (h : Word) : (uartHex h).length = 18 := by
  rw [uartHex, List.length_append, List.length_map, List.length_range]
  rfl

theorem length_putsBytes_le (text : List (BitVec 8)) :
    (putsBytes text).length ≤ 2 * text.length := by
  induction text with
  | nil => exact Nat.le_refl 0
  | cons c rest ih =>
    have here : (putcBytes c).length ≤ 2 := by
      rw [putcBytes]
      split
      · exact Nat.le_refl 2
      · exact Nat.le_succ 1
    have whole : putsBytes (c :: rest) = putcBytes c ++ putsBytes rest := List.flatMap_cons
    rw [whole, List.length_append, List.length_cons]
    omega

/-- The messages of `start_kernel` have room in the empty buffer. -/
theorem length_bootMessage (start stop : Word) :
    (putsBytes (bootMessage start stop)).length ≤ 100 := by
  have bytes := length_putsBytes_le (bootMessage start stop)
  have first : (literal "start: ").length = 7 := rfl
  have second : (literal "\nend: ").length = 6 := rfl
  have third : (literal "\n").length = 1 := rfl
  have characters : (bootMessage start stop).length = 50 := by
    simp only [bootMessage, List.length_append, length_uartHex, first, second, third]
  omega

/-! ## Steps -/

section Steps

variable {s t : Hart}

theorem Agrees.of_expected {sie on : Bool} {contexts : List CallContext}
    (here : expected contexts = some on) (same : sie = on) :
    Agrees sie contexts := by
  intro other found
  obtain rfl := Option.some.inj (here.symm.trans found)
  exact same

theorem Agrees.expected_eq {sie : Bool} {contexts : List CallContext} (agrees : Agrees sie contexts)
    (on : Bool) (here : expected contexts = some on) : expected contexts = some sie :=
  here.trans (congrArg some (agrees on here).symm)

theorem agrees_of_none {sie : Bool} {contexts : List CallContext}
    (free : expected contexts = none) : Agrees sie contexts := by
  intro on found
  cases free.symm.trans found

/-- Where nothing is printed, everything that prints below was called with interrupts enabled. -/
theorem Sound.formed (sound : Sound s)
    (other : ∀ bytes rest, s.contexts ≠ .print none bytes :: rest) : Formed s.contexts := by
  rcases sound.contexts with formed | ⟨bytes, rest, printing, -⟩
  · exact formed
  · exact absurd printing (other bytes rest)

/-- A step that leaves the other threads alone. -/
theorem Sound.running (sound : Sound s) {sie tpNull : Bool} {contexts : List CallContext}
    {uart : Uart} (formed : Formed contexts) (agrees : Agrees sie contexts) :
    Sound { s with sie := sie, contexts := contexts, tpNull := tpNull, uart := uart } :=
  ⟨.inl formed, agrees, sound.saved⟩

/-- `disable_and_save_sstatus` in contexts that determine the bit. -/
theorem Sound.disable (sound : Sound s) (formed : Formed s.contexts) {on : Bool}
    (here : expected s.contexts = some on) :
    Sound { s with sie := false, contexts := .critical s.sie :: s.contexts } :=
  sound.running (.critical formed (sound.sie.expected_eq on here)) (.of_expected rfl rfl)

/-- `restore_sstatus` at the end of a section with interrupts disabled, which `inside` takes off. -/
theorem Sound.restore (sound : Sound s) {top : CallContext} {rest : List CallContext} {saved : Bool}
    (here : s.contexts = top :: rest) (masked : expected (top :: rest) = some false)
    (notPrint : ∀ bytes, top ≠ .print none bytes)
    (inside : Formed (top :: rest) → Formed rest ∧ Agrees saved rest) :
    Sound { s with sie := s.sie || saved, contexts := rest } := by
  have off : s.sie = false := sound.sie false (here ▸ masked)
  have formed : Formed s.contexts := sound.formed fun bytes rest' printing =>
    notPrint bytes (List.cons.inj (here.symm.trans printing)).1
  rw [here] at formed
  obtain ⟨formed, agrees⟩ := inside formed
  rw [off, Bool.false_or]
  exact sound.running formed agrees

theorem Sound.putc (sound : Sound s) {waits : Option Bool} {c : BitVec 8} {bytes : List (BitVec 8)}
    {rest : List CallContext} (here : s.contexts = .print waits (c :: bytes) :: rest)
    (stepped : s.step .putc = some t) : Sound t := by
  simp only [Hart.step, here] at stepped
  have sie := sound.sie
  rw [here] at sie
  rcases sound.contexts with formed | ⟨bytes', rest', printing, formed, disabled, fits⟩
  · rw [here] at formed
    cases formed with
    | print formed enabled different =>
      have on : s.sie = true := sie true enabled
      have kept : waits.getD s.sie = true := by
        cases waits with
        | none => exact on
        | some b => exact Bool.eq_true_of_not_eq_false fun off => different (congrArg some off)
      rw [kept] at stepped
      cases stored : s.uart.uartPutc c with
      | none =>
        simp only [stored] at stepped
        obtain rfl := Option.some.inj stepped
        exact ⟨.inl (.print formed enabled nofun), .of_expected enabled rfl, sound.saved⟩
      | some uart =>
        simp only [stored] at stepped
        obtain rfl := Option.some.inj stepped
        exact ⟨.inl (.print formed enabled nofun), .of_expected enabled rfl, sound.saved⟩
  · obtain ⟨same, rfl⟩ := List.cons.inj (here.symm.trans printing)
    obtain ⟨rfl, rfl⟩ := CallContext.print.inj same
    have off : s.sie = false := sie false disabled
    have notFull : RingBuffer.isBufFull s.uart.txBuf ≠ true := by
      intro full
      have count : s.uart.txBuf.count + 1 = 4096 := Circular.full_iff.mp (of_decide_eq_true full)
      rw [room, List.length_cons] at fits
      omega
    have stored : s.uart.uartPutc c =
        some { s.uart with txBuf := s.uart.txBuf.put c, ier := s.uart.ier ||| 0x02#8 } :=
        if_neg notFull
    have counted : (s.uart.txBuf.put c).count = s.uart.txBuf.count + 1 :=
      Circular.count_put (room_of_not_full notFull)
    simp only [stored, Option.getD_none] at stepped
    obtain rfl := Option.some.inj stepped
    refine ⟨.inr ⟨bytes, rest, rfl, formed, disabled, ?_⟩, .of_expected disabled off, sound.saved⟩
    rw [room, List.length_cons] at fits
    change bytes.length ≤ 4095 - (s.uart.txBuf.put c).count
    omega

private theorem trap_spec {cause : Cause} (trapped : s.trap cause = some t) :
    t = { s with sie := false, contexts := .trap ⟨s.sie, s.tpNull⟩ (.doTrap cause) :: s.contexts } ∧
      (s.sie = true ∨ ∀ bytes rest, s.contexts ≠ .print none bytes :: rest) := by
  simp only [Hart.trap] at trapped
  split at trapped
  · rename_i here
    refine ⟨(Option.some.inj trapped).symm, .inr fun bytes rest printing => ?_⟩
    cases here.symm.trans printing
  · obtain ⟨on, same⟩ := Option.ite_none_right_eq_some.mp trapped
    exact ⟨(Option.some.inj same).symm, .inl on⟩
  · obtain ⟨on, same⟩ := Option.ite_none_right_eq_some.mp trapped
    exact ⟨(Option.some.inj same).symm, .inl on⟩
  · rename_i here
    refine ⟨(Option.some.inj trapped).symm, .inr fun bytes rest printing => ?_⟩
    cases here.symm.trans printing
  · rename_i here
    refine ⟨(Option.some.inj trapped).symm, .inr fun bytes rest printing => ?_⟩
    cases here.symm.trans printing
  · rename_i here
    refine ⟨(Option.some.inj trapped).symm, .inr fun bytes rest printing => ?_⟩
    cases here.symm.trans printing
  · cases trapped

theorem Sound.trap (sound : Sound s) {cause : Cause} (trapped : s.trap cause = some t) :
    Sound t := by
  obtain ⟨rfl, enabled⟩ := trap_spec trapped
  have formed : Formed s.contexts := by
    rcases enabled with on | other
    · rcases sound.contexts with formed | ⟨bytes, rest, printing, -, disabled, -⟩
      · exact formed
      · have off : s.sie = false := sound.sie false (by rw [printing]; exact disabled)
        exact absurd (on.symm.trans off) Bool.false_ne_true.symm
    · exact sound.formed other
  exact sound.running (.trap formed sound.sie) (.of_expected rfl rfl)

/-- The contexts of a trap, and those it interrupted. -/
theorem Sound.trapped (sound : Sound s) {frame : TrapFrame} {pc : TrapPc} {rest : List CallContext}
    (here : s.contexts = .trap frame pc :: rest) : Formed rest ∧
    Agrees frame.spie rest ∧ s.sie = pc.enabled := by
  have formed : Formed s.contexts :=
    sound.formed fun bytes rest printing => by cases here.symm.trans printing
  have sie := sound.sie
  rw [here] at formed sie
  cases formed with
  | trap formed agrees => exact ⟨formed, agrees, sie pc.enabled rfl⟩

/-- A step of `do_trap` to another position. -/
theorem Sound.moves (sound : Sound s) {frame : TrapFrame} {sie : Bool} {pc pc' : TrapPc}
    {rest : List CallContext} (here : s.contexts = .trap frame pc :: rest)
    (enabled : sie = pc'.enabled) :
    Sound { s with sie := sie, contexts := .trap frame pc' :: rest } := by
  obtain ⟨formed, agrees, -⟩ := sound.trapped here
  exact sound.running (.trap formed agrees) (.of_expected rfl enabled)

theorem Sound.advance (sound : Sound s) (advanced : s.advance = some t) : Sound t := by
  simp only [Hart.advance] at advanced
  split at advanced
  · obtain rfl := Option.some.inj advanced
    exact sound.running .user (agrees_of_none rfl)
  · rename_i frame pc rest here
    have disabled := (sound.trapped here).2.2
    split at advanced
    · obtain rfl := Option.some.inj advanced
      exact sound.moves here disabled
    · obtain rfl := Option.some.inj advanced
      exact sound.moves here rfl
    · obtain rfl := Option.some.inj advanced
      exact sound.moves here rfl
    · obtain rfl := Option.some.inj advanced
      exact sound.moves here disabled
    · obtain rfl := Option.some.inj advanced
      exact sound.moves here rfl
    · obtain rfl := Option.some.inj advanced
      exact sound.moves here rfl
    · obtain rfl := Option.some.inj advanced
      exact sound.moves here disabled
    · obtain rfl := Option.some.inj advanced
      obtain ⟨formed, agrees, -⟩ := sound.trapped here
      exact sound.running formed agrees
    · cases advanced
  · cases advanced

/-- What `schedule` saves can be switched to. -/
theorem scheduleReturns_formed {contexts returns : List CallContext} {sie : Bool}
    (formed : Formed contexts) (agrees : Agrees sie contexts)
    (calls : Hart.scheduleReturns contexts = some returns) :
    Formed returns ∧ expected returns = some sie := by
  simp only [Hart.scheduleReturns] at calls
  split at calls
  · obtain rfl := Option.some.inj calls
    exact ⟨formed, congrArg some (agrees true rfl).symm⟩
  · obtain rfl := Option.some.inj calls
    exact ⟨formed, congrArg some (agrees true rfl).symm⟩
  · obtain rfl := Option.some.inj calls
    exact ⟨formed, congrArg some (agrees true rfl).symm⟩
  · obtain rfl := Option.some.inj calls
    cases formed with
    | trap formed agreed => exact ⟨.trap formed agreed, congrArg some (agrees false rfl).symm⟩
  · cases calls

theorem Sound.switchTo (sound : Sound s) {prev : Option (List CallContext)} {next : ℕ}
    {found : List CallContext} (different : next ≠ s.current) (waiting : s.saved next = some found)
    (saves : ∀ contexts, prev = some contexts → Formed contexts ∧ Agrees false contexts) :
    Sound (s.switchTo prev next found) := by
  obtain ⟨formed, agrees⟩ := sound.saved next found waiting
  refine ⟨.inl formed, ?_, fun task contexts kept => ?_⟩
  · simp only [Hart.switchTo, Function.update_of_ne different]
    exact agrees
  · simp only [Hart.switchTo] at kept ⊢
    rcases eq_or_ne task s.current with rfl | elsewhere
    · rw [Function.update_self] at kept ⊢
      exact saves contexts kept
    · rw [Function.update_of_ne elsewhere] at kept ⊢
      exact sound.saved task contexts kept

theorem Sound.schedule (sound : Sound s) {next : ℕ} (switched : s.schedule next = some t) :
    Sound t := by
  obtain ⟨-, switched⟩ := Option.ite_none_left_eq_some.mp switched
  split at switched
  · obtain ⟨different, same⟩ := Option.ite_none_left_eq_some.mp switched
    obtain ⟨found, waiting, rfl⟩ := Option.map_eq_some_iff.mp same
    exact sound.switchTo different waiting nofun
  · obtain ⟨returns, calls, switched⟩ := Option.bind_eq_some_iff.mp switched
    have formed : Formed s.contexts := sound.formed fun bytes rest printing => by
      rw [printing] at calls
      cases calls
    obtain ⟨formed, same⟩ := scheduleReturns_formed formed sound.sie calls
    split at switched
    · obtain rfl := Option.some.inj switched
      exact sound.running formed (.of_expected same rfl)
    · rename_i different
      obtain ⟨found, waiting, rfl⟩ := Option.map_eq_some_iff.mp switched
      refine sound.switchTo different waiting fun contexts saved => ?_
      obtain rfl := Option.some.inj saved
      exact ⟨.critical formed same, .of_expected rfl rfl⟩

/-- Where `tp` is null, the message follows, and `schedule` returns to contexts that are found as
they were. -/
theorem schedulePanics_spec (sound : Sound s) (panics : s.schedulePanics = some t) :
    ∃ contexts, Formed contexts ∧ Agrees s.sie contexts ∧ t = { s with
      sie := false
      contexts := .print none (putsBytes panicMessage) :: .nullSchedule s.sie :: contexts } := by
  obtain ⟨-, panics⟩ := Option.ite_none_right_eq_some.mp panics
  split at panics
  · exact ⟨[.exited], .exited, agrees_of_none rfl, (Option.some.inj panics).symm⟩
  · obtain ⟨returns, calls, entered⟩ := Option.map_eq_some_iff.mp panics
    have formed : Formed s.contexts := sound.formed fun bytes rest printing => by
      rw [printing] at calls
      cases calls
    obtain ⟨formed, same⟩ := scheduleReturns_formed formed sound.sie calls
    exact ⟨returns, formed, .of_expected same rfl, entered.symm⟩

/-- The task that ran leaves nothing behind, and the next one finds what it saved. -/
theorem Sound.switchFromNull (sound : Sound s) {next : ℕ}
    (switched : s.switchFromNull next = some t) : Sound t := by
  simp only [Hart.switchFromNull] at switched
  split at switched
  · obtain ⟨found, waiting, rfl⟩ := Option.map_eq_some_iff.mp switched
    obtain ⟨formed, agrees⟩ := sound.saved next found waiting
    exact ⟨.inl formed, agrees, sound.saved⟩
  · cases switched

theorem Sound.enqueue (sound : Sound s) {task : ℕ} {context : CallContext} {sie : Bool}
    (formed : Formed [context]) (agrees : Agrees sie [context])
    (queued : s.enqueue task context sie = some t) : Sound t := by
  obtain ⟨fresh, same⟩ := Option.ite_none_left_eq_some.mp queued
  obtain rfl := Option.some.inj same
  refine ⟨sound.contexts, sound.sie, fun other found kept => ?_⟩
  change Function.update s.saved task (some [context]) other = some found at kept
  change Formed found ∧ Agrees (Function.update s.threadSie task sie other) found
  rcases eq_or_ne other task with rfl | different
  · rw [Function.update_self] at kept
    obtain rfl := Option.some.inj kept
    rw [Function.update_self]
    exact ⟨formed, agrees⟩
  · rw [Function.update_of_ne different] at kept ⊢
    exact sound.saved other found kept

/-- A byte is dropped exactly if there are more than the receive buffer has room for. -/
theorem handleUartRx_warns (s : Uart) (received : List (BitVec 8)) :
    (s.handleUartRx received).2 = true ↔ 4095 - s.rxBuf.count < received.length := by
  induction received generalizing s with
  | nil => exact ⟨fun warns => absurd warns Bool.false_ne_true,
      fun less => absurd less (Nat.not_lt_zero _)⟩
  | cons c rest ih =>
    simp only [Uart.handleUartRx, List.length_cons]
    split
    · rename_i full
      have count : s.rxBuf.count + 1 = 4096 := Circular.full_iff.mp (of_decide_eq_true full)
      exact ⟨fun _ => by omega, fun _ => rfl⟩
    · rename_i notFull
      have counted : (s.rxBuf.put c).count = s.rxBuf.count + 1 :=
        Circular.count_put (room_of_not_full notFull)
      have bound := (s.rxBuf.put c).count_lt
      rw [ih]
      change 4095 - (s.rxBuf.put c).count < rest.length ↔ 4095 - s.rxBuf.count < rest.length + 1
      omega

theorem Sound.step (sound : Sound s) {e : Hart.Event} (safe : Safe s e)
    (stepped : s.step e = some t) : Sound t := by
  cases e with
  | irqEnable =>
    obtain ⟨-, same⟩ := Option.ite_none_right_eq_some.mp stepped
    obtain rfl := Option.some.inj same
    exact sound.running .thread (.of_expected rfl rfl)
  | print text =>
    simp only [Hart.step] at stepped
    split at stepped
    · rename_i top rest here
      obtain ⟨prints, same⟩ := Option.ite_none_right_eq_some.mp stepped
      obtain rfl := Option.some.inj same
      have formed : Formed s.contexts := sound.formed fun bytes rest printing => by
        obtain ⟨rfl, -⟩ := List.cons.inj (here.symm.trans printing)
        cases prints
      have sie := sound.sie
      rw [here] at formed sie
      have enabled : expected (top :: rest) = some true := by
        cases top with
        | thread => rfl
        | trap frame pc => exact congrArg some prints
        | _ => cases prints
      exact sound.running (.print formed enabled nofun) (.of_expected enabled (sie true enabled))
    · cases stepped
  | putc =>
    have ran := stepped
    simp only [Hart.step] at stepped
    split at stepped
    · rename_i here
      exact sound.putc here ran
    · cases stepped
  | printReturns =>
    simp only [Hart.step] at stepped
    split at stepped
    · rename_i rest here
      obtain rfl := Option.some.inj stepped
      have sie := sound.sie
      rw [here] at sie
      have formed : Formed rest := by
        rcases sound.contexts with formed | ⟨bytes, rest', printing, formed, -⟩
        · rw [here] at formed
          cases formed with
          | print formed _ _ => exact formed
        · obtain ⟨-, rfl⟩ := List.cons.inj (here.symm.trans printing)
          exact formed
      exact sound.running formed sie
    · cases stepped
  | disableAndSaveSstatus =>
    simp only [Hart.step] at stepped
    have formed : Formed s.contexts := sound.formed fun bytes rest printing => by
      rw [printing] at stepped
      cases stepped
    split at stepped
    · rename_i here
      obtain rfl := Option.some.inj stepped
      exact sound.disable formed (by rw [here]; rfl)
    · rename_i frame pc rest here
      obtain rfl := Option.some.inj stepped
      exact sound.disable formed (by rw [here]; rfl)
    · rename_i here
      obtain rfl := Option.some.inj stepped
      exact sound.disable formed (by rw [here]; rfl)
    · cases stepped
  | restoreSstatus =>
    simp only [Hart.step] at stepped
    split at stepped
    · rename_i b rest here
      obtain rfl := Option.some.inj stepped
      refine sound.restore here rfl nofun fun formed => ?_
      cases formed with
      | critical formed same => exact ⟨formed, .of_expected same rfl⟩
    · rename_i b rest here
      obtain rfl := Option.some.inj stepped
      refine sound.restore here rfl nofun fun formed => ?_
      cases formed with
      | nullSchedule formed agrees => exact ⟨formed, agrees⟩
    · cases stepped
  | trap cause => exact sound.trap stepped
  | advance => exact sound.advance stepped
  | tx ready =>
    simp only [Hart.step] at stepped
    split at stepped
    · rename_i here
      obtain rfl := Option.some.inj stepped
      have formed : Formed s.contexts :=
        sound.formed fun bytes rest printing => by cases here.symm.trans printing
      exact sound.running formed sound.sie
    · cases stepped
  | rx received =>
    simp only [Hart.step] at stepped
    split at stepped
    · rename_i frame rest here
      obtain rfl := Option.some.inj stepped
      have formed : Formed s.contexts :=
        sound.formed fun bytes rest printing => by cases here.symm.trans printing
      split
      · rename_i warns
        have dropped := (handleUartRx_warns s.uart received).mp warns
        have fits : (putsBytes overflowMessage).length ≤ room s :=
          safe.resolve_left (Nat.not_le_of_lt dropped)
        have disabled : expected s.contexts = some false := by
          rw [here]
          rfl
        refine ⟨.inr ⟨putsBytes overflowMessage, s.contexts, rfl, formed, disabled, ?_⟩,
          ?_, sound.saved⟩
        · simp only [room, (handleUartRx_spec s.uart received).2]
          exact fits
        · exact .of_expected disabled (sound.sie false disabled)
      · exact sound.running formed sound.sie
    · cases stepped
  | pageFaultHandler path faultAddr =>
    simp only [Hart.step] at stepped
    split at stepped
    · rename_i frame rest here
      obtain rfl := Option.some.inj stepped
      obtain ⟨formed, agrees, off⟩ := sound.trapped here
      exact ⟨.inr ⟨_, _, rfl, .trap formed agrees, rfl, safe⟩, .of_expected rfl off, sound.saved⟩
    · cases stepped
  | startCallback =>
    simp only [Hart.step] at stepped
    split at stepped
    · rename_i here
      obtain rfl := Option.some.inj stepped
      exact sound.moves here rfl
    · cases stepped
  | threadExit =>
    simp only [Hart.step] at stepped
    split at stepped
    · obtain rfl := Option.some.inj stepped
      exact sound.running .exited (agrees_of_none rfl)
    · obtain rfl := Option.some.inj stepped
      exact sound.running .exited (agrees_of_none rfl)
    · cases stepped
  | writeTp null =>
    simp only [Hart.step] at stepped
    split at stepped
    · rename_i here
      obtain rfl := Option.some.inj stepped
      have formed : Formed s.contexts :=
        sound.formed fun bytes rest printing => by cases here.symm.trans printing
      exact sound.running formed sound.sie
    · rename_i here
      obtain ⟨-, same⟩ := Option.ite_none_right_eq_some.mp stepped
      obtain rfl := Option.some.inj same
      have formed : Formed s.contexts :=
        sound.formed fun bytes rest printing => by cases here.symm.trans printing
      exact sound.running formed sound.sie
    · cases stepped
  | schedule next => exact sound.schedule stepped
  | schedulePanics =>
    obtain ⟨contexts, formed, agrees, rfl⟩ := schedulePanics_spec sound stepped
    exact ⟨.inr ⟨_, _, rfl, .nullSchedule formed agrees, rfl, safe⟩,
      .of_expected rfl rfl, sound.saved⟩
  | switchFromNull next => exact sound.switchFromNull stepped
  | threadCreate task =>
    simp only [Hart.step] at stepped
    split at stepped
    · rename_i here
      have on : s.sie = true := sound.sie true (by rw [here]; rfl)
      exact sound.enqueue .thread (.of_expected rfl on) stepped
    · cases stepped
  | createUserProcess task =>
    simp only [Hart.step] at stepped
    split at stepped
    · exact sound.enqueue .retFromException (agrees_of_none rfl) stepped
    · cases stepped
  | sysFork child =>
    simp only [Hart.step] at stepped
    split at stepped
    · exact sound.enqueue .retFromException (agrees_of_none rfl) stepped
    · cases stepped

end Steps

/-! ## Runs -/

theorem hundred_le {start stop : Word} {ier : BitVec 8} {tpNull : Bool} :
    100 ≤ room (.initial start stop ier tpNull) := by
  have empty : room (.initial start stop ier tpNull) = 4095 := rfl
  omega

theorem sound_initial (start stop : Word) (ier : BitVec 8) (tpNull : Bool) :
    Sound (.initial start stop ier tpNull) where
  contexts := .inr ⟨_, _, rfl, .startKernel, rfl, (length_bootMessage start stop).trans hundred_le⟩
  sie := .of_expected rfl rfl
  saved := nofun

section Prints

variable {s : Hart} {bytes : List (BitVec 8)} {rest : List CallContext}

/-- A pass through the loop of `uart_putc` that finds room. -/
theorem putc_stores {c : BitVec 8} (here : s.contexts = .print none (c :: bytes) :: rest)
    (some : 0 < room s) :
    ∃ uart, s.step .putc =
      Option.some { s with uart := uart, contexts := .print none bytes :: rest } ∧
      4095 - uart.txBuf.count = room s - 1 := by
  have notFull : RingBuffer.isBufFull s.uart.txBuf ≠ true := by
    intro full
    have count : s.uart.txBuf.count + 1 = 4096 := Circular.full_iff.mp (of_decide_eq_true full)
    rw [room] at some
    omega
  have counted : (s.uart.txBuf.put c).count = s.uart.txBuf.count + 1 :=
    Circular.count_put (room_of_not_full notFull)
  refine ⟨{ s.uart with txBuf := s.uart.txBuf.put c, ier := s.uart.ier ||| 0x02#8 }, ?_, ?_⟩
  · simp only [Hart.step, here, Uart.uartPutc, if_neg notFull, Option.getD_none]
  · change 4095 - (s.uart.txBuf.put c).count = 4095 - s.uart.txBuf.count - 1
    omega

/-- A message that has room is printed. -/
theorem prints (here : s.contexts = .print none bytes :: rest) (fits : bytes.length ≤ room s) :
    ∃ uart, System.Path (transitions.restrict Safe) s (List.replicate bytes.length .putc)
        { s with uart := uart, contexts := .print none [] :: rest } ∧
      4095 - uart.txBuf.count = room s - bytes.length := by
  induction bytes generalizing s with
  | nil =>
    refine ⟨s.uart, ?_, rfl⟩
    rw [← here]
    exact .nil s
  | cons c bytes ih =>
    rw [List.length_cons] at fits
    obtain ⟨uart, stepped, left⟩ := putc_stores here (Nat.lt_of_lt_of_le (Nat.succ_pos _) fits)
    have later : bytes.length ≤
        room { s with uart := uart, contexts := .print none bytes :: rest } := by
      rw [room, left]
      omega
    obtain ⟨last, run, remaining⟩ := ih rfl later
    refine ⟨last, .cons ⟨trivial, stepped⟩ run, remaining.trans ?_⟩
    rw [room, left, List.length_cons]
    omega

/-- A message that has no room ends in the wait loop. -/
theorem prints_until_full (here : s.contexts = .print none bytes :: rest) (disabled : s.sie = false)
    (tooLong : room s < bytes.length) :
    ∃ n t, System.Path transitions s (List.replicate n .putc) t ∧ WaitsDisabled t := by
  induction bytes generalizing s with
  | nil => exact absurd tooLong (Nat.not_lt_zero _)
  | cons c bytes ih =>
    rcases Nat.eq_zero_or_pos (room s) with none | some
    · have full : RingBuffer.isBufFull s.uart.txBuf = true := by
        have bound := s.uart.txBuf.count_lt
        rw [room] at none
        exact decide_eq_true (Circular.full_iff.mpr (by omega))
      have waits : s.step .putc =
          Option.some { s with contexts := .print (Option.some false) (c :: bytes) :: rest } := by
        simp only [Hart.step, here, Uart.uartPutc, if_pos full, Option.getD_none, disabled]
      exact ⟨1, _, .cons waits (.nil _), c :: bytes, rest, rfl⟩
    · obtain ⟨uart, stepped, left⟩ := putc_stores here some
      rw [List.length_cons] at tooLong
      have later : room { s with uart := uart, contexts := .print none bytes :: rest } <
          bytes.length := by
        rw [room, left]
        omega
      obtain ⟨n, t, run, waits⟩ :=
        ih (s := { s with uart := uart, contexts := .print none bytes :: rest }) rfl disabled later
      exact ⟨n + 1, t, .cons stepped run, waits⟩

end Prints

/-- A step that does not meet the condition leads to the wait loop. -/
private theorem unsafe_waits {s t : Hart} (sound : Sound s) {e : Hart.Event}
    (stepped : s.step e = some t) (lacks : ¬ Safe s e) :
    ∃ n u, System.Path transitions t (List.replicate n .putc) u ∧ WaitsDisabled u := by
  cases e with
  | pageFaultHandler path faultAddr =>
    simp only [Hart.step] at stepped
    split at stepped
    · rename_i frame rest here
      obtain rfl := Option.some.inj stepped
      exact prints_until_full rfl (sound.trapped here).2.2 (Nat.lt_of_not_le lacks)
    · cases stepped
  | rx received =>
    obtain ⟨dropped, short⟩ := not_or.mp lacks
    simp only [Hart.step] at stepped
    split at stepped
    · rename_i frame rest here
      obtain rfl := Option.some.inj stepped
      have warns := (handleUartRx_warns s.uart received).mpr (Nat.lt_of_not_le dropped)
      simp only [if_pos warns]
      refine prints_until_full rfl (sound.trapped here).2.2 ?_
      simp only [room, (handleUartRx_spec s.uart received).2]
      exact Nat.lt_of_not_le short
    · cases stepped
  | schedulePanics =>
    obtain ⟨contexts, -, -, rfl⟩ := schedulePanics_spec sound stepped
    exact prints_until_full rfl rfl (Nat.lt_of_not_le lacks)
  | _ => exact absurd trivial lacks

/-- In a run in which every message of `page_fault_handler`, `handle_uart_rx` and `schedule` finds
room, nothing waits for room with interrupts disabled, and the next step that does not find it leads
there. -/
theorem never_waits_disabled {start stop : Word} {ier : BitVec 8} {tpNull : Bool}
    {events : List Hart.Event} {t : Hart}
    (run : System.Path (transitions.restrict Safe) (.initial start stop ier tpNull) events t) :
    ¬ WaitsDisabled t ∧ ∀ e u, t.step e = some u → ¬ Safe t e →
      ∃ n v, System.Path transitions u (List.replicate n .putc) v ∧ WaitsDisabled v := by
  have sound : Sound t :=
    run.invariant (fun sound step => sound.step step.1 step.2) (sound_initial start stop ier tpNull)
  exact ⟨sound.never_waits, fun e u stepped lacks => unsafe_waits sound stepped lacks⟩

/-! ## Examples of runs -/

/-- A process is created and dispatched. -/
theorem dispatched :
    ∃ events s, System.Path (transitions.restrict Safe) (.initial 0#64 0#64 1#8 false) events s ∧
    s.contexts = [.user] ∧ 3000 ≤ room s := by
  have short := length_bootMessage 0#64 0#64
  have empty : room (.initial 0#64 0#64 1#8 false) = 4095 := rfl
  obtain ⟨uart, booted, left⟩ :=
    prints (s := .initial 0#64 0#64 1#8 false) rfl (short.trans hundred_le)
  have started : ∃ s, System.Path (transitions.restrict Safe)
      { Hart.initial 0#64 0#64 1#8 false with
        uart := uart, contexts := [.print none [], .startKernel] }
      [.printReturns, .irqEnable, .createUserProcess 1, .schedule 1, .advance] s ∧
      s.contexts = [.user] ∧ s.uart = uart :=
    ⟨_, .cons ⟨trivial, rfl⟩ (.cons ⟨trivial, rfl⟩ (.cons ⟨trivial, rfl⟩ (.cons ⟨trivial, rfl⟩
      (.cons ⟨trivial, rfl⟩ (.nil _))))), rfl, rfl⟩
  obtain ⟨s, run, user, same⟩ := started
  refine ⟨_, s, booted.append run, user, ?_⟩
  rw [room, same]
  omega

/-- A trap from user code. -/
theorem user_trap {s : Hart} (cause : Cause) (user : s.contexts = [.user]) : s.step (.trap cause) =
    some { s with sie := false, contexts := [.trap ⟨s.sie, s.tpNull⟩ (.doTrap cause), .user] } := by
  simp only [Hart.step, Hart.trap, user]

/-- A page fault of the process, when the transmit buffer has room. -/
theorem never_waits_disabled_fault : ∃ events t,
    System.Path (transitions.restrict Safe) (.initial 0#64 0#64 1#8 false)
      (events ++ [.trap .pageFault, .pageFaultHandler .cow 0#64])
      t ∧ ¬ WaitsDisabled t ∧ ∀ e u, t.step e = some u → ¬ Safe t e →
        ∃ n v, System.Path transitions u (List.replicate n .putc) v ∧ WaitsDisabled v := by
  obtain ⟨events, s, run, user, space⟩ := dispatched
  have fits : (putsBytes (FaultPath.message 0#64 .cow)).length ≤ room s := by
    have bytes := length_putsBytes_le (FaultPath.message 0#64 .cow)
    have characters : (FaultPath.message 0#64 .cow).length = 39 := rfl
    omega
  have faults : ∃ t,
      System.Path (transitions.restrict Safe) s [.trap .pageFault, .pageFaultHandler .cow 0#64] t :=
    ⟨_, .cons ⟨trivial, user_trap .pageFault user⟩ (.cons ⟨fits, rfl⟩ (.nil _))⟩
  obtain ⟨t, faulted⟩ := faults
  exact ⟨events, t, run.append faulted, never_waits_disabled (run.append faulted)⟩

private theorem length_putsBytes_replicate (n : ℕ) :
    (putsBytes (List.replicate n 65#8)).length = n := by
  induction n with
  | zero => rfl
  | succ n ih =>
    have next : putsBytes (List.replicate (n + 1) 65#8) =
        65#8 :: putsBytes (List.replicate n 65#8) := rfl
    rw [next, List.length_cons, ih]

/-- The process fills the transmit buffer, and then accesses a page that is not mapped. -/
theorem waits_disabled : ¬ ∀ start stop ier tpNull events t,
    System.Path transitions (.initial start stop ier tpNull) events t → ¬ WaitsDisabled t := by
  intro never
  obtain ⟨events, s, run, user, -⟩ := dispatched
  -- The text has as many bytes as the buffer has room for.
  let text := List.replicate (room s) 65#8
  let writing : Hart := { s with sie := true, contexts :=
    [.print none (putsBytes text), .trap ⟨s.sie, s.tpNull⟩ .handleSyscall, .user] }
  have called : System.Path (transitions.restrict Safe) s [.trap .ecall,
      .advance, .print text] writing :=
    .cons ⟨trivial, user_trap .ecall user⟩ (.cons ⟨trivial, rfl⟩ (.cons ⟨trivial, rfl⟩ (.nil _)))
  have length : (putsBytes text).length = room s := length_putsBytes_replicate (room s)
  obtain ⟨uart, written, left⟩ := prints (s := writing) rfl length.le
  have full : 4095 - uart.txBuf.count = 0 := by
    rw [left, length]
    exact Nat.sub_self (room s)
  have faults : ∃ t u, System.Path (transitions.restrict Safe)
      { writing with
        uart := uart, contexts := [.print none [], .trap ⟨s.sie, s.tpNull⟩ .handleSyscall, .user] }
      [.printReturns, .advance, .advance, .trap .pageFault] t ∧
      t.step (.pageFaultHandler .segmentation 0#64) = some u ∧
        t.uart = uart :=
    ⟨_, _, .cons ⟨trivial, rfl⟩
      (.cons ⟨trivial, rfl⟩ (.cons ⟨trivial, rfl⟩ (.cons ⟨trivial, rfl⟩ (.nil _)))), rfl, rfl⟩
  obtain ⟨t, u, faulted, handles, same⟩ := faults
  have reached := ((run.append called).append written).append faulted
  have lacks : ¬ Safe t (.pageFaultHandler .segmentation 0#64) := by
    intro fits
    have characters : (putsBytes (FaultPath.message 0#64 .segmentation)).length = 53 := rfl
    have bound : 53 ≤ 4095 - t.uart.txBuf.count := characters ▸ fits
    rw [same, full] at bound
    omega
  obtain ⟨n, v, waiting, waits⟩ := (never_waits_disabled reached).2 _ u handles lacks
  have all := (reached.of_restrict.snoc handles).append waiting
  exact never _ _ _ _ _ v all waits

end OscKernel.Soundness.PrintWaits