import Mathlib.Data.List.Sort
import OscKernel.Lib.System
import OscKernel.Model.Timers

/-! # The timer list

Each accepted timer gets a number. The list is sorted, holds the slots in use but for the one that
is being fired, and loses a timer only when it is fired, in every run in which `ev->next = NULL` is
not executed on a slot that `add_timer` has taken in the meantime and linked before another timer;
that step cuts the list.
-/

namespace OscKernel.Soundness.TimerList

open OscKernel.Lib OscKernel.Model
open scoped List

/-! ## Numbered timers -/

/-- What `add_timer` was called with: the tick at which the timer is due, and its callback. -/
structure Accepted where
  timeoutTick : Word
  callback : Word
  arg : Word

/-- A call of a callback, by the run of the handler that read the tick. -/
structure Call where
  id : ℕ
  now : Word
  callback : Word
  arg : Word

structure Tracked where
  timers : Timers
  number : Fin 20 → ℕ
  accepted : List Accepted
  fired : List (ℕ × Word)
  called : List Call

namespace Tracked

def event (s : Tracked) (i : Fin 20) : TimerEvent := s.timers.timerPool i

/-- The step of the timers, with what it accepts, fires and calls. -/
def step (s : Tracked) (e : Timers.Event) : Option Tracked :=
  (s.timers.step e).map fun t =>
    match e, s.timers.pc with
    | .addTimer callback arg ticks sec, _ =>
      match s.timers.freeSlot with
      | none => { s with timers := t }
      | some i => { s with
          timers := t
          number := Function.update s.number i s.accepted.length
          accepted := s.accepted ++
            [⟨ticks + sec.signExtend 64 * s.timers.cpuFreq, callback, arg⟩] }
    | .pop, .loop now =>
      { s with timers := t, fired := s.fired ++
        s.timers.timerListHead.toList.map fun ev => (s.number ev, now) }
    | .call, .fire now ev =>
      if (s.event ev).callback ≠ 0#64 then
        { s with timers := t, called := s.called ++
          [⟨s.number ev, now, (s.event ev).callback, (s.event ev).arg⟩] }
      else { s with timers := t }
    | _, _ => { s with timers := t }

end Tracked

def initial (cpuFreq : Word) : Tracked := ⟨.initial cpuFreq, fun _ => 0, [], [], []⟩

def transitions : System Tracked Timers.Event := .ofStep Tracked.step

/-- The slot that is being fired. -/
def firing : TimerPc → Option (Fin 20)
  | .fire _ ev | .callback _ ev | .clearUsed _ ev => some ev
  | _ => none

/-- The list and the calls are as they should be. -/
structure Kept (s : Tracked) : Prop where
  list : ∃ chain, Linked s.timers.link none chain ∧ chain.Nodup ∧
    chain.Pairwise (fun i j => (s.event i).timeoutTick ≤ (s.event j).timeoutTick) ∧
    (∀ i, i ∈ chain ↔ (s.event i).isUsed = true ∧ firing s.timers.pc ≠ some i) ∧
    -- An accepted timer is in the list or was fired, and no timer twice.
    (chain.map s.number ++ s.fired.map Prod.fst).Perm (List.range s.accepted.length)
  due : ∀ id now, (id, now) ∈ s.fired →
    ∃ timer, s.accepted[id]? = some timer ∧ timer.timeoutTick ≤ now
  once : (s.called.map Call.id).Nodup
  given : ∀ call ∈ s.called, (call.id, call.now) ∈ s.fired ∧
    ∃ tick, s.accepted[call.id]? = some ⟨tick, call.callback, call.arg⟩
  ends : ∀ callback arg ticks sec, s.timers.addTimer callback arg ticks sec ≠ none

/-- The slot whose `next` field is cleared is free, or no timer follows it. -/
def Safe (s : Tracked) : Timers.Event → Prop
  | .clearNext => ∀ now ev, s.timers.pc = .clearNext now ev → (s.event
      ev).isUsed = false ∨ (s.event ev).next = none
  | _ => True

/-! ## The invariant -/

/-- The invariant, for the slots that are in the list. -/
structure Sound (s : Tracked) (chain : List (Fin 20)) : Prop where
  linked : Linked s.timers.link none chain
  distinct : chain.Nodup
  sorted : chain.Pairwise (fun i j => (s.event i).timeoutTick ≤ (s.event j).timeoutTick)
  listed : ∀ i, i ∈ chain ↔ (s.event i).isUsed = true ∧ firing s.timers.pc ≠ some i
  numbered : (chain.map s.number ++ s.fired.map Prod.fst).Perm (List.range s.accepted.length)
  /-- A slot in use holds what was accepted. -/
  data : ∀ i, (s.event i).isUsed = true →
    s.accepted[s.number i]? = some ⟨(s.event i).timeoutTick, (s.event i).callback, (s.event i).arg⟩
  busy : ∀ i, firing s.timers.pc = some i → (s.event i).isUsed = true
  due : ∀ id now, (id, now) ∈ s.fired →
    ∃ timer, s.accepted[id]? = some timer ∧ timer.timeoutTick ≤ now
  once : (s.called.map Call.id).Nodup
  given : ∀ call ∈ s.called, (call.id, call.now) ∈ s.fired ∧
    ∃ tick, s.accepted[call.id]? = some ⟨tick, call.callback, call.arg⟩
  /-- The event that is about to be fired was not called yet. -/
  fresh : ∀ now ev, s.timers.pc = .fire now ev → (s.number ev, now) ∈ s.fired ∧
    s.number ev ∉ s.called.map Call.id

theorem sound_initial (cpuFreq : Word) : Sound (initial cpuFreq) [] where
  linked := rfl
  distinct := List.nodup_nil
  sorted := .nil
  listed := fun _ =>
    ⟨fun member => absurd member List.not_mem_nil, fun used => absurd used.1 Bool.false_ne_true⟩
  numbered := .rfl
  data := fun _ used => absurd used Bool.false_ne_true
  busy := nofun
  due := fun _ _ member => absurd member List.not_mem_nil
  once := List.nodup_nil
  given := fun _ member => absurd member List.not_mem_nil
  fresh := nofun

/-! ## Pointers -/

section Pointers

variable {s : Timers} {place next : Option (Fin 20)} {i j : Fin 20}

theorem link_setNext : (s.setNext i next).link = Function.update s.link (some i) next := by
  funext q
  cases q with
  | none => rfl
  | some j =>
    rcases eq_or_ne j i with rfl | different
    · simp [Timers.link, Timers.setNext]
    · simp [Timers.link, Timers.setNext, different]

theorem link_setLink : (s.setLink place next).link = Function.update s.link place next := by
  cases place with
  | none =>
    funext q
    cases q with
    | none => rfl
    | some j => rfl
  | some i => exact link_setNext

/-- Writing a pointer changes nothing else. -/
theorem setNext_event : (s.setNext i next).timerPool j =
    { s.timerPool j with next := ((s.setNext i next).timerPool j).next } := by
  rcases eq_or_ne j i with rfl | different
  · simp [Timers.setNext]
  · simp [Timers.setNext, different]

private theorem setLink_event : (s.setLink place next).timerPool j =
    { s.timerPool j with next := ((s.setLink place next).timerPool j).next } := by
  cases place with
  | none => rfl
  | some i => exact setNext_event

theorem setLink_pc : (s.setLink place next).pc = s.pc ∧
    (s.setLink place next).cpuFreq = s.cpuFreq := by
  cases place with
  | none => exact ⟨rfl, rfl⟩
  | some i => exact ⟨rfl, rfl⟩

theorem freeSlot_unused (free : s.freeSlot = some i) : (s.timerPool i).isUsed = false := by
  have found := List.find?_some free
  simpa using found

end Pointers

/-! ## Adding a timer -/

/-- An event apart from its pointer. -/
def body (e : TimerEvent) : Accepted × Bool := (⟨e.timeoutTick, e.callback, e.arg⟩, e.isUsed)

theorem body_setLink {s : Timers} {place next : Option (Fin 20)} (j : Fin 20) :
    body ((s.setLink place next).timerPool j) = body (s.timerPool j) := by
  rw [setLink_event]
  rfl

theorem body_setNext {s : Timers} {i : Fin 20} {next : Option (Fin 20)} (j : Fin 20) :
    body ((s.setNext i next).timerPool j) = body (s.timerPool j) := by
  rw [setNext_event]
  rfl

/-- The slot is linked in before the first timer that is not due earlier. -/
theorem addTimer_spec {s : Timers} {chain : List (Fin 20)} {i : Fin 20} (callback arg ticks : Word)
    (sec : BitVec 32) (linked : Linked s.link none chain) (distinct : chain.Nodup)
    (sorted : chain.Pairwise (fun a b => (s.timerPool a).timeoutTick ≤ (s.timerPool b).timeoutTick))
    (notListed : i ∉ chain) (free : s.freeSlot = some i) :
    ∃ t chain', s.addTimer callback arg ticks sec = some t ∧
      Linked t.link none chain' ∧ chain'.Perm (i :: chain) ∧
      chain'.Pairwise (fun a b => (t.timerPool a).timeoutTick ≤ (t.timerPool b).timeoutTick) ∧
      t.pc = s.pc ∧
      t.cpuFreq = s.cpuFreq ∧
      body (t.timerPool i) = (⟨ticks + sec.signExtend 64 * s.cpuFreq, callback, arg⟩, true) ∧
      ∀ j, j ≠ i → body (t.timerPool j) = body (s.timerPool j) := by
  generalize timeout : ticks + sec.signExtend 64 * s.cpuFreq = timeoutTick
  let filled : Timers :=
    { s with timerPool := Function.update s.timerPool i ⟨timeoutTick, callback, arg, true, none⟩ }
  have here : filled.timerPool i = ⟨timeoutTick, callback, arg, true, none⟩ :=
    Function.update_self _ _ _
  have elsewhere : ∀ j, j ≠ i → filled.timerPool j = s.timerPool j :=
    fun j different => Function.update_of_ne different _ _
  have others : ∀ j ∈ chain, j ≠ i := fun j member same => notListed (same ▸ member)
  have filledLinked : Linked filled.link none chain := by
    apply linked.congr
    · rfl
    · intro j member
      exact congrArg TimerEvent.next (elsewhere j (others j member))
  -- The walk passes the timers that are due earlier.
  let r : Fin 20 → Fin 20 → Prop :=
    fun a b => (filled.timerPool a).timeoutTick ≤ (filled.timerPool b).timeoutTick
  have total : Std.Total r := ⟨fun a b => BitVec.le_total _ _⟩
  have transitive : IsTrans (Fin 20) r := ⟨fun a b c => BitVec.le_trans⟩
  have decidable : DecidableRel r := fun a b => inferInstanceAs (Decidable ((_ : Word) ≤ _))
  let before := chain.takeWhile fun j => !!decide ((filled.timerPool j).timeoutTick < timeoutTick)
  let after := chain.dropWhile fun j => !!decide ((filled.timerPool j).timeoutTick < timeoutTick)
  have whole : before ++ after = chain := List.takeWhile_append_dropWhile
  have short : chain.length < 21 := by
    have bound := distinct.length_le_card
    rw [Fintype.card_fin] at bound
    omega
  let stop : Fin 20 → Bool := fun j => !decide ((filled.timerPool j).timeoutTick < timeoutTick)
  have walked : walk filled.link stop 21 none = some (lastPlace none before) :=
    filledLinked.walk_eq short
  have inserted : chain.orderedInsert r i = before ++ i :: after := by
    have same : (fun b => decide ¬ r i b) =
        fun j => !!decide ((filled.timerPool j).timeoutTick < timeoutTick) := by
      funext b
      simp only [r, here, BitVec.not_le, Bool.not_not]
    rw [List.orderedInsert_eq_take_drop, same]
  let place := lastPlace none before
  let t := (filled.setLink (some i) (filled.link place)).setLink place (some i)
  have bodies : ∀ j, body (t.timerPool j) = body (filled.timerPool j) := fun j =>
    (body_setLink j).trans (body_setLink j)
  have ticks' : ∀ j, (t.timerPool j).timeoutTick = (filled.timerPool j).timeoutTick := fun j =>
    congrArg (fun b => b.1.timeoutTick) (bodies j)
  have link : t.link =
      Function.update (Function.update filled.link (some i) (filled.link place)) place (some i) :=
    link_setLink.trans (congrArg (fun f => Function.update f place (some i)) link_setLink)
  refine ⟨t, before ++ i :: after, ?_, ?_, ?_, ?_, ?_, ?_, ?_, fun j different => ?_⟩
  · simp only [Timers.addTimer, free, timeout]
    exact (congrArg (Option.map _) walked).trans rfl
  · rw [link]
    rw [← whole] at filledLinked distinct notListed
    exact filledLinked.insert distinct (fun _ _ => nofun) notListed nofun
  · rw [← inserted]
    exact List.perm_orderedInsert r i chain
  · simp only [ticks', ← inserted]
    refine List.Pairwise.orderedInsert i chain
      (sorted.imp_of_mem fun {a b} memberA memberB le => ?_)
    simp only [elsewhere a (others a memberA), elsewhere b (others b memberB)]
    exact le
  · exact (setLink_pc.1.trans setLink_pc.1 : t.pc = filled.pc)
  · exact (setLink_pc.2.trans setLink_pc.2 : t.cpuFreq = filled.cpuFreq)
  · rw [bodies, here]
    rfl
  · rw [bodies, elsewhere j different]

/-! ## Steps -/

section Steps

variable {s t : Tracked} {chain : List (Fin 20)}

theorem Sound.number_lt (sound : Sound s chain) {id : ℕ}
    (known : id ∈ chain.map s.number ++ s.fired.map Prod.fst) :
    id < s.accepted.length := List.mem_range.mp (sound.numbered.mem_iff.mp known)

theorem Sound.kept (sound : Sound s chain) : Kept s where
  list := ⟨chain, sound.linked, sound.distinct, sound.sorted, sound.listed, sound.numbered⟩
  due := sound.due
  once := sound.once
  given := sound.given
  ends := by
    intro callback arg ticks sec never
    cases free : s.timers.freeSlot with
    | none =>
      rw [Timers.addTimer, free] at never
      cases never
    | some i =>
      have notListed : i ∉ chain := fun member =>
        Bool.false_ne_true ((freeSlot_unused free).symm.trans ((sound.listed i).mp member).1)
      obtain ⟨t, -, added, -⟩ :=
        addTimer_spec callback arg ticks sec sound.linked sound.distinct sound.sorted notListed free
      cases never.symm.trans added

theorem Sound.add (sound : Sound s chain) {timers : Timers} {chain' : List (Fin 20)} {i : Fin 20}
    {accepted : Accepted} (unused : (s.event i).isUsed = false)
    (linked : Linked timers.link none chain') (queued : chain'.Perm (i :: chain))
    (sorted : chain'.Pairwise
      (fun a b => (timers.timerPool a).timeoutTick ≤ (timers.timerPool b).timeoutTick))
    (pc : timers.pc = s.timers.pc) (here : body (timers.timerPool i) = (accepted, true))
    (elsewhere : ∀ j, j ≠ i → body (timers.timerPool j) = body (s.event j)) :
    Sound { s with
      timers := timers
      number := Function.update s.number i s.accepted.length
      accepted := s.accepted ++ [accepted] } chain' := by
  have used : ∀ j, j ≠ i → (timers.timerPool j).isUsed = (s.event j).isUsed := fun j different =>
    congrArg Prod.snd (elsewhere j different)
  have old : ∀ j, (s.event j).isUsed = true → j ≠ i := by
    rintro j inUse rfl
    exact Bool.false_ne_true (unused.symm.trans inUse)
  have notListed : i ∉ chain := fun member => old i ((sound.listed i).mp member).1 rfl
  have numbers : chain.map (Function.update s.number i s.accepted.length) = chain.map s.number :=
    List.map_congr_left fun j member =>
      Function.update_of_ne (old j ((sound.listed j).mp member).1) _ _
  have keep : ∀ {id : ℕ}, id < s.accepted.length →
      (s.accepted ++ [accepted])[id]? = s.accepted[id]? := fun known =>
    List.getElem?_append_left known
  have firedKnown : ∀ {id now}, (id, now) ∈ s.fired → id < s.accepted.length := fun member =>
    sound.number_lt (List.mem_append_right _ (List.mem_map_of_mem member))
  refine ⟨linked, ?_, sorted, fun j => ?_, ?_, fun j inUse => ?_, fun j fires => ?_,
    fun id now member => ?_, sound.once, fun call member => ?_, fun now ev fires => ?_⟩
  · exact queued.nodup_iff.mpr (List.nodup_cons.mpr ⟨notListed, sound.distinct⟩)
  · change j ∈ chain' ↔ (timers.timerPool j).isUsed = true ∧ firing timers.pc ≠ some j
    rw [queued.mem_iff, List.mem_cons, pc]
    rcases eq_or_ne j i with rfl | different
    · have taken : (timers.timerPool j).isUsed = true := congrArg Prod.snd here
      have idle : firing s.timers.pc ≠ some j := fun fires => old j (sound.busy j fires) rfl
      exact ⟨fun _ => ⟨taken, idle⟩, fun _ => .inl rfl⟩
    · rw [used j different, ← sound.listed j]
      exact ⟨fun member => member.resolve_left different, .inr⟩
  · calc chain'.map (Function.update s.number i s.accepted.length) ++ s.fired.map Prod.fst
      _ ~ (i :: chain).map (Function.update s.number i s.accepted.length) ++ s.fired.map Prod.fst :=
          (queued.map _).append_right _
      _ = s.accepted.length :: (chain.map s.number ++ s.fired.map Prod.fst) := by
          rw [List.map_cons, Function.update_self, numbers, List.cons_append]
      _ ~ s.accepted.length :: List.range s.accepted.length := sound.numbered.cons _
      _ ~ List.range s.accepted.length ++ [s.accepted.length] :=
        (List.perm_append_singleton _ _).symm
      _ = List.range (s.accepted ++ [accepted]).length := by
          rw [List.length_append, List.length_singleton, List.range_succ]
  · change (timers.timerPool j).isUsed = true at inUse
    change (s.accepted ++ [accepted])[Function.update s.number i s.accepted.length j]? =
      some (body (timers.timerPool j)).1
    rcases eq_or_ne j i with rfl | different
    · rw [Function.update_self, here, List.getElem?_concat_length]
    · rw [used j different] at inUse
      have known := sound.data j inUse
      obtain ⟨bound, -⟩ := List.getElem?_eq_some_iff.mp known
      rw [Function.update_of_ne different, elsewhere j different, keep bound]
      exact known
  · change firing timers.pc = some j at fires
    rw [pc] at fires
    have inUse := sound.busy j fires
    exact (used j (old j inUse)).trans inUse
  · obtain ⟨timer, known, early⟩ := sound.due id now member
    exact ⟨timer, (keep (firedKnown member)).trans known, early⟩
  · obtain ⟨fired, tick, known⟩ := sound.given call member
    exact ⟨fired, tick, (keep (firedKnown fired)).trans known⟩
  · change timers.pc = .fire now ev at fires
    rw [pc] at fires
    have inUse := sound.busy ev (by rw [fires]; rfl)
    have same : Function.update s.number i s.accepted.length ev = s.number ev :=
      Function.update_of_ne (old ev inUse) _ _
    simp only [same]
    exact sound.fresh now ev fires

/-- The head of the list is taken off and is fired. -/
theorem Sound.pop (sound : Sound s chain) {now : Word} {ev : Fin 20} (pc : s.timers.pc = .loop now)
    (head : s.timers.timerListHead = some ev) (due : (s.event ev).timeoutTick ≤ now) :
    ∃ rest, chain = ev :: rest ∧ Sound { s with
      timers := { s.timers with timerListHead := (s.event ev).next, pc := .fire now ev }
      fired := s.fired ++ [(s.number ev, now)] } rest := by
  have linked := sound.linked
  cases chain with
  | nil => cases head.symm.trans linked
  | cons first rest =>
    obtain rfl := Option.some.inj (head.symm.trans linked.1)
    obtain ⟨notIn, distinct⟩ := List.nodup_cons.mp sound.distinct
    have inUse := ((sound.listed ev).mp List.mem_cons_self).1
    have numbered : (s.number ev :: (rest.map s.number ++ s.fired.map Prod.fst)).Perm
        (List.range s.accepted.length) :=
      sound.numbered
    have notFired : s.number ev ∉ s.fired.map Prod.fst := fun member =>
      (List.nodup_cons.mp (numbered.nodup_iff.mpr List.nodup_range)).1
        (List.mem_append_right _ member)
    refine ⟨rest, rfl, ?_, distinct, (List.pairwise_cons.mp sound.sorted).2, fun j => ?_, ?_,
      sound.data, ?_, ?_, sound.once, fun call member => ?_, ?_⟩
    · cases rest with
      | nil => exact linked.2
      | cons next rest => exact ⟨linked.2.1, linked.2.2.congr rfl fun _ _ => rfl⟩
    · change j ∈ rest ↔ (s.event j).isUsed = true ∧ some ev ≠ some j
      have before := sound.listed j
      rw [pc, List.mem_cons] at before
      constructor
      · intro member
        refine ⟨(before.mp (.inr member)).1, ?_⟩
        rintro ⟨⟩
        exact notIn member
      · rintro ⟨used, different⟩
        exact (before.mpr ⟨used, nofun⟩).resolve_left fun same =>
          different (congrArg some same.symm)
    · rw [List.map_append, ← List.append_assoc]
      exact (List.perm_append_singleton _ _).trans numbered
    · rintro j ⟨⟩
      exact inUse
    · intro id tick member
      rcases List.mem_append.mp member with old | new
      · exact sound.due id tick old
      · obtain ⟨rfl, rfl⟩ := Prod.mk.inj (List.mem_singleton.mp new)
        exact ⟨_, sound.data ev inUse, due⟩
    · obtain ⟨fired, known⟩ := sound.given call member
      exact ⟨List.mem_append_left _ fired, known⟩
    · rintro tick other ⟨⟩
      refine ⟨List.mem_append_right _ (List.mem_singleton_self _), fun member => notFired ?_⟩
      obtain ⟨call, called, same⟩ := List.mem_map.mp member
      exact List.mem_map.mpr ⟨_, (sound.given call called).1, same⟩

/-- A step of the handler that writes only the position, where the same slot or none is fired. -/
theorem Sound.move (sound : Sound s chain) {pc : TimerPc} (same : firing pc = firing s.timers.pc)
    (notFire : ∀ now ev, pc ≠ .fire now ev) :
    Sound { s with timers := { s.timers with pc := pc } } chain where
  linked := sound.linked.congr rfl fun _ _ => rfl
  distinct := sound.distinct
  sorted := sound.sorted
  listed := fun i => (sound.listed i).trans (by rw [same]; rfl)
  numbered := sound.numbered
  data := sound.data
  busy := fun i fires => sound.busy i (same.symm.trans fires)
  due := sound.due
  once := sound.once
  given := sound.given
  fresh := fun now ev fires => absurd fires (notFire now ev)

theorem Sound.call (sound : Sound s chain) {now : Word} {ev : Fin 20}
    (pc : s.timers.pc = .fire now ev) :
    Sound { s with
      timers := { s.timers with pc := .callback now ev }
      called := s.called ++
        [⟨s.number ev, now, (s.event ev).callback, (s.event ev).arg⟩] } chain := by
  have moved : Sound { s with timers := { s.timers with pc := .callback now ev } } chain :=
    sound.move (by rw [pc]; rfl) (fun _ _ => nofun)
  obtain ⟨fired, notCalled⟩ := sound.fresh now ev pc
  have inUse := sound.busy ev (by rw [pc]; rfl)
  refine ⟨moved.linked, moved.distinct, moved.sorted, moved.listed, moved.numbered, moved.data,
    moved.busy, moved.due, ?_, fun call member => ?_, nofun⟩
  · rw [List.map_append, List.map_cons, List.map_nil, (List.perm_append_singleton _ _).nodup_iff]
    exact List.nodup_cons.mpr ⟨notCalled, sound.once⟩
  · rcases List.mem_append.mp member with old | new
    · exact sound.given call old
    · obtain rfl := List.mem_singleton.mp new
      exact ⟨fired, _, sound.data ev inUse⟩

theorem Sound.clearUsed (sound : Sound s chain) {now : Word} {ev : Fin 20}
    {pool : Fin 20 → TimerEvent} (pc : s.timers.pc = .clearUsed now ev)
    (cleared : (pool ev).isUsed = false) (kept : ∀ j, j ≠ ev → pool j = s.event j) :
    Sound { s with timers := { s.timers with timerPool := pool, pc := .clearNext now ev } }
      chain := by
  have notListed : ev ∉ chain := fun member => ((sound.listed ev).mp member).2 (by rw [pc]; rfl)
  have others : ∀ j ∈ chain, pool j = s.event j :=
    fun j member => kept j fun same => notListed (same ▸ member)
  refine ⟨?_, sound.distinct, ?_, fun j => ?_, sound.numbered, fun j inUse => ?_, nofun, sound.due,
    sound.once, sound.given, nofun⟩
  · apply sound.linked.congr
    · rfl
    · intro j member
      exact congrArg TimerEvent.next (others j member)
  · refine sound.sorted.imp_of_mem fun {a b} memberA memberB le => ?_
    change (pool a).timeoutTick ≤ (pool b).timeoutTick
    rw [others a memberA, others b memberB]
    exact le
  · change j ∈ chain ↔ (pool j).isUsed = true ∧ none ≠ some j
    rcases eq_or_ne j ev with rfl | different
    · rw [cleared]
      exact ⟨fun member => absurd member notListed, fun used => absurd used.1 Bool.false_ne_true⟩
    · rw [kept j different, sound.listed j, pc]
      refine and_congr_right fun _ => ⟨fun _ => nofun, fun _ same => different ?_⟩
      exact (Option.some.inj same).symm
  · change (pool j).isUsed = true at inUse
    have different : j ≠ ev := by
      rintro rfl
      exact Bool.false_ne_true (cleared.symm.trans inUse)
    change s.accepted[s.number j]? = some (body (pool j)).1
    rw [kept j different] at inUse ⊢
    exact sound.data j inUse

/-- Clearing the pointer of a free slot, or of the last one, leaves the list as it is. -/
theorem Sound.clearNext (sound : Sound s chain) {now : Word} {ev : Fin 20}
    (pc : s.timers.pc = .clearNext now ev)
    (safe : (s.event ev).isUsed = false ∨ (s.event ev).next = none) :
    Sound { s with timers := { s.timers.setNext ev none with pc := .loop now } } chain := by
  have bodies : ∀ j, body ((s.timers.setNext ev none).timerPool j) = body (s.event j) :=
    fun j => body_setNext j
  have tick : ∀ j, ((s.timers.setNext ev none).timerPool j).timeoutTick =
      (s.event j).timeoutTick := fun j =>
    congrArg (fun b => b.1.timeoutTick) (bodies j)
  have used : ∀ j, ((s.timers.setNext ev none).timerPool j).isUsed = (s.event j).isUsed := fun j =>
    congrArg Prod.snd (bodies j)
  refine ⟨?_, sound.distinct, ?_, fun j => ?_, sound.numbered, fun j inUse => ?_, nofun, sound.due,
    sound.once, sound.given, nofun⟩
  · change Linked (s.timers.setNext ev none).link none chain
    rw [link_setNext]
    apply sound.linked.congr
    · exact Function.update_of_ne (Option.some_ne_none ev).symm _ _
    · intro j member
      rcases eq_or_ne j ev with rfl | different
      · have inUse := ((sound.listed j).mp member).1
        have last : (s.event j).next = none :=
          safe.resolve_left fun free => Bool.false_ne_true (free.symm.trans inUse)
        exact (Function.update_self _ _ _).trans last.symm
      · exact Function.update_of_ne (fun same => different (Option.some.inj same)) _ _
  · refine sound.sorted.imp fun {a b} le => ?_
    change ((s.timers.setNext ev none).timerPool a).timeoutTick ≤
      ((s.timers.setNext ev none).timerPool b).timeoutTick
    rw [tick, tick]
    exact le
  · change j ∈ chain ↔ ((s.timers.setNext ev none).timerPool j).isUsed = true ∧ none ≠ some j
    rw [used, sound.listed j, pc]
    rfl
  · change ((s.timers.setNext ev none).timerPool j).isUsed = true at inUse
    change s.accepted[s.number j]? = some (body ((s.timers.setNext ev none).timerPool j)).1
    rw [used] at inUse
    rw [bodies]
    exact sound.data j inUse

/-- Where another timer follows, it is lost. -/
private theorem clearNext_loses (kept : Kept s) {now : Word} {ev : Fin 20}
    (pc : s.timers.pc = .clearNext now ev) (inUse : (s.event ev).isUsed = true)
    (linked : (s.event ev).next ≠ none) :
    ¬ Kept { s with timers := { s.timers.setNext ev none with pc := .loop now } } := by
  intro still
  obtain ⟨chain, before, distinct, -, listed, -⟩ := kept.list
  obtain ⟨chain', after, -, -, listed', -⟩ := still.list
  have member : ev ∈ chain := (listed ev).mpr ⟨inUse, by rw [pc]; nofun⟩
  obtain ⟨first, rest, rfl⟩ := List.append_of_mem member
  have cut := before.cut distinct nofun
  rw [← link_setNext] at cut
  have same : chain' = first ++ [ev] :=
    Linked.unique (after : Linked (s.timers.setNext ev none).link none chain') cut
  have follows : rest ≠ [] := by
    rintro rfl
    exact linked before.last
  obtain ⟨lost, later, rfl⟩ := List.exists_cons_of_ne_nil follows
  have lostListed :=
    (listed lost).mp (List.mem_append_right first (List.mem_cons_of_mem ev List.mem_cons_self))
  have bodies : body ((s.timers.setNext ev none).timerPool lost) = body (s.event lost) :=
    body_setNext lost
  have lostUsed : ((s.timers.setNext ev none).timerPool lost).isUsed = true :=
    (congrArg Prod.snd bodies).trans lostListed.1
  have present : lost ∈ chain' := (listed' lost).mpr ⟨lostUsed, nofun⟩
  rw [same] at present
  have apart : (first ++ [ev] ++ lost :: later).Nodup := by
    rw [List.append_assoc]
    exact distinct
  exact List.disjoint_of_nodup_append apart present List.mem_cons_self

theorem Sound.step (sound : Sound s chain) {e : Timers.Event} (safe : Safe s e)
    (stepped : s.step e = some t) :
    ∃ chain', Sound t chain' := by
  obtain ⟨timers, ran, rfl⟩ := Option.map_eq_some_iff.mp stepped
  cases e with
  | addTimer callback arg ticks sec =>
    cases free : s.timers.freeSlot with
    | none =>
      have nothing : s.timers.addTimer callback arg ticks sec =
          some s.timers := by rw [Timers.addTimer, free]
      obtain rfl := Option.some.inj (nothing.symm.trans ran)
      exact ⟨chain, sound⟩
    | some i =>
      have unused := freeSlot_unused free
      have notListed : i ∉ chain := fun member =>
        Bool.false_ne_true (unused.symm.trans ((sound.listed i).mp member).1)
      obtain ⟨added, chain', here, linked, queued, sorted, pc, -, filled, others⟩ :=
        addTimer_spec callback arg ticks sec sound.linked sound.distinct sound.sorted notListed free
      obtain rfl := Option.some.inj (here.symm.trans ran)
      exact ⟨chain', sound.add unused linked queued sorted pc filled others⟩
  | start now =>
    obtain ⟨idle, same⟩ := Option.ite_none_right_eq_some.mp ran
    obtain rfl := Option.some.inj same
    exact ⟨chain, sound.move (by rw [idle]; rfl) fun _ _ => nofun⟩
  | pop =>
    cases pc : s.timers.pc with
    | loop now =>
      cases head : s.timers.timerListHead with
      | none =>
        simp only [Timers.step, pc, head] at ran
        cases ran
      | some ev =>
        simp only [Timers.step, pc, head, Timers.nothingDue, decide_eq_true_eq] at ran
        obtain ⟨due, same⟩ := Option.ite_none_left_eq_some.mp ran
        obtain rfl := Option.some.inj same
        obtain ⟨rest, -, popped⟩ := sound.pop pc head (BitVec.not_lt.mp due)
        exact ⟨rest, popped⟩
    | _ =>
      simp only [Timers.step, pc] at ran
      cases ran
  | leave =>
    cases pc : s.timers.pc with
    | loop now =>
      simp only [Timers.step, pc] at ran
      obtain ⟨-, same⟩ := Option.ite_none_right_eq_some.mp ran
      obtain rfl := Option.some.inj same
      exact ⟨chain, sound.move (by rw [pc]; rfl) fun _ _ => nofun⟩
    | _ =>
      simp only [Timers.step, pc] at ran
      cases ran
  | call =>
    cases pc : s.timers.pc with
    | fire now ev =>
      simp only [Timers.step, pc] at ran
      obtain rfl := Option.some.inj ran
      by_cases given : (s.event ev).callback ≠ 0#64
      · have called : (s.timers.timerPool ev).callback ≠ 0#64 := given
        simp only [if_pos given, if_pos called]
        exact ⟨chain, sound.call pc⟩
      · have skipped : ¬ (s.timers.timerPool ev).callback ≠ 0#64 := given
        simp only [if_neg given, if_neg skipped]
        exact ⟨chain, sound.move (by rw [pc]; rfl) fun _ _ => nofun⟩
    | _ =>
      simp only [Timers.step, pc] at ran
      cases ran
  | callbackReturns =>
    cases pc : s.timers.pc with
    | callback now ev =>
      simp only [Timers.step, pc] at ran
      obtain rfl := Option.some.inj ran
      exact ⟨chain, sound.move (by rw [pc]; rfl) fun _ _ => nofun⟩
    | _ =>
      simp only [Timers.step, pc] at ran
      cases ran
  | clearUsed =>
    cases pc : s.timers.pc with
    | clearUsed now ev =>
      simp only [Timers.step, pc] at ran
      obtain rfl := Option.some.inj ran
      exact ⟨chain, sound.clearUsed pc (by rw [Function.update_self]) fun j different =>
        Function.update_of_ne different _ _⟩
    | _ =>
      simp only [Timers.step, pc] at ran
      cases ran
  | clearNext =>
    cases pc : s.timers.pc with
    | clearNext now ev =>
      simp only [Timers.step, pc] at ran
      obtain rfl := Option.some.inj ran
      exact ⟨chain, sound.clearNext pc (safe now ev pc)⟩
    | _ =>
      simp only [Timers.step, pc] at ran
      cases ran
  | setTimer =>
    obtain ⟨ready, same⟩ := Option.ite_none_right_eq_some.mp ran
    obtain rfl := Option.some.inj same
    exact ⟨chain, sound.move (by rw [ready]; rfl) fun _ _ => nofun⟩

/-- A step that is not safe cuts the list. -/
theorem unsafe_loses (kept : Kept s) {e : Timers.Event} (stepped : s.step e = some t)
    (cuts : ¬ Safe s e) : ¬ Kept t := by
  cases e with
  | clearNext =>
    have cutting : ∃ now ev, s.timers.pc = .clearNext now ev ∧
        ¬ ((s.event ev).isUsed = false ∨ (s.event ev).next = none) := by
      simpa only [Safe, not_forall, exists_prop] using cuts
    obtain ⟨now, ev, pc, linked⟩ := cutting
    obtain ⟨inUse, follows⟩ := not_or.mp linked
    have cleared : s.step .clearNext =
        some { s with timers := { s.timers.setNext ev none with pc := .loop now } } := by
      simp only [Tracked.step, Timers.step, pc, Option.map_some]
    obtain rfl := Option.some.inj (cleared.symm.trans stepped)
    exact clearNext_loses kept pc (Bool.eq_true_of_not_eq_false inUse) follows
  | _ => exact absurd trivial cuts

end Steps

/-! ## Runs -/

/-- In every run, every state is as it should be exactly if no step clears the `next` field of a
slot that is in use again and is followed by another timer. -/
theorem timers_kept {cpuFreq : Word} {events : List Timers.Event} {t : Tracked}
    (_run : System.Path transitions (initial cpuFreq) events t) :
    (∀ u, System.Path.Visits transitions (initial cpuFreq) events t u → Kept u) ↔
      ∀ u e v, System.Path.Takes transitions (initial cpuFreq) events t u e v → Safe u e := by
  constructor
  · intro kept u e v takes
    have stepped : u.step e = some v := by
      obtain ⟨-, -, -, -, step, -⟩ := takes
      exact step
    by_contra cuts
    exact unsafe_loses (kept u takes.source) stepped cuts (kept v takes.target)
  · intro safe u visits
    have preserved : ∀ {u e v}, (∃ chain, Sound u chain) → (transitions.restrict Safe).Step u e v →
        ∃ chain, Sound v chain :=
      fun ⟨_, sound⟩ step => sound.step step.1 step.2
    obtain ⟨chain, sound⟩ :=
      System.Path.visits_invariant visits safe preserved ⟨[], sound_initial cpuFreq⟩
    exact sound.kept

/-- A timer is fired, and its callback sets another one. -/
def firedEvents : List Timers.Event :=
  [.addTimer 1#64 0#64 5#64 0#32, .start 9#64, .pop, .call, .addTimer 1#64 0#64 8#64 0#32,
    .callbackReturns, .clearUsed, .clearNext]

theorem timers_kept_fired : ∃ t, System.Path transitions (initial 1#64) firedEvents t ∧
    ((∀ u, System.Path.Visits transitions (initial 1#64) firedEvents t u → Kept u) ↔
      ∀ u e v, System.Path.Takes transitions (initial 1#64) firedEvents t u e v → Safe u e) := by
  have run : ∃ t, System.Path transitions (initial 1#64) firedEvents t :=
    ⟨_, .cons rfl
      (.cons rfl (.cons rfl (.cons rfl (.cons rfl (.cons rfl (.cons rfl (.cons rfl (.nil _))))))))⟩
  obtain ⟨t, run⟩ := run
  exact ⟨t, run, timers_kept run⟩

/-- The slot of a fired timer is taken between `ev->is_used = 0` and `ev->next = NULL`, and linked
before another. -/
def cutEvents : List Timers.Event :=
  [.addTimer 1#64 0#64 5#64 0#32, .addTimer 1#64 0#64 20#64 0#32, .start 9#64, .pop, .call,
    .callbackReturns, .clearUsed, .addTimer 1#64 0#64 12#64 0#32]

theorem timers_cut :
    ¬ ∀ t cpuFreq events, System.Path transitions (initial cpuFreq) events t → Kept t := by
  intro always
  have started : ∃ s, System.Path transitions (initial 1#64) cutEvents s ∧ ¬ Safe s .clearNext ∧
      ∃ t, s.step .clearNext = some t := by
    refine ⟨_, .cons rfl (.cons rfl (.cons rfl (.cons rfl
      (.cons rfl (.cons rfl (.cons rfl (.cons rfl (.nil _)))))))), fun safe => ?_, _, rfl⟩
    rcases safe _ _ rfl with free | last
    · cases free
    · cases last
  obtain ⟨s, run, cuts, t, cleared⟩ := started
  exact unsafe_loses (always s _ _ run) cleared cuts (always t _ _ (run.snoc cleared))

end OscKernel.Soundness.TimerList
