import Mathlib.Data.Set.Basic

/-! # Labelled systems and their finite runs

`System.Path m s es t` is a finite run of `m` from `s` to `t` carrying exactly the labels `es`.
An invariant is established by one step lemma (`Path.invariant`); a condition on the steps of a
run is expressed by restricting the system to the steps that meet it (`restrict`), so that the
same rule yields what holds in every run all of whose steps meet the condition.
-/

namespace OscKernel.Lib

/-- Which label may lead from which state to which state. -/
structure System (σ ε : Type*) where
  Step : σ → ε → σ → Prop

namespace System

variable {σ ε : Type*} {m : System σ ε}

/-- The system of a computed partial step. -/
def ofStep (step : σ → ε → Option σ) : System σ ε := ⟨fun s e t => step s e = some t⟩

/-- The steps of `m` whose source and label meet `guard`. -/
def restrict (m : System σ ε) (guard : σ → ε → Prop) : System σ ε :=
  ⟨fun s e t => guard s e ∧ m.Step s e t⟩

/-- The system whose labels also say what is seen of a step. -/
def observed {κ : Type*} (m : System σ ε) (view : σ → ε → σ → κ) : System σ (ε × κ) :=
  ⟨fun s label t => m.Step s label.1 t ∧ label.2 = view s label.1 t⟩

/-- A finite run carrying exactly its labels. -/
inductive Path (m : System σ ε) : σ → List ε → σ → Prop
  | nil (s : σ) : Path m s [] s
  | cons {s mid t : σ} {e : ε} {es : List ε} :
      m.Step s e mid → Path m mid es t → Path m s (e :: es) t

namespace Path

theorem append {s mid t : σ} {first second : List ε} (left : Path m s first mid)
    (right : Path m mid second t) : Path m s (first ++ second) t := by
  induction left with
  | nil => exact right
  | cons step _ ih => exact .cons step (ih right)

theorem snoc {s mid t : σ} {es : List ε} {e : ε} (path : Path m s es mid) (step : m.Step mid e t) :
    Path m s (es ++ [e]) t :=
  path.append (.cons step (.nil t))

/-- What one step preserves, a run preserves. -/
theorem invariant {P : σ → Prop} (preserved : ∀ {s e t}, P s → m.Step s e t → P t)
    {s t : σ} {es : List ε} (path : Path m s es t) (initial : P s) : P t := by
  induction path with
  | nil => exact initial
  | cons step _ ih => exact ih (preserved initial step)

/-- The rule for a property of a state together with the labels that led to it. -/
theorem history {P : List ε → σ → Prop} {s t : σ} {es : List ε} (path : Path m s es t)
    (initial : P [] s) (preserved : ∀ {past u e v}, P past u → m.Step u e v → P (past ++ [e]) v) :
    P es t := by
  have general : ∀ {u es v}, Path m u es v → ∀ past, P past u → P (past ++ es) v := by
    intro u es v run
    induction run with
    | nil => intro past holds; simpa using holds
    | @cons u mid v e es step _ ih =>
      intro past holds
      have next := ih (past ++ [e]) (preserved holds step)
      rwa [List.append_assoc, List.singleton_append] at next
  exact general path [] initial

/-- A run of a system that takes the same steps under other labels. -/
theorem relabel {κ : Type*} {n : System σ κ} (label : ε → κ)
    (steps : ∀ {s e t}, m.Step s e t → n.Step s (label e) t) {s t : σ} {es : List ε}
    (path : Path m s es t) : Path n s (es.map label) t := by
  induction path with
  | nil s => exact .nil s
  | cons step _ ih => exact .cons (steps step) ih

/-- What simulates one step simulates a run, with the same labels. -/
theorem simulate {τ : Type*} {abstract : System τ ε} {R : σ → τ → Prop}
    (simulated : ∀ {s e t u}, R s u → m.Step s e t → ∃ v, abstract.Step u e v ∧ R t v)
    {s t : σ} {es : List ε} (path : Path m s es t) {u : τ} (initial : R s u) :
    ∃ v, Path abstract u es v ∧ R t v := by
  induction path generalizing u with
  | nil s => exact ⟨u, .nil u, initial⟩
  | cons step _ ih =>
    obtain ⟨mid, first, related⟩ := simulated initial step
    obtain ⟨v, rest, final⟩ := ih related
    exact ⟨v, .cons first rest, final⟩

/-- Every run is observed. -/
theorem observe {κ : Type*} (view : σ → ε → σ → κ) {s t : σ} {es : List ε} (path : Path m s es t) :
    ∃ labels, Path (m.observed view) s labels t ∧ labels.map Prod.fst = es := by
  induction path with
  | nil s => exact ⟨[], .nil s, rfl⟩
  | @cons s mid t e es step _ ih =>
    obtain ⟨labels, rest, same⟩ := ih
    exact ⟨(e, view s e mid) :: labels, .cons ⟨step, rfl⟩ rest, by rw [List.map_cons, same]⟩

/-- What is seen of a run is a run of a system that simulates the steps by what is seen of them. -/
theorem simulate_observed {τ κ : Type*} {n : System τ κ} {R : σ → τ → Prop} {view : σ → ε → σ → κ}
    (simulated : ∀ {s e t u}, R s u → m.Step s e t → ∃ v, n.Step u (view s e t) v ∧ R t v)
    {s t : σ} {labels : List (ε × κ)} (path : Path (m.observed view) s labels t)
    {u : τ} (initial : R s u) :
    ∃ v, Path n u (labels.map Prod.snd) v ∧ R t v := by
  induction path generalizing u with
  | nil s => exact ⟨u, .nil u, initial⟩
  | cons step _ ih =>
    obtain ⟨first, seen⟩ := step
    obtain ⟨mid, here, related⟩ := simulated initial first
    obtain ⟨v, rest, final⟩ := ih related
    exact ⟨v, .cons (seen ▸ here) rest, final⟩

/-- A computed sequence of steps is a run. -/
theorem of_foldlM {step : σ → ε → Option σ} {s t : σ} {es : List ε}
    (folded : es.foldlM step s = some t) :
    Path (ofStep step) s es t := by
  induction es generalizing s with
  | nil =>
    obtain rfl := Option.some.inj folded
    exact .nil s
  | cons e rest ih =>
    obtain ⟨mid, first, others⟩ := Option.bind_eq_some_iff.mp folded
    exact .cons first (ih others)

/-- Computed steps that a view of the state commutes with. -/
theorem foldlM_view {α τ : Type*} {step : σ → α → Option σ} {step' : τ → α → Option τ}
    (view : σ → τ) (commutes : ∀ s a, (step s a).map view = step' (view s) a) (s : σ)
    (as : List α) : (as.foldlM step s).map view = as.foldlM step' (view s) := by
  induction as generalizing s with
  | nil => rfl
  | cons a rest ih =>
    rw [List.foldlM_cons, List.foldlM_cons, ← commutes]
    cases step s a with
    | none => rfl
    | some mid => exact ih mid

/-- What every computed step preserves. -/
theorem foldlM_invariant {α : Type*} {step : σ → α → Option σ} {P : σ → Prop} {as : List α}
    (preserved : ∀ {s a t}, a ∈ as → P s → step s a = some t → P t) {s t : σ} (initial : P s)
    (folded : as.foldlM step s = some t) : P t := by
  induction as generalizing s with
  | nil =>
    obtain rfl := Option.some.inj folded
    exact initial
  | cons a rest ih =>
    obtain ⟨mid, first, others⟩ := Option.bind_eq_some_iff.mp folded
    exact ih (fun member => preserved (List.mem_cons_of_mem a member))
      (preserved List.mem_cons_self initial first) others

/-- A run of a system whose steps another system has too. -/
theorem mono {m' : System σ ε} (steps : ∀ {s e t}, m.Step s e t → m'.Step s e t) {s t : σ}
    {es : List ε} (path : Path m s es t) : Path m' s es t := by
  induction path with
  | nil s => exact .nil s
  | cons step _ ih => exact .cons (steps step) ih

/-- Every run of the restricted system is a run of the system. -/
theorem of_restrict {guard : σ → ε → Prop} {s t : σ} {es : List ε}
    (path : Path (m.restrict guard) s es t) : Path m s es t := by
  induction path with
  | nil s => exact .nil s
  | cons step _ ih => exact .cons step.2 ih

/-- A run all of whose labels meet a condition is a run of the system restricted to it. -/
theorem to_restrict {guard : ε → Prop} {s t : σ} {es : List ε} (path : Path m s es t)
    (meets : ∀ e ∈ es, guard e) : Path (m.restrict fun _ e => guard e) s es t := by
  induction path with
  | nil s => exact .nil s
  | cons step _ ih =>
    obtain ⟨first, rest⟩ := List.forall_mem_cons.mp meets
    exact .cons ⟨first, step⟩ (ih rest)

/-- The run passes through the state. -/
def Visits (m : System σ ε) (s : σ) (es : List ε) (t u : σ) : Prop :=
  ∃ first second, es = first ++ second ∧ Path m s first u ∧ Path m u second t

/-- The run takes the step. -/
def Takes (m : System σ ε) (s : σ) (es : List ε) (t u : σ) (e : ε) (v : σ) : Prop :=
  ∃ first second, es = first ++ e :: second ∧ Path m s first u ∧ m.Step u e v ∧ Path m v second t

theorem Takes.target {s t u v : σ} {es : List ε} {e : ε} (takes : Takes m s es t u e v) :
    Visits m s es t v := by
  obtain ⟨first, second, same, before, step, after⟩ := takes
  refine ⟨first ++ [e], second, ?_, before.snoc step, after⟩
  rw [List.append_assoc, List.singleton_append]
  exact same

theorem Takes.source {s t u v : σ} {es : List ε} {e : ε} (takes : Takes m s es t u e v) :
    Visits m s es t u := by
  obtain ⟨first, second, same, before, step, after⟩ := takes
  exact ⟨first, e :: second, same, before, .cons step after⟩

/-- A run all of whose steps meet a condition is a run of the system restricted to it. -/
theorem restrict_of_takes {guard : σ → ε → Prop} {s t : σ} {es : List ε} (path : Path m s es t)
    (meets : ∀ u e v, Takes m s es t u e v → guard u e) : Path (m.restrict guard) s es t := by
  induction path with
  | nil s => exact .nil s
  | @cons s mid t e es step rest ih =>
    refine .cons ⟨meets s e mid ⟨[], es, rfl, .nil s, step, rest⟩, step⟩ (ih fun u e' v takes => ?_)
    obtain ⟨first, second, same, before, here, after⟩ := takes
    refine meets u e' v ⟨e :: first, second, ?_, .cons step before, here, after⟩
    rw [same, List.cons_append]

/-- What holds initially and is preserved by the steps that meet a condition holds in every state of
a run whose steps meet it. -/
theorem visits_invariant {guard : σ → ε → Prop} {P : σ → Prop} {s t u : σ} {es : List ε}
    (visits : Visits m s es t u) (meets : ∀ u e v, Takes m s es t u e v → guard u e)
    (preserved : ∀ {s e t}, P s → (m.restrict guard).Step s e t → P t) (initial : P s) : P u := by
  obtain ⟨first, second, same, before, after⟩ := visits
  refine (before.restrict_of_takes fun v e w takes => ?_).invariant preserved initial
  obtain ⟨pre, post, split, start, step, rest⟩ := takes
  refine meets v e w ⟨pre, post ++ second, ?_, start, step, rest.append after⟩
  rw [same, split, List.append_assoc, List.cons_append]

/-- A step of a run leads from one state it passes through to another. -/
theorem visits_step {s t : σ} {es : List ε} {e : ε} (path : Path m s es t) (member : e ∈ es) :
    ∃ u v, Visits m s es t u ∧ m.Step u e v ∧ Visits m s es t v := by
  induction path with
  | nil => exact absurd member List.not_mem_nil
  | @cons s mid t first es step rest ih =>
    rcases List.mem_cons.mp member with rfl | later
    · exact ⟨s, mid, ⟨[], _, rfl, .nil s, .cons step rest⟩, step,
        ⟨[e], es, rfl, .cons step (.nil mid), rest⟩⟩
    · obtain ⟨u, v, ⟨pre, post, same, before, after⟩, here,
        ⟨pre', post', same', before', after'⟩⟩ := ih later
      refine ⟨u, v, ⟨first :: pre, post, ?_, .cons step before, after⟩, here,
        ⟨first :: pre', post', ?_, .cons step before', after'⟩⟩
      · rw [same, List.cons_append]
      · rw [same', List.cons_append]

end Path

end System

end OscKernel.Lib
