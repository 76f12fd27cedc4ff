import OscKernel.Model.Vfs

/-! # Pathname lookup composes

One walk along `p/q` is a walk along `p` followed by a walk along `q` from where the first one
ended. The induction is on the text: a round of the main loop consumes one component of `p` and
the slashes behind it, and it consumes exactly those in the longer path too. All equations hold
at every amount of fuel, so that a walk that does not return is matched by one that does not.
-/

namespace OscKernel.Soundness.Lookup

open OscKernel.Model

/-! ## The scanning loops -/

@[simp] theorem skipSlashes_nil : skipSlashes [] = [] := rfl

@[simp] theorem skipSlashes_slash (rest : List UInt8) :
    skipSlashes (slash :: rest) = skipSlashes rest := by
  rw [skipSlashes, if_pos rfl]

theorem skipSlashes_of_ne {c : UInt8} {rest : List UInt8} (notSlash : c ≠ slash) :
    skipSlashes (c :: rest) = c :: rest := by
  rw [skipSlashes, if_neg notSlash]

/-- What is left after skipping never starts with a slash. -/
theorem skipSlashes_head (path : List UInt8) : (skipSlashes path).head? ≠ some slash := by
  induction path with
  | nil => simp
  | cons c rest ih =>
    by_cases same : c = slash
    · subst same
      rwa [skipSlashes_slash]
    · rw [skipSlashes_of_ne same]
      simpa using same

private theorem skipSlashes_replicate (n : ℕ) (path : List UInt8) :
    skipSlashes (List.replicate n slash ++ path) = skipSlashes path := by
  induction n with
  | zero => rfl
  | succ n ih => rw [List.replicate_succ, List.cons_append, skipSlashes_slash, ih]

/-- Skipping stops inside the first path unless that path is all slashes. -/
theorem skipSlashes_append (path rest : List UInt8) :
    skipSlashes (path ++ rest) =
      if skipSlashes path = [] then skipSlashes rest else skipSlashes path ++ rest := by
  induction path with
  | nil => rfl
  | cons c path ih =>
    by_cases same : c = slash
    · subst same
      rw [List.cons_append, skipSlashes_slash, skipSlashes_slash, ih]
    · rw [List.cons_append, skipSlashes_of_ne same, skipSlashes_of_ne same,
        if_neg (List.cons_ne_nil _ _), List.cons_append]

/-- A slash behind the path ends its component where the end of the path would. -/
private theorem scanComponent_append (component path rest : List UInt8) :
    scanComponent component (path ++ slash :: rest) =
      ((scanComponent component path).1, (scanComponent component path).2 ++ slash :: rest) := by
  induction path generalizing component with
  | nil => rw [List.nil_append, scanComponent_slash]; rfl
  | cons c path ih =>
    rw [List.cons_append, scanComponent, scanComponent]
    split_ifs
    · rfl
    · exact ih _
    · exact ih _

/-! ## The main loop -/

/-- Continue a finished walk; an error stays an error. -/
def continueWith (next : VnodeId → Option Outcome) : Outcome → Option Outcome
  | .found vnode => next vnode
  | .error code => some (.error code)

theorem lookupLoop_nil (fs : Vfs) (fuel : ℕ) (vnode : VnodeId) :
    lookupLoop fs fuel [] vnode = some (.found vnode) := by
  rw [lookupLoop]

theorem lookupLoop_cons (fs : Vfs) (fuel : ℕ) {c : UInt8} (rest : List UInt8) (vnode : VnodeId)
    (notSlash : c ≠ slash) :
    lookupLoop fs fuel (c :: rest) vnode =
      (lookupComponent fs fuel vnode (scanComponent [] (c :: rest)).1).bind
        (continueWith (lookupLoop fs fuel (skipSlashes (scanComponent [] (c :: rest)).2))) := by
  rw [lookupLoop, if_neg notSlash]
  dsimp only
  rcases lookupComponent fs fuel vnode (scanComponent [] (c :: rest)).1 with _ | _ | _ <;> rfl

/-- A walk along `path/rest` is a walk along `path` continued along `rest`. -/
theorem lookupLoop_append (fs : Vfs) (fuel : ℕ) (path rest : List UInt8) (vnode : VnodeId)
    (nonempty : path ≠ []) (relative : path.head? ≠ some slash) :
    lookupLoop fs fuel (path ++ slash :: rest) vnode =
      (lookupLoop fs fuel path vnode).bind
      (continueWith (lookupLoop fs fuel (skipSlashes rest))) := by
  match path, nonempty, relative with
  | c :: path, _, relative =>
    have notSlash : c ≠ slash := by simpa using relative
    have shorter := scanComponent_length_lt path notSlash
    rw [List.cons_append, lookupLoop_cons fs fuel _ vnode notSlash, lookupLoop_cons fs fuel _ vnode
      notSlash, ← List.cons_append, scanComponent_append, Option.bind_assoc]
    congr 1
    funext outcome
    cases outcome with
    | error code => rfl
    | found next =>
      simp only [continueWith]
      rw [skipSlashes_append]
      split_ifs with done
      · -- the component was the last one of `path`
        rw [done, lookupLoop_nil, skipSlashes_slash]
        rfl
      · exact lookupLoop_append fs fuel _ rest next done (skipSlashes_head _)
termination_by path.length
decreasing_by
  exact lt_of_le_of_lt (skipSlashes_length_le _) shorter

/-! ## The whole walk -/

theorem vfsLookupFrom_relative (fs : Vfs) (fuel : ℕ) (baseDir : VnodeId) {path : List UInt8}
    (nonempty : path ≠ []) (relative : path.head? ≠ some slash) :
    vfsLookupFrom fs fuel baseDir path = lookupLoop fs fuel path baseDir := by
  cases path with
  | nil => exact absurd rfl nonempty
  | cons c rest => rw [vfsLookupFrom, if_neg (by simpa using relative)]

theorem vfsLookupFrom_absolute (fs : Vfs) (fuel : ℕ) (baseDir : VnodeId) (rest : List UInt8) :
    vfsLookupFrom fs fuel baseDir (slash :: rest) =
      lookupLoop fs fuel (skipSlashes rest) fs.root := by
  rw [vfsLookupFrom, if_pos rfl, skipSlashes_slash]

/-- The composition law at a fixed amount of fuel, for every continuation `rest`. -/
theorem vfsLookupFrom_append (fs : Vfs) (fuel : ℕ) (baseDir : VnodeId) (path rest : List UInt8)
    (nonempty : path ≠ []) :
    vfsLookupFrom fs fuel baseDir (path ++ slash :: rest) =
      (vfsLookupFrom fs fuel baseDir path).bind
      (continueWith (lookupLoop fs fuel (skipSlashes rest))) := by
  by_cases absolute : path.head? = some slash
  · match path, nonempty, absolute with
    | c :: path, _, absolute =>
      obtain rfl : c = slash := by simpa using absolute
      rw [List.cons_append, vfsLookupFrom_absolute, vfsLookupFrom_absolute, skipSlashes_append]
      split_ifs with done
      · rw [done, lookupLoop_nil, skipSlashes_slash]
        rfl
      · exact lookupLoop_append fs fuel _ rest fs.root done (skipSlashes_head _)
  · have relative : (path ++ slash :: rest).head? ≠ some slash := by
      rwa [List.head?_append_of_ne_nil _ nonempty]
    rw [vfsLookupFrom_relative fs fuel baseDir (by simp) relative,
      vfsLookupFrom_relative fs fuel baseDir nonempty absolute,
      lookupLoop_append fs fuel path rest baseDir nonempty absolute]

/-! ## More fuel changes no outcome -/

theorem popMounts_mono (fs : Vfs) {fuel more : ℕ} (le : fuel ≤ more) {vnode target : VnodeId}
    (ends : popMounts fs fuel vnode = some target) : popMounts fs more vnode = some target := by
  induction fuel generalizing more vnode with
  | zero => cases ends
  | succ fuel ih =>
    obtain ⟨more, rfl⟩ : ∃ n, more = n + 1 := ⟨more - 1, by omega⟩
    rw [popMounts] at ends ⊢
    split at ends
    · exact ih (by omega) ends
    · exact ends

theorem crossMounts_mono (fs : Vfs) {fuel more : ℕ} (le : fuel ≤ more) {vnode target : VnodeId}
    (ends : crossMounts fs fuel vnode = some target) : crossMounts fs more vnode = some target := by
  induction fuel generalizing more vnode with
  | zero => cases ends
  | succ fuel ih =>
    obtain ⟨more, rfl⟩ : ∃ n, more = n + 1 := ⟨more - 1, by omega⟩
    rw [crossMounts] at ends ⊢
    split at ends
    · exact ih (by omega) ends
    · exact ends

private theorem lookupParent_mono (fs : Vfs) {fuel more : ℕ} (le : fuel ≤ more)
    {vnode target : VnodeId} (ends : lookupParent fs fuel vnode = some target) :
    lookupParent fs more vnode = some target := by
  rw [lookupParent] at ends ⊢
  split_ifs at ends ⊢ with atRoot
  · exact ends
  · obtain ⟨popped, pops, crosses⟩ := Option.bind_eq_some_iff.mp ends
    exact Option.bind_eq_some_iff.mpr ⟨popped, popMounts_mono fs le pops,
      crossMounts_mono fs le crosses⟩

theorem lookupComponent_mono (fs : Vfs) {fuel more : ℕ} (le : fuel ≤ more) {vnode : VnodeId}
    {component : List UInt8} {outcome : Outcome}
    (ends : lookupComponent fs fuel vnode component = some outcome) :
    lookupComponent fs more vnode component = some outcome := by
  rw [lookupComponent] at ends ⊢
  split_ifs at ends ⊢ with isDot isDotDot
  · exact ends
  · obtain ⟨target, parent, rfl⟩ := Option.map_eq_some_iff.mp ends
    rw [lookupParent_mono fs le parent]
    rfl
  · split at ends
    · exact ends
    · split at ends
      · exact ends
      · obtain ⟨target, crosses, rfl⟩ := Option.map_eq_some_iff.mp ends
        rw [crossMounts_mono fs le crosses]
        rfl

theorem lookupLoop_mono (fs : Vfs) {fuel more : ℕ} (le : fuel ≤ more) (path : List UInt8)
    {vnode : VnodeId} {outcome : Outcome} (ends : lookupLoop fs fuel path vnode = some outcome) :
    lookupLoop fs more path vnode = some outcome := by
  match path with
  | [] => rwa [lookupLoop_nil] at ends ⊢
  | c :: rest =>
    by_cases same : c = slash
    · rwa [lookupLoop, if_pos same] at ends ⊢
    · have shorter := scanComponent_length_lt rest same
      rw [lookupLoop_cons fs _ _ _ same] at ends ⊢
      obtain ⟨middle, component, continued⟩ := Option.bind_eq_some_iff.mp ends
      refine Option.bind_eq_some_iff.mpr ⟨middle, lookupComponent_mono fs le component, ?_⟩
      cases middle with
      | error code => exact continued
      | found next => exact lookupLoop_mono fs le _ continued
termination_by path.length
decreasing_by
  exact lt_of_le_of_lt (skipSlashes_length_le _) shorter

theorem vfsLookupFrom_mono (fs : Vfs) {fuel more : ℕ} (le : fuel ≤ more) {baseDir : VnodeId}
    {path : List UInt8} {outcome : Outcome}
    (ends : vfsLookupFrom fs fuel baseDir path = some outcome) :
    vfsLookupFrom fs more baseDir path = some outcome := by
  rw [vfsLookupFrom.eq_def] at ends ⊢
  split at ends
  · exact ends
  · split_ifs at ends ⊢
    · exact lookupLoop_mono fs le _ ends
    · exact lookupLoop_mono fs le _ ends

/-- A walk has one outcome. -/
theorem Returns.unique {fs : Vfs} {baseDir : VnodeId} {path : List UInt8} {first second : Outcome}
    (left : Returns fs baseDir path first) (right : Returns fs baseDir path second) :
    first = second := by
  obtain ⟨n, left⟩ := left
  obtain ⟨k, right⟩ := right
  have low := vfsLookupFrom_mono fs (Nat.le_max_left n k) left
  have high := vfsLookupFrom_mono fs (Nat.le_max_right n k) right
  exact Option.some.inj (low.symm.trans high)

/-! ## The composition law -/

/-- Where a walk along `path` returns, the outcome along `path/rest` is its continuation. -/
theorem returns_append_iff {fs : Vfs} {baseDir : VnodeId} {path rest : List UInt8}
    (nonempty : path ≠ []) {middle : Outcome}
    (first : Returns fs baseDir path middle) (outcome : Outcome) :
    Returns fs baseDir (path ++ slash :: rest) outcome ↔
      ∃ fuel, continueWith (lookupLoop fs fuel (skipSlashes rest)) middle = some outcome := by
  obtain ⟨n, first⟩ := first
  constructor
  · rintro ⟨k, whole⟩
    have grown := vfsLookupFrom_mono fs (Nat.le_max_left k n) whole
    rw [vfsLookupFrom_append fs _ _ _ _ nonempty,
      vfsLookupFrom_mono fs (Nat.le_max_right k n) first] at grown
    exact ⟨max k n, grown⟩
  · rintro ⟨k, continued⟩
    refine ⟨max k n, ?_⟩
    rw [vfsLookupFrom_append fs _ _ _ _ nonempty,
      vfsLookupFrom_mono fs (Nat.le_max_right k n) first, Option.bind_some]
    cases middle with
    | error code => exact continued
    | found next => exact lookupLoop_mono fs (Nat.le_max_left k n) _ continued

/-- Two continuations that agree from every vnode give paths with the same outcomes. -/
theorem returns_congr {fs : Vfs} {baseDir : VnodeId} {path left right : List UInt8}
    (nonempty : path ≠ []) (same : ∀ fuel vnode, lookupLoop fs fuel (skipSlashes left) vnode =
      lookupLoop fs fuel (skipSlashes right) vnode) (outcome : Outcome) :
    Returns fs baseDir (path ++ slash :: left) outcome ↔
      Returns fs baseDir (path ++ slash :: right) outcome := by
  have agree (fuel : ℕ) : lookupLoop fs fuel (skipSlashes left) =
      lookupLoop fs fuel (skipSlashes right) :=
    funext (same fuel)
  simp only [Returns, vfsLookupFrom_append fs _ _ _ _ nonempty, agree]

/-- A component `.` leaves the walk where it is. -/
private theorem lookupLoop_dot (fs : Vfs) (fuel : ℕ) (rest : List UInt8) (vnode : VnodeId) :
    lookupLoop fs fuel (dot :: slash :: rest) vnode =
      lookupLoop fs fuel (skipSlashes rest) vnode := by
  have scanned : scanComponent [] (dot :: slash :: rest) = ([dot], slash :: rest) := by
    rw [scanComponent, if_neg (by decide), if_pos (by decide), List.nil_append, scanComponent_slash]
  have stays : lookupComponent fs fuel vnode [dot] = some (.found vnode) := if_pos (by decide)
  rw [lookupLoop_cons fs fuel _ vnode (by decide), scanned, skipSlashes_slash, stays]
  rfl

/-- Looking up `p/q` is looking up `p` and then `q`: the same vnode, the same code, or no return;
an error along `p` is the error along `p/q`. Runs of slashes count as one, and a `.` component is
a no-op. -/
theorem vfsLookupFrom_compose (fs : Vfs) (baseDir : VnodeId) (p q : List UInt8) (pNonempty : p ≠ [])
    (qNonempty : q ≠ []) (qRelative : q.head? ≠ some slash) (middle : Outcome)
    (first : Returns fs baseDir p middle) :
    (∀ v, middle = .found v → ∀ outcome,
      Returns fs baseDir (p ++ [slash] ++ q) outcome ↔ Returns fs v q outcome) ∧
    (∀ code, middle = .error code → ∀ outcome,
      Returns fs baseDir (p ++ [slash] ++ q) outcome ↔ outcome = .error code) ∧
    (∀ n outcome, Returns fs baseDir (p ++ List.replicate (n + 1) slash ++ q) outcome ↔
      Returns fs baseDir (p ++ [slash] ++ q) outcome) ∧
    (∀ outcome, Returns fs baseDir (p ++ [slash, dot, slash] ++ q) outcome ↔
      Returns fs baseDir (p ++ [slash] ++ q) outcome) := by
  have skip : skipSlashes q = q := by
    cases q with
    | nil => exact absurd rfl qNonempty
    | cons c rest => exact skipSlashes_of_ne (by simpa using qRelative)
  simp only [List.append_assoc, List.cons_append, List.nil_append]
  refine ⟨?_, ?_, ?_, ?_⟩
  · rintro v rfl outcome
    rw [returns_append_iff pNonempty first, skip]
    simp only [Returns, continueWith, vfsLookupFrom_relative fs _ v qNonempty qRelative]
  · rintro code rfl outcome
    rw [returns_append_iff pNonempty first]
    simp only [continueWith, exists_const, Option.some.injEq, eq_comm]
  · intro n outcome
    rw [List.replicate_succ, List.cons_append]
    exact returns_congr pNonempty (fun fuel v => by rw [skipSlashes_replicate]) outcome
  · intro outcome
    refine returns_congr pNonempty (fun fuel v => ?_) outcome
    rw [skipSlashes_of_ne (by decide), lookupLoop_dot]

/-! ## A single component -/

theorem scanComponent_length {component : List UInt8} (path : List UInt8)
    (short : component.length < maxName) : (scanComponent component path).1.length < maxName := by
  induction path generalizing component with
  | nil => exact short
  | cons c rest ih =>
    rw [scanComponent]
    split
    · exact short
    · apply ih
      split
      · rw [List.length_append, List.length_singleton]
        omega
      · exact short

private theorem scanComponent_of_notMem {component path : List UInt8}
    (short : component.length ≤ maxName - 1) (noSlash : slash ∉ path) :
    scanComponent component path =
      (component ++ path.take (maxName - 1 - component.length), []) := by
  induction path generalizing component with
  | nil => simp [scanComponent]
  | cons c rest ih =>
    have notHere := List.ne_of_not_mem_cons noSlash
    have notLater := List.not_mem_of_not_mem_cons noSlash
    rw [scanComponent, if_neg notHere.symm]
    split_ifs with room
    · have length : (component ++ [c]).length = component.length + 1 := by simp
      obtain ⟨left, more⟩ : ∃ left, maxName - 1 - component.length = left + 1 :=
        ⟨maxName - 1 - component.length - 1, by omega⟩
      rw [ih (by omega) notLater, length, more, List.take_succ_cons, List.append_assoc,
        List.singleton_append, show maxName - 1 - (component.length + 1) = left by omega]
    · rw [ih short notLater, show maxName - 1 - component.length = 0 by omega]
      simp

/-- A path without a slash is one component, cut to what fits. -/
theorem vfsLookupFrom_component (fs : Vfs) (fuel : ℕ) (baseDir : VnodeId) {name : List UInt8}
    (nonempty : name ≠ []) (noSlash : slash ∉ name) :
    vfsLookupFrom fs fuel baseDir name =
      lookupComponent fs fuel baseDir (name.take (maxName - 1)) := by
  have scanned : scanComponent [] name = (name.take (maxName - 1), []) :=
    scanComponent_of_notMem (Nat.zero_le (maxName - 1)) noSlash
  have relative : name.head? ≠ some slash := fun head => noSlash (List.mem_of_mem_head? head)
  rw [vfsLookupFrom_relative fs fuel baseDir nonempty relative]
  cases name with
  | nil => exact absurd rfl nonempty
  | cons c rest =>
    rw [lookupLoop_cons fs fuel rest baseDir (by simpa using relative), scanned]
    cases lookupComponent fs fuel baseDir ((c :: rest).take (maxName - 1)) with
    | none => rfl
    | some outcome =>
      cases outcome with
      | error code => rfl
      | found next => exact lookupLoop_nil fs fuel next

/-! ## The one error code -/

theorem driverLookup_code {fs : Vfs} {dir : VnodeId} {name : List UInt8} {code : ℤ}
    (missing : driverLookup fs dir name = .error code) : code = -1 := by
  rw [driverLookup] at missing
  split at missing
  · exact (Outcome.error.inj missing).symm
  · split at missing
    · simp at missing
    · exact (Outcome.error.inj missing).symm

private theorem lookupComponent_code {fs : Vfs} {fuel : ℕ} {vnode : VnodeId}
    {component : List UInt8} {code : ℤ}
    (ends : lookupComponent fs fuel vnode component = some (.error code)) :
    code = -1 := by
  rw [lookupComponent] at ends
  split at ends
  · simp at ends
  split at ends
  · simp at ends
  split at ends
  · exact (Outcome.error.inj (Option.some.inj ends)).symm
  rename_i ops _
  split at ends
  · rename_i code' missing
    obtain rfl := Outcome.error.inj (Option.some.inj ends)
    cases ops <;> exact driverLookup_code missing
  · simp at ends

theorem lookupLoop_code {fs : Vfs} {fuel : ℕ} (path : List UInt8) {vnode : VnodeId} {code : ℤ}
    (ends : lookupLoop fs fuel path vnode = some (.error code)) : code = -1 := by
  match path with
  | [] => simp [lookupLoop_nil] at ends
  | c :: rest =>
    by_cases same : c = slash
    · rw [lookupLoop, if_pos same] at ends
      simp at ends
    · have shorter := scanComponent_length_lt rest same
      rw [lookupLoop_cons fs _ _ _ same] at ends
      obtain ⟨middle, component, continued⟩ := Option.bind_eq_some_iff.mp ends
      cases middle with
      | error code' =>
        obtain rfl := Outcome.error.inj (Option.some.inj continued)
        exact lookupComponent_code component
      | found next => exact lookupLoop_code _ continued
termination_by path.length
decreasing_by
  exact lt_of_le_of_lt (skipSlashes_length_le _) shorter

theorem vfsLookupFrom_code {fs : Vfs} {fuel : ℕ} {baseDir : VnodeId} {path : List UInt8} {code : ℤ}
    (ends : vfsLookupFrom fs fuel baseDir path = some (.error code)) : code = -1 := by
  rw [vfsLookupFrom.eq_def] at ends
  split at ends
  · exact (Outcome.error.inj (Option.some.inj ends)).symm
  · split at ends
    · exact lookupLoop_code _ ends
    · exact lookupLoop_code _ ends

/-! ## The walk along a list of components -/

/-- The components of a path, as far as each fits. -/
def components : List UInt8 → List (List UInt8)
  | [] => []
  | c :: rest =>
    if c = slash then []
    else (scanComponent [] (c :: rest)).1 ::
      components (skipSlashes (scanComponent [] (c :: rest)).2)
termination_by path => path.length
decreasing_by
  exact lt_of_le_of_lt (skipSlashes_length_le _) (scanComponent_length_lt _ ‹_›)

def walk (fs : Vfs) (fuel : ℕ) : List (List UInt8) → VnodeId → Option Outcome
  | [], vnode => some (.found vnode)
  | component :: rest, vnode =>
    (lookupComponent fs fuel vnode component).bind (continueWith (walk fs fuel rest))

theorem lookupLoop_eq_walk (fs : Vfs) (fuel : ℕ) (path : List UInt8) :
    lookupLoop fs fuel path = walk fs fuel (components path) := by
  funext vnode
  match path with
  | [] => rw [lookupLoop_nil, components, walk]
  | c :: rest =>
    by_cases same : c = slash
    · rw [lookupLoop, if_pos same, components, if_pos same, walk]
    · have shorter := scanComponent_length_lt rest same
      rw [lookupLoop_cons fs fuel rest vnode same, components, if_neg same,
        walk, lookupLoop_eq_walk]
termination_by path.length
decreasing_by
  exact lt_of_le_of_lt (skipSlashes_length_le _) shorter

/-- Where the walk along a path starts. -/
def start (fs : Vfs) (baseDir : VnodeId) (path : List UInt8) : VnodeId :=
  if path.head? = some slash then fs.root else baseDir

theorem vfsLookupFrom_eq_walk (fs : Vfs) (fuel : ℕ) (baseDir : VnodeId)
    {path : List UInt8} (nonempty : path ≠ []) :
    vfsLookupFrom fs fuel baseDir path =
      walk fs fuel (components (skipSlashes path)) (start fs baseDir path) := by
  cases path with
  | nil => exact absurd rfl nonempty
  | cons c rest =>
    by_cases absolute : c = slash
    · have head : (c :: rest).head? = some slash := congrArg some absolute
      rw [vfsLookupFrom, if_pos absolute, start, if_pos head, lookupLoop_eq_walk]
    · have relative : (c :: rest).head? ≠ some slash := fun head => absolute (Option.some.inj head)
      rw [vfsLookupFrom, if_neg absolute, start, if_neg relative,
        skipSlashes_of_ne absolute, lookupLoop_eq_walk]

theorem components_short {path component : List UInt8} (member : component ∈ components path) :
    component.length < maxName := by
  fun_induction components path with
  | case1 => exact absurd member List.not_mem_nil
  | case2 => exact absurd member List.not_mem_nil
  | case3 c rest notSlash ih =>
    obtain rfl | later := List.mem_cons.mp member
    · exact scanComponent_length (c :: rest) (show ([] : List UInt8).length < maxName by decide)
    · exact ih later

/-! ## Where a walk can end -/

/-- A set of vnodes that no step of the walk leaves. -/
structure Closed (fs : Vfs) (known : VnodeId → Prop) : Prop where
  root : known fs.root
  child : ∀ {dir name child}, known dir → name.length < maxName →
    driverLookup fs dir name = .found child → known child
  crossed : ∀ {vnode m}, known vnode → (fs.vnodes vnode).mount = some m → known (fs.mounts m).root
  popped : ∀ {m}, m ∈ fs.activeMounts → known (fs.mounts m).mountpoint
  parent : ∀ {vnode p}, known vnode → (fs.vnodes vnode).parent = some p → known p

namespace Closed

variable {fs : Vfs} {known : VnodeId → Prop}

theorem crossMounts (closed : Closed fs known) {fuel : ℕ} {vnode target : VnodeId}
    (start : known vnode) (ends : Model.crossMounts fs fuel vnode = some target) :
    known target := by
  induction fuel generalizing vnode with
  | zero => cases ends
  | succ fuel ih =>
    rw [Model.crossMounts] at ends
    split at ends
    · rename_i m mounted
      exact ih (closed.crossed start mounted) ends
    · exact Option.some.inj ends ▸ start

theorem popMounts (closed : Closed fs known) {fuel : ℕ} {vnode target : VnodeId}
    (start : known vnode) (ends : Model.popMounts fs fuel vnode = some target) : known target := by
  induction fuel generalizing vnode with
  | zero => cases ends
  | succ fuel ih =>
    rw [Model.popMounts] at ends
    split at ends
    · rename_i m active
      exact ih (closed.popped (List.mem_of_find?_eq_some active)) ends
    · exact Option.some.inj ends ▸ start

theorem lookupParent (closed : Closed fs known) {fuel : ℕ} {vnode target : VnodeId}
    (start : known vnode) (ends : Model.lookupParent fs fuel vnode = some target) :
    known target := by
  rw [Model.lookupParent] at ends
  split at ends
  · exact Option.some.inj ends ▸ start
  · obtain ⟨popped, pops, crosses⟩ := Option.bind_eq_some_iff.mp ends
    have inside := closed.popMounts start pops
    refine closed.crossMounts ?_ crosses
    split
    · cases above : (fs.vnodes popped).parent with
      | none => exact inside
      | some p => exact closed.parent inside above
    · exact inside

theorem lookupComponent (closed : Closed fs known) {fuel : ℕ} {vnode target : VnodeId}
    {component : List UInt8} (start : known vnode) (short : component.length < maxName)
    (ends : Model.lookupComponent fs fuel vnode component = some (.found target)) :
    known target := by
  rw [Model.lookupComponent] at ends
  split at ends
  · exact Outcome.found.inj (Option.some.inj ends) ▸ start
  split at ends
  · obtain ⟨above, parent, same⟩ := Option.map_eq_some_iff.mp ends
    exact Outcome.found.inj same ▸ closed.lookupParent start parent
  split at ends
  · simp at ends
  rename_i ops _
  split at ends
  · simp at ends
  rename_i next found
  obtain ⟨crossed, crosses, same⟩ := Option.map_eq_some_iff.mp ends
  have below : known next := by
    cases ops <;> exact closed.child start short found
  exact Outcome.found.inj same ▸ closed.crossMounts below crosses

theorem lookupLoop (closed : Closed fs known) {fuel : ℕ} (path : List UInt8)
    {vnode target : VnodeId} (start : known vnode)
    (ends : Model.lookupLoop fs fuel path vnode = some (.found target)) : known target := by
  match path with
  | [] =>
    rw [lookupLoop_nil] at ends
    exact Outcome.found.inj (Option.some.inj ends) ▸ start
  | c :: rest =>
    by_cases same : c = slash
    · rw [Model.lookupLoop, if_pos same] at ends
      exact Outcome.found.inj (Option.some.inj ends) ▸ start
    · have shorter := scanComponent_length_lt rest same
      rw [lookupLoop_cons fs _ _ _ same] at ends
      obtain ⟨middle, component, continued⟩ := Option.bind_eq_some_iff.mp ends
      cases middle with
      | error code => simp [continueWith] at continued
      | found next =>
        exact closed.lookupLoop _
          (closed.lookupComponent start (scanComponent_length _ (by decide)) component) continued
termination_by path.length
decreasing_by
  exact lt_of_le_of_lt (skipSlashes_length_le _) shorter

/-- A walk from a known vnode ends at a known vnode. -/
theorem vfsLookupFrom (closed : Closed fs known) {fuel : ℕ} {path : List UInt8}
    {baseDir target : VnodeId} (start : known baseDir)
    (ends : Model.vfsLookupFrom fs fuel baseDir path = some (.found target)) : known target := by
  rw [vfsLookupFrom.eq_def] at ends
  split at ends
  · simp at ends
  · split at ends
    · exact closed.lookupLoop _ closed.root ends
    · exact closed.lookupLoop _ start ends

end Closed

/-- A root directory (vnode 0) with one subdirectory `a` (vnode 1), all of it tmpfs. -/
def smallTree : Vfs where
  vnodes v := ⟨none, some .tmpfs, some .tmpfs, some 0, .dir, v⟩
  nodes n :=
    { name := if n = 1 then [97, 0] else []
      type := .dir
      size := 0
      data := fun _ => 0
      entries := fun i => if n = 0 ∧ i.val = 0 then some 1 else none }
  mounts _ := ⟨0, 0⟩
  rootfs := 0
  activeMounts := [0]

theorem vfsLookupFrom_compose_smallTree :
    Returns smallTree 0 ([97] ++ [slash] ++ [dot, dot]) (.found 0) := by
  have first : Returns smallTree 0 [97] (.found 1) := by
    have component : lookupComponent smallTree 1 0 [97] = some (.found 1) := by decide
    refine ⟨1, ?_⟩
    rw [vfsLookupFrom_relative _ _ _ (by decide) (by decide), lookupLoop_cons _ _ _ _ (by decide)]
    change (lookupComponent smallTree 1 0 [97]).bind _ = _
    rw [component]
    exact lookupLoop_nil _ _ _
  have second : Returns smallTree 1 [dot, dot] (.found 0) := by
    have component : lookupComponent smallTree 1 1 [dot, dot] = some (.found 0) := by decide
    refine ⟨1, ?_⟩
    rw [vfsLookupFrom_relative _ _ _ (by decide) (by decide), lookupLoop_cons _ _ _ _ (by decide)]
    change (lookupComponent smallTree 1 1 [dot, dot]).bind _ = _
    rw [component]
    exact lookupLoop_nil _ _ _
  exact ((vfsLookupFrom_compose smallTree 0 [97] [dot, dot] (by decide)
    (by decide) (by decide) _ first).1
    1 rfl (.found 0)).mpr second

end OscKernel.Soundness.Lookup
