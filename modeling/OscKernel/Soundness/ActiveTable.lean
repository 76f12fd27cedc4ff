import OscKernel.Lib.System
import OscKernel.Model.ActiveTable
import OscKernel.Soundness.PageWalks

/-! # The active table

`active_user_pgd` names the table of the current process wherever another task can be switched to:
`schedule` sets it for the task it chooses, and the other writers set it for the current task,
except `create_user_process`, which only the shell calls. So a `pagewalk` that was interrupted after
it read the global goes on in its own table. Between the write of `schedule` and `switch_to` the
global is already that of the next task.
-/

namespace OscKernel.Soundness.ActiveTable

open OscKernel.Lib OscKernel.Model OscKernel.Model.ActiveTable

def transitions : System ActiveTable ActiveTable.Event := .ofStep step

/-- In a call that maps pages for its own process. -/
def Maps : TablePc → Prop
  | .assigning _ _ _ | .loading _ _ _ | .walking _ _ _ _ => True
  | _ => False

/-- In `create_user_process`. -/
def Creates : TablePc → Prop
  | .creating _ | .starting _ => True
  | _ => False

/-- The task that is made and is not on the run queue yet. -/
def made : TablePc → Option ℕ
  | .creating child | .starting child | .forking child => some child
  | _ => none

/-- A `pagewalk` for a user address goes on in this table. -/
def WalksIn (va : Word) : TablePc → Prop
  | .walking _ pgdBase request _ => request.va < pageOffset → pgdBase = va
  | _ => True

structure Sound (s : ActiveTable) : Prop where
  active : s.switching = none → s.User s.current → s.activeUserPgd = s.pgd s.current
  target : ∀ {next}, s.switching = some next → s.activeUserPgd = s.pgd next ∧ next ∈ s.runQueue
  walks : ∀ task, WalksIn (s.pgd task) (s.pc task)
  maps : ∀ task, Maps (s.pc task) → s.User task
  creates : ∀ task, Creates (s.pc task) → ¬ s.User task
  making : ∀ {task child}, made (s.pc task) = some child → child ∈ s.live ∧
    child ∉ s.runQueue ∧ child ∉ s.zombieQueue
  maker : ∀ {task other child}, made (s.pc task) = some child →
    made (s.pc other) = some child → task = other
  distinct : ∀ {a b}, a ∈ s.live → b ∈ s.live → s.User a → s.pgd a = s.pgd b → a = b
  nodup : s.runQueue.Nodup
  queued : ∀ task ∈ s.runQueue, task ∈ s.live ∧ task ∉ s.zombieQueue
  zombies : ∀ task ∈ s.zombieQueue, task ∈ s.live
  running : s.current ∈ s.live ∧ (s.current ∈ s.runQueue ∨ s.pc s.current = .exited)

theorem sound_boot (kernelPgd : Word) (tables : Word → Pgd) : Sound (boot kernelPgd tables) where
  active := fun _ user => absurd rfl user
  target := nofun
  walks := fun _ => trivial
  maps := fun _ => False.elim
  creates := fun _ => False.elim
  making := nofun
  maker := nofun
  distinct := fun _ _ user => absurd rfl user
  nodup := by simp [boot]
  queued := by simp [boot]
  zombies := nofun
  running := by simp [boot]

/-! ## Moving on -/

section Moves

variable {s t : ActiveTable}

/-- A task that is idle or in a call is on the run queue. -/
theorem Sound.inQueue (sound : Sound s) (busy : s.pc s.current ≠ .exited) :
    s.current ∈ s.runQueue :=
  sound.running.2.resolve_right busy

/-- The current task may go on with this. -/
structure Allowed (s : ActiveTable) (pc : TablePc) : Prop where
  walks : WalksIn (s.pgd s.current) pc
  maps : Maps pc → s.User s.current
  creates : Creates pc → ¬ s.User s.current
  making : ∀ {child}, made pc = some child →
    (child ∈ s.live ∧ child ∉ s.runQueue ∧ child ∉ s.zombieQueue) ∧
    ∀ other ≠ s.current, made (s.pc other) ≠ some child
  running : s.current ∈ s.runQueue ∨ pc = .exited

theorem goto_pc (s : ActiveTable) (pc : TablePc) (task : ℕ) :
    (s.goto pc).pc task = if task = s.current then pc else s.pc task :=
  Function.update_apply _ _ _ _

theorem Sound.goto (sound : Sound s) {pc : TablePc} (allowed : Allowed s pc) :
    Sound (s.goto pc) := by
  obtain ⟨active, target, walks, maps, creates, making, maker, distinct, nodup, queued,
      zombies, running⟩ := sound
  refine ⟨active, target, fun task => ?_, fun task => ?_, fun task => ?_, fun {task child} => ?_,
    fun {task other child} => ?_, distinct, nodup, queued, zombies, running.1, ?_⟩
  · rw [goto_pc]
    split
    · rename_i here
      subst here
      exact allowed.walks
    · exact walks task
  · rw [goto_pc]
    split
    · rename_i here
      subst here
      exact allowed.maps
    · exact maps task
  · rw [goto_pc]
    split
    · rename_i here
      subst here
      exact allowed.creates
    · exact creates task
  · rw [goto_pc]
    split
    · exact fun makes => (allowed.making makes).1
    · exact making
  · rw [goto_pc, goto_pc]
    split
    · rename_i here
      split
      · rename_i there
        exact fun _ _ => here.trans there.symm
      · rename_i elsewhere
        exact fun makes also => absurd also ((allowed.making makes).2 other elsewhere)
    · rename_i elsewhere
      split
      · exact fun makes also => absurd makes ((allowed.making also).2 task elsewhere)
      · exact maker
  · exact allowed.running.imp id fun last =>
      (goto_pc s pc s.current).trans ((if_pos rfl).trans last)

/-- Nothing but the tables changes. -/
theorem Sound.setTable (sound : Sound s) (va : Word) (table : Pgd) : Sound (s.setTable va table) :=
  ⟨sound.active, sound.target, sound.walks, sound.maps, sound.creates, sound.making, sound.maker,
    sound.distinct, sound.nodup, sound.queued, sound.zombies, sound.running⟩

/-! ## Switching -/

/-- The global, the choice of `schedule` and the current task are changed, and the tasks are as they
were. -/
private theorem Sound.processor (sound : Sound s) {va : Word} {current : ℕ} {switching : Option ℕ}
    (active : switching = none → s.User current → va = s.pgd current)
    (target : ∀ {next}, switching = some next → va = s.pgd next ∧ next ∈ s.runQueue)
    (running : current ∈ s.live ∧ (current ∈ s.runQueue ∨ s.pc current = .exited)) :
    Sound { s with activeUserPgd := va, current := current, switching := switching } :=
  ⟨active, target, sound.walks, sound.maps, sound.creates, sound.making, sound.maker,
    sound.distinct, sound.nodup, sound.queued, sound.zombies, running⟩

/-- The queues are changed, and tasks are freed. -/
private theorem Sound.queues (sound : Sound s) {live : Finset ℕ} {runQueue zombieQueue : List ℕ}
    (kept : live ⊆ s.live) (target : ∀ next, s.switching = some next → next ∈ runQueue)
    (making : ∀ task child, made (s.pc task) = some child → child ∈ live ∧ child ∉ runQueue ∧
      child ∉ zombieQueue) (nodup : runQueue.Nodup)
    (queued : ∀ task ∈ runQueue, task ∈ live ∧ task ∉ zombieQueue)
    (zombies : ∀ task ∈ zombieQueue, task ∈ live)
    (running : s.current ∈ live ∧ (s.current ∈ runQueue ∨ s.pc s.current = .exited)) :
    Sound { s with live := live, runQueue := runQueue, zombieQueue := zombieQueue } :=
  ⟨sound.active, fun choice => ⟨(sound.target choice).1, target _ choice⟩, sound.walks, sound.maps,
    sound.creates, making _ _, sound.maker,
    fun liveA liveB => sound.distinct (kept liveA) (kept liveB), nodup, queued, zombies, running⟩

theorem Sound.turn (sound : Sound s) {queue : List ℕ} (same : queue.Perm s.runQueue) :
    Sound { s with runQueue := queue } := by
  refine sound.queues (Finset.Subset.refl _) (fun next choice => ?_) (fun task child makes => ?_)
    (same.nodup_iff.mpr sound.nodup) (fun task member => ?_) sound.zombies ?_
  · exact same.mem_iff.mpr (sound.target choice).2
  · obtain ⟨live, queue, zombie⟩ := sound.making makes
    exact ⟨live, fun member => queue (same.mem_iff.mp member), zombie⟩
  · exact sound.queued task (same.mem_iff.mp member)
  · exact ⟨sound.running.1, sound.running.2.imp_left same.mem_iff.mpr⟩

/-- The write of `schedule`. -/
theorem Sound.choose (sound : Sound s) {next : ℕ} (inQueue : next ∈ s.runQueue) :
    Sound { s with activeUserPgd := s.pgd next, switching := some next } := by
  refine sound.processor nofun (fun {other} choice => ?_) sound.running
  obtain rfl := Option.some.inj choice
  exact ⟨rfl, inQueue⟩

theorem Sound.schedule (sound : Sound s) : Sound s.schedule := by
  rw [ActiveTable.schedule]
  cases queue : s.runQueue with
  | nil => exact sound
  | cons head rest =>
    dsimp only
    have same : (if s.current = head then rest ++ [head] else head :: rest).Perm s.runQueue := by
      rw [queue]
      split
      · exact List.perm_append_singleton head rest
      · exact .refl _
    generalize (if s.current = head then rest ++ [head] else head :: rest) = turned at same ⊢
    have moved := sound.turn same
    cases turned with
    | nil => exact sound
    | cons next others =>
      dsimp only
      split
      · exact moved
      · exact moved.choose List.mem_cons_self

theorem Sound.switchTo (sound : Sound s) {next : ℕ} (choice : s.switching = some next) :
    Sound { s with current := next, switching := none } := by
  obtain ⟨active, inQueue⟩ := sound.target choice
  exact sound.processor (fun _ _ => active) nofun ⟨(sound.queued next inQueue).1, .inl inQueue⟩

/-- A write of the global for the current task, or by a task without a table of its own. -/
theorem Sound.assign (sound : Sound s) (here : s.switching = none) {va : Word}
    (own : s.User s.current → va = s.pgd s.current) : Sound { s with activeUserPgd := va } :=
  sound.processor (fun _ => own)
    (fun choice => absurd (here.symm.trans choice) (by simp)) sound.running

/-! ## New tasks and old ones -/

theorem addTask_pgd {task child : ℕ} (va : Word) (different : task ≠ child) :
    (s.addTask child va).pgd task = s.pgd task :=
  Function.update_of_ne different _ _

theorem addTask_pc {task child : ℕ} (va : Word) (different : task ≠ child) :
    (s.addTask child va).pc task = s.pc task :=
  Function.update_of_ne different _ _

/-- A new task comes into being with a table that no other has. -/
theorem Sound.addTask (sound : Sound s) (here : s.switching = none) {child : ℕ} {va : Word}
    (new : child ∉ s.live) (unused : s.Unused va) : Sound (s.addTask child va) := by
  have current : s.current ≠ child := fun same => new (same ▸ sound.running.1)
  have childPc : (s.addTask child va).pc child = .idle := Function.update_self _ _ _
  have old : ∀ {task makes}, made ((s.addTask child va).pc task) = some makes → task ≠ child := by
    rintro task makes makesOne rfl
    rw [childPc] at makesOne
    cases makesOne
  refine ⟨fun _ user => ?_, fun choice => absurd (here.symm.trans choice) (by simp), fun task => ?_,
    fun task => ?_, fun task => ?_, fun {task makes} makesOne => ?_,
    fun {task other makes} makesOne alsoMakes => ?_, fun {a b} liveA liveB user same => ?_,
    sound.nodup, fun task member => ?_,
    fun task member => Finset.mem_insert_of_mem (sound.zombies task member), ?_⟩
  · change s.activeUserPgd = (s.addTask child va).pgd s.current
    change (s.addTask child va).pgd s.current ≠ s.kernelPgd at user
    rw [addTask_pgd va current] at user ⊢
    exact sound.active here user
  · rcases eq_or_ne task child with rfl | different
    · rw [childPc]
      trivial
    · rw [addTask_pgd va different, addTask_pc va different]
      exact sound.walks task
  · rcases eq_or_ne task child with rfl | different
    · rw [childPc]
      exact False.elim
    · rw [addTask_pc va different, User, addTask_pgd va different]
      exact sound.maps task
  · rcases eq_or_ne task child with rfl | different
    · rw [childPc]
      exact False.elim
    · rw [addTask_pc va different, User, addTask_pgd va different]
      exact sound.creates task
  · rw [addTask_pc va (old makesOne)] at makesOne
    obtain ⟨live, queue, zombie⟩ := sound.making makesOne
    exact ⟨Finset.mem_insert_of_mem live, queue, zombie⟩
  · rw [addTask_pc va (old makesOne)] at makesOne
    rw [addTask_pc va (old alsoMakes)] at alsoMakes
    exact sound.maker makesOne alsoMakes
  · have fresh : (s.addTask child va).pgd child = va := Function.update_self _ _ _
    rcases Finset.mem_insert.mp liveA with rfl | oldA
    · rcases Finset.mem_insert.mp liveB with rfl | oldB
      · rfl
      · have different : b ≠ a := fun equal => new (equal ▸ oldB)
        rw [fresh, addTask_pgd va different] at same
        exact absurd same.symm (unused.2 b oldB)
    · have differentA : a ≠ child := fun equal => new (equal ▸ oldA)
      rcases Finset.mem_insert.mp liveB with rfl | oldB
      · rw [fresh, addTask_pgd va differentA] at same
        exact absurd same (unused.2 a oldA)
      · have differentB : b ≠ child := fun equal => new (equal ▸ oldB)
        rw [User, addTask_pgd va differentA] at user
        rw [addTask_pgd va differentA, addTask_pgd va differentB] at same
        exact sound.distinct oldA oldB user same
  · obtain ⟨live, zombie⟩ := sound.queued task member
    exact ⟨Finset.mem_insert_of_mem live, zombie⟩
  · refine ⟨Finset.mem_insert_of_mem sound.running.1, ?_⟩
    change s.current ∈ s.runQueue ∨ (s.addTask child va).pc s.current = .exited
    rw [addTask_pc va current]
    exact sound.running.2

theorem addTask_user (sound : Sound s) {child : ℕ} (new : child ∉ s.live) (va : Word) :
    (s.addTask child va).User s.current ↔ s.User s.current := by
  have current : s.current ≠ child := fun same => new (same ▸ sound.running.1)
  rw [User, addTask_pgd va current]
  rfl

/-- A new task is on no queue, and nobody else is making it. -/
theorem Sound.making_new (sound : Sound s) {child : ℕ} (new : child ∉ s.live) (va : Word) :
    (child ∈ (s.addTask child va).live ∧ child ∉ s.runQueue ∧ child ∉ s.zombieQueue) ∧
      ∀ other ≠ s.current, made ((s.addTask child va).pc other) ≠ some child := by
  refine ⟨⟨Finset.mem_insert_self child _, fun member => new (sound.queued child member).1,
    fun member => new (sound.zombies child member)⟩, fun other _ makes => ?_⟩
  rcases eq_or_ne other child with rfl | different
  · rw [show (s.addTask other va).pc other = .idle from Function.update_self _ _ _] at makes
    cases makes
  · rw [addTask_pc va different] at makes
    exact new (sound.making makes).1

/-- A made task that its maker is done with is put on the run queue. -/
theorem Sound.enqueue (sound : Sound s) {child : ℕ} (live : child ∈ s.live)
    (absent : child ∉ s.runQueue) (notZombie : child ∉ s.zombieQueue)
    (unmade : ∀ task, made (s.pc task) ≠ some child) :
    Sound { s with runQueue := s.runQueue ++ [child] } := by
  refine sound.queues (Finset.Subset.refl _) (fun next choice => ?_) (fun task other makes => ?_) ?_
    (fun task member => ?_) sound.zombies ?_
  · exact List.mem_append_left _ (sound.target choice).2
  · obtain ⟨inUse, queue, zombie⟩ := sound.making makes
    refine ⟨inUse, fun member => ?_, zombie⟩
    rcases List.mem_append.mp member with old | last
    · exact queue old
    · obtain rfl := List.mem_singleton.mp last
      exact unmade task makes
  · refine List.nodup_append.mpr ⟨sound.nodup, List.nodup_singleton child,
      fun a old b last same => ?_⟩
    obtain rfl := List.mem_singleton.mp last
    exact absent (same ▸ old)
  · rcases List.mem_append.mp member with old | last
    · exact sound.queued task old
    · obtain rfl := List.mem_singleton.mp last
      exact ⟨live, notZombie⟩
  · exact ⟨sound.running.1, sound.running.2.imp_left (List.mem_append_left _)⟩

/-- Tasks that are neither on the run queue nor running, and that nobody is making, are freed. -/
theorem Sound.reclaim (sound : Sound s) {gone : Finset ℕ} {zombieQueue : List ℕ}
    (notQueued : ∀ task ∈ gone, task ∉ s.runQueue) (notCurrent : s.current ∉ gone)
    (unmade : ∀ task child, made (s.pc task) = some child → child ∉ gone)
    (left : ∀ task ∈ zombieQueue, task ∈ s.zombieQueue ∧ task ∉ gone) :
    Sound { s with live := s.live \ gone, zombieQueue := zombieQueue } := by
  refine sound.queues Finset.sdiff_subset (fun next choice => (sound.target choice).2)
    (fun task child makes => ?_)
    sound.nodup (fun task member => ?_) (fun task member => ?_) ?_
  · obtain ⟨inUse, queue, zombie⟩ := sound.making makes
    exact ⟨Finset.mem_sdiff.mpr ⟨inUse, unmade task child makes⟩, queue,
      fun member => zombie (left child member).1⟩
  · obtain ⟨inUse, zombie⟩ := sound.queued task member
    exact ⟨Finset.mem_sdiff.mpr ⟨inUse, fun freed => notQueued task freed member⟩,
      fun old => zombie (left task old).1⟩
  · exact Finset.mem_sdiff.mpr ⟨sound.zombies task (left task member).1, (left task member).2⟩
  · exact ⟨Finset.mem_sdiff.mpr ⟨sound.running.1, notCurrent⟩, sound.running.2⟩

/-- A task moves from the run queue to the zombies, unless `schedule` has just chosen it. -/
theorem Sound.retire (sound : Sound s) (here : s.switching = none) {task : ℕ}
    (inQueue : task ∈ s.runQueue) (leaves : task = s.current → s.pc s.current = .exited) :
    Sound { s with runQueue := s.runQueue.erase task, zombieQueue := task :: s.zombieQueue } := by
  refine sound.queues (Finset.Subset.refl _)
    (fun next choice => absurd (here.symm.trans choice) (by simp))
    (fun maker child makes => ?_) (sound.nodup.erase task) (fun other member => ?_)
    (fun other member => ?_) ?_
  · obtain ⟨inUse, queue, zombie⟩ := sound.making makes
    refine ⟨inUse, fun member => queue (List.mem_of_mem_erase member), ?_⟩
    rw [List.mem_cons, not_or]
    exact ⟨fun same => queue (same ▸ inQueue), zombie⟩
  · obtain ⟨different, old⟩ := (sound.nodup.mem_erase_iff).mp member
    obtain ⟨inUse, zombie⟩ := sound.queued other old
    rw [List.mem_cons, not_or]
    exact ⟨inUse, different, zombie⟩
  · rcases List.mem_cons.mp member with rfl | old
    · exact (sound.queued other inQueue).1
    · exact sound.zombies other old
  · refine ⟨sound.running.1, ?_⟩
    rcases eq_or_ne s.current task with same | different
    · exact .inr (leaves same.symm)
    · exact sound.running.2.imp_left fun member => (List.mem_erase_of_ne different).mpr member

/-! ## Steps -/

/-- The end of a call. -/
theorem allowed_idle (inQueue : s.current ∈ s.runQueue) : Allowed s .idle :=
  ⟨trivial, False.elim, False.elim, nofun, .inl inQueue⟩

/-- A call that maps pages goes on. -/
theorem allowed_maps {pc : TablePc} (walks : WalksIn (s.pgd s.current) pc) (user : s.User s.current)
    (notCreates : ¬ Creates pc) (nothing : made pc = none) (inQueue : s.current ∈ s.runQueue) :
    Allowed s pc :=
  ⟨walks, fun _ => user, fun creates => absurd creates notCreates,
    fun makes => absurd (nothing.symm.trans makes) (by simp), .inl inQueue⟩

theorem allowed_next (mapper : Mapper) (rest : List MapRequest) (user : s.User s.current)
    (inQueue : s.current ∈ s.runQueue) : Allowed s (mapper.next rest) := by
  cases rest with
  | nil => exact allowed_idle inQueue
  | cons request rest =>
    cases mapper with
    | signal => exact allowed_maps trivial user id rfl inQueue
    | fault => exact allowed_maps trivial user id rfl inQueue
    | populate => exact allowed_maps trivial user id rfl inQueue

/-- What a task makes is made by no other. -/
theorem Sound.unmade (sound : Sound s) {child : ℕ}
    (makes : made (s.pc s.current) = some child) (task : ℕ) :
    made ((s.goto .idle).pc task) ≠ some child := by
  rw [goto_pc]
  split
  · nofun
  · rename_i different
    exact fun also => different (sound.maker also makes)

theorem Sound.advance (sound : Sound s) (here : s.switching = none) {supply : Supply}
    (result : s.advance supply = some t) : Sound t := by
  rw [ActiveTable.advance] at result
  cases pc : s.pc s.current with
  | idle | exited =>
    rw [pc] at result
    cases result
  | assigning mapper request rest =>
    rw [pc] at result
    obtain rfl := Option.some.inj result
    have user := sound.maps s.current (by rw [pc]; trivial)
    have inQueue := sound.inQueue (by rw [pc]; nofun)
    exact (sound.assign here fun _ => rfl).goto (allowed_maps trivial user id rfl inQueue)
  | loading mapper request rest =>
    rw [pc] at result
    obtain rfl := Option.some.inj result
    have user := sound.maps s.current (by rw [pc]; trivial)
    have inQueue := sound.inQueue (by rw [pc]; nofun)
    refine sound.goto (allowed_maps (fun below => ?_) user id rfl inQueue)
    rw [if_neg (BitVec.not_le.mpr below)]
    exact sound.active here user
  | walking mapper pgdBase request rest =>
    rw [pc] at result
    obtain rfl := Option.some.inj result
    have user := sound.maps s.current (by rw [pc]; trivial)
    have inQueue := sound.inQueue (by rw [pc]; nofun)
    rw [ActiveTable.pagewalk]
    split
    · exact (sound.setTable _ _).goto (allowed_next mapper rest user inQueue)
    · exact sound.goto (allowed_next mapper rest user inQueue)
  | creating child =>
    rw [pc] at result
    obtain rfl := Option.some.inj result
    have kernel := sound.creates s.current (by rw [pc]; trivial)
    have inQueue := sound.inQueue (by rw [pc]; nofun)
    have makes : made (s.pc s.current) = some child := by rw [pc]; rfl
    refine (sound.assign here fun user => absurd user kernel).goto
      ⟨trivial, False.elim, fun _ => kernel, fun {other} same => ?_, .inl inQueue⟩
    obtain rfl := Option.some.inj same
    exact ⟨sound.making makes, fun other different also => different (sound.maker also makes)⟩
  | starting child =>
    rw [pc] at result
    have inQueue := sound.inQueue (by rw [pc]; nofun)
    have makes : made (s.pc s.current) = some child := by rw [pc]; rfl
    obtain ⟨live, absent, notZombie⟩ := sound.making makes
    have ended := sound.goto (allowed_idle inQueue)
    dsimp only at result
    split at result
    · obtain rfl := Option.some.inj result
      exact ended.enqueue live absent notZombie (sound.unmade makes)
    · obtain rfl := Option.some.inj result
      rw [← Finset.sdiff_singleton_eq_erase]
      refine ended.reclaim (fun task member => ?_) (fun member => ?_)
        (fun task other also member => ?_)
        fun task member => ⟨member, fun same => ?_⟩
      · obtain rfl := Finset.mem_singleton.mp member
        exact absent
      · obtain same := Finset.mem_singleton.mp member
        exact absent (same ▸ inQueue)
      · obtain rfl := Finset.mem_singleton.mp member
        exact sound.unmade makes task also
      · obtain rfl := Finset.mem_singleton.mp same
        exact notZombie member
  | forking child =>
    rw [pc] at result
    obtain rfl := Option.some.inj result
    have inQueue := sound.inQueue (by rw [pc]; nofun)
    have makes : made (s.pc s.current) = some child := by rw [pc]; rfl
    obtain ⟨live, absent, notZombie⟩ := sound.making makes
    have copied :=
      (sound.setTable (s.pgd s.current) (Vm.parentTable (s.tables (s.pgd s.current)))).setTable
      (s.pgd child) (Vm.childTable (s.tables (s.pgd s.current))
        { supply.pages with pgd := s.pgd child })
    exact (copied.goto (allowed_idle inQueue)).enqueue live absent notZombie (sound.unmade makes)

theorem Sound.step (sound : Sound s) {event : ActiveTable.Event}
    (result : s.step event = some t) : Sound t := by
  cases event with
  | schedule =>
    obtain ⟨-, same⟩ := Option.ite_none_right_eq_some.mp result
    exact Option.some.inj same ▸ sound.schedule
  | switchTo =>
    obtain ⟨next, choice, rfl⟩ := Option.map_eq_some_iff.mp result
    exact sound.switchTo choice
  | advance supply =>
    obtain ⟨here, advanced⟩ := Option.ite_none_right_eq_some.mp result
    exact sound.advance here advanced
  | pageFault request =>
    obtain ⟨⟨idle, user⟩, same⟩ := Option.ite_none_right_eq_some.mp result
    have inQueue := sound.inQueue (by rw [idle.2]; nofun)
    exact Option.some.inj same ▸ sound.goto (allowed_maps trivial user id rfl inQueue)
  | sysMmap request rest =>
    obtain ⟨⟨idle, user⟩, same⟩ := Option.ite_none_right_eq_some.mp result
    have inQueue := sound.inQueue (by rw [idle.2]; nofun)
    exact Option.some.inj same ▸ sound.goto (allowed_maps trivial user id rfl inQueue)
  | checkPendingSignals request rest =>
    obtain ⟨⟨idle, user⟩, same⟩ := Option.ite_none_right_eq_some.mp result
    have inQueue := sound.inQueue (by rw [idle.2]; nofun)
    exact Option.some.inj same ▸ sound.goto (allowed_maps trivial user id rfl inQueue)
  | sysFork child va =>
    obtain ⟨⟨idle, user, new, unused⟩, same⟩ := Option.ite_none_right_eq_some.mp result
    have inQueue := sound.inQueue (by rw [idle.2]; nofun)
    have kept : (s.addTask child va).User s.current ↔ s.User s.current := addTask_user sound new va
    refine Option.some.inj same ▸ (sound.addTask idle.1 new unused).goto
      ⟨trivial, fun _ => kept.mpr user, False.elim, fun {other} makes => ?_, .inl inQueue⟩
    obtain rfl := Option.some.inj makes
    exact sound.making_new new va
  | createUserProcess child va =>
    obtain ⟨⟨idle, kernel, new, unused⟩, same⟩ := Option.ite_none_right_eq_some.mp result
    have inQueue := sound.inQueue (by rw [idle.2]; nofun)
    have kept : (s.addTask child va).User s.current ↔ s.User s.current := addTask_user sound new va
    refine Option.some.inj same ▸ (sound.addTask idle.1 new unused).goto
      ⟨trivial, False.elim, fun _ user => kernel (kept.mp user),
        fun {other} makes => ?_, .inl inQueue⟩
    obtain rfl := Option.some.inj makes
    exact sound.making_new new va
  | sysExec =>
    obtain ⟨-, same⟩ := Option.ite_none_right_eq_some.mp result
    exact Option.some.inj same ▸ sound.setTable _ _
  | threadExit =>
    obtain ⟨⟨idle, -⟩, same⟩ := Option.ite_none_right_eq_some.mp result
    have inQueue := sound.inQueue (by rw [idle.2]; nofun)
    have left :=
      sound.goto (show Allowed s .exited from ⟨trivial, False.elim, False.elim, nofun, .inr rfl⟩)
    have exited : (s.goto .exited).pc s.current = .exited :=
      (goto_pc s .exited s.current).trans (if_pos rfl)
    exact Option.some.inj same ▸ left.retire idle.1 inQueue fun _ => exited
  | sysStop task =>
    obtain ⟨⟨idle, other, inQueue, -⟩, same⟩ := Option.ite_none_right_eq_some.mp result
    exact Option.some.inj same ▸ sound.retire idle.1 inQueue fun current => absurd current other
  | killZombies =>
    obtain ⟨⟨idle, -⟩, same⟩ := Option.ite_none_right_eq_some.mp result
    obtain rfl := Option.some.inj same
    have inQueue := sound.inQueue (by rw [idle.2]; nofun)
    refine sound.reclaim (fun task member queued => ?_) (fun member => ?_)
      (fun task child makes member => ?_) nofun
    · exact (sound.queued task queued).2 (List.mem_toFinset.mp member)
    · exact (sound.queued s.current inQueue).2 (List.mem_toFinset.mp member)
    · exact (sound.making makes).2.2 (List.mem_toFinset.mp member)

/-- Another task has another table. -/
theorem Sound.apart (sound : Sound s) (user : s.User s.current) {other : ℕ} (live : other ∈ s.live)
    (different : other ≠ s.current) : s.pgd other ≠ s.pgd s.current := by
  intro same
  exact different (sound.distinct sound.running.1 live user same.symm).symm

end Moves

/-! ## Runs -/

/-- What the shell does to create a process: pages for nothing, and a program that exists. -/
def supplied : Supply := ⟨⟨0#64, fun _ => 0#64, fun _ _ => 0#64⟩, 0x7000#64, 0x8000#64, true⟩

/-- The tables before any process exists. -/
def noTables (va : Word) : Pgd := ⟨va, fun _ => none⟩

/-- The state after a run from boot. -/
def after (events : List ActiveTable.Event) : ActiveTable :=
  (events.foldlM step (boot 0x1000#64 noTables)).getD (boot 0x1000#64 noTables)

end OscKernel.Soundness.ActiveTable
