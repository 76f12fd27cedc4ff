import OscKernel.Lib.System
import OscKernel.Model.Trap

/-! # Trap frames and kernel stacks

What every position of a task rests on: the frames of the traps that it is nested in, each below the
one before on the stack of the task, down to a frame that returns to the user or to a kernel thread.
The rest of the module shows that every step keeps this for the running task and for every suspended
one, as long as user code leaves `tp` alone and no interrupt is taken while a context is being
restored.
-/

namespace OscKernel.Soundness.TrapFrames

open OscKernel.Lib OscKernel.Model OscKernel.Model.Machine

/-! ## Storing frames -/

@[simp] theorem store_self (frames : Word → Option PtRegs) (regs : Word) (r : PtRegs) :
    store frames regs r regs = some r :=
  if_pos rfl

/-- A frame further up on the same stack is kept. -/
private theorem store_above {frames : Word → Option PtRegs} {stack regs a : Word} (r : PtRegs)
    (above : (regs - stack).toNat + 280 ≤ (a - stack).toNat)
    (inStack : (a - stack).toNat ≤ 0x4000) :
    store frames regs r a = frames a := by
  have different : a ≠ regs := by
    rintro rfl
    omega
  have apart : ¬ (a - regs < ptRegsSize ∨ regs - a < ptRegsSize) := by
    rw [ptRegsSize]
    bv_omega
  rw [store, if_neg different, if_neg apart]

/-- The stacks have no address in common. -/
def Apart (stack other : Word) : Prop := ∀ a, a - stack < stackSize → ¬ a - other < stackSize

theorem Apart.symm {stack other : Word} (apart : Apart stack other) : Apart other stack :=
  fun a here there => apart a there here

/-- A frame on another stack is kept. -/
theorem store_apart {frames : Word → Option PtRegs} {stack other regs a : Word} (r : PtRegs)
    (apart : Apart stack other) (here : (regs - stack).toNat + 280 ≤ 0x4000)
    (there : (a - other).toNat + 280 ≤ 0x4000) :
    store frames regs r a = frames a := by
  have both : ∀ b, b - stack < stackSize → b - other < stackSize → False := apart
  rw [stackSize] at both
  have different : a ≠ regs := by
    rintro rfl
    exact both a (by bv_omega) (by bv_omega)
  have apart : ¬ (a - regs < ptRegsSize ∨ regs - a < ptRegsSize) := by
    rw [ptRegsSize]
    rintro (near | near)
    · exact both a (by bv_omega) (by bv_omega)
    · exact both regs (by bv_omega) (by bv_omega)
  rw [store, if_neg different, if_neg apart]

/-! ## Activations -/

/-- Positions whose frame is of a trap from user mode. -/
def FromUser (pc : Pc) : Prop := ∃ regs, pc = .doTrap regs .ecall ∨ pc = .handleSyscall regs

/-- The position, with the stack pointer, rests on frames of the task's stack. -/
inductive Activation (frames : Word → Option PtRegs) (stack kernelSp task : Word)
    (runnable : Prop) : Pc → Word → Prop
  | thread {top a : Word} : runnable → (a - stack).toNat ≤ (top - stack).toNat →
      (top - stack).toNat ≤ 0x4000 →
      Activation frames stack kernelSp task runnable (.thread top) a
  | threadExit {base a : Word} : (a - stack).toNat ≤ (base - stack).toNat →
      (base - stack).toNat ≤ 0x4000 →
      Activation frames stack kernelSp task runnable (.threadExit base) a
  | trap {pc : Pc} {regs a : Word} : pc.regs = some regs →
      (a - stack).toNat ≤ (regs - stack).toNat →
      (FromUser pc → ∃ r, frames regs = some r ∧ r.sstatus.spp = false) →
      Activation frames stack kernelSp task runnable .retFromException regs →
      Activation frames stack kernelSp task runnable pc a
  | schedule {sie : Bool} {caller : Pc} {a : Word} :
      Activation frames stack kernelSp task runnable caller a →
      Activation frames stack kernelSp task runnable (.schedule sie caller) a
  | switchRet {ra : Pc} {a : Word} : Activation frames stack kernelSp task runnable ra a →
      Activation frames stack kernelSp task runnable (.switchRet ra) a
  /-- A return to the user. -/
  | user {regs va : Word} {r : PtRegs} : frames regs = some r →
      r.sstatus.spp = false → r.epc = .user va →
      r.x tp = task → regs = kernelSp - ptRegsSize →
      kernelSp = stack + stackSize → kernelSp ≠ 0#64 →
      Activation frames stack kernelSp task runnable .retFromException regs
  /-- A return to interrupted kernel code. -/
  | kernel {regs : Word} {r : PtRegs} : frames regs = some r →
      r.sstatus.spp = true → r.x tp = task →
      (regs - stack).toNat + 280 ≤ (r.x sp - stack).toNat →
      Activation frames stack kernelSp task runnable r.epc (r.x sp) →
      Activation frames stack kernelSp task runnable .retFromException regs

section Activation

variable {frames frames' : Word → Option PtRegs} {stack kernelSp task a regs : Word}
  {runnable runnable' : Prop} {pc : Pc}

theorem Activation.in_stack (active : Activation frames stack kernelSp task runnable pc a) :
    (a - stack).toNat ≤ 0x4000 := by
  induction active with
  | thread _ below inside => exact le_trans below inside
  | threadExit below inside => exact le_trans below inside
  | trap _ below _ _ ih => exact le_trans below ih
  | schedule _ ih => exact ih
  | switchRet _ ih => exact ih
  | user _ _ _ _ place top =>
    rw [place, top, ptRegsSize, stackSize]
    bv_omega
  | kernel _ _ _ above _ ih => omega

/-- The frame of a return is in the stack. -/
theorem Activation.frame_in_stack
    (active : Activation frames stack kernelSp task runnable .retFromException regs) :
    (regs - stack).toNat + 280 ≤ 0x4000 := by
  cases active with
  | trap noFrame => exact absurd noFrame (by simp [Pc.regs])
  | user _ _ _ _ place top =>
    rw [place, top, ptRegsSize, stackSize]
    bv_omega
  | kernel _ _ _ above active => exact le_trans above active.in_stack

/-- Only the frames above the stack pointer matter. -/
theorem Activation.congr (active : Activation frames stack kernelSp task runnable pc a)
    (still : runnable → runnable') (same : ∀ b, (a - stack).toNat ≤ (b - stack).toNat →
      (b - stack).toNat + 280 ≤ 0x4000 → frames' b = frames b) :
    Activation frames' stack kernelSp task runnable' pc a := by
  induction active with
  | thread alive below inside => exact .thread (still alive) below inside
  | threadExit below inside => exact .threadExit below inside
  | trap here below fromUser active ih =>
    have same' := same _ below active.frame_in_stack
    refine .trap here below (fun user => ?_) (ih fun b above => same b (le_trans below above))
    rw [same']
    exact fromUser user
  | schedule _ ih => exact .schedule (ih same)
  | switchRet _ ih => exact .switchRet (ih same)
  | user here user epc current place top nonzero =>
    have was : Activation frames stack kernelSp task runnable .retFromException _ :=
      .user here user epc current place top nonzero
    exact .user ((same _ le_rfl was.frame_in_stack).trans here) user epc current place top nonzero
  | kernel here kernel current above active ih =>
    have inside := active.in_stack
    refine .kernel ((same _ le_rfl (by omega)).trans here)
      kernel current above (ih fun b higher => same b (by omega))

variable {r : PtRegs} (here : frames regs = some r)
include here

theorem Activation.of_user
    (active : Activation frames stack kernelSp task runnable .retFromException regs)
    (user : r.sstatus.spp = false) : (∃ va, r.epc = .user va) ∧ r.x tp = task ∧
    regs = kernelSp - ptRegsSize ∧
      kernelSp = stack + stackSize ∧ kernelSp ≠ 0#64 := by
  cases active with
  | trap noFrame => exact absurd noFrame (by simp [Pc.regs])
  | user there _ epc current place top nonzero =>
    obtain rfl := Option.some.inj (here.symm.trans there)
    exact ⟨⟨_, epc⟩, current, place, top, nonzero⟩
  | kernel there kernel =>
    obtain rfl := Option.some.inj (here.symm.trans there)
    exact absurd (user.symm.trans kernel) (by decide)

theorem Activation.of_kernel
    (active : Activation frames stack kernelSp task runnable .retFromException regs)
    (kernel : r.sstatus.spp = true) : r.x tp = task ∧
    Activation frames stack kernelSp task runnable r.epc (r.x sp) := by
  cases active with
  | trap noFrame => exact absurd noFrame (by simp [Pc.regs])
  | user there user =>
    obtain rfl := Option.some.inj (here.symm.trans there)
    exact absurd (user.symm.trans kernel) (by decide)
  | kernel there _ current _ active =>
    obtain rfl := Option.some.inj (here.symm.trans there)
    exact ⟨current, active⟩

end Activation

/-! ## The invariant -/

/-- The position and stack pointer rest on the frames of the task. -/
def Active (s : Machine) (task : Word) (pc : Pc) (a : Word) : Prop :=
  Activation s.frames (s.stack task) (s.kernelSp task) task (task ∈ s.runnable) pc a

/-- The frame that is being returned through, with what `sscratch` holds. -/
structure Returns (s : Machine) (r : PtRegs) : Prop where
  current : s.getCurrent = s.dispatched
  frame : s.frames (s.x sp) = some r
  active : Active s s.dispatched .retFromException (s.x sp)
  sscratch : s.sscratch = if r.sstatus.spp then 0#64 else s.kernelSp s.dispatched

/-- The running task, by position. -/
inductive Running (s : Machine) : Prop
  | user {va : Word} : s.pc = .user va → s.getCurrent = s.dispatched →
      s.sscratch = s.kernelSp s.dispatched →
      s.kernelSp s.dispatched = s.stack s.dispatched + stackSize →
      s.kernelSp s.dispatched ≠ 0#64 → Running s
  | kernel : s.getCurrent = s.dispatched → s.sscratch = 0#64 →
      Active s s.dispatched s.pc (s.x sp) → Running s
  | mvTp {ra : Pc} : s.pc = .mvTp s.dispatched ra → s.sscratch = 0#64 →
      Active s s.dispatched ra (s.x sp) → Running s
  | csrwSepc {r : PtRegs} : s.pc = .csrwSepc → Returns s r → Running s
  | csrwSstatus {r : PtRegs} : s.pc = .csrwSstatus r.sstatus → Returns s r →
      s.sepc = r.epc → Running s
  | restore {r : PtRegs} : s.pc = .restore → Returns s r → s.sepc = r.epc →
      s.sstatus = r.sstatus → Running s

structure Sound (s : Machine) : Prop where
  current : s.dispatched ∈ s.live
  runnable : s.runnable ⊆ s.live
  apart : ∀ {a b}, a ∈ s.live → b ∈ s.live → a ≠ b → Apart (s.stack a) (s.stack b)
  running : Running s
  suspended : ∀ {task}, task ∈ s.runnable → task ≠ s.dispatched →
    Active s task (s.thread task).ra (s.thread task).sp
  savedRegs : ∀ {task r}, task ∈ s.live → s.savedRegs task = some r →
    r.sstatus.spp = false ∧ (∃ va, r.epc = .user va) ∧ r.x tp = task

/-- Positions at which a trap may find the registers of a task complete. -/
def Settled : Pc → Prop
  | .mvTp _ _ | .csrwSepc | .csrwSstatus _ | .restore => False
  | _ => True

/-- A step of user code leaves `tp` as it was, and no interrupt is taken while a context is
restored. -/
def Safe (s : Machine) : Event → Prop
  | .user x _ => x tp = s.x tp
  | .trap _ => Settled s.pc
  | _ => True

section Running

variable {s : Machine} (sound : Sound s)
include sound

/-- Kernel code at a settled position runs as the dispatched task. -/
theorem Sound.kernel (kernel : s.pc.isUser = false) (settled : Settled s.pc) :
    s.getCurrent = s.dispatched ∧ s.sscratch = 0#64 ∧ Active s s.dispatched s.pc (s.x sp) := by
  cases sound.running with
  | user pc =>
    rw [pc] at kernel
    exact absurd kernel (by simp [Pc.isUser])
  | kernel current scratch active => exact ⟨current, scratch, active⟩
  | mvTp pc | csrwSepc pc | csrwSstatus pc | restore pc =>
    rw [pc] at settled
    exact settled.elim

theorem Sound.kernel_of {pc : Pc} (here : s.pc = pc)
    (kernel : pc.isUser = false) (settled : Settled pc) :
    s.getCurrent = s.dispatched ∧ s.sscratch = 0#64 ∧ Active s s.dispatched pc (s.x sp) := by
  subst here
  exact sound.kernel kernel settled

/-- The frames of the other tasks do not change when one is stored on the running stack. -/
theorem Sound.store_other {regs : Word} (r : PtRegs)
    (inside : (regs - s.stack s.dispatched).toNat + 280 ≤ 0x4000) {task : Word}
    (inLive : task ∈ s.live) (different : task ≠ s.dispatched) {a : Word}
    (there : (a - s.stack task).toNat + 280 ≤ 0x4000) : store s.frames regs r a = s.frames a :=
  store_apart r (sound.apart sound.current inLive different.symm) inside there

end Running

/-- Nothing changes but what belongs to the running task. -/
structure Keeps (s t : Machine) : Prop where
  live : t.live = s.live
  runnable : t.runnable = s.runnable
  dispatched : t.dispatched = s.dispatched
  stack : t.stack = s.stack
  kernelSp : t.kernelSp = s.kernelSp
  thread : t.thread = s.thread
  frames : ∀ {task}, task ∈ s.live → task ≠ s.dispatched →
    ∀ {a}, (a - s.stack task).toNat + 280 ≤ 0x4000 →
    t.frames a = s.frames a

theorem Keeps.of_frames {s t : Machine} (live : t.live = s.live)
    (runnable : t.runnable = s.runnable) (dispatched : t.dispatched = s.dispatched)
    (stack : t.stack = s.stack) (kernelSp : t.kernelSp = s.kernelSp) (thread : t.thread = s.thread)
    (frames : t.frames = s.frames) : Keeps s t :=
  ⟨live, runnable, dispatched, stack, kernelSp, thread, fun _ _ _ _ => congrFun frames _⟩

theorem Sound.keep {s t : Machine} (sound : Sound s) (keeps : Keeps s t) (running : Running t)
    (savedRegs : ∀ {task r}, task ∈ s.live → t.savedRegs task = some r →
      r.sstatus.spp = false ∧ (∃ va, r.epc = .user va) ∧ r.x tp = task) : Sound t where
  current := by
    rw [keeps.dispatched, keeps.live]
    exact sound.current
  runnable := by
    rw [keeps.runnable, keeps.live]
    exact sound.runnable
  apart := by
    rw [keeps.live, keeps.stack]
    exact sound.apart
  running := running
  suspended := by
    intro task inQueue different
    rw [keeps.runnable] at inQueue
    rw [keeps.dispatched] at different
    rw [Active, keeps.stack, keeps.kernelSp, keeps.thread, keeps.runnable]
    apply (sound.suspended inQueue different).congr id
    intro b _ inside
    exact keeps.frames (sound.runnable inQueue) different inside
  savedRegs := by
    rw [keeps.live]
    exact savedRegs

/-! ## Trap entry -/

section Entry

variable {s : Machine} (sound : Sound s)
include sound

/-- Entering a trap keeps the invariant if the new frame is below those the task rests on. -/
theorem Sound.enter {cause : Cause} {top : Word} (current : s.getCurrent = s.dispatched)
    (from_top : (if s.sscratch ≠ 0#64 then s.sscratch else s.x sp) = top)
    (fromUser : cause = .ecall → s.pc.isUser = true)
    (active : Active (s.handleException cause) s.dispatched .retFromException (top - ptRegsSize)) :
    Sound (s.handleException cause) := by
  subst from_top
  have inside := active.frame_in_stack
  refine sound.keep ⟨rfl, rfl, rfl, rfl, rfl, rfl, ?_⟩ (.kernel ?_ rfl ?_) sound.savedRegs
  · intro task inLive different a there
    exact sound.store_other _ inside inLive different there
  · exact current
  · refine .trap rfl le_rfl ?_ active
    rintro ⟨regs, isEcall | isSyscall⟩
    · refine ⟨_, store_self _ _ _, ?_⟩
      simp only [handleException, Pc.doTrap.injEq] at isEcall
      simp [fromUser isEcall.2]
    · simp [handleException] at isSyscall

theorem Sound.trap {va : Word} {cause : Cause} (pc : s.pc = .user va) :
    Sound (s.handleException cause) := by
  cases sound.running with
  | user _ current scratch top nonzero =>
    have from_top : (if s.sscratch ≠ 0#64 then s.sscratch else s.x sp) =
        s.kernelSp s.dispatched := by
      rw [scratch, if_pos nonzero]
    refine sound.enter current from_top (fun _ => by rw [pc]; rfl) ?_
    rw [← from_top]
    refine .user (store_self _ _ _) ?_ pc current (by rw [from_top]; rfl) top nonzero
    simp [pc, Pc.isUser]
  | kernel _ _ active =>
    rw [pc] at active
    cases active with
    | trap noFrame => exact absurd noFrame (by simp [Pc.regs])
  | mvTp here | csrwSepc here | csrwSstatus here | restore here =>
    exact absurd (pc.symm.trans here) (by simp)

/-- A trap from kernel code. -/
theorem Sound.nest {cause : Cause} (kernel : s.pc.isUser = false) (settled : Settled s.pc)
    (room : s.Room) (notEcall : cause ≠ .ecall) : Sound (s.handleException cause) := by
  obtain ⟨current, scratch, active⟩ := sound.kernel kernel settled
  have from_top : (if s.sscratch ≠ 0#64 then s.sscratch else s.x sp) = s.x sp :=
    if_neg (not_not.mpr scratch)
  have inStack := active.in_stack
  have above : (s.x sp - ptRegsSize - s.stack s.dispatched).toNat + 280 ≤
      (s.x sp - s.stack s.dispatched).toNat := by
    rw [Room, ptRegsSize] at room
    rw [ptRegsSize]
    bv_omega
  refine sound.enter current from_top (fun isEcall => absurd isEcall notEcall) ?_
  have frame : (s.handleException cause).frames (s.x sp - ptRegsSize) =
      some ⟨s.x, s.pc, ⟨false, s.sstatus.sie, true⟩⟩ := by
    rw [handleException, from_top, kernel]
    exact store_self _ _ _
  refine .kernel frame rfl current above ?_
  apply active.congr id
  intro b higher inside
  rw [handleException, from_top]
  exact store_above _ (le_trans above higher) (by omega)

end Entry

/-! ## Moving on -/

section Advance

variable {s t : Machine} (sound : Sound s)
include sound

/-- Only the position, the registers and the bits of `sstatus` change. -/
theorem Sound.move {pc : Pc} {x : Reg → Word} {sstatus : Sstatus} {sepc : Pc} {sscratch : Word}
    (running : Running
      { s with pc := pc, x := x, sstatus := sstatus, sepc := sepc, sscratch := sscratch }) :
    Sound { s with pc := pc, x := x, sstatus := sstatus, sepc := sepc, sscratch := sscratch } :=
  sound.keep (.of_frames rfl rfl rfl rfl rfl rfl rfl) running sound.savedRegs

theorem Sound.compute {x : Reg → Word} {base : Word} (here : s.pc.base = some base)
    (current : x tp = s.x tp) (below : s.Below (x sp) base) : Sound { s with x := x } := by
  have kernel : s.pc.isUser = false := by
    cases pc : s.pc with
    | user => simp [pc, Pc.base, Pc.regs] at here
    | _ => rfl
  have settled : Settled s.pc := by
    cases pc : s.pc with
    | mvTp | csrwSepc | csrwSstatus | restore => simp [pc, Pc.base, Pc.regs] at here
    | _ => trivial
  obtain ⟨isCurrent, scratch, active⟩ := sound.kernel kernel settled
  apply sound.move
  refine .kernel (current.trans isCurrent) scratch ?_
  have lower : (x sp - s.stack s.dispatched).toNat ≤ (base - s.stack s.dispatched).toNat := below
  change Active s s.dispatched s.pc (x sp)
  rw [Active] at active ⊢
  generalize s.pc = pc at *
  cases active with
  | thread alive _ inside =>
    obtain rfl := Option.some.inj here
    exact .thread alive lower inside
  | threadExit _ inside =>
    obtain rfl := Option.some.inj here
    exact .threadExit lower inside
  | trap isRegs _ fromUser active =>
    have same : pc.base = pc.regs := by
      cases pc with
      | thread | threadExit => simp [Pc.regs] at isRegs
      | _ => rfl
    obtain rfl := Option.some.inj (isRegs.symm.trans (same.symm.trans here))
    exact .trap isRegs lower fromUser active
  | schedule | switchRet | user | kernel => simp [Pc.base, Pc.regs] at here

omit sound in
/-- A position in a trap handler is one of the kernel, and no return is under way. -/
theorem settled_of_regs {pc : Pc} {regs : Word} (isRegs : pc.regs = some regs) :
    pc.isUser = false ∧ Settled pc := by
  cases pc with
  | user | mvTp | csrwSepc | csrwSstatus | restore => simp [Pc.regs] at isRegs
  | _ => exact ⟨rfl, trivial⟩

/-- Another position of the same trap handler. -/
theorem Sound.handler {pc pc' : Pc} {regs : Word} (here : s.pc = pc) (isRegs : pc.regs = some regs)
    (isRegs' : pc'.regs = some regs) (fromUser : FromUser pc' → FromUser pc) (sstatus : Sstatus) :
    Sound { s with pc := pc', sstatus := sstatus } := by
  obtain ⟨kernel, settled⟩ := settled_of_regs isRegs
  obtain ⟨current, scratch, active⟩ := sound.kernel_of here kernel settled
  apply sound.move
  refine .kernel current scratch ?_
  cases active with
  | trap same below user active =>
    obtain rfl := Option.some.inj (isRegs.symm.trans same)
    exact .trap isRegs' below (fun h => user (fromUser h)) active
  | thread | threadExit | schedule | switchRet | user | kernel => simp [Pc.regs] at isRegs

theorem Sound.retFromException (here : s.pc = .retFromException)
    (result : s.retFromException = some t) : Sound t := by
  obtain ⟨current, scratch, active⟩ := sound.kernel_of here rfl trivial
  obtain ⟨r, frame, rfl⟩ := Option.map_eq_some_iff.mp result
  apply sound.move
  refine .csrwSepc (r := r) rfl ⟨current, frame, active, ?_⟩
  cases user : r.sstatus.spp with
  | true => simp [scratch]
  | false =>
    obtain ⟨-, -, place, -, -⟩ := Activation.of_user frame active user
    simp only [Bool.false_eq_true, if_false]
    rw [place, ptRegsSize]
    exact BitVec.sub_add_cancel _ _

theorem Sound.csrwSepc (here : s.pc = .csrwSepc) (result : s.csrwSepc = some t) : Sound t := by
  obtain ⟨r, frame, rfl⟩ := Option.map_eq_some_iff.mp result
  cases sound.running with
  | csrwSepc _ returns =>
    obtain rfl := Option.some.inj (frame.symm.trans returns.frame)
    exact sound.move
      (.csrwSstatus rfl ⟨returns.current, frame, returns.active, returns.sscratch⟩ rfl)
  | kernel _ _ active =>
    rw [here] at active
    cases active with
    | trap noFrame => exact absurd noFrame (by simp [Pc.regs])
  | user pc | mvTp pc | csrwSstatus pc | restore pc => exact absurd (here.symm.trans pc) (by simp)

theorem Sound.csrwSstatus {s2 : Sstatus} (here : s.pc = .csrwSstatus s2) :
    Sound (s.csrwSstatus s2) := by
  cases sound.running with
  | csrwSstatus pc returns sepc =>
    obtain rfl := Pc.csrwSstatus.inj (here.symm.trans pc)
    exact sound.move
      (.restore rfl ⟨returns.current, returns.frame, returns.active, returns.sscratch⟩ sepc rfl)
  | kernel _ _ active =>
    rw [here] at active
    cases active with
    | trap noFrame => exact absurd noFrame (by simp [Pc.regs])
  | user pc | mvTp pc | csrwSepc pc | restore pc => exact absurd (here.symm.trans pc) (by simp)

theorem Sound.sret (here : s.pc = .restore) (result : s.sret = some t) : Sound t := by
  obtain ⟨r, frame, rest⟩ := Option.bind_eq_some_iff.mp result
  split at rest
  swap
  · exact absurd rest (by simp)
  obtain rfl := Option.some.inj rest
  cases sound.running with
  | restore _ returns sepc sstatus =>
    obtain rfl := Option.some.inj (frame.symm.trans returns.frame)
    apply sound.move
    have scratch := returns.sscratch
    cases user : r.sstatus.spp with
    | false =>
      obtain ⟨⟨va, epc⟩, current, -, top, nonzero⟩ := Activation.of_user frame returns.active user
      rw [user] at scratch
      exact .user (sepc.trans epc) current scratch top nonzero
    | true =>
      obtain ⟨current, active⟩ := Activation.of_kernel frame returns.active user
      rw [user] at scratch
      refine .kernel current scratch ?_
      simp only [sepc]
      exact active
  | kernel _ _ active =>
    rw [here] at active
    cases active with
    | trap noFrame => exact absurd noFrame (by simp [Pc.regs])
  | user pc | mvTp pc | csrwSepc pc | csrwSstatus pc => exact absurd (here.symm.trans pc) (by simp)

theorem Sound.advance (result : s.advance = some t) : Sound t := by
  rw [Machine.advance] at result
  cases pc : s.pc with
  | doTrap regs cause =>
    have notUser : ∀ {pc'}, pc'.regs = some regs → (∀ regs, pc' ≠ .doTrap regs .ecall) →
        (∀ regs, pc' ≠ .handleSyscall regs) → FromUser pc' → FromUser (.doTrap regs cause) := by
      rintro pc' - notTrap notSyscall ⟨other, here | here⟩
      · exact absurd here (notTrap other)
      · exact absurd here (notSyscall other)
    rw [pc] at result
    cases cause with
    | timer => simp at result
    | ecall =>
      obtain rfl := Option.some.inj result
      exact sound.handler pc rfl rfl (fun _ => ⟨regs, .inl rfl⟩) _
    | external | pageFault | other =>
      obtain rfl := Option.some.inj result
      exact sound.handler pc rfl rfl (notUser rfl (by simp) (by simp)) _
  | callback regs | runPreemptiveTasks regs =>
    rw [pc] at result
    obtain rfl := Option.some.inj result
    refine sound.handler pc rfl rfl ?_ _
    rintro ⟨other, here | here⟩ <;> simp at here
  | schedule sie caller =>
    rw [pc] at result
    obtain rfl := Option.some.inj result
    obtain ⟨current, scratch, active⟩ := sound.kernel_of pc rfl trivial
    cases active with
    | trap noFrame => exact absurd noFrame (by simp [Pc.regs])
    | schedule active => exact sound.move (.kernel current scratch active)
  | switchRet ra =>
    rw [pc] at result
    obtain rfl := Option.some.inj result
    obtain ⟨current, scratch, active⟩ := sound.kernel_of pc rfl trivial
    cases active with
    | trap noFrame => exact absurd noFrame (by simp [Pc.regs])
    | switchRet active => exact sound.move (.kernel current scratch active)
  | mvTp next ra =>
    rw [pc] at result
    obtain rfl := Option.some.inj result
    cases sound.running with
    | mvTp here scratch active =>
      obtain ⟨rfl, rfl⟩ := Pc.mvTp.inj (pc.symm.trans here)
      have current : Function.update s.x tp s.dispatched tp = s.dispatched :=
        Function.update_self _ _ _
      apply sound.move
      refine .kernel current scratch (.switchRet ?_)
      simp only [Function.update_of_ne (show sp ≠ tp by decide)]
      exact active
    | kernel _ _ active =>
      rw [pc] at active
      cases active with
      | trap noFrame => exact absurd noFrame (by simp [Pc.regs])
    | user here | csrwSepc here | csrwSstatus here | restore here =>
      exact absurd (pc.symm.trans here) (by simp)
  | retFromException =>
    rw [pc] at result
    exact sound.retFromException pc result
  | csrwSepc =>
    rw [pc] at result
    exact sound.csrwSepc pc result
  | csrwSstatus s2 =>
    rw [pc] at result
    obtain rfl := Option.some.inj result
    exact sound.csrwSstatus pc
  | restore =>
    rw [pc] at result
    exact sound.sret pc result
  | user | thread | handleSyscall | report | checkPendingSignals | threadExit => simp [pc] at result

end Advance

/-! ## Switching, creating and reclaiming tasks -/

section Tasks

variable {s t : Machine} (sound : Sound s)
include sound

/-- Where `schedule` returns to rests on the frames of the caller. -/
theorem Sound.caller {caller : Pc} (calls : Calls s.pc caller) :
    s.getCurrent = s.dispatched ∧ s.sscratch = 0#64 ∧ Active s s.dispatched caller (s.x sp) := by
  rcases calls with ⟨rfl, base, here | here | here⟩ | ⟨regs, here, rfl⟩
  · exact sound.kernel (by rw [here]; rfl) (by rw [here]; trivial)
  · exact sound.kernel (by rw [here]; rfl) (by rw [here]; trivial)
  · exact sound.kernel (by rw [here]; rfl) (by rw [here]; trivial)
  · obtain ⟨current, scratch, active⟩ := sound.kernel_of here rfl trivial
    refine ⟨current, scratch, ?_⟩
    cases active with
    | trap same below _ active =>
      refine .trap same below ?_ active
      rintro ⟨other, isEcall | isSyscall⟩
      · exact absurd isEcall (by simp)
      · exact absurd isSyscall (by simp)

theorem Sound.schedule {caller : Pc} {next : Word} (calls : Calls s.pc caller)
    (inQueue : next ∈ s.runnable) :
    Sound (s.schedule caller next) := by
  obtain ⟨current, scratch, active⟩ := sound.caller calls
  rw [Machine.schedule]
  split
  · exact sound.move (.kernel current scratch active)
  rename_i different
  rw [current] at different
  let context : Thread := ⟨.schedule s.sstatus.sie caller, s.x sp, (s.setSie false).sstatus⟩
  have old : ∀ {task}, task ≠ s.dispatched →
      Function.update s.thread s.dispatched context task = s.thread task :=
    fun other => Function.update_of_ne other _ _
  rw [current, switchTo]
  refine ⟨sound.runnable inQueue, sound.runnable, sound.apart, ?_, ?_, sound.savedRegs⟩
  · refine .mvTp rfl scratch ?_
    change Active s next (Function.update s.thread s.dispatched context next).ra
      (Function.update s.x sp (Function.update s.thread s.dispatched context next).sp sp)
    rw [Function.update_self, old (Ne.symm different)]
    exact sound.suspended inQueue (Ne.symm different)
  · intro task taskInQueue notNext
    change Active s task (Function.update s.thread s.dispatched context task).ra
      (Function.update s.thread s.dispatched context task).sp
    rcases eq_or_ne task s.dispatched with rfl | notCurrent
    · rw [Function.update_self]
      exact .schedule active
    · rw [old notCurrent]
      exact sound.suspended taskInQueue notCurrent

/-- A new task on the run queue, whose stack no live task has; storing its frames touches no other
stack. -/
theorem Sound.enqueue {frames : Word → Option PtRegs} {task stack kernelSp : Word}
    {context : Thread} (fresh : s.Fresh task stack)
    (start : Activation frames stack kernelSp task True context.ra context.sp) (kept : ∀ {other},
      other ∈ s.live → ∀ {a}, (a - s.stack other).toNat + 280 ≤ 0x4000 → frames a = s.frames a) :
    Sound ({ s with frames := frames }.enqueue task stack kernelSp context) := by
  have notNew : ∀ {other}, other ∈ s.live → other ≠ task :=
    fun inLive same => fresh.task (same ▸ inLive)
  -- What a task that was live rests on.
  have old : ∀ {other pc a}, other ∈ s.live → Active s other pc a →
      Active ({ s with frames := frames }.enqueue task stack kernelSp context) other pc a := by
    intro other pc a inLive active
    rw [Active, Machine.enqueue]
    simp only [Function.update_of_ne (notNew inLive)]
    exact active.congr (Finset.mem_insert_of_mem) fun b _ inside => kept inLive inside
  have stackOf : ∀ {other}, other ∈ s.live →
      Function.update s.stack task stack other = s.stack other :=
    fun inLive => Function.update_of_ne (notNew inLive) _ _
  have topOf : ∀ {other}, other ∈ s.live →
      Function.update s.kernelSp task kernelSp other = s.kernelSp other :=
    fun inLive => Function.update_of_ne (notNew inLive) _ _
  have framesOf : ∀ {r}, Active s s.dispatched .retFromException (s.x sp) →
      s.frames (s.x sp) = some r →
      frames (s.x sp) = some r :=
      fun active frame => (kept sound.current active.frame_in_stack).trans frame
  have returns : ∀ {r}, Returns s r →
      Returns ({ s with frames := frames }.enqueue task stack kernelSp context) r := by
    intro r returns
    refine ⟨returns.current, framesOf returns.active returns.frame,
      old sound.current returns.active, ?_⟩
    exact returns.sscratch.trans (by rw [← topOf sound.current]; rfl)
  refine ⟨Finset.mem_insert_of_mem sound.current,
    Finset.insert_subset_insert _ sound.runnable, ?_, ?_, ?_, ?_⟩
  · intro a b liveA liveB different
    change Apart (Function.update s.stack task stack a) (Function.update s.stack task stack b)
    rcases Finset.mem_insert.mp liveA with rfl | wasA
    · rcases Finset.mem_insert.mp liveB with rfl | wasB
      · exact absurd rfl different
      · rw [Function.update_self, stackOf wasB]
        exact fresh.stack b wasB
    · rw [stackOf wasA]
      rcases Finset.mem_insert.mp liveB with rfl | wasB
      · rw [Function.update_self]
        exact Apart.symm (fresh.stack a wasA)
      · rw [stackOf wasB]
        exact sound.apart wasA wasB different
  · cases sound.running with
    | user pc current scratch top nonzero =>
      refine .user pc current ?_ ?_ ?_
      · exact scratch.trans (topOf sound.current).symm
      · exact (topOf sound.current).trans
          (top.trans (congrArg (· + stackSize) (stackOf sound.current).symm))
      · exact fun zero => nonzero ((topOf sound.current).symm.trans zero)
    | kernel current scratch active => exact .kernel current scratch (old sound.current active)
    | mvTp pc scratch active => exact .mvTp pc scratch (old sound.current active)
    | csrwSepc pc r => exact .csrwSepc pc (returns r)
    | csrwSstatus pc r sepc => exact .csrwSstatus pc (returns r) sepc
    | restore pc r sepc sstatus => exact .restore pc (returns r) sepc sstatus
  · intro other inQueue different
    rcases Finset.mem_insert.mp inQueue with rfl | was
    · rw [Active, Machine.enqueue]
      simp only [Function.update_self]
      exact start.congr (fun _ => Finset.mem_insert_self _ _) fun _ _ _ => rfl
    · have active := old (sound.runnable was) (sound.suspended was different)
      have context : Function.update s.thread task context other = s.thread other :=
        Function.update_of_ne (notNew (sound.runnable was)) _ _
      rw [← context] at active
      exact active
  · intro other r inLive saved
    change Function.update s.savedRegs task none other = some r at saved
    rcases Finset.mem_insert.mp inLive with rfl | was
    · rw [Function.update_self] at saved
      exact absurd saved (by simp)
    · rw [Function.update_of_ne (notNew was)] at saved
      exact sound.savedRegs was saved

theorem Sound.threadCreate {task stack : Word} (fresh : s.Fresh task stack) :
    Sound (s.threadCreate task stack) := by
  have inside : (stack + stackSize - stack).toNat ≤ 0x4000 := by
    rw [stackSize]
    bv_omega
  have start : Activation s.frames stack 0#64 task True (.thread (stack + stackSize))
      (stack + stackSize) :=
    .thread trivial le_rfl inside
  exact sound.enqueue fresh start fun _ _ _ => rfl

/-- The frame that `do_exec` builds. -/
def execFrame (s : Machine) (task : Word) : PtRegs :=
  ⟨Function.update (Function.update (fun _ => 0#64) tp task) sp (userStack + stackSize), .user 0#64,
    ⟨s.sstatus.sie, true, false⟩⟩

omit sound in
theorem createUserProcess_eq (task stack : Word) : s.createUserProcess task stack =
    { s with
      frames := store s.frames (stack + stackSize - ptRegsSize) (execFrame s task) }.enqueue task
      stack (stack + stackSize)
      ⟨.retFromException, stack + stackSize - ptRegsSize, s.sstatus⟩ := by
  rw [createUserProcess, Machine.doExec]
  simp only [Machine.enqueue, Function.update_self, execFrame]

omit sound in
theorem top_frame_in_stack (stack : Word) :
    (stack + stackSize - ptRegsSize - stack).toNat + 280 ≤ 0x4000 := by
  rw [stackSize, ptRegsSize]
  bv_omega

omit sound in
theorem execFrame_current (task : Word) : (execFrame s task).x tp = task := by
  simp only [execFrame, Function.update_of_ne (show tp ≠ sp by decide), Function.update_self]

theorem Sound.createUserProcess {task stack : Word} (fresh : s.Fresh task stack) :
    Sound (s.createUserProcess task stack) := by
  rw [createUserProcess_eq]
  refine sound.enqueue fresh ?_ fun {other} inLive {a} there => ?_
  · exact .user (store_self _ _ _) rfl rfl (execFrame_current task) rfl rfl fresh.top
  · exact store_apart _ (fresh.stack other inLive) (top_frame_in_stack stack) there

omit sound in
private theorem copyStack_apart {stack other src a : Word} (apart : Apart stack other)
    (there : (a - other).toNat + 280 ≤ 0x4000) :
    copyStack s.frames src stack a = s.frames a := by
  have both : ∀ b, b - stack < stackSize → b - other < stackSize → False := apart
  have outside : ¬ a - stack < stackSize := fun here => both a here (by rw [stackSize]; bv_omega)
  have notBelow : ¬ stack - a < ptRegsSize := by
    intro near
    refine both stack ?_ ?_
    · rw [stackSize]
      bv_omega
    · rw [ptRegsSize] at near
      rw [stackSize]
      bv_omega
  rw [copyStack, if_neg outside, if_neg notBelow]

omit sound in
private theorem copyStack_frame {src dst regs : Word} (inside : (regs - src).toNat + 280 ≤ 0x4000) :
    copyStack s.frames src dst (dst + (regs - src)) = s.frames regs := by
  have place : dst + (regs - src) - dst = regs - src := by bv_omega
  have back : src + (regs - src) = regs := by bv_omega
  have small : regs - src < stackSize := by
    rw [stackSize]
    bv_omega
  have whole : regs - src ≤ stackSize - ptRegsSize := by
    rw [stackSize, ptRegsSize]
    bv_omega
  rw [copyStack, place, if_pos small, if_pos whole, back]

/-- A system call runs in a trap from user mode. -/
theorem Sound.syscall {regs : Word} (here : s.pc = .handleSyscall regs) :
    s.getCurrent = s.dispatched ∧
    Active s s.dispatched .retFromException regs ∧ ∃ r, s.frames regs = some r ∧
      r.sstatus.spp = false := by
  obtain ⟨current, -, active⟩ := sound.kernel_of here rfl trivial
  cases active with
  | trap same _ fromUser active =>
    obtain rfl := Option.some.inj same
    exact ⟨current, active, fromUser ⟨_, .inr rfl⟩⟩

theorem Sound.sysFork {regs child stack : Word} (here : s.pc = .handleSyscall regs)
    (fresh : s.Fresh child stack) (result : s.sysFork regs child stack = some t) : Sound t := by
  obtain ⟨current, active, old, oldFrame, user⟩ := sound.syscall here
  obtain ⟨r, frame, rfl⟩ := Option.map_eq_some_iff.mp result
  rw [current] at frame ⊢
  rw [copyStack_frame active.frame_in_stack, oldFrame] at frame
  obtain rfl := Option.some.inj frame
  obtain ⟨⟨va, epc⟩, -, place, top, -⟩ := Activation.of_user oldFrame active user
  have childRegs : stack + (regs - s.stack s.dispatched) = stack + stackSize - ptRegsSize := by
    rw [place, top]
    bv_omega
  have childTp : Function.update (Function.update old.x a0 0#64) tp child tp = child :=
    Function.update_self _ _ _
  have childEpc : old.epc.next = .user (va + 4#64) := by
    rw [epc]
    rfl
  have inside : (stack + (regs - s.stack s.dispatched) - stack).toNat + 280 ≤ 0x4000 := by
    rw [childRegs]
    exact top_frame_in_stack stack
  refine sound.enqueue fresh ?_ fun {other} inLive {a} there => ?_
  · exact .user (store_self _ _ _) user childEpc childTp childRegs rfl fresh.top
  · have apart : Apart stack (s.stack other) := fresh.stack other inLive
    rw [store_apart _ apart inside there, copyStack_apart apart there]

/-- The frame of a system call is replaced by another one that returns to the user as the same
task. -/
theorem Sound.replace {pc pc' : Pc} {regs va : Word} {r r' : PtRegs} {x : Reg → Word}
    {sstatus : Sstatus} {savedRegs : Word → Option PtRegs} (here : s.pc = pc)
    (isRegs : pc.regs = some regs) (frame : s.frames regs = some r) (user : r.sstatus.spp = false)
    (user' : r'.sstatus.spp = false) (epc : r'.epc = .user va) (current' : r'.x tp = s.dispatched)
    (isCurrent : x tp = s.x tp) (active' : Activation (store s.frames regs r')
      (s.stack s.dispatched) (s.kernelSp s.dispatched) s.dispatched
      (s.dispatched ∈ s.runnable) .retFromException regs →
      Activation (store s.frames regs r') (s.stack s.dispatched)
      (s.kernelSp s.dispatched) s.dispatched
        (s.dispatched ∈ s.runnable) pc' (x sp))
    (saved : ∀ {task r}, task ∈ s.live → savedRegs task = some r →
      r.sstatus.spp = false ∧ (∃ va, r.epc = .user va) ∧ r.x tp = task) :
    Sound { s with
      pc := pc', x := x, sstatus := sstatus, savedRegs := savedRegs,
      frames := store s.frames regs r' } := by
  obtain ⟨kernel, settled⟩ := settled_of_regs isRegs
  obtain ⟨current, scratch, active⟩ := sound.kernel_of here kernel settled
  have ret : Active s s.dispatched .retFromException regs := by
    cases active with
    | trap same _ _ active =>
      obtain rfl := Option.some.inj (isRegs.symm.trans same)
      exact active
    | thread | threadExit | schedule | switchRet | user | kernel => simp [Pc.regs] at isRegs
  obtain ⟨-, -, place, top, nonzero⟩ := Activation.of_user frame ret user
  refine sound.keep ⟨rfl, rfl, rfl, rfl, rfl, rfl, ?_⟩
    (.kernel (isCurrent.trans current) scratch ?_) saved
  · intro task inLive different a there
    exact sound.store_other _ ret.frame_in_stack inLive different there
  · exact active' (.user (store_self _ _ _) user' epc current' place top nonzero)

theorem Sound.sysExec {regs : Word} (here : s.pc = .handleSyscall regs) :
    Sound (s.doExec s.getCurrent) := by
  obtain ⟨current, active, r, frame, user⟩ := sound.syscall here
  obtain ⟨-, -, place, -, -⟩ := Activation.of_user frame active user
  obtain ⟨-, -, resting⟩ := sound.kernel_of here rfl trivial
  rw [current, Machine.doExec, ← place, ← execFrame]
  refine sound.replace here rfl frame user rfl rfl (execFrame_current _)
    rfl (fun ret => ?_) sound.savedRegs
  rw [here]
  cases resting with
  | trap same below _ _ =>
    obtain rfl := Option.some.inj same
    exact .trap rfl below (fun _ => ⟨_, store_self _ _ _, rfl⟩) ret

theorem Sound.sysSigreturn {regs : Word} (here : s.pc = .handleSyscall regs) :
    Sound (s.sysSigreturn regs) := by
  obtain ⟨current, active, r, frame, user⟩ := sound.syscall here
  obtain ⟨-, -, resting⟩ := sound.kernel_of here rfl trivial
  rw [Machine.sysSigreturn]
  split
  · exact sound
  rename_i r' saved
  rw [current] at saved
  obtain ⟨user', ⟨va, epc⟩, current'⟩ := sound.savedRegs sound.current saved
  refine sound.replace here rfl frame user user' epc current' rfl (fun ret => ?_) ?_
  · rw [here]
    cases resting with
    | trap same below _ _ =>
      obtain rfl := Option.some.inj same
      exact .trap rfl below (fun _ => ⟨_, store_self _ _ _, user'⟩) ret
  · intro task other inLive there
    rw [current] at there
    rcases eq_or_ne task s.dispatched with rfl | different
    · rw [Function.update_self] at there
      exact absurd there (by simp)
    · rw [Function.update_of_ne different] at there
      exact sound.savedRegs inLive there

omit sound in
/-- What the system call returned is written to the frame. -/
private theorem endSyscall_eq (regs : Word) (result : Option Word) (skipEpcAdd : Bool) :
    s.endSyscall regs result skipEpcAdd = (s.frames regs).map fun r =>
      { s with
        frames := store s.frames regs { r with
          x := result.elim r.x fun value => Function.update r.x a0 value
          epc := if skipEpcAdd then r.epc else r.epc.next }
        pc := .checkPendingSignals regs }.setSie false := by
  cases result <;> rfl

theorem Sound.endSyscall {regs : Word} {result : Option Word} {skipEpcAdd : Bool}
    (here : s.pc = .handleSyscall regs) (ended : s.endSyscall regs result skipEpcAdd = some t) :
    Sound t := by
  obtain ⟨current, active, old, oldFrame, user⟩ := sound.syscall here
  obtain ⟨-, -, resting⟩ := sound.kernel_of here rfl trivial
  rw [endSyscall_eq] at ended
  obtain ⟨r, frame, rfl⟩ := Option.map_eq_some_iff.mp ended
  obtain rfl := Option.some.inj (frame.symm.trans oldFrame)
  obtain ⟨⟨va, epc⟩, isTask, -, -, -⟩ := Activation.of_user frame active user
  have isTask' : (result.elim r.x fun value => Function.update r.x a0 value) tp = r.x tp := by
    cases result with
    | none => rfl
    | some stored => exact Function.update_of_ne (show tp ≠ a0 by decide) _ _
  obtain ⟨va', epc'⟩ : ∃ va', (if skipEpcAdd then r.epc else r.epc.next) = .user va' := by
    cases skipEpcAdd with
    | true => exact ⟨va, epc⟩
    | false =>
      rw [epc]
      exact ⟨_, rfl⟩
  let r' : PtRegs :=
    { r with
      x := result.elim r.x fun value => Function.update r.x a0 value
      epc := if skipEpcAdd then r.epc else r.epc.next }
  have user' : r'.sstatus.spp = false := user
  refine sound.replace here rfl frame user user' epc' (isTask'.trans isTask)
    rfl (fun ret => ?_) sound.savedRegs
  cases resting with
  | trap same below _ _ =>
    obtain rfl := Option.some.inj same
    refine .trap rfl below ?_ ret
    rintro ⟨other, here | here⟩ <;> simp at here

theorem Sound.checkPendingSignals {regs : Word} {handler : Option Word}
    (here : s.pc = .checkPendingSignals regs)
    (result : s.checkPendingSignals regs handler = some t) : Sound t := by
  obtain ⟨current, scratch, resting⟩ := sound.kernel_of here rfl trivial
  obtain ⟨r, frame, rfl⟩ := Option.map_eq_some_iff.mp result
  have active : Active s s.dispatched .retFromException regs := by
    cases resting with
    | trap same _ _ active =>
      obtain rfl := Option.some.inj same
      exact active
  have isCurrent : Function.update s.x sp regs tp = s.x tp := Function.update_of_ne (by decide) _ _
  have place : Function.update s.x sp regs sp = regs := Function.update_self _ _ _
  have unchanged : Sound { s with x := Function.update s.x sp regs, pc := .retFromException } := by
    apply sound.move
    refine .kernel (isCurrent.trans current) scratch ?_
    simp only [place]
    exact active
  cases handler with
  | none => exact unchanged
  | some va =>
    simp only
    split
    · exact unchanged
    rename_i notKernel
    have user : r.sstatus.spp = false := Bool.not_eq_true _ ▸ notKernel
    obtain ⟨epc, isTask, -, -, -⟩ := Activation.of_user frame active user
    have isTask' :
        Function.update (Function.update r.x ra 0x50000000#64) sp (0x50000000#64 + stackSize) tp =
        s.dispatched := by
      rw [Function.update_of_ne (by decide), Function.update_of_ne (by decide)]
      exact isTask
    refine sound.replace here rfl frame user user rfl isTask' isCurrent (fun ret => ?_) ?_
    · rw [place]
      exact ret
    · intro task other inLive there
      simp only [current] at there
      rcases eq_or_ne task s.dispatched with rfl | different
      · rw [Function.update_self] at there
        obtain rfl := Option.some.inj there
        exact ⟨user, epc, isTask⟩
      · rw [Function.update_of_ne different] at there
        exact sound.savedRegs inLive there

/-- The run queue shrinks, but not by the running task. -/
theorem Sound.dequeue {runnable live : Finset Word} (fewer : runnable ⊆ s.runnable)
    (stillLive : runnable ⊆ live) (wasLive : live ⊆ s.live) (currentLive : s.dispatched ∈ live)
    (kept : s.dispatched ∈ s.runnable → s.dispatched ∈ runnable) :
    Sound { s with runnable := runnable, live := live } := by
  have resting : ∀ {pc a}, Active s s.dispatched pc a →
      Active { s with runnable := runnable, live := live } s.dispatched pc a :=
    fun active => active.congr kept fun _ _ _ => rfl
  have returns : ∀ {r}, Returns s r → Returns { s with runnable := runnable, live := live } r :=
    fun returns =>
    ⟨returns.current, returns.frame, resting returns.active, returns.sscratch⟩
  refine ⟨currentLive, stillLive, fun liveA liveB => sound.apart (wasLive liveA) (wasLive liveB),
    ?_, ?_, fun inLive => sound.savedRegs (wasLive inLive)⟩
  · cases sound.running with
    | user pc current scratch top nonzero => exact .user pc current scratch top nonzero
    | kernel current scratch active => exact .kernel current scratch (resting active)
    | mvTp pc scratch active => exact .mvTp pc scratch (resting active)
    | csrwSepc pc r => exact .csrwSepc pc (returns r)
    | csrwSstatus pc r sepc => exact .csrwSstatus pc (returns r) sepc
    | restore pc r sepc sstatus => exact .restore pc (returns r) sepc sstatus
  · intro task inQueue different
    exact (sound.suspended (fewer inQueue) different).congr (fun _ => inQueue) fun _ _ _ => rfl

theorem Sound.killZombies {top : Word} (here : s.pc = .thread top) : Sound s.killZombies := by
  obtain ⟨-, -, active⟩ := sound.kernel_of here rfl trivial
  have inQueue : s.dispatched ∈ s.runnable := by
    cases active with
    | thread alive => exact alive
    | trap noFrame => exact absurd noFrame (by simp [Pc.regs])
  exact sound.dequeue (Finset.Subset.refl _)
    (Finset.subset_inter sound.runnable (Finset.Subset.refl _))
    Finset.inter_subset_left (Finset.mem_inter.mpr ⟨sound.current, inQueue⟩) id

theorem Sound.sysStop {regs task : Word} (here : s.pc = .handleSyscall regs)
    (other : task ≠ s.getCurrent) :
    Sound { s with runnable := s.runnable.erase task } := by
  rw [(sound.syscall here).1] at other
  exact sound.dequeue (Finset.erase_subset _ _) ((Finset.erase_subset _ _).trans sound.runnable)
    (Finset.Subset.refl _)
    sound.current fun inQueue => Finset.mem_erase.mpr ⟨other.symm, inQueue⟩

theorem Sound.threadExit {base : Word} (exits : Exits s.pc base) : Sound (s.threadExit base) := by
  -- Before it leaves the queue the task moves to a position that needs no frame.
  have moved : Sound { s with pc := .threadExit base } ∧ s.getCurrent = s.dispatched := by
    have each : s.getCurrent = s.dispatched ∧ s.sscratch = 0#64 ∧
        (s.x sp - s.stack s.dispatched).toNat ≤ (base - s.stack s.dispatched).toNat ∧
        (base - s.stack s.dispatched).toNat ≤ 0x4000 := by
      rcases exits with here | here | here
      · obtain ⟨current, scratch, active⟩ := sound.kernel_of here rfl trivial
        cases active with
        | trap same below _ active =>
          obtain rfl := Option.some.inj same
          exact ⟨current, scratch, below, active.in_stack⟩
      · obtain ⟨current, scratch, active⟩ := sound.kernel_of here rfl trivial
        cases active with
        | trap same below _ active =>
          obtain rfl := Option.some.inj same
          exact ⟨current, scratch, below, active.in_stack⟩
      · obtain ⟨current, scratch, active⟩ := sound.kernel_of here rfl trivial
        cases active with
        | thread _ below inside => exact ⟨current, scratch, below, inside⟩
        | trap noFrame => exact absurd noFrame (by simp [Pc.regs])
    obtain ⟨current, scratch, below, inside⟩ := each
    exact ⟨sound.move (.kernel current scratch (.threadExit below inside)), current⟩
  obtain ⟨moved, current⟩ := moved
  rw [Machine.threadExit, current]
  obtain ⟨-, scratch, active⟩ := moved.kernel rfl trivial
  refine ⟨moved.current, (Finset.erase_subset _ _).trans moved.runnable, moved.apart,
    .kernel current scratch ?_, ?_, moved.savedRegs⟩
  · cases active with
    | threadExit below inside => exact .threadExit below inside
    | trap noFrame => exact absurd noFrame (by simp [Pc.regs])
  · intro task inQueue different
    have was := (Finset.mem_erase.mp inQueue).2
    exact (moved.suspended was different).congr (fun _ => inQueue) fun _ _ _ => rfl

end Tasks

/-! ## Runs -/

def transitions : System Machine Event := ⟨Step⟩

/-- One step keeps the invariant. -/
theorem Sound.step {s t : Machine} {event : Event} (sound : Sound s)
    (step : (transitions.restrict Safe).Step s event t) : Sound t := by
  obtain ⟨safe, step⟩ := step
  cases step with
  | user here =>
    cases sound.running with
    | user _ current scratch top nonzero =>
      exact sound.move (.user rfl (safe.trans current) scratch top nonzero)
    | kernel _ _ active =>
      rw [here] at active
      cases active with
      | trap noFrame => exact absurd noFrame (by simp [Pc.regs])
    | mvTp pc | csrwSepc pc | csrwSstatus pc | restore pc =>
      exact absurd (here.symm.trans pc) (by simp)
  | trap here => exact sound.trap here
  | interrupt kernel _ cause room =>
    refine sound.nest kernel safe room ?_
    rintro rfl
    rcases cause with other | other <;> exact absurd other (by decide)
  | pageFault here room => exact sound.nest (by rw [here]; rfl) safe room (by decide)
  | compute here current below => exact sound.compute here current below
  | setSie _ =>
    apply sound.move
    cases sound.running with
    | user pc current scratch top nonzero => exact .user pc current scratch top nonzero
    | kernel current scratch active => exact .kernel current scratch active
    | mvTp pc scratch active => exact .mvTp pc scratch active
    | csrwSepc pc r => exact .csrwSepc pc ⟨r.current, r.frame, r.active, r.sscratch⟩
    | csrwSstatus pc r sepc => exact .csrwSstatus pc ⟨r.current, r.frame, r.active, r.sscratch⟩ sepc
    | restore pc => simp [pc, Pc.mayEnable] at *
  | advance result => exact sound.advance result
  | startCallback here =>
    refine sound.handler here rfl rfl ?_ _
    rintro ⟨other, here | here⟩ <;> simp at here
  | schedule calls inQueue => exact sound.schedule calls inQueue
  | createUserProcess _ fresh => exact sound.createUserProcess fresh
  | threadCreate _ fresh => exact sound.threadCreate fresh
  | killZombies here => exact sound.killZombies here
  | threadExit exits => exact sound.threadExit exits
  | sysStop here other => exact sound.sysStop here other
  | sysExec here => exact sound.sysExec here
  | sysFork here fresh result => exact sound.sysFork here fresh result
  | sysSigreturn here => exact sound.sysSigreturn here
  | endSyscall here result => exact sound.endSyscall here result
  | checkPendingSignals here result => exact sound.checkPendingSignals here result

end OscKernel.Soundness.TrapFrames
