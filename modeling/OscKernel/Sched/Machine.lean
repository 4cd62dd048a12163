import OscKernel.Sched.Thread
import OscKernel.Lib.Transition

/-!
# The kernel as a machine (`timer.c`, `task.c`, `trap.c`, `syscall.c`, `signal.c`, `shell.c`)

One step executes the code of the innermost call of the current thread up to the next point at
which an interrupt can be taken: a section of code with interrupts masked, or a call.  Interrupts
are taken between steps, in U-mode and while `SIE` is set.

Code that would use memory that is gone (a freed `struct thread`, the token of a call that has
returned) has no behaviour: the machine stops there.

* `Kernel.run`: what the innermost call does.
* `Kernel.step`: a step of the machine; `Kernel.boot`: the state that `sched_init` leaves behind.
-/

namespace OscKernel
namespace Sched

/-- `n` goes before `t` in `g_timer_queue`. -/
def TimerNode.Before (n t : TimerNode) : Prop := n.expireTick < t.expireTick

/-- `n` goes before `t` in `g_task_queue`. -/
def TaskNode.Before (n t : TaskNode) : Prop := n.priority < t.priority

instance : DecidableRel TimerNode.Before := fun n t =>
  inferInstanceAs (Decidable (n.expireTick < t.expireTick))

instance : DecidableRel TaskNode.Before := fun n t =>
  inferInstanceAs (Decidable (n.priority < t.priority))

/-- `TASK_PRIO_IDLE`. -/
def taskPrioIdle : ℤ := 0x7FFFFFFF
/-- `UART_TASK_PRIO`. -/
def uartTaskPrio : ℤ := 1
/-- `TIMER_TASK_PRIO`. -/
def timerTaskPrio : ℤ := 2
/-- `SCHED_TICK_DIV`. -/
def schedTickDiv : BitVec 64 := 32

/-- What the shell is told to do, and what another kernel thread does next. -/
inductive Command where
  | runUserProgram
  | threadCreate
  | stop (pid : BitVec 32)
  /-- `setTimeout`, with its delay in ticks. -/
  | setTimeout (ticks : BitVec 64)
  /-- `taskdemo`, and whether there is memory for its tasks. -/
  | taskDemo (ok₃ ok₁ ok₅ : Bool)
  /-- `tasknest`. -/
  | taskNest
  /-- `schedule()`: while the shell waits for input, or from the body of a thread. -/
  | yield
  /-- The body of a thread returns. -/
  | exit
  deriving DecidableEq

/-- What the code of this model does not decide. -/
structure Choice where
  syscall : Syscall := .other
  command : Command := .yield
  /-- Whether `kmalloc` succeeds (for the image of a new thread: `image`). -/
  kmalloc : Bool := true
  image : Bool := true
  /-- The console is not ready yet, and its user calls `schedule()` again. -/
  again : Bool := false
  /-- A pending signal is delivered whose action is to terminate. -/
  kill : Bool := false
  /-- The result of a system call that does not matter to threads. -/
  value : BitVec 64 := 0

namespace Kernel

variable (k : Kernel)

/-! ## `timer.c` and `task.c` -/

/-- `add_timer_ticks`; `ok` says whether there is memory for the node. -/
def addTimerTicks (cb : Callback) (ticks : BitVec 64) (ok : Bool) : Kernel :=
  if ok then
    let n : TimerNode := ⟨k.clock + ticks, k.clock, cb⟩
    { k with
      gTimerQueue := k.gTimerQueue.orderedInsert TimerNode.Before n
      -- the hardware timer is programmed again when the new node is the first
      deadline := if ∀ t ∈ k.gTimerQueue.head?, n.Before t then n.expireTick else k.deadline }
  else k

/-- `add_timer_us`. -/
def addTimerUs (cb : Callback) (usec : BitVec 64) (ok : Bool) : Kernel :=
  k.addTimerTicks cb (k.gTimebaseFreq * usec / 1000000) ok

/-- The end of `timer_top_half`. -/
def timerRearm (now : BitVec 64) : Kernel :=
  let next := now + k.gTimebaseFreq / schedTickDiv
  let next := match k.gTimerQueue with
    | [] => next
    | h :: _ => if h.expireTick < next then h.expireTick else next
  { k with deadline := next, gNeedResched := true }

/-- `add_task`, when there is memory for the node. -/
def addTask (cb : Callback) (priority : ℤ) : Kernel :=
  { k with gTaskQueue := k.gTaskQueue.orderedInsert TaskNode.Before ⟨cb, priority⟩ }

/-- `add_task`; `ok` says whether there is memory for the node. -/
def addTaskIf (ok : Bool) (cb : Callback) (priority : ℤ) : Kernel :=
  if ok then k.addTask cb priority else k

/-- `task_run_pending` up to the callback it calls, or up to its return. -/
def taskRunPending : Kernel × List Frame :=
  match k.gTaskQueue with
  | t :: rest =>
      if t.priority < k.gRunningPriority then
        ({ k with gTaskQueue := rest, gRunningPriority := t.priority, sie := true },
          [.callback t.cb, .taskDone k.gRunningPriority])
      else (k, [])
  | [] => (k, [])

/-! ## `syscall.c`, `signal.c` and `shell.c` -/

/-- The end that `sys_stop`, `signal_default_terminate` and `shell_stop_pid` put to a thread,
up to `thread_wakeup(par)`. -/
def terminate (t : Tid) : Kernel :=
  let k := if k.state t = .ready then { k with gRunq := k.gRunq.erase t } else k
  k.modify t fun x => { x with exitStatus := -1, state := .zombie, image := false }

/-- One round of the loop of `sys_exit`: the child `c` goes to `g_bootstrap`. -/
def reparent (c : Tid) : Kernel :=
  ((k.listDelSibling c).modify c fun x => { x with parent := some gBootstrap }).addChild
    gBootstrap c

/-- `sys_exit` up to `thread_wakeup(par)`. -/
def sysExit (status : BitVec 64) : Kernel :=
  let self := k.current
  let k := k.modify self fun x => { x with exitStatus := status.setWidth 32 }
  let k := (k.children self).foldl reparent k
  k.modify self fun x => { x with state := .zombie, image := false }

/-- The process that `sys_stop` and `shell_stop_pid` terminate. -/
def stopTarget (pid : BitVec 32) : Option Tid :=
  (k.findThreadByPid pid).filter fun t => (k.thread t).image

/-- The child that `sys_waitpid` waits for. -/
def waitTarget (pid : BitVec 64) : Option Tid :=
  (k.children k.current).find? fun c => (k.thread c).pid = pid.setWidth 32

/-- `sys_waitpid` and `run_user_program` collect the child `c`. -/
def collect (c : Tid) : Kernel := (k.listDelSibling c).schedZombify c

/-- `long` from `int`. -/
def toLong (v : BitVec 32) : BitVec 64 := v.signExtend 64

/-- `if (par) thread_wakeup(par);`, and then `fs`. -/
def wakeParent (t : Tid) (fs : List Frame) : List Frame :=
  match k.parent t with
  | none => fs
  | some par => .threadWakeup par :: fs

/-- The call of `sys_usleep` that holds the token has not returned. -/
def InUsleep (tok : UsleepToken) : Prop :=
  .sysUsleep tok .registered ∈ k.stack tok.t ∨ .sysUsleep tok .blocked ∈ k.stack tok.t

instance (tok : UsleepToken) : Decidable (k.InUsleep tok) :=
  inferInstanceAs (Decidable (_ ∨ _))

/-! ## Running -/

/-- `sys_exit`, which does not return to the call `f`. -/
def exitWith (status : BitVec 64) (f : Frame) : Kernel × List Frame :=
  let k' := k.sysExit status
  (k', k'.wakeParent k.current [.schedule, .dead, f])

/-- `do_syscall`, called by the trap handler of a trap that will bring back `sie`. -/
def doSyscall (c : Choice) (sie : Bool) (call : Syscall) : Kernel × List Frame :=
  let self := k.current
  let f := Frame.ecall sie (.doSyscall call)
  let done := Frame.ecall sie .resched
  match call with
  | .fork =>
      if (k.thread self).image then
        match k.newUserThread c.kmalloc c.image with
        | (k', some ch) =>
            ((k'.setA0 ch 0).setA0 self (toLong (k'.thread ch).pid), [done])
        | (k', none) => (k'.setA0 self (-1), [done])
      else (k.setA0 self (-1), [done])
  | .exit status => k.exitWith status f
  | .stop pid =>
      if pid.setWidth 32 = (k.thread self).pid then k.exitWith (-1) f
      else
        match k.stopTarget (pid.setWidth 32) with
        | none => (k.setA0 self (-1), [done])
        | some t => ((k.terminate t).setA0 self 0, k.wakeParent t [done])
  | .waitpid pid =>
      match k.waitTarget pid with
      | none => (k.setA0 self (-1), [done])
      | some child => (k, [.sysWaitpid child, done])
  | .usleep usec =>
      if usec = 0 then (k.setA0 self 0, [done])
      else
        let tok : UsleepToken := ⟨self, k.calls⟩
        ({ k.addTimerUs (.usleepCb tok) (usec.setWidth 64) c.kmalloc with calls := k.calls + 1 },
          [.sysUsleep tok .registered, done])
  | .console => if c.again then (k, [.schedule, f]) else (k.setA0 self c.value, [done])
  | .other => (k.setA0 self c.value, [done])

/-- `deliver_pending_signal` and the return from the trap; `user` says whether it returns to
U-mode. -/
def deliver (c : Choice) (user sie : Bool) (f : Frame) : Kernel × List Frame :=
  if user && (k.thread k.current).image && c.kill then
    -- `signal_default_terminate(self)`, then `schedule()`
    (k.terminate k.current, k.wakeParent k.current [.schedule, .dead, f])
  else ({ k with sie := sie }, [])

/-- `trap_handler` on an interrupt, from the point `pc` on. -/
def irqHandler (c : Choice) (user sie : Bool) : IrqPc → Kernel × List Frame
  | .timerTopHalf now =>
      match k.gTimerQueue with
      | t :: rest =>
          if now < t.expireTick then
            (k.timerRearm now, [.taskRunPending, .irq user sie .preempt])
          else
            let k := { k with gTimerQueue := rest }
            if c.kmalloc then
              (k.addTask t.cb timerTaskPrio, [.irq user sie (.timerTopHalf now)])
            else
              -- no memory for the task: the callback is called here
              (k, [.callback t.cb, .irq user sie (.timerTopHalf now)])
      | [] => (k.timerRearm now, [.taskRunPending, .irq user sie .preempt])
  | .uartTopHalf =>
      (k.addTaskIf c.kmalloc .other uartTaskPrio, [.taskRunPending, .irq user sie .preempt])
  | .preempt =>
      ({ k with gNeedResched := false },
        if k.gNeedResched && user then [.schedule, .irq user sie .deliver]
        else [.irq user sie .deliver])
  | .deliver => k.deliver c user sie (.irq user sie .deliver)

/-- `trap_handler` on an `ecall`, from the point `pc` on. -/
def ecallHandler (c : Choice) (sie : Bool) : EcallPc → Kernel × List Frame
  | .doSyscall call => k.doSyscall c sie call
  | .resched =>
      ({ k with gNeedResched := false },
        if k.gNeedResched then [.schedule, .ecall sie .deliver] else [.ecall sie .deliver])
  | .deliver => k.deliver c true sie (.ecall sie .deliver)

/-- A command of the shell. -/
def shellCommand (c : Choice) : Option (Kernel × List Frame) :=
  match c.command with
  | .runUserProgram =>
      match k.threadSpawnUser c.kmalloc c.image with
      | (k', some t) => some (k', [.runUserProgram t, .shell])
      | (k', none) => some (k', [.shell])
  | .threadCreate => some (k.threadCreate c.kmalloc, [.shell])
  | .stop pid =>
      match k.stopTarget pid with
      | none => some (k, [.shell])
      | some t => some (k.terminate t, k.wakeParent t [.shell])
  | .setTimeout ticks => some (k.addTimerTicks .other ticks c.kmalloc, [.shell])
  | .taskDemo ok₃ ok₁ ok₅ =>
      some (((k.addTaskIf ok₃ .other 3).addTaskIf ok₁ .other 1).addTaskIf ok₅ .other 5,
        [.taskRunPending, .shell])
  | .taskNest => some (k.addTaskIf c.kmalloc .demoTaskSlow 9, [.taskRunPending, .shell])
  | .yield => some (k, [.schedule, .shell])
  | .exit => none

/-- What another kernel thread does. -/
def threadBody (c : Choice) : Option (Kernel × List Frame) :=
  match c.command with
  | .threadCreate => some (k.threadCreate c.kmalloc, [.kernelThread])
  | .yield => some (k, [.schedule, .kernelThread])
  | .exit =>
      if ∀ par ∈ k.parent k.current, par ∉ k.freed then
        some (k.threadExit, [.schedule, .dead, .kernelThread])
      else none
  | _ => none

/-- The innermost call of the current thread goes on; the calls that replace it are returned. -/
def run (c : Choice) : Frame → Option (Kernel × List Frame)
  | .user =>
      -- `ecall`: the trap clears `SIE`, and `trap_handler` sets it again
      some ({ k with sie := true }, [.ecall k.sie (.doSyscall c.syscall), .user])
  | .idleThreadBody =>
      match k.killZombie with
      | some k' => some (k', [.idleThreadBody])
      | none => some (k, [.schedule, .idleThreadBody])
  | .shell => k.shellCommand c
  | .kernelThread => k.threadBody c
  | .irq user sie pc => some (k.irqHandler c user sie pc)
  | .ecall sie pc => some (k.ecallHandler c sie pc)
  | .callback (.usleepCb tok) =>
      -- `s->t` is read from the frame of the sleeper
      if tok.t ∉ k.freed ∧ k.InUsleep tok then
        some ({ k.threadWakeup tok.t with ran := tok.call :: k.ran }, [])
      else none
  | .callback .other =>
      if c.again then some (k, [.schedule, .callback .other]) else some (k, [])
  | .callback .demoTaskSlow =>
      if c.again then some (k, [.schedule, .callback .demoTaskSlow])
      else some (k.addTaskIf c.kmalloc .other 5, [.taskRunPending, .callback .other])
  | .taskRunPending => some k.taskRunPending
  | .taskDone prevPrio => some ({ k with gRunningPriority := prevPrio }, [.taskRunPending])
  | .sysUsleep tok .registered => some (k.threadBlock, [.schedule, .sysUsleep tok .blocked])
  | .sysUsleep _ .blocked => some (k.setA0 k.current 0, [])
  | .sysWaitpid child =>
      if child ∈ k.freed then none
      else if k.state child = .zombie then
        some ((k.collect child).setA0 k.current (toLong (k.thread child).exitStatus), [])
      else some (k.threadBlock, [.schedule, .sysWaitpid child])
  | .runUserProgram child =>
      if child ∈ k.freed then none
      else if k.state child = .zombie then some (k.collect child, [])
      else some (k.threadBlock, [.schedule, .runUserProgram child])
  | .threadWakeup par => if par ∈ k.freed then none else some (k.threadWakeup par, [])
  | .schedule =>
      match k.schedule with
      | (k', none) => some (k', [.scheduleReturn k.sie])
      | (k', some next) =>
          if next = k.current then some (k', [.scheduleReturn k.sie])
          else some (k', [.switchTo k.sie next])
  | .switchTo flags next =>
      if next ∈ k.freed then none else some ({ k with current := next }, [.scheduleReturn flags])
  | .scheduleReturn _ => some (k, [])
  | .dead => none

/-- A step of the machine. -/
inductive Label where
  /-- Time passes. -/
  | tick (d : BitVec 64)
  /-- A timer interrupt, or an interrupt of the UART. -/
  | interrupt (timer : Bool)
  | run (c : Choice)

/-- The current thread is in U-mode. -/
def inUser : Bool := (k.stack k.current).head? == some .user

/-- The current thread goes on with the calls `fs`. -/
def setStack (t : Tid) (fs : List Frame) : Kernel :=
  { k with stack := Function.update k.stack t fs }

/-- One step: time passes, an interrupt is taken where `SIE` allows it, or the current thread goes
on. -/
def step (k : Kernel) : Label → Option Kernel
  | .tick d => some { k with clock := k.clock + d }
  | .interrupt timer =>
      if (k.inUser || k.sie) && (!timer || k.deadline ≤ k.clock) then
        let pc := if timer then .timerTopHalf k.clock else .uartTopHalf
        some ({ k with sie := false }.setStack k.current
          (.irq k.inUser k.sie pc :: k.stack k.current))
      else none
  | .run c =>
      match k.stack k.current with
      | [] => none
      | f :: rest => (k.run c f).map fun r => r.1.setStack k.current (r.2 ++ rest)

/-- The state that `sched_init` leaves behind. -/
def boot (freq : BitVec 64) : Kernel where
  thread t :=
    { pid := if t = idle then 1 else 0
      state := if t = gBootstrap then .running else if t = idle then .ready else .zombie
      parent := if t = idle then some gBootstrap else none
      children := if t = gBootstrap then [idle] else []
      exitStatus := 0
      image := false }
  stack t := if t = gBootstrap then [.shell] else if t = idle then [.idleThreadBody] else []
  count := 2
  freed := []
  gNextTid := 2
  gRunq := [idle]
  gZombies := []
  current := gBootstrap
  sie := true
  gNeedResched := false
  gTimerQueue := []
  gTaskQueue := []
  gRunningPriority := taskPrioIdle
  gTimebaseFreq := freq
  clock := 0
  deadline := freq / schedTickDiv
  a0 _ := 0
  calls := 0
  ran := []

end Kernel
end Sched
end OscKernel
