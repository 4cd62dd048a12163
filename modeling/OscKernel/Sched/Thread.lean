import OscKernel.Lib.Forest
import Mathlib.Data.BitVec
import Mathlib.Data.List.Sort

/-!
# Threads (`sched.h`, `sched.c`)

A `struct thread` is named by its place in the order of creation (`Tid`), so that a name is never
used again after the struct was freed; `g_bootstrap` is the first.  The circular lists of the
source are Lean lists.  What a thread is doing in the kernel is a list of `Frame`s, the innermost
first: the calls on its kernel stack.

* `Kernel.schedule`: the choice that `schedule` makes with interrupts masked.
* `Kernel.threadWakeup`, `Kernel.threadBlock`, `Kernel.killZombies`: the other users of the queues.
* `Kernel.findThreadByPid`: the search of the process tree.
-/

namespace OscKernel
namespace Sched

/-- A `struct thread`, by its place in the order of creation. -/
abbrev Tid := ℕ

/-- `g_bootstrap`, the thread of the shell. -/
def gBootstrap : Tid := 0

/-- The thread of `idle_thread_body`, which `sched_init` creates. -/
def idle : Tid := 1

/-- `thread_state_t`. -/
inductive ThreadState where
  | ready
  | running
  | blocked
  | zombie
  deriving DecidableEq

/-- `struct thread`. -/
structure Thread where
  pid : BitVec 32
  state : ThreadState
  parent : Option Tid
  children : List Tid
  exitStatus : BitVec 32
  /-- `image_base` is not `NULL`. -/
  image : Bool

/-- `struct usleep_token`.  It lies in the frame of one call of `sys_usleep`, and the number of
that call tells it from others at the same address. -/
structure UsleepToken where
  t : Tid
  call : ℕ
  deriving DecidableEq

/-- What a timer or a task calls. -/
inductive Callback where
  /-- `usleep_cb` and its argument. -/
  | usleepCb (tok : UsleepToken)
  /-- A callback that does not touch threads, such as `setto_cb`, `uart_bottom_half` or
  `demo_task_short`. -/
  | other
  /-- `demo_task_slow`, which enters `task_run_pending` itself. -/
  | demoTaskSlow
  deriving DecidableEq

/-- `struct timer_node`. -/
structure TimerNode where
  expireTick : BitVec 64
  registerTick : BitVec 64
  cb : Callback
  deriving DecidableEq

/-- `struct task_node`. -/
structure TaskNode where
  cb : Callback
  priority : ℤ
  deriving DecidableEq

/-- The system calls that matter to threads. -/
inductive Syscall where
  | fork
  | exit (status : BitVec 64)
  | stop (pid : BitVec 64)
  | waitpid (pid : BitVec 64)
  | usleep (usec : BitVec 32)
  /-- `sys_uart_read` and `sys_uart_write`, which call `schedule` while they wait. -/
  | console
  /-- Every other number. -/
  | other
  deriving DecidableEq

/-- Where `trap_handler` is when it serves an interrupt. -/
inductive IrqPc where
  /-- The loop of `timer_top_half`, which read the clock when it began. -/
  | timerTopHalf (now : BitVec 64)
  | uartTopHalf
  /-- `if (need_resched_clear() && SPP == 0) schedule()`. -/
  | preempt
  /-- `if (SPP == 0) deliver_pending_signal(tf)`, and the return. -/
  | deliver
  deriving DecidableEq

/-- Where `trap_handler` is when it serves a system call. -/
inductive EcallPc where
  | doSyscall (call : Syscall)
  /-- `if (need_resched_clear()) schedule()`. -/
  | resched
  /-- `deliver_pending_signal(tf)`, and the return. -/
  | deliver
  deriving DecidableEq

/-- Where `sys_usleep` is. -/
inductive UsleepPc where
  /-- After `add_timer_us`. -/
  | registered
  /-- In `thread_block`, after `state = THREAD_BLOCKED`. -/
  | blocked
  deriving DecidableEq

/-- A call on a kernel stack, or the code at the bottom of it. -/
inductive Frame where
  /-- The user program. -/
  | user
  | idleThreadBody
  /-- The shell: `g_bootstrap`. -/
  | shell
  /-- The body of another kernel thread. -/
  | kernelThread
  /-- `trap_handler` on an interrupt: whether it was taken from U-mode, and the `SIE` that `sret`
  brings back. -/
  | irq (user sie : Bool) (pc : IrqPc)
  /-- `trap_handler` on an `ecall`. -/
  | ecall (sie : Bool) (pc : EcallPc)
  | callback (cb : Callback)
  /-- `task_run_pending()`, at the head of its loop. -/
  | taskRunPending
  /-- `task_run_pending()` after `t->cb(t->arg)`, which it called with this `prev_prio`. -/
  | taskDone (prevPrio : ℤ)
  | sysUsleep (tok : UsleepToken) (pc : UsleepPc)
  | sysWaitpid (child : Tid)
  | runUserProgram (child : Tid)
  /-- `thread_wakeup(par)` at the end of a termination. -/
  | threadWakeup (par : Tid)
  /-- `schedule()`, not begun. -/
  | schedule
  /-- `schedule()` between `sie_restore(flags)` and the end of `switch_to(prev, next)`. -/
  | switchTo (flags : Bool) (next : Tid)
  /-- `schedule()` about to return to its caller, which called it with `SIE = flags`. -/
  | scheduleReturn (flags : Bool)
  /-- `for (;;);` -/
  | dead
  deriving DecidableEq

/-- The state of the kernel. -/
structure Kernel where
  thread : Tid → Thread
  stack : Tid → List Frame
  /-- The threads created so far. -/
  count : ℕ
  /-- The threads whose struct and kernel stack were freed. -/
  freed : List Tid
  gNextTid : BitVec 32
  gRunq : List Tid
  gZombies : List Tid
  /-- `get_current()`. -/
  current : Tid
  /-- `sstatus.SIE`. -/
  sie : Bool
  gNeedResched : Bool
  gTimerQueue : List TimerNode
  gTaskQueue : List TaskNode
  gRunningPriority : ℤ
  gTimebaseFreq : BitVec 64
  /-- The `time` register, and the time of the next timer interrupt. -/
  clock : BitVec 64
  deadline : BitVec 64
  /-- `tf->a0` of each thread. -/
  a0 : Tid → BitVec 64
  /-- The calls of `sys_usleep` so far, and those whose callback has run. -/
  calls : ℕ
  ran : List ℕ

namespace Kernel

variable (k : Kernel) (t u c : Tid)

/-- `t->state`. -/
def state : ThreadState := (k.thread t).state
/-- `t->children`. -/
def children : List Tid := (k.thread t).children
/-- `t->parent`, unless it is `NULL`. -/
def parent : Option Tid := (k.thread t).parent

/-- Write fields of a thread. -/
def modify (f : Thread → Thread) : Kernel :=
  { k with thread := Function.update k.thread t (f (k.thread t)) }

/-- `t->state = s;` -/
def setState (s : ThreadState) : Kernel := k.modify t fun x => { x with state := s }

/-- `tf->a0 = v;` in the frame of `t`. -/
def setA0 (v : BitVec 64) : Kernel := { k with a0 := Function.update k.a0 t v }

/-- `list_add_tail(&t->link, &g_runq)`. -/
def enqueue : Kernel := { k with gRunq := k.gRunq ++ [t] }

/-- `list_del(&c->sibling)`: `c` leaves the list it is on. -/
def listDelSibling : Kernel :=
  { k with thread := fun u => { k.thread u with children := (k.thread u).children.erase c } }

/-- `list_add_tail(&c->sibling, &p->children)`. -/
def addChild (p c : Tid) : Kernel := k.modify p fun x => { x with children := x.children ++ [c] }

/-! ## `sched.c` -/

/-- The thread that `thread_alloc_bare` returns when both allocations succeed.  It is not on any
list yet. -/
def threadAllocBare : Kernel :=
  { k with
    thread := Function.update k.thread k.count
      { pid := k.gNextTid, state := .ready, parent := some k.current, children := [],
        exitStatus := 0, image := false }
    count := k.count + 1
    gNextTid := k.gNextTid + 1 }

/-- Link a new thread to its parent, put it on the run queue, and let it start with `f`. -/
def linkThread (p : Tid) (f : Frame) : Kernel :=
  let k := (k.addChild p t).enqueue t
  { k with stack := Function.update k.stack t [f] }

/-- `thread_create`; `ok` says whether the allocations succeed. -/
def threadCreate (ok : Bool) : Kernel :=
  if ok then k.threadAllocBare.linkThread k.count k.current .kernelThread else k

/-- A user thread: `thread_alloc_bare`, then the image.  When there is no memory for the image the
thread is freed again. -/
def newUserThread (ok okImage : Bool) : Kernel × Option Tid :=
  if ok then
    if okImage then
      ((k.threadAllocBare.modify k.count fun x => { x with image := true }).linkThread k.count
        k.current .user, some k.count)
    else
      ({ k with
          count := k.count + 1, gNextTid := k.gNextTid + 1, freed := k.count :: k.freed }, none)
  else (k, none)

/-- `thread_spawn_user`; `ok` also says whether the file was found. -/
def threadSpawnUser (ok okImage : Bool) : Kernel × Option Tid := k.newUserThread ok okImage

/-- The part of `thread_block` before `schedule()`. -/
def threadBlock : Kernel := k.setState k.current .blocked

/-- `thread_wakeup`. -/
def threadWakeup : Kernel :=
  if k.state t = .blocked then (k.setState t .ready).enqueue t else k

/-- `sched_zombify`. -/
def schedZombify : Kernel := { k with gZombies := k.gZombies ++ [t] }

/-- `schedule` between `sie_save_clear` and `sie_restore`, with the thread it takes off the run
queue. -/
def schedule : Kernel × Option Tid :=
  let prev := k.current
  let k := if k.state prev = .running then (k.setState prev .ready).enqueue prev else k
  match k.gRunq with
  | [] => (if k.state prev = .ready then k.setState prev .running else k, none)
  | next :: rest => ({ k.setState next .running with gRunq := rest }, some next)

/-- `thread_exit` up to `schedule()`. -/
def threadExit : Kernel :=
  let self := k.current
  ((k.setState self .zombie).listDelSibling self).schedZombify self

/-- One round of `kill_zombies`. -/
def killZombie : Option Kernel :=
  match k.gZombies with
  | [] => none
  | z :: rest =>
      some { k with gZombies := rest, freed := if z = gBootstrap then k.freed else z :: k.freed }

/-- `dfs_find_pid`, at most `fuel` calls deep. -/
def dfsFindPid (pid : BitVec 32) (fuel : ℕ) (root : Tid) : Option (Option Tid) :=
  Forest.search k.children (fun t => (k.thread t).pid = pid) fuel root

/-- `find_thread_by_pid`: the recursion is never deeper than there are threads. -/
def findThreadByPid (pid : BitVec 32) : Option Tid :=
  (k.dfsFindPid pid (k.count + 1) gBootstrap).join

/-! ## Fields -/

variable {k t u c} {f : Thread → Thread} {s : ThreadState}

theorem thread_modify : (k.modify t f).thread u = if u = t then f (k.thread t) else k.thread u :=
  Function.update_apply ..

theorem state_setState : (k.setState t s).state u = if u = t then s else k.state u := by
  show ((k.modify t _).thread u).state = _
  rw [thread_modify]
  split_ifs <;> rfl

theorem state_modify (hf : ∀ x, (f x).state = x.state) : (k.modify t f).state u = k.state u := by
  show ((k.modify t f).thread u).state = _
  rw [thread_modify]
  split_ifs with h
  · rw [hf, h]
    rfl
  · rfl

theorem children_modify (hf : ∀ x, (f x).children = x.children) :
    (k.modify t f).children u = k.children u := by
  show ((k.modify t f).thread u).children = _
  rw [thread_modify]
  split_ifs with h
  · rw [hf, h]
    rfl
  · rfl

theorem parent_modify (hf : ∀ x, (f x).parent = x.parent) :
    (k.modify t f).parent u = k.parent u := by
  show ((k.modify t f).thread u).parent = _
  rw [thread_modify]
  split_ifs with h
  · rw [hf, h]
    rfl
  · rfl

theorem pid_modify (hf : ∀ x, (f x).pid = x.pid) :
    ((k.modify t f).thread u).pid = (k.thread u).pid := by
  rw [thread_modify]
  split_ifs with h
  · rw [hf, h]
  · rfl

theorem image_modify (hf : ∀ x, (f x).image = x.image) :
    ((k.modify t f).thread u).image = (k.thread u).image := by
  rw [thread_modify]
  split_ifs with h
  · rw [hf, h]
  · rfl

/-- A round of `kill_zombies` takes the first zombie off the list. -/
theorem killZombie_eq_some {k' : Kernel} (h : k.killZombie = some k') :
    ∃ z zs, k.gZombies = z :: zs ∧ k' = { k with
      gZombies := zs, freed := if z = gBootstrap then k.freed else z :: k.freed } := by
  unfold killZombie at h
  cases hz : k.gZombies with
  | nil =>
    rw [hz] at h
    cases h
  | cons z zs =>
    rw [hz] at h
    exact ⟨z, zs, rfl, (Option.some.inj h).symm⟩

end Kernel
end Sched
end OscKernel
