import OscKernel.Sched.Machine

/-!
# Calls of the scheduler (`sched.c`, `syscall.c`, `signal.c`, `shell.c`)

Kernel code that is switched at `schedule` only: one step is one call of the functions below by the
current thread, and a thread that terminates itself calls `schedule` in the same step.  Callers do
what the source asks of them, and arguments have not been freed; the machine stops at other calls.
It also stops where a thread ends whose parent has been freed (`ParentLive`): the source would read
the state of that parent, in memory that may belong to anybody.

* `Api.step`: one call.
-/

namespace OscKernel
namespace Sched

namespace Kernel

variable (k : Kernel) (t : Tid)

/-- The struct of `t` has been allocated and has not been freed. -/
def Live : Prop := t < k.count ∧ t ∉ k.freed

instance : Decidable (k.Live t) := inferInstanceAs (Decidable (_ ∧ _))

/-- `t->parent` is `NULL` or has not been freed. -/
def ParentLive : Prop := ∀ par ∈ k.parent t, par ∉ k.freed

instance : Decidable (k.ParentLive t) :=
  inferInstanceAs (Decidable (∀ par ∈ k.parent t, par ∉ k.freed))

/-- `schedule`, with `switch_to`. -/
def reschedule : Kernel :=
  match k.schedule with
  | (k', none) => k'
  | (k', some next) => { k' with current := next }

/-- `if (t->parent) thread_wakeup(t->parent);` -/
def wakeupParent : Kernel :=
  match k.parent t with
  | none => k
  | some par => k.threadWakeup par

/-- `sys_exit` up to `schedule`. -/
def exitCurrent (status : BitVec 64) : Kernel := (k.sysExit status).wakeupParent k.current

/-- `signal_default_terminate`; `sys_stop` and `shell_stop_pid` end a process in the same way. -/
def terminateThread : Kernel := (k.terminate t).wakeupParent t

/-- `if (t->parent) list_add_tail(&t->sibling, &t->parent->children);` -/
def linkParent : Kernel :=
  match k.parent t with
  | none => k
  | some par => k.addChild par t

/-- `thread_enqueue_ready(t)`, and what its caller has done to the new thread before. -/
def enqueueReady (image link : Bool) : Kernel :=
  let k := k.modify t fun x => { x with image := image }
  let k := if link then k.linkParent t else k
  (k.setState t .ready).enqueue t

/-- The memory of a thread that was never enqueued is freed. -/
def discard : Kernel := { k with freed := t :: k.freed }

end Kernel

/-- The kernel, and the threads that `thread_alloc_bare` has returned and that have not been put on
the run queue yet. -/
structure Api where
  k : Kernel
  bare : List Tid

/-- A call; `ok` says whether the allocations in it succeed. -/
inductive Call where
  | threadCreate (ok : Bool)
  | threadAllocBare (ok : Bool)
  /-- `thread_enqueue_ready(t)`, and what its caller has done to the new thread before. -/
  | threadEnqueueReady (t : Tid) (image link : Bool)
  /-- The maker frees the thread again. -/
  | discard (t : Tid)
  /-- `thread_spawn_user` or `sys_fork`. -/
  | newUserThread (ok okImage : Bool)
  | schedule
  | threadBlock
  | threadWakeup (t : Tid)
  | threadExit
  | sysExit (status : BitVec 64)
  | sysStop (pid : BitVec 64)
  | shellStopPid (pid : BitVec 32)
  | signalDefaultTerminate (t : Tid)
  /-- `list_del(&t->sibling)` and `sched_zombify(t)`. -/
  | schedZombify (t : Tid)
  /-- One round of `kill_zombies`. -/
  | killZombies
  deriving DecidableEq

namespace Api

variable (s : Api)

/-- A call that does not go on with `schedule`. -/
def done (k : Kernel) : Option (Api × Bool) := some ({ s with k := k }, false)

/-- A call that goes on with `schedule`. -/
def yield (k : Kernel) : Option (Api × Bool) := some ({ s with k := k }, true)

/-- Terminate the process that `find_thread_by_pid` has found, if it is one. -/
def stopTarget (pid : BitVec 32) : Option (Api × Bool) :=
  match s.k.stopTarget pid with
  | none => s.done s.k
  | some t => if s.k.ParentLive t then s.done (s.k.terminateThread t) else none

/-- A call up to the `schedule` at its end, and whether there is one. -/
def call (s : Api) : Call → Option (Api × Bool)
  | .threadCreate ok => s.done (s.k.threadCreate ok)
  | .threadAllocBare ok =>
      some (if ok then ⟨s.k.threadAllocBare, s.k.count :: s.bare⟩ else s, false)
  | .threadEnqueueReady t image link =>
      if t ∈ s.bare ∧ s.k.ParentLive t then
        some (⟨s.k.enqueueReady t image link, s.bare.erase t⟩, false)
      else none
  | .discard t =>
      if t ∈ s.bare then some (⟨s.k.discard t, s.bare.erase t⟩, false) else none
  | .newUserThread ok okImage => s.done (s.k.newUserThread ok okImage).1
  | .schedule => s.yield s.k
  | .threadBlock =>
      -- `idle_thread_body` never blocks
      if s.k.current = idle then none else s.yield s.k.threadBlock
  | .threadWakeup t => if s.k.Live t then s.done (s.k.threadWakeup t) else none
  | .threadExit =>
      -- `idle_thread_body` never returns
      if s.k.current ≠ idle ∧ s.k.ParentLive s.k.current then s.yield s.k.threadExit else none
  | .sysExit status =>
      -- a system call comes from a process
      if (s.k.thread s.k.current).image ∧ s.k.ParentLive s.k.current then
        s.yield (s.k.exitCurrent status)
      else none
  | .sysStop pid =>
      if (s.k.thread s.k.current).image then
        if pid.setWidth 32 = (s.k.thread s.k.current).pid then
          if s.k.ParentLive s.k.current then s.yield (s.k.exitCurrent (-1)) else none
        else s.stopTarget (pid.setWidth 32)
      else none
  | .shellStopPid pid => if s.k.current = gBootstrap then s.stopTarget pid else none
  | .signalDefaultTerminate t =>
      if s.k.Live t ∧ (s.k.thread t).image ∧ s.k.ParentLive t then
        if t = s.k.current then s.yield (s.k.terminateThread t)
        else s.done (s.k.terminateThread t)
      else none
  | .schedZombify t =>
      if s.k.Live t ∧ s.k.state t = .zombie ∧ t ∉ s.k.gZombies ∧ s.k.ParentLive t then
        s.done (s.k.collect t)
      else none
  | .killZombies =>
      if s.k.current = idle then s.done (s.k.killZombie.getD s.k) else none

/-- `schedule`, if the call goes on with it. -/
def finish (r : Api × Bool) : Api := if r.2 then { r.1 with k := r.1.k.reschedule } else r.1

/-- A call. -/
def step (s : Api) (c : Call) : Option Api := (s.call c).map finish

/-- The state that `sched_init` leaves behind. -/
def boot (freq : BitVec 64) : Api := ⟨Kernel.boot freq, []⟩

end Api
end Sched
end OscKernel
