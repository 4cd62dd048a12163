import OscKernel.Process.Signal
import OscKernel.Lib.Transition

/-!
# Processes between traps (`syscall.c`, `trap.c`, `sched.c`, `shell.c`)

The traps of processes: a process in U-mode is interrupted or executes `ecall`, with any registers;
`do_syscall` does its work; the result goes to `tf->a0`; a pending signal is delivered and the trap
returns.  The steps of different processes follow each other in any order, so a process can be
preempted between any two of its steps.  What `find_thread_by_pid`, `cpio_find`, `kmalloc` and the
system calls that do not touch this state return is part of the label.

* `State.doSyscall`: what a system call does.
* `State.step`: one step.
-/

namespace OscKernel
namespace Process

open Rv64 (Word)

/-- `USER_STACK_SIZE`. -/
def userStackSize : Word := 16384

/-- The numbers of the system calls. -/
inductive Syscall where
  | getpid
  | uartRead
  | uartWrite
  | exec
  | fork
  | waitpid
  | exit
  | stop
  | display
  | usleep
  | signal
  | sigreturn
  | kill
  deriving DecidableEq

/-- The system call that `tf->a7` asks for. -/
def Syscall.decode (a7 : Word) : Option Syscall :=
  match a7.toNat with
  | 0 => some .getpid
  | 1 => some .uartRead
  | 2 => some .uartWrite
  | 3 => some .exec
  | 4 => some .fork
  | 5 => some .waitpid
  | 6 => some .exit
  | 7 => some .stop
  | 8 => some .display
  | 9 => some .usleep
  | 10 => some .signal
  | 11 => some .sigreturn
  | 12 => some .kill
  | _ => none

/-- What other parts of the kernel return. -/
structure Choice where
  /-- `find_thread_by_pid`. -/
  target : Option Tid := none
  /-- The size of the file that `cpio_find` finds. -/
  file : Option Word := none
  /-- `kmalloc` for a `struct thread`, for its kernel stack and for an image. -/
  structBlock : Word := 0
  kstackBlock : Word := 0
  block : Word := 0
  /-- The result of a system call that does not touch this state. -/
  value : Word := 0
  /-- `sstatus` when a process is spawned. -/
  sstatus : Word := 0

namespace State

variable (s : State) (t : Tid) (x : Thread) (c : Choice)

/-- `do_syscall` returns `r`. -/
def ret (r : Word) : State := s.modify t fun x => { x with phase := .sysret r }

/-! ## `sched.c` -/

/-- `thread_alloc_bare`, then the image, then `new` is linked; whether there was memory for all of
it. -/
def newThread (new : Thread) : Option (State × Bool) :=
  (s.kmalloc c.structBlock).bind fun s =>
    if c.structBlock = 0 then some (s, false)
    else (s.kmalloc c.kstackBlock).bind fun s =>
      if c.kstackBlock = 0 then some (s.kfree c.structBlock, false)
      else ({ s with gNextTid := s.gNextTid + 1 }.kmalloc c.block).bind fun s =>
        if c.block = 0 then some ((s.kfree c.kstackBlock).kfree c.structBlock, false)
        else some ({ s with thread := Function.update s.thread c.structBlock (some new) }, true)

/-- The process that `thread_spawn_user` makes, with the frame of `plant_initial_frame`. -/
def spawned (sz : Word) : Thread where
  pid := s.gNextTid
  zombie := false
  kstackBase := c.kstackBlock
  imageBase := c.block
  totalSize := sz + userStackSize
  sig := .init
  frame := { TrapFrame.zero with
    sepc := c.block
    sp := (c.block + (sz + userStackSize)) &&& ~~~0xF
    tp := c.structBlock
    sstatus := c.sstatus }
  phase := .user

/-- `thread_spawn_user`. -/
def threadSpawnUser : Option State :=
  match c.file with
  | none => some s
  | some sz => (s.newThread c (s.spawned c sz)).map Prod.fst

/-- `kill_zombies` frees `t`. -/
def reap : State :=
  { (s.kfreeIf x.kstackBase).kfree t with thread := Function.update s.thread t none }

/-! ## `syscall.c` -/

/-- The frame after `sys_exec`. -/
def execFrame (tf : TrapFrame) (buf total : Word) : TrapFrame :=
  { TrapFrame.zero with
    sepc := buf
    sp := (buf + total) &&& ~~~0xF
    tp := t
    sstatus := tf.sstatus
    scause := tf.scause
    stval := tf.stval }

/-- `sys_exec`. -/
def sysExec : Option State :=
  if x.imageBase = 0 then some (s.ret t (-1))
  else match c.file with
    | none => some (s.ret t (-1))
    | some sz =>
        (s.kmalloc c.block).map fun s =>
          if c.block = 0 then s.ret t (-1)
          else
            let s := (s.modify t fun x =>
              { x with imageBase := c.block, totalSize := sz + userStackSize }).kfree x.imageBase
            let s := s.modify t fun x =>
              { x with sig := { x.sig with handlers := fun _ => sigDfl, pending := 0 } }
            let s := s.signalRelease t x
            (s.modify t fun x =>
              { x with frame := execFrame t x.frame c.block (sz + userStackSize) }).ret t 0

/-- The process that `sys_fork` makes. -/
def forked : Thread where
  pid := s.gNextTid
  zombie := false
  kstackBase := c.kstackBlock
  imageBase := c.block
  totalSize := x.totalSize
  sig := { SignalState.init with handlers := x.sig.handlers }
  frame := { x.frame with
    a0 := 0
    sp := c.block + (x.frame.sp - x.imageBase)
    tp := c.structBlock }
  phase := .user

/-- `sys_fork`. -/
def sysFork : Option State :=
  if x.imageBase = 0 then some (s.ret t (-1))
  else (s.newThread c (s.forked x c)).map fun r =>
    r.1.ret t (if r.2 then s.gNextTid.signExtend 64 else -1)

/-- `sys_exit`. -/
def sysExit : State := s.signalDefaultTerminate t x

/-- Terminate the process that `find_thread_by_pid` has found, if it is one. -/
def stopTarget : Option State :=
  (c.target.bind fun u => (s.thread u).bind fun y =>
    if y.imageBase = 0 then none else some (s.signalDefaultTerminate u y))

/-- `sys_stop`. -/
def sysStop : State :=
  if x.frame.a0.setWidth 32 = x.pid then s.sysExit t x
  else match s.stopTarget c with
    | none => s.ret t (-1)
    | some s => s.ret t 0

/-- `shell_stop_pid`, which leaves the signal stack alone. -/
def shellStopPid : Option State :=
  (c.target.bind fun u => (s.thread u).bind fun y =>
    if y.imageBase = 0 then none else some (s.terminate u y))

/-- `sys_signal`. -/
def sysSignal : State :=
  let signum := (x.frame.a0.setWidth 32).toInt
  if signum ≤ 0 ∨ (nsig : ℤ) ≤ signum then s.ret t (-1)
  else
    (s.modify t fun x =>
      { x with sig := { x.sig with
          handlers := Function.update x.sig.handlers signum.toNat x.frame.a1 } }).ret t
      (x.sig.handlers signum.toNat)

/-- Post a signal to the process that `find_thread_by_pid` has found, if it is one. -/
def killTarget (signum : ℤ) : Option State :=
  (c.target.bind fun u => (s.thread u).bind fun y =>
    if y.imageBase = 0 then none else some (s.signalPost u signum))

/-- `sys_kill`. -/
def sysKill : State :=
  let signum := (x.frame.a1.setWidth 32).toInt
  if signum ≤ 0 ∨ (nsig : ℤ) ≤ signum then s.ret t (-1)
  else match s.killTarget c signum with
    | none => s.ret t (-1)
    | some s => s.ret t 0

/-- `sys_sigreturn`. -/
def sysSigreturn : State := (s.signalReturn t x).1.ret t (s.signalReturn t x).2

/-- `do_syscall`. -/
def doSyscall : Option State :=
  match Syscall.decode x.frame.a7 with
  | some .getpid => some (s.ret t (x.pid.signExtend 64))
  | some .exec => s.sysExec t x c
  | some .fork => s.sysFork t x c
  | some .exit => some (s.sysExit t x)
  | some .stop => some (s.sysStop t x c)
  | some .signal => some (s.sysSignal t x)
  | some .sigreturn => some (s.sysSigreturn t x)
  | some .kill => some (s.sysKill t x c)
  | some .uartRead | some .uartWrite | some .waitpid | some .display | some .usleep =>
      some (s.ret t c.value)
  | none => some (s.ret t (-1))

end State

/-- A step. -/
inductive Label where
  /-- An interrupt is taken in U-mode, with these registers. -/
  | interrupt (t : Tid) (f : TrapFrame)
  /-- An `ecall` is taken in U-mode, with these registers. -/
  | ecall (t : Tid) (f : TrapFrame)
  | doSyscall (t : Tid) (c : Choice)
  /-- `tf->a0 = do_syscall(tf)`. -/
  | sysret (t : Tid)
  /-- `deliver_pending_signal` and the return to U-mode; `stk` is what `kmalloc` returns. -/
  | deliver (t : Tid) (stk : Word)
  /-- The shell runs a program, stops a process, or sends it a signal. -/
  | spawn (c : Choice)
  | stop (c : Choice)
  | kill (c : Choice) (signum : ℤ)
  | reap (t : Tid)
  /-- Another part of the kernel allocates or frees. -/
  | kmalloc (i : ℕ) (p : Word)
  | kfree (i : ℕ)

namespace State

/-- The process `t`, when it is at the point `p`. -/
def inPhase (s : State) (t : Tid) (p : Phase → Bool) : Option Thread :=
  (s.thread t).filter fun x => !x.zombie && p x.phase

/-- One step.  A process takes part in what its phase says, unless it is a zombie. -/
def step (s : State) : Label → Option State
  | .interrupt t f =>
      (s.inPhase t (· == .user)).map fun _ =>
        s.modify t fun x => { x with frame := f, phase := .deliver }
  | .ecall t f =>
      (s.inPhase t (· == .user)).map fun _ =>
        s.modify t fun x => { x with frame := { f with sepc := f.sepc + 4 }, phase := .doSyscall }
  | .doSyscall t c => (s.inPhase t (· == .doSyscall)).bind fun x => s.doSyscall t x c
  | .sysret t =>
      (s.inPhase t fun p => p matches .sysret _).map fun _ => s.modify t fun x =>
        match x.phase with
        | .sysret r => { x with frame := { x.frame with a0 := r }, phase := .deliver }
        | _ => x
  | .deliver t stk =>
      (s.inPhase t (· == .deliver)).bind fun x => (s.signalCheckAndDispatch t x stk).map fun s =>
        s.modify t fun x => { x with phase := .user }
  | .spawn c => s.threadSpawnUser c
  | .stop c => s.shellStopPid c
  | .kill c signum => s.killTarget c signum
  | .reap t => ((s.thread t).filter Thread.zombie).map fun x => s.reap t x
  | .kmalloc i p =>
      if s.misc i = 0 then (s.kmalloc p).map fun s => { s with misc := Function.update s.misc i p }
      else none
  | .kfree i =>
      if s.misc i = 0 then none
      else some { s.kfree (s.misc i) with misc := Function.update s.misc i 0 }

/-- No process has been made yet. -/
def boot : State := ⟨fun _ => none, fun _ => 0, ⟨[], []⟩, 0⟩

end State
end Process
end OscKernel
