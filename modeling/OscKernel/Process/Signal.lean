import OscKernel.Lib.Ownership
import OscKernel.Lib.Rv64

/-!
# Processes and their signals (`trap.h`, `signal.h`, `signal.c`)

The trap frame, the signal state, and what the functions of `signal.c` do to the process they are
called on and to the heap.  A `struct thread` is named by its address, so that its own memory is a
block of the heap like its kernel stack, its image and its signal stack.

* `State.signalCheckAndDispatch`, `State.signalReturn`: the way into a handler and back.
* `State.signalDefaultTerminate`: the default action.
-/

namespace OscKernel
namespace Process

open Rv64 (Word)

/-- A `struct thread`, by its address. -/
abbrev Tid := Word

/-- `struct trap_frame`. -/
structure TrapFrame where
  ra : Word
  sp : Word
  gp : Word
  tp : Word
  t0 : Word
  t1 : Word
  t2 : Word
  s0 : Word
  s1 : Word
  a0 : Word
  a1 : Word
  a2 : Word
  a3 : Word
  a4 : Word
  a5 : Word
  a6 : Word
  a7 : Word
  s2 : Word
  s3 : Word
  s4 : Word
  s5 : Word
  s6 : Word
  s7 : Word
  s8 : Word
  s9 : Word
  s10 : Word
  s11 : Word
  t3 : Word
  t4 : Word
  t5 : Word
  t6 : Word
  sepc : Word
  sstatus : Word
  scause : Word
  stval : Word
  deriving DecidableEq

/-- The frame after `zero_words`. -/
def TrapFrame.zero : TrapFrame :=
  ⟨0, 0, 0, 0, 0, 0, 0, 0, 0, 0, 0, 0, 0, 0, 0, 0, 0, 0, 0, 0, 0, 0, 0, 0, 0, 0, 0, 0, 0, 0, 0, 0,
    0, 0, 0⟩

/-- `NSIG`. -/
def nsig : ℕ := 32
/-- `SIG_DFL`. -/
def sigDfl : Word := 0
/-- `SIG_IGN`. -/
def sigIgn : Word := 1
/-- `SIGSTACK_SIZE`. -/
def sigstackSize : Word := 8192

/-- `struct signal_state`. -/
structure SignalState where
  pending : Word
  /-- `handlers[NSIG]`; the entries from `NSIG` on are not there. -/
  handlers : ℕ → Word
  inHandler : Bool
  saved : TrapFrame
  sigstackBase : Word

/-- `signal_state_init`. -/
def SignalState.init : SignalState := ⟨0, fun _ => 0, false, .zero, 0⟩

/-- Where a process is between U-mode and the return to U-mode. -/
inductive Phase where
  /-- In U-mode. -/
  | user
  /-- In `do_syscall`. -/
  | doSyscall
  /-- `do_syscall` has returned: `tf->a0 = r` comes next. -/
  | sysret (r : Word)
  /-- `deliver_pending_signal` comes next. -/
  | deliver
  deriving DecidableEq

/-- `struct thread`, as far as a process and its memory are concerned. -/
structure Thread where
  pid : BitVec 32
  /-- `state == THREAD_ZOMBIE`. -/
  zombie : Bool
  kstackBase : Word
  imageBase : Word
  totalSize : Word
  sig : SignalState
  /-- The trap frame on the kernel stack, or the registers while the process is in U-mode. -/
  frame : TrapFrame
  phase : Phase

/-- The processes and the heap.  `misc` holds what other parts of the kernel have allocated. -/
structure State where
  thread : Tid → Option Thread
  misc : ℕ → Word
  heap : BlockHeap Word
  gNextTid : BitVec 32

/-- The memory of a process. -/
inductive Part where
  | struct
  | kstack
  | image
  | sigstack
  deriving DecidableEq

/-- The block of the process at `t` that serves as `q`. -/
def Thread.part (x : Thread) (t : Tid) : Part → Word
  | .struct => t
  | .kstack => x.kstackBase
  | .image => x.imageBase
  | .sigstack => x.sig.sigstackBase

/-- Where pointers to heap blocks are kept. -/
inductive Slot where
  | part (t : Tid) (q : Part)
  | misc (i : ℕ)
  deriving DecidableEq

namespace State

variable (s : State) (t u : Tid)

/-- The pointer in a slot. -/
def own : Slot → Word
  | .part t q => ((s.thread t).map fun x => x.part t q).getD 0
  | .misc i => s.misc i

/-- Write fields of a process. -/
def modify (f : Thread → Thread) : State :=
  { s with thread := Function.update s.thread t ((s.thread t).map f) }

/-- `kmalloc` returns `p`, which is `NULL` or not allocated yet. -/
def kmalloc (p : Word) : Option State :=
  if p = 0 then some s
  else if p ∈ s.heap.live then none
  else some { s with heap := s.heap.acquire p }

/-- `kfree`. -/
def kfree (p : Word) : State := { s with heap := s.heap.release p }

/-- `if (p) kfree(p);` -/
def kfreeIf (p : Word) : State := if p = 0 then s else s.kfree p

/-! ## `signal.c` -/

/-- The loop of `lowest_bit_index`, at most `n` rounds of it. -/
def lowestBitIndexFrom : ℕ → Word → ℕ → ℕ
  | 0, _, idx => idx
  | n + 1, x, idx => if x &&& 1 = 0 then lowestBitIndexFrom n (x >>> 1) (idx + 1) else idx

/-- `lowest_bit_index`, of a bitmap that is not zero. -/
def lowestBitIndex (x : Word) : ℕ := lowestBitIndexFrom 64 x 0

/-- `signal_post`. -/
def signalPost (signum : ℤ) : State :=
  if signum ≤ 0 ∨ (nsig : ℤ) ≤ signum then s
  else s.modify t fun x =>
    { x with sig := { x.sig with pending := x.sig.pending ||| (1 : Word) <<< signum.toNat } }

/-- `signal_release`. -/
def signalRelease (x : Thread) : State :=
  (s.kfreeIf x.sig.sigstackBase).modify t fun x =>
    { x with sig := { x.sig with sigstackBase := 0, inHandler := false } }

/-- `state = THREAD_ZOMBIE`, and the image is freed. -/
def terminate (x : Thread) : State :=
  (s.kfreeIf x.imageBase).modify t fun x => { x with zombie := true, imageBase := 0 }

/-- `signal_default_terminate`; `sys_stop` and `sys_exit` do the same to the memory of the
process. -/
def signalDefaultTerminate (x : Thread) : State := (s.terminate t x).signalRelease t x

/-- The frame that lands in U-mode at the handler. -/
def handlerFrame (tf : TrapFrame) (h stk : Word) (signum : ℕ) : TrapFrame :=
  { tf with
    sepc := h
    sp := (stk + sigstackSize) &&& ~~~0xF
    a0 := BitVec.ofNat 64 signum
    ra := stk }

/-- Clear the bit of a signal that is delivered. -/
def takeSignal (signum : ℕ) (x : Thread) : Thread :=
  { x with sig := { x.sig with pending := x.sig.pending &&& ~~~((1 : Word) <<< signum) } }

/-- `mem_cpy(&self->sig.saved, tf, sizeof(*tf))`. -/
def saveFrame (x : Thread) : Thread := { x with sig := { x.sig with saved := x.frame } }

/-- Enter the handler `h` on the stack `stk`. -/
def enterHandler (h stk : Word) (signum : ℕ) (x : Thread) : Thread :=
  { x with
    sig := { x.sig with sigstackBase := stk, inHandler := true }
    frame := handlerFrame x.frame h stk signum }

/-- `signal_check_and_dispatch`, called by `t`; `stk` is what `kmalloc` returns. -/
def signalCheckAndDispatch (x : Thread) (stk : Word) : Option State :=
  if x.imageBase = 0 ∨ x.sig.inHandler ∨ x.sig.pending = 0 then some s
  else
    let signum := lowestBitIndex x.sig.pending
    let h := x.sig.handlers signum
    let s := s.modify t (takeSignal signum)
    if h = sigIgn then some s
    else if h = sigDfl then some (s.signalDefaultTerminate t x)
    else
      ((s.modify t saveFrame).kmalloc stk).map fun s =>
        if stk = 0 then s.signalDefaultTerminate t x
        else s.modify t (enterHandler h stk signum)

/-- `signal_return`, called by `t`, with its result. -/
def signalReturn (x : Thread) : State × Word :=
  if x.sig.inHandler then
    ((s.modify t fun x => { x with frame := x.sig.saved }).signalRelease t x, x.sig.saved.a0)
  else (s, -1)

end State
end Process
end OscKernel
