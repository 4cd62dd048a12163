import OscKernel.Lib.StableQueue
import OscKernel.Sched.Machine

/-!
# Claiming and completing interrupts (`trap.c`, `uart.c`, `task.c`, `plic.c`)

An external interrupt is claimed by `trap_handler`.  That of the UART is completed by a task that
`uart_top_half` adds, or at once if there is no memory for the task; any other is completed by
`trap_handler`.  All the calls are on one stack.  Interrupts are taken on top of any of them, also
where the source masks them, and a handler that returns goes back to what it interrupted.

* `Interrupts.step`: a step of the innermost call, or an interrupt.
* `gateway`: the PLIC does not deliver a source again before it is completed.
* `Interrupts.Conserved.step`: no step loses or doubles a claim.
* `Interrupts.Drains.step`: no step forgets a task of the UART on the queue.
* `Interrupts.completed_of_reachable`: every claim is completed once.

## Where a claim is

From the claim to its completion somebody is responsible for it: the top half, then a task on the
queue or the top half again when there was no memory, then the callback.  `Conserved` counts these
places for every source, and each step moves a claim from one to the next.  The gateway makes the
number at most one.

## Why it ends

That the claims in progress come to their completion is not clear from the counts: a task could stay
on the queue when every call has returned.  The last round of `task_run_pending` on the stack looks
at the whole queue with the priority of its caller, and the outermost call has the lowest
(`Drains`).  `weight` bounds the number of steps that are left when no further interrupt is taken.
-/

namespace OscKernel
namespace Uart

open Transition
open Sched (taskPrioIdle uartTaskPrio)

/-- A callback, with its argument. -/
inductive Work where
  | uartBottomHalf (arg : BitVec 64)
  | other
  deriving DecidableEq

/-- `struct task_node`. -/
structure WorkNode where
  work : Work
  priority : ℤ
  deriving DecidableEq

/-- `n` goes before `t` in `g_task_queue`. -/
def WorkNode.Before (n t : WorkNode) : Prop := n.priority < t.priority

instance : DecidableRel WorkNode.Before := fun n t =>
  inferInstanceAs (Decidable (n.priority < t.priority))

/-- Where `trap_handler` is when it serves an interrupt. -/
inductive IrqHandlerPc where
  /-- `plic_claim` has returned `irq`. -/
  | claimed (irq : BitVec 32)
  /-- In `uart_top_half(irq)`, before `add_task`. -/
  | uartTopHalf (irq : BitVec 32)
  /-- In `uart_top_half(irq)`, after `add_task` has failed. -/
  | outOfMemory (irq : BitVec 32)
  | timerTopHalf
  /-- At `task_run_pending()`. -/
  | taskRunPending
  /-- After it. -/
  | leave
  deriving DecidableEq

/-- A call on the stack. -/
inductive IrqCall where
  | trapHandler (pc : IrqHandlerPc)
  /-- `task_run_pending()`, at the head of its loop. -/
  | taskRunPending
  /-- `t->cb(t->arg)`; `uart_bottom_half` has not called `plic_complete`. -/
  | callback (work : Work)
  /-- `uart_bottom_half`, after `plic_complete`. -/
  | uartBottomHalfEnd
  /-- `task_run_pending()` after `t->cb(t->arg)`, which it called with this `prev_prio`. -/
  | taskDone (prevPrio : ℤ)
  deriving DecidableEq

/-- The task queue, the calls in progress, the innermost first, and what the PLIC has seen. -/
structure Interrupts where
  gTaskQueue : List WorkNode
  gRunningPriority : ℤ
  stack : List IrqCall
  /-- The results of `plic_claim` other than zero, the latest first. -/
  claims : List (BitVec 32)
  /-- The arguments of `plic_complete`, the latest first. -/
  completes : List (BitVec 32)

/-- What happens next. -/
inductive IrqEvent where
  /-- An external interrupt is taken, and `plic_claim` returns `irq`. -/
  | external (irq : BitVec 32)
  /-- A timer interrupt is taken. -/
  | timer
  /-- Code of the kernel, a callback or `timer_top_half` adds a task of its own. -/
  | addTask (priority : ℤ) (ok : Bool)
  /-- Code of the kernel or a callback calls `task_run_pending`. -/
  | taskRunPending
  /-- `timer_top_half` calls the callback of a timer. -/
  | callTimer
  /-- The innermost call goes on; `ok` says whether `add_task` finds memory. -/
  | run (ok : Bool)
  deriving DecidableEq

namespace Interrupts

variable (s : Interrupts)

/-- `plic_claim`, when it returns `irq`. -/
def plicClaim (irq : BitVec 32) : Interrupts :=
  if irq = 0 then s else { s with claims := irq :: s.claims }

/-- `plic_complete`. -/
def plicComplete (irq : BitVec 32) : Interrupts := { s with completes := irq :: s.completes }

/-- `add_task`, when there is memory for the node. -/
def addTask (work : Work) (priority : ℤ) : Interrupts :=
  { s with gTaskQueue := s.gTaskQueue.orderedInsert WorkNode.Before ⟨work, priority⟩ }

/-- The calls `fs` are in progress. -/
def setStack (fs : List IrqCall) : Interrupts := { s with stack := fs }

/-- `trap_handler` goes on, above the calls `fs`. -/
def trapHandler (gUartIrq : BitVec 32) (ok : Bool) (fs : List IrqCall) :
    IrqHandlerPc → Interrupts
  | .claimed irq =>
      if irq = gUartIrq ∧ irq ≠ 0 then s.setStack (.trapHandler (.uartTopHalf irq) :: fs)
      else (if irq ≠ 0 then s.plicComplete irq else s).setStack (.trapHandler .taskRunPending :: fs)
  | .uartTopHalf irq =>
      if ok then
        (s.addTask (.uartBottomHalf (irq.setWidth 64)) uartTaskPrio).setStack
          (.trapHandler .taskRunPending :: fs)
      else s.setStack (.trapHandler (.outOfMemory irq) :: fs)
  | .outOfMemory irq => (s.plicComplete irq).setStack (.trapHandler .taskRunPending :: fs)
  | .timerTopHalf => s.setStack (.trapHandler .taskRunPending :: fs)
  | .taskRunPending => s.setStack (.taskRunPending :: .trapHandler .leave :: fs)
  | .leave => s.setStack fs

/-- The loop of `task_run_pending` up to the callback that it calls, or its return. -/
def taskRunPending (fs : List IrqCall) : Interrupts :=
  match s.gTaskQueue with
  | t :: rest =>
      if t.priority < s.gRunningPriority then
        { s with
          gTaskQueue := rest
          gRunningPriority := t.priority
          stack := .callback t.work :: .taskDone s.gRunningPriority :: fs }
      else s.setStack fs
  | [] => s.setStack fs

/-- The innermost call goes on. -/
def run (gUartIrq : BitVec 32) (ok : Bool) : Option Interrupts :=
  match s.stack with
  | .trapHandler pc :: fs => some (s.trapHandler gUartIrq ok fs pc)
  | .taskRunPending :: fs => some (s.taskRunPending fs)
  | .callback (.uartBottomHalf arg) :: fs =>
      some ((s.plicComplete (arg.setWidth 32)).setStack (.uartBottomHalfEnd :: fs))
  | .callback .other :: fs => some (s.setStack fs)
  | .uartBottomHalfEnd :: fs => some (s.setStack fs)
  | .taskDone prevPrio :: fs =>
      some { s with gRunningPriority := prevPrio, stack := .taskRunPending :: fs }
  | [] => none

/-- Code of the kernel that no handler runs, or a callback, may call `task_run_pending`. -/
def inOther : Bool := s.stack.head? == none || s.stack.head? == some (.callback .other)

/-- `timer_top_half` is running. -/
def inTimer : Bool := s.stack.head? == some (.trapHandler .timerTopHalf)

/-- A step; `gUartIrq` is `g_uart_irq`. -/
def step (gUartIrq : BitVec 32) (s : Interrupts) : IrqEvent → Option Interrupts
  | .external irq => some ((s.plicClaim irq).setStack (.trapHandler (.claimed irq) :: s.stack))
  | .timer => some (s.setStack (.trapHandler .timerTopHalf :: s.stack))
  | .addTask priority ok =>
      if s.inOther || s.inTimer then some (if ok then s.addTask .other priority else s) else none
  | .taskRunPending =>
      if s.inOther then some (s.setStack (.taskRunPending :: s.stack)) else none
  | .callTimer => if s.inTimer then some (s.setStack (.callback .other :: s.stack)) else none
  | .run ok => s.run gUartIrq ok

/-- No interrupt has been taken. -/
def start : Interrupts := ⟨[], taskPrioIdle, [], [], []⟩

/-! ## The claims in progress -/

/-- The source `irq` is claimed and not completed. -/
def InService (irq : BitVec 32) : Prop := s.completes.count irq < s.claims.count irq

instance (irq : BitVec 32) : Decidable (s.InService irq) :=
  inferInstanceAs (Decidable (s.completes.count irq < s.claims.count irq))

end Interrupts

/-- **The PLIC does not deliver a source again** between its claim and its completion. -/
def gateway (s : Interrupts) : IrqEvent → Prop
  | .external irq => ¬ s.InService irq
  | _ => True

instance (s : Interrupts) : (e : IrqEvent) → Decidable (gateway s e)
  | .external irq => inferInstanceAs (Decidable (¬ s.InService irq))
  | .timer => isTrue trivial
  | .addTask _ _ => isTrue trivial
  | .taskRunPending => isTrue trivial
  | .callTimer => isTrue trivial
  | .run _ => isTrue trivial

/-- The claim that a handler is about to complete, or to hand over to a task. -/
def IrqCall.topHalf : IrqCall → List (BitVec 32)
  | .trapHandler (.claimed irq) => if irq = 0 then [] else [irq]
  | .trapHandler (.uartTopHalf irq) => [irq]
  | .trapHandler (.outOfMemory irq) => [irq]
  | _ => []

/-- The claim that a callback will complete. -/
def Work.bottomHalf : Work → List (BitVec 32)
  | .uartBottomHalf arg => [arg.setWidth 32]
  | .other => []

/-- The claims that the call will complete. -/
def IrqCall.bottomHalf : IrqCall → List (BitVec 32)
  | .callback work => work.bottomHalf
  | _ => []

namespace Interrupts

variable (s : Interrupts)

/-- The claims whose handler is running and has not handed them over. -/
def topHalves : List (BitVec 32) := s.stack.flatMap IrqCall.topHalf

/-- The claims of the calls of `uart_bottom_half` that are queued, or executing before
`plic_complete`. -/
def bottomHalves : List (BitVec 32) :=
  s.gTaskQueue.flatMap (fun n => n.work.bottomHalf) ++ s.stack.flatMap IrqCall.bottomHalf

/-! ## Conservation -/

/-- How often `x` is in progress on a stack. -/
def onStack (x : BitVec 32) (fs : List IrqCall) : ℕ :=
  (fs.flatMap IrqCall.topHalf).count x + (fs.flatMap IrqCall.bottomHalf).count x

/-- How often `x` is in progress on a task queue. -/
def onQueue (x : BitVec 32) (q : List WorkNode) : ℕ :=
  (q.flatMap fun n => n.work.bottomHalf).count x

variable {s} {s' : Interrupts} {fs : List IrqCall} {gUartIrq x : BitVec 32}

@[simp] theorem onStack_cons {f : IrqCall} :
    onStack x (f :: fs) = f.topHalf.count x + f.bottomHalf.count x + onStack x fs := by
  unfold onStack
  simp only [List.flatMap_cons, List.count_append]
  omega

@[simp] theorem onQueue_cons {n : WorkNode} {q : List WorkNode} :
    onQueue x (n :: q) = n.work.bottomHalf.count x + onQueue x q := by
  unfold onQueue
  rw [List.flatMap_cons, List.count_append]

/-- A task has its claim in progress from `add_task` on. -/
@[simp] theorem onQueue_orderedInsert {n : WorkNode} {q : List WorkNode} :
    onQueue x (q.orderedInsert WorkNode.Before n) =
      n.work.bottomHalf.count x + onQueue x q := by
  rw [← onQueue_cons]
  exact ((List.perm_orderedInsert WorkNode.Before n q).flatMap_right _).count_eq x

theorem onStack_add_onQueue : s.topHalves.count x + s.bottomHalves.count x =
    onStack x s.stack + onQueue x s.gTaskQueue := by
  unfold onStack onQueue topHalves bottomHalves
  rw [List.count_append]
  omega

/-- The claims are those that have been completed and those in progress. -/
def Conserved (s : Interrupts) : Prop :=
  ∀ x, s.claims.count x = s.completes.count x + (onStack x s.stack + onQueue x s.gTaskQueue)

theorem topHalf_claimed (hzero : x ≠ 0) : (IrqCall.trapHandler (.claimed x)).topHalf = [x] :=
  if_neg hzero

/-- `trap_handler` completes every source but the UART itself. -/
theorem trapHandler_claimed_of_ne (hne : x ≠ gUartIrq) (hzero : x ≠ 0) (ok : Bool) :
    s.trapHandler gUartIrq ok fs (.claimed x) =
      (s.plicComplete x).setStack (.trapHandler .taskRunPending :: fs) := by
  rw [trapHandler, if_neg fun h => hne h.1, if_pos hzero]

theorem trapHandler_claimed_uart (hzero : gUartIrq ≠ 0) (ok : Bool) :
    s.trapHandler gUartIrq ok fs (.claimed gUartIrq) =
      s.setStack (.trapHandler (.uartTopHalf gUartIrq) :: fs) :=
  if_pos ⟨rfl, hzero⟩

theorem trapHandler_claimed_zero (ok : Bool) : s.trapHandler gUartIrq ok fs (.claimed 0) =
    s.setStack (.trapHandler .taskRunPending :: fs) := by
  rw [trapHandler, if_neg fun h => h.2 rfl, if_neg fun h => h rfl]

/-- **A step of `trap_handler`** keeps the balance: it completes the claim, hands it over to a task,
or still has it. -/
theorem Conserved.trapHandler {pc : IrqHandlerPc} (h : s.Conserved)
    (hstack : s.stack = .trapHandler pc :: fs) (ok : Bool) :
    (s.trapHandler gUartIrq ok fs pc).Conserved := by
  intro x
  have hx := h x
  rw [hstack, onStack_cons] at hx
  cases pc with
  | claimed irq =>
    by_cases hzero : irq = 0
    · subst hzero
      rw [trapHandler_claimed_zero]
      simpa [setStack, IrqCall.topHalf, IrqCall.bottomHalf] using hx
    rw [topHalf_claimed hzero] at hx
    by_cases huart : irq = gUartIrq
    · subst huart
      rw [trapHandler_claimed_uart hzero]
      simpa [setStack, IrqCall.topHalf, IrqCall.bottomHalf] using hx
    · rw [trapHandler_claimed_of_ne huart hzero]
      simp [setStack, plicComplete, IrqCall.topHalf, IrqCall.bottomHalf, List.count_cons] at hx ⊢
      omega
  | uartTopHalf irq =>
    rw [Interrupts.trapHandler]
    split_ifs
    · simp [setStack, addTask, IrqCall.topHalf, IrqCall.bottomHalf, Work.bottomHalf] at hx ⊢
      omega
    · simpa [setStack, IrqCall.topHalf, IrqCall.bottomHalf] using hx
  | outOfMemory irq =>
    simp [Interrupts.trapHandler, setStack, plicComplete, IrqCall.topHalf, IrqCall.bottomHalf,
      List.count_cons] at hx ⊢
    omega
  | timerTopHalf =>
    simpa [Interrupts.trapHandler, setStack, IrqCall.topHalf, IrqCall.bottomHalf] using hx
  | taskRunPending =>
    simpa [Interrupts.trapHandler, setStack, IrqCall.topHalf, IrqCall.bottomHalf] using hx
  | leave =>
    simpa [Interrupts.trapHandler, setStack, IrqCall.topHalf, IrqCall.bottomHalf] using hx

/-- What a round of `task_run_pending` does. -/
theorem taskRunPending_cases (s : Interrupts) (fs : List IrqCall) :
    (∃ t rest, s.gTaskQueue = t :: rest ∧
      t.priority < s.gRunningPriority ∧ s.taskRunPending fs = { s with
        gTaskQueue := rest, gRunningPriority := t.priority
        stack := .callback t.work :: .taskDone s.gRunningPriority :: fs }) ∨
    (∀ t ∈ s.gTaskQueue.head?, s.gRunningPriority ≤ t.priority) ∧
      s.taskRunPending fs = s.setStack fs := by
  unfold taskRunPending
  cases hq : s.gTaskQueue with
  | nil => exact Or.inr ⟨nofun, rfl⟩
  | cons t rest =>
    dsimp only
    split_ifs with hlt
    · exact Or.inl ⟨t, rest, rfl, hlt, rfl⟩
    · refine Or.inr ⟨fun u hu => ?_, rfl⟩
      obtain rfl : t = u := Option.some.inj hu
      exact not_lt.mp hlt

theorem Conserved.taskRunPending (h : s.Conserved) (hstack : s.stack = .taskRunPending :: fs) :
    (s.taskRunPending fs).Conserved := by
  intro x
  have hx := h x
  rw [hstack, onStack_cons] at hx
  obtain ⟨t, rest, hq, -, heq⟩ | ⟨-, heq⟩ := taskRunPending_cases s fs
  · -- the claim moves from the queue to the stack
    rw [heq]
    simp [hq, IrqCall.topHalf, IrqCall.bottomHalf] at hx ⊢
    omega
  · rw [heq]
    simpa [setStack, IrqCall.topHalf, IrqCall.bottomHalf] using hx

/-- What the innermost call does. -/
theorem run_cases {ok : Bool} (hs : s.run gUartIrq ok = some s') :
    (∃ pc fs, s.stack = .trapHandler pc :: fs ∧ s' = s.trapHandler gUartIrq ok fs pc) ∨
    (∃ fs, s.stack = .taskRunPending :: fs ∧ s' = s.taskRunPending fs) ∨
    (∃ arg fs, s.stack = .callback (.uartBottomHalf arg) :: fs ∧
      s' = (s.plicComplete (arg.setWidth 32)).setStack (.uartBottomHalfEnd :: fs)) ∨
    (∃ f fs, s.stack = f :: fs ∧ (f = .callback .other ∨ f = .uartBottomHalfEnd) ∧
      s' = s.setStack fs) ∨
    ∃ prevPrio fs, s.stack = .taskDone prevPrio :: fs ∧
      s' = { s with gRunningPriority := prevPrio, stack := .taskRunPending :: fs } := by
  unfold run at hs
  split at hs
  · next pc fs hstack => exact Or.inl ⟨pc, fs, hstack, (Option.some.inj hs).symm⟩
  · next fs hstack => exact Or.inr (Or.inl ⟨fs, hstack, (Option.some.inj hs).symm⟩)
  · next arg fs hstack =>
    exact Or.inr (Or.inr (Or.inl ⟨arg, fs, hstack, (Option.some.inj hs).symm⟩))
  · next fs hstack =>
    exact Or.inr (Or.inr (Or.inr (Or.inl ⟨_, fs, hstack, Or.inl rfl, (Option.some.inj hs).symm⟩)))
  · next fs hstack =>
    exact Or.inr (Or.inr (Or.inr (Or.inl ⟨_, fs, hstack, Or.inr rfl, (Option.some.inj hs).symm⟩)))
  · next prevPrio fs hstack =>
    exact Or.inr (Or.inr (Or.inr (Or.inr ⟨prevPrio, fs, hstack, (Option.some.inj hs).symm⟩)))
  · cases hs

/-- What a step does: an external interrupt is taken, a call without a claim is pushed, a task
without a claim is added, or the innermost call goes on. -/
theorem step_cases {e : IrqEvent} (hs : step gUartIrq s e = some s') :
    (∃ irq, e = .external irq ∧
      s' = (s.plicClaim irq).setStack (.trapHandler (.claimed irq) :: s.stack)) ∨
    (∃ f, (f = .trapHandler .timerTopHalf ∨ f = .taskRunPending ∨ f = .callback .other) ∧
      s' = s.setStack (f :: s.stack)) ∨
    (∃ priority, s' = s.addTask .other priority) ∨ s' = s ∨
    ∃ ok, s.run gUartIrq ok = some s' := by
  cases e with
  | external irq => exact Or.inl ⟨irq, rfl, (Option.some.inj hs).symm⟩
  | timer => exact Or.inr (Or.inl ⟨_, Or.inl rfl, (Option.some.inj hs).symm⟩)
  | addTask priority ok =>
    rw [step] at hs
    split_ifs at hs <;> obtain rfl := Option.some.inj hs
    · exact Or.inr (Or.inr (Or.inl ⟨priority, rfl⟩))
    · exact Or.inr (Or.inr (Or.inr (Or.inl rfl)))
  | taskRunPending =>
    rw [step] at hs
    split_ifs at hs
    exact Or.inr (Or.inl ⟨_, Or.inr (Or.inl rfl), (Option.some.inj hs).symm⟩)
  | callTimer =>
    rw [step] at hs
    split_ifs at hs
    exact Or.inr (Or.inl ⟨_, Or.inr (Or.inr rfl), (Option.some.inj hs).symm⟩)
  | run ok => exact Or.inr (Or.inr (Or.inr (Or.inr ⟨ok, hs⟩)))

theorem Conserved.run (h : s.Conserved) {ok : Bool} (hs : s.run gUartIrq ok = some s') :
    s'.Conserved := by
  obtain ⟨pc, fs, hstack, rfl⟩ | ⟨fs, hstack, rfl⟩ | ⟨arg, fs, hstack, rfl⟩ |
    ⟨f, fs, hstack, hf, rfl⟩ | ⟨prevPrio, fs, hstack, rfl⟩ := run_cases hs
  · exact h.trapHandler hstack ok
  · exact h.taskRunPending hstack
  all_goals
    intro x
    have hx := h x
    rw [hstack, onStack_cons] at hx
  · simp [setStack, plicComplete, IrqCall.topHalf, IrqCall.bottomHalf, Work.bottomHalf,
      List.count_cons] at hx ⊢
    omega
  · rcases hf with rfl | rfl
    · simpa [setStack, IrqCall.topHalf, IrqCall.bottomHalf, Work.bottomHalf] using hx
    · simpa [setStack, IrqCall.topHalf, IrqCall.bottomHalf] using hx
  · simpa [IrqCall.topHalf, IrqCall.bottomHalf] using hx

/-- **Every step keeps the balance.** -/
theorem Conserved.step {e : IrqEvent} (h : s.Conserved) (hs : step gUartIrq s e = some s') :
    s'.Conserved := by
  obtain ⟨irq, -, rfl⟩ | ⟨f, hf, rfl⟩ | ⟨priority, rfl⟩ | rfl | ⟨ok, hrun⟩ := step_cases hs
  · intro x
    have hx := h x
    by_cases hzero : irq = 0
    · subst hzero
      simpa [plicClaim, setStack, IrqCall.topHalf, IrqCall.bottomHalf] using hx
    · rw [plicClaim, if_neg hzero]
      simp [setStack, topHalf_claimed hzero, IrqCall.bottomHalf, List.count_cons] at hx ⊢
      omega
  · intro x
    rcases hf with rfl | rfl | rfl <;>
      simpa [setStack, IrqCall.topHalf, IrqCall.bottomHalf, Work.bottomHalf] using h x
  · intro x
    simpa [addTask, Work.bottomHalf] using h x
  · exact h
  · exact h.run hrun

/-! ## The logs -/

theorem log_trapHandler {ok : Bool} (pc : IrqHandlerPc) :
    (s.trapHandler gUartIrq ok fs pc).claims = s.claims ∧
      s.completes <:+ (s.trapHandler gUartIrq ok fs pc).completes := by
  cases pc with
  | claimed irq =>
    rw [Interrupts.trapHandler]
    split_ifs
    · exact ⟨rfl, List.suffix_refl _⟩
    · exact ⟨rfl, List.suffix_cons irq _⟩
    · exact ⟨rfl, List.suffix_refl _⟩
  | uartTopHalf irq =>
    rw [Interrupts.trapHandler]
    split_ifs <;> exact ⟨rfl, List.suffix_refl _⟩
  | outOfMemory irq => exact ⟨rfl, List.suffix_cons irq _⟩
  | _ => exact ⟨rfl, List.suffix_refl _⟩

/-- The calls in progress claim nothing, and what was completed stays so. -/
theorem log_run {ok : Bool} (hs : s.run gUartIrq ok = some s') :
    s'.claims = s.claims ∧ s.completes <:+ s'.completes := by
  obtain ⟨pc, fs, -, rfl⟩ | ⟨fs, -, rfl⟩ | ⟨arg, fs, -, rfl⟩ | ⟨f, fs, -, -, rfl⟩ |
    ⟨prevPrio, fs, -, rfl⟩ := run_cases hs
  · exact log_trapHandler pc
  · obtain ⟨t, rest, -, -, heq⟩ | ⟨-, heq⟩ := taskRunPending_cases s fs <;>
      rw [heq] <;> exact ⟨rfl, List.suffix_refl _⟩
  · exact ⟨rfl, List.suffix_cons _ _⟩
  · exact ⟨rfl, List.suffix_refl _⟩
  · exact ⟨rfl, List.suffix_refl _⟩

/-- No source is claimed twice before it is completed. -/
def Single (s : Interrupts) : Prop := ∀ x, s.claims.count x ≤ s.completes.count x + 1

theorem Single.step {e : IrqEvent} (h : s.Single) (hG : gateway s e)
    (hs : step gUartIrq s e = some s') : s'.Single := by
  obtain ⟨irq, rfl, rfl⟩ | ⟨f, -, rfl⟩ | ⟨priority, rfl⟩ | rfl | ⟨ok, hrun⟩ := step_cases hs
  · intro x
    have hx := h x
    have hfree : s.claims.count irq ≤ s.completes.count irq := not_lt.mp hG
    unfold plicClaim
    split_ifs
    · exact hx
    · show (irq :: s.claims).count x ≤ s.completes.count x + 1
      by_cases hirq : irq = x
      · subst hirq
        rw [List.count_cons_self]
        exact Nat.succ_le_succ hfree
      · rw [List.count_cons_of_ne hirq]
        exact hx
  · exact h
  · exact h
  · exact h
  · obtain ⟨hclaims, hcompletes⟩ := log_run hrun
    intro x
    rw [hclaims]
    exact (h x).trans (Nat.succ_le_succ (hcompletes.sublist.count_le x))

end Interrupts

/-! ## Draining the queue -/

/-- The claims that the call will complete or hand over are those of the UART. -/
def IrqCall.For (gUartIrq : BitVec 32) : IrqCall → Prop
  | .trapHandler (.uartTopHalf irq) => irq = gUartIrq
  | .callback work => ∀ x ∈ work.bottomHalf, x = gUartIrq
  | _ => True

/-- The call looks at the queue next, at the running priority at which it is called. -/
def IrqCall.looks : IrqCall → Bool
  | .taskRunPending => true
  | .trapHandler .taskRunPending => true
  | _ => false

/-- The running priorities of the calls: `p` is that of the innermost one, and what interrupted a
callback is more urgent. -/
def Levels : ℤ → List IrqCall → Prop
  | p, [] => p = taskPrioIdle
  | p, f :: fs =>
      match f with
      | .taskDone prevPrio => p < prevPrio ∧ Levels prevPrio fs
      | _ => Levels p fs

/-- One of the calls will look at the queue when tasks of priority `x` may run. -/
def Attends (x : ℤ) : ℤ → List IrqCall → Prop
  | _, [] => False
  | p, f :: fs =>
      match f with
      | .taskDone prevPrio => x < prevPrio ∨ Attends x prevPrio fs
      | f => f.looks ∧ x < p ∨ Attends x p fs

/-- The calls that change the running priority when they go on. -/
def IrqCall.IsDone (f : IrqCall) : Prop := ∃ prevPrio, f = .taskDone prevPrio

theorem levels_cons {p : ℤ} {f : IrqCall} {fs : List IrqCall} (hf : ¬ f.IsDone) :
    Levels p (f :: fs) ↔ Levels p fs := by
  cases f with
  | taskDone prevPrio => exact absurd ⟨prevPrio, rfl⟩ hf
  | _ => exact Iff.rfl

theorem attends_cons {x p : ℤ} {f : IrqCall} {fs : List IrqCall} (hf : ¬ f.IsDone) :
    Attends x p (f :: fs) ↔ f.looks ∧ x < p ∨ Attends x p fs := by
  cases f with
  | taskDone prevPrio => exact absurd ⟨prevPrio, rfl⟩ hf
  | _ => exact Iff.rfl

/-- A task that may not run now may run later: the outermost call runs whatever there is. -/
theorem Levels.attends {x p : ℤ} {fs : List IrqCall} (h : Levels p fs) (hx : x < taskPrioIdle) :
    x < p ∨ Attends x p fs := by
  induction fs generalizing p with
  | nil =>
    obtain rfl : p = taskPrioIdle := h
    exact Or.inl hx
  | cons f fs ih =>
    by_cases hf : f.IsDone
    · obtain ⟨prevPrio, rfl⟩ := hf
      exact Or.inr (ih h.2)
    · rw [attends_cons hf]
      exact (ih ((levels_cons hf).mp h)).imp id Or.inr

/-- The queue `q`, the running priority `p` and the calls `fs` are such that no call of
`uart_bottom_half` is forgotten on the queue. -/
structure Orderly (gUartIrq : BitVec 32) (q : List WorkNode) (p : ℤ) (fs : List IrqCall) :
    Prop where
  calls : ∀ f ∈ fs, f.For gUartIrq
  tasks : ∀ n ∈ q, ∀ x ∈ n.work.bottomHalf, x = gUartIrq ∧ n.priority = uartTaskPrio
  sorted : q.Pairwise fun n t => n.priority ≤ t.priority
  levels : Levels p fs
  attended : ∀ n ∈ q, n.work ≠ .other → Attends uartTaskPrio p fs

namespace Orderly

variable {gUartIrq : BitVec 32} {q rest : List WorkNode} {p prevPrio : ℤ} {f : IrqCall}
  {fs : List IrqCall} {n : WorkNode}

theorem push (h : Orderly gUartIrq q p fs) (hfor : f.For gUartIrq) (hf : ¬ f.IsDone) :
    Orderly gUartIrq q p (f :: fs) where
  calls := List.forall_mem_cons.mpr ⟨hfor, h.calls⟩
  tasks := h.tasks
  sorted := h.sorted
  levels := (levels_cons hf).mpr h.levels
  attended n hn hwork := (attends_cons hf).mpr (Or.inr (h.attended n hn hwork))

/-- The innermost call ends, or it does not change what is said here. -/
theorem pop (h : Orderly gUartIrq q p (f :: fs)) (hf : ¬ f.IsDone) (hlooks : f.looks = false) :
    Orderly gUartIrq q p fs where
  calls := (List.forall_mem_cons.mp h.calls).2
  tasks := h.tasks
  sorted := h.sorted
  levels := (levels_cons hf).mp h.levels
  attended n hn hwork := by
    refine ((attends_cons hf).mp (h.attended n hn hwork)).resolve_left fun hl => ?_
    rw [hlooks] at hl
    exact Bool.false_ne_true hl.1

/-- `task_run_pending` returns when nothing on the queue is more urgent than the running
priority. -/
theorem popLooks (h : Orderly gUartIrq q p (f :: fs)) (hf : ¬ f.IsDone)
    (hhead : ∀ t ∈ q.head?, p ≤ t.priority) : Orderly gUartIrq q p fs where
  calls := (List.forall_mem_cons.mp h.calls).2
  tasks := h.tasks
  sorted := h.sorted
  levels := (levels_cons hf).mp h.levels
  attended n hn hwork := by
    refine ((attends_cons hf).mp (h.attended n hn hwork)).resolve_left fun hl => ?_
    have hprio : n.priority = uartTaskPrio := by
      cases hw : n.work with
      | other => exact absurd hw hwork
      | uartBottomHalf arg =>
        exact (h.tasks n hn (arg.setWidth 32) (by rw [hw]; exact List.mem_singleton_self _)).2
    have hle : p ≤ n.priority := by
      cases q with
      | nil => cases hn
      | cons t q =>
        have ht := hhead t rfl
        rcases List.mem_cons.mp hn with rfl | hn
        · exact ht
        · exact ht.trans ((List.pairwise_cons.mp h.sorted).1 n hn)
    exact absurd hl.2 (not_lt.mpr (hprio ▸ hle))

/-- `task_run_pending` starts a task. -/
theorem startTask (h : Orderly gUartIrq (n :: rest) p (.taskRunPending :: fs))
    (hlt : n.priority < p) :
    Orderly gUartIrq rest n.priority (.callback n.work :: .taskDone p :: fs) where
  calls := by
    refine List.forall_mem_cons.mpr ⟨fun x hx => (h.tasks n List.mem_cons_self x hx).1,
      List.forall_mem_cons.mpr ⟨trivial, (List.forall_mem_cons.mp h.calls).2⟩⟩
  tasks t ht := h.tasks t (List.mem_cons_of_mem n ht)
  sorted := (List.pairwise_cons.mp h.sorted).2
  levels := ⟨hlt, h.levels⟩
  attended t ht hwork :=
    -- after the callback the queue is looked at again, at the same priority
    Or.inr ((h.attended t (List.mem_cons_of_mem n ht) hwork).imp And.right id)

/-- The callback has returned, and `task_run_pending` looks at the queue again. -/
theorem taskDone (h : Orderly gUartIrq q p (.taskDone prevPrio :: fs)) :
    Orderly gUartIrq q prevPrio (.taskRunPending :: fs) where
  calls := List.forall_mem_cons.mpr ⟨trivial, (List.forall_mem_cons.mp h.calls).2⟩
  tasks := h.tasks
  sorted := h.sorted
  levels := h.levels.2
  attended n hn hwork := (h.attended n hn hwork).imp (fun hlt => ⟨rfl, hlt⟩) id

/-- `add_task`. -/
theorem insert (h : Orderly gUartIrq q p fs)
    (hn : ∀ x ∈ n.work.bottomHalf, x = gUartIrq ∧ n.priority = uartTaskPrio)
    (hattends : n.work ≠ .other → Attends uartTaskPrio p fs) :
    Orderly gUartIrq (q.orderedInsert WorkNode.Before n) p fs where
  calls := h.calls
  tasks t ht := by
    rcases (List.mem_orderedInsert _).mp ht with rfl | ht
    · exact hn
    · exact h.tasks t ht
  sorted := StableQueue.pairwise_le_orderedInsert h.sorted
  levels := h.levels
  attended t ht hwork := by
    rcases (List.mem_orderedInsert _).mp ht with rfl | ht
    · exact hattends hwork
    · exact h.attended t ht hwork

/-- When no call is in progress, no claim waits on the queue. -/
theorem bottomHalf_eq_nil (h : Orderly gUartIrq q p []) (hn : n ∈ q) : n.work.bottomHalf = [] := by
  cases hw : n.work with
  | other => rfl
  | uartBottomHalf arg => exact (h.attended n hn (by rw [hw]; nofun)).elim

end Orderly

namespace Interrupts

variable {s s' : Interrupts} {fs : List IrqCall} {gUartIrq x : BitVec 32}

/-- `Orderly` of a state. -/
def Drains (gUartIrq : BitVec 32) (s : Interrupts) : Prop :=
  Orderly gUartIrq s.gTaskQueue s.gRunningPriority s.stack

theorem Drains.trapHandler {pc : IrqHandlerPc} (h : s.Drains gUartIrq)
    (hstack : s.stack = .trapHandler pc :: fs) (ok : Bool) :
    (s.trapHandler gUartIrq ok fs pc).Drains gUartIrq := by
  unfold Drains at h
  rw [hstack] at h
  have hdone : ∀ pc, ¬ (IrqCall.trapHandler pc).IsDone := fun _ => nofun
  cases pc with
  | claimed irq =>
    have hpop := h.pop (hdone _) rfl
    rw [Interrupts.trapHandler]
    split_ifs with huart
    · exact hpop.push (f := .trapHandler (.uartTopHalf irq)) huart.1 (hdone _)
    · exact hpop.push trivial (hdone _)
    · exact hpop.push trivial (hdone _)
  | uartTopHalf irq =>
    have hpop := h.pop (hdone _) rfl
    have hirq : irq = gUartIrq := h.calls _ List.mem_cons_self
    rw [Interrupts.trapHandler]
    split_ifs
    · refine (hpop.push (f := .trapHandler .taskRunPending) trivial (hdone _)).insert ?_ fun _ => ?_
      · intro x hx
        have hx' : x = (irq.setWidth 64).setWidth 32 := List.mem_singleton.mp hx
        refine ⟨?_, rfl⟩
        rw [hx', ← hirq]
        simp
      · rw [attends_cons (hdone _)]
        exact (hpop.levels.attends (by decide)).imp (fun hlt => ⟨rfl, hlt⟩) id
    · exact hpop.push trivial (hdone _)
  | outOfMemory irq => exact (h.pop (hdone _) rfl).push trivial (hdone _)
  | timerTopHalf => exact (h.pop (hdone _) rfl).push trivial (hdone _)
  | taskRunPending =>
    -- `task_run_pending` is called: it looks at the queue in place of the handler
    refine ⟨?_, h.tasks, h.sorted, h.levels, fun n hn hwork =>
      (h.attended n hn hwork).imp (fun hl => ⟨rfl, hl.2⟩) Or.inr⟩
    obtain ⟨-, hcalls⟩ := List.forall_mem_cons.mp h.calls
    exact List.forall_mem_cons.mpr ⟨trivial, List.forall_mem_cons.mpr ⟨trivial, hcalls⟩⟩
  | leave => exact h.pop (hdone _) rfl

theorem Drains.run (h : s.Drains gUartIrq) {ok : Bool} (hs : s.run gUartIrq ok = some s') :
    s'.Drains gUartIrq := by
  obtain ⟨pc, fs, hstack, rfl⟩ | ⟨fs, hstack, rfl⟩ | ⟨arg, fs, hstack, rfl⟩ |
    ⟨f, fs, hstack, hf, rfl⟩ | ⟨prevPrio, fs, hstack, rfl⟩ := run_cases hs
  · exact h.trapHandler hstack ok
  all_goals
    unfold Drains at h
    rw [hstack] at h
  · obtain ⟨t, rest, hq, hlt, heq⟩ | ⟨hhead, heq⟩ := taskRunPending_cases s fs <;>
      rw [heq]
    · exact (hq ▸ h).startTask hlt
    · exact h.popLooks nofun hhead
  · exact (h.pop nofun rfl).push trivial nofun
  · rcases hf with rfl | rfl
    · exact h.pop nofun rfl
    · exact h.pop nofun rfl
  · exact h.taskDone

theorem Drains.step {e : IrqEvent} (h : s.Drains gUartIrq) (hs : step gUartIrq s e = some s') :
    s'.Drains gUartIrq := by
  obtain ⟨irq, -, rfl⟩ | ⟨f, hf, rfl⟩ | ⟨priority, rfl⟩ | rfl | ⟨ok, hrun⟩ := step_cases hs
  · unfold plicClaim
    split_ifs <;> exact Orderly.push h trivial nofun
  · rcases hf with rfl | rfl | rfl
    · exact Orderly.push h trivial nofun
    · exact Orderly.push h trivial nofun
    · exact Orderly.push (f := .callback .other) h nofun nofun
  · exact Orderly.insert h nofun fun hne => absurd rfl hne
  · exact h
  · exact h.run hrun

end Interrupts

/-! ## The calls in progress come to their end -/

/-- A bound on the steps of a call, and of those that it calls. -/
def IrqCall.weight : IrqCall → ℕ
  | .trapHandler (.claimed _) => 10
  | .trapHandler (.uartTopHalf _) => 9
  | .trapHandler (.outOfMemory _) => 4
  | .trapHandler .timerTopHalf => 4
  | .trapHandler .taskRunPending => 3
  | .trapHandler .leave => 1
  | .taskRunPending => 1
  | .callback _ => 2
  | .uartBottomHalfEnd => 1
  | .taskDone _ => 2

namespace Interrupts

variable {s s' : Interrupts} {fs : List IrqCall} {gUartIrq x : BitVec 32}

/-- A bound on the steps until no call is in progress, when no interrupt is taken. -/
def weight (s : Interrupts) : ℕ := (s.stack.map IrqCall.weight).sum + 4 * s.gTaskQueue.length

theorem weight_trapHandler {pc : IrqHandlerPc} (hstack : s.stack = .trapHandler pc :: fs)
    (ok : Bool) : (s.trapHandler gUartIrq ok fs pc).weight < s.weight := by
  cases pc with
  | claimed irq =>
    rw [Interrupts.trapHandler]
    split_ifs <;> simp [weight, hstack, setStack, plicComplete, IrqCall.weight]
  | uartTopHalf irq =>
    rw [Interrupts.trapHandler]
    split_ifs
    · simp [weight, hstack, setStack, addTask, IrqCall.weight, List.orderedInsert_length]
      omega
    · simp [weight, hstack, setStack, IrqCall.weight]
  | _ =>
    simp only [Interrupts.trapHandler, weight, hstack, setStack, plicComplete, List.map_cons,
      List.sum_cons, IrqCall.weight]
    omega

theorem weight_run {ok : Bool} (hs : s.run gUartIrq ok = some s') : s'.weight < s.weight := by
  obtain ⟨pc, fs, hstack, rfl⟩ | ⟨fs, hstack, rfl⟩ | ⟨arg, fs, hstack, rfl⟩ |
    ⟨f, fs, hstack, hf, rfl⟩ | ⟨prevPrio, fs, hstack, rfl⟩ := run_cases hs
  · exact weight_trapHandler hstack ok
  · obtain ⟨t, rest, hq, -, heq⟩ | ⟨-, heq⟩ := taskRunPending_cases s fs <;> rw [heq]
    · simp [weight, hstack, hq, IrqCall.weight]
      omega
    · simp [weight, hstack, setStack, IrqCall.weight]
  · simp [weight, hstack, setStack, plicComplete, IrqCall.weight]
  · rcases hf with rfl | rfl <;> simp [weight, hstack, setStack, IrqCall.weight]
  · simp [weight, hstack, IrqCall.weight]

theorem exists_run (gUartIrq : BitVec 32) (hstack : s.stack ≠ []) (ok : Bool) :
    ∃ s', s.run gUartIrq ok = some s' := by
  unfold run
  split
  all_goals first | exact ⟨_, rfl⟩ | skip
  next hnil => exact absurd hnil hstack

/-- **The calls in progress come to their end** when no interrupt is taken, whether there is memory
or not. -/
theorem exists_runs (gUartIrq : BitVec 32) (oks : List Bool) (hlen : s.weight ≤ oks.length) :
    ∃ bs s', bs <+: oks ∧ runList (step gUartIrq) s (bs.map .run) = some s' ∧ s'.stack = [] ∧
      s'.claims = s.claims := by
  induction oks generalizing s with
  | nil =>
    refine ⟨[], s, List.prefix_refl _, rfl, ?_, rfl⟩
    by_contra hne
    obtain ⟨s', hs'⟩ := exists_run gUartIrq hne true
    exact absurd ((weight_run hs').trans_le hlen) (Nat.not_lt_zero _)
  | cons ok oks ih =>
    by_cases hstack : s.stack = []
    · exact ⟨[], s, List.nil_prefix, rfl, hstack, rfl⟩
    · obtain ⟨m, hm⟩ := exists_run gUartIrq hstack ok
      have hlt := weight_run hm
      obtain ⟨bs, s', hbs, hrun, hnil, hclaims⟩ := ih (s := m) <| by
        rw [List.length_cons] at hlen
        omega
      refine ⟨ok :: bs, s', List.cons_prefix_cons.mpr ⟨rfl, hbs⟩, ?_, hnil,
        hclaims.trans (log_run hm).1⟩
      rw [List.map_cons, runList_cons, show step gUartIrq s (.run ok) = some m from hm]
      exact hrun

/-! ## Exactly once -/

/-- What holds throughout a run. -/
structure Sound (gUartIrq : BitVec 32) (s : Interrupts) : Prop where
  conserved : s.Conserved
  single : s.Single
  drains : s.Drains gUartIrq

/-- The gateway says nothing about the calls in progress. -/
theorem meets_run (bs : List Bool) (s : Interrupts) :
    Meets (step gUartIrq) gateway s (bs.map .run) := by
  induction bs generalizing s with
  | nil => trivial
  | cons b bs ih => exact ⟨trivial, fun t _ => ih t⟩

theorem sound_of_reachable (hs : Reachable (step gUartIrq) gateway start s) :
    s.Sound gUartIrq := by
  refine hs.invariant (P := Sound gUartIrq) ⟨fun _ => rfl, fun _ => Nat.zero_le _, ?_⟩
    fun s a s' h hG ha => ⟨h.conserved.step ha, h.single.step hG ha, h.drains.step ha⟩
  exact ⟨nofun, nofun, List.Pairwise.nil, rfl, nofun⟩

/-- The bottom halves are those of the UART. -/
theorem Drains.mem_bottomHalves (h : s.Drains gUartIrq) (hx : x ∈ s.bottomHalves) :
    x = gUartIrq := by
  rcases List.mem_append.mp hx with hx | hx
  · obtain ⟨n, hn, hx⟩ := List.mem_flatMap.mp hx
    exact (h.tasks n hn x hx).1
  · obtain ⟨f, hf, hx⟩ := List.mem_flatMap.mp hx
    have hfor := h.calls f hf
    cases f with
    | callback work => exact hfor x hx
    | _ => cases hx

/-- When no call is in progress, every claim has been completed. -/
theorem Sound.perm (h : s.Sound gUartIrq) (hstack : s.stack = []) :
    s.completes.Perm s.claims := by
  refine List.perm_iff_count.mpr fun x => ?_
  have hdrains : Orderly gUartIrq s.gTaskQueue s.gRunningPriority [] := hstack ▸ h.drains
  have hqueue : onQueue x s.gTaskQueue = 0 := by
    refine List.count_eq_zero.mpr fun hx => ?_
    obtain ⟨n, hn, hx⟩ := List.mem_flatMap.mp hx
    rw [hdrains.bottomHalf_eq_nil hn] at hx
    cases hx
  have hx := h.conserved x
  rw [hstack, hqueue] at hx
  exact hx.symm

/-- **Every claimed interrupt is completed exactly once**, in every run in which the PLIC does not
deliver a source again before it is completed.  No source is completed more often than it was
claimed, or claimed twice before it is completed.  As long as the UART's claim is not completed, one
`uart_bottom_half` that has not called `plic_complete` is queued or executing, or the top half of
the claim is running; otherwise none is.  When no call is in progress all claims have been
completed, and the calls in progress come to that when no further interrupt is taken. -/
theorem completed_of_reachable (gUartIrq : BitVec 32)
    (hs : Reachable (step gUartIrq) gateway start s) :
    (∀ irq, s.completes.count irq ≤ s.claims.count irq ∧
      s.claims.count irq ≤ s.completes.count irq + 1) ∧
    (s.InService gUartIrq → s.bottomHalves.length + s.topHalves.count gUartIrq = 1) ∧
    (¬ s.InService gUartIrq → s.bottomHalves = [] ∧ gUartIrq ∉ s.topHalves) ∧
    (s.stack = [] → s.completes.Perm s.claims) ∧
    ∀ oks : List Bool, s.weight ≤ oks.length → ∃ bs s', bs <+: oks ∧
      runList (step gUartIrq) s (bs.map .run) = some s' ∧ s'.stack = [] ∧
      s'.claims = s.claims ∧ s'.completes.Perm s.claims := by
  have h := sound_of_reachable hs
  have hcount : ∀ irq, s.claims.count irq = s.completes.count irq +
      (s.topHalves.count irq + s.bottomHalves.count irq) := fun irq => by
    rw [onStack_add_onQueue]
    exact h.conserved irq
  have huart := hcount gUartIrq
  have hsingle := h.single gUartIrq
  have hlength : s.bottomHalves.count gUartIrq = s.bottomHalves.length :=
    List.count_eq_length.mpr fun x hx => (h.drains.mem_bottomHalves hx).symm
  refine ⟨fun irq => ⟨?_, h.single irq⟩, fun hin => ?_, fun hout => ?_, h.perm, fun oks hlen => ?_⟩
  · rw [hcount irq]
    exact Nat.le_add_right _ _
  · unfold InService at hin
    omega
  · have hzero : s.bottomHalves.length = 0 ∧ s.topHalves.count gUartIrq = 0 := by
      unfold InService at hout
      omega
    exact ⟨List.eq_nil_of_length_eq_zero hzero.1, List.count_eq_zero.mp hzero.2⟩
  · obtain ⟨bs, s', hbs, hrun, hnil, hclaims⟩ := exists_runs gUartIrq oks hlen
    have hreach : Reachable (step gUartIrq) gateway start s' :=
      Relation.ReflTransGen.trans hs (Reachable.of_runList hrun (meets_run bs s))
    have hperm := (sound_of_reachable hreach).perm hnil
    rw [hclaims] at hperm
    exact ⟨bs, s', hbs, hrun, hnil, hclaims, hperm⟩

/-- The UART's bottom half is interrupted before `plic_complete`, and another source is served. -/
def interrupted : List IrqEvent :=
  [.external 10, .run true, .run true, .run true, .run true, .external 5, .run true]

theorem completed_of_interrupted : ∃ s, Reachable (step 10) gateway start s ∧ s.claims = [5, 10] ∧
    s.completes = [5] ∧ s.bottomHalves.length + s.topHalves.count 10 = 1 ∧
    ∃ s' : Interrupts, s'.stack = [] ∧ s'.completes.Perm [5, 10] := by
  have hrun : (runList (step 10) start interrupted).map (fun s =>
      (s.claims, s.completes, s.weight)) = some ([5, 10], [5], 8) := by decide +kernel
  obtain ⟨s, hs, hv⟩ := Option.map_eq_some_iff.mp hrun
  obtain ⟨hclaims, hv⟩ := Prod.mk.inj hv
  obtain ⟨hcompletes, hweight⟩ := Prod.mk.inj hv
  have hreach : Reachable (step 10) gateway start s := Reachable.of_runList hs (by decide +kernel)
  obtain ⟨-, hpending, -, -, hend⟩ := completed_of_reachable 10 hreach
  have hin : s.InService 10 := by
    unfold InService
    rw [hclaims, hcompletes]
    decide
  obtain ⟨bs, s', -, -, hnil, -, hperm⟩ := hend (List.replicate 8 true) (by rw [hweight]; decide)
  exact ⟨s, hreach, hclaims, hcompletes, hpending hin, s', hnil, hclaims ▸ hperm⟩

end Interrupts
end Uart
end OscKernel
