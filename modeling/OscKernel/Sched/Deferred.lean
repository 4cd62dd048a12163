import OscKernel.Lib.Ownership
import OscKernel.Lib.Transition
import OscKernel.Sched.Timers

/-!
# Deferred callbacks and their memory (`timer.c`, `task.c`, `shell.c`)

A timer becomes a task when it expires, and a task becomes a call of its callback; each has a node
from `kmalloc`, and `shell_set_timeout` allocates one more block that its callback frees.  Any
request may find no memory.  An interrupt may be taken between the allocation of a node and its
insertion, while a callback runs, and on top of other interrupts, but not inside `kmalloc` and
`kfree`, which are one event each.

`kmalloc` may return any block in a step.  The results are about the runs in which it returns none
that somebody holds (`Admits`): two contexts that interrupt each other inside the allocator can be
given the same block, and then nothing is said.

* `Deferred.step`: what happens next, on one kernel stack.
* `Deferred.Admits`: the guard of the runs.
* `deferred_of_reachable`: every callback that was accepted waits in one place or was started, once;
  every block is held by one holder, and every `kfree` is for an allocated block; and the callbacks
  that wait can always be brought to their ends, after which only what `shell_set_timeout` leaked is
  allocated.
-/

namespace OscKernel
namespace Sched

open Transition

/-- `cb` and `arg`, and the block that the callback frees when it is `setto_cb`. -/
structure Work (α : Type*) where
  cb : α
  ctx : Option ℕ

/-- The `struct timer_node` at `addr`. -/
structure TimerBlock (α : Type*) where
  addr : ℕ
  entry : TimerEntry (Work α)

/-- The `struct task_node` at `addr`. -/
structure TaskBlock (α : Type*) where
  addr : ℕ
  work : Work α
  priority : ℤ

/-- What is in progress. -/
inductive DeferFrame (α : Type*) where
  /-- `shell_set_timeout`, which has allocated its block. -/
  | setTimeout (cb : α) (ctx : ℕ)
  /-- `add_timer_ticks`, which has filled its node in. -/
  | addTimer (n : TimerBlock α)
  /-- `add_task`, which has filled its node in. -/
  | addTask (n : TaskBlock α)
  /-- The loop of `timer_top_half`. -/
  | topHalf (now : BitVec 64)
  /-- A callback that `timer_top_half` calls itself, since there was no memory for a task. -/
  | fallback (t : TimerBlock α)
  /-- A callback that `task_run_pending` calls, with its `prev_prio`. -/
  | callback (t : TaskBlock α) (prevPrio : ℤ)

/-- The queues, the heap, and what is in progress, the innermost first. -/
structure Deferred (α : Type*) where
  heap : BlockHeap ℕ
  gTimerQueue : List (TimerBlock α)
  gTaskQueue : List (TaskBlock α)
  gRunningPriority : ℤ
  stack : List (DeferFrame α)
  /-- The callbacks that were given a node by `add_timer_ticks` or `add_task`, the latest first. -/
  accepted : List (Work α)
  /-- The callbacks that were called, the latest first. -/
  started : List (Work α)
  /-- The blocks of `shell_set_timeout` whose timer was given no node. -/
  leaked : List ℕ

/-- What happens next.  `node` is what `kmalloc` returns for a node, which may be any block, and
`none` is `NULL`.  A call of `kmalloc` or `kfree` is one event. -/
inductive DeferLabel (α : Type*) where
  /-- `shell_set_timeout` is given a block. -/
  | setTimeout (cb : α) (ctx : ℕ)
  /-- `add_timer_ticks` is called for it. -/
  | setTimer (now ticks : BitVec 64) (node : Option ℕ)
  /-- `add_timer_ticks` is called by another function. -/
  | addTimer (cb : α) (now ticks : BitVec 64) (node : Option ℕ)
  /-- `add_task` begins. -/
  | addTask (cb : α) (priority : ℤ) (node : Option ℕ)
  /-- `add_timer_ticks` or `add_task` inserts its node and returns. -/
  | link
  /-- `timer_top_half` is called. -/
  | timerTopHalf (now : BitVec 64)
  /-- A round of its loop. -/
  | expire (node : Option ℕ)
  /-- It returns. -/
  | topHalfReturns
  /-- A round of `task_run_pending`, up to the call of the callback. -/
  | dispatch
  /-- The callback `setto_cb` frees its block. -/
  | kfreeCtx
  /-- The callback returns, and its node is freed. -/
  | callbackReturns

variable {α : Type*}

/-- The block that `kmalloc` returns. -/
def DeferLabel.block : DeferLabel α → Option ℕ
  | .setTimeout _ ctx => some ctx
  | .setTimer _ _ node | .addTimer _ _ _ node | .addTask _ _ node | .expire node => node
  | .link | .timerTopHalf _ | .topHalfReturns | .dispatch | .kfreeCtx | .callbackReturns => none

/-- `n` goes before `t` in the timer queue. -/
def TimerBlock.Before (n t : TimerBlock α) : Prop := n.entry.Before t.entry

instance : DecidableRel (TimerBlock.Before (α := α)) := fun n t =>
  inferInstanceAs (Decidable (n.entry.Before t.entry))

/-- `n` goes before `t` in the task queue. -/
def TaskBlock.Precedes (n t : TaskBlock α) : Prop := n.priority < t.priority

instance : DecidableRel (TaskBlock.Precedes (α := α)) := fun n t =>
  inferInstanceAs (Decidable (n.priority < t.priority))

namespace Deferred

variable (s : Deferred α)

/-- The timer interrupt is being handled: nothing else goes on. -/
def InTopHalf : Prop :=
  match s.stack with
  | .topHalf _ :: _ => True
  | _ => False

instance : Decidable s.InTopHalf := by
  unfold InTopHalf
  split <;> infer_instance

/-- `add_timer_ticks` up to the insertion, when `rest` is what is in progress below. -/
def addTimer (work : Work α) (rest : List (DeferFrame α)) (now ticks : BitVec 64) :
    Option ℕ → Option (Deferred α)
  | none => some { s with stack := rest, leaked := work.ctx.toList ++ s.leaked }
  | some p =>
      some { s with
        heap := s.heap.acquire p
        stack := .addTimer ⟨p, now + ticks, now, work⟩ :: rest
        accepted := work :: s.accepted }

/-- `add_task`, up to the insertion. -/
def addTask (cb : α) (priority : ℤ) : Option ℕ → Option (Deferred α)
  | none => some s
  | some p =>
      let work : Work α := ⟨cb, none⟩
      some { s with
        heap := s.heap.acquire p
        stack := .addTask ⟨p, work, priority⟩ :: s.stack
        accepted := work :: s.accepted }

/-- A round of the loop of `timer_top_half`: the first timer `t` has expired, and `queue` are the
others. -/
def expire (t : TimerBlock α) (queue : List (TimerBlock α)) : Option ℕ → Option (Deferred α)
  | none => some { s with
      gTimerQueue := queue
      stack := .fallback t :: s.stack
      started := t.entry.cb :: s.started }
  | some p =>
      some { s with
        heap := (s.heap.acquire p).release t.addr
        gTimerQueue := queue
        gTaskQueue := s.gTaskQueue.orderedInsert TaskBlock.Precedes
          ⟨p, t.entry.cb, timerTaskPrio⟩ }

/-- `setto_cb` frees its block. -/
def kfreeCtx : Option (Deferred α) :=
  match s.stack with
  | .fallback ⟨addr, expireTick, registerTick, cb, some ctx⟩ :: rest => some { s with
      heap := s.heap.release ctx
      stack := .fallback ⟨addr, expireTick, registerTick, cb, none⟩ :: rest }
  | .callback ⟨addr, ⟨cb, some ctx⟩, priority⟩ prevPrio :: rest => some { s with
      heap := s.heap.release ctx
      stack := .callback ⟨addr, ⟨cb, none⟩, priority⟩ prevPrio :: rest }
  | _ => none

/-- A callback that has freed its block returns. -/
def callbackReturns : Option (Deferred α) :=
  match s.stack with
  | .fallback ⟨addr, _, _, _, none⟩ :: rest => some { s with
      heap := s.heap.release addr
      stack := rest }
  | .callback ⟨addr, ⟨_, none⟩, _⟩ prevPrio :: rest => some { s with
      heap := s.heap.release addr
      gRunningPriority := prevPrio
      stack := rest }
  | _ => none

/-- What happens next on the kernel stack; `none` says that the event does not fit what is in
progress. -/
def step (s : Deferred α) : DeferLabel α → Option (Deferred α)
  | .setTimeout cb ctx =>
      if s.InTopHalf then none
      else some { s with heap := s.heap.acquire ctx, stack := .setTimeout cb ctx :: s.stack }
  | .setTimer now ticks node =>
      match s.stack with
      | .setTimeout cb ctx :: rest => s.addTimer ⟨cb, some ctx⟩ rest now ticks node
      | _ => none
  | .addTimer cb now ticks node =>
      if s.InTopHalf then none else s.addTimer ⟨cb, none⟩ s.stack now ticks node
  | .addTask cb priority node => if s.InTopHalf then none else s.addTask cb priority node
  | .link =>
      match s.stack with
      | .addTimer n :: rest => some { s with
          gTimerQueue := s.gTimerQueue.orderedInsert TimerBlock.Before n
          stack := rest }
      | .addTask n :: rest => some { s with
          gTaskQueue := s.gTaskQueue.orderedInsert TaskBlock.Precedes n
          stack := rest }
      | _ => none
  | .timerTopHalf now =>
      if s.InTopHalf then none else some { s with stack := .topHalf now :: s.stack }
  | .expire node =>
      match s.stack, s.gTimerQueue with
      | .topHalf now :: _, t :: queue =>
          if now < t.entry.expireTick then none else s.expire t queue node
      | _, _ => none
  | .topHalfReturns =>
      match s.stack with
      | .topHalf now :: rest =>
          if ∀ t ∈ s.gTimerQueue.head?, now < t.entry.expireTick then some { s with stack := rest }
          else none
      | _ => none
  | .dispatch =>
      match s.gTaskQueue with
      | t :: queue =>
          if s.InTopHalf ∨ s.gRunningPriority ≤ t.priority then none
          else some { s with
            gTaskQueue := queue
            gRunningPriority := t.priority
            stack := .callback t s.gRunningPriority :: s.stack
            started := t.work :: s.started }
      | [] => none
  | .kfreeCtx => s.kfreeCtx
  | .callbackReturns => s.callbackReturns

/-- Nothing was allocated yet. -/
def start (α : Type*) : Deferred α := ⟨⟨[], []⟩, [], [], taskPrioIdle, [], [], [], []⟩

/-! ## What is held -/

end Deferred

/-- The blocks that a node of the timer queue holds: itself, and what its callback frees. -/
def TimerBlock.blocks (t : TimerBlock α) : List ℕ := t.addr :: t.entry.cb.ctx.toList

/-- The blocks that a task holds: its node and what its callback frees. -/
def TaskBlock.blocks (t : TaskBlock α) : List ℕ := t.addr :: t.work.ctx.toList

namespace DeferFrame

/-- The blocks that what is in progress holds. -/
def blocks : DeferFrame α → List ℕ
  | .setTimeout _ ctx => [ctx]
  | .addTimer n => n.blocks
  | .addTask n => n.blocks
  | .topHalf _ => []
  | .fallback t => t.blocks
  | .callback t _ => t.blocks

/-- The callback that is accepted and not in a queue yet. -/
def waiting : DeferFrame α → List (Work α)
  | .addTimer n => [n.entry.cb]
  | .addTask n => [n.work]
  | .setTimeout _ _ | .topHalf _ | .fallback _ | .callback _ _ => []

end DeferFrame

namespace Deferred

variable (s : Deferred α)

/-- The blocks that somebody holds, and those that nobody will free. -/
def held : List ℕ :=
  s.stack.flatMap DeferFrame.blocks ++ s.gTimerQueue.flatMap TimerBlock.blocks ++
    s.gTaskQueue.flatMap TaskBlock.blocks ++ s.leaked

/-- The callbacks that wait. -/
def waiting : List (Work α) :=
  s.stack.flatMap DeferFrame.waiting ++ s.gTimerQueue.map (fun t => t.entry.cb) ++
    s.gTaskQueue.map TaskBlock.work

variable {s} {s' : Deferred α}

theorem held_link (t : TimerBlock α) (queue : List (TimerBlock α)) :
    ((queue.orderedInsert TimerBlock.Before t).flatMap TimerBlock.blocks).Perm
      (t.blocks ++ queue.flatMap TimerBlock.blocks) :=
  (List.perm_orderedInsert TimerBlock.Before t queue).flatMap_right _

theorem held_linkTask (t : TaskBlock α) (queue : List (TaskBlock α)) :
    ((queue.orderedInsert TaskBlock.Precedes t).flatMap TaskBlock.blocks).Perm
      (t.blocks ++ queue.flatMap TaskBlock.blocks) :=
  (List.perm_orderedInsert TaskBlock.Precedes t queue).flatMap_right _

/-- What every step keeps. -/
structure Accounted (s : Deferred α) : Prop where
  ledger : Ledger s.heap s.held
  works : s.accepted.Perm (s.waiting ++ s.started)

theorem Accounted.addTimer (h : s.Accounted) {work : Work α} {rest : List (DeferFrame α)}
    (hblocks : s.stack.flatMap DeferFrame.blocks =
      work.ctx.toList ++ rest.flatMap DeferFrame.blocks)
    (hwaiting : s.stack.flatMap DeferFrame.waiting = rest.flatMap DeferFrame.waiting)
    {now ticks : BitVec 64} {node : Option ℕ} (hfresh : ∀ p ∈ node, p ∉ s.heap.live)
    (hs : s.addTimer work rest now ticks node = some s') : s'.Accounted := by
  have hworks := h.works
  unfold Deferred.waiting at hworks
  rw [hwaiting] at hworks
  cases node with
  | none =>
    obtain rfl := Option.some.inj hs
    refine ⟨h.ledger.move (List.perm_iff_count.mpr fun q => ?_), hworks⟩
    simp only [held, hblocks, List.count_append]
    omega
  | some p =>
    obtain rfl := Option.some.inj hs
    refine ⟨h.ledger.acquire (hfresh p rfl) (List.Perm.of_eq ?_), hworks.cons _⟩
    simp only [held, hblocks, List.flatMap_cons, DeferFrame.blocks, TimerBlock.blocks,
      List.cons_append, List.append_assoc]

theorem Accounted.addTask (h : s.Accounted) {cb : α} {priority : ℤ} {node : Option ℕ}
    (hfresh : ∀ p ∈ node, p ∉ s.heap.live)
    (hs : s.addTask cb priority node = some s') : s'.Accounted := by
  cases node with
  | none => exact Option.some.inj hs ▸ h
  | some p =>
    obtain rfl := Option.some.inj hs
    exact ⟨h.ledger.acquire (hfresh p rfl) (List.Perm.refl _), h.works.cons _⟩

theorem Accounted.expire (h : s.Accounted) {t : TimerBlock α} {queue : List (TimerBlock α)}
    (hq : s.gTimerQueue = t :: queue) {node : Option ℕ} (hfresh : ∀ p ∈ node, p ∉ s.heap.live)
    (hs : s.expire t queue node = some s') : s'.Accounted := by
  have hworks := h.works
  cases node with
  | none =>
    obtain rfl := Option.some.inj hs
    refine ⟨h.ledger.move ?_, ?_⟩
    · refine List.perm_iff_count.mpr fun q => ?_
      simp only [held, hq, List.flatMap_cons, DeferFrame.blocks, List.count_append]
      omega
    · classical
      refine hworks.trans (List.perm_iff_count.mpr fun w => ?_)
      simp only [Deferred.waiting, hq, List.flatMap_cons, DeferFrame.waiting, List.map_cons,
        List.count_append, List.count_cons, List.count_nil]
      omega
  | some p =>
    obtain rfl := Option.some.inj hs
    have hinsert : ((s.gTaskQueue.orderedInsert TaskBlock.Precedes
        ⟨p, t.entry.cb, timerTaskPrio⟩).flatMap TaskBlock.blocks).Perm
          (p :: t.entry.cb.ctx.toList ++ s.gTaskQueue.flatMap TaskBlock.blocks) := held_linkTask _ _
    have hmap := (List.perm_orderedInsert TaskBlock.Precedes
      (⟨p, t.entry.cb, timerTaskPrio⟩ : TaskBlock α) s.gTaskQueue).map TaskBlock.work
    refine ⟨(h.ledger.acquire (hfresh p rfl) (List.Perm.refl _)).release ?_, ?_⟩
    · refine List.perm_iff_count.mpr fun q => ?_
      have hcount := hinsert.count_eq q
      simp only [held, hq, List.flatMap_cons, TimerBlock.blocks, List.count_append,
        List.count_cons] at hcount ⊢
      omega
    · classical
      refine hworks.trans (List.perm_iff_count.mpr fun w => ?_)
      have hcount := hmap.count_eq w
      simp only [Deferred.waiting, hq, List.map_cons, List.count_append, List.count_cons]
        at hcount ⊢
      omega

theorem Accounted.kfreeCtx (h : s.Accounted) (hs : s.kfreeCtx = some s') : s'.Accounted := by
  obtain ⟨heap, timers, tasks, prio, stack, accepted, started, leaked⟩ := s
  rcases stack with _ | ⟨_ | _ | _ | _ | ⟨addr, e, r, cb, _ | ctx⟩ |
    ⟨⟨addr, ⟨cb, _ | ctx⟩, p⟩, prev⟩, rest⟩ <;> try cases hs
  all_goals exact ⟨h.ledger.release (List.Perm.swap _ _ _), h.works⟩

theorem Accounted.callbackReturns (h : s.Accounted) (hs : s.callbackReturns = some s') :
    s'.Accounted := by
  obtain ⟨heap, timers, tasks, prio, stack, accepted, started, leaked⟩ := s
  rcases stack with _ | ⟨_ | _ | _ | _ | ⟨addr, e, r, cb, _ | ctx⟩ |
    ⟨⟨addr, ⟨cb, _ | ctx⟩, p⟩, prev⟩, rest⟩ <;> try cases hs
  all_goals exact ⟨h.ledger.release (List.Perm.refl _), h.works⟩

theorem Accounted.link (h : s.Accounted) (hs : s.step .link = some s') : s'.Accounted := by
  obtain ⟨heap, timers, tasks, prio, stack, accepted, started, leaked⟩ := s
  have hworks := h.works
  rcases stack with _ | ⟨_ | n | n | _ | _ | _, rest⟩ <;> try cases hs
  · have hmap := (List.perm_orderedInsert TimerBlock.Before n timers).map fun t => t.entry.cb
    refine ⟨h.ledger.move ?_, hworks.trans ?_⟩
    · refine List.perm_iff_count.mpr fun q => ?_
      have hcount := (held_link n timers).count_eq q
      simp only [held, List.flatMap_cons, DeferFrame.blocks, List.count_append] at hcount ⊢
      omega
    · classical
      refine List.perm_iff_count.mpr fun w => ?_
      have hcount := hmap.count_eq w
      simp only [Deferred.waiting, List.flatMap_cons, DeferFrame.waiting, List.map_cons,
        List.count_append, List.count_cons, List.count_nil] at hcount ⊢
      omega
  · have hmap := (List.perm_orderedInsert TaskBlock.Precedes n tasks).map TaskBlock.work
    refine ⟨h.ledger.move ?_, hworks.trans ?_⟩
    · refine List.perm_iff_count.mpr fun q => ?_
      have hcount := (held_linkTask n tasks).count_eq q
      simp only [held, List.flatMap_cons, DeferFrame.blocks, List.count_append] at hcount ⊢
      omega
    · classical
      refine List.perm_iff_count.mpr fun w => ?_
      have hcount := hmap.count_eq w
      simp only [Deferred.waiting, List.flatMap_cons, DeferFrame.waiting, List.map_cons,
        List.count_append, List.count_cons, List.count_nil] at hcount ⊢
      omega

theorem Accounted.step {a : DeferLabel α} (h : s.Accounted)
    (hfresh : ∀ p ∈ a.block, p ∉ s.heap.live) (hs : s.step a = some s') : s'.Accounted := by
  cases a with
  | setTimeout cb ctx =>
    rw [Deferred.step] at hs
    split_ifs at hs
    obtain rfl := Option.some.inj hs
    exact ⟨h.ledger.acquire (hfresh ctx rfl) (List.Perm.refl _), h.works⟩
  | setTimer now ticks node =>
    obtain ⟨heap, timers, tasks, prio, stack, accepted, started, leaked⟩ := s
    rcases stack with _ | ⟨⟨cb, ctx⟩ | _ | _ | _ | _ | _, rest⟩ <;> try cases hs
    have hs' : Deferred.addTimer _ ⟨cb, some ctx⟩ rest now ticks node = some s' := hs
    refine h.addTimer ?_ ?_ (fun p hp => hfresh p hp) hs' <;> rfl
  | addTimer cb now ticks node =>
    rw [Deferred.step] at hs
    split_ifs at hs
    exact h.addTimer rfl rfl hfresh hs
  | addTask cb priority node =>
    rw [Deferred.step] at hs
    split_ifs at hs
    exact h.addTask hfresh hs
  | link => exact h.link hs
  | timerTopHalf now =>
    rw [Deferred.step] at hs
    split_ifs at hs
    obtain rfl := Option.some.inj hs
    exact ⟨h.ledger, h.works⟩
  | expire node =>
    rw [Deferred.step] at hs
    split at hs
    · rename_i hstack hq
      split_ifs at hs
      exact h.expire hq hfresh hs
    · cases hs
  | topHalfReturns =>
    obtain ⟨heap, timers, tasks, prio, stack, accepted, started, leaked⟩ := s
    rcases stack with _ | ⟨_ | _ | _ | now | _ | _, rest⟩ <;> try cases hs
    simp only [Deferred.step] at hs
    split_ifs at hs
    obtain rfl := Option.some.inj hs
    exact ⟨h.ledger, h.works⟩
  | dispatch =>
    rw [Deferred.step] at hs
    split at hs
    · rename_i t queue hq
      split_ifs at hs
      obtain rfl := Option.some.inj hs
      refine ⟨h.ledger.move (List.perm_iff_count.mpr fun q => ?_), h.works.trans ?_⟩
      · simp only [held, hq, List.flatMap_cons, DeferFrame.blocks, List.count_append]
        omega
      · classical
        refine List.perm_iff_count.mpr fun w => ?_
        simp only [Deferred.waiting, hq, List.flatMap_cons, DeferFrame.waiting, List.map_cons,
          List.count_append, List.count_cons, List.count_nil]
        omega
    · cases hs
  | kfreeCtx => exact h.kfreeCtx hs
  | callbackReturns => exact h.callbackReturns hs

end Deferred

/-! ## Coming to an end -/

/-- A task has a priority for which it can be started when no callback is running. -/
def DeferLabel.Urgent : DeferLabel α → Prop
  | .addTask _ priority _ => priority < taskPrioIdle
  | .setTimeout _ _ | .setTimer _ _ _ | .addTimer _ _ _ _ | .link | .timerTopHalf _ | .expire _
  | .topHalfReturns | .dispatch | .kfreeCtx | .callbackReturns => True

/-- The running priority `p` is what the calls in progress have left. -/
def Restores : ℤ → List (DeferFrame α) → Prop
  | p, [] => p = taskPrioIdle
  | p, .callback t prevPrio :: rest => p = t.priority ∧ Restores prevPrio rest
  | p, .setTimeout _ _ :: rest => Restores p rest
  | p, .addTimer _ :: rest => Restores p rest
  | p, .addTask _ :: rest => Restores p rest
  | p, .topHalf _ :: rest => Restores p rest
  | p, .fallback _ :: rest => Restores p rest

/-- How many steps a callback in progress takes at most. -/
def Work.rounds (w : Work α) : ℕ := 1 + w.ctx.toList.length

theorem Work.rounds_le (w : Work α) : w.rounds ≤ 2 := by
  rcases w with ⟨cb, _ | ctx⟩
  · exact Nat.le_succ 1
  · exact Nat.le_refl 2

/-- The guard of the runs.  A task that is added has a priority for which it can be started when no
callback is running, and `kmalloc` returns no block that somebody holds.  The source does not ensure
the latter: an interrupt inside `kmalloc` or `kfree` whose handler allocates can have the same block
returned twice.  So these are the runs in which those two functions are not interrupted so. -/
def Deferred.Admits (s : Deferred α) (a : DeferLabel α) : Prop :=
  a.Urgent ∧ ∀ p ∈ a.block, p ∉ s.heap.live

instance : ∀ a : DeferLabel α, Decidable a.Urgent
  | .addTask _ priority _ => inferInstanceAs (Decidable (priority < taskPrioIdle))
  | .setTimeout _ _ | .setTimer _ _ _ | .addTimer _ _ _ _ | .link | .timerTopHalf _ | .expire _
  | .topHalfReturns | .dispatch | .kfreeCtx | .callbackReturns => isTrue trivial

instance (s : Deferred α) (a : DeferLabel α) : Decidable (s.Admits a) :=
  inferInstanceAs (Decidable (_ ∧ _))

/-- What is left to do for what is in progress. -/
def DeferFrame.remaining : DeferFrame α → ℕ
  | .setTimeout _ _ => 1
  | .addTimer _ => 6
  | .addTask _ => 4
  | .topHalf _ => 1
  | .fallback t => t.entry.cb.rounds
  | .callback t _ => t.work.rounds

namespace Deferred

/-- What is left to do. -/
def remaining (s : Deferred α) : ℕ :=
  (s.stack.map DeferFrame.remaining).sum + 5 * s.gTimerQueue.length + 3 * s.gTaskQueue.length

/-- Every task can be started when no callback is running. -/
structure Startable (s : Deferred α) : Prop where
  restores : Restores s.gRunningPriority s.stack
  queue : ∀ t ∈ s.gTaskQueue, t.priority < taskPrioIdle
  frame : ∀ t, .addTask t ∈ s.stack → t.priority < taskPrioIdle

variable {s s' : Deferred α}

theorem Startable.addTimer (h : s.Startable) {work : Work α} {rest : List (DeferFrame α)}
    (hprio : Restores s.gRunningPriority rest) (hrest : ∀ f ∈ rest, f ∈ s.stack)
    {now ticks : BitVec 64} {node : Option ℕ}
    (hs : s.addTimer work rest now ticks node = some s') : s'.Startable := by
  cases node with
  | none =>
    obtain rfl := Option.some.inj hs
    exact ⟨hprio, h.queue, fun t ht => h.frame t (hrest _ ht)⟩
  | some p =>
    obtain rfl := Option.some.inj hs
    refine ⟨hprio, h.queue, fun t ht => h.frame t (hrest _ ?_)⟩
    exact (List.mem_cons.mp ht).resolve_left nofun

theorem Startable.step {a : DeferLabel α} (h : s.Startable) (ha : a.Urgent)
    (hs : s.step a = some s') : s'.Startable := by
  obtain ⟨heap, timers, tasks, prio, stack, accepted, started, leaked⟩ := s
  obtain ⟨hrestores, hqueue, hframe⟩ := h
  dsimp only at hrestores hqueue hframe
  have hbelow : ∀ {f : DeferFrame α} {rest : List (DeferFrame α)}, stack = f :: rest →
      ∀ t, .addTask t ∈ rest → t.priority < taskPrioIdle := fun heq t ht =>
    hframe t (heq ▸ List.mem_cons_of_mem _ ht)
  have hpush : ∀ {f : DeferFrame α}, (∀ t, f ≠ .addTask t) →
      ∀ t, .addTask t ∈ f :: stack → t.priority < taskPrioIdle := fun hf t ht =>
    hframe t ((List.mem_cons.mp ht).resolve_left fun heq => hf t heq.symm)
  cases a with
  | setTimeout cb ctx =>
    simp only [Deferred.step] at hs
    split_ifs at hs
    obtain rfl := Option.some.inj hs
    exact ⟨hrestores, hqueue, hpush nofun⟩
  | setTimer now ticks node =>
    rcases stack with _ | ⟨⟨cb, ctx⟩ | _ | _ | _ | _ | _, rest⟩ <;> try cases hs
    have hs' : Deferred.addTimer _ ⟨cb, some ctx⟩ rest now ticks node = some s' := hs
    exact Startable.addTimer ⟨hrestores, hqueue, hframe⟩ hrestores
      (fun f hf => List.mem_cons_of_mem _ hf) hs'
  | addTimer cb now ticks node =>
    simp only [Deferred.step] at hs
    split_ifs at hs
    exact Startable.addTimer ⟨hrestores, hqueue, hframe⟩ hrestores (fun f hf => hf) hs
  | addTask cb priority node =>
    simp only [Deferred.step] at hs
    split_ifs at hs
    cases node with
    | none =>
      obtain rfl := Option.some.inj hs
      exact ⟨hrestores, hqueue, hframe⟩
    | some p =>
      obtain rfl := Option.some.inj hs
      refine ⟨hrestores, hqueue, fun t ht => ?_⟩
      rcases List.mem_cons.mp ht with heq | ht
      · obtain rfl := DeferFrame.addTask.inj heq
        exact ha
      · exact hframe t ht
  | link =>
    rcases stack with _ | ⟨_ | n | n | _ | _ | _, rest⟩ <;> try cases hs
    · exact ⟨hrestores, hqueue, hbelow rfl⟩
    · refine ⟨hrestores, fun t ht => ?_, hbelow rfl⟩
      rcases (List.mem_orderedInsert _).mp ht with rfl | ht
      · exact hframe t List.mem_cons_self
      · exact hqueue t ht
  | timerTopHalf now =>
    simp only [Deferred.step] at hs
    split_ifs at hs
    obtain rfl := Option.some.inj hs
    exact ⟨hrestores, hqueue, hpush nofun⟩
  | expire node =>
    simp only [Deferred.step] at hs
    split at hs
    · split_ifs at hs
      cases node with
      | none =>
        obtain rfl := Option.some.inj hs
        exact ⟨hrestores, hqueue, hpush nofun⟩
      | some p =>
        obtain rfl := Option.some.inj hs
        refine ⟨hrestores, fun t ht => ?_, hframe⟩
        rcases (List.mem_orderedInsert _).mp ht with rfl | ht
        · show timerTaskPrio < taskPrioIdle
          decide
        · exact hqueue t ht
    · cases hs
  | topHalfReturns =>
    rcases stack with _ | ⟨_ | _ | _ | now | _ | _, rest⟩ <;> try cases hs
    simp only [Deferred.step] at hs
    split_ifs at hs
    obtain rfl := Option.some.inj hs
    exact ⟨hrestores, hqueue, hbelow rfl⟩
  | dispatch =>
    simp only [Deferred.step] at hs
    split at hs
    · split_ifs at hs
      obtain rfl := Option.some.inj hs
      exact ⟨⟨rfl, hrestores⟩, fun t ht => hqueue t (List.mem_cons_of_mem _ ht), hpush nofun⟩
    · cases hs
  | kfreeCtx =>
    rcases stack with _ | ⟨_ | _ | _ | _ | ⟨_, _, _, _, _ | ctx⟩ | ⟨⟨_, ⟨_, _ | ctx⟩, _⟩, prev⟩,
      rest⟩ <;> try cases hs
    · exact ⟨hrestores, hqueue, fun t ht => hbelow rfl t ((List.mem_cons.mp ht).resolve_left nofun)⟩
    · exact ⟨hrestores, hqueue, fun t ht => hbelow rfl t ((List.mem_cons.mp ht).resolve_left nofun)⟩
  | callbackReturns =>
    rcases stack with _ | ⟨_ | _ | _ | _ | ⟨_, _, _, _, _ | ctx⟩ | ⟨⟨_, ⟨_, _ | ctx⟩, _⟩, prev⟩,
      rest⟩ <;> try cases hs
    · exact ⟨hrestores, hqueue, hbelow rfl⟩
    · exact ⟨hrestores.2, hqueue, hbelow rfl⟩

/-- A run that allocates nothing: what it starts was accepted before, and it leaks only what
belongs to a `shell_set_timeout` in progress. -/
structure Continues (s s' : Deferred α) : Prop where
  run : Reachable step Admits s s'
  accepted : s'.accepted = s.accepted
  setTimeout : ∀ cb ctx, .setTimeout cb ctx ∈ s'.stack → .setTimeout cb ctx ∈ s.stack
  leaked : ∀ p ∈ s'.leaked, p ∈ s.leaked ∨ ∃ cb, .setTimeout cb p ∈ s.stack

theorem Continues.refl (s : Deferred α) : Continues s s :=
  ⟨Reachable.refl s, rfl, fun _ _ h => h, fun _ h => Or.inl h⟩

theorem Continues.trans {s'' : Deferred α} (h : Continues s s') (h' : Continues s' s'') :
    Continues s s'' where
  run := Relation.ReflTransGen.trans h.run h'.run
  accepted := h'.accepted.trans h.accepted
  setTimeout cb ctx hmem := h.setTimeout cb ctx (h'.setTimeout cb ctx hmem)
  leaked p hp := by
    rcases h'.leaked p hp with hp | ⟨cb, hp⟩
    · exact h.leaked p hp
    · exact Or.inr ⟨cb, h.setTimeout cb p hp⟩

/-- A step that leaks nothing. -/
theorem Continues.of_step {a : DeferLabel α} (ha : a.Urgent) (hnone : a.block = none)
    (hs : s.step a = some s') (haccepted : s'.accepted = s.accepted)
    (hstack : ∀ cb ctx, .setTimeout cb ctx ∈ s'.stack → .setTimeout cb ctx ∈ s.stack)
    (hleaked : s'.leaked = s.leaked) : Continues s s' :=
  ⟨(Reachable.refl s).tail ⟨ha, hnone ▸ nofun⟩ hs, haccepted, hstack,
    fun _ hp => Or.inl (hleaked ▸ hp)⟩

theorem timerTopHalf_eq (h : ¬ s.InTopHalf) (now : BitVec 64) :
    s.step (.timerTopHalf now) = some { s with stack := .topHalf now :: s.stack } :=
  if_neg h

/-- A round of `timer_top_half` without memory. -/
theorem exists_expire (heap : BlockHeap ℕ) {t : TimerBlock α} (timers : List (TimerBlock α))
    (tasks : List (TaskBlock α)) (prio : ℤ) {now : BitVec 64} (rest : List (DeferFrame α))
    (accepted started : List (Work α)) (leaked : List ℕ) (hnow : ¬ now < t.entry.expireTick) :
    ∃ s', Continues ⟨heap, t :: timers, tasks, prio, .topHalf now :: rest, accepted, started,
        leaked⟩ s' ∧
      s'.remaining + 2 ≤ Deferred.remaining ⟨heap, t :: timers, tasks, prio, .topHalf now :: rest,
        accepted, started, leaked⟩ := by
  refine ⟨_, Continues.of_step (a := .expire none) trivial rfl (if_neg hnow) rfl
    (fun cb ctx hmem => (List.mem_cons.mp hmem).resolve_left nofun) rfl, ?_⟩
  have hrounds := t.entry.cb.rounds_le
  simp only [remaining, List.map_cons, List.sum_cons, List.length_cons, DeferFrame.remaining]
  omega

/-- **Progress.**  While anything is in progress or waits, there is something to do that needs no
memory, and it brings the end nearer. -/
theorem Startable.progress (h : s.Startable) (hpos : 0 < s.remaining) :
    ∃ s', Continues s s' ∧ s'.remaining < s.remaining := by
  obtain ⟨heap, timers, tasks, prio, stack, accepted, started, leaked⟩ := s
  have hkeep : ∀ {f : DeferFrame α} {rest : List (DeferFrame α)}, stack = f :: rest →
      ∀ cb ctx, .setTimeout cb ctx ∈ rest → .setTimeout cb ctx ∈ stack := fun heq cb ctx hmem =>
    heq ▸ List.mem_cons_of_mem _ hmem
  rcases stack with _ | ⟨⟨cb, ctx⟩ | n | n | now | ⟨addr, e, r, cb, _ | ctx⟩ |
    ⟨⟨addr, ⟨cb, _ | ctx⟩, p⟩, prev⟩, rest⟩
  · -- nothing is in progress: a timer that is due at the end of time, or the first task
    rcases timers with _ | ⟨t, timers⟩
    · rcases tasks with _ | ⟨t, tasks⟩
      · exact absurd hpos (Nat.lt_irrefl 0)
      · have hlt : t.priority < prio :=
          lt_of_lt_of_eq (h.queue t List.mem_cons_self) (Eq.symm h.restores)
        refine ⟨_, Continues.of_step (a := .dispatch) trivial rfl
          (if_neg (not_or.mpr ⟨id, not_le.mpr hlt⟩)) rfl
          (fun cb ctx hmem => (List.mem_cons.mp hmem).resolve_left nofun) rfl, ?_⟩
        have hrounds := t.work.rounds_le
        simp only [remaining, List.map_cons, List.sum_cons, List.length_cons, DeferFrame.remaining]
        omega
    · have hidle : ¬ InTopHalf ⟨heap, t :: timers, tasks, prio, [], accepted, started, leaked⟩ := id
      have hcall : Continues ⟨heap, t :: timers, tasks, prio, [], accepted, started, leaked⟩
          ⟨heap, t :: timers, tasks, prio, [.topHalf (BitVec.allOnes 64)], accepted, started,
            leaked⟩ :=
        Continues.of_step (a := .timerTopHalf (BitVec.allOnes 64)) trivial rfl
          (timerTopHalf_eq hidle _) rfl
          (fun cb ctx hmem => (List.mem_cons.mp hmem).resolve_left nofun) rfl
      have hnow : ¬ BitVec.allOnes 64 < t.entry.expireTick := by
        rw [BitVec.lt_def, BitVec.toNat_allOnes]
        omega
      obtain ⟨s', hs', hlt⟩ :=
        exists_expire heap timers tasks prio [] accepted started leaked hnow
      refine ⟨s', hcall.trans hs', ?_⟩
      simp only [remaining, List.map_cons, List.map_nil, List.sum_cons, List.sum_nil,
        DeferFrame.remaining] at hlt ⊢
      omega
  · -- without memory for a timer its block is leaked
    refine ⟨_, ⟨(Reachable.refl _).tail (a := .setTimer 0 0 none) ⟨trivial, nofun⟩ rfl, rfl,
      hkeep rfl, fun q hq => ?_⟩, ?_⟩
    · rcases List.mem_cons.mp hq with rfl | hq
      · exact Or.inr ⟨cb, List.mem_cons_self⟩
      · exact Or.inl hq
    · simp only [remaining, List.map_cons, List.sum_cons, DeferFrame.remaining]
      omega
  · refine ⟨_, Continues.of_step (a := .link) trivial rfl rfl rfl (hkeep rfl) rfl, ?_⟩
    simp only [remaining, List.map_cons, List.sum_cons, DeferFrame.remaining,
      List.orderedInsert_length]
    omega
  · refine ⟨_, Continues.of_step (a := .link) trivial rfl rfl rfl (hkeep rfl) rfl, ?_⟩
    simp only [remaining, List.map_cons, List.sum_cons, DeferFrame.remaining,
      List.orderedInsert_length]
    omega
  · by_cases hall : ∀ t ∈ timers.head?, now < t.entry.expireTick
    · refine ⟨_, Continues.of_step (a := .topHalfReturns) trivial rfl (if_pos hall) rfl (hkeep rfl)
        rfl, ?_⟩
      simp only [remaining, List.map_cons, List.sum_cons, DeferFrame.remaining]
      omega
    · rcases timers with _ | ⟨t, timers⟩
      · exact absurd nofun hall
      · have hnow : ¬ now < t.entry.expireTick := fun hlt => hall fun t' ht' =>
          Option.some.inj ht' ▸ hlt
        obtain ⟨s', hs', hlt⟩ :=
          exists_expire heap timers tasks prio rest accepted started leaked hnow
        exact ⟨s', hs', by omega⟩
  · refine ⟨_, Continues.of_step (a := .callbackReturns) trivial rfl rfl rfl (hkeep rfl) rfl, ?_⟩
    simp only [remaining, List.map_cons, List.sum_cons, DeferFrame.remaining, Work.rounds]
    omega
  · refine ⟨_, Continues.of_step (a := .kfreeCtx) trivial rfl rfl rfl
      (fun cb ctx hmem => hkeep rfl cb ctx ((List.mem_cons.mp hmem).resolve_left nofun)) rfl, ?_⟩
    simp only [remaining, List.map_cons, List.sum_cons, DeferFrame.remaining, Work.rounds,
      Option.toList_some, Option.toList_none, List.length_singleton, List.length_nil]
    omega
  · refine ⟨_, Continues.of_step (a := .callbackReturns) trivial rfl rfl rfl (hkeep rfl) rfl, ?_⟩
    simp only [remaining, List.map_cons, List.sum_cons, DeferFrame.remaining, Work.rounds]
    omega
  · refine ⟨_, Continues.of_step (a := .kfreeCtx) trivial rfl rfl rfl
      (fun cb ctx hmem => hkeep rfl cb ctx ((List.mem_cons.mp hmem).resolve_left nofun)) rfl, ?_⟩
    simp only [remaining, List.map_cons, List.sum_cons, DeferFrame.remaining, Work.rounds,
      Option.toList_some, Option.toList_none, List.length_singleton, List.length_nil]
    omega

theorem Startable.of_run (h : s.Startable)
    (hrun : Reachable Deferred.step Admits s s') : s'.Startable :=
  hrun.invariant h fun _ _ _ h ha hs => h.step ha.1 hs

/-- It can be brought to its end. -/
theorem Startable.finishes (h : s.Startable) : ∃ s', Continues s s' ∧ s'.remaining = 0 := by
  induction hn : s.remaining using Nat.strong_induction_on generalizing s with
  | _ n ih =>
    by_cases hpos : 0 < s.remaining
    · obtain ⟨s', hs', hlt⟩ := h.progress hpos
      obtain ⟨s'', hs'', hend⟩ := ih _ (hn ▸ hlt) (h.of_run hs'.run) rfl
      exact ⟨s'', hs'.trans hs'', hend⟩
    · exact ⟨s, Continues.refl s, Nat.eq_zero_of_not_pos hpos⟩

/-- Nothing is in progress and nothing waits. -/
theorem eq_nil_of_remaining (h : s.remaining = 0) :
    s.stack = [] ∧ s.gTimerQueue = [] ∧ s.gTaskQueue = [] := by
  unfold remaining at h
  refine ⟨?_, List.eq_nil_of_length_eq_zero (by omega), List.eq_nil_of_length_eq_zero (by omega)⟩
  cases hstack : s.stack with
  | nil => rfl
  | cons f rest =>
    have hf : 0 < f.remaining := by
      cases f with
      | fallback t => exact Nat.add_pos_left Nat.one_pos _
      | callback t _ => exact Nat.add_pos_left Nat.one_pos _
      | setTimeout _ _ | addTimer _ | addTask _ | topHalf _ => exact Nat.succ_pos _
    rw [hstack, List.map_cons, List.sum_cons] at h
    omega

end Deferred

open Deferred

/-- Two calls of `shell_set_timeout`; there is no memory for the second timer, nor for a task when
the first one expires. -/
def timeoutRun : List (DeferLabel ℕ) :=
  [.setTimeout 0 16, .setTimer 5 10 (some 32), .link, .setTimeout 1 48, .setTimer 6 10 none,
    .timerTopHalf 20, .expire none, .kfreeCtx]

end Sched
end OscKernel
