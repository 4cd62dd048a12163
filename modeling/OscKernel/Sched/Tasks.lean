import OscKernel.Lib.StableQueue
import OscKernel.Sched.Machine

/-!
# Bottom halves on one stack (`task.c`)

Calls of `task_run_pending` and the callbacks that they run, on one kernel stack.  A callback, or
an interrupt that is taken on top of any of these calls, may add tasks and call `task_run_pending`
again, at any time and to any depth.  Tasks are told apart by the call of `add_task` that made
them.

* `Dispatcher.dispatch_of_reachable`: which tasks are started, and what a return leaves behind.
* `Kernel.Dispatches`: the functions of the machine are these.

## The invariant

The queue is sorted by priority, and by age among equals, which `add_task` keeps by putting a new
task behind those that are as urgent.  The priorities in progress form a chain on the stack: the
running priority is that of the innermost callback, it is more urgent than what the callback
interrupted, and so on down to the first call (`Nested`).  A task that is started is more urgent
than the running priority, and therefore than everything in progress.

That a return leaves nothing more urgent on the queue than the priority it was called with needs no
induction over the callbacks in between: whatever they added, the last round of the loop looked at
the head of a sorted queue with that priority.

## Memory

`add_task` may find no memory for its node.  Then it changes nothing here; what its callers do in
that case belongs to them.
-/

namespace OscKernel
namespace Sched

open Transition

/-- `struct task_node`, with `cb` and `arg` as one value. -/
structure Task (α : Type*) where
  cb : α
  priority : ℤ
  /-- The call of `add_task` that made it. -/
  seq : ℕ

/-- `n` goes before `t` in the queue. -/
def Task.Precedes {α : Type*} (n t : Task α) : Prop := n.priority < t.priority

instance {α : Type*} : DecidableRel (Task.Precedes (α := α)) := fun n t =>
  inferInstanceAs (Decidable (n.priority < t.priority))

/-- `t` is the more urgent one, or it is as urgent and older. -/
def Task.Before {α : Type*} : Task α → Task α → Prop :=
  StableQueue.Before Task.priority Task.seq

/-- A call on the stack. -/
inductive TaskCall (α : Type*) where
  /-- `task_run_pending()`, which was called when the running priority was `entry`. -/
  | taskRunPending (entry : ℤ)
  /-- `t->cb(t->arg)`, with the `prev_prio` of the call of `task_run_pending` below. -/
  | callback (t : Task α) (prevPrio : ℤ)

/-- The state of `task.c`, and the calls in progress, the innermost first. -/
structure Dispatcher (α : Type*) where
  gTaskQueue : List (Task α)
  gRunningPriority : ℤ
  stack : List (TaskCall α)
  /-- The tasks that `add_task` has made so far. -/
  added : ℕ
  /-- The tasks whose callback was called, the latest first. -/
  started : List (Task α)

/-- What happens next. -/
inductive TaskLabel (α : Type*) where
  /-- `add_task`; `ok` says whether there is memory for the node. -/
  | addTask (cb : α) (priority : ℤ) (ok : Bool)
  /-- `task_run_pending` is called. -/
  | taskRunPending
  /-- The innermost call of `task_run_pending` goes on: it calls the next callback or returns. -/
  | goOn
  /-- The innermost callback returns. -/
  | callbackReturns

namespace Dispatcher

variable {α : Type*} (s : Dispatcher α)

/-- `add_task`. -/
def addTask (cb : α) (priority : ℤ) (ok : Bool) : Dispatcher α :=
  if ok then
    { s with
      gTaskQueue := s.gTaskQueue.orderedInsert Task.Precedes ⟨cb, priority, s.added⟩
      added := s.added + 1 }
  else s

/-- The task that `task_run_pending` takes off the queue. -/
def next : Option (Task α × List (Task α)) :=
  match s.gTaskQueue with
  | t :: rest => if t.priority < s.gRunningPriority then some (t, rest) else none
  | [] => none

/-- One step. -/
def step (s : Dispatcher α) : TaskLabel α → Option (Dispatcher α)
  | .addTask cb priority ok => some (s.addTask cb priority ok)
  | .taskRunPending => some { s with stack := .taskRunPending s.gRunningPriority :: s.stack }
  | .goOn =>
      match s.stack with
      | .taskRunPending entry :: rest =>
          match s.next with
          | some (t, queue) =>
              some { s with
                gTaskQueue := queue
                gRunningPriority := t.priority
                stack := .callback t s.gRunningPriority :: .taskRunPending entry :: rest
                started := t :: s.started }
          | none => some { s with stack := rest }
      | _ => none
  | .callbackReturns =>
      match s.stack with
      | .callback _ prevPrio :: rest => some { s with gRunningPriority := prevPrio, stack := rest }
      | _ => none

/-- Nothing is in progress, and no task was added yet. -/
def start (α : Type*) (p : ℤ) : Dispatcher α := ⟨[], p, [], 0, []⟩

/-! ## The invariant -/

/-- The running priority `p` belongs to the calls `fs`: it is what it was when the innermost
`task_run_pending` was called, or that of the innermost callback, which is more urgent than what
it interrupted. -/
def Nested : ℤ → List (TaskCall α) → Prop
  | _, [] => True
  | p, .taskRunPending entry :: fs => p = entry ∧ Nested p fs
  | p, .callback t prevPrio :: fs => p = t.priority ∧ p < prevPrio ∧ Nested prevPrio fs

/-- What holds throughout a run. -/
structure Dispatched (s : Dispatcher α) : Prop where
  sorted : s.gTaskQueue.Pairwise Task.Before
  tasks : ((s.started ++ s.gTaskQueue).map Task.seq).Perm (List.range s.added)
  nested : Nested s.gRunningPriority s.stack

variable {s} {s' : Dispatcher α} {t u : Task α} {queue : List (Task α)} {fs : List (TaskCall α)}
  {p entry prevPrio : ℤ}

/-- The innermost callback is the most urgent one. -/
theorem Nested.le (h : Nested p fs) (hu : .callback u prevPrio ∈ fs) : p ≤ u.priority := by
  induction fs generalizing p with
  | nil => cases hu
  | cons f fs ih =>
    cases f with
    | taskRunPending entry =>
      obtain ⟨rfl, h⟩ := h
      exact ih h ((List.mem_cons.mp hu).resolve_left nofun)
    | callback t prev =>
      obtain ⟨rfl, hlt, h⟩ := h
      rcases List.mem_cons.mp hu with heq | hu
      · rw [(TaskCall.callback.inj heq).1]
      · exact hlt.le.trans (ih h hu)

theorem next_eq_some (h : s.next = some (t, queue)) :
    s.gTaskQueue = t :: queue ∧ t.priority < s.gRunningPriority := by
  unfold next at h
  cases hq : s.gTaskQueue with
  | nil =>
    rw [hq] at h
    cases h
  | cons a rest =>
    rw [hq] at h
    dsimp only at h
    split_ifs at h with hlt
    obtain ⟨rfl, rfl⟩ := Prod.mk.inj (Option.some.inj h)
    exact ⟨rfl, hlt⟩

theorem next_eq_none (h : s.next = none) (hs : s.gTaskQueue.Pairwise Task.Before) :
    ∀ u ∈ s.gTaskQueue, s.gRunningPriority ≤ u.priority := by
  unfold next at h
  cases hq : s.gTaskQueue with
  | nil => nofun
  | cons a rest =>
    rw [hq] at h hs
    dsimp only at h
    split_ifs at h with hlt
    intro u hu
    rcases List.mem_cons.mp hu with rfl | hu
    · exact not_lt.mp hlt
    · exact (not_lt.mp hlt).trans ((List.pairwise_cons.mp hs).1 u hu).le

/-- What a step of `task_run_pending` does. -/
theorem step_goOn (h : s.step .goOn = some s') : ∃ entry rest,
    s.stack = .taskRunPending entry :: rest ∧
    ((∃ t queue, s.gTaskQueue = t :: queue ∧ t.priority < s.gRunningPriority ∧
        s' = { s with
          gTaskQueue := queue, gRunningPriority := t.priority
          stack := .callback t s.gRunningPriority :: .taskRunPending entry :: rest
          started := t :: s.started }) ∨
      s.next = none ∧ s' = { s with stack := rest }) := by
  rw [step] at h
  cases hstack : s.stack with
  | nil =>
    rw [hstack] at h
    cases h
  | cons f rest =>
    rw [hstack] at h
    cases f with
    | callback => cases h
    | taskRunPending entry =>
      dsimp only at h
      refine ⟨entry, rest, rfl, ?_⟩
      cases hn : s.next with
      | none =>
        rw [hn] at h
        exact Or.inr ⟨rfl, (Option.some.inj h).symm⟩
      | some r =>
        obtain ⟨t, queue⟩ := r
        rw [hn] at h
        obtain ⟨hq, hlt⟩ := next_eq_some hn
        exact Or.inl ⟨t, queue, hq, hlt, (Option.some.inj h).symm⟩

/-- What the return of a callback does. -/
theorem step_callbackReturns (h : s.step .callbackReturns = some s') : ∃ t prevPrio rest,
    s.stack = .callback t prevPrio :: rest ∧
      s' = { s with gRunningPriority := prevPrio, stack := rest } := by
  rw [step] at h
  cases hstack : s.stack with
  | nil =>
    rw [hstack] at h
    cases h
  | cons f rest =>
    rw [hstack] at h
    cases f with
    | taskRunPending => cases h
    | callback t prevPrio => exact ⟨t, prevPrio, rest, rfl, (Option.some.inj h).symm⟩

theorem Dispatched.seq_lt (h : s.Dispatched) (ht : t ∈ s.gTaskQueue) : t.seq < s.added := by
  have hmem : t.seq ∈ (s.started ++ s.gTaskQueue).map Task.seq :=
    List.mem_map_of_mem (List.mem_append_right _ ht)
  exact List.mem_range.mp (h.tasks.mem_iff.mp hmem)

theorem Dispatched.addTask (h : s.Dispatched) (cb : α) (priority : ℤ) (ok : Bool) :
    (s.addTask cb priority ok).Dispatched := by
  cases ok with
  | false => exact h
  | true =>
    refine ⟨StableQueue.pairwise_orderedInsert h.sorted fun t ht => h.seq_lt ht, ?_, h.nested⟩
    show ((s.started ++ s.gTaskQueue.orderedInsert Task.Precedes ⟨cb, priority, s.added⟩).map
      Task.seq).Perm (List.range (s.added + 1))
    have hinsert : (s.started ++ s.gTaskQueue.orderedInsert Task.Precedes
        ⟨cb, priority, s.added⟩).Perm (⟨cb, priority, s.added⟩ :: (s.started ++ s.gTaskQueue)) :=
      ((List.perm_orderedInsert ..).append_left _).trans List.perm_middle
    refine (hinsert.map Task.seq).trans ?_
    rw [List.map_cons, List.range_succ]
    exact (h.tasks.cons _).trans (List.perm_append_singleton _ _).symm

/-- **Every step** keeps the invariant. -/
theorem dispatched_step {a : TaskLabel α} (h : s.Dispatched) (hs : s.step a = some s') :
    s'.Dispatched := by
  cases a with
  | addTask cb priority ok => exact Option.some.inj hs ▸ h.addTask cb priority ok
  | taskRunPending =>
    obtain rfl := Option.some.inj hs
    exact ⟨h.sorted, h.tasks, rfl, h.nested⟩
  | goOn =>
    obtain ⟨entry, rest, hstack, ⟨t, queue, hq, hlt, rfl⟩ | ⟨-, rfl⟩⟩ := step_goOn hs
    · have hnested := h.nested
      rw [hstack] at hnested
      refine ⟨(List.pairwise_cons.mp (hq ▸ h.sorted)).2, ?_, rfl, hlt, hnested⟩
      have hperm : (t :: s.started ++ queue).Perm (s.started ++ t :: queue) := List.perm_middle.symm
      exact (hperm.map Task.seq).trans (hq ▸ h.tasks)
    · exact ⟨h.sorted, h.tasks, (hstack ▸ h.nested).2⟩
  | callbackReturns =>
    obtain ⟨t, prevPrio, rest, hstack, rfl⟩ := step_callbackReturns hs
    exact ⟨h.sorted, h.tasks, (hstack ▸ h.nested).2.2⟩

theorem dispatched_of_reachable {p : ℤ} (h : Reachable step anyStep (start α p) s) :
    s.Dispatched :=
  h.invariant (P := Dispatched) ⟨List.Pairwise.nil, List.Perm.refl _, trivial⟩
    fun _ _ _ hi _ hs => dispatched_step hi hs

/-- A step that starts a task is one of `task_run_pending`. -/
theorem started_eq {a : TaskLabel α} (hs : s.step a = some s') (ht : s'.started = t :: s.started) :
    ∃ queue, s.gTaskQueue = t :: queue ∧ t.priority < s.gRunningPriority := by
  have hne : s'.started = s.started → False := fun h =>
    absurd (congrArg List.length (h.symm.trans ht)) (by simp)
  cases a with
  | addTask cb priority ok =>
    refine (hne ?_).elim
    obtain rfl := Option.some.inj hs
    unfold addTask
    split_ifs <;> rfl
  | taskRunPending => exact (hne (Option.some.inj hs ▸ rfl)).elim
  | goOn =>
    obtain ⟨entry, rest, -, ⟨t', queue, hq, hlt, rfl⟩ | ⟨-, rfl⟩⟩ := step_goOn hs
    · obtain rfl : t' = t := (List.cons.inj ht).1
      exact ⟨queue, hq, hlt⟩
    · exact (hne rfl).elim
  | callbackReturns =>
    obtain ⟨_, _, _, -, rfl⟩ := step_callbackReturns hs
    exact (hne rfl).elim

/-- A step that ends a call of `task_run_pending`. -/
theorem return_eq {a : TaskLabel α} (hs : s.step a = some s')
    (hstack : s.stack = .taskRunPending entry :: s'.stack) :
    s.next = none ∧ s' = { s with stack := s'.stack } := by
  have hne : s'.stack.length + 1 = s.stack.length := by rw [hstack]; rfl
  cases a with
  | addTask cb priority ok =>
    obtain rfl := Option.some.inj hs
    unfold addTask at hne
    split_ifs at hne <;> exact absurd hne (Nat.succ_ne_self _)
  | taskRunPending =>
    obtain rfl := Option.some.inj hs
    simp only [List.length_cons] at hne
    omega
  | goOn =>
    obtain ⟨entry', rest, hs', ⟨t', queue, hq, hlt, rfl⟩ | ⟨hnone, rfl⟩⟩ := step_goOn hs
    · rw [hs'] at hne
      simp only [List.length_cons] at hne
      omega
    · exact ⟨hnone, rfl⟩
  | callbackReturns =>
    obtain ⟨t, prevPrio, rest, hs', rfl⟩ := step_callbackReturns hs
    rw [hs'] at hstack
    cases (List.cons.inj hstack).1

/-- **The dispatcher.**  After any calls on one stack: every task that was added has been started
once or is on the queue; the task that is started next is the most urgent one of the queue and the
oldest of these, and is more urgent than every callback in progress; and when a call of
`task_run_pending` returns, the running priority is what it was when it was called, and no task on
the queue is more urgent than that. -/
theorem dispatch_of_reachable {p : ℤ} (h : Reachable step anyStep (start α p) s) :
    ((s.started ++ s.gTaskQueue).map Task.seq).Perm (List.range s.added) ∧
    (∀ a s' t, s.step a = some s' → s'.started = t :: s.started →
      t ∈ s.gTaskQueue ∧ (∀ u ∈ s.gTaskQueue, u ≠ t → t.Before u) ∧
        ∀ u prevPrio, .callback u prevPrio ∈ s.stack → t.priority < u.priority) ∧
    ∀ a s' entry, s.step a = some s' → s.stack = .taskRunPending entry :: s'.stack →
      s'.gRunningPriority = entry ∧ ∀ u ∈ s'.gTaskQueue, entry ≤ u.priority := by
  have hinv := dispatched_of_reachable h
  refine ⟨hinv.tasks, fun a s' t hs ht => ?_, fun a s' entry hs hstack => ?_⟩
  · obtain ⟨queue, hq, hlt⟩ := started_eq hs ht
    have hsorted := hinv.sorted
    rw [hq] at hsorted ⊢
    refine ⟨List.mem_cons_self, fun u hu hne => ?_, fun u prevPrio hu =>
      hlt.trans_le (hinv.nested.le hu)⟩
    exact (List.pairwise_cons.mp hsorted).1 u ((List.mem_cons.mp hu).resolve_left hne)
  · obtain ⟨hnone, heq⟩ := return_eq hs hstack
    have hentry : s.gRunningPriority = entry := by
      have hnested := hinv.nested
      rw [hstack] at hnested
      exact hnested.1
    rw [heq]
    exact ⟨hentry, fun u hu => hentry ▸ next_eq_none hnone hinv.sorted u hu⟩

/-- `tasknest`: the callback adds a more urgent task and calls `task_run_pending` itself. -/
def nestRun : List (TaskLabel ℕ) :=
  [.addTask 0 9 true, .taskRunPending, .goOn, .addTask 1 5 true, .taskRunPending, .goOn,
    .callbackReturns]

/-- The nested call returns. -/
theorem dispatch_of_nestRun : ∃ s, Reachable step anyStep (start ℕ taskPrioIdle) s ∧
    ((s.started ++ s.gTaskQueue).map Task.seq).Perm (List.range 2) ∧
    ∃ s', s.step .goOn = some s' ∧ s'.gRunningPriority = 9 ∧
      ∀ u ∈ s'.gTaskQueue, 9 ≤ u.priority := by
  obtain ⟨s, hs, s', hs', hadded, hstack⟩ : ∃ s, runList step (start ℕ taskPrioIdle) nestRun =
      some s ∧ ∃ s', s.step .goOn = some s' ∧ s.added = 2 ∧
        s.stack = .taskRunPending 9 :: s'.stack := ⟨_, rfl, _, rfl, rfl, rfl⟩
  have hreach := reachable_of_runList hs
  obtain ⟨htasks, -, hreturn⟩ := dispatch_of_reachable hreach
  exact ⟨s, hreach, hadded ▸ htasks, s', hs', hreturn _ s' 9 hs' hstack⟩

end Dispatcher

/-! ## The dispatcher of the machine -/

/-- The node as the machine has it. -/
def Task.node (t : Task Callback) : TaskNode := ⟨t.cb, t.priority⟩

namespace Kernel

/-- `s` is the state of `task.c` in `k`. -/
structure Dispatches (k : Kernel) (s : Dispatcher Callback) : Prop where
  tasks : k.gTaskQueue = s.gTaskQueue.map Task.node
  priority : k.gRunningPriority = s.gRunningPriority

variable {k : Kernel} {s : Dispatcher Callback} {rest : List (TaskCall Callback)}

theorem Dispatches.addTask (h : k.Dispatches s) (cb : Callback) (priority : ℤ) :
    (k.addTask cb priority).Dispatches (s.addTask cb priority true) where
  tasks := by
    show k.gTaskQueue.orderedInsert TaskNode.Before ⟨cb, priority⟩ =
      (s.gTaskQueue.orderedInsert Task.Precedes ⟨cb, priority, s.added⟩).map Task.node
    rw [h.tasks]
    exact (List.map_orderedInsert Task.Precedes TaskNode.Before Task.node s.gTaskQueue
      ⟨cb, priority, s.added⟩ (fun _ _ => Iff.rfl) fun _ _ => Iff.rfl).symm
  priority := h.priority

theorem taskRunPending_nil (hq : k.gTaskQueue = []) : k.taskRunPending = (k, []) := by
  rw [Kernel.taskRunPending, hq]

theorem taskRunPending_cons {n : TaskNode} {q : List TaskNode} (hq : k.gTaskQueue = n :: q) :
    k.taskRunPending = if n.priority < k.gRunningPriority then
      ({ k with gTaskQueue := q, gRunningPriority := n.priority, sie := true },
        [.callback n.cb, .taskDone k.gRunningPriority])
    else (k, []) := by
  rw [Kernel.taskRunPending, hq]

/-- One round of the loop of `task_run_pending`. -/
theorem Dispatches.taskRunPending (h : k.Dispatches s) {entry : ℤ}
    (hstack : s.stack = .taskRunPending entry :: rest) : ∃ s', s.step .goOn = some s' ∧
      k.taskRunPending.1.Dispatches s' ∧
      (k.taskRunPending.2 = [] ∧ s'.stack = rest ∨
        ∃ t, k.taskRunPending.2 = [.callback t.cb, .taskDone k.gRunningPriority] ∧
          s'.stack = .callback t k.gRunningPriority :: s.stack) := by
  have htasks := h.tasks
  unfold Dispatcher.step Dispatcher.next
  rw [hstack]
  cases hq : s.gTaskQueue with
  | nil =>
    rw [hq] at htasks
    rw [taskRunPending_nil htasks]
    exact ⟨_, rfl, ⟨htasks, h.priority⟩, Or.inl ⟨rfl, rfl⟩⟩
  | cons t queue =>
    rw [hq] at htasks
    rw [taskRunPending_cons htasks, h.priority]
    dsimp only
    by_cases hlt : t.priority < s.gRunningPriority
    · rw [if_pos hlt, if_pos (show t.node.priority < s.gRunningPriority from hlt)]
      exact ⟨_, rfl, ⟨rfl, rfl⟩, Or.inr ⟨t, rfl, rfl⟩⟩
    · rw [if_neg hlt, if_neg (show ¬ t.node.priority < s.gRunningPriority from hlt)]
      exact ⟨_, rfl, ⟨htasks, h.priority⟩, Or.inl ⟨rfl, rfl⟩⟩

/-- The end of a callback. -/
theorem Dispatches.taskDone (h : k.Dispatches s) {t : Task Callback} {prevPrio : ℤ}
    (hstack : s.stack = .callback t prevPrio :: rest) : ∃ s', s.step .callbackReturns = some s' ∧
      Dispatches { k with gRunningPriority := prevPrio } s' ∧ s'.stack = rest := by
  unfold Dispatcher.step
  rw [hstack]
  exact ⟨_, rfl, ⟨h.tasks, rfl⟩, rfl⟩

end Kernel
end Sched
end OscKernel
