import OscKernel.Sched.Stacked

/-!
# The running priority (`task.c`)

`task_run_pending` remembers `g_running_priority` in its frame while it runs a callback, and brings
it back afterwards.  The frames of different threads need not end in the order in which they began,
since a callback may call `schedule`.

* `Kernel.OutermostLast`: the callback that was called at `TASK_PRIO_IDLE` ends last.
* `Kernel.idle_of_reachable`: in runs of such steps, `g_running_priority` is `TASK_PRIO_IDLE`
  whenever no callback is in progress, and every task on the queue can be started.

## One variable for all threads

On one stack the callbacks end in the reverse order, and each brings back what the one below it had.
With several stacks there are several chains of remembered priorities and one variable.  A callback
that ends brings back what was running when it was called, even if that callback is over by now; the
variable then has the priority of nobody, and tasks that are not more urgent stay on the queue.

The invariant is small: either no callback is in progress and the variable is `TASK_PRIO_IDLE`, or
some callback in progress remembers it.  What lies between does not matter, and so the condition
does not ask for any order but this: while other callbacks are in progress, the one that remembers
`TASK_PRIO_IDLE` does not end, and its thread is not freed.

That callbacks end in the reverse order of their calls is enough for this, but it is not needed.
-/

namespace OscKernel
namespace Sched

open Transition

/-- The priority that a call of `task_run_pending` brings back when its callback is over. -/
def Frame.saved : Frame → Option ℤ
  | .taskDone prevPrio => some prevPrio
  | _ => none

namespace Kernel

variable (k : Kernel)

/-- The priorities that are remembered on the stack of `t`, the innermost first. -/
def saved (t : Tid) : List ℤ := (k.stack t).filterMap Frame.saved

/-- A callback that `task_run_pending` has called is in progress on the stack of `t`. -/
def InProgress (t : Tid) : Prop := t ∉ k.freed ∧ k.saved t ≠ []

instance (t : Tid) : Decidable (k.InProgress t) := inferInstanceAs (Decidable (_ ∧ _))

/-- The callback that was called at `TASK_PRIO_IDLE` does not end, and its thread is not freed,
while another callback is in progress; `fs` is the stack of the current thread. -/
def EndsLast : List Frame → Prop
  | .taskDone prevPrio :: rest => prevPrio = taskPrioIdle →
      rest.filterMap Frame.saved = [] ∧ ∀ t < k.count, t ≠ k.current → ¬ k.InProgress t
  | .idleThreadBody :: _ => ∀ z ∈ k.gZombies.head?, z ≠ gBootstrap → taskPrioIdle ∉ k.saved z
  | _ => True

instance : ∀ fs, Decidable (k.EndsLast fs)
  | .taskDone _ :: _ => inferInstanceAs (Decidable (_ → _))
  | .idleThreadBody :: _ => inferInstanceAs (Decidable (∀ _ ∈ _, _))
  | [] | .user :: _ | .shell :: _ | .kernelThread :: _ | .irq .. :: _ | .ecall .. :: _
  | .callback _ :: _ | .taskRunPending :: _ | .sysUsleep .. :: _ | .sysWaitpid _ :: _
  | .runUserProgram _ :: _ | .threadWakeup _ :: _ | .schedule :: _ | .switchTo .. :: _
  | .scheduleReturn _ :: _ | .dead :: _ => isTrue trivial

/-- The guard of the runs in which the running priority is brought back. -/
def OutermostLast : Label → Prop
  | .run _ => k.EndsLast (k.stack k.current)
  | _ => True

instance : ∀ a, Decidable (k.OutermostLast a)
  | .run _ => inferInstanceAs (Decidable (k.EndsLast _))
  | .tick _ | .interrupt _ => isTrue trivial

variable {k} {k' k'' : Kernel} {c : Choice} {f g : Frame} {fs rest : List Frame} {t : Tid}

/-! ## Calls that do not touch the running priority -/

/-- The running priority stays, and the tasks that are added have a priority. -/
structure Steady (k k' : Kernel) : Prop where
  priority : k'.gRunningPriority = k.gRunningPriority
  tasks : ∀ n ∈ k'.gTaskQueue, n ∈ k.gTaskQueue ∨ n.priority < taskPrioIdle

theorem steady_of_eq (hp : k'.gRunningPriority = k.gRunningPriority)
    (hq : k'.gTaskQueue = k.gTaskQueue) : Steady k k' :=
  ⟨hp, fun _ hn => Or.inl (hq ▸ hn)⟩

theorem Steady.refl (k : Kernel) : Steady k k := steady_of_eq rfl rfl

theorem Steady.trans (h : Steady k k') (h' : Steady k' k'') : Steady k k'' where
  priority := h'.priority.trans h.priority
  tasks n hn := (h'.tasks n hn).elim (h.tasks n) Or.inr

theorem steady_addTask {cb : Callback} {p : ℤ} (hp : p < taskPrioIdle) :
    Steady k (k.addTask cb p) where
  priority := rfl
  tasks n hn := by
    rcases List.mem_cons.mp ((List.perm_orderedInsert ..).mem_iff.mp hn) with rfl | hn
    · exact Or.inr hp
    · exact Or.inl hn

theorem steady_addTaskIf (ok : Bool) {cb : Callback} {p : ℤ} (hp : p < taskPrioIdle) :
    Steady k (k.addTaskIf ok cb p) := by
  cases ok with
  | false => exact .refl k
  | true => exact steady_addTask hp

theorem steady_addTimerTicks (cb : Callback) (ticks : BitVec 64) (ok : Bool) :
    Steady k (k.addTimerTicks cb ticks ok) := by
  unfold addTimerTicks
  split_ifs <;> exact steady_of_eq rfl rfl

theorem Beside.steady (h : Beside k k') : Steady k k' :=
  steady_of_eq h.gRunningPriority h.gTaskQueue

/-- The call leaves the running priority alone and calls no callback as a task. -/
def Unsaved (k : Kernel) (r : Kernel × List Frame) : Prop :=
  Steady k r.1 ∧ r.2.filterMap Frame.saved = []

theorem saved_wakeParent (t : Tid) :
    (k.wakeParent t fs).filterMap Frame.saved = fs.filterMap Frame.saved := by
  unfold wakeParent
  cases k.parent t <;> rfl

theorem filterMap_saved_dead (hf : f.saved = none) :
    [Frame.schedule, .dead, f].filterMap Frame.saved = [] := by
  show [f].filterMap Frame.saved = []
  rw [List.filterMap_cons_none hf]
  rfl

theorem unsaved_exitWith (status : BitVec 64) (hf : f.saved = none) :
    Unsaved k (k.exitWith status f) :=
  ⟨(beside_sysExit status).steady, (saved_wakeParent _).trans (filterMap_saved_dead hf)⟩

theorem unsaved_doSyscall (s : Bool) (call : Syscall) : Unsaved k (k.doSyscall c s call) := by
  unfold doSyscall
  cases call with
  | fork =>
    dsimp only
    split_ifs
    · have hnew := (beside_newUserThread (k := k) c.kmalloc c.image).steady
      generalize k.newUserThread c.kmalloc c.image = r at hnew
      obtain ⟨k₁, _ | ch⟩ := r
      · exact ⟨hnew.trans (steady_of_eq rfl rfl), rfl⟩
      · exact ⟨hnew.trans (steady_of_eq rfl rfl), rfl⟩
    · exact ⟨steady_of_eq rfl rfl, rfl⟩
  | exit status => exact unsaved_exitWith status rfl
  | stop pid =>
    dsimp only
    split_ifs
    · exact unsaved_exitWith _ rfl
    · cases k.stopTarget (pid.setWidth 32) with
      | none => exact ⟨steady_of_eq rfl rfl, rfl⟩
      | some t =>
        exact ⟨(beside_terminate t).steady.trans (steady_of_eq rfl rfl), saved_wakeParent t⟩
  | waitpid pid =>
    dsimp only
    cases k.waitTarget pid with
    | none => exact ⟨steady_of_eq rfl rfl, rfl⟩
    | some child => exact ⟨.refl k, rfl⟩
  | usleep usec =>
    dsimp only
    split_ifs
    · exact ⟨steady_of_eq rfl rfl, rfl⟩
    · exact ⟨(steady_addTimerTicks ..).trans (steady_of_eq rfl rfl), rfl⟩
  | console =>
    dsimp only
    split_ifs
    · exact ⟨.refl k, rfl⟩
    · exact ⟨steady_of_eq rfl rfl, rfl⟩
  | other => exact ⟨steady_of_eq rfl rfl, rfl⟩

theorem unsaved_deliver (user s : Bool) (hf : f.saved = none) :
    Unsaved k (k.deliver c user s f) := by
  unfold deliver
  split_ifs
  · exact ⟨(beside_terminate _).steady, (saved_wakeParent _).trans (filterMap_saved_dead hf)⟩
  · exact ⟨steady_of_eq rfl rfl, rfl⟩

theorem unsaved_irqHandler (user s : Bool) (pc : IrqPc) :
    Unsaved k (k.irqHandler c user s pc) := by
  unfold irqHandler
  cases pc with
  | timerTopHalf now =>
    cases k.gTimerQueue with
    | nil => exact ⟨steady_of_eq rfl rfl, rfl⟩
    | cons t rest =>
      dsimp only
      split_ifs
      · exact ⟨steady_of_eq rfl rfl, rfl⟩
      · have hpop : Steady k { k with gTimerQueue := rest } := steady_of_eq rfl rfl
        have htask : timerTaskPrio < taskPrioIdle := by decide
        exact ⟨hpop.trans (steady_addTask htask), rfl⟩
      · exact ⟨steady_of_eq rfl rfl, rfl⟩
  | uartTopHalf => exact ⟨steady_addTaskIf _ (by decide), rfl⟩
  | preempt =>
    dsimp only
    split_ifs <;> exact ⟨steady_of_eq rfl rfl, rfl⟩
  | deliver => exact unsaved_deliver user s rfl

theorem unsaved_ecallHandler (s : Bool) (pc : EcallPc) : Unsaved k (k.ecallHandler c s pc) := by
  unfold ecallHandler
  cases pc with
  | doSyscall call => exact unsaved_doSyscall s call
  | resched =>
    dsimp only
    split_ifs <;> exact ⟨steady_of_eq rfl rfl, rfl⟩
  | deliver => exact unsaved_deliver true s rfl

theorem unsaved_shellCommand (h : k.shellCommand c = some (k', fs)) : Unsaved k (k', fs) := by
  unfold shellCommand at h
  cases hc : c.command with
  | runUserProgram =>
    rw [hc] at h
    dsimp only at h
    have hnew := (beside_newUserThread (k := k) c.kmalloc c.image).steady
    rcases hn : k.threadSpawnUser c.kmalloc c.image with ⟨k₁, _ | t⟩ <;> rw [hn] at h <;>
      obtain ⟨rfl, rfl⟩ := Prod.mk.inj (Option.some.inj h) <;>
      exact ⟨congrArg Prod.fst hn ▸ hnew, rfl⟩
  | threadCreate =>
    rw [hc] at h
    obtain ⟨rfl, rfl⟩ := Prod.mk.inj (Option.some.inj h)
    exact ⟨(beside_threadCreate _).steady, rfl⟩
  | stop pid =>
    rw [hc] at h
    dsimp only at h
    cases ht : k.stopTarget pid with
    | none =>
      rw [ht] at h
      obtain ⟨rfl, rfl⟩ := Prod.mk.inj (Option.some.inj h)
      exact ⟨.refl k, rfl⟩
    | some t =>
      rw [ht] at h
      obtain ⟨rfl, rfl⟩ := Prod.mk.inj (Option.some.inj h)
      exact ⟨(beside_terminate t).steady, saved_wakeParent t⟩
  | setTimeout ticks =>
    rw [hc] at h
    obtain ⟨rfl, rfl⟩ := Prod.mk.inj (Option.some.inj h)
    exact ⟨steady_addTimerTicks .., rfl⟩
  | taskDemo ok₃ ok₁ ok₅ =>
    rw [hc] at h
    obtain ⟨rfl, rfl⟩ := Prod.mk.inj (Option.some.inj h)
    exact ⟨((steady_addTaskIf ok₃ (by decide)).trans (steady_addTaskIf ok₁ (by decide))).trans
      (steady_addTaskIf ok₅ (by decide)), rfl⟩
  | taskNest =>
    rw [hc] at h
    obtain ⟨rfl, rfl⟩ := Prod.mk.inj (Option.some.inj h)
    exact ⟨steady_addTaskIf _ (by decide), rfl⟩
  | yield =>
    rw [hc] at h
    obtain ⟨rfl, rfl⟩ := Prod.mk.inj (Option.some.inj h)
    exact ⟨.refl k, rfl⟩
  | exit =>
    rw [hc] at h
    cases h

theorem unsaved_threadBody (h : k.threadBody c = some (k', fs)) : Unsaved k (k', fs) := by
  unfold threadBody at h
  cases hc : c.command with
  | threadCreate =>
    rw [hc] at h
    obtain ⟨rfl, rfl⟩ := Prod.mk.inj (Option.some.inj h)
    exact ⟨(beside_threadCreate _).steady, rfl⟩
  | yield =>
    rw [hc] at h
    obtain ⟨rfl, rfl⟩ := Prod.mk.inj (Option.some.inj h)
    exact ⟨.refl k, rfl⟩
  | exit =>
    rw [hc] at h
    dsimp only at h
    split_ifs at h
    obtain ⟨rfl, rfl⟩ := Prod.mk.inj (Option.some.inj h)
    exact ⟨steady_of_eq rfl rfl, rfl⟩
  | _ =>
    rw [hc] at h
    cases h

/-- Every other call than `task_run_pending` leaves the running priority alone. -/
theorem unsaved_run (h : k.run c f = some (k', fs)) (hpending : f ≠ .taskRunPending)
    (hdone : ∀ p, f ≠ .taskDone p) : Unsaved k (k', fs) := by
  cases f with
  | user | scheduleReturn =>
    obtain ⟨rfl, rfl⟩ := Prod.mk.inj (Option.some.inj h)
    exact ⟨steady_of_eq rfl rfl, rfl⟩
  | idleThreadBody =>
    rw [run] at h
    cases hz : k.killZombie with
    | some k₁ =>
      rw [hz] at h
      obtain ⟨rfl, rfl⟩ := Prod.mk.inj (Option.some.inj h)
      exact ⟨(beside_killZombie hz).steady, rfl⟩
    | none =>
      rw [hz] at h
      obtain ⟨rfl, rfl⟩ := Prod.mk.inj (Option.some.inj h)
      exact ⟨.refl k, rfl⟩
  | shell => exact unsaved_shellCommand h
  | kernelThread => exact unsaved_threadBody h
  | irq user s pc => exact Option.some.inj h ▸ unsaved_irqHandler user s pc
  | ecall s pc => exact Option.some.inj h ▸ unsaved_ecallHandler s pc
  | callback cb =>
    cases cb with
    | usleepCb tok =>
      rw [run] at h
      split_ifs at h
      obtain ⟨rfl, rfl⟩ := Prod.mk.inj (Option.some.inj h)
      exact ⟨(beside_threadWakeup tok.t).steady.trans (steady_of_eq rfl rfl), rfl⟩
    | other =>
      rw [run] at h
      split_ifs at h <;> obtain ⟨rfl, rfl⟩ := Prod.mk.inj (Option.some.inj h) <;>
        exact ⟨.refl k, rfl⟩
    | demoTaskSlow =>
      rw [run] at h
      split_ifs at h <;> obtain ⟨rfl, rfl⟩ := Prod.mk.inj (Option.some.inj h)
      · exact ⟨.refl k, rfl⟩
      · exact ⟨steady_addTaskIf _ (by decide), rfl⟩
  | taskRunPending => exact absurd rfl hpending
  | taskDone p => exact absurd rfl (hdone p)
  | sysUsleep tok pc =>
    cases pc <;> obtain ⟨rfl, rfl⟩ := Prod.mk.inj (Option.some.inj h) <;>
      exact ⟨steady_of_eq rfl rfl, rfl⟩
  | sysWaitpid child | runUserProgram child =>
    rw [run] at h
    split_ifs at h <;> obtain ⟨rfl, rfl⟩ := Prod.mk.inj (Option.some.inj h) <;>
      exact ⟨steady_of_eq rfl rfl, rfl⟩
  | threadWakeup par =>
    rw [run] at h
    split_ifs at h
    obtain ⟨rfl, rfl⟩ := Prod.mk.inj (Option.some.inj h)
    exact ⟨(beside_threadWakeup par).steady, rfl⟩
  | schedule =>
    have hsteady := (beside_schedule (k := k)).steady
    rw [run] at h
    rcases hs : k.schedule with ⟨k₁, _ | next⟩ <;> rw [hs] at h hsteady <;> dsimp only at h
    · obtain ⟨rfl, rfl⟩ := Prod.mk.inj (Option.some.inj h)
      exact ⟨hsteady, rfl⟩
    · split_ifs at h <;> obtain ⟨rfl, rfl⟩ := Prod.mk.inj (Option.some.inj h) <;>
        exact ⟨hsteady, rfl⟩
  | switchTo flags next =>
    rw [run] at h
    split_ifs at h
    obtain ⟨rfl, rfl⟩ := Prod.mk.inj (Option.some.inj h)
    exact ⟨steady_of_eq rfl rfl, rfl⟩
  | dead => cases h

/-! ## The invariant -/

/-- `TASK_PRIO_IDLE` is either the running priority, with no callback in progress, or remembered
by one of the callbacks in progress. -/
structure Prioritized (k : Kernel) : Prop where
  idle : (∀ t, t ∉ k.freed → k.saved t = []) ∧ k.gRunningPriority = taskPrioIdle ∨
    ∃ t, t ∉ k.freed ∧ taskPrioIdle ∈ k.saved t
  tasks : ∀ n ∈ k.gTaskQueue, n.priority < taskPrioIdle

theorem saved_setStack {u : Tid} : (k.setStack t fs).saved u =
    if u = t then fs.filterMap Frame.saved else k.saved u := by
  unfold saved
  rw [stack_setStack]
  split_ifs <;> rfl

/-- A step of the current thread changes no priority that another thread remembers. -/
theorem Effect.saved (h : Effect k c f k' fs) (hs : k.Stacked) (u : Tid) :
    k'.saved u = k.saved u := by
  unfold Kernel.saved
  rcases h.stack_other u with heq | ⟨rfl, -, g, hg, heq, -⟩
  · rw [heq]
  · rw [heq, (hs.unborn k.count (Nat.le_refl _)).1]
    rcases hg with rfl | rfl <;> rfl

/-- What is remembered on the stacks after a step of the current thread. -/
theorem Effect.saved_setStack (h : Effect k c f k' fs) (hs : k.Stacked) (u : Tid) :
    (k'.setStack k.current (fs ++ rest)).saved u = if u = k.current then
      fs.filterMap Frame.saved ++ rest.filterMap Frame.saved else k.saved u := by
  rw [Kernel.saved_setStack, List.filterMap_append, h.saved hs]

theorem saved_current (hstack : k.stack k.current = f :: rest) :
    k.saved k.current = [f].filterMap Frame.saved ++ rest.filterMap Frame.saved := by
  unfold saved
  rw [hstack, ← List.filterMap_append]
  rfl

/-- A call that ends or begins no callback as a task. -/
theorem Prioritized.keep (h : k.Prioritized) (hs : k.Stacked) (hlast : k.EndsLast (f :: rest))
    (hstack : k.stack k.current = f :: rest) (heffect : Effect k c f k' fs) (hsteady : Steady k k')
    (hsaved : fs.filterMap Frame.saved = [f].filterMap Frame.saved) :
    (k'.setStack k.current (fs ++ rest)).Prioritized := by
  have hsame : ∀ u, (k'.setStack k.current (fs ++ rest)).saved u = k.saved u := fun u => by
    rw [heffect.saved_setStack hs]
    split_ifs with hu
    · rw [hu, saved_current hstack, hsaved]
    · rfl
  constructor
  · rcases h.idle with ⟨hnone, hidle⟩ | ⟨t, hfreed, ht⟩
    · refine Or.inl ⟨fun u hu => ?_, hsteady.priority.trans hidle⟩
      rw [hsame]
      exact hnone u fun hf => hu (heffect.freed_mono hf)
    · refine Or.inr ⟨t, fun hf => ?_, hsame t ▸ ht⟩
      rcases heffect.freed hf with hf | rfl | ⟨rfl, hboot, zs, hz⟩
      · exact hfreed hf
      · unfold Kernel.saved at ht
        rw [(hs.unborn k.count (Nat.le_refl _)).1] at ht
        cases ht
      · exact hlast t (hz ▸ rfl) hboot ht
  · exact fun n hn => (hsteady.tasks n hn).elim (h.tasks n) id

/-- A callback begins: the priority that was running is remembered. -/
theorem Prioritized.start (h : k.Prioritized) (hs : k.Stacked)
    (hstack : k.stack k.current = .taskRunPending :: rest) {t : TaskNode} {q : List TaskNode}
    (hq : k.gTaskQueue = t :: q) :
    (Kernel.setStack { k with gTaskQueue := q, gRunningPriority := t.priority, sie := true }
      k.current ([.callback t.cb, .taskDone k.gRunningPriority] ++ rest)).Prioritized := by
  have hself : (Kernel.setStack { k with
      gTaskQueue := q, gRunningPriority := t.priority, sie := true } k.current
        ([.callback t.cb, .taskDone k.gRunningPriority] ++ rest)).saved k.current =
      k.gRunningPriority :: k.saved k.current := by
    rw [saved_setStack, if_pos rfl, saved_current hstack]
    rfl
  refine ⟨Or.inr ?_, fun n hn => h.tasks n (hq ▸ List.mem_cons_of_mem _ hn)⟩
  rcases h.idle with ⟨-, hidle⟩ | ⟨u, hfreed, hu⟩
  · exact ⟨k.current, hs.current_not_freed, hself ▸ hidle ▸ List.mem_cons_self⟩
  · refine ⟨u, hfreed, ?_⟩
    by_cases hne : u = k.current
    · subst hne
      rw [hself]
      exact List.mem_cons_of_mem _ hu
    · rw [saved_setStack, if_neg hne]
      exact hu

/-- A callback ends: its priority is brought back. -/
theorem Prioritized.done (h : k.Prioritized) (hs : k.Stacked) {p : ℤ}
    (hlast : k.EndsLast (.taskDone p :: rest)) (hstack : k.stack k.current = .taskDone p :: rest) :
    (Kernel.setStack { k with gRunningPriority := p } k.current
      ([.taskRunPending] ++ rest)).Prioritized := by
  have hsaved : ∀ u, (Kernel.setStack { k with gRunningPriority := p } k.current
      ([.taskRunPending] ++ rest)).saved u =
      if u = k.current then rest.filterMap Frame.saved else k.saved u := fun u => by
    rw [saved_setStack]
    rfl
  have hcurrent : k.saved k.current = p :: rest.filterMap Frame.saved := saved_current hstack
  refine ⟨?_, h.tasks⟩
  by_cases hp : p = taskPrioIdle
  · -- the last callback in progress
    obtain ⟨hnil, hnone⟩ := hlast hp
    refine Or.inl ⟨fun u hu => ?_, hp⟩
    rw [hsaved]
    split_ifs with hne
    · exact hnil
    · by_cases hlt : u < k.count
      · by_contra hprogress
        exact hnone u hlt hne ⟨hu, hprogress⟩
      · unfold Kernel.saved
        rw [(hs.unborn u (Nat.not_lt.mp hlt)).1]
        rfl
  · refine Or.inr ?_
    rcases h.idle with ⟨hnone, -⟩ | ⟨t, hfreed, ht⟩
    · rw [hnone _ hs.current_not_freed] at hcurrent
      cases hcurrent
    · refine ⟨t, hfreed, ?_⟩
      rw [hsaved]
      split_ifs with hne
      · rw [hne, hcurrent] at ht
        exact (List.mem_cons.mp ht).resolve_left (Ne.symm hp)
      · exact ht

/-- **A step of the current thread** that ends the outermost callback last. -/
theorem Prioritized.run (h : k.Prioritized) (hs : k.Stacked) (hlast : k.EndsLast (f :: rest))
    (hstack : k.stack k.current = f :: rest) (hrun : k.run c f = some (k', fs)) :
    (k'.setStack k.current (fs ++ rest)).Prioritized := by
  have heffect := run_effect hrun
  by_cases hpending : f = .taskRunPending
  · subst hpending
    obtain ⟨h₁, h₂⟩ := Prod.mk.inj (Option.some.inj hrun)
    have hgo : k = k' → [] = fs → (k'.setStack k.current (fs ++ rest)).Prioritized := by
      rintro rfl rfl
      exact h.keep hs hlast hstack heffect (.refl k) rfl
    cases hq : k.gTaskQueue with
    | nil =>
      rw [hq] at h₁ h₂
      exact hgo h₁ h₂
    | cons t q =>
      rw [hq] at h₁ h₂
      dsimp only at h₁ h₂
      split_ifs at h₁ h₂
      · subst h₁ h₂
        exact h.start hs hstack hq
      · exact hgo h₁ h₂
  · by_cases hdone : ∃ p, f = .taskDone p
    · obtain ⟨p, rfl⟩ := hdone
      obtain ⟨rfl, rfl⟩ := Prod.mk.inj (Option.some.inj hrun)
      exact h.done hs hlast hstack
    · rw [not_exists] at hdone
      obtain ⟨hsteady, hsaved⟩ := unsaved_run hrun hpending hdone
      refine h.keep hs hlast hstack heffect hsteady (hsaved.trans ?_)
      cases f with
      | taskDone p => exact absurd rfl (hdone p)
      | _ => rfl

theorem Prioritized.congr (h : k.Prioritized) (hsaved : ∀ t, k'.saved t = k.saved t)
    (hfreed : k'.freed = k.freed) (hsteady : Steady k k') : k'.Prioritized := by
  refine ⟨?_, fun n hn => (hsteady.tasks n hn).elim (h.tasks n) id⟩
  rw [hsteady.priority, hfreed]
  simp only [hsaved]
  exact h.idle

/-- **Every step** that ends the outermost callback last. -/
theorem prioritized_step {a : Label} (h : k.Prioritized) (hs : k.Stacked) (hG : k.OutermostLast a)
    (hstep : step k a = some k') : k'.Prioritized := by
  cases a with
  | tick d =>
    obtain rfl := Option.some.inj hstep
    exact h.congr (fun _ => rfl) rfl (steady_of_eq rfl rfl)
  | interrupt timer =>
    obtain ⟨-, pc, rfl⟩ := step_interrupt hstep
    refine h.congr (fun u => ?_) rfl (steady_of_eq rfl rfl)
    rw [saved_setStack]
    split_ifs with hu
    · rw [hu]
      rfl
    · rfl
  | run c =>
    obtain ⟨f, rest, k₁, fs, hstack, hrun, rfl⟩ := step_run hstep
    have hlast : k.EndsLast (k.stack k.current) := hG
    exact h.run hs (hstack ▸ hlast) hstack hrun

theorem prioritized_boot (freq : BitVec 64) : (boot freq).Prioritized where
  idle := by
    refine Or.inl ⟨fun t _ => ?_, rfl⟩
    rcases t with _ | _ | t <;> rfl
  tasks := nofun

/-- **The running priority is brought back.**  In a run in which the callback that was called at
`TASK_PRIO_IDLE` always ends last, `g_running_priority` is `TASK_PRIO_IDLE` whenever no callback is
in progress, so that every task on the queue can be started. -/
theorem idle_of_reachable {freq : BitVec 64} (h : Reachable step OutermostLast (boot freq) k)
    (hnone : ∀ t, ¬ k.InProgress t) :
    k.gRunningPriority = taskPrioIdle ∧ ∀ n ∈ k.gTaskQueue, n.priority < k.gRunningPriority := by
  have hinv : k.Stacked ∧ k.Prioritized :=
    h.invariant (P := fun k => k.Stacked ∧ k.Prioritized)
      ⟨stacked_boot freq, prioritized_boot freq⟩ fun _ _ _ hi hG hstep =>
        ⟨stacked_step hi.1 hstep, prioritized_step hi.2 hi.1 hG hstep⟩
  rcases hinv.2.idle with ⟨-, hidle⟩ | ⟨t, hfreed, ht⟩
  · exact ⟨hidle, hidle ▸ hinv.2.tasks⟩
  · exact absurd ⟨hfreed, List.ne_nil_of_mem ht⟩ (hnone t)

theorem Stacked.not_inProgress (hs : k.Stacked) (hnone : ∀ t < k.count, ¬ k.InProgress t) :
    ∀ t, ¬ k.InProgress t := by
  intro t ht
  by_cases hlt : t < k.count
  · exact hnone t hlt ht
  · refine ht.2 ?_
    unfold Kernel.saved
    rw [(hs.unborn t (Nat.not_lt.mp hlt)).1]
    rfl

/-- The callback of a task of the shell waits for the console, and the idle thread runs. -/
def yieldRun : List Label :=
  [.run { command := .taskDemo false false true }, .run {}, .run { again := true },
    .run {}, .run {}]

/-- A timer interrupt of the idle thread calls another callback, which waits for the console. -/
def nestedRun : List Label :=
  [.run { command := .setTimeout 10 }] ++ yieldRun ++ [.tick 20, .interrupt true] ++
    List.replicate 3 (.run {}) ++ [.run { again := true }, .run {}, .run {}]

/-- The callback of the shell goes on when the idle thread has called `schedule`. -/
theorem idle_of_yieldRun : ∃ k, Reachable step OutermostLast (boot 320) k ∧
    (∀ t, ¬ k.InProgress t) ∧ k.gRunningPriority = taskPrioIdle ∧
      ∀ n ∈ k.gTaskQueue, n.priority < k.gRunningPriority := by
  have hrun : (runList step (boot 320) (yieldRun ++ List.replicate 7 (.run {}))).map
      (fun k => decide (∀ t < k.count, ¬ k.InProgress t)) = some true := by decide +kernel
  obtain ⟨k, hs, hv⟩ := Option.map_eq_some_iff.mp hrun
  have hreach : Reachable step OutermostLast (boot 320) k :=
    Reachable.of_runList hs (by decide +kernel)
  have hnone := (stacked_of_reachable hreach).not_inProgress (of_decide_eq_true hv)
  exact ⟨k, hreach, hnone, idle_of_reachable hreach hnone⟩

/-- **Two callbacks that end in the order in which they began.**  The callback of the idle thread
ends after that of the shell, and brings back the priority of a task that is over. -/
theorem priority_of_nestedRun : ∃ k, Reachable step anyStep (boot 320) k ∧
    (∀ t, ¬ k.InProgress t) ∧ k.gRunningPriority = 5 := by
  have hrun : (runList step (boot 320) (nestedRun ++ List.replicate 12 (.run {}))).map
      (fun k => (decide (∀ t < k.count, ¬ k.InProgress t), k.gRunningPriority)) =
      some (true, 5) := by decide +kernel
  obtain ⟨k, hs, hv⟩ := Option.map_eq_some_iff.mp hrun
  simp only [Prod.mk.injEq, decide_eq_true_eq] at hv
  have hreach : Reachable step anyStep (boot 320) k := reachable_of_runList hs
  exact ⟨k, hreach, (stacked_of_reachable hreach).not_inProgress hv.1, hv.2⟩

end Kernel
end Sched
end OscKernel
