import OscKernel.Sched.Stack

/-!
# What a step can do

`Effect` lists what the innermost call of the current thread can do to the kernel, with everything
that the processes, the run queue and the sleeping threads depend on.  Registers, the console,
priorities and the clock are left out: `Same` says that nothing else changed.

* `run_effect`: there is nothing else that it can do.

A call can be at many places, and each of them has its own code.  The invariants of the later
modules are about few of the fields, and would all need the same case distinction.  It is made once,
here: an `Effect` names what happens to the queues, the threads and the stacks, in terms of the
functions of `OscKernel.Sched.Thread`, and is as precise as the most precise of the later invariants
needs it to be.
-/

namespace OscKernel
namespace Sched

namespace Kernel

/-- The two states have the same threads, queues, timers and tasks. -/
structure Same (k k' : Kernel) : Prop where
  thread : k'.thread = k.thread
  stack : k'.stack = k.stack
  count : k'.count = k.count
  freed : k'.freed = k.freed
  gNextTid : k'.gNextTid = k.gNextTid
  gRunq : k'.gRunq = k.gRunq
  gZombies : k'.gZombies = k.gZombies
  current : k'.current = k.current
  gTimerQueue : k'.gTimerQueue = k.gTimerQueue
  gTaskQueue : k'.gTaskQueue = k.gTaskQueue
  calls : k'.calls = k.calls
  ran : k'.ran = k.ran

theorem Same.refl (k : Kernel) : Same k k :=
  ⟨rfl, rfl, rfl, rfl, rfl, rfl, rfl, rfl, rfl, rfl, rfl, rfl⟩

theorem Same.trans {k k' k'' : Kernel} (h : Same k k') (h' : Same k' k'') : Same k k'' :=
  ⟨h'.thread.trans h.thread, h'.stack.trans h.stack, h'.count.trans h.count,
    h'.freed.trans h.freed, h'.gNextTid.trans h.gNextTid, h'.gRunq.trans h.gRunq,
    h'.gZombies.trans h.gZombies, h'.current.trans h.current,
    h'.gTimerQueue.trans h.gTimerQueue, h'.gTaskQueue.trans h.gTaskQueue,
    h'.calls.trans h.calls, h'.ran.trans h.ran⟩

theorem same_setA0 (k : Kernel) (t : Tid) (v : BitVec 64) : Same k (k.setA0 t v) :=
  ⟨rfl, rfl, rfl, rfl, rfl, rfl, rfl, rfl, rfl, rfl, rfl, rfl⟩

theorem same_sie (k : Kernel) (b : Bool) : Same k { k with sie := b } :=
  ⟨rfl, rfl, rfl, rfl, rfl, rfl, rfl, rfl, rfl, rfl, rfl, rfl⟩

theorem same_gNeedResched (k : Kernel) (b : Bool) : Same k { k with gNeedResched := b } :=
  ⟨rfl, rfl, rfl, rfl, rfl, rfl, rfl, rfl, rfl, rfl, rfl, rfl⟩

theorem same_timerRearm (k : Kernel) (now : BitVec 64) : Same k (k.timerRearm now) :=
  ⟨rfl, rfl, rfl, rfl, rfl, rfl, rfl, rfl, rfl, rfl, rfl, rfl⟩

/-- `k` with a thread that `thread_alloc_bare` has made, linked and put on the run queue. -/
def created (k : Kernel) (image : Bool) (f : Frame) : Kernel :=
  (k.threadAllocBare.modify k.count fun x => { x with image := image }).linkThread k.count
    k.current f

/-- The two states have the same stacks, timers and tasks, and the same threads exist. -/
structure Quiet (k k' : Kernel) : Prop where
  stack : k'.stack = k.stack
  count : k'.count = k.count
  freed : k'.freed = k.freed
  gNextTid : k'.gNextTid = k.gNextTid
  current : k'.current = k.current
  gTimerQueue : k'.gTimerQueue = k.gTimerQueue
  gTaskQueue : k'.gTaskQueue = k.gTaskQueue
  calls : k'.calls = k.calls
  ran : k'.ran = k.ran

theorem Quiet.refl (k : Kernel) : Quiet k k := ⟨rfl, rfl, rfl, rfl, rfl, rfl, rfl, rfl, rfl⟩

theorem Quiet.trans {k k' k'' : Kernel} (h : Quiet k k') (h' : Quiet k' k'') : Quiet k k'' :=
  ⟨h'.stack.trans h.stack, h'.count.trans h.count, h'.freed.trans h.freed,
    h'.gNextTid.trans h.gNextTid, h'.current.trans h.current,
    h'.gTimerQueue.trans h.gTimerQueue, h'.gTaskQueue.trans h.gTaskQueue,
    h'.calls.trans h.calls, h'.ran.trans h.ran⟩

theorem Same.quiet {k k' : Kernel} (h : Same k k') : Quiet k k' :=
  ⟨h.stack, h.count, h.freed, h.gNextTid, h.current, h.gTimerQueue, h.gTaskQueue, h.calls, h.ran⟩

/-- The thread that the call `f` terminates, when it is `sys_stop` for another thread or
`shell_stop_pid`. -/
def victim (k : Kernel) (c : Choice) : Frame → Option Tid
  | .ecall _ (.doSyscall (.stop pid)) =>
      if pid.setWidth 32 = (k.thread k.current).pid then none
      else k.stopTarget (pid.setWidth 32)
  | .shell =>
      match c.command with
      | .stop pid => k.stopTarget pid
      | _ => none
  | _ => none

/-- What the call `f` does: the new state, and the calls that replace `f`. -/
inductive Effect (k : Kernel) (c : Choice) : Frame → Kernel → List Frame → Prop where
  /-- Nothing that matters here. -/
  | go {f k' fs} (hf : f.Plain) (hfs : ∀ g ∈ fs, g.Plain) (hgoes : f.Goes fs)
      (hirq : f.IsIrq → ∀ g ∈ fs, g.IsIrq) (h : Same k k') : Effect k c f k' fs
  /-- A call of `schedule`. -/
  | yield {f k' g} (hf : f.Plain) (hg : g.Plain) (hgoes : f.Goes [.schedule, g])
      (hirq : f.IsIrq → (∃ cb, f = .callback cb) ∧ c.again = true) (h : Same k k') :
      Effect k c f k' [.schedule, g]
  /-- A timer with another callback. -/
  | timer {k'} (n : TimerNode) (q : List TimerNode) (hn : n.cb = .other)
      (hq : q.Perm (n :: k.gTimerQueue)) (h : Same { k with gTimerQueue := q } k') :
      Effect k c .shell k' [.shell]
  /-- Tasks with other callbacks. -/
  | task {f g k'} (ns : List TaskNode) (q : List TaskNode)
      (hn : ∀ n ∈ ns, ∀ tok, n.cb ≠ .usleepCb tok) (hq : q.Perm (ns ++ k.gTaskQueue))
      (hf : f.Plain) (hg : g.Plain) (hgoes : f.Goes [.taskRunPending, g])
      (hirq : f.IsIrq → g.IsIrq) (h : Same { k with gTaskQueue := q } k') :
      Effect k c f k' [.taskRunPending, g]
  /-- A timer expires and becomes a task. -/
  | expire {u s pc pc' k'} (t : TimerNode) (rest : List TimerNode) (n : TaskNode)
      (q : List TaskNode) (ht : k.gTimerQueue = t :: rest) (hn : n.cb = t.cb)
      (hq : q.Perm (n :: k.gTaskQueue))
      (h : Same { k with gTimerQueue := rest, gTaskQueue := q } k') :
      Effect k c (.irq u s pc) k' [.irq u s pc']
  /-- A timer expires and its callback is called at once. -/
  | expireNow {u s pc pc' k'} (t : TimerNode) (rest : List TimerNode)
      (ht : k.gTimerQueue = t :: rest) (h : Same { k with gTimerQueue := rest } k') :
      Effect k c (.irq u s pc) k' [.callback t.cb, .irq u s pc']
  /-- A task is started. -/
  | start {k'} (t : TaskNode) (rest : List TaskNode)
      (ht : k.gTaskQueue = t :: rest) (h : Same { k with gTaskQueue := rest } k') :
      Effect k c .taskRunPending k' [.callback t.cb, .taskDone k.gRunningPriority]
  /-- `sys_usleep` up to the return of `add_timer_us`. -/
  | register {s usec k'} (q : List TimerNode)
      (hq : c.kmalloc = false ∧ q = k.gTimerQueue ∨ ∃ n : TimerNode,
        n.cb = .usleepCb ⟨k.current, k.calls⟩ ∧ q.Perm (n :: k.gTimerQueue))
      (husec : usec ≠ 0)
      (h : Same { k with gTimerQueue := q, calls := k.calls + 1 } k') :
      Effect k c (.ecall s (.doSyscall (.usleep usec))) k'
        [.sysUsleep ⟨k.current, k.calls⟩ .registered, .ecall s .resched]
  /-- `usleep_cb`. -/
  | fired {tok} (hfreed : tok.t ∉ k.freed) (htok : k.InUsleep tok) :
      Effect k c (.callback (.usleepCb tok))
        { k.threadWakeup tok.t with ran := tok.call :: k.ran } []
  /-- `sys_usleep` blocks. -/
  | blockUsleep {tok} : Effect k c (.sysUsleep tok .registered) k.threadBlock
      [.schedule, .sysUsleep tok .blocked]
  /-- `sys_waitpid` and `run_user_program` block. -/
  | blockWait {child f} (hf : f = .sysWaitpid child ∨ f = .runUserProgram child) :
      Effect k c f k.threadBlock [.schedule, f]
  /-- `sys_usleep` returns. -/
  | woken {tok k'} (h : Same k k') : Effect k c (.sysUsleep tok .blocked) k' []
  /-- `thread_wakeup(par)`. -/
  | wakeup {par} (hfreed : par ∉ k.freed) :
      Effect k c (.threadWakeup par) (k.threadWakeup par) []
  /-- `schedule` goes on with its caller. -/
  | stay {k' next} (h : k.schedule = (k', next)) (hnext : ∀ n ∈ next, n = k.current) :
      Effect k c .schedule k' [.scheduleReturn k.sie]
  /-- `schedule` has chosen another thread. -/
  | choose {k' next} (h : k.schedule = (k', some next)) (hnext : next ≠ k.current) :
      Effect k c .schedule k' [.switchTo k.sie next]
  /-- `switch_to`. -/
  | switch {flags next} (hfreed : next ∉ k.freed) :
      Effect k c (.switchTo flags next) { k with current := next } [.scheduleReturn flags]
  /-- A new thread. -/
  | create {f g k' image fs} (hf : f.Plain ∧ ¬ f.IsIrq)
      (hg : g = if image then Frame.user else .kernelThread)
      (hfs : ∀ g ∈ fs, g.Plain) (hgoes : f.Goes fs) (h : Same (k.created image g) k') :
      Effect k c f k' fs
  /-- There was no memory for the image of a new thread. -/
  | createFailed {f k' fs} (hf : f.Plain ∧ ¬ f.IsIrq) (hfs : ∀ g ∈ fs, g.Plain)
      (hgoes : f.Goes fs) (h : Same { k with
        count := k.count + 1, gNextTid := k.gNextTid + 1, freed := k.count :: k.freed } k') :
      Effect k c f k' fs
  /-- `sys_exit`. -/
  | exit {s call} (status : BitVec 64) :
      Effect k c (.ecall s (.doSyscall call)) (k.sysExit status)
        ((k.sysExit status).wakeParent k.current
          [.schedule, .dead, .ecall s (.doSyscall call)])
  /-- A signal terminates the current thread. -/
  | kill {f} (hf : (∃ s pc, f = .irq true s pc) ∨ ∃ s pc, f = .ecall s pc)
      (himage : (k.thread k.current).image = true) :
      Effect k c f (k.terminate k.current) (k.wakeParent k.current [.schedule, .dead, f])
  /-- `sys_stop` and `shell_stop_pid` terminate another thread. -/
  | stop {f k' g} (pid : BitVec 32) (t : Tid) (hf : f.Plain ∧ ¬ f.IsIrq)
      (hpid : f = .shell ∨ pid ≠ (k.thread k.current).pid) (ht : k.stopTarget pid = some t)
      (hg : g.Plain ∧ g ≠ .user ∧ g.flags = none) (hgoes : f.Goes [g])
      (h : Same (k.terminate t) k') (hvictim : k.victim c f = some t) :
      Effect k c f k' (k.wakeParent t [g])
  /-- `thread_exit`. -/
  | threadExit (hpar : ∀ par ∈ k.parent k.current, par ∉ k.freed) :
      Effect k c .kernelThread k.threadExit [.schedule, .dead, .kernelThread]
  /-- `sys_waitpid` and `run_user_program` collect a child. -/
  | collect {child f k'} (hf : f = .sysWaitpid child ∨ f = .runUserProgram child)
      (hfreed : child ∉ k.freed) (hz : k.state child = .zombie)
      (h : Same (k.collect child) k') : Effect k c f k' []
  /-- `kill_zombies` frees a thread. -/
  | reap {k'} (h : k.killZombie = some k') : Effect k c .idleThreadBody k' [.idleThreadBody]

variable {k k' : Kernel} {c : Choice} {f : Frame} {fs : List Frame}

/-! ## The functions of the machine -/

theorem effect_exit {s : Bool} {call : Syscall} (status : BitVec 64) :
    Effect k c (.ecall s (.doSyscall call)) (k.exitWith status (.ecall s (.doSyscall call))).1
      (k.exitWith status (.ecall s (.doSyscall call))).2 := .exit status

/-- The result of `newUserThread`. -/
theorem newUserThread_cases (k : Kernel) (ok okImage : Bool) :
    k.newUserThread ok okImage = (k.created true .user, some k.count) ∨
      k.newUserThread ok okImage = ({ k with
        count := k.count + 1, gNextTid := k.gNextTid + 1, freed := k.count :: k.freed }, none) ∨
      k.newUserThread ok okImage = (k, none) := by
  unfold newUserThread
  cases ok
  · exact Or.inr (Or.inr rfl)
  · cases okImage
    · exact Or.inr (Or.inl rfl)
    · exact Or.inl rfl

theorem effect_doSyscall (s : Bool) (call : Syscall) :
    Effect k c (.ecall s (.doSyscall call)) (k.doSyscall c s call).1
      (k.doSyscall c s call).2 := by
  have hdone : ∀ g ∈ [Frame.ecall s .resched], g.Plain := by simp [Frame.Plain]
  have hgoes : (Frame.ecall s (.doSyscall call)).Goes [.ecall s .resched] :=
    Frame.goes_singleton fun _ _ => id
  have hgo : ∀ {k'}, Same k k' →
      Effect k c (.ecall s (.doSyscall call)) k' [.ecall s .resched] := fun h =>
    .go trivial hdone hgoes (fun h => h.elim) h
  unfold doSyscall
  cases call with
  | fork =>
    dsimp only
    split_ifs
    · rcases newUserThread_cases k c.kmalloc c.image with h | h | h <;> rw [h]
      · exact .create ⟨trivial, id⟩ rfl hdone hgoes ((same_setA0 ..).trans (same_setA0 ..))
      · exact .createFailed ⟨trivial, id⟩ hdone hgoes (same_setA0 ..)
      · exact hgo (same_setA0 ..)
    · exact hgo (same_setA0 ..)
  | exit status => exact effect_exit status
  | stop pid =>
    dsimp only
    split_ifs with hpid
    · exact effect_exit (-1)
    · cases ht : k.stopTarget (pid.setWidth 32) with
      | none => exact hgo (same_setA0 ..)
      | some t =>
        exact .stop _ t ⟨trivial, id⟩ (Or.inr hpid) ht (by simp [Frame.Plain, Frame.flags]) hgoes
          (same_setA0 ..) ((if_neg hpid).trans ht)
  | waitpid pid =>
    dsimp only
    cases k.waitTarget pid with
    | none => exact hgo (same_setA0 ..)
    | some child =>
      exact .go trivial (by simp [Frame.Plain]) (hgoes.cons fun _ => ⟨s, _, rfl⟩) (fun h => h.elim)
        (Same.refl k)
  | usleep usec =>
    dsimp only
    split_ifs with husec
    · exact hgo (same_setA0 ..)
    · unfold addTimerUs addTimerTicks
      split_ifs with hok
      · exact .register _ (Or.inr ⟨_, rfl, List.perm_orderedInsert ..⟩) husec
          ⟨rfl, rfl, rfl, rfl, rfl, rfl, rfl, rfl, rfl, rfl, rfl, rfl⟩
      · exact .register _ (Or.inl ⟨Bool.eq_false_iff.mpr hok, rfl⟩) husec
          ⟨rfl, rfl, rfl, rfl, rfl, rfl, rfl, rfl, rfl, rfl, rfl, rfl⟩
  | console =>
    dsimp only
    split_ifs
    · exact .yield trivial trivial (Frame.goes_yield (fun _ _ => id) nofun rfl) (fun h => h.elim)
        (Same.refl k)
    · exact hgo (same_setA0 ..)
  | other => exact hgo (same_setA0 ..)

theorem effect_deliver {user s : Bool} (hf : f.Plain)
    (huser : user = true → (∃ s pc, f = .irq true s pc) ∨ ∃ s pc, f = .ecall s pc) :
    Effect k c f (k.deliver c user s f).1 (k.deliver c user s f).2 := by
  unfold deliver
  split_ifs with h
  · simp only [Bool.and_eq_true] at h
    exact .kill (huser h.1.1) h.1.2
  · exact .go hf (by simp) Frame.goes_nil (by simp) (same_sie ..)

/-- `add_task` with another callback. -/
theorem addTaskIf_perm (ok : Bool) {cb : Callback} (hcb : ∀ tok, cb ≠ .usleepCb tok) (p : ℤ) :
    ∃ ns : List TaskNode, (∀ n ∈ ns, ∀ tok, n.cb ≠ .usleepCb tok) ∧
      ∃ q : List TaskNode, q.Perm (ns ++ k.gTaskQueue) ∧
        k.addTaskIf ok cb p = { k with gTaskQueue := q } := by
  cases ok with
  | false => exact ⟨[], nofun, _, List.Perm.refl _, rfl⟩
  | true =>
    refine ⟨[⟨cb, p⟩], fun n hn => ?_, _, List.perm_orderedInsert .., rfl⟩
    rw [List.mem_singleton.mp hn]
    exact hcb

theorem effect_taskRunPending : Effect k c .taskRunPending k.taskRunPending.1
    k.taskRunPending.2 := by
  unfold taskRunPending
  have hgo : Effect k c .taskRunPending k [] :=
    .go trivial (by simp) Frame.goes_nil (by simp) (Same.refl k)
  cases ht : k.gTaskQueue with
  | nil => exact hgo
  | cons t rest =>
    dsimp only
    split_ifs
    · exact .start t rest ht ⟨rfl, rfl, rfl, rfl, rfl, rfl, rfl, rfl, rfl, rfl, rfl, rfl⟩
    · exact hgo

theorem effect_irqHandler (user s : Bool) (pc : IrqPc) :
    Effect k c (.irq user s pc) (k.irqHandler c user s pc).1 (k.irqHandler c user s pc).2 := by
  have hgo : ∀ {k' pc'}, Same k k' → Effect k c (.irq user s pc) k' [.irq user s pc'] := fun h =>
    .go trivial (by simp [Frame.Plain])
      (Frame.goes_singleton fun _ _ => by cases user <;> exact id)
      (by cases user <;> simp [Frame.IsIrq]) h
  have hrunPending : (Frame.irq user s pc).Goes [.taskRunPending, .irq user s .preempt] :=
    (Frame.goes_singleton fun _ _ => by cases user <;> exact id).cons fun _ => ⟨nofun, rfl⟩
  have hirq : (Frame.irq user s pc).IsIrq → (Frame.irq user s .preempt).IsIrq := by
    cases user <;> exact id
  have hrearm : ∀ {now}, Effect k c (.irq user s pc) (k.timerRearm now)
      [.taskRunPending, .irq user s .preempt] := fun {now} =>
    .go trivial (by simp [Frame.Plain]) hrunPending (by cases user <;> simp [Frame.IsIrq])
      (same_timerRearm ..)
  unfold irqHandler
  cases pc with
  | timerTopHalf now =>
    cases ht : k.gTimerQueue with
    | nil => exact hrearm
    | cons t rest =>
      dsimp only
      split_ifs
      · exact hrearm
      · exact .expire t rest _ _ ht rfl (List.perm_orderedInsert ..) (Same.refl _)
      · exact .expireNow t rest ht (Same.refl _)
  | uartTopHalf =>
    obtain ⟨ns, hns, q, hq, heq⟩ := @addTaskIf_perm k c.kmalloc
      .other nofun uartTaskPrio
    exact .task ns q hns hq trivial trivial hrunPending hirq (heq ▸ Same.refl _)
  | preempt =>
    dsimp only
    split_ifs with h
    · simp only [Bool.and_eq_true] at h
      rw [h.2]
      exact .yield trivial trivial (Frame.goes_yield (fun _ _ => id) nofun rfl) (fun h => h.elim)
        (same_gNeedResched ..)
    · exact hgo (same_gNeedResched ..)
  | deliver => exact effect_deliver trivial fun h => Or.inl ⟨s, _, by rw [h]⟩

theorem effect_ecallHandler (s : Bool) (pc : EcallPc) :
    Effect k c (.ecall s pc) (k.ecallHandler c s pc).1 (k.ecallHandler c s pc).2 := by
  unfold ecallHandler
  cases pc with
  | doSyscall call => exact effect_doSyscall s call
  | resched =>
    dsimp only
    split_ifs
    · exact .yield trivial trivial (Frame.goes_yield (fun _ _ => id) nofun rfl) (fun h => h.elim)
        (same_gNeedResched ..)
    · exact .go trivial (by simp [Frame.Plain]) (Frame.goes_singleton fun _ _ => id)
        (fun h => h.elim) (same_gNeedResched ..)
  | deliver => exact effect_deliver trivial fun _ => Or.inr ⟨s, _, rfl⟩

theorem effect_threadCreate (hf : f.Plain ∧ ¬ f.IsIrq) (ok : Bool) :
    Effect k c f (k.threadCreate ok) [f] := by
  have hfs : ∀ g ∈ [f], g.Plain := fun g hg => List.mem_singleton.mp hg ▸ hf.1
  have hgoes : f.Goes [f] := Frame.goes_singleton fun _ _ => id
  cases ok
  · exact .go hf.1 hfs hgoes (fun h => absurd h hf.2) (Same.refl k)
  · refine @Effect.create k c f _ _ false _ hf rfl hfs hgoes ?_
    have himage : (k.threadAllocBare.modify k.count fun x => { x with image := false }) =
        k.threadAllocBare := by
      unfold modify threadAllocBare
      simp
    unfold created
    rw [himage]
    exact Same.refl _

theorem effect_shellCommand (h : k.shellCommand c = some (k', fs)) :
    Effect k c .shell k' fs := by
  have hshell : ∀ g ∈ [Frame.shell], g.Plain := by simp [Frame.Plain]
  have hgoes : Frame.shell.Goes [.shell] := Frame.goes_singleton fun _ _ => id
  have hrunPending : Frame.shell.Goes [.taskRunPending, .shell] :=
    hgoes.cons fun _ => ⟨nofun, rfl⟩
  unfold shellCommand at h
  cases hc : c.command with
  | runUserProgram =>
    rw [hc] at h
    dsimp only [threadSpawnUser] at h
    rcases newUserThread_cases k c.kmalloc c.image with hn | hn | hn <;> rw [hn] at h <;>
      obtain ⟨rfl, rfl⟩ := Prod.mk.inj (Option.some.inj h)
    · exact .create ⟨trivial, id⟩ rfl (by simp [Frame.Plain]) (hgoes.cons fun _ => rfl)
        (Same.refl _)
    · exact .createFailed ⟨trivial, id⟩ hshell hgoes (Same.refl _)
    · exact .go trivial hshell hgoes (fun h => h.elim) (Same.refl k)
  | threadCreate =>
    rw [hc] at h
    obtain ⟨rfl, rfl⟩ := Prod.mk.inj (Option.some.inj h)
    exact effect_threadCreate (f := .shell) ⟨trivial, id⟩ _
  | stop pid =>
    rw [hc] at h
    dsimp only at h
    cases ht : k.stopTarget pid with
    | none =>
      rw [ht] at h
      obtain ⟨rfl, rfl⟩ := Prod.mk.inj (Option.some.inj h)
      exact .go trivial hshell hgoes (fun h => h.elim) (Same.refl k)
    | some t =>
      rw [ht] at h
      obtain ⟨rfl, rfl⟩ := Prod.mk.inj (Option.some.inj h)
      have hvictim : k.victim c .shell = some t := by
        show (match c.command with | .stop pid => k.stopTarget pid | _ => none) = some t
        rw [hc]
        exact ht
      exact .stop pid t ⟨trivial, id⟩ (Or.inl rfl) ht (by simp [Frame.Plain, Frame.flags]) hgoes
        (Same.refl _) hvictim
  | setTimeout ticks =>
    rw [hc] at h
    obtain ⟨rfl, rfl⟩ := Prod.mk.inj (Option.some.inj h)
    unfold addTimerTicks
    split_ifs
    · exact .timer _ _ rfl (List.perm_orderedInsert ..)
        ⟨rfl, rfl, rfl, rfl, rfl, rfl, rfl, rfl, rfl, rfl, rfl, rfl⟩
    · exact .go trivial hshell hgoes (fun h => h.elim) (Same.refl k)
  | taskDemo ok₃ ok₁ ok₅ =>
    rw [hc] at h
    obtain ⟨rfl, rfl⟩ := Prod.mk.inj (Option.some.inj h)
    obtain ⟨n₃, hn₃, q₃, hq₃, h₃⟩ := @addTaskIf_perm k ok₃ .other nofun 3
    obtain ⟨n₁, hn₁, q₁, hq₁, h₁⟩ := @addTaskIf_perm (k.addTaskIf ok₃ .other 3) ok₁ .other
      nofun 1
    obtain ⟨n₅, hn₅, q₅, hq₅, h₅⟩ := @addTaskIf_perm ((k.addTaskIf ok₃ .other 3).addTaskIf ok₁
      .other 1) ok₅ .other nofun 5
    refine .task (n₅ ++ (n₁ ++ n₃)) q₅ (fun n hn => ?_) ?_ trivial trivial hrunPending
      (fun h => h.elim) ?_
    · rcases List.mem_append.mp hn with hn | hn
      · exact hn₅ n hn
      · exact (List.mem_append.mp hn).elim (hn₁ n) (hn₃ n)
    · refine hq₅.trans ?_
      rw [List.append_assoc, List.append_assoc, h₁]
      refine (hq₁.trans ?_).append_left n₅
      rw [h₃]
      exact hq₃.append_left n₁
    · rw [h₅, h₁, h₃]
      exact Same.refl _
  | taskNest =>
    rw [hc] at h
    obtain ⟨rfl, rfl⟩ := Prod.mk.inj (Option.some.inj h)
    obtain ⟨ns, hns, q, hq, heq⟩ := @addTaskIf_perm k c.kmalloc .demoTaskSlow nofun 9
    exact .task ns q hns hq trivial trivial hrunPending (fun h => h.elim) (heq ▸ Same.refl _)
  | yield =>
    rw [hc] at h
    obtain ⟨rfl, rfl⟩ := Prod.mk.inj (Option.some.inj h)
    exact .yield trivial trivial (Frame.goes_yield (fun _ _ => id) nofun rfl) (fun h => h.elim)
      (Same.refl k)
  | exit => simp [hc] at h

theorem effect_threadBody (h : k.threadBody c = some (k', fs)) :
    Effect k c .kernelThread k' fs := by
  unfold threadBody at h
  cases hc : c.command with
  | threadCreate =>
    rw [hc] at h
    obtain ⟨rfl, rfl⟩ := Prod.mk.inj (Option.some.inj h)
    exact effect_threadCreate (f := .kernelThread) ⟨trivial, id⟩ _
  | yield =>
    rw [hc] at h
    obtain ⟨rfl, rfl⟩ := Prod.mk.inj (Option.some.inj h)
    exact .yield trivial trivial (Frame.goes_yield (fun _ _ => id) nofun rfl) (fun h => h.elim)
      (Same.refl k)
  | exit =>
    rw [hc] at h
    dsimp only at h
    split_ifs at h with hpar
    obtain ⟨rfl, rfl⟩ := Prod.mk.inj (Option.some.inj h)
    exact .threadExit hpar
  | _ => simp [hc] at h

/-- Waiting for a child. -/
theorem effect_wait {child : Tid} {k'' : Kernel}
    (hf : f = .sysWaitpid child ∨ f = .runUserProgram child) (hk : Same (k.collect child) k'')
    (h : (if child ∈ k.freed then none
      else if k.state child = .zombie then some (k'', [])
      else some (k.threadBlock, [.schedule, f])) = some (k', fs)) : Effect k c f k' fs := by
  split_ifs at h with hfreed hz <;> obtain ⟨rfl, rfl⟩ := Prod.mk.inj (Option.some.inj h)
  · exact .collect hf hfreed hz hk
  · exact .blockWait hf

/-- **Every step of the current thread has one of the effects.** -/
theorem run_effect (h : k.run c f = some (k', fs)) : Effect k c f k' fs := by
  cases f with
  | user =>
    obtain ⟨rfl, rfl⟩ := Prod.mk.inj (Option.some.inj h)
    exact .go trivial (by simp [Frame.Plain])
      ((Frame.goes_singleton fun _ _ => id).cons fun _ => rfl)
      (fun h => h.elim) (same_sie ..)
  | idleThreadBody =>
    rw [run] at h
    cases hz : k.killZombie with
    | some k₁ =>
      rw [hz] at h
      obtain ⟨rfl, rfl⟩ := Prod.mk.inj (Option.some.inj h)
      exact .reap hz
    | none =>
      rw [hz] at h
      obtain ⟨rfl, rfl⟩ := Prod.mk.inj (Option.some.inj h)
      exact .yield trivial trivial (Frame.goes_yield (fun _ _ => id) nofun rfl) (fun h => h.elim)
        (Same.refl k)
  | shell => exact effect_shellCommand h
  | kernelThread => exact effect_threadBody h
  | irq user s pc =>
    obtain ⟨rfl, rfl⟩ := Prod.mk.inj (Option.some.inj h)
    exact effect_irqHandler user s pc
  | ecall s pc =>
    obtain ⟨rfl, rfl⟩ := Prod.mk.inj (Option.some.inj h)
    exact effect_ecallHandler s pc
  | callback cb =>
    cases cb with
    | usleepCb tok =>
      rw [run] at h
      split_ifs at h with htok
      obtain ⟨rfl, rfl⟩ := Prod.mk.inj (Option.some.inj h)
      exact .fired htok.1 htok.2
    | other =>
      rw [run] at h
      split_ifs at h with hagain <;> obtain ⟨rfl, rfl⟩ := Prod.mk.inj (Option.some.inj h)
      · exact .yield trivial trivial (Frame.goes_yield (fun _ _ => id) nofun rfl)
          (fun _ => ⟨⟨_, rfl⟩, hagain⟩) (Same.refl k)
      · exact .go trivial (by simp) Frame.goes_nil (by simp) (Same.refl k)
    | demoTaskSlow =>
      rw [run] at h
      split_ifs at h with hagain <;> obtain ⟨rfl, rfl⟩ := Prod.mk.inj (Option.some.inj h)
      · exact .yield trivial trivial (Frame.goes_yield (fun _ _ => id) nofun rfl)
          (fun _ => ⟨⟨_, rfl⟩, hagain⟩) (Same.refl k)
      · obtain ⟨ns, hns, q, hq, heq⟩ := @addTaskIf_perm k c.kmalloc .other nofun 5
        exact .task ns q hns hq trivial trivial
          ((Frame.goes_singleton fun _ _ => id).cons fun _ => ⟨nofun, rfl⟩) id
          (heq ▸ Same.refl _)
  | taskRunPending =>
    obtain ⟨h₁, h₂⟩ := Prod.mk.inj (Option.some.inj h)
    exact h₁ ▸ h₂ ▸ effect_taskRunPending
  | taskDone prevPrio =>
    obtain ⟨rfl, rfl⟩ := Prod.mk.inj (Option.some.inj h)
    exact .go trivial (by simp [Frame.Plain]) (Frame.goes_singleton fun _ _ => id)
      (by simp [Frame.IsIrq]) ⟨rfl, rfl, rfl, rfl, rfl, rfl, rfl, rfl, rfl, rfl, rfl, rfl⟩
  | sysUsleep tok pc =>
    cases pc with
    | registered =>
      obtain ⟨rfl, rfl⟩ := Prod.mk.inj (Option.some.inj h)
      exact .blockUsleep
    | blocked =>
      obtain ⟨rfl, rfl⟩ := Prod.mk.inj (Option.some.inj h)
      exact .woken (same_setA0 ..)
  | sysWaitpid child => exact effect_wait (Or.inl rfl) (same_setA0 ..) h
  | runUserProgram child => exact effect_wait (Or.inr rfl) (Same.refl _) h
  | threadWakeup par =>
    rw [run] at h
    split_ifs at h with hfreed
    obtain ⟨rfl, rfl⟩ := Prod.mk.inj (Option.some.inj h)
    exact .wakeup hfreed
  | schedule =>
    rw [run] at h
    rcases hs : k.schedule with ⟨k₁, _ | next⟩ <;> rw [hs] at h <;> dsimp only at h
    · obtain ⟨rfl, rfl⟩ := Prod.mk.inj (Option.some.inj h)
      exact .stay hs (by simp)
    · split_ifs at h with hnext <;> obtain ⟨rfl, rfl⟩ := Prod.mk.inj (Option.some.inj h)
      · exact .stay hs fun n hn => (Option.some.inj hn) ▸ hnext
      · exact .choose hs hnext
  | switchTo flags next =>
    rw [run] at h
    split_ifs at h with hfreed
    obtain ⟨rfl, rfl⟩ := Prod.mk.inj (Option.some.inj h)
    exact .switch hfreed
  | scheduleReturn flags =>
    obtain ⟨rfl, rfl⟩ := Prod.mk.inj (Option.some.inj h)
    exact .go trivial (by simp) Frame.goes_nil (fun h => h.elim) (Same.refl k)
  | dead => simp [run] at h

/-! ## Operations that concern threads only -/

section Quiet

variable (k) (t : Tid)

theorem quiet_modify (f : Thread → Thread) : Quiet k (k.modify t f) :=
  ⟨rfl, rfl, rfl, rfl, rfl, rfl, rfl, rfl, rfl⟩

theorem quiet_enqueue : Quiet k (k.enqueue t) := ⟨rfl, rfl, rfl, rfl, rfl, rfl, rfl, rfl, rfl⟩

theorem quiet_gRunq (q : List Tid) : Quiet k { k with gRunq := q } :=
  ⟨rfl, rfl, rfl, rfl, rfl, rfl, rfl, rfl, rfl⟩

theorem quiet_listDelSibling : Quiet k (k.listDelSibling t) :=
  ⟨rfl, rfl, rfl, rfl, rfl, rfl, rfl, rfl, rfl⟩

theorem quiet_schedZombify : Quiet k (k.schedZombify t) :=
  ⟨rfl, rfl, rfl, rfl, rfl, rfl, rfl, rfl, rfl⟩

theorem quiet_setState (s : ThreadState) : Quiet k (k.setState t s) := quiet_modify ..

theorem quiet_addChild (p : Tid) : Quiet k (k.addChild p t) := quiet_modify ..

theorem quiet_threadBlock : Quiet k k.threadBlock := quiet_setState ..

theorem quiet_threadWakeup : Quiet k (k.threadWakeup t) := by
  unfold threadWakeup
  split_ifs
  · exact (quiet_modify ..).trans (quiet_enqueue ..)
  · exact Quiet.refl k

theorem quiet_schedule : Quiet k k.schedule.1 := by
  unfold schedule
  dsimp only
  have hdemote : ∀ b : Prop, ∀ _ : Decidable b, Quiet k
      (if b then (k.setState k.current .ready).enqueue k.current else k) := fun b _ => by
    split_ifs
    · exact (quiet_modify ..).trans (quiet_enqueue ..)
    · exact Quiet.refl k
  specialize hdemote (k.state k.current = .running) inferInstance
  generalize (if k.state k.current = .running then _ else k : Kernel) = k₁ at hdemote ⊢
  split
  · dsimp only
    split_ifs
    · exact hdemote.trans (quiet_modify ..)
    · exact hdemote
  · exact hdemote.trans ((quiet_modify ..).trans (quiet_gRunq ..))

theorem quiet_terminate : Quiet k (k.terminate t) := by
  unfold terminate
  dsimp only
  split_ifs
  · exact (quiet_gRunq ..).trans (quiet_modify ..)
  · exact quiet_modify ..

theorem quiet_reparent : Quiet k (k.reparent t) :=
  ((quiet_listDelSibling ..).trans (quiet_modify ..)).trans (quiet_addChild ..)

theorem quiet_foldl_reparent (l : List Tid) : Quiet k (l.foldl reparent k) := by
  induction l generalizing k with
  | nil => exact Quiet.refl k
  | cons c l ih => exact (quiet_reparent k c).trans (ih _)

theorem quiet_sysExit (status : BitVec 64) : Quiet k (k.sysExit status) := by
  unfold sysExit
  exact ((quiet_modify ..).trans (quiet_foldl_reparent ..)).trans (quiet_modify ..)

theorem quiet_threadExit : Quiet k k.threadExit :=
  ((quiet_setState ..).trans (quiet_listDelSibling ..)).trans (quiet_schedZombify ..)

theorem quiet_collect : Quiet k (k.collect t) :=
  (quiet_listDelSibling ..).trans (quiet_schedZombify ..)

end Quiet

/-! ## Operations beside the interrupts and the tasks -/

/-- The two states have the same `SIE`, `g_need_resched`, tasks and running priority. -/
structure Beside (k k' : Kernel) : Prop where
  sie : k'.sie = k.sie
  gNeedResched : k'.gNeedResched = k.gNeedResched
  gTaskQueue : k'.gTaskQueue = k.gTaskQueue
  gRunningPriority : k'.gRunningPriority = k.gRunningPriority

theorem Beside.refl (k : Kernel) : Beside k k := ⟨rfl, rfl, rfl, rfl⟩

theorem Beside.trans {k'' : Kernel} (h : Beside k k') (h' : Beside k' k'') : Beside k k'' :=
  ⟨h'.sie.trans h.sie, h'.gNeedResched.trans h.gNeedResched, h'.gTaskQueue.trans h.gTaskQueue,
    h'.gRunningPriority.trans h.gRunningPriority⟩

theorem beside_threadWakeup (t : Tid) : Beside k (k.threadWakeup t) := by
  unfold threadWakeup
  split_ifs <;> exact ⟨rfl, rfl, rfl, rfl⟩

theorem beside_terminate (t : Tid) : Beside k (k.terminate t) := by
  unfold terminate
  dsimp only
  split_ifs <;> exact ⟨rfl, rfl, rfl, rfl⟩

theorem beside_foldl_reparent (l : List Tid) : Beside k (l.foldl reparent k) := by
  induction l generalizing k with
  | nil => exact .refl k
  | cons c l ih =>
    have hone : Beside k (k.reparent c) := ⟨rfl, rfl, rfl, rfl⟩
    exact hone.trans ih

theorem beside_sysExit (status : BitVec 64) : Beside k (k.sysExit status) := by
  have hstatus : Beside k (k.modify k.current fun x =>
      { x with exitStatus := status.setWidth 32 }) := ⟨rfl, rfl, rfl, rfl⟩
  unfold sysExit
  exact (hstatus.trans (beside_foldl_reparent _)).trans ⟨rfl, rfl, rfl, rfl⟩

theorem beside_schedule : Beside k k.schedule.1 := by
  have hpark : Beside k (if k.state k.current = .running then
      (k.setState k.current .ready).enqueue k.current else k) := by
    split_ifs <;> exact ⟨rfl, rfl, rfl, rfl⟩
  unfold schedule
  dsimp only
  generalize (if k.state k.current = .running then _ else k : Kernel) = k₁ at hpark ⊢
  cases k₁.gRunq with
  | nil =>
    dsimp only
    split_ifs
    · exact hpark.trans ⟨rfl, rfl, rfl, rfl⟩
    · exact hpark
  | cons next rest => exact hpark.trans ⟨rfl, rfl, rfl, rfl⟩

theorem beside_newUserThread (ok okImage : Bool) : Beside k (k.newUserThread ok okImage).1 := by
  rcases newUserThread_cases k ok okImage with h | h | h <;> rw [h] <;> exact ⟨rfl, rfl, rfl, rfl⟩

theorem beside_threadCreate (ok : Bool) : Beside k (k.threadCreate ok) := by
  cases ok <;> exact ⟨rfl, rfl, rfl, rfl⟩

theorem beside_killZombie (h : k.killZombie = some k') : Beside k k' := by
  obtain ⟨z, zs, -, rfl⟩ := killZombie_eq_some h
  exact ⟨rfl, rfl, rfl, rfl⟩

/-! ## Stacks -/

theorem goes_wakeParent {k : Kernel} {t : Tid} {f g : Frame} {fs : List Frame}
    (h : f.Goes (g :: fs)) (huser : g ≠ .user) (hflags : g.flags = none) :
    f.Goes (k.wakeParent t (g :: fs)) := by
  unfold wakeParent
  cases k.parent t with
  | none => exact h
  | some par => exact h.cons fun _ => ⟨huser, hflags⟩

theorem goes_dead {f : Frame} (huser : f ≠ .user) (hflags : f.flags = none) :
    f.Goes [.schedule, .dead, f] := by
  have hon : ∀ b, Frame.On b .dead f := fun _ => ⟨huser, hflags⟩
  have hon' : ∀ b, Frame.On b .schedule .dead := fun _ => ⟨nofun, rfl⟩
  exact ((Frame.goes_singleton fun _ _ => id).cons hon).cons hon'

/-- What the innermost call is replaced by can stand where it stood. -/
theorem Effect.goes (h : Effect k c f k' fs) : f.Goes fs := by
  have hirq : ∀ {u s pc pc'}, (Frame.irq u s pc).Goes [.irq u s pc'] := fun {u _ _ _} =>
    Frame.goes_singleton fun _ _ => by cases u <;> exact id
  cases h with
  | go _ _ hgoes | yield _ _ hgoes | create _ _ _ hgoes | createFailed _ _ hgoes => exact hgoes
  | task ns q hn hq hf hg hgoes => exact hgoes
  | timer | reap => exact Frame.goes_singleton fun _ _ => id
  | expire => exact hirq
  | expireNow => exact hirq.cons fun _ => ⟨nofun, rfl⟩
  | start => exact (Frame.goes_singleton fun _ _ => id).cons fun _ => ⟨nofun, rfl⟩
  | register => exact (Frame.goes_singleton fun _ _ => id).cons fun _ => ⟨_, _, rfl⟩
  | fired | woken | wakeup | collect => exact Frame.goes_nil
  | blockUsleep => exact Frame.goes_yield (fun _ _ => id) nofun rfl
  | blockWait hf => rcases hf with rfl | rfl <;> exact Frame.goes_yield (fun _ _ => id) nofun rfl
  | stay | choose | switch => exact Frame.goes_singleton fun _ _ => id
  | exit => exact goes_wakeParent (goes_dead nofun rfl) nofun rfl
  | kill hf =>
    refine goes_wakeParent ?_ nofun rfl
    rcases hf with ⟨s, pc, rfl⟩ | ⟨s, pc, rfl⟩ <;> exact goes_dead nofun rfl
  | stop pid t hf hpid ht hg hgoes => exact goes_wakeParent hgoes hg.2.1 hg.2.2
  | threadExit => exact goes_dead nofun rfl

/-- The two states have the same stacks and threads, and the same thread is the current one. -/
structure Kept (k k' : Kernel) : Prop where
  stack : k'.stack = k.stack
  count : k'.count = k.count
  freed : k'.freed = k.freed
  current : k'.current = k.current

theorem Quiet.kept (h : Quiet k k') : Kept k k' := ⟨h.stack, h.count, h.freed, h.current⟩

/-- A step makes a thread, switches to another, frees one, or changes none of these. -/
theorem Effect.kept (h : Effect k c f k' fs) : Kept k k' ∨
    (∃ image, Same (k.created image (if image then .user else .kernelThread)) k') ∨
    Kept { k with count := k.count + 1, freed := k.count :: k.freed } k' ∨
    (∃ fl n, f = .switchTo fl n ∧ n ∉ k.freed ∧ k' = { k with current := n }) ∨
    f = .idleThreadBody ∧ ∃ z zs, k.gZombies = z :: zs ∧
      k' = { k with
        gZombies := zs, freed := if z = gBootstrap then k.freed else z :: k.freed } := by
  cases h with
  | create hf hg hfs hgoes h => exact Or.inr (Or.inl ⟨_, hg ▸ h⟩)
  | createFailed _ _ _ h =>
    exact Or.inr (Or.inr (Or.inl ⟨h.stack, h.count, h.freed, h.current⟩))
  | switch hfreed => exact Or.inr (Or.inr (Or.inr (Or.inl ⟨_, _, rfl, hfreed, rfl⟩)))
  | reap h => exact Or.inr (Or.inr (Or.inr (Or.inr ⟨rfl, killZombie_eq_some h⟩)))
  | go _ _ _ _ h | yield _ _ _ _ h | timer _ _ _ _ h | expire _ _ _ _ _ _ _ h
  | task _ _ _ _ _ _ _ _ h | expireNow _ _ _ h | start _ _ _ h | register _ _ _ h | woken h =>
    exact Or.inl ⟨h.stack, h.count, h.freed, h.current⟩
  | fired => exact Or.inl { (quiet_threadWakeup k _).kept with }
  | wakeup => exact Or.inl (quiet_threadWakeup k _).kept
  | blockUsleep | blockWait => exact Or.inl (quiet_threadBlock k).kept
  | stay h =>
    have hq := quiet_schedule k
    rw [h] at hq
    exact Or.inl hq.kept
  | choose h =>
    have hq := quiet_schedule k
    rw [h] at hq
    exact Or.inl hq.kept
  | exit status => exact Or.inl (quiet_sysExit k status).kept
  | kill => exact Or.inl (quiet_terminate k _).kept
  | stop pid t _ _ _ _ _ h => exact Or.inl ((quiet_terminate k t).trans h.quiet).kept
  | threadExit => exact Or.inl (quiet_threadExit k).kept
  | collect _ _ _ h => exact Or.inl ((quiet_collect k _).trans (h.quiet)).kept

/-- The stacks of other threads, and of a new one. -/
theorem Effect.stack (h : Effect k c f k' fs) : k'.stack = k.stack ∨
    ∃ g, (g = .user ∨ g = .kernelThread) ∧ k'.stack = Function.update k.stack k.count [g] := by
  rcases h.kept with h | ⟨image, h⟩ | h | ⟨fl, n, -, -, rfl⟩ | ⟨-, z, zs, -, rfl⟩
  · exact Or.inl h.stack
  · refine Or.inr ⟨_, ?_, h.stack⟩
    split_ifs
    · exact Or.inl rfl
    · exact Or.inr rfl
  · exact Or.inl h.stack
  · exact Or.inl rfl
  · exact Or.inl rfl

/-! ## Steps of the machine -/

/-- An interrupt calls the trap handler on the stack of the current thread. -/
theorem step_interrupt {timer : Bool} (h : step k (.interrupt timer) = some k') :
    (k.inUser || k.sie) = true ∧ ∃ pc, k' = ({ k with sie := false } : Kernel).setStack k.current
      (.irq k.inUser k.sie pc :: k.stack k.current) := by
  rw [step] at h
  by_cases hready : (k.inUser || k.sie) && (!timer || decide (k.deadline ≤ k.clock))
  · rw [if_pos hready] at h
    exact ⟨(Bool.and_eq_true_iff.mp hready).1, _, (Option.some.inj h).symm⟩
  · rw [if_neg hready] at h
    cases h

/-- The innermost call of the current thread goes on. -/
theorem step_run (h : step k (.run c) = some k') : ∃ f rest k₁ fs,
    k.stack k.current = f :: rest ∧ k.run c f = some (k₁, fs) ∧
      k' = k₁.setStack k.current (fs ++ rest) := by
  rw [step] at h
  cases hstack : k.stack k.current with
  | nil =>
    rw [hstack] at h
    cases h
  | cons f rest =>
    rw [hstack] at h
    obtain ⟨⟨k₁, fs⟩, hrun, rfl⟩ := Option.map_eq_some_iff.mp h
    exact ⟨f, rest, k₁, fs, rfl, hrun, rfl⟩

end Kernel
end Sched
end OscKernel
