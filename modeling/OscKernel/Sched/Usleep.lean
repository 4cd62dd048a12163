import OscKernel.Sched.Turn

/-!
# The wake-up of a sleeper (`sys_usleep`, `usleep_cb`)

`sys_usleep` asks for a timer and blocks afterwards, and `thread_wakeup` does nothing to a thread
that is not `BLOCKED` yet.  The wake-up of a sleeper is on one of the two queues, or some thread
executes its callback.

* `Kernel.NoWakeLost`: the timer gets its memory, its callback does not run before the sleeper
  blocks, and the thread that executes the callback is not ended.
* `Kernel.pending_of_reachable`: in runs of such steps the wake-up of every `BLOCKED` sleeper is
  still pending.
* `Kernel.lost_of_earlyTick`: the timer expires before the sleeper blocks, and nobody wakes it.

## Where a wake-up can be

From the registration on, the wake-up is a timer on the timer queue, then a task on the task queue,
or is called directly when there is no memory for the task, and then it is a call on the stack of
some thread.  That thread may be interrupted, and other callbacks may run on top; the wake-up is
pending as long as the thread has not ended (`WakePending`).  The invariant says this of every call
of `sys_usleep` that has registered, and of every one whose thread is `BLOCKED`.

## The conditions

Each is about the state before the step.  A sleeper for which there was no memory blocks all the
same, and nobody will wake it.  A callback that runs between the registration and the change of
state finds its sleeper `RUNNING` and is used up.  And a callback that has been interrupted on the
stack of a thread that is then stopped, or freed, never gets to its end.  The machine has no
behaviour where the source would use a token that is gone (`OscKernel.Sched.Machine`).
-/

namespace OscKernel
namespace Sched

open Transition

/-- The call is of `usleep_cb`. -/
def Frame.isUsleepCb : Frame → Bool
  | .callback (.usleepCb _) => true
  | _ => false

namespace Kernel

variable (k : Kernel)

/-- A timer or a task with `usleep_cb` for the token waits on its queue. -/
def Queued (tok : UsleepToken) : Prop :=
  (∃ n ∈ k.gTimerQueue, n.cb = .usleepCb tok) ∨ ∃ n ∈ k.gTaskQueue, n.cb = .usleepCb tok

/-- A thread that has not ended executes `usleep_cb` for the token. -/
def Executing (tok : UsleepToken) : Prop :=
  ∃ t, t ∉ k.freed ∧ (t = k.current ∨ k.state t ≠ .zombie) ∧ .callback (.usleepCb tok) ∈ k.stack t

/-- The wake-up for the token is still to come. -/
def WakePending (tok : UsleepToken) : Prop := k.Queued tok ∨ k.Executing tok

/-- A call of `usleep_cb` is in progress on the stack of `t`. -/
def RunsUsleepCb (t : Tid) : Prop := (k.stack t).any Frame.isUsleepCb = true

instance (t : Tid) : Decidable (k.RunsUsleepCb t) := inferInstanceAs (Decidable (_ = _))

/-- The call `f` registers a sleeper with success, or finds its sleeper past the registration. -/
def heard (c : Choice) : Frame → Bool
  | .ecall _ (.doSyscall (.usleep usec)) => usec == 0 || c.kmalloc
  | .callback (.usleepCb tok) => decide (.sysUsleep tok .registered ∉ k.stack tok.t)
  | _ => true

/-- The thread that the call `f` ends for good: `sys_stop` and `shell_stop_pid` end their victim,
`switch_to` a `ZOMBIE` that it leaves, and `kill_zombies` the one that it frees. -/
def ended (c : Choice) : Frame → Option Tid
  | .switchTo _ _ => if k.state k.current = .zombie then some k.current else none
  | .idleThreadBody => k.gZombies.head?.filter (· ≠ gBootstrap)
  | f => k.victim c f

/-- The guard of the runs in which no wake-up is lost. -/
def NoWakeLost : Label → Prop
  | .run c => ∀ f ∈ (k.stack k.current).head?,
      k.heard c f = true ∧ ∀ t ∈ k.ended c f, ¬ k.RunsUsleepCb t
  | _ => True

instance : ∀ a, Decidable (k.NoWakeLost a)
  | .run _ => inferInstanceAs (Decidable (∀ _ ∈ _, _ ∧ ∀ _ ∈ _, _))
  | .tick _ | .interrupt _ => isTrue trivial

/-- Every sleeper will be woken. -/
structure Sleeping : Prop where
  registered : ∀ tok, .sysUsleep tok .registered ∈ k.stack tok.t → k.WakePending tok
  blocked : ∀ tok, .sysUsleep tok .blocked ∈ k.stack tok.t → k.state tok.t = .blocked →
    k.WakePending tok

variable {k} {k' : Kernel} {c : Choice} {f g : Frame} {fs rest : List Frame} {t : Tid}
  {tok : UsleepToken} {pc : UsleepPc}

/-! ## The calls of `sys_usleep` -/

/-- A call of `sys_usleep` begins, or blocks. -/
theorem Effect.mem_sysUsleep (h : Effect k c f k' fs) (hmem : .sysUsleep tok pc ∈ fs) :
    (pc = .registered ∧ tok = ⟨k.current, k.calls⟩ ∧ (c.kmalloc = true → k'.Queued tok) ∧
      ∃ s usec, usec ≠ 0 ∧ f = .ecall s (.doSyscall (.usleep usec))) ∨
      pc = .blocked ∧ f = .sysUsleep tok .registered := by
  have hplain : (∀ g ∈ fs, g.Plain) → False := fun h => h _ hmem
  cases h with
  | register q hq husec h =>
    obtain ⟨rfl, rfl⟩ := Frame.sysUsleep.inj (by simpa using hmem)
    refine Or.inl ⟨rfl, rfl, fun hok => Or.inl ?_, _, _, husec, rfl⟩
    rcases hq with ⟨hno, -⟩ | ⟨n, hn, hq⟩
    · exact absurd hok (by rw [hno]; exact Bool.false_ne_true)
    · refine ⟨n, ?_, hn⟩
      rw [h.gTimerQueue]
      exact hq.mem_iff.mpr List.mem_cons_self
  | blockUsleep =>
    obtain ⟨rfl, rfl⟩ := Frame.sysUsleep.inj (by simpa using hmem)
    exact Or.inr ⟨rfl, rfl⟩
  | go hf hfs => exact (hplain hfs).elim
  | create hf hg hfs => exact (hplain hfs).elim
  | createFailed hf hfs => exact (hplain hfs).elim
  | yield hf hg =>
    obtain rfl : Frame.sysUsleep tok pc = _ := by simpa using hmem
    exact hg.elim
  | task ns q hn hq hf hg =>
    obtain rfl : Frame.sysUsleep tok pc = _ := by simpa using hmem
    exact hg.elim
  | exit => rcases mem_wakeParent hmem with h | ⟨par, h⟩ <;> simp at h
  | kill hf =>
    rcases mem_wakeParent hmem with h | ⟨par, h⟩
    · rcases hf with ⟨s, pc, rfl⟩ | ⟨s, pc, rfl⟩ <;> simp at h
    · cases h
  | stop pid t hf hpid ht hg =>
    rcases mem_wakeParent hmem with h | ⟨par, h⟩
    · exact (List.mem_singleton.mp h ▸ hg.1 : Frame.Plain (.sysUsleep tok pc)).elim
    · cases h
  | blockWait hf => rcases hf with rfl | rfl <;> simp at hmem
  | _ => simp at hmem

/-- What is on a stack after a step of the current thread. -/
theorem Effect.mem_stack (h : Effect k c f k' fs)
    (hmem : g ∈ (k'.setStack k.current (fs ++ rest)).stack t) :
    t = k.current ∧ (g ∈ fs ∨ g ∈ rest) ∨ t ≠ k.current ∧ g ∈ k.stack t ∨
      (t = k.count ∧ k.count < k'.count) ∧ (g = .user ∨ g = .kernelThread) := by
  rw [stack_setStack] at hmem
  split_ifs at hmem with ht
  · exact Or.inl ⟨ht, List.mem_append.mp hmem⟩
  · rcases h.stack_other t with heq | ⟨hcount, hlt, g', hg, heq, -⟩
    · exact Or.inr (Or.inl ⟨ht, heq ▸ hmem⟩)
    · rw [heq, List.mem_singleton] at hmem
      exact Or.inr (Or.inr ⟨⟨hcount, hlt⟩, hmem ▸ hg⟩)

/-- A thread with a call on its stack exists. -/
theorem Stacked.lt_of_mem (hs : k.Stacked) (hmem : g ∈ k.stack t) : t < k.count := by
  by_contra hge
  rw [(hs.unborn t (Nat.not_lt.mp hge)).1] at hmem
  cases hmem

/-- What was on a stack stays there, unless it is the call that has ended. -/
theorem Effect.mem_stack_of_mem (h : Effect k c f k' fs) (hs : k.Stacked)
    (hstack : k.stack k.current = f :: rest) (hmem : g ∈ k.stack t)
    (hne : t = k.current → g ≠ f) : g ∈ (k'.setStack k.current (fs ++ rest)).stack t := by
  rw [stack_setStack]
  split_ifs with ht
  · rw [ht, hstack] at hmem
    exact List.mem_append_right _ ((List.mem_cons.mp hmem).resolve_left (hne ht))
  · rcases h.stack_other t with heq | ⟨rfl, -⟩
    · exact heq ▸ hmem
    · exact absurd (hs.lt_of_mem hmem) (Nat.lt_irrefl _)

/-- An interrupt puts `trap_handler` on the stack of the current thread. -/
theorem mem_stack_interrupt {ipc : IrqPc} : g ∈ (({ k with sie := false } : Kernel).setStack
      k.current (.irq k.inUser k.sie ipc :: k.stack k.current)).stack t ↔
    g ∈ k.stack t ∨ t = k.current ∧ g = .irq k.inUser k.sie ipc := by
  rw [stack_setStack]
  split_ifs with ht
  · rw [List.mem_cons, ht]
    exact ⟨fun h => h.elim (fun h => Or.inr ⟨rfl, h⟩) Or.inl,
      fun h => h.elim Or.inr fun h => Or.inl h.2⟩
  · exact ⟨Or.inl, fun h => h.elim id fun h => absurd h.1 ht⟩

/-- No other call of `sys_usleep` is below a call in which the thread blocks. -/
theorem Stacked.not_mem_of_sleeps (hs : k.Stacked) (hstack : k.stack t = f :: rest)
    (hf : f.Sleeps ∨ f.Base) : .sysUsleep tok pc ∉ rest := fun hmem =>
  (Frame.base_of_isChain hf (hstack ▸ hs.chain t) _ hmem).elim

/-! ## The wake-up -/

theorem queued_iff : k.Queued tok ↔ 1 ≤ k.waiting (· == .usleepCb tok) := by
  have hcount : ∀ a b : ℕ, 1 ≤ a + b ↔ 0 < a ∨ 0 < b := fun a b => by omega
  unfold waiting
  rw [hcount, List.countP_pos_iff, List.countP_pos_iff]
  simp only [beq_iff_eq]
  rfl

/-- A sleeper that is woken is not `BLOCKED` any more. -/
theorem state_threadWakeup_ne : (k.threadWakeup t).state t ≠ .blocked := by
  unfold threadWakeup
  split_ifs with hb
  · show (k.setState t .ready).state t ≠ _
    rw [state_setState, if_pos rfl]
    nofun
  · exact hb

/-- What `switch_to` does. -/
theorem Effect.of_switchTo {fl : Bool} {n : Tid} (h : Effect k c (.switchTo fl n) k' fs) :
    k' = { k with current := n } ∧ fs = [.scheduleReturn fl] := by
  cases h with
  | switch => exact ⟨rfl, rfl⟩
  | go hf | yield hf => exact hf.elim
  | task _ _ _ _ hf => exact hf.elim
  | create hf | createFailed hf => exact hf.1.elim
  | stop _ _ hf => exact hf.1.elim
  | blockWait hf | collect hf => rcases hf with h | h <;> cases h
  | kill hf => rcases hf with ⟨s, pc, h⟩ | ⟨s, pc, h⟩ <;> cases h

/-- What `usleep_cb` does. -/
theorem Effect.of_usleepCb (h : Effect k c (.callback (.usleepCb tok)) k' fs) :
    tok.t ∉ k.freed ∧ k.InUsleep tok ∧ fs = [] ∧
      k' = { k.threadWakeup tok.t with ran := tok.call :: k.ran } := by
  cases h with
  | fired hfreed htok => exact ⟨hfreed, htok, rfl, rfl⟩
  | go hf | yield hf => exact hf.elim
  | task _ _ _ _ hf => exact hf.elim
  | create hf | createFailed hf => exact hf.1.elim
  | stop _ _ hf => exact hf.1.elim
  | blockWait hf | collect hf => rcases hf with h | h <;> cases h
  | kill hf => rcases hf with ⟨s, pc, h⟩ | ⟨s, pc, h⟩ <;> cases h

/-- Who executes `usleep_cb` goes on, unless this step ends it. -/
theorem Executing.run (h : k.Executing tok) (hs : k.Stacked)
    (hstack : k.stack k.current = f :: rest) (heffect : Effect k c f k' fs)
    (hended : ∀ t ∈ k.ended c f, ¬ k.RunsUsleepCb t) (hf : f ≠ .callback (.usleepCb tok)) :
    (k'.setStack k.current (fs ++ rest)).Executing tok := by
  obtain ⟨t, hfreed, hlive, hmem⟩ := h
  have hruns : k.RunsUsleepCb t := List.any_eq_true.mpr ⟨_, hmem, rfl⟩
  refine ⟨t, fun hf' => ?_, ?_, heffect.mem_stack_of_mem hs hstack hmem fun _ => hf.symm⟩
  · rcases heffect.freed hf' with hf' | hf' | ⟨rfl, hboot, zs, hz⟩
    · exact hfreed hf'
    · exact Nat.ne_of_lt (hs.lt_of_mem hmem) hf'
    · refine hended t ?_ hruns
      show t ∈ k.gZombies.head?.filter _
      rw [hz]
      exact Option.filter_eq_some_iff.mpr ⟨rfl, by simpa using hboot⟩
  · refine or_iff_not_imp_right.mpr fun hz => ?_
    replace hz : k'.state t = .zombie := not_not.mp hz
    rcases heffect.current with hcurrent | ⟨fl, hswitch, -⟩
    · show t = k'.current
      rw [hcurrent]
      rcases heffect.turn.zombie hz with hold | ht | hvictim
      · exact hlive.resolve_right (not_not.mpr hold)
      · exact ht
      · refine absurd hruns (hended t ?_)
        have hbase := base_of_victim hvictim
        cases f <;> first | exact hvictim | exact hbase.elim | cases hvictim
    · -- the thread is left behind by `switch_to`
      generalize k'.current = n at hswitch
      subst hswitch
      replace hz : k.state t = .zombie := by
        rw [heffect.of_switchTo.1] at hz
        exact hz
      have ht := hlive.resolve_right (not_not.mpr hz)
      refine absurd hruns (hended t ?_)
      rw [ended, ← ht, if_pos hz]
      rfl

/-- The wake-up stays pending until `usleep_cb` has run. -/
theorem WakePending.run (h : k.WakePending tok) (hs : k.Stacked)
    (hstack : k.stack k.current = f :: rest) (heffect : Effect k c f k' fs)
    (hended : ∀ t ∈ k.ended c f, ¬ k.RunsUsleepCb t) (hf : f ≠ .callback (.usleepCb tok)) :
    (k'.setStack k.current (fs ++ rest)).WakePending tok := by
  rcases h with hqueued | hexec
  · have hone := queued_iff.mp hqueued
    have hwaiting := heffect.waiting (p := (· == .usleepCb tok)) fun cb hcb =>
      ⟨tok, beq_iff_eq.mp hcb⟩
    by_cases hcall : 1 ≤ k'.waiting (· == .usleepCb tok)
    · exact Or.inl (queued_iff.mpr hcall)
    · have hpos : 0 < fs.countP (Frame.runs (· == .usleepCb tok)) := by
        rcases hwaiting with hwaiting | ⟨-, hfs, hwaiting⟩ <;> omega
      obtain ⟨g, hg, hruns⟩ := List.countP_pos_iff.mp hpos
      obtain rfl : g = .callback (.usleepCb tok) := by
        cases g with
        | callback cb => exact congrArg _ (beq_iff_eq.mp hruns)
        | _ => cases hruns
      have hcurrent : k'.current = k.current := by
        rcases heffect.current with hcurrent | ⟨fl, hswitch, -⟩
        · exact hcurrent
        · generalize k'.current = n at hswitch
          subst hswitch
          rw [heffect.of_switchTo.2] at hg
          cases List.mem_singleton.mp hg
      refine Or.inr ⟨k.current, ?_, Or.inl hcurrent.symm, ?_⟩
      · exact hcurrent ▸ (heffect.current_not_freed hs hstack).2
      · rw [stack_setStack, if_pos rfl]
        exact List.mem_append_left _ hg
  · exact Or.inr (hexec.run hs hstack heffect hended hf)

/-! ## One step -/

/-- The innermost call of the current thread goes on. -/
theorem Sleeping.run (h : k.Sleeping) (hs : k.Stacked)
    (hstack : k.stack k.current = f :: rest) (heffect : Effect k c f k' fs)
    (hheard : k.heard c f = true) (hended : ∀ t ∈ k.ended c f, ¬ k.RunsUsleepCb t) :
    (k'.setStack k.current (fs ++ rest)).Sleeping := by
  -- a wake-up that is pending stays so, unless this step is its callback
  have hkeep : ∀ {tok}, k.WakePending tok → f ≠ .callback (.usleepCb tok) →
      (k'.setStack k.current (fs ++ rest)).WakePending tok := fun hp hf =>
    hp.run hs hstack heffect hended hf
  refine ⟨fun tok hmem => ?_, fun tok hmem hblocked => ?_⟩
  · have hold : .sysUsleep tok .registered ∈ k.stack tok.t →
        (k'.setStack k.current (fs ++ rest)).WakePending tok := fun hmem =>
      hkeep (h.registered tok hmem) fun hf => by
        subst hf
        exact of_decide_eq_true hheard hmem
    rcases heffect.mem_stack hmem with ⟨ht, hfs | hrest⟩ | ⟨-, hmem⟩ | ⟨-, hg | hg⟩
    · rcases heffect.mem_sysUsleep hfs with ⟨-, rfl, hqueued, s, usec, husec, rfl⟩ | ⟨hpc, -⟩
      · have hok : (usec == 0) = true ∨ c.kmalloc = true := Bool.or_eq_true_iff.mp hheard
        exact Or.inl (hqueued (hok.resolve_left fun h => husec (beq_iff_eq.mp h)))
      · cases hpc
    · exact hold (ht ▸ hstack ▸ List.mem_cons_of_mem _ hrest)
    · exact hold hmem
    · cases hg
    · cases hg
  · have hold : .sysUsleep tok .blocked ∈ k.stack tok.t → (tok.t = k.current → ¬ f.Sleeps) →
        (k'.setStack k.current (fs ++ rest)).WakePending tok := fun hmem hsleeps => by
      rcases heffect.turn.blocked hblocked with hb | ⟨ht, hf, -⟩
      · refine hkeep (h.blocked tok hmem hb) fun hf => ?_
        subst hf
        obtain ⟨-, -, -, rfl⟩ := heffect.of_usleepCb
        exact state_threadWakeup_ne hblocked
      · exact absurd hf (hsleeps ht)
    rcases heffect.mem_stack hmem with ⟨ht, hfs | hrest⟩ | ⟨ht, hmem⟩ | ⟨-, hg | hg⟩
    · rcases heffect.mem_sysUsleep hfs with ⟨hpc, -⟩ | ⟨-, rfl⟩
      · cases hpc
      · -- the sleeper blocks after its registration
        exact hkeep (h.registered tok (ht ▸ hstack ▸ List.mem_cons_self)) nofun
    · exact hold (ht ▸ hstack ▸ List.mem_cons_of_mem _ hrest) fun _ hf =>
        hs.not_mem_of_sleeps hstack (Or.inl hf) hrest
    · exact hold hmem fun h => absurd h ht
    · cases hg
    · cases hg

/-- What an interrupt does not change. -/
theorem WakePending.interrupt {ipc : IrqPc} (h : k.WakePending tok) :
    (({ k with sie := false } : Kernel).setStack k.current
      (.irq k.inUser k.sie ipc :: k.stack k.current)).WakePending tok := by
  rcases h with hqueued | ⟨t, hfreed, hlive, hmem⟩
  · exact Or.inl hqueued
  · exact Or.inr ⟨t, hfreed, hlive, mem_stack_interrupt.mpr (Or.inl hmem)⟩

/-- **Every step** that loses no wake-up. -/
theorem sleeping_step {a : Label} (h : k.Sleeping) (hs : k.Stacked)
    (hG : k.NoWakeLost a) (hstep : step k a = some k') : k'.Sleeping := by
  cases a with
  | tick d =>
    obtain rfl := Option.some.inj hstep
    exact ⟨h.registered, h.blocked⟩
  | interrupt timer =>
    obtain ⟨-, ipc, rfl⟩ := step_interrupt hstep
    refine ⟨fun tok hmem => ?_, fun tok hmem hblocked => ?_⟩
    · rcases mem_stack_interrupt.mp hmem with hmem | ⟨-, hmem⟩
      · exact (h.registered tok hmem).interrupt
      · cases hmem
    · rcases mem_stack_interrupt.mp hmem with hmem | ⟨-, hmem⟩
      · exact (h.blocked tok hmem hblocked).interrupt
      · cases hmem
  | run c =>
    obtain ⟨f, rest, k₁, fs, hstack, hrun, rfl⟩ := step_run hstep
    obtain ⟨hheard, hended⟩ := hG f (by rw [hstack]; rfl)
    exact h.run hs hstack (run_effect hrun) hheard hended

theorem sleeping_boot (freq : BitVec 64) : (boot freq).Sleeping := by
  have hnone : ∀ t tok pc, .sysUsleep tok pc ∉ (boot freq).stack t := fun t tok pc hmem => by
    rcases t with _ | _ | t
    · cases List.mem_singleton.mp hmem
    · cases List.mem_singleton.mp hmem
    · cases hmem
  exact ⟨fun tok hmem => absurd hmem (hnone _ _ _), fun tok hmem => absurd hmem (hnone _ _ _)⟩

/-- **No lost wake-up.**  In a run whose steps lose no wake-up, the wake-up of every thread that is
`BLOCKED` inside `sys_usleep` is still pending: its callback is on the timer queue or on the task
queue, or a thread that has not ended executes it. -/
theorem pending_of_reachable {freq : BitVec 64} (h : Reachable step NoWakeLost (boot freq) k)
    (hin : k.InUsleep tok) (hblocked : k.state tok.t = .blocked) : k.WakePending tok := by
  obtain ⟨-, hsleeping⟩ := h.invariant (P := fun k => k.Stacked ∧ k.Sleeping)
    ⟨stacked_boot freq, sleeping_boot freq⟩
    fun _ _ _ ⟨hs, hi⟩ hG hstep => ⟨stacked_step hs hstep, sleeping_step hi hs hG hstep⟩
  rcases hin with hin | hin
  · exact hsleeping.registered tok hin
  · exact hsleeping.blocked tok hin hblocked

/-- A user program is started, and calls `usleep(1)`. -/
def usleepRun : List Label :=
  [.run { command := .runUserProgram }] ++ List.replicate 6 (.run {}) ++
    [.run { syscall := .usleep 1 }, .run {}]

/-- The program sleeps, and its timer is on the queue. -/
theorem pending_of_usleepRun : ∃ k, Reachable step NoWakeLost (boot 10000000) k ∧
    k.state 2 = .blocked ∧ k.WakePending ⟨2, 0⟩ := by
  have hrun : (runList step (boot 10000000) (usleepRun ++ [.run {}])).map
      (fun k => (decide (k.InUsleep ⟨2, 0⟩), k.state 2)) =
      some (true, .blocked) := by decide +kernel
  obtain ⟨k, hk, hv⟩ := Option.map_eq_some_iff.mp hrun
  obtain ⟨hin, hblocked⟩ := Prod.mk.inj hv
  have hreach : Reachable step NoWakeLost (boot 10000000) k :=
    Reachable.of_runList hk (by decide +kernel)
  exact ⟨k, hreach, hblocked, pending_of_reachable hreach (of_decide_eq_true hin) hblocked⟩

/-- Nothing is pending when the queues are empty and no stack has a call of `usleep_cb`. -/
theorem not_wakePending (hs : k.Stacked) (htimer : k.gTimerQueue = []) (htask : k.gTaskQueue = [])
    (hstacks : ∀ t < k.count, ¬ k.RunsUsleepCb t) : ¬ k.WakePending tok := by
  rintro ((⟨n, hn, -⟩ | ⟨n, hn, -⟩) | ⟨t, -, -, hmem⟩)
  · rw [htimer] at hn
    cases hn
  · rw [htask] at hn
    cases hn
  · exact hstacks t (hs.lt_of_mem hmem) (List.any_eq_true.mpr ⟨_, hmem, rfl⟩)

/-- **A wake-up is lost.**  The timer expires before the program blocks: its callback finds the
program `RUNNING`, and nobody wakes it afterwards. -/
theorem lost_of_earlyTick : ∃ k tok, Reachable step anyStep (boot 10000000) k ∧ k.InUsleep tok ∧
    k.state tok.t = .blocked ∧ ¬ k.WakePending tok := by
  have hrun : (runList step (boot 10000000) (usleepRun ++ [.tick 10, .interrupt true] ++
      List.replicate 9 (.run {}))).map (fun k => (decide (k.InUsleep ⟨2, 0⟩), k.state 2,
        k.gTimerQueue, k.gTaskQueue, decide (∀ t < k.count, ¬ k.RunsUsleepCb t))) =
      some (true, .blocked, [], [], true) := by decide +kernel
  obtain ⟨k, hk, hv⟩ := Option.map_eq_some_iff.mp hrun
  simp only [Prod.mk.injEq] at hv
  obtain ⟨hin, hblocked, htimer, htask, hstacks⟩ := hv
  have hreach := reachable_of_runList hk
  exact ⟨k, ⟨2, 0⟩, hreach, of_decide_eq_true hin, hblocked,
    not_wakePending (stacked_of_reachable hreach) htimer htask (of_decide_eq_true hstacks)⟩

end Kernel
end Sched
end OscKernel
