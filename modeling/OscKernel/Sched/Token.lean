import OscKernel.Sched.Handoff

/-!
# The token of a sleeper (`struct usleep_token`)

The token lies in the frame of `sys_usleep`, and the timer keeps its address.  A child that exits
wakes its parent whatever the parent waits for, so `sys_usleep` may return before its timer.

* `Kernel.TokensKept`: nobody but its own callback wakes a sleeper, no sleeper is freed while its
  token is on a queue, and `schedule` does not come back to a `BLOCKED` caller.
* `Kernel.tokens_of_reachable`: in runs of such steps every token on a queue belongs to a call of
  `sys_usleep` that has not returned, and `sys_usleep` returns after its callback has run.
* `Kernel.dangling_of_exit`: a child exits, and its parent leaves `sys_usleep` with the token on the
  queue.

## Counting

Every call of `sys_usleep` has a number, and its callback is on one of the two queues, or in
progress on some stack, at most once altogether (`Tokens.once`).  When it has run it is nowhere, and
is never anywhere again, because a new call has a new number.  The argument needs only these counts,
whatever the threads and the interrupts do.

A call that has blocked and whose callback has not run sleeps: its thread is on no run queue, no
`switch_to` is on its way to it, and if it has the processor it is inside `schedule`, about to lose
it (`Asleep`).  Each step that could end this is a clause of `TokensKept`.

## The conditions

They are on the state before a step and on the call that goes on: a wake-up for a thread that sleeps
and whose callback is still to run, the release of a thread with a token on a queue, and a
`schedule` that comes back to a caller that is `BLOCKED`.
-/

namespace OscKernel
namespace Sched

open Transition

/-- The callback is `usleep_cb` for the call `n`. -/
def Callback.wakes (n : ℕ) : Callback → Bool
  | .usleepCb tok => tok.call == n
  | _ => false

/-- The callback is `usleep_cb` for a token of `t`. -/
def Callback.isFor (t : Tid) : Callback → Bool
  | .usleepCb tok => tok.t == t
  | _ => false

/-- `sys_usleep` has blocked, and its callback is not among those that have run. -/
def Frame.awaits (ran : List ℕ) : Frame → Bool
  | .sysUsleep tok .blocked => decide (tok.call ∉ ran)
  | _ => false

namespace Kernel

variable (k : Kernel)

/-- The current thread, with the calls `fs`, neither wakes a sleeper in place of its callback, nor
frees one whose token is on a queue, nor comes back from `schedule` while it is `BLOCKED`. -/
def keepsTokens : List Frame → Bool
  | .threadWakeup par :: _ => k.state par != .blocked || !(k.stack par).any (Frame.awaits k.ran)
  | .idleThreadBody :: _ =>
      (k.gZombies.head?.filter (· ≠ gBootstrap)).all fun z => k.waiting (Callback.isFor z) == 0
  | fs => k.leavesCpu fs

/-- The guard of the runs in which every token belongs to a sleeper. -/
def TokensKept : Label → Prop
  | .run _ => k.keepsTokens (k.stack k.current) = true
  | _ => True

instance : ∀ a, Decidable (k.TokensKept a)
  | .run _ => inferInstanceAs (Decidable (_ = _))
  | .tick _ | .interrupt _ => isTrue trivial

/-- How often the callback of the call `n` is on the queues or in progress. -/
def uses (n : ℕ) : ℕ := k.waiting (Callback.wakes n) + k.total (Frame.runs (Callback.wakes n))

/-- The thread `t` sleeps: it is not going to get the CPU, or has it to give it up. -/
structure Asleep (t : Tid) : Prop where
  runq : t ∉ k.gRunq
  state : k.state t = .blocked ∨ k.state t = .zombie ∧ t ≠ k.current
  target : ∀ u fl, .switchTo fl t ∉ k.stack u
  current : t = k.current → ∃ g ∈ k.stack t, g.inSchedule = true

/-- The calls of `sys_usleep` are on the stacks of their threads. -/
def OwnCalls : Prop := ∀ t tok pc, .sysUsleep tok pc ∈ k.stack t → tok.t = t

/-- What holds of the tokens. -/
structure Tokens : Prop where
  own : k.OwnCalls
  queued : ∀ tok, k.Queued tok → k.InUsleep tok ∧ tok.t ∉ k.freed
  once : ∀ n, k.uses n ≤ 1
  fresh : ∀ n, k.calls ≤ n → k.uses n = 0
  ran : ∀ n ∈ k.ran, n < k.calls ∧ k.uses n = 0
  asleep : ∀ tok, .sysUsleep tok .blocked ∈ k.stack tok.t → tok.call ∉ k.ran → k.Asleep tok.t

variable {k} {k' : Kernel} {c : Choice} {f g : Frame} {fs rest : List Frame} {t : Tid}
  {tok tok' : UsleepToken} {pc pc' : UsleepPc}

/-! ## The calls of `sys_usleep` -/

/-- A thread is in one call of `sys_usleep` at most. -/
theorem Stacked.usleep_unique (hs : k.Stacked) (h : .sysUsleep tok pc ∈ k.stack t)
    (h' : .sysUsleep tok' pc' ∈ k.stack t) : tok = tok' ∧ pc = pc' := by
  have hsleeps : ∀ tok pc, (Frame.sysUsleep tok pc).Sleeps := fun _ _ => trivial
  obtain ⟨above, below, heq⟩ := List.append_of_mem h
  have hchain := heq ▸ hs.chain t
  rw [heq] at h'
  rcases List.mem_append.mp h' with h' | h'
  · -- the other call would be above this one
    obtain ⟨a, b, rfl⟩ := List.append_of_mem h'
    rw [List.append_assoc] at hchain
    have htail := (List.isChain_append.mp hchain).2.1
    have hmem : Frame.sysUsleep tok pc ∈ b ++ Frame.sysUsleep tok pc :: below :=
      List.mem_append_right _ List.mem_cons_self
    exact (Frame.base_of_isChain (Or.inl (hsleeps tok' pc')) htail _ hmem).elim
  · rcases List.mem_cons.mp h' with h' | h'
    · obtain ⟨rfl, rfl⟩ := Frame.sysUsleep.inj h'
      exact ⟨rfl, rfl⟩
    · have htail := (List.isChain_append.mp hchain).2.1
      exact (Frame.base_of_isChain (Or.inl (hsleeps tok pc)) htail _ h').elim

/-- A step of the current thread keeps the calls of `sys_usleep` on the stacks of their threads. -/
theorem OwnCalls.run (h : k.OwnCalls) (hstack : k.stack k.current = f :: rest)
    (heffect : Effect k c f k' fs) : (k'.setStack k.current (fs ++ rest)).OwnCalls := by
  intro t tok pc hmem
  rcases heffect.mem_stack hmem with ⟨rfl, hfs | hrest⟩ | ⟨-, hold⟩ | ⟨-, hg | hg⟩
  · rcases heffect.mem_sysUsleep hfs with ⟨-, rfl, -⟩ | ⟨-, rfl⟩
    · rfl
    · exact h _ _ _ (hstack ▸ List.mem_cons_self)
  · exact h _ _ _ (hstack ▸ List.mem_cons_of_mem _ hrest)
  · exact h _ _ _ hold
  · cases hg
  · cases hg

/-- What `sys_usleep` does to block. -/
theorem Effect.of_registered (h : Effect k c (.sysUsleep tok .registered) k' fs) :
    k' = k.threadBlock ∧ fs = [.schedule, .sysUsleep tok .blocked] := by
  cases h with
  | blockUsleep => exact ⟨rfl, rfl⟩
  | go hf | yield hf => exact hf.elim
  | task _ _ _ _ hf => exact hf.elim
  | create hf | createFailed hf => exact hf.1.elim
  | stop _ _ hf => exact hf.1.elim
  | blockWait hf | collect hf => rcases hf with h | h <;> cases h
  | kill hf => rcases hf with ⟨s, pc, h⟩ | ⟨s, pc, h⟩ <;> cases h

/-- The calls of `sys_usleep` are numbered, and a callback that has run is remembered. -/
theorem Effect.calls_ran (h : Effect k c f k' fs) : k.calls ≤ k'.calls ∧
    (k'.ran = k.ran ∨ ∃ tok, f = .callback (.usleepCb tok) ∧ k'.ran = tok.call :: k.ran) := by
  have hquiet : Quiet k k' → k.calls ≤ k'.calls ∧ (k'.ran = k.ran ∨
      ∃ tok, f = .callback (.usleepCb tok) ∧ k'.ran = tok.call :: k.ran) := fun hq =>
    ⟨Nat.le_of_eq hq.calls.symm, Or.inl hq.ran⟩
  cases h with
  | go _ _ _ _ h | yield _ _ _ _ h | woken h => exact hquiet h.quiet
  | timer _ _ _ _ h | task _ _ _ _ _ _ _ _ h | expire _ _ _ _ _ _ _ h | expireNow _ _ _ h
  | start _ _ _ h | create _ _ _ _ h | createFailed _ _ _ h =>
    exact ⟨Nat.le_of_eq h.calls.symm, Or.inl h.ran⟩
  | register q _ _ h => exact ⟨h.calls ▸ Nat.le_succ _, Or.inl h.ran⟩
  | @fired tok =>
    have hq := quiet_threadWakeup k tok.t
    exact ⟨Nat.le_of_eq hq.calls.symm, Or.inr ⟨tok, rfl, congrArg _ rfl⟩⟩
  | blockUsleep | blockWait => exact hquiet (quiet_threadBlock k)
  | wakeup => exact hquiet (quiet_threadWakeup k _)
  | stay h =>
    have hq := quiet_schedule k
    rw [h] at hq
    exact hquiet hq
  | choose h =>
    have hq := quiet_schedule k
    rw [h] at hq
    exact hquiet hq
  | switch => exact ⟨Nat.le_refl _, Or.inl rfl⟩
  | exit status => exact hquiet (quiet_sysExit k status)
  | kill => exact hquiet (quiet_terminate k _)
  | stop pid t _ _ _ _ _ h => exact hquiet ((quiet_terminate k t).trans h.quiet)
  | threadExit => exact hquiet (quiet_threadExit k)
  | collect _ _ _ h => exact hquiet ((quiet_collect k _).trans h.quiet)
  | reap h =>
    obtain ⟨z, zs, -, rfl⟩ := killZombie_eq_some h
    exact ⟨Nat.le_refl _, Or.inl rfl⟩

/-! ## How often a callback is used -/

/-- Nobody else uses the callback of a call that has run, and a new call has a new callback. -/
theorem Effect.uses (h : Effect k c f k' fs) (hs : k.Stacked)
    (hstack : k.stack k.current = f :: rest) (n : ℕ) :
    (k'.setStack k.current (fs ++ rest)).uses n + (if f.runs (Callback.wakes n) then 1 else 0) =
        k.uses n ∨
      k'.calls = k.calls + 1 ∧ (∀ tok, f ≠ .callback (.usleepCb tok)) ∧
        (k'.setStack k.current (fs ++ rest)).uses n = k.uses n + if n = k.calls then 1 else 0 := by
  have htotal := h.total (p := Frame.runs (Callback.wakes n)) hs hstack rfl rfl
  have hp : ∀ cb, Callback.wakes n cb = true → ∃ tok, cb = .usleepCb tok := fun cb hcb => by
    cases cb with
    | usleepCb tok => exact ⟨tok, rfl⟩
    | _ => cases hcb
  have huses : (k'.setStack k.current (fs ++ rest)).uses n = k'.waiting (Callback.wakes n) +
      (k'.setStack k.current (fs ++ rest)).total (Frame.runs (Callback.wakes n)) := rfl
  rw [huses]
  unfold Kernel.uses
  rcases h.waiting hp with hwaiting | ⟨⟨⟨s, usec, rfl⟩, hcalls, -⟩, hfs, hwaiting⟩
  · exact Or.inl (by omega)
  · refine Or.inr ⟨hcalls, nofun, ?_⟩
    have hnew : Callback.wakes n (.usleepCb ⟨k.current, k.calls⟩) = true ↔ n = k.calls :=
      beq_iff_eq.trans eq_comm
    simp only [hnew] at hwaiting
    simp only [Frame.runs, Bool.false_eq_true, if_false] at htotal
    omega

/-! ## The sleepers -/

/-- The run queue and the state of a sleeper after a step that is not its callback. -/
theorem Asleep.turn (h : k.Asleep t) (hs : k.Stacked)
    (hmem : .sysUsleep tok .blocked ∈ k.stack t) (hrest : t = k.current → ¬ f.Sleeps ∧ ¬ f.Base)
    (hwoken : k.state t = .blocked →
      f ≠ .threadWakeup t ∧ ∀ tok : UsleepToken, tok.t = t → f ≠ .callback (.usleepCb tok))
    {s : Tid → ThreadState} {q : List Tid} (hturn : Turn k c f fs s q) :
    t ∉ q ∧ (s t = .blocked ∨ s t = .zombie ∧ t ≠ k.current) := by
  have hready : k.state t ≠ .ready ∧ k.state t ≠ .running := by
    rcases h.state with h | ⟨h, -⟩ <;> rw [h] <;> exact ⟨nofun, nofun⟩
  have hborn := Nat.ne_of_lt (hs.lt_of_mem hmem)
  have hpush : ∀ {u}, t ≠ u → t ∉ k.gRunq ++ [u] := fun hu hq =>
    (List.mem_append.mp hq).elim h.runq fun hq => hu (List.mem_singleton.mp hq)
  cases hturn with
  | same => exact ⟨h.runq, h.state⟩
  | born => exact ⟨hpush hborn, by rw [Function.update_of_ne hborn]; exact h.state⟩
  | woken u hblocked hf =>
    have hne : t ≠ u := by
      rintro rfl
      obtain ⟨hno, hno'⟩ := hwoken hblocked
      rcases hf with hf | ⟨tok, ht, hf⟩
      · exact hno hf
      · exact hno' tok ht hf
    exact ⟨hpush hne, by rw [Function.update_of_ne hne]; exact h.state⟩
  | blocks hf =>
    have hne : t ≠ k.current := fun ht => (hrest ht).1 hf
    exact ⟨h.runq, by rw [Function.update_of_ne hne]; exact h.state⟩
  | ends hf hq =>
    have hne : t ≠ k.current := fun ht => (hrest ht).2 hf
    exact ⟨fun ht => h.runq (hq.subset ht), by rw [Function.update_of_ne hne]; exact h.state⟩
  | stopped u hf =>
    refine ⟨fun ht => h.runq ?_, ?_⟩
    · split_ifs at ht
      · exact List.mem_of_mem_erase ht
      · exact ht
    · rw [Function.update_apply]
      split_ifs
      · exact Or.inr ⟨rfl, fun ht => (hrest ht).2 hf⟩
      · exact h.state
  | alone =>
    refine ⟨List.not_mem_nil, ?_⟩
    split_ifs with hr
    · have hne : t ≠ k.current := by
        rintro rfl
        exact hready.1 hr
      rw [Function.update_of_ne hne]
      exact h.state
    · exact h.state
  | @takes s next q _ hpark =>
    have hnot : t ∉ next :: q := fun ht => (hpark.mem ht).elim h.runq fun h =>
      hready.2 h.2
    have hne : t ≠ next := fun ht => hnot (ht ▸ List.mem_cons_self)
    rw [Function.update_of_ne hne, hpark.of_not_running hready.2]
    exact ⟨fun ht => hnot (List.mem_cons_of_mem _ ht), h.state⟩

/-- A sleeper goes on sleeping until its callback has run. -/
theorem Asleep.run (h : k.Asleep t) (hs : k.Stacked) (hstack : k.stack k.current = f :: rest)
    (hmem : .sysUsleep tok .blocked ∈ k.stack t) (hrest : t = k.current → ¬ f.Sleeps ∧ ¬ f.Base)
    (hwoken : k.state t = .blocked →
      f ≠ .threadWakeup t ∧ ∀ tok : UsleepToken, tok.t = t → f ≠ .callback (.usleepCb tok))
    (heffect : Effect k c f k' fs) (hleaves : k.leavesCpu (f :: rest) = true) :
    (k'.setStack k.current (fs ++ rest)).Asleep t := by
  obtain ⟨hrunq, hstate⟩ := h.turn hs hmem hrest hwoken heffect.turn
  have hcurrent : t = k'.current → t = k.current ∧ k'.current = k.current := fun ht => by
    rcases heffect.current with hcurrent | ⟨fl, hswitch, -⟩
    · exact ⟨ht.trans hcurrent, hcurrent⟩
    · refine absurd ?_ (h.target k.current fl)
      rw [hstack, hswitch, ← ht]
      exact List.mem_cons_self
  refine ⟨hrunq, ?_, fun u fl hmem' => ?_, fun ht => ?_⟩
  · exact hstate.imp_right fun h => ⟨h.1, fun ht => h.2 (hcurrent ht).1⟩
  · rcases heffect.mem_stack hmem' with ⟨-, hfs | hrest'⟩ | ⟨-, hu⟩ | ⟨-, hg | hg⟩
    · obtain ⟨-, hq, -⟩ := heffect.turn.of_switchTo (heffect.target hfs).1 hfs
      exact h.runq hq
    · exact h.target k.current fl (hstack ▸ List.mem_cons_of_mem _ hrest')
    · exact h.target u fl hu
    · cases hg
    · cases hg
  · obtain ⟨rfl, -⟩ := hcurrent ht
    have hblocked : k'.state k.current = .blocked := hstate.resolve_right fun hz => hz.2 rfl
    rw [stack_setStack, if_pos rfl]
    obtain ⟨g, hg, hin⟩ := h.current rfl
    rw [hstack] at hg
    rcases List.mem_cons.mp hg with rfl | hg
    · cases g with
      | schedule => exact heffect.turn.inSchedule hleaves (Or.inr hblocked)
      | switchTo fl n =>
        -- `switch_to` has another target
        have hn : n = k.current := by
          rw [heffect.of_switchTo.1] at ht
          exact ht.symm
        refine absurd ?_ (h.target k.current fl)
        rw [hstack, hn]
        exact List.mem_cons_self
      | _ => cases hin
    · exact ⟨g, List.mem_append_right _ hg, hin⟩

/-! ## The tokens -/

theorem one_le_waiting {p : Callback → Bool} (h : k.Queued tok) (hp : p (.usleepCb tok) = true) :
    1 ≤ k.waiting p := by
  have hpos : 0 < k.gTimerQueue.countP (fun n => p n.cb) ∨
      0 < k.gTaskQueue.countP (fun n => p n.cb) :=
    h.imp (fun ⟨n, hn, hcb⟩ => List.countP_pos_iff.mpr ⟨n, hn, hcb ▸ hp⟩)
      fun ⟨n, hn, hcb⟩ => List.countP_pos_iff.mpr ⟨n, hn, hcb ▸ hp⟩
  unfold waiting
  omega

/-- A token comes to the queues from `sys_usleep`. -/
theorem Effect.queued (h : Effect k c f k' fs) (hq : k'.Queued tok) : k.Queued tok ∨
    (∃ s usec, f = .ecall s (.doSyscall (.usleep usec))) ∧ tok = ⟨k.current, k.calls⟩ ∧
      .sysUsleep tok .registered ∈ fs := by
  have hone := queued_iff.mp hq
  rcases h.waiting (p := (· == .usleepCb tok)) fun cb hcb => ⟨tok, beq_iff_eq.mp hcb⟩ with
    hwaiting | ⟨⟨hf, -, hmem⟩, -, hwaiting⟩
  · exact Or.inl (queued_iff.mpr (by omega))
  · split_ifs at hwaiting with htok
    · obtain rfl := (Callback.usleepCb.inj (beq_iff_eq.mp htok)).symm
      exact Or.inr ⟨hf, rfl, hmem⟩
    · exact Or.inl (queued_iff.mpr (by omega))

/-- **`sys_usleep` returns after its callback has run.** -/
theorem Tokens.returned (h : k.Tokens) (hs : k.Stacked)
    (hstack : k.stack k.current = .sysUsleep tok .blocked :: rest) : tok.call ∈ k.ran := by
  by_contra hran
  have hmem : .sysUsleep tok .blocked ∈ k.stack k.current := hstack ▸ List.mem_cons_self
  have ht := h.own _ _ _ hmem
  obtain ⟨g, hg, hin⟩ := (h.asleep tok (ht ▸ hmem) hran).current ht
  rw [ht, hstack] at hg
  have hsleeps : (Frame.sysUsleep tok .blocked).Sleeps := trivial
  rcases List.mem_cons.mp hg with rfl | hg
  · cases hin
  · have hbase := Frame.base_of_isChain (Or.inl hsleeps) (hstack ▸ hs.chain k.current) g hg
    rw [Frame.Base.not_inSchedule (Or.inr hbase)] at hin
    cases hin

theorem leavesCpu_of_keepsTokens (h : k.keepsTokens fs = true) : k.leavesCpu fs = true := by
  unfold keepsTokens at h
  split at h
  · rfl
  · rfl
  · exact h

/-- The owner of a token that is queued stays in its call, and is not freed. -/
theorem Tokens.queued_run (h : k.Tokens) (hs : k.Stacked)
    (hstack : k.stack k.current = f :: rest) (heffect : Effect k c f k' fs)
    (hG : k.keepsTokens (f :: rest) = true) (hq : k'.Queued tok) :
    (k'.setStack k.current (fs ++ rest)).InUsleep tok ∧ tok.t ∉ k'.freed := by
  rcases heffect.queued hq with hold | ⟨⟨s, usec, rfl⟩, rfl, hmem⟩
  · obtain ⟨hin, hfreed⟩ := h.queued tok hold
    have hlt : tok.t < k.count := hin.elim hs.lt_of_mem hs.lt_of_mem
    refine ⟨?_, fun hf => ?_⟩
    · have hkeep : ∀ pc, .sysUsleep tok pc ∈ k.stack tok.t → f ≠ .sysUsleep tok pc →
          .sysUsleep tok pc ∈ (k'.setStack k.current (fs ++ rest)).stack tok.t := fun pc hmem hne =>
        heffect.mem_stack_of_mem hs hstack hmem fun _ => hne.symm
      rcases hin with hin | hin
      · by_cases hf : f = .sysUsleep tok .registered
        · subst hf
          have ht := h.own _ _ _ (hstack ▸ List.mem_cons_self)
          refine Or.inr ?_
          rw [stack_setStack, if_pos ht, heffect.of_registered.2]
          exact List.mem_cons_of_mem _ List.mem_cons_self
        · exact Or.inl (hkeep _ hin hf)
      · by_cases hf : f = .sysUsleep tok .blocked
        · -- the call returns, but then its token is not queued any more
          subst hf
          have hzero := (h.ran _ (h.returned hs hstack)).2
          have hone := one_le_waiting (p := Callback.wakes tok.call) hold (beq_self_eq_true _)
          unfold uses at hzero
          omega
        · exact Or.inr (hkeep _ hin hf)
    · rcases heffect.freed hf with hf | hf | ⟨rfl, hboot, zs, hz⟩
      · exact hfreed hf
      · exact Nat.ne_of_lt hlt hf
      · have hall : ((k.gZombies.head?.filter (· ≠ gBootstrap)).all
            fun z => k.waiting (Callback.isFor z) == 0) = true := hG
        have hone := one_le_waiting (p := Callback.isFor tok.t) hold (beq_self_eq_true _)
        have hzero : k.waiting (Callback.isFor tok.t) = 0 := by
          rw [hz] at hall
          simpa [hboot] using hall
        omega
  · have hcurrent : k'.current = k.current := by
      rcases heffect.current with hcurrent | ⟨fl, hswitch, -⟩
      · exact hcurrent
      · cases hswitch
    refine ⟨Or.inl ?_, hcurrent ▸ (heffect.current_not_freed hs hstack).2⟩
    rw [stack_setStack, if_pos rfl]
    exact List.mem_append_left _ hmem

/-- A call of `sys_usleep` that has blocked sleeps until its callback has run. -/
theorem Tokens.asleep_run (h : k.Tokens) (hhandoff : k.Handoff) (hs : k.Stacked)
    (hstack : k.stack k.current = f :: rest) (heffect : Effect k c f k' fs)
    (hG : k.keepsTokens (f :: rest) = true)
    (hmem : .sysUsleep tok .blocked ∈ (k'.setStack k.current (fs ++ rest)).stack tok.t)
    (hran : tok.call ∉ k'.ran) : (k'.setStack k.current (fs ++ rest)).Asleep tok.t := by
  have hsame : .sysUsleep tok .blocked ∈ k.stack tok.t →
      (tok.t = k.current → .sysUsleep tok .blocked ∈ rest) →
      (k'.setStack k.current (fs ++ rest)).Asleep tok.t := fun hold hrest => by
    have hran' : tok.call ∉ k.ran := fun hin => by
      rcases heffect.calls_ran.2 with heq | ⟨tok', -, heq⟩
      · exact hran (heq ▸ hin)
      · exact hran (heq ▸ List.mem_cons_of_mem _ hin)
    refine (h.asleep tok hold hran').run hs hstack hold (fun ht => not_or.mp fun hf => ?_)
      (fun hblocked => ⟨?_, ?_⟩) heffect (leavesCpu_of_keepsTokens hG)
    · exact hs.not_mem_of_sleeps hstack hf (hrest ht)
    · rintro rfl
      have hkept : (k.state tok.t != .blocked ||
        !(k.stack tok.t).any (Frame.awaits k.ran)) = true := hG
      have hawaits : (k.stack tok.t).any (Frame.awaits k.ran) = true :=
        List.any_eq_true.mpr ⟨_, hold, decide_eq_true hran'⟩
      rw [hblocked, hawaits] at hkept
      cases hkept
    · rintro tok' ht rfl
      obtain ⟨-, hin, -, rfl⟩ := heffect.of_usleepCb
      rw [InUsleep, ht] at hin
      obtain rfl : tok = tok' := hin.elim (fun h => (hs.usleep_unique hold h).1)
        fun h => (hs.usleep_unique hold h).1
      exact hran List.mem_cons_self
  rcases heffect.mem_stack hmem with ⟨ht, hfs | hrest⟩ | ⟨ht, hmem⟩ | ⟨-, hg | hg⟩
  · rcases heffect.mem_sysUsleep hfs with ⟨hpc, -⟩ | ⟨-, rfl⟩
    · cases hpc
    · -- the sleeper blocks
      have hsleeps : (Frame.sysUsleep tok .registered).Sleeps := trivial
      obtain ⟨rfl, rfl⟩ := heffect.of_registered
      rw [ht]
      refine ⟨(hhandoff.current_of_base hs hstack (Or.inl hsleeps)).2.2, Or.inl ?_,
        fun u fl hu => ?_, fun _ => ?_⟩
      · show (k.setState k.current .blocked).state k.current = .blocked
        rw [state_setState, if_pos rfl]
      · rcases heffect.mem_stack hu with ⟨-, hu | hu⟩ | ⟨-, hu⟩ | ⟨-, hu | hu⟩
        · simp at hu
        · exact (hhandoff.target _ fl _ (hstack ▸ List.mem_cons_of_mem _ hu)).1 rfl
        · exact (hhandoff.target u fl _ hu).1 rfl
        · cases hu
        · cases hu
      · rw [stack_setStack, if_pos rfl]
        exact ⟨.schedule, List.mem_cons_self, rfl⟩
  · exact hsame (ht ▸ hstack ▸ List.mem_cons_of_mem _ hrest) fun _ => hrest
  · exact hsame hmem fun h => absurd h ht
  · cases hg
  · cases hg

/-- The innermost call of the current thread goes on. -/
theorem Tokens.run (h : k.Tokens) (hhandoff : k.Handoff) (hs : k.Stacked)
    (hstack : k.stack k.current = f :: rest) (heffect : Effect k c f k' fs)
    (hG : k.keepsTokens (f :: rest) = true) : (k'.setStack k.current (fs ++ rest)).Tokens := by
  obtain ⟨hcalls, hran⟩ := heffect.calls_ran
  refine ⟨h.own.run hstack heffect, fun tok hq => h.queued_run hs hstack heffect hG hq,
    fun n => ?_, fun n hn => ?_, fun n hn => ?_,
    fun tok hmem hran => h.asleep_run hhandoff hs hstack heffect hG hmem hran⟩
  · have hone := h.once n
    rcases heffect.uses hs hstack n with huses | ⟨-, -, huses⟩
    · omega
    · have hfresh := h.fresh n
      split_ifs at huses with hn
      · rw [huses, hfresh (Nat.le_of_eq hn.symm)]
      · omega
  · have hfresh := h.fresh n (Nat.le_trans hcalls hn)
    rcases heffect.uses hs hstack n with huses | ⟨hnew, -, huses⟩
    · omega
    · have hne : n ≠ k.calls := by
        rintro rfl
        rw [show (k'.setStack k.current (fs ++ rest)).calls = k'.calls from rfl, hnew] at hn
        exact Nat.not_succ_le_self _ hn
      rw [huses, hfresh, if_neg hne]
  · rcases hran with heq | ⟨tok, hf, heq⟩
    · obtain ⟨hlt, hzero⟩ := h.ran n (heq ▸ hn)
      refine ⟨Nat.lt_of_lt_of_le hlt hcalls, ?_⟩
      rcases heffect.uses hs hstack n with huses | ⟨-, -, huses⟩
      · omega
      · rw [huses, hzero, if_neg (Nat.ne_of_lt hlt)]
    · rcases List.mem_cons.mp (heq ▸ hn : n ∈ tok.call :: k.ran) with rfl | hold
      · -- the only use of the callback is over
        have hruns : f.runs (Callback.wakes tok.call) = true := by
          rw [hf]
          exact beq_self_eq_true _
        rcases heffect.uses hs hstack tok.call with huses | ⟨-, hnot, -⟩
        · rw [if_pos hruns] at huses
          have hone := h.once tok.call
          have hlt : tok.call < k.calls := by
            by_contra hge
            rw [h.fresh _ (Nat.not_lt.mp hge)] at huses
            cases huses
          exact ⟨Nat.lt_of_lt_of_le hlt hcalls, by omega⟩
        · exact absurd hf (hnot tok)
      · obtain ⟨hlt, hzero⟩ := h.ran n hold
        refine ⟨Nat.lt_of_lt_of_le hlt hcalls, ?_⟩
        rcases heffect.uses hs hstack n with huses | ⟨-, -, huses⟩
        · omega
        · rw [huses, hzero, if_neg (Nat.ne_of_lt hlt)]

/-- **Every step** that keeps the tokens. -/
theorem tokens_step {a : Label} (h : k.Tokens) (hhandoff : k.Handoff) (hs : k.Stacked)
    (hG : k.TokensKept a) (hstep : step k a = some k') : k'.Tokens := by
  cases a with
  | tick d =>
    obtain rfl := Option.some.inj hstep
    exact ⟨h.own, h.queued, h.once, h.fresh, h.ran, fun tok hmem hran =>
      { h.asleep tok hmem hran with }⟩
  | interrupt timer =>
    obtain ⟨-, ipc, rfl⟩ := step_interrupt hstep
    have hold : ∀ {t tok pc}, .sysUsleep tok pc ∈ (({ k with sie := false } : Kernel).setStack
        k.current (.irq k.inUser k.sie ipc :: k.stack k.current)).stack t →
        .sysUsleep tok pc ∈ k.stack t := fun hmem =>
      (mem_stack_interrupt.mp hmem).resolve_right fun h => by cases h.2
    have huses : ∀ n, (({ k with sie := false } : Kernel).setStack k.current
        (.irq k.inUser k.sie ipc :: k.stack k.current)).uses n = k.uses n := fun n =>
      congrArg _ (total_interrupt hs rfl)
    refine ⟨fun t tok pc hmem => h.own t tok pc (hold hmem), fun tok hq => ?_,
      fun n => huses n ▸ h.once n, fun n hn => huses n ▸ h.fresh n hn,
      fun n hn => huses n ▸ h.ran n hn, fun tok hmem hran => ?_⟩
    · obtain ⟨hin, hfreed⟩ := h.queued tok hq
      exact ⟨hin.imp (fun h => mem_stack_interrupt.mpr (Or.inl h))
        fun h => mem_stack_interrupt.mpr (Or.inl h), hfreed⟩
    · have hasleep := h.asleep tok (hold hmem) hran
      refine ⟨hasleep.runq, hasleep.state, fun u fl hu => ?_, fun ht => ?_⟩
      · rcases mem_stack_interrupt.mp hu with hu | ⟨-, hu⟩
        · exact hasleep.target u fl hu
        · cases hu
      · obtain ⟨g, hg, hin⟩ := hasleep.current ht
        exact ⟨g, mem_stack_interrupt.mpr (Or.inl hg), hin⟩
  | run c =>
    obtain ⟨f, rest, k₁, fs, hstack, hrun, rfl⟩ := step_run hstep
    have hkept : k.keepsTokens (k.stack k.current) = true := hG
    exact h.run hhandoff hs hstack (run_effect hrun) (hstack ▸ hkept)

theorem tokens_boot (freq : BitVec 64) : (boot freq).Tokens := by
  have hstack : ∀ t, ∀ g ∈ (boot freq).stack t, g = .shell ∨ g = .idleThreadBody :=
      fun t g hg => by
    rcases t with _ | _ | t
    · exact Or.inl (List.mem_singleton.mp hg)
    · exact Or.inr (List.mem_singleton.mp hg)
    · cases hg
  have hnone : ∀ t tok pc, .sysUsleep tok pc ∉ (boot freq).stack t := fun t tok pc hmem => by
    rcases hstack t _ hmem with h | h <;> cases h
  have huses : ∀ n, (boot freq).uses n = 0 := fun n => by
    refine (Nat.zero_add _).trans (total_eq_zero fun t g hg => ?_)
    rcases hstack t g hg with rfl | rfl <;> rfl
  refine ⟨fun t tok pc hmem => absurd hmem (hnone t tok pc), fun tok hq => ?_,
    fun n => huses n ▸ Nat.zero_le 1, fun n _ => huses n, nofun,
    fun tok hmem => absurd hmem (hnone _ _ _)⟩
  rcases hq with ⟨n, hn, -⟩ | ⟨n, hn, -⟩ <;> cases hn

/-- **A pending token belongs to a sleeper.**  In a run whose steps keep the tokens, every token on
a queue is that of a call of `sys_usleep` that has not returned, on a stack that has not been freed,
and `sys_usleep` returns after its callback has run. -/
theorem tokens_of_reachable {freq : BitVec 64} (h : Reachable step TokensKept (boot freq) k) :
    (∀ tok, k.Queued tok → k.InUsleep tok ∧ tok.t ∉ k.freed) ∧
      ∀ tok rest, k.stack k.current = .sysUsleep tok .blocked :: rest → tok.call ∈ k.ran := by
  obtain ⟨hs, -, htokens⟩ := h.invariant (P := fun k => k.Stacked ∧ k.Handoff ∧ k.Tokens)
    ⟨stacked_boot freq, handoff_boot freq, tokens_boot freq⟩
    fun k a k' ⟨hs, hhandoff, htokens⟩ hG hstep => by
      refine ⟨stacked_step hs hstep, handoff_step hhandoff hs (fun c ha => ?_) hstep,
        tokens_step htokens hhandoff hs hG hstep⟩
      subst ha
      exact leavesCpu_of_keepsTokens hG
  exact ⟨htokens.queued, fun tok rest hstack => htokens.returned hs hstack⟩

theorem queued_of_map (h : k.gTimerQueue.map TimerNode.cb = [.usleepCb tok]) : k.Queued tok := by
  obtain ⟨n, hn, hcb⟩ := List.mem_map.mp (h ▸ List.mem_singleton_self _ :
    Callback.usleepCb tok ∈ k.gTimerQueue.map TimerNode.cb)
  exact Or.inl ⟨n, hn, hcb⟩

/-- The program sleeps; after its timer it goes on. -/
theorem tokens_of_usleepRun : ∃ k k' rest, Reachable step TokensKept (boot 10000000) k ∧
    Reachable step TokensKept (boot 10000000) k' ∧
    (k.Queued ⟨2, 0⟩ ∧ k.InUsleep ⟨2, 0⟩ ∧ 2 ∉ k.freed) ∧
    k'.stack k'.current = .sysUsleep ⟨2, 0⟩ .blocked :: rest ∧ 0 ∈ k'.ran := by
  have hrun : (runList step (boot 10000000) (usleepRun ++ List.replicate 5 (.run {}))).map
      (fun k => k.gTimerQueue.map TimerNode.cb) = some [.usleepCb ⟨2, 0⟩] := by decide +kernel
  have hrun' : (runList step (boot 10000000) (usleepRun ++ List.replicate 5 (.run {}) ++
      [.tick 10, .interrupt true] ++ List.replicate 11 (.run {}))).map
      (fun k => k.stack k.current) =
      some [.sysUsleep ⟨2, 0⟩ .blocked, .ecall true .resched, .user] := by decide +kernel
  obtain ⟨k, hk, htimer⟩ := Option.map_eq_some_iff.mp hrun
  obtain ⟨k', hk', hstack⟩ := Option.map_eq_some_iff.mp hrun'
  have hreach : Reachable step TokensKept (boot 10000000) k :=
    Reachable.of_runList hk (by decide +kernel)
  have hreach' : Reachable step TokensKept (boot 10000000) k' :=
    Reachable.of_runList hk' (by decide +kernel)
  have hqueued : k.Queued ⟨2, 0⟩ := queued_of_map htimer
  exact ⟨k, k', _, hreach, hreach', ⟨hqueued, (tokens_of_reachable hreach).1 _ hqueued⟩, hstack,
    (tokens_of_reachable hreach').2 _ _ hstack⟩

/-- A user program forks and calls `usleep(1000000)`; its child exits. -/
def exitRun : List Label :=
  [.run { command := .runUserProgram }] ++ List.replicate 6 (.run {}) ++
    [.run { syscall := .fork }] ++ List.replicate 3 (.run {}) ++
    [.run { syscall := .usleep 1000000 }] ++ List.replicate 8 (.run {}) ++
    [.run { syscall := .exit 0 }]

/-- **A token outlives its sleeper.**  The exit of the child wakes the parent, which leaves
`sys_usleep` a second early: the timer keeps the address of a frame that is gone. -/
theorem dangling_of_exit : ∃ k tok, Reachable step anyStep (boot 10000000) k ∧ k.Queued tok ∧
    ¬ k.InUsleep tok ∧ tok.call ∉ k.ran := by
  have hrun : (runList step (boot 10000000) (exitRun ++ List.replicate 10 (.run {}))).map
      (fun k => (k.gTimerQueue.map TimerNode.cb, decide (k.InUsleep ⟨2, 0⟩), k.ran)) =
      some ([.usleepCb ⟨2, 0⟩], false, []) := by decide +kernel
  obtain ⟨k, hk, hv⟩ := Option.map_eq_some_iff.mp hrun
  simp only [Prod.mk.injEq] at hv
  obtain ⟨htimer, hin, hran⟩ := hv
  exact ⟨k, ⟨2, 0⟩, reachable_of_runList hk, queued_of_map htimer, of_decide_eq_false hin,
    hran ▸ List.not_mem_nil⟩

end Kernel
end Sched
end OscKernel
