import OscKernel.Sched.Queues
import OscKernel.Lib.WaitingLine

/-!
# Round robin (`sched.c`, `syscall.c`)

The run queue is a waiting line: every call keeps the order of the threads on it, but for those that
it terminates, and puts others at its end; `schedule` takes the first one.

* `Api.Terminates`: the calls that end a thread.
* `Api.kept_call`, `Api.mem_gRunq_iff_of_call`: what a call does to the run queue before its
  `schedule`.
* `Api.patient_step`: what it does to a thread on the run queue.
* `Api.schedule_roundRobin`: the bound on the wait, and that nobody overtakes.

## From one call to a run

What a call does to the run queue up to its `schedule` is said for all calls at once: it takes its
victim off and puts others at the end.  With the head that `schedule` takes, a thread on the queue
has been dispatched, or is on it still with fewer threads in front (`patient_step`), and those in
front were there before in the same order.

Runs of such waiting lines are the subject of `OscKernel.Lib.WaitingLine`, which knows nothing of
threads.  The log of a run is the list of what its calls of `schedule` decide; the bound, the order
and the alternation are statements about this log.

## The conditions

The thread is not terminated before it is dispatched (`Stays`); a thread that is has left the queue.
The run queue has no bound in the source, and neither has the position of a thread here.  Which
calls there are, and where they stop, is said in `OscKernel.Sched.Api`.
-/

namespace OscKernel
namespace Sched

open Transition WaitingLine
open scoped List

namespace Kernel

variable {k : Kernel} {bare : List Tid} {t u : Tid}

/-! ## The run queue -/

theorem isPrefix_gRunq_threadWakeup : k.gRunq <+: (k.threadWakeup t).gRunq := by
  unfold threadWakeup
  split_ifs
  · exact List.prefix_append k.gRunq [t]
  · exact List.prefix_refl k.gRunq

theorem isPrefix_gRunq_wakeupParent : k.gRunq <+: (k.wakeupParent t).gRunq := by
  unfold wakeupParent
  cases k.parent t with
  | none => exact List.prefix_refl k.gRunq
  | some par => exact isPrefix_gRunq_threadWakeup

theorem isPrefix_gRunq_threadCreate (ok : Bool) : k.gRunq <+: (k.threadCreate ok).gRunq := by
  cases ok with
  | false => exact List.prefix_refl k.gRunq
  | true => exact List.prefix_append k.gRunq [k.count]

theorem isPrefix_gRunq_newUserThread (ok okImage : Bool) :
    k.gRunq <+: (k.newUserThread ok okImage).1.gRunq := by
  unfold newUserThread
  cases ok with
  | false => exact List.prefix_refl k.gRunq
  | true =>
    cases okImage with
    | false => exact List.prefix_refl k.gRunq
    | true => exact List.prefix_append k.gRunq [k.count]

theorem isPrefix_gRunq_enqueueReady (image link : Bool) :
    k.gRunq <+: (k.enqueueReady t image link).gRunq := by
  cases link with
  | false => exact List.prefix_append k.gRunq [t]
  | true =>
    have hlink : ((k.modify t fun x => { x with image := image }).linkParent t).gRunq =
        k.gRunq := by
      unfold linkParent
      split <;> rfl
    exact hlink ▸ List.prefix_append _ [t]

/-- `sys_exit` of the current thread takes nobody off the run queue. -/
theorem isPrefix_gRunq_exitCurrent (status : BitVec 64) :
    k.gRunq <+: (k.exitCurrent status).gRunq := by
  have hexit : (k.sysExit status).gRunq = k.gRunq := (exiting_same status).2.2.1
  exact hexit ▸ isPrefix_gRunq_wakeupParent

/-- A termination takes at most its victim off the run queue. -/
theorem kept_terminateThread (h : k.gRunq.Nodup) :
    Kept k.gRunq (k.terminateThread t).gRunq (· = t) := by
  have hrunq : (k.terminate t).gRunq = k.gRunq.erase t ∨ (k.terminate t).gRunq = k.gRunq := by
    rw [terminate_eq]
    show (if _ then _ else _) = _ ∨ (if _ then _ else _) = _
    split_ifs
    · exact Or.inl rfl
    · exact Or.inr rfl
  refine ⟨(k.terminate t).gRunq, ?_, isPrefix_gRunq_wakeupParent, fun u hu hut => ?_⟩
  · rcases hrunq with h | h <;> rw [h]
    exact List.erase_sublist
  · rcases hrunq with h' | h' <;> rw [h']
    · exact h.mem_erase_iff.mpr ⟨hut, hu⟩
    · exact hu

/-- `schedule` appends the current thread if it is still `RUNNING`, and takes the first thread. -/
theorem Sound.schedule_eq (h : k.Sound bare) : ∃ next rest, k.gRunq <+: next :: rest ∧
    k.schedule.2 = some next ∧ k.reschedule.gRunq = rest ∧ k.reschedule.current = next := by
  obtain ⟨-, -, next, rest, hq⟩ := h.park
  refine ⟨next, rest, ?_, ?_, ?_⟩
  · rw [← hq]
    split_ifs
    · exact List.prefix_append k.gRunq [k.current]
    · exact List.prefix_refl k.gRunq
  · unfold schedule
    dsimp only
    rw [hq]
  · rw [reschedule_eq rfl hq]
    exact ⟨rfl, rfl⟩

end Kernel

namespace Api

variable {s s' : Api} {c : Call} {t : Tid}

/-! ## Calls -/

/-- The call stops or terminates the thread `t`, or is the one by which it ends itself. -/
def Terminates (s : Api) (t : Tid) : Call → Prop
  | .threadExit => t = s.k.current
  | .sysExit _ => t = s.k.current
  | .sysStop pid =>
      if pid.setWidth 32 = (s.k.thread s.k.current).pid then t = s.k.current
      else s.k.stopTarget (pid.setWidth 32) = some t
  | .shellStopPid pid => s.k.stopTarget pid = some t
  | .signalDefaultTerminate u => t = u
  | _ => False

/-- What the `schedule` of a call, if there is one, decides: the thread that gets the processor. -/
def dispatched (s : Api) (c : Call) : List (Option Tid) :=
  match s.call c with
  | some (r, true) => [r.k.schedule.2]
  | _ => []

theorem kept_stopTarget {pid : BitVec 32} {r : Api × Bool} (h : s.k.Running s.bare)
    (hr : s.stopTarget pid = some r) :
    Kept s.k.gRunq r.1.k.gRunq (s.k.stopTarget pid = some ·) := by
  unfold stopTarget at hr
  cases ht : s.k.stopTarget pid with
  | none =>
    rw [ht] at hr
    obtain rfl := Option.some.inj hr
    exact .of_isPrefix (List.prefix_refl s.k.gRunq)
  | some u =>
    rw [ht] at hr
    dsimp only at hr
    split_ifs at hr
    obtain rfl := Option.some.inj hr
    obtain ⟨r, hsub, hnew, hmem⟩ := Kernel.kept_terminateThread (t := u) h.runq_nodup
    exact ⟨r, hsub, hnew, fun t ht hne => hmem t ht fun heq => hne (heq ▸ rfl)⟩

/-- **Every call keeps the order of the run queue** up to its `schedule`: only a thread that it
terminates leaves the queue, and others come in at its end. -/
theorem kept_call {r : Api × Bool} (h : s.k.Running s.bare) (hr : s.call c = some r) :
    Kept s.k.gRunq r.1.k.gRunq (s.Terminates · c) := by
  cases c with
  | threadCreate ok =>
    obtain rfl := Option.some.inj hr
    exact .of_isPrefix (Kernel.isPrefix_gRunq_threadCreate ok)
  | threadAllocBare ok =>
    obtain rfl := Option.some.inj hr
    cases ok <;> exact .of_isPrefix (List.prefix_refl s.k.gRunq)
  | threadEnqueueReady t image link =>
    rw [call] at hr
    split_ifs at hr
    obtain rfl := Option.some.inj hr
    exact .of_isPrefix (Kernel.isPrefix_gRunq_enqueueReady image link)
  | discard t =>
    rw [call] at hr
    split_ifs at hr
    obtain rfl := Option.some.inj hr
    exact .of_isPrefix (List.prefix_refl s.k.gRunq)
  | newUserThread ok okImage =>
    obtain rfl := Option.some.inj hr
    exact .of_isPrefix (Kernel.isPrefix_gRunq_newUserThread ok okImage)
  | schedule =>
    obtain rfl := Option.some.inj hr
    exact .of_isPrefix (List.prefix_refl s.k.gRunq)
  | threadBlock =>
    rw [call] at hr
    split_ifs at hr
    obtain rfl := Option.some.inj hr
    exact .of_isPrefix (List.prefix_refl s.k.gRunq)
  | threadWakeup t =>
    rw [call] at hr
    split_ifs at hr
    obtain rfl := Option.some.inj hr
    exact .of_isPrefix Kernel.isPrefix_gRunq_threadWakeup
  | threadExit =>
    rw [call] at hr
    split_ifs at hr
    obtain rfl := Option.some.inj hr
    exact .of_isPrefix (List.prefix_refl s.k.gRunq)
  | sysExit status =>
    rw [call] at hr
    split_ifs at hr
    obtain rfl := Option.some.inj hr
    exact .of_isPrefix (Kernel.isPrefix_gRunq_exitCurrent status)
  | sysStop pid =>
    rw [call] at hr
    split_ifs at hr with _ hpid
    · obtain rfl := Option.some.inj hr
      exact .of_isPrefix (Kernel.isPrefix_gRunq_exitCurrent (-1))
    · obtain ⟨q, hsub, hnew, hmem⟩ := kept_stopTarget h hr
      refine ⟨q, hsub, hnew, fun t ht hne => hmem t ht fun heq => hne ?_⟩
      show if _ then _ else _
      rw [if_neg hpid]
      exact heq
  | shellStopPid pid =>
    rw [call] at hr
    split_ifs at hr
    exact kept_stopTarget h hr
  | signalDefaultTerminate u =>
    rw [call] at hr
    split_ifs at hr <;> obtain rfl := Option.some.inj hr <;>
      exact Kernel.kept_terminateThread h.runq_nodup
  | schedZombify t =>
    rw [call] at hr
    split_ifs at hr
    obtain rfl := Option.some.inj hr
    exact .of_isPrefix (List.prefix_refl s.k.gRunq)
  | killZombies =>
    rw [call] at hr
    split_ifs at hr
    obtain rfl := Option.some.inj hr
    unfold Kernel.killZombie
    cases s.k.gZombies <;> exact .of_isPrefix (List.prefix_refl s.k.gRunq)

/-- The victim of a termination is not on the run queue afterwards. -/
theorem notMem_terminateThread (h : s.k.Running s.bare) (hlive : s.k.Live t)
    (himage : (s.k.thread t).image = true) (hpar : s.k.ParentLive t) :
    t ∉ (s.k.terminateThread t).gRunq := by
  intro hm
  have hzombie : (s.k.terminate t).state t = .zombie := by
    rw [Kernel.state_terminate, if_pos rfl]
  have hstate : (s.k.terminateThread t).state t = .zombie :=
    (Kernel.state_wakeupParent_of_ne (by simp [hzombie])).trans hzombie
  have hready := (((h.terminateThread hlive himage hpar).1.mem_runq t).mp hm).2.1
  simp [hstate] at hready

theorem notMem_stopTarget {pid : BitVec 32} {r : Api × Bool} (h : s.k.Running s.bare)
    (ht : s.k.stopTarget pid = some t) (hr : s.stopTarget pid = some r) : t ∉ r.1.k.gRunq := by
  unfold stopTarget at hr
  rw [ht] at hr
  dsimp only at hr
  split_ifs at hr with hpar
  obtain rfl := Option.some.inj hr
  obtain ⟨hreach, -, himage⟩ := Kernel.stopTarget_some ht
  exact notMem_terminateThread h (h.live_of_reaches hreach) himage hpar

/-- A thread leaves the run queue, up to the `schedule` of a call, exactly when it is terminated. -/
theorem mem_gRunq_iff_of_call {r : Api × Bool} (h : s.k.Running s.bare) (hr : s.call c = some r)
    (ht : t ∈ s.k.gRunq) : t ∈ r.1.k.gRunq ↔ ¬ s.Terminates t c := by
  refine ⟨fun hm hterm => ?_, (kept_call h hr).mem ht⟩
  have hcurrent : t ≠ s.k.current := by
    rintro rfl
    exact h.not_ready ((h.mem_runq _).mp ht).2.1
  cases c with
  | threadExit => exact hcurrent hterm
  | sysExit status => exact hcurrent hterm
  | sysStop pid =>
    change if _ then _ else _ at hterm
    rw [call] at hr
    split_ifs at hr hterm
    · exact hcurrent hterm
    · exact notMem_stopTarget h hterm hr hm
  | shellStopPid pid =>
    rw [call] at hr
    split_ifs at hr
    exact notMem_stopTarget h hterm hr hm
  | signalDefaultTerminate u =>
    obtain rfl : t = u := hterm
    rw [call] at hr
    split_ifs at hr with hu
    obtain rfl := Option.some.inj hr
    exact notMem_terminateThread h hu.1 hu.2.1 hu.2.2 hm
  | _ => exact hterm

/-- **What a call does to a thread on the run queue** that it does not terminate: `schedule` takes
it, or it stays on the queue, and the thread that `schedule` takes was in front of it. -/
theorem patient_step (t : Tid) : Patient step (fun s => s.k.gRunq) dispatched
    (fun s c => s.Terminates t c) (fun s => s.k.Running s.bare) t := by
  intro s c s' h hs
  refine ⟨running_step h hs, fun ht hstay => ?_⟩
  obtain ⟨⟨r, b⟩, hr, rfl⟩ := Option.map_eq_some_iff.mp hs
  have hkept := kept_call h hr
  have hmem : t ∈ r.k.gRunq := hkept.mem ht hstay
  have hahead : ahead r.k.gRunq t <+ ahead s.k.gRunq t := hkept.ahead_sublist h.runq_nodup ht hstay
  cases b with
  | false =>
    have hlog : s.dispatched c = [] := by rw [dispatched, hr]
    rw [hlog]
    exact Or.inr ⟨hmem, hahead.map some⟩
  | true =>
    have hlog : s.dispatched c = [r.k.schedule.2] := by rw [dispatched, hr]
    obtain ⟨next, rest, hpre, hnext, hrest, -⟩ := (sound_call h hr).1.schedule_eq
    rw [hlog, hnext]
    by_cases hne : next = t
    · exact Or.inl ⟨hne ▸ List.mem_singleton_self _, rfl⟩
    · refine Or.inr ⟨?_, ?_⟩
      · show t ∈ r.k.reschedule.gRunq
        rw [hrest]
        exact List.mem_of_ne_of_mem (Ne.symm hne) (hpre.subset hmem)
      · -- the first thread of the queue leaves it, and was in front of `t`
        show some next :: (ahead r.k.reschedule.gRunq t).map some <+ _
        rw [hrest, ← List.map_cons, ← ahead_cons_of_ne hne, ahead_of_isPrefix hpre hmem]
        exact hahead.map some

/-- The thread to which `schedule` gives the processor is the current one afterwards. -/
theorem current_of_dispatched {u : Tid} (h : s.k.Running s.bare) (hs : s.step c = some s')
    (hu : s.dispatched c = [some u]) : s'.k.current = u := by
  obtain ⟨⟨r, b⟩, hr, rfl⟩ := Option.map_eq_some_iff.mp hs
  unfold dispatched at hu
  rw [hr] at hu
  cases b with
  | false => cases hu
  | true =>
    obtain ⟨next, -, -, hnext, -, hcurrent⟩ := (sound_call h hr).1.schedule_eq
    show r.k.reschedule.current = u
    rw [hcurrent]
    exact Option.some.inj (hnext.symm.trans (List.cons.inj hu).1)

/-- No call of the run terminates `t` before `schedule` has dispatched it. -/
def Stays (s : Api) (t : Tid) (cs : List Call) : Prop :=
  MeetsUntil step dispatched (fun s c => ¬ s.Terminates t c) (some t) s cs

/-- **Round robin**, in every run of calls from every reachable state.  A thread at position `p` of
the run queue that is not terminated meanwhile is dispatched by one of the next `p + 1` calls of
`schedule`.  Until then `schedule` dispatches threads that stood in front of it, each at most once
and in their order, and so no other thread, whenever and however it is enqueued.  Between a dispatch
of `u` and the next one of `u` every thread is dispatched that was `READY` and enqueued at the
first and is not terminated meanwhile. -/
theorem schedule_roundRobin (freq : BitVec 64) {cs : List Call}
    (hs : Reachable step anyStep (boot freq) s) (hrun : runList step s cs = some s') :
    (∀ p t, s.k.gRunq[p]? = some t → s.Stays t cs →
      (p < (runLog step dispatched s cs).length →
        some t ∈ (runLog step dispatched s cs).take (p + 1)) ∧
      (∀ l l', runLog step dispatched s cs = l ++ l' → some t ∉ l →
        l <+ (s.k.gRunq.take p).map some) ∧
      ∀ u l l', u ∉ s.k.gRunq.take p → u ≠ t →
        runLog step dispatched s cs = l ++ some u :: l' → some t ∈ l) ∧
    ∀ s₀ c u, Reachable step anyStep (boot freq) s₀ → s₀.step c = some s →
      s₀.dispatched c = [some u] →
      ∀ t, s.k.Live t → s.k.state t = .ready → t ∉ s.bare → s.Stays t cs →
        ∀ l l', runLog step dispatched s cs = l ++ some u :: l' → some t ∈ l := by
  have h := running_of_reachable hs
  refine ⟨fun p t ht hstay => ?_, fun s₀ c u hs₀ hc hu t hlive hready hbare hstay l l' hlog => ?_⟩
  · have hmem := List.mem_of_getElem? ht
    have hahead := ahead_eq_take h.runq_nodup ht
    refine ⟨(patient_step t).mem_take hrun h h.runq_nodup ht hstay, fun l l' hlog hnot => ?_,
      fun u l l' hu hne hlog => ?_⟩
    · rw [← hahead]
      exact (patient_step t).sublist_ahead hrun h hmem hstay hlog hnot
    · rw [← hahead] at hu
      exact (patient_step t).not_overtaken hrun h hmem hstay hu hne hlog
  · have hmem : t ∈ s.k.gRunq := (h.mem_runq t).mpr ⟨hlive, hready, hbare⟩
    have hcurrent : u ∉ s.k.gRunq := by
      rw [← current_of_dispatched (running_of_reachable hs₀) hc hu]
      exact fun hm => h.not_ready ((h.mem_runq _).mp hm).2.1
    refine (patient_step t).not_overtaken hrun h hmem hstay (fun hm => hcurrent ?_) ?_ hlog
    · exact (List.takeWhile_sublist _).subset hm
    · rintro rfl
      exact hcurrent hmem

/-- The idle thread starts a program, and then everyone yields in turn. -/
def everyone : List Call :=
  [.newUserThread true true, .schedule, .schedule, .schedule, .schedule, .schedule]

theorem schedule_roundRobin_everyone : ∃ s₀ s s', Reachable step anyStep (boot 320) s₀ ∧
    s₀.step .schedule = some s ∧ runList step s everyone = some s' ∧ s.k.gRunq[1]? = some 3 ∧
    some 3 ∈ (runLog step dispatched s everyone).take 2 ∧
    ∀ l l', runLog step dispatched s everyone = l ++ some 1 :: l' → some 3 ∈ l := by
  have hrun : ((runList step (boot 320) [.threadCreate true, .threadCreate true]).bind fun s₀ =>
      (s₀.step .schedule).bind fun s => (runList step s everyone).map fun _ =>
        (s.k.gRunq, s₀.dispatched .schedule, (runLog step dispatched s everyone).length)) =
      some ([2, 3, 0], [some 1], 5) := by decide +kernel
  obtain ⟨s₀, hs₀, hrun⟩ := Option.bind_eq_some_iff.mp hrun
  obtain ⟨s, hs, hrun⟩ := Option.bind_eq_some_iff.mp hrun
  obtain ⟨s', hs', hv⟩ := Option.map_eq_some_iff.mp hrun
  obtain ⟨hq, hv⟩ := Prod.mk.inj hv
  obtain ⟨hu, hlen⟩ := Prod.mk.inj hv
  have hreach₀ := reachable_of_runList hs₀
  have hreach := hreach₀.tail trivial hs
  have ht : s.k.gRunq[1]? = some 3 := by
    rw [hq]
    rfl
  have hstay : s.Stays 3 everyone :=
    ⟨id, .inr fun _ _ => ⟨id, .inr fun _ _ => ⟨id, .inr fun _ _ => ⟨id, .inr fun _ _ =>
      ⟨id, .inr fun _ _ => ⟨id, .inr fun _ _ => trivial⟩⟩⟩⟩⟩⟩
  obtain ⟨hlive, hready, hbare⟩ :=
    ((running_of_reachable hreach).mem_runq 3).mp (List.mem_of_getElem? ht)
  obtain ⟨hline, hagain⟩ := schedule_roundRobin 320 hreach hs'
  refine ⟨s₀, s, s', hreach₀, hs, hs', ht, (hline 1 3 ht hstay).1 ?_,
    hagain s₀ .schedule 1 hreach₀ hs hu 3 hlive hready hbare hstay⟩
  rw [hlen]
  decide

end Api
end Sched
end OscKernel
