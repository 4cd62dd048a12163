import OscKernel.Sched.Stacked
import Mathlib.Algebra.Order.BigOperators.Group.Finset

/-!
# What a step does to the states of the threads

`Turn` lists what the innermost call of the current thread can do to the states of the threads and
to the run queue.  The calls on all the stacks are counted by `Kernel.total`, and the callbacks that
wait on the two queues by `Kernel.waiting`.

* `Effect.turn`: there is nothing else that a step does to the states.
* `Effect.total`: a step replaces one call by others.
* `Effect.waiting`: a callback leaves the queues only to be called.

This is a view of `Effect` for the invariants about the CPU.  A turn is about the function from
threads to states and the run queue as a list; with the counts of the calls on all stacks and of the
callbacks on both queues it is enough for `OscKernel.Sched.Handoff`, `OscKernel.Sched.Token` and
`OscKernel.Sched.Usleep`.
-/

namespace OscKernel
namespace Sched

namespace Frame

/-- The calls in which a thread blocks. -/
def Sleeps : Frame → Prop
  | .sysUsleep _ _ | .sysWaitpid _ | .runUserProgram _ => True
  | _ => False

/-- The calls that stand at the bottom, or right on the user program. -/
def Base : Frame → Prop
  | .user | .idleThreadBody | .shell | .kernelThread | .irq true _ _ | .ecall _ _ => True
  | _ => False

/-- The calls in which a thread gives up the CPU. -/
def inSchedule : Frame → Bool
  | .schedule | .switchTo _ _ => true
  | _ => false

/-- The call is of a callback that meets `p`. -/
def runs (p : Callback → Bool) : Frame → Bool
  | .callback cb => p cb
  | _ => false

/-- The call is of `switch_to`, and switches to `t`. -/
def switchesTo (t : Tid) : Frame → Bool
  | .switchTo _ next => next == t
  | _ => false

variable {f g : Frame} {b : Bool} {rest : List Frame}

theorem Base.of_on (hf : f.Sleeps ∨ f.Base) (h : f.On b g) : g.Base := by
  cases f with
  | user | idleThreadBody | shell | kernelThread => exact h.elim
  | ecall => exact (show g = .user from h) ▸ trivial
  | irq user =>
    cases user with
    | true => exact (show g = .user from h) ▸ trivial
    | false => exact hf.elim False.elim False.elim
  | sysUsleep | sysWaitpid =>
    obtain ⟨s, pc, rfl⟩ := h
    trivial
  | runUserProgram => exact (show g = .shell from h) ▸ trivial
  | _ => exact hf.elim False.elim False.elim

/-- What is below a call in which a thread blocks or ends. -/
theorem base_of_isChain (hf : f.Sleeps ∨ f.Base) (h : (f :: rest).IsChain (On b)) :
    ∀ g ∈ rest, g.Base := by
  induction rest generalizing f with
  | nil => nofun
  | cons g rest ih =>
    obtain ⟨hon, htail⟩ := List.isChain_cons_cons.mp h
    have hg := Base.of_on hf hon
    exact List.forall_mem_cons.mpr ⟨hg, ih (Or.inr hg) htail⟩

theorem Base.not_inSchedule (hf : f.Sleeps ∨ f.Base) : f.inSchedule = false := by
  cases f <;> first | rfl | exact hf.elim False.elim False.elim

end Frame

namespace Kernel

variable {k k' : Kernel} {c : Choice} {f g : Frame} {fs rest : List Frame} {t : Tid}

/-! ## The states and the run queue -/

/-- The states and the run queue when `schedule` has put its caller at the end of the queue, if it
was `RUNNING`. -/
inductive Parked (k : Kernel) : (Tid → ThreadState) → List Tid → Prop where
  | ready (h : k.state k.current = .running) :
      Parked k (Function.update k.state k.current .ready) (k.gRunq ++ [k.current])
  | out (h : k.state k.current ≠ .running) : Parked k k.state k.gRunq

/-- What the call `f` does to the states of the threads and to the run queue, when the calls `fs`
replace it. -/
inductive Turn (k : Kernel) (c : Choice) (f : Frame) (fs : List Frame) :
    (Tid → ThreadState) → List Tid → Prop where
  /-- Nothing. -/
  | same (hf : f ≠ .schedule) : Turn k c f fs k.state k.gRunq
  /-- A new thread. -/
  | born (hf : f ≠ .schedule) :
      Turn k c f fs (Function.update k.state k.count .ready) (k.gRunq ++ [k.count])
  /-- `thread_wakeup`. -/
  | woken (t : Tid) (hblocked : k.state t = .blocked)
      (hf : f = .threadWakeup t ∨ ∃ tok : UsleepToken, tok.t = t ∧ f = .callback (.usleepCb tok)) :
      Turn k c f fs (Function.update k.state t .ready) (k.gRunq ++ [t])
  /-- `thread_block`. -/
  | blocks (hf : f.Sleeps) (hfs : fs = [.schedule, f] ∨ ∃ tok, f = .sysUsleep tok .registered ∧
      fs = [.schedule, .sysUsleep tok .blocked]) :
      Turn k c f fs (Function.update k.state k.current .blocked) k.gRunq
  /-- The end of the current thread. -/
  | ends (hf : f.Base) {q : List Tid} (hq : q.Sublist k.gRunq) :
      Turn k c f fs (Function.update k.state k.current .zombie) q
  /-- `sys_stop` and `shell_stop_pid`. -/
  | stopped (t : Tid) (hf : f.Base) (hvictim : k.victim c f = some t)
      (ht : t ≠ k.current ∨ f = .shell) :
      Turn k c f fs (Function.update k.state t .zombie)
        (if k.state t = .ready then k.gRunq.erase t else k.gRunq)
  /-- `schedule` with nobody on the run queue. -/
  | alone (hf : f = .schedule) (hq : k.gRunq = []) (hs : k.state k.current ≠ .running)
      (hfs : fs = [.scheduleReturn k.sie]) :
      Turn k c f fs (if k.state k.current = .ready then
        Function.update k.state k.current .running else k.state) []
  /-- `schedule` takes the head of the run queue. -/
  | takes {s : Tid → ThreadState} {next : Tid} {q : List Tid} (hf : f = .schedule)
      (hpark : Parked k s (next :: q))
      (hfs : fs = [if next = k.current then .scheduleReturn k.sie else .switchTo k.sie next]) :
      Turn k c f fs (Function.update s next .running) q

/-- The threads and the run queue are all that matters. -/
theorem turn_same (hf : f ≠ .schedule) (hstate : k'.state = k.state) (hq : k'.gRunq = k.gRunq) :
    Turn k c f fs k'.state k'.gRunq := by
  rw [hstate, hq]
  exact .same hf

theorem state_of_thread (h : k'.thread = k.thread) : k'.state = k.state := by
  funext u
  unfold state
  rw [h]

theorem state_setState_eq (s : ThreadState) :
    (k.setState t s).state = Function.update k.state t s := by
  funext u
  rw [state_setState, Function.update_apply]

theorem turn_threadWakeup (hf : f = .threadWakeup t ∨
    ∃ tok : UsleepToken, tok.t = t ∧ f = .callback (.usleepCb tok)) :
    Turn k c f fs (k.threadWakeup t).state (k.threadWakeup t).gRunq := by
  unfold threadWakeup
  split_ifs with hb
  · rw [show ((k.setState t .ready).enqueue t).state = (k.setState t .ready).state from rfl,
      state_setState_eq]
    exact .woken t hb hf
  · refine .same ?_
    rcases hf with rfl | ⟨tok, -, rfl⟩ <;> nofun

theorem state_terminate_eq : (k.terminate t).state = Function.update k.state t .zombie := by
  funext u
  rw [state_terminate, Function.update_apply]

theorem gRunq_terminate : (k.terminate t).gRunq =
    if k.state t = .ready then k.gRunq.erase t else k.gRunq := by rw [terminate_eq]

theorem base_of_victim (h : k.victim c f = some t) : f.Base := by
  cases f <;> trivial

theorem state_sysExit (status : BitVec 64) :
    (k.sysExit status).state = Function.update k.state k.current .zombie := by
  have hexiting := (exiting_same (k := k) status).2.2.2.2.2
  funext u
  rw [sysExit_eq, Function.update_apply]
  show ((modify _ _ _).thread u).state = _
  rw [thread_modify]
  split_ifs
  · rfl
  · exact hexiting u

/-- The two ways in which `schedule` goes on. -/
theorem turn_schedule {next : Option Tid} (h : k.schedule = (k', next))
    (hnone : next = none → fs = [.scheduleReturn k.sie])
    (hsome : ∀ n, next = some n →
      fs = [if n = k.current then .scheduleReturn k.sie else .switchTo k.sie n]) :
    Turn k c .schedule fs k'.state k'.gRunq := by
  have hpark : Parked k
      (if k.state k.current = .running then
        (k.setState k.current .ready).enqueue k.current else k).state
      (if k.state k.current = .running then
        (k.setState k.current .ready).enqueue k.current else k).gRunq := by
    split_ifs with hrun
    · rw [show ((k.setState k.current .ready).enqueue k.current).state =
        (k.setState k.current .ready).state from rfl, state_setState_eq]
      exact .ready hrun
    · exact .out hrun
  unfold schedule at h
  dsimp only at h
  generalize (if k.state k.current = .running then _ else k : Kernel) = k₁ at h hpark
  cases hq : k₁.gRunq with
  | nil =>
    rw [hq] at h hpark
    obtain ⟨rfl, rfl⟩ := Prod.mk.inj h
    generalize hs : k₁.state = s at hpark
    generalize hnil : ([] : List Tid) = q at hpark
    cases hpark with
    | ready => exact absurd hnil (by simp)
    | out hrun =>
      have halone : Turn k c .schedule fs _ _ := .alone rfl hnil.symm hrun (hnone rfl)
      split_ifs at halone ⊢
      · rw [state_setState_eq, hs, show (k₁.setState k.current .running).gRunq = [] from hq]
        exact halone
      · rw [hs, hq]
        exact halone
  | cons n q =>
    rw [hq] at h hpark
    obtain ⟨rfl, rfl⟩ := Prod.mk.inj h
    rw [show ({ k₁.setState n .running with gRunq := q } : Kernel).state =
      (k₁.setState n .running).state from rfl, state_setState_eq]
    exact .takes rfl hpark (hsome n rfl)

/-- **Nothing else happens to the states of the threads** and to the run queue. -/
theorem Effect.turn (h : Effect k c f k' fs) : Turn k c f fs k'.state k'.gRunq := by
  have hplain : f.Plain → f ≠ .schedule := by
    rintro hf rfl
    exact hf
  cases h with
  | go hf _ _ _ h | yield hf _ _ _ h =>
      exact turn_same (hplain hf) (state_of_thread h.thread) h.gRunq
  | task _ _ _ _ hf _ _ _ h => exact turn_same (hplain hf) (state_of_thread h.thread) h.gRunq
  | createFailed hf _ _ h => exact turn_same (hplain hf.1) (state_of_thread h.thread) h.gRunq
  | timer _ _ _ _ h | expire _ _ _ _ _ _ _ h | expireNow _ _ _ h | start _ _ _ h
  | register _ _ _ h | woken h => exact turn_same nofun (state_of_thread h.thread) h.gRunq
  | @fired tok =>
    have hwoken : Turn k c (.callback (.usleepCb tok)) [] (k.threadWakeup tok.t).state
        (k.threadWakeup tok.t).gRunq := turn_threadWakeup (Or.inr ⟨tok, rfl, rfl⟩)
    exact hwoken
  | wakeup => exact turn_threadWakeup (Or.inl rfl)
  | blockUsleep =>
    rw [threadBlock, state_setState_eq]
    exact .blocks trivial (Or.inr ⟨_, rfl, rfl⟩)
  | blockWait hf =>
    rw [threadBlock, state_setState_eq]
    refine .blocks ?_ (Or.inl rfl)
    rcases hf with rfl | rfl <;> trivial
  | stay h hnext =>
    exact turn_schedule h (fun _ => rfl) fun n hn => by rw [if_pos (hnext n hn)]
  | choose h hnext =>
    refine turn_schedule h nofun fun n hn => ?_
    rw [← Option.some.inj hn, if_neg hnext]
  | switch => exact .same nofun
  | create hf _ _ _ h =>
    have hstate : k'.state = Function.update k.state k.count .ready := by
      rw [state_of_thread h.thread]
      funext u
      rw [Function.update_apply]
      split_ifs with hu
      · exact hu ▸ state_created_self ..
      · exact state_created hu ..
    rw [hstate, h.gRunq]
    exact .born (hplain hf.1)
  | @exit s call status =>
    have hbase : (Frame.ecall s (.doSyscall call)).Base := trivial
    rw [state_sysExit, show (k.sysExit status).gRunq = k.gRunq from (exiting_same status).2.2.1]
    exact .ends hbase (List.Sublist.refl _)
  | kill hf =>
    rw [state_terminate_eq, gRunq_terminate]
    refine .ends ?_ ?_
    · rcases hf with ⟨s, pc, rfl⟩ | ⟨s, pc, rfl⟩ <;> trivial
    · split_ifs
      · exact List.erase_sublist
      · exact List.Sublist.refl _
  | stop pid t hf hpid ht _ _ h hvictim =>
    rw [state_of_thread h.thread, h.gRunq, state_terminate_eq, gRunq_terminate]
    refine .stopped t (base_of_victim hvictim) hvictim ?_
    · rcases hpid with rfl | hne
      · exact Or.inr rfl
      · refine Or.inl ?_
        rintro rfl
        exact hne (stopTarget_some ht).2.1.symm
  | threadExit =>
    have hbase : Frame.kernelThread.Base := trivial
    rw [show k.threadExit.state = (k.setState k.current .zombie).state from rfl, state_setState_eq]
    exact .ends hbase (List.Sublist.refl _)
  | collect hf _ _ h =>
    refine turn_same ?_ ((state_of_thread h.thread).trans rfl) h.gRunq
    rcases hf with rfl | rfl <;> nofun
  | reap h =>
    obtain ⟨z, zs, -, rfl⟩ := killZombie_eq_some h
    exact .same nofun

/-- `schedule` changes the state of its caller only, to `READY`. -/
theorem Parked.state {s : Tid → ThreadState} {q : List Tid} (h : Parked k s q)
    (hs : s t ≠ .ready) : s t = k.state t := by
  cases h with
  | ready =>
    rw [Function.update_apply] at hs ⊢
    split_ifs at hs ⊢
    · exact absurd rfl hs
    · rfl
  | out => rfl

theorem Parked.of_ne {s : Tid → ThreadState} {q : List Tid} (h : Parked k s q)
    (ht : t ≠ k.current) : s t = k.state t := by
  cases h with
  | ready => exact Function.update_of_ne ht ..
  | out => rfl

theorem Parked.of_not_running {s : Tid → ThreadState} {q : List Tid} (h : Parked k s q)
    (ht : k.state t ≠ .running) : s t = k.state t := by
  cases h with
  | ready hrun =>
    refine Function.update_of_ne ?_ ..
    rintro rfl
    exact ht hrun
  | out => rfl

/-- Who is on the queue then was there, or has just called `schedule`. -/
theorem Parked.mem {s : Tid → ThreadState} {q : List Tid} (h : Parked k s q) (ht : t ∈ q) :
    t ∈ k.gRunq ∨ t = k.current ∧ k.state t = .running := by
  cases h with
  | ready hrun =>
    rcases List.mem_append.mp ht with ht | ht
    · exact Or.inl ht
    · obtain rfl := List.mem_singleton.mp ht
      exact Or.inr ⟨rfl, hrun⟩
  | out => exact Or.inl ht

section Turn

variable {s : Tid → ThreadState} {q : List Tid} (h : Turn k c f fs s q)
include h

/-- A thread blocks in `thread_block` only. -/
theorem Turn.blocked (hs : s t = .blocked) :
    k.state t = .blocked ∨ t = k.current ∧ f.Sleeps ∧ .schedule ∈ fs := by
  cases h with
  | same => exact Or.inl hs
  | blocks hf hfs =>
    rw [Function.update_apply] at hs
    split_ifs at hs with ht
    · refine Or.inr ⟨ht, hf, ?_⟩
      rcases hfs with rfl | ⟨tok, -, rfl⟩ <;> exact List.mem_cons_self
    · exact Or.inl hs
  | alone =>
    split_ifs at hs
    · rw [Function.update_apply] at hs
      split_ifs at hs
      exact Or.inl hs
    · exact Or.inl hs
  | takes _ hpark =>
    rw [Function.update_apply] at hs
    split_ifs at hs
    exact Or.inl ((hpark.state (by rw [hs]; nofun)).symm.trans hs)
  | born | woken | ends | stopped =>
    rw [Function.update_apply] at hs
    split_ifs at hs
    exact Or.inl hs

/-- A thread ends itself, or `sys_stop` or `shell_stop_pid` ends it. -/
theorem Turn.zombie (hs : s t = .zombie) :
    k.state t = .zombie ∨ t = k.current ∨ k.victim c f = some t := by
  cases h with
  | same => exact Or.inl hs
  | ends =>
    rw [Function.update_apply] at hs
    split_ifs at hs with ht
    · exact Or.inr (Or.inl ht)
    · exact Or.inl hs
  | stopped u hf hvictim =>
    rw [Function.update_apply] at hs
    split_ifs at hs with ht
    · exact Or.inr (Or.inr (ht ▸ hvictim))
    · exact Or.inl hs
  | alone =>
    split_ifs at hs
    · rw [Function.update_apply] at hs
      split_ifs at hs
      exact Or.inl hs
    · exact Or.inl hs
  | takes _ hpark =>
    rw [Function.update_apply] at hs
    split_ifs at hs
    exact Or.inl ((hpark.state (by rw [hs]; nofun)).symm.trans hs)
  | born | woken | blocks =>
    rw [Function.update_apply] at hs
    split_ifs at hs
    exact Or.inl hs

end Turn

/-! ## The calls on the stacks -/

/-- How many calls on the stacks meet `p`. -/
def total (k : Kernel) (p : Frame → Bool) : ℕ :=
  ∑ t ∈ Finset.range k.count, (k.stack t).countP p

/-- How many of the callbacks that wait on the two queues meet `p`. -/
def waiting (k : Kernel) (p : Callback → Bool) : ℕ :=
  k.gTimerQueue.countP (fun n => p n.cb) + k.gTaskQueue.countP fun n => p n.cb

section Total

variable {p : Frame → Bool}

theorem total_setStack (ht : t < k.count) :
    (k.setStack t fs).total p + (k.stack t).countP p = k.total p + fs.countP p := by
  have hmem : t ∈ Finset.range k.count := Finset.mem_range.mpr ht
  have hother : ∑ u ∈ (Finset.range k.count).erase t, ((k.setStack t fs).stack u).countP p =
      ∑ u ∈ (Finset.range k.count).erase t, (k.stack u).countP p :=
    Finset.sum_congr rfl fun u hu => by rw [stack_setStack, if_neg (Finset.ne_of_mem_erase hu)]
  have hnew : (k.setStack t fs).total p =
      fs.countP p + ∑ u ∈ (Finset.range k.count).erase t, (k.stack u).countP p := by
    rw [← hother]
    refine (Finset.add_sum_erase _
      (fun u => ((k.setStack t fs).stack u).countP p) hmem).symm.trans ?_
    rw [stack_setStack, if_pos rfl]
  have hold : k.total p =
      (k.stack t).countP p + ∑ u ∈ (Finset.range k.count).erase t, (k.stack u).countP p :=
    (Finset.add_sum_erase _ (fun u => (k.stack u).countP p) hmem).symm
  omega

/-- A new thread has no other call on its stack than the code at the bottom. -/
theorem Effect.total_eq (h : Effect k c f k' fs) (hs : k.Stacked) (huser : p .user = false)
    (hthread : p .kernelThread = false) : k'.total p = k.total p := by
  have hstack : ∀ u, (k'.stack u).countP p = (k.stack u).countP p := fun u => by
    rcases h.stack_other u with heq | ⟨rfl, -, g, hg, heq, -⟩
    · rw [heq]
    · rw [heq, (hs.unborn _ (Nat.le_refl _)).1]
      rcases hg with rfl | rfl <;> simp [huser, hthread]
  unfold total
  rw [Finset.sum_congr rfl fun u _ => hstack u]
  refine (Finset.sum_subset (Finset.range_mono h.count) fun u _ hu => ?_).symm
  rw [(hs.unborn u (Nat.not_lt.mp fun hlt => hu (Finset.mem_range.mpr hlt))).1]
  rfl

/-- **The innermost call goes on**: the calls `fs` replace it. -/
theorem Effect.total (h : Effect k c f k' fs) (hs : k.Stacked)
    (hstack : k.stack k.current = f :: rest) (huser : p .user = false)
    (hthread : p .kernelThread = false) :
    (k'.setStack k.current (fs ++ rest)).total p + (if p f then 1 else 0) =
      k.total p + fs.countP p := by
  have hown : k'.stack k.current = f :: rest := by
    rcases h.stack_other k.current with heq | ⟨hcount, -⟩
    · rw [heq, hstack]
    · exact absurd hcount (Nat.ne_of_lt hs.current_lt)
  have hset : (k'.setStack k.current (fs ++ rest)).total p + (k'.stack k.current).countP p =
      k'.total p + (fs ++ rest).countP p :=
    total_setStack (Nat.lt_of_lt_of_le hs.current_lt h.count)
  rw [hown, h.total_eq hs huser hthread, List.countP_append, List.countP_cons] at hset
  omega

/-- A call on a stack is counted. -/
theorem one_le_total (ht : t < k.count) (hmem : g ∈ k.stack t) (hp : p g = true) :
    1 ≤ k.total p :=
  Nat.le_trans (List.countP_pos_iff.mpr ⟨g, hmem, hp⟩)
    (Finset.single_le_sum (f := fun u => (k.stack u).countP p) (fun _ _ => Nat.zero_le _)
      (Finset.mem_range.mpr ht))

end Total

/-! ## The callbacks on the queues -/

section Waiting

variable {p : Callback → Bool}

theorem waiting_congr (htimer : k'.gTimerQueue = k.gTimerQueue)
    (htask : k'.gTaskQueue = k.gTaskQueue) : k'.waiting p = k.waiting p := by
  unfold waiting
  rw [htimer, htask]

theorem Quiet.waiting (h : Quiet k k') : k'.waiting p = k.waiting p :=
  waiting_congr h.gTimerQueue h.gTaskQueue

theorem countP_wakeParent : (k.wakeParent t fs).countP (Frame.runs p) =
    fs.countP (Frame.runs p) := by
  unfold wakeParent
  cases k.parent t with
  | none => rfl
  | some par => exact List.countP_cons_of_neg Bool.false_ne_true

variable (hp : ∀ cb, p cb = true → ∃ tok, cb = .usleepCb tok)
include hp

theorem runs_of_plain (hg : g.Plain) : g.runs p = false := by
  refine Bool.eq_false_iff.mpr fun h => ?_
  cases g with
  | callback cb =>
    obtain ⟨tok, rfl⟩ := hp cb h
    exact hg
  | _ => exact Bool.false_ne_true h

theorem countP_runs_of_plain (hfs : ∀ g ∈ fs, g.Plain) : fs.countP (Frame.runs p) = 0 :=
  List.countP_eq_zero.mpr fun g hg => Bool.eq_false_iff.mp (runs_of_plain hp (hfs g hg))

/-- **A callback leaves the queues only to be called**, and comes to them only from
`sys_usleep`. -/
theorem Effect.waiting (h : Effect k c f k' fs) :
    k'.waiting p + fs.countP (Frame.runs p) = k.waiting p ∨
      ((∃ s usec, f = .ecall s (.doSyscall (.usleep usec))) ∧ k'.calls = k.calls + 1 ∧
        .sysUsleep ⟨k.current, k.calls⟩ .registered ∈ fs) ∧ fs.countP (Frame.runs p) = 0 ∧
        k'.waiting p = k.waiting p + if p (.usleepCb ⟨k.current, k.calls⟩) then 1 else 0 := by
  have hother : p .other = false := Bool.eq_false_iff.mpr fun h => by
    obtain ⟨tok, htok⟩ := hp _ h
    cases htok
  have hquiet : Quiet k k' → fs.countP (Frame.runs p) = 0 →
      k'.waiting p + fs.countP (Frame.runs p) = k.waiting p := fun hq hfs => by
    rw [hfs, hq.waiting]
    rfl
  cases h with
  | go hf hfs hgoes hirq h => exact Or.inl (hquiet h.quiet (countP_runs_of_plain hp hfs))
  | yield hf hg hgoes hirq h =>
    refine Or.inl (hquiet h.quiet ?_)
    rw [List.countP_cons_of_neg Bool.false_ne_true]
    exact countP_runs_of_plain hp (by simpa using hg)
  | timer n q hn hq h =>
    refine Or.inl ?_
    unfold Kernel.waiting
    rw [h.gTimerQueue, h.gTaskQueue, hq.countP_eq]
    simp [hn, hother, Frame.runs]
  | @task f g k' ns q hn hq hf hg hgoes hirq h =>
    refine Or.inl ?_
    have hns : ns.countP (fun n => p n.cb) = 0 := List.countP_eq_zero.mpr fun n hmem h => by
      obtain ⟨tok, htok⟩ := hp _ h
      exact hn n hmem tok htok
    have hfs : [Frame.taskRunPending, g].countP (Frame.runs p) = 0 :=
      countP_runs_of_plain hp (by simpa [Frame.Plain] using hg)
    rw [hfs]
    unfold Kernel.waiting
    rw [h.gTimerQueue, h.gTaskQueue, hq.countP_eq, List.countP_append, hns, Nat.zero_add]
    rfl
  | expire t rest n q ht hn hq h =>
    refine Or.inl ?_
    unfold Kernel.waiting
    rw [h.gTimerQueue, h.gTaskQueue, hq.countP_eq, ht]
    simp only [List.countP_cons, List.countP_nil, hn, Frame.runs, Bool.false_eq_true, if_false]
    omega
  | expireNow t rest ht h =>
    refine Or.inl ?_
    unfold Kernel.waiting
    rw [h.gTimerQueue, h.gTaskQueue, ht]
    cases hcb : p t.cb <;> simp [Frame.runs, hcb]
    omega
  | start t rest ht h =>
    refine Or.inl ?_
    unfold Kernel.waiting
    rw [h.gTimerQueue, h.gTaskQueue, ht]
    cases hcb : p t.cb <;> simp [Frame.runs, hcb]
    omega
  | @register s usec k' q hq husec h =>
    have hfs : [Frame.sysUsleep ⟨k.current, k.calls⟩ .registered, .ecall s .resched].countP
        (Frame.runs p) = 0 := by simp [Frame.runs]
    rw [hfs]
    unfold Kernel.waiting
    rw [h.gTimerQueue, h.gTaskQueue]
    rcases hq with ⟨-, rfl⟩ | ⟨n, hn, hq⟩
    · exact Or.inl rfl
    · refine Or.inr ⟨⟨⟨s, usec, rfl⟩, h.calls, List.mem_cons_self⟩, rfl, ?_⟩
      rw [hq.countP_eq, List.countP_cons, hn]
      show _ + k.gTaskQueue.countP _ = _
      omega
  | @fired tok => exact Or.inl (quiet_threadWakeup k tok.t).waiting
  | blockUsleep => exact Or.inl (hquiet (quiet_threadBlock k) rfl)
  | blockWait hf =>
    refine Or.inl (hquiet (quiet_threadBlock k) ?_)
    rcases hf with rfl | rfl <;> rfl
  | woken h => exact Or.inl (hquiet h.quiet rfl)
  | wakeup => exact Or.inl (hquiet (quiet_threadWakeup k _) rfl)
  | stay h =>
    have hq := quiet_schedule k
    rw [h] at hq
    exact Or.inl (hquiet hq rfl)
  | choose h =>
    have hq := quiet_schedule k
    rw [h] at hq
    exact Or.inl (hquiet hq rfl)
  | switch => exact Or.inl (by rfl)
  | create hf hg hfs hgoes h =>
    refine Or.inl ?_
    rw [countP_runs_of_plain hp hfs]
    exact waiting_congr h.gTimerQueue h.gTaskQueue
  | createFailed hf hfs hgoes h =>
    refine Or.inl ?_
    rw [countP_runs_of_plain hp hfs]
    exact waiting_congr h.gTimerQueue h.gTaskQueue
  | exit status =>
    refine Or.inl (hquiet (quiet_sysExit k status) ?_)
    rw [countP_wakeParent]
    rfl
  | kill hf =>
    refine Or.inl (hquiet (quiet_terminate k _) ?_)
    rw [countP_wakeParent]
    rcases hf with ⟨s, pc, rfl⟩ | ⟨s, pc, rfl⟩ <;> rfl
  | stop pid t hf hpid ht hg hgoes h =>
    refine Or.inl (hquiet ((quiet_terminate k t).trans h.quiet) ?_)
    rw [countP_wakeParent]
    exact countP_runs_of_plain hp (by simpa using hg.1)
  | threadExit => exact Or.inl (hquiet (quiet_threadExit k) rfl)
  | collect hf hfreed hz h => exact Or.inl (hquiet ((quiet_collect k _).trans h.quiet) rfl)
  | reap h =>
    refine Or.inl ?_
    obtain ⟨z, zs, -, rfl⟩ := killZombie_eq_some h
    rfl

end Waiting

end Kernel
end Sched
end OscKernel
