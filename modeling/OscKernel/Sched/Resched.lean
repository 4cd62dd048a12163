import OscKernel.Sched.Flow

/-!
# Requests to reschedule (`trap.c`, `timer.c`, `sched.c`)

`timer_top_half` sets `g_need_resched`, and both ends of `trap_handler` ask and clear it.  The end
of an interrupt clears it also when the interrupt was taken in the kernel, where it does not call
`schedule`: then the system call that was interrupted finds nothing to do at its own end.

* `Requests`: the kernel, with the request that no call of `schedule` has met so far.
* `served_of_reachable`: in runs in which no such interrupt clears a request, none is outstanding
  when control returns to U-mode.
* `lost_of_nestedTick`: a tick within a system call is lost.

## A request and a flag

The flag is a variable that is set and cleared.  Whether a request was met is a fact about the run:
`owed` is set where the flag is set, and it is cleared by `schedule` and by nothing else.  The
theorem is about `owed`, so that clearing the flag does not count as meeting the request.

While a request is owed, somebody on the stack of the current thread is going to see to it: a call
of `schedule`, or the end of a trap that will ask for the flag with the flag still set (`Serves`).
That is the invariant, read from the innermost call outwards up to the first one that settles it.

The condition is about one kind of step, the end of an interrupt that was taken in the kernel: when
it takes the flag over, the calls below it must be about to call `schedule` anyway.
-/

namespace OscKernel
namespace Sched

open Transition

/-- What a call means for an outstanding request: it will call `schedule`, or ask for a request with
`need` set (`some true`); control goes to U-mode or to another thread (`some false`); or neither. -/
def Frame.serve (need : Bool) : Frame → Option Bool
  | .schedule => some true
  | .switchTo _ _ | .user => some false
  | .irq _ _ pc => if need ∧ pc ≠ .deliver then some true else none
  | .ecall _ pc => if need ∧ pc ≠ .deliver then some true else none
  | _ => none

/-- With the calls `fs`, from the innermost on, control comes to a call of `schedule`, or to a
question for the request, before it goes elsewhere.  A kernel thread keeps control until it calls
`schedule`. -/
def Serves (need : Bool) (fs : List Frame) : Prop := fs.findSome? (Frame.serve need) ≠ some false

instance (need : Bool) (fs : List Frame) : Decidable (Serves need fs) :=
  inferInstanceAs (Decidable (_ ≠ _))

/-- The kernel, and whether there is a request to reschedule that no `schedule` has met. -/
structure Requests where
  k : Kernel
  owed : Bool

namespace Requests

variable (s : Requests)

/-- The request after the call `f` has gone on: `timer_top_half` makes one, a `need_resched_clear()`
that returns 1 takes one over, and a call of `schedule` meets it. -/
def owedBy : Frame → Bool
  | .schedule => false
  | .irq _ _ (.timerTopHalf now) => s.owed || decide (s.k.NoneDue now)
  | .irq _ _ .preempt | .ecall _ .resched => s.owed || s.k.gNeedResched
  | _ => s.owed

/-- Whether a request is outstanding after a step. -/
def owedAfter : Kernel.Label → Bool
  | .run _ => (s.k.stack s.k.current).head?.elim s.owed s.owedBy
  | .tick _ | .interrupt _ => s.owed

/-- A step of the machine, with the request. -/
def step (a : Kernel.Label) : Option Requests := (s.k.step a).map fun k => ⟨k, s.owedAfter a⟩

/-- After boot there is no request. -/
def boot (freq : BitVec 64) : Requests := ⟨Kernel.boot freq, false⟩

/-- The end of an interrupt that was taken in the kernel, with the calls `rest` below it, clears no
request, or `schedule` is about to be called there. -/
def KeepsRequest : List Frame → Prop
  | .irq false _ .preempt :: rest => s.k.gNeedResched = true → Serves false rest
  | _ => True

instance : ∀ fs, Decidable (s.KeepsRequest fs)
  | .irq false _ .preempt :: _ => inferInstanceAs (Decidable (_ → _))
  | .irq false _ (.timerTopHalf _) :: _ | .irq false _ .uartTopHalf :: _
  | .irq false _ .deliver :: _ | .irq true _ _ :: _ => isTrue trivial
  | [] | .user :: _ | .shell :: _ | .kernelThread :: _ | .ecall .. :: _ | .switchTo .. :: _
  | .callback _ :: _ | .taskRunPending :: _ | .sysUsleep .. :: _ | .sysWaitpid _ :: _
  | .runUserProgram _ :: _ | .threadWakeup _ :: _ | .schedule :: _ | .taskDone _ :: _
  | .scheduleReturn _ :: _ | .dead :: _ | .idleThreadBody :: _ => isTrue trivial

/-- The guard of the runs in which no request is lost. -/
def NoneLost : Kernel.Label → Prop
  | .run _ => s.KeepsRequest (s.k.stack s.k.current)
  | _ => True

instance : ∀ a, Decidable (s.NoneLost a)
  | .run _ => inferInstanceAs (Decidable (s.KeepsRequest _))
  | .tick _ | .interrupt _ => isTrue trivial

/-- A request that is outstanding is going to be met. -/
structure Ok : Prop where
  stacked : s.k.Stacked
  serves : s.owed = true → Serves s.k.gNeedResched (s.k.stack s.k.current)

variable {s} {s' : Requests} {k k' : Kernel} {c : Choice} {f : Frame} {fs rest : List Frame}
  {need : Bool}

/-! ## Who serves a request -/

theorem serve_of_beforeGate (h : f.BeforeGate) : f.serve true = some true := by
  cases f <;> first | exact if_pos ⟨rfl, h⟩ | exact h.elim

theorem eq_of_serve_false (h : f.serve need = some false) :
    f = .user ∨ ∃ fl n, f = .switchTo fl n := by
  cases f with
  | user => exact Or.inl rfl
  | switchTo fl n => exact Or.inr ⟨fl, n, rfl⟩
  | irq | ecall =>
    rw [Frame.serve] at h
    split_ifs at h
    exact absurd (Option.some.inj h) (by decide)
  | schedule => exact absurd (Option.some.inj h) (by decide)
  | _ => cases h

/-- A call that serves a request with the flag set: `schedule`, or a trap before its end. -/
theorem beforeGate_of_serve (h : f.serve need = some true) :
    f = .schedule ∨ need = true ∧ f.BeforeGate := by
  cases f with
  | schedule => exact Or.inl rfl
  | irq | ecall =>
    rw [Frame.serve] at h
    split_ifs at h with hgate
    exact Or.inr ⟨hgate.1, hgate.2⟩
  | user | switchTo => exact absurd (Option.some.inj h) (by decide)
  | _ => cases h

theorem serves_cons_of_none (h : f.serve need = none) :
    Serves need (f :: rest) ↔ Serves need rest := by
  unfold Serves
  rw [List.findSome?_cons, h]

theorem serves_cons_of_true (h : f.serve need = some true) : Serves need (f :: rest) := by
  unfold Serves
  rw [List.findSome?_cons, h]
  exact fun heq => absurd (Option.some.inj heq) (by decide)

theorem not_serves_of_false (h : f.serve need = some false) : ¬ Serves need (f :: rest) := by
  unfold Serves
  rw [List.findSome?_cons, h]
  exact fun hne => hne rfl

/-- The calls `fs` come on top of those that serve a request, or serve it themselves. -/
theorem serves_append (huser : .user ∉ fs) (hswitch : ∀ fl n, .switchTo fl n ∉ fs)
    (hrest : (∀ g ∈ fs, g.serve need ≠ some true) → Serves need rest) :
    Serves need (fs ++ rest) := by
  unfold Serves
  rw [List.findSome?_append]
  cases hfs : fs.findSome? (Frame.serve need) with
  | none =>
    rw [List.findSome?_eq_none_iff] at hfs
    exact hrest fun g hg => by rw [hfs g hg]; nofun
  | some b =>
    obtain ⟨g, hg, hserve⟩ := List.exists_of_findSome?_eq_some hfs
    rintro heq
    obtain rfl : b = false := Option.some.inj heq
    rcases eq_of_serve_false hserve with rfl | ⟨fl, n, rfl⟩
    · exact huser hg
    · exact hswitch fl n hg

/-! ## Runs -/

/-- The user program stands at the bottom only. -/
theorem user_not_mem (hs : k.Stacked) (hstack : k.stack k.current = f :: rest)
    (hrun : k.run c f = some (k', fs)) (hf : f ≠ .user) : .user ∉ fs := by
  intro hmem
  have hchain : (fs ++ rest).IsChain (Frame.On false) :=
    (Kernel.run_effect hrun).goes.isChain (hstack ▸ hs.chain k.current)
  have hlast : (fs ++ rest).getLast? = (f :: rest).getLast? :=
    Frame.getLast?_replace (hstack ▸ hs.bottom k.current) (Kernel.getLast?_run hrun)
  obtain ⟨pre, post, rfl⟩ := List.append_of_mem hmem
  rw [List.append_assoc, List.cons_append] at hchain hlast
  have htail := (List.isChain_append.mp hchain).2.1
  cases hpost : post ++ rest with
  | cons g gs =>
    rw [hpost] at htail
    exact (List.isChain_cons_cons.mp htail).1
  | nil =>
    obtain ⟨rfl, rfl⟩ := List.append_eq_nil_iff.mp hpost
    rw [List.nil_append, List.getLast?_concat] at hlast
    exact hf (Option.some.inj hlast).symm

/-- The request after the innermost call has gone on. -/
theorem serves_run (hserves : s.owed = true → Serves s.k.gNeedResched (f :: rest))
    (hG : s.KeepsRequest (f :: rest)) (huser : f ≠ .user → .user ∉ fs)
    (hflow : s.k.Flow f k' fs) (howed : s.owedBy f = true) :
    Serves k'.gNeedResched (fs ++ rest) := by
  cases hflow with
  | trap => exact absurd (hserves howed) (not_serves_of_false rfl)
  | rearm h =>
    show Serves true _
    exact (serves_cons_of_none rfl).mpr (serves_cons_of_true rfl)
  | @preempt user sie =>
    show Serves false _
    by_cases hneed : s.k.gNeedResched = true
    · cases user with
      | true =>
        rw [hneed]
        exact serves_cons_of_true rfl
      | false =>
        rw [Bool.and_false]
        exact (serves_cons_of_none rfl).mpr (hG hneed)
    · rw [Bool.not_eq_true] at hneed
      rw [owedBy, hneed, Bool.or_false] at howed
      have hrest := hserves howed
      rw [hneed] at hrest ⊢
      exact (serves_cons_of_none rfl).mpr ((serves_cons_of_none rfl).mp hrest)
  | @resched sie =>
    show Serves false _
    by_cases hneed : s.k.gNeedResched = true
    · rw [hneed]
      exact serves_cons_of_true rfl
    · rw [Bool.not_eq_true] at hneed
      rw [owedBy, hneed, Bool.or_false] at howed
      have hrest := hserves howed
      rw [hneed] at hrest ⊢
      exact (serves_cons_of_none rfl).mpr ((serves_cons_of_none rfl).mp hrest)
  | @sret f sie hf =>
    have hnone : f.serve s.k.gNeedResched = none := by
      rcases hf with ⟨user, rfl⟩ | rfl <;> exact if_neg fun h => h.2 rfl
    have howed' : s.owed = true := by
      rcases hf with ⟨user, rfl⟩ | rfl <;> exact howed
    exact (serves_cons_of_none hnone).mp (hserves howed')
  | start hsie hneed =>
    rw [hneed]
    have hrest := (serves_cons_of_none rfl).mp (hserves howed)
    exact (serves_cons_of_none rfl).mpr ((serves_cons_of_none rfl).mpr hrest)
  | choose => exact absurd howed Bool.false_ne_true
  | switch => exact absurd (hserves howed) (not_serves_of_false rfl)
  | call hbits hflags hf hdue hgate =>
    rw [hbits.gNeedResched]
    -- neither a request nor a question for one
    have howed' : s.owed = true := by
      cases f with
      | irq user sie pc =>
        cases pc with
        | timerTopHalf now =>
          rwa [owedBy, decide_eq_false (hdue user sie now rfl), Bool.or_false] at howed
        | preempt => exact absurd rfl ((hgate trivial).1 user sie)
        | uartTopHalf | deliver => exact howed
      | ecall sie pc =>
        cases pc with
        | resched => exact absurd rfl ((hgate trivial).2.1 sie)
        | doSyscall | deliver => exact howed
      | schedule =>
        rcases hf with ⟨hne, -⟩ | ⟨fl, hf⟩
        · exact absurd rfl hne
        · cases hf
      | _ => exact howed
    have hserves' := hserves howed'
    refine serves_append (huser ?_) (fun fl n hn => absurd (hflags _ hn) nofun) fun hnone => ?_
    · rintro rfl
      exact not_serves_of_false rfl hserves'
    · cases hserve : f.serve s.k.gNeedResched with
      | none => exact (serves_cons_of_none hserve).mp hserves'
      | some b =>
        cases b with
        | false => exact absurd hserves' (not_serves_of_false hserve)
        | true =>
          rcases beforeGate_of_serve hserve with rfl | ⟨hneed, hbefore⟩
          · rcases hf with ⟨hne, -⟩ | ⟨fl, hf⟩
            · exact absurd rfl hne
            · cases hf
          · have htrap : f.IsTrap := by cases f <;> trivial
            obtain ⟨-, -, ⟨g, hg, hg'⟩ | hg⟩ := hgate htrap
            · rw [hneed] at hnone
              exact absurd (serve_of_beforeGate hg') (hnone g hg)
            · exact absurd rfl (hnone _ hg)

/-- The innermost call of the current thread goes on. -/
theorem Ok.run (h : s.Ok) (hstack : s.k.stack s.k.current = f :: rest)
    (hG : s.KeepsRequest (f :: rest)) (hrun : s.k.run c f = some (k', fs)) :
    Ok ⟨k'.setStack s.k.current (fs ++ rest), s.owedBy f⟩ := by
  refine ⟨Kernel.stacked_run h.stacked hstack hrun, fun howed => ?_⟩
  have hserves : s.owed = true → Serves s.k.gNeedResched (f :: rest) := hstack ▸ h.serves
  have hcurrent : k'.current = s.k.current := by
    rcases (Kernel.run_effect hrun).current with hcurrent | ⟨fl, rfl, -⟩
    · exact hcurrent
    · exact absurd (hserves howed) (not_serves_of_false rfl)
  show Serves k'.gNeedResched ((k'.setStack s.k.current (fs ++ rest)).stack k'.current)
  rw [Kernel.stack_setStack, if_pos hcurrent]
  exact serves_run hserves hG (fun hf => user_not_mem h.stacked hstack hrun hf)
    (Kernel.run_flow hrun) howed

/-- **Every step** that loses no request. -/
theorem Ok.step {a : Kernel.Label} (h : s.Ok) (hG : s.NoneLost a) (hs : s.step a = some s') :
    s'.Ok := by
  obtain ⟨k', hk, rfl⟩ := Option.map_eq_some_iff.mp hs
  have hstacked := Kernel.stacked_step h.stacked hk
  cases a with
  | tick d =>
    obtain rfl := Option.some.inj hk
    exact ⟨hstacked, h.serves⟩
  | interrupt timer =>
    obtain ⟨-, pc, rfl⟩ := Kernel.step_interrupt hk
    refine ⟨hstacked, fun howed => ?_⟩
    show Serves s.k.gNeedResched (Kernel.stack (Kernel.setStack _ _ _) s.k.current)
    rw [Kernel.stack_setStack, if_pos rfl]
    have hrest := h.serves howed
    cases hserve : (Frame.irq s.k.inUser s.k.sie pc).serve s.k.gNeedResched with
    | none => exact (serves_cons_of_none hserve).mpr hrest
    | some b =>
      cases b with
      | true => exact serves_cons_of_true hserve
      | false => rcases eq_of_serve_false hserve with hf | ⟨fl, n, hf⟩ <;> cases hf
  | run c =>
    obtain ⟨f, rest, k₁, fs, hstack, hrun, rfl⟩ := Kernel.step_run hk
    have hkeeps : s.KeepsRequest (s.k.stack s.k.current) := hG
    have howed : s.owedAfter (.run c) = s.owedBy f := by
      rw [owedAfter, hstack]
      rfl
    rw [howed]
    exact h.run hstack (hstack ▸ hkeeps) hrun

theorem ok_boot (freq : BitVec 64) : (boot freq).Ok :=
  ⟨Kernel.stacked_boot freq, fun h => absurd h Bool.false_ne_true⟩

/-- **No request is lost.**  In a run in which an interrupt taken in the kernel clears a request
only where `schedule` is about to be called, every request has been met by a call of `schedule` when
control is in U-mode. -/
theorem served_of_reachable {freq : BitVec 64} (h : Reachable step NoneLost (boot freq) s)
    (huser : s.k.inUser = true) : s.owed = false := by
  have hok := h.invariant (P := Ok) (ok_boot freq) fun _ _ _ hok hG hs => hok.step hG hs
  by_contra howed
  have hserves := hok.serves (Bool.not_eq_false _ ▸ howed)
  unfold Kernel.inUser at huser
  cases hstack : s.k.stack s.k.current with
  | nil =>
    rw [hstack] at huser
    exact absurd huser (by decide)
  | cons f rest =>
    rw [hstack] at huser hserves
    obtain rfl : f = .user := by simpa using huser
    exact not_serves_of_false rfl hserves

/-- A user program is started. -/
def userRun : List Kernel.Label :=
  [.run { command := .runUserProgram }] ++ List.replicate 6 (.run {})

/-- A timer interrupt, and `n` calls of the thread that it interrupts. -/
def tickRun (n : ℕ) : List Kernel.Label :=
  [.tick 100, .interrupt true] ++ List.replicate n (.run {})

/-- A tick in U-mode: the idle thread gets the CPU, and gives it back. -/
theorem served_of_preemption :
    ∃ s, Reachable step NoneLost (boot 320) s ∧ s.k.inUser = true ∧ s.owed = false := by
  have hrun : (runList step (boot 320) (userRun ++ tickRun 11)).map (fun s => s.k.inUser) =
      some true := by decide +kernel
  obtain ⟨s, hs, huser⟩ := Option.map_eq_some_iff.mp hrun
  have hreach : Reachable step NoneLost (boot 320) s := Reachable.of_runList hs (by decide +kernel)
  exact ⟨s, hreach, huser, served_of_reachable hreach huser⟩

/-- **A tick within a system call is lost.**  The program goes on, and `schedule` has not been
called. -/
theorem lost_of_nestedTick :
    ∃ s, Reachable step anyStep (boot 320) s ∧ s.k.inUser = true ∧ s.owed = true := by
  have hrun : (runList step (boot 320) (userRun ++ [.run {}] ++ tickRun 7)).map
      (fun s => (s.k.inUser, s.owed)) = some (true, true) := by decide +kernel
  obtain ⟨s, hs, hv⟩ := Option.map_eq_some_iff.mp hrun
  obtain ⟨huser, howed⟩ := Prod.mk.inj hv
  exact ⟨s, reachable_of_runList hs, huser, howed⟩

end Requests
end Sched
end OscKernel
