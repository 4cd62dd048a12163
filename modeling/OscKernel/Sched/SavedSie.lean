import OscKernel.Sched.Flow

/-!
# The interrupt enable of a thread (`sched.c`, `switch.S`)

`schedule` brings `SIE` back before it calls `switch_to`, and `switch_to` saves no `sstatus`: the
thread that is switched to goes on with the `SIE` of the thread that is left.

* `sie_of_reachable`: `schedule` returns with the `SIE` it was called with in every run in which the
  two threads of every switch called it with the same.
* `sie_of_preemption`: a preempted thread leaves the idle thread with interrupts masked.

## What is remembered where

The bit that a call of `schedule` has to bring back is in its frame (`flags`), and frames wait on
the stacks of threads that do not run.  For the thread that runs, the innermost frame that waits for
its bit is brought back to it by what stands above: interrupts restore the bit they were taken with,
and `schedule` sets it before it switches.  `SieSaved` is this for the current thread, and for the
others only that their stacks are in order, since nothing is known of `SIE` when they go on.

The condition is on the two threads of a switch, read off their stacks before the switch: both
called `schedule` with the same `SIE`.  A thread that is switched to for the first time has called
nothing, and there is no condition on it.

The machine stops where memory is used that has been freed (`OscKernel.Sched.Machine`); what happens
to `SIE` behind such a use is not said.
-/

namespace OscKernel
namespace Sched

open Transition

namespace Kernel

variable (k : Kernel)

/-- The `SIE` that `schedule` was called with, when it is the innermost call of `t` and past its
choice. -/
def savedSie (t : Tid) : Option Bool := (k.stack t).head?.bind Frame.flags

/-- When the current thread, with the calls `fs`, is about to switch to another, both called
`schedule` with the same `SIE`. -/
def SwitchesLike : List Frame → Prop
  | .switchTo flags next :: _ => ∀ flags' ∈ k.savedSie next, flags = flags'
  | _ => True

instance : ∀ fs, Decidable (k.SwitchesLike fs)
  | .switchTo .. :: _ => inferInstanceAs (Decidable (∀ _ ∈ _, _))
  | [] | .user :: _ | .shell :: _ | .kernelThread :: _ | .irq .. :: _ | .ecall .. :: _
  | .callback _ :: _ | .taskRunPending :: _ | .sysUsleep .. :: _ | .sysWaitpid _ :: _
  | .runUserProgram _ :: _ | .threadWakeup _ :: _ | .schedule :: _ | .taskDone _ :: _
  | .scheduleReturn _ :: _ | .dead :: _ | .idleThreadBody :: _ => isTrue trivial

/-- The guard of the runs in which every thread keeps its `SIE`. -/
def SameSie : Label → Prop
  | .run _ => k.SwitchesLike (k.stack k.current)
  | _ => True

instance : ∀ a, Decidable (k.SameSie a)
  | .run _ => inferInstanceAs (Decidable (k.SwitchesLike _))
  | .tick _ | .interrupt _ => isTrue trivial

/-- What `schedule` and the interrupts inside it remember is the `SIE` they are to bring back. -/
structure SieSaved : Prop where
  chain : ∀ t, (k.stack t).IsChain (Frame.On true)
  top : ∀ flags ∈ k.savedSie k.current, k.sie = flags

variable {k} {k' : Kernel} {c : Choice} {f : Frame} {fs rest : List Frame}

/-- A call that ends without a return from a trap has not interrupted `schedule`. -/
theorem flags_of_on {g : Frame} (hon : f.On true g) (htrap : ¬ f.IsTrap) : g.flags = none := by
  cases f with
  | user | idleThreadBody | shell | kernelThread => exact hon.elim
  | irq | ecall => exact absurd trivial htrap
  | sysUsleep | sysWaitpid =>
    obtain ⟨s, pc, rfl⟩ := hon
    rfl
  | runUserProgram => exact hon ▸ rfl
  | _ => exact hon.2

/-- What is innermost after a step brings back the `SIE` of that moment. -/
theorem Flow.savedSie (h : Flow k f k' fs) (hchain : (f :: rest).IsChain (Frame.On true))
    (hf : ∀ flags ∈ f.flags, k.sie = flags) :
    ∀ flags ∈ (fs ++ rest).head?.bind Frame.flags, k'.sie = flags := by
  -- what `f` stands on is innermost when nothing replaces `f`
  have hrest : ∀ flags, flags ∈ rest.head?.bind Frame.flags →
      ∃ g, f.On true g ∧ g.flags = some flags := fun flags hflags => by
    obtain ⟨g, hg, hgf⟩ := Option.bind_eq_some_iff.mp hflags
    cases rest with
    | nil => cases hg
    | cons g' rest =>
      obtain rfl := Option.some.inj hg
      exact ⟨_, (List.isChain_cons_cons.mp hchain).1, hgf⟩
  intro flags hflags
  cases h with
  | trap | rearm | start => cases hflags
  | preempt | resched => split_ifs at hflags <;> cases hflags
  | sret hsret =>
    obtain ⟨g, hon, hgf⟩ := hrest flags hflags
    rcases hsret with ⟨_ | _, rfl⟩ | rfl
    · exact hon.2 rfl flags hgf
    · exact absurd hgf (by rw [show g = .user from hon]; nofun)
    · exact absurd hgf (by rw [show g = .user from hon]; nofun)
  | choose hbits hg =>
    rw [hbits.sie]
    rcases hg with rfl | ⟨n, rfl⟩ <;> exact Option.some.inj hflags
  | switch => exact hf flags hflags
  | call hbits hfs hcall hdue hgate =>
    cases fs with
    | nil =>
      obtain ⟨g, hon, hgf⟩ := hrest flags hflags
      by_cases htrap : f.IsTrap
      · obtain ⟨-, -, ⟨g, hg, -⟩ | hg⟩ := hgate htrap <;> cases hg
      · exact absurd hgf (by rw [flags_of_on hon htrap]; nofun)
    | cons g fs =>
      have hnone := hfs g List.mem_cons_self
      exact absurd (hnone.symm.trans hflags) nofun

/-- The innermost call of the current thread goes on. -/
theorem SieSaved.run (h : k.SieSaved) (hstack : k.stack k.current = f :: rest)
    (hG : k.SwitchesLike (f :: rest)) (hrun : k.run c f = some (k', fs)) :
    (k'.setStack k.current (fs ++ rest)).SieSaved := by
  have heffect := run_effect hrun
  have hflow := run_flow hrun
  have hchain := h.chain k.current
  have htop := h.top
  unfold Kernel.savedSie at htop
  rw [hstack] at hchain htop
  refine ⟨fun t => ?_, ?_⟩
  · rw [stack_setStack]
    split_ifs with ht
    · exact heffect.goes.isChain hchain
    · rcases heffect.stack with heq | ⟨g, hg, heq⟩ <;> rw [heq]
      · exact h.chain t
      · rw [Function.update_apply]
        split_ifs
        · exact List.isChain_singleton g
        · exact h.chain t
  · have hown := hflow.savedSie hchain htop
    unfold Kernel.savedSie
    rw [stack_setStack]
    rcases heffect.current with hcurrent | ⟨fl, hf, -⟩
    · rw [show (k'.setStack k.current (fs ++ rest)).current = k'.current from rfl, hcurrent,
        if_pos rfl]
      exact hown
    · generalize hn : k'.current = n at hf
      subst hf
      -- `switch_to` does not change `SIE`
      rw [Kernel.run] at hrun
      split_ifs at hrun
      obtain ⟨rfl, rfl⟩ := Prod.mk.inj (Option.some.inj hrun)
      have hsie : k.sie = fl := htop fl rfl
      intro flags hflags
      change flags ∈ (if n = k.current then _ else k.stack n).head?.bind Frame.flags at hflags
      split_ifs at hflags
      · exact hown flags hflags
      · exact hsie.trans (hG flags hflags)

/-- **Every step** whose switch is between threads with the same `SIE`. -/
theorem sieSaved_step {a : Label} (h : k.SieSaved) (hG : k.SameSie a) (hstep : step k a = some k') :
    k'.SieSaved := by
  cases a with
  | tick d =>
    obtain rfl := Option.some.inj hstep
    exact ⟨h.chain, h.top⟩
  | interrupt timer =>
    obtain ⟨-, pc, rfl⟩ := step_interrupt hstep
    refine ⟨fun t => ?_, ?_⟩
    · rw [stack_setStack]
      split_ifs with ht
      · refine List.isChain_cons.mpr ⟨fun g hg => ?_, h.chain k.current⟩
        have hsaved : ∀ flags ∈ g.flags, k.sie = flags := fun flags hflags =>
          h.top flags (by rw [savedSie, hg]; exact hflags)
        unfold inUser
        rw [hg]
        by_cases huser : g = .user
        · rw [huser]
          rfl
        · rw [show (some g == some Frame.user) = false by simpa using huser]
          exact ⟨huser, fun _ => hsaved⟩
      · exact h.chain t
    · intro flags hflags
      unfold Kernel.savedSie at hflags
      rw [stack_setStack] at hflags
      split_ifs at hflags with hu
      · cases hflags
      · exact absurd rfl hu
  | run c =>
    obtain ⟨f, rest, k₁, fs, hstack, hrun, rfl⟩ := step_run hstep
    have hlike : k.SwitchesLike (k.stack k.current) := hG
    exact h.run hstack (hstack ▸ hlike) hrun

theorem sieSaved_boot (freq : BitVec 64) : (boot freq).SieSaved := by
  refine ⟨fun t => ?_, nofun⟩
  rcases t with _ | _ | t
  · exact List.isChain_singleton _
  · exact List.isChain_singleton _
  · exact List.isChain_nil

/-- **`SIE` belongs to the thread.**  In a run whose switches are between threads that called
`schedule` with the same `SIE`, `schedule` returns with the `SIE` it was called with: when the
current thread is about to return from a call that was made with `flags`, `SIE` is `flags`. -/
theorem sie_of_reachable {freq : BitVec 64} (h : Reachable step SameSie (boot freq) k)
    {flags : Bool}
    (hreturn : k.stack k.current = .scheduleReturn flags :: rest) : k.sie = flags := by
  have hsaved := h.invariant (P := SieSaved) (sieSaved_boot freq)
    fun _ _ _ hi hG hstep => sieSaved_step hi hG hstep
  exact hsaved.top flags (by rw [savedSie, hreturn]; rfl)

/-- The shell calls `schedule`, and so does the idle thread. -/
def handRun : List Label := List.replicate 6 (.run {})

/-- The shell comes back from `schedule`. -/
theorem sie_of_handRun : ∃ k rest, Reachable step SameSie (boot 320) k ∧ k.current = gBootstrap ∧
    k.stack k.current = .scheduleReturn true :: rest ∧ k.sie = true := by
  have hrun : (runList step (boot 320) handRun).map (fun k => (k.current, k.stack k.current)) =
      some (gBootstrap, [.scheduleReturn true, .shell]) := by decide +kernel
  obtain ⟨k, hs, hv⟩ := Option.map_eq_some_iff.mp hrun
  obtain ⟨hcurrent, hstack⟩ := Prod.mk.inj hv
  have hreach : Reachable step SameSie (boot 320) k := Reachable.of_runList hs (by decide +kernel)
  exact ⟨k, [.shell], hreach, hcurrent, hstack, sie_of_reachable hreach hstack⟩

/-- A user program is started; the shell and the idle thread yield, and a timer interrupt takes the
CPU from the program. -/
def preemptRun : List Label :=
  [.run { command := .runUserProgram }] ++ List.replicate 6 (.run {}) ++
    [.tick 100, .interrupt true] ++ List.replicate 5 (.run {})

/-- **A thread is preempted.**  The idle thread called `schedule` with `SIE` set, and goes on with
interrupts masked. -/
theorem sie_of_preemption : ∃ k rest, Reachable step anyStep (boot 320) k ∧
    k.current = Sched.idle ∧ k.stack k.current = .scheduleReturn true :: rest ∧ k.sie = false := by
  have hrun : (runList step (boot 320) preemptRun).map
      (fun k => (k.current, k.stack k.current, k.sie)) =
      some (Sched.idle, [.scheduleReturn true, .idleThreadBody], false) := by decide +kernel
  obtain ⟨k, hs, hv⟩ := Option.map_eq_some_iff.mp hrun
  simp only [Prod.mk.injEq] at hv
  exact ⟨k, _, reachable_of_runList hs, hv⟩

end Kernel
end Sched
end OscKernel
