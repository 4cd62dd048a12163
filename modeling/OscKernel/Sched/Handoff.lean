import OscKernel.Sched.Usleep

/-!
# The run queue and `switch_to`

`schedule` takes the next thread off the run queue and calls `switch_to` with interrupts enabled, so
that a callback may enter `schedule` again in between.  A thread that can get the CPU is on the run
queue once, or is the target of one call of `switch_to`, or has the CPU.

* `Kernel.leavesCpu`: `schedule` does not come back to a `BLOCKED` caller.
* `Kernel.Handoff`: the invariant of runs of such steps; `Kernel.handoff_step` keeps it.

`schedule` decides with interrupts masked, and calls `switch_to` with the `SIE` of its caller.  In
between an interrupt may run a callback that calls `schedule` again on the same stack; the inner
call may switch to a thread and the outer one, when it goes on, to another.  The run queue alone
does not say who may get the CPU: a target of `switch_to` is on no queue, and must not be enqueued
by somebody else meanwhile.  `once` says that no thread is the target of two calls, counted over all
stacks.
-/

namespace OscKernel
namespace Sched

open Transition

namespace Kernel

variable (k : Kernel)

/-- When the current thread, with the calls `fs`, is `BLOCKED` and calls `schedule`, somebody is on
the run queue; or the call is inside another one, which takes the CPU away afterwards. -/
def leavesCpu : List Frame → Bool
  | .schedule :: rest =>
      k.state k.current != .blocked || !k.gRunq.isEmpty || rest.any Frame.inSchedule
  | _ => true

/-- Who may get the CPU, and how. -/
structure Handoff : Prop where
  nodup : k.gRunq.Nodup
  ready : ∀ t ∈ k.gRunq, k.state t = .ready
  target : ∀ t fl n, .switchTo fl n ∈ k.stack t →
    n ≠ k.current ∧ (k.state n = .running ∨ k.state n = .zombie)
  once : ∀ n, k.total (Frame.switchesTo n) ≤ 1
  current : k.state k.current = .ready ∨ k.state k.current = .blocked →
    ∃ g ∈ k.stack k.current, g.inSchedule = true

variable {k} {k' : Kernel} {c : Choice} {f g : Frame} {fs rest : List Frame} {t : Tid}

/-! ## One step of the current thread -/

/-- The current thread, when it blocks or ends, is neither `READY` nor on the run queue. -/
theorem Handoff.current_of_base (h : k.Handoff) (hs : k.Stacked)
    (hstack : k.stack k.current = f :: rest) (hf : f.Sleeps ∨ f.Base) :
    k.state k.current ≠ .ready ∧ k.state k.current ≠ .blocked ∧ k.current ∉ k.gRunq := by
  have hnone : ∀ g ∈ k.stack k.current, g.inSchedule = false := by
    rw [hstack]
    refine List.forall_mem_cons.mpr ⟨Frame.Base.not_inSchedule hf, fun g hg => ?_⟩
    exact Frame.Base.not_inSchedule
      (Or.inr (Frame.base_of_isChain hf (hstack ▸ hs.chain k.current) g hg))
  have hready : k.state k.current ≠ .ready ∧ k.state k.current ≠ .blocked := by
    refine not_or.mp fun hstate => ?_
    obtain ⟨g, hg, hin⟩ := h.current hstate
    rw [hnone g hg] at hin
    cases hin
  exact ⟨hready.1, hready.2, fun hq => hready.1 (h.ready _ hq)⟩

/-- A thread joins the run queue. -/
theorem Handoff.push (h : k.Handoff) (ht : t ∉ k.gRunq) : (k.gRunq ++ [t]).Nodup ∧
    ∀ u ∈ k.gRunq ++ [t], Function.update k.state t .ready u = .ready := by
  refine ⟨List.nodup_append.mpr ⟨h.nodup, List.nodup_singleton _, ?_⟩, fun u hu => ?_⟩
  · rintro a ha b hb rfl
    exact ht (List.mem_singleton.mp hb ▸ ha)
  · rw [Function.update_apply]
    split_ifs with heq
    · rfl
    · rcases List.mem_append.mp hu with hu | hu
      · exact h.ready u hu
      · exact absurd (List.mem_singleton.mp hu) heq

theorem Handoff.parked (h : k.Handoff) {s : Tid → ThreadState} {q : List Tid}
    (hpark : Parked k s q) : q.Nodup ∧ ∀ t ∈ q, s t = .ready := by
  cases hpark with
  | ready hrun =>
    refine h.push fun hq => ?_
    rw [h.ready _ hq] at hrun
    cases hrun
  | out => exact ⟨h.nodup, h.ready⟩

/-- The run queue after a step. -/
theorem Handoff.queue (h : k.Handoff) (hs : k.Stacked) (hstack : k.stack k.current = f :: rest)
    {s : Tid → ThreadState} {q : List Tid} (hturn : Turn k c f fs s q) :
    q.Nodup ∧ ∀ t ∈ q, s t = .ready := by
  have hother : ∀ {u : Tid} {v : ThreadState} {q' : List Tid}, u ∉ q' →
      (∀ t ∈ q', t ∈ k.gRunq) → ∀ t ∈ q', Function.update k.state u v t = .ready :=
    fun {u v q'} hu hq' t ht => by
    have hne : t ≠ u := by
      rintro rfl
      exact hu ht
    rw [Function.update_of_ne hne]
    exact h.ready t (hq' t ht)
  cases hturn with
  | same => exact ⟨h.nodup, h.ready⟩
  | born => exact h.push fun hq => Nat.lt_irrefl _ (hs.runq_lt _ hq)
  | woken t hblocked =>
    refine h.push fun hq => ?_
    rw [h.ready t hq] at hblocked
    cases hblocked
  | blocks hf =>
    obtain ⟨-, -, hnot⟩ := h.current_of_base hs hstack (Or.inl hf)
    exact ⟨h.nodup, hother hnot fun _ => id⟩
  | ends hf hq =>
    obtain ⟨-, -, hnot⟩ := h.current_of_base hs hstack (Or.inr hf)
    exact ⟨hq.nodup h.nodup, hother (fun hmem => hnot (hq.subset hmem)) fun _ ht => hq.subset ht⟩
  | stopped u =>
    split_ifs with hready
    · exact ⟨h.nodup.erase u, hother h.nodup.not_mem_erase fun _ => List.mem_of_mem_erase⟩
    · exact ⟨h.nodup, hother (fun hq => hready (h.ready u hq)) fun _ => id⟩
  | alone => exact ⟨List.nodup_nil, nofun⟩
  | @takes s next q _ hpark =>
    obtain ⟨hnodup, hall⟩ := h.parked hpark
    obtain ⟨hnext, hq⟩ := List.nodup_cons.mp hnodup
    refine ⟨hq, fun t ht => ?_⟩
    have hne : t ≠ next := fun heq => hnext (heq ▸ ht)
    rw [Function.update_of_ne hne]
    exact hall t (List.mem_cons_of_mem _ ht)

/-- The target of `switch_to` keeps its right to the CPU. -/
theorem Handoff.state_target (h : k.Handoff) (hs : k.Stacked) {fl : Bool} {n : Tid}
    (hmem : .switchTo fl n ∈ k.stack t) {s : Tid → ThreadState} {q : List Tid}
    (hturn : Turn k c f fs s q) : s n = .running ∨ s n = .zombie := by
  obtain ⟨hne, hstate⟩ := h.target t fl n hmem
  cases hturn with
  | same => exact hstate
  | born => rwa [Function.update_of_ne (Nat.ne_of_lt (hs.target_lt t fl n hmem))]
  | woken u hblocked =>
    have hnu : n ≠ u := by
      rintro rfl
      rw [hblocked] at hstate
      rcases hstate with h | h <;> cases h
    rwa [Function.update_of_ne hnu]
  | blocks | ends => rwa [Function.update_of_ne hne]
  | stopped u =>
    rw [Function.update_apply]
    split_ifs
    · exact Or.inr rfl
    · exact hstate
  | alone =>
    split_ifs
    · rwa [Function.update_of_ne hne]
    · exact hstate
  | takes _ hpark =>
    rw [Function.update_apply]
    split_ifs
    · exact Or.inl rfl
    · rwa [hpark.of_ne hne]

/-- A new call of `switch_to` is to a thread that was on the run queue. -/
theorem Turn.of_switchTo {s : Tid → ThreadState} {q : List Tid} (hturn : Turn k c f fs s q)
    (hf : f = .schedule) {fl : Bool} {n : Tid} (hmem : .switchTo fl n ∈ fs) :
    n ≠ k.current ∧ n ∈ k.gRunq ∧ s n = .running ∧ fs = [.switchTo fl n] := by
  subst hf
  cases hturn with
  | same hf | born hf => exact absurd rfl hf
  | woken _ _ hf => rcases hf with h | ⟨_, -, h⟩ <;> cases h
  | blocks hf | ends hf | stopped _ hf => exact hf.elim
  | alone _ _ _ hfs =>
    rw [hfs] at hmem
    cases List.mem_singleton.mp hmem
  | @takes s next q _ hpark hfs =>
    rw [hfs, List.mem_singleton] at hmem
    split_ifs at hmem with hnext
    obtain ⟨rfl, rfl⟩ := Frame.switchTo.inj hmem
    rw [if_neg hnext] at hfs
    refine ⟨hnext, ?_, Function.update_self .., hfs⟩
    exact (hpark.mem List.mem_cons_self).resolve_right fun h => hnext h.1

/-- A caller of `schedule` that is not made `RUNNING` gives up the CPU. -/
theorem Turn.inSchedule {s : Tid → ThreadState} {q : List Tid}
    (hturn : Turn k c .schedule fs s q) (hleaves : k.leavesCpu (.schedule :: rest) = true)
    (hstate : s k.current = .ready ∨ s k.current = .blocked) :
    ∃ g ∈ fs ++ rest, g.inSchedule = true := by
  cases hturn with
  | same hf | born hf => exact absurd rfl hf
  | woken _ _ hf => rcases hf with h | ⟨_, -, h⟩ <;> cases h
  | blocks hf | ends hf | stopped _ hf => exact hf.elim
  | alone hf hq =>
    split_ifs at hstate with hready
    · rw [Function.update_self] at hstate
      rcases hstate with h | h <;> cases h
    · have hblocked := hstate.resolve_left hready
      have hbelow : rest.any Frame.inSchedule = true := by
        simpa [leavesCpu, hblocked, hq] using hleaves
      obtain ⟨g, hg, hin⟩ := List.any_eq_true.mp hbelow
      exact ⟨g, List.mem_append_right _ hg, hin⟩
  | @takes s next q hf hpark hfs =>
    by_cases hnext : next = k.current
    · rw [hnext, Function.update_self] at hstate
      rcases hstate with h | h <;> cases h
    · rw [hfs, if_neg hnext]
      exact ⟨_, List.mem_cons_self, rfl⟩

theorem total_eq_zero {p : Frame → Bool} (h : ∀ t, ∀ g ∈ k.stack t, p g = false) :
    k.total p = 0 :=
  Finset.sum_eq_zero fun t _ => List.countP_eq_zero.mpr fun g hg => Bool.eq_false_iff.mp (h t g hg)

/-- The target of a call of `switch_to`, and no other call has the same. -/
theorem Handoff.once_run (h : k.Handoff) (hs : k.Stacked)
    (hstack : k.stack k.current = f :: rest) (heffect : Effect k c f k' fs) (n : Tid) :
    (k'.setStack k.current (fs ++ rest)).total (Frame.switchesTo n) ≤ 1 := by
  have htotal := heffect.total (p := Frame.switchesTo n) hs hstack rfl rfl
  by_cases hnew : ∃ fl, .switchTo fl n ∈ fs
  · obtain ⟨fl, hmem⟩ := hnew
    obtain ⟨-, hq, -, hfs⟩ := heffect.turn.of_switchTo (heffect.target hmem).1 hmem
    -- a thread of the run queue is nobody's target
    have hzero : k.total (Frame.switchesTo n) = 0 := total_eq_zero fun t g hg => by
      cases g with
      | switchTo fl' n' =>
        refine beq_eq_false_iff_ne.mpr ?_
        rintro rfl
        have hstate := (h.target t fl' n' hg).2
        rw [h.ready n' hq] at hstate
        rcases hstate with h | h <;> cases h
      | _ => rfl
    have hlength : fs.countP (Frame.switchesTo n) ≤ 1 := hfs ▸ List.countP_le_length
    omega
  · have hzero : fs.countP (Frame.switchesTo n) = 0 := List.countP_eq_zero.mpr fun g hg hp => by
      cases g with
      | switchTo fl n' => exact hnew ⟨fl, beq_iff_eq.mp hp ▸ hg⟩
      | _ => cases hp
    have hold := h.once n
    omega

/-- The targets after a step. -/
theorem Handoff.target_run (h : k.Handoff) (hs : k.Stacked)
    (hstack : k.stack k.current = f :: rest) (heffect : Effect k c f k' fs) {fl : Bool} {n : Tid}
    (hmem : .switchTo fl n ∈ (k'.setStack k.current (fs ++ rest)).stack t) :
    n ≠ k'.current ∧ (k'.state n = .running ∨ k'.state n = .zombie) := by
  have hold : ∀ {u}, .switchTo fl n ∈ k.stack u →
      n ≠ k'.current ∧ (k'.state n = .running ∨ k'.state n = .zombie) := fun {u} hu => by
    refine ⟨?_, h.state_target hs hu heffect.turn⟩
    rcases heffect.current with hcurrent | ⟨fl', hswitch, -⟩
    · rw [hcurrent]
      exact (h.target u fl n hu).1
    · -- the call that has switched was the only one to this thread
      rintro rfl
      have htotal := heffect.total (p := Frame.switchesTo k'.current) hs hstack rfl rfl
      have hone := h.once k'.current
      have hp : f.switchesTo k'.current = true := by
        rw [hswitch]
        exact beq_self_eq_true _
      have hfs : fs.countP (Frame.switchesTo k'.current) = 0 := by
        generalize k'.current = m at hswitch
        subst hswitch
        rw [heffect.of_switchTo.2]
        rfl
      have hcount : t < k'.count := by
        rcases heffect.mem_stack hmem with ⟨rfl, -⟩ | ⟨-, hu⟩ | ⟨⟨rfl, hlt⟩, -⟩
        · exact Nat.lt_of_lt_of_le hs.current_lt heffect.count
        · exact Nat.lt_of_lt_of_le (hs.lt_of_mem hu) heffect.count
        · exact hlt
      have hself : (Frame.switchTo fl k'.current).switchesTo k'.current = true :=
        beq_self_eq_true _
      have hleft : 1 ≤ (k'.setStack k.current (fs ++ rest)).total (Frame.switchesTo k'.current) :=
        one_le_total hcount hmem hself
      rw [if_pos hp] at htotal
      omega
  rcases heffect.mem_stack hmem with ⟨-, hfs | hrest⟩ | ⟨-, hu⟩ | ⟨-, hg | hg⟩
  · obtain ⟨hf, -⟩ := heffect.target hfs
    obtain ⟨hne, -, hrun, -⟩ := heffect.turn.of_switchTo hf hfs
    have hcurrent : k'.current = k.current := by
      rcases heffect.current with hcurrent | ⟨fl', hswitch, -⟩
      · exact hcurrent
      · rw [hf] at hswitch
        cases hswitch
    exact ⟨hcurrent ▸ hne, Or.inl hrun⟩
  · exact hold (hstack ▸ List.mem_cons_of_mem _ hrest)
  · exact hold hu
  · cases hg
  · cases hg

/-- The current thread is `READY` or `BLOCKED` inside `schedule` only. -/
theorem Handoff.current_run (h : k.Handoff) (hs : k.Stacked)
    (hstack : k.stack k.current = f :: rest) (heffect : Effect k c f k' fs)
    (hleaves : k.leavesCpu (f :: rest) = true)
    (hstate : k'.state k'.current = .ready ∨ k'.state k'.current = .blocked) :
    ∃ g ∈ (k'.setStack k.current (fs ++ rest)).stack k'.current, g.inSchedule = true := by
  rcases heffect.current with hcurrent | ⟨fl, hswitch, -⟩
  · rw [hcurrent] at hstate ⊢
    rw [stack_setStack, if_pos rfl]
    by_cases hschedule : f = .schedule
    · subst hschedule
      exact heffect.turn.inSchedule hleaves hstate
    have hnot : f.inSchedule = false := by
      cases f with
      | schedule => exact absurd rfl hschedule
      | switchTo fl n =>
        rw [heffect.of_switchTo.1] at hcurrent
        exact absurd hcurrent (h.target _ fl n (hstack ▸ List.mem_cons_self)).1
      | _ => rfl
    -- what made the thread give up the CPU is below the innermost call
    have hold : k.state k.current = .ready ∨ k.state k.current = .blocked →
        ∃ g ∈ fs ++ rest, g.inSchedule = true := fun hstate => by
      obtain ⟨g, hg, hin⟩ := h.current hstate
      rw [hstack] at hg
      rcases List.mem_cons.mp hg with rfl | hg
      · rw [hnot] at hin
        cases hin
      · exact ⟨g, List.mem_append_right _ hg, hin⟩
    have hturn := heffect.turn
    generalize k'.state = s at hturn hstate
    generalize k'.gRunq = q at hturn
    cases hturn with
    | same => exact hold hstate
    | born =>
      rw [Function.update_of_ne (Nat.ne_of_lt hs.current_lt)] at hstate
      exact hold hstate
    | woken t hblocked =>
      refine hold ?_
      by_cases ht : k.current = t
      · exact Or.inr (ht ▸ hblocked)
      · rwa [Function.update_of_ne ht] at hstate
    | blocks hf hfs =>
      refine ⟨.schedule, List.mem_append_left _ ?_, rfl⟩
      rcases hfs with rfl | ⟨_, -, rfl⟩ <;> exact List.mem_cons_self
    | ends =>
      rw [Function.update_self] at hstate
      rcases hstate with h | h <;> cases h
    | stopped t =>
      refine hold ?_
      rw [Function.update_apply] at hstate
      split_ifs at hstate
      · rcases hstate with h | h <;> cases h
      · exact hstate
    | alone hf | takes hf => exact absurd hf hschedule
  · -- who gets the CPU is `RUNNING`, or has been ended meanwhile
    have hmem : .switchTo fl k'.current ∈ k.stack k.current :=
      hstack ▸ hswitch ▸ List.mem_cons_self
    rcases h.state_target hs hmem heffect.turn with hrun | hrun <;> rw [hrun] at hstate <;>
      rcases hstate with h | h <;> cases h

/-- The innermost call of the current thread goes on. -/
theorem Handoff.run (h : k.Handoff) (hs : k.Stacked) (hstack : k.stack k.current = f :: rest)
    (heffect : Effect k c f k' fs) (hleaves : k.leavesCpu (f :: rest) = true) :
    (k'.setStack k.current (fs ++ rest)).Handoff where
  nodup := (h.queue hs hstack heffect.turn).1
  ready := (h.queue hs hstack heffect.turn).2
  target _ _ _ hmem := h.target_run hs hstack heffect hmem
  once := h.once_run hs hstack heffect
  current := h.current_run hs hstack heffect hleaves

/-- An interrupt puts a call on the stack of the current thread that is no `switch_to`. -/
theorem total_interrupt {p : Frame → Bool} (hs : k.Stacked) {ipc : IrqPc}
    (hp : p (.irq k.inUser k.sie ipc) = false) : (({ k with sie := false } : Kernel).setStack
      k.current (.irq k.inUser k.sie ipc :: k.stack k.current)).total p = k.total p := by
  have hset : (({ k with sie := false } : Kernel).setStack k.current
      (.irq k.inUser k.sie ipc :: k.stack k.current)).total p + (k.stack k.current).countP p =
      k.total p + (Frame.irq k.inUser k.sie ipc :: k.stack k.current).countP p :=
    total_setStack hs.current_lt
  rw [List.countP_cons_of_neg (by rw [hp]; exact Bool.false_ne_true)] at hset
  exact Nat.add_right_cancel hset

/-- **Every step** in which `schedule` does not come back to a `BLOCKED` caller. -/
theorem handoff_step {a : Label} (h : k.Handoff) (hs : k.Stacked)
    (hleaves : ∀ c, a = .run c → k.leavesCpu (k.stack k.current) = true)
    (hstep : step k a = some k') : k'.Handoff := by
  cases a with
  | tick d =>
    obtain rfl := Option.some.inj hstep
    exact ⟨h.nodup, h.ready, h.target, h.once, h.current⟩
  | interrupt timer =>
    obtain ⟨-, ipc, rfl⟩ := step_interrupt hstep
    refine ⟨h.nodup, h.ready, fun t fl n hmem => ?_, fun n => ?_, fun hstate => ?_⟩
    · rcases mem_stack_interrupt.mp hmem with hmem | ⟨-, hmem⟩
      · exact h.target t fl n hmem
      · cases hmem
    · rw [total_interrupt hs rfl]
      exact h.once n
    · obtain ⟨g, hg, hin⟩ := h.current hstate
      exact ⟨g, mem_stack_interrupt.mpr (Or.inl hg), hin⟩
  | run c =>
    obtain ⟨f, rest, k₁, fs, hstack, hrun, rfl⟩ := step_run hstep
    exact h.run hs hstack (run_effect hrun) (hstack ▸ hleaves c rfl)

theorem handoff_boot (freq : BitVec 64) : (boot freq).Handoff := by
  have hnone : ∀ t fl n, .switchTo fl n ∉ (boot freq).stack t := fun t fl n hmem => by
    rcases t with _ | _ | t
    · cases List.mem_singleton.mp hmem
    · cases List.mem_singleton.mp hmem
    · cases hmem
  refine ⟨List.nodup_singleton _, fun t ht => ?_, fun t fl n hmem => absurd hmem (hnone t fl n),
    fun n => ?_, fun hstate => ?_⟩
  · rw [List.mem_singleton.mp ht]
    rfl
  · rw [total_eq_zero]
    · exact Nat.zero_le 1
    · intro t g hg
      cases g with
      | switchTo fl n => exact absurd hg (hnone t fl n)
      | _ => rfl
  · rcases hstate with h | h <;> cases h

end Kernel
end Sched
end OscKernel
