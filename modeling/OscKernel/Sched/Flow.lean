import OscKernel.Sched.Stacked

/-!
# The flow of control

`Flow` lists how the innermost call of the current thread goes on, with the two bits that the trap
handler and `schedule` work with: `sstatus.SIE` and `g_need_resched`.

* `run_flow`: there is no other way to go on.

`Effect` leaves the two bits out, since most invariants do not depend on them; those that do need to
know in addition which calls come next.  The constructors are the places at which one of the bits is
read or written, and one for everything else.
-/

namespace OscKernel
namespace Sched

namespace Frame

/-- `trap_handler`. -/
def IsTrap : Frame → Prop
  | .irq _ _ _ | .ecall _ _ => True
  | _ => False

/-- `trap_handler` before its `need_resched_clear()`. -/
def BeforeGate : Frame → Prop
  | .irq _ _ pc => pc ≠ .deliver
  | .ecall _ pc => pc ≠ .deliver
  | _ => False

end Frame

namespace Kernel

/-- The timers whose time had come at `now` are off the queue. -/
def NoneDue (k : Kernel) (now : BitVec 64) : Prop := ∀ t ∈ k.gTimerQueue.head?, now < t.expireTick

instance (k : Kernel) (now : BitVec 64) : Decidable (k.NoneDue now) :=
  inferInstanceAs (Decidable (∀ _ ∈ _, _))

/-- The two states have the same `SIE` and the same `g_need_resched`. -/
structure SameBits (k k' : Kernel) : Prop where
  sie : k'.sie = k.sie
  gNeedResched : k'.gNeedResched = k.gNeedResched

/-- How the call `f` goes on: the new state, and the calls that replace `f`. -/
inductive Flow (k : Kernel) : Frame → Kernel → List Frame → Prop where
  /-- A system call. -/
  | trap {call k'} (hsie : k'.sie = true) (hneed : k'.gNeedResched = k.gNeedResched) :
      Flow k .user k' [.ecall k.sie (.doSyscall call), .user]
  /-- The end of `timer_top_half`. -/
  | rearm {user s now} (h : k.NoneDue now) :
      Flow k (.irq user s (.timerTopHalf now)) (k.timerRearm now)
        [.taskRunPending, .irq user s .preempt]
  /-- `need_resched_clear()` at the end of an interrupt. -/
  | preempt {user s} : Flow k (.irq user s .preempt) { k with gNeedResched := false }
      (if k.gNeedResched && user then [.schedule, .irq user s .deliver] else [.irq user s .deliver])
  /-- `need_resched_clear()` at the end of a system call. -/
  | resched {s} : Flow k (.ecall s .resched) { k with gNeedResched := false }
      (if k.gNeedResched then [.schedule, .ecall s .deliver] else [.ecall s .deliver])
  /-- The return from a trap. -/
  | sret {f s} (hf : (∃ user, f = .irq user s .deliver) ∨ f = .ecall s .deliver) :
      Flow k f { k with sie := s } []
  /-- `task_run_pending` sets `SIE` and calls a callback. -/
  | start {k' cb} (hsie : k'.sie = true) (hneed : k'.gNeedResched = k.gNeedResched) :
      Flow k .taskRunPending k' [.callback cb, .taskDone k.gRunningPriority]
  /-- `schedule` has chosen. -/
  | choose {k' g} (h : SameBits k k')
      (hg : g = .scheduleReturn k.sie ∨ ∃ n, g = .switchTo k.sie n) :
      Flow k .schedule k' [g]
  /-- `switch_to`. -/
  | switch {flags next} : Flow k (.switchTo flags next) { k with current := next }
      [.scheduleReturn flags]
  /-- Every other call.  A trap handler comes to its gate, or gives up the CPU. -/
  | call {f k' fs} (h : SameBits k k') (hflags : ∀ g ∈ fs, g.flags = none)
      (hf : f ≠ .schedule ∧ f.flags = none ∨ ∃ fl, f = .scheduleReturn fl)
      (hdue : ∀ user s now, f = .irq user s (.timerTopHalf now) → ¬ k.NoneDue now)
      (hgate : f.IsTrap → (∀ user s, f ≠ .irq user s .preempt) ∧ (∀ s, f ≠ .ecall s .resched) ∧
        ((∃ g ∈ fs, g.BeforeGate) ∨ .schedule ∈ fs)) : Flow k f k' fs

variable {k k' k'' : Kernel} {c : Choice} {f : Frame} {fs : List Frame} {t : Tid}

/-! ## The two bits -/

theorem SameBits.refl (k : Kernel) : SameBits k k := ⟨rfl, rfl⟩

theorem SameBits.trans (h : SameBits k k') (h' : SameBits k' k'') : SameBits k k'' :=
  ⟨h'.sie.trans h.sie, h'.gNeedResched.trans h.gNeedResched⟩

theorem Beside.bits (h : Beside k k') : SameBits k k' := ⟨h.sie, h.gNeedResched⟩

theorem sameBits_addTimerTicks (cb : Callback) (ticks : BitVec 64) (ok : Bool) :
    SameBits k (k.addTimerTicks cb ticks ok) := by
  unfold addTimerTicks
  split_ifs <;> exact ⟨rfl, rfl⟩

theorem sameBits_addTaskIf (ok : Bool) (cb : Callback) (p : ℤ) :
    SameBits k (k.addTaskIf ok cb p) := by
  cases ok <;> exact ⟨rfl, rfl⟩

/-! ## The functions of the machine -/

theorem flags_wakeParent (h : ∀ g ∈ fs, g.flags = none) :
    ∀ g ∈ k.wakeParent t fs, g.flags = none := by
  unfold wakeParent
  cases k.parent t with
  | none => exact h
  | some par => exact List.forall_mem_cons.mpr ⟨rfl, h⟩

theorem mem_wakeParent_of_mem {g : Frame} (h : g ∈ fs) : g ∈ k.wakeParent t fs := by
  unfold wakeParent
  cases k.parent t with
  | none => exact h
  | some par => exact List.mem_cons_of_mem _ h

/-- A trap handler gives up the CPU for good. -/
theorem flow_dead (h : SameBits k k') (hf : f.IsTrap)
    (hpreempt : ∀ user s, f ≠ .irq user s .preempt)
    (hresched : ∀ s, f ≠ .ecall s .resched)
    (hdue : ∀ user s now, f ≠ .irq user s (.timerTopHalf now)) {j : Kernel} :
    Flow k f k' (j.wakeParent t [.schedule, .dead, f]) := by
  have hflags : f.flags = none := by cases f <;> first | rfl | exact hf.elim
  refine .call h (flags_wakeParent ?_) (Or.inl ⟨?_, hflags⟩)
    (fun user s now heq => absurd heq (hdue user s now)) fun _ =>
      ⟨hpreempt, hresched, Or.inr (mem_wakeParent_of_mem List.mem_cons_self)⟩
  · simpa [Frame.flags] using hflags
  · rintro rfl
    exact hf

/-- A trap handler comes to its gate, after calls that are no `schedule`. -/
theorem flow_gate {s : Bool} {call : Syscall} (h : SameBits k k')
    (hfs : ∀ g ∈ fs, g.flags = none) (hmem : .ecall s .resched ∈ fs) :
    Flow k (.ecall s (.doSyscall call)) k' fs :=
  .call h hfs (Or.inl ⟨nofun, rfl⟩) nofun fun _ => ⟨nofun, nofun, Or.inl ⟨_, hmem, nofun⟩⟩

/-- The same for an interrupt. -/
theorem flow_irqGate {user s : Bool} {pc pc' : IrqPc} (h : SameBits k k')
    (hfs : ∀ g ∈ fs, g.flags = none) (hpc : pc ≠ .preempt)
    (hdue : ∀ now, pc = .timerTopHalf now → ¬ k.NoneDue now) (hpc' : pc' ≠ .deliver)
    (hmem : .irq user s pc' ∈ fs) : Flow k (.irq user s pc) k' fs :=
  .call h hfs (Or.inl ⟨by simp, rfl⟩) (fun _ _ now heq => hdue now (Frame.irq.inj heq).2.2)
    fun _ => ⟨fun _ _ heq => hpc (Frame.irq.inj heq).2.2, by simp, Or.inl ⟨_, hmem, hpc'⟩⟩

theorem flow_doSyscall (s : Bool) (call : Syscall) :
    Flow k (.ecall s (.doSyscall call)) (k.doSyscall c s call).1 (k.doSyscall c s call).2 := by
  have hdone : ∀ {k'}, SameBits k k' →
      Flow k (.ecall s (.doSyscall call)) k' [.ecall s .resched] := fun h =>
    flow_gate h (by simp [Frame.flags]) List.mem_cons_self
  have hexit : ∀ status, Flow k (.ecall s (.doSyscall call))
      (k.exitWith status (.ecall s (.doSyscall call))).1
      (k.exitWith status (.ecall s (.doSyscall call))).2 := fun status =>
    flow_dead (f := .ecall s (.doSyscall call)) (beside_sysExit status).bits trivial
      (by simp) (by simp) (by simp)
  unfold doSyscall
  cases call with
  | fork =>
    dsimp only
    split_ifs
    · have hnew := (beside_newUserThread (k := k) c.kmalloc c.image).bits
      generalize k.newUserThread c.kmalloc c.image = r at hnew
      obtain ⟨k₁, _ | ch⟩ := r
      · exact hdone (hnew.trans ⟨rfl, rfl⟩)
      · exact hdone (hnew.trans ⟨rfl, rfl⟩)
    · exact hdone ⟨rfl, rfl⟩
  | exit status => exact hexit status
  | stop pid =>
    dsimp only
    split_ifs
    · exact hexit (-1)
    · cases k.stopTarget (pid.setWidth 32) with
      | none => exact hdone ⟨rfl, rfl⟩
      | some t =>
        exact flow_gate ((beside_terminate t).bits.trans ⟨rfl, rfl⟩)
          (flags_wakeParent (by simp [Frame.flags])) (mem_wakeParent_of_mem List.mem_cons_self)
  | waitpid pid =>
    dsimp only
    cases k.waitTarget pid with
    | none => exact hdone ⟨rfl, rfl⟩
    | some child => exact flow_gate (.refl k) (by simp [Frame.flags]) (by simp)
  | usleep usec =>
    dsimp only
    split_ifs
    · exact hdone ⟨rfl, rfl⟩
    · exact flow_gate ((sameBits_addTimerTicks ..).trans ⟨rfl, rfl⟩) (by simp [Frame.flags])
        (by simp)
  | console =>
    dsimp only
    split_ifs
    · exact .call (.refl k) (by simp [Frame.flags]) (Or.inl ⟨by simp, rfl⟩) (by simp)
        fun _ => ⟨by simp, by simp, Or.inr List.mem_cons_self⟩
    · exact hdone ⟨rfl, rfl⟩
  | other => exact hdone ⟨rfl, rfl⟩

theorem flow_deliver {user s : Bool}
    (hf : (∃ user, f = .irq user s .deliver) ∨ f = .ecall s .deliver) :
    Flow k f (k.deliver c user s f).1 (k.deliver c user s f).2 := by
  unfold deliver
  split_ifs
  · refine flow_dead (beside_terminate _).bits ?_ ?_ ?_ ?_ <;>
      rcases hf with ⟨_, rfl⟩ | rfl <;> first | trivial | nofun
  · exact .sret hf

theorem flow_irqHandler (user s : Bool) (pc : IrqPc) :
    Flow k (.irq user s pc) (k.irqHandler c user s pc).1 (k.irqHandler c user s pc).2 := by
  unfold irqHandler
  cases pc with
  | timerTopHalf now =>
    cases hq : k.gTimerQueue with
    | nil => exact .rearm (by simp [NoneDue, hq])
    | cons t rest =>
      dsimp only
      by_cases hdue : now < t.expireTick
      · rw [if_pos hdue]
        refine .rearm fun u hu => ?_
        rw [hq] at hu
        exact Option.some.inj hu ▸ hdue
      · have hnot : ∀ now', IrqPc.timerTopHalf now = .timerTopHalf now' → ¬ k.NoneDue now' := by
          rintro now' heq hnone
          obtain rfl := IrqPc.timerTopHalf.inj heq
          exact hdue (hnone t (by rw [hq]; rfl))
        rw [if_neg hdue]
        split_ifs
        · exact flow_irqGate ⟨rfl, rfl⟩ (by simp [Frame.flags]) (by simp) hnot (by simp)
            List.mem_cons_self
        · exact flow_irqGate ⟨rfl, rfl⟩ (by simp [Frame.flags]) (by simp) hnot (by simp)
            (List.mem_cons_of_mem _ List.mem_cons_self)
  | uartTopHalf =>
    exact flow_irqGate (sameBits_addTaskIf ..) (by simp [Frame.flags]) (by simp) (by simp)
      (by simp) (List.mem_cons_of_mem _ List.mem_cons_self)
  | preempt => exact .preempt
  | deliver => exact flow_deliver (Or.inl ⟨_, rfl⟩)

theorem flow_ecallHandler (s : Bool) (pc : EcallPc) :
    Flow k (.ecall s pc) (k.ecallHandler c s pc).1 (k.ecallHandler c s pc).2 := by
  cases pc with
  | doSyscall call => exact flow_doSyscall s call
  | resched => exact .resched
  | deliver => exact flow_deliver (Or.inr rfl)

/-- A call that is no trap handler. -/
theorem flow_call (h : SameBits k k') (hfs : ∀ g ∈ fs, g.flags = none)
    (hf : f ≠ .schedule ∧ f.flags = none ∨ ∃ fl, f = .scheduleReturn fl) (htrap : ¬ f.IsTrap) :
    Flow k f k' fs :=
  .call h hfs hf (fun _ _ _ heq => absurd (heq ▸ trivial) htrap) fun ht => absurd ht htrap

theorem flow_shellCommand (h : k.shellCommand c = some (k', fs)) : Flow k .shell k' fs := by
  have hgo : ∀ {k' fs}, SameBits k k' → (∀ g ∈ fs, g.flags = none) → Flow k .shell k' fs :=
    fun h hfs => flow_call h hfs (Or.inl ⟨by simp, rfl⟩) id
  unfold shellCommand at h
  cases hc : c.command with
  | runUserProgram =>
    rw [hc] at h
    dsimp only at h
    have hnew : SameBits k (k.threadSpawnUser c.kmalloc c.image).1 := (beside_newUserThread ..).bits
    generalize k.threadSpawnUser c.kmalloc c.image = r at h hnew
    obtain ⟨k₁, _ | t⟩ := r <;> obtain ⟨rfl, rfl⟩ := Prod.mk.inj (Option.some.inj h) <;>
      exact hgo hnew (by simp [Frame.flags])
  | threadCreate =>
    rw [hc] at h
    obtain ⟨rfl, rfl⟩ := Prod.mk.inj (Option.some.inj h)
    exact hgo (beside_threadCreate _).bits (by simp [Frame.flags])
  | stop pid =>
    rw [hc] at h
    dsimp only at h
    cases ht : k.stopTarget pid with
    | none =>
      rw [ht] at h
      obtain ⟨rfl, rfl⟩ := Prod.mk.inj (Option.some.inj h)
      exact hgo (.refl k) (by simp [Frame.flags])
    | some t =>
      rw [ht] at h
      obtain ⟨rfl, rfl⟩ := Prod.mk.inj (Option.some.inj h)
      exact hgo (beside_terminate t).bits (flags_wakeParent (by simp [Frame.flags]))
  | setTimeout ticks =>
    rw [hc] at h
    obtain ⟨rfl, rfl⟩ := Prod.mk.inj (Option.some.inj h)
    exact hgo (sameBits_addTimerTicks ..) (by simp [Frame.flags])
  | taskDemo ok₃ ok₁ ok₅ =>
    rw [hc] at h
    obtain ⟨rfl, rfl⟩ := Prod.mk.inj (Option.some.inj h)
    exact hgo (((sameBits_addTaskIf ..).trans (sameBits_addTaskIf ..)).trans
      (sameBits_addTaskIf ..)) (by simp [Frame.flags])
  | taskNest =>
    rw [hc] at h
    obtain ⟨rfl, rfl⟩ := Prod.mk.inj (Option.some.inj h)
    exact hgo (sameBits_addTaskIf ..) (by simp [Frame.flags])
  | yield =>
    rw [hc] at h
    obtain ⟨rfl, rfl⟩ := Prod.mk.inj (Option.some.inj h)
    exact hgo (.refl k) (by simp [Frame.flags])
  | exit =>
    rw [hc] at h
    cases h

theorem flow_threadBody (h : k.threadBody c = some (k', fs)) : Flow k .kernelThread k' fs := by
  have hgo : ∀ {k' fs}, SameBits k k' → (∀ g ∈ fs, g.flags = none) → Flow k .kernelThread k' fs :=
    fun h hfs => flow_call h hfs (Or.inl ⟨by simp, rfl⟩) id
  unfold threadBody at h
  cases hc : c.command with
  | threadCreate =>
    rw [hc] at h
    obtain ⟨rfl, rfl⟩ := Prod.mk.inj (Option.some.inj h)
    exact hgo (beside_threadCreate _).bits (by simp [Frame.flags])
  | yield =>
    rw [hc] at h
    obtain ⟨rfl, rfl⟩ := Prod.mk.inj (Option.some.inj h)
    exact hgo (.refl k) (by simp [Frame.flags])
  | exit =>
    rw [hc] at h
    dsimp only at h
    split_ifs at h
    obtain ⟨rfl, rfl⟩ := Prod.mk.inj (Option.some.inj h)
    exact hgo ⟨rfl, rfl⟩ (by simp [Frame.flags])
  | _ =>
    rw [hc] at h
    cases h

theorem flow_taskRunPending : Flow k .taskRunPending k.taskRunPending.1 k.taskRunPending.2 := by
  have hgo : Flow k .taskRunPending k [] := flow_call (.refl k) (by simp) (Or.inl ⟨by simp, rfl⟩) id
  unfold taskRunPending
  cases k.gTaskQueue with
  | nil => exact hgo
  | cons t rest =>
    dsimp only
    split_ifs
    · exact .start rfl rfl
    · exact hgo

/-- **Every step of the current thread goes one of these ways.** -/
theorem run_flow (h : k.run c f = some (k', fs)) : Flow k f k' fs := by
  cases f with
  | user =>
    obtain ⟨rfl, rfl⟩ := Prod.mk.inj (Option.some.inj h)
    exact .trap rfl rfl
  | scheduleReturn fl =>
    obtain ⟨rfl, rfl⟩ := Prod.mk.inj (Option.some.inj h)
    exact flow_call (.refl k) (by simp) (Or.inr ⟨fl, rfl⟩) id
  | idleThreadBody =>
    rw [run] at h
    cases hz : k.killZombie with
    | some k₁ =>
      rw [hz] at h
      obtain ⟨rfl, rfl⟩ := Prod.mk.inj (Option.some.inj h)
      exact flow_call (beside_killZombie hz).bits (by simp [Frame.flags]) (Or.inl ⟨by simp, rfl⟩) id
    | none =>
      rw [hz] at h
      obtain ⟨rfl, rfl⟩ := Prod.mk.inj (Option.some.inj h)
      exact flow_call (.refl k) (by simp [Frame.flags]) (Or.inl ⟨by simp, rfl⟩) id
  | shell => exact flow_shellCommand h
  | kernelThread => exact flow_threadBody h
  | irq user s pc =>
    obtain ⟨rfl, rfl⟩ := Prod.mk.inj (Option.some.inj h)
    exact flow_irqHandler user s pc
  | ecall s pc =>
    obtain ⟨rfl, rfl⟩ := Prod.mk.inj (Option.some.inj h)
    exact flow_ecallHandler s pc
  | callback cb =>
    have hgo : ∀ {k' fs}, SameBits k k' → (∀ g ∈ fs, g.flags = none) →
        Flow k (.callback cb) k' fs := fun h hfs => flow_call h hfs (Or.inl ⟨by simp, rfl⟩) id
    cases cb with
    | usleepCb tok =>
      rw [run] at h
      split_ifs at h
      obtain ⟨rfl, rfl⟩ := Prod.mk.inj (Option.some.inj h)
      exact hgo ((beside_threadWakeup tok.t).bits.trans ⟨rfl, rfl⟩) (by simp)
    | other =>
      rw [run] at h
      split_ifs at h <;> obtain ⟨rfl, rfl⟩ := Prod.mk.inj (Option.some.inj h) <;>
        exact hgo (.refl k) (by simp [Frame.flags])
    | demoTaskSlow =>
      rw [run] at h
      split_ifs at h <;> obtain ⟨rfl, rfl⟩ := Prod.mk.inj (Option.some.inj h)
      · exact hgo (.refl k) (by simp [Frame.flags])
      · exact hgo (sameBits_addTaskIf ..) (by simp [Frame.flags])
  | taskRunPending =>
    obtain ⟨h₁, h₂⟩ := Prod.mk.inj (Option.some.inj h)
    exact h₁ ▸ h₂ ▸ flow_taskRunPending
  | taskDone prevPrio =>
    obtain ⟨rfl, rfl⟩ := Prod.mk.inj (Option.some.inj h)
    exact flow_call ⟨rfl, rfl⟩ (by simp [Frame.flags]) (Or.inl ⟨by simp, rfl⟩) id
  | sysUsleep tok pc =>
    cases pc <;> obtain ⟨rfl, rfl⟩ := Prod.mk.inj (Option.some.inj h) <;>
      exact flow_call ⟨rfl, rfl⟩ (by simp [Frame.flags]) (Or.inl ⟨by simp, rfl⟩) id
  | sysWaitpid child | runUserProgram child =>
    rw [run] at h
    split_ifs at h <;> obtain ⟨rfl, rfl⟩ := Prod.mk.inj (Option.some.inj h) <;>
      exact flow_call ⟨rfl, rfl⟩ (by simp [Frame.flags]) (Or.inl ⟨by simp, rfl⟩) id
  | threadWakeup par =>
    rw [run] at h
    split_ifs at h
    obtain ⟨rfl, rfl⟩ := Prod.mk.inj (Option.some.inj h)
    exact flow_call (beside_threadWakeup par).bits (by simp) (Or.inl ⟨by simp, rfl⟩) id
  | schedule =>
    have hbits := (beside_schedule (k := k)).bits
    rw [run] at h
    rcases hs : k.schedule with ⟨k₁, _ | next⟩ <;> rw [hs] at h hbits <;> dsimp only at h
    · obtain ⟨rfl, rfl⟩ := Prod.mk.inj (Option.some.inj h)
      exact .choose hbits (Or.inl rfl)
    · split_ifs at h <;> obtain ⟨rfl, rfl⟩ := Prod.mk.inj (Option.some.inj h)
      · exact .choose hbits (Or.inl rfl)
      · exact .choose hbits (Or.inr ⟨next, rfl⟩)
  | switchTo flags next =>
    rw [run] at h
    split_ifs at h
    obtain ⟨rfl, rfl⟩ := Prod.mk.inj (Option.some.inj h)
    exact .switch
  | dead => cases h

end Kernel
end Sched
end OscKernel
