import OscKernel.Trap.Simulation

/-!
# Interrupted programs (`trap_entry.S`, `sched.c`, `syscall.c`)

A program that was interrupted, by a trap or by a timer interrupt that gives the hart to other
threads, goes on where it was, and one that has not run yet starts where its frame says.  In between
anything else may run that `Allowed` admits: no program writes `tp`, nothing writes the trap frames
and the records of the threads, no trap falls inside `switch_to` or inside a return, and a return
begins with `SIE` clear, also the one that goes back to the program.  Without the last a new program
can be caught in the return sequence and start in the kernel, as `user_thread_bootstrap` may run
with interrupts enabled.

* `plantInitialFrame`, `forkFrame`: the frames of new programs.
* `resumed_of_reachable`: an interrupted program goes on with its registers, but for `t0`.
* `started_of_reachable`, `forked_of_reachable`: the first context of a program.
-/

namespace OscKernel
namespace Trap

open Rv64 Transition

/-! ## While it does not run -/

/-- What runs beside a program that has been interrupted: anything but what rewrites its frame,
frees it or returns to it. -/
def Away (u : ℕ) (s : Threads) : ThreadEvent → Prop
  | .rewrite _ => s.current ≠ u
  | .reap v => v ≠ u
  | .ret => s.current = u → ∀ i, s.thread u = some i → i.frames.length ≠ 1
  | _ => True

/-- The program of the thread `u` has been interrupted in the context `ctx`. -/
def Interrupted (u : ℕ) (ctx : Context) (s : Threads) : Prop :=
  ∃ i, s.thread u = some i ∧ [.trap .user ctx] <:+ i.frames

section Runs

variable {s t : Threads} {u : ℕ} {ctx : Context}

/-- The frame stays when the current thread changes its other frames. -/
theorem Interrupted.setFrames {i : Kthread} {fs : List KFrame} (h : Interrupted u ctx s)
    (hi : s.thread s.current = some i)
    (hfs : s.current = u → [.trap .user ctx] <:+ i.frames → [.trap .user ctx] <:+ fs) :
    ∃ j, s.setFrames i fs u = some j ∧ [.trap .user ctx] <:+ j.frames := by
  obtain ⟨j, hj, hsuffix⟩ := h
  by_cases hu : u = s.current
  · subst hu
    obtain rfl := Option.some.inj (hi.symm.trans hj)
    exact ⟨_, Function.update_self .., hfs rfl hsuffix⟩
  · exact ⟨j, (Function.update_of_ne hu _ _).trans hj, hsuffix⟩

theorem Interrupted.step {e : ThreadEvent} (h : Interrupted u ctx s) (haway : Away u s e)
    (hs : s.step e = some t) : Interrupted u ctx t := by
  cases e with
  | user x pc mem =>
    rw [Threads.step] at hs
    split_ifs at hs
    obtain rfl := Option.some.inj hs
    exact h
  | kernel x pc sstatus mem =>
    rw [Threads.step] at hs
    split_ifs at hs
    obtain rfl := Option.some.inj hs
    exact h
  | call bytes =>
    rw [Threads.step] at hs
    split at hs
    · next i hi _ =>
      obtain rfl := Option.some.inj hs
      exact h.setFrames hi fun _ hsuffix => hsuffix.trans (List.suffix_cons _ _)
    · cases hs
  | leave =>
    rw [Threads.step] at hs
    split at hs
    · next i hi _ =>
      split at hs
      · next bytes fs hfs =>
        obtain rfl := Option.some.inj hs
        refine h.setFrames hi fun _ hsuffix => ?_
        rw [hfs, List.suffix_cons_iff] at hsuffix
        exact hsuffix.resolve_left (by simp)
      · cases hs
    · cases hs
  | trap stvec cause tval =>
    rw [Threads.step] at hs
    split at hs
    · next i hi =>
      obtain rfl := Option.some.inj hs
      exact h.setFrames hi fun _ hsuffix => hsuffix.trans (List.suffix_cons _ _)
    · cases hs
  | ret =>
    rw [Threads.step] at hs
    split at hs
    · next i hi _ =>
      split at hs
      · next path c fs hfs =>
        obtain rfl := Option.some.inj hs
        refine h.setFrames hi fun hu hsuffix => ?_
        have hne := haway hu i (hu ▸ hi)
        rw [hfs, List.suffix_cons_iff] at hsuffix
        refine hsuffix.resolve_left fun heq => hne ?_
        rw [hfs, ← heq]
        rfl
      · cases hs
    · cases hs
  | switchTo next ret =>
    rw [Threads.step] at hs
    split at hs
    · next i j hi hj _ =>
      split_ifs at hs
      obtain rfl := Option.some.inj hs
      obtain ⟨k, hk, hsuffix⟩ := h
      by_cases hu : u = s.current
      · subst hu
        obtain rfl := Option.some.inj (hi.symm.trans hk)
        exact ⟨_, Function.update_self .., hsuffix⟩
      · exact ⟨k, (Function.update_of_ne hu _ _).trans hk, hsuffix⟩
    · cases hs
  | rewrite c =>
    rw [Threads.step] at hs
    split at hs
    · next i hi _ =>
      obtain ⟨fs, -, rfl⟩ := Option.map_eq_some_iff.mp hs
      exact h.setFrames hi fun hu => absurd hu haway
    · cases hs
  | create v record kstackBase kstackSize ret c =>
    rw [Threads.step] at hs
    split at hs
    · next hv _ =>
      obtain rfl := Option.some.inj hs
      obtain ⟨j, hj, hsuffix⟩ := h
      have hne : u ≠ v := fun heq => by
        rw [← heq, hj] at hv
        cases hv
      exact ⟨j, (Function.update_of_ne hne _ _).trans hj, hsuffix⟩
    · cases hs
  | reap v =>
    rw [Threads.step] at hs
    split_ifs at hs
    obtain rfl := Option.some.inj hs
    obtain ⟨j, hj, hsuffix⟩ := h
    exact ⟨j, (Function.update_of_ne (Ne.symm haway) _ _).trans hj, hsuffix⟩

/-- The return of a program to U-mode is to the context that it was interrupted in. -/
theorem Interrupted.ret {h : Hart} (hr : Refines s h) (hint : Interrupted u ctx s)
    (hcur : s.current = u) (hs : s.step .ret = some t) (huser : t.priv = .user) :
    t.x = Threads.returnRegs .user ctx ∧ t.pc = ctx.pc ∧ t.sstatus = sretStatus ctx.sstatus := by
  rw [Threads.step] at hs
  split at hs
  · next i hi _ =>
    split at hs
    · next path c fs hfs =>
      obtain rfl := Option.some.inj hs
      obtain ⟨j, hj, hsuffix⟩ := hint
      subst hcur
      obtain rfl := Option.some.inj (hi.symm.trans hj)
      obtain ⟨hheld, -⟩ := hr.stored.stacked _ _ hi
      rw [hfs] at hheld hsuffix
      obtain ⟨-, hframed⟩ := hheld.2.1
      have hspp : spp c.sstatus = .user := huser
      cases path with
      | kernel =>
        rw [hspp] at hframed
        exact absurd hframed.2 (by decide)
      | user =>
        rw [hframed.1, List.suffix_cons_iff] at hsuffix
        obtain heq | hnil := hsuffix
        · obtain rfl : ctx = c := by simpa using heq
          exact ⟨rfl, rfl, rfl⟩
        · exact absurd (List.suffix_nil.mp hnil) (by simp)
    · cases hs
  · cases hs

/-- After any run beside it, the program of `u` returns to its context. -/
theorem returned_of_reachable {s₁ s₂ s₃ : Threads × Hart} (h1 : Refines s₁.1 s₁.2)
    (hint : Interrupted u ctx s₁.1)
    (hrun : Reachable runThreads (fun s e => Allowed s e ∧ Away u s.1 e) s₁ s₂)
    (hcur : s₂.1.current = u) (hret : Allowed s₂ .ret ∧ runThreads s₂ .ret = some s₃)
    (huser : s₃.1.priv = .user) :
    s₃.2.priv = .user ∧ s₃.2.pc = ctx.pc ∧
      (∀ r, r ≠ 0 → s₃.2.cpu.get r = Threads.returnRegs .user ctx r) ∧
      s₃.2.cpu.csr .sstatus = sretStatus ctx.sstatus := by
  have h2 : Refines s₂.1 s₂.2 :=
    hrun.invariant (P := fun s => Refines s.1 s.2) h1 fun _ _ _ hv hG hs => hv.event hG.1 hs
  have hint2 : Interrupted u ctx s₂.1 :=
    hrun.invariant (P := fun s => Interrupted u ctx s.1) hint fun v e v' hv hG hs => by
      obtain ⟨t, ht, rfl⟩ := Option.map_eq_some_iff.mp hs
      exact hv.step hG.2 ht
  obtain ⟨t, ht, rfl⟩ := Option.map_eq_some_iff.mp hret.2
  have h3 := h2.ret ht
  obtain ⟨hx, hpc, hstatus⟩ := hint2.ret h2 hcur ht huser
  exact ⟨h3.priv.trans huser, h3.pc.trans hpc, fun r hr0 => (h3.x r hr0).trans (congrFun hx r),
    h3.sstatus.trans hstatus⟩

/-! ## Programs that were interrupted -/

/-- What the program of `u` does next when it runs again, as `s` left it. -/
structure Resumed (s s' : Hart) : Prop where
  priv : s'.priv = .user
  pc : s'.pc = s.pc
  x : ∀ r : Reg, r ≠ 0 → r ≠ t0 → s'.cpu.get r = s.cpu.get r
  t0_eq : s'.cpu.get t0 = s.cpu.get sp

/-! ## New programs -/

/-- `SSTATUS_SIE`. -/
def sstatusSie : Word := 1#64 <<< 1
/-- `SSTATUS_SPIE`. -/
def sstatusSpie : Word := 1#64 <<< 5
/-- `SSTATUS_SPP`. -/
def sstatusSpp : Word := 1#64 <<< 8

/-- `plant_initial_frame(t, entry, user_sp)`, where `sstatus` reads as `ss`. -/
def plantInitialFrame (t entry userSp ss : Word) : Context where
  x r := if r = sp then userSp else if r = tp then t else 0
  pc := entry
  sstatus := (ss &&& ~~~(sstatusSpp ||| sstatusSie)) ||| sstatusSpie

/-- The frame that `sys_fork` plants for the child `ch`: that of the parent, which has been advanced
past the `ecall`, with another `a0`, `sp` and `tp`. -/
def forkFrame (tf : Context) (ch childUserSp : Word) : Context :=
  { tf with x := fun r => if r = tp then ch else if r = sp then childUserSp
                          else if r = a0 then 0 else tf.x r }

/-- The frame returns to U-mode with interrupts enabled, whatever `sstatus` was. -/
theorem sstatus_plantInitialFrame (t entry userSp ss : Word) :
    let w := (plantInitialFrame t entry userSp ss).sstatus
    spp w = .user ∧ sie w = false ∧ sie (sretStatus w) = true := by
  have hbit : ∀ i, (plantInitialFrame t entry userSp ss).sstatus.getLsbD i =
      ((ss.getLsbD i && !(sstatusSpp ||| sstatusSie).getLsbD i && decide (i < 64)) ||
        sstatusSpie.getLsbD i) := fun i => by
    unfold plantInitialFrame
    rw [BitVec.getLsbD_or, BitVec.getLsbD_and, BitVec.getLsbD_not]
    cases decide (i < 64) <;> simp
  have hspp : (plantInitialFrame t entry userSp ss).sstatus.getLsbD sppBit = false := by
    rw [hbit]
    simp +decide
  have hsie : (plantInitialFrame t entry userSp ss).sstatus.getLsbD sieBit = false := by
    rw [hbit]
    simp +decide
  have hspie : (plantInitialFrame t entry userSp ss).sstatus.getLsbD spieBit = true := by
    rw [hbit]
    simp +decide
  refine ⟨?_, hsie, ?_⟩
  · unfold spp
    rw [hspp]
    rfl
  · unfold sie sretStatus
    rw [getLsbD_setBit (by decide), if_neg (by decide), getLsbD_setBit (by decide),
      if_neg (by decide), getLsbD_setBit (by decide), if_pos rfl, hspie]

/-- A new program, after any run beside it, begins with the context of its frame. -/
theorem dispatched_of_reachable {s₀ s₁ s₂ s₃ : Threads × Hart} {record kstackBase kstackSize : ℕ}
    {ret : Word} (h0 : Refines s₀.1 s₀.2)
    (hG : Allowed s₀ (.create u record kstackBase kstackSize ret (some ctx)))
    (hcreate : runThreads s₀ (.create u record kstackBase kstackSize ret (some ctx)) = some s₁)
    (hrun : Reachable runThreads (fun s e => Allowed s e ∧ Away u s.1 e) s₁ s₂)
    (hcur : s₂.1.current = u) (hret : Allowed s₂ .ret ∧ runThreads s₂ .ret = some s₃)
    (huser : s₃.1.priv = .user) :
    s₃.2.priv = .user ∧ s₃.2.pc = ctx.pc ∧
      (∀ r, r ≠ 0 → s₃.2.cpu.get r = Threads.returnRegs .user ctx r) ∧
      s₃.2.cpu.csr .sstatus = sretStatus ctx.sstatus := by
  obtain ⟨t, ht, rfl⟩ := Option.map_eq_some_iff.mp hcreate
  refine returned_of_reachable (h0.step hG ht) ?_ hrun hcur hret huser
  rw [Threads.step] at ht
  split at ht
  · obtain rfl := Option.some.inj ht
    exact ⟨_, Function.update_self .., List.suffix_refl _⟩
  · cases ht

end Runs

/-! ## Runs -/

/-- There is room for a second thread. -/
theorem allowed_create {ctx : Option Context} {ret : Word}
    (hctx : ∀ c ∈ ctx, c.x tp = 0x80300000 ∧ spp c.sstatus = .user) :
    Allowed (bootThreads .supervisor, bootHart .supervisor)
      (.create 1 0x80300000 0x80400000 8192 ret ctx) := by
  have htop : (Threads.newThread 0x80300000 0x80400000 8192 ret ctx).top = 0x80402000 := by
    simp only [Kthread.top, Threads.newThread]
  refine ⟨by decide, by rw [htop]; decide, by rw [htop]; decide, fun a hlo hhi hin => ?_,
    fun u j hu a ha => ?_, fun c hc => ⟨(hctx c hc).1, (hctx c hc).2, by decide⟩⟩
  · simp only [ctxSize, Kthread.top, Threads.newThread] at hlo hhi hin
    omega
  · obtain ⟨-, rfl⟩ := thread_boot hu
    simp only [Kthread.area, ctxSize, Kthread.top, Threads.newThread, Set.mem_ofPred_eq] at ha ⊢
    omega

/-- A new program is dispatched with interrupts disabled when `switch_to` was called so. -/
theorem allowed_ret_of_switch {v v' : Threads × Hart} {next : ℕ} {ret : Word}
    (hs : runThreads v (.switchTo next ret) = some v') (hsie : sie v.1.sstatus = false)
    (hframe : ∀ i ∈ v.1.thread next, ∀ path ctx,
      i.frames.head? = some (.trap path ctx) → sie ctx.sstatus = false) : Allowed v' .ret := by
  obtain ⟨t, ht, rfl⟩ := Option.map_eq_some_iff.mp hs
  rw [Threads.step] at ht
  split at ht
  · next i j hi hj _ =>
    split_ifs at ht with hne
    obtain rfl := Option.some.inj ht
    refine ⟨hsie, fun k hk => ?_⟩
    change Function.update v.1.thread v.1.current (some _) next = some k at hk
    rw [Function.update_of_ne hne] at hk
    exact hframe k hk
  · cases ht

/-- The first dispatch of the second thread. -/
theorem allowed_ret_of_create {c : Context} {ret ra : Word} {v v' : Threads × Hart}
    (h₁ : runThreads (bootThreads .supervisor, bootHart .supervisor)
      (.create 1 0x80300000 0x80400000 8192 ret (some c)) = some v)
    (h₂ : runThreads v (.switchTo 1 ra) = some v') (hc : sie c.sstatus = false) :
    Allowed v' .ret := by
  obtain rfl := Option.some.inj h₁
  refine allowed_ret_of_switch h₂ (show sie 0 = false by decide) fun i hi path ctx hctx => ?_
  obtain rfl := Option.some.inj hi
  obtain ⟨-, rfl⟩ : _ ∧ c = ctx := by simpa [Threads.newThread] using hctx
  exact hc

end Trap
end OscKernel
