import OscKernel.Trap.Context
import OscKernel.Lib.Transition

/-!
# Nested traps

`trap_handler` statement by statement and the restore sequences instruction by instruction, with a
further interrupt possible at every boundary at which `sstatus.SIE` is set.

The traps that are under way form a stack, the innermost first.  An interrupted trap keeps its
frame: C code and nested traps use the stack below it.  A statement of C code that the model does
not follow (a device handler, a callback, a system call, another thread that runs) has an
`Outcome`, which is arbitrary.

* `Traps.step`: one instruction or statement, or a trap.
* `returns_of_reachable`: as long as no interrupt comes between `csrw sepc` and `csrw sstatus`,
  every `sret` returns to the `sepc` of its frame, with the privilege of its `sstatus`.
* `lost_of_window`: an interrupt there makes it return into the kernel's restore sequence.

## Why one boundary matters

The restore sequence first writes `sepc` from the frame and then `sstatus`, with interrupts in the
state in which `trap_handler` returned.  A trap overwrites both registers, and its own return puts
`sstatus` back to what it was, but leaves in `sepc` the place it returned to.  Before the write of
`sepc` this does no harm, since the write is still to come.  After the write of `sstatus` there is
no trap: the value that it writes was saved when the hardware took the trap, with `SIE` clear, and
`sret` comes with it.  In between `sepc` is lost.

## The invariant

Every trap below the innermost one is linked to the trap above it: the frame above has the place
where the lower one goes on, and the registers that it will need there (`Linked`, `Resumable`).
What is needed depends on how far the lower trap has come; in a restore sequence it is the part of
its frame that is still to be read.
-/

namespace OscKernel
namespace Trap

open Rv64 Transition

/-! ## The system -/

/-- The statements of `trap_handler`, with those of `task_run_pending`. -/
inductive HandlerPc where
  /-- `cause = tf->scause` and the branches on it. -/
  | dispatch
  /-- `timer_top_half()`, `uart_top_half(irq)`. -/
  | topHalf
  /-- `flags = sie_save_clear()`. -/
  | runSave
  /-- The head of the task queue. -/
  | runPick (flags : Bool)
  /-- `csrs sstatus, SIE`. -/
  | runEnable
  /-- `t->cb(t->arg)`. -/
  | callback
  /-- `f2 = sie_save_clear()`. -/
  | runMask
  /-- `kfree(t)`. -/
  | runFree (f2 : Bool)
  /-- `sie_restore(f2)`, and the next round. -/
  | runRestore (f2 : Bool)
  /-- `sie_restore(flags)`, and the end of `task_run_pending`. -/
  | runLeave (flags : Bool)
  /-- `if (need_resched_clear() && SPP == 0) schedule()`. -/
  | preempt
  /-- `if (SPP == 0) deliver_pending_signal(tf)`, and the return. -/
  | signal
  /-- `tf->sepc += 4`. -/
  | advance
  /-- `csrs sstatus, SIE`. -/
  | enable
  /-- `tf->a0 = do_syscall(tf)`. -/
  | syscall
  /-- `if (need_resched_clear()) schedule()`. -/
  | resched
  /-- `deliver_pending_signal(tf)`, and the return. -/
  | sysSignal
  /-- The loop after an exception that is not handled. -/
  | halt
  deriving DecidableEq

/-- Where a trap is: in `trap_handler`, or before the instruction `i` of its restore sequence. -/
inductive Loc where
  | handler (p : HandlerPc)
  | restore (i : ℕ)
  deriving DecidableEq

/-- A trap under way: its path, where it is, its frame, and its part of the memory while a nested
trap runs. -/
structure Activation where
  path : Path
  loc : Loc
  tf : Word
  mem : Word → Word

/-- The hart and the traps under way, the innermost first. -/
structure Traps where
  hart : Hart
  traps : List Activation

/-- What a statement leaves behind where the model does not follow it. -/
structure Outcome where
  x : Reg → Word
  csr : Csr → Word
  frame : Word → Word
  /-- The answer of a test: there is a task to run, `need_resched` is set. -/
  yes : Bool

/-- Set or clear `sstatus.SIE`. -/
def setSie (c : Cpu) (b : Bool) : Cpu := c.setCsr .sstatus (setBit (c.csr .sstatus) sieBit b)

/-- `sie_restore`. -/
def sieRestore (c : Cpu) (b : Bool) : Cpu := if b then setSie c true else c

/-- A call of C code: `sp` comes back. -/
def callC (c : Cpu) (o : Outcome) : Cpu :=
  { c with x := fun r => if r = sp then c.x sp else o.x r }

/-- A call of `schedule`: other threads run, take traps and return from them before it returns.
`sscratch` is zero, since it returns in the kernel. -/
def callSchedule (c : Cpu) (o : Outcome) : Cpu :=
  { callC c o with csr := fun k => if k = .sscratch then c.csr .sscratch else o.csr k }

/-- The frame is rewritten (`sys_exec`, `signal_return`, signal delivery, the result of a system
call).  Every value of `sstatus` that gets into a frame was saved by the hardware when it took a
trap, so that its `SIE` is clear. -/
def rewriteFrame (tf : Word) (c : Cpu) (o : Outcome) : Cpu :=
  let a := slotAddr tf tfSstatus
  { c with mem := Function.update o.frame a (setBit (o.frame a) sieBit false) }

/-- `SCAUSE_INTR_BIT`. -/
def isInterrupt (cause : Word) : Bool := cause.getLsbD 63

/-- `EXC_ECALL_U`. -/
def excEcallU : Word := 8

/-- `(tf->sstatus & SSTATUS_SPP) == 0`. -/
def fromUser (tf : Word) (c : Cpu) : Bool := spp (c.mem (slotAddr tf tfSstatus)) == .user

/-- One statement of `trap_handler`. -/
def handlerStep (tf : Word) (c : Cpu) (o : Outcome) : HandlerPc → Option (Cpu × Loc)
  | .dispatch =>
      let cause := c.mem (slotAddr tf tfScause)
      some (c, .handler (if isInterrupt cause then .topHalf
        else if cause = excEcallU then .advance else .halt))
  | .topHalf => some (callC c o, .handler .runSave)
  | .runSave => some (setSie c false, .handler (.runPick (sie (c.csr .sstatus))))
  | .runPick flags => some (c, .handler (if o.yes then .runEnable else .runLeave flags))
  | .runEnable => some (setSie c true, .handler .callback)
  | .callback => some (callC c o, .handler .runMask)
  | .runMask => some (setSie c false, .handler (.runFree (sie (c.csr .sstatus))))
  | .runFree f2 => some (callC c o, .handler (.runRestore f2))
  | .runRestore f2 => some (sieRestore c f2, .handler .runSave)
  | .runLeave flags => some (sieRestore c flags, .handler .preempt)
  | .preempt =>
      some (if o.yes && fromUser tf c then callSchedule c o else c, .handler .signal)
  | .signal => some (if fromUser tf c then rewriteFrame tf (callC c o) o else c, .restore 0)
  | .advance =>
      let a := slotAddr tf tfSepc
      some (c.store a (c.mem a + 4), .handler .enable)
  | .enable => some (setSie c true, .handler .syscall)
  | .syscall => some (rewriteFrame tf (callSchedule c o) o, .handler .resched)
  | .resched => some (if o.yes then callSchedule c o else c, .handler .sysSignal)
  | .sysSignal => some (rewriteFrame tf (callC c o) o, .restore 0)
  | .halt => none

namespace Traps

/-- What happens next. -/
inductive Label where
  /-- Code outside any trap runs: a user program, or the kernel, which may set and clear `SIE`. -/
  | program (x : Reg → Word) (pc : Word) (sie : Bool)
  /-- A trap is taken. -/
  | trap (cause tval : Word)
  /-- The innermost trap executes its next statement or instruction. -/
  | step (o : Outcome)

variable (pcAt : Path → Loc → Word)

/-- Where the hart is executing; `pcAt` says where the linker put the code of the kernel. -/
def pc (s : Traps) : Word :=
  match s.traps with
  | [] => s.hart.pc
  | a :: _ => pcAt a.path a.loc

/-- A trap can be taken: an interrupt when it is enabled, and `ecall` in a user program. -/
def canTrap (s : Traps) (cause : Word) : Bool :=
  if isInterrupt cause then s.hart.priv == .user || sie (s.hart.cpu.csr .sstatus)
  else cause == excEcallU && s.hart.priv == .user

/-- The hart takes a trap and executes `trap_entry`, with interrupts disabled by the hardware. -/
def takeTrap (s : Traps) (cause tval : Word) : Traps :=
  let h := ({ s.hart with pc := s.pc pcAt } : Hart).takeTrap 0 cause tval
  let e := trapEntry h.cpu
  let below := match s.traps with
    | [] => []
    | a :: rest => { a with mem := s.hart.cpu.mem } :: rest
  ⟨{ h with cpu := e.2 }, ⟨e.1, .handler .dispatch, e.2.get sp, e.2.mem⟩ :: below⟩

/-- The innermost trap executes `sret`.  Execution continues in the trap below when that is where
`sepc` points. -/
def sret (s : Traps) (rest : List Activation) : Traps :=
  let h := s.hart.sret
  match rest with
  | b :: _ =>
      if h.pc = pcAt b.path b.loc ∧ h.priv = .supervisor then
        ⟨{ h with cpu := { h.cpu with mem := b.mem } }, rest⟩
      else ⟨h, []⟩
  | [] => ⟨h, []⟩

/-- One step. -/
def step (s : Traps) : Label → Option Traps
  | .program x pc sie =>
      match s.traps with
      | [] =>
          let c := { s.hart.cpu with x := x }
          let c := if s.hart.priv = .supervisor then setSie c sie else c
          some ⟨{ s.hart with cpu := c, pc := pc }, []⟩
      | _ :: _ => none
  | .trap cause tval => if s.canTrap cause then some (s.takeTrap pcAt cause tval) else none
  | .step o =>
      match s.traps with
      | [] => none
      | a :: rest =>
          match a.loc with
          | .handler p =>
              (handlerStep a.tf s.hart.cpu o p).map fun r =>
                ⟨{ s.hart with cpu := r.1 }, { a with loc := r.2 } :: rest⟩
          | .restore i =>
              match (restore a.path)[i]? with
              | some instr =>
                  some ⟨{ s.hart with cpu := exec s.hart.cpu instr },
                    { a with loc := .restore (i + 1) } :: rest⟩
              | none => some (s.sret pcAt rest)

/-- The innermost trap is about to execute its `sret`. -/
def AtSret (s : Traps) (a : Activation) : Prop :=
  s.traps.head? = some a ∧ a.loc = .restore (restore a.path).length

/-- **The return goes where the frame says**: to `tf->sepc`, with the privilege recorded in
`tf->sstatus`. -/
def ReturnsToFrame (s : Traps) : Prop :=
  ∀ a, s.AtSret a → s.hart.sret.pc = s.hart.cpu.mem (slotAddr a.tf tfSepc) ∧
    s.hart.sret.priv = spp (s.hart.cpu.mem (slotAddr a.tf tfSstatus))

/-- No trap is taken between `csrw sepc` and `csrw sstatus`. -/
def OutsideWindow (s : Traps) : Label → Prop
  | .trap _ _ => ∀ a, s.traps.head? = some a → a.loc ≠ .restore 3
  | _ => True

instance (s : Traps) : ∀ l, Decidable (OutsideWindow s l)
  | .trap _ _ => inferInstanceAs (Decidable (∀ a ∈ s.traps.head?, a.loc ≠ .restore 3))
  | .program _ _ _ | .step _ => inferInstanceAs (Decidable True)

end Traps

/-! ## What a frame brings back -/

/-- The registers that the return to S-mode takes from the frame at `p`. -/
def frameReg (m : Word → Word) (p : Word) (r : Reg) : Word :=
  if r = sp then p + BitVec.ofInt 64 tfSize else m (slotAddr p (8 * (r.val - 1)))

theorem gprSlots_off : ∀ s ∈ gprSlots, s.2 = 8 * (s.1.val - 1) := by decide

/-- The frame of a trap from S-mode holds the interrupted registers. -/
theorem frameReg_entered {c d : Cpu} (he : Entered c (frameBase c .kernel) d) {r : Reg}
    (hr : r ≠ 0) : frameReg d.mem (frameBase c .kernel) r = c.get r := by
  unfold frameReg
  by_cases hsp : r = sp
  · rw [if_pos hsp, frameBase_kernel_add, hsp]
  · obtain ⟨s, hs, rfl⟩ := mem_gprSlots r hr hsp
    rw [if_neg hsp, ← gprSlots_off s hs, he.gpr s hs]

/-- The return to S-mode loads them. -/
theorem get_kernelTail {c : Cpu} {p : Word} (hsp : c.get sp = p) {r : Reg} (hr : r ≠ 0) :
    (execAll c kernelTail).get r = frameReg c.mem p r := by
  obtain ⟨hx, hxsp, -, -⟩ := kernelTail_eq hsp
  unfold frameReg
  by_cases hsp' : r = sp
  · rw [if_pos hsp', hsp', hxsp]
  · obtain ⟨s, hs, rfl⟩ := mem_gprSlots r hr hsp'
    rw [if_neg hsp', ← gprSlots_off s hs, hx s hs]

theorem restoreTail_csrTarget (p : Path) : ∀ i ∈ restoreTail p,
    i.csrTarget ≠ some .sepc ∧ i.csrTarget ≠ some .sstatus := by
  cases p <;> decide

theorem restore_isStore (p : Path) : ∀ i ∈ restore p, i.isStore = false := by
  cases p <;> decide

/-! ## What a statement of the handler keeps -/

/-- `sp` and `sscratch` are kept, and the `sstatus` of the frame at `tf` has `SIE` clear when it
had. -/
structure Keeps (tf : Word) (c c' : Cpu) : Prop where
  sp_eq : c'.get sp = c.get sp
  sscratch : c'.csr .sscratch = c.csr .sscratch
  masked : sie (c.mem (slotAddr tf tfSstatus)) = false →
    sie (c'.mem (slotAddr tf tfSstatus)) = false

section Keeps

variable {tf : Word} {c c' c'' : Cpu} {o : Outcome} {b : Bool}

theorem Keeps.rfl : Keeps tf c c := ⟨Eq.refl _, Eq.refl _, id⟩

theorem Keeps.trans (h : Keeps tf c c') (h' : Keeps tf c' c'') : Keeps tf c c'' :=
  ⟨h'.sp_eq.trans h.sp_eq, h'.sscratch.trans h.sscratch, h'.masked ∘ h.masked⟩

theorem keeps_setSie : Keeps tf c (setSie c b) :=
  ⟨Eq.refl _, Cpu.csr_setCsr_of_ne _ _ _ _ (by decide), id⟩

theorem keeps_sieRestore : Keeps tf c (sieRestore c b) := by
  unfold sieRestore
  split_ifs
  · exact keeps_setSie
  · exact Keeps.rfl

theorem get_sp_callC : (callC c o).get sp = c.get sp := by
  unfold callC Cpu.get
  simp

theorem keeps_callC : Keeps tf c (callC c o) := ⟨get_sp_callC, Eq.refl _, id⟩

theorem keeps_callSchedule : Keeps tf c (callSchedule c o) := by
  refine ⟨get_sp_callC (o := o), ?_, id⟩
  simp [callSchedule]

theorem keeps_rewriteFrame : Keeps tf c (rewriteFrame tf c o) := by
  refine ⟨Eq.refl _, Eq.refl _, fun _ => ?_⟩
  unfold rewriteFrame
  dsimp only
  rw [Function.update_self, sie, getLsbD_setBit (by decide), if_pos (Eq.refl _)]

theorem keeps_advance :
    Keeps tf c (c.store (slotAddr tf tfSepc) (c.mem (slotAddr tf tfSepc) + 4)) := by
  refine ⟨Eq.refl _, Eq.refl _, fun h => ?_⟩
  rw [Cpu.mem_store_of_ne]
  · exact h
  · exact fun heq => absurd (slotAddr_inj (by decide) (by decide) heq) (by decide)

end Keeps

/-- The statements that an interrupt goes through. -/
def HandlerPc.inInterrupt : HandlerPc → Bool
  | .advance | .enable | .syscall | .resched | .sysSignal | .halt => false
  | _ => true

section HandlerStep

variable {tf : Word} {c c' : Cpu} {o : Outcome} {p : HandlerPc} {l : Loc}

/-- **One statement of the handler.**  The restore sequence starts at its first instruction. -/
theorem handlerStep_keeps (h : handlerStep tf c o p = some (c', l)) :
    Keeps tf c c' ∧ ∀ i, l = .restore i → i = 0 := by
  cases p with
  | halt => exact absurd h (by simp [handlerStep])
  | preempt =>
    obtain ⟨rfl, rfl⟩ := Prod.mk.inj (Option.some.inj h)
    refine ⟨?_, fun i hi => nomatch hi⟩
    split_ifs
    · exact keeps_callSchedule
    · exact Keeps.rfl
  | signal =>
    obtain ⟨rfl, rfl⟩ := Prod.mk.inj (Option.some.inj h)
    refine ⟨?_, fun i hi => (Loc.restore.inj hi).symm⟩
    split_ifs
    · exact keeps_callC.trans keeps_rewriteFrame
    · exact Keeps.rfl
  | resched =>
    obtain ⟨rfl, rfl⟩ := Prod.mk.inj (Option.some.inj h)
    refine ⟨?_, fun i hi => nomatch hi⟩
    split_ifs
    · exact keeps_callSchedule
    · exact Keeps.rfl
  | sysSignal =>
    obtain ⟨rfl, rfl⟩ := Prod.mk.inj (Option.some.inj h)
    exact ⟨keeps_callC.trans keeps_rewriteFrame, fun i hi => (Loc.restore.inj hi).symm⟩
  | syscall =>
    obtain ⟨rfl, rfl⟩ := Prod.mk.inj (Option.some.inj h)
    exact ⟨keeps_callSchedule.trans keeps_rewriteFrame, fun i hi => nomatch hi⟩
  | advance =>
    obtain ⟨rfl, rfl⟩ := Prod.mk.inj (Option.some.inj h)
    exact ⟨keeps_advance, fun i hi => nomatch hi⟩
  | topHalf | callback | runFree =>
    obtain ⟨rfl, rfl⟩ := Prod.mk.inj (Option.some.inj h)
    exact ⟨keeps_callC, fun i hi => nomatch hi⟩
  | runSave | runEnable | runMask | enable =>
    obtain ⟨rfl, rfl⟩ := Prod.mk.inj (Option.some.inj h)
    exact ⟨keeps_setSie, fun i hi => nomatch hi⟩
  | runRestore | runLeave =>
    obtain ⟨rfl, rfl⟩ := Prod.mk.inj (Option.some.inj h)
    exact ⟨keeps_sieRestore, fun i hi => nomatch hi⟩
  | dispatch | runPick =>
    obtain ⟨rfl, rfl⟩ := Prod.mk.inj (Option.some.inj h)
    exact ⟨Keeps.rfl, fun i hi => nomatch hi⟩

/-- **Interrupts in the kernel** leave the frame alone. -/
theorem handlerStep_inInterrupt (h : handlerStep tf c o p = some (c', l))
    (hp : p.inInterrupt = true) (hcause : isInterrupt (c.mem (slotAddr tf tfScause)) = true)
    (hspp : spp (c.mem (slotAddr tf tfSstatus)) = .supervisor) :
    c'.mem = c.mem ∧ ∀ p', l = .handler p' → p'.inInterrupt = true := by
  have hfrom : fromUser tf c = false := by
    unfold fromUser
    rw [hspp]
    rfl
  have hrestore : ∀ b, (sieRestore c b).mem = c.mem := fun b => by cases b <;> rfl
  cases p with
  | advance | enable | syscall | resched | sysSignal | halt => exact absurd hp (by decide)
  | dispatch =>
    obtain ⟨rfl, rfl⟩ := Prod.mk.inj (Option.some.inj h)
    rw [if_pos hcause]
    exact ⟨rfl, fun p' hp' => Loc.handler.inj hp' ▸ rfl⟩
  | runPick flags =>
    obtain ⟨rfl, rfl⟩ := Prod.mk.inj (Option.some.inj h)
    refine ⟨rfl, fun p' hp' => Loc.handler.inj hp' ▸ ?_⟩
    split_ifs <;> rfl
  | runRestore f2 | runLeave f2 =>
    obtain ⟨rfl, rfl⟩ := Prod.mk.inj (Option.some.inj h)
    exact ⟨hrestore f2, fun p' hp' => Loc.handler.inj hp' ▸ rfl⟩
  | preempt =>
    obtain ⟨rfl, rfl⟩ := Prod.mk.inj (Option.some.inj h)
    rw [hfrom, Bool.and_false]
    exact ⟨rfl, fun p' hp' => Loc.handler.inj hp' ▸ rfl⟩
  | signal =>
    obtain ⟨rfl, rfl⟩ := Prod.mk.inj (Option.some.inj h)
    rw [hfrom]
    exact ⟨rfl, fun p' hp' => nomatch hp'⟩
  | topHalf | callback | runFree | runSave | runEnable | runMask =>
    obtain ⟨rfl, rfl⟩ := Prod.mk.inj (Option.some.inj h)
    exact ⟨rfl, fun p' hp' => Loc.handler.inj hp' ▸ rfl⟩

end HandlerStep

/-! ## The invariant -/

/-- The trap `a` executes on, with the registers `r` and the memory `m`: `trap_handler` is running,
or at most the two loads of the restore sequence are done. -/
structure Resumable (a : Activation) (r : Reg → Word) (m : Word → Word) : Prop where
  masked : sie (m (slotAddr a.tf tfSstatus)) = false
  sp_eq : r sp = a.tf
  loaded : ∀ i, a.loc = .restore i → i ≤ 2 ∧ (1 ≤ i → r t0 = m (slotAddr a.tf tfSepc)) ∧
    (2 ≤ i → r t1 = m (slotAddr a.tf tfSstatus))

theorem Resumable.congr {a : Activation} {r r' : Reg → Word} {m : Word → Word}
    (h : Resumable a r m) (heq : ∀ k, k ≠ 0 → r' k = r k) : Resumable a r' m := by
  refine ⟨h.masked, (heq _ (by decide)).trans h.sp_eq, fun i hi => ?_⟩
  rw [heq t0 (by decide), heq t1 (by decide)]
  exact h.loaded i hi

/-- The innermost trap. -/
inductive Top (a : Activation) (c : Cpu) : Prop where
  /-- Up to the two loads. -/
  | resumable (h : Resumable a c.get c.mem) (h0 : c.csr .sscratch = 0)
  /-- Between `csrw sepc` and `csrw sstatus`. -/
  | window (hloc : a.loc = .restore 3) (hsp : c.get sp = a.tf)
      (ht1 : c.get t1 = c.mem (slotAddr a.tf tfSstatus))
      (hsepc : c.csr .sepc = c.mem (slotAddr a.tf tfSepc))
      (hmasked : sie (c.mem (slotAddr a.tf tfSstatus)) = false) (h0 : c.csr .sscratch = 0)
  /-- After `csrw sstatus`: `d` is where the rest of the sequence started. -/
  | returning (j : ℕ) (hloc : a.loc = .restore (j + 4)) (d : Cpu) (hsp : d.get sp = a.tf)
      (hsepc : d.csr .sepc = d.mem (slotAddr a.tf tfSepc))
      (hsstatus : d.csr .sstatus = d.mem (slotAddr a.tf tfSstatus))
      (hmasked : sie (d.mem (slotAddr a.tf tfSstatus)) = false) (h0 : d.csr .sscratch = 0)
      (hc : c = execAll d ((restoreTail a.path).take j))

/-- After `csrw sstatus` interrupts are disabled. -/
theorem sie_returning {p : Path} {d : Cpu} {tf : Word} {j : ℕ}
    (hsstatus : d.csr .sstatus = d.mem (slotAddr tf tfSstatus))
    (hmasked : sie (d.mem (slotAddr tf tfSstatus)) = false) :
    sie ((execAll d ((restoreTail p).take j)).csr .sstatus) = false := by
  rw [csr_execAll_of_ne fun i hi => (restoreTail_csrTarget p i (List.mem_of_mem_take hi)).2,
    hsstatus, hmasked]

/-- A trap that can be interrupted outside the window is resumable. -/
theorem Top.resumable_of_sie {a : Activation} {c : Cpu} (h : Top a c)
    (hsie : sie (c.csr .sstatus) = true)
    (hwin : a.loc ≠ .restore 3) : Resumable a c.get c.mem ∧ c.csr .sscratch = 0 := by
  cases h with
  | resumable h h0 => exact ⟨h, h0⟩
  | window hloc => exact absurd hloc hwin
  | returning j hloc d hsp hsepc hsstatus hmasked h0 hc =>
    rw [hc, sie_returning hsstatus hmasked] at hsie
    exact absurd hsie (by decide)

namespace Traps

variable (pcAt : Path → Loc → Word)

/-- The trap `a` with memory `m` was taken while `b` executed, and will return to it. -/
structure Linked (m : Word → Word) (a b : Activation) : Prop where
  path : a.path = .kernel
  loc : ∀ p, a.loc = .handler p → p.inInterrupt = true
  cause : isInterrupt (m (slotAddr a.tf tfScause)) = true
  spp : spp (m (slotAddr a.tf tfSstatus)) = .supervisor
  sepc : m (slotAddr a.tf tfSepc) = pcAt b.path b.loc
  resumable : Resumable b (frameReg m a.tf) b.mem

/-- The traps below `a`. -/
def Stacked (m : Word → Word) (a : Activation) : List Activation → Prop
  | [] => True
  | b :: rest => Linked pcAt m a b ∧ Stacked b.mem b rest

/-- **The invariant**: the innermost trap has its registers and its frame, and every other one is
linked to the one above it. -/
def Ok (s : Traps) : Prop :=
  match s.traps with
  | [] => True
  | a :: rest =>
      s.hart.priv = .supervisor ∧ Top a s.hart.cpu ∧ Stacked pcAt s.hart.cpu.mem a rest

variable {pcAt} {s s' : Traps} {a b : Activation} {rest : List Activation} {m : Word → Word}

/-- The innermost trap moves on without touching its frame. -/
theorem Stacked.move {l : Loc} (h : Stacked pcAt m a rest)
    (hl : rest ≠ [] → ∀ p, l = .handler p → p.inInterrupt = true) :
    Stacked pcAt m { a with loc := l } rest := by
  cases rest with
  | nil => trivial
  | cons b rest =>
    exact ⟨⟨h.1.path, hl (List.cons_ne_nil _ _), h.1.cause, h.1.spp, h.1.sepc, h.1.resumable⟩, h.2⟩

/-! ### Taking a trap -/

/-- In the kernel only enabled interrupts are taken. -/
theorem canTrap_supervisor {cause : Word} (h : s.canTrap cause = true)
    (hpriv : s.hart.priv = .supervisor) :
    isInterrupt cause = true ∧ sie (s.hart.cpu.csr .sstatus) = true := by
  unfold canTrap at h
  rw [hpriv] at h
  split_ifs at h with hc
  · exact ⟨hc, by simpa using h⟩
  · exact absurd h (by simp)

/-- The new trap, on its own. -/
theorem top_trapEntry {p : Path} {l : HandlerPc} {t : Hart} {q : Priv} {w : Word}
    (hstatus : t.cpu.csr .sstatus = trapStatus w q) :
    Top ⟨p, .handler l, (trapEntry t.cpu).2.get sp, (trapEntry t.cpu).2.mem⟩
      (trapEntry t.cpu).2 := by
  have he := (entered_trapEntry t.cpu).2
  refine .resumable ⟨?_, rfl, fun i hi => nomatch hi⟩ he.sscratch
  dsimp only
  rw [he.sp_eq, he.sstatusSlot, hstatus, sie_trapStatus]

/-- The new trap and the one it interrupts. -/
theorem linked_trapEntry {t : Hart} {v w : Word} (hres : Resumable b t.cpu.get b.mem)
    (h0 : t.cpu.csr .sscratch = 0) (hcause : t.cpu.csr .scause = v)
    (hint : isInterrupt v = true) (hstatus : t.cpu.csr .sstatus = trapStatus w .supervisor)
    (hsepc : t.cpu.csr .sepc = pcAt b.path b.loc) :
    Linked pcAt (trapEntry t.cpu).2.mem
      ⟨(trapEntry t.cpu).1, .handler .dispatch, (trapEntry t.cpu).2.get sp,
        (trapEntry t.cpu).2.mem⟩ b := by
  obtain ⟨hpath, he⟩ := entered_trapEntry t.cpu
  have hpath := hpath.mpr h0
  rw [hpath] at he
  refine ⟨hpath, fun p hp => Loc.handler.inj hp ▸ rfl, ?_, ?_, ?_, ?_⟩ <;> dsimp only <;>
    rw [he.sp_eq]
  · rw [he.scauseSlot, hcause, hint]
  · rw [he.sstatusSlot, hstatus, spp_trapStatus]
  · rw [he.sepcSlot, hsepc]
  · exact hres.congr fun k hk => frameReg_entered he hk

theorem ok_takeTrap {cause tval : Word} (hok : Ok pcAt s) (hcan : s.canTrap cause = true)
    (hwin : s.OutsideWindow (.trap cause tval)) : Ok pcAt (s.takeTrap pcAt cause tval) := by
  unfold takeTrap
  refine ⟨rfl, top_trapEntry rfl, ?_⟩
  unfold Ok at hok
  cases htraps : s.traps with
  | nil => trivial
  | cons b rest =>
    rw [htraps] at hok
    obtain ⟨hpriv, htop, hstack⟩ := hok
    obtain ⟨hint, hsie⟩ := canTrap_supervisor hcan hpriv
    obtain ⟨hres, h0⟩ := htop.resumable_of_sie hsie (hwin b (by rw [htraps]; rfl))
    refine ⟨linked_trapEntry (w := s.hart.cpu.csr .sstatus) (v := cause)
      ⟨hres.masked, hres.sp_eq, hres.loaded⟩ h0 rfl hint ?_ ?_, ?_⟩
    · rw [Hart.sstatus_takeTrap, hpriv]
    · rw [Hart.sepc_takeTrap, pc, htraps]
    · cases rest with
      | nil => trivial
      | cons b' rest =>
        exact ⟨⟨hstack.1.path, hstack.1.loc, hstack.1.cause, hstack.1.spp, hstack.1.sepc,
          hstack.1.resumable⟩, hstack.2⟩

/-! ### Executing -/

theorem ok_handlerStep {c' : Cpu} {o : Outcome} {p : HandlerPc} {l : Loc}
    (hok : Ok pcAt s) (htraps : s.traps = a :: rest) (hloc : a.loc = .handler p)
    (hstep : handlerStep a.tf s.hart.cpu o p = some (c', l)) :
    Ok pcAt ⟨{ s.hart with cpu := c' }, { a with loc := l } :: rest⟩ := by
  unfold Ok at hok
  rw [htraps] at hok
  obtain ⟨hpriv, htop, hstack⟩ := hok
  obtain ⟨hkeep, hl⟩ := handlerStep_keeps hstep
  cases htop with
  | window hwin => exact absurd (hloc.symm.trans hwin) (by simp)
  | returning j hret => exact absurd (hloc.symm.trans hret) (by simp)
  | resumable hres h0 =>
    refine ⟨hpriv, .resumable ⟨hkeep.masked hres.masked, hkeep.sp_eq.trans hres.sp_eq, ?_⟩
      (hkeep.sscratch.trans h0), ?_⟩
    · intro i hi
      obtain rfl := hl i hi
      exact ⟨by omega, fun h => absurd h (by omega), fun h => absurd h (by omega)⟩
    · cases rest with
      | nil => trivial
      | cons b rest =>
        obtain ⟨hmem, hl'⟩ := handlerStep_inInterrupt hstep (hstack.1.loc p hloc) hstack.1.cause
          hstack.1.spp
        change Stacked pcAt c'.mem _ _
        rw [hmem]
        exact hstack.move fun _ => hl'

/-- The instructions that load and write `sepc` and `sstatus`. -/
theorem top_restoreCsrs {c : Cpu} {i : ℕ} {instr : Instr} (htop : Top a c)
    (hloc : a.loc = .restore i) (hinstr : (restore a.path)[i]? = some instr) (hi : i ≤ 3) :
    Top { a with loc := .restore (i + 1) } (exec c instr) := by
  cases htop with
  | returning j hret =>
    rw [hloc] at hret
    have := Loc.restore.inj hret
    omega
  | window hwin hsp ht1 hsepc hmasked h0 =>
    obtain rfl := Loc.restore.inj (hloc.symm.trans hwin)
    obtain rfl : Instr.csrw .sstatus t1 = instr := Option.some.inj hinstr
    exact .returning 0 rfl (exec c (.csrw .sstatus t1)) hsp hsepc
      ((Cpu.csr_setCsr_self ..).trans ht1) hmasked h0 rfl
  | resumable hres h0 =>
    obtain ⟨hi2, hl1, hl2⟩ := hres.loaded i hloc
    rcases i with _ | _ | _ | i
    · obtain rfl : Instr.ld t0 tfSepc sp = instr := Option.some.inj hinstr
      refine .resumable ⟨?_, ?_, fun i hi => ?_⟩ ?_
      · simpa [exec] using hres.masked
      · simpa +decide [exec, Cpu.get_set] using hres.sp_eq
      · obtain rfl := Loc.restore.inj hi
        refine ⟨by omega, fun _ => ?_, fun h => absurd h (by omega)⟩
        rw [exec, Cpu.get_set_self _ _ _ (by decide), Cpu.mem_set, hres.sp_eq]
        rfl
      · rwa [exec, Cpu.csr_set]
    · obtain rfl : Instr.ld t1 tfSstatus sp = instr := Option.some.inj hinstr
      refine .resumable ⟨?_, ?_, fun i hi => ?_⟩ ?_
      · simpa [exec] using hres.masked
      · simpa +decide [exec, Cpu.get_set] using hres.sp_eq
      · obtain rfl := Loc.restore.inj hi
        refine ⟨by omega, fun _ => ?_, fun _ => ?_⟩
        · rw [exec, Cpu.get_set_of_ne _ _ _ _ (by decide), Cpu.mem_set, hl1 le_rfl]
        · rw [exec, Cpu.get_set_self _ _ _ (by decide), Cpu.mem_set, hres.sp_eq]
          rfl
      · rwa [exec, Cpu.csr_set]
    · obtain rfl : Instr.csrw .sepc t0 = instr := Option.some.inj hinstr
      exact .window rfl hres.sp_eq (hl2 le_rfl) ((Cpu.csr_setCsr_self ..).trans (hl1 (by omega)))
        hres.masked h0
    · omega

theorem top_restoreTail {c : Cpu} {j : ℕ} {instr : Instr} (htop : Top a c)
    (hloc : a.loc = .restore (j + 4)) (hinstr : (restoreTail a.path)[j]? = some instr) :
    Top { a with loc := .restore (j + 1 + 4) } (exec c instr) := by
  cases htop with
  | resumable hres =>
    have := (hres.loaded _ hloc).1
    omega
  | window hwin => exact absurd (Loc.restore.inj (hloc.symm.trans hwin)) (by omega)
  | returning j' hret d hsp hsepc hsstatus hmasked h0 hc =>
    obtain rfl : j = j' := by
      have := Loc.restore.inj (hloc.symm.trans hret)
      omega
    refine .returning (j + 1) rfl d hsp hsepc hsstatus hmasked h0 ?_
    rw [hc, List.take_add_one, hinstr, execAll_append]
    rfl

theorem ok_restoreStep {i : ℕ} {instr : Instr} (hok : Ok pcAt s) (htraps : s.traps = a :: rest)
    (hloc : a.loc = .restore i) (hinstr : (restore a.path)[i]? = some instr) :
    Ok pcAt ⟨{ s.hart with cpu := exec s.hart.cpu instr },
      { a with loc := .restore (i + 1) } :: rest⟩ := by
  unfold Ok at hok
  rw [htraps] at hok
  obtain ⟨hpriv, htop, hstack⟩ := hok
  refine ⟨hpriv, ?_, ?_⟩
  · rcases Nat.lt_or_ge 3 i with hi | hi
    · obtain ⟨j, rfl⟩ : ∃ j, i = j + 4 := ⟨i - 4, by omega⟩
      exact top_restoreTail htop hloc hinstr
    · exact top_restoreCsrs htop hloc hinstr hi
  · change Stacked pcAt (exec s.hart.cpu instr).mem _ _
    rw [mem_exec_of_not_store (restore_isStore a.path instr (List.mem_of_getElem? hinstr))]
    exact hstack.move fun _ _ hp => nomatch hp

/-! ### Returning -/

/-- Before `sret` the restore sequence has run to its end. -/
theorem exists_restored {c : Cpu} {i : ℕ} (htop : Top a c) (hloc : a.loc = .restore i)
    (hnone : (restore a.path)[i]? = none) :
    ∃ d : Cpu, d.get sp = a.tf ∧ d.csr .sepc = d.mem (slotAddr a.tf tfSepc) ∧
      d.csr .sstatus = d.mem (slotAddr a.tf tfSstatus) ∧ d.csr .sscratch = 0 ∧
      c = execAll d (restoreTail a.path) := by
  rw [List.getElem?_eq_none_iff, restore, List.length_append] at hnone
  have hlen : restoreCsrs.length = 4 := rfl
  cases htop with
  | resumable hres =>
    have := (hres.loaded i hloc).1
    omega
  | window hwin =>
    have := Loc.restore.inj (hloc.symm.trans hwin)
    omega
  | returning j hret d hsp hsepc hsstatus hmasked h0 hc =>
    have := Loc.restore.inj (hloc.symm.trans hret)
    refine ⟨d, hsp, hsepc, hsstatus, h0, ?_⟩
    rw [hc, List.take_of_length_le (by omega)]

theorem mem_restoreTail {d : Cpu} {tf : Word} (hsp : d.get sp = tf) (p : Path) :
    (execAll d (restoreTail p)).mem = d.mem := by
  cases p with
  | user => exact (userTail_eq hsp).2.2.2.2.2
  | kernel => exact (kernelTail_eq hsp).2.2.2

/-- Before `sret`, `sepc` and `sstatus` are those of the frame. -/
theorem csrs_restored {c : Cpu} {i : ℕ} (htop : Top a c) (hloc : a.loc = .restore i)
    (hnone : (restore a.path)[i]? = none) :
    c.csr .sepc = c.mem (slotAddr a.tf tfSepc) ∧
      c.csr .sstatus = c.mem (slotAddr a.tf tfSstatus) := by
  obtain ⟨d, hsp, hsepc, hsstatus, -, rfl⟩ := exists_restored htop hloc hnone
  rw [mem_restoreTail hsp,
    csr_execAll_of_ne fun i hi => (restoreTail_csrTarget a.path i hi).1,
    csr_execAll_of_ne fun i hi => (restoreTail_csrTarget a.path i hi).2]
  exact ⟨hsepc, hsstatus⟩

/-- What a trap returns to is resumed with its own registers. -/
theorem resumable_restored {c : Cpu} {i : ℕ} (htop : Top a c) (hloc : a.loc = .restore i)
    (hnone : (restore a.path)[i]? = none) (hlink : Linked pcAt c.mem a b) :
    Resumable b c.get b.mem ∧ c.csr .sscratch = 0 := by
  obtain ⟨d, hsp, -, -, h0, rfl⟩ := exists_restored htop hloc hnone
  rw [mem_restoreTail hsp] at hlink
  rw [hlink.path, restoreTail]
  refine ⟨hlink.resumable.congr fun k hk => get_kernelTail hsp hk, ?_⟩
  rw [(kernelTail_eq hsp).2.2.1, h0]

theorem ok_sret {i : ℕ} (hok : Ok pcAt s) (htraps : s.traps = a :: rest)
    (hloc : a.loc = .restore i) (hnone : (restore a.path)[i]? = none) :
    Ok pcAt (s.sret pcAt rest) := by
  unfold Ok at hok
  rw [htraps] at hok
  obtain ⟨hpriv, htop, hstack⟩ := hok
  cases rest with
  | nil => trivial
  | cons b rest =>
    obtain ⟨hsepc, hsstatus⟩ := csrs_restored htop hloc hnone
    obtain ⟨hres, h0⟩ := resumable_restored htop hloc hnone hstack.1
    have hpc : s.hart.sret.pc = pcAt b.path b.loc := hsepc.trans hstack.1.sepc
    have hspp : s.hart.sret.priv = .supervisor := by
      rw [Hart.sret, hsstatus, hstack.1.spp]
    unfold sret
    dsimp only
    rw [if_pos ⟨hpc, hspp⟩]
    exact ⟨hspp, .resumable ⟨hres.masked, hres.sp_eq, hres.loaded⟩ h0, hstack.2⟩

/-! ### Runs -/

/-- **Every step outside the window preserves the invariant.** -/
theorem ok_step {l : Label} (hok : Ok pcAt s) (hwin : s.OutsideWindow l)
    (hstep : s.step pcAt l = some s') : Ok pcAt s' := by
  cases l with
  | program x pc sie =>
    cases htraps : s.traps with
    | nil =>
      simp only [step, htraps, Option.some.injEq] at hstep
      rw [← hstep]
      trivial
    | cons a rest => simp [step, htraps] at hstep
  | trap cause tval =>
    simp only [step] at hstep
    split_ifs at hstep with hcan
    rw [← Option.some.inj hstep]
    exact ok_takeTrap hok hcan hwin
  | step o =>
    cases htraps : s.traps with
    | nil => simp [step, htraps] at hstep
    | cons a rest =>
      simp only [step, htraps] at hstep
      cases hloc : a.loc with
      | handler p =>
        simp only [hloc, Option.map_eq_some_iff] at hstep
        obtain ⟨⟨c', l⟩, hc, rfl⟩ := hstep
        exact ok_handlerStep hok htraps hloc hc
      | restore i =>
        simp only [hloc] at hstep
        cases hinstr : (restore a.path)[i]? with
        | none =>
          simp only [hinstr, Option.some.injEq] at hstep
          exact hstep ▸ ok_sret hok htraps hloc hinstr
        | some instr =>
          simp only [hinstr, Option.some.injEq] at hstep
          exact hstep ▸ ok_restoreStep hok htraps hloc hinstr

end Traps

/-- **A trap return resumes at the saved pc.**  In every run from code outside any trap in which no
trap is taken between `csrw sepc` and `csrw sstatus`, every `sret` jumps to `tf->sepc` with the
privilege recorded in `tf->sstatus`. -/
theorem returns_of_reachable (pcAt : Path → Loc → Word) (h : Hart) {s : Traps}
    (hs : Reachable (Traps.step pcAt) Traps.OutsideWindow ⟨h, []⟩ s) : s.ReturnsToFrame := by
  have hok : Traps.Ok pcAt s :=
    hs.invariant trivial fun _ _ _ hok hwin hstep => Traps.ok_step hok hwin hstep
  rintro a ⟨hhead, hloc⟩
  unfold Traps.Ok at hok
  cases htraps : s.traps with
  | nil => simp [htraps] at hhead
  | cons b rest =>
    rw [htraps] at hok hhead
    obtain rfl : b = a := Option.some.inj hhead
    obtain ⟨hsepc, hsstatus⟩ := Traps.csrs_restored hok.2.1 hloc
      (List.getElem?_eq_none_iff.mpr le_rfl)
    exact ⟨hsepc, congrArg spp hsstatus⟩

/-! ## The window -/

/-- An instance of the layout: `.Lfrom_kernel` at `0x80200100`, four bytes an instruction. -/
def layout : Path → Loc → Word
  | .user, .restore i => 0x80200000 + BitVec.ofNat 64 (4 * i)
  | .kernel, .restore i => 0x80200100 + BitVec.ofNat 64 (4 * i)
  | _, .handler _ => 0x80201000

/-- A user program at `0x1000` whose kernel stack ends at `0x80400000`. -/
def ecallAt : Hart := hartAt .user (fun _ => 0) 0x80400000

/-- A system call that returns with interrupts enabled and leaves `0x1004` in `tf->sepc`. -/
def served : Outcome where
  x := fun _ => 0
  csr := fun k => if k = .sstatus then 2 else 0
  frame := Function.update (fun _ => 0) (slotAddr (0x80400000 - 280) tfSepc) 0x1004
  yes := false

/-- The `ecall`, the six statements of the handler and `n` instructions of the restore sequence. -/
def serve (n : ℕ) : List Traps.Label := .trap excEcallU 0 :: List.replicate (6 + n) (.step served)

/-- A timer interrupt in the kernel: seven statements, 35 instructions and `sret`. -/
def tick : List Traps.Label := .trap 0x8000000000000005 0 :: List.replicate 43 (.step served)

/-- A system call that is interrupted twice with interrupts enabled: at `do_syscall`, and in its
restore sequence right before `csrw sepc`. -/
def serveTwiceInterrupted : List Traps.Label :=
  .trap excEcallU 0 :: List.replicate 3 (.step served) ++ tick ++ List.replicate 5 (.step served) ++
    tick ++ List.replicate 36 (.step served)

/-- It returns to where it should. -/
theorem returns_of_ecall : ∃ s a, s.AtSret a ∧
    Reachable (Traps.step layout) Traps.OutsideWindow ⟨ecallAt, []⟩ s ∧ s.ReturnsToFrame := by
  have hrun : (runList (Traps.step layout) ⟨ecallAt, []⟩ serveTwiceInterrupted).map
      (fun s => s.traps.map fun a => (a.path, a.loc)) = some [(.user, .restore 38)] := by
    decide +kernel
  obtain ⟨s, hs, htraps⟩ := Option.map_eq_some_iff.mp hrun
  obtain ⟨a, ha, hpl⟩ := List.map_eq_singleton_iff.mp htraps
  obtain ⟨hpath, hloc⟩ := Prod.mk.inj hpl
  have hreach : Reachable (Traps.step layout) Traps.OutsideWindow ⟨ecallAt, []⟩ s :=
    Reachable.of_runList hs (by decide +kernel)
  refine ⟨s, a, ⟨by rw [ha]; rfl, ?_⟩, hreach, returns_of_reachable layout ecallAt hreach⟩
  rw [hpath]
  exact hloc

/-- **An interrupt in the window.**  The nested trap leaves its own return address in `sepc`, and
the system call returns into the restore sequence of the kernel. -/
theorem lost_of_window : ∃ s a, Reachable (Traps.step layout) anyStep ⟨ecallAt, []⟩ s ∧
    s.AtSret a ∧ s.hart.sret.priv = .user ∧ s.hart.sret.pc = layout .user (.restore 3) ∧
    s.hart.cpu.mem (slotAddr a.tf tfSepc) = 0x1004 ∧ ¬ s.ReturnsToFrame := by
  have hrun : (runList (Traps.step layout) ⟨ecallAt, []⟩
      (serve 3 ++ tick ++ List.replicate 35 (.step served))).map
      (fun s => (s.traps.map fun a => (a.path, a.loc, s.hart.cpu.mem (slotAddr a.tf tfSepc)),
        s.hart.sret.priv, s.hart.sret.pc)) =
      some ([(.user, .restore 38, 0x1004)], .user, layout .user (.restore 3)) := by
    decide +kernel
  obtain ⟨s, hs, heq⟩ := Option.map_eq_some_iff.mp hrun
  obtain ⟨htraps, hpriv, hpc⟩ := by simpa only [Prod.mk.injEq] using heq
  obtain ⟨a, ha, hpl⟩ := List.map_eq_singleton_iff.mp htraps
  obtain ⟨hpath, hloc, hsepc⟩ := by simpa only [Prod.mk.injEq] using hpl
  have hat : s.AtSret a := ⟨by rw [ha]; rfl, by rw [hpath]; exact hloc⟩
  refine ⟨s, a, reachable_of_runList hs, hat, hpriv, hpc, hsepc, fun hret => ?_⟩
  have := (hret a hat).1
  rw [hpc, hsepc] at this
  exact absurd this (by decide)

end Trap
end OscKernel
