import OscKernel.Trap.Entry

/-!
# The interrupted context

An interrupt, `trap_entry`, `trap_handler` and the matching return sequence as one step of the
hart, for a handler that keeps the calling convention and leaves the frame unchanged.

* `preserved_iff`: the interrupted registers come back, except that a return to U-mode leaves the
  user's `sp` in `t0`.
* `getCurrent_iff`: the thread that `get_current` finds is the one the user's `tp` points to.

## The handler

`Handler` is what the caller of `trap_handler` may rely on: `sp` comes back, and neither the frame
nor `sscratch` is written.  Every other register, every other word of memory and every other control
register may change in any way, so that what the return sequence brings back has to come out of the
frame.  A system call, which writes its result into the frame, and a signal that rewrites it are not
handlers of this kind; an interrupt is, apart from those.

## Where the two paths differ

`trap_entry` tells the two levels apart by `sscratch`, which is zero in the kernel.  Both paths save
the same registers into the same places of the frame and restore them in the same order, up to the
end: the return to U-mode must put the kernel stack into `sscratch` and needs a register for the
user's `sp` when all of them have been restored.  It takes `t0`.

`tp` is saved and restored like the others, and on the way in it is loaded from the frame, where it
has just been saved: what `get_current` reads in the handler is what the program left there.
-/

namespace OscKernel
namespace Trap

open Rv64

/-- `sscratch` tells where the hart runs: zero in the kernel, the top of the kernel stack in
U-mode. -/
def SscratchConvention (h : Hart) : Prop :=
  match h.priv with
  | .user => h.cpu.csr .sscratch ≠ 0
  | .supervisor => h.cpu.csr .sscratch = 0

/-- `trap_handler` as its caller sees it: it returns with `sp` where it was, writes neither the
frame nor `sscratch`, and may change everything else. -/
structure Handler where
  run : Cpu → Cpu
  sp_eq : ∀ c, (run c).get sp = c.get sp
  frame_eq : ∀ c o, o < tfSize → (run c).mem (slotAddr (c.get sp) o) = c.mem (slotAddr (c.get sp) o)
  sscratch_eq : ∀ c, (run c).csr .sscratch = c.csr .sscratch

/-- From the call of `trap_handler` to `sret`. -/
def handleAndRestore (handler : Handler) (e : Path × Cpu) : Cpu :=
  execAll (handler.run e.2) (restore e.1)

/-- The hart takes an interrupt at `h` and runs until the `sret` that ends it. -/
def interrupt (handler : Handler) (stvec cause tval : Word) (h : Hart) : Hart :=
  let t := h.takeTrap stvec cause tval
  ({ t with cpu := handleAndRestore handler (trapEntry t.cpu) } : Hart).sret

/-- **The interrupted context is preserved**: execution resumes where it was interrupted, with the
registers `x1` to `x31` as they were, and `sscratch` says where the hart runs. -/
structure Preserved (h h' : Hart) : Prop where
  pc : h'.pc = h.pc
  x : ∀ r : Reg, r ≠ 0 → h'.cpu.get r = h.cpu.get r
  sscratch : h'.cpu.csr .sscratch = h.cpu.csr .sscratch

section

variable (handler : Handler) (stvec cause tval : Word) {h : Hart}

/-- What the handler leaves in the frame. -/
theorem frame_handled {c d : Cpu} {p : Word} (he : Entered c p d) :
    (handler.run d).get sp = p ∧ (handler.run d).csr .sscratch = 0 ∧
      (∀ s ∈ gprSlots, (handler.run d).mem (slotAddr p s.2) = c.get s.1) ∧
      (handler.run d).mem (slotAddr p tfSp) = c.get sp ∧
      (handler.run d).mem (slotAddr p tfSepc) = c.csr .sepc ∧
      (handler.run d).mem (slotAddr p tfSstatus) = c.csr .sstatus := by
  have hframe : ∀ o, o < tfSize → (handler.run d).mem (slotAddr p o) = d.mem (slotAddr p o) :=
    fun o ho => he.sp_eq ▸ handler.frame_eq d o ho
  refine ⟨(handler.sp_eq d).trans he.sp_eq, (handler.sscratch_eq d).trans he.sscratch,
    fun s hs => ?_, (hframe _ (by decide)).trans he.spSlot,
    (hframe _ (by decide)).trans he.sepcSlot, (hframe _ (by decide)).trans he.sstatusSlot⟩
  exact (hframe _ ((gprSlots_offs.2.1 s hs).trans (by decide))).trans (he.gpr s hs)

/-- The context that returns to S-mode. -/
theorem interrupt_supervisor (h0 : h.cpu.csr .sscratch = 0) :
    Preserved h (interrupt handler stvec cause tval h) := by
  set c := (h.takeTrap stvec cause tval).cpu with hc
  obtain ⟨hpath, he⟩ := entered_trapEntry c
  rw [hpath.mpr h0] at he
  obtain ⟨hsp, hscratch, hgpr, -, hsepc, -⟩ := frame_handled handler he
  obtain ⟨h1, -, h3, h4, h5⟩ := restoreCsrs_eq hsp
  obtain ⟨hx, hxsp, hcsr, -⟩ := kernelTail_eq h4
  have hrun : handleAndRestore handler (trapEntry c) =
      execAll (execAll (handler.run (trapEntry c).2) restoreCsrs) kernelTail := by
    unfold handleAndRestore restore
    rw [hpath.mpr h0, execAll_append, restoreTail]
  rw [← hrun] at hx hxsp hcsr
  have hcpu : ∀ r, (interrupt handler stvec cause tval h).cpu.get r =
      (handleAndRestore handler (trapEntry c)).get r := fun _ => rfl
  refine ⟨?_, fun r hr => ?_, ?_⟩
  · change (handleAndRestore handler (trapEntry c)).csr .sepc = h.pc
    rw [hcsr, h1, hsepc]
    rfl
  · rw [hcpu]
    by_cases hr' : r = sp
    · subst hr'
      rw [hxsp, frameBase_kernel_add]
      rfl
    · obtain ⟨s, hs, rfl⟩ := mem_gprSlots r hr hr'
      rw [hx s hs, h5, hgpr s hs]
      rfl
  · change (handleAndRestore handler (trapEntry c)).csr .sscratch = h.cpu.csr .sscratch
    rw [hcsr, h3, hscratch, h0]

/-- The context that returns to U-mode: `t0` holds the user's `sp`. -/
theorem interrupt_user (h0 : h.cpu.csr .sscratch ≠ 0) :
    let h' := interrupt handler stvec cause tval h
    h'.pc = h.pc ∧ (∀ r : Reg, r ≠ 0 → r ≠ t0 → h'.cpu.get r = h.cpu.get r) ∧
      h'.cpu.get t0 = h.cpu.get sp ∧ h'.cpu.csr .sscratch = h.cpu.csr .sscratch := by
  set c := (h.takeTrap stvec cause tval).cpu with hc
  obtain ⟨hpath, he⟩ := entered_trapEntry c
  have huser : (trapEntry c).1 = .user := by
    cases hp : (trapEntry c).1 with
    | user => rfl
    | kernel => exact absurd (hpath.mp hp) h0
  rw [huser] at he
  obtain ⟨hsp, -, hgpr, hspSlot, hsepc, -⟩ := frame_handled handler he
  obtain ⟨h1, -, -, h4, h5⟩ := restoreCsrs_eq hsp
  obtain ⟨hx, hxt0, hxsp, hscratch, hcsr, -⟩ := userTail_eq h4
  have hrun : handleAndRestore handler (trapEntry c) =
      execAll (execAll (handler.run (trapEntry c).2) restoreCsrs) userTail := by
    unfold handleAndRestore restore
    rw [huser, execAll_append, restoreTail]
  rw [← hrun] at hx hxt0 hxsp hscratch hcsr
  have hcpu : ∀ r, (interrupt handler stvec cause tval h).cpu.get r =
      (handleAndRestore handler (trapEntry c)).get r := fun _ => rfl
  refine ⟨?_, fun r hr hrt => ?_, ?_, ?_⟩
  · change (handleAndRestore handler (trapEntry c)).csr .sepc = h.pc
    rw [hcsr _ (by decide), h1, hsepc]
    rfl
  · rw [hcpu]
    by_cases hr' : r = sp
    · subst hr'
      rw [hxsp, h5, hspSlot]
      rfl
    · obtain ⟨s, hs, rfl⟩ := mem_gprSlots r hr hr'
      rw [hx s hs hrt, h5, hgpr s hs]
      rfl
  · rw [hcpu, hxt0, h5, hspSlot]
    rfl
  · change (handleAndRestore handler (trapEntry c)).csr .sscratch = h.cpu.csr .sscratch
    rw [hscratch]
    unfold frameBase
    rw [BitVec.add_assoc, ← BitVec.ofInt_add, Int.add_left_neg]
    exact BitVec.add_zero _

end

/-- **Interrupts and the registers of the interrupted code.**  For every handler that leaves the
frame unchanged and every context, the context is preserved exactly when the interrupt was taken
from S-mode or `t0` happened to equal `sp`. -/
theorem preserved_iff (handler : Handler) (stvec cause tval : Word) (h : Hart)
    (hconv : SscratchConvention h) :
    Preserved h (interrupt handler stvec cause tval h) ↔
      h.priv = .supervisor ∨ h.cpu.get t0 = h.cpu.get sp := by
  unfold SscratchConvention at hconv
  cases hp : h.priv with
  | supervisor =>
    rw [hp] at hconv
    exact iff_of_true (interrupt_supervisor handler stvec cause tval hconv) (Or.inl rfl)
  | user =>
    rw [hp] at hconv
    obtain ⟨hpc, hx, ht0, hscratch⟩ := interrupt_user handler stvec cause tval hconv
    constructor
    · intro hpres
      exact Or.inr ((hpres.x t0 (by decide)).symm.trans ht0)
    · rintro (hbad | heq)
      · exact absurd hbad (by simp)
      · refine ⟨hpc, fun r hr => ?_, hscratch⟩
        by_cases hrt : r = t0
        · rw [hrt, ht0, heq]
        · exact hx r hr hrt

/-- A handler that does nothing. -/
def Handler.idle : Handler := ⟨id, fun _ => rfl, fun _ _ _ => rfl, fun _ => rfl⟩

/-- A hart at `0x1000` with `x` in its registers and `scratch` in `sscratch`. -/
def hartAt (p : Priv) (x : Reg → Word) (scratch : Word) : Hart where
  cpu := ⟨x, Function.update (fun _ => 0) .sscratch scratch, fun _ => 0⟩
  pc := 0x1000
  priv := p

/-- A timer interrupt in the kernel. -/
theorem preserved_in_kernel :
    Preserved (hartAt .supervisor (fun _ => 7) 0)
      (interrupt .idle 0x80200000 0x8000000000000005 0 (hartAt .supervisor (fun _ => 7) 0)) :=
  (preserved_iff .idle _ _ _ (hartAt .supervisor (fun _ => 7) 0) rfl).mpr (Or.inl rfl)

/-- A timer interrupt in a user program that uses `t0`. -/
theorem not_preserved_in_user :
    ∃ h : Hart, h.priv = .user ∧ SscratchConvention h ∧
      ¬ Preserved h (interrupt .idle 0x80200000 0x8000000000000005 0 h) := by
  refine ⟨hartAt .user (fun r => if r = t0 then 1 else 0) 0x80400000, rfl, ?_, fun hpres => ?_⟩
  · change (0x80400000 : Word) ≠ 0
    decide
  · obtain ⟨-, -, ht0, -⟩ := interrupt_user .idle 0x80200000
      0x8000000000000005 0 (h := hartAt .user (fun r => if r = t0 then 1 else 0) 0x80400000)
      (show (0x80400000 : Word) ≠ 0 by decide)
    exact absurd ((hpres.x t0 (by decide)).symm.trans ht0) (by decide)

/-! ## The current thread -/

/-- `get_current`: read `tp`. -/
def getCurrent (c : Cpu) : Word := c.get tp

/-- Compiled C code of the kernel that does not switch threads: `tp` is no register that the
compiler allocates. -/
structure KernelCode where
  run : Cpu → Cpu
  tp_eq : ∀ c, (run c).get tp = c.get tp

/-- What `get_current` returns when it is called after `code`, inside the `trap_handler` of a trap
taken at `h`. -/
def currentInHandler (code : KernelCode) (stvec cause tval : Word) (h : Hart) : Word :=
  getCurrent (code.run (trapEntry (h.takeTrap stvec cause tval).cpu).2)

/-- The thread pointer of the kernel is the one of the interrupted code. -/
theorem currentInHandler_eq (code : KernelCode) (stvec cause tval : Word) (h : Hart) :
    currentInHandler code stvec cause tval h = h.cpu.get tp := by
  unfold currentInHandler getCurrent
  rw [code.tp_eq, (entered_trapEntry _).2.tp_eq]
  rfl

/-- **The current thread and the user's registers.**  For every two contexts, in particular two
user contexts of one thread, `get_current` inside the handler finds the thread that was dispatched
in both exactly when `tp` still points to it in both. -/
theorem getCurrent_iff (code : KernelCode) (stvec cause tval dispatched : Word) (h₁ h₂ : Hart) :
    (currentInHandler code stvec cause tval h₁ = currentInHandler code stvec cause tval h₂ ∧
        currentInHandler code stvec cause tval h₁ = dispatched) ↔
      h₁.cpu.get tp = dispatched ∧ h₂.cpu.get tp = dispatched := by
  rw [currentInHandler_eq, currentInHandler_eq]
  constructor
  · rintro ⟨heq, h1⟩
    exact ⟨h1, heq ▸ h1⟩
  · rintro ⟨h1, h2⟩
    exact ⟨h1.trans h2.symm, h1⟩

/-- Code that does nothing. -/
def KernelCode.idle : KernelCode := ⟨id, fun _ => rfl⟩

/-- A user context with `tp` as given. -/
def userWithTp (v : Word) : Hart := hartAt .user (fun r => if r = tp then v else 0) 0x80400000

/-- Two contexts in which the same thread runs in U-mode. -/
structure SameThread (h₁ h₂ : Hart) : Prop where
  user₁ : h₁.priv = .user
  user₂ : h₂.priv = .user
  sscratch : h₁.cpu.csr .sscratch = h₂.cpu.csr .sscratch
  inUser : h₁.cpu.csr .sscratch ≠ 0

theorem sameThread_userWithTp (v w : Word) : SameThread (userWithTp v) (userWithTp w) :=
  ⟨rfl, rfl, rfl, show (0x80400000 : Word) ≠ 0 by decide⟩

/-- A user program that stores a pointer of its own into `tp` makes the kernel act on it. -/
theorem getCurrent_forged :
    ∃ h₁ h₂ : Hart, SameThread h₁ h₂ ∧ h₁.cpu.get tp = 0x80300000 ∧
      currentInHandler .idle 0x80200000 8 0 h₁ ≠ currentInHandler .idle 0x80200000 8 0 h₂ := by
  refine ⟨userWithTp 0x80300000, userWithTp 0xdead0000, sameThread_userWithTp _ _, by decide, ?_⟩
  rw [currentInHandler_eq, currentInHandler_eq]
  decide

end Trap
end OscKernel
