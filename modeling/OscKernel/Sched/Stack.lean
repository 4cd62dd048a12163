import OscKernel.Sched.Machine
import Mathlib.Data.List.Chain

/-!
# Kernel stacks

Which calls can stand on which (`Frame.On`), and what a call may be replaced by without disturbing
what it stands on (`Frame.Goes`).

* `Frame.Goes.isChain`: replacing the innermost call keeps a stack well-formed.
-/

namespace OscKernel
namespace Sched
namespace Frame

/-- The `flags` of a call of `schedule` that is past its choice. -/
def flags : Frame → Option Bool
  | .switchTo fl _ => some fl
  | .scheduleReturn fl => some fl
  | _ => none

/-- The calls that an interrupt taken in the kernel puts on a stack. -/
def IsIrq : Frame → Prop
  | .irq false _ _ | .callback _ | .taskRunPending | .taskDone _ => True
  | _ => False

/-- The calls that neither sleep, nor wake a thread, nor change the current thread. -/
def Plain : Frame → Prop
  | .callback (.usleepCb _) | .sysUsleep _ _ | .threadWakeup _ | .schedule | .switchTo _ _
  | .dead => False
  | _ => True

/-- `f` can stand on `g`.  With `saved`, an interrupt that was taken inside `schedule` also
remembers the `SIE` that `schedule` was called with. -/
def On (saved : Bool) : Frame → Frame → Prop
  | .user, _ | .idleThreadBody, _ | .shell, _ | .kernelThread, _ => False
  | .irq true _ _, g => g = .user
  | .irq false sie _, g => g ≠ .user ∧ (saved = true → ∀ fl ∈ g.flags, sie = fl)
  | .ecall _ _, g => g = .user
  | .sysUsleep _ _, g | .sysWaitpid _, g => ∃ s pc, g = .ecall s pc
  | .runUserProgram _, g => g = .shell
  | .callback _, g | .taskRunPending, g | .taskDone _, g | .threadWakeup _, g | .schedule, g
  | .switchTo _ _, g | .scheduleReturn _, g | .dead, g => g ≠ .user ∧ g.flags = none

/-- The call `f` may be replaced by the calls `fs`. -/
def Goes (f : Frame) (fs : List Frame) : Prop :=
  ∀ b, fs.IsChain (On b) ∧ ∀ f' ∈ fs.getLast?, ∀ g, f.On b g → f'.On b g

variable {f f' f₁ f₂ : Frame} {fs rest : List Frame} {b : Bool}

theorem goes_nil : Goes f [] := fun _ => ⟨List.isChain_nil, by simp⟩

theorem goes_singleton (h : ∀ b g, f.On b g → f'.On b g) : Goes f [f'] := fun b =>
  ⟨List.isChain_singleton _, by simpa using h b⟩

theorem Goes.cons (h : Goes f (f₂ :: fs)) (hon : ∀ b, f₁.On b f₂) : Goes f (f₁ :: f₂ :: fs) :=
  fun b => ⟨List.isChain_cons_cons.mpr ⟨hon b, (h b).1⟩,
    by simpa [List.getLast?_cons_cons] using (h b).2⟩

/-- A call of `schedule`. -/
theorem goes_yield (h : ∀ b g, f.On b g → f'.On b g) (huser : f' ≠ .user)
    (hflags : f'.flags = none) : Goes f [.schedule, f'] :=
  (goes_singleton h).cons fun _ => ⟨huser, hflags⟩

/-- **Replacing the innermost call** keeps a stack well-formed. -/
theorem Goes.isChain (h : Goes f fs) (hf : (f :: rest).IsChain (On b)) :
    (fs ++ rest).IsChain (On b) := by
  refine List.isChain_append.mpr ⟨(h b).1, hf.tail, ?_⟩
  intro f' hf' g hg
  refine (h b).2 f' hf' g ?_
  cases rest with
  | nil => simp at hg
  | cons g' rest =>
    obtain rfl : g' = g := by simpa using hg
    exact (List.isChain_cons_cons.mp hf).1

end Frame
end Sched
end OscKernel
