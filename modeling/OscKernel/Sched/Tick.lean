import OscKernel.Sched.Machine
import Mathlib.Tactic.Linarith

/-!
# The scheduler tick (`timer.c`)

`timer_top_half` programs the timer for one period of the tick ahead at the latest.
`add_timer_ticks` programs it for the expiry of a timer that has become the first of the queue,
and the queue may have been empty.

* `tick_iff`: the tick is on time throughout a run exactly when no timer that becomes the first of
  the queue expires later than the tick.
* `late_of_addTimer`: a timer that does.

## What on time means

The tick is one period after the last reading of the clock by `timer_init` or `timer_top_half`, as a
number that does not wrap.  It is on time as long as the hardware timer is programmed for that
moment or for an earlier one; an earlier one is that of a timer on the queue, and its interrupt
programs the timer anew.  The values of the register are compared as the hardware compares them,
unsigned.

The condition names the calls that lose the tick by what they are called with and by the head of the
queue: the new timer is the first, and expires after the tick.  `add_timer` counts in whole seconds,
and the period of the tick is a fraction of one.

Calls may read the clock some time before they mask interrupts, so that a call comes with the
reading that it made.  The clock itself may advance by any amount between two steps, and wrap.
-/

namespace OscKernel
namespace Sched

open Transition

/-- `DEFAULT_TIMEBASE_FREQ`. -/
def defaultTimebaseFreq : BitVec 64 := 0x989680

namespace Kernel

variable (k : Kernel)

/-- `timer_init`; `prop` is the `timebase-frequency` of the device tree, `0` when there is none. -/
def timerInit (prop : BitVec 64) : Kernel :=
  let freq := if prop = 0 then defaultTimebaseFreq else prop
  { k with gTimebaseFreq := freq, deadline := k.clock + freq / schedTickDiv, sie := true }

/-- `add_timer`, with its delay in seconds. -/
def addTimer (cb : Callback) (sec : BitVec 32) (ok : Bool) : Kernel :=
  k.addTimerTicks cb (sec.signExtend 64 * k.gTimebaseFreq) ok

/-- `t->cb(t->arg)`, as far as threads are concerned. -/
def call : Callback → Kernel
  | .usleepCb tok => { k.threadWakeup tok.t with ran := tok.call :: k.ran }
  | .other | .demoTaskSlow => k

/-- The loop of `timer_top_half`; `mem` says for which timers there is memory for a task. -/
def expire (now : BitVec 64) (mem : ℕ → Bool) : List TimerNode → Kernel → Kernel
  | [], k => k
  | t :: rest, k =>
      if now < t.expireTick then k
      else
        let k := { k with gTimerQueue := rest }
        expire now mem rest (if mem rest.length then k.addTask t.cb timerTaskPrio else k.call t.cb)

/-- `timer_top_half`. -/
def timerTopHalf (mem : ℕ → Bool) : Kernel :=
  (expire k.clock mem k.gTimerQueue k).timerRearm k.clock

end Kernel

/-- The timer, and when `timer_init` or `timer_top_half` last read the clock. -/
structure TickRun where
  k : Kernel
  last : BitVec 64

/-- What happens to the timer.  A call of `add_timer` or `add_timer_us` read the clock at `now`,
which may be some time before it masks interrupts. -/
inductive TickCall where
  | tick (d : BitVec 64)
  | addTimer (now : BitVec 64) (cb : Callback) (sec : BitVec 32) (ok : Bool)
  | addTimerUs (now : BitVec 64) (cb : Callback) (usec : BitVec 64) (ok : Bool)
  | interrupt (mem : ℕ → Bool)

namespace TickRun

variable (s : TickRun)

/-- The state as a call sees it that read the clock at `now`. -/
def readAt (now : BitVec 64) : Kernel := { s.k with clock := now }

/-- One step.  The interrupt is taken when the time that was programmed has come. -/
def step (s : TickRun) : TickCall → Option TickRun
  | .tick d => some { s with k := { s.k with clock := s.k.clock + d } }
  | .addTimer now cb sec ok =>
      some { s with k := { (s.readAt now).addTimer cb sec ok with clock := s.k.clock } }
  | .addTimerUs now cb usec ok =>
      some { s with k := { (s.readAt now).addTimerUs cb usec ok with clock := s.k.clock } }
  | .interrupt mem =>
      if s.k.deadline ≤ s.k.clock then some ⟨s.k.timerTopHalf mem, s.k.clock⟩ else none

/-- `timer_init`, in any state. -/
def start (k : Kernel) (prop : BitVec 64) : TickRun := ⟨k.timerInit prop, k.clock⟩

/-- The time of the next scheduler tick. -/
def tickTime : ℕ := s.last.toNat + (s.k.gTimebaseFreq / schedTickDiv).toNat

/-- The hardware timer is programmed for the scheduler tick, or for earlier. -/
def OnTime : Prop := s.k.deadline.toNat ≤ s.tickTime

/-- A timer for `ticks` ticks after `now` does not become the first of the queue, or it expires
before the scheduler tick. -/
def Prompt (now ticks : BitVec 64) : Prop :=
  (∀ t ∈ s.k.gTimerQueue.head?, now + ticks < t.expireTick) → (now + ticks).toNat ≤ s.tickTime

/-- The timers that are added are prompt. -/
def prompt (s : TickRun) : TickCall → Prop
  | .addTimer now _ sec ok => ok = true → s.Prompt now (sec.signExtend 64 * s.k.gTimebaseFreq)
  | .addTimerUs now _ usec ok => ok = true → s.Prompt now (s.k.gTimebaseFreq * usec / 1000000)
  | _ => True

variable {s}

theorem onTime_start (k : Kernel) (prop : BitVec 64) : (start k prop).OnTime := by
  show (k.clock + _).toNat ≤ k.clock.toNat + _
  rw [BitVec.toNat_add]
  exact Nat.mod_le _ _

/-- Rearming the timer puts the tick on time, whatever the queue is. -/
theorem onTime_timerRearm (k : Kernel) (now : BitVec 64) : OnTime ⟨k.timerRearm now, now⟩ := by
  have hnext : (now + k.gTimebaseFreq / schedTickDiv).toNat ≤
      now.toNat + (k.gTimebaseFreq / schedTickDiv).toNat := by
    rw [BitVec.toNat_add]
    exact Nat.mod_le _ _
  show (k.timerRearm now).deadline.toNat ≤ _
  unfold Kernel.timerRearm
  cases k.gTimerQueue with
  | nil => exact hnext
  | cons h rest =>
    dsimp only
    split_ifs with hlt
    · exact (BitVec.lt_def.mp hlt).le.trans hnext
    · exact hnext

/-- A timer that is added keeps the tick on time exactly when it is prompt. -/
theorem onTime_addTimerTicks (h : s.OnTime) (now : BitVec 64) (cb : Callback) (ticks : BitVec 64)
    (ok : Bool) : (ok = true → s.Prompt now ticks) ↔
      OnTime ⟨{ (s.readAt now).addTimerTicks cb ticks ok with clock := s.k.clock }, s.last⟩ := by
  cases ok with
  | false => exact ⟨fun _ => h, fun _ => nofun⟩
  | true =>
    have hd : OnTime ⟨{ (s.readAt now).addTimerTicks cb ticks true with
        clock := s.k.clock }, s.last⟩ ↔
        (if ∀ t ∈ s.k.gTimerQueue.head?, now + ticks < t.expireTick then now + ticks
          else s.k.deadline).toNat ≤ s.tickTime := Iff.rfl
    rw [hd]
    split_ifs with hfirst
    · exact ⟨fun hp => hp rfl hfirst, fun hle _ _ => hle⟩
    · exact ⟨fun _ => h, fun _ _ hall => absurd hall hfirst⟩

/-- **One call** keeps the tick on time exactly when the timer it adds is prompt. -/
theorem prompt_iff {a : TickCall} {s' : TickRun} (h : s.OnTime) (hs : s.step a = some s') :
    s.prompt a ↔ s'.OnTime := by
  cases a with
  | tick d =>
    obtain rfl := Option.some.inj hs
    exact ⟨fun _ => h, fun _ => trivial⟩
  | addTimer now cb sec ok =>
    obtain rfl := Option.some.inj hs
    exact onTime_addTimerTicks h now cb _ ok
  | addTimerUs now cb usec ok =>
    obtain rfl := Option.some.inj hs
    exact onTime_addTimerTicks h now cb _ ok
  | interrupt mem =>
    rw [step] at hs
    split_ifs at hs
    obtain rfl := Option.some.inj hs
    exact ⟨fun _ => onTime_timerRearm _ _, fun _ => trivial⟩

/-- **The scheduler tick.**  After `timer_init`, the timer is programmed for the tick or for
earlier throughout a run exactly when every timer that becomes the first of the queue expires
before the tick.  Calls and interrupts come in any order, with any time in between. -/
theorem tick_iff (k : Kernel) (prop : BitVec 64) {as : List TickCall} {s' : TickRun}
    (h : runList step (start k prop) as = some s') :
    (∀ bs, bs <+: as → ∀ t, runList step (start k prop) bs = some t → t.OnTime) ↔
      Meets step prompt (start k prop) as :=
  forall_prefix_iff_meets (fun _ _ _ hP hs => prompt_iff hP hs) h (onTime_start k prop)

/-- A timer of two seconds, and the tick after it. -/
theorem tick_iff_of_addTimer :
    (∀ bs, bs <+: [TickCall.addTimer 0 .other 2 true] → ∀ t,
        runList step (start (Kernel.boot 320) 320) bs = some t → t.OnTime) ↔
      Meets step prompt (start (Kernel.boot 320) 320) [.addTimer 0 .other 2 true] :=
  tick_iff (Kernel.boot 320) 320 rfl

/-- **A timer that postpones the tick.**  After `timer_init` the tick is due at `10`; the first
timer of the queue, two seconds ahead, programs the timer for `640`. -/
theorem late_of_addTimer : ∃ t,
    runList step (start (Kernel.boot 320) 320) [.addTimer 0 .other 2 true] = some t ∧
      t.k.deadline = 640 ∧ t.tickTime = 10 ∧ ¬ t.OnTime :=
  ⟨_, rfl, by decide +kernel, by decide +kernel, by unfold OnTime; decide +kernel⟩

end TickRun
end Sched
end OscKernel
