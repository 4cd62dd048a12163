import OscKernel.Sched.Wait

/-!
# The first dispatch of a forked child (`sys_fork`, `sys_exec`)

The images of the processes lie in blocks of the heap.  `sys_fork` plants a trap frame for the
child: it translates the user stack pointer into the buffer of the child, and copies `sepc` as it
is, so the child begins in the buffer of its parent.

* `ForkState.step`: a call of the scheduler with the images and the planted frames.
* `ForkState.KeepsImages`: no image is freed that a child has still to begin in.
* `ForkState.begun_of_reachable`: then every child begins in allocated memory.
* `ForkState.begun_of_exit`: a child that is dispatched after its parent has exited does not.

## The distance in time

Between the fork and the first dispatch of the child any number of calls may come, and the parent
may exit, be stopped, be killed by a signal or execute another program in any of them.  What has to
be carried along is that the `sepc` of every planted frame lies in a block that is still an image,
and that its `sp` lies in the image of the child.  `sp` needs no condition, since that image is
freed only when the child has ended, and then it is not dispatched any more.

`KeepsImages` names the calls that break this, by the image that they free and by the children that
have still to begin in it.  It is a condition on the state before the call.

## What is assumed

A process that forks executes in its own image and has its stack there (`ForksInside`), and
`kmalloc` returns blocks that are apart from those in use.  The scheduler is that of
`OscKernel.Sched.Api`, with its preconditions.
-/

namespace OscKernel
namespace Sched

open Transition

/-- A block that `kmalloc` has returned. -/
structure Buffer where
  base : BitVec 64
  size : BitVec 64
  deriving DecidableEq

namespace Buffer

/-- The addresses in the block. -/
instance : Membership (BitVec 64) Buffer := ⟨fun b a => a - b.base < b.size⟩

instance (a : BitVec 64) (b : Buffer) : Decidable (a ∈ b) :=
  inferInstanceAs (Decidable (a - b.base < b.size))

/-- One of the blocks ends before the other begins. -/
def Apart (b c : Buffer) : Prop :=
  b.base.toNat + b.size.toNat ≤ c.base.toNat ∨ c.base.toNat + c.size.toNat ≤ b.base.toNat

instance (b c : Buffer) : Decidable (b.Apart c) := inferInstanceAs (Decidable (_ ∨ _))

end Buffer

/-- What matters of a `struct trap_frame`. -/
structure TrapFrame where
  sepc : BitVec 64
  sp : BitVec 64
  deriving DecidableEq

/-- The thread whose image a call frees. -/
def Api.frees (s : Api) : Call → Option Tid
  | .sysExit _ => some s.k.current
  | .sysStop pid =>
      if pid.setWidth 32 = (s.k.thread s.k.current).pid then some s.k.current
      else s.k.stopTarget (pid.setWidth 32)
  | .shellStopPid pid => s.k.stopTarget pid
  | .signalDefaultTerminate t => some t
  | _ => none

/-- The scheduler and the memory of the processes. -/
structure ForkState where
  api : Api
  /-- `image_base` and `total_size`. -/
  image : Tid → Option Buffer
  /-- The other blocks of the heap. -/
  heap : List Buffer
  /-- The trap frame that `sys_fork` planted for a child that has not been dispatched yet. -/
  planted : Tid → Option TrapFrame
  /-- The planted frame with which the current thread has just begun. -/
  begun : Option TrapFrame

/-- A step.  The buffers are the results of `kmalloc`. -/
inductive ForkEvent where
  /-- A call that makes no process. -/
  | call (c : Call)
  | threadSpawnUser (ok : Bool) (b : Option Buffer)
  /-- `sys_fork`, with the user registers `sepc` and `sp`. -/
  | sysFork (ok : Bool) (b : Option Buffer) (sepc sp : BitVec 64)
  /-- A `sys_exec` that finds the file and the memory. -/
  | sysExec (b : Buffer)
  /-- `kmalloc` and `kfree` for other purposes. -/
  | kmalloc (b : Buffer)
  | kfree (b : Buffer)

namespace ForkState

variable (s : ForkState)

/-- The address lies in a block that has not been freed. -/
def Allocated (a : BitVec 64) : Prop :=
  (∃ t, ∃ b ∈ s.image t, a ∈ b) ∨ ∃ b ∈ s.heap, a ∈ b

/-- `kmalloc` may return `b`. -/
def Fresh (b : Buffer) : Prop :=
  b.base.toNat + b.size.toNat ≤ 2 ^ 64 ∧ (∀ t < s.api.k.count, ∀ c ∈ s.image t, b.Apart c) ∧
    ∀ c ∈ s.heap, b.Apart c

instance (b : Buffer) : Decidable (s.Fresh b) :=
  inferInstanceAs (Decidable (_ ∧ (∀ t < s.api.k.count, ∀ c ∈ s.image t, b.Apart c) ∧ _))

/-- After a step of the scheduler: an image is freed where `image_base` is `NULL` now, and the
current thread has begun if it had not. -/
def after (api : Api) : ForkState :=
  { s with
    api := api
    image := fun t => if (api.k.thread t).image then s.image t else none
    planted := Function.update s.planted api.k.current none
    begun := s.planted api.k.current }

/-- A new process `t` with the image `b` and, for `sys_fork`, the planted frame `tf`. -/
def newProcess (t : Tid) (b : Buffer) (tf : Option TrapFrame) : ForkState :=
  { s with
    image := Function.update s.image t (some b)
    planted := Function.update s.planted t tf }

/-- `thread_spawn_user` and `sys_fork`, which plant the frame `tf b`. -/
def create (ok : Bool) (b : Option Buffer) (tf : Buffer → Option TrapFrame) : Option ForkState :=
  (s.api.step (.newUserThread ok b.isSome)).map fun api =>
    match ok, b with
    | true, some b => (s.after api).newProcess s.api.k.count b (tf b)
    | _, _ => s.after api

/-- The calls that make processes in several steps are not used here. -/
def ordinary : Call → Bool
  | .newUserThread _ _ | .threadAllocBare _ | .threadEnqueueReady _ _ _ | .discard _ => false
  | _ => true

/-- One step.  A call that makes a process comes with the blocks that `kmalloc` returns for it. -/
def step (s : ForkState) : ForkEvent → Option ForkState
  | .call c => if ordinary c then (s.api.step c).map s.after else none
  | .threadSpawnUser ok b =>
      if s.api.k.current = gBootstrap ∧ ∀ c ∈ b, s.Fresh c then s.create ok b fun _ => none
      else none
  | .sysFork ok b sepc sp =>
      match s.image s.api.k.current with
      | none => none
      | some im =>
          if ∀ c ∈ b, s.Fresh c ∧ c.size = im.size then
            s.create ok b fun c => some ⟨sepc, c.base + (sp - im.base)⟩
          else none
  | .sysExec b =>
      if (s.image s.api.k.current).isSome ∧ s.Fresh b then
        some { s with image := Function.update s.image s.api.k.current (some b), begun := none }
      else none
  | .kmalloc b => if s.Fresh b then some { s with heap := b :: s.heap, begun := none } else none
  | .kfree b =>
      if b ∈ s.heap then some { s with heap := s.heap.erase b, begun := none } else none

/-- The state that `sched_init` leaves behind. -/
def boot (freq : BitVec 64) : ForkState :=
  ⟨.boot freq, fun _ => none, [], fun _ => none, none⟩

/-- The thread whose image a step frees. -/
def frees : ForkEvent → Option Tid
  | .call c => s.api.frees c
  | .sysExec _ => some s.api.k.current
  | _ => none

/-- A process that forks runs in its image, and its stack is there. -/
def ForksInside (s : ForkState) : ForkEvent → Prop
  | .sysFork _ _ sepc sp => ∀ im ∈ s.image s.api.k.current, sepc ∈ im ∧ sp ∈ im
  | _ => True

instance (s : ForkState) : DecidablePred s.ForksInside
  | .sysFork _ _ sepc sp =>
      inferInstanceAs (Decidable (∀ im ∈ s.image s.api.k.current, sepc ∈ im ∧ sp ∈ im))
  | .call _ | .threadSpawnUser _ _ | .sysExec _ | .kmalloc _ | .kfree _ => isTrue trivial

/-- The step frees no image that a child, alive and not yet dispatched, has to begin in. -/
def KeepsImages (s : ForkState) (e : ForkEvent) : Prop :=
  ∀ t ∈ s.frees e, ∀ b ∈ s.image t, ∀ c tf, s.planted c = some tf → s.api.k.Live c →
    s.api.k.state c ≠ .zombie → c ≠ t → tf.sepc ∉ b

end ForkState

namespace Kernel

variable {k k' k'' : Kernel} {bare : List Tid} {t u : Tid} {gone : Option Tid}

/-! ## Whose image a call frees -/

/-- What a step does to the images: `gone` loses its own and is a zombie. -/
structure Ends (k k' : Kernel) (gone : Option Tid) : Prop where
  count : k.count ≤ k'.count
  live : ∀ u, k'.Live u → k.Live u ∨ u = k.count
  zombie : ∀ u, u ≠ k.count → k.state u = .zombie → k'.state u = .zombie
  image : ∀ u, u ≠ k.count →
    (k'.thread u).image = if gone = some u then false else (k.thread u).image
  gone : ∀ u, gone = some u → k'.state u = .zombie

theorem Ends.refl (k : Kernel) : Ends k k none :=
  ⟨Nat.le_refl _, fun _ => Or.inl, fun _ _ => id, fun _ _ => rfl, fun _ h => by cases h⟩

/-- Scheduling frees nothing. -/
theorem Ends.calm (h : Ends k k' gone) (hcalm : Calm k' k'') : Ends k k'' gone where
  count := hcalm.count ▸ h.count
  live u hu := h.live u (hcalm.live u hu)
  zombie u hu hz := (hcalm.zombie u).mpr (h.zombie u hu hz)
  image u hu := by
    rw [hcalm.thread]
    exact h.image u hu
  gone u hu := (hcalm.zombie u).mpr (h.gone u hu)

theorem ends_setState {s : ThreadState} (hs : k.state t = .zombie → s = .zombie) :
    Ends k (k.setState t s) none where
  count := Nat.le_refl _
  live _ := Or.inl
  zombie u _ hz := by
    rw [state_setState]
    split_ifs with hu
    · exact hs (hu ▸ hz)
    · exact hz
  image u _ := image_modify (by intro; rfl)
  gone _ h := by cases h

/-- The lists and the queues do not matter. -/
theorem Ends.congr (h : Ends k k' gone) (hstate : ∀ u, k''.state u = k'.state u)
    (himage : ∀ u, (k''.thread u).image = (k'.thread u).image) (hcount : k''.count = k'.count)
    (hlive : ∀ u, k''.Live u → k'.Live u) : Ends k k'' gone where
  count := hcount ▸ h.count
  live u hu := h.live u (hlive u hu)
  zombie u hu hz := (hstate u).trans (h.zombie u hu hz)
  image u hu := (himage u).trans (h.image u hu)
  gone u hu := (hstate u).trans (h.gone u hu)

theorem ends_terminateThread : Ends k (k.terminateThread t) (some t) := by
  have hends : Ends k (k.terminate t) (some t) → Ends k (k.terminateThread t) (some t) := fun h =>
    h.calm calm_wakeupParent
  refine hends ⟨?_, fun u hu => Or.inl ?_, fun u _ hz => ?_, fun u _ => ?_, ?_⟩
  · exact Nat.le_of_eq sameLinks_terminate.count.symm
  · exact sameLinks_terminate.live.mp hu
  · rw [state_terminate]
    split_ifs
    · rfl
    · exact hz
  · rw [thread_terminate]
    by_cases hu : u = t
    · rw [if_pos hu, if_pos (congrArg some hu.symm)]
    · rw [if_neg hu, if_neg fun h => hu (Option.some.inj h).symm]
  · rintro u hu
    rw [state_terminate, if_pos (Option.some.inj hu).symm]

theorem ends_exitCurrent (status : BitVec 64) :
    Ends k (k.exitCurrent status) (some k.current) := by
  have hsame := exiting_same (k := k) status
  have hends : Ends k (k.sysExit status) (some k.current) →
      Ends k (k.exitCurrent status) (some k.current) := fun h => h.calm calm_wakeupParent
  refine hends ⟨?_, fun u hu => Or.inl ?_, fun u _ hz => ?_, fun u _ => ?_, ?_⟩
  · exact Nat.le_of_eq hsame.1.symm
  · exact ⟨hsame.1 ▸ hu.1, hsame.2.1 ▸ hu.2⟩
  · show ((k.sysExit status).thread u).state = _
    rw [thread_sysExit]
    show (if _ then _ else _) = _
    split_ifs
    · rfl
    · exact hz
  · rw [thread_sysExit]
    show (if u = k.current then false else _) = _
    by_cases hu : u = k.current
    · rw [if_pos hu, if_pos (congrArg some hu.symm)]
    · rw [if_neg hu, if_neg fun h => hu (Option.some.inj h).symm]
  · rintro u hu
    show ((k.sysExit status).thread u).state = _
    rw [thread_sysExit]
    exact if_pos (Option.some.inj hu).symm

/-- A thread that is made in one call. -/
theorem ends_created (h : k.Sound bare) (image : Bool) (f : Frame) :
    Ends k ((k.threadAllocBare.modify k.count fun x => { x with image := image }).linkThread
      k.count k.current f) none where
  count := Nat.le_succ _
  live u hu := (live_threadAllocBare h).mp hu
  zombie u hu hz := (state_created hu image f).trans hz
  image u hu := by
    rw [thread_created hu image f]
    rfl
  gone _ h := by cases h

/-- A thread that there was no image for. -/
theorem Ends.failed (h : Ends k k' gone) : Ends k { k' with
    count := k'.count + 1, gNextTid := k'.gNextTid + 1, freed := k'.count :: k'.freed } gone where
  count := Nat.le_succ_of_le h.count
  live u hu := h.live u (live_createFailed hu)
  zombie := h.zombie
  image := h.image
  gone := h.gone

theorem ends_killZombie : Ends k (k.killZombie.getD k) none := by
  unfold killZombie
  cases k.gZombies with
  | nil => exact .refl k
  | cons z rest =>
    refine (Ends.refl k).congr (fun _ => rfl) (fun _ => rfl) rfl fun u hu =>
      ⟨hu.1, fun hm => hu.2 ?_⟩
    show u ∈ if z = gBootstrap then k.freed else z :: k.freed
    split_ifs
    · exact hm
    · exact List.mem_cons_of_mem _ hm

theorem ends_newUserThread (h : k.Sound bare) (ok okImage : Bool) :
    Ends k (k.newUserThread ok okImage).1 none := by
  unfold newUserThread
  cases ok with
  | false => exact .refl k
  | true =>
    cases okImage with
    | false => exact (Ends.refl k).failed
    | true => exact ends_created h true .user

end Kernel

namespace Api

variable {s s' : Api} {c : Call}

theorem ends_stopTarget {pid : BitVec 32} {r : Api × Bool} (hr : s.stopTarget pid = some r) :
    Kernel.Ends s.k r.1.k (s.k.stopTarget pid) := by
  unfold stopTarget at hr
  cases ht : s.k.stopTarget pid with
  | none =>
    rw [ht] at hr
    exact Option.some.inj hr ▸ .refl s.k
  | some t =>
    rw [ht] at hr
    dsimp only at hr
    split_ifs at hr
    exact Option.some.inj hr ▸ Kernel.ends_terminateThread

theorem ends_call {r : Api × Bool} (h : s.k.Running s.bare) (hc : ForkState.ordinary c)
    (hr : s.call c = some r) : Kernel.Ends s.k r.1.k (s.frees c) := by
  cases c with
  | threadAllocBare ok => cases hc
  | threadEnqueueReady t image link => cases hc
  | discard t => cases hc
  | newUserThread ok okImage => cases hc
  | threadCreate ok =>
    obtain rfl := Option.some.inj hr
    cases ok with
    | false => exact .refl s.k
    | true => exact Kernel.threadCreate_true ▸ Kernel.ends_created h.toSound false .kernelThread
  | schedule => exact Option.some.inj hr ▸ .refl s.k
  | threadBlock =>
    rw [call] at hr
    split_ifs at hr
    obtain rfl := Option.some.inj hr
    exact Kernel.ends_setState fun hz => absurd (h.current_running.symm.trans hz) (by decide)
  | threadWakeup t =>
    rw [call] at hr
    split_ifs at hr
    exact Option.some.inj hr ▸ (Kernel.Ends.refl s.k).calm Kernel.calm_threadWakeup
  | threadExit =>
    rw [call] at hr
    split_ifs at hr
    obtain rfl := Option.some.inj hr
    exact (Kernel.ends_setState (k := s.k) (t := s.k.current) (s := .zombie) fun _ => rfl).congr
      (fun _ => rfl) (fun _ => rfl) rfl fun _ => id
  | sysExit status =>
    rw [call] at hr
    split_ifs at hr
    exact Option.some.inj hr ▸ Kernel.ends_exitCurrent status
  | sysStop pid =>
    rw [call] at hr
    rw [frees]
    split_ifs at hr ⊢
    · exact Option.some.inj hr ▸ Kernel.ends_exitCurrent (-1)
    · exact ends_stopTarget hr
  | shellStopPid pid =>
    rw [call] at hr
    split_ifs at hr
    exact ends_stopTarget hr
  | signalDefaultTerminate t =>
    rw [call] at hr
    split_ifs at hr
    · exact Option.some.inj hr ▸ Kernel.ends_terminateThread
    · exact Option.some.inj hr ▸ Kernel.ends_terminateThread
  | schedZombify t =>
    rw [call] at hr
    split_ifs at hr
    exact Option.some.inj hr ▸ (Kernel.Ends.refl s.k).congr (fun _ => rfl) (fun _ => rfl) rfl
      fun _ => id
  | killZombies =>
    rw [call] at hr
    split_ifs at hr
    exact Option.some.inj hr ▸ Kernel.ends_killZombie

/-- A call, with the `schedule` in it. -/
theorem ends_step (h : s.k.Running s.bare) (hc : ForkState.ordinary c) (hs : s.step c = some s') :
    Kernel.Ends s.k s'.k (s.frees c) := by
  obtain ⟨⟨r, b⟩, hr, rfl⟩ := Option.map_eq_some_iff.mp hs
  have hends := ends_call h hc hr
  cases b with
  | false => exact hends
  | true => exact hends.calm (sound_call h hr).1.calm_reschedule

end Api

namespace ForkState

variable {s s' : ForkState} {e : ForkEvent}

/-! ## The invariant -/

/-- Only a process has an image, and a planted frame belongs to a thread that exists and is not
the current one. -/
structure Owns (s : ForkState) : Prop where
  running : s.api.k.Running s.api.bare
  image : ∀ t, ∀ b ∈ s.image t, (s.api.k.thread t).image = true ∧ t < s.api.k.count
  planted_lt : ∀ c, ∀ tf ∈ s.planted c, c < s.api.k.count
  planted_current : s.planted s.api.k.current = none

/-- A child that has not been dispatched will begin in memory that is allocated. -/
structure Planted (s : ForkState) : Prop extends Owns s where
  planted : ∀ c, ∀ tf ∈ s.planted c, s.api.k.Live c → s.api.k.state c ≠ .zombie →
    (∃ b ∈ s.image c, tf.sp ∈ b) ∧ ∃ t, ∃ b ∈ s.image t, tf.sepc ∈ b
  begun : ∀ tf ∈ s.begun, s.Allocated tf.sepc ∧ s.Allocated tf.sp

theorem mem_image_after {api : Api} {t : Tid} {b : Buffer} :
    b ∈ (s.after api).image t ↔ (api.k.thread t).image = true ∧ b ∈ s.image t := by
  show b ∈ (if _ then _ else _) ↔ _
  split_ifs with hi
  · exact (and_iff_right hi).symm
  · exact iff_of_false (fun h => by cases h) fun h => hi h.1

theorem mem_planted_after {api : Api} {c : Tid} {tf : TrapFrame} :
    tf ∈ (s.after api).planted c ↔ c ≠ api.k.current ∧ tf ∈ s.planted c := by
  show Function.update s.planted api.k.current none c = some tf ↔ _
  rw [Function.update_apply]
  split_ifs with hc
  · exact iff_of_false (fun h => by cases h) fun h => h.1 hc
  · exact (and_iff_right hc).symm

/-- A step of the scheduler that frees the image of `gone`. -/
theorem Owns.after (h : s.Owns) {api : Api} {gone : Option Tid}
    (hends : Kernel.Ends s.api.k api.k gone) (hrun : api.k.Running api.bare) :
    (s.after api).Owns where
  running := hrun
  image t b hb := by
    obtain ⟨hi, hb⟩ := mem_image_after.mp hb
    exact ⟨hi, Nat.lt_of_lt_of_le (h.image t b hb).2 hends.count⟩
  planted_lt c tf htf :=
    Nat.lt_of_lt_of_le (h.planted_lt c tf (mem_planted_after.mp htf).2) hends.count
  planted_current := Function.update_self ..

theorem Planted.after (h : s.Planted) {api : Api} {gone : Option Tid}
    (hends : Kernel.Ends s.api.k api.k gone) (hrun : api.k.Running api.bare)
    (hkeeps : ∀ t ∈ gone, ∀ b ∈ s.image t, ∀ c tf, s.planted c = some tf → s.api.k.Live c →
      s.api.k.state c ≠ .zombie → c ≠ t → tf.sepc ∉ b) : (s.after api).Planted := by
  have hkept : ∀ t, gone ≠ some t → ∀ b ∈ s.image t, b ∈ (s.after api).image t :=
    fun t ht b hb => by
      refine mem_image_after.mpr ⟨?_, hb⟩
      obtain ⟨hi, hlt⟩ := h.image t b hb
      rw [hends.image t (Nat.ne_of_lt hlt), if_neg ht]
      exact hi
  have hplanted : ∀ c tf, s.planted c = some tf → api.k.Live c → api.k.state c ≠ .zombie →
      (∃ b ∈ (s.after api).image c, tf.sp ∈ b) ∧
        ∃ t, ∃ b ∈ (s.after api).image t, tf.sepc ∈ b := fun c tf htf hl hz => by
    have hne := Nat.ne_of_lt (h.planted_lt c tf htf)
    have hlive := (hends.live c hl).resolve_right hne
    have hzombie : s.api.k.state c ≠ .zombie := fun hz' => hz (hends.zombie c hne hz')
    obtain ⟨⟨b, hb, hsp⟩, t, b', hb', hsepc⟩ := h.planted c tf htf hlive hzombie
    refine ⟨⟨b, hkept c (fun hg => hz (hends.gone c hg)) b hb, hsp⟩, t, b', ?_, hsepc⟩
    by_cases hg : gone = some t
    · by_cases hct : c = t
      · exact absurd (hends.gone c (hct ▸ hg)) hz
      · exact absurd hsepc (hkeeps t hg b' hb' c tf htf hlive hzombie hct)
    · exact hkept t hg b' hb'
  refine ⟨h.toOwns.after hends hrun, fun c tf htf hl hz => ?_, fun tf htf => ?_⟩
  · exact hplanted c tf (mem_planted_after.mp htf).2 hl hz
  · -- the thread that begins is alive
    obtain ⟨⟨b, hb, hsp⟩, t, b', hb', hsepc⟩ := hplanted _ tf htf hrun.current_live
      (by rw [hrun.current_running]; decide)
    exact ⟨Or.inl ⟨t, b', hb', hsepc⟩, Or.inl ⟨_, b, hb, hsp⟩⟩

/-- A new process with its image. -/
theorem Owns.newProcess (h : s.Owns) {t : Tid} {b : Buffer} {tf : Option TrapFrame}
    (hi : (s.api.k.thread t).image = true) (ht : t < s.api.k.count)
    (hcurrent : s.api.k.current ≠ t) : (s.newProcess t b tf).Owns where
  running := h.running
  image u c hc := by
    change Function.update s.image t (some b) u = some c at hc
    rw [Function.update_apply] at hc
    split_ifs at hc with hu
    · rw [hu]
      exact ⟨hi, ht⟩
    · exact h.image u c hc
  planted_lt u f hf := by
    change Function.update s.planted t tf u = some f at hf
    rw [Function.update_apply] at hf
    split_ifs at hf with hu
    · exact hu ▸ ht
    · exact h.planted_lt u f hf
  planted_current := (Function.update_of_ne hcurrent ..).trans h.planted_current

theorem Planted.newProcess (h : s.Planted) {t : Tid} {b : Buffer} {tf : Option TrapFrame}
    (hi : (s.api.k.thread t).image = true) (ht : t < s.api.k.count)
    (hcurrent : s.api.k.current ≠ t) (hnew : s.image t = none)
    (hsp : ∀ f ∈ tf, f.sp ∈ b) (hsepc : ∀ f ∈ tf, ∃ u, ∃ c ∈ s.image u, f.sepc ∈ c) :
    (s.newProcess t b tf).Planted := by
  have hold : ∀ u, ∀ c ∈ s.image u, c ∈ (s.newProcess t b tf).image u := fun u c hc => by
    refine (Function.update_of_ne ?_ ..).trans hc
    rintro rfl
    rw [hnew] at hc
    cases hc
  have hself : b ∈ (s.newProcess t b tf).image t := Function.update_self ..
  refine ⟨h.toOwns.newProcess hi ht hcurrent, fun u f hf hl hz => ?_, fun f hf => ?_⟩
  · change Function.update s.planted t tf u = some f at hf
    rw [Function.update_apply] at hf
    split_ifs at hf with hu
    · obtain ⟨v, c, hc, hmem⟩ := hsepc f hf
      exact ⟨⟨b, hu ▸ hself, hsp f hf⟩, v, c, hold v c hc, hmem⟩
    · obtain ⟨⟨c, hc, hmem⟩, v, d, hd, hmem'⟩ := h.planted u f hf hl hz
      exact ⟨⟨c, hold u c hc, hmem⟩, v, d, hold v d hd, hmem'⟩
  · have hallocated : ∀ a, s.Allocated a → (s.newProcess t b tf).Allocated a := by
      rintro a (⟨u, c, hc, hmem⟩ | hmem)
      · exact Or.inl ⟨u, c, hold u c hc, hmem⟩
      · exact Or.inr hmem
    exact ⟨hallocated _ (h.begun f hf).1, hallocated _ (h.begun f hf).2⟩

/-- What `thread_alloc_bare` and the image make of the scheduler. -/
theorem step_newUserThread (h : s.Owns) {api : Api} {ok okImage : Bool}
    (hs : s.api.step (.newUserThread ok okImage) = some api) :
    Kernel.Ends s.api.k api.k none ∧ api.k.Running api.bare ∧
      (ok = true → okImage = true →
        (api.k.thread s.api.k.count).image = true ∧ s.api.k.count < api.k.count ∧
          api.k.current ≠ s.api.k.count) := by
  obtain rfl := Option.some.inj hs
  refine ⟨Kernel.ends_newUserThread h.running.toSound ok okImage,
    h.running.newUserThread ok okImage, ?_⟩
  rintro rfl rfl
  exact ⟨Kernel.image_created_self true .user, Nat.lt_succ_self _,
    h.running.current_live.ne_count⟩

theorem Owns.image_count (h : s.Owns) : s.image s.api.k.count = none :=
  Option.eq_none_iff_forall_not_mem.mpr fun b hb => Nat.lt_irrefl _ (h.image _ b hb).2

theorem Owns.create (h : s.Owns) {ok : Bool} {b : Option Buffer} {tf : Buffer → Option TrapFrame}
    (hs : s.create ok b tf = some s') : s'.Owns := by
  obtain ⟨api, hapi, rfl⟩ := Option.map_eq_some_iff.mp hs
  obtain ⟨hends, hrun, hnew⟩ := step_newUserThread h hapi
  have hafter := h.after hends hrun
  cases ok with
  | false => exact hafter
  | true =>
    cases b with
    | none => exact hafter
    | some b =>
      obtain ⟨hi, hlt, hne⟩ := hnew rfl rfl
      exact hafter.newProcess hi hlt hne

theorem Planted.create (h : s.Planted) {ok : Bool} {b : Option Buffer}
    {tf : Buffer → Option TrapFrame} (hs : s.create ok b tf = some s')
    (hsp : ∀ c ∈ b, ∀ f ∈ tf c, f.sp ∈ c)
    (hsepc : ∀ c ∈ b, ∀ f ∈ tf c, ∃ u, ∃ d ∈ s.image u, f.sepc ∈ d) : s'.Planted := by
  obtain ⟨api, hapi, rfl⟩ := Option.map_eq_some_iff.mp hs
  obtain ⟨hends, hrun, hnew⟩ := step_newUserThread h.toOwns hapi
  have hafter := h.after hends hrun fun _ ht => by cases ht
  cases ok with
  | false => exact hafter
  | true =>
    cases b with
    | none => exact hafter
    | some b =>
      obtain ⟨hi, hlt, hne⟩ := hnew rfl rfl
      refine hafter.newProcess hi hlt hne ?_ (hsp b rfl) fun f hf => ?_
      · refine Option.eq_none_iff_forall_not_mem.mpr fun c hc => ?_
        have hc' := (mem_image_after.mp hc).2
        rw [h.image_count] at hc'
        cases hc'
      · obtain ⟨u, d, hd, hmem⟩ := hsepc b rfl f hf
        refine ⟨u, d, mem_image_after.mpr ⟨?_, hd⟩, hmem⟩
        obtain ⟨hiu, hltu⟩ := h.image u d hd
        rw [hends.image u (Nat.ne_of_lt hltu)]
        exact hiu

theorem owns_step (h : s.Owns) (hs : s.step e = some s') : s'.Owns := by
  cases e with
  | call c =>
    rw [step] at hs
    split_ifs at hs with hc
    obtain ⟨api, hapi, rfl⟩ := Option.map_eq_some_iff.mp hs
    exact h.after (Api.ends_step h.running hc hapi) (Api.running_step h.running hapi)
  | threadSpawnUser ok b =>
    rw [step] at hs
    split_ifs at hs
    exact h.create hs
  | sysFork ok b sepc sp =>
    rw [step] at hs
    cases him : s.image s.api.k.current with
    | none =>
      rw [him] at hs
      cases hs
    | some im =>
      rw [him] at hs
      dsimp only at hs
      split_ifs at hs
      exact h.create hs
  | sysExec b =>
    rw [step] at hs
    split_ifs at hs with hg
    obtain rfl := Option.some.inj hs
    refine ⟨h.running, fun t c hc => ?_, h.planted_lt, h.planted_current⟩
    change Function.update s.image s.api.k.current (some b) t = some c at hc
    rw [Function.update_apply] at hc
    split_ifs at hc with ht
    · obtain ⟨im, him⟩ := Option.isSome_iff_exists.mp hg.1
      rw [ht]
      exact h.image _ im him
    · exact h.image t c hc
  | kmalloc b =>
    rw [step] at hs
    split_ifs at hs
    exact Option.some.inj hs ▸ ⟨h.running, h.image, h.planted_lt, h.planted_current⟩
  | kfree b =>
    rw [step] at hs
    split_ifs at hs
    exact Option.some.inj hs ▸ ⟨h.running, h.image, h.planted_lt, h.planted_current⟩

/-- **A step that frees no image in which a child has to begin.** -/
theorem planted_step (h : s.Planted) (hinside : s.ForksInside e) (hkeeps : s.KeepsImages e)
    (hs : s.step e = some s') : s'.Planted := by
  have howns := owns_step h.toOwns hs
  cases e with
  | call c =>
    rw [step] at hs
    split_ifs at hs with hc
    obtain ⟨api, hapi, rfl⟩ := Option.map_eq_some_iff.mp hs
    exact h.after (Api.ends_step h.running hc hapi) (Api.running_step h.running hapi) hkeeps
  | threadSpawnUser ok b =>
    rw [step] at hs
    split_ifs at hs
    exact h.create hs (fun _ _ _ hf => by cases hf) fun _ _ _ hf => by cases hf
  | sysFork ok b sepc sp =>
    rw [step] at hs
    cases him : s.image s.api.k.current with
    | none =>
      rw [him] at hs
      cases hs
    | some im =>
      rw [him] at hs
      dsimp only at hs
      split_ifs at hs with hg
      obtain ⟨hsepc, hsp⟩ := hinside im him
      refine h.create hs (fun c hc f hf => ?_) fun c hc f hf => ?_
      · -- the stack pointer keeps its distance from the start of the buffer
        obtain rfl := Option.some.inj hf
        show c.base + (sp - im.base) - c.base < c.size
        rw [BitVec.add_comm, BitVec.add_sub_cancel, (hg c hc).2]
        exact hsp
      · obtain rfl := Option.some.inj hf
        exact ⟨_, im, him, hsepc⟩
  | sysExec b =>
    rw [step] at hs
    split_ifs at hs with hg
    obtain rfl := Option.some.inj hs
    refine ⟨howns, fun c tf htf hl hz => ?_, fun _ htf => by cases htf⟩
    obtain ⟨⟨d, hd, hsp⟩, t, d', hd', hsepc⟩ := h.planted c tf htf hl hz
    have hc : c ≠ s.api.k.current := by
      rintro rfl
      rw [h.planted_current] at htf
      cases htf
    have ht : t ≠ s.api.k.current := by
      rintro rfl
      exact hkeeps _ rfl d' hd' c tf htf hl hz hc hsepc
    exact ⟨⟨d, (Function.update_of_ne hc ..).trans hd, hsp⟩, t, d',
      (Function.update_of_ne ht ..).trans hd', hsepc⟩
  | kmalloc b =>
    rw [step] at hs
    split_ifs at hs
    exact Option.some.inj hs ▸ ⟨⟨h.running, h.image, h.planted_lt, h.planted_current⟩, h.planted,
      fun _ hf => by cases hf⟩
  | kfree b =>
    rw [step] at hs
    split_ifs at hs
    exact Option.some.inj hs ▸ ⟨⟨h.running, h.image, h.planted_lt, h.planted_current⟩, h.planted,
      fun _ hf => by cases hf⟩

theorem planted_boot (freq : BitVec 64) : (boot freq).Planted where
  running := Kernel.running_boot freq
  image _ _ hb := by cases hb
  planted_lt _ _ hf := by cases hf
  planted_current := rfl
  planted _ _ hf := by cases hf
  begun _ hf := by cases hf

/-- **A forked child begins in allocated memory**, in every run in which no image is freed that a
child has still to begin in, and every process that forks runs in its own image.  Between the fork
and the first dispatch of the child there may be any number of calls. -/
theorem begun_of_reachable (freq : BitVec 64)
    (hs : Reachable step (fun s e => s.ForksInside e ∧ s.KeepsImages e) (boot freq) s) :
    ∀ tf ∈ s.begun, s.Allocated tf.sepc ∧ s.Allocated tf.sp :=
  (hs.invariant (P := Planted) (planted_boot freq)
    fun _ _ _ h hG hs => planted_step h hG.1 hG.2 hs).begun

theorem owns_of_reachable {freq : BitVec 64} (hs : Reachable step anyStep (boot freq) s) : s.Owns :=
  hs.invariant (P := Owns) (planted_boot freq).toOwns fun _ _ _ h _ hs => owns_step h hs

/-- An address that no block of the threads so far holds. -/
theorem Owns.not_allocated (h : s.Owns) {a : BitVec 64} (himage : ∀ t < s.api.k.count,
    ∀ b ∈ s.image t, a ∉ b) (hheap : ∀ b ∈ s.heap, a ∉ b) : ¬ s.Allocated a := by
  rintro (⟨t, b, hb, hmem⟩ | ⟨b, hb, hmem⟩)
  · exact himage t (h.image t b hb).2 b hb hmem
  · exact hheap b hb hmem

/-- The shell starts the process 2, which forks 3. -/
def forkRun : List ForkEvent :=
  [.kmalloc ⟨0x9000, 0x1000⟩, .threadSpawnUser true (some ⟨0x1000, 0x800⟩), .call .threadBlock,
    .call .schedule, .kmalloc ⟨0xA000, 0x1000⟩,
    .sysFork true (some ⟨0x2000, 0x800⟩) 0x1004 0x17F0]

/-- **A dangling `sepc`.**  The process 2 exits before its child 3 is dispatched, and 3 begins in
memory that has been freed. -/
theorem begun_of_exit : ∃ s, Reachable step ForksInside (boot 320) s ∧ s.api.k.current = 3 ∧
    s.begun = some ⟨0x1004, 0x27F0⟩ ∧ ¬ s.Allocated 0x1004 := by
  have hrun : (runList step (boot 320) (forkRun ++ [.call (.sysExit 0), .call .schedule])).map
      (fun s => (s.api.k.current, s.begun, decide (∀ t < s.api.k.count, ∀ b ∈ s.image t,
        (0x1004 : BitVec 64) ∉ b), decide (∀ b ∈ s.heap, (0x1004 : BitVec 64) ∉ b))) =
      some (3, some ⟨0x1004, 0x27F0⟩, true, true) := by decide +kernel
  obtain ⟨s, hs, hv⟩ := Option.map_eq_some_iff.mp hrun
  simp only [Prod.mk.injEq, decide_eq_true_eq] at hv
  have hreach : Reachable step ForksInside (boot 320) s :=
    Reachable.of_runList hs (by decide +kernel)
  exact ⟨s, hreach, hv.1, hv.2.1,
    (owns_of_reachable (reachable_of_runList hs)).not_allocated hv.2.2.1 hv.2.2.2⟩

/-- A step that frees no image at all. -/
def FreesNone (s : ForkState) (e : ForkEvent) : Prop := s.ForksInside e ∧ (s.frees e).isNone

instance (s : ForkState) (e : ForkEvent) : Decidable (s.FreesNone e) :=
  inferInstanceAs (Decidable (_ ∧ _))

/-- The process 2 is still there when its child 3 is dispatched. -/
theorem begun_of_schedule : ∃ s, Reachable step (fun s e => s.ForksInside e ∧ s.KeepsImages e)
    (boot 320) s ∧ s.begun = some ⟨0x1004, 0x27F0⟩ ∧ s.Allocated 0x1004 ∧ s.Allocated 0x27F0 := by
  have hrun : (runList step (boot 320) (forkRun ++ [.call .schedule, .call .schedule])).map
      (fun s => s.begun) = some (some ⟨0x1004, 0x27F0⟩) := by decide +kernel
  obtain ⟨s, hs, hv⟩ := Option.map_eq_some_iff.mp hrun
  have hreach : Reachable step FreesNone (boot 320) s :=
    Reachable.of_runList hs (by decide +kernel)
  have hkeeps : ∀ s e, FreesNone s e → s.ForksInside e ∧ s.KeepsImages e := fun s e h => by
    refine ⟨h.1, fun t ht => ?_⟩
    rw [Option.isNone_iff_eq_none.mp h.2] at ht
    cases ht
  have hreach' := hreach.mono hkeeps
  obtain ⟨hsepc, hsp⟩ := begun_of_reachable 320 hreach' _ hv
  exact ⟨s, hreach', hv, hsepc, hsp⟩

end ForkState
end Sched
end OscKernel
