import OscKernel.Lib.StableQueue
import OscKernel.Sched.Tick

/-!
# The timer queue (`timer.c`)

Calls of `add_timer_ticks` and `timer_top_half`, each of them whole, at clock readings that do not
go back.  A callback and its argument are one value of a type of which nothing is known; what a
call registers is told apart by the place of the call in the run (`Registration`).

* `TimerState.timers_of_run`: what is on the queue, what each `timer_top_half` hands to `add_task`
  and in which order, and what the hardware timer is programmed for.
* `Kernel.timers_addTimerTicks`, `Kernel.timers_timerTopHalf`: the functions of the machine are
  these.

## Stating it without the queue

That every timer is handed over once, and when, is said about the list of the calls: a registration
fires at the first `timer_top_half` behind it whose reading is not before its expiry (`Fires`).  The
queue at the end of a run, what each call hands over, and everything that was handed over are then
sorted lists with known members, and a sorted list is determined by its members.  Equal expiries
keep the order of registration, as the insertion puts a new timer behind those that expire with it.

## The conditions

Clock readings do not go back from one call to the next: without this a timer could expire for one
call and not for a later one.  No sum of a reading and a delay exceeds 64 bits; a sum that wraps
expires at once, and the order of the queue is not that of time any more.  Both are about the calls,
and the frequency and the first deadline are arbitrary.
-/

namespace OscKernel
namespace Sched

variable {α : Type*}

/-- `struct timer_node`, with `cb` and `arg` as one value. -/
structure TimerEntry (α : Type*) where
  expireTick : BitVec 64
  registerTick : BitVec 64
  cb : α

/-- The state of `timer.c`. -/
structure TimerState (α : Type*) where
  gTimerQueue : List (TimerEntry α)
  gTimebaseFreq : BitVec 64
  /-- What the hardware timer is programmed for. -/
  deadline : BitVec 64
  /-- What was passed to `add_task`, in this order. -/
  handed : List α

/-- `n` goes before `t`. -/
def TimerEntry.Before (n t : TimerEntry α) : Prop := n.expireTick < t.expireTick

instance : DecidableRel (TimerEntry.Before (α := α)) := fun n t =>
  inferInstanceAs (Decidable (n.expireTick < t.expireTick))

/-- A call, with the value of the clock that it reads. -/
inductive TimerCall (α : Type*) where
  | addTimerTicks (now ticks : BitVec 64) (cb : α)
  | timerTopHalf (now : BitVec 64)

namespace TimerCall

/-- The clock reading. -/
def now : TimerCall α → BitVec 64
  | .addTimerTicks now _ _ => now
  | .timerTopHalf now => now

/-- The sum of the clock reading and the delay is a number of 64 bits. -/
def NoWrap : TimerCall α → Prop
  | .addTimerTicks now ticks _ => now.toNat + ticks.toNat < 2 ^ 64
  | .timerTopHalf _ => True

end TimerCall

namespace TimerState

variable (s : TimerState α)

/-- `add_timer_ticks`, when there is memory for the node. -/
def addTimerTicks (now ticks : BitVec 64) (cb : α) : TimerState α :=
  let n : TimerEntry α := ⟨now + ticks, now, cb⟩
  { s with
    gTimerQueue := s.gTimerQueue.orderedInsert TimerEntry.Before n
    -- the hardware timer is programmed again when the new node is the first
    deadline := if ∀ t ∈ s.gTimerQueue.head?, n.Before t then n.expireTick else s.deadline }

/-- The loop of `timer_top_half`, when there is memory for the tasks. -/
def expire (now : BitVec 64) : List (TimerEntry α) → TimerState α → TimerState α
  | [], s => s
  | t :: rest, s =>
      if now < t.expireTick then s
      else expire now rest { s with gTimerQueue := rest, handed := s.handed ++ [t.cb] }

/-- The end of `timer_top_half`. -/
def timerRearm (now : BitVec 64) : TimerState α :=
  let next := now + s.gTimebaseFreq / schedTickDiv
  let next := match s.gTimerQueue with
    | [] => next
    | h :: _ => if h.expireTick < next then h.expireTick else next
  { s with deadline := next }

/-- `timer_top_half`. -/
def timerTopHalf (now : BitVec 64) : TimerState α := (expire now s.gTimerQueue s).timerRearm now

/-- One call. -/
def step (s : TimerState α) : TimerCall α → TimerState α
  | .addTimerTicks now ticks cb => s.addTimerTicks now ticks cb
  | .timerTopHalf now => s.timerTopHalf now

/-- The state after a list of calls. -/
def run (s : TimerState α) (as : List (TimerCall α)) : TimerState α := as.foldl step s

/-- No timer is registered. -/
def start (freq deadline : BitVec 64) : TimerState α := ⟨[], freq, deadline, []⟩

/-! ## Registrations -/

/-- What the call at the place `pos` of a run registers. -/
structure Registration (α : Type*) where
  pos : ℕ
  entry : TimerEntry α

/-- `r` expires before `r'`, or at the same time and was registered before. -/
def Registration.Before : Registration α → Registration α → Prop :=
  StableQueue.Before (fun r => r.entry.expireTick.toNat) Registration.pos

/-- `r` is what its call in `as` registers. -/
def Registered (as : List (TimerCall α)) (r : Registration α) : Prop :=
  ∃ now ticks cb, as[r.pos]? = some (.addTimerTicks now ticks cb) ∧ r.entry = ⟨now + ticks, now, cb⟩

/-- The call at the place `j` of `as` is the first `timer_top_half` after the registration of `r`
whose clock reading is not before the expiry. -/
def Fires (as : List (TimerCall α)) (r : Registration α) (j : ℕ) : Prop :=
  r.pos < j ∧ (∃ now, as[j]? = some (.timerTopHalf now) ∧ r.entry.expireTick ≤ now) ∧
    ∀ i now, r.pos < i → i < j → as[i]? = some (.timerTopHalf now) → now < r.entry.expireTick

/-- A `timer_top_half` after the registration of `r` has found it expired. -/
def Due (as : List (TimerCall α)) (r : Registration α) : Prop :=
  ∃ j now, r.pos < j ∧ as[j]? = some (.timerTopHalf now) ∧ r.entry.expireTick ≤ now

variable {s} {as : List (TimerCall α)} {r r' : Registration α} {now ticks : BitVec 64} {cb : α}

theorem Registered.pos_lt (h : Registered as r) : r.pos < as.length := by
  obtain ⟨_, _, _, hget, -⟩ := h
  exact (List.getElem?_eq_some_iff.mp hget).1

/-- A timer that is found expired is found expired for the first time. -/
theorem due_iff_fires : Due as r ↔ ∃ j, Fires as r j := by
  classical
  constructor
  · intro h
    obtain ⟨now, hlt, hget, hle⟩ := Nat.find_spec h
    refine ⟨Nat.find h, hlt, ⟨now, hget, hle⟩, fun i now' hi hij hget' => ?_⟩
    by_contra hle'
    exact Nat.find_min h hij ⟨now', hi, hget', BitVec.not_lt.mp hle'⟩
  · rintro ⟨j, hlt, ⟨now, hget, hle⟩, -⟩
    exact ⟨j, now, hlt, hget, hle⟩

/-! ## One more call -/

section Append

variable {a : TimerCall α}

theorem getElem?_append_one {i : ℕ} (x : TimerCall α) :
    (as ++ [a])[i]? = some x ↔ as[i]? = some x ∨ i = as.length ∧ x = a := by
  rcases Nat.lt_trichotomy i as.length with h | rfl | h
  · rw [List.getElem?_append_left h]
    exact ⟨Or.inl, fun h' => h'.resolve_right fun h' => absurd h'.1 (Nat.ne_of_lt h)⟩
  · simp [eq_comm]
  · have hnone : (as ++ [a])[i]? = none := by
      rw [List.getElem?_eq_none_iff, List.length_append]
      exact h
    rw [hnone, List.getElem?_eq_none (Nat.le_of_lt h)]
    simp [Nat.ne_of_gt h]

theorem registered_append : Registered (as ++ [a]) r ↔ Registered as r ∨
    r.pos = as.length ∧ ∃ now ticks cb, a = .addTimerTicks now ticks cb ∧
      r.entry = ⟨now + ticks, now, cb⟩ := by
  unfold Registered
  simp only [getElem?_append_one]
  constructor
  · rintro ⟨now, ticks, cb, h | ⟨hpos, rfl⟩, hentry⟩
    · exact Or.inl ⟨now, ticks, cb, h, hentry⟩
    · exact Or.inr ⟨hpos, now, ticks, cb, rfl, hentry⟩
  · rintro (⟨now, ticks, cb, h, hentry⟩ | ⟨hpos, now, ticks, cb, rfl, hentry⟩)
    · exact ⟨now, ticks, cb, Or.inl h, hentry⟩
    · exact ⟨now, ticks, cb, Or.inr ⟨hpos, rfl⟩, hentry⟩

theorem due_append : Due (as ++ [a]) r ↔ Due as r ∨
    r.pos < as.length ∧ ∃ now, a = .timerTopHalf now ∧ r.entry.expireTick ≤ now := by
  unfold Due
  simp only [getElem?_append_one]
  constructor
  · rintro ⟨j, now, hlt, h | ⟨rfl, rfl⟩, hle⟩
    · exact Or.inl ⟨j, now, hlt, h, hle⟩
    · exact Or.inr ⟨hlt, now, rfl, hle⟩
  · rintro (⟨j, now, hlt, h, hle⟩ | ⟨hlt, now, rfl, hle⟩)
    · exact ⟨j, now, hlt, Or.inl h, hle⟩
    · exact ⟨as.length, now, hlt, Or.inr ⟨rfl, rfl⟩, hle⟩

end Append

/-! ## The loop of `timer_top_half` -/

/-- `n` does not expire after `now`. -/
def expired (now : BitVec 64) (n : TimerEntry α) : Bool := decide (n.expireTick.toNat ≤ now.toNat)

theorem expire_eq (now : BitVec 64) (s : TimerState α) : expire now s.gTimerQueue s =
    { s with
      gTimerQueue := s.gTimerQueue.dropWhile (expired now)
      handed := s.handed ++ (s.gTimerQueue.takeWhile (expired now)).map TimerEntry.cb } := by
  obtain ⟨q, freq, deadline, handed⟩ := s
  induction q generalizing handed with
  | nil => simp [expire]
  | cons t rest ih =>
    rw [expire]
    split_ifs with hlt
    · have hfalse : expired now t = false := by
        simpa [expired] using BitVec.lt_def.mp hlt
      simp [hfalse]
    · have htrue : expired now t = true := by
        simpa [expired] using Nat.not_lt.mp fun h => hlt (BitVec.lt_def.mpr h)
      rw [ih]
      simp [htrue]

theorem timerTopHalf_queue :
    (s.timerTopHalf now).gTimerQueue = s.gTimerQueue.dropWhile (expired now) := by
  show (expire now s.gTimerQueue s).gTimerQueue = _
  rw [expire_eq]

theorem timerTopHalf_handed : (s.timerTopHalf now).handed =
    s.handed ++ (s.gTimerQueue.takeWhile (expired now)).map TimerEntry.cb := by
  show (expire now s.gTimerQueue s).handed = _
  rw [expire_eq]

/-- The hardware timer is programmed for the first timer or for earlier. -/
theorem timerRearm_deadline : ∀ t ∈ (s.timerRearm now).gTimerQueue.head?,
    (s.timerRearm now).deadline ≤ t.expireTick := by
  intro t ht
  change t ∈ s.gTimerQueue.head? at ht
  unfold timerRearm
  cases hq : s.gTimerQueue with
  | nil =>
    rw [hq] at ht
    cases ht
  | cons h rest =>
    rw [hq] at ht
    obtain rfl := Option.some.inj ht
    dsimp only
    split_ifs with hlt
    · exact BitVec.le_refl _
    · exact BitVec.not_lt.mp hlt

theorem addTimerTicks_deadline (h : ∀ t ∈ s.gTimerQueue.head?, s.deadline ≤ t.expireTick) :
    ∀ t ∈ (s.addTimerTicks now ticks cb).gTimerQueue.head?,
      (s.addTimerTicks now ticks cb).deadline ≤ t.expireTick := by
  intro t ht
  unfold addTimerTicks at ht ⊢
  dsimp only at ht ⊢
  cases hq : s.gTimerQueue with
  | nil =>
    rw [hq] at ht
    rw [if_pos nofun]
    obtain rfl := Option.some.inj ht
    exact BitVec.le_refl _
  | cons head rest =>
    rw [hq, List.orderedInsert_cons] at ht
    by_cases hbefore : TimerEntry.Before ⟨now + ticks, now, cb⟩ head
    · rw [if_pos hbefore] at ht
      rw [if_pos fun u hu => Option.some.inj hu ▸ hbefore]
      obtain rfl := Option.some.inj ht
      exact BitVec.le_refl _
    · rw [if_neg hbefore] at ht
      rw [if_neg fun hall => hbefore (hall head rfl)]
      obtain rfl := Option.some.inj ht
      exact h head (hq ▸ rfl)

/-! ## The invariant of a run -/

/-- What has been handed to `add_task`, what is on the queue, and what the hardware timer is
programmed for after the calls `as`. -/
structure Timely (as : List (TimerCall α)) (s : TimerState α)
    (fired waiting : List (Registration α)) : Prop where
  sorted : (fired ++ waiting).Pairwise Registration.Before
  mem_fired : ∀ r, r ∈ fired ↔ Registered as r ∧ Due as r
  mem_waiting : ∀ r, r ∈ waiting ↔ Registered as r ∧ ¬ Due as r
  handed : s.handed = fired.map fun r => r.entry.cb
  queue : s.gTimerQueue = waiting.map Registration.entry
  deadline : ∀ t ∈ s.gTimerQueue.head?, s.deadline ≤ t.expireTick

variable {fired waiting : List (Registration α)}

/-- **A registration.** -/
theorem Timely.addTimerTicks (h : Timely as s fired waiting)
    (hclock : ∀ a ∈ as, a.now ≤ now) (hwrap : now.toNat + ticks.toNat < 2 ^ 64) :
    Timely (as ++ [.addTimerTicks now ticks cb]) (s.addTimerTicks now ticks cb) fired
      (waiting.orderedInsert (fun a b => a.entry.expireTick.toNat < b.entry.expireTick.toNat)
        ⟨as.length, ⟨now + ticks, now, cb⟩⟩) := by
  obtain ⟨hfired, hwaiting, hcross⟩ := List.pairwise_append.mp h.sorted
  have hdue : ∀ r, Due (as ++ [.addTimerTicks now ticks cb]) r ↔ Due as r := fun r => by
    rw [due_append]
    refine or_iff_left ?_
    rintro ⟨-, now', h, -⟩
    cases h
  have hreg : ∀ r, Registered (as ++ [.addTimerTicks now ticks cb]) r ↔
      Registered as r ∨ r = ⟨as.length, ⟨now + ticks, now, cb⟩⟩ := fun r => by
    rw [registered_append]
    refine or_congr_right ⟨?_, ?_⟩
    · rintro ⟨hpos, now', ticks', cb', ha, hentry⟩
      cases ha
      obtain ⟨pos, entry⟩ := r
      exact Registration.mk.injEq .. ▸ ⟨hpos, hentry⟩
    · rintro rfl
      exact ⟨rfl, now, ticks, cb, rfl, rfl⟩
  have hnotDue : ¬ Due as (⟨as.length, ⟨now + ticks, now, cb⟩⟩ : Registration α) := by
    rintro ⟨j, now', hlt, hget, -⟩
    exact Nat.lt_asymm hlt (List.getElem?_eq_some_iff.mp hget).1
  refine ⟨?_, fun r => ?_, fun r => ?_, h.handed, ?_, addTimerTicks_deadline h.deadline⟩
  · refine List.pairwise_append.mpr ⟨hfired, StableQueue.pairwise_orderedInsert hwaiting
      (fun r hr => ((h.mem_waiting r).mp hr).1.pos_lt), fun r hr w hw => ?_⟩
    rcases (List.mem_orderedInsert _).mp hw with rfl | hw
    · -- what was found expired has expired before the new timer does
      obtain ⟨hregistered, j, now', -, hget, hle⟩ := (h.mem_fired r).mp hr
      have hnow : now' ≤ now := hclock _ (List.mem_of_getElem? hget)
      refine StableQueue.before_of_le ?_ hregistered.pos_lt
      show r.entry.expireTick.toNat ≤ (now + ticks).toNat
      rw [BitVec.toNat_add, Nat.mod_eq_of_lt hwrap]
      exact (BitVec.le_def.mp hle).trans ((BitVec.le_def.mp hnow).trans (Nat.le_add_right _ _))
    · exact hcross r hr w hw
  · rw [h.mem_fired, hreg, hdue]
    constructor
    · exact fun hr => ⟨Or.inl hr.1, hr.2⟩
    · rintro ⟨hr | rfl, hd⟩
      · exact ⟨hr, hd⟩
      · exact absurd hd hnotDue
  · rw [List.mem_orderedInsert, h.mem_waiting, hreg, hdue]
    constructor
    · rintro (rfl | hr)
      · exact ⟨Or.inr rfl, hnotDue⟩
      · exact ⟨Or.inl hr.1, hr.2⟩
    · rintro ⟨hr | rfl, hd⟩
      · exact Or.inr ⟨hr, hd⟩
      · exact Or.inl rfl
  · show s.gTimerQueue.orderedInsert TimerEntry.Before ⟨now + ticks, now, cb⟩ = _
    rw [h.queue]
    exact (List.map_orderedInsert
      (fun a b : Registration α => a.entry.expireTick.toNat < b.entry.expireTick.toNat)
      TimerEntry.Before Registration.entry waiting ⟨as.length, ⟨now + ticks, now, cb⟩⟩
      (fun _ _ => Iff.rfl) fun _ _ => Iff.rfl).symm

theorem takeWhile_entry : (waiting.map Registration.entry).takeWhile (expired now) =
    (waiting.takeWhile fun r => expired now r.entry).map Registration.entry :=
  List.takeWhile_map

theorem dropWhile_entry : (waiting.map Registration.entry).dropWhile (expired now) =
    (waiting.dropWhile fun r => expired now r.entry).map Registration.entry :=
  List.dropWhile_map

/-- The timers that an interrupt finds expired. -/
theorem mem_found (h : waiting.Pairwise Registration.Before) :
    r ∈ waiting.takeWhile (fun r => expired now r.entry) ↔
      r ∈ waiting ∧ r.entry.expireTick ≤ now :=
  StableQueue.mem_takeWhile_iff h

theorem mem_left (h : waiting.Pairwise Registration.Before) :
    r ∈ waiting.dropWhile (fun r => expired now r.entry) ↔
      r ∈ waiting ∧ now < r.entry.expireTick :=
  StableQueue.mem_dropWhile_iff h

/-- **An interrupt.** -/
theorem Timely.timerTopHalf (h : Timely as s fired waiting) :
    Timely (as ++ [.timerTopHalf now]) (s.timerTopHalf now)
      (fired ++ waiting.takeWhile fun r => expired now r.entry)
      (waiting.dropWhile fun r => expired now r.entry) := by
  have hwaiting := (List.pairwise_append.mp h.sorted).2.1
  have hdue : ∀ r, Registered as r → (Due (as ++ [.timerTopHalf now]) r ↔
      Due as r ∨ r.entry.expireTick ≤ now) := fun r hr => by
    rw [due_append]
    refine or_congr_right ⟨?_, fun hle => ⟨hr.pos_lt, now, rfl, hle⟩⟩
    rintro ⟨-, now', ha, hle⟩
    cases ha
    exact hle
  have hreg : ∀ r, Registered (as ++ [.timerTopHalf now]) r ↔ Registered as r := fun r => by
    rw [registered_append]
    refine or_iff_left ?_
    rintro ⟨-, now', ticks', cb', ha, -⟩
    cases ha
  refine ⟨?sorted, fun r => ?mem_fired, fun r => ?mem_waiting, ?handed, ?queue, timerRearm_deadline⟩
  case sorted =>
    rw [List.append_assoc, List.takeWhile_append_dropWhile]
    exact h.sorted
  case mem_fired =>
    rw [List.mem_append, h.mem_fired, mem_found hwaiting, h.mem_waiting, hreg]
    constructor
    · rintro (⟨hr, hd⟩ | ⟨⟨hr, -⟩, hle⟩)
      · exact ⟨hr, (hdue r hr).mpr (Or.inl hd)⟩
      · exact ⟨hr, (hdue r hr).mpr (Or.inr hle)⟩
    · rintro ⟨hr, hd⟩
      by_cases hold : Due as r
      · exact Or.inl ⟨hr, hold⟩
      · exact Or.inr ⟨⟨hr, hold⟩, ((hdue r hr).mp hd).resolve_left hold⟩
  case mem_waiting =>
    rw [mem_left hwaiting, h.mem_waiting, hreg]
    constructor
    · rintro ⟨⟨hr, hd⟩, hlt⟩
      refine ⟨hr, fun hdue' => ?_⟩
      rcases (hdue r hr).mp hdue' with hd' | hle
      · exact hd hd'
      · exact BitVec.not_le.mpr hlt hle
    · rintro ⟨hr, hd⟩
      refine ⟨⟨hr, fun hd' => hd ((hdue r hr).mpr (Or.inl hd'))⟩, ?_⟩
      exact BitVec.not_le.mp fun hle => hd ((hdue r hr).mpr (Or.inr hle))
  case handed =>
    rw [timerTopHalf_handed, h.handed, h.queue, takeWhile_entry, List.map_append, List.map_map]
    rfl
  case queue => rw [timerTopHalf_queue, h.queue, dropWhile_entry]

/-- What has been handed over and what is waiting after a run. -/
theorem timely_run (hclock : as.Pairwise fun a b => a.now ≤ b.now) (hwrap : ∀ a ∈ as, a.NoWrap)
    (freq deadline : BitVec 64) :
    ∃ fired waiting, Timely as ((start freq deadline).run as) fired waiting := by
  induction as using List.reverseRecOn with
  | nil =>
    refine ⟨[], [], List.Pairwise.nil, fun r => ?_, fun r => ?_, rfl, rfl, nofun⟩
    · exact iff_of_false nofun fun h => absurd h.1.pos_lt (Nat.not_lt_zero _)
    · exact iff_of_false nofun fun h => absurd h.1.pos_lt (Nat.not_lt_zero _)
  | append_singleton as a ih =>
    obtain ⟨hold, -, hnow⟩ := List.pairwise_append.mp hclock
    obtain ⟨fired, waiting, h⟩ := ih hold fun b hb => hwrap b (List.mem_append_left _ hb)
    have hrun : (start freq deadline).run (as ++ [a]) =
        ((start freq deadline).run as).step a := List.foldl_append ..
    rw [hrun]
    cases a with
    | addTimerTicks now ticks cb =>
      exact ⟨_, _, h.addTimerTicks (fun b hb => hnow b hb _ (List.mem_singleton_self _))
        (hwrap _ (List.mem_append_right _ (List.mem_singleton_self _)))⟩
    | timerTopHalf now => exact ⟨_, _, h.timerTopHalf⟩

/-! ## The first calls of a run -/

theorem registered_take {j : ℕ} : Registered (as.take j) r ↔ Registered as r ∧ r.pos < j := by
  unfold Registered
  rw [List.getElem?_take]
  split_ifs with hlt
  · exact ⟨fun h => ⟨h, hlt⟩, And.left⟩
  · refine iff_of_false ?_ fun h => hlt h.2
    rintro ⟨_, _, _, h, -⟩
    cases h

/-- The timers that the call at the place `j` finds expired. -/
theorem fires_iff {j : ℕ} (hget : as[j]? = some (.timerTopHalf now)) : Fires as r j ↔
    r.pos < j ∧ ¬ Due (as.take j) r ∧ r.entry.expireTick ≤ now := by
  have hdue : Due (as.take j) r ↔ ∃ i now, r.pos < i ∧ i < j ∧
      as[i]? = some (.timerTopHalf now) ∧ r.entry.expireTick ≤ now := by
    unfold Due
    constructor
    · rintro ⟨i, now, hlt, hi, hle⟩
      rw [List.getElem?_take] at hi
      split_ifs at hi with hij
      exact ⟨i, now, hlt, hij, hi, hle⟩
    · rintro ⟨i, now, hlt, hij, hi, hle⟩
      exact ⟨i, now, hlt, (List.getElem?_take_of_lt hij).trans hi, hle⟩
  rw [hdue]
  constructor
  · rintro ⟨hlt, ⟨now', hget', hle⟩, hfirst⟩
    rw [hget] at hget'
    cases hget'
    refine ⟨hlt, ?_, hle⟩
    rintro ⟨i, now', hi, hij, hgeti, hle'⟩
    exact BitVec.not_le.mpr (hfirst i now' hi hij hgeti) hle'
  · rintro ⟨hlt, hnot, hle⟩
    refine ⟨hlt, ⟨now, hget, hle⟩, fun i now' hi hij hgeti => ?_⟩
    by_contra hle'
    exact hnot ⟨i, now', hi, hij, hgeti, BitVec.not_lt.mp hle'⟩

/-- **The timers of a run.**  The queue holds what has not expired at a clock reading of
`timer_top_half`, in order; each `timer_top_half` hands over, in order, the timers that it is the
first to find expired; all that is handed over is in order; and the hardware timer is programmed
for the first timer on the queue or for earlier. -/
theorem timers_of_run (hclock : as.Pairwise fun a b => a.now ≤ b.now) (hwrap : ∀ a ∈ as, a.NoWrap)
    (freq deadline : BitVec 64) :
    (∃ waiting : List (Registration α), waiting.Pairwise Registration.Before ∧
      (∀ r, r ∈ waiting ↔ Registered as r ∧ ¬ ∃ j, Fires as r j) ∧
      ((start freq deadline).run as).gTimerQueue = waiting.map Registration.entry) ∧
    (∀ j now, as[j]? = some (.timerTopHalf now) → ∃ found : List (Registration α),
      found.Pairwise Registration.Before ∧
      (∀ r, r ∈ found ↔ Registered as r ∧ Fires as r j) ∧
      ((start freq deadline).run (as.take (j + 1))).handed =
        ((start freq deadline).run (as.take j)).handed ++ found.map fun r => r.entry.cb) ∧
    (∃ fired : List (Registration α), fired.Pairwise Registration.Before ∧
      (∀ r, r ∈ fired ↔ Registered as r ∧ ∃ j, Fires as r j) ∧
      ((start freq deadline).run as).handed = fired.map fun r => r.entry.cb) ∧
    ∀ t ∈ ((start freq deadline).run as).gTimerQueue.head?,
      ((start freq deadline).run as).deadline ≤ t.expireTick := by
  obtain ⟨fired, waiting, h⟩ := timely_run hclock hwrap freq deadline
  obtain ⟨hfired, hwaiting, -⟩ := List.pairwise_append.mp h.sorted
  refine ⟨⟨waiting, hwaiting, fun r => ?_, h.queue⟩, fun j now hget => ?_,
    ⟨fired, hfired, fun r => ?_, h.handed⟩, h.deadline⟩
  · rw [h.mem_waiting, due_iff_fires]
  · -- the state before the interrupt
    obtain ⟨fired', waiting', h'⟩ := @timely_run _ (as.take j)
      (hclock.sublist (List.take_sublist ..)) (fun a ha => hwrap a (List.mem_of_mem_take ha)) freq
      deadline
    have hsorted := (List.pairwise_append.mp h'.sorted).2.1
    refine ⟨waiting'.takeWhile fun r => expired now r.entry,
      hsorted.sublist (List.takeWhile_sublist _), fun r => ?_, ?_⟩
    · rw [mem_found hsorted, h'.mem_waiting, registered_take, fires_iff hget]
      constructor
      · rintro ⟨⟨⟨hr, hlt⟩, hd⟩, hle⟩
        exact ⟨hr, hlt, hd, hle⟩
      · rintro ⟨hr, hlt, hd, hle⟩
        exact ⟨⟨⟨hr, hlt⟩, hd⟩, hle⟩
    · have hstep : (start freq deadline).run (as.take (j + 1)) =
          ((start freq deadline).run (as.take j)).timerTopHalf now := by
        rw [List.take_add_one, hget]
        exact List.foldl_append ..
      rw [hstep, timerTopHalf_handed, h'.queue, takeWhile_entry, List.map_map]
      rfl
  · rw [h.mem_fired, due_iff_fires]

/-- Three timers, of which two expire at the same time, and the interrupt that finds these. -/
def threeTimers : List (TimerCall ℕ) :=
  [.addTimerTicks 0 9 1, .addTimerTicks 1 4 2, .addTimerTicks 2 3 3, .timerTopHalf 6]

example : ((start 320 0).run threeTimers).handed = [2, 3] := by decide

theorem timers_of_threeTimers : ∃ found : List (Registration ℕ),
    found.Pairwise Registration.Before ∧
    (∀ r, r ∈ found ↔ Registered threeTimers r ∧ Fires threeTimers r 3) ∧
    ((start 320 0).run (threeTimers.take 4)).handed =
      ((start 320 0).run (threeTimers.take 3)).handed ++ found.map fun r => r.entry.cb :=
  (timers_of_run (by decide) (by simp [threeTimers, TimerCall.NoWrap]) 320 0).2.1 3 6 rfl

end TimerState

/-! ## The timer queue of the machine -/

/-- The node without its links. -/
def TimerNode.entry (n : TimerNode) : TimerEntry Callback := ⟨n.expireTick, n.registerTick, n.cb⟩

namespace Kernel

variable (k : Kernel)

/-- The timers of the machine; `handed` is what was passed to `add_task` so far. -/
def timers (handed : List Callback) : TimerState Callback :=
  ⟨k.gTimerQueue.map TimerNode.entry, k.gTimebaseFreq, k.deadline, handed⟩

variable {k} {handed : List Callback}

theorem timers_addTimerTicks (cb : Callback) (ticks : BitVec 64) :
    (k.addTimerTicks cb ticks true).timers handed =
      (k.timers handed).addTimerTicks k.clock ticks cb := by
  have hqueue : (k.gTimerQueue.orderedInsert TimerNode.Before ⟨k.clock + ticks, k.clock, cb⟩).map
      TimerNode.entry = (k.gTimerQueue.map TimerNode.entry).orderedInsert TimerEntry.Before
        ⟨k.clock + ticks, k.clock, cb⟩ :=
    List.map_orderedInsert _ _ _ _ _ (fun _ _ => Iff.rfl) fun _ _ => Iff.rfl
  have hhead : (∀ t ∈ k.gTimerQueue.head?, TimerNode.Before ⟨k.clock + ticks, k.clock, cb⟩ t) ↔
      ∀ t ∈ (k.gTimerQueue.map TimerNode.entry).head?,
        TimerEntry.Before ⟨k.clock + ticks, k.clock, cb⟩ t := by
    cases k.gTimerQueue with
    | nil => exact iff_of_true nofun nofun
    | cons h rest =>
      constructor
      · exact fun hall t ht => Option.some.inj ht ▸ hall h rfl
      · exact fun hall t ht => Option.some.inj ht ▸ hall h.entry rfl
  unfold timers TimerState.addTimerTicks addTimerTicks
  dsimp only
  rw [if_pos rfl, hqueue]
  congr 1
  exact if_congr hhead rfl rfl

/-- The loop hands over the callbacks that it puts on the task queue. -/
theorem timers_expire (now : BitVec 64) (q : List TimerNode) (k : Kernel)
    (handed : List Callback) (hq : k.gTimerQueue = q) : ∃ cbs,
    TimerState.expire now (q.map TimerNode.entry) (k.timers handed) =
      (expire now (fun _ => true) q k).timers (handed ++ cbs) ∧
    (expire now (fun _ => true) q k).gTaskQueue = cbs.foldl (fun q cb =>
      q.orderedInsert TaskNode.Before ⟨cb, timerTaskPrio⟩) k.gTaskQueue := by
  induction q generalizing k handed with
  | nil => exact ⟨[], by simp [TimerState.expire, expire], rfl⟩
  | cons t rest ih =>
    rw [expire, List.map_cons, TimerState.expire]
    by_cases hlt : now < t.expireTick
    · have hlt' : now < t.entry.expireTick := hlt
      rw [if_pos hlt, if_pos hlt']
      exact ⟨[], by simp, rfl⟩
    · have hlt' : ¬ now < t.entry.expireTick := hlt
      rw [if_neg hlt, if_neg hlt']
      obtain ⟨cbs, hexpire, htasks⟩ := ih
        (({ k with gTimerQueue := rest } : Kernel).addTask t.cb timerTaskPrio)
        (handed ++ [t.cb]) rfl
      refine ⟨t.cb :: cbs, ?_, htasks⟩
      rw [← List.append_cons] at hexpire
      exact hexpire

/-- `timer_top_half` when there is memory for the tasks. -/
theorem timers_timerTopHalf : ∃ cbs,
    (k.timers handed).timerTopHalf k.clock =
      (k.timerTopHalf fun _ => true).timers (handed ++ cbs) ∧
    (k.timerTopHalf fun _ => true).gTaskQueue = cbs.foldl (fun q cb =>
      q.orderedInsert TaskNode.Before ⟨cb, timerTaskPrio⟩) k.gTaskQueue := by
  obtain ⟨cbs, hexpire, htasks⟩ := timers_expire k.clock k.gTimerQueue k handed rfl
  refine ⟨cbs, ?_, htasks⟩
  have htop : (k.timers handed).timerTopHalf k.clock =
      ((expire k.clock (fun _ => true) k.gTimerQueue k).timers
        (handed ++ cbs)).timerRearm k.clock :=
    congrArg (TimerState.timerRearm · k.clock) hexpire
  rw [htop]
  unfold timers TimerState.timerRearm timerTopHalf timerRearm
  dsimp only
  congr 1
  cases (expire k.clock (fun _ => true) k.gTimerQueue k).gTimerQueue <;> rfl

end Kernel
end Sched
end OscKernel
