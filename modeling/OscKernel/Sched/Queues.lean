import OscKernel.Sched.Api

/-!
# The run queue, the zombies and the lists of children

The joint invariant of the states of the threads, of `g_runq`, of `g_zombies` and of the lists of
children, and that every call of the scheduler keeps it.

* `Kernel.Queues`: the invariant, whoever is the current thread.
* `Kernel.Sound`: the invariant between a change of state of the current thread and `schedule`.
* `Kernel.Sound.reschedule`: what `schedule` makes of it.

## Three forms of one invariant

Most calls are made of two halves: the current thread changes its state, or that of others, and then
`schedule` gives the processor away.  In between nobody may be `RUNNING`.  `Queues` is what does not
depend on who runs; `Sound` adds that a thread that is `RUNNING` is the current one, and that the
current one is not `READY`, so that `schedule` will not enqueue it twice; `Running` is `Sound` with
the current thread `RUNNING`, and holds between calls.  A call that does not go on with `schedule`
takes `Running` to `Running`, the others go through `Sound`.

## Threads that are not enqueued yet

`thread_alloc_bare` makes a thread that is `READY` and on no list; the callers fill it in and
enqueue it, or discard it.  These threads are counted apart (`bare`).  They are why the run queue is
not simply the threads that are `READY`.

## Why `schedule` finds a thread

The idle thread is never terminated, and so it is on the run queue or is the current thread.  When
it is the current one it is `RUNNING` in every call, and `schedule` enqueues it itself before it
takes the head.
-/

namespace OscKernel
namespace Sched

open Transition

namespace Kernel

/-- The queues and the lists agree with the states of the threads.  The threads `bare` are on no
list yet. -/
structure Queues (k : Kernel) (bare : List Tid) : Prop where
  freed_lt : ∀ t ∈ k.freed, t < k.count
  parent_lt : ∀ t, k.Live t → ∀ p ∈ k.parent t, p < k.count
  bootstrap : k.Live gBootstrap
  image_bootstrap : (k.thread gBootstrap).image = false
  bootstrap_not_bare : gBootstrap ∉ bare
  idle_live : k.Live idle
  idle_state : k.state idle = .ready ∨ k.state idle = .running
  idle_not_bare : idle ∉ bare
  image_idle : (k.thread idle).image = false
  bare_nodup : bare.Nodup
  bare_live : ∀ t ∈ bare, k.Live t ∧ k.state t = .ready ∧ (k.thread t).image = false
  runq_nodup : k.gRunq.Nodup
  mem_runq : ∀ t, t ∈ k.gRunq ↔ k.Live t ∧ k.state t = .ready ∧ t ∉ bare
  zombies_nodup : k.gZombies.Nodup
  zombie : ∀ t ∈ k.gZombies, k.Live t ∧ k.state t = .zombie
  children_nodup : ∀ p, k.Live p → (k.children p).Nodup
  child : ∀ p, k.Live p → ∀ c ∈ k.children p,
    k.Live c ∧ c ∉ k.gZombies ∧ c ∉ bare ∧ k.parent c = some p

/-- The invariant when the current thread may have given up the state `RUNNING`. -/
structure Sound (k : Kernel) (bare : List Tid) : Prop extends Queues k bare where
  current_live : k.Live k.current
  running : ∀ t, k.Live t → k.state t = .running → t = k.current
  not_ready : k.state k.current ≠ .ready

variable {k k' k'' : Kernel} {bare : List Tid} {t u c p : Tid}

/-! ## Changes of state -/

/-- The same threads with the same links. -/
structure SameLinks (k k' : Kernel) : Prop where
  count : k'.count = k.count
  freed : k'.freed = k.freed
  zombies : k'.gZombies = k.gZombies
  children : ∀ u, k'.children u = k.children u
  parent : ∀ u, k'.parent u = k.parent u
  image : ∀ u, (k'.thread u).image = true → (k.thread u).image = true

theorem SameLinks.refl (k : Kernel) : SameLinks k k :=
  ⟨rfl, rfl, rfl, fun _ => rfl, fun _ => rfl, fun _ => id⟩

/-- The links do not depend on the run queue, the current thread and the stacks. -/
theorem SameLinks.congr (h : SameLinks k k') (hcount : k''.count = k'.count)
    (hfreed : k''.freed = k'.freed) (hzombies : k''.gZombies = k'.gZombies)
    (hthread : k''.thread = k'.thread) : SameLinks k k'' where
  count := hcount.trans h.count
  freed := hfreed.trans h.freed
  zombies := hzombies.trans h.zombies
  children u := by unfold Kernel.children; rw [hthread]; exact h.children u
  parent u := by unfold Kernel.parent; rw [hthread]; exact h.parent u
  image u := by rw [hthread]; exact h.image u

theorem SameLinks.live (h : SameLinks k k') : k'.Live u ↔ k.Live u := by
  unfold Live
  rw [h.count, h.freed]

theorem SameLinks.image_false (h : SameLinks k k') (hu : (k.thread u).image = false) :
    (k'.thread u).image = false := by
  by_contra hne
  rw [h.image u (Bool.eq_true_of_not_eq_false hne)] at hu
  cases hu

/-- **Changing the state of one thread**, and its place on the run queue with it. -/
theorem Queues.restate (h : k.Queues bare) (hlinks : SameLinks k k') (hlive : k.Live t)
    (hbare : t ∉ bare) (hstate : ∀ u, u ≠ t → k'.state u = k.state u)
    (hnodup : k'.gRunq.Nodup)
    (hmem : ∀ u, u ∈ k'.gRunq ↔ u ≠ t ∧ u ∈ k.gRunq ∨ u = t ∧ k'.state t = .ready)
    (hzombie : t ∈ k.gZombies → k'.state t = .zombie)
    (hidle : t = idle → k'.state t = .ready ∨ k'.state t = .running) : k'.Queues bare where
  freed_lt := by rw [hlinks.freed, hlinks.count]; exact h.freed_lt
  parent_lt u hu p hp := by
    rw [hlinks.count]
    exact h.parent_lt u (hlinks.live.mp hu) p (hlinks.parent u ▸ hp)
  bootstrap := hlinks.live.mpr h.bootstrap
  image_bootstrap := hlinks.image_false h.image_bootstrap
  bootstrap_not_bare := h.bootstrap_not_bare
  idle_live := hlinks.live.mpr h.idle_live
  idle_state := by
    by_cases hi : idle = t
    · exact hi ▸ hidle hi.symm
    · rw [hstate idle hi]
      exact h.idle_state
  idle_not_bare := h.idle_not_bare
  image_idle := hlinks.image_false h.image_idle
  bare_nodup := h.bare_nodup
  bare_live u hu := by
    obtain ⟨hl, hs, hi⟩ := h.bare_live u hu
    refine ⟨hlinks.live.mpr hl, ?_, hlinks.image_false hi⟩
    rw [hstate u fun hut => hbare (hut ▸ hu)]
    exact hs
  runq_nodup := hnodup
  mem_runq u := by
    rw [hmem u, hlinks.live]
    constructor
    · rintro (⟨hut, hu⟩ | ⟨rfl, hready⟩)
      · rw [hstate u hut]
        exact (h.mem_runq u).mp hu
      · exact ⟨hlive, hready, hbare⟩
    · rintro ⟨hl, hready, hb⟩
      by_cases hut : u = t
      · exact Or.inr ⟨hut, hut ▸ hready⟩
      · rw [hstate u hut] at hready
        exact Or.inl ⟨hut, (h.mem_runq u).mpr ⟨hl, hready, hb⟩⟩
  zombies_nodup := by rw [hlinks.zombies]; exact h.zombies_nodup
  zombie u hu := by
    rw [hlinks.zombies] at hu
    refine ⟨hlinks.live.mpr (h.zombie u hu).1, ?_⟩
    by_cases hut : u = t
    · exact hut ▸ hzombie (hut ▸ hu)
    · rw [hstate u hut]
      exact (h.zombie u hu).2
  children_nodup p hp := by
    rw [hlinks.children]
    exact h.children_nodup p (hlinks.live.mp hp)
  child p hp c hc := by
    rw [hlinks.children] at hc
    obtain ⟨hl, hz, hb, hpar⟩ := h.child p (hlinks.live.mp hp) c hc
    exact ⟨hlinks.live.mpr hl, hlinks.zombies ▸ hz, hb, (hlinks.parent c).trans hpar⟩

theorem sameLinks_modify {f : Thread → Thread}
    (hf : ∀ x, (f x).children = x.children ∧ (f x).parent = x.parent ∧
      ((f x).image = true → x.image = true)) : SameLinks k (k.modify t f) where
  count := rfl
  freed := rfl
  zombies := rfl
  children _ := children_modify fun x => (hf x).1
  parent _ := parent_modify fun x => (hf x).2.1
  image u := by
    rw [thread_modify]
    split_ifs with hut
    · rw [hut]
      exact (hf _).2.2
    · exact id

theorem sameLinks_setState (s : ThreadState) : SameLinks k (k.setState t s) :=
  sameLinks_modify fun _ => ⟨rfl, rfl, id⟩

/-- The current thread gives up the processor. -/
theorem Sound.leave (h : k.Sound bare) (hlinks : SameLinks k k') (hcurrent : k'.current = k.current)
    (hrunq : k'.gRunq = k.gRunq) (hstate : ∀ u, u ≠ k.current → k'.state u = k.state u)
    (hready : k'.state k.current ≠ .ready)
    (hzombie : k.current ∈ k.gZombies → k'.state k.current = .zombie)
    (hidle : k.current ≠ idle) : k'.Sound bare := by
  have hnot : k.current ∉ k.gRunq := fun hm => h.not_ready ((h.mem_runq _).mp hm).2.1
  have hbare : k.current ∉ bare := fun hm => h.not_ready (h.bare_live _ hm).2.1
  refine ⟨h.toQueues.restate hlinks h.current_live hbare hstate ?_ ?_ hzombie
    fun hi => absurd hi hidle, ?_, ?_, ?_⟩
  · rw [hrunq]
    exact h.runq_nodup
  · intro u
    rw [hrunq]
    constructor
    · exact fun hu => Or.inl ⟨fun heq => hnot (heq ▸ hu), hu⟩
    · rintro (⟨-, hu⟩ | ⟨-, hu⟩)
      · exact hu
      · exact absurd hu hready
  · rw [hcurrent]
    exact hlinks.live.mpr h.current_live
  · intro u hu hrun
    rw [hcurrent]
    by_contra hne
    rw [hstate u hne] at hrun
    exact hne (h.running u (hlinks.live.mp hu) hrun)
  · rw [hcurrent]
    exact hready

/-- The invariant between calls. -/
structure Running (k : Kernel) (bare : List Tid) : Prop extends Sound k bare where
  current_running : k.state k.current = .running

/-! ## `schedule` -/

/-- The first thread of the run queue gets the processor. -/
theorem Queues.dispatch (h : k.Queues bare) (hnone : ∀ u, k.Live u → k.state u ≠ .running)
    {next : Tid} {rest : List Tid} (hq : k.gRunq = next :: rest) :
    Running { k.setState next .running with gRunq := rest, current := next } bare := by
  have hmem : next ∈ k.gRunq := hq ▸ List.mem_cons_self
  obtain ⟨hlive, hready, hbare⟩ := (h.mem_runq next).mp hmem
  have hnodup := hq ▸ h.runq_nodup
  have hlinks : SameLinks k { k.setState next .running with gRunq := rest, current := next } :=
    (sameLinks_setState (t := next) .running).congr rfl rfl rfl rfl
  have hself : (k.setState next .running).state next = .running := by
    rw [state_setState, if_pos rfl]
  have hstate : ∀ u, u ≠ next → (k.setState next .running).state u = k.state u := fun u hu => by
    rw [state_setState, if_neg hu]
  refine ⟨⟨h.restate hlinks hlive hbare hstate (List.nodup_cons.mp hnodup).2 (fun u => ?_)
    (fun hz => ?_) (fun _ => Or.inr hself), hlinks.live.mpr hlive, fun u hu hrun => ?_, ?_⟩, hself⟩
  · rw [hq]
    constructor
    · intro hu
      refine Or.inl ⟨?_, List.mem_cons_of_mem _ hu⟩
      rintro rfl
      exact (List.nodup_cons.mp hnodup).1 hu
    · rintro (⟨hne, hu⟩ | ⟨rfl, hu⟩)
      · exact (List.mem_cons.mp hu).resolve_left hne
      · exact absurd (hself.symm.trans hu) (by decide)
  · rw [(h.zombie next hz).2] at hready
    cases hready
  · by_contra hne
    exact hnone u (hlinks.live.mp hu) ((hstate u hne).symm.trans hrun)
  · intro hr
    exact absurd (hself.symm.trans hr) (by decide)

/-- `schedule` takes the head of the queue. -/
theorem reschedule_eq {k₁ : Kernel} {next : Tid} {rest : List Tid}
    (h₁ : (if k.state k.current = .running then (k.setState k.current .ready).enqueue k.current
      else k) = k₁) (hq : k₁.gRunq = next :: rest) :
    k.reschedule = { k₁.setState next .running with gRunq := rest, current := next } := by
  unfold reschedule schedule
  dsimp only
  rw [h₁, hq]

/-- The queue that `schedule` looks at is not empty, and nobody is `RUNNING` then. -/
theorem Sound.park (h : k.Sound bare) :
    Queues (if k.state k.current = .running then (k.setState k.current .ready).enqueue k.current
      else k) bare ∧
      (∀ u, k.Live u → (if k.state k.current = .running then
        (k.setState k.current .ready).enqueue k.current else k).state u ≠ .running) ∧
      ∃ next rest, (if k.state k.current = .running then
        (k.setState k.current .ready).enqueue k.current else k).gRunq = next :: rest := by
  have hbare : k.current ∉ bare := fun hm => h.not_ready (h.bare_live _ hm).2.1
  have hnot : k.current ∉ k.gRunq := fun hm => h.not_ready ((h.mem_runq _).mp hm).2.1
  split_ifs with hrun
  · have hself : (k.setState k.current .ready).state k.current = .ready := by
      rw [state_setState, if_pos rfl]
    have hstate : ∀ u, u ≠ k.current → (k.setState k.current .ready).state u = k.state u :=
      fun u hu => by rw [state_setState, if_neg hu]
    refine ⟨h.toQueues.restate
      ((sameLinks_setState (t := k.current) .ready).congr rfl rfl rfl rfl)
      h.current_live hbare hstate ?_ ?_ ?_
      (fun _ => Or.inl hself), fun u hu hr => ?_, ?_⟩
    · exact List.nodup_append.mpr ⟨h.runq_nodup, by simp, by
        rintro u hu v hv rfl
        exact hnot (List.mem_singleton.mp hv ▸ hu)⟩
    · intro u
      show u ∈ k.gRunq ++ [k.current] ↔ _
      rw [List.mem_append, List.mem_singleton]
      constructor
      · rintro (hu | rfl)
        · exact Or.inl ⟨fun heq => hnot (heq ▸ hu), hu⟩
        · exact Or.inr ⟨rfl, hself⟩
      · rintro (⟨-, hu⟩ | ⟨rfl, -⟩)
        · exact Or.inl hu
        · exact Or.inr rfl
    · intro hz
      exact absurd (hrun.symm.trans (h.zombie _ hz).2) (by decide)
    · change (k.setState k.current .ready).state u = .running at hr
      rw [state_setState] at hr
      split_ifs at hr with hu'
      exact hu' (h.running u hu hr)
    · show ∃ next rest, k.gRunq ++ [k.current] = next :: rest
      cases k.gRunq with
      | nil => exact ⟨_, _, rfl⟩
      | cons a l => exact ⟨a, l ++ [k.current], rfl⟩
  · refine ⟨h.toQueues, fun u hu hr => hrun (h.running u hu hr ▸ hr), ?_⟩
    -- the idle thread is `READY`, since it is not the current one
    have hidle : k.state idle = .ready := by
      refine h.idle_state.resolve_right fun hi => hrun ?_
      rw [← h.running idle h.idle_live hi]
      exact hi
    have hmem : idle ∈ k.gRunq :=
      (h.mem_runq idle).mpr ⟨h.idle_live, hidle, h.idle_not_bare⟩
    cases hq : k.gRunq with
    | nil => simp [hq] at hmem
    | cons a l => exact ⟨a, l, rfl⟩

/-- **`schedule`.** -/
theorem Sound.reschedule (h : k.Sound bare) : k.reschedule.Running bare := by
  obtain ⟨hqueues, hnone, next, rest, hq⟩ := h.park
  rw [reschedule_eq rfl hq]
  refine hqueues.dispatch (fun u hu => hnone u ?_) hq
  split_ifs at hu
  · exact hu
  · exact hu

/-- `schedule` finds a thread. -/
theorem Sound.schedule_ne_none (h : k.Sound bare) : k.schedule.2 ≠ none := by
  obtain ⟨-, -, next, rest, hq⟩ := h.park
  unfold schedule
  dsimp only
  rw [hq]
  exact Option.some_ne_none _

/-! ## Blocking, waking and terminating -/

theorem Running.threadBlock (h : k.Running bare) (hidle : k.current ≠ idle) :
    k.threadBlock.Sound bare := by
  have hself : k.threadBlock.state k.current = .blocked := by
    unfold Kernel.threadBlock
    rw [state_setState, if_pos rfl]
  refine h.leave (sameLinks_setState .blocked) rfl rfl (fun u hu => ?_) ?_ ?_ hidle
  · unfold Kernel.threadBlock
    rw [state_setState, if_neg hu]
  · rw [hself]
    decide
  · intro hz
    exact absurd (h.current_running.symm.trans (h.zombie _ hz).2) (by decide)

theorem sameLinks_threadWakeup : SameLinks k (k.threadWakeup t) := by
  unfold threadWakeup
  split_ifs
  · exact (sameLinks_setState (t := t) .ready).congr rfl rfl rfl rfl
  · exact .refl k

theorem current_threadWakeup : (k.threadWakeup t).current = k.current := by
  unfold threadWakeup
  split_ifs <;> rfl

/-- `thread_wakeup` changes the state of a `BLOCKED` thread only. -/
theorem state_threadWakeup_of_ne (hu : k.state u ≠ .blocked) :
    (k.threadWakeup t).state u = k.state u := by
  unfold threadWakeup
  split_ifs with ht
  · have hut : u ≠ t := by
      rintro rfl
      exact hu ht
    show (k.setState t .ready).state u = _
    rw [state_setState, if_neg hut]
  · rfl

theorem Sound.threadWakeup (h : k.Sound bare) (hcurrent : k.state k.current ≠ .blocked)
    (hlive : k.Live t) : (k.threadWakeup t).Sound bare := by
  by_cases hblocked : k.state t = .blocked
  · have hbare : t ∉ bare := fun hm =>
      absurd (hblocked.symm.trans (h.bare_live t hm).2.1) (by decide)
    have hnot : t ∉ k.gRunq := fun hm =>
      absurd (hblocked.symm.trans ((h.mem_runq t).mp hm).2.1) (by decide)
    have heq : k.threadWakeup t = (k.setState t .ready).enqueue t := by
      rw [Kernel.threadWakeup, if_pos hblocked]
    have hlinks := sameLinks_threadWakeup (k := k) (t := t)
    have hstate : ∀ u, (k.threadWakeup t).state u = if u = t then .ready else k.state u :=
      fun u => by
        rw [heq]
        exact state_setState
    have hne : k.current ≠ t := fun hct => hcurrent (hct ▸ hblocked)
    refine ⟨h.toQueues.restate hlinks hlive hbare (fun u hu => by rw [hstate, if_neg hu]) ?_ ?_ ?_
      fun _ => Or.inl (by rw [hstate, if_pos rfl]), ?_, ?_, ?_⟩
    · rw [heq]
      exact List.nodup_append.mpr ⟨h.runq_nodup, by simp, by
        rintro u hu v hv rfl
        exact hnot (List.mem_singleton.mp hv ▸ hu)⟩
    · intro u
      rw [hstate, if_pos rfl, heq]
      show u ∈ k.gRunq ++ [t] ↔ _
      rw [List.mem_append, List.mem_singleton]
      constructor
      · rintro (hu | rfl)
        · exact Or.inl ⟨fun hut => hnot (hut ▸ hu), hu⟩
        · exact Or.inr ⟨rfl, rfl⟩
      · rintro (⟨-, hu⟩ | ⟨rfl, -⟩)
        · exact Or.inl hu
        · exact Or.inr rfl
    · intro hz
      exact absurd (hblocked.symm.trans (h.zombie t hz).2) (by decide)
    · rw [current_threadWakeup]
      exact hlinks.live.mpr h.current_live
    · intro u hu hr
      rw [hstate] at hr
      split_ifs at hr
      rw [current_threadWakeup]
      exact h.running u (hlinks.live.mp hu) hr
    · rw [current_threadWakeup, hstate, if_neg hne]
      exact h.not_ready
  · rw [Kernel.threadWakeup, if_neg hblocked]
    exact h

/-- `thread_wakeup(t->parent)`, when the parent has not been freed. -/
theorem Sound.wakeupParent (h : k.Sound bare) (hcurrent : k.state k.current ≠ .blocked)
    (hlive : k.Live t) (hpar : k.ParentLive t) : (k.wakeupParent t).Sound bare := by
  unfold Kernel.wakeupParent
  cases hp : k.parent t with
  | none => exact h
  | some par => exact h.threadWakeup hcurrent ⟨h.parent_lt t hlive par hp, hpar par hp⟩

theorem state_wakeupParent_of_ne (hu : k.state u ≠ .blocked) :
    (k.wakeupParent t).state u = k.state u := by
  unfold wakeupParent
  cases k.parent t with
  | none => rfl
  | some par => exact state_threadWakeup_of_ne hu

theorem current_wakeupParent : (k.wakeupParent t).current = k.current := by
  unfold wakeupParent
  cases k.parent t with
  | none => rfl
  | some par => exact current_threadWakeup

theorem terminate_eq : k.terminate t =
    { k.modify t fun x => { x with exitStatus := -1, state := .zombie, image := false } with
      gRunq := if k.state t = .ready then k.gRunq.erase t else k.gRunq } := by
  unfold terminate
  split_ifs <;> rfl

theorem state_terminate : (k.terminate t).state u = if u = t then .zombie else k.state u := by
  rw [terminate_eq]
  show ((k.modify t fun x =>
    { x with exitStatus := -1, state := .zombie, image := false }).thread u).state = _
  rw [thread_modify]
  split_ifs <;> rfl

theorem sameLinks_terminate : SameLinks k (k.terminate t) := by
  rw [terminate_eq]
  exact (sameLinks_modify (t := t) (f := fun x =>
    { x with exitStatus := -1, state := .zombie, image := false })
    fun _ => ⟨rfl, rfl, fun h => absurd h Bool.false_ne_true⟩).congr rfl rfl rfl rfl

theorem current_terminate : (k.terminate t).current = k.current := by
  rw [terminate_eq]
  rfl

/-- **The end of a process**, whichever it is. -/
theorem Sound.terminate (h : k.Sound bare) (hlive : k.Live t) (himage : (k.thread t).image = true) :
    (k.terminate t).Sound bare := by
  have hbare : t ∉ bare := fun hm => by
    rw [(h.bare_live t hm).2.2] at himage
    cases himage
  have hidle : t ≠ idle := by
    rintro rfl
    rw [h.image_idle] at himage
    cases himage
  have hself : (k.terminate t).state t = .zombie := by rw [state_terminate, if_pos rfl]
  have hrunq : (k.terminate t).gRunq = k.gRunq.erase t := by
    rw [terminate_eq]
    show (if _ then _ else _) = _
    split_ifs with hready
    · rfl
    · exact (List.erase_of_not_mem fun hm => hready ((h.mem_runq t).mp hm).2.1).symm
  refine ⟨h.toQueues.restate sameLinks_terminate hlive hbare
    (fun u hu => by rw [state_terminate, if_neg hu]) ?_ ?_ (fun _ => hself)
    (fun hi => absurd hi hidle), ?_, ?_, ?_⟩
  · rw [hrunq]
    exact h.runq_nodup.erase t
  · intro u
    rw [hrunq, h.runq_nodup.mem_erase_iff, hself]
    constructor
    · exact Or.inl
    · rintro (hu | ⟨-, hu⟩)
      · exact hu
      · cases hu
  · rw [current_terminate]
    exact sameLinks_terminate.live.mpr h.current_live
  · intro u hu hr
    rw [state_terminate] at hr
    split_ifs at hr
    rw [current_terminate]
    exact h.running u (sameLinks_terminate.live.mp hu) hr
  · rw [current_terminate, state_terminate]
    split_ifs
    · decide
    · exact h.not_ready

/-- A process is terminated, and its parent is woken. -/
theorem Running.terminateThread (h : k.Running bare) (hlive : k.Live t)
    (himage : (k.thread t).image = true) (hpar : k.ParentLive t) :
    (k.terminateThread t).Sound bare ∧
      (t ≠ k.current → (k.terminateThread t).Running bare) := by
  have hblocked : (k.terminate t).state (k.terminate t).current ≠ .blocked := by
    rw [current_terminate, state_terminate, h.current_running]
    split_ifs <;> decide
  have hlinks := sameLinks_terminate (k := k) (t := t)
  have hsound : (k.terminateThread t).Sound bare := by
    refine (h.toSound.terminate hlive himage).wakeupParent hblocked (hlinks.live.mpr hlive) ?_
    intro par hp
    rw [hlinks.freed]
    exact hpar par (hlinks.parent t ▸ hp)
  refine ⟨hsound, fun hne => ⟨hsound, ?_⟩⟩
  unfold Kernel.terminateThread
  rw [current_wakeupParent, state_wakeupParent_of_ne hblocked, current_terminate, state_terminate,
    if_neg hne.symm]
  exact h.current_running

/-! ## Lists of children -/

/-- Changing links between threads only. -/
theorem Sound.relink (h : k.Sound bare) (hcount : k'.count = k.count) (hfreed : k'.freed = k.freed)
    (hrunq : k'.gRunq = k.gRunq) (hzombies : k'.gZombies = k.gZombies)
    (hcurrent : k'.current = k.current) (hstate : ∀ u, k'.state u = k.state u)
    (himage : ∀ u, (k'.thread u).image = (k.thread u).image)
    (hparent : ∀ u, k.Live u → ∀ p ∈ k'.parent u, p < k.count)
    (hnodup : ∀ p, k.Live p → (k'.children p).Nodup)
    (hchild : ∀ p, k.Live p → ∀ c ∈ k'.children p,
      k.Live c ∧ c ∉ k.gZombies ∧ c ∉ bare ∧ k'.parent c = some p) : k'.Sound bare := by
  have hlive : ∀ u, k'.Live u ↔ k.Live u := fun u => by
    unfold Live
    rw [hcount, hfreed]
  constructor
  case toQueues =>
    constructor <;> try simp only [hlive, hcount, hfreed, hrunq, hzombies, hstate, himage]
    case freed_lt => exact h.freed_lt
    case parent_lt => exact hparent
    case bootstrap => exact h.bootstrap
    case image_bootstrap => exact h.image_bootstrap
    case bootstrap_not_bare => exact h.bootstrap_not_bare
    case idle_live => exact h.idle_live
    case idle_state => exact h.idle_state
    case idle_not_bare => exact h.idle_not_bare
    case image_idle => exact h.image_idle
    case bare_nodup => exact h.bare_nodup
    case bare_live => exact h.bare_live
    case runq_nodup => exact h.runq_nodup
    case mem_runq => exact h.mem_runq
    case zombies_nodup => exact h.zombies_nodup
    case zombie => exact h.zombie
    case children_nodup => exact hnodup
    case child => exact hchild
  case current_live =>
    rw [hlive, hcurrent]
    exact h.current_live
  case running =>
    intro u hu hr
    rw [hcurrent]
    exact h.running u ((hlive u).mp hu) (hstate u ▸ hr)
  case not_ready =>
    rw [hcurrent, hstate]
    exact h.not_ready

theorem Sound.listDelSibling (h : k.Sound bare) : (k.listDelSibling c).Sound bare := by
  refine h.relink rfl rfl rfl rfl rfl (fun _ => rfl) (fun _ => rfl) h.parent_lt (fun p hp => ?_)
    fun p hp x hx => ?_
  · exact (h.children_nodup p hp).erase c
  · exact h.child p hp x (List.mem_of_mem_erase hx)

/-- A thread that was taken off its list is on no list. -/
theorem Sound.not_mem_children_listDelSibling (h : k.Sound bare) (hp : k.Live p) :
    c ∉ (k.listDelSibling c).children p :=
  (h.children_nodup p hp).not_mem_erase

theorem Sound.schedZombify (h : k.Sound bare) (hlive : k.Live t) (hstate : k.state t = .zombie)
    (hnot : t ∉ k.gZombies) (hfree : ∀ p, k.Live p → t ∉ k.children p) :
    (k.schedZombify t).Sound bare where
  freed_lt := h.freed_lt
  parent_lt := h.parent_lt
  bootstrap := h.bootstrap
  image_bootstrap := h.image_bootstrap
  bootstrap_not_bare := h.bootstrap_not_bare
  idle_live := h.idle_live
  idle_state := h.idle_state
  idle_not_bare := h.idle_not_bare
  image_idle := h.image_idle
  bare_nodup := h.bare_nodup
  bare_live := h.bare_live
  runq_nodup := h.runq_nodup
  mem_runq := h.mem_runq
  zombies_nodup := List.nodup_append.mpr ⟨h.zombies_nodup, by simp, by
    rintro u hu v hv rfl
    exact hnot (List.mem_singleton.mp hv ▸ hu)⟩
  zombie u hu := by
    rcases List.mem_append.mp hu with hu | hu
    · exact h.zombie u hu
    · rw [List.mem_singleton.mp hu]
      exact ⟨hlive, hstate⟩
  children_nodup := h.children_nodup
  child p hp c hc := by
    obtain ⟨hl, hz, hb, hpar⟩ := h.child p hp c hc
    refine ⟨hl, fun hm => ?_, hb, hpar⟩
    rcases List.mem_append.mp hm with hm | hm
    · exact hz hm
    · exact hfree p hp (List.mem_singleton.mp hm ▸ hc)
  current_live := h.current_live
  running := h.running
  not_ready := h.not_ready

/-- `sys_waitpid` and `run_user_program` hand a zombie over to the idle thread. -/
theorem Sound.collect (h : k.Sound bare) (hlive : k.Live t) (hstate : k.state t = .zombie)
    (hnot : t ∉ k.gZombies) : (k.collect t).Sound bare :=
  h.listDelSibling.schedZombify hlive hstate hnot fun _ hp =>
    h.not_mem_children_listDelSibling hp

theorem children_reparent : (k.reparent c).children u =
    if u = gBootstrap then (k.children gBootstrap).erase c ++ [c] else (k.children u).erase c := by
  unfold reparent addChild
  show ((Kernel.modify _ gBootstrap _).thread u).children = _
  rw [thread_modify]
  have hmodify : ∀ v, (((k.listDelSibling c).modify c fun x =>
      { x with parent := some gBootstrap }).thread v).children = (k.children v).erase c :=
    fun v => children_modify (k := k.listDelSibling c) fun _ => rfl
  split_ifs with hu
  · show _ ++ _ = _
    rw [hmodify]
  · exact hmodify u

theorem parent_reparent : (k.reparent c).parent u =
    if u = c then some gBootstrap else k.parent u := by
  unfold reparent addChild
  rw [parent_modify (by intro; rfl)]
  show ((Kernel.modify _ c _).thread u).parent = _
  rw [thread_modify]
  split_ifs <;> rfl

theorem state_reparent : (k.reparent c).state u = k.state u := by
  unfold reparent addChild
  rw [state_modify (by intro; rfl), state_modify (by intro; rfl)]
  rfl

theorem image_reparent : ((k.reparent c).thread u).image = (k.thread u).image := by
  unfold reparent addChild
  rw [image_modify (by intro; rfl), image_modify (by intro; rfl)]
  rfl

/-- **A child is handed over to `g_bootstrap`.** -/
theorem Sound.reparent (h : k.Sound bare) (hlive : k.Live c) (hz : c ∉ k.gZombies)
    (hbare : c ∉ bare) : (k.reparent c).Sound bare := by
  refine h.relink rfl rfl rfl rfl rfl (fun _ => state_reparent) (fun _ => image_reparent)
    (fun u hu p hp => ?_) (fun p hp => ?_) fun p hp x hx => ?_
  · rw [parent_reparent] at hp
    split_ifs at hp
    · rw [Option.mem_def, Option.some_inj] at hp
      exact hp ▸ h.bootstrap.1
    · exact h.parent_lt u hu p hp
  · rw [children_reparent]
    split_ifs
    · refine List.nodup_append.mpr ⟨(h.children_nodup _ h.bootstrap).erase c, by simp, ?_⟩
      rintro x hx y hy rfl
      rw [List.mem_singleton.mp hy] at hx
      exact (h.children_nodup _ h.bootstrap).not_mem_erase hx
    · exact (h.children_nodup p hp).erase c
  · rw [children_reparent] at hx
    rw [parent_reparent]
    have hold : ∀ q, k.Live q → x ∈ (k.children q).erase c → x ≠ c ∧ x ∈ k.children q :=
      fun q hq => (h.children_nodup q hq).mem_erase_iff.mp
    split_ifs at hx with hpb
    · subst hpb
      rcases List.mem_append.mp hx with hx | hx
      · obtain ⟨hxc, hx⟩ := hold _ hp hx
        rw [if_neg hxc]
        exact h.child _ hp x hx
      · obtain rfl := List.mem_singleton.mp hx
        rw [if_pos rfl]
        exact ⟨hlive, hz, hbare, rfl⟩
    · obtain ⟨hxc, hx⟩ := hold _ hp hx
      rw [if_neg hxc]
      exact h.child _ hp x hx

/-- The loop of `sys_exit`. -/
theorem Sound.reparentAll {cs : List Tid} (h : k.Sound bare)
    (hcs : ∀ c ∈ cs, k.Live c ∧ c ∉ k.gZombies ∧ c ∉ bare) :
    (cs.foldl Kernel.reparent k).Sound bare := by
  induction cs generalizing k with
  | nil => exact h
  | cons c cs ih =>
    obtain ⟨hlive, hz, hb⟩ := hcs c List.mem_cons_self
    exact ih (h.reparent hlive hz hb) fun x hx => hcs x (List.mem_cons_of_mem _ hx)

/-- What the loop of `sys_exit` does not change. -/
theorem reparentAll_same (cs : List Tid) :
    (cs.foldl reparent k).count = k.count ∧ (cs.foldl reparent k).freed = k.freed ∧
      (cs.foldl reparent k).gRunq = k.gRunq ∧ (cs.foldl reparent k).gZombies = k.gZombies ∧
      (cs.foldl reparent k).current = k.current ∧
      ∀ u, (cs.foldl reparent k).state u = k.state u := by
  induction cs generalizing k with
  | nil => exact ⟨rfl, rfl, rfl, rfl, rfl, fun _ => rfl⟩
  | cons c cs ih =>
    obtain ⟨h₁, h₂, h₃, h₄, h₅, h₆⟩ := ih (k := k.reparent c)
    exact ⟨h₁, h₂, h₃, h₄, h₅, fun u => (h₆ u).trans state_reparent⟩

theorem image_reparentAll (cs : List Tid) (u : Tid) :
    ((cs.foldl reparent k).thread u).image = (k.thread u).image := by
  induction cs generalizing k with
  | nil => rfl
  | cons c cs ih => exact (ih (k := k.reparent c)).trans image_reparent

/-! ## Self-termination -/

theorem Sound.modify (h : k.Sound bare) {f : Thread → Thread}
    (hf : ∀ x, (f x).children = x.children ∧ (f x).parent = x.parent ∧ (f x).state = x.state ∧
      (f x).image = x.image) : (k.modify t f).Sound bare := by
  have hchildren : ∀ u, (k.modify t f).children u = k.children u := fun _ =>
    children_modify fun x => (hf x).1
  have hparent : ∀ u, (k.modify t f).parent u = k.parent u := fun _ =>
    parent_modify fun x => (hf x).2.1
  refine h.relink rfl rfl rfl rfl rfl (fun _ => state_modify fun x => (hf x).2.2.1)
    (fun _ => image_modify fun x => (hf x).2.2.2) (fun u hu p hp => ?_) (fun p hp => ?_)
    fun p hp c hc => ?_
  · rw [hparent] at hp
    exact h.parent_lt u hu p hp
  · rw [hchildren]
    exact h.children_nodup p hp
  · rw [hchildren] at hc
    rw [hparent]
    exact h.child p hp c hc

/-- The current thread ends itself, but for the wakeup of its parent. -/
theorem Sound.zombify (h : k.Sound bare) (hidle : k.current ≠ idle)
    {f : Thread → Thread} (hf : ∀ x, (f x).children = x.children ∧ (f x).parent = x.parent ∧
      ((f x).image = true → x.image = true) ∧ (f x).state = .zombie) :
    (k.modify k.current f).Sound bare ∧ (k.modify k.current f).state k.current = .zombie := by
  have hstate : ∀ u, (k.modify k.current f).state u =
      if u = k.current then .zombie else k.state u := fun u => by
    unfold Kernel.state
    rw [thread_modify]
    split_ifs with hu
    · exact (hf _).2.2.2
    · rfl
  have hself : (k.modify k.current f).state k.current = .zombie := by rw [hstate, if_pos rfl]
  refine ⟨h.leave (sameLinks_modify fun x => ⟨(hf x).1, (hf x).2.1, (hf x).2.2.1⟩) rfl rfl
    (fun u hu => ?_) ?_ (fun _ => hself) hidle, hself⟩
  · rw [hstate, if_neg hu]
  · rw [hself]
    decide

/-- `sys_exit` before the thread becomes a zombie. -/
def exiting (k : Kernel) (status : BitVec 64) : Kernel :=
  let k' := k.modify k.current fun x => { x with exitStatus := status.setWidth 32 }
  (k'.children k.current).foldl reparent k'

theorem sysExit_eq (status : BitVec 64) : k.sysExit status =
    (k.exiting status).modify k.current fun x => { x with state := .zombie, image := false } := rfl

theorem exiting_same (status : BitVec 64) :
    (k.exiting status).count = k.count ∧ (k.exiting status).freed = k.freed ∧
      (k.exiting status).gRunq = k.gRunq ∧ (k.exiting status).gZombies = k.gZombies ∧
      (k.exiting status).current = k.current ∧ ∀ u, (k.exiting status).state u = k.state u := by
  obtain ⟨h₁, h₂, h₃, h₄, h₅, h₆⟩ := reparentAll_same
    (k := k.modify k.current fun x => { x with exitStatus := status.setWidth 32 })
    ((k.modify k.current fun x => { x with exitStatus := status.setWidth 32 }).children k.current)
  exact ⟨h₁, h₂, h₃, h₄, h₅, fun u => (h₆ u).trans (state_modify (by intro; rfl))⟩

theorem Running.exiting (h : k.Running bare) (status : BitVec 64) :
    (k.exiting status).Sound bare := by
  have h₁ : (k.modify k.current fun x =>
      { x with exitStatus := status.setWidth 32 }).Sound bare :=
    h.toSound.modify fun _ => ⟨rfl, rfl, rfl, rfl⟩
  refine h₁.reparentAll fun c hc => ?_
  obtain ⟨hl, hz, hb, -⟩ := h₁.child k.current h.current_live c hc
  exact ⟨hl, hz, hb⟩

theorem Running.sysExit (h : k.Running bare) (himage : (k.thread k.current).image = true)
    (status : BitVec 64) :
    (k.sysExit status).Sound bare ∧ (k.sysExit status).state k.current = .zombie := by
  have hcurrent : (k.exiting status).current = k.current := (exiting_same status).2.2.2.2.1
  have hidle : k.current ≠ idle := by
    intro hi
    rw [hi, h.image_idle] at himage
    cases himage
  have hzombify := (h.exiting status).zombify (f := fun x =>
    { x with state := .zombie, image := false }) (hcurrent.trans_ne hidle)
    fun _ => ⟨rfl, rfl, fun h => absurd h Bool.false_ne_true, rfl⟩
  rw [hcurrent] at hzombify
  exact hzombify

theorem parent_reparentAll (cs : List Tid) (u : Tid) :
    (cs.foldl reparent k).parent u = k.parent u ∨
      (cs.foldl reparent k).parent u = some gBootstrap := by
  induction cs generalizing k with
  | nil => exact Or.inl rfl
  | cons c cs ih =>
    rcases ih (k := k.reparent c) with h | h
    · rw [List.foldl_cons, h, parent_reparent]
      split_ifs
      · exact Or.inr rfl
      · exact Or.inl rfl
    · exact Or.inr h

theorem parentLive_sysExit (h : k.Running bare) (hpar : k.ParentLive k.current)
    (status : BitVec 64) : (k.sysExit status).ParentLive k.current := by
  intro par hp
  rw [sysExit_eq, parent_modify (by intro; rfl)] at hp
  show par ∉ (k.exiting status).freed
  rw [(exiting_same status).2.1]
  have hbefore : (k.modify k.current fun x =>
      { x with exitStatus := status.setWidth 32 }).parent k.current = k.parent k.current :=
    parent_modify (by intro; rfl)
  rcases parent_reparentAll (k := k.modify k.current fun x =>
    { x with exitStatus := status.setWidth 32 }) _ k.current with heq | heq
  · exact hpar par (hbefore ▸ heq ▸ hp)
  · have hboot : some gBootstrap = some par := heq.symm.trans hp
    exact Option.some.inj hboot ▸ h.bootstrap.2

/-- **`sys_exit`.** -/
theorem Running.exitCurrent (h : k.Running bare) (himage : (k.thread k.current).image = true)
    (hpar : k.ParentLive k.current) (status : BitVec 64) :
    (k.exitCurrent status).Sound bare := by
  obtain ⟨hsound, hzombie⟩ := h.sysExit himage status
  have hcurrent : (k.sysExit status).current = k.current := (exiting_same status).2.2.2.2.1
  refine hsound.wakeupParent ?_ (hcurrent ▸ hsound.current_live)
    (parentLive_sysExit h hpar status)
  rw [hcurrent, hzombie]
  decide

theorem Running.threadExit (h : k.Running bare) (hidle : k.current ≠ idle) :
    k.threadExit.Sound bare := by
  obtain ⟨hsound, hzombie⟩ := h.toSound.zombify (f := fun x => { x with state := .zombie }) hidle
    fun _ => ⟨rfl, rfl, id, rfl⟩
  refine hsound.listDelSibling.schedZombify h.current_live hzombie ?_ fun p hp =>
    hsound.not_mem_children_listDelSibling hp
  intro hz
  exact absurd (h.current_running.symm.trans (h.zombie _ hz).2) (by decide)

/-! ## New threads -/

theorem live_threadAllocBare (h : k.Sound bare) :
    k.threadAllocBare.Live u ↔ k.Live u ∨ u = k.count := by
  unfold Live
  show u < k.count + 1 ∧ u ∉ k.freed ↔ _
  constructor
  · rintro ⟨hlt, hf⟩
    rcases Nat.lt_or_ge u k.count with hu | hu
    · exact Or.inl ⟨hu, hf⟩
    · exact Or.inr (Nat.le_antisymm (Nat.le_of_lt_succ hlt) hu)
  · rintro (⟨hlt, hf⟩ | rfl)
    · exact ⟨Nat.lt_succ_of_lt hlt, hf⟩
    · exact ⟨Nat.lt_succ_self _, fun hf => Nat.lt_irrefl _ (h.freed_lt _ hf)⟩

theorem thread_threadAllocBare_of_ne (hu : u ≠ k.count) :
    k.threadAllocBare.thread u = k.thread u := Function.update_of_ne hu ..

theorem Live.ne_count (hu : k.Live u) : u ≠ k.count := Nat.ne_of_lt hu.1

theorem Sound.threadAllocBare (h : k.Sound bare) : k.threadAllocBare.Sound (k.count :: bare) := by
  have hlive : ∀ u, k.threadAllocBare.Live u ↔ k.Live u ∨ u = k.count := fun _ =>
    live_threadAllocBare h
  have hold : ∀ {u}, k.Live u → k.threadAllocBare.thread u = k.thread u := fun hu =>
    thread_threadAllocBare_of_ne hu.ne_count
  have hstate : ∀ {u}, k.Live u → k.threadAllocBare.state u = k.state u := fun hu =>
    congrArg Thread.state (hold hu)
  have hchildren : ∀ {u}, k.Live u → k.threadAllocBare.children u = k.children u := fun hu =>
    congrArg Thread.children (hold hu)
  have hparent : ∀ {u}, k.Live u → k.threadAllocBare.parent u = k.parent u := fun hu =>
    congrArg Thread.parent (hold hu)
  have hnew : k.threadAllocBare.thread k.count =
      ⟨k.gNextTid, .ready, some k.current, [], 0, false⟩ := Function.update_self ..
  have hnotbare : k.count ∉ bare := fun hm => (h.bare_live _ hm).1.ne_count rfl
  constructor
  case toQueues =>
    constructor
    case freed_lt => exact fun t ht => Nat.lt_succ_of_lt (h.freed_lt t ht)
    case parent_lt =>
      intro t ht p hp
      refine Nat.lt_succ_of_lt ?_
      rcases (hlive t).mp ht with ht | rfl
      · exact h.parent_lt t ht p (hparent ht ▸ hp)
      · rw [Kernel.parent, hnew, Option.mem_def, Option.some_inj] at hp
        exact hp ▸ h.current_live.1
    case bootstrap => exact (hlive _).mpr (Or.inl h.bootstrap)
    case image_bootstrap =>
      rw [hold h.bootstrap]
      exact h.image_bootstrap
    case bootstrap_not_bare =>
      rw [List.mem_cons, not_or]
      exact ⟨h.bootstrap.ne_count, h.bootstrap_not_bare⟩
    case idle_live => exact (hlive _).mpr (Or.inl h.idle_live)
    case idle_state =>
      rw [hstate h.idle_live]
      exact h.idle_state
    case idle_not_bare =>
      rw [List.mem_cons, not_or]
      exact ⟨h.idle_live.ne_count, h.idle_not_bare⟩
    case image_idle =>
      rw [hold h.idle_live]
      exact h.image_idle
    case bare_nodup => exact List.nodup_cons.mpr ⟨hnotbare, h.bare_nodup⟩
    case bare_live =>
      intro t ht
      rcases List.mem_cons.mp ht with rfl | ht
      · rw [hlive, Kernel.state, hnew]
        exact ⟨Or.inr rfl, rfl, rfl⟩
      · obtain ⟨hl, hs, hi⟩ := h.bare_live t ht
        rw [hlive, hstate hl, hold hl]
        exact ⟨Or.inl hl, hs, hi⟩
    case runq_nodup => exact h.runq_nodup
    case mem_runq =>
      intro t
      show t ∈ k.gRunq ↔ _
      rw [h.mem_runq, hlive, List.mem_cons, not_or]
      constructor
      · rintro ⟨hl, hs, hb⟩
        exact ⟨Or.inl hl, (hstate hl).trans hs, hl.ne_count, hb⟩
      · rintro ⟨hl, hs, hne, hb⟩
        have hl' := hl.resolve_right hne
        exact ⟨hl', (hstate hl').symm.trans hs, hb⟩
    case zombies_nodup => exact h.zombies_nodup
    case zombie =>
      intro t ht
      obtain ⟨hl, hs⟩ := h.zombie t ht
      exact ⟨(hlive t).mpr (Or.inl hl), (hstate hl).trans hs⟩
    case children_nodup =>
      intro p hp
      rcases (hlive p).mp hp with hp | rfl
      · rw [hchildren hp]
        exact h.children_nodup p hp
      · rw [Kernel.children, hnew]
        exact List.nodup_nil
    case child =>
      intro p hp c hc
      rcases (hlive p).mp hp with hp | rfl
      · rw [hchildren hp] at hc
        obtain ⟨hl, hz, hb, hpar⟩ := h.child p hp c hc
        rw [hlive, hparent hl, List.mem_cons, not_or]
        exact ⟨Or.inl hl, hz, ⟨hl.ne_count, hb⟩, hpar⟩
      · rw [Kernel.children, hnew] at hc
        cases hc
  case current_live => exact (hlive _).mpr (Or.inl h.current_live)
  case running =>
    intro u hu hr
    rcases (hlive u).mp hu with hu | rfl
    · exact h.running u hu ((hstate hu).symm.trans hr)
    · rw [Kernel.state, hnew] at hr
      cases hr
  case not_ready =>
    show k.threadAllocBare.state k.current ≠ _
    rw [hstate h.current_live]
    exact h.not_ready

/-- **A new thread is put on the run queue**, and possibly on the list of its parent. -/
theorem Sound.enqueueBare (h : k.Sound bare) (ht : t ∈ bare) (hcount : k'.count = k.count)
    (hfreed : k'.freed = k.freed) (hrunq : k'.gRunq = k.gRunq ++ [t])
    (hzombies : k'.gZombies = k.gZombies) (hcurrent : k'.current = k.current)
    (hstate : ∀ u, k'.state u = k.state u) (hparent : ∀ u, k'.parent u = k.parent u)
    (himage : ∀ u, u ≠ t → (k'.thread u).image = (k.thread u).image)
    (hchildren : ∀ p, k'.children p = k.children p ∨
      k.parent t = some p ∧ k'.children p = k.children p ++ [t]) :
    k'.Sound (bare.erase t) := by
  have hlive : ∀ u, k'.Live u ↔ k.Live u := fun u => by
    unfold Live
    rw [hcount, hfreed]
  obtain ⟨hl, hready, -⟩ := h.bare_live t ht
  have hmem : ∀ u, u ∈ bare.erase t ↔ u ≠ t ∧ u ∈ bare := fun u => h.bare_nodup.mem_erase_iff
  have hnotz : t ∉ k.gZombies := fun hz =>
    absurd (hready.symm.trans (h.zombie t hz).2) (by decide)
  have hnot : t ∉ k.gRunq := fun hm => ((h.mem_runq t).mp hm).2.2 ht
  have hne : ∀ u, u ∉ bare → u ≠ t := fun u hu hut => hu (hut ▸ ht)
  constructor
  case toQueues =>
    constructor
    case freed_lt =>
      rw [hfreed, hcount]
      exact h.freed_lt
    case parent_lt =>
      intro u hu p hp
      rw [hcount]
      exact h.parent_lt u ((hlive u).mp hu) p (hparent u ▸ hp)
    case bootstrap => exact (hlive _).mpr h.bootstrap
    case image_bootstrap =>
      rw [himage _ (hne _ h.bootstrap_not_bare)]
      exact h.image_bootstrap
    case bootstrap_not_bare => exact fun hm => h.bootstrap_not_bare ((hmem _).mp hm).2
    case idle_live => exact (hlive _).mpr h.idle_live
    case idle_state =>
      rw [hstate]
      exact h.idle_state
    case idle_not_bare => exact fun hm => h.idle_not_bare ((hmem _).mp hm).2
    case image_idle =>
      rw [himage _ (hne _ h.idle_not_bare)]
      exact h.image_idle
    case bare_nodup => exact h.bare_nodup.erase t
    case bare_live =>
      intro u hu
      obtain ⟨hut, hu⟩ := (hmem u).mp hu
      rw [hlive, hstate, himage u hut]
      exact h.bare_live u hu
    case runq_nodup =>
      rw [hrunq]
      exact List.nodup_append.mpr ⟨h.runq_nodup, by simp, by
        rintro u hu v hv rfl
        exact hnot (List.mem_singleton.mp hv ▸ hu)⟩
    case mem_runq =>
      intro u
      rw [hrunq, List.mem_append, List.mem_singleton, hlive, hstate, hmem, h.mem_runq]
      constructor
      · rintro (⟨hlu, hs, hb⟩ | rfl)
        · exact ⟨hlu, hs, fun hm => hb hm.2⟩
        · exact ⟨hl, hready, fun hm => hm.1 rfl⟩
      · rintro ⟨hlu, hs, hb⟩
        by_cases hut : u = t
        · exact Or.inr hut
        · exact Or.inl ⟨hlu, hs, fun hm => hb ⟨hut, hm⟩⟩
    case zombies_nodup =>
      rw [hzombies]
      exact h.zombies_nodup
    case zombie =>
      intro u hu
      rw [hlive, hstate]
      exact h.zombie u (hzombies ▸ hu)
    case children_nodup =>
      intro p hp
      rcases hchildren p with heq | ⟨-, heq⟩
      · rw [heq]
        exact h.children_nodup p ((hlive p).mp hp)
      · rw [heq]
        refine List.nodup_append.mpr ⟨h.children_nodup p ((hlive p).mp hp), by simp, ?_⟩
        rintro u hu v hv rfl
        rw [List.mem_singleton.mp hv] at hu
        exact (h.child p ((hlive p).mp hp) t hu).2.2.1 ht
    case child =>
      intro p hp c hc
      rw [hlive, hzombies, hparent, hmem]
      have hold : c ∈ k.children p →
          k.Live c ∧ c ∉ k.gZombies ∧ ¬ (c ≠ t ∧ c ∈ bare) ∧ k.parent c = some p := fun hc => by
        obtain ⟨hlc, hz, hb, hpar⟩ := h.child p ((hlive p).mp hp) c hc
        exact ⟨hlc, hz, fun hm => hb hm.2, hpar⟩
      rcases hchildren p with heq | ⟨hpar, heq⟩
      · exact hold (heq ▸ hc)
      · rw [heq] at hc
        rcases List.mem_append.mp hc with hc | hc
        · exact hold hc
        · obtain rfl := List.mem_singleton.mp hc
          exact ⟨hl, hnotz, fun hm => hm.1 rfl, hpar⟩
  case current_live =>
    rw [hlive, hcurrent]
    exact h.current_live
  case running =>
    intro u hu hr
    rw [hcurrent]
    exact h.running u ((hlive u).mp hu) (hstate u ▸ hr)
  case not_ready =>
    rw [hcurrent, hstate]
    exact h.not_ready

theorem children_addChild : (k.addChild p c).children u =
    if u = p then k.children p ++ [c] else k.children u := by
  unfold addChild
  show ((k.modify p _).thread u).children = _
  rw [thread_modify]
  split_ifs <;> rfl

theorem Sound.enqueueReady (h : k.Sound bare) (ht : t ∈ bare) (image link : Bool) :
    (k.enqueueReady t image link).Sound (bare.erase t) := by
  have hready := (h.bare_live t ht).2.1
  -- what matters of the state before `thread_enqueue_ready`
  have key : ∀ k₁ : Kernel, k₁.count = k.count → k₁.freed = k.freed → k₁.gRunq = k.gRunq →
      k₁.gZombies = k.gZombies → k₁.current = k.current → (∀ u, k₁.state u = k.state u) →
      (∀ u, k₁.parent u = k.parent u) →
      (∀ u, u ≠ t → (k₁.thread u).image = (k.thread u).image) →
      (∀ p, k₁.children p = k.children p ∨
        k.parent t = some p ∧ k₁.children p = k.children p ++ [t]) →
      ((k₁.setState t .ready).enqueue t).Sound (bare.erase t) := by
    intro k₁ hcount hfreed hrunq hzombies hcurrent hstate hparent himage hchildren
    have hlinks : SameLinks k₁ (k₁.setState t .ready) := sameLinks_setState .ready
    refine h.enqueueBare ht hcount hfreed (congrArg (· ++ [t]) hrunq) hzombies hcurrent
      (fun u => ?_) (fun u => (hlinks.parent u).trans (hparent u)) (fun u hu => ?_) fun p => ?_
    · show (k₁.setState t .ready).state u = _
      rw [state_setState]
      split_ifs with hut
      · rw [hut, hready]
      · exact hstate u
    · have hsame : ((k₁.setState t .ready).thread u).image = (k₁.thread u).image :=
        image_modify (f := fun x => { x with state := .ready }) fun _ => rfl
      exact hsame.trans (himage u hu)
    · have heq : ((k₁.setState t .ready).enqueue t).children p = k₁.children p :=
        hlinks.children p
      rw [heq]
      exact hchildren p
  have himage : ∀ u, u ≠ t →
      ((k.modify t fun x => { x with image := image }).thread u).image = (k.thread u).image :=
    fun u hu => by rw [thread_modify, if_neg hu]
  have hstate : ∀ u, (k.modify t fun x => { x with image := image }).state u = k.state u :=
    fun u => state_modify (by intro; rfl)
  have hparent : ∀ u, (k.modify t fun x => { x with image := image }).parent u = k.parent u :=
    fun u => parent_modify (by intro; rfl)
  have hchildren : ∀ u, (k.modify t fun x => { x with image := image }).children u =
      k.children u := fun u => children_modify (by intro; rfl)
  have hplain := key (k.modify t fun x => { x with image := image }) rfl rfl rfl rfl rfl hstate
    hparent himage fun p => Or.inl (hchildren p)
  cases link with
  | false => exact hplain
  | true =>
    show ((Kernel.linkParent _ t).setState t .ready |>.enqueue t).Sound _
    unfold Kernel.linkParent
    rw [hparent]
    cases hp : k.parent t with
    | none => exact hplain
    | some par =>
      refine key _ rfl rfl rfl rfl rfl (fun u => ?_) (fun u => ?_) (fun u hu => ?_) fun p => ?_
      · exact (state_modify (by intro; rfl)).trans (hstate u)
      · exact (parent_modify (by intro; rfl)).trans (hparent u)
      · exact (image_modify (by intro; rfl)).trans (himage u hu)
      · rw [children_addChild, hchildren, hchildren]
        split_ifs with hpp
        · exact Or.inr ⟨by rw [hp, hpp], by rw [hpp]⟩
        · exact Or.inl rfl

theorem Sound.congr (h : k.Sound bare) (hthread : k'.thread = k.thread)
    (hcount : k'.count = k.count) (hfreed : k'.freed = k.freed) (hrunq : k'.gRunq = k.gRunq)
    (hzombies : k'.gZombies = k.gZombies) (hcurrent : k'.current = k.current) :
    k'.Sound bare := by
  have hchildren : ∀ u, k'.children u = k.children u := fun u => by
    rw [Kernel.children, hthread]
    rfl
  have hparent : ∀ u, k'.parent u = k.parent u := fun u => by
    rw [Kernel.parent, hthread]
    rfl
  refine h.relink hcount hfreed hrunq hzombies hcurrent (fun u => ?_) (fun u => ?_)
    (fun u hu p hp => ?_) (fun p hp => ?_) fun p hp c hc => ?_
  · rw [Kernel.state, hthread]
    rfl
  · rw [hthread]
  · exact h.parent_lt u hu p (hparent u ▸ hp)
  · rw [hchildren]
    exact h.children_nodup p hp
  · rw [hparent]
    exact h.child p hp c (hchildren p ▸ hc)

theorem modify_eq_self {f : Thread → Thread} (hf : f (k.thread t) = k.thread t) :
    k.modify t f = k := by
  unfold Kernel.modify
  rw [hf, Function.update_eq_self]

/-- A thread that is made in one call. -/
theorem Sound.created (h : k.Sound bare) (image : Bool) (f : Frame) :
    ((k.threadAllocBare.modify k.count fun x => { x with image := image }).linkThread k.count
      k.current f).Sound bare := by
  have hsound := h.threadAllocBare.enqueueReady List.mem_cons_self image true
  rw [List.erase_cons_head] at hsound
  have hnew : k.threadAllocBare.thread k.count =
      ⟨k.gNextTid, .ready, some k.current, [], 0, false⟩ := Function.update_self ..
  have hparent : (k.threadAllocBare.modify k.count fun x => { x with image := image }).parent
      k.count = some k.current := by
    rw [parent_modify (by intro; rfl), Kernel.parent, hnew]
  have hstate : ((k.threadAllocBare.modify k.count fun x => { x with image := image }).addChild
      k.current k.count).state k.count = .ready := by
    rw [addChild, state_modify (by intro; rfl), state_modify (by intro; rfl), Kernel.state, hnew]
  unfold Kernel.enqueueReady at hsound
  dsimp only at hsound
  rw [if_pos rfl, Kernel.linkParent, hparent] at hsound
  dsimp only at hsound
  rw [setState, modify_eq_self (by rw [← hstate]; rfl)] at hsound
  exact hsound.congr rfl rfl rfl rfl rfl rfl

theorem threadCreate_true : k.threadCreate true =
    (k.threadAllocBare.modify k.count fun x => { x with image := false }).linkThread k.count
      k.current .kernelThread := by
  have hnew : k.threadAllocBare.thread k.count =
      ⟨k.gNextTid, .ready, some k.current, [], 0, false⟩ := Function.update_self ..
  rw [modify_eq_self (by rw [hnew])]
  rfl

/-! ## Freeing threads -/

/-- A thread number is used up, and its struct is freed again. -/
theorem Sound.createFailed (h : k.Sound bare) : Sound { k with
    count := k.count + 1, gNextTid := k.gNextTid + 1, freed := k.count :: k.freed } bare := by
  have hlive : ∀ u, Live { k with
      count := k.count + 1, gNextTid := k.gNextTid + 1, freed := k.count :: k.freed } u ↔
      k.Live u := fun u => by
    unfold Live
    rw [List.mem_cons, not_or]
    constructor
    · rintro ⟨hlt, hne, hf⟩
      exact ⟨Nat.lt_of_le_of_ne (Nat.le_of_lt_succ hlt) hne, hf⟩
    · rintro ⟨hlt, hf⟩
      exact ⟨Nat.lt_succ_of_lt hlt, Nat.ne_of_lt hlt, hf⟩
  constructor
  case toQueues =>
    constructor <;> try simp only [hlive]
    case freed_lt =>
      intro t ht
      rcases List.mem_cons.mp ht with rfl | ht
      · exact Nat.lt_succ_self _
      · exact Nat.lt_succ_of_lt (h.freed_lt t ht)
    case parent_lt => exact fun t ht p hp => Nat.lt_succ_of_lt (h.parent_lt t ht p hp)
    case bootstrap => exact h.bootstrap
    case image_bootstrap => exact h.image_bootstrap
    case bootstrap_not_bare => exact h.bootstrap_not_bare
    case idle_live => exact h.idle_live
    case idle_state => exact h.idle_state
    case idle_not_bare => exact h.idle_not_bare
    case image_idle => exact h.image_idle
    case bare_nodup => exact h.bare_nodup
    case bare_live => exact h.bare_live
    case runq_nodup => exact h.runq_nodup
    case mem_runq => exact h.mem_runq
    case zombies_nodup => exact h.zombies_nodup
    case zombie => exact h.zombie
    case children_nodup => exact h.children_nodup
    case child => exact h.child
  case current_live => exact (hlive _).mpr h.current_live
  case running => exact fun u hu => h.running u ((hlive u).mp hu)
  case not_ready => exact h.not_ready

/-- **A thread is freed** that is on no list. -/
theorem Sound.free (h : k.Sound bare) {bare' zs : List Tid} (hboot : t ≠ gBootstrap)
    (hidle : t ≠ idle) (hcurrent : t ≠ k.current) (hlt : t < k.count) (hrunq : t ∉ k.gRunq)
    (hchild : ∀ p, k.Live p → t ∉ k.children p) (hzs : ∀ u ∈ zs, u ∈ k.gZombies ∧ u ≠ t)
    (hnodup : zs.Nodup) (hbare : ∀ u, u ∈ bare' ↔ u ≠ t ∧ u ∈ bare) (hnodup' : bare'.Nodup) :
    Sound { k with gZombies := zs, freed := t :: k.freed } bare' := by
  have hlive : ∀ u, Live { k with gZombies := zs, freed := t :: k.freed } u ↔
      u ≠ t ∧ k.Live u := fun u => by
    unfold Live
    rw [List.mem_cons, not_or]
    exact ⟨fun ⟨h₁, h₂, h₃⟩ => ⟨h₂, h₁, h₃⟩, fun ⟨h₂, h₁, h₃⟩ => ⟨h₁, h₂, h₃⟩⟩
  constructor
  case toQueues =>
    constructor <;> try simp only [hlive, hbare]
    case freed_lt =>
      intro u hu
      rcases List.mem_cons.mp hu with rfl | hu
      · exact hlt
      · exact h.freed_lt u hu
    case parent_lt => exact fun u hu => h.parent_lt u hu.2
    case bootstrap => exact ⟨hboot.symm, h.bootstrap⟩
    case image_bootstrap => exact h.image_bootstrap
    case bootstrap_not_bare => exact fun hm => h.bootstrap_not_bare hm.2
    case idle_live => exact ⟨hidle.symm, h.idle_live⟩
    case idle_state => exact h.idle_state
    case idle_not_bare => exact fun hm => h.idle_not_bare hm.2
    case image_idle => exact h.image_idle
    case bare_nodup => exact hnodup'
    case bare_live =>
      rintro u ⟨hut, hu⟩
      obtain ⟨hl, hs, hi⟩ := h.bare_live u hu
      exact ⟨⟨hut, hl⟩, hs, hi⟩
    case runq_nodup => exact h.runq_nodup
    case mem_runq =>
      intro u
      constructor
      · intro hu
        obtain ⟨hl, hs, hb⟩ := (h.mem_runq u).mp hu
        exact ⟨⟨fun hut => hrunq (hut ▸ hu), hl⟩, hs, fun hm => hb hm.2⟩
      · rintro ⟨⟨hut, hl⟩, hs, hb⟩
        exact (h.mem_runq u).mpr ⟨hl, hs, fun hm => hb ⟨hut, hm⟩⟩
    case zombies_nodup => exact hnodup
    case zombie =>
      intro u hu
      obtain ⟨hz, hut⟩ := hzs u hu
      obtain ⟨hl, hs⟩ := h.zombie u hz
      exact ⟨⟨hut, hl⟩, hs⟩
    case children_nodup => exact fun p hp => h.children_nodup p hp.2
    case child =>
      intro p hp c hc
      obtain ⟨hl, hz, hb, hpar⟩ := h.child p hp.2 c hc
      exact ⟨⟨fun hct => hchild p hp.2 (hct ▸ hc), hl⟩, fun hm => hz (hzs c hm).1,
        fun hm => hb hm.2, hpar⟩
  case current_live => exact (hlive _).mpr ⟨hcurrent.symm, h.current_live⟩
  case running => exact fun u hu => h.running u ((hlive u).mp hu).2
  case not_ready => exact h.not_ready

theorem Running.discard (h : k.Running bare) (ht : t ∈ bare) :
    (k.discard t).Sound (bare.erase t) := by
  obtain ⟨hl, hready, -⟩ := h.bare_live t ht
  refine @Sound.free _ _ _ h.toSound _ k.gZombies (fun heq => h.bootstrap_not_bare (heq ▸ ht))
    (fun heq => h.idle_not_bare (heq ▸ ht)) (fun heq => ?_) hl.1
    (fun hm => ((h.mem_runq t).mp hm).2.2 ht) (fun p hp hm => (h.child p hp t hm).2.2.1 ht)
    (fun u hu => ⟨hu, fun hut => ?_⟩) h.zombies_nodup (fun u => h.bare_nodup.mem_erase_iff)
    (h.bare_nodup.erase t)
  · exact h.not_ready (heq ▸ hready)
  · exact absurd (hready.symm.trans (h.zombie t (hut ▸ hu)).2) (by decide)

theorem Sound.zombies (h : k.Sound bare) {zs : List Tid} (hzs : ∀ u ∈ zs, u ∈ k.gZombies)
    (hnodup : zs.Nodup) : Sound { k with gZombies := zs } bare :=
  { h with
    zombies_nodup := hnodup
    zombie := fun u hu => h.zombie u (hzs u hu)
    child := fun p hp c hc => by
      obtain ⟨hl, hz, hb, hpar⟩ := h.child p hp c hc
      exact ⟨hl, fun hm => hz (hzs c hm), hb, hpar⟩ }

/-- **`kill_zombies`.** -/
theorem Running.killZombie (h : k.Running bare) (hk : k.killZombie = some k') :
    k'.Running bare := by
  obtain ⟨z, rest, hz, rfl⟩ := killZombie_eq_some hk
  have hnodup := List.nodup_cons.mp (hz ▸ h.zombies_nodup)
  have hmem : z ∈ k.gZombies := hz ▸ List.mem_cons_self
  obtain ⟨hlive, hstate⟩ := h.zombie z hmem
  have hsub : ∀ u ∈ rest, u ∈ k.gZombies ∧ u ≠ z := fun u hu =>
    ⟨hz ▸ List.mem_cons_of_mem _ hu, fun huz => hnodup.1 (huz ▸ hu)⟩
  have hbare : z ∉ bare := fun hm =>
    absurd (hstate.symm.trans (h.bare_live z hm).2.1) (by decide)
  refine ⟨?_, h.current_running⟩
  by_cases hboot : z = gBootstrap
  · simp only [if_pos hboot]
    exact h.toSound.zombies (fun u hu => (hsub u hu).1) hnodup.2
  · simp only [if_neg hboot]
    refine h.toSound.free hboot (fun hi => ?_) (fun hc => ?_) hlive.1 (fun hm => ?_)
      (fun p hp hm => (h.child p hp z hm).2.1 hmem) hsub hnodup.2 (fun u => ?_) h.bare_nodup
    · rcases h.idle_state with hs | hs
      · exact absurd (hstate.symm.trans (hi ▸ hs)) (by decide)
      · exact absurd (hstate.symm.trans (hi ▸ hs)) (by decide)
    · exact absurd (hstate.symm.trans (hc ▸ h.current_running)) (by decide)
    · exact absurd (hstate.symm.trans ((h.mem_runq z).mp hm).2.1) (by decide)
    · exact ⟨fun hu => ⟨fun huz => hbare (huz ▸ hu), hu⟩, And.right⟩

/-! ## Finding a thread -/

/-- What is below `g_bootstrap` has not been freed. -/
theorem Queues.live_of_reaches (h : k.Queues bare)
    (ht : Forest.Reaches k.children gBootstrap t) : k.Live t := by
  induction ht with
  | refl => exact h.bootstrap
  | tail _ hc ih => exact (h.child _ ih _ hc).1

theorem stopTarget_some {pid : BitVec 32} (ht : k.stopTarget pid = some t) :
    Forest.Reaches k.children gBootstrap t ∧ (k.thread t).pid = pid ∧
      (k.thread t).image = true := by
  obtain ⟨hfind, himage⟩ := Option.filter_eq_some_iff.mp ht
  obtain ⟨hpid, hreach⟩ := Forest.search_some (Option.join_eq_some_iff.mp hfind)
  exact ⟨hreach, of_decide_eq_true hpid, himage⟩

/-! ## Booting -/

theorem running_boot (freq : BitVec 64) : (boot freq).Running [] := by
  have hlive : ∀ t, (boot freq).Live t ↔ t = gBootstrap ∨ t = idle := fun t => by
    match t with
    | 0 => exact ⟨fun _ => Or.inl rfl, fun _ => ⟨Nat.zero_lt_two, List.not_mem_nil⟩⟩
    | 1 => exact ⟨fun _ => Or.inr rfl, fun _ => ⟨Nat.one_lt_two, List.not_mem_nil⟩⟩
    | n + 2 =>
      refine ⟨fun h => absurd h.1 (Nat.not_lt.mpr (Nat.le_add_left 2 n)), ?_⟩
      rintro (h | h) <;> cases h
  constructor
  · constructor
    case toQueues =>
      constructor <;> try simp only [hlive]
      case freed_lt => exact fun t ht => absurd ht List.not_mem_nil
      case parent_lt =>
        rintro t (rfl | rfl) p hp
        · cases hp
        · obtain rfl : gBootstrap = p := Option.some.inj hp
          exact Nat.zero_lt_two
      case bootstrap => exact Or.inl trivial
      case image_bootstrap => rfl
      case bootstrap_not_bare => exact List.not_mem_nil
      case idle_live => exact Or.inr trivial
      case idle_state => exact Or.inl rfl
      case idle_not_bare => exact List.not_mem_nil
      case image_idle => rfl
      case bare_nodup => exact List.nodup_nil
      case bare_live => exact fun t ht => absurd ht List.not_mem_nil
      case runq_nodup => exact List.nodup_singleton _
      case mem_runq =>
        intro t
        show t ∈ [idle] ↔ _
        rw [List.mem_singleton]
        constructor
        · rintro rfl
          exact ⟨Or.inr rfl, rfl, List.not_mem_nil⟩
        · rintro ⟨rfl | rfl, hs, -⟩
          · cases hs
          · rfl
      case zombies_nodup => exact List.nodup_nil
      case zombie => exact fun t ht => absurd ht List.not_mem_nil
      case children_nodup =>
        rintro p (rfl | rfl)
        · exact List.nodup_singleton _
        · exact List.nodup_nil
      case child =>
        rintro p (rfl | rfl) c hc
        · obtain rfl : c = idle := List.mem_singleton.mp hc
          exact ⟨Or.inr rfl, List.not_mem_nil, List.not_mem_nil, rfl⟩
        · cases hc
    case current_live => exact (hlive _).mpr (Or.inl rfl)
    case running =>
      intro t ht hs
      rcases (hlive t).mp ht with rfl | rfl
      · rfl
      · cases hs
    case not_ready =>
      intro hs
      cases hs
  · rfl

/-! ## The current thread stays -/

theorem state_created (hu : u ≠ k.count) (image : Bool) (f : Frame) :
    ((k.threadAllocBare.modify k.count fun x => { x with image := image }).linkThread k.count
      k.current f).state u = k.state u := by
  have hadd := state_modify (k := k.threadAllocBare.modify k.count fun x =>
    { x with image := image }) (t := k.current) (u := u)
    (f := fun x => { x with children := x.children ++ [k.count] }) fun _ => rfl
  refine hadd.trans ?_
  rw [state_modify (by intro; rfl), Kernel.state, thread_threadAllocBare_of_ne hu]
  rfl

theorem thread_addChild : (k.addChild p c).thread u =
    { k.thread u with children := (k.addChild p c).children u } := by
  unfold addChild Kernel.children
  rw [thread_modify]
  split_ifs with hu
  · rw [hu]
  · rfl

theorem thread_created (hu : u ≠ k.count) (image : Bool) (f : Frame) :
    ((k.threadAllocBare.modify k.count fun x => { x with image := image }).linkThread k.count
      k.current f).thread u = { k.thread u with
        children := Kernel.children ((k.threadAllocBare.modify k.count fun x =>
          { x with image := image }).linkThread k.count k.current f) u } := by
  have hbase : (k.threadAllocBare.modify k.count fun x => { x with image := image }).thread u =
      k.thread u := by
    rw [thread_modify, if_neg hu]
    exact thread_threadAllocBare_of_ne hu
  refine (thread_addChild (p := k.current) (c := k.count)).trans ?_
  rw [hbase]
  rfl

theorem state_created_self (image : Bool) (f : Frame) :
    ((k.threadAllocBare.modify k.count fun x => { x with image := image }).linkThread k.count
      k.current f).state k.count = .ready := by
  refine (state_modify (k := k.threadAllocBare.modify k.count fun x =>
    { x with image := image }) (t := k.current)
    (f := fun x => { x with children := x.children ++ [k.count] }) fun _ => rfl).trans ?_
  rw [state_modify (by intro; rfl), Kernel.state,
    show k.threadAllocBare.thread k.count = _ from Function.update_self ..]

theorem image_created_self (image : Bool) (f : Frame) :
    (((k.threadAllocBare.modify k.count fun x => { x with image := image }).linkThread k.count
      k.current f).thread k.count).image = image := by
  refine (image_modify (k := k.threadAllocBare.modify k.count fun x =>
    { x with image := image }) (t := k.current)
    (f := fun x => { x with children := x.children ++ [k.count] }) fun _ => rfl).trans ?_
  rw [thread_modify, if_pos rfl]

theorem mem_children_created {x : Tid} (hu : u ≠ k.count) (image : Bool) (f : Frame)
    (hx : x ∈ k.children u) : x ∈ Kernel.children ((k.threadAllocBare.modify k.count fun x =>
      { x with image := image }).linkThread k.count k.current f) u := by
  have hbase : (k.threadAllocBare.modify k.count fun x => { x with image := image }).children u =
      k.children u := by
    rw [children_modify (by intro; rfl)]
    exact congrArg Thread.children (thread_threadAllocBare_of_ne hu)
  show x ∈ (Kernel.addChild _ k.current k.count).children u
  rw [children_addChild]
  split_ifs with huc
  · exact List.mem_append_left _ (huc ▸ hbase ▸ hx)
  · exact hbase ▸ hx

/-- The current thread is the parent of the new one. -/
theorem count_mem_children_created (image : Bool) (f : Frame) :
    k.count ∈ Kernel.children ((k.threadAllocBare.modify k.count fun x =>
      { x with image := image }).linkThread k.count k.current f) k.current := by
  show k.count ∈ (Kernel.addChild _ k.current k.count).children k.current
  rw [children_addChild, if_pos rfl]
  exact List.mem_append_right _ (List.mem_singleton_self _)

theorem Running.created (h : k.Running bare) (image : Bool) (f : Frame) :
    ((k.threadAllocBare.modify k.count fun x => { x with image := image }).linkThread k.count
      k.current f).Running bare :=
  ⟨h.toSound.created image f,
    (state_created h.current_live.ne_count image f).trans h.current_running⟩

theorem Running.threadCreate (h : k.Running bare) (ok : Bool) :
    (k.threadCreate ok).Running bare := by
  cases ok with
  | false => exact h
  | true => exact threadCreate_true ▸ h.created false .kernelThread

theorem Running.newUserThread (h : k.Running bare) (ok okImage : Bool) :
    (k.newUserThread ok okImage).1.Running bare := by
  unfold Kernel.newUserThread
  cases ok with
  | false => exact h
  | true =>
    cases okImage with
    | false => exact ⟨h.toSound.createFailed, h.current_running⟩
    | true => exact h.created true .user

theorem Running.threadAllocBare (h : k.Running bare) :
    k.threadAllocBare.Running (k.count :: bare) := by
  refine ⟨h.toSound.threadAllocBare, ?_⟩
  show (k.threadAllocBare.thread k.current).state = _
  rw [thread_threadAllocBare_of_ne h.current_live.ne_count]
  exact h.current_running

theorem Running.enqueueReady (h : k.Running bare) (ht : t ∈ bare) (image link : Bool) :
    (k.enqueueReady t image link).Running (bare.erase t) := by
  have hsound := h.toSound.enqueueReady ht image link
  have hlinks : (k.enqueueReady t image link).current = k.current := by
    unfold Kernel.enqueueReady
    cases link with
    | false => rfl
    | true =>
      show (Kernel.linkParent _ t).current = _
      unfold Kernel.linkParent
      split <;> rfl
  refine ⟨hsound, ?_⟩
  have hne : k.current ≠ t := fun hct => h.not_ready (hct ▸ (h.bare_live t ht).2.1)
  rw [hlinks]
  show (Kernel.setState _ t .ready).state k.current = _
  rw [state_setState, if_neg hne]
  have himage : (k.modify t fun x => { x with image := image }).state k.current = .running :=
    (state_modify (by intro; rfl)).trans h.current_running
  cases link with
  | false => exact himage
  | true =>
    show (Kernel.linkParent _ t).state _ = _
    unfold Kernel.linkParent
    split
    · exact himage
    · exact (state_modify (by intro; rfl)).trans himage

theorem Running.threadWakeup (h : k.Running bare) (hlive : k.Live t) :
    (k.threadWakeup t).Running bare := by
  have hne : k.state k.current ≠ .blocked := by
    rw [h.current_running]
    decide
  refine ⟨h.toSound.threadWakeup hne hlive, ?_⟩
  rw [current_threadWakeup, state_threadWakeup_of_ne hne]
  exact h.current_running

end Kernel

namespace Api

variable {s s' : Api} {c : Call}

theorem call_stopTarget {pid : BitVec 32} {r : Api × Bool} (h : s.k.Running s.bare)
    (hne : ∀ t, s.k.stopTarget pid = some t → t ≠ s.k.current)
    (hr : s.stopTarget pid = some r) :
    r.1.k.Sound r.1.bare ∧ (r.2 = false → r.1.k.Running r.1.bare) := by
  unfold stopTarget at hr
  cases ht : s.k.stopTarget pid with
  | none =>
    rw [ht] at hr
    obtain rfl := Option.some.inj hr
    exact ⟨h.toSound, fun _ => h⟩
  | some t =>
    rw [ht] at hr
    dsimp only at hr
    split_ifs at hr with hpar
    obtain rfl := Option.some.inj hr
    obtain ⟨hreach, -, himage⟩ := Kernel.stopTarget_some ht
    obtain ⟨hsound, hrunning⟩ := h.terminateThread (h.live_of_reaches hreach) himage hpar
    exact ⟨hsound, fun _ => hrunning (hne t ht)⟩

/-- **Every call keeps the invariant** up to its `schedule`, and the current thread gives up the
state `RUNNING` only if there is one. -/
theorem sound_call {r : Api × Bool} (h : s.k.Running s.bare) (hr : s.call c = some r) :
    r.1.k.Sound r.1.bare ∧ (r.2 = false → r.1.k.Running r.1.bare) := by
  cases c with
  | threadCreate ok =>
    obtain rfl := Option.some.inj hr
    have hk := h.threadCreate ok
    exact ⟨hk.toSound, fun _ => hk⟩
  | threadAllocBare ok =>
    obtain rfl := Option.some.inj hr
    cases ok with
    | false => exact ⟨h.toSound, fun _ => h⟩
    | true => exact ⟨h.threadAllocBare.toSound, fun _ => h.threadAllocBare⟩
  | threadEnqueueReady t image link =>
    rw [call] at hr
    split_ifs at hr with ht
    obtain rfl := Option.some.inj hr
    have hk := h.enqueueReady ht.1 image link
    exact ⟨hk.toSound, fun _ => hk⟩
  | discard t =>
    rw [call] at hr
    split_ifs at hr with ht
    obtain rfl := Option.some.inj hr
    exact ⟨h.discard ht, fun _ => ⟨h.discard ht, h.current_running⟩⟩
  | newUserThread ok okImage =>
    obtain rfl := Option.some.inj hr
    have hk := h.newUserThread ok okImage
    exact ⟨hk.toSound, fun _ => hk⟩
  | schedule =>
    obtain rfl := Option.some.inj hr
    exact ⟨h.toSound, fun _ => h⟩
  | threadBlock =>
    rw [call] at hr
    split_ifs at hr with hidle
    obtain rfl := Option.some.inj hr
    exact ⟨h.threadBlock hidle, nofun⟩
  | threadWakeup t =>
    rw [call] at hr
    split_ifs at hr with ht
    obtain rfl := Option.some.inj hr
    exact ⟨(h.threadWakeup ht).toSound, fun _ => h.threadWakeup ht⟩
  | threadExit =>
    rw [call] at hr
    split_ifs at hr with ht
    obtain rfl := Option.some.inj hr
    exact ⟨h.threadExit ht.1, nofun⟩
  | sysExit status =>
    rw [call] at hr
    split_ifs at hr with ht
    obtain rfl := Option.some.inj hr
    exact ⟨h.exitCurrent ht.1 ht.2 status, nofun⟩
  | sysStop pid =>
    rw [call] at hr
    split_ifs at hr with himage hpid hpar
    · obtain rfl := Option.some.inj hr
      exact ⟨h.exitCurrent himage hpar (-1), nofun⟩
    · refine call_stopTarget h (fun t ht => ?_) hr
      rintro rfl
      exact hpid (Kernel.stopTarget_some ht).2.1.symm
  | shellStopPid pid =>
    rw [call] at hr
    split_ifs at hr with hboot
    refine call_stopTarget h (fun t ht => ?_) hr
    rintro rfl
    have himage := (Kernel.stopTarget_some ht).2.2
    rw [hboot, h.image_bootstrap] at himage
    cases himage
  | signalDefaultTerminate t =>
    rw [call] at hr
    split_ifs at hr with ht hcurrent
    · obtain rfl := Option.some.inj hr
      exact ⟨(h.terminateThread ht.1 ht.2.1 ht.2.2).1, nofun⟩
    · obtain rfl := Option.some.inj hr
      obtain ⟨hsound, hrunning⟩ := h.terminateThread ht.1 ht.2.1 ht.2.2
      exact ⟨hsound, fun _ => hrunning hcurrent⟩
  | schedZombify t =>
    rw [call] at hr
    split_ifs at hr with ht
    obtain rfl := Option.some.inj hr
    have hsound := h.toSound.collect ht.1 ht.2.1 ht.2.2.1
    exact ⟨hsound, fun _ => ⟨hsound, h.current_running⟩⟩
  | killZombies =>
    rw [call] at hr
    split_ifs at hr
    obtain rfl := Option.some.inj hr
    cases hk : s.k.killZombie with
    | none => exact ⟨h.toSound, fun _ => h⟩
    | some k' => exact ⟨(h.killZombie hk).toSound, fun _ => h.killZombie hk⟩

/-- **A step keeps the invariant.** -/
theorem running_step (h : s.k.Running s.bare) (hs : s.step c = some s') :
    s'.k.Running s'.bare := by
  obtain ⟨⟨r, b⟩, hr, rfl⟩ := Option.map_eq_some_iff.mp hs
  obtain ⟨hsound, hrunning⟩ := sound_call h hr
  cases b with
  | false => exact hrunning rfl
  | true => exact hsound.reschedule

theorem running_of_reachable {freq : BitVec 64} (hs : Reachable step anyStep (boot freq) s) :
    s.k.Running s.bare :=
  hs.invariant (P := fun s => s.k.Running s.bare) (Kernel.running_boot freq)
    fun _ _ _ h _ hs => running_step h hs

/-- **The queues of the scheduler**, after any run of calls: the current thread is the one that is
`RUNNING`; the run queue holds each thread that is `READY` and has been enqueued once, and no other;
a zombie that waits to be freed is on no list of children.  The thread that `kill_zombies` frees
next is neither the current one nor on the run queue.  Whenever a call goes on with `schedule`,
`schedule` finds a thread. -/
theorem queues_of_reachable (freq : BitVec 64)
    (hs : Reachable step anyStep (boot freq) s) :
    (∀ t, s.k.Live t → (s.k.state t = .running ↔ t = s.k.current)) ∧ s.k.Live s.k.current ∧
      s.k.gRunq.Nodup ∧
      (∀ t, t ∈ s.k.gRunq ↔ s.k.Live t ∧ s.k.state t = .ready ∧ t ∉ s.bare) ∧
      s.k.gZombies.Nodup ∧
      (∀ t ∈ s.k.gZombies, s.k.Live t ∧ s.k.state t = .zombie ∧
        ∀ p, s.k.Live p → t ∉ s.k.children p) ∧
      (∀ z ∈ s.k.gZombies, z ≠ s.k.current ∧ z ∉ s.k.gRunq) ∧
      ∀ c r, s.call c = some (r, true) → r.k.schedule.2 ≠ none := by
  have h := running_of_reachable hs
  refine ⟨fun t ht => ⟨h.running t ht, ?_⟩, h.current_live, h.runq_nodup, h.mem_runq,
    h.zombies_nodup, fun t ht => ?_, fun z hz => ⟨?_, fun hm => ?_⟩, fun c r hr => ?_⟩
  · rintro rfl
    exact h.current_running
  · obtain ⟨hl, hstate⟩ := h.zombie t ht
    exact ⟨hl, hstate, fun p hp hm => (h.child p hp t hm).2.1 ht⟩
  · rintro rfl
    exact absurd (h.current_running.symm.trans (h.zombie _ hz).2) (by decide)
  · exact absurd (((h.mem_runq z).mp hm).2.1.symm.trans (h.zombie z hz).2) (by decide)
  · exact (sound_call h hr).1.schedule_ne_none

/-- The shell runs a program and waits for it, the program exits, and the shell collects it. -/
def runProgram : List Call :=
  [.newUserThread true true, .threadBlock, .schedule, .sysExit 3, .schedule, .schedZombify 2]

theorem queues_of_runProgram : ∃ s, Reachable step anyStep (boot 320) s ∧
    s.k.gZombies = [2] ∧ s.k.current = gBootstrap ∧ 2 ∉ s.k.gRunq ∧
    2 ∉ s.k.children gBootstrap := by
  have hrun : (runList step (boot 320) runProgram).map (fun s => (s.k.gZombies, s.k.current)) =
      some ([2], gBootstrap) := by decide +kernel
  obtain ⟨s, hs, hv⟩ := Option.map_eq_some_iff.mp hrun
  obtain ⟨hz, hc⟩ := Prod.mk.inj hv
  have hreach := reachable_of_runList hs
  obtain ⟨-, hcurrent, -, -, -, hzombie, hnot, -⟩ := queues_of_reachable 320 hreach
  have hmem : 2 ∈ s.k.gZombies := hz ▸ List.mem_singleton_self _
  exact ⟨s, hreach, hz, hc, (hnot 2 hmem).2, (hzombie 2 hmem).2.2 _ (hc ▸ hcurrent)⟩

end Api
end Sched
end OscKernel
