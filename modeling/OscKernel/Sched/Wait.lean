import OscKernel.Sched.Tree

/-!
# Waiting for a child (`sys_waitpid`, `sys_exit`, `sys_stop`, `signal_default_terminate`)

Kernel code that is switched at its calls of `schedule` only.  A thread that waits is in the loop of
`sys_waitpid` or `run_user_program`: it looks at its child, and blocks when the child is no zombie.
Next to the kernel the state keeps the status that each thread recorded when it terminated, and
the children that were collected.

A timer callback may wake any thread between two steps.  The parent of a process may have been
freed while the process runs on; what `thread_wakeup` finds in that memory is then another thread,
or none.

* `WaitState.step`: one call, up to the `schedule` in it, or one round of the loop.
* `WaitState.Handshake`: the invariant between the two parties.
* `WaitState.wait_of_reachable`: waiting and terminating agree in every run in which `g_next_tid`
  does not overflow.
* `WaitState.waits_of_wrap`: a run in which it does, and a pid that was collected is waited for.
-/

namespace OscKernel
namespace Sched

open Transition

/-- `if (t->parent) thread_wakeup(t->parent);`, where a freed parent has made room for `reuse`. -/
def Kernel.wakeupParentAt (k : Kernel) (t : Tid) (reuse : Option Tid) : Kernel :=
  match (k.parent t).bind fun par => if par ∈ k.freed then reuse else some par with
  | none => k
  | some par => k.threadWakeup par

/-- A loop that waits for the end of a child. -/
inductive Wait where
  | sysWaitpid (child : Tid)
  | runUserProgram (child : Tid)
  deriving DecidableEq

/-- The child that is waited for. -/
def Wait.child : Wait → Tid
  | .sysWaitpid c => c
  | .runUserProgram c => c

/-- The kernel, who waits, and what has happened. -/
structure WaitState where
  k : Kernel
  wait : Tid → Option Wait
  /-- The status that a thread recorded when it terminated. -/
  recorded : Tid → Option (BitVec 32)
  /-- The children that were collected, and their pids. -/
  collected : List (Tid × BitVec 32)

/-- What can happen.  `reuse` is the thread in the memory of a parent that has been freed. -/
inductive Event where
  | runUserProgram (ok okImage : Bool)
  | fork (ok okImage : Bool)
  | exit (status : BitVec 64) (reuse : Option Tid)
  | stop (pid : BitVec 64) (reuse : Option Tid)
  | shellStopPid (pid : BitVec 32) (reuse : Option Tid)
  /-- `signal_default_terminate` on the way back to U-mode. -/
  | signal (reuse : Option Tid)
  | waitpid (pid : BitVec 64)
  /-- The loop of `sys_waitpid` or `run_user_program` looks at the child. -/
  | look
  /-- `thread_block`, for another reason. -/
  | block
  | schedule
  /-- `thread_wakeup`, from a callback. -/
  | wakeup (t : Tid)
  /-- One round of `kill_zombies`. -/
  | reap
  deriving DecidableEq

/-- `thread_alloc_bare` is called, which hands out a pid. -/
def Event.creates : Event → Bool
  | .runUserProgram _ _ | .fork _ _ => true
  | _ => false

namespace WaitState

variable (s : WaitState)

/-- `t` has terminated with the kernel `k₁`, and its parent is woken. -/
def terminated (k₁ : Kernel) (t : Tid) (status : BitVec 32) (reuse : Option Tid) : WaitState :=
  { s with
    k := k₁.wakeupParentAt t reuse
    recorded := Function.update s.recorded t (some status) }

/-- The call goes on with `schedule`. -/
def reschedule : WaitState := { s with k := s.k.reschedule }

/-- `sys_exit`. -/
def exit (status : BitVec 64) (reuse : Option Tid) : WaitState :=
  (s.terminated (s.k.sysExit status) s.k.current (status.setWidth 32) reuse).reschedule

/-- `sys_stop` on another process, and `shell_stop_pid`. -/
def stopPid (pid : BitVec 32) (reuse : Option Tid) : WaitState :=
  match s.k.stopTarget pid with
  | none => s
  | some t => s.terminated (s.k.terminate t) t (-1) reuse

/-- One round of the loop that waits. -/
def look (w : Wait) : Option WaitState :=
  let self := s.k.current
  if w.child ∈ s.k.freed then none
  else if s.k.state w.child = .zombie then
    let k := s.k.collect w.child
    some
      { s with
        k := match w with
          | .sysWaitpid child => k.setA0 self (Kernel.toLong (s.k.thread child).exitStatus)
          | .runUserProgram _ => k
        wait := Function.update s.wait self none
        collected := (w.child, (s.k.thread w.child).pid) :: s.collected }
  else some { s with k := s.k.threadBlock.reschedule }

/-- A call of a thread that does not wait. -/
def call : Event → Option WaitState
  | .runUserProgram ok okImage =>
      if s.k.current = gBootstrap then
        let r := s.k.threadSpawnUser ok okImage
        some { s with
          k := r.1
          wait := Function.update s.wait s.k.current (r.2.map .runUserProgram) }
      else none
  | .fork ok okImage =>
      if (s.k.thread s.k.current).image then
        some { s with k := (s.k.doSyscall { kmalloc := ok, image := okImage } false .fork).1 }
      else none
  | .exit status reuse =>
      if (s.k.thread s.k.current).image ∧ ∀ u ∈ reuse, s.k.Live u then some (s.exit status reuse)
      else none
  | .stop pid reuse =>
      if (s.k.thread s.k.current).image ∧ ∀ u ∈ reuse, s.k.Live u then
        if pid.setWidth 32 = (s.k.thread s.k.current).pid then some (s.exit (-1) reuse)
        else
          let s' := s.stopPid (pid.setWidth 32) reuse
          let found := (s.k.stopTarget (pid.setWidth 32)).isSome
          some { s' with k := s'.k.setA0 s.k.current (if found then 0 else -1) }
      else none
  | .shellStopPid pid reuse =>
      if s.k.current = gBootstrap ∧ ∀ u ∈ reuse, s.k.Live u then some (s.stopPid pid reuse)
      else none
  | .signal reuse =>
      if (s.k.thread s.k.current).image ∧ ∀ u ∈ reuse, s.k.Live u then
        some (s.terminated (s.k.terminate s.k.current) s.k.current (-1) reuse).reschedule
      else none
  | .waitpid pid =>
      if (s.k.thread s.k.current).image then
        match s.k.waitTarget pid with
        | none => some { s with k := s.k.setA0 s.k.current (-1) }
        | some child =>
            some { s with wait := Function.update s.wait s.k.current (some (.sysWaitpid child)) }
      else none
  | .block =>
      if s.k.current = idle then none else some { s with k := s.k.threadBlock.reschedule }
  | .schedule => some s.reschedule
  | .reap => if s.k.current = idle then some { s with k := s.k.killZombie.getD s.k } else none
  | .look | .wakeup _ => none

/-- An event. -/
def step (s : WaitState) : Event → Option WaitState
  | .wakeup t => if s.k.Live t then some { s with k := s.k.threadWakeup t } else none
  | .look => (s.wait s.k.current).bind s.look
  | e => if s.wait s.k.current = none then s.call e else none

/-- The guard of the runs in which `t->tid = g_next_tid++` does not overflow.  The source does not
check it; behind `INT_MAX` the pids come round again. -/
def NoWrap (s : WaitState) (e : Event) : Prop := e.creates = true → s.k.gNextTid ≠ Kernel.intMax

instance (s : WaitState) (e : Event) : Decidable (s.NoWrap e) := inferInstanceAs (Decidable (_ → _))

/-- The state that `sched_init` leaves behind. -/
def boot (freq : BitVec 64) : WaitState := ⟨Kernel.boot freq, fun _ => none, fun _ => none, []⟩

/-- Nobody sleeps on a zombie; a thread that waits waits for a child of its own; a zombie holds
the status it recorded; what was collected is gone or waits to be freed. -/
structure Handshake : Prop where
  sound : s.k.Sound []
  numbered : s.k.Numbered
  bootstrap : s.k.state gBootstrap ≠ .zombie
  image : ∀ t, s.k.Live t → (s.k.thread t).image = true → s.k.state t ≠ .zombie
  recorded : ∀ t, s.k.Live t → s.k.state t = .zombie →
    s.recorded t = some (s.k.thread t).exitStatus
  wait_none : ∀ t, s.k.count ≤ t → s.wait t = none
  child : ∀ t w, s.k.Live t → s.k.state t ≠ .zombie → s.wait t = some w →
    w.child ∈ s.k.children t
  asleep : ∀ t w, s.k.Live t → s.k.state t = .blocked → s.wait t = some w →
    s.k.state w.child ≠ .zombie
  gone : ∀ p ∈ s.collected, p.1 < s.k.count ∧ p.2 = BitVec.ofNat 32 p.1 ∧
    (s.k.Live p.1 → p.1 ∈ s.k.gZombies)
  nodup : (s.collected.map Prod.fst).Nodup
  idle_wait : s.wait idle = none
  unrecorded : ∀ t, s.k.count ≤ t ∨ s.k.Live t ∧ s.k.state t ≠ .zombie → s.recorded t = none

end WaitState

namespace Kernel

variable {k k' k'' : Kernel} {bare : List Tid} {t u c p : Tid} {reuse : Option Tid}

/-! ## Steps that only schedule -/

/-- The threads are as before but for who is ready, and nobody has fallen asleep. -/
structure Calm (k k' : Kernel) : Prop where
  count : k'.count = k.count
  next : k'.gNextTid = k.gNextTid
  thread : ∀ u, k'.thread u = { k.thread u with state := k'.state u }
  zombie : ∀ u, k'.state u = .zombie ↔ k.state u = .zombie
  blocked : ∀ u, k'.state u = .blocked → k.state u = .blocked
  live : ∀ u, k'.Live u → k.Live u
  gone : ∀ u, k'.Live u → u ∈ k.gZombies → u ∈ k'.gZombies

theorem Calm.refl (k : Kernel) : Calm k k :=
  ⟨rfl, rfl, fun _ => rfl, fun _ => .rfl, fun _ => id, fun _ => id, fun _ _ => id⟩

theorem Calm.trans (h : Calm k k') (h' : Calm k' k'') : Calm k k'' where
  count := h'.count.trans h.count
  next := h'.next.trans h.next
  thread u := by rw [h'.thread, h.thread]
  zombie u := (h'.zombie u).trans (h.zombie u)
  blocked u hu := h.blocked u (h'.blocked u hu)
  live u hu := h.live u (h'.live u hu)
  gone u hu hz := h'.gone u hu (h.gone u (h'.live u hu) hz)

/-- A change of state that is neither a termination nor a sleep. -/
theorem calm_setState {s : ThreadState} (hold : k.state t ≠ .zombie) (hz : s ≠ .zombie)
    (hb : s ≠ .blocked) : Calm k (k.setState t s) where
  count := rfl
  next := rfl
  thread u := by
    rw [state_setState, setState, thread_modify]
    split_ifs with hu
    · rw [hu]
    · rfl
  zombie u := by
    rw [state_setState]
    split_ifs with hu
    · rw [hu]
      exact ⟨fun h => absurd h hz, fun h => absurd h hold⟩
    · exact .rfl
  blocked u hu := by
    rw [state_setState] at hu
    split_ifs at hu with hut
    · exact absurd hu hb
    · exact hu
  live _ := id
  gone _ _ := id

/-- The run queue, the current thread and the results of system calls do not matter here. -/
theorem Calm.congr (h : Calm k k') (hthread : k''.thread = k'.thread)
    (hcount : k''.count = k'.count) (hnext : k''.gNextTid = k'.gNextTid)
    (hfreed : k''.freed = k'.freed) (hzombies : k''.gZombies = k'.gZombies) : Calm k k'' where
  count := hcount.trans h.count
  next := hnext.trans h.next
  thread u := by
    unfold Kernel.state
    rw [hthread]
    exact h.thread u
  zombie u := by
    unfold Kernel.state
    rw [hthread]
    exact h.zombie u
  blocked u := by
    unfold Kernel.state
    rw [hthread]
    exact h.blocked u
  live u hu := h.live u ⟨hcount ▸ hu.1, hfreed ▸ hu.2⟩
  gone u hu := by
    rw [hzombies]
    exact h.gone u ⟨hcount ▸ hu.1, hfreed ▸ hu.2⟩

theorem calm_setA0 (v : BitVec 64) : Calm k (k.setA0 t v) := (Calm.refl k).congr rfl rfl rfl rfl rfl

theorem calm_threadWakeup : Calm k (k.threadWakeup t) := by
  unfold threadWakeup
  split_ifs with ht
  · exact (calm_setState (s := .ready) (t := t) (by rw [ht]; decide) (by decide)
      (by decide)).congr rfl rfl rfl rfl rfl
  · exact .refl k

theorem calm_wakeupParentAt : Calm k (k.wakeupParentAt t reuse) := by
  unfold wakeupParentAt
  split
  · exact .refl k
  · exact calm_threadWakeup

theorem calm_wakeupParent : Calm k (k.wakeupParent t) := by
  unfold wakeupParent
  split
  · exact .refl k
  · exact calm_threadWakeup

/-- The choice of `schedule`. -/
theorem Sound.calm_reschedule (h : k.Sound bare) : Calm k k.reschedule := by
  obtain ⟨hqueues, -, next, rest, hq⟩ := h.park
  have hready := ((hqueues.mem_runq next).mp (hq ▸ List.mem_cons_self)).2.1
  have hpark : Calm k (if k.state k.current = .running then
      (k.setState k.current .ready).enqueue k.current else k) := by
    split_ifs with hrun
    · exact (calm_setState (s := .ready) (t := k.current) (by rw [hrun]; decide) (by decide)
        (by decide)).congr rfl rfl rfl rfl rfl
    · exact .refl k
  rw [reschedule_eq rfl hq]
  exact (hpark.trans (calm_setState (s := .running) (t := next) (by rw [hready]; decide)
    (by decide) (by decide))).congr rfl rfl rfl rfl rfl

/-- The thread that is freed was no longer of interest to anybody. -/
theorem calm_killZombie (hboot : gBootstrap ∉ k.gZombies) : Calm k (k.killZombie.getD k) := by
  unfold killZombie
  cases hz : k.gZombies with
  | nil => exact .refl k
  | cons z rest =>
    have hzb : z ≠ gBootstrap := fun heq => hboot (hz ▸ heq ▸ List.mem_cons_self)
    refine ⟨rfl, rfl, fun _ => rfl, fun _ => .rfl, fun _ => id, fun u hu => ?_, fun u hu hm => ?_⟩
    · have hf : u ∉ z :: k.freed := by simpa [hzb] using hu.2
      exact ⟨hu.1, fun hm => hf (List.mem_cons_of_mem _ hm)⟩
    · have hf : u ∉ z :: k.freed := by simpa [hzb] using hu.2
      rw [hz] at hm
      exact (List.mem_cons.mp hm).resolve_left fun heq => hf (heq ▸ List.mem_cons_self)

theorem Running.killZombie_getD (h : k.Running bare) : (k.killZombie.getD k).Running bare := by
  cases hk : k.killZombie with
  | none => exact h
  | some k' => exact h.killZombie hk

theorem Calm.children (h : Calm k k') : k'.children u = k.children u := by
  show (k'.thread u).children = _
  rw [h.thread]
  rfl

theorem Calm.sameTree (h : Calm k k') : SameTree k k' :=
  ⟨h.count, h.next, fun _ => h.children, fun u => by rw [h.thread], h.live⟩

/-! ## Waking the parent -/

theorem Sound.wakeupParentAt (h : k.Sound bare) (hcurrent : k.state k.current ≠ .blocked)
    (hlive : k.Live t) (hreuse : ∀ u ∈ reuse, k.Live u) :
    (k.wakeupParentAt t reuse).Sound bare := by
  unfold Kernel.wakeupParentAt
  split
  · exact h
  · rename_i par hpar
    obtain ⟨p, hp, hif⟩ := Option.bind_eq_some_iff.mp hpar
    refine h.threadWakeup hcurrent ?_
    split_ifs at hif with hf
    · exact hreuse par hif
    · obtain rfl := Option.some.inj hif
      exact ⟨h.parent_lt t hlive p hp, hf⟩

theorem current_wakeupParentAt : (k.wakeupParentAt t reuse).current = k.current := by
  unfold wakeupParentAt
  split
  · rfl
  · exact current_threadWakeup

theorem state_wakeupParentAt_of_ne (hu : k.state u ≠ .blocked) :
    (k.wakeupParentAt t reuse).state u = k.state u := by
  unfold wakeupParentAt
  split
  · rfl
  · exact state_threadWakeup_of_ne hu

/-- A parent that has not been freed does not sleep on. -/
theorem wakeupParentAt_awake (hpar : k.parent t = some p) (hp : p ∉ k.freed) :
    (k.wakeupParentAt t reuse).state p ≠ .blocked := by
  unfold wakeupParentAt
  rw [hpar, Option.bind_some, if_neg hp]
  show (k.threadWakeup p).state p ≠ .blocked
  unfold threadWakeup
  split_ifs with hb
  · show (k.setState p .ready).state p ≠ _
    rw [state_setState, if_pos rfl]
    decide
  · exact hb

/-! ## Terminating -/

theorem thread_terminate : (k.terminate t).thread u =
    if u = t then { k.thread t with exitStatus := -1, state := .zombie, image := false }
    else k.thread u := by
  rw [terminate_eq]
  exact thread_modify (f := fun x => { x with exitStatus := -1, state := .zombie, image := false })

/-- A round of the loop of `sys_exit` writes links only. -/
theorem thread_reparent : (k.reparent c).thread u =
    { k.thread u with
      parent := (k.reparent c).parent u
      children := (k.reparent c).children u } := by
  unfold reparent addChild Kernel.parent Kernel.children
  rw [thread_modify, thread_modify, thread_modify]
  split_ifs <;> simp_all [listDelSibling]

theorem thread_reparentAll (cs : List Tid) : (cs.foldl reparent k).thread u =
    { k.thread u with
      parent := (cs.foldl reparent k).parent u
      children := (cs.foldl reparent k).children u } := by
  induction cs generalizing k with
  | nil => rfl
  | cons c cs ih =>
    rw [List.foldl_cons, ih, thread_reparent]

/-- Who is not handed over stays on its list. -/
theorem mem_children_reparentAll {cs : List Tid} {x : Tid} (hx : x ∈ k.children p) (hcs : x ∉ cs) :
    x ∈ (cs.foldl reparent k).children p := by
  induction cs generalizing k with
  | nil => exact hx
  | cons c cs ih =>
    obtain ⟨hxc, hcs⟩ := not_or.mp (List.mem_cons.not.mp hcs)
    refine ih (k := k.reparent c) ?_ hcs
    have herase : x ∈ (k.children p).erase c := (List.mem_erase_of_ne hxc).mpr hx
    rw [children_reparent]
    split_ifs with hp
    · exact List.mem_append_left _ (hp ▸ herase)
    · exact herase

theorem parent_reparentAll_of_not_mem {cs : List Tid} (hcs : u ∉ cs) :
    (cs.foldl reparent k).parent u = k.parent u := by
  induction cs generalizing k with
  | nil => rfl
  | cons c cs ih =>
    obtain ⟨huc, hcs⟩ := not_or.mp (List.mem_cons.not.mp hcs)
    rw [List.foldl_cons, ih hcs, parent_reparent, if_neg huc]

/-- `sys_exit` writes the links of other threads only. -/
theorem thread_sysExit (status : BitVec 64) : (k.sysExit status).thread u =
    { k.thread u with
      parent := (k.sysExit status).parent u
      children := (k.sysExit status).children u
      exitStatus := if u = k.current then status.setWidth 32 else (k.thread u).exitStatus
      state := if u = k.current then .zombie else k.state u
      image := if u = k.current then false else (k.thread u).image } := by
  have hexiting : ∀ v, (k.exiting status).thread v =
      { (k.modify k.current fun x => { x with exitStatus := status.setWidth 32 }).thread v with
        parent := (k.exiting status).parent v
        children := (k.exiting status).children v } := fun v => thread_reparentAll _
  unfold Kernel.parent Kernel.children
  rw [sysExit_eq, thread_modify, hexiting, hexiting, thread_modify, thread_modify]
  by_cases hu : u = k.current
  · subst hu
    simp only [if_pos]
  · simp only [if_neg hu]
    rfl

theorem gNextTid_reparentAll (cs : List Tid) : (cs.foldl reparent k).gNextTid = k.gNextTid := by
  induction cs generalizing k with
  | nil => rfl
  | cons c cs ih => exact ih

end Kernel

namespace WaitState
namespace Handshake

open Kernel

variable {s : WaitState} {k' : Kernel} {t : Tid} {w : Wait} {reuse : Option Tid}

/-! ## The operations -/

theorem running (h : s.Handshake) (hrun : s.k.state s.k.current = .running) : s.k.Running [] :=
  ⟨h.sound, hrun⟩

theorem calm (h : s.Handshake) (hsound : k'.Sound []) (hcalm : Calm s.k k') :
    Handshake { s with k := k' } where
  sound := hsound
  numbered := h.numbered.same hcalm.sameTree
  bootstrap hz := h.bootstrap ((hcalm.zombie _).mp hz)
  image t ht hi hz := by
    rw [hcalm.thread] at hi
    exact h.image t (hcalm.live t ht) hi ((hcalm.zombie t).mp hz)
  recorded t ht hz := by
    rw [hcalm.thread]
    exact h.recorded t (hcalm.live t ht) ((hcalm.zombie t).mp hz)
  wait_none t ht := h.wait_none t (hcalm.count ▸ ht)
  child t w ht hz hw := by
    show w.child ∈ k'.children t
    rw [hcalm.children]
    exact h.child t w (hcalm.live t ht) (fun hz' => hz ((hcalm.zombie t).mpr hz')) hw
  asleep t w ht hb hw hz := h.asleep t w (hcalm.live t ht) (hcalm.blocked t hb) hw
    ((hcalm.zombie _).mp hz)
  gone p hp := by
    obtain ⟨hlt, hpid, hgone⟩ := h.gone p hp
    exact ⟨hcalm.count ▸ hlt, hpid, fun hl => hcalm.gone _ hl (hgone (hcalm.live _ hl))⟩
  nodup := h.nodup
  idle_wait := h.idle_wait
  unrecorded t ht := h.unrecorded t (ht.imp (fun ht => hcalm.count ▸ ht) fun ht =>
    ⟨hcalm.live t ht.1, fun hz => ht.2 ((hcalm.zombie t).mpr hz)⟩)

theorem reschedule (h : s.Handshake) :
    s.reschedule.Handshake ∧ s.reschedule.k.state s.reschedule.k.current = .running :=
  have hrun := h.sound.reschedule
  ⟨h.calm hrun.toSound h.sound.calm_reschedule, hrun.current_running⟩

theorem setA0 (h : s.Handshake) (v : BitVec 64) : Handshake { s with k := s.k.setA0 t v } :=
  h.calm (h.sound.congr rfl rfl rfl rfl rfl rfl) (calm_setA0 v)

/-- **Going to sleep**, after a look at the child that is waited for. -/
theorem threadBlock (h : s.Handshake) (hrun : s.k.state s.k.current = .running)
    (hidle : s.k.current ≠ idle)
    (hw : ∀ w, s.wait s.k.current = some w → s.k.state w.child ≠ .zombie) :
    Handshake { s with k := s.k.threadBlock } := by
  have hstate : ∀ u, s.k.threadBlock.state u =
      if u = s.k.current then .blocked else s.k.state u := fun u => state_setState
  have hzombie : ∀ u, s.k.threadBlock.state u = .zombie ↔ s.k.state u = .zombie := fun u => by
    rw [hstate]
    split_ifs with hu
    · rw [hu, hrun]
      exact iff_of_false (by decide) (by decide)
    · exact .rfl
  have hthread : ∀ u, s.k.threadBlock.thread u =
      { s.k.thread u with state := s.k.threadBlock.state u } := fun u => by
    rw [hstate]
    unfold Kernel.threadBlock setState
    rw [thread_modify]
    split_ifs with hu
    · rw [hu]
    · rfl
  constructor
  case sound => exact (h.running hrun).threadBlock hidle
  case numbered => exact h.numbered.same (sameTree_setState .blocked)
  case bootstrap => exact fun hz => h.bootstrap ((hzombie _).mp hz)
  case image =>
    intro t ht hi hz
    change (s.k.threadBlock.thread t).image = true at hi
    rw [hthread] at hi
    exact h.image t ht hi ((hzombie t).mp hz)
  case recorded =>
    intro t ht hz
    show s.recorded t = some (s.k.threadBlock.thread t).exitStatus
    rw [hthread]
    exact h.recorded t ht ((hzombie t).mp hz)
  case wait_none => exact h.wait_none
  case child =>
    intro t w ht hz hwt
    show w.child ∈ (s.k.threadBlock.thread t).children
    rw [hthread]
    exact h.child t w ht (fun hz' => hz ((hzombie t).mpr hz')) hwt
  case asleep =>
    intro t w ht hb hwt hz
    have hz' := (hzombie _).mp hz
    change s.k.threadBlock.state t = .blocked at hb
    rw [hstate] at hb
    split_ifs at hb with htc
    · exact hw w (htc ▸ hwt) hz'
    · exact h.asleep t w ht hb hwt hz'
  case gone => exact h.gone
  case nodup => exact h.nodup
  case idle_wait => exact h.idle_wait
  case unrecorded =>
    exact fun t ht => h.unrecorded t (ht.imp id fun ht =>
      ⟨ht.1, fun hz => ht.2 ((hzombie t).mpr hz)⟩)

/-- **Terminating.**  Who sleeps on the thread is its parent, and is woken. -/
theorem terminated (h : s.Handshake) {k₁ : Kernel} (hsound : k₁.Sound [])
    (hcurrent : k₁.state k₁.current ≠ .blocked) (hlive : s.k.Live t) (hboot : t ≠ gBootstrap)
    (hcount : k₁.count = s.k.count) (hnext : k₁.gNextTid = s.k.gNextTid)
    (hfreed : k₁.freed = s.k.freed) (hzombies : k₁.gZombies = s.k.gZombies)
    (hold : ∀ u, u ≠ t → (k₁.thread u).pid = (s.k.thread u).pid ∧
      k₁.state u = s.k.state u ∧ (k₁.thread u).exitStatus = (s.k.thread u).exitStatus ∧
      (k₁.thread u).image = (s.k.thread u).image ∧
      (s.k.Live u → ∀ c ∈ s.k.children u, c ∈ k₁.children u))
    (hpid : (k₁.thread t).pid = (s.k.thread t).pid) (hz : k₁.state t = .zombie)
    (himage : (k₁.thread t).image = false)
    (hparent : ∀ u, u ≠ t → s.k.Live u → t ∈ s.k.children u → k₁.parent t = some u)
    (hreuse : ∀ u ∈ reuse, s.k.Live u) :
    (s.terminated k₁ t (k₁.thread t).exitStatus reuse).Handshake := by
  have hlive₁ : ∀ u, k₁.Live u ↔ s.k.Live u := fun u => by
    unfold Live
    rw [hcount, hfreed]
  have hcalm : Calm k₁ (k₁.wakeupParentAt t reuse) := calm_wakeupParentAt
  have hback : ∀ u, (k₁.wakeupParentAt t reuse).Live u → s.k.Live u := fun u hu =>
    (hlive₁ u).mp (hcalm.live u hu)
  constructor
  case sound =>
    exact hsound.wakeupParentAt hcurrent ((hlive₁ t).mpr hlive) fun u hu =>
      (hlive₁ u).mpr (hreuse u hu)
  case numbered =>
    refine Numbered.same (k := k₁) ⟨fun u hu => ?_, ?_, ?_⟩ hcalm.sameTree
    · by_cases hut : u = t
      · rw [hut, hpid]
        exact h.numbered.pid t hlive
      · rw [(hold u hut).1]
        exact h.numbered.pid u ((hlive₁ u).mp hu)
    · rw [hnext, hcount]
      exact h.numbered.next
    · rw [hcount]
      exact h.numbered.count_lt
  case bootstrap =>
    intro hzb
    have hzb₁ := (hcalm.zombie _).mp hzb
    rw [(hold _ hboot.symm).2.1] at hzb₁
    exact h.bootstrap hzb₁
  case image =>
    intro u hu hi hzu
    change ((k₁.wakeupParentAt t reuse).thread u).image = true at hi
    rw [hcalm.thread] at hi
    have hut : u ≠ t := by
      rintro rfl
      rw [himage] at hi
      cases hi
    obtain ⟨-, hs, -, hi', -⟩ := hold u hut
    exact h.image u (hback u hu) (hi' ▸ hi) (hs ▸ (hcalm.zombie u).mp hzu)
  case recorded =>
    intro u hu hzu
    show Function.update s.recorded t _ u = some ((k₁.wakeupParentAt t reuse).thread u).exitStatus
    rw [hcalm.thread, Function.update_apply]
    split_ifs with hut
    · rw [hut]
    · obtain ⟨-, hs, he, -⟩ := hold u hut
      rw [he]
      exact h.recorded u (hback u hu) (hs ▸ (hcalm.zombie u).mp hzu)
  case wait_none => exact fun u hu => h.wait_none u (hcount ▸ hcalm.count ▸ hu)
  case child =>
    intro u w hu hzu hw
    show w.child ∈ (k₁.wakeupParentAt t reuse).children u
    rw [hcalm.children]
    have hut : u ≠ t := by
      rintro rfl
      exact hzu ((hcalm.zombie u).mpr hz)
    obtain ⟨-, hs, -, -, hc⟩ := hold u hut
    exact hc (hback u hu) _
      (h.child u w (hback u hu) (fun hz' => hzu ((hcalm.zombie u).mpr (hs.trans hz'))) hw)
  case asleep =>
    intro u w hu hb hw hzw
    have hb₁ := hcalm.blocked u hb
    have hut : u ≠ t := by
      rintro rfl
      exact absurd (hz.symm.trans hb₁) (by decide)
    have hbu : s.k.state u = .blocked := (hold u hut).2.1 ▸ hb₁
    have hul := hback u hu
    by_cases hwt : w.child = t
    · -- the sleeper is the parent, and is awake now
      have hmem : t ∈ s.k.children u :=
        hwt ▸ h.child u w hul (by rw [hbu]; decide) hw
      exact wakeupParentAt_awake (hparent u hut hul hmem) ((hlive₁ u).mpr hul).2 hb
    · have hzw₁ := (hcalm.zombie _).mp hzw
      rw [(hold _ hwt).2.1] at hzw₁
      exact h.asleep u w hul hbu hw hzw₁
  case gone =>
    intro p hp
    obtain ⟨hlt, hppid, hgone⟩ := h.gone p hp
    refine ⟨hcalm.count ▸ hcount ▸ hlt, hppid, fun hl => hcalm.gone _ hl ?_⟩
    rw [hzombies]
    exact hgone (hback _ hl)
  case nodup => exact h.nodup
  case idle_wait => exact h.idle_wait
  case unrecorded =>
    intro u hu
    have hut : u ≠ t := by
      rintro rfl
      rcases hu with hu | hu
      · exact Nat.not_lt.mpr (hcount ▸ hcalm.count ▸ hu) hlive.1
      · exact hu.2 ((hcalm.zombie u).mpr hz)
    refine (Function.update_of_ne hut ..).trans
      (h.unrecorded u (hu.imp (fun hu => ?_) fun hu => ?_))
    · exact hcount ▸ hcalm.count ▸ hu
    · exact ⟨hback u hu.1, fun hz' => hu.2 ((hcalm.zombie u).mpr ((hold u hut).2.1.trans hz'))⟩

/-- A thread that was not terminated yet. -/
theorem alive (h : s.Handshake) (ht : s.k.Live t) (hi : (s.k.thread t).image = true) :
    s.k.state t ≠ .zombie ∧ t ≠ gBootstrap := by
  refine ⟨h.image t ht hi, ?_⟩
  rintro rfl
  rw [h.sound.image_bootstrap] at hi
  cases hi

/-- `sys_stop`, `shell_stop_pid` and `signal_default_terminate`. -/
theorem terminate (h : s.Handshake) (hrun : s.k.state s.k.current = .running) (ht : s.k.Live t)
    (hi : (s.k.thread t).image = true) (hreuse : ∀ u ∈ reuse, s.k.Live u) :
    (s.terminated (s.k.terminate t) t (-1) reuse).Handshake := by
  have hself : (s.k.terminate t).thread t =
      { s.k.thread t with exitStatus := -1, state := .zombie, image := false } := by
    rw [thread_terminate, if_pos rfl]
  have hstatus : ((s.k.terminate t).thread t).exitStatus = -1 := by rw [hself]
  have hlinks := sameLinks_terminate (k := s.k) (t := t)
  rw [← hstatus]
  refine h.terminated (h.sound.terminate ht hi) ?_ ht (h.alive ht hi).2 hlinks.count
    (by rw [terminate_eq]; rfl) hlinks.freed hlinks.zombies (fun u hu => ?_) (by rw [hself])
    (by rw [state_terminate, if_pos rfl]) (by rw [hself]) (fun u _ hul hmem => ?_) hreuse
  · rw [current_terminate, state_terminate]
    split_ifs
    · decide
    · rw [hrun]
      decide
  · unfold Kernel.state Kernel.children
    rw [thread_terminate, if_neg hu]
    exact ⟨rfl, rfl, rfl, rfl, fun _ _ => id⟩
  · rw [hlinks.parent]
    exact (h.sound.child u hul t hmem).2.2.2

/-- **`sys_exit`** up to `schedule`. -/
theorem sysExit (h : s.Handshake) (hrun : s.k.state s.k.current = .running)
    (hi : (s.k.thread s.k.current).image = true) (status : BitVec 64)
    (hreuse : ∀ u ∈ reuse, s.k.Live u) :
    (s.terminated (s.k.sysExit status) s.k.current (status.setWidth 32) reuse).Handshake := by
  have hlive := h.sound.current_live
  obtain ⟨hsound, hzombie⟩ := (h.running hrun).sysExit hi status
  have hsame := exiting_same (k := s.k) status
  have hchildren : ∀ u, (s.k.modify s.k.current fun x =>
      { x with exitStatus := status.setWidth 32 }).children u = s.k.children u := fun u =>
    children_modify (by intro; rfl)
  have hstatus : ((s.k.sysExit status).thread s.k.current).exitStatus = status.setWidth 32 := by
    rw [thread_sysExit]
    exact if_pos rfl
  rw [← hstatus]
  refine h.terminated hsound ?_ hlive (h.alive hlive hi).2 hsame.1 ?_ hsame.2.1 hsame.2.2.2.1
    (fun u hu => ?_) ?_ hzombie ?_ (fun u hu hul hmem => ?_) hreuse
  · have hcurrent : (s.k.sysExit status).current = s.k.current := hsame.2.2.2.2.1
    rw [hcurrent, hzombie]
    decide
  · exact gNextTid_reparentAll _
  · refine ⟨?_, ?_, ?_, ?_, fun hul c hc => ?_⟩
    · rw [thread_sysExit]
    · show ((s.k.sysExit status).thread u).state = _
      rw [thread_sysExit]
      exact if_neg hu
    · rw [thread_sysExit]
      exact if_neg hu
    · rw [thread_sysExit]
      exact if_neg hu
    · rw [sysExit_eq, children_modify (by intro; rfl)]
      refine mem_children_reparentAll (by rw [hchildren]; exact hc) fun hcs => hu ?_
      -- a thread is on one list only
      rw [hchildren] at hcs
      have hp := (h.sound.child u hul c hc).2.2.2
      rw [(h.sound.child s.k.current hlive c hcs).2.2.2] at hp
      exact (Option.some.inj hp).symm
  · rw [thread_sysExit]
  · rw [thread_sysExit]
    exact if_pos rfl
  · have hp := (h.sound.child u hul s.k.current hmem).2.2.2
    have hnot : s.k.current ∉ s.k.children s.k.current := fun hm => by
      rw [(h.sound.child s.k.current hlive _ hm).2.2.2] at hp
      exact hu (Option.some.inj hp).symm
    rw [sysExit_eq, parent_modify (by intro; rfl)]
    refine (parent_reparentAll_of_not_mem (by rw [hchildren]; exact hnot)).trans ?_
    rw [parent_modify (by intro; rfl)]
    exact hp

/-- **A new child** of the current thread. -/
theorem created (h : s.Handshake) (hnext : s.k.gNextTid ≠ intMax) (image : Bool) (f : Frame) :
    Handshake { s with
      k := (s.k.threadAllocBare.modify s.k.count fun x => { x with image := image }).linkThread
        s.k.count s.k.current f } := by
  have hlive : ∀ {u}, Kernel.Live ((s.k.threadAllocBare.modify s.k.count fun x =>
      { x with image := image }).linkThread s.k.count s.k.current f) u →
      s.k.Live u ∨ u = s.k.count := fun hu => (live_threadAllocBare h.sound).mp hu
  have hstate : ∀ {u}, u ≠ s.k.count → Kernel.state
      ((s.k.threadAllocBare.modify s.k.count fun x => { x with image := image }).linkThread
        s.k.count s.k.current f) u = s.k.state u := fun hu => state_created hu image f
  have hready := state_created_self (k := s.k) image f
  have hthread := fun (u : Tid) (hu : u ≠ s.k.count) => thread_created (k := s.k) hu image f
  constructor
  case sound => exact h.sound.created image f
  case numbered => exact h.numbered.created h.sound hnext image f
  case bootstrap =>
    intro hz
    exact h.bootstrap ((hstate h.sound.bootstrap.ne_count) ▸ hz)
  case image =>
    intro u hu hi hz
    rcases hlive hu with hu | rfl
    · rw [hstate hu.ne_count] at hz
      change (Kernel.thread _ u).image = true at hi
      rw [hthread u hu.ne_count] at hi
      exact h.image u hu hi hz
    · exact absurd (hready.symm.trans hz) (by decide)
  case recorded =>
    intro u hu hz
    rcases hlive hu with hu | rfl
    · rw [hstate hu.ne_count] at hz
      show s.recorded u = some (Kernel.thread _ u).exitStatus
      rw [hthread u hu.ne_count]
      exact h.recorded u hu hz
    · exact absurd (hready.symm.trans hz) (by decide)
  case wait_none => exact fun u hu => h.wait_none u (Nat.le_of_succ_le hu)
  case child =>
    intro u w hu hz hw
    rcases hlive hu with hu | rfl
    · rw [hstate hu.ne_count] at hz
      exact mem_children_created hu.ne_count image f (h.child u w hu hz hw)
    · rw [h.wait_none _ (Nat.le_refl _)] at hw
      cases hw
  case asleep =>
    intro u w hu hb hw
    rcases hlive hu with hu | rfl
    · rw [hstate hu.ne_count] at hb
      have hchild := (h.sound.child u hu _ (h.child u w hu (by rw [hb]; decide) hw)).1
      show Kernel.state _ w.child ≠ _
      rw [hstate hchild.ne_count]
      exact h.asleep u w hu hb hw
    · rw [h.wait_none _ (Nat.le_refl _)] at hw
      cases hw
  case gone =>
    intro p hp
    obtain ⟨hlt, hpid, hgone⟩ := h.gone p hp
    exact ⟨Nat.lt_succ_of_lt hlt, hpid, fun hl =>
      hgone ((hlive hl).resolve_right (Nat.ne_of_lt hlt))⟩
  case nodup => exact h.nodup
  case idle_wait => exact h.idle_wait
  case unrecorded =>
    rintro u (hu | ⟨hu, hz⟩)
    · exact h.unrecorded u (Or.inl (Nat.le_of_succ_le hu))
    · rcases hlive hu with hu | rfl
      · exact h.unrecorded u (Or.inr ⟨hu, fun hz' => hz ((hstate hu.ne_count).trans hz')⟩)
      · exact h.unrecorded _ (Or.inl (Nat.le_refl _))

/-- There was no memory for the image of the child. -/
theorem createFailed (h : s.Handshake) (hnext : s.k.gNextTid ≠ intMax) : Handshake { s with
    k := { s.k with
      count := s.k.count + 1, gNextTid := s.k.gNextTid + 1,
      freed := s.k.count :: s.k.freed } } where
  sound := h.sound.createFailed
  numbered := h.numbered.createFailed hnext
  bootstrap := h.bootstrap
  image u hu := h.image u (live_createFailed hu)
  recorded u hu := h.recorded u (live_createFailed hu)
  wait_none u hu := h.wait_none u (Nat.le_of_succ_le hu)
  child u w hu := h.child u w (live_createFailed hu)
  asleep u w hu := h.asleep u w (live_createFailed hu)
  gone p hp := by
    obtain ⟨hlt, hpid, hgone⟩ := h.gone p hp
    exact ⟨Nat.lt_succ_of_lt hlt, hpid, fun hl => hgone (live_createFailed hl)⟩
  nodup := h.nodup
  idle_wait := h.idle_wait
  unrecorded u hu := h.unrecorded u (hu.imp Nat.le_of_succ_le fun hu =>
    ⟨live_createFailed hu.1, hu.2⟩)

/-- `thread_spawn_user` and the new thread of `sys_fork`. -/
theorem newUserThread (h : s.Handshake) (hnext : s.k.gNextTid ≠ intMax) (ok okImage : Bool) :
    Handshake { s with k := (s.k.newUserThread ok okImage).1 } := by
  unfold Kernel.newUserThread
  cases ok with
  | false => exact h
  | true =>
    cases okImage with
    | false => exact h.createFailed hnext
    | true => exact h.created hnext true .user

/-- The current thread begins to wait. -/
theorem startWait (h : s.Handshake) (hrun : s.k.state s.k.current = .running)
    (hidle : s.k.current ≠ idle) (hw : w.child ∈ s.k.children s.k.current) :
    Handshake { s with wait := Function.update s.wait s.k.current (some w) } where
  sound := h.sound
  numbered := h.numbered
  bootstrap := h.bootstrap
  image := h.image
  recorded := h.recorded
  wait_none u hu := by
    show Function.update s.wait _ _ u = none
    rw [Function.update_of_ne]
    · exact h.wait_none u hu
    · rintro rfl
      exact Nat.not_lt.mpr hu h.sound.current_live.1
  child u v hu hz hv := by
    change Function.update s.wait _ _ u = some v at hv
    rw [Function.update_apply] at hv
    split_ifs at hv with huc
    · rw [← Option.some.inj hv, huc]
      exact hw
    · exact h.child u v hu hz hv
  asleep u v hu hb hv := by
    change Function.update s.wait _ _ u = some v at hv
    rw [Function.update_apply] at hv
    split_ifs at hv with huc
    · rw [huc] at hb
      exact absurd (hrun.symm.trans hb) (by decide)
    · exact h.asleep u v hu hb hv
  gone := h.gone
  nodup := h.nodup
  idle_wait := (Function.update_of_ne hidle.symm ..).trans h.idle_wait
  unrecorded := h.unrecorded

/-- **Collecting the child.** -/
theorem collect (h : s.Handshake) (hrun : s.k.state s.k.current = .running)
    (hw : s.wait s.k.current = some w) (hz : s.k.state w.child = .zombie) :
    Handshake { s with
      k := s.k.collect w.child
      wait := Function.update s.wait s.k.current none
      collected := (w.child, (s.k.thread w.child).pid) :: s.collected } := by
  have hcl := h.sound.current_live
  have hmem := h.child s.k.current w hcl (by rw [hrun]; decide) hw
  obtain ⟨hlive, hnz, -, hpar⟩ := h.sound.child _ hcl _ hmem
  have hother : ∀ u v, u ≠ s.k.current → s.k.Live u → s.k.state u ≠ .zombie →
      s.wait u = some v → v.child ∈ (s.k.children u).erase w.child := fun u v hu hul huz hv => by
    have hv' := h.child u v hul huz hv
    refine (List.mem_erase_of_ne fun heq => hu ?_).mpr hv'
    -- a thread is on one list only
    have hp := (h.sound.child u hul _ hv').2.2.2
    rw [heq, hpar] at hp
    exact (Option.some.inj hp).symm
  have hupdate : ∀ {u v}, Function.update s.wait s.k.current none u = some v →
      u ≠ s.k.current ∧ s.wait u = some v := fun {u v} hv => by
    rw [Function.update_apply] at hv
    split_ifs at hv with huc
    exact ⟨huc, hv⟩
  constructor
  case sound => exact h.sound.collect hlive hz hnz
  case numbered => exact ⟨h.numbered.pid, h.numbered.next, h.numbered.count_lt⟩
  case bootstrap => exact h.bootstrap
  case image => exact h.image
  case recorded => exact h.recorded
  case wait_none =>
    intro u hu
    refine Option.eq_none_iff_forall_not_mem.mpr fun v hv => ?_
    have hv' := (hupdate hv).2
    rw [h.wait_none u hu] at hv'
    cases hv'
  case child =>
    intro u v hu huz hv
    obtain ⟨huc, hv'⟩ := hupdate hv
    exact hother u v huc hu huz hv'
  case asleep =>
    intro u v hu hb hv
    exact h.asleep u v hu hb (hupdate hv).2
  case gone =>
    intro p hp
    rcases List.mem_cons.mp hp with rfl | hp
    · exact ⟨hlive.1, h.numbered.pid _ hlive, fun _ =>
        List.mem_append_right _ (List.mem_singleton_self _)⟩
    · obtain ⟨hlt, hpid, hgone⟩ := h.gone p hp
      exact ⟨hlt, hpid, fun hl => List.mem_append_left _ (hgone hl)⟩
  case nodup =>
    show (w.child :: s.collected.map Prod.fst).Nodup
    refine List.nodup_cons.mpr ⟨fun hm => ?_, h.nodup⟩
    obtain ⟨p, hp, heq⟩ := List.mem_map.mp hm
    exact hnz (heq ▸ (h.gone p hp).2.2 (heq ▸ hlive))
  case idle_wait =>
    refine Option.eq_none_iff_forall_not_mem.mpr fun v hv => ?_
    have hv' := (hupdate hv).2
    rw [h.idle_wait] at hv'
    cases hv'
  case unrecorded => exact h.unrecorded

/-- A process is not the idle thread. -/
theorem ne_idle (h : s.Handshake) (hi : (s.k.thread s.k.current).image = true) :
    s.k.current ≠ idle := by
  intro heq
  rw [heq, h.sound.image_idle] at hi
  cases hi

theorem exit (h : s.Handshake) (hrun : s.k.state s.k.current = .running)
    (hi : (s.k.thread s.k.current).image = true) (status : BitVec 64)
    (hreuse : ∀ u ∈ reuse, s.k.Live u) :
    (s.exit status reuse).Handshake ∧
      (s.exit status reuse).k.state (s.exit status reuse).k.current = .running :=
  (h.sysExit hrun hi status hreuse).reschedule

/-- A process that stops another goes on running. -/
theorem stopPid (h : s.Handshake) (hrun : s.k.state s.k.current = .running) {pid : BitVec 32}
    (hpid : pid ≠ (s.k.thread s.k.current).pid ∨ s.k.current = gBootstrap)
    (hreuse : ∀ u ∈ reuse, s.k.Live u) :
    (s.stopPid pid reuse).Handshake ∧
      (s.stopPid pid reuse).k.state (s.stopPid pid reuse).k.current = .running := by
  unfold WaitState.stopPid
  cases ht : s.k.stopTarget pid with
  | none => exact ⟨h, hrun⟩
  | some t =>
    obtain ⟨hreach, hp, hi⟩ := stopTarget_some ht
    have hlive := h.sound.live_of_reaches hreach
    have hne : s.k.current ≠ t := by
      rintro rfl
      rcases hpid with hpid | hboot
      · exact hpid hp.symm
      · exact (h.alive hlive hi).2 hboot
    have hstate : (s.k.terminate t).state s.k.current = .running := by
      rw [state_terminate, if_neg hne]
      exact hrun
    have hcurrent : ((s.k.terminate t).wakeupParentAt t reuse).current = s.k.current :=
      current_wakeupParentAt.trans current_terminate
    refine ⟨h.terminate hrun hlive hi hreuse, ?_⟩
    show ((s.k.terminate t).wakeupParentAt t reuse).state
      ((s.k.terminate t).wakeupParentAt t reuse).current = .running
    rw [hcurrent, state_wakeupParentAt_of_ne (by rw [hstate]; decide)]
    exact hstate

/-- One round of a loop that waits. -/
theorem look (h : s.Handshake) (hrun : s.k.state s.k.current = .running) {s' : WaitState}
    (hw : s.wait s.k.current = some w) (hs : s.look w = some s') :
    s'.Handshake ∧ s'.k.state s'.k.current = .running := by
  unfold WaitState.look at hs
  dsimp only at hs
  split_ifs at hs with hf hz
  · obtain rfl := Option.some.inj hs
    have hcollect := h.collect hrun hw hz
    cases w with
    | sysWaitpid c => exact ⟨hcollect.setA0 _, hrun⟩
    | runUserProgram c => exact ⟨hcollect, hrun⟩
  · obtain rfl := Option.some.inj hs
    have hidle : s.k.current ≠ idle := by
      intro heq
      rw [heq, h.idle_wait] at hw
      cases hw
    exact (h.threadBlock hrun hidle fun v hv => Option.some.inj (hw.symm.trans hv) ▸ hz).reschedule

/-- The new thread of `sys_fork` and the results. -/
theorem fork (h : s.Handshake) (hrun : s.k.state s.k.current = .running)
    (hi : (s.k.thread s.k.current).image = true) (hnext : s.k.gNextTid ≠ intMax)
    (ok okImage : Bool) : Handshake { s with
      k := (s.k.doSyscall { kmalloc := ok, image := okImage } false .fork).1 } ∧
    Kernel.state (s.k.doSyscall { kmalloc := ok, image := okImage } false .fork).1
      (s.k.doSyscall { kmalloc := ok, image := okImage } false .fork).1.current = .running := by
  have hnew := h.newUserThread hnext ok okImage
  have hrun' := ((h.running hrun).newUserThread ok okImage).current_running
  unfold doSyscall
  dsimp only
  rw [if_pos hi]
  rcases hr : s.k.newUserThread ok okImage with ⟨k', _ | ch⟩
  · rw [hr] at hnew hrun'
    exact ⟨hnew.setA0 _, hrun'⟩
  · rw [hr] at hnew hrun'
    exact ⟨(hnew.setA0 _).setA0 _, hrun'⟩

/-- The shell starts a program and waits for it. -/
theorem runUserProgram (h : s.Handshake) (hrun : s.k.state s.k.current = .running)
    (hcurrent : s.k.current = gBootstrap) (hw : s.wait s.k.current = none)
    (hnext : s.k.gNextTid ≠ intMax) (ok okImage : Bool) : Handshake { s with
      k := (s.k.threadSpawnUser ok okImage).1
      wait := Function.update s.wait s.k.current
        ((s.k.threadSpawnUser ok okImage).2.map .runUserProgram) } := by
  have hnew := h.newUserThread hnext ok okImage
  have hrun' := ((h.running hrun).newUserThread ok okImage).current_running
  unfold threadSpawnUser
  have hnone : Function.update s.wait s.k.current none = s.wait := by
    rw [← hw, Function.update_eq_self]
  unfold Kernel.newUserThread at hnew hrun' ⊢
  have hidle : s.k.current ≠ idle := by
    rw [hcurrent]
    decide
  cases ok with
  | false =>
    show Handshake { s with wait := Function.update s.wait s.k.current none }
    rw [hnone]
    exact h
  | true =>
    cases okImage with
    | false =>
      show Handshake { s with
        k := { s.k with
          count := s.k.count + 1, gNextTid := s.k.gNextTid + 1, freed := s.k.count :: s.k.freed }
        wait := Function.update s.wait s.k.current none }
      rw [hnone]
      exact hnew
    | true => exact hnew.startWait hrun' hidle (count_mem_children_created true .user)

/-- A call of a thread that does not wait. -/
theorem call (h : s.Handshake) (hrun : s.k.state s.k.current = .running) {e : Event}
    {s' : WaitState} (hw : s.wait s.k.current = none) (hG : s.NoWrap e)
    (hs : s.call e = some s') : s'.Handshake ∧ s'.k.state s'.k.current = .running := by
  cases e with
  | runUserProgram ok okImage =>
    rw [WaitState.call] at hs
    split_ifs at hs with hg
    obtain rfl := Option.some.inj hs
    exact ⟨h.runUserProgram hrun hg hw (hG rfl) ok okImage,
      ((h.running hrun).newUserThread ok okImage).current_running⟩
  | fork ok okImage =>
    rw [WaitState.call] at hs
    split_ifs at hs with hg
    obtain rfl := Option.some.inj hs
    exact h.fork hrun hg (hG rfl) ok okImage
  | exit status reuse =>
    rw [WaitState.call] at hs
    split_ifs at hs with hg
    obtain rfl := Option.some.inj hs
    exact h.exit hrun hg.1 status hg.2
  | stop pid reuse =>
    rw [WaitState.call] at hs
    split_ifs at hs with hg hself
    · obtain rfl := Option.some.inj hs
      exact h.exit hrun hg.1 (-1) hg.2
    · obtain rfl := Option.some.inj hs
      obtain ⟨hstop, hrun'⟩ := h.stopPid hrun (Or.inl hself) hg.2
      exact ⟨hstop.setA0 _, hrun'⟩
  | shellStopPid pid reuse =>
    rw [WaitState.call] at hs
    split_ifs at hs with hg
    obtain rfl := Option.some.inj hs
    exact h.stopPid hrun (Or.inr hg.1) hg.2
  | signal reuse =>
    rw [WaitState.call] at hs
    split_ifs at hs with hg
    obtain rfl := Option.some.inj hs
    exact (h.terminate hrun h.sound.current_live hg.1 hg.2).reschedule
  | waitpid pid =>
    rw [WaitState.call] at hs
    split_ifs at hs with hi
    cases ht : s.k.waitTarget pid with
    | none =>
      rw [ht] at hs
      obtain rfl := Option.some.inj hs
      exact ⟨h.setA0 _, hrun⟩
    | some child =>
      rw [ht] at hs
      obtain rfl := Option.some.inj hs
      exact ⟨h.startWait hrun (h.ne_idle hi) (List.mem_of_find?_eq_some ht), hrun⟩
  | block =>
    rw [WaitState.call] at hs
    split_ifs at hs with hidle
    obtain rfl := Option.some.inj hs
    refine (h.threadBlock hrun hidle fun w hw' => ?_).reschedule
    rw [hw] at hw'
    cases hw'
  | schedule =>
    obtain rfl := Option.some.inj hs
    exact h.reschedule
  | reap =>
    rw [WaitState.call] at hs
    split_ifs at hs with hidle
    obtain rfl := Option.some.inj hs
    have hboot : gBootstrap ∉ s.k.gZombies := fun hm => h.bootstrap (h.sound.zombie _ hm).2
    have hk := (h.running hrun).killZombie_getD
    exact ⟨h.calm hk.toSound (calm_killZombie hboot), hk.current_running⟩
  | look => cases hs
  | wakeup t => cases hs

/-- **An event.** -/
theorem step (h : s.Handshake) (hrun : s.k.state s.k.current = .running) {e : Event}
    {s' : WaitState} (hG : s.NoWrap e) (hs : s.step e = some s') :
    s'.Handshake ∧ s'.k.state s'.k.current = .running := by
  have hcall : ∀ e, s.NoWrap e → (if s.wait s.k.current = none then s.call e else none) = some s' →
      s'.Handshake ∧ s'.k.state s'.k.current = .running := fun e hG hs => by
    split_ifs at hs with hw
    exact h.call hrun hw hG hs
  cases e with
  | wakeup t =>
    rw [WaitState.step] at hs
    split_ifs at hs with ht
    obtain rfl := Option.some.inj hs
    have hk := (h.running hrun).threadWakeup ht
    exact ⟨h.calm hk.toSound calm_threadWakeup, hk.current_running⟩
  | look =>
    obtain ⟨w, hw, hl⟩ := Option.bind_eq_some_iff.mp hs
    exact h.look hrun hw hl
  | _ => exact hcall _ hG hs

/-! ## What stays as it was -/

/-- A status that was recorded is not replaced, and nobody stops waiting. -/
def Keeps (s s' : WaitState) : Prop :=
  (∀ u st, s.recorded u = some st → s'.recorded u = some st) ∧
    ∀ u w, s.wait u = some w → s'.wait u = some w

theorem keeps_terminated (h : s.Handshake) (hlive : s.k.Live t) (hz : s.k.state t ≠ .zombie)
    {k₁ : Kernel} {st : BitVec 32} : Keeps s (s.terminated k₁ t st reuse) := by
  refine ⟨fun u st' hu => (Function.update_of_ne ?_ ..).trans hu, fun _ _ => id⟩
  rintro rfl
  rw [h.unrecorded u (Or.inr ⟨hlive, hz⟩)] at hu
  cases hu

theorem keeps_stopPid (h : s.Handshake) {pid : BitVec 32} : Keeps s (s.stopPid pid reuse) := by
  unfold WaitState.stopPid
  cases ht : s.k.stopTarget pid with
  | none => exact ⟨fun _ _ => id, fun _ _ => id⟩
  | some t =>
    obtain ⟨hreach, -, hi⟩ := stopTarget_some ht
    have hlive := h.sound.live_of_reaches hreach
    exact h.keeps_terminated hlive (h.alive hlive hi).1

/-- The current thread begins to wait, or does not. -/
theorem keeps_update (hw : s.wait s.k.current = none) (ow : Option Wait) :
    Keeps s { s with k := k', wait := Function.update s.wait s.k.current ow } := by
  refine ⟨fun _ _ => id, fun u w hu => (Function.update_of_ne ?_ ..).trans hu⟩
  rintro rfl
  rw [hw] at hu
  cases hu

theorem keeps_call (h : s.Handshake) {e : Event} {s' : WaitState}
    (hw : s.wait s.k.current = none) (hs : s.call e = some s') : Keeps s s' := by
  have hself : ∀ k₁ st reuse, (s.k.thread s.k.current).image = true →
      Keeps s (s.terminated k₁ s.k.current st reuse) := fun _ _ _ hi =>
    h.keeps_terminated h.sound.current_live (h.alive h.sound.current_live hi).1
  cases e with
  | runUserProgram ok okImage =>
    rw [WaitState.call] at hs
    split_ifs at hs
    exact Option.some.inj hs ▸ keeps_update hw _
  | fork ok okImage =>
    rw [WaitState.call] at hs
    split_ifs at hs
    exact Option.some.inj hs ▸ ⟨fun _ _ => id, fun _ _ => id⟩
  | exit status reuse =>
    rw [WaitState.call] at hs
    split_ifs at hs with hg
    obtain rfl := Option.some.inj hs
    exact hself (s.k.sysExit status) (status.setWidth 32) reuse hg.1
  | stop pid reuse =>
    rw [WaitState.call] at hs
    split_ifs at hs with hg
    · obtain rfl := Option.some.inj hs
      exact hself (s.k.sysExit (-1)) ((-1 : BitVec 64).setWidth 32) reuse hg.1
    · exact Option.some.inj hs ▸ h.keeps_stopPid
  | shellStopPid pid reuse =>
    rw [WaitState.call] at hs
    split_ifs at hs
    exact Option.some.inj hs ▸ h.keeps_stopPid
  | signal reuse =>
    rw [WaitState.call] at hs
    split_ifs at hs with hg
    obtain rfl := Option.some.inj hs
    exact hself (s.k.terminate s.k.current) (-1) reuse hg.1
  | waitpid pid =>
    rw [WaitState.call] at hs
    split_ifs at hs
    cases ht : s.k.waitTarget pid with
    | none =>
      rw [ht] at hs
      exact Option.some.inj hs ▸ ⟨fun _ _ => id, fun _ _ => id⟩
    | some child =>
      rw [ht] at hs
      exact Option.some.inj hs ▸ keeps_update hw _
  | block =>
    rw [WaitState.call] at hs
    split_ifs at hs
    exact Option.some.inj hs ▸ ⟨fun _ _ => id, fun _ _ => id⟩
  | schedule => exact Option.some.inj hs ▸ ⟨fun _ _ => id, fun _ _ => id⟩
  | reap =>
    rw [WaitState.call] at hs
    split_ifs at hs
    exact Option.some.inj hs ▸ ⟨fun _ _ => id, fun _ _ => id⟩
  | look => cases hs
  | wakeup t => cases hs

/-- A wait ends when the waiter looks at a zombie, and in no other way. -/
theorem keeps_step (h : s.Handshake) {e : Event} {s' : WaitState} (hs : s.step e = some s') :
    (∀ u st, s.recorded u = some st → s'.recorded u = some st) ∧
      ∀ u w, s.wait u = some w → s'.wait u = some w ∨
        e = .look ∧ u = s.k.current ∧ s.k.state w.child = .zombie := by
  have hcall : ∀ {e'}, (if s.wait s.k.current = none then s.call e' else none) = some s' →
      (∀ u st, s.recorded u = some st → s'.recorded u = some st) ∧
        ∀ u w, s.wait u = some w → s'.wait u = some w ∨
          e = .look ∧ u = s.k.current ∧ s.k.state w.child = .zombie := fun hs => by
    split_ifs at hs with hw
    have hk := h.keeps_call hw hs
    exact ⟨hk.1, fun u w hu => Or.inl (hk.2 u w hu)⟩
  cases e with
  | wakeup t =>
    rw [WaitState.step] at hs
    split_ifs at hs
    exact Option.some.inj hs ▸ ⟨fun _ _ => id, fun _ _ => Or.inl⟩
  | look =>
    obtain ⟨v, hv, hl⟩ := Option.bind_eq_some_iff.mp hs
    unfold WaitState.look at hl
    dsimp only at hl
    split_ifs at hl with hf hz
    · obtain rfl := Option.some.inj hl
      refine ⟨fun _ _ => id, fun u w hu => ?_⟩
      by_cases huc : u = s.k.current
      · obtain rfl : v = w := Option.some.inj (hv.symm.trans (huc ▸ hu))
        exact Or.inr ⟨rfl, huc, hz⟩
      · exact Or.inl ((Function.update_of_ne huc ..).trans hu)
    · exact Option.some.inj hl ▸ ⟨fun _ _ => id, fun _ _ => Or.inl⟩
  | _ => exact hcall hs

/-! ## The results of `sys_waitpid` -/

/-- The pid names one child at most. -/
theorem waitTarget_eq (h : s.Handshake) {c : Tid} {pid : BitVec 64}
    (hc : c ∈ s.k.children s.k.current) (hpid : (s.k.thread c).pid = pid.setWidth 32) :
    s.k.waitTarget pid = some c := by
  cases ht : s.k.waitTarget pid with
  | none => exact absurd hpid (of_decide_eq_false (by simpa using List.find?_eq_none.mp ht c hc))
  | some d =>
    have hd : (s.k.thread d).pid = pid.setWidth 32 := of_decide_eq_true
      (List.find?_some (p := fun c => decide ((s.k.thread c).pid = pid.setWidth 32)) ht)
    have hlive : ∀ {x}, x ∈ s.k.children s.k.current → s.k.Live x := fun hx =>
      (h.sound.child _ h.sound.current_live _ hx).1
    rw [h.numbered.pid_inj (hlive (List.mem_of_find?_eq_some ht)) (hlive hc)
      (hd.trans hpid.symm)]

/-- Nobody is found whose pid is that of a child that was collected. -/
theorem collected_pid (h : s.Handshake) {p : Tid × BitVec 32} (hp : p ∈ s.collected) {c : Tid}
    (hc : c ∈ s.k.children s.k.current) : (s.k.thread c).pid ≠ p.2 := by
  intro heq
  obtain ⟨hlt, hpid, hgone⟩ := h.gone p hp
  obtain ⟨hlive, hz, -⟩ := h.sound.child _ h.sound.current_live c hc
  rw [h.numbered.pid c hlive, hpid] at heq
  have hsmall : ∀ {x}, x < s.k.count → x < 2 ^ 32 := fun hx =>
    Nat.lt_trans (Nat.lt_trans hx h.numbered.count_lt) (by decide)
  have hmod := congrArg BitVec.toNat heq
  rw [BitVec.toNat_ofNat, BitVec.toNat_ofNat, Nat.mod_eq_of_lt (hsmall hlive.1),
    Nat.mod_eq_of_lt (hsmall hlt)] at hmod
  exact hz (hmod ▸ hgone (hmod ▸ hlive))

theorem waitpid_none {pid : BitVec 64} (hi : (s.k.thread s.k.current).image = true)
    (hw : s.wait s.k.current = none)
    (hnone : ∀ c ∈ s.k.children s.k.current, (s.k.thread c).pid ≠ pid.setWidth 32) :
    s.step (.waitpid pid) = some { s with k := s.k.setA0 s.k.current (-1) } := by
  have ht : s.k.waitTarget pid = none := List.find?_eq_none.mpr fun c hc => by
    simpa using hnone c hc
  show (if s.wait s.k.current = none then s.call _ else none) = _
  rw [if_pos hw, WaitState.call, if_pos hi, ht]

theorem waitpid_some (h : s.Handshake) {pid : BitVec 64} {c : Tid}
    (hi : (s.k.thread s.k.current).image = true) (hw : s.wait s.k.current = none)
    (hc : c ∈ s.k.children s.k.current) (hpid : (s.k.thread c).pid = pid.setWidth 32) :
    s.step (.waitpid pid) =
      some { s with wait := Function.update s.wait s.k.current (some (.sysWaitpid c)) } := by
  show (if s.wait s.k.current = none then s.call _ else none) = _
  rw [if_pos hw, WaitState.call, if_pos hi, h.waitTarget_eq hc hpid]

/-- Nobody waits when the machine starts. -/
theorem boot (freq : BitVec 64) : (WaitState.boot freq).Handshake where
  sound := (running_boot freq).toSound
  numbered := (Api.tree_boot freq).toNumbered
  bootstrap := show ThreadState.running ≠ _ by decide
  image _ _ hi := by cases hi
  recorded t ht hz := by
    have hlt : t < 2 := ht.1
    match t with
    | 0 => cases hz
    | 1 => cases hz
    | n + 2 => exact absurd hlt (Nat.not_lt.mpr (Nat.le_add_left 2 n))
  wait_none _ _ := rfl
  child _ _ _ _ hw := by cases hw
  asleep _ _ _ _ hw := by cases hw
  gone _ hp := by cases hp
  nodup := List.nodup_nil
  idle_wait := rfl
  unrecorded _ _ := rfl

end Handshake

variable {s : WaitState}

theorem handshake_of_reachable {freq : BitVec 64} (hs : Reachable step NoWrap (boot freq) s) :
    s.Handshake ∧ s.k.state s.k.current = .running :=
  hs.invariant (P := fun s => s.Handshake ∧ s.k.state s.k.current = .running)
    ⟨.boot freq, (Kernel.running_boot freq).current_running⟩
    fun _ _ _ h hG hs => h.1.step h.2 hG hs

/-- **Waiting and terminating**, after any run in which `g_next_tid` does not overflow.

* Nobody sleeps on a child that is a zombie.
* `sys_waitpid` returns `-1` at once when no child of the caller has the pid, and else waits for
  the child that has it.
* The wait ends when the waiter looks at a child that has terminated, and in no other way; the
  result is the status that the child recorded, and a recorded status is not replaced.
* Every child is collected once at most, and its pid finds nobody afterwards. -/
theorem wait_of_reachable (freq : BitVec 64) (hs : Reachable step NoWrap (boot freq) s) :
    (∀ t w, s.k.Live t → s.k.state t = .blocked → s.wait t = some w →
      s.k.Live w.child ∧ s.k.state w.child ≠ .zombie) ∧
    (∀ pid : BitVec 64, (s.k.thread s.k.current).image = true → s.wait s.k.current = none →
      ((∀ c ∈ s.k.children s.k.current, (s.k.thread c).pid ≠ pid.setWidth 32) →
        s.step (.waitpid pid) = some { s with k := s.k.setA0 s.k.current (-1) }) ∧
      (∀ c ∈ s.k.children s.k.current, (s.k.thread c).pid = pid.setWidth 32 →
        s.step (.waitpid pid) = some
          { s with wait := Function.update s.wait s.k.current (some (.sysWaitpid c)) })) ∧
    (∀ w, s.wait s.k.current = some w → ∃ s', s.step .look = some s' ∧
      if s.k.state w.child = .zombie then
        ∃ status, s.recorded w.child = some status ∧ s'.wait s.k.current = none ∧
          s'.collected = (w.child, (s.k.thread w.child).pid) :: s.collected ∧
            ∀ c, w = .sysWaitpid c → s'.k.a0 s.k.current = Kernel.toLong status
      else s' = { s with k := s.k.threadBlock.reschedule }) ∧
    (∀ e s', s.step e = some s' →
      (∀ t status, s.recorded t = some status → s'.recorded t = some status) ∧
      ∀ t w, s.wait t = some w → s'.wait t = some w ∨
        e = .look ∧ t = s.k.current ∧ s.k.state w.child = .zombie) ∧
    (s.collected.map Prod.fst).Nodup ∧
    ∀ p ∈ s.collected, ∀ pid : BitVec 64, pid.setWidth 32 = p.2 →
      (s.k.thread s.k.current).image = true → s.wait s.k.current = none →
        s.step (.waitpid pid) = some { s with k := s.k.setA0 s.k.current (-1) } := by
  obtain ⟨h, hrun⟩ := handshake_of_reachable hs
  have hchild : ∀ t w, s.k.Live t → s.k.state t ≠ .zombie → s.wait t = some w →
      s.k.Live w.child := fun t w ht hz hw => (h.sound.child t ht _ (h.child t w ht hz hw)).1
  refine ⟨fun t w ht hb hw => ⟨hchild t w ht (by rw [hb]; decide) hw, h.asleep t w ht hb hw⟩,
    fun pid hi hw => ⟨Handshake.waitpid_none hi hw, fun c hc hpid => h.waitpid_some hi hw hc hpid⟩,
    fun w hw => ?_, fun e s' hs => h.keeps_step hs, h.nodup,
    fun p hp pid hpid hi hw =>
      Handshake.waitpid_none hi hw fun c hc => hpid ▸ h.collected_pid hp hc⟩
  have hlive := hchild _ w h.sound.current_live (by rw [hrun]; decide) hw
  have hlook : s.step .look = s.look w := by
    show (s.wait s.k.current).bind s.look = _
    rw [hw]
    rfl
  rw [hlook, look]
  dsimp only
  rw [if_neg hlive.2]
  split_ifs with hz
  · refine ⟨_, rfl, _, h.recorded _ hlive hz, Function.update_self .., rfl, ?_⟩
    rintro c rfl
    exact Function.update_self ..
  · exact ⟨_, rfl, rfl⟩

/-- The process 2 waits for its child 3, which terminates with the status 7 while 2 sleeps. -/
def waitRun : List Event :=
  [.runUserProgram true true, .look, .schedule, .fork true true, .waitpid 3, .look, .schedule,
    .exit 7 none, .schedule]

theorem wait_of_waitRun : ∃ s, Reachable step NoWrap (boot 320) s ∧
    s.wait s.k.current = some (.sysWaitpid 3) ∧ ∃ s', s.step .look = some s' ∧
      s'.k.a0 s.k.current = 7 ∧ s'.collected = [(3, 3)] := by
  have hrun : (runList step (boot 320) waitRun).map (fun s =>
      (s.wait s.k.current, s.k.state 3, s.recorded 3, (s.k.thread 3).pid, s.collected.isEmpty)) =
      some (some (.sysWaitpid 3), .zombie, some 7, 3, true) := by decide +kernel
  obtain ⟨s, hs, hv⟩ := Option.map_eq_some_iff.mp hrun
  simp only [Prod.mk.injEq] at hv
  obtain ⟨hw, hz, hr, hpid, hc⟩ := hv
  have hreach : Reachable step NoWrap (boot 320) s := .of_runList hs (by decide +kernel)
  obtain ⟨-, -, hlook, -⟩ := wait_of_reachable 320 hreach
  obtain ⟨s', hs', hif⟩ := hlook _ hw
  change (if s.k.state 3 = .zombie then _ else _) at hif
  rw [if_pos hz] at hif
  obtain ⟨status, hstatus, -, hcollected, ha0⟩ := hif
  obtain rfl : 7 = status := Option.some.inj (hr.symm.trans hstatus)
  refine ⟨s, hreach, hw, s', hs', ha0 3 rfl, ?_⟩
  rw [hcollected, List.isEmpty_iff.mp hc]
  show [((3 : Tid), (s.k.thread 3).pid)] = _
  rw [hpid]

/-! ## Behind `INT_MAX` -/

/-- A `sys_fork` that finds no memory for the image returns `-1` and has used up a pid. -/
theorem step_failedFork (hi : (s.k.thread s.k.current).image = true)
    (hw : s.wait s.k.current = none) :
    s.step (.fork true false) = some { s with
      k := { s.k with
        count := s.k.count + 1, gNextTid := s.k.gNextTid + 1,
        freed := s.k.count :: s.k.freed }.setA0 s.k.current (-1) } := by
  show (if s.wait s.k.current = none then s.call _ else none) = _
  rw [if_pos hw, call, if_pos hi]
  unfold Kernel.doSyscall Kernel.newUserThread
  dsimp only
  rw [if_pos hi]
  rfl

/-- **`n` of them**, one after the other. -/
theorem reachable_failedForks (hi : (s.k.thread s.k.current).image = true)
    (hw : s.wait s.k.current = none) (n : ℕ) :
    ∃ s', Reachable step anyStep s s' ∧ s'.wait = s.wait ∧ s'.collected = s.collected ∧
      s'.k.current = s.k.current ∧ s'.k.thread = s.k.thread ∧ s.k.count ≤ s'.k.count ∧
        s'.k.gNextTid = s.k.gNextTid + BitVec.ofNat 32 n := by
  induction n with
  | zero => exact ⟨s, .refl s, rfl, rfl, rfl, rfl, Nat.le_refl _, (BitVec.add_zero _).symm⟩
  | succ n ih =>
    obtain ⟨s', hreach, hwait, hcollected, hcurrent, hthread, hcount, hnext⟩ := ih
    have hstep := step_failedFork (s := s') (by rw [hcurrent, hthread]; exact hi)
      (by rw [hcurrent, hwait]; exact hw)
    refine ⟨_, hreach.tail trivial hstep, hwait, hcollected, hcurrent, hthread,
      Nat.le_succ_of_le hcount, ?_⟩
    show s'.k.gNextTid + 1 = _
    rw [hnext, BitVec.ofNat_add, BitVec.add_assoc]
    rfl

/-- A `sys_fork` that succeeds gives the caller a child with the next pid. -/
theorem step_fork (hi : (s.k.thread s.k.current).image = true) (hw : s.wait s.k.current = none)
    (hlt : s.k.current < s.k.count) :
    ∃ s', s.step (.fork true true) = some s' ∧ s'.wait = s.wait ∧ s'.collected = s.collected ∧
      s'.k.current = s.k.current ∧ (s'.k.thread s'.k.current).image = true ∧
      ∃ c ∈ s'.k.children s'.k.current, (s'.k.thread c).pid = s.k.gNextTid := by
  refine ⟨{ s with k := (s.k.doSyscall { kmalloc := true, image := true } false .fork).1 },
    ?_, rfl, rfl, ?_⟩
  · show (if s.wait s.k.current = none then s.call _ else none) = _
    rw [if_pos hw, call, if_pos hi]
  · unfold Kernel.doSyscall Kernel.newUserThread
    dsimp only
    rw [if_pos hi]
    have hself := Kernel.thread_created (k := s.k) (Nat.ne_of_lt hlt) true .user
    have hpid := Kernel.pid_created (k := s.k) (u := s.k.count) true .user
    rw [if_pos rfl] at hpid
    refine ⟨rfl, ?_, s.k.count, Kernel.count_mem_children_created true .user, hpid⟩
    exact (congrArg Thread.image hself).trans hi

/-- **A pid that comes round.**  The process 2 has collected its child 3.  After `2^32 - 1` forks
that find no memory the next child has the pid 3 again, and `waitpid(3)` waits for it. -/
theorem waits_of_wrap : ∃ s₁ s₂ : WaitState, Reachable step anyStep (boot 320) s₁ ∧
    s₁.k.current = 2 ∧ s₁.k.a0 2 = 7 ∧ s₁.collected = [(3, 3)] ∧
    Reachable step anyStep s₁ s₂ ∧ s₂.k.current = 2 ∧ s₂.collected = [(3, 3)] ∧
      ∃ c, s₂.step (.waitpid 3) = some
          { s₂ with wait := Function.update s₂.wait 2 (some (.sysWaitpid c)) } ∧
        s₂.step (.waitpid 3) ≠ some { s₂ with k := s₂.k.setA0 2 (-1) } := by
  have hrun : (runList step (boot 320) (waitRun ++ [.look])).map (fun s =>
      (s.k.current, s.k.a0 2, s.collected == [(3, 3)], (s.k.thread 2).image,
        decide (s.wait 2 = none ∧ s.k.gNextTid = 4 ∧ 2 < s.k.count))) =
      some (2, 7, true, true, true) := by decide +kernel
  obtain ⟨s₁, hs, hv⟩ := Option.map_eq_some_iff.mp hrun
  simp only [Prod.mk.injEq, decide_eq_true_eq, beq_iff_eq] at hv
  obtain ⟨hcurrent, ha0, hcollected, hi, hw, hnext, hlt⟩ := hv
  obtain ⟨s', hreach, hwait, hcollected', hcurrent', hthread, hcount, hnext'⟩ :=
    reachable_failedForks (s := s₁) (by rw [hcurrent]; exact hi) (by rw [hcurrent]; exact hw)
      (2 ^ 32 - 1)
  rw [hcurrent] at hcurrent'
  obtain ⟨s₂, hfork, hwait₂, hcollected₂, hcurrent₂, hi₂, c, hc, hpid⟩ :=
    step_fork (s := s') (by rw [hcurrent', hthread]; exact hi)
      (by rw [hcurrent', hwait]; exact hw) (by rw [hcurrent']; exact Nat.lt_of_lt_of_le hlt hcount)
  rw [hcurrent'] at hcurrent₂
  have hw₂ : s₂.wait 2 = none := by rw [hwait₂, hwait]; exact hw
  have hthree : (s₂.k.thread c).pid = (3 : BitVec 64).setWidth 32 := by
    rw [hpid, hnext', hnext]
    rfl
  have hfound : (s₂.k.waitTarget 3).isSome := List.find?_isSome.mpr ⟨c, hc, decide_eq_true hthree⟩
  obtain ⟨d, hd⟩ := Option.isSome_iff_exists.mp hfound
  have hwaits : s₂.step (.waitpid 3) = some
      { s₂ with wait := Function.update s₂.wait 2 (some (.sysWaitpid d)) } := by
    show (if s₂.wait s₂.k.current = none then s₂.call _ else none) = _
    rw [hcurrent₂] at hi₂ ⊢
    rw [if_pos hw₂, call, hcurrent₂, if_pos hi₂, hd]
  refine ⟨s₁, s₂, reachable_of_runList hs, hcurrent, ha0, hcollected,
    hreach.tail trivial hfork, hcurrent₂, by rw [hcollected₂, hcollected', hcollected], d, hwaits,
    fun heq => ?_⟩
  -- a caller that has its result does not wait
  have hnone := congrArg (fun s => s.wait 2) (Option.some.inj (hwaits.symm.trans heq))
  dsimp only at hnone
  rw [Function.update_self, hw₂] at hnone
  cases hnone

end WaitState
end Sched
end OscKernel
