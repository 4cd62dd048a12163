import OscKernel.Sched.Effect
import OscKernel.Sched.Queues

/-!
# The stacks in a run

What holds of the kernel stacks in every state that the machine reaches: the calls stand on one
another as they can, the code at the bottom of a stack stays there, a process has the user program
at the bottom, and the idle thread is neither terminated nor freed.

* `Kernel.Stacked`: the invariant.
* `Kernel.stacked_step`: every step keeps it.

Stacks of threads that do not run are never looked at by the code, and an invariant of the machine
has to speak of them all the same: the frame in which a thread waits is where it goes on.  The code
at the bottom decides what a thread is.  A process has the user program there, the idle thread its
loop, and no step turns one into another.
-/

namespace OscKernel
namespace Sched

open Transition

namespace Frame

/-- The code at the bottom of a stack. -/
def IsBottom : Frame → Prop
  | .user | .idleThreadBody | .shell | .kernelThread => True
  | _ => False

variable {f f' g : Frame} {fs rest : List Frame}

theorem IsBottom.not_on (h : f.IsBottom) (b : Bool) : ¬ f.On b g := by
  cases f <;> first | exact id | exact h.elim

/-- The bottom of a stack stays when the innermost call goes on. -/
theorem getLast?_replace (hlast : ∀ b ∈ (f :: rest).getLast?, b.IsBottom)
    (hf : f.IsBottom → fs.getLast? = some f) :
    (fs ++ rest).getLast? = (f :: rest).getLast? := by
  cases rest with
  | nil =>
    rw [List.append_nil]
    exact hf (hlast f rfl)
  | cons g rest =>
    rw [List.getLast?_append, List.getLast?_cons_cons]
    obtain ⟨x, hx⟩ : ∃ x, (g :: rest).getLast? = some x :=
      Option.isSome_iff_exists.mp (by simp)
    rw [hx]
    rfl

end Frame

namespace Kernel

variable {k k' : Kernel} {c : Choice} {f : Frame} {fs rest : List Frame} {t : Tid}

/-! ## The bottom of a stack -/

theorem getLast?_wakeParent (hfs : fs ≠ []) :
    (k.wakeParent t fs).getLast? = fs.getLast? := by
  unfold wakeParent
  cases k.parent t with
  | none => rfl
  | some par =>
    obtain ⟨f, rest, rfl⟩ := List.exists_cons_of_ne_nil hfs
    rfl

theorem getLast?_shellCommand (h : k.shellCommand c = some (k', fs)) :
    fs.getLast? = some .shell := by
  unfold shellCommand at h
  cases hc : c.command with
  | runUserProgram =>
    rw [hc] at h
    dsimp only at h
    rcases hn : k.threadSpawnUser c.kmalloc c.image with ⟨k₁, _ | t⟩ <;> rw [hn] at h <;>
      exact (Prod.mk.inj (Option.some.inj h)).2 ▸ rfl
  | stop pid =>
    rw [hc] at h
    dsimp only at h
    cases ht : k.stopTarget pid with
    | none =>
      rw [ht] at h
      exact (Prod.mk.inj (Option.some.inj h)).2 ▸ rfl
    | some t =>
      rw [ht] at h
      rw [← (Prod.mk.inj (Option.some.inj h)).2]
      exact getLast?_wakeParent (List.cons_ne_nil _ _)
  | exit =>
    rw [hc] at h
    cases h
  | _ =>
    rw [hc] at h
    exact (Prod.mk.inj (Option.some.inj h)).2 ▸ rfl

theorem getLast?_threadBody (h : k.threadBody c = some (k', fs)) :
    fs.getLast? = some .kernelThread := by
  unfold threadBody at h
  cases hc : c.command with
  | threadCreate | yield =>
    rw [hc] at h
    exact (Prod.mk.inj (Option.some.inj h)).2 ▸ rfl
  | exit =>
    rw [hc] at h
    dsimp only at h
    split_ifs at h
    exact (Prod.mk.inj (Option.some.inj h)).2 ▸ rfl
  | _ =>
    rw [hc] at h
    cases h

/-- The code at the bottom of a stack goes on at the bottom. -/
theorem getLast?_run (h : k.run c f = some (k', fs)) (hf : f.IsBottom) : fs.getLast? = some f := by
  cases f with
  | user => exact (Prod.mk.inj (Option.some.inj h)).2 ▸ rfl
  | idleThreadBody =>
    rw [run] at h
    cases hz : k.killZombie with
    | none =>
      rw [hz] at h
      exact (Prod.mk.inj (Option.some.inj h)).2 ▸ rfl
    | some k₁ =>
      rw [hz] at h
      exact (Prod.mk.inj (Option.some.inj h)).2 ▸ rfl
  | shell => exact getLast?_shellCommand h
  | kernelThread => exact getLast?_threadBody h
  | _ => exact hf.elim

/-! ## The threads -/

/-- What a step does to the threads, apart from a new one: the idle thread is not terminated,
nobody gets an image, and the queues hold threads that exist. -/
structure Keeps (k k' : Kernel) : Prop where
  unborn : ∀ t, k.count ≤ t → k'.state t = k.state t
  idle : k.state idle ≠ .zombie → k'.state idle ≠ .zombie
  image : ∀ t, (k'.thread t).image = true → (k.thread t).image = true
  runq : ∀ t ∈ k'.gRunq, t ∈ k.gRunq ∨ t < k.count
  zombies : ∀ t ∈ k'.gZombies, t ∈ k.gZombies ∨ t ≠ Sched.idle

theorem Keeps.refl (k : Kernel) : Keeps k k :=
  ⟨fun _ _ => rfl, id, fun _ => id, fun _ => Or.inl, fun _ => Or.inl⟩

theorem Keeps.trans {k'' : Kernel} (h : Keeps k k') (h' : Keeps k' k'')
    (hcount : k'.count = k.count) : Keeps k k'' where
  unborn t ht := (h'.unborn t (hcount ▸ ht)).trans (h.unborn t ht)
  idle hi := h'.idle (h.idle hi)
  image t ht := h.image t (h'.image t ht)
  runq t ht := (h'.runq t ht).elim (h.runq t) fun hlt => Or.inr (hcount ▸ hlt)
  zombies t ht := (h'.zombies t ht).elim (h.zombies t) Or.inr

/-- The threads and the queues are all that matters. -/
theorem keeps_of_thread (hthread : k'.thread = k.thread) (hrunq : k'.gRunq = k.gRunq)
    (hzombies : ∀ t ∈ k'.gZombies, t ∈ k.gZombies) : Keeps k k' where
  unborn t _ := by unfold Kernel.state; rw [hthread]
  idle := by unfold Kernel.state; rw [hthread]; exact id
  image t := by rw [hthread]; exact id
  runq t ht := Or.inl (hrunq ▸ ht)
  zombies t ht := Or.inl (hzombies t ht)

theorem Same.keeps (h : Same k k') : Keeps k k' :=
  keeps_of_thread h.thread h.gRunq fun _ ht => h.gZombies ▸ ht

theorem keeps_modify {g : Thread → Thread} (ht : t < k.count)
    (hidle : t = Sched.idle → ∀ x, (g x).state = .zombie → x.state = .zombie)
    (himage : ∀ x, (g x).image = true → x.image = true) : Keeps k (k.modify t g) where
  unborn u hu := by
    have hne : u ≠ t := by
      rintro rfl
      exact Nat.not_lt.mpr hu ht
    unfold Kernel.state
    rw [thread_modify, if_neg hne]
  idle hi := by
    unfold Kernel.state
    rw [thread_modify]
    split_ifs with h
    · exact fun hz => hi (h ▸ hidle h.symm _ hz)
    · exact hi
  image u := by
    rw [thread_modify]
    split_ifs with h
    · exact fun hi => h ▸ himage _ hi
    · exact id
  runq _ := Or.inl
  zombies _ := Or.inl

theorem keeps_setState {s : ThreadState} (ht : t < k.count) (hs : s = .zombie → t ≠ Sched.idle) :
    Keeps k (k.setState t s) :=
  keeps_modify ht (fun hi _ hz => absurd hi (hs hz)) fun _ => id

theorem keeps_enqueue (ht : t < k.count) : Keeps k (k.enqueue t) where
  unborn _ _ := rfl
  idle := id
  image _ := id
  runq u hu := (List.mem_append.mp hu).imp id fun hu => by
    rw [List.mem_singleton.mp hu]
    exact ht
  zombies _ := Or.inl

theorem keeps_gRunq {q : List Tid} (hq : ∀ u ∈ q, u ∈ k.gRunq) :
    Keeps k { k with gRunq := q } where
  unborn _ _ := rfl
  idle := id
  image _ := id
  runq u hu := Or.inl (hq u hu)
  zombies _ := Or.inl

/-- The links between the threads do not matter. -/
theorem keeps_links (hstate : ∀ u, k'.state u = k.state u)
    (himage : ∀ u, (k'.thread u).image = (k.thread u).image) (hrunq : k'.gRunq = k.gRunq)
    (hzombies : k'.gZombies = k.gZombies) : Keeps k k' where
  unborn u _ := hstate u
  idle hi := by rw [hstate]; exact hi
  image u := by rw [himage]; exact id
  runq u hu := Or.inl (hrunq ▸ hu)
  zombies u hu := Or.inl (hzombies ▸ hu)

theorem keeps_listDelSibling : Keeps k (k.listDelSibling t) :=
  keeps_links (fun _ => rfl) (fun _ => rfl) rfl rfl

theorem keeps_schedZombify (hidle : t ≠ Sched.idle) : Keeps k (k.schedZombify t) where
  unborn _ _ := rfl
  idle := id
  image _ := id
  runq _ := Or.inl
  zombies u hu := (List.mem_append.mp hu).imp id fun hu => by
    rw [List.mem_singleton.mp hu]
    exact hidle

/-- Only a thread that exists can be woken. -/
theorem keeps_threadWakeup (hborn : ∀ u, k.count ≤ u → k.state u = .zombie) :
    Keeps k (k.threadWakeup t) := by
  unfold threadWakeup
  split_ifs with hb
  · have ht : t < k.count := by
      by_contra hge
      rw [hborn t (Nat.not_lt.mp hge)] at hb
      cases hb
    exact (keeps_setState (s := .ready) ht fun h => by cases h).trans
      (keeps_enqueue (k := k.setState t .ready) ht) rfl
  · exact .refl k

/-- The threads of the run queue exist, and so does the one that `schedule` chooses. -/
theorem keeps_schedule (hcurrent : k.current < k.count) (hrunq : ∀ t ∈ k.gRunq, t < k.count) :
    Keeps k k.schedule.1 ∧ ∀ n ∈ k.schedule.2, n < k.count := by
  have hpark : Keeps k (if k.state k.current = .running then
      (k.setState k.current .ready).enqueue k.current else k) ∧
      (if k.state k.current = .running then
        (k.setState k.current .ready).enqueue k.current else k).count = k.count := by
    split_ifs
    · exact ⟨(keeps_setState (s := .ready) hcurrent fun h => by cases h).trans
        (keeps_enqueue (k := k.setState k.current .ready) hcurrent) rfl, rfl⟩
    · exact ⟨.refl k, rfl⟩
  unfold schedule
  dsimp only
  generalize (if k.state k.current = .running then _ else k : Kernel) = k₁ at hpark ⊢
  obtain ⟨hkeeps, hcount⟩ := hpark
  have hrunq₁ : ∀ t ∈ k₁.gRunq, t < k₁.count := fun t ht => by
    rw [hcount]
    exact (hkeeps.runq t ht).elim (hrunq t) id
  cases hq : k₁.gRunq with
  | nil =>
    refine ⟨?_, nofun⟩
    dsimp only
    split_ifs
    · exact hkeeps.trans (keeps_setState (hcount ▸ hcurrent) fun h => by cases h) hcount
    · exact hkeeps
  | cons next rest =>
    have hnext : next < k₁.count := hrunq₁ next (hq ▸ List.mem_cons_self)
    refine ⟨hkeeps.trans ((keeps_setState (s := .running) hnext fun h => by cases h).trans
      (keeps_gRunq (k := k₁.setState next .running) fun u hu => ?_) rfl) hcount, fun n hn => ?_⟩
    · show u ∈ k₁.gRunq
      rw [hq]
      exact List.mem_cons_of_mem _ hu
    · rw [← Option.some.inj hn, ← hcount]
      exact hnext

theorem keeps_terminate (ht : t < k.count) (hidle : t ≠ Sched.idle) :
    Keeps k (k.terminate t) := by
  have hmodify : ∀ k₁ : Kernel, k₁.count = k.count → Keeps k₁ (k₁.modify t fun x =>
      { x with exitStatus := -1, state := .zombie, image := false }) := fun k₁ hcount =>
    keeps_modify (hcount ▸ ht) (fun h => absurd h hidle) fun _ h => by cases h
  unfold terminate
  dsimp only
  split_ifs
  · exact (keeps_gRunq fun u hu => List.mem_of_mem_erase hu).trans (hmodify _ rfl) rfl
  · exact hmodify k rfl

theorem keeps_sysExit (hcurrent : k.current < k.count) (hidle : k.current ≠ Sched.idle)
    (status : BitVec 64) : Keeps k (k.sysExit status) := by
  have hexiting := exiting_same (k := k) status
  have himage : ∀ u, ((k.exiting status).thread u).image = (k.thread u).image := fun u =>
    (image_reparentAll _ u).trans (image_modify (by intro; rfl))
  have hlinks : Keeps k (k.exiting status) :=
    keeps_links hexiting.2.2.2.2.2 himage hexiting.2.2.1 hexiting.2.2.2.1
  rw [sysExit_eq]
  exact hlinks.trans (keeps_modify (hexiting.1 ▸ hcurrent) (fun h => absurd h hidle)
    fun _ h => by cases h) hexiting.1

theorem keeps_threadExit (hcurrent : k.current < k.count) (hidle : k.current ≠ Sched.idle) :
    Keeps k k.threadExit :=
  ((keeps_setState (s := .zombie) hcurrent fun _ => hidle).trans
    (keeps_listDelSibling (t := k.current)) rfl).trans
    (keeps_schedZombify (k := (k.setState k.current .zombie).listDelSibling k.current) hidle) rfl

theorem keeps_collect (hidle : t ≠ Sched.idle) : Keeps k (k.collect t) :=
  (keeps_listDelSibling (t := t)).trans
    (keeps_schedZombify (k := k.listDelSibling t) hidle) rfl

/-! ## The invariant -/

/-- What holds of the stacks throughout a run. -/
structure Stacked (k : Kernel) : Prop where
  chain : ∀ t, (k.stack t).IsChain (Frame.On false)
  bottom : ∀ t, ∀ f ∈ (k.stack t).getLast?, f.IsBottom
  unborn : ∀ t, k.count ≤ t → k.stack t = [] ∧ k.state t = .zombie
  nonempty : ∀ t < k.count, t ∉ k.freed → k.stack t ≠ []
  image_user : ∀ t, (k.thread t).image = true → (k.stack t).getLast? = some .user
  idle_lt : Sched.idle < k.count
  idle_stack : ∀ t, (k.stack t).getLast? = some .idleThreadBody ↔ t = Sched.idle
  idle_state : k.state Sched.idle ≠ .zombie
  idle_zombies : Sched.idle ∉ k.gZombies
  runq_lt : ∀ t ∈ k.gRunq, t < k.count
  target_lt : ∀ t fl n, .switchTo fl n ∈ k.stack t → n < k.count
  current_lt : k.current < k.count
  current_not_freed : k.current ∉ k.freed

/-- The process that runs is not the idle thread. -/
theorem Stacked.ne_idle (h : k.Stacked) (hs : (k.stack t).getLast? ≠ some .idleThreadBody) :
    t ≠ Sched.idle := fun ht => hs ((h.idle_stack t).mpr ht)

theorem Stacked.image_ne_idle (h : k.Stacked) (hi : (k.thread t).image = true) :
    t ≠ Sched.idle := by
  refine h.ne_idle ?_
  rw [h.image_user t hi]
  nofun

theorem Stacked.lt_of_image (h : k.Stacked) (hi : (k.thread t).image = true) : t < k.count := by
  by_contra hge
  have hlast := h.image_user t hi
  rw [(h.unborn t (Nat.not_lt.mp hge)).1] at hlast
  cases hlast

/-- A system call stands on the user program. -/
theorem Stacked.last_of_ecall (h : k.Stacked) {s : Bool} {pc : EcallPc}
    (hs : k.stack t = .ecall s pc :: rest) : (k.stack t).getLast? = some .user := by
  have hchain := h.chain t
  have hbottom := h.bottom t
  rw [hs] at hchain hbottom ⊢
  cases rest with
  | nil => exact (hbottom _ rfl).elim
  | cons g rest =>
    obtain ⟨rfl, htail⟩ := List.isChain_cons_cons.mp hchain
    cases rest with
    | nil => rfl
    | cons g' rest => exact (List.isChain_cons_cons.mp htail).1.elim

/-- Code that stands at the bottom is the whole stack. -/
theorem Stacked.rest_eq_nil (h : k.Stacked) (hs : k.stack t = f :: rest) (hf : f.IsBottom) :
    rest = [] := by
  have hchain := h.chain t
  rw [hs] at hchain
  cases rest with
  | nil => rfl
  | cons g rest => exact absurd (List.isChain_cons_cons.mp hchain).1 (hf.not_on false)

theorem Stacked.last_of_bottom (h : k.Stacked) (hs : k.stack t = f :: rest) (hf : f.IsBottom) :
    (k.stack t).getLast? = some f := by
  rw [hs, h.rest_eq_nil hs hf]
  rfl

/-- What a step of the current thread does to the threads that exist. -/
theorem Effect.keeps (h : Effect k c f k' fs) (hs : k.Stacked)
    (hstack : k.stack k.current = f :: rest) : Keeps k k' ∨
      ∃ image, Same (k.created image (if image then .user else .kernelThread)) k' := by
  have hborn : ∀ u, k.count ≤ u → k.state u = .zombie := fun u hu => (hs.unborn u hu).2
  have hschedule := keeps_schedule hs.current_lt hs.runq_lt
  cases h with
  | create hf hg hfs hgoes h => exact Or.inr ⟨_, hg ▸ h⟩
  | go _ _ _ _ h | yield _ _ _ _ h | woken h => exact Or.inl h.keeps
  | createFailed _ _ _ h | timer _ _ _ _ h | task _ _ _ _ _ _ _ _ h | expire _ _ _ _ _ _ _ h
  | expireNow _ _ _ h | start _ _ _ h | register _ _ _ h =>
    exact Or.inl (keeps_of_thread h.thread h.gRunq fun _ ht => h.gZombies ▸ ht)
  | fired =>
    exact Or.inl ((keeps_threadWakeup hborn).trans (keeps_of_thread rfl rfl fun _ => id)
      (quiet_threadWakeup k _).count)
  | wakeup => exact Or.inl (keeps_threadWakeup hborn)
  | blockUsleep => exact Or.inl (keeps_setState hs.current_lt fun h => by cases h)
  | blockWait => exact Or.inl (keeps_setState hs.current_lt fun h => by cases h)
  | stay h => rw [h] at hschedule; exact Or.inl hschedule.1
  | choose h => rw [h] at hschedule; exact Or.inl hschedule.1
  | switch => exact Or.inl (keeps_of_thread rfl rfl fun _ => id)
  | exit status =>
    refine Or.inl (keeps_sysExit hs.current_lt (hs.ne_idle ?_) status)
    rw [hs.last_of_ecall hstack]
    nofun
  | kill hf hi => exact Or.inl (keeps_terminate hs.current_lt (hs.image_ne_idle hi))
  | stop pid t hf hpid ht hg hgoes h =>
    have hi := (stopTarget_some ht).2.2
    exact Or.inl ((keeps_terminate (hs.lt_of_image hi) (hs.image_ne_idle hi)).trans h.keeps
      (quiet_terminate k t).count)
  | threadExit =>
    refine Or.inl (keeps_threadExit hs.current_lt (hs.ne_idle ?_))
    rw [hs.last_of_bottom hstack trivial]
    nofun
  | collect hf hfreed hz h =>
    exact Or.inl ((keeps_collect fun hi => hs.idle_state (hi ▸ hz)).trans h.keeps rfl)
  | reap h =>
    obtain ⟨z, zs, hz, rfl⟩ := killZombie_eq_some h
    exact Or.inl (keeps_of_thread rfl rfl fun u hu => hz ▸ List.mem_cons_of_mem _ hu)

/-! ## One step -/

theorem Effect.count (h : Effect k c f k' fs) : k.count ≤ k'.count := by
  rcases h.kept with h | ⟨image, h⟩ | h | ⟨fl, n, -, -, rfl⟩ | ⟨-, z, zs, -, rfl⟩
  · exact Nat.le_of_eq h.count.symm
  · exact h.count ▸ Nat.le_succ _
  · exact h.count ▸ Nat.le_succ _
  · exact Nat.le_refl _
  · exact Nat.le_refl _

/-- Who is freed: a thread without an image, or a zombie that the idle thread collects. -/
theorem Effect.freed (h : Effect k c f k' fs) {t : Tid} (ht : t ∈ k'.freed) : t ∈ k.freed ∨
    t = k.count ∨ f = .idleThreadBody ∧ t ≠ gBootstrap ∧ ∃ zs, k.gZombies = t :: zs := by
  rcases h.kept with h | ⟨image, h⟩ | h | ⟨fl, n, -, -, rfl⟩ | ⟨hf, z, zs, hz, rfl⟩
  · exact Or.inl (h.freed ▸ ht)
  · exact Or.inl (h.freed ▸ ht : t ∈ k.freed)
  · rw [h.freed] at ht
    exact (List.mem_cons.mp ht).elim (fun h => Or.inr (Or.inl h)) Or.inl
  · exact Or.inl ht
  · change t ∈ (if z = gBootstrap then k.freed else z :: k.freed) at ht
    split_ifs at ht with hboot
    · exact Or.inl ht
    · rcases List.mem_cons.mp ht with rfl | ht
      · exact Or.inr (Or.inr ⟨hf, hboot, zs, hz⟩)
      · exact Or.inl ht

/-- A freed thread stays freed. -/
theorem Effect.freed_mono (h : Effect k c f k' fs) {t : Tid} (ht : t ∈ k.freed) : t ∈ k'.freed := by
  rcases h.kept with h | ⟨image, h⟩ | h | ⟨fl, n, -, -, rfl⟩ | ⟨-, z, zs, -, rfl⟩
  · exact h.freed ▸ ht
  · exact (h.freed ▸ ht : t ∈ k'.freed)
  · exact h.freed ▸ List.mem_cons_of_mem _ ht
  · exact ht
  · show t ∈ (if z = gBootstrap then k.freed else z :: k.freed)
    split_ifs
    · exact ht
    · exact List.mem_cons_of_mem _ ht

/-- A new thread has a stack, unless it is freed at once. -/
theorem Effect.born (h : Effect k c f k' fs) {t : Tid} (ht : t < k'.count) : t < k.count ∨
    t = k.count ∧ (t ∈ k'.freed ∨ k'.stack t ≠ []) := by
  rcases h.kept with h | ⟨image, h⟩ | h | ⟨fl, n, -, -, rfl⟩ | ⟨-, z, zs, -, rfl⟩
  · exact Or.inl (h.count ▸ ht)
  · rw [h.count] at ht
    rcases Nat.lt_succ_iff_lt_or_eq.mp ht with ht | rfl
    · exact Or.inl ht
    · refine Or.inr ⟨rfl, Or.inr ?_⟩
      have hnew : k'.stack k.count = [if image then .user else .kernelThread] :=
        h.stack ▸ Function.update_self ..
      exact hnew ▸ List.cons_ne_nil _ _
  · rw [h.count] at ht
    rcases Nat.lt_succ_iff_lt_or_eq.mp ht with ht | rfl
    · exact Or.inl ht
    · exact Or.inr ⟨rfl, Or.inl (h.freed ▸ List.mem_cons_self)⟩
  · exact Or.inl ht
  · exact Or.inl ht

/-- The current thread changes in `switch_to` only. -/
theorem Effect.current (h : Effect k c f k' fs) : k'.current = k.current ∨
    ∃ fl, f = .switchTo fl k'.current ∧ k'.current ∉ k.freed := by
  rcases h.kept with h | ⟨image, h⟩ | h | ⟨fl, n, rfl, hn, rfl⟩ | ⟨-, z, zs, -, rfl⟩
  · exact Or.inl h.current
  · exact Or.inl h.current
  · exact Or.inl h.current
  · exact Or.inr ⟨fl, rfl, hn⟩
  · exact Or.inl rfl

theorem mem_wakeParent {g : Frame} (hg : g ∈ k.wakeParent t fs) :
    g ∈ fs ∨ ∃ par, g = .threadWakeup par := by
  unfold wakeParent at hg
  cases hp : k.parent t with
  | none =>
    rw [hp] at hg
    exact Or.inl hg
  | some par =>
    rw [hp] at hg
    rcases List.mem_cons.mp hg with hg | hg
    · exact Or.inr ⟨par, hg⟩
    · exact Or.inl hg

/-- `switch_to` is called with the thread that `schedule` has chosen. -/
theorem Effect.target (h : Effect k c f k' fs) {fl : Bool} {n : Tid}
    (hmem : .switchTo fl n ∈ fs) : f = .schedule ∧ k.schedule.2 = some n := by
  have hplain : (∀ g ∈ fs, g.Plain) → False := fun h => h _ hmem
  cases h with
  | choose h =>
    obtain ⟨-, rfl⟩ := Frame.switchTo.inj (List.mem_singleton.mp hmem)
    exact ⟨rfl, by rw [h]⟩
  | go hf hfs => exact (hplain hfs).elim
  | create hf hg hfs => exact (hplain hfs).elim
  | createFailed hf hfs => exact (hplain hfs).elim
  | yield hf hg =>
    rcases List.mem_cons.mp hmem with h | h
    · cases h
    · exact (List.mem_singleton.mp h ▸ hg : Frame.Plain (.switchTo fl n)).elim
  | task ns q hn hq hf hg =>
    rcases List.mem_cons.mp hmem with h | h
    · cases h
    · exact (List.mem_singleton.mp h ▸ hg : Frame.Plain (.switchTo fl n)).elim
  | exit => rcases mem_wakeParent hmem with h | ⟨par, h⟩ <;> simp at h
  | kill hf =>
    rcases mem_wakeParent hmem with h | ⟨par, h⟩
    · rcases hf with ⟨s, pc, rfl⟩ | ⟨s, pc, rfl⟩ <;> simp at h
    · cases h
  | stop pid t hf hpid ht hg =>
    rcases mem_wakeParent hmem with h | ⟨par, h⟩
    · exact (List.mem_singleton.mp h ▸ hg.1 : Frame.Plain (.switchTo fl n)).elim
    · cases h
  | blockWait hf => rcases hf with rfl | rfl <;> simp at hmem
  | _ => simp at hmem

/-- The stacks after a step of the current thread. -/
theorem stack_setStack {u : Tid} {gs : List Frame} :
    (k.setStack t gs).stack u = if u = t then gs else k.stack u := Function.update_apply ..

section Step

variable (h : Effect k c f k' fs)
include h

/-- The stacks of the other threads; a new thread has one frame. -/
theorem Effect.stack_other (u : Tid) : k'.stack u = k.stack u ∨
    u = k.count ∧ k.count < k'.count ∧ ∃ g, (g = .user ∨ g = .kernelThread) ∧
      k'.stack u = [g] ∧ ((k'.thread u).image = true → g = .user) := by
  rcases h.kept with h | ⟨image, h⟩ | h | ⟨fl, n, -, -, rfl⟩ | ⟨-, z, zs, -, rfl⟩
  · exact Or.inl (congrFun h.stack u)
  · by_cases hu : u = k.count
    · refine Or.inr ⟨hu, h.count ▸ Nat.lt_succ_self _, if image then .user else .kernelThread,
        ?_, ?_, fun hi => ?_⟩
      · split_ifs
        · exact Or.inl rfl
        · exact Or.inr rfl
      · rw [h.stack, hu]
        exact Function.update_self ..
      · rw [h.thread, hu] at hi
        rw [if_pos ((image_created_self image _).symm.trans hi)]
    · refine Or.inl ?_
      rw [h.stack]
      exact Function.update_of_ne hu ..
  · exact Or.inl (congrFun h.stack u)
  · exact Or.inl rfl
  · exact Or.inl rfl

variable (hs : k.Stacked) (hstack : k.stack k.current = f :: rest)
include hs hstack

theorem Effect.unborn {u : Tid} (hu : k'.count ≤ u) : k'.state u = .zombie := by
  have hu' := Nat.le_trans h.count hu
  rw [← (hs.unborn u hu').2]
  rcases h.keeps hs hstack with hk | ⟨image, hk⟩
  · exact hk.unborn u hu'
  · have hne : u ≠ k.count := by
      rintro rfl
      rw [hk.count] at hu
      exact Nat.not_succ_le_self _ hu
    unfold Kernel.state
    rw [hk.thread]
    exact state_created hne image _

theorem Effect.image {u : Tid} (hi : (k'.thread u).image = true) :
    (k.thread u).image = true ∨ u = k.count ∧ k'.stack u = [.user] := by
  rcases h.keeps hs hstack with hk | ⟨image, hk⟩
  · exact Or.inl (hk.image u hi)
  · rw [hk.thread] at hi
    by_cases hu : u = k.count
    · refine Or.inr ⟨hu, ?_⟩
      rw [hu] at hi ⊢
      rw [hk.stack, if_pos ((image_created_self image _).symm.trans hi)]
      exact Function.update_self ..
    · exact Or.inl ((congrArg Thread.image (thread_created hu image _)) ▸ hi)

theorem Effect.runq {u : Tid} (hu : u ∈ k'.gRunq) : u < k'.count := by
  rcases h.keeps hs hstack with hk | ⟨image, hk⟩
  · exact Nat.lt_of_lt_of_le ((hk.runq u hu).elim (hs.runq_lt u) id) h.count
  · rw [hk.gRunq] at hu
    rw [hk.count]
    rcases List.mem_append.mp hu with hu | hu
    · exact Nat.lt_succ_of_lt (hs.runq_lt u hu)
    · exact List.mem_singleton.mp hu ▸ Nat.lt_succ_self _

theorem Effect.idle_state : k'.state Sched.idle ≠ .zombie := by
  rcases h.keeps hs hstack with hk | ⟨image, hk⟩
  · exact hk.idle hs.idle_state
  · unfold Kernel.state
    rw [hk.thread]
    exact fun hz => hs.idle_state ((state_created (Nat.ne_of_lt hs.idle_lt) image _).symm.trans hz)

theorem Effect.idle_zombies : Sched.idle ∉ k'.gZombies := by
  intro hz
  rcases h.keeps hs hstack with hk | ⟨image, hk⟩
  · exact (hk.zombies _ hz).elim hs.idle_zombies fun hne => hne rfl
  · exact hs.idle_zombies (hk.gZombies ▸ hz)

theorem Effect.targets {u : Tid} {fl : Bool} {n : Tid}
    (hn : .switchTo fl n ∈ (k'.setStack k.current (fs ++ rest)).stack u) : n < k'.count := by
  have hold : ∀ {u}, .switchTo fl n ∈ k.stack u → n < k'.count := fun hn =>
    Nat.lt_of_lt_of_le (hs.target_lt _ fl n hn) h.count
  rw [stack_setStack] at hn
  split_ifs at hn with hu
  · rcases List.mem_append.mp hn with hn | hn
    · obtain ⟨-, hnext⟩ := h.target hn
      exact Nat.lt_of_lt_of_le ((keeps_schedule hs.current_lt hs.runq_lt).2 n hnext) h.count
    · exact hold (hstack ▸ List.mem_cons_of_mem _ hn)
  · rcases h.stack_other u with heq | ⟨-, -, g, hg, heq, -⟩
    · exact hold (heq ▸ hn)
    · rw [heq, List.mem_singleton] at hn
      rcases hg with rfl | rfl <;> cases hn

/-- The thread that runs next is not freed in the same step. -/
theorem Effect.current_not_freed : k'.current < k'.count ∧ k'.current ∉ k'.freed := by
  rcases h.current with hcurrent | ⟨fl, rfl, hfreed⟩
  · rw [hcurrent]
    refine ⟨Nat.lt_of_lt_of_le hs.current_lt h.count, fun hf => ?_⟩
    rcases h.freed hf with hf | hf | ⟨rfl, -, zs, hz⟩
    · exact hs.current_not_freed hf
    · exact Nat.ne_of_lt hs.current_lt hf
    · -- the idle thread does not free itself
      have hidle := (hs.idle_stack _).mp (hs.last_of_bottom hstack trivial)
      exact hs.idle_zombies (hidle ▸ hz ▸ List.mem_cons_self)
  · refine ⟨Nat.lt_of_lt_of_le (hs.target_lt _ fl _ (hstack ▸ List.mem_cons_self)) h.count, ?_⟩
    intro hf
    rcases h.freed hf with hf | hf | ⟨hf, -⟩
    · exact hfreed hf
    · exact Nat.ne_of_lt (hs.target_lt _ fl _ (hstack ▸ List.mem_cons_self)) hf
    · cases hf

end Step

/-- **The innermost call of the current thread goes on.** -/
theorem stacked_run (hs : k.Stacked) (hstack : k.stack k.current = f :: rest)
    (h : k.run c f = some (k', fs)) : (k'.setStack k.current (fs ++ rest)).Stacked := by
  have heffect := run_effect h
  have hlast : (fs ++ rest).getLast? = (k.stack k.current).getLast? := by
    rw [hstack]
    exact Frame.getLast?_replace (hstack ▸ hs.bottom k.current) (getLast?_run h)
  -- what is at the bottom of the stacks
  have hbottom : ∀ u, ((k'.setStack k.current (fs ++ rest)).stack u).getLast? =
      (k.stack u).getLast? ∨ u = k.count ∧ ∃ g, (g = .user ∨ g = .kernelThread) ∧
        (k'.setStack k.current (fs ++ rest)).stack u = [g] ∧
          ((k'.thread u).image = true → g = .user) := fun u => by
    rw [stack_setStack]
    split_ifs with hu
    · exact Or.inl (hu ▸ hlast)
    · rcases heffect.stack_other u with heq | ⟨hu', -, hg⟩
      · exact Or.inl (heq ▸ rfl)
      · exact Or.inr ⟨hu', hg⟩
  obtain ⟨hcurrent_lt, hcurrent_not_freed⟩ := heffect.current_not_freed hs hstack
  constructor
  case chain =>
    intro u
    rw [stack_setStack]
    split_ifs with hu
    · exact heffect.goes.isChain (hstack ▸ hs.chain k.current)
    · rcases heffect.stack_other u with heq | ⟨-, -, g, -, heq, -⟩
      · exact heq ▸ hs.chain u
      · exact heq ▸ List.isChain_singleton _
  case bottom =>
    intro u g hg
    rcases hbottom u with heq | ⟨-, g', hg', heq, -⟩
    · exact hs.bottom u g (heq ▸ hg)
    · rw [heq] at hg
      obtain rfl := Option.some.inj hg
      rcases hg' with rfl | rfl <;> trivial
  case unborn =>
    intro u hu
    have hlt := Nat.lt_of_lt_of_le hs.current_lt (Nat.le_trans heffect.count hu)
    refine ⟨?_, heffect.unborn hs hstack hu⟩
    rw [stack_setStack, if_neg (Nat.ne_of_gt hlt)]
    rcases heffect.stack_other u with heq | ⟨rfl, hlt, -⟩
    · rw [heq]
      exact (hs.unborn u (Nat.le_trans heffect.count hu)).1
    · exact absurd hu (Nat.not_le_of_lt hlt)
  case nonempty =>
    intro u hu hfreed hnil
    have hold : k.stack u = [] := by
      rcases hbottom u with heq | ⟨-, g, -, heq, -⟩
      · exact List.getLast?_eq_none_iff.mp (heq ▸ hnil ▸ rfl)
      · rw [heq] at hnil
        cases hnil
    rcases heffect.born hu with hlt | ⟨rfl, hf | hne⟩
    · exact hs.nonempty u hlt (fun hf => hfreed (heffect.freed_mono hf)) hold
    · exact hfreed hf
    · rw [stack_setStack, if_neg (Nat.ne_of_gt hs.current_lt)] at hnil
      exact hne hnil
  case image_user =>
    intro u hi
    rcases heffect.image hs hstack hi with hi' | ⟨rfl, hnew⟩
    · rcases hbottom u with heq | ⟨-, g, -, heq, hg⟩
      · rw [heq]
        exact hs.image_user u hi'
      · rw [heq, hg hi]
        rfl
    · rw [stack_setStack, if_neg (Nat.ne_of_gt hs.current_lt), hnew]
      rfl
  case idle_lt => exact Nat.lt_of_lt_of_le hs.idle_lt heffect.count
  case idle_stack =>
    intro u
    rcases hbottom u with heq | ⟨rfl, g, hg, heq, -⟩
    · rw [heq]
      exact hs.idle_stack u
    · rw [heq]
      refine iff_of_false ?_ (Nat.ne_of_gt hs.idle_lt)
      rcases hg with rfl | rfl <;> nofun
  case idle_state => exact heffect.idle_state hs hstack
  case idle_zombies => exact heffect.idle_zombies hs hstack
  case runq_lt => exact fun u hu => heffect.runq hs hstack hu
  case target_lt => exact fun u fl n hn => heffect.targets hs hstack hn
  case current_lt => exact hcurrent_lt
  case current_not_freed => exact hcurrent_not_freed

/-- A call is put on the stack of the current thread. -/
theorem Stacked.push (hs : k.Stacked) (hchain : (f :: k.stack k.current).IsChain (Frame.On false))
    (htarget : ∀ fl n, f ≠ .switchTo fl n) :
    (k.setStack k.current (f :: k.stack k.current)).Stacked := by
  have hne := hs.nonempty _ hs.current_lt hs.current_not_freed
  have hlast : ∀ u, ((k.setStack k.current (f :: k.stack k.current)).stack u).getLast? =
      (k.stack u).getLast? := fun u => by
    rw [stack_setStack]
    split_ifs with hu
    · rw [hu, List.getLast?_cons, List.getLast?_eq_some_getLast hne]
      rfl
    · rfl
  constructor
  case chain =>
    intro u
    rw [stack_setStack]
    split_ifs
    · exact hchain
    · exact hs.chain u
  case bottom => exact fun u => hlast u ▸ hs.bottom u
  case unborn =>
    intro u hu
    refine ⟨?_, (hs.unborn u hu).2⟩
    rw [stack_setStack, if_neg (Nat.ne_of_gt (Nat.lt_of_lt_of_le hs.current_lt hu))]
    exact (hs.unborn u hu).1
  case nonempty =>
    intro u hu hfreed
    rw [stack_setStack]
    split_ifs
    · exact List.cons_ne_nil _ _
    · exact hs.nonempty u hu hfreed
  case image_user => exact fun u hi => (hlast u).trans (hs.image_user u hi)
  case idle_lt => exact hs.idle_lt
  case idle_stack => exact fun u => hlast u ▸ hs.idle_stack u
  case idle_state => exact hs.idle_state
  case idle_zombies => exact hs.idle_zombies
  case runq_lt => exact hs.runq_lt
  case target_lt =>
    intro u fl n hn
    rw [stack_setStack] at hn
    split_ifs at hn
    · rcases List.mem_cons.mp hn with hn | hn
      · exact absurd hn.symm (htarget fl n)
      · exact hs.target_lt _ fl n hn
    · exact hs.target_lt u fl n hn
  case current_lt => exact hs.current_lt
  case current_not_freed => exact hs.current_not_freed

/-- The stacks and the threads are all that matters. -/
theorem Stacked.congr (hs : k.Stacked) (hthread : k'.thread = k.thread) (h : Kept k k')
    (hrunq : k'.gRunq = k.gRunq) (hzombies : k'.gZombies = k.gZombies) : k'.Stacked := by
  obtain ⟨thread, stack, count, freed, gNextTid, gRunq, gZombies, current⟩ := k
  obtain ⟨thread', stack', count', freed', gNextTid', gRunq', gZombies', current'⟩ := k'
  obtain ⟨hstack, hcount, hfreed, hcurrent⟩ := h
  dsimp only at hthread hstack hcount hfreed hcurrent hrunq hzombies
  subst hthread hstack hcount hfreed hcurrent hrunq hzombies
  exact { hs with }

/-- An interrupt is taken in U-mode, or on top of a kernel frame. -/
theorem Stacked.interrupt (hs : k.Stacked) (pc : IrqPc) :
    (({ k with sie := false } : Kernel).setStack k.current
      (.irq k.inUser k.sie pc :: k.stack k.current)).Stacked := by
  have hsie : ({ k with sie := false } : Kernel).Stacked :=
    hs.congr rfl ⟨rfl, rfl, rfl, rfl⟩ rfl rfl
  refine hsie.push ?_ nofun
  cases hstack : k.stack k.current with
  | nil => exact absurd hstack (hs.nonempty _ hs.current_lt hs.current_not_freed)
  | cons g rest =>
    refine List.isChain_cons_cons.mpr ⟨?_, hstack ▸ hs.chain k.current⟩
    unfold inUser
    rw [hstack]
    by_cases hg : g = .user
    · rw [hg]
      rfl
    · have hin : (some g == some Frame.user) = false := by simpa using hg
      show Frame.On false (.irq (some g == some Frame.user) k.sie pc) g
      rw [hin]
      exact ⟨hg, nofun⟩

/-- **Every step** keeps the stacks as they should be. -/
theorem stacked_step {a : Label} (hs : k.Stacked) (h : step k a = some k') : k'.Stacked := by
  cases a with
  | tick d =>
    obtain rfl := Option.some.inj h
    exact hs.congr rfl ⟨rfl, rfl, rfl, rfl⟩ rfl rfl
  | interrupt timer =>
    obtain ⟨-, pc, rfl⟩ := step_interrupt h
    exact hs.interrupt pc
  | run c =>
    obtain ⟨f, rest, k₁, fs, hstack, hrun, rfl⟩ := step_run h
    exact stacked_run hs hstack hrun

theorem stacked_boot (freq : BitVec 64) : (boot freq).Stacked := by
  have hstack : ∀ t, (boot freq).stack t = [.shell] ∧ t = gBootstrap ∨
      (boot freq).stack t = [.idleThreadBody] ∧ t = Sched.idle ∨
      (boot freq).stack t = [] ∧ 2 ≤ t := fun t => by
    rcases t with _ | _ | t
    · exact Or.inl ⟨rfl, rfl⟩
    · exact Or.inr (Or.inl ⟨rfl, rfl⟩)
    · exact Or.inr (Or.inr ⟨rfl, Nat.le_add_left 2 t⟩)
  constructor
  case chain =>
    intro t
    rcases hstack t with ⟨h, -⟩ | ⟨h, -⟩ | ⟨h, -⟩ <;> rw [h] <;> simp
  case bottom =>
    intro t f hf
    rcases hstack t with ⟨h, -⟩ | ⟨h, -⟩ | ⟨h, -⟩ <;> rw [h] at hf
    · exact Option.some.inj hf ▸ trivial
    · exact Option.some.inj hf ▸ trivial
    · cases hf
  case unborn =>
    intro t ht
    rcases t with _ | _ | t
    · exact absurd ht (Nat.not_le.mpr Nat.zero_lt_two)
    · exact absurd ht (Nat.not_le.mpr Nat.one_lt_two)
    · exact ⟨rfl, rfl⟩
  case nonempty =>
    intro t ht _
    rcases hstack t with ⟨h, -⟩ | ⟨h, -⟩ | ⟨-, h⟩
    · exact h ▸ List.cons_ne_nil _ _
    · exact h ▸ List.cons_ne_nil _ _
    · exact absurd ht (Nat.not_lt.mpr h)
  case image_user => exact fun t ht => by cases ht
  case idle_lt => exact Nat.one_lt_two
  case idle_stack =>
    intro t
    rcases hstack t with ⟨h, rfl⟩ | ⟨h, rfl⟩ | ⟨h, ht⟩ <;> rw [h]
    · exact iff_of_false nofun (by decide)
    · exact iff_of_true rfl rfl
    · refine iff_of_false nofun ?_
      rintro rfl
      exact absurd ht (by decide)
  case idle_state => nofun
  case idle_zombies => nofun
  case runq_lt =>
    intro t ht
    rw [List.mem_singleton.mp ht]
    exact Nat.one_lt_two
  case target_lt =>
    intro t fl n hn
    rcases hstack t with ⟨h, -⟩ | ⟨h, -⟩ | ⟨h, -⟩ <;> rw [h] at hn <;> simp at hn
  case current_lt => exact Nat.zero_lt_two
  case current_not_freed => nofun

/-- **The stacks are as they should be** in every state of every run. -/
theorem stacked_of_reachable {freq : BitVec 64} {G : Kernel → Label → Prop}
    (h : Reachable step G (boot freq) k) : k.Stacked :=
  h.invariant (stacked_boot freq) fun _ _ _ hs _ hstep => stacked_step hs hstep

end Kernel
end Sched
end OscKernel
