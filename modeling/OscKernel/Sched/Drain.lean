import OscKernel.Sched.Tasks
import Mathlib.Data.List.Chain

/-!
# The interrupt enable around bottom halves (`task.c`)

`task_run_pending` runs every callback with `SIE` set, and reads the `SIE` that it brings back again
at the top of each round, after the callback.  Here are the calls on one kernel stack together with
the interrupts that are taken there whenever `SIE` is set, and with anything that other code does
meanwhile.

* `sie_of_return`: `task_run_pending` returns with the `SIE` it was called with exactly when it was
  called with `SIE` set or nothing was due.
* `unmasked_of_bottomHalf`: a trap handler that drains one bottom half goes on with `SIE` set.
* `Kernel.Drains`: the functions of the machine are these.

## What a round does to `SIE`

A round masks interrupts with `sie_save_clear`, and either finds nothing due and brings back what it
saved, or takes a task, sets `SIE`, runs the callback, and masks and restores again around the end
of the round.  A callback ends with `SIE` set, since every trap that is taken on top of it returns
to where `SIE` was set; so the next round saves a set bit, and so does the last one.  Only a call
whose first round finds nothing due brings back the bit of its caller.  `due` in the frame of the
call remembers this, as a fact about the queue at the time of the call.

## What else may happen

A callback may call `task_run_pending` again, an interrupt may be taken on top of it whose handler
does, and other threads may run and do anything to the queue and the running priority, at every
moment at which a call of `task_run_pending` is not itself executing (`DrainLabel.other`).  The
invariant is about the stack alone, so that none of this has to be known.
-/

namespace OscKernel
namespace Sched

open Transition

/-- A call on the stack, or the handler of an interrupt that was taken there. -/
inductive DrainCall (α : Type*) where
  /-- `task_run_pending()`, which was called with the value `sie` of `SIE`; `due` says whether the
  head of the queue was more urgent than the running priority then. -/
  | taskRunPending (sie due : Bool)
  /-- `t->cb(t->arg)`, with the `prev_prio` of the call of `task_run_pending` below. -/
  | callback (t : Task α) (prevPrio : ℤ)
  /-- `trap_handler`, on an interrupt that was taken in S-mode. -/
  | trapHandler

/-- A call of `task_run_pending`. -/
def DrainCall.IsDrain {α : Type*} : DrainCall α → Prop
  | .taskRunPending .. => True
  | _ => False

instance {α : Type*} : DecidablePred (DrainCall.IsDrain (α := α))
  | .taskRunPending .. => isTrue trivial
  | .callback .. | .trapHandler => isFalse not_false

/-- The state of `task.c`, the bit `SIE` of `sstatus`, and the calls in progress, the innermost
first. -/
structure Drain (α : Type*) where
  gTaskQueue : List (Task α)
  gRunningPriority : ℤ
  sie : Bool
  stack : List (DrainCall α)

/-- What happens next. -/
inductive DrainLabel (α : Type*) where
  /-- `task_run_pending` is called. -/
  | taskRunPending
  /-- The innermost call of `task_run_pending` goes on: it calls the next callback or returns. -/
  | goOn
  /-- The innermost callback returns, with `SIE` set. -/
  | callbackReturns
  /-- An interrupt is taken. -/
  | interrupt
  /-- `sret`. -/
  | trapReturns
  /-- What the code outside `task_run_pending` makes of the queue, the running priority and `SIE`:
  the callback or the trap handler that is innermost, and other threads. -/
  | other (queue : List (Task α)) (priority : ℤ) (sie : Bool)

namespace Drain

variable {α : Type*} (s : Drain α)

/-- `sie_save_clear`. -/
def sieSaveClear : Drain α × Bool := ({ s with sie := false }, s.sie)

/-- `sie_restore`. -/
def sieRestore (bit : Bool) : Drain α := if bit then { s with sie := true } else s

/-- The task that `task_run_pending` takes off the queue. -/
def next : Option (Task α × List (Task α)) :=
  match s.gTaskQueue with
  | t :: rest => if t.priority < s.gRunningPriority then some (t, rest) else none
  | [] => none

/-- One round of the loop of `task_run_pending`, up to the callback or the return. -/
def goOn (rest : List (DrainCall α)) : Drain α :=
  let (s', flags) := s.sieSaveClear
  match s'.next with
  | some (t, queue) =>
      { s' with
        gTaskQueue := queue
        gRunningPriority := t.priority
        sie := true
        stack := .callback t s.gRunningPriority :: s.stack }
  | none => { s'.sieRestore flags with stack := rest }

/-- The rest of the round, after the callback. -/
def taskDone (prevPrio : ℤ) (rest : List (DrainCall α)) : Drain α :=
  let (s', f2) := s.sieSaveClear
  { ({ s' with gRunningPriority := prevPrio } : Drain α).sieRestore f2 with stack := rest }

/-- The innermost call is one of `task_run_pending`. -/
def Draining : Prop := ∃ f ∈ s.stack.head?, f.IsDrain

instance : Decidable s.Draining := inferInstanceAs (Decidable (∃ f ∈ _, _))

/-- One step.  An interrupt is taken only where `SIE` is set, and its handler may call
`task_run_pending` in turn. -/
def step (s : Drain α) : DrainLabel α → Option (Drain α)
  | .taskRunPending =>
      if s.Draining then none
      else some { s with stack := .taskRunPending s.sie s.next.isSome :: s.stack }
  | .goOn =>
      match s.stack with
      | .taskRunPending _ _ :: rest => some (s.goOn rest)
      | _ => none
  | .callbackReturns =>
      match s.stack with
      | .callback _ prevPrio :: rest => if s.sie then some (s.taskDone prevPrio rest) else none
      | _ => none
  | .interrupt =>
      if s.sie then some { s with sie := false, stack := .trapHandler :: s.stack } else none
  | .trapReturns =>
      match s.stack with
      -- the interrupt was taken with `SIE` set
      | .trapHandler :: rest => some { s with sie := true, stack := rest }
      | _ => none
  | .other queue priority sie =>
      if s.Draining then none
      else some { s with gTaskQueue := queue, gRunningPriority := priority, sie := sie }

/-- Nothing is in progress. -/
def start (queue : List (Task α)) (priority : ℤ) (sie : Bool) : Drain α :=
  ⟨queue, priority, sie, []⟩

/-! ## The invariant -/

/-- `task_run_pending` was called with `SIE` set, or it has run a callback. -/
def Open : DrainCall α → Prop
  | .taskRunPending sie due => sie = true ∨ due = true
  | _ => True

/-- The innermost call goes on with `SIE` set, or nothing has happened since it was called with
`SIE` clear. -/
def TopKept : DrainCall α → Prop
  | .taskRunPending sie due =>
      s.sie = true ∧ (sie = true ∨ due = true) ∨
        s.sie = false ∧ sie = false ∧ due = s.next.isSome
  | _ => True

/-- What holds throughout a run. -/
structure SieKept : Prop where
  below : ∀ f ∈ s.stack.tail, Open f
  top : ∀ f ∈ s.stack.head?, s.TopKept f
  chain : s.stack.IsChain fun f g => f.IsDrain → ¬ g.IsDrain

variable {s} {s' : Drain α} {rest : List (DrainCall α)} {f : DrainCall α} {sie due : Bool}

/-- What a round of `task_run_pending` does. -/
theorem goOn_cases (s : Drain α) (rest : List (DrainCall α)) :
    (∃ t queue, s.next = some (t, queue) ∧ s.goOn rest = { s with
        gTaskQueue := queue, gRunningPriority := t.priority, sie := true
        stack := .callback t s.gRunningPriority :: s.stack }) ∨
      s.next = none ∧ s.goOn rest = { s with stack := rest } := by
  have hnext : s.sieSaveClear.1.next = s.next := rfl
  unfold goOn
  dsimp only
  rw [hnext]
  cases h : s.next with
  | some r => exact Or.inl ⟨r.1, r.2, rfl, rfl⟩
  | none =>
    refine Or.inr ⟨rfl, ?_⟩
    obtain ⟨queue, priority, sie, stack⟩ := s
    cases sie <;> rfl

/-- The end of a callback leaves `SIE` as the callback left it. -/
theorem taskDone_eq (s : Drain α) (prevPrio : ℤ) (rest : List (DrainCall α)) :
    s.taskDone prevPrio rest = { s with gRunningPriority := prevPrio, stack := rest } := by
  obtain ⟨queue, priority, sie, stack⟩ := s
  cases sie <;> rfl

/-- What the innermost call stands on is no second call of `task_run_pending`, and is open. -/
theorem SieKept.of_cons (h : s.SieKept) (hstack : s.stack = f :: rest) :
    (∀ g ∈ rest, Open g) ∧ (f.IsDrain → ∀ g ∈ rest.head?, ¬ g.IsDrain) ∧
      rest.IsChain fun f g => f.IsDrain → ¬ g.IsDrain := by
  have hbelow := h.below
  have hchain := h.chain
  rw [hstack] at hbelow hchain
  refine ⟨hbelow, fun hf g hg => ?_, hchain.tail⟩
  obtain ⟨rest, rfl⟩ := List.head?_eq_some_iff.mp hg
  exact (List.isChain_cons_cons.mp hchain).1 hf

/-- A call that is open is kept when `SIE` is set. -/
theorem topKept_of_open (hsie : s.sie = true) (hf : Open f) : s.TopKept f := by
  cases f with
  | taskRunPending => exact Or.inl ⟨hsie, hf⟩
  | callback | trapHandler => trivial

/-- Any other call is kept in every state. -/
theorem topKept_of_not_isDrain (hf : ¬ f.IsDrain) : s.TopKept f := by
  cases f with
  | taskRunPending => exact absurd trivial hf
  | callback | trapHandler => trivial

theorem open_of_not_isDrain (hf : ¬ f.IsDrain) : Open f := by
  cases f with
  | taskRunPending => exact absurd trivial hf
  | callback | trapHandler => trivial

/-- When `SIE` is set, every call in progress is open. -/
theorem SieKept.open_of_sie (h : s.SieKept) (hsie : s.sie = true) : ∀ f ∈ s.stack, Open f := by
  intro f hf
  cases hstack : s.stack with
  | nil =>
    rw [hstack] at hf
    cases hf
  | cons g rest =>
    rw [hstack] at hf
    rcases List.mem_cons.mp hf with rfl | hf
    · have htop := h.top f (by rw [hstack]; rfl)
      cases f with
      | taskRunPending =>
        rcases htop with ⟨-, hopen⟩ | ⟨hclear, -⟩
        · exact hopen
        · exact absurd (hsie.symm.trans hclear) nofun
      | callback | trapHandler => trivial
    · exact (h.of_cons hstack).1 f hf

/-- A call that is no `task_run_pending`, on top of calls that are all open. -/
theorem SieKept.push (h : s.SieKept) (hopen : ∀ g ∈ s.stack, Open g) (hf : ¬ f.IsDrain)
    (hs' : s'.stack = f :: s.stack) : s'.SieKept := by
  refine ⟨hs' ▸ hopen, ?_, ?_⟩
  · rw [hs']
    intro g hg
    obtain rfl := Option.some.inj hg
    exact topKept_of_not_isDrain hf
  · rw [hs']
    exact List.isChain_cons.mpr ⟨fun g _ hdrain => absurd hdrain hf, h.chain⟩

/-- A call ends with `SIE` set. -/
theorem SieKept.pop (h : s.SieKept) (hstack : s.stack = f :: rest) (hs' : s'.stack = rest)
    (hsie : s'.sie = true) : s'.SieKept := by
  obtain ⟨hopen, -, hchain⟩ := h.of_cons hstack
  subst hs'
  exact ⟨fun g hg => hopen g (List.mem_of_mem_tail hg),
    fun g hg => topKept_of_open hsie (hopen g (List.mem_of_mem_head? hg)), hchain⟩

/-- When no call of `task_run_pending` is innermost, every call in progress is open. -/
theorem SieKept.open_of_not_draining (h : s.SieKept) (hs : ¬ s.Draining) :
    ∀ f ∈ s.stack, Open f := by
  intro f hf
  cases hstack : s.stack with
  | nil =>
    rw [hstack] at hf
    cases hf
  | cons g rest =>
    rw [hstack] at hf
    rcases List.mem_cons.mp hf with rfl | hf
    · exact open_of_not_isDrain fun hdrain => hs ⟨f, by rw [hstack]; rfl, hdrain⟩
    · exact (h.of_cons hstack).1 f hf

/-- **Every step** keeps the invariant. -/
theorem sieKept_step {a : DrainLabel α} (h : s.SieKept) (hs : s.step a = some s') :
    s'.SieKept := by
  cases a with
  | taskRunPending =>
    rw [step] at hs
    split_ifs at hs with hdraining
    obtain rfl := Option.some.inj hs
    refine ⟨h.open_of_not_draining hdraining, fun f hf => ?_, ?_⟩
    · obtain rfl := Option.some.inj hf
      show s.sie = true ∧ _ ∨ s.sie = false ∧ s.sie = false ∧ _
      cases s.sie with
      | true => exact Or.inl ⟨rfl, Or.inl rfl⟩
      | false => exact Or.inr ⟨rfl, rfl, rfl⟩
    · exact List.isChain_cons.mpr
        ⟨fun g hg _ hdrain => hdraining ⟨g, hg, hdrain⟩, h.chain⟩
  | goOn =>
    rw [step] at hs
    cases hstack : s.stack with
    | nil =>
      rw [hstack] at hs
      cases hs
    | cons f rest =>
      rw [hstack] at hs
      cases f with
      | callback | trapHandler => cases hs
      | taskRunPending sie due =>
        obtain rfl := Option.some.inj hs
        obtain ⟨hopen, hbelow, hchain⟩ := h.of_cons hstack
        have htop := h.top (.taskRunPending sie due) (by rw [hstack]; rfl)
        obtain ⟨t, queue, hnext, heq⟩ | ⟨hnone, heq⟩ := goOn_cases s rest
        · rw [heq]
          refine h.push (f := .callback t s.gRunningPriority) ?_ not_false rfl
          rw [hstack]
          refine List.forall_mem_cons.mpr ⟨?_, hopen⟩
          rcases htop with ⟨-, hor⟩ | ⟨-, -, hdue⟩
          · exact hor
          · exact Or.inr (hdue.trans (by rw [hnext]; rfl))
        · rw [heq]
          exact ⟨fun g hg => hopen g (List.mem_of_mem_tail hg),
            fun g hg => topKept_of_not_isDrain (hbelow trivial g hg), hchain⟩
  | callbackReturns =>
    rw [step] at hs
    cases hstack : s.stack with
    | nil =>
      rw [hstack] at hs
      cases hs
    | cons f rest =>
      rw [hstack] at hs
      cases f with
      | taskRunPending | trapHandler => cases hs
      | callback t prevPrio =>
        dsimp only at hs
        split_ifs at hs with hsie
        obtain rfl := Option.some.inj hs
        rw [taskDone_eq]
        exact h.pop hstack rfl hsie
  | interrupt =>
    rw [step] at hs
    split_ifs at hs with hsie
    obtain rfl := Option.some.inj hs
    exact h.push (f := .trapHandler) (h.open_of_sie hsie) not_false rfl
  | trapReturns =>
    rw [step] at hs
    cases hstack : s.stack with
    | nil =>
      rw [hstack] at hs
      cases hs
    | cons f rest =>
      rw [hstack] at hs
      cases f with
      | taskRunPending | callback => cases hs
      | trapHandler =>
        obtain rfl := Option.some.inj hs
        exact h.pop hstack rfl rfl
  | other queue priority sie =>
    rw [step] at hs
    split_ifs at hs with hdraining
    obtain rfl := Option.some.inj hs
    exact ⟨h.below, fun f hf => topKept_of_not_isDrain fun hdrain => hdraining ⟨f, hf, hdrain⟩,
      h.chain⟩

theorem sieKept_of_reachable {queue : List (Task α)} {priority : ℤ} {sie : Bool}
    (h : Reachable step anyStep (start queue priority sie) s) : s.SieKept :=
  h.invariant (P := SieKept) ⟨nofun, nofun, List.IsChain.nil⟩
    fun _ _ _ hi _ hs => sieKept_step hi hs

/-- A round that ends a call of `task_run_pending`. -/
theorem step_return (hs : s.step .goOn = some s')
    (hstack : s.stack = .taskRunPending sie due :: s'.stack) :
    s.next = none ∧ s'.sie = s.sie := by
  rw [step, hstack] at hs
  have heq : s.goOn s'.stack = s' := Option.some.inj hs
  obtain ⟨t, queue, -, hgo⟩ | ⟨hnone, hgo⟩ := goOn_cases s s'.stack
  · -- a callback is called, and the stack grows
    have hlen := congrArg (fun s => s.stack.length) (hgo.symm.trans heq)
    simp only [hstack, List.length_cons] at hlen
    omega
  · have hsie := congrArg Drain.sie hgo
    exact ⟨hnone, (congrArg Drain.sie heq).symm.trans hsie⟩

/-- **The interrupt state.**  Whatever the queue holds and whatever happens in between, a call of
`task_run_pending` returns with the `SIE` it was called with exactly when it was called with `SIE`
set, or when no task was due then. -/
theorem sie_of_return {queue : List (Task α)} {priority : ℤ} {sie₀ : Bool}
    (h : Reachable step anyStep (start queue priority sie₀) s) (hs : s.step .goOn = some s')
    (hstack : s.stack = .taskRunPending sie due :: s'.stack) :
    s'.sie = sie ↔ sie = true ∨ due = false := by
  obtain ⟨hnone, hsie⟩ := step_return hs hstack
  have htop := (sieKept_of_reachable h).top (.taskRunPending sie due) (by rw [hstack]; rfl)
  rw [hsie]
  rcases htop with ⟨hset, hor⟩ | ⟨hclear, rfl, hdue⟩
  · cases sie <;> simp_all
  · rw [hnone] at hdue
    exact iff_of_true hclear (Or.inr hdue)

/-- A bottom half that is interrupted: the handler adds a more urgent one, which runs on top of
it. -/
def preemptedRun : List (DrainLabel ℕ) :=
  [.taskRunPending, .goOn, .interrupt, .other [⟨1, 1, 0⟩] 3 false, .taskRunPending, .goOn,
    .callbackReturns, .goOn, .trapReturns, .callbackReturns]

/-- The shell calls `task_run_pending` with interrupts enabled, and goes on so. -/
theorem sie_of_preemptedRun : ∃ s s' : Drain ℕ,
    runList step (start [⟨0, 3, 0⟩] taskPrioIdle true) preemptedRun = some s ∧
      s.step .goOn = some s' ∧ s.stack = .taskRunPending true true :: s'.stack ∧
        s'.sie = true := by
  obtain ⟨s, hs, s', hs', hstack⟩ : ∃ s, runList step
      (start ([⟨0, 3, 0⟩] : List (Task ℕ)) taskPrioIdle true) preemptedRun = some s ∧
        ∃ s', s.step .goOn = some s' ∧ s.stack = .taskRunPending true true :: s'.stack :=
    ⟨_, rfl, _, rfl, rfl⟩
  exact ⟨s, s', hs, hs', hstack,
    (sie_of_return (reachable_of_runList hs) hs' hstack).mpr (Or.inl rfl)⟩

/-- The handler of an interrupt, whose top half has added a task. -/
def bottomHalfRun : List (DrainLabel ℕ) :=
  [.interrupt, .other [⟨0, 1, 0⟩] taskPrioIdle false, .taskRunPending, .goOn, .callbackReturns]

/-- **A handler that is unmasked.**  The handler calls `task_run_pending` with interrupts masked,
and goes on with `SIE` set after one bottom half. -/
theorem unmasked_of_bottomHalf : ∃ s s' : Drain ℕ,
    runList step (start [] taskPrioIdle true) bottomHalfRun = some s ∧
      s.step .goOn = some s' ∧ s.stack = .taskRunPending false true :: s'.stack ∧
        s'.stack = [.trapHandler] ∧ s'.sie = true :=
  ⟨_, _, rfl, rfl, rfl, rfl, rfl⟩

end Drain

/-! ## The machine -/

namespace Kernel

/-- `s` is what `task.c` and `SIE` are in `k`. -/
structure Drains (k : Kernel) (s : Drain Callback) : Prop where
  tasks : k.gTaskQueue = s.gTaskQueue.map Task.node
  priority : k.gRunningPriority = s.gRunningPriority
  sie : k.sie = s.sie

variable {k : Kernel} {s : Drain Callback} {rest : List (DrainCall Callback)}

/-- One round of the loop of `task_run_pending`. -/
theorem Drains.taskRunPending (h : k.Drains s) {sie due : Bool}
    (hstack : s.stack = .taskRunPending sie due :: rest) : ∃ s', s.step .goOn = some s' ∧
      k.taskRunPending.1.Drains s' ∧
      (k.taskRunPending.2 = [] ∧ s'.stack = rest ∨
        ∃ t, k.taskRunPending.2 = [.callback t.cb, .taskDone k.gRunningPriority] ∧
          s'.stack = .callback t k.gRunningPriority :: s.stack) := by
  have htasks := h.tasks
  have hstep : s.step .goOn = some (s.goOn rest) := by rw [Drain.step, hstack]
  refine ⟨_, hstep, ?_⟩
  cases hq : s.gTaskQueue with
  | nil =>
    rw [hq] at htasks
    have hnext : s.next = none := by rw [Drain.next, hq]
    obtain ⟨t, queue, hsome, -⟩ | ⟨-, heq⟩ := Drain.goOn_cases s rest
    · exact absurd (hsome.symm.trans hnext) nofun
    · rw [taskRunPending_nil htasks, heq]
      exact ⟨⟨htasks.trans (by rw [hq]), h.priority, h.sie⟩, Or.inl ⟨rfl, rfl⟩⟩
  | cons t queue =>
    rw [hq] at htasks
    have hnext : s.next = if t.priority < s.gRunningPriority then some (t, queue) else none := by
      rw [Drain.next, hq]
    rw [taskRunPending_cons htasks, h.priority]
    by_cases hlt : t.priority < s.gRunningPriority
    · rw [if_pos hlt] at hnext
      rw [if_pos (show t.node.priority < s.gRunningPriority from hlt)]
      obtain ⟨t', queue', hsome, heq⟩ | ⟨hnone, -⟩ := Drain.goOn_cases s rest
      · obtain ⟨rfl, rfl⟩ := Prod.mk.inj (Option.some.inj (hsome.symm.trans hnext))
        rw [heq]
        exact ⟨⟨rfl, rfl, rfl⟩, Or.inr ⟨t', rfl, rfl⟩⟩
      · exact absurd (hnone.symm.trans hnext) nofun
    · rw [if_neg hlt] at hnext
      rw [if_neg (show ¬ t.node.priority < s.gRunningPriority from hlt)]
      obtain ⟨t', queue', hsome, -⟩ | ⟨-, heq⟩ := Drain.goOn_cases s rest
      · exact absurd (hsome.symm.trans hnext) nofun
      · rw [heq]
        exact ⟨⟨htasks.trans (by rw [hq]), h.priority, h.sie⟩, Or.inl ⟨rfl, rfl⟩⟩

/-- The end of a callback. -/
theorem Drains.taskDone (h : k.Drains s) (prevPrio : ℤ) :
    Drains { k with gRunningPriority := prevPrio } (s.taskDone prevPrio rest) := by
  rw [Drain.taskDone_eq]
  exact ⟨h.tasks, rfl, h.sie⟩

end Kernel
end Sched
end OscKernel
