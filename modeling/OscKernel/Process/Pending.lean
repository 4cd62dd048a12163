import OscKernel.Process.Handler

/-!
# Pending signals (`signal.c`)

The pending set of a process from one step to the next.  Posts add to it, a delivery takes its
lowest signal, `exec` empties it, and nothing else touches it.

* `SigStep`: what a step can do to the pending set of a process; `sigStep_of_step`.
* `deliver_step`: what a delivery does.
* `signals_of_reachable`: signals are neither lost nor delivered twice.

## One lemma about steps

The pending set is a word with a bit for each signal, so that a signal that is posted twice before
it is delivered is delivered once; this is how the source counts, and it is not a loss.  `SigStep`
lists what can happen to the word in one step, with the posts, the deliveries and the `exec`s named,
and every clause of the theorem is read off it.

The clauses about runs are two inductions with opposite conditions.  A pending signal stays pending
in a run without its delivery, an `exec` that succeeds, and the end of the process (`Spares`).  One
that is not pending is not delivered in a run in which nobody posts it.

## What a delivery does

A delivery takes the signal out of the set before it looks at the table.  With `SIG_IGN` nothing
else happens, with `SIG_DFL` the process is terminated, and a handler is entered on a stack that is
allocated for it; without memory for the stack the process is terminated as well.
-/

namespace OscKernel
namespace Process

open Rv64 (Word)
open Transition

namespace State

variable {s s' s'' : State} {t u : Tid} {x y : Thread} {c : Choice} {p stk : Word}
  {f : Thread → Thread} {a : Label} {n m : ℕ}

/-! ## Bits -/

theorem getLsbD_one : (1 : Word).getLsbD m = decide (m = 0) := by
  show (1#64).getLsbD m = _
  rw [BitVec.getLsbD_one]
  simp

theorem not_getLsbD_zero : ¬ (0 : Word).getLsbD m = true := by
  show ¬ (0#64).getLsbD m = true
  rw [BitVec.getLsbD_zero]
  exact Bool.false_ne_true

theorem getLsbD_bit (hn : n < 64) : ((1 : Word) <<< n).getLsbD m = decide (m = n) := by
  rw [BitVec.getLsbD_shiftLeft, getLsbD_one]
  by_cases h : m = n
  · simp [h, hn]
  · simp [h]
    omega

/-- The bits after a signal is posted. -/
theorem getLsbD_post (hn : n < 64) : (p ||| (1 : Word) <<< n).getLsbD m =
    (p.getLsbD m || decide (m = n)) := by
  rw [BitVec.getLsbD_or, getLsbD_bit hn]

/-- The bits after a signal is taken. -/
theorem getLsbD_take (hn : n < 64) : (p &&& ~~~((1 : Word) <<< n)).getLsbD m =
    (p.getLsbD m && decide (m ≠ n)) := by
  rw [BitVec.getLsbD_and, BitVec.getLsbD_not, getLsbD_bit hn]
  by_cases hm : m < 64
  · simp [hm]
  · rw [BitVec.getLsbD_of_ge p m (Nat.not_lt.mp hm), Bool.false_and, Bool.false_and]

theorem and_one_eq_zero_iff : p &&& 1 = 0 ↔ p.getLsbD 0 = false := by
  constructor
  · intro h
    have hbit := congrArg (fun q => BitVec.getLsbD q 0) h
    simpa using hbit
  · intro h
    apply BitVec.eq_of_getLsbD_eq
    intro i hi
    rw [BitVec.getLsbD_and]
    cases i with
    | zero =>
      rw [h]
      rfl
    | succ i =>
      rw [getLsbD_one, decide_eq_false (Nat.succ_ne_zero i), Bool.and_false]
      exact BitVec.getLsbD_zero.symm

theorem lowestBitIndexFrom_eq {k : ℕ} (hn : p.getLsbD n = true)
    (hmin : ∀ m < n, p.getLsbD m = false) (hk : n < k) (idx : ℕ) :
    lowestBitIndexFrom k p idx = idx + n := by
  induction k generalizing p n idx with
  | zero => exact absurd hk (Nat.not_lt_zero n)
  | succ k ih =>
    rw [lowestBitIndexFrom]
    cases n with
    | zero =>
      have hbit : ¬ p &&& 1 = 0 := fun h0 => by
        rw [and_one_eq_zero_iff, hn] at h0
        cases h0
      rw [if_neg hbit, Nat.add_zero]
    | succ n =>
      have hnext : lowestBitIndexFrom k (p >>> 1) (idx + 1) = idx + 1 + n := by
        refine ih ?_ (fun m hm => ?_) (Nat.lt_of_succ_lt_succ hk) (idx + 1)
        · rw [BitVec.getLsbD_ushiftRight, Nat.add_comm]
          exact hn
        · rw [BitVec.getLsbD_ushiftRight, Nat.add_comm]
          exact hmin (m + 1) (Nat.succ_lt_succ hm)
      rw [if_pos (and_one_eq_zero_iff.mpr (hmin 0 (Nat.succ_pos n))), hnext]
      omega

/-- **The lowest bit.** -/
theorem lowestBitIndex_spec (h : p ≠ 0) : p.getLsbD (lowestBitIndex p) = true ∧
    ∀ m < lowestBitIndex p, p.getLsbD m = false := by
  have hex : ∃ n, p.getLsbD n = true := by
    by_contra hnone
    refine h (BitVec.eq_of_getLsbD_eq fun i _ => ?_)
    have hi : p.getLsbD i = false := Bool.eq_false_iff.mpr fun hi => hnone ⟨i, hi⟩
    exact hi.trans BitVec.getLsbD_zero.symm
  have hmin : ∀ m < Nat.find hex, p.getLsbD m = false := fun m hm =>
    Bool.eq_false_iff.mpr (Nat.find_min hex hm)
  have hlt : Nat.find hex < 64 := by
    by_contra hge
    have hbit := Nat.find_spec hex
    rw [BitVec.getLsbD_of_ge p _ (Nat.not_lt.mp hge)] at hbit
    cases hbit
  have heq : lowestBitIndex p = Nat.find hex := by
    rw [lowestBitIndex, lowestBitIndexFrom_eq (Nat.find_spec hex) hmin hlt, Nat.zero_add]
  rw [heq]
  exact ⟨Nat.find_spec hex, hmin⟩

/-! ## What a step does to the pending set of a process -/

/-- The pending set of `t`, when it is there. -/
def pendingOf (s : State) (t : Tid) : Option Word := (s.thread t).map fun x => x.sig.pending

/-- Signal `n` is pending for `t`. -/
def Pending (s : State) (t : Tid) (n : ℕ) : Prop := ∃ p ∈ s.pendingOf t, p.getLsbD n = true

/-- `n` is a signal number that `sys_kill` accepts, and `find_thread_by_pid` has found `t`, which is
a live process. -/
def Sends (s : State) (t : Tid) (n : ℕ) (c : Choice) (signum : ℤ) : Prop :=
  signum = n ∧ 0 < n ∧ n < nsig ∧ c.target = some t ∧ ∃ y, s.thread t = some y ∧ y.imageBase ≠ 0

/-- The step posts signal `n` to `t`. -/
def Posts (s : State) (t : Tid) (n : ℕ) : Label → Prop
  | .kill c signum => s.Sends t n c signum
  | .doSyscall u c => ∃ x, s.inPhase u (· == .doSyscall) = some x ∧
      Syscall.decode x.frame.a7 = some .kill ∧ s.Sends t n c (x.frame.a1.setWidth 32).toInt
  | _ => False

/-- The step is a delivery to `t`, with no handler active, and `n` is its lowest signal. -/
def Dispatches (s : State) (t : Tid) (n : ℕ) : Label → Prop
  | .deliver u _ => u = t ∧ ∃ x, s.inPhase t (· == .deliver) = some x ∧ x.imageBase ≠ 0 ∧
      x.sig.inHandler = false ∧ x.sig.pending ≠ 0 ∧ lowestBitIndex x.sig.pending = n
  | _ => False

/-- The step is an `exec` by `t` that succeeds. -/
def Execs (s : State) (t : Tid) : Label → Prop
  | .doSyscall u c => u = t ∧ ∃ x, s.inPhase t (· == .doSyscall) = some x ∧
      Syscall.decode x.frame.a7 = some .exec ∧ x.imageBase ≠ 0 ∧ c.file ≠ none ∧ c.block ≠ 0
  | _ => False

/-- What a step can do to the pending set of `t`. -/
inductive SigStep (s : State) (t : Tid) (a : Label) : Option Word → Option Word → Prop where
  | same (q : Option Word) : SigStep s t a q q
  | born : SigStep s t a none (some 0)
  | post (p : Word) (n : ℕ) (h : s.Posts t n a) :
      SigStep s t a (some p) (some (p ||| (1 : Word) <<< n))
  | dispatch (p : Word) (n : ℕ) (h : s.Dispatches t n a) :
      SigStep s t a (some p) (some (p &&& ~~~((1 : Word) <<< n)))
  | exec (p : Word) (h : s.Execs t a) : SigStep s t a (some p) (some 0)
  | reaped (p : Word) (h : a = .reap t) : SigStep s t a (some p) none

theorem pendingOf_congr (h : s'.thread = s.thread) : s'.pendingOf = s.pendingOf := by
  funext t
  exact congrArg (Option.map _) (congrFun h t)

theorem pendingOf_modify (hf : ∀ x, (f x).sig.pending = x.sig.pending) :
    (s.modify u f).pendingOf = s.pendingOf := by
  funext t
  unfold pendingOf
  rw [thread_modify]
  split_ifs with h
  · rw [Option.map_map]
    exact Option.map_congr fun x _ => hf x
  · rfl

theorem pendingOf_ret (r : Word) : (s.ret u r).pendingOf = s.pendingOf := by
  unfold ret
  exact pendingOf_modify fun x => rfl

theorem pendingOf_kfreeIf : (s.kfreeIf p).pendingOf = s.pendingOf := pendingOf_congr thread_kfreeIf

theorem pendingOf_kmalloc (h : s.kmalloc p = some s') : s'.pendingOf = s.pendingOf := by
  rcases kmalloc_cases h with ⟨-, rfl⟩ | ⟨-, -, rfl⟩
  · rfl
  · exact pendingOf_congr rfl

theorem pendingOf_terminate : (s.terminate u y).pendingOf = s.pendingOf := by
  unfold terminate
  rw [pendingOf_modify, pendingOf_kfreeIf]
  exact fun x => rfl

theorem pendingOf_signalRelease : (s.signalRelease u y).pendingOf = s.pendingOf := by
  unfold signalRelease
  rw [pendingOf_modify, pendingOf_kfreeIf]
  exact fun x => rfl

theorem pendingOf_signalDefaultTerminate :
    (s.signalDefaultTerminate u y).pendingOf = s.pendingOf :=
  pendingOf_signalRelease.trans pendingOf_terminate

theorem pendingOf_stopTarget (h : s.stopTarget c = some s') : s'.pendingOf = s.pendingOf := by
  unfold stopTarget at h
  obtain ⟨u, -, hu⟩ := Option.bind_eq_some_iff.mp h
  obtain ⟨y, -, hs⟩ := Option.bind_eq_some_iff.mp hu
  split_ifs at hs
  exact Option.some.inj hs ▸ pendingOf_signalDefaultTerminate

/-- No pending set changes. -/
theorem sigStep_of_eq (h : s'.pendingOf = s.pendingOf) (t : Tid) :
    SigStep s t a (s.pendingOf t) (s'.pendingOf t) := by
  rw [h]
  exact .same _

/-- A new process has an empty pending set. -/
theorem sigStep_newThread (hok : s.Ok) {new : Thread} {b : Bool}
    (h : s.newThread c new = some (s', b)) (hnew : new.sig.pending = 0) (t : Tid) :
    SigStep s t a (s.pendingOf t) (s'.pendingOf t) := by
  rcases newThread_cases h with ⟨-, h⟩ | ⟨-, h⟩
  · exact sigStep_of_eq (pendingOf_congr h.thread) t
  · have hnext : s'.pendingOf t = if t = c.structBlock then some 0 else s.pendingOf t := by
      unfold pendingOf
      rw [h.thread, Function.update_apply]
      split_ifs
      · exact congrArg some hnew
      · rfl
    rw [hnext]
    split_ifs with ht
    · have hnone : s.pendingOf t = none := by
        rw [ht]
        exact congrArg (Option.map _) (h.fresh hok)
      rw [hnone]
      exact .born
    · exact .same _

/-- One pending set is rewritten. -/
theorem sigStep_rewrite {s₁ : State} (hs₁ : s₁.thread t = some x)
    (hbefore : s₁.pendingOf = s.pendingOf) (hafter : s'.pendingOf = (s₁.modify t f).pendingOf)
    (hstep : SigStep s t a (some x.sig.pending) (some (f x).sig.pending)) (u : Tid) :
    SigStep s u a (s.pendingOf u) (s'.pendingOf u) := by
  rw [hafter, ← hbefore]
  by_cases htu : u = t
  · subst htu
    have h : s₁.pendingOf u = some x.sig.pending := congrArg (Option.map _) hs₁
    have h' : (s₁.modify u f).pendingOf u = some (f x).sig.pending :=
      congrArg (Option.map _) (thread_modify_self hs₁)
    rw [h, h']
    exact hstep
  · have h : (s₁.modify t f).pendingOf u = s₁.pendingOf u :=
      congrArg (Option.map _) (thread_modify_of_ne htu)
    rw [h]
    exact .same _

/-- What `signal_check_and_dispatch` does with signal `n`. -/
inductive Dispatched (s : State) (t : Tid) (x : Thread) (stk : Word) (n : ℕ) : State → Prop where
  | ignore (h : x.sig.handlers n = sigIgn) : Dispatched s t x stk n (s.modify t (takeSignal n))
  | terminate (h : x.sig.handlers n = sigDfl) :
      Dispatched s t x stk n ((s.modify t (takeSignal n)).signalDefaultTerminate t x)
  | noMemory (hign : x.sig.handlers n ≠ sigIgn) (hdfl : x.sig.handlers n ≠ sigDfl) (h : stk = 0) :
      Dispatched s t x stk n
        (((s.modify t (takeSignal n)).modify t saveFrame).signalDefaultTerminate t x)
  | enter (hign : x.sig.handlers n ≠ sigIgn) (hdfl : x.sig.handlers n ≠ sigDfl) (h : stk ≠ 0)
      (s₁ : State) (h₁ : s₁.thread = ((s.modify t (takeSignal n)).modify t saveFrame).thread) :
      Dispatched s t x stk n (s₁.modify t (enterHandler (x.sig.handlers n) stk n))

theorem dispatched_of_eq (h : s.signalCheckAndDispatch t x stk = some s')
    (hgate : ¬ (x.imageBase = 0 ∨ x.sig.inHandler = true ∨ x.sig.pending = 0)) :
    Dispatched s t x stk (lowestBitIndex x.sig.pending) s' := by
  unfold signalCheckAndDispatch at h
  rw [if_neg hgate] at h
  dsimp only at h
  split_ifs at h with hign hdfl hstk
  · exact Option.some.inj h ▸ .ignore hign
  · exact Option.some.inj h ▸ .terminate hdfl
  · obtain ⟨s₁, h₁, rfl⟩ := Option.map_eq_some_iff.mp h
    rcases kmalloc_cases h₁ with ⟨-, rfl⟩ | ⟨h0, -, -⟩
    · exact .noMemory hign hdfl hstk
    · exact absurd hstk h0
  · obtain ⟨s₁, h₁, rfl⟩ := Option.map_eq_some_iff.mp h
    rcases kmalloc_cases h₁ with ⟨h0, -⟩ | ⟨-, -, rfl⟩
    · exact absurd h0 hstk
    · exact .enter hign hdfl hstk _ rfl

/-- Whatever the handler is, one signal is taken. -/
theorem Dispatched.pendingOf_eq (h : Dispatched s t x stk n s') :
    s'.pendingOf = (s.modify t (takeSignal n)).pendingOf := by
  have hsave : ((s.modify t (takeSignal n)).modify t saveFrame).pendingOf =
      (s.modify t (takeSignal n)).pendingOf := pendingOf_modify fun x => rfl
  cases h with
  | ignore => rfl
  | terminate => exact pendingOf_signalDefaultTerminate
  | noMemory => exact pendingOf_signalDefaultTerminate.trans hsave
  | enter _ _ _ s₁ h₁ =>
    rw [pendingOf_modify, pendingOf_congr h₁, hsave]
    exact fun x => rfl

theorem sigStep_killTarget {signum : ℤ} (h : s.killTarget c signum = some s')
    (hpost : ∀ t n, s.Sends t n c signum → s.Posts t n a) (u : Tid) :
    SigStep s u a (s.pendingOf u) (s'.pendingOf u) := by
  unfold killTarget at h
  obtain ⟨t, ht, hu⟩ := Option.bind_eq_some_iff.mp h
  obtain ⟨y, hy, hs⟩ := Option.bind_eq_some_iff.mp hu
  split_ifs at hs with himage
  obtain rfl := Option.some.inj hs
  unfold signalPost
  split_ifs with hrange
  · exact .same _
  · obtain ⟨n, rfl⟩ := Int.eq_ofNat_of_zero_le (by omega : 0 ≤ signum)
    have hsends : s.Sends t n c n := ⟨rfl, by omega, by omega, ht, y, hy, himage⟩
    exact sigStep_rewrite hy rfl rfl (.post _ n (hpost t n hsends)) u

theorem sigStep_sysExec (hx : s.inPhase t (· == .doSyscall) = some x)
    (hcall : Syscall.decode x.frame.a7 = some .exec) (h : s.sysExec t x c = some s') (u : Tid) :
    SigStep s u (.doSyscall t c) (s.pendingOf u) (s'.pendingOf u) := by
  unfold sysExec at h
  by_cases himage : x.imageBase = 0
  · rw [if_pos himage] at h
    exact Option.some.inj h ▸ sigStep_of_eq (pendingOf_ret _) u
  rw [if_neg himage] at h
  cases hfile : c.file with
  | none =>
    rw [hfile] at h
    exact Option.some.inj h ▸ sigStep_of_eq (pendingOf_ret _) u
  | some sz =>
    rw [hfile] at h
    obtain ⟨s₁, h₁, rfl⟩ := Option.map_eq_some_iff.mp h
    have hsame := pendingOf_kmalloc h₁
    have hthread : s₁.thread = s.thread := by
      rcases kmalloc_cases h₁ with ⟨-, rfl⟩ | ⟨-, -, rfl⟩ <;> rfl
    have hx₁ : s₁.thread t = some x := (congrFun hthread t).trans (inPhase_eq hx).1
    split_ifs with hblock
    · exact sigStep_of_eq ((pendingOf_ret _).trans hsame) u
    · dsimp only
      have hexec : s.Execs t (.doSyscall t c) :=
        ⟨rfl, x, hx, hcall, himage, by rw [hfile]; exact Option.some_ne_none sz, hblock⟩
      have hx₂ : ((s₁.modify t fun x => { x with
          imageBase := c.block, totalSize := sz + userStackSize }).kfree x.imageBase).thread t =
            some { x with imageBase := c.block, totalSize := sz + userStackSize } :=
        thread_modify_self hx₁
      refine sigStep_rewrite (f := fun x => { x with
        sig := { x.sig with handlers := fun _ => sigDfl, pending := 0 } }) hx₂ ?_ ?_
          (.exec _ hexec) u
      · rw [pendingOf_congr thread_kfree, pendingOf_modify, hsame]
        exact fun x => rfl
      · rw [pendingOf_ret, pendingOf_modify, pendingOf_signalRelease]
        exact fun x => rfl

theorem sigStep_doSyscall (hok : s.Ok) (hx : s.inPhase t (· == .doSyscall) = some x)
    (h : s.doSyscall t x c = some s') (u : Tid) :
    SigStep s u (.doSyscall t c) (s.pendingOf u) (s'.pendingOf u) := by
  unfold doSyscall at h
  cases hcall : Syscall.decode x.frame.a7 with
  | none =>
    rw [hcall] at h
    exact Option.some.inj h ▸ sigStep_of_eq (pendingOf_ret _) u
  | some call =>
    rw [hcall] at h
    cases call with
    | exec => exact sigStep_sysExec hx hcall h u
    | fork =>
      change s.sysFork t x c = some s' at h
      unfold sysFork at h
      split_ifs at h
      · exact Option.some.inj h ▸ sigStep_of_eq (pendingOf_ret _) u
      · obtain ⟨⟨s₁, b⟩, hnew, rfl⟩ := Option.map_eq_some_iff.mp h
        rw [pendingOf_ret]
        exact sigStep_newThread hok hnew rfl u
    | exit => exact Option.some.inj h ▸ sigStep_of_eq pendingOf_signalDefaultTerminate u
    | stop =>
      obtain rfl := Option.some.inj h
      refine sigStep_of_eq ?_ u
      unfold sysStop
      split_ifs
      · exact pendingOf_signalDefaultTerminate
      · cases hs : s.stopTarget c with
        | none => exact pendingOf_ret _
        | some s₁ => exact (pendingOf_ret _).trans (pendingOf_stopTarget hs)
    | signal =>
      obtain rfl := Option.some.inj h
      refine sigStep_of_eq ?_ u
      unfold sysSignal
      dsimp only
      split_ifs
      · exact pendingOf_ret _
      · rw [pendingOf_ret, pendingOf_modify]
        exact fun x => rfl
    | sigreturn =>
      obtain rfl := Option.some.inj h
      refine sigStep_of_eq ?_ u
      unfold sysSigreturn signalReturn
      split_ifs
      · rw [pendingOf_ret, pendingOf_signalRelease, pendingOf_modify]
        exact fun x => rfl
      · exact pendingOf_ret _
    | kill =>
      obtain rfl := Option.some.inj h
      unfold sysKill
      dsimp only
      split_ifs
      · exact sigStep_of_eq (pendingOf_ret _) u
      · cases hs : s.killTarget c (x.frame.a1.setWidth 32).toInt with
        | none => exact sigStep_of_eq (pendingOf_ret _) u
        | some s₁ =>
          show SigStep s u _ _ ((s₁.ret t 0).pendingOf u)
          rw [pendingOf_ret]
          refine sigStep_killTarget hs (fun v n hsends => ?_) u
          exact ⟨x, hx, hcall, hsends⟩
    | getpid | uartRead | uartWrite | waitpid | display | usleep =>
      exact Option.some.inj h ▸ sigStep_of_eq (pendingOf_ret _) u

theorem sigStep_deliver (hx : s.inPhase t (· == .deliver) = some x)
    (h : s.signalCheckAndDispatch t x stk = some s') (u : Tid) :
    SigStep s u (.deliver t stk) (s.pendingOf u) (s'.pendingOf u) := by
  by_cases hgate : x.imageBase = 0 ∨ x.sig.inHandler = true ∨ x.sig.pending = 0
  · unfold signalCheckAndDispatch at h
    rw [if_pos hgate] at h
    exact Option.some.inj h ▸ .same _
  · have hdisp := dispatched_of_eq h hgate
    obtain ⟨himage, hin, hpending⟩ : x.imageBase ≠ 0 ∧ x.sig.inHandler = false ∧
        x.sig.pending ≠ 0 := by simpa only [not_or, Bool.not_eq_true] using hgate
    have hdispatch : s.Dispatches t (lowestBitIndex x.sig.pending) (.deliver t stk) :=
      ⟨rfl, x, hx, himage, hin, hpending, rfl⟩
    exact sigStep_rewrite (inPhase_eq hx).1 rfl hdisp.pendingOf_eq (.dispatch _ _ hdispatch) u

/-- **Pending sets.**  A step adds signals to the pending set of a process by posting them, takes
them by delivering the lowest one, and drops them by `exec`. -/
theorem sigStep_of_step (hok : s.Ok) (h : s.step a = some s') (u : Tid) :
    SigStep s u a (s.pendingOf u) (s'.pendingOf u) := by
  cases a with
  | interrupt t f =>
    obtain ⟨x, -, rfl⟩ := Option.map_eq_some_iff.mp h
    refine sigStep_of_eq ?_ u
    exact pendingOf_modify fun x => rfl
  | ecall t f =>
    obtain ⟨x, -, rfl⟩ := Option.map_eq_some_iff.mp h
    refine sigStep_of_eq ?_ u
    exact pendingOf_modify fun x => rfl
  | doSyscall t c =>
    obtain ⟨x, hx, hs⟩ := Option.bind_eq_some_iff.mp h
    exact sigStep_doSyscall hok hx hs u
  | sysret t =>
    obtain ⟨x, -, rfl⟩ := Option.map_eq_some_iff.mp h
    refine sigStep_of_eq (pendingOf_modify fun x => ?_) u
    cases x.phase <;> rfl
  | deliver t stk =>
    obtain ⟨x, hx, hs⟩ := Option.bind_eq_some_iff.mp h
    obtain ⟨s₁, h₁, rfl⟩ := Option.map_eq_some_iff.mp hs
    rw [pendingOf_modify]
    · exact sigStep_deliver hx h₁ u
    · exact fun x => rfl
  | spawn c =>
    change s.threadSpawnUser c = some s' at h
    unfold threadSpawnUser at h
    cases hfile : c.file with
    | none =>
      rw [hfile] at h
      exact Option.some.inj h ▸ .same _
    | some sz =>
      rw [hfile] at h
      obtain ⟨⟨s₁, b⟩, hnew, rfl⟩ := Option.map_eq_some_iff.mp h
      exact sigStep_newThread hok hnew rfl u
  | stop c =>
    change s.shellStopPid c = some s' at h
    unfold shellStopPid at h
    obtain ⟨v, -, hv⟩ := Option.bind_eq_some_iff.mp h
    obtain ⟨y, -, hs⟩ := Option.bind_eq_some_iff.mp hv
    split_ifs at hs
    exact Option.some.inj hs ▸ sigStep_of_eq pendingOf_terminate u
  | kill c signum =>
    refine sigStep_killTarget h (fun v n hsends => ?_) u
    exact hsends
  | reap t =>
    obtain ⟨x, hx, rfl⟩ := Option.map_eq_some_iff.mp h
    have hnext : (s.reap t x).pendingOf u = if u = t then none else s.pendingOf u := by
      show Option.map _ (Function.update s.thread t none u) = _
      rw [Function.update_apply]
      split_ifs <;> rfl
    rw [hnext]
    split_ifs with hut
    · subst hut
      have hsome : s.pendingOf u = some x.sig.pending :=
        congrArg (Option.map _) (Option.filter_eq_some_iff.mp hx).1
      rw [hsome]
      exact .reaped _ rfl
    · exact .same _
  | kmalloc i p =>
    change (if _ then _ else none) = some s' at h
    split_ifs at h
    obtain ⟨s₁, h₁, rfl⟩ := Option.map_eq_some_iff.mp h
    exact sigStep_of_eq ((pendingOf_congr rfl).trans (pendingOf_kmalloc h₁)) u
  | kfree i =>
    change (if _ then none else some _) = some s' at h
    split_ifs at h
    exact Option.some.inj h ▸ sigStep_of_eq (pendingOf_congr rfl) u

/-! ## Runs -/

theorem mem_pendingOf (hx : s.thread t = some x) : x.sig.pending ∈ s.pendingOf t :=
  congrArg (Option.map _) hx

theorem pending_iff (hx : s.thread t = some x) :
    s.Pending t n ↔ x.sig.pending.getLsbD n = true := by
  constructor
  · rintro ⟨p, hp, hn⟩
    obtain rfl := Option.mem_unique hp (mem_pendingOf hx)
    exact hn
  · exact fun hn => ⟨_, mem_pendingOf hx, hn⟩

/-- Pending bits are signals. -/
def SignalsOnly (s : State) : Prop := ∀ t n, s.Pending t n → 0 < n ∧ n < nsig

theorem Posts.range (h : s.Posts t n a) : 0 < n ∧ n < nsig := by
  unfold Posts at h
  split at h
  · exact ⟨h.2.1, h.2.2.1⟩
  · obtain ⟨x, -, -, h⟩ := h
    exact ⟨h.2.1, h.2.2.1⟩
  · exact h.elim

theorem Dispatches.spec (h : s.Dispatches t n a) : ∃ x stk, a = .deliver t stk ∧
    s.inPhase t (· == .deliver) = some x ∧ x.imageBase ≠ 0 ∧ x.sig.inHandler = false ∧
      x.sig.pending ≠ 0 ∧ lowestBitIndex x.sig.pending = n := by
  unfold Dispatches at h
  split at h
  · obtain ⟨rfl, x, h⟩ := h
    exact ⟨x, _, rfl, h⟩
  · exact h.elim

/-- A signal that is delivered was pending. -/
theorem Dispatches.pending (h : s.Dispatches t n a) : s.Pending t n := by
  obtain ⟨x, stk, -, hx, -, -, hne, rfl⟩ := h.spec
  exact (pending_iff (inPhase_eq hx).1).mpr (lowestBitIndex_spec hne).1

theorem SignalsOnly.step (hok : s.Ok) (h : s.SignalsOnly) (hs : s.step a = some s') :
    s'.SignalsOnly := by
  rintro t m ⟨q, hq, hm⟩
  have hstep := sigStep_of_step hok hs t
  rw [hq] at hstep
  generalize hp : s.pendingOf t = p at hstep
  cases hstep with
  | same => exact h t m ⟨q, hp, hm⟩
  | born =>
    exact absurd hm not_getLsbD_zero
  | post p n hpost =>
    have hn : n < nsig := hpost.range.2
    rw [getLsbD_post (Nat.lt_trans hn (by decide)), Bool.or_eq_true, decide_eq_true_iff] at hm
    rcases hm with hm | rfl
    · exact h t m ⟨p, hp, hm⟩
    · exact hpost.range
  | dispatch p n hdispatch =>
    rw [BitVec.getLsbD_and, Bool.and_eq_true] at hm
    exact h t m ⟨p, hp, hm.1⟩
  | exec p _ =>
    exact absurd hm not_getLsbD_zero

theorem signalsOnly_of_reachable (hs : Reachable step anyStep boot s) : s.SignalsOnly := by
  have h : s.Ok ∧ s.SignalsOnly := hs.invariant
    (P := fun s => s.Ok ∧ s.SignalsOnly) ⟨ok_boot, fun t n ⟨p, hp, _⟩ => nomatch hp⟩
    fun s a s' h _ hstep => ⟨h.1.step hstep, h.2.step h.1 hstep⟩
  exact h.2

/-- The step does not deliver signal `n` to `t`, and it is not an `exec` or the end of `t`. -/
def Spares (t : Tid) (n : ℕ) (s : State) (a : Label) : Prop :=
  ¬ s.Dispatches t n a ∧ ¬ s.Execs t a ∧ a ≠ .reap t

/-- **A pending signal stays pending.** -/
theorem pending_run (hok : s.Ok) (h : s.Pending t n) (hs : Reachable step (Spares t n) s s') :
    s'.Ok ∧ s'.Pending t n := by
  refine hs.invariant (P := fun s => s.Ok ∧ s.Pending t n) ⟨hok, h⟩ ?_
  rintro s a s' ⟨hok, p, hp, hn⟩ ⟨hdispatch, hexec, hreap⟩ hstep
  refine ⟨hok.step hstep, ?_⟩
  have hsig := sigStep_of_step hok hstep t
  rw [hp] at hsig
  generalize hq : s'.pendingOf t = q at hsig
  cases hsig with
  | same => exact ⟨p, hq, hn⟩
  | post _ m hpost =>
    refine ⟨_, hq, ?_⟩
    rw [BitVec.getLsbD_or, hn, Bool.true_or]
  | dispatch _ m hm =>
    by_cases hmn : m = n
    · exact absurd (hmn ▸ hm) hdispatch
    · have hlt : m < 64 := by
        obtain ⟨p', hp', hbit⟩ := hm.pending
        by_contra hge
        rw [BitVec.getLsbD_of_ge p' m (Nat.not_lt.mp hge)] at hbit
        cases hbit
      refine ⟨_, hq, ?_⟩
      rw [getLsbD_take hlt, hn, Bool.true_and]
      exact decide_eq_true (Ne.symm hmn)
  | exec _ hm => exact absurd hm hexec
  | reaped _ hm => exact absurd hm hreap

/-- **A signal that is not pending stays so** until it is posted. -/
theorem not_pending_run (hok : s.Ok) (h : ¬ s.Pending t n)
    (hs : Reachable step (fun s a => ¬ s.Posts t n a) s s') : s'.Ok ∧ ¬ s'.Pending t n := by
  refine hs.invariant (P := fun s => s.Ok ∧ ¬ s.Pending t n) ⟨hok, h⟩ ?_
  rintro s a s' ⟨hok, hnot⟩ hpost hstep
  refine ⟨hok.step hstep, ?_⟩
  rintro ⟨q, hq, hn⟩
  have hsig := sigStep_of_step hok hstep t
  rw [hq] at hsig
  generalize hp : s.pendingOf t = p at hsig
  cases hsig with
  | same => exact hnot ⟨q, hp, hn⟩
  | born =>
    exact absurd hn not_getLsbD_zero
  | post p m hm =>
    rw [getLsbD_post (Nat.lt_trans hm.range.2 (by decide)), Bool.or_eq_true,
      decide_eq_true_iff] at hn
    rcases hn with hn | rfl
    · exact hnot ⟨p, hp, hn⟩
    · exact hpost hm
  | dispatch p m _ =>
    rw [BitVec.getLsbD_and, Bool.and_eq_true] at hn
    exact hnot ⟨p, hp, hn.1⟩
  | exec p _ =>
    exact absurd hn not_getLsbD_zero

/-! ## Posting -/

theorem pending_of_sends {signum : ℤ} (h : s.Sends t n c signum) :
    ∃ s', s.killTarget c signum = some s' ∧ s'.Pending t n := by
  obtain ⟨rfl, hpos, hlt, ht, y, hy, himage⟩ := h
  have hrange : ¬ ((n : ℤ) ≤ 0 ∨ (nsig : ℤ) ≤ n) := by omega
  refine ⟨s.signalPost t n, ?_, ?_⟩
  · rw [killTarget, ht, Option.bind_some, hy, Option.bind_some, if_neg himage]
  · rw [signalPost, if_neg hrange]
    refine (pending_iff (thread_modify_self hy)).mpr ?_
    show (y.sig.pending ||| (1 : Word) <<< (n : ℤ).toNat).getLsbD n = true
    rw [Int.toNat_natCast, getLsbD_post (Nat.lt_trans hlt (by decide)), decide_eq_true rfl,
      Bool.or_true]

/-- **A signal that is posted is pending.** -/
theorem pending_of_posts (h : s.Posts t n a) (hs : s.step a = some s') : s'.Pending t n := by
  unfold Posts at h
  split at h
  · obtain ⟨s₁, h₁, hpending⟩ := pending_of_sends h
    obtain rfl := Option.some.inj (h₁.symm.trans hs)
    exact hpending
  · obtain ⟨x, hx, hcall, hsends⟩ := h
    obtain ⟨x', hx', hs⟩ := Option.bind_eq_some_iff.mp hs
    obtain rfl := Option.some.inj (hx.symm.trans hx')
    obtain ⟨s₁, h₁, p, hp, hn⟩ := pending_of_sends hsends
    have hrange : ¬ ((x.frame.a1.setWidth 32).toInt ≤ 0 ∨
        (nsig : ℤ) ≤ (x.frame.a1.setWidth 32).toInt) := by
      rw [hsends.1]
      have hpos := hsends.2.1
      have hlt := hsends.2.2.1
      omega
    rw [doSyscall, hcall] at hs
    obtain rfl := Option.some.inj hs
    refine ⟨p, ?_, hn⟩
    rw [sysKill, if_neg hrange, h₁, pendingOf_ret]
    exact hp
  · exact h.elim

/-! ## Delivery -/

/-- What a delivery of signal `n` does to the process: `x` becomes `y`. -/
structure Acts (x y : Thread) (n : ℕ) (stk : Word) : Prop where
  pending : ∀ m, y.sig.pending.getLsbD m = (x.sig.pending.getLsbD m && decide (m ≠ n))
  ignored : x.sig.handlers n = sigIgn → y = { takeSignal n x with phase := .user }
  default : x.sig.handlers n = sigDfl → y.zombie = true
  noMemory : x.sig.handlers n ≠ sigIgn → x.sig.handlers n ≠ sigDfl → stk = 0 → y.zombie = true
  entered : x.sig.handlers n ≠ sigIgn → x.sig.handlers n ≠ sigDfl → stk ≠ 0 →
    y.zombie = x.zombie ∧ y.sig.inHandler = true ∧ y.sig.saved = x.frame ∧
      y.frame = handlerFrame x.frame (x.sig.handlers n) stk n

theorem zombie_signalDefaultTerminate (hx : s.thread t = some x) :
    ∃ z, (s.signalDefaultTerminate t y).thread t = some z ∧ z.zombie = true := by
  have hterminate : (s.terminate t y).thread t = some { x with zombie := true, imageBase := 0 } :=
    thread_modify_self (by rw [thread_kfreeIf]; exact hx)
  exact ⟨_, thread_signalRelease hterminate, rfl⟩

/-- What the process is when a signal has been taken. -/
theorem Dispatched.thread (h : Dispatched s t x stk n s') (hx : s.thread t = some x) :
    ∃ y, s'.thread t = some y ∧
      (x.sig.handlers n = sigIgn → y = takeSignal n x) ∧
      (x.sig.handlers n = sigDfl → y.zombie = true) ∧
      (x.sig.handlers n ≠ sigIgn → x.sig.handlers n ≠ sigDfl → stk = 0 → y.zombie = true) ∧
      (x.sig.handlers n ≠ sigIgn → x.sig.handlers n ≠ sigDfl → stk ≠ 0 →
        y = enterHandler (x.sig.handlers n) stk n (saveFrame (takeSignal n x))) := by
  have htake : (s.modify t (takeSignal n)).thread t = some (takeSignal n x) := thread_modify_self hx
  have hsave : ((s.modify t (takeSignal n)).modify t saveFrame).thread t =
      some (saveFrame (takeSignal n x)) := thread_modify_self htake
  cases h with
  | ignore h =>
    refine ⟨_, htake, fun _ => rfl, fun hdfl => ?_, fun hign => absurd h hign,
      fun hign => absurd h hign⟩
    exact absurd (h.symm.trans hdfl) (by decide)
  | terminate h =>
    obtain ⟨y, hy, hzombie⟩ := zombie_signalDefaultTerminate (y := x) htake
    refine ⟨y, hy, fun hign => ?_, fun _ => hzombie, fun _ _ _ => hzombie, fun _ hdfl =>
      absurd h hdfl⟩
    exact absurd (h.symm.trans hign) (by decide)
  | noMemory hign hdfl h =>
    obtain ⟨y, hy, hzombie⟩ := zombie_signalDefaultTerminate (y := x) hsave
    exact ⟨y, hy, fun h' => absurd h' hign, fun _ => hzombie, fun _ _ _ => hzombie,
      fun _ _ hstk => absurd h hstk⟩
  | enter hign hdfl h s₁ h₁ =>
    have hs₁ : s₁.thread t = some (saveFrame (takeSignal n x)) := (congrFun h₁ t).trans hsave
    exact ⟨_, thread_modify_self hs₁, fun h' => absurd h' hign, fun h' => absurd h' hdfl,
      fun _ _ hstk => absurd hstk h, fun _ _ _ => rfl⟩

/-- **A delivery**: nothing happens, or it takes the lowest signal. -/
theorem deliver_step (h : s.step (.deliver t stk) = some s') :
    ∃ x y, s.thread t = some x ∧ s'.thread t = some y ∧
      ((∀ n, ¬ s.Dispatches t n (.deliver t stk)) ∧ y = { x with phase := .user } ∧
          s'.heap = s.heap ∨
        ∃ n, s.Dispatches t n (.deliver t stk) ∧ x.sig.inHandler = false ∧
          x.sig.pending.getLsbD n = true ∧ (∀ m < n, x.sig.pending.getLsbD m = false) ∧
          Acts x y n stk) := by
  obtain ⟨x, hx, hs⟩ := Option.bind_eq_some_iff.mp h
  obtain ⟨s₁, h₁, rfl⟩ := Option.map_eq_some_iff.mp hs
  have hthread := (inPhase_eq hx).1
  by_cases hgate : x.imageBase = 0 ∨ x.sig.inHandler = true ∨ x.sig.pending = 0
  · unfold signalCheckAndDispatch at h₁
    rw [if_pos hgate] at h₁
    obtain rfl := Option.some.inj h₁
    refine ⟨x, _, hthread, thread_modify_self hthread, Or.inl ⟨fun n hn => ?_, rfl, rfl⟩⟩
    obtain ⟨x', _, -, hx', himage, hin, hne, -⟩ := hn.spec
    obtain rfl := Option.some.inj (hx.symm.trans hx')
    rcases hgate with hgate | hgate | hgate
    · exact himage hgate
    · rw [hin] at hgate
      cases hgate
    · exact hne hgate
  · have hdisp := dispatched_of_eq h₁ hgate
    obtain ⟨himage, hin, hpending⟩ : x.imageBase ≠ 0 ∧ x.sig.inHandler = false ∧
        x.sig.pending ≠ 0 := by simpa only [not_or, Bool.not_eq_true] using hgate
    obtain ⟨y, hy, hign, hdfl, hmem, henter⟩ := hdisp.thread hthread
    obtain ⟨hbit, hmin⟩ := lowestBitIndex_spec hpending
    have hlt : lowestBitIndex x.sig.pending < 64 := by
      by_contra hge
      rw [BitVec.getLsbD_of_ge _ _ (Nat.not_lt.mp hge)] at hbit
      cases hbit
    have hp : y.sig.pending = (takeSignal (lowestBitIndex x.sig.pending) x).sig.pending := by
      have heq := congrFun hdisp.pendingOf_eq t
      have hleft : s₁.pendingOf t = some y.sig.pending := mem_pendingOf hy
      have hright := mem_pendingOf (thread_modify_self
        (f := takeSignal (lowestBitIndex x.sig.pending)) hthread)
      rw [hleft, hright] at heq
      exact Option.some.inj heq
    refine ⟨x, _, hthread, thread_modify_self hy, Or.inr ⟨lowestBitIndex x.sig.pending,
      ⟨rfl, x, hx, himage, hin, hpending, rfl⟩, hin, hbit, hmin, fun m => ?_, fun h => ?_, hdfl,
      hmem, fun h h' hstk => ?_⟩⟩
    · show y.sig.pending.getLsbD m = _
      rw [hp]
      exact getLsbD_take hlt
    · rw [hign h]
    · rw [henter h h' hstk]
      exact ⟨rfl, rfl, rfl, rfl⟩

/-! ## Fork -/

/-- **A fork** leaves the pending sets alone; the child's is empty. -/
theorem fork_step (hok : s.Ok) (hx : s.inPhase t (· == .doSyscall) = some x)
    (hcall : Syscall.decode x.frame.a7 = some .fork) (h : s.step (.doSyscall t c) = some s') :
    (∀ u, s.thread u ≠ none → s'.pendingOf u = s.pendingOf u) ∧
      ∀ u y, s.thread u = none → s'.thread u = some y → y.sig.pending = 0 := by
  have hsig : ∀ u, SigStep s u (.doSyscall t c) (s.pendingOf u) (s'.pendingOf u) :=
    sigStep_of_step hok h
  have hpost : ∀ u n, ¬ s.Posts u n (.doSyscall t c) := by
    rintro u n ⟨x', hx', hkill, -⟩
    obtain rfl := Option.some.inj (hx.symm.trans hx')
    rw [hcall] at hkill
    cases hkill
  have hexec : ∀ u, ¬ s.Execs u (.doSyscall t c) := by
    rintro u ⟨rfl, x', hx', hexec, -⟩
    obtain rfl := Option.some.inj (hx.symm.trans hx')
    rw [hcall] at hexec
    cases hexec
  constructor
  · intro u hu
    obtain ⟨y, hy⟩ := Option.ne_none_iff_exists'.mp hu
    have hstep := hsig u
    have hp : s.pendingOf u = some y.sig.pending := mem_pendingOf hy
    rw [hp] at hstep ⊢
    generalize s'.pendingOf u = q at hstep
    cases hstep with
    | same => rfl
    | post _ n hn => exact absurd hn (hpost u n)
    | dispatch _ n hn => exact hn.elim
    | exec _ hn => exact absurd hn (hexec u)
    | reaped _ hn => cases hn
  · intro u y hu hy
    have hstep := hsig u
    have hp : s.pendingOf u = none := congrArg (Option.map _) hu
    have hq : s'.pendingOf u = some y.sig.pending := mem_pendingOf hy
    rw [hp, hq] at hstep
    generalize hz : y.sig.pending = z at hstep
    cases hstep with
    | born => rfl

/-- **Signals are neither lost nor delivered twice.**  In every reachable state: pending bits are
signals; a signal that is posted is pending; it stays pending until it is delivered, the process
executes another program, or the process is gone; when it is not pending it is not delivered before
it is posted; a delivery happens only with no handler active, takes the lowest pending signal and no
other, and does what its entry in the table says; and a fork leaves the pending sets alone and gives
the child an empty one. -/
theorem signals_of_reachable (hs : Reachable step anyStep boot s) :
    s.SignalsOnly ∧
    (∀ t n a s', s.Posts t n a → s.step a = some s' → s'.Pending t n) ∧
    (∀ t n s', s.Pending t n → Reachable step (Spares t n) s s' → s'.Pending t n) ∧
    (∀ t n s', ¬ s.Pending t n → Reachable step (fun s a => ¬ s.Posts t n a) s s' →
      ¬ s'.Pending t n ∧ ∀ a, ¬ s'.Dispatches t n a) ∧
    (∀ t n a s', s.Dispatches t n a → s.step a = some s' → s.Pending t n ∧ ¬ s'.Pending t n) ∧
    (∀ t stk s', s.step (.deliver t stk) = some s' →
      ∃ x y, s.thread t = some x ∧ s'.thread t = some y ∧
        ((∀ n, ¬ s.Dispatches t n (.deliver t stk)) ∧ y = { x with phase := .user } ∧
            s'.heap = s.heap ∨
          ∃ n, s.Dispatches t n (.deliver t stk) ∧ x.sig.inHandler = false ∧
            x.sig.pending.getLsbD n = true ∧ (∀ m < n, x.sig.pending.getLsbD m = false) ∧
            Acts x y n stk)) ∧
    (∀ t c x s', s.inPhase t (· == .doSyscall) = some x →
      Syscall.decode x.frame.a7 = some .fork → s.step (.doSyscall t c) = some s' →
        (∀ u, s.thread u ≠ none → s'.pendingOf u = s.pendingOf u) ∧
          ∀ u y, s.thread u = none → s'.thread u = some y → y.sig.pending = 0) := by
  have hok := ok_of_reachable hs
  refine ⟨signalsOnly_of_reachable hs, fun t n a s' hpost hstep => pending_of_posts hpost hstep,
    fun t n s' hpending hrun => (pending_run hok hpending hrun).2, fun t n s' hnot hrun => ?_,
    fun t n a s' hdispatch hstep => ?_, fun t stk s' hstep => deliver_step hstep,
    fun t c x s' hx hcall hstep => fork_step hok hx hcall hstep⟩
  · have hnot' := (not_pending_run hok hnot hrun).2
    exact ⟨hnot', fun a hdispatch => hnot' hdispatch.pending⟩
  · refine ⟨hdispatch.pending, ?_⟩
    obtain ⟨x, stk, rfl, hx, -, -, -, hn⟩ := hdispatch.spec
    obtain ⟨x', y, hx', hy, ⟨hnone, -⟩ | ⟨m, hm, -, -, -, hacts⟩⟩ := deliver_step hstep
    · exact absurd hdispatch (hnone n)
    · obtain ⟨x'', _, -, hx'', -, -, -, rfl⟩ := hm.spec
      obtain rfl := Option.some.inj (hx.symm.trans hx'')
      subst hn
      rw [pending_iff hy, hacts.pending, decide_eq_false (not_not.mpr rfl), Bool.and_false]
      exact Bool.false_ne_true

/-- The signal that a process has sent to itself is pending, and its delivery takes it. -/
theorem signals_of_killed : killed.Pending 0x1000 15 ∧
    ¬ (killed.after (.deliver 0x1000 0x4000)).Pending 0x1000 15 := by
  have hx : (killed.inPhase 0x1000 (· == .deliver)).map (fun x =>
      (decide (x.imageBase ≠ 0), x.sig.inHandler, decide (x.sig.pending ≠ 0),
        lowestBitIndex x.sig.pending)) = some (true, false, true, 15) := by decide +kernel
  obtain ⟨x, hx, hv⟩ := Option.map_eq_some_iff.mp hx
  simp only [Prod.mk.injEq, decide_eq_true_eq] at hv
  have hdispatch : killed.Dispatches 0x1000 15 (.deliver 0x1000 0x4000) :=
    ⟨rfl, x, hx, hv.1, hv.2.1, hv.2.2.1, hv.2.2.2⟩
  exact (signals_of_reachable reachable_killed).2.2.2.2.1 _ _ _ _ hdispatch
    (step_after (by decide +kernel))

end State
end Process
end OscKernel
