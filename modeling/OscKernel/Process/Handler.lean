import OscKernel.Process.Ownership

/-!
# A signal handler and the way back (`signal.c`, `trap.c`)

From the delivery that enters a handler to the `SYS_SIGRETURN` that leaves it, through any traps of
the process and any steps of others.

* `handler_round_trip`: no second handler is entered on the way, and the process gets its trap frame
  back.

## Two kinds of runs

Between the delivery and the return the process itself runs: it takes interrupts, makes system
calls, receives further signals, forks.  `GoesOn` admits all of that but three things, its end, its
`exec` and its `sigreturn`.  The invariant of such a run is that the saved frame, the flag and the
stack are those of the delivery, and that the stack has not been freed (`Kept`).  A delivery on the
way does nothing, because the flag is set; the signal stays pending.

Between the parts of the return itself, the `ecall`, the work of the system call and its result,
only others run (`ByOthers`), since the process is in the kernel.  They may do anything to it except
terminate it, and what they do is post signals to it (`Untouched`).

## The frame

`signal_return` copies the saved frame back over the trap frame, and then the result of the system
call is written into its `a0`.  The source returns the saved `a0` as the result, and this is why the
frame is the same in every register.
-/

namespace OscKernel
namespace Process

open Rv64 (Word)
open Transition

namespace State

variable {s s' s'' : State} {t u : Tid} {x y : Thread} {c : Choice} {p stk : Word}
  {f : Thread → Thread}

/-! ## What others leave alone -/

/-- Nothing happened to `t` between `s` and `s'`, except that signals were posted to it, and its
signal stack was not freed. -/
def Untouched (t : Tid) (s s' : State) : Prop :=
  ∀ x, s.thread t = some x →
    (∃ q, s'.thread t = some { x with sig := { x.sig with pending := q } }) ∧
      (x.sig.sigstackBase ≠ 0 →
        s'.heap.released.count x.sig.sigstackBase = s.heap.released.count x.sig.sigstackBase)

/-- The block `p` is not the signal stack of `t`. -/
def NotSigstack (s : State) (t : Tid) (p : Word) : Prop :=
  ∀ x, s.thread t = some x → x.sig.sigstackBase ≠ 0 → p ≠ x.sig.sigstackBase

theorem NotSigstack.congr (hp : s.NotSigstack t p) (h : s'.thread t = s.thread t) :
    s'.NotSigstack t p := fun x hx => hp x (h.symm.trans hx)

theorem Ok.notSigstack (hok : s.Ok) {o : Slot} (ho : o ≠ .part t .sigstack) (hp : s.own o = p) :
    s.NotSigstack t p := by
  intro x hx h0 heq
  have hown : s.own (.part t .sigstack) = x.sig.sigstackBase := own_part hx .sigstack
  exact ho (hok.inj _ _ (hown.symm ▸ h0) (hown.trans (heq.symm.trans hp.symm))).symm

theorem Ok.notSigstack_of_fresh (hok : s.Ok) (hp : p ∉ s.heap.live) : s.NotSigstack t p := by
  intro x hx h0 heq
  have hown : s.own (.part t .sigstack) = x.sig.sigstackBase := own_part hx .sigstack
  exact hp (heq ▸ hown ▸ hok.mem_live _ (hown.symm ▸ h0))

namespace Untouched

theorem of_eq (hthread : s'.thread t = s.thread t)
    (hreleased : s'.heap.released = s.heap.released) : Untouched t s s' := fun x hx =>
  ⟨⟨x.sig.pending, hthread.trans hx⟩, fun _ => by rw [hreleased]⟩

theorem refl : Untouched t s s := of_eq rfl rfl

theorem trans (h : Untouched t s s') (h' : Untouched t s' s'') : Untouched t s s'' := by
  intro x hx
  obtain ⟨⟨q, hq⟩, hcount⟩ := h x hx
  obtain ⟨⟨q', hq'⟩, hcount'⟩ := h' _ hq
  exact ⟨⟨q', hq'⟩, fun h0 => (hcount' h0).trans (hcount h0)⟩

theorem modify (htu : t ≠ u) : Untouched t s (s.modify u f) :=
  of_eq (thread_modify_of_ne htu) rfl

theorem kmalloc (h : s.kmalloc p = some s') : Untouched t s s' := by
  rcases kmalloc_cases h with ⟨-, rfl⟩ | ⟨-, -, rfl⟩
  · exact refl
  · exact of_eq rfl rfl

theorem kfree (hp : s.NotSigstack t p) : Untouched t s (s.kfree p) := fun x hx =>
  ⟨⟨x.sig.pending, hx⟩, fun h0 =>
    @BlockHeap.count_released_of_ne _ _ _ _ [p] _ rfl (by simpa using hp x hx h0)⟩

theorem kfreeIf (hp : s.NotSigstack t p) : Untouched t s (s.kfreeIf p) := by
  unfold State.kfreeIf
  split_ifs
  · exact refl
  · exact kfree hp

theorem signalRelease (htu : t ≠ u) (hp : s.NotSigstack t y.sig.sigstackBase) :
    Untouched t s (s.signalRelease u y) :=
  (kfreeIf hp).trans (modify htu)

theorem signalDefaultTerminate (htu : t ≠ u) (himage : s.NotSigstack t y.imageBase)
    (hp : s.NotSigstack t y.sig.sigstackBase) :
    Untouched t s (s.signalDefaultTerminate u y) := by
  refine ((kfreeIf himage).trans (modify htu)).trans (signalRelease htu (hp.congr ?_))
  rw [thread_modify_of_ne htu, thread_kfreeIf]

theorem signalPost (signum : ℤ) : Untouched t s (s.signalPost u signum) := by
  unfold State.signalPost
  split_ifs
  · exact refl
  · by_cases htu : t = u
    · subst htu
      exact fun x hx => ⟨⟨_, thread_modify_self hx⟩, fun _ => rfl⟩
    · exact modify htu

end Untouched

section Ok

variable (hok : s.Ok)

include hok

theorem Untouched.terminate (hy : s.thread u = some y) (htu : t ≠ u) :
    Untouched t s (s.signalDefaultTerminate u y) := by
  refine .signalDefaultTerminate htu (hok.notSigstack (o := .part u .image) (by simp) ?_)
    (hok.notSigstack (o := .part u .sigstack) (by simp [htu.symm]) ?_)
  · exact own_part hy .image
  · exact own_part hy .sigstack

theorem Untouched.newThread {new : Thread} {b : Bool} (h : s.newThread c new = some (s', b)) :
    Untouched t s s' := by
  rcases newThread_cases h with ⟨-, h⟩ | ⟨-, h⟩
  · intro x hx
    obtain ⟨ps, hps, hfresh⟩ := h.released
    exact ⟨⟨x.sig.pending, (congrFun h.thread t).trans hx⟩, fun h0 =>
      BlockHeap.count_released_of_ne hps fun q hq =>
        hok.notSigstack_of_fresh (hfresh q hq) x hx h0⟩
  · intro x hx
    have hne : t ≠ c.structBlock := by
      rintro rfl
      rw [h.fresh hok] at hx
      cases hx
    refine ⟨⟨x.sig.pending, ?_⟩, fun _ => by rw [h.heap]; rfl⟩
    rw [h.thread, Function.update_of_ne hne]
    exact hx

end Ok

/-- The process `t` is there and has not been terminated. -/
def Alive (s : State) (t : Tid) : Prop := ∃ x, s.thread t = some x ∧ x.zombie = false

theorem not_alive_terminate : ¬ (s.terminate t x).Alive t := by
  rintro ⟨z, hz, hzombie⟩
  rw [terminate, thread_modify, if_pos rfl, thread_kfreeIf] at hz
  obtain ⟨w, -, rfl⟩ := Option.map_eq_some_iff.mp hz
  cases hzombie

theorem alive_modify (hf : ∀ x, (f x).zombie = x.zombie) (h : (s.modify u f).Alive t) :
    s.Alive t := by
  obtain ⟨z, hz, hzombie⟩ := h
  rw [thread_modify] at hz
  split_ifs at hz
  · obtain ⟨w, hw, rfl⟩ := Option.map_eq_some_iff.mp hz
    exact ⟨w, hw, (hf w).symm.trans hzombie⟩
  · exact ⟨z, hz, hzombie⟩

theorem alive_ret {r : Word} (h : (s.ret u r).Alive t) : s.Alive t :=
  alive_modify (f := fun x => { x with phase := .sysret r }) (fun _ => rfl) h

theorem not_alive_signalDefaultTerminate : ¬ (s.signalDefaultTerminate t x).Alive t := by
  intro h
  obtain ⟨z, hz, hzombie⟩ := alive_modify (f := fun x => { x with
    sig := { x.sig with sigstackBase := 0, inHandler := false } }) (fun _ => rfl) h
  rw [thread_kfreeIf] at hz
  exact not_alive_terminate ⟨z, hz, hzombie⟩

theorem untouched_stopTarget (hok : s.Ok) (h : s.stopTarget c = some s') (hlive : s'.Alive t) :
    Untouched t s s' := by
  unfold stopTarget at h
  obtain ⟨u, -, hu⟩ := Option.bind_eq_some_iff.mp h
  obtain ⟨y, hy, hs⟩ := Option.bind_eq_some_iff.mp hu
  split_ifs at hs
  obtain rfl := Option.some.inj hs
  refine .terminate hok hy ?_
  rintro rfl
  exact not_alive_signalDefaultTerminate hlive

theorem untouched_shellStopPid (hok : s.Ok) (h : s.shellStopPid c = some s') (hlive : s'.Alive t) :
    Untouched t s s' := by
  unfold shellStopPid at h
  obtain ⟨u, -, hu⟩ := Option.bind_eq_some_iff.mp h
  obtain ⟨y, hy, hs⟩ := Option.bind_eq_some_iff.mp hu
  split_ifs at hs
  obtain rfl := Option.some.inj hs
  have htu : t ≠ u := by
    rintro rfl
    exact not_alive_terminate hlive
  exact (Untouched.kfreeIf
    (hok.notSigstack (o := .part u .image) (by simp) (own_part hy .image))).trans (.modify htu)

theorem untouched_killTarget {signum : ℤ} (h : s.killTarget c signum = some s') :
    Untouched t s s' := by
  unfold killTarget at h
  obtain ⟨u, -, hu⟩ := Option.bind_eq_some_iff.mp h
  obtain ⟨y, -, hs⟩ := Option.bind_eq_some_iff.mp hu
  split_ifs at hs
  exact Option.some.inj hs ▸ .signalPost signum

/-! ## Steps of others -/

section Ok

variable (hok : s.Ok)

include hok

theorem untouched_sysExec (hy : s.thread u = some y) (htu : t ≠ u)
    (h : s.sysExec u y c = some s') : Untouched t s s' := by
  unfold sysExec at h
  by_cases himage : y.imageBase = 0
  · rw [if_pos himage] at h
    exact Option.some.inj h ▸ .modify htu
  rw [if_neg himage] at h
  cases hfile : c.file with
  | none =>
    rw [hfile] at h
    exact Option.some.inj h ▸ .modify htu
  | some sz =>
    rw [hfile] at h
    obtain ⟨s₁, h₁, rfl⟩ := Option.map_eq_some_iff.mp h
    have hthread : s₁.thread = s.thread := by
      rcases kmalloc_cases h₁ with ⟨-, rfl⟩ | ⟨-, -, rfl⟩ <;> rfl
    have hold : s.NotSigstack t y.imageBase :=
      hok.notSigstack (o := .part u .image) (by simp) (own_part hy .image)
    have hstack : s.NotSigstack t y.sig.sigstackBase :=
      hok.notSigstack (o := .part u .sigstack) (by simp [htu.symm]) (own_part hy .sigstack)
    refine (Untouched.kmalloc h₁).trans ?_
    split_ifs
    · exact .modify htu
    · refine ((((Untouched.modify htu).trans (.kfree (hold.congr ?_))).trans
        (.modify htu)).trans (.signalRelease htu (hstack.congr ?_))).trans
        ((Untouched.modify htu).trans (.modify htu))
      · rw [thread_modify_of_ne htu, hthread]
      · rw [thread_modify_of_ne htu, thread_kfree, thread_modify_of_ne htu, hthread]

theorem untouched_sysFork (h : s.sysFork u y c = some s') (htu : t ≠ u) : Untouched t s s' := by
  unfold sysFork at h
  split_ifs at h
  · exact Option.some.inj h ▸ .modify htu
  · obtain ⟨⟨s₁, b⟩, hnew, rfl⟩ := Option.map_eq_some_iff.mp h
    exact (Untouched.newThread hok hnew).trans (.modify htu)

theorem untouched_sysStop (hy : s.thread u = some y) (htu : t ≠ u)
    (hlive : (s.sysStop u y c).Alive t) : Untouched t s (s.sysStop u y c) := by
  unfold sysStop at hlive ⊢
  split_ifs at hlive ⊢
  · exact .terminate hok hy htu
  · cases hs : s.stopTarget c with
    | none => exact .modify htu
    | some s₁ =>
      rw [hs] at hlive
      exact (untouched_stopTarget hok hs (alive_ret hlive)).trans (.modify htu)

omit hok in
theorem untouched_sysKill (htu : t ≠ u) : Untouched t s (s.sysKill u y c) := by
  unfold sysKill
  dsimp only
  split_ifs
  · exact .modify htu
  · cases hs : s.killTarget c (y.frame.a1.setWidth 32).toInt with
    | none => exact .modify htu
    | some s₁ => exact (untouched_killTarget hs).trans (.modify htu)

omit hok in
theorem untouched_sysSignal (htu : t ≠ u) : Untouched t s (s.sysSignal u y) := by
  unfold sysSignal
  dsimp only
  split_ifs
  · exact .modify htu
  · exact (Untouched.modify htu).trans (.modify htu)

theorem untouched_sysSigreturn (hy : s.thread u = some y) (htu : t ≠ u) :
    Untouched t s (s.sysSigreturn u y) := by
  have hstack : s.NotSigstack t y.sig.sigstackBase :=
    hok.notSigstack (o := .part u .sigstack) (by simp [htu.symm]) (own_part hy .sigstack)
  unfold sysSigreturn signalReturn
  split_ifs
  · exact ((Untouched.modify htu).trans (.signalRelease htu
      (hstack.congr (thread_modify_of_ne htu)))).trans (.modify htu)
  · exact .modify htu

theorem untouched_doSyscall (hy : s.thread u = some y) (htu : t ≠ u)
    (h : s.doSyscall u y c = some s') (hlive : s'.Alive t) : Untouched t s s' := by
  unfold doSyscall at h
  cases hcall : Syscall.decode y.frame.a7 with
  | none =>
    rw [hcall] at h
    exact Option.some.inj h ▸ .modify htu
  | some call =>
    rw [hcall] at h
    cases call with
    | exec => exact untouched_sysExec hok hy htu h
    | fork => exact untouched_sysFork hok h htu
    | exit => exact Option.some.inj h ▸ .terminate hok hy htu
    | stop =>
      obtain rfl := Option.some.inj h
      exact untouched_sysStop hok hy htu hlive
    | signal => exact Option.some.inj h ▸ untouched_sysSignal htu
    | sigreturn => exact Option.some.inj h ▸ untouched_sysSigreturn hok hy htu
    | kill => exact Option.some.inj h ▸ untouched_sysKill htu
    | getpid | uartRead | uartWrite | waitpid | display | usleep =>
      exact Option.some.inj h ▸ .modify htu

theorem untouched_dispatch (hy : s.thread u = some y) (htu : t ≠ u)
    (h : s.signalCheckAndDispatch u y stk = some s') : Untouched t s s' := by
  cases dispatch_of_eq h with
  | gate => exact .refl
  | ignore => exact .modify htu
  | terminate _ f hf =>
    have himage : s.NotSigstack t y.imageBase :=
      hok.notSigstack (o := .part u .image) (by simp) (own_part hy .image)
    have hstack : s.NotSigstack t y.sig.sigstackBase :=
      hok.notSigstack (o := .part u .sigstack) (by simp [htu.symm]) (own_part hy .sigstack)
    exact (Untouched.modify htu).trans (.signalDefaultTerminate htu
      (himage.congr (thread_modify_of_ne htu)) (hstack.congr (thread_modify_of_ne htu)))
  | enter =>
    have hheap : Untouched t s { s with heap := s.heap.acquire stk } := .of_eq rfl rfl
    exact hheap.trans (.modify htu)

end Ok

/-- The process whose trap a step belongs to. -/
def actor : Label → Option Tid
  | .interrupt t _ | .ecall t _ | .doSyscall t _ | .sysret t | .deliver t _ => some t
  | _ => none

/-- **Steps of others**: they post signals to a process that they do not terminate, and that is
all. -/
theorem untouched_step {a : Label} (hok : s.Ok) (ha : actor a ≠ some t)
    (h : s.step a = some s') (hlive : s'.Alive t) : Untouched t s s' := by
  cases a with
  | interrupt u f =>
    obtain ⟨y, -, rfl⟩ := Option.map_eq_some_iff.mp h
    exact .modify fun htu => ha (congrArg some htu.symm)
  | ecall u f =>
    obtain ⟨y, -, rfl⟩ := Option.map_eq_some_iff.mp h
    exact .modify fun htu => ha (congrArg some htu.symm)
  | doSyscall u c =>
    obtain ⟨y, hy, hs⟩ := Option.bind_eq_some_iff.mp h
    exact untouched_doSyscall hok (inPhase_eq hy).1 (fun htu => ha (congrArg some htu.symm)) hs
      hlive
  | sysret u =>
    obtain ⟨y, -, rfl⟩ := Option.map_eq_some_iff.mp h
    exact .modify fun htu => ha (congrArg some htu.symm)
  | deliver u stk =>
    obtain ⟨y, hy, hs⟩ := Option.bind_eq_some_iff.mp h
    obtain ⟨s₁, h₁, rfl⟩ := Option.map_eq_some_iff.mp hs
    have htu : t ≠ u := fun htu => ha (congrArg some htu.symm)
    exact (untouched_dispatch hok (inPhase_eq hy).1 htu h₁).trans (.modify htu)
  | spawn c =>
    change s.threadSpawnUser c = some s' at h
    unfold threadSpawnUser at h
    cases hfile : c.file with
    | none =>
      rw [hfile] at h
      exact Option.some.inj h ▸ .refl
    | some sz =>
      rw [hfile] at h
      obtain ⟨⟨s₁, b⟩, hnew, rfl⟩ := Option.map_eq_some_iff.mp h
      exact .newThread hok hnew
  | stop c => exact untouched_shellStopPid hok h hlive
  | kill c signum => exact untouched_killTarget h
  | reap u =>
    obtain ⟨y, hy, rfl⟩ := Option.map_eq_some_iff.mp h
    have hy' : s.thread u = some y := (Option.filter_eq_some_iff.mp hy).1
    have htu : t ≠ u := by
      rintro rfl
      obtain ⟨z, hz, -⟩ := hlive
      rw [show (s.reap t y).thread t = none from Function.update_self ..] at hz
      cases hz
    have hkstack : s.NotSigstack t y.kstackBase :=
      hok.notSigstack (o := .part u .kstack) (by simp) (own_part hy' .kstack)
    have hstruct : s.NotSigstack t u :=
      hok.notSigstack (o := .part u .struct) (by simp) (own_part hy' .struct)
    refine ((Untouched.kfreeIf hkstack).trans
      (.kfree (hstruct.congr (by rw [thread_kfreeIf])))).trans (.of_eq ?_ rfl)
    rw [thread_kfree, thread_kfreeIf]
    exact Function.update_of_ne htu ..
  | kmalloc i p =>
    change (if _ then _ else none) = some s' at h
    split_ifs at h
    obtain ⟨s₁, h₁, rfl⟩ := Option.map_eq_some_iff.mp h
    exact (Untouched.kmalloc h₁).trans (.of_eq rfl rfl)
  | kfree i =>
    change (if _ then none else some _) = some s' at h
    split_ifs at h
    obtain rfl := Option.some.inj h
    exact (Untouched.kfree (hok.notSigstack (o := .misc i) (by simp) rfl)).trans (.of_eq rfl rfl)

/-! ## Steps of the process itself -/

/-- What has to be kept for the way back. -/
def SameHandler (x y : Thread) : Prop :=
  y.sig.inHandler = x.sig.inHandler ∧ y.sig.saved = x.sig.saved ∧
    y.sig.sigstackBase = x.sig.sigstackBase

/-- The handler of `t` and its stack are the same in `s` and `s'`, and the stack was not freed. -/
def Kept (t : Tid) (s s' : State) : Prop :=
  ∀ x, s.thread t = some x →
    (∃ y, s'.thread t = some y ∧ SameHandler x y) ∧
      (x.sig.sigstackBase ≠ 0 →
        s'.heap.released.count x.sig.sigstackBase = s.heap.released.count x.sig.sigstackBase)

theorem Untouched.kept (h : Untouched t s s') : Kept t s s' := by
  intro x hx
  obtain ⟨⟨q, hq⟩, hcount⟩ := h x hx
  exact ⟨⟨_, hq, rfl, rfl, rfl⟩, hcount⟩

theorem Kept.trans (h : Kept t s s') (h' : Kept t s' s'') : Kept t s s'' := by
  intro x hx
  obtain ⟨⟨y, hy, hin, hsaved, hstk⟩, hcount⟩ := h x hx
  obtain ⟨⟨z, hz, hin', hsaved', hstk'⟩, hcount'⟩ := h' y hy
  refine ⟨⟨z, hz, hin'.trans hin, hsaved'.trans hsaved, hstk'.trans hstk⟩, fun h0 => ?_⟩
  rw [hstk] at hcount'
  exact (hcount' h0).trans (hcount h0)

theorem Kept.modify (hf : ∀ x, SameHandler x (f x)) : Kept t s (s.modify t f) := fun x hx =>
  ⟨⟨f x, thread_modify_self hx, hf x⟩, fun _ => rfl⟩

theorem Kept.ret (r : Word) : Kept t s (s.ret t r) := .modify fun _ => ⟨rfl, rfl, rfl⟩

/-- A system call other than `exec` and `sigreturn` that does not terminate the process. -/
theorem kept_doSyscall (hok : s.Ok) (hexec : Syscall.decode x.frame.a7 ≠ some .exec)
    (hret : Syscall.decode x.frame.a7 ≠ some .sigreturn)
    (h : s.doSyscall t x c = some s') (hlive : s'.Alive t) : Kept t s s' := by
  unfold doSyscall at h
  cases hcall : Syscall.decode x.frame.a7 with
  | none =>
    rw [hcall] at h
    exact Option.some.inj h ▸ .ret _
  | some call =>
    rw [hcall] at h
    cases call with
    | exec => exact absurd hcall hexec
    | sigreturn => exact absurd hcall hret
    | fork =>
      change s.sysFork t x c = some s' at h
      unfold sysFork at h
      split_ifs at h
      · exact Option.some.inj h ▸ .ret _
      · obtain ⟨⟨s₁, b⟩, hnew, rfl⟩ := Option.map_eq_some_iff.mp h
        exact (Untouched.newThread hok hnew).kept.trans (.ret _)
    | exit =>
      obtain rfl := Option.some.inj h
      exact absurd hlive not_alive_signalDefaultTerminate
    | stop =>
      obtain rfl := Option.some.inj h
      unfold sysStop at hlive ⊢
      split_ifs at hlive ⊢
      · exact absurd hlive not_alive_signalDefaultTerminate
      · cases hs : s.stopTarget c with
        | none => exact .ret _
        | some s₁ =>
          rw [hs] at hlive
          exact (untouched_stopTarget hok hs (alive_ret hlive)).kept.trans (.ret _)
    | signal =>
      obtain rfl := Option.some.inj h
      unfold sysSignal
      dsimp only
      split_ifs
      · exact .ret _
      · refine Kept.trans ?_ (.ret _)
        exact .modify fun _ => ⟨rfl, rfl, rfl⟩
    | kill =>
      obtain rfl := Option.some.inj h
      unfold sysKill
      dsimp only
      split_ifs
      · exact .ret _
      · cases hs : s.killTarget c (x.frame.a1.setWidth 32).toInt with
        | none => exact .ret _
        | some s₁ => exact (untouched_killTarget hs).kept.trans (.ret _)
    | getpid | uartRead | uartWrite | waitpid | display | usleep =>
      exact Option.some.inj h ▸ .ret _

/-- `t` makes the system call. -/
def Calls (s : State) (t : Tid) (call : Syscall) (a : Label) : Prop :=
  ∃ c x, a = .doSyscall t c ∧ s.thread t = some x ∧ Syscall.decode x.frame.a7 = some call

/-- The step does not terminate `t`, and is neither its `exec` nor its `sigreturn`. -/
structure GoesOn (t : Tid) (s : State) (a : Label) : Prop where
  alive : ∀ s', s.step a = some s' → s'.Alive t
  not_exec : ¬ s.Calls t .exec a
  not_sigreturn : ¬ s.Calls t .sigreturn a

/-- While a handler is active, nothing is delivered. -/
theorem deliver_eq (hx : s.thread t = some x) (hin : x.sig.inHandler = true)
    (h : s.step (.deliver t stk) = some s') :
    s' = s.modify t fun x => { x with phase := .user } := by
  obtain ⟨y, hy, hs⟩ := Option.bind_eq_some_iff.mp h
  obtain rfl : x = y := Option.some.inj (hx.symm.trans (inPhase_eq hy).1)
  obtain ⟨s₁, h₁, rfl⟩ := Option.map_eq_some_iff.mp hs
  rw [signalCheckAndDispatch, if_pos (Or.inr (Or.inl hin)), Option.some_inj] at h₁
  rw [h₁]

/-- **One step of a handler**: what the way back needs is kept. -/
theorem kept_step {a : Label} (hok : s.Ok) (hx : s.thread t = some x)
    (hin : x.sig.inHandler = true) (hgo : GoesOn t s a) (h : s.step a = some s') :
    Kept t s s' := by
  have hlive := hgo.alive s' h
  by_cases ha : actor a = some t
  · cases a with
    | interrupt u f =>
      obtain rfl : u = t := Option.some.inj ha
      obtain ⟨y, -, rfl⟩ := Option.map_eq_some_iff.mp h
      exact .modify fun _ => ⟨rfl, rfl, rfl⟩
    | ecall u f =>
      obtain rfl : u = t := Option.some.inj ha
      obtain ⟨y, -, rfl⟩ := Option.map_eq_some_iff.mp h
      exact .modify fun _ => ⟨rfl, rfl, rfl⟩
    | doSyscall u c =>
      obtain rfl : u = t := Option.some.inj ha
      obtain ⟨y, hy, hs⟩ := Option.bind_eq_some_iff.mp h
      have hy' := (inPhase_eq hy).1
      exact kept_doSyscall hok (fun hc => hgo.not_exec ⟨c, y, rfl, hy', hc⟩)
        (fun hc => hgo.not_sigreturn ⟨c, y, rfl, hy', hc⟩) hs hlive
    | sysret u =>
      obtain rfl : u = t := Option.some.inj ha
      obtain ⟨y, -, rfl⟩ := Option.map_eq_some_iff.mp h
      refine .modify fun z => ?_
      cases z.phase <;> exact ⟨rfl, rfl, rfl⟩
    | deliver u stk =>
      obtain rfl : u = t := Option.some.inj ha
      rw [deliver_eq hx hin h]
      exact .modify fun _ => ⟨rfl, rfl, rfl⟩
    | spawn c => cases ha
    | stop c => cases ha
    | kill c signum => cases ha
    | reap u => cases ha
    | kmalloc i p => cases ha
    | kfree i => cases ha
  · exact (untouched_step hok ha h hlive).kept

/-! ## Runs -/

/-- `t` runs a handler that was entered at the frame `tf`, on the stack `stk`. -/
def InHandler (s : State) (t : Tid) (tf : TrapFrame) (stk : Word) : Prop :=
  ∃ x, s.thread t = some x ∧ x.sig.inHandler = true ∧ x.sig.saved = tf ∧
    x.sig.sigstackBase = stk ∧ stk ≠ 0

/-- `signal_check_and_dispatch` enters a handler of `t` at the frame `tf`. -/
def Enters (t : Tid) (tf : TrapFrame) (stk : Word) (s s' : State) : Prop :=
  s.step (.deliver t stk) = some s' ∧ (∃ x, s.thread t = some x ∧ x.frame = tf ∧
    x.sig.inHandler = false) ∧ ∃ x, s'.thread t = some x ∧ x.sig.inHandler = true

theorem inHandler_of_enters {tf : TrapFrame} (h : Enters t tf stk s s') :
    s'.InHandler t tf stk := by
  obtain ⟨hstep, ⟨x, hx, rfl, hin⟩, y, hy, hin'⟩ := h
  obtain ⟨z, hz, hs⟩ := Option.bind_eq_some_iff.mp hstep
  obtain rfl : x = z := Option.some.inj (hx.symm.trans (inPhase_eq hz).1)
  obtain ⟨s₁, h₁, rfl⟩ := Option.map_eq_some_iff.mp hs
  rw [thread_modify, if_pos rfl] at hy
  obtain ⟨w, hw, rfl⟩ := Option.map_eq_some_iff.mp hy
  replace hin' : w.sig.inHandler = true := hin'
  have hself : ∀ {f : Thread → Thread}, (s.modify t f).thread t = some w → f x = w := fun hf => by
    rw [thread_modify_self hx] at hf
    exact Option.some.inj hf
  cases dispatch_of_eq h₁ with
  | gate =>
    obtain rfl : x = w := Option.some.inj (hx.symm.trans hw)
    rw [hin] at hin'
    cases hin'
  | ignore _ signum =>
    rw [← hself hw] at hin'
    change x.sig.inHandler = true at hin'
    rw [hin] at hin'
    cases hin'
  | terminate _ f hf =>
    rw [signalDefaultTerminate, signalRelease, thread_modify, if_pos rfl] at hw
    obtain ⟨w', -, rfl⟩ := Option.map_eq_some_iff.mp hw
    cases hin'
  | enter _ h signum h0 =>
    exact ⟨_, thread_modify_self (thread_modify_self hx), rfl, rfl, rfl, h0⟩

/-- **A run of a handler.** -/
theorem inHandler_run {tf : TrapFrame} (hok : s.Ok) (hin : s.InHandler t tf stk)
    (hrun : Reachable step (GoesOn t) s s') :
    s'.Ok ∧ s'.InHandler t tf stk ∧
      s'.heap.released.count stk = s.heap.released.count stk := by
  refine hrun.invariant (P := fun r => r.Ok ∧ r.InHandler t tf stk ∧
    r.heap.released.count stk = s.heap.released.count stk) ⟨hok, hin, rfl⟩ ?_
  rintro r a r' ⟨hokr, ⟨x, hx, hinx, rfl, rfl, h0⟩, hcount⟩ hgo hr
  obtain ⟨⟨y, hy, hiny, hsaved, hstk⟩, hcount'⟩ := kept_step hokr hx hinx hgo hr x hx
  exact ⟨hokr.step hr, ⟨y, hy, hiny.trans hinx, hsaved, hstk, h0⟩, (hcount' h0).trans hcount⟩

/-- The step belongs to another process, or to none, and does not terminate `t`. -/
structure ByOthers (t : Tid) (s : State) (a : Label) : Prop where
  alive : ∀ s', s.step a = some s' → s'.Alive t
  actor : actor a ≠ some t

/-- **A run of others.** -/
theorem untouched_run (hok : s.Ok) (hrun : Reachable step (ByOthers t) s s') :
    s'.Ok ∧ Untouched t s s' := by
  refine hrun.invariant (P := fun r => r.Ok ∧ Untouched t s r) ⟨hok, .refl⟩ ?_
  rintro r a r' ⟨hokr, hr⟩ hby hstep
  exact ⟨hokr.step hstep, hr.trans (untouched_step hokr hby.actor hstep (hby.alive _ hstep))⟩

/-! ## The way back -/

theorem sigreturn_step (hx : s.thread t = some x) (hcall : s.Calls t .sigreturn (.doSyscall t c))
    (h : s.step (.doSyscall t c) = some s') : s' = s.sysSigreturn t x := by
  obtain ⟨y, hy, hs⟩ := Option.bind_eq_some_iff.mp h
  obtain rfl : x = y := Option.some.inj (hx.symm.trans (inPhase_eq hy).1)
  obtain ⟨-, z, -, hz, hdecode⟩ := hcall
  obtain rfl : x = z := Option.some.inj (hx.symm.trans hz)
  rw [doSyscall, hdecode, Option.some_inj] at hs
  exact hs.symm

/-- `SYS_SIGRETURN` of a process that runs a handler. -/
theorem sysSigreturn_of_inHandler (hx : s.thread t = some x) (hin : x.sig.inHandler = true)
    (h0 : x.sig.sigstackBase ≠ 0) :
    (s.sysSigreturn t x).thread t = some { x with
      frame := x.sig.saved
      sig := { x.sig with sigstackBase := 0, inHandler := false }
      phase := .sysret x.sig.saved.a0 } ∧
      (s.sysSigreturn t x).heap = s.heap.release x.sig.sigstackBase := by
  unfold sysSigreturn signalReturn
  rw [if_pos hin]
  constructor
  · exact thread_modify_self (thread_signalRelease (thread_modify_self hx))
  · show (State.kfreeIf _ _).heap = _
    rw [kfreeIf, if_neg h0]
    rfl

/-- `SYS_SIGRETURN` of a process that does not. -/
theorem sysSigreturn_of_not (hin : x.sig.inHandler = false) :
    s.sysSigreturn t x = s.ret t (-1) := by
  unfold sysSigreturn signalReturn
  rw [if_neg (by rw [hin]; exact Bool.false_ne_true)]

theorem sysret_step {r : Word} (hx : s.thread t = some x) (hr : x.phase = .sysret r)
    (h : s.step (.sysret t) = some s') :
    s'.thread t = some { x with frame := { x.frame with a0 := r }, phase := .deliver } ∧
      s'.heap = s.heap := by
  obtain ⟨y, -, rfl⟩ := Option.map_eq_some_iff.mp h
  refine ⟨?_, rfl⟩
  rw [thread_modify_self hx, hr]

/-- The way back from the handler, with steps of others on the way. -/
theorem sigreturn_of_inHandler {s₂ s₃ s₄ : State} {tf : TrapFrame} (hok : s.Ok)
    (hin : s.InHandler t tf stk) (hcall : s.Calls t .sigreturn (.doSyscall t c))
    (h : s.step (.doSyscall t c) = some s₂) :
    s₂.heap.released.count stk = s.heap.released.count stk + 1 ∧ stk ∉ s₂.heap.live ∧
      (Reachable step (ByOthers t) s₂ s₃ → s₃.step (.sysret t) = some s₄ →
        ∃ x, s₄.thread t = some x ∧ x.frame = tf ∧ x.sig.inHandler = false ∧
          x.sig.sigstackBase = 0) := by
  obtain ⟨x, hx, hinx, rfl, rfl, h0⟩ := hin
  have hs₂ := sigreturn_step hx hcall h
  obtain ⟨hthread, hheap⟩ := sysSigreturn_of_inHandler hx hinx h0
  rw [← hs₂] at hthread hheap
  refine ⟨?_, ?_, fun hrun hret => ?_⟩
  · rw [hheap]
    exact List.count_cons_self ..
  · rw [hheap]
    exact hok.nodup.not_mem_erase
  · obtain ⟨-, huntouched⟩ := untouched_run (hok.step h) hrun
    obtain ⟨⟨q, hq⟩, -⟩ := huntouched _ hthread
    exact ⟨_, (sysret_step hq rfl hret).1, rfl, rfl, rfl⟩

/-- `SYS_SIGRETURN` without a handler, from the trap to the result. -/
theorem sigreturn_of_not_inHandler {s₁ s₂ s₃ s₄ s₅ : State} {g : TrapFrame} (hok : s.Ok)
    (hx : s.thread t = some x) (hin : x.sig.inHandler = false)
    (hg : Syscall.decode g.a7 = some .sigreturn) (h₁ : s.step (.ecall t g) = some s₁)
    (h₂ : Reachable step (ByOthers t) s₁ s₂) (h₃ : s₂.step (.doSyscall t c) = some s₃)
    (h₄ : Reachable step (ByOthers t) s₃ s₄) (h₅ : s₄.step (.sysret t) = some s₅) :
    (∃ y, s₃.thread t = some y ∧ y.phase = .sysret (-1)) ∧
      (∃ y, s₅.thread t = some y ∧ y.frame = { g with sepc := g.sepc + 4, a0 := -1 }) ∧
        s₁.heap = s.heap ∧ s₃.heap = s₂.heap ∧ s₅.heap = s₄.heap := by
  have hok₁ := hok.step h₁
  obtain ⟨y, -, rfl⟩ := Option.map_eq_some_iff.mp h₁
  obtain ⟨hok₂, huntouched⟩ := untouched_run hok₁ h₂
  obtain ⟨⟨q, hq⟩, -⟩ := huntouched _ (thread_modify_self hx)
  have hs₃ := sigreturn_step hq ⟨c, _, rfl, hq, hg⟩ h₃
  rw [sysSigreturn_of_not (by exact hin)] at hs₃
  have hthread₃ := thread_modify_self (f := fun x => { x with phase := .sysret (-1) }) hq
  have hok₃ := hok₂.step h₃
  subst hs₃
  obtain ⟨-, huntouched'⟩ := untouched_run hok₃ h₄
  obtain ⟨⟨q', hq'⟩, -⟩ := huntouched' _ hthread₃
  obtain ⟨hthread₅, hheap₅⟩ := sysret_step hq' rfl h₅
  exact ⟨⟨_, hthread₃, rfl⟩, ⟨_, hthread₅, rfl⟩, rfl, rfl, hheap₅⟩

/-- **The way into a handler and back.**  From the delivery that enters a handler of `t` at the
frame `tf`, as long as `t` is not terminated and calls neither `exec` nor `sigreturn`: the handler
stays active with the same saved frame and the same stack, the stack is not freed, and a further
delivery does nothing.  When `SYS_SIGRETURN` is served the stack is freed, and when its result has
been written, `t` has the frame `tf` again and no active handler.

`SYS_SIGRETURN` without an active handler returns `-1`, and `t` has the frame of the trap, but for
`sepc` and `a0`. -/
theorem handler_round_trip (t : Tid) :
    (∀ s₀ s₁ tf stk, Reachable step anyStep boot s₀ → Enters t tf stk s₀ s₁ →
      ∀ s, Reachable step (GoesOn t) s₁ s →
        s.InHandler t tf stk ∧ s.heap.released.count stk = s₁.heap.released.count stk ∧
        (∀ stk' s', s.step (.deliver t stk') = some s' →
          s' = s.modify t fun x => { x with phase := .user }) ∧
        ∀ c s₂, s.Calls t .sigreturn (.doSyscall t c) → s.step (.doSyscall t c) = some s₂ →
          s₂.heap.released.count stk = s₁.heap.released.count stk + 1 ∧ stk ∉ s₂.heap.live ∧
          ∀ s₃ s₄, Reachable step (ByOthers t) s₂ s₃ → s₃.step (.sysret t) = some s₄ →
            ∃ x, s₄.thread t = some x ∧ x.frame = tf ∧ x.sig.inHandler = false ∧
              x.sig.sigstackBase = 0) ∧
    ∀ s₀ s₁ s₂ s₃ s₄ s₅ g c, Reachable step anyStep boot s₀ →
      (∃ x, s₀.thread t = some x ∧ x.sig.inHandler = false) →
      Syscall.decode g.a7 = some .sigreturn → s₀.step (.ecall t g) = some s₁ →
      Reachable step (ByOthers t) s₁ s₂ → s₂.step (.doSyscall t c) = some s₃ →
      Reachable step (ByOthers t) s₃ s₄ → s₄.step (.sysret t) = some s₅ →
        (∃ y, s₃.thread t = some y ∧ y.phase = .sysret (-1)) ∧
        (∃ y, s₅.thread t = some y ∧ y.frame = { g with sepc := g.sepc + 4, a0 := -1 }) ∧
        s₁.heap = s₀.heap ∧ s₃.heap = s₂.heap ∧ s₅.heap = s₄.heap := by
  constructor
  · intro s₀ s₁ tf stk hs₀ henter s hrun
    have hok₁ : s₁.Ok := (ok_of_reachable hs₀).step henter.1
    obtain ⟨hok, hin, hcount⟩ := inHandler_run hok₁ (inHandler_of_enters henter) hrun
    refine ⟨hin, hcount, fun stk' s' h => ?_, fun c s₂ hcall h => ?_⟩
    · obtain ⟨x, hx, hinx, -⟩ := hin
      exact deliver_eq hx hinx h
    · rw [← hcount]
      refine ⟨?_, ?_, fun s₃ s₄ h₃ h₄ => ?_⟩
      · exact (@sigreturn_of_inHandler _ _ _ _ s₂ s₂ s₂ _ hok hin hcall h).1
      · exact (@sigreturn_of_inHandler _ _ _ _ s₂ s₂ s₂ _ hok hin hcall h).2.1
      · exact (sigreturn_of_inHandler hok hin hcall h).2.2 h₃ h₄
  · rintro s₀ s₁ s₂ s₃ s₄ s₅ g c hs₀ ⟨x, hx, hin⟩ hg h₁ h₂ h₃ h₄ h₅
    exact sigreturn_of_not_inHandler (ok_of_reachable hs₀) hx hin hg h₁ h₂ h₃ h₄ h₅

theorem goesOn_ecall {g : TrapFrame} (hlive : s.Alive t) : GoesOn t s (.ecall t g) where
  alive s' h := by
    obtain ⟨x, hx, hzombie⟩ := hlive
    obtain ⟨-, -, rfl⟩ := Option.map_eq_some_iff.mp h
    exact ⟨_, thread_modify_self hx, hzombie⟩
  not_exec := fun ⟨_, _, h, _⟩ => Label.noConfusion h
  not_sigreturn := fun ⟨_, _, h, _⟩ => Label.noConfusion h

/-- The shell runs a program at `0x3000`. -/
def spawnProgram : Label :=
  .spawn { file := some 100, structBlock := 0x1000, kstackBlock := 0x2000, block := 0x3000 }

/-- The program of `t`, whose image is at `image`, installs a handler and sends itself the
signal. -/
def sendSigterm (t : Tid) (image : Word) : List Label :=
  [.ecall t { TrapFrame.zero with a7 := 10, a0 := 15, a1 := image + 0x40 }, .doSyscall t {},
    .sysret t, .deliver t 0,
    .ecall t { TrapFrame.zero with a7 := 12, a1 := 15, s1 := 7, sepc := image + 0x10 },
    .doSyscall t { target := some t }, .sysret t]

/-- The system call of the trampoline. -/
def trampoline : TrapFrame := { TrapFrame.zero with a7 := 11, sepc := 0x4004 }

/-- The frame at which the handler is entered. -/
def killFrame : TrapFrame := { TrapFrame.zero with a7 := 12, a1 := 15, s1 := 7, sepc := 0x3014 }

/-- The state in which the signal is pending. -/
def killed : State :=
  (runList step boot (spawnProgram :: sendSigterm 0x1000 0x3000)).getD boot

/-- The state after one more step. -/
def after (s : State) (a : Label) : State := (s.step a).getD s

theorem step_after {a : Label} (h : (s.step a).isSome) : s.step a = some (s.after a) := by
  obtain ⟨s', hs'⟩ := Option.isSome_iff_exists.mp h
  rw [after, hs', Option.getD_some]

theorem reachable_killed : Reachable step anyStep boot killed := by
  have hsome : (runList step boot (spawnProgram :: sendSigterm 0x1000 0x3000)).isSome := by
    decide +kernel
  obtain ⟨s', hs'⟩ := Option.isSome_iff_exists.mp hsome
  refine @reachable_of_runList _ _ _ _ _ (spawnProgram :: sendSigterm 0x1000 0x3000) ?_
  rw [killed, hs', Option.getD_some]

/-- The handler has been entered on a stack at `0x4000`, and has returned to the trampoline. -/
def trampolined : State :=
  (killed.after (.deliver 0x1000 0x4000)).after (.ecall 0x1000 trampoline)

theorem handler_round_trip_of_kill :
    trampolined.InHandler 0x1000 killFrame 0x4000 ∧
    (∃ x, ((trampolined.after (.doSyscall 0x1000 {})).after (.sysret 0x1000)).thread 0x1000 =
      some x ∧ x.frame = killFrame ∧ x.sig.inHandler = false ∧ x.sig.sigstackBase = 0) ∧
    ∃ x, ((((boot.after spawnProgram).after (.ecall 0x1000 trampoline)).after
      (.doSyscall 0x1000 {})).after (.sysret 0x1000)).thread 0x1000 = some x ∧
        x.frame = { trampoline with sepc := trampoline.sepc + 4, a0 := -1 } := by
  have henter : Enters 0x1000 killFrame 0x4000 killed (killed.after (.deliver 0x1000 0x4000)) := by
    refine ⟨step_after (by decide +kernel), ?_, ?_⟩
    · have h : (killed.thread 0x1000).map (fun x => (x.frame, x.sig.inHandler)) =
          some (killFrame, false) := by decide +kernel
      obtain ⟨x, hx, hv⟩ := Option.map_eq_some_iff.mp h
      exact ⟨x, hx, congrArg Prod.fst hv, congrArg Prod.snd hv⟩
    · have h : ((killed.after (.deliver 0x1000 0x4000)).thread 0x1000).map
          (fun x => x.sig.inHandler) = some true := by decide +kernel
      exact Option.map_eq_some_iff.mp h
  have hrun : Reachable step (GoesOn 0x1000) (killed.after (.deliver 0x1000 0x4000))
      trampolined := by
    refine (Reachable.refl _).tail (goesOn_ecall ?_) (step_after (by decide +kernel))
    have h : ((killed.after (.deliver 0x1000 0x4000)).thread 0x1000).map Thread.zombie =
        some false := by decide +kernel
    exact Option.map_eq_some_iff.mp h
  have hcall : trampolined.Calls 0x1000 .sigreturn (.doSyscall 0x1000 {}) := by
    have h : (trampolined.thread 0x1000).map (fun x => Syscall.decode x.frame.a7) =
        some (some .sigreturn) := by decide +kernel
    obtain ⟨x, hx, hdecode⟩ := Option.map_eq_some_iff.mp h
    exact ⟨{}, x, rfl, hx, hdecode⟩
  obtain ⟨hin, -, -, hret⟩ :=
    (handler_round_trip 0x1000).1 _ _ _ _ reachable_killed henter _ hrun
  have hspawn : Reachable step anyStep boot (boot.after spawnProgram) :=
    (Reachable.refl boot).tail trivial (step_after (by decide +kernel))
  have hnot : ((boot.after spawnProgram).thread 0x1000).map (fun x => x.sig.inHandler) =
      some false := by decide +kernel
  refine ⟨hin, ?_, ?_⟩
  · exact (hret _ _ hcall (step_after (by decide +kernel))).2.2 _ _ (Reachable.refl _)
      (step_after (by decide +kernel))
  · exact ((handler_round_trip 0x1000).2 _ _ _ _ _ _ trampoline {} hspawn
      (Option.map_eq_some_iff.mp hnot) rfl (step_after (by decide +kernel)) (Reachable.refl _)
      (step_after (by decide +kernel)) (Reachable.refl _)
      (step_after (by decide +kernel))).2.1

end State
end Process
end OscKernel
