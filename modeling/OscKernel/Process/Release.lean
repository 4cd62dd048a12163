import OscKernel.Process.Handler

/-!
# Every block is released once (`syscall.c`, `signal.c`, `shell.c`, `sched.c`)

What a step does to the memory of the processes is a sequence of moves: a pointer receives a block,
a pointer is cleared and its block is freed, a struct is made or freed.  A move never frees what is
not allocated, and leaves no block without a pointer.

* `Moves`: the sequences of moves; `Moves.ok`, `Moves.covered`, `Moves.legal`.
* `moves_step`: every step is one, unless `shell_stop_pid` terminates a process inside a handler.
* `released_of_reachable`: blocks are released exactly once.

## Moves

A block is released once when it is released as long as there is a pointer to it, and the pointer is
gone afterwards.  Both are kept by each move, whatever the move is for, and so a step has to be
taken apart into moves only once; what the steps are for plays no part after that.  `Covered` is the
other half: a block that is allocated has a pointer somewhere, so that nothing is lost.

Processes are `Tidy` between steps: one that has been terminated has no image and no signal stack
left, and there is a signal stack only while a handler runs.  This is what the reapers rely on, who
free the kernel stack and the struct and look at nothing else.

## The exception

`sys_exit` and `signal_default_terminate` release the signal stack, and `shell_stop_pid` frees the
image only.  A process that is stopped inside a handler loses its signal stack, and the pointer to
it goes with the struct.  The shell executes commands while such a process exists when it is not
waiting for it: for instance when the process is the child of a child whose own parent has exited.
-/

namespace OscKernel
namespace Process

open Rv64 (Word)
open Transition

namespace State

variable {s s' s₀ : State} {t u : Tid} {x y : Thread} {c : Choice} {p stk : Word}
  {f : Thread → Thread} {gs : List Word}

/-- Every allocated block is one that the kernel has a pointer to. -/
def Covered (s : State) : Prop := Covers 0 s.own s.heap.live

/-! ## Moves -/

/-- `s` comes from `s₀` by moves in which `gs` was allocated, the latest first. -/
inductive Moves (s₀ : State) : List Word → State → Prop
  | refl : Moves s₀ [] s₀
  /-- No pointer is written. -/
  | modify {gs : List Word} {s : State} {t : Tid} {f : Thread → Thread} (h : Moves s₀ gs s)
      (hf : ∀ x, s.thread t = some x → ∀ q, (f x).part t q = x.part t q) :
      Moves s₀ gs (s.modify t f)
  | release {gs : List Word} {s : State} {t : Tid} {x : Thread} {f : Thread → Thread}
      (h : Moves s₀ gs s) (hx : s.thread t = some x) (q : Part) (h0 : x.part t q ≠ 0)
      (hf : ∀ q', q' ≠ q → (f x).part t q' = x.part t q') (hnull : (f x).part t q = 0) :
      Moves s₀ gs ((s.kfree (x.part t q)).modify t f)
  | acquire {gs : List Word} {s : State} {t : Tid} {x : Thread} {f : Thread → Thread} {p : Word}
      (h : Moves s₀ gs s) (hx : s.thread t = some x) (q : Part) (hempty : x.part t q = 0)
      (h0 : p ≠ 0) (hp : p ∉ s.heap.live) (hp₀ : p ∉ s₀.heap.live)
      (hf : ∀ q', q' ≠ q → (f x).part t q' = x.part t q') (hset : (f x).part t q = p) :
      Moves s₀ (p :: gs) ({ s with heap := s.heap.acquire p }.modify t f)
  /-- A block is allocated and freed again. -/
  | bounce {gs : List Word} {s : State} {p : Word} (h : Moves s₀ gs s) (hp : p ∉ s.heap.live)
      (hp₀ : p ∉ s₀.heap.live) :
      Moves s₀ (p :: gs) ({ s with heap := s.heap.acquire p }.kfree p)
  | make {gs : List Word} {s : State} {t : Tid} {new : Thread} (h : Moves s₀ gs s)
      (hnone : s.thread t = none) (h0 : t ≠ 0) (hp : t ∉ s.heap.live) (hp₀ : t ∉ s₀.heap.live)
      (hnew : ∀ q, q ≠ .struct → new.part t q = 0) :
      Moves s₀ (t :: gs)
        { s with heap := s.heap.acquire t, thread := Function.update s.thread t (some new) }
  | unmake {gs : List Word} {s : State} {t : Tid} {x : Thread} (h : Moves s₀ gs s)
      (hx : s.thread t = some x) (h0 : t ≠ 0) (hparts : ∀ q, q ≠ .struct → x.part t q = 0) :
      Moves s₀ gs { s.kfree t with thread := Function.update s.thread t none }
  | acquireMisc {gs : List Word} {s : State} {i : ℕ} {p : Word} (h : Moves s₀ gs s)
      (hempty : s.misc i = 0) (h0 : p ≠ 0) (hp : p ∉ s.heap.live) (hp₀ : p ∉ s₀.heap.live) :
      Moves s₀ (p :: gs)
        { s with heap := s.heap.acquire p, misc := Function.update s.misc i p }
  | releaseMisc {gs : List Word} {s : State} {i : ℕ} (h : Moves s₀ gs s) (h0 : s.misc i ≠ 0) :
      Moves s₀ gs { s.kfree (s.misc i) with misc := Function.update s.misc i 0 }
  /-- `g_next_tid` is written. -/
  | nextTid {gs : List Word} {s : State} (h : Moves s₀ gs s) (n : BitVec 32) :
      Moves s₀ gs { s with gNextTid := n }

/-! ### The pointers after a move -/

theorem own_modify_of (hf : ∀ x, s.thread t = some x → ∀ q, (f x).part t q = x.part t q) :
    (s.modify t f).own = s.own := by
  funext o
  cases o with
  | part v q =>
    by_cases hv : v = t
    · subst hv
      cases hx : s.thread v with
      | none =>
        rw [own_part_of_none hx, own_part_of_none]
        rw [thread_modify, if_pos rfl, hx]
        rfl
      | some x => rw [own_part (thread_modify_self hx), own_part hx, hf x hx]
    · exact own_part_congr (thread_modify_of_ne hv) q
  | misc i => rfl

theorem own_make {new : Thread} (hnone : s.thread t = none)
    (hnew : ∀ q, q ≠ .struct → new.part t q = 0) (h : BlockHeap Word) :
    State.own { s with heap := h, thread := Function.update s.thread t (some new) } =
      Function.update s.own (.part t .struct) t := by
  funext o
  cases o with
  | part v q =>
    by_cases hv : v = t
    · subst hv
      rw [own_part (Function.update_self ..)]
      cases q with
      | struct => rw [Function.update_self]; rfl
      | kstack | image | sigstack =>
        rw [Function.update_of_ne (by simp), own_part_of_none hnone]
        exact hnew _ (by simp)
    · rw [Function.update_of_ne fun heq => hv (Slot.part.inj heq).1]
      exact own_part_congr (Function.update_of_ne hv ..) q
  | misc i => rw [Function.update_of_ne Slot.noConfusion]; rfl

theorem own_unmake (hx : s.thread t = some x) (hparts : ∀ q, q ≠ .struct → x.part t q = 0)
    (h : BlockHeap Word) :
    State.own { s with heap := h, thread := Function.update s.thread t none } =
      Function.update s.own (.part t .struct) 0 := by
  funext o
  cases o with
  | part v q =>
    by_cases hv : v = t
    · subst hv
      rw [own_part_of_none (Function.update_self ..)]
      cases q with
      | struct => rw [Function.update_self]
      | kstack | image | sigstack =>
        rw [Function.update_of_ne (by simp), own_part hx]
        exact (hparts _ (by simp)).symm
    · rw [Function.update_of_ne fun heq => hv (Slot.part.inj heq).1]
      exact own_part_congr (Function.update_of_ne hv ..) q
  | misc i => rw [Function.update_of_ne Slot.noConfusion]; rfl

theorem own_misc (i : ℕ) (h : BlockHeap Word) :
    State.own { s with heap := h, misc := Function.update s.misc i p } =
      Function.update s.own (.misc i) p := by
  funext o
  cases o with
  | part v q => rw [Function.update_of_ne Slot.noConfusion]; rfl
  | misc j =>
    show Function.update s.misc i p j = _
    rw [Function.update_apply, Function.update_apply]
    simp only [Slot.misc.injEq]
    rfl

/-! ### What moves preserve -/

namespace Moves

theorem ok (h : Moves s₀ gs s) (h₀ : s₀.Ok) : s.Ok := by
  induction h with
  | refl => exact h₀
  | modify _ hf ih =>
    show Owned 0 _ _
    rw [own_modify_of hf]
    exact ih
  | release _ hx q h0 hf hnull ih =>
    have h := ih.release hx q rfl hf hnull
    rwa [kfreeIf, if_neg h0] at h
  | acquire _ hx q _ _ hp _ hf hset ih => exact ih.acquire hx q hp hf hset
  | @bounce _ s p _ _ _ ih =>
    show Owned 0 s.own ((p :: s.heap.live).erase p)
    rw [List.erase_cons_head]
    exact ih
  | make _ hnone _ hp _ hnew ih =>
    show Owned 0 _ _
    rw [own_make hnone hnew]
    exact Owned.acquire ih hp
  | @unmake _ s t x _ hx _ hparts ih =>
    show Owned 0 _ (s.heap.live.erase t)
    have hstruct : s.own (.part t .struct) = t := own_part hx .struct
    have h := Owned.release (i := .part t .struct) ih
    rw [hstruct] at h
    exact (own_unmake hx hparts (s.heap.release t)).symm ▸ h
  | @acquireMisc _ s i p _ _ _ hp _ ih =>
    show Owned 0 _ (p :: s.heap.live)
    rw [own_misc]
    exact Owned.acquire ih hp
  | releaseMisc _ _ ih => exact ih.kfreeMisc
  | nextTid _ _ ih => exact ih

theorem covered (h : Moves s₀ gs s) (h₀ : s₀.Ok) (hc : s₀.Covered) : s.Covered := by
  induction h with
  | refl => exact hc
  | modify _ hf ih =>
    show Covers 0 _ _
    rw [own_modify_of hf]
    exact ih
  | @release _ s t x f h hx q _ hf hnull ih =>
    show Covers 0 _ (s.heap.live.erase (x.part t q))
    rw [own_modify_part (s := s.kfree (x.part t q)) hx q hf, hnull]
    have hslot : s.own (.part t q) = x.part t q := own_part hx q
    rw [← hslot]
    exact Covers.release ih (h.ok h₀).nodup
  | @acquire _ s t x f p _ hx q hempty h0 _ _ hf hset ih =>
    show Covers 0 (s.modify t f).own (p :: s.heap.live)
    rw [own_modify_part hx q hf, hset]
    exact Covers.acquire ih ((own_part hx q).trans hempty) h0
  | @bounce _ s p _ _ _ ih =>
    show Covers 0 s.own ((p :: s.heap.live).erase p)
    rw [List.erase_cons_head]
    exact ih
  | make _ hnone h0 _ _ hnew ih =>
    show Covers 0 _ _
    rw [own_make hnone hnew]
    exact Covers.acquire ih (own_part_of_none hnone _) h0
  | @unmake _ s t x h hx _ hparts ih =>
    show Covers 0 _ (s.heap.live.erase t)
    have hstruct : s.own (.part t .struct) = t := own_part hx .struct
    have hrel := Covers.release (i := .part t .struct) ih (h.ok h₀).nodup
    rw [hstruct] at hrel
    exact (own_unmake hx hparts (s.heap.release t)).symm ▸ hrel
  | @acquireMisc _ s i p _ hempty h0 _ _ ih =>
    show Covers 0 _ (p :: s.heap.live)
    rw [own_misc]
    exact Covers.acquire ih hempty h0
  | @releaseMisc _ s i h _ ih =>
    show Covers 0 _ (s.heap.live.erase (s.misc i))
    have hrel := Covers.release (i := .misc i) ih (h.ok h₀).nodup
    exact (own_misc i (s.heap.release (s.misc i))).symm ▸ hrel
  | nextTid _ _ ih => exact ih

/-- A move frees only what is allocated. -/
theorem legal (h : Moves s₀ gs s) (h₀ : s₀.Ok) :
    ∃ ps, BlockHeap.Legal s₀.heap gs ps s.heap := by
  induction h with
  | refl => exact ⟨[], .refl⟩
  | modify _ _ ih => exact ih
  | release h hx q h0 _ _ ih =>
    obtain ⟨ps, hl⟩ := ih
    refine ⟨_, hl.release ?_⟩
    have hslot := own_part hx q
    exact hslot ▸ (h.ok h₀).mem_live _ (hslot ▸ h0)
  | acquire _ _ _ _ _ hp _ _ _ ih =>
    obtain ⟨ps, hl⟩ := ih
    exact ⟨ps, hl.acquire hp⟩
  | bounce _ hp _ ih =>
    obtain ⟨ps, hl⟩ := ih
    exact ⟨_, (hl.acquire hp).release List.mem_cons_self⟩
  | make _ _ _ hp _ _ ih =>
    obtain ⟨ps, hl⟩ := ih
    exact ⟨ps, hl.acquire hp⟩
  | @unmake _ s t x h hx h0 _ ih =>
    obtain ⟨ps, hl⟩ := ih
    refine ⟨_, hl.release ?_⟩
    have hslot : s.own (.part t .struct) = t := own_part hx .struct
    exact hslot ▸ (h.ok h₀).mem_live _ (hslot.symm ▸ h0)
  | acquireMisc _ _ _ hp _ ih =>
    obtain ⟨ps, hl⟩ := ih
    exact ⟨ps, hl.acquire hp⟩
  | @releaseMisc _ s i h h0 ih =>
    obtain ⟨ps, hl⟩ := ih
    exact ⟨_, hl.release ((h.ok h₀).mem_live (.misc i) h0)⟩
  | nextTid _ _ ih => exact ih

/-- What is allocated was not allocated before. -/
theorem fresh (h : Moves s₀ gs s) : ∀ p ∈ gs, p ∉ s₀.heap.live := by
  induction h with
  | refl => exact fun p hp => absurd hp List.not_mem_nil
  | modify _ _ ih | release _ _ _ _ _ _ ih | unmake _ _ _ _ ih | releaseMisc _ _ ih
  | nextTid _ _ ih => exact ih
  | acquire _ _ _ _ _ _ hp₀ _ _ ih | bounce _ _ hp₀ ih | make _ _ _ _ hp₀ _ ih
  | acquireMisc _ _ _ _ hp₀ ih => exact List.forall_mem_cons.mpr ⟨hp₀, ih⟩

end Moves

/-- A pointer is as before, or cleared, or to a block that was allocated meanwhile. -/
theorem Moves.slot (h : Moves s₀ gs s) (o : Slot) :
    s.own o = s₀.own o ∨ s.own o = 0 ∨ s.own o ∈ gs := by
  have weaken : ∀ {gs : List Word} {s : State} {p : Word},
      (s.own o = s₀.own o ∨ s.own o = 0 ∨ s.own o ∈ gs) →
        s.own o = s₀.own o ∨ s.own o = 0 ∨ s.own o ∈ p :: gs := fun h =>
    h.imp_right (Or.imp_right (List.mem_cons_of_mem _))
  -- one pointer is written
  have update : ∀ {gs : List Word} {s : State} {o' : Slot} {p : Word},
      (s.own o = s₀.own o ∨ s.own o = 0 ∨ s.own o ∈ gs) → (p = 0 ∨ p ∈ gs) →
        Function.update s.own o' p o = s₀.own o ∨ Function.update s.own o' p o = 0 ∨
          Function.update s.own o' p o ∈ gs := by
    intro gs s o' p h hp
    rw [Function.update_apply]
    split_ifs
    · exact Or.inr hp
    · exact h
  induction h with
  | refl => exact Or.inl rfl
  | modify _ hf ih =>
    rw [own_modify_of hf]
    exact ih
  | @release _ s t x f _ hx q _ hf hnull ih =>
    rw [own_modify_part (s := s.kfree (x.part t q)) hx q hf, hnull]
    exact update ih (Or.inl rfl)
  | @acquire _ s t x f p _ hx q _ _ _ _ hf hset ih =>
    rw [own_modify_part (s := { s with heap := s.heap.acquire p }) hx q hf, hset]
    exact update (weaken ih) (Or.inr List.mem_cons_self)
  | bounce _ _ _ ih => exact weaken ih
  | make _ hnone _ _ _ hnew ih =>
    rw [own_make hnone hnew]
    exact update (weaken ih) (Or.inr List.mem_cons_self)
  | @unmake _ s t x _ hx _ hparts ih =>
    exact (own_unmake hx hparts (s.heap.release t)).symm ▸ update ih (Or.inl rfl)
  | acquireMisc _ _ _ _ _ ih =>
    rw [own_misc]
    exact update (weaken ih) (Or.inr List.mem_cons_self)
  | @releaseMisc _ s i _ _ ih =>
    exact (own_misc i (s.heap.release (s.misc i))).symm ▸ update ih (Or.inl rfl)
  | nextTid _ _ ih => exact ih

/-- The block was allocated, and was released by exactly one call of `kfree`. -/
structure FreedOnce (s s' : State) (p : Word) : Prop where
  before : p ∈ s.heap.live
  calls : s'.heap.released.count p = s.heap.released.count p + 1
  after : p ∉ s'.heap.live

/-- **A pointer that is gone**: its block was released, once. -/
theorem Moves.freedOnce (h : Moves s₀ gs s) (h₀ : s₀.Ok) (hc : s₀.Covered) {o : Slot}
    (ho : s₀.own o ≠ 0) (hgone : s.own o = 0) : FreedOnce s₀ s (s₀.own o) := by
  have hlive := h₀.mem_live o ho
  have hnot : s₀.own o ∉ gs := fun hmem => h.fresh _ hmem hlive
  have hafter : s₀.own o ∉ s.heap.live := by
    intro hmem
    obtain ⟨-, o', ho'⟩ := h.covered h₀ hc _ hmem
    rcases h.slot o' with hsame | hnull | hnew
    · -- the block had one pointer, which is gone
      obtain rfl : o = o' := h₀.inj o o' ho (ho'.symm.trans hsame)
      exact ho (ho'.symm.trans hgone)
    · exact ho (ho'.symm.trans hnull)
    · exact hnot (ho' ▸ hnew)
  obtain ⟨ps, hl⟩ := h.legal h₀
  have hcount := hl.count (s₀.own o)
  rw [List.count_eq_one_of_mem h₀.nodup hlive, List.count_eq_zero.mpr hnot,
    List.count_eq_zero.mpr hafter] at hcount
  refine ⟨hlive, ?_, hafter⟩
  have hreleased : s.heap.released = ps ++ s₀.heap.released := hl.releases
  rw [hreleased, List.count_append]
  omega

/-! ## The steps as moves -/

/-- The pointers of a process between steps: a process that has been terminated has no image and no
signal stack, and there is a signal stack only while a handler is active. -/
structure Tidy (t : Tid) (x : Thread) : Prop where
  struct : t ≠ 0
  kstack : x.kstackBase ≠ 0
  image : x.zombie = true → x.imageBase = 0
  sigstack : x.zombie = true → x.sig.sigstackBase = 0
  handler : x.sig.inHandler = false → x.sig.sigstackBase = 0

/-- All processes are tidy. -/
def Neat (s : State) : Prop := ∀ t x, s.thread t = some x → Tidy t x

theorem Moves.cast (h : Moves s₀ gs s) (heq : s = s') : Moves s₀ gs s' := heq ▸ h

section Moves

variable (h : Moves s₀ gs s)

include h

theorem Moves.modify_all (hf : ∀ x q, (f x).part t q = x.part t q) : Moves s₀ gs (s.modify t f) :=
  h.modify fun x _ => hf x

theorem Moves.ret (r : Word) : Moves s₀ gs (s.ret t r) := h.modify_all fun _ q => by cases q <;> rfl

/-- A pointer is cleared, and its block freed if there is one. -/
theorem Moves.clear (hx : s.thread t = some x) (q : Part) (hp : p = x.part t q)
    (hf : ∀ q', q' ≠ q → (f x).part t q' = x.part t q') (hnull : (f x).part t q = 0) :
    Moves s₀ gs ((s.kfreeIf p).modify t f) := by
  unfold kfreeIf
  split_ifs with h0
  · refine h.modify fun y hy q' => ?_
    obtain rfl := Option.some.inj (hx.symm.trans hy)
    by_cases hq : q' = q
    · subst hq
      exact hnull.trans (h0.symm.trans hp)
    · exact hf q' hq
  · subst hp
    exact h.release hx q h0 hf hnull

theorem Moves.signalRelease (hy : s.thread t = some y)
    (hxy : x.sig.sigstackBase = y.sig.sigstackBase) : Moves s₀ gs (s.signalRelease t x) :=
  h.clear hy .sigstack hxy (fun q hq => by cases q <;> first | rfl | exact absurd rfl hq) rfl

theorem Moves.terminate (hy : s.thread t = some y) (himage : x.imageBase = y.imageBase) :
    Moves s₀ gs (s.terminate t x) :=
  h.clear hy .image himage (fun q hq => by cases q <;> first | rfl | exact absurd rfl hq) rfl

theorem Moves.signalDefaultTerminate (hy : s.thread t = some y) (himage : x.imageBase = y.imageBase)
    (hxy : x.sig.sigstackBase = y.sig.sigstackBase) :
    Moves s₀ gs (s.signalDefaultTerminate t x) :=
  (h.terminate hy himage).signalRelease
    (thread_modify_self (by rw [thread_kfreeIf]; exact hy)) hxy

end Moves

namespace Moves

/-- The blocks of a new process. -/
theorem made {new : Thread} {n : BitVec 32} (hok : s.Ok) (h0 : c.structBlock ≠ 0)
    (h0' : c.kstackBlock ≠ 0) (h0'' : c.block ≠ 0) (hstruct : c.structBlock ∉ s.heap.live)
    (hkstack : c.kstackBlock ∉ c.structBlock :: s.heap.live)
    (himage : c.block ∉ c.kstackBlock :: c.structBlock :: s.heap.live)
    (hk : new.kstackBase = c.kstackBlock) (hi : new.imageBase = c.block)
    (hs : new.sig.sigstackBase = 0) :
    Moves s [c.block, c.kstackBlock, c.structBlock]
      { s with
        heap := ((s.heap.acquire c.structBlock).acquire c.kstackBlock).acquire c.block
        gNextTid := n
        thread := Function.update s.thread c.structBlock (some new) } := by
  have hnone : s.thread c.structBlock = none := by
    by_contra hne
    obtain ⟨x, hx⟩ := Option.ne_none_iff_exists'.mp hne
    have hown : s.own (.part c.structBlock .struct) = c.structBlock := own_part hx .struct
    exact hstruct (hown ▸ hok.mem_live _ (hown.symm ▸ h0))
  have hkstack' : c.kstackBlock ∉ s.heap.live := fun hm => hkstack (List.mem_cons_of_mem _ hm)
  have himage' : c.block ∉ s.heap.live := fun hm =>
    himage (List.mem_cons_of_mem _ (List.mem_cons_of_mem _ hm))
  have h₁ := @Moves.make s [] s c.structBlock { new with kstackBase := 0, imageBase := 0 } .refl
    hnone h0 hstruct hstruct fun q hq => by
      cases q <;> first | exact absurd rfl hq | rfl | exact hs
  have h₂ := h₁.acquire (f := fun x => { x with kstackBase := c.kstackBlock })
    (Function.update_self ..) .kstack rfl h0' hkstack hkstack'
    (fun q hq => by cases q <;> first | rfl | exact absurd rfl hq) rfl
  have h₃ := h₂.acquire (f := fun x => { x with imageBase := c.block })
    (thread_modify_self (Function.update_self ..)) .image rfl h0'' himage himage'
    (fun q hq => by cases q <;> first | rfl | exact absurd rfl hq) rfl
  have h₄ := h₃.nextTid n
  have hthread : ({ new with kstackBase := c.kstackBlock, imageBase := c.block } : Thread) = new :=
    by rw [← hk, ← hi]
  simpa [State.modify, hthread] using h₄

/-- A new process, or its blocks are freed again. -/
theorem newThread {new : Thread} {b : Bool} (hok : s.Ok)
    (hs : s.newThread c new = some (s', b)) (hkstack : new.kstackBase = c.kstackBlock)
    (himage : new.imageBase = c.block) (hsigstack : new.sig.sigstackBase = 0) :
    ∃ gs, Moves s gs s' ∧ gs ⊆ [c.structBlock, c.kstackBlock, c.block] ∧
      (s'.thread = s.thread ∨ c.structBlock ≠ 0 ∧ c.kstackBlock ≠ 0 ∧
        s'.thread = Function.update s.thread c.structBlock (some new)) := by
  unfold State.newThread at hs
  obtain ⟨s₁, h₁, hrest⟩ := Option.bind_eq_some_iff.mp hs
  clear hs
  rcases kmalloc_cases h₁ with ⟨h0, rfl⟩ | ⟨h0, hstruct, rfl⟩
  · rw [if_pos h0] at hrest
    obtain ⟨rfl, rfl⟩ := Prod.mk.inj (Option.some.inj hrest)
    exact ⟨[], .refl, List.nil_subset _, Or.inl rfl⟩
  rw [if_neg h0] at hrest
  obtain ⟨s₂, h₂, hrest'⟩ := Option.bind_eq_some_iff.mp hrest
  clear hrest
  have hbounce : Moves s [c.structBlock]
      ({ s with heap := s.heap.acquire c.structBlock }.kfree c.structBlock) :=
    Moves.refl.bounce hstruct hstruct
  rcases kmalloc_cases h₂ with ⟨h0', rfl⟩ | ⟨h0', hk, rfl⟩
  · rw [if_pos h0'] at hrest'
    obtain ⟨rfl, rfl⟩ := Prod.mk.inj (Option.some.inj hrest')
    exact ⟨_, hbounce, by simp, Or.inl rfl⟩
  rw [if_neg h0'] at hrest'
  obtain ⟨s₃, h₃, hrest⟩ := Option.bind_eq_some_iff.mp hrest'
  clear hrest'
  rcases kmalloc_cases h₃ with ⟨h0'', rfl⟩ | ⟨h0'', hi, rfl⟩
  · rw [if_pos h0''] at hrest
    obtain ⟨rfl, rfl⟩ := Prod.mk.inj (Option.some.inj hrest)
    have hk' : c.kstackBlock ∉ s.heap.live := fun hm => hk (List.mem_cons_of_mem _ hm)
    have hbounce₂ := ((Moves.refl : Moves s [] s).bounce hk' hk').bounce (p := c.structBlock)
      (by simpa [kfree, BlockHeap.acquire, BlockHeap.release] using hstruct) hstruct
    refine ⟨_, (hbounce₂.nextTid (s.gNextTid + 1)).cast ?_, by simp, Or.inl rfl⟩
    simp [kfree, BlockHeap.acquire, BlockHeap.release]
  · rw [if_neg h0''] at hrest
    obtain ⟨rfl, rfl⟩ := Prod.mk.inj (Option.some.inj hrest)
    refine ⟨_, made hok h0 h0' h0'' hstruct hk hi hkstack himage hsigstack, ?_,
      Or.inr ⟨h0, h0', rfl⟩⟩
    simp

/-- The image of a process is replaced, and the old one is freed. -/
theorem exchange (hok : s.Ok) (hx : s.thread t = some x) (himage : x.imageBase ≠ 0) (h0 : p ≠ 0)
    (hp : p ∉ s.heap.live) (n : Word) :
    Moves s [p] (({ s with heap := s.heap.acquire p }.modify t
      fun x => { x with imageBase := p, totalSize := n }).kfree x.imageBase) := by
  have hslot : s.own (.part t .image) = x.imageBase := own_part hx .image
  have hne : p ≠ x.imageBase := by
    rintro rfl
    exact hp (hslot ▸ hok.mem_live _ (hslot ▸ himage))
  have h₁ := (Moves.refl : Moves s [] s).release (f := fun x => { x with imageBase := 0 }) hx
    .image himage (fun q hq => by cases q <;> first | rfl | exact absurd rfl hq) rfl
  have h₂ := h₁.acquire (f := fun x => { x with imageBase := p, totalSize := n })
    (thread_modify_self hx) .image rfl h0 (fun hm => hp (List.mem_of_mem_erase hm)) hp
    (fun q hq => by cases q <;> first | rfl | exact absurd rfl hq) rfl
  have hlive : (p :: s.heap.live).erase x.imageBase = p :: s.heap.live.erase x.imageBase :=
    List.erase_cons_tail (by simp [hne])
  refine h₂.cast ?_
  simp [State.modify, State.kfree, BlockHeap.acquire, BlockHeap.release, hx, hlive, Thread.part]

theorem sysExec (hok : s.Ok) (hx : s.thread t = some x) (hs : s.sysExec t x c = some s') :
    ∃ gs, Moves s gs s' ∧ gs ⊆ [c.block] := by
  unfold State.sysExec at hs
  by_cases himage : x.imageBase = 0
  · rw [if_pos himage] at hs
    exact ⟨[], Option.some.inj hs ▸ Moves.refl.ret _, List.nil_subset _⟩
  rw [if_neg himage] at hs
  cases hfile : c.file with
  | none =>
    rw [hfile] at hs
    exact ⟨[], Option.some.inj hs ▸ Moves.refl.ret _, List.nil_subset _⟩
  | some sz =>
    rw [hfile] at hs
    obtain ⟨s₁, h₁, rfl⟩ := Option.map_eq_some_iff.mp hs
    rcases kmalloc_cases h₁ with ⟨h0, rfl⟩ | ⟨h0, hfresh, rfl⟩
    · rw [if_pos h0]
      exact ⟨[], Moves.refl.ret _, List.nil_subset _⟩
    · rw [if_neg h0]
      refine ⟨[c.block], ?_, List.Subset.refl _⟩
      have h₂ := exchange hok hx himage h0 hfresh (sz + userStackSize)
      have h₃ := h₂.modify_all (t := t) (f := fun x =>
        { x with sig := { x.sig with handlers := fun _ => sigDfl, pending := 0 } })
        fun _ q => by cases q <;> rfl
      refine ((h₃.signalRelease (thread_modify_self (thread_modify_self hx)) rfl).modify_all
        fun _ q => ?_).ret _
      cases q <;> rfl

theorem sysFork (hok : s.Ok) (hs : s.sysFork t x c = some s') :
    ∃ gs, Moves s gs s' ∧ gs ⊆ [c.structBlock, c.kstackBlock, c.block] := by
  unfold State.sysFork at hs
  split_ifs at hs
  · exact ⟨[], Option.some.inj hs ▸ Moves.refl.ret _, List.nil_subset _⟩
  · obtain ⟨⟨s₁, b⟩, hnew, rfl⟩ := Option.map_eq_some_iff.mp hs
    obtain ⟨gs, hmoves, hgs, -⟩ := newThread hok hnew rfl rfl rfl
    exact ⟨gs, hmoves.ret _, hgs⟩

theorem threadSpawnUser (hok : s.Ok) (hs : s.threadSpawnUser c = some s') :
    ∃ gs, Moves s gs s' ∧ gs ⊆ [c.structBlock, c.kstackBlock, c.block] := by
  unfold State.threadSpawnUser at hs
  cases hfile : c.file with
  | none =>
    rw [hfile] at hs
    exact ⟨[], Option.some.inj hs ▸ .refl, List.nil_subset _⟩
  | some sz =>
    rw [hfile] at hs
    obtain ⟨⟨s₁, b⟩, hnew, rfl⟩ := Option.map_eq_some_iff.mp hs
    obtain ⟨gs, hmoves, hgs, -⟩ := newThread hok hnew rfl rfl rfl
    exact ⟨gs, hmoves, hgs⟩

theorem stopTarget (hs : s.stopTarget c = some s') : Moves s [] s' := by
  unfold State.stopTarget at hs
  obtain ⟨u, -, hu⟩ := Option.bind_eq_some_iff.mp hs
  obtain ⟨y, hy, hs⟩ := Option.bind_eq_some_iff.mp hu
  split_ifs at hs
  exact Option.some.inj hs ▸ Moves.refl.signalDefaultTerminate hy rfl rfl

theorem shellStopPid (hs : s.shellStopPid c = some s') : Moves s [] s' := by
  unfold State.shellStopPid at hs
  obtain ⟨u, -, hu⟩ := Option.bind_eq_some_iff.mp hs
  obtain ⟨y, hy, hs⟩ := Option.bind_eq_some_iff.mp hu
  split_ifs at hs
  exact Option.some.inj hs ▸ Moves.refl.terminate hy rfl

theorem signalPost (signum : ℤ) : Moves s [] (s.signalPost u signum) := by
  unfold State.signalPost
  split_ifs
  · exact .refl
  · exact Moves.refl.modify_all fun _ q => by cases q <;> rfl

theorem killTarget {signum : ℤ} (hs : s.killTarget c signum = some s') : Moves s [] s' := by
  unfold State.killTarget at hs
  obtain ⟨u, -, hu⟩ := Option.bind_eq_some_iff.mp hs
  obtain ⟨y, hy, hs⟩ := Option.bind_eq_some_iff.mp hu
  split_ifs at hs
  exact Option.some.inj hs ▸ signalPost signum

theorem sysStop (hx : s.thread t = some x) : Moves s [] (s.sysStop t x c) := by
  unfold State.sysStop
  split_ifs
  · exact Moves.refl.signalDefaultTerminate hx rfl rfl
  · cases hs : s.stopTarget c with
    | none => exact Moves.refl.ret _
    | some s₁ => exact (stopTarget hs).ret _

theorem sysSignal : Moves s [] (s.sysSignal t x) := by
  unfold State.sysSignal
  dsimp only
  split_ifs
  · exact Moves.refl.ret _
  · exact (Moves.refl.modify_all fun _ q => by cases q <;> rfl).ret _

theorem sysKill : Moves s [] (s.sysKill t x c) := by
  unfold State.sysKill
  dsimp only
  split_ifs
  · exact Moves.refl.ret _
  · cases hs : s.killTarget c (x.frame.a1.setWidth 32).toInt with
    | none => exact Moves.refl.ret _
    | some s₁ => exact (killTarget hs).ret _

theorem sysSigreturn (hx : s.thread t = some x) : Moves s [] (s.sysSigreturn t x) := by
  unfold State.sysSigreturn signalReturn
  split_ifs
  · refine (Moves.signalRelease (Moves.refl.modify_all ?_) (thread_modify_self hx) rfl).ret _
    exact fun _ q => by cases q <;> rfl
  · exact Moves.refl.ret _

/-- A system call allocates what `kmalloc` returns in it. -/
theorem doSyscall (hok : s.Ok) (hx : s.thread t = some x) (hs : s.doSyscall t x c = some s') :
    ∃ gs, Moves s gs s' ∧ gs ⊆ [c.structBlock, c.kstackBlock, c.block] := by
  have none : ∀ {s'}, Moves s [] s' →
      ∃ gs, Moves s gs s' ∧ gs ⊆ [c.structBlock, c.kstackBlock, c.block] := fun h =>
    ⟨[], h, List.nil_subset _⟩
  unfold State.doSyscall at hs
  cases hcall : Syscall.decode x.frame.a7 with
  | none =>
    rw [hcall] at hs
    exact none (Option.some.inj hs ▸ Moves.refl.ret _)
  | some call =>
    rw [hcall] at hs
    cases call with
    | exec =>
      obtain ⟨gs, hmoves, hgs⟩ := sysExec hok hx hs
      exact ⟨gs, hmoves, List.Subset.trans hgs (by simp)⟩
    | fork => exact sysFork hok hs
    | exit => exact none (Option.some.inj hs ▸ Moves.refl.signalDefaultTerminate hx rfl rfl)
    | stop => exact none (Option.some.inj hs ▸ sysStop hx)
    | signal => exact none (Option.some.inj hs ▸ sysSignal)
    | sigreturn => exact none (Option.some.inj hs ▸ sysSigreturn hx)
    | kill => exact none (Option.some.inj hs ▸ sysKill)
    | getpid | uartRead | uartWrite | waitpid | display | usleep =>
      exact none (Option.some.inj hs ▸ Moves.refl.ret _)

/-- A signal stack is allocated only when there is none. -/
theorem signalCheckAndDispatch (hx : s.thread t = some x) (hneat : Tidy t x)
    (hs : s.signalCheckAndDispatch t x stk = some s') : ∃ gs, Moves s gs s' ∧ gs ⊆ [stk] := by
  cases dispatch_of_eq hs with
  | gate => exact ⟨[], .refl, List.nil_subset _⟩
  | ignore =>
    exact ⟨[], Moves.refl.modify_all fun _ q => by cases q <;> rfl, List.nil_subset _⟩
  | terminate _ f hf =>
    refine ⟨[], (Moves.refl.modify_all hf).signalDefaultTerminate (thread_modify_self hx) ?_ ?_,
      List.nil_subset _⟩
    · exact (hf x .image).symm
    · exact (hf x .sigstack).symm
  | enter hin h signum h0 hfresh =>
    exact ⟨[stk], Moves.refl.acquire hx .sigstack (hneat.handler hin) h0 hfresh hfresh
      (fun q hq => by cases q <;> first | rfl | exact absurd rfl hq) rfl, List.Subset.refl _⟩

/-- `kill_zombies` frees the two blocks that are left. -/
theorem reap (hx : s.thread t = some x) (hneat : Tidy t x) (hzombie : x.zombie = true) :
    Moves s [] (s.reap t x) := by
  have h₁ := (Moves.refl : Moves s [] s).release (f := fun x => { x with kstackBase := 0 }) hx
    .kstack hneat.kstack (fun q hq => by cases q <;> first | rfl | exact absurd rfl hq) rfl
  have h₂ := h₁.unmake (thread_modify_self hx) hneat.struct fun q hq => by
    cases q with
    | struct => exact absurd rfl hq
    | kstack => rfl
    | image => exact hneat.image hzombie
    | sigstack => exact hneat.sigstack hzombie
  refine h₂.cast ?_
  unfold State.reap State.kfreeIf
  rw [if_neg hneat.kstack]
  simp [State.kfree, State.modify, Thread.part]

end Moves

end State

/-- What `kmalloc` returns in a step. -/
def Label.granted : Label → List Word
  | .doSyscall _ c | .spawn c => [c.structBlock, c.kstackBlock, c.block]
  | .deliver _ stk => [stk]
  | .kmalloc _ p => [p]
  | _ => []

namespace State

variable {s s' s₀ : State} {t u : Tid} {x y : Thread} {c : Choice} {p stk : Word}
  {f : Thread → Thread} {gs : List Word} {a : Label}

/-- **Every step is a sequence of moves.** -/
theorem moves_step (hok : s.Ok) (hneat : s.Neat) (h : s.step a = some s') :
    ∃ gs, Moves s gs s' ∧ gs ⊆ a.granted := by
  cases a with
  | interrupt t f =>
    obtain ⟨x, -, rfl⟩ := Option.map_eq_some_iff.mp h
    exact ⟨[], Moves.refl.modify_all fun _ q => by cases q <;> rfl, List.nil_subset _⟩
  | ecall t f =>
    obtain ⟨x, -, rfl⟩ := Option.map_eq_some_iff.mp h
    exact ⟨[], Moves.refl.modify_all fun _ q => by cases q <;> rfl, List.nil_subset _⟩
  | doSyscall t c =>
    obtain ⟨x, hx, hs⟩ := Option.bind_eq_some_iff.mp h
    exact Moves.doSyscall hok (inPhase_eq hx).1 hs
  | sysret t =>
    obtain ⟨x, -, rfl⟩ := Option.map_eq_some_iff.mp h
    refine ⟨[], Moves.refl.modify_all fun x q => ?_, List.nil_subset _⟩
    cases x.phase <;> cases q <;> rfl
  | deliver t stk =>
    obtain ⟨x, hx, hs⟩ := Option.bind_eq_some_iff.mp h
    obtain ⟨s₁, h₁, rfl⟩ := Option.map_eq_some_iff.mp hs
    have hx := (inPhase_eq hx).1
    obtain ⟨gs, hmoves, hgs⟩ := Moves.signalCheckAndDispatch hx (hneat t x hx) h₁
    exact ⟨gs, hmoves.modify_all fun _ q => by cases q <;> rfl, hgs⟩
  | spawn c => exact Moves.threadSpawnUser hok h
  | stop c => exact ⟨[], Moves.shellStopPid h, List.nil_subset _⟩
  | kill c signum => exact ⟨[], Moves.killTarget h, List.nil_subset _⟩
  | reap t =>
    obtain ⟨x, hx, rfl⟩ := Option.map_eq_some_iff.mp h
    obtain ⟨hx, hzombie⟩ := Option.filter_eq_some_iff.mp hx
    exact ⟨[], Moves.reap hx (hneat t x hx) hzombie, List.nil_subset _⟩
  | kmalloc i p =>
    change (if _ then _ else none) = some s' at h
    split_ifs at h with hempty
    obtain ⟨s₁, h₁, rfl⟩ := Option.map_eq_some_iff.mp h
    rcases kmalloc_cases h₁ with ⟨rfl, rfl⟩ | ⟨h0, hfresh, rfl⟩
    · refine ⟨[], Moves.refl.cast ?_, List.nil_subset _⟩
      rw [← hempty, Function.update_eq_self]
    · exact ⟨[p], Moves.refl.acquireMisc hempty h0 hfresh hfresh, List.Subset.refl _⟩
  | kfree i =>
    change (if _ then none else some _) = some s' at h
    split_ifs at h with h0
    exact ⟨[], Option.some.inj h ▸ Moves.refl.releaseMisc h0, List.nil_subset _⟩

/-! ## Tidy processes -/

/-- The shell stops no process that is inside a signal handler. -/
def SparesHandlers (s : State) : Label → Prop
  | .stop c => ∀ u ∈ c.target, ∀ y ∈ s.thread u, y.imageBase ≠ 0 → y.sig.sigstackBase = 0
  | _ => True

instance (s : State) (a : Label) : Decidable (s.SparesHandlers a) := by
  cases a <;> unfold SparesHandlers <;> infer_instance

section Neat

variable (h : s.Neat)

include h

theorem Neat.congr (hthread : s'.thread = s.thread) : s'.Neat := fun t x hx =>
  h t x (hthread ▸ hx)

theorem Neat.modify (hf : ∀ x, s.thread t = some x → Tidy t (f x)) : (s.modify t f).Neat := by
  intro u y hy
  rw [thread_modify] at hy
  split_ifs at hy with hu
  · obtain ⟨x, hx, rfl⟩ := Option.map_eq_some_iff.mp hy
    subst hu
    exact hf x hx
  · exact h u y hy

theorem Neat.ret (r : Word) : (s.ret t r).Neat := h.modify fun x hx =>
  ⟨(h t x hx).struct, (h t x hx).kstack, (h t x hx).image, (h t x hx).sigstack,
    (h t x hx).handler⟩

theorem Neat.signalRelease : (s.signalRelease t x).Neat := by
  refine (h.congr thread_kfreeIf).modify fun y hy => ?_
  rw [thread_kfreeIf] at hy
  exact ⟨(h t y hy).struct, (h t y hy).kstack, (h t y hy).image, fun _ => rfl, fun _ => rfl⟩

/-- A terminated process has no signal stack. -/
theorem Neat.terminate (hstack : ∀ y, s.thread t = some y → y.sig.sigstackBase = 0) :
    (s.terminate t x).Neat := by
  refine (h.congr thread_kfreeIf).modify fun y hy => ?_
  rw [thread_kfreeIf] at hy
  exact ⟨(h t y hy).struct, (h t y hy).kstack, fun _ => rfl, fun _ => hstack y hy,
    (h t y hy).handler⟩

theorem Neat.signalDefaultTerminate : (s.signalDefaultTerminate t x).Neat := by
  -- between `terminate` and `signal_release` the process may still have a signal stack
  have hthread : (s.signalDefaultTerminate t x).thread = (s.modify t fun y => { y with
      zombie := true
      imageBase := 0
      sig := { y.sig with sigstackBase := 0, inHandler := false } }).thread := by
    funext u
    unfold State.signalDefaultTerminate State.signalRelease State.terminate
    rw [thread_modify, thread_modify, thread_kfreeIf, thread_modify, thread_kfreeIf]
    split_ifs with hu
    · rw [Option.map_map]
      rfl
    · rfl
  refine Neat.congr (h.modify fun y hy => ?_) hthread
  exact ⟨(h t y hy).struct, (h t y hy).kstack, fun _ => rfl, fun _ => rfl, fun _ => rfl⟩

theorem Neat.newThread {new : Thread} {b : Bool} (hok : s.Ok)
    (hs : s.newThread c new = some (s', b)) (hkstack : new.kstackBase = c.kstackBlock)
    (himage : new.imageBase = c.block) (hsigstack : new.sig.sigstackBase = 0)
    (hzombie : new.zombie = false) : s'.Neat := by
  obtain ⟨gs, -, -, hthread | ⟨h0, h0', hthread⟩⟩ := Moves.newThread hok hs hkstack himage hsigstack
  · exact h.congr hthread
  · intro u y hy
    rw [hthread, Function.update_apply] at hy
    split_ifs at hy with hu
    · obtain rfl := Option.some.inj hy
      subst hu
      exact ⟨h0, hkstack.symm ▸ h0', fun hz => absurd (hzombie.symm.trans hz) Bool.false_ne_true,
        fun _ => hsigstack, fun _ => hsigstack⟩
    · exact h u y hy

theorem Neat.sysExec (hx : s.thread t = some x) (hzombie : x.zombie = false)
    (hs : s.sysExec t x c = some s') : s'.Neat := by
  unfold State.sysExec at hs
  by_cases himage : x.imageBase = 0
  · rw [if_pos himage] at hs
    exact Option.some.inj hs ▸ h.ret _
  rw [if_neg himage] at hs
  cases hfile : c.file with
  | none =>
    rw [hfile] at hs
    exact Option.some.inj hs ▸ h.ret _
  | some sz =>
    rw [hfile] at hs
    obtain ⟨s₁, h₁, rfl⟩ := Option.map_eq_some_iff.mp hs
    rcases kmalloc_cases h₁ with ⟨h0, rfl⟩ | ⟨h0, -, rfl⟩
    · rw [if_pos h0]
      exact h.ret _
    · rw [if_neg h0]
      have h₂ : Neat (({ s with heap := s.heap.acquire c.block }.modify t fun x =>
          { x with imageBase := c.block, totalSize := sz + userStackSize }).kfree x.imageBase) := by
        refine Neat.congr (h.modify fun y hy => ?_) rfl
        obtain rfl := Option.some.inj (hx.symm.trans hy)
        exact ⟨(h t x hx).struct, (h t x hx).kstack,
          fun hz => absurd (hzombie.symm.trans hz) Bool.false_ne_true, (h t x hx).sigstack,
          (h t x hx).handler⟩
      have h₃ := h₂.modify (t := t) (f := fun x =>
        { x with sig := { x.sig with handlers := fun _ => sigDfl, pending := 0 } }) fun y hy =>
          ⟨(h₂ t y hy).struct, (h₂ t y hy).kstack, (h₂ t y hy).image, (h₂ t y hy).sigstack,
            (h₂ t y hy).handler⟩
      have h₄ := h₃.signalRelease (t := t) (x := x)
      refine Neat.ret (h₄.modify fun y hy => ?_) _
      exact ⟨(h₄ t y hy).struct, (h₄ t y hy).kstack, (h₄ t y hy).image, (h₄ t y hy).sigstack,
        (h₄ t y hy).handler⟩

/-- Fields other than the pointers are written. -/
theorem Neat.modify_of (hf : ∀ x, (f x).kstackBase = x.kstackBase ∧ (f x).zombie = x.zombie ∧
    (f x).imageBase = x.imageBase ∧ (f x).sig.sigstackBase = x.sig.sigstackBase ∧
      (f x).sig.inHandler = x.sig.inHandler) : (s.modify t f).Neat := by
  refine h.modify fun x hx => ?_
  obtain ⟨hk, hz, hi, hs, hh⟩ := hf x
  obtain ⟨h1, h2, h3, h4, h5⟩ := h t x hx
  exact ⟨h1, hk.symm ▸ h2, by rwa [hz, hi], by rwa [hz, hs], by rwa [hh, hs]⟩

theorem Neat.stopTarget (hs : s.stopTarget c = some s') : s'.Neat := by
  unfold State.stopTarget at hs
  obtain ⟨u, -, hu⟩ := Option.bind_eq_some_iff.mp hs
  obtain ⟨y, -, hs⟩ := Option.bind_eq_some_iff.mp hu
  split_ifs at hs
  exact Option.some.inj hs ▸ h.signalDefaultTerminate

theorem Neat.shellStopPid (hG : s.SparesHandlers (.stop c)) (hs : s.shellStopPid c = some s') :
    s'.Neat := by
  unfold State.shellStopPid at hs
  obtain ⟨u, hu, hs⟩ := Option.bind_eq_some_iff.mp hs
  obtain ⟨y, hy, hs⟩ := Option.bind_eq_some_iff.mp hs
  split_ifs at hs with himage
  refine Option.some.inj hs ▸ h.terminate fun z hz => ?_
  obtain rfl := Option.some.inj (hy.symm.trans hz)
  exact hG u hu y hy himage

theorem Neat.killTarget {signum : ℤ} (hs : s.killTarget c signum = some s') : s'.Neat := by
  unfold State.killTarget at hs
  obtain ⟨u, -, hu⟩ := Option.bind_eq_some_iff.mp hs
  obtain ⟨y, -, hs⟩ := Option.bind_eq_some_iff.mp hu
  split_ifs at hs
  obtain rfl := Option.some.inj hs
  unfold State.signalPost
  split_ifs
  · exact h
  · exact h.modify_of fun _ => ⟨rfl, rfl, rfl, rfl, rfl⟩

theorem Neat.doSyscall (hok : s.Ok) (hx : s.thread t = some x) (hzombie : x.zombie = false)
    (hs : s.doSyscall t x c = some s') : s'.Neat := by
  unfold State.doSyscall at hs
  cases hcall : Syscall.decode x.frame.a7 with
  | none =>
    rw [hcall] at hs
    exact Option.some.inj hs ▸ h.ret _
  | some call =>
    rw [hcall] at hs
    cases call with
    | exec => exact h.sysExec hx hzombie hs
    | fork =>
      change s.sysFork t x c = some s' at hs
      unfold State.sysFork at hs
      split_ifs at hs
      · exact Option.some.inj hs ▸ h.ret _
      · obtain ⟨⟨s₁, b⟩, hnew, rfl⟩ := Option.map_eq_some_iff.mp hs
        exact (h.newThread hok hnew rfl rfl rfl rfl).ret _
    | exit => exact Option.some.inj hs ▸ h.signalDefaultTerminate
    | stop =>
      obtain rfl := Option.some.inj hs
      unfold State.sysStop
      split_ifs
      · exact h.signalDefaultTerminate
      · cases hs : s.stopTarget c with
        | none => exact h.ret _
        | some s₁ => exact (h.stopTarget hs).ret _
    | signal =>
      obtain rfl := Option.some.inj hs
      unfold State.sysSignal
      dsimp only
      split_ifs
      · exact h.ret _
      · refine Neat.ret (h.modify_of ?_) _
        exact fun _ => ⟨rfl, rfl, rfl, rfl, rfl⟩
    | sigreturn =>
      obtain rfl := Option.some.inj hs
      unfold State.sysSigreturn signalReturn
      split_ifs
      · refine (Neat.signalRelease (h.modify_of ?_)).ret _
        exact fun _ => ⟨rfl, rfl, rfl, rfl, rfl⟩
      · exact h.ret _
    | kill =>
      obtain rfl := Option.some.inj hs
      unfold State.sysKill
      dsimp only
      split_ifs
      · exact h.ret _
      · cases hs : s.killTarget c (x.frame.a1.setWidth 32).toInt with
        | none => exact h.ret _
        | some s₁ => exact (h.killTarget hs).ret _
    | getpid | uartRead | uartWrite | waitpid | display | usleep =>
      exact Option.some.inj hs ▸ h.ret _

theorem Neat.signalCheckAndDispatch (hx : s.thread t = some x) (hzombie : x.zombie = false)
    (hs : s.signalCheckAndDispatch t x stk = some s') : s'.Neat := by
  cases dispatch_of_eq hs with
  | gate => exact h
  | ignore => exact h.modify_of fun _ => ⟨rfl, rfl, rfl, rfl, rfl⟩
  | terminate _ f hf =>
    -- the terminated process keeps only its kernel stack
    have hthread : ((s.modify t f).signalDefaultTerminate t x).thread =
        (s.modify t fun y => { f y with
          zombie := true
          imageBase := 0
          sig := { (f y).sig with sigstackBase := 0, inHandler := false } }).thread := by
      funext u
      unfold State.signalDefaultTerminate State.signalRelease State.terminate
      rw [thread_modify, thread_modify, thread_kfreeIf, thread_modify, thread_kfreeIf,
        thread_modify]
      split_ifs
      · rw [Option.map_map, Option.map_map]
        rfl
      · rfl
    refine Neat.congr (h.modify fun y hy => ?_) hthread
    have hkstack : (f y).kstackBase = y.kstackBase := hf y .kstack
    exact ⟨(h t y hy).struct, fun h0 => (h t y hy).kstack (hkstack.symm.trans h0), fun _ => rfl,
      fun _ => rfl, fun _ => rfl⟩
  | enter hin handler signum h0 hfresh =>
    refine Neat.congr (h.modify fun y hy => ?_) rfl
    obtain rfl := Option.some.inj (hx.symm.trans hy)
    have hno : x.zombie ≠ true := fun hz => Bool.false_ne_true (hzombie.symm.trans hz)
    exact ⟨(h t x hx).struct, (h t x hx).kstack, fun hz => absurd hz hno, fun hz => absurd hz hno,
      fun hz => absurd hz (by simp [enterHandler])⟩

/-- **Processes stay tidy** in every step that spares the processes inside handlers. -/
theorem Neat.step (hok : s.Ok) (hG : s.SparesHandlers a) (hs : s.step a = some s') : s'.Neat := by
  cases a with
  | interrupt t f =>
    obtain ⟨x, -, rfl⟩ := Option.map_eq_some_iff.mp hs
    exact h.modify_of fun _ => ⟨rfl, rfl, rfl, rfl, rfl⟩
  | ecall t f =>
    obtain ⟨x, -, rfl⟩ := Option.map_eq_some_iff.mp hs
    exact h.modify_of fun _ => ⟨rfl, rfl, rfl, rfl, rfl⟩
  | doSyscall t c =>
    obtain ⟨x, hx, hs⟩ := Option.bind_eq_some_iff.mp hs
    obtain ⟨hx, hzombie, -⟩ := inPhase_eq hx
    exact h.doSyscall hok hx hzombie hs
  | sysret t =>
    obtain ⟨x, -, rfl⟩ := Option.map_eq_some_iff.mp hs
    refine h.modify_of fun x => ?_
    cases x.phase <;> exact ⟨rfl, rfl, rfl, rfl, rfl⟩
  | deliver t stk =>
    obtain ⟨x, hx, hs⟩ := Option.bind_eq_some_iff.mp hs
    obtain ⟨s₁, h₁, rfl⟩ := Option.map_eq_some_iff.mp hs
    obtain ⟨hx, hzombie, -⟩ := inPhase_eq hx
    exact (h.signalCheckAndDispatch hx hzombie h₁).modify_of fun _ => ⟨rfl, rfl, rfl, rfl, rfl⟩
  | spawn c =>
    change s.threadSpawnUser c = some s' at hs
    unfold State.threadSpawnUser at hs
    cases hfile : c.file with
    | none =>
      rw [hfile] at hs
      exact Option.some.inj hs ▸ h
    | some sz =>
      rw [hfile] at hs
      obtain ⟨⟨s₁, b⟩, hnew, rfl⟩ := Option.map_eq_some_iff.mp hs
      exact h.newThread hok hnew rfl rfl rfl rfl
  | stop c => exact h.shellStopPid hG hs
  | kill c signum => exact h.killTarget hs
  | reap t =>
    obtain ⟨x, -, rfl⟩ := Option.map_eq_some_iff.mp hs
    intro u y hy
    by_cases hu : u = t
    · subst hu
      exact absurd (Function.update_self u none s.thread ▸ hy) (Option.some_ne_none y).symm
    · exact h u y ((Function.update_of_ne hu none s.thread) ▸ hy)
  | kmalloc i p =>
    change (if _ then _ else none) = some s' at hs
    split_ifs at hs
    obtain ⟨s₁, h₁, rfl⟩ := Option.map_eq_some_iff.mp hs
    rcases kmalloc_cases h₁ with ⟨-, rfl⟩ | ⟨-, -, rfl⟩ <;> exact h
  | kfree i =>
    change (if _ then none else some _) = some s' at hs
    split_ifs at hs
    exact Option.some.inj hs ▸ h

end Neat

/-! ## Runs -/

/-- What is known between steps. -/
structure Balanced (s : State) : Prop where
  ok : s.Ok
  covered : s.Covered
  neat : s.Neat

theorem balanced_boot : boot.Balanced where
  ok := ok_boot
  covered _ hp := absurd hp List.not_mem_nil
  neat _ _ hx := absurd hx (Option.some_ne_none _).symm

theorem Balanced.step (h : s.Balanced) (hG : s.SparesHandlers a) (hs : s.step a = some s') :
    s'.Balanced := by
  obtain ⟨gs, hmoves, -⟩ := moves_step h.ok h.neat hs
  exact ⟨hmoves.ok h.ok, hmoves.covered h.ok h.covered, h.neat.step h.ok hG hs⟩

/-- What the step `a` from `s` to `s'` does to the heap. -/
structure ReleasesOnce (s : State) (a : Label) (s' : State) : Prop where
  /-- `kfree` is called with allocated blocks only. -/
  legal : ∃ gs ps, BlockHeap.Legal s.heap gs ps s'.heap ∧ gs ⊆ a.granted
  /-- A process is terminated: its image and its signal stack, if it has one, are freed once. -/
  terminated : ∀ t x y, s.thread t = some x → x.zombie = false → s'.thread t = some y →
    y.zombie = true → (x.imageBase ≠ 0 → FreedOnce s s' x.imageBase) ∧
      (x.sig.sigstackBase ≠ 0 → FreedOnce s s' x.sig.sigstackBase)
  /-- A process is freed: its kernel stack and its struct are freed once, and every block that is
  still allocated is one that another pointer points to. -/
  reaped : ∀ t x, s.thread t = some x → s'.thread t = none →
    FreedOnce s s' x.kstackBase ∧ FreedOnce s s' t ∧
      ∀ p ∈ s'.heap.live, ∃ o, (∀ q, o ≠ .part t q) ∧ s'.own o = p

/-- **Every block is released exactly once**, in every run in which the shell stops no process that
is inside a signal handler.  No block is without a pointer; `kfree` is called with allocated blocks
only; and a process that is terminated or collected has each of its blocks freed once. -/
theorem released_of_reachable (hs : Reachable step SparesHandlers boot s) :
    s.Covered ∧ ∀ a s', s.SparesHandlers a → s.step a = some s' → s.ReleasesOnce a s' := by
  have h : s.Balanced := hs.invariant balanced_boot fun _ _ _ h hG hs => h.step hG hs
  refine ⟨h.covered, fun a s' hG hstep => ?_⟩
  obtain ⟨gs, hmoves, hgs⟩ := moves_step h.ok h.neat hstep
  have h' := h.step hG hstep
  refine ⟨?_, fun t x y hx _ hy hzombie => ⟨fun h0 => ?_, fun h0 => ?_⟩, fun t x hx hnone => ?_⟩
  · obtain ⟨ps, hl⟩ := hmoves.legal h.ok
    exact ⟨gs, ps, hl, hgs⟩
  · have hslot : s.own (.part t .image) = x.imageBase := own_part hx .image
    rw [← hslot] at h0 ⊢
    exact hmoves.freedOnce h.ok h.covered h0
      ((own_part hy .image).trans ((h'.neat t y hy).image hzombie))
  · have hslot : s.own (.part t .sigstack) = x.sig.sigstackBase := own_part hx .sigstack
    rw [← hslot] at h0 ⊢
    exact hmoves.freedOnce h.ok h.covered h0
      ((own_part hy .sigstack).trans ((h'.neat t y hy).sigstack hzombie))
  · have hkstack : s.own (.part t .kstack) = x.kstackBase := own_part hx .kstack
    have hstruct : s.own (.part t .struct) = t := own_part hx .struct
    have hkfree := hmoves.freedOnce h.ok h.covered (hkstack.symm ▸ (h.neat t x hx).kstack)
      (own_part_of_none hnone _)
    have hsfree := hmoves.freedOnce h.ok h.covered (hstruct.symm ▸ (h.neat t x hx).struct)
      (own_part_of_none hnone _)
    rw [hkstack] at hkfree
    rw [hstruct] at hsfree
    refine ⟨hkfree, hsfree, fun p hp => ?_⟩
    obtain ⟨h0, o, rfl⟩ := h'.covered p hp
    refine ⟨o, fun q heq => h0 ?_, rfl⟩
    rw [heq, own_part_of_none hnone]

/-- The program of `sendSigterm` is killed inside its handler by its own `exit`, and its memory is
freed. -/
def exitInHandler : List Label :=
  spawnProgram :: sendSigterm 0x1000 0x3000 ++ [.deliver 0x1000 0x4000,
    .ecall 0x1000 { TrapFrame.zero with a7 := 6 }, .doSyscall 0x1000 {}]

theorem released_of_exitInHandler : ∃ s, Reachable step SparesHandlers boot s ∧
    ∃ s', s.step (.reap 0x1000) = some s' ∧ s.ReleasesOnce (.reap 0x1000) s' := by
  have hrun : (runList step boot exitInHandler).map (fun s => (s.step (.reap 0x1000)).isSome) =
      some true := by decide +kernel
  obtain ⟨s, hs, hstep⟩ := Option.map_eq_some_iff.mp hrun
  obtain ⟨s', hs'⟩ := Option.isSome_iff_exists.mp hstep
  have hreach : Reachable step SparesHandlers boot s := .of_runList hs (by decide +kernel)
  exact ⟨s, hreach, s', hs', (released_of_reachable hreach).2 _ _ trivial hs'⟩

/-- A program makes a process, which makes another one and waits for it.  The program exits, so that
the shell reads commands again. -/
def forkTwice : List Label :=
  [spawnProgram,
    .ecall 0x1000 { TrapFrame.zero with a7 := 4 },
    .doSyscall 0x1000 { structBlock := 0x5000, kstackBlock := 0x6000, block := 0x7000 },
    .sysret 0x1000, .deliver 0x1000 0,
    .ecall 0x5000 { TrapFrame.zero with a7 := 4 },
    .doSyscall 0x5000 { structBlock := 0x8000, kstackBlock := 0x9000, block := 0xa000 },
    .sysret 0x5000, .deliver 0x5000 0,
    .ecall 0x5000 { TrapFrame.zero with a7 := 5, a0 := 4 },
    .ecall 0x1000 { TrapFrame.zero with a7 := 6 }, .doSyscall 0x1000 {}]

/-- The last of the three processes inside its handler, whose stack is the block at `0x4000`. -/
def inHandler : List Label :=
  forkTwice ++ sendSigterm 0x8000 0xa000 ++ [.deliver 0x8000 0x4000]

/-- The state of `inHandler`. -/
def handling : State := (runList step boot inHandler).getD boot

/-- The shell stops this process. -/
def stopProgram : Label := .stop { target := some 0x8000 }

/-- **A block is lost.**  The shell stops a process inside its handler: the signal stack is not
freed, and it is allocated still when its parent has collected the process and its struct is
gone. -/
theorem lost_of_stopProgram : Reachable step anyStep boot handling ∧
    handling.step stopProgram = some (handling.after stopProgram) ∧
    ¬ handling.ReleasesOnce stopProgram (handling.after stopProgram) ∧
    (((handling.after stopProgram).after (.reap 0x8000)).thread 0x8000).isNone ∧
    0x4000 ∈ ((handling.after stopProgram).after (.reap 0x8000)).heap.live := by
  have hsome : (runList step boot inHandler).isSome := by decide +kernel
  obtain ⟨s', hs'⟩ := Option.isSome_iff_exists.mp hsome
  have hreach : Reachable step anyStep boot handling := by
    refine @reachable_of_runList _ _ _ _ _ inHandler ?_
    rw [handling, hs', Option.getD_some]
  have hx : (handling.thread 0x8000).map (fun x => (x.zombie, x.sig.sigstackBase)) =
      some (false, 0x4000) := by decide +kernel
  have hy : ((handling.after stopProgram).thread 0x8000).map Thread.zombie = some true := by
    decide +kernel
  obtain ⟨x, hx, hv⟩ := Option.map_eq_some_iff.mp hx
  obtain ⟨y, hy, hzombie⟩ := Option.map_eq_some_iff.mp hy
  rw [Prod.mk.injEq] at hv
  refine ⟨hreach, step_after (by decide +kernel), fun hall => ?_, by decide +kernel,
    by decide +kernel⟩
  have hfreed := (hall.terminated 0x8000 x y hx hv.1 hy hzombie).2 (by rw [hv.2]; decide)
  rw [hv.2] at hfreed
  exact hfreed.after (by decide +kernel)

end State
end Process
end OscKernel
