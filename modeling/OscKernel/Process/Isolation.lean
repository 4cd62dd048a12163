import OscKernel.Kmalloc.Blocks
import OscKernel.Process.Creation

/-!
# Threads do not share memory (`sched.c`, `syscall.c`, `signal.c`, `shell.c`, `kmalloc.c`)

The kernel runs without address translation, so two processes are kept apart only by the addresses
that they are given.  Here the functions that make, replace and end threads run over the allocator
itself, in any order and with any of their requests failing.

* `System.own`: the blocks of the threads, with their sizes.
* `Holds`: every block of a thread is held, and by this thread only; `Holds.acquire`,
  `Holds.release`, `Holds.drop`, `Holds.forget` are what allocation and release do to it.
* `isolated_of_reachable`: the bytes of two blocks are never the same, and none of them are bytes
  that the allocators keep for themselves or that boot reserved.

A block belongs to a thread when one of its fields points to it.  The fields are written by code
that was not made for this purpose: `sys_exec` frees the old image after it has set the new one,
`signal_release` clears a pointer behind its release, and a thread that could not get its image is
freed field by field.  Between two writes the invariant has exceptions, and each function is taken
apart into moves that have none.

The region begins at a page and ends inside the address space; what the kernel does besides
(`Spares`) frees no block of a thread and writes no pointer of one.
-/

namespace OscKernel
namespace Creation

open Buddy (SameRegion)
open Rv64 (Word)
open Process (Part TrapFrame sigstackSize)
open Transition

/-- What a pointer points to. -/
def blockAt (p n : ℕ) : Option Grant := if p = 0 then none else some ⟨p, n⟩

/-- The block of the thread at `t` that serves as `q`. -/
def Thread.part (x : Thread) (t : Tid) : Part → Option Grant
  | .struct =>
      match t with
      | .bootstrap => none
      | .heap p => some ⟨p, sizeofThread⟩
  | .kstack => blockAt x.kstackBase Creation.kstackSize
  | .image => blockAt x.imageBase x.totalSize.toNat
  | .sigstack => blockAt x.sig.sigstackBase.toNat sigstackSize.toNat

/-- The bytes of a block. -/
def bytes (g : Grant) : Set ℕ := Set.Ico g.ptr (g.ptr + g.size)

namespace System

variable (s : System) (t : Tid)

/-- The blocks of all threads. -/
def own (o : Tid × Part) : Option Grant := (s.thread o.1).bind fun x => x.part o.1 o.2

/-! ## The rest of the life of a thread -/

/-- `if (t->image_base) { kfree(t->image_base); t->image_base = NULL; }`. -/
def freeImage : System :=
  let p := (s.get t).imageBase
  if p = 0 then s else (s.kfree p).modify t fun x => { x with imageBase := 0 }

/-- What `sys_exit`, `sys_stop` and `signal_default_terminate` do to memory. -/
def terminate : System := (s.freeImage t).signalRelease t

/-- `signal_check_and_dispatch` for a signal with a handler. -/
def deliver : System :=
  let b := s.kmalloc sigstackSize.toNat
  if b.2 = 0 then b.1.terminate s.current
  else b.1.modify s.current fun x =>
    { x with sig := { x.sig with sigstackBase := ptr b.2, inHandler := true } }

/-- `kill_zombies`, for one thread. -/
def reap (p : ℕ) : System :=
  let stk := (s.get (.heap p)).kstackBase
  (if stk = 0 then s else s.kfree stk).kfreeThread p

end System

/-- What happens to the memory of threads.  The sizes of files are numbers of eight hexadecimal
digits. -/
inductive Act where
  | threadCreate (fn : Word)
  | threadSpawnUser (file : Option (BitVec 32)) (sstatus : Word)
  | sysExec (file : Option (BitVec 32)) (tf : Word)
  | sysFork (tf : Word)
  | deliver
  | sigreturn
  | terminate (t : Tid)
  /-- `shell_stop_pid`, which frees the image only. -/
  | shellStop (t : Tid)
  | reap (p : ℕ)
  /-- The rest of the kernel: its requests, what it frees, and what is written to blocks. -/
  | kmalloc (n : ℕ)
  | kfree (g : Grant)
  | write (g : Grant) (addr value : ℕ)
  | other (f : Tid → Thread → Thread) (runq : List Tid) (frame : Word → TrapFrame) (current : Tid)

namespace System

/-- One step. -/
def act (s : System) : Act → Option System
  | .threadCreate fn => some (s.threadCreate fn).1
  | .threadSpawnUser file sstatus =>
      some (s.threadSpawnUser (file.map fun sz => sz.setWidth 64) sstatus).1
  | .sysExec file tf => some (s.sysExec (file.map fun sz => sz.setWidth 64) tf).1
  | .sysFork tf => some (s.sysFork tf).1
  | .deliver => some s.deliver
  | .sigreturn => some (s.signalRelease s.current)
  | .terminate t => some (s.terminate t)
  | .shellStop t => some (s.freeImage t)
  | .reap p => if (s.thread (.heap p)).isSome then some (s.reap p) else none
  | .kmalloc n => some (s.kmalloc n).1
  | .kfree g => if g ∈ s.client.live then some (s.kfree g.ptr) else none
  | .write g addr value => (s.client.step (.write g addr value)).map fun c => { s with client := c }
  | .other f runq frame current =>
      some { s with
        thread := fun t => (s.thread t).map (f t)
        gRunq := runq
        frame := frame
        current := current }

/-- The rest of the kernel frees nothing that a thread has, and does not write the pointers of
threads. -/
def Spares (s : System) : Act → Prop
  | .kfree g => ∀ o, s.own o ≠ some g
  | .other f _ _ _ => ∀ t x, s.thread t = some x → ∀ q, (f t x).part t q = x.part t q
  | _ => True

end System

/-! ## Blocks and their owners -/

/-- The region and the frames that are reserved are those of `b₀`. -/
structure SameFrames (b₀ b : Buddy) : Prop where
  region : SameRegion b₀ b
  reserved : ∀ j, b.frameArray j = frameReserved ↔ b₀.frameArray j = frameReserved

/-- A call of the heap. -/
theorem SameFrames.step {b₀ : Buddy} {c c' : HeapClient} {call : HeapClient.Call}
    (h : SameFrames b₀ c.heap.buddy) {fl : ℕ → List ℕ} (hc : c.Ok fl fun _ => [])
    (hs : c.step call = some c') : SameFrames b₀ c'.heap.buddy := by
  cases hc.blockMove hs with
  | same hb => exact hb ▸ h
  | grant idx k hg =>
    exact ⟨h.region.trans hg.toSameRegion, fun j => hg.reserved_iff.trans (h.reserved j)⟩
  | release g idx hg hp ha hptr hrel =>
    exact ⟨h.region.trans hrel.toSameRegion, fun j => (hrel.reserved_iff ha).trans (h.reserved j)⟩

/-- Every block that has an owner is held, it has one owner, and it is not large.  The frames that
boot reserved are reserved. -/
structure Holds (b₀ : Buddy) (c : HeapClient) (own : Tid × Part → Option Grant) : Prop where
  ledger : ∃ fl, c.Ok fl fun _ => []
  frames : SameFrames b₀ c.heap.buddy
  owned : Owned none own (c.live.map some)
  small : ∀ o g, own o = some g → g.size ≤ 2 ^ 33

namespace Holds

variable {b₀ : Buddy} {s : System} {own : Tid × Part → Option Grant} {o : Tid × Part} {n : ℕ}
  {g : Grant}

theorem mem_live {c : HeapClient} (h : Holds b₀ c own) (ho : own o = some g) : g ∈ c.live := by
  have hmem := h.owned.mem_live o (by simp [ho])
  rw [ho] at hmem
  simpa using hmem

/-- Another owner has another block. -/
theorem ne_of_ne {c : HeapClient} (h : Holds b₀ c own) {o' : Tid × Part} (ho : own o = some g)
    (hne : o' ≠ o) : own o' ≠ some g := by
  intro ho'
  exact hne (h.owned.inj o' o (by simp [ho']) (ho'.trans ho.symm))

theorem frames_kmalloc (h : Holds b₀ s.client own) (n : ℕ) :
    SameFrames b₀ (s.kmalloc n).1.client.heap.buddy := by
  obtain ⟨fl, hfl⟩ := h.ledger
  have hstep : s.client.step (.kmalloc n) = some (s.kmalloc n).1.client := rfl
  exact h.frames.step hfl hstep

/-- What `kmalloc` returns was not held before. -/
theorem fresh (h : Holds b₀ s.client own) (hb : (s.kmalloc n).2 ≠ 0) :
    (s.kmalloc n).1.client.live = ⟨(s.kmalloc n).2, n⟩ :: s.client.live ∧
      (∃ fl, (s.kmalloc n).1.client.Ok fl fun _ => []) ∧
      ∀ g ∈ s.client.live, g.ptr ≠ (s.kmalloc n).2 := by
  obtain ⟨fl, hfl⟩ := h.ledger
  obtain ⟨fl', hok, -⟩ := hfl.kmalloc n rfl
  have hlive : (s.kmalloc n).1.client.live = ⟨(s.kmalloc n).2, n⟩ :: s.client.live :=
    HeapClient.hold_of_ne hb
  refine ⟨hlive, ⟨fl', hok⟩, ?_⟩
  have hnodup : ((s.kmalloc n).1.client.live.map Grant.ptr).Nodup := hok.ptr_nodup
  rw [hlive, List.map_cons, List.nodup_cons] at hnodup
  intro g hg heq
  exact hnodup.1 (List.mem_map.mpr ⟨g, hg, heq⟩)

/-- A request that fails. -/
theorem null (h : Holds b₀ s.client own) (hb : (s.kmalloc n).2 = 0) :
    Holds b₀ (s.kmalloc n).1.client own := by
  obtain ⟨fl, hfl⟩ := h.ledger
  obtain ⟨fl', hok, -⟩ := hfl.kmalloc n rfl
  exact ⟨⟨fl', hok⟩, h.frames_kmalloc n, (System.kmalloc_null hb).symm ▸ h.owned, h.small⟩

/-- An owner receives a new block. -/
theorem acquire (h : Holds b₀ s.client own) (hb : (s.kmalloc n).2 ≠ 0) (hn : n ≤ 2 ^ 33)
    (o : Tid × Part) :
    Holds b₀ (s.kmalloc n).1.client (Function.update own o (some ⟨(s.kmalloc n).2, n⟩)) := by
  obtain ⟨hlive, hledger, hfresh⟩ := h.fresh hb
  refine ⟨hledger, h.frames_kmalloc n, ?_, ?_⟩
  · rw [hlive, List.map_cons]
    refine h.owned.acquire ?_
    simp only [List.mem_map, Option.some.injEq, exists_eq_right]
    intro hmem
    exact hfresh _ hmem rfl
  · intro o' g hg
    rw [Function.update_apply] at hg
    split_ifs at hg with heq
    · obtain rfl := Option.some.inj hg
      exact hn
    · exact h.small o' g hg

/-- A new block that no thread has. -/
theorem grow (h : Holds b₀ s.client own) (n : ℕ) : Holds b₀ (s.kmalloc n).1.client own := by
  by_cases hb : (s.kmalloc n).2 = 0
  · exact h.null hb
  · obtain ⟨hlive, hledger, hfresh⟩ := h.fresh hb
    refine ⟨hledger, h.frames_kmalloc n, ?_, h.small⟩
    rw [hlive, List.map_cons]
    refine h.owned.grow ?_
    simp only [List.mem_map, Option.some.injEq, exists_eq_right]
    intro hmem
    exact hfresh _ hmem rfl

/-- What is held after a `kfree`. -/
theorem kfree_live (h : Holds b₀ s.client own) (hg : g ∈ s.client.live) :
    (s.kfree g.ptr).client.live.map some =
        @List.erase _ instBEqOfDecidableEq (s.client.live.map some) (some g) ∧
      (∃ fl, (s.kfree g.ptr).client.Ok fl fun _ => []) ∧
      SameFrames b₀ (s.kfree g.ptr).client.heap.buddy := by
  obtain ⟨fl, hfl⟩ := h.ledger
  refine ⟨?_, System.Ledger.kfree ⟨fl, hfl⟩ (List.mem_map_of_mem hg), ?_⟩
  · show (s.client.live.eraseP fun g' => g'.ptr = g.ptr).map some = _
    rw [System.eraseP_ptr hfl.ptr_nodup hg,
      @List.map_erase _ _ _ _ instBEqOfDecidableEq _ _ fun _ _ h => Option.some.inj h]
  · exact h.frames.step hfl (System.Ledger.kfree_step ⟨fl, hfl⟩ hg)

/-- An owner gives its block back. -/
theorem release (h : Holds b₀ s.client own) (ho : own o = some g) :
    Holds b₀ (s.kfree g.ptr).client (Function.update own o none) := by
  obtain ⟨hlive, hledger, hframes⟩ := h.kfree_live (h.mem_live ho)
  refine ⟨hledger, hframes, ?_, ?_⟩
  · rw [hlive, ← ho]
    exact h.owned.release
  · intro o' g' hg'
    rw [Function.update_apply] at hg'
    split_ifs at hg' with heq
    exact h.small o' g' hg'

/-- A block that no thread has is freed. -/
theorem drop (h : Holds b₀ s.client own) (hg : g ∈ s.client.live) (hno : ∀ o, own o ≠ some g) :
    Holds b₀ (s.kfree g.ptr).client own := by
  obtain ⟨hlive, hledger, hframes⟩ := h.kfree_live hg
  refine ⟨hledger, hframes, ?_, h.small⟩
  rw [hlive]
  exact h.owned.release_unowned fun o _ => hno o

/-- The pointer to a block is lost. -/
theorem forget {c : HeapClient} (h : Holds b₀ c own) (o : Tid × Part) :
    Holds b₀ c (Function.update own o none) := by
  refine ⟨h.ledger, h.frames, h.owned.forget, ?_⟩
  intro o' g hg
  rw [Function.update_apply] at hg
  split_ifs at hg with heq
  exact h.small o' g hg

end Holds

namespace System

variable {b₀ : Buddy} {s s' : System} {t u : Tid} {x : Thread} {p n : ℕ} {f : Thread → Thread}
  {q : Part}

/-- The invariant. -/
def Inv (b₀ : Buddy) (s : System) : Prop := Holds b₀ s.client s.own

/-! ## The pointers of the threads -/

theorem own_of_thread (hx : s.thread t = some x) (q : Part) : s.own (t, q) = x.part t q := by
  simp [own, hx]

theorem own_of_none (hx : s.thread t = none) (q : Part) : s.own (t, q) = none := by
  simp [own, hx]

theorem own_congr (h : s'.thread = s.thread) : s'.own = s.own := by
  funext o
  simp [own, h]

/-- No pointer is written. -/
theorem own_modify (hf : ∀ x, s.thread t = some x → ∀ q, (f x).part t q = x.part t q) :
    (s.modify t f).own = s.own := by
  funext ⟨u, q⟩
  unfold own
  rw [thread_modify]
  split_ifs with hu
  · subst hu
    cases hx : s.thread u with
    | none => rfl
    | some x => exact hf x hx q
  · rfl

/-- One pointer is written. -/
theorem own_modify_part (hx : s.thread t = some x) (q₀ : Part)
    (hf : ∀ q ≠ q₀, (f x).part t q = x.part t q) :
    (s.modify t f).own = Function.update s.own (t, q₀) ((f x).part t q₀) := by
  funext ⟨u, q⟩
  rw [Function.update_apply]
  by_cases hu : u = t
  · subst hu
    have hx' : (s.modify u f).thread u = some (f x) := by
      rw [thread_modify, if_pos rfl, hx]
      rfl
    rw [own_of_thread hx']
    by_cases hq : q = q₀
    · simp [hq]
    · rw [if_neg (by simp [hq]), own_of_thread hx, hf q hq]
  · rw [if_neg (by simp [hu])]
    unfold own
    rw [thread_modify, if_neg hu]

/-- A thread is gone. -/
theorem own_forget : own { s with thread := Function.update s.thread t none } =
    Function.update (Function.update (Function.update (Function.update s.own (t, .kstack) none)
      (t, .struct) none) (t, .image) none) (t, .sigstack) none := by
  funext ⟨u, q⟩
  simp only [Function.update_apply, own, Prod.mk.injEq]
  by_cases hu : u = t
  · subst hu
    cases q <;> simp
  · simp [hu]

/-- A thread is new. -/
theorem own_new (hnone : s.thread t = none) (himage : x.imageBase = 0)
    (hsig : x.sig.sigstackBase = 0) :
    own { s with thread := Function.update s.thread t (some x) } =
      Function.update (Function.update s.own (t, .struct) (x.part t .struct))
        (t, .kstack) (x.part t .kstack) := by
  funext ⟨u, q⟩
  simp only [Function.update_apply, own, Prod.mk.injEq]
  by_cases hu : u = t
  · subst hu
    cases q <;> simp [hnone, Thread.part, blockAt, himage, hsig]
  · simp [hu]

theorem Inv.congr (h : s.Inv b₀) (hclient : s'.client = s.client) (hown : s'.own = s.own) :
    s'.Inv b₀ := by
  unfold Inv
  rw [hclient, hown]
  exact h

theorem Inv.modify (h : s.Inv b₀)
    (hf : ∀ x, s.thread t = some x → ∀ q, (f x).part t q = x.part t q) : (s.modify t f).Inv b₀ :=
  h.congr rfl (own_modify hf)

/-- The writes that `hf` stands for. -/
theorem Inv.write (h : s.Inv b₀) (hf : ∀ x q, (f x).part t q = x.part t q) :
    (s.modify t f).Inv b₀ :=
  h.modify fun x _ => hf x

theorem Inv.linkParent (h : s.Inv b₀) : (s.linkParent t).Inv b₀ := by
  unfold System.linkParent
  split
  · exact h
  · exact h.write fun x q => by cases q <;> rfl

theorem Inv.threadEnqueueReady (h : s.Inv b₀) : (s.threadEnqueueReady t).Inv b₀ :=
  Inv.congr (h.write fun x q => by cases q <;> rfl) rfl rfl

theorem Inv.plantFrame (h : s.Inv b₀) {tf : TrapFrame} : (s.plantFrame t tf).Inv b₀ :=
  Inv.write (h.congr rfl rfl) fun x q => by cases q <;> rfl

/-- The old invariant of the heap and the threads. -/
theorem Inv.ok (h : s.Inv b₀) : s.Ok := by
  refine ⟨h.ledger, fun p hp => ?_⟩
  obtain ⟨x, hx⟩ := Option.isSome_iff_exists.mp hp
  exact List.mem_map_of_mem (h.mem_live (own_of_thread hx .struct))

/-! ## Threads that are made -/

/-- A block is given back, and its pointer is cleared. -/
theorem Inv.kfree_part {g : Grant} (h : s.Inv b₀) (hx : s.thread t = some x)
    (hpart : x.part t q = some g) (hnull : (f x).part t q = none)
    (hf : ∀ q' ≠ q, (f x).part t q' = x.part t q') : ((s.kfree g.ptr).modify t f).Inv b₀ := by
  have hown := own_modify_part (s := s.kfree g.ptr) hx q hf
  unfold Inv
  rw [hown, hnull]
  exact Holds.release h ((own_of_thread hx q).trans hpart)

/-- A pointer is cleared, and its block is not given back. -/
theorem Inv.clear (h : s.Inv b₀) (q : Part) (hnull : ∀ x, (f x).part t q = none)
    (hf : ∀ x, ∀ q' ≠ q, (f x).part t q' = x.part t q') : (s.modify t f).Inv b₀ := by
  cases hx : s.thread t with
  | none => exact h.modify fun x hx' => absurd (hx.symm.trans hx') (by simp)
  | some x =>
    unfold Inv
    rw [own_modify_part hx q (hf x), hnull]
    exact Holds.forget h _

/-- **A thread is freed** after its kernel stack. -/
theorem Inv.kfreeThread {s₁ : System} {p : ℕ} (hx : s.thread (.heap p) = some x)
    (hthread : s₁.thread = s.thread)
    (h₁ : Holds b₀ s₁.client (Function.update s.own (.heap p, .kstack) none)) :
    (s₁.kfreeThread p).Inv b₀ := by
  have hstruct : Function.update s.own (.heap p, .kstack) none (.heap p, .struct) =
      some ⟨p, sizeofThread⟩ := by
    rw [Function.update_of_ne (by simp), own_of_thread hx]
    rfl
  have hforget := ((h₁.release hstruct).forget (.heap p, .image)).forget (.heap p, .sigstack)
  have hown : (s₁.kfreeThread p).own = _ := own_forget (s := s₁.kfree p)
  unfold Inv
  rw [hown, show (s₁.kfree p).own = s.own from own_congr hthread]
  exact hforget

/-- The kernel stack is given back. -/
theorem Inv.kfree_kstack {p : ℕ} (h : s.Inv b₀) (hx : s.thread (.heap p) = some x)
    (hstk : x.kstackBase ≠ 0) :
    Holds b₀ (s.kfree x.kstackBase).client (Function.update s.own (.heap p, .kstack) none) := by
  have hkstack : s.own (.heap p, .kstack) = some ⟨x.kstackBase, Creation.kstackSize⟩ := by
    rw [own_of_thread hx]
    exact if_neg hstk
  exact Holds.release h hkstack

/-- **`thread_alloc_bare`.**  The new thread has a struct and a kernel stack. -/
theorem Inv.threadAllocBare (h : s.Inv b₀) :
    s.threadAllocBare.1.Inv b₀ ∧ (s.threadAllocBare.2 ≠ 0 →
      ∃ x, s.threadAllocBare.1.thread (.heap s.threadAllocBare.2) = some x ∧ x.kstackBase ≠ 0 ∧
        x.imageBase = 0) := by
  unfold System.threadAllocBare
  dsimp only
  by_cases ht : (s.kmalloc sizeofThread).2 = 0
  · rw [if_pos ht]
    exact ⟨Holds.null h ht, fun hne => absurd rfl hne⟩
  rw [if_neg ht]
  set p := (s.kmalloc sizeofThread).2
  have hnone : s.thread (.heap p) = none := (h.ok.kmalloc_granted ht).thread_eq_none h.ok
  have hstruct := Holds.acquire h ht (by decide) (.heap p, .struct)
  by_cases hstk : ((s.kmalloc sizeofThread).1.kmalloc Creation.kstackSize).2 = 0
  · rw [if_pos hstk]
    refine ⟨?_, fun hne => absurd rfl hne⟩
    -- the struct is freed again, and nobody had it before
    have hfreed := (hstruct.null hstk).release (Function.update_self ..)
    rw [Function.update_idem, ← own_of_none hnone .struct, Function.update_eq_self] at hfreed
    have hthread : Function.update s.thread (.heap p) none = s.thread := by
      rw [← hnone, Function.update_eq_self]
    have hown : (((s.kmalloc sizeofThread).1.kmalloc Creation.kstackSize).1.kfreeThread p).own =
        s.own := own_congr hthread
    unfold Inv
    rw [hown]
    exact hfreed
  rw [if_neg hstk]
  set stk := ((s.kmalloc sizeofThread).1.kmalloc Creation.kstackSize).2
  have hkstack := hstruct.acquire hstk (by decide) (.heap p, .kstack)
  refine ⟨?_, fun _ => ⟨_, Function.update_self .., hstk, rfl⟩⟩
  have hown : (((s.kmalloc sizeofThread).1.kmalloc Creation.kstackSize).1.initThread p stk).own =
      _ := (own_congr (s := { s with thread := Function.update s.thread (.heap p) (some _) })
    rfl).trans (own_new hnone rfl rfl)
  show Holds _ _ (((s.kmalloc sizeofThread).1.kmalloc Creation.kstackSize).1.initThread p stk).own
  rw [hown]
  have hblock : blockAt stk Creation.kstackSize = some ⟨stk, Creation.kstackSize⟩ := if_neg hstk
  simp only [Thread.part, hblock]
  exact hkstack

/-- **The image of a new thread.** -/
theorem Inv.allocImage {p : ℕ} {total : Word} (h : s.Inv b₀) (size : Word)
    (hx : s.thread (.heap p) = some x) (hstk : x.kstackBase ≠ 0) (himage : x.imageBase = 0)
    (htotal : total.toNat ≤ 2 ^ 33) :
    (s.allocImage p size total).1.Inv b₀ := by
  unfold System.allocImage
  dsimp only
  set s₂ := s.modify (.heap p) fun x => { x with imageSize := size, totalSize := total } with hs₂
  have hx₂ : s₂.thread (.heap p) = some { x with imageSize := size, totalSize := total } := by
    rw [hs₂, thread_modify, if_pos rfl, hx]
    rfl
  have h₂ : s₂.Inv b₀ := h.modify fun y hy q => by
    obtain rfl := Option.some.inj (hx.symm.trans hy)
    cases q <;> simp [Thread.part, blockAt, himage]
  by_cases hb : (s₂.kmalloc total.toNat).2 = 0
  · rw [if_pos hb]
    set s₃ := (s₂.kmalloc total.toNat).1.modify (.heap p) fun x =>
      { x with imageBase := (s₂.kmalloc total.toNat).2 } with hs₃
    have hx₃ : s₃.thread (.heap p) = some { x with
        imageSize := size
        totalSize := total
        imageBase := (s₂.kmalloc total.toNat).2 } := by
      rw [hs₃, thread_modify, if_pos rfl]
      show (s₂.thread (.heap p)).map _ = _
      rw [hx₂]
      rfl
    have h₃ : s₃.Inv b₀ := by
      refine Inv.modify (Holds.null h₂ hb) fun y hy q => ?_
      obtain rfl := Option.some.inj (hx₂.symm.trans hy)
      cases q <;> simp [Thread.part, blockAt, himage, hb]
    have hget : (s₃.get (.heap p)).kstackBase = x.kstackBase := by
      simp [System.get, hx₃]
    rw [hget]
    have hfreed := h₃.kfree_kstack hx₃ hstk
    exact Inv.kfreeThread hx₃ rfl hfreed
  · rw [if_neg hb]
    have hown := own_modify_part (s := (s₂.kmalloc total.toNat).1)
      (f := fun x => { x with imageBase := (s₂.kmalloc total.toNat).2 }) hx₂ .image
      fun q hq => by cases q <;> simp_all [Thread.part]
    have hblock : blockAt (s₂.kmalloc total.toNat).2 total.toNat =
        some ⟨(s₂.kmalloc total.toNat).2, total.toNat⟩ := if_neg hb
    unfold Inv
    rw [hown]
    simp only [Thread.part, hblock]
    exact Holds.acquire h₂ hb htotal _

/-- **`thread_create`.** -/
theorem Inv.threadCreate (h : s.Inv b₀) (fn : Word) : (s.threadCreate fn).1.Inv b₀ := by
  obtain ⟨hbare, -⟩ := h.threadAllocBare
  unfold System.threadCreate
  dsimp only
  split_ifs with hnull
  · exact hbare
  · exact Inv.congr (Inv.linkParent (hbare.write fun x q => by cases q <;> rfl)) rfl rfl

theorem toNat_total (sz : BitVec 32) :
    (sz.setWidth 64 + Process.userStackSize).toNat ≤ 2 ^ 33 := by
  have hlt := sz.isLt
  have hstack : Process.userStackSize.toNat ≤ 2 ^ 32 := by decide
  rw [BitVec.toNat_add, BitVec.toNat_setWidth]
  refine (Nat.mod_le _ _).trans ?_
  have := Nat.mod_le sz.toNat (2 ^ 64)
  omega

/-- **`thread_spawn_user`.** -/
theorem Inv.threadSpawnUser (h : s.Inv b₀) (file : Option (BitVec 32)) (sstatus : Word) :
    (s.threadSpawnUser (file.map fun sz => sz.setWidth 64) sstatus).1.Inv b₀ := by
  cases file with
  | none => exact h
  | some sz =>
    obtain ⟨hbare, hthread⟩ := h.threadAllocBare
    rw [Option.map_some, System.threadSpawnUser]
    dsimp only
    by_cases hnull : s.threadAllocBare.2 = 0
    · rw [if_pos hnull]
      exact hbare
    rw [if_neg hnull]
    obtain ⟨x, hx, hstk, himage⟩ := hthread hnull
    have htotal := toNat_total sz
    generalize sz.setWidth 64 + Process.userStackSize = total at htotal ⊢
    generalize sz.setWidth 64 = fsize
    have himaged := Inv.allocImage hbare fsize hx hstk himage htotal
    by_cases hb : (s.threadAllocBare.1.allocImage s.threadAllocBare.2 fsize total).2 = 0
    · rw [if_pos hb]
      exact himaged
    · rw [if_neg hb]
      exact Inv.threadEnqueueReady (Inv.linkParent (Inv.congr himaged.plantFrame rfl rfl))

/-! ## Threads that end -/

theorem Inv.freeImage (h : s.Inv b₀) (t : Tid) : (s.freeImage t).Inv b₀ := by
  unfold System.freeImage
  dsimp only
  split_ifs with hnull
  · exact h
  · cases hx : s.thread t with
    | none => simp [System.get, hx, Thread.zero] at hnull
    | some x =>
      have hget : s.get t = x := by simp [System.get, hx]
      rw [hget] at hnull ⊢
      refine h.kfree_part hx (q := .image) (if_neg hnull) (by simp [Thread.part, blockAt])
        fun q hq => ?_
      cases q <;> simp_all [Thread.part]

theorem Inv.signalRelease (h : s.Inv b₀) (t : Tid) : (s.signalRelease t).Inv b₀ := by
  unfold System.signalRelease
  dsimp only
  split_ifs with hnull
  · refine h.modify fun x hx q => ?_
    have hget : s.get t = x := by simp [System.get, hx]
    rw [hget] at hnull
    cases q <;> simp [Thread.part, blockAt, hnull]
  · cases hx : s.thread t with
    | none => exact absurd (by simp [System.get, hx, Thread.zero]; rfl) hnull
    | some x =>
      have hget : s.get t = x := by simp [System.get, hx]
      rw [hget] at hnull ⊢
      have hne : x.sig.sigstackBase.toNat ≠ 0 := fun h0 => hnull (BitVec.eq_of_toNat_eq h0)
      refine h.kfree_part hx (q := .sigstack) (if_neg hne) (by simp [Thread.part, blockAt])
        fun q hq => ?_
      cases q <;> simp_all [Thread.part]

theorem Inv.terminate (h : s.Inv b₀) (t : Tid) : (s.terminate t).Inv b₀ :=
  (h.freeImage t).signalRelease t

/-! ## Images that are replaced and copied, and stacks for handlers -/

/-- **`sys_exec`.** -/
theorem Inv.sysExec (h : s.Inv b₀) (file : Option (BitVec 32)) (tf : Word) :
    (s.sysExec (file.map fun sz => sz.setWidth 64) tf).1.Inv b₀ := by
  unfold System.sysExec
  dsimp only
  by_cases himage : (s.get s.current).imageBase = 0
  · rw [if_pos himage]
    exact h
  rw [if_neg himage]
  cases file with
  | none => exact h
  | some sz =>
    rw [Option.map_some]
    dsimp only
    have htotal := toNat_total sz
    generalize sz.setWidth 64 + Process.userStackSize = total at htotal ⊢
    by_cases hb : (s.kmalloc total.toNat).2 = 0
    · rw [if_pos hb]
      exact Holds.null h hb
    rw [if_neg hb]
    cases hx : s.thread s.current with
    | none => exact absurd (by simp [System.get, hx, Thread.zero]) himage
    | some x =>
      have hget : s.get s.current = x := by simp [System.get, hx]
      rw [hget] at himage ⊢
      set s₂ := (s.kmalloc total.toNat).1.modify s.current fun x => { x with
        imageBase := (s.kmalloc total.toNat).2
        imageSize := sz.setWidth 64
        totalSize := total } with hs₂
      have hold : s.own (s.current, .image) = some ⟨x.imageBase, x.totalSize.toNat⟩ := by
        rw [own_of_thread hx]
        exact if_neg himage
      have hblock : blockAt (s.kmalloc total.toNat).2 total.toNat =
          some ⟨(s.kmalloc total.toNat).2, total.toNat⟩ := if_neg hb
      have hown : s₂.own = Function.update s.own (s.current, .image)
          (some ⟨(s.kmalloc total.toNat).2, total.toNat⟩) := by
        rw [← hblock]
        exact own_modify_part (s := (s.kmalloc total.toNat).1) hx .image fun q hq => by
          cases q <;> simp_all [Thread.part]
      obtain ⟨hlive, -, hfresh⟩ := Holds.fresh h hb
      have h₂ : s₂.Inv b₀ := by
        unfold Inv
        rw [hown]
        exact Holds.acquire h hb htotal _
      -- nobody has the old image any more
      have hno : ∀ o, s₂.own o ≠ some ⟨x.imageBase, x.totalSize.toNat⟩ := by
        intro o
        rw [hown, Function.update_apply]
        split_ifs with ho
        · intro heq
          exact hfresh _ (Holds.mem_live h hold) (congrArg Grant.ptr (Option.some.inj heq)).symm
        · exact Holds.ne_of_ne h hold ho
      have hmem : (⟨x.imageBase, x.totalSize.toNat⟩ : Grant) ∈ s₂.client.live := by
        show _ ∈ (s.kmalloc total.toNat).1.client.live
        rw [hlive]
        exact List.mem_cons_of_mem _ (Holds.mem_live h hold)
      have hfreed : (s₂.kfree x.imageBase).Inv b₀ := Holds.drop h₂ hmem hno
      exact Inv.congr (Inv.signalRelease (hfreed.write fun x q => by cases q <;> rfl) _) rfl rfl

/-- **`sys_fork`.** -/
theorem Inv.sysFork (h : s.Inv b₀) (tf : Word) : (s.sysFork tf).1.Inv b₀ := by
  unfold System.sysFork
  dsimp only
  by_cases himage : (s.get s.current).imageBase = 0
  · rw [if_pos himage]
    exact h
  rw [if_neg himage]
  obtain ⟨hbare, hthread⟩ := h.threadAllocBare
  by_cases hnull : s.threadAllocBare.2 = 0
  · rw [if_pos hnull]
    exact hbare
  rw [if_neg hnull]
  obtain ⟨y, hy, hstk, hempty⟩ := hthread hnull
  have htotal : (s.get s.current).totalSize.toNat ≤ 2 ^ 33 := by
    cases hx : s.thread s.current with
    | none => exact absurd (by simp [System.get, hx, Thread.zero]) himage
    | some x =>
      have hget : s.get s.current = x := by simp [System.get, hx]
      rw [hget] at himage ⊢
      exact h.small (s.current, .image) ⟨x.imageBase, x.totalSize.toNat⟩
        ((own_of_thread hx _).trans (if_neg himage))
  generalize (s.get s.current).totalSize = total at htotal ⊢
  have himaged := Inv.allocImage hbare (s.get s.current).imageSize hy hstk hempty htotal
  by_cases hb : (s.threadAllocBare.1.allocImage s.threadAllocBare.2 (s.get s.current).imageSize
      total).2 = 0
  · rw [if_pos hb]
    exact himaged
  · rw [if_neg hb]
    refine Inv.threadEnqueueReady (Inv.linkParent (Inv.write (Inv.clear himaged.plantFrame
      .sigstack (fun x => ?_) fun x q hq => ?_) fun x q => ?_))
    · simp [Thread.part, blockAt]
    · cases q <;> first | rfl | exact absurd rfl hq
    · cases q <;> rfl

/-- **A stack for a handler.** -/
theorem Inv.deliver (h : s.Inv b₀) : s.deliver.Inv b₀ := by
  unfold System.deliver
  dsimp only
  by_cases hb : (s.kmalloc sigstackSize.toNat).2 = 0
  · rw [if_pos hb]
    exact Inv.terminate (Holds.null h hb) _
  rw [if_neg hb]
  cases hx : s.thread s.current with
  | none => exact Inv.modify (Holds.grow h _) fun x hx' => absurd (hx.symm.trans hx') (by simp)
  | some x =>
    have hbig : (ptr (s.kmalloc sigstackSize.toNat).2).toNat =
        (s.kmalloc sigstackSize.toNat).2 := by
      obtain ⟨hlive, ⟨fl, hfl⟩, -⟩ := Holds.fresh h hb
      have hle := hfl.ptr_add_capacityBytes_le (hlive.symm ▸ List.mem_cons_self)
      have hpos := HeapClient.capacityBytes_pos sigstackSize.toNat
      have hinside := hfl.region.inside
      dsimp only at hle
      exact Nat.mod_eq_of_lt (by omega)
    have hblock : blockAt (ptr (s.kmalloc sigstackSize.toNat).2).toNat sigstackSize.toNat =
        some ⟨(s.kmalloc sigstackSize.toNat).2, sigstackSize.toNat⟩ := by
      rw [hbig]
      exact if_neg hb
    have hown := own_modify_part (s := (s.kmalloc sigstackSize.toNat).1) (f := fun x =>
        { x with sig := { x.sig with
          sigstackBase := ptr (s.kmalloc sigstackSize.toNat).2
          inHandler := true } }) hx .sigstack
      fun q hq => by cases q <;> simp_all [Thread.part]
    unfold Inv
    rw [hown]
    simp only [Thread.part, hblock]
    exact Holds.acquire h hb (by decide) _

/-- **`kill_zombies`.** -/
theorem Inv.reap {p : ℕ} (h : s.Inv b₀) (hx : s.thread (.heap p) = some x) : (s.reap p).Inv b₀ := by
  have hget : s.get (.heap p) = x := by simp [System.get, hx]
  unfold System.reap
  dsimp only
  rw [hget]
  by_cases hstk : x.kstackBase = 0
  · rw [if_pos hstk]
    exact Inv.kfreeThread hx rfl (Holds.forget h _)
  · rw [if_neg hstk]
    exact Inv.kfreeThread hx rfl (h.kfree_kstack hx hstk)

/-! ## Runs -/

/-- **One step.** -/
theorem Inv.act {a : Act} (h : s.Inv b₀) (hspares : s.Spares a) (hs : s.act a = some s') :
    s'.Inv b₀ := by
  cases a with
  | threadCreate fn => exact Option.some.inj hs ▸ h.threadCreate fn
  | threadSpawnUser file sstatus => exact Option.some.inj hs ▸ h.threadSpawnUser file sstatus
  | sysExec file tf => exact Option.some.inj hs ▸ h.sysExec file tf
  | sysFork tf => exact Option.some.inj hs ▸ h.sysFork tf
  | deliver => exact Option.some.inj hs ▸ h.deliver
  | sigreturn => exact Option.some.inj hs ▸ h.signalRelease _
  | terminate t => exact Option.some.inj hs ▸ h.terminate t
  | shellStop t => exact Option.some.inj hs ▸ h.freeImage t
  | reap p =>
    rw [System.act] at hs
    split_ifs at hs with hsome
    obtain ⟨x, hx⟩ := Option.isSome_iff_exists.mp hsome
    exact Option.some.inj hs ▸ h.reap hx
  | kmalloc n => exact Option.some.inj hs ▸ Holds.grow h n
  | kfree g =>
    rw [System.act] at hs
    split_ifs at hs with hg
    exact Option.some.inj hs ▸ Holds.drop h hg hspares
  | write g addr value =>
    obtain ⟨c, hc, rfl⟩ := Option.map_eq_some_iff.mp
      (show (s.client.step (.write g addr value)).map _ = some s' from hs)
    obtain ⟨fl, hfl⟩ := h.ledger
    refine ⟨(hfl.step hc).imp fun _ h => h.1, h.frames.step hfl hc, ?_, h.small⟩
    rw [HeapClient.step] at hc
    split_ifs at hc
    obtain rfl := Option.some.inj hc
    exact h.owned
  | other f runq frame current =>
    obtain rfl := Option.some.inj hs
    refine h.congr rfl ?_
    funext o
    obtain ⟨t, q⟩ := o
    unfold own
    dsimp only
    cases hx : s.thread t with
    | none => rfl
    | some x => exact hspares t x hx q

/-- **Isolation.**  Where a block of a thread is, and what it is apart from. -/
structure Isolated (s : System) : Prop where
  inside : ∀ o g, s.own o = some g → bytes g ⊆ Set.Ico s.client.heap.buddy.gBuddyBase
    (s.client.heap.buddy.gBuddyBase + s.client.heap.buddy.gTotalPages * pageSize)
  /-- The other blocks of this thread and of other threads. -/
  apart : ∀ o o' g g', s.own o = some g → s.own o' = some g' → o ≠ o' →
    Disjoint (bytes g) (bytes g')
  /-- What else the kernel holds. -/
  held : ∀ o g, s.own o = some g → ∀ g' ∈ s.client.live, g' ≠ g →
    Disjoint (bytes g) (HeapClient.capacity g')
  /-- The chunks and the blocks that are free. -/
  chunk : ∀ o g, s.own o = some g → ∀ i < numPools, ∀ l,
    Chain s.client.heap.mem 0 (s.client.heap.pools i).freeList l →
      ∀ c ∈ l, Disjoint (bytes g) (Set.Ico c (c + (s.client.heap.pools i).chunkSize))
  free : ∀ o g, s.own o = some g → ∀ i k, s.client.heap.buddy.FreeBlock i k →
    Disjoint (bytes g) (s.client.heap.buddy.blockBytes i k)
  /-- The pages that are reserved. -/
  reserved : ∀ o g, s.own o = some g → ∀ j < s.client.heap.buddy.gTotalPages,
    s.client.heap.buddy.frameArray j = frameReserved →
      Disjoint (bytes g) (s.client.heap.buddy.blockBytes j 0)

theorem Inv.isolated (h : s.Inv b₀) : s.Isolated := by
  have hsub : ∀ {o g}, s.own o = some g → bytes g ⊆ HeapClient.capacity g := by
    intro o g hg
    have hsmall := h.small o g hg
    refine Set.Ico_subset_Ico_right (Nat.add_le_add_left (HeapClient.le_capacityBytes ?_) _)
    unfold pageSize
    omega
  obtain ⟨fl, hfl⟩ := h.ledger
  have hcontract := hfl.contract
  have hpair : ∀ g ∈ s.client.live, ∀ g' ∈ s.client.live, g' ≠ g →
      Disjoint (HeapClient.capacity g) (HeapClient.capacity g') := by
    intro g hg g' hg' hne
    exact hfl.capacity_disjoint hg hg' fun heq => hne
      (List.inj_on_of_nodup_map hfl.ptr_nodup hg' hg heq.symm)
  refine ⟨?_, ?_, ?_, ?_, ?_, ?_⟩
  · intro o g hg y hy
    obtain ⟨idx, k, ha, hblock, -⟩ := hfl.capacity_block (Holds.mem_live h hg)
    have hlow := (hblock (hsub hg hy)).1
    have hhigh := (hsub hg hy).2
    rw [Buddy.idxToAddr_eq hfl.region.inside ha.index_lt] at hlow
    have hle := hfl.ptr_add_capacityBytes_le (Holds.mem_live h hg)
    exact ⟨(Nat.le_add_right _ _).trans hlow, hhigh.trans_le hle⟩
  · intro o o' g g' hg hg' hne
    refine (hpair g (Holds.mem_live h hg) g' (Holds.mem_live h hg') ?_).mono (hsub hg) (hsub hg')
    rintro rfl
    exact Holds.ne_of_ne h hg hne.symm hg'
  · intro o g hg g' hg' hne
    exact (hpair g (Holds.mem_live h hg) g' hg' hne).mono_left (hsub hg)
  · intro o g hg i hi l hl c hc
    exact (hcontract.live_chunk g (Holds.mem_live h hg) i hi l hl c hc).mono_left (hsub hg)
  · intro o g hg i k hfree
    exact (hcontract.live_free g (Holds.mem_live h hg) i k hfree).mono_left (hsub hg)
  · intro o g hg j hj hr
    exact (hcontract.live_reserved g (Holds.mem_live h hg) j hj hr).mono_left (hsub hg)

/-- The invariant holds when no thread has a block yet. -/
theorem inv_boot (fa : ℕ → ℤ) {base size : ℕ} (hbase : pageSize ∣ base)
    (hend : base + size ≤ 2 ^ 64) (reserves : List (ℕ × ℕ)) (pools : ℕ → Pool)
    (table : ℕ → ℤ) (mem : ℕ → ℕ) (hx : ∀ q, x.part .bootstrap q = none) (addr : Word) :
    (boot (bootHeap fa base size reserves pools table mem) x addr).Inv
      (bootHeap fa base size reserves pools table mem).heap.buddy := by
  have hown : ∀ o, (boot (bootHeap fa base size reserves pools table mem) x addr).own o = none := by
    rintro ⟨t, q⟩
    cases t with
    | bootstrap => exact hx q
    | heap p => rfl
  refine ⟨⟨_, ok_bootHeap fa hbase hend reserves pools table mem⟩,
    ⟨SameRegion.refl _, fun _ => Iff.rfl⟩, ⟨?_, ?_, List.nodup_nil⟩, ?_⟩
  · intro o ho
    exact absurd (hown o) ho
  · intro o o' ho
    exact absurd (hown o) ho
  · intro o g hg
    exact absurd ((hown o).symm.trans hg) (by simp)

/-- **Threads do not share memory.**  From `sched_init` on, in every state of every run, whatever
requests fail: the bytes of a struct, a kernel stack, an image or the stack of a handler belong to
nothing else. -/
theorem isolated_of_reachable (fa : ℕ → ℤ) {base size : ℕ} (hbase : pageSize ∣ base)
    (hend : base + size ≤ 2 ^ 64) (reserves : List (ℕ × ℕ)) (pools : ℕ → Pool)
    (table : ℕ → ℤ) (mem : ℕ → ℕ) {x : Thread} (hx : ∀ q, x.part .bootstrap q = none) (addr : Word)
    (hs : Reachable act Spares
      (boot (bootHeap fa base size reserves pools table mem) x addr) s) : s.Isolated := by
  have hstart := inv_boot fa hbase hend reserves pools table mem hx addr
  have hinv := hs.invariant hstart fun s a s' h hspares hstep => h.act hspares hstep
  exact hinv.isolated

/-- Two programs, the second of which is stopped. -/
theorem isolated_of_spawns : ∃ s,
    runList act (boot (bootHeap (fun _ => 0) 0x80000000 0x40000000 [] (fun _ => ⟨0, 0⟩)
      (fun _ => 0) fun _ => 0) .zero 0)
      [.threadSpawnUser (some 100) 0, .threadSpawnUser (some 0x2000) 0] = some s ∧
    s.Isolated := by
  obtain ⟨s, hs⟩ := Option.isSome_iff_exists.mp (show (runList act
    (boot (bootHeap (fun _ => 0) 0x80000000 0x40000000 [] (fun _ => ⟨0, 0⟩)
      (fun _ => 0) fun _ => 0) .zero 0)
      [.threadSpawnUser (some 100) 0, .threadSpawnUser (some 0x2000) 0]).isSome = true from rfl)
  refine ⟨s, hs, isolated_of_reachable _ (by decide) (by decide) _ _ _ _ ?_ _
    (Reachable.of_runList hs ⟨trivial, fun _ _ => ⟨trivial, fun _ _ => trivial⟩⟩)⟩
  intro q
  cases q <;> rfl

end System
end Creation
end OscKernel
