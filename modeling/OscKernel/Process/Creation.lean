import OscKernel.Kmalloc.Run
import OscKernel.Process.Machine
import OscKernel.Sched.Thread

/-!
# Making threads and replacing images (`sched.c`, `syscall.c`)

`thread_create`, `thread_spawn_user`, `sys_fork` and `sys_exec` over the heap of
`OscKernel.Kmalloc.Run`: each of them calls `kmalloc` up to three times, and every call can fail.
What a lookup in the initial ramdisk finds is an argument, the size of the file or nothing.  The
bytes of images and stacks are left out, up to the trap frames.

* `System.threadAllocBare`, `System.allocImage`: the allocations, and how they are taken back.
* `System.step`: a call of one of the functions, or a step of the rest of the kernel.

## What a failure may leave behind

A request that fails may have split blocks or sliced a page on its way, and a request that succeeded
and was freed again has put a chunk back at the head of its list.  The heap is then not the heap
from before, and cannot be: what is the same is what is held, and that the ledger has everything.
`Undone` says this, and that nothing outside the allocators has changed but `g_next_tid`.  No thread
was made, no list was linked, and no pointer of the caller was touched.

## The exception

`thread_alloc_bare` counts `g_next_tid` up without a test, also for threads that are taken back, and
when it has come round to `-1` the next thread has that number.  `sys_fork` returns the pid of the
child and `-1` for a failure, so that the parent of this child is told that there is none.
`ForksMinusOne` is this case, and the theorem says that it is the only one.

What the rest of the kernel does between these calls is a step of its own with any effect on the
fields of the threads, the run queue and the frames; the set of the threads and the heap change only
by requests, frees and writes of what is held.
-/

namespace OscKernel
namespace Creation

open Rv64 (Word)
open Process (TrapFrame SignalState userStackSize)
open Sched (ThreadState)

/-- `sizeof(struct thread)`. -/
def sizeofThread : ℕ := 800
/-- `KSTACK_SIZE`. -/
def kstackSize : ℕ := 8192
/-- `sizeof(struct trap_frame)`. -/
def sizeofTrapFrame : Word := 280

/-- `SSTATUS_SIE`. -/
def sstatusSie : Word := 0x2
/-- `SSTATUS_SPIE`. -/
def sstatusSpie : Word := 0x20
/-- `SSTATUS_SPP`. -/
def sstatusSpp : Word := 0x100

/-- A `struct thread`: the static `g_bootstrap`, or one in memory from `kmalloc`. -/
inductive Tid where
  | bootstrap
  | heap (p : ℕ)
  deriving DecidableEq

/-- What `ctx.ra` points to. -/
inductive Resume where
  | threadEntryTrampoline
  | userThreadBootstrap
  /-- Behind the call of `switch_to`. -/
  | switched
  deriving DecidableEq

/-- `struct thread`. -/
structure Thread where
  ra : Resume
  sp : Word
  tid : BitVec 32
  pid : BitVec 32
  state : ThreadState
  entry : Word
  kstackBase : ℕ
  kstackSize : Word
  parent : Option Tid
  children : List Tid
  imageBase : ℕ
  imageSize : Word
  totalSize : Word
  sig : SignalState

/-- A struct after `zero_words`. -/
def Thread.zero : Thread :=
  ⟨.switched, 0, 0, 0, .ready, 0, 0, 0, none, [], 0, 0, 0, .init⟩

/-- The threads, the run queue, the trap frames by their addresses, and the heap.  `bootstrapAddr`
is the address of `g_bootstrap`. -/
structure System where
  client : HeapClient
  thread : Tid → Option Thread
  gRunq : List Tid
  frame : Word → TrapFrame
  gUserBase : Word
  gNextTid : BitVec 32
  current : Tid
  bootstrapAddr : Word

/-- The value of a pointer. -/
def ptr (p : ℕ) : Word := BitVec.ofNat 64 p

/-- `(base + size) & ~0xFUL`. -/
def stackTop (base size : Word) : Word := (base + size) &&& ~~~0xF

namespace System

variable (s : System) (t : Tid)

/-- The address of a thread. -/
def addr : Word :=
  match t with
  | .bootstrap => s.bootstrapAddr
  | .heap p => ptr p

/-- The fields of a thread. -/
def get : Thread := (s.thread t).getD .zero

/-- Write fields of a thread. -/
def modify (f : Thread → Thread) : System :=
  { s with thread := Function.update s.thread t ((s.thread t).map f) }

/-- `kmalloc`, and its result. -/
def kmalloc (size : ℕ) : System × ℕ :=
  let r := s.client.heap.kmalloc size
  ({ s with client := ⟨r.1, HeapClient.hold s.client.live r.2 size, s.client.slice size⟩ }, r.2)

/-- `kfree`. -/
def kfree (p : ℕ) : System :=
  { s with client := { s.client with
      heap := s.client.heap.kfree p
      live := s.client.live.eraseP fun g => g.ptr = p } }

/-- `kfree` of a `struct thread`. -/
def kfreeThread (p : ℕ) : System :=
  { s.kfree p with thread := Function.update s.thread (.heap p) none }

/-! ## `sched.c` -/

/-- The struct at `p` is filled in. -/
def initThread (p stk : ℕ) : System :=
  let x := { Thread.zero with
    tid := s.gNextTid
    pid := s.gNextTid
    kstackBase := stk
    kstackSize := ptr kstackSize
    parent := some s.current }
  { s with
    gNextTid := s.gNextTid + 1
    thread := Function.update s.thread (.heap p) (some x) }

/-- `thread_alloc_bare`. -/
def threadAllocBare : System × ℕ :=
  let t := s.kmalloc sizeofThread
  if t.2 = 0 then (t.1, 0)
  else
    let stk := t.1.kmalloc kstackSize
    if stk.2 = 0 then (stk.1.kfreeThread t.2, 0) else (stk.1.initThread t.2 stk.2, t.2)

/-- `if (t->parent) list_add_tail(&t->sibling, &t->parent->children);` -/
def linkParent : System :=
  match (s.get t).parent with
  | none => s
  | some par => s.modify par fun x => { x with children := x.children ++ [t] }

/-- `list_add_tail(&t->link, &g_runq);` -/
def enqueue : System := { s with gRunq := s.gRunq ++ [t] }

/-- `thread_enqueue_ready`. -/
def threadEnqueueReady : System := (s.modify t fun x => { x with state := .ready }).enqueue t

/-- `thread_create`. -/
def threadCreate (fn : Word) : System × ℕ :=
  let r := s.threadAllocBare
  if r.2 = 0 then (r.1, 0)
  else
    let t := .heap r.2
    let s := r.1.modify t fun x => { x with
      entry := fn
      ra := .threadEntryTrampoline
      sp := stackTop (ptr x.kstackBase) (ptr kstackSize) }
    ((s.linkParent t).enqueue t, r.2)

/-- The image of the new thread at `p`, for which it is freed again when there is no memory: the
same lines in `thread_spawn_user` and in `sys_fork`. -/
def allocImage (p : ℕ) (size total : Word) : System × ℕ :=
  let t := .heap p
  let s := s.modify t fun x => { x with imageSize := size, totalSize := total }
  let b := s.kmalloc total.toNat
  let s := b.1.modify t fun x => { x with imageBase := b.2 }
  if b.2 = 0 then ((s.kfree (s.get t).kstackBase).kfreeThread p, 0) else (s, b.2)

/-- A trap frame at the top of the kernel stack, where the first `switch_to` will find it. -/
def plantFrame (f : TrapFrame) : System :=
  let x := s.get t
  let tf := stackTop (ptr x.kstackBase) x.kstackSize - sizeofTrapFrame
  { s with frame := Function.update s.frame tf f }.modify t fun x =>
    { x with sp := tf, ra := .userThreadBootstrap }

/-- The frame of `plant_initial_frame`, which reads `sstatus`. -/
def initialFrame (entry userSp sstatus : Word) : TrapFrame :=
  { TrapFrame.zero with
    sepc := entry
    sp := userSp
    tp := s.addr t
    sstatus := (sstatus &&& ~~~(sstatusSpp ||| sstatusSie)) ||| sstatusSpie }

/-- `thread_spawn_user`; `file` is the size of the file it finds. -/
def threadSpawnUser (file : Option Word) (sstatus : Word) : System × ℕ :=
  match file with
  | none => (s, 0)
  | some sz =>
      let r := s.threadAllocBare
      if r.2 = 0 then (r.1, 0)
      else
        let t := .heap r.2
        let b := r.1.allocImage r.2 sz (sz + userStackSize)
        if b.2 = 0 then (b.1, 0)
        else
          let s := b.1
          let entry := ptr b.2
          let userSp := stackTop entry (sz + userStackSize)
          let s := s.plantFrame t (s.initialFrame t entry userSp sstatus)
          let s := { s with gUserBase := entry }
          ((s.linkParent t).threadEnqueueReady t, r.2)

/-! ## `syscall.c` -/

/-- `signal_release`. -/
def signalRelease : System :=
  let p := (s.get t).sig.sigstackBase
  (if p = 0 then s else s.kfree p.toNat).modify t fun x =>
    { x with sig := { x.sig with sigstackBase := 0, inHandler := false } }

/-- `sys_exec`, with the trap frame at `tf`. -/
def sysExec (file : Option Word) (tf : Word) : System × Word :=
  let self := s.current
  let x := s.get self
  if x.imageBase = 0 then (s, -1)
  else match file with
    | none => (s, -1)
    | some sz =>
        let total := sz + userStackSize
        let b := s.kmalloc total.toNat
        if b.2 = 0 then (b.1, -1)
        else
          let s := b.1.modify self fun x =>
            { x with imageBase := b.2, imageSize := sz, totalSize := total }
          let s := s.kfree x.imageBase
          let s := s.modify self fun x =>
            { x with sig := { x.sig with handlers := fun _ => Process.sigDfl, pending := 0 } }
          let s := s.signalRelease self
          let f := Process.State.execFrame (s.addr self) (s.frame tf) (ptr b.2) total
          ({ s with frame := Function.update s.frame tf f, gUserBase := ptr b.2 }, 0)

/-- `sys_fork`, with the trap frame at `tf`. -/
def sysFork (tf : Word) : System × Word :=
  let par := s.current
  let x := s.get par
  if x.imageBase = 0 then (s, -1)
  else
    let r := s.threadAllocBare
    if r.2 = 0 then (r.1, -1)
    else
      let ch := .heap r.2
      let b := r.1.allocImage r.2 x.imageSize x.totalSize
      if b.2 = 0 then (b.1, -1)
      else
        let s := b.1
        let f := s.frame tf
        let s := s.plantFrame ch { f with
          a0 := 0
          sp := ptr b.2 + (f.sp - ptr x.imageBase)
          tp := s.addr ch }
        let s := s.modify ch fun y =>
          { y with sig := { y.sig with
            handlers := x.sig.handlers, pending := 0, inHandler := false, sigstackBase := 0 } }
        let s := s.modify ch fun y => { y with parent := some par }
        let s := (s.linkParent ch).threadEnqueueReady ch
        (s, (s.get ch).pid.signExtend 64)

end System

/-- A call of one of the functions, or a step of the rest of the kernel. -/
inductive Label where
  | threadCreate (fn : Word)
  | threadSpawnUser (file : Option Word) (sstatus : Word)
  | sysExec (file : Option Word) (tf : Word)
  | sysFork (tf : Word)
  /-- A request, or a block is freed that is no `struct thread`, or written. -/
  | heap (c : HeapClient.Call)
  /-- A `struct thread` is freed. -/
  | freeThread (p : ℕ)
  /-- The fields of the threads, the run queue, the frames and the current thread change. -/
  | other (f : Tid → Thread → Thread) (runq : List Tid) (frame : Word → TrapFrame) (current : Tid)

namespace System

variable (s : System)

/-- A block that is held and is no `struct thread`. -/
def Private (p : ℕ) : Prop := p ∈ s.client.live.map Grant.ptr ∧ (s.thread (.heap p)).isNone

instance (p : ℕ) : Decidable (s.Private p) := inferInstanceAs (Decidable (_ ∧ _))

/-- What `sys_exec` frees when it succeeds is held. -/
def ExecFrees : Prop :=
  let x := s.get s.current
  x.imageBase ≠ 0 → s.Private x.imageBase ∧
    (x.sig.sigstackBase ≠ 0 →
      s.Private x.sig.sigstackBase.toNat ∧ x.sig.sigstackBase.toNat ≠ x.imageBase)

instance : Decidable s.ExecFrees := inferInstanceAs (Decidable (_ → _ ∧ (_ → _)))

/-- One step.  That a process holds what its pointers say is the subject of
`OscKernel.Process.Ownership`; here the system stops at a `kfree` of anything else. -/
def step : Label → Option System
  | .threadCreate fn => some (s.threadCreate fn).1
  | .threadSpawnUser file sstatus => some (s.threadSpawnUser file sstatus).1
  | .sysExec file tf => if s.ExecFrees then some (s.sysExec file tf).1 else none
  | .sysFork tf => some (s.sysFork tf).1
  | .heap (.kfree g) =>
      if (s.thread (.heap g.ptr)).isNone then
        (s.client.step (.kfree g)).map fun c => { s with client := c }
      else none
  | .heap c => (s.client.step c).map fun c => { s with client := c }
  | .freeThread p => if p ∈ s.client.live.map Grant.ptr then some (s.kfreeThread p) else none
  | .other f runq frame current =>
      some { s with
        thread := fun t => (s.thread t).map (f t)
        gRunq := runq
        frame := frame
        current := current }

/-! ## The heap and the threads -/

/-- The ledger of the heap, between calls. -/
def Ledger : Prop := ∃ fl, s.client.Ok fl fun _ => []

/-- The heap keeps its ledger, and every thread in it is held. -/
structure Ok (s : System) : Prop where
  ledger : s.Ledger
  thread : ∀ p, (s.thread (.heap p)).isSome → p ∈ s.client.live.map Grant.ptr

variable {s} {s' : System} {t u : Tid} {p n : ℕ} {f : Thread → Thread}

theorem thread_modify : (s.modify t f).thread u =
    if u = t then (s.thread u).map f else s.thread u := by
  show Function.update s.thread t _ u = _
  rw [Function.update_apply]
  split_ifs with h
  · rw [h]
  · rfl

@[simp] theorem isSome_modify : ((s.modify t f).thread u).isSome = (s.thread u).isSome := by
  rw [thread_modify]
  split_ifs
  · exact Option.isSome_map
  · rfl

@[simp] theorem client_modify : (s.modify t f).client = s.client := rfl

/-- Only the heap and the set of the threads matter. -/
theorem Ok.congr (h : s.Ok) (hc : s'.client = s.client)
    (ht : ∀ p, (s'.thread (.heap p)).isSome → (s.thread (.heap p)).isSome) : s'.Ok :=
  ⟨show ∃ _, _ from hc.symm ▸ h.ledger, fun p hp => hc.symm ▸ h.thread p (ht p hp)⟩

theorem Ok.modify (h : s.Ok) : (s.modify t f).Ok :=
  h.congr rfl fun _ hp => isSome_modify ▸ hp

theorem Ok.linkParent (h : s.Ok) : (s.linkParent t).Ok := by
  unfold System.linkParent
  split
  · exact h
  · exact h.modify

theorem Ok.enqueue (h : s.Ok) : (s.enqueue t).Ok := h.congr rfl fun _ hp => hp

/-- What `kmalloc` returns is held, and was not before. -/
structure Granted (s s' : System) (n p : ℕ) : Prop where
  ok : s'.Ok
  eq : s' = { s with client := s'.client }
  live : s'.client.live = ⟨p, n⟩ :: s.client.live
  fresh : p ∉ s.client.live.map Grant.ptr

theorem Granted.thread (h : Granted s s' n p) : s'.thread = s.thread := by rw [h.eq]

/-- No thread was there. -/
theorem Granted.thread_eq_none (h : Granted s s' n p) (hs : s.Ok) : s.thread (.heap p) = none := by
  cases hp : s.thread (.heap p) with
  | none => rfl
  | some x => exact absurd (hs.thread p (by rw [hp]; rfl)) h.fresh

theorem Ok.kmalloc_ok (h : s.Ok) (n : ℕ) : (s.kmalloc n).1.Ok := by
  obtain ⟨fl, hfl⟩ := h.ledger
  obtain ⟨fl', hok, -⟩ := hfl.kmalloc n rfl
  refine ⟨⟨fl', hok⟩, fun p hp => ?_⟩
  have hmem := h.thread p hp
  show p ∈ (HeapClient.hold _ _ _).map Grant.ptr
  unfold HeapClient.hold
  split_ifs
  · exact hmem
  · exact List.mem_cons_of_mem _ hmem

/-- A request that fails changes nothing outside the allocators. -/
theorem kmalloc_null (hnull : (s.kmalloc n).2 = 0) :
    (s.kmalloc n).1.client.live = s.client.live := by
  show HeapClient.hold _ (s.kmalloc n).2 _ = _
  rw [hnull, HeapClient.hold_null]

theorem Ok.kmalloc_granted (h : s.Ok) (hp : (s.kmalloc n).2 ≠ 0) :
    Granted s (s.kmalloc n).1 n (s.kmalloc n).2 := by
  have hlive : (s.kmalloc n).1.client.live = ⟨(s.kmalloc n).2, n⟩ :: s.client.live :=
    HeapClient.hold_of_ne hp
  have hok := h.kmalloc_ok n
  refine ⟨hok, rfl, hlive, fun hmem => ?_⟩
  obtain ⟨fl, hfl⟩ := hok.ledger
  have hnodup := hfl.ptr_nodup
  rw [hlive, List.map_cons, List.nodup_cons] at hnodup
  exact hnodup.1 hmem

/-- The grant with a given pointer. -/
theorem eraseP_ptr {live : List Grant} (hnodup : (live.map Grant.ptr).Nodup) {g : Grant}
    (hg : g ∈ live) : (live.eraseP fun g' => g'.ptr = g.ptr) = live.erase g := by
  rw [List.erase_eq_eraseP' g live]
  induction live with
  | nil => rfl
  | cons a live ih =>
    rw [List.map_cons, List.nodup_cons] at hnodup
    by_cases ha : a = g
    · rw [List.eraseP_cons_of_pos (by simp [ha]), List.eraseP_cons_of_pos (by simp [ha])]
    · have hg' : g ∈ live := (List.mem_cons.mp hg).resolve_left fun heq => ha heq.symm
      have hne : a.ptr ≠ g.ptr := fun heq => hnodup.1 (heq ▸ List.mem_map_of_mem hg')
      rw [List.eraseP_cons_of_neg (by simp [hne]), List.eraseP_cons_of_neg (by simp [ha]),
        ih hnodup.2 hg']

/-- `kfree` of what is held is a step of the heap. -/
theorem Ledger.kfree_step (h : s.Ledger) {g : Grant} (hg : g ∈ s.client.live) :
    s.client.step (.kfree g) = some (s.kfree g.ptr).client := by
  obtain ⟨fl, hfl⟩ := h
  rw [HeapClient.step, if_pos hg, ← eraseP_ptr hfl.ptr_nodup hg]
  rfl

theorem Ledger.kfree (h : s.Ledger) (hp : p ∈ s.client.live.map Grant.ptr) :
    (s.kfree p).Ledger := by
  obtain ⟨g, hg, rfl⟩ := List.mem_map.mp hp
  have hstep := h.kfree_step hg
  obtain ⟨fl, hfl⟩ := h
  exact (hfl.step hstep).imp fun _ h => h.1

/-- What else was held is held still. -/
theorem mem_live_kfree {q : ℕ} (hq : q ∈ s.client.live.map Grant.ptr) (hne : q ≠ p) :
    q ∈ (s.kfree p).client.live.map Grant.ptr := by
  obtain ⟨g, hg, rfl⟩ := List.mem_map.mp hq
  exact List.mem_map_of_mem ((List.mem_eraseP_of_neg (by simp [hne])).mpr hg)

/-- The grant at the head of the list is freed. -/
theorem live_kfree {live : List Grant} (h : s.client.live = ⟨p, n⟩ :: live) :
    (s.kfree p).client.live = live := by
  show s.client.live.eraseP _ = live
  rw [h, List.eraseP_cons_of_pos (by simp)]

theorem Ok.kfree (h : s.Ok) (hp : s.Private p) : (s.kfree p).Ok := by
  refine ⟨h.ledger.kfree hp.1, fun q hq => mem_live_kfree (h.thread q hq) ?_⟩
  rintro rfl
  exact absurd hq (by simp [Option.isNone_iff_eq_none.mp hp.2, System.kfree])

theorem Ok.kfreeThread (h : s.Ok) (hp : p ∈ s.client.live.map Grant.ptr) :
    (s.kfreeThread p).Ok := by
  refine ⟨h.ledger.kfree hp, fun q hq => ?_⟩
  have hne : q ≠ p := by
    rintro rfl
    simp [System.kfreeThread] at hq
  refine mem_live_kfree (h.thread q ?_) hne
  have hthread : (s.kfreeThread p).thread (.heap q) = s.thread (.heap q) :=
    Function.update_of_ne (fun heq => hne (Tid.heap.inj heq)) ..
  exact hthread ▸ hq

/-! ## The allocations -/

/-- Nothing has happened, up to `g_next_tid` and the free lists of the allocators: the same blocks
are held, and the heap has them all in its ledger. -/
structure Undone (s s' : System) : Prop where
  contract : HeapContract s'.client
  live : s'.client.live = s.client.live
  rest : s' = { s with client := s'.client, gNextTid := s'.gNextTid }

theorem Ledger.undone (h : s'.Ledger) (hlive : s'.client.live = s.client.live)
    (hrest : s' = { s with client := s'.client, gNextTid := s'.gNextTid }) : Undone s s' :=
  ⟨h.elim fun _ h => h.contract, hlive, hrest⟩

theorem Ok.undone_refl (h : s.Ok) : Undone s s := h.ledger.undone rfl rfl

theorem Undone.ok (h : Undone s s') (hs : s.Ok) (hs' : s'.Ledger) : s'.Ok := by
  refine ⟨hs', fun p hp => ?_⟩
  rw [h.rest] at hp
  exact h.live ▸ hs.thread p hp

/-- A struct and a kernel stack were allocated, and the struct was filled in. -/
structure Bare (s s' : System) (p : ℕ) : Prop where
  ok : s'.Ok
  fresh : s.thread (.heap p) = none
  heap : s'.client.heap = ((s.client.heap.kmalloc sizeofThread).1.kmalloc kstackSize).1
  rest : s' = { s with
    client := s'.client
    gNextTid := s.gNextTid + 1
    thread := Function.update s.thread (.heap p) (s'.thread (.heap p)) }
  live : s'.client.live =
    ⟨(s'.get (.heap p)).kstackBase, kstackSize⟩ :: ⟨p, sizeofThread⟩ :: s.client.live
  pid : (s'.get (.heap p)).pid = s.gNextTid

/-- There is memory for a thread and for an image of `total` bytes. -/
def HasRoom (h : Heap) (total : Word) : Prop :=
  let t := h.kmalloc sizeofThread
  let stk := t.1.kmalloc kstackSize
  t.2 ≠ 0 ∧ stk.2 ≠ 0 ∧ (stk.1.kmalloc total.toNat).2 ≠ 0

@[simp] theorem thread_initThread_self {stk : ℕ} :
    ((s.initThread p stk).thread (.heap p)).isSome := by
  simp [initThread]

theorem thread_initThread_of_ne {stk : ℕ} (h : u ≠ .heap p) :
    (s.initThread p stk).thread u = s.thread u := Function.update_of_ne h ..

/-- The two blocks of a thread. -/
theorem Granted.bare {s₁ s₂ : System} {q : ℕ} (hs : s.Ok) (h : Granted s s₁ sizeofThread p)
    (h' : Granted s₁ s₂ kstackSize q)
    (hheap : s₂.client.heap = ((s.client.heap.kmalloc sizeofThread).1.kmalloc kstackSize).1) :
    Bare s (s₂.initThread p q) p where
  ok := by
    refine ⟨h'.ok.ledger, fun r hr => ?_⟩
    show r ∈ s₂.client.live.map Grant.ptr
    by_cases hrp : r = p
    · rw [hrp, h'.live, h.live]
      exact List.mem_cons_of_mem _ List.mem_cons_self
    · rw [thread_initThread_of_ne fun heq => hrp (Tid.heap.inj heq)] at hr
      exact h'.ok.thread r hr
  fresh := h.thread_eq_none hs
  heap := hheap
  rest := by
    rw [h'.eq, h.eq]
    simp [initThread]
  live := by
    show s₂.client.live = _
    rw [h'.live, h.live]
    simp [System.get, initThread]
  pid := by
    rw [h'.eq, h.eq]
    simp [System.get, initThread]

/-- The struct is freed again. -/
theorem Granted.undone {s₁ s₂ : System} (hs : s.Ok) (h : Granted s s₁ sizeofThread p)
    (hok : s₂.Ok) (heq : s₂ = { s₁ with client := s₂.client })
    (hlive : s₂.client.live = s₁.client.live) :
    (s₂.kfreeThread p).Ledger ∧ Undone s (s₂.kfreeThread p) := by
  have hmem : p ∈ s₂.client.live.map Grant.ptr := by
    rw [hlive, h.live]
    exact List.mem_cons_self
  have hledger := (hok.kfreeThread hmem).ledger
  refine ⟨hledger, hledger.undone (live_kfree (hlive.trans h.live)) ?_⟩
  have hthread : Function.update s.thread (.heap p) none = s.thread := by
    rw [← h.thread_eq_none hs, Function.update_eq_self]
  rw [heq, h.eq]
  simp [System.kfreeThread, System.kfree, hthread]

/-- **`thread_alloc_bare`.** -/
theorem Ok.threadAllocBare_cases (h : s.Ok) :
    (s.threadAllocBare.2 = 0 ∧ s.threadAllocBare.1.Ledger ∧ Undone s s.threadAllocBare.1 ∧
      ∀ total, ¬ HasRoom s.client.heap total) ∨
    (s.threadAllocBare.2 ≠ 0 ∧ Bare s s.threadAllocBare.1 s.threadAllocBare.2 ∧
      ∀ total, HasRoom s.client.heap total ↔
        (s.threadAllocBare.1.client.heap.kmalloc total.toNat).2 ≠ 0) := by
  unfold threadAllocBare
  dsimp only
  by_cases ht : (s.kmalloc sizeofThread).2 = 0
  · rw [if_pos ht]
    have hledger := (h.kmalloc_ok sizeofThread).ledger
    exact Or.inl ⟨rfl, hledger, hledger.undone (kmalloc_null ht) rfl, fun _ hr => hr.1 ht⟩
  have hg := h.kmalloc_granted ht
  rw [if_neg ht]
  by_cases hstk : ((s.kmalloc sizeofThread).1.kmalloc kstackSize).2 = 0
  · rw [if_pos hstk]
    obtain ⟨hledger, hundone⟩ := hg.undone h (hg.ok.kmalloc_ok kstackSize) rfl
      (kmalloc_null hstk)
    exact Or.inl ⟨rfl, hledger, hundone, fun _ hr => hr.2.1 hstk⟩
  · rw [if_neg hstk]
    exact Or.inr ⟨ht, hg.bare h (hg.ok.kmalloc_granted hstk) rfl,
      fun total => ⟨fun hr => hr.2.2, fun hr => ⟨ht, hstk, hr⟩⟩⟩

/-- A field that is not written. -/
theorem get_modify_of {β : Type*} (g : Thread → β) (hf : ∀ x, g (f x) = g x) :
    g ((s.modify t f).get u) = g (s.get u) := by
  unfold System.get
  rw [thread_modify]
  split_ifs
  · cases s.thread u with
    | none => rfl
    | some x => exact hf x
  · rfl

theorem Ledger.kfreeThread (h : s.Ledger) (hp : p ∈ s.client.live.map Grant.ptr) :
    (s.kfreeThread p).Ledger := h.kfree hp

/-- The struct and the kernel stack are freed again. -/
theorem Bare.undone {s₁ s₂ : System} (h : Bare s s₁ p) (hledger : s₂.Ledger)
    (hlive : s₂.client.live = s₁.client.live)
    (hstk : (s₂.get (.heap p)).kstackBase = (s₁.get (.heap p)).kstackBase)
    (hrest : s₂ = { s₁ with
      client := s₂.client
      thread := Function.update s₁.thread (.heap p) (s₂.thread (.heap p)) }) :
    ((s₂.kfree (s₂.get (.heap p)).kstackBase).kfreeThread p).Ledger ∧
      Undone s ((s₂.kfree (s₂.get (.heap p)).kstackBase).kfreeThread p) := by
  have hhead := hlive.trans h.live
  rw [← hstk] at hhead
  have hmem : (s₂.get (.heap p)).kstackBase ∈ s₂.client.live.map Grant.ptr := by
    rw [hhead]
    exact List.mem_cons_self
  have hafter := live_kfree hhead
  have hmem' : p ∈ (s₂.kfree (s₂.get (.heap p)).kstackBase).client.live.map Grant.ptr := by
    rw [hafter]
    exact List.mem_cons_self
  have hfinal := (hledger.kfree hmem).kfreeThread hmem'
  refine ⟨hfinal, hfinal.undone (live_kfree hafter) ?_⟩
  have hthread : Function.update s.thread (.heap p) none = s.thread := by
    rw [← h.fresh, Function.update_eq_self]
  generalize (s₂.get (.heap p)).kstackBase = q
  rw [hrest, h.rest]
  simp [System.kfreeThread, System.kfree, hthread]

/-- The image of a new thread. -/
structure Imaged (s s' : System) (p b n : ℕ) : Prop where
  ok : s'.Ok
  live : s'.client.live = ⟨b, n⟩ :: s.client.live
  pid : (s'.get (.heap p)).pid = (s.get (.heap p)).pid

/-- **The image of a new thread**, or everything is taken back. -/
theorem Bare.allocImage_cases {s₁ : System} (h : Bare s s₁ p) (size total : Word) :
    ((s₁.allocImage p size total).2 = 0 ∧ (s₁.client.heap.kmalloc total.toNat).2 = 0 ∧
      (s₁.allocImage p size total).1.Ledger ∧ Undone s (s₁.allocImage p size total).1) ∨
    ((s₁.allocImage p size total).2 ≠ 0 ∧ (s₁.client.heap.kmalloc total.toNat).2 ≠ 0 ∧
      Imaged s₁ (s₁.allocImage p size total).1 p (s₁.allocImage p size total).2 total.toNat) := by
  unfold allocImage
  dsimp only
  set s₂ := s₁.modify (.heap p) fun x => { x with imageSize := size, totalSize := total } with hs₂
  have hok : s₂.Ok := h.ok.modify
  have hheap : (s₂.kmalloc total.toNat).2 = (s₁.client.heap.kmalloc total.toNat).2 := rfl
  by_cases hb : (s₂.kmalloc total.toNat).2 = 0
  · rw [if_pos hb]
    refine Or.inl ⟨rfl, hheap ▸ hb, h.undone (hok.kmalloc_ok _).modify.ledger ?_ ?_ ?_⟩
    · exact (kmalloc_null hb).trans rfl
    · refine (get_modify_of Thread.kstackBase ?_).trans (get_modify_of Thread.kstackBase ?_)
      all_goals exact fun _ => rfl
    · simp [hs₂, System.modify, System.kmalloc]
  · rw [if_neg hb]
    have hg := hok.kmalloc_granted hb
    refine Or.inr ⟨hb, hheap ▸ hb, hg.ok.modify, hg.live, ?_⟩
    refine (get_modify_of Thread.pid ?_).trans (get_modify_of Thread.pid ?_)
    all_goals exact fun _ => rfl

/-! ## The functions -/

theorem Ok.threadEnqueueReady (h : s.Ok) : (s.threadEnqueueReady t).Ok := h.modify.enqueue

theorem Ok.plantFrame (h : s.Ok) {tf : TrapFrame} : (s.plantFrame t tf).Ok :=
  Ok.modify (h.congr rfl fun _ hp => hp)

@[simp] theorem client_linkParent : (s.linkParent t).client = s.client := by
  unfold System.linkParent
  split <;> rfl

theorem pid_linkParent : ((s.linkParent t).get u).pid = (s.get u).pid := by
  unfold System.linkParent
  split
  · rfl
  · refine get_modify_of Thread.pid ?_
    exact fun _ => rfl

/-- **`thread_create`.** -/
theorem Ok.threadCreate_cases (h : s.Ok) (fn : Word) :
    ((s.threadCreate fn).2 = 0 ∧ (s.threadCreate fn).1.Ledger ∧ Undone s (s.threadCreate fn).1) ∨
      ((s.threadCreate fn).2 ≠ 0 ∧ (s.threadCreate fn).1.Ok) := by
  unfold threadCreate
  dsimp only
  rcases h.threadAllocBare_cases with ⟨hnull, hledger, hundone, -⟩ | ⟨hne, hbare, -⟩
  · rw [if_pos hnull]
    exact Or.inl ⟨rfl, hledger, hundone⟩
  · rw [if_neg hne]
    exact Or.inr ⟨hne, hbare.ok.modify.linkParent.enqueue⟩

/-- **`thread_spawn_user`.** -/
theorem Ok.threadSpawnUser_cases (h : s.Ok) (file : Option Word) (sstatus : Word) :
    ((s.threadSpawnUser file sstatus).2 = 0 ∧ (s.threadSpawnUser file sstatus).1.Ledger ∧
      Undone s (s.threadSpawnUser file sstatus).1) ∨
    ((s.threadSpawnUser file sstatus).2 ≠ 0 ∧ (s.threadSpawnUser file sstatus).1.Ok) := by
  unfold threadSpawnUser
  cases file with
  | none => exact Or.inl ⟨rfl, h.ledger, h.undone_refl⟩
  | some sz =>
    dsimp only
    rcases h.threadAllocBare_cases with ⟨hnull, hledger, hundone, -⟩ | ⟨hne, hbare, -⟩
    · rw [if_pos hnull]
      exact Or.inl ⟨rfl, hledger, hundone⟩
    rw [if_neg hne]
    generalize sz + userStackSize = total
    rcases hbare.allocImage_cases sz total with
      ⟨hnull, -, hledger, hundone⟩ | ⟨hne', -, himage⟩
    · rw [if_pos hnull]
      exact Or.inl ⟨rfl, hledger, hundone⟩
    · rw [if_neg hne']
      refine Or.inr ⟨hne, (Ok.linkParent ?_).threadEnqueueReady⟩
      exact himage.ok.plantFrame.congr rfl fun _ hp => hp

theorem Private.modify (h : s.Private p) : (s.modify t f).Private p := by
  obtain ⟨hlive, hnone⟩ := h
  refine ⟨hlive, ?_⟩
  rw [Option.isNone_iff_eq_none] at hnone ⊢
  rw [thread_modify, hnone]
  split_ifs <;> rfl

theorem Private.kfree {q : ℕ} (h : s.Private p) (hne : p ≠ q) : (s.kfree q).Private p :=
  ⟨mem_live_kfree h.1 hne, h.2⟩

theorem Granted.private {q : ℕ} (h : Granted s s' n q) (hp : s.Private p) : s'.Private p := by
  refine ⟨?_, h.thread.symm ▸ hp.2⟩
  rw [h.live]
  exact List.mem_cons_of_mem _ hp.1

theorem Ok.signalRelease (h : s.Ok) (hp : (s.get t).sig.sigstackBase ≠ 0 →
    s.Private (s.get t).sig.sigstackBase.toNat) : (s.signalRelease t).Ok := by
  refine Ok.modify ?_
  split_ifs with hnull
  · exact h
  · exact h.kfree (hp hnull)

/-- `sys_exec` fails before it changes anything. -/
theorem Ok.sysExec_cases (h : s.Ok) (file : Option Word) (tf : Word) :
    ((s.sysExec file tf).2 = -1 ∧ (s.sysExec file tf).1.Ledger ∧ Undone s (s.sysExec file tf).1) ∨
      ((s.sysExec file tf).2 = 0 ∧ (s.ExecFrees → (s.sysExec file tf).1.Ok)) := by
  unfold sysExec
  dsimp only
  by_cases himage : (s.get s.current).imageBase = 0
  · rw [if_pos himage]
    exact Or.inl ⟨rfl, h.ledger, h.undone_refl⟩
  rw [if_neg himage]
  cases file with
  | none => exact Or.inl ⟨rfl, h.ledger, h.undone_refl⟩
  | some sz =>
    dsimp only
    generalize sz + userStackSize = total
    by_cases hb : (s.kmalloc total.toNat).2 = 0
    · rw [if_pos hb]
      have hledger := (h.kmalloc_ok total.toNat).ledger
      exact Or.inl ⟨rfl, hledger, hledger.undone (kmalloc_null hb) rfl⟩
    · rw [if_neg hb]
      refine Or.inr ⟨rfl, fun hfrees => ?_⟩
      obtain ⟨hold, hstack⟩ := hfrees himage
      have hg := h.kmalloc_granted hb
      set s₂ := (s.kmalloc total.toNat).1.modify s.current fun x =>
        { x with imageBase := (s.kmalloc total.toNat).2, imageSize := sz, totalSize := total }
        with hs₂
      have hok : (s₂.kfree (s.get s.current).imageBase).Ok :=
        hg.ok.modify.kfree (hg.private hold).modify
      refine Ok.congr (hok.modify.signalRelease fun hne => ?_) rfl fun _ hp => hp
      -- the signal stack is the one that the process had before
      have hsig : ((((s₂.kfree (s.get s.current).imageBase)).modify s.current fun x =>
          { x with sig := { x.sig with handlers := fun _ => Process.sigDfl, pending := 0 } }).get
            s.current).sig.sigstackBase = (s.get s.current).sig.sigstackBase := by
        refine (get_modify_of (fun x => x.sig.sigstackBase) ?_).trans ?_
        · exact fun _ => rfl
        · refine get_modify_of (fun x => x.sig.sigstackBase) ?_
          exact fun _ => rfl
      rw [hsig] at hne ⊢
      obtain ⟨hprivate, hapart⟩ := hstack hne
      exact ((hg.private hprivate).modify.kfree hapart).modify

/-- **`sys_fork`.**  It fails and everything is as before, or a child is made and its pid returned,
whatever it is. -/
theorem Ok.sysFork_cases (h : s.Ok) (tf : Word) :
    ((s.sysFork tf).2 = -1 ∧ (s.sysFork tf).1.Ledger ∧ Undone s (s.sysFork tf).1 ∧
      ¬ ((s.get s.current).imageBase ≠ 0 ∧
        HasRoom s.client.heap (s.get s.current).totalSize)) ∨
    ((s.sysFork tf).2 = s.gNextTid.signExtend 64 ∧ (s.sysFork tf).1.Ok ∧
      s.client.live.length < (s.sysFork tf).1.client.live.length ∧
      (s.get s.current).imageBase ≠ 0 ∧ HasRoom s.client.heap (s.get s.current).totalSize) := by
  unfold sysFork
  dsimp only
  by_cases himage : (s.get s.current).imageBase = 0
  · rw [if_pos himage]
    exact Or.inl ⟨rfl, h.ledger, h.undone_refl, fun hc => hc.1 himage⟩
  rw [if_neg himage]
  rcases h.threadAllocBare_cases with ⟨hnull, hledger, hundone, hroom⟩ | ⟨hne, hbare, hroom⟩
  · rw [if_pos hnull]
    exact Or.inl ⟨rfl, hledger, hundone, fun hc => hroom _ hc.2⟩
  rw [if_neg hne]
  rcases hbare.allocImage_cases (s.get s.current).imageSize (s.get s.current).totalSize with
    ⟨hnull, hheap, hledger, hundone⟩ | ⟨hne', hheap, hchild⟩
  · rw [if_pos hnull]
    exact Or.inl ⟨rfl, hledger, hundone, fun hc => (hroom _).mp hc.2 hheap⟩
  · rw [if_neg hne']
    refine Or.inr ⟨?_, ?_, ?_, himage, (hroom _).mpr hheap⟩
    · have hpid := hchild.pid.trans hbare.pid
      refine congrArg (BitVec.signExtend 64) (Eq.trans ?_ hpid)
      refine (get_modify_of Thread.pid fun _ => ?_).trans (pid_linkParent.trans ?_)
      · rfl
      refine (get_modify_of Thread.pid fun _ => ?_).trans
        ((get_modify_of Thread.pid fun _ => ?_).trans (get_modify_of Thread.pid fun _ => ?_))
      all_goals rfl
    · exact hchild.ok.plantFrame.modify.modify.linkParent.threadEnqueueReady
    · show _ < (System.linkParent _ _).client.live.length
      rw [client_linkParent]
      show _ < (System.allocImage _ _ _ _).1.client.live.length
      rw [hchild.live, hbare.live]
      simp only [List.length_cons]
      omega

/-! ## Runs -/

theorem Ok.step {a : Label} (h : s.Ok) (hs : s.step a = some s') : s'.Ok := by
  cases a with
  | threadCreate fn =>
    obtain rfl := Option.some.inj hs
    rcases h.threadCreate_cases fn with ⟨-, hledger, hundone⟩ | ⟨-, hok⟩
    · exact hundone.ok h hledger
    · exact hok
  | threadSpawnUser file sstatus =>
    obtain rfl := Option.some.inj hs
    rcases h.threadSpawnUser_cases file sstatus with ⟨-, hledger, hundone⟩ | ⟨-, hok⟩
    · exact hundone.ok h hledger
    · exact hok
  | sysExec file tf =>
    rw [System.step] at hs
    split_ifs at hs with hfrees
    obtain rfl := Option.some.inj hs
    rcases h.sysExec_cases file tf with ⟨-, hledger, hundone⟩ | ⟨-, hok⟩
    · exact hundone.ok h hledger
    · exact hok hfrees
  | sysFork tf =>
    obtain rfl := Option.some.inj hs
    rcases h.sysFork_cases tf with ⟨-, hledger, hundone, -⟩ | ⟨-, hok, -⟩
    · exact hundone.ok h hledger
    · exact hok
  | heap c =>
    cases c with
    | kmalloc n =>
      obtain rfl := Option.some.inj (show some (s.kmalloc n).1 = some s' from hs)
      exact h.kmalloc_ok n
    | kfree g =>
      rw [System.step] at hs
      split_ifs at hs with hnone
      obtain ⟨c', hc, rfl⟩ := Option.map_eq_some_iff.mp hs
      have hg : g ∈ s.client.live := by
        rw [HeapClient.step] at hc
        split_ifs at hc with hg
        exact hg
      rw [h.ledger.kfree_step hg] at hc
      obtain rfl := Option.some.inj hc
      exact h.kfree ⟨List.mem_map_of_mem hg, hnone⟩
    | write g addr value =>
      obtain ⟨c', hc, rfl⟩ := Option.map_eq_some_iff.mp
        (show (s.client.step (.write g addr value)).map _ = some s' from hs)
      obtain ⟨fl, hfl⟩ := h.ledger
      refine ⟨(hfl.step hc).imp fun _ h => h.1, fun p hp => ?_⟩
      rw [HeapClient.step] at hc
      split_ifs at hc
      obtain rfl := Option.some.inj hc
      exact h.thread p hp
  | freeThread p =>
    rw [System.step] at hs
    split_ifs at hs with hp
    obtain rfl := Option.some.inj hs
    exact h.kfreeThread hp
  | other f runq frame current =>
    obtain rfl := Option.some.inj hs
    exact h.congr rfl fun p hp => by simpa using hp

/-- The state in which `main` calls `sched_init`: `x` is `g_bootstrap`. -/
def boot (client : HeapClient) (x : Thread) (addr : Word) : System where
  client := client
  thread := fun
    | .bootstrap => some x
    | .heap _ => none
  gRunq := []
  frame := fun _ => .zero
  gUserBase := 0
  gNextTid := 1
  current := .bootstrap
  bootstrapAddr := addr

/-- **Whole runs.**  Whatever the order of the calls, the heap keeps its ledger and every thread is
held. -/
theorem ok_of_reachable (fa : ℕ → ℤ) {base size : ℕ} (hbase : pageSize ∣ base)
    (hend : base + size ≤ 2 ^ 64) (reserves : List (ℕ × ℕ)) (pools : ℕ → Pool)
    (table : ℕ → ℤ) (mem : ℕ → ℕ) (x : Thread) (addr : Word)
    (hs : Transition.Reachable step Transition.anyStep
      (boot (bootHeap fa base size reserves pools table mem) x addr) s) : s.Ok := by
  refine hs.invariant ⟨⟨_, ok_bootHeap fa hbase hend reserves pools table mem⟩, ?_⟩
    fun s a s' h _ hstep => h.step hstep
  exact fun p hp => absurd hp Bool.false_ne_true

/-! ## Failures -/

/-- A call that fails has done nothing. -/
structure FailsAtomically (s : System) : Prop where
  threadAllocBare : s.threadAllocBare.2 = 0 → Undone s s.threadAllocBare.1
  threadCreate : ∀ fn, (s.threadCreate fn).2 = 0 → Undone s (s.threadCreate fn).1
  threadSpawnUser : ∀ file sstatus, (s.threadSpawnUser file sstatus).2 = 0 →
    Undone s (s.threadSpawnUser file sstatus).1
  sysExec : ∀ file tf, (s.sysExec file tf).2 = -1 → Undone s (s.sysExec file tf).1
  sysFork : ∀ tf, (s.sysFork tf).2 = -1 → Undone s (s.sysFork tf).1

/-- The current process can fork, and the pid of the child is the result of a failure. -/
def ForksMinusOne (s : System) : Prop :=
  s.gNextTid = -1 ∧ (s.get s.current).imageBase ≠ 0 ∧
    HasRoom s.client.heap (s.get s.current).totalSize

theorem signExtend_eq_neg_one {x : BitVec 32} : x.signExtend 64 = -1 ↔ x = -1 := by
  constructor
  · intro h
    have hint := congrArg BitVec.toInt h
    rw [BitVec.toInt_signExtend_of_le (by decide)] at hint
    exact BitVec.eq_of_toInt_eq hint
  · rintro rfl
    decide

/-- **A call that fails leaves no trace**, in every state of the heap and of the threads; the
exception is a call of `sys_fork` that has not failed.  No trace means that the same blocks are
held, that the heap keeps its contract, and that nothing outside it differs but `g_next_tid`. -/
theorem failsAtomically_iff (h : s.Ok) : s.FailsAtomically ↔ ¬ s.ForksMinusOne := by
  constructor
  · rintro hall ⟨htid, himage, hroom⟩
    rcases h.sysFork_cases 0 with ⟨-, -, -, hno⟩ | ⟨hpid, -, hlive, -⟩
    · exact hno ⟨himage, hroom⟩
    · rw [htid] at hpid
      have hundone := hall.sysFork 0 (hpid.trans (signExtend_eq_neg_one.mpr rfl))
      rw [hundone.live] at hlive
      exact hlive.false
  · intro hno
    refine ⟨fun hnull => ?_, fun fn hnull => ?_, fun file sstatus hnull => ?_,
      fun file tf hnull => ?_,
      fun tf hnull => ?_⟩
    · rcases h.threadAllocBare_cases with ⟨-, -, hundone, -⟩ | ⟨hne, -⟩
      · exact hundone
      · exact absurd hnull hne
    · rcases h.threadCreate_cases fn with ⟨-, -, hundone⟩ | ⟨hne, -⟩
      · exact hundone
      · exact absurd hnull hne
    · rcases h.threadSpawnUser_cases file sstatus with ⟨-, -, hundone⟩ | ⟨hne, -⟩
      · exact hundone
      · exact absurd hnull hne
    · rcases h.sysExec_cases file tf with ⟨-, -, hundone⟩ | ⟨hzero, -⟩
      · exact hundone
      · exact absurd (hzero.symm.trans hnull) (by decide)
    · rcases h.sysFork_cases tf with ⟨-, -, hundone, -⟩ | ⟨hpid, -, -, himage, hroom⟩
      · exact hundone
      · exact absurd ⟨signExtend_eq_neg_one.mp (hpid.symm.trans hnull), himage, hroom⟩ hno

/-! ## A process that forks -/

/-- 64 free pages at `0x80000000`, after `buddy_init`. -/
def smallBuddy : Buddy := reservedBuddy (fun _ => 0) 0x80000000 0x40000 []

/-- They are one block of the buddy allocator. -/
theorem buddyBuildFreeLists_smallBuddy :
    smallBuddy.buddyBuildFreeLists = smallBuddy.blockPush 0 6 := by
  have horder : smallBuddy.buildOrder 0 maxOrder = 6 := by decide +kernel
  show Buddy.buildLoop (63 + 1) smallBuddy 0 = _
  rw [Buddy.buildLoop, if_pos (by decide), if_neg (by decide)]
  dsimp only
  rw [horder]
  show Buddy.buildLoop (62 + 1) _ _ = _
  rw [Buddy.buildLoop, if_neg (by decide)]

/-- The heap on these pages. -/
def smallHeap : HeapClient :=
  ⟨(Heap.mk (smallBuddy.blockPush 0 6) (fun _ => ⟨0, 0⟩) (fun _ => 0) fun _ => 0).kmallocInit 64,
    [], []⟩

theorem ok_smallHeap : smallHeap.Ok (fun _ => []) fun _ => [] := by
  have h := @ok_bootHeap (fun _ => 0) 0x80000000 0x40000 (by decide) (by decide) []
    (fun _ => ⟨0, 0⟩) (fun _ => 0) fun _ => 0
  unfold bootHeap at h
  rw [show reservedBuddy (fun _ => 0) 0x80000000 0x40000 [] = smallBuddy from rfl,
    buddyBuildFreeLists_smallBuddy] at h
  exact h

/-- The shell has spawned a process from a file of 16 bytes, which runs; `n` is `g_next_tid`. -/
def forker (n : BitVec 32) : System :=
  let r := (boot smallHeap .zero 0).threadSpawnUser (some 16) 0
  { r.1 with current := .heap r.2, gNextTid := n }

theorem ok_forker (n : BitVec 32) : (forker n).Ok := by
  have hboot : (boot smallHeap .zero 0).Ok :=
    ⟨⟨_, ok_smallHeap⟩, fun _ hp => absurd hp Bool.false_ne_true⟩
  have hspawn : ((boot smallHeap .zero 0).threadSpawnUser (some 16) 0).1.Ok :=
    hboot.step (show step _ (.threadSpawnUser (some 16) 0) = some _ from rfl)
  unfold forker
  generalize (boot smallHeap .zero 0).threadSpawnUser (some 16) 0 = r at hspawn ⊢
  exact hspawn.congr rfl fun _ hp => hp

theorem failsAtomically_of_forker : (forker 2).FailsAtomically :=
  (failsAtomically_iff (ok_forker 2)).mpr fun h => absurd h.1 (by decide)

/-- **The number wraps.**  After `2 ^ 32 - 2` threads, also such as were taken back, `sys_fork`
makes a child and returns `-1`. -/
theorem trace_of_wrapped : (forker (-1)).Ok ∧ ¬ (forker (-1)).FailsAtomically := by
  refine ⟨ok_forker (-1), fun hall => ?_⟩
  have hroom : HasRoom (forker (-1)).client.heap
      ((forker (-1)).get (forker (-1)).current).totalSize := by
    unfold HasRoom
    decide +kernel
  rcases (ok_forker (-1)).sysFork_cases 0 with ⟨-, -, -, hno⟩ | ⟨hpid, -, hlive, -⟩
  · exact hno ⟨by decide +kernel, hroom⟩
  · have hundone := hall.sysFork 0 (hpid.trans (by decide))
    rw [hundone.live] at hlive
    exact hlive.false

end System
end Creation
end OscKernel
