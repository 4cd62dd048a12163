import OscKernel.Trap.Switch
import OscKernel.Lib.Transition
import Mathlib.Tactic.SplitIfs

/-!
# Threads on one hart (`sched.c`, `switch.S`, `trap_entry.S`)

What the trap vector and `switch_to` are for: every thread runs as on a hart of its own.  `Threads`
says that.  It has no memory: a thread has the registers that it was interrupted with and those that
it gave up in `switch_to`, and nothing that another thread does reaches them.  Below it is the hart,
where all of this lies in trap frames on kernel stacks and in the records of the threads, and the
instructions of the two files bring it back from there.

A return is one event, from the return of `trap_handler` to `sret`, and so is a call of `switch_to`:
no trap falls inside.  Nor does one fall inside the entry sequence, where the hardware has cleared
`SIE`.  For a return that is so when `trap_handler` returns with `SIE` clear (`Masked`), which the
source does not ensure; with `SIE` set a trap can fall between the two writes of `sepc` and
`sstatus`, and its return undoes the first.  `switch_to` is called with `SIE` as its caller had it,
so the runs here are those in which no interrupt arrives in the middle of it.

A program in U-mode may write any register.  When it writes `tp`, the kernel finds another thread
there, or none, and nothing is said about the rest of the run; C code and programs leave alone what
the kernel keeps of the threads (`Protected`).  All of this is part of the guard `Allowed`.

* `Threads.step`: what the threads do, each for itself.
* `runHart`: the same on the hart.
* `Refines`: what the registers and the memory of the hart mean.
-/

namespace OscKernel
namespace Trap

open Rv64 Transition

/-! ## The threads -/

/-- An interrupted context. -/
structure Context where
  x : Reg → Word
  pc : Word
  sstatus : Word

/-- A part of a kernel stack. -/
inductive KFrame where
  /-- The frames of C functions. -/
  | calls (bytes : ℕ)
  /-- A `struct trap_frame`. -/
  | trap (path : Path) (ctx : Context)

/-- How many bytes of the kernel stack the part has. -/
def KFrame.size : KFrame → ℕ
  | .calls bytes => bytes
  | .trap _ _ => tfSize

/-- How much of a kernel stack is in use. -/
def depth : List KFrame → ℕ
  | [] => 0
  | f :: fs => f.size + depth fs

/-- A thread: where its record and its kernel stack are, what is on the stack, the innermost first,
and the registers that it gave up in `switch_to`. -/
structure Kthread where
  record : ℕ
  kstackBase : ℕ
  kstackSize : ℕ
  frames : List KFrame
  kept : Reg → Word

namespace Kthread

variable (i : Kthread)

/-- The end of the kernel stack. -/
def top : ℕ := i.kstackBase + i.kstackSize

/-- The stack pointer when the stack holds `fs`. -/
def spAt (fs : List KFrame) : Word := BitVec.ofNat 64 (i.top - depth fs)

/-- The address of the `struct thread`. -/
def pointer : Word := BitVec.ofNat 64 i.record

/-- `struct thread_ctx` and the kernel stack. -/
def area : Set ℕ :=
  {a | i.record ≤ a ∧ a < i.record + ctxSize ∨ i.kstackBase ≤ a ∧ a < i.top}

/-- The trap frames. -/
def spans : List KFrame → Set ℕ
  | [] => ∅
  | .calls _ :: fs => spans fs
  | .trap _ _ :: fs => {a | i.top - (tfSize + depth fs) ≤ a ∧ a < i.top - depth fs} ∪ spans fs

end Kthread

/-- The threads and the context that is running, `current` in U-mode or in the kernel. -/
structure Threads where
  thread : ℕ → Option Kthread
  current : ℕ
  x : Reg → Word
  pc : Word
  priv : Priv
  sstatus : Word

/-- What happens next.  Where code runs that is not modelled, the event says what it leaves in the
registers and in memory; no trap is taken within an event. -/
inductive ThreadEvent where
  /-- A program in U-mode. -/
  | user (x : Reg → Word) (pc : Word) (mem : Word → Word)
  /-- C code of the kernel. -/
  | kernel (x : Reg → Word) (pc sstatus : Word) (mem : Word → Word)
  /-- A C function makes its frame. -/
  | call (bytes : ℕ)
  /-- A C function drops its frame. -/
  | leave
  /-- A trap, up to the call of `trap_handler`. -/
  | trap (stvec cause tval : Word)
  /-- `trap_handler` returns, and the return sequence is executed up to `sret`, without a trap in
  between. -/
  | ret
  /-- `switch_to(current, next)`, called with the return address `ra`, without a trap in between. -/
  | switchTo (next : ℕ) (ra : Word)
  /-- The trap frame of the program is rewritten: the result of a system call, `sys_exec`, the
  delivery of a signal and the return from its handler. -/
  | rewrite (ctx : Context)
  /-- A new thread that starts at `ra`.  That of a program has a trap frame (`thread_spawn_user`,
  `sys_fork`), another has none (`thread_create`). -/
  | create (t : ℕ) (record kstackBase kstackSize : ℕ) (ra : Word) (ctx : Option Context)
  /-- A thread is freed. -/
  | reap (t : ℕ)

namespace Threads

/-- Where the frame of a trap goes: at the end of the kernel stack, or below what is in use. -/
def frameAt (i : Kthread) : Word := BitVec.ofNat 64 (i.top - (tfSize + depth i.frames))

/-- The registers that `trap_handler` is called with. -/
def entryRegs (s : Threads) (i : Kthread) (cause tval : Word) : Reg → Word := fun r =>
  if r = sp ∨ r = a0 then frameAt i
  else if r = t0 then s.pc
  else if r = t1 then trapStatus s.sstatus s.priv
  else if r = t2 then cause
  else if r = t3 then tval
  else s.x r

/-- Change the record of the current thread. -/
def setFrames (s : Threads) (i : Kthread) (fs : List KFrame) : ℕ → Option Kthread :=
  Function.update s.thread s.current (some { i with frames := fs })

/-- The half of the trap vector for traps from `p`. -/
def pathOf : Priv → Path
  | .user => .user
  | .supervisor => .kernel

/-- The registers of a context after the return to it: `t0` ends with the `sp` of a program. -/
def returnRegs (path : Path) (ctx : Context) : Reg → Word :=
  match path with
  | .user => Function.update ctx.x t0 (ctx.x sp)
  | .kernel => ctx.x

theorem returnRegs_t0 (ctx : Context) : returnRegs .user ctx t0 = ctx.x sp := by
  unfold returnRegs
  exact Function.update_self ..

theorem returnRegs_of_ne (ctx : Context) {r : Reg} (h : r ≠ t0) :
    returnRegs .user ctx r = ctx.x r := by
  unfold returnRegs
  exact Function.update_of_ne h ..

/-- The registers after `switch_to` to `j`, called with the registers `x`. -/
def switchRegs (j : Kthread) (x : Reg → Word) : Reg → Word := fun r =>
  if r ∈ ctxSlots.map Prod.fst then j.kept r else if r = tp then j.pointer else x r

theorem switchRegs_ra (j : Kthread) (x : Reg → Word) : switchRegs j x ra = j.kept ra :=
  if_pos (by decide)

theorem switchRegs_sp (j : Kthread) (x : Reg → Word) : switchRegs j x sp = j.kept sp :=
  if_pos (by decide)

theorem switchRegs_tp (j : Kthread) (x : Reg → Word) : switchRegs j x tp = j.pointer := by
  unfold switchRegs
  rw [if_neg (by decide), if_pos rfl]

/-- The frames with the outermost one, that of the program, rewritten. -/
def rewritten (ctx : Context) : List KFrame → Option (List KFrame)
  | [] => none
  | [.trap .user _] => some [.trap .user ctx]
  | f :: fs => (rewritten ctx fs).map (f :: ·)

/-- A thread that starts at `ret`, with the frame of a program or without. -/
def newThread (record kstackBase kstackSize : ℕ) (ret : Word) (ctx : Option Context) : Kthread :=
  let fs := ctx.toList.map (KFrame.trap .user)
  { record := record, kstackBase := kstackBase, kstackSize := kstackSize, frames := fs
    kept := fun r => if r = ra then ret
      else if r = sp then BitVec.ofNat 64 (kstackBase + kstackSize - depth fs) else 0 }

theorem newThread_sp (record kstackBase kstackSize : ℕ) (ret : Word) (ctx : Option Context) :
    let i := newThread record kstackBase kstackSize ret ctx
    i.kept sp = i.spAt i.frames := by
  unfold newThread
  dsimp only
  rw [if_neg (by decide), if_pos rfl]
  rfl

/-- One step.  `none` says that the event does not fit the state: a return without a trap frame on
top of the stack, C code in U-mode, a switch to a thread that does not exist.  `user` and `kernel`
leave the registers as the event says, `tp` and `sp` included. -/
def step (s : Threads) : ThreadEvent → Option Threads
  | .user x pc _ => if s.priv = .user then some { s with x := x, pc := pc } else none
  | .kernel x pc sstatus _ =>
      if s.priv = .supervisor then some { s with x := x, pc := pc, sstatus := sstatus } else none
  | .call bytes =>
      match s.thread s.current, s.priv with
      | some i, .supervisor =>
          some { s with thread := s.setFrames i (.calls bytes :: i.frames),
                        x := Function.update s.x sp (i.spAt (.calls bytes :: i.frames)) }
      | _, _ => none
  | .leave =>
      match s.thread s.current, s.priv with
      | some i, .supervisor =>
          match i.frames with
          | .calls _ :: fs =>
              some { s with thread := s.setFrames i fs, x := Function.update s.x sp (i.spAt fs) }
          | _ => none
      | _, _ => none
  | .trap stvec cause tval =>
      match s.thread s.current with
      | some i =>
          let status := trapStatus s.sstatus s.priv
          some { s with
            thread := s.setFrames i (.trap (pathOf s.priv) ⟨s.x, s.pc, status⟩ :: i.frames)
            x := s.entryRegs i cause tval, pc := stvec, priv := .supervisor, sstatus := status }
      | none => none
  | .ret =>
      match s.thread s.current, s.priv with
      | some i, .supervisor =>
          match i.frames with
          | .trap path ctx :: fs =>
              some { s with
                thread := s.setFrames i fs, x := returnRegs path ctx, pc := ctx.pc
                priv := spp ctx.sstatus, sstatus := sretStatus ctx.sstatus }
          | _ => none
      | _, _ => none
  | .switchTo next ret =>
      match s.thread s.current, s.thread next, s.priv with
      | some i, some j, .supervisor =>
          if next = s.current then none
          else
            let x := Function.update (Function.update (Function.update s.x ra ret) a0 i.pointer)
              a1 j.pointer
            some { s with
              thread := Function.update s.thread s.current (some { i with kept := x })
              current := next
              x := switchRegs j x
              pc := j.kept ra }
      | _, _, _ => none
  | .rewrite ctx =>
      match s.thread s.current, s.priv with
      | some i, .supervisor =>
          (rewritten ctx i.frames).map fun fs => { s with thread := s.setFrames i fs }
      | _, _ => none
  | .create t record kstackBase kstackSize ret ctx =>
      match s.thread t, s.priv with
      | none, .supervisor =>
          some { s with thread :=
            Function.update s.thread t (some (newThread record kstackBase kstackSize ret ctx)) }
      | _, _ => none
  | .reap t =>
      if t = s.current ∨ s.priv = .user then none
      else some { s with thread := Function.update s.thread t none }

end Threads

/-! ## The hart -/

/-- What a trap frame has when it keeps a context. -/
def Context.slots (ctx : Context) : List (ℕ × Word) :=
  gprSlots.map (fun s => (s.2, ctx.x s.1)) ++
    [(tfSp, ctx.x sp), (tfSepc, ctx.pc), (tfSstatus, ctx.sstatus)]

/-- Where the trap frame of a program is. -/
def Kthread.userFrame (i : Kthread) : Word := BitVec.ofNat 64 (i.top - tfSize)

/-- Write the record of a new thread and, for a program, its trap frame. -/
def plant (m : Word → Word) (i : Kthread) (ctx : Option Context) : Word → Word :=
  let m := writeSlots m i.pointer (ctxOf i.kept)
  ctx.elim m fun ctx => writeSlots m i.userFrame ctx.slots

/-- `ret`, with the registers of `c`. -/
def jumpRa (h : Hart) (c : Cpu) : Hart := { h with cpu := c, pc := c.get ra }

theorem pc_jumpRa (h : Hart) (c : Cpu) : (jumpRa h c).pc = c.get ra := rfl

/-- One step of the hart.  The threads say where the allocator put them.  The instructions of the
return sequence and of `switch_to` are executed one after the other, without a trap among them;
`Allowed` says when that is so for a return, and for `switch_to` it is a property of the run. -/
def runHart (s : Threads) (h : Hart) : ThreadEvent → Hart
  | .user x pc mem => { h with cpu := { h.cpu with x := x, mem := mem }, pc := pc }
  | .kernel x pc sstatus mem =>
      { h with cpu := { h.cpu.setCsr .sstatus sstatus with x := x, mem := mem }, pc := pc }
  | .call bytes => { h with cpu := exec h.cpu (.addi sp sp (-bytes)) }
  | .leave =>
      match (s.thread s.current).map Kthread.frames with
      | some (.calls bytes :: _) => { h with cpu := exec h.cpu (.addi sp sp bytes) }
      | _ => h
  | .trap stvec cause tval =>
      let t := h.takeTrap stvec cause tval
      { t with cpu := (trapEntry t.cpu).2 }
  | .ret =>
      match (s.thread s.current).map Kthread.frames with
      | some (.trap path _ :: _) => ({ h with cpu := execAll h.cpu (restore path) } : Hart).sret
      | _ => h
  | .switchTo next ret =>
      match s.thread s.current, s.thread next with
      | some i, some j =>
          jumpRa h (execAll (((h.cpu.set ra ret).set a0 i.pointer).set a1 j.pointer) switchTo)
      | _, _ => h
  | .rewrite ctx =>
      match s.thread s.current with
      | some i => { h with cpu := { h.cpu with mem := writeSlots h.cpu.mem i.userFrame ctx.slots } }
      | none => h
  | .create _ record kstackBase kstackSize ret ctx =>
      let i := Threads.newThread record kstackBase kstackSize ret ctx
      { h with cpu := { h.cpu with mem := plant h.cpu.mem i ctx } }
  | .reap _ => h

/-! ## What the hart means -/

/-- On the kernel stack of the thread `pointer` that ends at `top`, the context goes with its path
and with the frames `fs` that it interrupted. -/
def Framed (top : ℕ) (pointer : Word) (path : Path) (ctx : Context) (fs : List KFrame) : Prop :=
  ctx.x tp = pointer ∧
    match path with
    | .user => fs = [] ∧ spp ctx.sstatus = .user
    | .kernel => ctx.x sp = BitVec.ofNat 64 (top - depth fs) ∧ spp ctx.sstatus = .supervisor

/-- The trap frames on this stack keep their contexts. -/
def Held (m : Word → Word) (top : ℕ) (pointer : Word) : List KFrame → Prop
  | [] => True
  | .calls _ :: fs => Held m top pointer fs
  | .trap path ctx :: fs =>
      Holds m (BitVec.ofNat 64 (top - (tfSize + depth fs))) ctx.slots ∧
        Framed top pointer path ctx fs ∧ Held m top pointer fs

namespace Threads

variable (s : Threads)

/-- What the kernel keeps of the threads in memory. -/
def Protected : Set ℕ :=
  {a | ∃ t i, s.thread t = some i ∧
    (a ∈ i.spans i.frames ∨ t ≠ s.current ∧ i.record ≤ a ∧ a < i.record + ctxSize)}

/-- The records and the kernel stacks are apart. -/
structure Placed (thread : ℕ → Option Kthread) : Prop where
  record : ∀ t i, thread t = some i → i.record + ctxSize ≤ 2 ^ 64
  top : ∀ t i, thread t = some i → 0 < i.top ∧ i.top < 2 ^ 64
  own : ∀ t i, thread t = some i → ∀ a, i.record ≤ a → a < i.record + ctxSize →
    ¬ (i.kstackBase ≤ a ∧ a < i.top)
  apart : ∀ t u i j, t ≠ u → thread t = some i → thread u = some j → ∀ a ∈ i.area, a ∉ j.area

/-- A thread that does not run: its record keeps the registers that it gave up, and with them where
its stack ends. -/
def Parked (m : Word → Word) (i : Kthread) : Prop :=
  Holds m i.pointer (ctxOf i.kept) ∧ i.kept sp = i.spAt i.frames

/-- The kernel stack of a thread. -/
def Stacked (m : Word → Word) (i : Kthread) : Prop :=
  Held m i.top i.pointer i.frames ∧ depth i.frames ≤ i.kstackSize

/-- The memory keeps the contexts of the threads. -/
structure Stored (thread : ℕ → Option Kthread) (current : ℕ) (m : Word → Word) : Prop where
  parked : ∀ t i, thread t = some i → t ≠ current → Parked m i
  stacked : ∀ t i, thread t = some i → Stacked m i

/-- The thread that runs: `tp` points to it.  In U-mode its kernel stack is empty and `sscratch` is
the end of it; in the kernel `sp` is where the stack ends and `sscratch` is zero. -/
def Running (sscratch : Word) (i : Kthread) : Prop :=
  s.x tp = i.pointer ∧
    match s.priv with
    | .user => i.frames = [] ∧ sscratch = i.spAt []
    | .supervisor => s.x sp = i.spAt i.frames ∧ sscratch = 0

end Threads

/-- **What the hart means.** -/
structure Refines (s : Threads) (h : Hart) : Prop where
  x : ∀ r, r ≠ 0 → h.cpu.get r = s.x r
  pc : h.pc = s.pc
  priv : h.priv = s.priv
  sstatus : h.cpu.csr .sstatus = s.sstatus
  running : ∃ i, s.thread s.current = some i ∧ s.Running (h.cpu.csr .sscratch) i
  stored : Threads.Stored s.thread s.current h.cpu.mem
  placed : Threads.Placed s.thread

/-! ## Addresses -/

theorem slotAddr_ofNat (p o : ℕ) : slotAddr (BitVec.ofNat 64 p) o = BitVec.ofNat 64 (p + o) := by
  unfold slotAddr
  rw [BitVec.ofNat_add]

theorem ofNat_ne {a b : ℕ} (ha : a < 2 ^ 64) (hb : b < 2 ^ 64) (h : a ≠ b) :
    BitVec.ofNat 64 a ≠ BitVec.ofNat 64 b := fun heq => by
  have hnat := congrArg BitVec.toNat heq
  rw [BitVec.toNat_ofNat, BitVec.toNat_ofNat, Nat.mod_eq_of_lt ha, Nat.mod_eq_of_lt hb] at hnat
  exact h hnat

/-- Writing a record leaves the memory around it alone. -/
theorem writeSlots_outside {m : Word → Word} {p n a : ℕ} {l : List (ℕ × Word)}
    (hl : ∀ e ∈ l, e.1 < n) (hp : p + n ≤ 2 ^ 64) (ha : a < 2 ^ 64) (hout : ¬ (p ≤ a ∧ a < p + n)) :
    writeSlots m (BitVec.ofNat 64 p) l (BitVec.ofNat 64 a) = m (BitVec.ofNat 64 a) :=
  writeSlots_of_notMem fun e he => by
    have hlt := hl e he
    rw [slotAddr_ofNat]
    exact ofNat_ne ha (by omega) (by omega)

theorem Context.slots_lt (ctx : Context) : ∀ e ∈ ctx.slots, e.1 < tfSize := by
  have hoffs : ∀ o ∈ gprSlots.map Prod.snd ++ [tfSp, tfSepc, tfSstatus], o < tfSize := by decide
  intro e he
  refine hoffs e.1 ?_
  have hmem := List.mem_map_of_mem (f := Prod.fst) he
  unfold Context.slots at hmem
  rwa [List.map_append, List.map_map] at hmem

theorem Context.slots_nodup (ctx : Context) : (ctx.slots.map Prod.fst).Nodup := by
  have hoffs : (gprSlots.map Prod.snd ++ [tfSp, tfSepc, tfSstatus]).Nodup := by decide
  unfold Context.slots
  rw [List.map_append, List.map_map]
  exact hoffs

section Frames

variable {m m' : Word → Word} {i : Kthread} {fs : List KFrame}

/-- The trap frames lie in the part of the stack that is in use. -/
theorem Kthread.spans_subset {a : ℕ} (hroom : depth fs ≤ i.kstackSize) (ha : a ∈ i.spans fs) :
    i.top - depth fs ≤ a ∧ i.kstackBase ≤ a ∧ a < i.top := by
  unfold Kthread.top at *
  induction fs with
  | nil => exact absurd ha (Set.notMem_empty a)
  | cons f fs ih =>
    rw [depth] at hroom ⊢
    cases f with
    | calls bytes =>
      have hin := ih (by omega) ha
      exact ⟨by omega, hin.2⟩
    | trap path ctx =>
      rw [KFrame.size] at hroom ⊢
      rcases ha with ⟨hlo, hhi⟩ | ha
      · unfold Kthread.top at hlo hhi
        exact ⟨hlo, by omega, by omega⟩
      · have hin := ih (by omega) ha
        exact ⟨by omega, hin.2⟩

/-- Memory that agrees on the trap frames. -/
theorem Held.congr {pointer : Word} (h : Held m i.top pointer fs) (hroom : depth fs ≤ i.kstackSize)
    (htop : i.top < 2 ^ 64)
    (heq : ∀ a ∈ i.spans fs, m' (BitVec.ofNat 64 a) = m (BitVec.ofNat 64 a)) :
    Held m' i.top pointer fs := by
  induction fs with
  | nil => trivial
  | cons f fs ih =>
    rw [depth] at hroom
    cases f with
    | calls bytes => exact ih h (by omega) heq
    | trap path ctx =>
      rw [KFrame.size] at hroom
      refine ⟨h.1.congr fun e he => ?_, h.2.1, ih h.2.2 (by omega) fun a ha => heq a (Or.inr ha)⟩
      have hlt := ctx.slots_lt e he
      have hsize : i.kstackSize ≤ i.top := Nat.le_add_left _ _
      rw [slotAddr_ofNat]
      exact heq _ (Or.inl ⟨by omega, by omega⟩)

end Frames

/-! ## What keeps the contexts in memory -/

namespace Threads

section Stored

variable {thread thread' : ℕ → Option Kthread} {current : ℕ} {m m' : Word → Word} {i : Kthread}
  {fs : List KFrame}

/-- Memory that agrees on the record of a parked thread. -/
theorem Parked.congr (h : Parked m i)
    (heq : ∀ a, i.record ≤ a → a < i.record + ctxSize →
      m' (BitVec.ofNat 64 a) = m (BitVec.ofNat 64 a)) : Parked m' i := by
  refine ⟨h.1.congr fun e he => ?_, h.2⟩
  have hlt := ctxOf_lt e he
  unfold Kthread.pointer
  rw [slotAddr_ofNat]
  exact heq _ (Nat.le_add_right _ _) (by omega)

theorem Stacked.congr (h : Stacked m i) (htop : i.top < 2 ^ 64)
    (heq : ∀ a ∈ i.spans i.frames, m' (BitVec.ofNat 64 a) = m (BitVec.ofNat 64 a)) :
    Stacked m' i :=
  ⟨h.1.congr h.2 htop heq, h.2⟩

/-- Memory that agrees on the area of a thread. -/
theorem Stacked.congr_area (h : Stacked m i) (htop : i.top < 2 ^ 64)
    (heq : ∀ a ∈ i.area, m' (BitVec.ofNat 64 a) = m (BitVec.ofNat 64 a)) : Stacked m' i :=
  h.congr htop fun a ha => heq a (Or.inr (Kthread.spans_subset h.2 ha).2)

theorem Parked.congr_area (h : Parked m i)
    (heq : ∀ a ∈ i.area, m' (BitVec.ofNat 64 a) = m (BitVec.ofNat 64 a)) : Parked m' i :=
  h.congr fun a hlo hhi => heq a (Or.inl ⟨hlo, hhi⟩)

theorem Placed.area_lt (hp : Placed thread) {u a : ℕ} (hi : thread u = some i) (ha : a ∈ i.area) :
    a < 2 ^ 64 := by
  rcases ha with ⟨-, hlt⟩ | ⟨-, hlt⟩
  · exact Nat.lt_of_lt_of_le hlt (hp.record u i hi)
  · exact hlt.trans (hp.top u i hi).2

/-- The current thread has other frames, and the memory changed in its area only. -/
theorem Stored.setFrames (h : Stored thread current m) (hp : Placed thread)
    (hi : thread current = some i) (hstacked : Stacked m' { i with frames := fs })
    (heq : ∀ a < 2 ^ 64, a ∉ i.area → m' (BitVec.ofNat 64 a) = m (BitVec.ofNat 64 a)) :
    Stored (Function.update thread current (some { i with frames := fs })) current m' := by
  have hagree : ∀ u j, u ≠ current → thread u = some j → ∀ a ∈ j.area,
      m' (BitVec.ofNat 64 a) = m (BitVec.ofNat 64 a) := fun u j hne hu a ha =>
    heq a (hp.area_lt hu ha) (hp.apart u current j i hne hu hi a ha)
  refine ⟨fun u j hu hne => ?_, fun u j hu => ?_⟩
  · rw [Function.update_of_ne hne] at hu
    exact (h.parked u j hu hne).congr_area (hagree u j hne hu)
  · by_cases hne : u = current
    · rw [hne, Function.update_self, Option.some_inj] at hu
      subst hu
      exact hstacked
    · rw [Function.update_of_ne hne] at hu
      exact (h.stacked u j hu).congr_area (hp.top u j hu).2 (hagree u j hne hu)

/-- Where a thread is does not depend on its frames and its registers. -/
theorem Placed.update (hp : Placed thread) (hi : thread current = some i) {i' : Kthread}
    (hrecord : i'.record = i.record) (hbase : i'.kstackBase = i.kstackBase)
    (hsize : i'.kstackSize = i.kstackSize) :
    Placed (Function.update thread current (some i')) := by
  have htop : i'.top = i.top := by
    unfold Kthread.top
    rw [hbase, hsize]
  have harea : i'.area = i.area := by
    unfold Kthread.area
    rw [hrecord, hbase, htop]
  have hsame : ∀ u j, Function.update thread current (some i') u = some j →
      ∃ j', thread u = some j' ∧ j.record = j'.record ∧ j.kstackBase = j'.kstackBase ∧
        j.top = j'.top ∧ j.area = j'.area := by
    intro u j hu
    by_cases hne : u = current
    · rw [hne, Function.update_self, Option.some_inj] at hu
      subst hu
      exact ⟨i, hne ▸ hi, hrecord, hbase, htop, harea⟩
    · rw [Function.update_of_ne hne] at hu
      exact ⟨j, hu, rfl, rfl, rfl, rfl⟩
  refine ⟨fun u j hu => ?_, fun u j hu => ?_, fun u j hu => ?_, fun u v j k hne hu hv => ?_⟩
  · obtain ⟨j', hu', hrec, -⟩ := hsame u j hu
    exact hrec ▸ hp.record u j' hu'
  · obtain ⟨j', hu', -, -, hlt, -⟩ := hsame u j hu
    exact hlt ▸ hp.top u j' hu'
  · obtain ⟨j', hu', hrec, hkb, hlt, -⟩ := hsame u j hu
    rw [hrec, hkb, hlt]
    exact hp.own u j' hu'
  · obtain ⟨j', hu', -, -, -, hj⟩ := hsame u j hu
    obtain ⟨k', hv', -, -, -, hk⟩ := hsame v k hv
    rw [hj, hk]
    exact hp.apart u v j' k' hne hu' hv'

end Stored

/-- Memory that agrees on what the kernel keeps. -/
theorem Stored.congr {s : Threads} {m m' : Word → Word} (h : Stored s.thread s.current m)
    (hp : Placed s.thread)
    (heq : ∀ a ∈ s.Protected, m' (BitVec.ofNat 64 a) = m (BitVec.ofNat 64 a)) :
    Stored s.thread s.current m' where
  parked u j hu hne := (h.parked u j hu hne).congr fun a hlo hhi =>
    heq a ⟨u, j, hu, Or.inr ⟨hne, hlo, hhi⟩⟩
  stacked u j hu := (h.stacked u j hu).congr (hp.top u j hu).2 fun a ha =>
    heq a ⟨u, j, hu, Or.inl ha⟩

end Threads

end Trap
end OscKernel
