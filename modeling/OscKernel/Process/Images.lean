import OscKernel.Kmalloc.Boot
import OscKernel.Lib.Endian
import OscKernel.Process.ForkStack
import OscKernel.Process.Isolation

/-!
# Every process has a memory of its own (`sched.c`, `syscall.c`, `signal.c`, `utils.c`)

There is one memory without translation, and the kernel copies programs into it while others run.
Here the bytes of that memory are kept beside the system, and what a process sees is the contents of
its image and stack.  A move is specified by what it does to these contents: a program that is
loaded is the file of the ramdisk, a child has what its parent has, and nobody else notices.

Nothing protects these bytes.  A program that stores outside its image, and `sys_uart_read` with any
range of the memory, may change what another process sees: such a write is a move of its own
(`Move.poke`).  Not modelled are writes that hit the records of threads or the data of the
allocators.  The files are taken to stay as they are, and what else the kernel does
(`System.Spares`) keeps the pointers of the threads and frees no block that one of them has.

* `Flat.step`: a call of the kernel, a store of a program into its image, or any other write.
* `Flat.Spec`: what a move does, when every process has its contents to itself.
* `spec_of_reachable`: that is what it does in the one memory.
* `contents_of_run`: between its calls of `exec` a process changes by its own stores only, when no
  other write hits it.
-/

namespace OscKernel
namespace Creation

open Endian (span load)
open Rv64 (Word)
open Process (Part TrapFrame sigstackSize userStackSize)
open Transition

namespace System

variable (s : System)

/-- The buffer with the image and the stack of a thread. -/
def image (t : Tid) : Option Grant := s.own (t, .image)

/-- The size of a file, which is at an address. -/
def fileSize (file : Option (ℕ × BitVec 32)) : Option Word :=
  (file.map Prod.snd).map fun sz => sz.setWidth 64

/-- The memory after `thread_spawn_user`, up to the data of the kernel. -/
def spawnMem (file : Option (ℕ × BitVec 32)) (mem : ℕ → UInt8) : ℕ → UInt8 :=
  match file with
  | none => mem
  | some (src, sz) =>
      let r := s.threadAllocBare
      if r.2 = 0 then mem
      else
        let b := r.1.allocImage r.2 (sz.setWidth 64) (sz.setWidth 64 + userStackSize)
        if b.2 = 0 then mem else memCpy b.2 src sz.toNat mem

/-- The memory after `sys_exec`, up to the data of the kernel. -/
def execMem (file : Option (ℕ × BitVec 32)) (mem : ℕ → UInt8) : ℕ → UInt8 :=
  if (s.get s.current).imageBase = 0 then mem
  else match file with
    | none => mem
    | some (src, sz) =>
        let b := s.kmalloc (sz.setWidth 64 + userStackSize).toNat
        if b.2 = 0 then mem else memCpy b.2 src sz.toNat mem

end System

/-- The system, and the bytes of the memory. -/
structure Flat where
  sys : System
  mem : ℕ → UInt8

/-- What happens. -/
inductive Move where
  /-- `thread_spawn_user`, of a file that is at an address. -/
  | spawn (file : Option (ℕ × BitVec 32)) (sstatus : Word)
  /-- `sys_exec`. -/
  | exec (file : Option (ℕ × BitVec 32)) (tf : Word)
  /-- `sys_fork`. -/
  | fork (tf : Word)
  /-- A program writes a byte of its image or its stack. -/
  | store (t : Tid) (k : ℕ) (v : UInt8)
  /-- The kernel, also for a program in `sys_uart_read`, or a program outside its image, writes a
  byte anywhere. -/
  | poke (a : ℕ) (v : UInt8)
  /-- What else happens to the memory of threads. -/
  | rest (a : Act)

/-- `thread_spawn_user`, `sys_exec` and `sys_fork` have moves of their own. -/
def Act.isRest : Act → Prop
  | .threadSpawnUser _ _ => False
  | .sysExec _ _ => False
  | .sysFork _ => False
  | _ => True

namespace Flat

variable (s : Flat)

/-- What a process sees: the bytes of its image and its stack. -/
def contents (t : Tid) : Option (List UInt8) :=
  (s.sys.image t).map fun g => load s.mem g.ptr g.size

/-- One move. -/
def step (s : Flat) : Move → Option Flat
  | .spawn file sstatus =>
      some ⟨(s.sys.threadSpawnUser (System.fileSize file) sstatus).1, s.sys.spawnMem file s.mem⟩
  | .exec file tf =>
      some ⟨(s.sys.sysExec (System.fileSize file) tf).1, s.sys.execMem file s.mem⟩
  | .fork tf => some ⟨(s.sys.sysFork tf).1, s.sys.forkMem s.mem⟩
  | .store t k v =>
      (s.sys.image t).bind fun g =>
        if k < g.size then some { s with mem := Function.update s.mem (g.ptr + k) v } else none
  | .poke a v => some { s with mem := Function.update s.mem a v }
  | .rest a => (s.sys.act a).map fun sys => { s with sys := sys }

/-- Programs come from `disk`, to which nobody writes; what the kernel frees belongs to no thread,
and it does not change the pointers of the threads. -/
def Fair (disk : Set ℕ) (s : Flat) : Move → Prop
  | .spawn file _ => ∀ f ∈ file, span f.1 f.2.toNat ⊆ disk
  | .exec file _ => ∀ f ∈ file, span f.1 f.2.toNat ⊆ disk
  | .poke a _ => a ∉ disk
  | .rest a => a.isRest ∧ s.sys.Spares a
  | _ => True

/-- One byte of what a process sees is another one. -/
def Stored (s : Flat) (i : Tid → Option (List UInt8)) (t : Tid) (k : ℕ) (v : UInt8) : Prop :=
  ∃ l, s.contents t = some l ∧ k < l.length ∧
    i = Function.update s.contents t (some (l.set k v))

/-- **The specification.**  What a move makes of the contents of all processes; `mem₀` has the
files.  The bytes of a new stack are not specified. -/
def Spec (mem₀ : ℕ → UInt8) (s : Flat) (i : Tid → Option (List UInt8)) : Move → Prop
  | .spawn file sstatus =>
      let r := (s.sys.threadSpawnUser (System.fileSize file) sstatus).2
      if r = 0 then i = s.contents
      else ∃ f ∈ file, ∃ stack, stack.length = userStackSize.toNat ∧ s.contents (.heap r) = none ∧
        i = Function.update s.contents (.heap r) (some (load mem₀ f.1 f.2.toNat ++ stack))
  | .exec file tf =>
      if (s.sys.sysExec (System.fileSize file) tf).2 = 0 then
        ∃ f ∈ file, ∃ stack, stack.length = userStackSize.toNat ∧
          (s.contents s.sys.current).isSome ∧
          i = Function.update s.contents s.sys.current (some (load mem₀ f.1 f.2.toNat ++ stack))
      else i = s.contents
  | .fork tf =>
      (s.sys.sysFork tf).2 = -1 ∧ i = s.contents ∨
        ∃ ch, s.contents ch = none ∧ (s.contents s.sys.current).isSome ∧
          i = Function.update s.contents ch (s.contents s.sys.current)
  | .store t k v => s.Stored i t k v
  | .poke a v =>
      (∀ u, ∀ g ∈ s.sys.image u, a ∉ bytes g) ∧ i = s.contents ∨
        ∃ u, ∃ g ∈ s.sys.image u, ∃ k, a = g.ptr + k ∧ s.Stored i u k v
  | .rest (.terminate t) => i = Function.update s.contents t none
  | .rest (.shellStop t) => i = Function.update s.contents t none
  | .rest (.reap p) => i = Function.update s.contents (.heap p) none
  | .rest .deliver =>
      if (s.sys.kmalloc sigstackSize.toNat).2 = 0 then
        i = Function.update s.contents s.sys.current none
      else i = s.contents
  | .rest _ => i = s.contents

end Flat

/-! ## The buffers -/

namespace System

variable {b₀ : Buddy} {s s' : System} {t u : Tid} {x : Thread} {p n : ℕ} {f : Thread → Thread}
  {size total : Word}

theorem image_congr (h : s'.thread = s.thread) : s'.image = s.image := by
  funext t
  rw [image, image, own_congr h]

theorem image_of_thread (hx : s.thread t = some x) :
    s.image t = blockAt x.imageBase x.totalSize.toNat := own_of_thread hx .image

theorem image_of_none (hx : s.thread t = none) : s.image t = none := own_of_none hx .image

/-- The pointer to the image is not written, or there is none and its size is written. -/
theorem image_modify (hf : ∀ x, s.thread t = some x →
    blockAt (f x).imageBase (f x).totalSize.toNat = blockAt x.imageBase x.totalSize.toNat) :
    (s.modify t f).image = s.image := by
  funext u
  simp only [image, own, thread_modify]
  split_ifs with hu
  · subst hu
    cases hx : s.thread u with
    | none => rfl
    | some x => exact hf x hx
  · rfl

/-- The pointer is written. -/
theorem image_modify_self (hx : s.thread t = some x) : (s.modify t f).image =
    Function.update s.image t (blockAt (f x).imageBase (f x).totalSize.toNat) := by
  funext u
  simp only [image, own, thread_modify, Function.update_apply]
  split_ifs with hu
  · rw [hu, hx]
    rfl
  · rfl

@[simp] theorem image_linkParent : (s.linkParent t).image = s.image := by
  unfold System.linkParent
  split
  · rfl
  · exact image_modify fun _ _ => rfl

@[simp] theorem image_threadEnqueueReady : (s.threadEnqueueReady t).image = s.image :=
  image_modify fun _ _ => rfl

@[simp] theorem image_plantFrame {tf : TrapFrame} : (s.plantFrame t tf).image = s.image :=
  image_modify fun _ _ => rfl

@[simp] theorem image_signalRelease : (s.signalRelease t).image = s.image := by
  unfold System.signalRelease
  dsimp only
  split_ifs
  · exact image_modify fun _ _ => rfl
  · refine (image_modify ?_).trans (image_congr rfl)
    exact fun _ _ => rfl

/-- The image is given back. -/
@[simp] theorem image_freeImage :
    (s.freeImage t).image = Function.update s.image t none := by
  unfold System.freeImage
  dsimp only
  cases hx : s.thread t with
  | none =>
    have hget : (s.get t).imageBase = 0 := by simp [System.get, hx, Thread.zero]
    rw [if_pos hget, ← image_of_none hx, Function.update_eq_self]
  | some x =>
    have hget : s.get t = x := by simp [System.get, hx]
    rw [hget]
    split_ifs with hnull
    · have hnone : s.image t = none := (image_of_thread hx).trans (if_pos hnull)
      rw [← hnone, Function.update_eq_self]
    · exact image_modify_self (s := s.kfree x.imageBase) hx

@[simp] theorem image_terminate :
    (s.terminate t).image = Function.update s.image t none := by
  rw [System.terminate, image_signalRelease, image_freeImage]

theorem image_kfreeThread : (s.kfreeThread p).image = Function.update s.image (.heap p) none := by
  funext u
  simp only [image, own, kfreeThread, kfree, Function.update_apply]
  split_ifs <;> rfl

@[simp] theorem image_reap : (s.reap p).image = Function.update s.image (.heap p) none := by
  unfold System.reap
  dsimp only
  rw [image_kfreeThread]
  split_ifs <;> rfl

/-- A stack for a handler, or the end. -/
theorem image_deliver : s.deliver.image =
    if (s.kmalloc sigstackSize.toNat).2 = 0 then Function.update s.image s.current none
    else s.image := by
  unfold System.deliver
  dsimp only
  split_ifs
  · exact image_terminate
  · exact image_modify fun _ _ => rfl

/-- **`thread_alloc_bare`.**  A new thread has no image. -/
theorem Inv.image_threadAllocBare (h : s.Inv b₀) : s.threadAllocBare.1.image = s.image := by
  rcases h.ok.threadAllocBare_cases with ⟨-, -, hundone, -⟩ | ⟨hne, hbare, -⟩
  · exact image_congr (by rw [hundone.rest])
  · obtain ⟨x, hx, -, hnull⟩ := h.threadAllocBare.2 hne
    funext u
    by_cases hu : u = .heap s.threadAllocBare.2
    · rw [hu, image_of_thread hx, image_of_none hbare.fresh]
      exact if_pos hnull
    · have hthread : s.threadAllocBare.1.thread u = s.thread u := by
        rw [hbare.rest]
        exact Function.update_of_ne hu ..
      rw [image, image, own, own, hthread]

/-- **`thread_create`.** -/
theorem Inv.image_threadCreate (h : s.Inv b₀) {fn : Word} :
    (s.threadCreate fn).1.image = s.image := by
  unfold System.threadCreate
  dsimp only
  split_ifs
  · exact h.image_threadAllocBare
  · refine (image_congr rfl).trans (image_linkParent.trans ((image_modify ?_).trans ?_))
    · exact fun _ _ => rfl
    · exact h.image_threadAllocBare

/-- The image of a new thread, when there is memory for it. -/
theorem image_allocImage (hx : s.thread (.heap p) = some x) (hnull : x.imageBase = 0)
    (hb : (s.allocImage p size total).2 ≠ 0) : (s.allocImage p size total).1.image =
      Function.update s.image (.heap p)
        (some ⟨(s.allocImage p size total).2, total.toNat⟩) := by
  unfold System.allocImage at hb ⊢
  dsimp only at hb ⊢
  split_ifs at hb ⊢ with hzero
  · exact absurd rfl hb
  set s₁ := s.modify (.heap p) fun x => { x with imageSize := size, totalSize := total } with hs₁
  have hx₁ : s₁.thread (.heap p) = some { x with imageSize := size, totalSize := total } := by
    rw [hs₁, thread_modify, if_pos rfl, hx]
    rfl
  have hsame : s₁.image = s.image := image_modify fun y hy => by
    obtain rfl := Option.some.inj (hx.symm.trans hy)
    simp [blockAt, hnull]
  have hself := image_modify_self (s := (s₁.kmalloc total.toNat).1) (f := fun x =>
    { x with imageBase := (s₁.kmalloc total.toNat).2 }) hx₁
  rw [hself, ← hsame]
  exact congrArg _ (if_neg hb)

/-- The heap of 64 pages, as boot leaves it. -/
theorem bootHeap_small : bootHeap (fun _ => 0) 0x80000000 0x40000 [] (fun _ => ⟨0, 0⟩) (fun _ => 0)
    (fun _ => 0) = smallHeap := by
  unfold bootHeap
  rw [show reservedBuddy (fun _ => 0) 0x80000000 0x40000 [] = smallBuddy from rfl,
    buddyBuildFreeLists_smallBuddy]
  rfl

/-- The size of a buffer does not wrap. -/
theorem toNat_fileTotal (sz : BitVec 32) : (sz.setWidth 64 + userStackSize).toNat =
    sz.toNat + userStackSize.toNat := by
  have hlt := sz.isLt
  have hstack : userStackSize.toNat ≤ 2 ^ 32 := by decide
  rw [BitVec.toNat_add, BitVec.toNat_setWidth, Nat.mod_eq_of_lt (by omega : sz.toNat < 2 ^ 64),
    Nat.mod_eq_of_lt (by omega)]

variable (file : Option (ℕ × BitVec 32)) (sstatus tf : Word) (mem : ℕ → UInt8)

/-- **`thread_spawn_user`** makes no image, or one with the file at its start. -/
theorem Inv.image_threadSpawnUser (h : s.Inv b₀) :
    ((s.threadSpawnUser (fileSize file) sstatus).2 = 0 ∧
      (s.threadSpawnUser (fileSize file) sstatus).1.image = s.image ∧
        s.spawnMem file mem = mem) ∨
    ∃ r, (s.threadSpawnUser (fileSize file) sstatus).2 = r ∧ r ≠ 0 ∧ s.thread (.heap r) = none ∧
      ∃ f ∈ file, ∃ b, (s.threadSpawnUser (fileSize file) sstatus).1.image =
          Function.update s.image (.heap r) (some ⟨b, f.2.toNat + userStackSize.toNat⟩) ∧
        s.spawnMem file mem = memCpy b f.1 f.2.toNat mem := by
  cases file with
  | none => exact Or.inl ⟨rfl, rfl, rfl⟩
  | some f =>
    obtain ⟨src, sz⟩ := f
    have hbareImage := h.image_threadAllocBare
    have htotal := toNat_fileTotal sz
    simp only [fileSize, Option.map_some, System.threadSpawnUser, spawnMem]
    rcases h.ok.threadAllocBare_cases with ⟨hnull, -, -, -⟩ | ⟨hne, hbare, -⟩
    · rw [if_pos hnull, if_pos hnull]
      exact Or.inl ⟨rfl, hbareImage, rfl⟩
    rw [if_neg hne, if_neg hne]
    obtain ⟨x, hx, -, hnull⟩ := h.threadAllocBare.2 hne
    generalize sz.setWidth 64 + userStackSize = total at htotal ⊢
    rcases hbare.allocImage_cases (sz.setWidth 64) total with
      ⟨hzero, -, -, hundone⟩ | ⟨hb, -, -⟩
    · rw [if_pos hzero, if_pos hzero]
      exact Or.inl ⟨rfl, image_congr (by rw [hundone.rest]), rfl⟩
    · rw [if_neg hb, if_neg hb]
      refine Or.inr ⟨_, rfl, hne, hbare.fresh, (src, sz), rfl, _, ?_, rfl⟩
      rw [image_threadEnqueueReady, image_linkParent]
      refine (image_congr rfl).trans (image_plantFrame.trans ?_)
      rw [image_allocImage hx hnull hb, hbareImage, htotal]

/-- **`sys_exec`** leaves the image as it is, or replaces it. -/
theorem image_sysExec :
    ((s.sysExec (fileSize file) tf).2 = -1 ∧ (s.sysExec (fileSize file) tf).1.image = s.image ∧
      s.execMem file mem = mem) ∨
    ((s.sysExec (fileSize file) tf).2 = 0 ∧ (s.image s.current).isSome ∧
      ∃ f ∈ file, ∃ b, (s.sysExec (fileSize file) tf).1.image =
          Function.update s.image s.current (some ⟨b, f.2.toNat + userStackSize.toNat⟩) ∧
        s.execMem file mem = memCpy b f.1 f.2.toNat mem) := by
  unfold System.sysExec execMem
  dsimp only
  by_cases hnull : (s.get s.current).imageBase = 0
  · rw [if_pos hnull, if_pos hnull]
    exact Or.inl ⟨rfl, rfl, rfl⟩
  rw [if_neg hnull, if_neg hnull]
  cases file with
  | none => exact Or.inl ⟨rfl, rfl, rfl⟩
  | some f =>
    obtain ⟨src, sz⟩ := f
    have htotal := toNat_fileTotal sz
    simp only [fileSize, Option.map_some]
    generalize sz.setWidth 64 + userStackSize = total at htotal ⊢
    by_cases hb : (s.kmalloc total.toNat).2 = 0
    · rw [if_pos hb, if_pos hb]
      exact Or.inl ⟨rfl, image_congr rfl, rfl⟩
    rw [if_neg hb, if_neg hb]
    cases hx : s.thread s.current with
    | none => exact absurd (by simp [System.get, hx, Thread.zero]) hnull
    | some x =>
      have hget : s.get s.current = x := by simp [System.get, hx]
      rw [hget] at hnull
      refine Or.inr ⟨rfl, ?_, (src, sz), rfl, _, ?_, rfl⟩
      · rw [image_of_thread hx, blockAt, if_neg hnull]
        rfl
      · refine (image_congr rfl).trans (image_signalRelease.trans ((image_modify ?_).trans ?_))
        · exact fun _ _ => rfl
        · refine (image_congr rfl).trans ((image_modify_self (s := (s.kmalloc total.toNat).1)
            hx).trans ?_)
          rw [← htotal]
          exact congrArg _ (if_neg hb)

/-- **`sys_fork`** makes no image, or one with all that the parent has. -/
theorem Inv.image_sysFork (h : s.Inv b₀) :
    ((s.sysFork tf).2 = -1 ∧ (s.sysFork tf).1.image = s.image ∧ s.forkMem mem = mem) ∨
    ∃ ch g b, s.thread (.heap ch) = none ∧ s.image s.current = some g ∧
      (s.sysFork tf).1.image = Function.update s.image (.heap ch) (some ⟨b, g.size⟩) ∧
        s.forkMem mem = memCpy b g.ptr g.size mem := by
  have hbareImage := h.image_threadAllocBare
  unfold System.sysFork System.forkMem
  dsimp only
  by_cases hnull : (s.get s.current).imageBase = 0
  · rw [if_pos hnull, if_pos hnull]
    exact Or.inl ⟨rfl, rfl, rfl⟩
  rw [if_neg hnull, if_neg hnull]
  have hparent : s.image s.current =
      some ⟨(s.get s.current).imageBase, (s.get s.current).totalSize.toNat⟩ := by
    cases hx : s.thread s.current with
    | none => exact absurd (by simp [System.get, hx, Thread.zero]) hnull
    | some x =>
      have hget : s.get s.current = x := by simp [System.get, hx]
      rw [hget] at hnull ⊢
      exact (image_of_thread hx).trans (if_neg hnull)
  generalize s.get s.current = y at *
  rcases h.ok.threadAllocBare_cases with ⟨hzero, -, -, -⟩ | ⟨hne, hbare, -⟩
  · rw [if_pos hzero, if_pos hzero]
    exact Or.inl ⟨rfl, hbareImage, rfl⟩
  rw [if_neg hne, if_neg hne]
  obtain ⟨x, hx, -, hempty⟩ := h.threadAllocBare.2 hne
  rcases hbare.allocImage_cases y.imageSize y.totalSize with
    ⟨hzero, -, -, hundone⟩ | ⟨hb, -, -⟩
  · rw [if_pos hzero, if_pos hzero]
    exact Or.inl ⟨rfl, image_congr (by rw [hundone.rest]), rfl⟩
  · rw [if_neg hb, if_neg hb]
    refine Or.inr ⟨_, _, _, hbare.fresh, hparent, ?_, rfl⟩
    rw [image_threadEnqueueReady, image_linkParent]
    refine (image_modify ?_).trans ((image_modify ?_).trans (image_plantFrame.trans ?_))
    · exact fun _ _ => rfl
    · exact fun _ _ => rfl
    · rw [image_allocImage hx hempty hb, hbareImage]

end System

/-! ## The bytes -/

section Bytes

variable {b₀ : Buddy} {disk : Set ℕ} {s s' : Flat} {t : Tid} {g : Grant} {b k n src : ℕ}

/-- The pages of `disk` are reserved, where they belong to the allocators at all. -/
def OffHeap (b₀ : Buddy) (disk : Set ℕ) : Prop :=
  ∀ x ∈ disk, b₀.gBuddyBase ≤ x → x < b₀.gBuddyBase + b₀.gTotalPages * pageSize →
    b₀.frameArray ((x - b₀.gBuddyBase) / pageSize) = frameReserved

/-- No thread has a byte of the disk. -/
theorem System.Inv.disjoint_disk {s : System} {o : Tid × Part} (h : s.Inv b₀)
    (hdisk : OffHeap b₀ disk) (ho : s.own o = some g) : Disjoint (bytes g) disk := by
  refine Set.disjoint_left.mpr fun x hx hxd => ?_
  obtain ⟨hlow, hhigh⟩ := h.isolated.inside o g ho hx
  have hbase := h.frames.region.base
  have hpages := h.frames.region.pages
  have hj : (x - s.client.heap.buddy.gBuddyBase) / pageSize < s.client.heap.buddy.gTotalPages := by
    unfold pageSize at *
    omega
  have hreserved := hdisk x hxd (hbase ▸ hlow) (hbase ▸ hpages ▸ hhigh)
  rw [← h.frames.reserved, ← hbase] at hreserved
  refine Set.disjoint_left.mp (h.isolated.reserved o g ho _ hj hreserved) hx ?_
  obtain ⟨fl, hfl⟩ := h.ledger
  rw [Buddy.blockBytes, Buddy.idxToAddr_eq hfl.region.inside hj]
  constructor
  · unfold pageSize at *
    omega
  · unfold pageSize at *
    omega

/-- The same buffers with the same bytes. -/
theorem Flat.contents_congr (himage : s'.sys.image = s.sys.image)
    (hmem : ∀ u, ∀ g ∈ s.sys.image u, ∀ x ∈ bytes g, s'.mem x = s.mem x) :
    s'.contents = s.contents := by
  funext u
  rw [contents, contents, himage]
  cases hu : s.sys.image u with
  | none => rfl
  | some g => exact congrArg some (Endian.load_congr (hmem u g hu))

/-- A buffer is gone. -/
theorem Flat.contents_none (himage : s'.sys.image = Function.update s.sys.image t none)
    (hmem : s'.mem = s.mem) : s'.contents = Function.update s.contents t none := by
  funext u
  simp only [contents, himage, hmem, Function.update_apply]
  split_ifs <;> rfl

/-- **A buffer is written.**  The contents of the others are as they were. -/
theorem Flat.contents_update (h : s'.sys.Inv b₀)
    (himage : s'.sys.image = Function.update s.sys.image t (some g))
    (hmem : ∀ x ∉ bytes g, s'.mem x = s.mem x) :
    s'.contents = Function.update s.contents t (some (load s'.mem g.ptr g.size)) := by
  funext u
  rw [Function.update_apply]
  split_ifs with hu
  · rw [contents, himage, hu, Function.update_self]
    rfl
  · rw [contents, contents, himage, Function.update_of_ne hu]
    cases hg : s.sys.image u with
    | none => rfl
    | some g' =>
      have howner : s'.sys.own (u, .image) = some g' := by
        have hat := congrFun himage u
        rw [Function.update_of_ne hu, hg] at hat
        exact hat
      have howner' : s'.sys.own (t, .image) = some g := by
        have hat := congrFun himage t
        rw [Function.update_self] at hat
        exact hat
      have hapart := h.isolated.apart _ _ _ _ howner howner' (by simp [hu])
      exact congrArg some (Endian.load_congr fun x hx => hmem x (Set.disjoint_left.mp hapart hx))

/-- The start of a buffer after a copy from elsewhere. -/
theorem load_memCpy (mem : ℕ → UInt8) (hk : k ≤ n)
    (hapart : Disjoint (span src k) (bytes ⟨b, n⟩)) :
    ∃ l, l.length = n - k ∧ load (memCpy b src k mem) b n = load mem src k ++ l := by
  refine ⟨load (memCpy b src k mem) (b + k) (n - k), by simp, ?_⟩
  have hlen : n = k + (n - k) := by omega
  conv_lhs => rw [hlen, Endian.load_add]
  congr 1
  refine List.map_congr_left fun i hi => ?_
  have hi' := List.mem_range.mp hi
  refine memCpy_add ?_ hi'
  by_contra hmeet
  rw [not_or, not_le, not_le] at hmeet
  rcases Nat.le_total src b with hle | hle
  · exact Set.disjoint_left.mp hapart (show b ∈ span src k from ⟨hle, hmeet.2⟩)
      ⟨le_rfl, by dsimp only; omega⟩
  · exact Set.disjoint_left.mp hapart (show src ∈ span src k from ⟨le_rfl, by omega⟩)
      ⟨hle, by dsimp only; omega⟩

/-- The pages of the entries of boot are reserved. -/
theorem offHeap_boot (fa : ℕ → ℤ) {base size : ℕ} (hbase : pageSize ∣ base)
    (hend : base + size < 2 ^ 64) {reserves : List (ℕ × ℕ)}
    (hentry : ∀ e ∈ reserves, StartupClient.Entry base size e)
    (hdisk : ∀ x ∈ disk, base ≤ x → x < base + size → ∃ e ∈ reserves, x ∈ StartupClient.bytes e)
    (pools : ℕ → Pool) (table : ℕ → ℤ) (mem : ℕ → ℕ) :
    OffHeap (bootHeap fa base size reserves pools table mem).heap.buddy disk := by
  have hunbuilt := unbuilt_reservedBuddy fa base size reserves
  obtain ⟨-, hsame⟩ := hunbuilt.built
  have hbase' : (bootHeap fa base size reserves pools table mem).heap.buddy.gBuddyBase = base :=
    hsame.base.trans hunbuilt.base_eq
  have hpages' : (bootHeap fa base size reserves pools table mem).heap.buddy.gTotalPages =
      size / pageSize := hsame.pages.trans hunbuilt.pages_eq
  intro x hx hlow hhigh
  rw [hbase'] at hlow hhigh ⊢
  rw [hpages'] at hhigh
  have hfloor := Nat.div_mul_le_self size pageSize
  obtain ⟨e, he, hstart, hlast⟩ := hdisk x hx hlow (by omega)
  have hin := hentry e he
  show (reservedBuddy fa base size reserves).buddyBuildFreeLists.frameArray _ = _
  rw [← Buddy.owner_eq_some not_isFreeVal_reserved, hsame.owner,
    Buddy.owner_eq_some not_isFreeVal_reserved]
  refine Buddy.reserved_of_entry fa hbase hend hentry he ⟨?_, ?_⟩
  · obtain ⟨q, hq⟩ := hin.start_dvd
    obtain ⟨r, hr⟩ := hbase
    unfold pageSize at *
    omega
  · have hle := Nat.div_mul_le_self (x - base) pageSize
    omega

end Bytes

/-! ## One move -/

namespace Flat

variable {b₀ : Buddy} {disk : Set ℕ} {mem₀ : ℕ → UInt8} {s s' : Flat} {t : Tid} {g : Grant}
  {b k n src : ℕ} {m : Move} {sys : System} {mem : ℕ → UInt8}

/-- The invariant: the blocks of the threads, and the files. -/
structure Inv (b₀ : Buddy) (disk : Set ℕ) (mem₀ : ℕ → UInt8) (s : Flat) : Prop where
  sys : s.sys.Inv b₀
  files : ∀ x ∈ disk, s.mem x = mem₀ x

/-- A file of the ramdisk. -/
theorem Inv.load_file (h : s.Inv b₀ disk mem₀) (hsrc : span src k ⊆ disk) :
    load s.mem src k = load mem₀ src k := Endian.load_congr fun x hx => h.files x (hsrc hx)

/-- A copy into a new buffer. -/
theorem Inv.copied (h : s.Inv b₀ disk mem₀) (hoff : OffHeap b₀ disk) (hsys : sys.Inv b₀)
    (himage : sys.image = Function.update s.sys.image t (some ⟨b, n⟩))
    (hmem : mem = memCpy b src k s.mem) (hk : k ≤ n)
    (hsrc : Disjoint (span src k) (bytes ⟨b, n⟩)) :
    Inv b₀ disk mem₀ ⟨sys, mem⟩ ∧ ∃ l, l.length = n - k ∧
      contents ⟨sys, mem⟩ = Function.update s.contents t (some (load s.mem src k ++ l)) := by
  have howner : sys.own (t, .image) = some ⟨b, n⟩ :=
    (congrFun himage t).trans (Function.update_self ..)
  have hother : ∀ x ∉ bytes ⟨b, n⟩, mem x = s.mem x := by
    intro x hx
    rw [hmem]
    refine memCpy_of_not_mem ?_
    by_contra hin
    rw [not_or, not_lt, not_le] at hin
    exact hx ⟨hin.1, by dsimp only; omega⟩
  constructor
  · refine ⟨hsys, fun x hx => ?_⟩
    have hnot : x ∉ bytes ⟨b, n⟩ := fun hin =>
      Set.disjoint_left.mp (hsys.disjoint_disk hoff howner) hin hx
    exact (hother x hnot).trans (h.files x hx)
  · obtain ⟨l, hl, hload⟩ := load_memCpy s.mem hk hsrc
    refine ⟨l, hl, (contents_update hsys himage hother).trans ?_⟩
    dsimp only
    rw [hmem, hload]

/-- A file is loaded into a new buffer. -/
theorem Inv.loaded (h : s.Inv b₀ disk mem₀) (hoff : OffHeap b₀ disk) (hsys : sys.Inv b₀)
    (himage : sys.image = Function.update s.sys.image t (some ⟨b, k + userStackSize.toNat⟩))
    (hmem : mem = memCpy b src k s.mem) (hsrc : span src k ⊆ disk) :
    Inv b₀ disk mem₀ ⟨sys, mem⟩ ∧ ∃ stack, stack.length = userStackSize.toNat ∧
      contents ⟨sys, mem⟩ = Function.update s.contents t (some (load mem₀ src k ++ stack)) := by
  have howner : sys.own (t, .image) = some ⟨b, k + userStackSize.toNat⟩ :=
    (congrFun himage t).trans (Function.update_self ..)
  have hapart := (hsys.disjoint_disk hoff howner).symm.mono_left hsrc
  rw [← h.load_file hsrc]
  obtain ⟨hinv, stack, hstack, hcontents⟩ :=
    h.copied hoff hsys himage hmem (Nat.le_add_right _ _) hapart
  exact ⟨hinv, stack, hstack.trans (Nat.add_sub_cancel_left ..), hcontents⟩

/-- A thread that is not there sees nothing. -/
theorem contents_of_none (hnone : s.sys.thread t = none) : s.contents t = none := by
  rw [contents, System.image_of_none hnone]
  rfl

/-- Only the system changes. -/
theorem Inv.unwritten (h : s.Inv b₀ disk mem₀) (hsys : sys.Inv b₀) (hmem : mem = s.mem) :
    Inv b₀ disk mem₀ ⟨sys, mem⟩ := ⟨hsys, fun x hx => (congrFun hmem x).trans (h.files x hx)⟩

/-- **`thread_spawn_user`.** -/
theorem Inv.spawn (h : s.Inv b₀ disk mem₀) (hoff : OffHeap b₀ disk)
    {file : Option (ℕ × BitVec 32)} {sstatus : Word}
    (hfile : ∀ f ∈ file, span f.1 f.2.toNat ⊆ disk)
    (hs : s.step (.spawn file sstatus) = some s') :
    s'.Inv b₀ disk mem₀ ∧ s.Spec mem₀ s'.contents (.spawn file sstatus) := by
  obtain rfl := Option.some.inj hs
  have hsys := h.sys.threadSpawnUser (file.map Prod.snd) sstatus
  rcases h.sys.image_threadSpawnUser file sstatus s.mem with
    ⟨hr, himage, hmem⟩ | ⟨r, hr, hne, hnone, f, hf, b, himage, hmem⟩
  · refine ⟨h.unwritten hsys hmem, ?_⟩
    simp only [Spec]
    rw [if_pos hr]
    exact contents_congr himage fun _ _ _ x _ => congrFun hmem x
  · obtain ⟨hinv, stack, hstack, hcontents⟩ := h.loaded hoff hsys himage hmem (hfile f hf)
    refine ⟨hinv, ?_⟩
    simp only [Spec]
    rw [hr, if_neg hne]
    exact ⟨f, hf, stack, hstack, contents_of_none hnone, hcontents⟩

/-- **`sys_exec`.** -/
theorem Inv.exec (h : s.Inv b₀ disk mem₀) (hoff : OffHeap b₀ disk)
    {file : Option (ℕ × BitVec 32)} {tf : Word}
    (hfile : ∀ f ∈ file, span f.1 f.2.toNat ⊆ disk) (hs : s.step (.exec file tf) = some s') :
    s'.Inv b₀ disk mem₀ ∧ s.Spec mem₀ s'.contents (.exec file tf) := by
  obtain rfl := Option.some.inj hs
  have hsys := h.sys.sysExec (file.map Prod.snd) tf
  rcases System.image_sysExec (s := s.sys) file tf s.mem with
    ⟨hr, himage, hmem⟩ | ⟨hr, hsome, f, hf, b, himage, hmem⟩
  · refine ⟨h.unwritten hsys hmem, ?_⟩
    simp only [Spec]
    rw [hr, if_neg (by decide)]
    exact contents_congr himage fun _ _ _ x _ => congrFun hmem x
  · obtain ⟨hinv, stack, hstack, hcontents⟩ := h.loaded hoff hsys himage hmem (hfile f hf)
    refine ⟨hinv, ?_⟩
    simp only [Spec]
    rw [if_pos hr]
    refine ⟨f, hf, stack, hstack, ?_, hcontents⟩
    rw [contents, Option.isSome_map]
    exact hsome

/-- **`sys_fork`.** -/
theorem Inv.fork (h : s.Inv b₀ disk mem₀) (hoff : OffHeap b₀ disk) {tf : Word}
    (hs : s.step (.fork tf) = some s') :
    s'.Inv b₀ disk mem₀ ∧ s.Spec mem₀ s'.contents (.fork tf) := by
  obtain rfl := Option.some.inj hs
  have hsys := h.sys.sysFork tf
  rcases h.sys.image_sysFork tf s.mem with
    ⟨hr, himage, hmem⟩ | ⟨ch, g, b, hnone, hparent, himage, hmem⟩
  · refine ⟨h.unwritten hsys hmem, Or.inl ⟨hr, ?_⟩⟩
    exact contents_congr himage fun _ _ _ x _ => congrFun hmem x
  · have hne : s.sys.current ≠ .heap ch := by
      rintro heq
      rw [heq, System.image_of_none hnone] at hparent
      exact absurd hparent (by simp)
    have hchild : (s.sys.sysFork tf).1.own (.heap ch, .image) = some ⟨b, g.size⟩ :=
      (congrFun himage _).trans (Function.update_self ..)
    have hkept : (s.sys.sysFork tf).1.own (s.sys.current, .image) = some g :=
      (congrFun himage _).trans ((Function.update_of_ne hne ..).trans hparent)
    -- the two buffers are those of two threads of the new state
    have hapart := hsys.isolated.apart _ _ _ _ hkept hchild (by simp [hne])
    obtain ⟨hinv, l, hl, hcontents⟩ := h.copied hoff hsys himage hmem le_rfl hapart
    have hseen : s.contents s.sys.current = some (load s.mem g.ptr g.size) := by
      rw [contents, hparent]
      rfl
    rw [Nat.sub_self, List.length_eq_zero_iff] at hl
    rw [hl, List.append_nil, ← hseen] at hcontents
    exact ⟨hinv, Or.inr ⟨.heap ch, contents_of_none hnone, by simp [hseen], hcontents⟩⟩

/-- A byte of a buffer is written. -/
theorem load_update {v : UInt8} :
    load (Function.update mem (b + k) v) b n = (load mem b n).set k v := by
  refine List.ext_getElem (by simp) fun i hi _ => ?_
  rw [List.getElem_set]
  simp only [load, List.getElem_map, List.getElem_range, Function.update_apply,
    Nat.add_left_cancel_iff]
  exact if_congr eq_comm rfl rfl

/-- **A program writes** to its own memory. -/
theorem Inv.store (h : s.Inv b₀ disk mem₀) (hoff : OffHeap b₀ disk) {v : UInt8}
    (hs : s.step (.store t k v) = some s') :
    s'.Inv b₀ disk mem₀ ∧ s.Spec mem₀ s'.contents (.store t k v) := by
  obtain ⟨g, hg, hs⟩ := Option.bind_eq_some_iff.mp hs
  split_ifs at hs with hk
  obtain rfl := Option.some.inj hs
  have hin : g.ptr + k ∈ bytes g := ⟨Nat.le_add_right _ _, Nat.add_lt_add_left hk _⟩
  have hseen : s.contents t = some (load s.mem g.ptr g.size) := by
    rw [contents, hg]
    rfl
  refine ⟨⟨h.sys, fun x hx => ?_⟩, _, hseen, by simpa using hk, ?_⟩
  · have hne : x ≠ g.ptr + k := by
      rintro rfl
      exact Set.disjoint_left.mp (h.sys.disjoint_disk hoff hg) hin hx
    exact (Function.update_of_ne hne ..).trans (h.files x hx)
  · rw [← load_update]
    refine contents_update h.sys ?_ fun x hx => Function.update_of_ne ?_ ..
    · rw [← hg, Function.update_eq_self]
    · rintro rfl
      exact hx hin

/-- **Any other write** is a store of the process whose byte it is, if it is one's. -/
theorem Inv.poke (h : s.Inv b₀ disk mem₀) (hoff : OffHeap b₀ disk) {a : ℕ} {v : UInt8}
    (hfair : s.Fair disk (.poke a v)) (hs : s.step (.poke a v) = some s') :
    s'.Inv b₀ disk mem₀ ∧ s.Spec mem₀ s'.contents (.poke a v) := by
  by_cases hin : ∃ u, ∃ g ∈ s.sys.image u, a ∈ bytes g
  · obtain ⟨u, g, hg, ha⟩ := hin
    obtain ⟨k, rfl⟩ := Nat.exists_eq_add_of_le ha.1
    have hstore : s.step (.store u k v) = some s' := by
      rw [← hs, Flat.step, Option.mem_def.mp hg, Option.bind_some,
        if_pos (Nat.add_lt_add_iff_left.mp ha.2)]
      rfl
    obtain ⟨hinv, hspec⟩ := h.store hoff hstore
    exact ⟨hinv, Or.inr ⟨u, g, hg, k, rfl, hspec⟩⟩
  · have hout : ∀ u, ∀ g ∈ s.sys.image u, a ∉ bytes g := fun u g hg ha => hin ⟨u, g, hg, ha⟩
    obtain rfl := Option.some.inj hs
    refine ⟨⟨h.sys, fun x hx => ?_⟩, Or.inl ⟨hout, ?_⟩⟩
    · have hne : x ≠ a := by
        rintro rfl
        exact hfair hx
      exact (Function.update_of_ne hne ..).trans (h.files x hx)
    · refine contents_congr rfl fun u g hg x hx => Function.update_of_ne ?_ ..
      rintro rfl
      exact hout u g hg hx

/-- **The rest** writes no image, and takes at most one away. -/
theorem Inv.rest (h : s.Inv b₀ disk mem₀) {a : Act} (hfair : s.Fair disk (.rest a))
    (hs : s.step (.rest a) = some s') :
    s'.Inv b₀ disk mem₀ ∧ s.Spec mem₀ s'.contents (.rest a) := by
  obtain ⟨sys, hsys, rfl⟩ := Option.map_eq_some_iff.mp hs
  refine ⟨h.unwritten (h.sys.act hfair.2 hsys) rfl, ?_⟩
  have hsame : sys.image = s.sys.image →
      ({ s with sys := sys } : Flat).contents = s.contents := fun himage =>
    contents_congr himage fun _ _ _ _ _ => rfl
  cases a with
  | threadCreate fn =>
    obtain rfl := Option.some.inj hsys
    exact hsame h.sys.image_threadCreate
  | threadSpawnUser file sstatus => exact absurd hfair.1 id
  | sysExec file tf => exact absurd hfair.1 id
  | sysFork tf => exact absurd hfair.1 id
  | deliver =>
    obtain rfl := Option.some.inj hsys
    have himage := System.image_deliver (s := s.sys)
    simp only [Spec]
    split_ifs at himage ⊢
    · exact contents_none himage rfl
    · exact hsame himage
  | sigreturn =>
    obtain rfl := Option.some.inj hsys
    exact hsame System.image_signalRelease
  | terminate t =>
    obtain rfl := Option.some.inj hsys
    exact contents_none System.image_terminate rfl
  | shellStop t =>
    obtain rfl := Option.some.inj hsys
    exact contents_none System.image_freeImage rfl
  | reap p =>
    rw [System.act] at hsys
    split_ifs at hsys
    obtain rfl := Option.some.inj hsys
    exact contents_none System.image_reap rfl
  | kmalloc n =>
    obtain rfl := Option.some.inj hsys
    exact hsame (System.image_congr rfl)
  | kfree g =>
    rw [System.act] at hsys
    split_ifs at hsys
    obtain rfl := Option.some.inj hsys
    exact hsame (System.image_congr rfl)
  | write g addr value =>
    obtain ⟨c, -, rfl⟩ := Option.map_eq_some_iff.mp hsys
    exact hsame (System.image_congr rfl)
  | other f runq frame current =>
    obtain rfl := Option.some.inj hsys
    refine hsame (funext fun t => ?_)
    simp only [System.image, System.own]
    cases hx : s.sys.thread t with
    | none => rfl
    | some x => exact hfair.2 t x hx .image

/-- **Every move** does what is specified. -/
theorem Inv.step (h : s.Inv b₀ disk mem₀) (hoff : OffHeap b₀ disk) (hfair : s.Fair disk m)
    (hs : s.step m = some s') : s'.Inv b₀ disk mem₀ ∧ s.Spec mem₀ s'.contents m := by
  cases m with
  | spawn file sstatus => exact h.spawn hoff hfair hs
  | exec file tf => exact h.exec hoff hfair hs
  | fork tf => exact h.fork hoff hs
  | store t k v => exact h.store hoff hs
  | poke a v => exact h.poke hoff hfair hs
  | rest a => exact h.rest hfair hs

/-! ## Runs -/

/-- The invariant holds after boot. -/
theorem inv_boot (fa : ℕ → ℤ) {base size : ℕ} (hbase : pageSize ∣ base)
    (hend : base + size < 2 ^ 64) (reserves : List (ℕ × ℕ)) (pools : ℕ → Pool)
    (table : ℕ → ℤ) (mem : ℕ → ℕ) {x : Thread} (hx : ∀ q, x.part .bootstrap q = none) (addr : Word)
    (disk : Set ℕ) (mem₀ : ℕ → UInt8) :
    Inv (bootHeap fa base size reserves pools table mem).heap.buddy disk mem₀
      ⟨.boot (bootHeap fa base size reserves pools table mem) x addr, mem₀⟩ :=
  ⟨System.inv_boot fa hbase hend.le reserves pools table mem hx addr, fun _ _ => rfl⟩

/-- **The one memory does what is specified.**  The ramdisk is part of what boot reserved or lies
outside the memory of the allocators, a region of whole pages that ends below `2 ^ 64`.  In every
run whose moves are fair, that is, whose programs come from the ramdisk, whose writes do not hit the
ramdisk, and in which the kernel itself neither frees a block of a thread nor changes its pointers,
and whatever requests fail, each move makes of the contents of all processes what `Flat.Spec` says,
and the files stay as they were. -/
theorem spec_of_reachable (fa : ℕ → ℤ) {base size : ℕ} (hbase : pageSize ∣ base)
    (hend : base + size < 2 ^ 64) {reserves : List (ℕ × ℕ)}
    (hentry : ∀ e ∈ reserves, StartupClient.Entry base size e)
    (hdisk : ∀ x ∈ disk, base ≤ x → x < base + size → ∃ e ∈ reserves, x ∈ StartupClient.bytes e)
    (pools : ℕ → Pool) (table : ℕ → ℤ) (mem : ℕ → ℕ) {x : Thread}
    (hx : ∀ q, x.part .bootstrap q = none) (addr : Word) (mem₀ : ℕ → UInt8)
    (hs : Reachable step (Fair disk)
      ⟨.boot (bootHeap fa base size reserves pools table mem) x addr, mem₀⟩ s)
    (hfair : s.Fair disk m) (hm : s.step m = some s') :
    s.Spec mem₀ s'.contents m ∧ ∀ a ∈ disk, s'.mem a = mem₀ a := by
  have hoff := offHeap_boot fa hbase hend hentry hdisk pools table mem
  have hstart := inv_boot fa hbase hend reserves pools table mem hx addr disk mem₀
  have hinv := hs.invariant hstart fun s m s' h hfair hm => (h.step hoff hfair hm).1
  obtain ⟨hinv', hspec⟩ := hinv.step hoff hfair hm
  exact ⟨hspec, hinv'.files⟩

/-- 64 pages, and files elsewhere. -/
def start : Flat := ⟨.boot System.smallHeap .zero 0, UInt8.ofNat⟩

/-- A page with files. -/
def startDisk : Set ℕ := span 0x90000000 pageSize

theorem fair_start {sstatus : Word} {src : ℕ} {sz : BitVec 32} (hlow : 0x90000000 ≤ src)
    (hhigh : src + sz.toNat ≤ 0x90001000) :
    s.Fair startDisk (.spawn (some (src, sz)) sstatus) := by
  rintro f hf x ⟨hx, hx'⟩
  obtain rfl := Option.some.inj hf
  exact ⟨hlow.trans hx, hx'.trans_le hhigh⟩

theorem reachable_start {ms : List Move} (hrun : runList step start ms = some s)
    (hmeets : Meets step (Fair startDisk) start ms) :
    Reachable step (Fair startDisk) ⟨.boot (bootHeap (fun _ => 0) 0x80000000 0x40000 []
      (fun _ => ⟨0, 0⟩) (fun _ => 0) fun _ => 0) .zero 0, UInt8.ofNat⟩ s := by
  rw [System.bootHeap_small]
  exact Reachable.of_runList hrun hmeets

/-- Two programs. -/
theorem spec_of_spawns : ∃ s s', runList step start [.spawn (some (0x90000010, 3)) 0] = some s ∧
    s.step (.spawn (some (0x90000020, 100)) 0) = some s' ∧
    s.Spec UInt8.ofNat s'.contents (.spawn (some (0x90000020, 100)) 0) := by
  obtain ⟨s, hs⟩ := Option.isSome_iff_exists.mp (show (runList step start
    [.spawn (some (0x90000010, 3)) 0]).isSome = true from rfl)
  refine ⟨s, _, hs, rfl, (spec_of_reachable (fun _ => 0) (by decide) (by decide)
    (fun _ he => absurd he List.not_mem_nil) ?_ _ _ _ ?_ 0 _ (reachable_start hs
      ⟨fair_start (by decide) (by decide), fun _ _ => trivial⟩)
        (fair_start (by decide) (by decide)) rfl).1⟩
  · exact fun x hx _ hhigh => absurd (hx.1.trans_lt hhigh) (by decide)
  · intro q
    cases q <;> rfl

/-- Nobody ends the process or replaces its image, and no write but its own stores hits it. -/
def Quiet (t : Tid) (s : Flat) : Move → Prop
  | .exec file tf => s.sys.current = t → (s.sys.sysExec (System.fileSize file) tf).2 ≠ 0
  | .poke a _ => ∀ g ∈ s.sys.image t, a ∉ bytes g
  | .rest (.terminate u) => u ≠ t
  | .rest (.shellStop u) => u ≠ t
  | .rest (.reap p) => .heap p ≠ t
  | .rest .deliver => s.sys.current = t → (s.sys.kmalloc sigstackSize.toNat).2 ≠ 0
  | _ => True

/-- What a process stores. -/
def ownStore (t : Tid) (l : List UInt8) : Move → List UInt8
  | .store u k v => if u = t then l.set k v else l
  | _ => l

/-- Another process notices nothing. -/
theorem update_ne {i : Tid → Option (List UInt8)} {u : Tid} {o : Option (List UInt8)}
    {l : List UInt8} (hl : i t = some l) (hne : u ≠ t) : Function.update i u o t = some l :=
  (Function.update_of_ne hne.symm ..).trans hl

/-- One move, for a process. -/
theorem Spec.ownStore {i : Tid → Option (List UInt8)} {l : List UInt8} (h : s.Spec mem₀ i m)
    (hquiet : s.Quiet t m) (hl : s.contents t = some l) : i t = some (ownStore t l m) := by
  -- a thread that was not there before
  have hnew : ∀ {u}, s.contents u = none → u ≠ t := by
    rintro u hnone rfl
    exact absurd (hnone.symm.trans hl) (by simp)
  cases m with
  | spawn file sstatus =>
    simp only [Spec] at h
    split_ifs at h
    · exact h ▸ hl
    · obtain ⟨f, -, stack, -, hnone, rfl⟩ := h
      exact update_ne hl (hnew hnone)
  | exec file tf =>
    simp only [Spec] at h
    split_ifs at h with hr
    · obtain ⟨f, -, stack, -, -, rfl⟩ := h
      exact update_ne hl fun hcur => hquiet hcur hr
    · exact h ▸ hl
  | fork tf =>
    obtain ⟨-, rfl⟩ | ⟨ch, hnone, -, rfl⟩ := h
    · exact hl
    · exact update_ne hl (hnew hnone)
  | store u k v =>
    obtain ⟨l', hl', -, rfl⟩ := h
    rw [Flat.ownStore]
    split_ifs with hu
    · subst hu
      obtain rfl := Option.some.inj (hl.symm.trans hl')
      exact Function.update_self ..
    · exact update_ne hl hu
  | poke a v =>
    obtain ⟨-, rfl⟩ | ⟨u, g, hg, k, rfl, l', hl', hk, rfl⟩ := h
    · exact hl
    · refine update_ne hl ?_
      rintro rfl
      rw [contents, Option.mem_def.mp hg] at hl'
      obtain rfl := Option.some.inj hl'
      rw [Endian.length_load] at hk
      exact hquiet g hg ⟨Nat.le_add_right _ _, Nat.add_lt_add_left hk _⟩
  | rest a =>
    cases a with
    | terminate u => exact h ▸ update_ne hl hquiet
    | shellStop u => exact h ▸ update_ne hl hquiet
    | reap p => exact h ▸ update_ne hl hquiet
    | deliver =>
      simp only [Spec] at h
      split_ifs at h with hnull
      · exact h ▸ update_ne hl fun hcur => hquiet hcur hnull
      · exact h ▸ hl
    | _ => exact h ▸ hl

/-- **A process changes by its own stores only**, in every fair run in which nobody ends it or
replaces its image and no other write hits its image.  Between its stores, and in any order,
programs are started and replaced, forked and ended, signals are delivered, memory is allocated and
freed, and other processes are written. -/
theorem contents_of_run (fa : ℕ → ℤ) {base size : ℕ} (hbase : pageSize ∣ base)
    (hend : base + size < 2 ^ 64) {reserves : List (ℕ × ℕ)}
    (hentry : ∀ e ∈ reserves, StartupClient.Entry base size e)
    (hdisk : ∀ x ∈ disk, base ≤ x → x < base + size → ∃ e ∈ reserves, x ∈ StartupClient.bytes e)
    (pools : ℕ → Pool) (table : ℕ → ℤ) (mem : ℕ → ℕ) {x : Thread}
    (hx : ∀ q, x.part .bootstrap q = none) (addr : Word) (mem₀ : ℕ → UInt8)
    (hs : Reachable step (Fair disk)
      ⟨.boot (bootHeap fa base size reserves pools table mem) x addr, mem₀⟩ s) {ms : List Move}
    (hrun : runList step s ms = some s')
    (hmeets : Meets step (fun s m => s.Fair disk m ∧ s.Quiet t m) s ms) {l : List UInt8}
    (hl : s.contents t = some l) : s'.contents t = some (ms.foldl (ownStore t) l) := by
  have hoff := offHeap_boot fa hbase hend hentry hdisk pools table mem
  have hstart := inv_boot fa hbase hend reserves pools table mem hx addr disk mem₀
  have hinv := hs.invariant hstart fun s m s' h hfair hm => (h.step hoff hfair hm).1
  clear hs
  induction ms generalizing s l with
  | nil => exact Option.some.inj hrun ▸ hl
  | cons m ms ih =>
    obtain ⟨u, hu, hrun⟩ := Option.bind_eq_some_iff.mp hrun
    obtain ⟨⟨hfair, hquiet⟩, hmeets⟩ := hmeets
    obtain ⟨hinv', hspec⟩ := hinv.step hoff hfair hu
    exact ih hrun (hmeets u hu) (hspec.ownStore hquiet hl) hinv'

/-- A program writes, another one is started, and is written from outside, then the first one writes
again. -/
theorem contents_of_stores : ∃ s s' l,
    runList step start [.spawn (some (0x90000010, 3)) 0] = some s ∧
    s.contents (.heap 0x80000c00) = some l ∧
    runList step s [.store (.heap 0x80000c00) 0 7, .spawn (some (0x90000020, 100)) 0,
      .poke 0x80010000 1, .store (.heap 0x80000c00) 5 9] = some s' ∧
    s'.contents (.heap 0x80000c00) = some ((l.set 0 7).set 5 9) := by
  obtain ⟨l, hl⟩ := Option.isSome_iff_exists.mp (show ((runList step start
    [.spawn (some (0x90000010, 3)) 0]).bind fun s => s.contents (.heap 0x80000c00)).isSome = true
      by decide +kernel)
  obtain ⟨s, hs, hl⟩ := Option.bind_eq_some_iff.mp hl
  obtain ⟨s', hs'⟩ := Option.isSome_iff_exists.mp (show ((runList step start
    [.spawn (some (0x90000010, 3)) 0]).bind fun s => runList step s
      [.store (.heap 0x80000c00) 0 7, .spawn (some (0x90000020, 100)) 0,
        .poke 0x80010000 1, .store (.heap 0x80000c00) 5 9]).isSome = true by decide +kernel)
  -- the write from outside does not hit the image of the first program
  have himage : ((runList step start [.spawn (some (0x90000010, 3)) 0]).bind fun s =>
      (s.step (.store (.heap 0x80000c00) 0 7)).bind fun u =>
        (u.step (.spawn (some (0x90000020, 100)) 0)).bind fun u =>
          u.sys.image (.heap 0x80000c00)) = some ⟨0x80008000, 0x4003⟩ := by decide +kernel
  rw [hs] at hs'
  rw [hs, Option.bind_some] at himage
  have hmeets : Meets step (fun s m => s.Fair startDisk m ∧ s.Quiet (.heap 0x80000c00) m) s
      [.store (.heap 0x80000c00) 0 7, .spawn (some (0x90000020, 100)) 0, .poke 0x80010000 1,
        .store (.heap 0x80000c00) 5 9] := by
    refine ⟨⟨trivial, trivial⟩, fun u hu => ⟨⟨fair_start (by decide) (by decide), trivial⟩,
      fun u' hu' => ⟨⟨fun h => absurd h.1 (by decide), fun g hg h => ?_⟩,
        fun _ _ => ⟨⟨trivial, trivial⟩, fun _ _ => trivial⟩⟩⟩⟩
    rw [hu, Option.bind_some, hu', Option.bind_some] at himage
    obtain rfl := Option.some.inj (himage.symm.trans hg)
    exact absurd h.2 (by decide)
  refine ⟨s, s', l, hs, hl, hs', contents_of_run (fun _ => 0) (by decide) (by decide)
    (fun _ he => absurd he List.not_mem_nil) ?_ _ _ _ ?_ 0 _
    (reachable_start hs ⟨fair_start (by decide) (by decide), fun _ _ => trivial⟩) hs' hmeets hl⟩
  · exact fun x hx _ hhigh => absurd (hx.1.trans_lt hhigh) (by decide)
  · intro q
    cases q <;> rfl

end Flat

end Creation
end OscKernel
