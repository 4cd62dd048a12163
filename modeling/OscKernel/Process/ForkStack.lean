import OscKernel.Kmalloc.Blocks
import OscKernel.Process.Creation

/-!
# The stack of a forked process (`syscall.c`, `signal.c`)

`sys_fork` copies the image and the stack of the parent and moves `sp` by the distance of the two
buffers.  While a signal handler runs `sp` is on the signal stack, a buffer of its own, which is not
copied.

* `forkMem`: the memory after the copy.
* `ownStack_iff`: the child gets a stack of its own exactly when `sp` of the parent is in its image
  and stack, and not on the active signal stack.
* `sharedStack_of_handler`: the child of a handler starts with `sp` outside its buffer.

## A stack of its own

`OwnStack` is about the registers that the child starts with and about bytes: its `sp` points into
its buffer, and what the parent has at and above its own `sp` has a copy at the same distance from
the child's.  The regions in which a process may have its stack are those that the kernel gave it
(`stackRegions`).  A program may put `sp` anywhere, and then there is nothing that could have been
copied; this is part of the condition, and no hypothesis.

## What is assumed

The parent holds its image in the ledger of the heap, with the size that its fields say, and in a
handler it holds the signal stack, which is another block (`HoldsStacks`).  The memory ends below
`2^64`: otherwise `sp` at the end of a stack is `0`, and a comparison of addresses says nothing.
That the copy does not overwrite its source comes from the heap: the two buffers are held, and what
is held does not meet.
-/

namespace OscKernel
namespace Creation

open Buddy (SameRegion)
open Rv64 (Word)
open Process (TrapFrame sigstackSize)

/-- `mem_cpy`, of `n` bytes. -/
def memCpy : ℕ → ℕ → ℕ → (ℕ → UInt8) → ℕ → UInt8
  | _, _, 0, mem => mem
  | d, s, n + 1, mem => memCpy (d + 1) (s + 1) n (Function.update mem d (mem s))

namespace System

variable (s : System)

/-- The memory after `sys_fork` has copied the image, up to the data of the kernel. -/
def forkMem (mem : ℕ → UInt8) : ℕ → UInt8 :=
  let x := s.get s.current
  if x.imageBase = 0 then mem
  else
    let r := s.threadAllocBare
    if r.2 = 0 then mem
    else
      let b := r.1.allocImage r.2 x.imageSize x.totalSize
      if b.2 = 0 then mem else memCpy b.2 x.imageBase x.totalSize.toNat mem

end System

/-- The memory that the kernel gave to a process for its stack: the image with the stack behind it,
and the signal stack while a handler runs. -/
def Thread.stackRegions (x : Thread) : List (ℕ × ℕ) :=
  (x.imageBase, x.totalSize.toNat) ::
    if x.sig.inHandler then [(x.sig.sigstackBase.toNat, sigstackSize.toNat)] else []

/-- `sp` points into the region, or to its end. -/
def PointsInto (sp : ℕ) (r : ℕ × ℕ) : Prop := r.1 ≤ sp ∧ sp ≤ r.1 + r.2

/-- **A stack of its own.**  `sp` of the child `ch` points into its buffer, and what the parent has
at and above its own `sp`, in the region that it points into, has a copy there. -/
structure OwnStack (s s' : System) (tf : Word) (ch : ℕ) (mem mem' : ℕ → UInt8) : Prop where
  inside : PointsInto (s'.frame (s'.get (.heap ch)).sp).sp.toNat
    ((s'.get (.heap ch)).imageBase, (s'.get (.heap ch)).totalSize.toNat)
  copied : ∀ r ∈ (s.get s.current).stackRegions, PointsInto (s.frame tf).sp.toNat r →
    ∀ k, (s.frame tf).sp.toNat + k < r.1 + r.2 →
      (s'.frame (s'.get (.heap ch)).sp).sp.toNat + k <
          (s'.get (.heap ch)).imageBase + (s'.get (.heap ch)).totalSize.toNat ∧
        mem' ((s'.frame (s'.get (.heap ch)).sp).sp.toNat + k) = mem ((s.frame tf).sp.toNat + k)

/-- `sp` of the parent is in its image and stack, and not on the active signal stack. -/
def OnImageStack (x : Thread) (sp : ℕ) : Prop :=
  PointsInto sp (x.imageBase, x.totalSize.toNat) ∧
    ¬ (x.sig.inHandler = true ∧ x.sig.sigstackBase.toNat ≤ sp ∧
      sp < x.sig.sigstackBase.toNat + sigstackSize.toNat)

/-- The kernel gave the process its stacks: it holds the image, of a size with which the request did
not wrap, and in a handler it holds a signal stack that is another block. -/
structure System.HoldsStacks (s : System) (x : Thread) : Prop where
  image : ⟨x.imageBase, x.totalSize.toNat⟩ ∈ s.client.live
  round : x.totalSize.toNat + pageSize - 1 < 2 ^ 64
  sigstack : x.sig.inHandler = true →
    ⟨x.sig.sigstackBase.toNat, sigstackSize.toNat⟩ ∈ s.client.live ∧
      x.sig.sigstackBase.toNat ≠ x.imageBase

/-! ## The copy -/

section Copy

variable {d s n k x : ℕ} {mem : ℕ → UInt8}

theorem memCpy_of_not_mem (hx : x < d ∨ d + n ≤ x) : memCpy d s n mem x = mem x := by
  induction n generalizing d s mem with
  | zero => rfl
  | succ n ih =>
    rw [memCpy, ih (by omega)]
    exact Function.update_of_ne (by omega) _ _

/-- Buffers that do not meet: the bytes arrive as they were. -/
theorem memCpy_add (hapart : d + n ≤ s ∨ s + n ≤ d) (hk : k < n) :
    memCpy d s n mem (d + k) = mem (s + k) := by
  induction n generalizing d s k mem with
  | zero => exact absurd hk (Nat.not_lt_zero k)
  | succ n ih =>
    rw [memCpy]
    cases k with
    | zero =>
      rw [memCpy_of_not_mem (by omega)]
      exact Function.update_self ..
    | succ k =>
      have hrec : memCpy (d + 1) (s + 1) n (Function.update mem d (mem s)) (d + 1 + k) =
          Function.update mem d (mem s) (s + 1 + k) :=
        ih (by omega) (Nat.lt_of_succ_lt_succ hk)
      rw [Nat.add_assoc, Nat.add_comm 1 k, Nat.add_assoc, Nat.add_comm 1 k] at hrec
      rw [hrec]
      exact Function.update_of_ne (by omega) _ _

end Copy

/-! ## The translation of `sp` -/

section Move

variable {base b n : ℕ} {sp : Word}

theorem toNat_move (hbase : base < 2 ^ 64) (hb : b < 2 ^ 64) :
    (ptr b + (sp - ptr base)).toNat = (b + (2 ^ 64 - base + sp.toNat) % 2 ^ 64) % 2 ^ 64 := by
  unfold ptr
  rw [BitVec.toNat_add, BitVec.toNat_sub, BitVec.toNat_ofNat, BitVec.toNat_ofNat,
    Nat.mod_eq_of_lt hbase, Nat.mod_eq_of_lt hb]

/-- Inside the image `sp` keeps its offset. -/
theorem toNat_move_of_pointsInto (hin : base + n < 2 ^ 64) (hin' : b + n < 2 ^ 64)
    (hsp : PointsInto sp.toNat (base, n)) :
    (ptr b + (sp - ptr base)).toNat = b + (sp.toNat - base) := by
  obtain ⟨hlow, hhigh⟩ := hsp
  dsimp only at hlow hhigh
  rw [toNat_move (by omega) (by omega)]
  omega

/-- What is translated into the copy was in the image. -/
theorem pointsInto_of_move (hin : base + n < 2 ^ 64) (hin' : b + n < 2 ^ 64)
    (hsp : PointsInto (ptr b + (sp - ptr base)).toNat (b, n)) :
    PointsInto sp.toNat (base, n) := by
  unfold PointsInto at hsp ⊢
  rw [toNat_move (by omega) (by omega)] at hsp
  have hlt := sp.isLt
  omega

/-- Two buffers of one size that do not meet. -/
theorem apart_of_disjoint {m : ℕ} (hm : 0 < m) (hn : n ≤ m)
    (hdisj : Disjoint (Set.Ico b (b + m)) (Set.Ico base (base + m))) :
    b + n ≤ base ∨ base + n ≤ b := by
  rw [Set.disjoint_left] at hdisj
  rcases Nat.le_total b base with hle | hle
  · refine Or.inl (Nat.le_of_not_lt fun hlt => ?_)
    exact @hdisj base ⟨hle, by omega⟩ ⟨le_rfl, by omega⟩
  · refine Or.inr (Nat.le_of_not_lt fun hlt => ?_)
    exact @hdisj b ⟨le_rfl, by omega⟩ ⟨hle, by omega⟩

end Move

namespace System

variable {s s' : System} {t u : Tid} {p n : ℕ} {f : Thread → Thread} {size total tf : Word}
  {mem : ℕ → UInt8}

/-! ## What `sys_fork` makes -/

theorem get_modify_self (h : (s.thread t).isSome) : (s.modify t f).get t = f (s.get t) := by
  obtain ⟨x, hx⟩ := Option.isSome_iff_exists.mp h
  unfold System.get
  rw [thread_modify, if_pos rfl, hx]
  rfl

/-- A field that is not written. -/
theorem get_linkParent_of {β : Type*} (g : Thread → β)
    (hg : ∀ x l, g { x with children := l } = g x) :
    g ((s.linkParent t).get u) = g (s.get u) := by
  unfold System.linkParent
  split
  · rfl
  · exact get_modify_of g fun x => hg x _

@[simp] theorem frame_linkParent : (s.linkParent t).frame = s.frame := by
  unfold System.linkParent
  split <;> rfl

@[simp] theorem isSome_linkParent : ((s.linkParent t).thread u).isSome = (s.thread u).isSome := by
  unfold System.linkParent
  split
  · rfl
  · exact isSome_modify

@[simp] theorem isSome_threadEnqueueReady :
    ((s.threadEnqueueReady t).thread u).isSome = (s.thread u).isSome := isSome_modify

theorem isSome_plantFrame {f : TrapFrame} :
    ((s.plantFrame t f).thread u).isSome = (s.thread u).isSome := isSome_modify

/-- The memory stays the same. -/
theorem Ok.sameRegion_kmalloc (h : s.Ok) (n : ℕ) :
    SameRegion s.client.heap.buddy (s.kmalloc n).1.client.heap.buddy := by
  obtain ⟨fl, hfl⟩ := h.ledger
  have hstep : s.client.step (.kmalloc n) = some (s.kmalloc n).1.client := rfl
  cases hfl.blockMove hstep with
  | same hb => exact hb ▸ SameRegion.refl _
  | grant idx k hg => exact hg.toSameRegion
  | release g idx _ _ _ _ hrel => exact hrel.toSameRegion

theorem Ok.sameRegion_threadAllocBare (h : s.Ok) (hbare : Bare s s' p) :
    SameRegion s.client.heap.buddy s'.client.heap.buddy := by
  have h1 := h.sameRegion_kmalloc sizeofThread
  have h2 := (h.kmalloc_ok sizeofThread).sameRegion_kmalloc kstackSize
  rw [hbare.heap]
  exact ⟨h2.base.trans h1.base, h2.end.trans h1.end, h2.pages.trans h1.pages⟩

/-- What `sys_fork` leaves behind when it makes the child `ch` with its image at `b`. -/
structure Forked (s s' : System) (tf : Word) (ch b : ℕ) : Prop where
  ok : s'.Ok
  fresh : s.thread (.heap ch) = none
  others : ∀ u ≠ .heap ch, (s'.thread u).isSome = (s.thread u).isSome
  live : ∃ stk, s'.client.live = ⟨b, (s.get s.current).totalSize.toNat⟩ :: ⟨stk, kstackSize⟩ ::
    ⟨ch, sizeofThread⟩ :: s.client.live
  region : SameRegion s.client.heap.buddy s'.client.heap.buddy
  imageBase : (s'.get (.heap ch)).imageBase = b
  totalSize : (s'.get (.heap ch)).totalSize = (s.get s.current).totalSize
  sp : (s'.frame (s'.get (.heap ch)).sp).sp =
    ptr b + ((s.frame tf).sp - ptr (s.get s.current).imageBase)

/-- The fields of a thread with an image. -/
theorem get_allocImage (hp : (s.thread (.heap p)).isSome)
    (hb : (s.allocImage p size total).2 ≠ 0) :
    ((s.allocImage p size total).1.get (.heap p)).imageBase = (s.allocImage p size total).2 ∧
      ((s.allocImage p size total).1.get (.heap p)).totalSize = total ∧
        (s.allocImage p size total).1.frame = s.frame ∧
          ∀ u, ((s.allocImage p size total).1.thread u).isSome = (s.thread u).isSome := by
  unfold allocImage at hb ⊢
  dsimp only at hb ⊢
  split_ifs at hb ⊢ with hnull
  · exact absurd rfl hb
  set s₁ := s.modify (.heap p) fun x => { x with imageSize := size, totalSize := total } with hs₁
  have hsome : ((s₁.kmalloc total.toNat).1.thread (.heap p)).isSome := by
    show (s₁.thread (.heap p)).isSome
    rw [hs₁, isSome_modify]
    exact hp
  have htotal : ((s₁.kmalloc total.toNat).1.get (.heap p)).totalSize = total := by
    show (s₁.get (.heap p)).totalSize = total
    rw [hs₁, get_modify_self hp]
  refine ⟨?_, ?_, rfl, fun u => ?_⟩
  · rw [get_modify_self hsome]
  · rw [get_modify_self hsome]
    exact htotal
  · rw [isSome_modify]
    show (s₁.thread u).isSome = _
    rw [hs₁, isSome_modify]

/-- The end of `sys_fork` leaves a field as it is that it does not write. -/
theorem get_planted {β : Type*} (g : Thread → β) {tf' : TrapFrame} {f₁ f₂ : Thread → Thread}
    (hplant : ∀ x a r, g { x with sp := a, ra := r } = g x) (h₁ : ∀ x, g (f₁ x) = g x)
    (h₂ : ∀ x, g (f₂ x) = g x) (hlink : ∀ x l, g { x with children := l } = g x)
    (hready : ∀ x st, g { x with state := st } = g x) :
    g (((((s.plantFrame t tf').modify t f₁).modify t f₂).linkParent t).threadEnqueueReady t |>.get
      u) = g (s.get u) := by
  calc g (((((s.plantFrame t tf').modify t f₁).modify t f₂).linkParent t).threadEnqueueReady t
        |>.get u)
      = g ((((s.plantFrame t tf').modify t f₁).modify t f₂).linkParent t |>.get u) :=
        get_modify_of g fun x => hready x _
    _ = g (((s.plantFrame t tf').modify t f₁).modify t f₂ |>.get u) := get_linkParent_of g hlink
    _ = g ((s.plantFrame t tf').modify t f₁ |>.get u) := get_modify_of g h₂
    _ = g (s.plantFrame t tf' |>.get u) := get_modify_of g h₁
    _ = g (s.get u) := get_modify_of g fun x => hplant x _ _

/-- The frame that the child starts with. -/
theorem frame_planted {tf' : TrapFrame} {f₁ f₂ : Thread → Thread} (hp : (s.thread t).isSome)
    (h₁ : ∀ x, (f₁ x).sp = x.sp) (h₂ : ∀ x, (f₂ x).sp = x.sp)
    (hs' : s' = ((((s.plantFrame t tf').modify t f₁).modify t f₂).linkParent t).threadEnqueueReady
      t) : s'.frame (s'.get t).sp = tf' := by
  set a := stackTop (ptr (s.get t).kstackBase) (s.get t).kstackSize - sizeofTrapFrame with ha
  have hframe : s'.frame = Function.update s.frame a tf' := by
    rw [hs']
    exact frame_linkParent
  have hsp : (s'.get t).sp = a := by
    rw [hs']
    calc (((((s.plantFrame t tf').modify t f₁).modify t f₂).linkParent t).threadEnqueueReady t
          |>.get t).sp
        = ((((s.plantFrame t tf').modify t f₁).modify t f₂).linkParent t |>.get t).sp :=
          get_modify_of Thread.sp fun _ => rfl
      _ = (((s.plantFrame t tf').modify t f₁).modify t f₂ |>.get t).sp :=
          get_linkParent_of Thread.sp fun _ _ => rfl
      _ = ((s.plantFrame t tf').modify t f₁ |>.get t).sp := get_modify_of Thread.sp h₂
      _ = (s.plantFrame t tf' |>.get t).sp := get_modify_of Thread.sp h₁
      _ = a := congrArg Thread.sp (get_modify_self (s := { s with
          frame := Function.update s.frame a tf' }) hp)
  rw [hframe, hsp, Function.update_self]

/-- The thread that `thread_alloc_bare` returns is there. -/
theorem isSome_threadAllocBare (hne : s.threadAllocBare.2 ≠ 0) :
    (s.threadAllocBare.1.thread (.heap s.threadAllocBare.2)).isSome := by
  unfold threadAllocBare at hne ⊢
  dsimp only at hne ⊢
  split_ifs at hne ⊢ with ht hstk
  · exact absurd rfl hne
  · exact absurd rfl hne
  · exact thread_initThread_self

/-- **`sys_fork`** makes no thread, or a child with a copy of the image. -/
theorem Ok.sysFork_forked (h : s.Ok) (tf : Word) (mem : ℕ → UInt8) :
    (∀ u, ((s.sysFork tf).1.thread u).isSome = (s.thread u).isSome) ∨
      ∃ ch b, Forked s (s.sysFork tf).1 tf ch b ∧ s.forkMem mem =
        memCpy b (s.get s.current).imageBase (s.get s.current).totalSize.toNat mem := by
  unfold sysFork forkMem
  dsimp only
  by_cases himage : (s.get s.current).imageBase = 0
  · rw [if_pos himage]
    exact Or.inl fun _ => rfl
  rw [if_neg himage, if_neg himage]
  rcases h.threadAllocBare_cases with ⟨hnull, -, hundone, -⟩ | ⟨hne, hbare, -⟩
  · rw [if_pos hnull]
    exact Or.inl fun u => by rw [hundone.rest]
  rw [if_neg hne, if_neg hne]
  rcases hbare.allocImage_cases (s.get s.current).imageSize (s.get s.current).totalSize with
    ⟨hnull, -, -, hundone⟩ | ⟨hne', -, hchild⟩
  · rw [if_pos hnull]
    exact Or.inl fun u => by rw [hundone.rest]
  rw [if_neg hne', if_neg hne']
  refine Or.inr ⟨s.threadAllocBare.2, (s.threadAllocBare.1.allocImage s.threadAllocBare.2
    (s.get s.current).imageSize (s.get s.current).totalSize).2, ?_, rfl⟩
  have hsome := isSome_threadAllocBare hne
  have hregion := h.sameRegion_threadAllocBare hbare
  obtain ⟨himageBase, htotal, hframe, hthread⟩ := get_allocImage hsome hne'
  have hregion' := (hbare.ok.modify (t := .heap s.threadAllocBare.2) (f := fun x =>
    { x with imageSize := (s.get s.current).imageSize, totalSize := (s.get s.current).totalSize
      })).sameRegion_kmalloc (s.get s.current).totalSize.toNat
  have hclient : SameRegion s.threadAllocBare.1.client.heap.buddy
      (s.threadAllocBare.1.allocImage s.threadAllocBare.2 (s.get s.current).imageSize
        (s.get s.current).totalSize).1.client.heap.buddy := by
    unfold allocImage at hne' ⊢
    dsimp only at hne' ⊢
    split_ifs at hne' ⊢ with hnull
    · exact absurd rfl hne'
    · exact hregion'
  generalize (s.threadAllocBare.1.allocImage s.threadAllocBare.2 (s.get s.current).imageSize
    (s.get s.current).totalSize) = r at *
  obtain ⟨s₃, b⟩ := r
  dsimp only at *
  refine
    { ok := hchild.ok.plantFrame.modify.modify.linkParent.threadEnqueueReady
      fresh := hbare.fresh
      others := fun u hu => ?_
      live := ⟨(s.threadAllocBare.1.get (.heap s.threadAllocBare.2)).kstackBase, ?_⟩
      region := ?_
      imageBase := ?_
      totalSize := ?_
      sp := ?_ }
  · rw [isSome_threadEnqueueReady, isSome_linkParent, isSome_modify, isSome_modify,
      isSome_plantFrame, hthread, hbare.rest]
    exact congrArg Option.isSome (Function.update_of_ne hu ..)
  · show (System.linkParent _ _).client.live = _
    rw [client_linkParent]
    show s₃.client.live = _
    rw [hchild.live, hbare.live]
  · show SameRegion _ (System.linkParent _ _).client.heap.buddy
    rw [client_linkParent]
    exact hregion.trans hclient
  · refine (get_planted Thread.imageBase ?_ ?_ ?_ ?_ ?_).trans himageBase
    all_goals exact fun _ => by intros; rfl
  · refine (get_planted Thread.totalSize ?_ ?_ ?_ ?_ ?_).trans htotal
    all_goals exact fun _ => by intros; rfl
  · have hsame : s₃.frame = s.frame := by
      rw [hframe, hbare.rest]
    refine (congrArg TrapFrame.sp (frame_planted ((hthread _).symm ▸ hsome) ?_ ?_ rfl)).trans ?_
    · exact fun _ => rfl
    · exact fun _ => rfl
    · show ptr b + ((s₃.frame tf).sp - _) = _
      rw [hsame]

/-- The image of the parent and the copy: both end inside the address space, and they are apart. -/
theorem Forked.apart {ch b : ℕ} (hf : Forked s s' tf ch b)
    (hend : s.client.heap.buddy.gBuddyBase + s.client.heap.buddy.gTotalPages * pageSize < 2 ^ 64)
    (hholds : HoldsStacks s (s.get s.current)) :
    (s.get s.current).imageBase + (s.get s.current).totalSize.toNat < 2 ^ 64 ∧
      b + (s.get s.current).totalSize.toNat < 2 ^ 64 ∧
        (b + (s.get s.current).totalSize.toNat ≤ (s.get s.current).imageBase ∨
          (s.get s.current).imageBase + (s.get s.current).totalSize.toNat ≤ b) := by
  obtain ⟨himage, hround, -⟩ := hholds
  obtain ⟨fl, hfl⟩ := hf.ok.ledger
  obtain ⟨stk, hlive⟩ := hf.live
  generalize s.get s.current = x at *
  have hcopy : (⟨b, x.totalSize.toNat⟩ : Grant) ∈ s'.client.live := hlive ▸ List.mem_cons_self
  have himage' : (⟨x.imageBase, x.totalSize.toNat⟩ : Grant) ∈ s'.client.live := by
    rw [hlive]
    simp [himage]
  have hne : b ≠ x.imageBase := by
    have hnodup := hfl.ptr_nodup
    rw [hlive, List.map_cons, List.nodup_cons] at hnodup
    rintro rfl
    exact hnodup.1 (by simp [List.mem_map_of_mem himage])
  have hle := HeapClient.le_capacityBytes hround
  have hbound := hfl.ptr_add_capacityBytes_le hcopy
  have hbound' := hfl.ptr_add_capacityBytes_le himage'
  rw [hf.region.base, hf.region.pages] at hbound hbound'
  dsimp only at hbound hbound'
  exact ⟨by omega, by omega, apart_of_disjoint (HeapClient.capacityBytes_pos _) hle
    (hfl.capacity_disjoint hcopy himage' hne)⟩

/-- The signal stack in use and the image have no byte in common. -/
theorem HoldsStacks.not_mem {x : Thread} (hholds : HoldsStacks s x) (h : s.Ok) {sp : ℕ}
    (hhandler : x.sig.inHandler = true) (hlow : x.sig.sigstackBase.toNat ≤ sp)
    (hhigh : sp < x.sig.sigstackBase.toNat + sigstackSize.toNat) (himage : x.imageBase ≤ sp) :
    x.imageBase + x.totalSize.toNat ≤ sp := by
  obtain ⟨hsig, hne⟩ := hholds.sigstack hhandler
  obtain ⟨fl, hfl⟩ := h.ledger
  by_contra hlt
  have hle := HeapClient.le_capacityBytes hholds.round
  have hle' : sigstackSize.toNat ≤ HeapClient.capacityBytes sigstackSize.toNat :=
    HeapClient.le_capacityBytes (by decide)
  have hapart := Set.disjoint_left.mp (hfl.capacity_disjoint hsig hholds.image hne)
  refine @hapart sp ⟨hlow, ?_⟩ ⟨himage, ?_⟩
  · exact Nat.lt_of_lt_of_le hhigh (Nat.add_le_add_left hle' _)
  · exact Nat.lt_of_lt_of_le (Nat.lt_of_not_le hlt) (Nat.add_le_add_left hle _)

/-- **Who gets a stack of its own.**  The new thread has one exactly when `sp` of the parent is in
the image and stack of the parent, and not on a signal stack in use. -/
theorem ownStack_iff (h : s.Ok)
    (hend : s.client.heap.buddy.gBuddyBase + s.client.heap.buddy.gTotalPages * pageSize < 2 ^ 64)
    (hholds : HoldsStacks s (s.get s.current)) {ch : ℕ} (hnew : s.thread (.heap ch) = none)
    (hch : ((s.sysFork tf).1.thread (.heap ch)).isSome) (mem : ℕ → UInt8) :
    OwnStack s (s.sysFork tf).1 tf ch mem (s.forkMem mem) ↔
      OnImageStack (s.get s.current) (s.frame tf).sp.toNat := by
  obtain ⟨b, hf, hmem⟩ : ∃ b, Forked s (s.sysFork tf).1 tf ch b ∧ s.forkMem mem =
      memCpy b (s.get s.current).imageBase (s.get s.current).totalSize.toNat mem := by
    rcases h.sysFork_forked tf mem with hsame | ⟨ch', b, hf, hmem⟩
    · rw [hsame, hnew] at hch
      exact absurd hch Bool.false_ne_true
    · by_cases heq : ch = ch'
      · exact ⟨b, heq ▸ hf, hmem⟩
      · rw [hf.others _ fun hc => heq (Tid.heap.inj hc), hnew] at hch
        exact absurd hch Bool.false_ne_true
  obtain ⟨hin, hin', hapart⟩ := hf.apart hend hholds
  have hbase := hf.imageBase
  have htotal := hf.totalSize
  have hsp := hf.sp
  constructor
  · rintro ⟨hinside, hcopied⟩
    rw [hbase, htotal, hsp] at hinside hcopied
    have hpoints := pointsInto_of_move hin hin' hinside
    refine ⟨hpoints, fun ⟨hhandler, hlow, hhigh⟩ => ?_⟩
    -- on the signal stack `sp` is at the end of the image, where nothing is copied
    have hlast := hholds.not_mem h hhandler hlow hhigh hpoints.1
    have hr : ((s.get s.current).sig.sigstackBase.toNat, sigstackSize.toNat) ∈
        (s.get s.current).stackRegions := by
      unfold Thread.stackRegions
      rw [if_pos hhandler]
      exact List.mem_cons_of_mem _ List.mem_cons_self
    have hlt := (hcopied _ hr ⟨hlow, hhigh.le⟩ 0 hhigh).1
    rw [toNat_move_of_pointsInto hin hin' hpoints] at hlt
    have hlow' := hpoints.1
    dsimp only at hlow'
    omega
  · rintro ⟨hpoints, hnot⟩
    have hmove := toNat_move_of_pointsInto hin hin' hpoints
    obtain ⟨hlow, hhigh⟩ := id hpoints
    dsimp only at hlow hhigh
    refine ⟨?_, fun r hr hpr k hk => ?_⟩
    · rw [hbase, htotal, hsp, hmove]
      exact ⟨by dsimp only; omega, by dsimp only; omega⟩
    · unfold Thread.stackRegions at hr
      rcases List.mem_cons.mp hr with rfl | hr
      · dsimp only at hk
        rw [hbase, htotal, hsp, hmove, hmem]
        refine ⟨by omega, ?_⟩
        rw [Nat.add_assoc, memCpy_add hapart (by omega)]
        congr 1
        omega
      · split_ifs at hr with hhandler
        · obtain rfl := List.mem_singleton.mp hr
          exact absurd ⟨hhandler, hpr.1, by dsimp only at hk; omega⟩ hnot
        · exact absurd hr List.not_mem_nil

/-! ## A fork before and in a handler -/

/-- Where the trap frame of the process is. -/
def frameAddr : Word := ((forker 2).get (forker 2).current).sp

/-- The `struct thread` of the child. -/
def childAddr : ℕ := (forker 2).threadAllocBare.2

/-- The process forks before it has pushed anything. -/
theorem ownStack_of_forker :
    OwnStack (forker 2) ((forker 2).sysFork frameAddr).1 frameAddr childAddr (fun _ => 7)
      ((forker 2).forkMem fun _ => 7) := by
  refine (ownStack_iff (ok_forker 2) (by decide +kernel) ⟨by decide +kernel, by decide +kernel,
    fun hhandler => ?_⟩ (Option.isNone_iff_eq_none.mp (by decide +kernel)) (by decide +kernel)
      fun _ => 7).mpr ⟨⟨by decide +kernel, by decide +kernel⟩, fun hin => ?_⟩
  · exact absurd hhandler (by decide +kernel)
  · exact absurd hin.1 (by decide +kernel)

/-- The current process, with its frame at `tf`, is in a handler that has pushed 16 bytes. -/
def inHandler (s : System) (tf : Word) : System :=
  let r := s.kmalloc sigstackSize.toNat
  let s := r.1.modify r.1.current fun x =>
    { x with sig := { x.sig with sigstackBase := ptr r.2, inHandler := true } }
  let f := { s.frame tf with sp := ptr r.2 + sigstackSize - 16 }
  { s with frame := Function.update s.frame tf f }

theorem Ok.inHandler (h : s.Ok) : (s.inHandler tf).Ok := by
  refine (h.kmalloc_ok sigstackSize.toNat).congr rfl fun p hp => ?_
  unfold System.inHandler at hp
  dsimp only at hp
  rwa [isSome_modify] at hp

/-- The same process in a handler. -/
def handlerForker : System := (forker 2).inHandler frameAddr

/-- The `struct thread` of the child that it makes. -/
def handlerChild : ℕ := handlerForker.threadAllocBare.2

/-- **The child of a handler** starts with `sp` outside its buffer. -/
theorem sharedStack_of_handler :
    handlerForker.Ok ∧ handlerForker.HoldsStacks (handlerForker.get handlerForker.current) ∧
      (∃ r ∈ (handlerForker.get handlerForker.current).stackRegions,
        PointsInto (handlerForker.frame frameAddr).sp.toNat r) ∧
      handlerForker.thread (.heap handlerChild) = none ∧
      ((handlerForker.sysFork frameAddr).1.thread (.heap handlerChild)).isSome ∧
      ¬ OwnStack handlerForker (handlerForker.sysFork frameAddr).1 frameAddr handlerChild
        (fun _ => 7) (handlerForker.forkMem fun _ => 7) := by
  refine ⟨?_, ⟨by decide +kernel, by decide +kernel, fun _ => ⟨by decide +kernel,
    by decide +kernel⟩⟩, ⟨((handlerForker.get handlerForker.current).sig.sigstackBase.toNat,
      sigstackSize.toNat), by decide +kernel, by decide +kernel, by decide +kernel⟩,
    Option.isNone_iff_eq_none.mp (by decide +kernel), by decide +kernel, fun hown => ?_⟩
  · exact (ok_forker 2).inHandler
  · exact absurd hown.inside.1 (by decide +kernel)

end System
end Creation
end OscKernel
