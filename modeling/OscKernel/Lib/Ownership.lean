import Mathlib.Data.List.Nodup
import Mathlib.Logic.Function.Basic

/-!
# Heap blocks and the slots that hold them

A heap that knows which blocks are allocated and which calls of its release function were made.
Pointers live in slots; `Owned` says that every pointer is to an allocated block and that no two
slots hold the same one.

* `Owned.acquire`, `Owned.release`, `Owned.forget`: what allocation and release do to it.
* `Covers.acquire`, `Covers.release`: the same for `Covers`, which says that nothing is leaked.
* `BlockHeap.count_released_of_ne`: the calls that released other blocks do not count for this one.
* `BlockHeap.Legal.count`: the balance of a sequence of calls that releases what is allocated.
* `Ledger`: the allocated blocks are those that are held, each by one holder, and every call so far
  released an allocated block; `Ledger.acquire`, `Ledger.release`, `Ledger.move`: what keeps it.
-/

namespace OscKernel

variable {ι α : Type*}

/-- The allocated blocks, and the calls of the release function, the latest first. -/
structure BlockHeap (α : Type*) where
  live : List α
  released : List α

namespace BlockHeap

variable (h : BlockHeap α) (p : α)

/-- A block is allocated. -/
def acquire : BlockHeap α := { h with live := p :: h.live }

/-- A block is freed. -/
def release [DecidableEq α] : BlockHeap α := ⟨h.live.erase p, p :: h.released⟩

/-- Between `h` and `h'` only the blocks `ps` were released. -/
def Releases (h h' : BlockHeap α) (ps : List α) : Prop := h'.released = ps ++ h.released

variable {h p} {h' h'' : BlockHeap α} {ps qs : List α}

/-- **Other blocks do not count.** -/
theorem count_released_of_ne [DecidableEq α] (hps : Releases h h' ps) (hp : ∀ q ∈ ps, q ≠ p) :
    h'.released.count p = h.released.count p := by
  unfold Releases at hps
  have hnone : ps.count p = 0 := List.count_eq_zero.mpr fun hmem => hp p hmem rfl
  rw [hps, List.count_append, hnone, Nat.zero_add]

/-- `h'` comes from `h` by calls that allocate `gs` and release `ps`, the latest first: what is
allocated was not, and what is released was. -/
inductive Legal [DecidableEq α] (h : BlockHeap α) : List α → List α → BlockHeap α → Prop
  | refl : Legal h [] [] h
  | acquire {gs ps : List α} {h' : BlockHeap α} {p : α} (hl : Legal h gs ps h')
      (hp : p ∉ h'.live) : Legal h (p :: gs) ps (h'.acquire p)
  | release {gs ps : List α} {h' : BlockHeap α} {p : α} (hl : Legal h gs ps h')
      (hp : p ∈ h'.live) : Legal h gs (p :: ps) (h'.release p)

theorem Legal.releases [DecidableEq α] {gs : List α} (hl : Legal h gs ps h') :
    h.Releases h' ps := by
  induction hl with
  | refl => rfl
  | acquire _ _ ih => exact ih
  | release _ _ ih => exact congrArg (List.cons _) ih

/-- **The balance.**  What was allocated before or meanwhile is allocated still or was released. -/
theorem Legal.count [DecidableEq α] {gs : List α} (hl : Legal h gs ps h') (q : α) :
    h.live.count q + gs.count q = h'.live.count q + ps.count q := by
  induction hl with
  | refl => rfl
  | acquire _ _ ih =>
    simp only [BlockHeap.acquire, List.count_cons]
    omega
  | @release _ _ h' p _ hp ih =>
    have hpos := List.count_pos_iff.mpr hp
    simp only [BlockHeap.release, List.count_cons, List.count_erase]
    by_cases hqp : p = q
    · subst hqp
      simp only [beq_self_eq_true, if_true]
      omega
    · simp only [beq_iff_eq, hqp, if_false]
      omega

end BlockHeap

/-- Every block is in a slot. -/
def Covers (null : α) (own : ι → α) (live : List α) : Prop := ∀ p ∈ live, p ≠ null ∧ ∃ i, own i = p

/-- Every slot holds `null` or a live block, and no block is in two slots. -/
structure Owned (null : α) (own : ι → α) (live : List α) : Prop where
  mem_live : ∀ i, own i ≠ null → own i ∈ live
  inj : ∀ i j, own i ≠ null → own i = own j → i = j
  nodup : live.Nodup

namespace Owned

variable {null : α} {own own' : ι → α} {live : List α} {i : ι} {p : α}

/-- A slot receives a block that was not allocated. -/
theorem acquire [DecidableEq ι] (h : Owned null own live) (hp : p ∉ live) :
    Owned null (Function.update own i p) (p :: live) where
  mem_live j hj := by
    by_cases hji : j = i
    · rw [hji, Function.update_self]
      exact List.mem_cons_self
    · rw [Function.update_of_ne hji] at hj ⊢
      exact List.mem_cons_of_mem _ (h.mem_live j hj)
  inj j k hj hjk := by
    have hne : ∀ l, own l ≠ null → own l ≠ p := fun l hl heq => hp (heq ▸ h.mem_live l hl)
    rw [Function.update_apply] at hj
    rw [Function.update_apply, Function.update_apply] at hjk
    split_ifs at hj hjk with hji hki hki
    · exact hji.trans hki.symm
    · exact absurd hjk.symm (hne k (hjk ▸ hj))
    · exact absurd hjk (hne j hj)
    · exact h.inj j k hj hjk
  nodup := List.nodup_cons.mpr ⟨hp, h.nodup⟩

/-- A slot becomes empty, and its block is released. -/
theorem release [DecidableEq ι] [DecidableEq α] (h : Owned null own live) :
    Owned null (Function.update own i null) (live.erase (own i)) where
  mem_live j hj := by
    by_cases hji : j = i
    · rw [hji, Function.update_self] at hj
      exact absurd rfl hj
    · rw [Function.update_of_ne hji] at hj ⊢
      have hne : own j ≠ own i := fun heq => hji (h.inj j i hj heq)
      exact (List.mem_erase_of_ne hne).mpr (h.mem_live j hj)
  inj j k hj hjk := by
    rw [Function.update_apply] at hj
    rw [Function.update_apply, Function.update_apply] at hjk
    split_ifs at hj hjk with hji hki hki
    · exact absurd rfl hj
    · exact absurd rfl hj
    · exact absurd hjk hj
    · exact h.inj j k hj hjk
  nodup := h.nodup.erase _

/-- A slot becomes empty, and its block stays allocated. -/
theorem forget [DecidableEq ι] (h : Owned null own live) :
    Owned null (Function.update own i null) live where
  mem_live j hj := by
    rw [Function.update_apply] at hj ⊢
    split_ifs at hj ⊢
    · exact absurd rfl hj
    · exact h.mem_live j hj
  inj j k hj hjk := by
    rw [Function.update_apply] at hj
    rw [Function.update_apply, Function.update_apply] at hjk
    split_ifs at hj hjk with hji hki hki
    · exact absurd rfl hj
    · exact absurd rfl hj
    · exact absurd hjk hj
    · exact h.inj j k hj hjk
  nodup := h.nodup

/-- A block is allocated that no slot receives. -/
theorem grow (h : Owned null own live) (hp : p ∉ live) : Owned null own (p :: live) where
  mem_live i hi := List.mem_cons_of_mem _ (h.mem_live i hi)
  inj := h.inj
  nodup := List.nodup_cons.mpr ⟨hp, h.nodup⟩

/-- A block that is in no slot is released. -/
theorem release_unowned [DecidableEq α] (h : Owned null own live)
    (hp : ∀ j, own j ≠ null → own j ≠ p) :
    Owned null own (live.erase p) where
  mem_live j hj := (List.mem_erase_of_ne (hp j hj)).mpr (h.mem_live j hj)
  inj := h.inj
  nodup := h.nodup.erase _

end Owned

namespace Covers

variable {null : α} {own : ι → α} {live : List α} {i : ι} {p : α}

/-- An empty slot receives a block. -/
theorem acquire [DecidableEq ι] (h : Covers null own live) (hempty : own i = null)
    (hp : p ≠ null) : Covers null (Function.update own i p) (p :: live) := by
  intro q hq
  rcases List.mem_cons.mp hq with rfl | hq
  · exact ⟨hp, i, Function.update_self ..⟩
  · obtain ⟨h0, j, rfl⟩ := h q hq
    refine ⟨h0, j, Function.update_of_ne ?_ ..⟩
    rintro rfl
    exact h0 hempty

/-- A slot becomes empty, and its block is released. -/
theorem release [DecidableEq ι] [DecidableEq α] (h : Covers null own live) (hnodup : live.Nodup) :
    Covers null (Function.update own i null) (live.erase (own i)) := by
  intro q hq
  obtain ⟨hne, hq⟩ := hnodup.mem_erase_iff.mp hq
  obtain ⟨h0, j, rfl⟩ := h q hq
  refine ⟨h0, j, Function.update_of_ne ?_ ..⟩
  rintro rfl
  exact hne rfl

end Covers

/-- The allocated blocks are the blocks `held`, each once, and come from calls that released what
was allocated. -/
structure Ledger [DecidableEq α] (h : BlockHeap α) (held : List α) : Prop where
  perm : h.live.Perm held
  nodup : h.live.Nodup
  legal : ∃ gs, BlockHeap.Legal ⟨[], []⟩ gs h.released h

namespace Ledger

variable [DecidableEq α] {h : BlockHeap α} {held held' : List α} {p : α}

theorem start : Ledger (⟨[], []⟩ : BlockHeap α) [] :=
  ⟨List.Perm.refl _, List.nodup_nil, [], BlockHeap.Legal.refl⟩

/-- A block that was not allocated gets a holder. -/
theorem acquire (hl : Ledger h held) (hp : p ∉ h.live) (hperm : held'.Perm (p :: held)) :
    Ledger (h.acquire p) held' where
  perm := (hl.perm.cons p).trans hperm.symm
  nodup := List.nodup_cons.mpr ⟨hp, hl.nodup⟩
  legal := by
    obtain ⟨gs, hlegal⟩ := hl.legal
    exact ⟨p :: gs, hlegal.acquire hp⟩

/-- A holder releases its block. -/
theorem release (hl : Ledger h held) (hperm : held.Perm (p :: held')) :
    Ledger (h.release p) held' where
  perm := by
    have herase := (hl.perm.trans hperm).erase p
    rwa [List.erase_cons_head] at herase
  nodup := hl.nodup.erase p
  legal := by
    obtain ⟨gs, hlegal⟩ := hl.legal
    have hmem : p ∈ h.live := (hl.perm.trans hperm).mem_iff.mpr List.mem_cons_self
    exact ⟨gs, hlegal.release hmem⟩

/-- Blocks change hands. -/
theorem move (hl : Ledger h held) (hperm : held'.Perm held) : Ledger h held' :=
  ⟨hl.perm.trans hperm.symm, hl.nodup, hl.legal⟩

end Ledger
end OscKernel
