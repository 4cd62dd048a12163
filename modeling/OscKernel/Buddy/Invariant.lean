import OscKernel.Buddy.Frames
import OscKernel.Lib.DyadicBlock
import Mathlib.Data.List.Nodup
import Mathlib.Tactic.IntervalCases

/-!
# The buddy invariant, with a hole

Every loop of the allocator works on blocks that are, for the moment, on no free list and carry no
tag: the part of the region not yet scanned, the block being split, the block being merged.  The
invariant `InvOff b H` is therefore stated for the frames outside a *hole* `H`, and each primitive
says what it does to the hole:

* `InvOff.blockPop`: taking a free block off its list adds it to the hole;
* `InvOff.release`: so does deciding to give up an allocated block;
* `InvOff.blockPush`: pushing a block removes it from the hole;
* `InvOff.tag`: so does tagging it;
* `InvOff.congr_frames`: inside the hole the frames are free to change.

What a caller sees is the *owner* of each frame (`owner`): nobody for a free frame, whatever order
or position it has inside its block, and the stored value for a reserved or an allocated one.
-/

namespace OscKernel

open DyadicBlock

/-! ## Tags -/

/-- **The order is recovered from the tag**, however much of the index the cast to `int` loses. -/
theorem getAllocOrder_allocTag {idx k : ℕ} (hk : k ≤ maxOrder) :
    getAllocOrder (allocTag idx k) = k := by
  have hk' : k < 256 := lt_of_le_of_lt hk (by decide)
  unfold getAllocOrder allocTag
  rw [toInt32_emod, Int.toNat_natCast, show (256 : ℕ) = 2 ^ 8 from rfl, Nat.or_mod_two_pow,
    Nat.or_mod_two_pow, Nat.mod_eq_of_lt (a := k) hk']
  have hidx : u64 (idx <<< 8) % 2 ^ 8 = 0 := by
    rw [u64, Nat.mod_mod_of_dvd _ (by decide), Nat.shiftLeft_eq]
    exact Nat.mul_mod_left _ _
  rw [hidx]
  simp

/-- Bit 30 of a tag is set. -/
theorem two_pow_le_allocTag_emod (idx k : ℕ) : (2 ^ 30 : ℤ) ≤ allocTag idx k % 2 ^ 32 := by
  unfold allocTag
  rw [toInt32_emod_word]
  have h : 2 ^ 30 ≤ (2 ^ 30 ||| u64 (idx <<< 8) ||| k) % 2 ^ 32 := by
    apply Nat.ge_two_pow_of_testBit
    rw [Nat.testBit_mod_two_pow, Nat.testBit_or, Nat.testBit_or, Nat.testBit_two_pow_self]
    rfl
  exact_mod_cast h

theorem allocTag_ne_order (idx k : ℕ) {v : ℕ} (hv : v ≤ maxOrder) : allocTag idx k ≠ v := by
  intro h
  have hbit := two_pow_le_allocTag_emod idx k
  have hv' : v ≤ 16 := hv
  rw [h] at hbit
  omega

theorem allocTag_ne_freePart {idx k : ℕ} (hk : k ≤ maxOrder) : allocTag idx k ≠ frameFreePart := by
  intro h
  have hg : getAllocOrder (allocTag idx k) = k := getAllocOrder_allocTag hk
  have hk' : k ≤ 16 := hk
  rw [h, show getAllocOrder frameFreePart = 255 by decide] at hg
  omega

theorem allocTag_ne_reserved {idx k : ℕ} (hk : k ≤ maxOrder) : allocTag idx k ≠ frameReserved := by
  intro h
  have hg : getAllocOrder (allocTag idx k) = k := getAllocOrder_allocTag hk
  have hk' : k ≤ 16 := hk
  rw [h, show getAllocOrder frameReserved = 254 by decide] at hg
  omega

/-! ## Owners -/

/-- The value says that the frame is free: the head of a free block, or a part of one. -/
def IsFreeVal (v : ℤ) : Prop := v = frameFreePart ∨ ∃ k ≤ maxOrder, v = k

theorem isFreeVal_freePart : IsFreeVal frameFreePart := Or.inl rfl

theorem isFreeVal_order {k : ℕ} (hk : k ≤ maxOrder) : IsFreeVal k := Or.inr ⟨k, hk, rfl⟩

theorem not_isFreeVal_reserved : ¬ IsFreeVal frameReserved := by
  rintro (h | ⟨k, -, h⟩)
  · exact absurd h (by decide)
  · unfold frameReserved at h
    omega

theorem not_isFreeVal_allocTag {idx k : ℕ} (hk : k ≤ maxOrder) : ¬ IsFreeVal (allocTag idx k) := by
  rintro (h | ⟨v, hv, h⟩)
  · exact allocTag_ne_freePart hk h
  · exact allocTag_ne_order idx k hv h

namespace Buddy

open Classical in
/-- What a frame looks like from outside the allocator: `none` when it is free, the stored value
when it is reserved or allocated. -/
noncomputable def owner (b : Buddy) (j : ℕ) : Option ℤ :=
  if IsFreeVal (b.frameArray j) then none else some (b.frameArray j)

theorem owner_eq_none {b : Buddy} {j : ℕ} : b.owner j = none ↔ IsFreeVal (b.frameArray j) := by
  unfold owner
  split_ifs with h <;> simp [h]

theorem owner_eq_some {b : Buddy} {j : ℕ} {v : ℤ} (hv : ¬ IsFreeVal v) :
    b.owner j = some v ↔ b.frameArray j = v := by
  unfold owner
  split_ifs with h
  · exact ⟨fun h' => absurd h' (by simp), fun h' => absurd (h' ▸ h) hv⟩
  · exact Option.some_inj

theorem owner_congr {b b' : Buddy} {j : ℕ} (h : b'.frameArray j = b.frameArray j) :
    b'.owner j = b.owner j := by
  unfold owner
  rw [h]

/-- A block on the free list of its order. -/
def FreeBlock (b : Buddy) (i k : ℕ) : Prop := k ≤ maxOrder ∧ i ∈ b.freeList k

/-- An aligned block of the region whose frames all carry its tag. -/
structure AllocBlock (b : Buddy) (i k : ℕ) : Prop where
  order_le : k ≤ maxOrder
  aligned : 2 ^ k ∣ i
  inside : i + 2 ^ k ≤ b.gTotalPages
  tagged : ∀ j ∈ block i k, b.frameArray j = allocTag i k

/-- **The invariant outside a hole.** -/
structure InvOff (b : Buddy) (H : Set ℕ) : Prop where
  /-- No block is on a list twice. -/
  nodup : ∀ k ≤ maxOrder, (b.freeList k).Nodup
  aligned : ∀ {i k}, b.FreeBlock i k → 2 ^ k ∣ i
  inside : ∀ {i k}, b.FreeBlock i k → i + 2 ^ k ≤ b.gTotalPages
  /-- The head of a free block holds its order, the other frames `FRAME_FREE_PART`. -/
  head : ∀ {i k}, b.FreeBlock i k → b.frameArray i = k
  tail : ∀ {i k j}, b.FreeBlock i k → j ∈ block i k → j ≠ i → b.frameArray j = frameFreePart
  off : ∀ {i k}, b.FreeBlock i k → Disjoint (block i k) H
  /-- Outside the hole every frame is reserved, in a free block or in an allocated block. -/
  cover : ∀ j < b.gTotalPages, j ∉ H → b.frameArray j = frameReserved ∨
    (∃ i k, b.FreeBlock i k ∧ j ∈ block i k) ∨
    ∃ i k, b.AllocBlock i k ∧ j ∈ block i k ∧ Disjoint (block i k) H

/-- The invariant between calls: there is no hole. -/
def Inv (b : Buddy) : Prop := b.InvOff ∅

variable {b : Buddy} {H : Set ℕ} {i k i' k' j : ℕ}

theorem InvOff.congr (h : b.InvOff H) {H' : Set ℕ} (hH : H = H') : b.InvOff H' := hH ▸ h

/-! ## What the invariant says about single frames -/

theorem InvOff.isFreeVal (h : b.InvOff H) (hf : b.FreeBlock i k) (hj : j ∈ block i k) :
    IsFreeVal (b.frameArray j) := by
  rcases eq_or_ne j i with rfl | hne
  · rw [h.head hf]
    exact isFreeVal_order hf.1
  · rw [h.tail hf hj hne]
    exact isFreeVal_freePart

theorem AllocBlock.not_isFreeVal (ha : b.AllocBlock i k) (hj : j ∈ block i k) :
    ¬ IsFreeVal (b.frameArray j) := by
  rw [ha.tagged j hj]
  exact not_isFreeVal_allocTag ha.order_le

theorem AllocBlock.ne_reserved (ha : b.AllocBlock i k) (hj : j ∈ block i k) :
    b.frameArray j ≠ frameReserved := by
  rw [ha.tagged j hj]
  exact allocTag_ne_reserved ha.order_le

theorem AllocBlock.index_lt (ha : b.AllocBlock i k) : i < b.gTotalPages :=
  lt_of_lt_of_le (Nat.lt_add_of_pos_right (Nat.two_pow_pos k)) ha.inside

theorem AllocBlock.owner (ha : b.AllocBlock i k) (hj : j ∈ block i k) :
    b.owner j = some (allocTag i k) :=
  (owner_eq_some (not_isFreeVal_allocTag ha.order_le)).mpr (ha.tagged j hj)

/-- A block whose frames are owned by its tag is allocated. -/
theorem AllocBlock.of_owner (hk : k ≤ maxOrder) (hd : 2 ^ k ∣ i) (hin : i + 2 ^ k ≤ b.gTotalPages)
    (h : ∀ j ∈ block i k, b.owner j = some (allocTag i k)) : b.AllocBlock i k :=
  ⟨hk, hd, hin, fun j hj => (owner_eq_some (not_isFreeVal_allocTag hk)).mp (h j hj)⟩

theorem AllocBlock.congr {b' : Buddy} (ha : b.AllocBlock i k)
    (ht : b'.gTotalPages = b.gTotalPages)
    (hfa : ∀ j ∈ block i k, b'.frameArray j = b.frameArray j) : b'.AllocBlock i k :=
  ⟨ha.order_le, ha.aligned, ht ▸ ha.inside, fun j hj => (hfa j hj).trans (ha.tagged j hj)⟩

/-- Two free blocks with a common frame are the same block: the blocks are nested, and the head
of the inner one would otherwise be a tail frame of the outer one. -/
theorem InvOff.free_unique (h : b.InvOff H) (hf : b.FreeBlock i k) (hf' : b.FreeBlock i' k')
    (hj : j ∈ block i k) (hj' : j ∈ block i' k') : i = i' ∧ k = k' := by
  have key : ∀ {i k i' k'}, k ≤ k' → b.FreeBlock i k → b.FreeBlock i' k' → j ∈ block i k →
      j ∈ block i' k' → i = i' ∧ k = k' := by
    intro i k i' k' hkk hf hf' hj hj'
    have hi : i ∈ block i' k' :=
      block_subset_of_mem (h.aligned hf) (h.aligned hf') hkk hj hj' (self_mem_block i k)
    have hhead := h.head hf
    rcases eq_or_ne i i' with rfl | hne
    · rw [h.head hf'] at hhead
      exact ⟨rfl, by exact_mod_cast hhead.symm⟩
    · rw [h.tail hf' hi hne, frameFreePart] at hhead
      omega
  rcases le_total k k' with hkk | hkk
  · exact key hkk hf hf' hj hj'
  · obtain ⟨h1, h2⟩ := key hkk hf' hf hj' hj
    exact ⟨h1.symm, h2.symm⟩

/-- Two allocated blocks with a common frame are the same block: the tag gives the order, and
aligned blocks of one order are equal or disjoint. -/
theorem AllocBlock.unique (ha : b.AllocBlock i k) (ha' : b.AllocBlock i' k')
    (hj : j ∈ block i k) (hj' : j ∈ block i' k') : i = i' ∧ k = k' := by
  have hk : k = k' := by
    have htag := (ha.tagged j hj).symm.trans (ha'.tagged j hj')
    have horder : getAllocOrder (allocTag i k) = k := getAllocOrder_allocTag ha.order_le
    rw [← horder, htag, getAllocOrder_allocTag ha'.order_le]
  subst hk
  exact ⟨eq_of_mem_block ha.aligned ha'.aligned hj hj', rfl⟩

theorem InvOff.free_alloc_disjoint (h : b.InvOff H) (hf : b.FreeBlock i k)
    (ha : b.AllocBlock i' k') : Disjoint (block i k) (block i' k') :=
  Set.disjoint_left.mpr fun _ hj hj' => ha.not_isFreeVal hj' (h.isFreeVal hf hj)

/-- A frame outside the hole that holds an order is the head of a free block of that order. -/
theorem InvOff.freeBlock_of_frame (h : b.InvOff H) (hj : j < b.gTotalPages) (hjH : j ∉ H)
    (hk : k ≤ maxOrder) (hfa : b.frameArray j = k) : b.FreeBlock j k := by
  rcases h.cover j hj hjH with hr | ⟨i, k', hf, hmem⟩ | ⟨i, k', ha, hmem, -⟩
  · rw [hfa, frameReserved] at hr
    omega
  · rcases eq_or_ne j i with rfl | hne
    · have hk' : k = k' := by
        have := hfa.symm.trans (h.head hf)
        exact_mod_cast this
      exact hk' ▸ hf
    · have := hfa.symm.trans (h.tail hf hmem hne)
      rw [frameFreePart] at this
      omega
  · exact absurd (hfa ▸ isFreeVal_order hk) (ha.not_isFreeVal hmem)

/-! ## The primitives -/

/-- Inside the hole the frames are free to change. -/
theorem InvOff.congr_frames (h : b.InvOff H) {b' : Buddy} (ht : b'.gTotalPages = b.gTotalPages)
    (hl : b'.freeList = b.freeList) (hfa : ∀ j, j ∉ H → b'.frameArray j = b.frameArray j) :
    b'.InvOff H := by
  have hfree : ∀ {i k}, b'.FreeBlock i k ↔ b.FreeBlock i k := by
    intro i k
    rw [FreeBlock, FreeBlock, hl]
  have hout : ∀ {i k j}, b.FreeBlock i k → j ∈ block i k → j ∉ H := fun hf hj hjH =>
    Set.disjoint_left.mp (h.off hf) hj hjH
  refine ⟨by rw [hl]; exact h.nodup, fun hf => h.aligned (hfree.mp hf),
    fun hf => ht ▸ h.inside (hfree.mp hf), fun hf => ?_, fun hf hj hne => ?_,
    fun hf => h.off (hfree.mp hf), fun j hj hjH => ?_⟩
  · rw [hfa _ (hout (hfree.mp hf) (self_mem_block _ _))]
    exact h.head (hfree.mp hf)
  · rw [hfa _ (hout (hfree.mp hf) hj)]
    exact h.tail (hfree.mp hf) hj hne
  · rw [hfa j hjH]
    rcases h.cover j (ht ▸ hj) hjH with hr | ⟨i, k, hf, hmem⟩ | ⟨i, k, ha, hmem, hd⟩
    · exact Or.inl hr
    · exact Or.inr (Or.inl ⟨i, k, hfree.mpr hf, hmem⟩)
    · exact Or.inr (Or.inr ⟨i, k,
        ha.congr ht fun x hx => hfa x (Set.disjoint_left.mp hd hx), hmem, hd⟩)

/-- An allocated block may be given up: its frames join the hole. -/
theorem InvOff.release (h : b.InvOff H) (ha : b.AllocBlock i k) : b.InvOff (H ∪ block i k) := by
  refine ⟨h.nodup, h.aligned, h.inside, h.head, h.tail, fun hf => ?_, fun j hj hjH => ?_⟩
  · rw [Set.disjoint_union_right]
    exact ⟨h.off hf, h.free_alloc_disjoint hf ha⟩
  · rw [Set.mem_union, not_or] at hjH
    rcases h.cover j hj hjH.1 with hr | hf | ⟨i', k', ha', hmem, hd⟩
    · exact Or.inl hr
    · exact Or.inr (Or.inl hf)
    · refine Or.inr (Or.inr ⟨i', k', ha', hmem, ?_⟩)
      rw [Set.disjoint_union_right]
      refine ⟨hd, Set.disjoint_left.mpr fun x hx hx' => ?_⟩
      obtain ⟨rfl, rfl⟩ := ha'.unique ha hx hx'
      exact hjH.2 hmem

theorem freeBlock_blockPop (h : b.InvOff H) :
    (b.blockPop i k).FreeBlock i' k' ↔ b.FreeBlock i' k' ∧ i' ≠ i := by
  unfold FreeBlock blockPop
  constructor
  · rintro ⟨hk', hmem⟩
    rw [(h.nodup k' hk').mem_erase_iff] at hmem
    exact ⟨⟨hk', hmem.2⟩, hmem.1⟩
  · rintro ⟨⟨hk', hmem⟩, hne⟩
    exact ⟨hk', ((h.nodup k' hk').mem_erase_iff).mpr ⟨hne, hmem⟩⟩

/-- Taking a free block off its list adds it to the hole. -/
theorem InvOff.blockPop (h : b.InvOff H) (hf : b.FreeBlock i k) :
    (b.blockPop i k).InvOff (H ∪ block i k) := by
  have hfree {i' k'} : (b.blockPop i k).FreeBlock i' k' ↔ b.FreeBlock i' k' ∧ i' ≠ i :=
    freeBlock_blockPop h
  refine ⟨fun k' hk' => (h.nodup k' hk').erase i, fun hf' => h.aligned (hfree.mp hf').1,
    fun hf' => h.inside (hfree.mp hf').1, fun hf' => h.head (hfree.mp hf').1,
    fun hf' hj hne => h.tail (hfree.mp hf').1 hj hne, fun hf' => ?_, fun j hj hjH => ?_⟩
  · rw [Set.disjoint_union_right]
    refine ⟨h.off (hfree.mp hf').1, Set.disjoint_left.mpr fun x hx hx' => ?_⟩
    exact (hfree.mp hf').2 (h.free_unique (hfree.mp hf').1 hf hx hx').1
  · rw [Set.mem_union, not_or] at hjH
    rcases h.cover j hj hjH.1 with hr | ⟨i', k', hf', hmem⟩ | ⟨i', k', ha', hmem, hd⟩
    · exact Or.inl hr
    · refine Or.inr (Or.inl ⟨i', k', hfree.mpr ⟨hf', ?_⟩, hmem⟩)
      rintro rfl
      obtain ⟨-, rfl⟩ := h.free_unique hf' hf (self_mem_block _ _) (self_mem_block _ _)
      exact hjH.2 hmem
    · refine Or.inr (Or.inr ⟨i', k', ⟨ha'.1, ha'.2, ha'.3, ha'.4⟩, hmem, ?_⟩)
      rw [Set.disjoint_union_right]
      exact ⟨hd, (h.free_alloc_disjoint hf ha').symm⟩

theorem setFrames_of_mem {fa : ℕ → ℤ} {v : ℤ} (hj : j ∈ block i k) :
    setFrames fa i (2 ^ k) v j = v := if_pos hj

theorem setFrames_of_notMem {fa : ℕ → ℤ} {v : ℤ} (hj : j ∉ block i k) :
    setFrames fa i (2 ^ k) v j = fa j := if_neg hj

/-- Tagging a block of the hole removes it from the hole. -/
theorem InvOff.tag (h : b.InvOff H) (hk : k ≤ maxOrder) (hd : 2 ^ k ∣ i)
    (hin : i + 2 ^ k ≤ b.gTotalPages) (hsub : block i k ⊆ H) :
    ({ b with frameArray := setFrames b.frameArray i (2 ^ k) (allocTag i k) } : Buddy).InvOff
      (H \ block i k) := by
  set b' : Buddy := { b with frameArray := setFrames b.frameArray i (2 ^ k) (allocTag i k) }
  have hfa : ∀ j, j ∉ H → b'.frameArray j = b.frameArray j := fun j hj =>
    setFrames_of_notMem fun hj' => hj (hsub hj')
  have h' : b'.InvOff H := h.congr_frames rfl rfl hfa
  have ha : b'.AllocBlock i k := ⟨hk, hd, hin, fun j hj => setFrames_of_mem hj⟩
  refine ⟨h'.nodup, h'.aligned, h'.inside, h'.head, h'.tail,
    fun hf => (h'.off hf).mono_right Set.sdiff_subset, fun j hj hjH => ?_⟩
  by_cases hji : j ∈ block i k
  · exact Or.inr (Or.inr ⟨i, k, ha, hji, Set.disjoint_sdiff_right⟩)
  · have hjH' : j ∉ H := fun hjH' => hjH ⟨hjH', hji⟩
    rcases h'.cover j hj hjH' with hr | hf | ⟨i', k', ha', hmem, hd'⟩
    · exact Or.inl hr
    · exact Or.inr (Or.inl hf)
    · exact Or.inr (Or.inr ⟨i', k', ha', hmem, hd'.mono_right Set.sdiff_subset⟩)

/-! ### Pushing a block -/

theorem freeList_blockPush_self (b : Buddy) (i k : ℕ) :
    (b.blockPush i k).freeList k = i :: b.freeList k := Function.update_self ..

theorem freeList_blockPush_of_ne (b : Buddy) (i : ℕ) (hne : k' ≠ k) :
    (b.blockPush i k).freeList k' = b.freeList k' := Function.update_of_ne hne ..

theorem blockPush_frame_self (b : Buddy) (i k : ℕ) : (b.blockPush i k).frameArray i = k := by
  simp [Buddy.blockPush, setFrames]

theorem blockPush_frame_tail (hj : j ∈ block i k) (hne : j ≠ i) :
    (b.blockPush i k).frameArray j = frameFreePart := by
  rw [mem_block] at hj
  refine if_pos ⟨?_, ?_⟩ <;> omega

theorem blockPush_frame_of_notMem (hj : j ∉ block i k) :
    (b.blockPush i k).frameArray j = b.frameArray j := by
  rw [mem_block] at hj
  have hpos := Nat.two_pow_pos k
  have hne : j ≠ i := by rintro rfl; omega
  exact (if_neg (by omega)).trans (Function.update_of_ne hne ..)

theorem freeBlock_blockPush :
    (b.blockPush i k).FreeBlock i' k' ↔
      b.FreeBlock i' k' ∨ (i' = i ∧ k' = k ∧ k ≤ maxOrder) := by
  unfold FreeBlock
  rcases eq_or_ne k' k with rfl | hne
  · rw [freeList_blockPush_self, List.mem_cons]
    tauto
  · rw [freeList_blockPush_of_ne b i hne]
    tauto

/-- Pushing a block of the hole removes it from the hole. -/
theorem InvOff.blockPush (h : b.InvOff H) (hk : k ≤ maxOrder) (hd : 2 ^ k ∣ i)
    (hin : i + 2 ^ k ≤ b.gTotalPages) (hsub : block i k ⊆ H) :
    (b.blockPush i k).InvOff (H \ block i k) := by
  have hout : ∀ {i' k' j}, b.FreeBlock i' k' → j ∈ block i' k' → j ∉ block i k :=
    fun hf hj hj' => Set.disjoint_left.mp (h.off hf) hj (hsub hj')
  refine ⟨fun k' hk' => ?nodup, fun hf => ?aligned, fun hf => ?inside, fun hf => ?head,
    fun hf hj hne => ?tail, fun hf => ?off, fun j hj hjH => ?cover⟩
  case nodup =>
    rcases eq_or_ne k' k with rfl | hne
    · rw [freeList_blockPush_self, List.nodup_cons]
      exact ⟨fun hmem => hout ⟨hk, hmem⟩ (self_mem_block _ _) (self_mem_block _ _), h.nodup k' hk'⟩
    · rw [freeList_blockPush_of_ne b i hne]
      exact h.nodup k' hk'
  case aligned =>
    rcases freeBlock_blockPush.mp hf with hf | ⟨rfl, rfl, -⟩
    · exact h.aligned hf
    · exact hd
  case inside =>
    rcases freeBlock_blockPush.mp hf with hf | ⟨rfl, rfl, -⟩
    · exact h.inside hf
    · exact hin
  case head =>
    rcases freeBlock_blockPush.mp hf with hf | ⟨rfl, rfl, -⟩
    · rw [blockPush_frame_of_notMem (hout hf (self_mem_block _ _))]
      exact h.head hf
    · exact blockPush_frame_self b _ _
  case tail =>
    rcases freeBlock_blockPush.mp hf with hf | ⟨rfl, rfl, -⟩
    · rw [blockPush_frame_of_notMem (hout hf hj)]
      exact h.tail hf hj hne
    · exact blockPush_frame_tail hj hne
  case off =>
    rcases freeBlock_blockPush.mp hf with hf | ⟨rfl, rfl, -⟩
    · exact (h.off hf).mono_right Set.sdiff_subset
    · exact Set.disjoint_sdiff_right
  case cover =>
    by_cases hji : j ∈ block i k
    · exact Or.inr (Or.inl ⟨i, k, freeBlock_blockPush.mpr (Or.inr ⟨rfl, rfl, hk⟩), hji⟩)
    · have hjH' : j ∉ H := fun hjH' => hjH ⟨hjH', hji⟩
      rw [blockPush_frame_of_notMem hji]
      rcases h.cover j hj hjH' with hr | ⟨i', k', hf, hmem⟩ | ⟨i', k', ha, hmem, hd'⟩
      · exact Or.inl hr
      · exact Or.inr (Or.inl ⟨i', k', freeBlock_blockPush.mpr (Or.inl hf), hmem⟩)
      · refine Or.inr (Or.inr ⟨i', k', ha.congr rfl fun x hx => ?_, hmem,
          hd'.mono_right Set.sdiff_subset⟩)
        exact blockPush_frame_of_notMem fun hx' => Set.disjoint_left.mp hd' hx (hsub hx')

/-- A pushed block is free to every owner, and no other owner changes. -/
theorem owner_blockPush_of_mem (hk : k ≤ maxOrder) (hj : j ∈ block i k) :
    (b.blockPush i k).owner j = none := by
  rw [owner_eq_none]
  rcases eq_or_ne j i with rfl | hne
  · rw [blockPush_frame_self]
    exact isFreeVal_order hk
  · rw [blockPush_frame_tail hj hne]
    exact isFreeVal_freePart

theorem owner_blockPush_of_notMem (hj : j ∉ block i k) : (b.blockPush i k).owner j = b.owner j :=
  owner_congr (blockPush_frame_of_notMem hj)

end Buddy
end OscKernel
