import OscKernel.Buddy.Invariant
import Mathlib.Order.Bounds.Basic

/-!
# What the buddy operations do

A block that a loop has in hand is *pending*: the invariant holds around it, and nobody owns its
frames.  The loops of `buddy_alloc` and `buddy_free` turn pending blocks into smaller and larger
ones (`Pending.split`, `Pending.merge`) and never change an owner, so each operation is described
by what happens at its ends.

* `inv_buildLoop`: the free lists built after the reservations satisfy the invariant.
* `buddyAlloc_cases`: an allocation fails and changes nothing, or grants one block of the
  requested order that nobody owned.
* `buddyFree_cases`: freeing an allocated block makes its frames free and changes no other owner.
-/

namespace OscKernel
namespace Buddy

open DyadicBlock

variable {b b' b'' : Buddy} {i k j : ℕ}

/-- The two states manage the same region. -/
structure SameRegion (b b' : Buddy) : Prop where
  base : b'.gBuddyBase = b.gBuddyBase
  «end» : b'.gBuddyEnd = b.gBuddyEnd
  pages : b'.gTotalPages = b.gTotalPages

theorem SameRegion.refl (b : Buddy) : SameRegion b b := ⟨rfl, rfl, rfl⟩

theorem SameRegion.trans (h : SameRegion b b') (h' : SameRegion b' b'') : SameRegion b b'' :=
  ⟨h'.base.trans h.base, h'.end.trans h.end, h'.pages.trans h.pages⟩

theorem sameRegion_blockPush (b : Buddy) (i k : ℕ) : SameRegion b (b.blockPush i k) :=
  ⟨rfl, rfl, rfl⟩

theorem SameRegion.idxToAddr (h : SameRegion b b') : b'.idxToAddr i = b.idxToAddr i := by
  unfold Buddy.idxToAddr
  rw [h.base]

/-- The two states manage the same region and every frame has the same owner. -/
structure SameOwners (b b' : Buddy) : Prop extends SameRegion b b' where
  owner : ∀ j, b'.owner j = b.owner j

theorem SameOwners.refl (b : Buddy) : SameOwners b b := ⟨SameRegion.refl b, fun _ => rfl⟩

theorem SameOwners.trans (h : SameOwners b b') (h' : SameOwners b' b'') : SameOwners b b'' :=
  ⟨h.toSameRegion.trans h'.toSameRegion, fun j => (h'.owner j).trans (h.owner j)⟩

theorem SameOwners.allocBlock (h : SameOwners b b') (ha : b.AllocBlock i k) :
    b'.AllocBlock i k :=
  AllocBlock.of_owner ha.order_le ha.aligned (h.pages ▸ ha.inside) fun j hj =>
    (h.owner j).trans (ha.owner hj)

/-! ## Pending blocks -/

/-- The block is on no list, the invariant holds around it, and nobody owns its frames. -/
structure Pending (b : Buddy) (i k : ℕ) : Prop where
  inv : b.InvOff (block i k)
  order_le : k ≤ maxOrder
  aligned : 2 ^ k ∣ i
  inside : i + 2 ^ k ≤ b.gTotalPages
  free : ∀ j ∈ block i k, b.owner j = none

/-- A free block taken off its list is pending. -/
theorem Inv.pop (h : b.Inv) (hf : b.FreeBlock i k) :
    (b.blockPop i k).Pending i k ∧ SameOwners b (b.blockPop i k) := by
  refine ⟨⟨(InvOff.blockPop h hf).congr (Set.empty_union _), hf.1, h.aligned hf, h.inside hf,
    fun j hj => ?_⟩, ⟨⟨rfl, rfl, rfl⟩, fun j => owner_congr rfl⟩⟩
  rw [owner_eq_none]
  exact h.isFreeVal hf hj

/-- Pushing blocks of frames that nobody owns changes no owner. -/
theorem sameOwners_blockPush (hk : k ≤ maxOrder) (hfree : ∀ j ∈ block i k, b.owner j = none) :
    SameOwners b (b.blockPush i k) := by
  refine ⟨sameRegion_blockPush b i k, fun j => ?_⟩
  by_cases hj : j ∈ block i k
  · rw [owner_blockPush_of_mem hk hj, hfree j hj]
  · exact owner_blockPush_of_notMem hj

/-- Pushing the pending block restores the invariant. -/
theorem Pending.push (h : b.Pending i k) :
    (b.blockPush i k).Inv ∧ SameOwners b (b.blockPush i k) :=
  ⟨(h.inv.blockPush h.order_le h.aligned h.inside le_rfl).congr Set.sdiff_self,
    sameOwners_blockPush h.order_le h.free⟩

/-- Pushing the upper half leaves the lower half pending. -/
theorem Pending.split (h : b.Pending i (k + 1)) :
    (b.blockPush (i + 2 ^ k) k).Pending i k ∧ SameOwners b (b.blockPush (i + 2 ^ k) k) := by
  have hk : k ≤ maxOrder := (Nat.le_succ k).trans h.order_le
  have hd : 2 ^ k ∣ i := (pow_dvd_pow 2 (Nat.le_succ k)).trans h.aligned
  have hin := h.inside
  rw [Nat.pow_succ] at hin
  have hsplit := block_split i k
  have hup : block (i + 2 ^ k) k ⊆ block i (k + 1) := by
    rw [hsplit]
    exact Set.subset_union_right
  have hlow : block i k ⊆ block i (k + 1) := by
    rw [hsplit]
    exact Set.subset_union_left
  have hinv := h.inv.blockPush hk (Nat.dvd_add hd dvd_rfl) (by omega) hup
  have hown := sameOwners_blockPush (b := b) hk fun j hj => h.free j (hup hj)
  refine ⟨⟨hinv.congr ?_, hk, hd, by change _ ≤ b.gTotalPages; omega, fun j hj => ?_⟩, hown⟩
  · rw [hsplit, Set.union_sdiff_right, (disjoint_halves i k).sdiff_eq_left]
  · rw [hown.owner]
    exact h.free j (hlow hj)

/-- A pending block takes in its free buddy. -/
theorem Pending.merge (h : b.Pending i k) (hk : k < maxOrder)
    (hf : b.FreeBlock (i ^^^ 2 ^ k) k) :
    (b.blockPop (i ^^^ 2 ^ k) k).Pending (min i (i ^^^ 2 ^ k)) (k + 1) ∧
      SameOwners b (b.blockPop (i ^^^ 2 ^ k) k) := by
  have hown : SameOwners b (b.blockPop (i ^^^ 2 ^ k) k) :=
    ⟨⟨rfl, rfl, rfl⟩, fun j => owner_congr rfl⟩
  have hmerge := block_merge h.aligned
  refine ⟨⟨(h.inv.blockPop hf).congr hmerge, hk, dvd_min_xor h.aligned, ?_, fun j hj => ?_⟩, hown⟩
  · have h1 := h.inside
    have h2 := h.inv.inside hf
    rw [Nat.pow_succ]
    change _ ≤ b.gTotalPages
    rcases xor_two_pow_cases h.aligned with ⟨-, hx⟩ | ⟨hle, -, hx⟩ <;> rw [hx] at h2 ⊢ <;> omega
  · rw [← hmerge] at hj
    rw [hown.owner]
    rcases hj with hj | hj
    · exact h.free j hj
    · exact owner_eq_none.mpr (h.inv.isFreeVal hf hj)

/-- Giving up an allocated block and marking its frames leaves it pending. -/
theorem Inv.release (h : b.Inv) (ha : b.AllocBlock i k) :
    ({ b with frameArray := setFrames b.frameArray i (2 ^ k) frameFreePart } : Buddy).Pending
      i k := by
  refine ⟨?_, ha.order_le, ha.aligned, ha.inside, fun j hj => ?_⟩
  · refine ((InvOff.release h ha).congr (Set.empty_union _)).congr_frames rfl rfl fun j hj => ?_
    exact setFrames_of_notMem hj
  · rw [owner_eq_none]
    change IsFreeVal (setFrames _ _ _ _ _)
    rw [setFrames_of_mem hj]
    exact isFreeVal_freePart

/-! ## Addresses of frames -/

/-- The address of a frame of a region that ends at `2 ^ 64` at the latest does not wrap. -/
theorem idxToAddr_eq (hreg : b.gBuddyBase + b.gTotalPages * pageSize ≤ 2 ^ 64)
    (hi : i < b.gTotalPages) : b.idxToAddr i = b.gBuddyBase + i * pageSize := by
  unfold idxToAddr
  apply u64_of_lt
  unfold pageSize at hreg ⊢
  omega

theorem idxToAddr_inj (hreg : b.gBuddyBase + b.gTotalPages * pageSize ≤ 2 ^ 64)
    (hi : i < b.gTotalPages) (hj : j < b.gTotalPages) (h : b.idxToAddr i = b.idxToAddr j) :
    i = j := by
  rw [idxToAddr_eq hreg hi, idxToAddr_eq hreg hj] at h
  unfold pageSize at h
  omega

theorem addrToIdx_idxToAddr (hreg : b.gBuddyBase + b.gTotalPages * pageSize ≤ 2 ^ 64)
    (hi : i < b.gTotalPages) : b.addrToIdx (b.idxToAddr i) = i := by
  rw [idxToAddr_eq hreg hi]
  unfold addrToIdx
  rw [subU64_of_le (Nat.le_add_right _ _), Nat.add_sub_cancel_left]
  · exact Nat.mul_div_cancel _ (by decide)
  · unfold pageSize at hreg ⊢
    omega

/-! ## `buddy_alloc` -/

/-- The order that `buddy_alloc` computes for a request. -/
def requestOrder (size : ℕ) : ℕ := pagesToOrder (u64 (size + pageSize - 1) / pageSize)

/-- A block of the order computed for a page count has at least that many pages. -/
theorem le_two_pow_pagesToOrder {pages : ℕ} (h : pages ≤ 2 ^ 64) :
    pages ≤ 2 ^ pagesToOrder pages := by
  have key : ∀ fuel order, pages ≤ 2 ^ (order + fuel) →
      pages ≤ 2 ^ pagesToOrderLoop pages fuel (2 ^ order) order := by
    intro fuel
    induction fuel with
    | zero => exact fun order h => h
    | succ fuel ih =>
      intro order h
      rw [pagesToOrderLoop]
      split_ifs with hlt
      · rw [Nat.shiftLeft_eq, Nat.pow_one, ← Nat.pow_succ]
        exact ih (order + 1) (by rwa [Nat.add_right_comm])
      · omega
  exact key 64 0 (by rwa [Nat.zero_add])

/-- No smaller order is large enough. -/
theorem pagesToOrder_le {pages : ℕ} (h : pages ≤ 2 ^ k) : pagesToOrder pages ≤ k := by
  have key : ∀ fuel order, order ≤ k → pagesToOrderLoop pages fuel (2 ^ order) order ≤ k := by
    intro fuel
    induction fuel with
    | zero => exact fun order hle => hle
    | succ fuel ih =>
      intro order hle
      rw [pagesToOrderLoop]
      split_ifs with hlt
      · rw [Nat.shiftLeft_eq, Nat.pow_one, ← Nat.pow_succ]
        refine ih (order + 1) (hle.lt_of_ne ?_)
        rintro rfl
        exact absurd hlt (not_lt.mpr h)
      · exact hle
  exact key 64 0 (Nat.zero_le k)

/-- **The order of a request** whose size can be rounded up to pages is the smallest one whose
blocks are large enough. -/
theorem isLeast_requestOrder {size : ℕ} (hround : size + pageSize - 1 < 2 ^ 64) :
    IsLeast {k | size ≤ 2 ^ k * pageSize} (requestOrder size) := by
  have hpages : u64 (size + pageSize - 1) / pageSize = (size + pageSize - 1) / pageSize := by
    rw [u64_of_lt hround]
  have hiff : ∀ n, size ≤ n * pageSize ↔ (size + pageSize - 1) / pageSize ≤ n := fun n => by
    unfold pageSize
    omega
  unfold requestOrder
  rw [hpages]
  refine ⟨(hiff _).mpr (le_two_pow_pagesToOrder ?_), fun k hk => pagesToOrder_le ((hiff _).mp hk)⟩
  exact (Nat.div_le_self _ _).trans hround.le

/-- The upward search stops at a non-empty list or above `MAX_ORDER`. -/
theorem searchUp_spec (b : Buddy) (fuel cur : ℕ) (hfuel : maxOrder < cur + fuel) :
    cur ≤ b.searchUp fuel cur ∧
      (b.searchUp fuel cur ≤ maxOrder → b.freeList (b.searchUp fuel cur) ≠ []) := by
  induction fuel generalizing cur with
  | zero =>
    refine ⟨le_rfl, fun h => absurd h ?_⟩
    rw [searchUp]
    omega
  | succ fuel ih =>
    rw [searchUp]
    split_ifs with h
    · obtain ⟨h1, h2⟩ := ih (cur + 1) (by omega)
      exact ⟨by omega, h2⟩
    · refine ⟨le_rfl, fun hle hnil => h ⟨hle, hnil⟩⟩

/-- The split loop leaves a pending block of the target order at the same index. -/
theorem pending_splitDown {target cur : ℕ} (h : b.Pending i cur) (hle : target ≤ cur) :
    (splitDown i target cur b).Pending i target ∧
      SameOwners b (splitDown i target cur b) := by
  induction cur generalizing b with
  | zero =>
    obtain rfl : target = 0 := by omega
    exact ⟨h, SameOwners.refl b⟩
  | succ cur ih =>
    rw [splitDown]
    split_ifs with hgt
    · obtain ⟨hp, ho⟩ := h.split
      obtain ⟨hp', ho'⟩ := ih hp (by omega)
      exact ⟨hp', ho.trans ho'⟩
    · obtain rfl : target = cur + 1 := by omega
      exact ⟨h, SameOwners.refl b⟩

/-- A call granted the block: nobody owned it before, its tag owns it after, and no other owner
changed. -/
structure Grants (b b' : Buddy) (i k : ℕ) : Prop extends SameRegion b b' where
  order_le : k ≤ maxOrder
  aligned : 2 ^ k ∣ i
  inside : i + 2 ^ k ≤ b.gTotalPages
  free : ∀ j ∈ block i k, b.owner j = none
  granted : ∀ j ∈ block i k, b'.owner j = some (allocTag i k)
  others : ∀ j ∉ block i k, b'.owner j = b.owner j

theorem Grants.index_lt (h : Grants b b' i k) : i < b.gTotalPages :=
  lt_of_lt_of_le (Nat.lt_add_of_pos_right (Nat.two_pow_pos k)) h.inside

theorem Grants.allocBlock (h : Grants b b' i k) : b'.AllocBlock i k :=
  AllocBlock.of_owner h.order_le h.aligned (h.pages ▸ h.inside) h.granted

/-- After a grant the allocated blocks are the ones before and the granted one. -/
theorem Grants.allocBlock_iff (h : Grants b b' i k) {i' k' : ℕ} :
    b'.AllocBlock i' k' ↔ b.AllocBlock i' k' ∨ (i' = i ∧ k' = k) := by
  have hself := h.allocBlock
  constructor
  · intro ha
    by_cases hmeet : ∃ j, j ∈ block i' k' ∧ j ∈ block i k
    · obtain ⟨j, hj, hj'⟩ := hmeet
      exact Or.inr (ha.unique hself hj hj')
    · refine Or.inl (AllocBlock.of_owner ha.order_le ha.aligned (h.pages ▸ ha.inside)
        fun j hj => ?_)
      rw [← h.others j fun hj' => hmeet ⟨j, hj, hj'⟩]
      exact ha.owner hj
  · rintro (ha | ⟨rfl, rfl⟩)
    · refine AllocBlock.of_owner ha.order_le ha.aligned (h.pages ▸ ha.inside) fun j hj => ?_
      have hj' : j ∉ block i k := fun hj' =>
        ha.not_isFreeVal hj (owner_eq_none.mp (h.free j hj'))
      rw [h.others j hj']
      exact ha.owner hj
    · exact hself

theorem Grants.reserved_iff (h : Grants b b' i k) :
    b'.frameArray j = frameReserved ↔ b.frameArray j = frameReserved := by
  rw [← owner_eq_some not_isFreeVal_reserved, ← owner_eq_some not_isFreeVal_reserved]
  by_cases hj : j ∈ block i k
  · rw [h.granted j hj, h.free j hj, Option.some_inj]
    exact iff_of_false (allocTag_ne_reserved h.order_le) (by simp)
  · rw [h.others j hj]

/-- Tagging the pending block restores the invariant and grants it. -/
theorem Pending.tag (h : b.Pending i k) :
    let b' : Buddy := { b with frameArray := setFrames b.frameArray i (2 ^ k) (allocTag i k) }
    b'.Inv ∧ Grants b b' i k := by
  intro b'
  refine ⟨(h.inv.tag h.order_le h.aligned h.inside le_rfl).congr Set.sdiff_self,
    ⟨rfl, rfl, rfl⟩, h.order_le, h.aligned, h.inside, h.free, fun j hj => ?_, fun j hj => ?_⟩
  · rw [owner_eq_some (not_isFreeVal_allocTag h.order_le)]
    exact setFrames_of_mem hj
  · exact owner_congr (setFrames_of_notMem hj)

/-- The block that a search from order `k` finds: the first one on the first list that is not
empty. -/
def First (b : Buddy) (k i : ℕ) : Prop :=
  ∃ m ≤ maxOrder, k ≤ m ∧ (∀ l, k ≤ l → l < m → b.freeList l = []) ∧ (b.freeList m).head? = some i

/-- A request is granted the block that the search finds. -/
theorem buddyAlloc_of_search (h : b.Inv) {size : ℕ} (hsize : size ≠ 0)
    (hfound : b.searchUp (maxOrder + 1) (requestOrder size) ≤ maxOrder)
    (hhead : (b.freeList (b.searchUp (maxOrder + 1) (requestOrder size))).head? = some i) :
    ∃ b', b.buddyAlloc size = (b', b.idxToAddr i) ∧ b'.Inv ∧ Grants b b' i (requestOrder size) := by
  have hreq : pagesToOrder (u64 (size + pageSize - 1) / pageSize) = requestOrder size := rfl
  unfold buddyAlloc
  dsimp only
  set target := requestOrder size
  obtain ⟨hcur, -⟩ := searchUp_spec b (maxOrder + 1) target (by omega)
  rw [if_neg hsize, hreq, if_neg (by omega), if_neg (by omega)]
  set cur := b.searchUp (maxOrder + 1) target
  obtain ⟨rest, hlist⟩ := List.head?_eq_some_iff.mp hhead
  have hf : b.FreeBlock i cur := ⟨hfound, by rw [hlist]; exact List.mem_cons_self⟩
  obtain ⟨hpop, hown⟩ := h.pop hf
  obtain ⟨hsplit, hown'⟩ := pending_splitDown hpop hcur
  obtain ⟨htag, hgrant⟩ := hsplit.tag
  have hsame := hown.trans hown'
  refine ⟨_, ?_, htag, ⟨hsame.toSameRegion.trans hgrant.toSameRegion, hgrant.order_le,
    hgrant.aligned, hsame.pages ▸ hgrant.inside, fun j hj => ?_, hgrant.granted, fun j hj => ?_⟩⟩
  · rw [hlist]
    dsimp only
    rw [hsame.toSameRegion.idxToAddr]
  · rw [← hsame.owner]
    exact hgrant.free j hj
  · rw [hgrant.others j hj, hsame.owner]

/-- The search stops at the list of the block that it finds. -/
theorem searchUp_eq {m fuel cur : ℕ} (hcur : cur ≤ m) (hm : m ≤ maxOrder) (hfuel : m < cur + fuel)
    (hempty : ∀ l, cur ≤ l → l < m → b.freeList l = []) (hne : b.freeList m ≠ []) :
    b.searchUp fuel cur = m := by
  induction fuel generalizing cur with
  | zero => omega
  | succ fuel ih =>
    rw [searchUp]
    rcases hcur.lt_or_eq with hlt | rfl
    · rw [if_pos ⟨by omega, hempty cur le_rfl hlt⟩]
      exact ih hlt (by omega) fun l hl => hempty l (by omega)
    · exact if_neg fun hnil => hne hnil.2

/-- The search finds a block when it stops at a list. -/
theorem exists_first {k : ℕ} (hfound : b.searchUp (maxOrder + 1) k ≤ maxOrder) :
    ∃ i, b.First k i := by
  have hpass : ∀ fuel cur l, cur ≤ l → l < b.searchUp fuel cur → b.freeList l = [] := by
    intro fuel
    induction fuel with
    | zero => exact fun cur l h1 h2 => absurd h2 (not_lt.mpr h1)
    | succ fuel ih =>
      intro cur l h1 h2
      rw [searchUp] at h2
      split_ifs at h2 with h
      · rcases h1.lt_or_eq with hlt | rfl
        · exact ih (cur + 1) l hlt h2
        · exact h.2
      · omega
  obtain ⟨hle, hne⟩ := searchUp_spec b (maxOrder + 1) k (by omega)
  obtain ⟨i, rest, hlist⟩ := List.exists_cons_of_ne_nil (hne hfound)
  exact ⟨i, _, hfound, hle, hpass _ _, by rw [hlist]; rfl⟩

/-- **A request is granted the block that the search finds**, cut down to its order. -/
theorem buddyAlloc_of_first (h : b.Inv) {size : ℕ} (hsize : size ≠ 0)
    (hf : b.First (requestOrder size) i) :
    ∃ b', b.buddyAlloc size = (b', b.idxToAddr i) ∧ b'.Inv ∧ Grants b b' i (requestOrder size) := by
  obtain ⟨m, hm, hle, hempty, hhead⟩ := hf
  have hne : b.freeList m ≠ [] := fun hnil => by
    rw [hnil] at hhead
    cases hhead
  have hstop : b.searchUp (maxOrder + 1) (requestOrder size) = m :=
    searchUp_eq hle hm (by omega) hempty hne
  exact buddyAlloc_of_search h hsize (hstop.trans_le hm) (hstop ▸ hhead)

/-- A request for which the search finds nothing changes nothing. -/
theorem buddyAlloc_of_not_first {size : ℕ} (hf : ∀ i, ¬ b.First (requestOrder size) i) :
    b.buddyAlloc size = (b, 0) := by
  have hreq : pagesToOrder (u64 (size + pageSize - 1) / pageSize) = requestOrder size := rfl
  have hstop : b.searchUp (maxOrder + 1) (requestOrder size) > maxOrder := not_le.mp fun hle =>
    (exists_first hle).elim hf
  unfold buddyAlloc
  dsimp only
  rw [hreq, if_pos hstop, ite_self, ite_self]

/-- **`buddy_alloc`.**  A call either returns `NULL` and changes nothing, or returns the address of
a block of the requested order that nobody owned and grants it. -/
theorem buddyAlloc_cases (h : b.Inv) (size : ℕ) :
    b.buddyAlloc size = (b, 0) ∨
      ∃ i b', b.buddyAlloc size = (b', b.idxToAddr i) ∧ b'.Inv ∧
        Grants b b' i (requestOrder size) := by
  by_cases hsize : size = 0
  · exact Or.inl (if_pos hsize)
  by_cases hfound : ∃ i, b.First (requestOrder size) i
  · obtain ⟨i, hf⟩ := hfound
    exact Or.inr ⟨i, buddyAlloc_of_first h hsize hf⟩
  · exact Or.inl (buddyAlloc_of_not_first (not_exists.mp hfound))

/-- The upward search stops at the latest at a list that is not empty. -/
theorem searchUp_le {fuel cur : ℕ} (hne : b.freeList k ≠ []) (hcur : cur ≤ k) :
    b.searchUp fuel cur ≤ k := by
  induction fuel generalizing cur with
  | zero => exact hcur
  | succ fuel ih =>
    rw [searchUp]
    split_ifs with h
    · have : cur ≠ k := fun heq => hne (heq ▸ h.2)
      exact ih (by omega)
    · exact hcur

/-- The search finds a block when some free block is large enough. -/
theorem FreeBlock.exists_first (hf : b.FreeBlock i k) {k' : ℕ} (hk : k' ≤ k) :
    ∃ j, b.First k' j :=
  Buddy.exists_first ((searchUp_le (List.ne_nil_of_mem hf.2) hk).trans hf.1)

/-- A request that some free block is large enough for is granted. -/
theorem buddyAlloc_grants (h : b.Inv) {size : ℕ} (hsize : size ≠ 0) (hf : b.FreeBlock i k)
    (hk : requestOrder size ≤ k) :
    ∃ j b', b.buddyAlloc size = (b', b.idxToAddr j) ∧ b'.Inv ∧
      Grants b b' j (requestOrder size) := by
  obtain ⟨j, hj⟩ := hf.exists_first hk
  exact ⟨j, buddyAlloc_of_first h hsize hj⟩

/-- An allocation succeeds when some free block is large enough. -/
theorem buddyAlloc_ne_zero (h : b.Inv) {size : ℕ} (hsize : size ≠ 0) (hf : b.FreeBlock i k)
    (hk : requestOrder size ≤ k)
    (hreg : b.gBuddyBase + b.gTotalPages * pageSize ≤ 2 ^ 64) (hbase : b.gBuddyBase ≠ 0) :
    (b.buddyAlloc size).2 ≠ 0 := by
  obtain ⟨j, b', hcall, -, hg⟩ := buddyAlloc_grants h hsize hf hk
  rw [hcall, idxToAddr_eq hreg hg.index_lt]
  omega

/-! ## `buddy_free` -/

/-- The coalescing loop turns a pending block into a pending block. -/
theorem pending_coalesce (fuel : ℕ) (h : b.Pending i k) :
    (coalesce fuel b i k).1.Pending (coalesce fuel b i k).2.1 (coalesce fuel b i k).2.2 ∧
      SameOwners b (coalesce fuel b i k).1 := by
  induction fuel generalizing b i k with
  | zero => exact ⟨h, SameOwners.refl b⟩
  | succ fuel ih =>
    have hmin : (if i ^^^ 2 ^ k < i then i ^^^ 2 ^ k else i) = min i (i ^^^ 2 ^ k) := by
      rw [Nat.min_def]
      split_ifs <;> omega
    rw [coalesce]
    dsimp only
    rw [hmin]
    split_ifs with hk hrange hres horder
    · exact ⟨h, SameOwners.refl b⟩
    · exact ⟨h, SameOwners.refl b⟩
    · exact ⟨h, SameOwners.refl b⟩
    · -- the buddy's frame holds the order, so it is the head of a free block
      have hoff : i ^^^ 2 ^ k ∉ block i k := fun hmem => xor_two_pow_ne h.aligned
        (eq_of_mem_block (dvd_xor_two_pow h.aligned) h.aligned (self_mem_block _ _) hmem)
      have hf := h.inv.freeBlock_of_frame (by omega) hoff h.order_le (not_not.mp horder)
      obtain ⟨hp, ho⟩ := h.merge hk hf
      obtain ⟨hp', ho'⟩ := ih hp
      exact ⟨hp', ho.trans ho'⟩
    · exact ⟨h, SameOwners.refl b⟩

/-- The block was given back: nobody owns it any more, and no other owner changed. -/
structure Releases (b b' : Buddy) (i k : ℕ) : Prop extends SameRegion b b' where
  freed : ∀ j ∈ block i k, b'.owner j = none
  others : ∀ j ∉ block i k, b'.owner j = b.owner j

/-- After a release the allocated blocks are the others. -/
theorem Releases.allocBlock_iff (h : Releases b b' i k) (ha : b.AllocBlock i k) {i' k' : ℕ} :
    b'.AllocBlock i' k' ↔ b.AllocBlock i' k' ∧ ¬ (i' = i ∧ k' = k) := by
  constructor
  · intro ha'
    have hoff : ∀ j ∈ block i' k', j ∉ block i k := fun j hj hj' =>
      ha'.not_isFreeVal hj (owner_eq_none.mp (h.freed j hj'))
    refine ⟨AllocBlock.of_owner ha'.order_le ha'.aligned (h.pages ▸ ha'.inside)
      fun j hj => ?_, ?_⟩
    · rw [← h.others j (hoff j hj)]
      exact ha'.owner hj
    · rintro ⟨rfl, rfl⟩
      exact hoff i' (self_mem_block _ _) (self_mem_block _ _)
  · rintro ⟨ha', hne⟩
    refine AllocBlock.of_owner ha'.order_le ha'.aligned (h.pages ▸ ha'.inside) fun j hj => ?_
    rw [h.others j fun hj' => hne (ha'.unique ha hj hj')]
    exact ha'.owner hj

theorem Releases.reserved_iff (h : Releases b b' i k) (ha : b.AllocBlock i k) :
    b'.frameArray j = frameReserved ↔ b.frameArray j = frameReserved := by
  rw [← owner_eq_some not_isFreeVal_reserved, ← owner_eq_some not_isFreeVal_reserved]
  by_cases hj : j ∈ block i k
  · rw [h.freed j hj, ha.owner hj, Option.some_inj]
    exact iff_of_false (by simp) (allocTag_ne_reserved ha.order_le)
  · rw [h.others j hj]

/-- **`buddy_free`.**  Freeing an allocated block by an address inside the region makes its frames
free and changes no other owner; freeing `NULL` or an address outside the region does nothing. -/
theorem buddyFree_cases (h : b.Inv) (ha : b.AllocBlock i k)
    (hreg : b.gBuddyBase + b.gTotalPages * pageSize ≤ 2 ^ 64) :
    ((b.idxToAddr i = 0 ∨ b.idxToAddr i ≥ b.gBuddyEnd) ∧ b.buddyFree (b.idxToAddr i) = b) ∨
      (b.buddyFree (b.idxToAddr i)).Inv ∧ Releases b (b.buddyFree (b.idxToAddr i)) i k := by
  have hi := ha.index_lt
  have haddr := idxToAddr_eq hreg hi
  have hmem := self_mem_block i k
  unfold buddyFree
  dsimp only
  split_ifs with h0 hguard hres
  · exact Or.inl ⟨Or.inl h0, rfl⟩
  · refine Or.inl ⟨Or.inr (hguard.resolve_left ?_), rfl⟩
    omega
  · rw [addrToIdx_idxToAddr hreg hi] at hres
    exact absurd hres (ha.ne_reserved hmem)
  · right
    simp only [addrToIdx_idxToAddr hreg hi, ha.tagged i hmem, getAllocOrder_allocTag ha.order_le]
    have hpend := h.release ha
    set b₁ : Buddy := { b with frameArray := setFrames b.frameArray i (2 ^ k) frameFreePart }
    obtain ⟨hp, ho⟩ := pending_coalesce maxOrder hpend
    obtain ⟨hinv, ho'⟩ := hp.push
    have hsame := ho.trans ho'
    refine ⟨hinv, ⟨hsame.base, hsame.end, hsame.pages⟩, fun j hj => ?_, fun j hj => ?_⟩
    · rw [hsame.owner, hpend.free j hj]
    · rw [hsame.owner]
      exact owner_congr (setFrames_of_notMem hj)

/-! ## `buddy_build_free_lists` -/

/-- The inner loop finds an aligned block that fits and holds no reserved frame. -/
theorem buildOrder_spec (hi : i < b.gTotalPages) (hr : b.frameArray i ≠ frameReserved)
    (order : ℕ) :
    b.buildOrder i order ≤ order ∧ 2 ^ b.buildOrder i order ∣ i ∧
      i + 2 ^ b.buildOrder i order ≤ b.gTotalPages ∧
      ∀ j ∈ block i (b.buildOrder i order), b.frameArray j ≠ frameReserved := by
  induction order with
  | zero =>
    refine ⟨le_rfl, one_dvd _, hi, fun j hj => ?_⟩
    obtain rfl : j = i := by
      rw [buildOrder, mem_block] at hj
      omega
    exact hr
  | succ order ih =>
    rw [buildOrder]
    split_ifs with hbad hclean
    · exact ⟨by omega, ih.2⟩
    · rw [not_or, not_not, Nat.and_two_pow_sub_one_eq_mod] at hbad
      refine ⟨le_rfl, Nat.dvd_of_mod_eq_zero hbad.1, by omega, fun j hj => ?_⟩
      rw [mem_block] at hj
      have := hclean (j - i) (by omega)
      rwa [Nat.add_sub_cancel' hj.1] at this
    · exact ⟨by omega, ih.2⟩

/-- The frames the scan has still to give out. -/
def unscanned (b : Buddy) (idx : ℕ) : Set ℕ :=
  {j | idx ≤ j ∧ j < b.gTotalPages ∧ b.frameArray j ≠ frameReserved}

/-- The scan: the invariant holds with the unscanned frames taken out, and these are all marked
free. -/
theorem inv_buildLoop {fuel i : ℕ} (hfuel : b.gTotalPages ≤ i + fuel)
    (h : b.InvOff (b.unscanned i))
    (hraw : ∀ j, i ≤ j → b.frameArray j ≠ frameReserved → j < b.gTotalPages →
      b.owner j = none) :
    (buildLoop fuel b i).Inv ∧ SameOwners b (buildLoop fuel b i) := by
  have hdone : b.gTotalPages ≤ i → b.Inv := fun hle => h.congr (by
    ext j
    simp only [unscanned, Set.mem_ofPred_eq, Set.mem_empty_iff_false, iff_false]
    omega)
  induction fuel generalizing b i with
  | zero => exact ⟨hdone (by omega), SameOwners.refl b⟩
  | succ fuel ih =>
    rw [buildLoop]
    split_ifs with hlt hr
    · refine ih (by omega) (h.congr ?_) (fun j hj => hraw j (by omega))
        fun hle => (h.congr ?_ : b.InvOff ∅)
      · ext j
        simp only [unscanned, Set.mem_ofPred_eq]
        refine ⟨fun ⟨h1, h2, h3⟩ => ⟨?_, h2, h3⟩, fun ⟨h1, h2, h3⟩ => ⟨by omega, h2, h3⟩⟩
        have : j ≠ i := by rintro rfl; exact h3 hr
        omega
      · ext j
        simp only [unscanned, Set.mem_ofPred_eq, Set.mem_empty_iff_false, iff_false]
        rintro ⟨h1, h2, h3⟩
        obtain rfl : j = i := by omega
        exact h3 hr
    · obtain ⟨ho, hd, hin, hclean⟩ := buildOrder_spec hlt hr maxOrder
      set order := b.buildOrder i maxOrder
      have hfree : ∀ j ∈ block i order, b.owner j = none := fun j hj => by
        have hj' := hj
        rw [mem_block] at hj'
        exact hraw j hj'.1 (hclean j hj) (by omega)
      have hsub : block i order ⊆ b.unscanned i := fun j hj => by
        have hj' := hj
        rw [mem_block] at hj'
        exact ⟨hj'.1, by omega, hclean j hj⟩
      have hsame := sameOwners_blockPush ho hfree
      have hrest : b.unscanned i \ block i order =
          (b.blockPush i order).unscanned (i + 2 ^ order) := by
        ext j
        simp only [unscanned, Set.mem_sdiff, Set.mem_ofPred_eq, mem_block]
        constructor
        · rintro ⟨⟨h1, h2, h3⟩, h4⟩
          refine ⟨by omega, h2, ?_⟩
          rwa [blockPush_frame_of_notMem (by rw [mem_block]; omega)]
        · rintro ⟨h1, h2, h3⟩
          rw [blockPush_frame_of_notMem (by rw [mem_block]; omega)] at h3
          exact ⟨⟨by omega, h2, h3⟩, by omega⟩
      have hpos := Nat.two_pow_pos order
      have hpush := (h.blockPush ho hd hin hsub).congr hrest
      have hrec := ih (b := b.blockPush i order) (i := i + 2 ^ order)
        (by change b.gTotalPages ≤ _; omega) hpush
        (fun j hj hne hlt' => by
          rw [hsame.owner]
          rw [blockPush_frame_of_notMem (by rw [mem_block]; omega)] at hne
          exact hraw j (by omega) hne hlt')
        (fun hle => hpush.congr (by
          ext j
          simp only [unscanned, Set.mem_ofPred_eq, Set.mem_empty_iff_false, iff_false]
          omega))
      exact ⟨hrec.1, hsame.trans hrec.2⟩
    · exact ⟨hdone (by omega), SameOwners.refl b⟩

end Buddy
end OscKernel
