import Mathlib.Algebra.BigOperators.Group.Finset.Piecewise
import Mathlib.Algebra.BigOperators.Group.List.Basic
import Mathlib.Order.Interval.Finset.Nat
import OscKernel.Buddy.Room
import OscKernel.Kmalloc.Run

/-!
# How much memory the heap takes (`kmalloc.c`, `buddy.c`)

A page that was sliced for a pool is never given back, so what the heap takes from the page
allocator depends on the past.  It depends on little of it.

A call is one step here: a call that an interrupt handler makes inside another one is the subject of
`Kmalloc/Interrupt.lean`.  The memory is a region of whole pages that begins above address `0` and
ends below `2 ^ 64`.  In a region at address `0` the first frame has the address `NULL`: a caller
takes it for a failure, so that `kmalloc` returns `NULL` with frames free, and the frame is lost.

* `HeapClient.Served`: what a request does, and why it fails when it fails.
* `kmalloc_null_iff`: a request fails exactly when its pool has no chunk left and no page is free,
  or, for a large one, when there is no room for its block.
* `footprint_of_run`: the number of pages of a pool is what the largest number of its chunks that
  were held at one time needs, and no frame is lost.

## What is remembered of the past

A pool takes a page when its list is empty, that is when every chunk of its pages is held.  Its
pages are therefore as many as the chunks that were ever held at one time need, neither more nor
fewer, and the order of the calls does not matter beyond that (`peak`).  The induction carries this
together with the accounts of the ledger: the chunks of the pages are those held and those on the
list.

Frames are counted and not blocks.  A split or a merge leaves their number alone, and what is
reserved does not change, so that the frames of the pools, those of the large blocks and the free
ones add up to the same number in every state.
-/

namespace OscKernel

open DyadicBlock Buddy Transition

namespace Buddy

variable {b b' : Buddy} {i k j : ℕ}

/-- The frames of free blocks. -/
def freeSet (b : Buddy) : Finset ℕ :=
  (Finset.range b.gTotalPages).filter fun j =>
    b.frameArray j = frameFreePart ∨ (0 ≤ b.frameArray j ∧ b.frameArray j ≤ maxOrder)

/-- The number of free frames. -/
def freeCount (b : Buddy) : ℕ := b.freeSet.card

theorem mem_freeSet : j ∈ b.freeSet ↔ j < b.gTotalPages ∧ b.owner j = none := by
  rw [freeSet, Finset.mem_filter, Finset.mem_range, owner_eq_none]
  refine and_congr_right fun _ => or_congr_right ?_
  constructor
  · rintro ⟨h0, hle⟩
    obtain ⟨k, hk⟩ := Int.eq_ofNat_of_zero_le h0
    exact ⟨k, by rw [hk] at hle; exact_mod_cast hle, hk⟩
  · rintro ⟨k, hk, heq⟩
    rw [heq]
    exact ⟨Int.natCast_nonneg k, by exact_mod_cast hk⟩

theorem mem_freeSet_iff : j ∈ b.freeSet ↔ j ∈ b.freeFrames := by
  rw [mem_freeSet, owner_eq_none]
  rfl

/-- A block that is free in `b` and owned in `b'`, which agree elsewhere. -/
theorem freeCount_add (hs : SameRegion b b') (hin : i + 2 ^ k ≤ b.gTotalPages)
    (hfree : ∀ j ∈ block i k, b.owner j = none) (howned : ∀ j ∈ block i k, b'.owner j ≠ none)
    (hothers : ∀ j ∉ block i k, b'.owner j = b.owner j) :
    b'.freeCount + 2 ^ k = b.freeCount := by
  have hsplit : b.freeSet = b'.freeSet ∪ Finset.Ico i (i + 2 ^ k) := by
    ext j
    rw [Finset.mem_union, mem_freeSet, mem_freeSet, Finset.mem_Ico, ← mem_block, hs.pages]
    by_cases hj : j ∈ block i k
    · have hlt : j < b.gTotalPages := hj.2.trans_le hin
      simp [hj, hlt, hfree j hj]
    · simp [hj, hothers j hj]
  have hdisjoint : Disjoint b'.freeSet (Finset.Ico i (i + 2 ^ k)) := by
    rw [Finset.disjoint_left]
    intro j hj hmem
    exact howned j (Finset.mem_Ico.mp hmem) (mem_freeSet.mp hj).2
  rw [freeCount, freeCount, hsplit, Finset.card_union_of_disjoint hdisjoint, Nat.card_Ico,
    Nat.add_sub_cancel_left]

theorem Grants.freeCount (h : Grants b b' i k) : b'.freeCount + 2 ^ k = b.freeCount :=
  freeCount_add h.toSameRegion h.inside h.free (fun j hj => by simp [h.granted j hj]) h.others

theorem Releases.freeCount (h : Releases b b' i k) (ha : b.AllocBlock i k) :
    b'.freeCount = b.freeCount + 2 ^ k :=
  (freeCount_add ⟨h.base.symm, h.«end».symm, h.pages.symm⟩ (h.pages.symm ▸ ha.inside) h.freed
    (fun j hj => by simp [ha.owner hj]) fun j hj => (h.others j hj).symm).symm

/-- The search for one page finds one exactly when a frame is free. -/
theorem exists_first_page_iff (hinv : b.Inv) (hun : b.Unpaired) :
    (∃ i, b.First 0 i) ↔ b.freeCount ≠ 0 := by
  rw [exists_first_iff hinv hun, freeCount, Finset.card_ne_zero]
  constructor
  · rintro ⟨i, hin⟩
    exact ⟨i, mem_freeSet_iff.mpr (hin.subset (self_mem_block i 0))⟩
  · rintro ⟨i, hi⟩
    refine ⟨i, Nat.zero_le _, one_dvd _, ?_⟩
    intro j hj
    rw [mem_block] at hj
    obtain rfl : j = i := by omega
    exact mem_freeSet_iff.mp hi

end Buddy

namespace HeapClient

variable {s s' : HeapClient} {fl : ℕ → List ℕ} {i size : ℕ} {g : Grant}

/-! ## What a request does -/

/-- What a request for `size` bytes did to a heap that is not at address `0`, whose pools have the
free chunks `fl`. -/
inductive Served (fl : ℕ → List ℕ) (s : HeapClient) (size : ℕ) (s' : HeapClient) : Prop where
  /-- It failed, and nothing changed. -/
  | null (hs : s' = s) (hnull : (s.heap.kmalloc size).2 = 0)
      (hwhy : size ≠ 0 → (∀ i, findPool size = some i → fl i = [] ∧ ∀ j, ¬ s.heap.buddy.First 0 j) ∧
        (findPool size = none → ∀ j, ¬ s.heap.buddy.First (requestOrder size) j))
  /-- The pool had a chunk. -/
  | popped (i p : ℕ) (hp : findPool size = some i) (h0 : (s.heap.kmalloc size).2 ≠ 0)
      (hfl : fl i ≠ []) (hbuddy : s'.heap.buddy = s.heap.buddy) (hsliced : s'.sliced = s.sliced)
      (hlive : s'.live = ⟨p, size⟩ :: s.live)
  /-- The pool had none, and was given a page. -/
  | refilled (i p idx : ℕ) (hp : findPool size = some i) (h0 : (s.heap.kmalloc size).2 ≠ 0)
      (hfl : fl i = []) (hfirst : ∃ j, s.heap.buddy.First 0 j)
      (hcall : s'.heap.buddy = (s.heap.buddy.buddyAlloc pageSize).1)
      (hgrant : Grants s.heap.buddy s'.heap.buddy idx 0)
      (hsliced : s'.sliced = (idx, i) :: s.sliced)
      (hlive : s'.live = ⟨p, size⟩ :: s.live)
  /-- A block of its own. -/
  | large (p idx : ℕ) (hp : findPool size = none) (h0 : (s.heap.kmalloc size).2 ≠ 0)
      (hfirst : ∃ j, s.heap.buddy.First (requestOrder size) j)
      (hcall : s'.heap.buddy = (s.heap.buddy.buddyAlloc size).1)
      (hgrant : Grants s.heap.buddy s'.heap.buddy idx (requestOrder size))
      (hsliced : s'.sliced = s.sliced) (hlive : s'.live = ⟨p, size⟩ :: s.live)

/-- A call of `buddy_alloc` on a region that does not start at `0`. -/
theorem Ok.buddyAlloc (h : s.Ok fl fun _ => []) (hbase : s.heap.buddy.gBuddyBase ≠ 0)
    (hsize : size ≠ 0) :
    (s.heap.buddy.buddyAlloc size = (s.heap.buddy, 0) ∧
      ∀ j, ¬ s.heap.buddy.First (requestOrder size) j) ∨
    ∃ idx b, s.heap.buddy.buddyAlloc size = (b, s.heap.buddy.idxToAddr idx) ∧
      s.heap.buddy.idxToAddr idx ≠ 0 ∧ Grants s.heap.buddy b idx (requestOrder size) ∧
      ∃ j, s.heap.buddy.First (requestOrder size) j := by
  by_cases hfound : ∃ j, s.heap.buddy.First (requestOrder size) j
  · obtain ⟨j, hf⟩ := hfound
    obtain ⟨b, hcall, -, hg⟩ := buddyAlloc_of_first h.inv hsize hf
    refine Or.inr ⟨j, b, hcall, ?_, hg, j, hf⟩
    rw [idxToAddr_eq h.region.inside hg.index_lt]
    omega
  · exact Or.inl ⟨buddyAlloc_of_not_first (not_exists.mp hfound), not_exists.mp hfound⟩

/-- The large path. -/
theorem Ok.served_large (h : s.Ok fl fun _ => []) (hbase : s.heap.buddy.gBuddyBase ≠ 0)
    (hsize : size ≠ 0) (hp : findPool size = none) (hs : s.step (.kmalloc size) = some s') :
    Served fl s size s' := by
  have hcall : s.heap.kmalloc size = s.heap.kmallocLarge size := by
    simp only [Heap.kmalloc, if_neg hsize, hp]
  have hslice : s.slice size = s.sliced := by
    simp only [slice, if_neg hsize, hp]
  rw [HeapClient.step, hcall, hslice, Option.some_inj] at hs
  subst hs
  rcases h.buddyAlloc hbase hsize with ⟨hnull, hnone⟩ | ⟨idx, b, halloc, haddr, hg, hfirst⟩
  · have hsame : s.heap.kmallocLarge size = (s.heap, 0) := by
      simp [Heap.kmallocLarge, hnull]
    refine .null ?_ (by rw [hcall, hsame]) fun _ => ⟨by simp [hp], fun _ => hnone⟩
    rw [hsame, hold_null]
  · have hresult : (s.heap.kmallocLarge size).2 = s.heap.buddy.idxToAddr idx := by
      simp only [Heap.kmallocLarge, halloc, if_neg haddr]
    have hb : (s.heap.kmallocLarge size).1.buddy = b := by
      simp only [Heap.kmallocLarge, halloc, if_neg haddr]
    refine .large (s.heap.buddy.idxToAddr idx) idx hp (by rw [hcall, hresult]; exact haddr) hfirst
      (by rw [hb, halloc]) (by rw [hb]; exact hg) rfl ?_
    rw [hresult, hold_of_ne haddr]

/-- The small path. -/
theorem Ok.served_small (h : s.Ok fl fun _ => []) (hbase : s.heap.buddy.gBuddyBase ≠ 0)
    (hsize : size ≠ 0) (hp : findPool size = some i) (hs : s.step (.kmalloc size) = some s') :
    Served fl s size s' := by
  have hi := (findPool_some hp).1
  have hcall : s.heap.kmalloc size = s.heap.kmallocSmall i := by
    simp only [Heap.kmalloc, if_neg hsize, hp]
  have hslice : s.slice size = newPages s.heap i ++ s.sliced := by
    simp only [slice, if_neg hsize, hp]
  rw [HeapClient.step, hcall, hslice, Option.some_inj] at hs
  by_cases hempty : (s.heap.pools i).freeList = 0
  · have hnil : fl i = [] := (hempty ▸ h.chain i hi).eq_nil
    rcases h.buddyAlloc hbase (show pageSize ≠ 0 by decide) with
      ⟨hnull, hnone⟩ | ⟨idx, b, halloc, haddr, hg, hfirst⟩
    · rw [requestOrder_pageSize] at hnone
      have hrefill : s.heap.refill i = (s.heap, 0) := Heap.refill_of_null hnull
      have hsame : s.heap.kmallocSmall i = (s.heap, 0) := by
        simp [Heap.kmallocSmall, hempty, hrefill]
      have hpages : newPages s.heap i = [] := by
        simp [newPages, hrefill]
      refine .null ?_ (by rw [hcall, hsame]) fun _ => ⟨?_, by simp [hp]⟩
      · rw [← hs, hsame, hpages, hold_null]
        rfl
      · intro i' hp'
        obtain rfl := Option.some_inj.mp (hp.symm.trans hp')
        exact ⟨hnil, hnone⟩
    · rw [requestOrder_pageSize] at hg hfirst
      have hpage : (s.heap.refill i).2 = s.heap.buddy.idxToAddr idx := by
        rw [Heap.refill_of_page halloc haddr]
      have hback : s.heap.addrToPageIdx (s.heap.buddy.idxToAddr idx) = idx :=
        addrToIdx_idxToAddr h.region.inside hg.index_lt
      have hb : (s.heap.refill i).1.buddy = b := by
        rw [Heap.refill_of_page halloc haddr]
        rfl
      obtain ⟨-, -, hne, -, -⟩ := h.refill hi hempty (hpage.trans_ne haddr)
      have hsmall : s.heap.kmallocSmall i = (s.heap.refill i).1.popChunk i := by
        simp only [Heap.kmallocSmall, if_pos hempty, hpage, if_neg haddr]
      have hpages : newPages s.heap i = [(idx, i)] := by
        simp only [newPages, hempty, hpage, haddr, hback, ne_eq, not_false_eq_true, and_self,
          if_true]
      subst hs
      refine .refilled i (s.heap.kmallocSmall i).2 idx hp (by rw [hcall, hsmall]; exact hne) hnil
        hfirst ?_ ?_ ?_ ?_
      · show (s.heap.kmallocSmall i).1.buddy = _
        rw [hsmall, halloc]
        exact hb
      · show Grants s.heap.buddy (s.heap.kmallocSmall i).1.buddy idx 0
        rw [hsmall]
        exact hb.symm ▸ hg
      · show newPages s.heap i ++ s.sliced = _
        rw [hpages]
        rfl
      · show hold s.live (s.heap.kmallocSmall i).2 size = _
        rw [hold_of_ne (by rw [hsmall]; exact hne)]
  · have hne : fl i ≠ [] := by
      obtain ⟨rest, hfl, -⟩ := (h.chain i hi).exists_cons hempty
      simp [hfl]
    have hsmall : s.heap.kmallocSmall i = s.heap.popChunk i := by
      simp only [Heap.kmallocSmall, if_neg hempty]
    subst hs
    refine .popped i (s.heap.kmallocSmall i).2 hp (by rw [hcall, hsmall]; exact hempty) hne ?_ ?_ ?_
    · show (s.heap.kmallocSmall i).1.buddy = _
      rw [hsmall]
      rfl
    · show newPages s.heap i ++ s.sliced = _
      simp [newPages, hempty]
    · show hold s.live (s.heap.kmallocSmall i).2 size = _
      rw [hold_of_ne (by rw [hsmall]; exact hempty)]

/-- **A request** is served in one of these ways. -/
theorem Ok.served (h : s.Ok fl fun _ => []) (hbase : s.heap.buddy.gBuddyBase ≠ 0)
    (hs : s.step (.kmalloc size) = some s') : Served fl s size s' := by
  by_cases hsize : size = 0
  · rw [HeapClient.step, Option.some_inj] at hs
    subst hsize hs
    exact .null rfl rfl fun h0 => absurd rfl h0
  · cases hp : findPool size with
    | none => exact h.served_large hbase hsize hp hs
    | some i => exact h.served_small hbase hsize hp hs

/-! ## What is counted -/

/-- How many chunks a page of pool `i` has. -/
def chunksPerPage (i : ℕ) : ℕ := pageSize / chunkBytes i

/-- How many pages `n` chunks of pool `i` need. -/
def pagesFor (i n : ℕ) : ℕ := (n + chunksPerPage i - 1) / chunksPerPage i

/-- The frames of the large blocks that are held. -/
def largeFrames (s : HeapClient) : ℕ :=
  ((s.live.filter fun g => findPool g.size = none).map fun g => 2 ^ requestOrder g.size).sum

/-- The largest number of chunks of pool `i` that are held at one time while the calls are made. -/
def peak (i : ℕ) : HeapClient → List Call → ℕ
  | s, [] => (s.liveChunks i).length
  | s, c :: cs => max (s.liveChunks i).length (((s.step c).map fun s' => peak i s' cs).getD 0)

theorem pagesFor_le_iff {n p : ℕ} (hi : i < numPools) :
    pagesFor i n ≤ p ↔ n ≤ p * chunksPerPage i := by
  have hpos : 0 < chunksPerPage i := Nat.pos_of_ne_zero (pageSize_div_chunkBytes_ne_zero i hi)
  rw [pagesFor, Nat.div_le_iff_le_mul_add_pred hpos, Nat.mul_comm]
  omega

theorem pagesFor_succ {p : ℕ} (hi : i < numPools) :
    pagesFor i (p * chunksPerPage i + 1) = p + 1 := by
  have hpos : 0 < chunksPerPage i := Nat.pos_of_ne_zero (pageSize_div_chunkBytes_ne_zero i hi)
  refine le_antisymm ((pagesFor_le_iff hi).mpr ?_) (Nat.not_le.mp fun hle => ?_)
  · rw [Nat.succ_mul]
    omega
  · have := (pagesFor_le_iff hi).mp hle
    omega

theorem pagesFor_max {n m : ℕ} (hi : i < numPools) :
    pagesFor i (max n m) = max (pagesFor i n) (pagesFor i m) := by
  refine eq_of_forall_ge_iff fun p => ?_
  rw [max_le_iff, pagesFor_le_iff hi, pagesFor_le_iff hi, pagesFor_le_iff hi, max_le_iff]

/-- Every chunk of the pages of a pool is held or free. -/
theorem Ok.length_chunks (h : s.Ok fl fun _ => []) (hi : i < numPools) :
    (s.liveChunks i).length + (fl i).length = (s.poolPages i).length * chunksPerPage i := by
  have hlen := (h.chunks i hi).length_eq
  have hpool : (s.poolChunks i).length = (s.poolPages i).length * chunksPerPage i := by
    rw [poolChunks, List.length_flatMap, List.map_congr_left fun pg _ => length_pageChunks s i pg,
      List.map_const', List.sum_replicate, nsmul_eq_mul, Nat.cast_id]
    rfl
  rwa [List.append_nil, List.length_append, hpool] at hlen

theorem Ok.pagesFor_le (h : s.Ok fl fun _ => []) (hi : i < numPools) :
    pagesFor i (s.liveChunks i).length ≤ (s.poolPages i).length := by
  rw [pagesFor_le_iff hi, ← h.length_chunks hi]
  exact Nat.le_add_right _ _

/-- The sliced pages, pool by pool. -/
theorem Ok.length_sliced (h : s.Ok fl fun _ => []) :
    s.sliced.length = ∑ i ∈ Finset.range numPools, (s.poolPages i).length := by
  have key : ∀ l : List (ℕ × ℕ), (∀ e ∈ l, e.2 < numPools) →
      l.length = ∑ i ∈ Finset.range numPools, (l.filter fun e => e.2 = i).length := by
    intro l hl
    induction l with
    | nil => simp
    | cons e l ih =>
      have he : e.2 ∈ Finset.range numPools := by simp [hl e List.mem_cons_self]
      have hcons : ∀ i, ((e :: l).filter fun e => e.2 = i).length =
          (l.filter fun e => e.2 = i).length + if i = e.2 then 1 else 0 := by
        intro i
        by_cases hi : e.2 = i
        · simp [hi]
        · simp [hi, Ne.symm hi]
      simp only [hcons, Finset.sum_add_distrib, List.length_cons, Finset.sum_ite_eq', if_pos he,
        ← ih fun e' he' => hl e' (List.mem_cons_of_mem _ he')]
  rw [key s.sliced fun e he => (h.sliced_page e he).1]
  simp [poolPages]

theorem largeFrames_cons {p : ℕ} (hlive : s'.live = ⟨p, size⟩ :: s.live) :
    s'.largeFrames = s.largeFrames + if findPool size = none then 2 ^ requestOrder size else 0 := by
  unfold largeFrames
  rw [hlive]
  by_cases hp : findPool size = none
  · simp [hp, Nat.add_comm]
  · simp [hp]

theorem largeFrames_erase (hg : g ∈ s.live) (hlive : s'.live = s.live.erase g) :
    s.largeFrames = s'.largeFrames +
      if findPool g.size = none then 2 ^ requestOrder g.size else 0 := by
  have hperm := (((List.perm_cons_erase hg).filter fun g => findPool g.size = none).map
    fun g => 2 ^ requestOrder g.size).sum_eq
  unfold largeFrames
  rw [hlive, hperm]
  by_cases hp : findPool g.size = none
  · simp [hp, Nat.add_comm]
  · simp [hp]

/-! ## One call, and runs -/

/-- The region does not start at `0` and ends where the allocator says it ends. -/
structure Grounded (b : Buddy) : Prop where
  base : b.gBuddyBase ≠ 0
  end_le : b.gBuddyBase + b.gTotalPages * pageSize ≤ b.gBuddyEnd

theorem Grounded.congr {b b' : Buddy} (h : Grounded b) (hs : SameRegion b b') : Grounded b' :=
  ⟨hs.base.symm ▸ h.base, by rw [hs.base, hs.pages, hs.«end»]; exact h.end_le⟩

/-- What one call takes: a pool has the pages that it had, or those that its chunks need now, and
a frame that is not free any more is a page of a pool or in a large block that is held. -/
structure Takes (s s' : HeapClient) : Prop where
  region : SameRegion s.heap.buddy s'.heap.buddy
  unpaired : s.heap.buddy.Unpaired → s'.heap.buddy.Unpaired
  pages : ∀ i < numPools, (s'.poolPages i).length =
    max (s.poolPages i).length (pagesFor i (s'.liveChunks i).length)
  frames : s'.heap.buddy.freeCount + (s'.sliced.length + s'.largeFrames) =
    s.heap.buddy.freeCount + (s.sliced.length + s.largeFrames)

/-- The sliced pages are as before, and so do not have to be fewer. -/
theorem Ok.pages_of_sliced {fl' : ℕ → List ℕ} (h' : s'.Ok fl' fun _ => [])
    (hsliced : s'.sliced = s.sliced) (hi : i < numPools) : (s'.poolPages i).length =
      max (s.poolPages i).length (pagesFor i (s'.liveChunks i).length) := by
  have heq : s'.poolPages i = s.poolPages i := by rw [poolPages, hsliced, poolPages]
  rw [heq, eq_comm, Nat.max_eq_left]
  exact heq ▸ h'.pagesFor_le hi

theorem Ok.takes_kmalloc {fl' : ℕ → List ℕ} (h : s.Ok fl fun _ => []) (h' : s'.Ok fl' fun _ => [])
    (hbase : s.heap.buddy.gBuddyBase ≠ 0) (hs : s.step (.kmalloc size) = some s') : Takes s s' := by
  rcases h.served hbase hs with ⟨hsame, -, -⟩ | ⟨i, p, hp, -, -, hbuddy, hsliced, hlive⟩ |
    ⟨i, p, idx, hp, -, hfl, -, hcall, hgrant, hsliced, hlive⟩ |
    ⟨p, idx, hp, -, -, hcall, hgrant, hsliced, hlive⟩
  · subst hsame
    refine ⟨SameRegion.refl _, id, fun i hi => h.pages_of_sliced rfl hi, rfl⟩
  · refine ⟨hbuddy ▸ SameRegion.refl _, fun hun => hbuddy ▸ hun,
      fun i hi => h'.pages_of_sliced hsliced hi, ?_⟩
    rw [largeFrames_cons hlive, hbuddy, hsliced, hp]
    rfl
  · refine ⟨hgrant.toSameRegion, fun hun => hcall ▸ unpaired_buddyAlloc h.inv hun _,
      fun j hj => ?_, ?_⟩
    · by_cases hij : i = j
      · -- all chunks were held, and one more is held now
        subst hij
        have hpages : (s'.poolPages i).length = (s.poolPages i).length + 1 := by
          simp [poolPages, hsliced]
        have hlen := h.length_chunks hj
        rw [hfl, List.length_nil, Nat.add_zero] at hlen
        rw [liveChunks_cons_self hp hlive, List.length_cons, hlen, pagesFor_succ hj, hpages,
          Nat.max_eq_right (Nat.le_succ _)]
      · have hpages : s'.poolPages j = s.poolPages j := by
          simp [poolPages, hsliced, hij]
        rw [hpages, liveChunks_cons_of_ne (ne_of_findPool hp (Ne.symm hij)) hlive,
          Nat.max_eq_left (h.pagesFor_le hj)]
    · have hfree := hgrant.freeCount
      rw [largeFrames_cons hlive, hsliced, List.length_cons, hp]
      simp only [reduceCtorEq, if_false, pow_zero] at hfree ⊢
      omega
  · refine ⟨hgrant.toSameRegion, fun hun => hcall ▸ unpaired_buddyAlloc h.inv hun _,
      fun i hi => h'.pages_of_sliced hsliced hi, ?_⟩
    have hfree := hgrant.freeCount
    rw [largeFrames_cons hlive, hsliced, if_pos hp]
    omega

theorem Ok.takes_kfree {fl' : ℕ → List ℕ} (h : s.Ok fl fun _ => []) (h' : s'.Ok fl' fun _ => [])
    (hgr : Grounded s.heap.buddy) (hs : s.step (.kfree g) = some s') : Takes s s' := by
  rw [HeapClient.step] at hs
  split_ifs at hs with hg
  have heq := (Option.some.inj hs).symm
  have hheap : s'.heap = s.heap.kfree g.ptr := by rw [heq]
  have hsliced : s'.sliced = s.sliced := by rw [heq]
  have hlive : s'.live = s.live.erase g := by rw [heq]
  have hlarge := largeFrames_erase hg hlive
  cases hp : findPool g.size with
  | some i =>
    have hbuddy : s'.heap.buddy = s.heap.buddy := by
      rw [hheap, h.kfree_eq_push hg hp]
      rfl
    refine ⟨hbuddy ▸ SameRegion.refl _, fun hun => hbuddy ▸ hun,
      fun i hi => h'.pages_of_sliced hsliced hi, ?_⟩
    rw [hlarge, hbuddy, hsliced, hp]
    rfl
  | none =>
    obtain ⟨h0, idx, ha, hptr, -⟩ := h.large g hg hp
    have hbuddy : s'.heap.buddy = s.heap.buddy.buddyFree (s.heap.buddy.idxToAddr idx) := by
      rw [hheap, h.kfree_eq_buddyFree hg hp, hptr]
    have hlt : s.heap.buddy.idxToAddr idx < s.heap.buddy.gBuddyEnd := by
      rw [idxToAddr_eq h.region.inside ha.index_lt]
      refine lt_of_lt_of_le (Nat.add_lt_add_left ?_ _) hgr.end_le
      exact Nat.mul_lt_mul_of_pos_right ha.index_lt (by decide)
    rcases buddyFree_cases h.inv ha h.region.inside with ⟨hout, -⟩ | ⟨-, hrel⟩
    · rcases hout with hnull | hend
      · exact absurd (hptr.trans hnull) h0
      · exact absurd hlt (Nat.not_lt.mpr hend)
    · rw [← hbuddy] at hrel
      refine ⟨hrel.toSameRegion,
        fun hun => hbuddy ▸ unpaired_buddyFree h.inv hun ha h.region.inside,
        fun i hi => h'.pages_of_sliced hsliced hi, ?_⟩
      rw [hrel.freeCount ha, hlarge, hsliced, if_pos hp]
      omega

/-- **One call.** -/
theorem Ok.takes {c : Call} (h : s.Ok fl fun _ => []) (hgr : Grounded s.heap.buddy)
    (hs : s.step c = some s') : Takes s s' := by
  obtain ⟨fl', h', -⟩ := h.step hs
  cases c with
  | kmalloc size => exact h.takes_kmalloc h' hgr.base hs
  | kfree g => exact h.takes_kfree h' hgr hs
  | write g addr value =>
    rw [HeapClient.step] at hs
    split_ifs at hs with hg
    obtain rfl := Option.some.inj hs
    exact ⟨SameRegion.refl _, id, fun i hi => h'.pages_of_sliced rfl hi, rfl⟩

/-- A state of a run, with what the induction carries. -/
structure Kept (s : HeapClient) : Prop where
  ok : ∃ fl, s.Ok fl fun _ => []
  grounded : Grounded s.heap.buddy
  unpaired : s.heap.buddy.Unpaired

theorem Kept.step {c : Call} (h : Kept s) (hs : s.step c = some s') : Kept s' ∧ Takes s s' := by
  obtain ⟨fl, hok⟩ := h.ok
  have htakes := hok.takes h.grounded hs
  exact ⟨⟨(hok.step hs).imp fun _ h' => h'.1, h.grounded.congr htakes.region,
    htakes.unpaired h.unpaired⟩, htakes⟩

/-- **Runs.**  The pages that the pools get are those that the largest numbers of chunks need. -/
theorem takes_of_run {cs : List Call} (h : Kept s) (hrun : runList HeapClient.step s cs = some s') :
    Kept s' ∧ (∀ i < numPools, (s'.poolPages i).length =
        max (s.poolPages i).length (pagesFor i (peak i s cs))) ∧
      s'.heap.buddy.freeCount + (s'.sliced.length + s'.largeFrames) =
        s.heap.buddy.freeCount + (s.sliced.length + s.largeFrames) := by
  induction cs generalizing s with
  | nil =>
    obtain rfl := Option.some.inj hrun
    obtain ⟨fl, hok⟩ := h.ok
    refine ⟨h, fun i hi => ?_, rfl⟩
    rw [peak, Nat.max_eq_left (hok.pagesFor_le hi)]
  | cons c cs ih =>
    rw [runList_cons, Option.bind_eq_some_iff] at hrun
    obtain ⟨t, ht, hrest⟩ := hrun
    obtain ⟨hkept, htakes⟩ := h.step ht
    obtain ⟨hkept', hpages, hframes⟩ := ih hkept hrest
    obtain ⟨fl, hok⟩ := h.ok
    refine ⟨hkept', fun i hi => ?_, hframes.trans htakes.frames⟩
    rw [hpages i hi, htakes.pages i hi, peak, ht, Option.map_some, Option.getD_some,
      pagesFor_max hi]
    -- the chunks that `t` holds are counted by the rest of the run
    have hlive : pagesFor i (t.liveChunks i).length ≤ pagesFor i (peak i t cs) := by
      refine (le_max_left _ (pagesFor i (peak i t cs))).trans_eq ?_
      rw [← pagesFor_max hi]
      congr 1
      cases cs with
      | nil => exact max_self _
      | cons c' cs => exact max_eq_right (le_max_left _ _)
    have hle := hok.pagesFor_le hi
    omega

end HeapClient

/-! ## From boot on -/

open HeapClient

theorem kept_bootHeap (fa : ℕ → ℤ) {base size : ℕ} (h0 : 0 < base) (hbase : pageSize ∣ base)
    (hend : base + size < 2 ^ 64) (reserves : List (ℕ × ℕ)) (pools : ℕ → Pool) (table : ℕ → ℤ)
    (mem : ℕ → ℕ) : Kept (bootHeap fa base size reserves pools table mem) := by
  have hunbuilt := unbuilt_reservedBuddy fa base size reserves
  obtain ⟨-, hsame⟩ := hunbuilt.built
  refine ⟨⟨_, ok_bootHeap fa hbase hend.le reserves pools table mem⟩, ⟨?_, ?_⟩,
    PageClient.unpaired_bootPages fa base size reserves⟩
  · show (reservedBuddy fa base size reserves).buddyBuildFreeLists.gBuddyBase ≠ 0
    rw [hsame.base, hunbuilt.base_eq]
    exact h0.ne'
  · show (reservedBuddy fa base size reserves).buddyBuildFreeLists.gBuddyBase +
      (reservedBuddy fa base size reserves).buddyBuildFreeLists.gTotalPages * pageSize ≤
        (reservedBuddy fa base size reserves).buddyBuildFreeLists.gBuddyEnd
    rw [hsame.base, hsame.pages, hsame.«end», hunbuilt.base_eq, hunbuilt.pages_eq,
      hunbuilt.end_eq, u64_of_lt hend]
    exact Nat.add_le_add_left (Nat.div_mul_le_self _ _) _

/-- The frames that the boot did not reserve. -/
theorem freeCount_bootHeap (fa : ℕ → ℤ) (base size : ℕ) (reserves : List (ℕ × ℕ))
    (pools : ℕ → Pool) (table : ℕ → ℤ) (mem : ℕ → ℕ) :
    (bootHeap fa base size reserves pools table mem).heap.buddy.freeCount =
      ((Finset.range (size / pageSize)).filter fun j =>
        (reservedBuddy fa base size reserves).frameArray j ≠ frameReserved).card := by
  have hunbuilt := unbuilt_reservedBuddy fa base size reserves
  obtain ⟨-, hsame⟩ := hunbuilt.built
  show (reservedBuddy fa base size reserves).buddyBuildFreeLists.freeSet.card = _
  congr 1
  ext j
  rw [mem_freeSet, hsame.owner, hsame.pages, hunbuilt.pages_eq, Finset.mem_filter,
    Finset.mem_range, owner_eq_none]
  refine and_congr_right fun hj => ?_
  rcases hunbuilt.frames j (hunbuilt.pages_eq ▸ hj) with hfree | hreserved
  · rw [hfree]
    exact iff_of_true isFreeVal_freePart (by decide)
  · simp [hreserved, not_isFreeVal_reserved]

/-- **How much memory the heap takes.**  After any run of requests, frees and writes from boot on,
the number of pages of each pool is what the largest number of its chunks that were held at one time
needs.  These pages, the frames of the large blocks that are held and the free frames are all the
frames that are not reserved.  The region begins at a page above address `0` and ends below
`2 ^ 64`; no call is interrupted by another one. -/
theorem footprint_of_run (fa : ℕ → ℤ) {base size : ℕ} (h0 : 0 < base) (hbase : pageSize ∣ base)
    (hend : base + size < 2 ^ 64) (reserves : List (ℕ × ℕ)) (pools : ℕ → Pool) (table : ℕ → ℤ)
    (mem : ℕ → ℕ) {cs : List Call} {s : HeapClient}
    (hrun : runList HeapClient.step (bootHeap fa base size reserves pools table mem) cs = some s) :
    (∀ i < numPools, (s.poolPages i).length =
      pagesFor i (peak i (bootHeap fa base size reserves pools table mem) cs)) ∧
    s.heap.buddy.freeCount + ∑ i ∈ Finset.range numPools,
        pagesFor i (peak i (bootHeap fa base size reserves pools table mem) cs) + s.largeFrames =
      ((Finset.range (size / pageSize)).filter fun j =>
        (reservedBuddy fa base size reserves).frameArray j ≠ frameReserved).card := by
  obtain ⟨hkept, hpages, hframes⟩ :=
    takes_of_run (kept_bootHeap fa h0 hbase hend reserves pools table mem) hrun
  obtain ⟨fl, hok⟩ := hkept.ok
  have hpool : ∀ i < numPools, (s.poolPages i).length =
      pagesFor i (peak i (bootHeap fa base size reserves pools table mem) cs) := by
    intro i hi
    rw [hpages i hi]
    exact Nat.max_eq_right (Nat.zero_le _)
  refine ⟨hpool, ?_⟩
  rw [← Finset.sum_congr rfl fun i hi => hpool i (Finset.mem_range.mp hi), ← hok.length_sliced,
    Nat.add_assoc, hframes, ← freeCount_bootHeap fa base size reserves pools table mem]
  rfl

/-- Two chunks of the 64-byte pool and a block of two pages, in a gigabyte at `0x80000000`. -/
theorem footprint_of_three_requests :
    ∃ s, runList HeapClient.step
        (bootHeap (fun _ => 0) 0x80000000 0x40000000 [] (fun _ => ⟨0, 0⟩) (fun _ => 0) fun _ => 0)
        [.kmalloc 64, .kmalloc 5000, .kmalloc 40] = some s ∧
      ∀ i < numPools, (s.poolPages i).length = pagesFor i (peak i
        (bootHeap (fun _ => 0) 0x80000000 0x40000000 [] (fun _ => ⟨0, 0⟩) (fun _ => 0) fun _ => 0)
        [.kmalloc 64, .kmalloc 5000, .kmalloc 40]) := by
  obtain ⟨s, hs⟩ := Option.isSome_iff_exists.mp (show (runList HeapClient.step
    (bootHeap (fun _ => 0) 0x80000000 0x40000000 [] (fun _ => ⟨0, 0⟩) (fun _ => 0) fun _ => 0)
    [.kmalloc 64, .kmalloc 5000, .kmalloc 40]).isSome = true from rfl)
  exact ⟨s, hs, (footprint_of_run _ (by decide) (by decide) (by decide) _ _ _ _ hs).1⟩

/-- There is nothing left for a request: its pool has no chunk and no page is free, or there is no
room for its block. -/
def HeapClient.Exhausted (s : HeapClient) (size : ℕ) : Prop :=
  match findPool size with
  | some i => (s.liveChunks i).length = (s.poolPages i).length * chunksPerPage i ∧
      s.heap.buddy.freeCount = 0
  | none => ¬ s.heap.buddy.Room size

/-- **When `kmalloc` fails.**  In every state of every run a request fails exactly when there is
nothing left for it, and then it changes nothing.  The region begins at a page above address `0` and
ends below `2 ^ 64`, and rounding the request up to pages does not overflow; no call is interrupted
by another one. -/
theorem kmalloc_null_iff (fa : ℕ → ℤ) {base size : ℕ} (h0 : 0 < base) (hbase : pageSize ∣ base)
    (hend : base + size < 2 ^ 64) (reserves : List (ℕ × ℕ)) (pools : ℕ → Pool) (table : ℕ → ℤ)
    (mem : ℕ → ℕ) {s : HeapClient}
    (hs : Reachable HeapClient.step anyStep (bootHeap fa base size reserves pools table mem) s)
    {n : ℕ} (hn : 0 < n) (hround : n + pageSize - 1 < 2 ^ 64) :
    ((s.heap.kmalloc n).2 = 0 ↔ s.Exhausted n) ∧
      ((s.heap.kmalloc n).2 = 0 → (s.heap.kmalloc n).1 = s.heap) := by
  have hkept : Kept s := hs.invariant (kept_bootHeap fa h0 hbase hend reserves pools table mem)
    fun s c s' h _ hstep => (h.step hstep).1
  obtain ⟨fl, hok⟩ := hkept.ok
  have hroom := room_iff hok.inv hkept.unpaired hround
  have hpage := exists_first_page_iff hok.inv hkept.unpaired
  rcases hok.served hkept.grounded.base rfl with ⟨hsame, hnull, hwhy⟩ |
    ⟨i, p, hp, hne, hfl, -⟩ | ⟨i, p, idx, hp, hne, -, hfirst, -⟩ | ⟨p, idx, hp, hne, hfirst, -⟩
  · obtain ⟨hsmall, hlarge⟩ := hwhy hn.ne'
    refine ⟨iff_of_true hnull ?_, fun _ => congrArg HeapClient.heap hsame⟩
    unfold Exhausted
    cases hp : findPool n with
    | none =>
      intro h
      obtain ⟨j, hj⟩ := hroom.mp h
      exact hlarge hp j hj
    | some i =>
      obtain ⟨hfl, hnone⟩ := hsmall i hp
      have hlen := hok.length_chunks (findPool_some hp).1
      rw [hfl, List.length_nil, Nat.add_zero] at hlen
      refine ⟨hlen, ?_⟩
      by_contra hfree
      obtain ⟨j, hj⟩ := hpage.mpr hfree
      exact hnone j hj
  · refine ⟨iff_of_false hne ?_, fun h => absurd h hne⟩
    simp only [Exhausted, hp]
    rintro ⟨hlen, -⟩
    have hchunks := hok.length_chunks (findPool_some hp).1
    have := List.length_pos_of_ne_nil hfl
    omega
  · refine ⟨iff_of_false hne ?_, fun h => absurd h hne⟩
    simp only [Exhausted, hp]
    rintro ⟨-, hfree⟩
    exact hpage.mp hfirst hfree
  · refine ⟨iff_of_false hne ?_, fun h => absurd h hne⟩
    simp only [Exhausted, hp]
    exact not_not.mpr (hroom.mpr hfirst)

/-- One page from `0x80000000` on, and it is reserved: a request for 64 bytes fails. -/
theorem kmalloc_null_of_reserved :
    ((bootHeap (fun _ => 0) 0x80000000 0x1000 [(0x80000000, 0x80001000)] (fun _ => ⟨0, 0⟩)
      (fun _ => 0) fun _ => 0).heap.kmalloc 64).2 = 0 := by
  refine (kmalloc_null_iff _ (by decide) (by decide) (by decide) _ _ _ _ (Reachable.refl _)
    (by decide) (by decide)).1.mpr ?_
  unfold Exhausted
  exact ⟨rfl, by decide +kernel⟩

end OscKernel
