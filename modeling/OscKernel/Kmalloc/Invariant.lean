import OscKernel.Kmalloc.Pools
import OscKernel.Lib.Chain
import OscKernel.Buddy.Run
import Mathlib.Data.List.Perm.Basic

/-!
# The heap and its holders

The heap together with what its callers hold (`Grant`s) and the history of the slicing
(`sliced`).  The invariant `Ok` is a ledger: for each pool, the chunks held by callers, the chunks
of its free list and the chunks that are in neither place are together the chunks of the pages
sliced for it, and the pages sliced for the pools and the blocks held by callers are different
blocks of the buddy allocator.  Between calls no chunk is outside both; inside a call some are.
-/

namespace OscKernel

open DyadicBlock Buddy

/-! ## Sizes -/

/-- The chunk size of a pool. -/
def chunkBytes (i : ℕ) : ℕ := poolSizes.getD i 0

theorem chunkBytes_pos : ∀ i < numPools, 0 < chunkBytes i := by decide

theorem chunkBytes_dvd : ∀ i < numPools, chunkBytes i ∣ pageSize := by decide

theorem pageSize_div_chunkBytes_ne_zero : ∀ i < numPools, pageSize / chunkBytes i ≠ 0 := by decide

theorem mul_chunkBytes {i : ℕ} (hi : i < numPools) :
    pageSize / chunkBytes i * chunkBytes i = pageSize := Nat.div_mul_cancel (chunkBytes_dvd i hi)

/-- `find_pool` answers with a pool whose chunks hold the request. -/
theorem findPool_some {size i : ℕ} (h : findPool size = some i) :
    i < numPools ∧ size ≤ chunkBytes i := by
  unfold findPool at h
  rw [List.findIdx?_eq_some_iff_getElem] at h
  obtain ⟨hlt, hp, -⟩ := h
  refine ⟨hlt, ?_⟩
  unfold chunkBytes
  rw [List.getD_eq_getElem _ _ hlt]
  exact of_decide_eq_true hp

theorem requestOrder_pageSize : requestOrder pageSize = 0 := by decide

/-! ## Addresses -/

/-- The bytes of a block of the buddy allocator. -/
def Buddy.blockBytes (b : Buddy) (i k : ℕ) : Set ℕ :=
  Set.Ico (b.idxToAddr i) (b.idxToAddr i + 2 ^ k * pageSize)

/-- The managed region consists of whole pages and ends inside the address space. -/
structure Buddy.Region (b : Buddy) : Prop where
  inside : b.gBuddyBase + b.gTotalPages * pageSize ≤ 2 ^ 64
  aligned : pageSize ∣ b.gBuddyBase

namespace Buddy

variable {b b' : Buddy} {i k i' k' j d : ℕ}

theorem Region.congr (h : b.Region) (hs : SameRegion b b') : b'.Region :=
  ⟨by rw [hs.base, hs.pages]; exact h.inside, by rw [hs.base]; exact h.aligned⟩

theorem blockBytes_congr (hs : SameRegion b b') : b'.blockBytes i k = b.blockBytes i k := by
  unfold blockBytes
  rw [hs.idxToAddr]

/-- The page of an address inside a frame. -/
theorem Region.pageDown_add (h : b.Region) (hj : j < b.gTotalPages) (hd : d < pageSize) :
    pageDown (b.idxToAddr j + d) = b.idxToAddr j := by
  obtain ⟨m, hm⟩ := h.aligned
  rw [idxToAddr_eq h.inside hj, hm]
  unfold pageDown
  unfold pageSize at hd ⊢
  omega

/-- Blocks without a common frame have no common byte. -/
theorem Region.blockBytes_disjoint (h : b.Region) (hin : i + 2 ^ k ≤ b.gTotalPages)
    (hin' : i' + 2 ^ k' ≤ b.gTotalPages) (hd : Disjoint (block i k) (block i' k')) :
    Disjoint (b.blockBytes i k) (b.blockBytes i' k') := by
  have hpos := Nat.two_pow_pos k
  have hpos' := Nat.two_pow_pos k'
  rw [Set.disjoint_left]
  rintro x ⟨h1, h2⟩ ⟨h3, h4⟩
  rw [idxToAddr_eq h.inside (by omega)] at h1 h2
  have hmem : (x - b.gBuddyBase) / pageSize ∈ block i k := by
    rw [mem_block]
    unfold pageSize at *
    omega
  refine Set.disjoint_left.mp hd hmem ?_
  rw [idxToAddr_eq h.inside (by omega)] at h3 h4
  rw [mem_block]
  unfold pageSize at *
  omega

end Buddy

/-! ## Holders -/

/-- A pointer that `kmalloc` returned, and the size it was asked for. -/
structure Grant where
  ptr : ℕ
  size : ℕ
  deriving DecidableEq

/-- The heap, what its callers hold, and the pages sliced so far with their pools. -/
structure HeapClient where
  heap : Heap
  live : List Grant
  sliced : List (ℕ × ℕ)

namespace HeapClient

/-- The chunks of a page sliced for pool `i`, in address order. -/
def pageChunks (s : HeapClient) (i pg : ℕ) : List ℕ :=
  (List.range (pageSize / chunkBytes i)).map fun n => s.heap.buddy.idxToAddr pg + n * chunkBytes i

/-- The pages sliced for pool `i`. -/
def poolPages (s : HeapClient) (i : ℕ) : List ℕ := (s.sliced.filter fun e => e.2 = i).map Prod.fst

/-- The chunks of all pages sliced for pool `i`. -/
def poolChunks (s : HeapClient) (i : ℕ) : List ℕ := (s.poolPages i).flatMap (s.pageChunks i)

/-- The chunks of pool `i` that callers hold. -/
def liveChunks (s : HeapClient) (i : ℕ) : List ℕ :=
  (s.live.filter fun g => findPool g.size = some i).map Grant.ptr

/-- How many bytes a request is given: a chunk of its pool, or the pages of its block. -/
def capacityBytes (size : ℕ) : ℕ :=
  match findPool size with
  | some i => chunkBytes i
  | none => 2 ^ requestOrder size * pageSize

theorem capacityBytes_of_pool {size i : ℕ} (hp : findPool size = some i) :
    capacityBytes size = chunkBytes i := by
  unfold capacityBytes
  rw [hp]

theorem capacityBytes_of_large {size : ℕ} (hp : findPool size = none) :
    capacityBytes size = 2 ^ requestOrder size * pageSize := by
  unfold capacityBytes
  rw [hp]

theorem capacityBytes_pos (size : ℕ) : 0 < capacityBytes size := by
  cases hp : findPool size with
  | some i => exact capacityBytes_of_pool hp ▸ chunkBytes_pos i (findPool_some hp).1
  | none =>
    rw [capacityBytes_of_large hp]
    exact Nat.mul_pos (Nat.two_pow_pos _) (by decide)

/-- A request whose size does not wrap gets as much as it asked for. -/
theorem le_capacityBytes {size : ℕ} (hround : size + pageSize - 1 < 2 ^ 64) :
    size ≤ capacityBytes size := by
  cases hp : findPool size with
  | some i => exact capacityBytes_of_pool hp ▸ (findPool_some hp).2
  | none => exact capacityBytes_of_large hp ▸ (Buddy.isLeast_requestOrder hround).1

/-- The bytes a caller may use. -/
def capacity (g : Grant) : Set ℕ := Set.Ico g.ptr (g.ptr + capacityBytes g.size)

/-- **The ledger.**  `fl i` are the chunks on the free list of pool `i`, `out i` those that are
neither held nor on the list. -/
structure Ok (fl out : ℕ → List ℕ) (s : HeapClient) : Prop where
  inv : s.heap.buddy.Inv
  region : s.heap.buddy.Region
  sizes : ∀ i < numPools, (s.heap.pools i).chunkSize = chunkBytes i
  chain : ∀ i < numPools, Chain s.heap.mem 0 (s.heap.pools i).freeList (fl i)
  /-- No page is sliced twice, and every sliced page is a block of its own. -/
  sliced_nodup : (s.sliced.map Prod.fst).Nodup
  sliced_page : ∀ e ∈ s.sliced, e.2 < numPools ∧ s.heap.buddy.AllocBlock e.1 0 ∧
    s.heap.buddy.idxToAddr e.1 ≠ 0
  table_sliced : ∀ e ∈ s.sliced, s.heap.pagePoolIdx e.1 = e.2
  table_other : ∀ pg < s.heap.buddy.gTotalPages, pg ∉ s.sliced.map Prod.fst →
    s.heap.pagePoolIdx pg = -1
  chunks : ∀ i < numPools, (s.liveChunks i ++ (fl i ++ out i)).Perm (s.poolChunks i)
  large : ∀ g ∈ s.live, findPool g.size = none → g.ptr ≠ 0 ∧
    ∃ i, s.heap.buddy.AllocBlock i (requestOrder g.size) ∧ g.ptr = s.heap.buddy.idxToAddr i ∧
      ∀ e ∈ s.sliced, e.1 ∉ block i (requestOrder g.size)
  ptr_nodup : (s.live.map Grant.ptr).Nodup

variable {s : HeapClient} {fl out : ℕ → List ℕ} {i j c pg : ℕ} {g g' : Grant}

theorem mem_poolPages : pg ∈ s.poolPages i ↔ (pg, i) ∈ s.sliced := by
  unfold poolPages
  rw [List.mem_map]
  constructor
  · rintro ⟨⟨pg', i'⟩, hmem, rfl⟩
    obtain ⟨hmem, hi⟩ := List.mem_filter.mp hmem
    have hi : i' = i := of_decide_eq_true hi
    exact hi ▸ hmem
  · exact fun h => ⟨(pg, i), List.mem_filter.mpr ⟨h, decide_eq_true rfl⟩, rfl⟩

theorem mem_pageChunks :
    c ∈ s.pageChunks i pg ↔
      ∃ n < pageSize / chunkBytes i, c = s.heap.buddy.idxToAddr pg + n * chunkBytes i := by
  unfold pageChunks
  simp only [List.mem_map, List.mem_range, eq_comm]

theorem mem_poolChunks :
    c ∈ s.poolChunks i ↔ ∃ pg, (pg, i) ∈ s.sliced ∧ c ∈ s.pageChunks i pg := by
  unfold poolChunks
  simp only [List.mem_flatMap, mem_poolPages]

theorem mem_liveChunks :
    c ∈ s.liveChunks i ↔ ∃ g ∈ s.live, findPool g.size = some i ∧ g.ptr = c := by
  unfold liveChunks
  simp only [List.mem_map, List.mem_filter, decide_eq_true_eq, and_assoc]

namespace Ok

/-- A pool that has a sliced page is one of the pools. -/
theorem pool_lt (h : s.Ok fl out) (he : (pg, i) ∈ s.sliced) : i < numPools :=
  (h.sliced_page _ he).1

theorem page_lt (h : s.Ok fl out) (he : (pg, i) ∈ s.sliced) : pg < s.heap.buddy.gTotalPages :=
  (h.sliced_page _ he).2.1.index_lt

/-- A sliced page belongs to one pool. -/
theorem sliced_unique (h : s.Ok fl out) (he : (pg, i) ∈ s.sliced) (he' : (pg, j) ∈ s.sliced) :
    i = j :=
  congrArg Prod.snd (List.inj_on_of_nodup_map h.sliced_nodup he he' rfl)

/-- A chunk lies in its page. -/
theorem chunk_offset (h : s.Ok fl out) (he : (pg, i) ∈ s.sliced) (hc : c ∈ s.pageChunks i pg) :
    ∃ d, c = s.heap.buddy.idxToAddr pg + d ∧ chunkBytes i ∣ d ∧ d + chunkBytes i ≤ pageSize := by
  obtain ⟨n, hn, rfl⟩ := mem_pageChunks.mp hc
  refine ⟨n * chunkBytes i, rfl, Nat.dvd_mul_left _ _, ?_⟩
  rw [← Nat.succ_mul, ← mul_chunkBytes (h.pool_lt he)]
  exact Nat.mul_le_mul_right _ hn

/-- The bytes of a chunk are bytes of its page. -/
theorem chunk_subset (h : s.Ok fl out) (he : (pg, i) ∈ s.sliced) (hc : c ∈ s.pageChunks i pg) :
    Set.Ico c (c + chunkBytes i) ⊆ s.heap.buddy.blockBytes pg 0 := by
  obtain ⟨d, rfl, -, hd⟩ := h.chunk_offset he hc
  rintro x ⟨h1, h2⟩
  refine ⟨by omega, ?_⟩
  rw [Nat.pow_zero, Nat.one_mul]
  omega

/-- The page that `kfree` computes from a chunk is the page the chunk was sliced from. -/
theorem page_of_chunk (h : s.Ok fl out) (he : (pg, i) ∈ s.sliced) (hc : c ∈ s.pageChunks i pg) :
    s.heap.addrToPageIdx (pageDown c) = pg := by
  obtain ⟨d, rfl, -, hd⟩ := h.chunk_offset he hc
  have hpos := chunkBytes_pos i (h.pool_lt he)
  rw [h.region.pageDown_add (h.page_lt he) (by omega)]
  exact addrToIdx_idxToAddr h.region.inside (h.page_lt he)

/-- The page that `kfree` computes from the address of a frame is that frame. -/
theorem page_of_addr (h : s.Ok fl out) (hpg : pg < s.heap.buddy.gTotalPages) :
    s.heap.addrToPageIdx (pageDown (s.heap.buddy.idxToAddr pg)) = pg := by
  have hdown := h.region.pageDown_add hpg (d := 0) (by decide)
  rw [Nat.add_zero] at hdown
  rw [hdown]
  exact addrToIdx_idxToAddr h.region.inside hpg

theorem chunk_ne_zero (h : s.Ok fl out) (hc : c ∈ s.poolChunks i) : c ≠ 0 := by
  obtain ⟨pg, he, hc⟩ := mem_poolChunks.mp hc
  obtain ⟨d, rfl, -, -⟩ := h.chunk_offset he hc
  have := (h.sliced_page _ he).2.2
  dsimp only at this
  omega

/-- A chunk belongs to one page and one pool. -/
theorem chunk_unique (h : s.Ok fl out) {pg' : ℕ} (he : (pg, i) ∈ s.sliced)
    (he' : (pg', j) ∈ s.sliced) (hc : c ∈ s.pageChunks i pg) (hc' : c ∈ s.pageChunks j pg') :
    pg = pg' ∧ i = j := by
  obtain rfl : pg = pg' := (h.page_of_chunk he hc).symm.trans (h.page_of_chunk he' hc')
  exact ⟨rfl, h.sliced_unique he he'⟩

theorem poolChunks_disjoint (h : s.Ok fl out) (hc : c ∈ s.poolChunks i) (hc' : c ∈ s.poolChunks j) :
    i = j := by
  obtain ⟨pg, he, hc⟩ := mem_poolChunks.mp hc
  obtain ⟨pg', he', hc'⟩ := mem_poolChunks.mp hc'
  exact (h.chunk_unique he he' hc hc').2

/-- The chunks of a page are distinct. -/
theorem pageChunks_nodup (s : HeapClient) (hi : i < numPools) (pg : ℕ) :
    (s.pageChunks i pg).Nodup := by
  refine List.Nodup.map_on (fun n _ m _ heq => ?_) List.nodup_range
  exact Nat.eq_of_mul_eq_mul_right (chunkBytes_pos i hi) (Nat.add_left_cancel heq)

/-- The chunks of a pool are distinct. -/
theorem poolChunks_nodup (h : s.Ok fl out) (hi : i < numPools) : (s.poolChunks i).Nodup := by
  have hpages : (s.poolPages i).Nodup :=
    h.sliced_nodup.sublist (List.filter_sublist.map Prod.fst)
  refine List.nodup_flatMap.mpr ⟨fun pg _ => pageChunks_nodup s hi pg, ?_⟩
  refine hpages.imp_of_mem fun {pg pg'} hpg hpg' hne => ?_
  intro c hc hc'
  exact hne (h.chunk_unique (mem_poolPages.mp hpg) (mem_poolPages.mp hpg') hc hc').1

theorem ledger_nodup (h : s.Ok fl out) (hi : i < numPools) :
    (s.liveChunks i ++ (fl i ++ out i)).Nodup :=
  (h.chunks i hi).nodup_iff.mpr (h.poolChunks_nodup hi)

theorem unheld_mem (h : s.Ok fl out) (hi : i < numPools) (hc : c ∈ fl i ++ out i) :
    c ∈ s.poolChunks i :=
  (h.chunks i hi).subset (List.mem_append_right _ hc)

theorem live_mem (h : s.Ok fl out) (hg : g ∈ s.live) (hp : findPool g.size = some i) :
    g.ptr ∈ s.poolChunks i :=
  (h.chunks i (findPool_some hp).1).subset
    (List.mem_append_left _ (mem_liveChunks.mpr ⟨g, hg, hp, rfl⟩))

/-- A chunk on a free list, or outside, is held by nobody. -/
theorem unheld_not_live (h : s.Ok fl out) (hi : i < numPools) (hc : c ∈ fl i ++ out i)
    (hg : g ∈ s.live) : g.ptr ≠ c := by
  rintro rfl
  obtain ⟨pg, he, hc'⟩ := mem_poolChunks.mp (h.unheld_mem hi hc)
  cases hp : findPool g.size with
  | some j =>
    obtain rfl := h.poolChunks_disjoint (h.unheld_mem hi hc) (h.live_mem hg hp)
    exact List.disjoint_of_nodup_append (h.ledger_nodup hi)
      (mem_liveChunks.mpr ⟨g, hg, hp, rfl⟩) hc
  | none =>
    obtain ⟨-, idx, ha, haddr, hoff⟩ := h.large g hg hp
    have hpage := h.page_of_chunk he hc'
    rw [haddr, h.page_of_addr ha.index_lt] at hpage
    exact hoff _ he (hpage ▸ self_mem_block _ _)

/-- The page that `kfree` computes from a held pointer starts an allocated block. -/
theorem page_allocated (h : s.Ok fl out) (hg : g ∈ s.live) :
    ∃ k, s.heap.buddy.AllocBlock (s.heap.addrToPageIdx (pageDown g.ptr)) k := by
  cases hp : findPool g.size with
  | some i =>
    obtain ⟨pg, he, hc⟩ := mem_poolChunks.mp (h.live_mem hg hp)
    rw [h.page_of_chunk he hc]
    exact ⟨0, (h.sliced_page _ he).2.1⟩
  | none =>
    obtain ⟨-, idx, ha, hptr, -⟩ := h.large g hg hp
    rw [hptr, h.page_of_addr ha.index_lt]
    exact ⟨_, ha⟩

/-! ### Capacities -/

/-- What a caller holds lies inside a block that is allocated to it: a sliced page of its pool, or
the block it was given. -/
theorem capacity_block (h : s.Ok fl out) (hg : g ∈ s.live) :
    ∃ idx k, s.heap.buddy.AllocBlock idx k ∧ capacity g ⊆ s.heap.buddy.blockBytes idx k ∧
      ((∃ i, findPool g.size = some i ∧ (idx, i) ∈ s.sliced ∧ g.ptr ∈ s.pageChunks i idx ∧ k = 0) ∨
        (findPool g.size = none ∧ g.ptr = s.heap.buddy.idxToAddr idx ∧
          k = requestOrder g.size)) := by
  unfold capacity
  cases hp : findPool g.size with
  | some i =>
    obtain ⟨pg, he, hc⟩ := mem_poolChunks.mp (h.live_mem hg hp)
    rw [capacityBytes_of_pool hp]
    exact ⟨pg, 0, (h.sliced_page _ he).2.1, h.chunk_subset he hc,
      Or.inl ⟨i, rfl, he, hc, rfl⟩⟩
  | none =>
    obtain ⟨-, idx, ha, haddr, -⟩ := h.large g hg hp
    refine ⟨idx, _, ha, ?_, Or.inr ⟨rfl, haddr, rfl⟩⟩
    rw [capacityBytes_of_large hp, haddr]
    exact le_rfl

/-- What a caller holds ends inside the managed region. -/
theorem ptr_add_capacityBytes_le (h : s.Ok fl out) (hg : g ∈ s.live) :
    g.ptr + capacityBytes g.size ≤
      s.heap.buddy.gBuddyBase + s.heap.buddy.gTotalPages * pageSize := by
  obtain ⟨idx, k, ha, hsub, -⟩ := h.capacity_block hg
  have hpos := capacityBytes_pos g.size
  have hlast := hsub (show g.ptr + capacityBytes g.size - 1 ∈ capacity g from
    ⟨by omega, by omega⟩)
  have hpages := Nat.mul_le_mul_right pageSize ha.inside
  rw [Nat.add_mul] at hpages
  unfold Buddy.blockBytes at hlast
  rw [Buddy.idxToAddr_eq h.region.inside ha.index_lt, Set.mem_Ico] at hlast
  omega

/-- Two chunks of one page are equal or apart. -/
theorem chunks_apart {c' : ℕ} (hc : c ∈ s.pageChunks i pg) (hc' : c' ∈ s.pageChunks i pg)
    (hne : c ≠ c') :
    Disjoint (Set.Ico c (c + chunkBytes i)) (Set.Ico c' (c' + chunkBytes i)) := by
  obtain ⟨n, -, rfl⟩ := mem_pageChunks.mp hc
  obtain ⟨m, -, rfl⟩ := mem_pageChunks.mp hc'
  have hnm : n ≠ m := by rintro rfl; exact hne rfl
  rw [Set.disjoint_left]
  rintro x ⟨h1, h2⟩ ⟨h3, h4⟩
  rcases Nat.lt_or_gt_of_ne hnm with hlt | hlt
  · have := Nat.mul_le_mul_right (chunkBytes i) (Nat.succ_le_of_lt hlt)
    rw [Nat.succ_mul] at this
    omega
  · have := Nat.mul_le_mul_right (chunkBytes i) (Nat.succ_le_of_lt hlt)
    rw [Nat.succ_mul] at this
    omega

/-- Allocated blocks that are different have no common byte. -/
theorem blocks_apart (h : s.Ok fl out) {a k a' k' : ℕ} (ha : s.heap.buddy.AllocBlock a k)
    (ha' : s.heap.buddy.AllocBlock a' k') (hne : ¬ (a = a' ∧ k = k')) :
    Disjoint (s.heap.buddy.blockBytes a k) (s.heap.buddy.blockBytes a' k') :=
  h.region.blockBytes_disjoint ha.inside ha'.inside
    (Set.disjoint_left.mpr fun _ hx hx' => hne (ha.unique ha' hx hx'))

/-- A large allocation is no sliced page. -/
theorem large_ne_sliced (h : s.Ok fl out) (hg : g ∈ s.live) (hp : findPool g.size = none) {idx : ℕ}
    (haddr : g.ptr = s.heap.buddy.idxToAddr idx)
    (ha : s.heap.buddy.AllocBlock idx (requestOrder g.size)) (he : (pg, i) ∈ s.sliced) :
    idx ≠ pg := by
  rintro rfl
  obtain ⟨-, idx', ha', haddr', hoff⟩ := h.large g hg hp
  have heq := idxToAddr_inj h.region.inside ha.index_lt ha'.index_lt (haddr.symm.trans haddr')
  exact hoff _ he (heq ▸ self_mem_block _ _)

/-- Different holders hold different bytes. -/
theorem capacity_disjoint (h : s.Ok fl out) (hg : g ∈ s.live) (hg' : g' ∈ s.live)
    (hne : g.ptr ≠ g'.ptr) : Disjoint (capacity g) (capacity g') := by
  obtain ⟨a, k, ha, hsub, hkind⟩ := h.capacity_block hg
  obtain ⟨a', k', ha', hsub', hkind'⟩ := h.capacity_block hg'
  by_cases hsame : a = a' ∧ k = k'
  · obtain ⟨rfl, rfl⟩ := hsame
    rcases hkind with ⟨i, hp, he, hc, rfl⟩ | ⟨hp, haddr, hk⟩ <;>
      rcases hkind' with ⟨j, hp', he', hc', -⟩ | ⟨hp', haddr', hk'⟩
    · -- two chunks of one page
      obtain rfl := h.sliced_unique he he'
      unfold capacity
      rw [capacityBytes_of_pool hp, capacityBytes_of_pool hp']
      exact chunks_apart hc hc' hne
    · exact absurd rfl (h.large_ne_sliced hg' hp' haddr' (hk' ▸ ha') he)
    · exact absurd rfl (h.large_ne_sliced hg hp haddr (hk ▸ ha) he')
    · exact absurd (haddr.trans haddr'.symm) hne
  · exact (h.blocks_apart ha ha' hsame).mono hsub hsub'

/-- A holder's bytes are apart from the chunks that nobody holds. -/
theorem capacity_unheld (h : s.Ok fl out) (hg : g ∈ s.live) (hi : i < numPools)
    (hc : c ∈ fl i ++ out i) :
    Disjoint (capacity g) (Set.Ico c (c + chunkBytes i)) := by
  have hne := h.unheld_not_live hi hc hg
  obtain ⟨pg, he, hc'⟩ := mem_poolChunks.mp (h.unheld_mem hi hc)
  obtain ⟨a, k, ha, hsub, hkind⟩ := h.capacity_block hg
  by_cases hsame : a = pg ∧ k = 0
  · obtain ⟨rfl, rfl⟩ := hsame
    rcases hkind with ⟨j, hp, he', hcj, -⟩ | ⟨hp, haddr, hk⟩
    · obtain rfl := h.sliced_unique he he'
      unfold capacity
      rw [capacityBytes_of_pool hp]
      exact chunks_apart hcj hc' hne
    · exact absurd rfl (h.large_ne_sliced hg hp haddr (hk ▸ ha) he)
  · exact (h.blocks_apart ha (h.sliced_page _ he).2.1 hsame).mono hsub (h.chunk_subset he hc')

end Ok
end HeapClient
end OscKernel
