import OscKernel.Buddy.Room
import OscKernel.Kmalloc.Boot

/-!
# How large an allocation is

A request is rounded up to pages, to a power of two, or to the chunks of a pool, each in a function
of its own.  The rounding to pages wraps for the last 4095 sizes, and a request of one of these is
served with one page.

* `HeapClient.Ok.owns_kmallocSmall`, `HeapClient.Ok.owns_kmallocLarge`: what a request is served
  with, and what it writes into `page_pool_idx`.
* `ample_iff`: it is large enough when the rounding does not wrap, and only then unless there is no
  block to be served with.
* `short_of_wrap`: a request for `2 ^ 64 - 1` bytes that gets 4096.

## What is served

`Owns` says what belongs to a pointer: a chunk inside an allocated page, or a whole block.  The
bytes are counted by it and not by the request, so that a request that is served with too little can
be stated.  The table of the pages is written for the pages of the block only, whatever it held
before, which is why `Ample` quantifies over its contents.

## The condition

A size whose rounding wraps is rounded to no pages, and the smallest order is that of one page.  It
is then served like a request for one page, provided there is a page: with no free block the result
is `NULL`, and so it is when the search ends at the block with the address `0`.  Both are about the
state before the call.
-/

namespace OscKernel

open DyadicBlock Buddy Transition

namespace Heap

/-- What belongs to a pointer that is returned for `size` bytes: a chunk of a pool, or a whole
block. The last two arguments are the pages of its block and the number of its bytes. -/
inductive Owns (h : Heap) (size ptr : ℕ) : Set ℕ → ℕ → Prop where
  | chunk {i pg : ℕ} (hp : findPool size = some i) (ha : h.buddy.AllocBlock pg 0)
      (hsub : Set.Ico ptr (ptr + (h.pools i).chunkSize) ⊆ h.buddy.blockBytes pg 0) :
      Owns h size ptr (block pg 0) (h.pools i).chunkSize
  | block {i k : ℕ} (hp : findPool size = none) (ha : h.buddy.AllocBlock i k)
      (hptr : ptr = h.buddy.idxToAddr i) : Owns h size ptr (block i k) (2 ^ k * pageSize)

/-- **A request for `size` bytes is served with at least as many**, by `buddy_alloc` and by
`kmalloc`, and whatever `page_pool_idx` holds, it is written for the pages of the block only. -/
structure Ample (h : Heap) (size : ℕ) : Prop where
  buddyAlloc : (h.buddy.buddyAlloc size).2 ≠ 0 → ∃ i k,
    (h.buddy.buddyAlloc size).1.AllocBlock i k ∧
      (h.buddy.buddyAlloc size).2 = (h.buddy.buddyAlloc size).1.idxToAddr i ∧
        size ≤ 2 ^ k * pageSize
  kmalloc : (h.kmalloc size).2 ≠ 0 → ∃ frames bytes,
    (h.kmalloc size).1.Owns size (h.kmalloc size).2 frames bytes ∧ size ≤ bytes ∧
      ∀ table, ∀ pg ∉ frames,
        ({ h with pagePoolIdx := table }.kmalloc size).1.pagePoolIdx pg = table pg

variable {h : Heap} {i size : ℕ}

/-- The large path writes the pages of the request, from the first page of the block on. -/
theorem pagePoolIdx_kmallocLarge (table : ℕ → ℤ) :
    ({ h with pagePoolIdx := table }.kmallocLarge size).1.pagePoolIdx =
      if (h.buddy.buddyAlloc size).2 = 0 then table
      else setFrames table (h.addrToPageIdx (h.buddy.buddyAlloc size).2)
        (u64 (size + pageSize - 1) / pageSize) (-1) := by
  unfold kmallocLarge
  dsimp only
  split_ifs <;> rfl

/-- The small path writes the page of a refill. -/
theorem pagePoolIdx_kmallocSmall (table : ℕ → ℤ) :
    ({ h with pagePoolIdx := table }.kmallocSmall i).1.pagePoolIdx =
      if (h.pools i).freeList = 0 ∧ (h.buddy.buddyAlloc pageSize).2 ≠ 0 then
        Function.update table (h.addrToPageIdx (h.buddy.buddyAlloc pageSize).2) i
      else table := by
  unfold kmallocSmall refill
  by_cases hempty : (h.pools i).freeList = 0
  · by_cases hpage : (h.buddy.buddyAlloc pageSize).2 = 0
    · simp only [hempty, hpage, if_pos, ne_eq, not_true, and_false, if_false]
    · simp only [hempty, hpage, if_pos, if_false, ne_eq, not_false_eq_true, and_true]
      rfl
  · simp only [hempty, if_false, false_and]
    rfl

/-- The chunk that a refill is for is the last one of the new page. -/
theorem kmallocSmall_of_refill (hempty : (h.pools i).freeList = 0)
    (hpage : (h.buddy.buddyAlloc pageSize).2 ≠ 0)
    (hsz : pageSize / (h.pools i).chunkSize ≠ 0) :
    (h.kmallocSmall i).1.buddy = (h.buddy.buddyAlloc pageSize).1 ∧
      (h.kmallocSmall i).2 = (h.buddy.buddyAlloc pageSize).2 +
        (pageSize / (h.pools i).chunkSize - 1) * (h.pools i).chunkSize := by
  obtain ⟨n, hn⟩ := Nat.exists_eq_succ_of_ne_zero hsz
  unfold kmallocSmall refill popChunk
  simp only [hempty, hpage, if_pos, if_false, setFreeList_freeList, hn, sliceChunks]
  exact ⟨rfl, rfl⟩

theorem kmallocSmall_chunkSize (h : Heap) (i j : ℕ) :
    ((h.kmallocSmall i).1.pools j).chunkSize = (h.pools j).chunkSize := by
  unfold kmallocSmall refill popChunk
  dsimp only
  split_ifs <;> simp only [setFreeList_chunkSize]

end Heap

/-! ## What a request is served with -/

namespace HeapClient

variable {s : HeapClient} {fl : ℕ → List ℕ} {n i : ℕ}

/-- A request to a pool is served with a chunk in an allocated page, the only page that can be
entered into the table. -/
theorem Ok.owns_kmallocSmall (h : s.Ok fl fun _ => []) (hp : findPool n = some i)
    (hret : (s.heap.kmallocSmall i).2 ≠ 0) :
    ∃ frames, (s.heap.kmallocSmall i).1.Owns n (s.heap.kmallocSmall i).2 frames (chunkBytes i) ∧
      ∀ table, ∀ pg ∉ frames,
        ({ s.heap with pagePoolIdx := table }.kmallocSmall i).1.pagePoolIdx pg = table pg := by
  obtain ⟨hi, -⟩ := findPool_some hp
  have hsize : ((s.heap.kmallocSmall i).1.pools i).chunkSize = chunkBytes i :=
    (s.heap.kmallocSmall_chunkSize i i).trans (h.sizes i hi)
  have hchunk : ∀ {pg}, (s.heap.kmallocSmall i).1.buddy.AllocBlock pg 0 →
      Set.Ico (s.heap.kmallocSmall i).2 ((s.heap.kmallocSmall i).2 + chunkBytes i) ⊆
        (s.heap.kmallocSmall i).1.buddy.blockBytes pg 0 →
      (s.heap.kmallocSmall i).1.Owns n (s.heap.kmallocSmall i).2 (block pg 0) (chunkBytes i) :=
    fun ha hsub => by
      rw [← hsize] at hsub ⊢
      exact .chunk hp ha hsub
  by_cases hrefill : (s.heap.pools i).freeList = 0 ∧ (s.heap.buddy.buddyAlloc pageSize).2 ≠ 0
  · rcases buddyAlloc_cases h.inv pageSize with hnull | ⟨pg, b, hcall, -, hg⟩
    · exact absurd (congrArg Prod.snd hnull) hrefill.2
    rw [requestOrder_pageSize] at hg
    obtain ⟨hb, hptr⟩ := Heap.kmallocSmall_of_refill hrefill.1 hrefill.2 (by
      rw [h.sizes i hi]
      exact pageSize_div_chunkBytes_ne_zero i hi)
    rw [hcall] at hb
    rw [hcall, h.sizes i hi, Nat.sub_mul, Nat.one_mul, mul_chunkBytes hi] at hptr
    have hle : chunkBytes i ≤ pageSize := Nat.le_of_dvd (by decide) (chunkBytes_dvd i hi)
    refine ⟨block pg 0, hchunk (hb ▸ hg.allocBlock) ?_, fun table x hx => ?_⟩
    · rw [hb, hptr, blockBytes_congr hg.toSameRegion]
      rintro x ⟨h1, h2⟩
      refine ⟨by omega, ?_⟩
      rw [Nat.pow_zero, Nat.one_mul]
      omega
    · have hback : s.heap.addrToPageIdx (s.heap.buddy.idxToAddr pg) = pg :=
        addrToIdx_idxToAddr h.region.inside hg.index_lt
      rw [Heap.pagePoolIdx_kmallocSmall, if_pos hrefill, hcall, hback]
      refine Function.update_of_ne ?_ ..
      rintro rfl
      exact hx (self_mem_block x 0)
  · have hne : (s.heap.pools i).freeList ≠ 0 := fun hempty => by
      have hnull : (s.heap.buddy.buddyAlloc pageSize).2 = 0 := by
        by_contra hpage
        exact hrefill ⟨hempty, hpage⟩
      refine hret ?_
      unfold Heap.kmallocSmall Heap.refill
      simp only [hempty, hnull, if_pos]
    have hpop : s.heap.kmallocSmall i = s.heap.popChunk i := if_neg hne
    obtain ⟨_, _, -, hok⟩ := h.popChunk hp hne
    have hlive : (⟨(s.heap.popChunk i).2, n⟩ : Grant) ∈ hold s.live (s.heap.popChunk i).2 n := by
      rw [hold_of_ne (hpop ▸ hret)]
      exact List.mem_cons_self
    obtain ⟨pg, k, ha, hsub, ⟨-, -, -, -, rfl⟩ | ⟨hnone, -⟩⟩ := hok.capacity_block hlive
    · unfold capacity at hsub
      rw [capacityBytes_of_pool hp] at hsub
      refine ⟨block pg 0, hchunk (hpop ▸ ha) (hpop ▸ hsub), fun table x _ => ?_⟩
      rw [Heap.pagePoolIdx_kmallocSmall, if_neg hrefill]
    · exact absurd (hp.symm.trans hnone) (by simp)

/-- A request that is too large for the pools is served with a block of its order, and its pages are
entered into the table. -/
theorem Ok.owns_kmallocLarge (h : s.Ok fl fun _ => []) (hp : findPool n = none)
    (hret : (s.heap.kmallocLarge n).2 ≠ 0) :
    ∃ frames, (s.heap.kmallocLarge n).1.Owns n (s.heap.kmallocLarge n).2 frames
        (2 ^ requestOrder n * pageSize) ∧
      ∀ table, ∀ pg ∉ frames,
        ({ s.heap with pagePoolIdx := table }.kmallocLarge n).1.pagePoolIdx pg = table pg := by
  rcases buddyAlloc_cases h.inv n with hnull | ⟨j, b, hcall, -, hg⟩
  · refine absurd ?_ hret
    unfold Heap.kmallocLarge
    rw [hnull]
    rfl
  have haddr : s.heap.buddy.idxToAddr j ≠ 0 := fun haddr => by
    refine hret ?_
    unfold Heap.kmallocLarge
    rw [hcall, haddr]
    rfl
  have hresult : (s.heap.kmallocLarge n).1.buddy = b ∧
      (s.heap.kmallocLarge n).2 = s.heap.buddy.idxToAddr j := by
    unfold Heap.kmallocLarge
    rw [hcall]
    dsimp only
    rw [if_neg haddr]
    exact ⟨rfl, rfl⟩
  have hback : s.heap.addrToPageIdx (s.heap.buddy.idxToAddr j) = j :=
    addrToIdx_idxToAddr h.region.inside hg.index_lt
  have hpages : u64 (n + pageSize - 1) / pageSize ≤ 2 ^ requestOrder n :=
    le_two_pow_pagesToOrder ((Nat.div_le_self _ _).trans (u64_lt _).le)
  refine ⟨_, .block hp (hresult.1 ▸ hg.allocBlock) ?_, fun table x hx => ?_⟩
  · rw [hresult.1, hresult.2, hg.toSameRegion.idxToAddr]
  · rw [Heap.pagePoolIdx_kmallocLarge, hcall, if_neg haddr, hback]
    rw [mem_block] at hx
    exact if_neg fun hin => hx ⟨hin.1, by omega⟩

/-- A size whose rounding wraps is rounded to no pages. -/
theorem requestOrder_of_wrap (hn : n < 2 ^ 64) (hwrap : 2 ^ 64 ≤ n + pageSize - 1) :
    requestOrder n = 0 := by
  have hzero : u64 (n + pageSize - 1) / pageSize = 0 := by
    unfold u64 pageSize at *
    omega
  unfold requestOrder
  rw [hzero]
  rfl

/-- **When a request is served with enough.** -/
theorem Ok.ample_kmalloc_iff (h : s.Ok fl fun _ => []) (hn : n < 2 ^ 64) :
    s.heap.Ample n ↔ n + pageSize - 1 < 2 ^ 64 ∨
      ∀ i, s.heap.buddy.First 0 i → s.heap.buddy.idxToAddr i = 0 := by
  rcases Nat.lt_or_ge (n + pageSize - 1) (2 ^ 64) with hround | hwrap
  · refine iff_of_true ⟨fun hret => ?_, fun hret => ?_⟩ (Or.inl hround)
    · rcases buddyAlloc_cases h.inv n with hnull | ⟨i, b, hcall, -, hg⟩
      · exact absurd (congrArg Prod.snd hnull) hret
      · rw [hcall]
        exact ⟨i, _, hg.allocBlock, hg.toSameRegion.idxToAddr.symm, (isLeast_requestOrder hround).1⟩
    · have hn0 : n ≠ 0 := fun hn0 => hret (by rw [Heap.kmalloc, if_pos hn0])
      cases hp : findPool n with
      | none =>
        have hkm : ∀ h : Heap, h.kmalloc n = h.kmallocLarge n := fun h => by
          rw [Heap.kmalloc, if_neg hn0, hp]
        rw [hkm] at hret
        obtain ⟨frames, howns, htable⟩ := h.owns_kmallocLarge hp hret
        simp only [hkm]
        exact ⟨frames, _, howns, (isLeast_requestOrder hround).1, htable⟩
      | some i =>
        have hkm : ∀ h : Heap, h.kmalloc n = h.kmallocSmall i := fun h => by
          rw [Heap.kmalloc, if_neg hn0, hp]
        rw [hkm] at hret
        obtain ⟨frames, howns, htable⟩ := h.owns_kmallocSmall hp hret
        simp only [hkm]
        exact ⟨frames, _, howns, (findPool_some hp).2, htable⟩
  · have hn0 : n ≠ 0 := by
      unfold pageSize at hwrap
      omega
    have hp : findPool n = none := by
      cases hp : findPool n with
      | none => rfl
      | some i =>
        have hle := (findPool_some hp).2
        have hchunk : ∀ i < numPools, chunkBytes i ≤ 2048 := by decide
        have := hchunk i (findPool_some hp).1
        unfold pageSize at hwrap
        omega
    rw [or_iff_right (not_lt.mpr hwrap)]
    constructor
    · intro hample i hf
      by_contra haddr
      rw [← requestOrder_of_wrap hn hwrap] at hf
      obtain ⟨b, hcall, -, hg⟩ := buddyAlloc_of_first h.inv hn0 hf
      obtain ⟨i', k, ha, hptr, hle⟩ := hample.buddyAlloc (by rw [hcall]; exact haddr)
      rw [hcall] at ha hptr
      -- the block of the pointer is the one page that was granted
      have hregion := h.region.congr hg.toSameRegion
      have hi := idxToAddr_inj hregion.inside hg.allocBlock.index_lt ha.index_lt
        (hg.toSameRegion.idxToAddr.trans hptr)
      subst hi
      obtain ⟨-, rfl⟩ := ha.unique hg.allocBlock (self_mem_block _ _) (self_mem_block _ _)
      rw [requestOrder_of_wrap hn hwrap] at hle
      unfold pageSize at hle hwrap
      omega
    · intro hnull
      have hret : (s.heap.buddy.buddyAlloc n).2 = 0 := by
        by_cases hfound : ∃ i, s.heap.buddy.First (requestOrder n) i
        · obtain ⟨i, hf⟩ := hfound
          obtain ⟨b, hcall, -⟩ := buddyAlloc_of_first h.inv hn0 hf
          rw [hcall]
          rw [requestOrder_of_wrap hn hwrap] at hf
          exact hnull i hf
        · rw [buddyAlloc_of_not_first (not_exists.mp hfound)]
      refine ⟨fun hne => absurd hret hne, fun hne => absurd ?_ hne⟩
      rw [Heap.kmalloc, if_neg hn0, hp]
      unfold Heap.kmallocLarge
      dsimp only
      rw [if_pos hret]

end HeapClient

/-- **A request is served with at least as many bytes as it asks for** in every state of every run,
exactly when rounding it up to pages does not wrap, or the page allocator has no block for it but
one at address `0`. -/
theorem ample_iff (fa : ℕ → ℤ) {base size : ℕ} (hbase : pageSize ∣ base)
    (hend : base + size ≤ 2 ^ 64) (table : List (ℕ × ℕ)) (pools : ℕ → Pool) (ppi : ℕ → ℤ)
    (mem : ℕ → ℕ) {m : MemClient}
    (hm : Reachable MemClient.step anyStep (bootMem fa base size table pools ppi mem) m) {n : ℕ}
    (hn : n < 2 ^ 64) :
    m.client.heap.Ample n ↔ n + pageSize - 1 < 2 ^ 64 ∨
      ∀ i, m.client.heap.buddy.First 0 i → m.client.heap.buddy.idxToAddr i = 0 := by
  obtain ⟨fl, hc⟩ := (hm.invariant (P := MemClient.Ok base size _)
    (MemClient.ok_bootMem fa hbase hend table pools ppi mem)
    fun _ _ _ h _ hstep => h.step hstep).heap
  exact hc.ample_kmalloc_iff hn

/-- A request for five pages. -/
theorem ample_of_boot :
    (bootMem (fun _ => 0) 0x80000000 0x100000 [(0x80000000, 0x80021000)] (fun _ => ⟨0, 0⟩)
      (fun _ => 0) fun _ => 0).client.heap.Ample 20000 :=
  (ample_iff (fun _ => 0) (by decide) (by decide) _ _ _ _ (Reachable.refl _) (by decide)).mpr
    (Or.inl (by decide))

/-- **A request for `2 ^ 64 - 1` bytes is served with one page.** -/
theorem short_of_wrap :
    let h := (bootMem (fun _ => 0) 0x80000000 0x2000 [] (fun _ => ⟨0, 0⟩) (fun _ => 0)
      fun _ => 0).client.heap
    (∃ b, h.buddy.buddyAlloc (2 ^ 64 - 1) = (b, 0x80000000) ∧ b.AllocBlock 0 0) ∧
      ¬ h.Ample (2 ^ 64 - 1) := by
  intro h
  have hempty : h.buddy.freeList 0 = [] := by decide +kernel
  have hpair : h.buddy.freeList 1 = [0] := by decide +kernel
  have hf : h.buddy.First 0 0 := by
    refine ⟨1, by decide, by decide, fun l _ hl => ?_, by rw [hpair]; rfl⟩
    obtain rfl : l = 0 := by omega
    exact hempty
  have haddr : h.buddy.idxToAddr 0 = 0x80000000 := by decide +kernel
  have hc := ok_bootHeap (fun _ => 0) (show pageSize ∣ 0x80000000 by decide)
    (show 0x80000000 + 0x2000 ≤ 2 ^ 64 by decide) [] (fun _ => ⟨0, 0⟩) (fun _ => 0) fun _ => 0
  have horder : requestOrder (2 ^ 64 - 1) = 0 :=
    HeapClient.requestOrder_of_wrap (by decide) (by decide)
  obtain ⟨b, hcall, -, hg⟩ := buddyAlloc_of_first hc.inv (by decide) (horder ▸ hf)
  refine ⟨⟨b, haddr ▸ hcall, horder ▸ hg.allocBlock⟩, fun hample => ?_⟩
  rcases (hc.ample_kmalloc_iff (by decide)).mp hample with hround | hnull
  · exact absurd hround (by decide)
  · exact absurd (haddr.symm.trans (hnull 0 hf)) (by decide)

end OscKernel
