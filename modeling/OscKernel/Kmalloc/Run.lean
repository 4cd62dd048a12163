import OscKernel.Kmalloc.Operations
import OscKernel.Buddy.Run

/-!
# Runs of the heap

A run is any sequence of `kmalloc`s of any size, `kfree`s of held pointers, and writes of holders
into what they hold; each call is executed atomically.

* `Ok.step`: every call keeps the ledger, changes a free list only at its head, and writes into no
  chunk that nobody holds, except the one it frees or slices.
* `contract_of_reachable`: the ledger gives the contract of the heap in every reachable state.

## Why writes are calls

The links of the free lists lie in the chunks.  A holder may write anything into its chunk at any
time, and the list is intact only because no held chunk is on it.  A model in which the lists were
kept elsewhere would not show this, and so the memory is part of the state and writing to it is a
call.  The bytes of a chunk that the caller did not ask for are its own as well: the capacity of a
grant is that of its chunk or block.

## The contract

`HeapContract` is about the heap itself, without the ledger: chains in memory, free blocks, reserved
frames and the table of the pages.  `kfree` is told nothing but a pointer, and reads in the table
where it came from; that it always goes back there is part of the contract, and so is that the
chunks held and those on the list of a pool are together those of its pages, each once.
-/

namespace OscKernel

open DyadicBlock Buddy Transition

namespace HeapClient

variable {s s' : HeapClient} {fl out : ℕ → List ℕ} {i j c pg : ℕ} {g : Grant}

/-- A call of the heap, or a write of a holder. -/
inductive Call where
  | kmalloc (size : ℕ)
  | kfree (g : Grant)
  | write (g : Grant) (addr value : ℕ)

/-- The pool that a request is served from. -/
def Call.pool : Call → Option ℕ
  | .kmalloc size => if size = 0 then none else findPool size
  | _ => none

/-- The page that a request to pool `i` slices. -/
def newPages (h : Heap) (i : ℕ) : List (ℕ × ℕ) :=
  if (h.pools i).freeList = 0 ∧ (h.refill i).2 ≠ 0 then [(h.addrToPageIdx (h.refill i).2, i)]
  else []

/-- `sliced` after a request. -/
def slice (s : HeapClient) (size : ℕ) : List (ℕ × ℕ) :=
  if size = 0 then s.sliced
  else
    match findPool size with
    | some i => newPages s.heap i ++ s.sliced
    | none => s.sliced

/-- One call.  A `NULL` result gives nothing to hold; only what is held can be freed or written. -/
def step (s : HeapClient) : Call → Option HeapClient
  | .kmalloc size =>
      let r := s.heap.kmalloc size
      some ⟨r.1, hold s.live r.2 size, s.slice size⟩
  | .kfree g =>
      if g ∈ s.live then some { s with heap := s.heap.kfree g.ptr, live := s.live.erase g }
      else none
  | .write g addr value =>
      if g ∈ s.live ∧ g.ptr ≤ addr ∧ addr < g.ptr + capacityBytes g.size then
        some (s.setHeap (s.heap.setNext addr value))
      else none

/-! ## What one call does to the lists -/

/-- What a call did to the free lists and to the chunks that nobody holds. -/
structure Moves (c : Call) (fl fl' out : ℕ → List ℕ) (s s' : HeapClient) : Prop where
  /-- The links of chunks that nobody held are as before. -/
  frame : ∀ j < numPools, ∀ x ∈ fl j ++ out j, s'.heap.mem x = s.heap.mem x
  /-- A list is as before, or lost its head to the call, or was empty and was refilled for the
  call, or has a new head. -/
  lists : ∀ j < numPools, fl' j = fl j ∨
    (c.pool = some j ∧ (fl j = [] ∨ ∃ x, fl j = x :: fl' j)) ∨ ∃ x, fl' j = x :: fl j

theorem Moves.refl {c : Call} (hmem : s'.heap.mem = s.heap.mem) : Moves c fl fl out s s' :=
  ⟨fun _ _ _ _ => by rw [hmem], fun _ _ => Or.inl rfl⟩

namespace Ok

/-- A list that is not empty loses its head. -/
theorem popChunk (h : s.Ok fl out) {size : ℕ} (hp : findPool size = some i)
    (hne : (s.heap.pools i).freeList ≠ 0) :
    ∃ x rest, fl i = x :: rest ∧ ({ s with
      heap := (s.heap.popChunk i).1
      live := hold s.live (s.heap.popChunk i).2 size } : HeapClient).Ok
        (Function.update fl i rest) out := by
  obtain ⟨rest, hfl, -⟩ := (h.chain i (findPool_some hp).1).exists_cons hne
  obtain ⟨hhead, hx, hok⟩ := h.pop hp hfl
  refine ⟨_, rest, hfl, ?_⟩
  unfold Heap.popChunk
  rw [hold_of_ne hx]
  exact hok

/-- A refill that fails changes nothing in the ledger. -/
theorem refill_null (h : s.Ok fl out) (hpage : (s.heap.refill i).2 = 0) :
    (s.setHeap (s.heap.refill i).1).Ok fl out ∧ (s.heap.refill i).1.mem = s.heap.mem := by
  rcases buddyAlloc_cases h.inv pageSize with hnull | ⟨idx, b, hcall, hinv, hg⟩
  · rw [Heap.refill_of_null hnull]
    exact ⟨h, rfl⟩
  · by_cases haddr : s.heap.buddy.idxToAddr idx = 0
    · rw [haddr] at hcall
      rw [Heap.refill_of_null hcall]
      exact ⟨h.grant hinv hg, rfl⟩
    · rw [Heap.refill_of_page hcall haddr] at hpage
      exact absurd hpage haddr

/-- A refill that succeeds puts the chunks of a new page onto the list that was empty. -/
theorem refill (h : s.Ok fl out) (hi : i < numPools) (hempty : (s.heap.pools i).freeList = 0)
    (hpage : (s.heap.refill i).2 ≠ 0) :
    ∃ l, fl i = [] ∧ ((s.heap.refill i).1.pools i).freeList ≠ 0 ∧
      ({ s with
        heap := (s.heap.refill i).1
        sliced := (s.heap.addrToPageIdx (s.heap.refill i).2, i) :: s.sliced } : HeapClient).Ok
          (Function.update fl i l) out ∧
      ∀ j < numPools, ∀ x ∈ fl j ++ out j, (s.heap.refill i).1.mem x = s.heap.mem x := by
  rcases buddyAlloc_cases h.inv pageSize with hnull | ⟨idx, b, hcall, hinv, hg⟩
  · rw [Heap.refill_of_null hnull] at hpage
    exact absurd rfl hpage
  rw [requestOrder_pageSize] at hg
  by_cases haddr : s.heap.buddy.idxToAddr idx = 0
  · rw [haddr] at hcall
    rw [Heap.refill_of_null hcall] at hpage
    exact absurd rfl hpage
  have hback : s.heap.addrToPageIdx (s.heap.buddy.idxToAddr idx) = idx :=
    addrToIdx_idxToAddr h.region.inside hg.index_lt
  have haddrEq : b.idxToAddr idx = s.heap.buddy.idxToAddr idx := hg.toSameRegion.idxToAddr
  have hnil : fl i = [] := (hempty ▸ h.chain i hi).eq_nil
  have hslice := (h.acquire hi hinv hg haddr).sliceInto hi (p := idx) (l := out i) (by
    rw [Function.update_self]
    simp only [pageChunks, Heap.enterPage, haddrEq]) le_rfl
  rw [List.drop_of_length_le (length_pageChunks _ i idx).le, List.nil_append,
    Function.update_idem, Function.update_eq_self, hnil, List.append_nil] at hslice
  rw [Heap.refill_of_page hcall haddr, hback, h.sizes i hi]
  dsimp only [Heap.enterPage, setHeap] at hslice ⊢
  rw [haddrEq] at hslice
  refine ⟨_, hnil, fun hnull => ?_, hslice, fun j hj x hx => ?_⟩
  · -- the new list is a chain of as many nodes as the page has chunks
    have hchain := hslice.chain i hi
    rw [hnull] at hchain
    have hlen := congrArg List.length hchain.eq_nil
    rw [Function.update_self, List.length_reverse, List.length_take, length_pageChunks,
      Nat.min_self] at hlen
    exact pageSize_div_chunkBytes_ne_zero i hi hlen
  · -- a chunk that existed before is in another page
    refine Heap.sliceChunks_mem fun k hk heq => ?_
    obtain ⟨pg, he, hc⟩ := mem_poolChunks.mp (h.unheld_mem hj hx)
    have hoff : k * chunkBytes i < pageSize := by
      rw [← mul_chunkBytes hi]
      exact Nat.mul_lt_mul_of_pos_right hk (chunkBytes_pos i hi)
    have hpg := h.page_of_chunk he hc
    rw [heq, h.region.pageDown_add hg.index_lt hoff, hback] at hpg
    exact h.grant_fresh hg he (hpg ▸ self_mem_block _ _)

/-- The small path keeps the ledger. -/
theorem kmallocSmall (h : s.Ok fl out) {size : ℕ} (hp : findPool size = some i) :
    ∃ fl', ({ s with
      heap := (s.heap.kmallocSmall i).1
      live := hold s.live (s.heap.kmallocSmall i).2 size
      sliced := newPages s.heap i ++ s.sliced } : HeapClient).Ok fl' out ∧
      (∀ j < numPools, ∀ x ∈ fl j ++ out j, (s.heap.kmallocSmall i).1.mem x = s.heap.mem x) ∧
      ((fl i = [] ∨ ∃ x, fl i = x :: fl' i) ∨ fl' i = fl i) ∧ ∀ j ≠ i, fl' j = fl j := by
  unfold Heap.kmallocSmall newPages
  by_cases hempty : (s.heap.pools i).freeList = 0
  · by_cases hpage : (s.heap.refill i).2 = 0
    · obtain ⟨hok, hmem⟩ := h.refill_null hpage
      simp only [hempty, hpage, if_pos, ne_eq, not_true, and_false, if_false, hold_null]
      exact ⟨fl, hok, fun _ _ x _ => congrFun hmem x, Or.inr rfl, fun _ _ => rfl⟩
    · obtain ⟨l, hnil, hne, hok, hmem⟩ := h.refill (findPool_some hp).1 hempty hpage
      obtain ⟨x, rest, -, hok'⟩ := hok.popChunk hp hne
      simp only [hempty, hpage, if_pos, ne_eq, not_false_eq_true, and_true, if_false]
      rw [Function.update_idem] at hok'
      exact ⟨_, hok', hmem, Or.inl (Or.inl hnil), fun j hj => Function.update_of_ne hj ..⟩
  · obtain ⟨x, rest, hfl, hok⟩ := h.popChunk hp hempty
    simp only [hempty, false_and, if_false]
    refine ⟨_, hok, fun _ _ _ _ => rfl, Or.inl (Or.inr ⟨x, ?_⟩),
      fun j hj => Function.update_of_ne hj ..⟩
    rw [Function.update_self]
    exact hfl

/-- `kmalloc` keeps the ledger. -/
theorem kmalloc (h : s.Ok fl out) (size : ℕ) (hs : s.step (.kmalloc size) = some s') :
    ∃ fl', s'.Ok fl' out ∧ Moves (.kmalloc size) fl fl' out s s' := by
  rw [HeapClient.step, Option.some_inj] at hs
  subst hs
  unfold Heap.kmalloc slice
  by_cases h0 : size = 0
  · simp only [h0, if_pos, hold_null]
    exact ⟨fl, h, Moves.refl rfl⟩
  · simp only [if_neg h0]
    cases hp : findPool size with
    | none =>
      refine ⟨fl, h.kmallocLarge hp, Moves.refl ?_⟩
      unfold Heap.kmallocLarge
      dsimp only
      split_ifs <;> rfl
    | some i =>
      obtain ⟨fl', hok, hmem, hself, hother⟩ := h.kmallocSmall hp
      refine ⟨fl', hok, hmem, fun j hj => ?_⟩
      by_cases hji : j = i
      · subst hji
        rcases hself with hself | hsame
        · exact Or.inr (Or.inl ⟨(if_neg h0).trans hp, hself⟩)
        · exact Or.inl hsame
      · exact Or.inl (hother j hji)

/-- `kfree` of a held pointer keeps the ledger. -/
theorem kfree (h : s.Ok fl out) (g : Grant) (hs : s.step (.kfree g) = some s') :
    ∃ fl', s'.Ok fl' out ∧ Moves (.kfree g) fl fl' out s s' := by
  rw [HeapClient.step] at hs
  split_ifs at hs with hg
  rw [Option.some_inj] at hs
  subst hs
  cases hp : findPool g.size with
  | some i =>
    refine ⟨_, h.kfree_chunk hg hp, fun j hj x hx => ?_, fun j _ => ?_⟩
    · rw [h.kfree_eq_push hg hp]
      exact Function.update_of_ne (h.unheld_not_live hj hx hg).symm ..
    · by_cases hji : j = i
      · subst hji
        exact Or.inr (Or.inr ⟨g.ptr, Function.update_self ..⟩)
      · exact Or.inl (Function.update_of_ne hji ..)
  | none =>
    refine ⟨_, h.kfree_large hg hp, Moves.refl ?_⟩
    rw [h.kfree_eq_buddyFree hg hp]

/-- **One call.**  Every call keeps the ledger. -/
theorem step {c : Call} (h : s.Ok fl out) (hs : s.step c = some s') :
    ∃ fl', s'.Ok fl' out ∧ Moves c fl fl' out s s' := by
  cases c with
  | kmalloc size => exact h.kmalloc size hs
  | kfree g => exact h.kfree g hs
  | write g addr value =>
    rw [HeapClient.step] at hs
    split_ifs at hs with hg
    rw [Option.some_inj] at hs
    subst hs
    refine ⟨fl, h.write hg.1 ⟨hg.2.1, hg.2.2⟩, fun j hj x hx => ?_, fun _ _ => Or.inl rfl⟩
    refine Function.update_of_ne (fun heq => ?_) ..
    refine Set.disjoint_left.mp (h.capacity_unheld hg.1 hj hx) ⟨hg.2.1, hg.2.2⟩ ?_
    exact heq ▸ ⟨le_rfl, Nat.lt_add_of_pos_right (chunkBytes_pos j hj)⟩

end Ok
end HeapClient

/-! ## The contract -/

open HeapClient

/-- The heap as boot leaves it: `buddy_init`, the reservations, `buddy_build_free_lists` and
`kmalloc_init`.  `fa`, `pools`, `table` and `mem` are what the memory held before. -/
def bootHeap (fa : ℕ → ℤ) (base size : ℕ) (reserves : List (ℕ × ℕ)) (pools : ℕ → Pool)
    (table : ℕ → ℤ) (mem : ℕ → ℕ) : HeapClient where
  heap := (Heap.mk (reservedBuddy fa base size reserves).buddyBuildFreeLists pools table
    mem).kmallocInit (size / pageSize)
  live := []
  sliced := []

/-- **The contract of the heap.** -/
structure HeapContract (s : HeapClient) : Prop where
  /-- What holders may use is disjoint from what other holders may use, from the chunks on the free
  lists, from the free blocks of the buddy allocator and from the reserved pages. -/
  live_live : s.live.Pairwise fun g g' => Disjoint (capacity g) (capacity g')
  live_chunk : ∀ g ∈ s.live, ∀ i < numPools, ∀ l,
    Chain s.heap.mem 0 (s.heap.pools i).freeList l →
      ∀ c ∈ l, Disjoint (capacity g) (Set.Ico c (c + (s.heap.pools i).chunkSize))
  live_free : ∀ g ∈ s.live, ∀ i k, s.heap.buddy.FreeBlock i k →
    Disjoint (capacity g) (s.heap.buddy.blockBytes i k)
  live_reserved : ∀ g ∈ s.live, ∀ j < s.heap.buddy.gTotalPages,
    s.heap.buddy.frameArray j = frameReserved →
      Disjoint (capacity g) (s.heap.buddy.blockBytes j 0)
  /-- The table says which pages were sliced, and for which pool. -/
  table : ∀ pg < s.heap.buddy.gTotalPages, ∀ i : ℕ,
    s.heap.pagePoolIdx pg = i ↔ (pg, i) ∈ s.sliced
  /-- `kfree` gives a pointer back to where it came from. -/
  kfree_pool : ∀ g ∈ s.live, ∀ i, findPool g.size = some i →
    s.heap.kfree g.ptr =
      (s.heap.setNext g.ptr (s.heap.pools i).freeList).setFreeList i g.ptr
  kfree_large : ∀ g ∈ s.live, findPool g.size = none →
    s.heap.kfree g.ptr = { s.heap with buddy := s.heap.buddy.buddyFree g.ptr } ∧
      ∃ i, s.heap.buddy.AllocBlock i (requestOrder g.size) ∧ g.ptr = s.heap.buddy.idxToAddr i
  /-- No chunk is lost and none is duplicated. -/
  chunks : ∀ i < numPools, (s.heap.pools i).chunkSize = chunkBytes i ∧
    ∃ l, Chain s.heap.mem 0 (s.heap.pools i).freeList l ∧
      (s.liveChunks i ++ l).Perm (s.poolChunks i) ∧ (s.poolChunks i).Nodup

/-- The ledger gives the contract. -/
theorem HeapClient.Ok.contract {s : HeapClient} {fl : ℕ → List ℕ}
    (h : s.Ok fl fun _ => []) :
    HeapContract s := by
  have hblock : ∀ {g i k}, g ∈ s.live → i + 2 ^ k ≤ s.heap.buddy.gTotalPages →
      (∀ a k', s.heap.buddy.AllocBlock a k' → Disjoint (block a k') (block i k)) →
      Disjoint (capacity g) (s.heap.buddy.blockBytes i k) := by
    intro g i k hg hin hd
    obtain ⟨a, k', ha, hsub, -⟩ := h.capacity_block hg
    exact (h.region.blockBytes_disjoint ha.inside hin (hd a k' ha)).mono_left hsub
  refine ⟨?live_live, fun g hg i hi l hl c hc => ?live_chunk, fun g hg i k hf => ?live_free,
    fun g hg j hj hr => ?live_reserved, fun pg hpg i => ?table,
    fun g hg i hp => h.kfree_eq_push hg hp,
    fun g hg hp => ⟨h.kfree_eq_buddyFree hg hp, ?kfree_large⟩, fun i hi => ?chunks⟩
  case live_live =>
    exact (List.pairwise_map.mp h.ptr_nodup).imp_of_mem
      fun hg hg' hne => h.capacity_disjoint hg hg' hne
  case live_chunk =>
    rw [h.sizes i hi]
    exact h.capacity_unheld hg hi (List.mem_append_left _ (hl.unique (h.chain i hi) ▸ hc))
  case live_free =>
    exact hblock hg (h.inv.inside hf) fun a k' ha => (h.inv.free_alloc_disjoint hf ha).symm
  case live_reserved =>
    refine hblock hg hj fun a k' ha => Set.disjoint_left.mpr fun x hx hx' => ?_
    obtain rfl : x = j := by
      rw [mem_block] at hx'
      omega
    exact ha.ne_reserved hx hr
  case table =>
    constructor
    · intro heq
      by_cases hmem : pg ∈ s.sliced.map Prod.fst
      · obtain ⟨e, he, rfl⟩ := List.mem_map.mp hmem
        rw [h.table_sliced e he, Int.natCast_inj] at heq
        exact heq ▸ he
      · rw [h.table_other pg hpg hmem] at heq
        omega
    · exact fun he => h.table_sliced _ he
  case kfree_large =>
    obtain ⟨-, i, ha, hptr, -⟩ := h.large g hg hp
    exact ⟨i, ha, hptr⟩
  case chunks =>
    refine ⟨h.sizes i hi, fl i, h.chain i hi, ?_, h.poolChunks_nodup hi⟩
    have hperm := h.chunks i hi
    rwa [List.append_nil] at hperm

/-- The ledger is empty after boot. -/
theorem ok_bootHeap (fa : ℕ → ℤ) {base size : ℕ} (hbase : pageSize ∣ base)
    (hend : base + size ≤ 2 ^ 64) (reserves : List (ℕ × ℕ)) (pools : ℕ → Pool)
    (table : ℕ → ℤ) (mem : ℕ → ℕ) :
    (bootHeap fa base size reserves pools table mem).Ok (fun _ => []) fun _ => [] := by
  have h := unbuilt_reservedBuddy fa base size reserves
  obtain ⟨hinv, hsame⟩ := h.built
  have hpages := hsame.pages.trans h.pages_eq
  have hpool : ∀ i < numPools,
      (bootHeap fa base size reserves pools table mem).heap.pools i = ⟨poolSizes.getD i 0, 0⟩ :=
    fun i hi => if_pos hi
  refine ⟨hinv, ⟨?inside, ?aligned⟩, fun i hi => ?sizes, fun i hi => ?chain, List.nodup_nil,
    fun e he => ?sliced_page, fun e he => ?table_sliced, fun pg hpg _ => ?table_other,
    fun i _ => List.Perm.refl _, fun g hg => ?large, List.nodup_nil⟩
  case inside =>
    change Buddy.gBuddyBase (buddyBuildFreeLists _) + Buddy.gTotalPages (buddyBuildFreeLists _) *
      pageSize ≤ 2 ^ 64
    rw [hpages, hsame.base, h.base_eq]
    have := Nat.div_mul_le_self size pageSize
    omega
  case aligned =>
    change pageSize ∣ Buddy.gBuddyBase (buddyBuildFreeLists _)
    rw [hsame.base, h.base_eq]
    exact hbase
  case sizes =>
    rw [hpool i hi]
    rfl
  case chain =>
    rw [hpool i hi]
    rfl
  case sliced_page => exact absurd he List.not_mem_nil
  case table_sliced => exact absurd he List.not_mem_nil
  case table_other =>
    refine if_pos ⟨Nat.zero_le pg, ?_⟩
    rw [Nat.zero_add, ← hpages]
    exact hpg
  case large => exact absurd hg List.not_mem_nil

/-- **The heap over whole runs.**  After every run of requests, frees of held pointers and writes
of holders, from a heap on a page-aligned region, the heap keeps its contract.  Requests are of any
size and may fail, and what the memory, the pools and the table held before boot is arbitrary. -/
theorem contract_of_reachable (fa : ℕ → ℤ) {base size : ℕ} (hbase : pageSize ∣ base)
    (hend : base + size ≤ 2 ^ 64) (reserves : List (ℕ × ℕ)) (pools : ℕ → Pool)
    (table : ℕ → ℤ) (mem : ℕ → ℕ) {s : HeapClient}
    (hs : Reachable HeapClient.step anyStep (bootHeap fa base size reserves pools table mem) s) :
    HeapContract s := by
  obtain ⟨fl, hok⟩ := hs.invariant (P := fun s => ∃ fl, s.Ok fl fun _ => [])
    ⟨_, ok_bootHeap fa hbase hend reserves pools table mem⟩ fun s c s' ⟨fl, h⟩ _ hstep =>
      (h.step hstep).imp fun _ h' => h'.1
  exact hok.contract

/-- Two chunks of the 64-byte pool and a block of two pages, in a gigabyte at `0x80000000`. -/
theorem contract_of_three_requests :
    ∃ s, runList HeapClient.step
        (bootHeap (fun _ => 0) 0x80000000 0x40000000 [] (fun _ => ⟨0, 0⟩) (fun _ => 0) fun _ => 0)
        [.kmalloc 64, .kmalloc 5000, .kmalloc 40] = some s ∧ HeapContract s := by
  obtain ⟨s, hs⟩ := Option.isSome_iff_exists.mp (show (runList HeapClient.step
    (bootHeap (fun _ => 0) 0x80000000 0x40000000 [] (fun _ => ⟨0, 0⟩) (fun _ => 0) fun _ => 0)
    [.kmalloc 64, .kmalloc 5000, .kmalloc 40]).isSome = true from rfl)
  exact ⟨s, hs, contract_of_reachable _ (by decide) (by decide) _ _ _ _ (reachable_of_runList hs)⟩

end OscKernel
