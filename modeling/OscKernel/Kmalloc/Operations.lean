import OscKernel.Kmalloc.Invariant

/-!
# What the heap operations do to the ledger

An operation of the heap is a sequence of small moves in the ledger, each with one lemma.

* `Ok.link`: the `next` word of a chunk that is outside is written.
* `Ok.relist`: the head of a free list is written.
* `Ok.take`, `Ok.give`: a chunk passes from outside to a holder, and back.
* `Ok.acquire`: a page is granted, entered into the table, and its chunks are outside.
* `Ok.kmallocLarge`, `Ok.kfree_large`: a block passes from the buddy allocator to a holder and back.

The calls themselves are assembled from these in `OscKernel.Kmalloc.Run`.
-/

namespace OscKernel

open DyadicBlock Buddy

namespace Heap

variable {h : Heap} {i j head : ℕ}

@[simp] theorem setFreeList_freeList : ((h.setFreeList i head).pools i).freeList = head := by
  unfold setFreeList
  dsimp only
  rw [Function.update_self]

theorem setFreeList_of_ne (hne : j ≠ i) : (h.setFreeList i head).pools j = h.pools j :=
  Function.update_of_ne hne ..

@[simp] theorem setFreeList_chunkSize :
    ((h.setFreeList i head).pools j).chunkSize = (h.pools j).chunkSize := by
  by_cases hj : j = i
  · subst hj
    unfold setFreeList
    dsimp only
    rw [Function.update_self]
  · rw [setFreeList_of_ne hj]

/-- Of two writes of one head the second remains. -/
theorem setFreeList_setFreeList {head' : ℕ} :
    (h.setFreeList i head).setFreeList i head' = h.setFreeList i head' := by
  unfold setFreeList
  dsimp only
  rw [Function.update_idem, Function.update_self]

/-- `node->next = v`. -/
def setNext (h : Heap) (node v : ℕ) : Heap := { h with mem := Function.update h.mem node v }

/-- The page of a refill is entered into the table. -/
def enterPage (h : Heap) (b : Buddy) (pg i : ℕ) : Heap :=
  { h with buddy := b, pagePoolIdx := Function.update h.pagePoolIdx pg i }

/-- Slicing writes only into the chunks. -/
theorem sliceChunks_mem {page sz n x : ℕ} {s : ℕ × (ℕ → ℕ)} (hx : ∀ k < n, x ≠ page + k * sz) :
    (sliceChunks page sz n s).2 x = s.2 x := by
  induction n with
  | zero => rfl
  | succ n ih =>
    rw [sliceChunks]
    dsimp only
    rw [Function.update_of_ne (hx n (Nat.lt_succ_self n))]
    exact ih fun k hk => hx k (hk.trans (Nat.lt_succ_self n))

/-- The heap after `n` rounds of the slicing loop. -/
def sliceInto (h : Heap) (i page sz n : ℕ) : Heap :=
  let s := sliceChunks page sz n ((h.pools i).freeList, h.mem)
  { h with mem := s.2 }.setFreeList i s.1

theorem sliceInto_zero {page sz : ℕ} : h.sliceInto i page sz 0 = h := by
  unfold sliceInto setFreeList sliceChunks
  dsimp only
  rw [Function.update_eq_self]

/-- One round writes `next` of the node and then the head. -/
theorem sliceInto_succ {page sz n : ℕ} :
    h.sliceInto i page sz (n + 1) =
      ((h.sliceInto i page sz n).setNext (page + n * sz)
        ((h.sliceInto i page sz n).pools i).freeList).setFreeList i (page + n * sz) := by
  unfold sliceInto
  rw [setFreeList_freeList, sliceChunks]
  exact setFreeList_setFreeList.symm

/-- Without a page the pool stays as it is. -/
theorem refill_of_null {b : Buddy} (hcall : h.buddy.buddyAlloc pageSize = (b, 0)) :
    h.refill i = ({ h with buddy := b }, 0) := by
  unfold refill
  rw [hcall]
  exact if_pos rfl

/-- A page is entered into the table and sliced. -/
theorem refill_of_page {b : Buddy} {page : ℕ} (hcall : h.buddy.buddyAlloc pageSize = (b, page))
    (hpage : page ≠ 0) :
    let sz := (h.pools i).chunkSize
    h.refill i =
      ((h.enterPage b (h.addrToPageIdx page) i).sliceInto i page sz (pageSize / sz), page) := by
  unfold refill
  rw [hcall]
  exact if_neg hpage

end Heap

namespace HeapClient

variable {s s' : HeapClient} {fl out : ℕ → List ℕ} {i j c pg : ℕ} {g g' : Grant}

/-- What is held after a request: the result, unless it is `NULL`. -/
def hold (live : List Grant) (result size : ℕ) : List Grant :=
  if result = 0 then live else ⟨result, size⟩ :: live

theorem hold_null (live : List Grant) (size : ℕ) : hold live 0 size = live := if_pos rfl

theorem hold_of_ne {live : List Grant} {result size : ℕ} (h : result ≠ 0) :
    hold live result size = ⟨result, size⟩ :: live := if_neg h

/-- The client after its heap changed. -/
def setHeap (s : HeapClient) (h : Heap) : HeapClient := { s with heap := h }

/-! ## The columns of the ledger -/

theorem length_pageChunks (s : HeapClient) (i pg : ℕ) :
    (s.pageChunks i pg).length = pageSize / chunkBytes i := by
  unfold pageChunks
  rw [List.length_map, List.length_range]

theorem getElem_pageChunks {n : ℕ} (hn : n < (s.pageChunks i pg).length) :
    (s.pageChunks i pg)[n] = s.heap.buddy.idxToAddr pg + n * chunkBytes i := by
  simp only [pageChunks, List.getElem_map, List.getElem_range]

theorem poolChunks_congr (hsl : s'.sliced = s.sliced)
    (haddr : ∀ idx, s'.heap.buddy.idxToAddr idx = s.heap.buddy.idxToAddr idx) :
    s'.poolChunks i = s.poolChunks i := by
  unfold poolChunks poolPages pageChunks
  simp only [hsl, haddr]

theorem poolChunks_cons_self (hsl : s'.sliced = (pg, i) :: s.sliced)
    (haddr : ∀ idx, s'.heap.buddy.idxToAddr idx = s.heap.buddy.idxToAddr idx) :
    s'.poolChunks i = s.pageChunks i pg ++ s.poolChunks i := by
  unfold poolChunks poolPages pageChunks
  rw [hsl, List.filter_cons_of_pos (by simp), List.map_cons, List.flatMap_cons]
  simp only [haddr]

theorem poolChunks_cons_of_ne (hsl : s'.sliced = (pg, i) :: s.sliced) (hj : j ≠ i)
    (haddr : ∀ idx, s'.heap.buddy.idxToAddr idx = s.heap.buddy.idxToAddr idx) :
    s'.poolChunks j = s.poolChunks j := by
  unfold poolChunks poolPages pageChunks
  rw [hsl, List.filter_cons_of_neg (by simpa using hj.symm)]
  simp only [haddr]

theorem liveChunks_cons_self (hp : findPool g.size = some i) (heq : s'.live = g :: s.live) :
    s'.liveChunks i = g.ptr :: s.liveChunks i := by
  unfold liveChunks
  rw [heq, List.filter_cons_of_pos (by simpa using hp), List.map_cons]

theorem liveChunks_cons_of_ne (hp : findPool g.size ≠ some i) (heq : s'.live = g :: s.live) :
    s'.liveChunks i = s.liveChunks i := by
  unfold liveChunks
  rw [heq, List.filter_cons_of_neg (by simpa using hp)]

theorem liveChunks_erase_self (hg : g ∈ s.live) (hp : findPool g.size = some i)
    (heq : s'.live = s.live.erase g) : (s.liveChunks i).Perm (g.ptr :: s'.liveChunks i) := by
  have hperm := ((List.perm_cons_erase hg).filter fun g => findPool g.size = some i).map Grant.ptr
  rw [List.filter_cons_of_pos (by simpa using hp), List.map_cons] at hperm
  unfold liveChunks
  rw [heq]
  exact hperm

theorem liveChunks_erase_of_ne (hg : g ∈ s.live) (hp : findPool g.size ≠ some i)
    (heq : s'.live = s.live.erase g) : (s.liveChunks i).Perm (s'.liveChunks i) := by
  have hperm := ((List.perm_cons_erase hg).filter fun g => findPool g.size = some i).map Grant.ptr
  rw [List.filter_cons_of_neg (by simpa using hp)] at hperm
  unfold liveChunks
  rw [heq]
  exact hperm

theorem ne_of_findPool {size : ℕ} (hp : findPool size = some i) (hji : j ≠ i) :
    findPool size ≠ some j := by
  rw [hp]
  exact fun heq => hji (Option.some_inj.mp heq).symm

namespace Ok

/-! ## What the ledger says about pointers -/

/-- A chunk that is outside is on no free list. -/
theorem out_notMem_free (h : s.Ok fl out) (hi : i < numPools) (hj : j < numPools)
    (hc : c ∈ out i) : c ∉ fl j := by
  intro hfree
  obtain rfl := h.poolChunks_disjoint (h.unheld_mem hi (List.mem_append_right _ hc))
    (h.unheld_mem hj (List.mem_append_left _ hfree))
  exact List.disjoint_of_nodup_append (List.nodup_append.mp (h.ledger_nodup hi)).2.1 hfree hc

theorem out_ne_zero (h : s.Ok fl out) (hi : i < numPools) (hc : c ∈ out i) : c ≠ 0 :=
  h.chunk_ne_zero (h.unheld_mem hi (List.mem_append_right _ hc))

theorem ptr_ne_zero (h : s.Ok fl out) (hg : g ∈ s.live) : g.ptr ≠ 0 := by
  cases hp : findPool g.size with
  | some i => exact h.chunk_ne_zero (h.live_mem hg hp)
  | none => exact (h.large g hg hp).1

theorem live_nodup (h : s.Ok fl out) : s.live.Nodup := h.ptr_nodup.of_map _

/-- Another holder does not hold the same pointer. -/
theorem ptr_ne_of_mem_erase (h : s.Ok fl out) (hg : g ∈ s.live) (hg' : g' ∈ s.live.erase g) :
    g'.ptr ≠ g.ptr := by
  obtain ⟨hne, hmem⟩ := h.live_nodup.mem_erase_iff.mp hg'
  exact fun heq => hne (List.inj_on_of_nodup_map h.ptr_nodup hmem hg heq)

/-- The pool that `kfree` reads from the table is the one the chunk came from. -/
theorem table_chunk (h : s.Ok fl out) (hg : g ∈ s.live) (hp : findPool g.size = some i) :
    s.heap.pagePoolIdx (s.heap.addrToPageIdx (pageDown g.ptr)) = i := by
  obtain ⟨pg, he, hc⟩ := mem_poolChunks.mp (h.live_mem hg hp)
  rw [h.page_of_chunk he hc]
  exact h.table_sliced _ he

/-- The table says of a large allocation that it came from the buddy allocator. -/
theorem table_large (h : s.Ok fl out) (hg : g ∈ s.live) (hp : findPool g.size = none) :
    s.heap.pagePoolIdx (s.heap.addrToPageIdx (pageDown g.ptr)) = -1 := by
  obtain ⟨-, idx, ha, hptr, hoff⟩ := h.large g hg hp
  rw [hptr, h.page_of_addr ha.index_lt]
  refine h.table_other idx ha.index_lt fun hmem => ?_
  obtain ⟨e, he, rfl⟩ := List.mem_map.mp hmem
  exact hoff e he (self_mem_block _ _)

/-- `kfree` of a held chunk pushes it onto the list of its pool. -/
theorem kfree_eq_push (h : s.Ok fl out) (hg : g ∈ s.live) (hp : findPool g.size = some i) :
    s.heap.kfree g.ptr =
      (s.heap.setNext g.ptr (s.heap.pools i).freeList).setFreeList i g.ptr := by
  unfold Heap.kfree
  rw [if_neg (h.ptr_ne_zero hg), h.table_chunk hg hp]
  dsimp only
  rw [if_neg (by omega), Int.toNat_natCast]
  rfl

/-- `kfree` of a large allocation gives it back to the buddy allocator. -/
theorem kfree_eq_buddyFree (h : s.Ok fl out) (hg : g ∈ s.live) (hp : findPool g.size = none) :
    s.heap.kfree g.ptr = { s.heap with buddy := s.heap.buddy.buddyFree g.ptr } := by
  unfold Heap.kfree
  rw [if_neg (h.ptr_ne_zero hg), h.table_large hg hp]
  exact if_pos (by decide)

/-! ## Moves of one chunk -/

/-- The `next` word of a chunk that is outside may be written. -/
theorem link (h : s.Ok fl out) (hi : i < numPools) (hc : c ∈ out i) (v : ℕ) :
    (s.setHeap (s.heap.setNext c v)).Ok fl out :=
  { h with chain := fun j hj => (h.chain j hj).update_of_notMem (h.out_notMem_free hi hj hc) }

/-- The head of a free list may be set to any chain of chunks that nobody holds. -/
theorem relist (h : s.Ok fl out) {head : ℕ} {l r : List ℕ}
    (hl : Chain s.heap.mem 0 head l) (hperm : (l ++ r).Perm (fl i ++ out i)) :
    (s.setHeap (s.heap.setFreeList i head)).Ok (Function.update fl i l)
      (Function.update out i r) := by
  refine { h with
    sizes := fun j hj => ?_
    chain := fun j hj => ?_
    chunks := fun j hj => ?_ }
  · exact Heap.setFreeList_chunkSize.trans (h.sizes j hj)
  · by_cases hji : j = i
    · subst hji
      rw [Function.update_self]
      exact Heap.setFreeList_freeList (h := s.heap) ▸ hl
    · rw [Function.update_of_ne hji]
      exact Heap.setFreeList_of_ne (h := s.heap) hji ▸ h.chain j hj
  · by_cases hji : j = i
    · subst hji
      rw [Function.update_self, Function.update_self]
      exact (hperm.append_left _).trans (h.chunks j hj)
    · rw [Function.update_of_ne hji, Function.update_of_ne hji]
      exact h.chunks j hj

/-- A chunk that is outside passes to a holder. -/
theorem take (h : s.Ok fl out) {size : ℕ} (hp : findPool size = some i) (hc : c ∈ out i) :
    ({ s with live := ⟨c, size⟩ :: s.live } : HeapClient).Ok fl
      (Function.update out i ((out i).erase c)) := by
  have hi := (findPool_some hp).1
  refine { h with
    chunks := fun j hj => ?_
    large := fun g hg hpn => ?_
    ptr_nodup := ?_ }
  · refine List.Perm.trans ?_ (h.chunks j hj)
    by_cases hji : j = i
    · subst hji
      rw [Function.update_self, liveChunks_cons_self (s := s) (g := ⟨c, size⟩) hp rfl,
        List.cons_append]
      refine List.perm_middle.symm.trans (List.Perm.append_left _ ?_)
      exact List.perm_middle.symm.trans ((List.perm_cons_erase hc).symm.append_left _)
    · rw [Function.update_of_ne hji,
        liveChunks_cons_of_ne (s := s) (g := ⟨c, size⟩) (ne_of_findPool hp hji) rfl]
  · rcases List.mem_cons.mp hg with rfl | hg
    · rw [hp] at hpn
      exact absurd hpn (by simp)
    · exact h.large g hg hpn
  · rw [List.map_cons, List.nodup_cons]
    refine ⟨fun hmem => ?_, h.ptr_nodup⟩
    obtain ⟨g, hg, hgc⟩ := List.mem_map.mp hmem
    exact h.unheld_not_live hi (List.mem_append_right _ hc) hg hgc

/-- A held chunk passes outside. -/
theorem give (h : s.Ok fl out) (hg : g ∈ s.live) (hp : findPool g.size = some i) :
    ({ s with live := s.live.erase g } : HeapClient).Ok fl
      (Function.update out i (g.ptr :: out i)) := by
  refine { h with
    chunks := fun j hj => ?_
    large := fun g' hg' => h.large g' (List.mem_of_mem_erase hg')
    ptr_nodup := h.ptr_nodup.sublist (List.erase_sublist.map _) }
  refine List.Perm.trans ?_ (h.chunks j hj)
  by_cases hji : j = i
  · subst hji
    rw [Function.update_self]
    refine (List.Perm.append_left _ List.perm_middle).trans (List.perm_middle.trans ?_)
    exact (liveChunks_erase_self (s := s) hg hp rfl).symm.append_right _
  · rw [Function.update_of_ne hji]
    exact (liveChunks_erase_of_ne (s := s) hg (ne_of_findPool hp hji) rfl).symm.append_right _

/-- A chunk that is outside is pushed onto the free list. -/
theorem push (h : s.Ok fl out) (hi : i < numPools) (hc : c ∈ out i) :
    (s.setHeap ((s.heap.setNext c (s.heap.pools i).freeList).setFreeList i c)).Ok
      (Function.update fl i (c :: fl i)) (Function.update out i ((out i).erase c)) := by
  refine (h.link hi hc _).relist ⟨rfl, h.out_ne_zero hi hc, ?_⟩ ?_
  · change Chain _ 0 (Function.update s.heap.mem c _ c) _
    rw [Function.update_self]
    exact (h.link hi hc _).chain i hi
  · exact List.perm_middle.symm.trans ((List.perm_cons_erase hc).symm.append_left _)

/-- The head of a free list passes to a holder. -/
theorem pop (h : s.Ok fl out) {size : ℕ} {rest : List ℕ} (hp : findPool size = some i)
    (hfl : fl i = c :: rest) :
    (s.heap.pools i).freeList = c ∧ c ≠ 0 ∧
      ({ s with
        heap := s.heap.setFreeList i (s.heap.mem c)
        live := ⟨c, size⟩ :: s.live } : HeapClient).Ok (Function.update fl i rest) out := by
  have hchain := h.chain i (findPool_some hp).1
  rw [hfl] at hchain
  obtain ⟨hhead, hne, hrest⟩ := hchain
  have hperm : (rest ++ c :: out i).Perm (fl i ++ out i) := by
    rw [hfl]
    exact List.perm_middle
  have hmove := (h.relist hrest hperm).take hp (c := c)
    (by rw [Function.update_self]; exact List.mem_cons_self)
  rw [Function.update_self, List.erase_cons_head, Function.update_idem,
    Function.update_eq_self] at hmove
  exact ⟨hhead, hne, hmove⟩

/-- A held chunk goes back to the front of its free list. -/
theorem kfree_chunk (h : s.Ok fl out) (hg : g ∈ s.live) (hp : findPool g.size = some i) :
    ({ s with heap := s.heap.kfree g.ptr, live := s.live.erase g } : HeapClient).Ok
      (Function.update fl i (g.ptr :: fl i)) out := by
  have hmove := (h.give hg hp).push (findPool_some hp).1 (c := g.ptr)
    (by rw [Function.update_self]; exact List.mem_cons_self)
  rw [Function.update_self, List.erase_cons_head, Function.update_idem,
    Function.update_eq_self] at hmove
  rw [h.kfree_eq_push hg hp]
  exact hmove

/-! ## Moves of blocks -/

/-- The buddy allocator may change below the heap as long as the blocks in the ledger stay
allocated. -/
theorem set_buddy (h : s.Ok fl out) {b : Buddy} (hinv : b.Inv) (hs : SameRegion s.heap.buddy b)
    (hpages : ∀ e ∈ s.sliced, b.AllocBlock e.1 0)
    (hlarge : ∀ g ∈ s.live, findPool g.size = none → ∀ idx, g.ptr = s.heap.buddy.idxToAddr idx →
      s.heap.buddy.AllocBlock idx (requestOrder g.size) →
      b.AllocBlock idx (requestOrder g.size)) :
    (s.setHeap { s.heap with buddy := b }).Ok fl out := by
  have haddr : ∀ idx, b.idxToAddr idx = s.heap.buddy.idxToAddr idx := fun idx => hs.idxToAddr
  refine ⟨hinv, h.region.congr hs, h.sizes, h.chain, h.sliced_nodup, fun e he => ?_,
    h.table_sliced, fun pg hpg => ?_, fun i hi => ?_, fun g hg hp => ?_, h.ptr_nodup⟩
  · exact ⟨(h.sliced_page e he).1, hpages e he, haddr e.1 ▸ (h.sliced_page e he).2.2⟩
  · exact h.table_other pg (hs.pages ▸ hpg)
  · refine (h.chunks i hi).trans (List.Perm.of_eq (Eq.symm ?_))
    exact poolChunks_congr rfl haddr
  · obtain ⟨h0, idx, ha, hptr, hoff⟩ := h.large g hg hp
    exact ⟨h0, idx, hlarge g hg hp idx hptr ha, hptr.trans (haddr idx).symm, hoff⟩

/-- A grant of the buddy allocator alone changes nothing in the ledger. -/
theorem grant (h : s.Ok fl out) {b : Buddy} {idx k : ℕ} (hinv : b.Inv)
    (hg : Grants s.heap.buddy b idx k) : (s.setHeap { s.heap with buddy := b }).Ok fl out :=
  h.set_buddy hinv hg.toSameRegion
    (fun e he => hg.allocBlock_iff.mpr (Or.inl (h.sliced_page e he).2.1))
    fun _ _ _ _ _ ha => hg.allocBlock_iff.mpr (Or.inl ha)

/-- A block that is granted meets no sliced page. -/
theorem grant_fresh (h : s.Ok fl out) {b : Buddy} {idx k : ℕ} (hg : Grants s.heap.buddy b idx k)
    {e : ℕ × ℕ} (he : e ∈ s.sliced) : e.1 ∉ block idx k := fun hmem =>
  (h.sliced_page e he).2.1.not_isFreeVal (self_mem_block _ _) (owner_eq_none.mp (hg.free _ hmem))

/-- A page is granted and entered into the table; its chunks are outside. -/
theorem acquire (h : s.Ok fl out) (hi : i < numPools) {b : Buddy} {idx : ℕ} (hinv : b.Inv)
    (hg : Grants s.heap.buddy b idx 0) (haddr : s.heap.buddy.idxToAddr idx ≠ 0) :
    ({ s with heap := s.heap.enterPage b idx i, sliced := (idx, i) :: s.sliced } :
      HeapClient).Ok fl (Function.update out i (s.pageChunks i idx ++ out i)) := by
  have hgrant := h.grant hinv hg
  have haddrEq : ∀ idx, b.idxToAddr idx = s.heap.buddy.idxToAddr idx := fun _ =>
    hg.toSameRegion.idxToAddr
  have hfresh : ∀ e ∈ s.sliced, e.1 ≠ idx := fun e he heq =>
    h.grant_fresh hg he (heq ▸ self_mem_block _ _)
  refine { hgrant with
    sliced_nodup := ?_
    sliced_page := fun e he => ?_
    table_sliced := fun e he => ?_
    table_other := fun pg hpg hout => ?_
    chunks := fun j hj => ?_
    large := fun g hg' hp => ?_ }
  · rw [List.map_cons, List.nodup_cons]
    refine ⟨fun hmem => ?_, h.sliced_nodup⟩
    obtain ⟨e, he, heq⟩ := List.mem_map.mp hmem
    exact hfresh e he heq
  · rcases List.mem_cons.mp he with rfl | he
    · exact ⟨hi, hg.allocBlock, (haddrEq idx).symm ▸ haddr⟩
    · exact hgrant.sliced_page e he
  · change Function.update s.heap.pagePoolIdx idx i e.1 = e.2
    rcases List.mem_cons.mp he with rfl | he
    · exact Function.update_self ..
    · rw [Function.update_of_ne (hfresh e he)]
      exact h.table_sliced e he
  · change Function.update s.heap.pagePoolIdx idx i pg = -1
    rw [List.map_cons, List.mem_cons, not_or] at hout
    rw [Function.update_of_ne hout.1]
    exact hgrant.table_other pg hpg hout.2
  · by_cases hji : j = i
    · subst hji
      rw [Function.update_self, poolChunks_cons_self (s := s) rfl haddrEq]
      have hswap := List.perm_append_comm_assoc (fl j) (s.pageChunks j idx) (out j)
      refine (hswap.append_left _).trans ((List.perm_append_comm_assoc _ _ _).trans ?_)
      exact (h.chunks j hj).append_left _
    · rw [Function.update_of_ne hji, poolChunks_cons_of_ne (s := s) rfl hji haddrEq]
      exact h.chunks j hj
  · obtain ⟨h0, idx', ha, hptr, hoff⟩ := h.large g hg' hp
    refine ⟨h0, idx', hg.allocBlock_iff.mpr (Or.inl ha), hptr.trans (haddrEq idx').symm,
      fun e he => ?_⟩
    rcases List.mem_cons.mp he with rfl | he
    · exact fun hmem =>
        ha.not_isFreeVal hmem (owner_eq_none.mp (hg.free idx (self_mem_block _ _)))
    · exact hoff e he

/-- `n` rounds of the slicing loop push the first `n` chunks of the page. -/
theorem sliceInto (h : s.Ok fl out) (hi : i < numPools) {p : ℕ} {l : List ℕ}
    (hout : out i = s.pageChunks i p ++ l) {n : ℕ} (hn : n ≤ pageSize / chunkBytes i) :
    (s.setHeap (s.heap.sliceInto i (s.heap.buddy.idxToAddr p) (chunkBytes i) n)).Ok
      (Function.update fl i (((s.pageChunks i p).take n).reverse ++ fl i))
      (Function.update out i ((s.pageChunks i p).drop n ++ l)) := by
  have hlen := length_pageChunks s i p
  induction n with
  | zero =>
    rw [Heap.sliceInto_zero, List.take_zero, List.drop_zero, ← hout, Function.update_eq_self]
    exact (Function.update_eq_self (f := fl) i).symm ▸ h
  | succ n ih =>
    have hlt : n < (s.pageChunks i p).length := by omega
    have hnode := getElem_pageChunks hlt
    have hdrop := List.drop_eq_getElem_cons hlt
    have hpush := (ih (by omega)).push hi
      (c := s.heap.buddy.idxToAddr p + n * chunkBytes i) (by
        rw [Function.update_self, hdrop, hnode]
        exact List.mem_cons_self)
    rw [Function.update_self, Function.update_self, Function.update_idem, Function.update_idem,
      hdrop, hnode, List.cons_append, List.erase_cons_head] at hpush
    rw [Heap.sliceInto_succ, List.take_succ_eq_append_getElem hlt, hnode, List.reverse_append]
    exact hpush

/-- Dropping a large allocation from the holders. -/
theorem erase_large (h : s.Ok fl out) (hg : g ∈ s.live) (hp : findPool g.size = none) :
    ({ s with live := s.live.erase g } : HeapClient).Ok fl out := by
  refine { h with
    chunks := fun j hj => ?_
    large := fun g' hg' => h.large g' (List.mem_of_mem_erase hg')
    ptr_nodup := h.ptr_nodup.sublist (List.erase_sublist.map _) }
  refine ((liveChunks_erase_of_ne (s := s) hg ?_ rfl).symm.append_right _).trans (h.chunks j hj)
  rw [hp]
  simp

/-- A block that is given back leaves the ledger. -/
theorem kfree_large (h : s.Ok fl out) (hg : g ∈ s.live) (hp : findPool g.size = none) :
    ({ s with heap := s.heap.kfree g.ptr, live := s.live.erase g } : HeapClient).Ok fl out := by
  have herase := h.erase_large hg hp
  obtain ⟨-, idx, ha, hptr, hoff⟩ := h.large g hg hp
  rw [h.kfree_eq_buddyFree hg hp, hptr]
  rcases buddyFree_cases h.inv ha h.region.inside with ⟨-, hsame⟩ | ⟨hinv, hrel⟩
  · rw [hsame]
    exact herase
  · refine herase.set_buddy hinv hrel.toSameRegion (fun e he => ?_)
      fun g' hg' _ idx' hptr' ha' => ?_
    · refine (hrel.allocBlock_iff ha).mpr ⟨(h.sliced_page e he).2.1, ?_⟩
      rintro ⟨heq, -⟩
      exact hoff e he (heq ▸ self_mem_block _ _)
    · refine (hrel.allocBlock_iff ha).mpr ⟨ha', ?_⟩
      rintro ⟨rfl, -⟩
      exact h.ptr_ne_of_mem_erase hg hg' (hptr'.trans hptr.symm)

/-- A block of the buddy allocator becomes held. -/
theorem kmallocLarge (h : s.Ok fl out) {size : ℕ} (hp : findPool size = none) :
    ({ s with
      heap := (s.heap.kmallocLarge size).1
      live := hold s.live (s.heap.kmallocLarge size).2 size } : HeapClient).Ok fl out := by
  rcases buddyAlloc_cases h.inv size with hnull | ⟨idx, b, hcall, hinv, hg⟩
  · have hsame : s.heap.kmallocLarge size = (s.heap, 0) := by
      unfold Heap.kmallocLarge
      rw [hnull]
      exact if_pos rfl
    rw [hsame, hold_null]
    exact h
  have hgrant := h.grant hinv hg
  by_cases haddr : s.heap.buddy.idxToAddr idx = 0
  · have hnone : s.heap.kmallocLarge size = ({ s.heap with buddy := b }, 0) := by
      unfold Heap.kmallocLarge
      rw [hcall, haddr]
      exact if_pos rfl
    rw [hnone, hold_null]
    exact hgrant
  have hback : s.heap.addrToPageIdx (s.heap.buddy.idxToAddr idx) = idx :=
    addrToIdx_idxToAddr h.region.inside hg.index_lt
  have haddrEq : ∀ idx, b.idxToAddr idx = s.heap.buddy.idxToAddr idx := fun _ =>
    hg.toSameRegion.idxToAddr
  set pages := u64 (size + pageSize - 1) / pageSize with hpages
  have hsome : s.heap.kmallocLarge size = ({ s.heap with
      buddy := b
      pagePoolIdx := setFrames s.heap.pagePoolIdx idx pages (-1) },
      s.heap.buddy.idxToAddr idx) := by
    unfold Heap.kmallocLarge
    rw [hcall]
    dsimp only
    rw [if_neg haddr, hback]
  -- the table is written at most at the frames of the block
  have hle : pages ≤ 2 ^ requestOrder size := by
    refine le_two_pow_pagesToOrder (le_trans (Nat.div_le_self _ _) ?_)
    exact (u64_lt _).le
  rw [hsome, hold_of_ne haddr]
  refine { hgrant with
    table_sliced := fun e he => ?_
    table_other := fun pg hpg hout => ?_
    chunks := fun j hj => ?_
    large := fun g hg' hpg => ?_
    ptr_nodup := ?_ }
  · have hout := h.grant_fresh hg he
    rw [mem_block] at hout
    change setFrames _ _ _ _ _ = _
    unfold setFrames
    rw [if_neg (by omega)]
    exact h.table_sliced e he
  · change setFrames _ _ _ _ _ = _
    unfold setFrames
    split_ifs
    · rfl
    · exact hgrant.table_other pg hpg hout
  · have hne : findPool (Grant.mk (s.heap.buddy.idxToAddr idx) size).size ≠ some j := by
      rw [hp]
      simp
    rw [liveChunks_cons_of_ne (s := s) hne rfl]
    exact hgrant.chunks j hj
  · rcases List.mem_cons.mp hg' with rfl | hg'
    · exact ⟨haddr, idx, hg.allocBlock, (haddrEq idx).symm, fun e he => h.grant_fresh hg he⟩
    · exact hgrant.large g hg' hpg
  · rw [List.map_cons, List.nodup_cons]
    refine ⟨fun hmem => ?_, h.ptr_nodup⟩
    -- the page of a pointer that is held already is allocated, the page of the new one was free
    obtain ⟨g, hg', heq⟩ := List.mem_map.mp hmem
    obtain ⟨k, ha⟩ := h.page_allocated hg'
    rw [heq, h.page_of_addr hg.index_lt] at ha
    exact ha.not_isFreeVal (self_mem_block _ _)
      (owner_eq_none.mp (hg.free idx (self_mem_block _ _)))

/-- A holder writes into what it holds. -/
theorem write (h : s.Ok fl out) (hg : g ∈ s.live) {addr v : ℕ} (haddr : addr ∈ capacity g) :
    (s.setHeap (s.heap.setNext addr v)).Ok fl out := by
  refine { h with chain := fun i hi => (h.chain i hi).update_of_notMem fun hmem => ?_ }
  refine Set.disjoint_left.mp (h.capacity_unheld hg hi (List.mem_append_left _ hmem)) haddr
    ⟨le_rfl, ?_⟩
  exact Nat.lt_add_of_pos_right (chunkBytes_pos i hi)

end Ok
end HeapClient
end OscKernel
