import OscKernel.Kmalloc.Run

/-!
# Interrupts inside `kmalloc`

The small paths of `kmalloc` and `kfree` as their separate accesses to the free list, with an
interrupt possible between any two of them.  The handler runs calls of its own to completion; the
interrupted call keeps the head it has read.

* `IrqHeap.step`: the accesses of one interruptible call, and the calls of handlers.
* `shared_of_reachable`: a handler that takes the chunk which the interrupted `kmalloc` has read
  makes two callers hold one chunk.
* `unshared_of_reachable`: as long as no handler takes a chunk that the interrupted call has in
  hand, no chunk is shared.

## What the interrupted call has in hand

Between the read of the head and its write a call keeps a pointer to a chunk that is still on the
list.  A handler that frees a chunk, or takes one of another pool, leaves the pointer good: the list
has grown in front, and the write drops what was put there, which loses chunks and shares none.  A
handler that takes the chunk itself makes the pointer stale.  `PcOk` says at each access what the
call relies on: the head it has read begins an end of the list, and the node it pushes is on none.

`Undisturbed` excludes the handlers that take this away, and nothing else.  It is a condition on the
state before the step and on the handler's call; the loss of chunks that it lets through is why the
conclusion is `Unshared` and not the whole contract of the heap.

## What is not divided

The page allocator runs in one access, and so does the large path.  A handler inside these would
need the same division of `buddy.c`, and what it can break there is not looked at here.
-/

namespace OscKernel

open DyadicBlock Buddy Transition HeapClient

/-! ## The accesses of one call -/

/-- What follows a push: the end of `kfree`, or the rest of the slicing loop, whose counter is
`n`. -/
inductive Push where
  | kfree
  | slice (size page n : ℕ)

/-- Where the interruptible call is: what it does next. -/
inductive Pc where
  | idle
  /-- `pool->free_list == NULL`. -/
  | test (size i : ℕ)
  /-- `buddy_alloc(PAGE_SIZE)`. -/
  | newPage (size i : ℕ)
  /-- `chunk = pool->free_list`. -/
  | readHead (size i : ℕ)
  /-- `chunk->next`. -/
  | readNext (size i chunk : ℕ)
  /-- `pool->free_list = next`. -/
  | writeHead (size i chunk next : ℕ)
  /-- `pool->free_list`, to be stored into the node. -/
  | pushRead (i node : ℕ) (k : Push)
  /-- `node->next = head`. -/
  | pushNext (i node head : ℕ) (k : Push)
  /-- `pool->free_list = node`. -/
  | pushHead (i node : ℕ) (k : Push)

/-- The heap, its holders, and the call that interrupts may divide. -/
structure IrqHeap where
  client : HeapClient
  pc : Pc

namespace IrqHeap

/-- Enter a call.  Requests and frees that do not go to a pool are not divided. -/
def begin (s : HeapClient) (c : Call) : Option IrqHeap :=
  let whole := (s.step c).map fun t => IrqHeap.mk t .idle
  match c with
  | .kmalloc size =>
      match (Call.kmalloc size).pool with
      | some i => some ⟨s, .test size i⟩
      | none => whole
  | .kfree g =>
      let pidx := s.heap.pagePoolIdx (s.heap.addrToPageIdx (pageDown g.ptr))
      if g ∉ s.live then none
      else if g.ptr = 0 ∨ pidx < 0 then whole
      else some ⟨{ s with live := s.live.erase g }, .pushRead pidx.toNat g.ptr .kfree⟩
  | .write _ _ _ => whole

/-- The access after a push. -/
def afterPush (h : Heap) (i : ℕ) : Push → Pc
  | .kfree => .idle
  | .slice size page n =>
      let chunkSz := (h.pools i).chunkSize
      if n + 1 < pageSize / chunkSz then
        .pushRead i (page + (n + 1) * chunkSz) (.slice size page (n + 1))
      else .readHead size i

/-- The next access of the call. -/
def advance (s : IrqHeap) : Option IrqHeap :=
  let h := s.client.heap
  match s.pc with
  | .idle => none
  | .test size i =>
      some { s with pc := if (h.pools i).freeList = 0 then .newPage size i else .readHead size i }
  | .newPage size i =>
      let r := h.buddy.buddyAlloc pageSize
      if r.2 = 0 then some ⟨s.client.setHeap { h with buddy := r.1 }, .idle⟩
      else
        let pgIdx := h.addrToPageIdx r.2
        some ⟨{ s.client with
          heap := h.enterPage r.1 pgIdx i
          sliced := (pgIdx, i) :: s.client.sliced }, .pushRead i r.2 (.slice size r.2 0)⟩
  | .readHead size i => some { s with pc := .readNext size i (h.pools i).freeList }
  | .readNext size i chunk => some { s with pc := .writeHead size i chunk (h.mem chunk) }
  | .writeHead size i chunk next =>
      some ⟨{ s.client with
        heap := h.setFreeList i next
        live := hold s.client.live chunk size }, .idle⟩
  | .pushRead i node k => some { s with pc := .pushNext i node (h.pools i).freeList k }
  | .pushNext i node head k => some ⟨s.client.setHeap (h.setNext node head), .pushHead i node k⟩
  | .pushHead i node k => some ⟨s.client.setHeap (h.setFreeList i node), afterPush h i k⟩

/-- A call is entered, makes its next access, or is interrupted by a whole call of a handler. -/
inductive Label where
  | begin (c : Call)
  | advance
  | irq (c : Call)

/-- One step. -/
def step (s : IrqHeap) : Label → Option IrqHeap
  | .begin c =>
      match s.pc with
      | .idle => begin s.client c
      | _ => none
  | .advance => s.advance
  | .irq c => (s.client.step c).map fun t => { s with client := t }

end IrqHeap

/-- **Nothing is shared**: no two callers hold a common chunk, and no held chunk is on a free
list. -/
structure Unshared (s : HeapClient) : Prop where
  live : s.live.Pairwise fun g g' => Disjoint (capacity g) (capacity g')
  free : ∀ i < numPools, ∀ c, Visits s.heap.mem 0 (s.heap.pools i).freeList c →
    ∀ g ∈ s.live, Disjoint (capacity g) (Set.Ico c (c + chunkBytes i))

/-- The handler does not take the chunk that the interrupted call has read as the head of its list,
nor the last chunk of the pool between the test of the list and the read of its head. -/
def IrqHeap.Undisturbed (s : IrqHeap) : IrqHeap.Label → Prop
  | .irq c =>
      let h := s.client.heap
      match s.pc with
      | .readHead _ i => c.pool = some i → h.mem (h.pools i).freeList ≠ 0
      | .readNext _ i chunk => c.pool = some i → (h.pools i).freeList ≠ chunk
      | .writeHead _ i chunk _ => c.pool = some i → (h.pools i).freeList ≠ chunk
      | .pushNext i _ head _ => c.pool = some i → (h.pools i).freeList = head → head = 0
      | .pushHead i node _ => c.pool = some i → (h.pools i).freeList = h.mem node → h.mem node = 0
      | _ => True
  | _ => True

/-! ## What a handler leaves to the interrupted call -/

namespace HeapClient

variable {s s' : HeapClient} {fl fl' out : ℕ → List ℕ} {i : ℕ} {c : Call}

/-- The ledger shares nothing. -/
theorem Ok.unshared (h : s.Ok fl out) : Unshared s where
  live := (List.pairwise_map.mp h.ptr_nodup).imp_of_mem
    fun hg hg' hne => h.capacity_disjoint hg hg' hne
  free i hi _ hc _ hg := h.capacity_unheld hg hi
    (List.mem_append_left _ ((h.chain i hi).visits_iff.mp hc))

/-- A call that takes nothing out of the end `rest` of a list leaves it at the end. -/
theorem Moves.suffix (hm : Moves c fl fl' out s s') (hi : i < numPools) {pre rest : List ℕ}
    (hfl : fl i = pre ++ rest) (hkeep : c.pool = some i → pre = [] → rest = []) :
    ∃ pre', fl' i = pre' ++ rest := by
  rcases hm.lists i hi with hsame | ⟨hpool, hnil | ⟨x, hpop⟩⟩ | ⟨x, hpush⟩
  · exact ⟨pre, hsame.trans hfl⟩
  · rw [hnil] at hfl
    obtain ⟨-, rfl⟩ := List.append_eq_nil_iff.mp hfl.symm
    exact ⟨fl' i, (List.append_nil _).symm⟩
  · cases pre with
    | nil =>
      rw [hkeep hpool rfl, hpop] at hfl
      exact absurd hfl (by simp)
    | cons y pre =>
      rw [hpop, List.cons_append, List.cons.injEq] at hfl
      exact ⟨pre, hfl.2⟩
  · exact ⟨x :: pre, by rw [hpush, hfl, List.cons_append]⟩

/-- The links of the end of a list are as before the call. -/
theorem Moves.chain (hm : Moves c fl fl' out s s') (hi : i < numPools) {l rest : List ℕ}
    {p : ℕ} (hfl : fl i = l ++ rest) (hrest : Chain s.heap.mem 0 p rest) :
    Chain s'.heap.mem 0 p rest :=
  hrest.congr fun x hx => hm.frame i hi x (List.mem_append_left _
    (hfl ▸ List.mem_append_right _ hx))

end HeapClient

namespace IrqHeap

variable {s s' : IrqHeap} {fl fl' out : ℕ → List ℕ} {i : ℕ} {c : Call}

/-! ## The invariant -/

/-- The nodes that the slicing loop has still to push are outside. -/
def PushOk (out : ℕ → List ℕ) (i node : ℕ) : Push → Prop
  | .kfree => True
  | .slice size page n =>
      findPool size = some i ∧ node = page + n * chunkBytes i ∧
        ∀ m, n < m → m < pageSize / chunkBytes i → page + m * chunkBytes i ∈ out i

/-- What the interrupted call may rely on at each of its accesses: the head it has read starts an
end of the list, and the node it pushes is outside. -/
def PcOk (fl out : ℕ → List ℕ) (mem : ℕ → ℕ) : Pc → Prop
  | .idle => True
  | .test size i => findPool size = some i
  | .newPage size i => findPool size = some i
  | .readHead size i => findPool size = some i ∧ fl i ≠ []
  | .readNext size i chunk => findPool size = some i ∧ ∃ pre rest, fl i = pre ++ chunk :: rest
  | .writeHead size i chunk next => findPool size = some i ∧
      ∃ pre rest, fl i = pre ++ chunk :: rest ∧ Chain mem 0 next rest
  | .pushRead i node k => i < numPools ∧ node ∈ out i ∧ PushOk out i node k
  | .pushNext i node head k => (i < numPools ∧ node ∈ out i ∧ PushOk out i node k) ∧
      ∃ pre rest, fl i = pre ++ rest ∧ Chain mem 0 head rest
  | .pushHead i node k => (i < numPools ∧ node ∈ out i ∧ PushOk out i node k) ∧
      ∃ pre rest, fl i = pre ++ rest ∧ Chain mem 0 (mem node) rest

/-- The ledger, and what the interrupted call relies on. -/
def Ok (s : IrqHeap) : Prop :=
  ∃ fl out, s.client.Ok fl out ∧ PcOk fl out s.client.heap.mem s.pc

/-- **Interrupts.**  A handler that takes nothing the interrupted call has in hand leaves it all it
relies on. -/
theorem Ok.irq (h : s.Ok) (hG : s.Undisturbed (.irq c)) (hs : s.step (.irq c) = some s') :
    s'.Ok := by
  obtain ⟨fl, out, hok, hpc⟩ := h
  rw [step, Option.map_eq_some_iff] at hs
  obtain ⟨t, ht, rfl⟩ := hs
  obtain ⟨fl', hok', hm⟩ := hok.step ht
  refine ⟨fl', out, hok', ?_⟩
  -- an end that is the whole list starts at the head of the list
  have hhead : ∀ {i l rest}, i < numPools → fl i = l ++ rest → l = [] →
      Chain s.client.heap.mem 0 (s.client.heap.pools i).freeList rest := fun hi hfl hpre => by
    have hchain := hok.chain _ hi
    rwa [hfl, hpre, List.nil_append] at hchain
  obtain ⟨client, pc⟩ := s
  dsimp only [Undisturbed] at hG hpc hhead ⊢
  cases pc with
  | idle | test size i | newPage size i | pushRead i node k => exact hpc
  | readHead size i =>
    obtain ⟨hp, hne⟩ := hpc
    have hi := (findPool_some hp).1
    refine ⟨hp, fun hnil => ?_⟩
    obtain ⟨x, rest, hfl⟩ := List.exists_cons_of_ne_nil hne
    obtain ⟨hx, -, hrest⟩ := hhead (l := []) hi hfl rfl
    rcases hm.lists i hi with hsame | ⟨hpool, hnil' | ⟨y, hpop⟩⟩ | ⟨y, hpush⟩
    · exact hne (hsame ▸ hnil)
    · exact hne hnil'
    · rw [hnil, hfl, List.cons.injEq] at hpop
      rw [hpop.2] at hrest
      exact hG hpool (hx ▸ hrest)
    · rw [hnil] at hpush
      exact absurd hpush (by simp)
  | readNext size i chunk =>
    obtain ⟨hp, pre, rest, hfl⟩ := hpc
    have hi := (findPool_some hp).1
    obtain ⟨pre', hfl'⟩ := hm.suffix hi hfl fun hpool hpre =>
      absurd (hhead hi hfl hpre).1 (hG hpool)
    exact ⟨hp, pre', rest, hfl'⟩
  | writeHead size i chunk next =>
    obtain ⟨hp, pre, rest, hfl, hrest⟩ := hpc
    have hi := (findPool_some hp).1
    obtain ⟨pre', hfl'⟩ := hm.suffix hi hfl fun hpool hpre =>
      absurd (hhead hi hfl hpre).1 (hG hpool)
    refine ⟨hp, pre', rest, hfl', hm.chain hi (l := pre ++ [chunk]) ?_ hrest⟩
    rw [hfl, List.append_assoc, List.singleton_append]
  | pushNext i node head k =>
    obtain ⟨⟨hi, hnode, hk⟩, pre, rest, hfl, hrest⟩ := hpc
    obtain ⟨pre', hfl'⟩ := hm.suffix hi hfl fun hpool hpre => by
      rw [hG hpool ((hhead hi hfl hpre).head_unique hrest)] at hrest
      exact hrest.eq_nil
    exact ⟨⟨hi, hnode, hk⟩, pre', rest, hfl', hm.chain hi hfl hrest⟩
  | pushHead i node k =>
    obtain ⟨⟨hi, hnode, hk⟩, pre, rest, hfl, hrest⟩ := hpc
    obtain ⟨pre', hfl'⟩ := hm.suffix hi hfl fun hpool hpre => by
      rw [hG hpool ((hhead hi hfl hpre).head_unique hrest)] at hrest
      exact hrest.eq_nil
    refine ⟨⟨hi, hnode, hk⟩, pre', rest, hfl', ?_⟩
    rw [hm.frame i hi node (List.mem_append_right _ hnode)]
    exact hm.chain hi hfl hrest

/-- Entering a call. -/
theorem Ok.begin {client : HeapClient} (h : client.Ok fl out) (hs : begin client c = some s') :
    s'.Ok := by
  have hwhole : ∀ {s'}, (client.step c).map (fun t => IrqHeap.mk t .idle) = some s' → s'.Ok := by
    intro s' hs
    obtain ⟨t, ht, rfl⟩ := Option.map_eq_some_iff.mp hs
    obtain ⟨fl', hok, -⟩ := h.step ht
    exact ⟨fl', out, hok, trivial⟩
  unfold IrqHeap.begin at hs
  cases c with
  | write g addr value => exact hwhole hs
  | kmalloc size =>
    dsimp only at hs
    cases hpool : (Call.kmalloc size).pool with
    | none =>
      rw [hpool] at hs
      exact hwhole hs
    | some i =>
      rw [hpool] at hs
      obtain rfl := Option.some_inj.mp hs
      refine ⟨fl, out, h, ?_⟩
      unfold Call.pool at hpool
      dsimp only at hpool
      split_ifs at hpool with h0
      exact hpool
  | kfree g =>
    dsimp only at hs
    split_ifs at hs with hg hlarge
    · exact hwhole hs
    · obtain rfl := Option.some_inj.mp hs
      cases hp : findPool g.size with
      | none => exact absurd (Or.inr (by rw [h.table_large hg hp]; decide)) hlarge
      | some i =>
        rw [h.table_chunk hg hp, Int.toNat_natCast]
        refine ⟨_, _, h.give hg hp, (findPool_some hp).1, ?_, trivial⟩
        rw [Function.update_self]
        exact List.mem_cons_self

/-- A new page is taken, and its first chunk is about to be pushed. -/
theorem Ok.newPage {client : HeapClient} {size : ℕ} (h : client.Ok fl out)
    (hp : findPool size = some i) (hs : advance ⟨client, .newPage size i⟩ = some s') : s'.Ok := by
  have hi := (findPool_some hp).1
  unfold advance at hs
  dsimp only at hs
  rcases buddyAlloc_cases h.inv pageSize with hnull | ⟨idx, b, hcall, hinv, hg⟩
  · rw [hnull] at hs
    obtain rfl := Option.some_inj.mp hs
    exact ⟨fl, out, h, trivial⟩
  rw [hcall] at hs
  dsimp only at hs
  split_ifs at hs with h0
  · obtain rfl := Option.some_inj.mp hs
    exact ⟨fl, out, h.grant hinv hg, trivial⟩
  · rw [requestOrder_pageSize] at hg
    have hback : client.heap.addrToPageIdx (client.heap.buddy.idxToAddr idx) = idx :=
      addrToIdx_idxToAddr h.region.inside hg.index_lt
    rw [hback] at hs
    obtain rfl := Option.some_inj.mp hs
    have hchunk : ∀ m < pageSize / chunkBytes i,
        client.heap.buddy.idxToAddr idx + m * chunkBytes i ∈
          Function.update out i (client.pageChunks i idx ++ out i) i := fun m hm => by
      rw [Function.update_self]
      exact List.mem_append_left _ (mem_pageChunks.mpr ⟨m, hm, rfl⟩)
    have hpos := Nat.pos_of_ne_zero (pageSize_div_chunkBytes_ne_zero i hi)
    have hfirst := hchunk 0 hpos
    rw [Nat.zero_mul, Nat.add_zero] at hfirst
    exact ⟨_, _, h.acquire hi hinv hg h0, hi, hfirst, hp, by rw [Nat.zero_mul, Nat.add_zero],
      fun m _ hm => hchunk m hm⟩

/-- The head is written: the pushed node is in front of the end that the call read. -/
theorem Ok.pushHead {client : HeapClient} {node : ℕ} {k : Push} (h : client.Ok fl out)
    (hpc : PcOk fl out client.heap.mem (.pushHead i node k)) :
    Ok ⟨client.setHeap (client.heap.setFreeList i node), afterPush client.heap i k⟩ := by
  obtain ⟨⟨hi, hnode, hk⟩, pre, rest, hfl, hrest⟩ := hpc
  have hperm : (node :: rest ++ (pre ++ (out i).erase node)).Perm (fl i ++ out i) := by
    rw [hfl]
    have h1 : (node :: rest ++ (pre ++ (out i).erase node)).Perm
        (node :: (pre ++ rest ++ (out i).erase node)) := by
      rw [List.cons_append, ← List.append_assoc]
      exact (List.perm_append_comm.append_right _).cons _
    exact h1.trans (List.perm_middle.symm.trans ((List.perm_cons_erase hnode).symm.append_left _))
  have hchain : Chain client.heap.mem 0 node (node :: rest) :=
    ⟨rfl, h.out_ne_zero hi hnode, hrest⟩
  have hok := h.relist hchain hperm
  refine ⟨_, _, hok, ?_⟩
  cases k with
  | kfree => exact trivial
  | slice size page n =>
    obtain ⟨hp, hnodeEq, hlater⟩ := hk
    unfold afterPush
    dsimp only
    rw [h.sizes i hi]
    have hmove : ∀ m, n < m → m < pageSize / chunkBytes i →
        page + m * chunkBytes i ∈ Function.update out i (pre ++ (out i).erase node) i := by
      intro m hnm hm
      rw [Function.update_self]
      refine List.mem_append_right _ ((List.mem_erase_of_ne fun heq => ?_).mpr (hlater m hnm hm))
      rw [hnodeEq] at heq
      have := Nat.eq_of_mul_eq_mul_right (chunkBytes_pos i hi) (Nat.add_left_cancel heq)
      omega
    split_ifs with hn
    · exact ⟨hi, hmove (n + 1) (Nat.lt_succ_self n) hn, hp, rfl, fun m hnm => hmove m (by omega)⟩
    · refine ⟨hp, ?_⟩
      rw [Function.update_self]
      exact List.cons_ne_nil _ _

/-- The head is written: the chunk that was read becomes held. -/
theorem Ok.writeHead {client : HeapClient} {size chunk next : ℕ} (h : client.Ok fl out)
    (hpc : PcOk fl out client.heap.mem (.writeHead size i chunk next)) :
    Ok ⟨{ client with
      heap := client.heap.setFreeList i next
      live := hold client.live chunk size }, .idle⟩ := by
  obtain ⟨hp, pre, rest, hfl, hrest⟩ := hpc
  have hi := (findPool_some hp).1
  have hne : chunk ≠ 0 := by
    refine h.chunk_ne_zero (h.unheld_mem hi (List.mem_append_left _ ?_))
    rw [hfl]
    exact List.mem_append_right _ List.mem_cons_self
  have hperm : (rest ++ chunk :: (pre ++ out i)).Perm (fl i ++ out i) := by
    rw [hfl, List.append_assoc, List.cons_append]
    refine List.perm_middle.trans (List.Perm.trans ?_ List.perm_middle.symm)
    exact (List.perm_append_comm_assoc _ _ _).cons _
  have hok := (h.relist hrest hperm).take hp (c := chunk)
    (by rw [Function.update_self]; exact List.mem_cons_self)
  rw [hold_of_ne hne]
  exact ⟨_, _, hok, trivial⟩

/-- The next access of the call. -/
theorem Ok.advance (h : s.Ok) (hs : s.advance = some s') : s'.Ok := by
  obtain ⟨fl, out, hok, hpc⟩ := h
  obtain ⟨client, pc⟩ := s
  cases pc with
  | idle => exact absurd hs (by simp [IrqHeap.advance])
  | newPage size i => exact Ok.newPage hok hpc hs
  | test size i =>
    obtain rfl := Option.some_inj.mp hs
    refine ⟨fl, out, hok, ?_⟩
    have hi := (findPool_some hpc).1
    dsimp only
    split_ifs with h0
    · exact hpc
    · refine ⟨hpc, fun hnil => h0 ?_⟩
      have hchain := hok.chain i hi
      rwa [hnil] at hchain
  | readHead size i =>
    obtain rfl := Option.some_inj.mp hs
    obtain ⟨hp, hne⟩ := hpc
    obtain ⟨x, rest, hfl⟩ := List.exists_cons_of_ne_nil hne
    have hchain := hok.chain i (findPool_some hp).1
    rw [hfl] at hchain
    exact ⟨fl, out, hok, hp, [], rest, by rw [hfl, hchain.1, List.nil_append]⟩
  | readNext size i chunk =>
    obtain rfl := Option.some_inj.mp hs
    obtain ⟨hp, pre, rest, hfl⟩ := hpc
    have hchain := hok.chain i (findPool_some hp).1
    rw [hfl] at hchain
    exact ⟨fl, out, hok, hp, pre, rest, hfl, hchain.of_append⟩
  | writeHead size i chunk next =>
    obtain rfl := Option.some_inj.mp hs
    exact Ok.writeHead hok hpc
  | pushRead i node k =>
    obtain rfl := Option.some_inj.mp hs
    exact ⟨fl, out, hok, hpc, [], fl i, rfl, hok.chain i hpc.1⟩
  | pushNext i node head k =>
    obtain rfl := Option.some_inj.mp hs
    obtain ⟨⟨hi, hnode, hk⟩, pre, rest, hfl, hrest⟩ := hpc
    refine ⟨fl, out, hok.link hi hnode head, ⟨hi, hnode, hk⟩, pre, rest, hfl, ?_⟩
    change Chain (Function.update client.heap.mem node head) 0
      (Function.update client.heap.mem node head node) rest
    rw [Function.update_self]
    refine hrest.update_of_notMem fun hmem => hok.out_notMem_free hi hi hnode ?_
    rw [hfl]
    exact List.mem_append_right _ hmem
  | pushHead i node k =>
    obtain rfl := Option.some_inj.mp hs
    exact Ok.pushHead hok hpc

/-- Every undisturbed step keeps the invariant. -/
theorem Ok.step {l : Label} (h : s.Ok) (hG : s.Undisturbed l) (hs : s.step l = some s') :
    s'.Ok := by
  cases l with
  | irq c => exact h.irq hG hs
  | advance => exact h.advance hs
  | begin c =>
    obtain ⟨fl, out, hok, -⟩ := h
    rw [IrqHeap.step] at hs
    split at hs
    · exact Ok.begin hok hs
    · exact absurd hs (by simp)

end IrqHeap

/-! ## Runs -/

/-- The heap after boot, with no call under way. -/
def bootIrqHeap (fa : ℕ → ℤ) (base size : ℕ) (reserves : List (ℕ × ℕ)) (pools : ℕ → Pool)
    (table : ℕ → ℤ) (mem : ℕ → ℕ) : IrqHeap :=
  ⟨bootHeap fa base size reserves pools table mem, .idle⟩

/-- **Interrupted calls.**  In every run in which no handler takes a chunk that the interrupted
call has in hand, nothing is ever shared.  Handlers run whole calls between any two accesses of the
interrupted one; those that free chunks or take others may make it lose chunks. -/
theorem unshared_of_reachable (fa : ℕ → ℤ) {base size : ℕ} (hbase : pageSize ∣ base)
    (hend : base + size ≤ 2 ^ 64) (reserves : List (ℕ × ℕ)) (pools : ℕ → Pool)
    (table : ℕ → ℤ) (mem : ℕ → ℕ) {s : IrqHeap}
    (hs : Reachable IrqHeap.step IrqHeap.Undisturbed
      (bootIrqHeap fa base size reserves pools table mem) s) :
    Unshared s.client := by
  obtain ⟨fl, out, hok, -⟩ := hs.invariant (P := IrqHeap.Ok)
    ⟨_, _, ok_bootHeap fa hbase hend reserves pools table mem, trivial⟩
    fun s l s' h hG hstep => h.step hG hstep
  exact hok.unshared

/-- A heap on 16 pages at `0x80000000`, nothing reserved. -/
def sixteenPages : HeapClient :=
  bootHeap (fun _ => 0) 0x80000000 0x10000 [] (fun _ => ⟨0, 0⟩) (fun _ => 0) fun _ => 0

theorem ok_sixteenPages : sixteenPages.Ok (fun _ => []) fun _ => [] :=
  ok_bootHeap _ (by decide) (by decide) _ _ _ _

/-- A 64-byte request, interrupted before its test by another one. -/
theorem unshared_of_two_requests :
    ∃ s, runList IrqHeap.step ⟨sixteenPages, .idle⟩
      [.begin (.kmalloc 64), .irq (.kmalloc 64)] = some s ∧ Unshared s.client := by
  obtain ⟨s, hs⟩ := Option.isSome_iff_exists.mp (show (runList IrqHeap.step ⟨sixteenPages, .idle⟩
    [.begin (.kmalloc 64), .irq (.kmalloc 64)]).isSome = true from rfl)
  have hmeets : Meets IrqHeap.step IrqHeap.Undisturbed ⟨sixteenPages, .idle⟩
      [.begin (.kmalloc 64), .irq (.kmalloc 64)] := by
    refine ⟨trivial, fun t ht => ⟨?_, fun _ _ => trivial⟩⟩
    obtain rfl := Option.some_inj.mp (show some _ = some t from ht)
    exact trivial
  exact ⟨s, hs, unshared_of_reachable (fun _ => 0) (show pageSize ∣ 0x80000000 by decide)
    (show 0x80000000 + 0x10000 ≤ 2 ^ 64 by decide) [] (fun _ => ⟨0, 0⟩) (fun _ => 0) (fun _ => 0)
    (Reachable.of_runList hs hmeets)⟩

/-! ## The defect -/

namespace HeapClient

variable {s : HeapClient} {fl out : ℕ → List ℕ} {i c pg size : ℕ} {live : List Grant}

theorem pool_of_findPool (h0 : size ≠ 0) (hp : findPool size = some i) :
    (Call.kmalloc size).pool = some i := (if_neg h0).trans hp

theorem one_lt_chunks_per_page : ∀ i < numPools, 1 < pageSize / chunkBytes i := by decide

/-- A pool with a page of which fewer chunks are held than it has keeps a free chunk. -/
theorem Ok.exists_free (h : s.Ok fl fun _ => []) (he : (pg, i) ∈ s.sliced)
    (hfew : (s.liveChunks i).length < pageSize / chunkBytes i) : ∃ c rest, fl i = c :: rest := by
  refine List.exists_cons_of_ne_nil fun hnil => ?_
  have hperm := h.chunks i (h.pool_lt he)
  rw [hnil, List.append_nil, List.append_nil] at hperm
  have hsub : s.pageChunks i pg ⊆ s.poolChunks i := fun c hc => mem_poolChunks.mpr ⟨pg, he, hc⟩
  have hle := (List.subperm_of_subset (Ok.pageChunks_nodup s (h.pool_lt he) pg) hsub).length_le
  rw [length_pageChunks, ← hperm.length_eq] at hle
  omega

/-- A request to a pool that has a free chunk takes the head of its list. -/
theorem Ok.step_pop (h : s.Ok fl out) (h0 : size ≠ 0) (hp : findPool size = some i)
    {rest : List ℕ} (hfl : fl i = c :: rest) :
    ∃ sliced, s.step (.kmalloc size) =
      some ⟨s.heap.setFreeList i (s.heap.mem c), ⟨c, size⟩ :: s.live, sliced⟩ := by
  obtain ⟨hhead, hc, -⟩ := h.pop hp hfl
  have hcall : s.heap.kmalloc size = (s.heap.setFreeList i (s.heap.mem c), c) := by
    unfold Heap.kmalloc Heap.kmallocSmall Heap.popChunk
    rw [if_neg h0, hp]
    dsimp only
    rw [hhead, if_neg hc]
  refine ⟨s.slice size, ?_⟩
  rw [HeapClient.step, hcall]
  dsimp only
  rw [hold_of_ne hc]

/-- Two callers that hold one chunk share it. -/
theorem not_unshared (hp : findPool size = some i)
    (hlive : s.live = ⟨c, size⟩ :: ⟨c, size⟩ :: live) : ¬ Unshared s := by
  intro h
  have hd := h.live
  rw [hlive] at hd
  have hmem : c ∈ capacity ⟨c, size⟩ :=
    ⟨le_rfl, Nat.lt_add_of_pos_right (by
      rw [capacityBytes_of_pool hp]
      exact chunkBytes_pos i (findPool_some hp).1)⟩
  exact Set.disjoint_left.mp ((List.pairwise_cons.mp hd).1 _ List.mem_cons_self) hmem hmem

end HeapClient

/-- A `kmalloc` is interrupted between its read of the head and its write by a request of the same
size: from every state in which the pool has a free chunk, both are given that chunk. -/
theorem interrupted_kmalloc_shares {s : HeapClient} {fl out : ℕ → List ℕ} {i c size : ℕ}
    {rest : List ℕ} (h : s.Ok fl out) (h0 : size ≠ 0) (hp : findPool size = some i)
    (hfl : fl i = c :: rest) :
    ∃ t, runList IrqHeap.step ⟨s, .idle⟩
      [.begin (.kmalloc size), .advance, .advance, .irq (.kmalloc size), .advance, .advance] =
        some t ∧ ¬ Unshared t.client := by
  obtain ⟨hhead, hc, -⟩ := h.pop hp hfl
  obtain ⟨sliced, hirq⟩ := h.step_pop h0 hp hfl
  have hbegin : IrqHeap.begin s (.kmalloc size) = some ⟨s, .test size i⟩ := by
    unfold IrqHeap.begin
    dsimp only
    rw [pool_of_findPool h0 hp]
  have htest : IrqHeap.step ⟨s, .test size i⟩ .advance = some ⟨s, .readHead size i⟩ := by
    rw [IrqHeap.step, IrqHeap.advance]
    dsimp only
    rw [hhead, if_neg hc]
  have hread : IrqHeap.step ⟨s, .readHead size i⟩ .advance = some ⟨s, .readNext size i c⟩ := by
    rw [← hhead]
    rfl
  -- the handler is given the chunk that was read, and so is the interrupted call
  have hirq : IrqHeap.step ⟨s, .readNext size i c⟩ (.irq (.kmalloc size)) =
      some ⟨⟨s.heap.setFreeList i (s.heap.mem c), ⟨c, size⟩ :: s.live, sliced⟩,
        .readNext size i c⟩ := by
    rw [IrqHeap.step, hirq, Option.map_some]
  refine ⟨⟨⟨(s.heap.setFreeList i (s.heap.mem c)).setFreeList i (s.heap.mem c),
    hold (⟨c, size⟩ :: s.live) c size, sliced⟩, .idle⟩, ?_, not_unshared hp (hold_of_ne hc)⟩
  rw [runList_cons, IrqHeap.step, hbegin, Option.bind_some, runList_cons, htest, Option.bind_some,
    runList_cons, hread, Option.bind_some, runList_cons, hirq]
  rfl

/-- After a first request to a pool its list is not empty. -/
theorem free_chunk_after_boot {s : HeapClient} {i size : ℕ}
    (h : s.Ok (fun _ => []) fun _ => []) (hlive : s.live = []) (h0 : size ≠ 0)
    (hp : findPool size = some i) (hpage : (s.heap.buddy.buddyAlloc pageSize).2 ≠ 0) :
    ∃ t fl c rest, s.step (.kmalloc size) = some t ∧ t.Ok fl (fun _ => []) ∧
      fl i = c :: rest := by
  have hi := (findPool_some hp).1
  obtain ⟨fl, hok, -⟩ := h.step (c := .kmalloc size) rfl
  have hrefill := Heap.refill_of_page (i := i)
    (Prod.mk.eta (p := s.heap.buddy.buddyAlloc pageSize)).symm hpage
  have hsliced : (s.heap.addrToPageIdx (s.heap.refill i).2, i) ∈ s.slice size := by
    unfold slice newPages
    rw [if_neg h0, hp]
    dsimp only
    rw [if_pos ⟨h.chain i hi, by rw [hrefill]; exact hpage⟩]
    exact List.mem_cons_self
  have hone : (hold s.live (s.heap.kmalloc size).2 size).length ≤ 1 := by
    rw [hlive]
    unfold hold
    split_ifs
    · exact Nat.zero_le 1
    · exact le_rfl
  obtain ⟨c, rest, hfl⟩ := hok.exists_free hsliced (by
    refine lt_of_le_of_lt ?_ (one_lt_chunks_per_page i hi)
    refine le_trans ?_ hone
    exact (List.length_map _).le.trans (List.length_filter_le _ _))
  exact ⟨_, fl, c, rest, rfl, hok, hfl⟩

theorem buddyAlloc_sixteenPages : (sixteenPages.heap.buddy.buddyAlloc pageSize).2 ≠ 0 := by
  have h := unbuilt_reservedBuddy (fun _ => 0) 0x80000000 0x10000 []
  obtain ⟨i, k, hf, -⟩ := h.exists_free (j := 0) (by decide) (by decide)
  have hok := ok_sixteenPages
  have hbase : sixteenPages.heap.buddy.gBuddyBase = 0x80000000 := h.built.2.base.trans h.base_eq
  refine buddyAlloc_ne_zero hok.inv (by decide) hf ?_ hok.region.inside (by rw [hbase]; decide)
  rw [requestOrder_pageSize]
  exact Nat.zero_le k

/-- The property fails: an interrupt between the read of the head and the write of the head of a
64-byte request, whose handler makes a 64-byte request of its own, on a region of 16 pages. -/
theorem shared_of_reachable : ∃ t, runList IrqHeap.step ⟨sixteenPages, .idle⟩
    [.irq (.kmalloc 64), .begin (.kmalloc 64), .advance, .advance, .irq (.kmalloc 64), .advance,
      .advance] = some t ∧ ¬ Unshared t.client := by
  obtain ⟨s, fl, c, rest, hstep, hok, hfl⟩ := free_chunk_after_boot ok_sixteenPages rfl
    (show 64 ≠ 0 by decide) (show findPool 64 = some 2 by decide) buddyAlloc_sixteenPages
  obtain ⟨t, hrun, hshared⟩ := interrupted_kmalloc_shares hok (by decide)
    (show findPool 64 = some 2 by decide) hfl
  refine ⟨t, ?_, hshared⟩
  rw [runList_cons, IrqHeap.step]
  dsimp only
  rw [hstep, Option.map_some, Option.bind_some]
  exact hrun

end OscKernel
