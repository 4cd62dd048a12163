import OscKernel.Buddy.Operations

/-!
# The pool allocator (`kmalloc.c`)

A request of at most 2048 bytes is served from a pool of equal chunks, a larger one from the buddy
allocator.  A pool's free chunks form a singly linked list through their own memory, and
`page_pool_idx` remembers for every page which pool it was sliced for.

The memory is a function from addresses to the word stored there; the model reads and writes it
only at chunk addresses, where a free chunk keeps its `next` pointer.  `NULL` is `0`.
-/

namespace OscKernel

/-- `pool_sizes`. -/
def poolSizes : List ℕ := [16, 32, 64, 128, 256, 512, 1024, 2048]

/-- `NUM_POOLS`. -/
def numPools : ℕ := 8

/-- `pool_t`. -/
structure Pool where
  chunkSize : ℕ
  freeList : ℕ

/-- The static state of `kmalloc.c`, the buddy allocator below it, and the memory. -/
structure Heap where
  buddy : Buddy
  pools : ℕ → Pool
  pagePoolIdx : ℕ → ℤ
  mem : ℕ → ℕ

/-- `find_pool`: the first pool whose chunks are large enough. -/
def findPool (size : ℕ) : Option ℕ := poolSizes.findIdx? fun poolSize => size ≤ poolSize

/-- The slicing loop: push `n` chunks of `chunkSz` bytes onto a list, in address order. -/
def sliceChunks (page chunkSz : ℕ) : ℕ → ℕ × (ℕ → ℕ) → ℕ × (ℕ → ℕ)
  | 0, s => s
  | n + 1, s =>
      let s := sliceChunks page chunkSz n s
      let node := page + n * chunkSz
      (node, Function.update s.2 node s.1)

namespace Heap

/-- `addr_to_page_idx`. -/
def addrToPageIdx (h : Heap) (addr : ℕ) : ℕ := subU64 addr h.buddy.gBuddyBase / pageSize

/-- Replace the free list of one pool. -/
def setFreeList (h : Heap) (pidx head : ℕ) : Heap :=
  { h with pools := Function.update h.pools pidx { h.pools pidx with freeList := head } }

/-- `kmalloc_init`. -/
def kmallocInit (h : Heap) (pageCount : ℕ) : Heap :=
  { h with
    pools := fun i => if i < numPools then ⟨poolSizes.getD i 0, 0⟩ else h.pools i
    pagePoolIdx := Buddy.setFrames h.pagePoolIdx 0 pageCount (-1) }

/-- The large path of `kmalloc`. -/
def kmallocLarge (h : Heap) (size : ℕ) : Heap × ℕ :=
  let r := h.buddy.buddyAlloc size
  if r.2 = 0 then ({ h with buddy := r.1 }, 0)
  else
    let pages := u64 (size + pageSize - 1) / pageSize
    let base := h.addrToPageIdx r.2
    ({ h with buddy := r.1, pagePoolIdx := Buddy.setFrames h.pagePoolIdx base pages (-1) }, r.2)

/-- Request a page for the pool and slice it; the result `0` is an allocation failure, any other
result the page. -/
def refill (h : Heap) (pidx : ℕ) : Heap × ℕ :=
  let r := h.buddy.buddyAlloc pageSize
  if r.2 = 0 then ({ h with buddy := r.1 }, 0)
  else
    let pgIdx := h.addrToPageIdx r.2
    let chunkSz := (h.pools pidx).chunkSize
    let s := sliceChunks r.2 chunkSz (pageSize / chunkSz) ((h.pools pidx).freeList, h.mem)
    ({ h with
        buddy := r.1
        pagePoolIdx := Function.update h.pagePoolIdx pgIdx pidx
        mem := s.2 }.setFreeList pidx s.1, r.2)

/-- Pop one chunk from the free list of the pool. -/
def popChunk (h : Heap) (pidx : ℕ) : Heap × ℕ :=
  let chunk := (h.pools pidx).freeList
  (h.setFreeList pidx (h.mem chunk), chunk)

/-- The small path of `kmalloc`. -/
def kmallocSmall (h : Heap) (pidx : ℕ) : Heap × ℕ :=
  if (h.pools pidx).freeList = 0 then
    let r := h.refill pidx
    if r.2 = 0 then (r.1, 0) else r.1.popChunk pidx
  else h.popChunk pidx

/-- `kmalloc`. -/
def kmalloc (h : Heap) (size : ℕ) : Heap × ℕ :=
  if size = 0 then (h, 0)
  else
    match findPool size with
    | none => h.kmallocLarge size
    | some pidx => h.kmallocSmall pidx

/-- `kfree`. -/
def kfree (h : Heap) (ptr : ℕ) : Heap :=
  if ptr = 0 then h
  else
    let pidx := h.pagePoolIdx (h.addrToPageIdx (pageDown ptr))
    if pidx < 0 then { h with buddy := h.buddy.buddyFree ptr }
    else
      { h with mem := Function.update h.mem ptr (h.pools pidx.toNat).freeList }.setFreeList
        pidx.toNat ptr

end Heap
end OscKernel
