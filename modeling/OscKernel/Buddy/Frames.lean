import OscKernel.Word

/-!
# The buddy allocator (`buddy.c`)

The state of the page allocator and its operations, function by function.

The frame array is a function from frame indices to the `int` stored there.  A free list is an
intrusive circular list whose nodes live at the start of free pages; here it is the sequence of
frame indices it holds, head first, so `list_add` is `cons`, `list_empty` is the test for `[]`, and
`list_del` removes the node from whatever list it is on.

A loop that writes one value to consecutive frames is `setFrames`; the other loops are recursions
on an explicit bound that their own counter never exceeds.
-/

namespace OscKernel

/-- `MAX_ORDER`: the largest block is `2 ^ 16` pages. -/
def maxOrder : ℕ := 16

/-- `FRAME_FREE_PART`: free, part of a larger block. -/
def frameFreePart : ℤ := -1

/-- `FRAME_RESERVED`: never allocatable. -/
def frameReserved : ℤ := -2

/-- `ALLOC_TAG(idx, order)`: bit 30, the index shifted by eight, and the order, cast to `int`. -/
def allocTag (idx order : ℕ) : ℤ := toInt32 (2 ^ 30 ||| u64 (idx <<< 8) ||| order)

/-- `GET_ALLOC_ORDER(val)`: `val & 0xFF`. -/
def getAllocOrder (val : ℤ) : ℕ := (val % 256).toNat

/-- The static state of `buddy.c`. -/
structure Buddy where
  gBuddyBase : ℕ
  gBuddyEnd : ℕ
  gTotalPages : ℕ
  frameArray : ℕ → ℤ
  freeList : ℕ → List ℕ

namespace Buddy

/-- `idx_to_addr`. -/
def idxToAddr (b : Buddy) (idx : ℕ) : ℕ := u64 (b.gBuddyBase + idx * pageSize)

/-- `addr_to_idx`. -/
def addrToIdx (b : Buddy) (addr : ℕ) : ℕ := subU64 addr b.gBuddyBase / pageSize

/-- The loop `while (block < pages)` of `pages_to_order`. -/
def pagesToOrderLoop (pages : ℕ) : ℕ → ℕ → ℕ → ℕ
  | 0, _, order => order
  | fuel + 1, block, order =>
      if block < pages then pagesToOrderLoop pages fuel (block <<< 1) (order + 1) else order

/-- `pages_to_order`: the smallest order whose block holds `pages` pages. -/
def pagesToOrder (pages : ℕ) : ℕ := pagesToOrderLoop pages 64 1 0

/-- `for (i = 0; i < n; i++) frame_array[start + i] = v`. -/
def setFrames (fa : ℕ → ℤ) (start n : ℕ) (v : ℤ) : ℕ → ℤ :=
  fun j => if start ≤ j ∧ j < start + n then v else fa j

/-- `block_push`: write the head and the tail of the block, put it in front of its free list. -/
def blockPush (b : Buddy) (idx order : ℕ) : Buddy :=
  { b with
    frameArray :=
      setFrames (Function.update b.frameArray idx order) (idx + 1) (2 ^ order - 1) frameFreePart
    freeList := Function.update b.freeList order (idx :: b.freeList order) }

/-- `block_pop`: `list_del` of the node at `idx`. -/
def blockPop (b : Buddy) (idx _order : ℕ) : Buddy :=
  { b with freeList := fun k => (b.freeList k).erase idx }

/-- `buddy_init`; `fa` is what the memory of the frame array held before. -/
def buddyInit (fa : ℕ → ℤ) (base size frameCount : ℕ) : Buddy where
  gBuddyBase := base
  gBuddyEnd := u64 (base + size)
  gTotalPages := frameCount
  frameArray := setFrames fa 0 frameCount frameFreePart
  freeList := fun _ => []

/-- `buddy_reserve`: round outwards, clamp to the region, mark the frames. -/
def buddyReserve (b : Buddy) (start «end» : ℕ) : Buddy :=
  let start := pageDown start
  let «end» := pageUp «end»
  let start := if start < b.gBuddyBase then b.gBuddyBase else start
  let «end» := if «end» > b.gBuddyEnd then b.gBuddyEnd else «end»
  if start ≥ «end» then b
  else
    let first := b.addrToIdx start
    let last := b.addrToIdx «end»
    { b with frameArray := setFrames b.frameArray first (last - first) frameReserved }

/-- The inner loop of `buddy_build_free_lists`: the largest order at most the given one whose
block at `idx` is aligned, fits and holds no reserved frame. -/
def buildOrder (b : Buddy) (idx : ℕ) : ℕ → ℕ
  | 0 => 0
  | order + 1 =>
      if idx &&& (2 ^ (order + 1) - 1) ≠ 0 ∨ idx + 2 ^ (order + 1) > b.gTotalPages then
        buildOrder b idx order
      else if ∀ k < 2 ^ (order + 1), b.frameArray (idx + k) ≠ frameReserved then order + 1
      else buildOrder b idx order

/-- The loop `while (idx < g_total_pages)` of `buddy_build_free_lists`. -/
def buildLoop : ℕ → Buddy → ℕ → Buddy
  | 0, b, _ => b
  | fuel + 1, b, idx =>
      if idx < b.gTotalPages then
        if b.frameArray idx = frameReserved then buildLoop fuel b (idx + 1)
        else
          let order := b.buildOrder idx maxOrder
          buildLoop fuel (b.blockPush idx order) (idx + 2 ^ order)
      else b

/-- `buddy_build_free_lists`. -/
def buddyBuildFreeLists (b : Buddy) : Buddy := buildLoop b.gTotalPages b 0

/-- `while (current_order <= MAX_ORDER && list_empty(&free_list[current_order]))`. -/
def searchUp (b : Buddy) : ℕ → ℕ → ℕ
  | 0, currentOrder => currentOrder
  | fuel + 1, currentOrder =>
      if currentOrder ≤ maxOrder ∧ b.freeList currentOrder = [] then
        searchUp b fuel (currentOrder + 1)
      else currentOrder

/-- The split loop of `buddy_alloc`: release the upper half until the target order is reached. -/
def splitDown (idx targetOrder : ℕ) : ℕ → Buddy → Buddy
  | 0, b => b
  | currentOrder + 1, b =>
      if currentOrder + 1 > targetOrder then
        splitDown idx targetOrder currentOrder (b.blockPush (idx + 2 ^ currentOrder) currentOrder)
      else b

/-- `buddy_alloc`; the result `0` is `NULL`. -/
def buddyAlloc (b : Buddy) (size : ℕ) : Buddy × ℕ :=
  if size = 0 then (b, 0)
  else
    let pagesNeeded := u64 (size + pageSize - 1) / pageSize
    let targetOrder := pagesToOrder pagesNeeded
    if targetOrder > maxOrder then (b, 0)
    else
      let currentOrder := b.searchUp (maxOrder + 1) targetOrder
      if currentOrder > maxOrder then (b, 0)
      else
        match b.freeList currentOrder with
        | [] => (b, 0)
        | idx :: _ =>
            let b := splitDown idx targetOrder currentOrder (b.blockPop idx currentOrder)
            ({ b with
                frameArray :=
                  setFrames b.frameArray idx (2 ^ targetOrder) (allocTag idx targetOrder) },
              b.idxToAddr idx)

/-- The coalescing loop of `buddy_free`: the state, `cur_idx` and `cur_order` at its end. -/
def coalesce : ℕ → Buddy → ℕ → ℕ → Buddy × ℕ × ℕ
  | 0, b, curIdx, curOrder => (b, curIdx, curOrder)
  | fuel + 1, b, curIdx, curOrder =>
      if curOrder < maxOrder then
        let buddyIdx := curIdx ^^^ 2 ^ curOrder
        if buddyIdx ≥ b.gTotalPages then (b, curIdx, curOrder)
        else if b.frameArray buddyIdx = frameReserved then (b, curIdx, curOrder)
        else if b.frameArray buddyIdx ≠ curOrder then (b, curIdx, curOrder)
        else
          coalesce fuel (b.blockPop buddyIdx curOrder)
            (if buddyIdx < curIdx then buddyIdx else curIdx) (curOrder + 1)
      else (b, curIdx, curOrder)

/-- `buddy_free`. -/
def buddyFree (b : Buddy) (ptr : ℕ) : Buddy :=
  if ptr = 0 then b
  else if ptr < b.gBuddyBase ∨ ptr ≥ b.gBuddyEnd then b
  else
    let idx := b.addrToIdx ptr
    if b.frameArray idx = frameReserved then b
    else
      let order := getAllocOrder (b.frameArray idx)
      let b := { b with frameArray := setFrames b.frameArray idx (2 ^ order) frameFreePart }
      let (b, curIdx, curOrder) := coalesce maxOrder b idx order
      b.blockPush curIdx curOrder

end Buddy
end OscKernel
