import OscKernel.Buddy.Operations
import OscKernel.Lib.Transition

/-!
# Runs of the page allocator

The allocator after boot together with the pointers its callers hold: a caller may request any
size at any time and may give back any pointer it holds.  `PageClient.step` is one call,
`Represents` is what the frame array and the free lists mean, and
`represents_of_reachable` says that they mean it after `buddy_build_free_lists` and after every
call of every run.

## What is held

A pointer is held from the call that returned it until it is freed.  A block whose address is `NULL`
is allocated and held by nobody, and a region that ends at the end of the address space has the end
`0`, with which `buddy_free` refuses every address; both are in the representation (`held`), so that
neither is excluded from the runs.

Sizes are not bounded: a request of `0` bytes, one that is too large, and one whose rounding wraps
are calls like the others.

## The region

The region may begin and end anywhere in the address space.  `buddy_init` is given the number of
whole pages in it, and what is behind the last one is not managed.  The frame array may hold
anything before `buddy_init`, and the reservations may overlap and reach outside the region.
-/

namespace OscKernel

open DyadicBlock Buddy Transition

/-- A call of the page allocator. -/
inductive PageCall where
  | alloc (size : ℕ)
  | free (ptr : ℕ)

/-- The page allocator and the pointers that were returned and not freed since. -/
structure PageClient where
  buddy : Buddy
  live : List ℕ

/-- One call.  Only a pointer that is held can be freed; a `NULL` result gives nothing to hold. -/
def PageClient.step (s : PageClient) : PageCall → Option PageClient
  | .alloc size =>
      let r := s.buddy.buddyAlloc size
      some ⟨r.1, if r.2 = 0 then s.live else r.2 :: s.live⟩
  | .free ptr =>
      if ptr ∈ s.live then some ⟨s.buddy.buddyFree ptr, s.live.erase ptr⟩ else none

/-- `buddy_init` and the calls of `buddy_reserve`. -/
def reservedBuddy (fa : ℕ → ℤ) (base size : ℕ) (reserves : List (ℕ × ℕ)) : Buddy :=
  reserves.foldl (fun b r => b.buddyReserve r.1 r.2) (buddyInit fa base size (size / pageSize))

/-- The allocator as boot leaves it: nobody holds a pointer. -/
def bootPages (fa : ℕ → ℤ) (base size : ℕ) (reserves : List (ℕ × ℕ)) : PageClient :=
  ⟨(reservedBuddy fa base size reserves).buddyBuildFreeLists, []⟩

/-! ## What the state represents -/

/-- **The representation.**  `fa₀` is the frame array at the time the free lists were built. -/
structure Represents (fa₀ : ℕ → ℤ) (s : PageClient) : Prop where
  /-- Every frame is reserved, or in exactly one free block, or in exactly one allocated block. -/
  partition : ∀ j < s.buddy.gTotalPages,
    (s.buddy.frameArray j = frameReserved ∧
      (∀ i k, s.buddy.FreeBlock i k → j ∉ block i k) ∧
      ∀ i k, s.buddy.AllocBlock i k → j ∉ block i k) ∨
    (s.buddy.frameArray j ≠ frameReserved ∧
      (∃! p : ℕ × ℕ, s.buddy.FreeBlock p.1 p.2 ∧ j ∈ block p.1 p.2) ∧
      ∀ i k, s.buddy.AllocBlock i k → j ∉ block i k) ∨
    (s.buddy.frameArray j ≠ frameReserved ∧
      (∀ i k, s.buddy.FreeBlock i k → j ∉ block i k) ∧
      ∃! p : ℕ × ℕ, s.buddy.AllocBlock p.1 p.2 ∧ j ∈ block p.1 p.2)
  /-- Blocks are aligned and lie wholly inside the region. -/
  wellPlaced : ∀ i k, s.buddy.FreeBlock i k ∨ s.buddy.AllocBlock i k →
    k ≤ maxOrder ∧ 2 ^ k ∣ i ∧ i + 2 ^ k ≤ s.buddy.gTotalPages
  /-- An index is on the list of order `k`, exactly once, iff its frame holds `k`. -/
  onList : ∀ k ≤ maxOrder, ∀ i < s.buddy.gTotalPages,
    (s.buddy.freeList k).count i = if s.buddy.frameArray i = k then 1 else 0
  tail : ∀ i k, s.buddy.FreeBlock i k → ∀ j ∈ block i k, j ≠ i →
    s.buddy.frameArray j = frameFreePart
  /-- The frames of an allocated block hold its tag, which gives back the order and is no value of
  a free or a reserved frame. -/
  tag : ∀ i k, s.buddy.AllocBlock i k → ∀ j ∈ block i k,
    s.buddy.frameArray j = allocTag i k ∧ getAllocOrder (s.buddy.frameArray j) = k ∧
      s.buddy.frameArray j ≠ frameFreePart ∧ s.buddy.frameArray j ≠ frameReserved ∧
      ∀ v ≤ maxOrder, s.buddy.frameArray j ≠ (v : ℤ)
  reserved : ∀ j < s.buddy.gTotalPages,
    s.buddy.frameArray j = frameReserved ↔ fa₀ j = frameReserved
  /-- The held pointers are addresses of allocated blocks, each held once. -/
  live : ∀ p ∈ s.live, p ≠ 0 ∧ ∃ i k, s.buddy.AllocBlock i k ∧ p = s.buddy.idxToAddr i
  live_nodup : s.live.Nodup
  /-- An allocated block is held, unless its address is `NULL` or the end of the region wraps to
  `0`, so that `buddy_free` refuses every address. -/
  held : ∀ i k, s.buddy.AllocBlock i k →
    s.buddy.idxToAddr i ∈ s.live ∨ s.buddy.idxToAddr i = 0 ∨ s.buddy.gBuddyEnd = 0
  /-- Held blocks overlap neither one another nor a free block nor a reserved frame. -/
  disjoint : ∀ p ∈ s.live, ∀ i k, s.buddy.AllocBlock i k → p = s.buddy.idxToAddr i →
    (∀ q ∈ s.live, q ≠ p → ∀ i' k', s.buddy.AllocBlock i' k' → q = s.buddy.idxToAddr i' →
      Disjoint (block i k) (block i' k')) ∧
    (∀ i' k', s.buddy.FreeBlock i' k' → Disjoint (block i k) (block i' k')) ∧
    ∀ j ∈ block i k, s.buddy.frameArray j ≠ frameReserved

/-! ## The invariant of a run -/

/-- What every call preserves. -/
structure PageClient.Ok (fa₀ : ℕ → ℤ) (s : PageClient) : Prop where
  inv : s.buddy.Inv
  region : s.buddy.gBuddyBase + s.buddy.gTotalPages * pageSize ≤ 2 ^ 64
  /-- The last page may be followed by less than a page, which no block has. -/
  «end» : ∃ e, s.buddy.gBuddyBase + s.buddy.gTotalPages * pageSize ≤ e ∧ e ≤ 2 ^ 64 ∧
    s.buddy.gBuddyEnd = u64 e
  reserved : ∀ j < s.buddy.gTotalPages,
    s.buddy.frameArray j = frameReserved ↔ fa₀ j = frameReserved
  live : ∀ p ∈ s.live, p ≠ 0 ∧ ∃ i k, s.buddy.AllocBlock i k ∧ p = s.buddy.idxToAddr i
  live_nodup : s.live.Nodup
  held : ∀ i k, s.buddy.AllocBlock i k →
    s.buddy.idxToAddr i ∈ s.live ∨ s.buddy.idxToAddr i = 0 ∨ s.buddy.gBuddyEnd = 0

namespace PageClient

variable {fa₀ : ℕ → ℤ} {s s' : PageClient}

/-- Two allocated blocks at one address are one block. -/
theorem Ok.block_unique (h : s.Ok fa₀) {i k i' k' : ℕ} (ha : s.buddy.AllocBlock i k)
    (ha' : s.buddy.AllocBlock i' k') (haddr : s.buddy.idxToAddr i = s.buddy.idxToAddr i') :
    i = i' ∧ k = k' := by
  obtain rfl := idxToAddr_inj h.region ha.index_lt ha'.index_lt haddr
  exact ha.unique ha' (self_mem_block _ _) (self_mem_block _ _)

/-- The invariant gives the representation. -/
theorem Ok.represents (h : s.Ok fa₀) : Represents fa₀ s := by
  have hfree_res : ∀ {i k j}, s.buddy.FreeBlock i k → j ∈ block i k →
      s.buddy.frameArray j ≠ frameReserved := fun hf hj hr =>
    not_isFreeVal_reserved (hr ▸ h.inv.isFreeVal hf hj)
  have hfree_alloc : ∀ {i k i' k' j}, s.buddy.FreeBlock i k → s.buddy.AllocBlock i' k' →
      j ∈ block i k → j ∉ block i' k' := fun hf ha hj =>
    Set.disjoint_left.mp (h.inv.free_alloc_disjoint hf ha) hj
  refine ⟨fun j hj => ?partition, ?wellPlaced, fun k hk i hi => ?onList,
    fun i k hf j hj hne => h.inv.tail hf hj hne, fun i k ha j hj => ?tag, h.reserved, h.live,
    h.live_nodup, h.held, ?disjoint⟩
  case partition =>
    rcases h.inv.cover j hj (Set.notMem_empty j) with hr | ⟨i, k, hf, hmem⟩ | ⟨i, k, ha, hmem, -⟩
    · exact Or.inl ⟨hr, fun i k hf hmem => hfree_res hf hmem hr,
        fun i k ha hmem => ha.ne_reserved hmem hr⟩
    · refine Or.inr (Or.inl ⟨hfree_res hf hmem, ⟨(i, k), ⟨hf, hmem⟩, fun p hp => ?_⟩,
        fun i' k' ha hmem' => hfree_alloc hf ha hmem hmem'⟩)
      obtain ⟨h1, h2⟩ := h.inv.free_unique hp.1 hf hp.2 hmem
      exact Prod.ext h1 h2
    · refine Or.inr (Or.inr ⟨ha.ne_reserved hmem, fun i' k' hf hmem' =>
        hfree_alloc hf ha hmem' hmem, ⟨(i, k), ⟨ha, hmem⟩, fun p hp => ?_⟩⟩)
      obtain ⟨h1, h2⟩ := hp.1.unique ha hp.2 hmem
      exact Prod.ext h1 h2
  case wellPlaced =>
    rintro i k (hf | ha)
    · exact ⟨hf.1, h.inv.aligned hf, h.inv.inside hf⟩
    · exact ⟨ha.order_le, ha.aligned, ha.inside⟩
  case onList =>
    split_ifs with hfa
    · have hf := h.inv.freeBlock_of_frame hi (Set.notMem_empty i) hk hfa
      exact List.count_eq_one_of_mem (h.inv.nodup k hk) hf.2
    · exact List.count_eq_zero_of_not_mem fun hmem => hfa (h.inv.head ⟨hk, hmem⟩)
  case tag =>
    rw [ha.tagged j hj]
    exact ⟨rfl, getAllocOrder_allocTag ha.order_le, allocTag_ne_freePart ha.order_le,
      allocTag_ne_reserved ha.order_le, fun v hv => allocTag_ne_order i k hv⟩
  case disjoint =>
    intro p _ i k ha hp
    refine ⟨fun q _ hqp i' k' ha' hq => ?_, fun i' k' hf => ?_, fun j hj => ha.ne_reserved hj⟩
    · rw [Set.disjoint_left]
      intro j hj hj'
      obtain ⟨rfl, rfl⟩ := ha.unique ha' hj hj'
      exact hqp (hq.trans hp.symm)
    · exact (h.inv.free_alloc_disjoint hf ha).symm

/-- `buddy_alloc` keeps the invariant of a run. -/
theorem Ok.alloc (h : s.Ok fa₀) (size : ℕ) (hs : s.step (.alloc size) = some s') : s'.Ok fa₀ := by
  rw [step, Option.some_inj] at hs
  subst hs
  rcases buddyAlloc_cases h.inv size with hnull | ⟨i, b', hcall, hinv, hg⟩
  · rw [hnull]
    exact h
  · rw [hcall]
    simp only
    have haddr : ∀ i, b'.idxToAddr i = s.buddy.idxToAddr i := fun i => hg.toSameRegion.idxToAddr
    have hnew := hg.allocBlock
    have hfresh : ¬ s.buddy.AllocBlock i (requestOrder size) := fun ha =>
      ha.not_isFreeVal (self_mem_block _ _) (owner_eq_none.mp (hg.free i (self_mem_block _ _)))
    have hlive : ∀ p ∈ s.live, p ≠ 0 ∧ ∃ i k, b'.AllocBlock i k ∧ p = b'.idxToAddr i := by
      intro p hp
      obtain ⟨hp0, i', k', ha, rfl⟩ := h.live p hp
      exact ⟨hp0, i', k', hg.allocBlock_iff.mpr (Or.inl ha), (haddr i').symm⟩
    have hreg : b'.gBuddyBase + b'.gTotalPages * pageSize =
        s.buddy.gBuddyBase + s.buddy.gTotalPages * pageSize := by
      rw [hg.base, hg.pages]
    refine ⟨hinv, hreg ▸ h.region, ?end_eq, fun j hj => ?reserved, ?live, ?live_nodup, ?held⟩
    case end_eq =>
      simp only [hreg, hg.end]
      exact h.end
    case reserved => exact hg.reserved_iff.trans (h.reserved j (hg.pages ▸ hj))
    case live =>
      split_ifs with h0
      · exact hlive
      · intro p hp
        rcases List.mem_cons.mp hp with rfl | hp
        · exact ⟨h0, i, _, hnew, (haddr i).symm⟩
        · exact hlive p hp
    case live_nodup =>
      split_ifs with h0
      · exact h.live_nodup
      · refine List.nodup_cons.mpr ⟨fun hmem => ?_, h.live_nodup⟩
        obtain ⟨-, i', k', ha, heq⟩ := h.live _ hmem
        obtain rfl := idxToAddr_inj h.region hg.index_lt ha.index_lt heq
        exact ha.not_isFreeVal (self_mem_block _ _)
          (owner_eq_none.mp (hg.free i (self_mem_block _ _)))
    case held =>
      intro i' k' ha
      rw [haddr, hg.end]
      rcases hg.allocBlock_iff.mp ha with ha | ⟨rfl, rfl⟩
      · rcases h.held i' k' ha with hmem | hz
        · left
          split_ifs with h0
          · exact hmem
          · exact List.mem_cons_of_mem _ hmem
        · exact Or.inr hz
      · split_ifs with h0
        · exact Or.inr (Or.inl h0)
        · exact Or.inl List.mem_cons_self

/-- `buddy_free` of a held pointer keeps the invariant of a run. -/
theorem Ok.free (h : s.Ok fa₀) (ptr : ℕ) (hs : s.step (.free ptr) = some s') : s'.Ok fa₀ := by
  rw [step] at hs
  split_ifs at hs with hmem
  rw [Option.some_inj] at hs
  subst hs
  obtain ⟨hp0, i, k, ha, rfl⟩ := h.live ptr hmem
  have hsub : ∀ p ∈ s.live.erase (s.buddy.idxToAddr i), p ∈ s.live :=
    fun p hp => List.mem_of_mem_erase hp
  have hpos : pageSize = 4096 := rfl
  have hi := ha.index_lt
  rcases buddyFree_cases h.inv ha h.region with ⟨hz, hsame⟩ | ⟨hinv, hrel⟩
  · -- the guard refuses the address, which can only be because the end of the region wraps
    have hend : s.buddy.gBuddyEnd = 0 := by
      have hge := hz.resolve_left hp0
      rw [idxToAddr_eq h.region hi] at hge
      obtain ⟨e, hle, htop, hend⟩ := h.end
      rw [hpos] at hge hle
      unfold u64 at hend
      omega
    rw [hsame]
    exact ⟨h.inv, h.region, h.end, h.reserved, fun p hp => h.live p (hsub p hp),
      h.live_nodup.erase _, fun i' k' _ => Or.inr (Or.inr hend)⟩
  · have haddr : ∀ x, (s.buddy.buddyFree (s.buddy.idxToAddr i)).idxToAddr x =
        s.buddy.idxToAddr x := fun x => hrel.toSameRegion.idxToAddr
    refine ⟨hinv, ?region, ?end_eq, fun j hj => ?reserved, fun p hp => ?live, h.live_nodup.erase _,
      fun i' k' ha' => ?held⟩
    case region =>
      simp only [hrel.base, hrel.pages]
      exact h.region
    case end_eq =>
      simp only [hrel.base, hrel.pages, hrel.end]
      exact h.end
    case reserved => exact (hrel.reserved_iff ha).trans (h.reserved j (hrel.pages ▸ hj))
    case live =>
      obtain ⟨hne, i', k', ha', rfl⟩ := h.live p (hsub p hp)
      refine ⟨hne, i', k', (hrel.allocBlock_iff ha).mpr ⟨ha', ?_⟩, (haddr i').symm⟩
      rintro ⟨rfl, rfl⟩
      exact (h.live_nodup.mem_erase_iff.mp hp).1 rfl
    case held =>
      obtain ⟨ha', hne⟩ := (hrel.allocBlock_iff ha).mp ha'
      simp only [haddr, hrel.end]
      rcases h.held i' k' ha' with hmem' | hz
      · refine Or.inl (h.live_nodup.mem_erase_iff.mpr ⟨fun heq => hne ?_, hmem'⟩)
        exact h.block_unique ha' ha heq
      · exact Or.inr hz

theorem Ok.step {c : PageCall} (h : s.Ok fa₀) (hs : s.step c = some s') : s'.Ok fa₀ := by
  cases c with
  | alloc size => exact h.alloc size hs
  | free ptr => exact h.free ptr hs

end PageClient

/-! ## Boot -/

/-- The frames hold `FRAME_FREE_PART` or `FRAME_RESERVED` and the lists are empty: the state in
which `buddy_build_free_lists` is called. -/
structure Unbuilt (b : Buddy) (base size : ℕ) : Prop where
  base_eq : b.gBuddyBase = base
  end_eq : b.gBuddyEnd = u64 (base + size)
  pages_eq : b.gTotalPages = size / pageSize
  lists : ∀ k, b.freeList k = []
  frames : ∀ j < b.gTotalPages, b.frameArray j = frameFreePart ∨ b.frameArray j = frameReserved

theorem unbuilt_buddyInit (fa : ℕ → ℤ) (base size : ℕ) :
    Unbuilt (buddyInit fa base size (size / pageSize)) base size :=
  ⟨rfl, rfl, rfl, fun _ => rfl, fun j hj => Or.inl (if_pos ⟨Nat.zero_le j, by
    rw [Nat.zero_add]; exact hj⟩)⟩

theorem Unbuilt.buddyReserve {b : Buddy} {base size : ℕ} (h : Unbuilt b base size)
    (start «end» : ℕ) : Unbuilt (b.buddyReserve start «end») base size := by
  unfold Buddy.buddyReserve
  dsimp only
  split_ifs
  all_goals first
    | exact h
    | refine ⟨h.base_eq, h.end_eq, h.pages_eq, h.lists, fun j hj => ?_⟩
      dsimp only [setFrames]
      split_ifs
      · exact Or.inr rfl
      · exact h.frames j hj

theorem unbuilt_reservedBuddy (fa : ℕ → ℤ) (base size : ℕ) (reserves : List (ℕ × ℕ)) :
    Unbuilt (reservedBuddy fa base size reserves) base size := by
  unfold reservedBuddy
  generalize hb : buddyInit fa base size (size / pageSize) = b
  have h : Unbuilt b base size := hb ▸ unbuilt_buddyInit fa base size
  clear hb
  induction reserves generalizing b with
  | nil => exact h
  | cons r rs ih => exact ih _ (h.buddyReserve r.1 r.2)

/-- Before the lists are built no frame is allocated, and every frame that is not reserved waits
to be scanned. -/
theorem Unbuilt.built {b : Buddy} {base size : ℕ} (h : Unbuilt b base size) :
    b.buddyBuildFreeLists.Inv ∧ SameOwners b b.buddyBuildFreeLists := by
  have hfree : ∀ {i k}, ¬ b.FreeBlock i k := fun hf => by
    have := hf.2
    rw [h.lists] at this
    exact List.not_mem_nil this
  refine inv_buildLoop (by omega) ⟨fun k _ => by rw [h.lists]; exact List.nodup_nil,
    fun hf => absurd hf hfree, fun hf => absurd hf hfree, fun hf => absurd hf hfree,
    fun hf => absurd hf hfree, fun hf => absurd hf hfree, fun j hj hoff => ?_⟩
    fun j _ hne hj => ?_
  · refine Or.inl (by_contra fun hne => hoff ⟨Nat.zero_le j, hj, hne⟩)
  · rw [owner_eq_none, (h.frames j hj).resolve_right hne]
    exact isFreeVal_freePart

/-- When the lists have been built no block is allocated: the owners are those before. -/
theorem Unbuilt.not_allocBlock {b : Buddy} {base size i k : ℕ} (h : Unbuilt b base size) :
    ¬ b.buddyBuildFreeLists.AllocBlock i k := by
  intro ha
  obtain ⟨-, hsame⟩ := h.built
  have hi : i < b.gTotalPages := by
    rw [← hsame.pages]
    exact ha.index_lt
  have hown := (hsame.owner i).symm.trans (ha.owner (self_mem_block i k))
  rcases h.frames i hi with hf | hf
  · rw [owner_eq_none.mpr (hf ▸ isFreeVal_freePart)] at hown
    exact absurd hown (by simp)
  · rw [(owner_eq_some not_isFreeVal_reserved).mpr hf, Option.some_inj] at hown
    exact absurd hown.symm (allocTag_ne_reserved ha.order_le)

/-- When the lists have been built every frame that is not reserved is in a free block. -/
theorem Unbuilt.exists_free {b : Buddy} {base size j : ℕ} (h : Unbuilt b base size)
    (hj : j < b.gTotalPages) (hr : b.frameArray j ≠ frameReserved) :
    ∃ i k, b.buddyBuildFreeLists.FreeBlock i k ∧ j ∈ block i k := by
  obtain ⟨hinv, hsame⟩ := h.built
  rcases hinv.cover j (hsame.pages.symm ▸ hj) (Set.notMem_empty j) with
    hres | hfree | ⟨i, k, ha, -⟩
  · rw [← owner_eq_some not_isFreeVal_reserved, hsame.owner,
      owner_eq_some not_isFreeVal_reserved] at hres
    exact absurd hres hr
  · obtain ⟨i, k, hf, hmem⟩ := hfree
    exact ⟨i, k, hf, hmem⟩
  · exact absurd ha h.not_allocBlock

/-- The invariant of a run holds when the free lists have been built. -/
theorem ok_bootPages (fa : ℕ → ℤ) {base size : ℕ} (hend : base + size ≤ 2 ^ 64)
    (reserves : List (ℕ × ℕ)) :
    (bootPages fa base size reserves).Ok (reservedBuddy fa base size reserves).frameArray := by
  have h := unbuilt_reservedBuddy fa base size reserves
  obtain ⟨hinv, hsame⟩ := h.built
  have hbytes : size / pageSize * pageSize ≤ size := Nat.div_mul_le_self size pageSize
  have hbuddy : (bootPages fa base size reserves).buddy =
      (reservedBuddy fa base size reserves).buddyBuildFreeLists := rfl
  have hreserved : ∀ j, (reservedBuddy fa base size reserves).buddyBuildFreeLists.frameArray j =
      frameReserved ↔ (reservedBuddy fa base size reserves).frameArray j = frameReserved :=
    fun j => by
      rw [← owner_eq_some not_isFreeVal_reserved, ← owner_eq_some not_isFreeVal_reserved,
        hsame.owner]
  refine ⟨hinv, ?_, ?_, fun j _ => hreserved j, fun p hp => absurd hp List.not_mem_nil,
    List.nodup_nil, fun i k ha => absurd ha h.not_allocBlock⟩
  · rw [hbuddy, hsame.base, hsame.pages, h.base_eq, h.pages_eq]
    omega
  · rw [hbuddy, hsame.base, hsame.pages, h.base_eq, h.pages_eq, hsame.end, h.end_eq]
    exact ⟨base + size, Nat.add_le_add_left hbytes base, hend, rfl⟩

/-- **The representation over whole runs.**  For every region inside the address space, of which the
allocator manages the whole pages, and every list of reservations, the state after the free lists
are built and after every call of every run of allocations and frees represents a partition of these
pages into reserved frames, free blocks and allocated blocks. -/
theorem represents_of_reachable (fa : ℕ → ℤ) {base size : ℕ} (hend : base + size ≤ 2 ^ 64)
    (reserves : List (ℕ × ℕ)) {s : PageClient}
    (hs : Reachable PageClient.step anyStep (bootPages fa base size reserves) s) :
    Represents (reservedBuddy fa base size reserves).frameArray s := by
  refine (hs.invariant (P := PageClient.Ok (reservedBuddy fa base size reserves).frameArray)
    (ok_bootPages fa hend reserves) fun s c s' h _ hstep => h.step hstep).represents

/-- A gigabyte at `0x80000000` with its first two megabytes reserved, after two allocations. -/
theorem represents_of_two_allocs :
    ∃ s, runList PageClient.step
        (bootPages (fun _ => 0) 0x80000000 0x40000000 [(0x80000000, 0x80200000)])
        [.alloc 5000, .alloc 8192] = some s ∧
      Represents (reservedBuddy (fun _ => 0) 0x80000000 0x40000000
        [(0x80000000, 0x80200000)]).frameArray s := by
  obtain ⟨s, hs⟩ := Option.isSome_iff_exists.mp (show (runList PageClient.step
    (bootPages (fun _ => 0) 0x80000000 0x40000000 [(0x80000000, 0x80200000)])
    [.alloc 5000, .alloc 8192]).isSome = true from rfl)
  exact ⟨s, hs, represents_of_reachable (fun _ => 0) (by decide) _
    (reachable_of_runList hs)⟩

end OscKernel
