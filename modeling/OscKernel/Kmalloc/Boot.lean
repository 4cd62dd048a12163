import OscKernel.Kmalloc.Blocks
import OscKernel.Buddy.Startup

/-!
# Boot (`main.c`)

`main` registers the regions that must not be touched with the startup allocator, takes the memory
for `frame_array` and `page_pool_idx` from it, replays its table into the buddy allocator, and only
then builds the free lists.  After that memory is handed out by `kmalloc` and by `buddy_alloc`.

* `honoured_of_reachable`: what is handed out meets no page of a registered region and none of the
  metadata, whatever the regions are.
* `overlap_of_topPage`: when the memory reaches up to the end of the address space, it can.

## From the table to the frames

The regions are rounded to pages and clamped to the memory when they are registered, and rounded
once more when `buddy_reserve` writes their frames.  The two roundings agree because the clamped
ends are those of pages.  A frame that is reserved before the lists are built is in no block, and no
call changes it: that is the invariant of both allocators, and the run adds nothing to it.  The
regions may be in any order, overlap, and lie inside or outside the memory.

The two entries of the metadata are whole pages, so that they have the arrays and what is left of
their last pages.

## The end of the address space

The end of the memory is computed in `uint64_t`.  When the memory ends at `2 ^ 64` the end is `0`,
every region is clamped to nothing, and nothing is reserved.  The type of the size does not exclude
this, so that it is a condition; it leaves room for the sums with the length of `frame_array` that
the scan computes.  The regions are at most fourteen, as many as leave room for the metadata.
-/

namespace OscKernel

open DyadicBlock Buddy Startup Transition

/-! ## The code -/

/-- Steps 4 to 6 of `main`: the table of the startup allocator, and the addresses of `frame_array`
and `page_pool_idx`. -/
def mainMetadata (memBase memSize : ℕ) (regions : List (ℕ × ℕ)) : Option (Startup × ℕ × ℕ) :=
  let s := regions.foldl (fun s r => s.buddyStartupReserve r.1 r.2)
    (buddyStartupInit memBase memSize)
  let totalPages := memSize / pageSize
  (s.buddyStartupAlloc (u64 (totalPages * 4))).bind fun r =>
    (r.1.buddyStartupAlloc totalPages).map fun r' => (r'.1, r.2, r'.2)

/-- The allocators and what their callers hold: `pages` are the blocks that `buddy_alloc` returned
to callers other than `kmalloc`. -/
structure MemClient where
  client : HeapClient
  pages : List Grant

namespace MemClient

/-- A call of one of the allocators. -/
inductive Call where
  | heap (c : HeapClient.Call)
  | buddyAlloc (size : ℕ)
  | buddyFree (g : Grant)

/-- One call; only what is held can be freed. -/
def step (m : MemClient) : Call → Option MemClient
  | .heap c => (m.client.step c).map fun s => { m with client := s }
  | .buddyAlloc size =>
      let r := m.client.heap.buddy.buddyAlloc size
      some ⟨m.client.setHeap { m.client.heap with buddy := r.1 }, HeapClient.hold m.pages r.2 size⟩
  | .buddyFree g =>
      if g ∈ m.pages then
        some ⟨m.client.setHeap { m.client.heap with buddy := m.client.heap.buddy.buddyFree g.ptr },
          m.pages.erase g⟩
      else none

/-- The bytes of a block that `buddy_alloc` returned. -/
def pageBytes (g : Grant) : Set ℕ := Set.Ico g.ptr (g.ptr + 2 ^ requestOrder g.size * pageSize)

end MemClient

/-- Steps 4 to 6 of `main` succeed when both allocations do. -/
theorem mainMetadata_spec {base size : ℕ} {regions : List (ℕ × ℕ)} {st : Startup}
    {frameArray pagePoolIdx : ℕ}
    (h : mainMetadata base size regions = some (st, frameArray, pagePoolIdx)) :
    ∃ s', (regions.foldl (fun s r => s.buddyStartupReserve r.1 r.2)
        (buddyStartupInit base size)).buddyStartupAlloc (u64 (size / pageSize * 4)) =
          some (s', frameArray) ∧
      s'.buddyStartupAlloc (size / pageSize) = some (st, pagePoolIdx) := by
  obtain ⟨⟨s', fa⟩, h1, h2⟩ := Option.bind_eq_some_iff.mp h
  obtain ⟨⟨s'', ppi⟩, h3, h4⟩ := Option.map_eq_some_iff.mp h2
  obtain ⟨rfl, rfl, rfl⟩ : s'' = st ∧ fa = frameArray ∧ ppi = pagePoolIdx := by
    simpa [Prod.mk.injEq] using h4
  exact ⟨s', h1, h3⟩

/-- The state after steps 7 to 10 of `main`, when the table of the startup allocator is `table`. -/
def bootMem (fa : ℕ → ℤ) (base size : ℕ) (table : List (ℕ × ℕ)) (pools : ℕ → Pool)
    (ppi : ℕ → ℤ) (mem : ℕ → ℕ) : MemClient := ⟨bootHeap fa base size table pools ppi mem, []⟩

/-- The bytes of the pages that overlap a region. -/
def overlapped (r : ℕ × ℕ) : Set ℕ := {x | ∃ y ∈ Set.Ico r.1 r.2, pageDown x = pageDown y}

/-- `buddy_reserve` writes the frame `j`. -/
def Buddy.Writes (b : Buddy) (start «end» j : ℕ) : Prop :=
  (({ b with frameArray := fun _ => frameFreePart } : Buddy).buddyReserve
    start «end»).frameArray j =
    frameReserved

/-! ## The table -/

namespace Startup

variable {base size : ℕ} {s : Startup} {regions : List (ℕ × ℕ)}

/-- The table after the calls of `buddy_startup_reserve`: its entries are whole pages of the memory
and cover what the regions have of it. -/
structure Covers (base size : ℕ) (regions : List (ℕ × ℕ)) (s : Startup) : Prop where
  memBase : s.gSaMemBase = base
  memEnd : s.gSaMemEnd = base + size
  entry : ∀ e ∈ s.gSaReserves, StartupClient.Entry base size e
  covered : ∀ r ∈ regions, ∀ x ∈ overlapped r, base ≤ x → x < base + size →
    ∃ e ∈ s.gSaReserves, x ∈ StartupClient.bytes e

/-- A byte of a page that overlaps a region lies between its rounded ends. -/
theorem mem_overlapped {a b x : ℕ} (hx : x ∈ overlapped (a, b)) (hb : b + pageSize - 1 < 2 ^ 64) :
    pageDown a ≤ x ∧ x < pageUp b := by
  obtain ⟨y, ⟨h1, h2⟩, heq⟩ := hx
  rw [pageUp_of_lt hb]
  dsimp only at h1 h2
  unfold pageDown pageSize at *
  omega

theorem Covers.reserve (h : Covers base size regions s) (hbase : pageSize ∣ base)
    (hsize : pageSize ∣ size) (hlen : s.gSaReserves.length < buddyStartupMaxReserves) {a b : ℕ}
    (hb : b + pageSize - 1 < 2 ^ 64) :
    Covers base size ((a, b) :: regions) (s.buddyStartupReserve a b) := by
  rcases StartupClient.buddyStartupReserve_spec hbase hsize ⟨h.memBase, h.memEnd⟩ hlen (a := a)
    (b := b) with ⟨heq, hout⟩ | ⟨e, heq, he, hin⟩ <;> rw [heq]
  · refine ⟨h.memBase, h.memEnd, h.entry, fun r hr x hx h1 h2 => ?_⟩
    rcases List.mem_cons.mp hr with rfl | hr
    · obtain ⟨h3, h4⟩ := mem_overlapped hx hb
      exact absurd h2 (hout x h3 h4 h1)
    · exact h.covered r hr x hx h1 h2
  · refine ⟨h.memBase, h.memEnd, fun e' he' => ?_, fun r hr x hx h1 h2 => ?_⟩
    · rcases List.mem_append.mp he' with he' | he'
      · exact h.entry e' he'
      · exact List.mem_singleton.mp he' ▸ he
    · rcases List.mem_cons.mp hr with rfl | hr
      · obtain ⟨h3, h4⟩ := mem_overlapped hx hb
        exact ⟨e, List.mem_append_right _ (List.mem_singleton_self e), hin x h3 h4 h1 h2⟩
      · obtain ⟨e', he', hx'⟩ := h.covered r hr x hx h1 h2
        exact ⟨e', List.mem_append_left _ he', hx'⟩

/-- A call of `buddy_startup_reserve` adds at most one entry. -/
theorem length_buddyStartupReserve (s : Startup) (a b : ℕ) :
    (s.buddyStartupReserve a b).gSaReserves.length ≤ s.gSaReserves.length + 1 := by
  unfold buddyStartupReserve
  dsimp only
  split_ifs <;> simp

theorem memory_buddyStartupReserve (s : Startup) (a b : ℕ) :
    (s.buddyStartupReserve a b).gSaMemBase = s.gSaMemBase ∧
      (s.buddyStartupReserve a b).gSaMemEnd = s.gSaMemEnd := by
  unfold buddyStartupReserve
  dsimp only
  split_ifs <;> exact ⟨rfl, rfl⟩

/-- The regions of `main` fit into the table. -/
theorem covers_regions (hbase : pageSize ∣ base) (hsize : pageSize ∣ size)
    (hend : base + size < 2 ^ 64) (hlen : regions.length ≤ 14)
    (hreg : ∀ r ∈ regions, r.2 + pageSize - 1 < 2 ^ 64) :
    Covers base size regions (regions.foldl (fun s r => s.buddyStartupReserve r.1 r.2)
      (buddyStartupInit base size)) := by
  have key : ∀ (rs done : List (ℕ × ℕ)) (s : Startup), Covers base size done s →
      s.gSaReserves.length + rs.length ≤ 14 → (∀ r ∈ rs, r.2 + pageSize - 1 < 2 ^ 64) →
      Covers base size (rs.reverse ++ done)
        (rs.foldl (fun s r => s.buddyStartupReserve r.1 r.2) s) := by
    intro rs
    induction rs with
    | nil => exact fun done s h _ _ => h
    | cons r rs ih =>
      intro done s h hl hrs
      obtain ⟨hr, hrs⟩ := List.forall_mem_cons.mp hrs
      rw [List.length_cons] at hl
      have hone := length_buddyStartupReserve s r.1 r.2
      have hroom : s.gSaReserves.length < buddyStartupMaxReserves := by
        unfold buddyStartupMaxReserves
        omega
      have hrec := ih (r :: done) _ (h.reserve hbase hsize hroom (a := r.1) hr) (by omega) hrs
      rw [List.reverse_cons, List.append_assoc]
      exact hrec
  have h := key regions [] (buddyStartupInit base size)
    ⟨rfl, u64_of_lt hend, nofun, nofun⟩ (by rw [show (buddyStartupInit base size).gSaReserves = []
      from rfl, List.length_nil, Nat.zero_add]; exact hlen) hreg
  rw [List.append_nil] at h
  exact ⟨h.memBase, h.memEnd, h.entry, fun r hr => h.covered r (List.mem_reverse.mpr hr)⟩

/-- An allocation that succeeds becomes an entry of whole pages of the memory. -/
theorem Covers.alloc (h : Covers base size regions s) (hbase : pageSize ∣ base) {n ret : ℕ}
    {s' : Startup} (hn : base + size + StartupClient.roundUp n < 2 ^ 64)
    (halloc : s.buddyStartupAlloc n = some (s', ret)) (hret : ret ≠ 0) :
    Covers base size ((ret, ret + n) :: regions) s' := by
  obtain ⟨hfind, hmemBase, hmemEnd, hmem⟩ := buddyStartupAlloc_spec halloc
  have hup : pageUp n = StartupClient.roundUp n :=
    pageUp_of_lt (StartupClient.add_lt_of_roundUp_lt hn)
  have hloop : ret = saFindLoop (base + size) (StartupClient.roundUp n) base
      s.saSortReserves.gSaReserves := by
    rw [hfind, hup, ← h.memEnd, ← h.memBase]
    rfl
  have hin := saFindLoop_inside (l := s.saSortReserves.gSaReserves) hn hbase le_rfl
    (Nat.le_add_right _ _) fun e he => by
      have hentry := h.entry e (mem_saSort.mp he)
      exact ⟨hentry.end_dvd, hentry.base_le.trans hentry.le, hentry.le.trans hentry.le_end,
        hentry.le_end⟩
  rw [← hloop] at hin
  obtain ⟨hd, hlow, hhigh⟩ := hin hret
  have hround : pageSize ∣ ret + StartupClient.roundUp n := Nat.dvd_add hd (dvd_pageDown _)
  rw [hup, u64_of_lt (by omega)] at hmem
  refine ⟨hmemBase.trans h.memBase, hmemEnd.trans h.memEnd, fun e he => ?_,
    fun g hg x hx h1 h2 => ?_⟩
  · rcases (hmem e).mp he with he | ⟨-, rfl⟩
    · exact h.entry e he
    · exact ⟨hd, hround, hlow, Nat.le_add_right _ _, hhigh⟩
  · rcases List.mem_cons.mp hg with rfl | hg
    · refine ⟨_, (hmem _).mpr (Or.inr ⟨hret, rfl⟩), ?_⟩
      have hle := le_pageDown_add n
      obtain ⟨y, ⟨hy1, hy2⟩, heq⟩ := hx
      obtain ⟨q, hq⟩ := hd
      obtain ⟨q', hq'⟩ := hround
      unfold StartupClient.roundUp at hq' ⊢
      unfold StartupClient.bytes
      dsimp only at hy1 hy2 ⊢
      rw [Set.mem_Ico]
      unfold pageDown pageSize at *
      omega
    · obtain ⟨e, he, hxe⟩ := h.covered g hg x hx h1 h2
      exact ⟨e, (hmem e).mpr (Or.inl he), hxe⟩

end Startup

/-! ## The reservations -/

namespace Buddy

variable {b : Buddy} {base size i k j : ℕ}

/-- `buddy_reserve` marks the frames between the rounded ends, and no others. -/
theorem frameArray_buddyReserve (h : Unbuilt b base size) (hbase : pageSize ∣ base)
    (hend : base + size < 2 ^ 64) (start «end» : ℕ) :
    (b.buddyReserve start «end»).frameArray j =
      if j < size / pageSize ∧ pageDown start ≤ base + j * pageSize ∧
        base + j * pageSize < pageUp «end» then frameReserved else b.frameArray j := by
  have hend' : b.gBuddyEnd = base + size := by rw [h.end_eq, u64_of_lt hend]
  obtain ⟨q, hq⟩ := hbase
  obtain ⟨p, hp⟩ := dvd_pageDown start
  obtain ⟨r, hr⟩ := dvd_pageUp «end»
  have hlow : (if pageDown start < base then base else pageDown start) =
      max (pageDown start) base := by split_ifs <;> omega
  have hhigh : (if pageUp «end» > base + size then base + size else pageUp «end») =
      min (pageUp «end») (base + size) := by split_ifs <;> omega
  unfold buddyReserve addrToIdx
  dsimp only
  rw [h.base_eq, hend', hlow, hhigh]
  generalize pageDown start = s at *
  generalize pageUp «end» = e at *
  by_cases hempty : max s base ≥ min e (base + size)
  · rw [if_pos hempty, if_neg]
    unfold pageSize at *
    omega
  · rw [if_neg hempty, subU64_of_le (by omega) (by omega), subU64_of_le (by omega) (by omega)]
    refine if_congr ?_ rfl rfl
    unfold pageSize at *
    omega

/-- After the replay the reserved frames are those whose page lies in an entry. -/
theorem reserved_iff (fa : ℕ → ℤ) (hbase : pageSize ∣ base) (hend : base + size < 2 ^ 64)
    (table : List (ℕ × ℕ)) (hj : j < size / pageSize) :
    (reservedBuddy fa base size table).frameArray j = frameReserved ↔
      ∃ e ∈ table, pageDown e.1 ≤ base + j * pageSize ∧ base + j * pageSize < pageUp e.2 := by
  have key : ∀ (t : List (ℕ × ℕ)) (b : Buddy), Unbuilt b base size →
      ((t.foldl (fun b r => b.buddyReserve r.1 r.2) b).frameArray j = frameReserved ↔
        b.frameArray j = frameReserved ∨
          ∃ e ∈ t, pageDown e.1 ≤ base + j * pageSize ∧ base + j * pageSize < pageUp e.2) := by
    intro t
    induction t with
    | nil => exact fun b _ => by simp
    | cons r t ih =>
      intro b hb
      rw [List.foldl_cons, ih _ (hb.buddyReserve r.1 r.2),
        frameArray_buddyReserve hb hbase hend, List.exists_mem_cons_iff]
      split_ifs with hr
      · exact iff_of_true (Or.inl rfl) (Or.inr (Or.inl hr.2))
      · rw [or_iff_right fun h => hr ⟨hj, h⟩]
  refine (key table _ (unbuilt_buddyInit fa base size)).trans (or_iff_right ?_)
  show ¬ setFrames fa 0 (size / pageSize) frameFreePart j = frameReserved
  unfold setFrames
  rw [if_pos ⟨Nat.zero_le j, by omega⟩]
  decide

/-- After the replay every frame of every entry is reserved. -/
theorem reserved_of_entry (fa : ℕ → ℤ) (hbase : pageSize ∣ base) (hend : base + size < 2 ^ 64)
    {table : List (ℕ × ℕ)} (htable : ∀ e ∈ table, StartupClient.Entry base size e) {e : ℕ × ℕ}
    (he : e ∈ table) (hj : base + j * pageSize ∈ StartupClient.bytes e) :
    (reservedBuddy fa base size table).frameArray j = frameReserved := by
  have hentry := htable e he
  have hle := hentry.le_end
  obtain ⟨h1, h2⟩ := hj
  refine (reserved_iff fa hbase hend table ?_).mpr ⟨e, he, ?_⟩
  · obtain ⟨q, hq⟩ := hentry.end_dvd
    obtain ⟨p, hp⟩ := hbase
    unfold pageSize at *
    omega
  · rw [pageDown_of_dvd hentry.start_dvd, pageUp_of_dvd hentry.end_dvd (by omega)]
    exact ⟨h1, h2⟩

end Buddy

/-! ## Runs -/

namespace MemClient

open HeapClient (capacity BlockMove)

variable {base size : ℕ} {fa₀ : ℕ → ℤ} {m m' : MemClient}

/-- What every call preserves.  `fa₀` is the frame array at the time the free lists were built. -/
structure Ok (base size : ℕ) (fa₀ : ℕ → ℤ) (m : MemClient) : Prop where
  heap : ∃ fl, m.client.Ok fl fun _ => []
  base_eq : m.client.heap.buddy.gBuddyBase = base
  pages_eq : m.client.heap.buddy.gTotalPages = size / pageSize
  reserved : ∀ j, m.client.heap.buddy.frameArray j = frameReserved ↔ fa₀ j = frameReserved
  /-- A block that `buddy_alloc` returned is allocated, and no page of it is sliced. -/
  page : ∀ g ∈ m.pages, ∃ i, m.client.heap.buddy.AllocBlock i (requestOrder g.size) ∧
    g.ptr = m.client.heap.buddy.idxToAddr i ∧
      ∀ e ∈ m.client.sliced, e.1 ∉ block i (requestOrder g.size)
  /-- It is not what `kmalloc` returned. -/
  apart : ∀ g ∈ m.pages, ∀ g' ∈ m.client.live, findPool g'.size = none → g.ptr ≠ g'.ptr
  nodup : (m.pages.map Grant.ptr).Nodup

/-- The heap and the reservations below a move of the heap. -/
theorem Ok.blockMove (h : m.Ok base size fa₀) {s' : HeapClient} (hok : ∃ fl, s'.Ok fl fun _ => [])
    (hmove : BlockMove m.client s') : Ok base size fa₀ { m with client := s' } := by
  obtain ⟨fl, hc⟩ := h.heap
  have hreg := hc.region.inside
  cases hmove with
  | same hb hsl hlive =>
    refine ⟨hok, ?base_eq, ?pages_eq, fun j => ?reserved, fun g hg => ?page,
      fun g hg g' hg' hp => ?apart, h.nodup⟩
    case base_eq => exact hb ▸ h.base_eq
    case pages_eq => exact hb ▸ h.pages_eq
    case reserved => exact hb ▸ h.reserved j
    case page =>
      obtain ⟨i, ha, hptr, hoff⟩ := h.page g hg
      exact ⟨i, hb.symm ▸ ha, hb.symm ▸ hptr, fun e he => hoff e (hsl e he)⟩
    case apart => exact h.apart g hg g' (hlive g' hg' hp) hp
  | grant idx k hgr hsl hlive =>
    have haddr : ∀ i, s'.heap.buddy.idxToAddr i = m.client.heap.buddy.idxToAddr i := fun i =>
      hgr.toSameRegion.idxToAddr
    refine ⟨hok, hgr.base.trans h.base_eq, hgr.pages.trans h.pages_eq,
      fun j => hgr.reserved_iff.trans (h.reserved j), fun g hg => ?_, fun g hg g' hg' hp => ?_,
      h.nodup⟩
    · obtain ⟨i, ha, hptr, hoff⟩ := h.page g hg
      refine ⟨i, hgr.allocBlock_iff.mpr (Or.inl ha), hptr.trans (haddr i).symm, fun e he hmem => ?_⟩
      rcases hsl e he with he | heq
      · exact hoff e he hmem
      · rw [heq] at hmem
        exact ha.not_isFreeVal hmem (owner_eq_none.mp (hgr.free idx (self_mem_block idx k)))
    · rcases hlive g' hg' hp with hg' | hptr'
      · exact h.apart g hg g' hg' hp
      · -- the block that was taken was owned by nobody
        obtain ⟨i, ha, hptr, -⟩ := h.page g hg
        rw [hptr, hptr']
        intro heq
        have hidx := idxToAddr_inj hreg ha.index_lt hgr.index_lt heq
        have hfree := owner_eq_none.mp (hgr.free idx (self_mem_block idx k))
        exact ha.not_isFreeVal (hidx ▸ self_mem_block i _) hfree
  | release g₀ idx hg₀ hp₀ ha₀ hptr₀ hrel hsl hlive =>
    have haddr : ∀ i, s'.heap.buddy.idxToAddr i = m.client.heap.buddy.idxToAddr i := fun i =>
      hrel.toSameRegion.idxToAddr
    refine ⟨hok, hrel.base.trans h.base_eq, hrel.pages.trans h.pages_eq,
      fun j => (hrel.reserved_iff ha₀).trans (h.reserved j), fun g hg => ?_,
      fun g hg g' hg' => h.apart g hg g' (hlive g' hg'), h.nodup⟩
    obtain ⟨i, ha, hptr, hoff⟩ := h.page g hg
    refine ⟨i, (hrel.allocBlock_iff ha₀).mpr ⟨ha, ?_⟩, hptr.trans (haddr i).symm,
      fun e he => hoff e (hsl e he)⟩
    rintro ⟨rfl, -⟩
    exact h.apart g hg g₀ hg₀ hp₀ (hptr.trans hptr₀.symm)

/-- `buddy_alloc` for another caller. -/
theorem Ok.buddyAlloc (h : m.Ok base size fa₀) {n : ℕ} (hs : m.step (.buddyAlloc n) = some m') :
    m'.Ok base size fa₀ := by
  obtain rfl := Option.some.inj hs
  obtain ⟨fl, hc⟩ := h.heap
  rcases buddyAlloc_cases hc.inv n with hnull | ⟨idx, b, hcall, hinv, hg⟩
  · rw [hnull, HeapClient.hold_null]
    exact h
  have hreg := hc.region.inside
  have haddr : ∀ i, b.idxToAddr i = m.client.heap.buddy.idxToAddr i := fun i =>
    hg.toSameRegion.idxToAddr
  have hkeep : ∀ {i k}, m.client.heap.buddy.AllocBlock i k → b.AllocBlock i k := fun ha =>
    hg.allocBlock_iff.mpr (Or.inl ha)
  -- the new block was owned by nobody
  have hnew : ∀ {i k}, m.client.heap.buddy.AllocBlock i k →
      m.client.heap.buddy.idxToAddr idx ≠ m.client.heap.buddy.idxToAddr i := by
    intro i k ha heq
    have hidx := idxToAddr_inj hreg hg.index_lt ha.index_lt heq
    refine ha.not_isFreeVal (self_mem_block i k) (owner_eq_none.mp ?_)
    exact hidx ▸ hg.free idx (self_mem_block idx _)
  rw [hcall]
  refine ⟨⟨fl, hc.grant hinv hg⟩, hg.base.trans h.base_eq, hg.pages.trans h.pages_eq,
    fun j => hg.reserved_iff.trans (h.reserved j), fun g hg' => ?_, fun g hg' g' hg'' hp => ?_, ?_⟩
  · rcases HeapClient.mem_hold hg' with hg' | ⟨-, rfl⟩
    · obtain ⟨i, ha, hptr, hoff⟩ := h.page g hg'
      exact ⟨i, hkeep ha, hptr.trans (haddr i).symm, hoff⟩
    · exact ⟨idx, hg.allocBlock, (haddr idx).symm, fun e he => hc.grant_fresh hg he⟩
  · rcases HeapClient.mem_hold hg' with hg' | ⟨-, rfl⟩
    · exact h.apart g hg' g' hg'' hp
    · obtain ⟨-, i, ha, hptr, -⟩ := hc.large g' hg'' hp
      rw [hptr]
      exact hnew ha
  · unfold HeapClient.hold
    split_ifs
    · exact h.nodup
    · rw [List.map_cons, List.nodup_cons]
      refine ⟨fun hmem => ?_, h.nodup⟩
      obtain ⟨g, hg', heq⟩ := List.mem_map.mp hmem
      obtain ⟨i, ha, hptr, -⟩ := h.page g hg'
      exact hnew ha (heq.symm.trans hptr)

/-- `buddy_free` of a block that another caller holds. -/
theorem Ok.buddyFree (h : m.Ok base size fa₀) {g : Grant}
    (hs : m.step (.buddyFree g) = some m') : m'.Ok base size fa₀ := by
  rw [step] at hs
  split_ifs at hs with hg
  obtain rfl := Option.some.inj hs
  obtain ⟨fl, hc⟩ := h.heap
  obtain ⟨idx, ha, hptr, hoff⟩ := h.page g hg
  have hsub : ∀ g' ∈ m.pages.erase g, g' ∈ m.pages := fun _ => List.mem_of_mem_erase
  have hnodup : ((m.pages.erase g).map Grant.ptr).Nodup :=
    h.nodup.sublist (List.erase_sublist.map _)
  have hother : ∀ g' ∈ m.pages.erase g, g'.ptr ≠ g.ptr := fun g' hg' heq => by
    obtain rfl := List.inj_on_of_nodup_map h.nodup (hsub g' hg') hg heq
    exact (h.nodup.of_map _).not_mem_erase hg'
  rw [hptr]
  rcases buddyFree_cases hc.inv ha hc.region.inside with ⟨-, hsame⟩ | ⟨hinv, hrel⟩
  · rw [hsame]
    exact ⟨h.heap, h.base_eq, h.pages_eq, h.reserved, fun g' hg' => h.page g' (hsub g' hg'),
      fun g' hg' => h.apart g' (hsub g' hg'), hnodup⟩
  · have haddr : ∀ i, (m.client.heap.buddy.buddyFree (m.client.heap.buddy.idxToAddr idx)).idxToAddr
        i = m.client.heap.buddy.idxToAddr i := fun i => hrel.toSameRegion.idxToAddr
    refine ⟨⟨fl, hc.set_buddy hinv hrel.toSameRegion (fun e he => ?_)
      fun g' hg' hp i hptr' ha' => ?_⟩,
      hrel.base.trans h.base_eq, hrel.pages.trans h.pages_eq,
      fun j => (hrel.reserved_iff ha).trans (h.reserved j), fun g' hg' => ?_,
      fun g' hg' => h.apart g' (hsub g' hg'), hnodup⟩
    · refine (hrel.allocBlock_iff ha).mpr ⟨(hc.sliced_page e he).2.1, ?_⟩
      rintro ⟨heq, -⟩
      exact hoff e he (heq ▸ self_mem_block _ _)
    · refine (hrel.allocBlock_iff ha).mpr ⟨ha', ?_⟩
      rintro ⟨rfl, -⟩
      exact h.apart g hg g' hg' hp (hptr.trans hptr'.symm)
    · obtain ⟨i, ha', hptr', hoff'⟩ := h.page g' (hsub g' hg')
      refine ⟨i, (hrel.allocBlock_iff ha).mpr ⟨ha', ?_⟩, hptr'.trans (haddr i).symm, hoff'⟩
      rintro ⟨rfl, -⟩
      exact hother g' hg' (hptr'.trans hptr.symm)

theorem Ok.step {c : Call} (h : m.Ok base size fa₀) (hs : m.step c = some m') :
    m'.Ok base size fa₀ := by
  cases c with
  | heap c =>
    obtain ⟨s', hs', rfl⟩ := Option.map_eq_some_iff.mp hs
    obtain ⟨fl, hc⟩ := h.heap
    exact h.blockMove ((hc.step hs').imp fun _ h => h.1) (hc.blockMove hs')
  | buddyAlloc n => exact h.buddyAlloc hs
  | buddyFree g => exact h.buddyFree hs

theorem ok_bootMem (fa : ℕ → ℤ) (hbase : pageSize ∣ base)
    (hend : base + size ≤ 2 ^ 64) (table : List (ℕ × ℕ)) (pools : ℕ → Pool) (ppi : ℕ → ℤ)
    (mem : ℕ → ℕ) : (bootMem fa base size table pools ppi mem).Ok base size
      (reservedBuddy fa base size table).frameArray := by
  have h := unbuilt_reservedBuddy fa base size table
  obtain ⟨-, hsame⟩ := h.built
  refine ⟨⟨_, ok_bootHeap fa hbase hend table pools ppi mem⟩, hsame.base.trans h.base_eq,
    hsame.pages.trans h.pages_eq, fun j => ?_, nofun, nofun, List.nodup_nil⟩
  show (reservedBuddy fa base size table).buddyBuildFreeLists.frameArray j = _ ↔ _
  rw [← owner_eq_some not_isFreeVal_reserved, ← owner_eq_some not_isFreeVal_reserved, hsame.owner]

/-- What a caller was given: a request to `kmalloc`, or a block of `buddy_alloc`. -/
def Handed (m : MemClient) (bytes : Set ℕ) : Prop :=
  (∃ g ∈ m.client.live, bytes = capacity g) ∨ ∃ g ∈ m.pages, bytes = pageBytes g

/-- What a caller was given lies inside an allocated block. -/
theorem Ok.handed (h : m.Ok base size fa₀) {bytes : Set ℕ} (hb : m.Handed bytes) :
    ∃ i k, m.client.heap.buddy.AllocBlock i k ∧ bytes ⊆ m.client.heap.buddy.blockBytes i k := by
  obtain ⟨fl, hc⟩ := h.heap
  rcases hb with ⟨g, hg, rfl⟩ | ⟨g, hg, rfl⟩
  · obtain ⟨i, k, ha, hsub, -⟩ := hc.capacity_block hg
    exact ⟨i, k, ha, hsub⟩
  · obtain ⟨i, ha, hptr, -⟩ := h.page g hg
    refine ⟨i, _, ha, ?_⟩
    unfold pageBytes blockBytes
    rw [hptr]

/-- What a caller was given holds no byte of a reserved frame. -/
theorem Ok.not_reserved (h : m.Ok base size fa₀) {bytes : Set ℕ} (hb : m.Handed bytes) {x : ℕ}
    (hx : x ∈ bytes) : base ≤ x ∧ (x - base) / pageSize < size / pageSize ∧
      fa₀ ((x - base) / pageSize) ≠ frameReserved := by
  obtain ⟨fl, hc⟩ := h.heap
  obtain ⟨i, k, ha, hsub⟩ := h.handed hb
  obtain ⟨h1, h2⟩ := hsub hx
  rw [idxToAddr_eq hc.region.inside ha.index_lt, h.base_eq] at h1 h2
  have hmem : (x - base) / pageSize ∈ block i k := by
    rw [mem_block]
    unfold pageSize at *
    omega
  have hin := ha.inside
  rw [h.pages_eq] at hin
  refine ⟨by omega, ?_, fun hres => ha.ne_reserved hmem ((h.reserved _).mpr hres)⟩
  rw [mem_block] at hmem
  omega

end MemClient

/-- **Boot-time reservations are honoured.**  The memory ends so far below the end of the address
space that adding the length of `frame_array` to an address in it does not wrap.  Whatever regions
are registered, when both allocations of `main` succeed, `buddy_reserve` writes no frame outside the
memory, and nothing that is handed out in any run meets a page that overlaps a registered region or
the metadata. -/
theorem honoured_of_reachable (fa : ℕ → ℤ) {base size : ℕ} (hbase : pageSize ∣ base)
    (hsize : pageSize ∣ size)
    (hend : base + size + StartupClient.roundUp (size / pageSize * 4) < 2 ^ 64)
    {regions : List (ℕ × ℕ)} (hlen : regions.length ≤ 14)
    (hreg : ∀ r ∈ regions, r.2 ≤ 2 ^ 64 - pageSize) {st : Startup} {frameArray pagePoolIdx : ℕ}
    (hboot : mainMetadata base size regions = some (st, frameArray, pagePoolIdx))
    (hfa : frameArray ≠ 0) (hppi : pagePoolIdx ≠ 0) (pools : ℕ → Pool) (ppi : ℕ → ℤ)
    (mem : ℕ → ℕ) :
    (∀ pre e post, st.gSaReserves = pre ++ e :: post → ∀ j,
      (reservedBuddy fa base size pre).Writes e.1 e.2 j → j < size / pageSize) ∧
    ∀ m, Reachable MemClient.step anyStep (bootMem fa base size st.gSaReserves pools ppi mem) m →
      ∀ r ∈ (frameArray, frameArray + size / pageSize * 4) ::
        (pagePoolIdx, pagePoolIdx + size / pageSize) :: regions, ∀ bytes, m.Handed bytes →
          Disjoint bytes (overlapped r) := by
  have hend' : base + size < 2 ^ 64 := by omega
  have hcov := covers_regions hbase hsize hend' hlen fun r hr => by
    have := hreg r hr
    unfold pageSize at *
    omega
  obtain ⟨s', halloc, halloc'⟩ := mainMetadata_spec hboot
  have hsmall : size / pageSize * 4 ≤ size := by
    unfold pageSize
    omega
  rw [u64_of_lt (by omega)] at halloc
  have hround : StartupClient.roundUp (size / pageSize) ≤
      StartupClient.roundUp (size / pageSize * 4) :=
    Nat.mul_le_mul_right _ (Nat.div_le_div_right (by omega))
  have hcov' := (hcov.alloc hbase hend halloc hfa).alloc hbase (by omega) halloc' hppi
  refine ⟨fun pre e post _ j hj => ?_, fun m hm r hr bytes hb => ?_⟩
  · have h := unbuilt_reservedBuddy fa base size pre
    have hclear : Unbuilt ({ reservedBuddy fa base size pre with
        frameArray := fun _ => frameFreePart } : Buddy) base size :=
      ⟨h.base_eq, h.end_eq, h.pages_eq, h.lists, fun _ _ => Or.inl rfl⟩
    unfold Writes at hj
    rw [frameArray_buddyReserve hclear hbase hend'] at hj
    split_ifs at hj with hlt
    · exact hlt.1
    · exact absurd hj (show frameFreePart ≠ frameReserved by decide)
  · have hok := hm.invariant (P := MemClient.Ok base size _)
      (MemClient.ok_bootMem fa hbase hend'.le st.gSaReserves pools ppi mem)
      fun _ _ _ h _ hstep => h.step hstep
    refine Set.disjoint_left.mpr fun x hx hxr => ?_
    obtain ⟨hlow, hlt, hfree⟩ := hok.not_reserved hb hx
    -- the page of `x` overlaps the region too, so an entry of the table covers it
    have hpage : pageDown x = base + (x - base) / pageSize * pageSize := by
      obtain ⟨q, hq⟩ := hbase
      unfold pageDown pageSize at *
      omega
    have hover : pageDown x ∈ overlapped r := by
      obtain ⟨y, hy, heq⟩ := hxr
      exact ⟨y, hy, (pageDown_of_dvd (dvd_pageDown x)).trans heq⟩
    have hr' : r ∈ (pagePoolIdx, pagePoolIdx + size / pageSize) ::
        (frameArray, frameArray + size / pageSize * 4) :: regions :=
      (List.Perm.swap _ _ regions).mem_iff.mp hr
    have hhigh : pageDown x < base + size := by
      rw [hpage]
      obtain ⟨q, rfl⟩ := hsize
      unfold pageSize at *
      omega
    obtain ⟨e, he, hxe⟩ := hcov'.covered r hr' _ hover (by omega) hhigh
    rw [hpage] at hxe
    exact hfree (reserved_of_entry fa hbase hend' hcov'.entry he hxe)

/-- A megabyte with the kernel and the device tree, and a request after boot. -/
theorem honoured_of_boot : ∃ st m,
    mainMetadata 0x80000000 0x100000 [(0x80080000, 0x80081234), (0x80000000, 0x80020000)] =
        some (st, 0x80020000, 0x80021000) ∧
      runList MemClient.step (bootMem (fun _ => 0) 0x80000000 0x100000 st.gSaReserves
        (fun _ => ⟨0, 0⟩) (fun _ => 0) fun _ => 0) [.buddyAlloc 5000, .heap (.kmalloc 64)] =
          some m ∧
      ∀ bytes, m.Handed bytes → Disjoint bytes (overlapped (0x80000000, 0x80020000)) := by
  have hboot : mainMetadata 0x80000000 0x100000
      [(0x80080000, 0x80081234), (0x80000000, 0x80020000)] = some
        (⟨[(0x80000000, 0x80020000), (0x80020000, 0x80021000), (0x80080000, 0x80082000),
          (0x80021000, 0x80022000)], 0x80000000, 0x80100000⟩, 0x80020000, 0x80021000) := by
    decide +kernel
  refine ⟨_, _, hboot, rfl, fun bytes hb => ?_⟩
  refine (honoured_of_reachable (fun _ => 0) (by decide) (by decide) (by decide) (by decide)
    (by decide) hboot (by decide) (by decide) (fun _ => ⟨0, 0⟩) (fun _ => 0) fun _ => 0).2 _
      (@reachable_of_runList _ _ _ _ _ [.buddyAlloc 5000, .heap (.kmalloc 64)] rfl) _ ?_ bytes hb
  simp

/-- **Memory up to the end of the address space.**  Its end wraps to `0`, so that nothing can be
reserved: the metadata lie in the last page, and `buddy_alloc` returns it. -/
theorem overlap_of_topPage : ∃ st m,
    mainMetadata (2 ^ 64 - 4096) 4096 [] = some (st, 2 ^ 64 - 4096, 2 ^ 64 - 4096) ∧
      Reachable MemClient.step anyStep (bootMem (fun _ => 0) (2 ^ 64 - 4096) 4096 st.gSaReserves
        (fun _ => ⟨0, 0⟩) (fun _ => 0) fun _ => 0) m ∧
      ∃ bytes, m.Handed bytes ∧
        ¬ Disjoint bytes (overlapped (2 ^ 64 - 4096, 2 ^ 64 - 4096 + 4096 / pageSize * 4)) := by
  have hboot : mainMetadata (2 ^ 64 - 4096) 4096 [] = some
      (⟨[(2 ^ 64 - 4096, 0), (2 ^ 64 - 4096, 0)], 2 ^ 64 - 4096, 0⟩, 2 ^ 64 - 4096,
        2 ^ 64 - 4096) := by
    decide +kernel
  set table := [(2 ^ 64 - 4096, 0), (2 ^ 64 - 4096, 0)] with htable
  have hun := unbuilt_reservedBuddy (fun _ => 0) (2 ^ 64 - 4096) 4096 table
  obtain ⟨hinv, hsame⟩ := hun.built
  set b := (reservedBuddy (fun _ => 0) (2 ^ 64 - 4096) 4096 table).buddyBuildFreeLists with hb
  have hbase : b.gBuddyBase = 2 ^ 64 - 4096 := hsame.base.trans hun.base_eq
  have hpages : b.gTotalPages = 1 := hsame.pages.trans hun.pages_eq
  have hreg : b.gBuddyBase + b.gTotalPages * pageSize ≤ 2 ^ 64 := by
    rw [hbase, hpages]
    decide
  -- the only frame is free, so a request for one byte is granted it
  obtain ⟨i, k, hf, -⟩ := hun.exists_free (j := 0) (by rw [hun.pages_eq]; decide)
    (by rw [htable]; decide +kernel)
  have hne := buddyAlloc_ne_zero hinv one_ne_zero hf (by
    rw [show requestOrder 1 = 0 by decide]
    exact Nat.zero_le k) hreg (by rw [hbase]; decide)
  rcases buddyAlloc_cases hinv 1 with hnull | ⟨idx, b', hcall, -, hg⟩
  · exact absurd (congrArg Prod.snd hnull) hne
  have hidx : idx = 0 := by
    have := hg.index_lt
    omega
  have haddr : (b.buddyAlloc 1).2 = 2 ^ 64 - 4096 := by
    rw [hcall, hidx, idxToAddr_eq hreg (by omega), hbase]
    rfl
  refine ⟨_, _, hboot, Reachable.tail (Reachable.refl _) trivial (a := .buddyAlloc 1) rfl,
    MemClient.pageBytes ⟨(b.buddyAlloc 1).2, 1⟩, Or.inr ⟨_, ?_, rfl⟩, ?_⟩
  · show _ ∈ HeapClient.hold [] (b.buddyAlloc 1).2 1
    rw [HeapClient.hold_of_ne hne]
    exact List.mem_singleton_self _
  · refine Set.not_disjoint_iff.mpr ⟨2 ^ 64 - 4096, ?_, 2 ^ 64 - 4096, ?_, rfl⟩
    · rw [haddr]
      constructor <;> decide
    · constructor <;> decide

end OscKernel
