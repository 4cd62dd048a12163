import OscKernel.Kmalloc.Boot
import Mathlib.Data.Finset.Card

/-!
# The framebuffer (`main.c`, `video.c`)

The framebuffer of the QEMU build is a fixed range of the memory that `main` gives to the heap.
`main` does not register it: it is kept off the heap only where a region that `main` does register
happens to cover it.

* `untouched_iff`: nothing that is handed out meets the framebuffer, and no blit writes a byte of
  the heap, exactly when the registered regions cover the framebuffer and neither `frame_array` nor
  `page_pool_idx` was put into it.
* `keptOff_of_sorted`: they are not put into it when no entry of the table ends before one that
  starts earlier.
* `overlap_of_boot`: with the 128 MB of QEMU, a page of the framebuffer is handed out.

## The two directions

That a covered framebuffer is left alone follows from what the allocators keep in any run: what they
hand out, and what they write themselves, lies in frames that are not reserved.  `HeapByte` lists
the bytes of the heap, those of the allocators' own records included: the list heads in free blocks,
the links in free chunks, and the two arrays.

For the other direction a run has to be found that hands out a page of the framebuffer
(`exposed_of_uncovered`).  A frame that is not reserved belongs to a free block right after boot,
and one that asks for single pages until there are none is given it in the end: every grant makes
the number of frames that nobody owns smaller.

## What is assumed of the memory map

The base of the memory is the beginning of a page, its end does not wrap, and the framebuffer lies
in it.  With a framebuffer elsewhere there is nothing to show.  `frame_array` and `page_pool_idx`
have been found a place (`mainMetadata`); that they avoid the framebuffer is part of the condition,
since the startup allocator knows no more of it than the heap does.
-/

namespace OscKernel

open DyadicBlock Buddy Startup Transition

/-! ## The code -/

/-- `FB_BASE` of the QEMU build. -/
def fbBase : ℕ := 0x87000000

/-- `FB_WIDTH`. -/
def fbWidth : ℕ := 1920

/-- `FB_HEIGHT`. -/
def fbHeight : ℕ := 1080

/-- `[FB_BASE, FB_BASE + FB_WIDTH * FB_HEIGHT * 4)`. -/
def framebuffer : Set ℕ := Set.Ico fbBase (fbBase + fbWidth * fbHeight * 4)

/-- `video_bmp_display`: the destination and the length of the copy of every row. -/
def videoBmpDisplay (width height : ℤ) : List (ℕ × ℕ) :=
  let startX := (fbWidth - width).tdiv 2
  let startY := (fbHeight - height).tdiv 2
  (List.range height.toNat).map fun y : ℕ =>
    ((fbBase + ((startY + y) * fbWidth + startX) * 4).toNat, width.toNat * 4)

/-- `sys_display`, when the pixels lie in the image of the caller. -/
def sysDisplay (w h : ℕ) : List (ℕ × ℕ) :=
  if w = 0 ∨ h = 0 ∨ w > fbWidth ∨ h > fbHeight then [] else videoBmpDisplay w h

/-- The bytes that copies write. -/
def written (copies : List (ℕ × ℕ)) : Set ℕ := {x | ∃ c ∈ copies, x ∈ Set.Ico c.1 (c.1 + c.2)}

/-- The table of the startup allocator after step 5 of `main`. -/
def startupTable (base size : ℕ) (regions : List (ℕ × ℕ)) : List (ℕ × ℕ) :=
  (regions.foldl (fun s r => s.buddyStartupReserve r.1 r.2)
    (buddyStartupInit base size)).gSaReserves

/-- A byte of the heap: of what a caller was given, of the `struct list_head` at the start of a free
block, of the link at the start of a chunk on a free list, of `frame_array` or of `page_pool_idx`.
-/
inductive HeapByte (frameArray pagePoolIdx totalPages : ℕ) (m : MemClient) (x : ℕ) : Prop where
  | handed (bytes : Set ℕ) (hb : m.Handed bytes) (hx : x ∈ bytes)
  | freeBlock (i k : ℕ) (hf : m.client.heap.buddy.FreeBlock i k)
      (hx : x ∈ Set.Ico (m.client.heap.buddy.idxToAddr i) (m.client.heap.buddy.idxToAddr i + 16))
  | chunk (i c : ℕ) (hi : i < numPools)
      (hc : Visits m.client.heap.mem 0 (m.client.heap.pools i).freeList c)
      (hx : x ∈ Set.Ico c (c + 8))
  | frameArray (hx : x ∈ Set.Ico frameArray (frameArray + totalPages * 4))
  | pagePoolIdx (hx : x ∈ Set.Ico pagePoolIdx (pagePoolIdx + totalPages))

/-- **The heap and the framebuffer stay apart** in every run from `start`: no block that is handed
out meets the framebuffer, and no blit writes a byte of the heap. -/
structure Untouched (start : MemClient) (frameArray pagePoolIdx totalPages : ℕ) : Prop where
  blocks : ∀ m, Reachable MemClient.step anyStep start m → ∀ bytes, m.Handed bytes →
    Disjoint bytes framebuffer
  display : ∀ m, Reachable MemClient.step anyStep start m → ∀ w h, ∀ x ∈ written (sysDisplay w h),
    ¬ HeapByte frameArray pagePoolIdx totalPages m x

/-- The entries of the table cover the framebuffer, and the metadata are not in it. -/
structure KeptOff (table : List (ℕ × ℕ)) (frameArray pagePoolIdx totalPages : ℕ) : Prop where
  covered : ∀ x ∈ framebuffer, ∃ e ∈ table, pageDown e.1 ≤ x ∧ x < pageUp e.2
  frameArray : Disjoint (Set.Ico frameArray (frameArray + totalPages * 4)) framebuffer
  pagePoolIdx : Disjoint (Set.Ico pagePoolIdx (pagePoolIdx + totalPages)) framebuffer

/-! ## What a blit writes -/

theorem videoBmpDisplay_eq {w h : ℕ} (hw : w ≤ fbWidth) (hh : h ≤ fbHeight) :
    videoBmpDisplay w h = (List.range h).map fun y =>
      (fbBase + (((fbHeight - h) / 2 + y) * fbWidth + (fbWidth - w) / 2) * 4, w * 4) := by
  have hx : ((fbWidth : ℤ) - w).tdiv 2 = ((fbWidth - w) / 2 : ℕ) := by
    rw [← Nat.cast_sub hw]
    exact (Int.ofNat_tdiv _ 2).symm
  have hy : ((fbHeight : ℤ) - h).tdiv 2 = ((fbHeight - h) / 2 : ℕ) := by
    rw [← Nat.cast_sub hh]
    exact (Int.ofNat_tdiv _ 2).symm
  unfold videoBmpDisplay
  dsimp only
  rw [hx, hy]
  exact_mod_cast rfl

theorem written_sysDisplay_subset (w h : ℕ) : written (sysDisplay w h) ⊆ framebuffer := by
  rintro x ⟨c, hc, hx1, hx2⟩
  unfold sysDisplay at hc
  split_ifs at hc with hbad
  · exact absurd hc List.not_mem_nil
  rw [not_or, not_or, not_or, not_lt, not_lt] at hbad
  rw [videoBmpDisplay_eq hbad.2.2.1 hbad.2.2.2] at hc
  obtain ⟨y, hy, rfl⟩ := List.mem_map.mp hc
  rw [List.mem_range] at hy
  unfold framebuffer
  unfold fbWidth fbHeight at *
  constructor <;> omega

/-- A blit of the full size writes the whole framebuffer. -/
theorem written_sysDisplay_full : written (sysDisplay fbWidth fbHeight) = framebuffer := by
  refine (written_sysDisplay_subset _ _).antisymm fun x ⟨h1, h2⟩ => ?_
  unfold sysDisplay
  rw [if_neg (by decide), videoBmpDisplay_eq le_rfl le_rfl]
  refine ⟨_, List.mem_map.mpr ⟨(x - fbBase) / 7680, ?_, rfl⟩, ?_⟩
  · rw [List.mem_range]
    unfold fbWidth fbHeight at *
    omega
  · generalize fbBase = b at *
    unfold fbWidth fbHeight
    constructor <;> dsimp only <;> omega

/-! ## The table -/

section Table

variable {base size : ℕ} {regions : List (ℕ × ℕ)} {st : Startup} {frameArray pagePoolIdx : ℕ}

/-- An entry that `buddy_startup_reserve` adds is a region rounded to whole pages and clamped to the
memory. -/
theorem mem_buddyStartupReserve {s : Startup} {a b : ℕ} {e : ℕ × ℕ}
    (he : e ∈ (s.buddyStartupReserve a b).gSaReserves) :
    e ∈ s.gSaReserves ∨ e.1 < e.2 ∧
      e = (max (pageDown a) s.gSaMemBase, min (pageUp b) s.gSaMemEnd) := by
  rcases s.buddyStartupReserve_cases a b with heq | ⟨hlt, -, heq⟩ <;> rw [heq] at he
  · exact Or.inl he
  · refine (List.mem_append.mp he).imp_right fun he => ?_
    obtain rfl := List.mem_singleton.mp he
    exact ⟨hlt, rfl⟩

theorem memory_foldl (rs : List (ℕ × ℕ)) (s : Startup) :
    (rs.foldl (fun s r => s.buddyStartupReserve r.1 r.2) s).gSaMemBase = s.gSaMemBase ∧
      (rs.foldl (fun s r => s.buddyStartupReserve r.1 r.2) s).gSaMemEnd = s.gSaMemEnd := by
  induction rs generalizing s with
  | nil => exact ⟨rfl, rfl⟩
  | cons r rs ih =>
    obtain ⟨h1, h2⟩ := s.memory_buddyStartupReserve r.1 r.2
    exact ⟨(ih _).1.trans h1, (ih _).2.trans h2⟩

theorem mem_startupTable {e : ℕ × ℕ} (he : e ∈ startupTable base size regions) :
    e.1 < e.2 ∧ ∃ a b, e = (max (pageDown a) base, min (pageUp b) (u64 (base + size))) := by
  have key : ∀ (rs : List (ℕ × ℕ)) (s : Startup), s.gSaMemBase = base →
      s.gSaMemEnd = u64 (base + size) →
      e ∈ (rs.foldl (fun s r => s.buddyStartupReserve r.1 r.2) s).gSaReserves →
      e ∈ s.gSaReserves ∨ e.1 < e.2 ∧
        ∃ a b, e = (max (pageDown a) base, min (pageUp b) (u64 (base + size))) := by
    intro rs
    induction rs with
    | nil => exact fun _ _ _ h => Or.inl h
    | cons r rs ih =>
      intro s hlow hhigh h
      obtain ⟨hlow', hhigh'⟩ := s.memory_buddyStartupReserve r.1 r.2
      rcases ih _ (hlow'.trans hlow) (hhigh'.trans hhigh) h with h | h
      · refine (mem_buddyStartupReserve h).imp_right fun ⟨hlt, heq⟩ => ⟨hlt, r.1, r.2, ?_⟩
        rw [heq, hlow, hhigh]
      · exact Or.inr h
  exact (key regions (buddyStartupInit base size) rfl rfl he).resolve_left List.not_mem_nil

/-- The entries after step 6: those after step 5, and one for each of the metadata. -/
theorem mem_mainMetadata (h : mainMetadata base size regions = some (st, frameArray, pagePoolIdx))
    (hsize : size ≤ 2 ^ 64) (e : ℕ × ℕ) :
    e ∈ st.gSaReserves ↔ e ∈ startupTable base size regions ∨
      (frameArray ≠ 0 ∧ e = (frameArray, u64 (frameArray + pageUp (size / pageSize * 4)))) ∨
      pagePoolIdx ≠ 0 ∧ e = (pagePoolIdx, u64 (pagePoolIdx + pageUp (size / pageSize))) := by
  obtain ⟨s', h1, h2⟩ := mainMetadata_spec h
  rw [u64_of_lt (by unfold pageSize; omega)] at h1
  obtain ⟨-, -, -, hmem⟩ := buddyStartupAlloc_spec h1
  obtain ⟨-, -, -, hmem'⟩ := buddyStartupAlloc_spec h2
  rw [hmem', hmem, or_assoc]
  rfl

theorem dvd_mainMetadata (h : mainMetadata base size regions = some (st, frameArray, pagePoolIdx)) :
    pageSize ∣ frameArray ∧ pageSize ∣ pagePoolIdx := by
  obtain ⟨s', h1, h2⟩ := mainMetadata_spec h
  obtain ⟨hfa, -⟩ := buddyStartupAlloc_spec h1
  obtain ⟨hppi, -⟩ := buddyStartupAlloc_spec h2
  exact ⟨hfa ▸ dvd_saFindLoop, hppi ▸ dvd_saFindLoop⟩

/-- A page that lies in the entry of an allocation begins with a byte of it. -/
theorem mem_of_page {ret n p : ℕ} (hret : pageSize ∣ ret) (hp : pageSize ∣ p)
    (h1 : pageDown ret ≤ p) (h2 : p < pageUp (u64 (ret + pageUp n))) :
    p ∈ Set.Ico ret (ret + n) := by
  have hup : pageUp n ≤ n + pageSize - 1 :=
    (pageDown_le _).trans (Nat.mod_le _ _)
  have hend : pageSize ∣ u64 (ret + pageUp n) :=
    (Nat.dvd_mod_iff (by decide)).mpr (Nat.dvd_add hret (dvd_pageUp n))
  have hle : u64 (ret + pageUp n) ≤ ret + pageUp n := Nat.mod_le _ _
  rw [pageDown_of_dvd hret] at h1
  rw [pageUp_of_dvd hend (u64_lt _)] at h2
  obtain ⟨a, rfl⟩ := hp
  obtain ⟨b, hb⟩ := hend
  rw [Set.mem_Ico]
  unfold pageSize at *
  omega

end Table

/-! ## Exhaustion -/

open Classical in
/-- The frames that nobody owns. -/
noncomputable def Buddy.unowned (b : Buddy) : Finset ℕ :=
  (Finset.range b.gTotalPages).filter fun j => b.owner j = none

/-- A grant leaves fewer frames that nobody owns. -/
theorem Buddy.Grants.card_unowned_lt {b b' : Buddy} {i k : ℕ} (h : Grants b b' i k) :
    b'.unowned.card < b.unowned.card := by
  have hi := self_mem_block i k
  have hsub : b'.unowned ⊆ b.unowned := by
    intro j hj
    obtain ⟨hlt, hnone⟩ := Finset.mem_filter.mp hj
    rw [h.pages] at hlt
    refine Finset.mem_filter.mpr ⟨hlt, ?_⟩
    by_cases hjb : j ∈ block i k
    · exact h.free j hjb
    · exact (h.others j hjb).symm.trans hnone
  refine Finset.card_lt_card ((Finset.ssubset_iff_of_subset hsub).mpr ⟨i, ?_, fun hmem => ?_⟩)
  · exact Finset.mem_filter.mpr ⟨Finset.mem_range.mpr h.index_lt, h.free i hi⟩
  · exact absurd ((h.granted i hi).symm.trans (Finset.mem_filter.mp hmem).2) (by simp)

namespace MemClient

variable {base size : ℕ} {fa₀ : ℕ → ℤ} {m m' : MemClient}

/-- While a frame is not owned, a request for one byte is granted one page. -/
theorem Ok.buddyAlloc_one (h : m.Ok base size fa₀) {j : ℕ} (hj : j < size / pageSize)
    (hfree : m.client.heap.buddy.owner j = none) :
    ∃ i b, m.client.heap.buddy.buddyAlloc 1 = (b, m.client.heap.buddy.idxToAddr i) ∧
      Grants m.client.heap.buddy b i 0 := by
  obtain ⟨fl, hc⟩ := h.heap
  obtain ⟨i, k, hf, -⟩ : ∃ i k, m.client.heap.buddy.FreeBlock i k ∧ j ∈ block i k := by
    rcases hc.inv.cover j (h.pages_eq ▸ hj) (Set.notMem_empty j) with
      hres | hf | ⟨i, k, ha, hmem, -⟩
    · exact absurd (hres ▸ owner_eq_none.mp hfree) not_isFreeVal_reserved
    · exact hf
    · exact absurd (owner_eq_none.mp hfree) (ha.not_isFreeVal hmem)
  have horder : requestOrder 1 = 0 := by decide
  obtain ⟨i', b, hcall, -, hg⟩ := buddyAlloc_grants hc.inv one_ne_zero hf
    (horder.trans_le (Nat.zero_le k))
  exact ⟨i', b, hcall, horder ▸ hg⟩

/-- **Every free page is handed out in some run**: the one that asks for single pages. -/
theorem Ok.exists_handed (h : m.Ok base size fa₀) {j : ℕ} (hj : j < size / pageSize)
    (hfree : m.client.heap.buddy.owner j = none) (hne : base + j * pageSize ≠ 0) :
    ∃ m', Reachable MemClient.step anyStep m m' ∧ ∃ bytes, m'.Handed bytes ∧
      Set.Ico (base + j * pageSize) (base + j * pageSize + pageSize) ⊆ bytes := by
  -- by induction on the number of frames that nobody owns, which each grant makes smaller
  generalize hn : m.client.heap.buddy.unowned.card = n
  induction n using Nat.strong_induction_on generalizing m with
  | _ n ih =>
    obtain ⟨fl, hc⟩ := h.heap
    obtain ⟨i, b, hcall, hg⟩ := h.buddyAlloc_one hj hfree
    set m₁ : MemClient := ⟨m.client.setHeap { m.client.heap with buddy := b },
      HeapClient.hold m.pages (m.client.heap.buddy.idxToAddr i) 1⟩ with hm₁
    have hs : m.step (.buddyAlloc 1) = some m₁ := by
      rw [MemClient.step, hcall]
    have hrun : Reachable MemClient.step anyStep m m₁ :=
      Reachable.tail (Reachable.refl m) trivial hs
    by_cases hij : j = i
    · subst hij
      have haddr : m.client.heap.buddy.idxToAddr j = base + j * pageSize := by
        rw [idxToAddr_eq hc.region.inside hg.index_lt, h.base_eq]
      have hheld : ⟨base + j * pageSize, 1⟩ ∈ m₁.pages := by
        rw [hm₁, haddr, HeapClient.hold_of_ne hne]
        exact List.mem_cons_self
      refine ⟨m₁, hrun, _, Or.inr ⟨_, hheld, rfl⟩, fun x hx => ?_⟩
      unfold pageBytes
      rw [show requestOrder 1 = 0 by decide, Nat.pow_zero, Nat.one_mul]
      exact hx
    · have hself : ∀ {x}, x ∈ block i 0 → x = i := fun hx => by
        rw [mem_block] at hx
        omega
      obtain ⟨m', hrun', hbytes⟩ := ih _ (hn ▸ hg.card_unowned_lt) (h.step hs)
        ((hg.others j fun hmem => hij (hself hmem)).trans hfree) rfl
      exact ⟨m', hrun.trans hrun', hbytes⟩

/-- A byte of a page of the memory tells its frame. -/
theorem Ok.frame_of_mem (h : m.Ok base size fa₀) {i x : ℕ} (hi : i < size / pageSize)
    (h1 : m.client.heap.buddy.idxToAddr i ≤ x)
    (h2 : x < m.client.heap.buddy.idxToAddr i + pageSize) : (x - base) / pageSize = i := by
  obtain ⟨fl, hc⟩ := h.heap
  rw [idxToAddr_eq hc.region.inside (h.pages_eq ▸ hi), h.base_eq] at h1 h2
  unfold pageSize at *
  omega

/-- **No byte of the heap but the metadata lies in a reserved frame.** -/
theorem Ok.heapByte (h : m.Ok base size fa₀) {frameArray pagePoolIdx totalPages x : ℕ}
    (hx : HeapByte frameArray pagePoolIdx totalPages m x)
    (hres : fa₀ ((x - base) / pageSize) = frameReserved) :
    x ∈ Set.Ico frameArray (frameArray + totalPages * 4) ∨
      x ∈ Set.Ico pagePoolIdx (pagePoolIdx + totalPages) := by
  obtain ⟨fl, hc⟩ := h.heap
  have hnot : ∀ i, i < size / pageSize → m.client.heap.buddy.idxToAddr i ≤ x →
      x < m.client.heap.buddy.idxToAddr i + pageSize →
      m.client.heap.buddy.frameArray i = frameReserved := fun i hi h1 h2 =>
    (h.reserved i).mpr (h.frame_of_mem hi h1 h2 ▸ hres)
  cases hx with
  | handed bytes hb hx => exact absurd hres (h.not_reserved hb hx).2.2
  | freeBlock i k hf hx =>
    have hin := hc.inv.inside hf
    have hpos := Nat.two_pow_pos k
    rw [h.pages_eq] at hin
    have hri := hnot i (by omega) hx.1 (hx.2.trans_le (Nat.add_le_add_left (by decide) _))
    exact absurd (hri ▸ hc.inv.isFreeVal hf (self_mem_block i k)) not_isFreeVal_reserved
  | chunk i c hi hv hx =>
    have hmem := (hc.chain i hi).visits_iff.mp hv
    obtain ⟨pg, he, hcpg⟩ := HeapClient.mem_poolChunks.mp
      (hc.unheld_mem hi (List.mem_append_left _ hmem))
    have hsize : 8 ≤ chunkBytes i := (show ∀ i < numPools, 8 ≤ chunkBytes i by decide) i hi
    obtain ⟨h1, h2⟩ := hc.chunk_subset he hcpg ⟨hx.1, hx.2.trans_le (Nat.add_le_add_left hsize _)⟩
    rw [Nat.pow_zero, Nat.one_mul] at h2
    exact absurd (hnot pg (h.pages_eq ▸ hc.page_lt he) h1 h2)
      ((hc.sliced_page _ he).2.1.ne_reserved (self_mem_block pg 0))
  | frameArray hx => exact Or.inl hx
  | pagePoolIdx hx => exact Or.inr hx

end MemClient

/-! ## The result -/

section Result

variable {base size : ℕ} {regions : List (ℕ × ℕ)} {st : Startup} {frameArray pagePoolIdx : ℕ}

/-- The framebuffer consists of whole pages. -/
theorem pageDown_mem_framebuffer {x : ℕ} (hx : x ∈ framebuffer) : pageDown x ∈ framebuffer := by
  obtain ⟨h1, h2⟩ := hx
  unfold framebuffer pageDown pageSize fbBase fbWidth fbHeight at *
  constructor <;> omega

/-- The page of a byte of the framebuffer is a page of the memory. -/
theorem pageDown_eq (hbase : pageSize ∣ base) (hlow : base ≤ fbBase)
    (hhigh : fbBase + fbWidth * fbHeight * 4 ≤ base + size) {x : ℕ} (hx : x ∈ framebuffer) :
    (x - base) / pageSize < size / pageSize ∧
      pageDown x = base + (x - base) / pageSize * pageSize := by
  obtain ⟨h1, h2⟩ := hx
  obtain ⟨q, hq⟩ := hbase
  unfold pageDown pageSize fbBase fbWidth fbHeight at *
  constructor <;> omega

/-- Where the table covers the framebuffer, its frames are reserved. -/
theorem KeptOff.reserved (fa : ℕ → ℤ) (hbase : pageSize ∣ base) (hend : base + size ≤ 2 ^ 64)
    (hlow : base ≤ fbBase) (hhigh : fbBase + fbWidth * fbHeight * 4 ≤ base + size)
    (hboot : mainMetadata base size regions = some (st, frameArray, pagePoolIdx)) {totalPages : ℕ}
    (h : KeptOff (startupTable base size regions) frameArray pagePoolIdx totalPages) {x : ℕ}
    (hx : x ∈ framebuffer) :
    (reservedBuddy fa base size st.gSaReserves).frameArray ((x - base) / pageSize) =
      frameReserved := by
  obtain ⟨hlt, hpage⟩ := pageDown_eq hbase hlow hhigh hx
  obtain ⟨e, he, h1, h2⟩ := h.covered _ (pageDown_mem_framebuffer hx)
  have hend' : base + size < 2 ^ 64 := by
    refine hend.lt_of_ne fun heq => ?_
    obtain ⟨hlt, a, b, rfl⟩ := mem_startupTable he
    rw [heq, show u64 (2 ^ 64) = 0 by decide] at hlt
    omega
  rw [hpage] at h1 h2
  refine (reserved_iff fa hbase hend' st.gSaReserves hlt).mpr ⟨e, ?_, h1, h2⟩
  exact (mem_mainMetadata hboot (by omega) e).mpr (Or.inl he)

/-- A reserved frame lies in an entry, also when the end of the memory wraps: then nothing is
reserved. -/
theorem entry_of_reserved (fa : ℕ → ℤ) (hbase : pageSize ∣ base) (hend : base + size ≤ 2 ^ 64)
    {table : List (ℕ × ℕ)} {j : ℕ} (hj : j < size / pageSize)
    (hres : (reservedBuddy fa base size table).frameArray j = frameReserved) :
    ∃ e ∈ table, pageDown e.1 ≤ base + j * pageSize ∧ base + j * pageSize < pageUp e.2 := by
  rcases hend.lt_or_eq with hlt | heq
  · exact (reserved_iff fa hbase hlt table hj).mp hres
  · have key : ∀ (t : List (ℕ × ℕ)) (b : Buddy), b.gBuddyEnd = 0 →
        t.foldl (fun b r => b.buddyReserve r.1 r.2) b = b := by
      intro t
      induction t with
      | nil => exact fun _ _ => rfl
      | cons r t ih =>
        intro b hb
        have hsame : b.buddyReserve r.1 r.2 = b := by
          unfold Buddy.buddyReserve
          dsimp only
          rw [hb]
          refine if_pos ?_
          split_ifs <;> omega
        rw [List.foldl_cons, hsame, ih b hb]
    unfold reservedBuddy at hres
    rw [key table _ (by rw [(unbuilt_buddyInit fa base size).end_eq, heq]; decide)] at hres
    have hinit : (buddyInit fa base size (size / pageSize)).frameArray j = frameFreePart :=
      if_pos ⟨Nat.zero_le j, by omega⟩
    exact absurd (hinit.symm.trans hres) (by decide)

/-- A byte of the framebuffer that no entry of step 5 covers is a byte of a page that can be handed
out, or its page begins with a byte of the metadata. -/
theorem exposed_of_uncovered (fa : ℕ → ℤ) (hbase : pageSize ∣ base) (hend : base + size ≤ 2 ^ 64)
    (hlow : base ≤ fbBase) (hhigh : fbBase + fbWidth * fbHeight * 4 ≤ base + size)
    (hboot : mainMetadata base size regions = some (st, frameArray, pagePoolIdx))
    (pools : ℕ → Pool) (ppi : ℕ → ℤ) (mem : ℕ → ℕ) {x : ℕ} (hx : x ∈ framebuffer)
    (hun : ∀ e ∈ startupTable base size regions, pageDown e.1 ≤ x → pageUp e.2 ≤ x) :
    (∃ m, Reachable MemClient.step anyStep (bootMem fa base size st.gSaReserves pools ppi mem) m ∧
      ∃ bytes, m.Handed bytes ∧ x ∈ bytes) ∨
      pageDown x ∈ Set.Ico frameArray (frameArray + size / pageSize * 4) ∨
        pageDown x ∈ Set.Ico pagePoolIdx (pagePoolIdx + size / pageSize) := by
  obtain ⟨hlt, hpage⟩ := pageDown_eq hbase hlow hhigh hx
  obtain ⟨hdfa, hdppi⟩ := dvd_mainMetadata hboot
  have hun' := unbuilt_reservedBuddy fa base size st.gSaReserves
  by_cases hres : (reservedBuddy fa base size st.gSaReserves).frameArray ((x - base) / pageSize) =
      frameReserved
  · right
    obtain ⟨e, he, h1, h2⟩ := entry_of_reserved fa hbase hend hlt hres
    rw [← hpage] at h1 h2
    rcases (mem_mainMetadata hboot (by omega) e).mp he with he | ⟨-, rfl⟩ | ⟨-, rfl⟩
    · have hle := hun e he (h1.trans (pageDown_le x))
      obtain ⟨p, hp⟩ := dvd_pageUp e.2
      rw [hp] at h2 hle
      unfold pageDown pageSize at *
      omega
    · exact Or.inl (mem_of_page hdfa (dvd_pageDown x) h1 h2)
    · exact Or.inr (mem_of_page hdppi (dvd_pageDown x) h1 h2)
  · left
    have hok := MemClient.ok_bootMem fa hbase hend st.gSaReserves pools ppi mem
    obtain ⟨-, hsame⟩ := hun'.built
    have hnone : (bootMem fa base size st.gSaReserves pools ppi mem).client.heap.buddy.owner
        ((x - base) / pageSize) = none := by
      refine (hsame.owner _).trans (owner_eq_none.mpr ?_)
      rw [(hun'.frames _ (hun'.pages_eq ▸ hlt)).resolve_right hres]
      exact isFreeVal_freePart
    have hpos := hx.1
    obtain ⟨m, hm, bytes, hb, hsub⟩ := hok.exists_handed hlt hnone (by
      rw [← hpage]
      exact ((show 0 < fbBase by decide).trans_le (pageDown_mem_framebuffer hx).1).ne')
    refine ⟨m, hm, bytes, hb, hsub ?_⟩
    rw [← hpage]
    exact ⟨pageDown_le x, lt_pageDown_add x⟩

/-- **The framebuffer is kept off the heap exactly when the regions that `main` registers cover it**
and the startup allocator has not put `frame_array` or `page_pool_idx` into it.  The memory begins
at a page, ends inside the address space and contains the framebuffer; the runs are those of both
allocators, from the state that boot leaves behind. -/
theorem untouched_iff (fa : ℕ → ℤ) (hbase : pageSize ∣ base) (hend : base + size ≤ 2 ^ 64)
    (hlow : base ≤ fbBase) (hhigh : fbBase + fbWidth * fbHeight * 4 ≤ base + size)
    (hboot : mainMetadata base size regions = some (st, frameArray, pagePoolIdx))
    (pools : ℕ → Pool) (ppi : ℕ → ℤ) (mem : ℕ → ℕ) :
    Untouched (bootMem fa base size st.gSaReserves pools ppi mem) frameArray pagePoolIdx
        (size / pageSize) ↔
      KeptOff (startupTable base size regions) frameArray pagePoolIdx (size / pageSize) := by
  constructor
  · intro h
    have hmeta : ∀ x ∈ framebuffer,
        ¬ (x ∈ Set.Ico frameArray (frameArray + size / pageSize * 4) ∨
          x ∈ Set.Ico pagePoolIdx (pagePoolIdx + size / pageSize)) := fun x hx hxm => by
      rw [← written_sysDisplay_full] at hx
      exact h.display _ (Reachable.refl _) _ _ x hx (hxm.elim .frameArray .pagePoolIdx)
    refine ⟨fun x hx => by_contra fun hun => ?_,
      Set.disjoint_right.mpr fun x hx hxm => hmeta x hx (Or.inl hxm),
      Set.disjoint_right.mpr fun x hx hxm => hmeta x hx (Or.inr hxm)⟩
    have hun' : ∀ e ∈ startupTable base size regions, pageDown e.1 ≤ x → pageUp e.2 ≤ x :=
      fun e he h1 => not_lt.mp fun h2 => hun ⟨e, he, h1, h2⟩
    rcases exposed_of_uncovered fa hbase hend hlow hhigh hboot pools ppi mem hx hun' with
      ⟨m, hm, bytes, hb, hxb⟩ | hxm
    · exact Set.disjoint_left.mp (h.blocks m hm bytes hb) hxb hx
    · exact hmeta _ (pageDown_mem_framebuffer hx) hxm
  · intro h
    have hok : ∀ m, Reachable MemClient.step anyStep
        (bootMem fa base size st.gSaReserves pools ppi mem) m → m.Ok base size _ := fun m hm =>
      hm.invariant (P := MemClient.Ok base size _)
        (MemClient.ok_bootMem fa hbase hend st.gSaReserves pools ppi mem)
        fun _ _ _ h _ hstep => h.step hstep
    have hres := fun x hx => h.reserved fa hbase hend hlow hhigh hboot (x := x) hx
    refine ⟨fun m hm bytes hb => Set.disjoint_left.mpr fun x hxb hx => ?_,
      fun m hm w hh x hx hxh => ?_⟩
    · exact ((hok m hm).not_reserved hb hxb).2.2 (hres x hx)
    · have hxf := written_sysDisplay_subset w hh hx
      rcases (hok m hm).heapByte hxh (hres x hxf) with hxm | hxm
      · exact Set.disjoint_left.mp h.frameArray hxm hxf
      · exact Set.disjoint_left.mp h.pagePoolIdx hxm hxf

/-- The ends of the entries come in the order of their starts. -/
def Sorted (table : List (ℕ × ℕ)) : Prop := ∀ a ∈ table, ∀ b ∈ table, a.1 ≤ b.1 → a.2 ≤ b.2

/-- What the scan finds in such a table meets no entry, and the table with it is one again. -/
theorem Sorted.alloc {s s' : Startup} {n ret : ℕ} (h : Sorted s.gSaReserves)
    (hbase : pageSize ∣ base) (hst : s.gSaMemBase = base ∧ s.gSaMemEnd = base + size)
    (hentry : ∀ e ∈ s.gSaReserves, StartupClient.Entry base size e ∧ e.1 < e.2) (hn : n ≠ 0)
    (hroom : base + size + StartupClient.roundUp n < 2 ^ 64)
    (halloc : s.buddyStartupAlloc n = some (s', ret)) (hret : ret ≠ 0) :
    (∀ e ∈ s.gSaReserves, ret + n ≤ e.1 ∨ e.2 ≤ ret) ∧ Sorted s'.gSaReserves ∧
      (s'.gSaMemBase = base ∧ s'.gSaMemEnd = base + size) ∧
      ∀ e ∈ s'.gSaReserves, StartupClient.Entry base size e ∧ e.1 < e.2 := by
  obtain ⟨hfind, hlow', hhigh', hmem⟩ := buddyStartupAlloc_spec halloc
  rw [show pageUp n = StartupClient.roundUp n from
    pageUp_of_lt (StartupClient.add_lt_of_roundUp_lt hroom)] at hfind hmem
  have hle : n ≤ StartupClient.roundUp n := le_pageDown_add n
  obtain ⟨hd, hlow, hhigh, hoff⟩ := StartupClient.gap_of_sorted hbase hst
    (fun e he => (hentry e he).1) hroom ((saSort_sorted s).imp_of_mem fun ha hb hab =>
      h _ (mem_saSort.mp ha) _ (mem_saSort.mp hb) hab) (hfind ▸ hret)
  rw [← hfind] at hd hlow hhigh hoff
  rw [u64_of_lt (by omega)] at hmem
  refine ⟨fun e he => (hoff e he).imp_left fun hle' => by omega, fun a ha b hb hab => ?_,
    ⟨hlow'.trans hst.1, hhigh'.trans hst.2⟩, fun e he => ?_⟩
  · rcases (hmem a).mp ha with ha | ⟨-, rfl⟩ <;> rcases (hmem b).mp hb with hb | ⟨-, rfl⟩
    · exact h a ha b hb hab
    · have := (hentry a ha).2
      rcases hoff a ha with hoff | hoff <;> dsimp only at hab ⊢ <;> omega
    · have := (hentry b hb).2
      rcases hoff b hb with hoff | hoff <;> dsimp only at hab ⊢ <;> omega
    · exact le_rfl
  · rcases (hmem e).mp he with he | ⟨-, rfl⟩
    · exact hentry e he
    · refine ⟨⟨hd, Nat.dvd_add hd (dvd_pageDown _), hlow, Nat.le_add_right _ _, hhigh⟩, ?_⟩
      dsimp only
      omega

/-- **Regions that do not lie inside one another** keep the metadata off the framebuffer when they
cover it: no entry of the table ends before one that starts earlier. -/
theorem keptOff_of_sorted (hbase : pageSize ∣ base) (hsize : pageSize ∣ size)
    (hend : base + size + StartupClient.roundUp (size / pageSize * 4) < 2 ^ 64)
    (hlow : base ≤ fbBase) (hhigh : fbBase + fbWidth * fbHeight * 4 ≤ base + size)
    (hboot : mainMetadata base size regions = some (st, frameArray, pagePoolIdx))
    (hfa : frameArray ≠ 0) (hppi : pagePoolIdx ≠ 0)
    (hsorted : Sorted (startupTable base size regions))
    (hcov : ∀ x ∈ framebuffer, ∃ e ∈ startupTable base size regions,
      pageDown e.1 ≤ x ∧ x < pageUp e.2) :
    KeptOff (startupTable base size regions) frameArray pagePoolIdx (size / pageSize) := by
  have hentry : ∀ e ∈ startupTable base size regions,
      StartupClient.Entry base size e ∧ e.1 < e.2 := fun e he => by
    obtain ⟨hlt, a, b, rfl⟩ := mem_startupTable he
    rw [u64_of_lt (by omega)] at hlt ⊢
    dsimp only at hlt
    refine ⟨⟨?_, ?_, le_max_right _ _, hlt.le, min_le_right _ _⟩, hlt⟩
    · exact max_rec (fun _ => dvd_pageDown a) fun _ => hbase
    · exact min_rec (fun _ => dvd_pageUp b) fun _ => Nat.dvd_add hbase hsize
  have hmeet : ∀ (ret n : ℕ), (∀ e ∈ startupTable base size regions, ret + n ≤ e.1 ∨ e.2 ≤ ret) →
      Disjoint (Set.Ico ret (ret + n)) framebuffer := fun ret n hoff =>
    Set.disjoint_left.mpr fun x hx hxf => by
      obtain ⟨e, he, h1, h2⟩ := hcov x hxf
      have hle := (hentry e he).1.le_end
      rw [pageDown_of_dvd (hentry e he).1.start_dvd] at h1
      rw [pageUp_of_dvd (hentry e he).1.end_dvd (by omega)] at h2
      have h3 := hx.1
      have h4 := hx.2
      have := hoff e he
      omega
  have hpages : size / pageSize ≠ 0 := by
    unfold pageSize fbWidth fbHeight at *
    omega
  have hmemory := memory_foldl regions (buddyStartupInit base size)
  obtain ⟨s', h1, h2⟩ := mainMetadata_spec hboot
  rw [u64_of_lt (by unfold pageSize; omega)] at h1
  obtain ⟨-, -, -, hmem⟩ := buddyStartupAlloc_spec h1
  obtain ⟨hoff, hsorted', hst, hentry'⟩ := Sorted.alloc hsorted hbase
    ⟨hmemory.1, hmemory.2.trans (u64_of_lt (by omega))⟩ hentry (by omega) hend h1 hfa
  have hround : StartupClient.roundUp (size / pageSize) ≤
      StartupClient.roundUp (size / pageSize * 4) :=
    Nat.mul_le_mul_right _ (Nat.div_le_div_right (by omega))
  obtain ⟨hoff', -⟩ := hsorted'.alloc hbase hst hentry' hpages (by omega) h2 hppi
  exact ⟨hcov, hmeet _ _ hoff, hmeet _ _ fun e he => hoff' e ((hmem e).mpr (Or.inl he))⟩

end Result

/-- With a region registered for it, the framebuffer of the 128 MB of QEMU is kept off the heap. -/
theorem untouched_of_reservedMemory : ∃ st,
    mainMetadata 0x80000000 0x8000000 [(0x87e00000, 0x87e01a00), (0x80200000, 0x80260000),
        (0x80000000, 0x80040000), (0x87000000, 0x87800000)] =
      some (st, 0x80040000, 0x80060000) ∧
      Untouched (bootMem (fun _ => 0) 0x80000000 0x8000000 st.gSaReserves (fun _ => ⟨0, 0⟩)
        (fun _ => 0) fun _ => 0) 0x80040000 0x80060000 (0x8000000 / pageSize) := by
  have hboot : mainMetadata 0x80000000 0x8000000 [(0x87e00000, 0x87e01a00),
      (0x80200000, 0x80260000), (0x80000000, 0x80040000), (0x87000000, 0x87800000)] =
      some (⟨[(0x80000000, 0x80040000), (0x80040000, 0x80060000), (0x80200000, 0x80260000),
        (0x87000000, 0x87800000), (0x87e00000, 0x87e02000), (0x80060000, 0x80068000)],
        0x80000000, 0x88000000⟩, 0x80040000, 0x80060000) := by
    decide +kernel
  refine ⟨_, hboot, (untouched_iff (fun _ => 0) (by decide) (by decide) (by decide) (by decide)
    hboot (fun _ => ⟨0, 0⟩) (fun _ => 0) fun _ => 0).mpr ⟨fun x hx => ?_, ?_, ?_⟩⟩
  · refine ⟨(0x87000000, 0x87800000), by decide +kernel, ?_, ?_⟩
    · exact (show pageDown 0x87000000 = fbBase by decide) ▸ hx.1
    · exact hx.2.trans_le (by decide)
  all_goals
    refine Set.disjoint_left.mpr fun x hx hxf => ?_
    have h1 := hx.2
    have h2 := hxf.1
    unfold pageSize fbBase at *
    omega

/-- **A page of the framebuffer is handed out.**  The 128 MB of QEMU with the device tree, the
kernel and the firmware: some run gets a block in the framebuffer, and a blit writes to it. -/
theorem overlap_of_boot : ∃ st,
    mainMetadata 0x80000000 0x8000000 [(0x87e00000, 0x87e01a00), (0x80200000, 0x80260000),
        (0x80000000, 0x80040000)] = some (st, 0x80040000, 0x80060000) ∧
      ∃ m, Reachable MemClient.step anyStep (bootMem (fun _ => 0) 0x80000000 0x8000000
          st.gSaReserves (fun _ => ⟨0, 0⟩) (fun _ => 0) fun _ => 0) m ∧
        ∃ bytes, m.Handed bytes ∧ ¬ Disjoint bytes framebuffer ∧
          ∃ x ∈ bytes, x ∈ written (sysDisplay 1920 1080) := by
  have hboot : mainMetadata 0x80000000 0x8000000 [(0x87e00000, 0x87e01a00),
      (0x80200000, 0x80260000), (0x80000000, 0x80040000)] =
      some (⟨[(0x80000000, 0x80040000), (0x80040000, 0x80060000), (0x80200000, 0x80260000),
        (0x87e00000, 0x87e02000), (0x80060000, 0x80068000)], 0x80000000, 0x88000000⟩, 0x80040000,
        0x80060000) := by
    decide +kernel
  have hx : fbBase ∈ framebuffer := ⟨le_rfl, by decide⟩
  rcases exposed_of_uncovered (fun _ => 0) (by decide) (by decide) (by decide) (by decide) hboot
    (fun _ => ⟨0, 0⟩) (fun _ => 0) (fun _ => 0) hx (by decide +kernel) with
    ⟨m, hm, bytes, hb, hxb⟩ | hmeta
  · refine ⟨_, hboot, m, hm, bytes, hb, Set.not_disjoint_iff.mpr ⟨fbBase, hxb, hx⟩, fbBase, hxb, ?_⟩
    exact written_sysDisplay_full.symm ▸ hx
  · refine absurd hmeta ?_
    simp only [Set.mem_Ico]
    decide

end OscKernel
