import OscKernel.Buddy.Startup
import Mathlib.Order.Bounds.Basic
import Mathlib.Order.Interval.Set.Disjoint

/-!
# The lowest gap

`buddy_startup_alloc` looks for the lowest gap between the regions of its table, and says `NULL`,
that is `0`, when it finds none.

* `saFindLoop_eq`: the scan of sorted regions that are apart stops at the lowest gap.
* `findsLowest_iff`: so the allocation finds the lowest gap, unless it lies at `0`.
* `missed_of_exactFit`: the frame array of two gigabytes, with a kernel that begins right behind it.

## The table and the scan

The regions are whole pages of the memory, not empty, and disjoint (`Startup.Regions`).  Sorting by
their starts puts them one behind the other, and then the cursor of the scan is the end of the
region before, so that what lies below the cursor and off the regions has been looked at.  That is
the invariant of the loop (`FitsFrom`): the gaps of the whole memory are those of what is left.

Regions that overlap are the subject of `OscKernel.Buddy.Startup`; there the scan may go back.

## The address `0`

`sa_find_first_free` returns `0` for a failure and has no other way to return it.  A gap at address
`0` is found and taken for none, also when there are gaps behind it.  The condition of the theorem
is that the request does not fit there, which is about the table and the size and not about the
scan.  Memory that begins above `0` meets it always.
-/

namespace OscKernel

open StartupClient (bytes roundUp)

namespace Startup

variable {s s' : Startup} {n a : ℕ}

/-- The table of the startup allocator: pairwise disjoint regions, whole pages of the memory. -/
structure Regions (s : Startup) : Prop where
  base_dvd : pageSize ∣ s.gSaMemBase
  end_dvd : pageSize ∣ s.gSaMemEnd
  base_lt : s.gSaMemBase < 2 ^ 64
  end_lt : s.gSaMemEnd < 2 ^ 64
  start_dvd : ∀ e ∈ s.gSaReserves, pageSize ∣ e.1
  stop_dvd : ∀ e ∈ s.gSaReserves, pageSize ∣ e.2
  inside : ∀ e ∈ s.gSaReserves, s.gSaMemBase ≤ e.1 ∧ e.1 < e.2 ∧ e.2 ≤ s.gSaMemEnd
  apart : s.gSaReserves.Pairwise fun e e' => Disjoint (bytes e) (bytes e')

/-- `size` bytes, rounded up, fit at the page `a` without touching a region. -/
structure Fits (s : Startup) (size a : ℕ) : Prop where
  aligned : pageSize ∣ a
  base_le : s.gSaMemBase ≤ a
  le_end : a + roundUp size ≤ s.gSaMemEnd
  off : ∀ e ∈ s.gSaReserves, Disjoint (Set.Ico a (a + roundUp size)) (bytes e)

/-- **The allocation finds the lowest gap** when there is one, and `NULL` means that there is none.
-/
def FindsLowest (s : Startup) (size : ℕ) : Prop :=
  ∃ s' ret, s.buddyStartupAlloc size = some (s', ret) ∧
    (∀ a, IsLeast {a | s.Fits size a} a → ret ≠ 0 ∧ ret = a) ∧
    (ret = 0 → ∀ a, ¬ s.Fits size a)

/-! ## The scan -/

section Scan

variable {memEnd size cursor : ℕ} {l : List (ℕ × ℕ)} {r : ℕ × ℕ}

/-- `size` bytes fit at the page `a` of the rest of the memory. -/
def FitsFrom (memEnd size cursor : ℕ) (l : List (ℕ × ℕ)) (a : ℕ) : Prop :=
  pageSize ∣ a ∧ cursor ≤ a ∧ a + size ≤ memEnd ∧
    ∀ e ∈ l, Disjoint (Set.Ico a (a + size)) (bytes e)

theorem disjoint_bytes_iff (hsize : 0 < size) (hr : r.1 < r.2) :
    Disjoint (Set.Ico a (a + size)) (bytes r) ↔ a + size ≤ r.1 ∨ r.2 ≤ a := by
  unfold bytes
  rw [Set.Ico_disjoint_Ico]
  omega

/-- What does not fit before the first region fits behind it. -/
theorem fitsFrom_cons (hsize : 0 < size) (hr : r.1 < r.2) (hcursor : cursor ≤ r.1)
    (hno : r.1 < cursor + size) :
    FitsFrom memEnd size cursor (r :: l) a ↔ FitsFrom memEnd size r.2 l a := by
  unfold FitsFrom
  rw [List.forall_mem_cons, disjoint_bytes_iff hsize hr]
  constructor
  · rintro ⟨hd, hle, hend, hoff, hrest⟩
    exact ⟨hd, by omega, hend, hrest⟩
  · rintro ⟨hd, hle, hend, hrest⟩
    exact ⟨hd, by omega, hend, Or.inr hle, hrest⟩

/-- **The scan stops at the lowest gap.** -/
theorem saFindLoop_eq (hmem : memEnd < 2 ^ 64) (hsize : 0 < size) (hc : pageSize ∣ cursor)
    (hl : ∀ e ∈ l, pageSize ∣ e.2 ∧ e.1 < e.2 ∧ cursor ≤ e.1)
    (hsorted : l.Pairwise fun e e' => e.2 ≤ e'.1)
    (ha : IsLeast {a | FitsFrom memEnd size cursor l a} a) :
    saFindLoop memEnd size cursor l = a := by
  induction l generalizing cursor with
  | nil =>
    obtain ⟨-, hle, hend, -⟩ := ha.1
    have hfit : FitsFrom memEnd size cursor [] cursor := ⟨hc, le_rfl, by omega, nofun⟩
    obtain rfl : cursor = a := hle.antisymm (ha.2 hfit)
    rw [saFindLoop, pageUp_of_dvd hc (by omega), u64_of_lt (by omega), if_pos hend]
  | cons r l ih =>
    obtain ⟨hr, hrest⟩ := List.forall_mem_cons.mp hl
    obtain ⟨hrl, hsorted⟩ := List.pairwise_cons.mp hsorted
    obtain ⟨-, hle, hend, -⟩ := ha.1
    rw [saFindLoop, pageUp_of_dvd hc (by omega), u64_of_lt (by omega)]
    split_ifs with hfit
    · -- the gap before the first region is large enough
      refine le_antisymm hle (ha.2 ⟨hc, le_rfl, by omega, ?_⟩)
      refine List.forall_mem_cons.mpr ⟨(disjoint_bytes_iff hsize hr.2.1).mpr (Or.inl hfit), ?_⟩
      intro e he
      have := hrl e he
      exact (disjoint_bytes_iff hsize (hrest e he).2.1).mpr (Or.inl (by omega))
    · refine ih hr.1 (fun e he => ⟨(hrest e he).1, (hrest e he).2.1, hrl e he⟩) hsorted ?_
      have hiff : ∀ a, FitsFrom memEnd size cursor (r :: l) a ↔ FitsFrom memEnd size r.2 l a :=
        fun a => fitsFrom_cons hsize hr.2.1 hr.2.2 (not_le.mp hfit)
      simpa only [hiff] using ha

end Scan

/-! ## The table -/

/-- Sorting keeps the regions. -/
theorem Regions.saSortReserves (h : s.Regions) : s.saSortReserves.Regions where
  base_dvd := h.base_dvd
  end_dvd := h.end_dvd
  base_lt := h.base_lt
  end_lt := h.end_lt
  start_dvd e he := h.start_dvd e (mem_saSort.mp he)
  stop_dvd e he := h.stop_dvd e (mem_saSort.mp he)
  inside e he := h.inside e (mem_saSort.mp he)
  apart := ((saSort_perm s.gSaReserves).pairwise_iff fun h => h.symm).mpr h.apart

/-- Sorted regions that are apart come one behind the other. -/
theorem Regions.sorted (h : s.Regions) :
    s.saSortReserves.gSaReserves.Pairwise fun e e' => e.2 ≤ e'.1 := by
  have h' := h.saSortReserves
  refine ((saSort_sorted s).and h'.apart).imp_of_mem fun {e e'} he he' ⟨hle, hd⟩ => ?_
  have h1 := h'.inside e he
  have h2 := h'.inside e' he'
  unfold bytes at hd
  rw [Set.Ico_disjoint_Ico] at hd
  omega

theorem fits_iff : s.Fits n a ↔
    FitsFrom s.gSaMemEnd (roundUp n) s.gSaMemBase s.saSortReserves.gSaReserves a :=
  ⟨fun h => ⟨h.aligned, h.base_le, h.le_end, fun e he => h.off e (mem_saSort.mp he)⟩,
    fun h => ⟨h.1, h.2.1, h.2.2.1, fun e he => h.2.2.2 e (mem_saSort.mpr he)⟩⟩

theorem roundUp_pos (hn : 0 < n) : 0 < roundUp n :=
  lt_of_lt_of_le hn (le_pageDown_add n)

/-- **The lowest gap is found.** -/
theorem Regions.saFindFirstFree_eq (h : s.Regions) (hn : 0 < n)
    (ha : IsLeast {a | s.Fits n a} a) : s.saSortReserves.saFindFirstFree (roundUp n) = a := by
  simp only [fits_iff] at ha
  exact saFindLoop_eq h.end_lt (roundUp_pos hn) h.base_dvd
    (fun e he => ⟨h.stop_dvd e (mem_saSort.mp he), (h.inside e (mem_saSort.mp he)).2.1,
      (h.inside e (mem_saSort.mp he)).1⟩) h.sorted ha

/-- While the table is not full, the allocation has a result. -/
theorem exists_buddyStartupAlloc (hfull : s.gSaReserves.length < buddyStartupMaxReserves) (n : ℕ) :
    ∃ s' ret, s.buddyStartupAlloc n = some (s', ret) := by
  have hlen : s.saSortReserves.gSaReserves.length < buddyStartupMaxReserves := by
    rwa [show s.saSortReserves.gSaReserves.length = s.gSaReserves.length from
      (saSort_perm s.gSaReserves).length_eq]
  unfold buddyStartupAlloc
  dsimp only
  rw [if_pos hlen]
  split_ifs
  · exact ⟨_, _, rfl⟩
  · exact ⟨_, _, rfl⟩

/-- **The startup allocator finds the lowest gap exactly when that is not at address `0`**, for
every table of disjoint regions that has room and every size that can be rounded up.  The lowest gap
is the lowest page from which the rounded size lies inside the memory and off every region. -/
theorem findsLowest_iff (h : s.Regions) (hfull : s.gSaReserves.length < buddyStartupMaxReserves)
    (hn : 0 < n) (hround : n + pageSize - 1 < 2 ^ 64) : s.FindsLowest n ↔ ¬ s.Fits n 0 := by
  constructor
  · rintro ⟨s', ret, -, hleast, -⟩ hzero
    obtain ⟨hne, rfl⟩ := hleast 0 ⟨hzero, fun a _ => Nat.zero_le a⟩
    exact hne rfl
  · intro hzero
    obtain ⟨s', ret, hcall⟩ := exists_buddyStartupAlloc hfull n
    obtain ⟨hret, -⟩ := buddyStartupAlloc_spec hcall
    rw [show pageUp n = roundUp n from pageUp_of_lt hround] at hret
    have hleast : ∀ a, IsLeast {a | s.Fits n a} a → ret ≠ 0 ∧ ret = a := fun a ha => by
      obtain rfl : ret = a := hret.trans (h.saFindFirstFree_eq hn ha)
      refine ⟨?_, rfl⟩
      rintro rfl
      exact hzero ha.1
    refine ⟨s', ret, hcall, hleast, fun hnull a ha => ?_⟩
    classical
    exact (hleast _ (Nat.isLeast_find (p := s.Fits n) ⟨a, ha⟩)).1 hnull

/-! ## Tables of regions -/

theorem regions_buddyStartupInit {base size : ℕ} (hbase : pageSize ∣ base) (hsize : pageSize ∣ size)
    (hend : base + size < 2 ^ 64) : (buddyStartupInit base size).Regions := by
  refine ⟨hbase, ?_, lt_of_le_of_lt (Nat.le_add_right _ _) hend, u64_lt _, nofun, nofun, nofun,
    List.Pairwise.nil⟩
  rw [buddyStartupInit, u64_of_lt hend]
  exact Nat.dvd_add hbase hsize

/-- An entry behind the others. -/
theorem Regions.append (h : s.Regions) {e : ℕ × ℕ} (hstart : pageSize ∣ e.1)
    (hstop : pageSize ∣ e.2)
    (hin : s.gSaMemBase ≤ e.1 ∧ e.1 < e.2 ∧ e.2 ≤ s.gSaMemEnd)
    (hoff : ∀ e' ∈ s.gSaReserves, Disjoint (bytes e') (bytes e)) :
    ({ s with gSaReserves := s.gSaReserves ++ [e] } : Startup).Regions where
  base_dvd := h.base_dvd
  end_dvd := h.end_dvd
  base_lt := h.base_lt
  end_lt := h.end_lt
  start_dvd := List.forall_mem_append.mpr ⟨h.start_dvd, List.forall_mem_singleton.mpr hstart⟩
  stop_dvd := List.forall_mem_append.mpr ⟨h.stop_dvd, List.forall_mem_singleton.mpr hstop⟩
  inside := List.forall_mem_append.mpr ⟨h.inside, List.forall_mem_singleton.mpr hin⟩
  apart := List.pairwise_append.mpr ⟨h.apart, List.pairwise_singleton _ _, fun e' he' x hx => by
    obtain rfl := List.mem_singleton.mp hx
    exact hoff e' he'⟩

/-- A region whose pages are off the others can be registered. -/
theorem Regions.buddyStartupReserve (h : s.Regions) {start stop : ℕ}
    (hoff : ∀ e ∈ s.gSaReserves, Disjoint (bytes e) (Set.Ico (pageDown start) (pageUp stop))) :
    (s.buddyStartupReserve start stop).Regions := by
  rcases s.buddyStartupReserve_cases start stop with heq | ⟨hlt, -, heq⟩ <;> rw [heq]
  · exact h
  · refine h.append ?_ ?_ ⟨le_max_right _ _, hlt, min_le_right _ _⟩ fun e he => ?_
    · show pageSize ∣ max _ _
      exact max_rec (fun _ => dvd_pageDown start) fun _ => h.base_dvd
    · show pageSize ∣ min _ _
      exact min_rec (fun _ => dvd_pageUp stop) fun _ => h.end_dvd
    · exact (hoff e he).mono_right (Set.Ico_subset_Ico (le_max_left _ _) (min_le_left _ _))

/-- An allocation for which there is room leaves a table of regions. -/
theorem Regions.buddyStartupAlloc (h : s.Regions) (hn : 0 < n) (hround : n + pageSize - 1 < 2 ^ 64)
    (ha : IsLeast {a | s.Fits n a} a) {ret : ℕ}
    (hcall : s.buddyStartupAlloc n = some (s', ret)) : s'.Regions := by
  have hfind := h.saFindFirstFree_eq hn ha
  have hend := h.end_lt
  obtain ⟨hd, hle, hfit, hoff⟩ := ha.1
  rw [← show pageUp n = roundUp n from pageUp_of_lt hround] at hfind hfit hoff
  unfold Startup.buddyStartupAlloc at hcall
  dsimp only at hcall
  rw [hfind, u64_of_lt (by omega)] at hcall
  split_ifs at hcall <;> obtain ⟨rfl, -⟩ := Prod.mk.inj (Option.some.inj hcall)
  · exact h.saSortReserves
  · have hpos : 0 < pageUp n := (pageUp_of_lt hround).symm ▸ roundUp_pos hn
    refine h.saSortReserves.append hd (Nat.dvd_add hd (dvd_pageUp n)) ⟨hle, ?_, hfit⟩ fun e he =>
      (hoff e (mem_saSort.mp he)).symm
    exact Nat.lt_add_of_pos_right hpos

end Startup

open Startup

/-- Two megabytes behind a kernel that begins where the memory begins. -/
theorem findsLowest_of_kernel :
    ((buddyStartupInit 0 0x80000000).buddyStartupReserve 0 0x300000).FindsLowest 0x200000 := by
  have hregions : ((buddyStartupInit 0 0x80000000).buddyStartupReserve 0 0x300000).Regions :=
    (regions_buddyStartupInit (by decide) (by decide) (by decide)).buddyStartupReserve nofun
  refine (findsLowest_iff hregions (by decide) (by decide) (by decide)).mpr fun hfit => ?_
  have hd := hfit.off (0, 0x300000) (by decide)
  have hpos : 0 < roundUp 0x200000 := by decide
  rw [disjoint_bytes_iff hpos (by decide)] at hd
  omega

/-- **A gap that fits exactly is missed.**  Two gigabytes from `0` on with a kernel at two
megabytes: the frame array takes two megabytes, these fit in front of the kernel, and the answer is
`NULL`. -/
theorem missed_of_exactFit :
    let s := (buddyStartupInit 0 0x80000000).buddyStartupReserve 0x200000 0x300000
    s.buddyStartupAlloc (0x80000000 / pageSize * 4) = some (s, 0) ∧
      s.Fits (0x80000000 / pageSize * 4) 0 ∧ ¬ s.FindsLowest (0x80000000 / pageSize * 4) := by
  intro s
  have hcall : s.buddyStartupAlloc (0x80000000 / pageSize * 4) = some (s, 0) := by decide +kernel
  have hfit : s.Fits (0x80000000 / pageSize * 4) 0 := by
    refine ⟨by decide, by decide, by decide, fun e he => ?_⟩
    have hlist : s.gSaReserves = [(0x200000, 0x300000)] := by decide +kernel
    rw [hlist, List.mem_singleton] at he
    subst he
    exact (disjoint_bytes_iff (by decide) (by decide)).mpr (Or.inl (by decide))
  refine ⟨hcall, hfit, ?_⟩
  rintro ⟨s', ret, heq, hleast, -⟩
  obtain ⟨-, rfl⟩ := Prod.mk.inj (Option.some.inj (hcall.symm.trans heq))
  exact (hleast 0 ⟨hfit, fun a _ => Nat.zero_le a⟩).1 rfl

end OscKernel
