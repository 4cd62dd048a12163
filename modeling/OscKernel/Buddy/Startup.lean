import OscKernel.Word
import OscKernel.Lib.Transition
import Mathlib.Data.List.DropRight
import Mathlib.Data.Set.Lattice
import Mathlib.Order.CompletePartialOrder
import Mathlib.Order.Interval.Set.Basic
import Mathlib.Order.Disjoint

/-!
# The startup allocator (`buddy.c`)

Before the buddy allocator exists, memory for its metadata is taken from the first gap between the
regions that were registered as reserved.  `sa_find_first_free` walks over the regions in the order
of their starts, and goes on from the end of each one in turn, also when that is before the end of a
region it has passed.

* `placed_of_reachable`: when no region ends before one that stands earlier in the sorted table, an
  allocation lies inside the memory, off every reserved region and every other allocation.
* `nested_of_alloc`: it does not when a region lies inside another.

## The condition

The cursor of the scan is the end of the last region it has passed.  If that ends before one that
was passed earlier, the cursor has gone back into the earlier one, and what the scan finds next may
lie there.  `tidy` is a condition on the table before the call: in the order of the starts, the ends
do not go back.  Regions that are disjoint, and regions that overlap without one being inside the
other, meet it.

It also has the sums: the end of a region is rounded up in `uint64_t`, and the cursor plus the size
is compared with the next start, so that both have to stay below the end of the address space.

## What a run is

Regions are registered first, and then there are allocations of any sizes, as in `main`.  A region
that finds the table full is dropped by the source, and an allocation that finds it full writes
behind it; the runs here end before that (`OscKernel.Buddy.Table` is about the table as an array).
-/

namespace OscKernel

open Transition

/-- `BUDDY_STARTUP_MAX_RESERVES`. -/
def buddyStartupMaxReserves : ℕ := 16

/-- The static state of the startup allocator: the first `g_sa_reserve_count` entries of
`g_sa_reserves`, each with its start and its end, and the memory. -/
structure Startup where
  gSaReserves : List (ℕ × ℕ)
  gSaMemBase : ℕ
  gSaMemEnd : ℕ
  deriving DecidableEq

namespace Startup

/-- `buddy_startup_init`. -/
def buddyStartupInit (memBase memSize : ℕ) : Startup := ⟨[], memBase, u64 (memBase + memSize)⟩

/-- `buddy_startup_reserve`. -/
def buddyStartupReserve (s : Startup) (start «end» : ℕ) : Startup :=
  if s.gSaReserves.length ≥ buddyStartupMaxReserves then s
  else
    let start := pageDown start
    let «end» := pageUp «end»
    let start := if start < s.gSaMemBase then s.gSaMemBase else start
    let «end» := if «end» > s.gSaMemEnd then s.gSaMemEnd else «end»
    if start ≥ «end» then s else { s with gSaReserves := s.gSaReserves ++ [(start, «end»)] }

/-- One round of `sa_sort_reserves`: the entries at the end of the sorted part that start later
move up by one, and `r` takes the place. -/
def saInsert (l : List (ℕ × ℕ)) (r : ℕ × ℕ) : List (ℕ × ℕ) :=
  l.rdropWhile (fun e => e.1 > r.1) ++ r :: l.rtakeWhile fun e => e.1 > r.1

/-- `sa_sort_reserves`. -/
def saSortReserves (s : Startup) : Startup :=
  { s with gSaReserves := s.gSaReserves.foldl saInsert [] }

/-- The loop of `sa_find_first_free`. -/
def saFindLoop (memEnd size : ℕ) : ℕ → List (ℕ × ℕ) → ℕ
  | cursor, [] => if u64 (pageUp cursor + size) ≤ memEnd then pageUp cursor else 0
  | cursor, r :: rest =>
      if u64 (pageUp cursor + size) ≤ r.1 then pageUp cursor else saFindLoop memEnd size r.2 rest

/-- `sa_find_first_free`. -/
def saFindFirstFree (s : Startup) (size : ℕ) : ℕ :=
  saFindLoop s.gSaMemEnd size s.gSaMemBase s.gSaReserves

/-- `buddy_startup_alloc`; the result `0` is `NULL`.  It writes its entry without looking whether
the table is full. -/
def buddyStartupAlloc (s : Startup) (size : ℕ) : Option (Startup × ℕ) :=
  let size := pageUp size
  let s := s.saSortReserves
  let ret := s.saFindFirstFree size
  if ret = 0 then some (s, 0)
  else if s.gSaReserves.length < buddyStartupMaxReserves then
    some ({ s with gSaReserves := s.gSaReserves ++ [(ret, u64 (ret + size))] }, ret)
  else none

/-! ## Sorting -/

variable {s : Startup} {l : List (ℕ × ℕ)} {r : ℕ × ℕ}

theorem saInsert_perm (l : List (ℕ × ℕ)) (r : ℕ × ℕ) : (saInsert l r).Perm (r :: l) := by
  have h : l.rdropWhile (fun e => e.1 > r.1) ++ l.rtakeWhile (fun e => e.1 > r.1) = l :=
    List.rdropWhile_append_rtakeWhile
  exact List.perm_middle.trans (by rw [h])

/-- The table keeps its entries. -/
theorem saSort_perm (l : List (ℕ × ℕ)) : (l.foldl saInsert []).Perm l := by
  have key : ∀ sorted : List (ℕ × ℕ), (l.foldl saInsert sorted).Perm (l ++ sorted) := by
    induction l with
    | nil => exact fun sorted => List.Perm.refl _
    | cons r l ih =>
      intro sorted
      exact (ih _).trans (((saInsert_perm sorted r).append_left l).trans List.perm_middle)
  exact (key []).trans (by rw [List.append_nil])

theorem mem_saSort {e : ℕ × ℕ} : e ∈ s.saSortReserves.gSaReserves ↔ e ∈ s.gSaReserves :=
  (saSort_perm s.gSaReserves).mem_iff

/-- The entries of a sorted part that stay where they are start no later than `r`. -/
theorem le_of_mem_rdropWhile (hl : l.Pairwise fun a b => a.1 ≤ b.1) {e : ℕ × ℕ}
    (he : e ∈ l.rdropWhile fun e => e.1 > r.1) : e.1 ≤ r.1 := by
  have hne := List.ne_nil_of_mem he
  have hlast := List.rdropWhile_last_not (fun e : ℕ × ℕ => e.1 > r.1) l hne
  simp only [gt_iff_lt, decide_eq_true_eq, not_lt] at hlast
  have hsorted := hl.sublist (List.rdropWhile_prefix (fun e : ℕ × ℕ => e.1 > r.1) l).sublist
  rcases List.mem_iff_getElem.mp he with ⟨i, hi, rfl⟩
  rw [List.getLast_eq_getElem] at hlast
  rcases Nat.lt_or_ge i ((l.rdropWhile fun e => e.1 > r.1).length - 1) with hlt | hge
  · exact (List.pairwise_iff_getElem.mp hsorted i _ hi (by omega) hlt).trans hlast
  · have heq : i = (l.rdropWhile fun e => e.1 > r.1).length - 1 := by omega
    subst heq
    exact hlast

theorem saInsert_sorted (hl : l.Pairwise fun a b => a.1 ≤ b.1) (r : ℕ × ℕ) :
    (saInsert l r).Pairwise fun a b => a.1 ≤ b.1 := by
  have htake : ∀ e ∈ l.rtakeWhile (fun e => e.1 > r.1), r.1 ≤ e.1 := fun e he => by
    have := List.mem_rtakeWhile_imp he
    simp only [gt_iff_lt, decide_eq_true_eq] at this
    omega
  refine List.pairwise_append.mpr ⟨hl.sublist (List.rdropWhile_prefix _ l).sublist, ?_, ?_⟩
  · exact List.pairwise_cons.mpr ⟨htake, hl.sublist (List.rtakeWhile_suffix _ l).sublist⟩
  · intro a ha b hb
    have har := le_of_mem_rdropWhile hl ha
    rcases List.mem_cons.mp hb with rfl | hb
    · exact har
    · exact har.trans (htake b hb)

/-- The table is sorted by start. -/
theorem saSort_sorted (s : Startup) :
    s.saSortReserves.gSaReserves.Pairwise fun a b => a.1 ≤ b.1 := by
  have key : ∀ l sorted : List (ℕ × ℕ), sorted.Pairwise (fun a b => a.1 ≤ b.1) →
      (l.foldl saInsert sorted).Pairwise fun a b => a.1 ≤ b.1 := by
    intro l
    induction l with
    | nil => exact fun sorted h => h
    | cons r l ih => exact fun sorted h => ih _ (saInsert_sorted h r)
  exact key s.gSaReserves [] List.Pairwise.nil

/-- A region is rounded to whole pages and clamped to the memory, and it is entered when something
of it is left, as long as there is room in the table. -/
theorem buddyStartupReserve_eq (hroom : s.gSaReserves.length < buddyStartupMaxReserves)
    (start «end» : ℕ) : s.buddyStartupReserve start «end» =
      if max (pageDown start) s.gSaMemBase < min (pageUp «end») s.gSaMemEnd then
        { s with gSaReserves := s.gSaReserves ++
            [(max (pageDown start) s.gSaMemBase, min (pageUp «end») s.gSaMemEnd)] }
      else s := by
  have hlow : (if pageDown start < s.gSaMemBase then s.gSaMemBase else pageDown start) =
      max (pageDown start) s.gSaMemBase := by split_ifs <;> omega
  have hhigh : (if pageUp «end» > s.gSaMemEnd then s.gSaMemEnd else pageUp «end») =
      min (pageUp «end») s.gSaMemEnd := by split_ifs <;> omega
  unfold buddyStartupReserve
  dsimp only
  rw [hlow, hhigh, if_neg (not_le.mpr hroom)]
  by_cases hlt : max (pageDown start) s.gSaMemBase < min (pageUp «end») s.gSaMemEnd
  · rw [if_pos hlt, if_neg (not_le.mpr hlt)]
  · rw [if_neg hlt, if_pos (not_lt.mp hlt)]

/-- It is not entered when nothing of it is left, or the table is full. -/
theorem buddyStartupReserve_cases (s : Startup) (start «end» : ℕ) :
    s.buddyStartupReserve start «end» = s ∨
      max (pageDown start) s.gSaMemBase < min (pageUp «end») s.gSaMemEnd ∧
        s.gSaReserves.length < buddyStartupMaxReserves ∧
        s.buddyStartupReserve start «end» = { s with
          gSaReserves := s.gSaReserves ++
            [(max (pageDown start) s.gSaMemBase, min (pageUp «end») s.gSaMemEnd)] } := by
  by_cases hfull : s.gSaReserves.length ≥ buddyStartupMaxReserves
  · exact Or.inl (if_pos hfull)
  · rw [buddyStartupReserve_eq (not_le.mp hfull)]
    split_ifs with hlt
    · exact Or.inr ⟨hlt, not_le.mp hfull, rfl⟩
    · exact Or.inl rfl

/-- What an allocation finds, and the entry it adds unless it fails. -/
theorem buddyStartupAlloc_spec {n ret : ℕ} {s' : Startup}
    (h : s.buddyStartupAlloc n = some (s', ret)) :
    ret = s.saSortReserves.saFindFirstFree (pageUp n) ∧ s'.gSaMemBase = s.gSaMemBase ∧
      s'.gSaMemEnd = s.gSaMemEnd ∧ ∀ e, e ∈ s'.gSaReserves ↔
        e ∈ s.gSaReserves ∨ ret ≠ 0 ∧ e = (ret, u64 (ret + pageUp n)) := by
  unfold buddyStartupAlloc at h
  dsimp only at h
  split_ifs at h with hret hlen <;> obtain ⟨rfl, rfl⟩ := Prod.mk.inj (Option.some.inj h)
  · exact ⟨hret.symm, rfl, rfl, fun e => mem_saSort.trans (by simp)⟩
  · refine ⟨rfl, rfl, rfl, fun e => ?_⟩
    rw [List.mem_append, mem_saSort, List.mem_singleton, and_iff_right hret]

/-- An allocation that succeeds finds room in the table. -/
theorem length_lt_of_alloc {n ret : ℕ} {s' : Startup}
    (h : s.buddyStartupAlloc n = some (s', ret)) (hret : ret ≠ 0) :
    s.gSaReserves.length < buddyStartupMaxReserves := by
  rw [← (saSort_perm s.gSaReserves).length_eq]
  unfold buddyStartupAlloc at h
  dsimp only at h
  split_ifs at h with hfind hlen
  · exact absurd (Prod.mk.inj (Option.some.inj h)).2.symm hret
  · exact hlen

/-! ## The scan -/

section Scan

variable {memEnd size cursor : ℕ}

theorem dvd_saFindLoop : pageSize ∣ saFindLoop memEnd size cursor l := by
  induction l generalizing cursor with
  | nil =>
    rw [saFindLoop]
    split_ifs
    · exact dvd_pageUp cursor
    · exact dvd_zero pageSize
  | cons r l ih =>
    rw [saFindLoop]
    split_ifs
    · exact dvd_pageUp cursor
    · exact ih

/-- The cursor stays inside the memory, and so does the gap that is found. -/
theorem saFindLoop_inside {low : ℕ} (hroom : memEnd + size < 2 ^ 64) (hc : pageSize ∣ cursor)
    (hlow : low ≤ cursor) (hle : cursor ≤ memEnd)
    (hl : ∀ e ∈ l, pageSize ∣ e.2 ∧ low ≤ e.2 ∧ e.1 ≤ memEnd ∧ e.2 ≤ memEnd)
    (hret : saFindLoop memEnd size cursor l ≠ 0) :
    pageSize ∣ saFindLoop memEnd size cursor l ∧ low ≤ saFindLoop memEnd size cursor l ∧
      saFindLoop memEnd size cursor l + size ≤ memEnd := by
  induction l generalizing cursor with
  | nil =>
    rw [saFindLoop, pageUp_of_dvd hc (by omega), u64_of_lt (by omega)] at hret ⊢
    split_ifs at hret ⊢ with hfit
    · exact ⟨hc, hlow, hfit⟩
    · exact absurd rfl hret
  | cons r l ih =>
    rw [saFindLoop, pageUp_of_dvd hc (by omega), u64_of_lt (by omega)] at hret ⊢
    obtain ⟨hr, hl⟩ := List.forall_mem_cons.mp hl
    split_ifs at hret ⊢ with hfit
    · exact ⟨hc, hlow, hfit.trans hr.2.2.1⟩
    · exact ih hr.1 hr.2.1 hr.2.2.2 hl hret

/-- What is found ends inside the memory, also when the regions are not whole pages. -/
theorem saFindLoop_add_le (hroom : memEnd + pageSize + size ≤ 2 ^ 64) (hle : cursor ≤ memEnd)
    (hl : ∀ e ∈ l, e.1 ≤ memEnd ∧ e.2 ≤ memEnd) (hret : saFindLoop memEnd size cursor l ≠ 0) :
    saFindLoop memEnd size cursor l + size ≤ memEnd := by
  have hup : ∀ c ≤ memEnd, pageUp c + size < 2 ^ 64 := fun c hc => by
    have hpage := pageDown_le (c + pageSize - 1)
    rw [pageUp_of_lt (by omega)]
    unfold pageSize at *
    omega
  induction l generalizing cursor with
  | nil =>
    rw [saFindLoop, u64_of_lt (hup cursor hle)] at hret ⊢
    split_ifs at hret ⊢ with hfit
    · exact hfit
    · exact absurd rfl hret
  | cons r l ih =>
    rw [saFindLoop, u64_of_lt (hup cursor hle)] at hret ⊢
    obtain ⟨hr, hl⟩ := List.forall_mem_cons.mp hl
    split_ifs at hret ⊢ with hfit
    · exact hfit.trans hr.1
    · exact ih hr.2 hl hret

/-- When the ends of the regions come in the order of their starts, the cursor never goes back and
the gap that is found meets no region. -/
theorem saFindLoop_disjoint (hroom : memEnd + size < 2 ^ 64) (hc : pageSize ∣ cursor)
    (hle : cursor ≤ memEnd) (hl : ∀ e ∈ l, pageSize ∣ e.2 ∧ e.2 ≤ memEnd)
    (hcursor : ∀ e ∈ l, cursor ≤ e.2) (hstart : l.Pairwise fun a b => a.1 ≤ b.1)
    (hend : l.Pairwise fun a b => a.2 ≤ b.2) (hret : saFindLoop memEnd size cursor l ≠ 0) :
    cursor ≤ saFindLoop memEnd size cursor l ∧
      ∀ e ∈ l, saFindLoop memEnd size cursor l + size ≤ e.1 ∨
        e.2 ≤ saFindLoop memEnd size cursor l := by
  induction l generalizing cursor with
  | nil =>
    rw [saFindLoop, pageUp_of_dvd hc (by omega)] at hret ⊢
    split_ifs at hret ⊢
    · exact ⟨le_rfl, nofun⟩
    · exact absurd rfl hret
  | cons r l ih =>
    rw [saFindLoop, pageUp_of_dvd hc (by omega), u64_of_lt (by omega)] at hret ⊢
    obtain ⟨hr, hl⟩ := List.forall_mem_cons.mp hl
    obtain ⟨hcr, -⟩ := List.forall_mem_cons.mp hcursor
    obtain ⟨hrs, hstart⟩ := List.pairwise_cons.mp hstart
    obtain ⟨hre, hend⟩ := List.pairwise_cons.mp hend
    split_ifs at hret ⊢ with hfit
    · refine ⟨le_rfl, fun e he => Or.inl (hfit.trans ?_)⟩
      rcases List.mem_cons.mp he with rfl | he
      · exact le_rfl
      · exact hrs e he
    · obtain ⟨hge, hoff⟩ := ih hr.1 hr.2 hl hre hstart hend hret
      refine ⟨hcr.trans hge, fun e he => ?_⟩
      rcases List.mem_cons.mp he with rfl | he
      · exact Or.inr hge
      · exact hoff e he

/-- An allocation that succeeds lies inside the memory, like the regions. -/
theorem alloc_le {n ret : ℕ} {s' : Startup} (hroom : s.gSaMemEnd + pageSize + pageUp n ≤ 2 ^ 64)
    (hbase : s.gSaMemBase ≤ s.gSaMemEnd)
    (hs : ∀ e ∈ s.gSaReserves, e.1 ≤ s.gSaMemEnd ∧ e.2 ≤ s.gSaMemEnd)
    (h : s.buddyStartupAlloc n = some (s', ret)) (hret : ret ≠ 0) :
    ret + pageUp n ≤ s.gSaMemEnd ∧
      ∀ e ∈ s'.gSaReserves, e.1 ≤ s'.gSaMemEnd ∧ e.2 ≤ s'.gSaMemEnd := by
  obtain ⟨hfind, -, hmemEnd, hmem⟩ := buddyStartupAlloc_spec h
  have hle : ret + pageUp n ≤ s.gSaMemEnd := by
    rw [hfind] at hret ⊢
    exact saFindLoop_add_le hroom hbase (fun e he => hs e (mem_saSort.mp he)) hret
  refine ⟨hle, fun e he => ?_⟩
  rw [hmemEnd]
  rcases (hmem e).mp he with he | ⟨-, rfl⟩
  · exact hs e he
  · have hpos : 0 < pageSize := by decide
    rw [u64_of_lt (by omega)]
    exact ⟨by omega, hle⟩

end Scan

end Startup

open Startup

/-! ## Runs -/

/-- A call of the startup allocator. -/
inductive StartupCall where
  | reserve (start «end» : ℕ)
  | alloc (size : ℕ)

/-- The startup allocator, the regions registered so far, and the allocations so far with their
lengths. -/
structure StartupClient where
  startup : Startup
  registered : List (ℕ × ℕ)
  results : List (ℕ × ℕ)
  allocating : Bool

namespace StartupClient

/-- A length rounded up to whole pages. -/
def roundUp (size : ℕ) : ℕ := pageDown (size + pageSize - 1)

/-- One call.  Regions are registered before anything is allocated, as long as the table has room,
and nobody asks for `0` bytes. -/
def step (s : StartupClient) : StartupCall → Option StartupClient
  | .reserve start «end» =>
      if s.allocating ∨ s.startup.gSaReserves.length ≥ buddyStartupMaxReserves then none
      else some { s with
        startup := s.startup.buddyStartupReserve start «end»
        registered := (start, «end») :: s.registered }
  | .alloc size =>
      if size = 0 then none
      else
        (s.startup.buddyStartupAlloc size).map fun r =>
          { s with
            startup := r.1
            results := if r.2 = 0 then s.results else (r.2, roundUp size) :: s.results
            allocating := true }

/-- After `buddy_startup_init`. -/
def start (base size : ℕ) : StartupClient := ⟨buddyStartupInit base size, [], [], false⟩

/-- The bytes of a region. -/
def bytes (r : ℕ × ℕ) : Set ℕ := Set.Ico r.1 r.2

/-- The bytes of an allocation. -/
def span (r : ℕ × ℕ) : Set ℕ := Set.Ico r.1 (r.1 + r.2)

/-- **Where allocations lie.** -/
structure Placed (base size : ℕ) (s : StartupClient) : Prop where
  aligned : ∀ r ∈ s.results, pageSize ∣ r.1
  inside : ∀ r ∈ s.results, base ≤ r.1 ∧ r.1 + r.2 ≤ base + size
  reserved : ∀ r ∈ s.results, ∀ g ∈ s.registered, Disjoint (span r) (bytes g)
  apart : s.results.Pairwise fun r r' => Disjoint (span r) (span r')

/-- Rounding the end of a region does not wrap; the memory and the request end inside the address
space; and no region ends before one that stands earlier in the sorted table. -/
def tidy (s : StartupClient) : StartupCall → Prop
  | .reserve _ «end» => «end» + pageSize - 1 < 2 ^ 64
  | .alloc size => s.startup.gSaMemEnd + roundUp size < 2 ^ 64 ∧
      s.startup.saSortReserves.gSaReserves.Pairwise fun a b => a.2 ≤ b.2

instance (s : StartupClient) (c : StartupCall) : Decidable (s.tidy c) :=
  match c with
  | .reserve _ «end» => inferInstanceAs (Decidable («end» + pageSize - 1 < 2 ^ 64))
  | .alloc _ => inferInstanceAs (Decidable (_ ∧ _))

/-- An entry of the table: whole pages of the memory. -/
structure Entry (base size : ℕ) (e : ℕ × ℕ) : Prop where
  start_dvd : pageSize ∣ e.1
  end_dvd : pageSize ∣ e.2
  base_le : base ≤ e.1
  le : e.1 ≤ e.2
  le_end : e.2 ≤ base + size

/-- What every call preserves. -/
structure Ok (base size : ℕ) (s : StartupClient) : Prop where
  memBase : s.startup.gSaMemBase = base
  memEnd : s.startup.gSaMemEnd = base + size
  entry : ∀ e ∈ s.startup.gSaReserves, Entry base size e
  covered : ∀ g ∈ s.registered, ∀ x ∈ bytes g, base ≤ x → x < base + size →
    ∃ e ∈ s.startup.gSaReserves, x ∈ bytes e
  recorded : ∀ r ∈ s.results, (r.1, r.1 + r.2) ∈ s.startup.gSaReserves
  first : s.allocating = false → s.results = []
  placed : Placed base size s

variable {base size : ℕ} {s s' : StartupClient}

theorem ok_start (hend : base + size < 2 ^ 64) : (start base size).Ok base size :=
  ⟨rfl, u64_of_lt hend, nofun, nofun, nofun, fun _ => rfl, nofun, nofun, nofun, List.Pairwise.nil⟩

/-- Registering a region adds an entry that covers it, as far as it lies in the memory. -/
theorem buddyStartupReserve_spec {st : Startup} (hbase : pageSize ∣ base) (hsize : pageSize ∣ size)
    (hst : st.gSaMemBase = base ∧ st.gSaMemEnd = base + size)
    (hlen : st.gSaReserves.length < buddyStartupMaxReserves) {a b : ℕ} :
    (st.buddyStartupReserve a b = st ∧ ∀ x, pageDown a ≤ x → x < pageUp b → base ≤ x →
        ¬ x < base + size) ∨
      ∃ e, st.buddyStartupReserve a b = { st with gSaReserves := st.gSaReserves ++ [e] } ∧
        Entry base size e ∧
          ∀ x, pageDown a ≤ x → x < pageUp b → base ≤ x → x < base + size → x ∈ bytes e := by
  have ha := dvd_pageDown a
  have hb' := dvd_pageUp b
  have hend := Nat.dvd_add hbase hsize
  unfold buddyStartupReserve
  dsimp only
  rw [hst.1, hst.2, if_neg (by omega)]
  by_cases hempty : (if pageDown a < base then base else pageDown a) ≥
      if pageUp b > base + size then base + size else pageUp b
  · rw [if_pos hempty]
    refine Or.inl ⟨rfl, fun x h1 h2 h3 h4 => ?_⟩
    split_ifs at hempty <;> omega
  · rw [if_neg hempty]
    refine Or.inr ⟨_, rfl, ⟨?_, ?_, ?_, ?_, ?_⟩, fun x h1 h2 h3 h4 => ?_⟩
    · dsimp only
      split_ifs
      · exact hbase
      · exact ha
    · dsimp only
      split_ifs
      · exact hend
      · exact hb'
    · dsimp only
      split_ifs <;> omega
    · exact (not_le.mp hempty).le
    · dsimp only
      split_ifs <;> omega
    · constructor <;> dsimp only <;> split_ifs <;> omega

theorem Ok.reserve (h : s.Ok base size) (hbase : pageSize ∣ base) (hsize : pageSize ∣ size)
    {a b : ℕ} (hG : s.tidy (.reserve a b)) (hs : s.step (.reserve a b) = some s') :
    s'.Ok base size := by
  rw [step] at hs
  split_ifs at hs with hfull
  obtain rfl := Option.some.inj hs
  rw [not_or, Bool.not_eq_true] at hfull
  have hnone := h.first hfull.1
  have hraw : ∀ x ∈ bytes (a, b), pageDown a ≤ x ∧ x < pageUp b := fun x hx => by
    refine ⟨(pageDown_le a).trans hx.1, lt_of_lt_of_le hx.2 ?_⟩
    rw [pageUp_of_lt hG]
    exact le_pageDown_add b
  rcases buddyStartupReserve_spec hbase hsize ⟨h.memBase, h.memEnd⟩ (not_le.mp hfull.2) (a := a)
    (b := b) with ⟨heq, hout⟩ | ⟨e, heq, he, hin⟩
  · refine ⟨?_, ?_, ?_, ?_, ?_, h.first, ?_⟩ <;> simp only [heq, hnone]
    · exact h.memBase
    · exact h.memEnd
    · exact h.entry
    · intro g hg x hx hlow hhigh
      rcases List.mem_cons.mp hg with rfl | hg
      · exact absurd hhigh (hout x (hraw x hx).1 (hraw x hx).2 hlow)
      · exact h.covered g hg x hx hlow hhigh
    · exact nofun
    · exact ⟨nofun, nofun, nofun, List.Pairwise.nil⟩
  · refine ⟨?_, ?_, ?_, ?_, ?_, h.first, ?_⟩ <;> simp only [heq, hnone]
    · exact h.memBase
    · exact h.memEnd
    · intro e' he'
      rcases List.mem_append.mp he' with he' | he'
      · exact h.entry e' he'
      · exact List.mem_singleton.mp he' ▸ he
    · intro g hg x hx hlow hhigh
      rcases List.mem_cons.mp hg with rfl | hg
      · exact ⟨e, List.mem_append_right _ (List.mem_singleton_self e),
          hin x (hraw x hx).1 (hraw x hx).2 hlow hhigh⟩
      · obtain ⟨e', he', hx'⟩ := h.covered g hg x hx hlow hhigh
        exact ⟨e', List.mem_append_left _ he', hx'⟩
    · exact nofun
    · exact ⟨nofun, nofun, nofun, List.Pairwise.nil⟩

/-- What the scan finds in a table whose ends come in the order of their starts. -/
theorem gap_of_sorted {st : Startup} (hbase : pageSize ∣ base)
    (hst : st.gSaMemBase = base ∧ st.gSaMemEnd = base + size)
    (hentry : ∀ e ∈ st.gSaReserves, Entry base size e) {n : ℕ}
    (hroom : base + size + roundUp n < 2 ^ 64)
    (hsorted : st.saSortReserves.gSaReserves.Pairwise fun a b => a.2 ≤ b.2)
    (hret : st.saSortReserves.saFindFirstFree (roundUp n) ≠ 0) :
    pageSize ∣ st.saSortReserves.saFindFirstFree (roundUp n) ∧
      base ≤ st.saSortReserves.saFindFirstFree (roundUp n) ∧
      st.saSortReserves.saFindFirstFree (roundUp n) + roundUp n ≤ base + size ∧
      ∀ e ∈ st.gSaReserves, st.saSortReserves.saFindFirstFree (roundUp n) + roundUp n ≤ e.1 ∨
        e.2 ≤ st.saSortReserves.saFindFirstFree (roundUp n) := by
  have hentry' : ∀ e ∈ st.saSortReserves.gSaReserves, Entry base size e := fun e he =>
    hentry e (mem_saSort.mp he)
  have hfind : st.saSortReserves.saFindFirstFree (roundUp n) =
      saFindLoop (base + size) (roundUp n) base st.saSortReserves.gSaReserves := by
    show saFindLoop st.gSaMemEnd _ st.gSaMemBase _ = _
    rw [hst.1, hst.2]
  rw [hfind] at hret ⊢
  obtain ⟨hd, hlow, hhigh⟩ := saFindLoop_inside hroom hbase le_rfl (Nat.le_add_right _ _)
    (fun e he => ⟨(hentry' e he).end_dvd, (hentry' e he).base_le.trans (hentry' e he).le,
      (hentry' e he).le.trans (hentry' e he).le_end, (hentry' e he).le_end⟩) hret
  obtain ⟨-, hoff⟩ := saFindLoop_disjoint hroom hbase (Nat.le_add_right _ _)
    (fun e he => ⟨(hentry' e he).end_dvd, (hentry' e he).le_end⟩)
    (fun e he => (hentry' e he).base_le.trans (hentry' e he).le) (saSort_sorted _) hsorted hret
  exact ⟨hd, hlow, hhigh, fun e he => hoff e (mem_saSort.mpr he)⟩

/-- What an allocation that succeeds finds. -/
theorem Ok.gap (h : s.Ok base size) (hbase : pageSize ∣ base) {n : ℕ}
    (hG : s.tidy (.alloc n))
    (hret : s.startup.saSortReserves.saFindFirstFree (roundUp n) ≠ 0) :
    pageSize ∣ s.startup.saSortReserves.saFindFirstFree (roundUp n) ∧
      base ≤ s.startup.saSortReserves.saFindFirstFree (roundUp n) ∧
      s.startup.saSortReserves.saFindFirstFree (roundUp n) + roundUp n ≤ base + size ∧
      ∀ e ∈ s.startup.gSaReserves,
        Disjoint (span (s.startup.saSortReserves.saFindFirstFree (roundUp n), roundUp n))
          (bytes e) := by
  obtain ⟨hroom, hend⟩ := hG
  rw [h.memEnd] at hroom
  obtain ⟨hd, hlow, hhigh, hoff⟩ :=
    gap_of_sorted hbase ⟨h.memBase, h.memEnd⟩ h.entry hroom hend hret
  refine ⟨hd, hlow, hhigh, fun e he => Set.disjoint_left.mpr fun x hx hx' => ?_⟩
  have hx1 := hx.1
  have hx2 := hx.2
  dsimp only at hx1 hx2
  rcases hoff e he with hoff | hoff
  · have := hx'.1
    omega
  · have := hx'.2
    omega

/-- A length that can be rounded up. -/
theorem add_lt_of_roundUp_lt {n m : ℕ} (h : m + roundUp n < 2 ^ 64) :
    n + pageSize - 1 < 2 ^ 64 := by
  have hlt := lt_pageDown_add (n + pageSize - 1)
  obtain ⟨q, hq⟩ := dvd_pageDown (n + pageSize - 1)
  unfold roundUp at h
  unfold pageSize at *
  omega

theorem Ok.alloc (h : s.Ok base size) (hbase : pageSize ∣ base) {n : ℕ}
    (hG : s.tidy (.alloc n)) (hs : s.step (.alloc n) = some s') : s'.Ok base size := by
  rw [step] at hs
  split_ifs at hs with hn
  obtain ⟨⟨st, ret⟩, hr, rfl⟩ := Option.map_eq_some_iff.mp hs
  have hgap := h.gap hbase hG
  obtain ⟨hfind, hmemBase, hmemEnd, hmem⟩ := buddyStartupAlloc_spec hr
  rw [show pageUp n = roundUp n from pageUp_of_lt (add_lt_of_roundUp_lt hG.1)] at hfind hmem
  rw [← hfind] at hgap
  have hkeep : ∀ e ∈ s.startup.gSaReserves, e ∈ st.gSaReserves := fun e he =>
    (hmem e).mpr (Or.inl he)
  have hroom := hG.1
  rw [h.memEnd] at hroom
  refine ⟨hmemBase.trans h.memBase, hmemEnd.trans h.memEnd, fun e he => ?_,
    fun g hg x hx h1 h2 => ?_, ?_, nofun, ?_⟩
  · rcases (hmem e).mp he with he | ⟨hret, rfl⟩
    · exact h.entry e he
    · obtain ⟨hd, hlow, hhigh, -⟩ := hgap hret
      rw [u64_of_lt (by omega)]
      exact ⟨hd, Nat.dvd_add hd (dvd_pageDown _), hlow, Nat.le_add_right _ _, hhigh⟩
  · obtain ⟨e, he, hxe⟩ := h.covered g hg x hx h1 h2
    exact ⟨e, hkeep e he, hxe⟩
  · dsimp only
    split_ifs with hret
    · exact fun r hr => hkeep _ (h.recorded r hr)
    · obtain ⟨-, -, hhigh, -⟩ := hgap hret
      refine List.forall_mem_cons.mpr ⟨(hmem _).mpr (Or.inr ⟨hret, ?_⟩),
        fun r hr => hkeep _ (h.recorded r hr)⟩
      rw [u64_of_lt (by omega)]
  · dsimp only
    split_ifs with hret
    · exact ⟨h.placed.aligned, h.placed.inside, h.placed.reserved, h.placed.apart⟩
    · obtain ⟨hd, hlow, hhigh, hoff⟩ := hgap hret
      refine ⟨List.forall_mem_cons.mpr ⟨hd, h.placed.aligned⟩,
        List.forall_mem_cons.mpr ⟨⟨hlow, hhigh⟩, h.placed.inside⟩,
        List.forall_mem_cons.mpr ⟨fun g hg => ?_, h.placed.reserved⟩,
        List.pairwise_cons.mpr ⟨fun r hr => hoff _ (h.recorded r hr), h.placed.apart⟩⟩
      -- what the region has in the memory is covered by entries, which the gap does not meet
      refine Set.disjoint_left.mpr fun x hx hxg => ?_
      have h1 : base ≤ x := hlow.trans hx.1
      have h2 : x < base + size := lt_of_lt_of_le hx.2 hhigh
      obtain ⟨e, he, hxe⟩ := h.covered g hg x hxg h1 h2
      exact Set.disjoint_left.mp (hoff e he) hx hxe

end StartupClient

open StartupClient

/-- **Startup allocations stay off reserved memory.**  In a run in which rounding does not wrap and
no region ends before one that stands earlier in the sorted table, every allocation consists of
whole pages of the memory, off every registered region and every other allocation. -/
theorem placed_of_reachable {base size : ℕ} (hbase : pageSize ∣ base) (hsize : pageSize ∣ size)
    (hend : base + size < 2 ^ 64) {s : StartupClient}
    (hs : Reachable StartupClient.step tidy (StartupClient.start base size) s) :
    Placed base size s := by
  refine (hs.invariant (P := Ok base size) (ok_start hend) fun s c s' h hG hstep => ?_).placed
  cases c with
  | reserve a b => exact h.reserve hbase hsize hG hstep
  | alloc n => exact h.alloc hbase hG hstep

/-- The device tree, the kernel and the metadata of a megabyte. -/
theorem placed_of_boot :
    ∃ s, runList StartupClient.step (StartupClient.start 0x80000000 0x100000)
        [.reserve 0x80080000 0x80081234, .reserve 0x80000000 0x80020000, .alloc 1024, .alloc 256] =
          some s ∧
      s.results = [(0x80021000, 0x1000), (0x80020000, 0x1000)] ∧ Placed 0x80000000 0x100000 s := by
  have hrun : (runList StartupClient.step (StartupClient.start 0x80000000 0x100000)
      [.reserve 0x80080000 0x80081234, .reserve 0x80000000 0x80020000, .alloc 1024, .alloc 256]).map
        results = some [(0x80021000, 0x1000), (0x80020000, 0x1000)] := by
    decide +kernel
  obtain ⟨s, hs, hresults⟩ := Option.map_eq_some_iff.mp hrun
  exact ⟨s, hs, hresults, placed_of_reachable (by decide) (by decide) (by decide)
    (Reachable.of_runList hs (by decide +kernel))⟩

/-- **A region inside another.**  The scan goes back to the end of the inner region, and the
allocation lies in the outer one. -/
theorem nested_of_alloc :
    ∃ s, runList StartupClient.step (StartupClient.start 0x80000000 0x100000)
        [.reserve 0x80000000 0x80010000, .reserve 0x80002000 0x80004000, .alloc 4096] = some s ∧
      s.results = [(0x80004000, 0x1000)] ∧ ¬ Placed 0x80000000 0x100000 s := by
  have hrun : (runList StartupClient.step (StartupClient.start 0x80000000 0x100000)
      [.reserve 0x80000000 0x80010000, .reserve 0x80002000 0x80004000, .alloc 4096]).map
        (fun s => (s.results, s.registered)) =
      some ([(0x80004000, 0x1000)], [(0x80002000, 0x80004000), (0x80000000, 0x80010000)]) := by
    decide +kernel
  obtain ⟨s, hs, heq⟩ := Option.map_eq_some_iff.mp hrun
  obtain ⟨hresults, hregistered⟩ := Prod.mk.inj heq
  refine ⟨s, hs, hresults, fun h => ?_⟩
  have hd := h.reserved (0x80004000, 0x1000) (by simp [hresults]) (0x80000000, 0x80010000)
    (by simp [hregistered])
  have hin : 0x80004000 ∈ span (0x80004000, 0x1000) := by constructor <;> decide
  have hout : 0x80004000 ∈ bytes (0x80000000, 0x80010000) := by constructor <;> decide
  exact Set.disjoint_left.mp hd hin hout

end OscKernel
