import OscKernel.Buddy.Startup
import Mathlib.Data.List.Range
import Mathlib.Logic.Function.Basic

/-!
# The table of the startup allocator, entry by entry (`buddy.c`)

`g_sa_reserves` has room for `BUDDY_STARTUP_MAX_RESERVES` entries.  Here it is an array with no end,
and every index that is read or written is noted, so that an access behind the table can be seen.

* `toStartup_buddyStartupReserve`, `buddyStartupAlloc_eq`: this is the allocator of the lists, which
  has no result where the array is written behind its end.
* `inBounds_iff`: no index lies behind the table exactly as long as no allocation finds a gap when
  the table is full.
* `outOfBounds_of_alloc`: an allocation after sixteen regions writes behind the table.

## The two models

The list model leaves out what an array is: that sorting moves entries one by one through a hole,
and that the scan reads the start and the end of an entry separately.  It can be reasoned about, and
says nothing about indices.  The array model notes them (`accessed`), and `toStartup` connects the
two: sorting, scanning, registering and allocating give the same table.

## The condition

`buddy_startup_reserve` tests the number of entries before it writes one, and `buddy_startup_alloc`
does not.  What sorting and scanning access lies below the number of entries in any case (`Within`).
So the only access that can leave the table is the entry of an allocation, and `HasRoom` says when
it does not: there is room, or the scan, a pure search in the table before the call, finds nothing
to enter.  Calls may come in any order and any number, `buddy_startup_init` included, which empties
the table again.
-/

namespace OscKernel

open Transition

/-- The static state of the startup allocator, and the indices at which `g_sa_reserves` was read or
written. -/
structure SaTable where
  gSaReserves : ℕ → ℕ × ℕ
  gSaReserveCount : ℕ
  gSaMemBase : ℕ
  gSaMemEnd : ℕ
  accessed : List ℕ

namespace SaTable

/-- Before the first call. -/
def start : SaTable := ⟨fun _ => (0, 0), 0, 0, 0, []⟩

/-- A read of `g_sa_reserves[i]`. -/
def read (s : SaTable) (i : ℕ) : SaTable := { s with accessed := i :: s.accessed }

/-- A write of `g_sa_reserves[i]`. -/
def write (s : SaTable) (i : ℕ) (e : ℕ × ℕ) : SaTable :=
  { s with gSaReserves := Function.update s.gSaReserves i e, accessed := i :: s.accessed }

/-- The inner loop of `sa_sort_reserves`, with `j + 1` for the variable `j`, which ends at `-1`; the
place for the entry that starts at `ks`. -/
def shift (ks : ℕ) : ℕ → SaTable → ℕ × SaTable
  | 0, s => (0, s)
  | j + 1, s =>
      if (s.gSaReserves j).1 > ks then
        shift ks j (((s.read j).read j).write (j + 1) (s.gSaReserves j))
      else (j + 1, s.read j)

/-- One round of `sa_sort_reserves`. -/
def sortStep (s : SaTable) (i : ℕ) : SaTable :=
  let k := s.gSaReserves i
  let r := shift k.1 i (s.read i)
  r.2.write r.1 k

/-- `sa_sort_reserves`. -/
def saSortReserves (s : SaTable) : SaTable :=
  (List.range' 1 (s.gSaReserveCount - 1)).foldl sortStep s

/-- The loop of `sa_find_first_free`, with the number of entries from the `i`th on. -/
def saFindLoop (size : ℕ) : ℕ → ℕ → ℕ → SaTable → SaTable × ℕ
  | 0, _, cursor, s =>
      (s, if u64 (pageUp cursor + size) ≤ s.gSaMemEnd then pageUp cursor else 0)
  | n + 1, i, cursor, s =>
      if u64 (pageUp cursor + size) ≤ (s.gSaReserves i).1 then (s.read i, pageUp cursor)
      else saFindLoop size n (i + 1) (s.gSaReserves i).2 ((s.read i).read i)

/-- `sa_find_first_free`. -/
def saFindFirstFree (s : SaTable) (size : ℕ) : SaTable × ℕ :=
  saFindLoop size s.gSaReserveCount 0 s.gSaMemBase s

/-- `buddy_startup_init`. -/
def buddyStartupInit (s : SaTable) (memBase memSize : ℕ) : SaTable :=
  { s with gSaMemBase := memBase, gSaMemEnd := u64 (memBase + memSize), gSaReserveCount := 0 }

/-- A new entry goes to the end of the table. -/
def append (s : SaTable) (e : ℕ × ℕ) : SaTable :=
  { s.write s.gSaReserveCount e with gSaReserveCount := s.gSaReserveCount + 1 }

/-- `buddy_startup_reserve`. -/
def buddyStartupReserve (s : SaTable) (start «end» : ℕ) : SaTable :=
  if s.gSaReserveCount ≥ buddyStartupMaxReserves then s
  else
    let start := pageDown start
    let «end» := pageUp «end»
    let start := if start < s.gSaMemBase then s.gSaMemBase else start
    let «end» := if «end» > s.gSaMemEnd then s.gSaMemEnd else «end»
    if start ≥ «end» then s else s.append (start, «end»)

/-- `buddy_startup_alloc`; the result `0` is `NULL`. -/
def buddyStartupAlloc (s : SaTable) (size : ℕ) : SaTable × ℕ :=
  let size := pageUp size
  let r := s.saSortReserves.saFindFirstFree size
  if r.2 = 0 then (r.1, 0) else (r.1.append (r.2, u64 (r.2 + size)), r.2)

/-- A call of the startup allocator. -/
inductive Call where
  | init (memBase memSize : ℕ)
  | reserve (start «end» : ℕ)
  | alloc (size : ℕ)

/-- One call. -/
def step (s : SaTable) : Call → Option SaTable
  | .init memBase memSize => some (s.buddyStartupInit memBase memSize)
  | .reserve start «end» => some (s.buddyStartupReserve start «end»)
  | .alloc size => some (s.buddyStartupAlloc size).1

/-- **The table was never indexed out of bounds.** -/
structure InBounds (s : SaTable) : Prop where
  count : s.gSaReserveCount ≤ buddyStartupMaxReserves
  accessed : ∀ i ∈ s.accessed, i < buddyStartupMaxReserves

/-- An allocation comes with room in the table, or finds no gap. -/
def HasRoom (s : SaTable) : Call → Prop
  | .alloc size => s.gSaReserveCount < buddyStartupMaxReserves ∨
      (s.saSortReserves.saFindFirstFree (pageUp size)).2 = 0
  | _ => True

/-- The allocator of the lists. -/
def toStartup (s : SaTable) : Startup :=
  ⟨(List.range s.gSaReserveCount).map s.gSaReserves, s.gSaMemBase, s.gSaMemEnd⟩

/-! ## What the loops access -/

/-- From `s` to `s'` only entries below the `n`th were read or written. -/
structure Within (n : ℕ) (s s' : SaTable) : Prop where
  count : s'.gSaReserveCount = s.gSaReserveCount
  memBase : s'.gSaMemBase = s.gSaMemBase
  memEnd : s'.gSaMemEnd = s.gSaMemEnd
  kept : ∀ i, n ≤ i → s'.gSaReserves i = s.gSaReserves i
  accessed : ∀ i ∈ s'.accessed, i ∈ s.accessed ∨ i < n
  noted : ∀ i ∈ s.accessed, i ∈ s'.accessed

variable {s s' s'' : SaTable} {n m i j : ℕ}

theorem Within.refl (s : SaTable) (n : ℕ) : Within n s s :=
  ⟨rfl, rfl, rfl, fun _ _ => rfl, fun _ => Or.inl, fun _ => id⟩

theorem Within.trans (h : Within n s s') (h' : Within n s' s'') : Within n s s'' where
  count := h'.count.trans h.count
  memBase := h'.memBase.trans h.memBase
  memEnd := h'.memEnd.trans h.memEnd
  kept i hi := (h'.kept i hi).trans (h.kept i hi)
  accessed i hi := (h'.accessed i hi).elim (h.accessed i) Or.inr
  noted i hi := h'.noted i (h.noted i hi)

theorem Within.mono (h : Within n s s') (hnm : n ≤ m) : Within m s s' :=
  ⟨h.count, h.memBase, h.memEnd, fun i hi => h.kept i (hnm.trans hi),
    fun i hi => (h.accessed i hi).imp_right fun hlt => hlt.trans_le hnm, h.noted⟩

@[simp] theorem gSaReserves_write (s : SaTable) (i : ℕ) (e : ℕ × ℕ) :
    (s.write i e).gSaReserves i = e := by
  simp only [write, Function.update_self]

theorem gSaReserves_write_of_ne (s : SaTable) (h : j ≠ i) (e : ℕ × ℕ) :
    (s.write i e).gSaReserves j = s.gSaReserves j := by
  simp only [write, Function.update_of_ne h]

theorem within_read (hi : i < n) : Within n s (s.read i) where
  count := rfl
  memBase := rfl
  memEnd := rfl
  kept _ _ := rfl
  accessed k hk := by
    rcases List.mem_cons.mp hk with rfl | hk
    · exact Or.inr hi
    · exact Or.inl hk
  noted k hk := List.mem_cons_of_mem i hk

theorem within_write (hi : i < n) (e : ℕ × ℕ) : Within n s (s.write i e) where
  count := rfl
  memBase := rfl
  memEnd := rfl
  kept k hk := gSaReserves_write_of_ne s (by omega) e
  accessed k hk := by
    rcases List.mem_cons.mp hk with rfl | hk
    · exact Or.inr hi
    · exact Or.inl hk
  noted k hk := List.mem_cons_of_mem i hk

/-- The hole moves down, and only entries up to where it was are accessed. -/
theorem shift_within (ks : ℕ) (hj : j < n) (s : SaTable) :
    (shift ks j s).1 ≤ j ∧ Within n s (shift ks j s).2 := by
  induction j generalizing s with
  | zero => exact ⟨le_rfl, Within.refl s n⟩
  | succ j ih =>
    have hread : ∀ t : SaTable, Within n t (t.read j) := fun t => within_read (by omega)
    rw [shift]
    split_ifs with hgt
    · obtain ⟨hle, hwithin⟩ := ih (by omega)
        (((s.read j).read j).write (j + 1) (s.gSaReserves j))
      exact ⟨hle.trans (Nat.le_succ j),
        (((hread s).trans (hread _)).trans (within_write hj _)).trans hwithin⟩
    · exact ⟨le_rfl, hread s⟩

theorem sortStep_within (hi : i < n) (s : SaTable) : Within n s (s.sortStep i) := by
  obtain ⟨hle, hwithin⟩ := shift_within (s.gSaReserves i).1 hi (s.read i)
  exact ((within_read hi).trans hwithin).trans (within_write (by omega) _)

theorem foldl_sortStep_within {l : List ℕ} (hl : ∀ i ∈ l, i < n) (s : SaTable) :
    Within n s (l.foldl sortStep s) := by
  induction l generalizing s with
  | nil => exact Within.refl s n
  | cons i l ih =>
    obtain ⟨hi, hl⟩ := List.forall_mem_cons.mp hl
    exact (sortStep_within hi s).trans (ih hl _)

/-- Sorting accesses the entries of the table. -/
theorem saSortReserves_within (s : SaTable) : Within s.gSaReserveCount s s.saSortReserves :=
  foldl_sortStep_within (fun i hi => by
    obtain ⟨k, hk, rfl⟩ := List.mem_range'.mp hi
    omega) s

theorem saFindLoop_within (size : ℕ) (hn : i + n ≤ m) (cursor : ℕ) (s : SaTable) :
    Within m s (saFindLoop size n i cursor s).1 := by
  induction n generalizing i cursor s with
  | zero => exact Within.refl s m
  | succ n ih =>
    have hread : ∀ t : SaTable, Within m t (t.read i) := fun t => within_read (by omega)
    rw [saFindLoop]
    split_ifs
    · exact hread s
    · exact ((hread s).trans (hread _)).trans (ih (by omega) _ _)

/-- The scan accesses the entries of the table. -/
theorem saFindFirstFree_within (s : SaTable) (size : ℕ) :
    Within s.gSaReserveCount s (s.saFindFirstFree size).1 :=
  saFindLoop_within size (by omega) _ s

/-- Sorting and the scan together. -/
theorem search_within (s : SaTable) (size : ℕ) :
    Within s.gSaReserveCount s (s.saSortReserves.saFindFirstFree size).1 := by
  have hsort := saSortReserves_within s
  have hfind := saFindFirstFree_within s.saSortReserves size
  rw [hsort.count] at hfind
  exact hsort.trans hfind

/-! ## The allocator of the lists -/

/-- The entries below the `n`th. -/
def entries (s : SaTable) (n : ℕ) : List (ℕ × ℕ) := (List.range n).map s.gSaReserves

theorem entries_succ (s : SaTable) (n : ℕ) :
    s.entries (n + 1) = s.entries n ++ [s.gSaReserves n] := by
  rw [entries, List.range_succ, List.map_append, List.map_singleton, entries]

theorem entries_congr (h : ∀ i < n, s'.gSaReserves i = s.gSaReserves i) :
    s'.entries n = s.entries n :=
  List.map_congr_left fun i hi => h i (List.mem_range.mp hi)

theorem entries_write (hi : n ≤ i) (e : ℕ × ℕ) : (s.write i e).entries n = s.entries n :=
  entries_congr fun _ hk => gSaReserves_write_of_ne s (by omega) e

/-- An entry that starts later than `r` moves up, any other stays. -/
theorem saInsert_append_singleton (l : List (ℕ × ℕ)) (x r : ℕ × ℕ) :
    Startup.saInsert (l ++ [x]) r =
      if x.1 > r.1 then Startup.saInsert l r ++ [x] else l ++ [x, r] := by
  unfold Startup.saInsert
  split_ifs with hx
  · rw [List.rdropWhile_concat_pos _ _ _ (by simpa using hx),
      List.rtakeWhile_concat_pos _ _ _ (by simpa using hx), List.append_assoc, List.cons_append]
  · rw [List.rdropWhile_concat_neg _ _ _ (by simpa using hx),
      List.rtakeWhile_concat_neg _ _ _ (by simpa using hx), List.append_assoc]
    rfl

/-- Shifting makes room for `r` in a sorted part of `j` entries, whatever stands behind it. -/
theorem entries_shift (r : ℕ × ℕ) (j : ℕ) (s : SaTable) :
    ((shift r.1 j s).2.write (shift r.1 j s).1 r).entries (j + 1) =
      Startup.saInsert (s.entries j) r := by
  induction j generalizing s with
  | zero =>
    rw [entries_succ]
    exact congrArg (fun e => [e]) (gSaReserves_write _ _ r)
  | succ j ih =>
    rw [entries_succ s j, saInsert_append_singleton, shift]
    split_ifs with hgt
    · set t := ((s.read j).read j).write (j + 1) (s.gSaReserves j) with ht
      have hkept : (shift r.1 j t).2.gSaReserves (j + 1) = s.gSaReserves j := by
        rw [(shift_within r.1 (Nat.lt_succ_self j) t).2.kept (j + 1) le_rfl, ht, gSaReserves_write]
      have hle : (shift r.1 j t).1 ≤ j := (shift_within r.1 (Nat.lt_succ_self j) t).1
      rw [entries_succ, ih t, ht, entries_write (Nat.le_succ j)]
      congr 2
      exact (gSaReserves_write_of_ne _ (Nat.ne_of_gt (Nat.lt_succ_of_le hle)) r).trans hkept
    · rw [entries_succ, gSaReserves_write, entries_write le_rfl]
      show s.entries (j + 1) ++ [r] = _
      rw [entries_succ, List.append_assoc]
      rfl

theorem entries_sortStep (s : SaTable) (i : ℕ) :
    (s.sortStep i).entries (i + 1) = Startup.saInsert (s.entries i) (s.gSaReserves i) :=
  entries_shift (s.gSaReserves i) i (s.read i)

/-- After `k` rounds the first `k + 1` entries are in order and the others have not moved. -/
theorem entries_foldl_sortStep (s : SaTable) (k : ℕ) :
    ((List.range' 1 k).foldl sortStep s).entries (k + 1) =
      (s.entries (k + 1)).foldl Startup.saInsert [] := by
  induction k with
  | zero => rfl
  | succ k ih =>
    have hkept := (foldl_sortStep_within (n := k + 1) (l := List.range' 1 k) (fun i hi => by
      obtain ⟨a, ha, rfl⟩ := List.mem_range'.mp hi
      omega) s).kept (k + 1) le_rfl
    rw [List.range'_concat, List.foldl_append, List.foldl_cons, List.foldl_nil, Nat.one_mul,
      Nat.add_comm 1 k, entries_sortStep, ih, hkept, entries_succ s (k + 1), List.foldl_append]
    rfl

/-- The list model sorts as the table is sorted. -/
theorem toStartup_saSortReserves (s : SaTable) :
    s.saSortReserves.toStartup = s.toStartup.saSortReserves := by
  have hwithin := saSortReserves_within s
  have hentries : s.saSortReserves.entries s.gSaReserveCount =
      (s.entries s.gSaReserveCount).foldl Startup.saInsert [] := by
    cases hcount : s.gSaReserveCount with
    | zero => rfl
    | succ k =>
      have h := entries_foldl_sortStep s k
      rw [saSortReserves, hcount]
      exact h
  unfold toStartup Startup.saSortReserves
  rw [hwithin.count, hwithin.memBase, hwithin.memEnd]
  exact congrArg (fun l => Startup.mk l s.gSaMemBase s.gSaMemEnd) hentries

theorem saFindLoop_eq (size i n cursor : ℕ) (s : SaTable) :
    (saFindLoop size n i cursor s).2 =
      Startup.saFindLoop s.gSaMemEnd size cursor ((List.range' i n).map s.gSaReserves) := by
  induction n generalizing i cursor s with
  | zero => rfl
  | succ n ih =>
    rw [saFindLoop, List.range'_succ, List.map_cons, Startup.saFindLoop]
    split_ifs
    · rfl
    · exact ih _ _ _

/-- The scan of the table is the scan of the list. -/
theorem saFindFirstFree_eq (s : SaTable) (size : ℕ) :
    (s.saFindFirstFree size).2 = s.toStartup.saFindFirstFree size := by
  rw [saFindFirstFree, saFindLoop_eq, ← List.range_eq_range']
  rfl

theorem Within.toStartup (h : Within n s s')
    (hkept : ∀ i < s.gSaReserveCount, s'.gSaReserves i = s.gSaReserves i) :
    s'.toStartup = s.toStartup := by
  have hentries := entries_congr hkept
  unfold SaTable.toStartup
  rw [h.count, h.memBase, h.memEnd]
  exact congrArg (fun l => Startup.mk l s.gSaMemBase s.gSaMemEnd) hentries

theorem gSaReserves_saFindLoop (size n i cursor : ℕ) (s : SaTable) :
    (saFindLoop size n i cursor s).1.gSaReserves = s.gSaReserves := by
  induction n generalizing i cursor s with
  | zero => rfl
  | succ n ih =>
    rw [saFindLoop]
    split_ifs
    · rfl
    · exact ih _ _ _

/-- The scan leaves the table as it is. -/
theorem toStartup_saFindFirstFree (s : SaTable) (size : ℕ) :
    (s.saFindFirstFree size).1.toStartup = s.toStartup :=
  (saFindFirstFree_within s size).toStartup fun i _ =>
    congrFun (gSaReserves_saFindLoop size _ 0 _ s) i

theorem toStartup_append (s : SaTable) (e : ℕ × ℕ) :
    (s.append e).toStartup =
      { s.toStartup with gSaReserves := s.toStartup.gSaReserves ++ [e] } := by
  have hentries : (s.append e).entries (s.gSaReserveCount + 1) =
      s.entries s.gSaReserveCount ++ [e] := by
    show (s.write s.gSaReserveCount e).entries (s.gSaReserveCount + 1) = _
    rw [entries_succ, entries_write le_rfl, gSaReserves_write]
  exact congrArg (fun l => Startup.mk l s.gSaMemBase s.gSaMemEnd) hentries

theorem length_toStartup (s : SaTable) : s.toStartup.gSaReserves.length = s.gSaReserveCount := by
  rw [toStartup, List.length_map, List.length_range]

/-- **Registering a region**, in the table and in the list. -/
theorem toStartup_buddyStartupReserve (s : SaTable) (a b : ℕ) :
    (s.buddyStartupReserve a b).toStartup = s.toStartup.buddyStartupReserve a b := by
  unfold buddyStartupReserve Startup.buddyStartupReserve
  rw [length_toStartup]
  dsimp only
  split_ifs <;> first | rfl | contradiction | exact toStartup_append s _

/-- **An allocation**, in the table and in the list, where it has no result when it would write
behind the table. -/
theorem buddyStartupAlloc_eq (s : SaTable) (size : ℕ) :
    s.toStartup.buddyStartupAlloc size =
      if s.gSaReserveCount < buddyStartupMaxReserves ∨ (s.buddyStartupAlloc size).2 = 0 then
        some ((s.buddyStartupAlloc size).1.toStartup, (s.buddyStartupAlloc size).2)
      else none := by
  have hfind : (s.saSortReserves.saFindFirstFree (pageUp size)).2 =
      s.toStartup.saSortReserves.saFindFirstFree (pageUp size) := by
    rw [saFindFirstFree_eq, toStartup_saSortReserves]
  have htable : (s.saSortReserves.saFindFirstFree (pageUp size)).1.toStartup =
      s.toStartup.saSortReserves := by
    rw [toStartup_saFindFirstFree, toStartup_saSortReserves]
  have hlength : s.toStartup.saSortReserves.gSaReserves.length = s.gSaReserveCount := by
    rw [← toStartup_saSortReserves, length_toStartup, (saSortReserves_within s).count]
  rw [Startup.buddyStartupAlloc, ← hfind, hlength]
  by_cases hret : (s.saSortReserves.saFindFirstFree (pageUp size)).2 = 0
  · have halloc : s.buddyStartupAlloc size =
        ((s.saSortReserves.saFindFirstFree (pageUp size)).1, 0) := if_pos hret
    rw [halloc, if_pos hret, if_pos (Or.inr rfl), htable]
  · have halloc : s.buddyStartupAlloc size =
        ((s.saSortReserves.saFindFirstFree (pageUp size)).1.append
          ((s.saSortReserves.saFindFirstFree (pageUp size)).2,
            u64 ((s.saSortReserves.saFindFirstFree (pageUp size)).2 + pageUp size)),
          (s.saSortReserves.saFindFirstFree (pageUp size)).2) := if_neg hret
    rw [halloc, if_neg hret, toStartup_append, htable]
    by_cases hroom : s.gSaReserveCount < buddyStartupMaxReserves
    · rw [if_pos hroom, if_pos (Or.inl hroom)]
    · rw [if_neg hroom, if_neg (not_or.mpr ⟨hroom, hret⟩)]

/-! ## Bounds -/

theorem InBounds.within (h : s.InBounds) (hw : Within s.gSaReserveCount s s') : s'.InBounds :=
  ⟨hw.count.trans_le h.count, fun i hi =>
    (hw.accessed i hi).elim (h.accessed i) fun hlt => hlt.trans_le h.count⟩

/-- An entry goes inside the table exactly when there is room. -/
theorem inBounds_append (h : s.InBounds) (e : ℕ × ℕ) :
    (s.append e).InBounds ↔ s.gSaReserveCount < buddyStartupMaxReserves := by
  refine ⟨fun h' => h'.accessed _ List.mem_cons_self, fun hlt => ⟨hlt, fun i hi => ?_⟩⟩
  rcases List.mem_cons.mp hi with rfl | hi
  · exact hlt
  · exact h.accessed i hi

/-- A region is entered only when there is room. -/
theorem buddyStartupReserve_cases (s : SaTable) (a b : ℕ) :
    s.buddyStartupReserve a b = s ∨
      s.gSaReserveCount < buddyStartupMaxReserves ∧
        ∃ e, s.buddyStartupReserve a b = s.append e := by
  by_cases hfull : s.gSaReserveCount ≥ buddyStartupMaxReserves
  · exact Or.inl (if_pos hfull)
  · rw [buddyStartupReserve, if_neg hfull]
    exact (ite_eq_or_eq _ _ _).imp_right fun heq => ⟨not_le.mp hfull, _, heq⟩

theorem InBounds.reserve (h : s.InBounds) (a b : ℕ) : (s.buddyStartupReserve a b).InBounds := by
  rcases s.buddyStartupReserve_cases a b with heq | ⟨hroom, e, heq⟩
  · rwa [heq]
  · rw [heq]
    exact (inBounds_append h e).mpr hroom

/-- An allocation accesses the table only, unless it records a gap when the table is full. -/
theorem inBounds_alloc (h : s.InBounds) (size : ℕ) :
    (s.buddyStartupAlloc size).1.InBounds ↔ s.HasRoom (.alloc size) := by
  have hw := search_within s (pageUp size)
  have hin := h.within hw
  unfold buddyStartupAlloc HasRoom
  dsimp only
  split_ifs with hret
  · exact iff_of_true hin (Or.inr hret)
  · rw [inBounds_append hin, hw.count, or_iff_left hret]

theorem inBounds_step {c : Call} (h : s.InBounds) (hs : s.step c = some s') :
    s.HasRoom c ↔ s'.InBounds := by
  cases c with
  | init base size =>
    obtain rfl := Option.some.inj hs
    exact iff_of_true trivial ⟨Nat.zero_le _, h.accessed⟩
  | reserve a b =>
    obtain rfl := Option.some.inj hs
    exact iff_of_true trivial (h.reserve a b)
  | alloc size =>
    obtain rfl := Option.some.inj hs
    exact (inBounds_alloc h size).symm

theorem inBounds_start : start.InBounds := ⟨Nat.zero_le _, nofun⟩

/-- Every sequence of calls runs. -/
theorem exists_runList (s : SaTable) (calls : List Call) :
    ∃ s', runList step s calls = some s' := by
  induction calls generalizing s with
  | nil => exact ⟨s, rfl⟩
  | cons c calls ih =>
    rw [runList_cons]
    cases c <;> exact ih _

end SaTable

open SaTable

/-- **The startup table.**  A sequence of calls never indexes the table out of bounds, nor counts
more entries than it has room for, exactly when every allocation in it comes with room in the table
or finds no gap. -/
theorem inBounds_iff (calls : List SaTable.Call) :
    (∀ bs, bs <+: calls → ∀ s, runList SaTable.step SaTable.start bs = some s → s.InBounds) ↔
      Meets SaTable.step HasRoom SaTable.start calls := by
  obtain ⟨s, hs⟩ := exists_runList SaTable.start calls
  exact forall_prefix_iff_meets (fun _ _ _ => inBounds_step) hs inBounds_start

/-- **An entry behind the table.**  Sixteen regions fill the table, and the allocation that comes
next is recorded behind its end. -/
theorem outOfBounds_of_alloc :
    ∃ s, runList SaTable.step SaTable.start (.init 0x80000000 0x100000 ::
        List.replicate 16 (.reserve 0x80000000 0x80001000) ++ [.alloc 4096]) = some s ∧
      s.gSaReserveCount = 17 ∧ 16 ∈ s.accessed ∧ ¬ s.InBounds := by
  have hrun : (runList SaTable.step SaTable.start (.init 0x80000000 0x100000 ::
      List.replicate 16 (.reserve 0x80000000 0x80001000) ++ [.alloc 4096])).map
        (fun s => (s.gSaReserveCount, s.accessed.head?)) = some (17, some 16) := by
    decide +kernel
  obtain ⟨s, hs, heq⟩ := Option.map_eq_some_iff.mp hrun
  obtain ⟨hcount, hhead⟩ := Prod.mk.inj heq
  have hmem : 16 ∈ s.accessed := List.mem_of_mem_head? hhead
  exact ⟨s, hs, hcount, hmem, fun h => absurd (h.accessed 16 hmem) (by decide)⟩

end OscKernel
