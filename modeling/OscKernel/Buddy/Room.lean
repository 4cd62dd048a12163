import OscKernel.Buddy.Canonical

/-!
# When `buddy_alloc` fails

`buddy_alloc` returns an address, and the address of the first frame of a region that starts at `0`
is `NULL`.

* `exists_first_iff`: the search finds a block exactly when there is room for one.
* `reportsFailure_iff`: so `NULL` means that there is no room, unless the block that is found is the
  first frame of such a region.
* `null_of_firstFrame`: then a block is granted, and the caller is told that there is none.

## Room

There is room for a request when there is an aligned block of free frames of the smallest order that
is large enough (`Buddy.Room`).  This is about the frames and not about the lists: the frames may be
spread over the lists in any way.  That the search cannot miss such a block is where the lists being
canonical is needed.  It looks at the lists of this order and the larger ones, and the room lies
inside one free block, because a free block that had only a part of it could be merged with the next
(`OscKernel.Buddy.Canonical`).

## The condition

`First` is what the search of `buddy_alloc` finds, as a predicate on the lists before the call.
With a base above `0` no block has the address `NULL`.  With the base `0` it is the block of the
first frame that has it, and a request for which the search ends there is granted and reported as a
failure; the frames stay allocated, and nobody can free them.
-/

namespace OscKernel

open DyadicBlock Buddy Transition

namespace Buddy

variable {b : Buddy} {i k size : ℕ}

/-- There is room for `size` bytes: an aligned block of free frames, of the smallest order that is
large enough. -/
def Room (b : Buddy) (size : ℕ) : Prop :=
  ∃ k, IsLeast {k | size ≤ 2 ^ k * pageSize} k ∧ ∃ i, BlockIn maxOrder b.freeFrames i k

/-- **`NULL` means that there is no room**, and a call that returns it changes nothing. -/
structure ReportsFailure (b : Buddy) (size : ℕ) : Prop where
  null_iff : (b.buddyAlloc size).2 = 0 ↔ ¬ b.Room size
  unchanged : (b.buddyAlloc size).2 = 0 → (b.buddyAlloc size).1.frameArray = b.frameArray ∧
    (b.buddyAlloc size).1.freeList = b.freeList

theorem First.freeBlock (h : b.First k i) : ∃ m, k ≤ m ∧ b.FreeBlock i m := by
  obtain ⟨m, hm, hle, -, hhead⟩ := h
  obtain ⟨rest, hlist⟩ := List.head?_eq_some_iff.mp hhead
  exact ⟨m, hle, hm, hlist ▸ List.mem_cons_self⟩

/-- **The search is complete.**  A free block may be larger than the room that is asked for, but the
room is inside one free block, since no two free blocks could be merged. -/
theorem exists_first_iff (hinv : b.Inv) (hun : b.Unpaired) :
    (∃ i, b.First k i) ↔ ∃ i, BlockIn maxOrder b.freeFrames i k := by
  have hcover := hun.canonicalCover hinv
  constructor
  · rintro ⟨i, hf⟩
    obtain ⟨m, hle, hfree⟩ := hf.freeBlock
    have hin := hcover.blockIn hfree
    refine ⟨i, hle.trans hin.order_le, (pow_dvd_pow 2 hle).trans hin.aligned, ?_⟩
    exact (block_subset_of_mem ((pow_dvd_pow 2 hle).trans hin.aligned) hin.aligned hle
      (self_mem_block i k) (self_mem_block i m)).trans hin.subset
  · rintro ⟨i, hin⟩
    obtain ⟨i', k', hfree, hsub⟩ := hcover.exists_superset hin
    exact hfree.exists_first (le_of_block_subset hsub)

theorem room_iff (hinv : b.Inv) (hun : b.Unpaired) (hround : size + pageSize - 1 < 2 ^ 64) :
    b.Room size ↔ ∃ i, b.First (requestOrder size) i := by
  have hleast := isLeast_requestOrder hround
  rw [exists_first_iff hinv hun]
  constructor
  · rintro ⟨k, hk, hroom⟩
    rwa [hleast.unique hk]
  · exact fun hroom => ⟨_, hleast, hroom⟩

/-- The search finds one block. -/
theorem First.unique {j : ℕ} (h : b.First k i) (h' : b.First k j) : i = j := by
  obtain ⟨m, -, hle, hempty, hhead⟩ := h
  obtain ⟨m', -, hle', hempty', hhead'⟩ := h'
  have hm : m = m' := by
    rcases Nat.lt_trichotomy m m' with hlt | heq | hlt
    · rw [hempty' m hle hlt] at hhead
      cases hhead
    · exact heq
    · rw [hempty m' hle' hlt] at hhead'
      cases hhead'
  subst hm
  exact Option.some_inj.mp (hhead.symm.trans hhead')

end Buddy

/-- **`NULL` means that there is no room** in every state of every run, for every size that can be
rounded up, exactly when the block that the search finds is not the first frame of a region that
starts at `0`. -/
theorem reportsFailure_iff (fa : ℕ → ℤ) {base size : ℕ} (hend : base + size ≤ 2 ^ 64)
    (reserves : List (ℕ × ℕ)) {s : PageClient}
    (hs : Reachable PageClient.step anyStep (bootPages fa base size reserves) s) {n : ℕ}
    (hn : 0 < n) (hround : n + pageSize - 1 < 2 ^ 64) :
    s.buddy.ReportsFailure n ↔ (base = 0 → ¬ s.buddy.First (requestOrder n) 0) := by
  obtain ⟨hok, hun, hregion⟩ := PageClient.kept_of_reachable fa hend reserves hs
  have hbase : s.buddy.gBuddyBase = base := by
    have hunbuilt := unbuilt_reservedBuddy fa base size reserves
    exact hregion.base.trans (hunbuilt.built.2.base.trans hunbuilt.base_eq)
  have hroom := room_iff hok.inv hun hround
  by_cases hfound : ∃ i, s.buddy.First (requestOrder n) i
  · obtain ⟨i, hf⟩ := hfound
    obtain ⟨b', hcall, -, hg⟩ := buddyAlloc_of_first hok.inv hn.ne' hf
    have haddr := idxToAddr_eq hok.region hg.index_lt
    rw [hbase] at haddr
    have hpos : s.buddy.Room n := hroom.mpr ⟨i, hf⟩
    constructor
    · rintro hreport rfl hzero
      obtain rfl := hf.unique hzero
      refine absurd hpos (hreport.null_iff.mp ?_)
      rw [hcall, haddr, Nat.zero_mul]
    · intro hcond
      have hne : (s.buddy.buddyAlloc n).2 ≠ 0 := by
        intro hnull
        rw [hcall, haddr] at hnull
        unfold pageSize at hnull
        have hi : i = 0 := by omega
        exact hcond (by omega) (hi ▸ hf)
      exact ⟨iff_of_false hne (not_not.mpr hpos), fun hnull => absurd hnull hne⟩
  · have hcall := buddyAlloc_of_not_first (not_exists.mp hfound)
    refine iff_of_true ⟨?_, fun _ => ?_⟩ fun _ hf => hfound ⟨0, hf⟩
    · rw [hcall, hroom]
      exact iff_of_true rfl hfound
    · rw [hcall]
      exact ⟨rfl, rfl⟩

/-- A region that starts at `0`, with a first frame that is reserved. -/
theorem reportsFailure_of_reserved :
    (bootPages (fun _ => 0) 0 0x8000 [(0, 0x1000)]).buddy.ReportsFailure 4096 := by
  have hlists : ∀ m ≤ maxOrder,
      ((bootPages (fun _ => 0) 0 0x8000 [(0, 0x1000)]).buddy.freeList m).head? ≠ some 0 := by
    decide +kernel
  refine (reportsFailure_iff (fun _ => 0) (by decide) _ (Reachable.refl _) (by decide)
    (by decide)).mpr ?_
  rintro - ⟨m, hm, -, -, hhead⟩
  exact hlists m hm hhead

/-- **The first frame is granted as `NULL`.**  Two free pages from `0` on: a request for one page is
answered with `NULL`, and the page is allocated. -/
theorem null_of_firstFrame :
    ((bootPages (fun _ => 0) 0 0x2000 []).buddy.buddyAlloc 4096).2 = 0 ∧
      ((bootPages (fun _ => 0) 0 0x2000 []).buddy.buddyAlloc 4096).1.frameArray 0 = allocTag 0 0 ∧
      ¬ (bootPages (fun _ => 0) 0 0x2000 []).buddy.ReportsFailure 4096 := by
  set b := (bootPages (fun _ => 0) 0 0x2000 []).buddy
  have hempty : b.freeList 0 = [] := by decide +kernel
  have hpair : b.freeList 1 = [0] := by decide +kernel
  have hf : b.First (requestOrder 4096) 0 := by
    refine ⟨1, by decide, by decide, fun l _ hl => ?_, by rw [hpair]; rfl⟩
    obtain rfl : l = 0 := by omega
    exact hempty
  have hinv : b.Inv := (unbuilt_reservedBuddy (fun _ => 0) 0 0x2000 []).built.1
  obtain ⟨b', hcall, -, hg⟩ := buddyAlloc_of_first hinv (by decide) hf
  have htag : b'.frameArray 0 = allocTag 0 0 := hg.allocBlock.tagged 0 (self_mem_block _ _)
  have hnull : b.idxToAddr 0 = 0 := by decide +kernel
  rw [hcall]
  refine ⟨hnull, htag, fun h => ?_⟩
  have hsame := congrFun (h.unchanged (hcall ▸ hnull)).1 0
  rw [hcall] at hsame
  have hhead : b.frameArray 0 = 1 := by decide +kernel
  exact absurd (htag.symm.trans (hsame.trans hhead)) (by decide)

end OscKernel
