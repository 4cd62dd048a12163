import OscKernel.Kmalloc.Run

/-!
# The blocks below the heap

What one call of the heap does to the blocks of the buddy allocator.

* `HeapClient.Ok.blockMove`: nothing, or it takes a block that nobody owned, or it gives up the
  block of a holder.

This is the view from below: chunks and holders of chunks are gone, and a call is seen as nothing,
or one grant, or one release.  Whether a call splits or merges blocks on the way does not show.
What the boot modules prove about reserved frames, and the isolation of the processes about the
pages of their blocks, needs no more than this.
-/

namespace OscKernel

open DyadicBlock Buddy

namespace HeapClient

variable {s s' : HeapClient} {fl : ℕ → List ℕ} {i : ℕ} {g : Grant}

/-- A call of the heap leaves the blocks alone, or takes a block that nobody owned, or gives up the
block of a holder. -/
inductive BlockMove (s s' : HeapClient) : Prop where
  | same (hb : s'.heap.buddy = s.heap.buddy) (hsl : ∀ e ∈ s'.sliced, e ∈ s.sliced)
      (hlive : ∀ g ∈ s'.live, findPool g.size = none → g ∈ s.live)
  | grant (idx k : ℕ) (hg : Grants s.heap.buddy s'.heap.buddy idx k)
      (hsl : ∀ e ∈ s'.sliced, e ∈ s.sliced ∨ e.1 = idx)
      (hlive : ∀ g ∈ s'.live, findPool g.size = none → g ∈ s.live ∨
        g.ptr = s.heap.buddy.idxToAddr idx)
  | release (g : Grant) (idx : ℕ) (hg : g ∈ s.live) (hp : findPool g.size = none)
      (ha : s.heap.buddy.AllocBlock idx (requestOrder g.size))
      (hptr : g.ptr = s.heap.buddy.idxToAddr idx)
      (hrel : Releases s.heap.buddy s'.heap.buddy idx (requestOrder g.size))
      (hsl : ∀ e ∈ s'.sliced, e ∈ s.sliced) (hlive : ∀ g ∈ s'.live, g ∈ s.live)

theorem mem_hold {live : List Grant} {result size : ℕ} (h : g ∈ hold live result size) :
    g ∈ live ∨ result ≠ 0 ∧ g = ⟨result, size⟩ := by
  unfold hold at h
  split_ifs at h with hr
  · exact Or.inl h
  · rcases List.mem_cons.mp h with rfl | h
    · exact Or.inr ⟨hr, rfl⟩
    · exact Or.inl h

/-- The block a request to a pool takes. -/
theorem Ok.blockMove_kmallocSmall (h : s.Ok fl fun _ => []) {live : List Grant}
    (hlive : ∀ g ∈ live, findPool g.size = none → g ∈ s.live) :
    BlockMove s ⟨(s.heap.kmallocSmall i).1, live, newPages s.heap i ++ s.sliced⟩ := by
  unfold Heap.kmallocSmall newPages
  by_cases hempty : (s.heap.pools i).freeList = 0
  · rcases buddyAlloc_cases h.inv pageSize with hnull | ⟨idx, b, hcall, -, hg⟩
    · have hr : s.heap.refill i = (s.heap, 0) := Heap.refill_of_null hnull
      simp only [hempty, hr, if_pos, ne_eq, not_true, and_false, if_false]
      exact .same rfl (fun e he => he) hlive
    · rw [requestOrder_pageSize] at hg
      by_cases haddr : s.heap.buddy.idxToAddr idx = 0
      · rw [haddr] at hcall
        have hr : s.heap.refill i = ({ s.heap with buddy := b }, 0) := Heap.refill_of_null hcall
        simp only [hempty, hr, if_pos, ne_eq, not_true, and_false, if_false]
        exact .grant idx 0 hg (fun e he => Or.inl he) fun g hg hn => Or.inl (hlive g hg hn)
      · have hback : s.heap.addrToPageIdx (s.heap.buddy.idxToAddr idx) = idx :=
          addrToIdx_idxToAddr h.region.inside hg.index_lt
        have hr := Heap.refill_of_page hcall haddr (i := i)
        simp only [hempty, hr, haddr, if_pos, ne_eq, not_false_eq_true, and_true, if_false, hback]
        refine .grant idx 0 hg (fun e he => ?_) fun g hg hn => Or.inl (hlive g hg hn)
        rcases List.mem_append.mp he with he | he
        · exact Or.inr (congrArg Prod.fst (List.mem_singleton.mp he))
        · exact Or.inl he
  · simp only [hempty, false_and, if_false]
    exact .same rfl (fun e he => he) hlive

theorem Ok.blockMove_kmalloc (h : s.Ok fl fun _ => []) {size : ℕ}
    (hs : s.step (.kmalloc size) = some s') : BlockMove s s' := by
  obtain rfl := Option.some.inj hs
  unfold Heap.kmalloc slice
  by_cases h0 : size = 0
  · simp only [h0, if_pos, hold_null]
    exact .same rfl (fun e he => he) fun g hg _ => hg
  · simp only [if_neg h0]
    cases hp : findPool size with
    | some i =>
      refine h.blockMove_kmallocSmall fun g hg hn => ?_
      rcases mem_hold hg with hg | ⟨-, rfl⟩
      · exact hg
      · exact absurd (hp.symm.trans hn) (by simp)
    | none =>
      rcases buddyAlloc_cases h.inv size with hnull | ⟨idx, b, hcall, -, hg⟩
      · have hr : s.heap.kmallocLarge size = (s.heap, 0) := by
          unfold Heap.kmallocLarge
          rw [hnull]
          exact if_pos rfl
        simp only [hr, hold_null]
        exact .same rfl (fun e he => he) fun g hg _ => hg
      · have hb : (s.heap.kmallocLarge size).1.buddy = b ∧
            ((s.heap.kmallocLarge size).2 ≠ 0 →
              (s.heap.kmallocLarge size).2 = s.heap.buddy.idxToAddr idx) := by
          unfold Heap.kmallocLarge
          rw [hcall]
          dsimp only
          split_ifs
          · exact ⟨rfl, fun hne => absurd rfl hne⟩
          · exact ⟨rfl, fun _ => rfl⟩
        refine .grant idx _ (hb.1.symm ▸ hg) (fun e he => Or.inl he) fun g hg _ => ?_
        rcases mem_hold hg with hg | ⟨hne, rfl⟩
        · exact Or.inl hg
        · exact Or.inr (hb.2 hne)

theorem Ok.blockMove (h : s.Ok fl fun _ => []) {c : Call} (hs : s.step c = some s') :
    BlockMove s s' := by
  cases c with
  | kmalloc size => exact h.blockMove_kmalloc hs
  | kfree g =>
    rw [HeapClient.step] at hs
    split_ifs at hs with hg
    obtain rfl := Option.some.inj hs
    have herase : ∀ g' ∈ s.live.erase g, g' ∈ s.live := fun _ => List.mem_of_mem_erase
    cases hp : findPool g.size with
    | some i =>
      refine .same ?_ (fun e he => he) fun g' hg' _ => herase g' hg'
      rw [h.kfree_eq_push hg hp]
      rfl
    | none =>
      obtain ⟨-, idx, ha, hptr, -⟩ := h.large g hg hp
      have hbuddy : (s.heap.kfree g.ptr).buddy = s.heap.buddy.buddyFree g.ptr :=
        congrArg Heap.buddy (h.kfree_eq_buddyFree hg hp)
      rcases buddyFree_cases h.inv ha h.region.inside with ⟨-, hsame⟩ | ⟨-, hrel⟩
      · refine .same ?_ (fun e he => he) fun g' hg' _ => herase g' hg'
        rw [hbuddy, hptr, hsame]
      · refine .release g idx hg hp ha hptr ?_ (fun e he => he) herase
        rw [hbuddy, hptr]
        exact hrel
  | write g addr value =>
    rw [HeapClient.step] at hs
    split_ifs at hs
    obtain rfl := Option.some.inj hs
    exact .same rfl (fun e he => he) fun g hg _ => hg

end HeapClient
end OscKernel
