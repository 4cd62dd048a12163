import OscKernel.Lib.DyadicBlock

/-!
# Canonical covers by aligned blocks

A set of points can be covered by disjoint aligned blocks in many ways, and in one way only when no
block of the cover could be merged with its buddy.

* `exists_superset`: in such a cover every aligned block of points is inside one block.
* `iff_maximalIn`: so the blocks of the cover are the maximal aligned blocks of points.

The blocks have an order of at most `m`, so that two buddies of that order need not be merged.  The
argument is an induction on the order: a block of points has its lower half in one block of the
cover, and if that were no larger than the half, the upper half would be in its buddy, and the two
could be merged.
-/

namespace OscKernel
namespace DyadicBlock

variable {n : ℕ} {S : Set ℕ} {F : ℕ → ℕ → Prop} {i k i' k' : ℕ}

/-- An aligned block of order at most `n` whose points are in `S`. -/
structure BlockIn (n : ℕ) (S : Set ℕ) (i k : ℕ) : Prop where
  order_le : k ≤ n
  aligned : 2 ^ k ∣ i
  subset : block i k ⊆ S

/-- A block in `S` that is in no other. -/
structure MaximalIn (n : ℕ) (S : Set ℕ) (i k : ℕ) : Prop extends BlockIn n S i k where
  maximal : ∀ i' k', BlockIn n S i' k' → block i k ⊆ block i' k' → i' = i ∧ k' = k

/-- `F` covers `S` by disjoint aligned blocks, no two of which are buddies that could be merged. -/
structure CanonicalCover (n : ℕ) (S : Set ℕ) (F : ℕ → ℕ → Prop) : Prop where
  blockIn : ∀ {i k}, F i k → BlockIn n S i k
  cover : ∀ j ∈ S, ∃ i k, F i k ∧ j ∈ block i k
  unique : ∀ {i k i' k' j}, F i k → F i' k' → j ∈ block i k → j ∈ block i' k' → i = i' ∧ k = k'
  unpaired : ∀ {i k}, F i k → k < n → ¬ F (i ^^^ 2 ^ k) k

/-- A block inside another is not larger. -/
theorem le_of_block_subset (h : block i k ⊆ block i' k') : k ≤ k' := by
  have hpos := Nat.two_pow_pos k
  have hfirst := h (self_mem_block i k)
  have hlast : i + 2 ^ k - 1 ∈ block i' k' := h (by
    rw [mem_block]
    omega)
  rw [mem_block] at hfirst hlast
  have hle : 2 ^ k ≤ 2 ^ k' := by omega
  exact (Nat.pow_le_pow_iff_right (by omega : 1 < 2)).mp hle

/-- The buddy of the lower half of a block is its upper half. -/
theorem xor_lower (hd : 2 ^ (k + 1) ∣ i) : i ^^^ 2 ^ k = i + 2 ^ k := by
  rcases xor_two_pow_cases ((pow_dvd_pow 2 k.le_succ).trans hd) with ⟨-, h⟩ | ⟨hle, hd', -⟩
  · exact h
  · exfalso
    have hpos := Nat.two_pow_pos k
    have hdiv : 2 ^ (k + 1) ∣ i - (i - 2 ^ k) := Nat.dvd_sub hd hd'
    rw [Nat.sub_sub_self hle] at hdiv
    have := Nat.le_of_dvd hpos hdiv
    rw [Nat.pow_succ] at this
    omega

namespace CanonicalCover

/-- **Every block of points is inside one block of the cover.**  When its halves are inside
different blocks, these are the halves, which are buddies. -/
theorem exists_superset (h : CanonicalCover n S F) (hb : BlockIn n S i k) :
    ∃ i' k', F i' k' ∧ block i k ⊆ block i' k' := by
  induction k generalizing i with
  | zero =>
    obtain ⟨i', k', hF, hi⟩ := h.cover i (hb.subset (self_mem_block i 0))
    exact ⟨i', k', hF, block_subset_of_mem hb.aligned (h.blockIn hF).aligned (Nat.zero_le _)
      (self_mem_block i 0) hi⟩
  | succ k ih =>
    have hk : k ≤ n := (Nat.le_succ k).trans hb.order_le
    have hlow : 2 ^ k ∣ i := (pow_dvd_pow 2 k.le_succ).trans hb.aligned
    have hsplit := block_split i k
    have hinLow : block i k ⊆ block i (k + 1) := by
      rw [hsplit]
      exact Set.subset_union_left
    have hinUp : block (i + 2 ^ k) k ⊆ block i (k + 1) := by
      rw [hsplit]
      exact Set.subset_union_right
    have hup : 2 ^ k ∣ i + 2 ^ k := Nat.dvd_add hlow dvd_rfl
    obtain ⟨i₁, k₁, hF₁, hsub₁⟩ := ih ⟨hk, hlow, hinLow.trans hb.subset⟩
    obtain ⟨i₂, k₂, hF₂, hsub₂⟩ := ih ⟨hk, hup, hinUp.trans hb.subset⟩
    have hself := self_mem_block i k
    have hself' := self_mem_block (i + 2 ^ k) k
    by_cases h₁ : k + 1 ≤ k₁
    · exact ⟨i₁, k₁, hF₁, block_subset_of_mem hb.aligned (h.blockIn hF₁).aligned h₁
        (hinLow hself) (hsub₁ hself)⟩
    by_cases h₂ : k + 1 ≤ k₂
    · exact ⟨i₂, k₂, hF₂, block_subset_of_mem hb.aligned (h.blockIn hF₂).aligned h₂
        (hinUp hself') (hsub₂ hself')⟩
    -- neither block is larger than the half it contains, so they are the halves
    exfalso
    have hhalf : ∀ {a b m : ℕ}, 2 ^ k ∣ a → F b m → block a k ⊆ block b m → ¬ k + 1 ≤ m →
        F a k := by
      intro a b m ha hF hsub hm
      have hkm := le_of_block_subset hsub
      obtain rfl : m = k := by omega
      rwa [eq_of_mem_block ha (h.blockIn hF).aligned (self_mem_block a m)
        (hsub (self_mem_block a m))]
    have hFlow := hhalf hlow hF₁ hsub₁ h₁
    have hFup := hhalf hup hF₂ hsub₂ h₂
    refine h.unpaired hFlow hb.order_le ?_
    rwa [xor_lower hb.aligned]

/-- **The blocks of a canonical cover are the maximal blocks of points.** -/
theorem iff_maximalIn (h : CanonicalCover n S F) : F i k ↔ MaximalIn n S i k := by
  constructor
  · intro hF
    refine ⟨h.blockIn hF, fun i' k' hb hsub => ?_⟩
    obtain ⟨i₂, k₂, hF₂, hsub₂⟩ := h.exists_superset hb
    have hself := self_mem_block i k
    obtain ⟨rfl, rfl⟩ := h.unique hF hF₂ hself (hsub₂ (hsub hself))
    obtain rfl : k' = k := le_antisymm (le_of_block_subset hsub₂) (le_of_block_subset hsub)
    exact ⟨eq_of_mem_block hb.aligned (h.blockIn hF).aligned (self_mem_block i' k')
      (hsub₂ (self_mem_block i' k')), rfl⟩
  · intro hm
    obtain ⟨i', k', hF, hsub⟩ := h.exists_superset hm.toBlockIn
    obtain ⟨rfl, rfl⟩ := hm.maximal i' k' (h.blockIn hF) hsub
    exact hF

end CanonicalCover
end DyadicBlock
end OscKernel
