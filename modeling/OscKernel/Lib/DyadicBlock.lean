import Mathlib.Data.Nat.Bitwise
import Mathlib.Order.CompletePartialOrder
import Mathlib.Order.Interval.Set.Basic
import Mathlib.Tactic.Ring
import Mathlib.Tactic.Linarith

/-!
# Aligned power-of-two blocks

A block of order `k` at `i` is the interval `[i, i + 2 ^ k)`; it is aligned when `2 ^ k` divides
`i`.  Aligned blocks are nested or disjoint, and an aligned block of order `k` and its buddy
`i ^^^ 2 ^ k` make up the aligned block of order `k + 1` at the smaller of the two.

* `block_subset_of_mem`: two aligned blocks with a common point are nested.
* `xor_two_pow_cases`: the buddy is the block just above or just below.
* `dvd_min_xor`, `block_merge`: a block and its buddy merge.
* `block_split`: a block is its two halves.
-/

namespace OscKernel
namespace DyadicBlock

/-- The block of order `k` at `i`. -/
def block (i k : ℕ) : Set ℕ := Set.Ico i (i + 2 ^ k)

@[simp] theorem mem_block {i k j : ℕ} : j ∈ block i k ↔ i ≤ j ∧ j < i + 2 ^ k := Iff.rfl

theorem self_mem_block (i k : ℕ) : i ∈ block i k :=
  ⟨le_rfl, Nat.lt_add_of_pos_right (Nat.two_pow_pos k)⟩

/-- An aligned block is the set of points with a given quotient. -/
theorem mem_block_iff_div {i k j : ℕ} (hi : 2 ^ k ∣ i) :
    j ∈ block i k ↔ j / 2 ^ k = i / 2 ^ k := by
  obtain ⟨m, rfl⟩ := hi
  have hpos := Nat.two_pow_pos k
  rw [mem_block, Nat.mul_div_cancel_left _ hpos]
  constructor
  · rintro ⟨h1, h2⟩
    rw [Nat.div_eq_iff hpos]
    constructor
    · linarith [Nat.mul_comm m (2 ^ k)]
    · have : j < 2 ^ k * m + 2 ^ k := h2
      rw [Nat.mul_comm] at this
      omega
  · intro h
    rw [← h]
    have h1 := Nat.div_mul_le_self j (2 ^ k)
    have h2 := Nat.lt_div_mul_add (a := j) hpos
    rw [Nat.mul_comm]
    omega

/-- Aligned blocks with a common point are nested. -/
theorem block_subset_of_mem {i k i' k' j : ℕ} (hi : 2 ^ k ∣ i) (hi' : 2 ^ k' ∣ i')
    (hkk : k ≤ k') (hj : j ∈ block i k) (hj' : j ∈ block i' k') :
    block i k ⊆ block i' k' := by
  intro x hx
  rw [mem_block_iff_div hi'] at hj' ⊢
  rw [mem_block_iff_div hi] at hj hx
  obtain ⟨d, rfl⟩ := Nat.exists_eq_add_of_le hkk
  rw [Nat.pow_add, ← Nat.div_div_eq_div_mul, ← Nat.div_div_eq_div_mul] at hj' ⊢
  rw [hx, ← hj, hj', Nat.div_div_eq_div_mul]

/-- Aligned blocks of one order with a common point are equal. -/
theorem eq_of_mem_block {i i' k j : ℕ} (hi : 2 ^ k ∣ i) (hi' : 2 ^ k ∣ i')
    (hj : j ∈ block i k) (hj' : j ∈ block i' k) : i = i' := by
  rw [mem_block_iff_div hi] at hj
  rw [mem_block_iff_div hi'] at hj'
  rw [← Nat.div_mul_cancel hi, ← Nat.div_mul_cancel hi', ← hj, ← hj']

/-! ## The buddy -/

/-- The buddy of an aligned block lies just above it or just below it. -/
theorem xor_two_pow_cases {i k : ℕ} (hi : 2 ^ k ∣ i) :
    (2 ^ (k + 1) ∣ i ∧ i ^^^ 2 ^ k = i + 2 ^ k) ∨
      (2 ^ k ≤ i ∧ 2 ^ (k + 1) ∣ i - 2 ^ k ∧ i ^^^ 2 ^ k = i - 2 ^ k) := by
  obtain ⟨m, rfl⟩ := hi
  have hx : 2 ^ k * m ^^^ 2 ^ k = 2 ^ k * (m ^^^ 1) := by
    have := Nat.shiftLeft_xor_distrib (i := k) (a := m) (b := 1)
    simp only [Nat.shiftLeft_eq, one_mul] at this
    rw [Nat.mul_comm _ m, ← this, Nat.mul_comm]
  rcases Nat.even_or_odd' m with ⟨c, rfl | rfl⟩
  · left
    refine ⟨⟨c, by rw [Nat.pow_succ]; ring⟩, ?_⟩
    rw [hx, Nat.xor_one_of_even (even_two_mul c)]
    ring
  · right
    have hsub : 2 ^ k * (2 * c + 1) - 2 ^ k = 2 ^ k * (2 * c) := by
      rw [Nat.mul_add, Nat.mul_one, Nat.add_sub_cancel]
    refine ⟨Nat.le_mul_of_pos_right _ (Nat.succ_pos _), ?_, ?_⟩
    · rw [hsub]
      exact ⟨c, by rw [Nat.pow_succ]; ring⟩
    · rw [hx, Nat.xor_one_of_odd (odd_two_mul_add_one c), hsub, Nat.add_sub_cancel]

/-- The buddy of an aligned block is aligned. -/
theorem dvd_xor_two_pow {i k : ℕ} (hi : 2 ^ k ∣ i) : 2 ^ k ∣ i ^^^ 2 ^ k := by
  rcases xor_two_pow_cases hi with ⟨-, h⟩ | ⟨hle, -, h⟩ <;> rw [h]
  · exact Nat.dvd_add hi dvd_rfl
  · exact Nat.dvd_sub hi dvd_rfl

theorem xor_two_pow_ne {i k : ℕ} (hi : 2 ^ k ∣ i) : i ^^^ 2 ^ k ≠ i := by
  have hpos := Nat.two_pow_pos k
  rcases xor_two_pow_cases hi with ⟨-, h⟩ | ⟨hle, -, h⟩ <;> rw [h] <;> omega

/-- The merged block of a block and its buddy is aligned. -/
theorem dvd_min_xor {i k : ℕ} (hi : 2 ^ k ∣ i) : 2 ^ (k + 1) ∣ min i (i ^^^ 2 ^ k) := by
  rcases xor_two_pow_cases hi with ⟨hd, h⟩ | ⟨hle, hd, h⟩ <;> rw [h]
  · rwa [Nat.min_eq_left (Nat.le_add_right _ _)]
  · rwa [Nat.min_eq_right (Nat.sub_le _ _)]

/-- **Merging.**  A block together with its buddy is the block of the next order at the smaller
of the two indices. -/
theorem block_merge {i k : ℕ} (hi : 2 ^ k ∣ i) :
    block i k ∪ block (i ^^^ 2 ^ k) k = block (min i (i ^^^ 2 ^ k)) (k + 1) := by
  ext x
  rw [Set.mem_union, mem_block, mem_block, mem_block, Nat.pow_succ]
  rcases xor_two_pow_cases hi with ⟨-, h⟩ | ⟨hle, -, h⟩ <;> rw [h] <;> omega

/-- **Splitting.**  A block of order `k + 1` is its lower and its upper half. -/
theorem block_split (i k : ℕ) : block i (k + 1) = block i k ∪ block (i + 2 ^ k) k := by
  ext x
  rw [Set.mem_union, mem_block, mem_block, mem_block, Nat.pow_succ]
  omega

theorem disjoint_halves (i k : ℕ) : Disjoint (block i k) (block (i + 2 ^ k) k) := by
  rw [Set.disjoint_left]
  intro x hx hx'
  rw [mem_block] at hx hx'
  omega

end DyadicBlock
end OscKernel
