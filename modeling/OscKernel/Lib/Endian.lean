import Mathlib.Data.List.GetD
import Mathlib.Data.Set.Lattice
import Mathlib.Order.CompletePartialOrder
import Mathlib.Order.Interval.Set.Basic

/-!
# Words and the bytes that store them

A word is stored with its least significant byte first, or with its most significant byte first.
Memory that can be written is a total function from addresses to bytes; `load` reads a block of it
and `store` writes one.

* `toLE`, `toBE`, `ofLE`: the bytes of a word in either order, and back.
* `toBE_eq_toLE`: a word whose bits are those of another one with the bytes turned around.
* `ofLE_toLE`: a word that is read from its bytes.
* `load_store`, `load_store_of_disjoint`: what a write changes.
-/

namespace OscKernel
namespace Endian

/-! ## Words -/

section Words

variable {w n : ℕ}

/-- The `n` low bytes of `x`, the least significant one first. -/
def toLE (n : ℕ) (x : BitVec w) : List UInt8 :=
  (List.range n).map fun i => UInt8.ofBitVec (x.extractLsb' (8 * i) 8)

/-- The `n` low bytes of `x`, the most significant one first. -/
def toBE (n : ℕ) (x : BitVec w) : List UInt8 := (toLE n x).reverse

/-- The word with the bytes `l`, the least significant one first. -/
def ofLE (w : ℕ) : List UInt8 → BitVec w
  | [] => 0
  | b :: l => ofLE w l <<< 8 ||| b.toBitVec.setWidth w

@[simp] theorem length_toLE (n : ℕ) (x : BitVec w) : (toLE n x).length = n := by
  simp [toLE]

@[simp] theorem length_toBE (n : ℕ) (x : BitVec w) : (toBE n x).length = n := by
  simp [toBE]

/-- A bit of a word that is read from bytes. -/
theorem getLsbD_ofLE {k : ℕ} (l : List UInt8) (hk : k < w) :
    (ofLE w l).getLsbD k = (l.getD (k / 8) 0).toBitVec.getLsbD (k % 8) := by
  induction l generalizing k with
  | nil => simp [ofLE]
  | cons b l ih =>
    rw [ofLE, BitVec.getLsbD_or, BitVec.getLsbD_shiftLeft, BitVec.getLsbD_setWidth]
    by_cases hlow : k < 8
    · rw [Nat.div_eq_of_lt hlow, Nat.mod_eq_of_lt hlow]
      simp [hk, hlow]
    · have hdiv : k / 8 = (k - 8) / 8 + 1 := by omega
      have hmod : (k - 8) % 8 = k % 8 := by omega
      rw [ih (by omega : k - 8 < w), hdiv, hmod, BitVec.getLsbD_of_ge _ k (by omega)]
      simp [hk, hlow]

/-- **A word is read back** from its bytes. -/
theorem ofLE_toLE (x : BitVec (8 * n)) : ofLE (8 * n) (toLE n x) = x := by
  ext k hk
  have hget : (toLE n x).getD (k / 8) 0 = UInt8.ofBitVec (x.extractLsb' (8 * (k / 8)) 8) := by
    rw [toLE, List.getD_eq_getElem _ _ (by simp; omega)]
    simp
  have hbit : k % 8 < 8 := Nat.mod_lt _ (by decide)
  rw [← BitVec.getLsbD_eq_getElem, ← BitVec.getLsbD_eq_getElem, getLsbD_ofLE _ hk, hget,
    BitVec.getLsbD_extractLsb', Nat.div_add_mod]
  simp [hbit]

/-- **The other order.**  The bits of `y` are those of `x` with the bytes turned around. -/
theorem toBE_eq_toLE {x y : BitVec w} (h : ∀ k < 8 * n,
    y.getLsbD k = x.getLsbD (8 * (n - 1 - k / 8) + k % 8)) : toBE n x = toLE n y := by
  refine List.ext_getElem (by simp) fun i hi _ => ?_
  have hi' : i < n := by simpa using hi
  simp only [toBE, toLE, List.getElem_reverse, List.getElem_map, List.getElem_range,
    List.length_map, List.length_range]
  congr 1
  ext k hk
  have hbit := h (8 * i + k) (by omega)
  have hdiv : (8 * i + k) / 8 = i := by omega
  have hmod : (8 * i + k) % 8 = k := by omega
  rw [hdiv, hmod] at hbit
  simp [hbit]

end Words

/-! ## Memory -/

section Memory

variable {mem : ℕ → UInt8} {a b n : ℕ} {l : List UInt8}

/-- The addresses of the `n` bytes at `a`. -/
def span (a n : ℕ) : Set ℕ := Set.Ico a (a + n)

/-- A span moves with its address. -/
theorem add_mem_span (b : ℕ) {x : ℕ} : b + x ∈ span (b + a) n ↔ x ∈ span a n := by
  rw [span, span, Set.mem_Ico, Set.mem_Ico]
  omega

/-- The `n` bytes at `a`. -/
def load (mem : ℕ → UInt8) (a n : ℕ) : List UInt8 := (List.range n).map fun i => mem (a + i)

/-- The bytes `l` are written to `a`. -/
def store (mem : ℕ → UInt8) (a : ℕ) (l : List UInt8) : ℕ → UInt8 := fun x =>
  if a ≤ x then l.getD (x - a) (mem x) else mem x

@[simp] theorem length_load (mem : ℕ → UInt8) (a n : ℕ) : (load mem a n).length = n := by
  simp [load]

theorem store_of_notMem {x : ℕ} (h : x ∉ span a l.length) : store mem a l x = mem x := by
  rw [store]
  split_ifs with hx
  · have hge : l.length ≤ x - a := by
      by_contra hlt
      exact h ⟨hx, by omega⟩
    simp [hge]
  · rfl

/-- What is written is read. -/
theorem load_store (mem : ℕ → UInt8) (a : ℕ) (l : List UInt8) :
    load (store mem a l) a l.length = l := by
  refine List.ext_getElem (by simp) fun i hi hi' => ?_
  simp [load, store, hi']

theorem load_congr {mem' : ℕ → UInt8} (h : ∀ x ∈ span a n, mem x = mem' x) :
    load mem a n = load mem' a n := by
  refine List.map_congr_left fun i hi => h _ ⟨Nat.le_add_right _ _, ?_⟩
  have hi' := List.mem_range.mp hi
  omega

/-- **Bytes elsewhere** are as they were. -/
theorem load_store_of_disjoint (h : Disjoint (span b n) (span a l.length)) :
    load (store mem a l) b n = load mem b n :=
  load_congr fun _ hx => store_of_notMem (Set.disjoint_left.mp h hx)

theorem load_add (mem : ℕ → UInt8) (a n k : ℕ) :
    load mem a (n + k) = load mem a n ++ load mem (a + n) k := by
  rw [load, List.range_add, List.map_append, List.map_map, load, load]
  simp [Function.comp_def, Nat.add_assoc]

/-- A part of a block. -/
theorem load_part {i k : ℕ} (h : load mem a n = l) (hle : i + k ≤ n) :
    load mem (a + i) k = (l.drop i).take k := by
  obtain ⟨r, rfl⟩ := Nat.exists_eq_add_of_le hle
  rw [Nat.add_assoc, load_add, load_add] at h
  rw [← h]
  simp

end Memory

end Endian
end OscKernel
