import Mathlib.Algebra.Group.Fin.Basic
import Mathlib.Algebra.Group.Basic
import Mathlib.Logic.Function.Basic
import Mathlib.Tactic.Abel

/-!
# Ring buffers

A ring of `n + 1` cells with one index at which entries are put and one at which they are taken.
The ring is empty when the indices agree, so it holds at most `n` entries.

* `RingBuffer.contents`: the entries, in the order in which they were put.
* `contents_push`, `contents_pop`: the operations of a queue with the capacity `n`.

The indices are numbers modulo `n + 1`, and adding one at the end of the ring comes back to its
beginning.  The contents are read off the two indices alone; a cell between them is never written by
`push`, and what lies elsewhere does not matter.
-/

namespace OscKernel

/-- A ring of `n + 1` cells. -/
structure RingBuffer (α : Type*) (n : ℕ) where
  buf : Fin (n + 1) → α
  head : Fin (n + 1)
  tail : Fin (n + 1)

namespace RingBuffer

variable {α : Type*} {n k : ℕ}

/-- There is nothing to pop. -/
def IsEmpty (r : RingBuffer α n) : Prop := r.head = r.tail

/-- There is no room for a push: one slot stays free. -/
def IsFull (r : RingBuffer α n) : Prop := r.head + 1 = r.tail

instance (r : RingBuffer α n) : Decidable r.IsEmpty := inferInstanceAs (Decidable (_ = _))

instance (r : RingBuffer α n) : Decidable r.IsFull := inferInstanceAs (Decidable (_ = _))

/-- Put an entry; a full ring stays as it is. -/
def push (r : RingBuffer α n) (c : α) : RingBuffer α n :=
  if r.IsFull then r else { r with buf := Function.update r.buf r.head c, head := r.head + 1 }

/-- Take an entry. -/
def pop (r : RingBuffer α n) : Option (α × RingBuffer α n) :=
  if r.IsEmpty then none else some (r.buf r.tail, { r with tail := r.tail + 1 })

/-- The `k` cells from `t` on. -/
def cells (buf : Fin (n + 1) → α) : Fin (n + 1) → ℕ → List α
  | _, 0 => []
  | t, k + 1 => buf t :: cells buf (t + 1) k

/-- The entries of the ring. -/
def contents (r : RingBuffer α n) : List α := cells r.buf r.tail (r.head - r.tail).val

variable {buf : Fin (n + 1) → α} {t j : Fin (n + 1)} {c : α} {r : RingBuffer α n}

theorem length_cells (buf : Fin (n + 1) → α) (t : Fin (n + 1)) (k : ℕ) :
    (cells buf t k).length = k := by
  induction k generalizing t with
  | zero => rfl
  | succ k ih => rw [cells, List.length_cons, ih]

/-- The way from `t` to `j` is one longer than the way from the next cell. -/
theorem val_sub_of_ne (h : t ≠ j) : (j - t).val = (j - (t + 1)).val + 1 := by
  have hstep : j - t = (j - (t + 1)) + 1 := by abel
  have hlast : j - (t + 1) ≠ Fin.last n := by
    intro hlast
    rw [hlast, Fin.last_add_one, sub_eq_zero] at hstep
    exact h hstep.symm
  rw [hstep, Fin.val_add_one, if_neg hlast]

theorem cells_update (h : k ≤ (j - t).val) :
    cells (Function.update buf j c) t k = cells buf t k := by
  induction k generalizing t with
  | zero => rfl
  | succ k ih =>
    have hne : t ≠ j := by
      rintro rfl
      rw [sub_self] at h
      exact absurd h (Nat.not_succ_le_zero k)
    rw [val_sub_of_ne hne] at h
    rw [cells, cells, Function.update_of_ne hne, ih (Nat.le_of_succ_le_succ h)]

theorem cells_succ (h : (j - t).val = k) : cells buf t (k + 1) = cells buf t k ++ [buf j] := by
  induction k generalizing t with
  | zero =>
    have hj : j = t := sub_eq_zero.mp (Fin.val_eq_zero_iff.mp h)
    rw [hj]
    rfl
  | succ k ih =>
    have hne : t ≠ j := by
      rintro rfl
      rw [sub_self] at h
      exact absurd h (Nat.succ_ne_zero k).symm
    rw [val_sub_of_ne hne] at h
    rw [cells, ih (Nat.succ_injective h)]
    rfl

theorem length_contents (r : RingBuffer α n) : r.contents.length = (r.head - r.tail).val :=
  length_cells ..

theorem isEmpty_iff : r.IsEmpty ↔ r.contents = [] := by
  rw [← List.length_eq_zero_iff, length_contents, Fin.val_eq_zero_iff, sub_eq_zero]
  rfl

theorem isFull_iff : r.IsFull ↔ r.contents.length = n := by
  have hstep : r.head + 1 - r.tail = (r.head - r.tail) + 1 := by abel
  rw [length_contents, IsFull, ← sub_eq_zero, hstep, ← Fin.last_add_one, add_left_inj, Fin.ext_iff]
  rfl

theorem length_contents_le (r : RingBuffer α n) : r.contents.length ≤ n := by
  rw [length_contents]
  exact Nat.lt_succ_iff.mp (r.head - r.tail).isLt

/-- **Putting an entry** into a ring that is not full. -/
theorem contents_push (h : r.contents.length < n) : (r.push c).contents = r.contents ++ [c] := by
  have hfull : ¬ r.IsFull := fun hfull => absurd (isFull_iff.mp hfull) (Nat.ne_of_lt h)
  have hstep : r.head + 1 - r.tail = (r.head - r.tail) + 1 := by abel
  have hlast : r.head - r.tail ≠ Fin.last n := by
    intro hlast
    rw [length_contents, hlast] at h
    exact absurd h (Nat.lt_irrefl n)
  have hcells : cells (Function.update r.buf r.head c) r.tail ((r.head - r.tail).val + 1) =
      r.contents ++ [c] := by
    rw [cells_succ rfl, cells_update (Nat.le_refl _), Function.update_self]
    rfl
  rw [push, if_neg hfull]
  show cells (Function.update r.buf r.head c) r.tail (r.head + 1 - r.tail).val = _
  rw [hstep, Fin.val_add_one, if_neg hlast, hcells]

/-- A full ring drops the entry. -/
theorem push_of_full (h : r.contents.length = n) : r.push c = r := if_pos (isFull_iff.mpr h)

/-- **Taking an entry** takes the oldest one. -/
theorem contents_pop {l : List α} (h : r.contents = c :: l) :
    ∃ r', r.pop = some (c, r') ∧ r'.contents = l := by
  have hempty : ¬ r.IsEmpty := fun hempty => by
    rw [isEmpty_iff.mp hempty] at h
    cases h
  have hne : r.tail ≠ r.head := fun heq => hempty heq.symm
  have hval := val_sub_of_ne hne
  rw [contents, hval, cells, List.cons.injEq] at h
  refine ⟨{ r with tail := r.tail + 1 }, ?_, h.2⟩
  rw [pop, if_neg hempty, h.1]

/-- The cell at `tail` holds the oldest entry, and the others are left when `tail` moves on. -/
theorem contents_advance {l : List α} (h : r.contents = c :: l) :
    r.buf r.tail = c ∧ ({ r with tail := r.tail + 1 } : RingBuffer α n).contents = l := by
  obtain ⟨r', hpop, hl⟩ := contents_pop h
  rw [pop] at hpop
  split_ifs at hpop
  obtain ⟨hc, rfl⟩ := Prod.mk.inj (Option.some.inj hpop)
  exact ⟨hc, hl⟩

end RingBuffer
end OscKernel
