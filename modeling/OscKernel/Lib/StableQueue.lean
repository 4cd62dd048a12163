import Mathlib.Data.List.Sort
import Mathlib.Data.List.Perm.Basic

/-!
# Queues ordered by a key, first come first served

Entries have a key and a number, which is their place in the order of arrival.  A new entry is
inserted before the first one with a greater key, so that entries with equal keys stay in their
order of arrival.

* `pairwise_orderedInsert`, `pairwise_le_orderedInsert`: the insertion keeps the queue in order.
* `mem_takeWhile_iff`, `mem_dropWhile_iff`: draining the queue up to a key.

The insertion is `List.orderedInsert` with the strict order of the keys, so that it goes past equal
keys.  Draining takes entries from the front as long as their keys are within a bound; in a queue
that is in order these are all the entries within it, and what is left has none of them.
-/

namespace OscKernel
namespace StableQueue

variable {ι κ : Type*} [LinearOrder κ] (key : ι → κ) (seq : ι → ℕ)

/-- `a` has the smaller key, or the same key and arrived first. -/
def Before (a b : ι) : Prop := key a < key b ∨ key a = key b ∧ seq a < seq b

variable {key seq} {a b c : ι} {l : List ι} {x : κ}

theorem Before.le (h : Before key seq a b) : key a ≤ key b :=
  h.elim le_of_lt fun h => le_of_eq h.1

theorem Before.trans (h : Before key seq a b) (h' : Before key seq b c) :
    Before key seq a c := by
  rcases h with h | ⟨h, hs⟩
  · exact Or.inl (lt_of_lt_of_le h h'.le)
  · rcases h' with h' | ⟨h', hs'⟩
    · exact Or.inl (h ▸ h')
    · exact Or.inr ⟨h.trans h', hs.trans hs'⟩

theorem Before.ne (h : Before key seq a b) : a ≠ b := by
  rintro rfl
  exact h.elim (lt_irrefl _) fun h => lt_irrefl _ h.2

theorem before_of_le (h : key a ≤ key b) (hseq : seq a < seq b) : Before key seq a b :=
  (lt_or_eq_of_le h).imp id fun h => ⟨h, hseq⟩

/-- **Inserting the latest entry** keeps the queue in order. -/
theorem pairwise_orderedInsert (h : l.Pairwise (Before key seq)) (hseq : ∀ b ∈ l, seq b < seq a) :
    (l.orderedInsert (fun a b => key a < key b) a).Pairwise (Before key seq) := by
  induction l with
  | nil => exact List.pairwise_singleton ..
  | cons b l ih =>
    obtain ⟨hb, hl⟩ := List.pairwise_cons.mp h
    rw [List.orderedInsert_cons]
    split_ifs with hlt
    · refine List.pairwise_cons.mpr ⟨fun c hc => ?_, h⟩
      rcases List.mem_cons.mp hc with rfl | hc
      · exact Or.inl hlt
      · exact Or.inl (lt_of_lt_of_le hlt (hb c hc).le)
    · refine List.pairwise_cons.mpr ⟨fun c hc => ?_, ih hl fun c hc => hseq c
        (List.mem_cons_of_mem b hc)⟩
      rcases (List.mem_orderedInsert _).mp hc with rfl | hc
      · exact before_of_le (not_lt.mp hlt) (hseq b List.mem_cons_self)
      · exact hb c hc

/-- An insertion keeps the keys in order. -/
theorem pairwise_le_orderedInsert (h : l.Pairwise fun a b => key a ≤ key b) :
    (l.orderedInsert (fun a b => key a < key b) a).Pairwise fun a b => key a ≤ key b := by
  induction l with
  | nil => exact List.pairwise_singleton ..
  | cons b l ih =>
    obtain ⟨hb, hl⟩ := List.pairwise_cons.mp h
    rw [List.orderedInsert_cons]
    split_ifs with hlt
    · refine List.pairwise_cons.mpr ⟨fun c hc => ?_, h⟩
      rcases List.mem_cons.mp hc with rfl | hc
      · exact hlt.le
      · exact hlt.le.trans (hb c hc)
    · refine List.pairwise_cons.mpr ⟨fun c hc => ?_, ih hl⟩
      rcases (List.mem_orderedInsert _).mp hc with rfl | hc
      · exact not_lt.mp hlt
      · exact hb c hc

/-- The entries up to a key are at the front. -/
theorem mem_takeWhile_iff (h : l.Pairwise (Before key seq)) :
    a ∈ l.takeWhile (fun b => decide (key b ≤ x)) ↔ a ∈ l ∧ key a ≤ x := by
  induction l with
  | nil => simp
  | cons b l ih =>
    obtain ⟨hb, hl⟩ := List.pairwise_cons.mp h
    by_cases hx : key b ≤ x
    · rw [List.takeWhile_cons_of_pos (by simpa using hx), List.mem_cons, List.mem_cons, ih hl]
      constructor
      · rintro (rfl | ha)
        · exact ⟨Or.inl rfl, hx⟩
        · exact ⟨Or.inr ha.1, ha.2⟩
      · rintro ⟨rfl | ha, hle⟩
        · exact Or.inl rfl
        · exact Or.inr ⟨ha, hle⟩
    · rw [List.takeWhile_cons_of_neg (by simpa using hx)]
      refine iff_of_false nofun ?_
      rintro ⟨ha, hle⟩
      rcases List.mem_cons.mp ha with rfl | ha
      · exact hx hle
      · exact hx ((hb a ha).le.trans hle)

/-- The entries beyond a key are what is left. -/
theorem mem_dropWhile_iff (h : l.Pairwise (Before key seq)) :
    a ∈ l.dropWhile (fun b => decide (key b ≤ x)) ↔ a ∈ l ∧ x < key a := by
  induction l with
  | nil => simp
  | cons b l ih =>
    obtain ⟨hb, hl⟩ := List.pairwise_cons.mp h
    by_cases hx : key b ≤ x
    · rw [List.dropWhile_cons_of_pos (by simpa using hx), ih hl, List.mem_cons]
      constructor
      · rintro ⟨ha, hlt⟩
        exact ⟨Or.inr ha, hlt⟩
      · rintro ⟨rfl | ha, hlt⟩
        · exact absurd hlt (not_lt.mpr hx)
        · exact ⟨ha, hlt⟩
    · rw [List.dropWhile_cons_of_neg (by simpa using hx)]
      refine ⟨fun ha => ⟨ha, ?_⟩, And.left⟩
      rcases List.mem_cons.mp ha with rfl | ha
      · exact not_le.mp hx
      · exact lt_of_lt_of_le (not_le.mp hx) (hb a ha).le

end StableQueue
end OscKernel
