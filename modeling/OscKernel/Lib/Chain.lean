import Mathlib.Data.List.Nodup
import Mathlib.Logic.Function.Basic

/-!
# Singly linked chains in memory

`Chain next null p l` says that following `next` from `p` visits exactly the nodes of `l` and then
stops at `null`.  A chain depends only on the links of its own nodes, is determined by its head,
and grows and shrinks at the head.

A chain ends: a list that comes back to one of its own nodes is none.  Two writes are all that
happens to it.  Pushing a node writes the link of that node and moves the head; popping moves the
head and leaves the links alone.  Whatever else is written, `Chain.congr` says that the chain is the
same as long as the links of its nodes are.
-/

namespace OscKernel

variable {α : Type*}

/-- The nodes of `l` are linked by `next`, start at `p` and end at `null`. -/
def Chain (next : α → α) (null : α) : α → List α → Prop
  | p, [] => p = null
  | p, c :: l => p = c ∧ c ≠ null ∧ Chain next null (next c) l

/-- Following `next` from the first node meets the second one before `null`. -/
inductive Visits (next : α → α) (null : α) : α → α → Prop where
  | here {p : α} (hp : p ≠ null) : Visits next null p p
  | next {p c : α} (hp : p ≠ null) (h : Visits next null (next p) c) : Visits next null p c

namespace Chain

variable {next next' : α → α} {null p c v : α} {l l' : List α}

@[simp] theorem nil_iff : Chain next null p [] ↔ p = null := Iff.rfl

@[simp] theorem cons_iff :
    Chain next null p (c :: l) ↔ p = c ∧ c ≠ null ∧ Chain next null (next c) l := Iff.rfl

/-- A chain from `null` is empty. -/
theorem eq_nil (h : Chain next null null l) : l = [] := by
  cases l with
  | nil => rfl
  | cons c l => exact absurd h.1.symm h.2.1

/-- A chain from any other node starts with it. -/
theorem exists_cons (h : Chain next null p l) (hp : p ≠ null) :
    ∃ rest, l = p :: rest ∧ Chain next null (next p) rest := by
  cases l with
  | nil => exact absurd h hp
  | cons c l =>
    obtain ⟨rfl, -, hl⟩ := h
    exact ⟨l, rfl, hl⟩

/-- The head determines the chain. -/
theorem unique (h : Chain next null p l) (h' : Chain next null p l') : l = l' := by
  induction l generalizing p l' with
  | nil =>
    obtain rfl : p = null := h
    exact h'.eq_nil.symm
  | cons c l ih =>
    obtain ⟨rfl, hc, hl⟩ := h
    obtain ⟨rest, rfl, hrest⟩ := h'.exists_cons hc
    rw [ih hl hrest]

/-- The chain determines the head. -/
theorem head_unique {q : α} (h : Chain next null p l) (h' : Chain next null q l) : p = q := by
  cases l with
  | nil => exact (nil_iff.mp h).trans (nil_iff.mp h').symm
  | cons c l => exact h.1.trans h'.1.symm

/-- A chain depends only on the links of its own nodes. -/
theorem congr (h : Chain next null p l) (heq : ∀ c ∈ l, next' c = next c) :
    Chain next' null p l := by
  induction l generalizing p with
  | nil => exact h
  | cons c l ih =>
    obtain ⟨rfl, hc, hl⟩ := h
    refine ⟨rfl, hc, ?_⟩
    rw [heq _ List.mem_cons_self]
    exact ih hl fun x hx => heq x (List.mem_cons_of_mem _ hx)

/-- What follows a node of a chain is a chain. -/
theorem of_append {l₁ l₂ : List α} (h : Chain next null p (l₁ ++ c :: l₂)) :
    Chain next null (next c) l₂ := by
  induction l₁ generalizing p with
  | nil => exact h.2.2
  | cons _ l₁ ih => exact ih h.2.2

/-- The nodes of a chain are the nodes that are met. -/
theorem visits_iff (h : Chain next null p l) : Visits next null p c ↔ c ∈ l := by
  constructor
  · intro hv
    induction hv generalizing l with
    | here hp =>
      obtain ⟨rest, rfl, -⟩ := h.exists_cons hp
      exact List.mem_cons_self
    | next hp _ ih =>
      obtain ⟨rest, rfl, hrest⟩ := h.exists_cons hp
      exact List.mem_cons_of_mem _ (ih hrest)
  · intro hc
    induction l generalizing p with
    | nil => exact absurd hc List.not_mem_nil
    | cons x l ih =>
      obtain ⟨rfl, hx, hl⟩ := h
      rcases List.mem_cons.mp hc with rfl | hc
      · exact Visits.here hx
      · exact Visits.next hx (ih hl hc)

variable [DecidableEq α]

theorem update_of_notMem (h : Chain next null p l) (hc : c ∉ l) :
    Chain (Function.update next c v) null p l :=
  h.congr fun _ hx => Function.update_of_ne (ne_of_mem_of_not_mem hx hc) ..

/-- Linking a new node to the head puts it in front. -/
theorem push (h : Chain next null p l) (hc : c ≠ null) (hmem : c ∉ l) :
    Chain (Function.update next c p) null c (c :: l) := by
  refine ⟨rfl, hc, ?_⟩
  rw [Function.update_self]
  exact h.update_of_notMem hmem

end Chain
end OscKernel
