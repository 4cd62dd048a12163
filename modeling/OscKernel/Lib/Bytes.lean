import Mathlib.Data.List.Basic
import Mathlib.Data.Nat.Digits.Lemmas

/-!
# Bytes at an address

Memory that is read is a partial function from addresses to bytes; a read outside it has no result.
`At m a l` says that the bytes `l` begin at the address `a`.

* `at_append`: what is laid out one after the other.
* `take_of_at`, `strEq_of_at`: reading a block and comparing a string there.
* `IsHex`: numbers that are written in hexadecimal digits.

A reader that goes through memory byte by byte is described by what lies there, and never by the
order of its reads: each lemma takes `At` for what is read and gives the result of the reader.  A
comparison of strings reads no further than the first difference, so that it has a result also where
the rest of the string cannot be read.
-/

namespace OscKernel
namespace Bytes

/-- Memory that can be read. -/
abbrev Memory := ℕ → Option UInt8

/-- The bytes `l` begin at the address `a`. -/
def At (m : Memory) : ℕ → List UInt8 → Prop
  | _, [] => True
  | a, x :: l => m a = some x ∧ At m (a + 1) l

/-- The bytes `l` begin at `base`, and there is nothing else. -/
def ofList (base : ℕ) (l : List UInt8) : Memory := fun a =>
  if base ≤ a then l[a - base]? else none

/-- The `n` bytes at `a`. -/
def take (m : Memory) (a : ℕ) : ℕ → Option (List UInt8)
  | 0 => some []
  | n + 1 => (m a).bind fun x => (take m (a + 1) n).map (x :: ·)

/-- Whether the string at `a` is `b`: both are read up to the first difference or the end. -/
def strEq (m : Memory) (a : ℕ) : List UInt8 → Option Bool
  | [] => (m a).map (· == 0)
  | y :: b => (m a).bind fun x =>
      if x ≠ 0 ∧ y ≠ 0 ∧ x = y then strEq m (a + 1) b else some (x == 0 && y == 0)

/-- The string at `a` without its terminator; `none` is that it goes on after `chars` bytes. -/
def readStr (m : Memory) : ℕ → ℕ → Option (List UInt8)
  | 0, _ => none
  | chars + 1, a => (m a).bind fun x =>
      if x = 0 then some [] else (readStr m chars (a + 1)).map (x :: ·)

variable {m : Memory} {a base : ℕ} {l l' b name : List UInt8}

theorem at_append : At m a (l ++ l') ↔ At m a l ∧ At m (a + l.length) l' := by
  induction l generalizing a with
  | nil => simp [At]
  | cons x l ih =>
    rw [List.cons_append, At, At, ih, and_assoc, List.length_cons, Nat.add_right_comm,
      Nat.add_assoc]

theorem at_iff_getElem : At m a l ↔ ∀ i, (h : i < l.length) → m (a + i) = some l[i] := by
  induction l generalizing a with
  | nil => exact iff_of_true trivial fun i h => absurd h (Nat.not_lt_zero _)
  | cons x l ih =>
    rw [At, ih]
    constructor
    · rintro ⟨hx, hl⟩ i h
      cases i with
      | zero => exact hx
      | succ i =>
        have hi := hl i (Nat.lt_of_succ_lt_succ h)
        rw [Nat.add_assoc, Nat.add_comm 1 i] at hi
        exact hi
    · intro h
      refine ⟨h 0 (Nat.succ_pos _), fun i hi => ?_⟩
      rw [Nat.add_assoc, Nat.add_comm 1 i]
      exact h (i + 1) (Nat.succ_lt_succ hi)

/-- More can be read. -/
theorem At.mono {m' : Memory} (h : At m a l) (hle : ∀ x v, m x = some v → m' x = some v) :
    At m' a l := by
  rw [at_iff_getElem] at h ⊢
  exact fun i hi => hle _ _ (h i hi)

theorem at_ofList (base : ℕ) (l : List UInt8) : At (ofList base l) base l := by
  rw [at_iff_getElem]
  intro i h
  rw [ofList, if_pos (Nat.le_add_right _ _), Nat.add_sub_cancel_left]
  exact List.getElem?_eq_getElem h

theorem take_of_at (h : At m a l) : take m a l.length = some l := by
  induction l generalizing a with
  | nil => rfl
  | cons x l ih =>
    rw [List.length_cons, take, h.1, Option.bind_some, ih h.2]
    rfl

/-- **Comparing a string** that is stored with its terminator. -/
theorem strEq_of_at (h : At m a (name ++ [0])) (hname : 0 ∉ name) (hb : 0 ∉ b) :
    strEq m a b = some (decide (name = b)) := by
  induction name generalizing a b with
  | nil =>
    cases b with
    | nil =>
      rw [strEq, h.1]
      rfl
    | cons y b =>
      have hy : y ≠ 0 := fun hy => hb (hy ▸ List.mem_cons_self)
      rw [strEq, h.1, Option.bind_some, if_neg fun hc => hc.1 rfl]
      simp [hy]
  | cons x name ih =>
    have hx : x ≠ 0 := fun hx => hname (hx ▸ List.mem_cons_self)
    cases b with
    | nil =>
      rw [strEq, h.1]
      simp [hx]
    | cons y b =>
      have hy : y ≠ 0 := fun hy => hb (hy ▸ List.mem_cons_self)
      rw [strEq, h.1, Option.bind_some]
      by_cases hxy : x = y
      · rw [if_pos ⟨hx, hy, hxy⟩, ih h.2 (fun h0 => hname (List.mem_cons_of_mem _ h0))
          fun h0 => hb (List.mem_cons_of_mem _ h0)]
        simp [hxy]
      · rw [if_neg fun hc => hxy hc.2.2]
        simp [hx, hxy]

/-- **A string that was compared** is stored with its terminator. -/
theorem at_of_strEq (h : strEq m a b = some true) (hb : 0 ∉ b) : At m a (b ++ [0]) := by
  induction b generalizing a with
  | nil =>
    obtain ⟨x, hx, hx0⟩ := Option.map_eq_some_iff.mp h
    refine ⟨?_, trivial⟩
    rw [hx, beq_iff_eq.mp hx0]
  | cons y b ih =>
    rw [strEq] at h
    obtain ⟨x, hx, h⟩ := Option.bind_eq_some_iff.mp h
    by_cases hc : x ≠ 0 ∧ y ≠ 0 ∧ x = y
    · rw [if_pos hc] at h
      exact ⟨hc.2.2 ▸ hx, ih h fun h0 => hb (List.mem_cons_of_mem y h0)⟩
    · simp only [if_neg hc, Option.some.injEq, Bool.and_eq_true, beq_iff_eq] at h
      exact absurd (h.2 ▸ List.mem_cons_self) hb

/-- **A string that was read** is stored with its terminator. -/
theorem at_of_readStr {chars : ℕ} (h : readStr m chars a = some l) :
    At m a (l ++ [0]) ∧ 0 ∉ l := by
  induction chars generalizing a l with
  | zero => cases h
  | succ chars ih =>
    rw [readStr] at h
    obtain ⟨x, hx, h⟩ := Option.bind_eq_some_iff.mp h
    by_cases hx0 : x = 0
    · rw [if_pos hx0] at h
      cases h
      exact ⟨⟨hx0 ▸ hx, trivial⟩, List.not_mem_nil⟩
    · rw [if_neg hx0] at h
      obtain ⟨l, hl, rfl⟩ := Option.map_eq_some_iff.mp h
      obtain ⟨hat, hl0⟩ := ih hl
      refine ⟨⟨hx, hat⟩, ?_⟩
      rw [List.mem_cons, not_or]
      exact ⟨Ne.symm hx0, hl0⟩

/-! ## Hexadecimal numbers -/

/-- The character `c` is a hexadecimal digit of either case, with the value `d`. -/
def IsHexDigit (c : UInt8) (d : ℕ) : Prop :=
  d < 10 ∧ c.toNat = 0x30 + d ∨ 10 ≤ d ∧ d < 16 ∧ (c.toNat = 0x37 + d ∨ c.toNat = 0x57 + d)

/-- The characters `l` are the number `n`, the most significant digit first. -/
def IsHex (l : List UInt8) (n : ℕ) : Prop :=
  ∃ ds, List.Forall₂ IsHexDigit l ds ∧ Nat.ofDigits 16 ds.reverse = n

theorem IsHexDigit.lt {c : UInt8} {d : ℕ} (h : IsHexDigit c d) : d < 16 := by
  rcases h with h | h <;> omega

theorem IsHex.lt {l : List UInt8} {n : ℕ} (h : IsHex l n) : n < 16 ^ l.length := by
  obtain ⟨ds, hds, rfl⟩ := h
  rw [hds.length_eq, ← List.length_reverse]
  refine Nat.ofDigits_lt_base_pow_length (by decide) fun d hd => ?_
  have hd' := List.mem_reverse.mp hd
  clear hd
  induction hds with
  | nil => exact absurd hd' List.not_mem_nil
  | cons hc _ ih =>
    rcases List.mem_cons.mp hd' with rfl | hd
    · exact hc.lt
    · exact ih hd

end Bytes
end OscKernel
