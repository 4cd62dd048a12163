import Mathlib.Logic.Relation
import Mathlib.Data.List.Basic

/-!
# Child lists

A table `ch` gives every node the list of its children.  What is reached from a node when children
are added, removed or handed over to another node, and a recursive search of a subtree.

* `Reaches.erase`: removing a child loses only what is below it.
* `Reaches.handOver`: nothing is lost when children are handed over to a node that is reached.
* `search_ne_none`, `search_some`, `search_none`: the search ends, and it finds a node exactly when
  there is one.
-/

namespace OscKernel
namespace Forest

variable {ι : Type*}

/-- `b` is in the subtree of `a`. -/
def Reaches (ch : ι → List ι) (a b : ι) : Prop :=
  Relation.ReflTransGen (fun p c => c ∈ ch p) a b

variable {ch ch' : ι → List ι} {a b c r : ι}

theorem Reaches.refl (a : ι) : Reaches ch a a := Relation.ReflTransGen.refl

theorem Reaches.trans (h : Reaches ch a b) (h' : Reaches ch b c) : Reaches ch a c :=
  Relation.ReflTransGen.trans h h'

theorem Reaches.child (h : Reaches ch a b) (hc : c ∈ ch b) : Reaches ch a c :=
  Relation.ReflTransGen.tail h hc

/-- What is reached is the start or somebody's child. -/
theorem Reaches.eq_or_exists_parent (h : Reaches ch a b) :
    b = a ∨ ∃ p, Reaches ch a p ∧ b ∈ ch p := by
  rcases Relation.ReflTransGen.cases_tail h with heq | ⟨p, hp, hb⟩
  · exact Or.inl heq
  · exact Or.inr ⟨p, hp, hb⟩

theorem Reaches.mono (h : Reaches ch a b) (hsub : ∀ p, ∀ c ∈ ch p, c ∈ ch' p) :
    Reaches ch' a b :=
  Relation.ReflTransGen.mono hsub _ _ h

/-- **Removing a child** loses only what is below it. -/
theorem Reaches.erase (h : Reaches ch a b) (hc : ¬ Reaches ch c b)
    (hkeep : ∀ p, ∀ x ∈ ch p, x ≠ c → x ∈ ch' p) : Reaches ch' a b := by
  induction h with
  | refl => exact Reaches.refl a
  | tail hp hx ih =>
    refine (ih fun hcp => hc (hcp.child hx)).child (hkeep _ _ hx ?_)
    intro heq
    exact hc (heq ▸ Reaches.refl _)

/-- **Handing children over**: children may leave their parent for `r`, which is reached. -/
theorem Reaches.handOver (h : Reaches ch a b) (hr : Reaches ch' a r)
    (hedge : ∀ p, ∀ x ∈ ch p, x ∈ ch' p ∨ x ∈ ch' r) : Reaches ch' a b := by
  induction h with
  | refl => exact Reaches.refl a
  | @tail p x _ hx ih =>
    rcases hedge p x hx with hx | hx
    · exact ih.child hx
    · exact hr.child hx

/-! ## Searching -/

/-- The first answer of `f` along a list; `f` may also fail to end. -/
def firstHit (f : ι → Option (Option ι)) : List ι → Option (Option ι)
  | [] => some none
  | c :: cs =>
      match f c with
      | none => none
      | some (some r) => some (some r)
      | some none => firstHit f cs

/-- Search the subtree of `root` for a node with `hit`, children in order, at most `fuel` deep. -/
def search (ch : ι → List ι) (hit : ι → Bool) : ℕ → ι → Option (Option ι)
  | 0, _ => none
  | fuel + 1, root =>
      if hit root then some (some root) else firstHit (search ch hit fuel) (ch root)

theorem firstHit_ne_none {f : ι → Option (Option ι)} {l : List ι} (h : ∀ c ∈ l, f c ≠ none) :
    firstHit f l ≠ none := by
  induction l with
  | nil => simp [firstHit]
  | cons c cs ih =>
    have hcs := ih fun x hx => h x (List.mem_cons_of_mem _ hx)
    rw [firstHit]
    cases hf : f c with
    | none => exact absurd hf (h c List.mem_cons_self)
    | some o => cases o <;> simp [hcs]

theorem firstHit_some {f : ι → Option (Option ι)} {l : List ι} (h : firstHit f l = some (some r)) :
    ∃ c ∈ l, f c = some (some r) := by
  induction l with
  | nil => simp [firstHit] at h
  | cons c cs ih =>
    rw [firstHit] at h
    cases hf : f c with
    | none => simp [hf] at h
    | some o =>
      cases o with
      | none =>
        rw [hf] at h
        obtain ⟨x, hx, hfx⟩ := ih h
        exact ⟨x, List.mem_cons_of_mem _ hx, hfx⟩
      | some x =>
        rw [hf] at h
        exact ⟨c, List.mem_cons_self, hf.trans h⟩

theorem firstHit_none {f : ι → Option (Option ι)} {l : List ι} (h : firstHit f l = some none) :
    ∀ c ∈ l, f c = some none := by
  induction l with
  | nil => exact fun c hc => absurd hc List.not_mem_nil
  | cons c cs ih =>
    rw [firstHit] at h
    cases hf : f c with
    | none => simp [hf] at h
    | some o =>
      cases o with
      | some x => simp [hf] at h
      | none =>
        rw [hf] at h
        intro x hx
        rcases List.mem_cons.mp hx with rfl | hx
        · exact hf
        · exact ih h x hx

section Search

variable {hit : ι → Bool} {fuel : ℕ} {root : ι}

/-- **The search ends** when some rank decreases from every node to its children. -/
theorem search_ne_none (rank : ι → ℕ) (hrank : ∀ p, ∀ c ∈ ch p, rank c < rank p)
    (hfuel : rank root < fuel) : search ch hit fuel root ≠ none := by
  induction fuel generalizing root with
  | zero => exact absurd hfuel (Nat.not_lt_zero _)
  | succ fuel ih =>
    rw [search]
    split_ifs
    · simp
    · refine firstHit_ne_none fun c hc => ih ?_
      have := hrank root c hc
      omega

/-- What the search finds is in the subtree. -/
theorem search_some (h : search ch hit fuel root = some (some r)) :
    hit r = true ∧ Reaches ch root r := by
  induction fuel generalizing root with
  | zero => simp [search] at h
  | succ fuel ih =>
    rw [search] at h
    split_ifs at h with hroot
    · obtain rfl : root = r := by simpa using h
      exact ⟨hroot, Reaches.refl _⟩
    · obtain ⟨c, hc, hr⟩ := firstHit_some h
      obtain ⟨hhit, hreach⟩ := ih hr
      exact ⟨hhit, (Reaches.child (Reaches.refl root) hc).trans hreach⟩

/-- When the search finds nothing there is nothing in the subtree. -/
theorem search_none (h : search ch hit fuel root = some none) (hb : Reaches ch root b) :
    hit b = false := by
  induction fuel generalizing root with
  | zero => simp [search] at h
  | succ fuel ih =>
    rw [search] at h
    split_ifs at h with hroot
    · exact absurd h (by simp)
    · rcases Relation.ReflTransGen.cases_head hb with heq | ⟨c, hc, hcb⟩
      · exact heq ▸ Bool.eq_false_iff.mpr hroot
      · exact ih (firstHit_none h c hc) hcb

end Search
end Forest
end OscKernel
