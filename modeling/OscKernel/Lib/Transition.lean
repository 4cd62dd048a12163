import Mathlib.Logic.Relation

/-!
# Guarded runs of a labelled transition system

A system is a partial step function on states and labels.  A *guard* says which labels may be
taken in which states; a state is reachable under a guard when a run whose every step meets the
guard arrives there.

* `Reachable.invariant`: what holds at the start and survives every guarded step holds in every
  state reached under the guard.
* `Reachable.mono`: a weaker guard reaches more.
* `forall_prefix_iff_meets`, `forall_prefix_iff_meets_of_invariant`: a guard that is exact for one
  step is exact for runs.
* `runLog`, `eq_append_runLog`: what the steps of a run write, one after the other.
* `Meets`, `MeetsUntil`: the labels of a run meet a guard, to its end or until something is written.
* `runList`, `Reachable.of_runList`: a list of labels that executes is a run, so a concrete trace
  can be exhibited by evaluation; it is a run under a guard when its labels meet the guard.
-/

namespace OscKernel
namespace Transition

variable {σ α : Type*}

/-- One step of the system that meets the guard. -/
def GuardedStep (step : σ → α → Option σ) (G : σ → α → Prop) (s s' : σ) : Prop :=
  ∃ a, G s a ∧ step s a = some s'

/-- `s` is reached from `s₀` by a finite run whose steps all meet the guard. -/
def Reachable (step : σ → α → Option σ) (G : σ → α → Prop) (s₀ s : σ) : Prop :=
  Relation.ReflTransGen (GuardedStep step G) s₀ s

/-- The guard that allows every label. -/
def anyStep (_ : σ) (_ : α) : Prop := True

variable {step : σ → α → Option σ} {G G' : σ → α → Prop} {s₀ s s' : σ}

theorem Reachable.refl (s : σ) : Reachable step G s s :=
  Relation.ReflTransGen.refl

theorem Reachable.tail {a : α} (h : Reachable step G s₀ s) (hG : G s a)
    (hs : step s a = some s') : Reachable step G s₀ s' :=
  Relation.ReflTransGen.tail h ⟨a, hG, hs⟩

/-- **Invariant induction.**  What holds at the start and is preserved by every guarded step holds
in every state reached under the guard. -/
theorem Reachable.invariant {P : σ → Prop} (h : Reachable step G s₀ s) (h0 : P s₀)
    (hstep : ∀ s a s', P s → G s a → step s a = some s' → P s') : P s := by
  induction h with
  | refl => exact h0
  | tail _ hs ih =>
    obtain ⟨a, hG, hsa⟩ := hs
    exact hstep _ a _ ih hG hsa

theorem Reachable.mono (h : Reachable step G s₀ s) (hG : ∀ s a, G s a → G' s a) :
    Reachable step G' s₀ s :=
  Relation.ReflTransGen.mono (fun _ _ ⟨a, hGa, hs⟩ => ⟨a, hG _ a hGa, hs⟩) _ _ h

/-- Execute a list of labels. -/
def runList (step : σ → α → Option σ) : σ → List α → Option σ
  | s, [] => some s
  | s, a :: as => (step s a).bind fun t => runList step t as

theorem runList_cons {a : α} {as : List α} :
    runList step s (a :: as) = (step s a).bind fun t => runList step t as := rfl

/-- What a list of labels writes to a log, when `emit s a` is what the step `a` from `s` writes. -/
def runLog {β : Type*} (step : σ → α → Option σ) (emit : σ → α → List β) : σ → List α → List β
  | _, [] => []
  | s, a :: as => emit s a ++ ((step s a).map fun t => runLog step emit t as).getD []

/-- **A state that keeps the log**: when every step appends to `f` what it writes, `f` is the
log after any run. -/
theorem eq_append_runLog {β : Type*} {Q : σ → Prop} {emit : σ → α → List β} {f : σ → List β}
    {as : List α} (hstep : ∀ s a s', Q s → step s a = some s' → Q s' ∧ f s' = f s ++ emit s a)
    (h : runList step s as = some s') (hQ : Q s) : Q s' ∧ f s' = f s ++ runLog step emit s as := by
  induction as generalizing s with
  | nil =>
    rw [runList, Option.some_inj] at h
    subst h
    exact ⟨hQ, (List.append_nil _).symm⟩
  | cons a as ih =>
    rw [runList_cons, Option.bind_eq_some_iff] at h
    obtain ⟨t, ht, hrest⟩ := h
    obtain ⟨hQt, hft⟩ := hstep s a t hQ ht
    obtain ⟨hQ', hf'⟩ := ih hrest hQt
    refine ⟨hQ', ?_⟩
    rw [hf', hft, runLog, ht, List.append_assoc]
    rfl

/-- The labels meet the guard in the states in which they are taken. -/
def Meets (step : σ → α → Option σ) (G : σ → α → Prop) : σ → List α → Prop
  | _, [] => True
  | s, a :: as => G s a ∧ ∀ t, step s a = some t → Meets step G t as

/-- The labels meet the guard until `x` is written to the log. -/
def MeetsUntil {β : Type*} (step : σ → α → Option σ) (emit : σ → α → List β) (G : σ → α → Prop)
    (x : β) : σ → List α → Prop
  | _, [] => True
  | s, a :: as =>
      G s a ∧ (x ∈ emit s a ∨ ∀ t, step s a = some t → MeetsUntil step emit G x t as)

/-- Whether a list of labels meets the guard can be found out by executing it. -/
instance Meets.instDecidable [∀ s a, Decidable (G s a)] :
    ∀ s as, Decidable (Meets step G s as)
  | _, [] => isTrue trivial
  | s, a :: as =>
      match h : step s a with
      | none =>
          decidable_of_iff (G s a) ⟨fun hG => ⟨hG, fun t ht => by rw [h] at ht; cases ht⟩, And.left⟩
      | some t =>
          have := instDecidable t as
          decidable_of_iff (G s a ∧ Meets step G t as)
            ⟨fun hG => ⟨hG.1, fun u hu => Option.some.inj (h.symm.trans hu) ▸ hG.2⟩,
              fun hG => ⟨hG.1, hG.2 t h⟩⟩

/-- A list of labels that executes and meets the guard is a run under the guard. -/
theorem Reachable.of_runList {as : List α} (h : runList step s as = some s')
    (hG : Meets step G s as) : Reachable step G s s' := by
  induction as generalizing s with
  | nil =>
    rw [runList, Option.some_inj] at h
    exact h ▸ Reachable.refl s
  | cons a as ih =>
    rw [runList_cons, Option.bind_eq_some_iff] at h
    obtain ⟨t, ht, hrest⟩ := h
    exact Relation.ReflTransGen.head ⟨a, hG.1, ht⟩ (ih hrest (hG.2 t ht))

theorem meets_anyStep (s : σ) (as : List α) : Meets step anyStep s as := by
  induction as generalizing s with
  | nil => trivial
  | cons a as ih => exact ⟨trivial, fun t _ => ih t⟩

/-- **Exact guards, beside an invariant.**  When a step from a state with `P` and `Q` leads to a
state with `P` exactly if it meets the guard, and `Q` stays with `P`, a run passes through states
with `P` only exactly if all its steps meet the guard. -/
theorem forall_prefix_iff_meets_of_invariant {P Q : σ → Prop} {as : List α}
    (hstep : ∀ s a s', P s → Q s → step s a = some s' → (G s a ↔ P s') ∧ (P s' → Q s'))
    (h : runList step s as = some s') (h0 : P s) (hQ : Q s) :
    (∀ bs, bs <+: as → ∀ t, runList step s bs = some t → P t) ↔ Meets step G s as := by
  induction as generalizing s with
  | nil =>
    refine ⟨fun _ => trivial, fun _ bs hbs t ht => ?_⟩
    rw [List.prefix_nil.mp hbs, runList, Option.some_inj] at ht
    exact ht ▸ h0
  | cons a as ih =>
    rw [runList_cons, Option.bind_eq_some_iff] at h
    obtain ⟨u, hu, hrest⟩ := h
    obtain ⟨hiff, hkeep⟩ := hstep s a u h0 hQ hu
    have hrun : ∀ bs, runList step s (a :: bs) = runList step u bs := fun bs => by
      rw [runList_cons, hu]
      rfl
    constructor
    · intro hall
      have hPu : P u := hall [a] ⟨as, rfl⟩ u (by rw [hrun]; rfl)
      refine ⟨hiff.mpr hPu, fun t ht => ?_⟩
      obtain rfl : u = t := Option.some.inj (hu.symm.trans ht)
      exact (ih hrest hPu (hkeep hPu)).mp fun bs hbs t ht =>
        hall (a :: bs) (List.cons_prefix_cons.mpr ⟨rfl, hbs⟩) t ((hrun bs).trans ht)
    · rintro ⟨hG, hmeets⟩ bs hbs t ht
      have hPu : P u := hiff.mp hG
      cases bs with
      | nil =>
        rw [runList, Option.some_inj] at ht
        exact ht ▸ h0
      | cons b bs =>
        obtain ⟨rfl, htail⟩ := List.cons_prefix_cons.mp hbs
        exact (ih hrest hPu (hkeep hPu)).mpr (hmeets u hu) bs htail t ((hrun bs).symm.trans ht)

/-- **Exact guards.**  When a step from a state with `P` leads to a state with `P` exactly if it
meets the guard, a run passes through states with `P` only exactly if all its steps meet it. -/
theorem forall_prefix_iff_meets {P : σ → Prop} {as : List α}
    (hstep : ∀ s a s', P s → step s a = some s' → (G s a ↔ P s'))
    (h : runList step s as = some s') (h0 : P s) :
    (∀ bs, bs <+: as → ∀ t, runList step s bs = some t → P t) ↔ Meets step G s as :=
  forall_prefix_iff_meets_of_invariant (Q := fun _ => True)
    (fun s a s' hP _ hs => ⟨hstep s a s' hP hs, fun _ => trivial⟩) h h0 trivial

/-- A list of labels that executes is a run. -/
theorem reachable_of_runList {as : List α} (h : runList step s as = some s') :
    Reachable step anyStep s s' :=
  Reachable.of_runList h (meets_anyStep s as)

end Transition
end OscKernel
