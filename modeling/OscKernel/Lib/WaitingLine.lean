import OscKernel.Lib.Transition
import Mathlib.Data.List.Nodup
import Mathlib.Data.List.TakeWhile

/-!
# Waiting lines

A system whose states hold a line of clients.  A step may take clients out of the line, serve the
first one that is left, and put others at its end; it writes down whom it serves.

* `ahead`: the clients in front of one of them.
* `Kept.ahead_sublist`: taking clients out and adding others at the end brings nobody in front.
* `Patient`: what a step does to a client that waits.
* `Patient.served_or_waits`: in a run only the clients in front of it are served before it, each of
  them at most once and in their order.
* `Patient.sublist_ahead`, `Patient.mem_take`, `Patient.not_overtaken`: what follows for the clients
  in front, for the length of the wait, and for the others.
-/

namespace OscKernel
namespace WaitingLine

open Transition
open scoped List

variable {σ α τ : Type*} {q r : List τ} {t u : τ}

/-! ## The clients in front -/

/-- Of the line `q` those who are not `gone` stay in `q'`, in their order, and others come in behind
them. -/
def Kept (q q' : List τ) (gone : τ → Prop) : Prop :=
  ∃ r, r <+ q ∧ r <+: q' ∧ ∀ t ∈ q, ¬ gone t → t ∈ r

theorem Kept.of_isPrefix {q' : List τ} {gone : τ → Prop} (h : q <+: q') : Kept q q' gone :=
  ⟨q, List.Sublist.refl q, h, fun _ ht _ => ht⟩

theorem Kept.mem {q' : List τ} {gone : τ → Prop} (h : Kept q q' gone) (ht : t ∈ q)
    (hgone : ¬ gone t) : t ∈ q' := by
  obtain ⟨r, -, hnew, hr⟩ := h
  exact hnew.subset (hr t ht hgone)

variable [DecidableEq τ]

/-- The clients in front of `t`. -/
def ahead (q : List τ) (t : τ) : List τ := q.takeWhile (· ≠ t)

@[simp] theorem ahead_cons_self (q : List τ) (t : τ) : ahead (t :: q) t = [] :=
  List.takeWhile_cons_of_neg (by simp)

theorem ahead_cons_of_ne (h : u ≠ t) (q : List τ) : ahead (u :: q) t = u :: ahead q t :=
  List.takeWhile_cons_of_pos (by simpa using h)

/-- Nobody is in front of itself. -/
theorem notMem_ahead : t ∉ ahead q t := fun h => by
  simpa using List.mem_takeWhile_imp h

/-- Clients at the end of the line are not in front of those that wait already. -/
theorem ahead_of_isPrefix (h : r <+: q) (ht : t ∈ r) : ahead q t = ahead r t := by
  obtain ⟨l, rfl⟩ := h
  induction r with
  | nil => simp at ht
  | cons a r ih =>
    rw [List.cons_append]
    by_cases ha : a = t
    · rw [ha, ahead_cons_self, ahead_cons_self]
    · rw [ahead_cons_of_ne ha, ahead_cons_of_ne ha, ih (List.mem_of_ne_of_mem (Ne.symm ha) ht)]

/-- When clients leave the line, those in front of `t` that stay keep their order. -/
theorem ahead_sublist_of_sublist (h : r <+ q) (hq : q.Nodup) (ht : t ∈ r) :
    ahead r t <+ ahead q t := by
  induction h with
  | slnil => exact List.Sublist.refl _
  | cons a h ih =>
    obtain ⟨ha, hq⟩ := List.nodup_cons.mp hq
    have hne : a ≠ t := by
      rintro rfl
      exact ha (h.subset ht)
    rw [ahead_cons_of_ne hne]
    exact (ih hq ht).cons a
  | cons_cons a h ih =>
    by_cases ha : a = t
    · rw [ha, ahead_cons_self, ahead_cons_self]
    · rw [ahead_cons_of_ne ha, ahead_cons_of_ne ha]
      exact (ih (List.nodup_cons.mp hq).2 (List.mem_of_ne_of_mem (Ne.symm ha) ht)).cons_cons a

/-- **Nobody gets in front** of a client that stays. -/
theorem Kept.ahead_sublist {q' : List τ} {gone : τ → Prop} (h : Kept q q' gone) (hq : q.Nodup)
    (ht : t ∈ q) (hgone : ¬ gone t) : ahead q' t <+ ahead q t := by
  obtain ⟨r, hsub, hnew, hr⟩ := h
  rw [ahead_of_isPrefix hnew (hr t ht hgone)]
  exact ahead_sublist_of_sublist hsub hq (hr t ht hgone)

/-- The clients in front of the one at position `p`. -/
theorem ahead_eq_take {p : ℕ} (hq : q.Nodup) (ht : q[p]? = some t) : ahead q t = q.take p := by
  induction q generalizing p with
  | nil => simp at ht
  | cons a q ih =>
    obtain ⟨ha, hq⟩ := List.nodup_cons.mp hq
    cases p with
    | zero =>
      obtain rfl : a = t := by simpa using ht
      simp
    | succ p =>
      rw [List.getElem?_cons_succ] at ht
      have hne : a ≠ t := by
        rintro rfl
        exact ha (List.mem_of_getElem? ht)
      rw [ahead_cons_of_ne hne, ih hq ht, List.take_succ_cons]

/-! ## Runs -/

variable {step : σ → α → Option σ} {queue : σ → List τ} {emit : σ → α → List (Option τ)}
  {gone : σ → α → Prop} {s s' : σ} {as : List α}

/-- **What a step does to `t`**, when `t` waits and the step does not take it out: it is served, or
it waits on, and who is served was in front of it and is not any more. -/
def Patient (step : σ → α → Option σ) (queue : σ → List τ) (emit : σ → α → List (Option τ))
    (gone : σ → α → Prop) (Q : σ → Prop) (t : τ) : Prop :=
  ∀ s a s', Q s → step s a = some s' → Q s' ∧ (t ∈ queue s → ¬ gone s a →
    some t ∈ emit s a ∧ (emit s a).length = 1 ∨
      t ∈ queue s' ∧
        emit s a ++ (ahead (queue s') t).map some <+ (ahead (queue s) t).map some)

/-- **A run.**  As long as `t` is not served it waits, and those who have been served and those who
are still in front of it were in front of it at the beginning, in this order. -/
theorem Patient.served_or_waits {Q : σ → Prop} (hstep : Patient step queue emit gone Q t)
    (hrun : runList step s as = some s') (hQ : Q s) (ht : t ∈ queue s)
    (hstay : MeetsUntil step emit (fun s a => ¬ gone s a) (some t) s as) :
    (∃ l l', runLog step emit s as = l ++ some t :: l' ∧ l <+ (ahead (queue s) t).map some) ∨
      t ∈ queue s' ∧
        runLog step emit s as ++ (ahead (queue s') t).map some <+ (ahead (queue s) t).map some := by
  induction as generalizing s with
  | nil =>
    obtain rfl : s = s' := Option.some.inj hrun
    exact Or.inr ⟨ht, List.Sublist.refl _⟩
  | cons a as ih =>
    rw [runList_cons, Option.bind_eq_some_iff] at hrun
    obtain ⟨m, hm, hrest⟩ := hrun
    obtain ⟨hQm, hpatient⟩ := hstep s a m hQ hm
    have hlog : runLog step emit s (a :: as) = emit s a ++ runLog step emit m as := by
      rw [runLog, hm]
      rfl
    rw [hlog]
    rcases hpatient ht hstay.1 with ⟨hserved, hone⟩ | ⟨hwait, hsub⟩
    · obtain ⟨x, hx⟩ := List.length_eq_one_iff.mp hone
      rw [hx, List.mem_singleton] at hserved
      exact Or.inl ⟨[], runLog step emit m as, by rw [hx, ← hserved]; rfl, List.nil_sublist _⟩
    · have hnot : some t ∉ emit s a := fun hmem => by
        have hin := hsub.subset (List.mem_append_left _ hmem)
        obtain ⟨v, hv, hvt⟩ := List.mem_map.mp hin
        exact notMem_ahead (Option.some.inj hvt ▸ hv)
      have hstay' := (hstay.2.resolve_left hnot) m hm
      rcases ih hrest hQm hwait hstay' with ⟨l, l', hl, hsub'⟩ | ⟨hwait', hsub'⟩
      · refine Or.inl ⟨emit s a ++ l, l', ?_, ((List.append_sublist_append_left _).mpr hsub').trans
          hsub⟩
        rw [hl, List.append_assoc]
      · refine Or.inr ⟨hwait', ?_⟩
        rw [List.append_assoc]
        exact ((List.append_sublist_append_left _).mpr hsub').trans hsub

/-- Until `t` is served, only the clients in front of it are, each at most once and in their
order. -/
theorem Patient.sublist_ahead {Q : σ → Prop} (hstep : Patient step queue emit gone Q t)
    (hrun : runList step s as = some s') (hQ : Q s) (ht : t ∈ queue s)
    (hstay : MeetsUntil step emit (fun s a => ¬ gone s a) (some t) s as) {l l' : List (Option τ)}
    (hlog : runLog step emit s as = l ++ l') (hnot : some t ∉ l) :
    l <+ (ahead (queue s) t).map some := by
  rcases hstep.served_or_waits hrun hQ ht hstay with ⟨l₁, l₂, hl, hsub⟩ | ⟨-, hsub⟩
  · rw [hlog] at hl
    rcases List.append_eq_append_iff.mp hl with ⟨m, hm, -⟩ | ⟨m, hm, hm'⟩
    · rw [hm] at hsub
      exact (List.sublist_append_left l m).trans hsub
    · cases m with
      | nil => rwa [hm, List.append_nil]
      | cons x m =>
        obtain rfl := (List.cons.inj hm').1
        exact absurd (hm ▸ List.mem_append_right _ List.mem_cons_self) hnot
  · rw [hlog] at hsub
    exact ((List.sublist_append_left l l').trans (List.sublist_append_left _ _)).trans hsub

/-- **Bounded waiting**: a client at position `p` is one of the first `p + 1` that are served. -/
theorem Patient.mem_take {Q : σ → Prop} {p : ℕ} (hstep : Patient step queue emit gone Q t)
    (hrun : runList step s as = some s') (hQ : Q s) (hq : (queue s).Nodup)
    (ht : (queue s)[p]? = some t)
    (hstay : MeetsUntil step emit (fun s a => ¬ gone s a) (some t) s as)
    (hlen : p < (runLog step emit s as).length) :
    some t ∈ (runLog step emit s as).take (p + 1) := by
  by_contra hnot
  have hsub := hstep.sublist_ahead hrun hQ (List.mem_of_getElem? ht) hstay
    (List.take_append_drop (p + 1) _).symm hnot
  have hle := hsub.length_le
  rw [ahead_eq_take hq ht, List.length_map, List.length_take, List.length_take] at hle
  omega

/-- **No overtaking**: who was not in front of `t` is not served before `t` is. -/
theorem Patient.not_overtaken {Q : σ → Prop} (hstep : Patient step queue emit gone Q t)
    (hrun : runList step s as = some s') (hQ : Q s) (ht : t ∈ queue s)
    (hstay : MeetsUntil step emit (fun s a => ¬ gone s a) (some t) s as)
    (hu : u ∉ ahead (queue s) t) (hne : u ≠ t) {l l' : List (Option τ)}
    (hlog : runLog step emit s as = l ++ some u :: l') : some t ∈ l := by
  by_contra hnot
  have hlog' : runLog step emit s as = (l ++ [some u]) ++ l' := by
    rw [hlog, List.append_assoc, List.singleton_append]
  have hsub := hstep.sublist_ahead hrun hQ ht hstay hlog' <| by
    rw [List.mem_append, List.mem_singleton, not_or]
    exact ⟨hnot, fun h => hne (Option.some.inj h).symm⟩
  obtain ⟨v, hv, hvu⟩ := List.mem_map.mp
    (hsub.subset (List.mem_append_right l (List.mem_singleton_self _)))
  exact hu (Option.some.inj hvu ▸ hv)

end WaitingLine
end OscKernel
