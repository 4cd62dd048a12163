import Mathlib.Data.List.Chain
import Mathlib.Data.List.Nodup
import Mathlib.Logic.Function.Basic

/-!
# Circular doubly linked lists in memory

`Ring s h xs` says that the pointers `s` lead from the head `h` through the nodes of `xs`, in this
order, and back to `h`, both ways.  A ring depends only on the pointers of its own nodes, may be
read from any of them, and grows and shrinks between two neighbours.

* `Ring.congr`: the pointers of other nodes do not matter.
* `Ring.rotate`: the same ring, read from another of its nodes.
* `Ring.insert_after`, `Ring.insert_before`, `Ring.erase`: four writes add a node, two remove one.
* `Represents.insert`, `Represents.erase`: several heads with disjoint lists, one of which changes.

Heads and nodes have pointers of the same kind and may be of any type with decidable equality.  The
ring of a head says that following `next` visits the nodes in order and that `prev` leads back,
which is one statement about neighbours for every two of them; inserting and removing change two
such statements.  With several heads the rings are disjoint, and a write in one of them is none in
the others.
-/

namespace OscKernel

/-- The pointers of all nodes. -/
@[ext] structure Links (α : Type*) where
  prev : α → α
  next : α → α

namespace Links

variable {α ι : Type*}

/-- `b` comes right after `a`. -/
def Adj (s : Links α) (a b : α) : Prop := s.next a = b ∧ s.prev b = a

/-- From `a` through the nodes of `xs` to `b`. -/
def Path (s : Links α) (a : α) (xs : List α) (b : α) : Prop := (a :: (xs ++ [b])).IsChain s.Adj

/-- The circular list of the nodes `xs` with the head `h`. -/
structure Ring (s : Links α) (h : α) (xs : List α) : Prop where
  path : s.Path h xs h
  nodup : (h :: xs).Nodup

/-- In `t`, the node `n` stands between `p` and `q`, and all other pointers are those of `s`. -/
structure Inserted (s t : Links α) (p n q : α) : Prop where
  before : t.Adj p n
  after : t.Adj n q
  next_eq : ∀ a, a ≠ p → a ≠ n → t.next a = s.next a
  prev_eq : ∀ a, a ≠ q → a ≠ n → t.prev a = s.prev a

/-- In `t`, the node `q` follows `p`, and all pointers of nodes other than `n` are those of `s`
otherwise. -/
structure Erased (s t : Links α) (p n q : α) : Prop where
  adj : t.Adj p q
  next_eq : ∀ a, a ≠ p → a ≠ n → t.next a = s.next a
  prev_eq : ∀ a, a ≠ q → a ≠ n → t.prev a = s.prev a

variable {s t : Links α} {a b c h p q n : α} {xs ys : List α}

/-! ## Paths -/

@[simp] theorem path_nil : s.Path a [] b ↔ s.Adj a b := by
  simp [Path]

@[simp] theorem path_cons : s.Path a (c :: xs) b ↔ s.Adj a c ∧ s.Path c xs b := by
  simp [Path]

@[simp] theorem path_append : s.Path a (xs ++ c :: ys) b ↔ s.Path a xs c ∧ s.Path c ys b := by
  have hsplit : ((a :: xs) ++ c :: (ys ++ [b])).IsChain s.Adj ↔
      ((a :: xs) ++ [c]).IsChain s.Adj ∧ (c :: (ys ++ [b])).IsChain s.Adj := List.isChain_split
  simpa [Path] using hsplit

/-- A path depends on the `next` of all its nodes but the last and the `prev` of all but the
first. -/
theorem Path.congr (hpath : s.Path a xs b) (hnext : ∀ c ∈ a :: xs, t.next c = s.next c)
    (hprev : ∀ c ∈ xs ++ [b], t.prev c = s.prev c) : t.Path a xs b := by
  induction xs generalizing a with
  | nil =>
    rw [path_nil] at hpath ⊢
    exact ⟨(hnext a (by simp)).trans hpath.1, (hprev b (by simp)).trans hpath.2⟩
  | cons c xs ih =>
    rw [path_cons] at hpath ⊢
    obtain ⟨hadj, hpath⟩ := hpath
    refine ⟨⟨(hnext a (by simp)).trans hadj.1, (hprev c (by simp)).trans hadj.2⟩, ih hpath ?_ ?_⟩
    · exact fun d hd => hnext d (List.mem_cons_of_mem a hd)
    · exact fun d hd => hprev d (List.mem_cons_of_mem c hd)

/-- The rest of a ring, from the node after `p` back to `p`, does not see a change between `p` and
that node. -/
theorem Path.congr_of_nodup (hpath : s.Path c xs p) (hnodup : (p :: c :: xs).Nodup)
    (hn : n ∉ p :: c :: xs) (hnext : ∀ a, a ≠ p → a ≠ n → t.next a = s.next a)
    (hprev : ∀ a, a ≠ c → a ≠ n → t.prev a = s.prev a) : t.Path c xs p := by
  have hp := (List.nodup_cons.mp hnodup).1
  have hc := (List.nodup_cons.mp ((List.Perm.swap c p xs).nodup_iff.mp hnodup)).1
  refine hpath.congr ?_ ?_
  · intro d hd
    refine hnext d ?_ ?_
    · exact fun heq => hp (heq ▸ hd)
    · exact fun heq => hn (List.mem_cons_of_mem p (heq ▸ hd))
  · intro d hd
    have hd' : d ∈ p :: xs := by simpa [or_comm] using hd
    refine hprev d ?_ ?_
    · exact fun heq => hc (heq ▸ hd')
    · rintro rfl
      have hsub : p :: xs ⊆ p :: c :: xs := List.cons_subset_cons p (List.subset_cons_self c xs)
      exact hn (hsub hd')

/-! ## One ring -/

namespace Ring

theorem head_notMem (hr : s.Ring h xs) : h ∉ xs := (List.nodup_cons.mp hr.nodup).1

theorem congr (hr : s.Ring h xs) (hnext : ∀ c ∈ h :: xs, t.next c = s.next c)
    (hprev : ∀ c ∈ h :: xs, t.prev c = s.prev c) : t.Ring h xs := by
  refine ⟨hr.path.congr hnext fun c hc => hprev c ?_, hr.nodup⟩
  simpa [or_comm] using hc

/-- **A ring may be read from any of its nodes.** -/
theorem rotate (hr : s.Ring h (xs ++ p :: ys)) : s.Ring p (ys ++ h :: xs) := by
  obtain ⟨hleft, hright⟩ := path_append.mp hr.path
  refine ⟨path_append.mpr ⟨hright, hleft⟩, ?_⟩
  have hperm : (h :: (xs ++ p :: ys)).Perm (p :: (ys ++ h :: xs)) := by
    have hcomm : ((h :: xs) ++ (p :: ys)).Perm ((p :: ys) ++ (h :: xs)) := List.perm_append_comm
    simpa using hcomm
  exact hperm.nodup_iff.mp hr.nodup

theorem next_head (hr : s.Ring h xs) : (xs ++ [h]).head? = some (s.next h) := by
  cases xs with
  | nil => simpa using (path_nil.mp hr.path).1.symm
  | cons c xs => simpa using (path_cons.mp hr.path).1.1.symm

/-- **The head points to itself exactly when there is no node.** -/
theorem next_head_eq_iff (hr : s.Ring h xs) : s.next h = h ↔ xs = [] := by
  have hhead := hr.next_head
  cases xs with
  | nil => simpa [eq_comm] using hhead
  | cons c xs =>
    have hc : c = s.next h := by simpa using hhead
    have hne : h ≠ c := fun heq => hr.head_notMem (heq ▸ List.mem_cons_self)
    simpa [← hc] using hne.symm

/-- The neighbours of a node of the list. -/
theorem neighbours (hr : s.Ring h (xs ++ n :: ys)) :
    (h :: xs).getLast? = some (s.prev n) ∧ (ys ++ [h]).head? = some (s.next n) := by
  obtain ⟨hleft, hright⟩ := path_append.mp hr.path
  constructor
  · rcases List.eq_nil_or_concat' xs with rfl | ⟨xs, p, rfl⟩
    · simpa using (path_nil.mp hleft).2.symm
    · have hadj := (path_append.mp hleft).2
      rw [path_nil] at hadj
      rw [← List.cons_append, List.getLast?_concat, hadj.2]
  · cases ys with
    | nil => simpa using (path_nil.mp hright).1.symm
    | cons q ys => simpa using (path_cons.mp hright).1.1.symm

/-- The node before a place of the ring. -/
theorem getLast?_eq_prev (hr : s.Ring h (xs ++ ys)) (hq : (ys ++ [h]).head? = some q) :
    (h :: xs).getLast? = some (s.prev q) := by
  cases ys with
  | nil =>
    obtain rfl : h = q := by simpa using hq
    rcases List.eq_nil_or_concat' xs with rfl | ⟨xs, p, rfl⟩
    · simpa using (path_nil.mp hr.path).2.symm
    · have hpath := hr.path
      rw [List.append_nil] at hpath
      have hadj := path_nil.mp (path_append.mp hpath).2
      rw [← List.cons_append, List.getLast?_concat, hadj.2]
  | cons y ys =>
    obtain rfl : y = q := by simpa using hq
    exact hr.neighbours.1

/-- **Adding a node right after the head.** -/
theorem insert_after (hr : s.Ring p xs) (hn : n ∉ p :: xs) (hq : (xs ++ [p]).head? = some q)
    (ht : Inserted s t p n q) : t.Ring p (n :: xs) := by
  have hnodup : (p :: n :: xs).Nodup := by
    have hcons := List.nodup_cons.mpr ⟨hn, hr.nodup⟩
    exact (List.Perm.swap p n xs).nodup_iff.mp hcons
  refine ⟨path_cons.mpr ⟨ht.before, ?_⟩, hnodup⟩
  cases xs with
  | nil =>
    obtain rfl : p = q := by simpa using hq
    exact path_nil.mpr ht.after
  | cons c xs =>
    obtain rfl : c = q := by simpa using hq
    have hpath := (path_cons.mp hr.path).2
    exact path_cons.mpr
      ⟨ht.after, hpath.congr_of_nodup hr.nodup hn ht.next_eq ht.prev_eq⟩

/-- **Adding a node between two neighbours.** -/
theorem insert_before (hr : s.Ring h (xs ++ ys)) (hn : n ∉ h :: (xs ++ ys))
    (hp : (h :: xs).getLast? = some p) (hq : (ys ++ [h]).head? = some q)
    (ht : Inserted s t p n q) : t.Ring h (xs ++ n :: ys) := by
  rcases List.eq_nil_or_concat' xs with rfl | ⟨xs, x, rfl⟩
  · obtain rfl : h = p := by simpa using hp
    exact hr.insert_after hn hq ht
  · -- the ring is read from the node that comes before the place
    obtain rfl : x = p := by
      rw [← List.cons_append, List.getLast?_concat] at hp
      exact Option.some.inj hp
    have hx : s.Ring x (ys ++ h :: xs) := by
      rw [List.append_assoc] at hr
      exact hr.rotate
    have hnx : n ∉ x :: (ys ++ h :: xs) := by
      intro hmem
      apply hn
      simp only [List.mem_cons, List.mem_append, List.not_mem_nil, or_false] at hmem ⊢
      tauto
    have hqx : ((ys ++ h :: xs) ++ [x]).head? = some q := by
      cases ys with
      | nil => simpa using hq
      | cons y ys => simpa using hq
    have hins := hx.insert_after hnx hqx ht
    rw [← List.cons_append] at hins
    simpa using hins.rotate

/-- **Removing the first node.** -/
theorem erase_after (hr : s.Ring p (n :: xs)) (hq : (xs ++ [p]).head? = some q)
    (ht : Erased s t p n q) : t.Ring p xs := by
  have hswap := (List.Perm.swap n p xs).nodup_iff.mp hr.nodup
  obtain ⟨hn, hnodup⟩ := List.nodup_cons.mp hswap
  refine ⟨?_, hnodup⟩
  cases xs with
  | nil =>
    obtain rfl : p = q := by simpa using hq
    exact path_nil.mpr ht.adj
  | cons c xs =>
    obtain rfl : c = q := by simpa using hq
    have hpath := (path_cons.mp (path_cons.mp hr.path).2).2
    exact path_cons.mpr ⟨ht.adj, hpath.congr_of_nodup hnodup hn ht.next_eq ht.prev_eq⟩

/-- **Removing a node.** -/
theorem erase (hr : s.Ring h (xs ++ n :: ys)) (hp : (h :: xs).getLast? = some p)
    (hq : (ys ++ [h]).head? = some q) (ht : Erased s t p n q) : t.Ring h (xs ++ ys) := by
  rcases List.eq_nil_or_concat' xs with rfl | ⟨xs, x, rfl⟩
  · obtain rfl : h = p := by simpa using hp
    exact hr.erase_after hq ht
  · obtain rfl : x = p := by
      rw [← List.cons_append, List.getLast?_concat] at hp
      exact Option.some.inj hp
    have hx : s.Ring x (n :: ys ++ h :: xs) := by
      rw [List.append_assoc] at hr
      exact hr.rotate
    have hqx : ((ys ++ h :: xs) ++ [x]).head? = some q := by
      cases ys with
      | nil => simpa using hq
      | cons y ys => simpa using hq
    have hera := hx.erase_after hqx ht
    simpa using hera.rotate

end Ring

/-! ## Several rings -/

section Represents

variable {head : ι → α} {lists : ι → List α} {i j : ι}

/-- The heads have the lists `lists`, which share no node. -/
structure Represents (s : Links α) (head : ι → α) (lists : ι → List α) : Prop where
  ring : ∀ i, s.Ring (head i) (lists i)
  disjoint : ∀ i j, i ≠ j → (head i :: lists i).Disjoint (head j :: lists j)

/-- The node is neither a head nor on a list. -/
def Unlinked (head : ι → α) (lists : ι → List α) (n : α) : Prop := ∀ i, n ∉ head i :: lists i

theorem Unlinked.ne (hn : Unlinked head lists n) (hp : p ∈ head i :: lists i) : n ≠ p :=
  fun heq => hn i (heq ▸ hp)

/-- The pointers in `t` are those of `s`, but for `n` and for the ring of the head `h`. -/
def Frame (s t : Links α) (h : α) (xs : List α) (n : α) : Prop :=
  ∀ a, a ∉ h :: xs → a ≠ n → t.next a = s.next a ∧ t.prev a = s.prev a

/-- The neighbours of a place in a list are on the list, or are its head. -/
theorem mem_of_getLast? (ys : List α) (hp : (h :: xs).getLast? = some p) : p ∈ h :: (xs ++ ys) :=
  List.mem_append_left ys (List.mem_of_getLast? hp)

theorem mem_of_head? (xs : List α) (hq : (ys ++ [h]).head? = some q) : q ∈ h :: (xs ++ ys) := by
  have hmem := List.mem_of_head? hq
  simp only [List.mem_append, List.mem_cons, List.not_mem_nil, or_false] at hmem ⊢
  tauto

/-- Writes to the node and to its neighbours stay in the ring. -/
theorem Frame.of_neighbours (hp : p ∈ h :: xs) (hq : q ∈ h :: xs)
    (hnext : ∀ a, a ≠ p → a ≠ n → t.next a = s.next a)
    (hprev : ∀ a, a ≠ q → a ≠ n → t.prev a = s.prev a) : Frame s t h xs n := fun a ha han =>
  ⟨hnext a (fun heq => ha (heq ▸ hp)) han, hprev a (fun heq => ha (heq ▸ hq)) han⟩

/-- In `t`, the list of `head i` is `xs`, and all else is as in `s`; `n` is the node that came or
went. -/
def Changes [DecidableEq ι] (s t : Links α) (head : ι → α) (lists : ι → List α) (i : ι)
    (xs : List α) (n : α) : Prop :=
  t.Represents head (Function.update lists i xs) ∧ Frame s t (head i) (lists i) n

namespace Represents

variable [DecidableEq ι]

theorem changes (hs : s.Represents head lists) (hring : t.Ring (head i) xs)
    (hmem : ∀ a ∈ xs, a ∈ lists i ∨ a = n) (hn : ∀ j, j ≠ i → n ∉ head j :: lists j)
    (hframe : Frame s t (head i) (lists i) n) : Changes s t head lists i xs n := by
  have hdisj : ∀ j, j ≠ i → (head i :: xs).Disjoint (head j :: lists j) := by
    intro j hj a ha haj
    rcases List.mem_cons.mp ha with rfl | ha
    · exact hs.disjoint i j hj.symm List.mem_cons_self haj
    · rcases hmem a ha with ha | rfl
      · exact hs.disjoint i j hj.symm (List.mem_cons_of_mem _ ha) haj
      · exact hn j hj haj
  refine ⟨⟨?_, ?_⟩, hframe⟩
  · intro j
    by_cases hj : j = i
    · subst hj
      simpa using hring
    · rw [Function.update_of_ne hj]
      have hkeep : ∀ c ∈ head j :: lists j, t.next c = s.next c ∧ t.prev c = s.prev c := by
        intro c hc
        refine hframe c ?_ ?_
        · exact fun hci => hs.disjoint j i hj hc hci
        · exact fun heq => hn j hj (heq ▸ hc)
      exact (hs.ring j).congr (fun c hc => (hkeep c hc).1) fun c hc => (hkeep c hc).2
  · intro j k hjk
    by_cases hj : j = i
    · subst hj
      rw [Function.update_self, Function.update_of_ne hjk.symm]
      exact hdisj k hjk.symm
    · rw [Function.update_of_ne hj]
      by_cases hk : k = i
      · subst hk
        rw [Function.update_self]
        exact fun a ha hak => hdisj j hj hak ha
      · rw [Function.update_of_ne hk]
        exact hs.disjoint j k hjk

/-- **An unlinked node is added** to one of the lists. -/
theorem insert (hs : s.Represents head lists) (hn : Unlinked head lists n)
    (hlist : lists i = xs ++ ys) (hp : (head i :: xs).getLast? = some p)
    (hq : (ys ++ [head i]).head? = some q) (ht : Inserted s t p n q) :
    Changes s t head lists i (xs ++ n :: ys) n := by
  have hring := hs.ring i
  have hni := hn i
  rw [hlist] at hring hni
  refine hs.changes (hring.insert_before hni hp hq ht) ?_ (fun j _ => hn j) ?_
  · intro a ha
    rw [hlist]
    simp only [List.mem_append, List.mem_cons] at ha ⊢
    tauto
  · rw [hlist]
    exact .of_neighbours (mem_of_getLast? ys hp) (mem_of_head? xs hq) ht.next_eq ht.prev_eq

/-- **A node is removed** from one of the lists. -/
theorem erase (hs : s.Represents head lists) (hlist : lists i = xs ++ n :: ys)
    (ht : Erased s t (s.prev n) n (s.next n)) : Changes s t head lists i (xs ++ ys) n := by
  have hring := hs.ring i
  rw [hlist] at hring
  obtain ⟨hp, hq⟩ := hring.neighbours
  have hnmem : n ∈ head i :: lists i := by simp [hlist]
  refine hs.changes (hring.erase hp hq ht) ?_ (fun j hj => hs.disjoint i j hj.symm hnmem) ?_
  · intro a ha
    rw [hlist]
    simp only [List.mem_append, List.mem_cons] at ha ⊢
    tauto
  · rw [hlist]
    have hqmem : s.next n ∈ head i :: ((xs ++ [n]) ++ ys) := mem_of_head? (xs ++ [n]) hq
    rw [List.append_assoc] at hqmem
    exact .of_neighbours (mem_of_getLast? (n :: ys) hp) hqmem ht.next_eq ht.prev_eq

end Represents
end Represents
end Links
end OscKernel
