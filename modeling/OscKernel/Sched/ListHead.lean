import OscKernel.Lib.CircularList
import OscKernel.Sched.Tasks
import OscKernel.Sched.Timers

/-!
# The intrusive list (`list.h`)

The functions of `list.h`, and the insertion that `add_timer_ticks` and `add_task` write out, as
writes of the pointers of `struct list_head`, whose addresses are of any type.

* `Represents.listHead`: each function does to the lists of the heads what its name says, whatever
  the lists are.
* `Represents.addTimerTicksLink_refines`, `Represents.addTaskLink_refines`: the queues of the
  functions of `timer.c` and `task.c` are such lists.

## Many lists at once

The kernel has a list for every parent, the run queue, the zombies, and the queues of the timers and
the tasks, all over one set of nodes.  `Represents` is about all the heads together: each head and
the nodes of its list form a ring, forwards and backwards, and no node is on two of them.  A
function that is given one head must leave the rings of the others alone, and with two heads in one
statement this is what the theorem says, besides what it does to the one: `Changes` has the new
list, and that no other pointer was written than those of this list and of the node.

`list_del` makes its node point to itself, so that a second `list_del` of it does nothing; this is a
clause of its own, since the kernel relies on it.

## Insertion in order

The two insertions walk from the head to the first node that does not come before the new one, and
put it there.  The walk is given fuel, and the length of the list is enough.  The result is
`List.orderedInsert`, which is what the models of the two queues use.
-/

namespace OscKernel
namespace Links

variable {α : Type*} [DecidableEq α]

/-- `a->prev = b`. -/
def setPrev (s : Links α) (a b : α) : Links α := { s with prev := Function.update s.prev a b }

/-- `a->next = b`. -/
def setNext (s : Links α) (a b : α) : Links α := { s with next := Function.update s.next a b }

/-- `INIT_LIST_HEAD`. -/
def initListHead (head : α) (s : Links α) : Links α :=
  let s := s.setNext head head
  s.setPrev head head

/-- `__list_add`. -/
def listAddBetween (node prev next : α) (s : Links α) : Links α :=
  let s := s.setPrev next node
  let s := s.setNext node next
  let s := s.setPrev node prev
  s.setNext prev node

/-- `__list_del`. -/
def listDelBetween (prev next : α) (s : Links α) : Links α :=
  let s := s.setPrev next prev
  s.setNext prev next

/-- `list_add`. -/
def listAdd (node head : α) (s : Links α) : Links α := s.listAddBetween node head (s.next head)

/-- `list_add_tail`. -/
def listAddTail (node head : α) (s : Links α) : Links α := s.listAddBetween node (s.prev head) head

/-- `list_del`. -/
def listDel (node : α) (s : Links α) : Links α :=
  let s := s.listDelBetween (s.prev node) (s.next node)
  let s := s.setNext node node
  s.setPrev node node

/-- `list_empty`. -/
def listEmpty (head : α) (s : Links α) : Bool := s.next head = head

/-- The insertion of `n` immediately before `p` in `add_timer_ticks` and `add_task`. -/
def insertBefore (n p : α) (s : Links α) : Links α :=
  let s := s.setPrev n (s.prev p)
  let s := s.setNext n p
  let s := s.setNext (s.prev p) n
  s.setPrev p n

/-- The loop in front of it: it starts at `p` and stops at the head or at a node that `stop` tells
about; `none` is that it goes on after `fuel` tests. -/
def walk (stop : α → Prop) [DecidablePred stop] (head : α) (s : Links α) : ℕ → α → Option α
  | 0, _ => none
  | fuel + 1, p => if p = head ∨ stop p then some p else walk stop head s fuel (s.next p)

/-- The walk of `add_timer_ticks` over `g_timer_queue`, and its insertion. -/
def addTimerTicksLink (expireTick : α → BitVec 64) (gTimerQueue n : α) (fuel : ℕ) (s : Links α) :
    Option (Links α) :=
  (walk (fun t => expireTick n < expireTick t) gTimerQueue s fuel (s.next gTimerQueue)).map
    fun p => s.insertBefore n p

/-- The walk of `add_task` over `g_task_queue`, and its insertion. -/
def addTaskLink (priority : α → ℤ) (gTaskQueue n : α) (fuel : ℕ) (s : Links α) :
    Option (Links α) :=
  (walk (fun t => priority n < priority t) gTaskQueue s fuel (s.next gTaskQueue)).map
    fun p => s.insertBefore n p

/-- The node is linked to itself. -/
def SelfLinked (s : Links α) (n : α) : Prop := s.next n = n ∧ s.prev n = n

variable {s : Links α} {a b h n p q : α} {xs ys : List α}

@[simp] theorem next_setPrev : (s.setPrev a b).next = s.next := rfl

@[simp] theorem prev_setNext : (s.setNext a b).prev = s.prev := rfl

@[simp] theorem prev_setPrev : (s.setPrev a b).prev = Function.update s.prev a b := rfl

@[simp] theorem next_setNext : (s.setNext a b).next = Function.update s.next a b := rfl

/-! ## What the writes amount to -/

theorem inserted_listAddBetween (hp : n ≠ p) (hq : n ≠ q) :
    Inserted s (s.listAddBetween n p q) p n q := by
  constructor
  case before => constructor <;> simp [listAddBetween]
  case after => constructor <;> simp [listAddBetween, hp, hq.symm]
  case next_eq =>
    intro a hap han
    simp [listAddBetween, hap, han]
  case prev_eq =>
    intro a haq han
    simp [listAddBetween, haq, han]

theorem inserted_insertBefore (hp : n ≠ s.prev q) (hq : n ≠ q) :
    Inserted s (s.insertBefore n q) (s.prev q) n q := by
  constructor
  case before => constructor <;> simp [insertBefore, hq, hq.symm]
  case after => constructor <;> simp [insertBefore, hp, hq.symm]
  case next_eq =>
    intro a hap han
    simp [insertBefore, hap, han, hq.symm]
  case prev_eq =>
    intro a haq han
    simp [insertBefore, haq, han]

theorem erased_listDel (hp : n ≠ s.prev n) (hq : n ≠ s.next n) :
    Erased s (s.listDel n) (s.prev n) n (s.next n) := by
  constructor
  · constructor <;> simp [listDel, listDelBetween, hp.symm, hq.symm]
  · intro a hap han
    simp [listDel, listDelBetween, hap, han]
  · intro a haq han
    simp [listDel, listDelBetween, haq, han]

theorem selfLinked_listDel : (s.listDel n).SelfLinked n := by
  constructor <;> simp [listDel]

/-- **Removing a node that is linked to itself** changes no pointer. -/
theorem listDel_of_selfLinked (hn : s.SelfLinked n) : s.listDel n = s := by
  obtain ⟨hnext, hprev⟩ := hn
  ext a
  · by_cases ha : a = n
    · subst ha
      simp [listDel, hprev]
    · simp [listDel, listDelBetween, hnext, ha]
  · by_cases ha : a = n
    · subst ha
      simp [listDel, hnext]
    · simp [listDel, listDelBetween, hprev, ha]

theorem ring_initListHead : (s.initListHead h).Ring h [] := by
  refine ⟨path_nil.mpr ?_, by simp⟩
  constructor <;> simp [initListHead]

/-! ## The walk -/

/-- The walk ends at the first node of the rest of the list that stops it, or at the head. -/
theorem walk_eq {stop : α → Prop} [DecidablePred stop] {fuel : ℕ} (hpath : s.Path a ys h)
    (hhead : h ∉ ys) (hfuel : ys.length < fuel) :
    walk stop h s fuel (s.next a) = ((ys.dropWhile fun b => ¬ stop b) ++ [h]).head? := by
  induction ys generalizing a fuel with
  | nil =>
    obtain ⟨fuel, rfl⟩ := Nat.exists_eq_add_of_lt hfuel
    simp [walk, (path_nil.mp hpath).1]
  | cons c ys ih =>
    obtain ⟨hadj, hpath⟩ := path_cons.mp hpath
    obtain ⟨fuel, rfl⟩ : ∃ k, fuel = k + 1 := ⟨fuel - 1, by omega⟩
    rw [List.mem_cons, not_or] at hhead
    rw [hadj.1, walk]
    by_cases hstop : stop c
    · simp [hstop]
    · have hlt : ys.length < fuel := by simpa using hfuel
      simp [hstop, Ne.symm hhead.1, ih hpath hhead.2 hlt]

/-! ## Several lists -/

section Represents

variable {ι : Type*} [DecidableEq ι] {head : ι → α} {lists : ι → List α} {i : ι}

omit [DecidableEq α] in
/-- After the removal the node is on no list. -/
theorem Represents.unlinked_erase (hs : s.Represents head lists) (hlist : lists i = xs ++ n :: ys) :
    Unlinked head (Function.update lists i (xs ++ ys)) n := by
  intro j
  by_cases hj : j = i
  · subst hj
    have hnodup := (hs.ring j).nodup
    rw [hlist] at hnodup
    have hperm : (head j :: (xs ++ n :: ys)).Perm (n :: head j :: (xs ++ ys)) :=
      (List.perm_middle.cons _).trans (List.Perm.swap ..)
    rw [Function.update_self]
    exact (List.nodup_cons.mp (hperm.nodup_iff.mp hnodup)).1
  · rw [Function.update_of_ne hj]
    exact hs.disjoint i j (Ne.symm hj) (by simp [hlist])

variable (hs : s.Represents head lists) (hn : Unlinked head lists n)

include hs

theorem changes_listDel (hlist : lists i = xs ++ n :: ys) :
    Changes s (s.listDel n) head lists i (xs ++ ys) n := by
  refine hs.erase hlist ?_
  have hring := hs.ring i
  rw [hlist] at hring
  obtain ⟨hp, hq⟩ := hring.neighbours
  have hn := hs.unlinked_erase hlist
  have hlists : Function.update lists i (xs ++ ys) i = xs ++ ys := Function.update_self ..
  refine erased_listDel (hn.ne (i := i) ?_) (hn.ne (i := i) ?_)
  · rw [hlists]
    exact mem_of_getLast? ys hp
  · rw [hlists]
    exact mem_of_head? xs hq

omit [DecidableEq ι] in
theorem listEmpty_iff : s.listEmpty (head i) = true ↔ lists i = [] := by
  simpa [listEmpty] using (hs.ring i).next_head_eq_iff

include hn

omit [DecidableEq α] in
/-- The writes that put `n` between two neighbours of the list. -/
theorem changes_of_inserted {t : Links α} (hlist : lists i = xs ++ ys)
    (hq : (ys ++ [head i]).head? = some q)
    (ht : n ≠ s.prev q → n ≠ q → Inserted s t (s.prev q) n q) :
    Changes s t head lists i (xs ++ n :: ys) n := by
  have hring := hs.ring i
  rw [hlist] at hring
  have hp := hring.getLast?_eq_prev hq
  refine hs.insert hn hlist hp hq (ht (hn.ne (i := i) ?_) (hn.ne (i := i) ?_))
  · rw [hlist]
    exact mem_of_getLast? ys hp
  · rw [hlist]
    exact mem_of_head? xs hq

theorem changes_insertBefore (hlist : lists i = xs ++ ys)
    (hq : (ys ++ [head i]).head? = some q) :
    Changes s (s.insertBefore n q) head lists i (xs ++ n :: ys) n :=
  changes_of_inserted hs hn hlist hq inserted_insertBefore

theorem changes_listAddTail :
    Changes s (s.listAddTail n (head i)) head lists i (lists i ++ [n]) n :=
  changes_of_inserted hs hn (List.append_nil _).symm rfl inserted_listAddBetween

theorem changes_listAdd : Changes s (s.listAdd n (head i)) head lists i (n :: lists i) n := by
  have hring := hs.ring i
  have hnext := hring.next_head
  have hlist : lists i = [] ++ lists i := rfl
  have hprev : s.prev (s.next (head i)) = head i := by
    have hlast : [head i].getLast? = some (s.prev (s.next (head i))) :=
      Ring.getLast?_eq_prev (hlist ▸ hring) hnext
    simpa using hlast.symm
  refine changes_of_inserted hs hn hlist hnext ?_
  rw [hprev]
  exact inserted_listAddBetween

/-- The walk and the insertion that follows it, for any test. -/
theorem changes_walk {r : α → α → Prop} [DecidableRel r] {fuel : ℕ}
    (hfuel : (lists i).length < fuel) :
    ∃ t, (walk (r n) (head i) s fuel (s.next (head i))).map (fun p => s.insertBefore n p) = some t ∧
      Changes s t head lists i ((lists i).orderedInsert r n) n := by
  have hring := hs.ring i
  rw [walk_eq hring.path hring.head_notMem hfuel, List.orderedInsert_eq_take_drop]
  obtain ⟨q, hq⟩ : ∃ q, (((lists i).dropWhile fun b => ¬ r n b) ++ [head i]).head? = some q := by
    cases (lists i).dropWhile fun b => ¬ r n b with
    | nil => exact ⟨_, rfl⟩
    | cons y _ => exact ⟨y, rfl⟩
  rw [hq]
  exact ⟨_, rfl, changes_insertBefore hs hn (List.takeWhile_append_dropWhile ..).symm hq⟩

omit hn

/-- **The intrusive list is a list**: each function changes the list of one head as its name says,
and no other pointer than those of this list and of the node.  A node that is inserted is on no
list, one that is deleted is on none afterwards and points to itself, and the two insertions in
order walk no further than the list is long. -/
theorem Represents.listHead :
    (∀ i n, Unlinked head lists n →
      Changes s (s.listAdd n (head i)) head lists i (n :: lists i) n ∧
      Changes s (s.listAddTail n (head i)) head lists i (lists i ++ [n]) n) ∧
    (∀ i xs n ys, lists i = xs ++ n :: ys →
      Changes s (s.listDel n) head lists i (xs ++ ys) n ∧
      Unlinked head (Function.update lists i (xs ++ ys)) n ∧ (s.listDel n).SelfLinked n) ∧
    (∀ n, s.SelfLinked n → s.listDel n = s) ∧
    (∀ i, s.listEmpty (head i) = true ↔ lists i = []) ∧
    (∀ i xs ys n p, Unlinked head lists n → lists i = xs ++ ys →
      (ys ++ [head i]).head? = some p →
      Changes s (s.insertBefore n p) head lists i (xs ++ n :: ys) n) ∧
    (∀ i n (expireTick : α → BitVec 64) fuel, Unlinked head lists n → (lists i).length < fuel →
      ∃ t, s.addTimerTicksLink expireTick (head i) n fuel = some t ∧
        Changes s t head lists i
          ((lists i).orderedInsert (fun a b => expireTick a < expireTick b) n) n) ∧
    ∀ i n (priority : α → ℤ) fuel, Unlinked head lists n → (lists i).length < fuel →
      ∃ t, s.addTaskLink priority (head i) n fuel = some t ∧
        Changes s t head lists i
          ((lists i).orderedInsert (fun a b => priority a < priority b) n) n := by
  refine ⟨?_, ?_, ?_, ?_, ?_, ?_, ?_⟩
  · intro i n hn
    exact ⟨changes_listAdd hs hn, changes_listAddTail hs hn⟩
  · intro i xs n ys hlist
    exact ⟨changes_listDel hs hlist, hs.unlinked_erase hlist, selfLinked_listDel⟩
  · intro n hself
    exact listDel_of_selfLinked hself
  · intro i
    exact listEmpty_iff hs
  · intro i xs ys n p hn hlist hp
    exact changes_insertBefore hs hn hlist hp
  · intro i n expireTick fuel hn hfuel
    exact changes_walk (r := fun a b => expireTick a < expireTick b) hs hn hfuel
  · intro i n priority fuel hn hfuel
    exact changes_walk (r := fun a b => priority a < priority b) hs hn hfuel

omit hs

/-- Two heads, one of which has two nodes. -/
theorem Represents.listHead_two :
    let s : Links ℕ :=
      ⟨fun a => if a < 3 then (a + 2) % 3 else a, fun a => if a < 3 then (a + 1) % 3 else a⟩
    let head : Bool → ℕ := fun b => if b then 0 else 8
    let lists : Bool → List ℕ := fun b => if b then [1, 2] else []
    Changes s (s.listAdd 5 0) head lists true [5, 1, 2] 5 ∧
      Changes s (s.listDel 2) head lists true [1] 2 := by
  intro s head lists
  have hs : s.Represents head lists := by
    constructor
    · intro i
      cases i
      · exact ⟨path_nil.mpr ⟨rfl, rfl⟩, List.nodup_singleton 8⟩
      · exact ⟨by simp [s, lists, head, Adj], by simp [head, lists]⟩
    · intro i j hij
      cases i <;> cases j <;> simp_all [head, lists]
  obtain ⟨hadd, hdel, -⟩ := Represents.listHead hs
  refine ⟨(hadd true 5 ?_).1, (hdel true [1] 2 [] rfl).1⟩
  intro i
  cases i <;> simp [head, lists]

/-! ## The queues of the timers and of the tasks -/

/-- **The queue of `timer.c`** is the list of the entries that the nodes of `g_timer_queue` belong
to, also after `add_timer_ticks`. -/
theorem Represents.addTimerTicksLink_refines {β : Type*} (hs : s.Represents head lists)
    (hn : Unlinked head lists n) {entry : α → Sched.TimerEntry β} {q : Sched.TimerState β}
    {now ticks : BitVec 64} {cb : β} (hq : (lists i).map entry = q.gTimerQueue)
    (hentry : entry n = ⟨now + ticks, now, cb⟩) {fuel : ℕ} (hfuel : (lists i).length < fuel) :
    ∃ t xs, s.addTimerTicksLink (fun a => (entry a).expireTick) (head i) n fuel = some t ∧
      Changes s t head lists i xs n ∧
      xs.map entry = (q.addTimerTicks now ticks cb).gTimerQueue := by
  obtain ⟨t, ht, hc⟩ := changes_walk
    (r := fun a b => (entry a).expireTick < (entry b).expireTick) hs hn hfuel
  refine ⟨t, _, ht, hc, ?_⟩
  calc ((lists i).orderedInsert
      (fun a b => (entry a).expireTick < (entry b).expireTick) n).map entry
      = ((lists i).map entry).orderedInsert Sched.TimerEntry.Before (entry n) :=
        List.map_orderedInsert _ _ _ _ _ (fun _ _ => Iff.rfl) fun _ _ => Iff.rfl
    _ = (q.addTimerTicks now ticks cb).gTimerQueue := by rw [hq, hentry]; rfl

/-- **The queue of `task.c`** is the list of the entries that the nodes of `g_task_queue` belong
to, also after `add_task`. -/
theorem Represents.addTaskLink_refines {β : Type*} (hs : s.Represents head lists)
    (hn : Unlinked head lists n) {entry : α → Sched.Task β} {q : Sched.Dispatcher β}
    {cb : β} {priority : ℤ} (hq : (lists i).map entry = q.gTaskQueue)
    (hentry : entry n = ⟨cb, priority, q.added⟩) {fuel : ℕ} (hfuel : (lists i).length < fuel) :
    ∃ t xs, s.addTaskLink (fun a => (entry a).priority) (head i) n fuel = some t ∧
      Changes s t head lists i xs n ∧
      xs.map entry = (q.addTask cb priority true).gTaskQueue := by
  obtain ⟨t, ht, hc⟩ := changes_walk
    (r := fun a b => (entry a).priority < (entry b).priority) hs hn hfuel
  refine ⟨t, _, ht, hc, ?_⟩
  calc ((lists i).orderedInsert (fun a b => (entry a).priority < (entry b).priority) n).map entry
      = ((lists i).map entry).orderedInsert Sched.Task.Precedes (entry n) :=
        List.map_orderedInsert _ _ _ _ _ (fun _ _ => Iff.rfl) fun _ _ => Iff.rfl
    _ = (q.addTask cb priority true).gTaskQueue := by rw [hq, hentry]; rfl

end Represents
end Links
end OscKernel
