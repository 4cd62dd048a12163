import OscKernel.Sched.Queues

/-!
# The process tree (`sched.c`, `syscall.c`, `shell.c`)

When the tree of processes stays whole.  `sys_exit` hands the children of a process over to
`g_bootstrap`, and no other end of a thread does; the children stay behind when the thread is taken
off the list of its parent.

* `tree_of_reachable`: the tree stays whole while no thread is taken off that has a descendant which
  is alive.
* `orphan_of_stop`: a run in which one is.

## What the search needs

`find_thread_by_pid` searches the tree from `g_bootstrap` downwards, by recursion.  It ends when the
lists of children have no cycle, which holds because a child is always made after its parent, and
being handed over to `g_bootstrap` does not change that.  It finds every thread that is alive when
each of them is below `g_bootstrap`, and what else it finds are zombies on the lists of their
parents, as nobody else is on a list.

A stopped process stays in the tree as a zombie until it is collected, and its children can be found
through it.  It is only when it is collected that they are lost; this is why the condition is on the
call that collects, and on what is below the thread at that moment (`Lone`).

## Numbers

A pid is the number of the thread in the order of creation, as long as `g_next_tid` has not come to
`INT_MAX`.  Then a pid means one thread.  Calls that make a thread at that number are excluded, as
are the calls that make a process in several steps.
-/

namespace OscKernel
namespace Sched

open Transition
open Forest (Reaches)

namespace Kernel

/-- A pid says which thread it belongs to. -/
structure Numbered (k : Kernel) : Prop where
  pid : ∀ t, k.Live t → (k.thread t).pid = BitVec.ofNat 32 t
  next : k.gNextTid = BitVec.ofNat 32 k.count
  count_lt : k.count < 2 ^ 31

/-- The tree of processes is whole. -/
structure Tree (k : Kernel) : Prop extends Numbered k where
  reaches : ∀ t, k.Live t → k.state t ≠ .zombie → Reaches k.children gBootstrap t
  child : ∀ p, ∀ c ∈ k.children p, p < c ∧ c < k.count

/-- Everything below `t` is a zombie. -/
def Lone (k : Kernel) (t : Tid) : Prop :=
  ∀ u, Reaches k.children t u → u ≠ t → k.state u = .zombie

variable {k k' k'' : Kernel} {bare : List Tid} {t u c p : Tid}

/-! ## The same tree -/

/-- The same threads in the same tree, except that some may have been freed. -/
structure SameTree (k k' : Kernel) : Prop where
  count : k'.count = k.count
  next : k'.gNextTid = k.gNextTid
  children : ∀ u, k'.children u = k.children u
  pid : ∀ u, (k'.thread u).pid = (k.thread u).pid
  live : ∀ u, k'.Live u → k.Live u

theorem SameTree.refl (k : Kernel) : SameTree k k :=
  ⟨rfl, rfl, fun _ => rfl, fun _ => rfl, fun _ => id⟩

theorem SameTree.trans (h : SameTree k k') (h' : SameTree k' k'') : SameTree k k'' where
  count := h'.count.trans h.count
  next := h'.next.trans h.next
  children u := (h'.children u).trans (h.children u)
  pid u := (h'.pid u).trans (h.pid u)
  live u hu := h.live u (h'.live u hu)

theorem sameTree_modify {f : Thread → Thread}
    (hf : ∀ x, (f x).children = x.children ∧ (f x).pid = x.pid) : SameTree k (k.modify t f) where
  count := rfl
  next := rfl
  children _ := children_modify fun x => (hf x).1
  pid _ := pid_modify fun x => (hf x).2
  live _ := id

theorem sameTree_setState (s : ThreadState) : SameTree k (k.setState t s) :=
  sameTree_modify fun _ => ⟨rfl, rfl⟩

/-- The tree does not depend on the run queue, the zombies, the current thread and the stacks. -/
theorem SameTree.congr (h : SameTree k k') (hthread : k''.thread = k'.thread)
    (hcount : k''.count = k'.count) (hnext : k''.gNextTid = k'.gNextTid)
    (hfreed : ∀ u, u ∉ k''.freed → u ∉ k'.freed) : SameTree k k'' where
  count := hcount.trans h.count
  next := hnext.trans h.next
  children u := by unfold Kernel.children; rw [hthread]; exact h.children u
  pid u := by rw [hthread]; exact h.pid u
  live u hu := h.live u ⟨hcount ▸ hu.1, hfreed u hu.2⟩

theorem sameTree_threadWakeup : SameTree k (k.threadWakeup t) := by
  unfold threadWakeup
  split_ifs
  · exact (sameTree_setState (t := t) .ready).congr rfl rfl rfl fun _ => id
  · exact .refl k

theorem sameTree_wakeupParent : SameTree k (k.wakeupParent t) := by
  unfold wakeupParent
  cases k.parent t with
  | none => exact .refl k
  | some par => exact sameTree_threadWakeup

theorem sameTree_terminateThread : SameTree k (k.terminateThread t) := by
  refine SameTree.trans ?_ sameTree_wakeupParent
  rw [terminate_eq]
  exact (sameTree_modify (t := t) (f := fun x =>
    { x with exitStatus := -1, state := .zombie, image := false }) fun _ => ⟨rfl, rfl⟩).congr
    rfl rfl rfl fun _ => id

theorem Sound.sameTree_reschedule (h : k.Sound bare) : SameTree k k.reschedule := by
  obtain ⟨-, -, next, rest, hq⟩ := h.park
  rw [reschedule_eq rfl hq]
  split_ifs
  · have hready : SameTree k ((k.setState k.current .ready).enqueue k.current) :=
      (sameTree_setState (t := k.current) .ready).congr rfl rfl rfl fun _ => id
    exact (hready.trans (sameTree_setState (t := next) .running)).congr rfl rfl rfl fun _ => id
  · exact (sameTree_setState (t := next) .running).congr rfl rfl rfl fun _ => id

/-- `schedule` does not bring a zombie back. -/
theorem Sound.state_reschedule (h : k.Sound bare) (ht : k.state t = .zombie) :
    k.reschedule.state t = .zombie := by
  obtain ⟨hqueues, -, next, rest, hq⟩ := h.park
  have hready := ((hqueues.mem_runq next).mp (hq ▸ List.mem_cons_self)).2.1
  rw [reschedule_eq rfl hq]
  show (Kernel.setState _ next .running).state t = _
  have hparked : (if k.state k.current = .running then
      (k.setState k.current .ready).enqueue k.current else k).state t = .zombie := by
    split_ifs with hrun
    · have hne : t ≠ k.current := by
        rintro rfl
        rw [ht] at hrun
        cases hrun
      show (k.setState k.current .ready).state t = _
      rw [state_setState, if_neg hne]
      exact ht
    · exact ht
  have hne : t ≠ next := by
    rintro rfl
    rw [hready] at hparked
    cases hparked
  rw [state_setState, if_neg hne]
  exact hparked

theorem Numbered.same (h : k.Numbered) (hsame : SameTree k k') : k'.Numbered where
  pid t ht := (hsame.pid t).trans (h.pid t (hsame.live t ht))
  next := by rw [hsame.next, hsame.count]; exact h.next
  count_lt := hsame.count ▸ h.count_lt

/-! ## The operations -/

/-- Nobody comes back from the dead, and the tree stays the same. -/
theorem Tree.same (h : k.Tree) (hsame : SameTree k k')
    (hzombie : ∀ t, k.state t = .zombie → k'.state t = .zombie) : k'.Tree where
  toNumbered := h.toNumbered.same hsame
  reaches t ht hs :=
    (h.reaches t (hsame.live t ht) fun hz => hs (hzombie t hz)).mono fun p c hc => by
      rw [hsame.children]
      exact hc
  child p c hc := by
    rw [hsame.count]
    exact h.child p c (hsame.children p ▸ hc)

theorem Tree.reschedule (h : k.Tree) (hsound : k.Sound bare) : k.reschedule.Tree :=
  h.same hsound.sameTree_reschedule fun _ => hsound.state_reschedule

theorem Tree.threadWakeup (h : k.Tree) : (k.threadWakeup t).Tree := by
  refine h.same sameTree_threadWakeup fun u hu => ?_
  rw [state_threadWakeup_of_ne (by rw [hu]; decide)]
  exact hu

theorem Tree.wakeupParent (h : k.Tree) : (k.wakeupParent t).Tree := by
  unfold Kernel.wakeupParent
  cases k.parent t with
  | none => exact h
  | some par => exact h.threadWakeup

theorem Tree.terminateThread (h : k.Tree) : (k.terminateThread t).Tree := by
  refine h.same sameTree_terminateThread fun u hu => ?_
  have hz : (k.terminate t).state u = .zombie := by
    rw [state_terminate]
    split_ifs
    · rfl
    · exact hu
  unfold Kernel.terminateThread
  rw [state_wakeupParent_of_ne (by rw [hz]; decide)]
  exact hz

theorem Tree.threadBlock (h : k.Tree) (hcurrent : k.state k.current ≠ .zombie) :
    k.threadBlock.Tree := by
  refine h.same (sameTree_setState .blocked) fun u hu => ?_
  unfold Kernel.threadBlock
  rw [state_setState, if_neg]
  · exact hu
  · rintro rfl
    exact hcurrent hu

theorem Tree.killZombie (h : k.Tree) (hk : k.killZombie = some k') : k'.Tree := by
  obtain ⟨z, zs, -, rfl⟩ := killZombie_eq_some hk
  refine h.same ((SameTree.refl k).congr rfl rfl rfl fun u hu => ?_) fun _ => id
  dsimp only at hu
  split_ifs at hu
  · exact hu
  · exact fun hm => hu (List.mem_cons_of_mem _ hm)

/-- **A thread is taken off the list of its parent** that has nobody alive below it. -/
theorem Tree.listDelSibling (h : k.Tree) (hlone : k.Lone c) (hcount : k'.count = k.count)
    (hnext : k'.gNextTid = k.gNextTid) (hlive : ∀ u, k'.Live u → k.Live u)
    (hchildren : ∀ u, k'.children u = (k.children u).erase c)
    (hpid : ∀ u, (k'.thread u).pid = (k.thread u).pid)
    (hstate : ∀ u, k.state u = .zombie ∨ u = c → k'.state u = .zombie) : k'.Tree where
  reaches t ht hs := by
    have hz : k.state t ≠ .zombie := fun hz => hs (hstate t (Or.inl hz))
    have htc : t ≠ c := fun htc => hs (hstate t (Or.inr htc))
    refine (h.reaches t (hlive t ht) hz).erase (c := c) (fun hct => hz (hlone t hct htc)) ?_
    intro p x hx hxc
    rw [hchildren]
    exact (List.mem_erase_of_ne hxc).mpr hx
  child p x hx := by
    rw [hchildren] at hx
    rw [hcount]
    exact h.child p x (List.mem_of_mem_erase hx)
  pid t ht := (hpid t).trans (h.pid t (hlive t ht))
  next := by rw [hnext, hcount]; exact h.next
  count_lt := hcount ▸ h.count_lt

theorem Tree.collect (h : k.Tree) (hlone : k.Lone c) (hz : k.state c = .zombie) :
    (k.collect c).Tree := by
  refine h.listDelSibling hlone rfl rfl (fun _ => id) (fun _ => rfl) (fun _ => rfl) ?_
  rintro u (hu | rfl)
  · exact hu
  · exact hz

theorem Tree.threadExit (h : k.Tree) (hlone : k.Lone k.current) : k.threadExit.Tree := by
  have hsame := sameTree_setState (k := k) (t := k.current) .zombie
  refine h.listDelSibling hlone rfl rfl (fun _ => id) (fun u => ?_) (fun u => ?_) fun u hu => ?_
  · exact congrArg (fun l => l.erase k.current) (hsame.children u)
  · exact hsame.pid u
  · show (k.setState k.current .zombie).state u = _
    rw [state_setState]
    split_ifs with huc
    · rfl
    · exact hu.resolve_right huc

/-- **A child is handed over to `g_bootstrap`.** -/
theorem Tree.reparent (h : k.Tree) (hc : gBootstrap < c ∧ c < k.count) : (k.reparent c).Tree where
  reaches t ht hs := by
    rw [state_reparent] at hs
    refine (h.reaches t ht hs).handOver (Reaches.refl gBootstrap) fun p x hx => ?_
    rw [children_reparent, children_reparent, if_pos rfl]
    by_cases hxc : x = c
    · exact Or.inr (List.mem_append_right _ (hxc ▸ List.mem_singleton_self _))
    · left
      have hx' := (List.mem_erase_of_ne hxc).mpr hx
      split_ifs with hp
      · exact List.mem_append_left _ (hp ▸ hx')
      · exact hx'
  child p x hx := by
    rw [children_reparent] at hx
    split_ifs at hx with hp
    · rcases List.mem_append.mp hx with hx | hx
      · exact hp ▸ h.child _ x (List.mem_of_mem_erase hx)
      · rw [List.mem_singleton.mp hx, hp]
        exact hc
    · exact h.child p x (List.mem_of_mem_erase hx)
  pid t ht := by
    refine Eq.trans ?_ (h.pid t ht)
    unfold Kernel.reparent addChild
    rw [pid_modify (by intro; rfl), pid_modify (by intro; rfl)]
    rfl
  next := h.next
  count_lt := h.count_lt

theorem Tree.reparentAll (h : k.Tree) {cs : List Tid}
    (hcs : ∀ c ∈ cs, gBootstrap < c ∧ c < k.count) : (cs.foldl Kernel.reparent k).Tree := by
  induction cs generalizing k with
  | nil => exact h
  | cons c cs ih =>
    exact ih (h.reparent (hcs c List.mem_cons_self)) fun x hx =>
      hcs x (List.mem_cons_of_mem _ hx)

/-- **`sys_exit`.** -/
theorem Tree.exitCurrent (h : k.Tree) (status : BitVec 64) : (k.exitCurrent status).Tree := by
  have h₁ : (k.modify k.current fun x => { x with exitStatus := status.setWidth 32 }).Tree :=
    h.same (sameTree_modify fun _ => ⟨rfl, rfl⟩) fun t ht =>
      (state_modify (by intro; rfl)).trans ht
  have h₂ : (k.exiting status).Tree := h₁.reparentAll fun c hc =>
    ⟨Nat.zero_lt_of_lt (h₁.child _ c hc).1, (h₁.child _ c hc).2⟩
  refine Tree.wakeupParent ?_
  rw [sysExit_eq]
  refine h₂.same (sameTree_modify fun _ => ⟨rfl, rfl⟩) fun t ht => ?_
  unfold Kernel.state
  rw [thread_modify]
  split_ifs
  · rfl
  · exact ht

/-! ## New threads -/

/-- `INT_MAX`. -/
def intMax : BitVec 32 := 0x7FFFFFFF

/-- Where the next thread has a number. -/
theorem Numbered.count_succ_lt (h : k.Numbered) (hnext : k.gNextTid ≠ intMax) :
    k.count + 1 < 2 ^ 31 := by
  have hlt := h.count_lt
  rcases Nat.lt_or_ge (k.count + 1) (2 ^ 31) with hc | hc
  · exact hc
  · refine absurd ?_ hnext
    have heq : k.count = 2 ^ 31 - 1 := by omega
    rw [h.next, heq]
    rfl

theorem Numbered.next_succ (h : k.Numbered) : k.gNextTid + 1 = BitVec.ofNat 32 (k.count + 1) := by
  rw [h.next, BitVec.ofNat_add]
  rfl

/-- Nobody is the child of a thread that does not exist yet. -/
theorem Tree.children_count (h : k.Tree) : k.children k.count = [] := by
  refine List.eq_nil_iff_forall_not_mem.mpr fun c hc => ?_
  obtain ⟨hlt, hcount⟩ := h.child _ c hc
  exact Nat.lt_asymm hlt hcount

theorem children_created (image : Bool) (f : Frame) (hcount : k.children k.count = []) :
    ((k.threadAllocBare.modify k.count fun x => { x with image := image }).linkThread k.count
      k.current f).children u =
      if u = k.current then k.children u ++ [k.count] else k.children u := by
  have hold : ∀ v, (k.threadAllocBare.modify k.count fun x =>
      { x with image := image }).children v = k.children v := fun v => by
    rw [children_modify (by intro; rfl)]
    by_cases hv : v = k.count
    · rw [hv, hcount]
      show (k.threadAllocBare.thread k.count).children = []
      rw [show k.threadAllocBare.thread k.count = _ from Function.update_self ..]
    · exact congrArg Thread.children (thread_threadAllocBare_of_ne hv)
  refine (children_addChild (k := k.threadAllocBare.modify k.count fun x =>
    { x with image := image }) (p := k.current) (c := k.count)).trans ?_
  rw [hold, hold]
  split_ifs with hu
  · rw [hu]
  · rfl

theorem pid_created (image : Bool) (f : Frame) :
    (((k.threadAllocBare.modify k.count fun x => { x with image := image }).linkThread k.count
      k.current f).thread u).pid = if u = k.count then k.gNextTid else (k.thread u).pid := by
  have hlink := pid_modify (k := k.threadAllocBare.modify k.count fun x =>
    { x with image := image }) (t := k.current) (u := u)
    (f := fun x => { x with children := x.children ++ [k.count] }) fun _ => rfl
  refine hlink.trans ?_
  rw [pid_modify (by intro; rfl)]
  split_ifs with hu
  · rw [hu, show k.threadAllocBare.thread k.count = _ from Function.update_self ..]
  · rw [thread_threadAllocBare_of_ne hu]

theorem Numbered.created (h : k.Numbered) (hsound : k.Sound bare) (hnext : k.gNextTid ≠ intMax)
    (image : Bool) (f : Frame) :
    ((k.threadAllocBare.modify k.count fun x => { x with image := image }).linkThread k.count
      k.current f).Numbered where
  pid t ht := by
    rw [pid_created]
    split_ifs with htc
    · rw [htc]
      exact h.next
    · exact h.pid t (((live_threadAllocBare hsound).mp ht).resolve_right htc)
  next := h.next_succ
  count_lt := h.count_succ_lt hnext

/-- When there is no memory for an image, nobody is added. -/
theorem live_createFailed (ht : Live { k with
    count := k.count + 1, gNextTid := k.gNextTid + 1, freed := k.count :: k.freed } t) :
    k.Live t := by
  have hne := not_or.mp (List.mem_cons.not.mp ht.2)
  exact ⟨Nat.lt_of_le_of_ne (Nat.le_of_lt_succ ht.1) hne.1, hne.2⟩

theorem Numbered.createFailed (h : k.Numbered) (hnext : k.gNextTid ≠ intMax) : Numbered { k with
    count := k.count + 1, gNextTid := k.gNextTid + 1, freed := k.count :: k.freed } :=
  ⟨fun t ht => h.pid t (live_createFailed ht), h.next_succ, h.count_succ_lt hnext⟩

/-- **A new thread** is a child of the current one. -/
theorem Tree.created (h : k.Tree) (hrun : k.Running bare) (hnext : k.gNextTid ≠ intMax)
    (image : Bool) (f : Frame) :
    ((k.threadAllocBare.modify k.count fun x => { x with image := image }).linkThread k.count
      k.current f).Tree where
  toNumbered := h.toNumbered.created hrun.toSound hnext image f
  reaches t ht hs := by
    have hmono : ∀ {v}, Reaches k.children gBootstrap v → Reaches (Kernel.children
        ((k.threadAllocBare.modify k.count fun x => { x with image := image }).linkThread k.count
          k.current f)) gBootstrap v := fun hv => hv.mono fun p c hc => by
      rw [children_created image f h.children_count]
      split_ifs
      · exact List.mem_append_left _ hc
      · exact hc
    rcases (live_threadAllocBare hrun.toSound).mp ht with ht | rfl
    · rw [state_created ht.ne_count] at hs
      exact hmono (h.reaches t ht hs)
    · have hcurrent : k.state k.current ≠ .zombie := by
        rw [hrun.current_running]
        decide
      refine (hmono (h.reaches _ hrun.current_live hcurrent)).child ?_
      rw [children_created image f h.children_count, if_pos rfl]
      exact List.mem_append_right _ (List.mem_singleton_self _)
  child p c hc := by
    rw [children_created image f h.children_count] at hc
    show p < c ∧ c < k.count + 1
    have hold : c ∈ k.children p → p < c ∧ c < k.count + 1 := fun hc =>
      ⟨(h.child p c hc).1, Nat.lt_succ_of_lt (h.child p c hc).2⟩
    split_ifs at hc with hp
    · rcases List.mem_append.mp hc with hc | hc
      · exact hold hc
      · rw [List.mem_singleton.mp hc, hp]
        exact ⟨hrun.current_live.1, Nat.lt_succ_self _⟩
    · exact hold hc

theorem Tree.threadCreate (h : k.Tree) (hrun : k.Running bare) (hnext : k.gNextTid ≠ intMax)
    (ok : Bool) : (k.threadCreate ok).Tree := by
  cases ok with
  | false => exact h
  | true => exact threadCreate_true ▸ h.created hrun hnext false .kernelThread

theorem Tree.newUserThread (h : k.Tree) (hrun : k.Running bare) (hnext : k.gNextTid ≠ intMax)
    (ok okImage : Bool) : (k.newUserThread ok okImage).1.Tree := by
  unfold Kernel.newUserThread
  cases ok with
  | false => exact h
  | true =>
    cases okImage with
    | true => exact h.created hrun hnext true .user
    | false =>
      exact ⟨h.toNumbered.createFailed hnext, fun t ht hs => h.reaches t (live_createFailed ht) hs,
        fun p c hc => ⟨(h.child p c hc).1, Nat.lt_succ_of_lt (h.child p c hc).2⟩⟩

/-! ## Finding a thread -/

/-- **`dfs_find_pid` ends.** -/
theorem Tree.dfsFindPid_ne_none (h : k.Tree) (pid : BitVec 32) :
    k.dfsFindPid pid (k.count + 1) gBootstrap ≠ none := by
  refine Forest.search_ne_none (fun t => k.count - t) (fun p c hc => ?_) (Nat.lt_succ_of_le
    (Nat.sub_le ..))
  obtain ⟨hlt, hcount⟩ := h.child p c hc
  exact Nat.sub_lt_sub_left (Nat.lt_trans hlt hcount) hlt

theorem Numbered.pid_inj (h : k.Numbered) (ht : k.Live t) (hu : k.Live u)
    (heq : (k.thread t).pid = (k.thread u).pid) : t = u := by
  rw [h.pid t ht, h.pid u hu] at heq
  have hsmall : ∀ v, k.Live v → v < 2 ^ 32 := fun v hv =>
    Nat.lt_trans (Nat.lt_trans hv.1 h.count_lt) (by decide)
  have hmod := congrArg BitVec.toNat heq
  rw [BitVec.toNat_ofNat, BitVec.toNat_ofNat, Nat.mod_eq_of_lt (hsmall t ht),
    Nat.mod_eq_of_lt (hsmall u hu)] at hmod
  exact hmod

/-- **`find_thread_by_pid`** finds a thread of the tree by its pid. -/
theorem Tree.findThreadByPid_iff (h : k.Tree) (hsound : k.Sound bare) {pid : BitVec 32} :
    k.findThreadByPid pid = some t ↔
      Reaches k.children gBootstrap t ∧ (k.thread t).pid = pid := by
  constructor
  · intro hfind
    obtain ⟨hpid, hreach⟩ := Forest.search_some (Option.join_eq_some_iff.mp hfind)
    exact ⟨hreach, of_decide_eq_true hpid⟩
  · rintro ⟨hreach, hpid⟩
    refine Option.join_eq_some_iff.mpr ?_
    cases hsearch : k.dfsFindPid pid (k.count + 1) gBootstrap with
    | none => exact absurd hsearch (h.dfsFindPid_ne_none pid)
    | some r =>
      cases r with
      | none =>
        have hmiss := Forest.search_none hsearch hreach
        exact absurd hpid (of_decide_eq_false hmiss)
      | some r =>
        obtain ⟨hr, hreach'⟩ := Forest.search_some hsearch
        have heq := h.pid_inj (hsound.live_of_reaches hreach') (hsound.live_of_reaches hreach)
          ((of_decide_eq_true hr).trans hpid.symm)
        rw [heq]

end Kernel

/-! ## Runs -/

namespace Api

variable {s s' : Api} {c : Call} {t : Tid}

/-- The calls that keep the tree whole: a thread that is taken off the list of its parent has nobody
alive below it, and `g_next_tid` does not overflow.  A new process is made in one call. -/
def KeepsTree (s : Api) : Call → Prop
  | .threadAllocBare _ | .threadEnqueueReady _ _ _ | .discard _ => False
  | .threadCreate _ | .newUserThread _ _ => s.k.gNextTid ≠ Kernel.intMax
  | .threadExit => s.k.Lone s.k.current
  | .schedZombify t => s.k.Lone t
  | _ => True

theorem tree_stopTarget {pid : BitVec 32} {r : Api × Bool} (htree : s.k.Tree)
    (hr : s.stopTarget pid = some r) : r.1.k.Tree := by
  unfold stopTarget at hr
  cases ht : s.k.stopTarget pid with
  | none =>
    rw [ht] at hr
    exact Option.some.inj hr ▸ htree
  | some t =>
    rw [ht] at hr
    dsimp only at hr
    split_ifs at hr
    exact Option.some.inj hr ▸ htree.terminateThread

/-- **Every call that keeps the tree whole**, up to its `schedule`. -/
theorem tree_call {r : Api × Bool} (hrun : s.k.Running s.bare) (htree : s.k.Tree)
    (hG : s.KeepsTree c) (hr : s.call c = some r) : r.1.k.Tree := by
  cases c with
  | threadAllocBare ok => exact hG.elim
  | threadEnqueueReady t image link => exact hG.elim
  | discard t => exact hG.elim
  | threadCreate ok => exact Option.some.inj hr ▸ htree.threadCreate hrun hG ok
  | newUserThread ok okImage => exact Option.some.inj hr ▸ htree.newUserThread hrun hG ok okImage
  | schedule => exact Option.some.inj hr ▸ htree
  | threadBlock =>
    rw [call] at hr
    split_ifs at hr
    refine Option.some.inj hr ▸ htree.threadBlock ?_
    rw [hrun.current_running]
    decide
  | threadWakeup t =>
    rw [call] at hr
    split_ifs at hr
    exact Option.some.inj hr ▸ htree.threadWakeup
  | threadExit =>
    rw [call] at hr
    split_ifs at hr
    exact Option.some.inj hr ▸ htree.threadExit hG
  | sysExit status =>
    rw [call] at hr
    split_ifs at hr
    exact Option.some.inj hr ▸ htree.exitCurrent status
  | sysStop pid =>
    rw [call] at hr
    split_ifs at hr
    · exact Option.some.inj hr ▸ htree.exitCurrent (-1)
    · exact tree_stopTarget htree hr
  | shellStopPid pid =>
    rw [call] at hr
    split_ifs at hr
    exact tree_stopTarget htree hr
  | signalDefaultTerminate t =>
    rw [call] at hr
    split_ifs at hr
    · exact Option.some.inj hr ▸ htree.terminateThread
    · exact Option.some.inj hr ▸ htree.terminateThread
  | schedZombify t =>
    rw [call] at hr
    split_ifs at hr with ht
    exact Option.some.inj hr ▸ htree.collect hG ht.2.1
  | killZombies =>
    rw [call] at hr
    split_ifs at hr
    obtain rfl := Option.some.inj hr
    cases hk : s.k.killZombie with
    | none => exact htree
    | some k' => exact htree.killZombie hk

/-- **A step that keeps the tree whole.** -/
theorem tree_step (hrun : s.k.Running s.bare) (htree : s.k.Tree) (hG : s.KeepsTree c)
    (hs : s.step c = some s') : s'.k.Tree := by
  obtain ⟨⟨r, b⟩, hr, rfl⟩ := Option.map_eq_some_iff.mp hs
  have hr' := tree_call hrun htree hG hr
  cases b with
  | false => exact hr'
  | true => exact hr'.reschedule (sound_call hrun hr).1

theorem bare_step (hbare : s.bare = []) (hG : s.KeepsTree c) (hs : s.step c = some s') :
    s'.bare = [] := by
  have hdone : ∀ {k : Kernel} {r : Api × Bool}, s.done k = some r ∨ s.yield k = some r →
      (finish r).bare = [] := by
    rintro k r (hr | hr) <;> exact Option.some.inj hr ▸ hbare
  have hstop : ∀ {pid : BitVec 32} {r : Api × Bool}, s.stopTarget pid = some r →
      (finish r).bare = [] := by
    intro pid r hr
    unfold stopTarget at hr
    cases ht : s.k.stopTarget pid with
    | none =>
      rw [ht] at hr
      exact hdone (Or.inl hr)
    | some t =>
      rw [ht] at hr
      dsimp only at hr
      split_ifs at hr
      exact hdone (Or.inl hr)
  obtain ⟨r, hr, rfl⟩ := Option.map_eq_some_iff.mp hs
  cases c with
  | threadAllocBare ok => exact hG.elim
  | threadEnqueueReady t image link => exact hG.elim
  | discard t => exact hG.elim
  | threadCreate ok => exact hdone (Or.inl hr)
  | newUserThread ok okImage => exact hdone (Or.inl hr)
  | schedule => exact hdone (Or.inr hr)
  | sysStop pid =>
    rw [call] at hr
    split_ifs at hr
    · exact hdone (Or.inr hr)
    · exact hstop hr
  | shellStopPid pid =>
    rw [call] at hr
    split_ifs at hr
    exact hstop hr
  | signalDefaultTerminate t =>
    rw [call] at hr
    split_ifs at hr
    · exact hdone (Or.inr hr)
    · exact hdone (Or.inl hr)
  | threadBlock | threadWakeup t | threadExit | sysExit status | schedZombify t | killZombies =>
    rw [call] at hr
    split_ifs at hr
    first | exact hdone (Or.inl hr) | exact hdone (Or.inr hr)

theorem tree_boot (freq : BitVec 64) : (Kernel.boot freq).Tree := by
  have hidle : idle ∈ (Kernel.boot freq).children gBootstrap := List.mem_singleton_self _
  have hcases : ∀ t, t < 2 → t = gBootstrap ∨ t = idle := fun t ht => by
    match t with
    | 0 => exact Or.inl rfl
    | 1 => exact Or.inr rfl
  refine ⟨⟨fun t ht => ?_, rfl, show (2 : ℕ) < 2 ^ 31 by decide⟩, fun t ht _ => ?_,
    fun p c hc => ?_⟩
  · rcases hcases t ht.1 with rfl | rfl <;> rfl
  · rcases hcases t ht.1 with rfl | rfl
    · exact Reaches.refl _
    · exact (Reaches.refl _).child hidle
  · by_cases hp : p = gBootstrap
    · subst hp
      obtain rfl : c = idle := List.mem_singleton.mp hc
      exact ⟨Nat.one_pos, Nat.one_lt_two⟩
    · have hnil : (Kernel.boot freq).children p = [] := if_neg hp
      rw [hnil] at hc
      cases hc

/-- **The process tree**, after any run whose calls keep it whole.  A thread that is `READY`,
`RUNNING` or `BLOCKED` has a parent that has not been freed, is on its list once and on no other,
and is below `g_bootstrap`.  So the search for a pid ends; it finds each of these threads by its
pid, and it finds nothing else but terminated processes that nobody has collected. -/
theorem tree_of_reachable (freq : BitVec 64) (hs : Reachable step KeepsTree (boot freq) s) :
    (∀ t, s.k.Live t → s.k.state t ≠ .zombie → t ≠ gBootstrap →
      (∃ p, s.k.parent t = some p ∧ s.k.Live p ∧ (s.k.children p).count t = 1 ∧
        ∀ q, s.k.Live q → t ∈ s.k.children q → q = p) ∧
      Reaches s.k.children gBootstrap t) ∧
    (∀ pid, s.k.dfsFindPid pid (s.k.count + 1) gBootstrap ≠ none) ∧
    (∀ t, s.k.Live t → s.k.state t ≠ .zombie →
      s.k.findThreadByPid (s.k.thread t).pid = some t) ∧
    (∀ pid, (∀ z, Reaches s.k.children gBootstrap z → s.k.state z = .zombie →
      (s.k.thread z).pid ≠ pid) → ∀ t, s.k.findThreadByPid pid = some t ↔
        s.k.Live t ∧ s.k.state t ≠ .zombie ∧ (s.k.thread t).pid = pid) := by
  obtain ⟨hrun, htree, -⟩ := hs.invariant
    (P := fun s => s.k.Running s.bare ∧ s.k.Tree ∧ s.bare = [])
    ⟨Kernel.running_boot freq, tree_boot freq, rfl⟩
    fun r c r' ⟨hrun, htree, hbare⟩ hG hr =>
      ⟨running_step hrun hr, tree_step hrun htree hG hr, bare_step hbare hG hr⟩
  have hfind : ∀ pid t, s.k.findThreadByPid pid = some t ↔
      Reaches s.k.children gBootstrap t ∧ (s.k.thread t).pid = pid := fun _ _ =>
    htree.findThreadByPid_iff hrun.toSound
  refine ⟨fun t ht hz hboot => ?_, htree.dfsFindPid_ne_none, fun t ht hz => ?_,
    fun pid hpid t => ?_⟩
  · have hreach := htree.reaches t ht hz
    refine ⟨?_, hreach⟩
    obtain ⟨p, hp, hmem⟩ := hreach.eq_or_exists_parent.resolve_left hboot
    have hlive := hrun.live_of_reaches hp
    have hpar := (hrun.child p hlive t hmem).2.2.2
    refine ⟨p, hpar, hlive, List.count_eq_one_of_mem (hrun.children_nodup p hlive) hmem,
      fun q hq htq => ?_⟩
    exact Option.some.inj ((hrun.child q hq t htq).2.2.2.symm.trans hpar)
  · exact (hfind _ _).mpr ⟨htree.reaches t ht hz, rfl⟩
  · rw [hfind]
    constructor
    · rintro ⟨hreach, heq⟩
      exact ⟨hrun.live_of_reaches hreach, fun hz => hpid t hreach hz heq, heq⟩
    · rintro ⟨ht, hz, heq⟩
      exact ⟨htree.reaches t ht hz, heq⟩

/-- The shell runs the program 2, which forks 3. -/
def forkChild : List Call :=
  [.newUserThread true true, .threadBlock, .schedule, .newUserThread true true]

/-- The process 3 stops 2, the shell collects 2, and the idle thread frees it. -/
def stopParent : List Call :=
  [.schedule, .schedule, .sysStop 2, .schedule, .schedule, .schedZombify 2, .schedule, .schedule,
    .killZombies]

/-- **An orphan.**  The process 3 is `READY`, but its parent has been freed, and the search for its
pid finds nothing. -/
theorem orphan_of_stop : ∃ s, Reachable step anyStep (boot 320) s ∧ s.k.Live 3 ∧
    s.k.state 3 = .ready ∧ s.k.parent 3 = some 2 ∧ ¬ s.k.Live 2 ∧
      s.k.findThreadByPid (s.k.thread 3).pid = none := by
  have hrun : (runList step (boot 320) (forkChild ++ stopParent)).map (fun s =>
      (decide (s.k.Live 3), s.k.state 3, s.k.parent 3, decide (s.k.Live 2),
        s.k.findThreadByPid (s.k.thread 3).pid)) =
      some (true, .ready, some 2, false, none) := by decide +kernel
  obtain ⟨s, hs, hv⟩ := Option.map_eq_some_iff.mp hrun
  obtain ⟨h₁, h₂, h₃, h₄, h₅⟩ : _ ∧ _ ∧ _ ∧ _ ∧ _ := by
    simpa only [Prod.mk.injEq, decide_eq_true_eq, decide_eq_false_iff_not] using hv
  exact ⟨s, reachable_of_runList hs, h₁, h₂, h₃, h₄, h₅⟩

/-- When 2 exits instead, its child is handed over. -/
def exitParent : List Call := [.sysExit 0, .schedule]

/-- The calls of this run. -/
def exitCall (s : Api) : Call → Bool
  | .newUserThread _ _ => s.k.gNextTid != Kernel.intMax
  | .threadBlock | .schedule | .sysExit _ => true
  | _ => false

theorem tree_of_exitParent : ∃ s, Reachable step KeepsTree (boot 320) s ∧
    s.k.state 3 = .running ∧ Reaches s.k.children gBootstrap 3 ∧
      s.k.findThreadByPid (s.k.thread 3).pid = some 3 := by
  have hrun : (runList step (boot 320) (forkChild ++ exitParent)).map (fun s =>
      (decide (s.k.Live 3), s.k.state 3)) = some (true, .running) := by decide +kernel
  obtain ⟨s, hs, hv⟩ := Option.map_eq_some_iff.mp hrun
  obtain ⟨hlive, hstate⟩ : s.k.Live 3 ∧ s.k.state 3 = .running := by
    simpa only [Prod.mk.injEq, decide_eq_true_eq] using hv
  have hreach : Reachable step KeepsTree (boot 320) s := by
    refine (Reachable.of_runList (G := fun s c => s.exitCall c = true) hs
      (by decide +kernel)).mono fun r c hc => ?_
    cases c <;> first | trivial | exact bne_iff_ne.mp hc
  have hne : s.k.state 3 ≠ .zombie := by
    rw [hstate]
    decide
  obtain ⟨hwhole, -, hfind, -⟩ := tree_of_reachable 320 hreach
  exact ⟨s, hreach, hstate, (hwhole 3 hlive hne (by decide)).2, hfind 3 hlive hne⟩

end Api
end Sched
end OscKernel
