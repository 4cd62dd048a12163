import OscKernel.Trap.Entry

/-!
# The context switch (`switch.S`)

`switch_to` stores the return address, the stack pointer and the callee-saved registers in the
context of one thread, loads them from that of another, and makes `tp` point to it.

* `switchTo`: the instructions.
* `switchTo_stores`, `switchTo_loads`, `switchTo_others`: what they do.
* `Holds`, `writeSlots`: doublewords at offsets from an address, to state what a record contains.

The context has fourteen doublewords: `ra`, `sp` and the twelve registers that a callee has to save.
All other registers are the caller's, who has called a function; and so is `sstatus`, which is not
touched here at all.
-/

namespace OscKernel
namespace Trap

open Rv64

/-! ## Records in memory -/

/-- The record at `p` has these doublewords, each at its offset. -/
def Holds (m : Word → Word) (p : Word) (l : List (ℕ × Word)) : Prop :=
  ∀ s ∈ l, m (slotAddr p s.1) = s.2

/-- Write doublewords into the record at `p`. -/
def writeSlots (m : Word → Word) (p : Word) (l : List (ℕ × Word)) : Word → Word :=
  l.foldl (fun m s => Function.update m (slotAddr p s.1) s.2) m

section Records

variable {m m' : Word → Word} {p : Word} {l : List (ℕ × Word)}

theorem Holds.congr (h : Holds m p l)
    (heq : ∀ s ∈ l, m' (slotAddr p s.1) = m (slotAddr p s.1)) : Holds m' p l :=
  fun s hs => (heq s hs).trans (h s hs)

theorem writeSlots_of_notMem {a : Word} (h : ∀ s ∈ l, a ≠ slotAddr p s.1) :
    writeSlots m p l a = m a := by
  induction l generalizing m with
  | nil => rfl
  | cons s l ih =>
    have htail := ih (m := Function.update m (slotAddr p s.1) s.2) fun t ht =>
      h t (List.mem_cons_of_mem _ ht)
    exact htail.trans (Function.update_of_ne (h s List.mem_cons_self) _ _)

/-- What was written is there. -/
theorem holds_writeSlots (hoff : ∀ s ∈ l, s.1 < 2 ^ 64) (hnodup : (l.map Prod.fst).Nodup) :
    Holds (writeSlots m p l) p l := by
  induction l generalizing m with
  | nil => exact fun s hs => absurd hs List.not_mem_nil
  | cons t l ih =>
    rw [List.map_cons, List.nodup_cons] at hnodup
    intro s hs
    rcases List.mem_cons.mp hs with rfl | hs
    · have hne : ∀ u ∈ l, slotAddr p s.1 ≠ slotAddr p u.1 := fun u hu heq => by
        have hsame := slotAddr_inj (hoff s List.mem_cons_self)
          (hoff u (List.mem_cons_of_mem _ hu)) heq
        exact hnodup.1 (hsame ▸ List.mem_map_of_mem hu)
      exact (writeSlots_of_notMem hne).trans (Function.update_self ..)
    · exact ih (fun u hu => hoff u (List.mem_cons_of_mem _ hu)) hnodup.2 s hs

end Records

/-! ## `switch_to` -/

/-- The return address. -/
abbrev ra : Reg := 1
/-- The second argument. -/
abbrev a1 : Reg := 11

/-- The fields of `struct thread_ctx`, from `ra` and `sp` to `s11`. -/
def ctxSlots : List (Reg × ℕ) :=
  [(1, 0), (2, 8), (8, 16), (9, 24), (18, 32), (19, 40), (20, 48), (21, 56), (22, 64), (23, 72),
    (24, 80), (25, 88), (26, 96), (27, 104)]

/-- `sizeof(struct thread_ctx)`. -/
def ctxSize : ℕ := 112

/-- `switch_to(prev, next)` up to `ret`. -/
def switchTo : List Instr := storeAll a0 ctxSlots ++ loadAll a1 ctxSlots ++ [.mv tp a1]

/-- What a `struct thread_ctx` has when it keeps the registers `x`. -/
def ctxOf (x : Reg → Word) : List (ℕ × Word) := ctxSlots.map fun s => (s.2, x s.1)

theorem ctxSlots_regs : (ctxSlots.map Prod.fst).Nodup ∧ a1 ∉ ctxSlots.map Prod.fst ∧
    tp ∉ ctxSlots.map Prod.fst ∧ ∀ s ∈ ctxSlots, s.1 ≠ 0 := by decide

theorem ctxSlots_offs : (ctxSlots.map Prod.snd).Nodup ∧ ∀ s ∈ ctxSlots, s.2 < ctxSize := by decide

theorem mem_ctxOf {x : Reg → Word} {e : ℕ × Word} :
    e ∈ ctxOf x ↔ ∃ s ∈ ctxSlots, (s.2, x s.1) = e := List.mem_map

theorem ctxOf_lt {x : Reg → Word} : ∀ e ∈ ctxOf x, e.1 < ctxSize := fun e he => by
  obtain ⟨s, hs, rfl⟩ := mem_ctxOf.mp he
  exact ctxSlots_offs.2 s hs

theorem ctxOf_nodup {x : Reg → Word} : ((ctxOf x).map Prod.fst).Nodup := by
  unfold ctxOf
  rw [List.map_map]
  exact ctxSlots_offs.1

section SwitchTo

variable (c : Cpu)

theorem execAll_switchTo : execAll c switchTo =
    exec (execAll (execAll c (storeAll a0 ctxSlots)) (loadAll a1 ctxSlots)) (.mv tp a1) := by
  rw [switchTo, execAll_append, execAll_append]
  rfl

/-- The context of `prev` keeps the registers, and the rest of the memory is as it was. -/
theorem switchTo_stores :
    Holds (execAll c switchTo).mem (c.get a0) (ctxOf c.get) ∧
      ∀ a, (∀ s ∈ ctxSlots, a ≠ slotAddr (c.get a0) s.2) →
        (execAll c switchTo).mem a = c.mem a := by
  have hmem : (execAll c switchTo).mem = (execAll c (storeAll a0 ctxSlots)).mem := by
    rw [execAll_switchTo, exec, Cpu.mem_set, mem_execAll_load]
  rw [hmem]
  refine ⟨fun e he => ?_, fun a ha => mem_execAll_store_of_notMem ha⟩
  obtain ⟨s, hs, rfl⟩ := mem_ctxOf.mp he
  exact execAll_store (fun s hs => (ctxSlots_offs.2 s hs).trans (by decide)) ctxSlots_offs.1 hs

/-- The registers are those that the context of `next` keeps. -/
theorem switchTo_loads {kept : Reg → Word}
    (hnext : Holds (execAll c (storeAll a0 ctxSlots)).mem (c.get a1) (ctxOf kept)) :
    ∀ s ∈ ctxSlots, (execAll c switchTo).get s.1 = kept s.1 := by
  intro s hs
  have hne : s.1 ≠ tp := fun heq => ctxSlots_regs.2.2.1 (heq ▸ List.mem_map_of_mem hs)
  have hload := execAll_load (c := execAll c (storeAll a0 ctxSlots)) ctxSlots_regs.2.1
    ctxSlots_regs.1 hs (ctxSlots_regs.2.2.2 s hs)
  rw [execAll_switchTo, exec, Cpu.get_set_of_ne _ _ _ _ hne, hload, get_execAll_store]
  exact hnext _ (mem_ctxOf.mpr ⟨s, hs, rfl⟩)

/-- `tp` points to `next`, and nothing else changes. -/
theorem switchTo_others :
    (execAll c switchTo).get tp = c.get a1 ∧
      (∀ r, r ∉ ctxSlots.map Prod.fst → r ≠ tp → (execAll c switchTo).get r = c.get r) ∧
      (execAll c switchTo).csr = c.csr := by
  rw [execAll_switchTo]
  refine ⟨?_, fun r hr hne => ?_, ?_⟩
  · rw [exec, Cpu.get_set_self _ _ _ (by decide), execAll_load_others ctxSlots_regs.2.1,
      get_execAll_store]
  · rw [exec, Cpu.get_set_of_ne _ _ _ _ hne, execAll_load_others hr, get_execAll_store]
  · rw [exec, Cpu.csr_set, csr_execAll_load, csr_execAll_store]

end SwitchTo

end Trap
end OscKernel
