import Mathlib.Data.BitVec
import Mathlib.Logic.Function.Basic

/-!
# A fragment of RV64 with supervisor traps

Integer registers, the five supervisor registers that describe a trap, doubleword memory, the
instructions that trap code is written with, and what the hart itself does when it takes a trap and
when it executes `sret`.

* `execAll_store`, `execAll_load`: a list of stores below one base register, and a list of loads.
* `execAll_load_others`: loads leave every other register alone.
* `get_execAll_of_ne`, `mem_execAll_of_storesBelow`: what a list of instructions leaves alone.
* `Hart.takeTrap`, `Hart.sret`: what the hardware does, with `sstatus` bit by bit.
-/

namespace OscKernel
namespace Rv64

/-- A machine word. -/
abbrev Word := BitVec 64

/-- The integer registers `x0` to `x31`. -/
abbrev Reg := Fin 32

/-- So a numeral is a register. -/
instance instNeZeroReg : NeZero 32 := ⟨by decide⟩

/-- The supervisor registers. -/
inductive Csr where
  | sepc
  | sstatus
  | scause
  | stval
  | sscratch
  deriving DecidableEq

/-- The privilege levels below machine mode. -/
inductive Priv where
  | user
  | supervisor
  deriving DecidableEq

/-- Registers and memory.  The memory holds a doubleword at each address. -/
structure Cpu where
  x : Reg → Word
  csr : Csr → Word
  mem : Word → Word

/-- The instructions. -/
inductive Instr where
  | sd (rs : Reg) (off : ℕ) (base : Reg)
  | ld (rd : Reg) (off : ℕ) (base : Reg)
  | addi (rd rs : Reg) (imm : ℤ)
  | mv (rd rs : Reg)
  | csrr (rd : Reg) (csr : Csr)
  | csrw (csr : Csr) (rs : Reg)
  | csrrw (rd : Reg) (csr : Csr) (rs : Reg)

namespace Cpu

/-- Read a register; `x0` is zero. -/
def get (c : Cpu) (r : Reg) : Word := if r = 0 then 0 else c.x r

/-- Write a register; writes to `x0` are dropped. -/
def set (c : Cpu) (r : Reg) (v : Word) : Cpu :=
  if r = 0 then c else { c with x := Function.update c.x r v }

/-- Write a supervisor register. -/
def setCsr (c : Cpu) (k : Csr) (v : Word) : Cpu := { c with csr := Function.update c.csr k v }

/-- Store a doubleword. -/
def store (c : Cpu) (a v : Word) : Cpu := { c with mem := Function.update c.mem a v }

variable (c : Cpu) (r r' : Reg) (v : Word) (k k' : Csr) (a a' : Word)

theorem get_set_self (hr : r ≠ 0) : (c.set r v).get r = v := by
  unfold get set
  rw [if_neg hr, if_neg hr]
  exact Function.update_self ..

theorem get_set_of_ne (h : r' ≠ r) : (c.set r v).get r' = c.get r' := by
  unfold get set
  by_cases hr : r = 0
  · rw [if_pos hr]
  · rw [if_neg hr]
    dsimp only
    rw [Function.update_of_ne h]

/-- Reading a register after a write. -/
theorem get_set : (c.set r v).get r' = if r' = r ∧ r ≠ 0 then v else c.get r' := by
  by_cases h : r' = r
  · subst h
    by_cases hr : r' = 0
    · subst hr
      rfl
    · rw [get_set_self _ _ _ hr, if_pos ⟨rfl, hr⟩]
  · rw [get_set_of_ne _ _ _ _ h, if_neg fun h' => h h'.1]

@[simp] theorem csr_set : (c.set r v).csr = c.csr := by
  unfold set
  split_ifs <;> rfl

@[simp] theorem mem_set : (c.set r v).mem = c.mem := by
  unfold set
  split_ifs <;> rfl

@[simp] theorem get_setCsr : (c.setCsr k v).get r = c.get r := rfl
@[simp] theorem mem_setCsr : (c.setCsr k v).mem = c.mem := rfl
@[simp] theorem get_store : (c.store a v).get r = c.get r := rfl
@[simp] theorem csr_store : (c.store a v).csr = c.csr := rfl

@[simp] theorem csr_setCsr_self : (c.setCsr k v).csr k = v := Function.update_self ..

theorem csr_setCsr_of_ne (h : k' ≠ k) : (c.setCsr k v).csr k' = c.csr k' :=
  Function.update_of_ne h ..

@[simp] theorem mem_store_self : (c.store a v).mem a = v := Function.update_self ..

theorem mem_store_of_ne (h : a' ≠ a) : (c.store a v).mem a' = c.mem a' :=
  Function.update_of_ne h ..

end Cpu

/-- Execute one instruction. -/
def exec (c : Cpu) : Instr → Cpu
  | .sd rs off base => c.store (c.get base + BitVec.ofNat 64 off) (c.get rs)
  | .ld rd off base => c.set rd (c.mem (c.get base + BitVec.ofNat 64 off))
  | .addi rd rs imm => c.set rd (c.get rs + BitVec.ofInt 64 imm)
  | .mv rd rs => c.set rd (c.get rs)
  | .csrr rd k => c.set rd (c.csr k)
  | .csrw k rs => c.setCsr k (c.get rs)
  | .csrrw rd k rs => (c.setCsr k (c.get rs)).set rd (c.csr k)

/-- Execute a list of instructions. -/
def execAll (c : Cpu) (is : List Instr) : Cpu := is.foldl exec c

@[simp] theorem execAll_nil (c : Cpu) : execAll c [] = c := rfl

@[simp] theorem execAll_cons (c : Cpu) (i : Instr) (is : List Instr) :
    execAll c (i :: is) = execAll (exec c i) is := rfl

theorem execAll_append (c : Cpu) (is js : List Instr) :
    execAll c (is ++ js) = execAll (execAll c is) js := List.foldl_append ..

/-- The supervisor register that an instruction writes. -/
def Instr.csrTarget : Instr → Option Csr
  | .csrw k _ => some k
  | .csrrw _ k _ => some k
  | _ => none

/-- The instruction writes to memory. -/
def Instr.isStore : Instr → Bool
  | .sd _ _ _ => true
  | _ => false

theorem csr_exec_of_ne {c : Cpu} {i : Instr} {k : Csr} (h : i.csrTarget ≠ some k) :
    (exec c i).csr k = c.csr k := by
  cases i with
  | sd => rfl
  | csrw k' => exact Cpu.csr_setCsr_of_ne _ _ _ _ fun heq => h (congrArg some heq.symm)
  | csrrw rd k' =>
    rw [exec, Cpu.csr_set]
    exact Cpu.csr_setCsr_of_ne _ _ _ _ fun heq => h (congrArg some heq.symm)
  | _ => rw [exec, Cpu.csr_set]

/-- A supervisor register that no instruction of the list writes. -/
theorem csr_execAll_of_ne {c : Cpu} {is : List Instr} {k : Csr}
    (h : ∀ i ∈ is, i.csrTarget ≠ some k) : (execAll c is).csr k = c.csr k := by
  induction is generalizing c with
  | nil => rfl
  | cons i is ih =>
    rw [execAll_cons, ih fun j hj => h j (List.mem_cons_of_mem _ hj)]
    exact csr_exec_of_ne (h i List.mem_cons_self)

theorem mem_exec_of_not_store {c : Cpu} {i : Instr} (h : i.isStore = false) :
    (exec c i).mem = c.mem := by
  cases i with
  | sd => exact absurd h (by simp [Instr.isStore])
  | csrw => rfl
  | _ => rw [exec, Cpu.mem_set]; try rfl

/-! ## Register files in memory -/

/-- Store the registers of a list of slots below `base`. -/
def storeAll (base : Reg) (slots : List (Reg × ℕ)) : List Instr :=
  slots.map fun s => .sd s.1 s.2 base

/-- Load the registers of a list of slots from below `base`. -/
def loadAll (base : Reg) (slots : List (Reg × ℕ)) : List Instr :=
  slots.map fun s => .ld s.1 s.2 base

/-- The address of a slot. -/
def slotAddr (p : Word) (off : ℕ) : Word := p + BitVec.ofNat 64 off

theorem slotAddr_inj {p : Word} {o o' : ℕ} (ho : o < 2 ^ 64) (ho' : o' < 2 ^ 64)
    (h : slotAddr p o = slotAddr p o') : o = o' := by
  have := congrArg BitVec.toNat (BitVec.add_right_inj p |>.mp h)
  rwa [BitVec.toNat_ofNat, BitVec.toNat_ofNat, Nat.mod_eq_of_lt ho, Nat.mod_eq_of_lt ho'] at this

section Stores

variable {base : Reg} {slots : List (Reg × ℕ)}

@[simp] theorem get_execAll_store (c : Cpu) (r : Reg) :
    (execAll c (storeAll base slots)).get r = c.get r := by
  induction slots generalizing c with
  | nil => rfl
  | cons s slots ih => exact ih _

@[simp] theorem csr_execAll_store (c : Cpu) : (execAll c (storeAll base slots)).csr = c.csr := by
  induction slots generalizing c with
  | nil => rfl
  | cons s slots ih => exact ih _

/-- Stores write only into their slots. -/
theorem mem_execAll_store_of_notMem {c : Cpu} {a : Word}
    (h : ∀ s ∈ slots, a ≠ slotAddr (c.get base) s.2) :
    (execAll c (storeAll base slots)).mem a = c.mem a := by
  induction slots generalizing c with
  | nil => rfl
  | cons s slots ih =>
    rw [storeAll, List.map_cons, execAll_cons]
    refine (ih (c := exec c (.sd s.1 s.2 base)) fun s' hs' =>
      h s' (List.mem_cons_of_mem _ hs')).trans ?_
    exact Cpu.mem_store_of_ne _ _ _ _ (h s List.mem_cons_self)

/-- **Stores.**  After the stores every slot holds its register. -/
theorem execAll_store {c : Cpu} (hoff : ∀ s ∈ slots, s.2 < 2 ^ 64)
    (hnodup : (slots.map Prod.snd).Nodup) {s : Reg × ℕ} (hs : s ∈ slots) :
    (execAll c (storeAll base slots)).mem (slotAddr (c.get base) s.2) = c.get s.1 := by
  induction slots generalizing c with
  | nil => exact absurd hs List.not_mem_nil
  | cons t slots ih =>
    rw [List.map_cons, List.nodup_cons] at hnodup
    rw [storeAll, List.map_cons, execAll_cons]
    rcases List.mem_cons.mp hs with rfl | hs
    · refine (mem_execAll_store_of_notMem fun s' hs' heq => ?_).trans (Cpu.mem_store_self ..)
      have := slotAddr_inj (hoff s List.mem_cons_self)
        (hoff s' (List.mem_cons_of_mem _ hs')) heq
      exact hnodup.1 (this ▸ List.mem_map_of_mem hs')
    · exact ih (c := exec c (.sd t.1 t.2 base))
        (fun s' hs' => hoff s' (List.mem_cons_of_mem _ hs')) hnodup.2 hs

end Stores

section Loads

variable {base : Reg} {slots : List (Reg × ℕ)}

@[simp] theorem csr_execAll_load (c : Cpu) : (execAll c (loadAll base slots)).csr = c.csr := by
  induction slots generalizing c with
  | nil => rfl
  | cons s slots ih => exact (ih _).trans (Cpu.csr_set ..)

@[simp] theorem mem_execAll_load (c : Cpu) : (execAll c (loadAll base slots)).mem = c.mem := by
  induction slots generalizing c with
  | nil => rfl
  | cons s slots ih => exact (ih _).trans (Cpu.mem_set ..)

/-- Loads leave every other register alone. -/
theorem execAll_load_others {c : Cpu} {r : Reg} (h : r ∉ slots.map Prod.fst) :
    (execAll c (loadAll base slots)).get r = c.get r := by
  induction slots generalizing c with
  | nil => rfl
  | cons s slots ih =>
    rw [List.map_cons, List.mem_cons, not_or] at h
    exact (ih h.2).trans (Cpu.get_set_of_ne _ _ _ _ h.1)

/-- **Loads.**  After the loads every register of the list holds its slot, as long as the base is
none of them. -/
theorem execAll_load {c : Cpu} (hbase : base ∉ slots.map Prod.fst)
    (hnodup : (slots.map Prod.fst).Nodup) {s : Reg × ℕ} (hs : s ∈ slots) (h0 : s.1 ≠ 0) :
    (execAll c (loadAll base slots)).get s.1 = c.mem (slotAddr (c.get base) s.2) := by
  induction slots generalizing c with
  | nil => exact absurd hs List.not_mem_nil
  | cons t slots ih =>
    rw [List.map_cons, List.nodup_cons] at hnodup
    rw [List.map_cons, List.mem_cons, not_or] at hbase
    rw [loadAll, List.map_cons, execAll_cons]
    rcases List.mem_cons.mp hs with rfl | hs
    · exact (execAll_load_others hnodup.1).trans (Cpu.get_set_self _ _ _ h0)
    · refine (ih hbase.2 hnodup.2 hs).trans ?_
      rw [exec, Cpu.mem_set, Cpu.get_set_of_ne _ _ _ _ hbase.1]

end Loads

/-! ## What a list of instructions leaves alone -/

/-- The integer register that an instruction writes. -/
def Instr.regTarget : Instr → Option Reg
  | .sd _ _ _ => none
  | .ld rd _ _ => some rd
  | .addi rd _ _ => some rd
  | .mv rd _ => some rd
  | .csrr rd _ => some rd
  | .csrw _ _ => none
  | .csrrw rd _ _ => some rd

/-- The instruction stores nowhere but in a slot below `n` at `base`. -/
def Instr.storesBelow (base : Reg) (n : ℕ) : Instr → Bool
  | .sd _ off b => b == base && off < n
  | _ => true

section Untouched

variable {c : Cpu} {is : List Instr} {r base : Reg} {n : ℕ} {a : Word}

theorem get_exec_of_ne {i : Instr} (h : i.regTarget ≠ some r) : (exec c i).get r = c.get r := by
  cases i with
  | sd => rfl
  | csrw => rfl
  | csrrw rd =>
    rw [exec, Cpu.get_set_of_ne _ _ _ _ fun heq => h (congrArg some heq.symm)]
    rfl
  | _ => exact Cpu.get_set_of_ne _ _ _ _ fun heq => h (congrArg some heq.symm)

/-- A register that no instruction of the list writes. -/
theorem get_execAll_of_ne (h : ∀ i ∈ is, i.regTarget ≠ some r) :
    (execAll c is).get r = c.get r := by
  induction is generalizing c with
  | nil => rfl
  | cons i is ih =>
    rw [execAll_cons, ih fun j hj => h j (List.mem_cons_of_mem _ hj)]
    exact get_exec_of_ne (h i List.mem_cons_self)

theorem mem_exec_of_storesBelow {i : Instr} (h : i.storesBelow base n = true)
    (ha : ∀ o < n, a ≠ slotAddr (c.get base) o) : (exec c i).mem a = c.mem a := by
  cases i with
  | sd rs off b =>
    obtain ⟨hb, hoff⟩ := Bool.and_eq_true_iff.mp h
    rw [beq_iff_eq] at hb
    subst hb
    exact Cpu.mem_store_of_ne _ _ _ _ (ha off (of_decide_eq_true hoff))
  | _ => exact congrFun (mem_exec_of_not_store rfl) a

/-- A list that stores only in the slots at `base` leaves the rest of the memory alone. -/
theorem mem_execAll_of_storesBelow
    (h : ∀ i ∈ is, i.regTarget ≠ some base ∧ i.storesBelow base n = true)
    (ha : ∀ o < n, a ≠ slotAddr (c.get base) o) : (execAll c is).mem a = c.mem a := by
  induction is generalizing c with
  | nil => rfl
  | cons i is ih =>
    obtain ⟨hreg, hstore⟩ := h i List.mem_cons_self
    rw [execAll_cons, ih (fun j hj => h j (List.mem_cons_of_mem _ hj))
      (by rwa [get_exec_of_ne hreg])]
    exact mem_exec_of_storesBelow hstore ha

end Untouched

/-! ## Traps -/

/-- `sstatus.SIE`. -/
def sieBit : ℕ := 1
/-- `sstatus.SPIE`. -/
def spieBit : ℕ := 5
/-- `sstatus.SPP`. -/
def sppBit : ℕ := 8

/-- Write one bit of a word. -/
def setBit (w : Word) (i : ℕ) (b : Bool) : Word :=
  (w &&& ~~~(1#64 <<< i)) ||| (if b then 1#64 <<< i else 0#64)

theorem getLsbD_setBit {w : Word} {i j : ℕ} {b : Bool} (hi : i < 64) :
    (setBit w i b).getLsbD j = if j = i then b else w.getLsbD j := by
  have hone : ∀ n, (1#64).getLsbD n = decide (n = 0) := fun n => by
    rw [BitVec.getLsbD_one]
    simp
  have hbit : ((if b then 1#64 <<< i else 0#64) : Word).getLsbD j = (decide (j = i) && b) := by
    cases b
    · simp
    · simp only [if_true, BitVec.getLsbD_shiftLeft, hone, Bool.and_true]
      by_cases hj : j = i
      · subst hj
        simp [hi]
      · simp only [hj, decide_false]
        by_cases hlt : j < i
        · simp [hlt]
        · have : j - i ≠ 0 := by omega
          simp [this]
  have hmask : (~~~(1#64 <<< i)).getLsbD j = (decide (j < 64) && !decide (j = i)) := by
    simp only [BitVec.getLsbD_not, BitVec.getLsbD_shiftLeft, hone]
    by_cases hj : j = i
    · subst hj
      simp [hi]
    · by_cases hlt : j < i
      · simp [hlt, hj]
      · have : j - i ≠ 0 := by omega
        simp [this, hj]
  unfold setBit
  rw [BitVec.getLsbD_or, BitVec.getLsbD_and, hmask, hbit]
  by_cases hj : j = i
  · simp [hj]
  · simp only [hj, decide_false, Bool.false_and, Bool.or_false, Bool.not_false, Bool.and_true,
      if_false]
    by_cases hlt : j < 64
    · simp [hlt]
    · simp [BitVec.getLsbD_of_ge w j (by omega)]

/-- The interrupt-enable bit. -/
def sie (w : Word) : Bool := w.getLsbD sieBit

/-- The privilege that `sret` returns to. -/
def spp (w : Word) : Priv := if w.getLsbD sppBit then .supervisor else .user

/-- `sstatus` when a trap is taken: `SPIE` remembers `SIE`, `SIE` is cleared, `SPP` remembers the
privilege. -/
def trapStatus (w : Word) (p : Priv) : Word :=
  setBit (setBit (setBit w spieBit (sie w)) sieBit false) sppBit (p == .supervisor)

/-- `sstatus` after `sret`: `SIE` is `SPIE` again, `SPIE` is set, `SPP` is user. -/
def sretStatus (w : Word) : Word :=
  setBit (setBit (setBit w sieBit (w.getLsbD spieBit)) spieBit true) sppBit false

theorem spp_trapStatus (w : Word) (p : Priv) : spp (trapStatus w p) = p := by
  unfold spp trapStatus
  rw [getLsbD_setBit (by decide), if_pos rfl]
  cases p <;> rfl

theorem sie_trapStatus (w : Word) (p : Priv) : sie (trapStatus w p) = false := by
  unfold sie trapStatus
  rw [getLsbD_setBit (by decide), if_neg (by decide), getLsbD_setBit (by decide), if_pos rfl]

/-- A hart: its registers, where it executes and at which level. -/
structure Hart where
  cpu : Cpu
  pc : Word
  priv : Priv

/-- The hart takes a trap to `stvec`. -/
def Hart.takeTrap (h : Hart) (stvec cause tval : Word) : Hart where
  cpu := (((h.cpu.setCsr .sepc h.pc).setCsr .sstatus
    (trapStatus (h.cpu.csr .sstatus) h.priv)).setCsr .scause cause).setCsr .stval tval
  pc := stvec
  priv := .supervisor

/-- The hart executes `sret`. -/
def Hart.sret (h : Hart) : Hart where
  cpu := h.cpu.setCsr .sstatus (sretStatus (h.cpu.csr .sstatus))
  pc := h.cpu.csr .sepc
  priv := spp (h.cpu.csr .sstatus)

namespace Hart

variable (h : Hart) (stvec cause tval : Word)

@[simp] theorem sepc_takeTrap : (h.takeTrap stvec cause tval).cpu.csr .sepc = h.pc := rfl

@[simp] theorem sstatus_takeTrap : (h.takeTrap stvec cause tval).cpu.csr .sstatus =
    trapStatus (h.cpu.csr .sstatus) h.priv := rfl

@[simp] theorem scause_takeTrap : (h.takeTrap stvec cause tval).cpu.csr .scause = cause := rfl

@[simp] theorem sscratch_takeTrap :
    (h.takeTrap stvec cause tval).cpu.csr .sscratch = h.cpu.csr .sscratch := rfl

@[simp] theorem get_takeTrap (r : Reg) : (h.takeTrap stvec cause tval).cpu.get r = h.cpu.get r :=
  rfl

@[simp] theorem get_sret (r : Reg) : h.sret.cpu.get r = h.cpu.get r := rfl

@[simp] theorem sscratch_sret : h.sret.cpu.csr .sscratch = h.cpu.csr .sscratch := rfl

end Hart
end Rv64
end OscKernel
