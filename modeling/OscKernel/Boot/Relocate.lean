import OscKernel.Lib.Endian
import OscKernel.Uart.Load
import OscKernel.Word
import Mathlib.Data.Nat.Digits.Lemmas
import Mathlib.Logic.Relation

/-!
# The bootloader moves itself (`start.S` and `main.c` of the bootloader)

`_start` clears the zero-initialized data and calls `main`.  While `need_relocated` is set, `main`
clears it, copies the whole bootloader to `RELOCATE_ADDR` and jumps there, so that `_start` runs a
second time, in the copy.  Then `main` stores the address of the device tree and the base of the
UART in two variables and calls the shell.  Addresses of the program are relative to the copy that
executes.

The four kilobytes behind the program are the stack of the copy that executes.  What the frames of
the C functions leave there is not modelled: it is a parameter (`BootEnv.frames`), and so is the
address that `dtb_getprop` finds for the UART.  The frames are taken to stay within the stack.

* `BootImage`: what the linker and `objcopy` make; its fields are the layout of `linker.ld`.
* `BootState.step`: a round of one of the two loops, or what is between them.
* `runs_shell`: the bootloader moves itself once, and then executes its shell in a copy that is
  whole, with cleared data but for the two variables (`Relocated`).

## Why it moves once

`need_relocated` lies in the initialized data, so that it is copied with the rest.  `main` clears it
before the copy, and the copy is made of what is in memory then: the flag is clear in the copy, and
`main` does not move again when it runs there.  If it lay in the zero-initialized data, `_start`
would clear it at once, and the bootloader would stay where it was loaded.

The stack lies behind what is copied, and `_start` puts `sp` behind the program again in the copy.
The two places that the bootloader uses, each with its stack, must not meet; what the frames leave
on the stacks is arbitrary, and nothing is said about these bytes.
-/

namespace OscKernel
namespace Boot

open Endian (toLE ofLE)
open Uart (Board stored)

/-- The file that is loaded, and the places of `need_relocated`, `_sbss`, `_ebss`, `_code_end`,
`g_dtb_addr` and `g_uart_base`, counted from `_code_start`. -/
structure BootImage where
  bytes : List UInt8
  needRelocated : ℕ
  sbss : ℕ
  ebss : ℕ
  codeEnd : ℕ
  gDtbAddr : ℕ
  gUartBase : ℕ
  /-- `static int need_relocated = 1`. -/
  initial : ∀ k < 4, bytes[needRelocated + k]? = some (if k = 0 then 1 else 0)
  length_le : bytes.length ≤ sbss
  /-- `. = ALIGN(8)`. -/
  sbss_dvd : 8 ∣ sbss
  sbss_le : sbss ≤ ebss
  ebss_le : ebss ≤ codeEnd
  /-- `. = ALIGN(16)`, on a base that is a multiple of `16` too. -/
  codeEnd_dvd : 16 ∣ codeEnd
  /-- The two variables have no initial value, so they are in `.bss`. -/
  gDtbAddr_mem : sbss ≤ gDtbAddr ∧ gDtbAddr + 8 ≤ ebss
  gUartBase_mem : sbss ≤ gUartBase ∧ gUartBase + 8 ≤ ebss
  variables_apart : gDtbAddr + 8 ≤ gUartBase ∨ gUartBase + 8 ≤ gDtbAddr

/-- `_stack_top = . + 0x1000`, where `_code_end` is. -/
def stackSize : ℕ := 0x1000

/-- Where the bootloader is. -/
inductive BootPc where
  /-- At `_init_bss`, with `t0`. -/
  | initBss (t0 : ℕ)
  /-- At the beginning of `main`. -/
  | main
  /-- In the loop of `code_relocate`, with `relocate_addr` and `code_start`. -/
  | copy (relocateAddr codeStart : ℕ)
  /-- In `shell`. -/
  | shell

/-- The copy that executes begins at `base`; `hartId` and `dtbPtr` are its arguments. -/
structure BootState where
  base : ℕ
  pc : BootPc
  hartId : ℕ
  dtbPtr : ℕ
  mem : ℕ → UInt8
  /-- How often `code_relocate` has jumped. -/
  jumps : ℕ

/-- What is not modelled. -/
structure BootEnv where
  /-- What `dtb_getprop("/soc/serial", "reg")` returns in `main`. -/
  uBase : ℕ
  /-- What the frames of the C functions leave on the stack, in each state in which they run. -/
  frames : BootState → ℕ → UInt8

/-- The comparison of registers by `bge` is signed. -/
def s64 (n : ℕ) : ℤ := Int.bmod n (2 ^ 64)

/-- The `n` bytes at an address. -/
def fetch (mem : ℕ → UInt8) (a n : ℕ) : List UInt8 := (List.range n).map fun k => mem (a + k)

/-- The `int` at an address, on a little-endian machine. -/
def loadInt (mem : ℕ → UInt8) (a : ℕ) : ℤ :=
  toInt32 (Nat.ofDigits 256 ((fetch mem a 4).map UInt8.toNat))

namespace BootImage

variable (img : BootImage) (base : ℕ)

/-- The stack of the copy at `base`. -/
def stack : Set ℕ := Set.Ico (base + img.codeEnd) (base + img.codeEnd + stackSize)

/-- The memory with `frames` on the stack. -/
def framed (frames mem : ℕ → UInt8) : ℕ → UInt8 := fun x =>
  if base + img.codeEnd ≤ x ∧ x < base + img.codeEnd + stackSize then frames x else mem x

/-- `dtb_set_addr`. -/
def dtbSetAddr (addr : ℕ) (mem : ℕ → UInt8) : ℕ → UInt8 :=
  stored mem (base + img.gDtbAddr) (toLE 8 (BitVec.ofNat 64 addr))

/-- `dtb_get_addr`. -/
def dtbGetAddr (mem : ℕ → UInt8) : ℕ := (ofLE 64 (fetch mem (base + img.gDtbAddr) 8)).toNat

/-- `uart_set_base`. -/
def uartSetBase (addr : ℕ) (mem : ℕ → UInt8) : ℕ → UInt8 :=
  if addr ≠ 0 then stored mem (base + img.gUartBase) (toLE 8 (BitVec.ofNat 64 addr)) else mem

end BootImage

namespace BootState

/-- What happens next; nothing more when the shell is reached. -/
def step (img : BootImage) (board : Board) (env : BootEnv) (s : BootState) : Option BootState :=
  match s.pc with
  | .initBss t0 =>
      if s64 t0 ≥ s64 (u64 (s.base + img.ebss)) then some { s with pc := .main }
      else some { s with
        mem := stored s.mem t0 (List.replicate 8 0)
        pc := .initBss (u64 (t0 + 8)) }
  | .main =>
      let mem := img.framed s.base (env.frames s) s.mem
      if loadInt mem (s.base + img.needRelocated) = 1 then
        some { s with
          mem := stored mem (s.base + img.needRelocated) (List.replicate 4 0)
          pc := .copy board.relocateAddr s.base }
      else some { s with
        mem := img.uartSetBase s.base env.uBase (img.dtbSetAddr s.base s.dtbPtr mem)
        pc := .shell }
  | .copy dst src =>
      let mem := img.framed s.base (env.frames s) s.mem
      if src = u64 (s.base + img.codeEnd) then
        some { s with
          base := board.relocateAddr
          pc := .initBss (u64 (board.relocateAddr + img.sbss))
          hartId := 0
          mem := mem
          jumps := s.jumps + 1 }
      else some { s with
        mem := stored mem dst (fetch mem src 8)
        pc := .copy (u64 (dst + 8)) (u64 (src + 8)) }
  | .shell => none

/-- `_start` of the copy at `base`. -/
def start (img : BootImage) (base hartId dtbPtr : ℕ) (mem : ℕ → UInt8) : BootState :=
  ⟨base, .initBss (u64 (base + img.sbss)), hartId, dtbPtr, mem, 0⟩

/-- Some steps lead from `s` to `s'`. -/
def Runs (img : BootImage) (board : Board) (env : BootEnv) (s s' : BootState) : Prop :=
  Relation.ReflTransGen (fun s s' => s.step img board env = some s') s s'

end BootState

/-! ## Memory -/

section Memory

variable {mem : ℕ → UInt8} {a x n : ℕ} {l : List UInt8}

theorem stored_of_lt (h : x < a) (l : List UInt8) : stored mem a l x = mem x :=
  if_neg (Nat.not_le.mpr h)

theorem stored_of_le (h : a + l.length ≤ x) : stored mem a l x = mem x := by
  unfold stored
  rw [if_pos (by omega), List.getElem?_eq_none (by omega)]
  rfl

theorem stored_add {k : ℕ} {b : UInt8} (h : l[k]? = some b) : stored mem a l (a + k) = b := by
  unfold stored
  rw [if_pos (Nat.le_add_right a k), Nat.add_sub_cancel_left, h]
  rfl

theorem getElem?_fetch {k : ℕ} (h : k < n) : (fetch mem a n)[k]? = some (mem (a + k)) := by
  unfold fetch
  rw [List.getElem?_map, List.getElem?_range h]
  rfl

theorem s64_of_lt (h : n < 2 ^ 63) : s64 n = n := by
  unfold s64 Int.bmod
  dsimp only
  split_ifs <;> omega

theorem fetch_congr {mem' : ℕ → UInt8} (h : ∀ k < n, mem (a + k) = mem' (a + k)) :
    fetch mem a n = fetch mem' a n :=
  List.map_congr_left fun k hk => h k (List.mem_range.mp hk)

/-- What is stored is read back. -/
theorem fetch_stored (mem : ℕ → UInt8) (a : ℕ) (l : List UInt8) :
    fetch (stored mem a l) a l.length = l := by
  refine List.ext_getElem? fun k => ?_
  by_cases hk : k < l.length
  · rw [getElem?_fetch hk, stored_add (List.getElem?_eq_getElem hk), List.getElem?_eq_getElem hk]
  · rw [List.getElem?_eq_none (by simp [fetch]; omega), List.getElem?_eq_none (by omega)]

/-- What is stored elsewhere does not matter. -/
theorem stored_of_notMem (h : x < a ∨ a + l.length ≤ x) : stored mem a l x = mem x :=
  h.elim (fun h => stored_of_lt h l) stored_of_le

end Memory

/-! ## The stack and the variables -/

namespace BootImage

variable {img : BootImage} {base addr x : ℕ} {frames mem : ℕ → UInt8}

/-- The stack begins behind the program and has an end. -/
theorem notMem_stack (h : x < base + img.codeEnd ∨ base + img.codeEnd + stackSize ≤ x) :
    x ∉ img.stack base := by
  rintro ⟨h1, h2⟩
  omega

/-- The frames are on the stack only. -/
theorem framed_of_notMem (h : x ∉ img.stack base) : img.framed base frames mem x = mem x :=
  if_neg h

theorem dtbSetAddr_of_notMem
    (h : x < base + img.gDtbAddr ∨ base + img.gDtbAddr + 8 ≤ x) :
    img.dtbSetAddr base addr mem x = mem x :=
  stored_of_notMem (by rwa [Endian.length_toLE])

theorem uartSetBase_of_notMem
    (h : x < base + img.gUartBase ∨ base + img.gUartBase + 8 ≤ x) :
    img.uartSetBase base addr mem x = mem x := by
  unfold uartSetBase
  split_ifs
  · exact stored_of_notMem (by rwa [Endian.length_toLE])
  · rfl

/-- `main` stores into the two variables only. -/
theorem variables_of_notMem {uBase : ℕ} (hdtb : x ∉ Endian.span (base + img.gDtbAddr) 8)
    (huart : x ∉ Endian.span (base + img.gUartBase) 8) :
    img.uartSetBase base uBase (img.dtbSetAddr base addr mem) x = mem x := by
  rw [Endian.span, Set.mem_Ico] at hdtb huart
  rw [uartSetBase_of_notMem (by omega), dtbSetAddr_of_notMem (by omega)]

/-- Outside the program there is no variable. -/
theorem variables_of_outside {uBase : ℕ} (h : x < base ∨ base + img.codeEnd ≤ x) :
    img.uartSetBase base uBase (img.dtbSetAddr base addr mem) x = mem x := by
  have hdtb := img.gDtbAddr_mem
  have huart := img.gUartBase_mem
  have hebss := img.ebss_le
  rw [uartSetBase_of_notMem (by omega), dtbSetAddr_of_notMem (by omega)]

/-- `dtb_get_addr` returns what `dtb_set_addr` was called with. -/
theorem dtbGetAddr_dtbSetAddr (h : addr < 2 ^ 64) (uBase : ℕ) :
    img.dtbGetAddr base (img.uartSetBase base uBase (img.dtbSetAddr base addr mem)) = addr := by
  have hother : fetch (img.uartSetBase base uBase (img.dtbSetAddr base addr mem))
      (base + img.gDtbAddr) 8 = fetch (img.dtbSetAddr base addr mem) (base + img.gDtbAddr) 8 :=
    fetch_congr fun k hk => uartSetBase_of_notMem (by
      have := img.variables_apart
      omega)
  have hread : fetch (img.dtbSetAddr base addr mem) (base + img.gDtbAddr) 8 =
      toLE 8 (BitVec.ofNat 64 addr) := by
    have hstored := fetch_stored mem (base + img.gDtbAddr) (toLE 8 (BitVec.ofNat 64 addr))
    rwa [Endian.length_toLE] at hstored
  have hword : ofLE 64 (toLE 8 (BitVec.ofNat 64 addr)) = BitVec.ofNat 64 addr :=
    Endian.ofLE_toLE (n := 8) _
  rw [dtbGetAddr, hother, hread, hword, BitVec.toNat_ofNat, Nat.mod_eq_of_lt h]

end BootImage

/-! ## The two loops -/

namespace BootState

variable {img : BootImage} {board : Board} {env : BootEnv} {base hartId dtbPtr jumps : ℕ}

variable {mem : ℕ → UInt8}

theorem step_initBss_done {t0 : ℕ} (h : s64 t0 ≥ s64 (u64 (base + img.ebss))) :
    step img board env ⟨base, .initBss t0, hartId, dtbPtr, mem, jumps⟩ =
      some ⟨base, .main, hartId, dtbPtr, mem, jumps⟩ := by
  rw [step]
  dsimp only
  rw [if_pos h]

theorem step_initBss {t0 : ℕ} (h : ¬ s64 t0 ≥ s64 (u64 (base + img.ebss))) :
    step img board env ⟨base, .initBss t0, hartId, dtbPtr, mem, jumps⟩ =
      some ⟨base, .initBss (u64 (t0 + 8)), hartId, dtbPtr, stored mem t0 (List.replicate 8 0),
        jumps⟩ := by
  rw [step]
  dsimp only
  rw [if_neg h]

theorem step_copy_done {dst src : ℕ} (h : src = u64 (base + img.codeEnd)) :
    step img board env ⟨base, .copy dst src, hartId, dtbPtr, mem, jumps⟩ =
      some ⟨board.relocateAddr, .initBss (u64 (board.relocateAddr + img.sbss)), 0, dtbPtr,
        img.framed base (env.frames ⟨base, .copy dst src, hartId, dtbPtr, mem, jumps⟩) mem,
        jumps + 1⟩ :=
  if_pos h

theorem step_copy {dst src : ℕ} (h : ¬ src = u64 (base + img.codeEnd)) :
    step img board env ⟨base, .copy dst src, hartId, dtbPtr, mem, jumps⟩ =
      let mem' :=
        img.framed base (env.frames ⟨base, .copy dst src, hartId, dtbPtr, mem, jumps⟩) mem
      some ⟨base, .copy (u64 (dst + 8)) (u64 (src + 8)), hartId, dtbPtr,
        stored mem' dst (fetch mem' src 8), jumps⟩ :=
  if_neg h

/-- **Clearing the data**, from the place `sbss + 8 * j` on. -/
theorem runs_initBss (board : Board) (env : BootEnv) (hartId dtbPtr jumps : ℕ)
    (hbase : base + img.codeEnd < 2 ^ 63) (j : ℕ) (mem : ℕ → UInt8)
    (hj : img.sbss + 8 * j ≤ img.codeEnd) :
    ∃ mem', Runs img board env
        ⟨base, .initBss (base + img.sbss + 8 * j), hartId, dtbPtr, mem, jumps⟩
        ⟨base, .main, hartId, dtbPtr, mem', jumps⟩ ∧
      (∀ i, img.sbss + 8 * j ≤ i → i < img.ebss → mem' (base + i) = 0) ∧
      ∀ x, x < base + img.sbss + 8 * j ∨ base + img.codeEnd ≤ x → mem' x = mem x := by
  have hebss := img.ebss_le
  have hword : ∀ n, n ≤ base + img.codeEnd → u64 n = n ∧ s64 n = n := fun n hn =>
    ⟨u64_of_lt (by omega), s64_of_lt (by omega)⟩
  induction hn : img.ebss - (img.sbss + 8 * j) using Nat.strong_induction_on generalizing j mem with
  | _ n ih =>
    by_cases hdone : img.ebss ≤ img.sbss + 8 * j
    · refine ⟨mem, Relation.ReflTransGen.single (step_initBss_done ?_), fun i h1 h2 => by omega,
        fun x _ => rfl⟩
      rw [(hword (base + img.ebss) (by omega)).1, (hword (base + img.ebss) (by omega)).2,
        (hword (base + img.sbss + 8 * j) (by omega)).2]
      omega
    · -- the end of the program is a multiple of the step, so the last store stays below it
      obtain ⟨q, hq⟩ := img.sbss_dvd
      obtain ⟨r, hr⟩ := img.codeEnd_dvd
      obtain ⟨mem', hrun, hzero, hkeep⟩ := ih _ (by omega) (j + 1)
        (stored mem (base + img.sbss + 8 * j) (List.replicate 8 0)) (by omega) rfl
      have hcond : ¬ s64 (base + img.sbss + 8 * j) ≥ s64 (u64 (base + img.ebss)) := by
        rw [(hword (base + img.ebss) (by omega)).1, (hword (base + img.ebss) (by omega)).2,
          (hword (base + img.sbss + 8 * j) (by omega)).2]
        omega
      have hnext : u64 (base + img.sbss + 8 * j + 8) = base + img.sbss + 8 * (j + 1) := by
        rw [u64_of_lt (by omega)]
        ring
      rw [← hnext] at hrun
      refine ⟨mem', Relation.ReflTransGen.head (step_initBss hcond) hrun, ?_, ?_⟩
      · intro i h1 h2
        by_cases hlt : i < img.sbss + 8 * (j + 1)
        · rw [hkeep _ (Or.inl (by omega))]
          have hi : base + i = base + img.sbss + 8 * j + (i - (img.sbss + 8 * j)) := by omega
          rw [hi]
          refine stored_add (List.getElem?_replicate_of_lt ?_)
          omega
        · exact hzero i (by omega) h2
      · intro x hx
        rw [hkeep x (by omega)]
        rcases hx with hx | hx
        · exact stored_of_lt hx _
        · refine stored_of_le ?_
          rw [List.length_replicate]
          omega

/-- The two places of the bootloader, each with its stack, do not meet. -/
def Apart (img : BootImage) (base base' : ℕ) : Prop :=
  base + img.codeEnd + stackSize ≤ base' ∨ base' + img.codeEnd + stackSize ≤ base

/-- **The copy**, from the place `8 * j` on. -/
theorem runs_copy (env : BootEnv) (hartId dtbPtr jumps : ℕ) (hbase : base + img.codeEnd < 2 ^ 63)
    (hdst : board.relocateAddr + img.codeEnd < 2 ^ 63)
    (hapart : Apart img base board.relocateAddr)
    (j : ℕ) (mem : ℕ → UInt8) (hj : 8 * j ≤ img.codeEnd) :
    ∃ mem', Runs img board env
        ⟨base, .copy (board.relocateAddr + 8 * j) (base + 8 * j), hartId, dtbPtr, mem, jumps⟩
        ⟨board.relocateAddr, .initBss (board.relocateAddr + img.sbss), 0, dtbPtr, mem',
          jumps + 1⟩ ∧
      (∀ i, 8 * j ≤ i → i < img.codeEnd →
        mem' (board.relocateAddr + i) = mem (base + i)) ∧
      ∀ x, x ∉ img.stack base →
        x < board.relocateAddr + 8 * j ∨ board.relocateAddr + img.codeEnd ≤ x →
          mem' x = mem x := by
  have hsbss := img.sbss_le.trans img.ebss_le
  unfold Apart at hapart
  -- neither copy of the program meets the stack
  have hown : ∀ i < img.codeEnd, base + i ∉ img.stack base := fun i hi =>
    BootImage.notMem_stack (by omega)
  have hother : ∀ i < img.codeEnd, board.relocateAddr + i ∉ img.stack base := fun i hi =>
    BootImage.notMem_stack (by omega)
  induction hn : img.codeEnd - 8 * j using Nat.strong_induction_on generalizing j mem with
  | _ n ih =>
    set mem₁ := img.framed base (env.frames ⟨base, .copy (board.relocateAddr + 8 * j)
      (base + 8 * j), hartId, dtbPtr, mem, jumps⟩) mem with hmem₁
    have hframed : ∀ x, x ∉ img.stack base → mem₁ x = mem x := fun x hx =>
      BootImage.framed_of_notMem hx
    by_cases hdone : 8 * j = img.codeEnd
    · have hsrc : base + 8 * j = u64 (base + img.codeEnd) := by
        rw [u64_of_lt (by omega), hdone]
      have hstart : u64 (board.relocateAddr + img.sbss) = board.relocateAddr + img.sbss :=
        u64_of_lt (by omega)
      rw [← hstart]
      exact ⟨mem₁, Relation.ReflTransGen.single (step_copy_done hsrc),
        fun i h1 h2 => by omega, fun x hx _ => hframed x hx⟩
    · obtain ⟨r, hr⟩ := img.codeEnd_dvd
      obtain ⟨mem', hrun, hcopy, hkeep⟩ := ih _ (by omega) (j + 1)
        (stored mem₁ (board.relocateAddr + 8 * j) (fetch mem₁ (base + 8 * j) 8)) (by omega) rfl
      have hlen : (fetch mem₁ (base + 8 * j) 8).length = 8 := by simp [fetch]
      have hcond : ¬ base + 8 * j = u64 (base + img.codeEnd) := by
        rw [u64_of_lt (by omega)]
        omega
      have hnext : u64 (board.relocateAddr + 8 * j + 8) = board.relocateAddr + 8 * (j + 1) ∧
          u64 (base + 8 * j + 8) = base + 8 * (j + 1) := by
        rw [u64_of_lt (by omega), u64_of_lt (by omega)]
        omega
      rw [← hnext.1, ← hnext.2] at hrun
      refine ⟨mem', Relation.ReflTransGen.head (step_copy hcond) hrun, ?_, ?_⟩
      · intro i h1 h2
        by_cases hlt : i < 8 * (j + 1)
        · rw [hkeep _ (hother i h2) (Or.inl (by omega))]
          have hi : board.relocateAddr + i = board.relocateAddr + 8 * j + (i - 8 * j) := by omega
          have hsrc : base + 8 * j + (i - 8 * j) = base + i := by omega
          rw [hi, ← hframed _ (hown i h2)]
          exact hsrc ▸ stored_add (getElem?_fetch (by omega))
        · rw [hcopy i (by omega) h2, stored_of_notMem (by omega), hframed _ (hown i h2)]
      · intro x hx hout
        rw [hkeep x hx (by omega), stored_of_notMem (by omega), hframed x hx]

/-! ## `main` -/

/-- `need_relocated` is set. -/
theorem step_main_of_set
    (h : loadInt (img.framed base (env.frames ⟨base, .main, hartId, dtbPtr, mem, jumps⟩) mem)
      (base + img.needRelocated) = 1) :
    step img board env ⟨base, .main, hartId, dtbPtr, mem, jumps⟩ =
      some ⟨base, .copy board.relocateAddr base, hartId, dtbPtr,
        stored (img.framed base (env.frames ⟨base, .main, hartId, dtbPtr, mem, jumps⟩) mem)
          (base + img.needRelocated) (List.replicate 4 0), jumps⟩ := by
  rw [step]
  dsimp only
  rw [if_pos h]

theorem step_main_of_clear
    (h : ¬ loadInt (img.framed base (env.frames ⟨base, .main, hartId, dtbPtr, mem, jumps⟩) mem)
      (base + img.needRelocated) = 1) :
    step img board env ⟨base, .main, hartId, dtbPtr, mem, jumps⟩ =
      some ⟨base, .shell, hartId, dtbPtr, img.uartSetBase base env.uBase (img.dtbSetAddr base
        dtbPtr (img.framed base (env.frames ⟨base, .main, hartId, dtbPtr, mem, jumps⟩) mem)),
        jumps⟩ := by
  rw [step]
  dsimp only
  rw [if_neg h]

theorem loadInt_eq {a : ℕ} {l : List UInt8} (hlen : l.length = 4)
    (h : ∀ k < 4, l[k]? = some (mem (a + k))) :
    loadInt mem a = toInt32 (Nat.ofDigits 256 (l.map UInt8.toNat)) := by
  have hfetch : fetch mem a 4 = l := by
    refine List.ext_getElem? fun k => ?_
    by_cases hk : k < 4
    · rw [getElem?_fetch hk, h k hk]
    · rw [List.getElem?_eq_none (by simp [fetch]; omega), List.getElem?_eq_none (by omega)]
  rw [loadInt, hfetch]

/-- The file ends behind `need_relocated`. -/
theorem needRelocated_lt (img : BootImage) : img.needRelocated + 4 ≤ img.bytes.length := by
  have hlast := (List.getElem?_eq_some_iff.mp (img.initial 3 (by decide))).1
  omega

end BootState

open BootState

/-- What the memory `mem` of a bootloader that was loaded at `base` is in `mem'`: the copy at
`RELOCATE_ADDR` is the file, up to `need_relocated`, which is cleared; its zero-initialized data are
zero, but for the address of the device tree and the base of the UART; and memory outside the two
places, each with its stack, is as it was. -/
structure Relocated (img : BootImage) (board : Board) (base dtbPtr : ℕ) (mem mem' : ℕ → UInt8) :
    Prop where
  copy : ∀ i, (h : i < img.bytes.length) → mem' (board.relocateAddr + i) =
    if img.needRelocated ≤ i ∧ i < img.needRelocated + 4 then 0 else img.bytes[i]
  bss : ∀ i, img.sbss ≤ i → i < img.ebss → i ∉ Endian.span img.gDtbAddr 8 →
    i ∉ Endian.span img.gUartBase 8 → mem' (board.relocateAddr + i) = 0
  dtb : img.dtbGetAddr board.relocateAddr mem' = dtbPtr
  kept : ∀ x, x ∉ Set.Ico base (base + img.codeEnd + stackSize) →
    x ∉ Set.Ico board.relocateAddr (board.relocateAddr + img.codeEnd + stackSize) → mem' x = mem x

/-- **The bootloader moves itself once.**  When the file is loaded at an address whose room for the
bootloader and its stack does not meet that at `RELOCATE_ADDR`, the bootloader jumps there once and
reaches its shell in the copy, with the device tree that it was given; whatever its frames leave on
the stacks. -/
theorem runs_shell {img : BootImage} {board : Board} {base : ℕ} (env : BootEnv)
    (hartId dtbPtr : ℕ) {mem : ℕ → UInt8} (hbase : base + img.codeEnd + stackSize < 2 ^ 63)
    (hapart : BootState.Apart img base board.relocateAddr)
    (hdst : board.relocateAddr + img.codeEnd + stackSize < 2 ^ 63) (hdtb : dtbPtr < 2 ^ 64)
    (hmem : ∀ i, (h : i < img.bytes.length) → mem (base + i) = img.bytes[i]) :
    ∃ mem', Runs img board env (start img base hartId dtbPtr mem)
        ⟨board.relocateAddr, .shell, 0, dtbPtr, mem', 1⟩ ∧
      Relocated img board base dtbPtr mem mem' := by
  have hneed := needRelocated_lt img
  have hlen := img.length_le
  have hsbss := img.sbss_le
  have hebss := img.ebss_le
  have hstart : u64 (base + img.sbss) = base + img.sbss := u64_of_lt (by omega)
  have hbase' : base + img.codeEnd < 2 ^ 63 := by omega
  have hdst' : board.relocateAddr + img.codeEnd < 2 ^ 63 := by omega
  have hprogram : ∀ a i, i < img.codeEnd → a + i ∉ img.stack a := fun a i hi =>
    BootImage.notMem_stack (by omega)
  -- the first pass, in the copy that was loaded
  obtain ⟨mem₁, hrun₁, -, hkeep₁⟩ :=
    runs_initBss board env hartId dtbPtr 0 hbase' 0 mem (by omega)
  set mem₁' := img.framed base (env.frames ⟨base, .main, hartId, dtbPtr, mem₁, 0⟩) mem₁
  have hframed₁ : ∀ x, x ∉ img.stack base → mem₁' x = mem₁ x := fun x hx =>
    BootImage.framed_of_notMem hx
  have hset : loadInt mem₁' (base + img.needRelocated) = 1 := by
    rw [loadInt_eq (l := [1, 0, 0, 0]) rfl]
    · decide
    · intro k hk
      rw [Nat.add_assoc, hframed₁ _ (hprogram _ _ (by omega)), hkeep₁ _ (Or.inl (by omega)),
        hmem _ (by omega)]
      have hinit := img.initial k hk
      rw [List.getElem?_eq_getElem (by omega)] at hinit
      rw [hinit]
      match k, hk with
      | 0, _ => rfl
      | 1, _ => rfl
      | 2, _ => rfl
      | 3, _ => rfl
  -- the copy
  obtain ⟨mem₂, hrun₂, hcopy₂, hkeep₂⟩ :=
    runs_copy env hartId dtbPtr 0 hbase' hdst' hapart 0
      (stored mem₁' (base + img.needRelocated) (List.replicate 4 0)) (by omega)
  -- the second pass, at `RELOCATE_ADDR`
  obtain ⟨mem₃, hrun₃, hzero₃, hkeep₃⟩ :=
    runs_initBss board env 0 dtbPtr 1 hdst' 0 mem₂ (by omega)
  set mem₃' := img.framed board.relocateAddr
    (env.frames ⟨board.relocateAddr, .main, 0, dtbPtr, mem₃, 1⟩) mem₃
  have hframed₃ : ∀ x, x ∉ img.stack board.relocateAddr → mem₃' x = mem₃ x := fun x hx =>
    BootImage.framed_of_notMem hx
  have hclear : ¬ loadInt mem₃' (board.relocateAddr + img.needRelocated) = 1 := by
    rw [loadInt_eq (l := List.replicate 4 0) rfl]
    · decide
    · intro k hk
      rw [Nat.add_assoc, hframed₃ _ (hprogram _ _ (by omega)), hkeep₃ _ (Or.inl (by omega)),
        hcopy₂ _ (Nat.zero_le _) (by omega), ← Nat.add_assoc,
        stored_add (List.getElem?_replicate_of_lt hk), List.getElem?_replicate_of_lt hk]
  -- the two variables lie behind the file
  have hdtbPlace := img.gDtbAddr_mem
  have huartPlace := img.gUartBase_mem
  refine ⟨img.uartSetBase board.relocateAddr env.uBase
    (img.dtbSetAddr board.relocateAddr dtbPtr mem₃'), ?_, ⟨fun i hi => ?_, fun i h1 h2 h3 h4 => ?_,
    BootImage.dtbGetAddr_dtbSetAddr hdtb env.uBase, fun x hx hx' => ?_⟩⟩
  · rw [start, hstart]
    refine Relation.ReflTransGen.trans hrun₁ ?_
    refine Relation.ReflTransGen.head (step_main_of_set hset) ?_
    refine Relation.ReflTransGen.trans hrun₂ ?_
    refine Relation.ReflTransGen.trans hrun₃ ?_
    exact Relation.ReflTransGen.single (step_main_of_clear hclear)
  · rw [BootImage.variables_of_notMem (fun h => by have := h.1; omega)
        fun h => by have := h.1; omega,
      hframed₃ _ (hprogram _ _ (by omega)), hkeep₃ _ (Or.inl (by omega)),
      hcopy₂ i (Nat.zero_le _) (by omega)]
    split_ifs with hin
    · have hi' : base + i = base + img.needRelocated + (i - img.needRelocated) := by omega
      rw [hi']
      exact stored_add (List.getElem?_replicate_of_lt (by omega))
    · rw [stored_of_notMem (by rw [List.length_replicate]; omega),
        hframed₁ _ (hprogram _ _ (by omega)), hkeep₁ _ (Or.inl (by omega)), hmem i hi]
  · rw [BootImage.variables_of_notMem (mt (Endian.add_mem_span _).mp h3)
        (mt (Endian.add_mem_span _).mp h4),
      hframed₃ _ (hprogram _ _ (by omega)), hzero₃ i h1 h2]
  · rw [Set.mem_Ico] at hx hx'
    rw [BootImage.variables_of_outside (by omega),
      hframed₃ x (BootImage.notMem_stack (by omega)), hkeep₃ x (by omega),
      hkeep₂ x (BootImage.notMem_stack (by omega)) (by omega),
      stored_of_notMem (by rw [List.length_replicate]; omega),
      hframed₁ x (BootImage.notMem_stack (by omega)), hkeep₁ x (by omega)]

end Boot
end OscKernel
