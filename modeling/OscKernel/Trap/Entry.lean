import OscKernel.Lib.Rv64

/-!
# The trap vector (`trap_entry.S`)

The save and restore sequences of `trap_entry`, instruction by instruction, and what they do: after
the save sequence the trap frame holds the interrupted registers, and the restore sequences bring
them back.

* `entered_trapEntry`: what `trap_handler` finds.
* `restoreCsrs_eq`, `userTail_eq`, `kernelTail_eq`: what `sret` finds.

The sequences are lists of instructions, and executing one is a fold.  The lemmas do not go through
them one instruction at a time: a block of stores to different slots puts every register into its
slot, and a block of loads brings every slot into its register (`OscKernel.Lib.Rv64`).  What has to
be checked of the lists is that the slots are different and which registers are in them, and that is
decided by evaluation.

The order matters in a few places only: `sp` is saved through `sscratch`, since it has been
exchanged with it, and is restored last.
-/

namespace OscKernel
namespace Trap

open Rv64

/-! ## Registers and offsets -/

/-- The stack pointer. -/
abbrev sp : Reg := 2
/-- The thread pointer. -/
abbrev tp : Reg := 4
/-- A temporary register. -/
abbrev t0 : Reg := 5
/-- A temporary register. -/
abbrev t1 : Reg := 6
/-- A temporary register. -/
abbrev t2 : Reg := 7
/-- The first argument. -/
abbrev a0 : Reg := 10
/-- A temporary register. -/
abbrev t3 : Reg := 28

/-- `TF_SP`. -/
def tfSp : ℕ := 8
/-- `TF_TP`. -/
def tfTp : ℕ := 24
/-- `TF_SEPC`. -/
def tfSepc : ℕ := 248
/-- `TF_SSTATUS`. -/
def tfSstatus : ℕ := 256
/-- `TF_SCAUSE`. -/
def tfScause : ℕ := 264
/-- `TF_STVAL`. -/
def tfStval : ℕ := 272
/-- `TF_SIZE`. -/
def tfSize : ℕ := 280

/-- The registers that the sequences save and restore one by one, with `TF_RA`, `TF_GP`, `TF_TP`
and so on to `TF_T6`; `x2` is handled apart. -/
def gprSlots : List (Reg × ℕ) :=
  [(1, 0), (3, 16), (4, 24), (5, 32), (6, 40), (7, 48), (8, 56), (9, 64), (10, 72), (11, 80),
    (12, 88), (13, 96), (14, 104), (15, 112), (16, 120), (17, 128), (18, 136), (19, 144),
    (20, 152), (21, 160), (22, 168), (23, 176), (24, 184), (25, 192), (26, 200), (27, 208),
    (28, 216), (29, 224), (30, 232), (31, 240)]

/-- The registers that carry the supervisor registers into the frame. -/
def csrSlots : List (Reg × ℕ) :=
  [(t0, tfSepc), (t1, tfSstatus), (t2, tfScause), (t3, tfStval)]

/-! ## The sequences -/

/-- Save the four supervisor registers that describe the trap. -/
def saveCsrs : List Instr :=
  [.csrr t0 .sepc, .csrr t1 .sstatus, .csrr t2 .scause, .csrr t3 .stval] ++ storeAll sp csrSlots

/-- From `beqz` to `call trap_handler` for a trap from U-mode. -/
def userSave : List Instr :=
  .addi sp sp (-tfSize) :: storeAll sp gprSlots ++
    [.csrr t0 .sscratch, .sd t0 tfSp sp, .csrw .sscratch 0] ++ saveCsrs ++
    [.ld tp tfTp sp, .mv a0 sp]

/-- From `.Lfrom_kernel` to `call trap_handler`. -/
def kernelSave : List Instr :=
  .csrrw sp .sscratch sp :: .addi sp sp (-tfSize) :: storeAll sp gprSlots ++
    [.addi t0 sp tfSize, .sd t0 tfSp sp] ++ saveCsrs ++ [.mv a0 sp]

/-- The first four instructions of both restore sequences. -/
def restoreCsrs : List Instr :=
  [.ld t0 tfSepc sp, .ld t1 tfSstatus sp, .csrw .sepc t0, .csrw .sstatus t1]

/-- `trap_return_user` after the first four instructions, up to `sret`. -/
def userTail : List Instr :=
  loadAll sp gprSlots ++ [.ld t0 tfSp sp, .addi sp sp tfSize, .csrw .sscratch sp, .mv sp t0]

/-- The return of `.Lfrom_kernel` after the first four instructions, up to `sret`. -/
def kernelTail : List Instr :=
  loadAll sp gprSlots ++ [.addi sp sp tfSize]

/-- Which of the two halves of the vector handles the trap. -/
inductive Path where
  | user
  | kernel
  deriving DecidableEq

/-- The restore sequence up to `sret`. -/
def restoreTail : Path → List Instr
  | .user => userTail
  | .kernel => kernelTail

/-- `trap_return_user`, and its counterpart for traps from S-mode. -/
def restore (p : Path) : List Instr := restoreCsrs ++ restoreTail p

/-- `trap_entry` up to `call trap_handler`: swap `sp` with `sscratch`, and a zero means that the
trap was taken from S-mode. -/
def trapEntry (c : Cpu) : Path × Cpu :=
  let c := exec c (.csrrw sp .sscratch sp)
  if c.get sp = 0 then (.kernel, execAll c kernelSave) else (.user, execAll c userSave)

/-! ## What the save sequences do -/

/-- `trap_handler` is about to be called with the frame at `p`: the frame holds the registers of
`c`, and `sscratch` says that the kernel is running. -/
structure Entered (c : Cpu) (p : Word) (c' : Cpu) : Prop where
  sp_eq : c'.get sp = p
  a0_eq : c'.get a0 = p
  tp_eq : c'.get tp = c.get tp
  sscratch : c'.csr .sscratch = 0
  gpr : ∀ s ∈ gprSlots, c'.mem (slotAddr p s.2) = c.get s.1
  spSlot : c'.mem (slotAddr p tfSp) = c.get sp
  sepcSlot : c'.mem (slotAddr p tfSepc) = c.csr .sepc
  sstatusSlot : c'.mem (slotAddr p tfSstatus) = c.csr .sstatus
  scauseSlot : c'.mem (slotAddr p tfScause) = c.csr .scause

theorem gprSlots_regs : (gprSlots.map Prod.fst).Nodup ∧ sp ∉ gprSlots.map Prod.fst := by decide

theorem gprSlots_offs : (gprSlots.map Prod.snd).Nodup ∧ (∀ s ∈ gprSlots, s.2 < tfSepc) ∧
    tfSp ∉ gprSlots.map Prod.snd := by decide

theorem mem_gprSlots : ∀ r : Reg, r ≠ 0 → r ≠ sp → ∃ s ∈ gprSlots, s.1 = r := by decide

theorem gprSlots_ne_zero : ∀ s ∈ gprSlots, s.1 ≠ 0 := by decide

section SaveCsrs

variable {c : Cpu}

theorem get_saveCsrs {r : Reg} (hr : r ∉ [t0, t1, t2, t3]) :
    (execAll c saveCsrs).get r = c.get r := by
  simp only [List.mem_cons, List.not_mem_nil, or_false, not_or] at hr
  unfold saveCsrs
  rw [execAll_append, get_execAll_store]
  simp only [execAll_cons, execAll_nil, exec]
  rw [Cpu.get_set_of_ne _ _ _ _ hr.2.2.2, Cpu.get_set_of_ne _ _ _ _ hr.2.2.1,
    Cpu.get_set_of_ne _ _ _ _ hr.2.1, Cpu.get_set_of_ne _ _ _ _ hr.1]

theorem csr_saveCsrs : (execAll c saveCsrs).csr = c.csr := by
  unfold saveCsrs
  rw [execAll_append, csr_execAll_store]
  simp only [execAll_cons, execAll_nil, exec, Cpu.csr_set]

/-- The slots of the four registers. -/
theorem mem_saveCsrs :
    (execAll c saveCsrs).mem (slotAddr (c.get sp) tfSepc) = c.csr .sepc ∧
      (execAll c saveCsrs).mem (slotAddr (c.get sp) tfSstatus) = c.csr .sstatus ∧
      (execAll c saveCsrs).mem (slotAddr (c.get sp) tfScause) = c.csr .scause := by
  unfold saveCsrs
  rw [execAll_append]
  set d := execAll c [.csrr t0 .sepc, .csrr t1 .sstatus, .csrr t2 .scause, .csrr t3 .stval] with hd
  have hsp : d.get sp = c.get sp := by
    simp +decide [hd, exec, Cpu.get_set]
  have hslot : ∀ {s}, s ∈ csrSlots →
      (execAll d (storeAll sp csrSlots)).mem (slotAddr (d.get sp) s.2) = d.get s.1 := fun hs =>
    execAll_store (by decide) (by decide) hs
  rw [← hsp]
  refine ⟨(hslot (s := (t0, tfSepc)) (by decide)).trans ?_,
    (hslot (s := (t1, tfSstatus)) (by decide)).trans ?_,
    (hslot (s := (t2, tfScause)) (by decide)).trans ?_⟩ <;>
  · simp +decide [hd, exec, Cpu.get_set]

/-- The rest of the memory. -/
theorem mem_saveCsrs_of_lt {o : ℕ} (ho : o < tfSepc) :
    (execAll c saveCsrs).mem (slotAddr (c.get sp) o) = c.mem (slotAddr (c.get sp) o) := by
  unfold saveCsrs
  rw [execAll_append]
  set d := execAll c [.csrr t0 .sepc, .csrr t1 .sstatus, .csrr t2 .scause, .csrr t3 .stval] with hd
  have hsp : d.get sp = c.get sp := by
    simp +decide [hd, exec, Cpu.get_set]
  rw [mem_execAll_store_of_notMem]
  · simp [hd, exec]
  · rintro s hs heq
    rw [hsp] at heq
    have hoffs : ∀ s ∈ csrSlots, tfSepc ≤ s.2 ∧ s.2 < 2 ^ 64 := by decide
    have hlt : tfSepc < 2 ^ 64 := by decide
    have := slotAddr_inj (ho.trans hlt) (hoffs s hs).2 heq
    have := (hoffs s hs).1
    omega

end SaveCsrs

/-- Where `trap_entry` puts the frame. -/
def frameBase (c : Cpu) : Path → Word
  | .user => c.csr .sscratch + BitVec.ofInt 64 (-tfSize)
  | .kernel => c.get sp + BitVec.ofInt 64 (-tfSize)

/-- The frame after the registers were stored, `TF_SP` was written and the supervisor registers
were saved. -/
theorem frame_of_saved {c e : Cpu} {p v : Word} (hsp : c.get sp = p) (hesp : e.get sp = p)
    (hmem : e.mem = Function.update (execAll c (storeAll sp gprSlots)).mem (slotAddr p tfSp) v) :
    (∀ s ∈ gprSlots, (execAll e saveCsrs).mem (slotAddr p s.2) = c.get s.1) ∧
      (execAll e saveCsrs).mem (slotAddr p tfSp) = v := by
  have hlt : tfSepc < 2 ^ 64 := by decide
  constructor
  · intro s hs
    have hs' := gprSlots_offs.2.1 s hs
    have hne : slotAddr p s.2 ≠ slotAddr p tfSp := fun heq => by
      have := slotAddr_inj (hs'.trans hlt) (by decide) heq
      exact gprSlots_offs.2.2 (this ▸ List.mem_map_of_mem hs)
    have h := mem_saveCsrs_of_lt (c := e) hs'
    rw [hesp] at h
    rw [h, hmem, Function.update_of_ne hne, ← hsp]
    exact execAll_store (fun s hs => (gprSlots_offs.2.1 s hs).trans hlt) gprSlots_offs.1 hs
  · have h := mem_saveCsrs_of_lt (c := e) (show tfSp < tfSepc by decide)
    rw [hesp] at h
    rw [h, hmem, Function.update_self]

/-- `userSave` by its parts. -/
theorem execAll_userSave (c : Cpu) : execAll c userSave =
    execAll (execAll (execAll (execAll (exec c (.addi sp sp (-tfSize))) (storeAll sp gprSlots))
      [.csrr t0 .sscratch, .sd t0 tfSp sp, .csrw .sscratch 0]) saveCsrs)
      [.ld tp tfTp sp, .mv a0 sp] := by
  rw [userSave, execAll_append, execAll_append, execAll_append, execAll_cons c]

/-- `kernelSave` by its parts. -/
theorem execAll_kernelSave (c : Cpu) : execAll c kernelSave =
    execAll (execAll (execAll (execAll (exec (exec c (.csrrw sp .sscratch sp))
      (.addi sp sp (-tfSize))) (storeAll sp gprSlots)) [.addi t0 sp tfSize, .sd t0 tfSp sp])
      saveCsrs) [.mv a0 sp] := by
  rw [kernelSave, execAll_append, execAll_append, execAll_append, execAll_cons c,
    execAll_cons (exec c _)]

theorem tp_mem_gprSlots : (tp, tfTp) ∈ gprSlots := by decide

/-- Room for the frame below `p`, with the registers of `c`. -/
structure Opened (c : Cpu) (p : Word) (d : Cpu) : Prop where
  sp_eq : d.get sp = p
  get_eq : ∀ r, r ≠ sp → d.get r = c.get r
  csr_eq : ∀ k, k ≠ .sscratch → d.csr k = c.csr k

theorem opened_user (c : Cpu) :
    Opened c (frameBase c .user)
      (exec (exec c (.csrrw sp .sscratch sp)) (.addi sp sp (-tfSize))) := by
  refine ⟨?_, fun r hr => ?_, fun k hk => ?_⟩
  · simp +decide [frameBase, exec, Cpu.get_set]
  · simp [exec, Cpu.get_set, hr]
  · simp [exec, Cpu.setCsr, hk]

theorem opened_kernel (c : Cpu) :
    Opened c (frameBase c .kernel) (exec (exec (exec c (.csrrw sp .sscratch sp))
      (.csrrw sp .sscratch sp)) (.addi sp sp (-tfSize))) := by
  refine ⟨?_, fun r hr => ?_, fun k hk => ?_⟩
  · simp +decide [frameBase, exec, Cpu.get_set]
  · simp [exec, Cpu.get_set, hr]
  · simp [exec, Cpu.setCsr, hk]

/-- The middle of `userSave`: the user's `sp` goes from `sscratch` into the frame, and `sscratch`
becomes zero. -/
theorem mid_user {d : Cpu} {p : Word} (hsp : d.get sp = p) :
    let e := execAll d [.csrr t0 .sscratch, .sd t0 tfSp sp, .csrw .sscratch 0]
    e.get sp = p ∧ e.get tp = d.get tp ∧ e.csr .sscratch = 0 ∧
      (∀ k, k ≠ .sscratch → e.csr k = d.csr k) ∧
      e.mem = Function.update d.mem (slotAddr p tfSp) (d.csr .sscratch) := by
  refine ⟨?_, ?_, ?_, fun k hk => ?_, ?_⟩
  · simp +decide [exec, Cpu.get_set, hsp]
  · simp +decide [exec, Cpu.get_set]
  · simp [exec, Cpu.setCsr, Cpu.get]
  · simp [exec, Cpu.setCsr, hk]
  · simp +decide [exec, Cpu.get_set, hsp, Cpu.store, Cpu.setCsr, slotAddr]

/-- The middle of `kernelSave`: the `sp` before the frame goes into the frame. -/
theorem mid_kernel {d : Cpu} {p : Word} (hsp : d.get sp = p) :
    let e := execAll d [.addi t0 sp tfSize, .sd t0 tfSp sp]
    e.get sp = p ∧ e.get tp = d.get tp ∧ e.csr = d.csr ∧
      e.mem = Function.update d.mem (slotAddr p tfSp) (p + BitVec.ofInt 64 tfSize) := by
  refine ⟨?_, ?_, ?_, ?_⟩
  · simp +decide [exec, Cpu.get_set, hsp]
  · simp +decide [exec, Cpu.get_set]
  · simp [exec]
  · simp +decide [exec, Cpu.get_set, hsp, Cpu.store, slotAddr]

/-- The frame is complete before the call. -/
theorem entered_of_saved {c d e f : Cpu} {p : Word} (hd : Opened c p d) (hesp : e.get sp = p)
    (hscratch : e.csr .sscratch = 0)
    (hecsr : ∀ k, k ≠ .sscratch → e.csr k = d.csr k)
    (hemem : e.mem =
      Function.update (execAll d (storeAll sp gprSlots)).mem (slotAddr p tfSp) (c.get sp))
    (hfget : ∀ r, r ≠ a0 → r ≠ tp → f.get r = (execAll e saveCsrs).get r)
    (ha0 : f.get a0 = p) (htp : f.get tp = c.get tp)
    (hfcsr : f.csr = (execAll e saveCsrs).csr) (hfmem : f.mem = (execAll e saveCsrs).mem) :
    Entered c p f := by
  obtain ⟨hgpr, hspSlot⟩ := frame_of_saved hd.sp_eq hesp hemem
  obtain ⟨hsepc, hsstatus, hscause⟩ := mem_saveCsrs (c := e)
  rw [hesp, ← hfmem] at hsepc hsstatus hscause
  rw [← hfmem] at hgpr hspSlot
  have hcsr : ∀ k, k ≠ .sscratch → e.csr k = c.csr k := fun k hk =>
    (hecsr k hk).trans (hd.csr_eq k hk)
  refine ⟨?_, ha0, htp, ?_, fun s hs => (hgpr s hs).trans (hd.get_eq _ fun heq => ?_), hspSlot,
    hsepc.trans (hcsr _ (by decide)), hsstatus.trans (hcsr _ (by decide)),
    hscause.trans (hcsr _ (by decide))⟩
  · rw [hfget sp (by decide) (by decide), get_saveCsrs (by decide), hesp]
  · rw [hfcsr, csr_saveCsrs, hscratch]
  · exact gprSlots_regs.2 (heq ▸ List.mem_map_of_mem hs)

theorem frameBase_kernel_add (c : Cpu) :
    frameBase c .kernel + BitVec.ofInt 64 tfSize = c.get sp := by
  unfold frameBase
  rw [BitVec.add_assoc, ← BitVec.ofInt_add, Int.add_left_neg]
  exact BitVec.add_zero _

/-- **The save sequence for a trap from U-mode.** -/
theorem entered_userSave (c : Cpu) :
    Entered c (frameBase c .user) (execAll (exec c (.csrrw sp .sscratch sp)) userSave) := by
  rw [execAll_userSave]
  have hd := opened_user c
  have hdscratch : (exec (exec c (.csrrw sp .sscratch sp)) (.addi sp sp (-tfSize))).csr .sscratch =
      c.get sp := by
    simp [exec, Cpu.setCsr]
  generalize hdef : exec (exec c (.csrrw sp .sscratch sp)) (.addi sp sp (-tfSize)) = d
    at hd hdscratch
  clear hdef
  obtain ⟨hesp, hetp, hescratch, hecsr, hemem⟩ := mid_user (d := execAll d (storeAll sp gprSlots))
    ((get_execAll_store d sp).trans hd.sp_eq)
  rw [get_execAll_store] at hetp
  rw [csr_execAll_store] at hecsr hemem
  rw [hdscratch] at hemem
  generalize execAll (execAll d (storeAll sp gprSlots))
    [.csrr t0 .sscratch, .sd t0 tfSp sp, .csrw .sscratch 0] = e at *
  have hgpr := (frame_of_saved hd.sp_eq hesp hemem).1 _ tp_mem_gprSlots
  have hfsp : (execAll e saveCsrs).get sp = frameBase c .user :=
    (get_saveCsrs (by decide)).trans hesp
  refine entered_of_saved hd hesp hescratch hecsr hemem (fun r hr hr' => ?_) ?_ ?_ ?_ ?_
  · simp [exec, Cpu.get_set, hr, hr']
  · simp +decide [exec, Cpu.get_set, hfsp]
  · -- `ld tp, TF_TP(sp)` brings back what `sd x4, TF_TP(sp)` stored
    rw [← hd.get_eq tp (by decide), ← hgpr, ← hfsp]
    simp +decide [exec, Cpu.get_set, slotAddr]
  · simp [exec]
  · simp [exec]

/-- **The save sequence for a trap from S-mode.** -/
theorem entered_kernelSave {c : Cpu} (h0 : c.csr .sscratch = 0) :
    Entered c (frameBase c .kernel) (execAll (exec c (.csrrw sp .sscratch sp)) kernelSave) := by
  rw [execAll_kernelSave]
  have hd := opened_kernel c
  have hdscratch : (exec (exec (exec c (.csrrw sp .sscratch sp)) (.csrrw sp .sscratch sp))
      (.addi sp sp (-tfSize))).csr .sscratch = 0 := by
    simp +decide [exec, Cpu.setCsr, Cpu.get_set, h0]
  generalize hdef : exec (exec (exec c (.csrrw sp .sscratch sp)) (.csrrw sp .sscratch sp))
    (.addi sp sp (-tfSize)) = d at hd hdscratch
  clear hdef
  obtain ⟨hesp, hetp, hecsr, hemem⟩ := mid_kernel (d := execAll d (storeAll sp gprSlots))
    ((get_execAll_store d sp).trans hd.sp_eq)
  rw [get_execAll_store] at hetp
  rw [csr_execAll_store] at hecsr
  rw [frameBase_kernel_add] at hemem
  generalize execAll (execAll d (storeAll sp gprSlots)) [.addi t0 sp tfSize, .sd t0 tfSp sp] =
    e at *
  have hfsp : (execAll e saveCsrs).get sp = frameBase c .kernel :=
    (get_saveCsrs (by decide)).trans hesp
  refine entered_of_saved hd hesp (by rw [hecsr, hdscratch]) (fun k _ => by rw [hecsr]) hemem
    (fun r hr _ => ?_) ?_ ?_ ?_ ?_
  · simp [exec, Cpu.get_set, hr]
  · simp +decide [exec, Cpu.get_set, hfsp]
  · rw [← hd.get_eq tp (by decide), ← hetp, ← get_saveCsrs (c := e) (r := tp) (by decide)]
    simp +decide [exec, Cpu.get_set]
  · simp [exec]
  · simp [exec]

/-- **Trap entry.**  `sscratch` decides the path, and on either path `trap_handler` finds the frame
complete. -/
theorem entered_trapEntry (c : Cpu) :
    ((trapEntry c).1 = .kernel ↔ c.csr .sscratch = 0) ∧
      Entered c (frameBase c (trapEntry c).1) (trapEntry c).2 := by
  have hsp : (exec c (.csrrw sp .sscratch sp)).get sp = c.csr .sscratch := by
    simp +decide [exec, Cpu.get_set]
  unfold trapEntry
  dsimp only
  rw [hsp]
  by_cases h0 : c.csr .sscratch = 0
  · rw [if_pos h0]
    exact ⟨iff_of_true rfl h0, entered_kernelSave h0⟩
  · rw [if_neg h0]
    exact ⟨iff_of_false (by simp) h0, entered_userSave c⟩

/-- The supervisor registers that `saveCsrs` reads. -/
def savedCsrs : List Csr := [.sepc, .sstatus, .scause, .stval]

/-- A save sequence leaves the supervisor registers in the temporaries. -/
theorem get_temporaries {c : Cpu} {pre post : List Instr}
    (hpre : ∀ k ∈ savedCsrs, ∀ i ∈ pre, i.csrTarget ≠ some k)
    (hpost : ∀ r ∈ [t0, t1, t2, t3], ∀ i ∈ post, i.regTarget ≠ some r) :
    let d := execAll c (pre ++ saveCsrs ++ post)
    d.get t0 = c.csr .sepc ∧ d.get t1 = c.csr .sstatus ∧ d.get t2 = c.csr .scause ∧
      d.get t3 = c.csr .stval := by
  have hcsr : ∀ k ∈ savedCsrs, (execAll c pre).csr k = c.csr k := fun k hk =>
    csr_execAll_of_ne (hpre k hk)
  have hreg : ∀ r ∈ [t0, t1, t2, t3], (execAll c (pre ++ saveCsrs ++ post)).get r =
      (execAll (execAll c pre) saveCsrs).get r := fun r hr => by
    rw [execAll_append, execAll_append, get_execAll_of_ne (hpost r hr)]
  dsimp only
  rw [hreg t0 (by decide), hreg t1 (by decide), hreg t2 (by decide), hreg t3 (by decide),
    ← hcsr .sepc (by decide), ← hcsr .sstatus (by decide), ← hcsr .scause (by decide),
    ← hcsr .stval (by decide)]
  unfold saveCsrs
  rw [execAll_append]
  simp +decide [exec, Cpu.get_set]

/-- A save sequence after the first swap. -/
theorem save_regs (c : Cpu) {pre post : List Instr}
    (hother : ∀ r : Reg, r ∉ [sp, tp, a0, t0, t1, t2, t3] →
      ∀ i ∈ pre ++ saveCsrs ++ post, i.regTarget ≠ some r)
    (hpre : ∀ k ∈ savedCsrs, ∀ i ∈ pre, i.csrTarget ≠ some k)
    (hpost : ∀ r ∈ [t0, t1, t2, t3], ∀ i ∈ post, i.regTarget ≠ some r)
    (hstatus : ∀ i ∈ pre ++ saveCsrs ++ post, i.csrTarget ≠ some .sstatus) :
    let d := execAll (exec c (.csrrw sp .sscratch sp)) (pre ++ saveCsrs ++ post)
    (∀ r, r ∉ [sp, tp, a0, t0, t1, t2, t3] → d.get r = c.get r) ∧
      d.get t0 = c.csr .sepc ∧ d.get t1 = c.csr .sstatus ∧ d.get t2 = c.csr .scause ∧
      d.get t3 = c.csr .stval ∧ d.csr .sstatus = c.csr .sstatus := by
  have hswap : ∀ k, k ≠ .sscratch → (exec c (.csrrw sp .sscratch sp)).csr k = c.csr k :=
    fun k hk => csr_exec_of_ne fun heq => hk (Option.some.inj heq).symm
  obtain ⟨h0, h1, h2, h3⟩ := get_temporaries (c := exec c (.csrrw sp .sscratch sp)) hpre hpost
  refine ⟨fun r hr => ?_, h0.trans (hswap _ (by decide)), h1.trans (hswap _ (by decide)),
    h2.trans (hswap _ (by decide)), h3.trans (hswap _ (by decide)),
    (csr_execAll_of_ne hstatus).trans (hswap _ (by decide))⟩
  rw [get_execAll_of_ne (hother r hr)]
  exact get_exec_of_ne fun heq => hr (Option.some.inj heq ▸ List.mem_cons_self)

/-- **The registers that `trap_handler` is called with**, beside those of `Entered`. -/
theorem trapEntry_regs (c : Cpu) :
    let d := (trapEntry c).2
    (∀ r, r ∉ [sp, tp, a0, t0, t1, t2, t3] → d.get r = c.get r) ∧
      d.get t0 = c.csr .sepc ∧ d.get t1 = c.csr .sstatus ∧ d.get t2 = c.csr .scause ∧
      d.get t3 = c.csr .stval ∧ d.csr .sstatus = c.csr .sstatus := by
  unfold trapEntry
  dsimp only
  split_ifs
  · exact save_regs c (by decide) (by decide) (by decide) (by decide)
  · exact save_regs c (by decide) (by decide) (by decide) (by decide)

/-- Once there is room for the frame, a save sequence writes nothing else. -/
theorem mem_saved {c d : Cpu} {p a : Word} (is : List Instr) (hd : Opened c p d)
    (his : ∀ i ∈ is, i.regTarget ≠ some sp ∧ i.storesBelow sp tfSize = true)
    (ha : ∀ o < tfSize, a ≠ slotAddr p o) : (execAll d is).mem a = d.mem a :=
  mem_execAll_of_storesBelow his (by rwa [hd.sp_eq])

/-- **`trap_entry` writes nothing but the frame.** -/
theorem mem_trapEntry {c : Cpu} {a : Word}
    (ha : ∀ o < tfSize, a ≠ slotAddr (frameBase c (trapEntry c).1) o) :
    (trapEntry c).2.mem a = c.mem a := by
  unfold trapEntry at ha ⊢
  dsimp only at ha ⊢
  split_ifs at ha ⊢
  · have hsave := mem_saved (kernelSave.drop 2) (opened_kernel c) (by decide) ha
    exact hsave.trans (by simp [exec])
  · have hsave := mem_saved (userSave.drop 1) (opened_user c) (by decide) ha
    exact hsave.trans (by simp [exec])

/-! ## What the restore sequences do -/

/-- After the first four instructions `sepc` and `sstatus` are those of the frame. -/
theorem restoreCsrs_eq {c : Cpu} {p : Word} (hsp : c.get sp = p) :
    let d := execAll c restoreCsrs
    d.csr .sepc = c.mem (slotAddr p tfSepc) ∧ d.csr .sstatus = c.mem (slotAddr p tfSstatus) ∧
      d.csr .sscratch = c.csr .sscratch ∧ d.get sp = p ∧ d.mem = c.mem := by
  refine ⟨?_, ?_, ?_, ?_, ?_⟩
  · simp +decide [restoreCsrs, exec, Cpu.csr_setCsr_of_ne, Cpu.get_set, hsp, slotAddr]
  · simp +decide [restoreCsrs, exec, Cpu.get_set, hsp, slotAddr]
  · simp +decide [restoreCsrs, exec, Cpu.setCsr]
  · simp +decide [restoreCsrs, exec, Cpu.get_set, hsp]
  · simp [restoreCsrs, exec]

/-- The loads bring the registers back from the frame. -/
theorem get_loadGprs {c : Cpu} {p : Word} (hsp : c.get sp = p) :
    (∀ s ∈ gprSlots, (execAll c (loadAll sp gprSlots)).get s.1 = c.mem (slotAddr p s.2)) ∧
      (execAll c (loadAll sp gprSlots)).get sp = p :=
  ⟨fun s hs => hsp ▸ execAll_load gprSlots_regs.2 gprSlots_regs.1 hs (gprSlots_ne_zero s hs),
    (execAll_load_others gprSlots_regs.2).trans hsp⟩

/-- **The return to S-mode** brings back every register. -/
theorem kernelTail_eq {c : Cpu} {p : Word} (hsp : c.get sp = p) :
    let d := execAll c kernelTail
    (∀ s ∈ gprSlots, d.get s.1 = c.mem (slotAddr p s.2)) ∧
      d.get sp = p + BitVec.ofInt 64 tfSize ∧ d.csr = c.csr ∧ d.mem = c.mem := by
  obtain ⟨hgpr, hsp'⟩ := get_loadGprs hsp
  have hrun : execAll c kernelTail =
      exec (execAll c (loadAll sp gprSlots)) (.addi sp sp tfSize) := by
    rw [kernelTail, execAll_append]
    rfl
  dsimp only
  rw [hrun]
  refine ⟨fun s hs => ?_, ?_, ?_, ?_⟩
  · rw [exec, Cpu.get_set_of_ne, hgpr s hs]
    exact fun heq => gprSlots_regs.2 (heq ▸ List.mem_map_of_mem hs)
  · rw [exec, Cpu.get_set_self _ _ _ (by decide), hsp']
  · rw [exec, Cpu.csr_set, csr_execAll_load]
  · rw [exec, Cpu.mem_set, mem_execAll_load]

/-- **The return to U-mode** brings back every register but `t0`, which ends with the user's
`sp`. -/
theorem userTail_eq {c : Cpu} {p : Word} (hsp : c.get sp = p) :
    let d := execAll c userTail
    (∀ s ∈ gprSlots, s.1 ≠ t0 → d.get s.1 = c.mem (slotAddr p s.2)) ∧
      d.get t0 = c.mem (slotAddr p tfSp) ∧ d.get sp = c.mem (slotAddr p tfSp) ∧
      d.csr .sscratch = p + BitVec.ofInt 64 tfSize ∧
      (∀ k, k ≠ .sscratch → d.csr k = c.csr k) ∧ d.mem = c.mem := by
  obtain ⟨hgpr, hsp'⟩ := get_loadGprs hsp
  have hmem : (execAll c (loadAll sp gprSlots)).mem = c.mem := mem_execAll_load c
  have hcsr : (execAll c (loadAll sp gprSlots)).csr = c.csr := csr_execAll_load c
  dsimp only
  rw [userTail, execAll_append]
  generalize execAll c (loadAll sp gprSlots) = e at hgpr hsp' hmem hcsr
  refine ⟨fun s hs hne => ?_, ?_, ?_, ?_, fun k hk => ?_, ?_⟩
  · have hs' : s.1 ≠ sp := fun heq => gprSlots_regs.2 (heq ▸ List.mem_map_of_mem hs)
    rw [← hgpr s hs]
    simp [exec, Cpu.get_set, hne, hs']
  · simp +decide [exec, Cpu.get_set, hsp', hmem, slotAddr]
  · simp +decide [exec, Cpu.get_set, hsp', hmem, slotAddr]
  · simp +decide [exec, Cpu.get_set, hsp', Cpu.setCsr]
  · simp [exec, Cpu.setCsr, hk, hcsr]
  · simp [exec, hmem]

end Trap
end OscKernel
