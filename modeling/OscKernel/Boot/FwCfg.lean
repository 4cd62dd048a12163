import OscKernel.Boot.Display
import OscKernel.Lib.Endian
import Mathlib.Order.Filter.AtTopBot.Basic
import Mathlib.Tactic.IntervalCases

/-!
# The registration of the framebuffer (`video.c`)

`video_init` asks the configuration device of QEMU for the entry of `etc/ramfb` and writes the
description of the framebuffer to it.  Every request is a descriptor in memory, with its bytes in
the order of the device; the kernel stores its address into a register and waits until the device
has cleared the control word.

The device is not part of the kernel.  It is a parameter, and `Serves` says what the kernel relies
on: that a posted request is completed after some time, and what reading and writing do.

* `videoInit`: the code.
* `find_stream`: the directory is read in order, up to the entry that is looked for.
* `registered_of_directory`: what the device holds after `video_init`, for every directory.

## What is assumed

The locals of the functions lie in the memory that the device serves (`Frame.locals`), and the
device writes nothing but the buffer of a request and its control word.  How long it takes is not
bounded: the loop that waits is given fuel, and the theorem is about all large enough amounts of it.
The directory may hold fewer than `2^32` entries, which is what its count can say.

A device need not take what is written to `etc/ramfb`: the entry has to be writable and at least as
long as the description (`TakesRamfb`).  Where it is not, nothing changes in the device, and the
kernel does not notice, since it does not look at the error bit of the control word.
-/

namespace OscKernel
namespace FwCfg

open Endian Filter

/-! ## The code -/

/-- `bswap16`. -/
def bswap16 (x : BitVec 16) : BitVec 16 := x >>> 8 ||| x <<< 8

/-- `bswap32`. -/
def bswap32 (x : BitVec 32) : BitVec 32 :=
  (x &&& 0x000000ff) <<< 24 ||| (x &&& 0x0000ff00) <<< 8 ||| (x &&& 0x00ff0000) >>> 8 |||
    (x &&& 0xff000000) >>> 24

/-- `bswap64`. -/
def bswap64 (x : BitVec 64) : BitVec 64 :=
  (bswap32 (x.setWidth 32)).setWidth 64 <<< 32 ||| (bswap32 ((x >>> 32).setWidth 32)).setWidth 64

/-- `XRGB8888`. -/
def xrgb8888 : BitVec 32 := 875713112

/-- `FW_CFG_DMA_CTL_ERROR`. -/
def dmaCtlError : BitVec 32 := 0x01

/-- `FW_CFG_DMA_CTL_READ`. -/
def dmaCtlRead : BitVec 32 := 0x02

/-- `FW_CFG_DMA_CTL_SELECT`. -/
def dmaCtlSelect : BitVec 32 := 0x08

/-- `FW_CFG_DMA_CTL_WRITE`. -/
def dmaCtlWrite : BitVec 32 := 0x10

/-- `FW_CFG_FILE_DIR`. -/
def fileDir : ℤ := 0x19

/-- `"etc/ramfb"`. -/
def etcRamfb : List UInt8 := [0x65, 0x74, 0x63, 0x2f, 0x72, 0x61, 0x6d, 0x66, 0x62]

/-- `struct RAMFBCfg`. -/
structure RAMFBCfg where
  addr : BitVec 64
  fourcc : BitVec 32
  flags : BitVec 32
  width : BitVec 32
  height : BitVec 32
  stride : BitVec 32

/-- `struct FWCfgDmaAccess`. -/
structure FWCfgDmaAccess where
  control : BitVec 32
  length : BitVec 32
  address : BitVec 64

/-- The bytes of a `struct RAMFBCfg`. -/
def RAMFBCfg.bytes (c : RAMFBCfg) : List UInt8 :=
  toLE 8 c.addr ++ (toLE 4 c.fourcc ++ (toLE 4 c.flags ++ (toLE 4 c.width ++
    (toLE 4 c.height ++ toLE 4 c.stride))))

/-- The bytes of a `struct FWCfgDmaAccess`. -/
def FWCfgDmaAccess.bytes (c : FWCfgDmaAccess) : List UInt8 :=
  toLE 4 c.control ++ (toLE 4 c.length ++ toLE 8 c.address)

/-- The memory, and the state of the device. -/
structure World (σ : Type*) where
  mem : ℕ → UInt8
  dev : σ

/-- The device: what a store to `FW_CFG_DMA` does, and what the device does while the kernel waits.
-/
structure Device (σ : Type*) where
  dma : BitVec 64 → World σ → World σ
  run : World σ → World σ

/-- Where the locals of the driver are: `cfg`, `count`, `file` and `access`. -/
structure Frame where
  cfg : ℕ
  count : ℕ
  file : ℕ
  access : ℕ
  cfg_lt : cfg < 2 ^ 64
  count_lt : count < 2 ^ 64
  file_lt : file < 2 ^ 64
  access_lt : access < 2 ^ 64
  cfg_count : Disjoint (span cfg 28) (span count 4)
  cfg_file : Disjoint (span cfg 28) (span file 64)
  cfg_access : Disjoint (span cfg 28) (span access 16)
  count_access : Disjoint (span count 4) (span access 16)
  file_access : Disjoint (span file 64) (span access 16)

/-- The addresses of the locals. -/
def Frame.locals (fr : Frame) : Set ℕ :=
  span fr.cfg 28 ∪ span fr.count 4 ∪ span fr.file 64 ∪ span fr.access 16

/-- `mem_ncmp`, with the bytes that there are at either address. -/
def memNcmp : ℕ → List UInt8 → List UInt8 → Option ℤ
  | 0, _, _ => some 0
  | n + 1, ca :: a, cb :: b =>
      if ca ≠ cb then some (ca.toNat - cb.toNat)
      else if ca = 0 then some 0 else memNcmp n a b
  | _ + 1, _, _ => none

section Driver

variable {σ : Type*} (d : Device σ) (fr : Frame) (fuel : ℕ)

/-- `while (bswap32(access.control) & ~FW_CFG_DMA_CTL_ERROR);`. -/
def waitDone (access : ℕ) : ℕ → World σ → Option (World σ)
  | 0, _ => none
  | fuel + 1, w =>
      if bswap32 (ofLE 32 (load w.mem access 4)) &&& ~~~dmaCtlError ≠ 0 then
        waitDone access fuel (d.run w)
      else some w

/-- `fw_cfg_dma_transfer`. -/
def fwCfgDmaTransfer (address : ℕ) (length control : BitVec 32) (w : World σ) :
    Option (World σ) :=
  let access : FWCfgDmaAccess :=
    { control := bswap32 control
      length := bswap32 length
      address := bswap64 (BitVec.ofNat 64 address) }
  let w := { w with mem := store w.mem fr.access access.bytes }
  waitDone d fr.access fuel (d.dma (bswap64 (BitVec.ofNat 64 fr.access)) w)

/-- `fw_cfg_read_entry`. -/
def fwCfgReadEntry (buf : ℕ) (e : ℤ) (len : BitVec 32) (w : World σ) : Option (World σ) :=
  fwCfgDmaTransfer d fr fuel buf len (BitVec.ofInt 32 e <<< 16 ||| dmaCtlSelect ||| dmaCtlRead) w

/-- `fw_cfg_write_entry`. -/
def fwCfgWriteEntry (buf : ℕ) (e : ℤ) (len : BitVec 32) (w : World σ) : Option (World σ) :=
  fwCfgDmaTransfer d fr fuel buf len (BitVec.ofInt 32 e <<< 16 ||| dmaCtlSelect ||| dmaCtlWrite) w

/-- The loop of `fw_cfg_find_file`, with the number of entries that are left. -/
def findLoop (name : List UInt8) : ℕ → World σ → Option (ℤ × World σ)
  | 0, w => some (-1, w)
  | n + 1, w =>
      (fwCfgDmaTransfer d fr fuel fr.file 64 dmaCtlRead w).bind fun w =>
      (memNcmp 56 (name ++ [0]) (load w.mem (fr.file + 8) 56)).bind fun c =>
      if c = 0 then some ((bswap16 (ofLE 16 (load w.mem (fr.file + 4) 2))).toNat, w)
      else findLoop name n w

/-- `fw_cfg_find_file`. -/
def fwCfgFindFile (name : List UInt8) (w : World σ) : Option (ℤ × World σ) :=
  let w := { w with mem := store w.mem fr.count (toLE 4 (0 : BitVec 32)) }
  (fwCfgReadEntry d fr fuel fr.count fileDir 4 w).bind fun w =>
  let count := bswap32 (ofLE 32 (load w.mem fr.count 4))
  let w := { w with mem := store w.mem fr.count (toLE 4 count) }
  findLoop d fr fuel name count.toNat w

/-- `video_init` of the QEMU build. -/
def videoInit (w : World σ) : Option (World σ) :=
  let cfg : RAMFBCfg :=
    { addr := bswap64 (BitVec.ofNat 64 fbBase)
      fourcc := bswap32 xrgb8888
      flags := bswap32 0
      width := bswap32 (BitVec.ofNat 32 fbWidth)
      height := bswap32 (BitVec.ofNat 32 fbHeight)
      stride := bswap32 (BitVec.ofNat 32 (fbWidth * 4)) }
  let w := { w with mem := store w.mem fr.cfg cfg.bytes }
  (fwCfgFindFile d fr fuel etcRamfb w).bind fun r =>
  if r.1 < 0 then some r.2 else fwCfgWriteEntry d fr fuel fr.cfg r.1 28 r.2

end Driver

/-! ## The device -/

/-- The entry of a selector: bit 14 is not part of it. -/
def entry (key : BitVec 16) : BitVec 16 := key &&& 0xBFFF

/-- What the device holds: the bytes of every entry, which of them can be written, the entry that is
selected, and the position in it. -/
structure Items where
  data : BitVec 16 → List UInt8
  writable : BitVec 16 → Bool
  key : BitVec 16
  offset : ℕ

/-- The selection that a control word asks for. -/
def Items.select (s : Items) (control : BitVec 32) : Items :=
  if control &&& dmaCtlSelect ≠ 0 then
    { s with key := entry ((control >>> 16).setWidth 16), offset := 0 }
  else s

/-- Reading `n` bytes gives `l`: what is left of the entry, and zeros after its end. -/
structure Items.Reads (s s' : Items) (n : ℕ) (l : List UInt8) : Prop where
  data : s'.data = s.data
  writable : s'.writable = s.writable
  key : s'.key = s.key
  offset : s.offset + n ≤ (s.data s.key).length → s'.offset = s.offset + n
  bytes : l = (((s.data s.key).drop s.offset).take n).rightpad n 0

/-- A write of `n` bytes is accepted. -/
def Items.Accepts (s : Items) (n : ℕ) : Prop :=
  s.writable s.key = true ∧ s.offset + n ≤ (s.data s.key).length

instance (s : Items) (n : ℕ) : Decidable (s.Accepts n) :=
  inferInstanceAs (Decidable (_ ∧ _))

/-- The bytes `l` over those of `old` at the position `i`. -/
def overwrite (old : List UInt8) (i : ℕ) (l : List UInt8) : List UInt8 :=
  old.take i ++ l ++ old.drop (i + l.length)

/-- Writing the bytes `l` ends with the given status. -/
structure Items.Writes (s s' : Items) (l : List UInt8) (status : BitVec 32) : Prop where
  data : s'.data = if s.Accepts l.length then
    Function.update s.data s.key (overwrite (s.data s.key) s.offset l) else s.data
  status : status = if s.Accepts l.length then 0 else dmaCtlError

section Device

variable {σ : Type*}

/-- A request is posted: its descriptor is at `a`, in the order of the device, and apart from the
buffer.  Both are in `ram`. -/
structure Posted (ram : Set ℕ) (w : World σ) (a : ℕ) (control length : BitVec 32)
    (address : BitVec 64) : Prop where
  descriptor : load w.mem a 16 = toBE 4 control ++ (toBE 4 length ++ toBE 8 address)
  apart : Disjoint (span address.toNat length.toNat) (span a 16)
  descriptor_ram : span a 16 ⊆ ram
  buffer_ram : span address.toNat length.toNat ⊆ ram

/-- The device leaves the control word of the request at `a` alone until it has arrived at `w'`. -/
def Completes (d : Device σ) (a : ℕ) (control : BitVec 32) (w w' : World σ) : Prop :=
  ∃ n, d.run^[n] w = w' ∧ ∀ k < n, load (d.run^[k] w).mem a 4 = toBE 4 control

/-- **What the kernel relies on.**  A request whose address is in the register is completed: the
buffer has what was read, or the entry has what was written, and the control word is the status. -/
structure Serves (ram : Set ℕ) (d : Device σ) (view : σ → Items) : Prop where
  read : ∀ (w : World σ) (a control length address : _),
    Posted ram w a.toNat control length address → control &&& dmaCtlRead ≠ 0 →
    ∃ w' l, Completes d a.toNat control (d.dma (bswap64 a) w) w' ∧
      ((view w.dev).select control).Reads (view w'.dev) length.toNat l ∧
      w'.mem = store (store w.mem address.toNat l) a.toNat (toBE 4 (0 : BitVec 32))
  write : ∀ (w : World σ) (a control length address : _),
    Posted ram w a.toNat control length address →
    control &&& dmaCtlRead = 0 → control &&& dmaCtlWrite ≠ 0 →
    ∃ w' status, Completes d a.toNat control (d.dma (bswap64 a) w) w' ∧
      ((view w.dev).select control).Writes (view w'.dev)
        (load w.mem address.toNat length.toNat) status ∧
      w'.mem = store w.mem a.toNat (toBE 4 status)

end Device

/-- `struct FWCfgFile`, as the device has it. -/
structure FWCfgFile where
  size : BitVec 32
  select : BitVec 16
  reserved : BitVec 16
  name : List UInt8
  length_name : name.length = 56

/-- The bytes of an entry of the directory. -/
def FWCfgFile.bytes (f : FWCfgFile) : List UInt8 :=
  toBE 4 f.size ++ (toBE 2 f.select ++ (toBE 2 f.reserved ++ f.name))

/-- The file has the given name. -/
def FWCfgFile.named (name : List UInt8) (f : FWCfgFile) : Bool := (name ++ [0]).isPrefixOf f.name

/-- The directory. -/
def directory (files : List FWCfgFile) : List UInt8 :=
  toBE 4 (BitVec.ofNat 32 files.length) ++ files.flatMap FWCfgFile.bytes

/-! ## Bytes of either order -/

section Swap

theorem getLsbD_bswap32 (x : BitVec 32) {k : ℕ} (hk : k < 32) :
    (bswap32 x).getLsbD k = x.getLsbD (8 * (4 - 1 - k / 8) + k % 8) := by
  interval_cases k <;> simp [bswap32]

theorem getLsbD_bswap64 (x : BitVec 64) {k : ℕ} (hk : k < 64) :
    (bswap64 x).getLsbD k = x.getLsbD (8 * (8 - 1 - k / 8) + k % 8) := by
  rw [bswap64, BitVec.getLsbD_or, BitVec.getLsbD_shiftLeft, BitVec.getLsbD_setWidth,
    BitVec.getLsbD_setWidth]
  by_cases hlow : k < 32
  · have hlt : 8 * (4 - 1 - k / 8) + k % 8 < 32 := by omega
    have heq : 32 + (8 * (4 - 1 - k / 8) + k % 8) = 8 * (8 - 1 - k / 8) + k % 8 := by omega
    rw [getLsbD_bswap32 _ hlow, BitVec.getLsbD_setWidth, BitVec.getLsbD_ushiftRight, heq]
    simp [hlow, hk, hlt]
  · have hlt : 8 * (8 - 1 - k / 8) + k % 8 < 32 := by omega
    have heq : 8 * (4 - 1 - (k - 32) / 8) + (k - 32) % 8 = 8 * (8 - 1 - k / 8) + k % 8 := by omega
    have hsub : k - 32 < 64 := by omega
    rw [getLsbD_bswap32 _ (by omega : k - 32 < 32), BitVec.getLsbD_setWidth, heq,
      BitVec.getLsbD_of_ge _ k (by omega)]
    simp [hlow, hk, hlt, hsub]

theorem toLE_bswap16 (x : BitVec 16) : toLE 2 (bswap16 x) = toBE 2 x := by
  refine (toBE_eq_toLE fun k hk => ?_).symm
  interval_cases k <;> simp [bswap16]

theorem toLE_bswap32 (x : BitVec 32) : toLE 4 (bswap32 x) = toBE 4 x :=
  (toBE_eq_toLE fun _ hk => getLsbD_bswap32 x hk).symm

theorem toLE_bswap64 (x : BitVec 64) : toLE 8 (bswap64 x) = toBE 8 x :=
  (toBE_eq_toLE fun _ hk => getLsbD_bswap64 x hk).symm

theorem bswap16_ofLE (x : BitVec 16) : bswap16 (ofLE 16 (toBE 2 x)) = x := by
  rw [← toLE_bswap16, ofLE_toLE (n := 2)]
  ext k hk
  rw [← BitVec.getLsbD_eq_getElem, ← BitVec.getLsbD_eq_getElem]
  interval_cases k <;> simp [bswap16]

theorem bswap32_ofLE (x : BitVec 32) : bswap32 (ofLE 32 (toBE 4 x)) = x := by
  rw [← toLE_bswap32, ofLE_toLE (n := 4)]
  ext k hk
  have hlt : 8 * (4 - 1 - k / 8) + k % 8 < 32 := by omega
  have heq : 8 * (4 - 1 - (8 * (4 - 1 - k / 8) + k % 8) / 8) +
      (8 * (4 - 1 - k / 8) + k % 8) % 8 = k := by omega
  rw [← BitVec.getLsbD_eq_getElem, ← BitVec.getLsbD_eq_getElem, getLsbD_bswap32 _ hk,
    getLsbD_bswap32 _ hlt, heq]

theorem bswap64_bswap64 (x : BitVec 64) : bswap64 (bswap64 x) = x := by
  ext k hk
  have hlt : 8 * (8 - 1 - k / 8) + k % 8 < 64 := by omega
  have heq : 8 * (8 - 1 - (8 * (8 - 1 - k / 8) + k % 8) / 8) +
      (8 * (8 - 1 - k / 8) + k % 8) % 8 = k := by omega
  rw [← BitVec.getLsbD_eq_getElem, ← BitVec.getLsbD_eq_getElem, getLsbD_bswap64 _ hk,
    getLsbD_bswap64 _ hlt, heq]

/-- The descriptor, in the order of the device. -/
theorem bytes_swapped (control length : BitVec 32) (address : BitVec 64) :
    FWCfgDmaAccess.bytes ⟨bswap32 control, bswap32 length, bswap64 address⟩ =
      toBE 4 control ++ (toBE 4 length ++ toBE 8 address) := by
  rw [FWCfgDmaAccess.bytes, toLE_bswap32, toLE_bswap32, toLE_bswap64]

end Swap

/-! ## One request -/

section Request

variable {σ : Type*} {d : Device σ} {view : σ → Items} {ram : Set ℕ} {fr : Frame} {w w' : World σ}
  {a buf : ℕ} {control length : BitVec 32}

/-- **The kernel waits** until the request is completed. -/
theorem waitDone_of_completes {status : BitVec 32} (h : Completes d a control w w')
    (hbusy : control &&& ~~~dmaCtlError ≠ 0) (hload : load w'.mem a 4 = toBE 4 status)
    (hstatus : status &&& ~~~dmaCtlError = 0) :
    ∀ᶠ fuel in atTop, waitDone d a fuel w = some w' := by
  obtain ⟨n, hrun, hwait⟩ := h
  refine eventually_atTop.mpr ⟨n + 1, fun fuel hfuel => ?_⟩
  induction n generalizing w fuel with
  | zero =>
    obtain ⟨fuel, rfl⟩ := Nat.exists_eq_add_of_le' hfuel
    obtain rfl : w = w' := hrun
    rw [Nat.zero_add, waitDone, hload, bswap32_ofLE, if_neg (not_not.mpr hstatus)]
  | succ n ih =>
    obtain ⟨fuel, rfl⟩ := Nat.exists_eq_succ_of_ne_zero (Nat.ne_of_gt (Nat.zero_lt_of_lt hfuel))
    have hfirst : load w.mem a 4 = toBE 4 control := hwait 0 (Nat.succ_pos n)
    rw [waitDone, hfirst, bswap32_ofLE, if_pos hbusy]
    refine ih hrun (fun k hk => ?_) fuel (Nat.le_of_succ_le_succ hfuel)
    exact hwait (k + 1) (Nat.succ_lt_succ hk)

/-- The world when the address of the descriptor is stored into the register. -/
def post (fr : Frame) (buf : ℕ) (control length : BitVec 32) (w : World σ) : World σ where
  mem := store w.mem fr.access (toBE 4 control ++ (toBE 4 length ++ toBE 8 (BitVec.ofNat 64 buf)))
  dev := w.dev

theorem fwCfgDmaTransfer_eq (fuel : ℕ) : fwCfgDmaTransfer d fr fuel buf length control w =
    waitDone d fr.access fuel
      (d.dma (bswap64 (BitVec.ofNat 64 fr.access)) (post fr buf control length w)) := by
  rw [fwCfgDmaTransfer, post, bytes_swapped]

theorem toNat_ofNat_of_lt (h : a < 2 ^ 64) : (BitVec.ofNat 64 a).toNat = a := by
  rw [BitVec.toNat_ofNat, Nat.mod_eq_of_lt h]

/-- The buffer of a request: in memory, and apart from the descriptor. -/
structure Buffer (ram : Set ℕ) (fr : Frame) (buf : ℕ) (length : BitVec 32) : Prop where
  lt : buf < 2 ^ 64
  buffer_ram : span buf length.toNat ⊆ ram
  access_ram : span fr.access 16 ⊆ ram
  apart : Disjoint (span buf length.toNat) (span fr.access 16)

theorem Buffer.posted (h : Buffer ram fr buf length) :
    Posted ram (post fr buf control length w) (BitVec.ofNat 64 fr.access).toNat control length
      (BitVec.ofNat 64 buf) := by
  have haccess := toNat_ofNat_of_lt fr.access_lt
  have hbuf := toNat_ofNat_of_lt h.lt
  refine ⟨?_, ?_, ?_, ?_⟩
  · rw [haccess]
    have hload : load (post fr buf control length w).mem fr.access _ = _ :=
      load_store w.mem fr.access (toBE 4 control ++ (toBE 4 length ++ toBE 8 (BitVec.ofNat 64 buf)))
    simpa using hload
  · rw [haccess, hbuf]
    exact h.apart
  · rw [haccess]
    exact h.access_ram
  · rw [hbuf]
    exact h.buffer_ram

/-- The descriptor is all that is written before the device acts. -/
theorem post_mem {x : ℕ} (hx : x ∉ span fr.access 16) : (post fr buf control length w).mem x =
    w.mem x := by
  refine store_of_notMem ?_
  simpa using hx

theorem length_reads {s s' : Items} {n : ℕ} {l : List UInt8} (h : s.Reads s' n l) :
    l.length = n := by
  rw [h.bytes]
  simp

/-- **A request to read** ends with what was read in the buffer. -/
theorem transfer_read (hd : Serves ram d view) (hbuf : Buffer ram fr buf length)
    (hread : control &&& dmaCtlRead ≠ 0) (hbusy : control &&& ~~~dmaCtlError ≠ 0) :
    ∃ w', (∀ᶠ fuel in atTop, fwCfgDmaTransfer d fr fuel buf length control w = some w') ∧
      ((view w.dev).select control).Reads (view w'.dev) length.toNat
        (load w'.mem buf length.toNat) ∧
      ∀ x, x ∉ span buf length.toNat → x ∉ span fr.access 16 → w'.mem x = w.mem x := by
  obtain ⟨w', l, hdone, hreads, hmem⟩ :=
    hd.read _ (BitVec.ofNat 64 fr.access) control length _ (hbuf.posted (w := w)) hread
  have hlen := length_reads hreads
  rw [toNat_ofNat_of_lt fr.access_lt, toNat_ofNat_of_lt hbuf.lt] at hmem
  rw [toNat_ofNat_of_lt fr.access_lt] at hdone
  have hstatus : load w'.mem fr.access 4 = toBE 4 (0 : BitVec 32) := by
    have hload := load_store (store (post fr buf control length w).mem buf l) fr.access
      (toBE 4 (0 : BitVec 32))
    rwa [length_toBE, ← hmem] at hload
  have hspan : span fr.access 4 ⊆ span fr.access 16 := Set.Ico_subset_Ico_right (by omega)
  have hloaded : load w'.mem buf length.toNat = l := by
    have hload := load_store (post fr buf control length w).mem buf l
    rw [hmem, load_store_of_disjoint, ← hlen, hload]
    rw [length_toBE]
    exact hbuf.apart.mono_right hspan
  refine ⟨w', ?_, ?_, ?_⟩
  · simp only [fwCfgDmaTransfer_eq]
    exact waitDone_of_completes hdone hbusy hstatus (by decide)
  · rw [hloaded]
    exact hreads
  · intro x hx hx'
    rw [hmem, store_of_notMem, store_of_notMem, post_mem hx']
    · rwa [hlen]
    · rw [length_toBE]
      exact fun hx4 => hx' (hspan hx4)

/-- **A request to write** ends with the buffer in the entry, or with nothing written. -/
theorem transfer_write (hd : Serves ram d view) (hbuf : Buffer ram fr buf length)
    (hread : control &&& dmaCtlRead = 0) (hwrite : control &&& dmaCtlWrite ≠ 0)
    (hbusy : control &&& ~~~dmaCtlError ≠ 0) :
    ∃ w' status, (∀ᶠ fuel in atTop, fwCfgDmaTransfer d fr fuel buf length control w = some w') ∧
      ((view w.dev).select control).Writes (view w'.dev) (load w.mem buf length.toNat) status ∧
      ∀ x ∉ span fr.access 16, w'.mem x = w.mem x := by
  obtain ⟨w', status, hdone, hwrites, hmem⟩ :=
    hd.write _ (BitVec.ofNat 64 fr.access) control length _ (hbuf.posted (w := w)) hread hwrite
  rw [toNat_ofNat_of_lt fr.access_lt] at hmem hdone
  rw [toNat_ofNat_of_lt hbuf.lt] at hwrites
  have hload : load w'.mem fr.access 4 = toBE 4 status := by
    have hload := load_store (post fr buf control length w).mem fr.access (toBE 4 status)
    rwa [length_toBE, ← hmem] at hload
  have hclear : status &&& ~~~dmaCtlError = 0 := by
    rw [hwrites.status]
    split_ifs <;> rfl
  have hsent : load (post fr buf control length w).mem buf length.toNat =
      load w.mem buf length.toNat :=
    load_congr fun x hx => post_mem (Set.disjoint_left.mp hbuf.apart hx)
  refine ⟨w', status, ?_, ?_, ?_⟩
  · simp only [fwCfgDmaTransfer_eq]
    exact waitDone_of_completes hdone hbusy hload hclear
  · rw [← hsent]
    exact hwrites
  · intro x hx
    rw [hmem, store_of_notMem, post_mem hx]
    rw [length_toBE]
    exact fun hx4 => hx (Set.Ico_subset_Ico_right (by omega) hx4)

end Request

/-! ## The directory -/

section Directory

/-- **Comparing a name** that has its terminator: the comparison ends there. -/
theorem memNcmp_eq {name b : List UInt8} {n : ℕ} (hname : 0 ∉ name) (hn : name.length < n)
    (hb : name.length < b.length) :
    ∃ c, memNcmp n (name ++ [0]) b = some c ∧ (c = 0 ↔ (name ++ [0]).isPrefixOf b = true) := by
  induction name generalizing n b with
  | nil =>
    obtain ⟨n, rfl⟩ := Nat.exists_eq_succ_of_ne_zero (Nat.ne_of_gt hn)
    obtain ⟨y, b, rfl⟩ := List.exists_cons_of_length_pos hb
    by_cases hy : y = 0
    · exact ⟨0, by simp [memNcmp, hy], by simp [hy]⟩
    · refine ⟨(0 : UInt8).toNat - y.toNat, by simp [memNcmp, Ne.symm hy], ?_⟩
      have hne : y.toNat ≠ 0 := fun h0 => hy (UInt8.toNat_inj.mp h0)
      simpa [Ne.symm hy] using hne
  | cons x name ih =>
    obtain ⟨n, rfl⟩ := Nat.exists_eq_succ_of_ne_zero (Nat.ne_of_gt (Nat.zero_lt_of_lt hn))
    obtain ⟨y, b, rfl⟩ := List.exists_cons_of_length_pos (Nat.zero_lt_of_lt hb)
    have hx : x ≠ 0 := fun hx => hname (hx ▸ List.mem_cons_self)
    by_cases hxy : x = y
    · obtain ⟨c, hc, hiff⟩ := ih (fun h0 => hname (List.mem_cons_of_mem _ h0))
        (Nat.lt_of_succ_lt_succ hn) (Nat.lt_of_succ_lt_succ hb)
      subst hxy
      exact ⟨c, by simpa [memNcmp, hx] using hc, by simpa using hiff⟩
    · refine ⟨x.toNat - y.toNat, by simp [memNcmp, hxy], ?_⟩
      have hne : x.toNat ≠ y.toNat := fun heq => hxy (UInt8.toNat_inj.mp heq)
      simp only [List.cons_append, List.isPrefixOf, beq_iff_eq, hxy, Bool.and_eq_true, false_and,
        iff_false]
      omega

theorem FWCfgFile.length_bytes (f : FWCfgFile) : f.bytes.length = 64 := by
  simp [FWCfgFile.bytes, f.length_name]

theorem FWCfgFile.drop_bytes (f : FWCfgFile) : f.bytes.drop 8 = f.name := by
  rw [FWCfgFile.bytes, ← List.append_assoc, ← List.append_assoc, List.drop_left' (by simp)]

/-- The part of the directory that is still to be read. -/
structure Streaming (s₀ s : Items) (rest : List FWCfgFile) : Prop where
  data : s.data = s₀.data
  writable : s.writable = s₀.writable
  left : rest.flatMap FWCfgFile.bytes <+: (s.data s.key).drop s.offset

/-- **The next entry** is read whole. -/
theorem Streaming.next {s₀ s s' : Items} {f : FWCfgFile} {rest : List FWCfgFile} {l : List UInt8}
    (h : Streaming s₀ s (f :: rest)) (hr : s.Reads s' 64 l) :
    l = f.bytes ∧ Streaming s₀ s' rest := by
  obtain ⟨tail, htail⟩ := h.left
  rw [List.flatMap_cons, List.append_assoc] at htail
  have hlen := f.length_bytes
  have hfits : s.offset + 64 ≤ (s.data s.key).length := by
    have htotal := congrArg List.length htail
    simp only [List.length_append, List.length_drop] at htotal
    omega
  refine ⟨?_, hr.data.trans h.data, hr.writable.trans h.writable, ?_⟩
  · rw [hr.bytes, ← htail, List.take_left' hlen, List.rightpad, hlen]
    simp
  · rw [hr.data, hr.key, hr.offset hfits, ← List.drop_drop, ← htail, List.drop_left' hlen]
    exact List.prefix_append _ _

variable {σ : Type*} {d : Device σ} {view : σ → Items} {ram : Set ℕ} {fr : Frame}

theorem Frame.file_buffer (hram : fr.locals ⊆ ram) : Buffer ram fr fr.file 64 where
  lt := fr.file_lt
  buffer_ram := fun _ hx => hram (Or.inl (Or.inr hx))
  access_ram := fun _ hx => hram (Or.inr hx)
  apart := fr.file_access

/-- The answer of `fw_cfg_find_file`. -/
def answer (name : List UInt8) (files : List FWCfgFile) : ℤ :=
  (files.find? (FWCfgFile.named name)).elim (-1) fun f => f.select.toNat

/-- **The directory is read in order**, up to the first entry with the name. -/
theorem find_stream (hd : Serves ram d view) (hram : fr.locals ⊆ ram) {name : List UInt8}
    (hname : 0 ∉ name) (hlen : name.length < 56) {s₀ : Items} {rest : List FWCfgFile} {w : World σ}
    (h : Streaming s₀ (view w.dev) rest) :
    ∃ w', (∀ᶠ fuel in atTop,
        findLoop d fr fuel name rest.length w = some (answer name rest, w')) ∧
      (view w'.dev).data = s₀.data ∧ (view w'.dev).writable = s₀.writable ∧
      ∀ x, x ∉ span fr.file 64 → x ∉ span fr.access 16 → w'.mem x = w.mem x := by
  induction rest generalizing w with
  | nil =>
    refine ⟨w, Eventually.of_forall fun fuel => ?_, h.data, h.writable, fun _ _ _ => rfl⟩
    rfl
  | cons f rest ih =>
    obtain ⟨w', htransfer, hreads, hmem⟩ :=
      transfer_read (w := w) hd (fr.file_buffer hram)
        (show dmaCtlRead &&& dmaCtlRead ≠ 0 by decide) (by decide)
    have hselect : (view w.dev).select dmaCtlRead = view w.dev := if_neg (by decide)
    rw [hselect] at hreads
    obtain ⟨hfile, hnext⟩ := h.next hreads
    have hentry : load w'.mem fr.file 64 = f.bytes := hfile
    have hfound : load w'.mem (fr.file + 8) 56 = f.name := by
      rw [load_part hentry (by decide), f.drop_bytes, List.take_of_length_le f.length_name.le]
    have hkey : load w'.mem (fr.file + 4) 2 = toBE 2 f.select := by
      rw [load_part hentry (by decide)]
      simp [FWCfgFile.bytes]
    obtain ⟨c, hc, hzero⟩ := memNcmp_eq hname hlen (hlen.trans_eq f.length_name.symm)
    by_cases hnamed : c = 0
    · have hfirst : answer name (f :: rest) = f.select.toNat := by
        have hf : f.named name = true := hzero.mp hnamed
        simp [answer, hf]
      refine ⟨w', ?_, hnext.data, hnext.writable, hmem⟩
      filter_upwards [htransfer] with fuel hfuel
      rw [List.length_cons, findLoop, hfuel, Option.bind_some, hfound, hc, Option.bind_some,
        if_pos hnamed, hkey, bswap16_ofLE, hfirst]
    · have hskip : answer name (f :: rest) = answer name rest := by
        have hf : f.named name = false := by
          rw [← Bool.not_eq_true]
          exact fun hf => hnamed (hzero.mpr hf)
        simp [answer, hf]
      obtain ⟨w'', hloop, hdata, hwritable, hmem'⟩ := ih hnext
      refine ⟨w'', ?_, hdata, hwritable, fun x hx hx' => (hmem' x hx hx').trans (hmem x hx hx')⟩
      filter_upwards [htransfer, hloop] with fuel hfuel hfuel'
      rw [List.length_cons, findLoop, hfuel, Option.bind_some, hfound, hc, Option.bind_some,
        if_neg hnamed, hskip, hfuel']

theorem Frame.count_buffer (hram : fr.locals ⊆ ram) : Buffer ram fr fr.count 4 where
  lt := fr.count_lt
  buffer_ram := fun _ hx => hram (Or.inl (Or.inl (Or.inr hx)))
  access_ram := fun _ hx => hram (Or.inr hx)
  apart := fr.count_access

/-- **`fw_cfg_find_file`** answers with the selector of the first file with the name. -/
theorem fwCfgFindFile_of_directory (hd : Serves ram d view) (hram : fr.locals ⊆ ram)
    {name : List UInt8} (hname : 0 ∉ name) (hlen : name.length < 56) {files : List FWCfgFile}
    (hfiles : files.length < 2 ^ 32) {w : World σ}
    (hdir : directory files <+: (view w.dev).data (entry 0x19)) :
    ∃ w', (∀ᶠ fuel in atTop, fwCfgFindFile d fr fuel name w = some (answer name files, w')) ∧
      (view w'.dev).data = (view w.dev).data ∧ (view w'.dev).writable = (view w.dev).writable ∧
      ∀ x, x ∉ span fr.count 4 → x ∉ span fr.file 64 → x ∉ span fr.access 16 →
        w'.mem x = w.mem x := by
  obtain ⟨tail, htail⟩ := hdir
  rw [directory, List.append_assoc] at htail
  -- the request that selects the directory and reads the number of entries
  let w₁ : World σ := { w with mem := store w.mem fr.count (toLE 4 (0 : BitVec 32)) }
  obtain ⟨w₂, htransfer, hreads, hmem⟩ := transfer_read (w := w₁) hd (fr.count_buffer hram)
    (show (BitVec.ofInt 32 fileDir <<< 16 ||| dmaCtlSelect ||| dmaCtlRead) &&& dmaCtlRead ≠ 0
      by decide) (by decide)
  have hselect : (view w₁.dev).select
      (BitVec.ofInt 32 fileDir <<< 16 ||| dmaCtlSelect ||| dmaCtlRead) =
      { view w.dev with key := entry 0x19, offset := 0 } := if_pos (by decide)
  rw [hselect] at hreads
  have hcount : load w₂.mem fr.count 4 = toBE 4 (BitVec.ofNat 32 files.length) := by
    have hbytes := hreads.bytes
    rw [← htail, List.drop_zero] at hbytes
    simpa using hbytes
  have hvalue : (bswap32 (ofLE 32 (load w₂.mem fr.count 4))).toNat = files.length := by
    rw [hcount, bswap32_ofLE, BitVec.toNat_ofNat, Nat.mod_eq_of_lt hfiles]
  let w₃ : World σ := { w₂ with
    mem := store w₂.mem fr.count (toLE 4 (bswap32 (ofLE 32 (load w₂.mem fr.count 4)))) }
  -- the entries follow it
  have hstream : Streaming (view w.dev) (view w₃.dev) files := by
    refine ⟨hreads.data, hreads.writable, ?_⟩
    have hfits : 0 + 4 ≤ ((view w.dev).data (entry 0x19)).length := by
      rw [← htail]
      simp
    rw [hreads.data, hreads.key, hreads.offset hfits, ← htail, List.drop_left' (by simp)]
    exact List.prefix_append _ _
  obtain ⟨w', hloop, hdata, hwritable, hmem'⟩ := find_stream hd hram hname hlen hstream
  refine ⟨w', ?_, hdata, hwritable, fun x hx hx' hx'' => ?_⟩
  · filter_upwards [htransfer, hloop] with fuel hfuel hfuel'
    have hread : fwCfgReadEntry d fr fuel fr.count fileDir 4 w₁ = some w₂ := hfuel
    rw [fwCfgFindFile]
    dsimp only
    rw [hread, Option.bind_some, hvalue]
    exact hfuel'
  · rw [hmem' x hx' hx'']
    have h₃ : w₃.mem x = w₂.mem x := store_of_notMem (by simpa using hx)
    have h₁ : w₁.mem x = w.mem x := store_of_notMem (by simpa using hx)
    rw [h₃, hmem x hx hx'', h₁]

end Directory

/-! ## The registration -/

/-- The description of the framebuffer, in the order of the device. -/
def ramfbBytes : List UInt8 :=
  toBE 8 (BitVec.ofNat 64 fbBase) ++ (toBE 4 xrgb8888 ++ (toBE 4 (0 : BitVec 32) ++
    (toBE 4 (BitVec.ofNat 32 fbWidth) ++ (toBE 4 (BitVec.ofNat 32 fbHeight) ++
      toBE 4 (BitVec.ofNat 32 (fbWidth * 4))))))

/-- The entry takes the description of a framebuffer. -/
def Items.TakesRamfb (s : Items) (key : BitVec 16) : Prop :=
  s.writable key = true ∧ 28 ≤ (s.data key).length

instance (s : Items) (key : BitVec 16) : Decidable (s.TakesRamfb key) :=
  inferInstanceAs (Decidable (_ ∧ _))

/-- What the device holds after `video_init`. -/
def registered (s : Items) (files : List FWCfgFile) : BitVec 16 → List UInt8 :=
  match files.find? (FWCfgFile.named etcRamfb) with
  | none => s.data
  | some f =>
      if s.TakesRamfb (entry f.select) then
        Function.update s.data (entry f.select)
          (ramfbBytes ++ (s.data (entry f.select)).drop 28)
      else s.data

/-- The number with the bytes `l`, the most significant one first. -/
def number (l : List UInt8) : ℕ := (ofLE 64 l.reverse).toNat

/-- The address from which the host takes the pixel in the given row and column, when the bytes
`item` describe the framebuffer: the fields `addr` and `stride`, and four bytes for a pixel. -/
def scanAddr (item : List UInt8) (row col : ℕ) : ℕ :=
  number (item.take 8) + row * number ((item.drop 24).take 4) + col * 4

/-- **The host shows what the kernel draws**: every pixel is taken from the address to which
`video_bmp_display` writes it. -/
theorem scanAddr_ramfbBytes (rest : List UInt8) (row col : ℕ) :
    scanAddr (ramfbBytes ++ rest) row col = Display.pixelAddr .qemu row col := by
  have haddr : number ((ramfbBytes ++ rest).take 8) = fbBase := by
    rw [List.take_append_of_le_length (by simp [ramfbBytes])]
    decide
  have hstride : number (((ramfbBytes ++ rest).drop 24).take 4) = fbWidth * 4 := by
    rw [List.drop_append_of_le_length (by simp [ramfbBytes]),
      List.take_append_of_le_length (by simp [ramfbBytes])]
    decide
  have hbase : Display.fbBaseOf .qemu = fbBase := rfl
  rw [scanAddr, haddr, hstride, Display.pixelAddr, hbase]
  ring

section Registration

variable {σ : Type*} {d : Device σ} {view : σ → Items} {ram : Set ℕ} {fr : Frame}

/-- The control word of a write to an entry. -/
theorem control_write (key : BitVec 16) : BitVec.ofInt 32 (key.toNat : ℤ) <<< 16 |||
    dmaCtlSelect ||| dmaCtlWrite = key.setWidth 32 <<< 16 ||| 0x18 := by
  rw [BitVec.ofInt_natCast, BitVec.ofNat_toNat, BitVec.or_assoc]
  rfl

theorem select_write (s : Items) (key : BitVec 16) :
    s.select (key.setWidth 32 <<< 16 ||| 0x18) = { s with key := entry key, offset := 0 } := by
  have hbit : (key.setWidth 32 <<< 16 ||| 0x18) &&& dmaCtlSelect ≠ 0 := by
    intro h
    have hthree := congrArg (fun x : BitVec 32 => x.getLsbD 3) h
    simp [dmaCtlSelect] at hthree
  have hkey : ((key.setWidth 32 <<< 16 ||| 0x18) >>> 16).setWidth 16 = key := by
    ext k hk
    interval_cases k <;> simp
  rw [Items.select, if_pos hbit, hkey]

theorem Frame.cfg_buffer (hram : fr.locals ⊆ ram) : Buffer ram fr fr.cfg 28 where
  lt := fr.cfg_lt
  buffer_ram := fun _ hx => hram (Or.inl (Or.inl (Or.inl hx)))
  access_ram := fun _ hx => hram (Or.inr hx)
  apart := fr.cfg_access

/-- **The description is written**, or the device refuses it. -/
theorem write_ramfb (hd : Serves ram d view) (hram : fr.locals ⊆ ram) {w : World σ}
    (hcfg : load w.mem fr.cfg 28 = ramfbBytes) (key : BitVec 16) :
    ∃ w', (∀ᶠ fuel in atTop, fwCfgWriteEntry d fr fuel fr.cfg key.toNat 28 w = some w') ∧
      (view w'.dev).data =
        (if (view w.dev).TakesRamfb (entry key) then
          Function.update (view w.dev).data (entry key)
            (ramfbBytes ++ ((view w.dev).data (entry key)).drop 28)
        else (view w.dev).data) ∧
      ∀ x ∉ span fr.access 16, w'.mem x = w.mem x := by
  have hread : (key.setWidth 32 <<< 16 ||| 0x18) &&& dmaCtlRead = 0 := by
    ext k hk
    interval_cases k <;> simp [dmaCtlRead]
  have hwrite : (key.setWidth 32 <<< 16 ||| 0x18) &&& dmaCtlWrite ≠ 0 := by
    intro h
    have hfour := congrArg (fun x : BitVec 32 => x.getLsbD 4) h
    simp [dmaCtlWrite] at hfour
  have hbusy : (key.setWidth 32 <<< 16 ||| 0x18) &&& ~~~dmaCtlError ≠ 0 := by
    intro h
    have hfour := congrArg (fun x : BitVec 32 => x.getLsbD 4) h
    simp [dmaCtlError] at hfour
  obtain ⟨w', status, htransfer, hwrites, hmem⟩ :=
    transfer_write hd (fr.cfg_buffer hram) hread hwrite hbusy
  refine ⟨w', ?_, ?_, hmem⟩
  · simp only [fwCfgWriteEntry, control_write]
    exact htransfer
  · have hdata := hwrites.data
    have hload : load w.mem fr.cfg (28 : BitVec 32).toNat = ramfbBytes := hcfg
    have hlen : ramfbBytes.length = 28 := by simp [ramfbBytes]
    have haccepts : Items.Accepts { view w.dev with key := entry key, offset := 0 } 28 ↔
        (view w.dev).TakesRamfb (entry key) := by
      rw [Items.Accepts, Items.TakesRamfb, Nat.zero_add]
    rw [select_write, hload, hlen, overwrite, List.take_zero, List.nil_append, hlen,
      Nat.zero_add] at hdata
    simpa only [haccepts] using hdata

/-- What the kernel has in `cfg`. -/
theorem load_cfg (w : World σ) : load (store w.mem fr.cfg ramfbBytes) fr.cfg 28 = ramfbBytes := by
  have hload := load_store w.mem fr.cfg ramfbBytes
  rwa [show ramfbBytes.length = 28 by simp [ramfbBytes]] at hload

/-- **The registration.**  For every device that serves its requests and every directory,
`video_init` returns; the first file that is called `etc/ramfb` has the description of the
framebuffer, if the device takes it, and nothing else has changed: neither an entry of the device
nor memory other than the locals.  With the description, the host takes every pixel from where the
kernel draws it. -/
theorem registered_of_directory (hd : Serves ram d view) (hram : fr.locals ⊆ ram)
    {files : List FWCfgFile} (hfiles : files.length < 2 ^ 32) {w : World σ}
    (hdir : directory files <+: (view w.dev).data (entry 0x19)) :
    ∃ w', (∀ᶠ fuel in atTop, videoInit d fr fuel w = some w') ∧
      (view w'.dev).data = registered (view w.dev) files ∧
      (∀ x ∉ fr.locals, w'.mem x = w.mem x) ∧
      ∀ f, files.find? (FWCfgFile.named etcRamfb) = some f →
        (view w.dev).TakesRamfb (entry f.select) → ∀ row col,
        scanAddr ((view w'.dev).data (entry f.select)) row col =
          Display.pixelAddr .qemu row col := by
  have hlen : ramfbBytes.length = 28 := by simp [ramfbBytes]
  have hbytes : RAMFBCfg.bytes ⟨bswap64 (BitVec.ofNat 64 fbBase), bswap32 xrgb8888, bswap32 0,
      bswap32 (BitVec.ofNat 32 fbWidth), bswap32 (BitVec.ofNat 32 fbHeight),
      bswap32 (BitVec.ofNat 32 (fbWidth * 4))⟩ = ramfbBytes := by
    simp only [RAMFBCfg.bytes, toLE_bswap32, toLE_bswap64, ramfbBytes]
  let w₁ : World σ := { w with mem := store w.mem fr.cfg ramfbBytes }
  have hcode : ∀ fuel, videoInit d fr fuel w = (fwCfgFindFile d fr fuel etcRamfb w₁).bind fun r =>
      if r.1 < 0 then some r.2 else fwCfgWriteEntry d fr fuel fr.cfg r.1 28 r.2 := by
    intro fuel
    rw [videoInit, hbytes]
  obtain ⟨w₂, hfind, hdata, hwritable, hmem⟩ := fwCfgFindFile_of_directory hd hram
    (by decide : (0 : UInt8) ∉ etcRamfb) (by decide) hfiles (w := w₁) hdir
  have hlocals : ∀ x ∉ fr.locals, w₂.mem x = w.mem x := by
    intro x hx
    simp only [Frame.locals, Set.mem_union, not_or] at hx
    obtain ⟨⟨⟨hcfg, hcount⟩, hfile⟩, haccess⟩ := hx
    rw [hmem x hcount hfile haccess]
    exact store_of_notMem (by rwa [hlen])
  rw [registered]
  cases hf : files.find? (FWCfgFile.named etcRamfb) with
  | none =>
    have hanswer : answer etcRamfb files = -1 := by simp [answer, hf]
    refine ⟨w₂, ?_, hdata, hlocals, nofun⟩
    filter_upwards [hfind] with fuel hfuel
    rw [hcode, hfuel, Option.bind_some, hanswer]
    rfl
  | some f =>
    have hanswer : answer etcRamfb files = f.select.toNat := by simp [answer, hf]
    -- `cfg` is as it was before the search
    have hcfg : load w₂.mem fr.cfg 28 = ramfbBytes := by
      rw [← load_cfg w]
      refine load_congr fun x hx => hmem x ?_ ?_ ?_
      · exact Set.disjoint_left.mp fr.cfg_count hx
      · exact Set.disjoint_left.mp fr.cfg_file hx
      · exact Set.disjoint_left.mp fr.cfg_access hx
    obtain ⟨w₃, hwrite, hdata', hmem'⟩ := write_ramfb hd hram hcfg f.select
    have hregistered : (view w₃.dev).data = if (view w.dev).TakesRamfb (entry f.select) then
        Function.update (view w.dev).data (entry f.select)
          (ramfbBytes ++ ((view w.dev).data (entry f.select)).drop 28)
        else (view w.dev).data := by
      rw [hdata']
      simp only [Items.TakesRamfb, hdata, hwritable]
      rfl
    refine ⟨w₃, ?_, hregistered, fun x hx => ?_, fun g hg htakes row col => ?_⟩
    · filter_upwards [hfind, hwrite] with fuel hfuel hfuel'
      rw [hcode, hfuel, Option.bind_some, hanswer, if_neg (by omega)]
      exact hfuel'
    · rw [hmem' x fun h => hx (Or.inr h)]
      exact hlocals x hx
    · obtain rfl := Option.some.inj hg
      rw [hregistered, if_pos htakes, Function.update_self]
      exact scanAddr_ramfbBytes _ row col

end Registration

/-! ## A device -/

/-- A device that completes a request as soon as the address of the descriptor is stored. -/
def promptDevice : Device Items where
  dma v w :=
    let a := (bswap64 v).toNat
    let control := bswap32 (ofLE 32 (load w.mem a 4))
    let length := (bswap32 (ofLE 32 (load w.mem (a + 4) 4))).toNat
    let address := (bswap64 (ofLE 64 (load w.mem (a + 8) 8))).toNat
    let s := w.dev.select control
    let left := (s.data s.key).drop s.offset
    if control &&& dmaCtlRead ≠ 0 then
      { mem := store (store w.mem address ((left.take length).rightpad length 0)) a
          (toBE 4 (0 : BitVec 32))
        dev := { s with offset := s.offset + min length left.length } }
    else if control &&& dmaCtlWrite ≠ 0 ∧ s.Accepts length then
      { mem := store w.mem a (toBE 4 (0 : BitVec 32))
        dev := { s with
          data := Function.update s.data s.key
            (overwrite (s.data s.key) s.offset (load w.mem address length))
          offset := s.offset + length } }
    else { mem := store w.mem a (toBE 4 dmaCtlError), dev := s }
  run := id

/-- The fields of a request that is posted. -/
theorem fields_of_posted {ram : Set ℕ} {w : World Items} {a : ℕ} {control length : BitVec 32}
    {address : BitVec 64} (h : Posted ram w a control length address) :
    bswap32 (ofLE 32 (load w.mem a 4)) = control ∧
      bswap32 (ofLE 32 (load w.mem (a + 4) 4)) = length ∧
      bswap64 (ofLE 64 (load w.mem (a + 8) 8)) = address := by
  have hcontrol := load_part (i := 0) h.descriptor (show 0 + 4 ≤ 16 by decide)
  have hlength := load_part h.descriptor (show 4 + 4 ≤ 16 by decide)
  have haddress := load_part h.descriptor (show 8 + 8 ≤ 16 by decide)
  rw [Nat.add_zero, List.drop_zero, List.take_left' (length_toBE 4 control)] at hcontrol
  rw [List.drop_left' (length_toBE 4 control), List.take_left' (length_toBE 4 length)] at hlength
  rw [← List.append_assoc, List.drop_left' (by simp), List.take_of_length_le (by simp)] at haddress
  refine ⟨?_, ?_, ?_⟩
  · rw [hcontrol, bswap32_ofLE]
  · rw [hlength, bswap32_ofLE]
  · rw [haddress, ← toLE_bswap64, ofLE_toLE (n := 8), bswap64_bswap64]

theorem serves_promptDevice (ram : Set ℕ) : Serves ram promptDevice id where
  read w a control length address h hread := by
    obtain ⟨hcontrol, hlength, haddress⟩ := fields_of_posted h
    refine ⟨_, ((((w.dev.select control).data (w.dev.select control).key).drop
      (w.dev.select control).offset).take length.toNat).rightpad length.toNat 0,
      ⟨0, rfl, fun k hk => absurd hk (Nat.not_lt_zero k)⟩, ?_⟩
    simp only [Function.iterate_zero_apply, promptDevice, bswap64_bswap64, hcontrol, hlength,
      haddress, if_pos hread, id]
    refine ⟨⟨rfl, rfl, rfl, fun hfits => ?_, rfl⟩, trivial⟩
    have hleft : length.toNat ≤ (((w.dev.select control).data (w.dev.select control).key).drop
        (w.dev.select control).offset).length := by
      rw [List.length_drop]
      omega
    simp only [Nat.min_eq_left hleft]
  write w a control length address h hread hwrite := by
    obtain ⟨hcontrol, hlength, haddress⟩ := fields_of_posted h
    refine ⟨_, if (w.dev.select control).Accepts length.toNat then 0 else dmaCtlError,
      ⟨0, rfl, fun k hk => absurd hk (Nat.not_lt_zero k)⟩, ?_⟩
    simp only [Function.iterate_zero_apply, promptDevice, bswap64_bswap64, hcontrol, hlength,
      haddress, hread, id]
    by_cases haccepts : (w.dev.select control).Accepts length.toNat
    · simp only [ne_eq, not_true_eq_false, if_false, hwrite, not_false_eq_true, haccepts, and_self,
        if_true]
      refine ⟨⟨?_, ?_⟩, trivial⟩ <;> simp [haccepts]
    · simp only [ne_eq, not_true_eq_false, if_false, haccepts, and_false]
      refine ⟨⟨?_, ?_⟩, trivial⟩ <;> simp [haccepts]

/-- A directory whose second file is `etc/ramfb`. -/
def someFiles : List FWCfgFile :=
  [⟨8, 0x20, 0, [0x65, 0x74, 0x63, 0x2f].rightpad 56 0, rfl⟩,
    ⟨28, 0x24, 0, etcRamfb.rightpad 56 0, rfl⟩]

/-- The locals on a stack at the end of the first page. -/
def someFrame : Frame where
  cfg := 0xf80
  count := 0xf7c
  file := 0xf30
  access := 0xf20
  cfg_lt := by decide
  count_lt := by decide
  file_lt := by decide
  access_lt := by decide
  cfg_count := Set.disjoint_left.mpr fun _ h h' => absurd (h.1.trans_lt h'.2) (by decide)
  cfg_file := Set.disjoint_left.mpr fun _ h h' => absurd (h.1.trans_lt h'.2) (by decide)
  cfg_access := Set.disjoint_left.mpr fun _ h h' => absurd (h.1.trans_lt h'.2) (by decide)
  count_access := Set.disjoint_left.mpr fun _ h h' => absurd (h.1.trans_lt h'.2) (by decide)
  file_access := Set.disjoint_left.mpr fun _ h h' => absurd (h.1.trans_lt h'.2) (by decide)

/-- A device with this directory, where the entry of `etc/ramfb` has 28 bytes. -/
def someWorld : World Items where
  mem _ := 0
  dev :=
    { data := fun key =>
        if key = 0x19 then directory someFiles else if key = 0x24 then List.replicate 28 0 else []
      writable := fun key => decide (key = 0x24)
      key := 0
      offset := 0 }

theorem registered_someFiles :
    ∃ w', (∀ᶠ fuel in atTop, videoInit promptDevice someFrame fuel someWorld = some w') ∧
      w'.dev.data = registered someWorld.dev someFiles ∧
      (∀ x ∉ someFrame.locals, w'.mem x = someWorld.mem x) ∧
      ∀ f, someFiles.find? (FWCfgFile.named etcRamfb) = some f →
        someWorld.dev.TakesRamfb (entry f.select) → ∀ row col,
        scanAddr (w'.dev.data (entry f.select)) row col = Display.pixelAddr .qemu row col :=
  registered_of_directory (serves_promptDevice Set.univ) (Set.subset_univ _) (by decide)
    ⟨[], List.append_nil _⟩

end FwCfg
end OscKernel
