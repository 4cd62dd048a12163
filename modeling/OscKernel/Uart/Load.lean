import OscKernel.Word

/-!
# The boot protocol (`send_kernel.py` and `shell_load_kernel`)

The host sends two little-endian words, `"BOOT"` and the length, and then the kernel image.  The
bootloader reads the words with `uart_getc`, which is the reader of the shell and turns a carriage
return into a newline, and the image with `uart_getc_raw`.

* `sendKernel`: what the host sends.
* `Bootloader.shellLoadKernel`: what the bootloader does with what arrives.
* `Bootloader.shellLoadKernel_iff`: when an image that is sent is loaded.

## The two readers

The image goes through the reader that changes nothing, and arrives as it was sent.  The header does
not: its magic has no carriage return, but the length may have one in any of its four bytes.  A byte
`0x0D` is then read as `0x0A`, the bootloader takes a smaller number for the length, and jumps
before the image has arrived.  The arithmetic of the word is that of `unsigned int`, shifts and ors
of four characters; different bytes make different words, and this is why the condition is exact.

## What is assumed

Bytes arrive without line errors, for which `uart_getc` would return `-1`.  The image fits between
`KERNEL_BASE` and the place where the bootloader executes; behind that it would overwrite the loop
that loads it.  The length is a number of 32 bits, since `send_kernel.py` sends nothing else.
-/

namespace OscKernel
namespace Uart

/-! ## The host -/

/-- `BOOT_MAGIC`. -/
def bootMagic : ℕ := 0x544F4F42

/-- The little-endian bytes of a word. -/
def le32Bytes (n : ℕ) : List UInt8 := [n, n / 2 ^ 8, n / 2 ^ 16, n / 2 ^ 24].map UInt8.ofNat

/-- `struct.pack("<II", a, b)`, which fails for numbers that do not fit. -/
def pack (a b : ℕ) : Option (List UInt8) :=
  if a < 2 ^ 32 ∧ b < 2 ^ 32 then some (le32Bytes a ++ le32Bytes b) else none

/-- What `send_kernel.py` writes for the image `kernelData`. -/
def sendKernel (kernelData : List UInt8) : Option (List UInt8) :=
  (pack bootMagic kernelData.length).map (· ++ kernelData)

/-! ## The header -/

/-- The cast `(unsigned int)c` of an `int`. -/
def toUInt32 (c : ℤ) : ℕ := (c % 2 ^ 32).toNat

/-- `x << n` on `unsigned int`. -/
def shl32 (x n : ℕ) : ℕ := (x <<< n) % 2 ^ 32

/-- `(unsigned int)c₀ | ((unsigned int)c₁ << 8) | ((unsigned int)c₂ << 16) |
((unsigned int)c₃ << 24)`. -/
def headerWord (c₀ c₁ c₂ c₃ : ℤ) : ℕ :=
  toUInt32 c₀ ||| shl32 (toUInt32 c₁) 8 ||| shl32 (toUInt32 c₂) 16 ||| shl32 (toUInt32 c₃) 24

/-- `'\r'`. -/
def carriageReturn : UInt8 := 0x0D
/-- `'\n'`. -/
def newline : UInt8 := 0x0A

/-- `c == '\r' ? '\n' : c`. -/
def translate (c : ℤ) : ℤ := if c = carriageReturn.toNat then newline.toNat else c

/-- `(unsigned char)c`. -/
def toUChar (c : ℤ) : UInt8 := UInt8.ofNat (c % 256).toNat

section Header

variable {b₀ b₁ b₂ b₃ : UInt8}

theorem or_shl32 {x y n : ℕ} (hx : x < 2 ^ n) (h : y * 2 ^ n < 2 ^ 32) :
    x ||| shl32 y n = x + y * 2 ^ n := by
  rw [shl32, Nat.shiftLeft_eq, Nat.mod_eq_of_lt h, Nat.or_comm, ← Nat.shiftLeft_eq,
    ← Nat.shiftLeft_add_eq_or_of_lt hx, Nat.shiftLeft_eq, Nat.add_comm]

theorem toUInt32_toNat (b : UInt8) : toUInt32 b.toNat = b.toNat := by
  have := b.toNat_lt
  unfold toUInt32
  omega

/-- The word of four bytes. -/
theorem headerWord_toNat (b₀ b₁ b₂ b₃ : UInt8) :
    headerWord b₀.toNat b₁.toNat b₂.toNat b₃.toNat =
      b₀.toNat + b₁.toNat * 2 ^ 8 + b₂.toNat * 2 ^ 16 + b₃.toNat * 2 ^ 24 := by
  have h₀ := b₀.toNat_lt
  have h₁ := b₁.toNat_lt
  have h₂ := b₂.toNat_lt
  have h₃ := b₃.toNat_lt
  have h₈ : b₀.toNat ||| shl32 b₁.toNat 8 = b₀.toNat + b₁.toNat * 2 ^ 8 :=
    or_shl32 h₀ (by omega)
  rw [headerWord, toUInt32_toNat, toUInt32_toNat, toUInt32_toNat, toUInt32_toNat, h₈]
  have h₁₆ : b₀.toNat + b₁.toNat * 2 ^ 8 ||| shl32 b₂.toNat 16 =
      b₀.toNat + b₁.toNat * 2 ^ 8 + b₂.toNat * 2 ^ 16 := or_shl32 (by omega) (by omega)
  rw [h₁₆, or_shl32 (by omega) (by omega)]

/-- Different bytes make different words. -/
theorem headerWord_inj {a₀ a₁ a₂ a₃ : UInt8} (h : headerWord a₀.toNat a₁.toNat a₂.toNat a₃.toNat =
    headerWord b₀.toNat b₁.toNat b₂.toNat b₃.toNat) : [a₀, a₁, a₂, a₃] = [b₀, b₁, b₂, b₃] := by
  rw [headerWord_toNat, headerWord_toNat] at h
  have := a₀.toNat_lt
  have := a₁.toNat_lt
  have := a₂.toNat_lt
  have := b₀.toNat_lt
  have := b₁.toNat_lt
  have := b₂.toNat_lt
  have h₀ : a₀ = b₀ := UInt8.toNat_inj.mp (by omega)
  have h₁ : a₁ = b₁ := UInt8.toNat_inj.mp (by omega)
  have h₂ : a₂ = b₂ := UInt8.toNat_inj.mp (by omega)
  have h₃ : a₃ = b₃ := UInt8.toNat_inj.mp (by omega)
  rw [h₀, h₁, h₂, h₃]

end Header

/-- The number that the bytes of a word are read as. -/
theorem headerWord_le32Bytes {n : ℕ} (hn : n < 2 ^ 32) :
    headerWord (UInt8.ofNat n).toNat (UInt8.ofNat (n / 2 ^ 8)).toNat
      (UInt8.ofNat (n / 2 ^ 16)).toNat (UInt8.ofNat (n / 2 ^ 24)).toNat = n := by
  rw [headerWord_toNat, UInt8.toNat_ofNat', UInt8.toNat_ofNat', UInt8.toNat_ofNat',
    UInt8.toNat_ofNat']
  omega

/-- `translate` on a character. -/
def translateByte (b : UInt8) : UInt8 := if b = carriageReturn then newline else b

theorem translate_toNat (b : UInt8) : translate b.toNat = (translateByte b).toNat := by
  unfold translate translateByte
  by_cases h : b = carriageReturn
  · rw [if_pos h, if_pos (by rw [h])]
  · rw [if_neg h, if_neg fun hnat => h (UInt8.toNat_inj.mp (Int.ofNat_inj.mp hnat))]

theorem translateByte_eq_iff {b : UInt8} : translateByte b = b ↔ b ≠ carriageReturn := by
  unfold translateByte
  split_ifs with h
  · rw [h]
    decide
  · exact iff_of_true rfl h

/-- What is read through `translate` when the word `n` is sent. -/
def readBack (n : ℕ) : ℕ :=
  headerWord (translate (UInt8.ofNat n).toNat) (translate (UInt8.ofNat (n / 2 ^ 8)).toNat)
    (translate (UInt8.ofNat (n / 2 ^ 16)).toNat) (translate (UInt8.ofNat (n / 2 ^ 24)).toNat)

theorem readBack_eq_iff {n : ℕ} (hn : n < 2 ^ 32) :
    readBack n = n ↔ carriageReturn ∉ le32Bytes n := by
  rw [readBack, translate_toNat, translate_toNat, translate_toNat, translate_toNat]
  conv_lhs => rhs; rw [← headerWord_le32Bytes hn]
  have hmap : carriageReturn ∉ le32Bytes n ↔ (le32Bytes n).map translateByte = le32Bytes n := by
    conv_rhs => rhs; rw [← List.map_id (le32Bytes n)]
    rw [List.map_inj_left, ← List.forall_mem_ne']
    exact forall₂_congr fun b _ => translateByte_eq_iff.symm
  rw [hmap]
  refine ⟨headerWord_inj, fun h => ?_⟩
  simp only [le32Bytes, List.map_cons, List.cons.injEq] at h
  rw [h.1, h.2.1, h.2.2.1, h.2.2.2.1]

theorem translateByte_le (b : UInt8) : (translateByte b).toNat ≤ b.toNat := by
  unfold translateByte
  split_ifs with h
  · rw [h]
    decide
  · exact Nat.le_refl _

theorem readBack_le {n : ℕ} (hn : n < 2 ^ 32) : readBack n ≤ n := by
  have h₀ := translateByte_le (UInt8.ofNat n)
  have h₁ := translateByte_le (UInt8.ofNat (n / 2 ^ 8))
  have h₂ := translateByte_le (UInt8.ofNat (n / 2 ^ 16))
  have h₃ := translateByte_le (UInt8.ofNat (n / 2 ^ 24))
  have hword := headerWord_le32Bytes hn
  rw [headerWord_toNat] at hword
  rw [readBack, translate_toNat, translate_toNat, translate_toNat, translate_toNat,
    headerWord_toNat]
  omega

/-! ## The loaded image -/

/-- The builds. -/
inductive Board where
  | qemu
  | orangePi

/-- `KERNEL_BASE` of the bootloader. -/
def Board.kernelBase : Board → ℕ
  | qemu => 0x80200000
  | orangePi => 0x00200000

/-- `RELOCATE_ADDR`, where the bootloader has moved itself. -/
def Board.relocateAddr : Board → ℕ
  | qemu => 0x82000000
  | orangePi => 0x20000000

theorem Board.relocateAddr_lt (board : Board) : board.relocateAddr < 2 ^ 32 := by
  cases board <;> decide

/-- The memory with the bytes `l` at `a`. -/
def stored (mem : ℕ → UInt8) (a : ℕ) (l : List UInt8) : ℕ → UInt8 := fun x =>
  if a ≤ x then l[x - a]?.getD (mem x) else mem x

section Stored

variable {mem : ℕ → UInt8}

theorem toUChar_toNat (b : UInt8) : toUChar b.toNat = b := by
  have hlt := b.toNat_lt
  have hmod : ((b.toNat : ℤ) % 256).toNat = b.toNat := by omega
  rw [toUChar, hmod, UInt8.ofNat_toNat]

theorem stored_nil (a : ℕ) : stored mem a [] = mem := by
  funext x
  unfold stored
  split_ifs <;> rfl

theorem stored_append (l : List UInt8) (b : UInt8) (a : ℕ) :
    stored mem a (l ++ [b]) = Function.update (stored mem a l) (a + l.length) b := by
  funext x
  unfold stored
  rw [Function.update_apply]
  by_cases hx : x = a + l.length
  · rw [if_pos hx, if_pos (by omega), hx, Nat.add_sub_cancel_left, List.getElem?_concat_length]
    rfl
  · rw [if_neg hx]
    by_cases hle : a ≤ x
    · rw [if_pos hle, if_pos hle, List.getElem?_append]
      split_ifs with hlt
      · rfl
      · rw [List.getElem?_eq_none (by simp; omega), List.getElem?_eq_none (by omega)]
    · rw [if_neg hle, if_neg hle]

end Stored

/-! ## The bootloader -/

/-- A byte that arrives, and whether its line status says that there was an error. -/
structure RxByte where
  data : UInt8
  lineError : Bool

/-- A byte without a line error. -/
def RxByte.ok (data : UInt8) : RxByte := ⟨data, false⟩

namespace Bootloader

/-- `uart_getc_raw` before the bytes `rx`: it waits for ever when there are none.  On an error the
byte stays where it is; reading the line status has cleared the error. -/
def uartGetcRaw : List RxByte → Option (ℤ × List RxByte)
  | [] => none
  | b :: rx => if b.lineError then some (-1, .ok b.data :: rx) else some (b.data.toNat, rx)

/-- `uart_getc`. -/
def uartGetc : List RxByte → Option (ℤ × List RxByte)
  | [] => none
  | b :: rx =>
      if b.lineError then some (-1, .ok b.data :: rx) else some (translate b.data.toNat, rx)

/-- The four calls of a header word, from left to right. -/
def getWord (rx : List RxByte) : Option (ℕ × List RxByte) :=
  (uartGetc rx).bind fun (c₀, rx) =>
  (uartGetc rx).bind fun (c₁, rx) =>
  (uartGetc rx).bind fun (c₂, rx) =>
  (uartGetc rx).map fun (c₃, rx) => (headerWord c₀ c₁ c₂ c₃, rx)

/-- The loop of `shell_load_kernel` at `i`, with `n` bytes to go. -/
def loadLoop (dst : ℕ) : ℕ → ℕ → List RxByte → (ℕ → UInt8) → Option (List RxByte × (ℕ → UInt8))
  | 0, _, rx, mem => some (rx, mem)
  | n + 1, i, rx, mem => (uartGetcRaw rx).bind fun (c, rx) =>
      loadLoop dst n (i + 1) rx (Function.update mem (dst + i) (toUChar c))

/-- How `shell_load_kernel` ends: it returns, or it jumps to an image of `size` bytes. -/
inductive LoadEnd where
  | badMagic
  | jump (size : ℕ)
  deriving DecidableEq

/-- `shell_load_kernel`: how it ends, what is left in the receiver, and the memory. -/
def shellLoadKernel (board : Board) (rx : List RxByte) (mem : ℕ → UInt8) :
    Option (LoadEnd × List RxByte × (ℕ → UInt8)) :=
  (getWord rx).bind fun (magic, rx) =>
  (getWord rx).bind fun (size, rx) =>
  if magic ≠ bootMagic then some (.badMagic, rx, mem)
  else (loadLoop board.kernelBase size 0 rx mem).map fun (rx, mem) => (.jump size, rx, mem)

section Load

variable {board : Board} {image : List UInt8} {mem : ℕ → UInt8} {dst n : ℕ}

theorem getWord_le32Bytes (n : ℕ) (rx : List RxByte) :
    getWord ((le32Bytes n).map .ok ++ rx) = some (readBack n, rx) := rfl

/-- **The loop** takes `n` bytes off what arrives. -/
theorem loadLoop_ok (done : List UInt8) (himage : n ≤ image.length) :
    loadLoop dst n done.length (image.map .ok) (stored mem dst done) =
      some ((image.drop n).map .ok, stored mem dst (done ++ image.take n)) := by
  induction n generalizing done image with
  | zero => simp [loadLoop]
  | succ n ih =>
    cases image with
    | nil => exact absurd himage (Nat.not_succ_le_zero n)
    | cons b image =>
      have hih := ih (done ++ [b]) (Nat.le_of_succ_le_succ himage)
      rw [List.length_append, List.append_assoc, stored_append] at hih
      rw [List.map_cons, loadLoop]
      show loadLoop dst n (done.length + 1) (image.map .ok)
        (Function.update (stored mem dst done) (dst + done.length) (toUChar b.toNat)) = _
      rw [toUChar_toNat]
      exact hih

/-- **When an image that is sent is loaded**: exactly when no byte of its length is a carriage
return.  The bytes arrive without line errors, and the image fits in front of the bootloader.  It is
loaded when it is at `KERNEL_BASE`, no other memory has changed, nothing is left in the receiver,
and the jump is made with its length. -/
theorem shellLoadKernel_iff (hfit : board.kernelBase + image.length ≤ board.relocateAddr) :
    ∃ stream out, sendKernel image = some stream ∧
      shellLoadKernel board (stream.map .ok) mem = some out ∧
      (out = (.jump image.length, [], stored mem board.kernelBase image) ↔
        carriageReturn ∉ le32Bytes image.length) := by
  have hlen : image.length < 2 ^ 32 := Nat.lt_of_le_of_lt (Nat.le_add_left _ _)
    (Nat.lt_of_le_of_lt hfit board.relocateAddr_lt)
  have hsend : sendKernel image =
      some (le32Bytes bootMagic ++ le32Bytes image.length ++ image) := by
    rw [sendKernel, pack, if_pos ⟨by decide, hlen⟩]
    rfl
  have hmagic : readBack bootMagic = bootMagic := (readBack_eq_iff (by decide)).mpr (by decide)
  have hloop : loadLoop board.kernelBase _ 0 _ (stored mem board.kernelBase []) = _ :=
    loadLoop_ok [] (readBack_le hlen)
  have hload : shellLoadKernel board
      ((le32Bytes bootMagic ++ le32Bytes image.length ++ image).map .ok) mem =
        some (.jump (readBack image.length), (image.drop (readBack image.length)).map .ok,
          stored mem board.kernelBase (image.take (readBack image.length))) := by
    rw [List.map_append, List.map_append, List.append_assoc, shellLoadKernel, getWord_le32Bytes,
      Option.bind_some]
    dsimp only
    rw [getWord_le32Bytes, Option.bind_some]
    dsimp only
    rw [stored_nil] at hloop
    rw [if_neg (not_not.mpr hmagic)]
    exact congrArg (Option.map _) hloop
  refine ⟨_, _, hsend, hload, ?_⟩
  rw [← readBack_eq_iff hlen]
  constructor
  · intro h
    exact LoadEnd.jump.inj (congrArg Prod.fst h)
  · intro h
    rw [h, List.drop_length, List.take_length]
    rfl

/-- An image of five bytes. -/
theorem shellLoadKernel_of_five : ∃ stream out, sendKernel [1, 2, 3, 4, 5] = some stream ∧
    shellLoadKernel .qemu (stream.map .ok) (fun _ => 0) = some out ∧
      out = (.jump 5, [], stored (fun _ => 0) 0x80200000 [1, 2, 3, 4, 5]) := by
  obtain ⟨stream, out, hstream, hout, hiff⟩ := @shellLoadKernel_iff .qemu [1, 2, 3, 4, 5]
    (fun _ => 0) (by decide)
  exact ⟨stream, out, hstream, hout, hiff.mpr (by decide)⟩

/-- Of an image of thirteen bytes the bootloader loads ten. -/
theorem shellLoadKernel_of_thirteen :
    ((sendKernel (List.replicate 13 7)).bind fun stream =>
      (shellLoadKernel .qemu (stream.map .ok) fun _ => 0).map fun out =>
        (out.1, out.2.1.length, out.2.2 0x80200009, out.2.2 0x8020000A)) =
      some (.jump 10, 3, 7, 0) := by
  decide +kernel

end Load

end Bootloader

end Uart
end OscKernel
