import OscKernel.Boot.UserRange

/-!
# The blit (`sys_display`)

`sys_display` copies a picture of the user to the middle of the framebuffer, row by row, in the
arithmetic of `int`.  The memory is kept together with the addresses that were read and written.

* `memCpy_spec`: a copy between two ranges that do not meet.
* `Blitted`: the first rows of the picture are in the framebuffer, and all else is as it was.
* `sysDisplay_blits`: what `sys_display` does for every picture.

## The arithmetic

The width and the height come out of registers as `unsigned int`, are handed on as `int`, and the
offsets of a row are products and sums of `int` that become pointers by sign extension.  The model
keeps every one of these steps (`i32`, `ptrAdd`), so that a wrap in one of them would be seen.  None
wraps: the checks of `sys_display` bound both numbers by those of the screen before anything is
computed.

## The invariant

`Blitted` with the number of rows is the invariant of the loop over the rows.  That other bytes are
as they were includes those of the framebuffer beside the picture, and those of the rows that are
still to come; two rows do not meet because the width of the picture is at most that of the screen.

The picture is to lie outside the framebuffer.  Nothing in the source checks this, and a picture in
the framebuffer would be overwritten while it is read; the order in which `mem_cpy` goes would then
decide what is seen.
-/

namespace OscKernel
namespace Display

open Uart (Board)

/-- `FB_BASE`. -/
def fbBaseOf : Board → ℕ
  | .qemu => 0x87000000
  | .orangePi => 0x7f700000

/-- `[FB_BASE, FB_BASE + FB_WIDTH * FB_HEIGHT * 4)`. -/
def framebufferOf (board : Board) : Set ℕ :=
  Set.Ico (fbBaseOf board) (fbBaseOf board + fbWidth * fbHeight * 4)

/-- The memory, and the addresses that were read and written. -/
structure Access where
  mem : ℕ → UInt8
  reads : Set ℕ
  writes : Set ℕ

/-- `*d = *s`. -/
def Access.copyByte (s : Access) (dst src : ℕ) : Access where
  mem := Function.update s.mem dst (s.mem src)
  reads := insert src s.reads
  writes := insert dst s.writes

/-- `mem_cpy`. -/
def memCpy (dst src : ℕ) : ℕ → Access → Access
  | 0, s => s
  | n + 1, s => memCpy (u64 (dst + 1)) (u64 (src + 1)) n (s.copyByte dst src)

/-- `video_bmp_display`; `flush_dcache` writes nothing. -/
def videoBmpDisplay (board : Board) (bmpImage : ℕ) (width height : ℤ) (s : Access) : Access :=
  let startX := (i32 (fbWidth - width)).tdiv 2
  let startY := (i32 (fbHeight - height)).tdiv 2
  (List.range height.toNat).foldl (fun s (y : ℕ) =>
    let index := i32 (i32 (i32 (startY + y) * fbWidth) + startX)
    let dst := ptrAdd (fbBaseOf board) index 4
    memCpy dst (ptrAdd bmpImage (i32 (y * width)) 4) (u64 ((width % 2 ^ 64).toNat * 4)) s) s

/-- `sys_display`: the value, and the memory after it. -/
def sysDisplay (board : Board) (b : Buddy) (bmp : BitVec 64) (w h : BitVec 32) (s : Access) :
    ℤ × Access :=
  if (BufferCall.sysDisplay bmp w h).accepts b then
    (0, videoBmpDisplay board bmp.toNat w.toInt h.toInt s)
  else (-1, s)

/-- The address of the pixel in the given row and column of the framebuffer. -/
def pixelAddr (board : Board) (row col : ℕ) : ℕ := fbBaseOf board + (row * fbWidth + col) * 4

/-- The byte `k` of the pixel `(x, y)` of a picture of the width `w` at `bmp`. -/
def sourceAddr (bmp w x y k : ℕ) : ℕ := bmp + (y * w + x) * 4 + k

/-- The byte `k` of the pixel `(x, y)` of the picture in the framebuffer. -/
def targetAddr (board : Board) (w h x y k : ℕ) : ℕ :=
  pixelAddr board ((fbHeight - h) / 2 + y) ((fbWidth - w) / 2 + x) + k

/-- The first `rows` rows of a picture with `w` columns and `h` rows are in the framebuffer, all
other bytes are those of `mem`, and only the picture was read. -/
structure Blitted (board : Board) (bmp w h rows : ℕ) (mem : ℕ → UInt8) (s : Access) : Prop where
  pixels : ∀ x < w, ∀ y < rows, ∀ k < 4,
    s.mem (targetAddr board w h x y k) = mem (sourceAddr bmp w x y k)
  others : ∀ a, (∀ x < w, ∀ y < rows, ∀ k < 4, a ≠ targetAddr board w h x y k) → s.mem a = mem a
  reads : s.reads ⊆ Set.Ico bmp (bmp + 4 * w * h)
  writes : s.writes ⊆ framebufferOf board

/-! ## One copy -/

section Copy

variable {dst src n : ℕ} {s : Access}

theorem insert_union_Ico (a n : ℕ) (A : Set ℕ) :
    insert a A ∪ Set.Ico (a + 1) (a + 1 + n) = A ∪ Set.Ico a (a + (n + 1)) := by
  ext x
  by_cases hx : x ∈ A
  · simp [hx]
  · simp only [Set.mem_union, Set.mem_insert_iff, Set.mem_Ico, hx, or_false, false_or]
    omega

/-- **A copy between two ranges that do not meet.** -/
theorem memCpy_spec (hdst : dst + n < 2 ^ 64) (hsrc : src + n < 2 ^ 64)
    (hdisj : Disjoint (Set.Ico src (src + n)) (Set.Ico dst (dst + n))) :
    (∀ j < n, (memCpy dst src n s).mem (dst + j) = s.mem (src + j)) ∧
      (∀ a, a ∉ Set.Ico dst (dst + n) → (memCpy dst src n s).mem a = s.mem a) ∧
      (memCpy dst src n s).reads = s.reads ∪ Set.Ico src (src + n) ∧
      (memCpy dst src n s).writes = s.writes ∪ Set.Ico dst (dst + n) := by
  induction n generalizing dst src s with
  | zero => simp [memCpy]
  | succ n ih =>
    have hdisj' : Disjoint (Set.Ico (src + 1) (src + 1 + n)) (Set.Ico (dst + 1) (dst + 1 + n)) :=
      hdisj.mono (Set.Ico_subset_Ico (by omega) (by omega))
        (Set.Ico_subset_Ico (by omega) (by omega))
    have hnot : ∀ j < n + 1, src + j ≠ dst := by
      intro j hj heq
      refine Set.disjoint_left.mp hdisj ⟨Nat.le_add_right src j, ?_⟩ ?_
      · omega
      · exact ⟨heq.ge, by omega⟩
    obtain ⟨hcopy, hkeep, hreads, hwrites⟩ := @ih (dst + 1) (src + 1) (s.copyByte dst src)
      (by omega) (by omega) hdisj'
    rw [memCpy, u64_of_lt (by omega), u64_of_lt (by omega)]
    refine ⟨?_, ?_, ?_, ?_⟩
    · intro j hj
      cases j with
      | zero =>
        rw [hkeep _ (by simp)]
        simp [Access.copyByte]
      | succ j =>
        have hj' := hcopy j (by omega)
        rw [Nat.add_right_comm dst, Nat.add_right_comm src] at hj'
        rw [← Nat.add_assoc, ← Nat.add_assoc, hj']
        exact Function.update_of_ne (hnot (j + 1) hj) _ _
    · intro a ha
      have ha' : a ∉ Set.Ico (dst + 1) (dst + 1 + n) := by
        intro hmem
        exact ha ⟨by have := hmem.1; omega, by have := hmem.2; omega⟩
      have hne : a ≠ dst := fun heq => ha ⟨heq.ge, by omega⟩
      rw [hkeep a ha']
      simp [Access.copyByte, hne]
    · rw [hreads]
      exact insert_union_Ico src n s.reads
    · rw [hwrites]
      exact insert_union_Ico dst n s.writes

end Copy

/-! ## The rows -/

section Rows

variable {board : Board} {bmp w h rows x y k a : ℕ} {mem : ℕ → UInt8} {s : Access}

theorem fbBaseOf_lt (board : Board) : fbBaseOf board + fbWidth * fbHeight * 4 < 2 ^ 64 := by
  cases board <;> decide

/-- Where a row of the picture begins in the framebuffer. -/
def rowAddr (board : Board) (w h y : ℕ) : ℕ :=
  pixelAddr board ((fbHeight - h) / 2 + y) ((fbWidth - w) / 2)

theorem targetAddr_eq : targetAddr board w h x y k = rowAddr board w h y + (4 * x + k) := by
  unfold targetAddr rowAddr pixelAddr
  omega

theorem sourceAddr_eq : sourceAddr bmp w x y k = bmp + y * w * 4 + (4 * x + k) := by
  unfold sourceAddr
  omega

/-- A row lies in the framebuffer. -/
theorem rowAddr_le (hw : w ≤ fbWidth) (hh : h ≤ fbHeight) (hy : y < h) :
    fbBaseOf board ≤ rowAddr board w h y ∧
      rowAddr board w h y + 4 * w ≤ fbBaseOf board + fbWidth * fbHeight * 4 := by
  unfold rowAddr pixelAddr
  unfold fbWidth fbHeight at *
  constructor <;> omega

theorem row_subset (hw : w ≤ fbWidth) (hh : h ≤ fbHeight) (hy : y < h) :
    Set.Ico (rowAddr board w h y) (rowAddr board w h y + 4 * w) ⊆ framebufferOf board :=
  Set.Ico_subset_Ico (rowAddr_le hw hh hy).1 (rowAddr_le hw hh hy).2

/-- A row of the picture lies in the picture. -/
theorem sourceRow_le (hy : y < h) : y * w * 4 + 4 * w ≤ 4 * w * h := by
  have hle : (y + 1) * w ≤ h * w := Nat.mul_le_mul_right w hy
  have hcomm : 4 * w * h = 4 * (h * w) := by ring
  rw [Nat.succ_mul] at hle
  omega

theorem sourceRow_subset (hy : y < h) :
    Set.Ico (bmp + y * w * 4) (bmp + y * w * 4 + 4 * w) ⊆ Set.Ico bmp (bmp + 4 * w * h) := by
  have hle := sourceRow_le (w := w) hy
  exact Set.Ico_subset_Ico (by omega) (by omega)

theorem targetAddr_mem (hx : x < w) (hk : k < 4) : targetAddr board w h x y k ∈
    Set.Ico (rowAddr board w h y) (rowAddr board w h y + 4 * w) := by
  rw [targetAddr_eq]
  constructor <;> omega

theorem targetAddr_mem_framebuffer (hw : w ≤ fbWidth) (hh : h ≤ fbHeight) (hx : x < w) (hy : y < h)
    (hk : k < 4) : targetAddr board w h x y k ∈ framebufferOf board :=
  row_subset hw hh hy (targetAddr_mem hx hk)

/-- Every byte of a row belongs to a pixel. -/
theorem exists_targetAddr
    (ha : a ∈ Set.Ico (rowAddr board w h y) (rowAddr board w h y + 4 * w)) :
    ∃ x < w, ∃ k < 4, a = targetAddr board w h x y k := by
  obtain ⟨h1, h2⟩ := ha
  refine ⟨(a - rowAddr board w h y) / 4, by omega, (a - rowAddr board w h y) % 4, by omega, ?_⟩
  rw [targetAddr_eq]
  omega

/-- **The next row** of the picture. -/
theorem Blitted.memCpy (hs : Blitted board bmp w h rows mem s) (hw : w ≤ fbWidth)
    (hh : h ≤ fbHeight) (hrows : rows < h) (hbmp : bmp + 4 * w * h < 2 ^ 64)
    (hdisj : Disjoint (Set.Ico bmp (bmp + 4 * w * h)) (framebufferOf board)) :
    Blitted board bmp w h (rows + 1) mem
      (memCpy (rowAddr board w h rows) (bmp + rows * w * 4) (4 * w) s) := by
  have hdst : _ ⊆ framebufferOf board := row_subset hw hh hrows
  have hsrc : _ ⊆ Set.Ico bmp (bmp + 4 * w * h) := sourceRow_subset hrows
  have hdstEnd : rowAddr board w h rows + 4 * w ≤ fbBaseOf board + fbWidth * fbHeight * 4 :=
    (rowAddr_le hw hh hrows).2
  have hsrcEnd := sourceRow_le (w := w) hrows
  have hfb := fbBaseOf_lt board
  obtain ⟨hcopy, hkeep, hreads, hwrites⟩ := memCpy_spec (s := s) (by omega) (by omega)
    (hdisj.mono hsrc hdst)
  -- a byte of the picture is in no row of the framebuffer
  have hpicture : ∀ a ∈ Set.Ico bmp (bmp + 4 * w * h), s.mem a = mem a := by
    intro a ha
    refine hs.others a fun x hx y hy k hk heq => ?_
    have hmem : targetAddr board w h x y k ∈ framebufferOf board :=
      targetAddr_mem_framebuffer hw hh hx (hy.trans hrows) hk
    exact Set.disjoint_left.mp hdisj ha (heq ▸ hmem)
  refine ⟨?_, ?_, ?_, ?_⟩
  · intro x hx y hy k hk
    by_cases hlast : y = rows
    · subst hlast
      rw [targetAddr_eq, hcopy _ (by omega), sourceAddr_eq]
      exact hpicture _ (hsrc ⟨Nat.le_add_right _ _, by omega⟩)
    · have hlt : y < rows := by omega
      have hother : targetAddr board w h x y k ∉
          Set.Ico (rowAddr board w h rows) (rowAddr board w h rows + 4 * w) := by
        rintro ⟨h1, -⟩
        unfold targetAddr rowAddr pixelAddr at h1
        unfold fbWidth fbHeight at *
        omega
      rw [hkeep _ hother]
      exact hs.pixels x hx y hlt k hk
  · intro a ha
    have hrow : a ∉ Set.Ico (rowAddr board w h rows) (rowAddr board w h rows + 4 * w) := by
      intro hmem
      obtain ⟨x, hx, k, hk, heq⟩ := exists_targetAddr hmem
      exact ha x hx rows (Nat.lt_succ_self rows) k hk heq
    rw [hkeep a hrow]
    exact hs.others a fun x hx y hy k hk => ha x hx y (Nat.lt_succ_of_lt hy) k hk
  · rw [hreads]
    exact Set.union_subset hs.reads hsrc
  · rw [hwrites]
    exact Set.union_subset hs.writes hdst

theorem blitted_zero (board : Board) (bmp w h : ℕ) (mem : ℕ → UInt8) :
    Blitted board bmp w h 0 mem ⟨mem, ∅, ∅⟩ where
  pixels := by
    intro x hx y hy
    exact absurd hy (Nat.not_lt_zero y)
  others := by
    intro a ha
    rfl
  reads := Set.empty_subset _
  writes := Set.empty_subset _

/-- **All rows**, one after the other. -/
theorem blitted_foldl (hw : w ≤ fbWidth) (hh : h ≤ fbHeight) (hbmp : bmp + 4 * w * h < 2 ^ 64)
    (hdisj : Disjoint (Set.Ico bmp (bmp + 4 * w * h)) (framebufferOf board)) (hrows : rows ≤ h) :
    Blitted board bmp w h rows mem ((List.range rows).foldl (fun s y =>
      Display.memCpy (rowAddr board w h y) (bmp + y * w * 4) (4 * w) s) ⟨mem, ∅, ∅⟩) := by
  induction rows with
  | zero => exact blitted_zero board bmp w h mem
  | succ rows ih =>
    rw [List.range_succ, List.foldl_append]
    exact (ih (Nat.le_of_succ_le hrows)).memCpy hw hh hrows hbmp hdisj

/-- The arithmetic of a row does not overflow. -/
theorem ptrAdd_row (hw : w ≤ fbWidth) (hh : h ≤ fbHeight) (hy : y < h) :
    ptrAdd (fbBaseOf board) (i32 (i32 (i32 (((fbHeight - h) / 2 : ℕ) + y) * fbWidth) +
      ((fbWidth - w) / 2 : ℕ))) 4 = rowAddr board w h y := by
  have hfb := fbBaseOf_lt board
  unfold rowAddr pixelAddr
  unfold fbWidth fbHeight at *
  have h₁ : i32 (((1080 - h) / 2 : ℕ) + y) = (((1080 - h) / 2 + y : ℕ) : ℤ) := by
    rw [← Nat.cast_add]
    exact i32_natCast (by omega)
  have h₂ : i32 ((((1080 - h) / 2 + y : ℕ) : ℤ) * (1920 : ℕ)) =
      ((((1080 - h) / 2 + y) * 1920 : ℕ) : ℤ) := by
    rw [← Nat.cast_mul]
    exact i32_natCast (by omega)
  have h₃ : i32 (((((1080 - h) / 2 + y) * 1920 : ℕ) : ℤ) + ((1920 - w) / 2 : ℕ)) =
      ((((1080 - h) / 2 + y) * 1920 + (1920 - w) / 2 : ℕ) : ℤ) := by
    rw [← Nat.cast_add]
    exact i32_natCast (by omega)
  rw [h₁, h₂, h₃, ptrAdd_natCast (by omega)]

/-- `video_bmp_display` copies the rows one after the other. -/
theorem videoBmpDisplay_eq (hw : w ≤ fbWidth) (hh : h ≤ fbHeight)
    (hbmp : bmp + 4 * w * h < 2 ^ 64) :
    videoBmpDisplay board bmp w h s = (List.range h).foldl (fun s y =>
      Display.memCpy (rowAddr board w h y) (bmp + y * w * 4) (4 * w) s) s := by
  have hx : (i32 (fbWidth - w)).tdiv 2 = ((fbWidth - w) / 2 : ℕ) := by
    rw [← Nat.cast_sub hw, i32_natCast (by unfold fbWidth; omega)]
    exact (Int.ofNat_tdiv _ 2).symm
  have hy : (i32 (fbHeight - h)).tdiv 2 = ((fbHeight - h) / 2 : ℕ) := by
    rw [← Nat.cast_sub hh, i32_natCast (by unfold fbHeight; omega)]
    exact (Int.ofNat_tdiv _ 2).symm
  have hlen : u64 (((w : ℤ) % 2 ^ 64).toNat * 4) = 4 * w := by
    have hmod : ((w : ℤ) % 2 ^ 64).toNat = w := by
      unfold fbWidth at hw
      omega
    unfold fbWidth at hw
    rw [hmod, u64_of_lt (by omega), Nat.mul_comm]
  unfold videoBmpDisplay
  dsimp only
  rw [hx, hy, hlen, Int.toNat_natCast]
  refine List.foldl_ext _ _ _ fun s y hmem => ?_
  have hlt := List.mem_range.mp hmem
  have hsrc : ptrAdd bmp (i32 ((y : ℤ) * (w : ℤ))) 4 = bmp + y * w * 4 := by
    have hle := sourceRow_le (w := w) hlt
    have hmul : y * w ≤ 1080 * 1920 := Nat.mul_le_mul (hlt.le.trans hh) hw
    rw [← Nat.cast_mul, i32_natCast (by omega), ptrAdd_natCast (by omega)]
  rw [ptrAdd_row hw hh hlt, hsrc]

/-- On the board of QEMU these are the copies of `Boot.Framebuffer`. -/
theorem videoBmpDisplay_rows (hw : w ≤ fbWidth) (hh : h ≤ fbHeight) :
    OscKernel.videoBmpDisplay w h =
      (List.range h).map fun y => (rowAddr .qemu w h y, w * 4) :=
  OscKernel.videoBmpDisplay_eq hw hh

end Rows

/-! ## The system call -/

section Call

variable {board : Board} {b : Buddy} {bmp : BitVec 64} {w h : BitVec 32} {mem : ℕ → UInt8}

/-- **The blit.**  For a picture that does not meet the framebuffer, `sys_display` returns `-1` and
neither reads nor writes, or it returns `0`, has put the picture into the middle of the framebuffer
and nothing elsewhere, and has read the picture and written the framebuffer only. -/
theorem sysDisplay_blits
    (hdisj : Disjoint (Set.Ico bmp.toNat (bmp.toNat + 4 * w.toNat * h.toNat))
      (framebufferOf board)) :
    sysDisplay board b bmp w h ⟨mem, ∅, ∅⟩ = (-1, ⟨mem, ∅, ∅⟩) ∨
      w.toNat ≤ fbWidth ∧ h.toNat ≤ fbHeight ∧
        inUserRange b bmp.toNat (4 * w.toNat * h.toNat) = true ∧
        ∃ s, sysDisplay board b bmp w h ⟨mem, ∅, ∅⟩ = (0, s) ∧
          Blitted board bmp.toNat w.toNat h.toNat h.toNat mem s := by
  by_cases hacc : (BufferCall.sysDisplay bmp w h).accepts b = true
  · right
    have hcall := hacc
    rw [BufferCall.accepts] at hcall
    split_ifs at hcall with hbad
    rw [not_or, not_or, not_or, not_lt, not_lt] at hbad
    obtain ⟨-, -, hw, hh⟩ := hbad
    have hmul : w.toNat * h.toNat ≤ 1920 * 1080 := Nat.mul_le_mul hw hh
    have hbytes : u64 (w.toNat * h.toNat * 4) = 4 * w.toNat * h.toNat := by
      rw [u64_of_lt (by omega)]
      ring
    have hsize : 4 * w.toNat * h.toNat < 2 ^ 64 := hbytes ▸ u64_lt _
    rw [hbytes] at hcall
    have hend := (add_lt_of_inUserRange hsize hcall).resolve_right (not_le.mpr bmp.isLt)
    have hwInt : w.toInt = w.toNat :=
      BitVec.toInt_eq_toNat_of_lt (by unfold fbWidth at hw; omega)
    have hhInt : h.toInt = h.toNat :=
      BitVec.toInt_eq_toNat_of_lt (by unfold fbHeight at hh; omega)
    refine ⟨hw, hh, hcall, videoBmpDisplay board bmp.toNat w.toInt h.toInt ⟨mem, ∅, ∅⟩, ?_, ?_⟩
    · rw [sysDisplay, if_pos hacc]
    · rw [hwInt, hhInt, videoBmpDisplay_eq hw hh hend]
      exact blitted_foldl hw hh hend hdisj le_rfl
  · left
    rw [sysDisplay, if_neg hacc]

/-- A picture of three by three pixels, on the board of QEMU. -/
theorem sysDisplay_blits_three :
    ∃ s, sysDisplay .qemu qemuDram 0x80300000#64 3#32 3#32 ⟨fun a => UInt8.ofNat a, ∅, ∅⟩ = (0, s) ∧
      Blitted .qemu 0x80300000 3 3 3 (fun a => UInt8.ofNat a) s := by
  have hdisj : Disjoint (Set.Ico (0x80300000#64).toNat
      ((0x80300000#64).toNat + 4 * (3#32).toNat * (3#32).toNat)) (framebufferOf .qemu) := by
    refine Set.disjoint_left.mpr fun x hx hxf => ?_
    have h1 : x < 0x80300000 + 36 := hx.2
    have h2 : 0x87000000 ≤ x := hxf.1
    omega
  rcases @sysDisplay_blits .qemu qemuDram _ _ _ (fun a => UInt8.ofNat a) hdisj with
    h | ⟨-, -, -, h⟩
  · have hacc : (BufferCall.sysDisplay 0x80300000#64 3#32 3#32).accepts qemuDram = true := by
      decide
    rw [sysDisplay, if_pos hacc] at h
    cases (Prod.mk.inj h).1
  · exact h

end Call

end Display
end OscKernel
