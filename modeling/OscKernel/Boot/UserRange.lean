import OscKernel.Boot.Framebuffer
import OscKernel.Uart.Load

/-!
# User buffers (`syscall.c`)

Without an MMU the kernel checks the buffers of system calls itself.  `in_user_range` refuses a
range whose end wraps or that leaves the DRAM; the kernel image, `frame_array` and `page_pool_idx`
lie in the DRAM too.

* `inUserRange`, `BufferCall.accepts`: the check, and the system calls that make it.
* `guarded_iff`: whatever is allocated after boot, an accepted buffer meets no memory of the kernel
  exactly when no page of it belongs to a region that `main` registers or to the metadata.
* `kept_of_guarded`: then `sys_uart_read` writes no such memory.
* `overwritten_of_uartRead`: the kernel image of the QEMU build is accepted as a buffer.

## What the condition is about

The memory that must not be reached is what is reserved: the frames of the kernel image, of the
other regions that `main` registers, and of the two arrays.  The condition is on the buffer and on
these regions, and not on the state of the allocator.  Between the two stands
`reserved_iff_protected`: a frame is reserved exactly when its page belongs to one of them.  The
replay of the table proves one direction; for the other, the table must have had room for every
region, which follows from the two allocations that came after (`metadata_le`): they need an entry
each.

No allocation and no release changes which frames are reserved.  This is why the theorem can speak
of every state that is reached after boot and have a condition that does not mention it.

## What is assumed

Both arrays have been found a place, the kernel image is among the regions, and the sums of the
startup allocator do not wrap.  The lengths of the calls are those of the source: `count` is an
`unsigned long`, the sides of a picture are `unsigned int`, and each call refuses what its own test
refuses (`BufferCall.Sized`).
-/

namespace OscKernel

open Buddy Startup Transition

/-! ## The code -/

/-- `in_user_range`. -/
def inUserRange (b : Buddy) (p n : ℕ) : Bool :=
  let e := u64 (p + n)
  if e < p then false
  else
    let dramBase := b.gBuddyBase
    let dramEnd := u64 (dramBase + b.gTotalPages * pageSize)
    decide (p ≥ dramBase ∧ e ≤ dramEnd)

/-- A system call with a buffer of the user. -/
inductive BufferCall where
  | sysUartRead (buf count : BitVec 64)
  | sysUartWrite (buf count : BitVec 64)
  | sysDisplay (bmp : BitVec 64) (w h : BitVec 32)

namespace BufferCall

/-- The start and the length of the buffer. -/
def buffer : BufferCall → ℕ × ℕ
  | sysUartRead buf count | sysUartWrite buf count => (buf.toNat, count.toNat)
  | sysDisplay bmp w h => (bmp.toNat, u64 (w.toNat * h.toNat * 4))

/-- The other arguments pass their checks: `count` is positive (for `sys_uart_write`: not negative),
or the picture fits on the screen. -/
def Sized : BufferCall → Prop
  | sysUartRead _ count => 0 < count.toInt
  | sysUartWrite _ count => 0 ≤ count.toInt
  | sysDisplay _ w h => w ≠ 0 ∧ h ≠ 0 ∧ w.toNat ≤ fbWidth ∧ h.toNat ≤ fbHeight

/-- The call goes past its checks. -/
def accepts (b : Buddy) : BufferCall → Bool
  | sysUartRead buf count => !(decide (count.toInt ≤ 0) || !inUserRange b buf.toNat count.toNat)
  | sysUartWrite buf count => !(decide (count.toInt < 0) || !inUserRange b buf.toNat count.toNat)
  | sysDisplay bmp w h =>
      if w = 0 ∨ h = 0 ∨ w.toNat > fbWidth ∨ h.toNat > fbHeight then false
      else inUserRange b bmp.toNat (u64 (w.toNat * h.toNat * 4))

end BufferCall

/-- The loop of `sys_uart_read`, for the characters that `uart_getc` returns one after another: the
memory, and the number of bytes that are in the buffer. -/
def uartReadLoop (buf count : ℕ) : List ℤ → ℕ → (ℕ → UInt8) → (ℕ → UInt8) × ℕ
  | [], i, mem => (mem, i)
  | c :: chars, i, mem =>
      if i < count then
        if c < 0 then
          if i > 0 then (mem, i) else uartReadLoop buf count chars i mem
        else
          uartReadLoop buf count chars (i + 1)
            (Function.update mem (u64 (buf + i)) (Uart.toUChar c))
      else (mem, i)

/-- `sys_uart_read`, up to the last of these characters; `-1` when it is refused. -/
def sysUartRead (b : Buddy) (buf count : BitVec 64) (chars : List ℤ) (mem : ℕ → UInt8) :
    (ℕ → UInt8) × ℤ :=
  if (BufferCall.sysUartRead buf count).accepts b then
    let (mem, i) := uartReadLoop buf.toNat count.toNat chars 0 mem
    (mem, i)
  else (mem, -1)

/-- The bytes of a buffer. -/
def bufferBytes (r : ℕ × ℕ) : Set ℕ := Set.Ico r.1 (r.1 + r.2)

/-- **A buffer that meets no memory of the kernel**: neither its image, nor `frame_array`, nor
`page_pool_idx`, nor any page that is `RESERVED`. -/
structure Guarded (b : Buddy) (kernel : ℕ × ℕ) (frameArray pagePoolIdx : ℕ) (r : ℕ × ℕ) :
    Prop where
  kernel : Disjoint (bufferBytes r) (Set.Ico kernel.1 kernel.2)
  frameArray : Disjoint (bufferBytes r) (Set.Ico frameArray (frameArray + b.gTotalPages * 4))
  pagePoolIdx : Disjoint (bufferBytes r) (Set.Ico pagePoolIdx (pagePoolIdx + b.gTotalPages))
  reserved : ∀ j < b.gTotalPages, b.frameArray j = frameReserved →
    Disjoint (bufferBytes r) (Set.Ico (b.idxToAddr j) (b.idxToAddr j + pageSize))

/-- The range does not wrap and lies in the DRAM. -/
def InDram (base size : ℕ) (r : ℕ × ℕ) : Prop :=
  r.1 + r.2 < 2 ^ 64 ∧ base ≤ r.1 ∧ r.1 + r.2 ≤ base + size / pageSize * pageSize

/-- The page of `x` is one of those that the region is rounded to. -/
def OnPageOf (r : ℕ × ℕ) (x : ℕ) : Prop := pageDown r.1 ≤ pageDown x ∧ pageDown x < pageUp r.2

/-- No page of the buffer belongs to one of the regions. -/
def Clear (regions : List (ℕ × ℕ)) (r : ℕ × ℕ) : Prop :=
  ∀ x ∈ bufferBytes r, ∀ g ∈ regions, ¬ OnPageOf g x

/-- What `main` keeps off the heap: the metadata, and the regions that it registers. -/
def protectedRegions (size frameArray pagePoolIdx : ℕ) (regions : List (ℕ × ℕ)) : List (ℕ × ℕ) :=
  (frameArray, frameArray + size / pageSize * 4) ::
    (pagePoolIdx, pagePoolIdx + size / pageSize) :: regions

/-! ## The check -/

section Check

variable {b : Buddy} {base size : ℕ} {p n : ℕ} {c : BufferCall}

/-- What the check says about a memory that ends inside the address space. -/
theorem inUserRange_iff (hbase : b.gBuddyBase = base) (hpages : b.gTotalPages = size / pageSize)
    (hend : base + size < 2 ^ 64) (hp : p < 2 ^ 64) (hn : n < 2 ^ 64) :
    inUserRange b p n = true ↔ InDram base size (p, n) := by
  have hdram : u64 (base + size / pageSize * pageSize) = base + size / pageSize * pageSize := by
    refine u64_of_lt (lt_of_le_of_lt (Nat.add_le_add_left (Nat.div_mul_le_self _ _) _) hend)
  unfold inUserRange InDram
  dsimp only
  rw [hbase, hpages, hdram]
  rcases Nat.lt_or_ge (p + n) (2 ^ 64) with hlt | hwrap
  · rw [u64_of_lt hlt, if_neg (by omega), decide_eq_true_iff]
    exact (and_iff_right hlt).symm
  · have hmod : u64 (p + n) = p + n - 2 ^ 64 := by
      unfold u64
      omega
    rw [hmod, if_pos (by omega)]
    exact iff_of_false Bool.false_ne_true fun h => absurd h.1 (not_lt.mpr hwrap)

theorem BufferCall.buffer_lt (c : BufferCall) : c.buffer.1 < 2 ^ 64 ∧ c.buffer.2 < 2 ^ 64 := by
  cases c with
  | sysUartRead buf count | sysUartWrite buf count => exact ⟨buf.isLt, count.isLt⟩
  | sysDisplay bmp w h => exact ⟨bmp.isLt, u64_lt _⟩

/-- A call is accepted when its arguments pass their checks and its buffer lies in the DRAM. -/
theorem BufferCall.accepts_iff (hbase : b.gBuddyBase = base)
    (hpages : b.gTotalPages = size / pageSize) (hend : base + size < 2 ^ 64) (c : BufferCall) :
    c.accepts b = true ↔ c.Sized ∧ InDram base size c.buffer := by
  obtain ⟨hp, hn⟩ := c.buffer_lt
  have hrange := inUserRange_iff hbase hpages hend hp hn
  cases c with
  | sysUartRead buf count =>
    rw [accepts, Bool.not_or, Bool.not_not, Bool.and_eq_true, ← decide_not, decide_eq_true_iff,
      not_le]
    exact and_congr_right fun _ => hrange
  | sysUartWrite buf count =>
    rw [accepts, Bool.not_or, Bool.not_not, Bool.and_eq_true, ← decide_not, decide_eq_true_iff,
      not_lt]
    exact and_congr_right fun _ => hrange
  | sysDisplay bmp w h =>
    unfold accepts Sized
    dsimp only
    split_ifs with hbad
    · refine iff_of_false not_false fun ⟨⟨hw, hh, hfw, hfh⟩, _⟩ => ?_
      rcases hbad with hbad | hbad | hbad | hbad
      · exact hw hbad
      · exact hh hbad
      · exact absurd hfw (not_le.mpr hbad)
      · exact absurd hfh (not_le.mpr hbad)
    · rw [not_or, not_or, not_or, not_lt, not_lt] at hbad
      exact hrange.trans (and_iff_right hbad).symm

end Check

/-! ## The reserved frames -/

section Reserved

variable {base size : ℕ} {regions : List (ℕ × ℕ)} {st : Startup} {frameArray pagePoolIdx : ℕ}

/-- Registering regions never removes an entry. -/
theorem length_le_foldl_reserve (rs : List (ℕ × ℕ)) (s : Startup) : s.gSaReserves.length ≤
    (rs.foldl (fun s r => s.buddyStartupReserve r.1 r.2) s).gSaReserves.length := by
  induction rs generalizing s with
  | nil => exact le_rfl
  | cons r rs ih =>
    refine le_trans ?_ (ih (s.buddyStartupReserve r.1 r.2))
    rcases s.buddyStartupReserve_cases r.1 r.2 with heq | ⟨-, -, heq⟩ <;> rw [heq]
    rw [List.length_append]
    exact Nat.le_add_right _ _

/-- When the table has room left, it holds what every region has of the memory. -/
theorem mem_startupTable_iff
    (hroom : (startupTable base size regions).length < buddyStartupMaxReserves) (e : ℕ × ℕ) :
    e ∈ startupTable base size regions ↔ ∃ r ∈ regions, e.1 < e.2 ∧
      e = (max (pageDown r.1) base, min (pageUp r.2) (u64 (base + size))) := by
  have key : ∀ (rs : List (ℕ × ℕ)) (s : Startup), s.gSaMemBase = base →
      s.gSaMemEnd = u64 (base + size) →
      (rs.foldl (fun s r => s.buddyStartupReserve r.1 r.2) s).gSaReserves.length <
        buddyStartupMaxReserves →
      (e ∈ (rs.foldl (fun s r => s.buddyStartupReserve r.1 r.2) s).gSaReserves ↔
        e ∈ s.gSaReserves ∨ ∃ r ∈ rs, e.1 < e.2 ∧
          e = (max (pageDown r.1) base, min (pageUp r.2) (u64 (base + size)))) := by
    intro rs
    induction rs with
    | nil => exact fun s _ _ _ => by simp
    | cons r rs ih =>
      intro s hlow hhigh hlen
      obtain ⟨hlow', hhigh'⟩ := s.memory_buddyStartupReserve r.1 r.2
      have hone : s.gSaReserves.length < buddyStartupMaxReserves :=
        (length_le_foldl_reserve (r :: rs) s).trans_lt hlen
      rw [List.foldl_cons, ih _ (hlow'.trans hlow) (hhigh'.trans hhigh) hlen,
        List.exists_mem_cons_iff, ← or_assoc, buddyStartupReserve_eq hone, hlow, hhigh]
      refine or_congr_left ?_
      split_ifs with hlt
      · rw [List.mem_append, List.mem_singleton]
        refine or_congr_right ⟨fun he => ⟨?_, he⟩, fun he => he.2⟩
        rw [he]
        exact hlt
      · refine (or_iff_left fun he => hlt ?_).symm
        have h := he.1
        rw [he.2] at h
        exact h
  refine (key regions (buddyStartupInit base size) rfl rfl hroom).trans (or_iff_right ?_)
  exact List.not_mem_nil

/-- The metadata lie inside the memory, and the table has room for all regions. -/
theorem metadata_le (hend : base + size + pageSize + pageUp (size / pageSize * 4) ≤ 2 ^ 64)
    (hboot : mainMetadata base size regions = some (st, frameArray, pagePoolIdx))
    (hfa : frameArray ≠ 0) (hppi : pagePoolIdx ≠ 0) :
    (startupTable base size regions).length < buddyStartupMaxReserves ∧
      frameArray + pageUp (size / pageSize * 4) ≤ base + size ∧
        pagePoolIdx + pageUp (size / pageSize) ≤ base + size := by
  have hpos : 0 < pageSize := by decide
  have hmono : pageUp (size / pageSize) ≤ pageUp (size / pageSize * 4) := by
    rw [pageUp_of_lt (by unfold pageSize at *; omega),
      pageUp_of_lt (by unfold pageSize at *; omega)]
    exact Nat.mul_le_mul_right _ (Nat.div_le_div_right (by omega))
  obtain ⟨hlow, hhigh⟩ := memory_foldl regions (buddyStartupInit base size)
  replace hhigh := hhigh.trans (u64_of_lt (show base + size < 2 ^ 64 by omega))
  obtain ⟨s', h1, h2⟩ := mainMetadata_spec hboot
  rw [u64_of_lt (show size / pageSize * 4 < 2 ^ 64 by unfold pageSize at *; omega)] at h1
  obtain ⟨-, hlow', hhigh', -⟩ := buddyStartupAlloc_spec h1
  have hentry : ∀ e ∈ startupTable base size regions, e.1 ≤ base + size ∧ e.2 ≤ base + size :=
    fun e he => by
      obtain ⟨hlt, a, b, rfl⟩ := mem_startupTable he
      rw [u64_of_lt (show base + size < 2 ^ 64 by omega)] at hlt ⊢
      have hle : min (pageUp b) (base + size) ≤ base + size := min_le_right _ _
      exact ⟨hlt.le.trans hle, hle⟩
  obtain ⟨hle, hentry'⟩ := alloc_le (by rw [hhigh]; exact hend)
    (by rw [hlow, hhigh]; exact Nat.le_add_right _ _) (fun e he => by rw [hhigh]; exact hentry e he)
    h1 hfa
  obtain ⟨hle', -⟩ := alloc_le (by rw [hhigh', hhigh]; omega)
    (by rw [hlow', hlow, hhigh', hhigh]; exact Nat.le_add_right _ _) hentry' h2 hppi
  rw [hhigh] at hle
  rw [hhigh', hhigh] at hle'
  exact ⟨length_lt_of_alloc h1 hfa, hle, hle'⟩

/-- A page of the memory lies between the rounded ends of what is clamped to the memory exactly when
it lies between those of the region. -/
theorem page_clamped_iff (hbase : pageSize ∣ base) (hend : base + size + pageSize ≤ 2 ^ 64)
    {a b P : ℕ} (hP : pageSize ∣ P) (h1 : base ≤ P) (h2 : P + pageSize ≤ base + size) :
    (max (pageDown a) base < min (pageUp b) (base + size) ∧
        pageDown (max (pageDown a) base) ≤ P ∧ P < pageUp (min (pageUp b) (base + size))) ↔
      pageDown a ≤ P ∧ P < pageUp b := by
  have hmax : pageSize ∣ max (pageDown a) base := max_rec (fun _ => dvd_pageDown a) fun _ => hbase
  have hdown : pageDown (max (pageDown a) base) = max (pageDown a) base := pageDown_of_dvd hmax
  have hup : pageUp (min (pageUp b) (base + size)) =
      pageDown (min (pageUp b) (base + size) + pageSize - 1) :=
    pageUp_of_lt (by unfold pageSize at *; omega)
  rw [hdown, hup]
  obtain ⟨q, hq⟩ := dvd_pageUp b
  obtain ⟨p, rfl⟩ := hP
  generalize pageUp b = B at *
  generalize pageDown a = A at *
  unfold pageDown pageSize at *
  omega

/-- A page of the memory lies in the entry of an allocation exactly when it lies between the rounded
ends of the allocation. -/
theorem page_alloc_iff {ret n P : ℕ} (hret : pageSize ∣ ret)
    (hle : ret + pageUp n + pageSize ≤ 2 ^ 64) (hn : n + pageSize ≤ 2 ^ 64) :
    (pageDown ret ≤ P ∧ P < pageUp (u64 (ret + pageUp n))) ↔
      pageDown ret ≤ P ∧ P < pageUp (ret + n) := by
  have hpos : 0 < pageSize := by decide
  have hup : pageUp n = pageDown (n + pageSize - 1) := pageUp_of_lt (by omega)
  have hend : pageSize ∣ ret + pageUp n := Nat.dvd_add hret (dvd_pageUp n)
  have hround := le_pageDown_add n
  rw [u64_of_lt (by omega), pageUp_of_dvd hend (by omega), pageUp_of_lt (show
    ret + n + pageSize - 1 < 2 ^ 64 by omega)]
  refine and_congr_right fun _ => ?_
  rw [hup]
  obtain ⟨q, rfl⟩ := hret
  unfold pageDown pageSize at *
  omega

/-- **Which frames are reserved** after the replay: those whose page belongs to a region that was
registered, or to the metadata. -/
theorem reserved_iff_protected (fa : ℕ → ℤ) (hbase : pageSize ∣ base)
    (hend : base + size + pageSize + pageUp (size / pageSize * 4) ≤ 2 ^ 64)
    (hboot : mainMetadata base size regions = some (st, frameArray, pagePoolIdx))
    (hfa : frameArray ≠ 0) (hppi : pagePoolIdx ≠ 0) {j : ℕ} (hj : j < size / pageSize) :
    (reservedBuddy fa base size st.gSaReserves).frameArray j = frameReserved ↔
      ∃ g ∈ protectedRegions size frameArray pagePoolIdx regions,
        pageDown g.1 ≤ base + j * pageSize ∧ base + j * pageSize < pageUp g.2 := by
  have hpos : 0 < pageSize := by decide
  have hsize : size ≤ 2 ^ 64 := by omega
  obtain ⟨hroom, hle, hle'⟩ := metadata_le hend hboot hfa hppi
  obtain ⟨hd, hd'⟩ := dvd_mainMetadata hboot
  have hpage : pageSize ∣ base + j * pageSize := Nat.dvd_add hbase (Nat.dvd_mul_left _ _)
  have hin : base + j * pageSize + pageSize ≤ base + size := by
    have := Nat.div_mul_le_self size pageSize
    have hmul : (j + 1) * pageSize ≤ size / pageSize * pageSize := Nat.mul_le_mul_right _ hj
    rw [Nat.succ_mul] at hmul
    omega
  have hregion := fun r : ℕ × ℕ => page_clamped_iff (a := r.1) (b := r.2) hbase
    (by omega) hpage (Nat.le_add_right _ _) hin
  have hmeta := page_alloc_iff (n := size / pageSize * 4) (P := base + j * pageSize) hd (by omega)
    (by unfold pageSize at *; omega)
  have hmeta' := page_alloc_iff (n := size / pageSize) (P := base + j * pageSize) hd' (by omega)
    (by unfold pageSize at *; omega)
  rw [reserved_iff fa hbase (by omega) st.gSaReserves hj]
  have hu : u64 (base + size) = base + size := u64_of_lt (by omega)
  constructor
  · rintro ⟨e, he, h1, h2⟩
    rcases (mem_mainMetadata hboot hsize e).mp he with he | ⟨-, rfl⟩ | ⟨-, rfl⟩
    · obtain ⟨r, hr, hlt, heq⟩ := (mem_startupTable_iff hroom e).mp he
      rw [hu] at heq
      subst heq
      exact ⟨r, List.mem_cons_of_mem _ (List.mem_cons_of_mem _ hr),
        (hregion r).mp ⟨hlt, h1, h2⟩⟩
    · exact ⟨_, List.mem_cons_self, hmeta.mp ⟨h1, h2⟩⟩
    · exact ⟨_, List.mem_cons_of_mem _ List.mem_cons_self, hmeta'.mp ⟨h1, h2⟩⟩
  · rintro ⟨g, hg, hP⟩
    rcases List.mem_cons.mp hg with rfl | hg
    · exact ⟨_, (mem_mainMetadata hboot hsize _).mpr (Or.inr (Or.inl ⟨hfa, rfl⟩)), hmeta.mpr hP⟩
    · rcases List.mem_cons.mp hg with rfl | hg
      · exact ⟨_, (mem_mainMetadata hboot hsize _).mpr (Or.inr (Or.inr ⟨hppi, rfl⟩)),
          hmeta'.mpr hP⟩
      · obtain ⟨hlt, hP⟩ := (hregion g).mpr hP
        have he := (mem_startupTable_iff hroom
          (max (pageDown g.1) base, min (pageUp g.2) (base + size))).mpr ⟨g, hg, hlt, by rw [hu]⟩
        exact ⟨_, (mem_mainMetadata hboot hsize _).mpr (Or.inl he), hP⟩

end Reserved

/-! ## The result -/

section Result

variable {base size : ℕ} {regions : List (ℕ × ℕ)} {st : Startup} {frameArray pagePoolIdx : ℕ}
  {kernel : ℕ × ℕ} {m : MemClient}

/-- A byte of a region is on one of its pages. -/
theorem onPageOf_of_mem {r : ℕ × ℕ} {x : ℕ} (hr : r.2 + pageSize - 1 < 2 ^ 64)
    (hx : x ∈ Set.Ico r.1 r.2) : OnPageOf r x := by
  obtain ⟨h1, h2⟩ := hx
  have hround := le_pageDown_add r.2
  rw [OnPageOf, pageUp_of_lt hr]
  refine ⟨Nat.mul_le_mul_right _ (Nat.div_le_div_right h1), ?_⟩
  have := pageDown_le x
  omega

/-- The frame of a byte of the DRAM. -/
theorem frame_of_mem_dram (hbase : pageSize ∣ base) {r : ℕ × ℕ} (hr : InDram base size r) {x : ℕ}
    (hx : x ∈ bufferBytes r) : ∃ j < size / pageSize, pageDown x = base + j * pageSize := by
  obtain ⟨h1, h2⟩ := hx
  obtain ⟨-, h3, h4⟩ := hr
  refine ⟨(x - base) / pageSize, ?_, ?_⟩
  · refine (Nat.div_lt_iff_lt_mul (by decide)).mpr ?_
    omega
  · obtain ⟨q, rfl⟩ := hbase
    unfold pageDown pageSize at *
    omega

/-- **User buffers and the memory of the kernel.**  Whatever the memory map is, once both
allocations of `main` have succeeded, and whatever is allocated after that: a buffer that
`sys_uart_read`, `sys_uart_write` or `sys_display` accepts meets no memory of the kernel exactly
when no page of it belongs to a region that `main` registers or to the metadata, unless it is
refused because its length or its place is wrong. -/
theorem guarded_iff (fa : ℕ → ℤ) (hbase : pageSize ∣ base)
    (hend : base + size + pageSize + pageUp (size / pageSize * 4) ≤ 2 ^ 64)
    (hboot : mainMetadata base size regions = some (st, frameArray, pagePoolIdx))
    (hfa : frameArray ≠ 0) (hppi : pagePoolIdx ≠ 0) (hkernel : kernel ∈ regions)
    (hkend : kernel.2 + pageSize - 1 < 2 ^ 64) (pools : ℕ → Pool) (ppi : ℕ → ℤ) (mem : ℕ → ℕ)
    (hm : Reachable MemClient.step anyStep (bootMem fa base size st.gSaReserves pools ppi mem) m)
    (c : BufferCall) :
    (c.accepts m.client.heap.buddy = true →
        Guarded m.client.heap.buddy kernel frameArray pagePoolIdx c.buffer) ↔
      (c.Sized → InDram base size c.buffer →
        Clear (protectedRegions size frameArray pagePoolIdx regions) c.buffer) := by
  have hpos : 0 < pageSize := by decide
  have hok : m.Ok base size _ := hm.invariant (P := MemClient.Ok base size _)
    (MemClient.ok_bootMem fa hbase (by omega) st.gSaReserves pools ppi mem)
    fun _ _ _ h _ hstep => h.step hstep
  obtain ⟨fl, hheap⟩ := hok.heap
  have hpages := hok.pages_eq
  have haddr : ∀ {j}, j < size / pageSize →
      m.client.heap.buddy.idxToAddr j = base + j * pageSize := fun hj => by
    rw [idxToAddr_eq hheap.region.inside (hpages ▸ hj), hok.base_eq]
  have hres : ∀ {j}, j < size / pageSize → (m.client.heap.buddy.frameArray j = frameReserved ↔ _) :=
    fun {j} hj => (hok.reserved j).trans (reserved_iff_protected fa hbase hend hboot hfa hppi hj)
  obtain ⟨-, hle, hle'⟩ := metadata_le hend hboot hfa hppi
  rw [BufferCall.accepts_iff hok.base_eq hpages (by omega), and_imp]
  refine forall_congr' fun _ => forall_congr' fun hdram => ⟨fun h x hx g hg hgx => ?_, fun h => ?_⟩
  · -- the page of `x` belongs to `g`, so its frame is reserved
    obtain ⟨j, hj, hpage⟩ := frame_of_mem_dram hbase hdram hx
    rw [OnPageOf, hpage] at hgx
    refine Set.disjoint_left.mp (h.reserved j (hpages ▸ hj) ((hres hj).mpr ⟨g, hg, hgx⟩)) hx ?_
    rw [haddr hj, ← hpage]
    exact ⟨pageDown_le x, lt_pageDown_add x⟩
  · have hround := le_pageDown_add (size / pageSize * 4)
    have hround' := le_pageDown_add (size / pageSize)
    rw [pageUp_of_lt (by unfold pageSize at *; omega)] at hle hle'
    refine ⟨Set.disjoint_left.mpr fun x hx hk => ?_, Set.disjoint_left.mpr fun x hx hk => ?_,
      Set.disjoint_left.mpr fun x hx hk => ?_,
      fun j hj hr => Set.disjoint_left.mpr fun x hx hk => ?_⟩
    · exact h x hx kernel (List.mem_cons_of_mem _ (List.mem_cons_of_mem _ hkernel))
        (onPageOf_of_mem hkend hk)
    · rw [hpages] at hk
      exact h x hx _ List.mem_cons_self (onPageOf_of_mem (by dsimp only; omega) hk)
    · rw [hpages] at hk
      exact h x hx _ (List.mem_cons_of_mem _ List.mem_cons_self)
        (onPageOf_of_mem (by dsimp only; omega) hk)
    · rw [hpages] at hj
      obtain ⟨g, hg, hgx⟩ := (hres hj).mp hr
      refine h x hx g hg ?_
      have hpage : pageDown x = base + j * pageSize := by
        rw [haddr hj] at hk
        obtain ⟨h1, h2⟩ := hk
        obtain ⟨q, rfl⟩ := hbase
        unfold pageDown pageSize at *
        omega
      rw [OnPageOf, hpage]
      exact hgx

end Result

/-! ## What is read -/

section Read

variable {b : Buddy} {kernel : ℕ × ℕ} {frameArray pagePoolIdx x : ℕ} {buf count : BitVec 64}

/-- A range that is accepted does not wrap. -/
theorem add_lt_of_inUserRange {p n : ℕ} (hn : n < 2 ^ 64) (h : inUserRange b p n = true) :
    p + n < 2 ^ 64 ∨ p ≥ 2 ^ 64 := by
  unfold inUserRange at h
  dsimp only at h
  split_ifs at h with hlt
  unfold u64 at hlt
  omega

/-- The loop writes to the buffer only. -/
theorem uartReadLoop_of_not_mem {buf count : ℕ} (hend : buf + count < 2 ^ 64)
    (hx : x ∉ bufferBytes (buf, count)) (chars : List ℤ) (i : ℕ) (mem : ℕ → UInt8) :
    (uartReadLoop buf count chars i mem).1 x = mem x := by
  induction chars generalizing i mem with
  | nil => rfl
  | cons c chars ih =>
    rw [uartReadLoop]
    split_ifs with hi hneg hpos
    · rfl
    · exact ih i mem
    · refine (ih (i + 1) _).trans (Function.update_of_ne (fun heq => hx ?_) _ _)
      rw [heq, u64_of_lt (by omega)]
      exact ⟨Nat.le_add_right _ _, Nat.add_lt_add_left hi _⟩
    · rfl

/-- **`sys_uart_read` writes no memory of the kernel** when the buffers it accepts meet none. -/
theorem kept_of_guarded
    (h : (BufferCall.sysUartRead buf count).accepts b = true →
      Guarded b kernel frameArray pagePoolIdx (BufferCall.sysUartRead buf count).buffer)
    (hx : x ∈ Set.Ico kernel.1 kernel.2 ∨
      ∃ j < b.gTotalPages, b.frameArray j = frameReserved ∧
        x ∈ Set.Ico (b.idxToAddr j) (b.idxToAddr j + pageSize))
    (chars : List ℤ) (mem : ℕ → UInt8) : (sysUartRead b buf count chars mem).1 x = mem x := by
  unfold sysUartRead
  split_ifs with hacc
  · have hguard := h hacc
    have hnot : x ∉ bufferBytes (buf.toNat, count.toNat) := fun hxb => by
      rcases hx with hx | ⟨j, hj, hr, hx⟩
      · exact Set.disjoint_left.mp hguard.kernel hxb hx
      · exact Set.disjoint_left.mp (hguard.reserved j hj hr) hxb hx
    rw [BufferCall.accepts, Bool.not_or, Bool.not_not, Bool.and_eq_true] at hacc
    have hend := add_lt_of_inUserRange count.isLt hacc.2
    exact uartReadLoop_of_not_mem (hend.resolve_right (not_le.mpr buf.isLt)) hnot chars 0 mem
  · rfl

end Read

/-! ## The 128 MB of QEMU -/

/-- The buddy system for this memory, with all frames as parts of blocks. -/
def qemuDram : Buddy := ⟨0x80000000, 0x88000000, 0x8000, fun _ => 0, fun _ => []⟩

/-- The device tree, the kernel and the firmware. -/
def qemuRegions : List (ℕ × ℕ) :=
  [(0x87e00000, 0x87e01a00), (0x80200000, 0x80260000), (0x80000000, 0x80040000)]

/-- What the startup allocator makes of them. -/
def qemuStartup : Startup :=
  ⟨[(0x80000000, 0x80040000), (0x80040000, 0x80060000), (0x80200000, 0x80260000),
    (0x87e00000, 0x87e02000), (0x80060000, 0x80068000)], 0x80000000, 0x88000000⟩

theorem mainMetadata_qemu : mainMetadata 0x80000000 0x8000000 qemuRegions =
    some (qemuStartup, 0x80040000, 0x80060000) := by
  decide +kernel

/-- The heap after boot. -/
def qemuMem : MemClient :=
  bootMem (fun _ => 0) 0x80000000 0x8000000 qemuStartup.gSaReserves (fun _ => ⟨0, 0⟩) (fun _ => 0)
    fun _ => 0

/-- A buffer behind the kernel. -/
theorem guarded_of_uartRead :
    (BufferCall.sysUartRead 0x80300000 16).accepts qemuMem.client.heap.buddy = true ∧
      Guarded qemuMem.client.heap.buddy (0x80200000, 0x80260000) 0x80040000 0x80060000
        (BufferCall.sysUartRead 0x80300000 16).buffer := by
  have hok := @MemClient.ok_bootMem 0x80000000 0x8000000 (fun _ => 0) (by decide)
    (by decide) qemuStartup.gSaReserves (fun _ => ⟨0, 0⟩) (fun _ => 0) fun _ => 0
  have hacc : (BufferCall.sysUartRead 0x80300000 16).accepts qemuMem.client.heap.buddy = true :=
    (BufferCall.accepts_iff hok.base_eq hok.pages_eq (by decide) _).mpr
      ⟨show 0 < (16 : BitVec 64).toInt by decide, by decide, by decide, by decide⟩
  refine ⟨hacc, (guarded_iff (fun _ => 0) (by decide) (by decide +kernel) mainMetadata_qemu
    (by decide) (by decide) (by decide) (by decide) (fun _ => ⟨0, 0⟩) (fun _ => 0) (fun _ => 0)
    (Reachable.refl _) _).mpr (fun _ _ x hx g hg => ?_) hacc⟩
  obtain ⟨h1, h2⟩ := hx
  have hpage : pageDown x = 0x80300000 := by
    change 0x80300000 ≤ x at h1
    change x < 0x80300000 + 16 at h2
    unfold pageDown pageSize
    omega
  rw [OnPageOf, hpage]
  have hall : ∀ g ∈ protectedRegions 0x8000000 0x80040000 0x80060000 qemuRegions,
      ¬ (pageDown g.1 ≤ 0x80300000 ∧ 0x80300000 < pageUp g.2) := by decide +kernel
  exact hall g hg

/-- **The kernel image as a buffer.**  `sys_uart_read` accepts the start of the kernel, and writes
what is typed there. -/
theorem overwritten_of_uartRead :
    (BufferCall.sysUartRead 0x80200000 1).accepts qemuMem.client.heap.buddy = true ∧
      ¬ Guarded qemuMem.client.heap.buddy (0x80200000, 0x80260000) 0x80040000 0x80060000
        (BufferCall.sysUartRead 0x80200000 1).buffer ∧
      (sysUartRead qemuMem.client.heap.buddy 0x80200000 1 [65] fun _ => 0).1 0x80200000 = 65 := by
  have hok := @MemClient.ok_bootMem 0x80000000 0x8000000 (fun _ => 0) (by decide)
    (by decide) qemuStartup.gSaReserves (fun _ => ⟨0, 0⟩) (fun _ => 0) fun _ => 0
  have hacc : (BufferCall.sysUartRead 0x80200000 1).accepts qemuMem.client.heap.buddy = true :=
    (BufferCall.accepts_iff hok.base_eq hok.pages_eq (by decide) _).mpr
      ⟨show 0 < (1 : BitVec 64).toInt by decide, by decide, by decide, by decide⟩
  refine ⟨hacc, fun h => ?_, ?_⟩
  · have hin : 0x80200000 ∈ bufferBytes (BufferCall.sysUartRead 0x80200000 1).buffer := by
      constructor <;> decide
    exact Set.disjoint_left.mp h.kernel hin (by constructor <;> decide)
  · rw [sysUartRead, if_pos hacc]
    decide

end OscKernel
