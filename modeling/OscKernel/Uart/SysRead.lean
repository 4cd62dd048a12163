import OscKernel.Boot.UserRange
import OscKernel.Uart.Ring

/-!
# Reading from the console (`sys_uart_read`)

`sys_uart_read` calls `uart_getc` until it has `count` bytes or `uart_getc` has none.  In interrupt
mode `uart_getc` always has one: it waits while `rx_buf` is empty.

* `sysUartRead`: the system call in interrupt mode, for the bytes that arrive while it waits.
* `readsBuffered_iff`: with no further byte, the bytes that are in `rx_buf` are delivered exactly
  when there are at least `count` of them.
* `waits_of_one`: with one byte in `rx_buf`, a call for two bytes does not return.
* `exists_chars_of_sysUartRead`: in memory and in the value, a call that returns is one of
  `Boot.UserRange`.

The comments of the source say that the call returns with what is there as soon as it has a byte,
and its loop is written for a `uart_getc` that returns `-1` when there is none.  In interrupt mode
`uart_getc` waits instead, and this branch is never taken.  Waiting is not a result in the model:
both loops have fuel, and a call that does not return has no result for any amount of it.  The
theorem is about the contents of the ring at the time of the call, with nothing behind it; the
buffer is one that the call accepts.

What arrives while the call waits is a parameter, for each wait the bytes that the handler puts into
the ring.  A byte that arrives in a full ring is dropped there, as it is by the source.
-/

namespace OscKernel
namespace Uart

/-- `rx_buf`, and how often a reader has waited so far. -/
structure Reader where
  rxBuf : UartRing
  waits : ℕ

/-- `schedule()`, with `wfi` after it or not: the handler puts what arrives in this wait into
`rx_buf`. -/
def Reader.wait (arrivals : ℕ → List UInt8) (s : Reader) : Reader :=
  ⟨drain s.rxBuf (arrivals s.waits), s.waits + 1⟩

/-- `uart_getc` in interrupt mode; `none` is that it still waits after `fuel` tests. -/
def uartGetcIrq (arrivals : ℕ → List UInt8) : ℕ → Reader → Option (ℤ × Reader)
  | 0, _ => none
  | fuel + 1, s =>
      if ringEmpty s.rxBuf then uartGetcIrq arrivals fuel (s.wait arrivals)
      else
        let (c, rxBuf) := ringPop s.rxBuf
        some (translate c, { s with rxBuf := rxBuf })

/-- The loop of `sys_uart_read`; `none` is that it goes on after `fuel` rounds. -/
def sysUartReadLoop (arrivals : ℕ → List UInt8) (buf count : ℕ) :
    ℕ → ℕ → Reader → (ℕ → UInt8) → Option (ℕ × Reader × (ℕ → UInt8))
  | 0, _, _, _ => none
  | fuel + 1, i, s, mem =>
      if i < count then
        (uartGetcIrq arrivals fuel s).bind fun (c, s) =>
        if c < 0 then
          if i > 0 then some (i, s, mem)
          else sysUartReadLoop arrivals buf count fuel i (s.wait arrivals) mem
        else
          sysUartReadLoop arrivals buf count fuel (i + 1) s
            (Function.update mem (u64 (buf + i)) (toUChar c))
      else some (i, s, mem)

/-- `sys_uart_read` in interrupt mode: the value, `rx_buf` and the memory after it. -/
def sysUartRead (b : Buddy) (arrivals : ℕ → List UInt8) (buf count : BitVec 64) (fuel : ℕ)
    (s : Reader) (mem : ℕ → UInt8) : Option (ℤ × Reader × (ℕ → UInt8)) :=
  if (BufferCall.sysUartRead buf count).accepts b then
    (sysUartReadLoop arrivals buf.toNat count.toNat fuel 0 s mem).map fun (i, s, mem) => (i, s, mem)
  else some (-1, s, mem)

/-- No byte arrives. -/
def noArrivals : ℕ → List UInt8 := fun _ => []

/-- **What is buffered is delivered**: with no further byte, `sys_uart_read` returns the smaller
one of `count` and the number of bytes in `rx_buf`, and has moved these bytes to the buffer. -/
def ReadsBuffered (b : Buddy) (buf count : BitVec 64) (s : Reader) (mem : ℕ → UInt8) : Prop :=
  let bytes := s.rxBuf.contents
  let n := min bytes.length count.toNat
  ∃ (fuel : ℕ) (s' : Reader), sysUartRead b noArrivals buf count fuel s mem =
      some ((n : ℤ), s', stored mem buf.toNat ((bytes.take n).map translateByte)) ∧
    s'.rxBuf.contents = bytes.drop n

section Getc

variable {arrivals : ℕ → List UInt8} {s : Reader} {c : UInt8} {l : List UInt8} {fuel : ℕ}

/-- `uart_getc` takes the first byte of the ring. -/
theorem uartGetcIrq_of_contents (h : s.rxBuf.contents = c :: l) :
    ∃ rxBuf : UartRing, uartGetcIrq arrivals (fuel + 1) s =
      some (((translateByte c).toNat : ℤ), ⟨rxBuf, s.waits⟩) ∧ rxBuf.contents = l := by
  obtain ⟨rxBuf, hpop, hl⟩ := ringPop_of_contents h
  have hempty : ¬ ringEmpty s.rxBuf = true := by
    rw [ringEmpty_iff, h]
    exact List.cons_ne_nil c l
  refine ⟨rxBuf, ?_, hl⟩
  rw [uartGetcIrq, if_neg hempty, hpop, ← translate_toNat]

/-- `uart_getc` waits for ever at an empty ring when no byte arrives. -/
theorem uartGetcIrq_of_empty (h : s.rxBuf.contents = []) :
    uartGetcIrq noArrivals fuel s = none := by
  induction fuel generalizing s with
  | zero => rfl
  | succ fuel ih =>
    rw [uartGetcIrq, if_pos (ringEmpty_iff.mpr h)]
    exact ih h

end Getc

section Loop

variable {s : Reader} {mem : ℕ → UInt8} {buf count fuel i : ℕ} {done : List UInt8}

/-- A round that finds a byte. -/
theorem sysUartReadLoop_of_contents {arrivals : ℕ → List UInt8} {c : UInt8} {l : List UInt8}
    (hi : i < count) (h : s.rxBuf.contents = c :: l) :
    ∃ s' : Reader, s'.rxBuf.contents = l ∧
      sysUartReadLoop arrivals buf count (fuel + 2) i s mem =
        sysUartReadLoop arrivals buf count (fuel + 1) (i + 1) s'
          (Function.update mem (u64 (buf + i)) (translateByte c)) := by
  obtain ⟨rxBuf, hgetc, hl⟩ := @uartGetcIrq_of_contents arrivals s c l fuel h
  have hpos : ¬ ((translateByte c).toNat : ℤ) < 0 := not_lt.mpr (Int.natCast_nonneg _)
  refine ⟨⟨rxBuf, s.waits⟩, hl, ?_⟩
  rw [sysUartReadLoop, if_pos hi, hgetc, Option.bind_some]
  dsimp only
  rw [if_neg hpos, toUChar_toNat]

/-- **Enough bytes are buffered**: the loop moves as many as are missing. -/
theorem sysUartReadLoop_of_le {arrivals : ℕ → List UInt8} (hwrap : buf + count < 2 ^ 64)
    {k : ℕ} (hk : done.length + k = count) (hle : k ≤ s.rxBuf.contents.length)
    (hfuel : k + 1 ≤ fuel) :
    ∃ s' : Reader, s'.rxBuf.contents = s.rxBuf.contents.drop k ∧
      sysUartReadLoop arrivals buf count (fuel + 1) done.length s (stored mem buf done) =
        some (count, s', stored mem buf (done ++ (s.rxBuf.contents.take k).map translateByte)) := by
  induction k generalizing s done fuel with
  | zero =>
    refine ⟨s, rfl, ?_⟩
    rw [sysUartReadLoop, if_neg (by omega), ← hk]
    simp
  | succ k ih =>
    obtain ⟨fuel, rfl⟩ : ∃ f, fuel = f + 1 := ⟨fuel - 1, by omega⟩
    cases hbytes : s.rxBuf.contents with
    | nil =>
      rw [hbytes] at hle
      exact absurd hle (Nat.not_succ_le_zero k)
    | cons c l =>
      rw [hbytes] at hle
      obtain ⟨s', hl, hround⟩ := @sysUartReadLoop_of_contents s (stored mem buf done) buf count fuel
        done.length arrivals c l (by omega) hbytes
      rw [u64_of_lt (by omega), ← stored_append] at hround
      have hlen : (done ++ [translateByte c]).length = done.length + 1 := List.length_append
      obtain ⟨s'', hrest, hrun⟩ := @ih s' fuel (done ++ [translateByte c]) (by omega)
        (hl ▸ Nat.le_of_succ_le_succ hle) (by omega)
      rw [hl] at hrest hrun
      refine ⟨s'', hrest, ?_⟩
      rw [hround, ← hlen, hrun, List.append_assoc]
      rfl

/-- **Too few bytes are buffered**: the loop does not come to an end. -/
theorem sysUartReadLoop_of_lt (hlt : i + s.rxBuf.contents.length < count) :
    sysUartReadLoop noArrivals buf count fuel i s mem = none := by
  induction fuel generalizing i s mem with
  | zero => rfl
  | succ fuel ih =>
    cases hbytes : s.rxBuf.contents with
    | nil => rw [sysUartReadLoop, if_pos (by omega), uartGetcIrq_of_empty hbytes, Option.bind_none]
    | cons c l =>
      rw [hbytes, List.length_cons] at hlt
      cases fuel with
      | zero =>
        rw [sysUartReadLoop, if_pos (by omega)]
        rfl
      | succ fuel =>
        obtain ⟨s', hl, hround⟩ :=
          @sysUartReadLoop_of_contents s mem buf count fuel i noArrivals c l
          (by omega) hbytes
        rw [hround]
        exact ih (by rw [hl]; omega)

/-- A loop that comes to an end is the one over the characters that it has read. -/
theorem exists_chars_of_loop {arrivals : ℕ → List UInt8} {r : ℕ × Reader × (ℕ → UInt8)}
    (h : sysUartReadLoop arrivals buf count fuel i s mem = some r) :
    ∃ chars, uartReadLoop buf count chars i mem = (r.2.2, r.1) := by
  induction fuel generalizing i s mem with
  | zero => cases h
  | succ fuel ih =>
    rw [sysUartReadLoop] at h
    by_cases hi : i < count
    · rw [if_pos hi] at h
      obtain ⟨⟨c, s'⟩, -, h⟩ := Option.bind_eq_some_iff.mp h
      dsimp only at h
      split_ifs at h with hneg hpos
      · cases h
        exact ⟨[c], by simp [uartReadLoop, hneg, hpos]⟩
      · obtain ⟨chars, hchars⟩ := ih h
        exact ⟨c :: chars, by rw [uartReadLoop, if_pos hi, if_pos hneg, if_neg hpos, hchars]⟩
      · obtain ⟨chars, hchars⟩ := ih h
        exact ⟨c :: chars, by rw [uartReadLoop, if_pos hi, if_neg hneg, hchars]⟩
    · rw [if_neg hi] at h
      cases h
      exact ⟨[], rfl⟩

end Loop

section Read

variable {b : Buddy} {buf count : BitVec 64} {s : Reader} {fuel : ℕ}

theorem add_lt_of_accepts (hacc : (BufferCall.sysUartRead buf count).accepts b = true) :
    buf.toNat + count.toNat < 2 ^ 64 := by
  rw [BufferCall.accepts, Bool.not_or, Bool.not_not, Bool.and_eq_true] at hacc
  exact (add_lt_of_inUserRange count.isLt hacc.2).resolve_right (not_le.mpr buf.isLt)

/-- **A call that returns** is one with the characters that it has read. -/
theorem exists_chars_of_sysUartRead {arrivals : ℕ → List UInt8} {mem mem' : ℕ → UInt8} {n : ℤ}
    {s' : Reader} (h : sysUartRead b arrivals buf count fuel s mem = some (n, s', mem')) :
    ∃ chars, OscKernel.sysUartRead b buf count chars mem = (mem', n) := by
  rw [sysUartRead] at h
  split_ifs at h with hacc
  · obtain ⟨r, hr, heq⟩ := Option.map_eq_some_iff.mp h
    obtain ⟨chars, hchars⟩ := exists_chars_of_loop hr
    refine ⟨chars, ?_⟩
    cases heq
    rw [OscKernel.sysUartRead, if_pos hacc, hchars]
  · cases h
    exact ⟨[], by rw [OscKernel.sysUartRead, if_neg hacc]⟩

/-- With too few bytes the call does not return. -/
theorem sysUartRead_eq_none (hacc : (BufferCall.sysUartRead buf count).accepts b = true)
    (hlt : s.rxBuf.contents.length < count.toNat) (mem : ℕ → UInt8) :
    sysUartRead b noArrivals buf count fuel s mem = none := by
  rw [sysUartRead, if_pos hacc, sysUartReadLoop_of_lt (by omega)]
  rfl

/-- **When `sys_uart_read` returns with what is buffered**: exactly when as many bytes are buffered
as are asked for.  With fewer it waits for the others, and does not return when nothing arrives.
The buffer is one that the call accepts, and `rx_buf` may hold any bytes. -/
theorem readsBuffered_iff (hacc : (BufferCall.sysUartRead buf count).accepts b = true)
    (mem : ℕ → UInt8) :
    ReadsBuffered b buf count s mem ↔ count.toNat ≤ s.rxBuf.contents.length := by
  unfold ReadsBuffered
  constructor
  · rintro ⟨fuel, s', hread, -⟩
    by_contra hlt
    rw [sysUartRead, if_pos hacc, sysUartReadLoop_of_lt (by omega)] at hread
    cases hread
  · intro hle
    obtain ⟨s', hrest, hrun⟩ := @sysUartReadLoop_of_le s mem buf.toNat count.toNat
      (count.toNat + 1) [] noArrivals (add_lt_of_accepts hacc) count.toNat (Nat.zero_add _) hle
      (Nat.le_refl _)
    dsimp only
    rw [Nat.min_eq_right hle]
    refine ⟨count.toNat + 1 + 1, s', ?_, hrest⟩
    rw [stored_nil] at hrun
    rw [sysUartRead, if_pos hacc, show (0 : ℕ) = ([] : List UInt8).length from rfl, hrun]
    rfl

/-- `rx_buf` holds a line of two letters, at the end of the buffer and at its beginning. -/
def threeBytes : Reader := ⟨⟨fun i => if i = 0 then 13 else 65, 1, 254⟩, 0⟩

theorem contents_threeBytes : threeBytes.rxBuf.contents = [65, 65, 13] := by decide

/-- Three bytes are asked for. -/
theorem readsBuffered_three : ReadsBuffered qemuDram 0x80300000 3 threeBytes fun _ => 0 :=
  (readsBuffered_iff (by decide) fun _ => 0).mpr (by rw [contents_threeBytes]; decide)

/-- `rx_buf` holds the letter `A`. -/
def oneByte : Reader := ⟨⟨fun _ => 65, 1, 0⟩, 0⟩

theorem contents_oneByte : oneByte.rxBuf.contents = [65] := by decide

/-- **A call that waits for a second byte.**  One byte is buffered, two are asked for, and
`sys_uart_read` does not return. -/
theorem waits_of_one :
    (BufferCall.sysUartRead 0x80300000 2).accepts qemuDram = true ∧
      oneByte.rxBuf.contents = [65] ∧
      (∀ fuel, sysUartRead qemuDram noArrivals 0x80300000 2 fuel oneByte (fun _ => 0) = none) ∧
      ¬ ReadsBuffered qemuDram 0x80300000 2 oneByte fun _ => 0 := by
  have hacc : (BufferCall.sysUartRead 0x80300000 2).accepts qemuDram = true := by decide
  have hnone : ∀ fuel, sysUartRead qemuDram noArrivals 0x80300000 2 fuel oneByte (fun _ => 0) =
      none := by
    intro fuel
    refine sysUartRead_eq_none hacc ?_ fun _ => 0
    rw [contents_oneByte]
    decide
  refine ⟨hacc, contents_oneByte, hnone, ?_⟩
  rintro ⟨fuel, s', hread, -⟩
  rw [hnone fuel] at hread
  cases hread

end Read

end Uart
end OscKernel
