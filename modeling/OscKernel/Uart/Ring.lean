import OscKernel.Lib.RingBuffer
import OscKernel.Uart.Load

/-!
# The rings of the UART (`uart.c`)

`rx_buf` and `tx_buf` are rings of `UART_BUF_SIZE` bytes: one side puts, the other takes.

* `ringEmpty`, `ringFull`, `ringPush`, `ringPop`.
* `contents_drain`: what the interrupt handler puts when it empties the receiver.

The indices are masked with `UART_BUF_MASK` after each step, so that they are numbers modulo the
size of the ring.  `ringPush` does nothing when the ring is full, and what it was given is lost; it
is for the callers to test.
-/

namespace OscKernel
namespace Uart

/-- `struct uart_ring`, with `UART_BUF_SIZE = 256`. -/
abbrev UartRing := RingBuffer UInt8 255

/-- So a numeral is an index. -/
instance (priority := 2000) instNeZeroUartRing : NeZero (255 + 1) := ⟨by decide⟩

/-- `ring_empty`. -/
def ringEmpty (r : UartRing) : Bool := decide r.IsEmpty

/-- `ring_full`. -/
def ringFull (r : UartRing) : Bool := decide r.IsFull

/-- `ring_push`; what does not fit is dropped. -/
def ringPush (r : UartRing) (c : UInt8) : UartRing := r.push c

/-- `ring_pop`. -/
def ringPop (r : UartRing) : ℤ × UartRing :=
  match r.pop with
  | none => (-1, r)
  | some (c, r') => (c.toNat, r')

/-- The loop of `uart_top_half` that empties the receiver into `rx_buf`. -/
def drain (rxBuf : UartRing) (fifo : List UInt8) : UartRing := fifo.foldl ringPush rxBuf

variable {r : UartRing} {c : UInt8} {l : List UInt8}

theorem ringEmpty_iff : ringEmpty r = true ↔ r.contents = [] :=
  decide_eq_true_iff.trans RingBuffer.isEmpty_iff

theorem ringPop_of_contents (h : r.contents = c :: l) :
    ∃ r' : UartRing, ringPop r = ((c.toNat : ℤ), r') ∧ r'.contents = l := by
  obtain ⟨r', hpop, hl⟩ := RingBuffer.contents_pop h
  refine ⟨r', ?_, hl⟩
  rw [ringPop, hpop]

/-- **Emptying the receiver** into a ring that has room. -/
theorem contents_drain {fifo : List UInt8} (h : r.contents.length + fifo.length ≤ 255) :
    (drain r fifo).contents = r.contents ++ fifo := by
  induction fifo generalizing r with
  | nil => exact (List.append_nil _).symm
  | cons c fifo ih =>
    rw [List.length_cons] at h
    have hpush : (ringPush r c).contents = r.contents ++ [c] :=
      RingBuffer.contents_push (by omega)
    have hroom : (ringPush r c).contents.length + fifo.length ≤ 255 := by
      rw [hpush, List.length_append, List.length_singleton]
      omega
    have hrest := ih hroom
    rw [hpush, List.append_assoc] at hrest
    exact hrest

end Uart
end OscKernel
