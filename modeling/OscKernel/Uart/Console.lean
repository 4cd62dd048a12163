import OscKernel.Lib.Transition
import OscKernel.Uart.Ring

/-!
# Printing through the transmit ring (`uart.c`)

In interrupt mode `uart_putc` waits until `tx_buf` is not full and then pushes its byte with
interrupts masked.  Between the two a callback may print, and so may other threads while that
callback waits, so the ring can be full again when the byte is pushed.

* `Console.step`: calls of `uart_putc` by threads and by the callbacks that interrupt them, and the
  interrupts that empty the ring, in any order.
* `stored_iff`: every byte is stored exactly as long as, between the test and the push of a byte,
  the other calls push fewer bytes than the ring had room for and the transmitter has taken.
* `stored_of_alone`: in particular when no other call pushes a byte in between.
* `dropped_of_callback`: a byte is lost when a callback takes the last slot.

## What a call notes

The condition compares two moments, the test of a call and its push, and everything that happens in
between.  A call that has made its test keeps three numbers of that moment: the room that the ring
had, and how many bytes had been pushed and taken altogether.  None of them is in the source, and no
step reads them; only the condition does.  With the totals at the push they say how full the ring
is, without a look at the ring.

## Exactly

As long as every call that goes on is undisturbed, its push finds room, and the ring together with
what was taken is what was printed, in order.  The first call that is disturbed finds the ring full
and loses its byte, and from then on the count of overflows is not zero.  Any number of threads may
print, callbacks may interrupt them to any depth, and the transmitter may take any number of bytes
at any time.
-/

namespace OscKernel
namespace Uart

open Transition

/-- A call of `uart_putc` in progress. -/
inductive PutcCall where
  /-- At `ring_full(&tx_buf)`, for a byte and the bytes after it. -/
  | test (byte : UInt8) (rest : List UInt8)
  /-- Past the test, at `sie_save_clear()`.  When the test was made the ring had room for `room`
  bytes, `returned` bytes had been pushed and `taken` bytes had been taken. -/
  | push (byte : UInt8) (rest : List UInt8) (room returned taken : ℕ)

/-- The calls that are left when these bytes have to be passed on. -/
def PutcCall.ofBytes : List UInt8 → List PutcCall
  | [] => []
  | byte :: rest => [.test byte rest]

/-- The bytes that `uart_putc(c)` passes on: a line feed comes after a carriage return. -/
def putcBytes (c : UInt8) : List UInt8 := if c = 10 then [carriageReturn, c] else [c]

/-- The transmit ring, the bit `TIE` of `IER`, and the calls of `uart_putc` on the stack of each
thread, the innermost first. -/
structure Console where
  txBuf : UartRing
  ierTie : Bool
  calls : ℕ → List PutcCall
  /-- The bytes whose `uart_putc` has returned, in that order. -/
  returned : List UInt8
  /-- The bytes that were written to `THR`, in that order. -/
  taken : List UInt8
  /-- How often `ring_push` found `tx_buf` full. -/
  overflows : ℕ

/-- What happens next. -/
inductive ConsoleStep where
  /-- The thread `t`, or a callback that interrupts it, calls `uart_putc(c)`. -/
  | uartPutc (t : ℕ) (c : UInt8)
  /-- The innermost call of `t` goes on. -/
  | goOn (t : ℕ)
  /-- The interrupt handler finds room for `n` bytes in the transmitter. -/
  | uartTopHalf (n : ℕ)

/-- The loop of `uart_top_half` that empties `tx_buf` into the transmitter: the bytes it writes, and
the ring. -/
def txLoop : ℕ → UartRing → List UInt8 × UartRing
  | 0, r => ([], r)
  | n + 1, r =>
      if ringEmpty r then ([], r)
      else
        let (c, r') := ringPop r
        let (bytes, r'') := txLoop n r'
        (toUChar c :: bytes, r'')

namespace Console

variable (s : Console)

/-- The test of `uart_putc`; a call that finds the ring full calls `schedule` and tests again. -/
def putcTest (t : ℕ) (byte : UInt8) (rest : List UInt8) (outer : List PutcCall) : Console :=
  if ringFull s.txBuf then s
  else
    let room := 255 - s.txBuf.contents.length
    let call := PutcCall.push byte rest room s.returned.length s.taken.length
    { s with calls := Function.update s.calls t (call :: outer) }

/-- The critical section of `uart_putc`. -/
def putcPush (t : ℕ) (byte : UInt8) (rest : List UInt8) (outer : List PutcCall) : Console :=
  { s with
    txBuf := ringPush s.txBuf byte
    ierTie := true
    calls := Function.update s.calls t (PutcCall.ofBytes rest ++ outer)
    returned := s.returned ++ [byte]
    overflows := if ringFull s.txBuf then s.overflows + 1 else s.overflows }

/-- What `uart_top_half` does about the transmitter. -/
def uartTopHalf (n : ℕ) : Console :=
  let (bytes, txBuf) := txLoop n s.txBuf
  { s with
    txBuf := txBuf
    ierTie := if ringEmpty txBuf then false else s.ierTie
    taken := s.taken ++ bytes }

/-- One step: a thread calls `uart_putc`, goes on in such a call, or the handler sends bytes. -/
def step (s : Console) : ConsoleStep → Option Console
  | .uartPutc t c => some { s with
      calls := Function.update s.calls t (PutcCall.ofBytes (putcBytes c) ++ s.calls t) }
  | .goOn t =>
      match s.calls t with
      | [] => none
      | .test byte rest :: outer => some (s.putcTest t byte rest outer)
      | .push byte rest _ _ _ :: outer => some (s.putcPush t byte rest outer)
  | .uartTopHalf n => some (s.uartTopHalf n)

/-- When the interrupt mode is switched on. -/
def start : Console := ⟨⟨fun _ => 0, 0, 0⟩, false, fun _ => [], [], [], 0⟩

/-- **Nothing is dropped.**  Every byte whose `uart_putc` has returned has been stored: it is in
the ring or was taken from there, in order, and no push found the ring full. -/
structure Stored : Prop where
  bytes : s.taken ++ s.txBuf.contents = s.returned
  overflows : s.overflows = 0

end Console

/-- Since the test of the call, fewer bytes were pushed than the ring had room for and the
transmitter has taken. -/
def PutcCall.Undisturbed (s : Console) : PutcCall → Prop
  | .test _ _ => True
  | .push _ _ room returned taken =>
      s.returned.length - returned < room + (s.taken.length - taken)

/-- No byte was pushed since the test of the call. -/
def PutcCall.Alone (s : Console) : PutcCall → Prop
  | .test _ _ => True
  | .push _ _ _ returned _ => s.returned.length = returned

/-- What a call noted at its test, in a state in which nothing was dropped. -/
def PutcCall.Noted (s : Console) : PutcCall → Prop
  | .test _ _ => True
  | .push _ _ room returned taken =>
      0 < room ∧ room + returned = 255 + taken ∧ returned ≤ s.returned.length ∧
        taken ≤ s.taken.length

instance (s : Console) : DecidablePred (PutcCall.Undisturbed s)
  | .test _ _ => isTrue trivial
  | .push .. => inferInstanceAs (Decidable (_ < _))

/-- What a call noted stays true when more bytes are pushed and taken. -/
theorem PutcCall.Noted.mono {s s' : Console} {c : PutcCall} (h : c.Noted s)
    (hr : s.returned.length ≤ s'.returned.length)
    (ht : s.taken.length ≤ s'.taken.length) : c.Noted s' := by
  cases c with
  | test => trivial
  | push byte rest room returned taken =>
    obtain ⟨hroom, heq, hle, hle'⟩ := h
    exact ⟨hroom, heq, hle.trans hr, hle'.trans ht⟩

namespace Console

/-- A call that goes on is undisturbed. -/
def Undisturbed (s : Console) : ConsoleStep → Prop
  | .goOn t => ∀ c ∈ (s.calls t).head?, c.Undisturbed s
  | _ => True

instance (s : Console) : ∀ a, Decidable (s.Undisturbed a)
  | .goOn t => inferInstanceAs (Decidable (∀ c ∈ (s.calls t).head?, c.Undisturbed s))
  | .uartPutc .. | .uartTopHalf _ => isTrue trivial

/-- No other call has pushed a byte between the test and the push of a call that goes on. -/
def Alone (s : Console) : ConsoleStep → Prop
  | .goOn t => ∀ c ∈ (s.calls t).head?, c.Alone s
  | _ => True

/-- What every call in progress noted. -/
def Noted (s : Console) : Prop := ∀ t, ∀ c ∈ s.calls t, c.Noted s

/-! ## The ring -/

section Ring

variable {r : UartRing} {c : UInt8}

theorem ringFull_iff : ringFull r = true ↔ r.contents.length = 255 :=
  decide_eq_true_iff.trans RingBuffer.isFull_iff

theorem contents_ringPush (h : r.contents.length < 255) :
    (ringPush r c).contents = r.contents ++ [c] :=
  RingBuffer.contents_push h

theorem ringPush_of_full (h : r.contents.length = 255) : ringPush r c = r :=
  RingBuffer.push_of_full h

/-- The bytes that are written were the oldest ones in the ring. -/
theorem txLoop_append (n : ℕ) (r : UartRing) : (txLoop n r).1 ++ (txLoop n r).2.contents =
    r.contents := by
  induction n generalizing r with
  | zero => rfl
  | succ n ih =>
    cases hr : r.contents with
    | nil =>
      rw [txLoop, if_pos (ringEmpty_iff.mpr hr)]
      exact hr
    | cons c l =>
      have hempty : ¬ ringEmpty r = true := fun hempty => by
        rw [ringEmpty_iff.mp hempty] at hr
        cases hr
      obtain ⟨r', hpop, hl⟩ := ringPop_of_contents hr
      rw [txLoop, if_neg hempty, hpop]
      dsimp only
      rw [toUChar_toNat, List.cons_append, ih r', hl]

end Ring

/-! ## Steps -/

variable {s s' : Console} {a : ConsoleStep} {t : ℕ} {c : PutcCall} {cs outer : List PutcCall}
  {byte : UInt8} {rest : List UInt8}

theorem Stored.length (h : s.Stored) :
    s.taken.length + s.txBuf.contents.length = s.returned.length := by
  rw [← List.length_append, h.bytes]

theorem noted_ofBytes (s : Console) (bytes : List UInt8) :
    ∀ c ∈ PutcCall.ofBytes bytes, c.Noted s := by
  cases bytes with
  | nil => nofun
  | cons byte rest =>
    intro c hc
    rw [PutcCall.ofBytes, List.mem_singleton] at hc
    rw [hc]
    trivial

/-- The calls of one thread change. -/
theorem Noted.update (h : s.Noted) (hr : s.returned.length ≤ s'.returned.length)
    (ht : s.taken.length ≤ s'.taken.length) (hcalls : s'.calls = Function.update s.calls t cs)
    (hcs : ∀ c ∈ cs, c ∈ s.calls t ∨ c.Noted s') : s'.Noted := by
  intro u c hc
  rw [hcalls, Function.update_apply] at hc
  split_ifs at hc with hu
  · rcases hcs c hc with hold | hnew
    · exact (h t c hold).mono hr ht
    · exact hnew
  · exact (h u c hc).mono hr ht

/-- **A test.**  A call that finds room in the ring notes how much. -/
theorem noted_putcTest (h : s.Stored) (hn : s.Noted)
    (hcalls : s.calls t = .test byte rest :: outer) :
    (s.putcTest t byte rest outer).Stored ∧ (s.putcTest t byte rest outer).Noted := by
  unfold putcTest
  split_ifs with hfull
  · exact ⟨h, hn⟩
  · refine ⟨⟨h.bytes, h.overflows⟩, hn.update le_rfl le_rfl rfl fun c hc => ?_⟩
    rcases List.mem_cons.mp hc with rfl | hc
    · have hlt := RingBuffer.length_contents_le s.txBuf
      have hne : s.txBuf.contents.length ≠ 255 := fun heq => hfull (ringFull_iff.mpr heq)
      have hlen := h.length
      exact Or.inr ⟨by omega, by omega, le_rfl, le_rfl⟩
    · rw [hcalls]
      exact Or.inl (List.mem_cons_of_mem _ hc)

/-- **A push** stores its byte exactly when there is room for it. -/
theorem stored_putcPush (h : s.Stored) :
    (s.putcPush t byte rest outer).Stored ↔ s.txBuf.contents.length < 255 := by
  constructor
  · intro h'
    have hle := RingBuffer.length_contents_le s.txBuf
    refine lt_of_le_of_ne hle fun hfull => ?_
    have hover := h'.overflows
    rw [putcPush, if_pos (ringFull_iff.mpr hfull)] at hover
    exact absurd hover (Nat.succ_ne_zero _)
  · intro hlt
    have hfull : ¬ ringFull s.txBuf = true := fun hfull =>
      absurd (ringFull_iff.mp hfull) (Nat.ne_of_lt hlt)
    refine ⟨?_, ?_⟩
    · show s.taken ++ (ringPush s.txBuf byte).contents = s.returned ++ [byte]
      rw [contents_ringPush hlt, ← List.append_assoc, h.bytes]
    · rw [putcPush, if_neg hfull]
      exact h.overflows

theorem noted_putcPush (hn : s.Noted) {room returned taken : ℕ}
    (hcalls : s.calls t = .push byte rest room returned taken :: outer) :
    (s.putcPush t byte rest outer).Noted := by
  refine hn.update (t := t) ?_ le_rfl rfl fun c hc => ?_
  · show s.returned.length ≤ (s.returned ++ [byte]).length
    rw [List.length_append]
    exact Nat.le_add_right _ _
  · rcases List.mem_append.mp hc with hc | hc
    · exact Or.inr (noted_ofBytes _ rest c hc)
    · rw [hcalls]
      exact Or.inl (List.mem_cons_of_mem _ hc)

/-- There is room for the byte of a call exactly when the call is undisturbed. -/
theorem undisturbed_iff (h : s.Stored) {room returned taken : ℕ}
    (hc : (PutcCall.push byte rest room returned taken).Noted s) :
    (PutcCall.push byte rest room returned taken).Undisturbed s ↔
      s.txBuf.contents.length < 255 := by
  obtain ⟨-, heq, hle, hle'⟩ := hc
  have hlen := h.length
  unfold PutcCall.Undisturbed
  omega

/-- **The interrupt handler** takes the oldest bytes of the ring. -/
theorem stored_uartTopHalf (h : s.Stored) (hn : s.Noted) (n : ℕ) :
    (s.uartTopHalf n).Stored ∧ (s.uartTopHalf n).Noted := by
  refine ⟨⟨?_, h.overflows⟩, fun t c hc => (hn t c hc).mono le_rfl ?_⟩
  · show (s.taken ++ (txLoop n s.txBuf).1) ++ (txLoop n s.txBuf).2.contents = s.returned
    rw [List.append_assoc, txLoop_append, h.bytes]
  · show s.taken.length ≤ (s.taken ++ _).length
    rw [List.length_append]
    exact Nat.le_add_right _ _

/-- **Every step** from a state in which nothing was dropped. -/
theorem stored_step (h : s.Stored) (hn : s.Noted) (hs : s.step a = some s') :
    (s.Undisturbed a ↔ s'.Stored) ∧ (s'.Stored → s'.Noted) := by
  cases a with
  | uartPutc t c =>
    obtain rfl := Option.some.inj hs
    refine ⟨iff_of_true trivial ⟨h.bytes, h.overflows⟩, fun _ =>
      hn.update (t := t) le_rfl le_rfl rfl fun c' hc' => ?_⟩
    exact (List.mem_append.mp hc').symm.imp_right fun hc' => noted_ofBytes _ _ c' hc'
  | goOn t =>
    rw [step] at hs
    cases hcalls : s.calls t with
    | nil =>
      rw [hcalls] at hs
      cases hs
    | cons c outer =>
      rw [hcalls] at hs
      have hguard : s.Undisturbed (.goOn t) ↔ c.Undisturbed s := by
        show (∀ c' ∈ (s.calls t).head?, c'.Undisturbed s) ↔ _
        rw [hcalls]
        exact ⟨fun hall => hall c rfl, fun hc c' hc' => Option.some.inj hc' ▸ hc⟩
      rw [hguard]
      cases c with
      | test byte rest =>
        obtain rfl := Option.some.inj hs
        obtain ⟨hstored, hnoted⟩ := noted_putcTest h hn hcalls
        exact ⟨iff_of_true trivial hstored, fun _ => hnoted⟩
      | push byte rest room returned taken =>
        obtain rfl := Option.some.inj hs
        have hc := hn t _ (hcalls ▸ List.mem_cons_self)
        exact ⟨(undisturbed_iff h hc).trans (stored_putcPush h).symm,
          fun _ => noted_putcPush hn hcalls⟩
  | uartTopHalf n =>
    obtain rfl := Option.some.inj hs
    obtain ⟨hstored, hnoted⟩ := stored_uartTopHalf h hn n
    exact ⟨iff_of_true trivial hstored, fun _ => hnoted⟩

theorem stored_start : start.Stored := ⟨rfl, rfl⟩

theorem noted_start : start.Noted := fun _ => nofun

/-- **Console output.**  Whatever threads and callbacks print and whenever the transmitter takes
bytes, every byte is stored before its `uart_putc` returns and no push finds the ring full, exactly
as long as no call goes on to push its byte when, since its test, as many bytes were pushed as the
ring had room for and the transmitter has taken. -/
theorem stored_iff {as : List ConsoleStep} (h : runList step start as = some s) :
    (∀ bs, bs <+: as → ∀ t, runList step start bs = some t → t.Stored) ↔
      Meets step Undisturbed start as :=
  forall_prefix_iff_meets_of_invariant (Q := Noted) (fun _ _ _ hP hQ hs => stored_step hP hQ hs) h
    stored_start noted_start

/-- **Output without interruption.**  Nothing is dropped when no other call pushes a byte between
the test and the push of a call. -/
theorem stored_of_alone (h : Reachable step Alone start s) : s.Stored := by
  refine (h.invariant (P := fun s => s.Stored ∧ s.Noted) ⟨stored_start, noted_start⟩
    fun s a s' hi hG hs => ?_).1
  obtain ⟨hiff, hkeep⟩ := stored_step hi.1 hi.2 hs
  have hguard : s.Undisturbed a := by
    cases a with
    | uartPutc | uartTopHalf => trivial
    | goOn t =>
      intro c hc
      have halone := hG c hc
      have hnoted := hi.2 t c (List.mem_of_mem_head? hc)
      cases c with
      | test => trivial
      | push byte rest room returned taken =>
        obtain ⟨hroom, -, -, -⟩ := hnoted
        unfold PutcCall.Alone at halone
        unfold PutcCall.Undisturbed
        omega
  have hstored := hiff.mp hguard
  exact ⟨hstored, hkeep hstored⟩

/-- A thread prints a line feed, and the transmitter takes the carriage return. -/
def lineFeedRun : List ConsoleStep :=
  [.uartPutc 0 10, .goOn 0, .goOn 0, .uartTopHalf 1, .goOn 0, .goOn 0]

theorem stored_of_lineFeed : ∃ s, runList step start lineFeedRun = some s ∧
    s.taken = [carriageReturn] ∧ s.returned = [carriageReturn, 10] ∧ s.Stored := by
  have hrun : (runList step start lineFeedRun).map (fun s => (s.taken, s.returned)) =
      some ([carriageReturn], [carriageReturn, 10]) := by decide
  obtain ⟨s, hs, heq⟩ := Option.map_eq_some_iff.mp hrun
  obtain ⟨htaken, hreturned⟩ := Prod.mk.inj heq
  exact ⟨s, hs, htaken, hreturned,
    (stored_iff hs).mpr (by decide) lineFeedRun List.prefix_rfl s hs⟩

/-- A thread prints `254` bytes, and tests the ring for another one.  A callback prints a byte, and
the thread goes on. -/
def callbackRun : List ConsoleStep :=
  (List.replicate 254 [.uartPutc 0 65, .goOn 0, .goOn 0]).flatten ++
    [.uartPutc 0 66, .goOn 0, .uartPutc 0 67, .goOn 0, .goOn 0, .goOn 0]

/-- **A byte is lost.**  The callback takes the last slot, and the byte of the thread is dropped. -/
theorem dropped_of_callback : ∃ s, runList step start callbackRun = some s ∧
    s.overflows = 1 ∧ s.returned.getLast? = some 66 ∧ ¬ s.Stored := by
  have hrun : (runList step start callbackRun).map (fun s => (s.overflows, s.returned.getLast?)) =
      some (1, some 66) := by decide +kernel
  obtain ⟨s, hs, heq⟩ := Option.map_eq_some_iff.mp hrun
  obtain ⟨hover, hlast⟩ := Prod.mk.inj heq
  exact ⟨s, hs, hover, hlast, fun h => absurd (hover.symm.trans h.overflows) (by decide)⟩

end Console
end Uart
end OscKernel
