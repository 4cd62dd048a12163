import OscKernel.Uart.Console

/-!
# The rings as queues (`uart.c`)

A ring between one context that puts and one that takes.  `ring_push` runs with interrupts masked
and is one step; `ring_pop` may be interrupted between its test, its read and its write of `tail`.

* `RingRun.step`: the steps of `ring_push` and `ring_pop`, in any order.
* `Console.accepted`: what the critical section of `uart_putc` puts into `tx_buf`.
* `fifo_of_run`: `rx_buf` and `tx_buf` are queues of at most 255 bytes, what is written to `THR` is
  the beginning of what was put into `tx_buf`, and the transmit interrupt is enabled while
  `tx_buf` is not empty.

## One producer and one consumer

The handler writes `head`, the reader writes `tail`, and each reads the other's.  What the reader
has found at its test, that there is a byte, stays true while the handler goes on putting bytes;
what it has read stays the first byte (`RingRun.Ok`).  With two readers neither would hold, and
there is only one call of `ring_pop` at a time here, as the source says.

Indices come back to `0` behind the last slot, and a ring that is full has one slot left, since
otherwise it could not be told from an empty one.  That the contents are a queue is proved in
`OscKernel.Lib.RingBuffer`, for rings of any size.

## The transmit interrupt

`TIE` is set behind every push and cleared when the handler has emptied the ring.  A push that is
refused sets it as well, and then the ring is full.
-/

namespace OscKernel
namespace Uart

open Transition

/-- Where a call of `ring_pop` is. -/
inductive PopCall where
  /-- At `r->head == r->tail`. -/
  | test
  /-- At the read of `r->buf[r->tail]`. -/
  | read
  /-- At the write of `r->tail`, with the byte that was read. -/
  | advance (c : UInt8)

/-- A ring, the call of `ring_pop` in progress, and the values that `ring_pop` has returned. -/
structure RingRun where
  ring : UartRing
  pop : Option PopCall
  returned : List ℤ

/-- What happens next. -/
inductive RingOp where
  | ringPush (c : UInt8)
  | ringPop
  /-- The call of `ring_pop` goes on. -/
  | goOn

namespace RingRun

/-- One step: a push in the handler, or the next access of `ring_pop`. -/
def step (s : RingRun) : RingOp → Option RingRun
  | .ringPush c => some { s with ring := ringPush s.ring c }
  | .ringPop =>
      match s.pop with
      | none => some { s with pop := some .test }
      | some _ => none
  | .goOn =>
      match s.pop with
      | none => none
      | some .test =>
          if ringEmpty s.ring then some { s with pop := none, returned := s.returned ++ [-1] }
          else some { s with pop := some .read }
      | some .read => some { s with pop := some (.advance (s.ring.buf s.ring.tail)) }
      | some (.advance c) => some
          { ring := { s.ring with tail := s.ring.tail + 1 }
            pop := none
            returned := s.returned ++ [(c.toNat : ℤ)] }

/-- No call is in progress. -/
def start (r : UartRing) : RingRun := ⟨r, none, []⟩

/-- What the step puts into the ring. -/
def accepted (s : RingRun) : RingOp → List UInt8
  | .ringPush c => if ringFull s.ring then [] else [c]
  | _ => []

/-- The bytes that `ring_pop` has returned. -/
def popped (s : RingRun) : List UInt8 := (s.returned.filter (· ≠ -1)).map toUChar

/-- A call of `ring_pop` past its test has found a byte, and one past its read has the first. -/
def Ok (s : RingRun) : Prop :=
  match s.pop with
  | none | some .test => True
  | some .read => s.ring.contents ≠ []
  | some (.advance c) => s.ring.contents.head? = some c

end RingRun

namespace Console

/-- What the step puts into `tx_buf`. -/
def accepted (s : Console) : ConsoleStep → List UInt8
  | .goOn t =>
      match s.calls t with
      | .push byte _ _ _ _ :: _ => if ringFull s.txBuf then [] else [byte]
      | _ => []
  | _ => []

/-- The transmit interrupt is enabled while there is something to transmit. -/
def Transmitting (s : Console) : Prop := s.txBuf.contents ≠ [] → s.ierTie = true

end Console

/-! ## The ring -/

namespace RingRun

open Console (ringFull_iff contents_ringPush ringPush_of_full)

variable {s s' : RingRun} {a : RingOp} {c : UInt8} {l : List UInt8} {r : UartRing}

/-- **A push** is refused exactly when 255 bytes are held. -/
theorem ringPush_cases (r : UartRing) (c : UInt8) :
    (ringFull r = true ∧ r.contents.length = 255 ∧ ringPush r c = r) ∨
      (ringFull r = false ∧ r.contents.length < 255 ∧
        (ringPush r c).contents = r.contents ++ [c]) := by
  have hle := RingBuffer.length_contents_le r
  by_cases hfull : r.contents.length = 255
  · exact Or.inl ⟨ringFull_iff.mpr hfull, hfull, ringPush_of_full hfull⟩
  · have hlt : r.contents.length < 255 := by omega
    have hnot : ¬ ringFull r = true := fun h => hfull (ringFull_iff.mp h)
    exact Or.inr ⟨eq_false_of_ne_true hnot, hlt, contents_ringPush hlt⟩

theorem popped_byte (s : RingRun) (pop : Option PopCall) (ring : UartRing) (c : UInt8) :
    popped ⟨ring, pop, s.returned ++ [(c.toNat : ℤ)]⟩ = s.popped ++ [c] := by
  have hne : (c.toNat : ℤ) ≠ -1 := by omega
  simp [popped, hne, toUChar_toNat]

/-- What a call of `ring_pop` has found stays first when bytes are put. -/
theorem Ok.push (h : s.Ok) (c : UInt8) : Ok { s with ring := ringPush s.ring c } := by
  rcases ringPush_cases s.ring c with ⟨-, -, hpush⟩ | ⟨-, -, hpush⟩
  · rw [hpush]
    exact h
  · obtain ⟨ring, pop, returned⟩ := s
    match pop with
    | none => exact trivial
    | some .test => exact trivial
    | some .read =>
      show (ringPush ring c).contents ≠ []
      rw [hpush]
      simp
    | some (.advance c') =>
      have hhead : ring.contents.head? = some c' := h
      show (ringPush ring c).contents.head? = some c'
      rw [hpush]
      simp [hhead]

/-- **Every step** appends what it puts to what was popped and what is held. -/
theorem ok_step (h : s.Ok) (hs : s.step a = some s') :
    s'.Ok ∧ s'.popped ++ s'.ring.contents = s.popped ++ s.ring.contents ++ s.accepted a := by
  cases a with
  | ringPush c =>
    obtain rfl := Option.some.inj hs
    refine ⟨h.push c, ?_⟩
    rcases ringPush_cases s.ring c with ⟨hfull, -, hpush⟩ | ⟨hfull, -, hpush⟩
    · simp [accepted, popped, hfull, hpush]
    · simp [accepted, popped, hfull, hpush]
  | ringPop =>
    rw [step] at hs
    cases hpop : s.pop with
    | some p =>
      rw [hpop] at hs
      cases hs
    | none =>
      rw [hpop] at hs
      obtain rfl := Option.some.inj hs
      exact ⟨trivial, (List.append_nil _).symm⟩
  | goOn =>
    obtain ⟨ring, pop, returned⟩ := s
    match pop with
    | none => cases hs
    | some .test =>
      rw [step] at hs
      dsimp only at hs
      split_ifs at hs with hempty
      · obtain rfl := Option.some.inj hs
        refine ⟨trivial, ?_⟩
        simp [popped, accepted]
      · obtain rfl := Option.some.inj hs
        refine ⟨fun hnil => hempty (ringEmpty_iff.mpr hnil), ?_⟩
        simp [popped, accepted]
    | some .read =>
      obtain rfl := Option.some.inj hs
      have hne : ring.contents ≠ [] := h
      obtain ⟨c, l, hcl⟩ := List.exists_cons_of_ne_nil hne
      obtain ⟨hc, -⟩ := RingBuffer.contents_advance hcl
      refine ⟨?_, ?_⟩
      · show ring.contents.head? = some (ring.buf ring.tail)
        rw [hcl, hc]
        rfl
      · simp [popped, accepted]
    | some (.advance c) =>
      obtain rfl := Option.some.inj hs
      have hhead : ring.contents.head? = some c := h
      obtain ⟨l, hcl⟩ : ∃ l, ring.contents = c :: l := by
        cases hr : ring.contents with
        | nil => simp [hr] at hhead
        | cons x l => exact ⟨l, by simpa [hr] using hhead⟩
      obtain ⟨-, hl⟩ := RingBuffer.contents_advance hcl
      refine ⟨trivial, ?_⟩
      have hpopped := popped_byte ⟨ring, some (.advance c), returned⟩ none
        { ring with tail := ring.tail + 1 } c
      rw [hpopped]
      simp [popped, accepted, hl, hcl]

/-- **A pop** returns `-1` exactly when no byte is held at its test. -/
theorem returned_miss_iff (hs : s.step .goOn = some s') :
    s'.returned = s.returned ++ [-1] ↔ s.pop = some .test ∧ s.ring.contents = [] := by
  obtain ⟨ring, pop, returned⟩ := s
  match pop with
  | none => cases hs
  | some .test =>
    rw [step] at hs
    dsimp only at hs
    split_ifs at hs with hempty
    · obtain rfl := Option.some.inj hs
      exact iff_of_true rfl ⟨rfl, ringEmpty_iff.mp hempty⟩
    · obtain rfl := Option.some.inj hs
      refine iff_of_false (by simp) fun h => hempty (ringEmpty_iff.mpr h.2)
  | some .read =>
    obtain rfl := Option.some.inj hs
    exact iff_of_false (by simp) fun h => by cases h.1
  | some (.advance c) =>
    obtain rfl := Option.some.inj hs
    have hne : (c.toNat : ℤ) ≠ -1 := by omega
    exact iff_of_false (by simp [hne]) fun h => by cases h.1

end RingRun

/-! ## The transmitter -/

namespace Console

variable {s s' : Console} {a : ConsoleStep}

/-- **Every step** appends what it puts to what was written and what is held, and keeps the
transmit interrupt enabled while something is held. -/
theorem transmitting_step (h : s.Transmitting) (hs : s.step a = some s') :
    s'.Transmitting ∧
      s'.taken ++ s'.txBuf.contents = s.taken ++ s.txBuf.contents ++ s.accepted a := by
  cases a with
  | uartPutc t c =>
    obtain rfl := Option.some.inj hs
    exact ⟨h, (List.append_nil _).symm⟩
  | uartTopHalf n =>
    obtain rfl := Option.some.inj hs
    have happend := txLoop_append n s.txBuf
    refine ⟨fun hne => ?_, ?_⟩
    · -- the interrupt was enabled, because the ring was not empty before either
      have hempty : ¬ ringEmpty (txLoop n s.txBuf).2 = true := fun h => hne (ringEmpty_iff.mp h)
      have hne' : s.txBuf.contents ≠ [] := by
        intro hnil
        rw [hnil, List.append_eq_nil_iff] at happend
        exact hne happend.2
      exact (if_neg hempty).trans (h hne')
    · show (s.taken ++ (txLoop n s.txBuf).1) ++ (txLoop n s.txBuf).2.contents = _
      rw [List.append_assoc, happend]
      exact (List.append_nil _).symm
  | goOn t =>
    rw [step] at hs
    rw [accepted]
    cases hcalls : s.calls t with
    | nil =>
      rw [hcalls] at hs
      cases hs
    | cons c outer =>
      rw [hcalls] at hs
      cases c with
      | test byte rest =>
        obtain rfl := Option.some.inj hs
        unfold putcTest
        split_ifs
        · exact ⟨h, (List.append_nil _).symm⟩
        · exact ⟨h, (List.append_nil _).symm⟩
      | push byte rest room returned taken =>
        obtain rfl := Option.some.inj hs
        refine ⟨fun _ => rfl, ?_⟩
        show s.taken ++ (ringPush s.txBuf byte).contents = _
        rcases RingRun.ringPush_cases s.txBuf byte with ⟨hfull, -, hpush⟩ | ⟨hfull, -, hpush⟩
        · simp [hfull, hpush]
        · simp [hfull, hpush]

end Console

/-- **The rings are queues**, and output is never stranded.  In every run of `ring_push` and
`ring_pop`, what was popped and what is held are what the ring held at first and what was accepted,
in this order; a push is refused exactly when 255 bytes are held, and a pop returns `-1` exactly
when none is.  In every run of `uart_putc` and `uart_top_half`, what was written to `THR` and what
is held are what was accepted, in this order, and the transmit interrupt is enabled while something
is held. -/
theorem fifo_of_run :
    (∀ (r : UartRing) (as : List RingOp) (s : RingRun),
      runList RingRun.step (.start r) as = some s →
      s.popped ++ s.ring.contents =
          r.contents ++ runLog RingRun.step RingRun.accepted (.start r) as ∧
        (∀ c, s.ring.contents.length = 255 ∧ ringPush s.ring c = s.ring ∧
            s.accepted (.ringPush c) = [] ∨
          s.ring.contents.length < 255 ∧ (ringPush s.ring c).contents = s.ring.contents ++ [c] ∧
            s.accepted (.ringPush c) = [c]) ∧
        ∀ s', s.step .goOn = some s' →
          (s'.returned = s.returned ++ [-1] ↔ s.pop = some .test ∧ s.ring.contents = [])) ∧
    ∀ (as : List ConsoleStep) (s : Console), runList Console.step Console.start as = some s →
      s.taken ++ s.txBuf.contents = runLog Console.step Console.accepted Console.start as ∧
        s.taken <+: runLog Console.step Console.accepted Console.start as ∧
        (s.txBuf.contents ≠ [] → s.ierTie = true) := by
  constructor
  · intro r as s hrun
    have hlog := eq_append_runLog (Q := RingRun.Ok)
      (f := fun s => s.popped ++ s.ring.contents) (fun _ _ _ => RingRun.ok_step) hrun trivial
    refine ⟨hlog.2, fun c => ?_, fun s' hs => RingRun.returned_miss_iff hs⟩
    rcases RingRun.ringPush_cases s.ring c with ⟨hfull, hlen, hpush⟩ | ⟨hfull, hlen, hpush⟩
    · exact Or.inl ⟨hlen, hpush, by simp [RingRun.accepted, hfull]⟩
    · exact Or.inr ⟨hlen, hpush, by simp [RingRun.accepted, hfull]⟩
  · intro as s hrun
    have hlog := eq_append_runLog (Q := Console.Transmitting)
      (f := fun s => s.taken ++ s.txBuf.contents) (fun _ _ _ => Console.transmitting_step) hrun
      (fun hne => absurd rfl hne)
    have heq : s.taken ++ s.txBuf.contents =
        runLog Console.step Console.accepted Console.start as := hlog.2
    exact ⟨heq, ⟨s.txBuf.contents, heq⟩, hlog.1⟩

/-- A byte is popped while another is pushed, and a carriage return is written while a line feed is
held. -/
theorem fifo_of_lineFeed :
    (∃ s, runList RingRun.step (.start ⟨fun _ => 0, 0, 0⟩)
        [.ringPush 65, .ringPop, .goOn, .ringPush 66, .goOn, .goOn] = some s ∧
      s.popped ++ s.ring.contents = [65, 66]) ∧
    ∃ s, runList Console.step Console.start Console.lineFeedRun = some s ∧
      s.taken ++ s.txBuf.contents = [carriageReturn, 10] ∧
      (s.txBuf.contents ≠ [] → s.ierTie = true) := by
  obtain ⟨hring, htx⟩ := fifo_of_run
  constructor
  · obtain ⟨s, hs⟩ : ∃ s, runList RingRun.step (.start ⟨fun _ => 0, 0, 0⟩)
        [.ringPush 65, .ringPop, .goOn, .ringPush 66, .goOn, .goOn] = some s := ⟨_, rfl⟩
    obtain ⟨hlog, -, -⟩ := hring _ _ s hs
    exact ⟨s, hs, hlog.trans (by decide)⟩
  · obtain ⟨s, hs⟩ : ∃ s, runList Console.step Console.start Console.lineFeedRun = some s :=
      ⟨_, rfl⟩
    obtain ⟨hlog, -, htie⟩ := htx _ s hs
    exact ⟨s, hs, hlog.trans (by decide), htie⟩

end Uart
end OscKernel
