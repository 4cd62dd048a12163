import OscKernel.Lib.Transition
import OscKernel.Uart.Ring

/-!
# Loading from the shell (`shell_load_kernel` of the kernel)

With `g_uart_irq_mode` on, `uart_getc` takes bytes from `rx_buf`, which the interrupt handler fills
from the receiver.  `shell_load_kernel` reads the header that way, and then it polls the receiver
itself, while the handler goes on emptying it.  Nothing is in `rx_buf` when the load begins, and no
byte arrives with a line error, so `uart_getc_raw` does not return `-1`.

* `Loading.step`: arrivals, interrupts and the steps of the load, in any order.
* `Apart`: the handler takes no byte of the image.
* `loading_of_reachable`: in the runs that meet this the image is loaded.
* `stranded_of_interrupt`: otherwise the load can wait for ever.

## Two readers of one receiver

The bytes of the stream are in four places: not yet arrived, in the receiver, in `rx_buf`, and read.
Together they are the stream, in order, as long as the handler only takes bytes of the header and
the load only takes bytes of the image out of the receiver.  `HeaderPhase` and `PayloadPhase` say
where the border is.  A byte of the image that the handler takes goes to `rx_buf`, where the load
does not look any more.

## The condition

`Apart` is on the state before a step: the handler finds no byte of the image in the receiver, and
the first of them arrives when the header has been taken.  The length has no carriage return among
its bytes, which is the condition of `OscKernel.Uart.Load` and is needed here for the same reason.
That the load can go on to its end means that some continuation under the condition does; nothing
forces the host to send.
-/

namespace OscKernel
namespace Uart

open Transition

/-- `KERNEL_LOAD_ADDR` of the kernel. -/
def Board.kernelLoadAddr : Board → ℕ
  | qemu => 0x82000000
  | orangePi => 0x20000000

/-- Where `shell_load_kernel` is. -/
inductive LoadPc where
  /-- At `ring_empty(&rx_buf)` in `uart_getc`, after these characters. -/
  | getc (chars : List ℤ)
  /-- At `ring_pop(&rx_buf)` in `uart_getc`. -/
  | pop (chars : List ℤ)
  /-- At the line status in `uart_getc_raw`, for byte `i`. -/
  | poll (size i : ℕ)
  /-- At the receive buffer in `uart_getc_raw`. -/
  | read (size i : ℕ)
  | badMagic
  | jump (size : ℕ)
  deriving DecidableEq

/-- The host's bytes that have not arrived, the receiver, `rx_buf`, the PLIC's claim of the UART,
and the load. -/
structure Loading where
  wire : List UInt8
  fifo : List UInt8
  rxBuf : UartRing
  claimed : Bool
  pc : LoadPc
  mem : ℕ → UInt8

/-- What happens next. -/
inductive LoadStep where
  /-- A byte arrives. -/
  | arrive
  /-- The UART's interrupt; `kmalloc` says whether `add_task` finds memory. -/
  | uartTopHalf (kmalloc : Bool)
  /-- `uart_bottom_half`. -/
  | uartBottomHalf
  /-- The load goes on; `stale` is what the receive buffer says when it is empty. -/
  | load (stale : UInt8)

/-- Where the payload loop is when `i` bytes are stored. -/
def payload (size i : ℕ) : LoadPc := if i < size then .poll size i else .jump size

/-- What follows the eight characters of the header. -/
def afterHeader : List ℤ → LoadPc
  | [m₀, m₁, m₂, m₃, s₀, s₁, s₂, s₃] =>
      if headerWord m₀ m₁ m₂ m₃ ≠ bootMagic then .badMagic else payload (headerWord s₀ s₁ s₂ s₃) 0
  | chars => .getc chars

namespace Loading

/-- A step of `shell_load_kernel`.  The line status has no errors. -/
def loadStep (board : Board) (s : Loading) (stale : UInt8) : Option Loading :=
  match s.pc with
  | .getc chars => some { s with pc := if ringEmpty s.rxBuf then .getc chars else .pop chars }
  | .pop chars =>
      let (c, rxBuf) := ringPop s.rxBuf
      some { s with rxBuf, pc := afterHeader (chars ++ [translate c]) }
  | .poll size i => some { s with pc := if s.fifo = [] then .poll size i else .read size i }
  | .read size i =>
      some { s with
        fifo := s.fifo.tail
        mem := Function.update s.mem (board.kernelLoadAddr + i) (s.fifo.headD stale)
        pc := payload size (i + 1) }
  | .badMagic | .jump _ => none

/-- A step.  While the PLIC's claim of the UART is not completed there is no interrupt from it. -/
def step (board : Board) (s : Loading) : LoadStep → Option Loading
  | .arrive =>
      match s.wire with
      | [] => none
      | c :: wire => some { s with wire, fifo := s.fifo ++ [c] }
  | .uartTopHalf kmalloc =>
      if s.claimed then none
      else some { s with rxBuf := drain s.rxBuf s.fifo, fifo := [], claimed := kmalloc }
  | .uartBottomHalf => if s.claimed then some { s with claimed := false } else none
  | .load stale => s.loadStep board stale

/-- Before the first byte of `stream` arrives. -/
def start (stream : List UInt8) (rxBuf : UartRing) (mem : ℕ → UInt8) : Loading where
  wire := stream
  fifo := []
  rxBuf := rxBuf
  claimed := false
  pc := .getc []
  mem := mem

end Loading

/-! ## The header -/

section Header

variable {n : ℕ}

/-- The header of an image of `n` bytes. -/
def headerBytes (n : ℕ) : List UInt8 := le32Bytes bootMagic ++ le32Bytes n

theorem length_headerBytes (n : ℕ) : (headerBytes n).length = 8 := rfl

/-- What is sent. -/
theorem sendKernel_eq {image stream : List UInt8} (h : sendKernel image = some stream) :
    image.length < 2 ^ 32 ∧ stream = headerBytes image.length ++ image := by
  obtain ⟨header, hheader, rfl⟩ := Option.map_eq_some_iff.mp h
  unfold pack at hheader
  split_ifs at hheader with hlt
  exact ⟨hlt.2, by rw [← Option.some.inj hheader]; rfl⟩

/-- **The header** of a length without a carriage return. -/
theorem afterHeader_headerBytes (hn : n < 2 ^ 32) (hcr : carriageReturn ∉ le32Bytes n) :
    afterHeader ((headerBytes n).map fun b => translate b.toNat) = payload n 0 := by
  have hmagic : readBack bootMagic = bootMagic := (readBack_eq_iff (by decide)).mpr (by decide)
  have hsize : readBack n = n := (readBack_eq_iff hn).mpr hcr
  show (if readBack bootMagic ≠ bootMagic then LoadPc.badMagic else payload (readBack n) 0) = _
  rw [if_neg (not_not.mpr hmagic), hsize]

theorem afterHeader_of_length_lt {chars : List ℤ} (h : chars.length < 8) :
    afterHeader chars = .getc chars := by
  unfold afterHeader
  split
  · exact absurd h (by simp)
  · rfl

end Header

/-! ## Runs in which the handler takes no byte of the image -/

/-- The handler takes no byte of the image, and the first one arrives when the handler has taken
the header. -/
def Apart (image : List UInt8) (s : Loading) : LoadStep → Prop
  | .arrive => s.wire.length = image.length → s.fifo = []
  | .uartTopHalf _ => s.fifo = [] ∨ image.length ≤ s.wire.length
  | .uartBottomHalf | .load _ => True

instance (image : List UInt8) (s : Loading) : ∀ a, Decidable (Apart image s a)
  | .arrive => inferInstanceAs (Decidable (_ → _))
  | .uartTopHalf _ => inferInstanceAs (Decidable (_ ∨ _))
  | .uartBottomHalf | .load _ => inferInstanceAs (Decidable True)

/-- Whether a test is made before the next byte is taken. -/
def LoadPc.tests : LoadPc → ℕ
  | .getc _ | .poll _ _ => 1
  | .pop _ | .read _ _ | .badMagic | .jump _ => 0

namespace Loading

/-- The header is being read: `raw` are the bytes that have been popped. -/
structure HeaderPhase (image : List UInt8) (s : Loading) (raw : List UInt8) : Prop where
  bytes : raw ++ s.rxBuf.contents ++ s.fifo ++ s.wire = headerBytes image.length ++ image
  le : raw.length + s.rxBuf.contents.length ≤ 8
  taken : s.wire.length < image.length → raw.length + s.rxBuf.contents.length = 8

/-- The image is being read: `i` bytes are stored. -/
structure PayloadPhase (board : Board) (image : List UInt8) (mem : ℕ → UInt8) (s : Loading)
    (i : ℕ) : Prop where
  ring : s.rxBuf.contents = []
  bytes : s.fifo ++ s.wire = image.drop i
  mem_eq : s.mem = stored mem board.kernelLoadAddr (image.take i)

/-- Every byte of the stream is where the load will find it, when the load is at a place. -/
def IntactAt (board : Board) (image : List UInt8) (mem : ℕ → UInt8) (s : Loading) : LoadPc → Prop
  | .getc chars => s.mem = mem ∧ ∃ raw : List UInt8, chars = raw.map (fun b => translate b.toNat) ∧
      raw.length < 8 ∧ s.HeaderPhase image raw
  | .pop chars => s.mem = mem ∧ ∃ raw : List UInt8, chars = raw.map (fun b => translate b.toNat) ∧
      raw.length < 8 ∧ s.HeaderPhase image raw ∧ s.rxBuf.contents ≠ []
  | .poll size i => size = image.length ∧ i < size ∧ s.PayloadPhase board image mem i
  | .read size i => size = image.length ∧ i < size ∧ s.PayloadPhase board image mem i ∧ s.fifo ≠ []
  | .badMagic => False
  | .jump size => size = image.length ∧ s.PayloadPhase board image mem image.length

/-- Every byte of the stream is where the load will find it. -/
def Intact (board : Board) (image : List UInt8) (mem : ℕ → UInt8) (s : Loading) : Prop :=
  s.IntactAt board image mem s.pc

variable {board : Board} {image : List UInt8} {mem : ℕ → UInt8} {s s' : Loading}
  {raw : List UInt8} {i : ℕ} {a : LoadStep} {wire : List UInt8} {c : UInt8}

theorem HeaderPhase.length (h : s.HeaderPhase image raw) :
    raw.length + s.rxBuf.contents.length + s.fifo.length + s.wire.length = 8 + image.length := by
  have hlen := congrArg List.length h.bytes
  simp only [List.length_append, length_headerBytes] at hlen
  exact hlen

theorem PayloadPhase.length (h : s.PayloadPhase board image mem i) :
    s.fifo.length + s.wire.length = image.length - i := by
  have hlen := congrArg List.length h.bytes
  rwa [List.length_append, List.length_drop] at hlen

theorem HeaderPhase.arrive (h : s.HeaderPhase image raw) (hwire : s.wire = c :: wire)
    (hG : Apart image s .arrive) :
    HeaderPhase image { s with wire, fifo := s.fifo ++ [c] } raw where
  bytes := by
    rw [← h.bytes, hwire]
    simp
  le := h.le
  taken := by
    intro hlt
    have hlen := h.length
    have htaken := h.taken
    rw [hwire, List.length_cons] at hlen htaken
    by_cases heq : wire.length + 1 = image.length
    · have hfifo : s.fifo = [] := hG (by rw [hwire, List.length_cons, heq])
      rw [hfifo, List.length_nil] at hlen
      show raw.length + s.rxBuf.contents.length = 8
      omega
    · exact htaken (Nat.lt_of_le_of_ne hlt heq)

/-- The handler takes bytes of the header only. -/
theorem HeaderPhase.length_fifo (h : s.HeaderPhase image raw) {k : Bool}
    (hG : Apart image s (.uartTopHalf k)) :
    raw.length + s.rxBuf.contents.length + s.fifo.length ≤ 8 := by
  have hlen := h.length
  have hle := h.le
  rcases hG with hG | hG
  · rw [hG]
    exact hle
  · omega

theorem HeaderPhase.contents_drain (h : s.HeaderPhase image raw) {k : Bool}
    (hG : Apart image s (.uartTopHalf k)) :
    (drain s.rxBuf s.fifo).contents = s.rxBuf.contents ++ s.fifo := by
  have hfifo := h.length_fifo hG
  exact Uart.contents_drain (by omega)

theorem HeaderPhase.uartTopHalf (h : s.HeaderPhase image raw) (k : Bool)
    (hG : Apart image s (.uartTopHalf k)) :
    HeaderPhase image { s with rxBuf := drain s.rxBuf s.fifo, fifo := [], claimed := k } raw := by
  have hfifo := h.length_fifo hG
  have hdrain := h.contents_drain hG
  constructor
  · show raw ++ (drain s.rxBuf s.fifo).contents ++ [] ++ s.wire = _
    rw [hdrain, ← h.bytes, List.append_nil, ← List.append_assoc]
  · show raw.length + (drain s.rxBuf s.fifo).contents.length ≤ 8
    rw [hdrain, List.length_append]
    omega
  · show s.wire.length < image.length → raw.length + (drain s.rxBuf s.fifo).contents.length = 8
    intro hlt
    have := h.taken hlt
    rw [hdrain, List.length_append]
    omega

theorem PayloadPhase.arrive (h : s.PayloadPhase board image mem i) (hwire : s.wire = c :: wire) :
    PayloadPhase board image mem { s with wire, fifo := s.fifo ++ [c] } i where
  ring := h.ring
  bytes := by
    rw [← h.bytes, hwire]
    simp
  mem_eq := h.mem_eq

/-- Nothing of the image is in the receiver when an interrupt is taken. -/
theorem PayloadPhase.fifo_eq_nil (h : s.PayloadPhase board image mem i) {k : Bool}
    (hG : Apart image s (.uartTopHalf k)) : s.fifo = [] := by
  refine hG.elim id fun hle => ?_
  have hlen := h.length
  exact List.length_eq_zero_iff.mp (by omega)

theorem PayloadPhase.uartTopHalf (h : s.PayloadPhase board image mem i) (k : Bool)
    (hG : Apart image s (.uartTopHalf k)) : PayloadPhase board image mem
      { s with rxBuf := drain s.rxBuf s.fifo, fifo := [], claimed := k } i := by
  have hfifo := h.fifo_eq_nil hG
  constructor
  · show (drain s.rxBuf s.fifo).contents = []
    rw [hfifo]
    exact h.ring
  · show [] ++ s.wire = _
    rw [← h.bytes, hfifo]
  · exact h.mem_eq

/-- **An arrival** keeps the stream in order. -/
theorem IntactAt.arrive {pc : LoadPc} (h : s.IntactAt board image mem pc)
    (hwire : s.wire = c :: wire)
    (hG : Apart image s .arrive) :
    IntactAt board image mem { s with wire, fifo := s.fifo ++ [c] } pc := by
  cases pc with
  | getc chars =>
    obtain ⟨hmem, raw, hchars, hlt, hphase⟩ := h
    exact ⟨hmem, raw, hchars, hlt, hphase.arrive hwire hG⟩
  | pop chars =>
    obtain ⟨hmem, raw, hchars, hlt, hphase, hne⟩ := h
    exact ⟨hmem, raw, hchars, hlt, hphase.arrive hwire hG, hne⟩
  | poll size i => exact ⟨h.1, h.2.1, h.2.2.arrive hwire⟩
  | read size i => exact ⟨h.1, h.2.1, h.2.2.1.arrive hwire, by simp⟩
  | badMagic => exact h
  | jump size => exact ⟨h.1, h.2.arrive hwire⟩

/-- **An interrupt** keeps the stream in order. -/
theorem IntactAt.uartTopHalf {pc : LoadPc} (h : s.IntactAt board image mem pc) (k : Bool)
    (hG : Apart image s (.uartTopHalf k)) : IntactAt board image mem
      { s with rxBuf := drain s.rxBuf s.fifo, fifo := [], claimed := k } pc := by
  cases pc with
  | getc chars =>
    obtain ⟨hmem, raw, hchars, hlt, hphase⟩ := h
    exact ⟨hmem, raw, hchars, hlt, hphase.uartTopHalf k hG⟩
  | pop chars =>
    obtain ⟨hmem, raw, hchars, hlt, hphase, hne⟩ := h
    refine ⟨hmem, raw, hchars, hlt, hphase.uartTopHalf k hG, fun hnil => hne ?_⟩
    exact (List.append_eq_nil_iff.mp ((hphase.contents_drain hG).symm.trans hnil)).1
  | poll size i => exact ⟨h.1, h.2.1, h.2.2.uartTopHalf k hG⟩
  | read size i => exact absurd (h.2.2.1.fifo_eq_nil hG) h.2.2.2
  | badMagic => exact h
  | jump size => exact ⟨h.1, h.2.uartTopHalf k hG⟩

theorem IntactAt.uartBottomHalf {pc : LoadPc} (h : s.IntactAt board image mem pc) :
    IntactAt board image mem { s with claimed := false } pc := by
  cases pc with
  | getc chars =>
    obtain ⟨hmem, raw, hchars, hlt, hphase⟩ := h
    exact ⟨hmem, raw, hchars, hlt, hphase.bytes, hphase.le, hphase.taken⟩
  | pop chars =>
    obtain ⟨hmem, raw, hchars, hlt, hphase, hne⟩ := h
    exact ⟨hmem, raw, hchars, hlt, ⟨hphase.bytes, hphase.le, hphase.taken⟩, hne⟩
  | poll size i => exact ⟨h.1, h.2.1, h.2.2.ring, h.2.2.bytes, h.2.2.mem_eq⟩
  | read size i => exact ⟨h.1, h.2.1, ⟨h.2.2.1.ring, h.2.2.1.bytes, h.2.2.1.mem_eq⟩, h.2.2.2⟩
  | badMagic => exact h
  | jump size => exact ⟨h.1, h.2.ring, h.2.bytes, h.2.mem_eq⟩

/-- Where the payload loop is after `i` bytes. -/
theorem PayloadPhase.intactAt (h : s.PayloadPhase board image mem i) (hi : i ≤ image.length) :
    s.IntactAt board image mem (payload image.length i) := by
  unfold payload
  split_ifs with hlt
  · exact ⟨rfl, hlt, h⟩
  · obtain rfl : i = image.length := Nat.le_antisymm hi (Nat.not_lt.mp hlt)
    exact ⟨rfl, h⟩

/-- **Popping a character** of the header. -/
theorem HeaderPhase.pop (h : s.HeaderPhase image raw) (hlt : raw.length < 8) (hmem : s.mem = mem)
    (hlen : image.length < 2 ^ 32) (hcr : carriageReturn ∉ le32Bytes image.length)
    (hne : s.rxBuf.contents ≠ []) : Intact board image mem { s with
      rxBuf := (ringPop s.rxBuf).2
      pc := afterHeader (raw.map (fun b => translate b.toNat) ++
        [translate (ringPop s.rxBuf).1]) } := by
  obtain ⟨c, l, hcontents⟩ := List.exists_cons_of_ne_nil hne
  obtain ⟨r', hpop, hl⟩ := ringPop_of_contents hcontents
  have hle := h.le
  have htaken := h.taken
  rw [hcontents, List.length_cons] at hle htaken
  have hchars : raw.map (fun b => translate b.toNat) ++ [translate (c.toNat : ℤ)] =
      (raw ++ [c]).map fun b => translate b.toNat := by rw [List.map_append]; rfl
  have hbytes : raw ++ [c] ++ l ++ s.fifo ++ s.wire = headerBytes image.length ++ image := by
    rw [← h.bytes, hcontents]
    simp
  rw [hpop, hchars]
  by_cases height : raw.length = 7
  · -- the header is complete
    have hnil : l = [] := List.length_eq_zero_iff.mp (by omega)
    subst hnil
    rw [List.append_nil, List.append_assoc] at hbytes
    obtain ⟨hheader, himage⟩ := List.append_inj hbytes (by
      rw [List.length_append, height, length_headerBytes]
      rfl)
    rw [hheader, afterHeader_headerBytes hlen hcr]
    refine PayloadPhase.intactAt ⟨hl, himage, ?_⟩ (Nat.zero_le _)
    rw [List.take_zero, stored_nil]
    exact hmem
  · have hshort : (raw ++ [c]).length < 8 := by
      rw [List.length_append, List.length_singleton]
      omega
    rw [afterHeader_of_length_lt (by rwa [List.length_map])]
    refine ⟨hmem, raw ++ [c], rfl, hshort, ?_, ?_, fun hw => ?_⟩
    · rw [← hbytes]
      exact congrArg (fun x => raw ++ [c] ++ x ++ s.fifo ++ s.wire) hl
    · show (raw ++ [c]).length + r'.contents.length ≤ 8
      rw [hl, List.length_append, List.length_singleton]
      omega
    · show (raw ++ [c]).length + r'.contents.length = 8
      have := htaken hw
      rw [hl, List.length_append, List.length_singleton]
      omega

/-- **Reading a byte** of the image. -/
theorem PayloadPhase.read (h : s.PayloadPhase board image mem i) (hi : i < image.length)
    (hne : s.fifo ≠ []) (stale : UInt8) : Intact board image mem { s with
      fifo := s.fifo.tail
      mem := Function.update s.mem (board.kernelLoadAddr + i) (s.fifo.headD stale)
      pc := payload image.length (i + 1) } := by
  obtain ⟨c, l, hfifo⟩ := List.exists_cons_of_ne_nil hne
  have hbytes := h.bytes
  rw [hfifo, List.drop_eq_getElem_cons hi, List.cons_append] at hbytes
  obtain ⟨rfl, hrest⟩ := List.cons.inj hbytes
  refine PayloadPhase.intactAt ⟨h.ring, ?_, ?_⟩ hi
  · show s.fifo.tail ++ s.wire = _
    rw [hfifo]
    exact hrest
  · have hlen : (image.take i).length = i := List.length_take_of_le hi.le
    show Function.update s.mem (board.kernelLoadAddr + i) (s.fifo.headD stale) = _
    rw [List.take_succ_eq_append_getElem hi, stored_append, h.mem_eq, hfifo, hlen]
    rfl

/-- **A step of the load.** -/
theorem Intact.loadStep (h : s.Intact board image mem) (hlen : image.length < 2 ^ 32)
    (hcr : carriageReturn ∉ le32Bytes image.length) {stale : UInt8}
    (hs : s.loadStep board stale = some s') : s'.Intact board image mem := by
  unfold Intact at h
  unfold Loading.loadStep at hs
  split at hs
  · next chars hpc =>
    rw [hpc] at h
    obtain ⟨hmem, raw, hchars, hlt, hphase⟩ := h
    cases hs
    show IntactAt board image mem _ (if ringEmpty s.rxBuf then _ else _)
    split_ifs with hempty
    · exact ⟨hmem, raw, hchars, hlt, hphase.bytes, hphase.le, hphase.taken⟩
    · exact ⟨hmem, raw, hchars, hlt, ⟨hphase.bytes, hphase.le, hphase.taken⟩,
        mt ringEmpty_iff.mpr hempty⟩
  · next chars hpc =>
    rw [hpc] at h
    obtain ⟨hmem, raw, rfl, hlt, hphase, hne⟩ := h
    cases hs
    exact hphase.pop hlt hmem hlen hcr hne
  · next size i hpc =>
    rw [hpc] at h
    obtain ⟨rfl, hi, hphase⟩ := h
    cases hs
    show IntactAt board image mem _ (if s.fifo = [] then _ else _)
    split_ifs with hfifo
    · exact ⟨rfl, hi, hphase.ring, hphase.bytes, hphase.mem_eq⟩
    · exact ⟨rfl, hi, ⟨hphase.ring, hphase.bytes, hphase.mem_eq⟩, hfifo⟩
  · next size i hpc =>
    rw [hpc] at h
    obtain ⟨rfl, hi, hphase, hne⟩ := h
    cases hs
    exact hphase.read hi hne stale
  · cases hs
  · cases hs

/-- **A step** of a run in which the handler takes no byte of the image. -/
theorem Intact.step (h : s.Intact board image mem) (hlen : image.length < 2 ^ 32)
    (hcr : carriageReturn ∉ le32Bytes image.length) (hG : Apart image s a)
    (hs : s.step board a = some s') : s'.Intact board image mem := by
  cases a with
  | arrive =>
    unfold Loading.step at hs
    dsimp only at hs
    split at hs
    · cases hs
    · next c wire hwire =>
      cases hs
      exact IntactAt.arrive h hwire hG
  | uartTopHalf kmalloc =>
    unfold Loading.step at hs
    dsimp only at hs
    split_ifs at hs with hclaimed
    cases hs
    exact IntactAt.uartTopHalf h kmalloc hG
  | uartBottomHalf =>
    unfold Loading.step at hs
    dsimp only at hs
    split_ifs at hs with hclaimed
    cases hs
    exact IntactAt.uartBottomHalf h
  | load stale => exact h.loadStep hlen hcr hs

/-- What is stored is a beginning of the image. -/
theorem Intact.beginning (h : s.Intact board image mem) :
    ∃ i ≤ image.length, s.mem = stored mem board.kernelLoadAddr (image.take i) := by
  have hnone : s.mem = mem →
      ∃ i ≤ image.length, s.mem = stored mem board.kernelLoadAddr (image.take i) := fun hmem =>
    ⟨0, Nat.zero_le _, by rw [List.take_zero, stored_nil, hmem]⟩
  unfold Intact at h
  cases hpc : s.pc with
  | getc chars =>
    rw [hpc] at h
    exact hnone h.1
  | pop chars =>
    rw [hpc] at h
    exact hnone h.1
  | poll size i =>
    rw [hpc] at h
    exact ⟨i, h.1 ▸ h.2.1.le, h.2.2.mem_eq⟩
  | read size i =>
    rw [hpc] at h
    exact ⟨i, h.1 ▸ h.2.1.le, h.2.2.1.mem_eq⟩
  | badMagic =>
    rw [hpc] at h
    exact h.elim
  | jump size =>
    rw [hpc] at h
    exact ⟨image.length, Nat.le_refl _, h.2.mem_eq⟩

/-! ### The load ends -/

/-- What is left to do. -/
def work (s : Loading) : ℕ :=
  5 * s.wire.length + 4 * s.fifo.length + 2 * s.rxBuf.contents.length + s.claimed.toNat + s.pc.tests

theorem tests_le (pc : LoadPc) : pc.tests ≤ 1 := by
  cases pc with
  | getc | poll => exact Nat.le_refl 1
  | pop | read | badMagic | jump => exact Nat.zero_le 1

/-- **Progress.**  A load that has not ended can go on. -/
theorem Intact.progress (h : s.Intact board image mem) (hpc : ∀ size, s.pc ≠ .jump size) :
    ∃ a s', Apart image s a ∧ s.step board a = some s' ∧ s'.work < s.work := by
  have harrive : s.fifo = [] → s.wire ≠ [] →
      ∃ a s', Apart image s a ∧ s.step board a = some s' ∧ s'.work < s.work := by
    intro hfifo hwire
    obtain ⟨c, wire, hwire⟩ := List.exists_cons_of_ne_nil hwire
    refine ⟨.arrive, { s with wire, fifo := s.fifo ++ [c] }, fun _ => hfifo, ?_, ?_⟩
    · rw [Loading.step, hwire]
    · simp only [work, hwire, List.length_append, List.length_cons, List.length_nil]
      omega
  unfold Intact at h
  cases hat : s.pc with
  | getc chars =>
    rw [hat] at h
    obtain ⟨-, raw, -, hlt, hphase⟩ := h
    by_cases hempty : s.rxBuf.contents = []
    · have hlen := hphase.length
      have htaken := hphase.taken
      rw [hempty, List.length_nil] at hlen htaken
      by_cases hfifo : s.fifo = []
      · refine harrive hfifo fun hwire => ?_
        rw [hfifo, hwire, List.length_nil] at hlen
        omega
      · have hpos : 0 < s.fifo.length := List.length_pos_iff.mpr hfifo
        by_cases hclaimed : s.claimed = true
        · refine ⟨.uartBottomHalf, { s with claimed := false }, trivial, if_pos hclaimed, ?_⟩
          simp only [work, hclaimed, Bool.toNat_true, Bool.toNat_false]
          omega
        · have himage : image.length ≤ s.wire.length := by
            by_contra hlt'
            have := htaken (Nat.not_le.mp hlt')
            omega
          refine ⟨.uartTopHalf true, _, Or.inr himage, if_neg hclaimed, ?_⟩
          have hfull := hphase.contents_drain (k := true) (Or.inr himage)
          simp only [work, hfull, hempty, List.nil_append, List.length_nil, Bool.toNat_true]
          omega
    · refine ⟨.load 0, { s with pc := .pop chars }, trivial, ?_, ?_⟩
      · have hne : ¬ ringEmpty s.rxBuf = true := mt ringEmpty_iff.mp hempty
        rw [Loading.step, Loading.loadStep, hat]
        dsimp only
        rw [if_neg hne]
      · simp only [work, hat, LoadPc.tests]
        omega
  | pop chars =>
    rw [hat] at h
    obtain ⟨-, raw, -, -, -, hne⟩ := h
    obtain ⟨c, l, hcontents⟩ := List.exists_cons_of_ne_nil hne
    obtain ⟨r', hpop, hl⟩ := ringPop_of_contents hcontents
    refine ⟨.load 0, _, trivial, by rw [Loading.step, Loading.loadStep, hat], ?_⟩
    have hle := tests_le (afterHeader (chars ++ [translate c.toNat]))
    simp only [work, hat, hpop, hl, hcontents, List.length_cons]
    omega
  | poll size i =>
    rw [hat] at h
    obtain ⟨rfl, hi, hphase⟩ := h
    by_cases hfifo : s.fifo = []
    · refine harrive hfifo fun hwire => ?_
      have hlen := hphase.length
      rw [hfifo, hwire, List.length_nil] at hlen
      omega
    · refine ⟨.load 0, { s with pc := .read image.length i }, trivial, ?_, ?_⟩
      · rw [Loading.step, Loading.loadStep, hat]
        dsimp only
        rw [if_neg hfifo]
      · simp only [work, hat, LoadPc.tests]
        omega
  | read size i =>
    rw [hat] at h
    obtain ⟨c, l, hfifo⟩ := List.exists_cons_of_ne_nil h.2.2.2
    refine ⟨.load 0, _, trivial, by rw [Loading.step, Loading.loadStep, hat], ?_⟩
    have hle := tests_le (payload size (i + 1))
    simp only [work, hat, hfifo, List.tail_cons, List.length_cons]
    omega
  | badMagic =>
    rw [hat] at h
    exact h.elim
  | jump size => exact absurd hat (hpc size)

/-- **The load can always go on to its end.** -/
theorem Intact.finishes (h : s.Intact board image mem) (hlen : image.length < 2 ^ 32)
    (hcr : carriageReturn ∉ le32Bytes image.length) :
    ∃ s', Reachable (Loading.step board) (Apart image) s s' ∧ s'.pc = .jump image.length := by
  induction hwork : s.work using Nat.strong_induction_on generalizing s with
  | _ n ih =>
    by_cases hjump : ∃ size, s.pc = .jump size
    · obtain ⟨size, hpc⟩ := hjump
      unfold Intact at h
      rw [hpc] at h
      exact ⟨s, .refl s, h.1 ▸ hpc⟩
    · obtain ⟨a, s₁, hG, hs₁, hlt⟩ := h.progress fun size hpc => hjump ⟨size, hpc⟩
      obtain ⟨s', hs', hpc⟩ := ih s₁.work (hwork ▸ hlt) (h.step hlen hcr hG hs₁) rfl
      exact ⟨s', Relation.ReflTransGen.head ⟨a, hG, hs₁⟩ hs', hpc⟩

/-- The beginning. -/
theorem intact_start {rxBuf : UartRing} (hring : rxBuf.contents = []) :
    Intact board image mem (start (headerBytes image.length ++ image) rxBuf mem) := by
  refine ⟨rfl, [], rfl, by decide, ?_, ?_, fun hlt => ?_⟩
  · show [] ++ rxBuf.contents ++ [] ++ _ = _
    rw [hring]
    rfl
  · show 0 + rxBuf.contents.length ≤ 8
    rw [hring]
    decide
  · have hlen : (headerBytes image.length ++ image).length < image.length := hlt
    rw [List.length_append] at hlen
    omega

/-- **Loading from the shell.**  In every run in which the interrupt handler takes no byte of the
image: what is stored at `KERNEL_LOAD_ADDR` is a beginning of the image, in order; when the load
ends it is the image, and nothing is left in `rx_buf`; and the load can always go on to its end. -/
theorem loading_of_reachable {stream : List UInt8} (hsend : sendKernel image = some stream)
    (hcr : carriageReturn ∉ le32Bytes image.length) {rxBuf : UartRing}
    (hring : rxBuf.contents = [])
    (hs : Reachable (step board) (Apart image) (start stream rxBuf mem) s) :
    (∃ i ≤ image.length, s.mem = stored mem board.kernelLoadAddr (image.take i)) ∧
      s.pc ≠ .badMagic ∧
      (∀ size, s.pc = .jump size → size = image.length ∧
        s.mem = stored mem board.kernelLoadAddr image ∧ s.rxBuf.contents = [] ∧ s.fifo = [] ∧
          s.wire = []) ∧
      ∃ s', Reachable (step board) (Apart image) s s' ∧ s'.pc = .jump image.length := by
  obtain ⟨hlen, rfl⟩ := sendKernel_eq hsend
  have h : s.Intact board image mem := hs.invariant (intact_start hring)
    fun s a s' hs hG hstep => hs.step hlen hcr hG hstep
  refine ⟨h.beginning, ?_, fun size hpc => ?_, h.finishes hlen hcr⟩
  · intro hpc
    unfold Intact at h
    rw [hpc] at h
    exact h
  · unfold Intact at h
    rw [hpc] at h
    obtain ⟨rfl, hphase⟩ := h
    have hbytes := hphase.bytes
    rw [List.drop_length, List.append_eq_nil_iff] at hbytes
    have hmem := hphase.mem_eq
    rw [List.take_length] at hmem
    exact ⟨rfl, hmem, hphase.ring, hbytes⟩

/-! ### Two runs -/

/-- The rings at boot. -/
def bootRing : UartRing := ⟨fun _ => 0, 0, 0⟩

/-- The header of an image of one byte arrives, the handler takes it, and the load reads it. -/
def headerRun : List LoadStep :=
  List.replicate 8 .arrive ++ .uartTopHalf true :: List.replicate 16 (.load 0)

/-- A run in which the byte of the image is left to the load. -/
theorem loading_of_headerRun : ∃ stream s, sendKernel [7] = some stream ∧
    Reachable (step .qemu) (Apart [7]) (start stream bootRing fun _ => 0) s ∧
      s.pc = .jump 1 ∧ s.mem = stored (fun _ => 0) 0x82000000 [7] := by
  have hrun : (runList (step .qemu) (start (headerBytes 1 ++ [7]) bootRing fun _ => 0)
      (headerRun ++ [.arrive, .load 0, .load 0])).map (fun s => s.pc) = some (.jump 1) := by
    decide +kernel
  obtain ⟨s, hs, hpc⟩ := Option.map_eq_some_iff.mp hrun
  have hreach : Reachable (step .qemu) (Apart [7]) (start (headerBytes 1 ++ [7]) bootRing
      fun _ => 0) s := Reachable.of_runList hs (by decide +kernel)
  have h := loading_of_reachable rfl (by decide) rfl hreach
  exact ⟨_, s, rfl, hreach, hpc, (h.2.2.1 1 hpc).2.1⟩

/-- The handler takes the byte of the image: it stays in `rx_buf`, and the load waits for ever. -/
theorem stranded_of_interrupt : ∃ stream s, sendKernel [7] = some stream ∧
    carriageReturn ∉ le32Bytes 1 ∧
      Reachable (step .qemu) anyStep (start stream bootRing fun _ => 0) s ∧
        s.rxBuf.contents = [7] ∧
          ∀ s', Reachable (step .qemu) anyStep s s' → s'.pc = .poll 1 0 := by
  have hrun : (runList (step .qemu) (start (headerBytes 1 ++ [7]) bootRing fun _ => 0)
      (headerRun ++ [.uartBottomHalf, .arrive, .uartTopHalf true])).map
        (fun s => (s.wire, s.fifo, s.rxBuf.contents, s.pc)) = some ([], [], [7], .poll 1 0) := by
    decide +kernel
  obtain ⟨s, hs, hv⟩ := Option.map_eq_some_iff.mp hrun
  simp only [Prod.mk.injEq] at hv
  refine ⟨_, s, rfl, by decide, reachable_of_runList hs, hv.2.2.1, fun s' hs' => ?_⟩
  have hwait : s'.wire = [] ∧ s'.fifo = [] ∧ s'.pc = .poll 1 0 :=
    hs'.invariant (P := fun s => s.wire = [] ∧ s.fifo = [] ∧ s.pc = .poll 1 0)
      ⟨hv.1, hv.2.1, hv.2.2.2⟩ fun s a s' ⟨hwire, hfifo, hpc⟩ _ hstep => by
        cases a with
        | arrive =>
          rw [step, hwire] at hstep
          cases hstep
        | uartTopHalf kmalloc =>
          rw [step] at hstep
          split_ifs at hstep
          cases hstep
          exact ⟨hwire, rfl, hpc⟩
        | uartBottomHalf =>
          rw [step] at hstep
          split_ifs at hstep
          cases hstep
          exact ⟨hwire, hfifo, hpc⟩
        | load stale =>
          rw [step, loadStep, hpc] at hstep
          cases hstep
          exact ⟨hwire, hfifo, if_pos hfifo⟩
  exact hwait.2.2

end Loading

end Uart
end OscKernel
