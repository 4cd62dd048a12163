import OscKernel.Boot.Cpio
import OscKernel.Process.ShellNumbers
import Mathlib.Data.List.TakeWhile

/-!
# Numbers on the console (`utils.c`)

The kernel prints a number into a buffer on its stack, from the last digit to the first one, and
then sends the buffer.  What it prints is read by people, and typed back by them.

* `printDecUlong`, `printHexUlong`, `printHexU32`: the characters that are sent.
* `printDecUlong_eq`, `printHex_isHex`: they are the digits of the number, whatever the buffer held.
* `commands_of_printed`: the commands of the shell read a printed number as the number.
* `hex2int_of_printed`: so does the reader of hexadecimal fields.

The buffer of the decimal printer is 32 bytes and is filled from the front with the lowest digit
first; a number of 64 bits has at most twenty digits.  What was in the buffer before does not reach
the output, and the theorems say so by quantifying over it.  The hexadecimal printers print a fixed
number of digits, with zeros in front; `hex2int` takes them as they are.
-/

namespace OscKernel
namespace Shell

/-! ## The code -/

/-- `'0' + d`. -/
def decChar (d : ℕ) : UInt8 := UInt8.ofNat (0x30 + d)

/-- The loop of `print_dec_ulong` that fills its buffer from `i` on, while there are `room`
characters left: the next index, and the buffer. -/
def decFill : ℕ → ℕ → ℕ → (ℕ → UInt8) → ℕ × (ℕ → UInt8)
  | 0, _, i, buf => (i, buf)
  | room + 1, x, i, buf =>
      if x = 0 then (i, buf)
      else decFill room (x / 10) (i + 1) (Function.update buf i (decChar (x % 10)))

/-- `while (i > 0) uart_putc(buf[--i]);`. -/
def decDrain : ℕ → (ℕ → UInt8) → List UInt8
  | 0, _ => []
  | i + 1, buf => buf i :: decDrain i buf

/-- `print_dec_ulong`; `buf` is what its `char buf[32]` held. -/
def printDecUlong (x : ℕ) (buf : ℕ → UInt8) : List UInt8 :=
  if x = 0 then [0x30]
  else
    let r := decFill 32 x 0 buf
    decDrain r.1 r.2

/-- The loop of `print_hex_ulong` that fills its buffer from `i - 1` down to `0`. -/
def hexFill : ℕ → ℕ → (ℕ → UInt8) → ℕ → UInt8
  | 0, _, buf => buf
  | i + 1, x, buf => hexFill i (x >>> 4) (Function.update buf i (Boot.hexChar (x &&& 0xF)))

/-- A number as `n` hexadecimal digits. -/
def printHex (n x : ℕ) (buf : ℕ → UInt8) : List UInt8 := (List.range n).map (hexFill n x buf)

/-- `print_hex_ulong`. -/
def printHexUlong (x : ℕ) (buf : ℕ → UInt8) : List UInt8 := printHex 16 x buf

/-- `print_hex_u32`. -/
def printHexU32 (x : ℕ) (buf : ℕ → UInt8) : List UInt8 := printHex 8 x buf

/-! ## Decimal digits -/

section Decimal

variable {x i room : ℕ} {buf buf' : ℕ → UInt8}

theorem toNat_decChar {d : ℕ} (h : d < 10) : (decChar d).toNat = 0x30 + d := by
  rw [decChar, UInt8.toNat_ofNat']
  omega

theorem isDigit_decChar {d : ℕ} (h : d < 10) : isDigit (decChar d) = true := by
  simp only [isDigit, Bool.and_eq_true, decide_eq_true_eq, UInt8.le_iff_toNat_le, toNat_decChar h]
  constructor
  · show 0x30 ≤ 0x30 + d
    omega
  · show 0x30 + d ≤ 0x39
    omega

/-- **The buffer** is filled with the digits, the last one first; it is long enough, and nothing
before `i` is written. -/
theorem decFill_eq (h : x < 10 ^ room) :
    (decFill room x i buf).1 = i + (Nat.digits 10 x).length ∧
      (∀ j, (hj : j < (Nat.digits 10 x).length) →
        (decFill room x i buf).2 (i + j) = decChar (Nat.digits 10 x)[j]) ∧
      ∀ j < i, (decFill room x i buf).2 j = buf j := by
  induction room generalizing x i buf with
  | zero =>
    obtain rfl : x = 0 := by simpa using h
    simp [decFill]
  | succ room ih =>
    rw [decFill]
    split_ifs with h0
    · simp [h0]
    · have hdigits := Nat.digits_def' (b := 10) (by decide) (Nat.pos_of_ne_zero h0)
      have hx : x / 10 < 10 ^ room := Nat.div_lt_of_lt_mul (by rwa [← Nat.pow_succ'])
      obtain ⟨hlen, hget, hbefore⟩ :=
        @ih (x / 10) (i + 1) (Function.update buf i (decChar (x % 10))) hx
      refine ⟨?_, ?_, ?_⟩
      · rw [hlen, hdigits, List.length_cons]
        omega
      · intro j hj
        simp only [hdigits]
        cases j with
        | zero =>
          have hfirst := hbefore i (Nat.lt_succ_self i)
          simpa using hfirst
        | succ j =>
          have hj' : j < (Nat.digits 10 (x / 10)).length := by
            rw [hdigits, List.length_cons] at hj
            omega
          have hnext := hget j hj'
          rw [Nat.add_right_comm, Nat.add_assoc] at hnext
          simpa using hnext
      · intro j hj
        rw [hbefore j (by omega), Function.update_of_ne (by omega)]

theorem decDrain_eq (n : ℕ) (buf : ℕ → UInt8) :
    decDrain n buf = ((List.range n).map buf).reverse := by
  induction n with
  | zero => rfl
  | succ n ih => simp [decDrain, ih, List.range_succ]

/-- **What `print_dec_ulong` sends** are the digits of the number, the first one first. -/
theorem printDecUlong_eq (hx : x < 2 ^ 64) (h0 : x ≠ 0) (buf : ℕ → UInt8) :
    printDecUlong x buf = ((Nat.digits 10 x).map decChar).reverse := by
  have hroom : x < 10 ^ 32 := hx.trans (by decide)
  obtain ⟨hlen, hget, -⟩ := @decFill_eq x 0 32 buf hroom
  rw [Nat.zero_add] at hlen
  rw [printDecUlong, if_neg h0]
  dsimp only
  rw [decDrain_eq, hlen]
  congr 1
  refine List.ext_getElem (by simp) fun j hj hj' => ?_
  have hj'' : j < (Nat.digits 10 x).length := by simpa using hj'
  have hbuf := hget j hj''
  rw [Nat.zero_add] at hbuf
  simp [hbuf]

/-- They are digits, and there are some. -/
theorem printDecUlong_digits (hx : x < 2 ^ 64) (buf : ℕ → UInt8) :
    (∀ c ∈ printDecUlong x buf, isDigit c = true) ∧ printDecUlong x buf ≠ [] ∧
      (printDecUlong x buf).length ≤ 20 := by
  by_cases h0 : x = 0
  · simp [printDecUlong, h0, isDigit]
  · rw [printDecUlong_eq hx h0]
    refine ⟨?_, ?_, ?_⟩
    · intro c hc
      obtain ⟨d, hd, rfl⟩ := List.mem_map.mp (List.mem_reverse.mp hc)
      exact isDigit_decChar (Nat.digits_lt_base (by decide) hd)
    · simp [Nat.digits_ne_nil_iff_ne_zero, h0]
    · rw [List.length_reverse, List.length_map, Nat.digits_length_le_iff (by decide)]
      exact hx.trans (by decide)

/-- They stand for the number. -/
theorem decimal_printDecUlong (hx : x < 2 ^ 64) (buf : ℕ → UInt8) :
    decimal (printDecUlong x buf) = x := by
  by_cases h0 : x = 0
  · simp [printDecUlong, h0, decimal]
  · have hback : ((Nat.digits 10 x).map decChar).map (fun c => c.toNat - 0x30) =
        Nat.digits 10 x := by
      rw [List.map_map, List.map_congr_left, List.map_id']
      intro d hd
      simp [toNat_decChar (Nat.digits_lt_base (b := 10) (by decide) hd)]
    rw [printDecUlong_eq hx h0, decimal, List.map_reverse, List.reverse_reverse, hback,
      Nat.ofDigits_digits]

/-- The first number of arguments that start with a printed number. -/
theorem digitsAt_printed {rest : List UInt8} (hx : x < 2 ^ 64) (buf : ℕ → UInt8)
    (hrest : ∀ c ∈ rest.head?, isDigit c = false) :
    digitsAt (printDecUlong x buf ++ rest) = printDecUlong x buf ∧
      afterDigits (printDecUlong x buf ++ rest) = rest := by
  obtain ⟨hdigits, hne, -⟩ := printDecUlong_digits hx buf
  obtain ⟨c, l, hl⟩ := List.exists_cons_of_ne_nil hne
  have hskip : skipSpaces (printDecUlong x buf ++ rest) = printDecUlong x buf ++ rest := by
    have hc := hdigits c (by simp [hl])
    rw [hl, List.cons_append, skipSpaces, List.dropWhile_cons_of_neg]
    intro hspace
    rw [eq_of_beq hspace] at hc
    exact absurd hc (by decide)
  have hstop : rest.takeWhile isDigit = [] ∧ rest.dropWhile isDigit = rest := by
    cases rest with
    | nil => simp
    | cons c rest =>
      have hc := hrest c rfl
      simp [hc]
  constructor
  · rw [digitsAt, hskip, List.takeWhile_append_of_pos hdigits, hstop.1, List.append_nil]
  · rw [afterDigits, hskip, List.dropWhile_append_of_pos hdigits, hstop.2]

theorem typed_printed {rest : List UInt8} (hx : x < 2 ^ 64) (buf : ℕ → UInt8)
    (hrest : ∀ c ∈ rest.head?, isDigit c = false) : typed (printDecUlong x buf ++ rest) = x := by
  rw [typed, (digitsAt_printed hx buf hrest).1, decimal_printDecUlong hx]

/-- There are digits, and not so many that they cannot be counted. -/
theorem not_noDigits_printed {rest : List UInt8} (hx : x < 2 ^ 64) (buf : ℕ → UInt8)
    (hrest : ∀ c ∈ rest.head?, isDigit c = false) : ¬ NoDigits (printDecUlong x buf ++ rest) := by
  obtain ⟨-, hne, hlen⟩ := printDecUlong_digits hx buf
  rw [NoDigits, (digitsAt_printed hx buf hrest).1]
  intro hdvd
  have hpos := List.length_pos_of_ne_nil hne
  have hle := Nat.le_of_dvd hpos hdvd
  omega

/-- Blanks in front of a number are skipped. -/
theorem skip_blank (args : List UInt8) : skipSpaces (0x20 :: args) = skipSpaces args := by
  rw [skipSpaces, List.dropWhile_cons_of_pos rfl, skipSpaces]

end Decimal

/-- **What is printed can be typed.**  `stop`, `kill` and `setTimeout` act on a pid, a signal and a
number of seconds that the kernel printed, whatever was in its buffer before.  The pid and the
seconds fit an `int`, the signal is one that `kill` accepts, and the message is not empty, has no
NUL, does not begin with a blank and fits its buffer. -/
theorem commands_of_printed {pid signum sec : ℕ} (hpid : pid < 2 ^ 31) (hsig : 0 < signum)
    (hsig' : signum < 32) (hsec : 0 < sec) (hsec' : sec < 2 ^ 31) {msg : List UInt8}
    (hmsg : peek msg ≠ 0x20 ∧ 0 ∉ msg ∧ msg ≠ [] ∧ msg.length < settoMsgMax)
    (buf buf' : ℕ → UInt8) :
    shellStopPid (printDecUlong pid buf) = some (pid : ℤ) ∧
      shellKillPid (printDecUlong pid buf ++ 0x20 :: printDecUlong signum buf') =
        some ((pid : ℤ), (signum : ℤ)) ∧
      shellSetTimeout (printDecUlong sec buf ++ 0x20 :: msg) = some ((sec : ℤ), msg) := by
  have hpid' : pid < 2 ^ 64 := hpid.trans (by decide)
  have hsig'' : signum < 2 ^ 64 := hsig'.trans (by decide)
  have hsec'' : sec < 2 ^ 64 := hsec'.trans (by decide)
  have hblank : ∀ l : List UInt8, ∀ c ∈ (0x20 :: l).head?, isDigit c = false := by
    intro l c hc
    obtain rfl := Option.some.inj hc
    rfl
  have hnil : ∀ c ∈ ([] : List UInt8).head?, isDigit c = false := fun c hc => absurd hc (by simp)
  have hfits : i32 pid = pid := (i32_eq_iff pid).mpr hpid
  refine ⟨?_, ?_, ?_⟩
  · rw [← List.append_nil (printDecUlong pid buf), shellStopPid_eq_some,
      typed_printed hpid' buf hnil]
    exact ⟨not_noDigits_printed hpid' buf hnil, hfits⟩
  · have hafter := (digitsAt_printed hpid' buf (hblank (printDecUlong signum buf'))).2
    have hsecond : ∀ p : List UInt8, typed (0x20 :: p) = typed p ∧
        (NoDigits (0x20 :: p) ↔ NoDigits p) := by
      intro p
      simp only [typed, NoDigits, digitsAt, skip_blank, and_self]
    have htyped := typed_printed hsig'' buf' hnil
    have hdigits := not_noDigits_printed hsig'' buf' hnil
    rw [List.append_nil] at htyped hdigits
    rw [shellKillPid_eq_some, KillUsage, hafter, (hsecond _).1, (hsecond _).2, htyped,
      typed_printed hpid' buf (hblank _)]
    refine ⟨?_, hfits, (i32_eq_iff signum).mpr (by omega)⟩
    rintro (hno | hpeek | hno | hrange)
    · exact not_noDigits_printed hpid' buf (hblank _) hno
    · exact hpeek rfl
    · exact hdigits hno
    · exact hrange (by omega)
  · obtain ⟨hpeek, hzero, hne, hlen⟩ := hmsg
    obtain ⟨c, l, rfl⟩ := List.exists_cons_of_ne_nil hne
    have hafter := (digitsAt_printed hsec'' buf (hblank (c :: l))).2
    have hskip : skipSpaces (0x20 :: c :: l) = c :: l := by
      rw [skip_blank, skipSpaces, List.dropWhile_cons_of_neg]
      exact fun hspace => hpeek (eq_of_beq hspace)
    have hall : (c :: l).takeWhile (· ≠ 0) = c :: l := by
      rw [List.takeWhile_eq_self_iff]
      intro d hd
      rw [decide_eq_true_iff]
      rintro rfl
      exact hzero hd
    rw [shellSetTimeout_eq_some, SetTimeoutUsage, hafter, typed_printed hsec'' buf (hblank _),
      hskip, hall, List.take_of_length_le (Nat.le_sub_one_of_lt hlen)]
    refine ⟨?_, (i32_eq_iff sec).mpr hsec', rfl⟩
    rintro (hno | hrange | hpeek' | hend)
    · exact not_noDigits_printed hsec'' buf (hblank _) hno
    · exact hrange (by omega)
    · exact hpeek' rfl
    · exact hzero (by rw [← hend]; exact List.mem_cons_self)

/-- A pid with ten digits, `SIGTERM`, and `hi` after three seconds. -/
theorem printed_term :
    shellStopPid (printDecUlong 1234567890 fun _ => 0) = some ((1234567890 : ℕ) : ℤ) ∧
      shellKillPid (printDecUlong 1234567890 (fun _ => 0) ++ 0x20 :: printDecUlong 15 fun _ => 0) =
        some (((1234567890 : ℕ) : ℤ), ((15 : ℕ) : ℤ)) ∧
      shellSetTimeout (printDecUlong 3 (fun _ => 0) ++ 0x20 :: [0x68, 0x69]) =
        some (((3 : ℕ) : ℤ), [0x68, 0x69]) :=
  commands_of_printed (by decide) (by decide) (by decide) (by decide) (by decide) (by decide) _ _

/-! ## Hexadecimal digits -/

section Hexadecimal

open Boot Bytes

variable {x n : ℕ} {buf : ℕ → UInt8}

theorem hexFill_of_le {j : ℕ} (hj : n ≤ j) : hexFill n x buf j = buf j := by
  induction n generalizing x buf with
  | zero => rfl
  | succ n ih => rw [hexFill, ih (by omega), Function.update_of_ne (by omega)]

/-- One digit more. -/
theorem printHex_succ (n x : ℕ) (buf : ℕ → UInt8) : ∃ buf',
    printHex (n + 1) x buf = printHex n (x / 16) buf' ++ [hexChar (x % 16)] := by
  refine ⟨Function.update buf n (hexChar (x &&& 0xF)), ?_⟩
  have hand : x &&& 0xF = x % 16 := Nat.and_two_pow_sub_one_eq_mod x 4
  rw [printHex, List.range_succ, List.map_append, hexFill, List.map_singleton,
    hexFill_of_le (Nat.le_refl n), Function.update_self, Nat.shiftRight_eq_div_pow, hand]
  rfl

/-- **What is sent** are the digits of the number. -/
theorem printHex_isHex (hx : x < 16 ^ n) (buf : ℕ → UInt8) :
    IsHex (printHex n x buf) x ∧ (printHex n x buf).length = n := by
  refine ⟨?_, by simp [printHex]⟩
  induction n generalizing x buf with
  | zero =>
    obtain rfl : x = 0 := by simpa using hx
    exact ⟨[], List.Forall₂.nil, rfl⟩
  | succ n ih =>
    obtain ⟨buf', heq⟩ := printHex_succ n x buf
    obtain ⟨ds, hds, hvalue⟩ := ih (x := x / 16)
      (Nat.div_lt_of_lt_mul (by rwa [← Nat.pow_succ'])) buf'
    have hdigit := isHexDigit_hexChar (d := x % 16) (Nat.mod_lt _ (by decide))
    refine ⟨ds ++ [x % 16], ?_, ?_⟩
    · rw [heq]
      exact List.rel_append hds (List.Forall₂.cons hdigit List.Forall₂.nil)
    · rw [List.reverse_append, List.reverse_singleton, List.singleton_append, Nat.ofDigits_cons]
      omega

end Hexadecimal

/-- **What is printed can be read.**  The reader of the hexadecimal fields of an archive reads a
printed number as the number: the sixteen digits of `print_hex_ulong`, and below `2 ^ 32` also the
eight digits of `print_hex_u32`, whatever was in their buffers. -/
theorem hex2int_of_printed {x : ℕ} (hx : x < 2 ^ 64) (buf : ℕ → UInt8) :
    Boot.hex2int (printHexUlong x buf) = x ∧
      (x < 2 ^ 32 → Boot.hex2int (printHexU32 x buf) = x) := by
  constructor
  · obtain ⟨⟨ds, hds, hvalue⟩, hlen⟩ := printHex_isHex (n := 16) (by simpa using hx) buf
    have hroom : (0 + 1) * 16 ^ (printHex 16 x buf).length ≤ 2 ^ 64 := by
      rw [hlen]
      decide
    have hfold := Boot.foldl_hexDigit hds hroom
    rw [printHexUlong, Boot.hex2int, hfold, Nat.zero_mul, Nat.zero_add, hvalue]
  · intro hx'
    obtain ⟨hhex, hlen⟩ := printHex_isHex (n := 8) (by simpa using hx') buf
    exact Boot.hex2int_of_isHex hhex hlen.le

/-- An address in the first gigabyte of memory. -/
theorem printed_address :
    Boot.hex2int (printHexUlong 0x8020abcd fun _ => 0) = 0x8020abcd ∧
      (0x8020abcd < 2 ^ 32 → Boot.hex2int (printHexU32 0x8020abcd fun _ => 0) = 0x8020abcd) :=
  hex2int_of_printed (by decide) _

end Shell
end OscKernel
