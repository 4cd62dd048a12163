import OscKernel.Word
import Mathlib.Data.Nat.Digits.Lemmas

/-!
# The numbers of the shell commands (`shell.c`)

`stop`, `kill` and `setTimeout` read their numbers with a loop over the digits that adds them up in
an `int`.  What they use is the number that was typed as long as it fits.

* `shellStopPid`, `shellKillPid`, `shellSetTimeout`: the values that the commands go on to use, or
  `none` where they print their usage.
* `scanDigits_eq`: the loop, whatever it wraps.
* `shell_exact_iff`: when the commands use the numbers that were typed.
* `wrapped_of_long`: numbers of ten digits that stop, signal and schedule something else.

## The loop

The loop multiplies by ten and adds a digit, in `int`, once for every digit that there is.  It is
built without optimization and wraps, and what it computes is the number that was typed modulo
`2^32` as a signed number (`scanDigits_eq`), however many digits there are.  That is the number
itself exactly below `2^31`.

## The three commands

The commands differ in what they refuse.  `stop` prints its usage without a digit, `kill` reads a
second number behind the first, and `setTimeout` needs a blank and a message behind its number.
They test the value that they have read, after it may have wrapped: `NoDigits`, `KillUsage` and
`SetTimeoutUsage` are what they refuse, as conditions on the line.  A line of the shell is bounded,
the argument of the three functions here is not.
-/

namespace OscKernel
namespace Shell

/-! ## The code -/

/-- `c >= '0' && c <= '9'`. -/
def isDigit (c : UInt8) : Bool := 0x30 ≤ c && c ≤ 0x39

/-- `while (*p == ' ') p++`. -/
def skipSpaces (p : List UInt8) : List UInt8 := p.dropWhile (· == 0x20)

/-- `*p`. -/
def peek (p : List UInt8) : UInt8 := p.headD 0

/-- `NSIG`. -/
def nsig : ℤ := 32

/-- `SETTO_MSG_MAX`. -/
def settoMsgMax : ℕ := 96

/-- The number, the count of its digits, and the characters after it. -/
structure Scan where
  number : ℤ
  digits : ℤ
  rest : List UInt8

/-- The loop over the digits. -/
def scanDigits : List UInt8 → ℤ → ℤ → Scan
  | [], number, digits => ⟨number, digits, []⟩
  | c :: p, number, digits =>
      if isDigit c then
        scanDigits p (i32 (i32 (number * 10) + i32 (c.toNat - 0x30))) (i32 (digits + 1))
      else ⟨number, digits, c :: p⟩

/-- `shell_stop_pid`: the `pid` that it looks for. -/
def shellStopPid (args : List UInt8) : Option ℤ :=
  let s := scanDigits (skipSpaces args) 0 0
  if s.digits = 0 then none else some s.number

/-- `shell_kill_pid`: the `pid` that it looks for and the `signum` that it posts. -/
def shellKillPid (args : List UInt8) : Option (ℤ × ℤ) :=
  let s := scanDigits (skipSpaces args) 0 0
  if s.digits = 0 ∨ peek s.rest ≠ 0x20 then none
  else
    let s' := scanDigits (skipSpaces s.rest) 0 0
    if s'.digits = 0 ∨ s'.number ≤ 0 ∨ s'.number ≥ nsig then none
    else some (s.number, s'.number)

/-- `shell_set_timeout`: the seconds for `add_timer`, and the message. -/
def shellSetTimeout (args : List UInt8) : Option (ℤ × List UInt8) :=
  let s := scanDigits (skipSpaces args) 0 0
  if s.digits = 0 ∨ s.number ≤ 0 ∨ peek s.rest ≠ 0x20 then none
  else
    let p := skipSpaces s.rest
    if peek p = 0 then none
    else some (s.number, (p.takeWhile (· ≠ 0)).take (settoMsgMax - 1))

/-! ## What was typed -/

/-- The digits at the start of the arguments. -/
def digitsAt (p : List UInt8) : List UInt8 := (skipSpaces p).takeWhile isDigit

/-- What comes after them. -/
def afterDigits (p : List UInt8) : List UInt8 := (skipSpaces p).dropWhile isDigit

/-- The number that digits stand for. -/
def decimal (ds : List UInt8) : ℕ := Nat.ofDigits 10 (ds.map fun c => c.toNat - 0x30).reverse

/-- The number at the start of the arguments. -/
def typed (p : List UInt8) : ℕ := decimal (digitsAt p)

/-- There is no digit, or so many that the count of them wraps to zero. -/
def NoDigits (p : List UInt8) : Prop := 2 ^ 32 ∣ (digitsAt p).length

/-- `kill` prints its usage. -/
def KillUsage (args : List UInt8) : Prop :=
  NoDigits args ∨ peek (afterDigits args) ≠ 0x20 ∨ NoDigits (afterDigits args) ∨
    ¬ (0 < typed (afterDigits args) % 2 ^ 32 ∧ typed (afterDigits args) % 2 ^ 32 < 32)

/-- `setTimeout` prints its usage. -/
def SetTimeoutUsage (args : List UInt8) : Prop :=
  NoDigits args ∨ ¬ (0 < typed args % 2 ^ 32 ∧ typed args % 2 ^ 32 < 2 ^ 31) ∨
    peek (afterDigits args) ≠ 0x20 ∨ peek (skipSpaces (afterDigits args)) = 0

/-! ## The arithmetic -/

theorem i32_eq_zero_iff (n : ℕ) : i32 n = 0 ↔ 2 ^ 32 ∣ n := by
  unfold i32 Int.bmod
  dsimp only
  split_ifs <;> omega

theorem i32_eq_iff (n : ℕ) : i32 n = n ↔ n < 2 ^ 31 := by
  unfold i32 Int.bmod
  dsimp only
  split_ifs <;> omega

theorem i32_pos_iff (n : ℕ) : 0 < i32 n ↔ 0 < n % 2 ^ 32 ∧ n % 2 ^ 32 < 2 ^ 31 := by
  unfold i32 Int.bmod
  dsimp only
  split_ifs <;> omega

theorem i32_signum_iff (n : ℕ) : 0 < i32 n ∧ i32 n < nsig ↔ 0 < n % 2 ^ 32 ∧ n % 2 ^ 32 < 32 := by
  unfold i32 Int.bmod nsig
  dsimp only
  split_ifs <;> omega

/-- Adding a digit, where everything may wrap. -/
theorem i32_step (v d : ℤ) : i32 (i32 (i32 v * 10) + i32 d) = i32 (v * 10 + d) := by
  unfold i32
  rw [Int.bmod_mul_bmod, Int.bmod_add_bmod, Int.add_bmod_bmod]

theorem decimal_cons (c : UInt8) (ds : List UInt8) :
    decimal (c :: ds) = (c.toNat - 0x30) * 10 ^ ds.length + decimal ds := by
  simp [decimal, Nat.ofDigits_append, Nat.add_comm, Nat.mul_comm]

/-- **The loop over the digits** computes the number modulo `2 ^ 32`. -/
theorem scanDigits_eq (p : List UInt8) (v k : ℕ) :
    scanDigits p (i32 v) (i32 k) =
      ⟨i32 ((v * 10 ^ (p.takeWhile isDigit).length + decimal (p.takeWhile isDigit) : ℕ) : ℤ),
        i32 ((k + (p.takeWhile isDigit).length : ℕ) : ℤ), p.dropWhile isDigit⟩ := by
  induction p generalizing v k with
  | nil => simp [scanDigits, decimal]
  | cons c p ih =>
    by_cases hc : isDigit c = true
    · have hle : 0x30 ≤ c.toNat := by
        have hlow := (Bool.and_eq_true_iff.mp hc).1
        exact of_decide_eq_true hlow
      have hnumber : i32 (i32 (i32 v * 10) + i32 (c.toNat - 0x30)) =
          i32 ((v * 10 + (c.toNat - 0x30) : ℕ) : ℤ) := by
        rw [i32_step]
        push_cast [hle]
        rfl
      have hdigits : i32 (i32 k + 1) = i32 ((k + 1 : ℕ) : ℤ) := by
        unfold i32
        rw [Int.bmod_add_bmod]
        rfl
      rw [scanDigits, if_pos hc, hnumber, hdigits, ih, List.takeWhile_cons_of_pos hc,
        List.dropWhile_cons_of_pos hc, decimal_cons, List.length_cons]
      have hvalue : ∀ d m : ℕ, (v * 10 + d) * 10 ^ (p.takeWhile isDigit).length + m =
          v * 10 ^ ((p.takeWhile isDigit).length + 1) +
            (d * 10 ^ (p.takeWhile isDigit).length + m) := by
        intro d m
        ring
      rw [hvalue, Nat.add_assoc k, Nat.add_comm 1]
    · rw [scanDigits, if_neg hc, List.takeWhile_cons_of_neg hc, List.dropWhile_cons_of_neg hc]
      simp [decimal]

theorem scanDigits_start (args : List UInt8) :
    scanDigits (skipSpaces args) 0 0 =
      ⟨i32 (typed args), i32 (digitsAt args).length, afterDigits args⟩ := by
  have hscan := scanDigits_eq (skipSpaces args) 0 0
  have hzero : i32 ((0 : ℕ) : ℤ) = 0 := rfl
  rw [hzero, Nat.zero_mul, Nat.zero_add, Nat.zero_add] at hscan
  exact hscan

/-- The loop at the start of the arguments. -/
theorem scanDigits_skipSpaces (args : List UInt8) :
    ∃ s : Scan, scanDigits (skipSpaces args) 0 0 = s ∧ (s.digits = 0 ↔ NoDigits args) ∧
      s.number = i32 (typed args) ∧ s.rest = afterDigits args := by
  have hcount : i32 (digitsAt args).length = 0 ↔ NoDigits args := by
    rw [NoDigits, i32_eq_zero_iff]
  refine ⟨scanDigits (skipSpaces args) 0 0, rfl, ?_, ?_, ?_⟩
  · rw [scanDigits_start]
    dsimp only
    exact hcount
  · rw [scanDigits_start]
  · rw [scanDigits_start]

/-! ## The commands -/

section Commands

variable (args : List UInt8)

theorem shellStopPid_eq_some {pid : ℤ} :
    shellStopPid args = some pid ↔ ¬ NoDigits args ∧ i32 (typed args) = pid := by
  obtain ⟨s, hscan, hdigits, hnumber, -⟩ := scanDigits_skipSpaces args
  rw [shellStopPid, hscan, ← hdigits, ← hnumber]
  by_cases hzero : s.digits = 0 <;> simp [hzero]

theorem shellKillPid_eq_some {pid signum : ℤ} :
    shellKillPid args = some (pid, signum) ↔
      ¬ KillUsage args ∧ i32 (typed args) = pid ∧ i32 (typed (afterDigits args)) = signum := by
  obtain ⟨s, hscan, hdigits, hnumber, hrest⟩ := scanDigits_skipSpaces args
  obtain ⟨s', hscan', hdigits', hnumber', -⟩ := scanDigits_skipSpaces (afterDigits args)
  have hsignum := i32_signum_iff (typed (afterDigits args))
  rw [KillUsage, ← hsignum, shellKillPid, hscan, hrest, hscan', ← hdigits, ← hdigits', ← hnumber,
    ← hnumber', not_and_or, not_lt, not_lt]
  dsimp only
  split_ifs with h₁ h₂
  · refine iff_of_false nofun fun h => h.1 ?_
    exact h₁.imp_right Or.inl
  · refine iff_of_false nofun fun h => h.1 ?_
    exact Or.inr (Or.inr h₂)
  · rw [not_or] at h₁
    simp [h₁.1, h₁.2, h₂]

theorem shellSetTimeout_eq_some {sec : ℤ} {msg : List UInt8} :
    shellSetTimeout args = some (sec, msg) ↔
      ¬ SetTimeoutUsage args ∧ i32 (typed args) = sec ∧
        ((skipSpaces (afterDigits args)).takeWhile (· ≠ 0)).take (settoMsgMax - 1) = msg := by
  obtain ⟨s, hscan, hdigits, hnumber, hrest⟩ := scanDigits_skipSpaces args
  have hpos := i32_pos_iff (typed args)
  rw [SetTimeoutUsage, ← hpos, shellSetTimeout, hscan, hrest, ← hdigits, ← hnumber, not_lt]
  dsimp only
  split_ifs with h₁ h₂
  · refine iff_of_false nofun fun h => h.1 ?_
    exact h₁.imp_right fun h => h.imp_right Or.inl
  · refine iff_of_false nofun fun h => h.1 ?_
    exact Or.inr (Or.inr (Or.inr h₂))
  · rw [not_or, not_or] at h₁
    simp [h₁.1, h₁.2.1, h₁.2.2, h₂]

/-- **The numbers that the commands use** are those that were typed exactly when these are below
`2 ^ 31`, or the usage is printed for another reason: there is no digit, a blank or the message is
missing, or the value is out of range after it has wrapped. -/
theorem shell_exact_iff :
    ((∀ pid, shellStopPid args = some pid → pid = typed args) ↔
      NoDigits args ∨ typed args < 2 ^ 31) ∧
    ((∀ pid signum, shellKillPid args = some (pid, signum) →
        pid = typed args ∧ signum = typed (afterDigits args)) ↔
      KillUsage args ∨ typed args < 2 ^ 31 ∧ typed (afterDigits args) < 2 ^ 31) ∧
    ((∀ sec msg, shellSetTimeout args = some (sec, msg) → sec = typed args) ↔
      SetTimeoutUsage args ∨ typed args < 2 ^ 31) := by
  have hfits := i32_eq_iff (typed args)
  have hfits' := i32_eq_iff (typed (afterDigits args))
  refine ⟨?_, ?_, ?_⟩
  · simp only [shellStopPid_eq_some]
    rw [← hfits]
    constructor
    · intro h
      by_contra hno
      rw [not_or] at hno
      exact hno.2 (h _ ⟨hno.1, rfl⟩)
    · rintro (hno | hlt) pid ⟨hdigits, rfl⟩
      · exact absurd hno hdigits
      · exact hlt
  · simp only [shellKillPid_eq_some]
    rw [← hfits, ← hfits']
    constructor
    · intro h
      by_contra hno
      rw [not_or] at hno
      exact hno.2 (h _ _ ⟨hno.1, rfl, rfl⟩)
    · rintro (hno | hlt) pid signum ⟨husage, rfl, rfl⟩
      · exact absurd hno husage
      · exact hlt
  · simp only [shellSetTimeout_eq_some]
    rw [← hfits]
    constructor
    · intro h
      by_contra hno
      rw [not_or] at hno
      exact hno.2 (h _ _ ⟨hno.1, rfl, rfl⟩)
    · rintro (hno | hlt) sec msg ⟨husage, rfl, rfl⟩
      · exact absurd hno husage
      · exact hlt

end Commands

/-- `"4294967298"`. -/
def longNumber : List UInt8 := [0x34, 0x32, 0x39, 0x34, 0x39, 0x36, 0x37, 0x32, 0x39, 0x38]

/-- **Long numbers.**  `stop 4294967298` looks for the process 2, `kill 4294967298 9` posts to the
process 2, and `setTimeout 4294967298 a` waits two seconds. -/
theorem wrapped_of_long :
    shellStopPid longNumber = some 2 ∧ typed longNumber = 4294967298 ∧
      shellKillPid (longNumber ++ [0x20, 0x39]) = some (2, 9) ∧
      shellSetTimeout (longNumber ++ [0x20, 0x61]) = some (2, [0x61]) ∧
      ¬ (∀ pid, shellStopPid longNumber = some pid → pid = typed longNumber) := by
  have hstop : shellStopPid longNumber = some 2 := by decide +kernel
  have htyped : typed longNumber = 4294967298 := by decide +kernel
  refine ⟨hstop, htyped, by decide +kernel, by decide +kernel, fun h => ?_⟩
  have heq := h 2 hstop
  rw [htyped] at heq
  exact absurd heq (by decide)

end Shell
end OscKernel
