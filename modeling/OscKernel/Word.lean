import Mathlib.Data.Int.Bitwise
import Mathlib.Data.Nat.Bitwise
import Mathlib.Tactic.Ring

/-!
# Machine arithmetic of the kernel

The kernel is built for a 64-bit target: `unsigned long`, `uintptr_t` and `uint64_t` are 64-bit
words and `int` is a 32-bit signed word.  Words are natural numbers; an operation that can wrap is
followed by `u64`.  Where a value is stored into an `int` it passes through `toInt32`, which keeps
the low 32 bits.
-/

namespace OscKernel

/-- The value of a C expression of type `unsigned long`. -/
def u64 (n : ℕ) : ℕ := n % 2 ^ 64

theorem u64_of_lt {n : ℕ} (h : n < 2 ^ 64) : u64 n = n := Nat.mod_eq_of_lt h

theorem u64_lt (n : ℕ) : u64 n < 2 ^ 64 := Nat.mod_lt _ (by decide)

/-- `a - b` on `unsigned long`. -/
def subU64 (a b : ℕ) : ℕ := u64 (a + 2 ^ 64 - b)

theorem subU64_of_le {a b : ℕ} (h : b ≤ a) (ha : a < 2 ^ 64) : subU64 a b = a - b := by
  unfold subU64 u64
  omega

/-- The cast `(int)x` of an `unsigned long`: the low 32 bits, read as two's complement. -/
def toInt32 (n : ℕ) : ℤ := Int.bmod n (2 ^ 32)

/-- The low bits of a value survive the cast to `int`. -/
theorem toInt32_emod (n : ℕ) : toInt32 n % 256 = (n % 256 : ℕ) := by
  unfold toInt32
  have h := Int.emod_emod_of_dvd (Int.bmod n (2 ^ 32))
    (show (256 : ℤ) ∣ ((2 ^ 32 : ℕ) : ℤ) by decide)
  rw [Int.bmod_emod] at h
  rw [← h, Int.emod_emod_of_dvd _ (by decide)]
  push_cast
  rfl

theorem toInt32_emod_word (n : ℕ) : toInt32 n % 2 ^ 32 = (n % 2 ^ 32 : ℕ) := by
  have h : Int.bmod n (2 ^ 32) % ((2 ^ 32 : ℕ) : ℤ) = (n : ℤ) % ((2 ^ 32 : ℕ) : ℤ) :=
    Int.bmod_emod
  unfold toInt32
  push_cast at h ⊢
  exact h

/-- The value of a C expression of type `int`, in two's complement. -/
def i32 (x : ℤ) : ℤ := Int.bmod x (2 ^ 32)

theorem i32_of_mem {x : ℤ} (h1 : -2 ^ 31 ≤ x) (h2 : x < 2 ^ 31) : i32 x = x := by
  unfold i32
  rw [Int.bmod_eq_of_le (by norm_num; omega) (by norm_num; omega)]

theorem i32_natCast {n : ℕ} (h : n < 2 ^ 31) : i32 n = n := i32_of_mem (by omega) (by omega)

/-- `p + i`, where `p` points to values of `size` bytes. -/
def ptrAdd (p : ℕ) (i : ℤ) (size : ℕ) : ℕ := ((p + i * size) % 2 ^ 64).toNat

theorem ptrAdd_natCast {p i size : ℕ} (h : p + i * size < 2 ^ 64) :
    ptrAdd p i size = p + i * size := by
  have hcast : (p : ℤ) + i * size = (p + i * size : ℕ) := by rw [Nat.cast_add, Nat.cast_mul]
  have hlt : ((p + i * size : ℕ) : ℤ) < 2 ^ 64 := by exact_mod_cast h
  rw [ptrAdd, hcast, Int.emod_eq_of_lt (Int.natCast_nonneg _) hlt, Int.toNat_natCast]

/-- `PAGE_SIZE`. -/
def pageSize : ℕ := 4096

/-- `x & ~(PAGE_SIZE - 1)`: clear the low twelve bits. -/
def pageDown (x : ℕ) : ℕ := x / pageSize * pageSize

/-- `(x + PAGE_SIZE - 1) & ~(PAGE_SIZE - 1)` on `unsigned long`. -/
def pageUp (x : ℕ) : ℕ := pageDown (u64 (x + pageSize - 1))

theorem dvd_pageDown (x : ℕ) : pageSize ∣ pageDown x := Nat.dvd_mul_left _ _

theorem pageDown_le (x : ℕ) : pageDown x ≤ x := Nat.div_mul_le_self _ _

theorem lt_pageDown_add (x : ℕ) : x < pageDown x + pageSize := Nat.lt_div_mul_add (by decide)

theorem pageDown_of_dvd {x : ℕ} (h : pageSize ∣ x) : pageDown x = x := Nat.div_mul_cancel h

theorem dvd_pageUp (x : ℕ) : pageSize ∣ pageUp x := dvd_pageDown _

/-- Rounding up, where it does not wrap. -/
theorem pageUp_of_lt {x : ℕ} (h : x + pageSize - 1 < 2 ^ 64) :
    pageUp x = pageDown (x + pageSize - 1) := congrArg pageDown (u64_of_lt h)

theorem le_pageDown_add (x : ℕ) : x ≤ pageDown (x + pageSize - 1) := by
  have h := lt_pageDown_add (x + pageSize - 1)
  unfold pageSize at h ⊢
  omega

/-- An aligned address is its own page. -/
theorem pageUp_of_dvd {x : ℕ} (hd : pageSize ∣ x) (h : x < 2 ^ 64) : pageUp x = x := by
  obtain ⟨m, rfl⟩ := hd
  have hlt : pageSize * m + pageSize - 1 < 2 ^ 64 := by
    unfold pageSize at h ⊢
    omega
  rw [pageUp_of_lt hlt]
  unfold pageDown pageSize
  omega

end OscKernel
