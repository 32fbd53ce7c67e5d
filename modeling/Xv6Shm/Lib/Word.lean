import Mathlib.Data.Nat.Bitwise
import Mathlib.Tactic.Ring

/-!
# Thirty-two bit machine words

Unsigned words are natural numbers below `2 ^ 32`, and an operation that can wrap reduces its
result. Signed words are integers, with the two conversions of a C compiler. The masks that clear or
keep a low field are related to division and remainder, so that address arithmetic becomes linear
arithmetic.
-/

namespace Xv6Shm.Word

/-- The number of values of an unsigned word. -/
def size : ℕ := 2 ^ 32

/-- Unsigned addition. -/
def add (a b : ℕ) : ℕ := (a + b) % size

/-- Unsigned subtraction. -/
def sub (a b : ℕ) : ℕ := (a + (size - b % size)) % size

/-- Conversion of a signed word to an unsigned one. -/
def ofInt (value : ℤ) : ℕ := (value % (size : ℤ)).toNat

/-- Conversion of an unsigned word to a signed one. -/
def toInt (word : ℕ) : ℤ := if word < 2 ^ 31 then word else word - size

theorem add_lt (a b : ℕ) : add a b < size := Nat.mod_lt _ (by decide)

theorem sub_lt (a b : ℕ) : sub a b < size := Nat.mod_lt _ (by decide)

variable {a b low : ℕ}

theorem add_eq (h : a + b < size) : add a b = a + b := Nat.mod_eq_of_lt h

theorem add_add (a b c : ℕ) : add (add a b) c = add a (b + c) := by
  rw [add, add, Nat.mod_add_mod, Nat.add_assoc]
  rfl

theorem add_of_le (ha : a < size) (hb : b < size) (h : a ≤ add a b) : add a b = a + b := by
  by_cases hsum : a + b < size
  · exact add_eq hsum
  · have hwrap : add a b = a + b - size := by
      rw [add, Nat.mod_eq_sub_mod (not_lt.mp hsum), Nat.mod_eq_of_lt (by omega)]
    omega

theorem sub_eq (hle : b ≤ a) (ha : a < size) : sub a b = a - b := by
  unfold sub size at *
  omega

theorem sub_add_one {n : ℕ} (h : n < size) : sub (add n 1) 1 = n := by
  unfold sub add size at *
  omega

theorem sub_one_ne (n : ℕ) : sub n 1 ≠ n := by
  unfold sub size
  omega

theorem ofInt_natCast {word : ℕ} (h : word < size) : ofInt (word : ℤ) = word := by
  unfold ofInt size at *
  omega

/-- The mask that keeps the bits from `low` up to the top of a word. -/
def highMask (low : ℕ) : ℕ := size - 2 ^ low

theorem highMask_testBit (hlow : low ≤ 32) (bit : ℕ) :
    (highMask low).testBit bit = (decide (low ≤ bit) && decide (bit < 32)) := by
  have hmask : highMask low = 2 ^ low * (2 ^ (32 - low) - 1) := by
    have hpow : 2 ^ low * 2 ^ (32 - low) = 2 ^ 32 := by
      rw [← pow_add, Nat.add_sub_cancel' hlow]
    rw [Nat.mul_sub, hpow, mul_one, highMask, size]
  rw [hmask, Nat.testBit_two_pow_mul, Nat.testBit_two_pow_sub_one]
  by_cases hbit : low ≤ bit
  · have hiff : bit - low < 32 - low ↔ bit < 32 := by omega
    simp only [hbit, decide_true, Bool.true_and, hiff]
  · simp only [hbit, decide_false, Bool.false_and]

/-- Masking with `highMask` rounds a word down to a multiple of `2 ^ low`. -/
theorem and_highMask {word : ℕ} (hlow : low ≤ 32) (hword : word < size) :
    word &&& highMask low = word / 2 ^ low * 2 ^ low := by
  apply Nat.eq_of_testBit_eq
  intro bit
  rw [Nat.testBit_and, highMask_testBit hlow, mul_comm, Nat.testBit_two_pow_mul,
    Nat.testBit_div_two_pow]
  by_cases hbit : low ≤ bit
  · rw [Nat.sub_add_cancel hbit]
    by_cases htop : bit < 32
    · simp [hbit, htop]
    · have hzero : word.testBit bit = false := by
        apply Nat.testBit_lt_two_pow
        calc word < 2 ^ 32 := hword
          _ ≤ 2 ^ bit := Nat.pow_le_pow_right (by decide) (by omega)
      simp [hzero]
  · simp [hbit]

/-- A field below `2 ^ low` placed under a multiple of `2 ^ low` is added to it. -/
theorem or_low_eq_add {high field : ℕ} (hhigh : high % 2 ^ low = 0) (hfield : field < 2 ^ low) :
    high ||| field = high + field := by
  obtain ⟨quotient, rfl⟩ := Nat.dvd_of_mod_eq_zero hhigh
  exact (Nat.two_pow_add_eq_or_of_lt hfield quotient).symm

end Xv6Shm.Word
