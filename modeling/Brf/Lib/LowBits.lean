import Mathlib.Data.Nat.Bitwise
import Mathlib.Data.Nat.Notation

/-! # Low bits of words

Masks of 64-bit words in terms of quotients and remainders by powers of two. -/

namespace Brf.Lib

/-- The word whose `n` low bits are set. -/
def lowMask (n : ℕ) : UInt64 := UInt64.ofNat (2 ^ n - 1)

variable {n : ℕ}

theorem toNat_lowMask (hn : n ≤ 64) : (lowMask n).toNat = 2 ^ n - 1 := by
  have hle : 2 ^ n ≤ 2 ^ 64 := Nat.pow_le_pow_right (by decide) hn
  rw [lowMask, UInt64.toNat_ofNat', Nat.mod_eq_of_lt (by omega)]

theorem toNat_and_lowMask (hn : n ≤ 64) (x : UInt64) :
    (x &&& lowMask n).toNat = x.toNat % 2 ^ n := by
  rw [UInt64.toNat_and, toNat_lowMask hn, Nat.and_two_pow_sub_one_eq_mod]

theorem testBit_toNat_not (x : UInt64) (i : ℕ) :
    (~~~x).toNat.testBit i = (decide (i < 64) && !x.toNat.testBit i) := by
  rw [UInt64.toNat_not]
  rw [Nat.sub_right_comm, Nat.sub_sub, Nat.testBit_two_pow_sub_succ x.toNat_lt]

theorem toNat_and_not_lowMask (hn : n ≤ 64) (x : UInt64) :
    (x &&& ~~~lowMask n).toNat = x.toNat / 2 ^ n * 2 ^ n := by
  refine Nat.eq_of_testBit_eq fun i => ?_
  rw [UInt64.toNat_and, Nat.testBit_and, testBit_toNat_not, toNat_lowMask hn,
    Nat.testBit_two_pow_sub_one, Nat.testBit_mul_two_pow, Nat.testBit_div_two_pow]
  by_cases hi : i < n
  · simp [hi]
  · have hle : n ≤ i := Nat.not_lt.mp hi
    have hsum : i - n + n = i := Nat.sub_add_cancel hle
    by_cases h64 : i < 64
    · simp [hi, hle, hsum, h64]
    · have hbit : x.toNat.testBit i = false :=
        Nat.testBit_lt_two_pow (x.toNat_lt.trans_le (Nat.pow_le_pow_right (by decide) (by omega)))
      simp [hle, hsum, hbit]

/-- Putting other bits in place of the low ones. -/
theorem toNat_and_not_lowMask_or (hn : n ≤ 64) (x : UInt64) {y : UInt64} (hy : y.toNat < 2 ^ n) :
    ((x &&& ~~~lowMask n) ||| y).toNat = x.toNat / 2 ^ n * 2 ^ n + y.toNat := by
  rw [UInt64.toNat_or, toNat_and_not_lowMask hn, Nat.mul_comm, Nat.two_pow_add_eq_or_of_lt hy]

/-- Setting all bits above the low ones. -/
theorem toNat_or_not_lowMask (hn : n ≤ 64) (x : UInt64) :
    (x ||| ~~~lowMask n).toNat = 2 ^ 64 - 2 ^ n + x.toNat % 2 ^ n := by
  have hmod : x.toNat % 2 ^ n < 2 ^ n := Nat.mod_lt _ (Nat.two_pow_pos n)
  have hhigh : 2 ^ 64 - 2 ^ n = 2 ^ n * (2 ^ (64 - n) - 1) := by
    rw [Nat.mul_sub, Nat.mul_one, ← Nat.pow_add, Nat.add_sub_cancel' hn]
  rw [hhigh]
  refine Nat.eq_of_testBit_eq fun i => ?_
  rw [Nat.two_pow_add_eq_or_of_lt hmod, UInt64.toNat_or, Nat.testBit_or, Nat.testBit_or,
    testBit_toNat_not, toNat_lowMask hn, Nat.testBit_two_pow_sub_one, Nat.testBit_mod_two_pow,
    Nat.mul_comm, Nat.testBit_mul_two_pow, Nat.testBit_two_pow_sub_one]
  by_cases hi : i < n
  · simp [hi]
  · have hle : n ≤ i := Nat.not_lt.mp hi
    by_cases h64 : i < 64
    · have hsub : i - n < 64 - n := by omega
      simp [hi, hle, h64, hsub]
    · have hbit : x.toNat.testBit i = false :=
        Nat.testBit_lt_two_pow (x.toNat_lt.trans_le (Nat.pow_le_pow_right (by decide) (by omega)))
      have hsub : ¬ i - n < 64 - n := by omega
      simp [hi, h64, hbit, hsub]

theorem and_twoPow_eq_zero {i : ℕ} (hi : i < 64) (x : UInt64) :
    x &&& UInt64.ofNat (2 ^ i) = 0 ↔ x.toNat.testBit i = false := by
  have hlt : 2 ^ i < 2 ^ 64 := Nat.pow_lt_pow_right (by decide) hi
  rw [← UInt64.toNat_inj, UInt64.toNat_and, UInt64.toNat_ofNat', Nat.mod_eq_of_lt hlt,
    Nat.and_two_pow]
  cases x.toNat.testBit i with
  | false | true => simp

end Brf.Lib
