import Mathlib.Data.Nat.Digits.Defs
import Mathlib.Data.Nat.Notation

/-! # Numerals

Numbers as they are printed into names: all digits, and different for different numbers. -/

namespace Brf.Lib

theorem isDigit_of_mem_toString {c : Char} {n : ℕ} (h : c ∈ (toString n).toList) : c.isDigit := by
  have hc : c ∈ Nat.toDigits 10 n := by simpa using h
  exact Nat.isDigit_of_mem_toDigits (by decide) (by decide) hc

theorem toString_toList_inj {i j : ℕ} (h : (toString i).toList = (toString j).toList) : i = j := by
  have hd : Nat.toDigits 10 i = Nat.toDigits 10 j := by simpa using h
  simpa using congrArg (Nat.ofDigitChars 10 · 0) hd

end Brf.Lib
