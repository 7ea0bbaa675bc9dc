import Mathlib.Data.List.Basic
import Mathlib.Tactic.Common

/-! # Overwriting a part of a list

`overwrite` puts elements over those that are there, without making the list longer. Lists that
agree outside a window are those that writes into the window can turn into each other. -/

namespace Brf.Lib

open List

variable {α : Type*}

/-- `ys` written over `xs` from position `i` on; what does not fit is dropped. -/
def overwrite (xs : List α) (i : ℕ) (ys : List α) : List α :=
  xs.take i ++ (ys.take (xs.length - i) ++ xs.drop (i + ys.length))

@[simp] theorem length_overwrite (xs : List α) (i : ℕ) (ys : List α) :
    (overwrite xs i ys).length = xs.length := by
  simp only [overwrite, length_append, length_take, length_drop]
  omega

theorem getElem?_overwrite (xs : List α) (i : ℕ) (ys : List α) (j : ℕ) : (overwrite xs i ys)[j]? =
    if i ≤ j ∧ j < i + ys.length ∧ j < xs.length then ys[j - i]? else xs[j]? := by
  unfold overwrite
  grind

/-- The lists have the same length and differ at most in the `n` elements from `i` on. -/
structure AgreeOutside (i n : ℕ) (xs ys : List α) : Prop where
  length_eq : ys.length = xs.length
  outside : ∀ j, j < i ∨ i + n ≤ j → ys[j]? = xs[j]?

namespace AgreeOutside

variable {i n : ℕ} {xs ys zs : List α}

theorem refl (i n : ℕ) (xs : List α) : AgreeOutside i n xs xs := ⟨rfl, fun _ _ => rfl⟩

theorem trans (h : AgreeOutside i n xs ys) (h' : AgreeOutside i n ys zs) : AgreeOutside i n xs zs :=
  ⟨h'.length_eq.trans h.length_eq, fun j hj => (h'.outside j hj).trans (h.outside j hj)⟩

/-- A write into the window. -/
theorem overwrite (xs : List α) (i : ℕ) (h : ys.length ≤ n) :
    AgreeOutside i n xs (overwrite xs i ys) := by
  refine ⟨length_overwrite xs i ys, fun j hj => ?_⟩
  rw [getElem?_overwrite, if_neg (by omega)]

/-- Writing the old elements back undoes every change in the window. -/
theorem restore (h : AgreeOutside i n xs ys) {old : List α} (hlen : old.length = n)
    (hold : ∀ j < n, i + j < xs.length → old[j]? = xs[i + j]?) : Lib.overwrite ys i old = xs := by
  apply ext_getElem?
  intro j
  rw [getElem?_overwrite, hlen, h.length_eq]
  by_cases hj : i ≤ j ∧ j < i + n ∧ j < xs.length
  · rw [if_pos hj, hold (j - i) (by omega) (by omega), Nat.add_sub_cancel' hj.1]
  · rw [if_neg hj]
    by_cases hlt : j < xs.length
    · exact h.outside j (by omega)
    · have hys : ys.length ≤ j := by
        rw [h.length_eq]
        omega
      rw [getElem?_eq_none hys, getElem?_eq_none (by omega)]

end AgreeOutside

end Brf.Lib
