import Mathlib.Data.Nat.Bitwise
import Mathlib.Algebra.Order.Ring.Nat

/-! # Sequential placement

Items are placed one after another, each at a start that depends on where the one before ends. -/

namespace Brf.Lib

open List Nat

/-- The first multiple of `a` from `n` on. -/
def alignUp (n a : ℕ) : ℕ :=
  (n + (a - 1)) / a * a

variable {n m a : ℕ}

theorem dvd_alignUp (n a : ℕ) : a ∣ alignUp n a :=
  dvd_mul_left a _

theorem le_alignUp (ha : 0 < a) : n ≤ alignUp n a := by
  have h := div_add_mod (n + (a - 1)) a
  have hlt := mod_lt (n + (a - 1)) ha
  rw [alignUp, mul_comm]
  omega

theorem alignUp_lt (ha : 0 < a) : alignUp n a < n + a := by
  have h := div_mul_le_self (n + (a - 1)) a
  rw [alignUp]
  omega

theorem alignUp_le (n a : ℕ) : alignUp n a ≤ n + a := by
  rcases Nat.eq_zero_or_pos a with rfl | ha
  · simp [alignUp]
  · exact (alignUp_lt ha).le

/-- A multiple of `a` that is less than `a` above `n` is the first one. -/
theorem alignUp_eq (hdvd : a ∣ m) (hle : n ≤ m) (hlt : m < n + a) : alignUp n a = m := by
  obtain ⟨k, rfl⟩ := hdvd
  have hk : (n + (a - 1)) / a = k := by
    refine Nat.div_eq_of_lt_le ?_ ?_
    · rw [Nat.mul_comm k a]
      omega
    · rw [add_mul, mul_comm k a]
      omega
  rw [alignUp, hk, mul_comm]

theorem alignUp_of_dvd (h : a ∣ n) (ha : 0 < a) : alignUp n a = n :=
  alignUp_eq h (le_refl n) (by omega)

/-- Alignment does not depend on the multiples in front. -/
theorem alignUp_add (ha : 0 < a) (k : ℕ) : alignUp (n + a * k) a = alignUp n a + a * k := by
  refine alignUp_eq ?_ ?_ ?_
  · exact Nat.dvd_add (dvd_alignUp n a) (Nat.dvd_mul_right a k)
  · have h := le_alignUp (n := n) ha
    omega
  · have h := alignUp_lt (n := n) ha
    omega

/-- Aligning bytes is aligning their bits. -/
theorem alignUp_mul (n a b : ℕ) (hb : 0 < b) (ha : 0 < a) :
    alignUp n (b * a) = b * alignUp (alignUp n b / b) a := by
  refine alignUp_eq ?_ ?_ ?_
  · exact mul_dvd_mul_left b (dvd_alignUp _ a)
  · have hle : alignUp n b ≤ b * alignUp (alignUp n b / b) a := by
      conv_lhs => rw [← Nat.mul_div_cancel' (dvd_alignUp n b)]
      exact mul_le_mul_left b (le_alignUp ha)
    exact (le_alignUp hb).trans hle
  · have hup := alignUp_lt (n := alignUp n b / b) ha
    have hstep : b * (alignUp (alignUp n b / b) a + 1) ≤ b * (alignUp n b / b + a) :=
      mul_le_mul_left b hup
    rw [Nat.mul_add, Nat.mul_add, Nat.mul_div_cancel' (dvd_alignUp n b)] at hstep
    have hn := alignUp_lt (n := n) hb
    omega

/-- Masking the low bits away rounds down to a multiple of a power of two. -/
theorem and_mask {v w k : ℕ} (hv : v < 2 ^ w) (hk : k ≤ w) :
    v &&& (2 ^ w - 2 ^ k) = v / 2 ^ k * 2 ^ k := by
  refine eq_of_testBit_eq fun i => ?_
  have hmask : (2 ^ w - 2 ^ k).testBit i = (decide (k ≤ i) && decide (i < w)) := by
    have hsplit : 2 ^ w - 2 ^ k = 2 ^ k * (2 ^ (w - k) - 1) := by
      rw [Nat.mul_sub, Nat.mul_one, ← Nat.pow_add, Nat.add_sub_cancel' hk]
    rw [hsplit, testBit_two_pow_mul, testBit_two_pow_sub_one]
    by_cases hki : k ≤ i
    · simp only [hki, decide_true, Bool.true_and, decide_eq_decide]
      omega
    · simp [hki]
  rw [testBit_and, hmask, mul_comm, testBit_two_pow_mul, testBit_div_two_pow]
  by_cases hki : k ≤ i
  · by_cases hiw : i < w
    · simp [hki, hiw]
    · have hbit : v.testBit i = false :=
        Nat.testBit_lt_two_pow (hv.trans_le (Nat.pow_le_pow_right (by omega) (by omega)))
      simp [hki, hbit]
  · simp [hki]

section Place

variable {ι : Type*} (start : ℕ → ι → ℕ) (width : ι → ℕ)

/-- The start and the end of each item. -/
def place : ℕ → List ι → List (ℕ × ℕ)
  | _, [] => []
  | n, x :: xs => (start n x, start n x + width x) :: place (start n x + width x) xs

/-- Where the last item ends. -/
def finish : ℕ → List ι → ℕ
  | n, [] => n
  | n, x :: xs => finish (start n x + width x) xs

variable {start width}

theorem finish_concat (n : ℕ) (xs : List ι) (x : ι) : finish start width n (xs ++ [x]) =
    start (finish start width n xs) x + width x := by
  induction xs generalizing n with
  | nil => rfl
  | cons y xs ih => exact ih _

theorem place_concat (n : ℕ) (xs : List ι) (x : ι) :
    place start width n (xs ++ [x]) = place start width n xs ++
      [(start (finish start width n xs) x, start (finish start width n xs) x + width x)] := by
  induction xs generalizing n with
  | nil => rfl
  | cons y xs ih => exact congrArg (List.cons _) (ih _)

variable {xs : List ι} {n : ℕ}

theorem le_finish (h : ∀ x ∈ xs, ∀ n, n ≤ start n x) : n ≤ finish start width n xs := by
  induction xs generalizing n with
  | nil => exact le_refl n
  | cons x xs ih =>
    have hx := h x mem_cons_self n
    have hxs := ih (n := start n x + width x) fun y hy => h y (mem_cons_of_mem _ hy)
    rw [finish]
    omega

theorem of_mem_place {r : ℕ × ℕ} (h : ∀ x ∈ xs, ∀ n, n ≤ start n x)
    (hr : r ∈ place start width n xs) : n ≤ r.1 ∧ r.2 ≤ finish start width n xs := by
  induction xs generalizing n with
  | nil => cases hr
  | cons x xs ih =>
    have hx := h x mem_cons_self n
    have hxs : ∀ y ∈ xs, ∀ n, n ≤ start n y := fun y hy => h y (mem_cons_of_mem _ hy)
    rcases mem_cons.mp hr with rfl | hr
    · exact ⟨hx, le_finish hxs⟩
    · obtain ⟨hlo, hhi⟩ := ih hxs hr
      exact ⟨by omega, hhi⟩

/-- The items do not overlap. -/
theorem pairwise_place (h : ∀ x ∈ xs, ∀ n, n ≤ start n x) :
    (place start width n xs).Pairwise fun r s => r.2 ≤ s.1 := by
  induction xs generalizing n with
  | nil => exact .nil
  | cons x xs ih =>
    have hxs : ∀ y ∈ xs, ∀ n, n ≤ start n y := fun y hy => h y (mem_cons_of_mem _ hy)
    refine .cons ?_ (ih hxs)
    intro r hr
    exact (of_mem_place hxs hr).1

/-! ### Placement without gaps -/

variable (start width) in
/-- Every item starts where the one before ends. -/
def Tight : ℕ → List ι → Prop
  | _, [] => True
  | n, x :: xs => start n x = n ∧ Tight (n + width x) xs

theorem tight_append {xs ys : List ι} : Tight start width n (xs ++ ys) ↔
    Tight start width n xs ∧ Tight start width (n + (xs.map width).sum) ys := by
  induction xs generalizing n with
  | nil => simp [Tight]
  | cons x xs ih =>
    rw [cons_append, Tight, ih, Tight, and_assoc, map_cons, sum_cons, add_assoc]

/-- Without gaps, and only then, an item starts behind the widths of the items before it. -/
theorem tight_iff :
    Tight start width n xs ↔ ∀ i < xs.length,
      ((place start width n xs)[i]?).map Prod.fst = some (n + ((xs.take i).map width).sum) := by
  induction xs generalizing n with
  | nil => simp [Tight]
  | cons x xs ih =>
    rw [Tight, ih]
    constructor
    · rintro ⟨hx, hxs⟩ i hi
      cases i with
      | zero => simp [place, hx]
      | succ i =>
        have h := hxs i (by simpa using hi)
        simpa [place, hx, add_assoc] using h
    · intro h
      have hx : start n x = n := by simpa [place] using h 0 (by simp)
      refine ⟨hx, fun i hi => ?_⟩
      have hsucc := h (i + 1) (by simpa using hi)
      simpa [place, hx, add_assoc] using hsucc

end Place

end Brf.Lib
