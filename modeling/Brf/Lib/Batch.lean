import Mathlib.Data.List.Sort
import Mathlib.Data.List.TakeWhile
import Mathlib.Data.Nat.Notation

/-! # Batches of a sorted list

A list sorted by a number is cut behind one of its positions and behind all entries with the
same number, so that a bound on the number tells the two parts apart. -/

namespace Brf.Lib.Batch

open List

variable {α : Type*}

/-- The position behind `i` and behind the entries that follow with the number `m`. -/
def cutPos (f : α → ℕ) (m i : ℕ) (l : List α) : ℕ :=
  i + 1 + ((l.drop (i + 1)).takeWhile fun a => f a = m).length

variable {f : α → ℕ} {m : ℕ} {a b : List α}

theorem filter_append_eq_left (ha : ∀ x ∈ a, f x ≤ m)
    (hb : ∀ x ∈ b, m < f x) : (a ++ b).filter (fun x => f x ≤ m) = a := by
  rw [filter_append, filter_eq_self.mpr (by simpa using ha),
    filter_eq_nil_iff.mpr (by simpa using hb), append_nil]

theorem filter_append_eq_right (ha : ∀ x ∈ a, f x ≤ m)
    (hb : ∀ x ∈ b, m < f x) : (a ++ b).filter (fun x => m < f x) = b := by
  rw [filter_append, filter_eq_nil_iff.mpr (by simpa using ha),
    filter_eq_self.mpr (by simpa using hb), nil_append]

variable {l : List α}

/-- Behind the entries with the number `m`, a sorted list has larger numbers. -/
theorem lt_of_mem_dropWhile (hs : l.Pairwise fun a b => f a ≤ f b)
    (hm : ∀ x ∈ l, m ≤ f x) : ∀ x ∈ l.dropWhile (fun a => f a = m), m < f x := by
  induction l with
  | nil => simp
  | cons a l ih =>
    obtain ⟨ha, hs⟩ := pairwise_cons.mp hs
    have hle : m ≤ f a := hm a mem_cons_self
    by_cases heq : f a = m
    · rw [dropWhile_cons_of_pos (by simpa using heq)]
      exact ih hs fun x hx => hm x (mem_cons_of_mem _ hx)
    · rw [dropWhile_cons_of_neg (by simpa using heq)]
      intro x hx
      obtain rfl | hx := mem_cons.mp hx
      · omega
      · have := ha x hx
        omega

theorem drop_length_takeWhile (p : α → Bool) (l : List α) :
    l.drop (l.takeWhile p).length = l.dropWhile p := by
  have h : (l.takeWhile p ++ l.dropWhile p).drop (l.takeWhile p).length = l.dropWhile p :=
    drop_left
  rwa [takeWhile_append_dropWhile] at h

theorem take_length_takeWhile (p : α → Bool) (l : List α) :
    l.take (l.takeWhile p).length = l.takeWhile p := by
  have h : (l.takeWhile p ++ l.dropWhile p).take (l.takeWhile p).length = l.takeWhile p :=
    take_left
  rwa [takeWhile_append_dropWhile] at h

/-- The cut separates the numbers up to that of the entry at `i` from the larger ones. -/
theorem cutPos_spec (hs : l.Pairwise fun a b => f a ≤ f b) {i : ℕ} {x : α}
    (hx : l[i]? = some x) : (∀ y ∈ l.take (cutPos f (f x) i l), f y ≤ f x) ∧
    ∀ y ∈ l.drop (cutPos f (f x) i l), f x < f y := by
  obtain ⟨hi, hget⟩ := List.getElem?_eq_some_iff.mp hx
  have hsplit : l = l.take i ++ x :: l.drop (i + 1) := by
    rw [← hget, getElem_cons_drop, take_append_drop]
  have hpair := hs
  rw [hsplit, pairwise_append, pairwise_cons] at hpair
  obtain ⟨-, ⟨hafter, hrest⟩, hbefore⟩ := hpair
  have hdrop : l.drop (cutPos f (f x) i l) =
      (l.drop (i + 1)).dropWhile fun a => f a = f x := by
    rw [cutPos, ← drop_drop, drop_length_takeWhile]
  have htake : l.take (cutPos f (f x) i l) =
      l.take (i + 1) ++ (l.drop (i + 1)).takeWhile fun a => f a = f x := by
    rw [cutPos, take_add, take_length_takeWhile]
  constructor
  · intro y hy
    rw [htake, mem_append] at hy
    obtain hy | hy := hy
    · rw [take_succ_eq_append_getElem hi, hget, mem_append, mem_singleton] at hy
      obtain hy | rfl := hy
      · exact hbefore y hy x mem_cons_self
      · exact Nat.le_refl _
    · have heq := mem_takeWhile_imp hy
      exact Nat.le_of_eq (by simpa using heq)
  · rw [hdrop]
    exact lt_of_mem_dropWhile hrest hafter

end Brf.Lib.Batch
