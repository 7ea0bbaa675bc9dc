import Brf.Lib.Numerals
import Brf.Model.StructOps

/-! # Names of generated locals

Locals are named by a tag and the shared counter. Since a counter prints as digits only, a
name determines both, so names drawn from disjoint counter ranges never collide. -/

namespace Brf.StructOps

open Brf.Lib List

/-- The tags of generated names: `sN`, `sfN` and `itN`. -/
inductive NameTag where
  | scalar | subflow | iter
deriving DecidableEq

def localName : NameTag → ℕ → String
  | .scalar, i => localVar i
  | .subflow, i => subflowVar i
  | .iter, i => iterVar i

private theorem digits_ne_cons {n : ℕ} {c : Char} {cs : List Char} (hc : c.isDigit = false) :
    (toString n).toList ≠ c :: cs := by
  intro h
  have hd : c.isDigit := isDigit_of_mem_toString (n := n) (h ▸ mem_cons_self)
  simp [hc] at hd

theorem localName_inj {t u : NameTag} {i j : ℕ} (h : localName t i = localName u j) :
    t = u ∧ i = j := by
  have hl := congrArg String.toList h
  cases t <;> cases u <;>
    simp only [localName, localVar, subflowVar, iterVar, String.toList_append] at hl
  · exact ⟨rfl, toString_toList_inj (append_cancel_left hl)⟩
  · exact absurd (tail_eq_of_cons_eq hl) (digits_ne_cons (by decide))
  · exact absurd (head_eq_of_cons_eq hl) (by decide)
  · exact absurd (tail_eq_of_cons_eq hl).symm (digits_ne_cons (by decide))
  · exact ⟨rfl, toString_toList_inj (append_cancel_left hl)⟩
  · exact absurd (head_eq_of_cons_eq hl) (by decide)
  · exact absurd (head_eq_of_cons_eq hl) (by decide)
  · exact absurd (head_eq_of_cons_eq hl) (by decide)
  · exact ⟨rfl, toString_toList_inj (append_cancel_left hl)⟩

theorem ne_dash_of_mem_localName {t : NameTag} {n : ℕ} :
    ∀ c ∈ (localName t n).toList, decide (c ≠ '-') := by
  intro c hc
  cases t <;>
    rcases mem_append.mp (String.toList_append ▸ hc) with hc | hc
  all_goals first
    | exact (all_eq_true (p := fun c => decide (c ≠ '-'))).mp (by decide) c hc
    | rw [decide_eq_true_eq]
      rintro rfl
      exact absurd (isDigit_of_mem_toString hc) (by decide)

/-! ### Name lists drawn from a counter range -/

/-- Pairwise distinct generated names whose counters lie in `[lo, hi)`. -/
structure FreshNames (lo hi : ℕ) (names : List String) : Prop where
  nodup : names.Nodup
  range : ∀ x ∈ names, ∃ t i, x = localName t i ∧ lo ≤ i ∧ i < hi

theorem FreshNames.nil (n : ℕ) : FreshNames n n [] :=
  ⟨nodup_nil, by simp⟩

theorem FreshNames.localVar (n : ℕ) : FreshNames n (n + 1) [localVar n] := by
  refine ⟨by simp, ?_⟩
  intro x hx
  exact ⟨.scalar, n, mem_singleton.mp hx, le_rfl, Nat.lt_succ_self n⟩

/-- One counter value names both the iterator and its loop variable. -/
theorem FreshNames.iterPair (n : ℕ) : FreshNames n (n + 1) [subflowVar n, iterVar n] := by
  refine ⟨?_, ?_⟩
  · have hne : subflowVar n ≠ iterVar n := by
      intro h
      have := localName_inj (t := .subflow) (u := .iter) h
      simp at this
    simp [hne]
  · intro x hx
    simp only [mem_cons, not_mem_nil, or_false] at hx
    rcases hx with rfl | rfl
    · exact ⟨.subflow, n, rfl, le_rfl, Nat.lt_succ_self n⟩
    · exact ⟨.iter, n, rfl, le_rfl, Nat.lt_succ_self n⟩

variable {xs ys : List String}

theorem FreshNames.sublist {lo hi : ℕ} (h : FreshNames lo hi ys)
    (hs : xs.Sublist ys) : FreshNames lo hi xs :=
  ⟨h.nodup.sublist hs, fun x hx => h.range x (hs.subset hx)⟩

theorem FreshNames.append {a b c : ℕ} (hab : a ≤ b) (hbc : b ≤ c)
    (hx : FreshNames a b xs) (hy : FreshNames b c ys) : FreshNames a c (xs ++ ys) := by
  refine ⟨?_, ?_⟩
  · rw [nodup_append]
    refine ⟨hx.nodup, hy.nodup, ?_⟩
    intro x hxs y hys hxy
    obtain ⟨t, i, rfl, hi⟩ := hx.range x hxs
    obtain ⟨u, j, rfl, hj⟩ := hy.range y hys
    have := (localName_inj hxy).2
    omega
  · intro x hmem
    rcases mem_append.mp hmem with h | h
    · obtain ⟨t, i, he, hi⟩ := hx.range x h
      exact ⟨t, i, he, by omega, by omega⟩
    · obtain ⟨t, i, he, hi⟩ := hy.range x h
      exact ⟨t, i, he, by omega, by omega⟩

end Brf.StructOps
