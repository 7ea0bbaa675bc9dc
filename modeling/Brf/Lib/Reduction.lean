import Mathlib.Data.Nat.Notation
import Mathlib.Logic.Relation

/-! # Ranked relations

A relation whose edges raise a rank has no cycles. An edge of it may be dropped if it is a
shortcut, that is, if its end is also reached through another edge. -/

namespace Brf.Lib

open Relation

variable {α : Type*}

/-- Every edge raises the rank. -/
def Ranked (rank : α → ℕ) (r : α → α → Prop) : Prop :=
  ∀ a b, r a b → rank a < rank b

namespace Ranked

variable {rank : α → ℕ} {r r' : α → α → Prop} {s a b : α}

theorem lt_of_transGen (h : Ranked rank r) (hab : TransGen r a b) : rank a < rank b := by
  induction hab with
  | single hedge => exact h _ _ hedge
  | tail _ hedge ih => exact Nat.lt_trans ih (h _ _ hedge)

theorem acyclic (h : Ranked rank r) (a : α) : ¬ TransGen r a a := by
  intro hcycle
  exact Nat.lt_irrefl _ (h.lt_of_transGen hcycle)

/-- A path that starts above `s` does not use the edges of `s`. -/
theorem transGen_above (h : Ranked rank r) (hother : ∀ a, a ≠ s → ∀ b, r' a b ↔ r a b)
    (hlt : rank s < rank a) (hab : TransGen r a b) : TransGen r' a b := by
  induction hab with
  | single hedge => exact .single ((hother a (by rintro rfl; omega) _).mpr hedge)
  | tail hpath hedge ih =>
    have hrank := h.lt_of_transGen hpath
    exact ih.tail ((hother _ (by rintro rfl; omega) _).mpr hedge)

/-- Dropping all shortcuts of `s` at once leaves everything reachable. -/
theorem transGen_reduce (h : Ranked rank r) (hother : ∀ a, a ≠ s → ∀ b, r' a b ↔ r a b)
    (hs : ∀ q, r' s q ↔ r s q ∧ ∀ p, r s p → ¬ TransGen r p q) (a b : α) :
    TransGen r' a b ↔ TransGen r a b := by
  -- by induction on the rank of its end, a shortcut is replaced by the way around
  have hfrom : ∀ q, r s q → TransGen r' s q := by
    intro q hq
    induction hn : rank q using Nat.strongRecOn generalizing q with
    | ind n ih =>
      by_cases hshort : ∃ p, r s p ∧ TransGen r p q
      · obtain ⟨p, hp, hpq⟩ := hshort
        exact (ih _ (hn ▸ h.lt_of_transGen hpq) p hp rfl).trans
          (h.transGen_above hother (h _ _ hp) hpq)
      · exact .single ((hs q).mpr ⟨hq, fun p hp hpq => hshort ⟨p, hp, hpq⟩⟩)
  constructor
  · refine TransGen.mono (fun a b hedge => ?_) a b
    by_cases ha : a = s
    · exact ha ▸ ((hs b).mp (ha ▸ hedge)).1
    · exact (hother a ha b).mp hedge
  · refine TransGen.closed (fun a b hedge => ?_) a b
    by_cases ha : a = s
    · exact ha ▸ hfrom b (ha ▸ hedge)
    · exact .single ((hother a ha b).mpr hedge)

end Ranked

end Brf.Lib
