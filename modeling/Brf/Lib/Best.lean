import Brf.Lib.Dict
import Mathlib.Order.WithBot

/-! # Loops that keep the best entry of every key

Entries are offered to a dictionary one after the other, and one that scores higher than the
entry under its key takes its place. What counts in the end is the rank of a key: the best
score it was offered with. -/

namespace Brf.Lib.Best

variable {κ ν π : Type*} [DecidableEq κ] (score : ν → π) {m : Dict κ ν} {k : κ} {v : ν}

/-- The score under a key; a key without an entry is below all the others. -/
def rank (m : Dict κ ν) (k : κ) : WithBot π :=
  match m.lookup k with
  | none => ⊥
  | some v => score v

variable {score}

@[simp] theorem rank_empty (k : κ) : rank score (∅ : Dict κ ν) k = ⊥ := rfl

theorem rank_of_lookup (h : m.lookup k = some v) : rank score m k = score v := by
  rw [rank, h]

theorem rank_of_lookup_none (h : m.lookup k = none) : rank score m k = ⊥ := by
  rw [rank, h]

theorem rank_congr {m' : Dict κ ν} (h : m.lookup k = m'.lookup k) :
    rank score m k = rank score m' k := by
  rw [rank, rank, h]

variable [LinearOrder π] (score)

def offer (m : Dict κ ν) (k : κ) (v : ν) : Dict κ ν :=
  match m.lookup k with
  | none => m.insert k v
  | some u => if score u < score v then m.insert k v else m

def offerAll (m : Dict κ ν) (l : List (κ × ν)) : Dict κ ν :=
  l.foldl (fun m e => offer score m e.1 e.2) m

/-- The best score with which a list offers a key. -/
def best : List (κ × ν) → κ → WithBot π
  | [], _ => ⊥
  | e :: l, k => if e.1 = k then score e.2 ⊔ best l k else best l k

variable {score}

theorem coe_le_rank {p : π} :
    (p : WithBot π) ≤ rank score m k ↔ ∃ v, m.lookup k = some v ∧ p ≤ score v := by
  rw [rank]
  cases m.lookup k with
  | none | some => simp

theorem rank_offer (m : Dict κ ν) (k a : κ) (v : ν) : rank score (offer score m k v) a = if k =
    a then (score v : WithBot π) ⊔ rank score m a else rank score m a := by
  rw [offer]
  by_cases ha : k = a
  · subst a
    rw [if_pos rfl]
    cases hk : m.lookup k with
    | none =>
      rw [rank_of_lookup (AList.lookup_insert m), rank_of_lookup_none hk, max_bot_right]
    | some u =>
      rw [rank_of_lookup hk]
      dsimp only
      split
      · rename_i hlt
        rw [rank_of_lookup (AList.lookup_insert m)]
        exact (max_eq_left (WithBot.coe_le_coe.mpr hlt.le)).symm
      · rename_i hle
        rw [rank_of_lookup hk]
        exact (max_eq_right (WithBot.coe_le_coe.mpr (not_lt.mp hle))).symm
  · rw [if_neg ha]
    have hne : (m.insert k v).lookup a = m.lookup a := AList.lookup_insert_ne (Ne.symm ha)
    cases m.lookup k with
    | none => exact rank_congr hne
    | some u =>
      dsimp only
      split
      · exact rank_congr hne
      · rfl

theorem rank_offerAll (m : Dict κ ν) (l : List (κ × ν)) (a : κ) :
    rank score (offerAll score m l) a = best score l a ⊔ rank score m a := by
  induction l generalizing m with
  | nil => simp [offerAll, best]
  | cons e l ih =>
    rw [offerAll, List.foldl_cons, ← offerAll, ih, rank_offer, best]
    split
    · rw [max_left_comm, max_assoc]
    · rfl

variable {l : List (κ × ν)} {a : κ}

/-- An entry is in the dictionary because it was there or because it was offered. -/
theorem lookup_offerAll
    (h : (offerAll score m l).lookup a = some v) : m.lookup a = some v ∨ (a, v) ∈ l := by
  induction l generalizing m with
  | nil => exact .inl h
  | cons e l ih =>
    rcases ih (m := offer score m e.1 e.2) h with h | h
    · have hins : (m.insert e.1 e.2).lookup a = some v → m.lookup a = some v ∨ (a, v) ∈ e :: l := by
        rw [Dict.lookup_insert_ite]
        split
        · rename_i ha
          rintro ⟨⟩
          exact .inr (by simp [ha])
        · exact .inl
      rw [offer] at h
      split at h
      · exact hins h
      · split at h
        · exact hins h
        · exact .inl h
    · exact .inr (List.mem_cons_of_mem e h)

theorem best_le_iff {b : WithBot π} :
    best score l a ≤ b ↔ ∀ v, (a, v) ∈ l → (score v : WithBot π) ≤ b := by
  induction l with
  | nil => simp [best]
  | cons e l ih =>
    obtain ⟨k, u⟩ := e
    rw [best]
    split
    · rename_i hk
      obtain rfl : k = a := hk
      simp [ih, or_imp, forall_and]
    · rename_i hk
      have hk' : a ≠ k := Ne.symm hk
      simp [ih, hk']

theorem le_best (h : (a, v) ∈ l) : (score v : WithBot π) ≤ best score l a :=
  best_le_iff.mp le_rfl v h

/-- Offering all entries of a dictionary raises every key to its rank there. -/
theorem best_toPairs (m : Dict κ ν) (a : κ) : best score m.toPairs a = rank score m a := by
  apply le_antisymm
  · refine best_le_iff.mpr fun v hv => ?_
    rw [rank_of_lookup (Dict.mem_toPairs.mp hv)]
  · rw [rank]
    cases h : m.lookup a with
    | none => exact bot_le
    | some v => exact le_best (Dict.mem_toPairs.mpr h)

end Brf.Lib.Best
