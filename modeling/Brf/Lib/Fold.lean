import Mathlib.Data.List.Basic
import Mathlib.Data.Nat.Notation

/-! # Invariants of folds

Rules for loops over a list whose invariant mentions the part already done. -/

namespace Brf.Lib

open List Option

variable {α β : Type*} {f : β → α → Option β} {l : List α} {b : β} (I : List α → β → Prop)

theorem foldlM_prefix (init : I [] b) (step : ∀ done a rest b, l = done ++ a :: rest → I done b →
      ∃ b', f b a = some b' ∧ I (done ++ [a]) b') :
    ∃ b', l.foldlM f b = some b' ∧ I l b' := by
  suffices h : ∀ done rest b, l = done ++ rest → I done b →
      ∃ b', rest.foldlM f b = some b' ∧ I l b' from h [] l b rfl init
  intro done rest
  induction rest generalizing done with
  | nil =>
    intro b hl hI
    obtain rfl : l = done := by simpa using hl
    exact ⟨b, rfl, hI⟩
  | cons a rest ih =>
    intro b hl hI
    obtain ⟨b1, hb1, hI1⟩ := step done a rest b hl hI
    obtain ⟨b2, hb2, hI2⟩ := ih (done ++ [a]) b1 (by simpa using hl) hI1
    exact ⟨b2, by simpa [hb1] using hb2, hI2⟩

theorem foldl_prefix {f : β → α → β} (init : I [] b)
    (step : ∀ done a rest b, l = done ++ a :: rest → I done b → I (done ++ [a]) (f b a)) :
    I l (l.foldl f b) := by
  obtain ⟨b', hb', hI⟩ := foldlM_prefix (f := fun b a => some (f b a)) I init
    fun done a rest b hl hI => ⟨_, rfl, step done a rest b hl hI⟩
  have hfold : l.foldlM (fun b a => some (f b a)) b = some (l.foldl f b) :=
    foldlM_pure (m := Option)
  rw [hfold] at hb'
  obtain rfl := some.inj hb'
  exact hI

/-- What every successful round preserves holds at the end. -/
theorem foldlM_preserves {P : β → Prop} {b' : β}
    (step : ∀ b, ∀ a ∈ l, ∀ b', P b → f b a = some b' → P b') (init : P b)
    (h : l.foldlM f b = some b') : P b' := by
  induction l generalizing b with
  | nil =>
    obtain rfl : b = b' := by simpa using h
    exact init
  | cons a l ih =>
    obtain ⟨b1, hb1, h⟩ := bind_eq_some_iff.mp h
    exact ih (fun b a ha => step b a (mem_cons_of_mem _ ha)) (step b a mem_cons_self b1 init hb1) h

/-- What every successful round carries on to one more element holds of the whole list. -/
theorem foldlM_carries {b' : β} (init : I [] b)
    (step : ∀ done a rest b b', l = done ++ a :: rest → I done b → f b a = some b' →
      I (done ++ [a]) b') (h : l.foldlM f b = some b') : I l b' := by
  suffices hrest : ∀ done rest b, l = done ++ rest → I done b → rest.foldlM f b = some b' → I l b' from
    hrest [] l b rfl init h
  intro done rest
  induction rest generalizing done with
  | nil =>
    intro b hl hI hrun
    obtain rfl : l = done := by simpa using hl
    obtain rfl : b = b' := by simpa using hrun
    exact hI
  | cons a rest ih =>
    intro b hl hI hrun
    obtain ⟨b1, hb1, hrun⟩ := bind_eq_some_iff.mp hrun
    exact ih (done ++ [a]) b1 (by simpa using hl) (step done a rest b b1 hl hI hb1) hrun

/-- A loop succeeds if every element lets its round succeed, whatever came before. -/
theorem foldlM_isSome_iff (ok : α → Prop) (h : ∀ b, ∀ a ∈ l, (f b a).isSome ↔ ok a) (b : β) :
    (l.foldlM f b).isSome ↔ ∀ a ∈ l, ok a := by
  induction l generalizing b with
  | nil => simp
  | cons a l ih =>
    have ha := h b a mem_cons_self
    rw [foldlM_cons, forall_mem_cons, ← ha]
    cases f b a with
    | none => simp
    | some b1 => simpa using ih (fun b a' ha' => h b a' (mem_cons_of_mem a ha')) b1

/-- The least bound of the numbers in a list, and of `n`. -/
def bound (n : ℕ) (l : List ℕ) : ℕ := l.foldl (fun n i => max n (i + 1)) n

theorem bound_append (n : ℕ) (l l' : List ℕ) : bound n (l ++ l') = bound (bound n l) l' :=
  foldl_append

theorem le_bound (n : ℕ) (l : List ℕ) : n ≤ bound n l := by
  induction l generalizing n with
  | nil => exact Nat.le_refl n
  | cons i l ih => exact Nat.le_trans (Nat.le_max_left n (i + 1)) (ih _)

theorem lt_bound {n i : ℕ} {l : List ℕ} (h : i ∈ l) : i < bound n l := by
  induction l generalizing n with
  | nil => simp at h
  | cons j l ih =>
    rcases mem_cons.mp h with rfl | h
    · exact Nat.lt_of_lt_of_le (Nat.le_max_right n (i + 1)) (le_bound _ l)
    · exact ih h

theorem bound_le {n k : ℕ} {l : List ℕ} (hn : n ≤ k) (h : ∀ i ∈ l, i < k) : bound n l ≤ k := by
  induction l generalizing n with
  | nil => exact hn
  | cons i l ih =>
    apply ih
    · exact Nat.max_le.mpr ⟨hn, h i mem_cons_self⟩
    · exact fun j hj => h j (mem_cons_of_mem i hj)

/-- Numbers below `k` with its predecessor among them. -/
theorem bound_eq {k : ℕ} {l : List ℕ} (h : ∀ i ∈ l, i < k) (hlast : k ≠ 0 → k - 1 ∈ l) :
    bound 0 l = k := by
  apply Nat.le_antisymm (bound_le (Nat.zero_le k) h)
  by_cases hk : k = 0
  · omega
  · have := lt_bound (n := 0) (hlast hk)
    omega

/-- What is collected comes from the elements. -/
theorem exists_of_mem_mapM {f : α → Option β} {bs : List β} (h : l.mapM f = some bs)
    (hb : b ∈ bs) : ∃ a ∈ l, f a = some b := by
  induction l generalizing bs with
  | nil =>
    obtain rfl : bs = [] := by simpa using h.symm
    cases hb
  | cons a l ih =>
    rw [mapM_cons] at h
    obtain ⟨c, hc, h⟩ := bind_eq_some_iff.mp h
    obtain ⟨cs, hcs, h⟩ := bind_eq_some_iff.mp h
    obtain rfl := some.inj h
    rcases mem_cons.mp hb with rfl | hb
    · exact ⟨a, mem_cons_self, hc⟩
    · obtain ⟨a', ha', hfa'⟩ := ih hcs hb
      exact ⟨a', mem_cons_of_mem _ ha', hfa'⟩

theorem length_of_mapM {f : α → Option β} {bs : List β} (h : l.mapM f = some bs) :
    bs.length = l.length := by
  induction l generalizing bs with
  | nil =>
    obtain rfl : bs = [] := by simpa using h.symm
    rfl
  | cons a l ih =>
    rw [mapM_cons] at h
    obtain ⟨c, -, h⟩ := bind_eq_some_iff.mp h
    obtain ⟨cs, hcs, h⟩ := bind_eq_some_iff.mp h
    obtain rfl := some.inj h
    exact congrArg Nat.succ (ih hcs)

theorem foldl_max_mem (l : List ℕ) (n : ℕ) : l.foldl max n = n ∨ l.foldl max n ∈ l := by
  induction l generalizing n with
  | nil => exact .inl rfl
  | cons a l ih =>
    rw [foldl_cons]
    rcases ih (max n a) with h | h
    · rw [h]
      rcases Nat.le_total n a with hle | hle
      · exact .inr (by simp [hle])
      · exact .inl (Nat.max_eq_left hle)
    · exact .inr (mem_cons_of_mem _ h)

theorem le_foldl_max (l : List ℕ) (n : ℕ) : n ≤ l.foldl max n ∧ ∀ a ∈ l, a ≤ l.foldl max n := by
  induction l generalizing n with
  | nil => exact ⟨Nat.le_refl n, nofun⟩
  | cons b l ih =>
    obtain ⟨hinit, hall⟩ := ih (max n b)
    refine ⟨Nat.le_trans (Nat.le_max_left n b) hinit, ?_⟩
    intro a ha
    rcases mem_cons.mp ha with rfl | ha
    · exact Nat.le_trans (Nat.le_max_right n a) hinit
    · exact hall a ha

end Brf.Lib
