import Mathlib.Data.List.Basic

/-! # Elements and what stands before them

`EachAfter R l` relates every element of a list to the list of the elements before it. The rules
follow the ways of building a list: appending, mapping and inserting. -/

namespace Brf.Lib

variable {α β : Type} {R S : List α → α → Prop}

/-- Every element is related to those before it. -/
def EachAfter (R : List α → α → Prop) (l : List α) : Prop :=
  ∀ pre a post, l = pre ++ a :: post → R pre a

@[simp] theorem eachAfter_nil : EachAfter R [] := by
  intro pre a post h
  simp at h

variable {a : α} {l : List α}

theorem eachAfter_cons : EachAfter R (a :: l) ↔ R [] a ∧ EachAfter (fun pre => R (a :: pre)) l := by
  constructor
  · intro h
    refine ⟨h [] a l rfl, ?_⟩
    rintro pre b post rfl
    exact h (a :: pre) b post rfl
  · rintro ⟨ha, hl⟩ pre b post h
    cases pre with
    | nil =>
      obtain ⟨rfl, -⟩ := List.cons.inj h
      exact ha
    | cons c pre =>
      obtain ⟨rfl, htail⟩ := List.cons.inj h
      exact hl pre b post htail

theorem eachAfter_append {m : List α} :
    EachAfter R (l ++ m) ↔ EachAfter R l ∧ EachAfter (fun pre => R (l ++ pre)) m := by
  induction l generalizing R with
  | nil => simp
  | cons a l ih => simp only [List.cons_append, eachAfter_cons, ih, and_assoc]

theorem eachAfter_concat : EachAfter R (l ++ [a]) ↔ EachAfter R l ∧ R l a := by
  simp [eachAfter_append, eachAfter_cons]

theorem EachAfter.mono (h : EachAfter R l) (hRS : ∀ pre, ∀ a ∈ l, R pre a → S pre a) :
    EachAfter S l := by
  rintro pre a post rfl
  exact hRS pre a (by simp) (h pre a post rfl)

theorem EachAfter.map {T : List β → β → Prop} {f : α → β} (h : EachAfter R l)
    (hRT : ∀ pre, ∀ a ∈ l, R pre a → T (pre.map f) (f a)) : EachAfter T (l.map f) := by
  intro pre' b post' heq
  obtain ⟨pre, rest, rfl, rfl, hrest⟩ := List.map_eq_append_iff.mp heq
  obtain ⟨a, post, rfl, rfl, -⟩ := List.map_eq_cons_iff.mp hrest
  exact hRT pre a (by simp) (h pre a post rfl)

/-- An element can be inserted where it is related to what stands before it, when those behind
it do not notice. -/
theorem EachAfter.insert {m : List α} (h : EachAfter R (l ++ m)) (ha : R l a)
    (hbehind : ∀ pre b, R (l ++ pre) b → R (l ++ a :: pre) b) : EachAfter R (l ++ a :: m) := by
  obtain ⟨hl, hm⟩ := eachAfter_append.mp h
  refine eachAfter_append.mpr ⟨hl, eachAfter_cons.mpr ⟨by simpa using ha, ?_⟩⟩
  exact hm.mono fun pre b _ => hbehind pre b

end Brf.Lib
