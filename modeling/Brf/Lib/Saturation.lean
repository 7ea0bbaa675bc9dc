import Brf.Lib.Dict
import Mathlib.Order.Bounds.Basic

/-! # Saturation

A rule needs some facts and gives others. Rounds over the enabled rules, each in an order of its
own, apply the rules whose needs are met, until a round applies none. The rules applied by then
are the least closed set, whatever the orders were. -/

namespace Brf.Lib

open List

structure Rules (α β : Type*) where
  needs : α → List β
  gives : α → List β

namespace Rules

variable {α β : Type*} {r : Rules α β}

/-- An enabled rule is in the set if rules of the set give all that it needs. -/
def Closed (r : Rules α β) (enabled S : Set α) : Prop :=
  ∀ a ∈ enabled, (∀ b ∈ r.needs a, ∃ a' ∈ S, b ∈ r.gives a') → a ∈ S

/-- The smallest closed set of enabled rules. -/
def Least (r : Rules α β) (enabled S : Set α) : Prop :=
  IsLeast {S | S ⊆ enabled ∧ r.Closed enabled S} S

variable {S : Set α}

theorem Least.mono {enabled enabled' S' : Set α} (h : r.Least enabled S)
    (h' : r.Least enabled' S') (hsub : enabled ⊆ enabled') : S ⊆ S' := by
  have hclosed : r.Closed enabled (S' ∩ enabled) := by
    intro a ha hneeds
    refine ⟨h'.1.2 a (hsub ha) fun b hb => ?_, ha⟩
    obtain ⟨a', ha', hgives⟩ := hneeds b hb
    exact ⟨a', ha'.1, hgives⟩
  have hle : S ≤ S' ∩ enabled := h.2 ⟨Set.inter_subset_right, hclosed⟩
  exact fun a ha => (hle ha).1

/-- The smallest closed set is that of its own rules. -/
theorem Least.self {enabled : Set α} (h : r.Least enabled S) : r.Least S S := by
  refine ⟨⟨subset_rfl, fun a ha _ => ha⟩, ?_⟩
  rintro T ⟨hsub, hclosed⟩
  refine h.2 ⟨hsub.trans h.1.1, fun a ha hneeds => ?_⟩
  have haS : a ∈ S := by
    refine h.1.2 a ha fun b hb => ?_
    obtain ⟨a', ha', hgives⟩ := hneeds b hb
    exact ⟨a', hsub ha', hgives⟩
  exact hclosed a haS hneeds

/-- No rule is in the smallest closed set without what it needs. -/
theorem Least.needs_given {enabled : Set α} (h : r.Least enabled S) {a : α} (ha : a ∈ S) {b : β}
    (hb : b ∈ r.needs a) : ∃ a' ∈ S, b ∈ r.gives a' := by
  have hclosed : r.Closed enabled {a ∈ S | ∀ b ∈ r.needs a, ∃ a' ∈ S, b ∈ r.gives a'} := by
    intro a ha hneeds
    have hgiven : ∀ b ∈ r.needs a, ∃ a' ∈ S, b ∈ r.gives a' := by
      intro b hb
      obtain ⟨a', ha', hgives⟩ := hneeds b hb
      exact ⟨a', ha'.1, hgives⟩
    exact ⟨h.1.2 a ha hgiven, hgiven⟩
  have hle := h.2 ⟨fun a ha => h.1.1 ha.1, hclosed⟩
  exact (hle ha).2 b hb

theorem Least.unique {enabled S' : Set α} (h : r.Least enabled S) (h' : r.Least enabled S') :
    S = S' :=
  IsLeast.unique h h'

structure State (α β : Type*) where
  applied : List α
  facts : List β

/-- Every rule is applied once and for a reason, and the facts are those they give. -/
structure Sound (r : Rules α β) (enabled : List α) (st : State α β) : Prop where
  nodup : st.applied.Nodup
  sub : st.applied ⊆ enabled
  facts : ∀ b, b ∈ st.facts ↔ ∃ a ∈ st.applied, b ∈ r.gives a
  least : ∀ S : Set α, r.Closed {a | a ∈ enabled} S → ∀ a ∈ st.applied, a ∈ S

theorem Sound.empty (r : Rules α β) (enabled : List α) : r.Sound enabled ⟨[], []⟩ :=
  ⟨nodup_nil, nil_subset _, by simp, by simp⟩

variable {enabled : List α} {st : State α β}

theorem Sound.length_le (h : r.Sound enabled st) : st.applied.length ≤ enabled.length :=
  (h.nodup.subperm h.sub).length_le

/-- What is applied when no rule is left whose needs are met is the smallest closed set. -/
theorem Sound.isLeast (h : r.Sound enabled st)
    (hend : ∀ a ∈ enabled, a ∉ st.applied → ∃ b ∈ r.needs a, b ∉ st.facts) :
    r.Least {a | a ∈ enabled} {a | a ∈ st.applied} := by
  refine ⟨⟨fun a ha => h.sub ha, fun a ha hneeds => ?_⟩, fun S hS => h.least S hS.2⟩
  by_contra hnew
  obtain ⟨b, hb, hlacks⟩ := hend a ha hnew
  exact hlacks ((h.facts b).mpr (hneeds b hb))

variable [DecidableEq α] [DecidableEq β]

def visit (r : Rules α β) (st : State α β) (a : α) : State α β :=
  if a ∈ st.applied then st
  else if ∀ b ∈ r.needs a, b ∈ st.facts then ⟨st.applied ++ [a], st.facts ++ r.gives a⟩
  else st

def round (r : Rules α β) (st : State α β) (order : List α) : State α β := order.foldl r.visit st

/-- Rounds until one applies nothing; `none` when the fuel does not suffice. -/
def saturate (r : Rules α β) (enabled : List α) (orders : ℕ → Shuffle α) :
    (fuel i : ℕ) → State α β → Option (State α β)
  | 0, _, _ => none
  | fuel + 1, i, st =>
    let st' := r.round st ((orders i).run enabled)
    if st'.applied.length = st.applied.length then some st'
    else r.saturate enabled orders fuel (i + 1) st'

theorem Sound.visit (h : r.Sound enabled st) {a : α}
    (ha : a ∈ enabled) : r.Sound enabled (r.visit st a) := by
  rw [Rules.visit]
  split
  · exact h
  rename_i hnew
  split
  · rename_i hneeds
    constructor
    · rw [nodup_append]
      refine ⟨h.nodup, nodup_singleton a, ?_⟩
      rintro a1 ha1 a2 ha2 rfl
      exact hnew (mem_singleton.mp ha2 ▸ ha1)
    · exact append_subset.mpr ⟨h.sub, cons_subset.mpr ⟨ha, nil_subset _⟩⟩
    · intro b
      simp [h.facts b, or_and_right, exists_or]
    · intro S hS a' ha'
      rcases mem_append.mp ha' with ha' | ha'
      · exact h.least S hS a' ha'
      · -- what the rule needs is given by rules of every closed set
        rw [mem_singleton.mp ha']
        refine hS a ha fun b hb => ?_
        obtain ⟨a1, ha1, hgives⟩ := (h.facts b).mp (hneeds b hb)
        exact ⟨a1, h.least S hS a1 ha1, hgives⟩
  · exact h

theorem Sound.round (h : r.Sound enabled st) {order : List α}
    (horder : order ⊆ enabled) : r.Sound enabled (r.round st order) := by
  induction order generalizing st with
  | nil => exact h
  | cons a order ih =>
    have hsub := cons_subset.mp horder
    exact ih (h.visit hsub.1) hsub.2

theorem length_visit (r : Rules α β) (st : State α β) (a : α) :
    r.visit st a = st ∨ (r.visit st a).applied.length = st.applied.length + 1 := by
  rw [visit]
  split
  · exact .inl rfl
  split
  · exact .inr (by simp)
  · exact .inl rfl

theorem length_round (r : Rules α β) (st : State α β) (order : List α) :
    st.applied.length ≤ (r.round st order).applied.length := by
  induction order generalizing st with
  | nil => exact Nat.le_refl _
  | cons a order ih =>
    refine Nat.le_trans ?_ (ih (r.visit st a))
    rcases length_visit r st a with h | h
    · rw [h]
    · omega

/-- A round that applies nothing found no rule whose needs are met. -/
theorem round_eq_of_length {order : List α}
    (h : (r.round st order).applied.length = st.applied.length) :
    r.round st order = st ∧ ∀ a ∈ order, a ∈ st.applied ∨ ∃ b ∈ r.needs a, b ∉ st.facts := by
  induction order with
  | nil => exact ⟨rfl, by simp⟩
  | cons a order ih =>
    have hrest := length_round r (r.visit st a) order
    rcases length_visit r st a with hvisit | hvisit
    · have heq : r.round st (a :: order) = r.round st order := by
        rw [round, foldl_cons, hvisit, round]
      rw [heq] at h ⊢
      obtain ⟨hround, hall⟩ := ih h
      refine ⟨hround, forall_mem_cons.mpr ⟨?_, hall⟩⟩
      by_contra hcon
      push Not at hcon
      rw [visit, if_neg hcon.1, if_pos hcon.2] at hvisit
      have := congrArg (fun st => st.applied.length) hvisit
      simp at this
    · have hle : (r.visit st a).applied.length ≤ (r.round st (a :: order)).applied.length := hrest
      omega

/-- With fuel for one round more than there are rules, the rounds come to an end. Every rule
that is not applied then lacks a fact. -/
theorem saturate_spec (orders : ℕ → Shuffle α) {fuel i : ℕ}
    (h : r.Sound enabled st) (hfuel : enabled.length < st.applied.length + fuel) :
    ∃ st', r.saturate enabled orders fuel i st = some st' ∧ r.Sound enabled st' ∧
      ∀ a ∈ enabled, a ∉ st'.applied → ∃ b ∈ r.needs a, b ∉ st'.facts := by
  induction fuel generalizing i st with
  | zero =>
    have := h.length_le
    omega
  | succ fuel ih =>
    have hround : r.Sound enabled (r.round st ((orders i).run enabled)) :=
      h.round ((orders i).perm enabled).subset
    rw [saturate]
    by_cases hlen : (r.round st ((orders i).run enabled)).applied.length = st.applied.length
    · obtain ⟨heq, hall⟩ := round_eq_of_length hlen
      refine ⟨_, if_pos hlen, hround, fun a ha hnew => ?_⟩
      rw [heq] at hnew ⊢
      exact (hall a (((orders i).mem_run enabled a).mpr ha)).resolve_left hnew
    · have hgrow := length_round r st ((orders i).run enabled)
      simp only [if_neg hlen]
      exact ih hround (by omega)

end Rules

end Brf.Lib
