import Mathlib.Algebra.Ring.Int.Defs
import Mathlib.Algebra.Ring.Nat
import Mathlib.Data.Stream.Init

/-! # Generators over a stream of random draws

A generator reads words from an infinite stream and may abort. Total correctness is
stated once, by `Gen.Sat`, with one rule per way of building a generator. -/

namespace Brf.Lib

/-- A computation that consumes random words one after another; `none` is an abort. -/
abbrev Gen := StateT (Stream' ℕ) Option

namespace Gen

variable {α β σ : Type}

/-- A draw below `n`. Drawing from an empty range aborts. -/
def intn (n : ℕ) : Gen ℕ := fun s =>
  if n = 0 then none else some (s.head % n, s.tail)

/-- True `n` times out of `outOf`. -/
def nOutOf (n outOf : ℕ) : Gen Bool := do
  let v ← intn outOf
  pure (v < n)

/-- A uniformly drawn element of a list. -/
def pick (xs : List α) : Gen α := do
  let k ← intn xs.length
  match xs[k]? with
  | some x => pure x
  | none => failure

/-- Run `body i` for `count` successive indices starting at `i`. -/
def loop (body : ℕ → σ → Gen σ) : ℕ → ℕ → σ → Gen σ
  | _, 0, st => pure st
  | i, count + 1, st => do
    let st' ← body i st
    loop body (i + 1) count st'

/-- On every stream the generator returns, and what it returns satisfies `Q`. -/
def Sat (g : Gen α) (Q : α → Prop) : Prop :=
  ∀ s, ∃ a s', g s = some (a, s') ∧ Q a

variable {g : Gen α} {P Q : α → Prop}

theorem Sat.mono (hg : Sat g P) (h : ∀ a, P a → Q a) : Sat g Q := by
  intro s
  obtain ⟨a, s', hrun, ha⟩ := hg s
  exact ⟨a, s', hrun, h a ha⟩

theorem sat_pure {a : α} (h : Q a) : Sat (pure a) Q :=
  fun s => ⟨a, s, rfl, h⟩

theorem Sat.bind {f : α → Gen β} {Q : β → Prop}
    (hg : Sat g P) (hf : ∀ a, P a → Sat (f a) Q) : Sat (g >>= f) Q := by
  intro s
  obtain ⟨a, s1, hrun, ha⟩ := hg s
  obtain ⟨b, s2, hrun2, hb⟩ := hf a ha s1
  refine ⟨b, s2, ?_, hb⟩
  change (g s).bind (fun p => f p.1 p.2) = some (b, s2)
  rw [hrun]
  exact hrun2

theorem Sat.map {f : α → β} {Q : β → Prop} (hg : Sat g P)
    (hf : ∀ a, P a → Q (f a)) : Sat (f <$> g) Q := by
  exact hg.bind fun a ha => sat_pure (hf a ha)

theorem sat_intn {n : ℕ} (h : 0 < n) : Sat (intn n) (· < n) := by
  intro s
  refine ⟨s.head % n, s.tail, ?_, Nat.mod_lt _ h⟩
  simp [intn, Nat.ne_of_gt h]

theorem sat_nOutOf (n : ℕ) {outOf : ℕ} (h : 0 < outOf) : Sat (nOutOf n outOf) fun _ => True :=
  (sat_intn h).bind fun _ _ => sat_pure trivial

theorem sat_pick {xs : List α} (h : xs ≠ []) : Sat (pick xs) (· ∈ xs) := by
  refine (sat_intn (List.length_pos_iff.mpr h)).bind ?_
  intro k hk
  rw [List.getElem?_eq_getElem hk]
  exact sat_pure (List.getElem_mem hk)

theorem sat_ite {c : Prop} [Decidable c] {g1 g2 : Gen α}
    (h1 : c → Sat g1 Q) (h2 : ¬ c → Sat g2 Q) : Sat (if c then g1 else g2) Q := by
  by_cases h : c
  · simpa [h] using h1 h
  · simpa [h] using h2 h

theorem sat_either {n outOf : ℕ} {g1 g2 : Gen α} (h : 0 < outOf) (h1 : Sat g1 Q)
    (h2 : Sat g2 Q) : Sat (nOutOf n outOf >>= fun b => if b then g1 else g2) Q :=
  (sat_nOutOf n h).bind fun _ _ => sat_ite (fun _ => h1) fun _ => h2

/-- A loop establishes its invariant at the final index when every step carries it on. -/
theorem sat_loop {body : ℕ → σ → Gen σ} {I : ℕ → σ → Prop} {i count : ℕ} {st : σ} (h0 : I i st)
    (hstep : ∀ j st, i ≤ j → j < i + count → I j st → Sat (body j st) (I (j + 1))) :
    Sat (loop body i count st) (I (i + count)) := by
  induction count generalizing i st with
  | zero => exact sat_pure h0
  | succ count ih =>
    refine (hstep i st le_rfl (by omega) h0).bind ?_
    intro st' h'
    have hrest : Sat (loop body (i + 1) count st') (I (i + 1 + count)) := by
      apply ih h'
      intro j st2 hj hlt
      exact hstep j st2 (by omega) (by omega)
    simpa [Nat.add_comm, Nat.add_left_comm] using hrest

end Gen

end Brf.Lib
