import Brf.Lib.Gen

/-! # Possible results of generators

`Gen.Yields g a` says that suitable words make the generator return `a`. The words are given
as the exact list that is read, so that possible results of the parts compose. -/

namespace Brf.Lib.Gen

variable {α β : Type}

/-- Reading the words of some list, and no more, the generator returns `a`. -/
def Yields (g : Gen α) (a : α) : Prop :=
  ∃ ws : List ℕ, ∀ s, g (ws ++ₛ s) = some (a, s)

variable {g : Gen α} {a : α}

theorem Yields.exists_run (h : Yields g a) : ∃ s s', g s = some (a, s') := by
  obtain ⟨ws, hws⟩ := h
  exact ⟨_, _, hws (Stream'.const 0)⟩

theorem yields_pure (a : α) : Yields (pure a) a :=
  ⟨[], fun _ => rfl⟩

variable {f : α → Gen β}

theorem Yields.bind {b : β} (hg : Yields g a) (hf : Yields (f a) b) : Yields (g >>= f) b := by
  obtain ⟨ws, hws⟩ := hg
  obtain ⟨ws', hws'⟩ := hf
  refine ⟨ws ++ ws', fun s => ?_⟩
  change (g (ws ++ ws' ++ₛ s)).bind (fun r => f r.1 r.2) = some (b, s)
  rw [Stream'.append_append_stream, hws]
  exact hws' s

theorem Yields.map (hg : Yields g a) (f : α → β) : Yields (f <$> g) (f a) := by
  rw [map_eq_pure_bind]
  exact hg.bind (yields_pure _)

variable {n k : ℕ}

theorem yields_intn (h : k < n) : Yields (intn n) k := by
  refine ⟨[k], fun s => ?_⟩
  have hn : n ≠ 0 := by omega
  simp only [intn, hn, if_false]
  exact congrArg (fun m => some (m, s)) (Nat.mod_eq_of_lt h)

theorem yields_nOutOf {outOf : ℕ} (h : k < outOf) : Yields (nOutOf n outOf) (k < n) :=
  (yields_intn h).bind (yields_pure _)

theorem yields_pick {xs : List α} {x : α} (h : x ∈ xs) : Yields (pick xs) x := by
  obtain ⟨i, hi, rfl⟩ := List.mem_iff_getElem.mp h
  refine (yields_intn hi).bind ?_
  rw [List.getElem?_eq_getElem hi]
  exact yields_pure _

variable {Q : α → Prop}

/-- What is possible is what is guaranteed. -/
theorem Yields.of_sat (h : Yields g a) (hg : Sat g Q) : Q a := by
  obtain ⟨s, s', hrun⟩ := h.exists_run
  obtain ⟨b, s'', hrun', hb⟩ := hg s
  rw [hrun] at hrun'
  obtain ⟨rfl, -⟩ := Prod.mk.inj (Option.some.inj hrun')
  exact hb

/-- What is guaranteed of a sequence is guaranteed behind every possible result of its start. -/
theorem Yields.sat_of_bind {Q : β → Prop} (hg : Yields g a)
    (h : Sat (g >>= f) Q) : Sat (f a) Q := by
  obtain ⟨ws, hws⟩ := hg
  intro s
  obtain ⟨b, s', hrun, hb⟩ := h (ws ++ₛ s)
  change (g (ws ++ₛ s)).bind (fun r => f r.1 r.2) = _ at hrun
  rw [hws] at hrun
  exact ⟨b, s', hrun, hb⟩

theorem Sat.of_ite_failure {c : Prop} [Decidable c]
    (h : Sat (if c then failure else g) Q) : ¬ c ∧ Sat g Q := by
  by_cases hc : c
  · rw [if_pos hc] at h
    obtain ⟨_, _, hrun, -⟩ := h (Stream'.const 0)
    cases hrun
  · exact ⟨hc, by rwa [if_neg hc] at h⟩

theorem Sat.of_pure (h : Sat (pure a) Q) : Q a :=
  (yields_pure a).of_sat h

theorem Sat.of_map {f : α → β} {Q : β → Prop} (h : Sat (f <$> g) Q) : Sat g fun a => Q (f a) := by
  intro s
  obtain ⟨b, s', hrun, hb⟩ := h s
  obtain ⟨⟨a, t⟩, hg, hf⟩ := Option.bind_eq_some_iff.mp hrun
  cases hf
  exact ⟨a, _, hg, hb⟩

/-- A loop can reach its invariant at the final index when every step can carry it on. -/
theorem yields_loop {σ : Type} {body : ℕ → σ → Gen σ} {I : ℕ → σ → Prop} {i count : ℕ} {st : σ}
    (h0 : I i st)
    (hstep : ∀ j st, i ≤ j → j < i + count → I j st → ∃ st', Yields (body j st) st' ∧ I (j + 1) st') :
    ∃ st', Yields (loop body i count st) st' ∧ I (i + count) st' := by
  induction count generalizing i st with
  | zero => exact ⟨st, yields_pure st, h0⟩
  | succ count ih =>
    obtain ⟨st1, hrun, h1⟩ := hstep i st le_rfl (by omega) h0
    obtain ⟨st2, hrest, h2⟩ := ih h1 fun j st hj hlt => hstep j st (by omega) (by omega)
    refine ⟨st2, hrun.bind hrest, ?_⟩
    rwa [Nat.add_comm count 1, ← Nat.add_assoc]

end Brf.Lib.Gen
