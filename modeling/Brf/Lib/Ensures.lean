import Brf.Lib.Gen

/-! # Partial correctness of generators

`Gen.Ensures` says what holds of every result a generator returns, and `Post` says the same for
a generator that also carries a state. The rules for composed generators are equivalences, so
that a proof can follow the text of the program from left to right. -/

namespace Brf.Lib

variable {α β σ : Type} {a : α} {c : Prop} {st : σ}

namespace Gen

/-- Whatever the generator returns satisfies `Q`. -/
def Ensures (g : Gen α) (Q : α → Prop) : Prop :=
  ∀ s a s', g s = some (a, s') → Q a

variable {g : Gen α} {P Q : α → Prop}

theorem Ensures.mono (hg : Ensures g P) (h : ∀ a, P a → Q a) : Ensures g Q :=
  fun s a s' hrun => h a (hg s a s' hrun)

theorem Ensures.of_forall (h : ∀ a, Q a) : Ensures g Q :=
  fun _ a _ _ => h a

@[simp] theorem ensures_pure : Ensures (pure a) Q ↔ Q a := by
  constructor
  · intro h
    exact h (Stream'.const 0) a _ rfl
  · rintro h s b s' hrun
    cases hrun
    exact h

@[simp] theorem ensures_failure : Ensures (failure : Gen α) Q :=
  fun _ _ _ hrun => nomatch hrun

theorem ensures_bind {f : α → Gen β} {Q : β → Prop}
    (h : Ensures g fun a => Ensures (f a) Q) : Ensures (g >>= f) Q := by
  intro s b s' hrun
  obtain ⟨⟨a, s1⟩, hg, hf⟩ := Option.bind_eq_some_iff.mp hrun
  exact h s a s1 hg s1 b s' hf

theorem ensures_ite [Decidable c] {g1 g2 : Gen α}
    (h1 : c → Ensures g1 Q) (h2 : ¬ c → Ensures g2 Q) : Ensures (if c then g1 else g2) Q := by
  split
  · exact h1 ‹_›
  · exact h2 ‹_›

theorem ensures_intn {n : ℕ} {Q : ℕ → Prop} (h : ∀ k < n, Q k) : Ensures (intn n) Q := by
  intro s a s' hrun
  unfold intn at hrun
  split at hrun
  · cases hrun
  · cases hrun
    exact h _ (Nat.mod_lt _ (Nat.pos_of_ne_zero ‹_›))

theorem ensures_pick {xs : List α} (h : ∀ x ∈ xs, Q x) : Ensures (pick xs) Q := by
  refine ensures_bind (ensures_intn ?_)
  intro k hk
  rw [List.getElem?_eq_getElem hk]
  exact ensures_pure.mpr (h _ (List.getElem_mem hk))

theorem ensures_loop {body : ℕ → σ → Gen σ} {I : ℕ → σ → Prop} {i count : ℕ} (h0 : I i st)
    (hstep : ∀ j st, i ≤ j → j < i + count → I j st → Ensures (body j st) (I (j + 1))) :
    Ensures (loop body i count st) (I (i + count)) := by
  induction count generalizing i st with
  | zero => exact ensures_pure.mpr h0
  | succ count ih =>
    refine ensures_bind ((hstep i st le_rfl (by omega) h0).mono fun st' h' => ?_)
    have hrest : Ensures (loop body (i + 1) count st') (I (i + 1 + count)) := by
      apply ih h'
      intro j st2 hj hlt
      exact hstep j st2 (by omega) (by omega)
    simpa [Nat.add_comm, Nat.add_left_comm] using hrest

theorem Ensures.of_sat (hg : Sat g Q) : Ensures g Q := by
  intro s a s' hrun
  obtain ⟨b, t, hrun', hb⟩ := hg s
  rw [hrun] at hrun'
  cases hrun'
  exact hb

theorem Ensures.and (hp : Ensures g P) (hq : Ensures g Q) : Ensures g fun a => P a ∧ Q a :=
  fun s a s' hrun => ⟨hp s a s' hrun, hq s a s' hrun⟩

/-- A generator that returns on every stream returns what is proved of all its results. -/
theorem Sat.ensures (hg : Sat g P) (h : Ensures g Q) : Sat g Q := by
  intro s
  obtain ⟨a, s', hrun, -⟩ := hg s
  exact ⟨a, s', hrun, h s a s' hrun⟩

end Gen

/-- Run from `st`, whatever the generator returns satisfies `Q` together with its state. -/
def Post (g : StateT σ Gen α) (st : σ) (Q : α → σ → Prop) : Prop :=
  Gen.Ensures (g st) fun r => Q r.1 r.2

variable {g : StateT σ Gen α}

theorem Post.mono {P Q : α → σ → Prop} (hg : Post g st P)
    (h : ∀ a st', P a st' → Q a st') : Post g st Q :=
  Gen.Ensures.mono hg fun r => h r.1 r.2

variable {Q : α → σ → Prop}

/-- What a run returned satisfies the condition proved of all runs. -/
theorem Post.of_run {st' : σ} {s s' : Stream' ℕ}
    (h : Post g st Q) (hrun : g st s = some ((a, st'), s')) : Q a st' :=
  h s (a, st') s' hrun

@[simp] theorem post_pure : Post (pure a) st Q ↔ Q a st :=
  Gen.ensures_pure

theorem post_bind {f : α → StateT σ Gen β} {Q : β → σ → Prop}
    (h : Post g st fun a st' => Post (f a) st' Q) : Post (g >>= f) st Q :=
  Gen.ensures_bind h

@[simp] theorem post_get {Q : σ → σ → Prop} : Post (get : StateT σ Gen σ) st Q ↔ Q st st :=
  Gen.ensures_pure

@[simp] theorem post_modify {f : σ → σ} {Q : Unit → σ → Prop} :
    Post (modify f : StateT σ Gen Unit) st Q ↔ Q () (f st) :=
  Gen.ensures_pure

theorem post_ite [Decidable c] {g1 g2 : StateT σ Gen α}
    (h1 : c → Post g1 st Q) (h2 : ¬ c → Post g2 st Q) : Post (if c then g1 else g2) st Q := by
  split
  · exact h1 ‹_›
  · exact h2 ‹_›

theorem run_bind (g : StateT σ Gen α) (f : α → StateT σ Gen β) (st : σ) (s : Stream' ℕ) :
    (g >>= f) st s = (g st s).bind fun r => f r.1.1 r.1.2 r.2 := rfl

theorem run_get (st : σ) (s : Stream' ℕ) : (get : StateT σ Gen σ) st s = some ((st, st), s) := rfl

end Brf.Lib
