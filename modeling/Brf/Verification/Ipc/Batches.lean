import Brf.Lib.EachAfter
import Brf.Lib.Window
import Brf.Model.Gate

/-! # Batches of activities

What the gate is for, without threads that wait: activities enter a window, leave it, and after
an activity of slot 0 has left, nobody enters until all have left and the callback has run. -/

namespace Brf.Ipc

open Brf.Lib List Note

def Note.isEntered : Note → Bool
  | .entered _ _ => true
  | _ => false

/-- `waiting` is the activity of slot 0 that left and waits for its callback. -/
structure Batch (c : ℕ) where
  window : Window c
  waiting : Option ℕ
  first_left : waiting.isSome → ∀ k ∈ window.active, k % c ≠ 0

namespace Batch

variable {c : ℕ} {callback : Bool} {b b' : Batch c} {log : List Note} {note : Note}

def empty (c : ℕ) : Batch c := ⟨.empty c, none, by simp⟩

def enter (b : Batch c) (hc : 0 < c) (hfree : b.window.Free) : Batch c :=
  ⟨b.window.enter hc hfree, none, by simp⟩

def leave (b : Batch c) (k : ℕ) : Batch c :=
  ⟨b.window.leave k, b.waiting, fun h j hj => b.first_left h j (Finset.mem_of_mem_erase hj)⟩

/-- The activity of slot 0 leaves. No other activity has its slot. -/
def leaveFirst (b : Batch c) (k : ℕ) (hk : k ∈ b.window.active) (hslot : k % c = 0) : Batch c where
  window := b.window.leave k
  waiting := some k
  first_left := by
    intro _ j hj hslot'
    have hj' := Finset.mem_erase.mp hj
    exact hj'.1 (Window.slot_inj hj'.2 hk (hslot'.trans hslot.symm))

def call (b : Batch c) : Batch c := ⟨b.window, none, by simp⟩

inductive Step (callback : Bool) : Batch c → Note → Batch c → Prop where
  | enter {b : Batch c} (hwait : b.waiting = none) (hc : 0 < c) (hfree : b.window.Free) :
      Step callback b (.entered b.window.next (b.window.next % c)) (b.enter hc hfree)
  | leave {b : Batch c} {k : ℕ} (hk : k ∈ b.window.active) (hslot : ¬ (k % c = 0 ∧ callback)) :
      Step callback b (.left k (k % c)) (b.leave k)
  | leaveFirst {b : Batch c} {k : ℕ} (hk : k ∈ b.window.active) (hslot : k % c = 0)
      (hcall : callback) : Step callback b (.left k (k % c)) (b.leaveFirst k hk hslot)
  | call {b : Batch c} {k : ℕ} (hwait : b.waiting = some k) (hempty : b.window.active = ∅) :
      Step callback b (.called k) b.call

inductive Runs (callback : Bool) : Batch c → List Note → Prop where
  | start : Runs callback (empty c) []
  | step {b b' : Batch c} {log : List Note} {note : Note} : Runs callback b log →
      Step callback b note b' → Runs callback b' (log ++ [note])

inductive Steps (callback : Bool) : Batch c → List Note → Batch c → Prop where
  | nil {b : Batch c} : Steps callback b [] b
  | cons {b1 b2 b3 : Batch c} {note : Note} {notes : List Note} : Step callback b1 note b2 →
      Steps callback b2 notes b3 → Steps callback b1 (note :: notes) b3

theorem Runs.steps {notes : List Note} (h : Runs callback b log) (hs : Steps callback b notes b') :
    Runs callback b' (log ++ notes) := by
  induction hs generalizing log with
  | nil => simpa using h
  | cons hstep _ ih => simpa using ih (h.step hstep)

/-- The activity entered and has not left. -/
def Active (log : List Note) (k : ℕ) : Prop :=
  (∃ idx, entered k idx ∈ log) ∧ ∀ idx, left k idx ∉ log

/-- The log tells which activities entered and which of them are active. -/
structure Tells (w : Window c) (log : List Note) : Prop where
  entered : ∀ k, (∃ idx, entered k idx ∈ log) ↔ k < w.next
  left : ∀ k, (∃ idx, left k idx ∈ log) ↔ k < w.next ∧ k ∉ w.active

variable {w : Window c}

theorem Tells.active (h : Tells w log) (k : ℕ) : k ∈ w.active ↔ Active log k := by
  have hleft := h.left k
  rw [Active, h.entered k, ← not_exists, hleft]
  constructor
  · intro hk
    exact ⟨w.lt_next k hk, fun hgone => hgone.2 hk⟩
  · rintro ⟨hlt, hgone⟩
    by_contra hk
    exact hgone ⟨hlt, hk⟩

theorem Tells.enter (h : Tells w log) (hc : 0 < c) (hfree : w.Free) (idx : ℕ) :
    Tells (w.enter hc hfree) (log ++ [.entered w.next idx]) := by
  constructor
  · intro k
    have hk := h.entered k
    simp only [mem_append, mem_singleton, exists_or, hk, entered.injEq, Window.enter]
    constructor
    · rintro (hlt | ⟨_, rfl, _⟩)
      · omega
      · omega
    · intro hlt
      rcases Nat.lt_succ_iff_lt_or_eq.mp hlt with hlt | rfl
      · exact .inl hlt
      · exact .inr ⟨_, rfl, rfl⟩
  · intro k
    have hk := h.left k
    simp only [mem_append, mem_singleton, reduceCtorEq, or_false, hk, Window.enter,
      Finset.mem_insert, not_or]
    constructor
    · rintro ⟨hlt, hgone⟩
      exact ⟨Nat.lt_succ_of_lt hlt, Nat.ne_of_lt hlt, hgone⟩
    · rintro ⟨hlt, hne, hgone⟩
      exact ⟨by omega, hgone⟩

theorem Tells.leave (h : Tells w log) {j : ℕ} (hj : j ∈ w.active) (idx : ℕ) :
    Tells (w.leave j) (log ++ [.left j idx]) := by
  constructor
  · intro k
    simpa [Window.leave] using h.entered k
  · intro k
    have hk := h.left k
    have hlt := w.lt_next j hj
    simp only [mem_append, mem_singleton, exists_or, hk, left.injEq, Window.leave,
      Finset.mem_erase, not_and]
    constructor
    · rintro (⟨hlt, hgone⟩ | ⟨_, rfl, _⟩)
      · exact ⟨hlt, fun _ => hgone⟩
      · exact ⟨hlt, fun hne => absurd rfl hne⟩
    · rintro ⟨hlt, hgone⟩
      by_cases hkj : k = j
      · exact .inr ⟨idx, hkj, rfl⟩
      · exact .inl ⟨hlt, hgone hkj⟩

theorem Tells.called (h : Tells w log) (j : ℕ) : Tells w (log ++ [.called j]) := by
  constructor
  · intro k
    simpa using h.entered k
  · intro k
    simpa using h.left k

/-- What may follow a log. Activities enter in the order of their numbers, one only after the
activity `c` numbers before it has left, and none while a callback is due. A callback runs once
for an activity that left slot 0, while no activity is running. -/
def Lawful (c : ℕ) (callback : Bool) (log : List Note) : Note → Prop
  | .entered k _ => k = log.countP isEntered ∧
      (∀ j, j + c = k → ∃ idx, left j idx ∈ log) ∧
      (callback → ∀ j, left j 0 ∈ log → called j ∈ log)
  | .left k idx => Active log k ∧ entered k idx ∈ log
  | .called k => callback ∧ left k 0 ∈ log ∧ called k ∉ log ∧ ∀ j, ¬ Active log j

structure Good (callback : Bool) (b : Batch c) (log : List Note) : Prop where
  tells : Tells b.window log
  count : log.countP isEntered = b.window.next
  slot : ∀ k idx, entered k idx ∈ log ∨ left k idx ∈ log → idx = k % c
  due : callback → ∀ k, left k 0 ∈ log → called k ∈ log ∨ b.waiting = some k
  called : ∀ k, called k ∈ log → left k 0 ∈ log ∧ b.waiting ≠ some k
  waiting : ∀ k, b.waiting = some k → callback ∧ left k 0 ∈ log
  lawful : EachAfter (Lawful c callback) log

theorem Good.start : (empty c).Good callback [] := by
  refine ⟨⟨?_, ?_⟩, ?_, ?_, ?_, ?_, ?_, eachAfter_nil⟩ <;> simp [Batch.empty, Window.empty]

theorem Good.lawful_left (h : b.Good callback log) {k : ℕ} (hk : k ∈ b.window.active) :
    Lawful c callback log (.left k (k % c)) := by
  have hactive := (h.tells.active k).mp hk
  obtain ⟨idx, hidx⟩ := hactive.1
  exact ⟨hactive, h.slot k idx (.inl hidx) ▸ hidx⟩

theorem Good.slot_left (h : b.Good callback log) {j : ℕ} (k idx : ℕ)
    (hmem : entered k idx ∈ log ++ [.left j (j % c)] ∨
      left k idx ∈ log ++ [.left j (j % c)]) : idx = k % c := by
  simp only [mem_append, mem_singleton, reduceCtorEq, or_false, left.injEq] at hmem
  rcases hmem with hmem | hmem | ⟨rfl, rfl⟩
  · exact h.slot k idx (.inl hmem)
  · exact h.slot k idx (.inr hmem)
  · rfl

/-- Each step keeps the window and the log in agreement. -/
theorem Good.step (h : b.Good callback log) (hstep : Step callback b note b') :
    b'.Good callback (log ++ [note]) := by
  cases hstep with
  | enter hwait hc hfree =>
    have hlawful : Lawful c callback log (.entered b.window.next (b.window.next % c)) := by
      refine ⟨h.count.symm, fun j hj => ?_, fun hcall j hj => ?_⟩
      · exact (h.tells.left j).mpr
          ⟨by omega, fun hmem => hfree j hmem (by rw [← hj, Nat.add_mod_right])⟩
      · exact (h.due hcall j hj).resolve_right (by simp [hwait])
    refine ⟨h.tells.enter hc hfree _, ?_, ?_, ?_, ?_, ?_, eachAfter_concat.mpr ⟨h.lawful, hlawful⟩⟩
    · simp [countP_append, h.count, isEntered, Batch.enter, Window.enter]
    · intro k idx hmem
      simp only [mem_append, mem_singleton, reduceCtorEq, or_false, entered.injEq] at hmem
      rcases hmem with (hmem | ⟨rfl, rfl⟩) | hmem
      · exact h.slot k idx (.inl hmem)
      · rfl
      · exact h.slot k idx (.inr hmem)
    · intro hcall k hk
      have hcalled := hlawful.2.2 hcall k (by simpa using hk)
      exact .inl (mem_append_left _ hcalled)
    · intro k hk
      have hk' := h.called k (by simpa using hk)
      exact ⟨mem_append_left _ hk'.1, by simp [Batch.enter]⟩
    · simp [Batch.enter]
  | @leave j hj hslot =>
    refine ⟨h.tells.leave hj _, ?_, ?_, ?_, ?_, ?_,
      eachAfter_concat.mpr ⟨h.lawful, h.lawful_left hj⟩⟩
    · simp [countP_append, h.count, isEntered, Batch.leave, Window.leave]
    · exact h.slot_left
    · intro hcall k hk
      simp only [mem_append, mem_singleton, left.injEq] at hk
      rcases hk with hk | ⟨rfl, hzero⟩
      · exact (h.due hcall k hk).imp (mem_append_left _) id
      · exact absurd ⟨hzero.symm, hcall⟩ hslot
    · intro k hk
      have hk' := h.called k (by simpa using hk)
      exact ⟨mem_append_left _ hk'.1, hk'.2⟩
    · intro k hk
      have hk' := h.waiting k hk
      exact ⟨hk'.1, mem_append_left _ hk'.2⟩
  | @leaveFirst j hj hslot hcall =>
    have hnone : b.waiting = none := by
      by_contra hwait
      exact b.first_left (Option.isSome_iff_ne_none.mpr hwait) j hj hslot
    refine ⟨h.tells.leave hj _, ?_, ?_, ?_, ?_, ?_,
      eachAfter_concat.mpr ⟨h.lawful, h.lawful_left hj⟩⟩
    · simp [countP_append, h.count, isEntered, Batch.leaveFirst, Window.leave]
    · exact h.slot_left
    · intro _ k hk
      simp only [mem_append, mem_singleton, left.injEq] at hk
      rcases hk with hk | ⟨rfl, -⟩
      · exact .inl (mem_append_left _ ((h.due hcall k hk).resolve_right (by simp [hnone])))
      · exact .inr rfl
    · intro k hk
      have hk' := h.called k (by simpa using hk)
      refine ⟨mem_append_left _ hk'.1, fun hwait => ?_⟩
      -- the activity that leaves now has not left before
      cases hwait
      exact ((h.tells.active j).mp hj).2 0 hk'.1
    · rintro k ⟨⟩
      exact ⟨hcall, by simp [hslot]⟩
  | @call j hwait hempty =>
    obtain ⟨hcall, hleft⟩ := h.waiting j hwait
    have hlawful : Lawful c callback log (.called j) := by
      refine ⟨hcall, hleft, fun hmem => (h.called j hmem).2 hwait, fun k hk => ?_⟩
      have hmem := (h.tells.active k).mpr hk
      simp [hempty] at hmem
    refine ⟨h.tells.called j, ?_, ?_, ?_, ?_, by simp [Batch.call],
      eachAfter_concat.mpr ⟨h.lawful, hlawful⟩⟩
    · simp [countP_append, h.count, isEntered, Batch.call]
    · intro k idx hmem
      exact h.slot k idx (by simpa using hmem)
    · intro _ k hk
      refine .inl (mem_append.mpr ?_)
      rcases h.due hcall k (by simpa using hk) with hmem | hk
      · exact .inl hmem
      · rw [hwait] at hk
        cases hk
        exact .inr (mem_singleton_self _)
    · intro k hk
      refine ⟨mem_append_left _ ?_, by simp [Batch.call]⟩
      simp only [mem_append, mem_singleton, called.injEq] at hk
      rcases hk with hk | rfl
      · exact (h.called k hk).1
      · exact hleft

theorem Runs.good (h : Runs callback b log) : b.Good callback log := by
  induction h with
  | start => exact Good.start
  | step _ hstep ih => exact ih.step hstep

end Batch

end Brf.Ipc
