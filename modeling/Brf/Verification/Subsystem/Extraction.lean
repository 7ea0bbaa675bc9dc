import Mathlib.Data.Set.Card
import Brf.Verification.Subsystem.Parents

/-! # The subsystems of a bug

The subsystems taken from stacks and from reproducers are each without their parents. If there are
many reproducers both are returned together, and one from the reproducers can be a parent of one
from the stacks. -/

namespace Brf.Subsystem

open Brf.Lib List Relation

variable {S : Type} {parents : S → List S}

/-- Without loops, the number of subsystems below rises along the parents. -/
theorem ranked_of_acyclic [Finite S] (h : ∀ s, ¬ TransGen (Parent parents) s s) :
    Ranked (fun s => {x | TransGen (Parent parents) x s}.ncard) (Parent parents) := by
  intro s p hp
  refine Set.ncard_lt_ncard ⟨fun x hx => hx.tail hp, fun hsub => ?_⟩
  exact h s (hsub (.single hp))

def Antichain (parents : S → List S) (l : List S) : Prop :=
  ∀ s ∈ l, ∀ p ∈ l, ¬ TransGen (Parent parents) s p

theorem antichain_lowest (l : List S) : Antichain parents (lowest parents l) :=
  fun s hs _ hp => (mem_lowest.mp hp).2 s (mem_lowest.mp hs).1

variable [DecidableEq S]

theorem mem_addVotes (n : ℕ) (l : List S) (counts : Dict S ℕ) (s : S) :
    s ∈ l.foldl (addVotes n) counts ↔ s ∈ l ∨ s ∈ counts := by
  induction l generalizing counts with
  | nil => simp
  | cons a l ih => simp [ih, addVotes, or_assoc, or_left_comm]

/-- The subsystems that the guilty paths point to. -/
noncomputable def fromPaths (parents : S → List S) (crashes : List (Crash S)) : List S :=
  lowest parents (crashes.filterMap Crash.guilty).flatten

/-- The reproducers point to other subsystems than the guilty paths, and one of them is a parent
of a leading candidate of those. -/
structure Clash (parents : S → List S) (leading : Voting S) (crashes : List (Crash S)) : Prop where
  many : 3 ≤ reproCount crashes
  apart : ∀ r ∈ lowest parents (commonRepro crashes), ∀ s ∈ fromPaths parents crashes,
    ¬ ReflTransGen (Parent parents) r s
  parent : ∃ r ∈ lowest parents (commonRepro crashes),
    ∃ s ∈ leading.mostVoted ((fromPaths parents crashes).foldl (addVotes 1) ∅),
      TransGen (Parent parents) s r

/-- What the reproducers and the leading candidates of the guilty paths contain together. -/
theorem antichain_append_iff {leading : Voting S} {crashes : List (Crash S)}
    (hmany : 3 ≤ reproCount crashes) (hapart : ∀ r ∈ lowest parents (commonRepro crashes),
      ∀ s ∈ fromPaths parents crashes, ¬ ReflTransGen (Parent parents) r s) :
    Antichain parents (lowest parents (commonRepro crashes) ++
      leading.mostVoted ((fromPaths parents crashes).foldl (addVotes 1) ∅)) ↔
      ¬ Clash parents leading crashes := by
  have hstacks : ∀ s ∈ leading.mostVoted ((fromPaths parents crashes).foldl (addVotes 1) ∅),
      s ∈ fromPaths parents crashes := fun s hs =>
    ((mem_addVotes 1 _ _ s).mp (leading.mem_keys _ s hs)).resolve_right (by simp)
  constructor
  · rintro h ⟨-, -, r, hr, s, hs, hsr⟩
    exact h s (mem_append_right _ hs) r (mem_append_left _ hr) hsr
  · intro h s hs p hp hsp
    rcases mem_append.mp hs with hs | hs <;> rcases mem_append.mp hp with hp | hp
    · exact antichain_lowest _ s hs p hp hsp
    · exact hapart s hs p (hstacks p hp) hsp.to_reflTransGen
    · exact h ⟨hmany, hapart, p, hp, s, hs, hsp⟩
    · exact antichain_lowest _ s (hstacks s hs) p (hstacks p hp) hsp

theorem mem_newSubsystems {reach : S → List S}
    (hmem : ∀ s x, x ∈ reach s ↔ TransGen (Parent parents) s x) (repros subsystems : List S)
    (r : S) : r ∈ ((repros.zip (repros.map reach)).filter fun e =>
      subsystems.any fun s => s = e.1 ∨ s ∈ e.2).map Prod.fst ↔
      r ∈ repros ∧ ∃ s ∈ subsystems, ReflTransGen (Parent parents) r s := by
  rw [← map_prod_left_eq_zip]
  simp [hmem, reflTransGen_iff_eq_or_transGen]

/-- Enough fuel gives a result, and it has a subsystem with its parent only if the sources clash. -/
theorem extract_antichain_iff [Finite S] (parents : S → List S)
    (hacyclic : ∀ s, ¬ TransGen (Parent parents) s s) (leading all : Voting S)
    (crashes : List (Crash S)) : ∃ fuel, ∀ k, ∃ ret,
      extract (fuel + k) parents leading all crashes = some ret ∧
      (Antichain parents ret ↔ ¬ Clash parents leading crashes) := by
  have hrank := ranked_of_acyclic hacyclic
  have hn : ∀ s, {x | TransGen (Parent parents) x s}.ncard ≤ Nat.card S := fun s =>
    Set.ncard_le_card _
  refine ⟨Nat.card S + 1, fun k => ?_⟩
  have hfuel : Nat.card S < Nat.card S + 1 + k := by omega
  choose reach hreach hmem using reachableParents_spec hrank hn hfuel
  have hreached (l : List S) :
      l.mapM (reachableParents (Nat.card S + 1 + k) parents) = some (l.map reach) := by
    rw [show reachableParents _ parents = fun p => pure (reach p) from funext hreach]
    exact mapM_pure
  have hvote (l : List S) (hno : ¬ Clash parents leading crashes) : ∃ ret,
      some (lowest parents l) = some ret ∧
        (Antichain parents ret ↔ ¬ Clash parents leading crashes) :=
    ⟨_, rfl, iff_of_true (antichain_lowest l) hno⟩
  simp only [extract, removeParents_eq hrank hn hfuel, hreached,
    Option.bind_eq_bind, Option.bind_some, Option.pure_def]
  have hpick := mem_newSubsystems hmem (lowest parents (commonRepro crashes))
    (fromPaths parents crashes)
  split_ifs with hempty hnew hmany
  · refine hvote _ fun ⟨_, _, r, hr, _⟩ => ?_
    simp [isEmpty_iff.mp hempty, lowest] at hr
  · refine ⟨_, rfl, iff_of_true (fun s hs p hp => ?_) fun h => ?_⟩
    · exact antichain_lowest _ s ((hpick s).mp hs).1 p ((hpick p).mp hp).1
    · obtain ⟨e, he⟩ := exists_mem_of_length_pos hnew
      obtain ⟨hr, s, hs, hrs⟩ := (hpick e.1).mp (mem_map_of_mem he)
      exact h.apart e.1 hr s hs hrs
  · refine ⟨_, rfl, antichain_append_iff hmany fun r hr s hs hrs => hnew ?_⟩
    rw [← length_map Prod.fst]
    exact length_pos_of_mem ((hpick r).mpr ⟨hr, s, hs, hrs⟩)
  · exact hvote _ fun h => hmany h.many

/-- Two subsystems of which `true` is the parent. -/
def childOf (s : Bool) : List Bool := if s then [] else [true]

def allCounted : Voting Bool where
  mostVoted counts := [true, false].filter (· ∈ counts)
  mem_keys counts s h := by simpa using (mem_filter.mp h).2

theorem parent_childOf (s p : Bool) (h : TransGen (Parent childOf) s p) : p = true ∧ s = false := by
  induction h with
  | single h => revert h; cases s <;> simp [Parent, childOf]
  | tail _ h ih => revert h; rw [ih.1]; simp [Parent, childOf]

/-- Three reproducers in the parent and a stack in the child. -/
theorem extract_childOf : extract 3 childOf allCounted allCounted
    (replicate 3 ⟨some [false], some [true]⟩) = some [true, false] ∧
    TransGen (Parent childOf) false true :=
  ⟨by decide, .single (by simp [Parent, childOf])⟩

theorem extract_antichain_of_few : ∃ fuel, ∀ k, ∃ ret,
    extract (fuel + k) childOf allCounted allCounted [⟨some [false], some [true]⟩] = some ret ∧
      Antichain childOf ret := by
  obtain ⟨fuel, h⟩ := extract_antichain_iff childOf
    (fun s h => by have := parent_childOf s s h; grind) allCounted allCounted
    [⟨some [false], some [true]⟩]
  refine ⟨fuel, fun k => (h k).imp fun ret hret => ⟨hret.1, hret.2.mpr fun hc => ?_⟩⟩
  exact absurd hc.many (by decide)

end Brf.Subsystem
