import Brf.Lib.Fold
import Brf.Lib.Reduction
import Brf.Model.Subsystems
import Mathlib.Algebra.Order.BigOperators.Group.List
import Mathlib.Algebra.Order.Group.Nat

/-! # The parent relation

A parent counts more paths than the subsystem, so no loop can arise. The reduction only drops
parents that are reachable through others. -/

namespace Brf.Subsystem

open Brf.Lib List Relation Function

variable {S : Type} {parents : S → List S} {rank : S → ℕ} {n fuel : ℕ}

/-- `p` is a direct parent of `s`. -/
def Parent (parents : S → List S) (s p : S) : Prop := p ∈ parents s

open Classical in
/-- The list without the parents of its members. -/
noncomputable def lowest (parents : S → List S) (l : List S) : List S :=
  l.filter fun q => decide (∀ p ∈ l, ¬ TransGen (Parent parents) p q)

theorem mem_lowest {l : List S} {q : S} :
    q ∈ lowest parents l ↔ q ∈ l ∧ ∀ p ∈ l, ¬ TransGen (Parent parents) p q := by
  simp [lowest]

variable [DecidableEq S]

/-- A search at `node` has come behind the parents `l`. -/
structure Visits (parents : S → List S) (node : S) (ret l ret' : List S) : Prop where
  old : ret ⊆ ret'
  here : l ⊆ ret'
  closed : ∀ x ∈ ret', x ∈ ret ∨ TransGen (Parent parents) node x ∧ parents x ⊆ ret'

section

variable (hrank : Ranked rank (Parent parents)) (hn : ∀ s, rank s ≤ n)

include hrank hn

theorem dfs_visits {root node : S} (ret : List S) (hroot : rank root ≤ rank node)
    (hfuel : n < fuel + rank node) : ∃ ret', dfs parents root fuel node ret = some ret' ∧
      Visits parents node ret (parents node) ret' := by
  induction fuel generalizing node ret with
  | zero => exact absurd (hn node) (by omega)
  | succ fuel ih =>
    refine foldlM_prefix (Visits parents node ret) ⟨Subset.refl _, nil_subset _, fun x => .inl⟩ ?_
    intro done p rest ret1 hl hvis
    have hp : Parent parents node p := by simp [Parent, hl]
    have hlt := hrank _ _ hp
    rw [if_neg (by rintro rfl; omega)]
    by_cases hmem : p ∈ ret1
    · exact ⟨ret1, if_pos hmem, hvis.old, by simp [hvis.here, hmem], hvis.closed⟩
    obtain ⟨ret2, hdfs, hvis2⟩ := ih (ret1 ++ [p]) (hroot.trans hlt.le) (by omega)
    obtain ⟨hold, hpold⟩ := append_subset.mp hvis2.old
    refine ⟨ret2, (if_neg hmem).trans hdfs, Subset.trans hvis.old hold,
      append_subset.mpr ⟨Subset.trans hvis.here hold, hpold⟩, ?_⟩
    intro x hx
    rcases hvis2.closed x hx with hx1 | ⟨hpx, hsub⟩
    · rcases mem_append.mp hx1 with hx1 | hxp
      · exact (hvis.closed x hx1).imp_right fun h => ⟨h.1, Subset.trans h.2 hold⟩
      · rw [mem_singleton.mp hxp]
        exact .inr ⟨.single hp, hvis2.here⟩
    · exact .inr ⟨.head hp hpx, hsub⟩

theorem reachableParents_spec (hfuel : n < fuel) (s : S) : ∃ ret, reachableParents fuel parents s =
    some ret ∧ ∀ x, x ∈ ret ↔ TransGen (Parent parents) s x := by
  obtain ⟨ret, hdfs, hvis⟩ := dfs_visits hrank hn [] (Nat.le_refl (rank s))
    (Nat.lt_add_right _ hfuel)
  have hclosed : ∀ x ∈ ret, TransGen (Parent parents) s x ∧ parents x ⊆ ret := fun x hx =>
    (hvis.closed x hx).resolve_left not_mem_nil
  refine ⟨ret, hdfs, fun x => ⟨fun hx => (hclosed x hx).1, fun hx => ?_⟩⟩
  induction hx with
  | single hp => exact hvis.here hp
  | tail _ hp ih => exact (hclosed _ ih).2 hp

theorem removeParents_eq (hfuel : n < fuel) (l : List S) :
    removeParents fuel parents l = some (lowest parents l) := by
  choose reach hreach hmem using reachableParents_spec hrank hn hfuel
  have hsome : reachableParents fuel parents = fun p => pure (reach p) := funext hreach
  rw [removeParents, hsome, mapM_pure]
  refine congrArg some (filter_congr fun q _ => decide_eq_decide.mpr ?_)
  simp [hmem]

theorem reduceParents_spec (hfuel : n < fuel) (s : S) : ∃ parents', reduceParents fuel parents s =
    some parents' ∧ (∀ a, a ≠ s → ∀ p, Parent parents' a p ↔ Parent parents a p) ∧
    ∀ q, Parent parents' s q ↔ Parent parents s q ∧ ∀ p, Parent parents s p →
    ¬ TransGen (Parent parents) p q := by
  have hstep : reduceParents fuel parents s =
      (removeParents fuel parents (parents s)).map (update parents s) := by
    simp [reduceParents, removeParents]
  rw [hstep, removeParents_eq hrank hn hfuel]
  refine ⟨_, rfl, fun a ha p => ?_, fun q => ?_⟩
  · rw [Parent, update_of_ne ha, Parent]
  · rw [Parent, update_self, mem_lowest]
    rfl

end

/-- The parents in front of and behind the reduction of the subsystems in `list`. -/
structure Reduced (mid : S → List S) (list : List S) (parents : S → List S) : Prop where
  direct : ∀ s p, Parent parents s p → Parent mid s p
  reachable : ∀ s t, TransGen (Parent parents) s t ↔ TransGen (Parent mid) s t
  reduced : ∀ s ∈ list, ∀ p, Parent parents s p → ∀ q, Parent parents s q →
    ¬ TransGen (Parent parents) p q

theorem transitiveReduction_reduced (hrank : Ranked rank (Parent parents)) (hn : ∀ s, rank s ≤ n)
    (hfuel : n < fuel) (list : List S) : ∃ parents', transitiveReduction fuel list parents =
    some parents' ∧ Reduced parents list parents' := by
  refine foldlM_prefix (Reduced parents) ⟨fun _ _ => id, fun _ _ => .rfl, by simp⟩ ?_
  intro done s rest parents1 hl hred
  have hrank1 : Ranked rank (Parent parents1) := fun a b h => hrank a b (hred.direct a b h)
  obtain ⟨parents2, hstep, hother, hs⟩ := reduceParents_spec hrank1 hn hfuel s
  have hreach := hrank1.transGen_reduce hother hs
  have hdirect : ∀ a p, Parent parents2 a p → Parent parents1 a p := by
    intro a p hp
    by_cases ha : a = s
    · subst ha
      exact ((hs p).mp hp).1
    · exact (hother a ha p).mp hp
  refine ⟨parents2, hstep, fun a p hp => hred.direct a p (hdirect a p hp),
    fun a b => (hreach a b).trans (hred.reachable a b), ?_⟩
  intro a ha p hp q hq
  rw [hreach]
  rcases mem_append.mp ha with ha | ha
  · exact hred.reduced a ha p (hdirect a p hp) q (hdirect a q hq)
  · obtain rfl := mem_singleton.mp ha
    exact ((hs q).mp hq).2 p (hdirect a p hp)

namespace CoincidenceMatrix

variable {cm : CoincidenceMatrix S}

/-- Subsystems with an entry have been counted. -/
def Counted (cm : CoincidenceMatrix S) : Prop :=
  ∀ a b, cm.lookup (a, b) ≠ none → cm.count a ≠ 0

theorem counted_foldl_inc (a : S) {items : List S} (h : ∀ x y, x ≠ a → cm.lookup (x, y) ≠ none →
    cm.count x ≠ 0) (ha : a ∈ items ∨ cm.count a ≠ 0) : Counted (items.foldl (inc · a) cm) := by
  induction items generalizing cm with
  | nil =>
    intro x y hxy
    by_cases hx : x = a
    · exact hx ▸ ha.resolve_left not_mem_nil
    · exact h x y hx hxy
  | cons b items ih =>
    have hlookup : ∀ x y, x ≠ a → (cm.inc a b).lookup (x, y) = cm.lookup (x, y) := by
      intro x y hx
      rw [inc, Dict.lookup_insert_ite, if_neg (by simp [hx])]
    refine ih (fun x y hx hxy => ?_) ?_
    · rw [hlookup x y hx] at hxy
      rw [count, get, hlookup x x hx]
      exact h x y hx hxy
    · by_cases hb : b = a
      · subst hb
        exact .inr (by simp [count, get, inc])
      · have hba : (a, a) ≠ (a, b) := by simpa using Ne.symm hb
        have hcount : (cm.inc a b).count a = cm.count a := by
          rw [count, get, inc, Dict.lookup_insert_ite, if_neg hba]
          rfl
        exact ha.imp (mem_of_ne_of_mem (Ne.symm hb)) (hcount ▸ ·)

theorem counted_recordAll (calls : List (List S)) : (recordAll calls).Counted := by
  refine foldl_prefix (fun _ => Counted) (fun a b h => absurd rfl h) ?_
  intro _ items _ cm _ hcm
  refine foldl_prefix (fun _ => Counted) hcm ?_
  intro done a rest cm hl hcm
  exact counted_foldl_inc a (fun x y _ => hcm x y) (.inl (by simp [hl]))

theorem exists_count_le (cm : CoincidenceMatrix S) : ∃ n, ∀ a, cm.count a ≤ n := by
  refine ⟨(cm.toPairs.map Prod.snd).sum, fun a => ?_⟩
  unfold count get
  cases h : cm.lookup (a, a) with
  | none => exact Nat.zero_le _
  | some v => exact le_sum_of_mem (mem_map_of_mem (Dict.mem_toPairs.mpr h))

theorem addParents_ranked (hcm : cm.Counted) (hn : ∀ a, cm.count a ≤ n) (hfuel : n < fuel)
    (order : Shuffle ((S × S) × ℕ)) (list : List S) :
    ∃ parents, addParents fuel cm order list (fun _ => []) = some parents ∧
      Ranked cm.count (Parent parents) := by
  refine foldlM_prefix (fun _ parents => Ranked cm.count (Parent parents))
    (fun a b h => absurd h not_mem_nil) ?_
  rintro done ⟨⟨a, b⟩, v⟩ rest parents hl hrank
  have hpair : ((a, b), v) ∈ cm.nonEmptyPairs order := by simp [hl]
  have ha : cm.count a ≠ 0 := by
    refine hcm a b ?_
    rw [nonEmptyPairs, mem_filter, Shuffle.mem_run, Dict.mem_toPairs] at hpair
    simp [hpair.1]
  simp only [addParent, if_neg ha]
  split
  · exact ⟨parents, rfl, hrank⟩
  split
  · rename_i hcount
    have hrank' : Ranked cm.count (Parent (update parents a (parents a ++ [b]))) := by
      intro s p hp
      by_cases hs : s = a
      · subst hs
        simp only [Parent, update_self, mem_append, mem_singleton] at hp
        rcases hp with hp | rfl
        · exact hrank s p hp
        · exact hcount.2
      · rw [Parent, update_of_ne hs] at hp
        exact hrank s p hp
    obtain ⟨ret, hret, -⟩ := reachableParents_spec hrank' hn hfuel a
    exact ⟨_, by simp [hret], hrank'⟩
  · exact ⟨parents, rfl, hrank⟩

end CoincidenceMatrix

open CoincidenceMatrix in
/-- Given enough fuel, no search finds a loop. The result has the reachable parents that were
there in front of the reduction, and no shortcuts. -/
theorem setParents_reduced (calls : List (List S)) (order : Shuffle ((S × S) × ℕ)) (list : List S) :
    ∃ fuel, ∀ k, ∃ mid parents, addParents (fuel + k) (recordAll calls) order list (fun _ => []) =
    some mid ∧ setParents (fuel + k) (recordAll calls) order list (fun _ => []) = some parents ∧
    (∀ s, ¬ TransGen (Parent mid) s s) ∧ Reduced mid list parents := by
  obtain ⟨n, hn⟩ := exists_count_le (recordAll calls)
  refine ⟨n + 1, fun k => ?_⟩
  have hfuel : n < n + 1 + k := by omega
  obtain ⟨mid, hmid, hrank⟩ := addParents_ranked (counted_recordAll calls) hn hfuel order list
  obtain ⟨parents, hpar, hred⟩ := transitiveReduction_reduced hrank hn hfuel list
  exact ⟨mid, parents, hmid, by rw [setParents, hmid]; exact hpar, hrank.acyclic, hred⟩

end Brf.Subsystem
