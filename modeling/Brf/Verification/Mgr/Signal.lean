import Brf.Model.Signal

/-! # Signals as functions

A signal gives every element a rank: its priority, or `⊥`. Merging takes the higher rank,
splitting keeps every rank on one of the two sides, and minimization keeps for every element
an input of the highest rank. -/

namespace Brf.Signal

open Brf.Lib List Best Dict ContextPrio AList Prod

abbrev rank (s : Signal) (e : Elem) : WithBot Prio := Best.rank id s e

variable {s : Signal} {e : Elem} {p : Prio}

theorem rank_of_lookup (h : s.lookup e = some p) : s.rank e = p :=
  Best.rank_of_lookup h

theorem rank_of_lookup_none (h : s.lookup e = none) : s.rank e = ⊥ :=
  Best.rank_of_lookup_none h

theorem lookup_eq_of_rank_eq {s1 : Signal} (h : s.rank e = s1.rank e) :
    s.lookup e = s1.lookup e := by
  rw [rank, rank, Best.rank, Best.rank] at h
  cases hs : s.lookup e <;> cases hs1 : s1.lookup e <;> simp_all

theorem isEmpty_iff : s.isEmpty ↔ ∀ e, s.lookup e = none := by
  rw [isEmpty, List.isEmpty_iff]
  constructor
  · intro h e
    obtain ⟨l, hl⟩ := s
    obtain rfl : l = [] := h
    rfl
  · intro h
    refine eq_nil_iff_forall_not_mem.mpr fun x hx => ?_
    have := mem_lookup_iff.mpr hx
    simp [h x.1] at this

theorem rank_of_isEmpty (h : s.isEmpty) (e : Elem) : s.rank e = ⊥ :=
  rank_of_lookup_none (isEmpty_iff.mp h e)

theorem rank_merge (s s1 : Signal) (e : Elem) : (s.merge s1).rank e = s1.rank e ⊔ s.rank e := by
  rw [rank, merge, Best.rank_offerAll, Best.best_toPairs]

theorem rank_diff (s s1 : Signal) (e : Elem) :
    (s.diff s1).rank e = if s1.rank e ≤ s.rank e then ⊥ else s1.rank e := by
  have hselect : ∀ v, (s.diff s1).lookup e = some v ↔
      s1.lookup e = some v ∧ ¬ (v : WithBot Prio) ≤ s.rank e := by
    intro v
    rw [diff, lookup_select, rank, Best.rank]
    cases s.lookup e with
    | none | some => simp
  cases h : s1.lookup e with
  | none =>
    rw [rank_of_lookup_none h]
    refine rank_of_lookup_none (Option.eq_none_iff_forall_ne_some.mpr fun v hv => ?_)
    simp [h] at hselect
    exact hselect v hv
  | some v =>
    rw [rank_of_lookup h]
    split
    · rename_i hle
      refine rank_of_lookup_none (Option.eq_none_iff_forall_ne_some.mpr fun u hu => ?_)
      obtain ⟨hu, hlt⟩ := (hselect u).mp hu
      obtain rfl : v = u := by simpa [h] using hu
      exact hlt hle
    · rename_i hlt
      exact rank_of_lookup ((hselect v).mpr ⟨h, hlt⟩)

/-- To merge what is new in a signal is to merge the signal. -/
theorem rank_merge_diff (s s1 : Signal) (e : Elem) :
    (s.merge (s.diff s1)).rank e = s1.rank e ⊔ s.rank e := by
  rw [rank_merge, rank_diff]
  split
  · rename_i h
    rw [max_eq_right h, max_bot_left]
  · rfl

variable {c : Signal} {n : ℤ} {l : List (Elem × Prio)}

theorem splitLoop_sides (hl : ∀ e p, (e, p) ∈ l → s.lookup e = some p ∧ c.lookup e = none)
    (hnd : (l.map fst).Nodup) (a : Elem) :
    let r := splitLoop c s n l
    r.1.lookup a = c.lookup a ∧ r.2.lookup a = s.lookup a ∨
      c.lookup a = none ∧ r.1.lookup a = s.lookup a ∧ r.2.lookup a = none := by
  induction l generalizing c s n with
  | nil => exact .inl ⟨rfl, rfl⟩
  | cons x l ih =>
    obtain ⟨e, p⟩ := x
    obtain ⟨hs, hc⟩ := hl e p mem_cons_self
    rw [map_cons, nodup_cons] at hnd
    have hstop : (c.insert e p).lookup a = c.lookup a ∧ (s.erase e).lookup a = s.lookup a ∨
        c.lookup a = none ∧ (c.insert e p).lookup a = s.lookup a ∧ (s.erase e).lookup a = none := by
      by_cases ha : a = e
      · subst a
        simp [hs, hc]
      · simp [ha]
    rw [splitLoop]
    split
    · exact hstop
    · have hrest : ∀ e' p', (e', p') ∈ l →
          (s.erase e).lookup e' = some p' ∧ (c.insert e p).lookup e' = none := by
        intro e' p' he'
        have hne : e' ≠ e := by
          rintro rfl
          exact hnd.1 (mem_map.mpr ⟨_, he', rfl⟩)
        rw [lookup_insert_ite, lookup_erase_ite, if_neg hne, if_neg hne]
        exact hl e' p' (mem_cons_of_mem _ he')
      grind

theorem split_sides (s : Signal) (n : ℕ) (o : Shuffle (Elem × Prio)) (a : Elem) :
    (s.split n o).1.lookup a = none ∧ (s.split n o).2.lookup a = s.lookup a ∨
      (s.split n o).1.lookup a = s.lookup a ∧ (s.split n o).2.lookup a = none := by
  have h := splitLoop_sides (c := ∅) (n := n) (l := o.run s.toPairs)
    (fun e p he => ⟨mem_toPairs.mp ((o.mem_run _ _).mp he), rfl⟩)
    (((o.perm _).map fst).nodup_iff.mpr s.nodup_map_fst_toPairs) a
  rcases h with h | h
  · exact .inl h
  · exact .inr h.2

theorem rank_split (s : Signal) (n : ℕ) (o : Shuffle (Elem × Prio)) (a : Elem) :
    (s.split n o).1.rank a ⊔ (s.split n o).2.rank a = s.rank a := by
  rcases split_sides s n o a with ⟨h1, h2⟩ | ⟨h1, h2⟩
  · rw [rank_of_lookup_none h1, max_bot_left]
    exact Best.rank_congr h2
  · rw [rank_of_lookup_none h2, max_bot_right]
    exact Best.rank_congr h1

theorem length_splitLoop (hl : ∀ x ∈ l, x.1 ∈ s) (hnd : (l.map fst).Nodup) :
    (splitLoop c s n l).2.keys.length =
      s.keys.length - if 0 < n then min n.toNat l.length else l.length := by
  induction l generalizing c s n with
  | nil => simp [splitLoop]
  | cons x l ih =>
    obtain ⟨e, p⟩ := x
    rw [map_cons, nodup_cons] at hnd
    have hlen : (s.erase e).keys.length = s.keys.length - 1 := by
      rw [keys_erase, length_erase_of_mem]
      exact mem_keys.mp (hl (e, p) mem_cons_self)
    rw [splitLoop, length_cons]
    split
    · rw [hlen]
      split <;> omega
    · have hrest : ∀ x ∈ l, x.1 ∈ s.erase e := by
        intro x hx
        have hne : x.1 ≠ e := fun h => hnd.1 (mem_map.mpr ⟨x, hx, h⟩)
        exact mem_erase.mpr ⟨hne, hl x (mem_cons_of_mem _ hx)⟩
      rw [ih hrest hnd.2]
      split <;> split <;> omega

/-- The counter of a split into no elements never gets to zero, so that nothing stays. -/
theorem length_split (s : Signal) (n : ℕ) (o : Shuffle (Elem × Prio)) :
    (s.split n o).2.keys.length = if n = 0 then 0 else s.keys.length - n := by
  have hlen : (o.run s.toPairs).length = s.keys.length := by
    rw [(o.perm _).length_eq, ← map_fst_toPairs, length_map]
  have h := length_splitLoop (c := ∅) (n := n) (l := o.run s.toPairs)
    (fun x hx => lookup_isSome.mp (by rw [mem_toPairs.mp ((o.mem_run _ _).mp hx)]; rfl))
    (((o.perm _).map fst).nodup_iff.mpr s.nodup_map_fst_toPairs)
  rw [split, h]
  split <;> split <;> omega

theorem rank_of_length_keys (h : s.keys.length = 0) (e : Elem) : s.rank e = ⊥ := by
  refine rank_of_lookup_none (AList.lookup_eq_none.mpr fun he => ?_)
  have := AList.mem_keys.mp he
  rw [eq_nil_of_length_eq_zero h] at this
  simp at this

theorem deserialize_serialize (s : Signal) (o : Shuffle (Elem × Prio)) :
    ∃ s', deserialize (s.serialize o) = some s' ∧ ∀ e, s'.lookup e = s.lookup e := by
  have hzip : ((o.run s.toPairs).map fst).zip ((o.run s.toPairs).map snd) =
      o.run s.toPairs := by
    rw [zip_map', map_id'']
    exact fun _ => rfl
  refine ⟨_, by rw [deserialize, serialize, if_neg (by simp)], fun e => ?_⟩
  simp only [hzip]
  have hnd : ((o.run s.toPairs).map fst).Nodup :=
    ((o.perm _).map fst).nodup_iff.mpr s.nodup_map_fst_toPairs
  have h := fun v => lookup_foldl_insertIf (fun _ _ => true) hnd (∅ : Signal) (k := e) (v := v)
  refine Option.ext fun v => ?_
  simpa [mem_toPairs] using h v

section

variable {α : Type} {covered : Dict Elem ContextPrio} {i : ℕ} {corpus : List (Signal × α)}

theorem rank_coveredLoop_mono (e : Elem) :
    Best.rank prio covered e ≤ Best.rank prio (coveredLoop covered i corpus) e := by
  induction corpus generalizing covered i with
  | nil => exact le_rfl
  | cons inp corpus ih =>
    refine le_trans ?_ ih
    rw [rank_offerAll]
    exact le_max_right _ _

theorem rank_le_coveredLoop {a : α} (h : (s, a) ∈ corpus) (e : Elem) :
    s.rank e ≤ Best.rank prio (coveredLoop covered i corpus) e := by
  induction corpus generalizing covered i with
  | nil => simp at h
  | cons inp corpus ih =>
    rcases mem_cons.mp h with rfl | h
    · rw [coveredLoop]
      refine le_trans ?_ (rank_coveredLoop_mono e)
      rw [rank_offerAll]
      refine le_trans ?_ (le_max_left _ _)
      rw [rank, ← best_toPairs]
      refine best_le_iff.mpr fun p hp => ?_
      have hmem : (e, (⟨p, i⟩ : ContextPrio)) ∈ s.toPairs.map fun x => (x.1, ⟨x.2, i⟩) :=
        mem_map.mpr ⟨(e, p), hp, rfl⟩
      change ((⟨p, i⟩ : ContextPrio).prio : WithBot Prio) ≤ _
      exact le_best hmem
    · exact ih h

/-- What covers an element is the priority it has in the input of that index. -/
theorem lookup_coveredLoop {cp : ContextPrio}
    (h : (coveredLoop covered i corpus).lookup e = some cp) : covered.lookup e = some cp ∨
    ∃ j inp, corpus[j]? = some inp ∧ cp.idx = i + j ∧ inp.1.lookup e = some cp.prio := by
  induction corpus generalizing covered i with
  | nil => exact .inl h
  | cons inp corpus ih =>
    rcases ih h with h | ⟨j, inp', hj, hidx, hp⟩
    · rcases lookup_offerAll h with h | h
      · exact .inl h
      · obtain ⟨x, hx, heq⟩ := mem_map.mp h
        cases heq
        exact .inr ⟨0, inp, rfl, rfl, mem_toPairs.mp hx⟩
    · exact .inr ⟨j + 1, inp', hj, by omega, hp⟩

end

theorem mem_of_mem_minimize {α : Type} {corpus : List (Signal × α)} {o : Shuffle ℕ} {a : α}
    (h : a ∈ minimize corpus o) : ∃ s, (s, a) ∈ corpus := by
  obtain ⟨idx, _, hidx⟩ := mem_filterMap.mp h
  obtain ⟨inp, hinp, rfl⟩ := Option.map_eq_some_iff.mp hidx
  exact ⟨inp.1, mem_of_getElem? hinp⟩

/-- Minimization loses no element: an input that is kept has it with no lower priority. -/
theorem exists_mem_minimize {α : Type} {corpus : List (Signal × α)} {a : α}
    (h : (s, a) ∈ corpus) (o : Shuffle ℕ) (hp : s.lookup e = some p) :
    ∃ s' a' q, (s', a') ∈ corpus ∧ a' ∈ minimize corpus o ∧ s'.lookup e = some q ∧ p ≤ q := by
  have hle : s.rank e ≤ Best.rank prio (coveredLoop ∅ 0 corpus) e :=
    rank_le_coveredLoop h e
  rw [rank_of_lookup hp] at hle
  obtain ⟨cp, hcp, hpq⟩ := coe_le_rank.mp hle
  rcases lookup_coveredLoop hcp with hemp | ⟨j, inp, hj, hidx, hq⟩
  · simp at hemp
  refine ⟨inp.1, inp.2, cp.prio, mem_of_getElem? hj, ?_, hq, hpq⟩
  refine mem_filterMap.mpr ⟨j, ?_, by simp [hj]⟩
  rw [Shuffle.mem_run, mem_dedup, mem_map]
  exact ⟨(e, cp), mem_toPairs.mpr hcp, by simpa using hidx⟩

end Brf.Signal
