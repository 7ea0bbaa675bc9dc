import Brf.Lib.Dict

/-! # Replaying a log of changes

A log lists changes of a dictionary. Replaying it keeps the last change of every key, so a
log may be compacted to a snapshot, and repeating changes that are still to come is harmless. -/

namespace Brf.Lib.Replay

open List

variable {κ ν : Type*} [DecidableEq κ]

/-- The value a key gets, or its removal. -/
structure Change (κ ν : Type*) where
  key : κ
  value : Option ν
deriving DecidableEq

def Change.apply (m : Dict κ ν) (c : Change κ ν) : Dict κ ν :=
  match c.value with
  | some v => m.insert c.key v
  | none => m.erase c.key

def replay (cs : List (Change κ ν)) (m : Dict κ ν) : Dict κ ν := cs.foldl Change.apply m

@[simp] theorem replay_nil (m : Dict κ ν) : replay [] m = m := rfl

@[simp] theorem replay_cons (c : Change κ ν) (cs : List (Change κ ν)) (m : Dict κ ν) :
    replay (c :: cs) m = replay cs (c.apply m) := rfl

theorem replay_append (cs ds : List (Change κ ν)) (m : Dict κ ν) :
    replay (cs ++ ds) m = replay ds (replay cs m) :=
  foldl_append

theorem Change.lookup_apply (c : Change κ ν) (m : Dict κ ν) (k : κ) :
    (c.apply m).lookup k = if k = c.key then c.value else m.lookup k := by
  cases h : c.value with
  | some v => simp only [Change.apply, h, Dict.lookup_insert_ite]
  | none => simp only [Change.apply, h, Dict.lookup_erase_ite]

/-- The last change of a key. -/
def last (k : κ) : List (Change κ ν) → Option (Option ν)
  | [] => none
  | c :: cs => (last k cs).or (if k = c.key then some c.value else none)

theorem lookup_replay (cs : List (Change κ ν)) (m : Dict κ ν) (k : κ) :
    (replay cs m).lookup k = (last k cs).getD (m.lookup k) := by
  induction cs generalizing m with
  | nil => rfl
  | cons c cs ih =>
    rw [replay_cons, ih, c.lookup_apply]
    cases h : last k cs with
    | some v => simp [last, h]
    | none =>
      simp only [last, h, Option.none_or, Option.getD_none]
      split <;> rfl

theorem last_append (k : κ) (cs ds : List (Change κ ν)) :
    last k (cs ++ ds) = (last k ds).or (last k cs) := by
  induction cs with
  | nil => simp [last]
  | cons c cs ih => simp [last, ih, Option.or_assoc]

theorem last_isSome (k : κ) (cs : List (Change κ ν)) :
    (last k cs).isSome ↔ ∃ c ∈ cs, c.key = k := by
  induction cs with
  | nil => simp [last]
  | cons c cs ih =>
    by_cases hk : k = c.key
    · simp [last, hk]
    · have hk' : c.key ≠ k := fun h => hk h.symm
      simp [last, hk, hk', ih]

variable {cs ds : List (Change κ ν)} {m : Dict κ ν}

/-- The replay of two logs with the same last changes gives the same map. -/
theorem replay_congr {m' : Dict κ ν} (hlast : ∀ k, last k cs = last k ds)
    (hm : m.toFinmap = m'.toFinmap) : (replay cs m).toFinmap = (replay ds m').toFinmap := by
  apply Dict.toFinmap_eq_of_lookup
  intro k
  rw [lookup_replay, lookup_replay, hlast, Dict.lookup_eq_of_toFinmap hm]

/-- Changes of keys that are changed again later leave no trace. -/
theorem replay_superseded (h : ∀ c ∈ cs, ∃ d ∈ ds, d.key = c.key)
    (m : Dict κ ν) : (replay (cs ++ ds) m).toFinmap = (replay ds m).toFinmap := by
  refine replay_congr (fun k => ?_) rfl
  rw [last_append]
  cases hd : last k ds with
  | some v => rfl
  | none =>
    cases hc : last k cs with
    | none => rfl
    | some v =>
      obtain ⟨c, hmem, rfl⟩ := (last_isSome k cs).mp (by simp [hc])
      have hsome := (last_isSome c.key ds).mpr (h c hmem)
      simp [hd] at hsome

/-- The entries of a dictionary as changes. -/
def snapshot (l : List (κ × ν)) : List (Change κ ν) := l.map fun e => ⟨e.1, some e.2⟩

variable {l : List (κ × ν)}

theorem last_snapshot (k : κ) (hnd : (l.map Prod.fst).Nodup) (v : ν)
    (h : (k, v) ∈ l) : last k (snapshot l) = some (some v) := by
  induction l with
  | nil => cases h
  | cons e l ih =>
    obtain ⟨hnot, hnd⟩ := nodup_cons.mp hnd
    obtain rfl | hmem := mem_cons.mp h
    · have hnone : last k (snapshot l) = none := by
        rw [← Option.not_isSome_iff_eq_none, last_isSome]
        intro hex
        obtain ⟨c, hc, hkey⟩ := hex
        obtain ⟨e, he, rfl⟩ := mem_map.mp hc
        exact hnot (mem_map.mpr ⟨e, he, hkey⟩)
      simp only [snapshot] at hnone
      simp [snapshot, last, hnone]
    · have hrec := ih hnd hmem
      simp only [snapshot] at hrec
      simp [snapshot, last, hrec]

/-- A snapshot taken in any order replays to the dictionary. -/
theorem replay_snapshot (h : l.Perm m.toPairs) : (replay (snapshot l) ∅).toFinmap = m.toFinmap := by
  apply Dict.toFinmap_eq_of_lookup
  intro k
  have hnd : (l.map Prod.fst).Nodup :=
    (h.map Prod.fst).nodup_iff.mpr m.nodup_map_fst_toPairs
  rw [lookup_replay]
  cases hk : m.lookup k with
  | some v =>
    have hmem : (k, v) ∈ l := h.mem_iff.mpr (Dict.mem_toPairs.mpr hk)
    rw [last_snapshot k hnd v hmem]
    rfl
  | none =>
    have hnone : last k (snapshot l) = none := by
      rw [← Option.not_isSome_iff_eq_none, last_isSome]
      intro hex
      obtain ⟨c, hc, hkey⟩ := hex
      obtain ⟨⟨a, v⟩, he, rfl⟩ := mem_map.mp hc
      have hval := Dict.mem_toPairs.mp (h.mem_iff.mp he)
      simp only at hkey
      rw [hkey, hk] at hval
      cases hval
    rw [hnone]
    rfl

end Brf.Lib.Replay
