import Mathlib.Data.Finmap
import Mathlib.Data.Nat.Notation

/-! # Dictionaries

Finite maps as association lists without repeated keys. Two of them are the same map when
their `toFinmap` agree, and a loop over one visits the entries in any order. -/

namespace Brf.Lib

open List AList

abbrev Dict (κ ν : Type*) := AList fun _ : κ => ν

namespace Dict

variable {κ ν : Type*}

def toPairs (m : Dict κ ν) : List (κ × ν) := m.entries.map fun e => (e.1, e.2)

@[simp] theorem toPairs_empty : toPairs (∅ : Dict κ ν) = [] := rfl

theorem map_fst_toPairs (m : Dict κ ν) : m.toPairs.map Prod.fst = m.keys := by
  simp [toPairs, AList.keys, List.keys, Function.comp_def]

theorem nodup_map_fst_toPairs (m : Dict κ ν) : (m.toPairs.map Prod.fst).Nodup := by
  rw [map_fst_toPairs]
  exact m.keys_nodup

variable [DecidableEq κ]

theorem lookup_insert_ite (m : Dict κ ν) (k a : κ) (v : ν) :
    (m.insert k v).lookup a = if a = k then some v else m.lookup a := by
  split
  · subst a
    exact lookup_insert m
  · rename_i h
    exact lookup_insert_ne h

theorem lookup_erase_ite (m : Dict κ ν) (k a : κ) :
    (m.erase k).lookup a = if a = k then none else m.lookup a := by
  split
  · subst a
    exact lookup_erase k m
  · rename_i h
    exact lookup_erase_ne h

variable {m : Dict κ ν} {k : κ} {v : ν}

theorem mem_toPairs : (k, v) ∈ m.toPairs ↔ m.lookup k = some v := by
  constructor
  · intro h
    obtain ⟨e, he, heq⟩ := mem_map.mp h
    cases heq
    exact mem_lookup_iff.mpr he
  · intro h
    exact mem_map.mpr ⟨⟨k, v⟩, mem_lookup_iff.mp h, rfl⟩

variable {m' : Dict κ ν}

/-- Two dictionaries with the same answers are the same map. -/
theorem toFinmap_eq_of_lookup (h : ∀ k, m.lookup k = m'.lookup k) : m.toFinmap = m'.toFinmap :=
  Finmap.ext_lookup fun k => by
    rw [Finmap.lookup_toFinmap]
    exact h k

theorem lookup_eq_of_toFinmap (h : m.toFinmap = m'.toFinmap) (k : κ) :
    m.lookup k = m'.lookup k := by
  have := congrArg (Finmap.lookup k) h
  rwa [Finmap.lookup_toFinmap, Finmap.lookup_toFinmap] at this

/-! ### Loops over a dictionary -/

/-- The entries that pass a test. -/
def select (keep : κ → ν → Bool) (m : Dict κ ν) : Dict κ ν :=
  m.toPairs.foldl (fun r e => if keep e.1 e.2 then r.insert e.1 e.2 else r) ∅

theorem lookup_foldl_insertIf (keep : κ → ν → Bool) {l : List (κ × ν)}
    (hnd : (l.map Prod.fst).Nodup) (r : Dict κ ν) :
    (l.foldl (fun r e => if keep e.1 e.2 then r.insert e.1 e.2 else r) r).lookup k = some v ↔
      (k, v) ∈ l ∧ keep k v ∨ r.lookup k = some v ∧ ∀ u, (k, u) ∈ l → keep k u = false := by
  induction l generalizing r with
  | nil => simp
  | cons e l ih =>
    obtain ⟨a, u⟩ := e
    rw [map_cons, nodup_cons] at hnd
    by_cases hk : k = a
    · cases hkeep : keep a u with
      | true => grind [lookup_insert]
      | false => grind
    · cases hkeep : keep a u with
      | true => grind [lookup_insert_ite]
      | false => grind

theorem lookup_select {keep : κ → ν → Bool} :
    (m.select keep).lookup k = some v ↔ m.lookup k = some v ∧ keep k v := by
  rw [select, lookup_foldl_insertIf keep m.nodup_map_fst_toPairs]
  simp [mem_toPairs]

/-- Every entry changed by a function. -/
def mapVals {μ : Type*} (f : κ → ν → μ) (m : Dict κ ν) : Dict κ μ :=
  ⟨m.entries.map fun e => ⟨e.1, f e.1 e.2⟩, by
    rw [List.NodupKeys, List.keys, map_map]
    exact m.nodupKeys⟩

theorem lookup_mapVals {μ : Type*} (f : κ → ν → μ) (m : Dict κ ν) (k : κ) :
    (m.mapVals f).lookup k = (m.lookup k).map (f k) := by
  obtain ⟨l, hl⟩ := m
  simp only [mapVals, AList.lookup]
  clear hl
  induction l with
  | nil => rfl
  | cons e l ih =>
    by_cases hk : e.1 = k
    · subst hk
      rw [map_cons, dlookup_cons_eq, dlookup_cons_eq]
      rfl
    · have hk' : k ≠ (⟨e.1, f e.1 e.2⟩ : (_ : κ) × μ).1 := Ne.symm hk
      rw [map_cons, dlookup_cons_ne _ _ hk', ih, dlookup_cons_ne _ _ (Ne.symm hk)]

/-- A loop that puts the elements of a list under their keys keeps the last one of each key. -/
theorem lookup_foldl_insert {α : Type*} (f : α → κ) (g : α → ν) (l : List α) (k : κ) :
    (l.foldl (fun m a => m.insert (f a) (g a)) (∅ : Dict κ ν)).lookup k =
      ((l.filter fun a => f a = k).getLast?).map g := by
  induction l using List.reverseRecOn with
  | nil => rfl
  | append_singleton l a ih =>
    rw [foldl_append, foldl_cons, foldl_nil, lookup_insert_ite]
    by_cases hk : k = f a
    · simp [hk]
    · simp [hk, Ne.symm hk, ih]

/-- The dictionary of a list under the keys a function gives. -/
def indexBy (f : ν → κ) (l : List ν) : Dict κ ν := l.foldl (fun m v => m.insert (f v) v) ∅

theorem lookup_indexBy_append (f : ν → κ) (l : List ν) (v : ν) (k : κ) :
    (indexBy f (l ++ [v])).lookup k = if k = f v then some v else (indexBy f l).lookup k := by
  rw [indexBy, foldl_append]
  exact lookup_insert_ite _ _ _ _

variable {l : List ν} {f : ν → κ}

theorem mem_of_lookup_indexBy (h : (indexBy f l).lookup k = some v) : v ∈ l ∧ f v = k := by
  induction l using List.reverseRecOn with
  | nil => simp [indexBy] at h
  | append_singleton l u ih =>
    rw [lookup_indexBy_append] at h
    split at h
    · simp_all
    · simp [ih h]

/-- When no two values of the list have the same key, every value is found under its key. -/
theorem lookup_indexBy (hinj : ∀ u ∈ l, ∀ v ∈ l, f u = f v → u = v)
    (hv : v ∈ l) : (indexBy f l).lookup (f v) = some v := by
  induction l using List.reverseRecOn with
  | nil => simp at hv
  | append_singleton l u ih =>
    rw [lookup_indexBy_append]
    split
    · rename_i h
      rw [hinj v hv u (by simp) h]
    · rename_i h
      have hv' : v ∈ l := by
        rcases mem_append.mp hv with hv | hv
        · exact hv
        · exact absurd (by rw [mem_singleton.mp hv]) h
      exact ih (fun a ha b hb => hinj a (by simp [ha]) b (by simp [hb])) hv'

end Dict

/-- The order in which a loop over a dictionary visits its entries. -/
structure Shuffle (α : Type*) where
  run : List α → List α
  perm : ∀ l, (run l).Perm l

namespace Shuffle

variable {α : Type*}

def id : Shuffle α := ⟨fun l => l, fun l => List.Perm.refl l⟩

def reverse : Shuffle α := ⟨List.reverse, reverse_perm⟩

@[simp] theorem mem_run (o : Shuffle α) (l : List α) (a : α) : a ∈ o.run l ↔ a ∈ l :=
  (o.perm l).mem_iff

end Shuffle

end Brf.Lib
