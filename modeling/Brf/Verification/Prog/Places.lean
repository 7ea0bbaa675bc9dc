import Brf.Model.LenTargets
import Brf.Verification.Prog.Visits

/-! # Places in the tree of a call

Every argument of a call stands inside structs and unions, which the checker of length targets
knows as its parents. The code keeps less of them: `parentsMap` leads from an argument to a struct
only if the argument is one of its fields, pointers apart. -/

namespace Brf

open List Option Arg

def Typ.isStruct : Typ → Bool
  | .struct .. => true
  | _ => false

/-- A struct or union around an argument. It is `direct` if, pointers apart, it is itself a field
of a struct or an argument of the call. -/
structure Frame where
  path : List ℕ
  arg : Arg
  direct : Bool

/-- An argument with the field it belongs to and the frames around it, innermost first. -/
structure Location where
  path : List ℕ
  arg : Arg
  site : FieldSite
  parents : List Frame
  direct : Bool

def Location.frame (l : Location) : Frame := ⟨l.path, l.arg, l.direct⟩

def Location.child (t : Target) (l : Location) (i : ℕ) : Option Location :=
  match l.arg with
  | .pointer p res =>
    if i = 0 then
      some ⟨l.path ++ [i], res, l.site, l.parents, l.direct && (t.type p.ref).isPtr⟩
    else none
  | .union c opt index =>
    if i = 0 then some ⟨l.path ++ [i], opt, ⟨some c.ref, index⟩, l.frame :: l.parents, false⟩
    else none
  | .group c elems =>
    elems[i]?.map fun a =>
      if (t.type c.ref).isStruct then
        ⟨l.path ++ [i], a, ⟨some c.ref, i⟩, l.frame :: l.parents, true⟩
      else ⟨l.path ++ [i], a, l.site, l.parents, false⟩
  | _ => none

/-- Places of the `n`-th call `c`. -/
inductive Located (t : Target) (n : ℕ) (c : Call) : Location → Prop
  | arg {i : ℕ} {a : Arg} (h : c.args[i]? = some a) :
      Located t n c ⟨[n, i], a, ⟨none, i⟩, [], true⟩
  | child {l l' : Location} {i : ℕ} (hl : Located t n c l) (h : l.child t i = some l') :
      Located t n c l'

/-- The struct that `parentsMap` leads to. -/
def Location.parent (l : Location) : Option Frame := if l.direct then l.parents.head? else none

/-- The frames that are fields of one another, beginning with one that is `direct` or not. -/
def enclosing : Bool → List Frame → List Frame
  | true, f :: fs => f :: enclosing f.direct fs
  | _, _ => []

/-- The structs around an argument that `parentsMap` leads to in turn. -/
def Location.enclosing (l : Location) : List Frame := Brf.enclosing l.direct l.parents

section

variable {t : Target} {n : ℕ} {c : Call} {l l' : Location} {i : ℕ}

theorem Location.child_cases (h : l.child t i = some l') :
    (∃ p res, l.arg = .pointer p res ∧ i = 0 ∧
      l' = ⟨l.path ++ [i], res, l.site, l.parents, l.direct && (t.type p.ref).isPtr⟩) ∨
    (∃ u opt index, l.arg = .union u opt index ∧ i = 0 ∧
      l' = ⟨l.path ++ [i], opt, ⟨some u.ref, index⟩, l.frame :: l.parents, false⟩) ∨
    (∃ g inner a, l.arg = .group g inner ∧ inner[i]? = some a ∧ (t.type g.ref).isStruct ∧
      l' = ⟨l.path ++ [i], a, ⟨some g.ref, i⟩, l.frame :: l.parents, true⟩) ∨
    ∃ g inner a, l.arg = .group g inner ∧ inner[i]? = some a ∧ (t.type g.ref).isStruct = false ∧
      l' = ⟨l.path ++ [i], a, l.site, l.parents, false⟩ := by
  unfold Location.child at h
  split at h
  · rename_i p res harg
    split at h
    · exact .inl ⟨p, res, harg, ‹_›, (some.inj h).symm⟩
    · cases h
  · rename_i u opt index harg
    split at h
    · exact .inr (.inl ⟨u, opt, index, harg, ‹_›, (some.inj h).symm⟩)
    · cases h
  · rename_i g inner harg
    obtain ⟨a, ha, rfl⟩ := map_eq_some_iff.mp h
    by_cases hs : (t.type g.ref).isStruct
    · exact .inr (.inr (.inl ⟨g, inner, a, harg, ha, hs, by rw [if_pos hs]⟩))
    · exact .inr (.inr (.inr ⟨g, inner, a, harg, ha, by simpa using hs, by rw [if_neg hs]⟩))
  · cases h

theorem Location.child_path (h : l.child t i = some l') : l'.path = l.path ++ [i] := by
  rcases Location.child_cases h with ⟨_, _, _, _, rfl⟩ | ⟨_, _, _, _, _, rfl⟩ |
    ⟨_, _, _, _, _, _, rfl⟩ | ⟨_, _, _, _, _, _, rfl⟩ <;> rfl

/-- A step into a struct or a union adds a frame, any other step keeps the frames. -/
theorem Location.child_parents (h : l.child t i = some l') :
    l'.parents = l.parents ∨ l'.parents = l.frame :: l.parents := by
  rcases Location.child_cases h with ⟨_, _, _, _, rfl⟩ | ⟨_, _, _, _, _, rfl⟩ |
    ⟨_, _, _, _, _, _, rfl⟩ | ⟨_, _, _, _, _, _, rfl⟩ <;> simp

theorem Located.two_le (h : Located t n c l) : 2 ≤ l.path.length := by
  induction h with
  | arg => simp
  | child _ h ih =>
    rw [Location.child_path h, length_append]
    omega

theorem Located.unique (h : Located t n c l) (h' : Located t n c l')
    (hpath : l.path = l'.path) : l = l' := by
  induction h generalizing l' with
  | arg ha =>
    cases h' with
    | arg ha' =>
      obtain ⟨-, rfl⟩ : n = n ∧ _ = _ := by simpa using hpath
      obtain rfl := some.inj (ha.symm.trans ha')
      rfl
    | child hl hc =>
      have := congrArg List.length hpath
      rw [Location.child_path hc] at this
      have := hl.two_le
      simp at *
      omega
  | child hl hc ih =>
    cases h' with
    | arg =>
      have := congrArg List.length hpath
      rw [Location.child_path hc] at this
      have := hl.two_le
      simp at *
      omega
    | child hl' hc' =>
      rw [Location.child_path hc, Location.child_path hc'] at hpath
      obtain ⟨hpath, hi⟩ := append_inj' hpath rfl
      obtain rfl := ih hl' hpath
      obtain rfl : _ = _ := by simpa using hi
      exact some.inj (hc.symm.trans hc')

variable {f : Frame}

theorem Located.frame (h : Located t n c l) {pre post : List Frame}
    (hf : l.parents = pre ++ f :: post) :
    ∃ site, Located t n c ⟨f.path, f.arg, site, post, f.direct⟩ := by
  induction h generalizing pre with
  | arg => simp at hf
  | @child l l' i hl hc ih =>
    rcases Location.child_parents hc with hpar | hpar <;> rw [hf] at hpar
    · exact ih hpar.symm
    · cases pre with
      | nil =>
        obtain ⟨rfl, rfl⟩ := List.cons.inj hpar
        exact ⟨l.site, hl⟩
      | cons g pre => exact ih (List.cons.inj hpar).2.symm

theorem Located.frame_length (h : Located t n c l) {post : List Frame}
    (hf : l.parents = f :: post) : f.path.length < l.path.length := by
  induction h with
  | arg => simp at hf
  | @child l l' i hl hc ih =>
    rw [Location.child_path hc, length_append, length_singleton]
    rcases Location.child_parents hc with hpar | hpar <;> rw [hf] at hpar
    · exact (ih hpar.symm).trans (Nat.lt_succ_self _)
    · obtain ⟨rfl, -⟩ := List.cons.inj hpar
      exact Nat.lt_succ_self _

theorem Located.parent_isStruct (h : Located t n c l) (hf : l.parent = some f) :
    ∃ g inner, f.arg = .group g inner ∧ (t.type g.ref).isStruct := by
  induction h with
  | arg => simp [Location.parent] at hf
  | @child l l' i hl hc ih =>
    rcases Location.child_cases hc with ⟨_, _, _, _, rfl⟩ | ⟨_, _, _, _, _, rfl⟩ |
      ⟨g, inner, _, harg, _, hs, rfl⟩ | ⟨_, _, _, _, _, _, rfl⟩
    · refine ih ?_
      unfold Location.parent at hf ⊢
      split at hf
      · rwa [if_pos (by simp_all)]
      · cases hf
    · simp [Location.parent] at hf
    · obtain rfl : l.frame = f := by simpa [Location.parent] using hf
      exact ⟨g, inner, harg, hs⟩
    · simp [Location.parent] at hf

/-! ### Places are what is visited -/

theorem Location.child?_arg (h : l.child t i = some l') : l.arg.child? i = some l'.arg := by
  rcases Location.child_cases h with ⟨_, _, harg, rfl, rfl⟩ | ⟨_, _, _, harg, rfl, rfl⟩ |
    ⟨_, _, _, harg, ha, _, rfl⟩ | ⟨_, _, _, harg, ha, _, rfl⟩ <;> simp [child?, *]

theorem exists_child {a : Arg} (h : l.arg.child? i = some a) :
    ∃ l', l.child t i = some l' ∧ l'.arg = a := by
  unfold child? at h
  split at h
  · rename_i harg
    exact ⟨_, by rw [Location.child, harg]; rfl, some.inj h⟩
  · rename_i harg
    exact ⟨_, by rw [Location.child, harg]; rfl, some.inj h⟩
  · rename_i harg
    refine ⟨_, by rw [Location.child, harg]; dsimp only; rw [h]; rfl, ?_⟩
    split <;> rfl
  · cases h

variable {as : List Arg} {v : Visit}

theorem visitsArgs_of_getElem? {b : Arg} {j : ℕ} (i : ℕ) (h : as[j]? = some b) :
    ∀ u ∈ b.visits t [n, i + j] none 0, u ∈ visitsArgs t n i as := by
  induction as generalizing i j with
  | nil => simp at h
  | cons a as ih =>
    intro u hu
    cases j with
    | zero =>
      obtain rfl : a = b := by simpa using h
      exact mem_append_left _ hu
    | succ j =>
      refine mem_append_right _ (ih (i + 1) (by simpa using h) u ?_)
      rwa [Nat.add_assoc, Nat.add_comm 1]

theorem Located.exists_visit (h : Located t n c l) :
    ∃ v ∈ visitsArgs t n 0 c.args, v.path = l.path ∧ v.arg = l.arg := by
  induction h with
  | @arg i a ha =>
    refine ⟨_, visitsArgs_of_getElem? 0 ha _ (head_mem_visits a _ _ _), ?_, rfl⟩
    simp
  | @child l l' i hl hc ih =>
    obtain ⟨v, hv, hpath, harg⟩ := ih
    obtain ⟨a, -, path, hva, hsub⟩ := mem_visitsArgs 0 hv
    obtain ⟨u, hu, hupath, huarg, -⟩ :=
      exists_child_visit a path none 0 v hva i l'.arg (by rw [harg, Location.child?_arg hc])
    exact ⟨u, hsub u hu, by rw [hupath, hpath, Location.child_path hc], huarg⟩

theorem Located.of_mem_visits (a : Arg) : ∀ l, Located t n c l → l.arg = a →
    ∀ base offset, ∀ v ∈ a.visits t l.path base offset,
      ∃ l', Located t n c l' ∧ l'.path = v.path ∧ l'.arg = v.arg := by
  induction a using tree_induction with
  | const | pointerNil | data | outData | result =>
    intro l hl harg base offset v hv
    obtain rfl : v = _ := by simpa [visits] using hv
    exact ⟨l, hl, rfl, harg⟩
  | pointer _ _ ih | union _ _ _ ih =>
    intro l hl harg base offset v hv
    rcases mem_cons.mp hv with rfl | hv
    · exact ⟨l, hl, rfl, harg⟩
    · obtain ⟨l', hc, ha⟩ := exists_child (t := t) (l := l) (i := 0) (by rw [harg]; rfl)
      rw [← Location.child_path hc] at hv
      exact ih l' (hl.child hc) ha _ _ v hv
  | group g inner ih =>
    intro l hl harg base offset v hv
    rcases mem_cons.mp hv with rfl | hv
    · exact ⟨l, hl, rfl, harg⟩
    · obtain ⟨j, b, offset', hj, hv, -⟩ := getElem?_of_mem_visitsInner _ _ hv
      obtain ⟨l', hc, ha⟩ := exists_child (t := t) (l := l) (i := j) (by rw [harg]; exact hj)
      rw [Nat.zero_add, ← Location.child_path hc] at hv
      exact ih b (mem_of_getElem? hj) l' (hl.child hc) ha _ _ v hv

theorem exists_place (h : v ∈ visitsArgs t n 0 c.args) :
    ∃ l, Located t n c l ∧ l.path = v.path ∧ l.arg = v.arg := by
  obtain ⟨j, a, hj, hv, -⟩ := getElem?_of_mem_visitsArgs 0 h
  rw [Nat.zero_add] at hv
  exact Located.of_mem_visits a _ (.arg hj) rfl none 0 v hv

theorem isResource_of_validate {p : Prog} (hp : p.validate t = .ok ()) (hc : p.calls[n]? = some c)
    (hv : v ∈ c.visits t n) {r : ResultArg} (hr : v.arg = .result r) :
    ∃ cc f desc, t.type r.ref = .resource cc f desc := by
  have hmem : r ∈ p.results := by
    refine mem_flatMap.mpr ⟨c, mem_of_getElem? hc, ?_⟩
    have : r ∈ visitResults (c.visits t n) :=
      mem_filterMap.mpr ⟨v, hv, by simp [Visit.result?, hr]⟩
    rw [visitResults_call] at this
    simpa [Call.results, or_comm] using this
  obtain ⟨rs, rs', hsplit⟩ := append_of_mem hmem
  have hok := (validate_eq_ok.mp hp).results
  rw [hsplit] at hok
  obtain ⟨cc, f, desc, htype, -⟩ := hok.ok.resource
  exact ⟨cc, f, desc, htype⟩

end

end Brf
