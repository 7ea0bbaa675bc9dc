import Brf.Lib.Ensures
import Brf.Lib.Support
import Brf.Model.ResourceCentric
import Brf.Verification.Exec.Encodable
import Mathlib.Tactic

/-! # Selected programs and lengths

The programs that `resourceCentric` can select from a corpus, and how many calls it returns. -/

namespace Brf

open Brf.Lib Gen List Option Nat

theorem yields_perm (n : ℕ) : ∃ order, Yields (perm n) order ∧ order.length = n := by
  have hloop : ∃ order, Yields (perm n) order ∧ order.length = 0 + n :=
    yields_loop (I := fun i (m : List ℕ) => m.length = i) rfl fun i m _ _ hm =>
      ⟨_, (yields_intn (zero_lt_succ i)).map _, by simp [hm]⟩
  rwa [zero_add] at hloop

theorem ensures_perm (n : ℕ) : Ensures (perm n) (·.length = n) := by
  have hloop : Ensures (perm n) fun m => m.length = 0 + n :=
    ensures_loop (I := fun i (m : List ℕ) => m.length = i) rfl fun i m _ _ hm =>
      .of_sat ((sat_intn (succ_pos i)).map fun j _ => by simp [hm])
  rwa [zero_add] at hloop

section Selection

variable {resources : Prog → List ResultArg} {corpus : List Prog} {idx idx' : ℕ} {p p' : Prog}
  {resource : ResultArg}

variable (resources corpus) in
/-- The program is the first of the corpus that has a compatible resource. -/
structure IsFirst (idx : ℕ) (p : Prog) : Prop where
  get : corpus[idx]? = some p
  found : resources p ≠ []
  before : ∀ j < idx, ∀ q, corpus[j]? = some q → resources q = []

theorem IsFirst.unique (h : IsFirst resources corpus idx p)
    (h' : IsFirst resources corpus idx' p') : idx = idx' ∧ p = p' := by
  have hidx : idx = idx' := by
    by_contra hne
    rcases lt_or_gt_of_ne hne with hlt | hlt
    · exact h.found (h'.before idx hlt p h.get)
    · exact h'.found (h.before idx' hlt p' h'.get)
  subst hidx
  exact ⟨rfl, some.inj (h.get.symm.trans h'.get)⟩

/-- The indices run in order, whatever the permutation. -/
theorem ensures_selectResource (n k : ℕ)
    (hnone : ∀ j < n, ∀ q, corpus[j]? = some q → resources q = []) :
    Ensures (selectResource resources corpus (List.range' n k)) fun r =>
      ∀ s ∈ r, IsFirst resources corpus s.1 s.2.1 ∧ s.2.2 ∈ resources s.2.1 := by
  induction k generalizing n with
  | zero => exact ensures_pure.mpr nofun
  | succ k ih =>
    rw [range'_succ, selectResource]
    cases hp : corpus[n]? with
    | none => exact ensures_failure
    | some p =>
      refine ensures_ite (fun hnil => ih (n + 1) fun j hj q hq => ?_) fun hne => ?_
      · rcases Nat.lt_succ_iff_lt_or_eq.mp hj with hlt | rfl
        · exact hnone j hlt q hq
        · exact some.inj (hp.symm.trans hq) ▸ hnil
      · refine .of_sat ((sat_pick hne).map fun resource hmem => ?_)
        rintro _ ⟨⟩
        exact ⟨⟨hp, hne, hnone⟩, hmem⟩

theorem IsFirst.yields (h : IsFirst resources corpus idx p)
    (hresource : resource ∈ resources p) (n k : ℕ) (hn : n ≤ idx) (hk : idx < n + k) :
    Yields (selectResource resources corpus (List.range' n k)) (some (idx, p, resource)) := by
  induction k generalizing n with
  | zero => omega
  | succ k ih =>
    rw [range'_succ, selectResource]
    rcases eq_or_lt_of_le hn with rfl | hlt
    · simp only [h.get, if_neg h.found]
      exact (yields_pick hresource).map _
    · obtain ⟨hidx, -⟩ := List.getElem?_eq_some_iff.mp h.get
      have hget := getElem?_eq_getElem (hlt.trans hidx)
      simp only [hget, if_pos (h.before n hlt _ hget)]
      exact ih (n + 1) hlt (by omega)

end Selection

section ResourceCentric

variable {t : Target} {isCompatibleResource : String → String → Bool}
  {removeCall : Prog → ℕ → Prog} {biasedRand : ℤ → ℕ → ℕ → ℤ} {corpus : List Prog}
  {typeName : String}

/-- The first program is selected, with any of its resources, and all related calls are
returned. -/
theorem ensures_resourceCentric : Ensures (resourceCentric t isCompatibleResource removeCall
    biasedRand corpus typeName) fun r => ∀ c ∈ r, ∃ p,
      IsFirst (getCompatibleResources t isCompatibleResource typeName) corpus c.idx p ∧
      c.resource ∈ getCompatibleResources t isCompatibleResource typeName p ∧
      c.calls = (relatedCalls t removeCall p c.resource).calls := by
  refine ensures_bind ((ensures_perm _).mono fun order _ => ensures_bind ?_)
  rw [range_eq_range']
  refine (ensures_selectResource 0 order.length (by simp)).mono fun selected hselected => ?_
  cases selected with
  | none => exact ensures_pure.mpr nofun
  | some s =>
    refine .of_sat ((sat_intn (by decide)).map fun draw _ => ?_)
    rintro _ ⟨⟩
    exact ⟨s.2.1, (hselected s rfl).1, (hselected s rfl).2, by simp⟩

variable {idx : ℕ} {p : Prog}

theorem IsFirst.yields_resourceCentric {resource : ResultArg}
    (h : IsFirst (getCompatibleResources t isCompatibleResource typeName) corpus idx p)
    (hresource : resource ∈ getCompatibleResources t isCompatibleResource typeName p) :
    Yields (resourceCentric t isCompatibleResource removeCall biasedRand corpus typeName)
      (some ⟨idx, resource, (relatedCalls t removeCall p resource).calls⟩) := by
  obtain ⟨order, horder, hlen⟩ := yields_perm corpus.length
  obtain ⟨hidx, -⟩ := List.getElem?_eq_some_iff.mp h.get
  refine horder.bind ?_
  rw [range_eq_range']
  refine (h.yields hresource 0 order.length (zero_le _) (by omega)).bind ?_
  simpa using (yields_intn (show 0 < 2 ^ 63 by decide)).map fun _ => _

variable (t isCompatibleResource removeCall biasedRand corpus typeName) in
/-- Every program with a compatible resource is selected for some random stream. -/
def SelectsAll : Prop :=
  ∀ idx p, corpus[idx]? = some p → getCompatibleResources t isCompatibleResource typeName p ≠ [] →
    ∃ s c s', resourceCentric t isCompatibleResource removeCall biasedRand corpus typeName s =
      some (some c, s') ∧ c.idx = idx

variable (t isCompatibleResource removeCall biasedRand corpus typeName) in
/-- Where more than two calls are related to the chosen resource, every length from two up to
their number is returned for some random stream. -/
def ReturnsAllLengths : Prop :=
  ∀ s c s' p, resourceCentric t isCompatibleResource removeCall biasedRand corpus typeName s =
      some (some c, s') → corpus[c.idx]? = some p →
    2 < (relatedCalls t removeCall p c.resource).calls.length →
    ∀ n, 2 ≤ n → n ≤ (relatedCalls t removeCall p c.resource).calls.length →
      ∃ s1 c1 s1', resourceCentric t isCompatibleResource removeCall biasedRand corpus typeName s1 =
        some (some c1, s1') ∧ c1.idx = c.idx ∧ c1.resource = c.resource ∧ c1.calls.length = n

theorem exists_isFirst {resources : Prog → List ResultArg} (hp : corpus[idx]? = some p)
    (hne : resources p ≠ []) : ∃ idx p, IsFirst resources corpus idx p := by
  have hex : ∃ idx p, corpus[idx]? = some p ∧ resources p ≠ [] := ⟨idx, p, hp, hne⟩
  obtain ⟨q, hq, hqne⟩ := Nat.find_spec hex
  refine ⟨_, q, hq, hqne, fun j hj q' hq' => ?_⟩
  by_contra hne'
  exact Nat.find_min hex hj ⟨q', hq', hne'⟩

/-- The loop runs over the positions of the permutation, so a second program with a compatible
resource is never selected; the length is that of `calls` before it is set, so the related calls
are never cut. -/
theorem resourceCentric_covers_iff :
    SelectsAll t isCompatibleResource removeCall biasedRand corpus typeName ∧
        ReturnsAllLengths t isCompatibleResource removeCall biasedRand corpus typeName ↔
      (∀ (i j : ℕ) p q, corpus[i]? = some p → corpus[j]? = some q →
        getCompatibleResources t isCompatibleResource typeName p ≠ [] →
        getCompatibleResources t isCompatibleResource typeName q ≠ [] → i = j) ∧
      ∀ p ∈ corpus, ∀ resource ∈ getCompatibleResources t isCompatibleResource typeName p,
        (relatedCalls t removeCall p resource).calls.length ≤ 2 := by
  constructor
  · rintro ⟨hselects, hlengths⟩
    have hfirst : ∀ idx p, corpus[idx]? = some p →
        getCompatibleResources t isCompatibleResource typeName p ≠ [] →
        IsFirst (getCompatibleResources t isCompatibleResource typeName) corpus idx p := by
      intro idx p hp hne
      obtain ⟨s, c, s', hrun, rfl⟩ := hselects idx p hp hne
      obtain ⟨q, hq, -⟩ := ensures_resourceCentric s _ s' hrun c rfl
      exact some.inj (hq.get.symm.trans hp) ▸ hq
    refine ⟨fun i j p q hp hq hpne hqne =>
      ((hfirst i p hp hpne).unique (hfirst j q hq hqne)).1, fun p hmem resource hresource => ?_⟩
    by_contra! hlong
    obtain ⟨idx, hp⟩ := mem_iff_getElem?.mp hmem
    have hfirst := hfirst idx p hp (ne_nil_of_mem hresource)
    obtain ⟨s, s', hrun⟩ := (hfirst.yields_resourceCentric hresource).exists_run
    -- the shortest length is not returned
    obtain ⟨s1, c1, s1', hrun1, hidx, hres, hlen⟩ :=
      hlengths s _ s' p hrun hp hlong 2 le_rfl hlong.le
    obtain ⟨q, hq, -, hcalls⟩ := ensures_resourceCentric s1 _ s1' hrun1 c1 rfl
    obtain ⟨-, rfl⟩ := hq.unique hfirst
    rw [hcalls, hres] at hlen
    exact hlong.ne' hlen
  · rintro ⟨hsingle, hshort⟩
    constructor
    · intro idx p hp hne
      obtain ⟨first, q, hq⟩ := exists_isFirst hp hne
      obtain rfl := hsingle first idx q p hq.get hp hq.found hne
      obtain ⟨resource, hresource⟩ := exists_mem_of_ne_nil _ hq.found
      obtain ⟨s, s', hrun⟩ := (hq.yields_resourceCentric hresource).exists_run
      exact ⟨s, _, s', hrun, rfl⟩
    · intro s c s' p hrun hp hlong
      obtain ⟨q, hq, hresource, -⟩ := ensures_resourceCentric s _ s' hrun c rfl
      obtain rfl := some.inj (hq.get.symm.trans hp)
      exact absurd (hshort q (mem_of_getElem? hp) c.resource hresource) (by omega)

/-- Two programs of two calls each, the second call with the result of the first. -/
theorem chainCorpus_second_unselected :
    getCompatibleResources fdTarget (· == ·) "fd" chainProg ≠ [] ∧
      ∀ removeCall biasedRand,
        ¬ SelectsAll fdTarget (· == ·) removeCall biasedRand [chainProg, chainProg] "fd" := by
  have hne : getCompatibleResources fdTarget (· == ·) "fd" chainProg ≠ [] := by decide
  refine ⟨hne, fun removeCall biasedRand hselects => ?_⟩
  obtain ⟨s, c, s', hrun, hidx⟩ := hselects 1 chainProg rfl hne
  obtain ⟨p, hp, -⟩ := ensures_resourceCentric s _ s' hrun c rfl
  exact hne (hp.before 0 (by omega) chainProg rfl)

end ResourceCentric

end Brf
