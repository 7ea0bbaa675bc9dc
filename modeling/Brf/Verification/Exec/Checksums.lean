import Brf.Lib.Fold
import Brf.Model.Checksum
import Brf.Verification.Prog.Visits

/-! # What checksums cover

Checksum fields and the regions they cover are arguments of the call that live in memory. -/

namespace Brf

open Lib List Option

/-- The visit is one of a struct, a candidate for the region of a checksum. -/
def IsGroupOf (vs : List Visit) (u : Visit) : Prop := u ∈ vs ∧ ∃ c inner, u.arg = .group c inner

/-- The visit is that of a field of one of the structs. -/
def IsFieldOf (vs : List Visit) (u : Visit) : Prop :=
  ∃ v c inner i, v ∈ vs ∧ v.arg = .group c inner ∧ inner[i]? = some u.arg ∧ u.path = v.path ++ [i]

variable {u : Visit}

section

variable {t : Target} {vs : List Visit} {key : ArgKey}

theorem isGroupOf_of_lookup (h : (parentsMap t vs).lookup key = some u) : IsGroupOf vs u := by
  obtain ⟨l1, l2, hsplit, -⟩ := lookup_eq_some_iff.mp h
  have hmem : (key, u) ∈ parentsMap t vs := by
    rw [hsplit]
    simp
  obtain ⟨v, hv, hchild⟩ := mem_flatMap.mp hmem
  unfold Visit.children at hchild
  split at hchild
  · rename_i c inner _ harg
    obtain ⟨key', -, heq⟩ := mem_map.mp hchild
    obtain ⟨-, rfl⟩ := Prod.mk.inj heq
    exact ⟨hv, c, inner, harg⟩
  · simp at hchild

variable {name : String}

theorem isGroupOf_of_findParent (fuel : ℕ)
    (h : findParent t (parentsMap t vs) name fuel key = some u) : IsGroupOf vs u := by
  induction fuel generalizing key with
  | zero => simp [findParent] at h
  | succ fuel ih =>
    simp only [findParent, bind_eq_bind, bind_eq_some_iff] at h
    obtain ⟨parent, hparent, h⟩ := h
    split at h
    · obtain rfl := some.inj h
      exact isGroupOf_of_lookup hparent
    · exact ih h

theorem isGroupOf_of_findCsummedArg {buf : String}
    (h : findCsummedArg t (parentsMap t vs) buf key = some u) : IsGroupOf vs u := by
  unfold findCsummedArg at h
  split at h
  · exact isGroupOf_of_lookup h
  · exact isGroupOf_of_findParent _ h

variable {v : Visit}

theorem getFieldByName_eq_some {as : List Arg} {fs : List Field}
    (i : ℕ) (h : getFieldByName v name i as fs = some u) :
    ∃ j, as[j]? = some u.arg ∧ u.path = v.path ++ [i + j] := by
  induction as generalizing i fs with
  | nil => simp [getFieldByName] at h
  | cons a as ih =>
    cases fs with
    | nil => simp [getFieldByName] at h
    | cons f fs =>
      rw [getFieldByName] at h
      split at h
      · obtain rfl := some.inj h
        exact ⟨0, rfl, rfl⟩
      · obtain ⟨j, hj, hpath⟩ := ih (i + 1) h
        exact ⟨j + 1, hj, by rw [hpath, Nat.add_assoc, Nat.add_comm 1]⟩

theorem isFieldOf_headerStep {found : Option (Visit × Visit)} {found' : Option (Visit × Visit)}
    (hv : v ∈ vs) (hfound : ∀ f ∈ found, IsFieldOf vs f.1 ∧ IsFieldOf vs f.2)
    (h : headerStep t found v = some found') :
    ∀ f ∈ found', IsFieldOf vs f.1 ∧ IsFieldOf vs f.2 := by
  unfold headerStep at h
  split at h
  · rename_i c inner harg
    split at h
    · simp only [extractHeaderParams, bind_eq_bind, map_eq_some_iff, bind_eq_some_iff] at h
      obtain ⟨⟨s, d⟩, ⟨src, hsrc, dst, hdst, h⟩, rfl⟩ := h
      split at h
      · obtain ⟨rfl, rfl⟩ := Prod.mk.inj (some.inj h)
        intro f hf
        obtain rfl := some.inj hf
        obtain ⟨i, hi, hpi⟩ := getFieldByName_eq_some 0 hsrc
        obtain ⟨j, hj, hpj⟩ := getFieldByName_eq_some 0 hdst
        rw [Nat.zero_add] at hpi hpj
        exact ⟨⟨v, c, inner, i, hv, harg, hi, hpi⟩, ⟨v, c, inner, j, hv, harg, hj, hpj⟩⟩
      · cases h
    · cases h
    · obtain rfl := some.inj h
      exact hfound
  · obtain rfl := some.inj h
    exact hfound

theorem mem_csumFields {kind : CsumKind} {f : Visit × String × UInt64}
    (h : f ∈ csumFields t kind vs) : f.1 ∈ vs ∧ (t.type f.1.arg.ref).isCsum := by
  obtain ⟨v, hv, hf⟩ := mem_filterMap.mp h
  split at hf
  · rename_i htype
    split at hf
    · obtain rfl := some.inj hf
      exact ⟨hv, by simp [htype, Typ.isCsum]⟩
    · cases hf
  · cases hf

variable {cs : Csums}

section

variable (h : calcChecksums t vs = some cs)

include h

/-- What holds of no checksums and is kept by both kinds of rounds holds of the result. -/
theorem calcChecksums_induct {P : Csums → Prop} (none : P Csums.none)
    (inet : ∀ cs f u, P cs → f ∈ vs → (t.type f.arg.ref).isCsum → IsGroupOf vs u →
      P ⟨cs.map ++ [(f, ⟨.inet, [.arg u]⟩)], cs.uses ++ [u.key]⟩)
    (pseudo : ∀ cs f u src dst proto, P cs → f ∈ vs → (t.type f.arg.ref).isCsum →
      IsGroupOf vs u → IsFieldOf vs src → IsFieldOf vs dst →
      ∀ compose ∈ [composePseudoCsumIPv4, composePseudoCsumIPv6],
      P ⟨cs.map ++ [(f, compose t u src dst proto)], cs.uses ++ [u.key, src.key, dst.key]⟩) :
    P cs := by
  simp only [calcChecksums, bind_eq_bind, bind_eq_some_iff] at h
  obtain ⟨cs1, hinet, h⟩ := h
  have h1 : P cs1 := by
    refine foldlM_preserves ?_ none hinet
    intro cs f hf cs' hcs hstep
    obtain ⟨hv, htype⟩ := mem_csumFields hf
    simp only [inetStep, bind_eq_bind, bind_eq_some_iff, some.injEq] at hstep
    obtain ⟨u, hu, rfl⟩ := hstep
    exact inet cs f.1 u hcs hv htype (isGroupOf_of_findCsummedArg hu)
  split at h
  · obtain rfl := some.inj h
    exact h1
  · simp only [bind_eq_some_iff] at h
    obtain ⟨header, hheader, ⟨src, dst⟩, hsd, hpseudo⟩ := h
    have hfields : ∀ f ∈ header, IsFieldOf vs f.1 ∧ IsFieldOf vs f.2 := by
      refine foldlM_preserves
        (P := fun found => ∀ f ∈ found, IsFieldOf vs f.1 ∧ IsFieldOf vs f.2) ?_ (by simp) hheader
      exact fun _ v hv _ hfound hstep => isFieldOf_headerStep hv hfound hstep
    obtain ⟨hsrc, hdst⟩ := hfields _ hsd
    refine foldlM_preserves ?_ h1 hpseudo
    intro cs f hf cs' hcs hstep
    obtain ⟨hv, htype⟩ := mem_csumFields hf
    simp only [pseudoStep, bind_eq_bind, bind_eq_some_iff, some.injEq] at hstep
    obtain ⟨u, hu, rfl⟩ := hstep
    refine pseudo cs f.1 u src dst _ hcs hv htype (isGroupOf_of_findCsummedArg hu) hsrc hdst _ ?_
    split <;> simp

theorem calcChecksums_inet : ∀ f ∈ cs.map, f.2.kind = .inet ∧ f.2.chunks.length ≤ 5 := by
  refine calcChecksums_induct
    (P := fun cs => ∀ f ∈ cs.map, f.2.kind = .inet ∧ f.2.chunks.length ≤ 5) h (by simp [Csums.none])
    ?_ ?_
  · intro cs f u hcs _ _ _
    simpa [or_imp, forall_and] using hcs
  · intro cs f u src dst proto hcs _ _ _ _ _ compose hcompose
    have hlast : (compose t u src dst proto).kind = .inet ∧
        (compose t u src dst proto).chunks.length ≤ 5 := by
      simp only [mem_cons, not_mem_nil, or_false] at hcompose
      rcases hcompose with rfl | rfl <;> simp [composePseudoCsumIPv4, composePseudoCsumIPv6]
    intro g hg
    rcases mem_append.mp hg with hg | hg
    · exact hcs g hg
    · obtain rfl : g = _ := by simpa using hg
      exact hlast

theorem calcChecksums_uses :
    ∀ f ∈ cs.map, ∀ u, .arg u ∈ f.2.chunks → u.key ∈ cs.uses ∧ (IsGroupOf vs u ∨ IsFieldOf vs u) := by
  refine calcChecksums_induct (P := fun cs => ∀ f ∈ cs.map, ∀ u, .arg u ∈ f.2.chunks →
    u.key ∈ cs.uses ∧ (IsGroupOf vs u ∨ IsFieldOf vs u)) h (by simp [Csums.none]) ?_ ?_
  · intro cs f u hcs _ _ hu g hg v hv
    rcases mem_append.mp hg with hg | hg
    · exact ⟨mem_append_left _ (hcs g hg v hv).1, (hcs g hg v hv).2⟩
    · obtain rfl : g = _ := by simpa using hg
      obtain rfl : v = u := by simpa using hv
      exact ⟨by simp, .inl hu⟩
  · intro cs f u src dst proto hcs _ _ hu hsrc hdst compose hcompose g hg v hv
    rcases mem_append.mp hg with hg | hg
    · exact ⟨mem_append_left _ (hcs g hg v hv).1, (hcs g hg v hv).2⟩
    · obtain rfl : g = _ := by simpa using hg
      have hcases : v = src ∨ v = dst ∨ v = u := by
        simp only [mem_cons, not_mem_nil, or_false] at hcompose
        rcases hcompose with rfl | rfl <;>
          simpa [composePseudoCsumIPv4, composePseudoCsumIPv6] using hv
      rcases hcases with rfl | rfl | rfl
      · exact ⟨by simp, .inr hsrc⟩
      · exact ⟨by simp, .inr hdst⟩
      · exact ⟨by simp, .inl hu⟩

theorem calcChecksums_fields : ∀ f ∈ cs.map, f.1 ∈ vs ∧ (t.type f.1.arg.ref).isCsum := by
  refine calcChecksums_induct
    (P := fun cs => ∀ f ∈ cs.map, f.1 ∈ vs ∧ (t.type f.1.arg.ref).isCsum) h
    (by simp [Csums.none]) ?_ ?_
  · intro cs f u hcs hf htype _ g hg
    rcases mem_append.mp hg with hg | hg
    · exact hcs g hg
    · obtain rfl : g = _ := by simpa using hg
      exact ⟨hf, htype⟩
  · intro cs f u src dst proto hcs hf htype _ _ _ compose _ g hg
    rcases mem_append.mp hg with hg | hg
    · exact hcs g hg
    · obtain rfl : g = _ := by simpa using hg
      exact ⟨hf, htype⟩

end

end

theorem CallOk.covered_inMemory {t : Target} {c : Call} (ht : t.Compiled)
    (hsys : c.syscall ∈ t.syscalls) (h : CallOk t c) {n : ℕ}
    (hu : IsGroupOf (visitsArgs t n 0 c.args) u ∨ IsFieldOf (visitsArgs t n 0 c.args) u) :
    ∃ v ∈ visitsArgs t n 0 c.args, v.key = u.key ∧ v.base.isSome := by
  rcases hu with ⟨hu, cc, inner, harg⟩ | ⟨v, cc, inner, i, hv, harg, hi, hpath⟩
  · exact ⟨u, hu, rfl, h.group_inMemory ht hsys hu harg⟩
  · obtain ⟨a, -, path, hva, hsub⟩ := mem_visitsArgs 0 hv
    obtain ⟨w, hw, hwpath, hwarg, hwbase⟩ :=
      exists_child_visit a path none 0 v hva i u.arg (by rw [harg]; exact hi)
    refine ⟨w, hsub w hw, ?_, ?_⟩
    · rw [Visit.key, Visit.key, hwpath, hwarg, hpath]
    · rw [hwbase cc inner harg]
      exact h.group_inMemory ht hsys hv harg

end Brf
