import Brf.Verification.Exec.Checksums
import Brf.Verification.Prog.Parents

/-! # Targets of checksums

The checker of descriptions resolves the buffer of a checksum field as it resolves the target of a
length, while `findCsummedArg` goes up the structs that enclose the field and compares full names.
-/

namespace Brf

open Lib List Location Visit Nat

variable {l : Location} {buf : String} {kind : CsumKind} {cc : IntTypeCommon} {protocol : UInt64}

section

variable {t : Target} {n : ℕ} {c : Call}

/-! ### The map of parents of a call -/

theorem mem_fieldKeys {path : List ℕ} {as : List Arg} {k : ArgKey} (i : ℕ) :
    k ∈ fieldKeys t path i as ↔
      ∃ j, ∃ a : Arg, as[j]? = some a ∧ a.innerKey t (path ++ [i + j]) = some k := by
  induction as generalizing i with
  | nil => simp [fieldKeys]
  | cons a as ih =>
    rw [fieldKeys, mem_append, Option.mem_toList, ih]
    constructor
    · rintro (h | ⟨j, b, hj, h⟩)
      · exact ⟨0, a, rfl, h⟩
      · exact ⟨j + 1, b, hj, by rwa [add_assoc, add_comm 1] at h⟩
    · rintro ⟨j, b, hj, h⟩
      cases j with
      | zero =>
        obtain rfl : a = b := by simpa using hj
        exact .inl h
      | succ j => exact .inr ⟨j, b, by simpa using hj, by rwa [add_assoc, add_comm 1]⟩

variable {v : Visit} {u : Visit}

theorem mem_children {k : ArgKey} : (k, u) ∈ v.children t ↔ u = v ∧
    ∃ g inner j, ∃ a : Arg, v.arg = .group g inner ∧ (t.type g.ref).isStruct ∧ inner[j]? = some a ∧
    a.innerKey t (v.path ++ [j]) = some k := by
  unfold children
  split
  · rename_i g inner htype harg
    simp only [mem_map, mem_fieldKeys, zero_add, Prod.mk.injEq]
    constructor
    · rintro ⟨_, ⟨j, a, hj, hk⟩, rfl, rfl⟩
      exact ⟨rfl, g, inner, j, a, harg, by simp_all [Typ.isStruct, Arg.ref], hj, hk⟩
    · rintro ⟨rfl, g', inner', j, a, harg', -, hj, hk⟩
      rw [harg] at harg'
      obtain ⟨rfl, rfl⟩ : g = g' ∧ inner = inner' := by simpa using harg'
      exact ⟨k, ⟨j, a, hj, hk⟩, rfl, rfl⟩
  · rename_i hno
    simp only [not_mem_nil, false_iff, not_and]
    rintro rfl ⟨g, inner, j, a, harg, hs, -⟩
    cases htype : t.type g.ref <;> simp [Typ.isStruct, htype] at hs
    exact hno _ _ _ _ g inner (by rw [harg]; exact htype) harg

theorem isParentMap_parentsMap : IsParentMap t n c id (parentsMap t (c.visits t n)) := by
  intro k v
  rw [parentsMap, Call.visits, flatMap_append, mem_append, id]
  have hret : (k, v) ∉ (c.ret.toList.map fun r => (⟨[n], .result r, none, 0⟩ : Visit)).flatMap
      (children t) := by
    intro h
    obtain ⟨w, hw, hk⟩ := mem_flatMap.mp h
    obtain ⟨r, -, rfl⟩ := mem_map.mp hw
    obtain ⟨-, g, inner, j, a, harg, -⟩ := mem_children.mp hk
    simp at harg
  simp only [hret, false_or, mem_flatMap, mem_children]
  constructor
  · rintro ⟨w, hw, rfl, hentry⟩
    exact ⟨hw, hentry⟩
  · rintro ⟨hw, hentry⟩
    exact ⟨v, hw, rfl, hentry⟩

theorem findCsummedArg_eq (h : Located t n c l) (hin : l.IsInner t)
    (hkey : l.arg.key l.path = .place l.path) (buf : String) :
    (findCsummedArg t (parentsMap t (c.visits t n)) buf (.place l.path)).map
        (fun v => (v.path, v.arg)) = (if buf = parentRef then l.enclosing.head?
        else l.enclosing.find? fun f => (t.type f.arg.ref).name = buf).map
        fun f => (f.path, f.arg) := by
  have hm := isParentMap_parentsMap (t := t) (n := n) (c := c)
  unfold findCsummedArg
  rw [show ("parent" : String) = parentRef from rfl]
  split
  · rw [← parent_eq_head?]
    cases hf : l.parent with
    | none =>
      have hnone : (parentsMap t (c.visits t n)).lookup (.place l.path) = none :=
        hm.lookup_none h hkey hf
      rw [hnone]
      rfl
    | some f =>
      obtain ⟨v, hv, hpath, harg⟩ := hm.lookup_some h hin hkey hf
      rw [id] at hv
      simp [hv, hpath, harg]
  · rw [findParent_eq_climb]
    exact hm.climb_all h hin hkey Function.injective_id _

/-! ### What the checker resolves -/

/-- The position one step leads to. -/
def Location.stepPath (n : ℕ) (l : Location) : LenStep → Option (List ℕ)
  | .field i => some ((l.parents.head?.map Frame.path).getD [n] ++ [i])
  | .up k => l.parents[k]?.map Frame.path

/-- The position of what the checker resolves the buffer of a checksum field to. -/
def Location.csumTarget (t : Target) (n : ℕ) (s : Syscall) (l : Location) (buf : String) :
    Option (List ℕ) :=
  match checkLenTarget t 0 (l.check t s false [buf]) with
  | .ok [step] => l.stepPath n step
  | _ => none

theorem Located.parents_pairwise (h : Located t n c l) :
    l.parents.Pairwise fun f g => g.path.length < f.path.length := by
  induction h with
  | arg => exact .nil
  | @child l l' i hl hc ih =>
    rcases child_parents hc with hpar | hpar <;> rw [hpar]
    · exact ih
    · refine pairwise_cons.mpr ⟨?_, ih⟩
      intro g hg
      obtain ⟨pre, post, hsplit⟩ := append_of_mem hg
      cases pre with
      | nil => exact hl.frame_length hsplit
      | cons f pre =>
        rw [hsplit] at ih
        have hfg := (pairwise_cons.mp ih).1 g (by simp)
        exact lt_trans hfg (hl.frame_length hsplit)

variable {k : ℕ} {f : Frame} {g : Frame}

theorem Located.parents_inj (h : Located t n c l) {j : ℕ} (hf : l.parents[j]? = some f)
    (hg : l.parents[k]? = some g) (hpath : f.path = g.path) : j = k := by
  obtain ⟨hj, rfl⟩ := List.getElem?_eq_some_iff.mp hf
  obtain ⟨hk, rfl⟩ := List.getElem?_eq_some_iff.mp hg
  have hpair := pairwise_iff_getElem.mp h.parents_pairwise
  rcases lt_trichotomy j k with hlt | heq | hlt
  · exact absurd (congrArg List.length hpath) (ne_of_gt (hpair j k hj hk hlt))
  · exact heq
  · exact absurd (congrArg List.length hpath) (Nat.ne_of_lt (hpair k j hk hj hlt))

theorem Located.field_ne_frame (h : Located t n c l) {i : ℕ}
    (hf : l.parents[k]? = some f) : (l.parents.head?.map Frame.path).getD [n] ++ [i] ≠ f.path := by
  intro heq
  cases hpar : l.parents with
  | nil => simp [hpar] at hf
  | cons g gs =>
    have hlen : f.path.length ≤ g.path.length := by
      rw [hpar] at hf
      cases k with
      | zero =>
        obtain rfl : g = f := by simpa using hf
        exact le_refl _
      | succ k =>
        have hmem : f ∈ gs := mem_of_getElem? (by simpa using hf)
        exact le_of_lt ((pairwise_cons.mp (hpar ▸ h.parents_pairwise)).1 f hmem)
    rw [hpar] at heq
    have := congrArg List.length heq
    simp at this
    omega

/-- The buffer of a checksum field is `parent`, or the full name of a struct that encloses the
field and that the checker resolves it to. -/
def Location.BufEnclosed (t : Target) (s : Syscall) (l : Location) (buf : String) : Prop :=
  ∃ k f, checkLenTarget t 0 (l.check t s false [buf]) = .ok [.up k] ∧ l.enclosing[k]? = some f ∧
    if buf = parentRef then k = 0 else (t.type f.arg.ref).name = buf

theorem findIdx?_of_checkLenTarget {fuel : ℕ} {chk : LenCheck} {target : String}
    (htargets : chk.targets = [target]) (h : checkLenTarget t fuel chk = .ok [.up k]) :
    chk.parents.findIdx? (·.answers target) = some k := by
  obtain ⟨-, hrec⟩ := checkLenTarget_eq_ok h
  rw [htargets] at hrec
  cases hpar : chk.parents with
  | nil =>
    rw [hpar] at hrec
    cases hrec
  | cons desc outer =>
    rw [hpar] at hrec
    rcases checkLenTargetRec_eq_ok hrec with ⟨i, rest, -, heq, -⟩ | ⟨-, k', rest, hk', heq, -⟩
    · simp at heq
    · obtain ⟨rfl, -⟩ : k = k' ∧ [] = rest := by simpa using heq
      exact hk'

theorem answers_of_name (hf : (t.parentDesc f.arg.ref).answers buf)
    (hfull : (t.type f.arg.ref).name = buf) (hg : (t.type g.arg.ref).name = buf) :
    (t.parentDesc g.arg.ref).answers buf := by
  unfold ParentDesc.answers at hf ⊢
  rw [parentDesc_name] at hf ⊢
  have htemplate : (t.type g.arg.ref).templateName = (t.type f.arg.ref).templateName := by
    rw [Typ.templateName, Typ.templateName, hg, hfull]
  rwa [htemplate]

/-- The struct found is the one the checker resolves the buffer to exactly if it encloses the
field under its full name. -/
theorem Located.bufEnclosed_iff (h : Located t n c l) (hin : l.IsInner t)
    (hkey : l.arg.key l.path = .place l.path) (buf : String) :
    (∃ pos v, l.csumTarget t n c.syscall buf = some pos ∧
      findCsummedArg t (parentsMap t (c.visits t n)) buf (.place l.path) = some v ∧
      v.path = pos) ↔ l.BufEnclosed t c.syscall buf := by
  have hfind := findCsummedArg_eq h hin hkey buf
  constructor
  · rintro ⟨pos, v, hpos, hv, rfl⟩
    rw [hv] at hfind
    obtain ⟨f, hf, hfv⟩ := Option.map_eq_some_iff.mp hfind.symm
    obtain ⟨hpath, -⟩ := Prod.mk.inj hfv
    obtain ⟨j, hj, hname⟩ : ∃ j, l.enclosing[j]? = some f ∧
        if buf = parentRef then j = 0 else (t.type f.arg.ref).name = buf := by
      split at hf
      · exact ⟨0, by rw [← head?_eq_getElem?, hf], by simp [*]⟩
      · obtain ⟨hname, j, hj, hjf, -⟩ := find?_eq_some_iff_getElem.mp hf
        refine ⟨j, by rw [getElem?_eq_getElem hj, hjf], ?_⟩
        rw [if_neg ‹_›]
        simpa using hname
    have hpar := parents_of_enclosing hj
    unfold csumTarget at hpos
    split at hpos
    · rename_i step hcheck
      cases step with
      | field i =>
        exact absurd ((Option.some.inj hpos).trans hpath.symm) (h.field_ne_frame hpar)
      | up k =>
        obtain ⟨g, hg, hgpath⟩ := Option.map_eq_some_iff.mp hpos
        obtain rfl := h.parents_inj hpar hg (hpath.trans hgpath.symm)
        exact ⟨j, f, hcheck, hj, hname⟩
    · cases hpos
  · rintro ⟨k, f, hcheck, hk, hname⟩
    have hpar := parents_of_enclosing hk
    have htarget : l.csumTarget t n c.syscall buf = some f.path := by
      simp [csumTarget, hcheck, stepPath, hpar]
    have hfound : (if buf = parentRef then l.enclosing.head?
        else l.enclosing.find? fun f => (t.type f.arg.ref).name = buf) = some f := by
      split at hname
      · subst hname
        rw [if_pos ‹_›, head?_eq_getElem?, hk]
      · rename_i hbuf
        rw [if_neg hbuf]
        have hidx : (frameDescs t c.syscall l.parents).findIdx? (·.answers buf) = some k :=
          findIdx?_of_checkLenTarget rfl hcheck
        obtain ⟨hklen, hans, hfirst⟩ := findIdx?_eq_some_iff_getElem.mp hidx
        obtain ⟨hkenc, hkf⟩ := List.getElem?_eq_some_iff.mp hk
        have hansf : (t.parentDesc f.arg.ref).answers buf := by
          have := frameDescs_getElem? (t := t) (s := c.syscall) hpar
          rw [getElem?_eq_getElem hklen] at this
          rwa [← Option.some.inj this]
        refine find?_eq_some_iff_getElem.mpr ⟨by simpa using hname, k, hkenc, hkf, ?_⟩
        intro j hj
        have hjlt : j < l.enclosing.length := lt_trans hj hkenc
        have hjenc : l.enclosing[j]? = some l.enclosing[j] := getElem?_eq_getElem hjlt
        have hjdesc :=
          frameDescs_getElem? (t := t) (s := c.syscall) (parents_of_enclosing hjenc)
        rw [Bool.not_eq_true', decide_eq_false_iff_not]
        intro hjname
        have hjans := answers_of_name hansf hname hjname
        refine hfirst j hj ?_
        have hjlen : j < (frameDescs t c.syscall l.parents).length := lt_trans hj hklen
        rw [getElem?_eq_getElem hjlen] at hjdesc
        exact (Option.some.inj hjdesc) ▸ hjans
    rw [hfound] at hfind
    obtain ⟨v, hv, hvf⟩ := Option.map_eq_some_iff.mp hfind
    exact ⟨f.path, v, htarget, hv, (Prod.mk.inj hvf).1⟩

/-- The size of the addresses if the visit is that of an IP header. -/
def Visit.header? (t : Target) (v : Visit) : Option UInt64 :=
  match v.arg with
  | .group g _ => headerSize (t.type g.ref).templateName
  | _ => none

/-- The visit is that of a struct with a source and a destination address of the given size. -/
def Visit.HasAddresses (t : Target) (v : Visit) (size : UInt64) : Prop :=
  ∃ g inner cc fields align overlay, v.arg = .group g inner ∧
    t.type g.ref = .struct cc fields align overlay ∧
    ∃ src dst, getFieldByName v "src_ip" 0 inner fields = some src ∧
      getFieldByName v "dst_ip" 0 inner fields = some dst ∧
      src.arg.size t = size ∧ dst.arg.size t = size

/-- There is an IP header, and every IP header has addresses. -/
def HeadersOk (t : Target) (vs : List Visit) : Prop :=
  (∃ v ∈ vs, (v.header? t).isSome) ∧ ∀ v ∈ vs, ∀ size, v.header? t = some size →
    v.HasAddresses t size

theorem headerStep_of_header (found : Option (Visit × Visit)) {size : UInt64}
    (h : v.header? t = some size) :
    (v.HasAddresses t size → ∃ sd, headerStep t found v = some (some sd)) ∧
      ((headerStep t found v).isSome → v.HasAddresses t size) := by
  unfold header? at h
  split at h
  · rename_i g inner harg
    constructor
    · rintro ⟨g', inner', cc, fields, align, overlay, harg', htype, src, dst, hsrc, hdst, hs, hd⟩
      rw [harg] at harg'
      obtain ⟨rfl, rfl⟩ : g = g' ∧ inner = inner' := by simpa using harg'
      rw [headerStep, harg]
      dsimp only
      rw [h, htype]
      simp [extractHeaderParams, hsrc, hdst, hs, hd]
    · intro hsome
      rw [headerStep, harg] at hsome
      dsimp only at hsome
      rw [h] at hsome
      cases htype : t.type g.ref with
      | struct cc fields align overlay =>
        rw [htype] at hsome
        obtain ⟨sd, hsd⟩ := Option.isSome_iff_exists.mp hsome
        simp only [extractHeaderParams, Option.bind_eq_bind, Option.map_eq_some_iff,
          Option.bind_eq_some_iff] at hsd
        obtain ⟨_, ⟨src, hsrc, dst, hdst, hif⟩, -⟩ := hsd
        split at hif
        · rename_i hsizes
          exact ⟨g, inner, cc, fields, align, overlay, harg, htype, src, dst, hsrc, hdst,
            hsizes.1, hsizes.2⟩
        · cases hif
      | _ =>
        rw [htype] at hsome
        simp at hsome
  · cases h

theorem headerStep_of_no_header {found : Option (Visit × Visit)}
    (h : v.header? t = none) : headerStep t found v = some found := by
  cases harg : v.arg with
  | group g inner =>
    have hnone : headerSize (t.type g.ref).templateName = none := by
      simpa only [header?, harg] using h
    simp only [headerStep, harg, hnone]
  | _ => simp only [headerStep, harg]

theorem exists_header_iff (vs : List Visit) :
    (∃ sd, vs.foldlM (headerStep t) none = some (some sd)) ↔ HeadersOk t vs := by
  have hdefined : (vs.foldlM (headerStep t) none).isSome ↔
      ∀ v ∈ vs, ∀ size, v.header? t = some size → v.HasAddresses t size := by
    refine foldlM_isSome_iff _ ?_ none
    intro found v _
    cases hv : v.header? t with
    | none => simp [headerStep_of_no_header hv]
    | some size =>
      constructor
      · intro hsome size' hsize
        obtain rfl := Option.some.inj hsize
        exact (headerStep_of_header _ hv).2 hsome
      · intro h
        obtain ⟨sd, hsd⟩ := (headerStep_of_header found hv).1 (h size rfl)
        simp [hsd]
  have hlast {found : Option (Visit × Visit)} (h : vs.foldlM (headerStep t) none = some found) :
      found.isSome ↔ ∃ v ∈ vs, (v.header? t).isSome := by
    refine foldlM_carries (fun done found => found.isSome ↔ ∃ v ∈ done, (v.header? t).isSome)
      (by simp) ?_ h
    intro done v rest found found' _ hI hstep
    cases hv : v.header? t with
    | none =>
      rw [headerStep_of_no_header hv] at hstep
      obtain rfl := Option.some.inj hstep
      simp [hI, hv, or_and_right, exists_or]
    | some size =>
      have haddr := (headerStep_of_header found hv).2 (by simp [hstep])
      obtain ⟨sd, hsd⟩ := (headerStep_of_header found hv).1 haddr
      obtain rfl := Option.some.inj (hsd.symm.trans hstep)
      simp [hv, or_and_right, exists_or]
  constructor
  · rintro ⟨sd, hsd⟩
    exact ⟨(hlast hsd).mp rfl, hdefined.mp (by simp [hsd])⟩
  · rintro ⟨hex, hall⟩
    obtain ⟨found, hfound⟩ := Option.isSome_iff_exists.mp (hdefined.mpr hall)
    obtain ⟨sd, rfl⟩ := Option.isSome_iff_exists.mp ((hlast hfound).mpr hex)
    exact ⟨sd, hfound⟩

variable {vs : List Visit} {f : Visit × String × UInt64}

theorem mem_csumFields_iff :
    f ∈ csumFields t kind vs ↔ f.1 ∈ vs ∧ ∃ cc, t.type f.1.arg.ref = .csum cc kind f.2.1 f.2.2 := by
  obtain ⟨u, buf, protocol⟩ := f
  simp only [csumFields, mem_filterMap]
  constructor
  · rintro ⟨v, hv, hf⟩
    split at hf
    · rename_i cc k b p htype
      split at hf
      · subst k
        obtain ⟨rfl, rfl, rfl⟩ : v = u ∧ b = buf ∧ p = protocol := by simpa using hf
        exact ⟨hv, cc, htype⟩
      · cases hf
    · cases hf
  · rintro ⟨hu, cc, htype⟩
    exact ⟨u, hu, by simp [htype]⟩

/-- The fields done so far each have their struct as the region of a checksum. -/
structure Covers (t : Target) (vs : List Visit) (done : List (Visit × String × UInt64))
    (cs : Csums) : Prop where
  regions : ∀ e ∈ cs.map, ∃ f ∈ done, e.1 = f.1 ∧
    ∃ u, findCsummedArg t (parentsMap t vs) f.2.1 f.1.key = some u ∧
      e.2.chunks.getLast? = some (.arg u)
  all : ∀ f ∈ done, ∃ e ∈ cs.map, e.1 = f.1

variable {cs : Csums}

theorem Covers.step {done : List (Visit × String × UInt64)} (h : Covers t vs done cs)
    {info : CsumInfo} (hu : findCsummedArg t (parentsMap t vs) f.2.1 f.1.key = some u)
    (hinfo : info.chunks.getLast? = some (.arg u)) (uses : List ArgKey) :
    Covers t vs (done ++ [f]) ⟨cs.map ++ [(f.1, info)], uses⟩ where
  regions e he := by
    rcases mem_append.mp he with he | he
    · obtain ⟨g, hg, hspec⟩ := h.regions e he
      exact ⟨g, mem_append_left _ hg, hspec⟩
    · obtain rfl : e = (f.1, info) := by simpa using he
      exact ⟨f, by simp, rfl, u, hu, hinfo⟩
  all g hg := by
    rcases mem_append.mp hg with hg | hg
    · obtain ⟨e, he, hspec⟩ := h.all g hg
      exact ⟨e, mem_append_left _ he, hspec⟩
    · obtain rfl : g = f := by simpa using hg
      exact ⟨(g.1, info), by simp, rfl⟩

theorem calcChecksums_covers (h : calcChecksums t vs = some cs) :
    Covers t vs (csumFields t .inet vs ++ csumFields t .pseudo vs) cs := by
  simp only [calcChecksums, Option.bind_eq_bind, Option.bind_eq_some_iff] at h
  obtain ⟨cs1, hinet, h⟩ := h
  have h1 : Covers t vs (csumFields t .inet vs) cs1 := by
    refine foldlM_carries (Covers t vs) ⟨by simp [Csums.none], by simp⟩ ?_ hinet
    intro done f rest cs cs' _ hcov hstep
    simp only [inetStep, Option.bind_eq_bind, Option.bind_eq_some_iff, Option.some.injEq] at hstep
    obtain ⟨u, hu, rfl⟩ := hstep
    exact hcov.step hu rfl _
  split at h
  · rename_i hnone
    obtain rfl := Option.some.inj h
    rwa [List.isEmpty_iff.mp hnone, append_nil]
  · simp only [Option.bind_eq_some_iff] at h
    obtain ⟨header, -, ⟨src, dst⟩, -, hpseudo⟩ := h
    refine foldlM_carries (fun done => Covers t vs (csumFields t .inet vs ++ done))
      (by rwa [append_nil]) ?_ hpseudo
    intro done f rest cs cs' _ hcov hstep
    simp only [pseudoStep, Option.bind_eq_bind, Option.bind_eq_some_iff, Option.some.injEq] at hstep
    obtain ⟨u, hu, rfl⟩ := hstep
    rw [← append_assoc]
    refine hcov.step hu ?_ _
    split <;> rfl

theorem calcChecksums_isSome_iff (vs : List Visit) :
    (calcChecksums t vs).isSome ↔
      (∀ f ∈ csumFields t .inet vs ++ csumFields t .pseudo vs,
        (findCsummedArg t (parentsMap t vs) f.2.1 f.1.key).isSome) ∧
      (csumFields t .pseudo vs ≠ [] → HeadersOk t vs) := by
  have hinet := foldlM_isSome_iff (f := inetStep t (parentsMap t vs)) (l := csumFields t .inet vs)
    (fun f => (findCsummedArg t (parentsMap t vs) f.2.1 f.1.key).isSome)
    (by
      intro cs f _
      unfold inetStep
      cases findCsummedArg t (parentsMap t vs) f.2.1 f.1.key <;> simp) Csums.none
  have hpseudo (src dst : Visit) := foldlM_isSome_iff (f := pseudoStep t (parentsMap t vs) src dst)
    (l := csumFields t .pseudo vs)
    (fun f => (findCsummedArg t (parentsMap t vs) f.2.1 f.1.key).isSome)
    (by
      intro cs f _
      unfold pseudoStep
      cases findCsummedArg t (parentsMap t vs) f.2.1 f.1.key <;> simp)
  rw [forall_mem_append, ← hinet]
  unfold calcChecksums
  cases hfold : (csumFields t .inet vs).foldlM (inetStep t (parentsMap t vs)) Csums.none with
  | none => simp [hfold]
  | some cs1 =>
    by_cases hempty : csumFields t .pseudo vs = []
    · simp [hfold, hempty]
    · simp only [hfold, Option.isSome_some, true_and, Option.bind_eq_bind, Option.bind_some,
        List.isEmpty_iff, hempty, if_false, ne_eq, not_false_eq_true, forall_const,
        ← exists_header_iff]
      cases hhead : vs.foldlM (headerStep t) none with
      | none => simp
      | some found =>
        cases found with
        | none => simp
        | some sd => simpa using hpseudo sd.1 sd.2 cs1

/-- The checksums of a call are computed, and each field gets the one of the struct its buffer is
resolved to. -/
def ChecksumsResolved (t : Target) (n : ℕ) (c : Call) : Prop :=
  ∃ cs, calcChecksumsCall t n c = some cs ∧
    ∀ l, Located t n c l → ∀ cc kind buf protocol,
      t.type l.arg.ref = .csum cc kind buf protocol →
      ∃ pos, l.csumTarget t n c.syscall buf = some pos ∧ (∃ e ∈ cs.map, e.1.path = l.path) ∧
        ∀ e ∈ cs.map, e.1.path = l.path →
          ∃ u, e.2.chunks.getLast? = some (.arg u) ∧ u.path = pos

/-- Every checksum field is enclosed by the struct its buffer names, and pseudo checksums come
with an IP header. -/
def ChecksumsEnclosed (t : Target) (n : ℕ) (c : Call) : Prop :=
  (∀ l, Located t n c l → ∀ cc kind buf protocol,
    t.type l.arg.ref = .csum cc kind buf protocol → l.BufEnclosed t c.syscall buf) ∧
  ((∃ l cc buf protocol, Located t n c l ∧ t.type l.arg.ref = .csum cc .pseudo buf protocol) →
    HeadersOk t (c.visits t n))

section Validated

variable {p : Prog} (hp : p.validate t = .ok ()) (hc : p.calls[n]? = some c)

include hp hc

theorem Located.csum_inner (h : Located t n c l)
    (htype : t.type l.arg.ref = .csum cc kind buf protocol) :
    l.IsInner t ∧ l.arg.key l.path = .place l.path := by
  obtain ⟨v, hv, -, harg⟩ := h.exists_visit
  unfold Location.IsInner
  cases hl : l.arg with
  | result r =>
    obtain ⟨_, _, _, hres⟩ :=
      isResource_of_validate hp hc (mem_append_right _ hv) (harg.trans hl)
    rw [hl, Arg.ref, hres] at htype
    cases htype
  | pointer q | pointerNil q =>
    have hptr : (t.type q.ref).isPtr = false := by
      rw [hl, Arg.ref] at htype
      rw [htype]
      rfl
    simp [Arg.inner, hptr, Arg.key]
  | _ => exact ⟨rfl, rfl⟩

theorem exists_csum_place (hf : f ∈ csumFields t kind (c.visits t n)) : ∃ l cc, Located t n c l ∧
    l.path = f.1.path ∧ l.arg = f.1.arg ∧ t.type l.arg.ref = .csum cc kind f.2.1 f.2.2 := by
  obtain ⟨hv, cc, htype⟩ := mem_csumFields_iff.mp hf
  rcases mem_append.mp hv with hret | hv'
  · obtain ⟨r, -, heq⟩ := mem_map.mp hret
    have harg : f.1.arg = .result r := by rw [← heq]
    obtain ⟨_, _, _, hres⟩ := isResource_of_validate hp hc hv harg
    rw [harg, Arg.ref, hres] at htype
    cases htype
  · obtain ⟨l, hl, hpath, harg⟩ := exists_place hv'
    exact ⟨l, cc, hl, hpath, harg, by rwa [harg]⟩

theorem Covers.region (hcov : Covers t (c.visits t n)
      (csumFields t .inet (c.visits t n) ++ csumFields t .pseudo (c.visits t n)) cs)
    (hl : Located t n c l) (htype : t.type l.arg.ref = .csum cc kind buf protocol)
    {e : Visit × CsumInfo} (he : e ∈ cs.map) (hepath : e.1.path = l.path) :
    ∃ u, findCsummedArg t (parentsMap t (c.visits t n)) buf (.place l.path) = some u ∧
      e.2.chunks.getLast? = some (.arg u) := by
  obtain ⟨f, hf, hef, u, hu, hlast⟩ := hcov.regions e he
  obtain ⟨kind', hf⟩ : ∃ kind', f ∈ csumFields t kind' (c.visits t n) := by
    rcases mem_append.mp hf with hf | hf
    · exact ⟨_, hf⟩
    · exact ⟨_, hf⟩
  obtain ⟨l', cc', hl', hpath', harg', htype'⟩ := exists_csum_place hp hc hf
  obtain rfl := hl'.unique hl (by rw [hpath', ← hef, hepath])
  obtain ⟨-, -, rfl, -⟩ := Typ.csum.inj (htype.symm.trans htype')
  have hfkey : f.1.key = .place l'.path := by
    rw [key, ← hpath', ← harg', (hl'.csum_inner hp hc htype).2]
  rw [hfkey] at hu
  exact ⟨u, hu, hlast⟩

/-- The checksums of a validated call are as the checker resolves them exactly if the structs it
resolves them to enclose the fields. -/
theorem checksums_resolved_iff_enclosed : ChecksumsResolved t n c ↔ ChecksumsEnclosed t n c := by
  constructor
  · rintro ⟨cs, hcs, hall⟩
    have hcov := calcChecksums_covers hcs
    obtain ⟨-, hhead⟩ := (calcChecksums_isSome_iff _).mp (Option.isSome_iff_exists.mpr ⟨cs, hcs⟩)
    constructor
    · intro l hl cc kind buf protocol htype
      obtain ⟨hin, hkey⟩ := hl.csum_inner hp hc htype
      obtain ⟨pos, hpos, ⟨e, he, hepath⟩, hregion⟩ := hall l hl cc kind buf protocol htype
      obtain ⟨u, hu, hupos⟩ := hregion e he hepath
      obtain ⟨w, hw, hlast⟩ := hcov.region hp hc hl htype he hepath
      obtain rfl : u = w := by simpa using hu.symm.trans hlast
      exact (hl.bufEnclosed_iff hin hkey buf).mp ⟨pos, u, hpos, hw, hupos⟩
    · rintro ⟨l, cc, buf, protocol, hl, htype⟩
      apply hhead
      obtain ⟨v, hv, hpath, harg⟩ := hl.exists_visit
      have hmem : (v, buf, protocol) ∈ csumFields t .pseudo (c.visits t n) :=
        mem_csumFields_iff.mpr ⟨mem_append_right _ hv, cc, by rw [← htype, harg]⟩
      exact ne_nil_of_mem hmem
  · rintro ⟨henc, hhead⟩
    have hfound : ∀ kind, ∀ f ∈ csumFields t kind (c.visits t n),
        (findCsummedArg t (parentsMap t (c.visits t n)) f.2.1 f.1.key).isSome := by
      intro kind f hf
      obtain ⟨l, cc, hl, hpath, harg, htype⟩ := exists_csum_place hp hc hf
      obtain ⟨hin, hkey⟩ := hl.csum_inner hp hc htype
      obtain ⟨pos, v, -, hv, -⟩ :=
        (hl.bufEnclosed_iff hin hkey f.2.1).mpr (henc l hl cc kind f.2.1 f.2.2 htype)
      rw [key, ← hpath, ← harg, hkey, hv]
      rfl
    have hsome : (calcChecksums t (c.visits t n)).isSome := by
      refine (calcChecksums_isSome_iff _).mpr ⟨?_, ?_⟩
      · intro f hf
        rcases mem_append.mp hf with hf | hf
        · exact hfound _ f hf
        · exact hfound _ f hf
      · intro hne
        obtain ⟨f, hf⟩ := exists_mem_of_ne_nil _ hne
        obtain ⟨l, cc, hl, -, -, htype⟩ := exists_csum_place hp hc hf
        exact hhead ⟨l, cc, f.2.1, f.2.2, hl, htype⟩
    obtain ⟨cs, hcs⟩ := Option.isSome_iff_exists.mp hsome
    refine ⟨cs, hcs, ?_⟩
    have hcov := calcChecksums_covers hcs
    intro l hl cc kind buf protocol htype
    obtain ⟨hin, hkey⟩ := hl.csum_inner hp hc htype
    obtain ⟨pos, v, hpos, hv, hvpos⟩ :=
      (hl.bufEnclosed_iff hin hkey buf).mpr (henc l hl cc kind buf protocol htype)
    refine ⟨pos, hpos, ?_, ?_⟩
    · obtain ⟨w, hw, hwpath, hwarg⟩ := hl.exists_visit
      have hmem : (w, buf, protocol) ∈ csumFields t kind (c.visits t n) :=
        mem_csumFields_iff.mpr ⟨mem_append_right _ hw, cc, by rw [← htype, hwarg]⟩
      obtain ⟨e, he, hew⟩ := hcov.all (w, buf, protocol) (by cases kind <;> simp [hmem])
      exact ⟨e, he, by rw [hew, hwpath]⟩
    · intro e he hepath
      obtain ⟨u, hu, hlast⟩ := hcov.region hp hc hl htype he hepath
      obtain rfl := Option.some.inj (hv.symm.trans hu)
      exact ⟨v, hlast, hvpos⟩

end Validated

end

/-! ### A checksum of another argument -/

/-- Types of a small target: a checksum of an argument called `a`, and a struct with its own. -/
def sumTypes : List Typ :=
  [ .int ⟨⟨"int32", 4, false⟩, .native, 0, 0, 0, 0⟩ .plain 0 0 0,
    .csum ⟨⟨"csum", 4, false⟩, .native, 0, 0, 0, 0⟩ .inet "a" 0,
    .ptr ⟨"ptr", 8, false⟩ 1 .dirIn,
    .csum ⟨⟨"csum", 2, false⟩, .native, 0, 0, 0, 0⟩ .inet "parent" 0,
    .struct ⟨"packet", some 2, false⟩ [⟨"sum", 3, false, .dirIn⟩] 0 0,
    .ptr ⟨"ptr", 8, false⟩ 4 .dirIn ]

/-- `foo(a int32, b ptr[in, csum[a, inet, int32]])`. -/
def fooSyscall : Syscall := ⟨0, "foo", [⟨"a", 0, false, .dirIn⟩, ⟨"b", 2, false, .dirIn⟩], none, false⟩

/-- `send(a ptr[in, packet])`. -/
def sendSyscall : Syscall := ⟨1, "send", [⟨"a", 5, false, .dirIn⟩], none, false⟩

def sumTarget : Target := smallTarget [fooSyscall, sendSyscall] sumTypes

/-- `foo(0x1, &(0x7f0000000000))`. -/
def fooCall : Call :=
  ⟨fooSyscall, [.const ⟨0, .dirIn⟩ 1, .pointer ⟨⟨2, .dirIn⟩, 0, 0⟩ (.const ⟨1, .dirIn⟩ 0)], none,
    CallProps.zero⟩

/-- `send(&(0x7f0000000000))`. -/
def sendCall : Call :=
  ⟨sendSyscall,
    [.pointer ⟨⟨5, .dirIn⟩, 0, 0⟩ (.group ⟨4, .dirIn⟩ [.const ⟨3, .dirIn⟩ 0])], none, CallProps.zero⟩

/-- The checker accepts a checksum of a sibling, for which there is then no struct to be found. -/
theorem fooCall_not_resolved :
    checkLenTargets sumTarget 5 ∧ (Prog.mk [fooCall] []).validate sumTarget = .ok () ∧
      calcChecksumsCall sumTarget 0 fooCall = none ∧ ¬ ChecksumsResolved sumTarget 0 fooCall := by
  have hnone : calcChecksumsCall sumTarget 0 fooCall = none := rfl
  refine ⟨by decide, by decide, hnone, ?_⟩
  rintro ⟨cs, hcs, -⟩
  cases hcs

theorem sendCall_csum (h : Located sumTarget 0 sendCall l)
    (htype : sumTarget.type l.arg.ref = .csum cc kind buf protocol) :
    kind = .inet ∧ l.BufEnclosed sumTarget sendCall.syscall buf := by
  obtain ⟨v, hv, hpath, harg⟩ := h.exists_visit
  rw [← harg] at htype
  simp only [sendCall, visitsArgs, Arg.visits, Arg.visitsInner, append_nil, nil_append,
    cons_append, mem_cons, not_mem_nil, or_false] at hv
  rcases hv with rfl | rfl | rfl
  · cases htype
  · cases htype
  · obtain ⟨-, rfl, rfl, -⟩ := Typ.csum.inj htype
    have hfield := ((Located.arg (t := sumTarget) (n := 0) (c := sendCall) (i := 0) rfl).child
      (i := 0) rfl).child (i := 0) rfl
    obtain rfl := h.unique hfield hpath.symm
    exact ⟨rfl, 0, _, rfl, rfl, rfl⟩

theorem sendCall_resolved :
    (Prog.mk [sendCall] []).validate sumTarget = .ok () ∧ ChecksumsResolved sumTarget 0 sendCall := by
  have hvalid : (Prog.mk [sendCall] []).validate sumTarget = .ok () := by decide
  refine ⟨hvalid, (checksums_resolved_iff_enclosed hvalid rfl).mpr ⟨?_, ?_⟩⟩
  · intro l hl cc kind buf protocol htype
    exact (sendCall_csum hl htype).2
  · rintro ⟨l, cc, buf, protocol, hl, htype⟩
    cases (sendCall_csum hl htype).1

end Brf
