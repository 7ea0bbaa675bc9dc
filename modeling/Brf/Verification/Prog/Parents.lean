import Brf.Verification.Prog.Places
import Mathlib.Data.List.Perm.Subperm

/-! # The map of parents

What `parentsMap` has for an argument, in checksums as well as in sizes, is the struct the
argument is a field of, and the loops up the map go through the structs that enclose it. -/

namespace Brf

open List Option Location Arg

section

variable {t : Target} {n : ℕ} {c : Call}

theorem Arg.innerKey_eq (a : Arg) : ∀ path,
    a.innerKey t path = (a.inner t path).map fun x => x.2.key x.1 := by
  induction a using tree_induction with
  | pointer p res ih =>
    intro path
    simp only [innerKey, Arg.inner]
    split
    · exact ih _
    · rfl
  | pointerNil p =>
    intro path
    simp only [innerKey, Arg.inner]
    split <;> rfl
  | _ => exact fun _ => rfl

def Location.IsInner (t : Target) (l : Location) : Prop := l.arg.inner t l.path = some (l.path, l.arg)

variable {l : Location}

theorem Located.inner (h : Located t n c l) {p : List ℕ} {b : Arg}
    (hb : l.arg.inner t l.path = some (p, b)) :
    Located t n c ⟨p, b, l.site, l.parents, l.direct⟩ ∧ b.inner t p = some (p, b) := by
  obtain ⟨path, a, site, parents, direct⟩ := l
  dsimp only at hb ⊢
  induction a using tree_induction generalizing path with
  | pointer q res ih =>
    by_cases hptr : (t.type q.ref).isPtr
    · rw [Arg.inner, if_pos hptr] at hb
      have hres : Located t n c ⟨path ++ [0], res, site, parents, direct⟩ :=
        h.child (i := 0) (by simp [Location.child, hptr])
      exact ih _ hres hb
    · rw [Arg.inner, if_neg hptr] at hb
      obtain ⟨rfl, rfl⟩ := Prod.mk.inj (some.inj hb)
      exact ⟨h, by rw [Arg.inner, if_neg hptr]⟩
  | pointerNil q =>
    by_cases hptr : (t.type q.ref).isPtr
    · simp [Arg.inner, hptr] at hb
    · rw [Arg.inner, if_neg hptr] at hb
      obtain ⟨rfl, rfl⟩ := Prod.mk.inj (some.inj hb)
      exact ⟨h, by rw [Arg.inner, if_neg hptr]⟩
  | _ =>
    obtain ⟨rfl, rfl⟩ := Prod.mk.inj (some.inj hb)
    exact ⟨h, rfl⟩

variable {f : Frame}

theorem Located.exists_field (h : Located t n c l) (hf : l.parent = some f) :
    ∃ g inner j, ∃ a : Arg, f.arg = .group g inner ∧ (t.type g.ref).isStruct ∧
      inner[j]? = some a ∧ a.inner t (f.path ++ [j]) = l.arg.inner t l.path := by
  induction h with
  | arg => simp [parent] at hf
  | @child l l' i hl hc ih =>
    rcases child_cases hc with ⟨p, res, harg, rfl, rfl⟩ | ⟨_, _, _, _, _, rfl⟩ |
      ⟨g, inner, a, harg, ha, hs, rfl⟩ | ⟨_, _, _, _, _, _, rfl⟩
    · obtain ⟨hdirect, hptr⟩ : l.direct ∧ (t.type p.ref).isPtr := by
        by_contra hno
        simp [parent] at hf
        exact hno hf.1
      obtain ⟨g, inner, j, a, hg, hs, hj, hkey⟩ :=
        ih (by simpa [parent, hdirect, hptr] using hf)
      refine ⟨g, inner, j, a, hg, hs, hj, hkey.trans ?_⟩
      rw [harg, Arg.inner, if_pos hptr]
    · simp [parent] at hf
    · obtain rfl : l.frame = f := by simpa [parent] using hf
      exact ⟨g, inner, i, a, harg, hs, ha, rfl⟩
    · simp [parent] at hf

/-- The struct visited by `v` has a field with the key `k`. -/
def Entry (t : Target) (n : ℕ) (c : Call) (k : ArgKey) (v : Visit) : Prop :=
  v ∈ visitsArgs t n 0 c.args ∧ ∃ g inner j, ∃ a : Arg, v.arg = .group g inner ∧
    (t.type g.ref).isStruct ∧ inner[j]? = some a ∧ a.innerKey t (v.path ++ [j]) = some k

/-- The visit is that of the frame. -/
def Frame.Is (f : Frame) (v : Visit) : Prop := v.path = f.path ∧ v.arg = f.arg

variable {v : Visit}

theorem Entry.place {k : ArgKey} (h : Entry t n c k v) : ∃ l, Located t n c l ∧ l.IsInner t ∧
    l.arg.key l.path = k ∧ ∃ f, l.parent = some f ∧ f.Is v := by
  obtain ⟨hv, g, inner, j, a, harg, hs, hj, hkey⟩ := h
  obtain ⟨l, hl, hpath, hlarg⟩ := exists_place hv
  have hchild : Located t n c ⟨l.path ++ [j], a, ⟨some g.ref, j⟩, l.frame :: l.parents, true⟩ :=
    hl.child (i := j) (by simp [child, hlarg, harg, hj, hs])
  rw [innerKey_eq, ← hpath] at hkey
  obtain ⟨⟨p, b⟩, hb, rfl⟩ := map_eq_some_iff.mp hkey
  obtain ⟨hin, hinner⟩ := hchild.inner hb
  exact ⟨_, hin, hinner, rfl, l.frame, rfl, hpath.symm, hlarg.symm⟩

theorem Located.exists_entry (h : Located t n c l) (hin : l.IsInner t)
    (hf : l.parent = some f) : ∃ v, Entry t n c (l.arg.key l.path) v ∧ f.Is v := by
  obtain ⟨g, inner, j, a, harg, hs, hj, hkey⟩ := h.exists_field hf
  obtain ⟨post, hpost⟩ : ∃ post, l.parents = [] ++ f :: post := by
    unfold parent at hf
    split at hf
    · cases hpar : l.parents with
      | nil => simp [hpar] at hf
      | cons f' post =>
        obtain rfl : f' = f := by simpa [hpar] using hf
        exact ⟨post, rfl⟩
    · cases hf
  obtain ⟨site, hfl⟩ := h.frame hpost
  obtain ⟨v, hv, hvpath, hvarg⟩ := hfl.exists_visit
  refine ⟨v, ⟨hv, g, inner, j, a, hvarg.trans harg, hs, hj, ?_⟩, hvpath, hvarg⟩
  rw [innerKey_eq, hvpath, hkey, hin]
  rfl

/-- The list has the entries of the call under `key`. -/
def IsParentMap (t : Target) (n : ℕ) (c : Call) {κ : Type} (key : ArgKey → κ)
    (m : List (κ × Visit)) : Prop :=
  ∀ k v, (key k, v) ∈ m ↔ Entry t n c k v

section Lookup

variable {κ : Type} [BEq κ] [LawfulBEq κ] {key : ArgKey → κ} {m : List (κ × Visit)}

theorem mem_of_lookup {k : κ} (h : m.lookup k = some v) : (k, v) ∈ m := by
  obtain ⟨l1, l2, rfl, -⟩ := lookup_eq_some_iff.mp h
  simp

theorem IsParentMap.entry_unique (h : Located t n c l) (hkey : l.arg.key l.path = .place l.path)
    (hv : Entry t n c (.place l.path) v) : ∃ f, l.parent = some f ∧ f.Is v := by
  obtain ⟨l', hl', -, hkey', hf⟩ := hv.place
  have hpath : l'.path = l.path := by
    cases harg : l'.arg <;> simp_all [key]
  obtain rfl := hl'.unique h hpath
  exact hf

section

variable (hm : IsParentMap t n c key m) (h : Located t n c l) (hin : l.IsInner t)
  (hkey : l.arg.key l.path = .place l.path)

include hm h hkey

include hin in
theorem IsParentMap.lookup_some (hf : l.parent = some f) :
    ∃ v, m.lookup (key (.place l.path)) = some v ∧ f.Is v := by
  obtain ⟨v, hv, -⟩ := h.exists_entry hin hf
  rw [hkey] at hv
  cases hlook : m.lookup (key (.place l.path)) with
  | none => simpa using lookup_eq_none_iff.mp hlook _ ((hm _ _).mpr hv)
  | some u =>
    obtain ⟨f', hf', his⟩ := entry_unique h hkey ((hm _ _).mp (mem_of_lookup hlook))
    obtain rfl := some.inj (hf.symm.trans hf')
    exact ⟨u, rfl, his⟩

theorem IsParentMap.lookup_none (hf : l.parent = none) :
    m.lookup (key (.place l.path)) = none := by
  cases hlook : m.lookup (key (.place l.path)) with
  | none => rfl
  | some u =>
    obtain ⟨f', hf', -⟩ := entry_unique h hkey ((hm _ _).mp (mem_of_lookup hlook))
    rw [hf] at hf'
    cases hf'

end

/-- The loops up the parents: the first one of which `p` holds. -/
def climb (look : ArgKey → Option Visit) (p : Arg → Bool) : (fuel : ℕ) → ArgKey → Option Visit
  | 0, _ => none
  | fuel + 1, k => (look k).bind fun v => if p v.arg then some v else climb look p fuel v.key

theorem findParent_eq_climb (m : List (ArgKey × Visit)) (name : String) (fuel : ℕ) (k : ArgKey) :
    findParent t m name fuel k =
      climb (m.lookup ·) (fun a => (t.type a.ref).name = name) fuel k := by
  induction fuel generalizing k with
  | zero => rfl
  | succ fuel ih => simp [findParent, climb, ih]

theorem Located.enclosing_cons (h : Located t n c l) (hf : l.parent = some f) :
    ∃ l', Located t n c l' ∧ l'.frame = f ∧ l'.IsInner t ∧ l'.arg.key l'.path = .place l'.path ∧
      l.parents = f :: l'.parents ∧ l.enclosing = f :: l'.enclosing := by
  obtain ⟨g, inner, harg, -⟩ := h.parent_isStruct hf
  unfold parent at hf
  split at hf
  · rename_i hdirect
    obtain ⟨post, hpost⟩ : ∃ post, l.parents = f :: post := by
      cases hpar : l.parents with
      | nil => simp [hpar] at hf
      | cons f' post =>
        obtain rfl : f' = f := by simpa [hpar] using hf
        exact ⟨post, rfl⟩
    obtain ⟨site, hl'⟩ := h.frame (show l.parents = [] ++ f :: post from hpost)
    refine ⟨_, hl', rfl, by rw [harg]; rfl, by rw [harg]; rfl, hpost, ?_⟩
    rw [Location.enclosing, hdirect, hpost]
    rfl
  · cases hf

theorem Location.enclosing_eq_nil (hf : l.parent = none) : l.enclosing = [] := by
  unfold parent at hf
  split at hf
  · rename_i hdirect
    rw [enclosing, head?_eq_none_iff.mp hf, hdirect]
    rfl
  · rename_i hdirect
    rw [enclosing, eq_false_of_ne_true hdirect]
    cases l.parents <;> rfl

variable (hm : IsParentMap t n c key m) (h : Located t n c l) (hin : l.IsInner t)
  (hkey : l.arg.key l.path = .place l.path)

include hm h hin hkey

theorem IsParentMap.climb_eq (p : Arg → Bool) (fuel : ℕ) :
    (climb (fun k => m.lookup (key k)) p fuel (.place l.path)).map (fun v => (v.path, v.arg)) =
      ((l.enclosing.take fuel).find? fun f => p f.arg).map fun f => (f.path, f.arg) := by
  induction fuel generalizing l with
  | zero => simp [climb]
  | succ fuel ih =>
    cases hf : l.parent with
    | none => simp [climb, hm.lookup_none h hkey hf, enclosing_eq_nil hf]
    | some f =>
      obtain ⟨v, hv, hvpath, hvarg⟩ := hm.lookup_some h hin hkey hf
      obtain ⟨l', hl', rfl, hin', hkey', -, henc⟩ := h.enclosing_cons hf
      have hvkey : v.key = .place l'.path := by
        rw [Visit.key, hvpath, hvarg]
        exact hkey'
      rw [climb, hv, henc, take_succ_cons, bind_some, hvarg, hvkey]
      by_cases hp : p l'.arg
      · simp [frame, hp, hvpath, hvarg]
      · simpa [frame, hp] using ih hl' hin' hkey'

/-- The way up is no longer than the map: it takes a key from it for each struct. -/
theorem IsParentMap.exists_keys (frames : List Frame) (hframes : l.parents = frames) :
    ∃ ps : List (List ℕ), ps.length = l.enclosing.length ∧ ps.Nodup ∧
      ∀ p ∈ ps, key (.place p) ∈ m.map Prod.fst ∧ p.length ≤ l.path.length := by
  induction frames generalizing l with
  | nil => exact ⟨[], by simp [enclosing_eq_nil, parent, hframes], by simp, by simp⟩
  | cons f fs ih =>
    cases hf : l.parent with
    | none => exact ⟨[], by simp [enclosing_eq_nil hf], by simp, by simp⟩
    | some f' =>
      obtain ⟨v, hv, -⟩ := hm.lookup_some h hin hkey hf
      obtain ⟨l', hl', rfl, hin', hkey', hpar, henc⟩ := h.enclosing_cons hf
      have hshort : l'.path.length < l.path.length := h.frame_length hpar
      obtain ⟨ps, hlen, hnodup, hps⟩ := ih hl' hin' hkey' (by simp_all)
      refine ⟨l.path :: ps, by simp [henc, hlen], nodup_cons.mpr ⟨?_, hnodup⟩, ?_⟩
      · intro hmem
        have := (hps _ hmem).2
        omega
      · intro p hp
        rcases mem_cons.mp hp with rfl | hp
        · exact ⟨mem_map_of_mem (mem_of_lookup hv), Nat.le_refl _⟩
        · exact ⟨(hps p hp).1, by have := (hps p hp).2; omega⟩

theorem IsParentMap.enclosing_length_le (hinj : Function.Injective key) :
    l.enclosing.length ≤ m.length := by
  obtain ⟨ps, hlen, hnodup, hps⟩ := hm.exists_keys h hin hkey l.parents rfl
  have hinj' : Function.Injective fun p => key (.place p) :=
    fun p q hpq => ArgKey.place.inj (hinj hpq)
  have hsub : ps.map (fun p => key (.place p)) ⊆ m.map Prod.fst := by
    intro k hk
    obtain ⟨p, hp, rfl⟩ := mem_map.mp hk
    exact (hps p hp).1
  have := (List.Nodup.subperm (hnodup.map hinj') hsub).length_le
  simpa [← hlen] using this

theorem IsParentMap.climb_all (hinj : Function.Injective key) (p : Arg → Bool) :
    (climb (fun k => m.lookup (key k)) p (m.length + 1) (.place l.path)).map
        (fun v => (v.path, v.arg)) =
      (l.enclosing.find? fun f => p f.arg).map fun f => (f.path, f.arg) := by
  rw [hm.climb_eq h hin hkey, take_of_length_le]
  have := hm.enclosing_length_le h hin hkey hinj
  omega

end Lookup

/-! ### The parents of the checker -/

/-- The parents the checker knows the frames by, the syscall being the last. -/
def frameDescs (t : Target) (s : Syscall) (fs : List Frame) : List ParentDesc :=
  fs.map (fun f => t.parentDesc f.arg.ref) ++ [s.parentDesc]

/-- The check of the targets of a field, under the parents it has in the tree. -/
def Location.check (t : Target) (s : Syscall) (l : Location) (offsetof : Bool)
    (targets : List String) :
    LenCheck :=
  ⟨l.site, offsetof, targets, frameDescs t s l.parents⟩

variable {k : ℕ}

theorem frameDescs_getElem? {s : Syscall} {fs : List Frame}
    (h : fs[k]? = some f) : (frameDescs t s fs)[k]? = some (t.parentDesc f.arg.ref) := by
  rw [frameDescs, getElem?_append_left, getElem?_map, h]
  · rfl
  · simpa using (List.getElem?_eq_some_iff.mp h).1

theorem parentDesc_name (r : Ref) : (t.parentDesc r).name = (t.type r).templateName := by
  unfold Target.parentDesc
  split <;> rfl

theorem map_eq_ok {ε α β : Type} {x : Except ε α} {f : α → β} {b : β} (h : x.map f = .ok b) :
    ∃ a, x = .ok a ∧ f a = b := by
  cases x with
  | error e => cases h
  | ok a => exact ⟨a, rfl, Except.ok.inj h⟩

variable {fuel : ℕ} {steps : List LenStep}

/-- What the checker does with the first of its targets: a step to a field, or else one to a
parent that answers. -/
theorem checkLenTargetRec_eq_ok {t0 : FieldSite} {offsetof : Bool} {target : String}
    {targets : List String} {desc : ParentDesc} {outer : List ParentDesc}
    (h : checkLenTargetRec t fuel t0 offsetof (target :: targets) (desc :: outer) = .ok steps) :
    (∃ i rest, desc.fields.findIdx? (·.name = target) = some i ∧ steps = .field i :: rest ∧
      (targets = [] ∧ rest = [] ∨ targets ≠ [] ∧ ∃ f, desc.fields[i]? = some f ∧
        (t.type (t.derefPointers fuel f.type)).isStruct ∧
        checkLenTargetRec t fuel t0 offsetof targets
          (t.parentDesc (t.derefPointers fuel f.type) :: desc :: outer) = .ok rest)) ∨
    (desc.fields.findIdx? (·.name = target) = none ∧
      ∃ k rest, (desc :: outer).findIdx? (·.answers target) = some k ∧ steps = .up k :: rest ∧
      (targets = [] ∧ rest = [] ∨ targets ≠ [] ∧
        checkLenTargetRec t fuel t0 offsetof targets ((desc :: outer).drop k) = .ok rest)) := by
  rw [checkLenTargetRec] at h
  split at h
  · rename_i i hidx
    refine .inl ⟨i, ?_⟩
    split at h
    · cases h
    · split at h
      · rename_i hnil
        obtain rfl := Except.ok.inj h
        exact ⟨[], hidx, rfl, .inl ⟨List.isEmpty_iff.mp hnil, rfl⟩⟩
      · rename_i hne
        obtain ⟨hlt, -⟩ := findIdx?_eq_some_iff_getElem.mp hidx
        rw [getElem?_eq_getElem hlt, map_some, getD_some] at h
        dsimp only at h
        split at h
        · rename_i htype
          obtain ⟨rest, hrest, rfl⟩ := map_eq_ok h
          exact ⟨rest, hidx, rfl, .inr ⟨by simpa using hne, _, getElem?_eq_getElem hlt,
            by rw [htype]; rfl, hrest⟩⟩
        · cases h
  · rename_i hidx
    refine .inr ⟨hidx, ?_⟩
    split at h
    · rename_i k hk
      refine ⟨k, ?_⟩
      split at h
      · rename_i hnil
        split at h
        · cases h
        · obtain rfl := Except.ok.inj h
          exact ⟨[], hk, rfl, .inl ⟨List.isEmpty_iff.mp hnil, rfl⟩⟩
      · rename_i hne
        obtain ⟨rest, hrest, rfl⟩ := map_eq_ok h
        exact ⟨rest, hk, rfl, .inr ⟨by simpa using hne, hrest⟩⟩
    · cases h

theorem checkLenTarget_eq_ok {chk : LenCheck}
    (h : checkLenTarget t fuel chk = .ok steps) : checkRefs chk.targets.length 0 chk.targets =
    .ok () ∧ checkLenTargetRec t fuel chk.t0 chk.offsetof chk.targets chk.parents = .ok steps := by
  unfold checkLenTarget at h
  cases hrefs : checkRefs chk.targets.length 0 chk.targets with
  | error e =>
    rw [hrefs] at h
    cases h
  | ok u =>
    rw [hrefs] at h
    exact ⟨rfl, h⟩

theorem Location.parent_eq_head? (l : Location) : l.parent = l.enclosing.head? := by
  unfold parent enclosing
  cases l.direct <;> cases l.parents <;> rfl

theorem enclosing_isPrefix (direct : Bool) (fs : List Frame) : enclosing direct fs <+: fs := by
  induction fs generalizing direct with
  | nil => cases direct <;> exact nil_prefix
  | cons f fs ih =>
    cases direct with
    | false => exact nil_prefix
    | true => exact cons_prefix_cons.mpr ⟨rfl, ih f.direct⟩

theorem Location.parents_of_enclosing (h : l.enclosing[k]? = some f) : l.parents[k]? = some f := by
  obtain ⟨rest, hrest⟩ := enclosing_isPrefix l.direct l.parents
  unfold enclosing at h
  rw [← hrest, getElem?_append_left (List.getElem?_eq_some_iff.mp h).1]
  exact h

end

end Brf
