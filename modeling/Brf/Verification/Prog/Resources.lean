import Brf.Model.Resources

/-! # Calls that can be enabled

The calls that `TransitivelyEnabledCalls` keeps are the least set that can create all its
resources, in whatever order the maps are visited. -/

namespace Brf

open Brf.Lib List Option ResourceTarget AList Res Nat

variable {n : ℕ} {depth : Ref → ℕ}

section Visits

variable {t : Target} {stop : Typ → Bool} {seen : List Place} {visits : List (Typ × TypeCtx)}
  {fuel : ℕ} {stack : List Place}

theorem type_of_foreachType
    (h : t.foreachType stop fuel seen stack = some visits) : ∀ v ∈ visits, ∃ r, t.type r = v.1 := by
  induction fuel generalizing seen stack visits with
  | zero =>
    cases stack with
    | nil =>
      cases h
      simp
    | cons place stack => cases h
  | succ fuel ih =>
    cases stack with
    | nil =>
      cases h
      simp
    | cons place stack =>
      obtain ⟨rest, hrest, rfl⟩ := map_eq_some_iff.mp h
      exact forall_mem_cons.mpr ⟨⟨place.type, rfl⟩, ih hrest⟩

theorem foreachType_mono {fuel' : ℕ} (hle : fuel ≤ fuel')
    (h : t.foreachType stop fuel seen stack = some visits) :
    t.foreachType stop fuel' seen stack = some visits := by
  induction fuel generalizing fuel' seen stack visits with
  | zero =>
    cases stack with
    | nil =>
      cases h
      cases fuel' <;> rfl
    | cons place stack => cases h
  | succ fuel ih =>
    obtain ⟨fuel', rfl⟩ : ∃ n, fuel' = n + 1 := ⟨fuel' - 1, by omega⟩
    cases stack with
    | nil =>
      cases h
      rfl
    | cons place stack =>
      obtain ⟨rest, hrest, rfl⟩ := map_eq_some_iff.mp h
      exact map_eq_some_iff.mpr ⟨rest, ih (by omega) hrest, rfl⟩

def Typ.children : Typ → List Ref
  | .ptr _ elem _ | .array _ elem _ _ _ => [elem]
  | .struct _ fields _ _ | .union _ fields => fields.map Field.type
  | _ => []

/-- Pointers and arrays do not stop a recursion. -/
def Typ.elem? : Typ → Option Ref
  | .ptr _ elem _ | .array _ elem _ _ _ => some elem
  | _ => none

/-- What the compiler makes sure of: a call has finitely many types, and a type contains itself
through a struct or a union only. -/
structure Target.Bounded (t : Target) (n : ℕ) (depth : Ref → ℕ) : Prop where
  calls : ∀ c ∈ t.syscalls, ∀ place ∈ c.places, place.type < n
  children : ∀ r < n, ∀ r' ∈ (t.type r).children, r' < n
  depth : ∀ r r', (t.type r).elem? = some r' → depth r' < depth r

/-- Below a type there is nothing new, or one element, or the fields of a struct or a union that
was not seen yet. -/
theorem below_cases (t : Target) (seen : List Place) (place : Place) : t.below seen place =
    ([], seen) ∨ (∃ p, t.below seen place = ([p], seen) ∧ (t.type place.type).elem? = some p.type) ∨
    place ∉ seen ∧ (t.below seen place).2 = place :: seen := by
  have hfields : ∀ fields : List Place,
      (if place ∈ seen then ([], seen) else (fields, place :: seen)) = ([], seen) ∨
      place ∉ seen ∧ (if place ∈ seen then ([], seen) else (fields, place :: seen)).2 =
        place :: seen := by
    intro fields
    by_cases hseen : place ∈ seen
    · exact .inl (if_pos hseen)
    · exact .inr ⟨hseen, by rw [if_neg hseen]⟩
  rw [Target.below]
  split
  · exact .inr (.inl ⟨_, rfl, by rw [‹t.type _ = _›]; rfl⟩)
  · exact .inr (.inl ⟨_, rfl, by rw [‹t.type _ = _›]; rfl⟩)
  · exact (hfields _).imp id .inr
  · exact (hfields _).imp id .inr
  · exact .inl rfl

variable {place : Place}

theorem below_children {p : Place} (hp : p ∈ (t.below seen place).1) :
    p.type ∈ (t.type place.type).children := by
  have hfields : ∀ fields : List Field, p ∈ (if place ∈ seen then ([], seen) else
      (fields.map fun f => (⟨f.type, f.dir place.dir, place.optional⟩ : Place), place :: seen)).1 →
      p.type ∈ fields.map Field.type := by
    intro fields hp
    split at hp
    · cases hp
    · obtain ⟨f, hf, rfl⟩ := mem_map.mp hp
      exact mem_map.mpr ⟨f, hf, rfl⟩
  rw [Target.below] at hp
  split at hp
  · rw [‹t.type _ = _›, mem_singleton.mp hp]
    exact mem_singleton_self _
  · rw [‹t.type _ = _›, mem_singleton.mp hp]
    exact mem_singleton_self _
  · rw [‹t.type _ = _›]
    exact hfields _ hp
  · rw [‹t.type _ = _›]
    exact hfields _ hp
  · cases hp

/-- The keys that `seen` can have. -/
def placesBelow (n : ℕ) : Finset Place :=
  ((List.range n).flatMap fun r => [Dir.dirIn, .dirOut, .dirInOut].flatMap fun dir =>
    [true, false].map fun optional => ⟨r, dir, optional⟩).toFinset

theorem mem_placesBelow : place ∈ placesBelow n ↔ place.type < n := by
  obtain ⟨r, dir, optional⟩ := place
  cases dir <;> cases optional <;> simp [placesBelow]

/-- All types of a call are visited. The induction is on the places that are not seen yet, then
on the stack, and for pointers and arrays on the depth of the type on top. -/
theorem exists_foreachType (h : t.Bounded n depth) (stop : Typ → Bool)
    (seen stack : List Place) (hstack : ∀ p ∈ stack, p.type < n) :
    ∃ fuel visits, t.foreachType stop fuel seen stack = some visits := by
  induction hk : (placesBelow n \ seen.toFinset).card using Nat.strong_induction_on
    generalizing seen stack with
  | _ k ihseen =>
  induction stack with
  | nil => exact ⟨0, [], rfl⟩
  | cons place stack ihstack =>
    obtain ⟨hplace, htail⟩ := forall_mem_cons.mp hstack
    clear hstack
    induction hd : depth place.type using Nat.strong_induction_on generalizing place with
    | _ d ihdepth =>
    let key : Place := { place with optional := place.optional || (t.type place.type).isOptional }
    suffices hnext : ∃ fuel visits, t.foreachType stop fuel
        (if stop (t.type place.type) then ([], seen) else t.below seen key).2
        ((if stop (t.type place.type) then ([], seen) else t.below seen key).1 ++ stack) =
          some visits by
      obtain ⟨fuel, visits, hvisits⟩ := hnext
      exact ⟨fuel + 1, _, map_eq_some_iff.mpr ⟨visits, hvisits, rfl⟩⟩
    have hrest := ihstack htail
    split
    · exact hrest
    rcases below_cases t seen key with hnone | ⟨p, hone, helem⟩ | ⟨hnew, hseen⟩
    · rw [hnone]
      exact hrest
    · rw [hone]
      have hmem : p ∈ (t.below seen key).1 := by simp [hone]
      have hp : p.type < n := h.children key.type hplace p.type (below_children hmem)
      exact ihdepth _ (hd ▸ h.depth _ _ helem) p hp rfl
    · rw [hseen]
      refine ihseen _ ?_ _ _ (fun p hp => ?_) rfl
      · rw [← hk]
        refine Finset.card_lt_card ((Finset.ssubset_iff_of_subset ?_).mpr ⟨key, ?_, ?_⟩)
        · intro p
          simp only [toFinset_cons, Finset.mem_sdiff, Finset.mem_insert, not_or]
          exact fun hp => ⟨hp.1, hp.2.2⟩
        · exact Finset.mem_sdiff.mpr ⟨mem_placesBelow.mpr hplace, by simpa using hnew⟩
        · simp
      · rcases mem_append.mp hp with hp | hp
        · exact h.children key.type hplace p.type (below_children hp)
        · exact htail p hp

end Visits

/-! ### The resources of calls -/

variable {name : String}

section Calls

variable {t : ResourceTarget} {fuel fuel' : ℕ} {calls : List CallResources} {c : CallResources}
  {meta' : Syscall}

theorem callResources_mono (hle : fuel ≤ fuel')
    (h : t.callResources fuel meta' = some c) : t.callResources fuel' meta' = some c := by
  obtain ⟨visits, hvisits, h⟩ := bind_eq_some_iff.mp h
  obtain ⟨inputs, hinputs, h⟩ := bind_eq_some_iff.mp h
  obtain ⟨visits', hvisits', hinputs⟩ := bind_eq_some_iff.mp hinputs
  refine bind_eq_some_iff.mpr ⟨visits, foreachType_mono hle hvisits, ?_⟩
  refine bind_eq_some_iff.mpr ⟨inputs, ?_, h⟩
  exact bind_eq_some_iff.mpr ⟨visits', foreachType_mono hle hvisits', hinputs⟩

theorem exists_populateResourceCtors (h : t.Bounded n depth) :
    ∃ fuel calls, t.populateResourceCtors fuel = some calls := by
  have hcall : ∀ meta' ∈ t.syscalls, ∃ fuel c, t.callResources fuel meta' = some c := by
    intro meta' hmeta
    obtain ⟨n1, visits, hvisits⟩ :=
      exists_foreachType h stopsCreation [] meta'.places (h.calls meta' hmeta)
    obtain ⟨n2, visits', hvisits'⟩ :=
      exists_foreachType h (fun _ => false) [] meta'.places (h.calls meta' hmeta)
    have hfirst := foreachType_mono (le_max_left n1 n2) hvisits
    have hsecond := foreachType_mono (le_max_right n1 n2) hvisits'
    refine ⟨max n1 n2, ?_⟩
    simp [callResources, getInputResources, Target.foreachCallType, hfirst, hsecond]
  suffices hall : ∀ l : List Syscall, (∀ meta' ∈ l, meta' ∈ t.syscalls) →
      ∃ fuel calls, ∀ fuel' ≥ fuel, l.mapM (t.callResources fuel') = some calls by
    obtain ⟨fuel, calls, hcalls⟩ := hall t.syscalls fun _ h => h
    exact ⟨fuel, calls, hcalls fuel (le_refl fuel)⟩
  intro l hl
  induction l with
  | nil => exact ⟨0, [], fun _ _ => rfl⟩
  | cons meta' l ih =>
    obtain ⟨n1, c, hc⟩ := hcall meta' (hl meta' mem_cons_self)
    obtain ⟨n2, calls, hcalls⟩ := ih fun m hm => hl m (mem_cons_of_mem meta' hm)
    refine ⟨max n1 n2, c :: calls, fun fuel' hfuel => ?_⟩
    rw [mapM_cons, callResources_mono (by omega) hc, hcalls fuel' (by omega)]
    rfl

/-- `genResource`: the kind of a resource is that of its base, and its own name. -/
inductive Lineage (base : String → Option String) : String → List String → Prop where
  | root {name : String} : base name = none → Lineage base name [name]
  | derived {name parent : String} {kind : List String} : base name = some parent →
      Lineage base parent kind → Lineage base name (kind ++ [name])

variable {base : String → Option String} {kind : List String} {kind' : List String}

theorem Lineage.unique
    (h : Lineage base name kind) (h' : Lineage base name kind') : kind = kind' := by
  induction h generalizing kind' with
  | root hbase =>
    cases h' with
    | root => rfl
    | derived hbase' => simp [hbase] at hbase'
  | derived hbase _ ih =>
    cases h' with
    | root hbase' => simp [hbase] at hbase'
    | derived hbase' h' =>
      rw [hbase] at hbase'
      cases hbase'
      rw [ih h']

theorem Lineage.name_mem (h : Lineage base name kind) : name ∈ kind := by
  cases h <;> simp

/-- A resource that occurs in a kind has the part of it up to there as its own kind. -/
theorem Lineage.initial_of_mem {name' : String} (h : Lineage base name kind)
    (h' : Lineage base name' kind') (hmem : name ∈ kind') : kind <+: kind' := by
  induction h' with
  | root =>
    obtain rfl := mem_singleton.mp hmem
    rw [h.unique (.root ‹_›)]
  | @derived name' _ kind' hbase hparent ih =>
    rcases mem_append.mp hmem with hmem | hmem
    · exact (ih hmem).trans (prefix_append kind' [name'])
    · obtain rfl := mem_singleton.mp hmem
      rw [h.unique (.derived hbase hparent)]

/-- What the compiler and `restoreLinks` make sure of. -/
structure ResourceTarget.Linked (t : ResourceTarget) : Prop where
  descs : ∀ r c f desc, t.type r = .resource c f desc → desc ∈ t.resources
  names : ∀ d ∈ t.resources, ∀ d' ∈ t.resources, d.name = d'.name → d = d'
  lineage : ∃ base, ∀ d ∈ t.resources, Lineage base d.name d.kind

variable {v : Typ × TypeCtx} {d : ResourceDesc}

theorem createdResource_eq_some
    (h : createdResource v = some d) : ∃ c f, v.1 = .resource c f d := by
  unfold createdResource at h
  split at h
  · split at h
    · cases h
    · cases h
      exact ⟨_, _, rfl⟩
  · cases h

theorem inputResource_eq_some {os : String}
    (h : inputResource os v = some (.declared d)) : ∃ c f, v.1 = .resource c f d := by
  obtain ⟨typ, ctx⟩ := v
  simp only [inputResource] at h
  split at h
  · cases h
  split at h
  · split at h
    · cases h
    · cases h
      exact ⟨_, _, rfl⟩
  · split at h <;> cases h
  · cases h

theorem callResources_spec (hl : t.Linked) (h : t.callResources fuel meta' = some c) :
    c.call = meta' ∧ (∀ d ∈ c.created, d ∈ t.resources) ∧
      (∀ d, declared d ∈ c.inputResources → d ∈ t.resources) ∧
      c.outputResources = c.created.map .declared ++
        if t.syscallMap "clock_gettime" = some meta' then [Res.timespec] else [] := by
  obtain ⟨visits, hvisits, h⟩ := bind_eq_some_iff.mp h
  obtain ⟨inputs, hinputs, h⟩ := bind_eq_some_iff.mp h
  obtain ⟨visits', hvisits', hinputs⟩ := bind_eq_some_iff.mp hinputs
  cases hinputs
  cases h
  refine ⟨rfl, fun d hd => ?_, fun d hd => ?_, rfl⟩
  · obtain ⟨v, hv, hcreated⟩ := mem_filterMap.mp (mem_eraseDups.mp hd)
    obtain ⟨r, hr⟩ := type_of_foreachType hvisits v hv
    obtain ⟨c, f, htyp⟩ := createdResource_eq_some hcreated
    exact hl.descs r c f d (hr.trans htyp)
  · obtain ⟨v, hv, hinput⟩ := mem_filterMap.mp (mem_eraseDups.mp hd)
    obtain ⟨r, hr⟩ := type_of_foreachType hvisits' v hv
    obtain ⟨c, f, htyp⟩ := inputResource_eq_some hinput
    exact hl.descs r c f d (hr.trans htyp)

theorem callResources_of_mem (h : t.populateResourceCtors fuel = some calls) (hc : c ∈ calls) :
    t.callResources fuel c.call = some c := by
  suffices hall : ∀ (l : List Syscall) calls, l.mapM (t.callResources fuel) = some calls →
      ∀ c ∈ calls, ∃ meta', t.callResources fuel meta' = some c by
    obtain ⟨meta', hmeta⟩ := hall t.syscalls calls h c hc
    have hcall : c.call = meta' := by
      obtain ⟨visits, _, heq⟩ := bind_eq_some_iff.mp hmeta
      obtain ⟨inputs, _, heq⟩ := bind_eq_some_iff.mp heq
      cases heq
      rfl
    rw [hcall, hmeta]
  intro l
  induction l with
  | nil =>
    rintro _ ⟨⟩ c hc
    cases hc
  | cons meta' l ih =>
    intro calls h c hc
    rw [mapM_cons] at h
    obtain ⟨c1, hc1, h⟩ := bind_eq_some_iff.mp h
    obtain ⟨rest, hrest, h⟩ := bind_eq_some_iff.mp h
    cases h
    rcases mem_cons.mp hc with rfl | hc
    · exact ⟨meta', hc1⟩
    · exact ih rest hrest c hc

variable {dst src : List String}

theorem all_zip_iff (hlen : dst.length ≤ src.length) :
    ((dst.zip src).all fun k => k.1 = k.2) ↔ dst <+: src := by
  induction dst generalizing src with
  | nil => simp
  | cons k dst ih =>
    cases src with
    | nil => simp at hlen
    | cons k' src =>
      have hrest := ih (le_of_succ_le_succ hlen)
      simp [cons_prefix_cons, ← hrest]

theorem isCompatibleResourceImpl_precise : isCompatibleResourceImpl dst src true ↔ dst <+: src := by
  rw [isCompatibleResourceImpl]
  by_cases hlen : src.length < dst.length
  · simp only [hlen, decide_true, Bool.and_self, if_true, Bool.false_eq_true, false_iff]
    exact fun hpre => absurd hpre.length_le (by omega)
  · simp only [hlen, decide_false, Bool.false_and, Bool.false_eq_true, if_false]
    split
    · rw [all_zip_iff (by rw [length_take]; omega), prefix_take_iff]
      simp
    · exact all_zip_iff (by omega)

theorem mem_calcResourceCtors_of_created {res o : ResourceDesc} (hres : res ∈ t.resources)
    (hc : c ∈ calls) (ho : o ∈ c.created) (hkind : res.kind <+: o.kind) :
    c ∈ t.calcResourceCtors calls (.declared res) true := by
  obtain ⟨i, hi⟩ := mem_iff_getElem?.mp hc
  have hok : (c.created.any fun callRes => isCompatibleResourceImpl res.kind callRes.kind true) =
      true :=
    any_eq_true.mpr ⟨o, ho, isCompatibleResourceImpl_precise.mpr hkind⟩
  have hctor : ⟨i, true⟩ ∈ t.ctors calls (.declared res) := by
    rw [ctors, if_pos hres, resourceCtors, mem_flatMap]
    refine ⟨(c, i), mem_zipIdx_iff_getElem?.mpr hi, mem_append_left _ ?_⟩
    rw [if_pos hok]
    exact mem_singleton_self _
  refine mem_append_left _ (mem_filterMap.mpr ⟨⟨i, true⟩, ?_, hi⟩)
  exact mem_filter.mpr ⟨hctor, rfl⟩

theorem mem_calcResourceCtors_timespec (hc : c ∈ calls)
    (hclock : t.syscallMap "clock_gettime" = some c.call) :
    c ∈ t.calcResourceCtors calls .timespec true := by
  have hkind : timespec.kind.head? = some timespec.name := rfl
  refine mem_append_right _ ?_
  exact mem_filter.mpr ⟨hc, by simpa using hclock⟩

/-- No resource of the target has the special name. -/
def ResourceTarget.Plain (t : ResourceTarget) : Prop :=
  ∀ d ∈ t.resources, timespec.name ∉ d.kind

variable {res : Res} {c' : CallResources}

variable {found found' : Rules.State CallResources String}

/-- The first input that no supported call creates. -/
def lacking (found : Rules.State CallResources String) (c : CallResources) : Option Res :=
  c.inputResources.find? fun res => res.name ∉ found.facts

theorem mem_disabled (l : List CallResources) (d : Disabling) :
    c ∈ (l.foldl (t.disable calls found) d).disabled ↔
      c ∈ d.disabled ∨ c ∈ l ∧ c ∉ found.applied ∧ (lacking found c).isSome := by
  induction l generalizing d with
  | nil => simp
  | cons c' l ih =>
    have hstep : c ∈ (t.disable calls found d c').disabled ↔
        c ∈ d.disabled ∨ c = c' ∧ c ∉ found.applied ∧ (lacking found c).isSome := by
      rw [disable]
      by_cases hc' : c' ∈ found.applied
      · grind
      · rw [if_neg hc']
        cases hlack : lacking found c' with
        | none =>
          rw [lacking] at hlack
          grind [lacking]
        | some res =>
          rw [lacking] at hlack
          rw [hlack]
          simp only [mem_insert]
          grind [lacking]
    grind

/-- The names kept for later are those of the constructors. -/
structure Disabling.Right (t : ResourceTarget) (calls : List CallResources)
    (found : Rules.State CallResources String) (d : Disabling) : Prop where
  ctors : ∀ c ∈ calls, ∀ res ∈ c.inputResources, ∀ names, d.ctors.lookup res.name = some names →
    names = t.ctorNames calls res
  texts : ∀ c text, d.disabled.lookup c = some text →
    ∃ res, lacking found c = some res ∧ text = disabledText res (t.ctorNames calls res)

section Plain

variable (hl : t.Linked) (hplain : t.Plain)
  (hcalls : t.populateResourceCtors fuel = some calls)
include hl hplain hcalls

theorem mem_calcResourceCtors (hc : c ∈ calls)
    (hc' : c' ∈ calls) (hres : res ∈ c.inputResources)
    (hgives : res.name ∈ callRules.gives c') : c' ∈ t.calcResourceCtors calls res true := by
  obtain ⟨base, hbase⟩ := hl.lineage
  obtain ⟨-, -, hinputs, -⟩ := callResources_spec hl (callResources_of_mem hcalls hc)
  obtain ⟨-, hcreated, -, houtputs⟩ := callResources_spec hl (callResources_of_mem hcalls hc')
  obtain ⟨o, ho, hname⟩ := mem_flatMap.mp hgives
  rw [houtputs] at ho
  rcases mem_append.mp ho with ho | ho
  · obtain ⟨d, hd, rfl⟩ := mem_map.mp ho
    cases res with
    | timespec => exact absurd hname (hplain d (hcreated d hd))
    | declared r =>
      have hr := hinputs r hres
      exact mem_calcResourceCtors_of_created hr hc' hd
        ((hbase r hr).initial_of_mem (hbase d (hcreated d hd)) hname)
  · -- only `clock_gettime` has the special resource
    split at ho
    · rename_i hclock
      obtain rfl := mem_singleton.mp ho
      have hspecial : res.name = timespec.name := mem_singleton.mp hname
      cases res with
      | timespec => exact mem_calcResourceCtors_timespec hc' hclock
      | declared r =>
        have hr := hinputs r hres
        exact absurd (hspecial ▸ (hbase r hr).name_mem) (hplain r hr)
    · cases ho

/-- Inputs of calls with the same name are the same resource. -/
theorem input_unique (hc : c ∈ calls) (hc' : c' ∈ calls) {res' : Res} (hres : res ∈ c.inputResources)
    (hres' : res' ∈ c'.inputResources) (hname : res.name = res'.name) : res = res' := by
  obtain ⟨base, hbase⟩ := hl.lineage
  have hinput : ∀ {c : CallResources}, c ∈ calls → ∀ {r}, declared r ∈ c.inputResources →
      r ∈ t.resources ∧ r.name ≠ timespec.name := by
    intro c hc r hr
    have hmem := (callResources_spec hl (callResources_of_mem hcalls hc)).2.2.1 r hr
    exact ⟨hmem, fun hname => hplain r hmem (hname ▸ (hbase r hmem).name_mem)⟩
  cases res with
  | timespec =>
    cases res' with
    | timespec => rfl
    | declared r' => exact absurd hname.symm (hinput hc' hres').2
  | declared r =>
    cases res' with
    | timespec => exact absurd hname (hinput hc hres).2
    | declared r' =>
      rw [hl.names r (hinput hc hres).1 r' (hinput hc' hres').1 hname]

theorem Disabling.Right.disable {d : Disabling} (h : d.Right t calls found)
    (hc : c ∈ calls) : (t.disable calls found d c).Right t calls found := by
  rw [ResourceTarget.disable]
  split
  · exact h
  cases hlack : lacking found c with
  | none =>
    have hnone := hlack
    rw [lacking] at hnone
    rw [hnone]
    exact h
  | some res =>
    have hsome := hlack
    rw [lacking] at hsome
    rw [hsome]
    have hres := mem_of_find?_eq_some hsome
    have hnames : (if (d.ctors.lookup res.name).getD [] = [] then t.ctorNames calls res
        else (d.ctors.lookup res.name).getD []) = t.ctorNames calls res := by
      split
      · rfl
      · cases hlook : d.ctors.lookup res.name with
        | none => simp [hlook] at *
        | some names => exact h.ctors c hc res hres names hlook
    simp only [hnames]
    constructor
    · intro c' hc' res' hres' names hlook
      rw [Dict.lookup_insert_ite] at hlook
      split at hlook
      · rename_i hname
        rw [input_unique hl hplain hcalls hc' hc hres' hres hname]
        exact (some.inj hlook).symm
      · exact h.ctors c' hc' res' hres' names hlook
    · intro c' text hlook
      rw [Dict.lookup_insert_ite] at hlook
      split at hlook
      · rename_i heq
        rw [heq]
        exact ⟨res, hlack, (some.inj hlook).symm⟩
      · exact h.texts c' text hlook

theorem Disabling.Right.foldl {l : List CallResources} (hsub : l ⊆ calls)
    {d : Disabling} (h : d.Right t calls found) :
    (l.foldl (t.disable calls found) d).Right t calls found := by
  induction l generalizing d with
  | nil => exact h
  | cons c l ih =>
    have hsub := cons_subset.mp hsub
    exact ih hsub.2 (h.disable hl hplain hcalls hsub.1)

end Plain

variable {enabled enabled' supported supported' : List CallResources}
  {disabled disabled' : Dict CallResources String}

theorem transitivelyEnabled_spec (orders : ℕ → Shuffle CallResources)
    (enabled : List CallResources) :
    ∃ found, transitivelyEnabled orders enabled = some found ∧ callRules.Sound enabled found ∧
      ∀ c ∈ enabled, c ∉ found.applied → (lacking found c).isSome := by
  obtain ⟨found, hfound, hsound, hend⟩ :=
    Rules.saturate_spec orders (i := 0) (Rules.Sound.empty callRules enabled)
      (lt_of_lt_of_eq (lt_succ_self _) (zero_add _).symm)
  refine ⟨found, hfound, hsound, fun c hc hnew => ?_⟩
  obtain ⟨b, hb, hlacks⟩ := hend c hc hnew
  obtain ⟨res, hres, rfl⟩ := mem_map.mp hb
  exact find?_isSome.mpr ⟨res, hres, by simpa using hlacks⟩

theorem length_disabled (hnd : enabled.Nodup) (hsound : callRules.Sound enabled found)
    (hmem : ∀ c, c ∈ disabled ↔ c ∈ enabled ∧ c ∉ found.applied) :
    enabled.length = found.applied.length + disabled.keys.length := by
  have hnodup : (found.applied ++ disabled.keys).Nodup := by
    rw [nodup_append]
    refine ⟨hsound.nodup, disabled.keys_nodup, ?_⟩
    rintro c hc c' hc' rfl
    exact ((hmem c).mp (mem_keys.mpr hc')).2 hc
  have hperm : enabled.Perm (found.applied ++ disabled.keys) := by
    refine (perm_ext_iff_of_nodup hnd hnodup).mpr fun c => ?_
    rw [mem_append, ← AList.mem_keys, hmem]
    constructor
    · intro hc
      by_cases happlied : c ∈ found.applied
      · exact .inl happlied
      · exact .inr ⟨hc, happlied⟩
    · rintro (hc | hc)
      · exact hsound.sub hc
      · exact hc.1
  rw [hperm.length_eq, length_append]

/-- The calls are sorted out in some orders of visiting the maps. -/
def ResourceTarget.Returns (t : ResourceTarget) (calls enabled supported : List CallResources)
    (disabled : Dict CallResources String) : Prop :=
  ∃ orders order, t.transitivelyEnabledCalls calls orders order enabled = some (supported, disabled)

theorem transitivelyEnabledCalls_eq (t : ResourceTarget) (calls : List CallResources)
    (hnd : enabled.Nodup) (orders : ℕ → Shuffle CallResources) (order : Shuffle CallResources) :
    ∃ found, callRules.Sound enabled found ∧
      (∀ c ∈ enabled, c ∉ found.applied → (lacking found c).isSome) ∧
      t.transitivelyEnabledCalls calls orders order enabled =
        some (found.applied, ((order.run enabled).foldl (t.disable calls found) ⟨∅, ∅⟩).disabled) ∧
      ∀ c, c ∈ ((order.run enabled).foldl (t.disable calls found) ⟨∅, ∅⟩).disabled ↔
        c ∈ enabled ∧ c ∉ found.applied := by
  obtain ⟨found, hfound, hsound, hend⟩ := transitivelyEnabled_spec orders enabled
  have hmem : ∀ c, c ∈ ((order.run enabled).foldl (t.disable calls found) ⟨∅, ∅⟩).disabled ↔
      c ∈ enabled ∧ c ∉ found.applied := by
    intro c
    rw [mem_disabled, order.mem_run]
    constructor
    · rintro (hc | ⟨hc, hnew, -⟩)
      · cases notMem_empty c hc
      · exact ⟨hc, hnew⟩
    · rintro ⟨hc, hnew⟩
      exact .inr ⟨hc, hnew, hend c hc hnew⟩
  refine ⟨found, hsound, hend, ?_, hmem⟩
  rw [transitivelyEnabledCalls, hfound]
  exact if_neg (not_not.mpr (length_disabled hnd hsound hmem))

theorem ResourceTarget.Returns.cases (hnd : enabled.Nodup)
    (h : t.Returns calls enabled supported disabled) : ∃ found, callRules.Sound enabled found ∧
    callRules.Least {c | c ∈ enabled} {c | c ∈ supported} ∧ supported = found.applied ∧
    (∀ c, c ∈ disabled ↔ c ∈ enabled ∧ c ∉ supported) ∧ ∃ order : Shuffle CallResources, disabled =
    ((order.run enabled).foldl (t.disable calls found) ⟨∅, ∅⟩).disabled := by
  obtain ⟨orders, order, h⟩ := h
  obtain ⟨found, hsound, hend, heq, hmem⟩ := transitivelyEnabledCalls_eq t calls hnd orders order
  rw [heq] at h
  cases h
  refine ⟨found, hsound, hsound.isLeast fun c hc hnew => ?_, rfl, hmem, order, rfl⟩
  obtain ⟨res, hres, hlacks⟩ := find?_isSome.mp (hend c hc hnew)
  exact ⟨res.name, mem_map_of_mem hres, by simpa using hlacks⟩

/-- The input that a call lacks depends only on which calls are supported. -/
theorem lacking_congr (h : callRules.Sound enabled found) (h' : callRules.Sound enabled' found')
    (heq : ∀ c, c ∈ found.applied ↔ c ∈ found'.applied) (c : CallResources) :
    lacking found c = lacking found' c := by
  have hfacts : ∀ name, name ∈ found.facts ↔ name ∈ found'.facts := by
    intro name
    rw [h.facts, h'.facts]
    simp only [heq]
  rw [lacking, lacking]
  congr 1
  simp only [hfacts]

/-- Two results for the same calls differ in nothing but the order. -/
theorem ResourceTarget.Returns.unique (hl : t.Linked) (hplain : t.Plain)
    (hcalls : t.populateResourceCtors fuel = some calls) (hsub : enabled ⊆ calls)
    (hnd : enabled.Nodup) (h : t.Returns calls enabled supported disabled)
    (h' : t.Returns calls enabled supported' disabled') (c : CallResources) :
    disabled.lookup c = disabled'.lookup c := by
  obtain ⟨found, hsound, hleast, rfl, hmem, order, rfl⟩ := h.cases hnd
  obtain ⟨found', hsound', hleast', rfl, hmem', order', rfl⟩ := h'.cases hnd
  have heq : ∀ c, c ∈ found.applied ↔ c ∈ found'.applied :=
    Set.ext_iff.mp (hleast.unique hleast')
  have hempty : ∀ found, (⟨∅, ∅⟩ : Disabling).Right t calls found :=
    fun _ => ⟨by simp, by simp⟩
  have hright := (hempty found).foldl hl hplain hcalls
    (List.Subset.trans (order.perm enabled).subset hsub)
  have hright' := (hempty found').foldl hl hplain hcalls
    (List.Subset.trans (order'.perm enabled).subset hsub)
  by_cases hc : c ∈ enabled ∧ c ∉ found.applied
  · obtain ⟨text, htext⟩ := isSome_iff_exists.mp (lookup_isSome.mpr ((hmem c).mpr hc))
    obtain ⟨text', htext'⟩ := isSome_iff_exists.mp
      (lookup_isSome.mpr ((hmem' c).mpr ⟨hc.1, fun happ => hc.2 ((heq c).mpr happ)⟩))
    obtain ⟨res, hlack, rfl⟩ := hright.texts c text htext
    obtain ⟨res', hlack', rfl⟩ := hright'.texts c text' htext'
    rw [lacking_congr hsound hsound' heq, hlack'] at hlack
    cases hlack
    rw [htext, htext']
  · have hnone := lookup_eq_none.mpr fun hin => hc ((hmem c).mp hin)
    have hnone' := lookup_eq_none.mpr fun hin =>
      hc ⟨((hmem' c).mp hin).1, fun happ => ((hmem' c).mp hin).2 ((heq c).mp happ)⟩
    rw [hnone, hnone']

/-- The calls that are kept are the least set of enabled calls with every call for which calls
of the set create all inputs; the others are disabled. The outcome does not depend on the order
in which maps are visited, grows with the enabled calls, and is reached in one go. If no resource
has the special name, the reasons do not depend on the order either, and a precise constructor of
every input is kept. -/
theorem transitivelyEnabledCalls_least {n : ℕ} {depth : Ref → ℕ} (hl : t.Linked)
    (hb : t.Bounded n depth) :
    (∃ fuel calls, t.populateResourceCtors fuel = some calls) ∧
    ∀ fuel calls enabled, t.populateResourceCtors fuel = some calls → enabled ⊆ calls →
    enabled.Nodup →
    (∀ orders order, ∃ result,
      t.transitivelyEnabledCalls calls orders order enabled = some result) ∧
    ∀ supported disabled, t.Returns calls enabled supported disabled →
      IsLeast {S : Set CallResources | S ⊆ {c | c ∈ enabled} ∧ ∀ c ∈ enabled,
        (∀ res ∈ c.inputResources, ∃ c' ∈ S, ∃ o ∈ c'.outputResources, res.name ∈ o.kind) → c ∈ S}
        {c | c ∈ supported} ∧
      (∀ c, c ∈ disabled ↔ c ∈ enabled ∧ c ∉ supported) ∧
      (∀ supported' disabled', t.Returns calls enabled supported' disabled' →
        (∀ c, c ∈ supported ↔ c ∈ supported') ∧
        (t.Plain → ∀ c, disabled.lookup c = disabled'.lookup c)) ∧
      (∀ enabled' supported' disabled', enabled ⊆ enabled' → enabled'.Nodup →
        t.Returns calls enabled' supported' disabled' → supported ⊆ supported') ∧
      (∀ supported' disabled', t.Returns calls supported supported' disabled' →
        (∀ c, c ∈ supported' ↔ c ∈ supported) ∧ ∀ c, c ∉ disabled') ∧
      (t.Plain → ∀ c ∈ supported, ∀ res ∈ c.inputResources,
        ∃ ctor ∈ t.calcResourceCtors calls res true, ctor ∈ supported) := by
  refine ⟨exists_populateResourceCtors hb, fun fuel calls enabled hcalls hsub hnd => ?_⟩
  constructor
  · intro orders order
    obtain ⟨found, _, _, heq, _⟩ := transitivelyEnabledCalls_eq t calls hnd orders order
    exact ⟨_, heq⟩
  intro supported disabled h
  obtain ⟨found, hsound, hleast, hfound, hmem, -⟩ := h.cases hnd
  have hsupported : supported.Nodup := hfound ▸ hsound.nodup
  refine ⟨?_, hmem, ?_, ?_, ?_, ?_⟩
  · have hclosed : ∀ S : Set CallResources, callRules.Closed {c | c ∈ enabled} S ↔ ∀ c ∈ enabled,
        (∀ res ∈ c.inputResources, ∃ c' ∈ S, ∃ o ∈ c'.outputResources, res.name ∈ o.kind) →
          c ∈ S := by
      simp [Rules.Closed, callRules]
    simpa only [Rules.Least, hclosed] using hleast
  · intro supported' disabled' h'
    obtain ⟨_, _, hleast', _⟩ := h'.cases hnd
    exact ⟨Set.ext_iff.mp (hleast.unique hleast'), fun hplain =>
      h.unique hl hplain hcalls hsub hnd h'⟩
  · intro enabled' supported' disabled' hmore hnd' h'
    obtain ⟨_, _, hleast', _⟩ := h'.cases hnd'
    exact hleast.mono hleast' hmore
  · intro supported' disabled' h'
    obtain ⟨_, _, hleast', _, hmem', _⟩ := h'.cases hsupported
    have heq : ∀ c, c ∈ supported' ↔ c ∈ supported :=
      Set.ext_iff.mp (hleast'.unique hleast.self)
    exact ⟨heq, fun c hc => ((hmem' c).mp hc).2 ((heq c).mpr ((hmem' c).mp hc).1)⟩
  · intro hplain c hc res hres
    obtain ⟨c', hc', hgives⟩ := hleast.needs_given hc (mem_map_of_mem hres)
    have hin : ∀ c ∈ supported, c ∈ calls := fun c hc => hsub (hleast.1.1 hc)
    exact ⟨c', mem_calcResourceCtors hl hplain hcalls (hin c hc) (hin c' hc') hres hgives, hc'⟩

end Calls

/-- One resource is derived from another. A call creates it, and a call takes it. -/
def sampleResources (name : String) : ResourceTarget where
  ptrSize := 8
  pageSize := 4096
  numPages := 4096
  dataOffset := 0
  specialPointers := []
  anyArray := 1
  anyPtrPtr := 1
  anyPtr64 := 1
  type _ := .resource ⟨name, 4, false⟩ .native ⟨name, ["fd", name], [0], by simp⟩
  syscalls := [⟨0, "clock_gettime", [], none, false⟩,
    ⟨1, "use", [⟨"res", 0, false, .dirIn⟩], none, false⟩, ⟨2, "create", [], some 0, false⟩]
  os := "linux"
  resources := [⟨"fd", ["fd"], [0], by simp⟩, ⟨name, ["fd", name], [0], by simp⟩]

/-- The calls of the sample with their resources. -/
def sampleCalls (name : String) : List CallResources :=
  let desc : ResourceDesc := ⟨name, ["fd", name], [0], by simp⟩
  [⟨⟨0, "clock_gettime", [], none, false⟩, [], [], [.timespec]⟩,
    ⟨⟨1, "use", [⟨"res", 0, false, .dirIn⟩], none, false⟩, [], [.declared desc], []⟩,
    ⟨⟨2, "create", [], some 0, false⟩, [desc], [], [.declared desc]⟩]

theorem sampleResources_linked (hname : "fd" ≠ name) : (sampleResources name).Linked := by
  refine ⟨?_, ?_, fun n => if n = name then some "fd" else none, ?_⟩
  · simp [sampleResources]
  · simp [sampleResources, hname, hname.symm]
  · intro d hd
    rcases mem_cons.mp hd with rfl | hd
    · exact .root (if_neg hname)
    · obtain rfl := mem_singleton.mp hd
      exact .derived (if_pos rfl) (.root (if_neg hname))

/-- The call that takes the resource is kept with the one that creates it. -/
theorem transitivelyEnabledCalls_create :
    (sampleResources "sock").Linked ∧ (sampleResources "sock").Bounded 1 (fun _ => 0) ∧
    ∃ supported disabled,
      (sampleResources "sock").Returns (sampleCalls "sock") (sampleCalls "sock") supported disabled ∧
      ∀ c ∈ supported, ∀ res ∈ c.inputResources,
        ∃ ctor ∈ (sampleResources "sock").calcResourceCtors (sampleCalls "sock") res true,
          ctor ∈ supported := by
  have hpop : (sampleResources "sock").populateResourceCtors 2 = some (sampleCalls "sock") := by
    decide +kernel
  have hlinked : (sampleResources "sock").Linked := sampleResources_linked (by decide)
  have hplain : (sampleResources "sock").Plain := by
    intro d hd
    simp [sampleResources] at hd
    rcases hd with rfl | rfl <;> simp [name]
  have hbound : (sampleResources "sock").Bounded 1 fun _ => 0 := by
    refine ⟨?_, ?_, ?_⟩
    · simp [sampleResources, Syscall.places]
    · simp [sampleResources, Typ.children]
    · simp [sampleResources, Typ.elem?]
  obtain ⟨_, hall⟩ := transitivelyEnabledCalls_least hlinked hbound
  obtain ⟨htotal, hspec⟩ := hall 2 _ _ hpop (List.Subset.refl _) (by decide)
  obtain ⟨⟨supported, disabled⟩, hrun⟩ := htotal (fun _ => .id) .id
  have hreturns : (sampleResources "sock").Returns (sampleCalls "sock") (sampleCalls "sock")
      supported disabled := ⟨fun _ => .id, .id, hrun⟩
  exact ⟨hlinked, hbound, supported, disabled, hreturns,
    (hspec supported disabled hreturns).2.2.2.2.2 hplain⟩

/-- With a resource of the special name, `clock_gettime` passes for a constructor that it is
not. -/
theorem special_name_without_ctor :
    (sampleResources "timespec").Linked ∧
    (sampleResources "timespec").populateResourceCtors 2 = some (sampleCalls "timespec") ∧
    ∃ supported disabled c res,
      (sampleResources "timespec").Returns (sampleCalls "timespec")
        ((sampleCalls "timespec").take 2) supported disabled ∧
      c ∈ supported ∧ res ∈ c.inputResources ∧
      ∀ ctor ∈ (sampleResources "timespec").calcResourceCtors (sampleCalls "timespec") res true,
        ctor ∉ supported := by
  have hrun : (((sampleResources "timespec").transitivelyEnabledCalls (sampleCalls "timespec")
      (fun _ => .id) .id ((sampleCalls "timespec").take 2)).map Prod.fst) =
      some ((sampleCalls "timespec").take 2) := by decide +kernel
  obtain ⟨⟨supported, disabled⟩, hrun, heq⟩ := map_eq_some_iff.mp hrun
  obtain rfl : supported = (sampleCalls "timespec").take 2 := heq
  refine ⟨sampleResources_linked (by decide), by decide +kernel, _, disabled,
    (sampleCalls "timespec")[1], .declared ⟨"timespec", ["fd", "timespec"], [0], by simp⟩,
    ⟨fun _ => .id, .id, hrun⟩, by decide, by decide, by decide +kernel⟩

end Brf
