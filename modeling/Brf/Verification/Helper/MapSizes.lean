import Brf.Verification.Helper.Layouts
import Mathlib.Data.List.Nodup

/-! # Sizes of generated maps

The table of map types records for keys and for values the least and the largest size and
sometimes an alignment. `newMap` either reuses a layout of the program or generates one. -/

namespace Brf.HelperCalls

open Brf.Lib Lib.Gen List StructRequest MapPool Nat

def sizeMin (cs : List ℕ) : ℕ := cs.getD 0 0

def sizeMax (cs : List ℕ) : ℕ := cs.getD 1 0

def sizeAlign (cs : List ℕ) : ℕ := cs.getD 2 1

/-- A key or a value is within its limits. It is absent only where size zero is allowed. -/
def WithinLimits (cs : List ℕ) : Option StructDef → Prop
  | none => sizeMin cs = 0
  | some sd => sizeMin cs ≤ sd.size ∧ sd.size ≤ sizeMax cs ∧ sizeAlign cs ∣ sd.size

/-- Key and value are within the limits of the map's type. -/
def BpfMap.WellSized (m : BpfMap) : Prop :=
  ∀ mt ∈ bpfMapTypes, mt.name = m.type →
    WithinLimits mt.keySize m.key ∧ WithinLimits mt.valSize m.val

/-- The maps of `pool'` that `pool` does not have. -/
def MapPool.added (pool pool' : MapPool) : List BpfMap := pool'.maps.drop pool.maps.length

/-- What the rows of the table have in common. -/
structure Limits (cs : List ℕ) : Prop where
  length : cs.length = 2 ∨ cs.length = 3
  le : sizeMin cs ≤ sizeMax cs
  align_pos : 0 < sizeAlign cs
  min_dvd : sizeAlign cs ∣ sizeMin cs
  max_dvd : sizeAlign cs ∣ sizeMax cs

instance (cs : List ℕ) : Decidable (Limits cs) :=
  decidable_of_iff ((cs.length = 2 ∨ cs.length = 3) ∧ sizeMin cs ≤ sizeMax cs ∧
      0 < sizeAlign cs ∧ sizeAlign cs ∣ sizeMin cs ∧ sizeAlign cs ∣ sizeMax cs)
    ⟨fun ⟨h1, h2, h3, h₄, h5⟩ => ⟨h1, h2, h3, h₄, h5⟩,
      fun ⟨h1, h2, h3, h₄, h5⟩ => ⟨h1, h2, h3, h₄, h5⟩⟩

theorem bpfMapTypes_limits : ∀ mt ∈ bpfMapTypes, Limits mt.keySize ∧ Limits mt.valSize := by
  decide

/-- The request with the given limits and hints. -/
structure StructRequest.Is (r : StructRequest) (cs : List ℕ) (hints : List ArgHint) (useHint : Bool)
    (minSizeHint : ℤ) : Prop where
  sizeConstraints : r.sizeConstraints = cs
  hints : r.hints = hints
  useHint : r.useHint = useHint
  minSizeHint : r.minSizeHint = minSizeHint
  minSize : r.minSize = sizeMin cs
  maxSize : r.maxSize = sizeMax cs
  step : r.step = sizeAlign cs

theorem Limits.exists_request {cs : List ℕ} (h : Limits cs) {hints : List ArgHint}
    (hnodup : hints.Nodup) (useHint : Bool) (minSizeHint : ℤ) :
    ∃ r : StructRequest, r.Is cs hints useHint minSizeHint := by
  rcases h.length with hlen | hlen
  · obtain ⟨lo, hi, rfl⟩ := length_eq_two.mp hlen
    exact ⟨⟨lo, hi, none, hints, useHint, minSizeHint, by decide, hnodup⟩,
      rfl, rfl, rfl, rfl, rfl, rfl, rfl⟩
  · obtain ⟨lo, hi, align, rfl⟩ := length_eq_three.mp hlen
    exact ⟨⟨lo, hi, some align, hints, useHint, minSizeHint, h.align_pos, hnodup⟩,
      rfl, rfl, rfl, rfl, rfl, rfl, rfl⟩

/-- What `chooseStruct` can return: a fitting layout of the program or the outcome of a
request. -/
inductive Chosen (fitting : List StructDef) (r : StructRequest) (structs : List StructDef) :
    Option (Option StructDef × List ArgHint × List StructDef) → Prop
  | reused {sd : StructDef} (h : sd ∈ fitting) :
      Chosen fitting r structs (some (some sd, r.hints, structs))
  | generated (word : ℕ) : Chosen fitting r structs (r.outcome structs (r.sizeFor word))

section Choose

variable {fitting structs : List StructDef} {r : StructRequest} {cs : List ℕ}
  {hints : List ArgHint} {useHint : Bool} {minSizeHint : ℤ}

theorem ensures_chooseStruct (hr : r.Is cs hints useHint minSizeHint) :
    Gen.Ensures (chooseStruct fitting (generateStruct structs cs hints useHint minSizeHint) hints
      structs) (Chosen fitting r structs) := by
  obtain ⟨rfl, rfl, rfl, rfl, -, -, -⟩ := hr
  refine ensures_bind (ensures_intn fun reuse _ => ?_)
  refine ensures_ite (fun _ => ?_) fun _ => ?_
  · exact ensures_bind (ensures_pick fun sd hsd => ensures_pure.mpr (.reused hsd))
  · refine (r.ensures_generateStruct structs).mono ?_
    rintro _ ⟨word, rfl⟩
    exact .generated word

theorem yields_chooseStruct (hr : r.Is cs hints useHint minSizeHint)
    {o : Option (Option StructDef × List ArgHint × List StructDef)}
    (h : Chosen fitting r structs o) :
    Gen.Yields (chooseStruct fitting (generateStruct structs cs hints useHint minSizeHint) hints
      structs) o := by
  obtain ⟨rfl, rfl, rfl, rfl, -, -, -⟩ := hr
  cases h with
  | reused hsd =>
    refine (yields_intn (k := 1) (by decide)).bind ?_
    rw [if_pos ⟨rfl, ne_nil_of_mem hsd⟩]
    exact (yields_pick hsd).bind (yields_pure _)
  | generated word =>
    refine (yields_intn (k := 0) (by decide)).bind ?_
    exact r.yields_generateStruct structs word

end Choose

variable {word : ℕ} {size : ℕ}

/-- A generated size is within its limits, unless a size above 128 is forced that the alignment
does not divide. -/
theorem StructRequest.sizeFor_within {r : StructRequest} (hmin : r.step ∣ r.minSize)
    (hmax : r.step ∣ r.maxSize) (hlow : 128 < r.low → r.low < r.maxSize → r.step ∣ r.low)
    (h : r.sizeFor word = some size) : r.minSize ≤ size ∧ size ≤ r.maxSize ∧ r.step ∣ size := by
  obtain ⟨hle, -, -⟩ := r.le_low
  unfold sizeFor at h
  split at h
  · cases h
  split at h
  · rename_i hsingle
    cases h
    refine ⟨hle, by omega, ?_⟩
    rcases hsingle with heq | h128
    · exact heq ▸ hmax
    · rcases lt_or_ge r.low r.maxSize with hlt | hge
      · exact hlow h128 hlt
      · rw [le_antisymm (by omega) hge]
        exact hmax
  · cases h
    have hword : word % (r.high - r.low + 1) < r.high - r.low + 1 :=
      mod_lt word (succ_pos _)
    have hhigh : r.low ≤ r.high ∧ r.high ≤ r.maxSize := by
      simp only [high]
      omega
    exact ⟨le_sub_mod r.align_pos hmin (by omega), by omega, dvd_sub_mod _⟩

theorem StructRequest.low_le_of_sizeFor {r : StructRequest}
    (h : r.sizeFor word = some size) : r.low ≤ r.maxSize := by
  unfold sizeFor at h
  split at h
  · cases h
  · omega

theorem layoutFields_false (size fuel offset : ℕ) (hints : List ArgHint) :
    (layoutFields false size fuel offset hints).2.2 = hints := by
  induction fuel generalizing offset with
  | zero => rfl
  | succ fuel ih =>
    simp only [layoutFields, Bool.false_and, Bool.false_eq_true, if_false]
    split
    · rfl
    · split
      · exact ih _
      · split
        · exact ih _
        · split <;> exact ih _

/-- A layout fits as the value of a map of type `mt`. -/
def valFits (hints : List ArgHint) (minValSize : ℤ) (mt : BpfMapType) (sd : StructDef) : Bool :=
  !(minValSize ≠ -1 && (sd.size : ℤ) < minValSize) &&
    !(.genSpinlock ∈ hints && sd.findMember .spinLock = -1) &&
    !(.genTimer ∈ hints && sd.findMember .timer = -1) &&
    !(.genConstStr ∈ hints && sd.findMember .char8 = -1) &&
    .genSockMap ∉ hints && .genXdpSockMap ∉ hints &&
    mt.valSize.getD 0 0 ≤ sd.size && sd.size ≤ mt.valSize.getD 1 0 &&
    !(mt.keySize.length = 3 && sd.size % mt.keySize.getD 2 1 ≠ 0)

variable {sd : StructDef}

theorem mem_getCompatValStructDefs {structs : List StructDef} {hints : List ArgHint}
    {minValSize : ℤ} {mt : BpfMapType} : sd ∈ getCompatValStructDefs structs hints minValSize mt ↔
    sd ∈ structs ∧ valFits hints minValSize mt sd :=
  mem_filter

/-- A value for the map can be found or made. -/
def HasValue (structs : List StructDef) (mt : BpfMapType) (hints : List ArgHint)
    (minValSize : ℤ) : Prop :=
  getCompatValStructDefs structs hints minValSize mt ≠ [] ∨
    occupiedSize hints ≤ sizeMax mt.valSize ∧ minValSize ≤ sizeMax mt.valSize

/-- What a new map needs so that its sizes are within the limits whatever is drawn. Layouts that
are reused must be aligned. A new key of a socket hash must not be taken for its value. A stack
trace must not be given a size above 128 that is not aligned. Maps of maps draw the type of
the map inside. -/
structure SizesKept (structs : List StructDef) (mt : BpfMapType) (hints : List ArgHint)
    (minValSize : ℤ) : Prop where
  plain : mt.name ∉ [.arrayOfMaps, .hashOfMaps]
  keys : ∀ sd ∈ getCompatKeyStructDefs structs mt, sizeAlign mt.keySize ∣ sd.size
  vals : ∀ sd ∈ getCompatValStructDefs structs hints minValSize mt, sizeAlign mt.valSize ∣ sd.size
  newKey : mt.name ∈ [.sockhash, .reuseportSockarray] → hints ≠ [] ∨ 7 < minValSize
  stackTrace : mt.name = .stackTrace → 128 < minValSize → minValSize < 4096 → 8 ∣ minValSize

variable {structs1 : List StructDef} {n : ℕ}

section Stages

variable {structs structs' : List StructDef} {mt : BpfMapType} {hints hints' : List ArgHint}
  {minValSize : ℤ} {r : StructRequest}

/-- The layouts after the key was chosen: as before, or with a new one of integers only. -/
inductive AfterKey (mt : BpfMapType) (structs : List StructDef) : List StructDef → Prop
  | reused : AfterKey mt structs structs
  | new {sd : StructDef} (within : WithinLimits mt.keySize (some sd))
      (plain : ∃ n, sd.fieldTypes = plainFields n) : AfterKey mt structs (structs ++ [sd])

theorem keyMin_le : ∀ mt ∈ bpfMapTypes, sizeMin mt.keySize ≤ 128 := by decide

theorem Chosen.cases_some {fitting : List StructDef} {sd : Option StructDef}
    (h : Chosen fitting r structs (some (sd, hints', structs'))) :
    (∃ old ∈ fitting, sd = some old ∧ hints' = r.hints ∧ structs' = structs) ∨
      ∃ word, r.outcome structs (r.sizeFor word) = some (sd, hints', structs') := by
  generalize ho : some (sd, hints', structs') = o at h
  cases h with
  | reused hmem =>
    cases ho
    exact .inl ⟨_, hmem, rfl, rfl, rfl⟩
  | generated word => exact .inr ⟨word, rfl⟩

theorem Chosen.key (hmt : mt ∈ bpfMapTypes) (hr : r.Is mt.keySize hints false 0)
    {key : Option StructDef}
    (h : Chosen (getCompatKeyStructDefs structs mt) r structs (some (key, hints', structs'))) :
    hints' = hints ∧ AfterKey mt structs structs' ∧
      ((∀ sd ∈ getCompatKeyStructDefs structs mt, sizeAlign mt.keySize ∣ sd.size) →
        WithinLimits mt.keySize key) := by
  have hlim := (bpfMapTypes_limits mt hmt).1
  rcases h.cases_some with ⟨sd, hsd, rfl, rfl, rfl⟩ | ⟨word, hout⟩
  · refine ⟨hr.hints, .reused, fun hkeys => ?_⟩
    have hfits := (mem_filter.mp hsd).2
    simp only [Bool.and_eq_true, decide_eq_true_eq] at hfits
    exact ⟨hfits.1, hfits.2, hkeys sd hsd⟩
  · have hlow : r.low = r.minSize := by simp [low, hr.useHint]
    have hwithin : ∀ size, r.sizeFor word = some size →
        r.minSize ≤ size ∧ size ≤ r.maxSize ∧ r.step ∣ size := by
      intro size hsize
      refine sizeFor_within ?_ ?_ ?_ hsize
      · rw [hr.step, hr.minSize]
        exact hlim.min_dvd
      · rw [hr.step, hr.maxSize]
        exact hlim.max_dvd
      · have h128 := keyMin_le mt hmt
        rw [hlow, hr.minSize]
        omega
    rw [hr.minSize, hr.maxSize, hr.step] at hwithin
    obtain ⟨hsize, rfl, rfl, rfl⟩ | ⟨n, hsize, rfl, rfl, rfl⟩ := outcome_cases hout
    · have hzero := (hwithin 0 hsize).1
      exact ⟨hr.hints, .reused, fun _ => le_zero.mp hzero⟩
    · obtain ⟨hmin, hmax, hdvd⟩ := hwithin (n + 1) hsize
      have hlimits : WithinLimits mt.keySize (some (r.layout structs (n + 1))) := by
        rw [WithinLimits, r.layout_size]
        exact ⟨hmin, hmax, hdvd⟩
      refine ⟨?_, .new hlimits ?_, fun _ => hlimits⟩
      · rw [hr.useHint, layoutFields_false, hr.hints]
      · rw [r.layout_fieldTypes, hr.useHint]
        exact ⟨_, layoutFields_plain rfl rfl rfl (by omega)⟩

theorem findMember_plainFields (h : sd.fieldTypes = plainFields n)
    {f : FieldType} (hf : f ∉ [.u64, .u32, .u16, .u8]) : sd.findMember f = -1 := by
  have hnone : sd.fieldTypes.findIdx? (· = f) = none := by
    rw [findIdx?_eq_none_iff, h]
    rintro g hg
    simp only [decide_eq_false_iff_not]
    rintro rfl
    exact hf (mem_plainFields hg)
  rw [StructDef.findMember, hnone]

theorem valFits_within (h : valFits hints minValSize mt sd) : sizeMin mt.valSize ≤ sd.size ∧
    sd.size ≤ sizeMax mt.valSize ∧ (minValSize = -1 ∨ minValSize ≤ sd.size) := by
  simp only [valFits, Bool.and_eq_true, Bool.not_eq_true', decide_eq_true_eq,
    Bool.and_eq_false_iff, decide_eq_false_iff_not] at h
  obtain ⟨⟨⟨⟨⟨⟨⟨⟨hmin, -⟩, -⟩, -⟩, -⟩, -⟩, hlo⟩, hhi⟩, -⟩ := h
  exact ⟨hlo, hhi, by omega⟩

theorem valFits_plain (hplain : ∃ n, sd.fieldTypes = plainFields n)
    (h : valFits hints minValSize mt sd) : hints = [] := by
  obtain ⟨n, hfields⟩ := hplain
  have hs := findMember_plainFields hfields (f := .spinLock) (by decide)
  have ht := findMember_plainFields hfields (f := .timer) (by decide)
  have hc := findMember_plainFields hfields (f := .char8) (by decide)
  simp only [valFits, hs, ht, hc, decide_true, Bool.and_true, Bool.and_eq_true,
    Bool.not_eq_true', decide_eq_true_eq, decide_eq_false_iff_not] at h
  obtain ⟨⟨⟨⟨⟨⟨⟨⟨-, hspin⟩, htimer⟩, hstr⟩, hsock⟩, hxdp⟩, -⟩, -⟩, -⟩ := h
  refine eq_nil_iff_forall_not_mem.mpr fun a ha => ?_
  cases a
  · exact hspin ha
  · exact htimer ha
  · exact hstr ha
  · exact hxdp ha
  · exact hsock ha

theorem bpfMapTypes_aligned : ∀ mt ∈ bpfMapTypes, sizeAlign mt.valSize = 1 ∨
    (mt.keySize = [4, 4] ∧ (mt.valSize = [4, 8, 4] ∨
      mt.name = .stackTrace ∧ mt.valSize = [8, 4096, 8])) ∨
    (mt.name ∈ [.sockhash, .reuseportSockarray] ∧ mt.valSize = [4, 8, 4] ∧
      sizeMin mt.keySize = 1 ∧ 128 ≤ sizeMax mt.keySize ∧ mt.keySize.length = 2) := by
  decide

theorem newKey_aligned (hmt : mt ∈ bpfMapTypes) (hwithin : WithinLimits mt.keySize (some sd))
    (hplain : ∃ n, sd.fieldTypes = plainFields n) (hfits : valFits hints minValSize mt sd)
    (hnew : mt.name ∈ [.sockhash, .reuseportSockarray] → hints ≠ [] ∨ 7 < minValSize) :
    sizeAlign mt.valSize ∣ sd.size := by
  obtain ⟨hlo, hhi, hmin⟩ := valFits_within hfits
  rcases bpfMapTypes_aligned mt hmt with hone | ⟨hkey, hval | ⟨-, hval⟩⟩ | ⟨hname, hval, -, -, -⟩
  · rw [hone]
    exact one_dvd _
  · rw [hkey] at hwithin
    rw [hval]
    obtain ⟨h4, h4', -⟩ := hwithin
    exact ⟨1, le_antisymm h4' h4⟩
  · rw [hkey] at hwithin
    rw [hval] at hlo
    exact absurd (le_trans hlo hwithin.2.1) (by decide)
  · have hlarge := (hnew hname).resolve_left fun h => h (valFits_plain hplain hfits)
    rw [hval] at hhi ⊢
    have hsize : sd.size = 8 := by
      change sd.size ≤ 8 at hhi
      omega
    rw [hsize]
    decide

theorem occupiedSize_le (hints : List ArgHint) : occupiedSize hints ≤ 28 := by
  unfold occupiedSize
  split <;> split <;> split <;> omega

theorem low_val (hr : r.Is mt.valSize hints true minValSize) :
    r.low = max (max (sizeMin mt.valSize) (occupiedSize hints)) minValSize.toNat := by
  simp [low, occupied, hr.useHint, hr.minSize, hr.hints, hr.minSizeHint]

theorem low_aligned (hmt : mt ∈ bpfMapTypes) (hr : r.Is mt.valSize hints true minValSize)
    (htrace : mt.name = .stackTrace → 128 < minValSize → minValSize < 4096 → 8 ∣ minValSize)
    (h128 : 128 < r.low) (hlt : r.low < r.maxSize) : r.step ∣ r.low := by
  have hocc := occupiedSize_le hints
  have hlow := low_val hr
  rw [hr.maxSize] at hlt
  rw [hr.step]
  rcases bpfMapTypes_aligned mt hmt with hone | ⟨-, hval | ⟨hname, hval⟩⟩ | ⟨-, hval, -, -, -⟩
  · rw [hone]
    exact one_dvd _
  · rw [hval] at hlt
    change r.low < 8 at hlt
    omega
  · rw [hval] at hlt hlow ⊢
    change r.low < 4096 at hlt
    change r.low = max (max 8 _) _ at hlow
    change 8 ∣ r.low
    have hdvd := htrace hname (by omega) (by omega)
    omega
  · rw [hval] at hlt
    change r.low < 8 at hlt
    omega

theorem Chosen.val (hmt : mt ∈ bpfMapTypes) (hr : r.Is mt.valSize hints true minValSize)
    (hkey : AfterKey mt structs structs1) {val : Option StructDef}
    (h : Chosen (getCompatValStructDefs structs1 hints minValSize mt) r structs1
      (some (val, hints', structs'))) :
    HasValue structs mt hints minValSize ∧
      (SizesKept structs mt hints minValSize → WithinLimits mt.valSize val) := by
  have hlim := (bpfMapTypes_limits mt hmt).2
  rcases h.cases_some with ⟨sd, hsd, rfl, -, -⟩ | ⟨word, hout⟩
  · obtain ⟨hmem, hfits⟩ := mem_getCompatValStructDefs.mp hsd
    obtain ⟨hlo, hhi, hmin⟩ := valFits_within hfits
    have hold : sd ∈ structs → sd ∈ getCompatValStructDefs structs hints minValSize mt :=
      fun h => mem_getCompatValStructDefs.mpr ⟨h, hfits⟩
    have hstructs : sd ∈ structs → HasValue structs mt hints minValSize ∧
        (SizesKept structs mt hints minValSize → WithinLimits mt.valSize (some sd)) :=
      fun h => ⟨.inl (ne_nil_of_mem (hold h)), fun hkept => ⟨hlo, hhi, hkept.vals sd (hold h)⟩⟩
    cases hkey with
    | reused => exact hstructs hmem
    | new hwithin hplain =>
      rcases mem_append.mp hmem with hmem | hmem
      · exact hstructs hmem
      · obtain rfl := mem_singleton.mp hmem
        refine ⟨.inr ?_, fun hkept =>
          ⟨hlo, hhi, newKey_aligned hmt hwithin hplain hfits hkept.newKey⟩⟩
        rw [valFits_plain hplain hfits]
        exact ⟨zero_le _, by omega⟩
  · have hvalue : ∀ size, r.sizeFor word = some size → HasValue structs mt hints minValSize := by
      intro size hsize
      have hle := low_le_of_sizeFor hsize
      rw [low_val hr, hr.maxSize] at hle
      exact .inr ⟨by omega, by omega⟩
    have hwithin : SizesKept structs mt hints minValSize → ∀ size, r.sizeFor word = some size →
        sizeMin mt.valSize ≤ size ∧ size ≤ sizeMax mt.valSize ∧ sizeAlign mt.valSize ∣ size := by
      intro hkept size hsize
      rw [← hr.minSize, ← hr.maxSize, ← hr.step]
      refine sizeFor_within ?_ ?_ (low_aligned hmt hr hkept.stackTrace) hsize
      · rw [hr.step, hr.minSize]
        exact hlim.min_dvd
      · rw [hr.step, hr.maxSize]
        exact hlim.max_dvd
    obtain ⟨hsize, rfl, -, -⟩ | ⟨n, hsize, rfl, -, -⟩ := outcome_cases hout
    · exact ⟨hvalue 0 hsize, fun hkept => le_zero.mp (hwithin hkept 0 hsize).1⟩
    · refine ⟨hvalue (n + 1) hsize, fun hkept => ?_⟩
      rw [WithinLimits, r.layout_size]
      exact hwithin hkept (n + 1) hsize

end Stages

section New

variable {pool : MapPool} {mt : BpfMapType} {hints : List ArgHint} {minValSize : ℤ}

theorem wellSized_of_row (hmt : mt ∈ bpfMapTypes) {m : BpfMap} (htype : m.type = mt.name) :
    m.WellSized ↔ WithinLimits mt.keySize m.key ∧ WithinLimits mt.valSize m.val := by
  constructor
  · intro h
    exact h mt hmt htype.symm
  · intro h mt' hmt' hname
    obtain rfl := inj_on_of_nodup_map (f := BpfMapType.name) (by decide) hmt' hmt
      (hname.trans htype)
    exact h

theorem ensures_newMap (hmt : mt ∈ bpfMapTypes) (hnodup : hints.Nodup)
    (hkept : HasValue pool.structs mt hints minValSize →
      SizesKept pool.structs mt hints minValSize) (fuel : ℕ) :
    Gen.Ensures (newMap fuel pool mt hints minValSize) fun o =>
      ∀ m ∈ pool.added o.2.2, m.WellSized := by
  obtain ⟨rk, hrk⟩ := (bpfMapTypes_limits mt hmt).1.exists_request hnodup false 0
  obtain ⟨rv, hrv⟩ := (bpfMapTypes_limits mt hmt).2.exists_request hnodup true minValSize
  have hsame : ∀ structs, pool.added { pool with structs } = [] := fun structs =>
    drop_length
  cases fuel with
  | zero => exact ensures_failure
  | succ fuel =>
    refine ensures_bind (.of_forall fun maxEntries => ?_)
    refine ensures_bind ((ensures_chooseStruct hrk).mono ?_)
    rintro (_ | ⟨key, hints1, structs1⟩) hkey
    · refine ensures_pure.mpr fun m hm => ?_
      simp [added] at hm
    obtain ⟨rfl, hafter, hkeyOk⟩ := hkey.key hmt hrk
    refine ensures_bind ((ensures_chooseStruct hrv).mono ?_)
    rintro (_ | ⟨val, hints2, structs2⟩) hval
    · refine ensures_pure.mpr fun m hm => ?_
      simp [hsame] at hm
    obtain ⟨hhas, hvalOk⟩ := hval.val hmt hrv hafter
    have hk := hkept hhas
    have hplain : ¬ (mt.name = .arrayOfMaps ∨ mt.name = .hashOfMaps) := by
      simpa using hk.plain
    simp only [hplain, if_false]
    refine ensures_bind (ensures_pure.mpr ?_)
    refine ensures_bind (.of_forall fun manFlags => ?_)
    refine ensures_bind (.of_forall fun optFlags => ?_)
    refine ensures_pure.mpr fun m hm => ?_
    simp only [added, drop_left, mem_singleton] at hm
    subst hm
    exact (wellSized_of_row hmt rfl).mpr ⟨hkeyOk hk.keys, hvalOk hk⟩

/-! ### Streams that break the limits -/

/-- The inner map of a map of maps. -/
def genInner (fuel : ℕ) (mt : BpfMapType) (pool : MapPool) :
    Gen (Option ℕ × List ArgHint × MapPool) :=
  if mt.name = .arrayOfMaps ∨ mt.name = .hashOfMaps then do
    let innerType ← Gen.pick bpfMapTypes
    newMap fuel pool innerType [] 0
  else pure (none, [], pool)

theorem bpfMapTypes_drawable : ∀ mt ∈ bpfMapTypes,
    (mt.maxEntries = -1 ∨ mt.maxEntries = 0 ∨ 0 < mt.maxEntries.toNat) ∧
      (∀ fs ∈ mt.manFlags, fs ≠ []) ∧ ∀ fs ∈ mt.optFlags, fs ≠ [] := by
  decide

theorem exists_yields_newMapEntries (hmt : mt ∈ bpfMapTypes) (hints : List ArgHint) :
    ∃ n, Gen.Yields (newMapEntries mt hints) n := by
  have hpos := (bpfMapTypes_drawable mt hmt).1
  simp only [newMapEntries]
  by_cases hany : mt.maxEntries = -1
  · simp only [hany, if_true]
    exact ⟨_, (yields_intn (k := 0) (by decide)).bind ((yields_pure _).bind (yields_pure _))⟩
  by_cases hzero : mt.maxEntries = 0
  · simp only [hzero, if_true]
    exact ⟨_, (yields_pure _).bind (yields_pure _)⟩
  simp only [hany, hzero, if_false]
  have hlt : 0 < mt.maxEntries.toNat := by omega
  by_cases hring : mt.name = .ringbuf
  · simp only [hring, if_true]
    exact ⟨_, (yields_intn hlt).bind ((yields_pure _).bind (yields_pure _))⟩
  · simp only [hring, if_false]
    exact ⟨_, (yields_intn hlt).bind ((yields_pure _).bind (yields_pure _))⟩

theorem exists_yields_pickFlag {fs : List MapFlag} (h : fs ≠ []) :
    ∃ f, Gen.Yields (pickFlag fs) f := by
  obtain ⟨f, hf⟩ := exists_mem_of_ne_nil fs h
  unfold pickFlag
  split
  · exact ⟨_, yields_pure _⟩
  · exact ⟨f, yields_pick hf⟩

theorem exists_yields_mandatoryFlags {groups : List (List MapFlag)} (h : ∀ fs ∈ groups, fs ≠ []) :
    ∃ flags, Gen.Yields (mandatoryFlags groups) flags := by
  induction groups with
  | nil => exact ⟨_, yields_pure _⟩
  | cons fs groups ih =>
    obtain ⟨f, hf⟩ := exists_yields_pickFlag (h fs mem_cons_self)
    obtain ⟨flags, hflags⟩ := ih fun gs hgs => h gs (mem_cons_of_mem fs hgs)
    exact ⟨_, hf.bind (hflags.bind (yields_pure _))⟩

theorem exists_yields_optionalFlags (val : Option StructDef) (groups : List (List MapFlag)) :
    ∃ flags, Gen.Yields (optionalFlags val groups) flags := by
  induction groups with
  | nil => exact ⟨_, yields_pure _⟩
  | cons fs groups ih =>
    obtain ⟨flags, hflags⟩ := ih
    rw [optionalFlags]
    split
    · exact ⟨_, hflags.bind (yields_pure _)⟩
    · exact ⟨flags, (yields_intn (k := 1) (by decide)).bind hflags⟩

variable {structs2 : List StructDef} {hints' : List ArgHint}

theorem yields_newMap (hmt : mt ∈ bpfMapTypes) {rk rv : StructRequest}
    (hrk : rk.Is mt.keySize hints false 0) (hrv : rv.Is mt.valSize hints true minValSize)
    {key val : Option StructDef}
    (hkey : Chosen (getCompatKeyStructDefs pool.structs mt) rk pool.structs
      (some (key, hints, structs1)))
    (hval : Chosen (getCompatValStructDefs structs1 hints minValSize mt) rv structs1
      (some (val, hints', structs2))) {fuel : ℕ} {inner : Option ℕ × List ArgHint × MapPool}
    (hinner : Gen.Yields (genInner fuel mt { pool with structs := structs2 }) inner) :
    ∃ o m, Gen.Yields (newMap (fuel + 1) pool mt hints minValSize) o ∧
      o.2.2.maps = inner.2.2.maps ++ [m] ∧ m.type = mt.name ∧ m.key = key ∧ m.val = val := by
  obtain ⟨n, hn⟩ := exists_yields_newMapEntries hmt hints
  obtain ⟨-, hman, hopt⟩ := bpfMapTypes_drawable mt hmt
  obtain ⟨manFlags, hmanFlags⟩ := exists_yields_mandatoryFlags hman
  obtain ⟨optFlags, hoptFlags⟩ := exists_yields_optionalFlags val mt.optFlags
  refine ⟨(some inner.2.2.maps.length, hints', { inner.2.2 with maps := inner.2.2.maps ++
    [⟨mt.name, manFlags ++ optFlags, key, val, n, inner.1⟩] }), _, ?_, rfl, rfl, rfl, rfl⟩
  refine hn.bind ((yields_chooseStruct hrk hkey).bind ((yields_chooseStruct hrv hval).bind ?_))
  have hrest := hinner.bind (f := fun i => do
    let manFlags ← mandatoryFlags mt.manFlags
    let optFlags ← optionalFlags val mt.optFlags
    let m : BpfMap := ⟨mt.name, manFlags ++ optFlags, key, val, n, i.1⟩
    pure (some i.2.2.maps.length, hints', { i.2.2 with maps := i.2.2.maps ++ [m] }))
    (hmanFlags.bind (hoptFlags.bind (yields_pure _)))
  unfold genInner at hrest
  split at hrest
  · rename_i hmaps
    simp only [hmaps, if_true]
    simpa only [bind_assoc] using hrest
  · rename_i hmaps
    simp only [hmaps, if_false]
    exact hrest

section Choices

variable {structs : List StructDef} {rk rv : StructRequest}

theorem StructRequest.exists_outcome {r : StructRequest} (h : r.low ≤ r.maxSize)
    (structs : List StructDef) :
    ∃ sd left structs', r.outcome structs (r.sizeFor 0) = some (sd, left, structs') := by
  have hsize : ∃ size, r.sizeFor 0 = some size := by
    unfold sizeFor
    rw [if_neg (by omega)]
    split
    · exact ⟨_, rfl⟩
    · exact ⟨_, rfl⟩
  obtain ⟨size, hsize⟩ := hsize
  rw [hsize]
  cases size with
  | zero | succ => exact ⟨_, _, _, rfl⟩

theorem low_key (hrk : rk.Is mt.keySize hints false 0) : rk.low = sizeMin mt.keySize := by
  simp [low, hrk.useHint, hrk.minSize]

theorem chosen_newKey (hrk : rk.Is mt.keySize hints false 0)
    (hsize : rk.sizeFor word = some (n + 1)) :
    Chosen (getCompatKeyStructDefs structs mt) rk structs
      (some (some (rk.layout structs (n + 1)), hints, structs ++ [rk.layout structs (n + 1)])) := by
  have h : Chosen (getCompatKeyStructDefs structs mt) rk structs _ := .generated word
  rw [hsize, outcome, hrk.useHint, layoutFields_false, hrk.hints] at h
  exact h

theorem exists_chosen_key (hmt : mt ∈ bpfMapTypes) (hrk : rk.Is mt.keySize hints false 0)
    (structs : List StructDef) :
    ∃ key structs1, Chosen (getCompatKeyStructDefs structs mt) rk structs
      (some (key, hints, structs1)) ∧ ∀ sd ∈ structs, sd ∈ structs1 := by
  have hle : rk.low ≤ rk.maxSize := by
    rw [low_key hrk, hrk.maxSize]
    exact (bpfMapTypes_limits mt hmt).1.le
  obtain ⟨key, left, structs1, hout⟩ := exists_outcome hle structs
  have h : Chosen (getCompatKeyStructDefs structs mt) rk structs _ := .generated 0
  rw [hout] at h
  obtain ⟨rfl, hafter, -⟩ := h.key hmt hrk
  refine ⟨key, structs1, h, fun sd hsd => ?_⟩
  cases hafter with
  | reused => exact hsd
  | new => exact mem_append_left _ hsd

theorem exists_chosen_val (hmt : mt ∈ bpfMapTypes) (hrv : rv.Is mt.valSize hints true minValSize)
    (hsub : ∀ sd ∈ structs, sd ∈ structs1) (hhas : HasValue structs mt hints minValSize) :
    ∃ val hints' structs2, Chosen (getCompatValStructDefs structs1 hints minValSize mt) rv structs1
      (some (val, hints', structs2)) := by
  rcases hhas with hne | ⟨hocc, hmin⟩
  · obtain ⟨sd, hsd⟩ := exists_mem_of_ne_nil _ hne
    obtain ⟨hmem, hfits⟩ := mem_getCompatValStructDefs.mp hsd
    exact ⟨_, _, _, .reused (mem_getCompatValStructDefs.mpr ⟨hsub sd hmem, hfits⟩)⟩
  · have hle : rv.low ≤ rv.maxSize := by
      have hlim := (bpfMapTypes_limits mt hmt).2.le
      rw [low_val hrv, hrv.maxSize]
      omega
    obtain ⟨val, hints', structs2, hout⟩ := exists_outcome hle structs1
    have h : Chosen (getCompatValStructDefs structs1 hints minValSize mt) rv structs1 _ :=
      .generated 0
    rw [hout] at h
    exact ⟨_, _, _, h⟩

end Choices

theorem bpfMapTypes_newKey : ∀ mt ∈ bpfMapTypes, mt.name ∈ [.sockhash, .reuseportSockarray] →
    mt.valSize = [4, 8, 4] ∧ sizeMin mt.keySize = 1 ∧ 128 ≤ sizeMax mt.keySize ∧
      sizeAlign mt.keySize = 1 ∧ mt.keySize.length = 2 := by
  decide

theorem bpfMapTypes_stackTrace : ∀ mt ∈ bpfMapTypes, mt.name = .stackTrace →
    mt.valSize = [8, 4096, 8] := by
  decide

theorem genInner_of_plain (fuel : ℕ) (hplain : mt.name ∉ [.arrayOfMaps, .hashOfMaps])
    (pool : MapPool) : Gen.Yields (genInner fuel mt pool) (none, [], pool) := by
  rw [genInner, if_neg (by simpa using hplain)]
  exact yields_pure _

/-- A new key of seven bytes is taken for the value of a socket hash. -/
theorem exists_unaligned_newKey (hmt : mt ∈ bpfMapTypes)
    (hname : mt.name ∈ [.sockhash, .reuseportSockarray]) (hmin : minValSize ≤ 7) (pool : MapPool) :
    ∃ o m, Gen.Yields (newMap 1 pool mt [] minValSize) o ∧ o.2.2.maps = pool.maps ++ [m] ∧
      ¬ m.WellSized := by
  obtain ⟨hval, hlow, hhigh, hstep, hlen⟩ := bpfMapTypes_newKey mt hmt hname
  obtain ⟨rk, hrk⟩ := (bpfMapTypes_limits mt hmt).1.exists_request nodup_nil false 0
  obtain ⟨rv, hrv⟩ := (bpfMapTypes_limits mt hmt).2.exists_request nodup_nil true minValSize
  have hsize : rk.sizeFor 6 = some 7 := by
    have hlow' : rk.low = 1 := (low_key hrk).trans hlow
    have hhigh' : rk.high = 128 := by
      rw [high, hrk.maxSize]
      omega
    have hmax := hrk.maxSize
    rw [sizeFor, if_neg (by omega), if_neg (by omega), hlow', hhigh', hrk.step, hstep]
  have hfits : valFits [] minValSize mt (rk.layout pool.structs 7) := by
    simp [valFits, rk.layout_size, hval, hlen]
    omega
  have hmem : rk.layout pool.structs 7 ∈ pool.structs ++ [rk.layout pool.structs 7] := by simp
  have hreuse : Chosen _ rv (pool.structs ++ [rk.layout pool.structs 7]) _ :=
    .reused (mem_getCompatValStructDefs.mpr ⟨hmem, hfits⟩)
  have hplain : mt.name ∉ [.arrayOfMaps, .hashOfMaps] := by
    intro h
    simp only [mem_cons, not_mem_nil, or_false] at h hname
    rcases h with h | h <;> simp [h] at hname
  obtain ⟨o, m, ho, hmaps, htype, -, hmval⟩ := yields_newMap hmt hrk hrv (chosen_newKey hrk hsize)
    hreuse (genInner_of_plain 0 hplain _)
  refine ⟨o, m, ho, hmaps, fun hsized => ?_⟩
  have hwithin := ((wellSized_of_row hmt htype).mp hsized).2
  rw [hmval, hval, WithinLimits, rk.layout_size] at hwithin
  exact absurd hwithin.2.2 (by decide)

section Necessary

variable (hall : ∀ fuel o, Gen.Yields (newMap fuel pool mt hints minValSize) o →
  ∀ m ∈ pool.added o.2.2, m.WellSized) {rk rv : StructRequest}
  (hrk : rk.Is mt.keySize hints false 0) (hrv : rv.Is mt.valSize hints true minValSize)

include hall hrk hrv

/-- Maps of maps may get an inner map that is not within its limits. -/
theorem plain_of_all (hmt : mt ∈ bpfMapTypes) (hhas : HasValue pool.structs mt hints minValSize) :
    mt.name ∉ [.arrayOfMaps, .hashOfMaps] := by
  intro hmaps
  obtain ⟨key, structs1, hkey, hsub⟩ := exists_chosen_key hmt hrk pool.structs
  obtain ⟨val, hints', structs2, hval⟩ := exists_chosen_val hmt hrv hsub hhas
  obtain ⟨row, hrow, hname⟩ : ∃ row ∈ bpfMapTypes, row.name = .sockhash := by decide
  obtain ⟨o, m, ho, hadded, hbad⟩ := exists_unaligned_newKey hrow (by rw [hname]; decide)
    (by decide : (0 : ℤ) ≤ 7) { pool with structs := structs2 }
  have hinner : Gen.Yields (genInner 1 mt { pool with structs := structs2 }) o := by
    rw [genInner, if_pos (by simpa using hmaps)]
    exact (yields_pick hrow).bind ho
  obtain ⟨o', m', ho', hadded', -⟩ := yields_newMap hmt hrk hrv hkey hval hinner
  refine hbad (hall 2 o' ho' m ?_)
  rw [added, hadded', hadded, append_assoc, drop_left]
  exact mem_cons_self

theorem within_of_all (hmt : mt ∈ bpfMapTypes) (hplain : mt.name ∉ [.arrayOfMaps, .hashOfMaps])
    {key val : Option StructDef}
    (hkey : Chosen (getCompatKeyStructDefs pool.structs mt) rk pool.structs
      (some (key, hints, structs1)))
    (hval : Chosen (getCompatValStructDefs structs1 hints minValSize mt) rv structs1
      (some (val, hints', structs2))) :
    WithinLimits mt.keySize key ∧ WithinLimits mt.valSize val := by
  obtain ⟨o, m, ho, hmaps, htype, rfl, rfl⟩ := yields_newMap hmt hrk hrv hkey hval
    (genInner_of_plain 0 hplain _)
  refine (wellSized_of_row hmt htype).mp (hall 1 o ho m ?_)
  rw [added, hmaps, drop_left]
  exact mem_cons_self

theorem sizesKept_of_all (hmt : mt ∈ bpfMapTypes)
    (hhas : HasValue pool.structs mt hints minValSize) :
    SizesKept pool.structs mt hints minValSize := by
  have hplain := plain_of_all hall hrk hrv hmt hhas
  obtain ⟨key, structs1, hkey, hsub⟩ := exists_chosen_key hmt hrk pool.structs
  refine ⟨hplain, fun sd hsd => ?_, fun sd hsd => ?_, fun hname => ?_, fun hname hlo hhi => ?_⟩
  · obtain ⟨val, hints', structs2, hval⟩ := exists_chosen_val hmt hrv (fun _ h => h) hhas
    have hkey : Chosen _ rk pool.structs _ := .reused hsd
    rw [hrk.hints] at hkey
    exact (within_of_all hall hrk hrv hmt hplain hkey hval).1.2.2
  · obtain ⟨hmem, hfits⟩ := mem_getCompatValStructDefs.mp hsd
    have hval : Chosen _ rv structs1 _ :=
      .reused (mem_getCompatValStructDefs.mpr ⟨hsub sd hmem, hfits⟩)
    exact (within_of_all hall hrk hrv hmt hplain hkey hval).2.2.2
  · by_contra hnot
    obtain ⟨hnil, hmin⟩ := not_or.mp hnot
    obtain rfl := not_not.mp hnil
    obtain ⟨o, m, ho, hmaps, hbad⟩ := exists_unaligned_newKey hmt hname (not_lt.mp hmin) pool
    refine hbad (hall 1 o ho m ?_)
    rw [added, hmaps, drop_left]
    exact mem_cons_self
  · by_contra hnot
    have hocc := occupiedSize_le hints
    obtain ⟨hcs, hlow⟩ : mt.valSize = [8, 4096, 8] ∧ rv.low = minValSize.toNat := by
      have hcs := bpfMapTypes_stackTrace mt hmt hname
      refine ⟨hcs, (low_val hrv).trans ?_⟩
      rw [hcs]
      change max (max 8 _) _ = _
      omega
    have hmax : rv.maxSize = 4096 := by rw [hrv.maxSize, hcs]; rfl
    have hsize : rv.sizeFor 0 = some (minValSize.toNat - 1 + 1) := by
      rw [sizeFor, if_neg (by omega), if_pos (by omega)]
      congr 1
      omega
    have hval : Chosen (getCompatValStructDefs structs1 hints minValSize mt) rv structs1 _ :=
      .generated 0
    rw [hsize] at hval
    have hdvd := (within_of_all hall hrk hrv hmt hplain hkey hval).2.2.2
    rw [hcs, rv.layout_size] at hdvd
    change 8 ∣ _ at hdvd
    omega

end Necessary

/-- The sizes of every map that `newMap` adds are within the limits of its type, whatever is
drawn, exactly when the layouts of the program, the hints and the least size allow for it. -/
theorem newMap_wellSized_iff (hmt : mt ∈ bpfMapTypes) (hnodup : hints.Nodup) :
    (∀ fuel draws o draws', newMap fuel pool mt hints minValSize draws = some (o, draws') →
      ∀ m ∈ pool.added o.2.2, m.WellSized) ↔
      (HasValue pool.structs mt hints minValSize →
        SizesKept pool.structs mt hints minValSize) := by
  constructor
  · intro h hhas
    obtain ⟨rk, hrk⟩ := (bpfMapTypes_limits mt hmt).1.exists_request hnodup false 0
    obtain ⟨rv, hrv⟩ := (bpfMapTypes_limits mt hmt).2.exists_request hnodup true minValSize
    refine sizesKept_of_all (fun fuel o ho => ?_) hrk hrv hmt hhas
    obtain ⟨draws, draws', hrun⟩ := ho.exists_run
    exact h fuel draws o draws' hrun
  · intro h fuel draws o draws' hrun
    exact ensures_newMap hmt hnodup h fuel draws o draws' hrun

/-- The first map of a program, a hash map. -/
theorem newMap_wellSized_hash : ∃ mt ∈ bpfMapTypes, mt.name = .hash ∧
    ∀ fuel draws o draws', newMap fuel ⟨[], []⟩ mt [] 0 draws = some (o, draws') →
      ∀ m ∈ added ⟨[], []⟩ o.2.2, m.WellSized := by
  obtain ⟨mt, hmt, hname⟩ : ∃ mt ∈ bpfMapTypes, mt.name = .hash := by decide
  refine ⟨mt, hmt, hname, (newMap_wellSized_iff hmt nodup_nil).mpr fun _ => ?_⟩
  refine ⟨?_, by simp [getCompatKeyStructDefs], by simp [getCompatValStructDefs], ?_, ?_⟩
  · rw [hname]
    decide
  · intro h
    rw [hname] at h
    exact absurd h (by decide)
  · intro h
    rw [hname] at h
    exact absurd h (by decide)

/-- The key of seven bytes that a socket hash was given becomes its value, which must be a
multiple of four. -/
theorem newMap_sockhash_unaligned : ∃ mt ∈ bpfMapTypes, mt.name = .sockhash ∧
    ∃ o draws m, newMap 1 ⟨[], []⟩ mt [] 0 ([0, 0, 6, 1, 0] ++ₛ Stream'.const 0) = some (o, draws) ∧
      added ⟨[], []⟩ o.2.2 = [m] ∧ mt.valSize = [4, 8, 4] ∧ m.val.map (·.size) = some 7 ∧
      ¬ m.WellSized := by
  refine ⟨bpfMapTypes.get ⟨17, by decide⟩, get_mem _ _, rfl, _, _, _, rfl, rfl, rfl, rfl, ?_⟩
  intro h
  have hval := (h _ (get_mem bpfMapTypes ⟨17, by decide⟩) rfl).2
  exact absurd hval.2.2 (by decide)

end New

end Brf.HelperCalls
