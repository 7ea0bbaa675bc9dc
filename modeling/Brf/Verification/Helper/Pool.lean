import Brf.Lib.Ensures
import Brf.Model.HelperMaps

/-! # Sizes of keys and values

No layout of a program's maps is larger than the largest value a map type admits. -/

namespace Brf.HelperCalls

open Brf.Lib Lib.Gen List Option

/-- The largest size that a map type admits for keys or values. -/
def maxLayout : ℕ := 65536

structure BpfMap.Bounded (m : BpfMap) : Prop where
  key : ∀ sd, m.key = some sd → sd.size ≤ maxLayout
  val : ∀ sd, m.val = some sd → sd.size ≤ maxLayout

structure MapPool.Bounded (pool : MapPool) : Prop where
  structs : ∀ sd ∈ pool.structs, sd.size ≤ maxLayout
  maps : ∀ m ∈ pool.maps, m.Bounded

theorem bpfMapTypes_le : ∀ mt ∈ bpfMapTypes,
    mt.keySize.getD 1 0 ≤ maxLayout ∧ mt.valSize.getD 1 0 ≤ maxLayout := by
  decide

variable {pool : MapPool}

theorem MapPool.Bounded.modify (h : pool.Bounded) (k : ℕ) {f : BpfMap → BpfMap}
    (hf : ∀ m, (f m).key = m.key ∧ (f m).val = m.val) :
    MapPool.Bounded { pool with maps := pool.maps.modify k f } := by
  refine ⟨h.structs, ?_⟩
  intro m hm
  obtain ⟨i, hi⟩ := mem_iff_getElem?.mp hm
  rw [getElem?_modify] at hi
  obtain ⟨m0, hm0, rfl⟩ := map_eq_some_iff.mp hi
  have hbound := h.maps m0 (mem_of_getElem? hm0)
  split
  · exact ⟨(hf m0).1 ▸ hbound.key, (hf m0).2 ▸ hbound.val⟩
  · exact hbound

theorem structSize_le (sizes : List ℕ) (hints : List ArgHint) (useHint : Bool) (minSize : ℤ) :
    Gen.Ensures (structSize sizes hints useHint minSize) fun r =>
      ∀ n, r = some n → n ≤ sizes.getD 1 0 := by
  unfold structSize
  extract_lets min max align occupied min1 min2 max1
  refine ensures_ite (fun _ => by simp) fun _ => ?_
  refine ensures_ite (fun heq => ?_) fun _ => ?_
  · rw [ensures_pure, heq]
    intro n hn
    exact Nat.le_of_eq (some.inj hn).symm
  refine ensures_ite (fun hlt => ?_) fun _ => by simp
  refine ensures_ite (fun _ => ?_) fun _ => ?_
  · rw [ensures_pure]
    intro n hn
    exact (some.inj hn) ▸ Nat.le_of_lt hlt
  · have hmax : max1 ≤ max := by
      simp only [max1]
      split <;> omega
    refine ensures_bind (ensures_intn ?_)
    simp only [ensures_pure, some.injEq, forall_eq']
    split <;> omega

/-- A layout, if there is one, and all layouts of the program are within the bound. -/
def LayoutsBounded (r : Option (Option StructDef × List ArgHint × List StructDef)) : Prop :=
  ∀ sd hints structs, r = some (sd, hints, structs) →
    (∀ s, sd = some s → s.size ≤ maxLayout) ∧ ∀ s ∈ structs, s.size ≤ maxLayout

theorem generateStruct_bounded {structs : List StructDef} {sizes : List ℕ}
    (hstructs : ∀ sd ∈ structs, sd.size ≤ maxLayout) (hsizes : sizes.getD 1 0 ≤ maxLayout)
    (hints : List ArgHint) (useHint : Bool) (minSize : ℤ) :
    Gen.Ensures (generateStruct structs sizes hints useHint minSize) LayoutsBounded := by
  refine ensures_bind ((structSize_le sizes hints useHint minSize).mono ?_)
  intro r hr
  split
  · simp [LayoutsBounded]
  · rw [ensures_pure]
    rintro sd hints' structs' ⟨⟩
    exact ⟨by simp, hstructs⟩
  · next size _ =>
    generalize layoutFields useHint size size 0 hints = fields
    obtain ⟨fieldTypes, taken, left⟩ := fields
    change Gen.Ensures (let sd : StructDef := _; pure (some (some sd, left, structs ++ [sd]))) _
    extract_lets sd
    have hsize : sd.size ≤ maxLayout := by
      have hsd : sd.size = size := by
        simp only [sd]
        split <;> rfl
      rw [hsd]
      exact Nat.le_trans (hr size rfl) hsizes
    rw [ensures_pure]
    rintro _ _ _ ⟨⟩
    refine ⟨by rintro s ⟨⟩; exact hsize, ?_⟩
    intro s hs
    rcases mem_append.mp hs with hs | hs
    · exact hstructs s hs
    · rw [mem_singleton.mp hs]
      exact hsize

theorem chooseStruct_bounded {fitting structs : List StructDef}
    {generate : Gen (Option (Option StructDef × List ArgHint × List StructDef))}
    (hfit : ∀ sd ∈ fitting, sd ∈ structs) (hstructs : ∀ sd ∈ structs, sd.size ≤ maxLayout)
    (hgen : Gen.Ensures generate LayoutsBounded) (hints : List ArgHint) :
    Gen.Ensures (chooseStruct fitting generate hints structs) LayoutsBounded := by
  refine ensures_bind (.of_forall fun _ => ?_)
  refine ensures_ite (fun _ => ?_) fun _ => hgen
  refine ensures_bind (ensures_pick ?_)
  intro sd hsd
  rw [ensures_pure]
  rintro _ _ _ ⟨⟩
  refine ⟨?_, hstructs⟩
  rintro s ⟨⟩
  exact hstructs sd (hfit sd hsd)

theorem newMap_bounded (fuel : ℕ) {mt : BpfMapType} (hpool : pool.Bounded)
    (hmt : mt ∈ bpfMapTypes) (hints : List ArgHint) (minValSize : ℤ) :
    Gen.Ensures (newMap fuel pool mt hints minValSize) fun r => r.2.2.Bounded := by
  induction fuel generalizing pool mt hints minValSize with
  | zero => exact ensures_failure
  | succ fuel ih =>
    obtain ⟨hkeySize, hvalSize⟩ := bpfMapTypes_le mt hmt
    refine ensures_bind (.of_forall fun maxEntries => ?_)
    refine ensures_bind ((chooseStruct_bounded (fun sd hsd => mem_of_mem_filter hsd)
      hpool.structs (generateStruct_bounded hpool.structs hkeySize hints false 0) hints).mono ?_)
    intro rkey hrkey
    split
    · exact ensures_pure.mpr hpool
    next key hints structs =>
    obtain ⟨hkey, hstructs⟩ := hrkey _ _ _ rfl
    refine ensures_bind ((chooseStruct_bounded (fun sd hsd => mem_of_mem_filter hsd)
      hstructs (generateStruct_bounded hstructs hvalSize hints true minValSize) hints).mono ?_)
    intro rval hrval
    split
    · exact ensures_pure.mpr ⟨hstructs, hpool.maps⟩
    next val hints structs =>
    obtain ⟨hval, hstructs⟩ := hrval _ _ _ rfl
    extract_lets pool' finish
    have hpool' : pool'.Bounded := ⟨hstructs, hpool.maps⟩
    have hfinish : ∀ r : Option ℕ × List ArgHint × MapPool, r.2.2.Bounded →
        Gen.Ensures (finish r) fun r => r.2.2.Bounded := by
      rintro ⟨innerMap, _, pool⟩ hpool
      refine ensures_bind (.of_forall fun manFlags => ?_)
      refine ensures_bind (.of_forall fun optFlags => ?_)
      refine ensures_pure.mpr ⟨hpool.structs, ?_⟩
      intro m hm
      rcases mem_append.mp hm with hm | hm
      · exact hpool.maps m hm
      · rw [mem_singleton.mp hm]
        exact ⟨hkey, hval⟩
    refine ensures_ite (fun _ => ?_) fun _ => ?_
    · refine ensures_bind (ensures_pick fun inner hinner => ?_)
      exact ensures_bind ((ih hpool' hinner [] 0).mono hfinish)
    · exact hfinish (none, [], pool') hpool'

theorem ite_removeFlag_layouts (c : Prop) [Decidable c] (f : MapFlag) (m : BpfMap) :
    (if c then m.removeFlag f else m).key = m.key ∧
      (if c then m.removeFlag f else m).val = m.val := by
  split <;> exact ⟨rfl, rfl⟩

theorem dropFlags_layouts (env : ProgEnv) (helper : BpfHelper) (m : BpfMap) :
    (dropFlags env helper m).key = m.key ∧ (dropFlags env helper m).val = m.val := by
  simp only [dropFlags, ite_removeFlag_layouts, and_self]

/-- Choosing a map keeps all layouts within their bound. -/
theorem chooseMap_bounded (fuel : ℕ) (env : ProgEnv) (hpool : pool.Bounded)
    (helper : BpfHelper) (hint : BpfCallGenHint) :
    Gen.Ensures (chooseMap fuel env pool helper hint) fun r => r.2.2.Bounded := by
  unfold chooseMap
  extract_lets fitting types minValSize create choose
  have hcreate : ∀ mt, (∀ t, mt = some t → t ∈ bpfMapTypes) →
      Gen.Ensures (create mt) fun r => r.2.2.Bounded := by
    intro mt hmt
    cases mt with
    | none => exact ensures_pure.mpr hpool
    | some mt =>
      refine ensures_bind ((newMap_bounded fuel hpool (hmt mt rfl) _ _).mono ?_)
      rintro ⟨m, hints, pool⟩ hpool
      cases m with
      | none => exact ensures_pure.mpr hpool
      | some m =>
        exact ensures_pure.mpr (hpool.modify m fun m => dropFlags_layouts env helper m)
  have hchoose : ∀ reuse, Gen.Ensures (choose reuse) fun r => r.2.2.Bounded := by
    intro reuse
    refine ensures_ite (fun _ => ?_) fun _ => ensures_ite (fun _ => ?_) fun _ => ?_
    · exact ensures_bind (.of_forall fun _ => ensures_pure.mpr hpool)
    · exact ensures_pure.mpr hpool
    refine ensures_ite (fun _ => ?_) fun _ => ?_
    · refine hcreate _ fun t ht => ?_
      exact mem_of_mem_filter (mem_of_find?_eq_some ht)
    · refine ensures_bind (ensures_pick fun t ht => hcreate (some t) ?_)
      rintro _ ⟨⟩
      exact mem_of_mem_filter ht
  refine ensures_ite (fun _ => hchoose false) fun _ => ?_
  exact ensures_bind (.of_forall fun reuse => hchoose reuse)

end Brf.HelperCalls
