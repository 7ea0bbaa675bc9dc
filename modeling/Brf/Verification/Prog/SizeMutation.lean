import Brf.Lib.Support
import Brf.Model.MutateSize
import Brf.Verification.Prog.Validity
import Mathlib.Tactic

/-! # Mutated sizes

`mutateSize` divides by the size of an element of what the length field counts. -/

namespace Brf

open Brf.Lib Brf.Lib.Gen

section Integers

variable {bits : ℕ} {start stop : UInt64}

theorem sat_rand64 : Sat rand64 fun _ => True :=
  (sat_intn (by decide)).bind fun _ _ => (sat_nOutOf 1 (by decide)).bind fun _ _ => sat_pure trivial

theorem specialInts_take_ne_nil (i : ℕ) : specialInts.take (specialIntIndex i) ≠ [] := by
  have hpos : 0 < specialIntIndex i :=
    List.countP_pos_iff.mpr ⟨0, .head _, decide_eq_true (Nat.two_pow_pos _)⟩
  rw [Ne, List.take_eq_nil_iff]
  exact fun h => h.elim hpos.ne' (by decide)

theorem sat_randIntBase (h : bits ≤ 64) (v : UInt64) : Sat (randIntBase bits v) fun _ => True := by
  have hcond : Sat (if 8 ≤ bits then nOutOf 50 82 else pure false) fun _ => True :=
    sat_ite (fun _ => sat_nOutOf 50 (by decide)) fun _ => sat_pure trivial
  refine sat_either (by decide) (sat_pure trivial) (hcond.bind fun _ _ => sat_ite (fun _ => ?_)
    fun _ => ?_)
  · rw [if_pos (by omega)]
    exact (sat_pick (specialInts_take_ne_nil _)).mono fun _ _ => trivial
  · exact sat_either (by decide) (sat_pure trivial) (sat_either (by decide) (sat_pure trivial)
      (sat_either (by decide) (sat_pure trivial) (sat_pure trivial)))

theorem sat_randInt (hpos : 0 < bits) (hle : bits ≤ 64) : Sat (randInt bits) fun _ => True := by
  refine sat_rand64.bind fun v _ => (sat_randIntBase hle v).bind fun v _ => ?_
  have hsign : Sat (randIntSign bits v) fun _ => True :=
    sat_either (by decide) (sat_pure trivial) (sat_either (by decide) (sat_pure trivial)
      ((sat_intn hpos).map fun _ _ => trivial))
  refine hsign.bind fun v _ => ?_
  rw [if_neg (by omega)]
  exact sat_pure trivial

theorem sat_randRangeInt (hpos : 0 < bits) (hle : bits ≤ 64) (hne : stop - start + 1 ≠ 0) :
    Sat (randRangeInt start stop bits) fun _ => True := by
  refine sat_either (by decide) (sat_randInt hpos hle) ?_
  rw [if_neg hne]
  exact (sat_intn (by decide)).map fun _ _ => trivial

end Integers

/-! ### The size of an element -/

section Mutation

variable {t : Target} {biasedRand : ℤ → ℕ → ℕ → ℤ} {bits : ℕ} {val size : UInt64}

theorem sat_overflowMax : Sat overflowMax fun _ => True :=
  sat_either (by decide) (sat_either (by decide) (sat_either (by decide) (sat_pure trivial)
    (sat_pure trivial)) (sat_pure trivial)) (sat_pure trivial)

theorem sat_mutateVal (hpos : 0 < bits) (hle : bits ≤ 64) (hsize : size ≠ 0) :
    Sat (mutateVal biasedRand bits val size) fun _ => True := by
  refine sat_either (by decide) sat_rand64 (sat_either (by decide) ?_ ?_)
  · have hup : val + 100 - (val + 1) + 1 ≠ 0 := by
      have h100 : val + 100 - (val + 1) + 1 = 100 := by grind
      rw [h100]
      decide
    by_cases hval : val = 0
    · simp only [hval, ne_eq, not_true_eq_false, if_false, pure_bind, Bool.false_eq_true]
      exact sat_randRangeInt hpos hle (by decide)
    · rw [if_pos hval]
      have hdown : val - 1 - 0 + 1 ≠ 0 := by grind
      exact sat_either (by decide) (sat_randRangeInt hpos hle hdown) (sat_randRangeInt hpos hle hup)
  · refine sat_overflowMax.bind fun max _ => ?_
    rw [if_neg hsize]
    refine (sat_intn (by decide)).bind fun draw _ => ?_
    have hminus : Sat (if size = 1 then pure true else nOutOf 1 10) fun _ => True :=
      sat_ite (fun _ => sat_pure trivial) fun _ => sat_nOutOf 1 (by decide)
    exact hminus.bind fun _ _ => sat_pure trivial

/-- One of the draws leads to the division. -/
theorem size_ne_zero_of_sat {Q : UInt64 → Prop} (h : Sat (mutateVal biasedRand bits val size) Q) :
    size ≠ 0 := by
  have h := (yields_nOutOf (show 1 < 100 by decide)).sat_of_bind h
  have h := (yields_nOutOf (show 1 < 2 by decide)).sat_of_bind h
  have hmax : Yields overflowMax 0xffffffffffffffff :=
    (yields_nOutOf (show 1 < 3 by decide)).bind (yields_pure _)
  exact (Sat.of_ite_failure (hmax.sat_of_bind h)).1

variable {parent : List Arg} {fields : List Field}

theorem findNamed_eq (name : String) (h : parent.length = fields.length) :
    findNamed t name parent fields = some (((parent.zip fields).find? fun af => af.2.name = name).bind
      fun af => (af.1.inner t []).map Prod.snd) := by
  induction parent generalizing fields with
  | nil => rfl
  | cons a as ih =>
    cases fields with
    | nil => cases h
    | cons f fs =>
      rw [findNamed, List.zip_cons_cons]
      by_cases hname : f.name = name
      · simp [hname]
      · rw [if_pos (Ne.symm hname), ih (Nat.succ.inj h)]
        simp [hname]

/-- A length in units of elements whose path is the name of a field, where the first field of
that name holds an array, or a pointer to one, and the elements of the array are empty. -/
def CountsEmpty (t : Target) (bitSize : UInt64) (path : List String) (parent : List Arg)
    (fields : List Field) : Prop :=
  bitSize / 8 = 0 ∧ ∃ name, path = [name] ∧
    ∃ af ∈ (parent.zip fields).find? (fun af => af.2.name = name), ∃ inner ∈ af.1.inner t [],
      ∃ c elem kind lo hi, t.type inner.2.ref = .array c elem kind lo hi ∧
        (t.type elem).size? = some 0

/-- The size of an element is always found, and is 0 for empty elements only. -/
theorem elemSize_spec (bitSize : UInt64) (path : List String) (h : parent.length = fields.length) :
    ∃ size, elemSize t bitSize path parent fields = some size ∧
      (size = some 0 ↔ CountsEmpty t bitSize path parent fields) := by
  unfold elemSize
  split
  · next hbits => exact ⟨_, rfl, by simp [CountsEmpty, hbits]⟩
  next hbits =>
  split
  · next name =>
    rw [findNamed_eq name h]
    simp only [CountsEmpty, not_not.mp hbits, true_and, List.cons.injEq, and_true, exists_eq_left']
    cases hfind : (parent.zip fields).find? fun af => af.2.name = name with
    | none => simp
    | some af =>
      cases hinner : af.1.inner t [] with
      | none => simp [hinner]
      | some inner =>
        simp only [Option.bind_some, hinner, Option.map_some, Option.mem_some_iff, exists_eq_left']
        cases htype : t.type inner.2.ref with
        | buffer _ kind =>
          simp only [reduceCtorEq, false_and, exists_false, iff_false]
          split <;> simp
        | array => simp
        | _ => simp
  · next hpath =>
    refine ⟨_, rfl, iff_of_false (by decide) ?_⟩
    rintro ⟨-, name, rfl, -⟩
    exact hpath name rfl

/-- The mutation of a length field returns and changes nothing but the value, exactly if the
elements it counts are not those of an array of empty elements. -/
theorem mutateSize_safe_iff {c : ArgCommon} {ic : IntTypeCommon} {bitSize : UInt64} {offset : Bool}
    {path : List String} (htype : t.type c.ref = .len ic bitSize offset path)
    (hpos : 0 < ic.typeBitSize.toNat) (hle : ic.typeBitSize.toNat ≤ 64)
    (hfields : parent.length = fields.length) :
    Sat (mutateSize t biasedRand c val parent fields)
        (fun r => ∃ v, r.2 = .const c v ∧ (r.1 = false → v = val)) ↔
      ¬ CountsEmpty t bitSize path parent fields := by
  obtain ⟨size, hsize, hempty⟩ := elemSize_spec (t := t) bitSize path hfields
  rw [← hempty]
  simp only [mutateSize, htype, hsize]
  cases size with
  | none => exact ⟨fun _ => nofun, fun _ => sat_pure ⟨val, rfl, fun _ => rfl⟩⟩
  | some size =>
    simp only [Option.some.injEq]
    refine ⟨fun h => size_ne_zero_of_sat h.of_map, fun hne => ?_⟩
    exact (sat_mutateVal hpos hle hne).map fun v _ => ⟨v, rfl, nofun⟩

end Mutation

/-! ### Arrays of empty elements -/

def countTypes : List Typ :=
  [ .buffer ⟨"void", some 0, false⟩ .blobRange 0 0 [] false,
    .array ⟨"array", some 0, false⟩ 0 .randLen 0 0,
    .int ⟨⟨"int64", 8, false⟩, .native, 0, 0, 0, 0⟩ .plain 0 0 0,
    .array ⟨"array", none, false⟩ 2 .randLen 0 0,
    .len ⟨⟨"len", 4, false⟩, .native, 0, 0, 0, 0⟩ 0 false ["a"] ]

/-- The types of `array[void]`, `array[int64]` and `len[a, int32]`. -/
def countTarget : Target := smallTarget [] countTypes

/-- The fields `a` of an array type and `n`. -/
def countFields (array : Ref) : List Field := [⟨"a", array, false, .dirIn⟩, ⟨"n", 4, false, .dirIn⟩]

def countArgs (array : Ref) : List Arg := [.group ⟨array, .dirIn⟩ [], .const ⟨4, .dirIn⟩ 0]

theorem countArgs_mutated : Sat (mutateSize countTarget (fun _ _ _ => 0) ⟨4, .dirIn⟩ 0
    (countArgs 3) (countFields 3)) fun r =>
      ∃ v, r.2 = .const ⟨4, .dirIn⟩ v ∧ (r.1 = false → v = 0) := by
  refine (mutateSize_safe_iff rfl (by decide) (by decide) rfl).mpr ?_
  rintro ⟨-, name, ⟨⟩, af, hfind, inner, hinner, c, elem, kind, lo, hi, htype, hsize⟩
  cases hfind
  cases hinner
  cases htype
  cases hsize

/-- The division by the size of an element of `array[void]`. -/
theorem countArgs_divides_by_zero : ¬ Sat (mutateSize countTarget (fun _ _ _ => 0) ⟨4, .dirIn⟩ 0
    (countArgs 1) (countFields 1)) fun _ => True :=
  fun h => size_ne_zero_of_sat h.of_map rfl

end Brf
