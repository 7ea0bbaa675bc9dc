import Brf.Lib.Placement
import Brf.Model.Layout

/-! # Layout without overflow

As long as the fields are not too large, no counter wraps around and nothing panics: the layout
is the one with unbounded counters. -/

namespace Brf.Compiler

open Brf.Lib List Compiler.Field StructType Nat

theorem sub64_of_le {a b : ℕ} (hle : b ≤ a) (ha : a < 2 ^ 64) : sub64 a b = a - b := by
  unfold sub64
  omega

theorem w64_of_lt {a : ℕ} (ha : a < 2 ^ 64) : w64 a = a :=
  mod_eq_of_lt ha

variable {v : ℕ}

theorem rounddown_two_pow {k : ℕ} (hv : v < 2 ^ 64) (hk : k < 64) :
    rounddown v (2 ^ k) = some (v / 2 ^ k * 2 ^ k) := by
  have hpow : 2 ^ k < 2 ^ 64 := Nat.pow_lt_pow_right (by decide) hk
  have hsub : sub64 (2 ^ k) 1 = 2 ^ k - 1 := sub64_of_le Nat.one_le_two_pow hpow
  have hmask : 2 ^ 64 - 1 - (2 ^ k - 1) = 2 ^ 64 - 2 ^ k := by
    have hpos : 1 ≤ 2 ^ k := Nat.one_le_two_pow
    omega
  rw [rounddown, hsub, and_two_pow_sub_one_eq_mod, mod_self, hmask, and_mask hv hk.le]
  rfl

theorem roundup_two_pow {k : ℕ} (hk : k < 64) (hv : v + 2 ^ k < 2 ^ 64) :
    roundup v (2 ^ k) = some (alignUp v (2 ^ k)) := by
  have hpos : 1 ≤ 2 ^ k := Nat.one_le_two_pow
  rw [roundup, w64_of_lt hv, sub64_of_le (by omega) hv, rounddown_two_pow (by omega) hk, alignUp,
    Nat.add_sub_assoc hpos]

theorem roundup_zero (v : ℕ) : roundup v 0 = some 0 := by
  have hsub : sub64 0 1 = 2 ^ 64 - 1 := rfl
  rw [roundup, rounddown, hsub]
  simp

theorem roundup_eight (hv : v + 8 < 2 ^ 64) : roundup v 8 = some (alignUp v 8) :=
  roundup_two_pow (k := 3) (by decide) hv

/-- A field as it is generated. An alignment of zero is that of a type that has only structs
which are still being generated, and those have pointers. -/
structure Field.Declared (f : Field) : Prop where
  isPad : f.isPad = false
  align : f.align = 0 ∨ ∃ k, f.align = 2 ^ k
  unit : f.isBitfield → ∃ k ≤ 3, f.bitfieldUnit = 2 ^ k
  len : f.isBitfield → f.bitfieldLen ≤ 8 * f.bitfieldUnit
  bits : f.isBitfield → f.size = 0 ∧ f.varlen = false
  offsets : f.bitfieldOff = 0 ∧ f.bitfieldUnitOff = 0
  sized : f.isBitfield = false → f.align = 0 → f.varlen ∨ 0 < f.size

namespace Field

variable (packed : Bool) (f : Field)

/-- The size that the layout counts. -/
def fixedSize : ℕ :=
  if f.varlen then 0 else f.size

def fieldAlign : ℕ :=
  if packed then 1 else f.align

def unitAlign : ℕ :=
  if packed then 1 else f.bitfieldUnit

/-- The bitfield fits into its unit at the bit `n`. -/
def fits (n : ℕ) : Bool :=
  n % (8 * f.unitAlign packed) + f.bitfieldLen ≤ 8 * f.bitfieldUnit

/-- The first byte of the unit of a bitfield that contains the bit `n`. -/
def unitByte (n : ℕ) : ℕ :=
  n / (8 * f.unitAlign packed) * f.unitAlign packed

/-- The byte at which the field is placed when the counters are `byte` and `bit`. -/
def byteAt (byte bit : ℕ) : ℕ :=
  if f.isBitfield then
    if f.fits packed (8 * byte + bit) then max byte (f.unitByte packed (8 * byte + bit))
    else alignUp (alignUp (8 * byte + bit) 8 / 8) (f.unitAlign packed)
  else max byte (alignUp (alignUp (8 * byte + bit) 8 / 8) (f.fieldAlign packed))

def placed (byte bit : ℕ) : Field :=
  if f.isBitfield then
    if f.fits packed (8 * byte + bit) then
      { f with
        bitfieldOff := (8 * byte + bit) % (8 * f.unitAlign packed)
        bitfieldUnitOff := f.byteAt packed byte bit - f.unitByte packed (8 * byte + bit) }
    else { f with bitfieldOff := sub64 0 (8 * f.byteAt packed byte bit) % (8 * f.bitfieldUnit) }
  else f

/-- `bitOffset` behind the field. -/
def bitAfter (byte bit : ℕ) : ℕ :=
  if f.isBitfield then
    (if f.fits packed (8 * byte + bit) then 8 * byte + bit - 8 * f.byteAt packed byte bit else 0) +
      f.bitfieldLen
  else 0

/-- A bound for what the field adds to the counters. -/
def weight : ℕ :=
  f.fixedSize + f.align + 2 * f.bitfieldUnit + 1

end Field

/-- The padding, added to a bitfield in front. -/
def charge (bitfield : Bool) (pad : ℕ) (fields : List Field) : List Field :=
  if pad = 0 then fields
  else if bitfield then setBitfieldTypeSize pad fields
  else fields ++ [genPad pad]

/-- `layoutField` with unbounded counters. -/
def exactField (packed : Bool) (prev : Option Field) (st : LayoutState) (f : Field) :
    LayoutState where
  newFields := charge (prev.any isBitfield)
    (f.byteAt packed st.byteOffset st.bitOffset - st.byteOffset) st.newFields ++
      [f.placed packed st.byteOffset st.bitOffset]
  structAlign := if packed then st.structAlign else max st.structAlign f.align
  byteOffset := f.byteAt packed st.byteOffset st.bitOffset + f.fixedSize
  bitOffset := f.bitAfter packed st.byteOffset st.bitOffset

variable {f : Field}

theorem bitfieldOffsets_eq {packed : Bool} (hf : f.Declared)
    (hbits : f.isBitfield) {n bit : ℕ} (hn : n + 16 * f.bitfieldUnit < 2 ^ 64) :
    bitfieldOffsets packed f n bit = some
      (if f.fits packed n then
        (f.unitByte packed n, if f.unitByte packed n * 8 = n then 0 else bit,
          n % (8 * f.unitAlign packed))
      else
        (alignUp (alignUp n 8 / 8) (f.unitAlign packed), 0,
          sub64 0 (8 * alignUp (alignUp n 8 / 8) (f.unitAlign packed)) % (8 * f.bitfieldUnit))) := by
  obtain ⟨k, hk, hunit⟩ := hf.unit hbits
  have hsize : f.unitSize = f.bitfieldUnit := by rw [unitSize, if_pos hbits]
  have halign : ∃ j ≤ k, (if packed then 1 else f.unitSize) = 2 ^ j ∧ f.unitAlign packed = 2 ^ j := by
    cases packed with
    | false => exact ⟨k, le_refl k, by simpa [hsize] using hunit,
        by simpa [unitAlign] using hunit⟩
    | true => exact ⟨0, zero_le k, rfl, rfl⟩
  obtain ⟨j, hj, hsrc, hua⟩ := halign
  have hpos := Nat.two_pow_pos k
  have hj8 : 2 ^ j ≤ 2 ^ k := Nat.pow_le_pow_right (by decide) hj
  have hbytes := roundup_eight (v := n) (by omega)
  have hup := alignUp_le n 8
  have hup' := alignUp_le (alignUp n 8 / 8) (2 ^ j)
  -- the unit that contains the bit
  have hbyte : n / 8 / 2 ^ j * 2 ^ j = f.unitByte packed n := by
    rw [unitByte, hua, Nat.div_div_eq_div_mul]
  have hmod : f.unitByte packed n * 8 + n % (8 * 2 ^ j) = n := by
    rw [unitByte, hua]
    have h := div_add_mod n (8 * 2 ^ j)
    rw [mul_comm (8 * 2 ^ j), ← mul_assoc, mul_right_comm] at h
    exact h
  have hlt : n % (8 * 2 ^ j) < 8 * 2 ^ j := Nat.mod_lt _ (by have hpos := Nat.two_pow_pos j; omega)
  rw [bitfieldOffsets, hsrc, rounddown_two_pow (by omega) (by omega), hbyte]
  -- the kernel must not unfold sums with the modulus
  simp -implicitDefEqProofs only [Option.bind_eq_bind, Option.bind_some, hsize, hbytes]
  rw [roundup_two_pow (by omega) (by omega), w64_of_lt (a := f.unitByte packed n * 8) (by omega),
    w64_of_lt (a := f.bitfieldUnit * 8) (by omega), sub64_of_le (a := n) (by omega) (by omega)]
  have hocc : n - f.unitByte packed n * 8 = n % (8 * 2 ^ j) := by omega
  rw [hocc, sub64_of_le (by omega) (by omega), fits, hua]
  simp -implicitDefEqProofs only [Option.bind_some, decide_eq_true_eq]
  by_cases hfits : n % (8 * 2 ^ j) + f.bitfieldLen ≤ 8 * f.bitfieldUnit
  · have hsmall : n % (8 * 2 ^ j) % (f.bitfieldUnit * 8) = n % (8 * 2 ^ j) := by
      refine mod_eq_of_lt ?_
      omega
    rw [if_neg (by omega), if_pos hfits]
    by_cases hzero : f.unitByte packed n * 8 = n
    · rw [if_pos (by omega), if_pos hzero, sub64_of_le (le_refl _) (by omega)]
      simp only [Nat.sub_self, Nat.zero_mod]
      congr 3
      omega
    · rw [if_neg (by omega), if_neg hzero, hsmall]
  · rw [if_pos (by omega), if_neg hfits, w64_of_lt (by omega), mul_comm _ 8,
      mul_comm f.bitfieldUnit 8]

variable {st : LayoutState} {prev : Option Field}

theorem padField_eq {fieldOffset : ℕ} (hoff : fieldOffset < 2 ^ 61)
    (hbit : st.bitOffset = 0 ∨ 8 * (fieldOffset - st.byteOffset) ≤ st.bitOffset ∧
      prev.any isBitfield ∧ st.bitOffset < 2 ^ 64) :
    padField prev fieldOffset st = some
      { newFields := charge (prev.any isBitfield) (fieldOffset - st.byteOffset) st.newFields
        structAlign := st.structAlign
        byteOffset := max st.byteOffset fieldOffset
        bitOffset := st.bitOffset - 8 * (fieldOffset - st.byteOffset) } := by
  unfold padField
  by_cases hpad : fieldOffset > st.byteOffset
  · have hsub : sub64 fieldOffset st.byteOffset = fieldOffset - st.byteOffset :=
      sub64_of_le hpad.le (by omega)
    have hw : w64 (8 * (fieldOffset - st.byteOffset)) = 8 * (fieldOffset - st.byteOffset) :=
      w64_of_lt (by omega)
    have hbyte : w64 (st.byteOffset + (fieldOffset - st.byteOffset)) =
        max st.byteOffset fieldOffset := by
      rw [w64_of_lt (by omega)]
      omega
    have hne : fieldOffset - st.byteOffset ≠ 0 := by omega
    simp only [if_pos hpad, hsub, hw, hbyte, charge, if_neg hne]
    by_cases hprev : prev.any isBitfield
    · simp only [hprev, if_true]
      rcases hbit with hzero | ⟨hle, -, hlt⟩
      · rw [if_neg (by omega), if_neg (by omega), hzero, Nat.zero_sub]
      · rw [if_pos hle, sub64_of_le hle (by omega)]
    · simp only [hprev]
      rcases hbit with hzero | ⟨-, hbits, -⟩
      · simp [hzero]
      · exact absurd hbits hprev
  · have hzero : fieldOffset - st.byteOffset = 0 := by omega
    simp only [if_neg hpad, hzero, charge, if_true, Nat.mul_zero, Nat.sub_zero]
    rw [max_eq_left (by omega)]

theorem Field.Declared.roundup_fieldAlign (hf : f.Declared) (packed : Bool)
    (hv : v + f.align + 1 < 2 ^ 64) :
    roundup v (f.fieldAlign packed) = some (alignUp v (f.fieldAlign packed)) := by
  cases packed with
  | true => exact roundup_two_pow (k := 0) (by decide) (by omega)
  | false =>
    change roundup v f.align = some (alignUp v f.align)
    rcases hf.align with hzero | ⟨k, hk⟩
    · rw [hzero, roundup_zero]
      simp [alignUp]
    · rw [hk] at hv ⊢
      have hpow : 2 ^ k < 2 ^ 64 := by omega
      exact roundup_two_pow ((Nat.pow_lt_pow_iff_right (by decide)).mp hpow) (by omega)

theorem Field.Declared.unitAlign_pos (hf : f.Declared) (hbits : f.isBitfield)
    (packed : Bool) : 0 < f.unitAlign packed := by
  cases packed with
  | true => exact one_pos
  | false =>
    obtain ⟨k, -, hunit⟩ := hf.unit hbits
    change 0 < f.bitfieldUnit
    rw [hunit]
    exact Nat.two_pow_pos k

theorem Field.unitByte_le (packed : Bool) (f : Field) (n : ℕ) : 8 * f.unitByte packed n ≤ n := by
  have h := div_mul_le_self n (8 * f.unitAlign packed)
  calc 8 * f.unitByte packed n = n / (8 * f.unitAlign packed) * (8 * f.unitAlign packed) := by
        rw [unitByte, mul_left_comm]
    _ ≤ n := h

section Step

variable {packed : Bool} {prev : Option Field} {fields : List Field} {structAlign byte bit : ℕ}
  {f : Field}

theorem padField_fits (hfits : f.fits packed (8 * byte + bit)) (hbits : f.isBitfield)
    (hsmall : 8 * byte + bit < 2 ^ 64) (hprev : bit ≠ 0 → prev.any isBitfield) :
    padField prev (f.unitByte packed (8 * byte + bit))
      ⟨fields, structAlign, byte,
        if f.unitByte packed (8 * byte + bit) * 8 = 8 * byte + bit then 0 else bit⟩ = some
      ⟨charge (prev.any isBitfield) (f.byteAt packed byte bit - byte) fields, structAlign,
        f.byteAt packed byte bit, 8 * byte + bit - 8 * f.byteAt packed byte bit⟩ := by
  have hle := f.unitByte_le packed (8 * byte + bit)
  rw [byteAt, if_pos hbits, if_pos hfits]
  generalize f.unitByte packed (8 * byte + bit) = unit at hle ⊢
  rw [padField_eq (by omega)]
  · have hpad : max byte unit - byte = unit - byte := by omega
    have hbit : (if unit * 8 = 8 * byte + bit then 0 else bit) - 8 * (unit - byte) =
        8 * byte + bit - 8 * max byte unit := by
      split <;> omega
    rw [hpad, hbit]
  · by_cases hzero : bit = 0
    · exact .inl (by simp [hzero])
    · by_cases heq : unit * 8 = 8 * byte + bit
      · exact .inl (if_pos heq)
      · refine .inr ⟨?_, hprev hzero, ?_⟩ <;> simp only [if_neg heq] <;> omega

theorem padField_behind {at' : ℕ} (hle : byte ≤ at') (hsmall : at' < 2 ^ 61) :
    padField prev at' ⟨fields, structAlign, byte, 0⟩ = some
      ⟨charge (prev.any isBitfield) (at' - byte) fields, structAlign, at', 0⟩ := by
  rw [padField_eq hsmall (.inl rfl), Nat.zero_sub, max_eq_right hle]

end Step

/-- While no counter wraps, a step is the exact one. -/
theorem layoutField_eq {packed : Bool}
    (hf : f.Declared) (hsmall : 8 * st.byteOffset + st.bitOffset + 8 * f.weight + 8 < 2 ^ 64)
    (hprev : st.bitOffset ≠ 0 → prev.any isBitfield) :
    layoutField packed prev st f = some (exactField packed prev st f) := by
  obtain ⟨fields, structAlign, byte, bit⟩ := st
  dsimp only at hsmall hprev
  have hweight : f.weight = f.fixedSize + f.align + 2 * f.bitfieldUnit + 1 := rfl
  have hfull : w64 (w64 (byte * 8) + bit) = 8 * byte + bit := by
    rw [w64_of_lt (a := byte * 8) (by omega), w64_of_lt (by omega), mul_comm]
  have halign : (if !packed && decide (structAlign < if packed then 1 else f.align) then
      if packed then 1 else f.align else structAlign) =
      if packed then structAlign else max structAlign f.align := by
    cases packed with
    | true => rfl
    | false =>
      simp only [Bool.not_false, Bool.true_and, decide_eq_true_eq, Bool.false_eq_true, if_false]
      split <;> omega
  have hbytes := alignUp_le (8 * byte + bit) 8
  have hge := le_alignUp (n := 8 * byte + bit) (a := 8) (by decide)
  unfold layoutField exactField
  dsimp only
  rw [hfull, halign]
  cases hbits : f.isBitfield with
  | true =>
    obtain ⟨k, hk, hunit⟩ := hf.unit hbits
    have hlen := hf.len hbits
    have hfixed : f.fixedSize = 0 := by simp [fixedSize, hf.bits hbits]
    rw [if_pos rfl, bitfieldOffsets_eq hf hbits (by omega)]
    by_cases hfits : f.fits packed (8 * byte + bit)
    · rw [if_pos hfits]
      simp -implicitDefEqProofs only [Option.bind_eq_bind, Option.bind_some]
      rw [padField_fits hfits hbits (by omega) hprev]
      have hat : f.byteAt packed byte bit =
          max byte (f.unitByte packed (8 * byte + bit)) := by
        rw [byteAt, if_pos hbits, if_pos hfits]
      have hoff : (if f.byteAt packed byte bit > f.unitByte packed (8 * byte + bit) then
          sub64 (f.byteAt packed byte bit) (f.unitByte packed (8 * byte + bit)) else
          f.bitfieldUnitOff) = f.byteAt packed byte bit - f.unitByte packed (8 * byte + bit) := by
        split
        · exact sub64_of_le (by omega) (by omega)
        · rw [hf.offsets.2]
          omega
      have hw : w64 (8 * byte + bit - 8 * f.byteAt packed byte bit + f.bitfieldLen) =
          8 * byte + bit - 8 * f.byteAt packed byte bit + f.bitfieldLen := w64_of_lt (by omega)
      simp -implicitDefEqProofs only [Option.bind_some, placed, bitAfter, hbits, hfits,
        if_true, hfixed, add_zero, hoff, hw]
    · have hup := le_alignUp (n := alignUp (8 * byte + bit) 8 / 8) (hf.unitAlign_pos hbits packed)
      have hup' := alignUp_le (alignUp (8 * byte + bit) 8 / 8) (f.unitAlign packed)
      have hua : f.unitAlign packed ≤ f.bitfieldUnit := by
        have hpos := Nat.two_pow_pos k
        unfold unitAlign
        split <;> omega
      have hat : f.byteAt packed byte bit =
          alignUp (alignUp (8 * byte + bit) 8 / 8) (f.unitAlign packed) := by
        rw [byteAt, if_pos hbits, if_neg hfits]
      rw [if_neg hfits, ← hat]
      simp -implicitDefEqProofs only [Option.bind_eq_bind, Option.bind_some]
      rw [padField_behind (by omega) (by omega)]
      have hw : w64 (0 + f.bitfieldLen) = 0 + f.bitfieldLen := w64_of_lt (by omega)
      simp -implicitDefEqProofs only [Option.bind_some, placed, bitAfter, hbits, hfits, if_true,
        hfixed, add_zero, hw, gt_iff_lt, lt_irrefl, if_false, Bool.false_eq_true]
  | false =>
    have hup : (alignUp (8 * byte + bit) 8) / 8 + f.align + 1 < 2 ^ 64 := by omega
    have hup' := alignUp_le (alignUp (8 * byte + bit) 8 / 8) (f.fieldAlign packed)
    have halign' : f.fieldAlign packed ≤ f.align + 1 := by
      unfold fieldAlign
      split <;> omega
    have hat : f.byteAt packed byte bit =
        max byte (alignUp (alignUp (8 * byte + bit) 8 / 8) (f.fieldAlign packed)) := by
      rw [byteAt, if_neg (by simp [hbits])]
    rw [if_neg (by simp), roundup_eight (by omega)]
    simp -implicitDefEqProofs only [Option.bind_eq_bind, Option.bind_some]
    have hround := hf.roundup_fieldAlign packed hup
    rw [fieldAlign] at hround
    rw [hround]
    simp -implicitDefEqProofs only [Option.bind_some]
    rw [← fieldAlign, padField_eq (by omega) (.inl rfl), Nat.zero_sub]
    have hpad : alignUp (alignUp (8 * byte + bit) 8 / 8) (f.fieldAlign packed) - byte =
        f.byteAt packed byte bit - byte := by omega
    have hbyte : (if f.varlen then f.byteAt packed byte bit
        else w64 (f.byteAt packed byte bit + f.size)) =
        f.byteAt packed byte bit + f.fixedSize := by
      cases hvar : f.varlen with
      | true => simp [fixedSize, hvar]
      | false =>
        have hsize : f.fixedSize = f.size := by simp [fixedSize, hvar]
        rw [hsize] at hweight ⊢
        exact w64_of_lt (by omega)
    rw [hpad, ← hat]
    simp -implicitDefEqProofs only [Option.bind_some, placed, bitAfter, hbits,
      Bool.false_eq_true, if_false, hbyte]

/-- `finalizeStructFields` with unbounded counters. -/
def exactFinalize (alignAttr : ℕ) (varlen : Bool) (st : LayoutState) : List Field :=
  let pad := (st.bitOffset + 7) / 8
  let byteOffset := st.byteOffset + pad
  let structAlign := if alignAttr ≠ 0 then alignAttr else st.structAlign
  let fields := charge true pad st.newFields
  if !varlen && structAlign != 0 && byteOffset % structAlign != 0 then
    fields ++ [genPad (structAlign - byteOffset % structAlign)]
  else fields

theorem finalizeStructFields_eq {alignAttr : ℕ} {varlen : Bool}
    (hsmall : 8 * st.byteOffset + st.bitOffset + 8 < 2 ^ 64)
    (hlast : st.bitOffset ≠ 0 → st.newFields.getLast?.any isBitfield) :
    finalizeStructFields alignAttr varlen st = some (exactFinalize alignAttr varlen st) := by
  obtain ⟨fields, structAlign, byte, bit⟩ := st
  dsimp only at hsmall hlast
  unfold finalizeStructFields exactFinalize
  by_cases hzero : bit = 0
  · subst hzero
    simp only [ne_eq, not_true_eq_false, if_false, Option.bind_eq_bind, Option.bind_some, charge,
      zero_add, reduceDiv, if_true, add_zero]
    exact (apply_ite some _ _ _).symm
  · have hpad : alignUp bit 8 / 8 = (bit + 7) / 8 := by
      unfold alignUp
      omega
    have hne : (bit + 7) / 8 ≠ 0 := by omega
    have hw : w64 (byte + (bit + 7) / 8) = byte + (bit + 7) / 8 := w64_of_lt (by omega)
    dsimp only
    rw [if_pos hzero, roundup_eight (by omega)]
    simp -implicitDefEqProofs only [Option.bind_eq_bind, Option.bind_some, hlast hzero, if_true,
      hpad, hw, charge, if_neg hne]
    exact (apply_ite some _ _ _).symm

/-- The fields in turn, behind `prev`. -/
def exactLoop (packed : Bool) : Option Field → LayoutState → List Field → LayoutState
  | _, st, [] => st
  | prev, st, f :: rest => exactLoop packed (some f) (exactField packed prev st f) rest

/-- Bits are counted only behind a bitfield. -/
structure LayoutState.Ready (st : LayoutState) (prev : Option Field) : Prop where
  prev : st.bitOffset ≠ 0 → prev.any isBitfield
  last : st.bitOffset ≠ 0 → st.newFields.getLast?.any isBitfield

theorem Field.placed_isBitfield (packed : Bool) (f : Field) (byte bit : ℕ) :
    (f.placed packed byte bit).isBitfield = f.isBitfield := by
  unfold placed
  split
  · split <;> rfl
  · rfl

theorem exactField_ready (packed : Bool) (prev : Option Field) (st : LayoutState) (f : Field) :
    (exactField packed prev st f).Ready (some f) := by
  have hbits : (exactField packed prev st f).bitOffset ≠ 0 → f.isBitfield := by
    intro hne
    by_contra hnot
    exact hne (if_neg hnot)
  refine ⟨hbits, ?_⟩
  intro hne
  simp [exactField, placed_isBitfield, hbits hne]

theorem exactField_le (packed : Bool) (prev : Option Field) (st : LayoutState) (hf : f.Declared) :
    8 * (exactField packed prev st f).byteOffset + (exactField packed prev st f).bitOffset ≤
      8 * st.byteOffset + st.bitOffset + 8 * f.weight := by
  obtain ⟨fields, structAlign, byte, bit⟩ := st
  have hweight : f.weight = f.fixedSize + f.align + 2 * f.bitfieldUnit + 1 := rfl
  have hbytes := alignUp_lt (n := 8 * byte + bit) (a := 8) (by decide)
  unfold exactField bitAfter
  cases hbits : f.isBitfield with
  | true =>
    have hlen := hf.len hbits
    have hle := f.unitByte_le packed (8 * byte + bit)
    have hup := alignUp_lt (n := alignUp (8 * byte + bit) 8 / 8) (hf.unitAlign_pos hbits packed)
    have hua : f.unitAlign packed ≤ f.bitfieldUnit + 1 := by
      unfold unitAlign
      split <;> omega
    simp only [byteAt, hbits, if_true]
    split <;> omega
  | false =>
    have hup := alignUp_le (alignUp (8 * byte + bit) 8 / 8) (f.fieldAlign packed)
    have hup' : f.fieldAlign packed ≠ 0 → alignUp (alignUp (8 * byte + bit) 8 / 8)
        (f.fieldAlign packed) < alignUp (8 * byte + bit) 8 / 8 + f.fieldAlign packed := by
      intro hne
      exact alignUp_lt (pos_of_ne_zero hne)
    have halign : f.fieldAlign packed ≤ f.align + 1 := by
      unfold fieldAlign
      split <;> omega
    simp only [byteAt, hbits, Bool.false_eq_true, if_false]
    omega

def weights (fields : List Field) : ℕ :=
  (fields.map weight).sum

variable {t : StructType}

theorem layoutLoop_eq {i : ℕ} {overlay : ℕ}
    {rest : List Field} (hdecl : ∀ f ∈ rest, f.Declared) (hready : st.Ready prev)
    (hsmall : 8 * st.byteOffset + st.bitOffset + 8 * weights rest + 8 < 2 ^ 64)
    (hi : i + rest.length ≤ t.overlayField ∨ t.overlayField < i) :
    t.layoutLoop i prev overlay st rest =
      some (exactFinalize t.alignAttr t.varlen (exactLoop t.packed prev st rest), overlay) := by
  induction rest generalizing i prev st with
  | nil =>
    rw [layoutLoop, finalizeStructFields_eq (by simpa [weights] using hsmall) hready.last]
    rfl
  | cons f rest ih =>
    have hf := hdecl f mem_cons_self
    have hsum : weights (f :: rest) = f.weight + weights rest := by simp [weights]
    have hstep := exactField_le t.packed prev st hf
    rw [length_cons] at hi
    rw [layoutLoop, if_neg (by omega)]
    simp -implicitDefEqProofs only [Option.bind_eq_bind, Option.bind_some]
    rw [layoutField_eq hf (by omega) hready.prev]
    refine ih (fun g hg => hdecl g (mem_cons_of_mem _ hg))
      (exactField_ready t.packed prev st f) (by omega) (by omega)

theorem layoutLoop_overlay {i : ℕ} (overlay : ℕ) {first second : List Field}
    (hdecl : ∀ g ∈ first ++ f :: second, g.Declared) (hready : st.Ready prev)
    (hsmall : 8 * st.byteOffset + st.bitOffset + 8 * weights (first ++ f :: second) + 8 < 2 ^ 64)
    (hi : i + first.length = t.overlayField) :
    t.layoutLoop i prev overlay st (first ++ f :: second) =
      some (exactFinalize t.alignAttr t.varlen (exactLoop t.packed (first.getLast?.or prev)
          ⟨exactFinalize t.alignAttr t.varlen (exactLoop t.packed prev st first), 0, 0, 0⟩
          (f :: second)),
        (exactFinalize t.alignAttr t.varlen (exactLoop t.packed prev st first)).length) := by
  induction first generalizing i prev st with
  | nil =>
    have hf := hdecl f mem_cons_self
    have hsum : weights (f :: second) = f.weight + weights second := by simp [weights]
    rw [nil_append] at hsmall ⊢
    rw [layoutLoop, if_pos (by simpa using hi), finalizeStructFields_eq (by omega) hready.last]
    simp -implicitDefEqProofs only [Option.bind_eq_bind, Option.bind_some]
    rw [layoutField_eq hf (by dsimp only; omega) (by simp)]
    have hstep := exactField_le t.packed prev ⟨exactFinalize t.alignAttr t.varlen st, 0, 0, 0⟩ hf
    dsimp only at hstep
    refine layoutLoop_eq (fun g hg => hdecl g (mem_cons_of_mem _ hg))
      (exactField_ready t.packed prev _ f) (by omega) (by simp at hi; omega)
  | cons g first ih =>
    have hg := hdecl g mem_cons_self
    have hsum : weights (g :: first ++ f :: second) =
        g.weight + weights (first ++ f :: second) := by simp [weights]
    have hstep := exactField_le t.packed prev st hg
    rw [length_cons] at hi
    have hor : (g :: first).getLast?.or prev = first.getLast?.or (some g) := by
      rw [getLast?_cons]
      cases first.getLast? <;> rfl
    rw [cons_append, layoutLoop, if_neg (by omega), hor]
    simp -implicitDefEqProofs only [Option.bind_eq_bind, Option.bind_some]
    rw [layoutField_eq hg (by omega) hready.prev]
    exact ih (fun h hh => hdecl h (mem_cons_of_mem _ hh))
      (exactField_ready t.packed prev st g) (by omega) (by omega)

namespace StructType

/-- The fields in front of the overlay. -/
def exactFirst (t : StructType) : List Field :=
  exactFinalize t.alignAttr t.varlen
    (exactLoop t.packed none ⟨[], 0, 0, 0⟩ (t.fields.take t.overlayField))

/-- `layoutStructFields` with unbounded counters. -/
def exactFields (t : StructType) : List Field :=
  if t.fields.length ≤ t.overlayField then t.exactFirst
  else exactFinalize t.alignAttr t.varlen
    (exactLoop t.packed (t.fields.take t.overlayField).getLast? ⟨t.exactFirst, 0, 0, 0⟩
      (t.fields.drop t.overlayField))

def exactOverlay (t : StructType) : ℕ :=
  if t.fields.length ≤ t.overlayField then t.overlayField else t.exactFirst.length

end StructType

/-- The fields are as they are generated. Only the last field of a struct that is not packed can
have a variable length. -/
structure StructType.Declared (t : StructType) : Prop where
  fields : ∀ f ∈ t.fields, f.Declared
  varlen : t.packed = false → ∀ f ∈ t.fields.dropLast, f.varlen = false

/-- The fields are not so large that a counter could overflow. -/
def StructType.Small (t : StructType) : Prop :=
  weights t.fields + t.alignAttr < 2 ^ 61 - 1

/-- A small struct is laid out as with unbounded counters. -/
theorem layoutStructFields_eq (ht : t.Declared) (hsmall : t.Small) :
    t.layoutStructFields = some (t.exactFields, t.exactOverlay) := by
  unfold StructType.Small at hsmall
  have hready : LayoutState.Ready ⟨[], 0, 0, 0⟩ none := ⟨by simp, by simp⟩
  rw [exactFields, exactOverlay]
  by_cases hlen : t.fields.length ≤ t.overlayField
  · rw [if_pos hlen, if_pos hlen, exactFirst, take_of_length_le hlen]
    exact layoutLoop_eq ht.fields hready (by dsimp only; omega) (.inl (by omega))
  · obtain ⟨f, second, hdrop⟩ := exists_cons_of_ne_nil (l := t.fields.drop t.overlayField)
      (by simpa using hlen)
    have hsplit := take_append_drop t.overlayField t.fields
    rw [hdrop] at hsplit
    rw [if_neg hlen, if_neg hlen, hdrop]
    have hloop := layoutLoop_overlay (t := t) (i := 0) t.overlayField (hsplit.symm ▸ ht.fields)
      hready (by rw [hsplit]; dsimp only; omega) (by rw [length_take]; omega)
    rwa [hsplit, Option.or_none] at hloop

end Brf.Compiler
