import Brf.Verification.Compiler.Counters

/-! # Positions of fields

Where the fields of a struct are is read off the generated fields: the sizes in front, the offset
of the unit and the offset in the unit. The layout puts them where the sequential rule says. -/

namespace Brf.Compiler

open Brf.Lib List Compiler.Field

namespace Field

/-- The first bit of a field behind `n` bytes. -/
def begin (n : ℕ) (f : Field) : ℤ :=
  8 * ((n : ℤ) - f.bitfieldUnitOff) + f.bitfieldOff

def width (f : Field) : ℕ :=
  if f.isBitfield then f.bitfieldLen else 8 * f.size

end Field

/-- The bits of the fields that are not paddings, behind `n` bytes. -/
def ranges : ℕ → List Field → List (ℤ × ℤ)
  | _, [] => []
  | n, f :: rest =>
    if f.isPad then ranges (n + f.size) rest
    else (f.begin n, f.begin n + f.width) :: ranges (n + f.size) rest

def sizes (fields : List Field) : ℕ :=
  (fields.map size).sum

@[simp] theorem sizes_append (l l' : List Field) : sizes (l ++ l') = sizes l + sizes l' := by
  simp [sizes]

@[simp] theorem sizes_singleton (f : Field) : sizes [f] = f.size := by
  simp [sizes]

theorem ranges_append (n : ℕ) (l l' : List Field) :
    ranges n (l ++ l') = ranges n l ++ ranges (n + sizes l) l' := by
  induction l generalizing n with
  | nil => simp [ranges, sizes]
  | cons f l ih =>
    have hsum : sizes (f :: l) = f.size + sizes l := by simp [sizes]
    rw [cons_append, ranges, ranges, ih, Nat.add_assoc]
    split <;> rfl

theorem ranges_singleton (n : ℕ) {f : Field} (hf : f.isPad = false) :
    ranges n [f] = [(f.begin n, f.begin n + f.width)] := by
  simp [ranges, hf]

theorem ranges_pad (n size : ℕ) : ranges n [genPad size] = [] := rfl

theorem setBitfieldTypeSize_concat (v : ℕ) (init : List Field) {g : Field}
    (hg : g.isPad = false) : setBitfieldTypeSize v (init ++ [g]) = init ++ [{ g with size := v }] := by
  induction init with
  | nil => simp [setBitfieldTypeSize]
  | cons f init ih =>
    rw [cons_append, setBitfieldTypeSize, if_pos (by simp [hg]), ih]
    rfl

/-- The list ends with a bitfield that has no size yet. -/
def EndsOpen (fields : List Field) : Prop :=
  ∃ init g, fields = init ++ [g] ∧ g.isPad = false ∧ g.isBitfield ∧ g.size = 0

/-- The size of a bitfield does not matter for the position of its bits. -/
theorem charge_spec (bits : Bool) (pad : ℕ) (fields : List Field)
    (h : bits → pad ≠ 0 → EndsOpen fields) : sizes (charge bits pad fields) = sizes fields + pad ∧
    ranges 0 (charge bits pad fields) = ranges 0 fields := by
  unfold charge
  split
  · rename_i hzero
    exact ⟨by rw [hzero, Nat.add_zero], rfl⟩
  · rename_i hne
    split
    · rename_i hbits
      obtain ⟨init, g, rfl, hpad, hbit, hsize⟩ := h hbits hne
      rw [setBitfieldTypeSize_concat pad init hpad]
      refine ⟨by simp [hsize], ?_⟩
      have hwidth : width { g with size := pad } = g.width := by
        rw [width, width, if_pos hbit]
        exact if_pos hbit
      rw [ranges_append, ranges_append, ranges_singleton _ hpad,
        ranges_singleton (f := { g with size := pad }) _ hpad, hwidth]
      rfl
    · exact ⟨by simp [genPad], by simp [ranges_append, ranges_pad]⟩

namespace Field

/-- Where the field starts when the next free bit is `n`. -/
def start (packed : Bool) (n : ℕ) (f : Field) : ℕ :=
  if f.isBitfield then if f.fits packed n then n else alignUp n (8 * f.unitAlign packed)
  else alignUp n (8 * max 1 (f.fieldAlign packed))

theorem Declared.le_start {f : Field} (hf : f.Declared) (packed : Bool) (n : ℕ) :
    n ≤ f.start packed n := by
  unfold start
  split
  · rename_i hbits
    split
    · exact Nat.le_refl n
    · have hpos := hf.unitAlign_pos hbits packed
      exact le_alignUp (by omega)
  · exact le_alignUp (by omega)

end Field

/-- The layout of `done` so far. The offset that the layout counts leaves out the sizes of
variable length fields. -/
structure Placed (packed : Bool) (done : List Field) (st : LayoutState) : Prop where
  ranges : ranges 0 st.newFields = (place (start packed) width 0 done).map
    fun r => ((r.1 : ℤ), (r.2 : ℤ))
  total : 8 * sizes st.newFields + st.bitOffset =
    finish (start packed) width 0 done
  counted : st.byteOffset ≤ sizes st.newFields
  fixed : (∀ f ∈ done, f.varlen = false) → st.byteOffset = sizes st.newFields
  pending : st.bitOffset ≠ 0 ↔ done.getLast?.any isBitfield
  last : done.getLast?.any isBitfield → EndsOpen st.newFields
  covered : ∀ b : ℤ, 8 * sizes st.newFields ≤ b → b < 8 * sizes st.newFields + st.bitOffset →
    ∃ r ∈ Compiler.ranges 0 st.newFields, r.1 ≤ b ∧ b < r.2

/-- A field for which the layout follows the rule when the next free bit is `n`: in a packed
struct a bitfield that does not fit must start at a multiple of its unit, and a field without
alignment must not follow a bitfield. -/
def Field.Regular (packed : Bool) (n : ℕ) (prev : Option Field) (f : Field) : Prop :=
  (packed → f.isBitfield → f.fits true n ∨ 8 * f.bitfieldUnit ∣ alignUp n 8) ∧
  (packed = false → f.isBitfield = false → f.align = 0 → prev.any isBitfield = false)

theorem sub64_zero_mod {b m : ℕ} (hm : m ∣ 2 ^ 64) (hb : m ∣ b) : sub64 0 b % m = 0 := by
  refine Nat.mod_eq_zero_of_dvd ?_
  unfold sub64
  exact (Nat.dvd_mod_iff hm).mpr (Nat.dvd_sub hm hb)

theorem Placed.start (packed : Bool) : Placed packed [] ⟨[], 0, 0, 0⟩ where
  ranges := rfl
  total := rfl
  counted := Nat.le_refl _
  fixed := fun _ => rfl
  pending := by simp
  last := by simp
  covered := by
    intro b hlo hhi
    simp [sizes] at hlo hhi
    omega

section Step

variable {packed : Bool} {f : Field} {byte bit d : ℕ}

theorem Field.Declared.unit_dvd (hf : f.Declared) (hbits : f.isBitfield) :
    8 * f.bitfieldUnit ∣ 2 ^ 64 := by
  obtain ⟨k, hk, hunit⟩ := hf.unit hbits
  have hpow : 8 * f.bitfieldUnit = 2 ^ (3 + k) := by rw [hunit, Nat.pow_add]
  rw [hpow]
  exact Nat.pow_dvd_pow 2 (by omega)

theorem Field.fits_add (hd : packed = false → d = 0) (f : Field) (n : ℕ) :
    f.fits packed (n + 8 * d) = f.fits packed n := by
  cases packed with
  | false => rw [hd rfl, Nat.add_zero]
  | true =>
    simp [fits, unitAlign]

theorem Field.unitAlign_packed (f : Field) (h : packed) : f.unitAlign packed = 1 :=
  if_pos h

theorem Field.max_fieldAlign_packed (f : Field) (h : packed) : max 1 (f.fieldAlign packed) = 1 := by
  rw [fieldAlign, if_pos h]
  rfl

theorem Field.byteAt_fits (hbits : f.isBitfield) (hfits : f.fits packed (8 * byte + bit)) :
    f.byteAt packed byte bit = max byte (f.unitByte packed (8 * byte + bit)) ∧
    8 * f.byteAt packed byte bit ≤ 8 * byte + bit := by
  have hle := f.unitByte_le packed (8 * byte + bit)
  have hat : f.byteAt packed byte bit = max byte (f.unitByte packed (8 * byte + bit)) := by
    rw [byteAt, if_pos hbits, if_pos hfits]
  exact ⟨hat, by omega⟩

theorem Field.byteAt_skips (hf : f.Declared) (hbits : f.isBitfield)
    (hfits : ¬ f.fits packed (8 * byte + bit)) :
    8 * f.byteAt packed byte bit = alignUp (8 * byte + bit) (8 * f.unitAlign packed) := by
  rw [byteAt, if_pos hbits, if_neg hfits,
    alignUp_mul _ _ _ (by decide) (hf.unitAlign_pos hbits packed)]

theorem Field.byteAt_plain (byte : ℕ) (hbits : f.isBitfield = false)
    (hreg : packed = false → f.align = 0 → bit = 0) : 8 * f.byteAt packed byte bit =
    alignUp (8 * byte + bit) (8 * max 1 (f.fieldAlign packed)) := by
  rw [byteAt, if_neg (by simp [hbits])]
  rcases Nat.eq_zero_or_pos (f.fieldAlign packed) with hzero | hpos
  · have hnot : packed = false ∧ f.align = 0 := by
      cases packed with
      | true => cases hzero
      | false => exact ⟨rfl, hzero⟩
    rw [hzero, hreg hnot.1 hnot.2]
    simp [alignUp]
    omega
  · have hup := le_alignUp (n := alignUp (8 * byte + bit) 8 / 8) hpos
    have hup' := le_alignUp (n := 8 * byte + bit) (a := 8) (by decide)
    rw [max_eq_right (by omega), max_eq_right (a := 1) (by omega),
      alignUp_mul _ _ _ (by decide) hpos]

theorem Field.placed_fits (hbits : f.isBitfield) (hfits : f.fits packed (8 * byte + bit)) :
    (f.placed packed byte bit).begin (f.byteAt packed byte bit + d) =
    ((8 * byte + bit + 8 * d : ℕ) : ℤ) := by
  obtain ⟨hat, -⟩ := byteAt_fits hbits hfits
  have hmod : 8 * f.unitByte packed (8 * byte + bit) +
      (8 * byte + bit) % (8 * f.unitAlign packed) = 8 * byte + bit := by
    have h := Nat.div_add_mod (8 * byte + bit) (8 * f.unitAlign packed)
    rw [Nat.mul_assoc, Nat.mul_comm (f.unitAlign packed)] at h
    exact h
  rw [placed, if_pos hbits, if_pos hfits]
  unfold begin
  dsimp only
  omega

theorem alignUp_shift {a : ℕ} (hd : packed = false → d = 0) (ha : packed → a = 1) (n : ℕ) :
    alignUp (n + 8 * d) (8 * a) = alignUp n (8 * a) + 8 * d := by
  cases packed with
  | true =>
    rw [ha rfl]
    exact alignUp_add (by decide) d
  | false => rw [hd rfl, Nat.add_zero, Nat.add_zero]

theorem Field.placed_skips (hf : f.Declared) (hbits : f.isBitfield)
    (hfits : ¬ f.fits packed (8 * byte + bit))
    (hreg : packed → 8 * f.bitfieldUnit ∣ alignUp (8 * byte + bit) 8) :
    (f.placed packed byte bit).begin (f.byteAt packed byte bit + d) =
      ((8 * (f.byteAt packed byte bit + d) : ℕ) : ℤ) := by
  have hoff : (f.placed packed byte bit).bitfieldOff = 0 := by
    rw [placed, if_pos hbits, if_neg hfits]
    refine sub64_zero_mod (hf.unit_dvd hbits) ?_
    rw [byteAt_skips hf hbits hfits]
    cases packed with
    | true => exact hreg rfl
    | false => exact dvd_alignUp _ _
  have hunit : (f.placed packed byte bit).bitfieldUnitOff = 0 := by
    rw [placed, if_pos hbits, if_neg hfits]
    exact hf.offsets.2
  rw [begin, hunit]
  omega

theorem Field.placed_plain (hf : f.Declared) (hbits : f.isBitfield = false) :
    (f.placed packed byte bit).begin (f.byteAt packed byte bit + d) =
      ((8 * (f.byteAt packed byte bit + d) : ℕ) : ℤ) := by
  have hplaced : f.placed packed byte bit = f := by
    rw [placed, if_neg (by simp [hbits])]
  rw [hplaced, begin, hf.offsets.1, hf.offsets.2]
  omega

theorem Field.placed_size (packed : Bool) (f : Field) (byte bit : ℕ) :
    (f.placed packed byte bit).size = f.size ∧ (f.placed packed byte bit).isPad = f.isPad ∧
      (f.placed packed byte bit).width = f.width := by
  unfold placed
  split
  · have hwidth : ∀ off unitOff, width
        { f with bitfieldOff := off, bitfieldUnitOff := unitOff } = f.width := fun _ _ => rfl
    split
    · exact ⟨rfl, rfl, hwidth _ _⟩
    · exact ⟨rfl, rfl, hwidth _ _⟩
  · exact ⟨rfl, rfl, rfl⟩

/-- The counters behind one field: it starts where the rule says, at the bit that is free next or
at the start of a byte. -/
theorem Field.byteAt_start (byte : ℕ) (hf : f.Declared) (hd : packed = false → d = 0)
    (halign : packed = false → f.isBitfield = false → f.align = 0 → bit = 0) :
    byte ≤ f.byteAt packed byte bit ∧
      8 * (f.byteAt packed byte bit + d + f.size) + f.bitAfter packed byte bit =
        f.start packed (8 * byte + bit + 8 * d) + f.width ∧
      (f.start packed (8 * byte + bit + 8 * d) = 8 * byte + bit + 8 * d ∧
          8 * f.byteAt packed byte bit ≤ 8 * byte + bit ∨
        f.start packed (8 * byte + bit + 8 * d) = 8 * (f.byteAt packed byte bit + d)) := by
  cases hbits : f.isBitfield with
  | true =>
    have hsize := (hf.bits hbits).1
    have hwidth : f.width = f.bitfieldLen := if_pos hbits
    by_cases hfits : f.fits packed (8 * byte + bit)
    · obtain ⟨hat, hle⟩ := byteAt_fits hbits hfits
      have hstart : f.start packed (8 * byte + bit + 8 * d) = 8 * byte + bit + 8 * d := by
        rw [start, if_pos hbits, if_pos (by rw [fits_add hd]; exact hfits)]
      have hafter : f.bitAfter packed byte bit =
          8 * byte + bit - 8 * f.byteAt packed byte bit + f.bitfieldLen := by
        rw [bitAfter, if_pos hbits, if_pos hfits]
      exact ⟨by omega, by omega, .inl ⟨hstart, hle⟩⟩
    · have hat := byteAt_skips hf hbits hfits
      have hpos := hf.unitAlign_pos hbits packed
      have hle := le_alignUp (n := 8 * byte + bit) (a := 8 * f.unitAlign packed) (by omega)
      have hstart : f.start packed (8 * byte + bit + 8 * d) =
          8 * (f.byteAt packed byte bit + d) := by
        rw [start, if_pos hbits, if_neg (by rw [fits_add hd]; exact hfits),
          alignUp_shift hd f.unitAlign_packed, Nat.mul_add, hat]
      have hafter : f.bitAfter packed byte bit = 0 + f.bitfieldLen := by
        rw [bitAfter, if_pos hbits, if_neg hfits]
      exact ⟨by omega, by omega, .inr hstart⟩
  | false =>
    have hat := byteAt_plain byte hbits fun hpacked => halign hpacked hbits
    have hle := le_alignUp (n := 8 * byte + bit) (a := 8 * max 1 (f.fieldAlign packed)) (by omega)
    have hstart : f.start packed (8 * byte + bit + 8 * d) =
        8 * (f.byteAt packed byte bit + d) := by
      rw [start, if_neg (by simp [hbits]), alignUp_shift hd f.max_fieldAlign_packed,
        Nat.mul_add, hat]
    have hwidth : f.width = 8 * f.size := if_neg (by simp [hbits])
    have hafter : f.bitAfter packed byte bit = 0 := if_neg (by simp [hbits])
    exact ⟨by omega, by omega, .inr hstart⟩

theorem Field.placed_start (hf : f.Declared) (hd : packed = false → d = 0)
    (hreg : packed → f.isBitfield →
      f.fits true (8 * byte + bit) ∨ 8 * f.bitfieldUnit ∣ alignUp (8 * byte + bit) 8)
    (halign : packed = false → f.isBitfield = false → f.align = 0 → bit = 0) :
    (f.placed packed byte bit).begin (f.byteAt packed byte bit + d) =
      ((f.start packed (8 * byte + bit + 8 * d) : ℕ) : ℤ) := by
  cases hbits : f.isBitfield with
  | true =>
    by_cases hfits : f.fits packed (8 * byte + bit)
    · rw [placed_fits hbits hfits, start, if_pos hbits, if_pos (by rw [fits_add hd]; exact hfits)]
    · rw [placed_skips hf hbits hfits, start, if_pos hbits,
        if_neg (by rw [fits_add hd]; exact hfits), alignUp_shift hd f.unitAlign_packed,
        Nat.mul_add, byteAt_skips hf hbits hfits]
      intro hpacked
      subst hpacked
      exact (hreg rfl hbits).resolve_left hfits
  | false =>
    rw [placed_plain hf hbits, start, if_neg (by simp [hbits]),
      alignUp_shift hd f.max_fieldAlign_packed, Nat.mul_add,
      byteAt_plain byte hbits fun hpacked => halign hpacked hbits]

theorem Placed.step {done : List Field} {st : LayoutState} (h : Placed packed done st)
    (hf : f.Declared) (hreg : f.Regular packed (8 * st.byteOffset + st.bitOffset) done.getLast?)
    (hvar : packed = false → ∀ g ∈ done, g.varlen = false) :
    Placed packed (done ++ [f]) (exactField packed done.getLast? st f) := by
  obtain ⟨d, hsum⟩ := Nat.exists_eq_add_of_le h.counted
  have hd : packed = false → d = 0 := by
    intro hpacked
    have hfixed := h.fixed (hvar hpacked)
    omega
  have halign : packed = false → f.isBitfield = false → f.align = 0 → st.bitOffset = 0 := by
    intro hpacked hbits hzero
    by_contra hne
    exact absurd (h.pending.mp hne) (by simp [hreg.2 hpacked hbits hzero])
  have hbegin := placed_start hf hd hreg.1 halign
  obtain ⟨hbyte, hend, hcover⟩ := byteAt_start st.byteOffset hf hd halign
  obtain ⟨hsize, hpad, hwidth⟩ := f.placed_size packed st.byteOffset st.bitOffset
  have hfixed : f.fixedSize ≤ f.size := by
    unfold fixedSize
    split <;> omega
  have hnext : 8 * st.byteOffset + st.bitOffset + 8 * d =
      finish (Field.start packed) Field.width 0 done := by
    rw [← h.total]
    omega
  obtain ⟨hcharged, hkept⟩ := charge_spec (done.getLast?.any isBitfield)
    (f.byteAt packed st.byteOffset st.bitOffset - st.byteOffset) st.newFields
    fun hbits _ => h.last hbits
  have hacc : sizes (charge (done.getLast?.any isBitfield)
      (f.byteAt packed st.byteOffset st.bitOffset - st.byteOffset) st.newFields) =
      f.byteAt packed st.byteOffset st.bitOffset + d := by omega
  have hranges : Compiler.ranges 0 (exactField packed done.getLast? st f).newFields =
      Compiler.ranges 0 st.newFields ++
        [((f.start packed (8 * st.byteOffset + st.bitOffset + 8 * d) : ℤ),
          (f.start packed (8 * st.byteOffset + st.bitOffset + 8 * d) : ℤ) + f.width)] := by
    rw [exactField, ranges_append, hkept, Nat.zero_add, hacc,
      ranges_singleton _ (hpad.trans hf.isPad), hbegin, hwidth]
  have hsizes : sizes (exactField packed done.getLast? st f).newFields =
      f.byteAt packed st.byteOffset st.bitOffset + d + f.size := by
    rw [exactField, sizes_append, sizes_singleton, hsize, hacc]
  have hbit : (exactField packed done.getLast? st f).bitOffset =
      f.bitAfter packed st.byteOffset st.bitOffset := rfl
  refine
    { ranges := ?_
      total := ?_
      counted := ?_
      fixed := ?_
      pending := ?_
      last := ?_
      covered := ?_ }
  · rw [hranges, place_concat, map_append, h.ranges, ← hnext]
    simp
  · rw [finish_concat, ← hnext, hsizes, hbit]
    exact hend
  · change f.byteAt packed st.byteOffset st.bitOffset + f.fixedSize ≤ _
    omega
  · intro hall
    have hf' : f.fixedSize = f.size := by
      simp [fixedSize, hall f (mem_append_right _ (mem_singleton_self f))]
    have hzero := h.fixed fun g hg => hall g (mem_append_left _ hg)
    change f.byteAt packed st.byteOffset st.bitOffset + f.fixedSize = _
    omega
  · rw [getLast?_concat, hbit, Option.any_some, bitAfter]
    split
    · rename_i hbits
      have hlen : f.bitfieldLen ≠ 0 := by simpa [isBitfield] using hbits
      simp only [hbits, iff_true]
      omega
    · rename_i hbits
      simp [hbits]
  · intro hbits
    rw [getLast?_concat, Option.any_some] at hbits
    refine ⟨_, _, rfl, hpad.trans hf.isPad, ?_, ?_⟩
    · rw [placed_isBitfield]
      exact hbits
    · rw [hsize]
      exact (hf.bits hbits).1
  · intro b hlo hhi
    rw [hranges]
    have hbound : b < (f.start packed (8 * st.byteOffset + st.bitOffset + 8 * d) : ℤ) + f.width := by
      omega
    by_cases hnew : (f.start packed (8 * st.byteOffset + st.bitOffset + 8 * d) : ℤ) ≤ b
    · exact ⟨_, mem_append_right _ (mem_singleton_self _), hnew, hbound⟩
    · rcases hcover with ⟨hstart, hle⟩ | hstart
      · obtain ⟨r, hr, hin⟩ := h.covered b (by omega) (by omega)
        exact ⟨r, mem_append_left _ hr, hin⟩
      · omega

end Step

/-- The bits that the layout counts. -/
def Field.fixedWidth (f : Field) : ℕ :=
  if f.isBitfield then f.bitfieldLen else 8 * f.fixedSize

/-- In a packed struct, behind `n` bits, each bitfield that does not fit into its unit starts at a
multiple of the unit. -/
def UnitsAligned : ℕ → List Field → Prop
  | _, [] => True
  | n, f :: rest =>
    (f.isBitfield → f.fits true n ∨ 8 * f.bitfieldUnit ∣ alignUp n 8) ∧
      UnitsAligned (f.start true n + f.fixedWidth) rest

/-- No field without alignment follows a bitfield directly. -/
def AlignedBehindBits : Option Field → List Field → Prop
  | _, [] => True
  | prev, f :: rest =>
    (prev.any isBitfield → f.isBitfield = false → f.align ≠ 0) ∧
      AlignedBehindBits (some f) rest

section Run

variable {packed : Bool} {done : List Field} {st : LayoutState} {f : Field}

theorem exactField_counters (packed : Bool) (prev : Option Field) (hf : f.Declared)
    (halign : packed = false → f.isBitfield = false → f.align = 0 → st.bitOffset = 0) :
    8 * (exactField packed prev st f).byteOffset + (exactField packed prev st f).bitOffset =
      f.start packed (8 * st.byteOffset + st.bitOffset) + f.fixedWidth := by
  obtain ⟨-, hend, -⟩ := byteAt_start (d := 0) st.byteOffset hf (fun _ => rfl) halign
  simp only [Nat.mul_zero, Nat.add_zero] at hend
  change 8 * (f.byteAt packed st.byteOffset st.bitOffset + f.fixedSize) +
    f.bitAfter packed st.byteOffset st.bitOffset = _
  cases hbits : f.isBitfield with
  | true =>
    have hsize := (hf.bits hbits).1
    have hfixed : f.fixedSize = 0 := by simp [fixedSize, hf.bits hbits]
    have hwidth : f.width = f.fixedWidth := by
      rw [width, fixedWidth, if_pos hbits, if_pos hbits]
    omega
  | false =>
    have hwidth : f.width = 8 * f.size := if_neg (by simp [hbits])
    have hwidth' : f.fixedWidth = 8 * f.fixedSize := if_neg (by simp [hbits])
    omega

theorem Placed.bitOffset_eq_zero (h : Placed packed done st)
    (halign : packed = false → done.getLast?.any isBitfield → f.isBitfield = false → f.align ≠ 0) :
    packed = false → f.isBitfield = false → f.align = 0 → st.bitOffset = 0 := by
  intro hpacked hbits hzero
  by_contra hne
  exact halign hpacked (h.pending.mp hne) hbits hzero

theorem Placed.run {rest : List Field} (h : Placed packed done st) (hdecl : ∀ f ∈ rest, f.Declared)
    (hunits : packed → UnitsAligned (8 * st.byteOffset + st.bitOffset) rest)
    (halign : packed = false → AlignedBehindBits done.getLast? rest)
    (hvar : packed = false → ∀ f ∈ (done ++ rest).dropLast, f.varlen = false) :
    Placed packed (done ++ rest) (exactLoop packed done.getLast? st rest) := by
  induction rest generalizing done st with
  | nil => simpa [exactLoop] using h
  | cons f rest ih =>
    have hf := hdecl f mem_cons_self
    have hzero := h.bitOffset_eq_zero fun hpacked => (halign hpacked).1
    have hdone : packed = false → ∀ g ∈ done, g.varlen = false := by
      intro hpacked g hg
      refine hvar hpacked g ?_
      rw [dropLast_append_of_ne_nil (by simp)]
      exact mem_append_left _ hg
    have hreg : f.Regular packed (8 * st.byteOffset + st.bitOffset) done.getLast? := by
      refine ⟨fun hpacked => (hunits hpacked).1, ?_⟩
      intro hpacked hbits hnone
      by_contra hprev
      exact (halign hpacked).1 (by simpa using hprev) hbits hnone
    have hstep := h.step hf hreg hdone
    have hlast : (done ++ [f]).getLast? = some f := getLast?_concat
    rw [exactLoop, ← hlast, append_cons]
    refine ih hstep (fun g hg => hdecl g (mem_cons_of_mem _ hg)) ?_ ?_ ?_
    · intro hpacked
      rw [exactField_counters packed _ hf hzero, hpacked]
      exact (hunits hpacked).2
    · intro hpacked
      rw [hlast]
      exact (halign hpacked).2
    · rwa [← append_cons]

/-- The end of the struct: the bits of the last bitfields get their bytes, and the struct is padded
to its alignment. -/
theorem exactFinalize_spec (alignAttr : ℕ) (varlen : Bool)
    (hlast : st.bitOffset ≠ 0 → EndsOpen st.newFields) :
    ranges 0 (exactFinalize alignAttr varlen st) = ranges 0 st.newFields ∧
      ∃ pad ≤ max alignAttr st.structAlign,
        sizes (exactFinalize alignAttr varlen st) =
          sizes st.newFields + (st.bitOffset + 7) / 8 + pad ∧
        (varlen = false → (if alignAttr ≠ 0 then alignAttr else st.structAlign) ≠ 0 →
          (if alignAttr ≠ 0 then alignAttr else st.structAlign) ∣
            st.byteOffset + (st.bitOffset + 7) / 8 + pad) := by
  obtain ⟨hsizes, hranges⟩ := charge_spec true ((st.bitOffset + 7) / 8) st.newFields (by
      intro _ hne
      exact hlast (by omega))
  have hle : (if alignAttr ≠ 0 then alignAttr else st.structAlign) ≤
      max alignAttr st.structAlign := by
    split <;> omega
  unfold exactFinalize
  dsimp only
  generalize (if alignAttr ≠ 0 then alignAttr else st.structAlign) = align at hle ⊢
  generalize st.byteOffset + (st.bitOffset + 7) / 8 = bytes
  split
  · rename_i hpad
    simp only [Bool.and_eq_true, Bool.not_eq_true', bne_iff_ne, ne_eq] at hpad
    have hlt := Nat.mod_lt bytes (Nat.pos_of_ne_zero hpad.1.2)
    refine ⟨by rw [ranges_append, ranges_pad, append_nil, hranges],
      align - bytes % align, by omega, by simp [hsizes, genPad], ?_⟩
    intro _ _
    have hsum : bytes + (align - bytes % align) = bytes / align * align + align := by
      have h := Nat.div_add_mod bytes align
      rw [Nat.mul_comm] at h
      omega
    rw [hsum]
    exact Nat.dvd_add (Nat.dvd_mul_left _ _) (Nat.dvd_refl _)
  · rename_i hpad
    refine ⟨hranges, 0, Nat.zero_le _, by rw [hsizes]; rfl, ?_⟩
    intro hvar hne
    simp only [hvar, Bool.not_false, Bool.true_and, Bool.and_eq_true, bne_iff_ne, ne_eq, hne,
      not_false_eq_true, true_and, not_not] at hpad
    exact Nat.dvd_of_mod_eq_zero hpad

end Run

end Brf.Compiler
