import Brf.Verification.Compiler.Positions

/-! # Bitfields and their units

When every bitfield stays inside its unit and no two fields share a bit. In a packed struct a
bitfield that does not fit behind the one before starts at the next byte, but its offset is computed
as if its unit were aligned. -/

namespace Brf.Compiler

open Brf.Lib List StructType Nat

/-- The bitfield is inside its unit. -/
def Field.InUnit (f : Field) : Prop :=
  f.isBitfield → f.bitfieldOff + f.bitfieldLen ≤ 8 * f.bitfieldUnit

theorem inUnit_setBitfieldTypeSize (v : ℕ) (fields : List Field) :
    (∀ f ∈ setBitfieldTypeSize v fields, f.InUnit) ↔ ∀ f ∈ fields, f.InUnit := by
  induction fields with
  | nil => rfl
  | cons f fields ih =>
    rw [setBitfieldTypeSize]
    split
    · rw [forall_mem_cons, forall_mem_cons, ih]
    · rw [forall_mem_cons, forall_mem_cons]
      rfl

theorem inUnit_genPad (size : ℕ) : (genPad size).InUnit := nofun

theorem inUnit_charge (bits : Bool) (pad : ℕ) (fields : List Field) :
    (∀ f ∈ charge bits pad fields, f.InUnit) ↔ ∀ f ∈ fields, f.InUnit := by
  unfold charge
  split
  · rfl
  · split
    · exact inUnit_setBitfieldTypeSize pad fields
    · rw [forall_mem_append, forall_mem_singleton]
      exact and_iff_left (inUnit_genPad pad)

theorem inUnit_exactFinalize (alignAttr : ℕ) (varlen : Bool) (st : LayoutState) :
    (∀ f ∈ exactFinalize alignAttr varlen st, f.InUnit) ↔ ∀ f ∈ st.newFields, f.InUnit := by
  unfold exactFinalize
  dsimp only
  generalize (if alignAttr ≠ 0 then alignAttr else st.structAlign) = align
  split
  · rw [forall_mem_append, forall_mem_singleton, inUnit_charge]
    exact and_iff_left (inUnit_genPad _)
  · exact inUnit_charge _ _ _

theorem inUnit_exactField (packed : Bool) (prev : Option Field) (st : LayoutState) (f : Field) :
    (∀ g ∈ (exactField packed prev st f).newFields, g.InUnit) ↔
      (∀ g ∈ st.newFields, g.InUnit) ∧ (f.placed packed st.byteOffset st.bitOffset).InUnit := by
  rw [exactField, forall_mem_append, forall_mem_singleton, inUnit_charge]

section Units

variable {f : Field} {byte bit : ℕ}

theorem inUnit_placed_unpacked (hf : f.Declared) : (f.placed false byte bit).InUnit := by
  intro hbits
  rw [Field.placed_isBitfield] at hbits
  have hlen := hf.len hbits
  rw [Field.placed, if_pos hbits]
  split
  · rename_i hfits
    simpa [Field.fits] using hfits
  · rename_i hfits
    have hzero : sub64 0 (8 * f.byteAt false byte bit) % (8 * f.bitfieldUnit) = 0 := by
      refine sub64_zero_mod (hf.unit_dvd hbits) ?_
      rw [Field.byteAt_skips hf hbits hfits]
      exact dvd_alignUp _ _
    change sub64 0 (8 * f.byteAt false byte bit) % (8 * f.bitfieldUnit) + f.bitfieldLen ≤
      8 * f.bitfieldUnit
    omega

/-- The offset of a bitfield that starts at a byte which is not a multiple of the unit is at least
eight, too much for one that did not fit. -/
theorem skipped_offset {k m : ℕ} (hk : k ≤ 3) (hm : 8 * m < 2 ^ 64) (hdvd : ¬ 8 * 2 ^ k ∣ 8 * m) :
    8 ≤ sub64 0 (8 * m) % (8 * 2 ^ k) := by
  have hcases : k = 0 ∨ k = 1 ∨ k = 2 ∨ k = 3 := by omega
  unfold sub64
  rcases hcases with rfl | rfl | rfl | rfl <;> simp only [reducePow] at hdvd ⊢ <;> omega

theorem inUnit_placed_packed (hf : f.Declared)
    (hsmall : 8 * byte + bit + 8 * f.weight + 8 < 2 ^ 64) :
    (f.placed true byte bit).InUnit ↔ (f.isBitfield →
      f.fits true (8 * byte + bit) ∨ 8 * f.bitfieldUnit ∣ alignUp (8 * byte + bit) 8) := by
  unfold Field.InUnit
  rw [Field.placed_isBitfield]
  refine forall_congr' fun hbits => ?_
  have hlen := hf.len hbits
  rw [Field.placed, if_pos hbits]
  by_cases hfits : f.fits true (8 * byte + bit)
  · simp only [hfits, true_or, iff_true]
    simpa [Field.fits] using hfits
  · have hat : 8 * f.byteAt true byte bit = alignUp (8 * byte + bit) 8 :=
      Field.byteAt_skips hf hbits hfits
    have hup := alignUp_le (8 * byte + bit) 8
    have hwide : 8 * f.bitfieldUnit < (8 * byte + bit) % 8 + f.bitfieldLen := by
      simpa [Field.fits, Field.unitAlign] using hfits
    rw [if_neg hfits, ← hat]
    simp only [hfits, false_or, Bool.false_eq_true]
    obtain ⟨k, hk, hunit⟩ := hf.unit hbits
    have hweight : f.weight = f.fixedSize + f.align + 2 * f.bitfieldUnit + 1 := rfl
    constructor
    · intro hin
      by_contra hdvd
      have hoff := skipped_offset (m := f.byteAt true byte bit) hk (by omega)
        (by rw [← hunit]; exact hdvd)
      rw [← hunit] at hoff
      omega
    · intro hdvd
      have hzero := sub64_zero_mod (hf.unit_dvd hbits) hdvd
      omega

end Units

variable {prev : Option Field} {st : LayoutState} {rest : List Field}

/-- All bitfields of a packed struct are inside their units if and only if those that do not fit
start at multiples of the unit. -/
theorem inUnit_exactLoop_packed (hdecl : ∀ f ∈ rest, f.Declared)
    (hsmall : 8 * st.byteOffset + st.bitOffset + 8 * weights rest + 8 < 2 ^ 64) :
    (∀ f ∈ (exactLoop true prev st rest).newFields, f.InUnit) ↔
      (∀ f ∈ st.newFields, f.InUnit) ∧ UnitsAligned (8 * st.byteOffset + st.bitOffset) rest := by
  induction rest generalizing prev st with
  | nil => simp [exactLoop, UnitsAligned]
  | cons f rest ih =>
    have hf := hdecl f mem_cons_self
    have hsum : weights (f :: rest) = f.weight + weights rest := by simp [weights]
    have hstep := exactField_le true prev st hf
    rw [exactLoop, ih (fun g hg => hdecl g (mem_cons_of_mem _ hg)) (by omega),
      inUnit_exactField, inUnit_placed_packed hf (by omega),
      exactField_counters true prev hf (by simp), UnitsAligned, and_assoc]

theorem inUnit_exactLoop_unpacked
    (hdecl : ∀ f ∈ rest, f.Declared) (h : ∀ f ∈ st.newFields, f.InUnit) :
    ∀ f ∈ (exactLoop false prev st rest).newFields, f.InUnit := by
  induction rest generalizing prev st with
  | nil => exact h
  | cons f rest ih =>
    refine ih (fun g hg => hdecl g (mem_cons_of_mem _ hg)) ?_
    rw [inUnit_exactField]
    exact ⟨h, inUnit_placed_unpacked (hdecl f mem_cons_self)⟩

section Struct

variable {t : StructType}

theorem weights_append (l l' : List Field) : weights (l ++ l') = weights l + weights l' := by
  simp [weights]

theorem inUnit_exactFirst (ht : t.Declared) (hsmall : t.Small) : (∀ f ∈ t.exactFirst, f.InUnit) ↔
    (t.packed → UnitsAligned 0 (t.fields.take t.overlayField)) := by
  have hsum := weights_append (t.fields.take t.overlayField) (t.fields.drop t.overlayField)
  rw [take_append_drop] at hsum
  unfold StructType.Small at hsmall
  have hdecl : ∀ f ∈ t.fields.take t.overlayField, f.Declared := by
    intro f hf
    exact ht.fields f (mem_of_mem_take hf)
  rw [exactFirst, inUnit_exactFinalize]
  cases hpacked : t.packed with
  | true =>
    rw [inUnit_exactLoop_packed hdecl (by dsimp only; omega)]
    simp
  | false => simpa using inUnit_exactLoop_unpacked hdecl (by simp)

theorem inUnit_exactFields (ht : t.Declared) (hsmall : t.Small) :
    (∀ f ∈ t.exactFields, f.InUnit) ↔
      (t.packed → UnitsAligned 0 (t.fields.take t.overlayField) ∧
        UnitsAligned 0 (t.fields.drop t.overlayField)) := by
  have hfirst := inUnit_exactFirst ht hsmall
  unfold exactFields
  split
  · rename_i hlen
    rw [hfirst, drop_eq_nil_of_le hlen]
    simp [UnitsAligned]
  · have hsum := weights_append (t.fields.take t.overlayField) (t.fields.drop t.overlayField)
    rw [take_append_drop] at hsum
    unfold StructType.Small at hsmall
    have hdecl : ∀ f ∈ t.fields.drop t.overlayField, f.Declared := by
      intro f hf
      exact ht.fields f (mem_of_mem_drop hf)
    rw [inUnit_exactFinalize]
    cases hpacked : t.packed with
    | true =>
      rw [inUnit_exactLoop_packed hdecl (by dsimp only; omega), hfirst]
      simp [hpacked]
    | false =>
      simp only [hpacked, Bool.false_eq_true, false_imp_iff, iff_true] at hfirst ⊢
      exact inUnit_exactLoop_unpacked hdecl hfirst

theorem exactFields_of_no_overlay (h : t.overlayField = 0) : t.exactFields =
    exactFinalize t.alignAttr t.varlen (exactLoop t.packed none ⟨[], 0, 0, 0⟩ t.fields) := by
  have hfirst : t.exactFirst = [] := by
    simp [exactFirst, h, exactLoop, exactFinalize, charge]
  rw [exactFields, hfirst, h]
  split
  · rename_i hlen
    rw [length_eq_zero_iff.mp (le_zero.mp hlen)]
    simp [exactLoop, exactFinalize, charge]
  · rfl

end Struct

def Disjoint (r s : ℤ × ℤ) : Prop :=
  ∀ b, ¬ ((r.1 ≤ b ∧ b < r.2) ∧ s.1 ≤ b ∧ b < s.2)

/-- `base` is not changed any more. -/
def Extends (base : List Field) (prev : Option Field) (st : LayoutState) : Prop :=
  ∃ ext, st.newFields = base ++ ext ∧
    (prev.any Field.isBitfield → ∃ init g, ext = init ++ [g] ∧ g.isPad = false)

theorem charge_extends (base : List Field) {ext : List Field} (bits : Bool) (pad : ℕ)
    (h : bits → pad ≠ 0 → ∃ init g, ext = init ++ [g] ∧ g.isPad = false) :
    ∃ ext', charge bits pad (base ++ ext) = base ++ ext' := by
  unfold charge
  split
  · exact ⟨ext, rfl⟩
  · rename_i hne
    split
    · rename_i hbits
      obtain ⟨init, g, rfl, hpad⟩ := h hbits hne
      rw [← append_assoc, setBitfieldTypeSize_concat pad _ hpad, append_assoc]
      exact ⟨_, rfl⟩
    · rw [append_assoc]
      exact ⟨_, rfl⟩

variable {base : List Field}

theorem Extends.step (h : Extends base prev st) (packed : Bool) {f : Field}
    (hf : f.isPad = false) : Extends base (some f) (exactField packed prev st f) := by
  obtain ⟨ext, hext, hlast⟩ := h
  obtain ⟨ext', hcharge⟩ := charge_extends base (prev.any Field.isBitfield)
    (f.byteAt packed st.byteOffset st.bitOffset - st.byteOffset) fun hbits _ => hlast hbits
  refine ⟨ext' ++ [f.placed packed st.byteOffset st.bitOffset], ?_, ?_⟩
  · rw [exactField, hext, hcharge, append_assoc]
  · intro _
    exact ⟨ext', _, rfl, (f.placed_size packed _ _).2.1.trans hf⟩

theorem Extends.run (h : Extends base prev st) (hready : st.Ready prev)
    (packed : Bool) (hrest : ∀ f ∈ rest, f.isPad = false) (alignAttr : ℕ) (varlen : Bool) :
    ∃ tail, exactFinalize alignAttr varlen (exactLoop packed prev st rest) = base ++ tail := by
  induction rest generalizing prev st with
  | nil =>
    obtain ⟨ext, hext, hlast⟩ := h
    obtain ⟨ext', hcharge⟩ := charge_extends base true ((st.bitOffset + 7) / 8)
      fun _ hne => hlast (hready.prev (by omega))
    rw [exactLoop, exactFinalize, hext, hcharge]
    generalize (if alignAttr ≠ 0 then alignAttr else st.structAlign) = align
    split
    · exact ⟨ext' ++ [_], append_assoc _ _ _⟩
    · exact ⟨ext', rfl⟩
  | cons f rest ih =>
    exact ih (h.step packed (hrest f mem_cons_self)) (exactField_ready packed prev st f)
      fun g hg => hrest g (mem_cons_of_mem _ hg)

variable {fields : List Field} {done : List Field} {alignAttr : ℕ} {varlen : Bool}

theorem overlap_of_zero_align {f : Field} (h : Placed false done st) (hf : f.Declared)
    (hrest : ∀ g ∈ rest, g.Declared) (hprev : done.getLast?.any Field.isBitfield)
    (hbits : f.isBitfield = false) (hzero : f.align = 0) (hvar : f.varlen → rest = [] ∧ varlen)
    (hfields : fields = exactFinalize alignAttr varlen
      (exactLoop false done.getLast? st (f :: rest)))
    (hdisjoint : (ranges 0 fields).Pairwise Disjoint)
    (hinside : varlen → ∀ r ∈ ranges 0 fields, r.2 ≤ 8 * sizes fields) : False := by
  have hbit : st.bitOffset ≠ 0 := h.pending.mpr hprev
  have hat : f.byteAt false st.byteOffset st.bitOffset = st.byteOffset := by
    simp [Field.byteAt, hbits, Field.fieldAlign, hzero, alignUp]
  have hplaced : f.placed false st.byteOffset st.bitOffset = f := by
    rw [Field.placed, if_neg (by simp [hbits])]
  have hnew : (exactField false done.getLast? st f).newFields = st.newFields ++ [f] := by
    rw [exactField, hat, Nat.sub_self, hplaced, charge, if_pos rfl]
  have hranges : ranges 0 (st.newFields ++ [f]) = ranges 0 st.newFields ++
      [(8 * (sizes st.newFields : ℤ), 8 * (sizes st.newFields : ℤ) + 8 * f.size)] := by
    rw [ranges_append, ranges_singleton _ hf.isPad, Field.begin, hf.offsets.1, hf.offsets.2,
      Field.width, if_neg (by simp [hbits])]
    simp
  -- the first bit of the last bytes is taken
  obtain ⟨r, hr, hlo, hhi⟩ := h.covered (8 * sizes st.newFields) (Int.le_refl _) (by omega)
  have hextends : Extends (st.newFields ++ [f]) (some f) (exactField false done.getLast? st f) := by
    refine ⟨[], by rw [hnew, append_nil], ?_⟩
    intro hsome
    simp [hbits] at hsome
  obtain ⟨tail, htail⟩ := hextends.run (exactField_ready false _ st f) false
    (fun g hg => (hrest g hg).isPad) alignAttr varlen
  rw [exactLoop, htail] at hfields
  subst hfields
  rw [ranges_append, hranges] at hdisjoint hinside
  rcases Nat.eq_zero_or_pos f.size with hsize | hsize
  · obtain ⟨rfl, rfl⟩ := hvar ((hf.sized hbits hzero).resolve_right (by omega))
    have hempty : tail = [] := by
      have hafter : (exactField false done.getLast? st f).bitOffset = 0 := if_neg (by simp [hbits])
      rw [exactLoop, exactFinalize, hafter, hnew] at htail
      simpa [charge] using htail
    have hin := hinside rfl r (by simp [hr])
    rw [hempty, append_nil, sizes_append, sizes_singleton] at hin
    omega
  · have hpair := (pairwise_append.mp (pairwise_append.mp hdisjoint).1).2.2 r hr _
      (mem_singleton_self _)
    exact hpair (8 * sizes st.newFields) ⟨⟨hlo, hhi⟩, Int.le_refl _, by dsimp only; omega⟩

theorem alignedBehindBits_of_disjoint (h : Placed false done st) (hdecl : ∀ f ∈ rest, f.Declared)
    (hvar : ∀ f ∈ (done ++ rest).dropLast, f.varlen = false) (hlast : ∀ f ∈ rest, f.varlen → varlen)
    (hfields : fields = exactFinalize alignAttr varlen (exactLoop false done.getLast? st rest))
    (hdisjoint : (ranges 0 fields).Pairwise Disjoint)
    (hinside : varlen → ∀ r ∈ ranges 0 fields, r.2 ≤ 8 * sizes fields) :
    AlignedBehindBits done.getLast? rest := by
  induction rest generalizing done st with
  | nil => exact trivial
  | cons f rest ih =>
    have hf := hdecl f mem_cons_self
    have hrest : ∀ g ∈ rest, g.Declared := fun g hg => hdecl g (mem_cons_of_mem _ hg)
    have hdone : ∀ g ∈ done, g.varlen = false := by
      intro g hg
      refine hvar g ?_
      rw [dropLast_append_of_ne_nil (by simp)]
      exact mem_append_left _ hg
    have halign : done.getLast?.any Field.isBitfield → f.isBitfield = false →
        f.align ≠ 0 := by
      intro hprev hbits hzero
      refine overlap_of_zero_align h hf hrest hprev hbits hzero ?_ hfields hdisjoint hinside
      intro hlong
      refine ⟨?_, hlast f mem_cons_self hlong⟩
      by_contra hne
      refine absurd (hvar f ?_) (by simp [hlong])
      rw [dropLast_append_of_ne_nil (by simp), dropLast_cons_of_ne_nil hne]
      simp
    refine ⟨halign, ?_⟩
    have hstep := h.step hf (by
      refine ⟨nofun, ?_⟩
      intro _ hbits hzero
      by_contra hprev
      exact halign (by simpa using hprev) hbits hzero) fun _ => hdone
    have hprev : (done ++ [f]).getLast? = some f := getLast?_concat
    rw [← hprev]
    refine ih hstep hrest ?_ (fun g hg => hlast g (mem_cons_of_mem _ hg)) ?_
    · rwa [← append_cons]
    · rw [hprev]
      exact hfields

theorem exactLoop_le (packed : Bool) (hdecl : ∀ f ∈ rest, f.Declared)
    (prev : Option Field) (st : LayoutState) :
    8 * (exactLoop packed prev st rest).byteOffset + (exactLoop packed prev st rest).bitOffset ≤
        8 * st.byteOffset + st.bitOffset + 8 * weights rest ∧
      (exactLoop packed prev st rest).structAlign ≤ st.structAlign + weights rest := by
  induction rest generalizing prev st with
  | nil => exact ⟨le_refl _, le_refl _⟩
  | cons f rest ih =>
    have hf := hdecl f mem_cons_self
    have hsum : weights (f :: rest) = f.weight + weights rest := by simp [weights]
    have hweight : f.weight = f.fixedSize + f.align + 2 * f.bitfieldUnit + 1 := rfl
    have hstep := exactField_le packed prev st hf
    have halign : (exactField packed prev st f).structAlign ≤ st.structAlign + f.align := by
      change (if packed then st.structAlign else max st.structAlign f.align) ≤ _
      split <;> omega
    obtain ⟨hle, hmax⟩ := ih (fun g hg => hdecl g (mem_cons_of_mem _ hg)) (some f)
      (exactField packed prev st f)
    rw [exactLoop]
    omega

theorem sumSizes_eq {i size : ℕ} (hi : i = 0 → size = 0) (hsmall : size + sizes fields < 2 ^ 64) :
    sumSizes 0 i size size fields = size + sizes fields := by
  induction fields generalizing i size with
  | nil => rfl
  | cons f fields ih =>
    have hsum : sizes (f :: fields) = f.size + sizes fields := by simp [sizes]
    have hstart : (if i = 0 then 0 else size) = size := by
      split
      · rename_i hzero
        exact (hi hzero).symm
      · rfl
    rw [sumSizes, w64_of_lt (by omega), max_eq_right (by omega), ih (i := i + 1) (by simp) (by omega)]
    omega

section Result

variable {t t' : StructType}

theorem layoutStruct_fields (ht : t.Declared) (hsmall : t.Small) (h : t.layoutStruct = some t') :
    ∃ tail, t'.fields = t.exactFields ++ tail ∧ (tail = [] ∨ ∃ size, tail = [genPad size]) ∧
      (t.varlen → tail = []) ∧
      (t.varlen = false →
        sumSizes t.exactOverlay 0 0 0 t.exactFields ≤ t'.typeSize ∧
        (t.sizeAttr = none →
          tail = [] ∧ t'.typeSize = sumSizes t.exactOverlay 0 0 0 t.exactFields)) := by
  rw [layoutStruct, layoutStructFields_eq ht hsmall] at h
  simp only [Option.bind_eq_bind, Option.bind_some] at h
  cases hvar : t.varlen with
  | true =>
    rw [hvar] at h
    obtain rfl := Option.some.inj h
    exact ⟨[], (append_nil _).symm, .inl rfl, fun _ => rfl, nofun⟩
  | false =>
    rw [hvar, if_neg (by simp)] at h
    cases hattr : t.sizeAttr with
    | none =>
      rw [hattr] at h
      obtain rfl := Option.some.inj h
      exact ⟨[], (append_nil _).symm, .inl rfl, nofun,
        fun _ => ⟨le_refl _, fun _ => ⟨rfl, rfl⟩⟩⟩
    | some size =>
      rw [hattr] at h
      dsimp only at h
      split at h
      · cases h
      · rename_i hle
        split at h
        · obtain rfl := Option.some.inj h
          exact ⟨_, rfl, .inr ⟨_, rfl⟩, nofun, fun _ => ⟨le_of_not_gt hle, nofun⟩⟩
        · obtain rfl := Option.some.inj h
          exact ⟨[], (append_nil _).symm, .inl rfl, nofun,
            fun _ => ⟨le_of_not_gt hle, nofun⟩⟩

/-- The bitfields of the layout `t'` of `t` are inside their units, and without an overlay all
fields are apart and inside the struct. -/
structure StructType.Sound (t t' : StructType) : Prop where
  units : ∀ f ∈ t'.fields, f.isBitfield → f.bitfieldOff + f.bitfieldLen ≤ 8 * f.unitSize
  disjoint : t.overlayField = 0 → (ranges 0 t'.fields).Pairwise Disjoint
  inside : t.overlayField = 0 → ∀ r ∈ ranges 0 t'.fields,
    0 ≤ r.1 ∧ r.2 ≤ 8 * (if t.varlen then sizes t'.fields else t'.typeSize : ℕ)

/-- The structs that are laid out soundly. -/
structure StructType.Regular (t : StructType) : Prop where
  units : t.packed → UnitsAligned 0 (t.fields.take t.overlayField) ∧
    UnitsAligned 0 (t.fields.drop t.overlayField)
  aligned : t.packed = false → t.overlayField = 0 → AlignedBehindBits none t.fields

variable {tail : List Field}

theorem ranges_tail (htail : tail = [] ∨ ∃ size, tail = [genPad size]) :
    ranges 0 (fields ++ tail) = ranges 0 fields := by
  rcases htail with rfl | ⟨size, rfl⟩
  · rw [append_nil]
  · rw [ranges_append, ranges_pad, append_nil]

theorem inUnit_tail (htail : tail = [] ∨ ∃ size, tail = [genPad size]) :
    (∀ f ∈ fields ++ tail, f.InUnit) ↔ ∀ f ∈ fields, f.InUnit := by
  rcases htail with rfl | ⟨size, rfl⟩
  · rw [append_nil]
  · rw [forall_mem_append, forall_mem_singleton]
    exact and_iff_left (inUnit_genPad size)

theorem StructType.Regular.placed (ht : t.Declared) (hreg : t.Regular)
    (hover : t.overlayField = 0) :
    Placed t.packed t.fields (exactLoop t.packed none ⟨[], 0, 0, 0⟩ t.fields) := by
  refine (Placed.start t.packed).run ht.fields ?_ ?_ ?_
  · intro hpacked
    have hunits := (hreg.units hpacked).2
    rwa [hover] at hunits
  · intro hpacked
    exact hreg.aligned hpacked hover
  · exact ht.varlen

theorem sumSizes_exactFields (ht : t.Declared) (hsmall : t.Small) (hover : t.overlayField = 0)
    (hvar : t.varlen = false)
    (hplaced : Placed t.packed t.fields (exactLoop t.packed none ⟨[], 0, 0, 0⟩ t.fields)) :
    sumSizes t.exactOverlay 0 0 0 t.exactFields = sizes t.exactFields := by
  have hindex : t.exactOverlay = 0 := by
    have hfirst : t.exactFirst = [] := by
      simp [exactFirst, hover, exactLoop, exactFinalize, charge]
    simp [exactOverlay, hover, hfirst]
  have hall : ∀ f ∈ t.fields, f.varlen = false := by
    simpa [varlen] using hvar
  obtain ⟨hle, hmax⟩ := exactLoop_le t.packed ht.fields none ⟨[], 0, 0, 0⟩
  obtain ⟨-, pad, hpad, hsizes, -⟩ := exactFinalize_spec t.alignAttr t.varlen fun hne =>
    hplaced.last (hplaced.pending.mp hne)
  have hfixed := hplaced.fixed hall
  unfold StructType.Small at hsmall
  dsimp only at hle hmax
  rw [hindex, exactFields_of_no_overlay hover]
  rw [sumSizes_eq (fun _ => rfl) (by omega), zero_add]

theorem units_iff_inUnit (fields : List Field) :
    (∀ f ∈ fields, f.isBitfield → f.bitfieldOff + f.bitfieldLen ≤ 8 * f.unitSize) ↔
      ∀ f ∈ fields, f.InUnit := by
  refine forall₂_congr fun f _ => forall_congr' fun hbits => ?_
  rw [Field.unitSize, if_pos hbits]

theorem StructType.Regular.sound (ht : t.Declared) (hsmall : t.Small) (hreg : t.Regular)
    (h : t.layoutStruct = some t') : t.Sound t' := by
  obtain ⟨tail, hfields, htail, hvarlen, hfixed⟩ := layoutStruct_fields ht hsmall h
  have hranges : t.overlayField = 0 → ranges 0 t'.fields =
      (place (Field.start t.packed) Field.width 0 t.fields).map
        fun r => ((r.1 : ℤ), (r.2 : ℤ)) := by
    intro hover
    have hplaced := hreg.placed ht hover
    obtain ⟨hkept, -⟩ := exactFinalize_spec t.alignAttr t.varlen fun hne =>
      hplaced.last (hplaced.pending.mp hne)
    rw [hfields, ranges_tail htail, exactFields_of_no_overlay hover, hkept, hplaced.ranges]
  have hstart : ∀ f ∈ t.fields, ∀ n, n ≤ f.start t.packed n := by
    intro f hf n
    exact (ht.fields f hf).le_start t.packed n
  refine ⟨?_, ?_, ?_⟩
  · rw [units_iff_inUnit, hfields, inUnit_tail htail, inUnit_exactFields ht hsmall]
    exact hreg.units
  · intro hover
    rw [hranges hover, pairwise_map]
    refine (pairwise_place hstart).imp ?_
    intro r s hrs b hb
    omega
  · intro hover r hr
    rw [hranges hover] at hr
    obtain ⟨place, hplace, rfl⟩ := mem_map.mp hr
    obtain ⟨hlo, hhi⟩ := of_mem_place hstart hplace
    have hplaced := hreg.placed ht hover
    obtain ⟨-, pad, -, hsizes, -⟩ := exactFinalize_spec t.alignAttr t.varlen fun hne =>
      hplaced.last (hplaced.pending.mp hne)
    rw [← exactFields_of_no_overlay hover] at hsizes
    have htotal := hplaced.total
    have hbytes : sizes t.exactFields ≤ (if t.varlen then sizes t'.fields else t'.typeSize) := by
      cases hvar : t.varlen with
      | true => simp [hfields]
      | false =>
        rw [← sumSizes_exactFields ht hsmall hover hvar hplaced]
        simpa using (hfixed hvar).1
    omega

theorem StructType.Sound.regular (ht : t.Declared) (hsmall : t.Small)
    (h : t.layoutStruct = some t') (hsound : t.Sound t') : t.Regular := by
  obtain ⟨tail, hfields, htail, hvarlen, -⟩ := layoutStruct_fields ht hsmall h
  refine ⟨?_, ?_⟩
  · have hunits := (units_iff_inUnit t'.fields).mp hsound.units
    rw [hfields, inUnit_tail htail] at hunits
    exact (inUnit_exactFields ht hsmall).mp hunits
  · intro hpacked hover
    have hdisjoint := hsound.disjoint hover
    have hinside := hsound.inside hover
    rw [hfields, ranges_tail htail] at hdisjoint hinside
    have hstart := Placed.start t.packed
    have hexact := exactFields_of_no_overlay hover
    rw [hpacked] at hstart hexact
    refine alignedBehindBits_of_disjoint hstart ht.fields (ht.varlen hpacked) ?_ hexact hdisjoint ?_
    · intro f hf hlong
      simp only [varlen, any_eq_true]
      exact ⟨f, hf, hlong⟩
    · intro hvar r hr
      have hin := (hinside r hr).2
      rwa [hvar, if_pos rfl, hvarlen hvar, append_nil] at hin

/-- Bitfields stay inside their units and fields apart exactly in the regular structs. -/
theorem sound_iff_regular (ht : t.Declared) (hsmall : t.Small) (h : t.layoutStruct = some t') :
    t.Sound t' ↔ t.Regular :=
  ⟨StructType.Sound.regular ht hsmall h, fun hreg => hreg.sound ht hsmall h⟩

end Result

def bits32 (len : ℕ) : Field :=
  ⟨0, 4, false, false, len, 4, 0, 0⟩

/-- A packed struct of two bitfields. -/
def packedBits (len len' : ℕ) : StructType :=
  ⟨[bits32 len, bits32 len'], 0, true, 0, none, 0⟩

variable {len : ℕ}

theorem bits32_declared (hpos : len ≠ 0) (hle : len ≤ 32) : (bits32 len).Declared where
  isPad := rfl
  align := .inr ⟨2, rfl⟩
  unit := fun _ => ⟨2, by decide, rfl⟩
  len := fun _ => hle
  bits := fun _ => ⟨rfl, rfl⟩
  offsets := ⟨rfl, rfl⟩
  sized := by
    intro hbits
    simp [Field.isBitfield, bits32, hpos] at hbits

theorem packedBits_declared {len' : ℕ} (hpos : len ≠ 0) (hle : len ≤ 32) (hpos' : len' ≠ 0)
    (hle' : len' ≤ 32) : (packedBits len len').Declared where
  fields := by
    intro f hf
    simp only [packedBits, mem_cons, not_mem_nil, or_false] at hf
    rcases hf with rfl | rfl
    · exact bits32_declared hpos hle
    · exact bits32_declared hpos' hle'
  varlen := nofun

/-- Twelve bits fit behind the first twenty. -/
theorem sound_packedBits :
    ∃ t', (packedBits 20 12).layoutStruct = some t' ∧ (packedBits 20 12).Sound t' := by
  have ht : (packedBits 20 12).Declared :=
    packedBits_declared (by decide) (by decide) (by decide) (by decide)
  have hsmall : (packedBits 20 12).Small := by
    unfold StructType.Small
    decide +kernel
  have hlayout : ((packedBits 20 12).layoutStruct).isSome := by decide +kernel
  obtain ⟨t', ht'⟩ := Option.isSome_iff_exists.mp hlayout
  refine ⟨t', ht', (sound_iff_regular ht hsmall ht').mpr ⟨?_, nofun⟩⟩
  intro _
  refine ⟨trivial, ?_, ?_, trivial⟩
  · exact fun _ => .inl (by decide +kernel)
  · exact fun _ => .inl (by decide +kernel)

/-- Thirty bits do not: they get the bits from eight on of a unit of thirty-two. -/
theorem not_sound_packedBits : (packedBits 20 30).Declared ∧ (packedBits 20 30).Small ∧
    ∃ t', (packedBits 20 30).layoutStruct = some t' ∧
    (∃ f ∈ t'.fields, f.isBitfield ∧ 8 * f.unitSize < f.bitfieldOff + f.bitfieldLen) ∧
    ¬ (packedBits 20 30).Sound t' := by
  have hlayout : (packedBits 20 30).layoutStruct = some
      ⟨[⟨3, 4, false, false, 20, 4, 0, 0⟩, ⟨4, 4, false, false, 30, 4, 8, 0⟩], 0, true, 0,
        none, 7⟩ := by
    decide +kernel
  have hsmall : (packedBits 20 30).Small := by
    unfold StructType.Small
    decide +kernel
  refine ⟨packedBits_declared (by decide) (by decide) (by decide) (by decide), hsmall, _, hlayout,
    ⟨⟨4, 4, false, false, 30, 4, 8, 0⟩, by simp, by decide, by decide⟩, ?_⟩
  intro hsound
  have hunit := hsound.units ⟨4, 4, false, false, 30, 4, 8, 0⟩ (by simp) (by decide)
  exact absurd hunit (by decide)

end Brf.Compiler
