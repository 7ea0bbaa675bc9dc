import Brf.Lib.Fold
import Brf.Model.LayoutTypes
import Brf.Verification.Compiler.Bitfields

/-! # The layout of C

A struct that is not packed is laid out as in C when the alignments that its fields were generated
with are those of C. A struct that is generated while one of its own structs is still being
generated gets a smaller one. -/

namespace Brf.Compiler

open Brf.Lib List Option Compiler.Field Desc

/-! ### The rule of C -/

/-- A field of a C struct: a bitfield of some unit, or a field with its alignment. -/
inductive Item where
  | bits (unit len : ℕ)
  | plain (size align : ℕ)

/-- Where the field starts when `n` is the next free bit. -/
def Item.start (n : ℕ) : Item → ℕ
  | .bits unit len => if n % (8 * unit) + len ≤ 8 * unit then n else alignUp n (8 * unit)
  | .plain _ align => alignUp n (8 * align)

def Item.width : Item → ℕ
  | .bits _ len => len
  | .plain size _ => 8 * size

/-- The alignment of a type in C. -/
def Desc.cAlign (d : Desc) : (fuel : ℕ) → TypeExpr → Option ℕ
  | 0, _ => none
  | _ + 1, .int size _ => some (d.getIntAlignment size)
  | _ + 1, .blob _ => some 1
  | _ + 1, .ptr wide _ => some (d.getIntAlignment (if wide then 8 else d.ptrSize))
  | fuel + 1, .array elem _ => cAlign d fuel elem
  | fuel + 1, .struct name => do
    let s ← d.structs name
    let aligns ← s.fields.mapM (cAlign d fuel)
    some (structAlignment s aligns)

/-- The field as one of a C struct, with the given alignment. -/
def Field.item (f : Field) (align : ℕ) : Item :=
  if f.isBitfield then .bits f.bitfieldUnit f.bitfieldLen else .plain f.size align

variable {f : Field}

theorem Field.item_start (h : f.align ≠ 0) (n : ℕ) :
    (f.item f.align).start n = f.start false n := by
  unfold item start
  split
  · simp [Item.start, fits, unitAlign]
  · have hmax : max 1 (f.fieldAlign false) = f.align := by
      change max 1 f.align = f.align
      omega
    rw [hmax, Item.start]

theorem Field.item_width (f : Field) (align : ℕ) : (f.item align).width = f.width := by
  unfold item width
  split <;> rfl

variable {fields : List Field}

theorem place_item (h : ∀ f ∈ fields, f.align ≠ 0) (n : ℕ) :
    place Item.start Item.width n (fields.map fun f => f.item f.align) =
      place (start false) width n fields := by
  induction fields generalizing n with
  | nil => rfl
  | cons f fields ih =>
    rw [map_cons, place, place, item_start (h f mem_cons_self), item_width,
      ih fun g hg => h g (mem_cons_of_mem _ hg)]

section Layout

variable {t : StructType}

theorem exactLoop_structAlign (prev : Option Field) (st : LayoutState) (rest : List Field) :
    (exactLoop false prev st rest).structAlign = (rest.map align).foldl max st.structAlign := by
  induction rest generalizing prev st with
  | nil => rfl
  | cons f rest ih =>
    rw [exactLoop, ih]
    rfl

theorem alignedBehindBits_of_align (h : ∀ f ∈ fields, f.align ≠ 0)
    (prev : Option Field) : AlignedBehindBits prev fields := by
  induction fields generalizing prev with
  | nil => exact trivial
  | cons f fields ih =>
    exact ⟨fun _ _ => h f mem_cons_self, ih (fun g hg => h g (mem_cons_of_mem _ hg)) _⟩

theorem layoutStruct_aligned (ht : t.Declared) (hsmall : t.Small) (hpacked : t.packed = false)
    (hover : t.overlayField = 0) (hattr : t.sizeAttr = none) (hvar : t.varlen = false)
    (halign : ∀ f ∈ t.fields, f.align ≠ 0) (hne : t.fields ≠ []) :
    ∃ t', t.layoutStruct = some t' ∧
      ranges 0 t'.fields =
        (place Item.start Item.width 0 (t.fields.map fun f => f.item f.align)).map
          (fun r => ((r.1 : ℤ), (r.2 : ℤ))) ∧
      t'.typeSize = sizes t'.fields ∧
      (if t.alignAttr ≠ 0 then t.alignAttr else (t.fields.map align).foldl max 0) ∣
        t'.typeSize := by
  have hlayout : ∃ t', t.layoutStruct = some t' := by
    rw [StructType.layoutStruct, layoutStructFields_eq ht hsmall]
    simp [hvar, hattr]
  obtain ⟨t', hlayout⟩ := hlayout
  have hreg : t.Regular := by
    refine ⟨by simp [hpacked], ?_⟩
    intro _ _
    exact alignedBehindBits_of_align halign none
  have hplaced := hreg.placed ht hover
  obtain ⟨tail, hfields, -, -, hfixed⟩ := layoutStruct_fields ht hsmall hlayout
  obtain ⟨rfl, hsize⟩ := (hfixed hvar).2 hattr
  rw [sumSizes_exactFields ht hsmall hover hvar hplaced] at hsize
  rw [append_nil] at hfields
  obtain ⟨hkept, pad, -, hsizes, hdvd⟩ := exactFinalize_spec t.alignAttr t.varlen fun hne =>
    hplaced.last (hplaced.pending.mp hne)
  rw [← exactFields_of_no_overlay hover] at hkept hsizes
  refine ⟨t', hlayout, ?_, by rw [hsize, hfields], ?_⟩
  · rw [hfields, hkept, hplaced.ranges, place_item halign, hpacked]
  · have hpos : (t.fields.map align).foldl max 0 ≠ 0 := by
      obtain ⟨f, rest, hcons⟩ := exists_cons_of_ne_nil hne
      have hf : f ∈ t.fields := by simp [hcons]
      have hle : f.align ≤ (t.fields.map align).foldl max 0 :=
        (le_foldl_max _ 0).2 _ (mem_map_of_mem hf)
      have := halign f hf
      omega
    have hall : ∀ f ∈ t.fields, f.varlen = false := by
      simpa [StructType.varlen] using hvar
    have hstruct : (exactLoop t.packed none ⟨[], 0, 0, 0⟩ t.fields).structAlign =
        (t.fields.map align).foldl max 0 := by
      rw [hpacked, exactLoop_structAlign]
    rw [hstruct, hplaced.fixed hall, ← hsizes] at hdvd
    rw [hsize]
    refine hdvd hvar ?_
    split
    · assumption
    · exact hpos

end Layout

def TypeExpr.Checked : TypeExpr → Prop
  | .int size bits => (∃ k ≤ 3, size = 2 ^ k) ∧ bits ≤ 8 * size
  | .array elem _ => elem.Checked
  | _ => True

structure Desc.Checked (d : Desc) : Prop where
  ptrSize : ∃ k ≤ 3, d.ptrSize = 2 ^ k
  int64 : d.int64Alignment = 0 ∨ ∃ k, d.int64Alignment = 2 ^ k
  fields : ∀ name s, d.structs name = some s → s.fields ≠ []
  align : ∀ name s, d.structs name = some s → s.align = 0 ∨ ∃ k, s.align = 2 ^ k
  types : ∀ name s, d.structs name = some s → ∀ e ∈ s.fields, e.Checked

variable {fuel : ℕ}

section Alignments

variable {d : Desc}

theorem Desc.Checked.getIntAlignment (hd : d.Checked) {size : ℕ} (hsize : ∃ k ≤ 3, size = 2 ^ k) :
    ∃ k, d.getIntAlignment size = 2 ^ k := by
  unfold Desc.getIntAlignment
  split
  · rename_i h
    exact hd.int64.resolve_left h.2
  · obtain ⟨k, -, hk⟩ := hsize
    exact ⟨k, hk⟩

theorem structAlignment_pow {s : StructDecl} (hs : s.align = 0 ∨ ∃ k, s.align = 2 ^ k)
    {aligns : List ℕ} (hne : aligns ≠ []) (h : ∀ a ∈ aligns, ∃ k, a = 2 ^ k) :
    ∃ k, structAlignment s aligns = 2 ^ k := by
  have hmax : ∃ k, aligns.foldl max 0 = 2 ^ k := by
    rcases foldl_max_mem aligns 0 with hzero | hmem
    · obtain ⟨a, rest, rfl⟩ := exists_cons_of_ne_nil hne
      obtain ⟨k, hk⟩ := h a mem_cons_self
      have hle : a ≤ (a :: rest).foldl max 0 := (le_foldl_max _ 0).2 a mem_cons_self
      have hpos := Nat.two_pow_pos k
      omega
    · exact h _ hmem
  unfold structAlignment
  split
  · exact hmax
  · split
    · rename_i hne
      exact hs.resolve_left hne
    · split
      · exact ⟨0, rfl⟩
      · exact hmax

theorem cAlign_pow (hd : d.Checked) {e : TypeExpr} (he : e.Checked) {a : ℕ}
    (h : d.cAlign fuel e = some a) : ∃ k, a = 2 ^ k := by
  induction fuel generalizing e a with
  | zero => cases h
  | succ fuel ih =>
    cases e with
    | int size bits =>
      obtain rfl := some.inj h
      exact hd.getIntAlignment he.1
    | blob size =>
      obtain rfl := some.inj h
      exact ⟨0, rfl⟩
    | ptr wide elem =>
      obtain rfl := some.inj h
      refine hd.getIntAlignment ?_
      split
      · exact ⟨3, Nat.le_refl 3, rfl⟩
      · exact hd.ptrSize
    | array elem count => exact ih (e := elem) he h
    | struct name =>
      obtain ⟨s, hs, h⟩ := bind_eq_some_iff.mp h
      obtain ⟨aligns, haligns, h⟩ := bind_eq_some_iff.mp h
      obtain rfl := some.inj h
      refine structAlignment_pow (hd.align name s hs) ?_ ?_
      · intro hnil
        have hlen := length_of_mapM haligns
        rw [hnil] at hlen
        exact hd.fields name s hs (length_eq_zero_iff.mp hlen.symm)
      · intro a ha
        obtain ⟨e, he, hea⟩ := exists_of_mem_mapM haligns ha
        exact ih (hd.types name s hs e he) hea

end Alignments

section Generated

variable {d : Desc}

/-- The integer types among the generated ones keep what is checked. -/
def GType.Checked : GType → Prop
  | .int size _ bits => (∃ k ≤ 3, size = 2 ^ k) ∧ bits ≤ 8 * size
  | _ => True

variable {c c' : StructTypes} {g : GType}

theorem genType_checked {e : TypeExpr} (he : e.Checked)
    (h : d.genType fuel e c = some (g, c')) : g.Checked := by
  cases fuel with
  | zero => cases h
  | succ fuel =>
    cases e with
    | int size bits =>
      obtain ⟨rfl, -⟩ := Prod.mk.inj (some.inj h)
      exact he
    | blob size =>
      obtain ⟨rfl, -⟩ := Prod.mk.inj (some.inj h)
      exact trivial
    | ptr | array =>
      obtain ⟨r, -, h⟩ := bind_eq_some_iff.mp h
      obtain ⟨rfl, -⟩ := Prod.mk.inj (some.inj h)
      exact trivial
    | struct name =>
      rw [genType] at h
      split at h
      · obtain ⟨rfl, -⟩ := Prod.mk.inj (some.inj h)
        exact trivial
      · obtain ⟨s, -, h⟩ := bind_eq_some_iff.mp h
        obtain ⟨r, -, h⟩ := bind_eq_some_iff.mp h
        obtain ⟨rfl, -⟩ := Prod.mk.inj (some.inj h)
        exact trivial

theorem genFieldArray_checked {es : List TypeExpr} (hes : ∀ e ∈ es, e.Checked) {gs : List GType}
    (h : d.genFieldArray fuel es c = some (gs, c')) : ∀ g ∈ gs, g.Checked := by
  refine foldlM_preserves (P := fun r : List GType × StructTypes => ∀ g ∈ r.1, g.Checked)
    ?_ (by simp) h
  intro r e he r' hr hstep
  obtain ⟨⟨g, c⟩, hg, hstep⟩ := bind_eq_some_iff.mp hstep
  obtain rfl := some.inj hstep
  intro g' hg'
  rcases mem_append.mp hg' with hg' | hg'
  · exact hr g' hg'
  · rw [mem_singleton.mp hg']
    exact genType_checked (hes e he) hg

theorem layoutType_declared (hg : g.Checked)
    (h : d.layoutType c fuel g = some f) (halign : ∃ k, f.align = 2 ^ k) : f.Declared := by
  have hne : f.align ≠ 0 := by
    obtain ⟨k, hk⟩ := halign
    have hpos := Nat.two_pow_pos k
    omega
  have hplain : ∀ {f : Field}, f.isPad = false → f.bitfieldLen = 0 → f.bitfieldOff = 0 →
      f.bitfieldUnitOff = 0 → f.align ≠ 0 → (∃ k, f.align = 2 ^ k) → f.Declared := by
    intro f hpad hlen hoff hunit hne halign
    have hbits : f.isBitfield = false := by simp [isBitfield, hlen]
    refine ⟨hpad, .inr halign, ?_, ?_, ?_, ⟨hoff, hunit⟩, fun _ hzero => absurd hzero hne⟩ <;>
      · intro hnot
        rw [hbits] at hnot
        cases hnot
  cases fuel with
  | zero => cases h
  | succ fuel =>
    cases g with
    | int size align bits =>
      obtain rfl := some.inj h
      refine ⟨rfl, .inr halign, ?_, ?_, ?_, ⟨rfl, rfl⟩, fun _ hzero => absurd hzero hne⟩ <;>
        intro hbits <;> simp [isBitfield] at hbits <;> simp [hbits]
      · exact hg.1
      · exact hg.2
    | blob | ptr =>
      obtain rfl := some.inj h
      exact hplain rfl rfl rfl rfl hne halign
    | array elem count align varlen =>
      obtain ⟨e, -, h⟩ := bind_eq_some_iff.mp h
      obtain rfl := some.inj h
      exact hplain rfl rfl rfl rfl hne halign
    | struct name =>
      obtain ⟨s, -, h⟩ := bind_eq_some_iff.mp h
      obtain ⟨r, -, h⟩ := bind_eq_some_iff.mp h
      obtain ⟨fields, -, h⟩ := bind_eq_some_iff.mp h
      obtain ⟨size, -, h⟩ := bind_eq_some_iff.mp h
      obtain rfl := some.inj h
      exact hplain rfl rfl rfl rfl hne halign

end Generated

/-! ### Generated structs are laid out as in C -/

variable {d : Desc}

/-- The fields of a generated struct are placed as in C, and the struct is padded as in C, if the
alignments were those of C and no counter overflows. -/
theorem struct_layout_follows_abi (hd : d.Checked) {name : String} {s : StructDecl}
    (hs : d.structs name = some s) (hpacked : s.packed = false) (hover : s.overlayField = 0)
    (hattr : s.size = none) {fuel fuel' : ℕ} {c c1 c2 : StructTypes} {gs : List GType}
    (hgen : d.genFieldArray fuel s.fields c = some (gs, c1)) {fields : List Field}
    (hfields : gs.mapM (d.layoutType c2 fuel') = some fields)
    (hvar : ∀ f ∈ fields, f.varlen = false) {aligns : List ℕ}
    (haligns : s.fields.mapM (d.cAlign fuel) = some aligns) (habi : fields.map align = aligns)
    (hsmall : (structType s fields).Small) :
    ∃ t, (structType s fields).layoutStruct = some t ∧
      ranges 0 t.fields =
        (place Item.start Item.width 0 (List.zipWith item fields aligns)).map
          (fun r => ((r.1 : ℤ), (r.2 : ℤ))) ∧
      t.typeSize = sizes t.fields ∧
      (if s.align ≠ 0 then s.align else aligns.foldl max 0) ∣ t.typeSize := by
  subst habi
  have hpow : ∀ f ∈ fields, ∃ k, f.align = 2 ^ k := by
    intro f hf
    obtain ⟨e, he, hea⟩ := exists_of_mem_mapM haligns (mem_map_of_mem hf)
    exact cAlign_pow hd (hd.types name s hs e he) hea
  have hne : ∀ f ∈ fields, f.align ≠ 0 := by
    intro f hf
    obtain ⟨k, hk⟩ := hpow f hf
    have hpos := Nat.two_pow_pos k
    omega
  have hzip : List.zipWith item fields (fields.map align) =
      fields.map fun f => f.item f.align := by
    rw [zipWith_map_right, zipWith_self]
  have ht : (structType s fields).Declared := by
    refine ⟨?_, ?_⟩
    · intro f hf
      obtain ⟨g, hg, hgf⟩ := exists_of_mem_mapM hfields hf
      exact layoutType_declared (genFieldArray_checked (hd.types name s hs) hgen g hg) hgf
        (hpow f hf)
    · intro _ f hf
      exact hvar f ((dropLast_sublist fields).subset hf)
  have hnil : fields ≠ [] := by
    intro hnil
    have hlen := length_of_mapM haligns
    rw [hnil] at hlen
    exact hd.fields name s hs (length_eq_zero_iff.mp hlen.symm)
  rw [hzip]
  exact layoutStruct_aligned ht hsmall hpacked hover hattr
    (by simpa [StructType.varlen, structType] using hvar) hne hnil

def plainStruct (fields : List TypeExpr) : StructDecl :=
  ⟨false, fields, false, false, 0, none, 0⟩

/-- A description of such structs for a target with pointers of eight bytes. -/
def plainDesc (structs : List (String × List TypeExpr)) : Desc :=
  ⟨fun name => (structs.lookup name).map plainStruct, 8, 0⟩

theorem plainDesc_checked {structs : List (String × List TypeExpr)}
    (h : ∀ r ∈ structs, r.2 ≠ [] ∧ ∀ e ∈ r.2, e.Checked) : (plainDesc structs).Checked := by
  have hmem : ∀ name s, (plainDesc structs).structs name = some s →
      ∃ fields, (name, fields) ∈ structs ∧ s = plainStruct fields := by
    intro name s hs
    obtain ⟨fields, hfields, rfl⟩ := map_eq_some_iff.mp hs
    obtain ⟨pre, post, rfl, -⟩ := lookup_eq_some_iff.mp hfields
    exact ⟨fields, by simp, rfl⟩
  refine ⟨⟨3, Nat.le_refl 3, rfl⟩, .inl rfl, ?_, ?_, ?_⟩ <;> intro name s hs <;>
    obtain ⟨fields, hfields, rfl⟩ := hmem name s hs
  · exact (h _ hfields).1
  · exact .inl rfl
  · exact (h _ hfields).2

/-- Two bitfields of different units and an integer. -/
def mixedDesc : Desc :=
  plainDesc [("S", [.int 4 20, .int 2 14, .int 8 0])]

/-- The second bitfield starts at its next unit, in the third byte. -/
theorem mixed_layout :
    ∃ t, (structType (plainStruct [.int 4 20, .int 2 14, .int 8 0])
        [⟨0, 4, false, false, 20, 4, 0, 0⟩, ⟨0, 2, false, false, 14, 2, 0, 0⟩,
          ⟨8, 8, false, false, 0, 0, 0, 0⟩]).layoutStruct = some t ∧
      ranges 0 t.fields = [(0, 20), (32, 46), (64, 128)] ∧ 8 ∣ t.typeSize := by
  have hd : mixedDesc.Checked := by
    refine plainDesc_checked ?_
    intro r hr
    rw [mem_singleton.mp hr]
    refine ⟨by simp, ?_⟩
    intro e he
    simp only [mem_cons, not_mem_nil, or_false] at he
    rcases he with rfl | rfl | rfl
    · exact ⟨⟨2, by decide, rfl⟩, by decide⟩
    · exact ⟨⟨1, by decide, rfl⟩, by decide⟩
    · exact ⟨⟨3, by decide, rfl⟩, by decide⟩
  have hsmall : (structType (plainStruct [.int 4 20, .int 2 14, .int 8 0])
      [⟨0, 4, false, false, 20, 4, 0, 0⟩, ⟨0, 2, false, false, 14, 2, 0, 0⟩,
        ⟨8, 8, false, false, 0, 0, 0, 0⟩]).Small := by
    unfold StructType.Small
    decide +kernel
  have hgen : mixedDesc.genFieldArray 1 [.int 4 20, .int 2 14, .int 8 0] (fun _ => none) =
      some ([.int 4 4 20, .int 2 2 14, .int 8 8 0], fun _ => none) := rfl
  have hfields : [GType.int 4 4 20, .int 2 2 14, .int 8 8 0].mapM
      (mixedDesc.layoutType (fun _ => none) 1) = some [⟨0, 4, false, false, 20, 4, 0, 0⟩,
        ⟨0, 2, false, false, 14, 2, 0, 0⟩, ⟨8, 8, false, false, 0, 0, 0, 0⟩] := rfl
  have hs : mixedDesc.structs "S" = some (plainStruct [.int 4 20, .int 2 14, .int 8 0]) := rfl
  obtain ⟨t, hlayout, hranges, -, hdvd⟩ :=
    struct_layout_follows_abi hd hs rfl rfl rfl hgen hfields (by simp) rfl rfl hsmall
  exact ⟨t, hlayout, hranges, hdvd⟩

/-- A list whose elements are reached through a pointer from the struct `link` inside them. -/
def linkDesc : Desc :=
  plainDesc [("link", [.ptr false (.struct "node")]), ("node", [.int 4 0, .struct "link"]),
    ("holder", [.int 4 0, .struct "node"])]

/-- While `link` is generated, `node` is given the alignment four instead of eight. -/
theorem node_misaligned :
    linkDesc.Checked ∧ ∃ gs c g fields aligns t,
      linkDesc.genFieldArray 9 [.ptr false (.struct "link"), .ptr false (.struct "holder")]
        (fun _ => none) = some (gs, c) ∧
      c "holder" = some g ∧ g.fields.mapM (linkDesc.layoutType c 9) = some fields ∧
      (∀ f ∈ fields, f.varlen = false) ∧
      [TypeExpr.int 4 0, .struct "node"].mapM (linkDesc.cAlign 9) = some aligns ∧
      (Desc.structType (plainStruct [.int 4 0, .struct "node"]) fields).layoutStruct = some t ∧
      ranges 0 t.fields = [(0, 32), (32, 160)] ∧
      place Item.start Item.width 0 (List.zipWith item fields aligns) =
        [(0, 32), (64, 192)] := by
  refine ⟨?_, ?_⟩
  · refine plainDesc_checked ?_
    intro r hr
    simp only [mem_cons, not_mem_nil, or_false] at hr
    rcases hr with rfl | rfl | rfl
    · simp [TypeExpr.Checked]
    · simp [TypeExpr.Checked]
      exact ⟨2, by decide, rfl⟩
    · simp [TypeExpr.Checked]
      exact ⟨2, by decide, rfl⟩
  · refine ⟨_, _, _, [⟨4, 4, false, false, 0, 0, 0, 0⟩, ⟨16, 4, false, false, 0, 0, 0, 0⟩], [4, 8],
      ⟨[⟨4, 4, false, false, 0, 0, 0, 0⟩, ⟨16, 4, false, false, 0, 0, 0, 0⟩], 0, false, 0, none, 20⟩,
      rfl, rfl, ?_, by simp, by decide +kernel, by decide +kernel, by decide +kernel,
      by decide +kernel⟩
    decide +kernel

end Brf.Compiler
