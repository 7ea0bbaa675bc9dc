import Mathlib.Data.Nat.Bitwise

/-! # Struct layout

The layout pass of `pkg/compiler/gen.go`, on generated types. The counters are `uint64`. -/

namespace Brf.Compiler

/-- A field with what the layout reads and writes of its type. `align` is `TypeAlign`. The size of
a variable length type is that of its argument at hand, which the layout does not read. -/
structure Field where
  size : ℕ
  align : ℕ
  varlen : Bool
  isPad : Bool
  bitfieldLen : ℕ
  bitfieldUnit : ℕ
  bitfieldOff : ℕ
  bitfieldUnitOff : ℕ
deriving DecidableEq

def Field.isBitfield (f : Field) : Bool :=
  f.bitfieldLen != 0

def Field.unitSize (f : Field) : ℕ :=
  if f.isBitfield then f.bitfieldUnit else f.size

def genPad (size : ℕ) : Field :=
  ⟨size, 0, false, true, 0, 0, 0, 0⟩

def w64 (n : ℕ) : ℕ :=
  n % 2 ^ 64

def sub64 (a b : ℕ) : ℕ :=
  (a + 2 ^ 64 - b) % 2 ^ 64

/-- `none` is the panic for an alignment that is not a power of two. -/
def rounddown (v a : ℕ) : Option ℕ :=
  if a &&& sub64 a 1 ≠ 0 then none
  else some (v &&& (2 ^ 64 - 1 - sub64 a 1))

def roundup (v a : ℕ) : Option ℕ :=
  rounddown (sub64 (w64 (v + a)) 1) a

/-- `newFields` and the counters of `layoutStructFields`. -/
structure LayoutState where
  newFields : List Field
  structAlign : ℕ
  byteOffset : ℕ
  bitOffset : ℕ

/-- `setBitfieldTypeSize` of the last field that is not a padding. -/
def setBitfieldTypeSize (v : ℕ) : List Field → List Field
  | [] => []
  | f :: rest =>
    if rest.any (!·.isPad) then f :: setBitfieldTypeSize v rest else { f with size := v } :: rest

/-- The offset of the unit of a bitfield, `bitOffset`, and the offset of the field in the unit. -/
def bitfieldOffsets (packed : Bool) (f : Field) (fullBitOffset bitOffset : ℕ) :
    Option (ℕ × ℕ × ℕ) := do
  let unitAlign := if packed then 1 else f.unitSize
  let fieldOffset ← rounddown (fullBitOffset / 8) unitAlign
  let unitBits := w64 (f.unitSize * 8)
  let occupiedBits := sub64 fullBitOffset (w64 (fieldOffset * 8))
  let remainBits := sub64 unitBits occupiedBits
  if remainBits < f.bitfieldLen then
    let bytes ← roundup fullBitOffset 8
    let fieldOffset ← roundup (bytes / 8) unitAlign
    some (fieldOffset, 0, sub64 0 (w64 (fieldOffset * 8)) % unitBits)
  else if w64 (fieldOffset * 8) ≥ fullBitOffset then
    some (fieldOffset, 0, sub64 (w64 (fieldOffset * 8)) (w64 (fieldOffset * 8)) % unitBits)
  else some (fieldOffset, bitOffset, sub64 fullBitOffset (w64 (fieldOffset * 8)) % unitBits)

/-- The padding in front of a field at `fieldOffset`. `none` is the panic `bad bitOffset`. -/
def padField (prev : Option Field) (fieldOffset : ℕ) (st : LayoutState) : Option LayoutState :=
  if fieldOffset > st.byteOffset then
    let pad := sub64 fieldOffset st.byteOffset
    let byteOffset := w64 (st.byteOffset + pad)
    if prev.any Field.isBitfield then
      let newFields := setBitfieldTypeSize pad st.newFields
      if st.bitOffset ≥ w64 (8 * pad) then
        -- the padding is due to bitfields
        some { st with newFields, byteOffset, bitOffset := sub64 st.bitOffset (w64 (8 * pad)) }
      else if st.bitOffset ≥ 8 then none
      else some { st with newFields, byteOffset }
    else some { st with newFields := st.newFields ++ [genPad pad], byteOffset }
  else some st

/-- The body of the loop of `layoutStructFields`. -/
def layoutField (packed : Bool) (prev : Option Field) (st : LayoutState) (f : Field) :
    Option LayoutState := do
  let fieldAlign := if packed then 1 else f.align
  let structAlign := if !packed && st.structAlign < fieldAlign then fieldAlign else st.structAlign
  let fullBitOffset := w64 (w64 (st.byteOffset * 8) + st.bitOffset)
  if f.isBitfield then
    let (fieldOffset, bitOffset, off) ← bitfieldOffsets packed f fullBitOffset st.bitOffset
    let st ← padField prev fieldOffset { st with structAlign, bitOffset }
    let unitOff := if st.byteOffset > fieldOffset then sub64 st.byteOffset fieldOffset
      else f.bitfieldUnitOff
    let f := { f with bitfieldOff := off, bitfieldUnitOff := unitOff }
    some { st with newFields := st.newFields ++ [f], bitOffset := w64 (st.bitOffset + f.bitfieldLen) }
  else
    let bytes ← roundup fullBitOffset 8
    let fieldOffset ← roundup (bytes / 8) fieldAlign
    let st ← padField prev fieldOffset { st with structAlign, bitOffset := 0 }
    some { st with
      newFields := st.newFields ++ [f]
      byteOffset := if f.varlen then st.byteOffset else w64 (st.byteOffset + f.size) }

def finalizeStructFields (alignAttr : ℕ) (varlen : Bool) (st : LayoutState) :
    Option (List Field) := do
  let (fields, byteOffset) ←
    if st.bitOffset ≠ 0 then do
      let bytes ← roundup st.bitOffset 8
      let pad := bytes / 8
      let fields := if st.newFields.getLast?.any Field.isBitfield
        then setBitfieldTypeSize pad st.newFields else st.newFields ++ [genPad pad]
      some (fields, w64 (st.byteOffset + pad))
    else some (st.newFields, st.byteOffset)
  let structAlign := if alignAttr ≠ 0 then alignAttr else st.structAlign
  if !varlen && structAlign != 0 && byteOffset % structAlign != 0 then
    some (fields ++ [genPad (structAlign - byteOffset % structAlign)])
  else some fields

/-- `prog.StructType` with the attributes of its description. -/
structure StructType where
  fields : List Field
  overlayField : ℕ
  packed : Bool
  alignAttr : ℕ
  sizeAttr : Option ℕ
  typeSize : ℕ
deriving DecidableEq

namespace StructType

variable (t : StructType)

def varlen : Bool :=
  t.fields.any Field.varlen

/-- The loop of `layoutStructFields`, from field `i` on: the fields and the index of the first
overlay field. -/
def layoutLoop (i : ℕ) (prev : Option Field) (overlay : ℕ) (st : LayoutState) :
    List Field → Option (List Field × ℕ)
  | [] => do
    let fields ← finalizeStructFields t.alignAttr t.varlen st
    some (fields, overlay)
  | f :: rest => do
    let (overlay, st) ←
      if i = t.overlayField then do
        let fields ← finalizeStructFields t.alignAttr t.varlen st
        some (fields.length, ⟨fields, 0, 0, 0⟩)
      else some (overlay, st)
    let st ← layoutField t.packed prev st f
    layoutLoop (i + 1) (some f) overlay st rest

def layoutStructFields : Option (List Field × ℕ) :=
  t.layoutLoop 0 none t.overlayField ⟨[], 0, 0, 0⟩ t.fields

/-- The loop of `layoutStruct` over the sizes. -/
def sumSizes (overlay : ℕ) (i size typeSize : ℕ) : List Field → ℕ
  | [] => typeSize
  | f :: rest =>
    let size := w64 ((if i = overlay then 0 else size) + f.size)
    sumSizes overlay (i + 1) size (max typeSize size) rest

/-- `none` is a panic, or the error for a size attribute that is too small. -/
def layoutStruct : Option StructType := do
  let (fields, overlayField) ← t.layoutStructFields
  if t.varlen then some { t with fields, overlayField, typeSize := 0 }
  else
    let typeSize := sumSizes overlayField 0 0 0 fields
    match t.sizeAttr with
    | none => some { t with fields, overlayField, typeSize }
    | some size =>
      if typeSize > size then none
      else if size - typeSize ≠ 0 then
        some { t with
          fields := fields ++ [genPad (size - typeSize)], overlayField, typeSize := size }
      else some { t with fields, overlayField, typeSize := size }

end StructType

end Brf.Compiler
