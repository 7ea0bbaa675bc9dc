import Brf.Model.Layout

/-! # Generation of types

How the types of struct fields get their alignments and sizes: `genType` of
`pkg/compiler/types.go`, which keeps the structs it has met, and `layoutType` of
`pkg/compiler/gen.go`. -/

namespace Brf.Compiler

/-- A type in a description, as far as its size and alignment go. `bits` is the length of a
bitfield, and `wide` marks `ptr64`. The size of a string or buffer and the length of an array are
missing if they vary. -/
inductive TypeExpr where
  | int (size bits : ℕ)
  | blob (size : Option ℕ)
  | ptr (wide : Bool) (elem : TypeExpr)
  | array (elem : TypeExpr) (count : Option ℕ)
  | struct (name : String)

/-- `ast.Struct`. The attribute `varlen` is one of unions; `align` is zero if it is not given. -/
structure StructDecl where
  isUnion : Bool
  fields : List TypeExpr
  varlen : Bool
  packed : Bool
  align : ℕ
  size : Option ℕ
  overlayField : ℕ

/-- `prog.Type`. A struct is a pointer to its entry in `structTypes`. -/
inductive GType where
  | int (size align bits : ℕ)
  | blob (size : Option ℕ)
  | ptr (size align : ℕ)
  | array (elem : GType) (count : Option ℕ) (align : ℕ) (varlen : Bool)
  | struct (name : String)

/-- A struct or union in `structTypes`. -/
structure GStruct where
  fields : List GType
  align : ℕ

structure Desc where
  structs : String → Option StructDecl
  ptrSize : ℕ
  int64Alignment : ℕ

abbrev StructTypes := String → Option GStruct

def StructTypes.insert (c : StructTypes) (name : String) (g : GStruct) : StructTypes :=
  fun other => if other = name then some g else c other

def GType.alignment (c : StructTypes) : GType → ℕ
  | .int _ align _ => align
  | .blob _ => 1
  | .ptr _ align | .array _ _ align _ => align
  | .struct name => ((c name).map GStruct.align).getD 0

namespace Desc

variable (d : Desc)

def getIntAlignment (size : ℕ) : ℕ :=
  if size = 8 ∧ d.int64Alignment ≠ 0 then d.int64Alignment else size

def isZeroSize : (fuel : ℕ) → TypeExpr → Bool
  | 0, _ => false
  | fuel + 1, .array elem _ => isZeroSize fuel elem
  | fuel + 1, .struct name => (d.structs name).any fun s => s.fields.all (isZeroSize fuel)
  | _, .blob size => size == some 0
  | _, _ => false

def isVarlen : (fuel : ℕ) → TypeExpr → Bool
  | 0, _ => false
  | fuel + 1, .array elem count =>
    if d.isZeroSize fuel elem then false
    else if isVarlen fuel elem then true
    else count.isNone
  | fuel + 1, .struct name => (d.structs name).any fun s =>
    s.isUnion && s.varlen || s.fields.any (isVarlen fuel)
  | _, .blob size => size.isNone
  | _, _ => false

def structAlignment (s : StructDecl) (aligns : List ℕ) : ℕ :=
  if s.isUnion then aligns.foldl max 0
  else if s.align ≠ 0 then s.align
  else if s.packed then 1
  else aligns.foldl max 0

/-- `genType`, with the structs met before and after. -/
def genType : (fuel : ℕ) → TypeExpr → StructTypes → Option (GType × StructTypes)
  | 0, _, _ => none
  | _ + 1, .int size bits, c => some (.int size (d.getIntAlignment size) bits, c)
  | _ + 1, .blob size, c => some (.blob size, c)
  | fuel + 1, .ptr wide elem, c => do
    let (_, c) ← genType fuel elem c
    let size := if wide then 8 else d.ptrSize
    some (.ptr size (d.getIntAlignment size), c)
  | fuel + 1, .array elem count, c => do
    let (g, c) ← genType fuel elem c
    some (.array g count (g.alignment c) (d.isVarlen fuel (.array elem count)), c)
  | fuel + 1, .struct name, c =>
    match c name with
    -- it may still be without its alignment
    | some _ => some (.struct name, c)
    | none => do
      let s ← d.structs name
      let (fields, c) ← s.fields.foldlM (fun (gs, c) f => do
        let (g, c) ← genType fuel f c
        some (gs ++ [g], c)) ([], c.insert name ⟨[], 0⟩)
      let align := structAlignment s (fields.map (GType.alignment c))
      some (.struct name, c.insert name ⟨fields, align⟩)

def genFieldArray (fuel : ℕ) (fields : List TypeExpr) (c : StructTypes) :
    Option (List GType × StructTypes) :=
  fields.foldlM (fun (gs, c) f => do
    let (g, c) ← d.genType fuel f c
    some (gs ++ [g], c)) ([], c)

/-- `layoutUnion`: the size. -/
def unionSize (s : StructDecl) (fields : List Field) : Option ℕ :=
  match s.size with
  | none => some ((fields.map Field.size).foldl max 0)
  | some size => if fields.any (fun f => f.size > size) then none else some size

def structType (s : StructDecl) (fields : List Field) : StructType :=
  ⟨fields, s.overlayField, s.packed, s.align, s.size, 0⟩

def structSize (s : StructDecl) (fields : List Field) : Option ℕ :=
  if s.isUnion then if s.varlen then some 0 else unionSize s fields
  else (structType s fields).layoutStruct.map StructType.typeSize

/-- The type of a field behind `layoutType`. -/
def layoutType (c : StructTypes) : (fuel : ℕ) → GType → Option Field
  | 0, _ => none
  | _ + 1, .int size align bits =>
    some ⟨if bits ≠ 0 then 0 else size, align, false, false, bits, if bits ≠ 0 then size else 0, 0, 0⟩
  | _ + 1, .blob size => some ⟨size.getD 0, 1, size.isNone, false, 0, 0, 0, 0⟩
  | _ + 1, .ptr size align => some ⟨size, align, false, false, 0, 0, 0, 0⟩
  | fuel + 1, .array elem count align varlen => do
    let e ← layoutType c fuel elem
    let size := match count with
      | some n => if e.varlen then 0 else w64 (n * e.size)
      | none => 0
    some ⟨size, align, varlen, false, 0, 0, 0, 0⟩
  | fuel + 1, .struct name => do
    let s ← d.structs name
    let g ← c name
    let fields ← g.fields.mapM (layoutType c fuel)
    let varlen := s.isUnion && s.varlen || fields.any Field.varlen
    let size ← structSize s fields
    some ⟨size, g.align, varlen, false, 0, 0, 0, 0⟩

end Desc

end Brf.Compiler
