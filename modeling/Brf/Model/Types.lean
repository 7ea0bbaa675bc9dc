import Mathlib.Data.Nat.Notation

/-! # Types of a target

The description compiler turns a target's descriptions into a table of types that refer to
each other by index. Only arrays, buffers, structs and unions can be of variable length; the
other types carry their static size, so asking for it cannot fail. -/

namespace Brf

inductive Dir where
  | dirIn
  | dirOut
  | dirInOut
deriving DecidableEq

inductive BinaryFormat where
  | native
  | bigEndian
  | strDec
  | strHex
  | strOct
deriving DecidableEq

namespace BinaryFormat

def code : BinaryFormat → UInt64
  | native => 0
  | bigEndian => 1
  | strDec => 2
  | strHex => 3
  | strOct => 4

end BinaryFormat

/-- Index into the type table; two Go type pointers are equal iff their refs are. -/
abbrev Ref := ℕ

structure Field where
  name : String
  type : Ref
  hasDirection : Bool
  direction : Dir
deriving DecidableEq

/-- `Field.Dir`: the field's own direction, or else that of the object around it. -/
def Field.dir (f : Field) (dflt : Dir) : Dir :=
  if f.hasDirection then f.direction else dflt

/-- `prog.ResourceDesc`; the compiler gives every resource at least one special value. -/
structure ResourceDesc where
  name : String
  kind : List String
  values : List UInt64
  values_ne : values ≠ []
deriving DecidableEq

/-- The part of `TypeCommon` and `IntTypeCommon` shared by the types of static size. -/
structure TypeCommon where
  typeName : String
  typeSize : UInt64
  isOptional : Bool
deriving DecidableEq

/-- `TypeCommon` of the types that may be of variable length. -/
structure VarTypeCommon where
  typeName : String
  -- `none` is `IsVarlen`
  typeSize : Option UInt64
  isOptional : Bool
deriving DecidableEq

structure IntTypeCommon extends TypeCommon where
  argFormat : BinaryFormat
  bitfieldOff : UInt64
  bitfieldLen : UInt64
  bitfieldUnit : UInt64
  bitfieldUnitOff : UInt64
deriving DecidableEq

/-- `UnitSize`: that of the storage unit for a bitfield. -/
def IntTypeCommon.unitSize (c : IntTypeCommon) : UInt64 :=
  if c.bitfieldLen != 0 then c.bitfieldUnit else c.typeSize

inductive IntKind where
  | plain
  | range
deriving DecidableEq

inductive CsumKind where
  | inet
  | pseudo
deriving DecidableEq

inductive BufferKind where
  | blobRand
  | blobRange
  | string
  | filename
  | text
  | glob
  | compressed
deriving DecidableEq

inductive ArrayKind where
  | randLen
  | rangeLen
deriving DecidableEq

inductive Typ where
  | resource (c : TypeCommon) (argFormat : BinaryFormat) (desc : ResourceDesc)
  | const (c : IntTypeCommon) (val : UInt64) (isPad : Bool)
  | int (c : IntTypeCommon) (kind : IntKind) (rangeBegin rangeEnd align : UInt64)
  | flags (c : IntTypeCommon) (vals : List UInt64) (bitMask : Bool)
  | len (c : IntTypeCommon) (bitSize : UInt64) (offset : Bool) (path : List String)
  | proc (c : IntTypeCommon) (valuesStart valuesPerProc : UInt64)
  | csum (c : IntTypeCommon) (kind : CsumKind) (buf : String) (protocol : UInt64)
  | vma (c : TypeCommon) (rangeBegin rangeEnd : UInt64)
  | buffer (c : VarTypeCommon) (kind : BufferKind) (rangeBegin rangeEnd : UInt64)
      (values : List (List UInt8)) (noZ : Bool)
  | array (c : VarTypeCommon) (elem : Ref) (kind : ArrayKind) (rangeBegin rangeEnd : UInt64)
  | ptr (c : TypeCommon) (elem : Ref) (elemDir : Dir)
  | struct (c : VarTypeCommon) (fields : List Field) (alignAttr : UInt64) (overlayField : ℕ)
  | union (c : VarTypeCommon) (fields : List Field)
deriving DecidableEq

def ResourceDesc.default (d : ResourceDesc) : UInt64 := d.values.head d.values_ne

namespace Typ

def name : Typ → String
  | resource c _ _ | vma c _ _ | ptr c _ _ => c.typeName
  | const c _ _ | int c _ _ _ _ | flags c _ _ | len c _ _ _ | proc c _ _ | csum c _ _ _ =>
    c.typeName
  | buffer c _ _ _ _ _ | array c _ _ _ _ | struct c _ _ _ | union c _ => c.typeName

/-- `TemplateName`: the name without template arguments. -/
def templateName (t : Typ) : String :=
  String.ofList (t.name.toList.takeWhile (· != '['))

def isOptional : Typ → Bool
  | resource c _ _ | vma c _ _ | ptr c _ _ => c.isOptional
  | const c _ _ | int c _ _ _ _ | flags c _ _ | len c _ _ _ | proc c _ _ | csum c _ _ _ =>
    c.isOptional
  | buffer c _ _ _ _ _ | array c _ _ _ _ | struct c _ _ _ | union c _ => c.isOptional

/-- `Size`, or `none` where it would panic because the type is `Varlen`. -/
def size? : Typ → Option UInt64
  | resource c _ _ | vma c _ _ | ptr c _ _ => some c.typeSize
  | const c _ _ | int c _ _ _ _ | flags c _ _ | len c _ _ _ | proc c _ _ | csum c _ _ _ =>
    some c.typeSize
  | buffer c _ _ _ _ _ | array c _ _ _ _ | struct c _ _ _ | union c _ => c.typeSize

def varlen (t : Typ) : Bool := t.size?.isNone

def intCommon? : Typ → Option IntTypeCommon
  | const c _ _ | int c _ _ _ _ | flags c _ _ | len c _ _ _ | proc c _ _ | csum c _ _ _ => some c
  | _ => none

def format : Typ → BinaryFormat
  | resource _ f _ => f
  | t => (t.intCommon?.map IntTypeCommon.argFormat).getD .native

def bitfieldOffset (t : Typ) : UInt64 := (t.intCommon?.map IntTypeCommon.bitfieldOff).getD 0

def bitfieldLength (t : Typ) : UInt64 := (t.intCommon?.map IntTypeCommon.bitfieldLen).getD 0

def isBitfield (t : Typ) : Bool := t.bitfieldLength != 0

def unitOffset (t : Typ) : UInt64 := (t.intCommon?.map IntTypeCommon.bitfieldUnitOff).getD 0

def isPad : Typ → Bool
  | const _ _ p => p
  | _ => false

end Typ

/-- `prog.Syscall`; of the attributes only `Disabled` is read here. -/
structure Syscall where
  id : ℕ
  name : String
  args : List Field
  ret : Option Ref
  disabled : Bool
deriving DecidableEq

/-- `prog.Target`, with the type table and the builtin ANY types as fields. -/
structure Target where
  ptrSize : UInt64
  pageSize : UInt64
  numPages : UInt64
  dataOffset : UInt64
  syscalls : List Syscall
  specialPointers : List UInt64
  type : Ref → Typ
  anyArray : Ref
  anyPtrPtr : Ref
  anyPtr64 : Ref

def Target.isAnyPtr (t : Target) (r : Ref) : Bool :=
  match t.type r with
  | .ptr _ elem _ => elem == t.anyArray
  | _ => false

end Brf
