import Brf.Lib.Wire
import Brf.Model.Types

/-! # Arrays of constants

`typeArray.Gen` of `pkg/compiler/types.go`, which writes an array of constants out as a string,
and `copyin` of `executor/executor.cc`, by which the executor writes a constant. -/

namespace Brf.ConstArray

open Brf.Lib.Wire

/-- The integer types; `be` is the suffix, and `intptr` is one of the last two. -/
inductive IntName where
  | int8
  | int16 (be : Bool)
  | int32 (be : Bool)
  | int64 (be : Bool)

def IntName.size : IntName → ℕ
  | int8 => 1
  | int16 _ => 2
  | int32 _ => 4
  | int64 _ => 8

def IntName.format : IntName → BinaryFormat
  | int8 => .native
  | int16 be | int32 be | int64 be => if be then .bigEndian else .native

def genIntCommon (t : IntName) : IntTypeCommon :=
  ⟨⟨"const", .ofNat t.size, false⟩, t.format, 0, 0, 0, 0⟩

/-- The second argument is a size or a range of sizes up to `1e6`, so that `int(begin)` is not
negative. The size of an array is set by the layout. -/
def typeArrayGen (base : VarTypeCommon) (elemType : Typ) (elem : Ref)
    (size : Option (UInt64 × Option UInt64)) : Typ :=
  let kind := if size.isSome then .rangeLen else .randLen
  let first := (size.map Prod.fst).getD 0
  let last := (size.bind Prod.snd).getD first
  let array := .array base elem kind first last
  match elemType with
  | .int c .plain .. =>
    if c.typeSize = 1 then
      let fixed := kind = .rangeLen ∧ first = last
      .buffer { base with typeSize := if fixed then some (first * c.typeSize) else none }
        (if kind = .rangeLen then .blobRange else .blobRand) first last [] false
    else array
  | .const c val _ =>
    if c.argFormat ∈ [.native, .bigEndian] ∧ kind = .rangeLen ∧ first = last then
      let bytes := if c.argFormat = .bigEndian
        then (putUint64 .big val).drop (8 - c.typeSize.toNat)
        else (putUint64 .little val).take c.typeSize.toNat
      .buffer { base with typeSize := some (first * c.typeSize) } .string 0 0
        [(List.replicate first.toNat bytes).flatten] true
    else array
  | _ => array

/-- The bytes of an integer in memory. -/
def store (e : Endian) (size : ℕ) (v : UInt64) : List UInt8 :=
  match e with
  | .little => leBytes size v.toNat
  | .big => (leBytes size v.toNat).reverse

/-- `none` is a failure. The bytes are swapped by `htobe16` and so on. -/
def swap (e : Endian) (v : UInt64) (size : ℕ) : BinaryFormat → Option UInt64
  | .native => some v
  | .bigEndian =>
    if size ∈ [2, 4, 8] then some (.ofNat (leValue (store
      (match e with | .little => .big | .big => .little) size v))) else none
  | _ => none

def copyinInt (e : Endian) (old : List UInt8) (val : UInt64) (size : ℕ) (bf : BinaryFormat)
    (bfOff bfLen : UInt64) : Option (List UInt8) :=
  if bfOff = 0 ∧ bfLen = 0 then (swap e val size bf).map (store e size)
  else do
    let x ← swap e (getUint64 e (old.take size)) size bf
    let shift := match e with
      | .little => bfOff
      | .big => .ofNat (size * 8) - bfOff - bfLen
    let mask := ((1 <<< bfLen) - 1) <<< shift
    (swap e ((x &&& ~~~mask) ||| ((val <<< shift) &&& mask)) size bf).map (store e size)

/-- The bytes that are written over `old`. Constants in the textual formats, which are never
written out as a string, count as failures. -/
def copyin (e : Endian) (old : List UInt8) (val : UInt64) (size : ℕ) (bf : BinaryFormat)
    (bfOff bfLen : UInt64) : Option (List UInt8) :=
  if bf ∈ [.native, .bigEndian] ∧ size ∈ [1, 2, 4, 8] then copyinInt e old val size bf bfOff bfLen
  else none

/-- The constants of a struct, written one behind the other into the memory from its address on. -/
def copyinConsts (e : Endian) : List (IntTypeCommon × UInt64) → List UInt8 → Option (List UInt8)
  | [], mem => some mem
  | (c, val) :: rest, mem => do
    let size := c.typeSize.toNat
    let bytes ← copyin e mem val size c.argFormat c.bitfieldOff c.bitfieldLen
    let behind ← copyinConsts e rest (mem.drop size)
    some (bytes ++ behind)

end Brf.ConstArray
