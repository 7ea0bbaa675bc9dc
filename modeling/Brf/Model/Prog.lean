import Brf.Model.Types
import Mathlib.Data.UInt

/-! # Programs

A program is a list of calls whose arguments are trees. Go identifies result arguments by
their address; here each carries an id, and the `uses` links from a result to the arguments
that refer to it are kept beside the calls. -/

namespace Brf

abbrev ArgId := ℕ

/-- Directions of buffers that carry bytes; `MakeDataArg` refuses the output direction. -/
abbrev InDir := { d : Dir // d ≠ .dirOut }

structure ArgCommon where
  ref : Ref
  dir : Dir
deriving DecidableEq

/-- `prog.PointerArg` without its pointee. -/
structure PointerArg extends ArgCommon where
  address : UInt64
  vmaSize : UInt64
deriving DecidableEq

structure ResultArg extends ArgCommon where
  id : ArgId
  res : Option ArgId
  opDiv : UInt64
  opAdd : UInt64
  val : UInt64
deriving DecidableEq

/-- `prog.Arg`. A pointer with a nil `Res` is `pointerNil`; the two constructors of `DataArg`
are `MakeDataArg` and `MakeOutDataArg`. -/
inductive Arg where
  | const (c : ArgCommon) (val : UInt64)
  | pointer (p : PointerArg) (res : Arg)
  | pointerNil (p : PointerArg)
  | data (ref : Ref) (dir : InDir) (bytes : List UInt8)
  | outData (ref : Ref) (size : UInt64)
  | group (c : ArgCommon) (inner : List Arg)
  | union (c : ArgCommon) (option : Arg) (index : ℕ)
  | result (r : ResultArg)

structure CallProps where
  failNth : Int64
  async : Bool
  rerun : Int64
deriving DecidableEq

def CallProps.zero : CallProps := ⟨0, false, 0⟩

structure Call where
  syscall : Syscall
  args : List Arg
  ret : Option ResultArg
  props : CallProps

structure Prog where
  calls : List Call
  -- pairs of a result argument and an argument in its `uses` map
  uses : List (ArgId × ArgId)

/-- `len(arg.uses) != 0`. -/
def Prog.isUsed (p : Prog) (id : ArgId) : Bool := p.uses.any (·.1 == id)

namespace Arg

def ref : Arg → Ref
  | const c _ | group c _ | union c _ _ => c.ref
  | pointer p _ | pointerNil p => p.ref
  | data r _ _ | outData r _ => r
  | result r => r.ref

def dir : Arg → Dir
  | const c _ | group c _ | union c _ _ => c.dir
  | pointer p _ | pointerNil p => p.dir
  | data _ d _ => d
  | outData _ _ => .dirOut
  | result r => r.dir

/-- Induction over argument trees, one case per kind of argument. -/
theorem tree_induction {motive : Arg → Prop} (const : ∀ c v, motive (.const c v))
    (pointer : ∀ p res, motive res → motive (.pointer p res))
    (pointerNil : ∀ p, motive (.pointerNil p)) (data : ∀ r d b, motive (.data r d b))
    (outData : ∀ r n, motive (.outData r n))
    (group : ∀ c inner, (∀ a ∈ inner, motive a) → motive (.group c inner))
    (union : ∀ c opt i, motive opt → motive (.union c opt i)) (result : ∀ r, motive (.result r))
    (a : Arg) : motive a :=
  @Arg.rec motive (fun inner => ∀ a ∈ inner, motive a)
    const pointer pointerNil data outData group union result
    (by simp) (fun a as ha has => by simpa using ⟨ha, has⟩) a

end Arg

/-! ### Sizes -/

/-- `Type.Size`. The code asks for it only where the type is known not to be `Varlen`. -/
def Typ.size (t : Typ) : UInt64 := t.size?.getD 0

/-- The loop of `GroupArg.Size` over the sizes of a struct's fields. -/
def structSize (alignAttr : UInt64) (overlayField n : ℕ) :
    (i : ℕ) → (offset size : UInt64) → List UInt64 → UInt64
  | _, _, size, [] => size
  | i, offset, size, fld :: flds =>
    let start := if i = overlayField then 0 else offset
    let stop := start + fld
    -- dynamic alignment at the end and before the overlay part
    let aligned :=
      if (i + 1 = n ∨ i + 1 = overlayField) ∧ alignAttr ≠ 0 ∧ stop % alignAttr ≠ 0 then
        stop + (alignAttr - stop % alignAttr)
      else stop
    structSize alignAttr overlayField n (i + 1) aligned (if size < aligned then aligned else size)
      flds

/-- `GroupArg.Size` from the sizes of the inner args. -/
def groupSize (typ : Typ) (sizes : List UInt64) : UInt64 :=
  match typ.size? with
  | some s => s
  | none =>
    match typ with
    | .struct _ _ alignAttr overlayField => structSize alignAttr overlayField sizes.length 0 0 0 sizes
    | _ => sizes.sum

mutual

def Arg.size (t : Target) : Arg → UInt64
  | .const c _ => (t.type c.ref).size
  | .pointer p _ | .pointerNil p => (t.type p.ref).size
  | .data _ _ bytes => UInt64.ofNat bytes.length
  | .outData _ size => size
  | .group c inner => groupSize (t.type c.ref) (Arg.sizes t inner)
  | .union c opt _ => (t.type c.ref).size?.getD (opt.size t)
  | .result r => (t.type r.ref).size

def Arg.sizes (t : Target) : List Arg → List UInt64
  | [] => []
  | a :: as => a.size t :: Arg.sizes t as

end

/-! ### Addresses -/

def maxSpecialPointers : UInt64 := 16

def PointerArg.isSpecial (p : PointerArg) (hasRes : Bool) : Bool :=
  p.vmaSize == 0 && !hasRes && decide (-p.address < maxSpecialPointers)

/-- `Target.PhysicalAddr`; `none` is an index out of range in `SpecialPointers`. -/
def Target.physicalAddr (t : Target) (p : PointerArg) (hasRes : Bool) : Option UInt64 :=
  if p.isSpecial hasRes then t.specialPointers[(-p.address).toNat]?
  else some (t.dataOffset + p.address)

/-! ### Traversal -/

/-- Identity of an argument: the id of a result argument, the position of any other. -/
inductive ArgKey where
  | result (id : ArgId)
  | place (path : List ℕ)
deriving DecidableEq

def Arg.key (path : List ℕ) : Arg → ArgKey
  | .result r => .result r.id
  | _ => .place path

/-- One call of the callback of `ForeachArg`: the argument and the `Base` and `Offset` of its
context. -/
structure Visit where
  path : List ℕ
  arg : Arg
  base : Option PointerArg
  offset : UInt64

def Visit.key (v : Visit) : ArgKey := v.arg.key v.path

/-- The `OverlayField` that resets the offset inside a group; `0` for arrays. -/
def Target.overlayField (t : Target) (r : Ref) : ℕ :=
  match t.type r with
  | .struct _ _ _ overlayField => overlayField
  | _ => 0

mutual

/-- `foreachArgImpl`, as the list of visits it makes. -/
def Arg.visits (t : Target) (path : List ℕ) (base : Option PointerArg) (offset : UInt64) :
    Arg → List Visit
  | .group c inner => ⟨path, .group c inner, base, offset⟩ ::
      Arg.visitsInner t path (t.overlayField c.ref) base offset 0 offset inner
  | .pointer p res => ⟨path, .pointer p res, base, offset⟩ ::
      res.visits t (path ++ [0]) (some p) 0
  | .union c opt i => ⟨path, .union c opt i, base, offset⟩ ::
      opt.visits t (path ++ [0]) base offset
  | a => [⟨path, a, base, offset⟩]

/-- The loop of `foreachArgImpl` over the inner args of a group from the `i`-th on; `start` is
the group's own offset. -/
def Arg.visitsInner (t : Target) (path : List ℕ) (overlayField : ℕ) (base : Option PointerArg)
    (start : UInt64) : (i : ℕ) → (offset : UInt64) → List Arg → List Visit
  | _, _, [] => []
  | i, offset, a :: as =>
    let offset' := if i = overlayField then start else offset
    a.visits t (path ++ [i]) base offset' ++
      Arg.visitsInner t path overlayField base start (i + 1) (offset' + a.size t) as

end

/-- Visits of the call's arguments, the `i`-th one at path `[n, i]` of call `n`. -/
def visitsArgs (t : Target) (n : ℕ) : (i : ℕ) → List Arg → List Visit
  | _, [] => []
  | i, a :: as => a.visits t [n, i] none 0 ++ visitsArgs t n (i + 1) as

/-- `ForeachArg` of the `n`-th call: the return value first, then the arguments. -/
def Call.visits (t : Target) (n : ℕ) (c : Call) : List Visit :=
  (c.ret.toList.map fun r => ⟨[n], .result r, none, 0⟩) ++ visitsArgs t n 0 c.args

end Brf
