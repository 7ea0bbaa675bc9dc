import Brf.Model.Prog

/-! # Validation

`Prog.validate`. Arguments other than results have no identity of their own here, so the
check that an argument occurs once in the tree is made for result arguments. -/

namespace Brf

/-! ### File names -/

/-- `filepath.Clean` on the components of a path, innermost first. -/
def cleanStep (rooted : Bool) (stack : List (List UInt8)) (comp : List UInt8) :
    List (List UInt8) :=
  if comp = [] ∨ comp = [46] then stack
  else if comp = [46, 46] then
    match stack with
    | top :: rest =>
      if top = [46, 46] then comp :: stack else rest
    | [] => if rooted then [] else [comp]
  else comp :: stack

def filepathClean (path : List UInt8) : List UInt8 :=
  let rooted := path.head? == some 47
  let comps := ((path.splitOn 47).foldl (cleanStep rooted) []).reverse
  if rooted then 47 :: List.intercalate [47] comps
  else if comps = [] then [46] else List.intercalate [47] comps

def escapingFilename (file : List UInt8) : Bool :=
  match filepathClean file with
  | 47 :: _ | 46 :: 46 :: _ => true
  | _ => false

/-! ### Errors and context -/

inductive ValidError where
  | disabledCall
  | rerunWithFailNth
  | numArgs (want got : ℕ)
  | retWithoutType
  | retAbsent
  | retNotEmpty
  | repeatedArg
  | wrongDir (got want : Dir)
  | badType (got want : Ref)
  | outIntValue (name : String) (val : UInt64)
  | procValue (name : String) (val : UInt64)
  | csumValue (name : String) (val : UInt64)
  | constType (name : String)
  | outNotDefault (name : String)
  | resultType (name : String)
  | brokenUses
  | outResourceValue (name : String) (val : UInt64)
  | outOfTreeResult (name : String)
  | brokenLink (name : String)
  | usedDirIn (name : String)
  | usedTooBig (name : String) (size : UInt64)
  | dataType (name : String)
  | dataSize (name : String) (got want : UInt64)
  | escapingFilename
  | structFields (name : String) (want got : ℕ)
  | groupType (name : String)
  | arrayElems (name : String) (got : ℕ) (want : UInt64)
  | unionType (name : String)
  | unionIndex (got want : ℕ)
  | vmaData (name : String)
  | ptrVmaSize (name : String)
  | ptrOut (name : String)
  | ptrType (name : String)
  | specialPtr (name : String) (address : UInt64)
  | ptrAddress (name : String) (address vmaSize size : UInt64)
  | outOfTreeUse
  | inCall (name : String) (err : ValidError)
deriving DecidableEq

/-- `validCtx`: the result arguments visited so far and the keys of `uses`. -/
structure ValidCtx where
  args : List ArgId
  uses : List ArgId

abbrev Valid := Except ValidError

/-- Fail with `err` when `bad`. -/
def reject (bad : Bool) (err : ValidError) : Valid Unit :=
  if bad then throw err else pure ()

/-! ### Leaves -/

/-- `isDefaultArg` of the types of constant arguments. -/
def Typ.isDefaultVal : Typ → UInt64 → Bool
  | .const _ val _, v => v == val
  | .proc _ _ _, v => v == 0xffffffffffffffff
  | _, v => v == 0

def Typ.isLen : Typ → Bool
  | .len .. => true
  | _ => false

/-- The switch of `ConstArg.validate` over the argument's type. -/
def validateConstKind (typ : Typ) (dir : Dir) (val : UInt64) : Valid Unit :=
  match typ with
  | .int .. => reject (dir == .dirOut && !typ.isDefaultVal val) (.outIntValue typ.name val)
  | .proc _ _ valuesPerProc =>
    reject (decide (valuesPerProc ≤ val) && !typ.isDefaultVal val) (.procValue typ.name val)
  | .csum .. => reject (val != 0) (.csumValue typ.name val)
  | .const .. | .flags .. | .len .. => pure ()
  | _ => throw (.constType typ.name)

def validateConst (t : Target) (c : ArgCommon) (val : UInt64) : Valid Unit := do
  let typ := t.type c.ref
  validateConstKind typ c.dir val
  -- output len args are exempt: they can hold the length of an array not known otherwise
  reject (c.dir == .dirOut && !typ.isLen && !typ.isDefaultVal val) (.outNotDefault typ.name)

mutual

/-- All result arguments of the tree, in the order they are visited. -/
def Arg.results : Arg → List ResultArg
  | .result r => [r]
  | .pointer _ res => res.results
  | .group _ inner => Arg.resultsList inner
  | .union _ opt _ => opt.results
  | _ => []

def Arg.resultsList : List Arg → List ResultArg
  | [] => []
  | a :: as => a.results ++ Arg.resultsList as

end

/-- Result arguments of a call in the order `validate` visits them. -/
def Call.results (c : Call) : List ResultArg := Arg.resultsList c.args ++ c.ret.toList

def Prog.results (p : Prog) : List ResultArg := p.calls.flatMap Call.results

/-- The `Res` of the argument with the given id; `none` if it is not in the tree. -/
def Prog.resOf (p : Prog) (id : ArgId) : Option (Option ArgId) :=
  (p.results.find? (·.id == id)).map ResultArg.res

def Prog.usesOf (p : Prog) (id : ArgId) : List ArgId :=
  (p.uses.filter (·.1 == id)).map Prod.snd

/-- Whether `u` is in the tree and refers to something else than `id`. -/
def Prog.brokenUse (p : Prog) (id u : ArgId) : Bool :=
  (p.resOf u).any (· != some id)

/-- The checks of `ResultArg.validate` on the argument's `Res`. -/
def validateRes (p : Prog) (args : List ArgId) (name : String) (r : ResultArg) : Valid Unit :=
  match r.res with
  | none => pure ()
  | some x => do
    reject (!args.contains x) (.outOfTreeResult name)
    reject (!p.uses.contains (x, r.id)) (.brokenLink name)

def validateResult (t : Target) (p : Prog) (ctx : ValidCtx) (r : ResultArg) : Valid ValidCtx :=
  match t.type r.ref with
  | .resource c _ desc => do
    reject ((p.usesOf r.id).any (p.brokenUse r.id)) .brokenUses
    reject (r.dir == .dirOut && r.val != 0 && r.val != desc.default)
      (.outResourceValue c.typeName r.val)
    validateRes p ctx.args c.typeName r
    reject (r.dir == .dirIn && p.isUsed r.id) (.usedDirIn c.typeName)
    reject (p.isUsed r.id && decide (8 < c.typeSize)) (.usedTooBig c.typeName c.typeSize)
    pure { ctx with uses := ctx.uses ++ p.usesOf r.id }
  | typ => throw (.resultType typ.name)

/-- `DataArg.validate` on the size and the bytes of the argument. Its second size check, made
for strings only, repeats the first since `TypeSize` is zero when the type is `Varlen`. -/
def validateData (t : Target) (ref : Ref) (size : UInt64) (bytes : List UInt8) : Valid Unit :=
  match t.type ref with
  | .buffer c kind _ _ _ _ => do
    reject (c.typeSize.any (· != size)) (.dataSize c.typeName size (c.typeSize.getD 0))
    reject (kind == .filename && escapingFilename bytes) .escapingFilename
  | typ => throw (.dataType typ.name)

/-- The address checks at the end of `PointerArg.validate`; `resSize` is the pointee's. -/
def validateAddress (t : Target) (p : PointerArg) (resSize : Option UInt64) : Valid Unit :=
  let name := (t.type p.ref).name
  if p.isSpecial resSize.isSome then
    reject (decide (t.specialPointers.length ≤ (-p.address).toNat)) (.specialPtr name p.address)
  else
    let maxMem := t.numPages * t.pageSize
    let size := if p.vmaSize == 0 then resSize.getD 0 else p.vmaSize
    reject (decide (maxMem ≤ p.address) || decide (maxMem < p.address + size))
      (.ptrAddress name p.address p.vmaSize size)

/-! ### Trees -/

/-- Pointers are always in. -/
def Target.effectiveDir (t : Target) (typ : Ref) (dir : Dir) : Dir :=
  match t.type typ with
  | .ptr .. => .dirIn
  | _ => dir

/-- The id the argument itself is known by, if any. -/
def Arg.ownIds : Arg → List ArgId
  | .result r => [r.id]
  | _ => []

/-- The checks `validateArg` makes before it calls the argument's own `validate`. -/
def validateCommon (t : Target) (ctx : ValidCtx) (arg : Arg) (typ : Ref) (dir : Dir) :
    Valid ValidCtx := do
  reject (arg.ownIds.any ctx.args.contains) .repeatedArg
  reject (arg.dir != t.effectiveDir typ dir && t.effectiveDir typ dir != .dirInOut)
    (.wrongDir arg.dir (t.effectiveDir typ dir))
  reject (!t.isAnyPtr arg.ref && arg.ref != typ) (.badType arg.ref typ)
  pure { ctx with args := ctx.args ++ arg.ownIds }

/-- The positions a group's inner args have to fit. -/
def groupSlots (t : Target) (ref : Ref) (dir : Dir) (n : ℕ) : Valid (List (Ref × Dir)) :=
  match t.type ref with
  | .struct c fields _ _ => do
    reject (n != fields.length) (.structFields c.typeName fields.length n)
    pure (fields.map fun f => (f.type, f.dir dir))
  | .array c elem kind rangeBegin rangeEnd => do
    reject (kind == .rangeLen && rangeBegin == rangeEnd && UInt64.ofNat n != rangeBegin)
      (.arrayElems c.typeName n rangeBegin)
    pure (List.replicate n (elem, dir))
  | typ => throw (.groupType typ.name)

def unionSlot (t : Target) (ref : Ref) (dir : Dir) (index : ℕ) : Valid (Ref × Dir) :=
  match t.type ref with
  | .union _ fields =>
    match fields[index]? with
    | some opt => pure (opt.type, opt.dir dir)
    | none => throw (.unionIndex index fields.length)
  | typ => throw (.unionType typ.name)

def pointeeSlot (t : Target) (ref : Ref) : Valid (Ref × Dir) :=
  match t.type ref with
  | .vma c _ _ => throw (.vmaData c.typeName)
  | .ptr _ elem elemDir => pure (elem, elemDir)
  | typ => throw (.ptrType typ.name)

/-- The checks of `PointerArg.validate` after the pointee's, up to the address. -/
def validatePointer (t : Target) (p : PointerArg) : Valid Unit :=
  match t.type p.ref with
  | .vma .. => pure ()
  | .ptr c _ _ => do
    reject (p.vmaSize != 0) (.ptrVmaSize c.typeName)
    reject (p.dir == .dirOut) (.ptrOut c.typeName)
  | typ => throw (.ptrType typ.name)

mutual

/-- `validateArg` followed by the argument's own `validate`. -/
def validateArg (t : Target) (p : Prog) (ctx : ValidCtx) (typ : Ref) (dir : Dir) :
    Arg → Valid ValidCtx
  | .const c val => do
    let ctx ← validateCommon t ctx (.const c val) typ dir
    validateConst t c val
    pure ctx
  | .result r => do
    let ctx ← validateCommon t ctx (.result r) typ dir
    validateResult t p ctx r
  | .data ref d bytes => do
    let ctx ← validateCommon t ctx (.data ref d bytes) typ dir
    validateData t ref (UInt64.ofNat bytes.length) bytes
    pure ctx
  | .outData ref size => do
    let ctx ← validateCommon t ctx (.outData ref size) typ dir
    validateData t ref size []
    pure ctx
  | .group c inner => do
    let ctx ← validateCommon t ctx (.group c inner) typ dir
    let slots ← groupSlots t c.ref (t.effectiveDir typ dir) inner.length
    validateArgs t p ctx slots inner
  | .union c opt index => do
    let ctx ← validateCommon t ctx (.union c opt index) typ dir
    let slot ← unionSlot t c.ref (t.effectiveDir typ dir) index
    validateArg t p ctx slot.1 slot.2 opt
  | .pointer a res => do
    let ctx ← validateCommon t ctx (.pointer a res) typ dir
    let slot ← pointeeSlot t a.ref
    let ctx ← validateArg t p ctx slot.1 slot.2 res
    validatePointer t a
    validateAddress t a (some (res.size t))
    pure ctx
  | .pointerNil a => do
    let ctx ← validateCommon t ctx (.pointerNil a) typ dir
    validatePointer t a
    validateAddress t a none
    pure ctx

def validateArgs (t : Target) (p : Prog) (ctx : ValidCtx) :
    List (Ref × Dir) → List Arg → Valid ValidCtx
  | slot :: slots, a :: as => do
    let ctx ← validateArg t p ctx slot.1 slot.2 a
    validateArgs t p ctx slots as
  | _, _ => pure ctx

end

/-! ### Calls -/

def validateRet (t : Target) (p : Prog) (ctx : ValidCtx) (c : Call) : Valid ValidCtx :=
  match c.syscall.ret, c.ret with
  | none, none => pure ctx
  | none, some _ => throw .retWithoutType
  | some _, none => throw .retAbsent
  | some typ, some r => do
    reject (r.res.isSome || r.val != 0 || r.opDiv != 0 || r.opAdd != 0) .retNotEmpty
    validateArg t p ctx typ .dirOut (.result r)

def validateCall (t : Target) (p : Prog) (ctx : ValidCtx) (c : Call) : Valid ValidCtx := do
  reject c.syscall.disabled .disabledCall
  reject (decide (0 < c.props.rerun) && decide (0 < c.props.failNth)) .rerunWithFailNth
  reject (c.args.length != c.syscall.args.length) (.numArgs c.syscall.args.length c.args.length)
  let ctx ← validateArgs t p ctx (c.syscall.args.map fun f => (f.type, .dirIn)) c.args
  validateRet t p ctx c

/-- The loop of `Prog.validate` over the calls. -/
def validateCalls (t : Target) (p : Prog) (ctx : ValidCtx) : List Call → Valid ValidCtx
  | [] => pure ctx
  | c :: cs => do
    let ctx ← (validateCall t p ctx c).mapError (.inCall c.syscall.name)
    validateCalls t p ctx cs

def Prog.validate (t : Target) (p : Prog) : Valid Unit := do
  let ctx ← validateCalls t p ⟨[], []⟩ p.calls
  reject (ctx.uses.any fun u => !ctx.args.contains u) .outOfTreeUse

end Brf
