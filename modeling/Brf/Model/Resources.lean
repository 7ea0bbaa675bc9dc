import Brf.Lib.Saturation
import Brf.Model.Types

/-! # Resources

`prog/resources.go`: which resources a call takes and creates, which calls create a resource, and
which of the enabled calls can get all resources that they take. -/

namespace Brf

open Brf.Lib

structure ResourceTarget extends Target where
  os : String
  resources : List ResourceDesc

/-- A pointer to a resource: to `timespecRes`, which is not described anywhere, or to one of
the target. -/
inductive Res where
  | timespec
  | declared (desc : ResourceDesc)
deriving DecidableEq

namespace Res

def name : Res → String
  | timespec => "timespec"
  | declared desc => desc.name

def kind : Res → List String
  | timespec => ["timespec"]
  | declared desc => desc.kind

end Res

/-! ### The types of a call -/

structure TypeCtx where
  dir : Dir
  optional : Bool

/-- A type, with the direction and the optionality of its surroundings. With its own optionality
added it is a key of `seen`. -/
structure Place where
  type : Ref
  dir : Dir
  optional : Bool
deriving DecidableEq

/-- The places right below a type, and the places seen then. -/
def Target.below (t : Target) (seen : List Place) (place : Place) : List Place × List Place :=
  match t.type place.type with
  | .ptr _ elem elemDir => ([⟨elem, elemDir, place.optional⟩], seen)
  | .array _ elem _ _ _ => ([⟨elem, place.dir, place.optional⟩], seen)
  | .struct _ fields _ _ | .union _ fields =>
    -- prune recursion via pointers to structs and unions
    if place ∈ seen then ([], seen)
    else (fields.map fun f => ⟨f.type, f.dir place.dir, place.optional⟩, place :: seen)
  | _ => ([], seen)

/-- `foreachTypeImpl` in preorder. The stack holds the places that the recursion has still to
visit, and `stop` is what sets `ctx.Stop`. -/
def Target.foreachType (t : Target) (stop : Typ → Bool) :
    (fuel : ℕ) → (seen stack : List Place) → Option (List (Typ × TypeCtx))
  | _, _, [] => some []
  | 0, _, _ :: _ => none
  | fuel + 1, seen, place :: stack =>
    let typ := t.type place.type
    let place := { place with optional := place.optional || typ.isOptional }
    let (inner, seen) := if stop typ then ([], seen) else t.below seen place
    (t.foreachType stop fuel seen (inner ++ stack)).map ((typ, ⟨place.dir, place.optional⟩) :: ·)

def Syscall.places (c : Syscall) : List Place :=
  (c.args.map fun f => ⟨f.type, .dirIn, false⟩) ++ (c.ret.map fun r => ⟨r, .dirOut, false⟩).toList

def Target.foreachCallType (t : Target) (fuel : ℕ) (stop : Typ → Bool) (c : Syscall) :
    Option (List (Typ × TypeCtx)) :=
  t.foreachType stop fuel [] c.places

/-! ### The resources of a call -/

/-- A syscall with the fields that `populateResourceCtors` sets. `created` is its entry of
`callsResources`. -/
structure CallResources where
  call : Syscall
  created : List ResourceDesc
  inputResources : List Res
  outputResources : List Res
deriving DecidableEq

/-- Optional types and unions create nothing for sure. -/
def stopsCreation (typ : Typ) : Bool :=
  typ.isOptional ||
    match typ with
    | .union .. => true
    | _ => false

def createdResource : Typ × TypeCtx → Option ResourceDesc
  | (.resource c _ desc, ctx) => if c.isOptional || ctx.dir = .dirIn then none else some desc
  | _ => none

def inputResource (os : String) : Typ × TypeCtx → Option Res
  | (typ, ctx) =>
    if ctx.dir = .dirOut then none
    else
      match typ with
      | .resource _ _ desc => if ctx.optional then none else some (.declared desc)
      | .struct c _ _ _ =>
        if os = "linux" && (c.typeName = "timespec" || c.typeName = "timeval") then some .timespec
        else none
      | _ => none

namespace ResourceTarget

def syscallMap (t : ResourceTarget) (name : String) : Option Syscall :=
  (t.syscalls.filter fun c => c.name = name).getLast?

def getInputResources (t : ResourceTarget) (fuel : ℕ) (c : Syscall) : Option (List Res) := do
  let visits ← t.foreachCallType fuel (fun _ => false) c
  some (visits.filterMap (inputResource t.os)).eraseDups

def callResources (t : ResourceTarget) (fuel : ℕ) (c : Syscall) : Option CallResources := do
  let visits ← t.foreachCallType fuel stopsCreation c
  let created := (visits.filterMap createdResource).eraseDups
  let inputResources ← t.getInputResources fuel c
  let special := if t.syscallMap "clock_gettime" = some c then [Res.timespec] else []
  some ⟨c, created, inputResources, created.map .declared ++ special⟩

/-- The syscalls after `populateResourceCtors`. -/
def populateResourceCtors (t : ResourceTarget) (fuel : ℕ) : Option (List CallResources) :=
  t.syscalls.mapM (t.callResources fuel)

end ResourceTarget

/-! ### Constructors -/

/-- Whether a resource of kind `src` can be passed as one of kind `dst`. A less specialized one
can be passed only if `precise` is not set. -/
def isCompatibleResourceImpl (dst src : List String) (precise : Bool) : Bool :=
  if src.length < dst.length && precise then false
  else
    let dst := if src.length < dst.length then dst.take src.length else dst
    let src := if dst.length < src.length then src.take dst.length else src
    (dst.zip src).all fun k => k.1 = k.2

structure ResourceCtor where
  call : ℕ
  precise : Bool

namespace ResourceTarget

/-- The loop of `populateResourceCtors` over the calls, for one resource. -/
def resourceCtors (calls : List CallResources) (res : ResourceDesc) : List ResourceCtor :=
  calls.zipIdx.flatMap fun (c, i) =>
    let ok precise :=
      c.created.any fun callRes => isCompatibleResourceImpl res.kind callRes.kind precise
    (if ok true then [⟨i, true⟩] else []) ++ (if ok false then [⟨i, false⟩] else [])

/-- The `Ctors` of a resource; only those of the target have any. -/
def ctors (t : ResourceTarget) (calls : List CallResources) : Res → List ResourceCtor
  | .timespec => []
  | .declared desc => if desc ∈ t.resources then resourceCtors calls desc else []

def calcResourceCtors (t : ResourceTarget) (calls : List CallResources) (res : Res)
    (precise : Bool) : List CallResources :=
  let listed := (t.ctors calls res).filter fun ctor => !precise || ctor.precise
  let special :=
    if res.kind.head? = some Res.timespec.name then
      calls.filter fun c => t.syscallMap "clock_gettime" = some c.call
    else []
  (listed.filterMap fun ctor => calls[ctor.call]?) ++ special

end ResourceTarget

/-! ### Enabled calls -/

/-- A call needs the names of its inputs, and gives all names in the kinds of its outputs. -/
def callRules : Rules CallResources String where
  needs c := c.inputResources.map Res.name
  gives c := c.outputResources.flatMap Res.kind

/-- `supported` and `canCreate`. A map is visited in an order of its own in every round. -/
def transitivelyEnabled (orders : ℕ → Shuffle CallResources) (enabled : List CallResources) :
    Option (Rules.State CallResources String) :=
  callRules.saturate enabled orders (enabled.length + 1) 0 ⟨[], []⟩

structure Disabling where
  disabled : Dict CallResources String
  ctors : Dict String (List String)

def disabledText (res : Res) (names : List String) : String :=
  "no syscalls can create resource " ++ res.name ++
    ", enable some syscalls that can create it [" ++ " ".intercalate names ++ "]"

namespace ResourceTarget

def ctorNames (t : ResourceTarget) (calls : List CallResources) (res : Res) : List String :=
  (t.calcResourceCtors calls res true).map fun c => c.call.name

/-- The loop of `TransitivelyEnabledCalls` over the enabled calls. The names of constructors are
kept for the next call that lacks a resource of the same name. -/
def disable (t : ResourceTarget) (calls : List CallResources)
    (found : Rules.State CallResources String) (d : Disabling) (c : CallResources) : Disabling :=
  if c ∈ found.applied then d
  else
    match c.inputResources.find? fun res => res.name ∉ found.facts with
    | none => d
    | some res =>
      let known := (d.ctors.lookup res.name).getD []
      let names := if known = [] then t.ctorNames calls res else known
      ⟨d.disabled.insert c (disabledText res names), d.ctors.insert res.name names⟩

/-- The supported calls and the disabled ones. `none` is the panic about lost syscalls. -/
def transitivelyEnabledCalls (t : ResourceTarget) (calls : List CallResources)
    (orders : ℕ → Shuffle CallResources) (order : Shuffle CallResources)
    (enabled : List CallResources) :
    Option (List CallResources × Dict CallResources String) := do
  let found ← transitivelyEnabled orders enabled
  let d := (order.run enabled).foldl (t.disable calls found) ⟨∅, ∅⟩
  if enabled.length ≠ found.applied.length + d.disabled.keys.length then none
  else some (found.applied, d.disabled)

end ResourceTarget

end Brf
