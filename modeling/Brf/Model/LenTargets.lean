import Brf.Model.Prog

/-! # Length targets

`checkLenTargets` of `pkg/compiler/check.go`: which field or parent the path of a `len` or the
buffer of a `csum` refers to. The checker walks the declarations; here it walks the types they
compile to, which keep the names of structs and fields, the paths and the buffers. A node of the
syntax tree is told from another by the field whose type it is. Parents are listed innermost
first. -/

namespace Brf

def parentRef : String := "parent"

def syscallRef : String := "syscall"

/-- A field of a struct or union, or an argument of the syscall where `owner` is missing. -/
structure FieldSite where
  owner : Option Ref
  index : ℕ
deriving DecidableEq

structure ParentDesc where
  owner : Option Ref
  name : String
  fields : List Field
deriving DecidableEq

/-- The outermost parent, which has no name. -/
def Syscall.parentDesc (s : Syscall) : ParentDesc := ⟨none, "", s.args⟩

/-- The parent a struct or union is to its fields; the options of a union are no targets. -/
def Target.parentDesc (t : Target) (r : Ref) : ParentDesc :=
  match t.type r with
  | .struct _ fields _ _ => ⟨some r, (t.type r).templateName, fields⟩
  | typ => ⟨some r, typ.templateName, []⟩

/-- Whether a target that is no field of the innermost parent refers to this one. -/
def ParentDesc.answers (p : ParentDesc) (target : String) : Bool :=
  p.name ≠ "" ∧ (p.name = target ∨ target = parentRef) ∨ p.name = "" ∧ target = syscallRef

def Target.derefPointers (t : Target) : (fuel : ℕ) → Ref → Ref
  | 0, r => r
  | fuel + 1, r =>
    match t.type r with
    | .ptr _ elem _ => t.derefPointers fuel elem
    | _ => r

inductive LenError where
  | parentInPath
  | syscallInMiddle
  | noArgumentName
  | refersToItself (target : String)
  | notStruct (target : String)
  | mustReferToFields
  | doesNotExist (target : String)
deriving DecidableEq

/-- A step from the fields of one parent: to one of them, or to the `k`-th parent around. -/
inductive LenStep where
  | field (i : ℕ)
  | up (k : ℕ)
deriving DecidableEq

/-- `checkLenTargetRec`. The source only reports errors; here the steps taken are returned. -/
def checkLenTargetRec (t : Target) (fuel : ℕ) (t0 : FieldSite) (offsetof : Bool) :
    List String → List ParentDesc → Except LenError (List LenStep)
  | [], _ => .ok []
  | target :: _, [] => .error (.doesNotExist target)
  | target :: targets, parent :: outer =>
    match parent.fields.findIdx? (·.name = target) with
    | some i =>
      if t0 = ⟨parent.owner, i⟩ then .error (.refersToItself target)
      else if targets.isEmpty then .ok [.field i]
      else
        let r := ((parent.fields[i]?).map fun f => t.derefPointers fuel f.type).getD 0
        match t.type r with
        | .struct .. =>
          (checkLenTargetRec t fuel t0 offsetof targets (t.parentDesc r :: parent :: outer)).map
            (.field i :: ·)
        | _ => .error (.notStruct target)
    | none =>
      match (parent :: outer).findIdx? (·.answers target) with
      | some k =>
        if targets.isEmpty then
          if offsetof then .error .mustReferToFields else .ok [.up k]
        else
          (checkLenTargetRec t fuel t0 offsetof targets ((parent :: outer).drop k)).map (.up k :: ·)
      | none => .error (.doesNotExist target)

/-- A call of `checkLenTarget`; `offsetof` is about the identifier of the type. -/
structure LenCheck where
  t0 : FieldSite
  offsetof : Bool
  targets : List String
  parents : List ParentDesc
deriving DecidableEq

/-- The loop of `checkLenTarget` over the targets, numbered from `i` out of `n`. -/
def checkRefs (n : ℕ) : (i : ℕ) → List String → Except LenError Unit
  | _, [] => .ok ()
  | i, target :: targets =>
    if target = parentRef ∧ n ≠ 1 then .error .parentInPath
    else if target = syscallRef ∧ i ≠ 0 then .error .syscallInMiddle
    else if target = syscallRef ∧ n = 1 then .error .noArgumentName
    else checkRefs n (i + 1) targets

def checkLenTarget (t : Target) (fuel : ℕ) (c : LenCheck) : Except LenError (List LenStep) := do
  checkRefs c.targets.length 0 c.targets
  checkLenTargetRec t fuel c.t0 c.offsetof c.targets c.parents

/-- `checkLenType`, with the checks it makes and the structs `checked` before and after; `none`
when the fuel runs out. -/
def checkLenType (t : Target) : (fuel : ℕ) → FieldSite → Ref → List ParentDesc → List String →
    Option (List LenCheck × List String)
  | 0, _, _, _, _ => none
  | fuel + 1, t0, r, parents, checked =>
    match t.type r with
    | .struct c fields _ _ | .union c fields =>
      -- prune recursion
      if c.typeName ∈ checked then some ([], checked)
      else
        fields.zipIdx.foldlM (fun (checks, checked) (f, i) => do
          let (more, checked) ←
            checkLenType t fuel ⟨some r, i⟩ f.type (t.parentDesc r :: parents) checked
          some (checks ++ more, checked)) ([], c.typeName :: checked)
    | .len _ _ offset path => some ([⟨t0, offset, path, parents⟩], checked)
    | .csum _ _ buf _ => some ([⟨t0, false, [buf], parents⟩], checked)
    | .ptr _ elem _ | .array _ elem _ _ _ => checkLenType t fuel t0 elem parents checked
    | _ => some ([], checked)

def lenChecks (t : Target) (fuel : ℕ) (s : Syscall) (i : ℕ) (arg : Field) :
    Option (List LenCheck) :=
  (checkLenType t fuel ⟨none, i⟩ arg.type [s.parentDesc] []).map Prod.fst

/-- `checkLenTargets` finds no error. -/
def checkLenTargets (t : Target) (fuel : ℕ) : Bool :=
  t.syscalls.all fun s => s.args.zipIdx.all fun (arg, i) =>
    (lenChecks t fuel s i arg).any (·.all fun c => (checkLenTarget t fuel c).isOk)

end Brf
