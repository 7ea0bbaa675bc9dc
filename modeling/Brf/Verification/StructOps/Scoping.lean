import Brf.Verification.StructOps.Names
import Mathlib.Data.List.Forall2

/-! # Block scoping of generated bodies

`ScopedBody` says which names the statements of a body may use. Locals of a block are
visible to later statements of the block and to the blocks nested in them. -/

namespace Brf.StructOps

open List

/-- The locals a statement declares in its own block. -/
def StructOpsStmt.locals : StructOpsStmt → List TypedVal
  | .ctxRead _ _ ctype var | .arith var ctype _ _ _ => [⟨var, ctype⟩]
  | .kfuncCall _ _ var ctype _ => if var = "" then [] else [⟨var, ctype⟩]
  | _ => []

/-- The variable at the root of an lvalue such as `sf3->avg_pacing_rate`. -/
def accessorBase (accessor : String) : String :=
  String.ofList (accessor.toList.takeWhile (· ≠ '-'))

def Declared (env : List TypedVal) (name : String) : Prop :=
  ∃ t, ⟨name, t⟩ ∈ env

def DeclaredScalar (env : List TypedVal) (name : String) : Prop :=
  ∃ t, ⟨name, t⟩ ∈ env ∧ scalarCType t

/-- An argument is declared with the parameter's type up to a leading `const`, or it is a
literal passed for a `bool`. -/
def ArgFits (env : List TypedVal) (arg paramType : String) : Prop :=
  (∃ t, ⟨arg, t⟩ ∈ env ∧ normalizeCType t = normalizeCType paramType) ∨
    (normalizeCType paramType = "bool" ∧ (arg = "true" ∨ arg = "false"))

mutual

/-- Every name a statement uses is visible in `env`. -/
def ScopedStmt (kfuncs : List BpfKfunc) (env : List TypedVal) : StructOpsStmt → Prop
  | .ctxRead _ accessor _ _ | .ctxWrite _ accessor _ _ => Declared env (accessorBase accessor)
  | .arith _ _ srcVar _ _ => DeclaredScalar env srcVar
  | .kfuncCall kfuncIdx args _ _ _ =>
    ∃ kf, kfuncs[kfuncIdx]? = some kf ∧ List.Forall₂ (ArgFits env) args kf.argTypes
  | .subflowIter _ var _ body =>
    ScopedBody kfuncs (env ++ [⟨var, "struct mptcp_subflow_context *"⟩]) body
  | .ifElse condVar _ _ ifBody elseBody =>
    DeclaredScalar env condVar ∧ ScopedBody kfuncs env ifBody ∧ ScopedBody kfuncs env elseBody

def ScopedBody (kfuncs : List BpfKfunc) (env : List TypedVal) : List StructOpsStmt → Prop
  | [] => True
  | st :: rest => ScopedStmt kfuncs env st ∧ ScopedBody kfuncs (env ++ st.locals) rest

end

mutual

/-- All names a statement declares, those of nested blocks included. -/
def StructOpsStmt.declaredNames : StructOpsStmt → List String
  | .ctxRead _ _ _ var => [var]
  | .ctxWrite .. => []
  | .arith var _ _ _ _ => [var]
  | .kfuncCall _ _ var _ _ => if var = "" then [] else [var]
  | .subflowIter iterId var _ body => [var, iterVar iterId] ++ declaredNames body
  | .ifElse _ _ _ ifBody elseBody => declaredNames ifBody ++ declaredNames elseBody

def declaredNames : List StructOpsStmt → List String
  | [] => []
  | st :: rest => st.declaredNames ++ declaredNames rest

end

theorem declaredNames_append (xs ys : List StructOpsStmt) :
    declaredNames (xs ++ ys) = declaredNames xs ++ declaredNames ys := by
  induction xs with
  | nil => simp [declaredNames]
  | cons st rest ih => simp [declaredNames, ih, append_assoc]

def envAfter (env : List TypedVal) (body : List StructOpsStmt) : List TypedVal :=
  env ++ body.flatMap StructOpsStmt.locals

@[simp] theorem envAfter_nil (env : List TypedVal) : envAfter env [] = env := by
  simp [envAfter]

@[simp] theorem envAfter_snoc (env : List TypedVal) (body : List StructOpsStmt)
    (st : StructOpsStmt) : envAfter env (body ++ [st]) = envAfter env body ++ st.locals := by
  simp [envAfter, append_assoc]

variable {kfuncs : List BpfKfunc} {body : List StructOpsStmt} {st : StructOpsStmt}

theorem scopedBody_snoc {env : List TypedVal} : ScopedBody kfuncs env (body ++ [st]) ↔
    ScopedBody kfuncs env body ∧ ScopedStmt kfuncs (envAfter env body) st := by
  induction body generalizing env with
  | nil => simp [ScopedBody]
  | cons s rest ih =>
    simp only [cons_append, ScopedBody, ih, and_assoc, envAfter, flatMap_cons, append_assoc]

/-! ### Control-flow discipline of a body -/

mutual

/-- What the renderer relies on: a guarded call is a KF_RET_NULL pointer call outside every
`noReturn` block, iterators stand only where they are allowed, and loops and branches are
`noReturn` blocks. -/
def DisciplinedStmt (kfuncs : List BpfKfunc) (noReturn allowIter : Bool) :
    StructOpsStmt → Prop
  | .kfuncCall kfuncIdx _ var _ nullGuard =>
    ∃ kf, kfuncs[kfuncIdx]? = some kf ∧ isSkeletonKfunc kf = false ∧
      nullGuard = (kf.needsNullGuard && decide (var ≠ "")) ∧ (nullGuard → noReturn = false)
  | .subflowIter iterId var sock body =>
    allowIter ∧ var = subflowVar iterId ∧ sock = "(struct sock *)msk" ∧
      DisciplinedBody kfuncs true false body
  | .ifElse _ _ _ ifBody elseBody =>
    DisciplinedBody kfuncs true allowIter ifBody ∧ DisciplinedBody kfuncs true allowIter elseBody
  | _ => True

def DisciplinedBody (kfuncs : List BpfKfunc) (noReturn allowIter : Bool) :
    List StructOpsStmt → Prop
  | [] => True
  | st :: rest =>
    DisciplinedStmt kfuncs noReturn allowIter st ∧ DisciplinedBody kfuncs noReturn allowIter rest

end

theorem disciplinedBody_snoc {noReturn allowIter : Bool} :
    DisciplinedBody kfuncs noReturn allowIter (body ++ [st]) ↔
      DisciplinedBody kfuncs noReturn allowIter body ∧
        DisciplinedStmt kfuncs noReturn allowIter st := by
  induction body with
  | nil => simp [DisciplinedBody]
  | cons s rest ih => simp [DisciplinedBody, ih, and_assoc]

end Brf.StructOps
