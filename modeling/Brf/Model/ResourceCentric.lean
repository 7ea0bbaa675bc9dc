import Brf.Lib.Gen
import Brf.Model.Prog

/-! # Resource-centric selection

`resourceCentric` of `prog/rand.go`. Parameters are whether a resource can be passed where another
is requested, `RemoveCall`, and the number that `biasedRand` makes of one draw. -/

namespace Brf

open Brf.Lib

/-- The body of the loop of `rand.Perm`; `m` has the elements that are set. -/
def permStep (i : ℕ) (m : List ℕ) : Gen (List ℕ) :=
  (fun j => (m ++ [m.getD j 0]).set j i) <$> Gen.intn (i + 1)

def perm (n : ℕ) : Gen (List ℕ) := Gen.loop permStep 0 n []

/-- What `resourceCentric` returns: the result argument refers to `resource`. The index of the
program in the corpus is not returned by the source. -/
structure Centric where
  idx : ℕ
  resource : ResultArg
  calls : List Call

/-- The loop over the indices of a permutation of the corpus; `resources` are the compatible
resources of a program. -/
def selectResource (resources : Prog → List ResultArg) (corpus : List Prog) :
    List ℕ → Gen (Option (ℕ × Prog × ResultArg))
  | [] => pure none
  | idx :: rest =>
    match corpus[idx]? with
    | none => failure
    | some p =>
      if resources p = [] then selectResource resources corpus rest
      else (fun resource => some (idx, p, resource)) <$> Gen.pick (resources p)

section ResourceCentric

variable (t : Target) (isCompatibleResource : String → String → Bool)
  (removeCall : Prog → ℕ → Prog) (biasedRand : ℤ → ℕ → ℕ → ℤ) (corpus : List Prog)
  (typeName : String)

def getCompatibleResources (p : Prog) : List ResultArg :=
  (p.calls.zipIdx.flatMap fun (c, n) => c.visits t n).filterMap fun v =>
    match v.arg with
    | .result a =>
      if p.isUsed a.id && a.dir == .dirOut && isCompatibleResource typeName (t.type a.ref).name
      then some a else none
    | _ => none

/-- The loop that removes unrelated calls, from the call before `idx` down. -/
def removeUnrelated : (idx : ℕ) → (relatedRes : List ArgId) → Prog → Prog
  | 0, _, p => p
  | idx + 1, relatedRes, p =>
    let args := (p.calls[idx]?.toList.flatMap fun c => c.visits t idx).filterMap fun v =>
      match v.arg with
      | .result a => some a
      | _ => none
    let newResources := args.filterMap fun a => a.res.filter (· ∉ relatedRes)
    let includeCall := args.any fun a => a.id ∈ relatedRes || a.res.any (· ∈ relatedRes)
    if includeCall then removeUnrelated idx (relatedRes ++ newResources) p
    else removeUnrelated idx relatedRes (removeCall p idx)

/-- The program with the calls related to the resource. -/
def relatedCalls (p : Prog) (resource : ResultArg) : Prog :=
  removeUnrelated t removeCall p.calls.length [resource.id] p

def resourceCentric : Gen (Option Centric) := do
  let order ← perm corpus.length
  let selected ← selectResource (getCompatibleResources t isCompatibleResource typeName) corpus
    (List.range order.length)
  match selected with
  | none => pure none
  | some (idx, p, resource) =>
    let p := relatedCalls t removeCall p resource
    -- the named result `calls` is not assigned yet
    let calls : List Call := []
    (fun draw =>
      let biasedLen := (2 + biasedRand (calls.length - 1) 10 draw).toNat
      let p := (List.range' biasedLen (calls.length - biasedLen)).foldl removeCall p
      some ⟨idx, resource, p.calls⟩) <$> Gen.intn (2 ^ 63)

end ResourceCentric

end Brf
