import Brf.Lib.Dict

/-! # Subsystems

How the parents of subsystems are found, and the subsystems of a bug. Subsystems are pointers, and
`parents` holds their `Parents` fields. What the source iterates over a map for is done in an order
that is not known. -/

namespace Brf.Subsystem

open Brf.Lib

variable {S : Type} [DecidableEq S]

/-- The two nested maps, with both keys as one. -/
abbrev CoincidenceMatrix (S : Type) := Dict (S × S) ℕ

namespace CoincidenceMatrix

variable (cm : CoincidenceMatrix S)

def get (a b : S) : ℕ := (cm.lookup (a, b)).getD 0

def count (a : S) : ℕ := cm.get a a

def inc (a b : S) : CoincidenceMatrix S := cm.insert (a, b) (cm.get a b + 1)

def record (items : List S) : CoincidenceMatrix S :=
  items.foldl (fun cm a => items.foldl (fun cm b => cm.inc a b) cm) cm

def recordAll (calls : List (List S)) : CoincidenceMatrix S := calls.foldl record ∅

/-- The calls of the callback of `NonEmptyPairs`. -/
def nonEmptyPairs (order : Shuffle ((S × S) × ℕ)) : List ((S × S) × ℕ) :=
  (order.run cm.toPairs).filter fun e => e.1.1 ≠ e.1.2

end CoincidenceMatrix

/-- The closure in `ReachableParents`. A loop panics. -/
def dfs (parents : S → List S) (subsystem : S) : ℕ → S → List S → Option (List S)
  | 0, _, _ => none
  | fuel + 1, node, ret => (parents node).foldlM (fun ret p =>
      if p = subsystem then none
      else if p ∈ ret then some ret
      else dfs parents subsystem fuel p (ret ++ [p])) ret

def reachableParents (fuel : ℕ) (parents : S → List S) (subsystem : S) : Option (List S) :=
  dfs parents subsystem fuel subsystem []

/-- The callback in `setParents`, which divides by the count of `a`. -/
def addParent (fuel : ℕ) (cm : CoincidenceMatrix S) (list : List S) (parents : S → List S) :
    (S × S) × ℕ → Option (S → List S)
  | ((a, b), count) =>
    if a ∉ list ∨ b ∉ list then some parents
    else if cm.count a = 0 then none
    else if 2 * count / cm.count a ≥ 1 ∧ cm.count a < cm.count b then do
      let parents := Function.update parents a (parents a ++ [b])
      let _ ← reachableParents fuel parents a
      return parents
    else some parents

def reduceParents (fuel : ℕ) (parents : S → List S) (s : S) : Option (S → List S) := do
  let removeParents ← (parents s).mapM (reachableParents fuel parents)
  return Function.update parents s ((parents s).filter (· ∉ removeParents.flatten))

def transitiveReduction (fuel : ℕ) (list : List S) (parents : S → List S) :
    Option (S → List S) :=
  list.foldlM (reduceParents fuel) parents

/-- The parents in front of the reduction. -/
def addParents (fuel : ℕ) (cm : CoincidenceMatrix S) (order : Shuffle ((S × S) × ℕ))
    (list : List S) (parents : S → List S) : Option (S → List S) :=
  (cm.nonEmptyPairs order).foldlM (addParent fuel cm list) parents

def setParents (fuel : ℕ) (cm : CoincidenceMatrix S) (order : Shuffle ((S × S) × ℕ))
    (list : List S) (parents : S → List S) : Option (S → List S) := do
  transitiveReduction fuel list (← addParents fuel cm order list parents)

def removeParents (fuel : ℕ) (parents : S → List S) (subsystems : List S) : Option (List S) := do
  let ignore ← subsystems.mapM (reachableParents fuel parents)
  return subsystems.filter (· ∉ ignore.flatten)

/-- What `FromPath` and `FromProg` answer for a crash, if it has a guilty path and a reproducer. -/
structure Crash (S : Type) where
  guilty : Option (List S)
  repro : Option (List S)

/-- `mostVoted` with any cut-off: it picks some of the subsystems that were counted. -/
structure Voting (S : Type) [DecidableEq S] where
  mostVoted : Dict S ℕ → List S
  mem_keys : ∀ counts, ∀ s ∈ mostVoted counts, s ∈ counts

def addVotes (n : ℕ) (counts : Dict S ℕ) (entry : S) : Dict S ℕ :=
  counts.insert entry ((counts.lookup entry).getD 0 + n)

/-- `reproCounts` and `fromRepro` with one more subsystem of a reproducer. -/
def addRepro (reproCount : ℕ) (st : Dict S ℕ × List S) (subsystem : S) : Dict S ℕ × List S :=
  let reproCounts := addVotes 1 st.1 subsystem
  (reproCounts, if reproCounts.lookup subsystem = some reproCount then st.2 ++ [subsystem] else st.2)

def reproCount (crashes : List (Crash S)) : ℕ := crashes.countP (·.repro.isSome)

/-- The subsystems of all reproducers. -/
def commonRepro (crashes : List (Crash S)) : List S :=
  ((crashes.filterMap Crash.repro).flatten.foldl (addRepro (reproCount crashes)) (∅, [])).2

/-- `TracedExtract`. The voting differs in the cut-off, 66% in `leading` and 33% in `all`. -/
def extract (fuel : ℕ) (parents : S → List S) (leading all : Voting S) (crashes : List (Crash S)) :
    Option (List S) := do
  let subsystems ← removeParents fuel parents (crashes.filterMap Crash.guilty).flatten
  let counts := subsystems.foldl (addVotes 1) ∅
  let vote (fromRepro : List S) := removeParents fuel parents
    (all.mostVoted (fromRepro.foldl (addVotes (reproCount crashes)) counts))
  if (commonRepro crashes).isEmpty then vote []
  else
    let fromRepro ← removeParents fuel parents (commonRepro crashes)
    let reached ← fromRepro.mapM (reachableParents fuel parents)
    let newSubsystems := (fromRepro.zip reached).filter fun e =>
      subsystems.any fun s => s = e.1 ∨ s ∈ e.2
    if newSubsystems.length > 0 then return newSubsystems.map Prod.fst
    else if reproCount crashes ≥ 3 then return fromRepro ++ leading.mostVoted counts
    else vote fromRepro

end Brf.Subsystem
