import Mathlib.Data.Int.Notation
import Mathlib.Data.Nat.Notation

/-! # Minimization of slices

`pkg/bisect/minimize/slice.go`. The calls of `Pred` are kept with their answers; their number is
`predRuns`. -/

namespace Brf.Minimize

/-- `pred n` is the call number `n` of `Pred`, which may have a state or be flaky. `log2Above` is
the comparison of floating point numbers in `initialSplit`. -/
structure Config (T ε : Type) where
  pred : ℕ → List T → Except ε Bool
  maxSteps : ℤ
  maxChunks : ℤ
  log2Above : ℕ → ℤ → Bool

structure ArrayChunk (T : Type) where
  elements : List T
  final : Bool

structure PredCall (T ε : Type) where
  candidate : List T
  answer : Except ε Bool

inductive SliceError (ε : Type) where
  | pred (e : ε)
  | tooManyChunks

variable {T ε : Type}

def mergeChunks (before : List (ArrayChunk T)) (mid : List T) (after : List (ArrayChunk T)) :
    List T :=
  before.flatMap ArrayChunk.elements ++ mid ++ after.flatMap ArrayChunk.elements

def pieces (size : ℕ) : (fuel : ℕ) → List T → List (List T)
  | 0, _ => []
  | fuel + 1, l => if l.length = 0 then [] else l.take size :: pieces size fuel (l.drop size)

def splitChunk (chunk : List T) (parts : ℕ) : List (List T) :=
  let chunkSize := (chunk.length + parts - 1) / parts
  let chunkSize := if chunkSize = 0 then 1 else chunkSize
  pieces chunkSize chunk.length chunk

namespace Config

variable (cfg : Config T ε)

def limited (calls : List (PredCall T ε)) : Bool :=
  0 < cfg.maxSteps && cfg.maxSteps ≤ calls.length

def predRun (before : List (ArrayChunk T)) (mid : List T) (after : List (ArrayChunk T))
    (calls : List (PredCall T ε)) : Except ε Bool × List (PredCall T ε) :=
  if cfg.limited calls then (.ok false, calls)
  else
    let candidate := mergeChunks before mid after
    let answer := cfg.pred calls.length candidate
    (answer, calls ++ [⟨candidate, answer⟩])

/-- The loop of `splitChunks` over the parts of a chunk. -/
def testParts (someNeeded : Bool) (after : List (ArrayChunk T)) :
    (parts : List (List T)) → (foundNeeded : Bool) → (newChunks : List (ArrayChunk T)) →
    List (PredCall T ε) → Except ε (List (ArrayChunk T)) × List (PredCall T ε)
  | [], _, newChunks, calls => (.ok newChunks, calls)
  | part :: rest, foundNeeded, newChunks, calls =>
    if !rest.isEmpty || foundNeeded || !someNeeded then
      match cfg.predRun newChunks rest.flatten after calls with
      | (.error e, calls) => (.error e, calls)
      -- the part can be dropped
      | (.ok true, calls) => testParts someNeeded after rest foundNeeded newChunks calls
      | (.ok false, calls) =>
        testParts someNeeded after rest true (newChunks ++ [⟨part, false⟩]) calls
    else testParts someNeeded after rest true (newChunks ++ [⟨part, false⟩]) calls

/-- The loop of `splitChunks` over the chunks. -/
def splitLoop (someNeeded : Bool) (splitInto : ℕ) :
    (chunks newChunks : List (ArrayChunk T)) → List (PredCall T ε) →
    Except ε (List (ArrayChunk T)) × List (PredCall T ε)
  | [], newChunks, calls => (.ok newChunks, calls)
  | chunk :: after, newChunks, calls =>
    if chunk.final then splitLoop someNeeded splitInto after (newChunks ++ [chunk]) calls
    else
      let parts := splitChunk chunk.elements splitInto
      if parts.length = 1 && someNeeded then
        splitLoop someNeeded splitInto after (newChunks ++ [{ chunk with final := true }]) calls
      else
        match cfg.testParts someNeeded after parts false newChunks calls with
        | (.error e, calls) => (.error e, calls)
        | (.ok newChunks, calls) => splitLoop someNeeded splitInto after newChunks calls

def initialSplit (size : ℕ) : ℕ :=
  if 0 < cfg.maxSteps && cfg.log2Above size cfg.maxSteps then cfg.maxSteps.toNat else 3

def done (chunks : List (ArrayChunk T)) (calls : List (PredCall T ε)) : Bool :=
  cfg.limited calls || chunks.all ArrayChunk.final

/-- The loop of `bisect`: the slice and the error that are returned. -/
def bisectLoop : (fuel : ℕ) → List (ArrayChunk T) → List (PredCall T ε) →
    Option ((List T × Option (SliceError ε)) × List (PredCall T ε))
  | 0, _, _ => none
  | fuel + 1, chunks, calls =>
    if cfg.done chunks calls then some ((mergeChunks chunks [] [], none), calls)
    else if 0 < cfg.maxChunks && cfg.maxChunks < chunks.length then
      some ((mergeChunks chunks [] [], some .tooManyChunks), calls)
    else
      match cfg.splitLoop true 2 chunks [] calls with
      | (.error e, calls) => some (([], some (.pred e)), calls)
      | (.ok chunks, calls) => bisectLoop fuel chunks calls

/-- `Slice`, with the calls of `Pred` that it made. -/
def slice (slice : List T) : Option ((List T × Option (SliceError ε)) × List (PredCall T ε)) :=
  match cfg.splitLoop false (cfg.initialSplit slice.length) [⟨slice, false⟩] [] [] with
  | (.error e, calls) => some (([], some (.pred e)), calls)
  | (.ok chunks, calls) => cfg.bisectLoop (slice.length + 1) chunks calls

end Config

end Brf.Minimize
