import Brf.Lib.Gen
import Brf.Model.Checksum
import Brf.Model.Hints

/-! # Mutation of sizes

`mutateSize` of `prog/size.go` with the random integers of `prog/rand.go`. A generator that aborts
is a panic; the number that `biasedRand` makes of one draw is a parameter. -/

namespace Brf

open Brf.Lib Gen

def IntTypeCommon.typeBitSize (c : IntTypeCommon) : UInt64 :=
  if c.argFormat ≠ .native ∧ c.argFormat ≠ .bigEndian then 64
  else if c.bitfieldLen ≠ 0 then c.bitfieldLen
  else c.typeSize * 8

def rand64 : Gen UInt64 := do
  let v ← intn (2 ^ 63)
  let high ← nOutOf 1 2
  pure (if high then UInt64.ofNat v ||| 0x8000000000000000 else UInt64.ofNat v)

def specialIntIndex (i : ℕ) : ℕ := specialInts.countP fun v => v.toNat < 2 ^ (8 * i)

/-- The first `switch` of `randInt`. -/
def randIntBase (bits : ℕ) (v : UInt64) : Gen UInt64 := do
  if ← nOutOf 100 182 then pure (v % 10)
  else if ← (if 8 ≤ bits then nOutOf 50 82 else pure false) then
    if bits / 8 < 9 then pick (specialInts.take (specialIntIndex (bits / 8))) else failure
  else if ← nOutOf 10 32 then pure (v % 256)
  else if ← nOutOf 10 22 then pure (v % 0x1000)
  else if ← nOutOf 10 12 then pure (v % 0x10000)
  else pure (v % 0x80000000)

/-- The second `switch` of `randInt`. -/
def randIntSign (bits : ℕ) (v : UInt64) : Gen UInt64 := do
  if ← nOutOf 100 107 then pure v
  else if ← nOutOf 5 7 then pure (-v)
  else (fun k => v <<< UInt64.ofNat k) <$> intn bits

def randInt (bits : ℕ) : Gen UInt64 := do
  let v ← rand64
  let v ← randIntBase bits v
  let v ← randIntSign bits v
  if bits = 0 ∨ 64 < bits then failure else pure (truncateToBitSize v bits)

/-- `randRangeInt` without an alignment. -/
def randRangeInt (start stop : UInt64) (bitSize : ℕ) : Gen UInt64 := do
  if ← nOutOf 1 100 then randInt bitSize
  else if stop - start + 1 = 0 then failure
  else (fun v => start + UInt64.ofNat v % (stop - start + 1)) <$> intn (2 ^ 64)

/-- The loop of `mutateSize` over the fields: the inner argument of the first one with the name.
The outer `none` is an index out of range in the fields. -/
def findNamed (t : Target) (name : String) : List Arg → List Field → Option (Option Arg)
  | [], _ => some none
  | _ :: _, [] => none
  | a :: as, f :: fs =>
    if name ≠ f.name then findNamed t name as fs else some ((a.inner t []).map Prod.snd)

/-- The `elemSize` of `mutateSize`; the inner `none` is that the size is not mutated. -/
def elemSize (t : Target) (bitSize : UInt64) (path : List String) (parent : List Arg)
    (fields : List Field) : Option (Option UInt64) :=
  if bitSize / 8 ≠ 0 then some (some (bitSize / 8))
  else
    match path with
    | [name] => (findNamed t name parent fields).map fun
      | none => some 1
      | some inner =>
        match t.type inner.ref with
        | .vma .. => none
        | .buffer _ kind _ _ _ _ => if kind = .compressed then none else some 1
        | .array _ elem _ _ _ => (t.type elem).size?
        | _ => some 1
    | _ => some (some 1)

/-- The `max` that is divided by the size of an element. -/
def overflowMax : Gen UInt64 := do
  if ← nOutOf 1 3 then
    if ← nOutOf 1 2 then
      if ← nOutOf 1 2 then pure 0xff else pure 0xffff
    else pure 0xffffffff
  else pure 0xffffffffffffffff

/-- The value that `mutateSize` assigns. -/
def mutateVal (biasedRand : ℤ → ℕ → ℕ → ℤ) (bits : ℕ) (val elemSize : UInt64) : Gen UInt64 := do
  if ← nOutOf 1 100 then rand64
  else if ← nOutOf 1 2 then
    -- small adjustment to trigger missed size checks
    if ← (if val ≠ 0 then nOutOf 1 2 else pure false) then randRangeInt 0 (val - 1) bits
    else randRangeInt (val + 1) (val + 100) bits
  else
    let max ← overflowMax
    if elemSize = 0 then failure
    else
      let draw ← intn (2 ^ 63)
      let delta := UInt64.ofInt (1000 - biasedRand 1000 10 draw)
      let minus ← (if elemSize = 1 then pure true else nOutOf 1 10)
      pure (if minus then max / elemSize - delta else max / elemSize + delta)

/-- `mutateSize` of the argument `.const c val`, with the argument after it. -/
def mutateSize (t : Target) (biasedRand : ℤ → ℕ → ℕ → ℤ) (c : ArgCommon) (val : UInt64)
    (parent : List Arg) (fields : List Field) : Gen (Bool × Arg) :=
  match t.type c.ref with
  | .len ic bitSize _ path =>
    match elemSize t bitSize path parent fields with
    | none => failure
    | some none => pure (false, .const c val)
    | some (some size) => (fun v => (true, .const c v)) <$>
        mutateVal biasedRand ic.typeBitSize.toNat val size
  | _ => failure

end Brf
