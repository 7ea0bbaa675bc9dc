import Brf.Model.Prog
import Mathlib.Data.List.Defs

/-! # Execution logs

`Target.ParseLog` of `prog/parse.go`. What `Target.Deserialize` returns in non-strict mode is a
parameter. -/

namespace Brf

structure LogEntry where
  p : Option Prog
  proc : ℕ
  start : ℕ
  stop : ℕ

def splitLines : List UInt8 → List (List UInt8)
  | [] => []
  | c :: cs =>
    if c = 10 then [c] :: splitLines cs
    else match splitLines cs with
      | [] => [[c]]
      | line :: lines => (c :: line) :: lines

/-- `extractInt`. `strconv.Atoi` gives the largest number when there are too many digits. -/
def extractInt (line : List UInt8) (pfx : String) : Option ℕ :=
  let pat := pfx.toList.map Char.toUInt8
  (line.tails.find? pat.isPrefixOf).map fun rest =>
    let digits := (rest.drop pat.length).takeWhile fun c => 48 ≤ c ∧ c ≤ 57
    min (digits.foldl (fun v c => 10 * v + (c.toNat - 48)) 0) (2 ^ 63 - 1)

/-- `faultCall` and `faultNth`; `none` is -1 for both. -/
abbrev Fault := Option (ℕ × ℕ)

/-- The fault in the `FailNth` property, which is 1-based, of a call of the program. -/
def Prog.inject (p : Prog) : Fault → Prog
  | none => p
  | some (call, nth) => { p with calls := p.calls.modify call fun c =>
    { c with props := { c.props with failNth := Int64.ofNat nth + 1 } } }

/-- The variables of the loop of `ParseLog`. -/
structure LogState where
  entries : List LogEntry
  ent : LogEntry
  cur : List UInt8
  fault : Fault
  pos : ℕ

/-- `ent.P != nil && len(ent.P.Calls) != 0`. -/
def hasCalls (p : Option Prog) : Bool := p.any (!·.calls.isEmpty)

def headerFault (line : List UInt8) : Fault :=
  (extractInt line "fault-call:").map fun call => (call, (extractInt line "fault-nth:").getD 0)

section ParseLog

variable (deserialize : List UInt8 → Option Prog)

def LogState.init : LogState := ⟨[], ⟨none, 0, 0, 0⟩, [], none, 0⟩

/-- The body of the loop of `ParseLog`. -/
def LogState.step (st : LogState) (line : List UInt8) : LogState :=
  match extractInt line "executing program " with
  | some proc =>
    let closed := hasCalls st.ent.p
    { entries := if closed then st.entries ++ [{ st.ent with stop := st.pos }] else st.entries
      ent := ⟨none, proc, st.pos, 0⟩
      cur := []
      fault := (headerFault line).or (if closed then none else st.fault)
      pos := st.pos + line.length }
  | none =>
    let tmp := st.cur ++ line
    match deserialize tmp with
    | none => { st with pos := st.pos + line.length }
    | some p => { st with
        ent := { st.ent with p := some (p.inject st.fault) }
        cur := tmp
        pos := st.pos + line.length }

def LogState.run (lines : List (List UInt8)) : LogState :=
  lines.foldl (LogState.step deserialize) .init

def LogState.finish (st : LogState) : List LogEntry :=
  st.entries ++ if hasCalls st.ent.p then [{ st.ent with stop := st.pos }] else []

def parseLog (data : List UInt8) : List LogEntry :=
  (LogState.run deserialize (splitLines data)).finish

end ParseLog

end Brf
