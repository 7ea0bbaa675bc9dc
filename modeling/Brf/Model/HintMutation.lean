import Brf.Lib.Patch
import Brf.Model.Hints
import Brf.Model.Prog

/-! # Mutation with hints

`Prog.MutateWithHints` of `prog/hints.go`. One clone of the program is changed in place and handed
to the callback again and again; the functions here return what the callback gets to see and what
is left in place in the end. -/

namespace Brf

open Brf.Lib Brf.Lib.Wire

def maxDataLength : ℕ := 100

/-- Compression in `pkg/image`. -/
structure Compression where
  compress : List UInt8 → List UInt8
  mustDecompress : List UInt8 → List UInt8
  decompress_compress : ∀ data, mustDecompress (compress data) = data

def Typ.typeBitSize? (typ : Typ) : Option ℕ :=
  typ.intCommon?.map fun c =>
    if c.argFormat ≠ .native ∧ c.argFormat ≠ .bigEndian then 64
    else if c.bitfieldLen ≠ 0 then c.bitfieldLen.toNat
    else (c.typeSize * 8).toNat

/-- The eight bytes from `i` on, with zeros after the end of the data. -/
def window (data : List UInt8) (i : ℕ) : List UInt8 :=
  (data.drop i).take 8 ++ List.replicate (8 - (data.length - i)) 0

/-- The loop over the replacers: each value the data takes, and the last. `overwrite` is
`copy(data[i:], bytes)`. -/
def writeReplacers (i : ℕ) : List UInt64 → List UInt8 → List (List UInt8) × List UInt8
  | [], data => ([], data)
  | r :: rs, data =>
    let data' := overwrite data i (putUint64 .little r)
    let (seen, last) := writeReplacers i rs data'
    (data' :: seen, last)

/-- One round of the loops of `checkDataArg` and `checkCompressedArg`. -/
def checkWindow (comps : CompMap) (image : Bool) (data : List UInt8) (i : ℕ) :
    List (List UInt8) × List UInt8 :=
  let original := window data i
  let val := getUint64 .little original
  let (seen, last) := writeReplacers i (shrinkExpand val comps 64 image) data
  (seen, overwrite last i original)

/-- The loop over the given places of the data. -/
def checkWindows (comps : CompMap) (image : Bool) :
    List ℕ → List UInt8 → List (List UInt8) × List UInt8
  | [], data => ([], data)
  | i :: is, data =>
    let (seen, data) := checkWindow comps image data i
    let (seen', data) := checkWindows comps image is data
    (seen ++ seen', data)

def checkDataArg (comps : CompMap) (data : List UInt8) : List (List UInt8) × List UInt8 :=
  checkWindows comps false (List.range (min data.length maxDataLength)) data

def checkCompressedArg (z : Compression) (comps : CompMap) (data0 : List UInt8) :
    List (List UInt8) × List UInt8 :=
  let data := z.mustDecompress data0
  let places := (List.range ((data.length + 3) / 4)).map (4 * ·)
  (((checkWindows comps true places data).1.map z.compress), data0)

/-- The loop of `checkConstArg` over the replacers. -/
def setReplacers : List UInt64 → UInt64 → List UInt64 × UInt64
  | [], val => ([], val)
  | r :: rs, _ =>
    let (seen, last) := setReplacers rs r
    (r :: seen, last)

def checkConstArg (comps : CompMap) (bitsize : ℕ) (val : UInt64) : List UInt64 × UInt64 :=
  ((setReplacers (shrinkExpand val comps bitsize false) val).1, val)

/-- The types `generateHints` leaves alone. -/
def Typ.skipsHints : Typ → Bool
  | .proc .. | .csum .. => true
  | .const _ _ isPad => isPad
  | .buffer _ kind _ _ values _ =>
    kind == .filename || ((kind == .string || kind == .glob) && !values.isEmpty)
  | _ => false

/-- `generateHints`: what the argument is each time the callback is run, and what it is at the end.
Type assertions that fail run no callback; validated programs have none. -/
def generateHints (t : Target) (z : Compression) (comps : CompMap) (arg : Arg) : List Arg × Arg :=
  if arg.dir = .dirOut ∨ (t.type arg.ref).skipsHints then ([], arg)
  else
    match arg with
    | .const c val =>
      match (t.type c.ref).typeBitSize? with
      | none => ([], arg)
      | some bitsize =>
        let (seen, last) := checkConstArg comps bitsize val
        (seen.map (.const c), .const c last)
    | .data ref dir bytes =>
      match t.type ref with
      | .buffer _ kind _ _ _ _ =>
        let (seen, last) :=
          if kind = .compressed then checkCompressedArg z comps bytes else checkDataArg comps bytes
        (seen.map (.data ref dir), .data ref dir last)
      | _ => ([], arg)
    | _ => ([], arg)

mutual

/-- `ForeachArg` on one tree, `plug` being what is around it. Arguments with parts are visited as
well before their parts, but have no hints of their own. -/
def Arg.hints {α : Type} (visit : Arg → List Arg × Arg) (plug : Arg → α) : Arg → List α × Arg
  | .group c inner =>
    let (seen, inner') := Arg.hintsInner visit (fun inner => plug (.group c inner)) [] inner
    (seen, .group c inner')
  | .pointer p res =>
    let (seen, res') := res.hints visit fun res => plug (.pointer p res)
    (seen, .pointer p res')
  | .union c opt i =>
    let (seen, opt') := opt.hints visit fun opt => plug (.union c opt i)
    (seen, .union c opt' i)
  | a =>
    let (seen, a') := visit a
    (seen.map plug, a')

/-- The loop over a list of trees, after `done`. -/
def Arg.hintsInner {α : Type} (visit : Arg → List Arg × Arg) (plug : List Arg → α) :
    (done : List Arg) → List Arg → List α × List Arg
  | done, [] => ([], done)
  | done, a :: as =>
    let (seen, a') := a.hints visit fun a => plug (done ++ a :: as)
    let (seen', all) := Arg.hintsInner visit plug (done ++ [a']) as
    (seen ++ seen', all)

end

def Prog.withArgs (p : Prog) (callIndex : ℕ) (c : Call) (args : List Arg) : Prog :=
  { p with calls := p.calls.set callIndex { c with args } }

/-- `Prog.MutateWithHints`: the programs that the callback gets. `sanitizes` tells which calls
`Target.sanitize` returns without an error; it is taken to change nothing. The return value of the
call is visited as well, but a result has no hints. -/
def Prog.mutateWithHints (t : Target) (z : Compression) (sanitizes : Call → Bool) (p : Prog)
    (callIndex : ℕ) (comps : CompMap) : List Prog :=
  match p.calls[callIndex]? with
  | none => []
  | some c =>
    let (seen, _) := Arg.hintsInner (generateHints t z comps) id [] c.args
    -- bad calls are thrown away, not fixed
    (seen.filter fun args => sanitizes { c with args }).map (p.withArgs callIndex c)

end Brf
