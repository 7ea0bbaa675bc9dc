import Brf.Model.ExecEncoding

/-! # Decoding of executor programs

`Target.DeserializeExec`. As in the source, the decoder keeps going after an error: reads
then return zero, and the first error is kept. -/

namespace Brf

open Lib.Wire

structure ExecCsumChunk where
  kind : UInt64
  value : UInt64
  size : UInt64
deriving DecidableEq

/-- `ExecArg`; `Format` is the number of a `BinaryFormat`. -/
inductive ExecArg where
  | const (size format value bitfieldOffset bitfieldLength pidStride : UInt64)
  | result (size format index divOp addOp default : UInt64)
  | data (bytes : List UInt8) (readable : Bool)
  | csum (size kind : UInt64) (chunks : List ExecCsumChunk)
deriving DecidableEq

structure ExecCopyin where
  addr : UInt64
  arg : ExecArg
deriving DecidableEq

structure ExecCopyout where
  index : UInt64
  addr : UInt64
  size : UInt64
deriving DecidableEq

structure ExecCall where
  syscall : Syscall
  props : CallProps
  index : UInt64
  args : List ExecArg
  copyin : List ExecCopyin
  copyout : List ExecCopyout
deriving DecidableEq

structure ExecProg where
  calls : List ExecCall
  vars : List UInt64
deriving DecidableEq

inductive DecodeError where
  | badSyscall (instr : UInt64)
  | badCallArg
  | unknownCsumKind (kind : UInt64)
  | badArgumentType (typ : UInt64)
  | overflow
  | mismatchingVars (got want : ℕ)
deriving DecidableEq

/-- An `ExecCall` under construction: `Meta` is nil until the call instruction is read. -/
structure PartialCall where
  syscall : Option Syscall
  props : CallProps
  index : UInt64
  args : List ExecArg
  copyin : List ExecCopyin
  copyout : List ExecCopyout

def PartialCall.empty : PartialCall := ⟨none, CallProps.zero, 0, [], [], []⟩

structure Decoder where
  data : List UInt8
  err : Option DecodeError
  numVars : UInt64
  vars : List UInt64
  call : PartialCall
  calls : List ExecCall

abbrev Decode := StateM Decoder

section Reading

variable (e : Endian)

def setErr (err : DecodeError) : Decode Unit :=
  modify fun dec => { dec with err := dec.err <|> some err }

def read : Decode UInt64 := fun dec =>
  match dec.err, readWord e dec.data with
  | none, some (v, rest) => (v, { dec with data := rest })
  | _, some _ => (0, dec)
  | _, none => (0, { dec with err := dec.err <|> some .overflow })

def readBlobData (size : UInt64) : Decode (List UInt8) := fun dec =>
  match dec.err, readBlob size.toNat dec.data with
  | none, some (bytes, rest) => (bytes, { dec with data := rest })
  | _, some _ => ([], dec)
  | _, none => ([], { dec with err := dec.err <|> some .overflow })

def readChunks : (n : ℕ) → Decode (List ExecCsumChunk)
  | 0 => pure []
  | n + 1 => do
    let kind ← read e
    let value ← read e
    let size ← read e
    let rest ← readChunks n
    pure (⟨kind, value, size⟩ :: rest)

/-- The growth of `dec.vars` up to `index`, and the default stored there. -/
def storeVar (vars : List UInt64) (index : ℕ) (default : UInt64) : List UInt64 :=
  (vars ++ List.replicate (index + 1 - vars.length) 0).set index default

def readConst : Decode (Option ExecArg) := do
  let packed ← read e
  let value ← read e
  pure (some (.const (packed &&& 0xff) (packed >>> 8 &&& 0xff) value (packed >>> 16 &&& 0xff)
    (packed >>> 24 &&& 0xff) (packed >>> 32)))

def readResult : Decode (Option ExecArg) := do
  let packed ← read e
  let index ← read e
  let divOp ← read e
  let addOp ← read e
  let default ← read e
  modify fun dec => { dec with vars := storeVar dec.vars index.toNat default }
  pure (some (.result (packed &&& 0xff) (packed >>> 8 &&& 0xff) index divOp addOp default))

def readData : Decode (Option ExecArg) := do
  let flags ← read e
  let bytes ← readBlobData (flags &&& ~~~execArgDataReadable)
  pure (some (.data bytes (flags &&& execArgDataReadable != 0)))

def readCsum : Decode (Option ExecArg) := do
  let size ← read e
  let kind ← read e
  if kind = execArgCsumInet then
    let n ← read e
    let chunks ← readChunks e n.toNat
    pure (some (.csum size kind chunks))
  else
    setErr (.unknownCsumKind kind)
    pure none

/-- `readArg`; `none` is the nil it returns on an error. -/
def readArg : Decode (Option ExecArg) := do
  let typ ← read e
  if typ = execArgConst then readConst e
  else if typ = execArgResult then readResult e
  else if typ = execArgData then readData e
  else if typ = execArgCsum then readCsum e
  else
    setErr (.badArgumentType typ)
    pure none

def readCallProps : Decode Unit := do
  let failNth ← read e
  let async ← read e
  let rerun ← read e
  modify fun dec => { dec with call := { dec.call with
    props := ⟨failNth.toInt64, dec.call.props.async || async == 1, rerun.toInt64⟩ } }

/-- The loop over the arguments of a call; `false` if it stopped at a bad one. -/
def readCallArgs : (n : ℕ) → Decode Bool
  | 0 => pure true
  | n + 1 => do
    let arg ← readArg e
    match arg with
    | some (.const ..) | some (.result ..) =>
      modify fun dec => { dec with call := { dec.call with args := dec.call.args ++ arg.toList } }
      readCallArgs n
    | _ =>
      setErr .badCallArg
      pure false

end Reading

/-- `numVars` has to cover the index. -/
def coverIndex (numVars index : UInt64) : UInt64 :=
  if numVars < index + 1 then index + 1 else numVars

def commitCall : Decode Unit := modify fun dec =>
  match dec.call.syscall with
  | none => dec
  | some s =>
    let numVars := if dec.call.index = execNoCopyout then dec.numVars
      else coverIndex dec.numVars dec.call.index
    { dec with
      numVars := dec.call.copyout.foldl (fun n c => coverIndex n c.index) numVars
      calls := dec.calls ++ [⟨s, dec.call.props, dec.call.index, dec.call.args, dec.call.copyin,
        dec.call.copyout⟩]
      call := PartialCall.empty }

section Parsing

variable (t : Target) (e : Endian)

def parseCopyin : Decode Unit := do
  commitCall
  let addr ← read e
  let arg ← readArg e
  modify fun dec => { dec with call := { dec.call with
    copyin := dec.call.copyin ++ (arg.map fun a => ⟨addr, a⟩).toList } }

def parseCopyout : Decode Unit := do
  let index ← read e
  let addr ← read e
  let size ← read e
  modify fun dec => { dec with call := { dec.call with
    copyout := dec.call.copyout ++ [⟨index, addr, size⟩] } }

/-- The default case of `parse`; `false` if it returns. -/
def parseCall (instr : UInt64) : Decode Bool := do
  commitCall
  match t.syscalls[instr.toNat]? with
  | none =>
    setErr (.badSyscall instr)
    pure false
  | some s =>
    let index ← read e
    modify fun dec => { dec with call := { dec.call with syscall := some s, index := index } }
    let n ← read e
    readCallArgs e n.toNat

/-- One round of the loop of `parse`; `false` if it ends the loop. -/
def parseInstr : Decode Bool := do
  let instr ← read e
  if instr = execInstrCopyin then
    parseCopyin e
    pure true
  else if instr = execInstrCopyout then
    parseCopyout e
    pure true
  else if instr = execInstrEOF then
    commitCall
    pure false
  else if instr = execInstrSetProps then
    commitCall
    readCallProps e
    pure true
  else parseCall t e instr

/-- `parse`. A round consumes a word or sets the error, so `fuel` rounds do for a program of
fewer words. -/
def parse : (fuel : ℕ) → Decode Unit
  | 0 => pure ()
  | fuel + 1 => do
    let dec ← get
    if dec.err.isSome then pure ()
    else
      let continues ← parseInstr t e
      if continues then parse fuel else pure ()

end Parsing

def Target.deserializeExec (t : Target) (e : Endian) (exec : List UInt8) :
    Except DecodeError ExecProg :=
  let dec := (parse t e (exec.length + 1) ⟨exec, none, 0, [], PartialCall.empty, []⟩).2
  match dec.err with
  | some err => .error err
  | none =>
    if dec.vars.length != dec.numVars.toNat then
      .error (.mismatchingVars dec.vars.length dec.numVars.toNat)
    else .ok ⟨dec.calls, dec.vars⟩

end Brf
