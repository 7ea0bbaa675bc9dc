import Mathlib.Data.List.Sort
import Brf.Lib.Wire
import Brf.Model.Checksum
import Mathlib.Tactic.Simps.Basic

/-! # Encoding of programs for the executor

`Prog.SerializeForExec`. Nothing the encoder decides depends on the buffer, so the context
collects the writes it makes and the buffer is filled from them at the end. `none` stands for
a panic. -/

namespace Brf

open Lib.Wire UInt64

def execInstrEOF : UInt64 := 0xffffffffffffffff
def execInstrCopyin : UInt64 := 0xfffffffffffffffe
def execInstrCopyout : UInt64 := 0xfffffffffffffffd
def execInstrSetProps : UInt64 := 0xfffffffffffffffc

def execArgConst : UInt64 := 0
def execArgResult : UInt64 := 1
def execArgData : UInt64 := 2
def execArgCsum : UInt64 := 3

def execArgDataReadable : UInt64 := 0x8000000000000000

def execArgCsumInet : UInt64 := 0

def execArgCsumChunkData : UInt64 := 0
def execArgCsumChunkConst : UInt64 := 1

def execNoCopyout : UInt64 := 0xffffffffffffffff

def execMaxCommands : ℕ := 1000

/-- `argInfo`. Indices are counted from zero, so they are kept as numbers. -/
structure ArgInfo where
  addr : UInt64
  idx : ℕ
  ret : Bool
deriving DecidableEq

/-- What the encoder does with a result index: an instruction that assigns it to an argument,
or an argument that refers to it. -/
inductive ExecEvent where
  | assigned (idx : ℕ) (id : ArgId)
  | used (idx : ℕ) (id : ArgId)
deriving DecidableEq

/-- `execContext`. `log` is not part of the source: it records what the indices in the output
stand for. -/
structure ExecContext where
  out : List Chunk
  args : List (ArgKey × ArgInfo)
  copyoutSeq : ℕ
  log : List ExecEvent

namespace ExecContext

def empty : ExecContext := ⟨[], [], 0, []⟩

@[simps]
def writeWords (w : ExecContext) (vs : List UInt64) : ExecContext :=
  { w with out := w.out ++ vs.map .word }

def writeBlob (w : ExecContext) (bytes : List UInt8) : ExecContext :=
  { w with out := w.out ++ [.blob bytes] }

@[simps out copyoutSeq log]
def setArg (w : ExecContext) (key : ArgKey) (info : ArgInfo) : ExecContext :=
  { w with args := (key, info) :: w.args }

def record (w : ExecContext) (e : ExecEvent) : ExecContext :=
  { w with log := w.log ++ [e] }

/-- Take the next result index for the argument `id`. -/
def assignIdx (w : ExecContext) (id : ArgId) : ExecContext :=
  { w with copyoutSeq := w.copyoutSeq + 1, log := w.log ++ [.assigned w.copyoutSeq id] }

end ExecContext

/-! ### Arguments -/

/-- `ConstArg.Value`: the value and the pid stride. -/
def constValue (typ : Typ) (val : UInt64) : Option (UInt64 × UInt64) :=
  match typ with
  | .int .. | .const .. | .flags .. | .len .. | .resource .. => some (val, 0)
  | .csum .. => some (0, 0)
  | .proc _ valuesStart valuesPerProc =>
    if val = 0xffffffffffffffff then some (0, 0) else some (valuesStart + val, valuesPerProc)
  | _ => none

def Typ.unitSize (t : Typ) : UInt64 := (t.intCommon?.map IntTypeCommon.unitSize).getD t.size

/-- The packed description of a constant. -/
def constMeta (size bfOffset bfLength pidStride : UInt64) (bf : BinaryFormat) : UInt64 :=
  size ||| bf.code <<< 8 ||| bfOffset <<< 16 ||| bfLength <<< 24 ||| pidStride <<< 32

def writeConstArg (w : ExecContext) (size val bfOffset bfLength pidStride : UInt64)
    (bf : BinaryFormat) : ExecContext :=
  w.writeWords [execArgConst, constMeta size bfOffset bfLength pidStride bf, val]

def isReadableDataType (kind : BufferKind) : Bool :=
  kind == .string || kind == .filename || kind == .glob

/-- The case of `writeArg` for a reference to the result `x`. -/
def writeResultRef (t : Target) (w : ExecContext) (r : ResultArg) (x : ArgId) :
    Option ExecContext :=
  match w.args.lookup (.result x), t.type r.ref with
  | some info, .resource c f desc =>
    some ((w.writeWords [execArgResult, c.typeSize ||| f.code <<< 8, ofNat info.idx,
      r.opDiv, r.opAdd, desc.default]).record (.used info.idx x))
  | _, _ => none

def writeData (t : Target) (w : ExecContext) (ref : Ref) (bytes : List UInt8) :
    Option ExecContext :=
  if bytes = [] then some w
  else
    match t.type ref with
    | .buffer _ kind _ _ _ _ =>
      let flags := ofNat bytes.length
      some ((w.writeWords [execArgData,
        if isReadableDataType kind then flags ||| execArgDataReadable else flags]).writeBlob bytes)
    | _ => none

def writeArg (t : Target) (w : ExecContext) : Arg → Option ExecContext
  | .const c val => do
    let typ := t.type c.ref
    let (v, pidStride) ← constValue typ val
    some (writeConstArg w typ.unitSize v typ.bitfieldOffset typ.bitfieldLength pidStride typ.format)
  | .result r =>
    match r.res with
    | none => some (writeConstArg w (t.type r.ref).size r.val 0 0 0 (t.type r.ref).format)
    | some x => writeResultRef t w r x
  | .pointer p _ => do
    let addr ← t.physicalAddr p true
    some (writeConstArg w (t.type p.ref).size addr 0 0 0 .native)
  | .pointerNil p => do
    let addr ← t.physicalAddr p false
    some (writeConstArg w (t.type p.ref).size addr 0 0 0 .native)
  | .data ref _ bytes => writeData t w ref bytes
  -- `Data` panics on an output buffer
  | .outData _ _ => none
  | .union _ opt _ => writeArg t w opt
  | .group _ _ => none

/-! ### Copyins -/

/-- The address a visited argument is copied to; `none` outside of memory. -/
def Visit.addr (t : Target) (v : Visit) : Option UInt64 :=
  match v.base with
  | none => none
  | some base => (t.physicalAddr base true).map fun a =>
    a + v.offset - (t.type v.arg.ref).unitOffset

def willBeUsed (p : Prog) (cs : Csums) (v : Visit) : Bool :=
  (match v.arg with
    | .result r => p.isUsed r.id
    | _ => false) ||
  cs.map.any (·.1.key == v.key) || cs.uses.contains v.key

def Arg.isLeaf : Arg → Bool
  | .group .. | .union .. => false
  | _ => true

/-- Whether `writeCopyin` writes an argument in memory. -/
def Arg.copiedIn (t : Target) (a : Arg) : Bool :=
  a.isLeaf && a.dir != .dirOut && !(t.type a.ref).isPad &&
    (a.size t != 0 || (t.type a.ref).isBitfield)

/-- The callback of `writeCopyin`. -/
def copyinStep (t : Target) (p : Prog) (cs : Csums) (w : ExecContext) (v : Visit) :
    Option ExecContext :=
  match v.base with
  | none => some w
  | some _ => do
    let addr ← v.addr t
    let w := if willBeUsed p cs v then w.setArg v.key ⟨addr, 0, false⟩ else w
    if v.arg.copiedIn t then writeArg t (w.writeWords [execInstrCopyin, addr]) v.arg
    else some w

def writeCopyin (t : Target) (p : Prog) (cs : Csums) (visits : List Visit) (w : ExecContext) :
    Option ExecContext :=
  visits.foldlM (copyinStep t p cs) w

/-! ### Checksums -/

/-- The order in which Go hands the checksum fields of the `n`-th call to the encoder: some
order of the map, then `sort.Slice` by address. -/
structure CsumSort where
  sort : ℕ → List (UInt64 × Visit × CsumInfo) → List (UInt64 × Visit × CsumInfo)
  perm : ∀ n l, (sort n l).Perm l
  sorted : ∀ n l, (sort n l).Pairwise (fun a b => a.1 ≤ b.1)

/-- Stable sorting by address is one of the orders Go may use. -/
def CsumSort.byAddr : CsumSort where
  sort _ l := l.insertionSort fun a b => a.1 ≤ b.1
  perm _ l := List.perm_insertionSort _ l
  sorted _ l := by
    have : Std.Total (fun a b : UInt64 × Visit × CsumInfo => a.1 ≤ b.1) :=
      ⟨fun a b => UInt64.le_total a.1 b.1⟩
    have : IsTrans _ (fun a b : UInt64 × Visit × CsumInfo => a.1 ≤ b.1) :=
      ⟨fun a b c => UInt64.le_trans⟩
    exact List.pairwise_insertionSort _ l

/-- `w.args[arg].Addr`, zero for a missing entry. -/
def ExecContext.addrOf (w : ExecContext) (key : ArgKey) : UInt64 :=
  ((w.args.lookup key).map ArgInfo.addr).getD 0

def chunkWords (t : Target) (w : ExecContext) : CsumChunk → List UInt64
  | .arg v => [execArgCsumChunkData, w.addrOf v.key, v.arg.size t]
  | .const value size => [execArgCsumChunkConst, value, size]

def checksumStep (t : Target) (w : ExecContext) (f : UInt64 × Visit × CsumInfo) :
    Option ExecContext :=
  match f.2.2.kind with
  | .inet => some (w.writeWords ([execInstrCopyin, f.1, execArgCsum, f.2.1.arg.size t,
      execArgCsumInet, ofNat f.2.2.chunks.length] ++
      f.2.2.chunks.flatMap (chunkWords t w)))
  | .pseudo => none

/-- `writeChecksums`: from the last field in memory to the first. -/
def writeChecksums (t : Target) (order : CsumSort) (n : ℕ) (cs : Csums) (w : ExecContext) :
    Option ExecContext :=
  let fields := cs.map.map fun f => (w.addrOf f.1.key, f)
  (order.sort n fields).reverse.foldlM (checksumStep t) w

/-! ### Calls -/

def boolWord (b : Bool) : UInt64 := if b then 1 else 0

def writeCallProps (w : ExecContext) (props : CallProps) : ExecContext :=
  w.writeWords [execInstrSetProps, props.failNth.toUInt64, boolWord props.async,
    props.rerun.toUInt64]

/-- The call id and the slot of its return value; `none` if the return value already has one. -/
def writeCallHeader (p : Prog) (c : Call) (w : ExecContext) : Option ExecContext :=
  match c.ret with
  | some r =>
    if p.isUsed r.id then
      if (w.args.lookup (.result r.id)).isSome then none
      else
        some (((w.setArg (.result r.id) ⟨0, w.copyoutSeq, true⟩).writeWords
          [ofNat c.syscall.id, ofNat w.copyoutSeq]).assignIdx r.id)
    else some (w.writeWords [ofNat c.syscall.id, execNoCopyout])
  | none => some (w.writeWords [ofNat c.syscall.id, execNoCopyout])

/-- The callback of `writeCopyout`. -/
def copyoutStep (t : Target) (p : Prog) (w : ExecContext) (v : Visit) : ExecContext :=
  match v.arg with
  | .result r =>
    if p.isUsed r.id then
      let info := (w.args.lookup (.result r.id)).getD ⟨0, 0, false⟩
      if info.ret then w
      else
        ((w.setArg (.result r.id) { info with idx := w.copyoutSeq }).writeWords
          [execInstrCopyout, ofNat w.copyoutSeq, info.addr, v.arg.size t]).assignIdx r.id
    else w
  | _ => w

def writeCopyout (t : Target) (p : Prog) (visits : List Visit) (w : ExecContext) : ExecContext :=
  visits.foldl (copyoutStep t p) w

def writeProps (props : CallProps) (w : ExecContext) : ExecContext :=
  if props = CallProps.zero then w else writeCallProps w props

/-- `serializeCall` of the `n`-th call. -/
def serializeCall (t : Target) (order : CsumSort) (p : Prog) (n : ℕ) (c : Call)
    (w : ExecContext) : Option ExecContext := do
  let visits := c.visits t n
  let cs ← calcChecksumsCall t n c
  let w ← writeCopyin t p cs visits w
  let w ← writeChecksums t order n cs w
  let w ← writeCallHeader p c (writeProps c.props w)
  let w ← c.args.foldlM (writeArg t) (w.writeWords [ofNat c.args.length])
  some (writeCopyout t p visits w)

/-- The loop of `SerializeForExec` over the calls from the `n`-th on. -/
def serializeCalls (t : Target) (order : CsumSort) (p : Prog) :
    (n : ℕ) → List Call → ExecContext → Option ExecContext
  | _, [], w => some w
  | n, c :: cs, w => do
    let w ← serializeCall t order p n c w
    serializeCalls t order p (n + 1) cs w

inductive ExecError where
  | bufferTooSmall
deriving DecidableEq

/-- What is in the buffer up to the returned length, and the log. -/
structure ExecOutput where
  bytes : List UInt8
  log : List ExecEvent
deriving DecidableEq

/-- `SerializeForExec` into a buffer of the given length. -/
def Prog.serializeForExec (t : Target) (e : Endian) (order : CsumSort) (p : Prog) (size : ℕ) :
    Option (Except ExecError ExecOutput) := do
  let w ← serializeCalls t order p 0 p.calls ExecContext.empty
  let buf := Buffer.writeAll e ⟨size, [], false⟩ (w.writeWords [execInstrEOF]).out
  if buf.eof || decide (execMaxCommands < w.copyoutSeq) then some (.error .bufferTooSmall)
  else some (.ok ⟨buf.out, w.log⟩)

end Brf
