import Brf.Lib.CExpr
import Brf.Model.HelperMaps

/-! # Generation of helper calls

A program is a list of helper calls. The arguments of a call are generated from left to right:
from the result of another helper call, from a field of the context, or directly. Calls that
produce arguments are appended while the call that consumes them is still being built. -/

namespace Brf.HelperCalls

open Brf.Lib Gen

/-! ### Program types -/

structure BpfCtxAccessAttr where
  rangeInCtx : List String
  canRead : Bool
  canWrite : Bool

/-- The fields a value of register type `rt` can be loaded from. -/
def ctxRanges (regTypeMap : List (String × List String)) (rt : RegType) : Option (List String) :=
  match regTypeMap.lookup rt.name with
  | some fields => some fields
  | none => regTypeMap.lookup (rt.name ++ "_OR_NULL")

/-- Which kinds of pointers the fields of a context hold. No context of the tables loads a
plain number this way, metadata is always the field `data_meta`, and the start of a packet is
not its end. -/
structure BpfCtxAccess where
  regTypeMap : List (String × List String)
  accesses : List BpfCtxAccessAttr
  scalarFree : ctxRanges regTypeMap .scalarValue = none
  metaField : (ctxRanges regTypeMap .ptrToPacketMeta).all (·.head? = some "data_meta")
  packetField : (ctxRanges regTypeMap .ptrToPacket).all (·.head? ≠ some "data_end")

structure SecDef where
  sec : String
  secDefGen : Option (Gen String)
  sleepable : Bool

/-- `ctxStruct` holds the field names of the context when it is a known struct. -/
structure BpfProgType where
  user : String
  enum : ProgTypeEnum
  secDefs : List SecDef
  helpers : List BpfHelper
  ctxAccess : BpfCtxAccess
  ctxStruct : Option (List String)

/-- Position of a field, given with or without an index such as `[3]`. -/
def fieldIdx (fields : List String) (f : String) : Option ℕ :=
  let name := if f.toList.getLast? = some ']' then String.ofList (f.toList.take (f.length - 3)) else f
  fields.findIdx? (· = name)

/-- Whether a field may be read or written; `none` is an access outside the table. -/
def BpfProgType.canAccess (pt : BpfProgType) (field : String) : Option Bool :=
  match pt.ctxStruct with
  | some fields => do
    let i ← fieldIdx fields field
    let read ← pt.ctxAccess.accesses[2 * i]?
    let write ← pt.ctxAccess.accesses[2 * i + 1]?
    pure (read.canRead || write.canWrite)
  | none =>
    match (pt.ctxAccess.accesses.filter (·.rangeInCtx.head? = some "default")).getLast? with
    | some access => some (access.canRead || access.canWrite)
    | none => some false

/-! ### Arguments and calls -/

/-- The text of a C fragment; its variables are the `vN` of the generated function. -/
abbrev CText := List (CExpr.Tok ℕ)

/-- How an argument is written. Maps are given by position, members by their number. -/
inductive ArgName where
  | zero
  | ctx
  | progActive
  | map (m : ℕ)
  | var (v : ℕ)
  | member (v : ℕ) (e : ℤ)
  | addrMember (v : ℕ) (e : ℤ)
  deriving DecidableEq

def mapName (m : ℕ) : String := if m = 0 then "scratch_map" else "map_" ++ toString m

def ArgName.text : ArgName → CText
  | .zero => [.num 0]
  | .ctx => [.text "ctx"]
  | .progActive => [.text "&bpf_prog_active"]
  | .map m => [.text ("&" ++ mapName m)]
  | .var v => [.var v]
  | .member v e => [.var v, .text ("->e" ++ toString e)]
  | .addrMember v e => [.text "&", .var v, .text ("->e" ++ toString e)]

/-- What stands between an `&` and an `->` of the argument's text. -/
def ArgName.base : ArgName → CText
  | .zero => [.num 0]
  | .ctx => [.text "ctx"]
  | .progActive => [.text "bpf_prog_active"]
  | .map m => [.text (mapName m)]
  | .var v | .member v _ | .addrMember v _ => [.var v]

/-- The declarations rendered before the call an argument belongs to. -/
inductive Prepare where
  | none
  | int64 (v size : ℕ)
  /-- The stack is full: the value is also stored through the scratch buffer `buf`. -/
  | int64Scratch (v buf size : ℕ)
  | chars (v size : ℕ)
  deriving DecidableEq

def Prepare.text : Prepare → CText
  | .none => []
  | .int64 v size => [.decl "\tint64_t " v, .text " = ", .num size, .text ";\n"]
  | .int64Scratch v buf size =>
    let ptr := "v" ++ toString v ++ "_ptr"
    [.text ("\tint64_t *" ++ ptr ++ " = (int64_t*)"), .var buf, .text ";\n",
      .decl "\tint64_t " v, .text " = ", .num size,
      .text (";\n\tif (" ++ ptr ++ ") *" ++ ptr ++ " = "), .var v, .text ";\n"]
  | .chars v size => [.decl "\tchar " v, .text "[", .num size, .text "] = \x7b\x7d;\n"]

structure BpfArg where
  name : ArgName
  argType : ArgType
  prep : Prepare
  canBeNull : Bool
  isNotNull : Bool
  umin : ℤ
  umax : ℤ
  isPktAccess : Bool
  isPktMetaAccess : Bool
  accessSize : ℕ
  deriving DecidableEq

def ArgType.isConst (t : ArgType) : Bool := t.name.toList.take 9 = "ARG_CONST".toList

def ArgType.isOrNull (t : ArgType) : Bool :=
  t.name.toList.drop (t.name.length - 7) = "OR_NULL".toList

def newBpfArg (argType : ArgType) : BpfArg where
  name := .zero
  argType := argType
  prep := .none
  canBeNull := argType.isConst || (argType.isOrNull && argType ≠ .ptrToMapValueOrNull)
  isNotNull := false
  umin := if argType = .constSize then 0 else -1
  umax := if argType = .constSize ∨ argType = .constSizeOrZero then 2 ^ 29 else -1
  isPktAccess := false
  isPktMetaAccess := false
  accessSize := 0

/-- A call rendered after another one, within its guard. -/
structure PostCall where
  helper : BpfHelper
  args : List BpfArg
  deriving DecidableEq

/-- A call; `args` grows while the call is generated. Calls that the repair passes add have no
result variable. -/
structure BpfCall where
  helper : BpfHelper
  args : List BpfArg
  argMap : Option ℕ
  ret : Option ℕ
  retType : String
  stackVarSize : ℕ
  hint : BpfCallGenHint
  postCalls : List PostCall
  deriving DecidableEq

def newBpfCall (helper : BpfHelper) (hint : BpfCallGenHint) : BpfCall :=
  ⟨helper, [], none, none, "", 0, hint, []⟩

structure BpfProg where
  pt : BpfProgType
  sleepable : Bool
  secStr : String
  retVal : ℕ
  pool : MapPool
  calls : List BpfCall
  externs : List (String × String)
  ctxVars : List (String × ℕ)
  ctxTypes : List (String × String)
  totalStackUsage : ℕ
  scratchMapVars : List ℕ
  scratchMapIndex : ℕ
  varId : ℕ

def BpfProg.env (p : BpfProg) : ProgEnv := ⟨p.pt.enum, p.sleepable⟩

/-! ### Compatible register types -/

/-- The arrays of register types that argument kinds share. -/
inductive RegTable where
  | all | mapKeyValue | scalar | constMapPtr | context | sock | btfIdSockCommon | fullsock | btfPtr
  | spinLock | mem | allocMem | intPtr | percpuBtfPtr | funcPtr | stackPtr | constStrPtr | timer
  deriving DecidableEq

def RegTable.initial : RegTable → List RegType
  | .all => [.scalarValue, .ptrToCtx, .constPtrToMap, .ptrToMapValue, .ptrToStack,
      .ptrToPacketMeta, .ptrToPacket, .ptrToPacketEnd, .ptrToFlowKeys, .ptrToSocket,
      .ptrToSockCommon, .ptrToTcpSock, .ptrToTpBuffer, .ptrToXdpSock, .ptrToBtfId, .ptrToMem,
      .ptrToRdonlyBuf, .ptrToRdwrBuf, .ptrToPercpuBtfId, .ptrToFunc, .ptrToMapKey]
  | .mapKeyValue => [.ptrToStack, .ptrToPacket, .ptrToPacketMeta, .ptrToMapKey, .ptrToMapValue]
  | .scalar => [.scalarValue]
  | .constMapPtr => [.constPtrToMap]
  | .context => [.ptrToCtx]
  | .sock => [.ptrToSockCommon, .ptrToSocket, .ptrToTcpSock, .ptrToXdpSock]
  | .btfIdSockCommon => [.ptrToSockCommon, .ptrToSocket, .ptrToTcpSock, .ptrToXdpSock, .ptrToBtfId]
  | .fullsock => [.ptrToSocket]
  | .btfPtr => [.ptrToBtfId]
  | .spinLock => [.ptrToMapValue]
  | .mem => [.ptrToStack, .ptrToPacket, .ptrToPacketMeta, .ptrToMapKey, .ptrToMapValue, .ptrToMem,
      .ptrToRdonlyBuf, .ptrToRdwrBuf]
  | .allocMem => [.ptrToMem]
  | .intPtr => [.ptrToStack, .ptrToPacket, .ptrToPacketMeta, .ptrToMapKey, .ptrToMapValue]
  | .percpuBtfPtr => [.ptrToPercpuBtfId]
  | .funcPtr => [.ptrToFunc]
  | .stackPtr => [.ptrToStack]
  | .constStrPtr | .timer => [.ptrToMapValue]

def compatibleRegType : ArgType → RegTable
  | .anything => .all
  | .ptrToMapKey | .ptrToMapValue | .ptrToUninitMapValue | .ptrToMapValueOrNull => .mapKeyValue
  | .constSize | .constSizeOrZero | .constAllocSizeOrZero => .scalar
  | .constMapPtr => .constMapPtr
  | .ptrToCtx | .ptrToCtxOrNull => .context
  | .ptrToSockCommon => .sock
  | .ptrToBtfIdSockCommon => .btfIdSockCommon
  | .ptrToSocket | .ptrToSocketOrNull => .fullsock
  | .ptrToBtfId | .ptrToBtfIdOrNull => .btfPtr
  | .ptrToSpinLock => .spinLock
  | .ptrToMem | .ptrToMemOrNull | .ptrToUninitMem | .ptrToFixedSizeMem => .mem
  | .ptrToAllocMem | .ptrToAllocMemOrNull => .allocMem
  | .ptrToInt | .ptrToLong => .intPtr
  | .ptrToPercpuBtfId => .percpuBtfPtr
  | .ptrToFunc => .funcPtr
  | .ptrToStackOrNull => .stackPtr
  | .ptrToConstStr => .constStrPtr
  | .ptrToTimer => .timer

def checkPktAccess (e : ProgTypeEnum) (h : BpfHelper) (isWrite : Bool) : Bool :=
  if e ∈ [.lwtIn, .lwtOut, .lwtSeg6local, .skReuseport, .flowDissector, .cgroupSkb] then
    !isWrite && h.pktAccess
  else if e ∈ [.schedCls, .schedAct, .xdp, .lwtXmit, .skSkb, .skMsg] then h.pktAccess
  else e = .cgroupSockopt

def RegType.checkAccess (rt : RegType) (e : ProgTypeEnum) (h : BpfHelper) (isWrite : Bool) : Bool :=
  match rt with
  | .ptrToPacketMeta | .ptrToPacket => checkPktAccess e h isWrite
  | .ptrToPacketEnd | .ptrToPercpuBtfId | .ptrToFunc => false
  | .ptrToSocket | .ptrToSockCommon | .ptrToTcpSock | .ptrToXdpSock | .ptrToRdonlyBuf
  | .ptrToMapKey => !isWrite
  | .scalarValue | .ptrToCtx | .constPtrToMap | .ptrToMapValue | .ptrToStack | .ptrToFlowKeys
  | .ptrToTpBuffer | .ptrToBtfId | .ptrToMem | .ptrToRdwrBuf => true

/-- The loop `for i, t := range regTypes` that deletes by `append(regTypes[0:i],
regTypes[i+1:]...)`: the deletion shifts the shared array `arr` in place, so the element that
moves to position `i` is not visited, and `len` is what is left of the slice. A slice
expression beyond `len` is a run-time error. -/
def deleteInPlace (drop : RegType → Bool) :
    ℕ → ℕ → List RegType → ℕ → Option (List RegType × ℕ)
  | 0, _, arr, len => some (arr, len)
  | n + 1, i, arr, len =>
    match arr[i]? with
    | none => none
    | some t =>
      if drop t then
        if i + 1 ≤ len then
          deleteInPlace drop n (i + 1)
            (arr.take i ++ (arr.take len).drop (i + 1) ++ arr.drop (len - 1)) (len - 1)
        else none
      else deleteInPlace drop n (i + 1) arr len

/-! ### The generator -/

/-- The program under construction, the nesting counter, and the register type arrays, which
live as long as the process. -/
structure GenState where
  prog : BpfProg
  rd : ℕ
  regTypes : RegTable → List RegType

/-- A generation step; `none` of the underlying generator is a run-time error. -/
abbrev GenM := StateT GenState Gen

def abort {α : Type} : GenM α := fun _ => failure

def draw {α : Type} (g : Gen α) : GenM α := fun st => do
  let a ← g
  pure (a, st)

def orAbort {α : Type} : Option α → GenM α
  | some a => pure a
  | none => abort

def getProg : GenM BpfProg := do
  let st ← get
  pure st.prog

def modifyProg (f : BpfProg → BpfProg) : GenM Unit :=
  modify fun st => { st with prog := f st.prog }

def freshVar : GenM ℕ := do
  let p ← getProg
  modifyProg fun p => { p with varId := p.varId + 1 }
  pure p.varId

/-- The scratch buffer whose turn it is. -/
def nextScratch : GenM ℕ := do
  let p ← getProg
  let v ← orAbort p.scratchMapVars[p.scratchMapIndex]?
  modifyProg fun p => { p with scratchMapIndex := (p.scratchMapIndex + 1) % 10 }
  pure v

def BpfProg.mapAt (p : BpfProg) (m : ℕ) : Option BpfMap := p.pool.maps[m]?

def BpfProg.argMap (p : BpfProg) (call : BpfCall) : Option BpfMap := call.argMap.bind p.mapAt

def roundUp (val align : ℕ) : ℕ :=
  (if val % align ≠ 0 then val / align + 1 else val / align) * align

def ArgType.isMapValue (t : ArgType) : Bool :=
  t ∈ [.ptrToMapValue, .ptrToMapValueOrNull, .ptrToUninitMapValue]

/-- The size of the key or value that an argument of kind `t` must point to, if it is known. -/
def mapAccessSize (m : Option BpfMap) (t : ArgType) : Option ℕ :=
  if t = .ptrToMapKey then (m.bind (·.key)).map fun sd => roundUp sd.size 8
  else if t.isMapValue then (m.bind (·.val)).map fun sd => roundUp sd.size 8
  else none

def genCompatibleRegTypes (helper : BpfHelper) (argType : ArgType) :
    GenM (List RegType × String) := do
  let st ← get
  let e := st.prog.pt.enum
  let table := compatibleRegType argType
  let arr := st.regTypes table
  let (arr, len) ←
    if argType = .ptrToUninitMapValue ∨ argType = .ptrToUninitMem then
      orAbort (deleteInPlace (fun t => !t.checkAccess e helper true) arr.length 0 arr arr.length)
    else pure (arr, arr.length)
  let (arr, len) ←
    if !checkPktAccess e helper false then
      orAbort (deleteInPlace (fun t => t = .ptrToPacket || t = .ptrToPacketMeta) len 0 arr len)
    else pure (arr, len)
  modify fun st => { st with regTypes := Function.update st.regTypes table arr }
  let btfId :=
    if argType = .ptrToBtfId ∨ argType = .ptrToBtfIdOrNull then helper.argBtfIds.headD ""
    else if argType = .ptrToBtfIdSockCommon then "struct sock_common"
    else ""
  pure (arr.take len, btfId)

/-! ### Direct arguments -/

/-- A number: the size recorded for the call if there is one, else a random one. -/
def generateScalar (call : BpfCall) (argType : ArgType) : GenM (Option BpfArg × BpfCall) := do
  let size ← draw (intn 64)
  let size := if call.stackVarSize ≠ 0 then call.stackVarSize else size
  let p ← getProg
  if p.totalStackUsage + 8 ≤ 400 then do
    let v ← freshVar
    modifyProg fun p => { p with totalStackUsage := p.totalStackUsage + 8 }
    pure (some { newBpfArg argType with name := .var v, isNotNull := true, prep := .int64 v size },
      call)
  else do
    let buf ← nextScratch
    let v ← freshVar
    pure (some { newBpfArg argType with
      name := .var v, isNotNull := true, prep := .int64Scratch v buf size }, call)

/-- A buffer on the stack, whose size is recorded for the call, or a scratch buffer. -/
def generateStack (call : BpfCall) (argType : ArgType) : GenM (Option BpfArg × BpfCall) := do
  let size ← draw (intn 64)
  let p ← getProg
  let varSize := (mapAccessSize (p.argMap call) argType).getD size
  if p.totalStackUsage + varSize ≤ 400 then do
    let v ← freshVar
    modifyProg fun p => { p with totalStackUsage := p.totalStackUsage + varSize }
    pure (some { newBpfArg argType with
      name := .var v, isNotNull := true, prep := .chars v varSize },
      { call with stackVarSize := varSize })
  else do
    let v ← nextScratch
    pure (some { newBpfArg argType with name := .var v, isNotNull := true }, call)

def mapArg (argType : ArgType) (m : ℕ) : BpfArg :=
  { newBpfArg argType with name := .map m, isNotNull := true }

def generateMap (fuel : ℕ) (call : BpfCall) (argType : ArgType) :
    GenM (Option BpfArg × BpfCall) := do
  match call.hint.preferredMap, call.argMap with
  | some m, _ => pure (some (mapArg argType m), { call with argMap := some m })
  | none, some m => pure (some (mapArg argType m), call)
  | none, none => do
    let p ← getProg
    let (m, hints, pool) ← draw (chooseMap fuel p.env p.pool call.helper call.hint)
    modifyProg fun p => { p with pool }
    let call := { call with hint := { call.hint with argHints := hints } }
    match m with
    | none => pure (none, call)
    | some m => pure (some (mapArg argType m), { call with argMap := some m })

def RegType.generate (fuel : ℕ) (call : BpfCall) (argType : ArgType) :
    RegType → GenM (Option BpfArg × BpfCall)
  | .scalarValue => generateScalar call argType
  | .ptrToStack => generateStack call argType
  | .constPtrToMap => generateMap fuel call argType
  | .ptrToCtx => pure (some { newBpfArg argType with name := .ctx, isNotNull := true }, call)
  | .ptrToPercpuBtfId => do
    modifyProg fun p => { p with externs := [("bpf_prog_active", "int")] }
    pure (some { newBpfArg argType with name := .progActive, isNotNull := true }, call)
  | _ => pure (none, call)

def tryDirect (fuel : ℕ) (regTypes : List RegType) (argType : ArgType) :
    ℕ → BpfCall → GenM (Option BpfArg × BpfCall)
  | 0, call => pure (none, call)
  | n + 1, call => do
    let rt ← draw (pick regTypes)
    match ← rt.generate fuel call argType with
    | (some a, call) => pure (some a, call)
    | (none, call) => tryDirect fuel regTypes argType n call

def genRandDirectAccess (fuel : ℕ) (call : BpfCall) (argType : ArgType) :
    GenM (Option BpfArg × BpfCall) := do
  let (regTypes, _) ← genCompatibleRegTypes call.helper argType
  tryDirect fuel regTypes argType 5 call

/-! ### Context fields -/

/-- The variable a context field is loaded into, declared when it is first used. -/
def ctxVar (field typ : String) : GenM ℕ := do
  let p ← getProg
  match p.ctxVars.lookup field with
  | some v => pure v
  | none => do
    let v ← freshVar
    modifyProg fun p => { p with
      ctxVars := p.ctxVars ++ [(field, v)], ctxTypes := p.ctxTypes ++ [(field, typ)] }
    pure v

def ArgType.isSizedMem (t : ArgType) : Bool := t ∈ [.ptrToMem, .ptrToMemOrNull, .ptrToUninitMem]

/-- The bytes of the packet an argument accesses. For memory of any size they are drawn, and
recorded for the call. -/
def pktAccessSize (call : BpfCall) (argType : ArgType) : GenM (ℕ × BpfCall) := do
  if argType.isSizedMem then do
    let size ← draw (intn 128)
    pure (size, { call with stackVarSize := size })
  else if argType = .ptrToInt then pure (4, call)
  else if argType = .ptrToLong then pure (8, call)
  else do
    let p ← getProg
    pure ((mapAccessSize (p.argMap call) argType).getD 0, call)

/-- An argument loaded from a context field. Packet pointers need the variable of the other
end of their range. -/
def ctxArg (call : BpfCall) (argType : ArgType) (rt : RegType) (field : String) :
    GenM (BpfArg × BpfCall) := do
  let typ := if rt = .ptrToSockCommon then "struct sock_common*" else "void *"
  let v ← ctxVar field typ
  let a := { newBpfArg argType with name := .var v }
  if rt = .ptrToPacketMeta then do
    let _ ← ctxVar "data" typ
    let (size, call) ← pktAccessSize call argType
    pure ({ a with isPktMetaAccess := true, accessSize := size }, call)
  else if rt = .ptrToPacket then do
    let _ ← ctxVar "data_end" typ
    let (size, call) ← pktAccessSize call argType
    pure ({ a with isPktAccess := true, accessSize := size }, call)
  else pure (a, call)

def tryCtxAccess (regTypes : List RegType) (argType : ArgType) :
    ℕ → BpfCall → GenM (Option BpfArg × BpfCall)
  | 0, call => pure (none, call)
  | n + 1, call => do
    let rt ← draw (pick regTypes)
    let p ← getProg
    match ctxRanges p.pt.ctxAccess.regTypeMap rt with
    | none => tryCtxAccess regTypes argType n call
    | some fields => do
      let field ← orAbort fields.head?
      let accessible ← orAbort (p.pt.canAccess field)
      if accessible then do
        let (a, call) ← ctxArg call argType rt field
        pure (some a, call)
      else tryCtxAccess regTypes argType n call

def genRandBpfCtxAccess (call : BpfCall) (argType : ArgType) : GenM (Option BpfArg × BpfCall) := do
  let (regTypes, _) ← genCompatibleRegTypes call.helper argType
  tryCtxAccess regTypes argType 5 call

/-! ### Results of other calls -/

/-- The register types a helper's result has. The source names them by strings; two of its
names, `NOT_INIT` and `PTR_TO_MEM`, are those of no register type. -/
def retToRegTypeMap : RetType → List RegType
  | .integer => [.scalarValue]
  | .void => []
  | .ptrToMapValue => [.ptrToMapValue]
  | .ptrToMapValueOrNull => [.ptrToMapValue, .ptrToXdpSock, .ptrToSocket]
  | .ptrToSocketOrNull => [.ptrToSocket]
  | .ptrToTcpSockOrNull => [.ptrToTcpSock]
  | .ptrToSockCommonOrNull => [.ptrToSockCommon]
  -- `PtrToMemRegType` calls itself `PTR_TO_ALLOC_MEM`
  | .ptrToAllocMemOrNull => [.ptrToMem]
  | .ptrToBtfIdOrNull | .ptrToMemOrBtfIdOrNull | .ptrToMemOrBtfId | .ptrToBtfId => [.ptrToBtfId]

def helperCanReturn (helper : BpfHelper) (reg : RegType) (btfId : String) : Bool :=
  reg ∈ retToRegTypeMap helper.ret &&
    (btfId = "" ||
      match helper.ret with
      | .ptrToBtfIdOrNull | .ptrToBtfId => btfId = helper.retBtfId
      | .ptrToMemOrBtfIdOrNull | .ptrToMemOrBtfId => false
      | _ => true)

def genHint (producer : BpfHelper) (consumer : BpfCall) (argType : ArgType) :
    GenM BpfCallGenHint := do
  let p ← getProg
  let sockHints ←
    if argType ∈ [.ptrToSockCommon, .ptrToBtfIdSockCommon] &&
        producer.ret = .ptrToMapValueOrNull then do
      let xdp ← draw (nOutOf 1 2)
      pure (if xdp then [ArgHint.genXdpSockMap] else [.genSockMap])
    else if argType ∈ [.ptrToSocket, .ptrToSocketOrNull] && producer.ret = .ptrToMapValueOrNull then
      pure [.genSockMap]
    else pure []
  let memberHints :=
    match argType with
    | .ptrToSpinLock => [ArgHint.genSpinlock]
    | .ptrToTimer => [.genTimer]
    | .ptrToConstStr => [.genConstStr]
    | _ => []
  pure {
    argHints := sockHints ++ memberHints
    retAccessSize := (mapAccessSize (p.argMap consumer) argType).getD 0
    isRetAccessRaw := argType = .ptrToUninitMapValue || argType = .ptrToUninitMem
    preferredMap := none }

/-- The C type of a call's result, empty when it has none. -/
def bpfRetType (p : BpfProg) (call : BpfCall) : Option String :=
  match call.helper.ret with
  | .integer => some "uint64_t"
  | .ptrToMapValue | .ptrToMapValueOrNull => do
    let m ← p.argMap call
    match m.val with
    | none => pure "void *"
    | some sd => pure (if '[' ∈ sd.name.toList then "char *" else sd.name ++ "*")
  | .ptrToBtfIdOrNull | .ptrToBtfId => some (call.helper.retBtfId ++ "*")
  | .ptrToAllocMemOrNull | .ptrToMemOrBtfIdOrNull | .ptrToMemOrBtfId => some "void *"
  | .ptrToTcpSockOrNull | .ptrToSocketOrNull | .ptrToSockCommonOrNull => some "struct bpf_sock*"
  | .void => some ""

def retStruct (retType : String) : String :=
  if "struct_".toList.isPrefixOf retType.toList then
    String.ofList (retType.toList.takeWhile (· ≠ '*'))
  else ""

/-- Position of a member in the struct of that name, or `-1`. -/
def findMember (p : BpfProg) (structType : String) (member : FieldType) : ℤ :=
  match p.pool.structs.find? (·.name = structType) with
  | some sd => sd.findMember member
  | none => -1

/-- The members of a map value that leave `size` bytes up to its end. -/
def membersFor (sd : StructDef) (size : ℕ) : List ℕ :=
  (sd.fieldTypes.zipIdx.filter fun fi =>
    fi.1 ≠ .spinLock && fi.1 ≠ .timer && sd.offsetOfMember fi.2 + size ≤ sd.size).map Prod.snd

/-- How the result of `prod` is passed on: its name, whether it must be checked even for a kind
that may be null, and the consumer; `none` when no member fits. -/
def resultName (prod : BpfCall) (v : ℕ) (call : BpfCall) (argType : ArgType) :
    GenM (Option (ArgName × Bool) × BpfCall) := do
  let p ← getProg
  let member (f : FieldType) : ℤ := findMember p (retStruct prod.retType) f
  match argType with
  | .ptrToSpinLock => pure (some (.addrMember v (member .spinLock), false), call)
  | .ptrToTimer =>
    pure (some (.addrMember v (member .timer), false), { call with argMap := prod.argMap })
  | .ptrToConstStr => pure (some (.member v (member .char8), false), call)
  | _ =>
    if returnsMapValue prod.helper.ret then do
      let m ← orAbort (p.argMap prod)
      match m.val with
      | none => pure (some (.var v, false), call)
      | some sd =>
        if sd.fieldTypes.length < 2 then pure (some (.var v, false), call)
        else
          let members := membersFor sd prod.hint.retAccessSize
          if members = [] then pure (none, call)
          else do
            let e ← draw (pick members)
            pure (some (.addrMember v e, true), call)
    else pure (some (.var v, false), call)

/-- Result types whose values are never null, and the ones that are no pointers. -/
def RetType.isNotNull (t : RetType) : Bool :=
  t ∈ [.integer, .void, .ptrToMapValue, .ptrToMemOrBtfId, .ptrToBtfId]

/-- A map whose values the program reads or writes must allow it. -/
def allowAccess (argType : ArgType) (m : BpfMap) : BpfMap :=
  if argType = .ptrToUninitMapValue ∨ argType = .ptrToUninitMem then m.removeFlag .rdonlyProg
  else m.removeFlag .wronlyProg

/-- Generates the call of a helper; the flag asks for it to stand first in the program. -/
abbrev CallGen := BpfHelper → BpfCallGenHint → Bool → GenM (Option BpfCall)

def compatHelpers (helpers : List BpfHelper) (regTypes : List RegType) (btfId : String)
    (argType : ArgType) : List BpfHelper :=
  helpers.flatMap fun helper =>
    (regTypes.filter fun rt => helperCanReturn helper rt btfId &&
      !(argType = .constAllocSizeOrZero && rt = .scalarValue)).map fun _ => helper

def genRandBpfHelperCall (genCall : CallGen) (call : BpfCall) (argType : ArgType) :
    GenM (Option BpfArg × BpfCall) := do
  let (regTypes, btfId) ← genCompatibleRegTypes call.helper argType
  let p ← getProg
  let helpers := compatHelpers p.pt.helpers regTypes btfId argType
  if helpers = [] then pure (none, call)
  else do
    let helper ← draw (pick helpers)
    let hint ← genHint helper call argType
    match ← genCall helper hint false with
    | none => pure (none, call)
    | some prod => do
      let v ← orAbort prod.ret
      match ← resultName prod v call argType with
      | (none, call) => pure (none, call)
      | (some (name, checked), call) => do
        let a := newBpfArg argType
        let canBeNull := a.canBeNull && !checked
        if returnsMapValue prod.helper.ret then
          modifyProg fun p => { p with
            pool := { p.pool with
              maps := p.pool.maps.modify (prod.argMap.getD 0) (allowAccess argType) } }
        pure (some { a with name, canBeNull, isNotNull := prod.helper.ret.isNotNull && !canBeNull },
          call)

/-! ### Calls -/

inductive RefType where
  | socket | ringbuf
  deriving DecidableEq

/-- What kind of reference a call acquires. -/
def isRefAcquireCall (p : BpfProg) (call : BpfCall) : Option (Option RefType) :=
  match call.helper.enum with
  | .skLookupTcp | .skLookupUdp | .skcLookupTcp => some (some .socket)
  | .mapLookupElem => do
    let m ← p.argMap call
    pure (if m.type = .sockmap ∨ m.type = .sockhash then some .socket else none)
  | .ringbufReserve => some (some .ringbuf)
  | _ => some none

def isRefReleaseCall (helper : BpfHelper) : Option RefType :=
  match helper.enum with
  | .skRelease => some .socket
  | .ringbufSubmit | .ringbufDiscard => some .ringbuf
  | _ => none

def isRefPropagateCall (helper : BpfHelper) : Bool :=
  helper.enum ∈ [.tcpSock, .skFullsock, .skcToTcpSock, .skcToTcp6Sock, .skcToUdp6Sock,
    .skcToTcpTimewaitSock, .skcToTcpRequestSock]

def BpfProgType.getBpfHelpers (pt : BpfProgType) (enums : List HelperEnum) : List BpfHelper :=
  pt.helpers.flatMap fun h => (enums.filter (h.enum = ·)).map fun _ => h

/-- Falls back to the next way of generating an argument. -/
def orElseGen (enabled : GenM Bool) (g : BpfCall → GenM (Option BpfArg × BpfCall))
    (r : Option BpfArg × BpfCall) : GenM (Option BpfArg × BpfCall) := do
  match r with
  | (some a, call) => pure (some a, call)
  | (none, call) => do
    if ← enabled then g call else pure (none, call)

/-- Argument number `arg` of a call. The number of bytes recorded for the call bounds a size. -/
def genBpfHelperCallArg (fuel : ℕ) (genCall : CallGen) (call : BpfCall) (arg : ℕ) :
    GenM (Bool × BpfCall) := do
  let argType ← orAbort call.helper.args[arg]?
  let fixed : Option BpfArg :=
    if call.helper.enum = .getLocalStorage ∧ arg = 1 then
      some { newBpfArg argType with name := .zero, isNotNull := true }
    else none
  let r ← orElseGen (draw (nOutOf 1 3))
    (fun call => genRandBpfHelperCall genCall call argType) (fixed, call)
  let r ← orElseGen (draw (nOutOf 1 2)) (fun call => genRandBpfCtxAccess call argType) r
  let r ← orElseGen (pure true) (fun call => genRandDirectAccess fuel call argType) r
  match r with
  | (none, call) => pure (false, call)
  | (some a, call) =>
    let a :=
      if argType = .constSize ∨ argType = .constSizeOrZero then
        { a with umax := call.stackVarSize }
      else a
    -- a check on another argument could skip the release and leak the reference
    if (isRefReleaseCall call.helper).isSome ∧ arg ≠ 0 ∧ !a.isNotNull ∧ !a.canBeNull then
      pure (false, call)
    else pure (true, { call with args := call.args ++ [a] })

def genArgAttempts (genArg : BpfCall → ℕ → GenM (Bool × BpfCall)) :
    ℕ → BpfCall → ℕ → GenM (Option BpfCall)
  | 0, _, _ => pure none
  | n + 1, call, arg => do
    match ← genArg call arg with
    | (true, call) => pure (some call)
    | (false, call) => genArgAttempts genArg n call arg

/-- The arguments from number `arg` on, each with at most 51 attempts. -/
def genArgs (genArg : BpfCall → ℕ → GenM (Bool × BpfCall)) :
    ℕ → BpfCall → ℕ → GenM (Option BpfCall)
  | 0, call, _ => pure (some call)
  | n + 1, call, arg => do
    match ← genArgAttempts genArg 51 call arg with
    | none => pure none
    | some call => genArgs genArg n call (arg + 1)

/-- A finished call gets its result variable and joins the program. -/
def addCall (call : BpfCall) (prepend : Bool) : GenM (Option BpfCall) := do
  let p ← getProg
  let retType ← orAbort (bpfRetType p call)
  let v ← freshVar
  let call := { call with ret := some v, retType }
  modifyProg fun p => { p with
    calls := if prepend then call :: p.calls else p.calls ++ [call] }
  modify fun st => { st with rd := st.rd - 1 }
  pure (some call)

/-- The nesting counter `rd` stops a generation that is nested too deep; a failed generation
does not lower it again. -/
def genBpfHelperCall : ℕ → CallGen
  | 0, _, _, _ => abort
  | fuel + 1, helper, hint, prepend => do
    modify fun st => { st with rd := st.rd + 1 }
    let st ← get
    if 100 < st.rd then pure none
    else do
      match ← genArgs (genBpfHelperCallArg fuel (genBpfHelperCall fuel)) helper.args.length
          (newBpfCall helper hint) 0 with
      | none => pure none
      | some call => do
        let p ← getProg
        let acquires ← orAbort (isRefAcquireCall p call)
        if acquires = some .socket ∧ p.pt.getBpfHelpers [.skRelease] = [] then pure none
        else addCall call prepend

end Brf.HelperCalls
