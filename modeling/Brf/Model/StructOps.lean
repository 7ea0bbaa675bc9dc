import Brf.Lib.Gen

/-! # The generated MPTCP struct_ops scheduler

`genStructOpsProg` draws a scheduler with three callbacks. A body is a list of statements
over locals named by one counter that all three callbacks share. -/

namespace Brf.StructOps

open Brf.Lib Gen

/-- A kernel function callable from a struct_ops program. An empty `retType` is `void`. -/
structure BpfKfunc where
  name : String
  cDecl : String
  retType : String
  argTypes : List String
  isPtrRet : Bool
  retNull : Bool
deriving DecidableEq

/-- A KF_RET_NULL pointer result has to be bound and checked before any use. -/
def BpfKfunc.needsNullGuard (kf : BpfKfunc) : Bool :=
  kf.isPtrRet && kf.retNull

def mptcpSchedKfuncs : List BpfKfunc := [
  { name := "bpf_mptcp_subflow_ctx"
    cDecl := "extern struct mptcp_subflow_context *\n" ++
      "bpf_mptcp_subflow_ctx(const struct sock *sk) __ksym;"
    retType := "struct mptcp_subflow_context *"
    argTypes := ["const struct sock *"]
    isPtrRet := true
    retNull := true },
  { name := "mptcp_subflow_set_scheduled"
    cDecl := "extern void\n" ++
      "mptcp_subflow_set_scheduled(struct mptcp_subflow_context *subflow,\n" ++
      "\t\t\t    bool scheduled) __ksym;"
    retType := ""
    argTypes := ["struct mptcp_subflow_context *", "bool"]
    isPtrRet := false
    retNull := false },
  { name := "bpf_mptcp_subflow_tcp_sock"
    cDecl := "extern struct sock *\n" ++
      "bpf_mptcp_subflow_tcp_sock(const struct mptcp_subflow_context *subflow) __ksym;"
    retType := "struct sock *"
    argTypes := ["const struct mptcp_subflow_context *"]
    isPtrRet := true
    retNull := true },
  -- KF_RET_NULL on a scalar result only says that it may be 0
  { name := "bpf_sk_stream_memory_free"
    cDecl := "extern bool\n" ++
      "bpf_sk_stream_memory_free(const struct sock *sk) __ksym;"
    retType := "bool"
    argTypes := ["const struct sock *"]
    isPtrRet := false
    retNull := true },
  { name := "bpf_mptcp_subflow_queues_empty"
    cDecl := "extern bool\n" ++
      "bpf_mptcp_subflow_queues_empty(struct sock *sk) __ksym;"
    retType := "bool"
    argTypes := ["struct sock *"]
    isPtrRet := false
    retNull := false },
  { name := "mptcp_subflow_active"
    cDecl := "extern bool\n" ++
      "mptcp_subflow_active(struct mptcp_subflow_context *subflow) __ksym;"
    retType := "bool"
    argTypes := ["struct mptcp_subflow_context *"]
    isPtrRet := false
    retNull := false },
  { name := "mptcp_set_timeout"
    cDecl := "extern void\n" ++
      "mptcp_set_timeout(struct sock *sk) __ksym;"
    retType := ""
    argTypes := ["struct sock *"]
    isPtrRet := false
    retNull := false },
  { name := "mptcp_wnd_end"
    cDecl := "extern __u64\n" ++
      "mptcp_wnd_end(const struct mptcp_sock *msk) __ksym;"
    retType := "__u64"
    argTypes := ["const struct mptcp_sock *"]
    isPtrRet := false
    retNull := false }]

def mptcpSubflowIterKfuncs : List BpfKfunc := [
  { name := "bpf_iter_mptcp_subflow_new"
    cDecl := "extern int\n" ++
      "bpf_iter_mptcp_subflow_new(struct bpf_iter_mptcp_subflow *it,\n" ++
      "\t\t\t   struct sock *sk) __ksym;"
    retType := "int"
    argTypes := ["struct bpf_iter_mptcp_subflow *", "struct sock *"]
    isPtrRet := false
    retNull := false },
  { name := "bpf_iter_mptcp_subflow_next"
    cDecl := "extern struct mptcp_subflow_context *\n" ++
      "bpf_iter_mptcp_subflow_next(struct bpf_iter_mptcp_subflow *it) __ksym;"
    retType := "struct mptcp_subflow_context *"
    argTypes := ["struct bpf_iter_mptcp_subflow *"]
    isPtrRet := true
    retNull := true },
  { name := "bpf_iter_mptcp_subflow_destroy"
    cDecl := "extern void\n" ++
      "bpf_iter_mptcp_subflow_destroy(struct bpf_iter_mptcp_subflow *it) __ksym;"
    retType := ""
    argTypes := ["struct bpf_iter_mptcp_subflow *"]
    isPtrRet := false
    retNull := false }]

structure StructOpsCtxField where
  owner : String
  field : String
  accessor : String
  ctype : String
deriving DecidableEq

def mptcpSchedWriteFields : List StructOpsCtxField := [
  { owner := "struct mptcp_sock", field := "snd_burst"
    accessor := "msk->snd_burst", ctype := "int" },
  { owner := "struct mptcp_subflow_context", field := "avg_pacing_rate"
    accessor := "subflow->avg_pacing_rate", ctype := "unsigned long" }]

inductive StructOpsStmtKind where
  | ctxRead | ctxWrite | arith | kfuncCall | subflowIter | ifElse
deriving DecidableEq

/-- One statement of a generated body. Each constructor carries the fields that the
generator sets for its kind; a void call has the empty `var`. -/
inductive StructOpsStmt where
  | ctxRead (fieldIdx : ℕ) (fieldAccessor fieldCType var : String)
  | ctxWrite (fieldIdx : ℕ) (fieldAccessor fieldCType : String) (val : ℤ)
  | arith (var ctype srcVar op : String) (val : ℤ)
  | kfuncCall (kfuncIdx : ℕ) (kfuncArgs : List String) (var ctype : String) (nullGuard : Bool)
  | subflowIter (iterId : ℕ) (var iterSockExpr : String) (iterBody : List StructOpsStmt)
  | ifElse (condVar condOp : String) (condVal : ℤ) (ifBody elseBody : List StructOpsStmt)

def StructOpsStmt.kind : StructOpsStmt → StructOpsStmtKind
  | .ctxRead .. => .ctxRead
  | .ctxWrite .. => .ctxWrite
  | .arith .. => .arith
  | .kfuncCall .. => .kfuncCall
  | .subflowIter .. => .subflowIter
  | .ifElse .. => .ifElse

/-- Induction over a body and the bodies nested in its statements. -/
theorem body_induction {P : StructOpsStmt → Prop} {Q : List StructOpsStmt → Prop} (nil : Q [])
    (cons : ∀ st rest, P st → Q rest → Q (st :: rest))
    (ctxRead : ∀ fi accessor ctype var, P (.ctxRead fi accessor ctype var))
    (ctxWrite : ∀ fi accessor ctype val, P (.ctxWrite fi accessor ctype val))
    (arith : ∀ var ctype srcVar op val, P (.arith var ctype srcVar op val))
    (kfuncCall : ∀ ki args var ctype nullGuard, P (.kfuncCall ki args var ctype nullGuard))
    (subflowIter : ∀ iterId var sock body, Q body → P (.subflowIter iterId var sock body))
    (ifElse : ∀ condVar condOp condVal ifBody elseBody, Q ifBody → Q elseBody →
      P (.ifElse condVar condOp condVal ifBody elseBody)) (body : List StructOpsStmt) : Q body :=
  StructOpsStmt.rec_1 ctxRead ctxWrite arith kfuncCall subflowIter ifElse nil cons body

structure StructOpsProg where
  schedName : String
  writeFields : List StructOpsCtxField
  kfuncs : List BpfKfunc
  iterKfuncs : List BpfKfunc
  getSendBody : List StructOpsStmt
  initBody : List StructOpsStmt
  releaseBody : List StructOpsStmt

def structOpsArithOps : List String := ["+", "-", "*", "^", "|", "&"]

def structOpsCondOps : List String := ["", ">", "<", "==", "!=", "&"]

/-- A value sized to a field's C type: signed 32-bit for `int`, non-negative otherwise. -/
def genStructOpsCtxValue (ctype : String) : Gen ℤ :=
  if ctype = "int" then do
    let n ← intn (2 ^ 32)
    pure ((n : ℤ) - 2 ^ 31)
  else do
    let n ← intn (2 ^ 31)
    pure (n : ℤ)

/-! ### Types and values in scope -/

/-- Drop every leading `const ` that has text after it. -/
def stripConst : List Char → List Char
  | 'c' :: 'o' :: 'n' :: 's' :: 't' :: ' ' :: c :: rest => stripConst (c :: rest)
  | cs => cs

def normalizeCType (t : String) : String :=
  String.ofList (stripConst t.toList)

structure TypedVal where
  expr : String
  ctype : String
deriving DecidableEq

structure ReadVar where
  name : String
  ctype : String
deriving DecidableEq

def scalarCType (t : String) : Bool :=
  normalizeCType t ∈ ["int", "unsigned long", "bool", "__u64", "u64", "long"]

/-- The expressions offered for one parameter. A `bool` parameter also takes a literal. -/
def argCands (pool : List TypedVal) (pt : String) : List String :=
  (pool.filter (fun v => v.ctype = normalizeCType pt)).map TypedVal.expr ++
    if normalizeCType pt = "bool" then ["true", "false"] else []

/-- One drawn argument per parameter, or `none` when a parameter has no candidate. -/
def pickArgs (pool : List TypedVal) : List String → Gen (Option (List String))
  | [] => pure (some [])
  | pt :: pts =>
    if argCands pool pt = [] then pure none
    else do
      let arg ← pick (argCands pool pt)
      let args ← pickArgs pool pts
      pure (args.map (arg :: ·))

def pickKfuncArgs (kf : BpfKfunc) (pool : List TypedVal) : Gen (Option (List String)) :=
  pickArgs pool kf.argTypes

structure CtxWriteField where
  accessor : String
  ctype : String
deriving DecidableEq

/-- What a body may see and emit. -/
structure BodyScope where
  pool : List TypedVal
  writeFields : List CtxWriteField
  allowIter : Bool
  requireWrite : Bool
  noReturn : Bool
  allowIf : Bool
  depth : ℕ
  minStmt : ℕ
  maxStmt : ℕ

def ifElseMaxDepth : ℕ := 2

def localVar (varId : ℕ) : String := "s" ++ toString varId

def iterVar (iterId : ℕ) : String := "it" ++ toString iterId

def subflowVar (iterId : ℕ) : String := "sf" ++ toString iterId

/-! ### Generation of a body -/

/-- The loop state of `genStructOpsBody`: what it has emitted, the scalar locals, the typed
values in scope, and the shared counter. -/
structure BodyState where
  body : List StructOpsStmt
  readVars : List ReadVar
  pool : List TypedVal
  varId : ℕ

/-- A generator of nested bodies, given its scope and the counter. -/
abbrev BodyGen := BodyScope → ℕ → Gen (List StructOpsStmt × ℕ)

/-- The two kfuncs of the fixed prologue and epilogue, which no generated call names. -/
def isSkeletonKfunc (kf : BpfKfunc) : Bool :=
  kf.name = "bpf_mptcp_subflow_ctx" || kf.name = "mptcp_subflow_set_scheduled"

/-- Indices, counted from `ki`, of the kfuncs whose arguments the pool can supply. Each
candidate is tried by drawing arguments for it. -/
def callableKfuncs (sc : BodyScope) (pool : List TypedVal) : ℕ → List BpfKfunc → Gen (List ℕ)
  | _, [] => pure []
  | ki, kf :: kfs =>
    if isSkeletonKfunc kf then callableKfuncs sc pool (ki + 1) kfs
    else if sc.noReturn && kf.needsNullGuard then callableKfuncs sc pool (ki + 1) kfs
    else do
      let args ← pickKfuncArgs kf pool
      let idxs ← callableKfuncs sc pool (ki + 1) kfs
      pure (if args.isSome then ki :: idxs else idxs)

def emitCtxRead (sc : BodyScope) (st : BodyState) (fi : ℕ) : Gen BodyState :=
  match sc.writeFields[fi]? with
  | none => failure
  | some f =>
    let v := localVar st.varId
    pure {
      body := st.body ++ [.ctxRead fi f.accessor f.ctype v]
      readVars := st.readVars ++ [⟨v, f.ctype⟩]
      pool := st.pool ++ [⟨v, normalizeCType f.ctype⟩]
      varId := st.varId + 1 }

def emitCtxWrite (sc : BodyScope) (st : BodyState) (fi : ℕ) : Gen BodyState :=
  match sc.writeFields[fi]? with
  | none => failure
  | some f => do
    let val ← genStructOpsCtxValue f.ctype
    pure { st with body := st.body ++ [.ctxWrite fi f.accessor f.ctype val] }

def emitArith (st : BodyState) : Gen BodyState := do
  let src ← pick st.readVars
  let v := localVar st.varId
  let op ← pick structOpsArithOps
  let val ← intn (2 ^ 16)
  pure {
    body := st.body ++ [.arith v src.ctype src.name op val]
    readVars := st.readVars ++ [⟨v, src.ctype⟩]
    pool := st.pool ++ [⟨v, normalizeCType src.ctype⟩]
    varId := st.varId + 1 }

/-- Append a call of kfunc `ki` and publish its result. -/
def publishCall (st : BodyState) (ki : ℕ) (kf : BpfKfunc) (args : List String) : BodyState :=
  let v := localVar st.varId
  let bound : TypedVal := ⟨v, normalizeCType kf.retType⟩
  if kf.retType = "" then
    { st with body := st.body ++ [.kfuncCall ki args "" "" false] }
  else if kf.needsNullGuard then
    -- the guard is rendered with the call, so the pool only ever holds checked pointers
    { st with
      body := st.body ++ [.kfuncCall ki args v kf.retType true]
      pool := st.pool ++ [bound]
      varId := st.varId + 1 }
  else
    { body := st.body ++ [.kfuncCall ki args v kf.retType false]
      readVars := if scalarCType kf.retType then st.readVars ++ [⟨v, kf.retType⟩] else st.readVars
      pool := st.pool ++ [bound]
      varId := st.varId + 1 }

def emitKfuncCall (kfuncs : List BpfKfunc) (sc : BodyScope) (st : BodyState) : Gen BodyState := do
  let idxs ← callableKfuncs sc st.pool 0 kfuncs
  let ki ← pick idxs
  match kfuncs[ki]? with
  | none => failure
  | some kf =>
    let args ← pickKfuncArgs kf st.pool
    match args with
    | none => do
      let fi ← intn sc.writeFields.length
      emitCtxRead sc st fi
    | some args => pure (publishCall st ki kf args)

/-- The scope of both branches of an `if`: nothing in a branch may return. -/
def branchScope (sc : BodyScope) (seedPool : List TypedVal) : BodyScope where
  pool := seedPool
  writeFields := sc.writeFields
  allowIter := sc.allowIter
  requireWrite := false
  noReturn := true
  allowIf := sc.allowIf
  depth := sc.depth + 1
  minStmt := 1
  maxStmt := 3

/-- A bare truthiness test has no constant. -/
def genCondVal (condOp : String) : Gen ℕ :=
  if condOp ≠ "" then Gen.intn (2 ^ 16) else pure 0

def genIfElse (genBody : BodyGen) (sc : BodyScope) (varId : ℕ) (seedPool : List TypedVal)
    (condNames : List String) : Gen (StructOpsStmt × ℕ) := do
  let condVar ← pick condNames
  let condOp ← pick structOpsCondOps
  let condVal ← genCondVal condOp
  let (ifBody, varId) ← genBody (branchScope sc seedPool) varId
  let coin ← intn 2
  if coin = 0 then do
    let (elseBody, varId) ← genBody (branchScope sc seedPool) varId
    pure (.ifElse condVar condOp condVal ifBody elseBody, varId)
  else
    pure (.ifElse condVar condOp condVal ifBody [], varId)

/-- The scope of an iterator loop: its own subflow, and nothing declared before the loop. -/
def loopScope (sfVar : String) : BodyScope where
  pool := [⟨"msk", "struct mptcp_sock *"⟩, ⟨"msk->first", "struct sock *"⟩,
    ⟨sfVar, "struct mptcp_subflow_context *"⟩]
  writeFields := [⟨"msk->snd_burst", "int"⟩, ⟨sfVar ++ "->avg_pacing_rate", "unsigned long"⟩]
  allowIter := false
  requireWrite := false
  noReturn := true
  allowIf := false
  depth := 0
  minStmt := 0
  maxStmt := 3

def genSubflowIter (genBody : BodyGen) (varId : ℕ) : Gen (StructOpsStmt × ℕ) := do
  let sfVar := subflowVar varId
  let (loopBody, varId') ← genBody (loopScope sfVar) (varId + 1)
  pure (.subflowIter varId sfVar "(struct sock *)msk" loopBody, varId')

def scopeKinds (sc : BodyScope) : List StructOpsStmtKind :=
  [.ctxRead, .ctxWrite, .arith, .kfuncCall] ++
    (if sc.allowIter then [.subflowIter] else []) ++
    (if sc.allowIf && sc.depth < ifElseMaxDepth then [.ifElse] else [])

/-- The last statement may be forced to be a write, and arithmetic needs an operand. -/
def writeBias (sc : BodyScope) (st : BodyState) (isLast : Bool) (drawn : StructOpsStmtKind) :
    StructOpsStmtKind :=
  let haveWrite := st.body.any (fun s => s.kind = .ctxWrite)
  let kind := if sc.requireWrite && isLast && !haveWrite then .ctxWrite else drawn
  if kind = .arith ∧ st.readVars = [] then .ctxRead else kind

/-- A call falls back to a read when no kfunc is satisfiable from the pool. -/
def callFallback (kfuncs : List BpfKfunc) (sc : BodyScope) (st : BodyState)
    (kind : StructOpsStmtKind) : Gen StructOpsStmtKind :=
  if kind = .kfuncCall then do
    let idxs ← callableKfuncs sc st.pool 0 kfuncs
    pure (if idxs = [] then .ctxRead else kind)
  else pure kind

def chooseKind (kfuncs : List BpfKfunc) (sc : BodyScope) (st : BodyState) (isLast : Bool)
    (drawn : StructOpsStmtKind) : Gen StructOpsStmtKind := do
  let kind ← callFallback kfuncs sc st (writeBias sc st isLast drawn)
  pure (if kind = .ifElse ∧ st.readVars = [] then .ctxRead else kind)

def emitKind (kfuncs : List BpfKfunc) (genBody : BodyGen) (sc : BodyScope) (st : BodyState) :
    StructOpsStmtKind → Gen BodyState
  | .ctxRead => do
    let fi ← intn sc.writeFields.length
    emitCtxRead sc st fi
  | .ctxWrite => do
    let fi ← intn sc.writeFields.length
    emitCtxWrite sc st fi
  | .arith => emitArith st
  | .kfuncCall => emitKfuncCall kfuncs sc st
  | .subflowIter => do
    let (stmt, varId) ← genSubflowIter genBody st.varId
    pure { st with body := st.body ++ [stmt], varId := varId }
  | .ifElse => do
    let (stmt, varId) ← genIfElse genBody sc st.varId st.pool (st.readVars.map ReadVar.name)
    pure { st with body := st.body ++ [stmt], varId := varId }

def genStmt (kfuncs : List BpfKfunc) (genBody : BodyGen) (sc : BodyScope) (nStmt i : ℕ)
    (st : BodyState) : Gen BodyState := do
  let drawn ← pick (scopeKinds sc)
  let kind ← chooseKind kfuncs sc st (i + 1 = nStmt) drawn
  emitKind kfuncs genBody sc st kind

/-- `genStructOpsBody`, with `fuel` bounding how deep bodies nest. -/
def genStructOpsBody (kfuncs : List BpfKfunc) : ℕ → BodyGen
  | 0, _, _ => failure
  | fuel + 1, sc, varId => do
    let span := max (sc.maxStmt + 1 - sc.minStmt) 1
    let extra ← intn span
    let nStmt := sc.minStmt + extra
    let st ← loop (genStmt kfuncs (genStructOpsBody kfuncs fuel) sc nStmt) 0 nStmt
      ⟨[], [], sc.pool, varId⟩
    pure (st.body, st.varId)

/-! ### The three callbacks -/

def schedWriteFieldsResolved : List CtxWriteField :=
  mptcpSchedWriteFields.map (fun f => ⟨f.accessor, f.ctype⟩)

def getSendScope : BodyScope where
  pool := [⟨"msk", "struct mptcp_sock *"⟩, ⟨"msk->first", "struct sock *"⟩,
    ⟨"subflow", "struct mptcp_subflow_context *"⟩]
  writeFields := schedWriteFieldsResolved
  allowIter := true
  requireWrite := true
  noReturn := false
  allowIf := true
  depth := 0
  minStmt := 3
  maxStmt := 8

def initReleaseScope : BodyScope where
  pool := [⟨"msk", "struct mptcp_sock *"⟩, ⟨"msk->first", "struct sock *"⟩]
  writeFields := [⟨"msk->snd_burst", "int"⟩]
  allowIter := false
  requireWrite := false
  noReturn := true
  allowIf := false
  depth := 0
  minStmt := 2
  maxStmt := 4

def schedNameMax : ℕ := 16

def schedName (n : ℕ) : String :=
  let name := "brf_".toList ++ Nat.toDigits 16 n
  String.ofList (if name.length ≥ schedNameMax then name.take (schedNameMax - 1) else name)

/-- Bodies nest at most this deep: an `if` at each depth below the cap, and one loop. -/
def bodyFuel : ℕ := ifElseMaxDepth + 2

def genStructOpsProg : Gen StructOpsProg := do
  let kfuncs := mptcpSchedKfuncs
  let n ← intn (2 ^ 24)
  let (getSendBody, varId) ← genStructOpsBody kfuncs bodyFuel getSendScope 0
  let (initBody, varId) ← genStructOpsBody kfuncs bodyFuel initReleaseScope varId
  let (releaseBody, _) ← genStructOpsBody kfuncs bodyFuel initReleaseScope varId
  pure {
    schedName := schedName n
    writeFields := mptcpSchedWriteFields
    kfuncs := kfuncs
    iterKfuncs := mptcpSubflowIterKfuncs
    getSendBody := getSendBody
    initBody := initBody
    releaseBody := releaseBody }

end Brf.StructOps
