import Brf.Model.HelperCalls

/-! # Programs and their repair

`genBpfProg` builds a program around one randomly chosen helper. `fixRef` then balances the
calls that acquire and release references, and `fixSpinLock` pairs lock and unlock calls. Both
insert calls into a finished program. -/

namespace Brf.HelperCalls

open Brf.Lib

/-! ### Generation of a program -/

def genRandReturnVal : ProgTypeEnum → Gen ℕ
  | .cgroupSockAddr => pure 1
  | .rawTracepoint | .tracing => pure 0
  | .cgroupSkb | .cgroupSock | .sockOps | .cgroupDevice | .cgroupSysctl | .cgroupSockopt
  | .skLookup | .netfilter => Gen.intn 2
  | _ => Gen.intn (2 ^ 32)

def scratchMap : BpfMap where
  type := .percpuArray
  flags := []
  key := some ⟨"uint32_t", [.u32], 4, [], false⟩
  val := some ⟨"char [256]", [.char256], 256, [], false⟩
  maxEntries := 10
  innerMap := none

/-- An empty program. The ten scratch buffers take the first variables. -/
def newBpfProg (pt : BpfProgType) : Gen BpfProg := do
  let retVal ← genRandReturnVal pt.enum
  let sec ← Gen.pick pt.secDefs
  let name ← sec.secDefGen.getD (pure "")
  pure {
    pt
    sleepable := sec.sleepable
    secStr := "SEC(\"" ++ sec.sec ++ name ++ "\")\n"
    retVal
    pool := ⟨[scratchMap], []⟩
    calls := []
    externs := []
    ctxVars := []
    ctxTypes := []
    totalStackUsage := 0
    scratchMapVars := List.range 10
    scratchMapIndex := 0
    varId := 10 }

/-- The helper-call path of `GenBpfProg` for a program type; `none` is a failed generation. -/
def genBpfProg (fuel : ℕ) (pt : BpfProgType) (regTypes : RegTable → List RegType) :
    Gen (Option BpfCall × GenState) := do
  let helper ← Gen.pick pt.helpers
  let p ← newBpfProg pt
  genBpfHelperCall fuel helper (newBpfCallGenHint none) false ⟨p, 0, regTypes⟩

/-! ### References -/

/-- A reference to a counted object. `calls` are known by their result variables. -/
structure ObjRef where
  vars : List ArgName
  objMap : Option ℕ
  typ : RefType
  count : ℤ
  calls : List ℕ

/-- The references found so far; several names can stand for one of them. -/
structure RefMap where
  refs : List ObjRef
  names : List (ArgName × ℕ)

namespace RefMap

def lookup (m : RefMap) (v : ArgName) : Option ℕ := m.names.lookup v

/-- The reference named `v`, created if there is none. -/
def ensure (m : RefMap) (v : ArgName) (call : BpfCall) (typ : RefType) (ret : ℕ) : RefMap × ℕ :=
  match m.lookup v with
  | some i => (m, i)
  | none => (⟨m.refs ++ [⟨[v], call.argMap, typ, 0, [ret]⟩], m.names ++ [(v, m.refs.length)]⟩,
      m.refs.length)

def addCount (m : RefMap) (i : ℕ) (d : ℤ) : RefMap :=
  { m with refs := m.refs.modify i fun ref => { ref with count := ref.count + d } }

end RefMap

def countAcquire (p : BpfProg) (m : RefMap) (call : BpfCall) (ret : ℕ) : Option RefMap := do
  match ← isRefAcquireCall p call with
  | none => pure m
  | some typ =>
    let (m, i) := m.ensure (.var ret) call typ ret
    pure (m.addCount i 1)

def countRelease (m : RefMap) (call : BpfCall) (ret : ℕ) : Option RefMap :=
  match isRefReleaseCall call.helper with
  | none => some m
  | some typ => do
    let a ← call.args.head?
    let (m, i) := m.ensure a.name call typ ret
    pure (m.addCount i (-1))

def countPropagate (m : RefMap) (call : BpfCall) (ret : ℕ) : Option RefMap :=
  if isRefPropagateCall call.helper then do
    let a ← call.args.head?
    match m.lookup a.name with
    | none => pure m
    | some i => pure {
        refs := m.refs.modify i fun ref =>
          { ref with calls := ref.calls ++ [ret], vars := ref.vars ++ [.var ret] }
        names := m.names ++ [(.var ret, i)] }
  else some m

def countCall (p : BpfProg) (m : RefMap) (call : BpfCall) : Option RefMap := do
  let ret ← call.ret
  let m ← countAcquire p m call ret
  let m ← countRelease m call ret
  countPropagate m call ret

/-- The references of a program with how often each is acquired beyond its releases. -/
def scanRefs (p : BpfProg) : Option RefMap := p.calls.foldlM (countCall p) ⟨[], []⟩

def acquireHelpers (pt : BpfProgType) : RefType → List BpfHelper
  | .socket => pt.getBpfHelpers [.skLookupTcp, .skLookupUdp, .skcLookupTcp, .mapLookupElem]
  | .ringbuf => pt.getBpfHelpers [.ringbufReserve]

def releaseHelpers (pt : BpfProgType) : RefType → List BpfHelper
  | .socket => pt.getBpfHelpers [.skRelease]
  | .ringbuf => pt.getBpfHelpers [.ringbufSubmit, .ringbufDiscard]

def setFirstArg (name : ArgName) (call : BpfCall) : BpfCall :=
  { call with args := call.args.modify 0 fun a => { a with name } }

def BpfProg.modifyCall (p : BpfProg) (ret : ℕ) (f : BpfCall → BpfCall) : BpfProg :=
  { p with calls := p.calls.map fun c => if c.ret = some ret then f c else c }

/-- A reference is released more often than acquired: a call that acquires one is put first. -/
def fixUnderflow (fuel : ℕ) (ref : ObjRef) : GenM Unit := do
  let p ← getProg
  let helpers := acquireHelpers p.pt ref.typ
  if helpers = [] then pure ()
  else do
    let helper ← draw (Gen.pick helpers)
    match ← genBpfHelperCall fuel helper (newBpfCallGenHint ref.objMap) true with
    | none => pure ()
    | some prod => do
      let v ← orAbort prod.ret
      let first ← orAbort ref.calls.head?
      modifyProg (·.modifyCall first (setFirstArg (.var v)))

/-- The arguments of an added release call: the released variable, and flags for a ring
buffer. -/
def releaseArgs (helper : BpfHelper) (v : ArgName) : List BpfArg :=
  helper.args.zipIdx.map fun ti =>
    if ti.2 = 0 then { newBpfArg ti.1 with name := v }
    else { newBpfArg ti.1 with name := .zero, isNotNull := true }

/-- A reference leaks: a socket is released right after the call that acquires it, a ring
buffer record by a call at the end. -/
def fixLeak (ref : ObjRef) : GenM Bool := do
  let p ← getProg
  let helpers := releaseHelpers p.pt ref.typ
  if helpers = [] then pure false
  else do
    let helper ← draw (Gen.pick helpers)
    let v ← draw (Gen.pick ref.vars)
    match ref.typ with
    | .socket => do
      let first ← orAbort ref.calls.head?
      modifyProg (·.modifyCall first fun c =>
        { c with postCalls := c.postCalls ++ [⟨helper, releaseArgs helper v⟩] })
    | .ringbuf =>
      let call := { newBpfCall helper (newBpfCallGenHint ref.objMap) with
        args := releaseArgs helper v }
      modifyProg fun p => { p with calls := p.calls ++ [call] }
    pure true

/-- One round of the repair loop, for the reference at `i`. -/
def fixRefAt (fuel : ℕ) (refs : List ObjRef) (i : ℕ) : GenM (List ObjRef) := do
  let ref ← orAbort refs[i]?
  if ref.count < 0 then fixUnderflow fuel ref
  if 0 < ref.count then do
    let fixed ← fixLeak ref
    pure (if fixed then refs.set i { ref with count := 0 } else refs)
  else pure refs

def fixRefs (fuel : ℕ) : List ℕ → List ObjRef → GenM Unit
  | [], _ => pure ()
  | i :: is, refs => do
    let refs ← fixRefAt fuel refs i
    fixRefs fuel is refs

/-- The loop runs over a Go map, so the names come in any order. -/
def fixRef (fuel : ℕ) (order : List ℕ → List ℕ) : GenM Unit := do
  let p ← getProg
  let m ← orAbort (scanRefs p)
  fixRefs fuel (order (m.names.map Prod.snd)) m.refs

/-! ### Spin locks -/

/-- The loop state of `fixSpinLock`. Calls are shared by reference, so `calls` and the slice
`view` that the loop ranges over hold positions in `store`. `shared` says whether the two
slices still share their array. -/
structure LockState where
  store : List BpfCall
  calls : List ℕ
  view : List ℕ
  shared : Bool
  lockHeld : Option ArgName

namespace LockState

/-- The first argument's name of the call at position `i`. -/
def argNameAt (s : LockState) (i : ℕ) : Option ArgName := do
  let k ← s.calls[i]?
  let c ← s.store[k]?
  let a ← c.args.head?
  pure a.name

/-- Insert a call of `helper` at position `pos`, for the lock that the call at `i` names. With
room left in the array the range loop sees the shifted elements. -/
def insertCall (s : LockState) (helper : BpfHelper) (i pos : ℕ) (inPlace : Bool) :
    Option LockState := do
  let name ← s.argNameAt i
  let t ← helper.args.head?
  let call := { newBpfCall helper (newBpfCallGenHint none) with
    args := [{ newBpfArg t with name := name }] }
  let calls := s.calls.take pos ++ s.store.length :: s.calls.drop pos
  pure {
    store := s.store ++ [call]
    calls
    view := if s.shared && inPlace then calls.take s.view.length else s.view
    shared := s.shared && inPlace
    lockHeld := some name }

end LockState

def BpfProgType.getHelper (pt : BpfProgType) (enum : HelperEnum) : Option BpfHelper :=
  pt.helpers.find? (·.enum = enum)

/-- An unlock without a lock gets one in front; an unlock of another lock is redirected. The
flag says whether the loop goes on. -/
def fixUnlock (pt : BpfProgType) (inPlace : Bool) (i k : ℕ) (call : BpfCall) (s : LockState) :
    Option (LockState × Bool) :=
  match s.lockHeld with
  | none =>
    match pt.getHelper .spinLock with
    | none => some (s, false)
    | some helper => (s.insertCall helper i i inPlace).map (·, true)
  | some held => do
    let a ← call.args.head?
    if a.name = held then pure ({ s with lockHeld := none }, true)
    else pure ({ s with store := s.store.modify k (setFirstArg held) }, true)

/-- A lock without an unlock right behind it gets one. -/
def fixLock (pt : BpfProgType) (inPlace : Bool) (i : ℕ) (call : BpfCall) (s : LockState) :
    Option (LockState × Bool) :=
  let next := s.calls[i + 1]?.bind (s.store[·]?)
  if next.any (·.helper.enum = .spinUnlock) then do
    let a ← call.args.head?
    pure ({ s with lockHeld := some a.name }, true)
  else
    match pt.getHelper .spinUnlock with
    | none => some (s, false)
    | some helper => (s.insertCall helper i (i + 1) inPlace).map (·, true)

/-- The rounds of the loop from position `i` on. -/
def fixSpinLockFrom (pt : BpfProgType) (inPlace : ℕ → Bool) :
    ℕ → ℕ → LockState → Option LockState
  | 0, _, s => some s
  | n + 1, i, s => do
    let k ← s.view[i]?
    let call ← s.store[k]?
    let (s, goOn) ←
      if call.helper.enum = .spinUnlock then fixUnlock pt (inPlace i) i k call s
      else if call.helper.enum = .spinLock then fixLock pt (inPlace i) i call s
      else some (s, true)
    if goOn then fixSpinLockFrom pt inPlace n (i + 1) s else some s

/-- `inPlace i` says whether the array of the calls has room for an insertion in round `i`. -/
def fixSpinLock (inPlace : ℕ → Bool) (p : BpfProg) : Option BpfProg := do
  let n := p.calls.length
  let s ← fixSpinLockFrom p.pt inPlace n 0
    ⟨p.calls, List.range n, List.range n, true, none⟩
  pure { p with calls := s.calls.filterMap (s.store[·]?) }

/-- The pipeline from which a seed program is rendered; `none` when no program comes out. -/
def genSeedBpfProg (fuel : ℕ) (pt : BpfProgType) (regTypes : RegTable → List RegType)
    (order : List ℕ → List ℕ) (inPlace : ℕ → Bool) (draws : Stream' ℕ) : Option BpfProg := do
  let ((call, st), draws) ← genBpfProg fuel pt regTypes draws
  let _ ← call
  let ((_, st), _) ← fixRef fuel order st draws
  fixSpinLock inPlace st.prog

end Brf.HelperCalls
