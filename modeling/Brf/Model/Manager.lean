import Brf.Model.Canonicalizer
import Brf.Model.Hub

/-! # The manager

The corpus side of `syz-manager`: what `mgr.mu` protects. A minimization visits maps in any
order, so the orders are parameters. File operations succeed, so the corpus database is its
version and its records. -/

namespace Brf.Mgr

open Brf.Lib Brf.Db

abbrev Name := List UInt8

/-- What the model takes from other packages. -/
structure Target where
  /-- `hash.String`. -/
  hash : Bytes → Key
  /-- `Deserialize` in the non-strict mode: the name and the `FailNth` of every call. -/
  deserialize : Bytes → Option (List (Name × ℕ))
  /-- A program without its disabled calls, serialized. -/
  programLeftover : List Name → Bytes → Bytes

structure Config where
  cover : Bool
  preserveCorpus : Bool
  hubClient : Name
  procs : ℕ

structure Input where
  call : Name
  prog : Bytes
  signal : Serial
  cover : List UInt32
  callID : ℤ
  rawCover : List UInt32
deriving DecidableEq

structure Candidate where
  prog : Bytes
  minimized : Bool
  smashed : Bool
deriving DecidableEq

structure CorpusItemUpdate where
  callID : ℤ
  rawCover : List UInt32
deriving DecidableEq

structure CorpusItem where
  call : Name
  prog : Bytes
  signal : Serial
  cover : List UInt32
  updates : List CorpusItemUpdate
deriving DecidableEq

def CorpusItem.rpcInput (item : CorpusItem) : Input :=
  ⟨item.call, item.prog, item.signal, item.cover, 0, []⟩

inductive Phase where
  | init
  | loadedCorpus
  | triagedCorpus
  | queriedHub
  | triagedHub
deriving DecidableEq

def Phase.toNat : Phase → ℕ
  | init => 0
  | loadedCorpus => 1
  | triagedCorpus => 2
  | queriedHub => 3
  | triagedHub => 4

def currentDBVersion : UInt64 := 4

structure CorpusDB where
  version : UInt64
  records : Records UInt64

/-- `checkResult` holds the names of the calls that are enabled. -/
structure Manager where
  phase : Phase
  checkResult : Option (List Name)
  candidates : List Candidate
  disabledHashes : List Key
  corpus : Dict Key CorpusItem
  seeds : List Bytes
  fresh : Bool
  lastMinCorpus : ℕ
  saturatedCalls : List Name
  corpusDB : CorpusDB

def Manager.start (corpusDB : CorpusDB) (seeds : List Bytes) : Manager :=
  ⟨.init, none, [], [], ∅, seeds, false, 0, [], corpusDB⟩

/-! ### Programs -/

inductive Verdict where
  | bad
  | disabled
  | enabled
deriving DecidableEq

def checkProgram (target : Target) (enabled : List Name) (data : Bytes) : Verdict :=
  match target.deserialize data with
  | none => .bad
  | some calls =>
    if calls.length > Hub.maxCalls then .bad
    else if calls.any fun call => call.2 > 0 then .bad
    else if calls.any fun call => call.1 ∉ enabled then .disabled
    else .enabled

/-- Whether the program is not broken, and the manager that knows about it. -/
def Manager.loadProg (target : Target) (cfg : Config) (mgr : Manager) (data : Bytes)
    (minimized smashed : Bool) : Manager × Bool :=
  let enabled := mgr.checkResult.getD []
  match checkProgram target enabled data with
  | .bad => (mgr, false)
  | .disabled =>
    if cfg.preserveCorpus then
      ({ mgr with disabledHashes := target.hash data :: mgr.disabledHashes }, true)
    else
      let leftover := target.programLeftover enabled data
      if leftover.length > 0 then
        ({ mgr with candidates := mgr.candidates ++ [⟨leftover, false, smashed⟩] }, true)
      else (mgr, true)
  | .enabled => ({ mgr with candidates := mgr.candidates ++ [⟨data, minimized, smashed⟩] }, true)

/-- The loop of `loadCorpus` over the records, of which the broken ones are deleted. -/
def Manager.loadRecord (target : Target) (cfg : Config) (minimized smashed : Bool) (mgr : Manager)
    (rec : Key × Record UInt64) : Manager :=
  let (mgr, ok) := mgr.loadProg target cfg rec.2.val minimized smashed
  if ok then mgr
  else { mgr with corpusDB := { mgr.corpusDB with records := mgr.corpusDB.records.erase rec.1 } }

/-- The orders of the loop over the records and of the second half of the candidates. -/
structure LoadOrders where
  records : RecordOrder UInt64
  candidates : Shuffle Candidate

/-- Programs of older versions are minimized and smashed again. -/
def Manager.loadRecords (target : Target) (cfg : Config) (o : LoadOrders) (mgr : Manager) :
    Manager :=
  let version := mgr.corpusDB.version
  let minimized := !(version = 0 || version = 1 || version = 2 || version = 3)
  let smashed := !(version = 0 || version = 1 || version = 2)
  let mgr := (o.records.run mgr.corpusDB.records.toPairs).foldl
    (Manager.loadRecord target cfg minimized smashed) mgr
  { mgr with fresh := mgr.corpusDB.records.toPairs.length = 0 }

def Manager.loadSeeds (target : Target) (cfg : Config) (mgr : Manager) : Manager :=
  let mgr := mgr.seeds.foldl (fun mgr seed => (mgr.loadProg target cfg seed true false).1) mgr
  { mgr with seeds := [] }

/-- `none` is the panic in a wrong phase. -/
def Manager.loadCorpus (target : Target) (cfg : Config) (o : LoadOrders) (mgr : Manager) :
    Option Manager :=
  let mgr := (mgr.loadRecords target cfg o).loadSeeds target cfg
  if mgr.phase ≠ .init then none
  else
    some { mgr with
      candidates := mgr.candidates ++ o.candidates.run mgr.candidates
      phase := .loadedCorpus }

def Manager.machineChecked (target : Target) (cfg : Config) (o : LoadOrders) (enabled : List Name)
    (mgr : Manager) : Option Manager :=
  { mgr with checkResult := some enabled }.loadCorpus target cfg o

/-! ### Minimization -/

structure CallCov where
  count : ℕ
  cov : List UInt32

/-- The number of inputs and the coverage of every call. -/
def Manager.collectSyscallInfo (mgr : Manager) : Dict Name CallCov :=
  match mgr.checkResult with
  | none => ∅
  | some enabled =>
    let calls : Dict Name CallCov := enabled.foldl (fun calls call => calls.insert call ⟨0, []⟩) ∅
    mgr.corpus.toPairs.foldl
      (fun calls (_, inp) =>
        let cc := (calls.lookup inp.call).getD ⟨0, []⟩
        calls.insert inp.call ⟨cc.count + 1, (inp.cover ++ cc.cov).dedup⟩)
      calls

def CallCov.saturated (cfg : Config) (info : CallCov) : Bool :=
  if cfg.cover then
    !(info.count < 1000 || info.count < 3000 && info.cov.length / info.count ≥ 10)
  else !(info.count < 300)

structure MinimizeOrders where
  corpus : Shuffle (Key × CorpusItem)
  indices : Shuffle ℕ
  records : RecordOrder UInt64

def contexts : List (Key × CorpusItem) → Option (List (Signal × CorpusItem))
  | [] => some []
  | (_, inp) :: rest => do
    let s ← Signal.deserialize inp.signal
    let rest ← contexts rest
    some ((s, inp) :: rest)

/-- The part of `minimizeCorpus` that works on the corpus in memory. -/
def Manager.minimizeInputs (target : Target) (cfg : Config) (o : MinimizeOrders) (mgr : Manager) :
    Option Manager := do
  let inputs ← contexts (o.corpus.run mgr.corpus.toPairs)
  let newCorpus := Dict.indexBy (fun inp => target.hash inp.prog) (Signal.minimize inputs o.indices)
  let mgr := { mgr with corpus := newCorpus, lastMinCorpus := newCorpus.toPairs.length }
  let saturated := mgr.collectSyscallInfo.toPairs.filter fun e => e.2.saturated cfg
  some { mgr with saturatedCalls := saturated.map Prod.fst ++ mgr.saturatedCalls }

/-- The part of `minimizeCorpus` that works on the database. -/
def Manager.minimizeRecords (o : MinimizeOrders) (mgr : Manager) : Manager :=
  let records := (o.records.run mgr.corpusDB.records.toPairs).foldl
    (fun records (key, _) =>
      if (mgr.corpus.lookup key).isNone && key ∉ mgr.disabledHashes then records.erase key
      else records)
    mgr.corpusDB.records
  { mgr with corpusDB := ⟨currentDBVersion, records⟩ }

/-- `none` is the panic on a corrupted signal. -/
def Manager.minimizeCorpus (target : Target) (cfg : Config) (o : MinimizeOrders) (mgr : Manager) :
    Option Manager :=
  if mgr.phase.toNat < Phase.loadedCorpus.toNat ∨
      mgr.corpus.toPairs.length ≤ mgr.lastMinCorpus * 103 / 100 then some mgr
  else do
    let mgr ← mgr.minimizeInputs target cfg o
    if mgr.phase.toNat < Phase.triagedCorpus.toNat then some mgr
    else some (mgr.minimizeRecords o)

def Manager.getMinimizedCorpus (target : Target) (cfg : Config) (o : MinimizeOrders)
    (mgr : Manager) : Option (Manager × List Bytes) := do
  let mgr ← mgr.minimizeCorpus target cfg o
  some (mgr, mgr.corpus.toPairs.map fun e => e.2.prog)

/-- The corpus that a fuzzer starts with; the loop over it has an order of its own. -/
def Manager.fuzzerConnect (target : Target) (cfg : Config) (o : MinimizeOrders)
    (order : Shuffle (Key × CorpusItem)) (mgr : Manager) : Option (Manager × List Input) := do
  let mgr ← mgr.minimizeCorpus target cfg o
  some (mgr, (order.run mgr.corpus.toPairs).map fun e => e.2.rpcInput)

/-! ### New inputs -/

def maxUpdates : ℕ := 32

/-- The orders in which a merged signal and a merged cover are written out. -/
structure NewInputOrders where
  signal : Shuffle (Elem × Prio)
  cover : Shuffle UInt32

/-- The item under which an input is known already, merged with it. The merge works on the
map of the caller, which is the second result. -/
def CorpusItem.update (item : CorpusItem) (inp : Input) (sign : Signal) (o : NewInputOrders) :
    Option (CorpusItem × Signal) := do
  let old ← Signal.deserialize item.signal
  let sign := Signal.merge sign old
  let update : CorpusItemUpdate := ⟨inp.callID, inp.rawCover⟩
  some ({ item with
    signal := Signal.serialize sign o.signal
    cover := o.cover.run (item.cover ++ inp.cover).dedup
    updates := (item.updates ++ [update]).take maxUpdates }, sign)

/-- Whether the input was taken, with the signal as the caller sees it then. -/
def Manager.newInput (target : Target) (o : NewInputOrders) (mgr : Manager) (inp : Input)
    (sign : Signal) : Option (Manager × Signal × Bool) :=
  if inp.call ∈ mgr.saturatedCalls then some (mgr, sign, false)
  else
    let sig := target.hash inp.prog
    match mgr.corpus.lookup sig with
    | some old => do
      let (item, sign) ← old.update inp sign o
      some ({ mgr with corpus := mgr.corpus.insert sig item }, sign, true)
    | none =>
      let item : CorpusItem :=
        ⟨inp.call, inp.prog, inp.signal, inp.cover, [⟨inp.callID, inp.rawCover⟩]⟩
      some ({ mgr with
        corpus := mgr.corpus.insert sig item
        corpusDB :=
          { mgr.corpusDB with records := mgr.corpusDB.records.save sig inp.prog 0 } }, sign, true)

/-! ### Candidates and phases -/

/-- The last `n` elements, last first, and what is left. -/
def popBack {α : Type} (n : ℕ) (l : List α) : List α × List α :=
  (l.reverse.take n, l.take (l.length - n))

def Manager.candidateBatch (cfg : Config) (mgr : Manager) (size : ℕ) : Manager × List Candidate :=
  let (res, rest) := popBack size mgr.candidates
  let phase :=
    if rest ≠ [] then mgr.phase
    else
      match mgr.phase with
      | .loadedCorpus => if cfg.hubClient ≠ [] then .triagedCorpus else .triagedHub
      | .queriedHub => .triagedHub
      | phase => phase
  ({ mgr with candidates := rest, phase := phase }, res)

def Manager.addNewCandidates (mgr : Manager) (candidates : List Candidate) : Manager :=
  { mgr with
    candidates := mgr.candidates ++ candidates
    phase := if mgr.phase = .triagedCorpus then .queriedHub else mgr.phase }

def Manager.hubIsUnreachable (mgr : Manager) : Manager :=
  { mgr with phase := if mgr.phase = .triagedCorpus then .triagedHub else mgr.phase }

def Manager.rotateCorpus (mgr : Manager) : Bool := mgr.phase = .triagedHub

end Brf.Mgr
