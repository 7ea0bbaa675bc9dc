import Brf.Model.Manager

/-! # The RPC server of the manager

`syz-manager/rpc.go` as a system of critical sections. A request of a fuzzer holds `serv.mu`
for one section, except that `Connect` takes its corpus before under `mgr.mu` alone, and that
`NewInput` holds `serv.mu` while it enters `mgr.mu`, so that other sections of `mgr.mu` run
before and after its own. A step of the system is one section. -/

namespace Brf.Mgr

open Brf.Lib Brf.Db Brf.Cover

structure Fuzzer where
  rotated : Bool
  inputs : List Input
  newMaxSignal : Signal
  rotatedSignal : Signal
  instModules : CanonicalizerInstance

/-- A `Connect` that has its corpus and waits for `serv.mu`. -/
structure Connecting where
  name : Name
  modules : List KernelModule
  corpus : List Input

/-- A `NewInput` that holds `serv.mu`. It has been in `mgr.newInput` when `stored` is set. -/
structure Pending where
  name : Name
  input : Input
  inputSignal : Signal
  genuine : Bool
  stored : Bool

structure Server where
  mgr : Manager
  canonicalModules : Option Canonicalizer
  checkResult : Option (List Name)
  checkFailures : ℕ
  fuzzers : Dict Name Fuzzer
  maxSignal : Signal
  corpusSignal : Signal
  corpusCover : List UInt32
  connecting : List Connecting
  pending : Option Pending

def Server.start (corpusDB : CorpusDB) (seeds : List Bytes) : Server :=
  ⟨.start corpusDB seeds, none, none, 0, ∅, ∅, ∅, [], [], none⟩

def batchSize (cfg : Config) : ℕ := if 5 < cfg.procs then cfg.procs else 5

/-- What a step tells about itself. -/
inductive Note where
  | quiet
  | snapshot (name : Name) (corpus : List Input)
  | connected (name : Name) (corpus : List Input)
  | accepted (name : Name) (input : Input)
  | polled (name : Name) (reported : Signal) (maxSignal : Serial) (candidates : List Candidate)
      (newInputs : List Input)

section

variable (target : Target) (cfg : Config)

/-! ### Connect -/

def Server.connect (st : Server) (name : Name) (modules : List KernelModule) (o : MinimizeOrders)
    (order : Shuffle (Key × CorpusItem)) : Option (Server × Note) := do
  let canonicalModules := st.canonicalModules.getD (newCanonicalizer modules cfg.cover)
  let (mgr, corpus) ← st.mgr.fuzzerConnect target cfg o order
  some ({ st with
    mgr := mgr
    canonicalModules := some canonicalModules
    connecting := st.connecting ++ [⟨name, modules, corpus⟩] }, .snapshot name corpus)

/-- What a rotation draws: the calls of the rotator, the inputs to drop, and the order in
which a tenth of the signal is split off. -/
structure Rotation where
  calls : List Name
  drops : List Bool
  order : Shuffle (Elem × Prio)

/-- The loop of `selectInputs`. A draw is made for an input whose calls are all enabled. -/
def selectLoop (enabled : List Name) : List Bool → List Input → List Input → Signal →
    Option (List Input × Signal)
  | _, [], inputs, signal => some (inputs, signal)
  | drops, inp :: rest, inputs, signal =>
    match Hub.callSet inp.prog with
    | .error _ => none
    | .ok (calls, _) =>
      let without := inp.signal.elems.foldl (fun s sig => s.erase sig) signal
      if calls.any fun call => call ∉ enabled then selectLoop enabled drops rest inputs without
      else if drops.headD false then selectLoop enabled drops.tail rest inputs without
      else selectLoop enabled drops.tail rest (inputs ++ [inp]) signal

def selectInputs (r : Rotation) (inputs0 : List Input) (signal0 : Signal) :
    Option (List Input × Signal) := do
  let (inputs, signal) ← selectLoop r.calls r.drops inputs0 [] signal0
  some (inputs, (signal.split (signal.toPairs.length / 10) r.order).2)

/-- `none` is the panic on a program without calls, or without a check result. -/
def Server.rotateCorpus (st : Server) (r : Rotation) (corpus : List Input)
    (instModules : CanonicalizerInstance) : Option Fuzzer :=
  match st.checkResult with
  | none => none
  | some _ => do
    let (inputs, newMaxSignal) ← selectInputs r corpus st.maxSignal
    some ⟨true, inputs, newMaxSignal, st.corpusSignal.intersection newMaxSignal, instModules⟩

/-- The fuzzer of a `Connect`. `rot` is the draw of a rotation, which counts only in the last
phase. -/
def Server.newFuzzer (st : Server) (c : Connecting) (rot : Option Rotation) : Option Fuzzer :=
  let instModules := (st.canonicalModules.getD .unused).newInstance c.modules
  match rot, st.mgr.rotateCorpus with
  | some r, true => st.rotateCorpus r c.corpus instModules
  | _, _ => some ⟨false, c.corpus, st.maxSignal, ∅, instModules⟩

/-- The second section of a `Connect`. -/
def Server.register (st : Server) (i : ℕ) (rot : Option Rotation) : Option (Server × Note) :=
  match st.pending, st.connecting[i]? with
  | none, some c => do
    let f ← st.newFuzzer c rot
    some ({ st with
      fuzzers := st.fuzzers.insert c.name f
      connecting := st.connecting.eraseIdx i }, .connected c.name c.corpus)
  | _, _ => none

/-! ### NewInput -/

/-- Whether an input brings a fuzzer something new although it brings the corpus nothing. -/
def Fuzzer.rediscovers (f : Fuzzer) (inputSignal : Signal) : Bool :=
  f.rotated && !(f.rotatedSignal.diff inputSignal).isEmpty

def Server.canonicalized (st : Server) (name : Name) (inp : Input) : Option Input :=
  match st.fuzzers.lookup name with
  | none => some inp
  | some f => do
    let (cover, signal) ← f.instModules.canonicalizePCs inp.cover inp.signal
    some { inp with cover := cover, signal := signal }

def Server.newInput (st : Server) (name : Name) (inp : Input) : Option (Server × Note) :=
  if checkProgram target (st.checkResult.getD []) inp.prog ≠ .enabled then some (st, .quiet)
  else
    match st.pending with
    | some _ => none
    | none => do
      let inp ← st.canonicalized name inp
      let inputSignal ← Signal.deserialize inp.signal
      let genuine := !(st.corpusSignal.diff inputSignal).isEmpty
      let rotated :=
        !genuine && (st.fuzzers.lookup name).any fun f => f.rediscovers inputSignal
      if !genuine && !rotated then some (st, .quiet)
      else some ({ st with pending := some ⟨name, inp, inputSignal, genuine, false⟩ }, .quiet)

/-- Merges `raw` into a cover. The new addresses are written over the start of `raw`. -/
def mergeDiff (cov raw : List UInt32) : List UInt32 × List UInt32 :=
  let diff := raw.foldl (fun diff pc => if pc ∈ cov ∨ pc ∈ diff then diff else diff ++ [pc]) []
  (cov ++ diff, diff ++ raw.drop diff.length)

/-- The corpus after an input was stored under `sig`. The cover of a new item is the array on
which `MergeDiff` works right after it. -/
def withCover (corpus corpus' : Dict Key CorpusItem) (sig : Key) (raw : List UInt32) :
    Dict Key CorpusItem :=
  match corpus.lookup sig, corpus'.lookup sig with
  | none, some item => corpus'.insert sig { item with cover := raw }
  | _, _ => corpus'

def Server.store (st : Server) (o : NewInputOrders) : Option (Server × Note) :=
  match st.pending with
  | some ⟨name, inp, inputSignal, genuine, false⟩ => do
    let (mgr, inputSignal, taken) ← st.mgr.newInput target o inp inputSignal
    if taken then
      let (corpusCover, raw) := mergeDiff st.corpusCover inp.cover
      let corpus := withCover st.mgr.corpus mgr.corpus (target.hash inp.prog) raw
      some ({ st with
        mgr := { mgr with corpus := corpus }
        corpusCover := corpusCover
        pending := some ⟨name, inp, inputSignal, genuine, true⟩ }, .quiet)
    else some ({ st with pending := none }, .quiet)
  | _ => none

def Fuzzer.offer (f : Fuzzer) (self : Bool) (inp : Input) : Fuzzer :=
  if self || f.rotated then f else { f with inputs := f.inputs ++ [inp] }

/-- What the sender of an input remembers of it. -/
def Fuzzer.sent (f : Fuzzer) (inputSignal : Signal) : Fuzzer :=
  if f.rotated then { f with rotatedSignal := f.rotatedSignal.merge inputSignal } else f

/-- The rest of `NewInput`. -/
def Server.finish (st : Server) : Option (Server × Note) :=
  match st.pending with
  | some ⟨name, inp, inputSignal, genuine, true⟩ =>
    let fuzzers := st.fuzzers.mapVals fun n f => if n = name then f.sent inputSignal else f
    if genuine then
      let inp := { inp with cover := [], rawCover := [] }
      some ({ st with
        corpusSignal := st.corpusSignal.merge inputSignal
        fuzzers := fuzzers.mapVals fun n f => f.offer (n = name) inp
        pending := none }, .accepted name inp)
    else some ({ st with fuzzers := fuzzers, pending := none }, .quiet)
  | _ => none

/-! ### Poll -/

structure PollArgs where
  name : Name
  needCandidates : Bool
  maxSignal : Serial
  /-- Whether there are no stats. -/
  initial : Bool

structure PollOrders where
  split : Shuffle (Elem × Prio)
  serial : Shuffle (Elem × Prio)

def initialBatch : ℕ := 50

def inputBatch (a : PollArgs) : ℕ :=
  if a.initial && batchSize cfg < initialBatch then initialBatch else batchSize cfg

def Fuzzer.receive (f : Fuzzer) (self : Bool) (newMaxSignal : Signal) : Fuzzer :=
  if self || f.rotated then f else { f with newMaxSignal := f.newMaxSignal.merge newMaxSignal }

/-- The signal of a report goes to the server and to the other fuzzers. -/
def Server.report (st : Server) (name : Name) (reported : Signal) : Server :=
  let newMaxSignal := st.maxSignal.diff reported
  if newMaxSignal.isEmpty then st
  else
    { st with
      maxSignal := st.maxSignal.merge newMaxSignal
      fuzzers := st.fuzzers.mapVals fun n f => f.receive (n = name) newMaxSignal }

def Manager.pollCandidates (mgr : Manager) (a : PollArgs) : Manager × List Candidate :=
  if a.needCandidates then mgr.candidateBatch cfg (batchSize cfg) else (mgr, [])

def Fuzzer.pollInputs (f : Fuzzer) (a : PollArgs) (candidates : List Candidate) :
    List Input × List Input :=
  if candidates = [] then popBack (inputBatch cfg a) f.inputs else ([], f.inputs)

/-- The answer to a fuzzer that is not rotated. The loop over the result that translates the
addresses changes copies of the inputs only. -/
def Server.answer (st : Server) (a : PollArgs) (o : PollOrders) (f : Fuzzer) (reported : Signal) :
    Server × Note :=
  let signal := f.newMaxSignal.split 2000 o.split
  let candidates := st.mgr.pollCandidates cfg a
  let inputs := f.pollInputs cfg a candidates.2
  ({ st with
    mgr := candidates.1
    fuzzers := st.fuzzers.insert a.name { f with newMaxSignal := signal.2, inputs := inputs.2 } },
   .polled a.name reported (signal.1.serialize o.serial) candidates.2 inputs.1)

def Server.poll (st : Server) (a : PollArgs) (o : PollOrders) : Option (Server × Note) :=
  match st.pending with
  | some _ => none
  | none =>
    match st.fuzzers.lookup a.name with
    | none => some (st, .quiet)
    | some f => do
      let reported ← Signal.deserialize a.maxSignal
      let st := st.report a.name reported
      if f.rotated then some (st, .polled a.name reported ⟨[], []⟩ [] [])
      else some (st.answer cfg a o f reported)

/-! ### Other sections -/

/-- `none` is the end of the manager when the check fails for the tenth time. -/
def Server.check (st : Server) (enabled : List Name) (error : Bool) (o : LoadOrders) :
    Option (Server × Note) :=
  if st.pending.isSome then none
  else if st.checkResult.isSome then some (st, .quiet)
  else if error then
    if st.checkFailures + 1 = 10 then none
    else some ({ st with checkFailures := st.checkFailures + 1 }, .quiet)
  else do
    let mgr ← st.mgr.machineChecked target cfg o enabled
    some ({ st with mgr := mgr, checkResult := some enabled }, .quiet)

def Server.shutdownInstance (st : Server) (name : Name) : Option (Server × Note) :=
  if st.pending.isSome then none
  else some ({ st with fuzzers := st.fuzzers.erase name }, .quiet)

/-! ### Runs -/

/-- A critical section, with what it draws and the orders in which it visits maps. -/
inductive Event where
  | connect (name : Name) (modules : List KernelModule) (o : MinimizeOrders)
      (order : Shuffle (Key × CorpusItem))
  | register (i : ℕ) (rot : Option Rotation)
  | newInput (name : Name) (inp : Input)
  | store (o : NewInputOrders)
  | finish
  | poll (a : PollArgs) (o : PollOrders)
  | check (enabled : List Name) (error : Bool) (o : LoadOrders)
  | shutdownInstance (name : Name)
  | getMinimizedCorpus (o : MinimizeOrders)
  | addNewCandidates (candidates : List Candidate)
  | hubIsUnreachable

/-- `none` when the section cannot be entered, or when it ends the manager. -/
def Server.step (st : Server) : Event → Option (Server × Note)
  | .connect name modules o order => st.connect target cfg name modules o order
  | .register i rot => st.register i rot
  | .newInput name inp => st.newInput target name inp
  | .store o => st.store target o
  | .finish => st.finish
  | .poll a o => st.poll cfg a o
  | .check enabled error o => st.check target cfg enabled error o
  | .shutdownInstance name => st.shutdownInstance name
  | .getMinimizedCorpus o => do
    let (mgr, _) ← st.mgr.getMinimizedCorpus target cfg o
    some ({ st with mgr := mgr }, .quiet)
  | .addNewCandidates candidates =>
    some ({ st with mgr := st.mgr.addNewCandidates candidates }, .quiet)
  | .hubIsUnreachable => some ({ st with mgr := st.mgr.hubIsUnreachable }, .quiet)

def Server.round (x : Server × List Note) (e : Event) : Option (Server × List Note) := do
  let (st, note) ← x.1.step target cfg e
  some (st, x.2 ++ [note])

def Server.run (st : Server) (events : List Event) : Option (Server × List Note) :=
  events.foldlM (Server.round target cfg) (st, [])

end

end Brf.Mgr
