import Brf.Model.CorpusDb
import Mathlib.Data.List.Sort
import Mathlib.Tactic.Simps.Basic

/-! # The hub

The state of `syz-hub`: managers send it their programs and reproducers and get those of the
others. File operations succeed, so a database is its map of records. Sequence numbers are
64-bit counters that go up by one per request; they are natural numbers here, as if those of the
directory were less than 2 ^ 64 by more than the number of requests. -/

namespace Brf.Hub

open Brf.Lib Brf.Db

abbrev Name := List UInt8

/-! ### The calls of a program -/

/-- The part of a line before the first byte `c`, and the part after it. -/
def cutAt (c : UInt8) : Bytes → Option (Bytes × Bytes)
  | [] => none
  | b :: bs => if b = c then some ([], bs) else (cutAt c bs).map fun p => (b :: p.1, p.2)

/-- The name of the call on a line of a program. -/
def lineCall (ln : Bytes) : Except String Bytes :=
  match cutAt 0x28 ln with
  | none => .error "line does not contain opening bracket"
  | some (call, _) =>
    let call :=
      match cutAt 0x3d call with
      | none => call
      | some (_, rest) => rest.dropWhile (· = 0x20)
    if call = [] then .error "call name is empty" else .ok call

/-- The loop of `CallSet`. A line takes at least one byte, so the fuel of `callSet` is enough. -/
def callSetLines : (fuel : ℕ) → Bytes → List Bytes → ℕ → Except String (List Bytes × ℕ)
  | 0, _, calls, ncalls => .ok (calls, ncalls)
  | fuel + 1, data, calls, ncalls =>
    if data = [] then .ok (calls, ncalls)
    else
      let (ln, data) := (cutAt 0x0a data).getD (data, [])
      if ln = [] ∨ ln.head? = some 0x23 then callSetLines fuel data calls ncalls
      else do
        let call ← lineCall ln
        callSetLines fuel data (if call ∈ calls then calls else call :: calls) (ncalls + 1)

/-- The set of calls of a program and their number. -/
def callSet (data : Bytes) : Except String (List Bytes × ℕ) := do
  let (calls, ncalls) ← callSetLines data.length data [] 0
  if calls = [] then .error "program does not contain any calls" else .ok (calls, ncalls)

def maxCalls : ℕ := 40

/-! ### State -/

structure Manager where
  domain : Bytes
  corpusSeq : ℕ
  reproSeq : ℕ
  ownRepros : List Key
  connected : Bool
  calls : List Bytes
  corpus : Records ℕ

structure State where
  corpusSeq : ℕ
  reproSeq : ℕ
  corpus : Records ℕ
  repros : Records ℕ
  managers : Dict Name Manager

/-- The files of a manager; those that are missing read as zero or empty. -/
structure ManagerFiles where
  corpusSeq : ℕ
  reproSeq : ℕ
  domain : Bytes
  corpus : Records ℕ

def ManagerFiles.missing : ManagerFiles := ⟨0, 0, [], ∅⟩

structure Dir where
  corpus : Records ℕ
  repros : Records ℕ
  managers : List (Name × ManagerFiles)

section

variable (hash : Bytes → Key)

def keepsProgram (key : Key) (val : Bytes) : Bool :=
  match callSet val with
  | .error _ => false
  | .ok (_, ncalls) => !(ncalls > maxCalls) && hash val = key

/-- The records of a database that pass the checks, and the last sequence number of them. -/
def loadDB (progs : Bool) (records : Records ℕ) : Records ℕ × ℕ :=
  records.toPairs.foldl
    (fun (db, maxSeq) (key, rec) =>
      if progs && !keepsProgram hash key rec.val then (db.erase key, maxSeq)
      else (db, max maxSeq rec.seq))
    (records, 0)

def State.createManager (st : State) (name : Name) (files : ManagerFiles) : State :=
  let reproSeq := if files.reproSeq = 0 then st.reproSeq else files.reproSeq
  { st with
    corpusSeq := max st.corpusSeq files.corpusSeq
    reproSeq := max st.reproSeq reproSeq
    managers := st.managers.insert name
      ⟨files.domain, files.corpusSeq, reproSeq, [], false, [], (loadDB hash false files.corpus).1⟩ }

def State.modifyManager (st : State) (name : Name) (f : Manager → Manager) : State :=
  match st.managers.lookup name with
  | none => st
  | some mgr => { st with managers := st.managers.insert name (f mgr) }

/-- Whether a program belongs to the corpus of a manager. -/
def State.used (st : State) (key : Key) : Bool :=
  st.managers.toPairs.any fun (_, mgr) => key ∈ mgr.corpus

@[simps corpusSeq reproSeq repros managers]
def State.purgeCorpus (st : State) : State :=
  { st with
    corpus := st.corpus.toPairs.foldl
      (fun corpus (key, _) => if st.used key then corpus else corpus.erase key) st.corpus }

def State.make (dir : Dir) : State :=
  let (corpus, corpusSeq) := loadDB hash true dir.corpus
  let (repros, reproSeq) := loadDB hash true dir.repros
  let st : State := ⟨corpusSeq, reproSeq, corpus, repros, ∅⟩
  (dir.managers.foldl (fun st (name, files) => State.createManager hash st name files)
    st).purgeCorpus

/-! ### Programs -/

def State.addInput (name : Name) (st : State) (input : Bytes) : State :=
  match callSet input with
  | .error _ => st
  | .ok (_, ncalls) =>
    if ncalls > maxCalls then st
    else
      let sig := hash input
      let st := st.modifyManager name fun mgr => { mgr with corpus := mgr.corpus.save sig [] 0 }
      if st.corpus.lookup sig = none then
        { st with corpus := st.corpus.save sig input st.corpusSeq }
      else st

def State.addInputs (st : State) (name : Name) (inputs : List Bytes) : State :=
  if inputs = [] then st
  else inputs.foldl (State.addInput hash name) { st with corpusSeq := st.corpusSeq + 1 }

/-- A manager that is not known has no files: `Make` loads every directory there is. -/
def State.connect (st : State) (name : Name) (domain : Bytes) (fresh : Bool) (calls : List Bytes)
    (corpus : List Bytes) : State :=
  let st :=
    if st.managers.lookup name = none then st.createManager hash name .missing else st
  let st := st.modifyManager name fun mgr =>
    { mgr with
      connected := true
      domain := domain
      corpusSeq := if fresh then 0 else mgr.corpusSeq
      reproSeq := if fresh then st.reproSeq else mgr.reproSeq
      calls := calls
      corpus := ∅ }
  (st.addInputs hash name corpus).purgeCorpus

inductive Error where
  | unconnected (name : Name)
  | badProgram (err : String) (prog : Bytes)
deriving DecidableEq

def managerSupportsAllCalls (mgr prog : List Bytes) : Bool := prog.all fun c => c ∈ mgr

structure PendingRecord where
  key : Key
  val : Bytes
  seq : ℕ
deriving DecidableEq

structure HubInput where
  domain : Bytes
  prog : Bytes
deriving DecidableEq

/-- The record of a key, if it is to be sent to the manager. -/
def Manager.pendingRecord (mgr : Manager) (key : Key) (rec : Record ℕ) :
    Except Error (Option PendingRecord) :=
  if mgr.corpusSeq ≥ rec.seq then .ok none
  else if mgr.corpus.lookup key ≠ none then .ok none
  else
    match callSet rec.val with
    | .error err => .error (.badProgram err rec.val)
    | .ok (calls, _) =>
      if managerSupportsAllCalls mgr.calls calls then .ok (some ⟨key, rec.val, rec.seq⟩)
      else .ok none

def Manager.pendingRecords (mgr : Manager) : List (Key × Record ℕ) → Except Error (List PendingRecord)
  | [] => .ok []
  | (key, rec) :: rest => do
    let p ← mgr.pendingRecord key rec
    let ps ← mgr.pendingRecords rest
    .ok (p.toList ++ ps)

def inputDomainLoop (key : Key) (self domain : Bytes) : List (Name × Manager) → Bytes
  | [] => domain
  | (_, mgr) :: rest =>
    if mgr.domain ≠ self ∧ domain ≠ [] then inputDomainLoop key self domain rest
    else if mgr.corpus.lookup key = none then inputDomainLoop key self domain rest
    else if mgr.domain = self then mgr.domain
    else inputDomainLoop key self mgr.domain rest

def maxRecords : ℕ := 100
def capRecords : ℕ := 100000

/-- The records of a batch, the number of records left for later, and the last number sent. -/
def batch (corpusSeq : ℕ) (records : List PendingRecord) : List PendingRecord × ℕ × ℕ :=
  if records.length > maxRecords then
    let records := records.insertionSort fun a b => a.seq ≤ b.seq
    let records :=
      if records.length > capRecords then records.drop (records.length - capRecords) else records
    let maxSeq := (records[maxRecords]?.map PendingRecord.seq).getD corpusSeq
    -- the batch goes on over the records with the same number
    let pos := maxRecords + 1 +
      ((records.drop (maxRecords + 1)).takeWhile fun r => r.seq = maxSeq).length
    (records.take pos, records.length - pos, maxSeq)
  else (records, 0, corpusSeq)

/-- The orders in which the loops over the maps visit their entries. -/
structure Orders where
  records : RecordOrder ℕ
  domains : Key → Shuffle (Name × Manager)

/-- What is sent to a manager, and how many records are left. `records` are those the inputs
are made of; they are not part of the answer. -/
structure Delivery where
  records : List PendingRecord
  inputs : List HubInput
  more : ℕ

def State.pendingInputs (st : State) (name : Name) (mgr : Manager) (o : Orders) :
    Except Error (State × Delivery) :=
  if mgr.corpusSeq = st.corpusSeq then .ok (st, ⟨[], [], 0⟩)
  else do
    let records ← mgr.pendingRecords (o.records.run st.corpus.toPairs)
    let (records, more, maxSeq) := batch st.corpusSeq records
    let inputs := records.map fun r =>
      ⟨inputDomainLoop r.key mgr.domain [] ((o.domains r.key).run st.managers.toPairs), r.val⟩
    .ok (st.modifyManager name fun mgr => { mgr with corpusSeq := maxSeq }, ⟨records, inputs, more⟩)

def State.deletePrograms (st : State) (name : Name) (del : List Key) : State :=
  if del = [] then st
  else
    (st.modifyManager name fun mgr =>
      { mgr with corpus := del.foldl (fun c sig => c.erase sig) mgr.corpus }).purgeCorpus

def State.sync (st : State) (name : Name) (add : List Bytes) (del : List Key) (o : Orders) :
    State × Except Error (Bytes × Delivery) :=
  match st.managers.lookup name with
  | none => (st, .error (.unconnected name))
  | some mgr =>
    if mgr.connected = false then (st, .error (.unconnected name))
    else
      let st := (st.deletePrograms name del).addInputs hash name add
      match st.managers.lookup name with
      | none => (st, .error (.unconnected name))
      | some mgr =>
        match st.pendingInputs name mgr o with
        | .error err => (st, .error err)
        | .ok (st, delivery) => (st, .ok (mgr.domain, delivery))

/-! ### Reproducers -/

def State.addRepro (st : State) (name : Name) (repro : Bytes) : State × Except Error Unit :=
  match st.managers.lookup name with
  | none => (st, .error (.unconnected name))
  | some mgr =>
    if mgr.connected = false then (st, .error (.unconnected name))
    else
      match callSet repro with
      | .error _ => (st, .ok ())
      | .ok _ =>
        let sig := hash repro
        if st.repros.lookup sig ≠ none then (st, .ok ())
        else
          let mgr :=
            { mgr with
              ownRepros := sig :: mgr.ownRepros
              reproSeq := if mgr.reproSeq = st.reproSeq then mgr.reproSeq + 1 else mgr.reproSeq }
          ({ st with
              managers := st.managers.insert name mgr
              reproSeq := st.reproSeq + 1
              repros := st.repros.save sig repro (st.reproSeq + 1) }, .ok ())

/-- The loop of `PendingRepro`; `best` is the record with the least number so far. -/
def Manager.minRepro (mgr : Manager) :
    List (Key × Record ℕ) → Option (Record ℕ) → Except Error (Option (Record ℕ))
  | [], best => .ok best
  | (key, rec) :: rest, best =>
    if mgr.reproSeq ≥ rec.seq then mgr.minRepro rest best
    else if key ∈ mgr.ownRepros then mgr.minRepro rest best
    else
      match callSet rec.val with
      | .error err => .error (.badProgram err rec.val)
      | .ok (calls, _) =>
        if !managerSupportsAllCalls mgr.calls calls then mgr.minRepro rest best
        else if best.all fun b => b.seq > rec.seq then mgr.minRepro rest (some rec)
        else mgr.minRepro rest best

/-- `none` is the answer that nothing is pending. -/
def State.pendingRepro (st : State) (name : Name) (order : RecordOrder ℕ) :
    State × Except Error (Option (Record ℕ)) :=
  match st.managers.lookup name with
  | none => (st, .error (.unconnected name))
  | some mgr =>
    if mgr.connected = false then (st, .error (.unconnected name))
    else if mgr.reproSeq = st.reproSeq then (st, .ok none)
    else
      match mgr.minRepro (order.run st.repros.toPairs) none with
      | .error err => (st, .error err)
      | .ok none =>
        ({ st with managers := st.managers.insert name { mgr with reproSeq := st.reproSeq } },
          .ok none)
      | .ok (some rec) =>
        ({ st with managers := st.managers.insert name { mgr with reproSeq := rec.seq } },
          .ok (some rec))

/-! ### Histories -/

/-- A request, with the orders in which it visits the maps. -/
inductive Request where
  | connect (name : Name) (domain : Bytes) (fresh : Bool) (calls corpus : List Bytes)
  | sync (name : Name) (add : List Bytes) (del : List Key) (o : Orders)
  | addRepro (name : Name) (repro : Bytes)
  | pendingRepro (name : Name) (order : RecordOrder ℕ)

inductive Response where
  | connect
  | sync (res : Except Error (Bytes × Delivery))
  | addRepro (res : Except Error Unit)
  | pendingRepro (res : Except Error (Option (Record ℕ)))

def State.serve (st : State) : Request → State × Response
  | .connect name domain fresh calls corpus =>
    (st.connect hash name domain fresh calls corpus, .connect)
  | .sync name add del o =>
    let (st, res) := st.sync hash name add del o
    (st, .sync res)
  | .addRepro name repro =>
    let (st, res) := st.addRepro hash name repro
    (st, .addRepro res)
  | .pendingRepro name order =>
    let (st, res) := st.pendingRepro name order
    (st, .pendingRepro res)

def State.serveAll (st : State) (reqs : List Request) : State :=
  reqs.foldl (fun st req => (st.serve hash req).1) st

end

end Brf.Hub
