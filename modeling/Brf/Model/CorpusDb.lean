import Brf.Lib.Dict
import Brf.Lib.Wire

/-! # The corpus database

The key-value store of `pkg/db`: a map cached in memory and mirrored on disk as a header
followed by records, where a later record of a key overrides the earlier ones. -/

namespace Brf.Db

open Brf.Lib Brf.Lib.Wire

abbrev Bytes := List UInt8

instance : LawfulBEq Bytes := inferInstance

/-- Go strings are byte strings. -/
abbrev Key := List UInt8

/-- `σ` is the type of sequence numbers. -/
structure Record (σ : Type) where
  val : Bytes
  seq : σ
deriving DecidableEq

abbrev Records (σ : Type) := Dict Key (Record σ)

abbrev RecordOrder (σ : Type) := Shuffle (Key × Record σ)

/-- What `Save` does to the map: a record that is there already is left alone. -/
def Records.save {σ : Type} [DecidableEq σ] (m : Records σ) (key : Key) (val : Bytes) (seq : σ) :
    Records σ :=
  if m.lookup key = some ⟨val, seq⟩ then m else m.insert key ⟨val, seq⟩

/-- `compress/flate`. The reader is given the bytes it may take; it returns the value and how
many of them it took. -/
structure Flate where
  deflate : Bytes → Bytes
  inflate : Bytes → Except String (Bytes × ℕ)
  deflate_ne_nil : ∀ v, deflate v ≠ []
  inflate_deflate : ∀ v, inflate (deflate v) = .ok (v, (deflate v).length)

def dbMagic : ℕ := 0xbaddb
def recMagic : ℕ := 0xfee1bad
def curVersion : ℕ := 2
def seqDeleted : UInt64 := ~~~0

/-! ### Writing -/

def serializeHeader (version : UInt64) : Bytes :=
  leBytes 4 dbMagic ++ leBytes 4 curVersion ++ leBytes 8 version.toNat

/-- `none` is the panic on a deletion that carries a value. -/
def serializeRecord (z : Flate) (key : Key) (val : Bytes) (seq : UInt64) : Option Bytes :=
  let head := leBytes 4 recMagic ++ leBytes 4 (key.length % 2 ^ 32) ++ key ++ leBytes 8 seq.toNat
  if seq = seqDeleted then
    if val.length ≠ 0 then none else some head
  else if val.length = 0 then some (head ++ leBytes 4 0)
  else
    let chunk := z.deflate val
    some (head ++ leBytes 4 (chunk.length % 2 ^ 32) ++ chunk)

/-! ### Reading -/

inductive ReadError where
  | eof
  | unexpectedEOF
  | badDbHeader (magic : ℕ)
  | badDbVersion (ver : ℕ)
  | badRecordHeader (magic : ℕ)
  | flate (text : String)
deriving DecidableEq

/-- `io.ReadFull`: the end of the input is `EOF` only when not a single byte is left. -/
def readFull (n : ℕ) (bs : Bytes) : Except ReadError (Bytes × Bytes) :=
  if n ≤ bs.length then .ok (bs.take n, bs.drop n)
  else if bs = [] then .error .eof
  else .error .unexpectedEOF

/-- `binary.Read` of a little-endian number of `n` bytes. -/
def readUint (n : ℕ) (bs : Bytes) : Except ReadError (ℕ × Bytes) := do
  let (b, rest) ← readFull n bs
  .ok (leValue b, rest)

/-- The user version; an empty file has version 0. -/
def deserializeHeader (bs : Bytes) : Except ReadError (UInt64 × Bytes) :=
  match readUint 4 bs with
  | .error .eof => .ok (0, bs)
  | .error e => .error e
  | .ok (magic, bs) =>
    if magic ≠ dbMagic then .error (.badDbHeader magic)
    else do
      let (ver, bs) ← readUint 4 bs
      if ver = 0 ∨ ver > curVersion then .error (.badDbVersion ver)
      else if ver ≥ 2 then
        let (userVer, bs) ← readUint 8 bs
        .ok (UInt64.ofNat userVer, bs)
      else .ok (0, bs)

/-- One entry of the log: a record, or a deletion when the number is `seqDeleted`. -/
structure LogEntry where
  key : Key
  val : Bytes
  seq : UInt64
deriving DecidableEq

/-- The value of a record, of which the length is read first. -/
def deserializeVal (z : Flate) (bs : Bytes) : Except ReadError (Bytes × Bytes) := do
  let (valLen, bs) ← readUint 4 bs
  if valLen ≠ 0 then
    -- the decompressor sees at most `valLen` bytes, and what it leaves of them stays unread
    match z.inflate (bs.take valLen) with
    | .error text => .error (.flate text)
    | .ok (val, n) => .ok (val, (bs.take valLen).drop n ++ bs.drop valLen)
  else .ok ([], bs)

def deserializeRecord (z : Flate) (bs : Bytes) : Except ReadError (LogEntry × Bytes) := do
  let (magic, bs) ← readUint 4 bs
  if magic ≠ recMagic then .error (.badRecordHeader magic)
  else
    let (keyLen, bs) ← readUint 4 bs
    let (key, bs) ← readFull keyLen bs
    let (seq, bs) ← readUint 8 bs
    if UInt64.ofNat seq = seqDeleted then .ok (⟨key, [], UInt64.ofNat seq⟩, bs)
    else
      let (val, bs) ← deserializeVal z bs
      .ok (⟨key, val, UInt64.ofNat seq⟩, bs)

inductive LoadError where
  | header (e : ReadError)
  | record (e : ReadError)
deriving DecidableEq

/-- What `deserializeDB` returns. -/
structure Loaded where
  version : UInt64
  records : Records UInt64
  uncompacted : ℕ
  err : Option LoadError

def LogEntry.apply (m : Records UInt64) (e : LogEntry) : Records UInt64 :=
  if e.seq = seqDeleted then m.erase e.key else m.insert e.key ⟨e.val, e.seq⟩

/-- The loop of `deserializeDB`. A record takes at least one byte, so the loop is done before
the fuel of `deserializeDB` is. -/
def readRecords (z : Flate) : (fuel : ℕ) → Bytes → Loaded → Loaded
  | 0, _, l => l
  | fuel + 1, bs, l =>
    match deserializeRecord z bs with
    | .error .eof => l
    | .error e => { l with err := some (.record e) }
    | .ok (e, bs) =>
      readRecords z fuel bs { l with records := e.apply l.records, uncompacted := l.uncompacted + 1 }

def deserializeDB (z : Flate) (bs : Bytes) : Loaded :=
  match deserializeHeader bs with
  | .error e => ⟨0, ∅, 0, some (.header e)⟩
  | .ok (ver, bs) => readRecords z (bs.length + 1) bs ⟨ver, ∅, 0, none⟩

/-! ### The database -/

structure DB where
  version : UInt64
  records : Records UInt64
  uncompacted : ℕ
  pending : Option Bytes

/-- A database and the file it is mirrored in. -/
structure Store where
  db : DB
  file : Bytes

/-- The first file operation of a call that fails. A failing write keeps the first bytes. -/
inductive Fault where
  | openFile
  | create
  | write (kept : ℕ)
  | rename
deriving DecidableEq

def DB.serialize (z : Flate) (db : DB) (key : Key) (val : Bytes) (seq : UInt64) : Option DB := do
  let bytes ← serializeRecord z key val seq
  some { db with pending := some (db.pending.getD [] ++ bytes) }

/-- `none` is the panic on the reserved sequence number. -/
def DB.save (z : Flate) (db : DB) (key : Key) (val : Bytes) (seq : UInt64) : Option DB :=
  if seq = seqDeleted then none
  else if db.records.lookup key = some ⟨val, seq⟩ then some db
  else do
    let db ← { db with records := db.records.insert key ⟨val, seq⟩ }.serialize z key val seq
    some { db with uncompacted := db.uncompacted + 1 }

def DB.delete (z : Flate) (db : DB) (key : Key) : Option DB :=
  if db.records.lookup key = none then some db
  else do
    let db ← { db with records := db.records.erase key }.serialize z key [] seqDeleted
    some { db with uncompacted := db.uncompacted + 1 }

/-- The whole database as a file, its records in the order the loop visits them. -/
def compactBytes (z : Flate) (order : RecordOrder UInt64) (db : DB) : Option Bytes := do
  let recs ← (order.run db.records.toPairs).mapM fun e => serializeRecord z e.1 e.2.val e.2.seq
  some (serializeHeader db.version ++ recs.flatten)

/-- The new file is written under another name and renamed, so a failure leaves the old one. -/
def Store.compact (z : Flate) (order : RecordOrder UInt64) (io : Option Fault)
    (s : Store) : Option (Store × Option Fault) := do
  let buf ← compactBytes z order s.db
  match io with
  | none | some .openFile =>
    some (⟨{ s.db with uncompacted := s.db.records.entries.length, pending := none }, buf⟩, none)
  | some fault => some (s, some fault)

def Store.appendPending (io : Option Fault) (pending : Bytes) (s : Store) : Store × Option Fault :=
  match io with
  | some .openFile => (s, some .openFile)
  | some (.write kept) => ({ s with file := s.file ++ pending.take kept }, some (.write kept))
  | _ => (⟨{ s.db with pending := none }, s.file ++ pending⟩, none)

def DB.compacts (db : DB) : Bool := db.uncompacted / 10 * 9 > db.records.entries.length

def Store.flush (z : Flate) (order : RecordOrder UInt64) (io : Option Fault)
    (s : Store) : Option (Store × Option Fault) :=
  if s.db.compacts then s.compact z order io
  else
    match s.db.pending with
    | none => some (s, none)
    | some pending => some (s.appendPending io pending)

def Store.bumpVersion (z : Flate) (version : UInt64) (order : RecordOrder UInt64)
    (io : Option Fault) (s : Store) : Option (Store × Option Fault) :=
  if s.db.version = version then s.flush z order io
  else { s with db := { s.db with version := version } }.compact z order io

inductive OpenError where
  | io (fault : Fault)
  | load (e : LoadError)
deriving DecidableEq

structure Opened where
  db : Option DB
  err : Option OpenError
  file : Bytes

/-- `Open` of a file with the given contents; a missing file is created empty. -/
def openDB (z : Flate) (repair : Bool) (order : RecordOrder UInt64) (io : Option Fault)
    (file : Bytes) : Option Opened :=
  if io = some .openFile then some ⟨none, some (.io .openFile), file⟩
  else
    let l := deserializeDB z file
    if l.err.isSome ∧ repair = false then some ⟨none, l.err.map .load, file⟩
    else do
      let (s, err) ← Store.compact z order io ⟨⟨l.version, l.records, l.uncompacted, none⟩, file⟩
      match err with
      | some fault => some ⟨none, some (.io fault), s.file⟩
      | none => some ⟨some s.db, l.err.map .load, s.file⟩

/-! ### Histories -/

/-- A call of the database, with the visiting order and the fault it meets. -/
inductive Call where
  | save (key : Key) (val : Bytes) (seq : UInt64)
  | delete (key : Key)
  | flush (order : RecordOrder UInt64) (io : Option Fault)
  | bumpVersion (version : UInt64) (order : RecordOrder UInt64) (io : Option Fault)

/-- The store after a call, and the error the call returns. -/
def Call.run (z : Flate) (s : Store) : Call → Option (Store × Option Fault)
  | save key val seq => (s.db.save z key val seq).map fun db => ({ s with db }, none)
  | delete key => (s.db.delete z key).map fun db => ({ s with db }, none)
  | flush order io => s.flush z order io
  | bumpVersion version order io => s.bumpVersion z version order io

def runCalls (z : Flate) (calls : List Call) (s : Store) : Option Store :=
  calls.foldlM (fun s c => (c.run z s).map Prod.fst) s

def Store.new : Store := ⟨⟨0, ∅, 0, none⟩, serializeHeader 0⟩

end Brf.Db
