import Brf.Lib.Fold
import Brf.Verification.Db.Mirror

/-! # What a file is worth

A file reopened after a successful flush is the database, as long as the lengths in it fit and
no failure is in the way; the same for runs with failures that leave whole records; and what is
read from a file that was cut off. -/

namespace Brf.Db

open Brf.Lib List Store Wire Option

def storedBytes : Bytes → Bytes
  | [] => [0]
  | b :: bs => 1 :: b :: storedBytes bs

def readStored : Bytes → Except String (Bytes × ℕ)
  | 0 :: _ => .ok ([], 1)
  | 1 :: b :: bs => do
    let (v, n) ← readStored bs
    .ok (b :: v, n + 2)
  | _ => .error "flate: corrupt input"

theorem readStored_storedBytes (v : Bytes) :
    readStored (storedBytes v) = .ok (v, (storedBytes v).length) := by
  induction v with
  | nil => rfl
  | cons b v ih =>
    rw [storedBytes, readStored, ih]
    rfl

/-- Every byte behind a mark, and an end mark: the assumptions on the codec can be met. -/
def Flate.stored : Flate where
  deflate := storedBytes
  inflate := readStored
  deflate_ne_nil v := by cases v <;> simp [storedBytes]
  inflate_deflate := readStored_storedBytes

theorem Flate.stored_failsTruncated : Flate.stored.FailsTruncated := by
  intro v
  induction v with
  | nil =>
    intro c hc hne
    cases c with
    | nil => exact ⟨_, rfl⟩
    | cons b c =>
      obtain ⟨rfl, hnil⟩ := cons_prefix_cons.mp hc
      rw [prefix_nil.mp hnil] at hne
      exact absurd rfl hne
  | cons b v ih =>
    intro c hc hne
    match c with
    | [] => exact ⟨_, rfl⟩
    | [x] =>
      obtain ⟨rfl, -⟩ := cons_prefix_cons.mp hc
      exact ⟨_, rfl⟩
    | x :: y :: c =>
      obtain ⟨rfl, hc1⟩ := cons_prefix_cons.mp hc
      obtain ⟨rfl, hc2⟩ := cons_prefix_cons.mp hc1
      have hcne : c ≠ storedBytes v := fun heq => hne (by rw [heq]; rfl)
      obtain ⟨text, htext⟩ := ih c hc2 hcne
      refine ⟨text, ?_⟩
      change readStored (1 :: y :: c) = _
      rw [readStored, show readStored c = .error text from htext]
      rfl

theorem runCalls_append (z : Flate) (cs ds : List Call) (s : Store) :
    runCalls z (cs ++ ds) s = (runCalls z cs s).bind (runCalls z ds) :=
  foldlM_append

variable {s : Store} {c : Call}

theorem Call.leftover_of_fault_none (h : c.fault = none) : c.leftover s = [] := by
  cases c with
  | save | delete => rfl
  | flush order io =>
    obtain rfl : io = none := h
    rfl
  | bumpVersion version order io =>
    obtain rfl : io = none := h
    rw [Call.leftover]
    split <;> rfl

theorem whole_nil (z : Flate) : Whole z [] := ⟨[], by simp, rfl⟩

variable {z : Flate} {es ps : List LogEntry}

/-- A call without an error leaves the file up to date, if it is up to date or written anew. -/
theorem Call.behind_eq_false {behind : Bool} (h : c.rewrites s = false → behind = false) :
    c.behind s none behind = false := by
  cases hrew : c.rewrites s with
  | true => simp [Call.behind, hrew]
  | false =>
    have hbumps : c.bumps s = false := (Bool.or_eq_false_iff.mp hrew).1
    simp [Call.behind, h hrew, hbumps]

theorem Mirrors.run_of_fault_none (h : Mirrors z s s.db.version es ps) (hadm : c.Admissible z)
    (hio : c.fault = none) : ∃ s' es' ps', c.run z s = some (s', none) ∧
    Mirrors z s' s'.db.version es' ps' ∧ (c.flushes → s'.db.pending = none) := by
  obtain ⟨s', err, hrun, heff, hpend, herr⟩ := Call.run_effect h.recordsFit hadm
  obtain rfl := herr hio
  have hleft := Call.leftover_of_fault_none (s := s) hio
  obtain ⟨version', es', ps', hmir, hver⟩ :=
    h.effect false (fun _ => rfl) heff (by rw [hleft]; exact whole_nil z)
  obtain rfl := hver (Call.behind_eq_false fun _ => rfl)
  exact ⟨s', es', ps', hrun, hmir, fun hc => hpend hc rfl⟩

theorem Mirrors.runCalls_of_fault_none (h : Mirrors z s s.db.version es ps) {calls : List Call}
    (hadm : ∀ c ∈ calls, c.Admissible z) (hio : ∀ c ∈ calls, c.fault = none) :
    ∃ s' es' ps', runCalls z calls s = some s' ∧ Mirrors z s' s'.db.version es' ps' := by
  induction calls generalizing s es ps with
  | nil => exact ⟨s, es, ps, rfl, h⟩
  | cons c calls ih =>
    obtain ⟨s1, es1, ps1, hrun, h1, -⟩ :=
      h.run_of_fault_none (hadm c mem_cons_self) (hio c mem_cons_self)
    obtain ⟨s', es', ps', hruns, h'⟩ := ih h1 (fun c hc => hadm c (mem_cons_of_mem _ hc))
      fun c hc => hio c (mem_cons_of_mem _ hc)
    refine ⟨s', es', ps', ?_, h'⟩
    rw [runCalls, foldlM_cons, hrun]
    exact hruns

/-- A database opened from a missing file is mirrored in the file whenever a flush is done. -/
theorem reopens_after_flush (z : Flate) (calls : List Call) (c : Call) (hc : c.flushes)
    (hadm : ∀ d ∈ calls ++ [c], d.Admissible z) (hio : ∀ d ∈ calls ++ [c], d.fault = none)
    (repair : Bool) (order : RecordOrder UInt64) :
    ∃ db file, openDB z repair order none [] = some ⟨some db, none, file⟩ ∧
      ∃ s, runCalls z (calls ++ [c]) ⟨db, file⟩ = some s ∧ s.Reopens z := by
  refine ⟨_, _, openDB_nil z repair order, ?_⟩
  have hadm' : ∀ d ∈ calls, d.Admissible z := fun d hd => hadm d (mem_append_left _ hd)
  have hio' : ∀ d ∈ calls, d.fault = none := fun d hd => hio d (mem_append_left _ hd)
  obtain ⟨s, es, ps, hrun, hmir⟩ := (Mirrors.new z).runCalls_of_fault_none hadm' hio'
  have hlast : c ∈ calls ++ [c] := mem_append_right _ mem_cons_self
  obtain ⟨s', es', ps', hstep, hmir', hpend⟩ := hmir.run_of_fault_none (hadm c hlast) (hio c hlast)
  refine ⟨s', ?_, hmir'.reopens (hpend hc)⟩
  rw [runCalls_append, show runCalls z calls ⟨new.db, new.file⟩ = some s from hrun]
  simp [runCalls, hstep]

theorem reopens_after_flush_compressed :
    ∃ db file, openDB .stored true .id none [] = some ⟨some db, none, file⟩ ∧
      ∃ s, runCalls .stored ([.save [1] [2, 3] 5, .delete [1], .save [4] [] 6] ++
        [.bumpVersion 7 .reverse none]) ⟨db, file⟩ = some s ∧ s.Reopens .stored :=
  reopens_after_flush .stored _ (.bumpVersion 7 .reverse none) trivial (by
      have hseq : (5 : UInt64) ≠ seqDeleted ∧ (6 : UInt64) ≠ seqDeleted := by decide
      simp [Call.Admissible, Flate.stored, storedBytes, hseq])
    (by simp [Call.fault]) true .id

/-- A key of a length that is written as 0 is read as the start of the next fields. -/
theorem deserializeDB_long_key (z : Flate) {n : ℕ} (hn : n % 2 ^ 32 = 0) (hpos : 16 ≤ n) :
    ∃ bytes, serializeRecord z (List.replicate n 0) [] 0 = some bytes ∧
    (deserializeDB z (serializeHeader 0 ++ bytes)).err = some (.record (.badRecordHeader 0)) := by
  have hdel : (0 : UInt64) ≠ seqDeleted := by decide
  obtain ⟨m, rfl⟩ : ∃ m, n = 12 + (4 + m) := ⟨n - 16, by omega⟩
  let first : LogEntry := ⟨[], [], 0⟩
  have hfits : ∀ e ∈ [first], e.Fits z := by
    intro e he
    obtain rfl := mem_singleton.mp he
    exact ⟨by decide, fun hne => absurd rfl hne, fun _ => rfl⟩
  have hkey : (List.replicate (12 + (4 + m)) 0 : Bytes) =
      leBytes 8 0 ++ (leBytes 4 0 ++ (leBytes 4 0 ++ List.replicate m 0)) := by
    rw [replicate_add, replicate_add]
    rfl
  have hser : serializeRecord z (List.replicate (12 + (4 + m)) 0) [] 0 =
      some (leBytes 4 recMagic ++ (leBytes 4 0 ++
        (List.replicate (12 + (4 + m)) 0 ++ (leBytes 8 0 ++ leBytes 4 0)))) := by
    simp only [serializeRecord, length_replicate, hn, hdel, if_false, length_nil, if_true,
      append_assoc]
    rfl
  refine ⟨_, hser, ?_⟩
  have hmagic : deserializeRecord z (leBytes 4 0 ++
      (List.replicate m 0 ++ (leBytes 8 0 ++ leBytes 4 0))) =
        .error (.badRecordHeader 0) := by
    rfl
  have htail := deserializeDB_tail 0 hfits hmagic
  have hfile : fileOf z 0 [first] ++ (leBytes 4 0 ++
      (List.replicate m 0 ++ (leBytes 8 0 ++ leBytes 4 0))) =
      serializeHeader 0 ++ (leBytes 4 recMagic ++ (leBytes 4 0 ++
        (List.replicate (12 + (4 + m)) 0 ++ (leBytes 8 0 ++ leBytes 4 0)))) := by
    simp [hkey, fileOf, first, LogEntry.bytes, LogEntry.head, LogEntry.body, hdel]
  rw [hfile] at htail
  rw [htail]
  rfl

theorem long_key_run {n : ℕ} (hn : n % 2 ^ 32 = 0) (hpos : 16 ≤ n) :
    ∃ s, runCalls .stored [.save (List.replicate n 0) [] 0, .flush .id none] new = some s ∧
      ¬ s.Reopens .stored := by
  obtain ⟨bytes, hser, herr⟩ := deserializeDB_long_key .stored hn hpos
  have hseq : (0 : UInt64) ≠ seqDeleted := by decide
  refine ⟨⟨⟨0, (∅ : Records UInt64).insert (List.replicate n 0) ⟨[], 0⟩, 1, none⟩,
    serializeHeader 0 ++ bytes⟩, ?_, ?_⟩
  · simp [runCalls, Call.run, DB.save, hseq, new, DB.serialize, hser, flush,
      DB.compacts, appendPending]
  · intro hopen
    obtain ⟨db, file, hdb, -⟩ := hopen false .id
    simp [openDB, herr] at hdb

/-- A key of 2^32 bytes makes the file unreadable. -/
theorem long_key_not_reopened :
    ∃ s, runCalls .stored [.save (List.replicate (2 ^ 32) 0) [] 0, .flush .id none] new =
      some s ∧ ¬ s.Reopens .stored :=
  long_key_run (Nat.mod_self _) (by decide)

/-- When a failure does no harm: a failing append leaves whole records, and nothing is appended
while the version of the file may be behind. -/
structure Call.Tolerable (z : Flate) (s : Store) (behind : Bool) (c : Call) : Prop where
  admissible : c.Admissible z
  whole : Whole z (c.leftover s)
  current : c.flushes → c.rewrites s = false → behind = false

/-- Every call of a run is tolerable in the store it finds. -/
def Tolerable (z : Flate) : Bool → List Call → Store → Prop
  | _, [], _ => True
  | behind, c :: calls, s => c.Tolerable z s behind ∧
      ∀ s' err, c.run z s = some (s', err) → Tolerable z (c.behind s err behind) calls s'

variable {s' : Store} {behind : Bool}

/-- The file mirrors the store, with the version of the store unless it is behind. -/
def Kept (z : Flate) (s : Store) (behind : Bool) : Prop :=
  ∃ version es ps, Mirrors z s version es ps ∧ (behind = false → version = s.db.version)

theorem Kept.run {err : Option Fault} (h : Kept z s behind) (hc : c.Tolerable z s behind)
    (hrun : c.run z s = some (s', err)) :
    Kept z s' (c.behind s err behind) ∧ (c.flushes → err = none → s'.Reopens z) := by
  obtain ⟨version, es, ps, hmir, hver⟩ := h
  obtain ⟨s1, err1, hrun1, heff, hpend, -⟩ := Call.run_effect hmir.recordsFit hc.admissible
  rw [hrun] at hrun1
  cases hrun1
  obtain ⟨version', es', ps', hmir', hver'⟩ := hmir.effect behind hver heff hc.whole
  refine ⟨⟨version', es', ps', hmir', hver'⟩, ?_⟩
  rintro hflush rfl
  obtain rfl := hver' (Call.behind_eq_false (hc.current hflush))
  exact hmir'.reopens (hpend hflush rfl)

theorem Kept.runCalls (h : Kept z s behind) {calls rest : List Call}
    (hc : Tolerable z behind (calls ++ rest) s) (hrun : runCalls z calls s = some s') :
    ∃ behind', Kept z s' behind' ∧ Tolerable z behind' rest s' := by
  induction calls generalizing s behind with
  | nil =>
    obtain rfl : s = s' := by simpa [Db.runCalls] using hrun
    exact ⟨behind, h, hc⟩
  | cons c calls ih =>
    obtain ⟨s1, hs1, hrun⟩ := bind_eq_some_iff.mp hrun
    obtain ⟨⟨s1, err⟩, hstep, rfl⟩ := map_eq_some_iff.mp hs1
    exact ih (h.run hc.1 hstep).1 (hc.2 _ _ hstep) hrun

end Brf.Db
