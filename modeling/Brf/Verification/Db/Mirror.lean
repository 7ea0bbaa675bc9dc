import Brf.Verification.Db.Format

/-! # The map, the pending records and the file

The file is a header with a log, the pending bytes are the rest of the log, and both together
replay to the map in memory. Every call is one of a few effects, and each of them keeps this. -/

namespace Brf.Db

open Brf.Lib List Db.LogEntry Store Db.Call

variable {z : Flate}

theorem prefix_of_flatMap_bytes_prefix {es es' : List LogEntry}
    (h : ∀ e ∈ es, e.Fits z) (h' : ∀ e ∈ es', e.Fits z)
    (hp : es.flatMap (bytes z) <+: es'.flatMap (bytes z)) : es <+: es' := by
  induction es generalizing es' with
  | nil => exact nil_prefix
  | cons e es ih =>
    obtain ⟨t, ht⟩ := hp
    rw [flatMap_cons, append_assoc] at ht
    have hread := deserializeRecord_bytes (h e mem_cons_self) (es.flatMap (bytes z) ++ t)
    cases es' with
    | nil =>
      have hpos := e.length_bytes_pos z
      have hlen := congrArg List.length ht
      simp only [length_append, flatMap_nil, length_nil] at hlen
      omega
    | cons e' es' =>
      have hread' := deserializeRecord_bytes (h' e' mem_cons_self) (es'.flatMap (bytes z))
      rw [flatMap_cons] at ht
      rw [ht, hread'] at hread
      simp only [Except.ok.injEq, Prod.mk.injEq] at hread
      obtain ⟨rfl, hrest⟩ := hread
      refine cons_prefix_cons.mpr ⟨rfl, ih (fun e he => h e (mem_cons_of_mem _ he))
        (fun e he => h' e (mem_cons_of_mem _ he)) ?_⟩
      exact ⟨t, hrest.symm⟩

variable {es : List LogEntry}

theorem flatMap_bytes_eq_nil (h : es.flatMap (bytes z) = []) : es = [] := by
  have hlen := length_le_length_flatMap_bytes z es
  rw [h] at hlen
  exact length_eq_zero_iff.mp (Nat.le_zero.mp hlen)

/-! ### Records that can be written -/

def entryOf (p : Key × Record UInt64) : LogEntry := ⟨p.1, p.2.val, p.2.seq⟩

def RecordsFit (z : Flate) (m : Records UInt64) : Prop :=
  ∀ k r, m.lookup k = some r → (entryOf (k, r)).Fits z ∧ r.seq ≠ seqDeleted

variable {m : Records UInt64} {e : LogEntry}

theorem RecordsFit.apply (h : RecordsFit z m) (he : e.Fits z) : RecordsFit z (e.apply m) := by
  intro k r hk
  rw [e.apply_eq_change, Replay.Change.lookup_apply] at hk
  split at hk
  · rename_i hkey
    subst hkey
    by_cases hdel : e.seq = seqDeleted
    · simp [change, hdel] at hk
    · simp only [change, hdel, if_false, Option.some.injEq] at hk
      subst hk
      exact ⟨he, hdel⟩
  · exact h k r hk

theorem mapM_eq_some_map {α β : Type} {f : α → Option β} {g : α → β} {l : List α}
    (h : ∀ a ∈ l, f a = some (g a)) : l.mapM f = some (l.map g) := by
  induction l with
  | nil => rfl
  | cons a l ih =>
    rw [mapM_cons, h a mem_cons_self, ih fun b hb => h b (mem_cons_of_mem _ hb)]
    rfl

/-- The log a compaction writes. -/
def compactLog (order : RecordOrder UInt64) (m : Records UInt64) : List LogEntry :=
  (order.run m.toPairs).map entryOf

theorem fits_compactLog (h : RecordsFit z m)
    (order : RecordOrder UInt64) : ∀ e ∈ compactLog order m, e.Fits z := by
  intro e he
  obtain ⟨⟨k, r⟩, hmem, rfl⟩ := mem_map.mp he
  exact (h k r (Dict.mem_toPairs.mp ((order.mem_run _ _).mp hmem))).1

theorem compactBytes_eq (db : DB) (h : RecordsFit z db.records) (order : RecordOrder UInt64) :
    compactBytes z order db = some (fileOf z db.version (compactLog order db.records)) := by
  have hmap : (order.run db.records.toPairs).mapM (fun e => serializeRecord z e.1 e.2.val e.2.seq) =
      some ((order.run db.records.toPairs).map fun e => (entryOf e).bytes z) := by
    apply mapM_eq_some_map
    intro e he
    have hfits := fits_compactLog h order (entryOf e) (mem_map_of_mem he)
    exact serializeRecord_eq hfits
  rw [compactBytes, hmap]
  simp [fileOf, compactLog, flatMap_def, Function.comp_def]

theorem replay_compactLog (h : RecordsFit z m) (order : RecordOrder UInt64) :
    (replay (compactLog order m) ∅).toFinmap = m.toFinmap := by
  have hsnap : (compactLog order m).map change =
      Replay.snapshot (order.run m.toPairs) := by
    rw [compactLog, map_map]
    apply map_congr_left
    intro p hp
    have hlook := Dict.mem_toPairs.mp ((order.mem_run _ _).mp hp)
    have hdel : (entryOf p).seq ≠ seqDeleted := (h p.1 p.2 hlook).2
    rw [Function.comp_apply, change, if_neg hdel]
    rfl
  rw [replay, hsnap]
  exact Replay.replay_snapshot (order.perm _)

/-! ### The effects of a call -/

/-- The record or deletion `e` is logged. -/
def DB.log (z : Flate) (db : DB) (e : LogEntry) : DB :=
  { db with
    records := e.apply db.records
    pending := some (db.pending.getD [] ++ e.bytes z)
    uncompacted := db.uncompacted + 1 }

/-- The file is written anew. -/
def Store.rewrite (z : Flate) (s : Store) (version : UInt64) (order : RecordOrder UInt64) : Store :=
  ⟨⟨version, s.db.records, s.db.records.entries.length, none⟩,
    fileOf z version (compactLog order s.db.records)⟩

/-- The bytes a failing append leaves in the file. -/
def Store.leftover (s : Store) (io : Option Fault) : Bytes :=
  match io with
  | some (.write kept) => if s.db.compacts then [] else (s.db.pending.getD []).take kept
  | _ => []

def Call.leftover (s : Store) : Call → Bytes
  | save .. | delete _ => []
  | flush _ io => s.leftover io
  | bumpVersion version _ io => if s.db.version = version then s.leftover io else []

/-- Calls after which the file is meant to be up to date. -/
def Call.flushes : Call → Prop
  | save .. | delete _ => False
  | flush .. | bumpVersion .. => True

/-- The file operation of a call that fails. -/
def Call.fault : Call → Option Fault
  | save .. | delete _ => none
  | flush _ io | bumpVersion _ _ io => io

/-- Calls that set another version. -/
def Call.bumps (s : Store) : Call → Bool
  | bumpVersion version .. => s.db.version ≠ version
  | _ => false

/-- Calls that write the file anew; the others that flush append to it. -/
def Call.rewrites (s : Store) (c : Call) : Bool :=
  c.bumps s || s.db.compacts && match c with
    | flush .. | bumpVersion .. => true
    | _ => false

/-- Whether the version of the file may be behind after a call that returned `err`: it is when a
`BumpVersion` could not write the file, until the file is written anew. -/
def Call.behind (s : Store) (err : Option Fault) (behind : Bool) (c : Call) : Bool :=
  (behind || c.bumps s) && !(c.rewrites s && err.isNone)

/-- What a call can do to a store. -/
inductive Effect (z : Flate) (c : Call) (s : Store) : Store → Option Fault → Prop where
  | unchanged (h : c.rewrites s = false) : Effect z c s s none
  | logged (e : LogEntry) (he : e.Fits z) (h : c.rewrites s = false) :
      Effect z c s ⟨s.db.log z e, s.file⟩ none
  | rewritten (version : UInt64) (order : RecordOrder UInt64) :
      Effect z c s (s.rewrite z version order) none
  | rewriteFailed (version : UInt64) (fault : Fault) (h : c.bumps s = false → version = s.db.version) :
      Effect z c s ⟨{ s.db with version := version }, s.file⟩ (some fault)
  | appended (h : c.rewrites s = false) :
      Effect z c s ⟨{ s.db with pending := none }, s.file ++ s.db.pending.getD []⟩ none
  | appendFailed (fault : Fault) : Effect z c s ⟨s.db, s.file ++ c.leftover s⟩ (some fault)

/-- Calls that do not panic and whose lengths fit the file format. -/
def Call.Admissible (z : Flate) : Call → Prop
  | save key val seq =>
    seq ≠ seqDeleted ∧ key.length < 2 ^ 32 ∧ (val ≠ [] → (z.deflate val).length < 2 ^ 32)
  | _ => True

theorem DB.save_eq (db : DB) {key : Key} {val : Bytes} {seq : UInt64}
    (h : (Call.save key val seq).Admissible z) : db.save z key val seq = if db.records.lookup key =
    some ⟨val, seq⟩ then some db else some (db.log z ⟨key, val, seq⟩) := by
  obtain ⟨hseq, hkey, hval⟩ := h
  have hfits : (⟨key, val, seq⟩ : LogEntry).Fits z := ⟨hkey, hval, fun hdel => absurd hdel hseq⟩
  have hser := serializeRecord_eq hfits
  simp [DB.save, hseq, DB.serialize, hser, DB.log, apply]

theorem DB.delete_eq {db : DB} (h : RecordsFit z db.records) (key : Key) :
    db.delete z key = some db ∨ ∃ e : LogEntry, e.Fits z ∧ db.delete z key = some (db.log z e) := by
  cases hlook : db.records.lookup key with
  | none => exact .inl (by simp [DB.delete, hlook])
  | some r =>
    right
    have hfits : (⟨key, [], seqDeleted⟩ : LogEntry).Fits z :=
      ⟨(h key r hlook).1.key_lt, fun hne => absurd rfl hne, fun _ => rfl⟩
    have hser := serializeRecord_eq hfits
    refine ⟨_, hfits, ?_⟩
    simp [DB.delete, hlook, DB.serialize, hser, DB.log, apply]

variable {s : Store}

theorem Store.compact_cases (h : RecordsFit z s.db.records)
    (version : UInt64) (order : RecordOrder UInt64) (io : Option Fault) :
    compact z order io ⟨{ s.db with version := version }, s.file⟩ =
        some (s.rewrite z version order, none) ∨
      ∃ fault, io = some fault ∧
        compact z order io ⟨{ s.db with version := version }, s.file⟩ =
          some (⟨{ s.db with version := version }, s.file⟩, some fault) := by
  have hbytes := compactBytes_eq { s.db with version := version } h order
  rw [compact, hbytes]
  cases io with
  | none => exact .inl rfl
  | some fault =>
    cases fault with
    | openFile => exact .inl rfl
    | create | write | rename => exact .inr ⟨_, rfl, rfl⟩

variable {c : Call}

theorem Store.compact_effect (h : RecordsFit z s.db.records) {version : UInt64}
    (hv : c.bumps s = false → version = s.db.version) (order : RecordOrder UInt64)
    (io : Option Fault) :
    ∃ s' err, compact z order io ⟨{ s.db with version := version }, s.file⟩ = some (s', err) ∧
      Effect z c s s' err ∧ (err = none → s'.db.pending = none) ∧ (io = none → err = none) := by
  obtain hrun | ⟨fault, rfl, hrun⟩ := compact_cases h version order io
  · exact ⟨_, _, hrun, .rewritten version order, fun _ => rfl, fun _ => rfl⟩
  · exact ⟨_, _, hrun, .rewriteFailed version fault hv, nofun, nofun⟩

theorem Store.flush_effect (h : RecordsFit z s.db.records) (hrew : c.rewrites s = s.db.compacts)
    (order : RecordOrder UInt64) {io : Option Fault}
    (hleft : c.leftover s = s.leftover io) : ∃ s' err, s.flush z order io = some (s', err) ∧
    Effect z c s s' err ∧ (err = none → s'.db.pending = none) ∧ (io = none → err = none) := by
  cases hc : s.db.compacts with
  | true =>
    obtain ⟨s', err, hrun, heff⟩ := compact_effect h (fun _ => rfl) order io
    exact ⟨s', err, by rw [flush, if_pos hc]; exact hrun, heff⟩
  | false =>
    rw [hc] at hrew
    simp only [flush, hc, Bool.false_eq_true, if_false]
    cases hp : s.db.pending with
    | none => exact ⟨s, none, rfl, .unchanged hrew, fun _ => hp, fun _ => rfl⟩
    | some pending =>
      have happ : Effect z c s _ none := .appended hrew
      rw [hp] at happ
      cases io with
      | none => exact ⟨_, _, rfl, happ, fun _ => rfl, fun _ => rfl⟩
      | some fault =>
        have hfail : Effect z c s _ _ := .appendFailed fault
        rw [hleft] at hfail
        cases fault with
        | create | rename => exact ⟨_, _, rfl, happ, fun _ => rfl, nofun⟩
        | openFile =>
          simp only [leftover, append_nil] at hfail
          exact ⟨_, _, rfl, hfail, nofun, nofun⟩
        | write kept =>
          simp only [leftover, hc, hp, Option.getD_some] at hfail ⊢
          exact ⟨_, _, rfl, hfail, nofun, nofun⟩

/-- What one call does to the database and the file. -/
theorem Call.run_effect (h : RecordsFit z s.db.records) (hc : c.Admissible z) :
    ∃ s' err, c.run z s = some (s', err) ∧ Effect z c s s' err ∧
      (c.flushes → err = none → s'.db.pending = none) ∧ (c.fault = none → err = none) := by
  cases c with
  | save key val seq =>
    have hrew : (Call.save key val seq).rewrites s = false := by simp [rewrites, bumps]
    have hsave := s.db.save_eq hc
    split at hsave
    · exact ⟨s, none, by simp [Call.run, hsave], .unchanged hrew, nofun, fun _ => rfl⟩
    · have hfits : (⟨key, val, seq⟩ : LogEntry).Fits z :=
        ⟨hc.2.1, hc.2.2, fun hdel => absurd hdel hc.1⟩
      exact ⟨_, none, by simp [run, hsave], .logged _ hfits hrew, nofun, fun _ => rfl⟩
  | delete key =>
    have hrew : (Call.delete key).rewrites s = false := by simp [rewrites, bumps]
    obtain hdel | ⟨e, he, hdel⟩ := DB.delete_eq h key
    · exact ⟨s, none, by simp [run, hdel], .unchanged hrew, nofun, fun _ => rfl⟩
    · exact ⟨_, none, by simp [run, hdel], .logged e he hrew, nofun, fun _ => rfl⟩
  | flush order io =>
    obtain ⟨s', err, hrun, heff, hpend, hio⟩ := flush_effect (c := .flush order io) h
      (by simp [rewrites, bumps]) order rfl
    exact ⟨s', err, hrun, heff, fun _ => hpend, hio⟩
  | bumpVersion version order io =>
    by_cases hv : s.db.version = version
    · obtain ⟨s', err, hrun, heff, hpend, hio⟩ := flush_effect (c := .bumpVersion version order io) h
        (by simp [rewrites, bumps, hv]) order (if_pos hv)
      refine ⟨s', err, ?_, heff, fun _ => hpend, hio⟩
      simpa [run, Store.bumpVersion, hv] using hrun
    · obtain ⟨s', err, hrun, heff, hpend, hio⟩ :=
        compact_effect (c := .bumpVersion version order io) h (by simp [bumps, hv]) order io
      refine ⟨s', err, ?_, heff, fun _ => hpend, hio⟩
      simpa [run, Store.bumpVersion, hv] using hrun

/-- The file holds the log `es` under the version `version`, the log `ps` is still to be
written, and both together are the map. -/
structure Mirrors (z : Flate) (s : Store) (version : UInt64) (es ps : List LogEntry) : Prop where
  file_eq : s.file = fileOf z version es
  pending_eq : s.db.pending.getD [] = ps.flatMap (bytes z)
  fits : ∀ e ∈ es ++ ps, e.Fits z
  records_eq : (replay (es ++ ps) ∅).toFinmap = s.db.records.toFinmap

theorem RecordsFit.replay (h : RecordsFit z m)
    (hes : ∀ e ∈ es, e.Fits z) : RecordsFit z (replay es m) := by
  induction es generalizing m with
  | nil => exact h
  | cons e es ih =>
    have hstep := ih (h.apply (hes e mem_cons_self))
      fun e he => hes e (mem_cons_of_mem _ he)
    rw [e.apply_eq_change] at hstep
    exact hstep

theorem replay_congr (es : List LogEntry) {m' : Records UInt64} (h : m.toFinmap = m'.toFinmap) :
    (replay es m).toFinmap = (replay es m').toFinmap :=
  Replay.replay_congr (fun _ => rfl) h

namespace Mirrors

variable {z : Flate} {s : Store} {version : UInt64} {es ps : List LogEntry}

theorem recordsFit (h : Mirrors z s version es ps) : RecordsFit z s.db.records := by
  intro k r hk
  have hempty : RecordsFit z ∅ := fun k r hk => by simp at hk
  refine hempty.replay h.fits k r ?_
  rw [Dict.lookup_eq_of_toFinmap h.records_eq]
  exact hk

theorem new (z : Flate) : Mirrors z new 0 [] [] where
  file_eq := by simp [Store.new, fileOf]
  pending_eq := rfl
  fits := by simp
  records_eq := rfl

section

variable (h : Mirrors z s version es ps)

include h

theorem logged (he : e.Fits z) : Mirrors z ⟨s.db.log z e, s.file⟩ version es (ps ++ [e]) where
  file_eq := h.file_eq
  pending_eq := by simp [DB.log, h.pending_eq]
  fits := by
    intro d hd
    rw [← append_assoc, mem_append, mem_singleton] at hd
    obtain hd | rfl := hd
    · exact h.fits d hd
    · exact he
  records_eq := by
    rw [← append_assoc, replay_append, replay_congr [e] h.records_eq, DB.log, e.apply_eq_change]
    rfl

theorem appended :
    Mirrors z ⟨{ s.db with pending := none }, s.file ++ s.db.pending.getD []⟩ version
      (es ++ ps) [] where
  file_eq := by rw [h.file_eq, h.pending_eq, fileOf_append]
  pending_eq := rfl
  fits := by simpa using h.fits
  records_eq := by simpa using h.records_eq

theorem appendFailed {ps' : List LogEntry} (hp : ps' <+: ps) :
    Mirrors z ⟨s.db, s.file ++ ps'.flatMap (bytes z)⟩ version (es ++ ps') ps where
  file_eq := by rw [h.file_eq, fileOf_append]
  pending_eq := h.pending_eq
  fits := by
    intro e he
    apply h.fits
    simp only [mem_append] at he ⊢
    obtain (he | he) | he := he
    · exact .inl he
    · exact .inr (hp.subset he)
    · exact .inr he
  records_eq := by
    have htwice := Replay.replay_superseded (fun c hc => ⟨c, (hp.map change).subset hc, rfl⟩)
      (replay es ∅)
    rw [← map_append] at htwice
    rw [← h.records_eq, append_assoc, replay_append es (ps' ++ ps), replay_append es ps]
    exact htwice

theorem rewritten (version' : UInt64) (order : RecordOrder UInt64) :
    Mirrors z (s.rewrite z version' order) version' (compactLog order s.db.records) [] where
  file_eq := rfl
  pending_eq := rfl
  fits := by simpa using fits_compactLog h.recordsFit order
  records_eq := by simpa [rewrite] using replay_compactLog h.recordsFit order

end

end Mirrors

/-- Bytes that are whole records. -/
def Whole (z : Flate) (t : Bytes) : Prop :=
  ∃ es : List LogEntry, (∀ e ∈ es, e.Fits z) ∧ t = es.flatMap (bytes z)

theorem Call.leftover_prefix (s : Store) (c : Call) : c.leftover s <+: s.db.pending.getD [] := by
  have hstore : ∀ io, s.leftover io <+: s.db.pending.getD [] := by
    intro io
    unfold Store.leftover
    split
    · split
      · exact nil_prefix
      · exact take_prefix _ _
    · exact nil_prefix
  cases c with
  | save | delete => exact nil_prefix
  | flush order io => exact hstore io
  | bumpVersion version order io =>
    rw [leftover]
    split
    · exact hstore io
    · exact nil_prefix

/-- Every effect keeps the mirror, as long as a failing append leaves whole records, and the
version of the file is that of the database unless it is behind. -/
theorem Mirrors.effect {s' : Store} {version : UInt64} {ps : List LogEntry}
    {err : Option Fault} (h : Mirrors z s version es ps) (behind : Bool)
    (hver : behind = false → version = s.db.version) (heff : Effect z c s s' err)
    (hwhole : Whole z (c.leftover s)) : ∃ version' es' ps', Mirrors z s' version' es' ps' ∧
    (c.behind s err behind = false → version' = s'.db.version) := by
  cases heff with
  | unchanged hrew =>
    refine ⟨version, es, ps, h, fun hb => hver ?_⟩
    simp_all [Call.behind]
  | logged e he hrew =>
    refine ⟨version, es, ps ++ [e], h.logged he, fun hb => hver ?_⟩
    simp_all [Call.behind]
  | rewritten version' order => exact ⟨version', _, [], h.rewritten version' order, fun _ => rfl⟩
  | rewriteFailed version' fault hv =>
    refine ⟨version, es, ps, ⟨h.file_eq, h.pending_eq, h.fits, h.records_eq⟩, fun hb => ?_⟩
    simp only [Call.behind, Option.isNone_some, Bool.and_false, Bool.not_false, Bool.and_true,
      Bool.or_eq_false_iff] at hb
    exact (hver hb.1).trans (hv hb.2).symm
  | appended hrew =>
    refine ⟨version, es ++ ps, [], h.appended, fun hb => hver ?_⟩
    simp_all [Call.behind]
  | appendFailed fault =>
    have hleft := c.leftover_prefix s
    obtain ⟨ps', hfits, heq⟩ := hwhole
    rw [heq, h.pending_eq] at hleft
    have hp : ps' <+: ps := prefix_of_flatMap_bytes_prefix hfits
      (fun e he => h.fits e (mem_append_right _ he)) hleft
    refine ⟨version, es ++ ps', ps, heq ▸ h.appendFailed hp, fun hb => hver ?_⟩
    simp_all [Call.behind]

/-- Opening the file again gives the map and the version of the store, without an error. -/
def Store.Reopens (z : Flate) (s : Store) : Prop :=
  ∀ repair order, ∃ db file, openDB z repair order none s.file = some ⟨some db, none, file⟩ ∧
    db.version = s.db.version ∧ db.records.toFinmap = s.db.records.toFinmap

theorem openDB_fileOf (version : UInt64) (h : ∀ e ∈ es, e.Fits z)
    (repair : Bool) (order : RecordOrder UInt64) :
    openDB z repair order none (fileOf z version es) =
      some ⟨some ⟨version, replay es ∅, (replay es ∅).entries.length, none⟩, none,
        fileOf z version (compactLog order (replay es ∅))⟩ := by
  have hempty : RecordsFit z ∅ := fun k r hk => by simp at hk
  have hbytes := compactBytes_eq ⟨version, replay es ∅, es.length, none⟩ (hempty.replay h) order
  simp [openDB, deserializeDB_fileOf version h, compact, hbytes]

theorem openDB_nil (z : Flate) (repair : Bool) (order : RecordOrder UInt64) :
    openDB z repair order none [] = some ⟨some new.db, none, new.file⟩ := by
  have hperm := order.perm (Dict.toPairs (∅ : Records UInt64))
  rw [Dict.toPairs_empty, perm_nil] at hperm
  have hload : deserializeDB z [] = ⟨0, ∅, 0, none⟩ := by
    rfl
  simp [openDB, hload, compact, compactBytes, hperm, new]

theorem Mirrors.reopens {ps : List LogEntry}
    (h : Mirrors z s s.db.version es ps) (hpend : s.db.pending = none) : s.Reopens z := by
  have hps : ps = [] := by
    apply flatMap_bytes_eq_nil (z := z)
    rw [← h.pending_eq, hpend]
    rfl
  subst hps
  have hfits : ∀ e ∈ es, e.Fits z := by simpa using h.fits
  have hrec := h.records_eq
  rw [append_nil] at hrec
  intro repair order
  have hopen := openDB_fileOf s.db.version hfits repair order
  rw [← h.file_eq] at hopen
  exact ⟨_, _, hopen, rfl, hrec⟩

end Brf.Db
