import Brf.Verification.Db.Durability

/-! # Files that were cut off

What is read from the first bytes of a file is always the replay of its complete records. The
cut itself is noticed unless it falls between two records or between two fields of a record. -/

namespace Brf.Db

open Brf.Lib List Db.LogEntry

/-- The records that lie within the first `n` bytes of a log. -/
def complete (z : Flate) : List LogEntry → ℕ → List LogEntry
  | [], _ => []
  | e :: es, n =>
    if (e.bytes z).length ≤ n then e :: complete z es (n - (e.bytes z).length) else []

/-- The number of bytes after the last complete record. -/
def cut (z : Flate) (es : List LogEntry) (n : ℕ) : ℕ :=
  n - ((complete z es n).flatMap (bytes z)).length

/-- The record a cut falls into. -/
def cutRecord (z : Flate) (es : List LogEntry) (n : ℕ) : Option LogEntry :=
  es[(complete z es n).length]?

theorem complete_subset (z : Flate) (es : List LogEntry) (n : ℕ) : complete z es n ⊆ es := by
  induction es generalizing n with
  | nil => exact fun _ h => h
  | cons e es ih =>
    rw [complete]
    split
    · exact cons_subset_cons e (ih _)
    · exact nil_subset _

theorem take_flatMap_bytes (z : Flate) (es : List LogEntry) (n : ℕ)
    (hn : n ≤ (es.flatMap (bytes z)).length) : ∃ t, (es.flatMap (bytes z)).take n =
    (complete z es n).flatMap (bytes z) ++ t ∧ t.length = cut z es n ∧
    (t = [] ∨ ∃ e, cutRecord z es n = some e ∧ t <+: e.bytes z ∧ t ≠ e.bytes z) := by
  induction es generalizing n with
  | nil =>
    obtain rfl : n = 0 := by simpa using hn
    exact ⟨[], rfl, rfl, .inl rfl⟩
  | cons e es ih =>
    rw [flatMap_cons, length_append] at hn
    rw [flatMap_cons]
    by_cases hle : (e.bytes z).length ≤ n
    · obtain ⟨t, htake, hlen, hcut⟩ := ih (n - (e.bytes z).length) (by omega)
      refine ⟨t, ?_, ?_, ?_⟩
      · rw [take_append, take_of_length_le hle, htake, complete, if_pos hle,
          flatMap_cons, append_assoc]
      · rw [hlen, cut, cut, complete, if_pos hle, flatMap_cons, length_append]
        omega
      · simpa [cutRecord, complete, hle] using hcut
    · have hlt : n < (e.bytes z).length := Nat.not_le.mp hle
      refine ⟨(e.bytes z).take n, ?_, ?_, .inr ⟨e, ?_, take_prefix _ _, ?_⟩⟩
      · rw [take_append_of_le_length (Nat.le_of_lt hlt), complete, if_neg hle]
        rfl
      · rw [cut, complete, if_neg hle, length_take]
        simp only [flatMap_nil, length_nil]
        omega
      · rw [cutRecord, complete, if_neg hle]
        rfl
      · intro heq
        have hlen := congrArg List.length heq
        rw [length_take] at hlen
        omega

variable {n : ℕ}

theorem LogEntry.pos_of_mem_fieldEnds (e : LogEntry) (h : n ∈ e.fieldEnds) : 0 < n := by
  have hge : ∀ m ∈ e.fieldEnds, 4 ≤ m := by
    by_cases hdel : e.seq = seqDeleted
    · simp [fieldEnds, hdel, Nat.le_add_right_of_le]
    · simp [fieldEnds, hdel, Nat.le_add_right_of_le]
  exact Nat.lt_of_lt_of_le (by decide) (hge n h)

/-- What a reader should make of the first `n` bytes of the log of a file. -/
structure ReadsPrefix (z : Flate) (version : UInt64) (es : List LogEntry) (n : ℕ) (l : Loaded) :
    Prop where
  version_eq : l.version = version
  records_eq : l.records.toFinmap = (replay (complete z es n) ∅).toFinmap
  err_iff : l.err ≠ none ↔ cut z es n ≠ 0

variable {z : Flate} {es : List LogEntry}

/-- The complete records are always read, and the cut is overlooked exactly when it is at the
end of a field. -/
theorem deserializeDB_prefix (hz : z.FailsTruncated) (version : UInt64) (hes : ∀ e ∈ es, e.Fits z)
    (hn : n ≤ (es.flatMap (bytes z)).length) :
    ∃ err, deserializeDB z (serializeHeader version ++ (es.flatMap (bytes z)).take n) =
        ⟨version, replay (complete z es n) ∅, (complete z es n).length, err⟩ ∧
      (err = none ↔ cut z es n = 0 ∨ ∃ e, cutRecord z es n = some e ∧ cut z es n ∈ e.fieldEnds) := by
  obtain ⟨t, htake, hlen, hcut⟩ := take_flatMap_bytes z es n hn
  have hfits : ∀ e ∈ complete z es n, e.Fits z := fun e he => hes e (complete_subset z es n he)
  rw [htake, ← append_assoc, ← fileOf, ← hlen]
  obtain rfl | ⟨e, hrec, hpre, hne⟩ := hcut
  · rw [append_nil, deserializeDB_fileOf version hfits]
    exact ⟨none, rfl, by simp⟩
  · have he : e.Fits z := hes e (mem_of_getElem? hrec)
    obtain ⟨err, herr, heof⟩ := deserializeRecord_truncated he hz hpre hne
    refine ⟨_, deserializeDB_tail version hfits herr, ?_⟩
    have hnone : (if err = .eof then none else some (LoadError.record err)) = none ↔
        err = .eof := by
      by_cases h : err = .eof <;> simp [h]
    rw [hnone, heof, hrec]
    simp

theorem readsPrefix_iff (hz : z.FailsTruncated) (version : UInt64) (hes : ∀ e ∈ es, e.Fits z)
    (hn : n ≤ (es.flatMap (bytes z)).length) :
    ReadsPrefix z version es n
        (deserializeDB z (serializeHeader version ++ (es.flatMap (bytes z)).take n)) ↔
      ¬ ∃ e, cutRecord z es n = some e ∧ cut z es n ∈ e.fieldEnds := by
  obtain ⟨err, hread, herr⟩ := deserializeDB_prefix hz version hes hn
  rw [hread]
  constructor
  · rintro ⟨-, -, hiff⟩ ⟨e, hrec, hend⟩
    exact hiff.mpr (e.pos_of_mem_fieldEnds hend).ne' (herr.mpr (.inr ⟨e, hrec, hend⟩))
  · intro hinside
    refine ⟨rfl, rfl, ?_⟩
    simp only [ne_eq, herr, not_or, and_iff_left_iff_imp]
    exact fun _ => hinside

/-- For the file of every run and every prefix of it that has the header. -/
theorem prefix_read_iff (z : Flate) (hz : z.FailsTruncated) (calls : List Call)
    (hadm : ∀ c ∈ calls, c.Admissible z) (hio : ∀ c ∈ calls, c.fault = none) :
    ∃ s es, runCalls z calls Store.new = some s ∧ s.file = fileOf z s.db.version es ∧
      (∀ e ∈ es, e.Fits z) ∧ ∀ n, 16 ≤ n → n ≤ s.file.length →
        (ReadsPrefix z s.db.version es (n - 16) (deserializeDB z (s.file.take n)) ↔
          ¬ ∃ e, cutRecord z es (n - 16) = some e ∧ cut z es (n - 16) ∈ e.fieldEnds) := by
  obtain ⟨s, es, ps, hrun, hmir⟩ := (Mirrors.new z).runCalls_of_fault_none hadm hio
  have hes : ∀ e ∈ es, e.Fits z := fun e he => hmir.fits e (mem_append_left _ he)
  refine ⟨s, es, hrun, hmir.file_eq, hes, fun n hn hle => ?_⟩
  rw [hmir.file_eq, fileOf, length_append, length_serializeHeader] at hle
  have htake : s.file.take n =
      serializeHeader s.db.version ++ (es.flatMap (bytes z)).take (n - 16) := by
    rw [hmir.file_eq, fileOf, take_append, length_serializeHeader,
      take_of_length_le (by rw [length_serializeHeader]; exact hn)]
  rw [htake]
  exact readsPrefix_iff hz s.db.version hes (by omega)

theorem prefix_read_iff_deleted :
    ∃ s es, runCalls .stored [.save [1] [2, 3] 5, .delete [1], .flush .id none] Store.new = some s ∧
      s.file = fileOf .stored s.db.version es ∧ (∀ e ∈ es, e.Fits .stored) ∧
      ∀ n, 16 ≤ n → n ≤ s.file.length →
        (ReadsPrefix .stored s.db.version es (n - 16) (deserializeDB .stored (s.file.take n)) ↔
          ¬ ∃ e, cutRecord .stored es (n - 16) = some e ∧
            cut .stored es (n - 16) ∈ e.fieldEnds) :=
  prefix_read_iff .stored Flate.stored_failsTruncated _ (by
      have hseq : (5 : UInt64) ≠ seqDeleted := by decide
      simp [Call.Admissible, Flate.stored, storedBytes, hseq])
    (by simp [Call.fault])

/-- A file cut off behind the first field of its only record is read without an error. -/
theorem cut_after_magic_overlooked :
    ∃ s, runCalls .stored [.save [97] [] 0, .flush .id none] Store.new = some s ∧
      s.file = fileOf .stored 0 [⟨[97], [], 0⟩] ∧ cut .stored [⟨[97], [], 0⟩] 4 ≠ 0 ∧
      (deserializeDB .stored (s.file.take 20)).err = none :=
  ⟨_, rfl, by decide, by decide, by decide⟩

end Brf.Db
