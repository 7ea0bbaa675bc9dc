import Brf.Lib.Replay
import Brf.Model.CorpusDb

/-! # The file format of the database

What is written as a record is read back as that record, whatever follows it, and a record
that is cut off is never read as one. -/

namespace Brf.Db

open Brf.Lib Brf.Lib.Wire List Db.LogEntry

theorem ok_bind {ε α β : Type} (a : α) (f : α → Except ε β) : (Except.ok a >>= f) = f a := rfl

theorem error_bind {ε α β : Type} (e : ε) (f : α → Except ε β) :
    (Except.error e >>= f) = Except.error e := rfl

theorem readFull_append (b rest : Bytes) : readFull b.length (b ++ rest) = .ok (b, rest) := by
  simp [readFull]

/-- The error of a read that finds too few bytes. -/
def shortError (bs : Bytes) : ReadError := if bs = [] then .eof else .unexpectedEOF

theorem shortError_eq_eof (bs : Bytes) : shortError bs = .eof ↔ bs.length = 0 := by
  rw [shortError]
  split <;> simp [*]

variable {n : ℕ} {bs : Bytes}

theorem readFull_short (h : bs.length < n) : readFull n bs = .error (shortError bs) := by
  rw [readFull, if_neg (Nat.not_le.mpr h), shortError]
  split <;> rfl

theorem readUint_append {k : ℕ} (h : n < 256 ^ k) (rest : Bytes) :
    readUint k (leBytes k n ++ rest) = .ok (n, rest) := by
  have hread := readFull_append (leBytes k n) rest
  rw [length_leBytes] at hread
  simp only [readUint, hread, ok_bind, leValue_leBytes k n h]

theorem readUint_short {k : ℕ} (h : bs.length < k) : readUint k bs = .error (shortError bs) := by
  rw [readUint, readFull_short h]
  rfl

variable {t : Bytes}

theorem prefix_append_cases {a b : Bytes} (h : t <+: a ++ b) :
    t.length < a.length ∨ ∃ t', t = a ++ t' ∧ t' <+: b := by
  by_cases hlen : t.length < a.length
  · exact .inl hlen
  · right
    have ha : a <+: t :=
      prefix_of_prefix_length_le (prefix_append a b) h (Nat.not_lt.mp hlen)
    obtain ⟨t', rfl⟩ := ha
    exact ⟨t', rfl, (prefix_append_right_inj a).mp h⟩

/-- A decompressor that does not take a part of a chunk for a chunk. -/
def Flate.FailsTruncated (z : Flate) : Prop :=
  ∀ v c, c <+: z.deflate v → c ≠ z.deflate v → ∃ text, z.inflate c = .error text

variable {z : Flate} {e : LogEntry}

namespace LogEntry

/-- The entries the format can hold: the lengths fit the four bytes that are written for them. -/
structure Fits (z : Flate) (e : LogEntry) : Prop where
  key_lt : e.key.length < 2 ^ 32
  val_lt : e.val ≠ [] → (z.deflate e.val).length < 2 ^ 32
  deleted : e.seq = seqDeleted → e.val = []

/-- Everything up to the value. -/
def head (e : LogEntry) : Bytes :=
  leBytes 4 recMagic ++ leBytes 4 e.key.length ++ e.key ++ leBytes 8 e.seq.toNat

def body (z : Flate) (e : LogEntry) : Bytes :=
  if e.seq = seqDeleted then []
  else if e.val = [] then leBytes 4 0
  else leBytes 4 (z.deflate e.val).length ++ z.deflate e.val

def bytes (z : Flate) (e : LogEntry) : Bytes := e.head ++ e.body z

@[simp] theorem length_head (e : LogEntry) : e.head.length = 16 + e.key.length := by
  simp only [head, length_append, length_leBytes]
  omega

theorem length_bytes_pos (z : Flate) (e : LogEntry) : 0 < (e.bytes z).length := by
  simp only [bytes, length_append, length_head]
  omega

theorem serializeRecord_eq (h : e.Fits z) :
    serializeRecord z e.key e.val e.seq = some (e.bytes z) := by
  have hk : e.key.length % 2 ^ 32 = e.key.length := Nat.mod_eq_of_lt h.key_lt
  simp only [serializeRecord, hk, bytes, head, body]
  by_cases hdel : e.seq = seqDeleted
  · simp [hdel, h.deleted hdel]
  · by_cases hval : e.val = []
    · simp [hdel, hval]
    · have hv : (z.deflate e.val).length % 2 ^ 32 = (z.deflate e.val).length :=
        Nat.mod_eq_of_lt (h.val_lt hval)
      rw [hv]
      simp [hdel, hval]

theorem deserializeVal_body (h : e.Fits z) (hdel : e.seq ≠ seqDeleted)
    (rest : Bytes) : deserializeVal z (e.body z ++ rest) = .ok (e.val, rest) := by
  by_cases hval : e.val = []
  · have hread := readUint_append (k := 4) (n := 0) (by decide) rest
    simp [deserializeVal, body, hdel, hval, hread, ok_bind]
  · have hlen := h.val_lt hval
    have hpos : (z.deflate e.val).length ≠ 0 := by
      simpa using z.deflate_ne_nil e.val
    have hread := readUint_append (k := 4) (n := (z.deflate e.val).length) hlen
      (z.deflate e.val ++ rest)
    simp [deserializeVal, body, hdel, hval, hread, ok_bind, hpos, z.inflate_deflate]

/-- A record is read back. -/
theorem deserializeRecord_bytes (h : e.Fits z) (rest : Bytes) :
    deserializeRecord z (e.bytes z ++ rest) = .ok (e, rest) := by
  have hmagic := readUint_append (k := 4) (n := recMagic) (by decide)
    (leBytes 4 e.key.length ++ (e.key ++ (leBytes 8 e.seq.toNat ++ (e.body z ++ rest))))
  have hkeyLen := readUint_append (k := 4) (n := e.key.length) h.key_lt
    (e.key ++ (leBytes 8 e.seq.toNat ++ (e.body z ++ rest)))
  have hkey := readFull_append e.key (leBytes 8 e.seq.toNat ++ (e.body z ++ rest))
  have hseq := readUint_append (k := 8) (n := e.seq.toNat) e.seq.toNat_lt (e.body z ++ rest)
  simp only [deserializeRecord, bytes, head, append_assoc, hmagic, hkeyLen, hkey, hseq,
    ok_bind, ne_eq, not_true_eq_false, if_false, UInt64.ofNat_toNat]
  by_cases hdel : e.seq = seqDeleted
  · simp only [hdel, if_true, body, nil_append]
    rw [← hdel, ← h.deleted hdel]
  · simp only [hdel, if_false, deserializeVal_body h hdel rest, ok_bind]

/-! ### Records that are cut off -/

/-- The lengths at which a cut falls between two fields of a record. -/
def fieldEnds (e : LogEntry) : List ℕ :=
  [4, 8, 8 + e.key.length] ++ if e.seq = seqDeleted then [] else [16 + e.key.length]

theorem mem_cons_fieldEnds (e : LogEntry) (n : ℕ) : n ∈ 0 :: e.fieldEnds ↔ n = 0 ∨ n = 4 ∨ n = 8 ∨
    n = 8 + e.key.length ∨ (e.seq ≠ seqDeleted ∧ n = 16 + e.key.length) := by
  by_cases hdel : e.seq = seqDeleted <;> simp [fieldEnds, hdel]

theorem deserializeVal_truncated (h : e.Fits z) (hz : z.FailsTruncated) (ht : t <+: e.body z)
    (hne : t ≠ e.body z) : ∃ err, deserializeVal z t = .error err ∧ (err = .eof ↔ t = []) := by
  by_cases hdel : e.seq = seqDeleted
  · have hbody : e.body z = [] := if_pos hdel
    rw [hbody] at ht hne
    exact absurd (prefix_nil.mp ht) hne
  by_cases hval : e.val = []
  · have hbody : e.body z = leBytes 4 0 := by simp [body, hdel, hval]
    rw [hbody] at ht hne
    have hlen : t.length < 4 := by
      have hle := ht.length_le
      have hlt : t.length ≠ (leBytes 4 0).length := fun heq => hne (ht.eq_of_length heq)
      rw [length_leBytes] at hle hlt
      omega
    refine ⟨shortError t, by rw [deserializeVal, readUint_short hlen, error_bind], ?_⟩
    rw [shortError_eq_eof, length_eq_zero_iff]
  · have hbody : e.body z = leBytes 4 (z.deflate e.val).length ++ z.deflate e.val := by
      simp [body, hdel, hval]
    rw [hbody] at ht hne
    obtain hlen | ⟨c, rfl, hc⟩ := prefix_append_cases ht
    · rw [length_leBytes] at hlen
      refine ⟨shortError t, by rw [deserializeVal, readUint_short hlen, error_bind], ?_⟩
      rw [shortError_eq_eof, length_eq_zero_iff]
    · -- the decompressor sees a proper prefix of the chunk
      have hcne : c ≠ z.deflate e.val := fun heq => hne (by rw [heq])
      obtain ⟨text, htext⟩ := hz e.val c hc hcne
      have hpos : (z.deflate e.val).length ≠ 0 := by
        simpa using z.deflate_ne_nil e.val
      have htake : c.take (z.deflate e.val).length = c := take_of_length_le hc.length_le
      refine ⟨.flate text, ?_, by simp [leBytes]⟩
      rw [deserializeVal, readUint_append (k := 4) (h.val_lt hval), ok_bind]
      simp only [htake, htext]
      rw [if_pos hpos]

/-- A part of a record is not read, and it is taken for the end of the file exactly when it ends
with one of its fields. -/
theorem deserializeRecord_truncated (h : e.Fits z)
    (hz : z.FailsTruncated) (ht : t <+: e.bytes z) (hne : t ≠ e.bytes z) :
    ∃ err, deserializeRecord z t = .error err ∧ (err = .eof ↔ t.length ∈ 0 :: e.fieldEnds) := by
  simp only [bytes, head, append_assoc] at ht hne
  simp only [mem_cons_fieldEnds]
  obtain hlen | ⟨t1, rfl, ht1⟩ := prefix_append_cases ht
  · rw [length_leBytes] at hlen
    refine ⟨shortError t, by rw [deserializeRecord, readUint_short hlen, error_bind], ?_⟩
    rw [shortError_eq_eof]
    omega
  have hmagic := readUint_append (k := 4) (n := recMagic) (by decide)
  obtain hlen | ⟨t2, rfl, ht2⟩ := prefix_append_cases ht1
  · rw [length_leBytes] at hlen
    refine ⟨shortError t1, by
      simp only [deserializeRecord, hmagic, ok_bind, ne_eq, not_true_eq_false, if_false,
        readUint_short hlen, error_bind], ?_⟩
    rw [shortError_eq_eof, length_append, length_leBytes]
    omega
  have hkeyLen := readUint_append (k := 4) (n := e.key.length) h.key_lt
  obtain hlen | ⟨t3, rfl, ht3⟩ := prefix_append_cases ht2
  · refine ⟨shortError t2, by
      simp only [deserializeRecord, hmagic, hkeyLen, ok_bind, ne_eq, not_true_eq_false, if_false,
        readFull_short hlen, error_bind], ?_⟩
    rw [shortError_eq_eof]
    simp only [length_append, length_leBytes]
    omega
  obtain hlen | ⟨t4, rfl, ht4⟩ := prefix_append_cases ht3
  · rw [length_leBytes] at hlen
    refine ⟨shortError t3, by
      simp only [deserializeRecord, hmagic, hkeyLen, readFull_append, ok_bind, ne_eq,
        not_true_eq_false, if_false, readUint_short hlen, error_bind], ?_⟩
    rw [shortError_eq_eof]
    simp only [length_append, length_leBytes]
    omega
  -- only the value is cut off, so there is one
  have htne : t4 ≠ e.body z := fun heq => hne (by rw [heq])
  have hdel : e.seq ≠ seqDeleted := by
    intro hdel
    rw [body, if_pos hdel] at ht4 htne
    exact htne (prefix_nil.mp ht4)
  obtain ⟨err, herr, heof⟩ := deserializeVal_truncated h hz ht4 htne
  have hseq := readUint_append (k := 8) (n := e.seq.toNat) e.seq.toNat_lt t4
  refine ⟨err, ?_, ?_⟩
  · simp only [deserializeRecord, hmagic, hkeyLen, readFull_append, hseq, ok_bind, ne_eq,
      not_true_eq_false, if_false, UInt64.ofNat_toNat, hdel, herr, error_bind]
  · rw [heof, ← length_eq_zero_iff]
    simp only [length_append, length_leBytes, hdel, not_false_eq_true, true_and, ne_eq]
    omega

end LogEntry

/-- A header followed by the records of a log. -/
def fileOf (z : Flate) (version : UInt64) (es : List LogEntry) : Bytes :=
  serializeHeader version ++ es.flatMap (bytes z)

variable (version : UInt64)

@[simp] theorem length_serializeHeader : (serializeHeader version).length = 16 := by
  simp [serializeHeader]

theorem fileOf_append (z : Flate) (version : UInt64) (es es' : List LogEntry) :
    fileOf z version (es ++ es') = fileOf z version es ++ es'.flatMap (bytes z) := by
  simp [fileOf]

theorem deserializeHeader_append (rest : Bytes) :
    deserializeHeader (serializeHeader version ++ rest) = .ok (version, rest) := by
  have hmagic := readUint_append (k := 4) (n := dbMagic) (by decide)
  have hver := readUint_append (k := 4) (n := curVersion) (by decide)
  have huser := readUint_append (k := 8) (n := version.toNat) version.toNat_lt rest
  simp only [serializeHeader, append_assoc, deserializeHeader, hmagic, hver, huser, ok_bind]
  simp [curVersion]

/-- An entry as a change of the map. -/
def LogEntry.change (e : LogEntry) : Replay.Change Key (Record UInt64) :=
  ⟨e.key, if e.seq = seqDeleted then none else some ⟨e.val, e.seq⟩⟩

theorem LogEntry.apply_eq_change (e : LogEntry) (m : Records UInt64) :
    e.apply m = e.change.apply m := by
  unfold apply change Replay.Change.apply
  split <;> rfl

/-- The map a log stands for. -/
def replay (es : List LogEntry) (m : Records UInt64) : Records UInt64 :=
  Replay.replay (es.map change) m

theorem replay_append (es es' : List LogEntry) (m : Records UInt64) :
    replay (es ++ es') m = replay es' (replay es m) := by
  rw [replay, map_append, Replay.replay_append]
  rfl

variable {es : List LogEntry}

theorem readRecords_log (h : ∀ e ∈ es, e.Fits z) (fuel : ℕ) (t : Bytes) (l : Loaded) :
    readRecords z (es.length + fuel) (es.flatMap (bytes z) ++ t) l =
      readRecords z fuel t { l with
        records := replay es l.records, uncompacted := l.uncompacted + es.length } := by
  induction es generalizing l with
  | nil => simp [replay]
  | cons e es ih =>
    have hrec := deserializeRecord_bytes (h e mem_cons_self) (es.flatMap (bytes z) ++ t)
    have hes : ∀ e ∈ es, e.Fits z := fun e he => h e (mem_cons_of_mem _ he)
    rw [length_cons, Nat.add_right_comm, flatMap_cons, append_assoc, readRecords, hrec]
    simp only [ih hes, apply_eq_change]
    congr 2
    omega

theorem length_le_length_flatMap_bytes (z : Flate) (es : List LogEntry) :
    es.length ≤ (es.flatMap (bytes z)).length := by
  induction es with
  | nil => simp
  | cons e es ih =>
    have hpos := e.length_bytes_pos z
    simp only [length_cons, flatMap_cons, length_append]
    omega

theorem deserializeDB_tail (h : ∀ e ∈ es, e.Fits z) {err : ReadError}
    (ht : deserializeRecord z t = .error err) : deserializeDB z (fileOf z version es ++ t) =
    ⟨version, replay es ∅, es.length, if err = .eof then none else some (.record err)⟩ := by
  have hfuel := length_le_length_flatMap_bytes z es
  obtain ⟨fuel, hfuel⟩ := Nat.exists_eq_add_of_le hfuel
  simp only [deserializeDB, fileOf, append_assoc, deserializeHeader_append]
  rw [length_append, hfuel, Nat.add_assoc, Nat.add_assoc, readRecords_log h,
    show fuel + (t.length + 1) = (fuel + t.length) + 1 by omega, readRecords, ht]
  cases err <;> simp

/-- A file is read back as the replay of its log. -/
theorem deserializeDB_fileOf (h : ∀ e ∈ es, e.Fits z) :
    deserializeDB z (fileOf z version es) = ⟨version, replay es ∅, es.length, none⟩ := by
  have heof : deserializeRecord z [] = .error .eof := by
    rfl
  have hdb := deserializeDB_tail version h heof
  simpa using hdb

end Brf.Db
