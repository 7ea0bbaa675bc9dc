import Brf.Lib.Batch
import Brf.Verification.Hub.State

/-! # One delivery

What `Sync` sends to a manager: the pending records up to the new cursor of the manager. -/

namespace Brf.Hub

open Brf.Lib Brf.Db List PendingRecord

theorem batch_maxSeq (corpusSeq : ℕ) (l : List PendingRecord) :
    (batch corpusSeq l).2.2 = corpusSeq ∨ ∃ r ∈ l, (batch corpusSeq l).2.2 = r.seq := by
  unfold batch
  split
  · simp only
    split
    · cases hget : (List.drop ((l.insertionSort fun a b => a.seq ≤ b.seq).length - capRecords)
          (l.insertionSort fun a b => a.seq ≤ b.seq))[maxRecords]? with
      | none => exact .inl rfl
      | some r =>
        have hmem := mem_of_mem_drop (mem_of_getElem? hget)
        exact .inr ⟨r, (mem_insertionSort _).mp hmem, rfl⟩
    · cases hget : (l.insertionSort fun a b => a.seq ≤ b.seq)[maxRecords]? with
      | none => exact .inl rfl
      | some r => exact .inr ⟨r, (mem_insertionSort _).mp (mem_of_getElem? hget), rfl⟩
  · exact .inl rfl

/-- A batch has the records up to its last number, the others are counted. -/
theorem batch_spec {corpusSeq : ℕ} {l : List PendingRecord} (hle : ∀ r ∈ l, r.seq ≤ corpusSeq)
    (hcap : l.length ≤ capRecords) :
    (batch corpusSeq l).1.Perm (l.filter fun r => r.seq ≤ (batch corpusSeq l).2.2) ∧
      (batch corpusSeq l).2.1 = (l.filter fun r => (batch corpusSeq l).2.2 < r.seq).length := by
  by_cases hlen : l.length > maxRecords
  · have hperm := perm_insertionSort (fun a b : PendingRecord => a.seq ≤ b.seq) l
    have hsorted : (l.insertionSort fun a b => a.seq ≤ b.seq).Pairwise fun a b => a.seq ≤ b.seq :=
      pairwise_insertionSort _ l
    have hslen := hperm.length_eq
    have hcut : ¬ (l.insertionSort fun a b => a.seq ≤ b.seq).length > capRecords := by omega
    simp only [batch, if_pos hlen, if_neg hcut]
    generalize l.insertionSort (fun a b => a.seq ≤ b.seq) = s at hperm hsorted hslen
    have hi : maxRecords < s.length := by omega
    obtain ⟨r, hr⟩ : ∃ r, s[maxRecords]? = some r := ⟨_, getElem?_eq_getElem hi⟩
    obtain ⟨htake, hdrop⟩ := Batch.cutPos_spec hsorted hr
    have hparts := take_append_drop (Batch.cutPos seq r.seq maxRecords s) s
    simp only [hr, Option.map_some, Option.getD_some]
    rw [← Batch.cutPos]
    constructor
    · have hleft := Batch.filter_append_eq_left htake hdrop
      rw [hparts] at hleft
      rw [← hleft]
      exact hperm.filter _
    · have hright := Batch.filter_append_eq_right htake hdrop
      rw [hparts] at hright
      rw [← (hperm.filter _).length_eq, hright, length_drop]
  · simp only [batch, if_neg hlen]
    constructor
    · rw [filter_eq_self.mpr (by simpa using hle)]
    · rw [filter_eq_nil_iff.mpr (by simpa using hle)]
      rfl

def toPending (e : Key × Record ℕ) : PendingRecord := ⟨e.1, e.2.val, e.2.seq⟩

/-- Whether the record of a key is to be sent to a manager. -/
def Manager.wants (mgr : Manager) (e : Key × Record ℕ) : Bool :=
  decide (mgr.corpusSeq < e.2.seq) && (mgr.corpus.lookup e.1).isNone &&
    match callSet e.2.val with
    | .error _ => false
    | .ok (calls, _) => managerSupportsAllCalls mgr.calls calls

/-- The pending records of a manager: those above its cursor that it does not have and whose
calls it supports. -/
def State.pending (st : State) (mgr : Manager) : List PendingRecord :=
  (st.corpus.toPairs.filter mgr.wants).map toPending

theorem wants_iff (mgr : Manager) (e : Key × Record ℕ) :
    mgr.wants e ↔ mgr.corpusSeq < e.2.seq ∧ e.1 ∉ mgr.corpus ∧
      ∃ calls n, callSet e.2.val = .ok (calls, n) ∧ ∀ c ∈ calls, c ∈ mgr.calls := by
  unfold Manager.wants managerSupportsAllCalls
  rw [Bool.and_eq_true, Bool.and_eq_true, Option.isNone_iff_eq_none, AList.lookup_eq_none, and_assoc]
  cases callSet e.2.val with
  | error err => simp
  | ok p =>
    obtain ⟨calls, n⟩ := p
    simp

theorem mem_pending (st : State) (mgr : Manager) (r : PendingRecord) : r ∈ st.pending mgr ↔
    st.corpus.lookup r.key = some ⟨r.val, r.seq⟩ ∧ mgr.corpusSeq < r.seq ∧ r.key ∉ mgr.corpus ∧
    ∃ calls n, callSet r.val = .ok (calls, n) ∧ ∀ c ∈ calls, c ∈ mgr.calls := by
  rw [State.pending, mem_map]
  constructor
  · rintro ⟨e, he, rfl⟩
    obtain ⟨hmem, hwants⟩ := mem_filter.mp he
    exact ⟨Dict.mem_toPairs.mp hmem, (wants_iff mgr e).mp hwants⟩
  · rintro ⟨hlook, hwants⟩
    exact ⟨(r.key, ⟨r.val, r.seq⟩), mem_filter.mpr
      ⟨Dict.mem_toPairs.mpr hlook, (wants_iff mgr _).mpr hwants⟩, rfl⟩

theorem nodup_pending (st : State) (mgr : Manager) : ((st.pending mgr).map key).Nodup := by
  rw [State.pending, map_map]
  have hsub := (filter_sublist (p := mgr.wants) (l := st.corpus.toPairs)).map Prod.fst
  exact hsub.nodup st.corpus.nodup_map_fst_toPairs

variable {mgr : Manager}

theorem pendingRecords_eq {l : List (Key × Record ℕ)} (h : ∀ e ∈ l, ∃ p, callSet e.2.val = .ok p) :
    mgr.pendingRecords l = .ok ((l.filter mgr.wants).map toPending) := by
  induction l with
  | nil => rfl
  | cons e l ih =>
    obtain ⟨key, rec⟩ := e
    obtain ⟨⟨calls, n⟩, hcalls⟩ := h (key, rec) mem_cons_self
    have hrec := ih fun e he => h e (mem_cons_of_mem _ he)
    have hone : mgr.pendingRecord key rec =
        .ok (if mgr.wants (key, rec) then some (toPending (key, rec)) else none) := by
      simp only [Manager.pendingRecord, Manager.wants, hcalls, toPending]
      by_cases hseq : mgr.corpusSeq < rec.seq
      · by_cases hhas : mgr.corpus.lookup key = none
        · by_cases hsup : managerSupportsAllCalls mgr.calls calls = true <;>
            simp [hseq, Nat.not_le.mpr hseq, hhas, hsup]
        · have hsome : (mgr.corpus.lookup key).isNone = false := by
            rw [← Bool.not_eq_true, Option.isNone_iff_eq_none]
            exact hhas
          simp [Nat.not_le.mpr hseq, hhas, hsome]
      · simp [hseq, Nat.not_lt.mp hseq]
    rw [Manager.pendingRecords, hone, hrec]
    by_cases hw : mgr.wants (key, rec)
    · rw [if_pos hw, filter_cons_of_pos hw]
      rfl
    · rw [if_neg hw, filter_cons_of_neg hw]
      rfl

/-! ### What a state keeps -/

/-- The numbers of the hub's records and the cursors of the managers have been given out, and
the programs of the hub parse. -/
structure Bounded (st : State) : Prop where
  seq_le : ∀ k r, st.corpus.lookup k = some r → r.seq ≤ st.corpusSeq
  parses : ∀ k r, st.corpus.lookup k = some r → ∃ p, callSet r.val = .ok p
  cursor_le : ∀ n m, st.managers.lookup n = some m → m.corpusSeq ≤ st.corpusSeq

theorem Bounded.pending_le {st : State} (h : Bounded st) {r : PendingRecord}
    (hr : r ∈ st.pending mgr) : r.seq ≤ st.corpusSeq :=
  h.seq_le r.key ⟨r.val, r.seq⟩ ((mem_pending st mgr r).mp hr).1

/-- What a delivery does: it moves the cursor of the manager, and nothing else. -/
structure Delivers (st : State) (name : Name) (mgr : Manager) (st' : State) (d : Delivery)
    (cursor : ℕ) : Prop where
  corpus_eq : st'.corpus = st.corpus
  corpusSeq_eq : st'.corpusSeq = st.corpusSeq
  repros_eq : st'.repros = st.repros
  reproSeq_eq : st'.reproSeq = st.reproSeq
  managers_eq : ∀ n, st'.managers.lookup n =
    if n = name then some { mgr with corpusSeq := cursor } else st.managers.lookup n
  le_cursor : mgr.corpusSeq ≤ cursor
  cursor_le : cursor ≤ st.corpusSeq
  progs_eq : d.inputs.map HubInput.prog = d.records.map val
  exact : (st.pending mgr).length ≤ capRecords →
    d.records.Perm ((st.pending mgr).filter fun r => r.seq ≤ cursor) ∧
      d.more = ((st.pending mgr).filter fun r => cursor < r.seq).length

theorem pendingInputs_delivers {st : State} (h : Bounded st) {name : Name}
    (hmgr : st.managers.lookup name = some mgr) (o : Orders) :
    ∃ st' d cursor, st.pendingInputs name mgr o = .ok (st', d) ∧
      Delivers st name mgr st' d cursor := by
  unfold State.pendingInputs
  have hcursor := h.cursor_le name mgr hmgr
  split
  · -- the cursor is at the last number, so nothing is above it
    rename_i heq
    have hnil : st.pending mgr = [] := by
      refine eq_nil_iff_forall_not_mem.mpr fun r hr => ?_
      have hle := h.pending_le hr
      have hlt := ((mem_pending st mgr r).mp hr).2.1
      omega
    refine ⟨st, ⟨[], [], 0⟩, st.corpusSeq, rfl, rfl, rfl, rfl, rfl, fun n => ?_, hcursor,
      Nat.le_refl _, rfl,
      fun _ => ⟨by rw [hnil]; exact List.Perm.refl _, by rw [hnil]; rfl⟩⟩
    split
    · subst n
      rw [hmgr, ← heq]
    · rfl
  · have hperm := o.records.perm st.corpus.toPairs
    have hrecs : mgr.pendingRecords (o.records.run st.corpus.toPairs) =
        .ok (((o.records.run st.corpus.toPairs).filter mgr.wants).map toPending) :=
      pendingRecords_eq fun e he =>
        h.parses e.1 e.2 (Dict.mem_toPairs.mp (hperm.mem_iff.mp he))
    have hpend : (((o.records.run st.corpus.toPairs).filter mgr.wants).map toPending).Perm
        (st.pending mgr) := (hperm.filter _).map _
    rw [hrecs]
    generalize ((o.records.run st.corpus.toPairs).filter mgr.wants).map toPending = l at hpend
    refine ⟨_, _, (batch st.corpusSeq l).2.2, rfl, by simp, by simp, by simp, by simp,
      fun n => ?_, ?_, ?_, ?_, ?_⟩
    · rw [lookup_modifyManager, hmgr]
      rfl
    · obtain heq | ⟨r, hr, heq⟩ := batch_maxSeq st.corpusSeq l
      · rw [heq]
        exact hcursor
      · rw [heq]
        exact Nat.le_of_lt ((mem_pending st mgr r).mp (hpend.mem_iff.mp hr)).2.1
    · obtain heq | ⟨r, hr, heq⟩ := batch_maxSeq st.corpusSeq l
      · exact Nat.le_of_eq heq
      · rw [heq]
        exact h.pending_le (hpend.mem_iff.mp hr)
    · simp [Function.comp_def]
    · intro hcap
      have hle : ∀ r ∈ l, r.seq ≤ st.corpusSeq := fun r hr => h.pending_le (hpend.mem_iff.mp hr)
      obtain ⟨hsent, hmore⟩ := batch_spec hle (by rw [hpend.length_eq]; exact hcap)
      exact ⟨hsent.trans (hpend.filter _), hmore.trans (hpend.filter _).length_eq⟩

end Brf.Hub
