import Brf.Verification.Hub.Consistency

/-! # Deliveries over a run

The cursor of a manager only moves forward between two fresh connects, and only past records
that are delivered, so no version of a record is sent twice or left out. -/

namespace Brf.Hub

open Brf.Lib Brf.Db List PendingRecord State Nat

/-- A connect of the manager that starts over. -/
def Request.freshFor (name : Name) : Request → Prop
  | .connect n _ fresh _ _ => n = name ∧ fresh
  | _ => False

def Request.syncs (name : Name) : Request → Prop
  | .sync n _ _ _ => n = name
  | _ => False

variable {st : State} {name : Name} {mgr : Manager}

theorem lookup_reset (hash : Bytes → Key) (hmgr : st.managers.lookup name = some mgr) (n : Name)
    (domain : Bytes) (fresh : Bool) (calls : List Bytes) :
    ∃ mgr', (st.reset hash n domain fresh calls).managers.lookup name = some mgr' ∧
      mgr'.corpusSeq = if name = n ∧ fresh then 0 else mgr.corpusSeq := by
  simp only [reset, lookup_modifyManager]
  by_cases hn : name = n
  · subst hn
    simp [hmgr]
  · refine ⟨mgr, ?_, (if_neg fun h => hn h.1).symm⟩
    rw [if_neg hn]
    split
    · simp only [createManager, Dict.lookup_insert_ite, if_neg hn, hmgr]
    · exact hmgr

theorem serve_cursor (hash : Bytes → Key) (h : Bounded st)
    (hmgr : st.managers.lookup name = some mgr) (req : Request) :
    ∃ mgr', (st.serve hash req).1.managers.lookup name = some mgr' ∧
      (¬ req.freshFor name → mgr.corpusSeq ≤ mgr'.corpusSeq) ∧
      (¬ req.syncs name → mgr'.corpusSeq ≤ mgr.corpusSeq) := by
  cases req with
  | connect n domain fresh calls corpus =>
    obtain ⟨c, hadd⟩ := lookup_addInputs hash (st.reset hash n domain fresh calls) n name corpus
    obtain ⟨m, hm, hseq⟩ := lookup_reset hash hmgr n domain fresh calls
    rw [hm] at hadd
    refine ⟨_, hadd, fun hfresh => ?_, fun _ => ?_⟩
    · rw [if_neg fun h => hfresh ⟨h.1.symm, h.2⟩] at hseq
      exact le_of_eq hseq.symm
    · simp only [hseq]
      split
      · exact zero_le _
      · exact le_refl _
  | sync n add del o =>
    have hup : Bounded (st.upload hash n add del) := h.upload n add del
    change ∃ mgr', (st.sync hash n add del o).1.managers.lookup name = _ ∧ _
    obtain ⟨hoff, heq⟩ | ⟨m, st', d, cursor, hm, -, heq, hd⟩ := sync_cases hup o
    · rw [heq]
      exact ⟨mgr, hmgr, fun _ => le_refl _, fun _ => le_refl _⟩
    · rw [heq]
      obtain ⟨c, hlook⟩ := lookup_upload hash st n name add del
      rw [hmgr] at hlook
      by_cases hn : name = n
      · subst hn
        rw [hlook] at hm
        cases hm
        exact ⟨_, (hd.managers_eq name).trans (if_pos rfl), fun _ => hd.le_cursor,
          fun hs => absurd rfl hs⟩
      · refine ⟨_, (hd.managers_eq name).trans ((if_neg hn).trans hlook), ?_, ?_⟩
        · exact fun _ => le_refl _
        · exact fun _ => le_refl _
  | addRepro n repro =>
    have hs := (addRepro_sameCorpus hash st n repro).symm
    obtain ⟨m', hm', hseq, -⟩ := hs.lookup hmgr
    exact ⟨m', hm', fun _ => le_of_eq hseq.symm, fun _ => le_of_eq hseq⟩
  | pendingRepro n order =>
    have hs := (pendingRepro_sameCorpus st n order).symm
    obtain ⟨m', hm', hseq, -⟩ := hs.lookup hmgr
    exact ⟨m', hm', fun _ => le_of_eq hseq.symm, fun _ => le_of_eq hseq⟩

variable {reqs : List Request}

theorem serveAll_cursor (hash : Bytes → Key) (h : Bounded st)
    (hmgr : st.managers.lookup name = some mgr) (hfresh : ∀ req ∈ reqs, ¬ req.freshFor name) :
    ∃ mgr', (st.serveAll hash reqs).managers.lookup name = some mgr' ∧
    mgr.corpusSeq ≤ mgr'.corpusSeq := by
  induction reqs generalizing st mgr with
  | nil => exact ⟨mgr, hmgr, le_refl _⟩
  | cons req reqs ih =>
    obtain ⟨m1, hm1, hle, -⟩ := serve_cursor hash h hmgr req
    obtain ⟨m2, hm2, hle2⟩ := ih (h.serve req) hm1 fun r hr => hfresh r (mem_cons_of_mem _ hr)
    exact ⟨m2, hm2, le_trans (hle (hfresh req mem_cons_self)) hle2⟩

variable {hash : Bytes → Key}

theorem bounded_serveAll (h : Bounded st) (reqs : List Request) : Bounded (st.serveAll hash reqs) :=
  serveAll_induction h reqs fun _ req hst => hst.serve req

/-! ### Records that stay pending -/

/-- The hub has this version of the record, the manager does not have the program and supports
its calls: all that makes it pending but the cursor. -/
def Wanted (st : State) (mgr : Manager) (r : PendingRecord) : Prop :=
  st.corpus.lookup r.key = some ⟨r.val, r.seq⟩ ∧ r.key ∉ mgr.corpus ∧
    ∃ calls n, callSet r.val = .ok (calls, n) ∧ ∀ c ∈ calls, c ∈ mgr.calls

/-- In every `Sync` of the manager the record is wanted, and the pending set is within the cap. -/
def StaysWanted (hash : Bytes → Key) (name : Name) (r : PendingRecord) :
    State → List Request → Prop
  | _, [] => True
  | st, req :: reqs =>
    (∀ add del o mgr, req = .sync name add del o →
      (st.upload hash name add del).managers.lookup name = some mgr →
        Wanted (st.upload hash name add del) mgr r ∧
          ((st.upload hash name add del).pending mgr).length ≤ capRecords) ∧
      StaysWanted hash name r (st.serve hash req).1 reqs

/-- Some `Sync` of the manager returns the record. -/
def Returned (hash : Bytes → Key) (name : Name) (r : PendingRecord) : State → List Request → Prop
  | _, [] => False
  | st, req :: reqs =>
    (∃ add del o st' domain d, req = .sync name add del o ∧
      st.sync hash name add del o = (st', .ok (domain, d)) ∧ r ∈ d.records) ∨
      Returned hash name r (st.serve hash req).1 reqs

variable {r : PendingRecord}

/-- The cursor does not pass a record that is wanted all the time and was not returned. -/
theorem returned_or_above_cursor (h : Bounded st)
    (hmgr : st.managers.lookup name = some mgr) (hseq : mgr.corpusSeq < r.seq)
    (hwant : StaysWanted hash name r st reqs) : Returned hash name r st reqs ∨
    ∃ mgr', (st.serveAll hash reqs).managers.lookup name = some mgr' ∧ mgr'.corpusSeq < r.seq := by
  induction reqs generalizing st mgr with
  | nil => exact .inr ⟨mgr, hmgr, hseq⟩
  | cons req reqs ih =>
    obtain ⟨m1, hm1, -, hstay⟩ := serve_cursor hash h hmgr req
    have hrec : m1.corpusSeq < r.seq → _ := fun hlt => ih (h.serve req) hm1 hlt hwant.2
    by_cases hsync : req.syncs name
    · cases req with
      | sync n add del o =>
        obtain rfl : n = name := hsync
        have hup : Bounded (st.upload hash n add del) := h.upload n add del
        obtain ⟨hoff, heq⟩ | ⟨m, st', d, cursor, hm, -, heq, hd⟩ := sync_cases hup o
        · -- the manager is not connected, so nothing happens
          have hsame : (st.serve hash (.sync n add del o)).1 = st := by
            simp only [serve, heq]
          rw [hsame, hmgr] at hm1
          cases hm1
          exact (hrec hseq).imp .inr id
        · obtain ⟨hwanted, hcap⟩ := hwant.1 add del o m rfl hm
          obtain ⟨c, hlook⟩ := lookup_upload hash st n n add del
          rw [hmgr, hm] at hlook
          have hcur : m.corpusSeq = mgr.corpusSeq := by
            cases hlook
            rfl
          have hpend : r ∈ (st.upload hash n add del).pending m :=
            (mem_pending _ m r).mpr ⟨hwanted.1, by rw [hcur]; exact hseq, hwanted.2⟩
          by_cases hpass : r.seq ≤ cursor
          · refine .inl (.inl ⟨add, del, o, st', m.domain, d, rfl, heq, ?_⟩)
            rw [(hd.exact hcap).1.mem_iff, mem_filter]
            exact ⟨hpend, by simpa using hpass⟩
          · have hafter : (st.serve hash (.sync n add del o)).1 = st' := by
              simp only [serve, heq]
            rw [hafter, hd.managers_eq, if_pos rfl] at hm1
            cases hm1
            exact (hrec (not_le.mp hpass)).imp .inr id
      | connect | addRepro | pendingRepro => exact hsync.elim
    · exact (hrec (lt_of_le_of_lt (hstay hsync) hseq)).imp .inr id

theorem returned_above_cursor {st' : State} (h : Bounded st)
    {add : List Bytes} {del : List Key} {o : Orders} {m : Manager} {domain : Bytes}
    {d : Delivery} (hmgr : st.managers.lookup name = some mgr)
    (hcap : ((st.upload hash name add del).pending m).length ≤ capRecords)
    (hm : (st.upload hash name add del).managers.lookup name = some m)
    (heq : st.sync hash name add del o = (st', .ok (domain, d)))
    (hr : r ∈ d.records) : mgr.corpusSeq < r.seq := by
  have hup : Bounded (st.upload hash name add del) := h.upload name add del
  obtain ⟨-, hne⟩ | ⟨m', st1, d1, cursor, hm', -, heq1, hd⟩ := sync_cases hup o
  · rw [hne] at heq
    cases heq
  · rw [heq1] at heq
    cases heq
    rw [hm'] at hm
    cases hm
    have hmem := (mem_filter.mp ((hd.exact hcap).1.mem_iff.mp hr)).1
    obtain ⟨c, hlook⟩ := lookup_upload hash st name name add del
    rw [hmgr, hm'] at hlook
    cases hlook
    exact ((mem_pending _ _ r).mp hmem).2.1

/-- In every run of the hub, a `Sync` of a connected manager returns exactly the pending records
up to its new cursor and counts the others; what it returns was not returned since the last
fresh connect; and a record above the cursor stays there until it is returned, as long as it is
wanted. -/
theorem hub_delivery (hash : Bytes → Key) (dir : Dir) (reqs : List Request) (name : Name) :
    let st := (make hash dir).serveAll hash reqs
    (∀ add del o mgr, (st.upload hash name add del).managers.lookup name = some mgr →
      mgr.connected → ((st.upload hash name add del).pending mgr).length ≤ capRecords →
      ∃ st' d mgr', st.sync hash name add del o = (st', .ok (mgr.domain, d)) ∧
        st'.managers.lookup name = some mgr' ∧
        d.inputs.map HubInput.prog = d.records.map val ∧
        d.records.Perm
          (((st.upload hash name add del).pending mgr).filter fun r => r.seq ≤ mgr'.corpusSeq) ∧
        d.more =
          (((st.upload hash name add del).pending mgr).filter
            fun r => mgr'.corpusSeq < r.seq).length ∧
        (d.records.map fun r => (r.key, r.seq)).Nodup ∧
        ∀ mid add2 del2 o2 mgr2, (∀ req ∈ mid, ¬ req.freshFor name) →
          ((st'.serveAll hash mid).upload hash name add2 del2).managers.lookup name = some mgr2 →
          (((st'.serveAll hash mid).upload hash name add2 del2).pending mgr2).length ≤
            capRecords →
          ∀ st2 domain2 d2, (st'.serveAll hash mid).sync hash name add2 del2 o2 =
            (st2, .ok (domain2, d2)) →
            ∀ r ∈ d.records, ∀ r2 ∈ d2.records, (r.key, r.seq) ≠ (r2.key, r2.seq)) ∧
    ∀ mgr r mid, st.managers.lookup name = some mgr → mgr.corpusSeq < r.seq →
      StaysWanted hash name r st mid →
        Returned hash name r st mid ∨
          ∃ mgr', (st.serveAll hash mid).managers.lookup name = some mgr' ∧
            mgr'.corpusSeq < r.seq := by
  have hb : Bounded ((make hash dir).serveAll hash reqs) :=
    bounded_serveAll (Bounded.make hash dir) reqs
  generalize (make hash dir).serveAll hash reqs = st at hb
  refine ⟨fun add del o mgr hmgr hconn hcap => ?_, fun mgr r mid hmgr hseq hwant =>
    returned_or_above_cursor hb hmgr hseq hwant⟩
  have hup : Bounded (st.upload hash name add del) := hb.upload name add del
  obtain ⟨hoff, heq⟩ | ⟨m, st', d, cursor, hm, -, heq, hd⟩ := sync_cases hup o
  · -- the manager is connected before the upload too
    obtain ⟨c, hlook⟩ := lookup_upload hash st name name add del
    rw [hmgr, eq_comm, Option.map_eq_some_iff] at hlook
    obtain ⟨m0, hm0, rfl⟩ := hlook
    simp [hoff m0 hm0] at hconn
  · rw [hmgr] at hm
    cases hm
    obtain ⟨hsent, hmore⟩ := hd.exact hcap
    have hmine := (hd.managers_eq name).trans (if_pos rfl)
    refine ⟨st', d, _, heq, hmine, hd.progs_eq, hsent, hmore, ?_, ?_⟩
    · have hkeys : (d.records.map key).Nodup := by
        rw [(hsent.map key).nodup_iff]
        exact (filter_sublist.map _).nodup (nodup_pending _ mgr)
      refine List.Nodup.of_map Prod.fst ?_
      simpa [map_map, Function.comp_def] using hkeys
    · intro mid add2 del2 o2 mgr2 hfresh hmgr2 hcap2 st2 domain2 d2 heq2 r hr r2 hr2 hsame
      have hb' : Bounded st' := hup.delivers hd
      obtain ⟨m', hm', hle⟩ := serveAll_cursor hash hb' hmine hfresh
      have hlt := returned_above_cursor (bounded_serveAll hb' mid) hm' hcap2 hmgr2 heq2 hr2
      have hr' := (mem_filter.mp (hsent.mem_iff.mp hr)).2
      simp only [decide_eq_true_eq] at hr' hle
      have := (Prod.mk.inj hsame).2
      omega

theorem hub_delivery_second_manager :
    let st := (make id .empty).serveAll id
      [.connect [1] [] true [[0x61]] [progA], .connect [2] [] true [[0x61]] []]
    ∃ mgr, (st.upload id [2] [] []).managers.lookup [2] = some mgr ∧
      ((st.upload id [2] [] []).pending mgr).map key = [progA] ∧
      ∃ st' d mgr', st.sync id [2] [] [] ⟨.id, fun _ => .id⟩ = (st', .ok (mgr.domain, d)) ∧
        st'.managers.lookup [2] = some mgr' ∧
        d.records.Perm
          (((st.upload id [2] [] []).pending mgr).filter fun r => r.seq ≤ mgr'.corpusSeq) := by
  refine ⟨_, rfl, by decide, ?_⟩
  obtain ⟨st', d, mgr', heq, hmgr', -, hsent, -⟩ := (hub_delivery id .empty
    [.connect [1] [] true [[0x61]] [progA], .connect [2] [] true [[0x61]] []] [2]).1
    [] [] ⟨.id, fun _ => .id⟩ _ rfl rfl (by decide)
  exact ⟨st', d, mgr', heq, hmgr', hsent⟩

end Brf.Hub
