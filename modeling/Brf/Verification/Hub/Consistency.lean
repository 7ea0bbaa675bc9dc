import Brf.Verification.Hub.Delivery

/-! # Consistency of the hub's corpus

The hub has exactly the programs its managers have. -/

namespace Brf.Hub

open Brf.Lib Brf.Db List

/-! ### Sync in two parts -/

/-- The state after a manager's deletions and additions, for which `Sync` makes the delivery. -/
def State.upload (hash : Bytes → Key) (st : State) (name : Name) (add : List Bytes)
    (del : List Key) : State :=
  (st.deletePrograms name del).addInputs hash name add

theorem lookup_deletePrograms (st : State) (name n : Name) (del : List Key) :
    (st.deletePrograms name del).managers.lookup n =
      if n = name then (st.managers.lookup name).map fun mgr =>
        { mgr with corpus := del.foldl (fun c sig => c.erase sig) mgr.corpus }
      else st.managers.lookup n := by
  unfold State.deletePrograms
  split
  · rename_i hdel
    subst hdel
    split
    · subst n
      simp
    · rfl
  · rw [State.purgeCorpus_managers, lookup_modifyManager]

theorem lookup_addInputs (hash : Bytes → Key) (st : State) (name n : Name) (inputs : List Bytes) :
    ∃ corpus : Records ℕ → Records ℕ, (st.addInputs hash name inputs).managers.lookup n =
      (st.managers.lookup n).map fun mgr => { mgr with corpus := corpus mgr.corpus } := by
  refine addInputs_induction hash name (P := fun st' => ∃ corpus : Records ℕ → Records ℕ,
    st'.managers.lookup n = (st.managers.lookup n).map fun mgr =>
      { mgr with corpus := corpus mgr.corpus }) inputs ?_ ?_ ?_
  · exact ⟨fun c => c, by simp⟩
  · exact ⟨fun c => c, by simp⟩
  · rintro s s' input htook - ⟨corpus, hcorpus⟩
    rw [htook.managers_eq]
    split
    · subst n
      rw [hcorpus]
      exact ⟨fun c => (corpus c).save (hash input) [] 0, by simp [Function.comp_def]⟩
    · exact ⟨corpus, hcorpus⟩

theorem lookup_upload (hash : Bytes → Key) (st : State) (name n : Name) (add : List Bytes)
    (del : List Key) :
    ∃ corpus : Records ℕ → Records ℕ, (st.upload hash name add del).managers.lookup n =
      (st.managers.lookup n).map fun mgr => { mgr with corpus := corpus mgr.corpus } := by
  obtain ⟨corpus, hcorpus⟩ := lookup_addInputs hash (st.deletePrograms name del) name n add
  rw [lookup_deletePrograms] at hcorpus
  refine ⟨fun c => corpus (if n = name then del.foldl (fun c sig => c.erase sig) c else c), ?_⟩
  rw [State.upload, hcorpus]
  split
  · subst n
    simp [Function.comp_def]
  · simp

variable {hash : Bytes → Key} {st : State} {name : Name}

theorem sync_cases {add : List Bytes}
    {del : List Key} (h : Bounded (st.upload hash name add del)) (o : Orders) :
    ((∀ mgr, st.managers.lookup name = some mgr → mgr.connected = false) ∧
        st.sync hash name add del o = (st, .error (.unconnected name))) ∨
      ∃ mgr st' d cursor, (st.upload hash name add del).managers.lookup name = some mgr ∧
        mgr.connected ∧ st.sync hash name add del o = (st', .ok (mgr.domain, d)) ∧
        Delivers (st.upload hash name add del) name mgr st' d cursor := by
  unfold State.sync
  cases hmgr : st.managers.lookup name with
  | none => exact .inl ⟨nofun, rfl⟩
  | some mgr =>
    cases hconn : mgr.connected with
    | false =>
      left
      refine ⟨?_, by simp [hconn]⟩
      intro m hm
      cases hm
      exact hconn
    | true =>
      right
      obtain ⟨corpus, hup⟩ := lookup_upload hash st name name add del
      rw [hmgr, Option.map_some] at hup
      obtain ⟨st', d, cursor, hrun, hdel⟩ := pendingInputs_delivers h hup o
      refine ⟨_, st', d, cursor, hup, hconn, ?_, hdel⟩
      rw [State.upload] at hup hrun
      simp only
      rw [if_neg (by simp [hconn])]
      simp only [hup, hrun]

variable {f : Manager → Manager}

theorem Bounded.modifyManager (h : Bounded st)
    (hf : ∀ m, st.managers.lookup name = some m → (f m).corpusSeq ≤ st.corpusSeq) :
    Bounded (st.modifyManager name f) where
  seq_le := by simpa using h.seq_le
  parses := by simpa using h.parses
  cursor_le := by
    intro n m hm
    rw [lookup_modifyManager] at hm
    rw [modifyManager_corpusSeq]
    split at hm
    · obtain ⟨m', hm', rfl⟩ := Option.map_eq_some_iff.mp hm
      exact hf m' hm'
    · exact h.cursor_le n m hm

theorem Bounded.purgeCorpus (h : Bounded st) : Bounded st.purgeCorpus := by
  have hsub : ∀ k r, st.purgeCorpus.corpus.lookup k = some r → st.corpus.lookup k = some r := by
    intro k r hr
    rw [lookup_purgeCorpus] at hr
    split at hr
    · exact hr
    · cases hr
  exact ⟨fun k r hr => h.seq_le k r (hsub k r hr), fun k r hr => h.parses k r (hsub k r hr),
    h.cursor_le⟩

theorem Bounded.addInputs (h : Bounded st) (name : Name)
    (inputs : List Bytes) : Bounded (st.addInputs hash name inputs) := by
  refine addInputs_induction hash name inputs h ?_ ?_
  · exact ⟨fun k r hr => Nat.le_succ_of_le (h.seq_le k r hr), h.parses,
      fun n m hm => Nat.le_succ_of_le (h.cursor_le n m hm)⟩
  · intro s s' input htook _ hs
    refine ⟨fun k r hr => ?_, fun k r hr => ?_, fun n m hm => ?_⟩
    · rw [htook.corpus_eq] at hr
      rw [htook.corpusSeq_eq]
      split at hr
      · cases hr
        exact Nat.le_refl _
      · exact hs.seq_le k r hr
    · rw [htook.corpus_eq] at hr
      split at hr
      · cases hr
        exact htook.parses
      · exact hs.parses k r hr
    · rw [htook.managers_eq] at hm
      rw [htook.corpusSeq_eq]
      split at hm
      · obtain ⟨m', hm', rfl⟩ := Option.map_eq_some_iff.mp hm
        exact hs.cursor_le name m' hm'
      · exact hs.cursor_le n m hm

theorem Bounded.upload (h : Bounded st) (name : Name)
    (add : List Bytes) (del : List Key) : Bounded (st.upload hash name add del) := by
  refine Bounded.addInputs ?_ name add
  unfold State.deletePrograms
  split
  · exact h
  · refine Bounded.purgeCorpus (h.modifyManager fun m hm => ?_)
    exact h.cursor_le name m hm

variable {st' : State} {mgr : Manager} {d : Delivery} {cursor : ℕ}

theorem Bounded.delivers (h : Bounded st)
    (hd : Delivers st name mgr st' d cursor) : Bounded st' where
  seq_le := by rw [hd.corpus_eq, hd.corpusSeq_eq]; exact h.seq_le
  parses := by rw [hd.corpus_eq]; exact h.parses
  cursor_le := by
    intro n m hm
    rw [hd.managers_eq] at hm
    rw [hd.corpusSeq_eq]
    split at hm
    · cases hm
      exact hd.cursor_le
    · exact h.cursor_le n m hm

theorem Bounded.createManager (h : Bounded st) (name : Name)
    (files : ManagerFiles) : Bounded (st.createManager hash name files) where
  seq_le k r hr := Nat.le_trans (h.seq_le k r hr) (Nat.le_max_left _ _)
  parses := h.parses
  cursor_le := by
    intro n m hm
    simp only [State.createManager, Dict.lookup_insert_ite] at hm
    split at hm
    · cases hm
      exact Nat.le_max_right _ _
    · exact Nat.le_trans (h.cursor_le n m hm) (Nat.le_max_left _ _)

/-- Requests about reproducers leave the corpus alone. -/
structure SameCorpus (st st' : State) : Prop where
  corpus_eq : st'.corpus = st.corpus
  corpusSeq_eq : st'.corpusSeq = st.corpusSeq
  managers_eq : ∀ n, (st'.managers.lookup n).map (fun m => (m.corpusSeq, m.corpus)) =
    (st.managers.lookup n).map fun m => (m.corpusSeq, m.corpus)

theorem SameCorpus.refl (st : State) : SameCorpus st st := ⟨rfl, rfl, fun _ => rfl⟩

theorem SameCorpus.insert {mgr' : Manager}
    (hmgr : st.managers.lookup name = some mgr) (hseq : mgr'.corpusSeq = mgr.corpusSeq)
    (hcorpus : mgr'.corpus = mgr.corpus) (reproSeq : ℕ) (repros : Records ℕ) :
    SameCorpus st ⟨st.corpusSeq, reproSeq, st.corpus, repros, st.managers.insert name mgr'⟩ where
  corpus_eq := rfl
  corpusSeq_eq := rfl
  managers_eq := by
    intro n
    rw [Dict.lookup_insert_ite]
    split
    · subst n
      simp [hmgr, hseq, hcorpus]
    · rfl

theorem addRepro_sameCorpus (hash : Bytes → Key) (st : State) (name : Name) (repro : Bytes) :
    SameCorpus st (st.addRepro hash name repro).1 := by
  dsimp only [State.addRepro]
  repeat' split
  all_goals first
    | exact .refl st
    | exact .insert ‹_› (by rfl) (by rfl) _ _

theorem pendingRepro_sameCorpus (st : State) (name : Name) (order : RecordOrder ℕ) :
    SameCorpus st (st.pendingRepro name order).1 := by
  unfold State.pendingRepro
  repeat' split
  all_goals first
    | exact .refl st
    | exact .insert ‹_› (by rfl) (by rfl) _ _

theorem SameCorpus.lookup (h : SameCorpus st st') {n : Name} {m' : Manager}
    (hm : st'.managers.lookup n = some m') :
    ∃ m, st.managers.lookup n = some m ∧ m.corpusSeq = m'.corpusSeq ∧ m.corpus = m'.corpus := by
  have heq := h.managers_eq n
  rw [hm, Option.map_some, eq_comm, Option.map_eq_some_iff] at heq
  obtain ⟨m, hm, heq⟩ := heq
  exact ⟨m, hm, (Prod.mk.inj heq).1, (Prod.mk.inj heq).2⟩

theorem SameCorpus.symm (h : SameCorpus st st') : SameCorpus st' st :=
  ⟨h.corpus_eq.symm, h.corpusSeq_eq.symm, fun n => (h.managers_eq n).symm⟩

theorem Bounded.of_sameCorpus (h : Bounded st) (hs : SameCorpus st st') : Bounded st' where
  seq_le := by rw [hs.corpus_eq, hs.corpusSeq_eq]; exact h.seq_le
  parses := by rw [hs.corpus_eq]; exact h.parses
  cursor_le := by
    intro n m' hm
    obtain ⟨m, hm, hseq, -⟩ := hs.lookup hm
    rw [hs.corpusSeq_eq, ← hseq]
    exact h.cursor_le n m hm

/-- The state in which `Connect` has reset the manager. -/
def State.reset (hash : Bytes → Key) (st : State) (name : Name) (domain : Bytes) (fresh : Bool)
    (calls : List Bytes) : State :=
  let st := if st.managers.lookup name = none then st.createManager hash name .missing else st
  st.modifyManager name fun mgr =>
    { mgr with
      connected := true
      domain := domain
      corpusSeq := if fresh then 0 else mgr.corpusSeq
      reproSeq := if fresh then st.reproSeq else mgr.reproSeq
      calls := calls
      corpus := ∅ }

theorem connect_eq (hash : Bytes → Key) (st : State) (name : Name) (domain : Bytes) (fresh : Bool)
    (calls corpus : List Bytes) :
    st.connect hash name domain fresh calls corpus =
      ((st.reset hash name domain fresh calls).addInputs hash name corpus).purgeCorpus := rfl

theorem Bounded.reset (h : Bounded st) (name : Name) (domain : Bytes) (fresh : Bool)
    (calls : List Bytes) : Bounded (st.reset hash name domain fresh calls) := by
  have hcreated : Bounded
      (if st.managers.lookup name = none then st.createManager hash name .missing else st) := by
    split
    · exact h.createManager name .missing
    · exact h
  refine hcreated.modifyManager fun m hm => ?_
  split
  · exact Nat.zero_le _
  · exact hcreated.cursor_le name m hm

/-- No record or cursor gets beyond the last number given out. -/
theorem Bounded.serve (h : Bounded st) (req : Request) : Bounded (st.serve hash req).1 := by
  cases req with
  | connect name domain fresh calls corpus =>
    exact ((h.reset name domain fresh calls).addInputs name corpus).purgeCorpus
  | sync name add del o =>
    have hup : Bounded (st.upload hash name add del) := h.upload name add del
    change Bounded (st.sync hash name add del o).1
    obtain ⟨-, heq⟩ | ⟨mgr, st', d, cursor, -, -, heq, hdel⟩ := sync_cases hup o
    · rw [heq]
      exact h
    · rw [heq]
      exact hup.delivers hdel
  | addRepro name repro => exact h.of_sameCorpus (addRepro_sameCorpus hash st name repro)
  | pendingRepro name order => exact h.of_sameCorpus (pendingRepro_sameCorpus st name order)

variable {P : State → Prop}

theorem serveAll_induction (h : P st) (reqs : List Request)
    (step : ∀ st req, P st → P (st.serve hash req).1) : P (st.serveAll hash reqs) := by
  induction reqs generalizing st with
  | nil => exact h
  | cons req reqs ih => exact ih (step st req h)

theorem loadDB_loop (hash : Bytes → Key) (progs : Bool) (l : List (Key × Record ℕ))
    (db : Records ℕ) (maxSeq : ℕ) :
    let r := l.foldl (fun (db, maxSeq) (key, rec) =>
      if progs && !keepsProgram hash key rec.val then (db.erase key, maxSeq)
      else (db, max maxSeq rec.seq)) (db, maxSeq)
    (∀ k rec, r.1.lookup k = some rec → db.lookup k = some rec) ∧ maxSeq ≤ r.2 ∧
      ∀ e ∈ l, r.1.lookup e.1 = some e.2 →
        e.2.seq ≤ r.2 ∧ (progs → keepsProgram hash e.1 e.2.val) := by
  induction l generalizing db maxSeq with
  | nil => exact ⟨fun _ _ h => h, Nat.le_refl _, by simp⟩
  | cons e l ih =>
    obtain ⟨key, rec⟩ := e
    simp only [foldl_cons]
    by_cases hbad : (progs && !keepsProgram hash key rec.val)
    · simp only [hbad, if_true]
      obtain ⟨hsub, hle, hall⟩ := ih (db.erase key) maxSeq
      refine ⟨fun k r hr => ?_, hle, ?_⟩
      · have hlook := hsub k r hr
        rw [Dict.lookup_erase_ite] at hlook
        split at hlook
        · cases hlook
        · exact hlook
      · intro e he hr
        obtain rfl | he := mem_cons.mp he
        · have hlook := hsub key rec hr
          rw [Dict.lookup_erase_ite, if_pos rfl] at hlook
          cases hlook
        · exact hall e he hr
    · simp only [hbad, Bool.false_eq_true, if_false]
      obtain ⟨hsub, hle, hall⟩ := ih db (max maxSeq rec.seq)
      refine ⟨hsub, Nat.le_trans (Nat.le_max_left _ _) hle, ?_⟩
      intro e he hr
      obtain rfl | he := mem_cons.mp he
      · refine ⟨Nat.le_trans (Nat.le_max_right _ _) hle, ?_⟩
        simpa using hbad
      · exact hall e he hr

variable {k : Key}

theorem loadDB_spec (hash : Bytes → Key) (progs : Bool) (records : Records ℕ)
    {rec : Record ℕ} (h : (loadDB hash progs records).1.lookup k = some rec) : records.lookup k =
    some rec ∧ rec.seq ≤ (loadDB hash progs records).2 ∧ (progs → keepsProgram hash k rec.val) := by
  obtain ⟨hsub, -, hall⟩ := loadDB_loop hash progs records.toPairs records 0
  have hrec := hsub k rec h
  exact ⟨hrec, hall (k, rec) (Dict.mem_toPairs.mpr hrec) h⟩

theorem make_induction (hash : Bytes → Key) (dir : Dir)
    (start : P ⟨(loadDB hash true dir.corpus).2, (loadDB hash true dir.repros).2,
      (loadDB hash true dir.corpus).1, (loadDB hash true dir.repros).1, ∅⟩)
    (create : ∀ st, ∀ e ∈ dir.managers, P st → P (st.createManager hash e.1 e.2)) :
    ∃ st, P st ∧ State.make hash dir = st.purgeCorpus := by
  suffices h : ∀ (l : List (Name × ManagerFiles)) (st : State),
      (∀ st, ∀ e ∈ l, P st → P (st.createManager hash e.1 e.2)) → P st →
        P (l.foldl (fun st e => st.createManager hash e.1 e.2) st) from
    ⟨_, h dir.managers _ create start, rfl⟩
  intro l
  induction l with
  | nil => exact fun st _ hst => hst
  | cons e l ih =>
    intro st create hst
    exact ih _ (fun st e he => create st e (mem_cons_of_mem _ he)) (create st e mem_cons_self hst)

theorem Bounded.make (hash : Bytes → Key) (dir : Dir) : Bounded (State.make hash dir) := by
  have hparse : ∀ k r, (loadDB hash true dir.corpus).1.lookup k = some r →
      ∃ p, callSet r.val = .ok p := by
    intro k r hr
    have hkeep := (loadDB_spec hash true _ hr).2.2 rfl
    unfold keepsProgram at hkeep
    split at hkeep
    · cases hkeep
    · rename_i hcalls
      exact ⟨_, hcalls⟩
  obtain ⟨st, hst, heq⟩ := make_induction hash (P := Bounded) dir
    ⟨fun k r hr => (loadDB_spec hash true _ hr).2.1, hparse, by simp⟩
    fun st e _ hst => hst.createManager e.1 e.2
  rw [heq]
  exact hst.purgeCorpus

/-- The program belongs to a manager. -/
def Used (st : State) (k : Key) : Prop := ∃ n m, st.managers.lookup n = some m ∧ k ∈ m.corpus

/-- The hub has the programs of its managers, under numbers that were given out. -/
structure Covered (st : State) : Prop where
  covers : ∀ k, Used st k → k ∈ st.corpus
  seq_pos : ∀ k r, st.corpus.lookup k = some r → 1 ≤ r.seq

variable {input : Bytes}

theorem Took.mem_corpus (h : Took hash name input st st') (k : Key) :
    k ∈ st'.corpus ↔ k = hash input ∨ k ∈ st.corpus := by
  rw [← AList.lookup_isSome, h.corpus_eq, ← AList.lookup_isSome]
  by_cases hk : k = hash input
  · cases hlook : st.corpus.lookup k <;> simp [hk]
  · simp [hk]

theorem Took.used (h : Took hash name input st st') (hmgr : st.managers.lookup name = some mgr)
    (k : Key) : Used st' k ↔ k = hash input ∨ Used st k := by
  have hmine : st'.managers.lookup name =
      some { mgr with corpus := mgr.corpus.save (hash input) [] 0 } := by
    rw [h.managers_eq, if_pos rfl, hmgr]
    rfl
  constructor
  · rintro ⟨n, m, hm, hk⟩
    by_cases hn : n = name
    · subst n
      rw [hmine] at hm
      cases hm
      obtain rfl | hk := (mem_save _ _ _ _ _).mp hk
      · exact .inl rfl
      · exact .inr ⟨name, mgr, hmgr, hk⟩
    · rw [h.managers_eq, if_neg hn] at hm
      exact .inr ⟨n, m, hm, hk⟩
  · rintro (rfl | ⟨n, m, hm, hk⟩)
    · exact ⟨name, _, hmine, (mem_save _ _ _ _ _).mpr (.inl rfl)⟩
    · by_cases hn : n = name
      · subst n
        rw [hmgr] at hm
        cases hm
        exact ⟨name, _, hmine, (mem_save _ _ _ _ _).mpr (.inr hk)⟩
      · exact ⟨n, m, by rw [h.managers_eq, if_neg hn]; exact hm, hk⟩

theorem Covered.took (hc : Covered st) (h : Took hash name input st st')
    (hmgr : st.managers.lookup name = some mgr) (hpos : 1 ≤ st.corpusSeq) : Covered st' where
  covers := by
    intro k hk
    rw [h.mem_corpus]
    obtain rfl | hk := (h.used hmgr k).mp hk
    · exact .inl rfl
    · exact .inr (hc.covers k hk)
  seq_pos := by
    intro k r hr
    rw [h.corpus_eq] at hr
    split at hr
    · cases hr
      exact hpos
    · exact hc.seq_pos k r hr

theorem Covered.addInputs (hash : Bytes → Key) (hc : Covered st)
    (hmgr : st.managers.lookup name = some mgr) (inputs : List Bytes) :
    Covered (st.addInputs hash name inputs) ∧ ((∀ k ∈ st.corpus, Used st k) →
        ∀ k ∈ (st.addInputs hash name inputs).corpus, Used (st.addInputs hash name inputs) k) := by
  have hrun := addInputs_induction hash name
    (P := fun s => (∃ mgr, s.managers.lookup name = some mgr) ∧ Covered s ∧
      ((∀ k ∈ st.corpus, Used st k) → ∀ k ∈ s.corpus, Used s k)) inputs
    ⟨⟨mgr, hmgr⟩, hc, fun h => h⟩ ⟨⟨mgr, hmgr⟩, ⟨hc.covers, hc.seq_pos⟩, fun h => h⟩ ?_
  · exact hrun.2
  · rintro s s' input htook hpos ⟨⟨mgr, hmgr⟩, hcov, hexact⟩
    refine ⟨⟨_, by rw [htook.managers_eq, if_pos rfl, hmgr]; rfl⟩, hcov.took htook hmgr hpos, ?_⟩
    intro h k hk
    rw [htook.used hmgr]
    obtain rfl | hk := (htook.mem_corpus k).mp hk
    · exact .inl rfl
    · exact .inr (hexact h k hk)

/-- The hub has exactly the programs of its managers. -/
structure Consistent (st : State) : Prop where
  bounded : Bounded st
  keys : ∀ k, k ∈ st.corpus ↔ Used st k
  seq_pos : ∀ k r, st.corpus.lookup k = some r → 1 ≤ r.seq

theorem Consistent.covered (h : Consistent st) : Covered st :=
  ⟨fun k hk => (h.keys k).mpr hk, h.seq_pos⟩

theorem Covered.purgeCorpus (h : Covered st) (hb : Bounded st) : Consistent st.purgeCorpus where
  bounded := hb.purgeCorpus
  keys := by
    intro k
    rw [← AList.lookup_isSome, lookup_purgeCorpus]
    split
    · rename_i hu
      have hused := (used_iff st k).mp hu
      rw [AList.lookup_isSome]
      exact ⟨fun _ => hused, h.covers k⟩
    · rename_i hu
      rw [used_iff] at hu
      exact ⟨nofun, fun hk => absurd hk hu⟩
  seq_pos := by
    intro k r hr
    rw [lookup_purgeCorpus] at hr
    split at hr
    · exact h.seq_pos k r hr
    · cases hr

theorem Covered.modifyManager (h : Covered st)
    (hf : ∀ m k, k ∈ (f m).corpus → k ∈ m.corpus) : Covered (st.modifyManager name f) where
  covers := by
    rintro k ⟨n, m, hm, hk⟩
    rw [modifyManager_corpus]
    rw [lookup_modifyManager] at hm
    split at hm
    · obtain ⟨m', hm', rfl⟩ := Option.map_eq_some_iff.mp hm
      exact h.covers k ⟨name, m', hm', hf m' k hk⟩
    · exact h.covers k ⟨n, m, hm, hk⟩
  seq_pos := by simpa using h.seq_pos

theorem Covered.createManager (h : Covered st) (name : Name) {files : ManagerFiles}
    (hfiles : files.corpus = ∅) : Covered (st.createManager hash name files) where
  covers := by
    rintro k ⟨n, m, hm, hk⟩
    simp only [State.createManager, Dict.lookup_insert_ite] at hm
    split at hm
    · cases hm
      simp [loadDB, hfiles] at hk
    · exact h.covers k ⟨n, m, hm, hk⟩
  seq_pos := h.seq_pos

theorem mem_foldl_erase (del : List Key) (c : Records ℕ) (k : Key)
    (h : k ∈ del.foldl (fun c sig => c.erase sig) c) : k ∈ c := by
  induction del generalizing c with
  | nil => exact h
  | cons sig del ih => exact (AList.mem_erase.mp (ih (c.erase sig) h)).2

theorem lookup_reset_self (hash : Bytes → Key) (st : State) (name : Name) (domain : Bytes)
    (fresh : Bool) (calls : List Bytes) :
    ∃ mgr, (st.reset hash name domain fresh calls).managers.lookup name = some mgr := by
  unfold State.reset
  simp only [lookup_modifyManager, if_true]
  cases hmgr : st.managers.lookup name with
  | none => simp [State.createManager]
  | some mgr => simp [hmgr]

theorem Covered.reset (h : Covered st) (name : Name) (domain : Bytes) (fresh : Bool)
    (calls : List Bytes) : Covered (st.reset hash name domain fresh calls) := by
  have hcreated : Covered
      (if st.managers.lookup name = none then st.createManager hash name .missing else st) := by
    split
    · exact h.createManager name rfl
    · exact h
  exact hcreated.modifyManager fun m k hk => absurd hk (AList.notMem_empty k)

theorem Consistent.deletePrograms (h : Consistent st) (name : Name)
    (del : List Key) : Consistent (st.deletePrograms name del) := by
  unfold State.deletePrograms
  split
  · exact h
  · refine Covered.purgeCorpus (h.covered.modifyManager fun m k hk => mem_foldl_erase del _ k hk) ?_
    refine h.bounded.modifyManager fun m hm => ?_
    exact h.bounded.cursor_le name m hm

theorem Consistent.of_corpora (h : Consistent st) (hb : Bounded st')
    (hcorpus : st'.corpus = st.corpus) (hused : ∀ k, Used st' k ↔ Used st k) : Consistent st' where
  bounded := hb
  keys := by
    intro k
    rw [hcorpus, hused]
    exact h.keys k
  seq_pos := by rw [hcorpus]; exact h.seq_pos

theorem SameCorpus.used (h : SameCorpus st st') (hk : Used st' k) : Used st k := by
  obtain ⟨n, m', hm', hk⟩ := hk
  obtain ⟨m, hm, -, heq⟩ := h.lookup hm'
  exact ⟨n, m, hm, by rw [heq]; exact hk⟩

theorem Consistent.of_sameCorpus (h : Consistent st) (hs : SameCorpus st st') : Consistent st' :=
  h.of_corpora (h.bounded.of_sameCorpus hs) hs.corpus_eq fun _ => ⟨hs.used, hs.symm.used⟩

theorem Delivers.used (h : Delivers st name mgr st' d cursor)
    (hmgr : st.managers.lookup name = some mgr) (k : Key) : Used st' k ↔ Used st k := by
  constructor
  · rintro ⟨n, m, hm, hk⟩
    rw [h.managers_eq] at hm
    split at hm
    · cases hm
      exact ⟨name, mgr, hmgr, hk⟩
    · exact ⟨n, m, hm, hk⟩
  · rintro ⟨n, m, hm, hk⟩
    by_cases hn : n = name
    · subst n
      rw [hmgr] at hm
      cases hm
      exact ⟨name, _, (h.managers_eq name).trans (if_pos rfl), hk⟩
    · exact ⟨n, m, by rw [h.managers_eq, if_neg hn]; exact hm, hk⟩

/-- Every request keeps the corpus the union of those of the managers. -/
theorem Consistent.serve (hash : Bytes → Key) (h : Consistent st) (req : Request) :
    Consistent (st.serve hash req).1 := by
  cases req with
  | connect name domain fresh calls corpus =>
    obtain ⟨mgr, hmgr⟩ := lookup_reset_self hash st name domain fresh calls
    exact ((h.covered.reset name domain fresh calls).addInputs hash hmgr corpus).1.purgeCorpus
      ((h.bounded.reset name domain fresh calls).addInputs name corpus)
  | sync name add del o =>
    have hup : Bounded (st.upload hash name add del) := h.bounded.upload name add del
    change Consistent (st.sync hash name add del o).1
    obtain ⟨-, heq⟩ | ⟨mgr, st', d, cursor, hmgr, -, heq, hd⟩ := sync_cases hup o
    · rw [heq]
      exact h
    · rw [heq]
      have hdel := h.deletePrograms name del
      obtain ⟨corpus, hlook⟩ := lookup_addInputs hash (st.deletePrograms name del) name name add
      rw [State.upload, hlook] at hmgr
      obtain ⟨mgr0, hmgr0, -⟩ := Option.map_eq_some_iff.mp hmgr
      obtain ⟨hcov, hexact⟩ := hdel.covered.addInputs hash hmgr0 add
      have hcons : Consistent (st.upload hash name add del) :=
        ⟨hup, fun k => ⟨hexact (fun k hk => (hdel.keys k).mp hk) k, hcov.covers k⟩, hcov.seq_pos⟩
      refine hcons.of_corpora (hup.delivers hd) hd.corpus_eq (hd.used ?_)
      rw [State.upload, hlook]
      exact hmgr
  | addRepro name repro => exact h.of_sameCorpus (addRepro_sameCorpus hash st name repro)
  | pendingRepro name order => exact h.of_sameCorpus (pendingRepro_sameCorpus st name order)

theorem Consistent.make (hash : Bytes → Key) {dir : Dir} (hcorpus : dir.corpus = ∅)
    (hmgrs : ∀ e ∈ dir.managers, e.2.corpus = ∅) : Consistent (State.make hash dir) := by
  obtain ⟨st, ⟨hcov, hb⟩, heq⟩ := make_induction hash (P := fun st => Covered st ∧ Bounded st) dir
    (by
      simp only [hcorpus, loadDB, Dict.toPairs_empty, foldl_nil]
      exact ⟨⟨by simp [Used], by simp⟩, ⟨by simp, by simp, by simp⟩⟩)
    fun st e he hst => ⟨hst.1.createManager e.1 (hmgrs e he), hst.2.createManager e.1 e.2⟩
  rw [heq]
  exact hcov.purgeCorpus hb

/-- The hub's programs are those of its managers after every run from an empty corpus, their
numbers are between 1 and the last one given out, and no cursor is beyond it. -/
theorem corpus_consistent (hash : Bytes → Key) (dir : Dir) (hcorpus : dir.corpus = ∅)
    (hmgrs : ∀ e ∈ dir.managers, e.2.corpus = ∅) (reqs : List Request) :
    let st := (State.make hash dir).serveAll hash reqs
    (∀ k, k ∈ st.corpus ↔ ∃ n m, st.managers.lookup n = some m ∧ k ∈ m.corpus) ∧
      (∀ k r, st.corpus.lookup k = some r → 1 ≤ r.seq ∧ r.seq ≤ st.corpusSeq) ∧
      ∀ n m, st.managers.lookup n = some m → m.corpusSeq ≤ st.corpusSeq := by
  have h := serveAll_induction (Consistent.make hash hcorpus hmgrs) reqs
    fun st req hst => hst.serve hash req
  exact ⟨h.keys, fun k r hr => ⟨h.seq_pos k r hr, h.bounded.seq_le k r hr⟩, h.bounded.cursor_le⟩

/-- `a()` -/
def progA : Bytes := [0x61, 0x28, 0x29]

def Dir.empty : Dir := ⟨∅, ∅, []⟩

/-- Two managers have the program, the first one deletes it, and the second one connects anew with
another one. -/
def sharedProgram : List Request :=
  [.connect [1] [] true [[0x61]] [progA], .connect [2] [] true [[0x61]] [progA],
    .sync [1] [] [progA] ⟨.id, fun _ => .id⟩, .connect [2] [] true [[0x61]] [0x20 :: progA]]

theorem corpus_consistent_connected :
    let st := (State.make id .empty).serveAll id sharedProgram
    ((State.make id .empty).serveAll id (sharedProgram.take 3)).corpus.keys = [progA] ∧
      st.corpus.keys = [0x20 :: progA] ∧
      (∀ k, k ∈ st.corpus ↔ ∃ n m, st.managers.lookup n = some m ∧ k ∈ m.corpus) ∧
      (∀ k r, st.corpus.lookup k = some r → 1 ≤ r.seq ∧ r.seq ≤ st.corpusSeq) ∧
      ∀ n m, st.managers.lookup n = some m → m.corpusSeq ≤ st.corpusSeq :=
  ⟨by decide, by decide, corpus_consistent id .empty rfl (fun _ h => nomatch h) _⟩

end Brf.Hub
