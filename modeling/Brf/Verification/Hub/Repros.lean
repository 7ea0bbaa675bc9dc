import Brf.Verification.Hub.Consistency

/-! # Reproducers

What `PendingRepro` returns to a manager over a run, seen from the state after its connect. -/

namespace Brf.Hub

open Brf.Lib Brf.Db List Manager State Option Dict Nat

/-! ### The least pending reproducer -/

/-- Whether a manager supports the calls of a program. -/
def Manager.supports (mgr : Manager) (prog : Bytes) : Bool :=
  match callSet prog with
  | .error _ => false
  | .ok (calls, _) => managerSupportsAllCalls mgr.calls calls

/-- The manager may be given this reproducer: it is above the cursor, not marked as its own, and
the manager supports its calls. -/
def Manager.takes (mgr : Manager) (e : Key × Record ℕ) : Bool :=
  decide (mgr.reproSeq < e.2.seq) && decide (e.1 ∉ mgr.ownRepros) && mgr.supports e.2.val

theorem takes_iff (mgr : Manager) (e : Key × Record ℕ) : mgr.takes e ↔ mgr.reproSeq < e.2.seq ∧
    e.1 ∉ mgr.ownRepros ∧ mgr.supports e.2.val := by
  simp [takes, and_assoc]

def pickLeast (best : Option (Record ℕ)) (rec : Record ℕ) : Option (Record ℕ) :=
  if best.all fun b => b.seq > rec.seq then some rec else best

theorem minRepro_eq (mgr : Manager) {l : List (Key × Record ℕ)} (best : Option (Record ℕ))
    (h : ∀ e ∈ l, ∃ p, callSet e.2.val = .ok p) :
    mgr.minRepro l best = .ok (((l.filter mgr.takes).map Prod.snd).foldl pickLeast best) := by
  induction l generalizing best with
  | nil => rfl
  | cons e l ih =>
    obtain ⟨key, rec⟩ := e
    obtain ⟨⟨calls, n⟩, hcalls⟩ := h (key, rec) mem_cons_self
    have htail := fun best => ih best fun e he => h e (mem_cons_of_mem _ he)
    have hsup : mgr.supports rec.val = managerSupportsAllCalls mgr.calls calls := by
      simp [supports, hcalls]
    by_cases htakes : mgr.takes (key, rec)
    · obtain ⟨hseq, hown, hs⟩ := (takes_iff mgr _).mp htakes
      rw [hsup] at hs
      rw [filter_cons_of_pos htakes, map_cons, foldl_cons, ← htail]
      simp only [minRepro, not_le.mpr hseq, hown, hcalls, hs, if_false, Bool.not_true,
        Bool.false_eq_true, pickLeast]
      split <;> rfl
    · rw [filter_cons_of_neg htakes, ← htail]
      rw [takes_iff, hsup] at htakes
      by_cases hseq : mgr.reproSeq < rec.seq
      · by_cases hown : key ∈ mgr.ownRepros
        · simp [minRepro, not_le.mpr hseq, hown]
        · have hs : managerSupportsAllCalls mgr.calls calls = false := by
            simpa using fun hs => htakes ⟨hseq, hown, hs⟩
          simp [minRepro, not_le.mpr hseq, hown, hcalls, hs]
      · simp [minRepro, not_lt.mp hseq]

theorem foldl_pickLeast (l : List (Record ℕ)) (best : Option (Record ℕ)) :
    (∀ rec, l.foldl pickLeast best = some rec →
      (best = some rec ∨ rec ∈ l) ∧ (∀ b, best = some b → rec.seq ≤ b.seq) ∧
        ∀ r ∈ l, rec.seq ≤ r.seq) ∧
      (l.foldl pickLeast best = none → best = none ∧ l = []) := by
  induction l generalizing best with
  | nil =>
    refine ⟨fun rec hrec => ⟨.inl hrec, fun b hb => ?_, by simp⟩, fun hnone => ⟨hnone, rfl⟩⟩
    rw [hb] at hrec
    cases hrec
    exact le_refl _
  | cons r l ih =>
    obtain ⟨hsome, hnone⟩ := ih (pickLeast best r)
    constructor
    · intro rec hrec
      obtain ⟨hfrom, hbest, hmin⟩ := hsome rec hrec
      unfold pickLeast at hfrom hbest
      split at hfrom
      · rename_i hall
        simp only [hall, if_true, some.injEq, forall_eq'] at hbest
        refine ⟨?_, ?_, ?_⟩
        · obtain hr | hr := hfrom
          · cases hr
            exact .inr mem_cons_self
          · exact .inr (mem_cons_of_mem _ hr)
        · rintro b rfl
          have : r.seq < b.seq := by simpa using hall
          omega
        · intro x hx
          obtain rfl | hx := mem_cons.mp hx
          · exact hbest
          · exact hmin x hx
      · rename_i hall
        simp only [hall] at hbest
        refine ⟨hfrom.imp_right (mem_cons_of_mem _), hbest, ?_⟩
        intro x hx
        obtain rfl | hx := mem_cons.mp hx
        · cases best with
          | none => simp at hall
          | some b =>
            have hle : b.seq ≤ x.seq := by simpa using hall
            exact le_trans (hbest b rfl) hle
        · exact hmin x hx
    · intro hres
      obtain ⟨hpick, -⟩ := hnone hres
      unfold pickLeast at hpick
      split at hpick
      · cases hpick
      · rename_i hall
        rw [hpick] at hall
        simp at hall

/-! ### What every state keeps -/

/-- The reproducers of the hub parse and are stored under their hash, and the numbers in use
have been given out. -/
structure ReproState (hash : Bytes → Key) (st : State) : Prop where
  key_eq : ∀ k r, st.repros.lookup k = some r → hash r.val = k
  parses : ∀ k r, st.repros.lookup k = some r → ∃ p, callSet r.val = .ok p
  seq_le : ∀ k r, st.repros.lookup k = some r → r.seq ≤ st.reproSeq
  cursor_le : ∀ n m, st.managers.lookup n = some m → m.reproSeq ≤ st.reproSeq
  own_stored : ∀ n m k, st.managers.lookup n = some m → k ∈ m.ownRepros → k ∈ st.repros

variable {hash : Bytes → Key} {st : State} {name : Name} {mgr : Manager}

theorem pendingRepro_spec (h : ReproState hash st) (hmgr : st.managers.lookup name = some mgr)
    (hconn : mgr.connected) (order : RecordOrder ℕ) :
    ∃ res cursor, (st.pendingRepro name order).2 = .ok res ∧
      (st.pendingRepro name order).1.repros = st.repros ∧
      (st.pendingRepro name order).1.reproSeq = st.reproSeq ∧
      (∀ n, (st.pendingRepro name order).1.managers.lookup n =
        if n = name then some { mgr with reproSeq := cursor } else st.managers.lookup n) ∧
      mgr.reproSeq ≤ cursor ∧ (res = none → cursor = st.reproSeq ∧
        ∀ k r, st.repros.lookup k = some r → mgr.takes (k, r) = false) ∧
      ∀ rec, res = some rec → cursor = rec.seq ∧
        (∃ k, st.repros.lookup k = some rec ∧ mgr.takes (k, rec)) ∧
        ∀ k r, st.repros.lookup k = some r → mgr.takes (k, r) → rec.seq ≤ r.seq := by
  have hcursor := h.cursor_le name mgr hmgr
  simp only [pendingRepro, hmgr]
  rw [if_neg (by simp [hconn])]
  split
  · -- the cursor is at the last number
    rename_i heq
    refine ⟨none, st.reproSeq, rfl, rfl, rfl, fun n => ?_, hcursor, fun _ => ⟨rfl, fun k r hr => ?_⟩,
      nofun⟩
    · split
      · subst n
        rw [hmgr, ← heq]
      · rfl
    · have hle := h.seq_le k r hr
      simp only [takes, Bool.and_eq_false_iff, decide_eq_false_iff_not]
      exact .inl (.inl (by omega))
  · have hmem : ∀ e, e ∈ order.run st.repros.toPairs ↔ st.repros.lookup e.1 = some e.2 :=
      fun e => (order.mem_run _ e).trans mem_toPairs
    have hloop := minRepro_eq mgr (l := order.run st.repros.toPairs) none
      fun e he => h.parses e.1 e.2 ((hmem e).mp he)
    obtain ⟨hsome, hnone⟩ :=
      foldl_pickLeast (((order.run st.repros.toPairs).filter mgr.takes).map Prod.snd) none
    rw [hloop]
    cases hres : (((order.run st.repros.toPairs).filter mgr.takes).map Prod.snd).foldl
        pickLeast none with
    | none =>
      obtain ⟨-, hnil⟩ := hnone hres
      refine ⟨none, st.reproSeq, rfl, rfl, rfl, fun n => lookup_insert_ite _ _ _ _, hcursor,
        fun _ => ⟨rfl, fun k r hr => ?_⟩, nofun⟩
      have hfilter := filter_eq_nil_iff.mp (map_eq_nil_iff.mp hnil) (k, r) ((hmem (k, r)).mpr hr)
      simpa using hfilter
    | some rec =>
      obtain ⟨hfrom, -, hmin⟩ := hsome rec hres
      obtain ⟨⟨k, r⟩, hkr, rfl⟩ := mem_map.mp (hfrom.resolve_left nofun)
      obtain ⟨hin, htakes⟩ := mem_filter.mp hkr
      refine ⟨some r, r.seq, rfl, rfl, rfl, fun n => lookup_insert_ite _ _ _ _,
        le_of_lt ((takes_iff mgr _).mp htakes).1, nofun, ?_⟩
      intro rec hrec
      cases hrec
      refine ⟨rfl, ⟨k, (hmem _).mp hin, htakes⟩, fun k' r' hr' htakes' => ?_⟩
      apply hmin
      exact mem_map.mpr ⟨(k', r'), mem_filter.mpr ⟨(hmem _).mpr hr', htakes'⟩, rfl⟩

structure Stores (hash : Bytes → Key) (name : Name) (repro : Bytes) (mgr : Manager)
    (st st' : State) : Prop where
  mgr_eq : st.managers.lookup name = some mgr
  parses : ∃ p, callSet repro = .ok p
  new : st.repros.lookup (hash repro) = none
  reproSeq_eq : st'.reproSeq = st.reproSeq + 1
  repros_eq : ∀ k, st'.repros.lookup k =
    if k = hash repro then some ⟨repro, st.reproSeq + 1⟩ else st.repros.lookup k
  managers_eq : ∀ n, st'.managers.lookup n =
    if n = name then some { mgr with
      ownRepros := hash repro :: mgr.ownRepros
      reproSeq := if mgr.reproSeq = st.reproSeq then mgr.reproSeq + 1 else mgr.reproSeq }
    else st.managers.lookup n

/-- `AddRepro` stores a reproducer, or it does nothing; then one with the same hash is there, if
it parses and the manager is connected. -/
theorem addRepro_cases (hash : Bytes → Key) (st : State) (name : Name) (repro : Bytes) :
    ((st.addRepro hash name repro).1 = st ∧
      ∀ mgr p, st.managers.lookup name = some mgr → mgr.connected → callSet repro = .ok p →
        hash repro ∈ st.repros) ∨
      ∃ mgr, Stores hash name repro mgr st (st.addRepro hash name repro).1 := by
  unfold addRepro
  cases hmgr : st.managers.lookup name with
  | none => exact .inl ⟨rfl, nofun⟩
  | some mgr =>
    cases hconn : mgr.connected with
    | false =>
      refine .inl ⟨by simp [hconn], fun m p hm hc => ?_⟩
      cases hm
      simp [hconn] at hc
    | true =>
      simp only
      rw [if_neg (by simp [hconn])]
      cases hcalls : callSet repro with
      | error err => exact .inl ⟨rfl, nofun⟩
      | ok p =>
        cases hlook : st.repros.lookup (hash repro) with
        | some r =>
          left
          simp only [ne_eq, reduceCtorEq, not_false_eq_true, if_true, true_and]
          intro _ _ _ _ _
          exact AList.lookup_isSome.mp (by rw [hlook]; rfl)
        | none =>
          right
          exact ⟨mgr, hmgr, ⟨p, hcalls⟩, hlook, rfl, fun k => lookup_save _ _ _ _ _,
            fun n => lookup_insert_ite _ _ _ _⟩

variable {st' : State}

theorem ReproState.stores (h : ReproState hash st) {repro : Bytes}
    (hs : Stores hash name repro mgr st st') : ReproState hash st' where
  key_eq := by
    intro k r hr
    rw [hs.repros_eq] at hr
    split at hr
    · cases hr
      subst k
      rfl
    · exact h.key_eq k r hr
  parses := by
    intro k r hr
    rw [hs.repros_eq] at hr
    split at hr
    · cases hr
      exact hs.parses
    · exact h.parses k r hr
  seq_le := by
    intro k r hr
    rw [hs.repros_eq] at hr
    rw [hs.reproSeq_eq]
    split at hr
    · cases hr
      exact le_refl _
    · exact le_succ_of_le (h.seq_le k r hr)
  cursor_le := by
    intro n m hm
    rw [hs.managers_eq] at hm
    rw [hs.reproSeq_eq]
    split at hm
    · cases hm
      have hle := h.cursor_le name mgr hs.mgr_eq
      simp only
      split <;> omega
    · exact le_succ_of_le (h.cursor_le n m hm)
  own_stored := by
    intro n m k hm hk
    have hmono : ∀ k, k ∈ st.repros → k ∈ st'.repros := by
      intro k hk
      rw [← AList.lookup_isSome] at hk ⊢
      rw [hs.repros_eq]
      split
      · rfl
      · exact hk
    rw [hs.managers_eq] at hm
    split at hm
    · cases hm
      obtain rfl | hk := mem_cons.mp hk
      · rw [← AList.lookup_isSome, hs.repros_eq, if_pos rfl]
        rfl
      · exact hmono k (h.own_stored name mgr k hs.mgr_eq hk)
    · exact hmono k (h.own_stored n m k hm hk)

theorem ReproState.of_same (h : ReproState hash st)
    (hrepros : st'.repros = st.repros) (hseq : st'.reproSeq = st.reproSeq)
    (hmgrs : ∀ n m', st'.managers.lookup n = some m' →
      m'.reproSeq ≤ st.reproSeq ∧ ∀ k ∈ m'.ownRepros, k ∈ st.repros) : ReproState hash st' where
  key_eq := by rw [hrepros]; exact h.key_eq
  parses := by rw [hrepros]; exact h.parses
  seq_le := by rw [hrepros, hseq]; exact h.seq_le
  cursor_le n m hm := by rw [hseq]; exact (hmgrs n m hm).1
  own_stored n m k hm hk := by rw [hrepros]; exact (hmgrs n m hm).2 k hk

theorem addInputs_repros (hash : Bytes → Key) (st : State) (name : Name) (inputs : List Bytes) :
    (st.addInputs hash name inputs).repros = st.repros ∧
      (st.addInputs hash name inputs).reproSeq = st.reproSeq :=
  addInputs_induction hash name (P := fun s => s.repros = st.repros ∧ s.reproSeq = st.reproSeq) inputs
    ⟨rfl, rfl⟩ ⟨rfl, rfl⟩
    fun _ _ _ htook _ hs => ⟨htook.repros_eq.trans hs.1, htook.reproSeq_eq.trans hs.2⟩

theorem upload_repros (hash : Bytes → Key) (st : State) (name : Name) (add : List Bytes)
    (del : List Key) : (st.upload hash name add del).repros = st.repros ∧
    (st.upload hash name add del).reproSeq = st.reproSeq := by
  have hdel : (st.deletePrograms name del).repros = st.repros ∧
      (st.deletePrograms name del).reproSeq = st.reproSeq := by
    unfold deletePrograms
    split
    · exact ⟨rfl, rfl⟩
    · simp
  obtain ⟨hrepros, hseq⟩ := addInputs_repros hash (st.deletePrograms name del) name add
  exact ⟨hrepros.trans hdel.1, hseq.trans hdel.2⟩

theorem reset_repros (h : ReproState hash st) (name : Name) (domain : Bytes) (fresh : Bool)
    (calls : List Bytes) : (st.reset hash name domain fresh calls).repros = st.repros ∧
    (st.reset hash name domain fresh calls).reproSeq = st.reproSeq ∧
    ∀ n m', (st.reset hash name domain fresh calls).managers.lookup n = some m' →
    m'.reproSeq ≤ st.reproSeq ∧ ∀ k ∈ m'.ownRepros, k ∈ st.repros := by
  -- a manager that is created has no reproducers, and its cursor is at the last number
  have hcreated : ∃ s : State,
      s = (if st.managers.lookup name = none then st.createManager hash name .missing else st) ∧
      s.repros = st.repros ∧ s.reproSeq = st.reproSeq ∧
      ∀ n m', s.managers.lookup n = some m' →
        m'.reproSeq ≤ st.reproSeq ∧ ∀ k ∈ m'.ownRepros, k ∈ st.repros := by
    refine ⟨_, rfl, ?_⟩
    split
    · refine ⟨rfl, by simp [createManager, ManagerFiles.missing], fun n m' hm => ?_⟩
      simp only [createManager, ManagerFiles.missing, if_true, lookup_insert_ite] at hm
      split at hm
      · cases hm
        exact ⟨le_refl _, by simp⟩
      · exact ⟨h.cursor_le n m' hm, fun k hk => h.own_stored n m' k hm hk⟩
    · exact ⟨rfl, rfl, fun n m' hm =>
        ⟨h.cursor_le n m' hm, fun k hk => h.own_stored n m' k hm hk⟩⟩
  obtain ⟨s, hs, hrepros, hseq, hmgrs⟩ := hcreated
  unfold reset
  rw [← hs]
  refine ⟨by simpa using hrepros, by simpa using hseq, fun n m' hm => ?_⟩
  simp only [lookup_modifyManager] at hm
  split at hm
  · obtain ⟨m, hm0, rfl⟩ := map_eq_some_iff.mp hm
    obtain ⟨hle, hown⟩ := hmgrs name m hm0
    refine ⟨?_, hown⟩
    split
    · exact le_of_eq hseq
    · exact hle
  · exact hmgrs n m' hm

theorem ReproState.connect (h : ReproState hash st)
    (name : Name) (domain : Bytes) (fresh : Bool) (calls corpus : List Bytes) :
    ReproState hash (st.connect hash name domain fresh calls corpus) := by
  obtain ⟨hrepros, hseq, hmgrs⟩ := reset_repros h name domain fresh calls
  obtain ⟨hadd, haddSeq⟩ :=
    addInputs_repros hash (st.reset hash name domain fresh calls) name corpus
  rw [connect_eq]
  refine h.of_same (hadd.trans hrepros) (haddSeq.trans hseq) fun n m' hm => ?_
  obtain ⟨c, hlook⟩ := lookup_addInputs hash (st.reset hash name domain fresh calls) name n corpus
  rw [State.purgeCorpus_managers, hlook] at hm
  obtain ⟨m, hm0, rfl⟩ := map_eq_some_iff.mp hm
  exact hmgrs n m hm0

/-- The part of a manager that matters for reproducers. -/
def Manager.reproView (m : Manager) : ℕ × List Key × List Bytes × Bool :=
  (m.reproSeq, m.ownRepros, m.calls, m.connected)

theorem reproView_inj {m m' : Manager} (h : m.reproView = m'.reproView) : m.reproSeq = m'.reproSeq ∧
    m.ownRepros = m'.ownRepros ∧ m.calls = m'.calls ∧ m.connected = m'.connected := by
  simpa [reproView] using h

theorem sync_repros (hash : Bytes → Key) (hb : Bounded st) (name : Name) (add : List Bytes)
    (del : List Key) (o : Orders) : (st.sync hash name add del o).1.repros = st.repros ∧
    (st.sync hash name add del o).1.reproSeq = st.reproSeq ∧
    ∀ n, ((st.sync hash name add del o).1.managers.lookup n).map reproView =
    (st.managers.lookup n).map reproView := by
  have hup : Bounded (st.upload hash name add del) := hb.upload name add del
  obtain ⟨hrepros, hseq⟩ := upload_repros hash st name add del
  obtain ⟨-, heq⟩ | ⟨mgr, st', d, cursor, hmgr, -, heq, hd⟩ := sync_cases hup o
  · rw [heq]
    exact ⟨rfl, rfl, fun _ => rfl⟩
  · rw [heq]
    refine ⟨hd.repros_eq.trans hrepros, hd.reproSeq_eq.trans hseq, fun n => ?_⟩
    obtain ⟨c, hlook⟩ := lookup_upload hash st name n add del
    rw [hd.managers_eq]
    split
    · subst n
      rw [hmgr, eq_comm, map_eq_some_iff] at hlook
      obtain ⟨m, hm, rfl⟩ := hlook
      rw [hm]
      rfl
    · rw [hlook, Option.map_map]
      rfl

theorem pendingRepro_unconnected
    (h : ∀ mgr, st.managers.lookup name = some mgr → mgr.connected = false)
    (order : RecordOrder ℕ) :
    st.pendingRepro name order = (st, .error (.unconnected name)) := by
  unfold pendingRepro
  cases hmgr : st.managers.lookup name with
  | none => rfl
  | some mgr => simp [h mgr hmgr]

theorem connected_or_not (st : State) (name : Name) :
    (∃ mgr, st.managers.lookup name = some mgr ∧ mgr.connected) ∨
      ∀ mgr, st.managers.lookup name = some mgr → mgr.connected = false := by
  cases hmgr : st.managers.lookup name with
  | none => exact .inr nofun
  | some mgr =>
    cases hconn : mgr.connected with
    | true => exact .inl ⟨mgr, rfl, hconn⟩
    | false =>
      right
      intro m hm
      cases hm
      exact hconn

theorem ReproState.pendingRepro (h : ReproState hash st) (name : Name)
    (order : RecordOrder ℕ) : ReproState hash (st.pendingRepro name order).1 := by
  obtain ⟨mgr, hmgr, hconn⟩ | hoff := connected_or_not st name
  · obtain ⟨res, cursor, -, hrepros, hseq, hmgrs, -, hnone, hsome⟩ :=
      pendingRepro_spec h hmgr hconn order
    have hle : cursor ≤ st.reproSeq := by
      cases res with
      | none => exact le_of_eq (hnone rfl).1
      | some rec =>
        obtain ⟨rfl, ⟨k, hk, -⟩, -⟩ := hsome rec rfl
        exact h.seq_le k rec hk
    refine h.of_same hrepros hseq fun n m' hm => ?_
    rw [hmgrs] at hm
    split at hm
    · cases hm
      exact ⟨hle, fun k hk => h.own_stored name mgr k hmgr hk⟩
    · exact ⟨h.cursor_le n m' hm, fun k hk => h.own_stored n m' k hm hk⟩
  · rw [pendingRepro_unconnected hoff]
    exact h

theorem ReproState.serve (h : ReproState hash st)
    (hb : Bounded st) (req : Request) : ReproState hash (st.serve hash req).1 := by
  cases req with
  | connect name domain fresh calls corpus => exact h.connect name domain fresh calls corpus
  | sync name add del o =>
    obtain ⟨hrepros, hseq, hmgrs⟩ := sync_repros hash hb name add del o
    refine h.of_same hrepros hseq fun n m' hm => ?_
    have heq := hmgrs n
    change (st.sync hash name add del o).1.managers.lookup n = some m' at hm
    rw [hm, map_some, eq_comm, map_eq_some_iff] at heq
    obtain ⟨m, hm0, heq⟩ := heq
    obtain ⟨hr, ho, -⟩ := reproView_inj heq
    rw [← hr, ← ho]
    exact ⟨h.cursor_le n m hm0, fun k hk => h.own_stored n m k hm0 hk⟩
  | addRepro name repro =>
    obtain ⟨heq, -⟩ | ⟨mgr, hs⟩ := addRepro_cases hash st name repro
    · change ReproState hash (st.addRepro hash name repro).1
      rw [heq]
      exact h
    · exact h.stores hs
  | pendingRepro name order => exact h.pendingRepro name order

theorem ReproState.make (hash : Bytes → Key) (dir : Dir) : ReproState hash (make hash dir) := by
  have hkeep : ∀ k r, (loadDB hash true dir.repros).1.lookup k = some r →
      hash r.val = k ∧ ∃ p, callSet r.val = .ok p := by
    intro k r hr
    have hkeep := (loadDB_spec hash true _ hr).2.2 rfl
    unfold keepsProgram at hkeep
    split at hkeep
    · cases hkeep
    · rename_i hcalls
      simp only [Bool.and_eq_true, decide_eq_true_eq] at hkeep
      exact ⟨hkeep.2, _, hcalls⟩
  have hcreate : ∀ st, ∀ e ∈ dir.managers, ReproState hash st →
      ReproState hash (st.createManager hash e.1 e.2) := by
    intro st e _ hst
    refine ⟨hst.key_eq, hst.parses,
      fun k r hr => le_trans (hst.seq_le k r hr) (le_max_left _ _), fun n m hm => ?_,
      fun n m k hm hk => ?_⟩
    · simp only [createManager, lookup_insert_ite] at hm ⊢
      split at hm
      · cases hm
        exact le_max_right _ _
      · exact le_trans (hst.cursor_le n m hm) (le_max_left _ _)
    · simp only [createManager, lookup_insert_ite] at hm
      split at hm
      · cases hm
        cases hk
      · exact hst.own_stored n m k hm hk
  obtain ⟨st, hst, heq⟩ := make_induction hash (P := ReproState hash) dir
    ⟨fun k r hr => (hkeep k r hr).1, fun k r hr => (hkeep k r hr).2,
      fun k r hr => (loadDB_spec hash true _ hr).2.1, by simp, by simp⟩ hcreate
  rw [heq]
  exact hst.of_same rfl rfl fun n m hm =>
    ⟨hst.cursor_le n m hm, fun k hk => hst.own_stored n m k hm hk⟩

/-! ### One request, seen by a manager -/

def Request.connects (name : Name) : Request → Prop
  | .connect n .. => n = name
  | _ => False

/-- What a request means for the reproducers of a manager. -/
inductive ReproStep (hash : Bytes → Key) (name : Name) (st : State) : Request → State → Prop where
  | other {req : Request} {st' : State} (hrepros : st'.repros = st.repros)
      (hseq : st'.reproSeq = st.reproSeq)
      (hview : (st'.managers.lookup name).map reproView =
        (st.managers.lookup name).map reproView)
      (hpoll : ∀ order, req ≠ .pendingRepro name order)
      (hadd : ∀ repro, req = .addRepro name repro →
        ∀ mgr p, st.managers.lookup name = some mgr → mgr.connected →
          callSet repro = .ok p → hash repro ∈ st.repros) :
      ReproStep hash name st req st'
  | stored {n : Name} {repro : Bytes} {mgr : Manager} {st' : State}
      (hs : Stores hash n repro mgr st st') : ReproStep hash name st (.addRepro n repro) st'
  | polled (order : RecordOrder ℕ) :
      ReproStep hash name st (.pendingRepro name order) (st.pendingRepro name order).1

theorem serve_reproStep (h : ReproState hash st) (hb : Bounded st) {req : Request}
    (hreq : ¬ req.connects name) : ReproStep hash name st req (st.serve hash req).1 := by
  cases req with
  | connect n domain fresh calls corpus =>
    have hn : name ≠ n := fun heq => hreq heq.symm
    obtain ⟨hrepros, hseq, -⟩ := reset_repros h n domain fresh calls
    obtain ⟨hadd, haddSeq⟩ := addInputs_repros hash (st.reset hash n domain fresh calls) n corpus
    refine .other (hadd.trans hrepros) (haddSeq.trans hseq) ?_ (by simp) (by simp)
    obtain ⟨c, hlook⟩ := lookup_addInputs hash (st.reset hash n domain fresh calls) n name corpus
    change ((st.connect hash n domain fresh calls corpus).managers.lookup name).map _ = _
    have hkeep : (st.reset hash n domain fresh calls).managers.lookup name =
        st.managers.lookup name := by
      simp only [reset, lookup_modifyManager, if_neg hn]
      split
      · simp only [createManager, lookup_insert_ite, if_neg hn]
      · rfl
    rw [connect_eq, State.purgeCorpus_managers, hlook, hkeep, Option.map_map]
    rfl
  | sync n add del o =>
    obtain ⟨hrepros, hseq, hmgrs⟩ := sync_repros hash hb n add del o
    exact .other hrepros hseq (hmgrs name) (by simp) (by simp)
  | addRepro n repro =>
    obtain ⟨heq, hthere⟩ | ⟨mgr, hs⟩ := addRepro_cases hash st n repro
    · have hsame : (st.serve hash (.addRepro n repro)).1 = st := heq
      rw [hsame]
      refine .other rfl rfl rfl (by simp) fun repro' heq' => ?_
      cases heq'
      exact hthere
    · exact .stored hs
  | pendingRepro n order =>
    by_cases hn : n = name
    · subst n
      exact .polled order
    · have hne : ∀ order', Request.pendingRepro n order ≠ .pendingRepro name order' := by
        intro order' heq
        cases heq
        exact hn rfl
      obtain ⟨mgr, hmgr, hconn⟩ | hoff := connected_or_not st n
      · obtain ⟨res, cursor, -, hrepros, hseq, hmgrs, -⟩ := pendingRepro_spec h hmgr hconn order
        refine .other hrepros hseq ?_ hne (by simp)
        change ((st.pendingRepro n order).1.managers.lookup name).map _ = _
        rw [hmgrs, if_neg fun heq => hn heq.symm]
      · have hsame : (st.serve hash (.pendingRepro n order)).1 = st := by
          simp only [serve, pendingRepro_unconnected hoff order]
        rw [hsame]
        exact .other rfl rfl rfl hne (by simp)

theorem addInputs_seq_le (hash : Bytes → Key) (st : State) (name : Name) (inputs : List Bytes) :
    (st.addInputs hash name inputs).corpusSeq ≤ st.corpusSeq + 1 :=
  addInputs_induction hash name (P := fun s => s.corpusSeq ≤ st.corpusSeq + 1) inputs (le_succ _)
    le_rfl fun _ _ _ htook _ hle => htook.corpusSeq_eq ▸ hle

theorem serve_seq_le (h : ReproState hash st) (hb : Bounded st) (req : Request) :
    (st.serve hash req).1.corpusSeq ≤ st.corpusSeq + 1 ∧
      (st.serve hash req).1.reproSeq ≤ st.reproSeq + 1 := by
  cases req with
  | connect name domain fresh calls corpus =>
    have hreset : (st.reset hash name domain fresh calls).corpusSeq = st.corpusSeq := by
      unfold reset
      split <;> simp [createManager, ManagerFiles.missing]
    have hseq := (reset_repros h name domain fresh calls).2.1
    have hadd := addInputs_seq_le hash (st.reset hash name domain fresh calls) name corpus
    have hrepro := (addInputs_repros hash (st.reset hash name domain fresh calls) name corpus).2
    exact ⟨hreset ▸ hadd, le_succ_of_le (hrepro.trans hseq).le⟩
  | sync name add del o =>
    refine ⟨?_, le_succ_of_le (sync_repros hash hb name add del o).2.1.le⟩
    change (st.sync hash name add del o).1.corpusSeq ≤ _
    obtain ⟨-, heq⟩ | ⟨_, st', d, cursor, -, -, heq, hd⟩ := sync_cases (hb.upload name add del) o
    · rw [heq]
      exact le_succ _
    · have hdel : (st.deletePrograms name del).corpusSeq = st.corpusSeq := by
        unfold deletePrograms
        split <;> simp
      rw [heq, hd.corpusSeq_eq]
      exact hdel ▸ addInputs_seq_le hash (st.deletePrograms name del) name add
  | addRepro name repro =>
    refine ⟨le_succ_of_le (addRepro_sameCorpus hash st name repro).corpusSeq_eq.le, ?_⟩
    change (st.addRepro hash name repro).1.reproSeq ≤ _
    obtain ⟨heq, -⟩ | ⟨mgr, hs⟩ := addRepro_cases hash st name repro
    · rw [heq]
      exact le_succ _
    · exact hs.reproSeq_eq.le
  | pendingRepro name order =>
    refine ⟨le_succ_of_le (pendingRepro_sameCorpus st name order).corpusSeq_eq.le, ?_⟩
    change (st.pendingRepro name order).1.reproSeq ≤ _
    obtain ⟨mgr, hmgr, hconn⟩ | hoff := connected_or_not st name
    · obtain ⟨_, _, -, -, hseq, -⟩ := pendingRepro_spec h hmgr hconn order
      exact le_succ_of_le hseq.le
    · rw [pendingRepro_unconnected hoff]
      exact le_succ _

/-- A 64-bit counter does not wrap as long as what the directory has and the number of requests
add up to less than 2 ^ 64. -/
theorem serveAll_seq_le (h : ReproState hash st) (hb : Bounded st) (reqs : List Request) :
    (st.serveAll hash reqs).corpusSeq ≤ st.corpusSeq + reqs.length ∧
      (st.serveAll hash reqs).reproSeq ≤ st.reproSeq + reqs.length := by
  induction reqs generalizing st with
  | nil => exact ⟨le_rfl, le_rfl⟩
  | cons req reqs ih =>
    have hone := serve_seq_le h hb req
    have hrest := ih (h.serve hb req) (hb.serve req)
    rw [length_cons]
    exact ⟨hrest.1.trans (by omega), hrest.2.trans (by omega)⟩

/-- From any directory and after any requests, no stored program makes a request of a connected
manager fail. -/
theorem requests_answered (hash : Bytes → Key) (dir : Dir) (reqs : List Request) (name : Name) :
    let st := (make hash dir).serveAll hash reqs
    (∀ mgr, st.managers.lookup name = some mgr → mgr.connected = false) ∨
      (∀ add del o, ∃ st' d, st.sync hash name add del o = (st', .ok d)) ∧
      ∀ order, ∃ st' rec, st.pendingRepro name order = (st', .ok rec) := by
  intro st
  have h := serveAll_induction (P := fun st => Bounded st ∧ ReproState hash st)
    ⟨.make hash dir, .make hash dir⟩ reqs fun _ req h => ⟨h.1.serve req, h.2.serve h.1 req⟩
  obtain ⟨mgr, hmgr, hconn⟩ | hoff := connected_or_not st name
  · refine .inr ⟨fun add del o => ?_, fun order => ?_⟩
    · obtain ⟨hoff, -⟩ | ⟨_, st', d, _, -, -, heq, -⟩ := sync_cases (h.1.upload name add del) o
      · simp [hoff mgr hmgr] at hconn
      · exact ⟨st', _, heq⟩
    · obtain ⟨res, _, hres, -⟩ := pendingRepro_spec h.2 hmgr hconn order
      exact ⟨_, res, Prod.ext rfl hres⟩
  · exact .inl hoff

end Brf.Hub
