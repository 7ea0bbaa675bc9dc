import Brf.Verification.Hub.Repros

/-! # Reproducers over a run

A manager is followed from its connect on: which reproducers it has sent, which it was given,
and how far its cursor is. -/

namespace Brf.Hub

open Brf.Lib Brf.Db List Option Nat

/-! ### The history of a manager -/

/-- The reproducers a manager passes to `AddRepro`. -/
def submitted (name : Name) (reqs : List Request) : List Bytes :=
  reqs.filterMap fun
    | .addRepro n repro => if n = name then some repro else none
    | _ => none

/-- The reproducer a request returns to a manager. -/
def answer (name : Name) (st : State) : Request → Option (Record ℕ)
  | .pendingRepro n order =>
    if n = name then
      match (st.pendingRepro n order).2 with
      | .ok res => res
      | .error _ => none
    else none
  | _ => none

/-- The reproducers `PendingRepro` returns to a manager. -/
def polled (hash : Bytes → Key) (name : Name) : State → List Request → List (Record ℕ)
  | _, [] => []
  | st, req :: reqs => (answer name st req).toList ++ polled hash name (st.serve hash req).1 reqs

theorem submitted_cons (name : Name) (req : Request) (reqs : List Request) :
    submitted name (req :: reqs) = submitted name [req] ++ submitted name reqs := by
  rw [submitted, submitted, submitted, ← filterMap_append]
  rfl

theorem submitted_self (name : Name) (repro : Bytes) :
    submitted name [.addRepro name repro] = [repro] := by
  simp [submitted]

variable {n : Name} {name : Name}

theorem submitted_other (h : n ≠ name) (repro : Bytes) :
    submitted name [.addRepro n repro] = [] := by
  simp [submitted, h]

variable {req : Request}

theorem eq_addRepro_of_mem_submitted {v : Bytes}
    (h : v ∈ submitted name [req]) : req = .addRepro name v := by
  cases req with
  | addRepro n repro =>
    by_cases hn : n = name
    · subst n
      rw [submitted_self, mem_singleton] at h
      rw [h]
    · rw [submitted_other hn] at h
      cases h
  | connect | sync | pendingRepro => cases h

/-- What is known about a manager that was given `rets` and has sent `subs`, when the last
number at its connect was `seq0` and its calls are those of `mgr0`. -/
structure Track (name : Name) (mgr0 : Manager) (seq0 : ℕ) (st : State) (mgr : Manager)
    (rets : List (Record ℕ)) (subs : List Bytes) : Prop where
  mgr_eq : st.managers.lookup name = some mgr
  connected : mgr.connected
  calls_eq : mgr.calls = mgr0.calls
  sorted : rets.Pairwise fun a b => a.seq < b.seq
  le_cursor : ∀ r ∈ rets, r.seq ≤ mgr.reproSeq
  supported : ∀ r ∈ rets, mgr0.supports r.val
  stored : ∀ r ∈ rets, ∃ k, st.repros.lookup k = some r
  seq_inj : ∀ k k' r r', st.repros.lookup k = some r → st.repros.lookup k' = some r' →
    seq0 < r.seq → r.seq = r'.seq → k = k'
  given : ∀ k r, st.repros.lookup k = some r → seq0 < r.seq → mgr0.supports r.val →
    r.val ∉ subs → r.seq ≤ mgr.reproSeq → r ∈ rets
  own : ∀ k r, st.repros.lookup k = some r → seq0 < r.seq → k ∈ mgr.ownRepros → r.val ∈ subs

variable {m : Manager}

theorem supports_congr {m' : Manager} (h : m.calls = m'.calls) (prog : Bytes) :
    m.supports prog = m'.supports prog := by
  simp only [Manager.supports, h]

namespace Track

variable {hash : Bytes → Key} {name : Name} {mgr0 mgr : Manager} {seq0 : ℕ} {st st' : State}
  {rets : List (Record ℕ)} {subs : List Bytes}

theorem start (h : ReproState hash st) (hmgr : st.managers.lookup name = some mgr)
    (hconn : mgr.connected) : Track name mgr st.reproSeq st mgr [] [] where
  mgr_eq := hmgr
  connected := hconn
  calls_eq := rfl
  sorted := .nil
  le_cursor := nofun
  supported := nofun
  stored := nofun
  seq_inj k _ r _ hr _ hlt := absurd (h.seq_le k r hr) (not_le.mpr hlt)
  given k r hr hlt := absurd (h.seq_le k r hr) (not_le.mpr hlt)
  own k r hr hlt := absurd (h.seq_le k r hr) (not_le.mpr hlt)

theorem other (h : Track name mgr0 seq0 st mgr rets subs) (hrepros : st'.repros = st.repros)
    (hview : (st'.managers.lookup name).map Manager.reproView =
      (st.managers.lookup name).map Manager.reproView) (more : List Bytes) :
    ∃ mgr', mgr'.reproView = mgr.reproView ∧
      Track name mgr0 seq0 st' mgr' rets (subs ++ more) := by
  rw [h.mgr_eq, map_some, map_eq_some_iff] at hview
  obtain ⟨mgr', hmgr', hview⟩ := hview
  obtain ⟨hseq, hown, hcalls, hconn⟩ := reproView_inj hview
  refine ⟨mgr', hview, hmgr', hconn.trans h.connected, hcalls.trans h.calls_eq, h.sorted, ?_,
    h.supported, ?_, ?_, ?_, ?_⟩
  · rw [hseq]
    exact h.le_cursor
  · rw [hrepros]
    exact h.stored
  · rw [hrepros]
    exact h.seq_inj
  · rw [hrepros, hseq]
    intro k r hr hlt hsup hsub
    exact h.given k r hr hlt hsup fun hmem => hsub (mem_append_left _ hmem)
  · rw [hrepros, hown]
    intro k r hr hlt hk
    exact mem_append_left _ (h.own k r hr hlt hk)

variable {repro : Bytes} {k : Key} {r : Record ℕ}

theorem stores_cases (hs : Stores hash n repro m st st')
    (hr : st'.repros.lookup k = some r) : (k = hash repro ∧ r = ⟨repro, st.reproSeq + 1⟩) ∨
    (k ≠ hash repro ∧ st.repros.lookup k = some r) := by
  rw [hs.repros_eq] at hr
  split at hr
  · rename_i hk
    exact .inl ⟨hk, (some.inj hr).symm⟩
  · rename_i hk
    exact .inr ⟨hk, hr⟩

theorem lookup_of_stores (hs : Stores hash n repro m st st')
    (hr : st.repros.lookup k = some r) : st'.repros.lookup k = some r := by
  rw [hs.repros_eq, if_neg]
  · exact hr
  · rintro rfl
    rw [hs.new] at hr
    cases hr

section

variable (h : Track name mgr0 seq0 st mgr rets subs)

include h

section

variable (hst : ReproState hash st)

include hst

theorem seq_inj_of_stores (hs : Stores hash n repro m st st') (k k' : Key)
    (r r' : Record ℕ) (hr : st'.repros.lookup k = some r) (hr' : st'.repros.lookup k' = some r')
    (hlt : seq0 < r.seq) (heq : r.seq = r'.seq) : k = k' := by
  obtain ⟨rfl, rfl⟩ | ⟨-, hr⟩ := stores_cases hs hr
  · obtain ⟨rfl, -⟩ | ⟨-, hr'⟩ := stores_cases hs hr'
    · rfl
    · have := hst.seq_le k' r' hr'
      simp only at heq
      omega
  · obtain ⟨rfl, rfl⟩ | ⟨-, hr'⟩ := stores_cases hs hr'
    · have := hst.seq_le k r hr
      simp only at heq
      omega
    · exact h.seq_inj k k' r r' hr hr' hlt heq

theorem storedByOther (hs : Stores hash n repro m st st') (hn : n ≠ name) :
    Track name mgr0 seq0 st' mgr rets subs where
  mgr_eq := by rw [hs.managers_eq, if_neg fun heq => hn heq.symm]; exact h.mgr_eq
  connected := h.connected
  calls_eq := h.calls_eq
  sorted := h.sorted
  le_cursor := h.le_cursor
  supported := h.supported
  stored r hr := (h.stored r hr).imp fun _ hk => lookup_of_stores hs hk
  seq_inj := h.seq_inj_of_stores hst hs
  given := by
    intro k r hr hlt hsup hsub hle
    obtain ⟨rfl, rfl⟩ | ⟨-, hr⟩ := stores_cases hs hr
    · have := hst.cursor_le name mgr h.mgr_eq
      simp only at hle
      omega
    · exact h.given k r hr hlt hsup hsub hle
  own := by
    intro k r hr hlt hk
    obtain ⟨rfl, rfl⟩ | ⟨-, hr⟩ := stores_cases hs hr
    · -- what is marked as its own was there before
      have hthere := AList.lookup_isSome.mpr (hst.own_stored name mgr _ h.mgr_eq hk)
      rw [hs.new] at hthere
      cases hthere
    · exact h.own k r hr hlt hk

theorem storedBySelf
    (hs : Stores hash name repro m st st') : ∃ mgr', mgr'.ownRepros = hash repro :: mgr.ownRepros ∧
    mgr.reproSeq ≤ mgr'.reproSeq ∧ Track name mgr0 seq0 st' mgr' rets (subs ++ [repro]) := by
  have hm : m = mgr := by
    have heq := hs.mgr_eq
    rw [h.mgr_eq] at heq
    exact (some.inj heq).symm
  subst hm
  refine ⟨_, rfl, ?_, (hs.managers_eq name).trans (if_pos rfl), h.connected, h.calls_eq, h.sorted,
    ?_, h.supported, fun r hr => (h.stored r hr).imp fun _ hk => lookup_of_stores hs hk,
    h.seq_inj_of_stores hst hs, ?_, ?_⟩
  · simp only
    split <;> omega
  · intro r hr
    have := h.le_cursor r hr
    simp only
    split <;> omega
  · intro k r hr hlt hsup hsub hle
    rw [mem_append, not_or, mem_singleton] at hsub
    obtain ⟨rfl, rfl⟩ | ⟨-, hr⟩ := stores_cases hs hr
    · exact absurd rfl hsub.2
    · -- the cursor is moved only when it is at the last number
      have hseq := hst.seq_le k r hr
      refine h.given k r hr hlt hsup hsub.1 ?_
      split at hle <;> omega
  · intro k r hr hlt hk
    obtain ⟨rfl, rfl⟩ | ⟨hne, hr⟩ := stores_cases hs hr
    · exact mem_append_right _ mem_cons_self
    · exact mem_append_left _ (h.own k r hr hlt ((mem_cons.mp hk).resolve_left hne))

theorem polled (order : RecordOrder ℕ) :
    ∃ mgr', mgr'.ownRepros = mgr.ownRepros ∧ mgr.reproSeq ≤ mgr'.reproSeq ∧
      Track name mgr0 seq0 (st.pendingRepro name order).1 mgr'
        (rets ++ (answer name st (.pendingRepro name order)).toList) subs := by
  obtain ⟨res, cursor, hres, hrepros, -, hmgrs, hle, hnone, hsome⟩ :=
    pendingRepro_spec hst h.mgr_eq h.connected order
  have hans : answer name st (.pendingRepro name order) = res := by simp [answer, hres]
  have htakes : ∀ {k r}, st.repros.lookup k = some r → seq0 < r.seq →
      mgr0.supports r.val → r.val ∉ subs → mgr.reproSeq < r.seq →
        mgr.takes (k, r) := by
    intro k r hr hlt hsup hsub hgt
    refine (takes_iff mgr _).mpr ⟨hgt, fun hk => hsub (h.own k r hr hlt hk), ?_⟩
    rw [supports_congr h.calls_eq]
    exact hsup
  rw [hans]
  refine ⟨{ mgr with reproSeq := cursor }, rfl, hle, (hmgrs name).trans (if_pos rfl), h.connected,
    h.calls_eq, ?_, ?_, ?_, ?_, ?_, ?_, ?_⟩
  · refine pairwise_append.mpr ⟨h.sorted, by cases res <;> simp, fun a ha b hb => ?_⟩
    obtain rfl := mem_toList.mp hb
    obtain ⟨-, ⟨k, -, htake⟩, -⟩ := hsome b rfl
    exact lt_of_le_of_lt (h.le_cursor a ha) ((takes_iff mgr _).mp htake).1
  · intro r hr
    obtain hr | hr := mem_append.mp hr
    · exact le_trans (h.le_cursor r hr) hle
    · obtain rfl := mem_toList.mp hr
      exact le_of_eq (hsome r rfl).1.symm
  · intro r hr
    obtain hr | hr := mem_append.mp hr
    · exact h.supported r hr
    · obtain rfl := mem_toList.mp hr
      obtain ⟨-, ⟨k, -, htake⟩, -⟩ := hsome r rfl
      rw [← supports_congr h.calls_eq]
      exact ((takes_iff mgr _).mp htake).2.2
  · rw [hrepros]
    intro r hr
    obtain hr | hr := mem_append.mp hr
    · exact h.stored r hr
    · obtain rfl := mem_toList.mp hr
      obtain ⟨-, ⟨k, hk, -⟩, -⟩ := hsome r rfl
      exact ⟨k, hk⟩
  · rw [hrepros]
    exact h.seq_inj
  · rw [hrepros]
    intro k r hr hlt hsup hsub hcur
    by_cases hold : r.seq ≤ mgr.reproSeq
    · exact mem_append_left _ (h.given k r hr hlt hsup hsub hold)
    · have htake := htakes hr hlt hsup hsub (not_le.mp hold)
      cases res with
      | none =>
        rw [(hnone rfl).2 k r hr] at htake
        cases htake
      | some rec =>
        -- the record with the least number that can be given is the one that is given
        obtain ⟨rfl, ⟨k', hk', -⟩, hmin⟩ := hsome rec rfl
        have heq : r.seq = rec.seq := le_antisymm hcur (hmin k r hr htake)
        obtain rfl := h.seq_inj k k' r rec hr hk' hlt heq
        rw [hk'] at hr
        cases hr
        exact mem_append_right _ mem_cons_self
  · rw [hrepros]
    exact h.own

end

end

end Track

/-- What keeps a manager from being given what it has sent itself. -/
structure SentApart (hash : Bytes → Key) (mgr0 : Manager) (st : State) (mgr : Manager)
    (subs : List Bytes) : Prop where
  stored : ∀ v ∈ subs, ∀ p, callSet v = .ok p → hash v ∈ st.repros
  apart : ∀ v ∈ subs, ∀ r, st.repros.lookup (hash v) = some r → r.val = v →
    mgr0.supports v → hash v ∈ mgr.ownRepros ∨ r.seq ≤ mgr.reproSeq

/-- A manager sends a reproducer it supports, and that another manager has stored, only after
its cursor has passed it. -/
def Request.apart (hash : Bytes → Key) (name : Name) (st : State) : Request → Prop
  | .addRepro n v => n = name → ∀ mgr r, st.managers.lookup name = some mgr →
      st.repros.lookup (hash v) = some r → r.val = v → mgr.supports v →
        hash v ∈ mgr.ownRepros ∨ r.seq ≤ mgr.reproSeq
  | _ => True

def Apart (hash : Bytes → Key) (name : Name) : State → List Request → Prop
  | _, [] => True
  | st, req :: reqs => req.apart hash name st ∧ Apart hash name (st.serve hash req).1 reqs

variable {hash : Bytes → Key} {mgr0 mgr mgr' : Manager} {seq0 : ℕ} {st st' : State}
  {rets : List (Record ℕ)} {subs subs' : List Bytes}

namespace SentApart

variable (h : SentApart hash mgr0 st mgr subs)

include h

theorem append (h' : SentApart hash mgr0 st mgr subs') :
    SentApart hash mgr0 st mgr (subs ++ subs') where
  stored := forall_mem_append.mpr ⟨h.stored, h'.stored⟩
  apart := forall_mem_append.mpr ⟨h.apart, h'.apart⟩

theorem mono (hmem : ∀ k ∈ st.repros, k ∈ st'.repros)
    (hold : ∀ v ∈ subs, ∀ r, st'.repros.lookup (hash v) = some r → r.val = v →
      st.repros.lookup (hash v) = some r)
    (hown : mgr.ownRepros ⊆ mgr'.ownRepros) (hcur : mgr.reproSeq ≤ mgr'.reproSeq) :
    SentApart hash mgr0 st' mgr' subs where
  stored v hv p hp := hmem _ (h.stored v hv p hp)
  apart v hv r hr hval hsup :=
    (h.apart v hv r (hold v hv r hr hval) hval hsup).imp (hown ·) (le_trans · hcur)

theorem of_repros_eq (hrepros : st'.repros = st.repros) (hown : mgr'.ownRepros = mgr.ownRepros)
    (hcur : mgr.reproSeq ≤ mgr'.reproSeq) : SentApart hash mgr0 st' mgr' subs :=
  h.mono (fun _ => hrepros ▸ id) (fun _ _ _ hr _ => hrepros ▸ hr) (hown ▸ List.Subset.refl _) hcur

theorem stores {repro : Bytes} (hs : Stores hash n repro m st st')
    (hown : mgr.ownRepros ⊆ mgr'.ownRepros) (hcur : mgr.reproSeq ≤ mgr'.reproSeq) :
    SentApart hash mgr0 st' mgr' subs := by
  refine h.mono (fun k hk => ?_) (fun v hv r hr hval => ?_) hown hcur
  · obtain ⟨r, hr⟩ := isSome_iff_exists.mp (AList.lookup_isSome.mpr hk)
    exact AList.lookup_isSome.mp (by rw [Track.lookup_of_stores hs hr]; rfl)
  · -- what was sent before and parses is stored, so it is not what is stored now
    obtain ⟨hk, rfl⟩ | ⟨-, hr⟩ := Track.stores_cases hs hr
    · subst hval
      obtain ⟨p, hp⟩ := hs.parses
      have hthere := AList.lookup_isSome.mpr (h.stored repro hv p hp)
      rw [hs.new] at hthere
      cases hthere
    · exact hr

end SentApart

theorem Track.serve (h : Track name mgr0 seq0 st mgr rets subs) (hst : ReproState hash st)
    (hb : Bounded st) (hreq : ¬ req.connects name) :
    ∃ mgr', Track name mgr0 seq0 (st.serve hash req).1 mgr'
        (rets ++ (answer name st req).toList) (subs ++ submitted name [req]) ∧
      (SentApart hash mgr0 st mgr subs → req.apart hash name st →
        SentApart hash mgr0 (st.serve hash req).1 mgr' (subs ++ submitted name [req])) := by
  have hstep := serve_reproStep hst hb hreq
  generalize (st.serve hash req).1 = st' at hstep
  cases hstep with
  | other hrepros hseq hview hpoll hadd =>
    have hans : answer name st req = none := by
      cases req with
      | pendingRepro n order =>
        have hn : n ≠ name := fun heq => hpoll order (by rw [heq])
        simp [answer, hn]
      | connect | sync | addRepro => rfl
    obtain ⟨mgr', hview', htrack⟩ := h.other hrepros hview (submitted name [req])
    obtain ⟨hcur, hown, -⟩ := reproView_inj hview'
    refine ⟨mgr', by simpa [hans] using htrack, fun hsent hapart => ?_⟩
    refine (hsent.append ⟨fun v hv p hp => ?_, fun v hv r hr hval hsup => ?_⟩).of_repros_eq
      hrepros hown hcur.ge
    · exact hadd v (eq_addRepro_of_mem_submitted hv) mgr p h.mgr_eq h.connected hp
    · obtain rfl := eq_addRepro_of_mem_submitted hv
      refine hapart rfl mgr r h.mgr_eq hr hval ?_
      rw [supports_congr h.calls_eq]
      exact hsup
  | @stored n repro m st' hs =>
    by_cases hn : n = name
    · subst n
      obtain ⟨mgr', hown, hcur, htrack⟩ := h.storedBySelf hst hs
      rw [submitted_self]
      refine ⟨mgr', by simpa [answer] using htrack, fun hsent _ => ?_⟩
      refine (hsent.stores hs (hown ▸ subset_cons_self _ _) hcur).append
        ⟨fun v hv p hp => ?_, fun v hv r hr hval hsup => .inl ?_⟩
      all_goals obtain rfl := mem_singleton.mp hv
      · exact AList.lookup_isSome.mp (by rw [hs.repros_eq, if_pos rfl]; rfl)
      · rw [hown]
        exact mem_cons_self
    · have htrack := h.storedByOther hst hs hn
      rw [submitted_other hn, append_nil]
      exact ⟨mgr, by simpa [answer] using htrack, fun hsent _ =>
        hsent.stores hs (List.Subset.refl _) le_rfl⟩
  | polled order =>
    obtain ⟨mgr', hown, hcur, htrack⟩ := h.polled hst order
    obtain ⟨-, -, -, hrepros, -⟩ := pendingRepro_spec hst h.mgr_eq h.connected order
    refine ⟨mgr', by simpa [submitted] using htrack, fun hsent _ => ?_⟩
    rw [submitted, filterMap_cons_none rfl, filterMap_nil, append_nil]
    exact hsent.of_repros_eq hrepros hown hcur

theorem Track.serveAll {reqs : List Request} (h : Track name mgr0 seq0 st mgr rets subs)
    (hst : ReproState hash st) (hb : Bounded st) (hreqs : ∀ req ∈ reqs, ¬ req.connects name) :
    ∃ mgr', Track name mgr0 seq0 (st.serveAll hash reqs) mgr' (rets ++ Hub.polled hash name st reqs)
        (subs ++ submitted name reqs) ∧
      (SentApart hash mgr0 st mgr subs → Apart hash name st reqs →
        SentApart hash mgr0 (st.serveAll hash reqs) mgr' (subs ++ submitted name reqs)) ∧
      ReproState hash (st.serveAll hash reqs) := by
  induction reqs generalizing st mgr rets subs with
  | nil =>
    refine ⟨mgr, ?_, fun hsent _ => ?_, hst⟩
    · simpa [State.serveAll, Hub.polled, submitted] using h
    · simpa [State.serveAll, submitted] using hsent
  | cons req reqs ih =>
    obtain ⟨m1, h1, hsent1⟩ := h.serve hst hb (hreqs req mem_cons_self)
    obtain ⟨m2, h2, hsent2, hst2⟩ := ih h1 (hst.serve hb req) (hb.serve req)
      fun r hr => hreqs r (mem_cons_of_mem _ hr)
    rw [submitted_cons, ← append_assoc]
    refine ⟨m2, ?_, fun hsent hapart => hsent2 (hsent1 hsent hapart.1) hapart.2, hst2⟩
    rw [Hub.polled, ← append_assoc]
    exact h2

/-- From the connect of a manager on, `PendingRepro` returns to it reproducers it supports in
increasing order, it returns nothing only when nothing is left for the manager, and, if the
manager does not send what another one has stored before it was given it, it never returns what
the manager has sent itself. -/
theorem repro_delivery (hash : Bytes → Key) (dir : Dir) (reqs0 reqs : List Request) (name : Name)
    (mgr0 : Manager) :
    let start := (State.make hash dir).serveAll hash reqs0
    start.managers.lookup name = some mgr0 → mgr0.connected →
    (∀ req ∈ reqs, ¬ req.connects name) →
    (polled hash name start reqs).Pairwise (fun a b => a.seq < b.seq) ∧
    (∀ r ∈ polled hash name start reqs, mgr0.supports r.val ∧
      ∃ k, (start.serveAll hash reqs).repros.lookup k = some r) ∧
    ∀ pre order post, reqs = pre ++ .pendingRepro name order :: post →
      let st := start.serveAll hash pre
      ((st.pendingRepro name order).2 = .ok none → ∀ k r, st.repros.lookup k = some r →
        start.reproSeq < r.seq → mgr0.supports r.val → r.val ∉ submitted name pre →
          r ∈ polled hash name start pre) ∧
      (Apart hash name start pre → ∀ rec, (st.pendingRepro name order).2 = .ok (some rec) →
        rec.val ∉ submitted name pre) := by
  intro start hmgr hconn hreqs
  have hinv : ReproState hash start ∧ Bounded start :=
    serveAll_induction (P := fun st => ReproState hash st ∧ Bounded st)
      ⟨ReproState.make hash dir, Bounded.make hash dir⟩ reqs0
      fun st req hst => ⟨hst.1.serve hst.2 req, hst.2.serve req⟩
  obtain ⟨hst, hb⟩ := hinv
  have htrack := Track.start hst hmgr hconn
  have hsent : SentApart hash mgr0 start mgr0 [] := ⟨nofun, nofun⟩
  obtain ⟨m, hall, -, -⟩ := htrack.serveAll hst hb hreqs
  refine ⟨hall.sorted, fun r hr => ⟨hall.supported r hr, hall.stored r hr⟩, ?_⟩
  rintro pre order post rfl
  obtain ⟨mgr, hpre, hsentPre, hstPre⟩ := htrack.serveAll hst hb
    fun req hreq => hreqs req (mem_append_left _ hreq)
  obtain ⟨res, cursor, hres, -, -, -, -, hnone, hsome⟩ :=
    pendingRepro_spec hstPre hpre.mgr_eq hpre.connected order
  constructor
  · intro hnil k r hr hlt hsup hsub
    rw [hres] at hnil
    obtain rfl := Except.ok.inj hnil
    by_cases hle : r.seq ≤ mgr.reproSeq
    · exact hpre.given k r hr hlt hsup hsub hle
    · have htake : mgr.takes (k, r) := by
        refine (takes_iff mgr _).mpr ⟨not_le.mp hle, fun hk => hsub (hpre.own k r hr hlt hk), ?_⟩
        rw [supports_congr hpre.calls_eq]
        exact hsup
      rw [(hnone rfl).2 k r hr] at htake
      cases htake
  · intro hapart rec hrec hmem
    rw [hres] at hrec
    obtain rfl := Except.ok.inj hrec
    obtain ⟨-, ⟨k, hk, htake⟩, -⟩ := hsome rec rfl
    obtain ⟨hgt, hown, hsup⟩ := (takes_iff mgr _).mp htake
    obtain rfl := hstPre.key_eq k rec hk
    rw [supports_congr hpre.calls_eq] at hsup
    obtain hmine | hle := (hsentPre hsent hapart).apart rec.val hmem rec hk rfl hsup
    · exact hown hmine
    · exact absurd hgt (not_lt.mpr hle)

theorem repro_delivery_second_manager :
    let start := (State.make id .empty).serveAll id
      [.connect [1] [] true [[0x61]] [], .connect [2] [] true [[0x61]] []]
    (polled id [2] start [.addRepro [1] progA, .pendingRepro [2] .id]).map Record.val = [progA] ∧
      Apart id [2] start [.addRepro [1] progA] ∧
      ∀ rec, ((start.serveAll id [.addRepro [1] progA]).pendingRepro [2] .id).2 = .ok (some rec) →
        rec.val ∉ submitted [2] [.addRepro [1] progA] := by
  intro start
  have hapart : Apart id [2] start [.addRepro [1] progA] :=
    ⟨fun h => absurd h (by decide), trivial⟩
  refine ⟨by decide, hapart, ((repro_delivery id .empty
    [.connect [1] [] true [[0x61]] [], .connect [2] [] true [[0x61]] []]
    [.addRepro [1] progA, .pendingRepro [2] .id] [2] _ rfl rfl ?_).2.2 _ .id [] rfl).2 hapart⟩
  simp [Request.connects]

/-- Two managers send the same reproducer, and the second one is given it back. -/
theorem own_repro_returned :
    let start := (State.make id .empty).serveAll id
      [.connect [1] [] true [[0x61]] [], .connect [2] [] true [[0x61]] []]
    ∃ rec, ((start.serveAll id [.addRepro [1] progA, .addRepro [2] progA]).pendingRepro
        [2] .id).2 = .ok (some rec) ∧
      rec.val ∈ submitted [2] [.addRepro [1] progA, .addRepro [2] progA] :=
  ⟨_, rfl, by decide⟩

end Brf.Hub
