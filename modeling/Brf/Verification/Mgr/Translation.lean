import Brf.Verification.Cover.Canonicalizer
import Brf.Verification.Mgr.Corpus
import Brf.Verification.Mgr.Inputs

/-! # Addresses of shared inputs

The manager keeps inputs in addresses of its own. What a poll takes from a queue was converted
from the addresses of its sender. It is in the addresses of the receiver where these are the
same. -/

namespace Brf.Cover

open List Canonicalizer

/-! ### Addresses that stay the same -/

variable {canon inst : List KernelModule} {pc : UInt32}

/-- The last canonical module that starts at or below the address, if there is one, has its
counterpart in the instance, and the address lies behind it or the module did not move. -/
def Stays (canon inst : List KernelModule) (pc : UInt32) : Prop :=
  ∀ c ∈ canon, Decides canon c pc → 0 < c.start ∧
    ∃ r ∈ inst, c.Matches r ∧ (c.Holds pc → r.start = c.start)

theorem Layout.recorded_eq {c r : KernelModule} (hinst : Layout inst) (hstart : 0 < c.start)
    (hr : r ∈ inst) (hmatch : c.Matches r) : recorded canon inst c = some r := by
  have hmem : r ∈ inst.filter fun r => Claims canon c r := by
    simpa using ⟨hr, .inl hmatch.1⟩
  obtain ⟨last, hlast⟩ := Option.ne_none_iff_exists'.mp
    (mt getLast?_eq_none_iff.mp (ne_nil_of_mem hmem))
  obtain ⟨hin, hclaims⟩ := mem_filter.mp (mem_of_getLast? hlast)
  have hname := (of_decide_eq_true hclaims).resolve_right fun h => absurd h.1 hstart.ne'
  rw [recorded, hlast, hinst.names last hin r hr (hname.trans hmatch.1.symm)]

theorem Stays.convertPC_eq (h : Stays canon inst pc) (hcanon : Layout canon) (hinst : Layout inst) :
    ((newCanonicalizer canon true).newInstance inst).decanonicalize.convertPC pc = some pc := by
  by_cases hne : canon = []
  · subst hne
    rfl
  rcases findModule_cases canon pc with ⟨hfind, hbelow⟩ | ⟨c, hfind, hdec⟩
  · rw [Convert.convertPC, (newInstance_keys hne inst).2, hfind]
  obtain ⟨hstart, r, hr, hmatch, hsame⟩ := h c hdec.1 hdec
  have hway : WayBack canon inst c pc := by
    rw [WayBack, hinst.recorded_eq hstart hr hmatch]
    exact .inl hmatch
  have hconv := (decanonicalize_iff hcanon hinst hdec hfind).mpr hway
  by_cases hheld : c.Holds pc
  · obtain ⟨pc', hpc', hmove⟩ := hconv.moved c hdec.1 hheld r hr hmatch
    rw [hpc', UInt32.toNat_inj.mp (by have := hsame hheld; omega : pc'.toNat = pc.toNat)]
  · exact hconv.kept fun mod hmod => hdec.not_holds hcanon hheld hmod

theorem decanonicalizePCs_stays (hcanon : Layout canon) (hinst : Layout inst) {sign : Serial}
    (hlen : sign.elems.length = sign.prios.length) (hsign : ∀ e ∈ sign.elems, Stays canon inst e)
    (cov : List UInt32) : ∃ cov', ((newCanonicalizer canon true).newInstance inst).decanonicalizePCs
      cov sign = some (cov', sign) ∧ ((∀ pc ∈ cov, Stays canon inst pc) → cov' = cov) := by
  have hconv := (newInstance_convertPCs (newCanonicalizer canon true) inst cov hlen).2
  rw [convertedSignal_fixed hlen fun e he => (hsign e he).convertPC_eq hcanon hinst] at hconv
  exact ⟨_, hconv, fun hcov =>
    filterMap_fixed fun pc hpc => (hcov pc hpc).convertPC_eq hcanon hinst⟩

end Brf.Cover

namespace Brf.Mgr

open Brf.Lib Brf.Db Brf.Cover List

variable {target : Target} {cfg : Config} {st st' : Server} {note : Note} {name : Name}
  {sub sub' : Name → Input → Prop}

/-! ### Where inputs come from -/

/-- A `NewInput` of the run sent an input that is `canonical` in the addresses of the manager. -/
def Submitted (target : Target) (cfg : Config) (start : Server) (events : List Event)
    (sender : Name) (canonical : Input) : Prop :=
  ∃ before inp after st log, events = before ++ .newInput sender inp :: after ∧
    start.run target cfg before = some (st, log) ∧ st.canonicalized sender inp = some canonical

variable {inp : Input} {events : List Event}

theorem Submitted.append {start : Server} {sender : Name}
    {canonical : Input} (h : Submitted target cfg start events sender canonical)
    (more : List Event) : Submitted target cfg start (events ++ more) sender canonical := by
  obtain ⟨before, inp, after, st, log, rfl, hrun, hcan⟩ := h
  exact ⟨before, inp, after ++ more, st, log, by simp, hrun, hcan⟩

/-- The highest priority that an element has in some of the inputs. -/
def rankOf (inputs : List Input) (e : Elem) : WithBot Prio :=
  inputs.foldr (fun inp r => ((Signal.deserialize inp.signal).getD ∅).rank e ⊔ r) ⊥

/-- The input is `first`, with the signals and the coverage of other inputs with the same hash
merged into it. -/
structure Collects (target : Target) (sent first : Input) (others : List Input) : Prop where
  call : sent.call = first.call
  prog : sent.prog = first.prog
  same : ∀ inp ∈ others, target.hash inp.prog = target.hash first.prog
  cover : ∀ pc ∈ sent.cover, ∃ inp ∈ first :: others, pc ∈ inp.cover
  alone : others = [] → sent.signal = first.signal
  signal : ∃ s, Signal.deserialize sent.signal = some s ∧ ∀ e, s.rank e = rankOf (first :: others) e

/-- The input is of the corpus, where inputs of any fuzzers are collected. -/
def FromCorpus (target : Target) (sub : Name → Input → Prop) (sent : Input) : Prop :=
  ∃ first others, (∀ inp ∈ first :: others, ∃ sender, sub sender inp) ∧
    Collects target sent first others

/-- The input is what another fuzzer sent, without coverage. -/
def FromSender (sub : Name → Input → Prop) (name : Name) (sent : Input) : Prop :=
  ∃ sender inp, sub sender inp ∧ sender ≠ name ∧ sent = { inp with cover := [], rawCover := [] } ∧
    (Signal.deserialize inp.signal).isSome

variable {sent : Input}

theorem FromCorpus.mono (hsub : ∀ sender inp, sub sender inp → sub' sender inp)
    (h : FromCorpus target sub sent) : FromCorpus target sub' sent := by
  obtain ⟨first, others, hfrom, hcol⟩ := h
  refine ⟨first, others, fun inp hinp => ?_, hcol⟩
  obtain ⟨sender, hs⟩ := hfrom inp hinp
  exact ⟨sender, hsub sender inp hs⟩

theorem FromSender.mono (hsub : ∀ sender inp, sub sender inp → sub' sender inp)
    (h : FromSender sub name sent) : FromSender sub' name sent := by
  obtain ⟨sender, inp, hs, hrest⟩ := h
  exact ⟨sender, inp, hsub sender inp hs, hrest⟩

theorem length_prios (h : FromSender sub name sent ∨ FromCorpus target sub sent) :
    sent.signal.elems.length = sent.signal.prios.length := by
  have hsome : (Signal.deserialize sent.signal).isSome := by
    rcases h with ⟨_, inp, _, _, rfl, hs⟩ | ⟨_, _, _, hcol⟩
    · exact hs
    · obtain ⟨s, hs, _⟩ := hcol.signal
      rw [hs]
      rfl
  rw [Signal.deserialize] at hsome
  split at hsome
  · simp at hsome
  · exact not_not.mp ‹_›

/-! ### What is known of a server -/

/-- Every input that the server holds came with a `NewInput`. -/
structure Traced (target : Target) (sub : Name → Input → Prop) (st : Server) : Prop where
  pending : ∀ p, st.pending = some p →
    sub p.name p.input ∧ (Signal.deserialize p.input.signal).isSome
  corpus : ∀ key item, st.mgr.corpus.lookup key = some item → FromCorpus target sub item.rpcInput
  connecting : ∀ c ∈ st.connecting, ∀ inp ∈ c.corpus, FromCorpus target sub inp
  queued : ∀ name f, st.Active name f → ∀ inp ∈ f.inputs,
    FromSender sub name inp ∨ FromCorpus target sub inp

theorem Traced.mono (hsub : ∀ sender inp, sub sender inp → sub' sender inp)
    (h : Traced target sub st) : Traced target sub' st := by
  refine ⟨fun p hp => ?_, fun key item hitem => (h.corpus key item hitem).mono hsub,
    fun c hc inp hinp => (h.connecting c hc inp hinp).mono hsub, fun name f hf inp hinp => ?_⟩
  · obtain ⟨hs, hsome⟩ := h.pending p hp
    exact ⟨hsub _ _ hs, hsome⟩
  · exact (h.queued name f hf inp hinp).imp (·.mono hsub) (·.mono hsub)

theorem mem_of_mem_mergeDiff {cov raw cov' raw' : List UInt32} {pc : UInt32}
    (hdiff : mergeDiff cov raw = (cov', raw')) (h : pc ∈ raw') : pc ∈ raw := by
  obtain ⟨-, rfl⟩ := Prod.mk.inj hdiff
  have hdiff : ∀ (l diff : List UInt32), pc ∈ l.foldl
      (fun diff pc => if pc ∈ cov ∨ pc ∈ diff then diff else diff ++ [pc]) diff →
      pc ∈ diff ∨ pc ∈ l := by
    intro l
    induction l with
    | nil => exact fun diff h => .inl h
    | cons pc' l ih =>
      intro diff h
      rw [foldl_cons] at h
      rcases ih _ h with h | h
      · split at h
        · exact .inl h
        · rcases mem_append.mp h with h | h
          · exact .inl h
          · rw [mem_singleton.mp h]
            exact .inr mem_cons_self
      · exact .inr (mem_cons_of_mem pc' h)
  rcases mem_append.mp h with h | h
  · exact (hdiff raw [] h).resolve_left (by simp)
  · exact mem_of_mem_drop h

variable {o : NewInputOrders} {key : Key} {item : CorpusItem}

/-- An item of the corpus after a `NewInput` was there before, or is the input, or was merged
with it. -/
theorem store_corpus (h : st.step target cfg (.store o) = some (st', note))
    (hitem : st'.mgr.corpus.lookup key = some item) :
    st.mgr.corpus.lookup key = some item ∨
      ∃ p, st.pending = some p ∧ p.stored = false ∧ key = target.hash p.input.prog ∧
        ((∃ raw, (∀ pc ∈ raw, pc ∈ p.input.cover) ∧
            item.rpcInput = { p.input with cover := raw, callID := 0, rawCover := [] }) ∨
          ∃ old sign, st.mgr.corpus.lookup key = some old ∧
            old.update p.input p.inputSignal o = some (item, sign)) := by
  cases effect_step h with
  | idle | refused => exact .inl hitem
  | phase e hcorpus => exact .inl (hcorpus ▸ hitem)
  | stored hpend hraw hnew =>
    rw [Manager.newInput] at hnew
    split at hnew
    · cases hnew
    dsimp only at hnew
    split at hnew
    · -- the program is known
      rename_i old hold
      obtain ⟨⟨item', merged⟩, hupd, hnew⟩ := Option.bind_eq_some_iff.mp hnew
      cases hnew
      rw [withCover, hold] at hitem
      rw [Dict.lookup_insert_ite] at hitem
      split at hitem
      · rename_i hkey
        cases hitem
        exact .inr ⟨_, hpend, rfl, hkey, .inr ⟨old, _, by rw [hkey]; exact hold, hupd⟩⟩
      · exact .inl hitem
    · -- the program is new
      rename_i hnone
      cases hnew
      rw [withCover, hnone] at hitem
      simp only [AList.lookup_insert] at hitem
      rw [Dict.lookup_insert_ite, Dict.lookup_insert_ite] at hitem
      split at hitem
      · rename_i hkey
        cases hitem
        refine .inr ⟨_, hpend, rfl, hkey, .inl ⟨_, fun pc hpc => ?_, rfl⟩⟩
        exact mem_of_mem_mergeDiff hraw hpc
      · exact .inl hitem

theorem Collects.update {old : CorpusItem} {first : Input} {others : List Input}
    {s sign : Signal} (h : Collects target old.rpcInput first others)
    (hsame : target.hash inp.prog = target.hash old.prog)
    (hs : Signal.deserialize inp.signal = some s) (hupd : old.update inp s o = some (item, sign)) :
    Collects target item.rpcInput first (inp :: others) := by
  obtain ⟨s0, hs0, hupd⟩ := Option.bind_eq_some_iff.mp hupd
  cases hupd
  obtain ⟨s1, hs1, hrank⟩ := h.signal
  obtain rfl : s0 = s1 := Option.some.inj (hs0.symm.trans hs1)
  refine ⟨h.call, h.prog, fun inp' hinp' => ?_, fun pc hpc => ?_, by simp, ?_⟩
  · rcases mem_cons.mp hinp' with rfl | hinp'
    · rw [hsame]
      exact congrArg target.hash h.prog
    · exact h.same inp' hinp'
  · have hpc' : pc ∈ old.cover ∨ pc ∈ inp.cover :=
      mem_append.mp (mem_dedup.mp ((o.cover.mem_run _ _).mp hpc))
    rcases hpc' with hpc | hpc
    · obtain ⟨inp', hinp', hmem⟩ := h.cover pc hpc
      refine ⟨inp', ?_, hmem⟩
      rcases mem_cons.mp hinp' with rfl | hinp'
      · exact mem_cons_self
      · exact mem_cons_of_mem _ (mem_cons_of_mem _ hinp')
    · exact ⟨inp, by simp, hpc⟩
  · obtain ⟨s', hs', hlook⟩ := Signal.deserialize_serialize (s.merge s0) o.signal
    refine ⟨s', hs', fun e => ?_⟩
    calc s'.rank e
      _ = (s.merge s0).rank e := Best.rank_congr (hlook e)
      _ = s0.rank e ⊔ s.rank e := Signal.rank_merge s s0 e
      _ = s.rank e ⊔ rankOf (first :: others) e := by rw [hrank e, max_comm]
      _ = rankOf (first :: inp :: others) e := by
        rw [rankOf, rankOf, foldr_cons, foldr_cons, foldr_cons, hs, max_left_comm]
        rfl

theorem Traced.corpus_store (h : Traced target sub st) (hcov : st.Covered target)
    (hstep : st.step target cfg (.store o) = some (st', note))
    (hitem : st'.mgr.corpus.lookup key = some item) : FromCorpus target sub item.rpcInput := by
  rcases store_corpus hstep hitem with hitem | ⟨p, hp, hstored, rfl, hcase⟩
  · exact h.corpus key item hitem
  have hs := hcov.fresh p hp hstored
  have hsub := (h.pending p hp).1
  rcases hcase with ⟨raw, hraw, heq⟩ | ⟨old, sign, hold, hupd⟩
  · refine ⟨p.input, [], fun inp hinp => ⟨p.name, mem_singleton.mp hinp ▸ hsub⟩, ?_⟩
    rw [heq]
    refine ⟨rfl, rfl, by simp, fun pc hpc => ⟨p.input, by simp, hraw pc hpc⟩, fun _ => rfl,
      p.inputSignal, hs, fun e => ?_⟩
    rw [rankOf, foldr_cons, hs]
    exact (max_bot_right _).symm
  · obtain ⟨first, others, hfrom, hcol⟩ := h.corpus _ old hold
    refine ⟨first, p.input :: others, fun inp hinp => ?_, ?_⟩
    · rcases mem_cons.mp hinp with rfl | hinp
      · exact hfrom inp mem_cons_self
      · rcases mem_cons.mp hinp with rfl | hinp
        · exact ⟨p.name, hsub⟩
        · exact hfrom inp (mem_cons_of_mem first hinp)
    · have hsame := hcov.sound.keyed _ old hold
      exact hcol.update hsame hs hupd

theorem minimizeCorpus_lookup {mgr mgr' : Manager} {o : MinimizeOrders} (hs : mgr.Sound target)
    (h : mgr.minimizeCorpus target cfg o = some mgr')
    (hitem : mgr'.corpus.lookup key = some item) : mgr.corpus.lookup key = some item := by
  rw [Manager.minimizeCorpus] at h
  split at h
  · cases h
    exact hitem
  · obtain ⟨mgr1, hmin, h⟩ := Option.bind_eq_some_iff.mp h
    have hsub := (minimizeInputs_spec hs.keyed hmin).1
    split at h
    · cases h
      exact hsub key item hitem
    · cases h
      exact hsub key item hitem

variable {e : Event}

theorem corpus_step (hcov : st.Covered target) (hstep : st.step target cfg e = some (st', note))
    (he : ∀ o, e ≠ .store o) (hitem : st'.mgr.corpus.lookup key = some item) :
    st.mgr.corpus.lookup key = some item := by
  cases effect_step hstep with
  | minimized hmin | connected canonical hmin => exact minimizeCorpus_lookup hcov.sound hmin hitem
  | phase e hcorpus =>
    rwa [hcorpus] at hitem
  | stored => exact absurd rfl (he _)
  | polled hpoll =>
    obtain ⟨_, _, _, _, hmgr, _⟩ := poll_frame hpoll
    rcases hmgr with hmgr | hmgr
    · rwa [hmgr] at hitem
    · rw [hmgr] at hitem
      exact hitem
  | checked hmgr =>
    have hc := (machineChecked_spec hcov.sound hmgr).2
    rwa [hc] at hitem
  | _ => exact hitem

theorem Traced.corpus_step (h : Traced target sub st) (hcov : st.Covered target)
    (hstep : st.step target cfg e = some (st', note))
    (hitem : st'.mgr.corpus.lookup key = some item) : FromCorpus target sub item.rpcInput := by
  by_cases he : ∃ o, e = .store o
  · obtain ⟨o, rfl⟩ := he
    exact h.corpus_store hcov hstep hitem
  · exact h.corpus key item (Mgr.corpus_step hcov hstep (by simpa using he) hitem)

theorem pending_step (hstep : st.step target cfg e = some (st', note)) {p : Pending}
    (hp : st'.pending = some p) : (∃ q, st.pending = some q ∧ p.name = q.name ∧ p.input = q.input) ∨
    ∃ inp, e = .newInput p.name inp ∧ st.canonicalized p.name inp = some p.input ∧
    (Signal.deserialize p.input.signal).isSome := by
  cases effect_step hstep with
  | @held n inp inp' s genuine hcheck hcan hs =>
    cases hp
    exact .inr ⟨inp, rfl, hcan, by rw [hs]; rfl⟩
  | refused | accepted | rediscovered => cases hp
  | stored hpend =>
    cases hp
    exact .inl ⟨_, hpend, rfl, rfl⟩
  | polled hpoll =>
    obtain ⟨_, hpend, _⟩ := poll_frame hpoll
    exact .inl ⟨p, hpend ▸ hp, rfl, rfl⟩
  | _ => exact .inl ⟨p, hp, rfl, rfl⟩

theorem accepted_step {n : Name} (hstep : st.step target cfg e = some (st', .accepted n inp)) :
    ∃ p, st.pending = some p ∧ p.name = n ∧ inp = { p.input with cover := [], rawCover := [] } := by
  cases effect_step hstep with
  | accepted hpend => exact ⟨_, hpend, rfl, rfl⟩
  | polled hpoll =>
    obtain ⟨_, _, _, _, _, h | ⟨_, _, _, _, h⟩⟩ := poll_frame hpoll
    · cases h
    · cases h

theorem Traced.queued_step (h : Traced target sub st)
    (hstep : st.step target cfg e = some (st', note)) {f' : Fuzzer} (hf' : st'.Active name f')
    (hinp : inp ∈ f'.inputs) : FromSender sub name inp ∨ FromCorpus target sub inp := by
  have hd := describes_step hstep name
  cases note with
  | quiet | snapshot n corpus => exact h.queued name f' (hd.2 f' hf') inp hinp
  | connected n corpus =>
    have hf := hd.2 f' hf'
    split at hf
    · rw [hf.1] at hinp
      obtain ⟨c, hc, -, rfl⟩ := (connecting_step hstep).2 n corpus rfl
      exact .inr (h.connecting c hc inp hinp)
    · exact h.queued name f' hf inp hinp
  | accepted n inp' =>
    obtain ⟨f, hact, _, hin⟩ := hd.2 f' hf'
    rw [hin] at hinp
    split at hinp
    · exact h.queued name f hact inp hinp
    · rename_i hn
      rcases mem_append.mp hinp with hinp | hinp
      · exact h.queued name f hact inp hinp
      · obtain rfl := mem_singleton.mp hinp
        obtain ⟨p, hp, rfl, heq⟩ := accepted_step hstep
        obtain ⟨hsub, hsome⟩ := h.pending p hp
        exact .inl ⟨p.name, p.input, hsub, hn, heq, hsome⟩
  | polled n reported maxSignal candidates newInputs =>
    obtain ⟨f, hact, hf⟩ := hd.2 f' hf'
    have hsub : inp ∈ f.inputs := by
      split at hf
      · rw [hf.2]
        exact mem_append_left _ hinp
      · exact hf.2 ▸ hinp
    exact h.queued name f hact inp hsub

theorem Traced.step (h : Traced target sub st) (hcov : st.Covered target)
    (hstep : st.step target cfg e = some (st', note))
    (hnew : ∀ n inp canonical, e = .newInput n inp → st.canonicalized n inp = some canonical →
      sub n canonical) : Traced target sub st' := by
  refine ⟨fun p hp => ?_, fun key item hitem => h.corpus_step hcov hstep hitem,
    fun c hc inp hinp => ?_, fun name f' hf' inp hinp => h.queued_step hstep hf' hinp⟩
  · rcases pending_step hstep hp with ⟨q, hq, hname, hinp⟩ | ⟨inp, he, hcan, hsome⟩
    · rw [hname, hinp]
      exact h.pending q hq
    · exact ⟨hnew p.name inp p.input he hcan, hsome⟩
  · rcases (connecting_step hstep).1 c hc with hc | rfl
    · exact h.connecting c hc inp hinp
    · obtain ⟨⟨key, item⟩, hitem, rfl⟩ :=
        mem_map.mp ((snapshot_step hstep).mem_iff.mp hinp)
      exact h.corpus_step hcov hstep (Dict.mem_toPairs.mp hitem)

/-- In a run, whatever the server holds came with a `NewInput` of the run. -/
theorem Traced.run {corpusDB : CorpusDB} {seeds : List Bytes}
    {log : List Note} (hrun : (Server.start corpusDB seeds).run target cfg events = some (st, log)) :
    Traced target (Submitted target cfg (.start corpusDB seeds) events) st := by
  let start := Server.start corpusDB seeds
  suffices hinv : start.run target cfg events = some (st, log) ∧ st.Covered target ∧
      Traced target (Submitted target cfg start events) st from hinv.2.2
  refine foldlM_carries (fun done x => start.run target cfg done = some x ∧ x.1.Covered target ∧
    Traced target (Submitted target cfg start done) x.1) ⟨rfl, ?_, ?_⟩ ?_ hrun
  · refine ⟨⟨?_, ?_, ?_⟩, ?_, ?_, ?_, ?_⟩ <;> simp [start, Server.start, Manager.start]
  · refine ⟨?_, ?_, ?_, ?_⟩ <;> simp [start, Server.start, Manager.start, Server.Active]
  · rintro done e rest ⟨st1, log1⟩ x - ⟨hrun1, hcov, htr⟩ hround
    obtain ⟨⟨st2, note⟩, hstep, heq⟩ := Option.bind_eq_some_iff.mp hround
    cases heq
    refine ⟨?_, hcov.step hstep, (htr.mono ?_).step hcov hstep ?_⟩
    · rw [Server.run, foldlM_append]
      refine Option.bind_eq_some_iff.mpr ⟨_, hrun1, ?_⟩
      rw [foldlM_cons, Server.round, hstep]
      rfl
    · exact fun sender canonical hs => hs.append [e]
    · rintro n inp canonical rfl hcan
      exact ⟨done, inp, [], st1, log1, rfl, hrun1, hcan⟩

theorem polled_step {a : PollArgs} {o : PollOrders} {reported : Signal} {maxSignal : Serial}
    {candidates : List Candidate} {newInputs : List Input} (hstep : st.step target cfg (.poll a o) =
      some (st', .polled name reported maxSignal candidates newInputs))
    (hsent : sent ∈ newInputs) : ∃ f, st.Active name f ∧ sent ∈ f.inputs := by
  rw [Server.step, Server.poll] at hstep
  split at hstep
  · simp at hstep
  split at hstep
  · cases hstep
  · rename_i f hf
    obtain ⟨reported', _, hstep⟩ := Option.bind_eq_some_iff.mp hstep
    split at hstep
    · cases hstep
      cases hsent
    · rename_i hrot
      cases hstep
      refine ⟨f, ⟨hf, by simpa using hrot⟩, ?_⟩
      rw [pollInputs_append f a ((st.report a.name reported).mgr.pollCandidates cfg a).2]
      exact mem_append_right _ (mem_reverse.mpr hsent)

/-- What the receiver is due: an input of another fuzzer in the addresses of the receiver and
without coverage, or an item of the corpus in these addresses. -/
def Translated (target : Target) (sub : Name → Input → Prop) (name : Name)
    (ci : CanonicalizerInstance) (sent : Input) : Prop :=
  (∃ sender inp cover, sub sender inp ∧ sender ≠ name ∧
    ci.decanonicalizePCs inp.cover inp.signal = some (cover, sent.signal) ∧
    sent = { inp with cover := [], rawCover := [], signal := sent.signal }) ∨
  ∃ item, FromCorpus target sub item ∧
    ci.decanonicalizePCs item.cover item.signal = some (sent.cover, sent.signal) ∧
    sent = { item with cover := sent.cover, signal := sent.signal }

/-- In every run, what a poll hands to a fuzzer is, in the addresses of the fuzzer, what others
sent in theirs, if its modules keep the addresses of the inputs queued for it. -/
theorem shared_inputs (corpusDB : CorpusDB) (seeds : List Bytes) {events : List Event}
    {log : List Note} {a : PollArgs} {o : PollOrders} {reported : Signal} {maxSignal : Serial}
    {candidates : List Candidate} {newInputs : List Input} {sent : Input} {f : Fuzzer}
    {canon inst : List KernelModule} (hcanon : Layout canon) (hinst : Layout inst)
    (hrun : (Server.start corpusDB seeds).run target cfg events = some (st, log))
    (hf : st.fuzzers.lookup name = some f)
    (hmodules : f.instModules = (newCanonicalizer canon true).newInstance inst)
    (hstay : ∀ inp ∈ f.inputs, ∀ pc ∈ inp.cover ++ inp.signal.elems, Stays canon inst pc)
    (hpoll : st.step target cfg (.poll a o) =
      some (st', .polled name reported maxSignal candidates newInputs)) (hsent : sent ∈ newInputs) :
    Translated target (Submitted target cfg (.start corpusDB seeds) events) name f.instModules
      sent := by
  obtain ⟨f', hact, hmem⟩ := polled_step hpoll hsent
  obtain rfl : f' = f := Option.some.inj (hact.1.symm.trans hf)
  have hfrom := (Traced.run hrun).queued name f' hact sent hmem
  have hkeep := decanonicalizePCs_stays hcanon hinst (length_prios hfrom)
    fun e he => hstay sent hmem e (mem_append_right _ he)
  rw [hmodules]
  rcases hfrom with ⟨sender, inp, hsub, hne, rfl, -⟩ | hitem
  · obtain ⟨cover, hcover, -⟩ := hkeep inp.cover
    exact .inl ⟨sender, inp, cover, hsub, hne, hcover, rfl⟩
  · obtain ⟨cover, hcover, hsame⟩ := hkeep sent.cover
    rw [hsame fun pc hpc => hstay sent hmem pc (mem_append_left _ hpc)] at hcover
    exact .inr ⟨sent, hitem, hcover, rfl⟩

/-- The modules of two fuzzers, of which one has moved. -/
def sampleLayout : List KernelModule := [⟨[0x6d], 0x15000, 0x5000⟩, ⟨[0x6e], 0x60000, 0x5000⟩]

def sampleMoved : List KernelModule := [⟨[0x6d], 0x40000, 0x5000⟩, ⟨[0x6e], 0x60000, 0x5000⟩]

/-- The two fuzzers, and an input of the first. -/
def sampleShare (inp : Input) : List Event :=
  [sampleCheck, .connect [1] sampleLayout sampleMinimize .id, .register 0 none,
    .connect [2] sampleMoved sampleMinimize .id, .register 0 none] ++ sampleNewInput [1] inp

/-- The inputs that the second fuzzer gets from a poll. -/
def sampleReply (st : Server) : Option (List Input) :=
  (st.step sampleTarget sampleConfig (samplePoll [2] 1)).map fun x => x.2.handed [2]

theorem exists_polled_of_sampleReply (h : sampleReply st = some [sent]) :
    ∃ st' reported maxSignal candidates newInputs,
      st.step sampleTarget sampleConfig (samplePoll [2] 1) =
        some (st', .polled [2] reported maxSignal candidates newInputs) ∧ sent ∈ newInputs := by
  obtain ⟨⟨st', note⟩, hstep, hhanded⟩ := Option.map_eq_some_iff.mp h
  cases note with
  | polled n reported maxSignal candidates newInputs =>
    simp only [Note.handed] at hhanded
    split at hhanded
    · rename_i hn
      subst hn hhanded
      exact ⟨st', reported, maxSignal, candidates, _, hstep, mem_singleton_self sent⟩
    · simp at hhanded
  | quiet | snapshot | connected | accepted => simp [Note.handed] at hhanded

/-- An element in the module that has not moved is the same for both fuzzers. -/
theorem shared_inputs_unmoved : ∃ st log f,
    sampleServer.run sampleTarget sampleConfig (sampleShare (sampleInput 5 [0x60001])) =
      some (st, log) ∧
    sampleReply st = some [sampleInput 5 [0x60001]] ∧ st.fuzzers.lookup [2] = some f ∧
    Translated sampleTarget (Submitted sampleTarget sampleConfig sampleServer
      (sampleShare (sampleInput 5 [0x60001]))) [2] f.instModules (sampleInput 5 [0x60001]) := by
  have h : ((sampleServer.run sampleTarget sampleConfig
      (sampleShare (sampleInput 5 [0x60001]))).map fun x =>
      (sampleReply x.1, (x.1.fuzzers.lookup [2]).map fun f => (f.inputs, f.instModules))) =
      some (some [sampleInput 5 [0x60001]], some ([sampleInput 5 [0x60001]],
        (newCanonicalizer sampleLayout true).newInstance sampleMoved)) := by rfl
  obtain ⟨⟨st, log⟩, hrun, heq⟩ := Option.map_eq_some_iff.mp h
  obtain ⟨hreply, hlook⟩ := Prod.mk.inj heq
  obtain ⟨f, hf, heq⟩ := Option.map_eq_some_iff.mp hlook
  obtain ⟨hinputs, hmodules⟩ := Prod.mk.inj heq
  obtain ⟨st', reported, maxSignal, candidates, newInputs, hpoll, hsent⟩ :=
    exists_polled_of_sampleReply hreply
  have hstay : ∀ inp ∈ f.inputs, ∀ pc ∈ inp.cover ++ inp.signal.elems,
      Stays sampleLayout sampleMoved pc := by
    rw [hinputs, forall_mem_singleton]
    intro pc hpc
    obtain rfl := mem_singleton.mp hpc
    unfold Stays Decides
    decide
  exact ⟨st, log, f, hrun, hreply, hf, shared_inputs _ _ ⟨by decide, by decide, by decide⟩
    ⟨by decide, by decide, by decide⟩ hrun hf hmodules hstay hpoll hsent⟩

/-- An input with an element and an address inside the module that has moved. -/
def sampleInside : Input := { sampleInput 5 [0x15001] with cover := [0x15002] }

/-- What a conversion of a fuzzer makes of that input. -/
def sampleConvert (st : Server) (name : Name)
    (conv : CanonicalizerInstance → List UInt32 → Serial → Option (List UInt32 × Serial)) :
    Option (List UInt32 × Serial) :=
  (st.fuzzers.lookup name).bind fun f => conv f.instModules sampleInside.cover sampleInside.signal

/-- The second fuzzer gets the element in the addresses of the first, and no address. -/
theorem shared_input_not_translated :
    ∃ st log sent cover signal,
      sampleServer.run sampleTarget sampleConfig (sampleShare sampleInside) = some (st, log) ∧
      sampleReply st = some [sent] ∧
      sampleConvert st [1] CanonicalizerInstance.canonicalizePCs =
        some (sampleInside.cover, sampleInside.signal) ∧
      sampleConvert st [2] CanonicalizerInstance.decanonicalizePCs = some (cover, signal) ∧
      sent.cover = [] ∧ cover = [0x40002] ∧
      sent.signal.elems = [0x15001] ∧ signal.elems = [0x40001] := by
  have h : ((sampleServer.run sampleTarget sampleConfig (sampleShare sampleInside)).map fun x =>
      (sampleReply x.1, sampleConvert x.1 [2] CanonicalizerInstance.decanonicalizePCs)) =
      some (some [sampleInput 5 [0x15001]], some ([0x40002], ⟨[0x40001], [1]⟩)) := by
    decide +kernel
  have hfirst : ((sampleServer.run sampleTarget sampleConfig (sampleShare sampleInside)).map fun x =>
      sampleConvert x.1 [1] CanonicalizerInstance.canonicalizePCs) =
      some (some (sampleInside.cover, sampleInside.signal)) := by decide +kernel
  obtain ⟨⟨st, log⟩, hrun, heq⟩ := Option.map_eq_some_iff.mp h
  obtain ⟨hreply, hdecan⟩ := Prod.mk.inj heq
  rw [hrun] at hfirst
  exact ⟨st, log, _, _, _, hrun, hreply, Option.some.inj hfirst, hdecan, rfl, rfl, rfl, rfl⟩

end Brf.Mgr
