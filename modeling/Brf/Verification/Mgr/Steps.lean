import Brf.Lib.Fold
import Brf.Model.Rpc
import Brf.Verification.Mgr.Signal

/-! # What a step does to a fuzzer

The fuzzers that take part in the exchange are those that are not rotated. Every step is
described by its note alone: which signal and which inputs such a fuzzer has after it. -/

namespace Brf.Mgr

open Brf.Lib Brf.Db Brf.Cover List Option Server Fuzzer Signal

variable {target : Target} {cfg : Config} {st st' : Server} {note : Note} {name : Name}

/-- A fuzzer that is connected and not rotated. -/
def Server.Active (st : Server) (name : Name) (f : Fuzzer) : Prop :=
  st.fuzzers.lookup name = some f ∧ f.rotated = false

/-- What a note says about the fuzzer `name`, before and after the step. -/
def Note.Describes (name : Name) (st st' : Server) : Note → Prop
  | .quiet | .snapshot _ _ =>
    st'.maxSignal = st.maxSignal ∧ ∀ f', st'.Active name f' → st.Active name f'
  | .connected n corpus =>
    st'.maxSignal = st.maxSignal ∧ ∀ f', st'.Active name f' →
      if n = name then f'.inputs = corpus ∧ f'.newMaxSignal = st.maxSignal else st.Active name f'
  | .accepted n inp =>
    st'.maxSignal = st.maxSignal ∧ ∀ f', st'.Active name f' →
      ∃ f, st.Active name f ∧ f'.newMaxSignal = f.newMaxSignal ∧
        f'.inputs = if n = name then f.inputs else f.inputs ++ [inp]
  | .polled n reported maxSignal _ newInputs =>
    (∀ e, st'.maxSignal.rank e = (st.maxSignal.diff reported).rank e ⊔ st.maxSignal.rank e) ∧
      ∀ f', st'.Active name f' → ∃ f, st.Active name f ∧
        if n = name then
          (∃ sent, deserialize maxSignal = some sent ∧
            ∀ e, sent.rank e ⊔ f'.newMaxSignal.rank e = f.newMaxSignal.rank e) ∧
          f.inputs = f'.inputs ++ newInputs.reverse
        else
          (∀ e, f'.newMaxSignal.rank e =
            (st.maxSignal.diff reported).rank e ⊔ f.newMaxSignal.rank e) ∧
          f'.inputs = f.inputs

def Manager.inputs (mgr : Manager) : List Input := mgr.corpus.toPairs.map fun e => e.2.rpcInput

/-! ### What a step can do -/

/-- The steps of the server, each with what it checked before. -/
inductive Effect (target : Target) (cfg : Config) (st : Server) : Event → Server → Note → Prop
  /-- Nothing was done, or a check failed. -/
  | idle (e : Event) (failures : ℕ) :
      Effect target cfg st e { st with checkFailures := failures } .quiet
  /-- The manager changed, but not its corpus. -/
  | phase (e : Event) {mgr : Manager} (hcorpus : mgr.corpus = st.mgr.corpus)
      (hdb : mgr.corpusDB = st.mgr.corpusDB) : Effect target cfg st e { st with mgr := mgr } .quiet
  | minimized {o : MinimizeOrders} {mgr : Manager}
      (hmin : st.mgr.minimizeCorpus target cfg o = some mgr) :
      Effect target cfg st (.getMinimizedCorpus o) { st with mgr := mgr } .quiet
  | connected {n : Name} {modules : List KernelModule} {o : MinimizeOrders}
      {order : Shuffle (Key × CorpusItem)} {mgr : Manager} {corpus : List Input}
      (canonical : Option Canonicalizer) (hmin : st.mgr.minimizeCorpus target cfg o = some mgr)
      (hcorpus : corpus.Perm mgr.inputs) :
      Effect target cfg st (.connect n modules o order)
        { st with
          mgr := mgr, canonicalModules := canonical,
          connecting := st.connecting ++ [⟨n, modules, corpus⟩] } (.snapshot n corpus)
  | registered {i : ℕ} {rot : Option Rotation} {c : Connecting} {f : Fuzzer}
      (hc : c ∈ st.connecting) (hf : st.newFuzzer c rot = some f) :
      Effect target cfg st (.register i rot)
        { st with
          fuzzers := st.fuzzers.insert c.name f, connecting := st.connecting.eraseIdx i }
        (.connected c.name c.corpus)
  /-- A `NewInput` takes hold of the server. -/
  | held {n : Name} {inp inp' : Input} {s : Signal} (genuine : Bool)
      (hcheck : checkProgram target (st.checkResult.getD []) inp.prog = .enabled)
      (hcan : st.canonicalized n inp = some inp') (hs : deserialize inp'.signal = some s) :
      Effect target cfg st (.newInput n inp)
        { st with pending := some ⟨n, inp', s, genuine, false⟩ } .quiet
  /-- A `NewInput` in `mgr.mu` is turned down. -/
  | refused (o : NewInputOrders) : Effect target cfg st (.store o) { st with pending := none } .quiet
  | stored {o : NewInputOrders} {n : Name} {inp : Input} {s s' : Signal} {genuine : Bool}
      {mgr : Manager} {cover raw : List UInt32}
      (hpend : st.pending = some ⟨n, inp, s, genuine, false⟩)
      (hraw : mergeDiff st.corpusCover inp.cover = (cover, raw))
      (hnew : st.mgr.newInput target o inp s = some (mgr, s', true)) :
      Effect target cfg st (.store o)
        { st with
          mgr := { mgr with
            corpus := withCover st.mgr.corpus mgr.corpus (target.hash inp.prog) raw }
          corpusCover := cover
          pending := some ⟨n, inp, s', genuine, true⟩ } .quiet
  | accepted {n : Name} {inp : Input} {s : Signal}
      (hpend : st.pending = some ⟨n, inp, s, true, true⟩) :
      Effect target cfg st .finish
        { st with
          corpusSignal := st.corpusSignal.merge s
          fuzzers := (st.fuzzers.mapVals fun m f => if m = n then f.sent s else f).mapVals
            fun m f => f.offer (m = n) { inp with cover := [], rawCover := [] }
          pending := none } (.accepted n { inp with cover := [], rawCover := [] })
  | rediscovered (n : Name) (s : Signal) :
      Effect target cfg st .finish
        { st with
          fuzzers := st.fuzzers.mapVals fun m f => if m = n then f.sent s else f
          pending := none } .quiet
  | polled {a : PollArgs} {o : PollOrders} {st' : Server} {note : Note}
      (h : st.poll cfg a o = some (st', note)) : Effect target cfg st (.poll a o) st' note
  | checked {enabled : List Name} {error : Bool} {o : LoadOrders} {mgr : Manager}
      (hmgr : st.mgr.machineChecked target cfg o enabled = some mgr) :
      Effect target cfg st (.check enabled error o)
        { st with mgr := mgr, checkResult := some enabled } .quiet
  | shutdown (n : Name) :
      Effect target cfg st (.shutdownInstance n)
        { st with fuzzers := st.fuzzers.erase n } .quiet

variable {n : Name}

theorem effect_newInput {inp : Input} (h : st.newInput target n inp = some (st', note)) :
    Effect target cfg st (.newInput n inp) st' note := by
  rw [newInput] at h
  split at h
  · cases h
    exact .idle _ st.checkFailures
  · rename_i hcheck
    split at h
    · simp at h
    · obtain ⟨inp', hinp, h⟩ := bind_eq_some_iff.mp h
      obtain ⟨s, hs, h⟩ := bind_eq_some_iff.mp h
      dsimp only at h
      split at h
      · cases h
        exact .idle _ st.checkFailures
      · cases h
        exact .held _ (not_not.mp hcheck) hinp hs

theorem effect_store {o : NewInputOrders} (h : st.store target o = some (st', note)) :
    Effect target cfg st (.store o) st' note := by
  rw [store] at h
  split at h
  · rename_i n inp s genuine hpend
    obtain ⟨⟨mgr, s', taken⟩, hnew, h⟩ := bind_eq_some_iff.mp h
    cases taken with
    | true =>
      cases h
      exact .stored hpend rfl hnew
    | false =>
      cases h
      exact .refused o
  · simp at h

theorem effect_finish (h : st.finish = some (st', note)) :
    Effect target cfg st .finish st' note := by
  rw [Server.finish] at h
  split at h
  · rename_i n inp s genuine hpend
    cases genuine with
    | true =>
      cases h
      exact .accepted hpend
    | false =>
      cases h
      exact .rediscovered n s
  · simp at h

theorem effect_check {enabled : List Name} {error : Bool} {o : LoadOrders}
    (h : st.check target cfg enabled error o = some (st', note)) :
    Effect target cfg st (.check enabled error o) st' note := by
  rw [check] at h
  split at h
  · simp at h
  split at h
  · cases h
    exact .idle _ st.checkFailures
  split at h
  · split at h
    · simp at h
    · cases h
      exact .idle _ _
  · obtain ⟨mgr, hmgr, h⟩ := bind_eq_some_iff.mp h
    cases h
    exact .checked hmgr

variable {e : Event}

theorem effect_step (h : st.step target cfg e = some (st', note)) :
    Effect target cfg st e st' note := by
  cases e with
  | connect n modules o order =>
    obtain ⟨⟨mgr, corpus⟩, hconn, h⟩ := bind_eq_some_iff.mp h
    cases h
    obtain ⟨mgr', hmin, heq⟩ := bind_eq_some_iff.mp hconn
    cases heq
    exact .connected _ hmin ((order.perm _).map _)
  | register i rot =>
    rw [step, register] at h
    split at h
    · rename_i c _ hc
      obtain ⟨f, hf, h⟩ := bind_eq_some_iff.mp h
      cases h
      exact .registered (mem_of_getElem? hc) hf
    · simp at h
  | newInput n inp => exact effect_newInput h
  | store o => exact effect_store h
  | finish => exact effect_finish h
  | poll a o => exact .polled h
  | check enabled error o => exact effect_check h
  | shutdownInstance n =>
    rw [step, shutdownInstance] at h
    split at h
    · simp at h
    · cases h
      exact .shutdown n
  | getMinimizedCorpus o =>
    obtain ⟨⟨mgr, progs⟩, hget, h⟩ := bind_eq_some_iff.mp h
    cases h
    obtain ⟨mgr', hmin, heq⟩ := bind_eq_some_iff.mp hget
    cases heq
    exact .minimized hmin
  | addNewCandidates | hubIsUnreachable =>
    cases h
    exact .phase _ rfl rfl

variable {f : Fuzzer}

theorem newFuzzer_active {c : Connecting} {rot : Option Rotation} (hf : st.newFuzzer c rot = some f)
    (hrot : f.rotated = false) : f.inputs = c.corpus ∧ f.newMaxSignal = st.maxSignal := by
  unfold newFuzzer at hf
  split at hf
  · -- a rotated fuzzer is not active
    rw [rotateCorpus] at hf
    split at hf
    · simp at hf
    · obtain ⟨⟨inputs, signal⟩, _, hf⟩ := bind_eq_some_iff.mp hf
      cases hf
      simp at hrot
  · cases hf
    exact ⟨rfl, rfl⟩

theorem Fuzzer.sent_rotated (f : Fuzzer) (s : Signal) : (f.sent s).rotated = f.rotated := by
  rw [sent]
  split <;> rfl

theorem Fuzzer.offer_rotated (f : Fuzzer) (self : Bool) (inp : Input) :
    (f.offer self inp).rotated = f.rotated := by
  rw [offer]
  split <;> rfl

variable {f' : Fuzzer}

/-- What the sender of an input remembers is of no concern to a fuzzer that is not rotated. -/
theorem active_of_sent {sender : Name} {s : Signal}
    (h : (st.fuzzers.mapVals fun n f => if n = sender then f.sent s else f).lookup name = some f')
    (hrot : f'.rotated = false) : st.Active name f' := by
  rw [Dict.lookup_mapVals] at h
  obtain ⟨f, hf, rfl⟩ := map_eq_some_iff.mp h
  split at hrot
  · rw [sent_rotated] at hrot
    rw [if_pos ‹_›, sent, hrot]
    exact ⟨hf, hrot⟩
  · rw [if_neg ‹_›]
    exact ⟨hf, hrot⟩

theorem pollInputs_append (f : Fuzzer) (a : PollArgs) (candidates : List Candidate) :
    f.inputs = (f.pollInputs cfg a candidates).2 ++ (f.pollInputs cfg a candidates).1.reverse := by
  rw [pollInputs]
  split
  · rw [popBack, reverse_take, reverse_reverse, length_reverse, take_append_drop]
  · simp

theorem report_rank (n : Name) (reported : Signal) (e : Elem) :
    (st.report n reported).maxSignal.rank e =
      (st.maxSignal.diff reported).rank e ⊔ st.maxSignal.rank e := by
  rw [report]
  split
  · rename_i hemp
    rw [rank_of_isEmpty hemp, max_bot_left]
  · rw [rank_merge]

theorem Fuzzer.receive_rotated (f : Fuzzer) (self : Bool) (s : Signal) :
    (f.receive self s).rotated = f.rotated := by
  rw [receive]
  split <;> rfl

theorem report_active {reported : Signal} (h : (st.report n reported).Active name f') :
    ∃ f, st.Active name f ∧ f'.inputs = f.inputs ∧ (n = name → f' = f) ∧
      (n ≠ name → ∀ e, f'.newMaxSignal.rank e =
        (st.maxSignal.diff reported).rank e ⊔ f.newMaxSignal.rank e) := by
  obtain ⟨hlook, hrot⟩ := h
  rw [report] at hlook
  split at hlook
  · rename_i hemp
    refine ⟨f', ⟨hlook, hrot⟩, rfl, fun _ => rfl, fun _ e => ?_⟩
    rw [rank_of_isEmpty hemp, max_bot_left]
  · rw [Dict.lookup_mapVals] at hlook
    obtain ⟨f, hf, rfl⟩ := map_eq_some_iff.mp hlook
    rw [receive_rotated] at hrot
    refine ⟨f, ⟨hf, hrot⟩, ?_, ?_, ?_⟩
    · rw [receive]
      split <;> rfl
    · rintro rfl
      simp [receive]
    · intro hn e
      rw [receive, if_neg (by simp [hrot, Ne.symm hn]), rank_merge]

variable {a : PollArgs} {o : PollOrders}

theorem poll_frame (h : st.poll cfg a o = some (st', note)) :
    st'.connecting = st.connecting ∧ st'.pending = st.pending ∧
      st'.corpusSignal = st.corpusSignal ∧ st'.checkResult = st.checkResult ∧
      (st'.mgr = st.mgr ∨ st'.mgr = (st.mgr.candidateBatch cfg (batchSize cfg)).1) ∧
      (note = .quiet ∨ ∃ reported maxSignal candidates newInputs,
        note = .polled a.name reported maxSignal candidates newInputs) := by
  have hreport : ∀ s, (st.report a.name s).connecting = st.connecting ∧
      (st.report a.name s).pending = st.pending ∧
      (st.report a.name s).corpusSignal = st.corpusSignal ∧
      (st.report a.name s).checkResult = st.checkResult ∧ (st.report a.name s).mgr = st.mgr := by
    intro s
    rw [report]
    split <;> exact ⟨rfl, rfl, rfl, rfl, rfl⟩
  rw [poll] at h
  split at h
  · simp at h
  split at h
  · cases h
    exact ⟨rfl, rfl, rfl, rfl, .inl rfl, .inl rfl⟩
  · obtain ⟨reported, _, h⟩ := bind_eq_some_iff.mp h
    obtain ⟨hc, hp, hs, hk, hm⟩ := hreport reported
    split at h
    · cases h
      exact ⟨hc, hp, hs, hk, .inl hm, .inr ⟨_, _, _, _, rfl⟩⟩
    · cases h
      refine ⟨hc, hp, hs, hk, ?_, .inr ⟨_, _, _, _, rfl⟩⟩
      rw [Manager.pollCandidates, hm]
      split
      · exact .inr rfl
      · exact .inl rfl

theorem describes_poll (h : st.poll cfg a o = some (st', note)) : note.Describes name st st' := by
  rw [poll] at h
  split at h
  · simp at h
  · split at h
    · cases h
      exact ⟨rfl, fun _ h => h⟩
    · rename_i f hf
      obtain ⟨reported, _, h⟩ := bind_eq_some_iff.mp h
      split at h
      · rename_i hrot
        cases h
        refine ⟨report_rank a.name reported, fun f' hf' => ?_⟩
        obtain ⟨f0, hf0, hin, hself, hother⟩ := report_active hf'
        by_cases hn : a.name = name
        · -- the fuzzer that polls is rotated
          subst name
          simp [hf0.1] at hf
          simp [← hf, hf0.2] at hrot
        · exact ⟨f0, hf0, by rw [if_neg hn]; exact ⟨hother hn, hin⟩⟩
      · rename_i hrot
        cases h
        refine ⟨report_rank a.name reported, fun f' hf' => ?_⟩
        obtain ⟨hlook, hrot'⟩ := hf'
        rw [Dict.lookup_insert_ite] at hlook
        by_cases hn : name = a.name
        · subst name
          rw [if_pos rfl] at hlook
          obtain rfl := some.inj hlook
          refine ⟨f, ⟨hf, by simpa using hrot⟩, ?_⟩
          rw [if_pos rfl]
          constructor
          · obtain ⟨sent, hsent, hlook⟩ :=
              deserialize_serialize (f.newMaxSignal.split 2000 o.split).1 o.serial
            refine ⟨sent, hsent, fun e => ?_⟩
            rw [← rank_split f.newMaxSignal 2000 o.split e]
            exact congrArg (· ⊔ _) (Best.rank_congr (hlook e))
          · exact pollInputs_append _ _ _
        · rw [if_neg hn] at hlook
          obtain ⟨f0, hf0, hin, _, hother⟩ := report_active ⟨hlook, hrot'⟩
          exact ⟨f0, hf0, by rw [if_neg (Ne.symm hn)]; exact ⟨hother (Ne.symm hn), hin⟩⟩

theorem describes_step (h : st.step target cfg e = some (st', note)) (name : Name) :
    note.Describes name st st' := by
  cases effect_step h with
  | @registered i rot c f hc hf =>
    refine ⟨rfl, fun f' hf' => ?_⟩
    obtain ⟨hlook, hrot⟩ := hf'
    rw [Dict.lookup_insert_ite] at hlook
    by_cases hn : name = c.name
    · subst name
      rw [if_pos rfl] at hlook
      obtain rfl := some.inj hlook
      rw [if_pos rfl]
      exact newFuzzer_active hf hrot
    · rw [if_neg hn] at hlook
      rw [if_neg (Ne.symm hn)]
      exact ⟨hlook, hrot⟩
  | @accepted sender inp s hpend =>
    refine ⟨rfl, fun f' hf' => ?_⟩
    obtain ⟨hlook, hrot⟩ := hf'
    rw [Dict.lookup_mapVals] at hlook
    obtain ⟨f, hf, rfl⟩ := map_eq_some_iff.mp hlook
    rw [offer_rotated] at hrot
    refine ⟨f, active_of_sent hf hrot, ?_⟩
    by_cases hn : sender = name
    · simp [offer, hn]
    · simp [offer, hrot, hn, Ne.symm hn]
  | rediscovered n s => exact ⟨rfl, fun f' hf' => active_of_sent hf'.1 hf'.2⟩
  | polled h => exact describes_poll h
  | shutdown n =>
    refine ⟨rfl, fun f' hf' => ⟨?_, hf'.2⟩⟩
    have hlook := hf'.1
    rw [Dict.lookup_erase_ite] at hlook
    split at hlook
    · simp at hlook
    · exact hlook
  | _ => exact ⟨rfl, fun _ h => h⟩

/-- What every step keeps, with its note added to the log, holds at the end of a run. -/
theorem run_induction {P : Server → List Note → Prop} {events : List Event} {log : List Note}
    (step : ∀ st log e st' note, P st log → st.step target cfg e = some (st', note) →
      P st' (log ++ [note]))
    (init : P st []) (h : st.run target cfg events = some (st', log)) : P st' log := by
  refine foldlM_preserves (P := fun x : Server × List Note => P x.1 x.2) ?_ init h
  rintro ⟨st1, log1⟩ e _ ⟨st2, log2⟩ hP hround
  obtain ⟨⟨st3, note⟩, hstep, heq⟩ := bind_eq_some_iff.mp hround
  cases heq
  exact step st1 log1 e st2 note hP hstep

/-- A poll for inputs, with a signal that can be read. -/
def PollArgs.ForInputs (name : Name) (a : PollArgs) : Prop :=
  a.name = name ∧ a.needCandidates = false ∧ (deserialize a.maxSignal).isSome

theorem five_le_inputBatch (cfg : Config) (a : PollArgs) : 5 ≤ inputBatch cfg a := by
  have hbatch : 5 ≤ batchSize cfg := by
    rw [batchSize]
    split <;> omega
  rw [inputBatch]
  split
  · simp [initialBatch]
  · exact hbatch

theorem poll_shortens (hpend : st.pending = none) (hf : st.Active name f) (ha : a.ForInputs name)
    (o : PollOrders) : ∃ st' note f', st.step target cfg (.poll a o) = some (st', note) ∧
    st'.pending = none ∧ st'.Active name f' ∧ f'.inputs.length ≤ f.inputs.length - 5 ∧
    f'.newMaxSignal.keys.length ≤ f.newMaxSignal.keys.length - 2000 := by
  obtain ⟨rfl, hcand, hsig⟩ := ha
  obtain ⟨reported, hreported⟩ := isSome_iff_exists.mp hsig
  have hstep : st.step target cfg (.poll a o) =
      some ((st.report a.name reported).answer cfg a o f reported) := by
    rw [step, poll, hpend, hf.1]
    simp [hreported, hf.2]
  refine ⟨_, _, _, hstep, ?_, ⟨AList.lookup_insert _, hf.2⟩, ?_, ?_⟩
  · simp only [report]
    split <;> exact hpend
  · have h5 := five_le_inputBatch cfg a
    simp only [Manager.pollCandidates, hcand, pollInputs, popBack]
    simp
    omega
  · exact ((length_split _ _ _).trans (if_neg (by omega))).le

theorem polls_shorten {ps : List (PollArgs × PollOrders)} (hps : ∀ p ∈ ps, p.1.ForInputs name)
    (hpend : st.pending = none) (hf : st.Active name f) (log : List Note) :
    ∃ st' log' f', (ps.map fun p => Event.poll p.1 p.2).foldlM (round target cfg) (st, log) =
    some (st', log') ∧ st'.Active name f' ∧ f'.inputs.length ≤ f.inputs.length - 5 * ps.length ∧
    f'.newMaxSignal.keys.length ≤ f.newMaxSignal.keys.length - 2000 * ps.length := by
  induction ps generalizing st f log with
  | nil => exact ⟨st, log, f, rfl, hf, by simp, by simp⟩
  | cons p ps ih =>
    obtain ⟨st1, note, f1, hstep, hpend1, hf1, hin, hsig⟩ :=
      poll_shortens hpend hf (hps p mem_cons_self) p.2
    obtain ⟨st2, log2, f2, hrun, hf2, hin2, hsig2⟩ :=
      ih (fun q hq => hps q (mem_cons_of_mem p hq)) hpend1 hf1 (log ++ [note])
    refine ⟨st2, log2, f2, ?_, hf2, ?_, ?_⟩
    · rw [map_cons, foldlM_cons, Server.round, hstep]
      exact hrun
    · rw [length_cons]
      omega
    · rw [length_cons]
      omega

/-! ### A small setting

Programs are their own hashes and consist of one call, which is enabled. -/

def sampleTarget : Target := ⟨id, fun _ => some [([0x61], 0)], fun _ data => data⟩

def sampleConfig : Config := ⟨true, false, [], 1⟩

def sampleServer : Server := .start ⟨currentDBVersion, ∅⟩ []

def sampleMinimize : MinimizeOrders := ⟨.id, .id, .id⟩

def sampleCheck : Event := .check [[0x61]] false ⟨.id, .id⟩

def sampleConnect (name : Name) : List Event :=
  [.connect name [] sampleMinimize .id, .register 0 none]

/-- An input with a program of one byte. -/
def sampleInput (prog : UInt8) (elems : List Elem) : Input :=
  ⟨[0x61], [prog], ⟨elems, elems.map fun _ => 1⟩, [], 0, []⟩

def sampleNewInput (name : Name) (inp : Input) : List Event :=
  [.newInput name inp, .store ⟨.id, .id⟩, .finish]

def samplePoll (name : Name) (e : Elem) : Event :=
  .poll ⟨name, false, ⟨[e], [1]⟩, false⟩ ⟨.id, .id⟩

end Brf.Mgr
