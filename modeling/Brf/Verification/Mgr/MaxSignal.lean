import Brf.Verification.Mgr.Steps

/-! # Delivery of the max signal

What a fuzzer reported, what it was sent and what is queued for it make up the max signal of
the server, at every moment after its connect. -/

namespace Brf.Mgr

open Brf.Lib Brf.Db Signal Server

variable {target : Target} {cfg : Config} {st st' : Server} {note : Note} {name : Name}

/-- What a fuzzer reported and what it was sent since it was connected last. -/
structure Exchange where
  reported : Signal
  sent : Signal

def Exchange.add (name : Name) (x : Exchange) : Note → Exchange
  | .connected n _ => if n = name then ⟨∅, ∅⟩ else x
  | .polled n reported maxSignal _ _ =>
    if n = name then
      ⟨x.reported.merge reported, x.sent.merge ((deserialize maxSignal).getD ∅)⟩
    else x
  | .quiet | .snapshot _ _ | .accepted _ _ => x

def exchange (name : Name) (log : List Note) : Exchange := log.foldl (Exchange.add name) ⟨∅, ∅⟩

theorem exchange_append (log : List Note) (note : Note) :
    exchange name (log ++ [note]) = (exchange name log).add name note :=
  List.foldl_append

/-- All that a fuzzer knows of or is going to know of. -/
def Exchange.total (x : Exchange) (f : Fuzzer) : Signal :=
  (x.reported.merge x.sent).merge f.newMaxSignal

theorem Exchange.rank_total (x : Exchange) (f : Fuzzer) (e : Elem) :
    (x.total f).rank e = f.newMaxSignal.rank e ⊔ (x.sent.rank e ⊔ x.reported.rank e) := by
  rw [total, rank_merge, rank_merge]

/-- For an active fuzzer nothing of the max signal is missing, and nothing is added to it. -/
def Balanced (name : Name) (st : Server) (log : List Note) : Prop :=
  ∀ f, st.Active name f → ∀ e, ((exchange name log).total f).rank e = st.maxSignal.rank e

variable {log : List Note} {n : Name}

theorem Balanced.connected {corpus : List Input}
    (h : Balanced name st log) (hd : (Note.connected n corpus).Describes name st st') :
    Balanced name st' (log ++ [.connected n corpus]) := by
  intro f' hf' e
  obtain ⟨hmax, hf⟩ := hd
  have hf := hf f' hf'
  rw [exchange_append, Exchange.add, hmax]
  split
  · rename_i hn
    rw [if_pos hn] at hf
    rw [Exchange.rank_total, hf.2]
    simp
  · rename_i hn
    rw [if_neg hn] at hf
    exact h f' hf e

/-- A poll of the fuzzer itself adds its report on both sides; what it is sent leaves its
queue. A poll of another fuzzer adds what is new in the report on both sides. -/
theorem Balanced.polled {reported : Signal} {maxSignal : Serial}
    {candidates : List Candidate} {newInputs : List Input} (h : Balanced name st log)
    (hd : (Note.polled n reported maxSignal candidates newInputs).Describes name st st') :
    Balanced name st' (log ++ [.polled n reported maxSignal candidates newInputs]) := by
  intro f' hf' e
  obtain ⟨hmax, hf⟩ := hd
  obtain ⟨f, hact, hf⟩ := hf f' hf'
  have hbal := h f hact e
  rw [Exchange.rank_total] at hbal
  rw [exchange_append, Exchange.add, hmax]
  split
  · rename_i hn
    rw [if_pos hn] at hf
    obtain ⟨⟨sent, hsent, hqueue⟩, _⟩ := hf
    have hnew := rank_merge_diff st.maxSignal reported e
    rw [rank_merge] at hnew
    rw [hnew, Exchange.rank_total, hsent, Option.getD_some, rank_merge, rank_merge,
      ← hbal, ← hqueue e]
    ac_rfl
  · rename_i hn
    rw [if_neg hn] at hf
    rw [Exchange.rank_total, hf.1 e, ← hbal, max_assoc]

theorem Balanced.step {e : Event} (h : Balanced name st log)
    (hstep : st.step target cfg e = some (st', note)) : Balanced name st' (log ++ [note]) := by
  have hd := describes_step hstep name
  cases note with
  | quiet | snapshot n corpus =>
    intro f' hf' e
    rw [exchange_append, hd.1]
    exact h f' (hd.2 f' hf') e
  | connected n corpus => exact h.connected hd
  | accepted n inp =>
    intro f' hf' e
    obtain ⟨f, hact, hqueue, _⟩ := hd.2 f' hf'
    rw [exchange_append, Exchange.add, hd.1, ← h f hact e, Exchange.total, Exchange.total, hqueue]
  | polled n reported maxSignal candidates newInputs => exact h.polled hd

variable {events : List Event}

theorem Balanced.run {corpusDB : CorpusDB} {seeds : List Bytes}
    (hrun : (start corpusDB seeds).run target cfg events = some (st, log)) :
    Balanced name st log := by
  refine run_induction (fun _ _ _ _ _ h hstep => h.step hstep) ?_ hrun
  intro f hf
  simp [Server.Active, start] at hf

/-- In every run, for every fuzzer that is connected and not rotated, the max signal of the
server is what the fuzzer reported since its connect, merged with what it was sent since then
and with what is queued for it. Polls of the fuzzer empty the queue. -/
theorem max_signal_delivered (corpusDB : CorpusDB) (seeds : List Bytes) {events : List Event}
    {log : List Note} {f : Fuzzer}
    (hrun : (start corpusDB seeds).run target cfg events = some (st, log))
    (hf : st.fuzzers.lookup name = some f) (hrot : f.rotated = false) :
    (∀ e, (((exchange name log).reported.merge (exchange name log).sent).merge
      f.newMaxSignal).lookup e = st.maxSignal.lookup e) ∧
    (st.pending = none → ∀ polls : List (PollArgs × PollOrders),
      (∀ p ∈ polls, p.1.ForInputs name) → f.newMaxSignal.keys.length ≤ 2000 * polls.length →
      ∃ st' log', (start corpusDB seeds).run target cfg
          (events ++ polls.map fun p => .poll p.1 p.2) = some (st', log') ∧
        ∀ e, ((exchange name log').reported.merge (exchange name log').sent).lookup e =
          st'.maxSignal.lookup e) := by
  constructor
  · exact fun e => lookup_eq_of_rank_eq (Balanced.run hrun f ⟨hf, hrot⟩ e)
  · intro hpend polls hpolls hlen
    obtain ⟨st', log', f', hmore, hf', _, hqueue⟩ :=
      polls_shorten hpolls hpend ⟨hf, hrot⟩ log
    have hrun' : (start corpusDB seeds).run target cfg
        (events ++ polls.map fun p => .poll p.1 p.2) = some (st', log') := by
      rw [run, List.foldlM_append]
      exact Option.bind_eq_some_iff.mpr ⟨(st, log), hrun, hmore⟩
    refine ⟨st', log', hrun', fun e => lookup_eq_of_rank_eq ?_⟩
    have hbal := Balanced.run hrun' f' hf' e
    rw [Exchange.total, rank_merge, rank_of_length_keys (by omega), max_bot_left] at hbal
    exact hbal

/-- What one fuzzer reports is queued for the other. -/
theorem max_signal_delivered_second_fuzzer :
    ∃ st log f, sampleServer.run sampleTarget sampleConfig
        (sampleConnect [1] ++ sampleConnect [2] ++ [samplePoll [1] 7]) = some (st, log) ∧
      st.fuzzers.lookup [2] = some f ∧ f.rotated = false ∧ st.maxSignal.lookup 7 = some 1 ∧
      (((exchange [2] log).reported.merge (exchange [2] log).sent).merge
        f.newMaxSignal).lookup 7 = some 1 := by
  have h : ((sampleServer.run sampleTarget sampleConfig
      (sampleConnect [1] ++ sampleConnect [2] ++ [samplePoll [1] 7])).map fun x =>
        ((x.1.fuzzers.lookup [2]).map Fuzzer.rotated, x.1.maxSignal.lookup 7)) =
      some (some false, some 1) := by decide +kernel
  obtain ⟨⟨st, log⟩, hrun, heq⟩ := Option.map_eq_some_iff.mp h
  obtain ⟨hlook, hmax⟩ := Prod.mk.inj heq
  obtain ⟨f, hf, hrot⟩ := Option.map_eq_some_iff.mp hlook
  refine ⟨st, log, f, hrun, hf, hrot, hmax, ?_⟩
  rw [(max_signal_delivered _ _ hrun hf hrot).1 7, hmax]

/-- All that was reported, also by rotated fuzzers. -/
def reports (log : List Note) : Signal :=
  log.foldl (fun s => fun
    | .polled _ reported _ _ _ => s.merge reported
    | _ => s) ∅

/-- In every run the max signal is what was reported, no more and no less. -/
theorem maxSignal_eq_reports (corpusDB : CorpusDB) (seeds : List Bytes)
    (hrun : (start corpusDB seeds).run target cfg events = some (st, log)) (e : Elem) :
    st.maxSignal.lookup e = (reports log).lookup e := by
  refine lookup_eq_of_rank_eq (run_induction
    (P := fun st log => st.maxSignal.rank e = (reports log).rank e) ?_ rfl hrun)
  intro st log _ st' note h hstep
  have hd := describes_step hstep []
  rw [reports, List.foldl_append]
  cases note with
  | quiet | snapshot | connected | accepted =>
    rw [hd.1]
    exact h
  | polled n reported =>
    rw [hd.1 e, ← rank_merge, rank_merge_diff, h]
    exact (rank_merge _ _ _).symm

theorem maxSignal_eq_reports_polled : ∃ x, sampleServer.run sampleTarget sampleConfig
    (sampleConnect [1] ++ [samplePoll [1] 7]) = some x ∧
      x.1.maxSignal.lookup 7 = (reports x.2).lookup 7 := by
  have h : (sampleServer.run sampleTarget sampleConfig
      (sampleConnect [1] ++ [samplePoll [1] 7])).isSome := by decide +kernel
  obtain ⟨x, hrun⟩ := Option.isSome_iff_exists.mp h
  exact ⟨x, hrun, maxSignal_eq_reports _ _ hrun 7⟩

end Brf.Mgr
