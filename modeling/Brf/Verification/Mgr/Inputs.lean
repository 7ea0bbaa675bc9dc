import Brf.Verification.Mgr.Steps

/-! # Delivery of inputs

A fuzzer starts with the corpus that its `Connect` found, and from its registration on gets
every input that others bring. What is queued for it and what it was handed add up to these
inputs, each as often as it was accepted. -/

namespace Brf.Mgr

open Brf.Lib Brf.Db Brf.Cover List Option Server Note
open scoped List

variable {target : Target} {cfg : Config} {st st' : Server} {note : Note} {name : Name}

/-- The inputs that a step hands to a fuzzer. -/
def Note.handed (name : Name) : Note → List Input
  | .polled n _ _ _ newInputs => if n = name then newInputs else []
  | .quiet | .snapshot _ _ | .connected _ _ | .accepted _ _ => []

/-- The inputs that a step accepts from the other fuzzers. -/
def Note.fromOthers (name : Name) : Note → List Input
  | .accepted n inp => if n = name then [] else [inp]
  | .quiet | .snapshot _ _ | .connected _ _ | .polled _ _ _ _ _ => []

/-- The log tells that a `Connect` of the fuzzer found `corpus`, with `before` in the log, that
the fuzzer was registered with it, and that from then on it was handed all of it and all inputs
of others, except for the `queued` ones. Nothing is said about the inputs accepted between the
two sections of the `Connect`, of which some may be `late`. -/
def Delivered (name : Name) (log before : List Note) (corpus queued : List Input) : Prop :=
  ∃ between after late,
    log = before ++ .snapshot name corpus :: between ++ .connected name corpus :: after ∧
    late <+ between.flatMap (fromOthers name) ∧
    (after.flatMap (handed name) ++ queued).Perm
      (corpus ++ late ++ after.flatMap (fromOthers name))

variable {log : List Note} {corpus : List Input} {before : List Note}

theorem Delivered.add {queued queued' : List Input} (h : Delivered name log before corpus queued)
    (hp : (note.handed name ++ queued').Perm (queued ++ note.fromOthers name)) :
    Delivered name (log ++ [note]) before corpus queued' := by
  obtain ⟨between, after, late, rfl, hlate, hperm⟩ := h
  refine ⟨between, after ++ [note], late, by simp, hlate, ?_⟩
  simp only [flatMap_append, flatMap_singleton, append_assoc]
  calc after.flatMap (handed name) ++ (note.handed name ++ queued')
    _ ~ after.flatMap (handed name) ++ (queued ++ note.fromOthers name) := hp.append_left _
    _ = after.flatMap (handed name) ++ queued ++ note.fromOthers name := by simp
    _ ~ corpus ++ late ++ after.flatMap (fromOthers name) ++ note.fromOthers name :=
      hperm.append_right _
    _ = corpus ++ (late ++ (after.flatMap (fromOthers name) ++ note.fromOthers name)) := by simp

/-- What a run knows: the corpus of a `Connect` that is not finished is in the log, and every
active fuzzer gets what it is due. -/
structure Accounts (st : Server) (log : List Note) : Prop where
  connecting : ∀ c ∈ st.connecting, ∃ log1 log2, log = log1 ++ .snapshot c.name c.corpus :: log2
  active : ∀ name f, st.Active name f → ∃ before corpus, Delivered name log before corpus f.inputs

variable {e : Event}

/-- A `Connect` that is not finished was there before, or its corpus was found right now; one
that registers was there before. -/
theorem connecting_step (h : st.step target cfg e = some (st', note)) :
    (∀ c ∈ st'.connecting, c ∈ st.connecting ∨ note = .snapshot c.name c.corpus) ∧
    ∀ n corpus, note = .connected n corpus → ∃ c ∈ st.connecting, c.name = n ∧ c.corpus = corpus := by
  cases effect_step h with
  | connected canonical hmin hcorpus =>
    refine ⟨fun c hc => ?_, nofun⟩
    rcases mem_append.mp hc with hc | hc
    · exact .inl hc
    · rw [mem_singleton.mp hc]
      exact .inr rfl
  | @registered i rot c f hc hf =>
    refine ⟨fun c' hc' => .inl (mem_of_mem_eraseIdx hc'), ?_⟩
    rintro n corpus ⟨⟩
    exact ⟨c, hc, rfl, rfl⟩
  | polled h =>
    obtain ⟨hc, _, _, _, _, rfl | ⟨reported, maxSignal, candidates, newInputs, rfl⟩⟩ := poll_frame h
    · exact ⟨fun c h => .inl (by rwa [hc] at h), nofun⟩
    · exact ⟨fun c h => .inl (by rwa [hc] at h), nofun⟩
  | _ => exact ⟨fun c hc => .inl hc, nofun⟩

variable {f' : Fuzzer}

/-- A step that does not connect the fuzzer hands it what leaves its queue, and queues what
others bring. -/
theorem Delivered.step (hstep : st.step target cfg e = some (st', note))
    (hnote : ∀ corpus, note ≠ .connected name corpus) (hf' : st'.Active name f') :
    ∃ f, st.Active name f ∧ ∀ before corpus, Delivered name log before corpus f.inputs →
    Delivered name (log ++ [note]) before corpus f'.inputs := by
  have hd := describes_step hstep name
  cases note with
  | quiet | snapshot n corpus =>
    exact ⟨f', hd.2 f' hf', fun _ _ h => h.add (by simp [handed, fromOthers])⟩
  | connected n corpus =>
    have hf := hd.2 f' hf'
    rw [if_neg (fun hn => hnote corpus (by rw [hn]))] at hf
    exact ⟨f', hf, fun _ _ h => h.add (by simp [handed, fromOthers])⟩
  | accepted n inp =>
    obtain ⟨f, hact, _, hin⟩ := hd.2 f' hf'
    refine ⟨f, hact, fun _ _ h => h.add ?_⟩
    rw [hin, handed, fromOthers]
    split <;> simp
  | polled n reported maxSignal candidates newInputs =>
    obtain ⟨f, hact, hf⟩ := hd.2 f' hf'
    refine ⟨f, hact, fun _ _ h => h.add ?_⟩
    rw [handed, fromOthers, append_nil]
    by_cases hn : n = name
    · rw [if_pos hn] at hf ⊢
      rw [hf.2]
      exact perm_append_comm.trans (List.Perm.append_left _ (reverse_perm _).symm)
    · rw [if_neg hn] at hf ⊢
      rw [hf.2, nil_append]

theorem Accounts.active_step (h : Accounts st log)
    (hstep : st.step target cfg e = some (st', note)) (hf' : st'.Active name f') :
    ∃ before corpus, Delivered name (log ++ [note]) before corpus f'.inputs := by
  by_cases hnote : ∃ corpus, note = .connected name corpus
  · obtain ⟨corpus, rfl⟩ := hnote
    have hf := (describes_step hstep name).2 f' hf'
    rw [if_pos rfl] at hf
    obtain ⟨c, hc, rfl, rfl⟩ := (connecting_step hstep).2 name corpus rfl
    obtain ⟨before, between, rfl⟩ := h.connecting c hc
    exact ⟨before, c.corpus, between, [], [], by simp, nil_sublist _, by simp [hf.1]⟩
  · obtain ⟨f, hact, hdel⟩ := Delivered.step hstep (by simpa using hnote) hf'
    obtain ⟨before, corpus, h⟩ := h.active name f hact
    exact ⟨before, corpus, hdel before corpus h⟩

theorem Accounts.step (h : Accounts st log)
    (hstep : st.step target cfg e = some (st', note)) : Accounts st' (log ++ [note]) := by
  constructor
  · intro c hc
    rcases (connecting_step hstep).1 c hc with hc | rfl
    · obtain ⟨log1, log2, rfl⟩ := h.connecting c hc
      exact ⟨log1, log2 ++ [note], by simp⟩
    · exact ⟨log, [], rfl⟩
  · intro name f' hf'
    exact h.active_step hstep hf'

variable {events : List Event}

theorem Accounts.run {corpusDB : CorpusDB} {seeds : List Bytes}
    (hrun : (start corpusDB seeds).run target cfg events = some (st, log)) : Accounts st log := by
  refine run_induction (fun _ _ _ _ _ h hstep => h.step hstep) ?_ hrun
  constructor
  · intro c hc
    simp [start] at hc
  · intro name f hf
    simp [Server.Active, start] at hf

/-! ### The corpus of a connect -/

theorem snapshot_step {n : Name}
    (h : st.step target cfg e = some (st', .snapshot n corpus)) : corpus.Perm st'.mgr.inputs := by
  cases effect_step h with
  | connected canonical hmin hcorpus => exact hcorpus
  | polled h =>
    obtain ⟨_, _, _, _, _, h | ⟨_, _, _, _, h⟩⟩ := poll_frame h
    · cases h
    · cases h

theorem run_split {log1 log2 : List Note}
    (h : st.run target cfg events = some (st', log1 ++ note :: log2)) :
    ∃ events1 e events2 st1 st2, events = events1 ++ e :: events2 ∧ st.run target cfg events1 =
    some (st1, log1) ∧ st1.step target cfg e = some (st2, note) := by
  induction events using List.reverseRecOn generalizing st' log2 with
  | nil => simp [run] at h
  | append_singleton events e ih =>
    rw [run, foldlM_append] at h
    obtain ⟨⟨st1, log⟩, hrun, hlast⟩ := bind_eq_some_iff.mp h
    obtain ⟨⟨st2, log'⟩, hround, heq⟩ := bind_eq_some_iff.mp hlast
    cases heq
    obtain ⟨⟨st3, last⟩, hstep, heq⟩ := bind_eq_some_iff.mp hround
    obtain ⟨rfl, hlog⟩ := Prod.mk.inj (some.inj heq)
    rcases eq_nil_or_concat log2 with rfl | ⟨log2, last', rfl⟩
    · obtain ⟨rfl, hl⟩ := append_inj' hlog rfl
      cases hl
      exact ⟨events, e, [], st1, st3, rfl, hrun, hstep⟩
    · have hlog' : log ++ [last] = (log1 ++ note :: log2) ++ [last'] := by simpa using hlog
      obtain ⟨rfl, _⟩ := append_inj' hlog' rfl
      obtain ⟨es1, e', es2, sa, sb, rfl, hrun', hstep'⟩ := ih hrun
      exact ⟨es1, e', es2 ++ [e], sa, sb, by simp, hrun', hstep'⟩

theorem polls_deliver {ps : List (PollArgs × PollOrders)} (hps : ∀ p ∈ ps, p.1.ForInputs name)
    {f : Fuzzer} (hpend : st.pending = none) (hf : st.Active name f)
    (h : Delivered name log before corpus f.inputs) :
    ∃ st' log' f', (ps.map fun p => Event.poll p.1 p.2).foldlM (round target cfg) (st, log) =
        some (st', log') ∧ st'.Active name f' ∧ Delivered name log' before corpus f'.inputs ∧
      f'.inputs.length ≤ f.inputs.length - 5 * ps.length := by
  induction ps generalizing st f log with
  | nil => exact ⟨st, log, f, rfl, hf, h, by simp⟩
  | cons p ps ih =>
    obtain ⟨st1, note, f1, hstep, hpend1, hf1, hin, _⟩ :=
      poll_shortens hpend hf (hps p mem_cons_self) p.2
    have hnote : ∀ corpus, note ≠ .connected name corpus := by
      rintro corpus rfl
      obtain ⟨_, _, _, _, _, h | ⟨_, _, _, _, h⟩⟩ := poll_frame hstep
      · cases h
      · cases h
    obtain ⟨f0, hf0, hdel⟩ := Delivered.step hstep hnote hf1
    obtain rfl : f = f0 := some.inj (hf.1.symm.trans hf0.1)
    obtain ⟨st2, log2, f2, hrun, hf2, hdel2, hin2⟩ :=
      ih (fun q hq => hps q (mem_cons_of_mem p hq)) hpend1 hf1 (hdel before corpus h)
    refine ⟨st2, log2, f2, ?_, hf2, hdel2, ?_⟩
    · rw [map_cons, foldlM_cons, Server.round, hstep]
      exact hrun
    · rw [length_cons]
      omega

/-- In every run, for every fuzzer that is connected and not rotated: the inputs it was handed
and those queued for it are the corpus that its `Connect` found, and the inputs accepted from
other fuzzers since it was registered, each once. Polls of the fuzzer empty the queue. Inputs
accepted between the two sections of the `Connect` are left open. -/
theorem input_delivery (corpusDB : CorpusDB) (seeds : List Bytes) {events : List Event}
    {log : List Note} {f : Fuzzer}
    (hrun : (start corpusDB seeds).run target cfg events = some (st, log))
    (hf : st.fuzzers.lookup name = some f) (hrot : f.rotated = false) :
    ∃ before corpus, Delivered name log before corpus f.inputs ∧
      (∃ events1 st1, events1 <+: events ∧
        (start corpusDB seeds).run target cfg events1 =
          some (st1, before ++ [.snapshot name corpus]) ∧ corpus.Perm st1.mgr.inputs) ∧
      (st.pending = none → ∀ polls : List (PollArgs × PollOrders),
        (∀ p ∈ polls, p.1.ForInputs name) → f.inputs.length ≤ 5 * polls.length →
        ∃ st' log', (start corpusDB seeds).run target cfg
            (events ++ polls.map fun p => .poll p.1 p.2) = some (st', log') ∧
          Delivered name log' before corpus []) := by
  obtain ⟨before, corpus, hdel⟩ := (Accounts.run hrun).active name f ⟨hf, hrot⟩
  refine ⟨before, corpus, hdel, ?_, ?_⟩
  · obtain ⟨between, after, _, rfl, _⟩ := hdel
    have hrun' : (start corpusDB seeds).run target cfg events =
        some (st, before ++ .snapshot name corpus ::
          (between ++ .connected name corpus :: after)) := by
      simpa using hrun
    obtain ⟨events1, e, events2, st1, st2, rfl, hrun1, hstep⟩ := run_split hrun'
    refine ⟨events1 ++ [e], st2, ⟨events2, by simp⟩, ?_, snapshot_step hstep⟩
    rw [run, foldlM_append]
    refine bind_eq_some_iff.mpr ⟨(st1, before), hrun1, ?_⟩
    rw [foldlM_cons, Server.round, hstep]
    rfl
  · intro hpend polls hpolls hlen
    obtain ⟨st', log', f', hmore, _, hdel', hin⟩ := polls_deliver hpolls hpend ⟨hf, hrot⟩ hdel
    refine ⟨st', log', ?_, ?_⟩
    · rw [run, foldlM_append]
      exact bind_eq_some_iff.mpr ⟨(st, log), hrun, hmore⟩
    · have hnil : f'.inputs = [] := eq_nil_of_length_eq_zero (by omega)
      rwa [hnil] at hdel'

/-- What one fuzzer brings is queued for the other. -/
theorem input_delivery_second_fuzzer :
    ∃ st log f, sampleServer.run sampleTarget sampleConfig
        (sampleCheck :: sampleConnect [1] ++ sampleConnect [2] ++
          sampleNewInput [1] (sampleInput 5 [7])) = some (st, log) ∧
      st.fuzzers.lookup [2] = some f ∧ f.rotated = false ∧ f.inputs = [sampleInput 5 [7]] ∧
      ∃ before corpus, Delivered [2] log before corpus [sampleInput 5 [7]] := by
  have h : ((sampleServer.run sampleTarget sampleConfig
      (sampleCheck :: sampleConnect [1] ++ sampleConnect [2] ++
        sampleNewInput [1] (sampleInput 5 [7]))).map fun x =>
        (x.1.fuzzers.lookup [2]).map fun f => (f.rotated, f.inputs)) =
      some (some (false, [sampleInput 5 [7]])) := by decide +kernel
  obtain ⟨⟨st, log⟩, hrun, heq⟩ := map_eq_some_iff.mp h
  obtain ⟨f, hf, heq⟩ := map_eq_some_iff.mp heq
  obtain ⟨hrot, hin⟩ := Prod.mk.inj heq
  obtain ⟨before, corpus, hdel, _⟩ := input_delivery _ _ hrun hf hrot
  exact ⟨st, log, f, hrun, hf, hrot, hin, before, corpus, hin ▸ hdel⟩

/-- The input was accepted from fuzzer 1; fuzzer 2 is active, has nothing queued and was never
handed the program. -/
def Missed (inp : Input) (x : Server × List Note) : Bool :=
  (x.2.any fun note => (note.fromOthers [2]).any fun i => i.prog = inp.prog) &&
  ((x.1.fuzzers.lookup [2]).any fun f => !f.rotated && f.inputs.isEmpty) &&
  !((x.2.flatMap (handed [2])).any fun i => i.prog = inp.prog)

/-- Fuzzer 2 misses an input that was accepted between the two sections of its `Connect`, and
one that minimization dropped before its `Connect`. Fuzzer 1 gets its own input back when it
connects again. -/
theorem inputs_missed_or_returned :
    (sampleServer.run sampleTarget sampleConfig
      (sampleCheck :: sampleConnect [1] ++ [.connect [2] [] sampleMinimize .id] ++
        sampleNewInput [1] (sampleInput 5 [7]) ++
        [.register 0 none, samplePoll [2] 1])).any (Missed (sampleInput 5 [7])) ∧
    (sampleServer.run sampleTarget sampleConfig
      (sampleCheck :: sampleConnect [1] ++ sampleNewInput [1] (sampleInput 5 [7]) ++
        sampleNewInput [1] (sampleInput 6 [7, 8]) ++ sampleConnect [2] ++
        [samplePoll [2] 1])).any (Missed (sampleInput 5 [7])) ∧
    (sampleServer.run sampleTarget sampleConfig
      (sampleCheck :: sampleConnect [1] ++ sampleNewInput [1] (sampleInput 5 [7]) ++
        sampleConnect [1] ++ [samplePoll [1] 1])).any fun x =>
      (x.2.flatMap (handed [1])).any fun i => i.prog = (sampleInput 5 [7]).prog := by
  decide +kernel

end Brf.Mgr
