import Brf.Model.ParseLog
import Mathlib.Tactic

/-! # Entries of logs

What an entry of a log owes to the lines before its own header. -/

namespace Brf

open List LogState LogEntry

section Lines

variable {data : List UInt8} {lines pre post : List (List UInt8)}

theorem flatten_splitLines (data : List UInt8) : (splitLines data).flatten = data := by
  induction data with
  | nil => rfl
  | cons c cs ih =>
    unfold splitLines
    split
    · simp [ih]
    · split <;> simp_all

theorem splitLines_tail {line : List UInt8} (h : splitLines data = line :: lines) :
    splitLines lines.flatten = lines := by
  induction data generalizing line with
  | nil => cases h
  | cons c cs ih =>
    unfold splitLines at h
    split at h
    · cases h
      rw [flatten_splitLines]
    · split at h
      · cases h
        rfl
      · next hcs =>
        cases h
        exact ih hcs

theorem splitLines_drop (h : splitLines data = pre ++ post) : splitLines post.flatten = post := by
  induction pre generalizing data with
  | nil =>
    obtain rfl : splitLines data = post := h
    rw [flatten_splitLines]
  | cons line pre ih => exact ih (splitLines_tail h)

theorem splitLines_take (h : splitLines data = pre ++ post) : splitLines pre.flatten = pre := by
  induction data generalizing pre with
  | nil =>
    obtain ⟨rfl, -⟩ := append_eq_nil_iff.mp h.symm
    rfl
  | cons c cs ih =>
    cases pre with
    | nil => rfl
    | cons line pre =>
      unfold splitLines at h
      split at h
      · next hc =>
        obtain ⟨rfl, hcs⟩ := List.cons.inj h
        simp [splitLines, hc, ih hcs]
      · next hc =>
        split at h
        · next hcs =>
          obtain ⟨rfl, hnil⟩ := List.cons.inj h
          obtain ⟨rfl, -⟩ := append_eq_nil_iff.mp hnil.symm
          simp [splitLines, hc]
        · next line' lines' hcs =>
          obtain ⟨rfl, rfl⟩ := List.cons.inj h
          have := @ih (line' :: pre) hcs
          simp_all [splitLines]

end Lines

section Loop

variable {deserialize : List UInt8 → Option Prog} {own st : LogState} {left : Fault}
  {line : List UInt8} {lines : List (List UInt8)} {e : LogEntry}

theorem hasCalls_inject (p : Option Prog) (f : Fault) :
    hasCalls (p.map (·.inject f)) = hasCalls p := by
  rcases p with _ | ⟨_ | ⟨c, calls⟩, uses⟩ <;> rcases f with _ | ⟨_ | call, nth⟩ <;> rfl

/-- The current entry with what its lines alone give: the same program, but for the fault that
is left to it by the lines before. -/
structure Follows (own st : LogState) (left : Fault) : Prop where
  entries : own.entries = []
  cur : st.cur = own.cur
  p : st.ent.p = own.ent.p.map (·.inject left)
  fault : own.fault = none ∧ st.fault = left ∨ left = none ∧ st.fault = own.fault

theorem Follows.text (h : Follows own st left) (hline : extractInt line "executing program " = none) :
    Follows (own.step deserialize line) (st.step deserialize line) left := by
  simp only [step, hline, h.cur]
  split
  · exact ⟨h.entries, rfl, h.p, h.fault⟩
  · next p hp =>
    refine ⟨h.entries, rfl, ?_, h.fault⟩
    rcases h.fault with ⟨hown, hst⟩ | ⟨hleft, hst⟩
    · simp [hown, hst, Prog.inject]
    · simp [hleft, hst, Prog.inject]

theorem step_text (st : LogState) (hline : extractInt line "executing program " = none) :
    (st.step deserialize line).entries = st.entries ∧
      (st.step deserialize line).ent.start = st.ent.start := by
  simp only [step, hline]
  split <;> exact ⟨rfl, rfl⟩

variable (deserialize) in
/-- The fault that the lines before a header leave to its entry. -/
def leftFault (pre : List (List UInt8)) (header : List UInt8) : Fault :=
  let st := run deserialize pre
  if (headerFault header).isSome || hasCalls st.ent.p then none else st.fault

theorem run_snoc (lines : List (List UInt8)) (line : List UInt8) :
    run deserialize (lines ++ [line]) = (run deserialize lines).step deserialize line := by
  simp [run]

theorem Follows.header {proc : ℕ} (hline : extractInt line "executing program " = some proc) :
    Follows (run deserialize [line]) (run deserialize (lines ++ [line]))
      (leftFault deserialize lines line) := by
  rw [run_snoc]
  simp only [run, foldl_cons, foldl_nil, step, hline, leftFault]
  refine ⟨rfl, rfl, rfl, ?_⟩
  cases headerFault line with
  | none => exact .inl ⟨rfl, rfl⟩
  | some f => exact .inr ⟨rfl, rfl⟩

variable (deserialize) in
/-- The entry of some of the lines: what they give alone, with the fault left to it. -/
def OwnEntry (lines : List (List UInt8)) (e : LogEntry) : Prop :=
  ∃ pre mid post e', lines = pre ++ mid ++ post ∧ e.start = pre.flatten.length ∧
    e.stop = (pre ++ mid).flatten.length ∧ (run deserialize mid).finish = [e'] ∧
    e.p = e'.p.map (·.inject (leftFault deserialize pre (mid.headD [])))

variable (deserialize) in
/-- The lines of the current entry are the last ones that were read. -/
def Current (lines : List (List UInt8)) : Prop :=
  ∃ pre mid, lines = pre ++ mid ∧ (mid = [] → pre = []) ∧
    (run deserialize lines).ent.start = pre.flatten.length ∧
    Follows (run deserialize mid) (run deserialize lines)
      (leftFault deserialize pre (mid.headD []))

theorem run_pos (lines : List (List UInt8)) :
    (run deserialize lines).pos = lines.flatten.length := by
  induction lines using List.reverseRecOn with
  | nil => rfl
  | append_singleton lines line ih =>
    rw [run_snoc, flatten_append, length_append, ← ih]
    dsimp only [step]
    split
    · simp
    · split <;> simp

theorem Current.close (h : Current deserialize lines)
    (hcalls : hasCalls (run deserialize lines).ent.p) (post : List (List UInt8)) :
    OwnEntry deserialize (lines ++ post) { (run deserialize lines).ent with
      stop := (run deserialize lines).pos } := by
  obtain ⟨pre, mid, rfl, -, hstart, hfollows⟩ := h
  rw [hfollows.p, hasCalls_inject] at hcalls
  refine ⟨pre, mid, post, { (run deserialize mid).ent with
    stop := (run deserialize mid).pos }, rfl, hstart, run_pos _, ?_, hfollows.p⟩
  rw [finish, hfollows.entries, nil_append, if_pos hcalls]

theorem run_entries (lines : List (List UInt8)) : Current deserialize lines ∧
    ∀ e ∈ (run deserialize lines).entries, OwnEntry deserialize lines e := by
  induction lines using List.reverseRecOn with
  | nil => exact ⟨⟨[], [], rfl, fun _ => rfl, rfl, rfl, rfl, rfl, .inr ⟨rfl, rfl⟩⟩, nofun⟩
  | append_singleton lines line ih =>
    obtain ⟨hcurrent, hentries⟩ := ih
    have hmono : ∀ e, OwnEntry deserialize lines e → OwnEntry deserialize (lines ++ [line]) e := by
      rintro e ⟨pre, mid, post, e', rfl, h⟩
      exact ⟨pre, mid, post ++ [line], e', by simp, h⟩
    cases hline : extractInt line "executing program " with
    | none =>
      obtain ⟨pre, mid, rfl, hfirst, hstart, hfollows⟩ := hcurrent
      obtain ⟨hkeep, hkeepStart⟩ :=
        step_text (run deserialize (pre ++ mid)) hline
      have hleft : leftFault deserialize pre ((mid ++ [line]).headD []) =
          leftFault deserialize pre (mid.headD []) := by
        cases mid with
        | nil => simp [hfirst rfl, leftFault, run, init]
        | cons => rfl
      refine ⟨⟨pre, mid ++ [line], by simp, by simp, ?_, ?_⟩, fun e he => ?_⟩
      · rw [run_snoc, hkeepStart, hstart]
      · rw [hleft, run_snoc, run_snoc]
        exact hfollows.text hline
      · rw [run_snoc, hkeep] at he
        exact hmono e (hentries e he)
    | some proc =>
      refine ⟨⟨lines, [line], rfl, nofun, ?_, .header hline⟩, fun e he => ?_⟩
      · rw [run_snoc]
        simp [step, hline, run_pos]
      · rw [run_snoc] at he
        simp only [step, hline] at he
        split at he
        · next hclosed =>
          rcases mem_append.mp he with he | he
          · exact hmono e (hentries e he)
          · rw [mem_singleton.mp he]
            exact hcurrent.close hclosed [line]
        · exact hmono e (hentries e he)

theorem finish_entries (lines : List (List UInt8)) :
    ∀ e ∈ (run deserialize lines).finish, OwnEntry deserialize lines e := by
  obtain ⟨hcurrent, hentries⟩ := run_entries lines
  intro e he
  rcases mem_append.mp he with he | he
  · exact hentries e he
  · split at he
    · next hcalls =>
      rw [mem_singleton.mp he]
      simpa using hcurrent.close hcalls []
    · cases he

end Loop

/-- The part of a log with the entry's own header line and text. -/
def LogEntry.own (e : LogEntry) (data : List UInt8) : List UInt8 :=
  (data.drop e.start).take (e.stop - e.start)

def LogEntry.failNths (e : LogEntry) : Option (List Int64) :=
  e.p.map fun p => p.calls.map fun c => c.props.failNth

section Entries

variable (deserialize : List UInt8 → Option Prog) (data : List UInt8)

/-- The fault that is left to an entry by earlier headers: its own header names none, and none
of the programs since the header that named it has a call. -/
def LogEntry.leftFault (e : LogEntry) : Fault :=
  Brf.leftFault deserialize (splitLines (data.take e.start))
    ((splitLines (data.drop e.start)).headD [])

variable {deserialize data}

/-- On its own, the part of the log of an entry gives its program without the fault left to it. -/
theorem parseLog_own {e : LogEntry} (he : e ∈ parseLog deserialize data) :
    ∃ e', parseLog deserialize (e.own data) = [e'] ∧
      e.p = e'.p.map (·.inject (e.leftFault deserialize data)) := by
  obtain ⟨pre, mid, post, e', hlines, hstart, hstop, hown, hp⟩ := finish_entries _ e he
  rw [append_assoc] at hlines
  have hdata : data = pre.flatten ++ (mid ++ post).flatten := by
    rw [← flatten_append, ← hlines, flatten_splitLines]
  have hdrop : data.drop e.start = (mid ++ post).flatten := by
    rw [hstart, hdata, drop_left]
  have hrest := splitLines_drop hlines
  have hmid : e.own data = mid.flatten := by
    rw [own, hdrop, hstart, hstop]
    simp
  have hleft : e.leftFault deserialize data = Brf.leftFault deserialize pre (mid.headD []) := by
    have htake : data.take e.start = pre.flatten := by
      rw [hstart, hdata, take_left]
    rw [LogEntry.leftFault, hdrop, hrest, htake, splitLines_take hlines]
    cases mid with
    | nil => cases hown
    | cons => rfl
  refine ⟨e', ?_, hleft ▸ hp⟩
  rw [parseLog, hmid, splitLines_take hrest, hown]

theorem failNths_inject_iff (p : Prog) (f : Fault) :
    (p.inject f).calls.map (fun c => c.props.failNth) = p.calls.map (fun c => c.props.failNth) ↔
      ∀ call nth, f = some (call, nth) → ∀ c ∈ p.calls[call]?,
        c.props.failNth = Int64.ofNat nth + 1 := by
  rcases f with _ | ⟨call, nth⟩
  · simp [Prog.inject]
  constructor
  · rintro h _ _ ⟨⟩ c hc
    have hcall := congrArg (·[call]?) h
    rw [Option.mem_def] at hc
    simpa [Prog.inject, getElem?_modify, hc, eq_comm] using hcall
  · intro h
    refine ext_getElem? fun i => ?_
    have hi := h call nth rfl
    rw [getElem?_map, getElem?_map, Prog.inject, getElem?_modify]
    cases hc : p.calls[i]? with
    | none => rfl
    | some c =>
      by_cases hcall : call = i
      · subst hcall
        simp [hi c hc]
      · simp [hcall]

/-- Every entry has the fault injections of its own header and text exactly if, in every entry to
which earlier headers left a fault, this fault is beyond the calls or already in the text. -/
theorem failNths_own_iff : (∀ e ∈ parseLog deserialize data,
      (parseLog deserialize (e.own data)).map failNths = [e.failNths]) ↔
    ∀ e ∈ parseLog deserialize data, ∀ call nth, e.leftFault deserialize data = some (call, nth) →
      ∀ e' ∈ parseLog deserialize (e.own data), ∀ p ∈ e'.p, ∀ c ∈ p.calls[call]?,
        c.props.failNth = Int64.ofNat nth + 1 := by
  refine forall₂_congr fun e he => ?_
  obtain ⟨e', hown, hp⟩ := parseLog_own he
  simp only [hown, map_cons, map_nil, failNths, hp, List.cons.injEq, and_true,
    mem_singleton, forall_eq]
  cases e'.p with
  | none => simp
  | some p => simpa [eq_comm] using failNths_inject_iff p (e.leftFault deserialize data)

/-- A program with one call without arguments, and a target that reads it from the line `a()`. -/
def oneCall : Prog := ⟨[⟨⟨0, "a", [], none, false⟩, [], none, .zero⟩], []⟩

def readOneCall (text : List UInt8) : Option Prog :=
  if text = [97, 40, 41, 10] then some oneCall else none

/-- A header with a fault for a program that is missing, and a header without one. -/
def leakingLog : List UInt8 :=
  ("executing program 0 (fault-call:0 fault-nth:4):\nexecuting program 1:\na()\n".toList).map
    Char.toUInt8

/-- The fault of the missing program is given to the next one. -/
theorem leakingLog_fault : ¬ ∀ e ∈ parseLog readOneCall leakingLog,
    (parseLog readOneCall (e.own leakingLog)).map failNths = [e.failNths] := by
  decide +kernel

end Entries

end Brf
