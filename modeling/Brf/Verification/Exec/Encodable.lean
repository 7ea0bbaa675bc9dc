import Brf.Verification.Exec.Run

/-! # Which validated programs can be encoded

Validation lets an argument refer to a result of its own call, as long as it was visited
before. The encoder gives results their slots only after it has written the arguments of the
call. -/

namespace Brf

open Lib.Wire Lib AtCall List

/-- Every index referred to has been assigned, to the result it stands for, by then. -/
def UsesAssigned (log : List ExecEvent) : Prop :=
  ∀ before idx id after, log = before ++ .used idx id :: after → .assigned idx id ∈ before

theorem usesAssigned_append {log log' : List ExecEvent} (h : UsesAssigned log)
    (h' : ∀ idx id, .used idx id ∈ log' → .assigned idx id ∈ log) : UsesAssigned (log ++ log') := by
  intro before idx id after heq
  obtain ⟨l, rfl, hl⟩ | ⟨l, hlog, hl⟩ := append_eq_append_iff.mp heq
  · exact mem_append_left _ (h' idx id (by simp [hl]))
  · cases l with
    | nil =>
      have hmem : ExecEvent.used idx id ∈ log' := by
        rw [← (show _ = log' from hl)]
        exact mem_cons_self
      simpa [hlog] using h' idx id hmem
    | cons e l =>
      obtain ⟨rfl, -⟩ := List.cons.inj hl
      exact h before idx id l hlog

/-- No reference the encoder writes is to a result of its own call. -/
def RefsEarlier (t : Target) (p : Prog) : Prop :=
  ∀ n (c : Call), p.calls[n]? = some c →
    ∀ x ∈ c.refs t n, x ∉ (Arg.resultsList c.args).map ResultArg.id

def NoChecksums (t : Target) (p : Prog) : Prop :=
  ∀ n (c : Call), p.calls[n]? = some c → ∀ v ∈ c.visits t n, (t.type v.arg.ref).isCsum = false

section

variable {t : Target} {p : Prog}

theorem csumFields_eq_nil {vs : List Visit} (h : ∀ v ∈ vs, (t.type v.arg.ref).isCsum = false)
    (kind : CsumKind) : csumFields t kind vs = [] := by
  rw [csumFields, filterMap_eq_nil_iff]
  intro v hv
  have := h v hv
  cases htype : t.type v.arg.ref <;> simp_all [Typ.isCsum]

variable {c : Call} {n : ℕ} {x : ArgId}

theorem mem_log_used {first idx : ℕ} {ix : ArgId → ℕ}
    (h : .used idx x ∈ c.log t p n ix first) : x ∈ c.refs t n ∧ idx = ix x := by
  simp only [Call.log, assignments, mem_append, mem_map, ExecEvent.used.injEq,
    reduceCtorEq, and_false, exists_false, or_false] at h
  rcases h with ⟨y, hy, rfl, rfl⟩ | ⟨y, hy, rfl, rfl⟩
  · exact ⟨mem_append_left _ hy, rfl⟩
  · exact ⟨mem_append_right _ hy, rfl⟩

variable {pre : List Call} {w : ExecContext}

theorem AtCall.usesAssigned (h : AtCall t p pre c)
    (hinv : EncInv p pre w) (hlog : UsesAssigned w.log)
    (hrefs : ∀ x ∈ c.refs t n, x ∉ (Arg.resultsList c.args).map ResultArg.id) :
    UsesAssigned (w.log ++ c.log t p n w.idxOf w.copyoutSeq) := by
  refine usesAssigned_append hlog ?_
  intro idx x hx
  obtain ⟨hmem, rfl⟩ := mem_log_used hx
  obtain ⟨hused, hpre⟩ := h.mem_of_mem_refs hmem
  have hpre := hpre.resolve_right (hrefs x hmem)
  obtain ⟨i, hi⟩ := mem_iff_getElem?.mp (mem_slots_iff.mpr ⟨hpre, hused⟩)
  obtain ⟨info, hinfo, rfl, hass⟩ := hinv.slot i x hi
  simpa [ExecContext.idxOf, hinfo] using hass

/-- A reference to a result of its own call is written before the result has a slot. -/
theorem AtCall.not_usesAssigned (h : AtCall t p pre c) (hinv : EncInv p pre w) (hx : x ∈ c.refs t n)
    (hown : x ∈ (Arg.resultsList c.args).map ResultArg.id) (rest : List ExecEvent) :
    ¬ UsesAssigned (w.log ++ c.log t p n w.idxOf w.copyoutSeq ++ rest) := by
  have hnodup := h.nodup
  rw [Call.results, map_append, nodup_append, nodup_append] at hnodup
  have hpre : ∀ i, .assigned i x ∉ w.log := fun i hi =>
    hnodup.2.2 x (hinv.assigned i x hi) x (mem_append_left _ hown) rfl
  have hret : ∀ i k, .assigned i x ∉ assignments k (usedIds p c.ret.toList) := fun i k hi =>
    hnodup.2.1.2.2 x hown x (usedIds_subset (mem_of_assigned_mem hi)) rfl
  let uses : List ArgId → List ExecEvent := List.map fun y => .used (w.idxOf y) y
  have huse : ∀ l i, .assigned i x ∉ uses l := by simp [uses]
  intro hall
  rcases mem_append.mp hx with hx | hx
  · -- the reference is copied in
    obtain ⟨l1, l2, hsplit⟩ := append_of_mem hx
    have hmem := hall (w.log ++ uses l1) (w.idxOf x) x
      (uses l2 ++ (assignments w.copyoutSeq (usedIds p c.ret.toList) ++
        (uses (c.args.flatMap Arg.directRefs) ++
        (assignments (w.copyoutSeq + (usedIds p c.ret.toList).length)
          (usedIds p (Arg.resultsList c.args)) ++ rest))))
      (by simp [Call.log, hsplit, uses])
    simp only [mem_append, hpre, huse, or_self] at hmem
  · -- the reference is passed by value
    obtain ⟨l1, l2, hsplit⟩ := append_of_mem hx
    have hmem := hall (w.log ++ uses ((visitsArgs t n 0 c.args).flatMap (Visit.copyinRefs t)) ++
        assignments w.copyoutSeq (usedIds p c.ret.toList) ++ uses l1) (w.idxOf x) x
      (uses l2 ++ (assignments (w.copyoutSeq + (usedIds p c.ret.toList).length)
          (usedIds p (Arg.resultsList c.args)) ++ rest))
      (by simp [Call.log, hsplit, uses])
    simp only [mem_append, hpre, huse, hret, or_self] at hmem

theorem serializeCalls_spec (ht : t.Compiled) (hsys : ∀ c ∈ p.calls, c.syscall ∈ t.syscalls)
    (hok : ProgOk t p) (hsum : NoChecksums t p) (order : CsumSort) (cs pre : List Call)
    (w : ExecContext) (hcalls : p.calls = pre ++ cs) (hinv : EncInv p pre w) :
    ∃ w', serializeCalls t order p pre.length cs w = some w' ∧ EncInv p p.calls w' ∧
      (∃ rest, w'.log = w.log ++ rest) ∧
      (RefsEarlier t p → UsesAssigned w.log → UsesAssigned w'.log) ∧
      (∀ n (c : Call), cs[n]? = some c → ∀ x ∈ c.refs t (pre.length + n),
        x ∈ (Arg.resultsList c.args).map ResultArg.id → ¬ UsesAssigned w'.log) := by
  induction cs generalizing pre w with
  | nil =>
    refine ⟨w, rfl, ?_, ⟨[], by simp⟩, fun _ h => h, by simp⟩
    rw [hcalls, append_nil]
    exact hinv
  | cons c cs ih =>
    have hc : AtCall t p pre c := ⟨ht, hok, ⟨cs, hcalls⟩, hsys c (by simp [hcalls])⟩
    have hn : p.calls[pre.length]? = some c := by simp [hcalls]
    have hcs : calcChecksumsCall t pre.length c = some Csums.none :=
      by simp [calcChecksumsCall, calcChecksums, csumFields_eq_nil (hsum pre.length c hn)]
    obtain ⟨w1, addrOf, hw1, -, hinv1, -, hlog1⟩ := hc.serializeCall_spec order hinv hcs
    obtain ⟨w2, hw2, hinv2, ⟨rest, hrest⟩, hgood, hbad⟩ :=
      ih (pre ++ [c]) w1 (by simp [hcalls]) hinv1
    rw [length_append, length_singleton] at hw2 hbad
    refine ⟨w2, by simp [serializeCalls, hw1, hw2], hinv2,
      ⟨c.log t p pre.length w.idxOf w.copyoutSeq ++ rest, by simp [hrest, hlog1]⟩, ?_, ?_⟩
    · intro hrefs hlog
      refine hgood hrefs ?_
      rw [hlog1]
      exact hc.usesAssigned hinv hlog (hrefs pre.length c hn)
    · intro n c' hc' x hx hown
      cases n with
      | zero =>
        obtain rfl : c = c' := by simpa using hc'
        rw [hrest, hlog1]
        exact hc.not_usesAssigned hinv hx hown rest
      | succ n => exact hbad n c' (by simpa using hc') x (by rwa [Nat.add_assoc, Nat.add_comm 1]) hown

/-- The number of results some argument refers to. -/
def Prog.numUsed (p : Prog) : ℕ := p.results.countP fun r => p.isUsed r.id

theorem length_slots (p : Prog) : (slots p p.calls).length = p.numUsed := by
  rw [Prog.numUsed, Prog.results, slots]
  induction p.calls with
  | nil => rfl
  | cons c cs ih =>
    simp only [flatMap_cons, length_append, countP_append, ih, Call.slots, usedIds,
      length_map, ← countP_eq_length_filter, Call.results]
    omega

/-- Encoding a validated program without checksums never panics, and it is the references of
calls to their own results that decide whether every index has been assigned when it is used:
there must be none, unless the program has too many results to be encoded at all. -/
theorem serializeForExec_uses_assigned_iff (e : Endian) (order : CsumSort) (ht : t.Compiled)
    (hsys : ∀ c ∈ p.calls, c.syscall ∈ t.syscalls) (hvalid : p.validate t = .ok ())
    (hsum : NoChecksums t p) :
    (∀ size, ∃ r, p.serializeForExec t e order size = some r ∧
      ∀ o, r = .ok o → UsesAssigned o.log) ↔
      RefsEarlier t p ∨ execMaxCommands < p.numUsed := by
  obtain ⟨w, hw, hinv, -, hgood, hbad⟩ := serializeCalls_spec ht hsys (validate_eq_ok.mp hvalid)
    hsum order p.calls [] ExecContext.empty rfl (encInv_empty p)
  have hseq : w.copyoutSeq = p.numUsed := hinv.seq.trans (length_slots p)
  let buf := fun size => Buffer.writeAll e ⟨size, [], false⟩ (w.writeWords [execInstrEOF]).out
  have hrun : ∀ size, p.serializeForExec t e order size =
      some (if (buf size).eof || decide (execMaxCommands < p.numUsed) then .error .bufferTooSmall
        else .ok ⟨(buf size).out, w.log⟩) := by
    intro size
    rw [Prog.serializeForExec, ← hseq]
    simp only [length_nil] at hw
    simp only [hw, Option.bind_eq_bind, Option.bind_some, buf]
    split <;> rfl
  constructor
  · intro hall
    by_contra hno
    simp only [not_or] at hno
    obtain ⟨hrefs, hmax⟩ := hno
    simp only [RefsEarlier, not_forall, not_not] at hrefs
    obtain ⟨n, c, hc, x, hx, hown⟩ := hrefs
    -- a buffer that is just large enough
    have hfits : (buf (streamBytes e (w.writeWords [execInstrEOF]).out).length).eof = false :=
      Buffer.writeAll_fits e _ _ rfl (Nat.le_refl _)
    obtain ⟨r, hr, hok⟩ := hall (streamBytes e (w.writeWords [execInstrEOF]).out).length
    rw [hrun] at hr
    obtain rfl := Option.some.inj hr
    simp only [hfits, hmax, decide_false, Bool.or_false, Bool.false_eq_true, if_false] at hok
    refine hbad n c hc x ?_ hown (hok _ rfl)
    simpa using hx
  · intro hcond size
    refine ⟨_, hrun size, ?_⟩
    intro o ho
    split at ho
    · cases ho
    · rename_i hnot
      obtain rfl := Except.ok.inj ho
      refine hgood (hcond.resolve_right ?_) ?_
      · intro hmax
        simp [hmax] at hnot
      · intro before idx id after heq
        simp [ExecContext.empty] at heq

end

/-! ### A call that refers to its own output -/

/-- Types of a small target: a resource, a struct that returns one and takes one, and a
pointer to the struct. -/
def fdTypes : List Typ :=
  [ .int ⟨⟨"int8", 1, false⟩, .native, 0, 0, 0, 0⟩ .plain 0 0 0,
    .resource ⟨"fd", 4, false⟩ .native ⟨"fd", ["fd"], [0xffffffffffffffff], by simp⟩,
    .struct ⟨"pair", some 8, false⟩
      [⟨"x", 1, true, .dirOut⟩, ⟨"y", 1, true, .dirIn⟩] 0 0,
    .ptr ⟨"ptr", 8, false⟩ 2 .dirInOut ]

/-- The target with the call `pair(a ptr[inout, pair])`. -/
def fdTarget : Target := smallTarget [⟨0, "pair", [⟨"a", 3, false, .dirIn⟩], none, false⟩] fdTypes

/-- A call of `pair`: the ids of the two results, and what the second refers to. -/
def pairCall (x y : ArgId) (res : Option ArgId) : Call :=
  ⟨⟨0, "pair", [⟨"a", 3, false, .dirIn⟩], none, false⟩,
    [.pointer ⟨⟨3, .dirIn⟩, 0, 0⟩ (.group ⟨2, .dirInOut⟩
      [.result ⟨⟨1, .dirOut⟩, x, none, 0, 0, 0⟩, .result ⟨⟨1, .dirIn⟩, y, res, 0, 0, 0⟩])],
    none, CallProps.zero⟩

/-- `pair(&(0x7f0000000000)={<r0=>0x0, r0})`. -/
def selfRefProg : Prog := ⟨[pairCall 1 2 (some 1)], [(1, 2)]⟩

/-- Two calls of `pair`, the second with the result of the first. -/
def chainProg : Prog := ⟨[pairCall 1 2 none, pairCall 3 4 (some 1)], [(1, 4)]⟩

theorem fdTarget_compiled : fdTarget.Compiled where
  types := forall_getD (by decide)
  argTypes := by decide
  numArgs := by decide
  syscallIds i s h := by
    rcases i with _ | i <;> simp [fdTarget, smallTarget] at h
    rw [← h]
  numSyscalls := by decide

/-- The call of `selfRefProg` is encoded with an index that nothing has assigned. -/
theorem selfRefProg_unassigned :
    fdTarget.Compiled ∧ (∀ c ∈ selfRefProg.calls, c.syscall ∈ fdTarget.syscalls) ∧
      selfRefProg.validate fdTarget = .ok () ∧ NoChecksums fdTarget selfRefProg ∧
      ∃ o, selfRefProg.serializeForExec fdTarget .little CsumSort.byAddr 4096 = some (.ok o) ∧
        ¬ UsesAssigned o.log := by
  refine ⟨fdTarget_compiled, by decide, by decide, ?_, _, rfl, ?_⟩
  · rintro (_ | n) c hc
    · obtain rfl := Option.some.inj hc
      decide
    · simp [selfRefProg] at hc
  · intro h
    have := h [] 0 1 _ rfl
    simp at this

/-- References to results of earlier calls are fine. -/
theorem chainProg_assigned : RefsEarlier fdTarget chainProg ∧
    ∀ size, ∃ r, chainProg.serializeForExec fdTarget .little CsumSort.byAddr size = some r ∧
    ∀ o, r = .ok o → UsesAssigned o.log := by
  have hrefs : RefsEarlier fdTarget chainProg := by
    rintro (_ | _ | n) c hc
    · obtain rfl := Option.some.inj hc
      decide
    · obtain rfl := Option.some.inj hc
      decide
    · simp [chainProg] at hc
  have hsum : NoChecksums fdTarget chainProg := by
    rintro (_ | _ | n) c hc
    · obtain rfl := Option.some.inj hc
      decide
    · obtain rfl := Option.some.inj hc
      decide
    · simp [chainProg] at hc
  exact ⟨hrefs, (serializeForExec_uses_assigned_iff .little CsumSort.byAddr fdTarget_compiled
    (by decide) (by decide) hsum).mpr (.inl hrefs)⟩

end Brf
