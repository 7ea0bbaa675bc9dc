import Brf.Verification.Exec.Calls
import Brf.Verification.Exec.Checksums

/-! # Encoding a sequence of calls

Results get consecutive slots: those of a call follow those of the calls before it, its return
value first. The context after some calls knows exactly their results, with their slots. -/

namespace Brf

open Lib.Wire Lib List ExecContext Arg

/-- The used results of a call in the order they get their slots. -/
def Call.slots (p : Prog) (c : Call) : List ArgId :=
  usedIds p (c.ret.toList ++ resultsList c.args)

def slots (p : Prog) (cs : List Call) : List ArgId := cs.flatMap (Call.slots p)

def resultIds (cs : List Call) : List ArgId := (cs.flatMap Call.results).map ResultArg.id

/-- The context after the calls `pre`. -/
structure EncInv (p : Prog) (pre : List Call) (w : ExecContext) : Prop where
  seq : w.copyoutSeq = (slots p pre).length
  slot : ∀ i id, (slots p pre)[i]? = some id → ∃ info, w.args.lookup (.result id) = some info ∧
    info.idx = i ∧ .assigned i id ∈ w.log
  keys : ∀ x, (w.args.lookup (.result x)).isSome → x ∈ resultIds pre
  assigned : ∀ i x, .assigned i x ∈ w.log → x ∈ resultIds pre

theorem encInv_empty (p : Prog) : EncInv p [] empty := by
  constructor <;> simp [slots, empty]

/-- `c` is the call after `pre` in a valid program of a compiled target. -/
structure AtCall (t : Target) (p : Prog) (pre : List Call) (c : Call) : Prop where
  compiled : t.Compiled
  ok : ProgOk t p
  split : ∃ post, p.calls = pre ++ c :: post
  syscall : c.syscall ∈ t.syscalls

variable {r : ResultArg} {x : ArgId}

namespace AtCall

variable {t : Target} {p : Prog} {pre : List Call} {c : Call}

section

variable (h : AtCall t p pre c)

include h

theorem callOk : CallOk t c := by
  obtain ⟨post, hpost⟩ := h.split
  exact h.ok.calls c (by simp [hpost])

theorem preResults :
    ResultsOk t p [] (pre.flatMap Call.results) ∧ ResultsOk t p (resultIds pre) c.results := by
  obtain ⟨post, hpost⟩ := h.split
  have hres := h.ok.results
  simp only [Prog.results, hpost, flatMap_append, flatMap_cons, resultsOk_append,
    nil_append] at hres
  exact ⟨hres.1, hres.2.1⟩

theorem nodup : (resultIds pre ++ c.results.map ResultArg.id).Nodup := by
  have hpre : (resultIds pre).Nodup := h.preResults.1.nodup nodup_nil
  exact h.preResults.2.nodup hpre

theorem argResults : ResultsOk t p (resultIds pre) (resultsList c.args) :=
  (resultsOk_append.mp h.preResults.2).1

theorem ret_fresh (hr : c.ret = some r) :
    r.id ∉ resultIds pre ∧ r.id ∉ (resultsList c.args).map ResultArg.id := by
  have hnodup := h.nodup
  rw [Call.results, hr, map_append, nodup_append, nodup_append] at hnodup
  refine ⟨fun hmem => hnodup.2.2 _ hmem r.id (by simp) rfl, ?_⟩
  exact fun hmem => hnodup.2.1.2.2 _ hmem r.id (by simp) rfl

theorem inMemory (n : ℕ) {v : Visit} (hv : v ∈ visitsArgs t n 0 c.args)
    (hr : v.arg = .result r) (hused : p.isUsed r.id) : v.base.isSome := by
  by_contra hbase
  obtain ⟨a, ha, path, hva, -⟩ := mem_visitsArgs 0 hv
  have hval := h.callOk.byValue h.compiled h.syscall a ha
  have hdir := hval.dirIn hva (by simpa using hbase) hr
  have hmem : r ∈ resultsList c.args := (mem_results_iff n 0).mpr ⟨v, hv, hr⟩
  obtain ⟨l1, l2, hsplit⟩ := append_of_mem hmem
  have hres := h.argResults
  rw [hsplit] at hres
  rw [(ResultsOk.ok hres).dirIn hdir] at hused
  exact absurd hused (by simp)

end

theorem mem_slots_iff : x ∈ slots p pre ↔ x ∈ resultIds pre ∧ p.isUsed x := by
  have hcall : ∀ c' : Call, (x ∈ (c'.ret.toList ++ resultsList c'.args).map ResultArg.id) =
      (x ∈ c'.results.map ResultArg.id) := by
    simp [Call.results, or_comm]
  simp only [slots, Call.slots, mem_flatMap, mem_usedIds, hcall, resultIds, map_flatMap]
  constructor
  · rintro ⟨c', hc', hx, hused⟩
    exact ⟨⟨c', hc', hx⟩, hused⟩
  · rintro ⟨⟨c', hc', hx⟩, hused⟩
    exact ⟨c', hc', hx, hused⟩

theorem enters (h : AtCall t p pre c) (n : ℕ) {w : ExecContext} (hinv : EncInv p pre w) :
    Enters t p (resultIds pre) w (visitsArgs t n 0 c.args) where
  results := by
    rw [visitResults_visitsArgs]
    exact h.argResults
  nodup := (nodup_append.mp h.nodup).1
  typed := h.callOk.typed_visits n
  inMemory _ hv _ hr hused := h.inMemory n hv hr hused
  paths := visitsArgs_paths_nodup n c.args
  known x hx hused := by
    obtain ⟨i, hi⟩ := mem_iff_getElem?.mp (mem_slots_iff.mpr ⟨hx, hused⟩)
    obtain ⟨info, hinfo, -⟩ := hinv.slot i x hi
    simp [hinfo]
  keys := hinv.keys

end AtCall

/-! ### The return value's slot -/

section Ret

variable {t : Target} {p : Prog} {c : Call}

theorem usedIds_ret (p : Prog) (c : Call) :
    usedIds p c.ret.toList = [] ∨ ∃ r, c.ret = some r ∧ usedIds p c.ret.toList = [r.id] := by
  cases h : c.ret with
  | none => exact .inl rfl
  | some r =>
    by_cases hr : p.isUsed r.id
    · exact .inr ⟨r, rfl, by simp [usedIds, hr]⟩
    · exact .inl (by simp [usedIds, hr])

variable (w : ExecContext)

@[simp] theorem assignRet_out : (w.assignRet p c).out = w.out := by
  obtain h | ⟨r, -, h⟩ := usedIds_ret p c <;> simp [assignRet, h, assignIdx]

@[simp] theorem assignRet_seq :
    (w.assignRet p c).copyoutSeq = w.copyoutSeq + (usedIds p c.ret.toList).length := by
  obtain h | ⟨r, -, h⟩ := usedIds_ret p c <;> simp [assignRet, h, assignIdx]

@[simp] theorem assignRet_log :
    (w.assignRet p c).log = w.log ++ assignments w.copyoutSeq (usedIds p c.ret.toList) := by
  obtain h | ⟨r, -, h⟩ := usedIds_ret p c <;> simp [assignRet, h, assignIdx, assignments]

theorem lookup_assignRet (x : ArgId) : (w.assignRet p c).args.lookup (.result x) =
    if x ∈ usedIds p c.ret.toList then some ⟨0, w.copyoutSeq, true⟩
    else w.args.lookup (.result x) := by
  obtain h | ⟨r, -, h⟩ := usedIds_ret p c <;> simp [assignRet, h, assignIdx]

theorem writeCopyin_call (cs : Csums) (n : ℕ) :
    writeCopyin t p cs (c.visits t n) w = writeCopyin t p cs (visitsArgs t n 0 c.args) w := by
  cases h : c.ret <;> simp [writeCopyin, Call.visits, h, copyinStep]

theorem writeCopyout_call (n : ℕ) (hret : ∀ r, c.ret = some r → p.isUsed r.id →
    ∃ idx, w.args.lookup (.result r.id) = some ⟨0, idx, true⟩) :
    writeCopyout t p (c.visits t n) w = writeCopyout t p (visitsArgs t n 0 c.args) w := by
  cases h : c.ret with
  | none => simp [writeCopyout, Call.visits, h]
  | some r =>
    have hstep : copyoutStep t p w ⟨[n], .result r, none, 0⟩ = w := by
      by_cases hused : p.isUsed r.id
      · obtain ⟨idx, hidx⟩ := hret r h hused
        simp [copyoutStep, hused, hidx]
      · simp [copyoutStep, hused]
    simp [writeCopyout, Call.visits, h, hstep]

end Ret

/-! ### What a call adds to the output -/

def CallProps.chunks (props : CallProps) : List Chunk :=
  if props = CallProps.zero then []
  else [.word execInstrSetProps, .word props.failNth.toUInt64, .word (boolWord props.async),
    .word props.rerun.toUInt64]

theorem writeProps_eq (props : CallProps) (w : ExecContext) :
    writeProps props w = w.writeChunks props.chunks := by
  unfold writeProps CallProps.chunks
  split
  · exact (w.writeChunks_nil).symm
  · rfl

/-- The call as the executor sees it: `ix` gives the slots of results of earlier calls, `first`
is the first free slot and `addrOf` gives the addresses of what checksums cover. -/
def Call.exec (t : Target) (order : CsumSort) (p : Prog) (n : ℕ) (c : Call) (cs : Csums)
    (addrOf : ArgKey → UInt64) (ix : ArgId → ℕ) (first : ℕ) : ExecCall where
  syscall := c.syscall
  props := c.props
  index := c.retIndex p first
  args := c.args.flatMap (execArgs t ix)
  copyin := (visitsArgs t n 0 c.args).flatMap (Visit.copyins t ix) ++
    csumCopyins t order n addrOf cs
  copyout := copyoutsFrom t p (first + (usedIds p c.ret.toList).length) (visitsArgs t n 0 c.args)

/-- The chunks of a call with `numArgs` arguments. -/
def ExecCall.chunks (call : ExecCall) (numArgs : ℕ) : List Chunk :=
  call.copyin.flatMap ExecCopyin.chunks ++ call.props.chunks ++
    [.word (UInt64.ofNat call.syscall.id), .word call.index, .word (UInt64.ofNat numArgs)] ++
    call.args.flatMap ExecArg.chunks ++ call.copyout.flatMap ExecCopyout.chunks

def Call.log (t : Target) (p : Prog) (n : ℕ) (c : Call) (ix : ArgId → ℕ) (first : ℕ) :
    List ExecEvent :=
  (((visitsArgs t n 0 c.args).flatMap (Visit.copyinRefs t)).map fun x => .used (ix x) x) ++
    assignments first (usedIds p c.ret.toList) ++
    ((c.args.flatMap directRefs).map fun x => .used (ix x) x) ++
    assignments (first + (usedIds p c.ret.toList).length) (usedIds p (resultsList c.args))

variable {k i : ℕ} {ids : List ArgId}

theorem mem_of_assigned_mem (h : .assigned i x ∈ assignments k ids) : x ∈ ids := by
  obtain ⟨⟨y, j⟩, hmem, heq⟩ := mem_map.mp h
  obtain ⟨-, rfl⟩ := heq
  exact fst_mem_of_mem_zipIdx hmem

theorem assigned_mem_of_getElem? {j : ℕ}
    (h : ids[j]? = some x) : .assigned (k + j) x ∈ assignments k ids := by
  refine mem_map.mpr ⟨(x, k + j), ?_, rfl⟩
  rw [mk_mem_zipIdx_iff_le_and_getElem?_sub]
  exact ⟨Nat.le_add_right k j, by simpa using h⟩

variable {a : Arg}

theorem exists_of_mem_directRefs (h : x ∈ a.directRefs) : ∃ r ∈ a.results, r.res = some x := by
  induction a using tree_induction with
  | result r => exact ⟨r, by simp [results], by simpa [directRefs] using h⟩
  | union c opt index ih => exact ih h
  | _ => simp [directRefs] at h

theorem mem_resultsList {as : List Arg} (ha : a ∈ as)
    (hr : r ∈ a.results) : r ∈ resultsList as := by
  induction as with
  | nil => simp at ha
  | cons b as ih =>
    rw [resultsList, mem_append]
    rcases mem_cons.mp ha with rfl | ha
    · exact .inl hr
    · exact .inr (ih ha)

variable {ix : ArgId → ℕ}

theorem Arg.execArgs_congr {t : Target} {ix' : ArgId → ℕ} (a : Arg)
    (h : ∀ x ∈ a.directRefs, ix x = ix' x) : a.execArgs t ix = a.execArgs t ix' := by
  induction a using tree_induction with
  | result r =>
    cases hres : r.res with
    | none => simp [execArgs, hres]
    | some x =>
      have hx : ix x = ix' x := h x (by simp [directRefs, hres])
      cases htype : t.type r.ref <;> simp [execArgs, hres, hx, htype]
  | union c opt index ih => exact ih h
  | _ => rfl

/-- The results the encoder writes references to when it encodes the call. -/
def Call.refs (t : Target) (n : ℕ) (c : Call) : List ArgId :=
  (visitsArgs t n 0 c.args).flatMap (Visit.copyinRefs t) ++ c.args.flatMap directRefs

namespace AtCall

variable {t : Target} {p : Prog} {pre : List Call} {c : Call} {cs : Csums} {w w1 : ExecContext}
  {n : ℕ}

theorem exists_of_mem_refs (hx : x ∈ c.refs t n) : ∃ r ∈ resultsList c.args, r.res = some x := by
  rcases mem_append.mp hx with hx | hx
  · obtain ⟨v, hv, hxv⟩ := mem_flatMap.mp hx
    obtain ⟨-, r, hr, hres⟩ := exists_of_mem_copyinRefs hxv
    exact ⟨r, (mem_results_iff n 0).mpr ⟨v, hv, hr⟩, hres⟩
  · obtain ⟨a, ha, hxa⟩ := mem_flatMap.mp hx
    obtain ⟨r, hr, hres⟩ := exists_of_mem_directRefs hxa
    exact ⟨r, mem_resultsList ha hr, hres⟩

section

variable (h : AtCall t p pre c)

include h

theorem mem_of_mem_refs (hx : x ∈ c.refs t n) :
    p.isUsed x ∧ (x ∈ resultIds pre ∨ x ∈ (resultsList c.args).map ResultArg.id) := by
  obtain ⟨r, hr, hres⟩ := exists_of_mem_refs hx
  obtain ⟨l1, l2, hsplit⟩ := append_of_mem hr
  have hok := h.argResults
  rw [hsplit] at hok
  obtain ⟨hmem, huse⟩ := (ResultsOk.ok hok).res x hres
  refine ⟨isUsed_of_mem_uses huse, ?_⟩
  rw [hsplit]
  simp only [mem_append, mem_singleton] at hmem
  rcases hmem with (hseen | hdone) | hself
  · exact .inl hseen
  · exact .inr (by simp only [map_append, mem_append]; exact .inl hdone)
  · exact .inr (by simp [hself])

/-- After the copyins the encoder knows every result an argument of the call refers to, and
has not changed the index it would write for it. -/
theorem res_known (hinv : EncInv p pre w)
    (hin : CopyinInv t p cs w (visitsArgs t n 0 c.args) w1) (hr : r ∈ resultsList c.args)
    (hx : r.res = some x) : (w1.args.lookup (.result x)).isSome ∧ x ∉ usedIds p c.ret.toList := by
  have henters := h.enters n hinv
  obtain ⟨v, hv, hres⟩ := (mem_results_iff (t := t) n 0).mp hr
  obtain ⟨done, rest, hvs⟩ := append_of_mem hv
  have not_ret : ∀ y, y ∈ resultIds pre ∨ y ∈ (resultsList c.args).map ResultArg.id →
      y ∉ usedIds p c.ret.toList := by
    intro y hy hmem
    obtain hnil | ⟨r', hr', hret⟩ := usedIds_ret p c
    · simp [hnil] at hmem
    · obtain rfl : y = r'.id := by simpa [hret] using hmem
      have hfresh := h.ret_fresh hr'
      exact hy.elim hfresh.1 hfresh.2
  obtain ⟨hused, hseen | ⟨u, hu, hbase, huse, hkey⟩⟩ := henters.res_cases cs hvs hres hx
  · refine ⟨?_, not_ret x (.inl hseen)⟩
    rw [hin.kept]
    · exact henters.known x hseen hused
    · exact fun u hu _ _ hkey => henters.fresh hu hkey hseen
  · have hmem : u ∈ visitsArgs t n 0 c.args := mem_of_split hvs hu
    refine ⟨?_, not_ret x (.inr ?_)⟩
    · rw [← hkey, hin.marked u hmem hbase huse]
      rfl
    · obtain ⟨s, hs, rfl⟩ := Visit.key_eq_result hkey
      exact mem_map_of_mem ((mem_results_iff n 0).mpr ⟨u, hmem, hs⟩)

theorem resource (hr : r ∈ resultsList c.args) :
    ∃ cc f desc, t.type r.ref = .resource cc f desc := by
  obtain ⟨l1, l2, hsplit⟩ := append_of_mem hr
  have hres := h.argResults
  rw [hsplit] at hres
  obtain ⟨cc, f, desc, htype, -⟩ := (ResultsOk.ok hres).resource
  exact ⟨cc, f, desc, htype⟩

theorem encodable : ∀ a ∈ c.args, a.Encodable t := by
  intro a ha
  apply (h.callOk.typed a ha).encodable_of_byValue (h.callOk.byValue h.compiled h.syscall a ha)
  exact fun r hr => h.resource (mem_resultsList ha hr)

theorem writeArgs_spec (hinv : EncInv p pre w)
    (hin : CopyinInv t p cs w (visitsArgs t n 0 c.args) w1) {w3 : ExecContext}
    (hargs : ∀ x, x ∉ usedIds p c.ret.toList →
      w3.args.lookup (.result x) = w1.args.lookup (.result x)) :
    c.args.foldlM (writeArg t) w3 =
      some { w3 with
        out := w3.out ++ (c.args.flatMap (execArgs t w.idxOf)).flatMap ExecArg.chunks
        log := w3.log ++ (c.args.flatMap directRefs).map fun x => .used (w.idxOf x) x } := by
  have hknown : ∀ a ∈ c.args, ∀ x ∈ a.directRefs,
      (w3.args.lookup (.result x)).isSome ∧ w3.idxOf x = w.idxOf x := by
    intro a ha x hx
    obtain ⟨r, hr, hres⟩ := exists_of_mem_directRefs hx
    obtain ⟨hsome, hret⟩ := h.res_known hinv hin (mem_resultsList ha hr) hres
    refine ⟨by rwa [hargs x hret], ?_⟩
    rw [ExecContext.idxOf, hargs x hret]
    exact congrFun hin.idx x
  rw [writeArgs_eq w3 c.args h.encodable fun a ha x hx => (hknown a ha x hx).1]
  have hexec : c.args.flatMap (execArgs t w3.idxOf) =
      c.args.flatMap (execArgs t w.idxOf) :=
    flatMap_congr fun a ha => a.execArgs_congr fun x hx => (hknown a ha x hx).2
  have huses : ((c.args.flatMap directRefs).map fun x => ExecEvent.used (w3.idxOf x) x) =
      (c.args.flatMap directRefs).map fun x => .used (w.idxOf x) x := by
    refine map_congr_left fun x hx => ?_
    obtain ⟨a, ha, hxa⟩ := mem_flatMap.mp hx
    rw [(hknown a ha x hxa).2]
  simp only [writeChunks, recordUses, hexec, huses]

end

theorem slots_snoc (p : Prog) (pre : List Call) (c : Call) : slots p (pre ++ [c]) =
    slots p pre ++ (usedIds p c.ret.toList ++ usedIds p (resultsList c.args)) := by
  simp [slots, Call.slots]

theorem mem_resultIds_snoc : x ∈ resultIds (pre ++ [c]) ↔ x ∈ resultIds pre ∨
    x ∈ (resultsList c.args).map ResultArg.id ∨ x ∈ c.ret.toList.map ResultArg.id := by
  simp [resultIds, Call.results]

theorem mem_of_assigned_mem_log {first : ℕ} (h : .assigned i x ∈ c.log t p n ix first) :
    x ∈ usedIds p c.ret.toList ∨ x ∈ usedIds p (resultsList c.args) := by
  simp only [Call.log, mem_append, mem_map, reduceCtorEq, and_false, exists_false,
    false_or, or_false] at h
  exact h.imp mem_of_assigned_mem mem_of_assigned_mem

theorem extend (h : AtCall t p pre c) (hinv : EncInv p pre w)
    (hin : CopyinInv t p cs w (visitsArgs t n 0 c.args) w1) {w4 w5 : ExecContext}
    (hlook : ∀ x, w4.args.lookup (.result x) =
      if x ∈ usedIds p c.ret.toList then some ⟨0, w.copyoutSeq, true⟩
      else w1.args.lookup (.result x))
    (hseq : w4.copyoutSeq = w.copyoutSeq + (usedIds p c.ret.toList).length)
    (hout : CopyoutInv t p w4 (visitsArgs t n 0 c.args) w5)
    (hlog : w5.log = w.log ++ c.log t p n w.idxOf w.copyoutSeq) : EncInv p (pre ++ [c]) w5 := by
  have hvs : visitResults (visitsArgs t n 0 c.args) = resultsList c.args :=
    visitResults_visitsArgs n 0 c.args
  have henters := h.enters n hinv
  have hnodup := h.nodup
  rw [Call.results, map_append, nodup_append, nodup_append] at hnodup
  have hret : ∀ x ∈ usedIds p c.ret.toList, x ∉ usedIds p (resultsList c.args) :=
    fun x hx hmem => hnodup.2.1.2.2 x (usedIds_subset hmem) x (usedIds_subset hx) rfl
  -- entries of earlier calls are left alone
  have hold : ∀ x ∈ resultIds pre, w5.args.lookup (.result x) = w.args.lookup (.result x) := by
    intro x hx
    have hargs : x ∉ usedIds p (resultsList c.args) := fun hmem =>
      hnodup.2.2 x hx x (mem_append_left _ (usedIds_subset hmem)) rfl
    have hret : x ∉ usedIds p c.ret.toList := fun hmem =>
      hnodup.2.2 x hx x (mem_append_right _ (usedIds_subset hmem)) rfl
    rw [hout.kept x (by rwa [hvs]), hlook, if_neg hret]
    exact hin.kept _ fun v hv _ _ hkey => henters.fresh hv hkey hx
  constructor
  · rw [slots_snoc, hout.seq, hseq, hinv.seq, hvs]
    simp [Nat.add_assoc]
  · intro i id hi
    rw [slots_snoc, getElem?_append] at hi
    split at hi
    · obtain ⟨info, hinfo, hidx, hass⟩ := hinv.slot i id hi
      have hid := (mem_slots_iff.mp (mem_of_getElem? hi)).1
      exact ⟨info, by rw [hold id hid, hinfo], hidx, by simp [hlog, hass]⟩
    · rw [getElem?_append] at hi
      split at hi
      · -- the return value; it is the only result of its list
        rename_i hlt
        have hmem := mem_of_getElem? hi
        have hi0 : i = w.copyoutSeq := by
          obtain hnil | ⟨r, -, hr⟩ := usedIds_ret p c
          · simp [hnil] at hmem
          · simp only [hr, length_singleton] at hlt
            rw [hinv.seq]
            omega
        refine ⟨⟨0, w.copyoutSeq, true⟩, ?_, hi0.symm, ?_⟩
        · rw [hout.kept id (by rw [hvs]; exact hret id hmem), hlook, if_pos hmem]
        · have hass := assigned_mem_of_getElem? (k := w.copyoutSeq) hi
          rw [hi0] at hass ⊢
          simp only [hinv.seq, Nat.sub_self, Nat.add_zero] at hass ⊢
          simp [hlog, Call.log, hass, hinv.seq]
      · -- an argument of the call
        rw [← hvs] at hi
        obtain ⟨info, hinfo, hidx⟩ := hout.slot _ id hi
        have hi0 : i = w4.copyoutSeq +
            (i - (slots p pre).length - (usedIds p c.ret.toList).length) := by
          rw [hseq, hinv.seq]
          omega
        refine ⟨info, hinfo, by rw [hidx, ← hi0], ?_⟩
        have hass := assigned_mem_of_getElem? (k := w4.copyoutSeq) hi
        rw [← hi0, hseq, hvs] at hass
        simp [hlog, Call.log, hass]
  · intro x hx
    rw [mem_resultIds_snoc]
    by_cases hargs : x ∈ usedIds p (resultsList c.args)
    · exact .inr (.inl (usedIds_subset hargs))
    · rw [hout.kept x (by rwa [hvs]), hlook] at hx
      split at hx
      · rename_i hmem
        exact .inr (.inr (usedIds_subset hmem))
      · by_cases hmarked : ∃ v ∈ visitsArgs t n 0 c.args, v.key = .result x
        · obtain ⟨v, hv, hkey⟩ := hmarked
          obtain ⟨r, hr, rfl⟩ := Visit.key_eq_result hkey
          refine .inr (.inl ?_)
          rw [← hvs]
          exact mem_map_of_mem (mem_filterMap.mpr ⟨v, hv, by simp [Visit.result?, hr]⟩)
        · rw [hin.kept _ fun v hv _ _ hkey => hmarked ⟨v, hv, hkey⟩] at hx
          exact .inl (hinv.keys x hx)
  · intro i x hx
    rw [hlog, mem_append] at hx
    rw [mem_resultIds_snoc]
    rcases hx with hx | hx
    · exact .inl (hinv.assigned i x hx)
    · rcases mem_of_assigned_mem_log hx with hx | hx
      · exact .inr (.inr (usedIds_subset hx))
      · exact .inr (.inl (usedIds_subset hx))

/-- `addrOf` gives the addresses of the arguments the checksums of the call are about. -/
def AddrsOf (t : Target) (p : Prog) (cs : Csums) (vs : List Visit) (addrOf : ArgKey → UInt64) :
    Prop :=
  ∀ v ∈ vs, v.base.isSome → willBeUsed p cs v → addrOf v.key = (v.addr t).getD 0

/-- One call is written as its specification and keeps the invariant. -/
theorem serializeCall_spec (h : AtCall t p pre c) (order : CsumSort) (hinv : EncInv p pre w)
    (hcs : calcChecksumsCall t n c = some cs) : ∃ w' addrOf, serializeCall t order p n c w =
    some w' ∧ AddrsOf t p cs (visitsArgs t n 0 c.args) addrOf ∧ EncInv p (pre ++ [c]) w' ∧ w'.out =
    w.out ++ (c.exec t order p n cs addrOf w.idxOf w.copyoutSeq).chunks c.args.length ∧ w'.log =
    w.log ++ c.log t p n w.idxOf w.copyoutSeq := by
  have henters := h.enters n hinv
  obtain ⟨w1, hw1, hin⟩ := writeCopyin_spec cs henters
  have hsums := writeChecksums_eq (t := t) order n w1 (fun f hf => (calcChecksums_inet hcs f hf).1)
  -- the context once checksums and properties are written
  let w2 := (w1.writeChunks ((csumCopyins t order n w1.addrOf cs).flatMap
    ExecCopyin.chunks)).writeChunks c.props.chunks
  have hret : ∀ r ∈ c.ret, w2.args.lookup (.result r.id) = none := by
    intro r hr
    have hfresh := h.ret_fresh hr
    change w1.args.lookup (.result r.id) = none
    rw [hin.kept]
    · by_contra hne
      exact hfresh.1 (hinv.keys r.id (Option.isSome_iff_ne_none.mpr hne))
    · intro v hv _ _ hkey
      obtain ⟨s, hs, hid⟩ := Visit.key_eq_result hkey
      exact hfresh.2 (hid ▸ mem_map_of_mem ((mem_results_iff n 0).mpr ⟨v, hv, hs⟩))
  have hheader := writeCallHeader_eq (p := p) hret
  let w3 := ((w2.assignRet p c).writeWords [UInt64.ofNat c.syscall.id,
    c.retIndex p w2.copyoutSeq]).writeWords [UInt64.ofNat c.args.length]
  have hseq2 : w2.copyoutSeq = w.copyoutSeq := hin.seq
  have hlook3 : ∀ x, w3.args.lookup (.result x) =
      if x ∈ usedIds p c.ret.toList then some ⟨0, w.copyoutSeq, true⟩
      else w1.args.lookup (.result x) := by
    intro x
    change (w2.assignRet p c).args.lookup (.result x) = _
    rw [lookup_assignRet, hseq2]
    rfl
  have hkept3 : ∀ x, x ∉ usedIds p c.ret.toList →
      w3.args.lookup (.result x) = w1.args.lookup (.result x) :=
    fun x hx => by rw [hlook3, if_neg hx]
  have hargs := h.writeArgs_spec hinv hin hkept3
  let w4 : ExecContext := { w3 with
    out := w3.out ++ (c.args.flatMap (execArgs t w.idxOf)).flatMap ExecArg.chunks
    log := w3.log ++ (c.args.flatMap directRefs).map fun x => .used (w.idxOf x) x }
  have hlook4 : ∀ x, w4.args.lookup (.result x) =
      if x ∈ usedIds p c.ret.toList then some ⟨0, w.copyoutSeq, true⟩
      else w1.args.lookup (.result x) := hlook3
  have hmarked : ∀ v ∈ visitsArgs t n 0 c.args, ∀ r, v.arg = .result r → p.isUsed r.id →
      w4.args.lookup (.result r.id) = some ⟨(v.addr t).getD 0, 0, false⟩ := by
    intro v hv r hr hused
    have hkey : v.key = .result r.id := by simp [Visit.key, key, hr]
    have hmem : r.id ∈ (resultsList c.args).map ResultArg.id :=
      mem_map_of_mem ((mem_results_iff n 0).mpr ⟨v, hv, hr⟩)
    rw [hlook4, if_neg, ← hkey]
    · exact hin.marked v hv (h.inMemory n hv hr hused) (willBeUsed_of_isUsed hr hused)
    · intro hret
      obtain hnil | ⟨r', hr', hids⟩ := usedIds_ret p c
      · simp [hnil] at hret
      · have hid : r.id = r'.id := by simpa [hids] using hret
        exact (h.ret_fresh hr').2 (hid ▸ hmem)
  have hout := writeCopyout_spec (nodup_append.mp henters.ids_nodup).2.1 hmarked
  have hcopyout : writeCopyout t p (c.visits t n) w4 =
      writeCopyout t p (visitsArgs t n 0 c.args) w4 := by
    refine writeCopyout_call w4 n ?_
    intro r hr hused
    refine ⟨w.copyoutSeq, ?_⟩
    rw [hlook4]
    simp [hr, usedIds, hused]
  have hseq4 : w4.copyoutSeq = w.copyoutSeq + (usedIds p c.ret.toList).length := by
    change (w2.assignRet p c).copyoutSeq = _
    rw [assignRet_seq, hseq2]
  have hrun : serializeCall t order p n c w =
      some (writeCopyout t p (visitsArgs t n 0 c.args) w4) := by
    rw [← hcopyout]
    simp only [serializeCall, hcs, writeCopyin_call, hw1, hsums, writeProps_eq, Option.bind_eq_bind,
      Option.bind_some]
    rw [hheader]
    simp only [Option.bind_some]
    rw [hargs]
    rfl
  have hlog : (writeCopyout t p (visitsArgs t n 0 c.args) w4).log =
      w.log ++ c.log t p n w.idxOf w.copyoutSeq := by
    rw [hout.log, visitResults_visitsArgs]
    simp [w4, w3, w2, hin.log, hin.seq, Call.log]
  have houtc : (writeCopyout t p (visitsArgs t n 0 c.args) w4).out = w.out ++
      (c.exec t order p n cs w1.addrOf w.idxOf w.copyoutSeq).chunks c.args.length := by
    rw [hout.out]
    simp [w4, w3, w2, hin.out, hin.seq, Call.exec, ExecCall.chunks]
  refine ⟨_, w1.addrOf, hrun, ?_, h.extend hinv hin hlook4 hseq4 hout hlog, houtc, hlog⟩
  intro v hv hbase hused
  simp [addrOf, hin.marked v hv hbase hused]

end AtCall

theorem serializeForExec_ok {t : Target} {e : Endian} {order : CsumSort} {p : Prog} {size : ℕ}
    {o : ExecOutput} (h : p.serializeForExec t e order size = some (.ok o)) :
    ∃ w, serializeCalls t order p 0 p.calls empty = some w ∧
    w.copyoutSeq ≤ execMaxCommands ∧ (streamBytes e (w.out ++ [.word execInstrEOF])).length ≤ size ∧
    o = ⟨streamBytes e (w.out ++ [.word execInstrEOF]), w.log⟩ := by
  obtain ⟨w, hw, hbuf⟩ := Option.bind_eq_some_iff.mp h
  refine ⟨w, hw, ?_⟩
  simp only at hbuf
  split at hbuf
  · cases hbuf
  · rename_i hok
    obtain rfl := Except.ok.inj (Option.some.inj hbuf)
    simp only [Bool.or_eq_true, decide_eq_true_eq, not_or, Bool.not_eq_true, Nat.not_lt] at hok
    refine ⟨hok.2, Buffer.length_le_room e _ _ hok.1, ?_⟩
    rw [Buffer.writeAll_out e _ _ hok.1]
    simp

end Brf
