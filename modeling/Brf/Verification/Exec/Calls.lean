import Brf.Lib.Fold
import Brf.Verification.Exec.Writes

/-! # What the encoder does for a call

Each phase of `serializeCall` is a loop over the visits of the call. Its invariant says what
has been written, which results the encoder knows and with what index. -/

namespace Brf

open Lib.Wire Lib List ExecContext Visit

def ExecCopyin.chunks (c : ExecCopyin) : List Chunk :=
  [.word execInstrCopyin, .word c.addr] ++ c.arg.chunks

/-- The copyin instruction for a visited argument, if it has one. -/
def Visit.copyins (t : Target) (ix : ArgId → ℕ) (v : Visit) : List ExecCopyin :=
  if v.arg.copiedIn t then
    (v.addr t).toList.flatMap fun addr => (v.arg.execArgs t ix).map (⟨addr, ·⟩)
  else []

/-- The results the copyin of a visited argument refers to. -/
def Visit.copyinRefs (t : Target) (v : Visit) : List ArgId :=
  if v.base.isSome && v.arg.copiedIn t then v.arg.directRefs else []

/-- The context once the address of the argument is noted. -/
def ExecContext.mark (t : Target) (p : Prog) (cs : Csums) (w : ExecContext) (v : Visit) :
    ExecContext :=
  if v.base.isSome && willBeUsed p cs v then w.setArg v.key ⟨(v.addr t).getD 0, 0, false⟩ else w

variable {x : ArgId} {r : ResultArg} {done rest : List Visit}

section Copyin

variable {t : Target} {p : Prog} {cs : Csums} {v : Visit}

theorem addr_eq_none_of_base (h : v.base = none) : v.addr t = none := by
  simp [addr, h]

theorem addr_isSome_of_base (h : v.base.isSome) : (v.addr t).isSome := by
  obtain ⟨b, hb⟩ := Option.isSome_iff_exists.mp h
  simp [addr, hb, Target.physicalAddr, PointerArg.isSpecial]

section Mark

variable (w : ExecContext) (v : Visit)

@[simp] theorem ExecContext.mark_out : (w.mark t p cs v).out = w.out := by
  unfold mark
  split <;> rfl

@[simp] theorem ExecContext.mark_log : (w.mark t p cs v).log = w.log := by
  unfold mark
  split <;> rfl

@[simp] theorem ExecContext.mark_seq : (w.mark t p cs v).copyoutSeq = w.copyoutSeq := by
  unfold mark
  split <;> rfl

theorem ExecContext.lookup_mark (k : ArgKey) : (w.mark t p cs v).args.lookup k =
    if v.base.isSome && willBeUsed p cs v && k ==
    v.key then some ⟨(v.addr t).getD 0, 0, false⟩ else w.args.lookup k := by
  unfold mark
  split
  · rename_i h
    simp [h]
  · rename_i h
    simp [h]

end Mark

theorem copyinStep_eq {w : ExecContext} (henc : v.arg.copiedIn t →
      v.arg.Encodable t)
    (hrefs : ∀ x ∈ v.copyinRefs t, ((w.mark t p cs v).args.lookup (.result x)).isSome) :
    copyinStep t p cs w v =
      some (((w.mark t p cs v).recordUses (v.copyinRefs t)).writeChunks
        ((v.copyins t (w.mark t p cs v).idxOf).flatMap ExecCopyin.chunks)) := by
  cases hbase : v.base with
  | none =>
    simp [copyinStep, hbase, mark, copyinRefs, copyins,
      addr_eq_none_of_base hbase, recordUses_nil, writeChunks_nil]
  | some b =>
    obtain ⟨addr, haddr⟩ : ∃ addr, v.addr t = some addr :=
      Option.isSome_iff_exists.mp (addr_isSome_of_base (by simp [hbase]))
    have hmark : w.mark t p cs v =
        if willBeUsed p cs v then w.setArg v.key ⟨addr, 0, false⟩ else w := by
      simp [ExecContext.mark, hbase, haddr]
    by_cases hin : v.arg.copiedIn t
    · have hrefs' : v.copyinRefs t = v.arg.directRefs := by
        simp [copyinRefs, hbase, hin]
      rw [hrefs'] at hrefs ⊢
      have hwrite := writeArg_eq ((w.mark t p cs v).writeWords [execInstrCopyin, addr]) v.arg
        (henc hin) hrefs
      have hstep : copyinStep t p cs w v =
          writeArg t ((w.mark t p cs v).writeWords [execInstrCopyin, addr]) v.arg := by
        simp [copyinStep, hbase, haddr, hin, hmark]
      obtain ⟨e, he⟩ := (henc hin).exists_execArg ((henc hin).emptyData_of_copiedIn hin)
        (w.mark t p cs v).idxOf
      have he' : v.arg.execArgs t
          ((w.mark t p cs v).writeWords [execInstrCopyin, addr]).idxOf = [e] := he
      have hcopyins : v.copyins t (w.mark t p cs v).idxOf = [⟨addr, e⟩] := by
        simp [copyins, hin, haddr, he]
      rw [hstep, hwrite, he', hcopyins]
      simp [writeChunks, recordUses, writeWords, ExecCopyin.chunks, ExecContext.idxOf]
    · simp [copyinStep, hbase, haddr, hin, hmark, copyinRefs, copyins,
        recordUses_nil, writeChunks_nil]

theorem isUsed_of_mem_uses {u : ArgId} (h : (x, u) ∈ p.uses) : p.isUsed x :=
  any_eq_true.mpr ⟨(x, u), h, by simp⟩

theorem willBeUsed_of_isUsed (hv : v.arg = .result r) (hr : p.isUsed r.id) : willBeUsed p cs v := by
  simp [willBeUsed, hv, hr]

theorem exists_of_mem_copyinRefs (h : x ∈ v.copyinRefs t) :
    v.base.isSome ∧ ∃ r, v.arg = .result r ∧ r.res = some x := by
  unfold copyinRefs at h
  split at h
  · rename_i hin
    simp only [Bool.and_eq_true] at hin
    refine ⟨hin.1, ?_⟩
    cases harg : v.arg with
    | result r => exact ⟨r, rfl, by simpa [harg, Arg.directRefs] using h⟩
    | union c opt i => simp [harg, Arg.copiedIn, Arg.isLeaf] at hin
    | _ => simp [harg, Arg.directRefs] at h
  · simp at h

theorem mem_of_split {α : Type} {l done rest : List α} {a b : α} (hl : l = done ++ a :: rest)
    (hb : b ∈ done ++ [a]) : b ∈ l := by
  rw [hl, append_cons]
  exact mem_append_left rest hb

/-- The encoder is about to process the visits `vs`, after calls with the results `seen`. -/
structure Enters (t : Target) (p : Prog) (seen : List ArgId) (w : ExecContext) (vs : List Visit) :
    Prop where
  results : ResultsOk t p seen (visitResults vs)
  nodup : seen.Nodup
  typed : ∀ v ∈ vs, v.arg.Typed t
  inMemory : ∀ v ∈ vs, ∀ r, v.arg = .result r → p.isUsed r.id → v.base.isSome
  paths : (vs.map path).Nodup
  known : ∀ x ∈ seen, p.isUsed x → (w.args.lookup (.result x)).isSome
  keys : ∀ x, (w.args.lookup (.result x)).isSome → x ∈ seen

/-- What `writeCopyin` has done after the visits `done`, from the context `w0`. -/
structure CopyinInv (t : Target) (p : Prog) (cs : Csums) (w0 : ExecContext) (done : List Visit)
    (w : ExecContext) : Prop where
  seq : w.copyoutSeq = w0.copyoutSeq
  out : w.out = w0.out ++ (done.flatMap (copyins t w0.idxOf)).flatMap ExecCopyin.chunks
  log : w.log = w0.log ++ (done.flatMap (copyinRefs t)).map fun x => .used (w0.idxOf x) x
  idx : w.idxOf = w0.idxOf
  kept : ∀ k, (∀ v ∈ done, v.base.isSome → willBeUsed p cs v → v.key ≠ k) →
    w.args.lookup k = w0.args.lookup k
  marked : ∀ v ∈ done, v.base.isSome → willBeUsed p cs v →
    w.args.lookup v.key = some ⟨(v.addr t).getD 0, 0, false⟩

namespace Enters

variable {seen : List ArgId} {w0 : ExecContext} {vs : List Visit}

section

variable (h : Enters t p seen w0 vs)

include h

theorem ids_nodup : (seen ++ (visitResults vs).map ResultArg.id).Nodup :=
  h.results.nodup h.nodup

theorem keys_nodup : (vs.map key).Nodup :=
  Brf.keys_nodup h.paths (nodup_append.mp h.ids_nodup).2.1

variable {v : Visit}

theorem fresh (hv : v ∈ vs) (hx : v.key = .result x) : x ∉ seen := by
  obtain ⟨r, hr, rfl⟩ := key_eq_result hx
  intro hmem
  have hres : r.id ∈ (visitResults vs).map ResultArg.id :=
    mem_map_of_mem (mem_filterMap.mpr ⟨v, hv, by simp [result?, hr]⟩)
  exact (nodup_append.mp h.ids_nodup).2.2 _ hmem _ hres rfl

theorem idxOf_fresh (hv : v ∈ vs) (hx : v.key = .result x) : w0.idxOf x = 0 := by
  have hnone : w0.args.lookup (.result x) = none := by
    by_contra hne
    exact h.fresh hv hx (h.keys x (Option.isSome_iff_ne_none.mpr hne))
  simp [ExecContext.idxOf, hnone]

theorem res_cases (cs : Csums)
    (hvs : vs = done ++ v :: rest) (hr : v.arg = .result r) (hx : r.res = some x) : p.isUsed x ∧
    (x ∈ seen ∨ ∃ u ∈ done ++ [v], u.base.isSome ∧ willBeUsed p cs u ∧ u.key = .result x) := by
  have hsplit : visitResults vs = visitResults done ++ r :: visitResults rest := by
    rw [hvs, visitResults_append, visitResults_cons]
    simp [result?, hr]
  have hok := h.results
  rw [hsplit] at hok
  obtain ⟨hmem, huse⟩ := (ResultsOk.ok hok).res x hx
  have hused := isUsed_of_mem_uses huse
  refine ⟨hused, ?_⟩
  have visited : ∀ u ∈ done ++ [v], ∀ s, u.arg = .result s → s.id = x →
      ∃ u ∈ done ++ [v], u.base.isSome ∧ willBeUsed p cs u ∧ u.key = .result x := by
    intro u hu s hs hsx
    have hmem' : u ∈ vs := mem_of_split hvs hu
    have hs' : p.isUsed s.id := hsx ▸ hused
    exact ⟨u, hu, h.inMemory u hmem' s hs hs', willBeUsed_of_isUsed hs hs',
      by simp [key, Arg.key, hs, hsx]⟩
  simp only [mem_append, mem_singleton] at hmem
  rcases hmem with (hseen | hdone) | hself
  · exact .inl hseen
  · obtain ⟨s, hs, hsx⟩ := mem_map.mp hdone
    obtain ⟨u, hu, hus⟩ := mem_filterMap.mp hs
    have harg : u.arg = .result s := by
      cases hua : u.arg <;> simp_all [result?]
    exact .inr (visited u (by simp [hu]) s harg hsx)
  · exact .inr (visited v (by simp) r hr hself.symm)

theorem key_ne {u : Visit} (hvs : vs = done ++ v :: rest) (hu : u ∈ done) : u.key ≠ v.key := by
  have hnodup := h.keys_nodup
  rw [hvs, map_append, nodup_append] at hnodup
  exact hnodup.2.2 _ (mem_map_of_mem hu) _ (by simp)

theorem encodable (hv : v ∈ vs) (hin : v.arg.copiedIn t) : v.arg.Encodable t := by
  refine (h.typed v hv).encodable_of_copiedIn hin ?_
  intro r hr
  obtain ⟨l1, l2, hsplit⟩ : ∃ l1 l2, visitResults vs = l1 ++ r :: l2 :=
    append_of_mem (mem_filterMap.mpr ⟨v, hv, by simp [result?, hr]⟩)
  have hok := h.results
  rw [hsplit] at hok
  obtain ⟨c, f, desc, htype, -⟩ := (ResultsOk.ok hok).resource
  exact ⟨c, f, desc, htype⟩

end

end Enters

theorem CopyinInv.step {seen : List ArgId} {w0 w : ExecContext} {vs : List Visit}
    (h : Enters t p seen w0 vs) (hvs : vs = done ++ v :: rest) (hinv : CopyinInv t p cs w0 done w) :
    ∃ w', copyinStep t p cs w v = some w' ∧ CopyinInv t p cs w0 (done ++ [v]) w' := by
  have hv : v ∈ vs := by simp [hvs]
  -- the index of a result does not change when its address is noted
  have hidx : (w.mark t p cs v).idxOf = w0.idxOf := by
    funext x
    unfold ExecContext.idxOf
    rw [lookup_mark]
    split
    · rename_i hmark
      simp only [Bool.and_eq_true, beq_iff_eq] at hmark
      exact (h.idxOf_fresh hv hmark.2.symm).symm
    · exact congrFun hinv.idx x
  have hmarked : ∀ u ∈ done ++ [v], u.base.isSome → willBeUsed p cs u →
      (w.mark t p cs v).args.lookup u.key = some ⟨(u.addr t).getD 0, 0, false⟩ := by
    intro u hu hbase hused
    rw [lookup_mark]
    rcases mem_append.mp hu with hu | hu
    · have hne : (u.key == v.key) = false := beq_eq_false_iff_ne.mpr (h.key_ne hvs hu)
      simpa [hne] using hinv.marked u hu hbase hused
    · obtain rfl : u = v := by simpa using hu
      simp [hbase, hused]
  have hkept : ∀ k, (∀ u ∈ done ++ [v], u.base.isSome → willBeUsed p cs u → u.key ≠ k) →
      (w.mark t p cs v).args.lookup k = w0.args.lookup k := by
    intro k hk
    rw [lookup_mark, if_neg]
    · exact hinv.kept k fun u hu => hk u (by simp [hu])
    · simp only [Bool.and_eq_true, beq_iff_eq, not_and]
      intro hmark
      exact fun heq => hk v (by simp) hmark.1 hmark.2 heq.symm
  have hrefs : ∀ x ∈ v.copyinRefs t, ((w.mark t p cs v).args.lookup (.result x)).isSome := by
    intro x hx
    obtain ⟨-, r, hr, hres⟩ := exists_of_mem_copyinRefs hx
    obtain ⟨hused, hseen | ⟨u, hu, hbase, huse, hkey⟩⟩ := h.res_cases cs hvs hr hres
    · rw [hkept]
      · exact h.known x hseen hused
      · intro u hu _ _ hkey
        exact h.fresh (mem_of_split hvs hu) hkey hseen
    · rw [← hkey, hmarked u hu hbase huse]
      rfl
  refine ⟨_, copyinStep_eq (fun hin => h.encodable hv hin) hrefs, ?_⟩
  rw [hidx]
  constructor
  · simpa using hinv.seq
  · simp [hinv.out]
  · simp [hinv.log, hidx]
  · exact hidx
  · exact hkept
  · exact hmarked

/-- The loop writes the arguments in memory and marks those used later. -/
theorem writeCopyin_spec (cs : Csums) {seen : List ArgId} {w0 : ExecContext} {vs : List Visit}
    (h : Enters t p seen w0 vs) :
    ∃ w, writeCopyin t p cs vs w0 = some w ∧ CopyinInv t p cs w0 vs w := by
  refine foldlM_prefix (CopyinInv t p cs w0) ?_ ?_
  · constructor <;> simp
  · intro done v rest w hvs hinv
    exact hinv.step h hvs

end Copyin

/-- A chunk of a checksum as the executor sees it. -/
def CsumChunk.exec (t : Target) (addrOf : ArgKey → UInt64) : CsumChunk → ExecCsumChunk
  | .arg v => ⟨execArgCsumChunkData, addrOf v.key, v.arg.size t⟩
  | .const value size => ⟨execArgCsumChunkConst, value, size⟩

/-- The copyin instruction that has the executor compute a checksum. -/
def csumCopyin (t : Target) (addrOf : ArgKey → UInt64) (f : UInt64 × Visit × CsumInfo) :
    ExecCopyin :=
  ⟨f.1, .csum (f.2.1.arg.size t) execArgCsumInet (f.2.2.chunks.map (CsumChunk.exec t addrOf))⟩

/-- The checksum copyins of a call, from the last field in memory to the first. -/
def csumCopyins (t : Target) (order : CsumSort) (n : ℕ) (addrOf : ArgKey → UInt64) (cs : Csums) :
    List ExecCopyin :=
  (order.sort n (cs.map.map fun f => (addrOf f.1.key, f))).reverse.map (csumCopyin t addrOf)

section Checksums

variable {t : Target}

theorem chunkWords_eq (w : ExecContext) (chunks : List CsumChunk) :
    chunks.flatMap (chunkWords t w) =
      (chunks.map (CsumChunk.exec t w.addrOf)).flatMap ExecCsumChunk.words := by
  induction chunks with
  | nil => rfl
  | cons c chunks ih =>
    simp only [flatMap_cons, map_cons, ih]
    cases c <;> rfl

theorem checksumStep_eq (w : ExecContext) {f : UInt64 × Visit × CsumInfo}
    (hf : f.2.2.kind = .inet) :
    checksumStep t w f = some (w.writeChunks (csumCopyin t w.addrOf f).chunks) := by
  simp [checksumStep, hf, csumCopyin, ExecCopyin.chunks, ExecArg.chunks, chunkWords_eq,
    writeWords, writeChunks]

theorem checksumSteps_eq (w : ExecContext) (fs : List (UInt64 × Visit × CsumInfo))
    (hfs : ∀ f ∈ fs, f.2.2.kind = .inet) : fs.foldlM (checksumStep t) w =
    some (w.writeChunks ((fs.map (csumCopyin t w.addrOf)).flatMap ExecCopyin.chunks)) := by
  induction fs generalizing w with
  | nil => simp [writeChunks_nil]
  | cons f fs ih =>
    have hrest := ih (w.writeChunks (csumCopyin t w.addrOf f).chunks)
      fun g hg => hfs g (mem_cons_of_mem f hg)
    rw [foldlM_cons, checksumStep_eq w (hfs f mem_cons_self)]
    simpa using hrest

theorem writeChecksums_eq (order : CsumSort) (n : ℕ) {cs : Csums} (w : ExecContext)
    (hcs : ∀ f ∈ cs.map, f.2.kind = .inet) : writeChecksums t order n cs w =
    some (w.writeChunks ((csumCopyins t order n w.addrOf cs).flatMap ExecCopyin.chunks)) := by
  refine checksumSteps_eq w _ ?_
  intro f hf
  rw [mem_reverse, (order.perm n _).mem_iff] at hf
  obtain ⟨g, hg, rfl⟩ := mem_map.mp hf
  exact hcs g hg

end Checksums

section Header

variable {t : Target} {p : Prog}

theorem writeArgs_eq (w : ExecContext) (as : List Arg) (henc : ∀ a ∈ as, a.Encodable t)
    (hrefs : ∀ a ∈ as, ∀ x ∈ a.directRefs, (w.args.lookup (.result x)).isSome) :
    as.foldlM (writeArg t) w =
      some ((w.recordUses (as.flatMap Arg.directRefs)).writeChunks
        ((as.flatMap (Arg.execArgs t w.idxOf)).flatMap ExecArg.chunks)) := by
  induction as generalizing w with
  | nil => simp [writeChunks_nil, recordUses_nil]
  | cons a as ih =>
    have hrest := ih ((w.recordUses a.directRefs).writeChunks
      ((a.execArgs t w.idxOf).flatMap ExecArg.chunks))
      (fun b hb => henc b (mem_cons_of_mem a hb))
      (fun b hb => hrefs b (mem_cons_of_mem a hb))
    rw [foldlM_cons, writeArg_eq w a (henc a mem_cons_self) (hrefs a mem_cons_self)]
    simpa [recordUses_writeChunks, recordUses_recordUses] using hrest

/-- The results among `rs` that some argument refers to. -/
def usedIds (p : Prog) (rs : List ResultArg) : List ArgId :=
  (rs.filter fun r => p.isUsed r.id).map ResultArg.id

@[simp] theorem usedIds_nil : usedIds p [] = [] := rfl

@[simp] theorem usedIds_append (rs rs' : List ResultArg) :
    usedIds p (rs ++ rs') = usedIds p rs ++ usedIds p rs' := by
  simp [usedIds]

variable {rs : List ResultArg}

theorem usedIds_subset (h : x ∈ usedIds p rs) : x ∈ rs.map ResultArg.id := by
  obtain ⟨r, hr, rfl⟩ := mem_map.mp h
  exact mem_map_of_mem (mem_filter.mp hr).1

theorem mem_usedIds : x ∈ usedIds p rs ↔ x ∈ rs.map ResultArg.id ∧ p.isUsed x := by
  constructor
  · intro h
    refine ⟨usedIds_subset h, ?_⟩
    obtain ⟨r, hr, rfl⟩ := mem_map.mp h
    exact (mem_filter.mp hr).2
  · rintro ⟨h, hused⟩
    obtain ⟨r, hr, rfl⟩ := mem_map.mp h
    exact mem_map_of_mem (mem_filter.mpr ⟨hr, hused⟩)

def Call.retIndex (p : Prog) (c : Call) (i : ℕ) : UInt64 :=
  if usedIds p c.ret.toList = [] then execNoCopyout else UInt64.ofNat i

/-- The context once the return value has its slot. -/
def ExecContext.assignRet (p : Prog) (c : Call) (w : ExecContext) : ExecContext :=
  (usedIds p c.ret.toList).foldl
    (fun w id => (w.setArg (.result id) ⟨0, w.copyoutSeq, true⟩).assignIdx id) w

theorem writeCallHeader_eq {c : Call} {w : ExecContext}
    (hret : ∀ r ∈ c.ret, w.args.lookup (.result r.id) = none) : writeCallHeader p c w =
    some ((w.assignRet p c).writeWords [UInt64.ofNat c.syscall.id, c.retIndex p w.copyoutSeq]) := by
  cases h : c.ret with
  | none => simp [writeCallHeader, h, assignRet, Call.retIndex]
  | some r =>
    have hnone := hret r (by simp [h])
    by_cases hused : p.isUsed r.id
    · simp [writeCallHeader, h, assignRet, Call.retIndex, usedIds, hused, hnone,
        writeWords, setArg, assignIdx]
    · simp [writeCallHeader, h, assignRet, Call.retIndex, usedIds, hused]

end Header

def ExecCopyout.chunks (c : ExecCopyout) : List Chunk :=
  [.word execInstrCopyout, .word c.index, .word c.addr, .word c.size]

def Visit.isUsed (p : Prog) (v : Visit) : Bool := v.result?.any fun r => p.isUsed r.id

/-- The copyout instructions for the used results among the visits, indices from `i` on. -/
def copyoutsFrom (t : Target) (p : Prog) (i : ℕ) (vs : List Visit) : List ExecCopyout :=
  ((vs.filter (isUsed p)).zipIdx i).map fun v =>
    ⟨UInt64.ofNat v.2, (v.1.addr t).getD 0, v.1.arg.size t⟩

/-- The log entries of consecutive slots. -/
def assignments (i : ℕ) (ids : List ArgId) : List ExecEvent :=
  (ids.zipIdx i).map fun id => .assigned id.2 id.1

/-- What `writeCopyout` has done after the visits `done`, from the context `w1`. -/
structure CopyoutInv (t : Target) (p : Prog) (w1 : ExecContext) (done : List Visit)
    (w : ExecContext) : Prop where
  seq : w.copyoutSeq = w1.copyoutSeq + (usedIds p (visitResults done)).length
  out : w.out = w1.out ++ (copyoutsFrom t p w1.copyoutSeq done).flatMap ExecCopyout.chunks
  log : w.log = w1.log ++ assignments w1.copyoutSeq (usedIds p (visitResults done))
  slot : ∀ j id, (usedIds p (visitResults done))[j]? = some id →
    ∃ info, w.args.lookup (.result id) = some info ∧ info.idx = w1.copyoutSeq + j
  kept : ∀ id, id ∉ usedIds p (visitResults done) →
    w.args.lookup (.result id) = w1.args.lookup (.result id)

section Copyout

variable {t : Target} {p : Prog}

theorem usedIds_result? (v : Visit) : usedIds p v.result?.toList =
    if v.isUsed p then v.result?.toList.map ResultArg.id else [] := by
  cases h : v.result? with
  | none => simp [isUsed, h]
  | some r => by_cases hr : p.isUsed r.id = true <;> simp [usedIds, isUsed, h, hr]

theorem length_filter_isUsed (vs : List Visit) :
    (vs.filter (isUsed p)).length = (usedIds p (visitResults vs)).length := by
  induction vs with
  | nil => rfl
  | cons v vs ih =>
    rw [visitResults_cons, usedIds_append, length_append, ← ih, usedIds_result?]
    cases h : v.result? with
    | none => simp [isUsed, h]
    | some r => by_cases hr : p.isUsed r.id = true <;> simp [isUsed, h, hr, Nat.add_comm]

variable {v : Visit}

theorem copyoutStep_used {w : ExecContext} {addr : UInt64} (hv : v.arg = .result r)
    (hr : p.isUsed r.id) (hinfo : w.args.lookup (.result r.id) = some ⟨addr, 0, false⟩) :
    copyoutStep t p w v = ((w.setArg (.result r.id) ⟨addr, w.copyoutSeq, false⟩).writeWords
      [execInstrCopyout, UInt64.ofNat w.copyoutSeq, addr, v.arg.size t]).assignIdx r.id := by
  simp [copyoutStep, hv, hr, hinfo]

theorem copyoutStep_unused {w : ExecContext} (hv : v.isUsed p = false) :
    copyoutStep t p w v = w := by
  unfold copyoutStep
  split
  · rename_i r hr
    have : p.isUsed r.id = false := by simpa [isUsed, result?, hr] using hv
    simp [this]
  · rfl

variable {w1 : ExecContext}

theorem CopyoutInv.step {w : ExecContext} {vs : List Visit}
    (hids : ((visitResults vs).map ResultArg.id).Nodup)
    (hmarked : ∀ v ∈ vs, ∀ r, v.arg = .result r → p.isUsed r.id →
      w1.args.lookup (.result r.id) = some ⟨(v.addr t).getD 0, 0, false⟩)
    (hvs : vs = done ++ v :: rest) (hinv : CopyoutInv t p w1 done w) :
    CopyoutInv t p w1 (done ++ [v]) (copyoutStep t p w v) := by
  by_cases hused : v.isUsed p
  · obtain ⟨r, hr, hru⟩ : ∃ r, v.arg = .result r ∧ p.isUsed r.id := by
      cases harg : v.arg <;> simp_all [isUsed, result?]
    have hres : v.result? = some r := by simp [result?, hr]
    have hnew : usedIds p (visitResults (done ++ [v])) = usedIds p (visitResults done) ++ [r.id] := by
      simp [visitResults_cons, hres, usedIds, hru]
    have hfresh : r.id ∉ usedIds p (visitResults done) := by
      intro hmem
      rw [hvs, visitResults_append, visitResults_cons, hres, map_append, nodup_append] at hids
      exact hids.2.2 _ (usedIds_subset hmem) _ (by simp) rfl
    have hinfo : w.args.lookup (.result r.id) = some ⟨(v.addr t).getD 0, 0, false⟩ := by
      rw [hinv.kept _ hfresh]
      exact hmarked v (by simp [hvs]) r hr hru
    rw [copyoutStep_used hr hru hinfo]
    constructor
    · rw [hnew]
      simp [assignIdx, hinv.seq, Nat.add_assoc]
    · simp [assignIdx, hinv.out, hinv.seq, copyoutsFrom, hused, ExecCopyout.chunks, zipIdx_append,
        length_filter_isUsed]
    · rw [hnew]
      simp [assignIdx, hinv.log, hinv.seq, assignments, zipIdx_append]
    · intro j id hj
      rw [hnew] at hj
      by_cases hid : id = r.id
      · subst hid
        refine ⟨⟨(v.addr t).getD 0, w.copyoutSeq, false⟩, by simp [assignIdx], ?_⟩
        rw [getElem?_append] at hj
        split at hj
        · exact absurd (mem_of_getElem? hj) hfresh
        · have hj0 : j - (usedIds p (visitResults done)).length = 0 := by
            by_contra hne
            obtain ⟨k, hk⟩ := Nat.exists_eq_succ_of_ne_zero hne
            simp [hk] at hj
          simp only [hinv.seq]
          omega
      · have hold : (usedIds p (visitResults done))[j]? = some id := by
          rw [getElem?_append] at hj
          split at hj
          · exact hj
          · have := mem_of_getElem? hj
            simp [hid] at this
        obtain ⟨info, hlook, hidx⟩ := hinv.slot j id hold
        exact ⟨info, by simpa [assignIdx, hid] using hlook, hidx⟩
    · intro id hid
      rw [hnew] at hid
      simp only [mem_append, mem_singleton, not_or] at hid
      simpa [assignIdx, hid.2] using hinv.kept id hid.1
  · have hempty : usedIds p v.result?.toList = [] := by simp [usedIds_result?, hused]
    have hsame : usedIds p (visitResults (done ++ [v])) = usedIds p (visitResults done) := by
      simp [visitResults_cons, hempty]
    rw [copyoutStep_unused (by simpa using hused)]
    constructor
    · rw [hsame]
      exact hinv.seq
    · simpa [copyoutsFrom, hused] using hinv.out
    · rw [hsame]
      exact hinv.log
    · rw [hsame]
      exact hinv.slot
    · rw [hsame]
      exact hinv.kept

theorem writeCopyout_spec {vs : List Visit} (hids : ((visitResults vs).map ResultArg.id).Nodup)
    (hmarked : ∀ v ∈ vs, ∀ r, v.arg = .result r → p.isUsed r.id →
      w1.args.lookup (.result r.id) = some ⟨(v.addr t).getD 0, 0, false⟩) :
    CopyoutInv t p w1 vs (writeCopyout t p vs w1) := by
  refine foldl_prefix (CopyoutInv t p w1) ?_ ?_
  · constructor <;> simp [copyoutsFrom, assignments]
  · intro done v rest w hvs hinv
    exact hinv.step hids hmarked hvs

end Copyout

end Brf
