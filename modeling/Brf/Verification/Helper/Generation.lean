import Brf.Verification.Helper.Origins

/-! # What the generator guarantees

One specification per function of the generator, from the ways of making a single argument up
to `genBpfHelperCall`, whose nested calls are handled by induction on the fuel. -/

namespace Brf.HelperCalls

open Brf.Lib Lib.Gen List Option BpfCall BpfArg Nat

section Primitives

variable {α : Type} {st : GenState} {Q : α → GenState → Prop}

@[simp] theorem post_abort : Post abort st Q :=
  ensures_failure

@[simp] theorem post_draw {g : Gen α} : Post (draw g) st Q ↔ Gen.Ensures g fun a => Q a st := by
  constructor
  · intro h s a s' hrun
    refine h s (a, st) s' ?_
    change (g s).bind _ = _
    rw [hrun]
    rfl
  · intro h
    exact ensures_bind (h.mono fun a ha => ensures_pure.mpr ha)

@[simp] theorem post_orAbort {o : Option α} : Post (orAbort o) st Q ↔ ∀ a, o = some a → Q a st := by
  cases o with
  | none | some => simp [orAbort]

@[simp] theorem post_getProg {Q : BpfProg → GenState → Prop} : Post getProg st Q ↔ Q st.prog st :=
  ensures_pure

@[simp] theorem post_modifyProg {f : BpfProg → BpfProg} {Q : Unit → GenState → Prop} :
    Post (modifyProg f) st Q ↔ Q () { st with prog := f st.prog } :=
  ensures_pure

variable {Q : ℕ → GenState → Prop}

@[simp] theorem post_freshVar : Post freshVar st Q ↔
    Q st.prog.varId { st with prog := { st.prog with varId := st.prog.varId + 1 } } :=
  ensures_pure

theorem post_nextScratch (h : ∀ v ∈ st.prog.scratchMapVars, Q v { st with prog :=
      { st.prog with scratchMapIndex := (st.prog.scratchMapIndex + 1) % 10 } }) :
    Post nextScratch st Q := by
  refine post_bind (post_getProg.mpr (post_bind (post_orAbort.mpr ?_)))
  intro v hv
  exact post_bind (post_modifyProg.mpr (post_pure.mpr (h v (mem_of_getElem? hv))))

end Primitives

variable {pend : List ℕ} {st : GenState}

theorem GenInv.freshVar (h : GenInv pend st) :
    GenInv (st.prog.varId :: pend)
      { st with prog := { st.prog with varId := st.prog.varId + 1 } } := by
  refine ⟨?_, h.pool, h.regs⟩
  intro v
  have hv := h.fresh v
  change st.prog.declCount v + _ ≤ if v < st.prog.varId + 1 then 1 else 0
  rw [count_cons]
  simp only [beq_iff_eq]
  split_ifs at hv ⊢ <;> omega

theorem Extends.of_calls_eq {p q : BpfProg} (hpt : q.pt = p.pt)
    (hscratch : q.scratchMapVars = p.scratchMapVars) (hctx : p.ctxVars <+: q.ctxVars)
    (hvar : p.varId ≤ q.varId) (hcalls : q.calls = p.calls) : Extends p q :=
  ⟨hpt, hscratch, hctx, hvar, [], by simp [hcalls], trivial, by simp [rets], by simp⟩

/-- Between `p`, whose unfinished calls declare `m` bytes, and `q`, whose unfinished calls declare
`n`, at least the bytes that were declared are counted, and the count keeps its limit. -/
structure Pays (p : BpfProg) (m : ℕ) (q : BpfProg) (n : ℕ) : Prop where
  bytes : q.budgeted + n + p.totalStackUsage ≤ p.budgeted + m + q.totalStackUsage
  limit : p.totalStackUsage ≤ 400 → q.totalStackUsage ≤ 400

section Bytes

variable {p q r : BpfProg} {k m n : ℕ}

theorem Pays.trans (h1 : Pays p k q m) (h2 : Pays q m r n) : Pays p k r n := by
  have hp := h1.bytes
  have hq := h2.bytes
  exact ⟨by omega, fun h => h2.limit (h1.limit h)⟩

theorem Pays.mono {n' : ℕ} (h : Pays p m q n) (hle : n' ≤ n) : Pays p m q n' :=
  ⟨Nat.le_trans (Nat.add_le_add_right (Nat.add_le_add_left hle _) _) h.bytes, h.limit⟩

theorem Pays.add (h : Pays p m q n) (k : ℕ) : Pays p (k + m) q (k + n) := by
  have := h.bytes
  exact ⟨by omega, h.limit⟩

theorem Pays.same (hcalls : q.calls = p.calls) (husage : q.totalStackUsage = p.totalStackUsage) :
    Pays p m q m := by
  refine ⟨?_, husage ▸ id⟩
  rw [BpfProg.budgeted, hcalls, husage, BpfProg.budgeted]

theorem Pays.declare (hcalls : q.calls = p.calls)
    (husage : q.totalStackUsage = p.totalStackUsage + n) (hroom : p.totalStackUsage + n ≤ 400) :
    Pays p 0 q n := by
  refine ⟨?_, fun _ => husage ▸ hroom⟩
  rw [BpfProg.budgeted, hcalls, BpfProg.budgeted]
  omega

end Bytes

/-- What generating an argument leaves as it is in the call it is for. -/
structure SameCall (call call' : BpfCall) : Prop where
  helper : call'.helper = call.helper
  args : call'.args = call.args
  ret : call'.ret = call.ret
  postCalls : call'.postCalls = call.postCalls

theorem SameCall.refl (call : BpfCall) : SameCall call call := ⟨rfl, rfl, rfl, rfl⟩

theorem SameCall.trans {c d e : BpfCall} (h : SameCall c d) (h' : SameCall d e) : SameCall c e :=
  ⟨h'.helper.trans h.helper, h'.args.trans h.args, h'.ret.trans h.ret,
    h'.postCalls.trans h.postCalls⟩

variable {before : List BpfCall} {size lo : ℕ} {a : BpfArg}

theorem Origin.argType {p : BpfProg} {t : ArgType}
    (h : Origin p before size lo t a) : a.argType = t := by
  cases h <;> rfl

/-- The outcome of generating an argument of kind `t` for `call` in the state `st`. -/
structure ArgSpec (pend : List ℕ) (st : GenState) (call : BpfCall) (t : ArgType)
    (r : Option BpfArg × BpfCall) (st' : GenState) : Prop where
  ext : Extends st.prog st'.prog
  same : SameCall call r.2
  size : r.2.stackVarSize ≤ maxAccess
  inv : GenInv ((r.1.elim [] fun a => a.prep.vars) ++ pend) st'
  origin : ∀ a, r.1 = some a →
    Origin st'.prog st'.prog.calls r.2.stackVarSize st.prog.varId t a
  bytes : Pays st.prog 0 st'.prog (r.1.elim 0 fun a => a.prep.budgeted)
  recorded : r.2.stackVarSize = (r.1.bind recorded).getD call.stackVarSize

variable {st1 st2 : GenState}

theorem ArgSpec.trans {call call1 : BpfCall} {t : ArgType}
    {r : Option BpfArg × BpfCall} (h1 : ArgSpec pend st call t (none, call1) st1)
    (h2 : ArgSpec pend st1 call1 t r st2) : ArgSpec pend st call t r st2 where
  ext := h1.ext.trans h2.ext
  same := h1.same.trans h2.same
  size := h2.size
  inv := h2.inv
  origin a ha := (h2.origin a ha).mono rfl (prefix_refl _) (List.Subset.refl _) h1.ext.varId
  bytes := h1.bytes.trans h2.bytes
  recorded := by
    rw [h2.recorded]
    exact congrArg _ h1.recorded

theorem ArgSpec.of_prog_eq {call : BpfCall} {t : ArgType}
    {r : Option BpfArg × BpfCall} (h : ArgSpec pend st1 call t r st2) (hprog : st1.prog = st.prog) :
    ArgSpec pend st call t r st2 :=
  ⟨hprog ▸ h.ext, h.same, h.size, h.inv, hprog ▸ h.origin, hprog ▸ h.bytes, h.recorded⟩

theorem ArgSpec.failed {call : BpfCall} (t : ArgType) (hinv : GenInv pend st)
    (hsize : call.stackVarSize ≤ maxAccess) : ArgSpec pend st call t (none, call) st :=
  ⟨.refl _, .refl _, hsize, hinv, by simp, .same rfl rfl, rfl⟩

theorem ArgSpec.plain {st' : GenState} {call call' : BpfCall} {t : ArgType}
    (hext : Extends st.prog st'.prog) (hsame : SameCall call call')
    (hrecorded : call'.stackVarSize = call.stackVarSize) (hsize : call.stackVarSize ≤ maxAccess)
    (hinv : GenInv pend st') (hbytes : Pays st.prog 0 st'.prog 0)
    (horigin : Origin st'.prog st'.prog.calls call'.stackVarSize st.prog.varId t a)
    (hprep : a.prep = .none) (hmeta : a.isPktMetaAccess = false) (hpacket : a.isPktAccess = false) :
    ArgSpec pend st call t (some a, call') st' := by
  refine ⟨hext, hsame, hrecorded ▸ hsize, ?_, ?_, ?_, ?_⟩
  · simpa [hprep, Prepare.vars] using hinv
  · rintro _ ⟨⟩
    exact horigin
  · simpa [hprep, Prepare.budgeted] using hbytes
  · simp [BpfArg.recorded, hprep, hmeta, hpacket, hrecorded]

variable {regTypes : List RegType}

section Direct

variable {pend : List ℕ} {st : GenState} {call : BpfCall} {t : ArgType}

theorem roundUp_le (n : ℕ) : roundUp n 8 ≤ n + 8 := by
  unfold roundUp
  split <;> omega

theorem BpfProg.argMap_bounded {p : BpfProg} (hpool : p.pool.Bounded) {m : BpfMap}
    (hm : p.argMap call = some m) : m.Bounded := by
  obtain ⟨k, -, hk⟩ := bind_eq_some_iff.mp hm
  exact hpool.maps m (mem_of_getElem? hk)

theorem mapAccessSize_le {p : BpfProg} (hpool : p.pool.Bounded) {n : ℕ}
    (h : mapAccessSize (p.argMap call) t = some n) : n ≤ maxAccess := by
  have hlayout : ∀ sd : StructDef, sd.size ≤ maxLayout → roundUp sd.size 8 ≤ maxAccess := by
    intro sd hsd
    have := roundUp_le sd.size
    simp only [maxLayout, maxAccess] at *
    omega
  unfold mapAccessSize at h
  split_ifs at h
  · obtain ⟨sd, hsd, rfl⟩ := map_eq_some_iff.mp h
    obtain ⟨m, hm, hkey⟩ := bind_eq_some_iff.mp hsd
    exact hlayout sd ((BpfProg.argMap_bounded hpool hm).key sd hkey)
  · obtain ⟨sd, hsd, rfl⟩ := map_eq_some_iff.mp h
    obtain ⟨m, hm, hval⟩ := bind_eq_some_iff.mp hsd
    exact hlayout sd ((BpfProg.argMap_bounded hpool hm).val sd hval)

theorem mapAccessSize_getD_le {p : BpfProg} (hpool : p.pool.Bounded) {n : ℕ} (hn : n ≤ maxAccess) :
    (mapAccessSize (p.argMap call) t).getD n ≤ maxAccess := by
  cases h : mapAccessSize (p.argMap call) t with
  | none => exact hn
  | some k => exact mapAccessSize_le hpool h

variable (hinv : GenInv pend st) (hsize : call.stackVarSize ≤ maxAccess)

include hinv hsize

theorem generateScalar_spec (hreg : RegType.scalarValue ∈ (compatibleRegType t).initial) :
    Post (generateScalar call t) st (ArgSpec pend st call t) := by
  refine post_bind (post_draw.mpr (ensures_intn ?_))
  intro n hn
  extract_lets size
  have hsize' : size ≤ maxAccess := by
    simp only [size]
    split
    · exact hsize
    · exact le_trans (le_of_lt hn) (by decide)
  have hrecorded : call.stackVarSize ≠ 0 → size = call.stackVarSize := fun h => if_pos h
  refine post_bind (post_getProg.mpr (post_ite (fun hroom => ?_) fun _ => ?_))
  · refine post_bind (post_freshVar.mpr (post_bind (post_modifyProg.mpr (post_pure.mpr ?_))))
    refine ⟨.of_calls_eq rfl rfl (prefix_refl _) (le_succ _) rfl, .refl _, hsize,
      ⟨hinv.freshVar.fresh, hinv.pool, hinv.regs⟩, ?_, .declare rfl rfl hroom, rfl⟩
    rintro _ ⟨⟩
    exact .number _ size _ rfl (.inl rfl) hsize' hrecorded hreg
  · refine post_bind (post_nextScratch fun buf hbuf => ?_)
    refine post_bind (post_freshVar.mpr (post_pure.mpr ?_))
    refine ⟨.of_calls_eq rfl rfl (prefix_refl _) (le_succ _) rfl, .refl _, hsize,
      ⟨hinv.freshVar.fresh, hinv.pool, hinv.regs⟩, ?_, .same rfl rfl, rfl⟩
    rintro _ ⟨⟩
    exact .number _ size _ rfl (.inr ⟨buf, hbuf, rfl⟩) hsize' hrecorded hreg

theorem generateStack_spec (hreg : RegType.ptrToStack ∈ (compatibleRegType t).initial) :
    Post (generateStack call t) st (ArgSpec pend st call t) := by
  refine post_bind (post_draw.mpr (ensures_intn ?_))
  intro n hn
  refine post_bind (post_getProg.mpr ?_)
  extract_lets varSize
  have hvarSize : varSize ≤ maxAccess :=
    mapAccessSize_getD_le hinv.pool (le_trans (le_of_lt hn) (by decide))
  refine post_ite (fun hroom => ?_) fun _ => ?_
  · refine post_bind (post_freshVar.mpr (post_bind (post_modifyProg.mpr (post_pure.mpr ?_))))
    refine ⟨.of_calls_eq rfl rfl (prefix_refl _) (le_succ _) rfl, ⟨rfl, rfl, rfl, rfl⟩,
      hvarSize, ⟨hinv.freshVar.fresh, hinv.pool, hinv.regs⟩, ?_, .declare rfl rfl hroom, rfl⟩
    rintro _ ⟨⟩
    exact .stack _ varSize hreg
  · refine post_bind (post_nextScratch fun v hv => post_pure.mpr ?_)
    exact .plain (.of_calls_eq rfl rfl (prefix_refl _) le_rfl rfl) (.refl _) rfl hsize
      ⟨hinv.fresh, hinv.pool, hinv.regs⟩ (.same rfl rfl) (.scratch v hv hreg) rfl rfl rfl

theorem generateMap_spec (fuel : ℕ) (hreg : RegType.constPtrToMap ∈ (compatibleRegType t).initial) :
    Post (generateMap fuel call t) st (ArgSpec pend st call t) := by
  have horigin : ∀ (p : BpfProg) size lo m, Origin p p.calls size lo t (mapArg t m) :=
    fun p size lo m => .address (.map m) _ rfl nofun hreg (by decide)
  unfold generateMap
  split
  · exact post_pure.mpr (.plain (.refl _) ⟨rfl, rfl, rfl, rfl⟩ rfl hsize hinv (.same rfl rfl)
      (horigin _ _ _ _) rfl rfl rfl)
  · exact post_pure.mpr (.plain (.refl _) (.refl _) rfl hsize hinv (.same rfl rfl)
      (horigin _ _ _ _) rfl rfl rfl)
  · refine post_bind (post_getProg.mpr (post_bind (post_draw.mpr ?_)))
    refine (chooseMap_bounded fuel st.prog.env hinv.pool call.helper call.hint).mono ?_
    rintro ⟨m, hints, pool⟩ hpool
    have hext : Extends st.prog { st.prog with pool } :=
      .of_calls_eq rfl rfl (prefix_refl _) le_rfl rfl
    have hinv' : GenInv pend { st with prog := { st.prog with pool } } :=
      ⟨hinv.fresh, hpool, hinv.regs⟩
    cases m with
    | none =>
      exact post_pure.mpr ⟨hext, ⟨rfl, rfl, rfl, rfl⟩, hsize, hinv', by simp, .same rfl rfl, rfl⟩
    | some m =>
      exact post_pure.mpr (.plain hext ⟨rfl, rfl, rfl, rfl⟩ rfl hsize hinv' (.same rfl rfl)
        (horigin _ _ _ _) rfl rfl rfl)

/-- An argument generated directly, whatever kind of register is drawn. -/
theorem generate_spec (fuel : ℕ) (rt : RegType) (hreg : rt ∈ (compatibleRegType t).initial) :
    Post (rt.generate fuel call t) st (ArgSpec pend st call t) := by
  cases rt with
  | scalarValue => exact generateScalar_spec hinv hsize hreg
  | ptrToStack => exact generateStack_spec hinv hsize hreg
  | constPtrToMap => exact generateMap_spec hinv hsize fuel hreg
  | ptrToCtx =>
    exact post_pure.mpr (.plain (.refl _) (.refl _) rfl hsize hinv (.same rfl rfl)
      (.address .ctx _ rfl (by decide) hreg (by decide)) rfl rfl rfl)
  | ptrToPercpuBtfId =>
    exact post_bind (post_modifyProg.mpr (post_pure.mpr (.plain
      (.of_calls_eq rfl rfl (prefix_refl _) le_rfl rfl) (.refl _) rfl hsize
      ⟨hinv.fresh, hinv.pool, hinv.regs⟩ (.same rfl rfl)
      (.address .progActive _ rfl (by decide) hreg (by decide)) rfl rfl rfl)))
  | _ => exact post_pure.mpr (.failed t hinv hsize)

theorem tryDirect_spec (fuel : ℕ) (hregs : ∀ rt ∈ regTypes, rt ∈ (compatibleRegType t).initial)
    (n : ℕ) : Post (tryDirect fuel regTypes t n call) st (ArgSpec pend st call t) := by
  induction n generalizing st call with
  | zero => exact post_pure.mpr (.failed t hinv hsize)
  | succ n ih =>
    refine post_bind (post_draw.mpr (ensures_pick fun rt hrt => ?_))
    refine post_bind ((generate_spec hinv hsize fuel rt (hregs rt hrt)).mono ?_)
    rintro ⟨a, call'⟩ st' hspec
    cases a with
    | some a => exact post_pure.mpr hspec
    | none => exact (ih hspec.inv hspec.size).mono fun r st2 h => hspec.trans h

end Direct

theorem deleteInPlace_subset (drop : RegType → Bool) {n i len len' : ℕ} {arr arr' : List RegType}
    (h : deleteInPlace drop n i arr len = some (arr', len')) : ∀ rt ∈ arr', rt ∈ arr := by
  induction n generalizing i arr len with
  | zero =>
    cases h
    exact fun _ => id
  | succ n ih =>
    unfold deleteInPlace at h
    split at h
    · cases h
    split at h
    · split at h
      · intro rt hrt
        have hmem := ih h rt hrt
        simp only [mem_append] at hmem
        obtain (hmem | hmem) | hmem := hmem
        · exact mem_of_mem_take hmem
        · exact mem_of_mem_take (mem_of_mem_drop hmem)
        · exact mem_of_mem_drop hmem
      · cases h
    · exact ih h

/-- The register types drawn for an argument are listed in its table, and the program stays as it
is. -/
def DrawsListed (pend : List ℕ) (st : GenState) (t : ArgType) (r : List RegType × String)
    (st' : GenState) : Prop :=
  st'.prog = st.prog ∧ GenInv pend st' ∧ ∀ rt ∈ r.1, rt ∈ (compatibleRegType t).initial

theorem genCompatibleRegTypes_spec (hinv : GenInv pend st) (helper : BpfHelper) (t : ArgType) :
    Post (genCompatibleRegTypes helper t) st (DrawsListed pend st t) := by
  refine post_bind (post_get.mpr ?_)
  extract_lets e table arr btfId finish restrict
  have hfinish : ∀ arr2 len, (∀ rt ∈ arr2, rt ∈ arr) →
      Post (finish (arr2, len)) st (DrawsListed pend st t) := by
    intro arr2 len harr2
    refine post_bind (post_modify.mpr (post_pure.mpr ⟨rfl, ⟨hinv.fresh, hinv.pool, ?_⟩, ?_⟩))
    · intro tb rt hrt
      change rt ∈ Function.update st.regTypes table arr2 tb at hrt
      rw [Function.update_apply] at hrt
      split at hrt
      · next htb => exact htb ▸ hinv.regs table rt (harr2 rt hrt)
      · exact hinv.regs tb rt hrt
    · intro rt hrt
      exact hinv.regs table rt (harr2 rt (mem_of_mem_take hrt))
  have hrestrict : ∀ arr2 len, (∀ rt ∈ arr2, rt ∈ arr) →
      Post (restrict (arr2, len)) st (DrawsListed pend st t) := by
    intro arr2 len harr2
    refine post_ite (fun _ => ?_) fun _ => hfinish arr2 len harr2
    refine post_bind (post_orAbort.mpr ?_)
    rintro ⟨arr3, len'⟩ hdel
    exact hfinish arr3 len' fun rt hrt => harr2 rt (deleteInPlace_subset _ hdel rt hrt)
  refine post_ite (fun _ => ?_) fun _ => hrestrict arr arr.length fun _ => id
  refine post_bind (post_orAbort.mpr ?_)
  rintro ⟨arr2, len⟩ hdel
  exact hrestrict arr2 len (deleteInPlace_subset _ hdel)

variable {v : ℕ} {genCall : CallGen} {helper : BpfHelper}

section Access

variable {pend : List ℕ} {st : GenState} {call : BpfCall} {t : ArgType}

theorem ctxVar_spec (f typ : String) (hinv : GenInv pend st) :
    Post (ctxVar f typ) st fun v st' => Extends st.prog st'.prog ∧ GenInv pend st' ∧
    st'.prog.ctxVars.lookup f = some v ∧ Pays st.prog 0 st'.prog 0 := by
  refine post_bind (post_getProg.mpr ?_)
  split
  · next v hv => exact post_pure.mpr ⟨.refl _, hinv, hv, .same rfl rfl⟩
  · next hnone =>
    refine post_bind (post_freshVar.mpr (post_bind (post_modifyProg.mpr (post_pure.mpr ?_))))
    refine ⟨.of_calls_eq rfl rfl (prefix_append _ _) (le_succ _) rfl, ?_, ?_, .same rfl rfl⟩
    · refine ⟨?_, hinv.pool, hinv.regs⟩
      intro v
      have hv := hinv.freshVar.fresh v
      simp only [BpfProg.declCount, map_append, map_cons, map_nil,
        count_append, count_cons, count_nil] at hv ⊢
      omega
    · simp [lookup_append, hnone]

theorem pktAccessSize_spec (hinv : GenInv pend st) :
    Post (pktAccessSize call t) st fun r st' => st' = st ∧ r.1 ≤ maxAccess ∧ SameCall call r.2 ∧
      r.2.stackVarSize = if t.isSizedMem then r.1 else call.stackVarSize := by
  unfold pktAccessSize
  split
  · refine post_bind (post_draw.mpr (ensures_intn fun n hn => post_pure.mpr ?_))
    exact ⟨rfl, le_trans (le_of_lt hn) (by decide), ⟨rfl, rfl, rfl, rfl⟩, rfl⟩
  · refine post_ite (fun _ => ?_) fun _ => post_ite (fun _ => ?_) fun _ => ?_
    · exact post_pure.mpr ⟨rfl, (by decide : 4 ≤ maxAccess), .refl _, rfl⟩
    · exact post_pure.mpr ⟨rfl, (by decide : 8 ≤ maxAccess), .refl _, rfl⟩
    · refine post_bind (post_getProg.mpr (post_pure.mpr ⟨rfl, ?_, .refl _, rfl⟩))
      exact mapAccessSize_getD_le hinv.pool (zero_le _)

theorem ArgSpec.packet {st' : GenState} {call' : BpfCall}
    (hext : Extends st.prog st'.prog) (hsame : SameCall call call')
    (hsize : call.stackVarSize ≤ maxAccess) (hn : a.accessSize ≤ maxAccess)
    (hrecorded : call'.stackVarSize = if t.isSizedMem then a.accessSize else call.stackVarSize)
    (hinv : GenInv pend st') (hbytes : Pays st.prog 0 st'.prog 0)
    (horigin : Origin st'.prog st'.prog.calls call'.stackVarSize st.prog.varId t a)
    (hprep : a.prep = .none) (hpacket : (a.isPktMetaAccess || a.isPktAccess)) :
    ArgSpec pend st call t (some a, call') st' := by
  refine ⟨hext, hsame, ?_, ?_, ?_, ?_, ?_⟩
  · rw [hrecorded]
    split
    · exact hn
    · exact hsize
  · simpa [hprep, Prepare.vars] using hinv
  · rintro _ ⟨⟩
    exact horigin
  · simpa [hprep, Prepare.budgeted] using hbytes
  · simp only [hrecorded, bind_some, BpfArg.recorded, hprep, hpacket, horigin.argType,
      Bool.true_and]
    split <;> rfl

/-! ### Results of other calls -/

theorem genHint_spec (producer : BpfHelper) :
    Post (genHint producer call t) st fun _ st' => st' = st := by
  refine post_bind (post_getProg.mpr ?_)
  extract_lets memberHints finish
  refine post_ite (fun _ => ?_) fun _ => post_ite (fun _ => ?_) fun _ => ?_
  · exact post_bind (post_draw.mpr (.of_forall fun _ => post_pure.mpr rfl))
  · exact post_pure.mpr rfl
  · exact post_pure.mpr rfl

def ArgType.isMember (t : ArgType) : Bool := t ∈ [.ptrToSpinLock, .ptrToTimer, .ptrToConstStr]

/-- What the name of a result is: its variable, or a member of the value it points to. -/
structure NameSpec (prod : BpfCall) (v : ℕ) (t : ArgType) (name : ArgName) (checked : Bool) :
    Prop where
  var : name.var? = some v
  plain : t.isMember = false → returnsMapValue prod.helper.ret = false →
    name = .var v ∧ checked = false

theorem resultName_spec (prod : BpfCall) (v : ℕ) :
    Post (resultName prod v call t) st fun r st' => st' = st ∧ SameCall call r.2 ∧
      r.2.stackVarSize = call.stackVarSize ∧
      ∀ name checked, r.1 = some (name, checked) → NameSpec prod v t name checked := by
  have hkeep : ∀ (name : ArgName) (checked : Bool), NameSpec prod v t name checked →
      Post (pure (some (name, checked), call) : GenM (Option (ArgName × Bool) × BpfCall)) st
        fun r st' => st' = st ∧ SameCall call r.2 ∧ r.2.stackVarSize = call.stackVarSize ∧
          ∀ name checked, r.1 = some (name, checked) → NameSpec prod v t name checked := by
    intro name checked hname
    refine post_pure.mpr ⟨rfl, .refl _, rfl, ?_⟩
    rintro _ _ ⟨⟩
    exact hname
  have hvar : NameSpec prod v t (.var v) false := ⟨rfl, fun _ _ => ⟨rfl, rfl⟩⟩
  refine post_bind (post_getProg.mpr ?_)
  extract_lets member
  split
  · exact hkeep _ _ ⟨rfl, nofun⟩
  · refine post_pure.mpr ⟨rfl, ⟨rfl, rfl, rfl, rfl⟩, rfl, ?_⟩
    rintro _ _ ⟨⟩
    exact ⟨rfl, nofun⟩
  · exact hkeep _ _ ⟨rfl, nofun⟩
  refine post_ite (fun hmap => ?_) fun _ => hkeep _ _ hvar
  refine post_bind (post_orAbort.mpr fun m _ => ?_)
  split
  · exact hkeep _ _ hvar
  refine post_ite (fun _ => hkeep _ _ hvar) fun _ => ?_
  extract_lets members
  refine post_ite (fun _ => post_pure.mpr ⟨rfl, .refl _, rfl, by simp⟩) fun _ => ?_
  refine post_bind (post_draw.mpr (.of_forall fun e => hkeep _ _ ⟨rfl, ?_⟩))
  exact fun _ hno => absurd (hmap.symm.trans hno) (by decide)

variable {rt : RegType}

theorem NameSpec.integer {prod : BpfCall} {name : ArgName} {checked : Bool}
    (h : NameSpec prod v t name checked) (hreg : rt ∈ (compatibleRegType t).initial)
    (hrt : rt ∈ retToRegTypeMap prod.helper.ret) (hret : prod.helper.ret = .integer) :
    name = .var v ∧ ((newBpfArg t).canBeNull && !checked) = (newBpfArg t).canBeNull := by
  rw [hret] at hrt
  obtain rfl := mem_singleton.mp hrt
  have hmember : t.isMember = false := by
    revert hreg
    cases t <;> decide
  obtain ⟨hname, hchecked⟩ := h.plain hmember (by rw [hret]; decide)
  exact ⟨hname, by simp [hchecked]⟩

theorem mem_compatHelpers {helpers : List BpfHelper} {btfId : String}
    (h : helper ∈ compatHelpers helpers regTypes btfId t) :
    helper ∈ helpers ∧ ∃ rt ∈ regTypes, rt ∈ retToRegTypeMap helper.ret := by
  obtain ⟨helper', hhelper, hmem⟩ := mem_flatMap.mp h
  obtain ⟨rt, hrt, rfl⟩ := mem_map.mp hmem
  obtain ⟨hrt, hcan⟩ := mem_filter.mp hrt
  simp only [helperCanReturn, Bool.and_eq_true, decide_eq_true_eq] at hcan
  exact ⟨hhelper, rt, hrt, hcan.1.1⟩

/-- What the generator of nested calls has to guarantee. -/
def NestedOk (genCall : CallGen) : Prop :=
  ∀ pend st helper hint, GenInv pend st → Produces st.prog.pt helper →
    Post (genCall helper hint false) st fun r st' =>
      Extends st.prog st'.prog ∧ GenInv pend st' ∧ Pays st.prog 0 st'.prog 0 ∧ ∀ c, r = some c →
        c ∈ st'.prog.calls ∧ c.helper = helper ∧ ∀ v, c.ret = some v → st.prog.varId ≤ v

/-! ### Arguments -/

variable (hinv : GenInv pend st) (hsize : call.stackVarSize ≤ maxAccess)

include hinv hsize

theorem genRandDirectAccess_spec (fuel : ℕ) :
    Post (genRandDirectAccess fuel call t) st (ArgSpec pend st call t) := by
  refine post_bind ((genCompatibleRegTypes_spec hinv call.helper t).mono ?_)
  rintro ⟨regTypes, btfId⟩ st' ⟨hprog, hinv', hregs⟩
  refine (tryDirect_spec hinv' hsize fuel hregs 5).mono ?_
  exact fun r st2 h => h.of_prog_eq hprog

theorem ctxArg_spec {field : String} (hreg : rt ∈ (compatibleRegType t).initial)
    (hscalar : rt ≠ .scalarValue) (hmeta : rt = .ptrToPacketMeta → field = "data_meta")
    (hpacket : rt = .ptrToPacket → field ≠ "data_end") :
    Post (ctxArg call t rt field) st fun r st' => ArgSpec pend st call t (some r.1, r.2) st' := by
  unfold ctxArg
  extract_lets typ
  refine post_bind ((ctxVar_spec field typ hinv).mono ?_)
  rintro v st1 ⟨hext1, hinv1, hv, hpays1⟩
  extract_lets a
  refine post_ite (fun hrt => ?_) fun _ => post_ite (fun hrt => ?_) fun _ => ?_
  · refine post_bind ((ctxVar_spec "data" typ hinv1).mono ?_)
    rintro start st2 ⟨hext2, hinv2, hstart, hpays2⟩
    refine post_bind ((pktAccessSize_spec hinv2).mono ?_)
    rintro ⟨n, call'⟩ st3 ⟨rfl, hn, hsame, hrecorded⟩
    rw [hmeta hrt] at hv
    exact post_pure.mpr (.packet (hext1.trans hext2) hsame hsize hn hrecorded hinv2
      (hpays1.trans hpays2)
      (.metadata v start n (lookup_extend hext2.ctx hv) hstart hn (hrt ▸ hreg)) rfl rfl)
  · refine post_bind ((ctxVar_spec "data_end" typ hinv1).mono ?_)
    rintro stop st2 ⟨hext2, hinv2, hstop, hpays2⟩
    refine post_bind ((pktAccessSize_spec hinv2).mono ?_)
    rintro ⟨n, call'⟩ st3 ⟨rfl, hn, hsame, hrecorded⟩
    exact post_pure.mpr (.packet (hext1.trans hext2) hsame hsize hn hrecorded hinv2
      (hpays1.trans hpays2) (.packet field v stop n (hpacket hrt) (lookup_extend hext2.ctx hv) hstop
        hn (hrt ▸ hreg)) rfl rfl)
  · exact post_pure.mpr (.plain hext1 (.refl _) rfl hsize hinv1 hpays1
      (.field field v rt hv hreg hscalar) rfl rfl rfl)

theorem tryCtxAccess_spec (hregs : ∀ rt ∈ regTypes, rt ∈ (compatibleRegType t).initial) (n : ℕ) :
    Post (tryCtxAccess regTypes t n call) st (ArgSpec pend st call t) := by
  induction n generalizing st call with
  | zero => exact post_pure.mpr (.failed t hinv hsize)
  | succ n ih =>
    refine post_bind (post_draw.mpr (ensures_pick fun rt hrt => ?_))
    refine post_bind (post_getProg.mpr ?_)
    split
    · exact ih hinv hsize
    next fields hfields =>
    refine post_bind (post_orAbort.mpr fun field hfield => ?_)
    refine post_bind (post_orAbort.mpr fun accessible _ => ?_)
    refine post_ite (fun _ => ?_) fun _ => ih hinv hsize
    refine post_bind ((ctxArg_spec hinv hsize (hregs rt hrt) ?_ ?_ ?_).mono fun r st' hspec => ?_)
    · rintro rfl
      rw [st.prog.pt.ctxAccess.scalarFree] at hfields
      cases hfields
    · rintro rfl
      have hmeta := st.prog.pt.ctxAccess.metaField
      simp only [hfields, all_some, hfield, decide_eq_true_eq] at hmeta
      exact some.inj hmeta
    · rintro rfl
      have hpacket := st.prog.pt.ctxAccess.packetField
      simp only [hfields, all_some, hfield, decide_eq_true_eq] at hpacket
      exact fun h => hpacket (congrArg some h)
    · exact post_pure.mpr hspec

theorem genRandBpfCtxAccess_spec :
    Post (genRandBpfCtxAccess call t) st (ArgSpec pend st call t) := by
  refine post_bind ((genCompatibleRegTypes_spec hinv call.helper t).mono ?_)
  rintro ⟨regTypes, btfId⟩ st' ⟨hprog, hinv', hregs⟩
  refine (tryCtxAccess_spec hinv' hsize hregs 5).mono ?_
  exact fun r st2 h => h.of_prog_eq hprog

theorem genRandBpfHelperCall_spec (hgen : NestedOk genCall) :
    Post (genRandBpfHelperCall genCall call t) st (ArgSpec pend st call t) := by
  refine post_bind ((genCompatibleRegTypes_spec hinv call.helper t).mono ?_)
  rintro ⟨regTypes, btfId⟩ st1 ⟨hprog, hinv1, hregs⟩
  extract_lets helpers
  have hext1 : Extends st.prog st1.prog := hprog ▸ .refl _
  have hfail : ArgSpec pend st call t (none, call) st1 :=
    ⟨hext1, .refl _, hsize, hinv1, by simp, hprog ▸ .same rfl rfl, rfl⟩
  refine post_ite (fun _ => post_pure.mpr hfail) fun _ => ?_
  refine post_bind (post_draw.mpr (ensures_pick fun helper hhelper => ?_))
  obtain ⟨hmem, rt, hrt, hret⟩ := mem_compatHelpers hhelper
  have hproduces : Produces st1.prog.pt helper := by
    refine ⟨hmem, fun hvoid => ?_⟩
    rw [hvoid] at hret
    cases hret
  refine post_bind ((genHint_spec helper).mono ?_)
  rintro hint _ rfl
  refine post_bind ((hgen pend _ helper hint hinv1 hproduces).mono ?_)
  rintro prod st2 ⟨hext2, hinv2, hpays, hprod⟩
  have hext := hext1.trans hext2
  rw [hprog] at hpays
  cases prod with
  | none => exact post_pure.mpr ⟨hext, .refl _, hsize, hinv2, by simp, hpays, rfl⟩
  | some prod =>
    obtain ⟨hmem, rfl, hlo⟩ := hprod prod rfl
    refine post_bind (post_orAbort.mpr fun v hv => ?_)
    refine post_bind ((resultName_spec prod v).mono ?_)
    rintro ⟨name, call'⟩ st2 ⟨rfl, hsame, hrecorded, hname⟩
    cases name with
    | none =>
      exact post_pure.mpr ⟨hext, hsame, hrecorded ▸ hsize, hinv2, by simp, hpays, hrecorded⟩
    | some name =>
      obtain ⟨name, checked⟩ := name
      have horigin : Origin st2.prog st2.prog.calls call'.stackVarSize st.prog.varId t
          { newBpfArg t with
            name := name, canBeNull := (newBpfArg t).canBeNull && !checked,
            isNotNull := prod.helper.ret.isNotNull &&
              !((newBpfArg t).canBeNull && !checked) } :=
        .result prod v name _ rt hmem hv (hprog ▸ hlo v hv) (hname name checked rfl).var
          ((hname name checked rfl).integer (hregs rt hrt) hret)
          (hregs rt hrt) hret
      refine post_ite (fun _ => ?_) fun _ => ?_
      · refine post_bind (post_modifyProg.mpr (post_pure.mpr (.plain
          (hext.trans (.of_calls_eq rfl rfl (prefix_refl _) le_rfl rfl)) hsame hrecorded
          hsize ?_ (hpays.trans (.same rfl rfl)) ?_ rfl rfl rfl)))
        · exact ⟨hinv2.fresh, hinv2.pool.modify _ fun m => by
            unfold allowAccess; split <;> exact ⟨rfl, rfl⟩, hinv2.regs⟩
        · exact horigin.mono rfl (prefix_refl _) (List.Subset.refl _) le_rfl
      · exact post_pure.mpr (.plain hext hsame hrecorded hsize hinv2 hpays horigin rfl rfl rfl)

end Access

section Calls

variable {pend : List ℕ} {st st' : GenState} {call call' : BpfCall} {t : ArgType}

theorem Origin.declared {p : BpfProg} (h : Origin p before size lo t a) (hbefore : before ⊆ p.calls)
    (hv : a.name.var? = some v) : v ∈ a.prep.vars ∨ 0 < p.declCount v := by
  refine (h.var_cases hv).imp_right fun hp => BpfProg.declCount_pos.mpr ?_
  rcases hp with hscratch | hctx | ⟨d, hd, hret, -⟩
  · exact .inl hscratch
  · exact .inr (.inl hctx)
  · exact .inr (.inr ⟨d, hbefore hd, by simp [declares, hret]⟩)

theorem GenInv.mono {pend' : List ℕ} (h : GenInv pend st) (hle : ∀ v, pend'.count v ≤ pend.count v) :
    GenInv pend' st :=
  ⟨fun v => Nat.le_trans (Nat.add_le_add_left (hle v) _) (h.fresh v), h.pool, h.regs⟩

/-- A call with the arguments generated so far, while the variables `pend` of the calls it is
nested in wait. -/
structure Pending (pend : List ℕ) (st : GenState) (call : BpfCall) : Prop where
  inv : GenInv (call.locals ++ pend) st
  args : ∀ a ∈ call.args, ArgOk st.prog st.prog.calls a
  kinds : ∀ a ∈ call.args, a.argType ∈ call.helper.args
  once : UsesOnce (rets st.prog.calls) call.args
  size : call.stackVarSize ≤ maxAccess
  postCalls : call.postCalls = []
  traced : Traced call

section

variable (h : Pending pend st call)

include h

theorem Pending.var_lt (ha : a ∈ call.args) (hv : a.name.var? = some v) : v < st.prog.varId := by
  obtain ⟨size, lo, t, a0, -, horigin, rfl⟩ := h.args a ha
  simp only [bounded_name] at hv
  refine h.inv.lt_of_declared ?_
  rcases horigin.declared (List.Subset.refl _) hv with hlocal | hdecl
  · have hmem : v ∈ call.locals := by
      refine mem_flatMap.mpr ⟨_, ha, ?_⟩
      rwa [bounded_prep]
    have := count_pos_iff.mpr (mem_append_left pend hmem)
    omega
  · omega

theorem Pending.mem_rets (hext : Extends st.prog st'.prog) (ha : a ∈ call.args)
    (hv : a.name.var? = some v) (hmem : v ∈ rets st'.prog.calls) : v ∈ rets st.prog.calls := by
  obtain ⟨new, hnew, -, hlo, -⟩ := hext.calls
  rw [hnew, rets_append] at hmem
  rcases mem_append.mp hmem with hmem | hmem
  · exact hmem
  · exact absurd (hlo v hmem) (Nat.not_le_of_lt (h.var_lt ha hv))

theorem Pending.once_extend (hext : Extends st.prog st'.prog) :
    UsesOnce (rets st'.prog.calls) call.args := by
  refine List.Pairwise.imp_of_mem ?_ h.once
  intro a b ha hb hab v hv hav
  exact hab v (h.mem_rets hext ha hav hv) hav

theorem Pending.extend (hext : Extends st.prog st'.prog)
    (hsame : SameCall call call') (hsize : call'.stackVarSize ≤ maxAccess)
    (hinv : GenInv (call.locals ++ pend) st') (htraced : Traced call') : Pending pend st' call' := by
  refine ⟨?_, ?_, ?_, ?_, hsize, hsame.postCalls.trans h.postCalls, htraced⟩
  · unfold locals
    rw [hsame.args]
    exact hinv
  · rw [hsame.args]
    exact fun a ha => hext.argOk (h.args a ha)
  · rw [hsame.args, hsame.helper]
    exact h.kinds
  · rw [hsame.args]
    exact h.once_extend hext

end

theorem Origin.of_result {p : BpfProg} (h : Origin p before size lo t a)
    (hv : a.name.var? = some v) (hlocal : v ∉ a.prep.vars) (hscratch : v ∉ p.scratchMapVars)
    (hctx : v ∉ p.ctxVars.map Prod.snd) : lo ≤ v ∧ v ∈ rets before := by
  rcases h.var_cases hv with hp | hp | hp | ⟨d, hd, hret, hlo, -⟩
  · exact absurd hp hlocal
  · exact absurd hp hscratch
  · exact absurd hp hctx
  · exact ⟨hlo, mem_rets.mpr ⟨d, hd, hret⟩⟩

theorem Origin.result_ge
    (h : Origin st.prog st.prog.calls size lo t a) (hinv : GenInv (a.prep.vars ++ pend) st)
    (hv : a.name.var? = some v) (hmem : v ∈ rets st.prog.calls) : lo ≤ v := by
  obtain ⟨c, hc, hret⟩ := mem_rets.mp hmem
  have hdecl : 0 < (st.prog.calls.flatMap declares).count v := by
    refine count_pos_iff.mpr (mem_flatMap.mpr ⟨c, hc, ?_⟩)
    simp [declares, hret]
  have hone : st.prog.declCount v + (a.prep.vars ++ pend).count v ≤ 1 := by
    have hfresh := hinv.fresh v
    split at hfresh <;> omega
  rw [BpfProg.declCount, count_append] at hone
  refine (h.of_result hv ?_ ?_ ?_).1
  all_goals
    intro hother
    have hpos := count_pos_iff.mpr hother
    omega

@[simp] theorem BpfArg.recorded_bounded (size : ℕ) (a : BpfArg) :
    (a.bounded size).recorded = a.recorded := by
  simp [recorded]

theorem SizesRecorded.snoc (h : SizesRecorded call) (hargs : call'.args = call.args)
    (hsize : call'.stackVarSize = a.recorded.getD call.stackVarSize) :
    SizesRecorded { call' with args := call'.args ++ [a.bounded call'.stackVarSize] } := by
  have hnow : call'.stackVarSize =
      lastRecorded (call.args ++ [a.bounded call'.stackVarSize]) := by
    rw [lastRecorded_snoc, recorded_bounded, hsize, h.now]
  rw [hargs]
  refine ⟨hnow, ?_⟩
  intro i b hb hkind
  rcases lt_trichotomy i call.args.length with hi | rfl | hi
  · rw [getElem?_append_left hi] at hb
    rw [take_append_of_le_length hi]
    exact h.bounds i b hb hkind
  · have hb : a.bounded call'.stackVarSize = b := by simpa using hb
    subst hb
    rw [bounded_argType] at hkind
    rw [bounded_umax, if_pos hkind, take_of_length_le (by simp), ← hnow]
  · rw [getElem?_eq_none (by simp; omega)] at hb
    cases hb

theorem Pending.snoc (h : Pending pend st call) (hkind : t ∈ call.helper.args)
    (hspec : ArgSpec (call.locals ++ pend) st call t (some a, call') st') :
    Pending pend st' { call' with args := call'.args ++ [a.bounded call'.stackVarSize] } := by
  have horigin := hspec.origin a rfl
  have hargs : call'.args = call.args := hspec.same.args
  refine ⟨?_, ?_, ?_, ?_, hspec.size, hspec.same.postCalls.trans h.postCalls, ?_⟩
  · refine hspec.inv.mono fun v => ?_
    simp only [locals, hargs, elim_some, flatMap_append,
      flatMap_singleton, bounded_prep, count_append]
    omega
  · intro b hb
    rcases mem_append.mp hb with hb | hb
    · exact hspec.ext.argOk (h.args b (hargs ▸ hb))
    · rw [mem_singleton.mp hb]
      exact ⟨_, _, t, a, hspec.size, horigin, rfl⟩
  · intro b hb
    rcases mem_append.mp hb with hb | hb
    · exact hspec.same.helper ▸ h.kinds b (hargs ▸ hb)
    · rw [mem_singleton.mp hb, bounded_argType, horigin.argType]
      exact hspec.same.helper ▸ hkind
  · refine pairwise_append.mpr ⟨hargs ▸ h.once_extend hspec.ext, pairwise_singleton _ _, ?_⟩
    intro b hb c hc v hv hbv hcv
    rw [mem_singleton.mp hc, bounded_name] at hcv
    have hge := horigin.result_ge hspec.inv hcv hv
    exact absurd hge (Nat.not_le_of_lt (h.var_lt (hargs ▸ hb) hbv))
  · exact fun hrelease =>
      (h.traced (hspec.same.helper ▸ hrelease)).snoc hargs hspec.recorded

theorem orElseGen_spec {enabled : GenM Bool}
    {g : BpfCall → GenM (Option BpfArg × BpfCall)} {r : Option BpfArg × BpfCall}
    (h : ArgSpec pend st call t r st') (henabled : Post enabled st' fun _ st2 => st2 = st')
    (hg : ∀ c, GenInv pend st' → c.stackVarSize ≤ maxAccess → Post (g c) st' (ArgSpec pend st' c t)) :
    Post (orElseGen enabled g r) st' (ArgSpec pend st call t) := by
  obtain ⟨a, c⟩ := r
  cases a with
  | some a => exact post_pure.mpr h
  | none =>
    refine post_bind (henabled.mono ?_)
    rintro b _ rfl
    refine post_ite (fun _ => ?_) fun _ => post_pure.mpr h
    exact (hg c h.inv h.size).mono fun r st2 h2 => h.trans h2

/-- An argument, generated in any of the ways. -/
theorem genBpfHelperCallArg_spec (fuel : ℕ) (hgen : NestedOk genCall)
    (h : Pending pend st call) (arg : ℕ) :
    Post (genBpfHelperCallArg fuel genCall call arg) st fun r st' =>
      Extends st.prog st'.prog ∧ Pending pend st' r.2 ∧ r.2.helper = call.helper ∧
        Pays st.prog call.budgeted st'.prog r.2.budgeted := by
  have hdraw : ∀ (n k : ℕ) st0, Post (draw (Gen.nOutOf n k)) st0 fun _ st2 => st2 = st0 :=
    fun n k st0 => post_draw.mpr (.of_forall fun _ => rfl)
  refine post_bind (post_orAbort.mpr fun t harg => ?_)
  extract_lets _ fixed
  have hfixed : ArgSpec (call.locals ++ pend) st call t (fixed, call) st := by
    simp only [fixed]
    split
    · exact .plain (.refl _) (.refl _) rfl h.size h.inv (.same rfl rfl) .fixed rfl rfl rfl
    · exact .failed t h.inv h.size
  refine post_bind ((orElseGen_spec hfixed (hdraw 1 3 st) fun c hinv hsize =>
    genRandBpfHelperCall_spec hinv hsize hgen).mono ?_)
  intro r1 st1 h1
  refine post_bind ((orElseGen_spec h1 (hdraw 1 2 st1) fun c hinv hsize =>
    genRandBpfCtxAccess_spec hinv hsize).mono ?_)
  intro r2 st2 h2
  refine post_bind ((orElseGen_spec h2 (post_pure.mpr rfl) fun c hinv hsize =>
    genRandDirectAccess_spec hinv hsize fuel).mono ?_)
  rintro ⟨a, call'⟩ st3 h3
  have hargs : call'.args = call.args := h3.same.args
  have hdropped : Traced call' → Extends st.prog st3.prog ∧ Pending pend st3 call' ∧
      call'.helper = call.helper ∧ Pays st.prog call.budgeted st3.prog call'.budgeted := by
    refine fun htraced => ⟨h3.ext, h.extend h3.ext h3.same h3.size ?_ htraced, h3.same.helper, ?_⟩
    · exact h3.inv.mono fun v => by simp [count_append]
    · rw [budgeted, budgeted, hargs]
      exact (h3.bytes.mono (zero_le _)).add _
  cases a with
  | none =>
    refine post_pure.mpr (hdropped fun hrelease => ?_)
    obtain ⟨hnow, hbounds⟩ := h.traced (h3.same.helper ▸ hrelease)
    exact ⟨by rw [hargs, ← hnow]; exact h3.recorded, hargs ▸ hbounds⟩
  | some a =>
    refine post_ite (fun hrelease => ?_) fun _ => ?_
    · -- the attempt is given up, so nothing is said about a release
      exact post_pure.mpr (hdropped fun hnone => absurd hrelease.1 (by simp [hnone]))
    · have hkind : a.argType = t := (h3.origin a rfl).argType
      have hsnoc := h.snoc (mem_of_getElem? harg) h3
      have hpays : Pays st.prog call.budgeted st3.prog (budgeted { call' with
          args := call'.args ++ [a.bounded call'.stackVarSize] }) := by
        simpa [budgeted, hargs] using h3.bytes.add call.budgeted
      rw [bounded_eq, hkind] at hsnoc hpays
      simpa only [post_pure, hkind] using ⟨h3.ext, hsnoc, h3.same.helper, hpays⟩

/-- The outcome of generating further arguments of `call` in the state `st`. -/
structure ArgsSpec (pend : List ℕ) (st : GenState) (call : BpfCall) (r : Option BpfCall)
    (st' : GenState) : Prop where
  ext : Extends st.prog st'.prog
  inv : GenInv pend st'
  bytes : Pays st.prog call.budgeted st'.prog (r.elim 0 budgeted)
  done : ∀ c, r = some c → Pending pend st' c ∧ c.helper = call.helper

theorem ArgsSpec.after {r : Option BpfCall} (h : ArgsSpec pend st' call' r st2)
    (hext : Extends st.prog st'.prog) (hhelper : call'.helper = call.helper)
    (hpays : Pays st.prog call.budgeted st'.prog call'.budgeted) : ArgsSpec pend st call r st2 :=
  ⟨hext.trans h.ext, h.inv, hpays.trans h.bytes,
    fun c hc => ⟨(h.done c hc).1, (h.done c hc).2.trans hhelper⟩⟩

theorem genArgAttempts_spec (fuel : ℕ) (hgen : NestedOk genCall) (n arg : ℕ)
    (h : Pending pend st call) :
    Post (genArgAttempts (genBpfHelperCallArg fuel genCall) n call arg) st
      (ArgsSpec pend st call) := by
  induction n generalizing st call with
  | zero =>
    refine post_pure.mpr ⟨.refl _, h.inv.mono fun v => ?_, ?_, by simp⟩
    · simp [count_append]
    · exact Pays.mono (.same rfl rfl) (zero_le _)
  | succ n ih =>
    refine post_bind ((genBpfHelperCallArg_spec fuel hgen h arg).mono ?_)
    rintro ⟨done, call'⟩ st1 ⟨hext, hpending, hhelper, hpays⟩
    cases done with
    | true =>
      refine post_pure.mpr ⟨hext, hpending.inv.mono fun v => ?_, hpays, ?_⟩
      · simp [count_append]
      · rintro _ ⟨⟩
        exact ⟨hpending, hhelper⟩
    | false =>
      exact (ih hpending).mono fun r st2 h => h.after hext hhelper hpays

theorem genArgs_spec (fuel : ℕ) (hgen : NestedOk genCall) (n arg : ℕ) (h : Pending pend st call) :
    Post (genArgs (genBpfHelperCallArg fuel genCall) n call arg) st (ArgsSpec pend st call) := by
  induction n generalizing st call arg with
  | zero =>
    refine post_pure.mpr ⟨.refl _, h.inv.mono fun v => ?_, .same rfl rfl, ?_⟩
    · simp [count_append]
    · rintro _ ⟨⟩
      exact ⟨h, rfl⟩
  | succ n ih =>
    refine post_bind ((genArgAttempts_spec fuel hgen 51 arg h).mono ?_)
    rintro r st1 ⟨hext, hinv, hpays, hr⟩
    cases r with
    | none => exact post_pure.mpr ⟨hext, hinv, hpays, by simp⟩
    | some c =>
      obtain ⟨hpending, hhelper⟩ := hr c rfl
      exact (ih (arg + 1) hpending).mono fun r st2 h => h.after hext hhelper hpays

theorem bpfRetType_ne {p : BpfProg} {typ : String} (h : bpfRetType p call = some typ)
    (htyp : typ = "") : call.helper.ret = .void := by
  subst htyp
  have hstar : ∀ s : String, s ++ "*" ≠ "" := by
    intro s hs
    have hlen := congrArg String.length hs
    simp at hlen
  cases hret : call.helper.ret with
  | void => rfl
  | ptrToMapValue | ptrToMapValueOrNull =>
    rw [bpfRetType, hret] at h
    obtain ⟨m, -, hm⟩ := bind_eq_some_iff.mp h
    split at hm
    · simp at hm
    · split at hm
      · simp at hm
      · exact absurd (some.inj hm) (hstar _)
  | ptrToBtfIdOrNull | ptrToBtfId =>
    rw [bpfRetType, hret] at h
    exact absurd (some.inj h) (hstar _)
  | _ =>
    rw [bpfRetType, hret] at h
    simp at h

/-- The outcome of generating a call in the state `st`: the calls for its arguments come first,
and then the call is added to the program `p` that has them. -/
structure CallSpec (pend : List ℕ) (st : GenState) (helper : BpfHelper) (prepend : Bool)
    (r : Option BpfCall) (st' : GenState) : Prop where
  inv : GenInv pend st'
  bytes : Pays st.prog 0 st'.prog 0
  failed : r = none → Extends st.prog st'.prog
  added : ∀ c, r = some c → ∃ p, Extends st.prog p ∧ CallOk p p.calls c ∧ c.helper = helper ∧
    c.ret = some p.varId ∧ st'.prog = { p with
      varId := p.varId + 1, calls := if prepend then c :: p.calls else p.calls ++ [c] }

theorem addCall_spec {st0 : GenState} (h : Pending pend st call) (prepend : Bool)
    (hext : Extends st0.prog st.prog) (hpays : Pays st0.prog 0 st.prog call.budgeted) :
    Post (addCall call prepend) st (CallSpec pend st0 call.helper prepend) := by
  refine post_bind (post_getProg.mpr (post_bind (post_orAbort.mpr fun retType htype => ?_)))
  refine post_bind (post_freshVar.mpr (post_bind (post_modifyProg.mpr ?_)))
  refine post_bind (post_modify.mpr (post_pure.mpr ⟨⟨?_, h.inv.pool, h.inv.regs⟩, ?_, by simp, ?_⟩))
  · intro v
    have hv := h.inv.freshVar.fresh v
    simp only [BpfProg.declCount, count_cons, count_append] at hv ⊢
    cases prepend with
    | true =>
      simp only [if_true, flatMap_cons, declares, locals, count_append,
        toList_some, count_singleton] at hv ⊢
      omega
    | false =>
      simp only [Bool.false_eq_true, if_false, flatMap_append, flatMap_singleton, declares, locals,
        count_append, toList_some, count_singleton] at hv ⊢
      omega
  · refine hpays.trans ⟨?_, id⟩
    cases prepend with
    | true => simp [BpfProg.budgeted, budgeted, Nat.add_comm]
    | false => simp [BpfProg.budgeted, budgeted]
  · rintro _ ⟨⟩
    have htraced : Traced { call with ret := some st.prog.varId, retType } := fun hrelease =>
      ⟨(h.traced hrelease).now, (h.traced hrelease).bounds⟩
    exact ⟨st.prog, hext, ⟨h.args, h.kinds, h.once, ⟨_, rfl⟩, bpfRetType_ne htype, h.postCalls,
      htraced⟩, rfl, rfl, rfl⟩

theorem CallSpec.extends {r : Option BpfCall} (h : CallSpec pend st helper false r st')
    (hprod : Produces st.prog.pt helper) : Extends st.prog st'.prog := by
  cases r with
  | none => exact h.failed rfl
  | some c =>
    obtain ⟨p, hext, hcall, hhelper, hret, hprog⟩ := h.added c rfl
    refine hext.trans ?_
    rw [hprog]
    refine ⟨rfl, rfl, prefix_refl _, le_succ _, [c], rfl, ⟨?_, trivial⟩, ?_, ?_⟩
    · exact hcall.mono rfl (prefix_refl _)
    · intro v hv
      simp only [rets, filterMap_cons, hret, filterMap_nil, mem_singleton] at hv
      exact le_of_eq hv.symm
    · intro d hd
      rw [mem_singleton.mp hd, hhelper, hext.pt]
      exact hprod

theorem nestedOk_of_callSpec (h : ∀ pend st helper hint, GenInv pend st →
      Post (genCall helper hint false) st (CallSpec pend st helper false)) : NestedOk genCall := by
  intro pend st helper hint hinv hprod
  refine (h pend st helper hint hinv).mono ?_
  intro r st' hspec
  refine ⟨hspec.extends hprod, hspec.inv, hspec.bytes, ?_⟩
  intro c hc
  obtain ⟨p, hext, -, hhelper, hret, hprog⟩ := hspec.added c hc
  refine ⟨by simp [hprog], hhelper, ?_⟩
  intro v hv
  rw [hret] at hv
  exact some.inj hv ▸ hext.varId

theorem Pending.start (hinv : GenInv pend st) (helper : BpfHelper) (hint : BpfCallGenHint) :
    Pending pend st (newBpfCall helper hint) :=
  ⟨hinv, by simp [newBpfCall], by simp [newBpfCall], List.Pairwise.nil, zero_le _, rfl,
    fun _ => ⟨rfl, by simp [newBpfCall]⟩⟩

/-- By induction on the fuel, of which the calls for the arguments have less. -/
theorem genBpfHelperCall_spec (fuel : ℕ) (pend : List ℕ) (st : GenState) (helper : BpfHelper)
    (hint : BpfCallGenHint) (prepend : Bool) (hinv : GenInv pend st) :
    Post (genBpfHelperCall fuel helper hint prepend) st (CallSpec pend st helper prepend) := by
  induction fuel generalizing pend st helper hint prepend with
  | zero => exact post_abort
  | succ fuel ih =>
    have hnested : NestedOk (genBpfHelperCall fuel) :=
      nestedOk_of_callSpec fun pend st helper hint hinv => ih pend st helper hint false hinv
    have hinv' : GenInv pend { st with rd := st.rd + 1 } := ⟨hinv.fresh, hinv.pool, hinv.regs⟩
    refine post_bind (post_modify.mpr (post_bind (post_get.mpr (post_ite (fun _ => ?_) fun _ => ?_))))
    · exact post_pure.mpr ⟨hinv', .same rfl rfl, fun _ => .refl _, by simp⟩
    refine post_bind ((genArgs_spec fuel hnested _ 0 (.start hinv' helper hint)).mono ?_)
    rintro r st1 ⟨hext, hinv1, hpays, hr⟩
    cases r with
    | none => exact post_pure.mpr ⟨hinv1, hpays, fun _ => hext, by simp⟩
    | some call =>
      obtain ⟨hpending, rfl⟩ := hr call rfl
      refine post_bind (post_getProg.mpr (post_bind (post_orAbort.mpr fun acquires _ => ?_)))
      refine post_ite (fun _ => ?_) fun _ => addCall_spec hpending prepend hext hpays
      exact post_pure.mpr ⟨hinv1, hpays.mono (zero_le _), fun _ => hext, by simp⟩

end Calls

end Brf.HelperCalls
