import Brf.Verification.StructOps.Scoping

/-! # What the body generator establishes

One invariant of the statement loop carries scoping, discipline and fresh names together.
Nested bodies enter through a specification of the generator they are drawn from. -/

namespace Brf.StructOps

open Brf.Lib Lib.Gen List StructOpsStmt Nat

/-- A pool entry stands for a name declared with its type up to a leading `const`. -/
def Visible (env : List TypedVal) (v : TypedVal) : Prop :=
  ∃ t, ⟨v.expr, t⟩ ∈ env ∧ normalizeCType t = v.ctype

/-- The values and fields a scope offers are all declared around it. -/
structure ScopeOk (env : List TypedVal) (sc : BodyScope) : Prop where
  pool : ∀ v ∈ sc.pool, Visible env v
  fields_ne : sc.writeFields ≠ []
  fields : ∀ f ∈ sc.writeFields,
    Declared env (accessorBase f.accessor) ∧ scalarCType f.ctype
  msk : ⟨"msk", "struct mptcp_sock *"⟩ ∈ env
  first : ⟨"msk->first", "struct sock *"⟩ ∈ env

structure BodyInv (kfuncs : List BpfKfunc) (sc : BodyScope) (env : List TypedVal) (lo : ℕ)
    (st : BodyState) : Prop where
  inScope : ScopedBody kfuncs env st.body
  disciplined : DisciplinedBody kfuncs sc.noReturn sc.allowIter st.body
  pool : ∀ v ∈ st.pool, Visible (envAfter env st.body) v
  readVars : ∀ rv ∈ st.readVars,
    ⟨rv.name, rv.ctype⟩ ∈ envAfter env st.body ∧ scalarCType rv.ctype
  fresh : FreshNames lo st.varId (declaredNames st.body)
  le : lo ≤ st.varId

/-- What a finished body satisfies, given the counter before and after it. -/
structure BodyPost (kfuncs : List BpfKfunc) (sc : BodyScope) (env : List TypedVal) (lo : ℕ)
    (out : List StructOpsStmt × ℕ) : Prop where
  inScope : ScopedBody kfuncs env out.1
  disciplined : DisciplinedBody kfuncs sc.noReturn sc.allowIter out.1
  fresh : FreshNames lo out.2 (declaredNames out.1)
  le : lo ≤ out.2

variable {env : List TypedVal}

theorem Visible.append {v : TypedVal} (h : Visible env v)
    (more : List TypedVal) : Visible (env ++ more) v := by
  obtain ⟨t, hmem, ht⟩ := h
  exact ⟨t, mem_append_left more hmem, ht⟩

variable {name : String}

theorem Declared.append (h : Declared env name)
    (more : List TypedVal) : Declared (env ++ more) name := by
  obtain ⟨t, hmem⟩ := h
  exact ⟨t, mem_append_left more hmem⟩

variable {sc : BodyScope}

theorem ScopeOk.append (h : ScopeOk env sc) (more : List TypedVal) : ScopeOk (env ++ more) sc where
  pool v hv := (h.pool v hv).append more
  fields_ne := h.fields_ne
  fields f hf := ⟨(h.fields f hf).1.append more, (h.fields f hf).2⟩
  msk := mem_append_left more h.msk
  first := mem_append_left more h.first

/-- Appending a statement keeps the invariant when the statement is good at that point and
what it publishes is what it declares. -/
theorem BodyInv.push {kfuncs : List BpfKfunc} {lo : ℕ} {st st' : BodyState} {stmt : StructOpsStmt}
    (h : BodyInv kfuncs sc env lo st) (hbody : st'.body = st.body ++ [stmt])
    (hscoped : ScopedStmt kfuncs (envAfter env st.body) stmt)
    (hdisc : DisciplinedStmt kfuncs sc.noReturn sc.allowIter stmt)
    (hpool : ∀ v ∈ st'.pool, v ∈ st.pool ∨ Visible stmt.locals v)
    (hread : ∀ rv ∈ st'.readVars, rv ∈ st.readVars ∨
      (⟨rv.name, rv.ctype⟩ ∈ stmt.locals ∧ scalarCType rv.ctype)) (hle : st.varId ≤ st'.varId)
    (hfresh : FreshNames st.varId st'.varId stmt.declaredNames) :
    BodyInv kfuncs sc env lo st' where
  inScope := by
    rw [hbody]
    exact scopedBody_snoc.mpr ⟨h.inScope, hscoped⟩
  disciplined := by
    rw [hbody]
    exact disciplinedBody_snoc.mpr ⟨h.disciplined, hdisc⟩
  pool := by
    intro v hv
    rw [hbody, envAfter_snoc]
    rcases hpool v hv with hold | ⟨t, hmem, ht⟩
    · exact (h.pool v hold).append _
    · exact ⟨t, mem_append_right _ hmem, ht⟩
  readVars := by
    intro rv hrv
    rw [hbody, envAfter_snoc]
    rcases hread rv hrv with hold | ⟨hmem, hs⟩
    · exact ⟨mem_append_left _ (h.readVars rv hold).1, (h.readVars rv hold).2⟩
    · exact ⟨mem_append_right _ hmem, hs⟩
  fresh := by
    rw [hbody, declaredNames_append]
    refine h.fresh.append h.le hle ?_
    simpa [declaredNames] using hfresh
  le := le_trans h.le hle

theorem BodyInv.start {kfuncs : List BpfKfunc}
    (hsc : ScopeOk env sc) (lo : ℕ) : BodyInv kfuncs sc env lo ⟨[], [], sc.pool, lo⟩ where
  inScope := by simp [ScopedBody]
  disciplined := by simp [DisciplinedBody]
  pool := by simpa using hsc.pool
  readVars := by simp
  fresh := by simpa [declaredNames] using FreshNames.nil lo
  le := le_rfl

variable {pool : List TypedVal}

theorem argFits_of_mem_argCands {arg pt : String}
    (hpool : ∀ v ∈ pool, Visible env v) (h : arg ∈ argCands pool pt) : ArgFits env arg pt := by
  simp only [argCands, mem_append, mem_map, mem_filter] at h
  rcases h with ⟨v, ⟨hv, hty⟩, rfl⟩ | h
  · obtain ⟨t, hmem, ht⟩ := hpool v hv
    exact .inl ⟨t, hmem, by simpa [ht] using hty⟩
  · by_cases hb : normalizeCType pt = "bool"
    · exact .inr ⟨hb, by simpa [hb] using h⟩
    · simp [hb] at h

/-- Whether arguments are found depends on the pool only, not on the draws. -/
theorem sat_pickArgs (pool : List TypedVal) (pts : List String) :
    Gen.Sat (pickArgs pool pts) (fun r =>
      (r.isSome = pts.all (fun pt => argCands pool pt ≠ [])) ∧
      ∀ args, r = some args → List.Forall₂ (fun a pt => a ∈ argCands pool pt) args pts) := by
  induction pts with
  | nil =>
    refine sat_pure ⟨rfl, ?_⟩
    rintro args ⟨⟩
    exact .nil
  | cons pt pts ih =>
    refine sat_ite ?_ ?_
    · intro hnil
      exact sat_pure ⟨by simp [hnil], by simp⟩
    · intro hne
      refine (sat_pick hne).bind ?_
      intro a ha
      refine ih.bind ?_
      rintro r ⟨hsome, hall⟩
      refine sat_pure ⟨by simp [hsome, hne], ?_⟩
      intro args hargs
      obtain ⟨rest, hrest, rfl⟩ := Option.map_eq_some_iff.mp hargs
      exact .cons ha (hall rest hrest)

/-- The kfuncs a call may name in scope `sc` with the values of `pool`. -/
def callable (sc : BodyScope) (pool : List TypedVal) (kf : BpfKfunc) : Bool :=
  !isSkeletonKfunc kf && !(sc.noReturn && kf.needsNullGuard) &&
    kf.argTypes.all (fun pt => argCands pool pt ≠ [])

def callableIdxs (sc : BodyScope) (pool : List TypedVal) : ℕ → List BpfKfunc → List ℕ
  | _, [] => []
  | ki, kf :: kfs =>
    if callable sc pool kf then ki :: callableIdxs sc pool (ki + 1) kfs
    else callableIdxs sc pool (ki + 1) kfs

theorem sat_callableKfuncs (sc : BodyScope) (pool : List TypedVal) (ki : ℕ) (kfs : List BpfKfunc) :
    Gen.Sat (callableKfuncs sc pool ki kfs) (· = callableIdxs sc pool ki kfs) := by
  induction kfs generalizing ki with
  | nil => exact sat_pure rfl
  | cons kf kfs ih =>
    refine sat_ite ?_ ?_
    · intro hskel
      refine (ih (ki + 1)).mono ?_
      simp [callableIdxs, callable, hskel]
    · intro hskel
      refine sat_ite ?_ ?_
      · intro hret
        refine (ih (ki + 1)).mono ?_
        simp [callableIdxs, callable, hret]
      · intro hret
        refine (sat_pickArgs pool kf.argTypes).bind ?_
        rintro r ⟨hsome, -⟩
        refine (ih (ki + 1)).bind ?_
        rintro _ rfl
        refine sat_pure ?_
        have hcall : callable sc pool kf = r.isSome := by
          simp only [Bool.not_eq_true] at hskel hret
          simp [callable, hskel, hret, hsome]
        simp only [callableIdxs, hcall]

variable {ki : ℕ}

theorem callable_of_mem_callableIdxs {k : ℕ}
    {kfs : List BpfKfunc} (h : ki ∈ callableIdxs sc pool k kfs) :
    k ≤ ki ∧ ∃ kf, kfs[ki - k]? = some kf ∧ callable sc pool kf := by
  induction kfs generalizing k with
  | nil => simp [callableIdxs] at h
  | cons kf kfs ih =>
    have hrest : ki ∈ callableIdxs sc pool (k + 1) kfs →
        k ≤ ki ∧ ∃ kf', (kf :: kfs)[ki - k]? = some kf' ∧ callable sc pool kf' := by
      intro hmem
      obtain ⟨hle, kf', hget, hc⟩ := ih hmem
      refine ⟨by omega, kf', ?_, hc⟩
      rw [show ki - k = (ki - (k + 1)) + 1 by omega]
      simpa using hget
    rw [callableIdxs] at h
    by_cases hc : callable sc pool kf
    · rw [if_pos hc, mem_cons] at h
      rcases h with rfl | h
      · exact ⟨le_rfl, kf, by simp, hc⟩
      · exact hrest h
    · rw [if_neg hc] at h
      exact hrest h

section Emit

variable {kfuncs : List BpfKfunc} {sc : BodyScope} {env : List TypedVal} {lo : ℕ}
  {st : BodyState}

theorem mem_or_visible {ctype : String} {v : TypedVal}
    (hv : v ∈ pool ++ [⟨name, normalizeCType ctype⟩]) : v ∈ pool ∨ Visible [⟨name, ctype⟩] v := by
  rcases mem_append.mp hv with hv | hv
  · exact .inl hv
  · obtain rfl := mem_singleton.mp hv
    exact .inr ⟨_, mem_singleton_self _, rfl⟩

theorem mem_or_scalar {ctype : String} {rvs : List ReadVar} {rv : ReadVar}
    (hscalar : scalarCType ctype) (hrv : rv ∈ rvs ++ [⟨name, ctype⟩]) :
    rv ∈ rvs ∨ ⟨rv.name, rv.ctype⟩ ∈ [TypedVal.mk name ctype] ∧ scalarCType rv.ctype := by
  rcases mem_append.mp hrv with hrv | hrv
  · exact .inl hrv
  · obtain rfl := mem_singleton.mp hrv
    exact .inr ⟨mem_singleton_self _, hscalar⟩

theorem localVar_ne_empty (n : ℕ) : localVar n ≠ "" := by
  intro h
  have := congrArg String.toList h
  simp [localVar] at this

variable {fi : ℕ}

theorem sat_emitCtxRead (hsc : ScopeOk env sc) (h : BodyInv kfuncs sc env lo st)
    (hfi : fi < sc.writeFields.length) :
    Gen.Sat (emitCtxRead sc st fi) (BodyInv kfuncs sc env lo) := by
  have hget := getElem?_eq_getElem hfi
  obtain ⟨hdecl, hscalar⟩ := hsc.fields _ (getElem_mem hfi)
  rw [emitCtxRead, hget]
  refine sat_pure (h.push rfl ?_ (by simp [DisciplinedStmt]) (fun v => mem_or_visible)
    (fun rv => mem_or_scalar hscalar) (le_succ _) ?_)
  · simpa [ScopedStmt, envAfter] using hdecl.append _
  · simpa [StructOpsStmt.declaredNames] using FreshNames.localVar st.varId

theorem sat_genStructOpsCtxValue (ctype : String) :
    Gen.Sat (genStructOpsCtxValue ctype) (fun _ => True) := by
  refine sat_ite ?_ ?_
  · intro _
    exact (sat_intn (by decide)).bind (fun _ _ => sat_pure trivial)
  · intro _
    exact (sat_intn (by decide)).bind (fun _ _ => sat_pure trivial)

theorem sat_emitCtxWrite (hsc : ScopeOk env sc) (h : BodyInv kfuncs sc env lo st)
    (hfi : fi < sc.writeFields.length) :
    Gen.Sat (emitCtxWrite sc st fi) (BodyInv kfuncs sc env lo) := by
  have hget := getElem?_eq_getElem hfi
  obtain ⟨hdecl, -⟩ := hsc.fields _ (getElem_mem hfi)
  rw [emitCtxWrite, hget]
  refine (sat_genStructOpsCtxValue _).bind ?_
  intro val _
  refine sat_pure (h.push rfl ?_ ?_ ?_ ?_ le_rfl ?_)
  · simpa [ScopedStmt, envAfter] using hdecl.append _
  · simp [DisciplinedStmt]
  · exact fun v hv => .inl hv
  · exact fun rv hrv => .inl hrv
  · simpa [StructOpsStmt.declaredNames] using FreshNames.nil st.varId

theorem sat_emitArith (h : BodyInv kfuncs sc env lo st) (hne : st.readVars ≠ []) :
    Gen.Sat (emitArith st) (BodyInv kfuncs sc env lo) := by
  refine (sat_pick hne).bind ?_
  intro src hsrc
  obtain ⟨hmem, hscalar⟩ := h.readVars src hsrc
  refine (sat_pick (by decide)).bind ?_
  intro op _
  refine (sat_intn (by decide)).bind ?_
  intro val _
  refine sat_pure (h.push rfl ?_ (by simp [DisciplinedStmt]) (fun v => mem_or_visible)
    (fun rv => mem_or_scalar hscalar) (le_succ _) ?_)
  · exact ⟨src.ctype, hmem, hscalar⟩
  · simpa [StructOpsStmt.declaredNames] using FreshNames.localVar st.varId

/-- The three ways a call publishes its result all keep the invariant. -/
theorem BodyInv.publishCall (h : BodyInv kfuncs sc env lo st) {kf : BpfKfunc}
    {args : List String} (hget : kfuncs[ki]? = some kf) (hcall : callable sc st.pool kf)
    (hargs : List.Forall₂ (fun a pt => a ∈ argCands st.pool pt) args kf.argTypes) :
    BodyInv kfuncs sc env lo (publishCall st ki kf args) := by
  have hfits : List.Forall₂ (ArgFits (envAfter env st.body)) args kf.argTypes :=
    hargs.imp (fun _ _ => argFits_of_mem_argCands h.pool)
  have hskel : isSkeletonKfunc kf = false := by
    simp only [callable, Bool.and_eq_true, Bool.not_eq_true'] at hcall
    exact hcall.1.1
  have hret : kf.needsNullGuard → sc.noReturn = false := by
    intro hg
    simp only [callable, hg, Bool.and_true, Bool.and_eq_true, Bool.not_eq_true'] at hcall
    exact hcall.1.2
  have hvar := localVar_ne_empty st.varId
  have hfresh := FreshNames.localVar st.varId
  have hpool : ∀ v ∈ st.pool ++ [⟨localVar st.varId, normalizeCType kf.retType⟩],
      v ∈ st.pool ∨ Visible [⟨localVar st.varId, kf.retType⟩] v :=
    fun v => mem_or_visible
  rw [StructOps.publishCall]
  by_cases hvoid : kf.retType = ""
  · rw [if_pos hvoid]
    refine h.push rfl ?_ ?_ ?_ ?_ le_rfl ?_
    · exact ⟨kf, hget, hfits⟩
    · exact ⟨kf, hget, hskel, by simp, by simp⟩
    · exact fun v hv => .inl hv
    · exact fun rv hrv => .inl hrv
    · simpa [StructOpsStmt.declaredNames] using FreshNames.nil st.varId
  · rw [if_neg hvoid]
    by_cases hg : kf.needsNullGuard
    · rw [if_pos hg]
      refine h.push rfl ?_ ?_ ?_ ?_ ?_ ?_
      · exact ⟨kf, hget, hfits⟩
      · exact ⟨kf, hget, hskel, by simp [hg, hvar], fun _ => hret hg⟩
      · simpa [locals, hvar] using hpool
      · exact fun rv hrv => .inl hrv
      · exact le_succ _
      · simpa [StructOpsStmt.declaredNames, hvar] using hfresh
    · rw [if_neg hg]
      refine h.push rfl ?_ ?_ ?_ ?_ ?_ ?_
      · exact ⟨kf, hget, hfits⟩
      · exact ⟨kf, hget, hskel, by simp [hg], by simp⟩
      · simpa [locals, hvar] using hpool
      · intro rv hrv
        by_cases hs : scalarCType kf.retType
        · simp only [hs, if_true] at hrv
          simpa [locals, hvar] using mem_or_scalar hs hrv
        · simp only [hs] at hrv
          exact .inl hrv
      · exact le_succ _
      · simpa [StructOpsStmt.declaredNames, hvar] using hfresh

theorem sat_emitKfuncCall (hsc : ScopeOk env sc) (h : BodyInv kfuncs sc env lo st)
    (hne : callableIdxs sc st.pool 0 kfuncs ≠ []) :
    Gen.Sat (emitKfuncCall kfuncs sc st) (BodyInv kfuncs sc env lo) := by
  refine (sat_callableKfuncs sc st.pool 0 kfuncs).bind ?_
  rintro _ rfl
  refine (sat_pick hne).bind ?_
  intro ki hki
  obtain ⟨-, kf, hget, hcall⟩ := callable_of_mem_callableIdxs hki
  rw [Nat.sub_zero] at hget
  simp only [hget]
  refine (sat_pickArgs st.pool kf.argTypes).bind ?_
  rintro r ⟨-, hall⟩
  cases r with
  | none =>
    refine (sat_intn (length_pos_iff.mpr hsc.fields_ne)).bind ?_
    exact fun fi hfi => sat_emitCtxRead hsc h hfi
  | some args => exact sat_pure (h.publishCall hget hcall (hall args rfl))

/-- `genBody` meets the body specification in scope `sc`. -/
def GenOk (kfuncs : List BpfKfunc) (genBody : BodyGen) (sc : BodyScope) : Prop :=
  ∀ env lo, ScopeOk env sc → Gen.Sat (genBody sc lo) (BodyPost kfuncs sc env lo)

theorem accessorBase_subflowVar (n : ℕ) (field : String) :
    accessorBase (subflowVar n ++ "->" ++ field) = subflowVar n := by
  apply String.toList_injective
  have hall := ne_dash_of_mem_localName (t := .subflow) (n := n)
  rw [localName] at hall
  rw [accessorBase, String.toList_append, String.toList_append, append_assoc,
    takeWhile_append_of_pos hall]
  simp

theorem ScopeOk.loop (hsc : ScopeOk env sc) (n : ℕ) :
    ScopeOk (env ++ [⟨subflowVar n, "struct mptcp_subflow_context *"⟩])
      (loopScope (subflowVar n)) where
  pool := by
    intro v hv
    simp only [loopScope, mem_cons, not_mem_nil, or_false] at hv
    rcases hv with rfl | rfl | rfl
    · exact ⟨_, mem_append_left _ hsc.msk, by decide⟩
    · exact ⟨_, mem_append_left _ hsc.first, by decide⟩
    · refine ⟨_, mem_append_right _ (mem_singleton_self _), ?_⟩
      exact (by decide : normalizeCType "struct mptcp_subflow_context *" =
        "struct mptcp_subflow_context *")
  fields_ne := by simp [loopScope]
  fields := by
    intro f hf
    simp only [loopScope, mem_cons, not_mem_nil, or_false] at hf
    rcases hf with rfl | rfl
    · refine ⟨⟨"struct mptcp_sock *", ?_⟩, by decide⟩
      exact mem_append_left _ hsc.msk
    · refine ⟨⟨"struct mptcp_subflow_context *", ?_⟩, (by decide : scalarCType "unsigned long")⟩
      rw [show subflowVar n ++ "->avg_pacing_rate" = subflowVar n ++ "->" ++ "avg_pacing_rate" by
        rw [String.append_assoc]; rfl, accessorBase_subflowVar]
      exact mem_append_right _ (mem_singleton_self _)
  msk := mem_append_left _ hsc.msk
  first := mem_append_left _ hsc.first

/-- What a statement holding nested bodies satisfies, given the counter before it. -/
structure NestedPost (kfuncs : List BpfKfunc) (sc : BodyScope) (env : List TypedVal) (lo : ℕ)
    (out : StructOpsStmt × ℕ) : Prop where
  inScope : ScopedStmt kfuncs env out.1
  disciplined : DisciplinedStmt kfuncs sc.noReturn sc.allowIter out.1
  le : lo ≤ out.2
  fresh : FreshNames lo out.2 out.1.declaredNames

theorem BodyInv.pushNested (h : BodyInv kfuncs sc env lo st) {out : StructOpsStmt × ℕ}
    (hout : NestedPost kfuncs sc (envAfter env st.body) st.varId out) :
    BodyInv kfuncs sc env lo { st with body := st.body ++ [out.1], varId := out.2 } :=
  h.push rfl hout.inScope hout.disciplined (fun _ => .inl) (fun _ => .inl) hout.le hout.fresh

variable {genBody : BodyGen} {n : ℕ}

theorem sat_genSubflowIter (hsc : ScopeOk env sc)
    (hiter : sc.allowIter) (hgen : GenOk kfuncs genBody (loopScope (subflowVar n))) :
    Gen.Sat (genSubflowIter genBody n) (NestedPost kfuncs sc env n) := by
  refine (hgen _ (n + 1) (hsc.loop n)).bind ?_
  rintro ⟨body, hi⟩ hpost
  have hle : n + 1 ≤ hi := hpost.le
  refine sat_pure ⟨hpost.inScope, ⟨hiter, rfl, rfl, hpost.disciplined⟩, le_of_succ_le hle, ?_⟩
  exact (FreshNames.iterPair n).append (le_succ n) hle hpost.fresh

theorem ScopeOk.branch (hsc : ScopeOk env sc)
    (hpool : ∀ v ∈ pool, Visible env v) : ScopeOk env (branchScope sc pool) where
  pool := hpool
  fields_ne := hsc.fields_ne
  fields := hsc.fields
  msk := hsc.msk
  first := hsc.first

theorem sat_genCondVal (condOp : String) : Gen.Sat (genCondVal condOp) (fun _ => True) := by
  refine sat_ite ?_ ?_
  · exact fun _ => (sat_intn (by decide)).mono (fun _ _ => trivial)
  · exact fun _ => sat_pure trivial

theorem sat_genIfElse (hsc : ScopeOk env sc) {condNames : List String}
    (hpool : ∀ v ∈ pool, Visible env v) (hne : condNames ≠ [])
    (hcond : ∀ x ∈ condNames, DeclaredScalar env x)
    (hgen : GenOk kfuncs genBody (branchScope sc pool)) :
    Gen.Sat (genIfElse genBody sc n pool condNames) (NestedPost kfuncs sc env n) := by
  have hbranch := hsc.branch hpool
  refine (sat_pick hne).bind ?_
  intro condVar hvar
  refine (sat_pick (by decide)).bind ?_
  intro condOp _
  refine (sat_genCondVal condOp).bind ?_
  intro condVal _
  refine (hgen env n hbranch).bind ?_
  rintro ⟨ifBody, mid⟩ hif
  have hmid : n ≤ mid := hif.le
  refine (sat_intn (by decide)).bind ?_
  intro coin _
  refine sat_ite ?_ ?_
  · intro _
    refine (hgen env mid hbranch).bind ?_
    rintro ⟨elseBody, hi⟩ helse
    have hhi : mid ≤ hi := helse.le
    refine sat_pure ⟨⟨hcond _ hvar, hif.inScope, helse.inScope⟩,
      ⟨hif.disciplined, helse.disciplined⟩, le_trans hmid hhi, ?_⟩
    exact hif.fresh.append hmid hhi helse.fresh
  · intro _
    refine sat_pure ⟨⟨hcond _ hvar, hif.inScope, ?_⟩, ⟨hif.disciplined, ?_⟩, hmid, ?_⟩
    · simp [ScopedBody]
    · simp [DisciplinedBody]
    · simpa [StructOpsStmt.declaredNames, declaredNames] using hif.fresh

/-- A kind is only emitted when the scope offers it and its operands exist. -/
structure KindOk (kfuncs : List BpfKfunc) (sc : BodyScope) (st : BodyState)
    (kind : StructOpsStmtKind) : Prop where
  offered : kind ∈ scopeKinds sc
  arith : kind = .arith → st.readVars ≠ []
  call : kind = .kfuncCall → callableIdxs sc st.pool 0 kfuncs ≠ []
  cond : kind = .ifElse → st.readVars ≠ []

theorem KindOk.ctxRead : KindOk kfuncs sc st .ctxRead where
  offered := by simp [scopeKinds]
  arith h := by cases h
  call h := by cases h
  cond h := by cases h

variable {drawn : StructOpsStmtKind}

theorem writeBias_ok (st : BodyState) (hdrawn : drawn ∈ scopeKinds sc)
    (isLast : Bool) : writeBias sc st isLast drawn ∈ scopeKinds sc ∧
      (writeBias sc st isLast drawn = .arith → st.readVars ≠ []) := by
  unfold writeBias
  extract_lets haveWrite kind
  have hmem : kind ∈ scopeKinds sc := by
    dsimp only [kind]
    split
    · simp [scopeKinds]
    · exact hdrawn
  split
  · exact ⟨by simp [scopeKinds], by simp⟩
  · rename_i hn
    exact ⟨hmem, fun ha hr => hn ⟨ha, hr⟩⟩

variable {kind : StructOpsStmtKind}

theorem sat_callFallback (hmem : kind ∈ scopeKinds sc) (harith : kind = .arith → st.readVars ≠ []) :
    Gen.Sat (callFallback kfuncs sc st kind) (fun k => k ∈ scopeKinds sc ∧
      (k = .arith → st.readVars ≠ []) ∧
      (k = .kfuncCall → callableIdxs sc st.pool 0 kfuncs ≠ [])) := by
  refine sat_ite ?_ ?_
  · intro hk
    refine (sat_callableKfuncs sc st.pool 0 kfuncs).bind ?_
    rintro _ rfl
    refine sat_pure ?_
    split
    · exact ⟨by simp [scopeKinds], by simp, by simp⟩
    · rename_i hne
      exact ⟨hmem, harith, fun _ => hne⟩
  · intro hk
    exact sat_pure ⟨hmem, harith, fun h => absurd h hk⟩

theorem sat_chooseKind (hdrawn : drawn ∈ scopeKinds sc)
    (isLast : Bool) : Gen.Sat (chooseKind kfuncs sc st isLast drawn) (KindOk kfuncs sc st) := by
  obtain ⟨hmem, harith⟩ := writeBias_ok st hdrawn isLast
  refine (sat_callFallback hmem harith).bind ?_
  rintro kind ⟨hmem, harith, hcall⟩
  refine sat_pure ?_
  split
  · exact KindOk.ctxRead
  · rename_i hn
    exact ⟨hmem, harith, hcall, fun hc hr => hn ⟨hc, hr⟩⟩

/-- How deep bodies can still nest inside a scope. -/
def BodyScope.nesting (sc : BodyScope) : ℕ :=
  (if sc.allowIter then 1 else 0) + (if sc.allowIf then ifElseMaxDepth - sc.depth else 0)

theorem sat_emitKind (hgen : ∀ sc', sc'.nesting < sc.nesting → GenOk kfuncs genBody sc')
    (hsc : ScopeOk env sc) (h : BodyInv kfuncs sc env lo st) (hk : KindOk kfuncs sc st kind) :
    Gen.Sat (emitKind kfuncs genBody sc st kind) (BodyInv kfuncs sc env lo) := by
  have hfields : 0 < sc.writeFields.length := length_pos_iff.mpr hsc.fields_ne
  have hsc' : ScopeOk (envAfter env st.body) sc := hsc.append _
  cases kind with
  | ctxRead => exact (sat_intn hfields).bind (fun fi hfi => sat_emitCtxRead hsc h hfi)
  | ctxWrite => exact (sat_intn hfields).bind (fun fi hfi => sat_emitCtxWrite hsc h hfi)
  | arith => exact sat_emitArith h (hk.arith rfl)
  | kfuncCall => exact sat_emitKfuncCall hsc h (hk.call rfl)
  | subflowIter =>
    have hiter : sc.allowIter := by
      simpa [scopeKinds] using hk.offered
    have hnest : (loopScope (subflowVar st.varId)).nesting < sc.nesting := by
      simp only [BodyScope.nesting, loopScope, hiter, if_true]
      exact lt_of_lt_of_le one_pos (le_add_right 1 _)
    refine (sat_genSubflowIter hsc' hiter (hgen _ hnest)).bind ?_
    exact fun out hout => sat_pure (h.pushNested hout)
  | ifElse =>
    have hif : sc.allowIf ∧ sc.depth < ifElseMaxDepth := by
      simpa [scopeKinds] using hk.offered
    have hnest : (branchScope sc st.pool).nesting < sc.nesting := by
      simp only [BodyScope.nesting, branchScope, hif.1, if_true]
      omega
    have hcond : ∀ x ∈ st.readVars.map ReadVar.name,
        DeclaredScalar (envAfter env st.body) x := by
      intro x hx
      obtain ⟨rv, hrv, rfl⟩ := mem_map.mp hx
      exact ⟨rv.ctype, h.readVars rv hrv⟩
    refine (sat_genIfElse hsc' h.pool (by simpa using hk.cond rfl) hcond (hgen _ hnest)).bind ?_
    exact fun out hout => sat_pure (h.pushNested hout)

end Emit

theorem genOk_genStructOpsBody (kfuncs : List BpfKfunc) (fuel : ℕ) (sc : BodyScope)
    (hfuel : sc.nesting < fuel) : GenOk kfuncs (genStructOpsBody kfuncs fuel) sc := by
  induction fuel generalizing sc with
  | zero => omega
  | succ fuel ih =>
    intro env lo hsc
    refine (sat_intn (by omega)).bind ?_
    intro extra _
    refine (sat_loop (I := fun _ => BodyInv kfuncs sc env lo) (BodyInv.start hsc lo) ?_).bind ?_
    · intro j st _ _ hinv
      refine (sat_pick (by simp [scopeKinds])).bind ?_
      intro drawn hdrawn
      refine (sat_chooseKind hdrawn _).bind ?_
      intro kind hkind
      refine sat_emitKind ?_ hsc hinv hkind
      intro sc' hlt
      exact ih sc' (by omega)
    · intro st hinv
      exact sat_pure ⟨hinv.inScope, hinv.disciplined, hinv.fresh, hinv.le⟩

/-- The fixed names of the `init` and `release` callbacks. -/
def callbackEnv : List TypedVal :=
  [⟨"msk", "struct mptcp_sock *"⟩, ⟨"msk->first", "struct sock *"⟩]

/-- `get_send` also sees the subflow its prologue looks up. -/
def getSendEnv : List TypedVal :=
  callbackEnv ++ [⟨"subflow", "struct mptcp_subflow_context *"⟩]

theorem scopeOk_initReleaseScope : ScopeOk callbackEnv initReleaseScope where
  pool := by
    intro v hv
    refine ⟨v.ctype, hv, ?_⟩
    revert v
    decide
  fields_ne := by decide
  fields := by
    intro f hf
    obtain rfl := mem_singleton.mp hf
    exact ⟨⟨"struct mptcp_sock *", by decide⟩, by decide⟩
  msk := by decide
  first := by decide

theorem mem_getSendScope_writeFields {f : CtxWriteField} (hf : f ∈ getSendScope.writeFields) :
    f = ⟨"msk->snd_burst", "int"⟩ ∨ f = ⟨"subflow->avg_pacing_rate", "unsigned long"⟩ := by
  simpa [getSendScope, schedWriteFieldsResolved, mptcpSchedWriteFields] using hf

theorem scopeOk_getSendScope : ScopeOk getSendEnv getSendScope where
  pool := by
    intro v hv
    refine ⟨v.ctype, hv, ?_⟩
    revert v
    decide
  fields_ne := by decide
  fields := by
    intro f hf
    rcases mem_getSendScope_writeFields hf with rfl | rfl
    · exact ⟨⟨"struct mptcp_sock *", by decide⟩, by decide⟩
    · exact ⟨⟨"struct mptcp_subflow_context *", by decide⟩, by decide⟩
  msk := by decide
  first := by decide

structure ProgPost (sop : StructOpsProg) : Prop where
  kfuncs : sop.kfuncs = mptcpSchedKfuncs
  iterKfuncs : sop.iterKfuncs = mptcpSubflowIterKfuncs
  getSend_scoped : ScopedBody sop.kfuncs getSendEnv sop.getSendBody
  getSend_disciplined : DisciplinedBody sop.kfuncs false true sop.getSendBody
  init_scoped : ScopedBody sop.kfuncs callbackEnv sop.initBody
  init_disciplined : DisciplinedBody sop.kfuncs true false sop.initBody
  release_scoped : ScopedBody sop.kfuncs callbackEnv sop.releaseBody
  release_disciplined : DisciplinedBody sop.kfuncs true false sop.releaseBody
  fresh : ∃ n, FreshNames 0 n (declaredNames sop.getSendBody ++ declaredNames sop.initBody ++
    declaredNames sop.releaseBody)

/-- Every stream of draws yields a scheduler, and each of its bodies is as its callback
needs it. -/
theorem sat_genStructOpsProg : Gen.Sat genStructOpsProg ProgPost := by
  refine (sat_intn (by decide)).bind ?_
  intro n _
  refine (genOk_genStructOpsBody _ bodyFuel getSendScope (by decide) getSendEnv 0
    scopeOk_getSendScope).bind ?_
  rintro ⟨getSendBody, a⟩ hget
  refine (genOk_genStructOpsBody _ bodyFuel initReleaseScope (by decide) callbackEnv a
    scopeOk_initReleaseScope).bind ?_
  rintro ⟨initBody, b⟩ hinit
  refine (genOk_genStructOpsBody _ bodyFuel initReleaseScope (by decide) callbackEnv b
    scopeOk_initReleaseScope).bind ?_
  rintro ⟨releaseBody, c⟩ hrel
  have hab : a ≤ b := hinit.le
  have hbc : b ≤ c := hrel.le
  refine sat_pure ⟨rfl, rfl, hget.inScope, hget.disciplined, hinit.inScope, hinit.disciplined,
    hrel.inScope, hrel.disciplined, c, ?_⟩
  exact (hget.fresh.append (zero_le a) hab hinit.fresh).append (zero_le b) hbc hrel.fresh

end Brf.StructOps
