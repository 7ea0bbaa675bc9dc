import Brf.Verification.StructOps.NullSafety

/-! # Correctness of generated schedulers

Scoping and typing of the three bodies, and control flow of every execution of the three
rendered callbacks, for every stream of draws. -/

namespace Brf.StructOps

open Brf.Lib Brf.Lib.MiniC List Option StructOpsProg

/-- Every name used is in scope with the right type, and no two declarations collide. -/
theorem genStructOpsProg_scoped (draws : Stream' ℕ) :
    ∃ sop rest, genStructOpsProg draws = some (sop, rest) ∧
      ScopedBody sop.kfuncs getSendEnv sop.getSendBody ∧
      ScopedBody sop.kfuncs callbackEnv sop.initBody ∧
      ScopedBody sop.kfuncs callbackEnv sop.releaseBody ∧
      (declaredNames sop.getSendBody ++ declaredNames sop.initBody ++
        declaredNames sop.releaseBody).Nodup := by
  obtain ⟨sop, rest, hrun, hpost⟩ := sat_genStructOpsProg draws
  obtain ⟨n, hfresh⟩ := hpost.fresh
  exact ⟨sop, rest, hrun, hpost.getSend_scoped, hpost.init_scoped, hpost.release_scoped,
    hfresh.nodup⟩

/-! ### What executions must satisfy -/

/-- After each `new` of an iterator comes exactly one `destroy` of it before the function
exits and before the next `new` of it. -/
def IterClosedOnce (t : List Event) : Prop :=
  ∀ it pre e post, t = pre ++ e :: post → isNew it e →
    (post.takeWhile (fun e => !isNew it e)).countP (isDestroy it) = 1

/-- A `new` of the iterator has not been followed by a `destroy` yet. -/
def IterOpen (it : String) (t : List Event) : Prop :=
  ∃ pre e post, t = pre ++ e :: post ∧ isNew it e ∧ ∀ d ∈ post, isDestroy it d = false

/-- A KF_RET_NULL pointer is found non-null between being stored and being used. -/
def CheckedBeforeUse (t : List Event) : Prop :=
  ∀ v pre mid post, t = pre ++ .bindNullable v :: (mid ++ .use v :: post) →
    Event.check v false ∈ mid

/-- `get_send` leaves through a failed guard with every iterator closed, or it schedules its
subflow once and returns 0. -/
def GetSendExit (t : List Event) (o : Option ℤ) : Prop :=
  (o = some (-1) ∧ ∃ pre x, t = pre ++ [.check x true, .ret (-1)] ∧ ∀ it, ¬ IterOpen it pre) ∨
    (o = some 0 ∧ ∃ pre, t = pre ++
      [.call "mptcp_subflow_set_scheduled" ["subflow", "true"], .ret 0] ∧
      ∀ e ∈ pre, isSchedule e = false)

variable {t : List Event}

theorem iterClosedOnce_of_paired
    (h : ∀ it, bracketRun (isNew it) (isDestroy it) false t = some false) : IterClosedOnce t :=
  fun it _ _ _ ht he => bracket_closed_once (h it) ht he

theorem not_iterOpen_of_paired {it : String}
    (h : bracketRun (isNew it) (isDestroy it) false t = some false) : ¬ IterOpen it t := by
  rintro ⟨pre, e, post, ht, he, hnone⟩
  have hone := bracket_closed_once h ht he
  have hzero : (post.takeWhile (fun e => !isNew it e)).countP (isDestroy it) = 0 := by
    rw [countP_eq_zero]
    intro d hd
    simp [hnone d ((takeWhile_sublist _).subset hd)]
  omega

theorem checkedBeforeUse_of_nullRun
    (h : ∀ v, ∃ b, nullRun v false t = some b) : CheckedBeforeUse t := by
  intro v pre mid post ht
  obtain ⟨b, hb⟩ := h v
  obtain ⟨c, hc, hclean⟩ := guard_cleaned_before_use hb ht (by simp [bindsNullable])
    (by simp [usesVar]) rfl rfl
  cases c with
  | check x isNull =>
    obtain ⟨rfl, rfl⟩ : x = v ∧ isNull = false := by simpa [checkedNonNull] using hclean
    exact hc
  | _ => simp [checkedNonNull] at hclean

variable {x : String}

theorem declared_callbackEnv (h : Declared callbackEnv x) : x = "msk" ∨ x = "msk->first" := by
  obtain ⟨t, ht⟩ := h
  simp only [callbackEnv, mem_cons, TypedVal.mk.injEq, not_mem_nil, or_false] at ht
  exact ht.imp And.left And.left

theorem declared_getSendEnv (h : Declared getSendEnv x) :
    x = "msk" ∨ x = "msk->first" ∨ x = "subflow" := by
  rcases declared_append.mp h with h | ⟨t, ht⟩
  · exact (declared_callbackEnv h).imp_right .inl
  · exact .inr (.inr (congrArg TypedVal.expr (mem_singleton.mp ht)))

theorem envOk_callbackEnv : EnvOk callbackEnv where
  plain x hx := by
    rcases declared_callbackEnv hx with rfl | rfl <;> exact ⟨by decide, by decide⟩
  rooted x hx := by
    rcases declared_callbackEnv hx with rfl | rfl <;> exact ⟨"struct mptcp_sock *", by decide⟩
  msk := ⟨"struct mptcp_sock *", by decide⟩

theorem envOk_getSendEnv : EnvOk getSendEnv where
  plain x hx := by
    rcases declared_getSendEnv hx with rfl | rfl | rfl <;> exact ⟨by decide, by decide⟩
  rooted x hx := by
    rcases declared_getSendEnv hx with rfl | rfl | rfl
    · exact ⟨"struct mptcp_sock *", by decide⟩
    · exact ⟨"struct mptcp_sock *", by decide⟩
    · exact ⟨"struct mptcp_subflow_context *", by decide⟩
  msk := ⟨"struct mptcp_sock *", by decide⟩

theorem localName_ne_fixed (t : NameTag) (n : ℕ) :
    ¬ (localName t n = "msk" ∨ localName t n = "msk->first" ∨ localName t n = "subflow") := by
  have hhead : ∀ s, localName t n = s → s.toList.head? ≠ some 'm' := by
    cases t <;> simp [localName, localVar, subflowVar, iterVar]
  rintro (h | h | h)
  · exact hhead _ h (by decide)
  · exact hhead _ h (by decide)
  · have hl := congrArg String.toList h
    cases t with
    | scalar =>
      have hdigits : (toString n).toList = "ubflow".toList := by
        simpa [localName, localVar] using hl
      have hmem : 'u' ∈ (toString n).toList := by
        rw [hdigits]
        decide
      exact absurd (isDigit_of_mem_toString hmem) (by decide)
    | subflow => simp [localName, subflowVar] at hl
    | iter => simp [localName, iterVar] at hl

theorem FreshNames.namesOk {env : List TypedVal} {lo hi : ℕ} {names : List String}
    (h : FreshNames lo hi names)
    (henv : ∀ x, Declared env x → x = "msk" ∨ x = "msk->first" ∨ x = "subflow") :
    NamesOk env names where
  nodup := h.nodup
  generated x hx := by
    obtain ⟨t, i, he, -⟩ := h.range x hx
    exact ⟨t, i, he⟩
  apart x hx := by
    obtain ⟨t, i, rfl, -⟩ := h.range x hx
    exact fun hd => localName_ne_fixed t i (henv _ hd)

variable {sop : StructOpsProg}

/-- The kfunc tables agree on which calls of a generated body may return a null pointer. -/
theorem retNullPtr_guarded (h : ProgPost sop) :
    ∀ kf ∈ mptcpSchedKfuncs, sop.retNullPtr kf.name → kf.needsNullGuard := by
  rw [funext (fun fn => by rw [retNullPtr, h.kfuncs, h.iterKfuncs] :
    ∀ fn, sop.retNullPtr fn = (mptcpSchedKfuncs ++ mptcpSubflowIterKfuncs).any
      (fun kf => kf.name = fn && kf.needsNullGuard))]
  decide

variable {nullable : String → Bool} {o : Option ℤ} {rest : List CStmt}

theorem execBlock_comment {text : String} :
    ExecBlock nullable (.comment text :: rest) t o ↔ ExecBlock nullable rest t o := by
  simp [ExecBlock, CStmt.Exec]

variable {body : List StructOpsStmt}

theorem execBlock_emptyNoteC :
    ExecBlock nullable (emptyNoteC body ++ rest) t o ↔ ExecBlock nullable rest t o := by
  unfold emptyNoteC
  split
  · exact execBlock_comment
  · rfl

/-- The lookup of the prologue, before its result is tested. -/
def lookupEvents (nullable : String → Bool) : List Event :=
  callEvents "bpf_mptcp_subflow_ctx" ["msk->first"] ++
    bindEvents nullable "bpf_mptcp_subflow_ctx" "subflow"

theorem neutral_lookupEvents (nullable : String → Bool) :
    ∀ e ∈ lookupEvents nullable, Neutral e := by
  intro e he
  rcases mem_append.mp he with he | he
  · exact neutral_callEvents (by decide) _ e he
  · exact neutral_bindEvents nullable _ _ e he

theorem execBlock_getSendToC (h : ExecBlock nullable sop.getSendToC t o) :
    (o = some (-1) ∧ t = lookupEvents nullable ++ [.check "subflow" true, .ret (-1)]) ∨
    (∃ u code, ExecBlock nullable (bodyToC sop.kfuncs sop.getSendBody) u (some code) ∧
      o = some code ∧ t = lookupEvents nullable ++ [.check "subflow" false] ++ u) ∨
    (∃ u, ExecBlock nullable (bodyToC sop.kfuncs sop.getSendBody) u none ∧ o = some 0 ∧
      t = lookupEvents nullable ++ [.check "subflow" false] ++ u ++
        (callEvents "mptcp_subflow_set_scheduled" ["subflow", "true"] ++ [.ret 0])) := by
  rw [getSendToC, prologueC, append_assoc] at h
  simp only [cons_append, nil_append, ExecBlock, CStmt.Exec, execBlock_emptyNoteC,
    reduceCtorEq, and_false, false_and, exists_false, or_false, false_or, and_true] at h
  obtain ⟨_, _, rfl, ⟨_, _, rfl, ⟨_, _, rfl, hguard, rfl⟩, rfl⟩, rfl⟩ := h
  rcases hguard with ⟨_, _, rfl, ⟨_, _, rfl, ⟨_, _, rfl, hbody, rfl⟩, rfl⟩, rfl⟩ |
    ⟨code, ⟨rfl, hcode⟩, rfl⟩
  · refine .inr ?_
    rcases execBlock_append.mp hbody with ⟨u, w, hu, hw, rfl⟩ | ⟨code, hu, rfl⟩
    · refine .inr ⟨u, hu, ?_⟩
      simp only [epilogueC, ExecBlock, CStmt.Exec, reduceCtorEq, and_false, false_and,
        exists_false, or_false, and_true, false_or] at hw
      obtain ⟨_, _, rfl, ⟨_, _, rfl, ⟨code, ⟨rfl, hcode⟩, rfl⟩, rfl⟩, rfl⟩ := hw
      refine ⟨hcode, ?_⟩
      simp [lookupEvents]
    · exact .inl ⟨_, code, hu, rfl, by simp [lookupEvents]⟩
  · exact .inl ⟨hcode, by simp [lookupEvents]⟩

section GetSend

variable {sop : StructOpsProg} {t : List Event} {o : Option ℤ}

/-- Up to the point where it leaves, `get_send` runs balanced code that schedules nothing. -/
theorem getSend_exit (hsop : ProgPost sop) (h : ExecBlock sop.retNullPtr sop.getSendToC t o) :
    IterClosedOnce t ∧ GetSendExit t o := by
  have hbody := blockOk_bodyToC sop.retNullPtr sop.getSendBody false true
    (hsop.kfuncs ▸ hsop.getSend_disciplined)
  have hprologue : ∀ b, TraceOk false true (lookupEvents sop.retNullPtr ++ [.check "subflow" b])
      none := by
    intro b
    refine traceOk_neutral (fun e he => ?_)
    rcases mem_append.mp he with he | he
    · exact neutral_lookupEvents _ e he
    · obtain rfl := mem_singleton.mp he
      exact neutral_check _ _
  rcases execBlock_getSendToC h with ⟨rfl, rfl⟩ | ⟨u, code, hu, rfl, rfl⟩ | ⟨u, hu, rfl, rfl⟩
  · have hpaired : ∀ it, bracketRun (isNew it) (isDestroy it) false
        (lookupEvents sop.retNullPtr) = some false := by
      intro it
      exact bracketRun_neutral (fun e he => (neutral_lookupEvents _ e he).iter it) false
    refine ⟨iterClosedOnce_of_paired (fun it => ?_), .inl ⟨rfl, _, _, rfl, fun it =>
      not_iterOpen_of_paired (hpaired it)⟩⟩
    rw [bracketRun_append, hpaired it]
    rfl
  · rw [← hsop.kfuncs] at hbody
    have htrace := (hprologue false).append (hbody u _ hu)
    obtain ⟨-, rfl, pre, x, hpre, -⟩ := htrace.exits code rfl
    refine ⟨iterClosedOnce_of_paired htrace.paired, .inl ⟨rfl, pre, x, hpre, fun it => ?_⟩⟩
    refine not_iterOpen_of_paired ?_
    have hrun := htrace.paired it
    rw [hpre, bracketRun_append, bind_eq_some_iff] at hrun
    obtain ⟨b, hb, hlast⟩ := hrun
    rw [hb]
    exact hlast
  · rw [← hsop.kfuncs] at hbody
    have htrace := (hprologue false).append (hbody u _ hu)
    refine ⟨iterClosedOnce_of_paired (fun it => ?_), .inr ⟨rfl,
      lookupEvents sop.retNullPtr ++ [.check "subflow" false] ++ u ++
        [.use "subflow", .use "true"], ?_, ?_⟩⟩
    · rw [bracketRun_append, htrace.paired it]
      simp [callEvents, bracketRun_cons, bracketStep, isNew, isDestroy]
    · simp [callEvents, show operandRoot "subflow" = "subflow" by decide,
        show operandRoot "true" = "true" by decide]
    · intro e he
      rcases mem_append.mp he with he | he
      · exact htrace.unscheduled e he
      · simp only [mem_cons, not_mem_nil, or_false] at he
        rcases he with rfl | rfl <;> rfl

/-- No pointer is used in `get_send` while it may be null. -/
theorem getSend_checked (hsop : ProgPost sop)
    (h : ExecBlock sop.retNullPtr sop.getSendToC t o) : CheckedBeforeUse t := by
  obtain ⟨n, hfresh⟩ := hsop.fresh
  have hnames : NamesOk getSendEnv (declaredNames sop.getSendBody) :=
    (hfresh.sublist ((sublist_append_left _ _).trans (sublist_append_left _ _))).namesOk
      (fun _ => declared_getSendEnv)
  refine checkedBeforeUse_of_nullRun (fun v => ?_)
  have hlookup : nullRun v false (callEvents "bpf_mptcp_subflow_ctx" ["msk->first"]) =
      some false := nullRun_callEvents (by simp)
  have hprologue : nullRun v false (lookupEvents sop.retNullPtr ++ [.check "subflow" false]) =
      some false := by
    rw [lookupEvents, append_assoc, nullRun_append, hlookup, bind_some, nullRun_bind_check]
    split <;> rfl
  have hbody : ∀ u o', ExecBlock sop.retNullPtr (bodyToC sop.kfuncs sop.getSendBody) u o' →
      NullPost v false true (envAfter getSendEnv sop.getSendBody)
        (declaredNames sop.getSendBody) u o' := by
    intro u o' hu
    refine nullPost_body (retNullPtr_guarded hsop) sop.getSendBody false true getSendEnv false u o'
      ?_ ?_ envOk_getSendEnv hnames (by simp [TaintOk]) ?_
    · exact hsop.kfuncs ▸ hsop.getSend_disciplined
    · exact hsop.kfuncs ▸ hsop.getSend_scoped
    · exact hsop.kfuncs ▸ hu
  rcases execBlock_getSendToC h with ⟨rfl, rfl⟩ | ⟨u, code, hu, rfl, rfl⟩ | ⟨u, hu, rfl, rfl⟩
  · have hsplit : lookupEvents sop.retNullPtr ++ [.check "subflow" true, .ret (-1)] =
        callEvents "bpf_mptcp_subflow_ctx" ["msk->first"] ++
          (bindEvents sop.retNullPtr "bpf_mptcp_subflow_ctx" "subflow" ++
            [.check "subflow" true] ++ [.ret (-1)]) := by simp [lookupEvents]
    rw [hsplit, nullRun_append, hlookup, bind_some, nullRun_append, nullRun_bind_null]
    exact ⟨_, rfl⟩
  · obtain ⟨b, hrun, -⟩ := hbody u _ hu
    exact ⟨b, by rw [nullRun_append, hprologue]; exact hrun⟩
  · obtain ⟨b, hrun, hpost⟩ := hbody u _ hu
    refine ⟨b, ?_⟩
    rw [nullRun_append, nullRun_append, hprologue, bind_some, hrun, bind_some,
      nullRun_append, nullRun_callEvents]
    · rfl
    · intro hb hmem
      obtain ⟨henv, hcause⟩ := hpost rfl hb
      have hroots : v = "subflow" ∨ v = "true" := by
        simpa [show operandRoot "subflow" = "subflow" by decide,
          show operandRoot "true" = "true" by decide] using hmem
      rcases hroots with rfl | rfl
      · exact henv (Declared.append ⟨"struct mptcp_subflow_context *", by decide⟩ _)
      · rcases hcause with hf | ⟨-, hmem⟩
        · cases hf
        · obtain ⟨tag, i, he⟩ := hnames.generated _ hmem
          exact (localName_ne_literal tag i).1 he.symm

end GetSend

theorem callback_exec (hsop : ProgPost sop)
    {n : ℕ} (hscoped : ScopedBody sop.kfuncs callbackEnv body)
    (hdisc : DisciplinedBody sop.kfuncs true false body)
    (hfresh : FreshNames 0 n (declaredNames body))
    (h : ExecBlock sop.retNullPtr (sop.callbackToC body) t o) :
    IterClosedOnce t ∧ o = none ∧ (∀ e ∈ t, isRet e = false) ∧ CheckedBeforeUse t := by
  rw [callbackToC, execBlock_comment, execBlock_emptyNoteC, hsop.kfuncs] at h
  rw [hsop.kfuncs] at hscoped hdisc
  have htrace := blockOk_bodyToC sop.retNullPtr body true false hdisc t o h
  have ho : o = none := by
    cases o with
    | none => rfl
    | some code => simpa using (htrace.exits code rfl).1
  refine ⟨iterClosedOnce_of_paired htrace.paired, ho, htrace.falls ho, ?_⟩
  refine checkedBeforeUse_of_nullRun (fun v => ?_)
  obtain ⟨b, hrun, -⟩ := nullPost_body (v := v) (retNullPtr_guarded hsop) body true false
    callbackEnv false t o hdisc hscoped envOk_callbackEnv
    (hfresh.namesOk (fun x hx => (declared_callbackEnv hx).imp_right .inl))
    (by simp [TaintOk]) h
  exact ⟨b, hrun⟩

/-- On every execution of the rendered callbacks iterators are destroyed exactly once,
`init` and `release` return no value, `get_send` leaves through a failed guard or schedules
once, and KF_RET_NULL pointers are checked before use. -/
theorem genStructOpsProg_executions (draws : Stream' ℕ) :
    ∃ sop rest, genStructOpsProg draws = some (sop, rest) ∧
      sop.renderGetSendBody = printBlock "\t" sop.getSendToC ∧
      (∀ t o, ExecBlock sop.retNullPtr sop.getSendToC t o →
        IterClosedOnce t ∧ GetSendExit t o ∧ CheckedBeforeUse t) ∧
      ∀ body ∈ [sop.initBody, sop.releaseBody],
        sop.renderCallbackBody body = printBlock "\t" (sop.callbackToC body) ∧
        ∀ t o, ExecBlock sop.retNullPtr (sop.callbackToC body) t o →
          IterClosedOnce t ∧ o = none ∧ (∀ e ∈ t, isRet e = false) ∧ CheckedBeforeUse t := by
  obtain ⟨sop, rest, hrun, hsop⟩ := sat_genStructOpsProg draws
  obtain ⟨n, hfresh⟩ := hsop.fresh
  refine ⟨sop, rest, hrun, renderGetSendBody_eq sop, ?_, ?_⟩
  · intro t o h
    obtain ⟨hiter, hexit⟩ := getSend_exit hsop h
    exact ⟨hiter, hexit, getSend_checked hsop h⟩
  · intro body hbody
    refine ⟨renderCallbackBody_eq sop body, fun t o h => ?_⟩
    simp only [mem_cons, not_mem_nil, or_false] at hbody
    rcases hbody with rfl | rfl
    · exact callback_exec hsop hsop.init_scoped hsop.init_disciplined
        (hfresh.sublist ((sublist_append_right _ _).trans (sublist_append_left _ _))) h
    · exact callback_exec hsop hsop.release_scoped hsop.release_disciplined
        (hfresh.sublist (sublist_append_right _ _)) h

end Brf.StructOps
