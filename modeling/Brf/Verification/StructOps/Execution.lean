import Brf.Verification.StructOps.Generation
import Brf.Verification.StructOps.Rendering
import Brf.Lib.Monitor

/-! # Executions of the rendered callbacks

Control-flow facts about every trace of a disciplined body: iterators are opened and closed
in pairs, only a failed null guard returns, and nothing is scheduled. -/

namespace Brf.StructOps

open Brf.Lib Brf.Lib.MiniC List StructOpsStmt

def isNew (it : String) : Event → Bool
  | .call fn args => fn = "bpf_iter_mptcp_subflow_new" && args.head? = some ("&" ++ it)
  | _ => false

def isDestroy (it : String) : Event → Bool
  | .call fn args => fn = "bpf_iter_mptcp_subflow_destroy" && args.head? = some ("&" ++ it)
  | _ => false

def isSchedule : Event → Bool
  | .call fn _ => fn = "mptcp_subflow_set_scheduled"
  | _ => false

def isRet : Event → Bool
  | .ret _ => true
  | _ => false

/-- The functions whose pointer result is KF_RET_NULL. -/
def StructOpsProg.retNullPtr (sop : StructOpsProg) (fn : String) : Bool :=
  (sop.kfuncs ++ sop.iterKfuncs).any (fun kf => kf.name = fn && kf.needsNullGuard)

/-- An event that is neither an iterator's nor the scheduling call nor a return. -/
structure Neutral (e : Event) : Prop where
  iter : ∀ it, isNew it e = false ∧ isDestroy it e = false
  schedule : isSchedule e = false
  ret : isRet e = false

theorem neutral_use (x : String) : Neutral (.use x) :=
  ⟨fun _ => ⟨rfl, rfl⟩, rfl, rfl⟩

theorem neutral_check (x : String) (b : Bool) : Neutral (.check x b) :=
  ⟨fun _ => ⟨rfl, rfl⟩, rfl, rfl⟩

theorem neutral_bindNullable (x : String) : Neutral (.bindNullable x) :=
  ⟨fun _ => ⟨rfl, rfl⟩, rfl, rfl⟩

def watched (fn : String) : Bool :=
  fn = "bpf_iter_mptcp_subflow_new" || fn = "bpf_iter_mptcp_subflow_destroy" ||
    fn = "mptcp_subflow_set_scheduled"

variable {fn : String}

theorem neutral_call (h : watched fn = false) (args : List String) : Neutral (.call fn args) := by
  simp only [watched, Bool.or_eq_false_iff, decide_eq_false_iff_not] at h
  refine ⟨fun it => ⟨?_, ?_⟩, ?_, rfl⟩
  · simp [isNew, h.1.1]
  · simp [isDestroy, h.1.2]
  · simp [isSchedule, h.2]

theorem unscheduled_callEvents (h : fn ≠ "mptcp_subflow_set_scheduled")
    (args : List String) : ∀ e ∈ callEvents fn args, isSchedule e = false ∧ isRet e = false := by
  intro e he
  simp only [callEvents, mem_append, mem_map, mem_singleton] at he
  rcases he with ⟨a, -, rfl⟩ | rfl
  · exact ⟨rfl, rfl⟩
  · exact ⟨by simp [isSchedule, h], rfl⟩

theorem neutral_callEvents (h : watched fn = false) (args : List String) :
    ∀ e ∈ callEvents fn args, Neutral e := by
  intro e he
  simp only [callEvents, mem_append, mem_map, mem_singleton] at he
  rcases he with ⟨a, -, rfl⟩ | rfl
  · exact neutral_use _
  · exact neutral_call h args

theorem neutral_bindEvents (nullable : String → Bool) (fn x : String) :
    ∀ e ∈ bindEvents nullable fn x, Neutral e := by
  intro e he
  unfold bindEvents at he
  split at he
  · obtain rfl := mem_singleton.mp he
    exact neutral_bindNullable x
  · simp at he

theorem neutral_exprEvents (c : CExpr) : ∀ e ∈ c.events, Neutral e := by
  intro e he
  cases c <;>
  · obtain rfl := mem_singleton.mp he
    exact neutral_use _

/-! ### What a block's traces satisfy -/

/-- Facts about one trace and its outcome, under the flags of the body it comes from. -/
structure TraceOk (noReturn allowIter : Bool) (t : List Event) (o : Option ℤ) : Prop where
  paired : ∀ it, bracketRun (isNew it) (isDestroy it) false t = some false
  iterFree : allowIter = false → ∀ e ∈ t, ∀ it, isNew it e = false ∧ isDestroy it e = false
  unscheduled : ∀ e ∈ t, isSchedule e = false
  falls : o = none → ∀ e ∈ t, isRet e = false
  exits : ∀ code, o = some code → noReturn = false ∧ code = -1 ∧
    ∃ pre x, t = pre ++ [.check x true, .ret (-1)] ∧ ∀ e ∈ pre, isRet e = false

def BlockOk (nullable : String → Bool) (noReturn allowIter : Bool) (block : List CStmt) : Prop :=
  ∀ t o, ExecBlock nullable block t o → TraceOk noReturn allowIter t o

variable {noReturn allowIter : Bool} {t : List Event}

theorem traceOk_neutral (h : ∀ e ∈ t, Neutral e) : TraceOk noReturn allowIter t none where
  paired it := bracketRun_neutral (fun e he => (h e he).iter it) false
  iterFree _ e he := (h e he).iter
  unscheduled e he := (h e he).schedule
  falls _ e he := (h e he).ret
  exits _ hc := by cases hc

variable {o : Option ℤ}

theorem TraceOk.append {u : List Event} (ht : TraceOk noReturn allowIter t none)
    (hu : TraceOk noReturn allowIter u o) : TraceOk noReturn allowIter (t ++ u) o where
  paired it := by
    rw [bracketRun_append, ht.paired it]
    exact hu.paired it
  iterFree hi e he := by
    rcases mem_append.mp he with he | he
    · exact ht.iterFree hi e he
    · exact hu.iterFree hi e he
  unscheduled e he := by
    rcases mem_append.mp he with he | he
    · exact ht.unscheduled e he
    · exact hu.unscheduled e he
  falls ho e he := by
    rcases mem_append.mp he with he | he
    · exact ht.falls rfl e he
    · exact hu.falls ho e he
  exits code hc := by
    obtain ⟨hret, hcode, pre, x, rfl, hpre⟩ := hu.exits code hc
    refine ⟨hret, hcode, t ++ pre, x, by simp, ?_⟩
    intro e he
    rcases mem_append.mp he with he | he
    · exact ht.falls rfl e he
    · exact hpre e he

theorem TraceOk.weaken (h : TraceOk true allowIter t o) : TraceOk noReturn allowIter t o :=
  { h with exits := fun code hc => by simpa using (h.exits code hc).1 }

theorem BlockOk.nil (nullable : String → Bool) (noReturn allowIter : Bool) :
    BlockOk nullable noReturn allowIter [] := by
  rintro t o ⟨rfl, rfl⟩
  exact traceOk_neutral (by simp)

variable {nullable : String → Bool}

theorem BlockOk.append {xs ys : List CStmt} (hx : BlockOk nullable noReturn allowIter xs)
    (hy : BlockOk nullable noReturn allowIter ys) :
    BlockOk nullable noReturn allowIter (xs ++ ys) := by
  intro t o h
  rcases execBlock_append.mp h with ⟨t1, t2, h1, h2, rfl⟩ | ⟨code, h1, rfl⟩
  · exact (hx t1 none h1).append (hy t2 o h2)
  · exact hx t (some code) h1

variable {s : CStmt}

theorem execBlock_singleton : ExecBlock nullable [s] t o ↔ s.Exec nullable t o := by
  cases o <;> simp [ExecBlock]

theorem BlockOk.cons
    {rest : List CStmt} (hs : ∀ t o, s.Exec nullable t o → TraceOk noReturn allowIter t o)
    (hrest : BlockOk nullable noReturn allowIter rest) :
    BlockOk nullable noReturn allowIter (s :: rest) := by
  intro t o h
  rcases execBlock_cons.mp h with ⟨t1, t2, h1, h2, rfl⟩ | ⟨code, h1, rfl⟩
  · exact (hs t1 none h1).append (hrest t2 o h2)
  · exact hs t (some code) h1

variable {kfuncs : List BpfKfunc} {iterId : ℕ} {sfVar sock : String} {body : List StructOpsStmt}

/-- The traces of the iterator triple: one `new`, any number of rounds, the final fetch that
finds nothing, one `destroy`. -/
theorem execBlock_subflowIter
    (hbody : ∀ u code, ¬ ExecBlock nullable (bodyToC kfuncs body) u (some code))
    (h : ExecBlock nullable ((subflowIter iterId sfVar sock body).toC kfuncs) t o) :
    o = none ∧ ∃ rounds : List (List Event),
      (∀ u ∈ rounds, ExecBlock nullable (bodyToC kfuncs body) u none) ∧
      t = callEvents "bpf_iter_mptcp_subflow_new" ["&" ++ iterVar iterId, sock] ++
        ((rounds.flatMap (fetchEvents nullable sfVar "bpf_iter_mptcp_subflow_next"
            ["&" ++ iterVar iterId] false ++ ·) ++
          fetchEvents nullable sfVar "bpf_iter_mptcp_subflow_next" ["&" ++ iterVar iterId] true) ++
        callEvents "bpf_iter_mptcp_subflow_destroy" ["&" ++ iterVar iterId]) := by
  simp only [toC, ExecBlock, CStmt.Exec, hbody, reduceCtorEq, and_false, false_and,
    exists_false, or_false, and_true] at h
  obtain ⟨_, _, rfl, ⟨_, _, rfl, ⟨_, _, rfl, ⟨_, _, rfl, ⟨_, _, ⟨rounds, hr, rfl⟩,
    ⟨_, _, rfl, ⟨rfl, ho⟩, rfl⟩, rfl⟩, rfl⟩, rfl⟩, rfl⟩, rfl⟩ := h
  exact ⟨ho, rounds, hr, by simp⟩

theorem neutral_fetchEvents (nullable : String → Bool) (x : String) (args : List String)
    (b : Bool) : ∀ e ∈ fetchEvents nullable x "bpf_iter_mptcp_subflow_next" args b, Neutral e := by
  intro e he
  simp only [fetchEvents, mem_append, mem_singleton] at he
  rcases he with (he | he) | rfl
  · exact neutral_callEvents (by decide) args e he
  · exact neutral_bindEvents nullable _ x e he
  · exact neutral_check x b

/-- The pair of calls brackets any middle part that leaves iterators alone. -/
theorem paired_subflowIter (it sock : String) {mid : List Event}
    (hmid : ∀ e ∈ mid, ∀ x, isNew x e = false ∧ isDestroy x e = false) (x : String) :
    bracketRun (isNew x) (isDestroy x) false
      (callEvents "bpf_iter_mptcp_subflow_new" ["&" ++ it, sock] ++
        (mid ++ callEvents "bpf_iter_mptcp_subflow_destroy" ["&" ++ it])) = some false := by
  have hrun : ∀ b, bracketRun (isNew x) (isDestroy x) b mid = some b :=
    bracketRun_neutral (fun e he => hmid e he x)
  by_cases hx : it = x
  · subst hx
    simp [callEvents, bracketRun_append, bracketRun_cons, bracketStep, isNew, isDestroy, hrun]
  · simp [callEvents, bracketRun_append, bracketRun_cons, bracketStep, isNew, isDestroy, hrun, hx]

theorem traceOk_subflowIter (hbody : BlockOk nullable true false (bodyToC kfuncs body)) :
    BlockOk nullable noReturn true ((subflowIter iterId sfVar sock body).toC kfuncs) := by
  intro t o h
  have hnoret : ∀ u code, ¬ ExecBlock nullable (bodyToC kfuncs body) u (some code) := by
    intro u code hu
    simpa using ((hbody u _ hu).exits code rfl).1
  obtain ⟨rfl, rounds, hrounds, rfl⟩ := execBlock_subflowIter hnoret h
  set fetch := fetchEvents nullable sfVar "bpf_iter_mptcp_subflow_next" ["&" ++ iterVar iterId]
  have hround : ∀ e ∈ rounds.flatMap (fetch false ++ ·) ++ fetch true,
      Neutral e ∨ ∃ u ∈ rounds, e ∈ u := by
    intro e he
    simp only [mem_append, mem_flatMap] at he
    rcases he with ⟨u, hu, he | he⟩ | he
    · exact .inl (neutral_fetchEvents _ _ _ _ e he)
    · exact .inr ⟨u, hu, he⟩
    · exact .inl (neutral_fetchEvents _ _ _ _ e he)
  have hcases : ∀ e ∈ callEvents "bpf_iter_mptcp_subflow_new" ["&" ++ iterVar iterId, sock] ++
      ((rounds.flatMap (fetch false ++ ·) ++ fetch true) ++
        callEvents "bpf_iter_mptcp_subflow_destroy" ["&" ++ iterVar iterId]),
      (isSchedule e = false ∧ isRet e = false) ∨ ∃ u ∈ rounds, e ∈ u := by
    intro e he
    rcases mem_append.mp he with he | he
    · exact .inl (unscheduled_callEvents (by decide) _ e he)
    · rcases mem_append.mp he with he | he
      · exact (hround e he).imp_left (fun hn => ⟨hn.schedule, hn.ret⟩)
      · exact .inl (unscheduled_callEvents (by decide) _ e he)
  refine ⟨?_, by simp, ?_, ?_, by simp⟩
  · refine paired_subflowIter _ _ ?_
    intro e he
    rcases hround e he with hn | ⟨u, hu, heu⟩
    · exact hn.iter
    · exact (hbody u none (hrounds u hu)).iterFree rfl e heu
  · intro e he
    rcases hcases e he with hn | ⟨u, hu, heu⟩
    · exact hn.1
    · exact (hbody u none (hrounds u hu)).unscheduled e heu
  · intro _ e he
    rcases hcases e he with hn | ⟨u, hu, heu⟩
    · exact hn.2
    · exact (hbody u none (hrounds u hu)).falls rfl e heu

theorem not_watched_of_mem {kf : BpfKfunc} (h : kf ∈ mptcpSchedKfuncs)
    (hskel : isSkeletonKfunc kf = false) : watched kf.name = false := by
  revert kf
  decide

theorem blockOk_kfuncCall {nullGuard : Bool} {ki : ℕ} {args : List String} {var ctype : String}
    (h : DisciplinedStmt mptcpSchedKfuncs noReturn allowIter
      (.kfuncCall ki args var ctype nullGuard)) :
    BlockOk nullable noReturn allowIter
      ((kfuncCall ki args var ctype nullGuard).toC mptcpSchedKfuncs) := by
  obtain ⟨kf, hget, hskel, hguard, hret⟩ := h
  have hname : kfuncName mptcpSchedKfuncs ki = kf.name := by simp [kfuncName, hget]
  have hcall := neutral_callEvents (not_watched_of_mem (mem_of_getElem? hget) hskel) args
  rw [toC, hname]
  refine BlockOk.cons ?_ ?_
  · intro t o ht
    split at ht
    · obtain ⟨rfl, rfl⟩ := ht
      exact traceOk_neutral hcall
    · obtain ⟨rfl, rfl⟩ := ht
      refine traceOk_neutral ?_
      intro e he
      rcases mem_append.mp he with he | he
      · exact hcall e he
      · exact neutral_bindEvents nullable _ _ e he
  · cases nullGuard with
    | false => exact BlockOk.nil _ _ _
    | true =>
      refine BlockOk.cons ?_ (BlockOk.nil _ _ _)
      rintro t o (⟨rfl, rfl⟩ | ⟨rfl, rfl⟩)
      · refine ⟨?_, ?_, ?_, by simp, ?_⟩
        · intro it
          rfl
        · intro _ e he it
          simp only [mem_cons, not_mem_nil, or_false] at he
          rcases he with rfl | rfl <;> exact ⟨rfl, rfl⟩
        · intro e he
          simp only [mem_cons, not_mem_nil, or_false] at he
          rcases he with rfl | rfl <;> rfl
        · intro code hc
          obtain rfl : code = -1 := by simpa using hc.symm
          exact ⟨hret rfl, rfl, [], var, rfl, by simp⟩
      · refine traceOk_neutral ?_
        intro e he
        obtain rfl := mem_singleton.mp he
        exact neutral_check _ _

theorem blockOk_bodyToC (nullable : String → Bool) (body : List StructOpsStmt) :
    ∀ noReturn allowIter, DisciplinedBody mptcpSchedKfuncs noReturn allowIter body →
      BlockOk nullable noReturn allowIter (bodyToC mptcpSchedKfuncs body) := by
  revert body
  refine body_induction
    (P := fun st => ∀ noReturn allowIter, DisciplinedStmt mptcpSchedKfuncs noReturn allowIter st →
        BlockOk nullable noReturn allowIter (st.toC mptcpSchedKfuncs))
    ?nil ?cons ?ctxRead ?ctxWrite ?arith ?kfuncCall ?subflowIter ?ifElse
  case nil =>
    intro noReturn allowIter _
    exact BlockOk.nil _ _ _
  case cons =>
    intro st rest hst hrest noReturn allowIter hd
    exact (hst _ _ hd.1).append (hrest _ _ hd.2)
  case ctxRead =>
    intro fi accessor ctype var noReturn allowIter _
    refine BlockOk.cons ?_ (BlockOk.nil _ _ _)
    rintro t o ⟨rfl, rfl⟩
    exact traceOk_neutral (neutral_exprEvents _)
  case ctxWrite =>
    intro fi accessor ctype val noReturn allowIter _
    refine BlockOk.cons ?_ (BlockOk.nil _ _ _)
    rintro t o ⟨rfl, rfl⟩
    refine traceOk_neutral ?_
    intro e he
    obtain rfl := mem_singleton.mp he
    exact neutral_use _
  case arith =>
    intro var ctype srcVar op val noReturn allowIter _
    refine BlockOk.cons ?_ (BlockOk.nil _ _ _)
    rintro t o ⟨rfl, rfl⟩
    exact traceOk_neutral (neutral_exprEvents _)
  case kfuncCall =>
    intro ki args var ctype nullGuard noReturn allowIter hd
    exact blockOk_kfuncCall hd
  case subflowIter =>
    intro iterId var sock body ih noReturn allowIter hd
    obtain ⟨rfl, -, -, hbody⟩ := hd
    exact traceOk_subflowIter (ih _ _ hbody)
  case ifElse =>
    intro condVar condOp condVal ifBody elseBody ihIf ihElse noReturn allowIter hd
    refine BlockOk.cons ?_ (BlockOk.cons ?_ (BlockOk.nil _ _ _))
    · rintro t o ⟨rfl, rfl⟩
      exact traceOk_neutral (by simp)
    · rintro t o ⟨u, rfl, hu⟩
      have hcond : TraceOk noReturn allowIter (condToC condVar condOp condVal).events none :=
        traceOk_neutral (neutral_exprEvents _)
      rcases hu with hu | hu
      · exact hcond.append (ihIf _ _ hd.1 u o hu).weaken
      · exact hcond.append (ihElse _ _ hd.2 u o hu).weaken

end Brf.StructOps
