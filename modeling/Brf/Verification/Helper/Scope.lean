import Brf.Lib.EachAfter
import Brf.Model.HelperSource
import Brf.Verification.Helper.Programs

/-! # Definition before use

The variables that the rendered calls use and declare. In a program as it is generated, every
call uses variables that are declared before it, and no variable is declared twice. -/

namespace Brf.HelperCalls

open Brf.Lib List BpfCall CExpr

/-- The variables declared ahead of the calls. -/
def BpfProg.globals (p : BpfProg) : List ℕ := p.ctxVars.map Prod.snd ++ p.scratchMapVars

/-- The result variable of a call that declares it with a type. -/
def BpfCall.typedRet (call : BpfCall) : List ℕ := if call.retType = "" then [] else call.ret.toList

def BpfCall.decls (call : BpfCall) : List ℕ := call.locals ++ call.typedRet

/-- All declarations in the body of the rendered function. -/
def BpfProg.decls (p : BpfProg) : List ℕ := p.globals ++ p.calls.flatMap BpfCall.decls

/-- The variables of a call's preparation, guard and argument list. -/
def BpfCall.uses (p : BpfProg) (call : BpfCall) : List ℕ :=
  vars call.prepareText ++ vars (call.guardText p) ++ vars (argList call.args)

/-- The variables of the calls rendered behind a call. -/
def BpfCall.postUses (call : BpfCall) : List ℕ := CExpr.vars (call.postText "")

/-- A call rendered behind `before` uses what is declared there and its own locals; the calls
that follow it within its guard can also use its result. -/
structure CallScoped (p : BpfProg) (before : List BpfCall) (call : BpfCall) : Prop where
  uses : ∀ v ∈ call.uses p,
    v ∈ p.globals ∨ v ∈ before.flatMap decls ∨ v ∈ call.locals
  postUses : ∀ v ∈ call.postUses,
    v ∈ p.globals ∨ v ∈ before.flatMap decls ∨ v ∈ call.decls

structure WellScoped (p : BpfProg) : Prop where
  nodup : p.decls.Nodup
  order : EachAfter (CallScoped p) p.calls

@[simp] theorem ArgName.vars_text (name : ArgName) : vars name.text = name.var?.toList := by
  cases name <;> simp [ArgName.text, ArgName.var?]

@[simp] theorem ArgName.vars_base (name : ArgName) : vars name.base = name.var?.toList := by
  cases name <;> simp [ArgName.base, ArgName.var?]

variable {v : ℕ}

theorem mem_vars_argList {args : List BpfArg} :
    v ∈ vars (argList args) ↔ ∃ a ∈ args, a.name.var? = some v := by
  rw [argList, mem_vars_intercalate (by simp)]
  simp

variable {p : BpfProg}

theorem BpfProg.mem_vars_ctxText {field : String}
    (h : v ∈ vars (p.ctxText field)) : v ∈ p.ctxVars.map Prod.snd := by
  unfold BpfProg.ctxText at h
  split at h
  · rename_i w hw
    obtain rfl : v = w := by simpa using h
    exact mem_map_of_mem (mem_of_lookup hw)
  · simp at h

theorem mem_vars_argConstraints {a : BpfArg} {t : CText} (ht : t ∈ argConstraints p a)
    (hv : v ∈ vars t) : v ∈ p.ctxVars.map Prod.snd ∨ a.name.var? = some v := by
  have hrange : ∀ f g n, v ∈ vars (rangeConstraint (p.ctxText f) n (p.ctxText g)) →
      v ∈ p.ctxVars.map Prod.snd := by
    intro f g n h
    simp only [rangeConstraint, vars_append, mem_append] at h
    rcases h with (h | h) | h
    · exact p.mem_vars_ctxText h
    · simp at h
    · exact p.mem_vars_ctxText h
  unfold argConstraints at ht
  split at ht
  · exact .inl (hrange _ _ _ (mem_singleton.mp ht ▸ hv))
  split at ht
  · exact .inl (hrange _ _ _ (mem_singleton.mp ht ▸ hv))
  right
  split at ht
  · simpa [mem_singleton.mp ht] using hv
  rcases mem_append.mp ht with ht | ht
  · unfold lowerConstraint positiveConstraint at ht
    split at ht
    · cases ht
    split at ht <;> simpa [mem_singleton.mp ht] using hv
  · unfold upperConstraint at ht
    split at ht
    · cases ht
    · simpa [mem_singleton.mp ht] using hv

variable {call : BpfCall}

theorem mem_vars_guardText (h : v ∈ vars (call.guardText p)) :
    v ∈ p.ctxVars.map Prod.snd ∨ ∃ a ∈ call.args, a.name.var? = some v := by
  obtain ⟨t, ht, hv⟩ := (mem_vars_intercalate (by simp)).mp h
  obtain ⟨a, ha, ht⟩ := mem_flatMap.mp ht
  exact (mem_vars_argConstraints ht hv).imp_right fun hname => ⟨a, ha, hname⟩

theorem mem_vars_flatMap {α : Type} {f : α → CText} {l : List α} :
    v ∈ vars (l.flatMap f) ↔ ∃ x ∈ l, v ∈ vars (f x) := by
  induction l with
  | nil => simp
  | cons x l ih => simp [ih]

theorem mem_postUses :
    v ∈ call.postUses ↔ ∃ pc ∈ call.postCalls, ∃ a ∈ pc.args, a.name.var? = some v := by
  simp [postUses, postText, mem_vars_flatMap, mem_vars_argList]

theorem uses_of_args {P : ℕ → Prop} (hctx : ∀ v ∈ p.ctxVars.map Prod.snd, P v)
    (hname : ∀ a ∈ call.args, ∀ v, a.name.var? = some v → P v)
    (hprep : ∀ a ∈ call.args, ∀ v ∈ vars a.prep.text, P v) : ∀ v ∈ call.uses p, P v := by
  intro v hv
  simp only [uses, mem_append] at hv
  rcases hv with (hv | hv) | hv
  · obtain ⟨a, ha, hv⟩ := mem_vars_flatMap.mp hv
    exact hprep a ha v hv
  · rcases mem_vars_guardText hv with hv | ⟨a, ha, hv⟩
    · exact hctx v hv
    · exact hname a ha v hv
  · obtain ⟨a, ha, hv⟩ := mem_vars_argList.mp hv
    exact hname a ha v hv

/-! ### The declarations of the rendered text -/

theorem declared_argConstraints (p : BpfProg) (a : BpfArg) :
    ∀ t ∈ argConstraints p a, declared t = [] := by
  have hctx : ∀ f, declared (p.ctxText f) = [] := by
    intro f
    unfold BpfProg.ctxText
    split <;> rfl
  have hname : declared a.name.text = [] ∧ declared a.name.base = [] := by
    cases a.name <;> exact ⟨rfl, rfl⟩
  unfold argConstraints lowerConstraint upperConstraint
  split_ifs <;> simp [rangeConstraint, positiveConstraint, hctx, hname]

theorem declared_argList (args : List BpfArg) : declared (argList args) = [] := by
  refine declared_intercalate rfl fun c hc => ?_
  obtain ⟨a, -, rfl⟩ := mem_map.mp hc
  cases a.name <;> rfl

theorem declared_flatMap {α : Type} (f : α → CText) (l : List α) :
    declared (l.flatMap f) = l.flatMap fun x => declared (f x) :=
  flatMap_assoc

theorem declared_text (p : BpfProg) (call : BpfCall) : declared (call.text p) = call.decls := by
  have hprep : declared call.prepareText = call.locals := by
    rw [prepareText, declared_flatMap]
    refine flatMap_congr fun a _ => ?_
    cases a.prep <;> rfl
  have hret : declared call.declText = call.typedRet := by
    unfold declText typedRet
    by_cases htype : call.retType = "" <;> cases call.ret <;> simp [htype]
  have hguard : declared (call.guardText p) = [] := by
    refine declared_intercalate rfl fun t ht => ?_
    obtain ⟨a, -, ht⟩ := mem_flatMap.mp ht
    exact declared_argConstraints p a t ht
  have hinvoke : declared call.invokeText = [] := by
    unfold invokeText
    by_cases htype : call.retType = "" <;> cases call.ret <;> simp [htype, declared_argList]
  have hpost : ∀ indent, declared (call.postText indent) = [] := by
    simp [postText, declared_flatMap, declared_argList]
  by_cases hguarded : getArgConstraints p call = [] <;>
    simp [BpfCall.text, hguarded, hprep, hret, hguard, hinvoke, hpost, decls]

/-- The rendered function declares the variables of a program, in this order. -/
theorem declared_genCSource (p : BpfProg) : declared (genCSource p) = p.decls := by
  simp [genCSource, ctxDecls, scratchDecls, declared_flatMap, declared_text, BpfProg.decls,
    BpfProg.globals, ← map_eq_flatMap]

section Generated

variable {p : BpfProg} {before : List BpfCall} {call : BpfCall} {a : BpfArg} {v : ℕ}

/-- Results without a type are those of helpers that return nothing. -/
def TypedResults (calls : List BpfCall) : Prop :=
  ∀ c ∈ calls, c.retType = "" → c.helper.ret = .void

theorem mem_globals_of_scratch (h : v ∈ p.scratchMapVars) : v ∈ p.globals :=
  mem_append_right _ h

theorem mem_globals_of_ctx (h : v ∈ p.ctxVars.map Prod.snd) : v ∈ p.globals :=
  mem_append_left _ h

theorem BpfCall.mem_decls_of_ret (hret : call.ret = some v) (htype : call.retType ≠ "") :
    v ∈ call.decls := by
  simp [decls, typedRet, hret, htype]

theorem ArgOk.var_scoped (h : ArgOk p before a) (htyped : TypedResults before)
    (hv : a.name.var? = some v) : v ∈ p.globals ∨ v ∈ before.flatMap decls ∨ v ∈ a.prep.vars := by
  obtain ⟨size, lo, t, a0, -, horigin, rfl⟩ := h
  rw [BpfArg.bounded_name] at hv
  rw [BpfArg.bounded_prep]
  rcases horigin.var_cases hv with hlocal | hscratch | hctx | ⟨d, hd, hret, -, rt, -, hrt⟩
  · exact .inr (.inr hlocal)
  · exact .inl (mem_globals_of_scratch hscratch)
  · exact .inl (mem_globals_of_ctx hctx)
  · refine .inr (.inl (mem_flatMap.mpr ⟨d, hd, mem_decls_of_ret hret ?_⟩))
    intro htype
    rw [htyped d hd htype] at hrt
    cases hrt

theorem ArgOk.prep_scoped (h : ArgOk p before a) (hv : v ∈ vars a.prep.text) :
    v ∈ p.scratchMapVars ∨ v ∈ a.prep.vars := by
  obtain ⟨size, lo, t, a0, -, horigin, rfl⟩ := h
  cases horigin with
  | number w n prep hw hprep _ _ _ =>
    rcases hprep with rfl | ⟨buf, hbuf, rfl⟩
    · right
      simpa [Prepare.text, Prepare.vars] using hv
    · have hcases : v = buf ∨ v = w := by simpa [Prepare.text] using hv
      rcases hcases with rfl | rfl
      · exact .inl hbuf
      · exact .inr (by simp [Prepare.vars])
  | stack w n _ =>
    right
    simpa [Prepare.text, Prepare.vars] using hv
  | _ => simp [newBpfArg, Prepare.text] at hv

theorem ArgOk.lock_prep (h : ArgOk p before a) (hkind : a.argType = .ptrToSpinLock) :
    a.prep.vars = [] := by
  obtain ⟨size, lo, t, a0, -, horigin, rfl⟩ := h
  rw [BpfArg.bounded_argType, horigin.argType] at hkind
  subst hkind
  cases horigin with
  | number _ _ _ _ _ _ _ hreg | stack _ _ hreg => exact absurd hreg (by decide)
  | _ => rfl

/-- A generated call uses only what is declared before it. -/
theorem CallOk.callScoped (h : CallOk p before call) (htyped : TypedResults before) :
    CallScoped p before call := by
  refine ⟨uses_of_args ?_ ?_ ?_, ?_⟩
  · exact fun v hv => .inl (mem_globals_of_ctx hv)
  · intro a ha v hv
    exact ((h.args a ha).var_scoped htyped hv).imp_right (Or.imp_right fun hv =>
      mem_flatMap.mpr ⟨a, ha, hv⟩)
  · intro a ha v hv
    rcases (h.args a ha).prep_scoped hv with hv | hv
    · exact .inl (mem_globals_of_scratch hv)
    · exact .inr (.inr (mem_flatMap.mpr ⟨a, ha, hv⟩))
  · intro v hv
    obtain ⟨pc, hpc, -⟩ := mem_postUses.mp hv
    rw [h.postCalls] at hpc
    cases hpc

def BpfCall.isSpin (call : BpfCall) : Prop :=
  call.helper.enum = .spinLock ∨ call.helper.enum = .spinUnlock

/-- A lock that a call names is known before the call. -/
structure CallReady (p : BpfProg) (before : List BpfCall) (call : BpfCall) : Prop where
  scope : CallScoped p before call
  lock : call.isSpin → ∀ a ∈ call.args, ∀ v, a.name.var? = some v →
    v ∈ p.globals ∨ v ∈ before.flatMap decls

/-- The helpers of a program type are entries of the catalogue. -/
def BpfProgType.FromCatalog (pt : BpfProgType) : Prop :=
  ∀ helper ∈ pt.helpers, ∃ proto, helper = helperFuncMap proto

theorem helperFuncMap_spin (proto : Proto) (h : (helperFuncMap proto).enum = .spinLock ∨
    (helperFuncMap proto).enum = .spinUnlock) :
    (helperFuncMap proto).ret = .void ∧ (helperFuncMap proto).args = [.ptrToSpinLock] := by
  cases proto <;> first | exact ⟨rfl, rfl⟩ | exact absurd h (by decide)

theorem CallOk.callReady (h : CallOk p before call) (htyped : TypedResults before)
    {proto : Proto} (hproto : call.helper = helperFuncMap proto) : CallReady p before call := by
  refine ⟨h.callScoped htyped, ?_⟩
  intro hspin a ha v hv
  have hargs : call.helper.args = [.ptrToSpinLock] := by
    rw [isSpin, hproto] at hspin
    rw [hproto]
    exact (helperFuncMap_spin proto hspin).2
  have hkind := h.kinds a ha
  rw [hargs] at hkind
  have hprep := (h.args a ha).lock_prep (mem_singleton.mp hkind)
  rcases (h.args a ha).var_scoped htyped hv with hv | hv | hv
  · exact .inl hv
  · exact .inr hv
  · rw [hprep] at hv
    cases hv

theorem Chain.callReady {new : List BpfCall} (h : Chain p before new) (htyped : TypedResults before)
    (hproto : ∀ c ∈ new, ∃ proto, c.helper = helperFuncMap proto) :
    EachAfter (fun pre => CallReady p (before ++ pre)) new := by
  induction new generalizing before with
  | nil => exact eachAfter_nil
  | cons c cs ih =>
    obtain ⟨proto, hc⟩ := hproto c mem_cons_self
    have htyped' : TypedResults (before ++ [c]) := by
      intro d hd
      rcases mem_append.mp hd with hd | hd
      · exact htyped d hd
      · rw [mem_singleton.mp hd]
        exact h.1.retType
    refine eachAfter_cons.mpr ⟨?_, ?_⟩
    · rw [append_nil]
      exact h.1.callReady htyped hc
    · have hrest := ih h.2 htyped' fun d hd => hproto d (mem_cons_of_mem _ hd)
      simpa using hrest

end Generated

/-- A program as it is generated: only its last call can be one that returns nothing. -/
structure GeneratedProg (p : BpfProg) : Prop where
  once : ∀ v, p.declCount v ≤ 1
  chain : Chain p [] p.calls
  helpers : ∀ c ∈ p.calls, c.helper ∈ p.pt.helpers
  produces : p.calls.Pairwise fun c _ => c.helper.ret ≠ .void

theorem genBpfProg_spec (fuel : ℕ) (pt : BpfProgType) {regTypes : RegTable → List RegType}
    (hregs : ∀ tb, ∀ rt ∈ regTypes tb, rt ∈ tb.initial) :
    Gen.Ensures (genBpfProg fuel pt regTypes) fun r => ∀ c, r.1 = some c →
      r.2.prog.pt = pt ∧ GeneratedProg r.2.prog := by
  refine Gen.ensures_bind (Gen.ensures_pick fun helper hhelper => ?_)
  have hnew : Gen.Ensures (newBpfProg pt) fun p =>
      GenInv [] ⟨p, 0, regTypes⟩ ∧ p.calls = [] ∧ p.pt = pt := by
    intro s p s' hrun
    obtain ⟨hinv, hcalls⟩ := newBpfProg_inv pt hregs s p s' hrun
    exact ⟨hinv, hcalls, (newBpfProg_spec pt s p s' hrun).1⟩
  refine Gen.ensures_bind (hnew.mono ?_)
  intro p0 ⟨hinv, hcalls, hpt⟩
  refine Gen.Ensures.mono (genBpfHelperCall_spec fuel [] _ helper _ false hinv) ?_
  intro ⟨r, st⟩ hspec c hc
  obtain ⟨p, hext, hcall, hc', -, hprog⟩ := hspec.added c hc
  obtain ⟨new, hnew, hchain, -, hprod⟩ := hext.calls
  simp only [hcalls, nil_append] at hnew hchain hprog
  have hscratch : st.prog.scratchMapVars = p.scratchMapVars := by rw [hprog]
  have hctx : p.ctxVars <+: st.prog.ctxVars := by rw [hprog]
  have hcalls' : st.prog.calls = new ++ [c] := by rw [hprog, ← hnew]; rfl
  have hpt' : st.prog.pt = pt := by
    rw [hprog]
    exact hext.pt.trans hpt
  refine ⟨hpt', hspec.inv.once, ?_, ?_, ?_⟩
  · rw [hcalls']
    refine (hchain.mono hscratch hctx).append ⟨?_, trivial⟩
    exact hnew ▸ hcall.mono hscratch hctx
  · rw [hcalls', hpt']
    intro d hd
    rcases mem_append.mp hd with hd | hd
    · exact hpt ▸ (hprod d hd).1
    · rw [mem_singleton.mp hd, hc']
      exact hhelper
  · rw [hcalls']
    refine pairwise_append.mpr ⟨?_, pairwise_singleton _ _, ?_⟩
    · exact pairwise_of_forall_mem_list fun d hd _ _ => (hprod d hd).2
    · exact fun d hd _ _ => (hprod d hd).2

section Programs

variable {p : BpfProg}

theorem decls_sublist_declares (call : BpfCall) : call.decls.Sublist call.declares := by
  refine List.Sublist.append_left ?_ _
  unfold typedRet
  split
  · exact nil_sublist _
  · exact List.Sublist.refl _

theorem flatMap_decls_sublist (calls : List BpfCall) :
    (calls.flatMap decls).Sublist (calls.flatMap declares) := by
  induction calls with
  | nil => exact List.Sublist.refl _
  | cons c cs ih => exact (decls_sublist_declares c).append ih

theorem nodup_decls (h : ∀ v, p.declCount v ≤ 1) : p.decls.Nodup := by
  refine nodup_iff_count_le_one.mpr fun v => ?_
  have hcalls := (flatMap_decls_sublist p.calls).count_le v
  have hcount := h v
  simp only [BpfProg.decls, BpfProg.globals, count_append]
  unfold BpfProg.declCount at hcount
  omega

theorem GeneratedProg.ready (h : GeneratedProg p) (hpt : p.pt.FromCatalog) :
    EachAfter (CallReady p) p.calls := by
  have hready := h.chain.callReady (by simp [TypedResults]) fun c hc => hpt _ (h.helpers c hc)
  simpa using hready

theorem GeneratedProg.oneSpin (h : GeneratedProg p) (hpt : p.pt.FromCatalog) :
    p.calls.Pairwise fun c d => ¬ (c.isSpin ∧ d.isSpin) := by
  refine List.Pairwise.imp_of_mem ?_ h.produces
  rintro c d hc - hret ⟨hspin, -⟩
  obtain ⟨proto, hproto⟩ := hpt _ (h.helpers c hc)
  rw [isSpin, hproto] at hspin
  exact hret (hproto ▸ (helperFuncMap_spin proto hspin).1)

end Programs

end Brf.HelperCalls
