import Brf.Lib.Fold
import Brf.Verification.Helper.Scope

/-! # Repair of references

`fixRef` reads the references off a program and then adds release calls. What it reads is
described by `RefInv`, with the calls already read as its parameter. When nothing has to be
acquired, the calls it adds use what is declared before them. -/

namespace Brf.HelperCalls

open Brf.Lib List Option BpfCall

section Scan

variable {p : BpfProg} {done rest : List BpfCall} {call : BpfCall} {m m' : RefMap} {ret : ℕ}

/-- What is declared ahead of the calls and by the calls `done`. -/
def BpfProg.scope (p : BpfProg) (done : List BpfCall) : List ℕ :=
  p.globals ++ done.flatMap BpfCall.decls

theorem BpfProg.scope_append_subset (p : BpfProg) (done more : List BpfCall) :
    p.scope done ⊆ p.scope (done ++ more) := by
  intro v hv
  simp only [BpfProg.scope, flatMap_append, mem_append] at hv ⊢
  exact hv.imp_right .inl

/-- A name is written with variables of a scope. -/
def ArgName.In (scope : List ℕ) (name : ArgName) : Prop := ∀ v, name.var? = some v → v ∈ scope

/-- A reference is known by names in scope; if it is acquired more often than released, its
first name is the result of the call that acquired it. -/
structure RefOk (p : BpfProg) (done : List BpfCall) (ref : ObjRef) : Prop where
  vars : ∀ name ∈ ref.vars, name.In (p.scope done)
  acquired : 0 < ref.count → ∃ r, ref.vars.head? = some (.var r) ∧ ref.calls.head? = some r ∧
    ∃ c ∈ done, c.ret = some r ∧ c.retType ≠ ""

structure RefInv (p : BpfProg) (done : List BpfCall) (m : RefMap) : Prop where
  names : ∀ e ∈ m.names, e.1.In (p.scope done)
  refs : ∀ ref ∈ m.refs, RefOk p done ref

theorem RefOk.append {ref : ObjRef} (h : RefOk p done ref) (more : List BpfCall) :
    RefOk p (done ++ more) ref := by
  refine ⟨fun name hname v hv => p.scope_append_subset done more (h.vars name hname v hv), ?_⟩
  intro hcount
  obtain ⟨r, hvar, hfirst, c, hc, hret⟩ := h.acquired hcount
  exact ⟨r, hvar, hfirst, c, mem_append_left _ hc, hret⟩

theorem RefInv.append (h : RefInv p done m) (more : List BpfCall) : RefInv p (done ++ more) m :=
  ⟨fun e he v hv => p.scope_append_subset done more (h.names e he v hv),
    fun ref href => (h.refs ref href).append more⟩

theorem mem_modify {α : Type} {l : List α} {i : ℕ} {f : α → α} {x : α} (h : x ∈ l.modify i f) :
    x ∈ l ∨ ∃ y, l[i]? = some y ∧ x = f y := by
  obtain ⟨j, hj⟩ := mem_iff_getElem?.mp h
  rw [getElem?_modify] at hj
  obtain ⟨y, hy, rfl⟩ := map_eq_some_iff.mp hj
  split
  · rename_i hij
    exact .inr ⟨y, hij ▸ hy, rfl⟩
  · exact .inl (mem_of_getElem? hy)

theorem RefInv.addCount (h : RefInv p done m) (i : ℕ) {d : ℤ}
    (hok : ∀ ref, m.refs[i]? = some ref → RefOk p done { ref with count := ref.count + d }) :
    RefInv p done (m.addCount i d) := by
  refine ⟨h.names, ?_⟩
  intro ref href
  rcases mem_modify href with href | ⟨old, hold, rfl⟩
  · exact h.refs ref href
  · exact hok old hold

theorem RefInv.release (h : RefInv p done m) {name : ArgName} (typ : RefType)
    (hname : name.In (p.scope done)) :
    RefInv p done ((m.ensure name call typ ret).1.addCount (m.ensure name call typ ret).2 (-1)) := by
  have hless : ∀ ref, RefOk p done ref → RefOk p done { ref with count := ref.count + -1 } :=
    fun ref href => ⟨href.vars, fun hcount => href.acquired (by simp at hcount; omega)⟩
  unfold RefMap.ensure
  split
  · exact h.addCount _ fun ref href => hless ref (h.refs ref (mem_of_getElem? href))
  · have hnew : RefOk p done ⟨[name], call.argMap, typ, 0, [ret]⟩ :=
      ⟨by simpa using hname, by simp⟩
    have hadded : ∀ ref ∈ m.refs ++ [⟨[name], call.argMap, typ, 0, [ret]⟩], RefOk p done ref := by
      intro ref href
      rcases mem_append.mp href with href | href
      · exact h.refs ref href
      · exact mem_singleton.mp href ▸ hnew
    refine RefInv.addCount ⟨?_, hadded⟩ _ fun ref href => hless ref (hadded ref (mem_of_getElem? href))
    intro e he
    rcases mem_append.mp he with he | he
    · exact h.names e he
    · rw [mem_singleton.mp he]
      exact hname

theorem BpfProg.mem_scope_of_ret (hret : call.ret = some ret) (htype : call.retType ≠ "") :
    ret ∈ p.scope (done ++ [call]) := by
  simp [BpfProg.scope, BpfCall.mem_decls_of_ret hret htype]

section

variable (h : RefInv p done m)

include h

theorem RefInv.lookup_fresh (hfresh : ret ∉ p.scope done) : m.lookup (.var ret) = none := by
  by_contra hsome
  obtain ⟨i, hi⟩ := ne_none_iff_exists'.mp hsome
  exact hfresh (h.names _ (mem_of_lookup hi) ret rfl)

theorem RefInv.acquire (typ : RefType) (hfresh : ret ∉ p.scope done)
    (hret : call.ret = some ret) (htype : call.retType ≠ "") :
    RefInv p (done ++ [call])
      ((m.ensure (.var ret) call typ ret).1.addCount (m.ensure (.var ret) call typ ret).2 1) := by
  have hname : (ArgName.var ret).In (p.scope (done ++ [call])) := by
    intro v hv
    cases hv
    exact BpfProg.mem_scope_of_ret hret htype
  have hnone := h.lookup_fresh hfresh
  have hadd : ∀ n : ℤ, RefOk p (done ++ [call]) ⟨[.var ret], call.argMap, typ, n, [ret]⟩ := by
    intro n
    refine ⟨by simpa using hname, fun _ => ⟨ret, rfl, rfl, call, by simp, hret, htype⟩⟩
  have hold := h.append [call]
  unfold RefMap.ensure
  rw [hnone]
  refine RefInv.addCount ⟨?_, ?_⟩ _ ?_
  · intro e he
    rcases mem_append.mp he with he | he
    · exact hold.names e he
    · rw [mem_singleton.mp he]
      exact hname
  · intro ref href
    rcases mem_append.mp href with href | href
    · exact hold.refs ref href
    · exact mem_singleton.mp href ▸ hadd 0
  · intro ref href
    obtain rfl : _ = ref := by simpa using href
    exact hadd _

theorem RefInv.propagate (i : ℕ) (hname : (ArgName.var ret).In (p.scope done)) :
    RefInv p done {
      refs := m.refs.modify i fun ref =>
        { ref with calls := ref.calls ++ [ret], vars := ref.vars ++ [.var ret] }
      names := m.names ++ [(.var ret, i)] } := by
  refine ⟨?_, ?_⟩
  · intro e he
    rcases mem_append.mp he with he | he
    · exact h.names e he
    · rw [mem_singleton.mp he]
      exact hname
  · intro ref href
    rcases mem_modify href with href | ⟨old, hold, rfl⟩
    · exact h.refs ref href
    have hok := h.refs old (mem_of_getElem? hold)
    refine ⟨?_, ?_⟩
    · intro name hmem
      rcases mem_append.mp hmem with hmem | hmem
      · exact hok.vars name hmem
      · exact mem_singleton.mp hmem ▸ hname
    · intro hcount
      obtain ⟨r, hvar, hfirst, hcall⟩ := hok.acquired hcount
      exact ⟨r, by simp [head?_append, hvar], by simp [head?_append, hfirst], hcall⟩

theorem countAcquire_inv (hfresh : call.retType ≠ "" → ret ∉ p.scope done)
    (hret : call.ret = some ret)
    (htype : ∀ typ, isRefAcquireCall p call = some (some typ) → call.retType ≠ "")
    (hrun : countAcquire p m call ret = some m') : RefInv p (done ++ [call]) m' := by
  obtain ⟨acquires, hacq, hrun⟩ := bind_eq_some_iff.mp hrun
  cases acquires with
  | none =>
    cases hrun
    exact h.append [call]
  | some typ =>
    cases hrun
    exact h.acquire typ (hfresh (htype typ hacq)) hret (htype typ hacq)

theorem countRelease_inv (hargs : ∀ a ∈ call.args, a.name.In (p.scope done))
    (hrun : countRelease m call ret = some m') : RefInv p done m' := by
  unfold countRelease at hrun
  split at hrun
  · cases hrun
    exact h
  · obtain ⟨a, ha, hrun⟩ := bind_eq_some_iff.mp hrun
    cases hrun
    exact h.release _ (hargs a (mem_of_mem_head? ha))

theorem countPropagate_inv (hname : isRefPropagateCall call.helper → ret ∈ p.scope done)
    (hrun : countPropagate m call ret = some m') : RefInv p done m' := by
  unfold countPropagate at hrun
  split at hrun
  · obtain ⟨a, -, hrun⟩ := bind_eq_some_iff.mp hrun
    split at hrun
    · cases hrun
      exact h
    · cases hrun
      refine h.propagate _ ?_
      intro v hv
      cases hv
      exact hname ‹_›
  · cases hrun
    exact h

end

def acquiring : List HelperEnum :=
  [.skLookupTcp, .skLookupUdp, .skcLookupTcp, .mapLookupElem, .ringbufReserve]

theorem helperFuncMap_result (proto : Proto) (h : (helperFuncMap proto).enum ∈ acquiring ∨
    isRefPropagateCall (helperFuncMap proto)) : (helperFuncMap proto).ret ≠ .void := by
  revert h
  cases proto <;> decide

theorem mem_acquiring {typ : RefType} (h : isRefAcquireCall p call = some (some typ)) :
    call.helper.enum ∈ acquiring := by
  unfold isRefAcquireCall at h
  split at h
  case h_6 => cases h
  all_goals
    rename_i henum
    rw [henum]
    decide

section

variable (h : GeneratedProg p)

include h

theorem GeneratedProg.typed : TypedResults p.calls := by
  intro c hc
  obtain ⟨before, hok, -⟩ := h.chain.mem hc
  exact hok.retType

theorem GeneratedProg.retType_ne (hpt : p.pt.FromCatalog) (hcall : call ∈ p.calls)
    (hresult : call.helper.enum ∈ acquiring ∨ isRefPropagateCall call.helper) :
    call.retType ≠ "" := by
  intro htype
  obtain ⟨proto, hproto⟩ := hpt _ (h.helpers call hcall)
  rw [hproto] at hresult
  exact helperFuncMap_result proto hresult (hproto ▸ h.typed call hcall htype)

theorem GeneratedProg.args_in (hpt : p.pt.FromCatalog) (hcalls : p.calls = done ++ call :: rest) :
    ∀ a ∈ call.args, a.name.In (p.scope done ++ call.locals) := by
  intro a ha v hv
  have huse : v ∈ call.uses p := mem_append_right _ (mem_vars_argList.mpr ⟨a, ha, hv⟩)
  have hscope := ((h.ready hpt) done call rest hcalls).scope.uses v huse
  simpa only [BpfProg.scope, append_assoc, mem_append] using hscope

theorem GeneratedProg.not_mem_scope (hcalls : p.calls = done ++ call :: rest) {v : ℕ}
    (hv : v ∈ call.typedRet ++ rest.flatMap decls) : v ∉ p.scope done ++ call.locals := by
  have hnodup := nodup_decls h.once
  have hdecls : p.decls =
      (p.scope done ++ call.locals) ++ (call.typedRet ++ rest.flatMap BpfCall.decls) := by
    simp [BpfProg.decls, BpfProg.scope, hcalls, decls]
  rw [hdecls] at hnodup
  exact fun hscope => (nodup_append.mp hnodup).2.2 v hscope v hv rfl

theorem GeneratedProg.ret_fresh (hcalls : p.calls = done ++ call :: rest)
    (hret : call.ret = some ret) (htyped : call.retType ≠ "") : ret ∉ p.scope done := by
  have hnot := h.not_mem_scope hcalls (v := ret)
    (mem_append_left _ (by simp [typedRet, htyped, hret]))
  exact fun hscope => hnot (mem_append_left _ hscope)

/-- Counting one call keeps the references in scope. -/
theorem GeneratedProg.countCall_inv (hpt : p.pt.FromCatalog)
    (hcalls : p.calls = done ++ call :: rest) (hinv : RefInv p done m)
    (hrun : countCall p m call = some m') : RefInv p (done ++ [call]) m' := by
  have hmem : call ∈ p.calls := by simp [hcalls]
  have hargs : ∀ a ∈ call.args, a.name.In (p.scope (done ++ [call])) := by
    intro a ha v hv
    have hscope := h.args_in hpt hcalls a ha v hv
    simp only [BpfProg.scope, flatMap_append, flatMap_singleton, mem_append,
      BpfCall.decls] at hscope ⊢
    tauto
  obtain ⟨ret, hret, hrun⟩ := bind_eq_some_iff.mp hrun
  obtain ⟨m1, hm1, hrun⟩ := bind_eq_some_iff.mp hrun
  obtain ⟨m2, hm2, hrun⟩ := bind_eq_some_iff.mp hrun
  have hinv1 := countAcquire_inv hinv (h.ret_fresh hcalls hret) hret
    (fun typ hacq => h.retType_ne hpt hmem (.inl (mem_acquiring hacq))) hm1
  have hinv2 := countRelease_inv hinv1 hargs hm2
  refine countPropagate_inv hinv2 ?_ hrun
  exact fun hprop => BpfProg.mem_scope_of_ret hret (h.retType_ne hpt hmem (.inr hprop))

theorem GeneratedProg.scanRefs_inv (hpt : p.pt.FromCatalog)
    (hrun : scanRefs p = some m) : RefInv p p.calls m := by
  refine foldlM_carries (RefInv p) ⟨by simp, by simp⟩ ?_ hrun
  intro done call rest m m' hcalls hinv hstep
  exact h.countCall_inv hpt hcalls hinv hstep

end

end Scan

/-- What the repairs keep. -/
structure RepairInv (p : BpfProg) : Prop where
  nodup : p.decls.Nodup
  ready : EachAfter (CallReady p) p.calls
  oneSpin : p.calls.Pairwise fun c d => ¬ (c.isSpin ∧ d.isSpin)

section Repair

variable {p q : BpfProg} {name : ArgName} {helper : BpfHelper} {ref : ObjRef} {a : BpfArg}

theorem mem_releaseArgs (h : a ∈ releaseArgs helper name) :
    a.prep = .none ∧ (a.name = name ∨ a.name = .zero) := by
  obtain ⟨⟨t, i⟩, -, rfl⟩ := mem_map.mp h
  split
  · exact ⟨rfl, .inl rfl⟩
  · exact ⟨rfl, .inr rfl⟩

theorem releaseArgs_in {scope : List ℕ} (hname : name.In scope)
    (h : a ∈ releaseArgs helper name) : a.name.In scope := by
  rcases (mem_releaseArgs h).2 with ha | ha
  · exact ha ▸ hname
  · intro v hv
    rw [ha] at hv
    cases hv

/-- A call behind the call that declares the variable `r`. -/
def addPostCall (r : ℕ) (pc : PostCall) (c : BpfCall) : BpfCall :=
  if c.ret = some r then { c with postCalls := c.postCalls ++ [pc] } else c

section AddPostCall

variable (r : ℕ) (pc : PostCall) (c : BpfCall)

@[simp] theorem addPostCall_decls : (addPostCall r pc c).decls = c.decls := by
  unfold addPostCall
  split <;> rfl

@[simp] theorem addPostCall_args : (addPostCall r pc c).args = c.args := by
  unfold addPostCall
  split <;> rfl

@[simp] theorem addPostCall_isSpin : (addPostCall r pc c).isSpin ↔ c.isSpin := by
  unfold addPostCall
  split <;> rfl

theorem addPostCall_ret :
    (addPostCall r pc c).ret = c.ret ∧ (addPostCall r pc c).retType = c.retType := by
  unfold addPostCall
  split <;> exact ⟨rfl, rfl⟩

theorem flatMap_addPostCall (calls : List BpfCall) :
    (calls.map (addPostCall r pc)).flatMap decls = calls.flatMap decls := by
  rw [flatMap_map]
  exact flatMap_congr fun c _ => addPostCall_decls r pc c

/-- The program with the call behind the call that declares `r`. -/
abbrev BpfProg.addPostCall (p : BpfProg) : BpfProg :=
  p.modifyCall r fun c => { c with postCalls := c.postCalls ++ [pc] }

theorem BpfProg.addPostCall_decls (p : BpfProg) : (p.addPostCall r pc).decls = p.decls :=
  congrArg (p.globals ++ ·) (flatMap_addPostCall r pc p.calls)

end AddPostCall

variable {pc : PostCall} {r : ℕ}

theorem CallReady.addPostCall {before : List BpfCall} {c : BpfCall} (h : CallReady p before c)
    (htype : c.ret = some r → c.retType ≠ "") (hpc : ∀ a ∈ pc.args, a.name.In [r]) :
    CallReady (p.addPostCall r pc) (before.map (addPostCall r pc)) (addPostCall r pc c) := by
  refine ⟨⟨?_, ?_⟩, ?_⟩
  · intro v hv
    have huses : v ∈ c.uses p := by
      unfold HelperCalls.addPostCall at hv
      split at hv <;> exact hv
    have hlocals : (HelperCalls.addPostCall r pc c).locals = c.locals := by
      simp [locals]
    rw [flatMap_addPostCall, hlocals]
    exact h.scope.uses v huses
  · intro v hv
    rw [flatMap_addPostCall, addPostCall_decls]
    obtain ⟨pc', hpc', a, ha, hname⟩ := mem_postUses.mp hv
    unfold HelperCalls.addPostCall at hpc'
    split at hpc'
    · rename_i hret
      rcases mem_append.mp hpc' with hold | hnew
      · exact h.scope.postUses v (mem_postUses.mpr ⟨pc', hold, a, ha, hname⟩)
      · rw [mem_singleton.mp hnew] at ha
        obtain rfl := mem_singleton.mp (hpc a ha v hname)
        exact .inr (.inr (mem_decls_of_ret hret (htype hret)))
    · exact h.scope.postUses v (mem_postUses.mpr ⟨pc', hpc', a, ha, hname⟩)
  · intro hspin a ha v hv
    rw [flatMap_addPostCall]
    rw [addPostCall_args] at ha
    exact h.lock ((addPostCall_isSpin r pc c).mp hspin) a ha v hv

theorem RepairInv.addPostCall (h : RepairInv p)
    (htype : ∀ c ∈ p.calls, c.ret = some r → c.retType ≠ "") (hpc : ∀ a ∈ pc.args, a.name.In [r]) :
    RepairInv (p.addPostCall r pc) := by
  refine ⟨?_, ?_, ?_⟩
  · exact p.addPostCall_decls r pc ▸ h.nodup
  · exact h.ready.map fun before c hc hready => hready.addPostCall (htype c hc) hpc
  · exact pairwise_map.mpr (h.oneSpin.imp fun {c d} hnot hspin =>
      hnot ⟨(addPostCall_isSpin r pc c).mp hspin.1, (addPostCall_isSpin r pc d).mp hspin.2⟩)

theorem RepairInv.append (h : RepairInv p) {call : BpfCall} (hspin : ¬ call.isSpin)
    (hret : call.ret = none) (hpost : call.postCalls = [])
    (hargs : ∀ a ∈ call.args, a.prep = .none ∧ a.name.In p.decls) :
    RepairInv { p with calls := p.calls ++ [call] } := by
  have hdecls : call.decls = [] := by
    have hlocals : call.locals = [] :=
      flatMap_eq_nil_iff.mpr fun a ha => by simp [(hargs a ha).1, Prepare.vars]
    simp [decls, typedRet, hlocals, hret]
  refine ⟨?_, ?_, ?_⟩
  · simpa [BpfProg.decls, BpfProg.globals, hdecls] using h.nodup
  · refine eachAfter_concat.mpr ⟨h.ready.mono fun _ _ _ hc =>
      ⟨⟨hc.scope.uses, hc.scope.postUses⟩, hc.lock⟩,
      ⟨⟨?_, ?_⟩, fun hlock => absurd hlock hspin⟩⟩
    · refine uses_of_args (fun v hv => .inl (mem_globals_of_ctx hv)) ?_ ?_
      · intro a ha v hv
        exact (mem_append.mp ((hargs a ha).2 v hv)).imp_right .inl
      · intro a ha v hv
        rw [(hargs a ha).1] at hv
        cases hv
    · intro v hv
      obtain ⟨pc, hpc, -⟩ := mem_postUses.mp hv
      rw [hpost] at hpc
      cases hpc
  · refine pairwise_append.mpr ⟨h.oneSpin, pairwise_singleton _ _, ?_⟩
    intro c _ d hd hboth
    exact hspin (mem_singleton.mp hd ▸ hboth.2)

/-- A reference that the repair can treat: nothing has to be acquired, and a socket that leaks
has one name. -/
structure RefReady (p : BpfProg) (ref : ObjRef) : Prop where
  underflow : ref.count < 0 → acquireHelpers p.pt ref.typ = []
  vars : ∀ name ∈ ref.vars, name.In p.decls
  socket : 0 < ref.count → ref.typ = .socket → ∃ r, ref.vars = [.var r] ∧
    ref.calls.head? = some r ∧ ∀ c ∈ p.calls, c.ret = some r → c.retType ≠ ""

theorem RefReady.mono (h : RefReady p ref) (hpt : q.pt = p.pt) (hdecls : q.decls = p.decls)
    (hret : ∀ c ∈ q.calls, ∀ r, c.ret = some r →
      ∃ d ∈ p.calls, d.ret = some r ∧ d.retType = c.retType) : RefReady q ref := by
  refine ⟨fun hcount => hpt ▸ h.underflow hcount, fun name hname => hdecls ▸ h.vars name hname, ?_⟩
  intro hcount htyp
  obtain ⟨r, hvars, hfirst, htype⟩ := h.socket hcount htyp
  refine ⟨r, hvars, hfirst, ?_⟩
  intro c hc hcret
  obtain ⟨d, hd, hdret, hsame⟩ := hret c hc r hcret
  exact hsame ▸ htype d hd hdret

/-- What a step of the repair keeps, also for the references that are still to come. -/
def Keeps (p q : BpfProg) : Prop :=
  RepairInv q ∧ ∀ ref, RefReady p ref → RefReady q ref

theorem keeps_addPostCall (h : RepairInv p) (htype : ∀ c ∈ p.calls, c.ret = some r → c.retType ≠ "")
    (hpc : ∀ a ∈ pc.args, a.name.In [r]) :
    Keeps p (p.addPostCall r pc) := by
  refine ⟨h.addPostCall htype hpc, fun ref href =>
    href.mono rfl (p.addPostCall_decls r pc) fun c hc s hs => ?_⟩
  obtain ⟨d, hd, rfl⟩ := mem_map.mp hc
  obtain ⟨hret, htype⟩ := addPostCall_ret r pc d
  exact ⟨d, hd, hret ▸ hs, htype.symm⟩

theorem mem_getBpfHelpers {pt : BpfProgType} {enums : List HelperEnum}
    (h : helper ∈ pt.getBpfHelpers enums) : helper.enum ∈ enums := by
  obtain ⟨h', -, hmem⟩ := mem_flatMap.mp h
  obtain ⟨e, he, rfl⟩ := mem_map.mp hmem
  obtain ⟨he, heq⟩ := mem_filter.mp he
  exact of_decide_eq_true heq ▸ he

theorem keeps_appendRelease (h : RepairInv p) (hhelper : helper ∈ releaseHelpers p.pt .ringbuf)
    (hint : BpfCallGenHint) (hname : name.In p.decls) :
    Keeps p { p with
      calls := p.calls ++ [{ newBpfCall helper hint with args := releaseArgs helper name }] } := by
  have henum : helper.enum ∈ [HelperEnum.ringbufSubmit, .ringbufDiscard] := mem_getBpfHelpers hhelper
  have hargs : ∀ a ∈ releaseArgs helper name, a.prep = .none ∧ a.name.In p.decls :=
    fun a ha => ⟨(mem_releaseArgs ha).1, releaseArgs_in hname ha⟩
  refine ⟨h.append ?_ rfl rfl hargs, fun ref href => href.mono rfl ?_ ?_⟩
  · rintro (hspin | hspin) <;> simp [newBpfCall] at hspin <;> rw [hspin] at henum <;> simp at henum
  · have hlocals : (releaseArgs helper name).flatMap (fun a => a.prep.vars) = [] :=
      flatMap_eq_nil_iff.mpr fun a ha => by simp [(hargs a ha).1, Prepare.vars]
    simp [BpfProg.decls, BpfProg.globals, decls, locals, typedRet, hlocals, newBpfCall]
  · intro c hc r hr
    rcases mem_append.mp hc with hc | hc
    · exact ⟨c, hc, hr, rfl⟩
    · rw [mem_singleton.mp hc] at hr
      cases hr

end Repair

section Fix

variable {st : GenState} {ref : ObjRef} {refs : List ObjRef} (fuel : ℕ)

theorem fixUnderflow_spec (h : acquireHelpers st.prog.pt ref.typ = []) :
    Post (fixUnderflow fuel ref) st fun _ st' => st' = st := by
  refine post_bind (post_getProg.mpr (post_ite (fun _ => post_pure.mpr rfl) fun hne => ?_))
  exact absurd h hne

theorem fixLeak_spec (h : RepairInv st.prog) (href : RefReady st.prog ref) (hcount : 0 < ref.count) :
    Post (fixLeak ref) st fun _ st' => Keeps st.prog st'.prog := by
  have hsame : Keeps st.prog st.prog := ⟨h, fun _ => id⟩
  refine post_bind (post_getProg.mpr (post_ite (fun _ => post_pure.mpr hsame) fun _ => ?_))
  refine post_bind (post_draw.mpr (Gen.ensures_pick fun helper hhelper => ?_))
  refine post_bind (post_draw.mpr (Gen.ensures_pick fun name hname => ?_))
  cases htyp : ref.typ with
  | socket =>
    obtain ⟨r, hvars, hfirst, htype⟩ := href.socket hcount htyp
    obtain rfl : name = .var r := by
      rw [hvars] at hname
      exact mem_singleton.mp hname
    refine post_bind (post_orAbort.mpr fun first hhead => ?_)
    obtain rfl : r = first := some.inj (hfirst.symm.trans hhead)
    refine post_bind (post_modifyProg.mpr (post_pure.mpr (keeps_addPostCall h htype ?_)))
    refine fun a ha => releaseArgs_in ?_ ha
    intro v hv
    cases hv
    exact mem_singleton.mpr rfl
  | ringbuf =>
    rw [htyp] at hhelper
    refine post_bind (post_modifyProg.mpr (post_pure.mpr ?_))
    exact keeps_appendRelease h hhelper _ (href.vars name hname)

/-- The repair of one reference. -/
theorem fixRefAt_spec (i : ℕ) (h : RepairInv st.prog) (hrefs : ∀ ref ∈ refs, RefReady st.prog ref) :
    Post (fixRefAt fuel refs i) st fun refs' st' =>
      RepairInv st'.prog ∧ ∀ ref ∈ refs', RefReady st'.prog ref := by
  refine post_bind (post_orAbort.mpr fun ref href => ?_)
  have hready := hrefs ref (mem_of_getElem? href)
  extract_lets leak
  have hleak : Post (leak ()) st fun refs' st' =>
      RepairInv st'.prog ∧ ∀ ref ∈ refs', RefReady st'.prog ref := by
    refine post_ite (fun hcount => ?_) fun _ => post_pure.mpr ⟨h, hrefs⟩
    refine post_bind ((fixLeak_spec h hready hcount).mono ?_)
    intro fixed st' ⟨hinv, hkeep⟩
    refine post_pure.mpr ⟨hinv, ?_⟩
    split
    · intro other hother
      rcases mem_or_eq_of_mem_set hother with hother | rfl
      · exact hkeep other (hrefs other hother)
      · exact ⟨by simp, (hkeep ref hready).vars, by simp⟩
    · exact fun other hother => hkeep other (hrefs other hother)
  refine post_ite (fun hcount => ?_) fun _ => hleak
  refine post_bind ((fixUnderflow_spec fuel (hready.underflow hcount)).mono ?_)
  rintro _ _ rfl
  exact hleak

theorem fixRefs_spec (is : List ℕ) (h : RepairInv st.prog)
    (hrefs : ∀ ref ∈ refs, RefReady st.prog ref) :
    Post (fixRefs fuel is refs) st fun _ st' => RepairInv st'.prog := by
  induction is generalizing st refs with
  | nil => exact post_pure.mpr h
  | cons i is ih =>
    refine post_bind ((fixRefAt_spec fuel i h hrefs).mono ?_)
    intro refs' st' ⟨hinv, hrefs'⟩
    exact ih hinv hrefs'

/-- No reference is released more often than it is acquired, unless the program type cannot
acquire one, and a socket that is acquired more often has not been passed on. -/
def Balanced (p : BpfProg) : Prop :=
  ∀ m ∈ scanRefs p, ∀ ref ∈ m.refs, (ref.count < 0 → acquireHelpers p.pt ref.typ = []) ∧
    (0 < ref.count → ref.typ = .socket → ref.vars.length ≤ 1)

instance (p : BpfProg) : Decidable (Balanced p) := by
  unfold Balanced
  infer_instance

theorem GeneratedProg.refReady {p : BpfProg} {m : RefMap} (h : GeneratedProg p)
    (hpt : p.pt.FromCatalog) (hbal : Balanced p) (hscan : scanRefs p = some m) :
    ∀ ref ∈ m.refs, RefReady p ref := by
  intro ref href
  have hok := (h.scanRefs_inv hpt hscan).refs ref href
  obtain ⟨hunder, hone⟩ := hbal m hscan ref href
  refine ⟨hunder, hok.vars, ?_⟩
  intro hcount htyp
  obtain ⟨r, hvar, hfirst, c, hc, hret, htype⟩ := hok.acquired hcount
  refine ⟨r, ?_, hfirst, ?_⟩
  · obtain ⟨others, hvars⟩ := head?_eq_some_iff.mp hvar
    have hlen := hone hcount htyp
    rw [hvars, length_cons, Nat.succ_le_succ_iff, Nat.le_zero, length_eq_zero_iff] at hlen
    rw [hvars, hlen]
  · intro d hd hdret
    obtain rfl := call_eq (h.once r) hc hd (mem_declares_of_ret hret) (mem_declares_of_ret hdret)
    exact htype

/-- The repair of a balanced program keeps its declarations, its scopes and its only lock. -/
theorem fixRef_spec (order : List ℕ → List ℕ) (h : GeneratedProg st.prog)
    (hpt : st.prog.pt.FromCatalog) (hbal : Balanced st.prog) :
    Post (fixRef fuel order) st fun _ st' => RepairInv st'.prog := by
  refine post_bind (post_getProg.mpr (post_bind (post_orAbort.mpr fun m hm => ?_)))
  exact fixRefs_spec fuel _ ⟨nodup_decls h.once, h.ready hpt, h.oneSpin hpt⟩ (h.refReady hpt hbal hm)

end Fix

end Brf.HelperCalls
