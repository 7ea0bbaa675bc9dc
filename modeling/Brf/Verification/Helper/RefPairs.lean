import Brf.Verification.Helper.RefRuns
import Brf.Verification.Helper.Seeds

/-! # References of repaired programs

`fixRef` counts what a program acquires and releases. When the program releases what it acquires
itself and once, the count of a reference says whether it is released, and the repair releases the
ring buffer records that are left. -/

namespace Brf.HelperCalls

open Brf.Lib List Option BpfCall RegTable

/-- What is acquired and released by a generated program under which the repair is right: a
release is given the acquired variable itself, none is released twice, and the sockets are
released. -/
structure SelfReleased (p : BpfProg) : Prop where
  direct : ∀ c ∈ p.calls, ∀ name, c.released = some name → ∃ v ∈ acquiredVars p p.calls,
    name = .var v ∧ getArgConstraints p c = [[.var v]]
  once : (releasedNames p.calls).Nodup
  sockets : ∀ c ∈ p.calls, ∀ v, c.acquires p = some (v, .socket) →
    ArgName.var v ∈ releasedNames p.calls

/-- A counted reference of the variable `e.1`, which is in `rel` each time it is released. -/
structure RefFor (rel : List ArgName) (ref : ObjRef) (e : ℕ × RefType) : Prop where
  typ : ref.typ = e.2
  count : ref.count = 1 - (rel.count (.var e.1) : ℤ)
  vars : e.2 = .ringbuf → ref.vars = [.var e.1]

/-- The references of what is acquired, in the same order. -/
structure Counted (rel : List ArgName) (refs : List ObjRef) (acq : List (ℕ × RefType)) : Prop where
  length : refs.length = acq.length
  each : ∀ (i : ℕ) ref e, refs[i]? = some ref → acq[i]? = some e → RefFor rel ref e

/-- What is read off calls that acquire `acq` and release `rel`. -/
structure Scanned (acq : List (ℕ × RefType)) (rel : List ArgName) (m : RefMap) : Prop where
  refs : Counted rel m.refs acq
  lookup : ∀ (i : ℕ) e, acq[i]? = some e → m.lookup (.var e.1) = some i
  own : ∀ name i, m.lookup name = some i → ∃ e, acq[i]? = some e ∧
    (e.2 = .ringbuf → name = .var e.1)

variable {i : ℕ} {e : ℕ × RefType}

section Scan

variable {acq : List (ℕ × RefType)} {rel : List ArgName} {refs : List ObjRef} {m : RefMap} {v : ℕ}

theorem Counted.modify {rel' : List ArgName} {f : ObjRef → ObjRef} (h : Counted rel refs acq)
    (hnew : ∀ ref e, refs[i]? = some ref → acq[i]? = some e → RefFor rel ref e →
      RefFor rel' (f ref) e)
    (hsame : ∀ j e, j ≠ i → acq[j]? = some e → rel'.count (.var e.1) = rel.count (.var e.1)) :
    Counted rel' (refs.modify i f) acq := by
  refine ⟨by rw [length_modify, h.length], ?_⟩
  intro j ref e href he
  rw [getElem?_modify] at href
  obtain ⟨old, hold, rfl⟩ := map_eq_some_iff.mp href
  have hfor := h.each j old e hold he
  by_cases hij : i = j
  · subst hij
    rw [if_pos rfl]
    exact hnew old e hold he hfor
  · rw [if_neg hij]
    exact ⟨hfor.typ, by rw [hsame j e (Ne.symm hij) he, hfor.count], hfor.vars⟩

theorem Counted.concat (h : Counted rel refs acq) (hrel : .var v ∉ rel) (objMap : Option ℕ)
    (typ : RefType) (calls : List ℕ) :
    Counted rel (refs ++ [⟨[.var v], objMap, typ, 1, calls⟩]) (acq ++ [(v, typ)]) := by
  refine ⟨by simp [h.length], ?_⟩
  intro i ref e href he
  rcases Nat.lt_trichotomy i refs.length with hi | rfl | hi
  · rw [getElem?_append_left hi] at href
    rw [getElem?_append_left (h.length ▸ hi)] at he
    exact h.each i ref e href he
  · rw [getElem?_append_right (Nat.le_refl _)] at href
    rw [h.length, getElem?_append_right (Nat.le_refl _)] at he
    simp only [Nat.sub_self, getElem?_cons_zero, some.injEq] at href he
    subst href he
    exact ⟨rfl, by simp [count_eq_zero.mpr hrel], fun _ => rfl⟩
  · rw [getElem?_eq_none (by simp; omega)] at href
    cases href

theorem modify_length_concat {α : Type} (xs : List α) (x : α) (f : α → α) :
    (xs ++ [x]).modify xs.length f = xs ++ [f x] := by
  induction xs with
  | nil => rfl
  | cons y ys ih => simpa using ih

theorem lookup_concat {α β : Type} [BEq α] [LawfulBEq α] {xs : List (α × β)} {k name : α} {b c : β}
    (h : (xs ++ [(k, b)]).lookup name = some c) : xs.lookup name = some c ∨ name = k ∧ c = b := by
  rw [lookup_append, or_eq_some_iff] at h
  rcases h with h | ⟨-, h⟩
  · exact .inl h
  · obtain ⟨l1, l2, heq, -⟩ := lookup_eq_some_iff.mp h
    have hmem : (name, c) ∈ [(k, b)] := by simp [heq]
    exact .inr (Prod.mk.inj (mem_singleton.mp hmem))

theorem fst_ne_of_nodup {j : ℕ} {e' : ℕ × RefType} (h : (acq.map Prod.fst).Nodup)
    (hi : acq[i]? = some e) (hj : acq[j]? = some e') (hij : i ≠ j) : e.1 ≠ e'.1 := by
  intro heq
  have hlen : i < (acq.map Prod.fst).length := by
    rw [length_map]
    exact (List.getElem?_eq_some_iff.mp hi).1
  exact hij ((getElem?_inj hlen h).mp (by simp [hi, hj, heq]))

namespace Scanned

theorem acquire (h : Scanned acq rel m) (call : BpfCall) (typ : RefType)
    (hfresh : m.lookup (.var v) = none) (hrel : .var v ∉ rel) :
    Scanned (acq ++ [(v, typ)]) rel
      ((m.ensure (.var v) call typ v).1.addCount (m.ensure (.var v) call typ v).2 1) := by
  have hmap : ((m.ensure (.var v) call typ v).1.addCount (m.ensure (.var v) call typ v).2 1) =
      ⟨m.refs ++ [⟨[.var v], call.argMap, typ, 1, [v]⟩], m.names ++ [(.var v, m.refs.length)]⟩ := by
    simp [RefMap.ensure, hfresh, RefMap.addCount, modify_length_concat]
  rw [hmap]
  have hlast : (acq ++ [(v, typ)])[m.refs.length]? = some (v, typ) := by simp [h.refs.length]
  refine ⟨h.refs.concat hrel _ _ _, ?_, ?_⟩
  · intro i e he
    rcases Nat.lt_trichotomy i m.refs.length with hi | rfl | hi
    · rw [getElem?_append_left (h.refs.length ▸ hi)] at he
      exact lookup_extend (prefix_append _ _) (h.lookup i e he)
    · obtain rfl := some.inj (hlast.symm.trans he)
      rw [RefMap.lookup, lookup_append, or_eq_some_iff]
      exact .inr ⟨hfresh, by simp⟩
    · rw [getElem?_eq_none (by simp [← h.refs.length]; omega)] at he
      cases he
  · intro name i hname
    rcases lookup_concat hname with hold | ⟨rfl, rfl⟩
    · obtain ⟨e, he, hring⟩ := h.own name i hold
      refine ⟨e, ?_, hring⟩
      rw [getElem?_append_left (List.getElem?_eq_some_iff.mp he).1, he]
    · exact ⟨(v, typ), hlast, fun _ => rfl⟩

theorem release (h : Scanned acq rel m) (call : BpfCall) (typ : RefType) (ret : ℕ)
    (hnodup : (acq.map Prod.fst).Nodup) (hv : v ∈ acq.map Prod.fst) :
    Scanned acq (rel ++ [.var v])
      ((m.ensure (.var v) call typ ret).1.addCount (m.ensure (.var v) call typ ret).2 (-1)) := by
  obtain ⟨e, he, rfl⟩ := mem_map.mp hv
  obtain ⟨i, hi⟩ := mem_iff_getElem?.mp he
  have hlookup := h.lookup i e hi
  simp only [RefMap.ensure, hlookup]
  refine ⟨h.refs.modify ?_ ?_, h.lookup, h.own⟩
  · intro ref e' _ he' hfor
    obtain rfl : e = e' := some.inj (hi.symm.trans he')
    refine ⟨hfor.typ, ?_, hfor.vars⟩
    simp [hfor.count]
    omega
  · intro j e' hj he'
    simp [(fst_ne_of_nodup hnodup he' hi hj).symm]

theorem propagate (h : Scanned acq rel m) {name : ArgName} {ret : ℕ}
    (hlookup : m.lookup name = some i) (hname : ∀ e ∈ acq, e.2 = .ringbuf → name ≠ .var e.1) :
    Scanned acq rel {
      refs := m.refs.modify i fun ref =>
        { ref with calls := ref.calls ++ [ret], vars := ref.vars ++ [.var ret] }
      names := m.names ++ [(.var ret, i)] } := by
  have hsocket : ∀ e, acq[i]? = some e → e.2 ≠ .ringbuf := fun e he hring =>
    hname e (mem_of_getElem? he) hring (by
      obtain ⟨e', he', hown⟩ := h.own name i hlookup
      obtain rfl := some.inj (he.symm.trans he')
      exact hown hring)
  refine ⟨h.refs.modify ?_ fun _ _ _ _ => rfl, ?_, ?_⟩
  · exact fun ref e _ he hfor => ⟨hfor.typ, hfor.count, fun hring => absurd hring (hsocket e he)⟩
  · exact fun j e he => lookup_extend (prefix_append _ _) (h.lookup j e he)
  · intro other j hother
    rcases lookup_concat hother with hold | ⟨rfl, rfl⟩
    · exact h.own other j hold
    · obtain ⟨e, he, -⟩ := h.own name j hlookup
      exact ⟨e, he, fun hring => absurd hring (hsocket e he)⟩

end Scanned

end Scan

section Generated

variable {p : BpfProg} {done rest : List BpfCall} {call c d : BpfCall} {m m' : RefMap} {v : ℕ}

theorem BpfCall.acquires_typ (h : c.acquires p = some e) :
    isRefAcquireCall p c = some (some e.2) := by
  obtain ⟨typ, htyp, h⟩ := bind_eq_some_iff.mp h
  obtain ⟨v, -, h⟩ := bind_eq_some_iff.mp h
  cases h
  exact join_eq_some_iff.mp htyp

theorem GeneratedProg.acquires_typed (h : GeneratedProg p) (hpt : p.pt.FromCatalog) :
    ∀ c ∈ p.calls, ∀ e, c.acquires p = some e → c.retType ≠ "" :=
  fun _ hc _ he => h.retType_ne hpt hc (.inl (mem_acquiring (acquires_typ he)))

theorem acquiredVars_sublist {calls : List BpfCall}
    (h : ∀ c ∈ calls, ∀ e, c.acquires p = some e → c.retType ≠ "") :
    (acquiredVars p calls).Sublist (calls.flatMap decls) := by
  induction calls with
  | nil => exact .slnil
  | cons c calls ih =>
    have hrest := ih fun d hd => h d (mem_cons_of_mem c hd)
    rw [flatMap_cons]
    cases hacq : c.acquires p with
    | none =>
      have heq : acquiredVars p (c :: calls) = acquiredVars p calls := by
        simp [acquiredVars, hacq]
      exact heq ▸ hrest.trans (sublist_append_right _ _)
    | some e =>
      have heq : acquiredVars p (c :: calls) = [e.1] ++ acquiredVars p calls := by
        simp [acquiredVars, hacq]
      have htyped := typedRet_of_acquires hacq (h c mem_cons_self e hacq)
      rw [heq, decls, htyped]
      exact (sublist_append_right _ _).append hrest

theorem GeneratedProg.acquiredVars_nodup (h : GeneratedProg p) (hpt : p.pt.FromCatalog) :
    (acquiredVars p p.calls).Nodup := by
  have hdecls := nodup_decls h.once
  exact (acquiredVars_sublist (h.acquires_typed hpt)).nodup (nodup_append.mp hdecls).2.1

theorem BpfCall.head_of_released (h : c.released = some (.var v)) :
    ∃ a, c.args.head? = some a ∧ a.name = .var v := by
  obtain ⟨-, -, h⟩ := map_eq_some_iff.mp h
  cases hhead : c.args.head? with
  | none => simp [firstName, hhead] at h
  | some a => exact ⟨a, rfl, by simpa [firstName, hhead] using h⟩

theorem SelfReleased.releasesAcquired (hself : SelfReleased p) (h : GeneratedProg p)
    (hpt : p.pt.FromCatalog) : EachAfter (ReleasesAcquired p) p.calls := by
  intro done c rest hcalls name hrel
  obtain ⟨v, hv, rfl, hconstraints⟩ := hself.direct c (by simp [hcalls]) name hrel
  refine ⟨v, rfl, ?_, hconstraints⟩
  obtain ⟨d, hd, typ, hacq⟩ := mem_acquiredVars.mp hv
  have htyped := typedRet_of_acquires hacq (h.acquires_typed hpt d hd _ hacq)
  -- the released variable is in scope, so the call that acquires it is not behind
  have hscope : v ∈ p.scope done ++ c.locals := by
    obtain ⟨a, ha, hname⟩ := head_of_released hrel
    exact h.args_in hpt hcalls a (mem_of_mem_head? ha) v (by simp [hname, ArgName.var?])
  rw [hcalls, mem_append] at hd
  rcases hd with hd | hd
  · exact mem_acquiredVars.mpr ⟨d, hd, typ, hacq⟩
  · refine absurd hscope (h.not_mem_scope hcalls ?_)
    rcases mem_cons.mp hd with rfl | hd
    · simp [htyped]
    · refine mem_append_right _ (mem_flatMap.mpr ⟨d, hd, ?_⟩)
      simp [decls, htyped]

theorem helperFuncMap_cast (proto : Proto) (h : isRefPropagateCall (helperFuncMap proto)) :
    ∀ t ∈ (helperFuncMap proto).args, .ptrToMem ∉ (compatibleRegType t).initial := by
  revert h
  cases proto <;> decide

theorem helperFuncMap_reserve (proto : Proto) (h : (helperFuncMap proto).enum = .ringbufReserve) :
    (helperFuncMap proto).ret = .ptrToAllocMemOrNull := by
  cases proto <;> first | rfl | exact absurd h (by decide)

theorem enum_of_acquires_ringbuf (h : isRefAcquireCall p c = some (some .ringbuf)) :
    c.helper.enum = .ringbufReserve := by
  unfold isRefAcquireCall at h
  split at h
  · cases h
  · cases h
  · cases h
  · obtain ⟨m, -, h⟩ := bind_eq_some_iff.mp h
    split at h <;> cases h
  · assumption
  · cases h

theorem GeneratedProg.not_cast (h : GeneratedProg p) (hpt : p.pt.FromCatalog) (hc : c ∈ p.calls)
    (hcast : isRefPropagateCall c.helper) {a : BpfArg} (ha : a ∈ c.args) (hd : d ∈ p.calls)
    (hacq : d.acquires p = some (v, .ringbuf)) : a.name ≠ .var v := by
  intro hname
  have hret := acquires_ret hacq
  obtain ⟨before, hok, hbefore⟩ := h.chain.mem hc
  obtain ⟨proto, hproto⟩ := hpt _ (h.helpers c hc)
  obtain ⟨proto', hproto'⟩ := hpt _ (h.helpers d hd)
  have hkind := helperFuncMap_cast proto (hproto ▸ hcast) a.argType (hproto ▸ hok.kinds a ha)
  have hreserve : d.helper.ret = .ptrToAllocMemOrNull := by
    have henum := enum_of_acquires_ringbuf (acquires_typ hacq)
    rw [hproto'] at henum ⊢
    exact helperFuncMap_reserve proto' henum
  have hlocal : v ∉ a.prep.vars := fun hv => local_ne_ret (h.once v) hc ha hv hd hret
  obtain ⟨size, lo, t, a0, -, horigin, rfl⟩ := hok.args a ha
  rw [BpfArg.bounded_argType, horigin.argType] at hkind
  rw [BpfArg.bounded_name] at hname
  rw [BpfArg.bounded_prep] at hlocal
  have hdecl := mem_declares_of_ret hret
  rcases horigin.var_cases (by rw [hname]; rfl) with hv | hv | hv | ⟨e, he, hret', -, rt, hreg, hrt⟩
  · exact hlocal hv
  · exact not_declared_of_scratch (h.once v) hv hd hdecl
  · exact not_declared_of_field (h.once v) hv hd hdecl
  · obtain rfl := call_eq (h.once v) hd (by simpa using hbefore he) hdecl (mem_declares_of_ret hret')
    rw [hreserve] at hrt
    exact hkind (mem_singleton.mp hrt ▸ hreg)

theorem SelfReleased.countCall_scanned (hself : SelfReleased p) (h : GeneratedProg p)
    (hpt : p.pt.FromCatalog) (hcalls : p.calls = done ++ call :: rest) (hinv : RefInv p done m)
    (hscan : Scanned (done.filterMap (acquires p)) (releasedNames done) m)
    (hrun : countCall p m call = some m') :
    Scanned ((done ++ [call]).filterMap (acquires p)) (releasedNames (done ++ [call])) m' := by
  have hmem : call ∈ p.calls := by simp [hcalls]
  have hsub : (done ++ [call]).Sublist p.calls := by simp [hcalls]
  obtain ⟨ret, hret, hrun⟩ := bind_eq_some_iff.mp hrun
  obtain ⟨m1, hm1, hrun⟩ := bind_eq_some_iff.mp hrun
  obtain ⟨m2, hm2, hrun⟩ := bind_eq_some_iff.mp hrun
  have hscan1 : Scanned ((done ++ [call]).filterMap (acquires p)) (releasedNames done) m1 := by
    obtain ⟨acquires, hacq, hm1⟩ := bind_eq_some_iff.mp hm1
    cases acquires with
    | none =>
      cases hm1
      have hnone : call.acquires p = none := by simp [acquires, hacq]
      simpa [hnone] using hscan
    | some typ =>
      cases hm1
      have hsome : call.acquires p = some (ret, typ) := by simp [acquires, hacq, hret]
      have hfresh := h.ret_fresh hcalls hret (h.acquires_typed hpt call hmem _ hsome)
      rw [filterMap_append]
      simp only [filterMap_cons, hsome, filterMap_nil]
      refine hscan.acquire call typ (hinv.lookup_fresh hfresh) fun hrel => hfresh ?_
      have hdone := hself.releasesAcquired h hpt
      rw [hcalls] at hdone
      have hvar := mem_acquiredVars_of_released (eachAfter_append.mp hdone).1 hrel
      have htyped : ∀ c ∈ done, ∀ e, c.acquires p = some e → c.retType ≠ "" := fun c hc =>
        h.acquires_typed hpt c (by simp [hcalls, hc])
      exact mem_append_right _ ((acquiredVars_sublist htyped).subset hvar)
  have hscan2 : Scanned ((done ++ [call]).filterMap (acquires p))
      (releasedNames (done ++ [call])) m2 := by
    rw [releasedNames_concat]
    unfold countRelease at hm2
    split at hm2
    · next hno =>
      cases hm2
      simpa [released, hno] using hscan1
    · next typ htyp =>
      obtain ⟨a, ha, hm2⟩ := bind_eq_some_iff.mp hm2
      cases hm2
      have hrel : call.released = some a.name := by simp [released, htyp, firstName, ha]
      obtain ⟨v, hname, hv, -⟩ := hself.releasesAcquired h hpt done call rest hcalls _ hrel
      rw [hname] at hrel ⊢
      rw [hrel]
      refine hscan1.release call typ ret ?_ ?_
      · exact ((hsub.filterMap _).map _).nodup (h.acquiredVars_nodup hpt)
      · change v ∈ acquiredVars p (done ++ [call])
        rw [acquiredVars_concat]
        exact mem_append_left _ hv
  unfold countPropagate at hrun
  split at hrun
  · next hcast =>
    obtain ⟨a, ha, hrun⟩ := bind_eq_some_iff.mp hrun
    split at hrun
    · cases hrun
      exact hscan2
    · next i hlookup =>
      cases hrun
      refine hscan2.propagate hlookup ?_
      rintro ⟨v, typ⟩ he rfl
      obtain ⟨d, hd, hacq⟩ := mem_filterMap.mp he
      exact h.not_cast hpt hmem hcast (mem_of_mem_head? ha) (hsub.subset hd) hacq
  · cases hrun
    exact hscan2

theorem SelfReleased.scanRefs_scanned (hself : SelfReleased p) (h : GeneratedProg p)
    (hpt : p.pt.FromCatalog) (hrun : scanRefs p = some m) :
    Scanned (p.calls.filterMap (acquires p)) (releasedNames p.calls) m := by
  have hboth := foldlM_carries (fun done m => RefInv p done m ∧
    Scanned (done.filterMap (acquires p)) (releasedNames done) m)
    ⟨⟨by simp, by simp⟩, ⟨rfl, by simp⟩, by simp, by simp [RefMap.lookup]⟩
    (fun done call rest m m' hcalls hinv hstep => ⟨h.countCall_inv hpt hcalls hinv.1 hstep,
      hself.countCall_scanned h hpt hcalls hinv.1 hinv.2 hstep⟩) hrun
  exact hboth.2

end Generated

section Fix

variable {p : BpfProg} {tail : List BpfCall} {refs : List ObjRef} {ref : ObjRef} {st : GenState}
  {helper : BpfHelper} {v : ℕ}

theorem helperFuncMap_ringbufRelease (proto : Proto)
    (h : (helperFuncMap proto).enum ∈ [HelperEnum.ringbufSubmit, .ringbufDiscard]) :
    (helperFuncMap proto).args = [.ptrToAllocMem, .anything] := by
  cases proto <;> first | rfl | exact absurd h (by decide)

theorem mem_helpers {pt : BpfProgType} {enums : List HelperEnum}
    (h : helper ∈ pt.getBpfHelpers enums) : helper ∈ pt.helpers := by
  obtain ⟨h', hh', hmem⟩ := mem_flatMap.mp h
  obtain ⟨-, -, rfl⟩ := mem_map.mp hmem
  exact hh'

/-- A release call that the repair puts at the end. -/
def releaseCall (helper : BpfHelper) (hint : BpfCallGenHint) (v : ℕ) : BpfCall :=
  { newBpfCall helper hint with args := releaseArgs helper (.var v) }

theorem releaseCall_decls (helper : BpfHelper) (hint : BpfCallGenHint) (v : ℕ) :
    (releaseCall helper hint v).decls = [] := by
  have hlocals : (releaseCall helper hint v).locals = [] :=
    flatMap_eq_nil_iff.mpr fun a ha => by simp [(mem_releaseArgs ha).1, Prepare.vars]
  rw [decls, hlocals]
  rfl

section ReleaseCall

variable (hpt : p.pt.FromCatalog) (hhelper : helper ∈ releaseHelpers p.pt .ringbuf)
  (hint : BpfCallGenHint)

include hpt hhelper

theorem releaseHelpers_args : helper.args = [.ptrToAllocMem, .anything] := by
  have henum : helper.enum ∈ [HelperEnum.ringbufSubmit, .ringbufDiscard] := mem_getBpfHelpers hhelper
  obtain ⟨proto, rfl⟩ := hpt helper (mem_helpers hhelper)
  exact helperFuncMap_ringbufRelease proto henum

theorem releaseCall_released : (releaseCall helper hint v).released = some (.var v) := by
  have henum : helper.enum ∈ [HelperEnum.ringbufSubmit, .ringbufDiscard] := mem_getBpfHelpers hhelper
  have hrelease : isRefReleaseCall helper = some .ringbuf := by
    simp only [mem_cons, not_mem_nil, or_false] at henum
    rcases henum with henum | henum <;> simp [isRefReleaseCall, henum]
  simp [released, releaseCall, newBpfCall, hrelease, firstName, releaseArgs,
    releaseHelpers_args hpt hhelper]

theorem releaseCall_constraints (q : BpfProg) :
    getArgConstraints q (releaseCall helper hint v) = [[.var v]] := by
  have hfirst : argConstraints q { newBpfArg .ptrToAllocMem with name := .var v } = [[.var v]] := rfl
  have hflags : argConstraints q { newBpfArg .anything with name := .zero, isNotNull := true } = [] :=
    rfl
  simp [getArgConstraints, releaseCall, releaseArgs, releaseHelpers_args hpt hhelper, hfirst, hflags]

end ReleaseCall

/-- The program with the calls `tail` added, and what the references are then. -/
structure Repaired (p : BpfProg) (tail : List BpfCall) (refs : List ObjRef) : Prop where
  refs : Counted (releasedNames (p.calls ++ tail)) refs (p.calls.filterMap (acquires p))
  once : (releasedNames (p.calls ++ tail)).Nodup
  added : ∀ c ∈ tail, ∃ helper ∈ releaseHelpers p.pt .ringbuf, ∃ hint, ∃ v ∈ acquiredVars p p.calls,
    c = releaseCall helper hint v

/-- The reference at `i` is released. -/
def ReleasedAt (p : BpfProg) (tail : List BpfCall) (i : ℕ) : Prop :=
  ∀ e, (p.calls.filterMap (acquires p))[i]? = some e →
    ArgName.var e.1 ∈ releasedNames (p.calls ++ tail)

theorem releasedNames_append (xs ys : List BpfCall) :
    releasedNames (xs ++ ys) = releasedNames xs ++ releasedNames ys :=
  filterMap_append

theorem ReleasedAt.append (h : ReleasedAt p tail i) (more : List BpfCall) :
    ReleasedAt p (tail ++ more) i := by
  intro e he
  rw [← append_assoc, releasedNames_append]
  exact mem_append_left _ (h e he)

theorem Repaired.leak (h : Repaired p tail refs) (hself : SelfReleased p)
    (href : refs[i]? = some ref) (he : (p.calls.filterMap (acquires p))[i]? = some e)
    (hcount : 0 < ref.count) :
    ref.typ = .ringbuf ∧ ref.vars = [.var e.1] ∧ .var e.1 ∉ releasedNames (p.calls ++ tail) := by
  obtain ⟨htyp, hcount', hvars⟩ := h.refs.each i ref e href he
  have hnot : .var e.1 ∉ releasedNames (p.calls ++ tail) := by
    rw [← count_eq_zero]
    omega
  have hring : e.2 = .ringbuf := by
    obtain ⟨c, hc, hacq⟩ := mem_filterMap.mp (mem_of_getElem? he)
    cases htyp' : e.2 with
    | ringbuf => rfl
    | socket =>
      have hacq : c.acquires p = some (e.1, .socket) := by rw [hacq, ← htyp']
      refine absurd ?_ hnot
      rw [releasedNames_append]
      exact mem_append_left _ (hself.sockets c hc e.1 hacq)
  exact ⟨htyp.trans hring, hvars hring, hnot⟩

theorem Repaired.concat (h : Repaired p tail refs) (hpt : p.pt.FromCatalog)
    (hacq : (acquiredVars p p.calls).Nodup) (hhelper : helper ∈ releaseHelpers p.pt .ringbuf)
    (hint : BpfCallGenHint) (href : refs[i]? = some ref)
    (he : (p.calls.filterMap (acquires p))[i]? = some e)
    (hnot : .var e.1 ∉ releasedNames (p.calls ++ tail)) :
    Repaired p (tail ++ [releaseCall helper hint e.1]) (refs.set i { ref with count := 0 }) := by
  have hrel : releasedNames (p.calls ++ (tail ++ [releaseCall helper hint e.1])) =
      releasedNames (p.calls ++ tail) ++ [.var e.1] := by
    rw [← append_assoc, releasedNames_concat, releaseCall_released hpt hhelper hint, toList_some]
  refine ⟨?_, ?_, ?_⟩
  · rw [hrel, set_eq_modify]
    refine h.refs.modify ?_ ?_
    · intro ref' e' href' he' hfor
      obtain rfl := some.inj (href.symm.trans href')
      obtain rfl := some.inj (he.symm.trans he')
      exact ⟨hfor.typ, by simp [count_eq_zero.mpr hnot], hfor.vars⟩
    · intro j e' hj he'
      simp [(fst_ne_of_nodup hacq he' he hj).symm]
  · rw [hrel]
    exact nodup_append.mpr ⟨h.once, nodup_singleton _, fun a ha b hb hab =>
      hnot (mem_singleton.mp hb ▸ hab ▸ ha)⟩
  · intro c hc
    rcases mem_append.mp hc with hc | hc
    · exact h.added c hc
    · obtain ⟨d, hd, hdacq⟩ := mem_filterMap.mp (mem_of_getElem? he)
      exact ⟨helper, hhelper, hint, e.1, mem_acquiredVars.mpr ⟨d, hd, e.2, hdacq⟩,
        mem_singleton.mp hc⟩

theorem fixRefAt_repaired (fuel i : ℕ) (hself : SelfReleased p) (hpt : p.pt.FromCatalog)
    (hacq : (acquiredVars p p.calls).Nodup) (hhelpers : releaseHelpers p.pt .ringbuf ≠ [])
    (h : Repaired p tail refs) (hprog : st.prog = { p with calls := p.calls ++ tail }) :
    Post (fixRefAt fuel refs i) st fun refs' st' => ∃ more,
      st'.prog = { p with calls := p.calls ++ (tail ++ more) } ∧ Repaired p (tail ++ more) refs' ∧
      ReleasedAt p (tail ++ more) i := by
  refine post_bind (post_orAbort.mpr fun ref href => ?_)
  extract_lets leak
  obtain ⟨e, he⟩ : ∃ e, (p.calls.filterMap (acquires p))[i]? = some e := by
    have hi := (List.getElem?_eq_some_iff.mp href).1
    exact ⟨_, getElem?_eq_getElem (h.refs.length ▸ hi)⟩
  have hcount := (h.refs.each i ref e href he).count
  have hone := nodup_iff_count_le_one.mp h.once (.var e.1)
  refine post_ite (fun hneg => by omega) fun _ => post_ite (fun hpos => ?_) fun hzero => ?_
  · obtain ⟨htyp, hvars, hnot⟩ := h.leak hself href he hpos
    have hhelpers' : releaseHelpers st.prog.pt ref.typ ≠ [] := by rwa [hprog, htyp]
    refine post_bind (post_bind (post_getProg.mpr (post_ite (fun hnil => ?_) fun _ => ?_)))
    · exact absurd hnil hhelpers'
    refine post_bind (post_draw.mpr (Gen.ensures_pick fun helper hhelper => ?_))
    refine post_bind (post_draw.mpr (Gen.ensures_pick fun name hname => ?_))
    obtain rfl : name = .var e.1 := by simpa [hvars] using hname
    rw [htyp] at hhelper ⊢
    refine post_bind (post_modifyProg.mpr (post_pure.mpr (post_pure.mpr ?_)))
    have hhelper : helper ∈ releaseHelpers p.pt .ringbuf := by rwa [hprog] at hhelper
    have hnext := h.concat hpt hacq hhelper (newBpfCallGenHint ref.objMap) href he hnot
    rw [htyp] at hnext
    refine ⟨[releaseCall helper (newBpfCallGenHint ref.objMap) e.1], ?_, hnext, ?_⟩
    · simp [hprog, releaseCall]
    · intro e' he'
      obtain rfl := some.inj (he.symm.trans he')
      rw [← append_assoc, releasedNames_concat, releaseCall_released hpt hhelper]
      simp
  · refine post_pure.mpr ⟨[], by simpa using hprog, by simpa using h, ?_⟩
    intro e' he'
    obtain rfl := some.inj (he.symm.trans he')
    rw [append_nil, ← count_pos_iff]
    omega

theorem fixRefs_repaired (fuel : ℕ) (is : List ℕ) (hself : SelfReleased p) (hpt : p.pt.FromCatalog)
    (hacq : (acquiredVars p p.calls).Nodup) (hhelpers : releaseHelpers p.pt .ringbuf ≠ [])
    (h : Repaired p tail refs) (hprog : st.prog = { p with calls := p.calls ++ tail }) :
    Post (fixRefs fuel is refs) st fun _ st' => ∃ more refs',
      st'.prog = { p with calls := p.calls ++ (tail ++ more) } ∧ Repaired p (tail ++ more) refs' ∧
      ∀ i ∈ is, ReleasedAt p (tail ++ more) i := by
  induction is generalizing st tail refs with
  | nil => exact post_pure.mpr ⟨[], refs, by simpa using hprog, by simpa using h, by simp⟩
  | cons i is ih =>
    refine post_bind ((fixRefAt_repaired fuel i hself hpt hacq hhelpers h hprog).mono ?_)
    rintro refs1 st1 ⟨more1, hprog1, h1, hi⟩
    refine (ih h1 hprog1).mono ?_
    rintro _ st2 ⟨more2, refs2, hprog2, h2, his⟩
    rw [append_assoc] at hprog2 h2 his
    refine ⟨more1 ++ more2, refs2, hprog2, h2, ?_⟩
    intro j hj
    rcases mem_cons.mp hj with rfl | hj
    · rw [← append_assoc]
      exact hi.append more2
    · exact his j hj

theorem Repaired.paired (h : Repaired p tail refs) (hgen : GeneratedProg p)
    (hself : SelfReleased p) (hpt : p.pt.FromCatalog)
    (hall : ∀ v ∈ acquiredVars p p.calls, ArgName.var v ∈ releasedNames (p.calls ++ tail)) :
    RefPaired { p with calls := p.calls ++ tail } := by
  have hdecls : tail.flatMap decls = [] := by
    refine flatMap_eq_nil_iff.mpr fun c hc => ?_
    obtain ⟨helper, -, hint, v, -, rfl⟩ := h.added c hc
    exact releaseCall_decls helper hint v
  have hnone : ∀ c ∈ tail, ∀ q e, c.acquires q ≠ some e := by
    intro c hc q e he
    obtain ⟨helper, -, hint, v, -, rfl⟩ := h.added c hc
    cases acquires_ret he
  have hdirect := hself.releasesAcquired hgen hpt
  refine ⟨?_, ?_, eachAfter_append.mpr ⟨hdirect, ?_⟩, h.once, ?_, ?_⟩
  · rw [flatMap_append, hdecls, append_nil]
    have hnodup := nodup_decls hgen.once
    exact (nodup_append.mp hnodup).2.1
  · intro c hc e he
    rcases mem_append.mp hc with hc | hc
    · exact hgen.acquires_typed hpt c hc e he
    · exact absurd he (hnone c hc _ e)
  · intro pre c post htail name hrel
    obtain ⟨helper, hhelper, hint, v, hv, rfl⟩ := h.added c (by simp [htail])
    rw [releaseCall_released hpt hhelper] at hrel
    obtain ⟨d, hd, typ, hacq⟩ := mem_acquiredVars.mp hv
    exact ⟨v, (some.inj hrel).symm, mem_acquiredVars.mpr ⟨d, mem_append_left _ hd, typ, hacq⟩,
      releaseCall_constraints hpt hhelper hint _⟩
  · intro v hv
    obtain ⟨d, hd, typ, hacq⟩ := mem_acquiredVars.mp hv
    rcases mem_append.mp hd with hd | hd
    · exact hall v (mem_acquiredVars.mpr ⟨d, hd, typ, hacq⟩)
    · exact absurd hacq (hnone d hd _ _)
  · intro c hc
    rcases mem_append.mp hc with hc | hc
    · obtain ⟨before, hok, -⟩ := hgen.chain.mem hc
      exact hok.postCalls
    · obtain ⟨helper, -, hint, v, -, rfl⟩ := h.added c hc
      rfl

end Fix

theorem fixRef_refSafe (fuel : ℕ) {order : List ℕ → List ℕ} {st : GenState}
    (h : GeneratedProg st.prog) (hpt : st.prog.pt.FromCatalog)
    (hrelease : releaseHelpers st.prog.pt .ringbuf ≠ []) (horder : ∀ l, (order l).Perm l)
    (hself : SelfReleased st.prog) : Post (fixRef fuel order) st fun _ st' => RefSafe st'.prog := by
  refine post_bind (post_getProg.mpr (post_bind (post_orAbort.mpr fun m hm => ?_)))
  have hscan := hself.scanRefs_scanned h hpt hm
  have hstart : Repaired st.prog [] m.refs := by
    refine ⟨?_, ?_, by simp⟩
    · simpa using hscan.refs
    · simpa using hself.once
  refine (fixRefs_repaired fuel _ hself hpt (h.acquiredVars_nodup hpt) hrelease hstart
    (by simp)).mono ?_
  rintro _ st' ⟨tail, refs, hprog, hrep, hall⟩
  rw [hprog]
  refine (hrep.paired h hself hpt fun v hv => ?_).refSafe
  obtain ⟨e, he, rfl⟩ := mem_map.mp hv
  obtain ⟨i, hi⟩ := mem_iff_getElem?.mp he
  refine hall i ?_ e hi
  have hname := mem_of_lookup (hscan.lookup i e hi)
  exact (horder _).mem_iff.mpr (mem_map.mpr ⟨_, hname, rfl⟩)

/-- After the repair of a generated program that releases what it acquires itself and once, and
its sockets, every run releases each reference it acquires once, and nothing else. -/
theorem genBpfProg_fixRef_refSafe {fuel fuel' : ℕ} {pt : BpfProgType}
    {regTypes : RegTable → List RegType} {order : List ℕ → List ℕ} {s s1 s2 : Stream' ℕ}
    {call : BpfCall} {st st' : GenState} (hpt : pt.FromCatalog)
    (hregs : ∀ tb, ∀ rt ∈ regTypes tb, rt ∈ tb.initial)
    (hrelease : releaseHelpers pt .ringbuf ≠ []) (horder : ∀ l, (order l).Perm l)
    (hgen : genBpfProg fuel pt regTypes s = some ((some call, st), s1))
    (hself : SelfReleased st.prog) (hfix : fixRef fuel' order st s1 = some (((), st'), s2)) :
    RefSafe st'.prog := by
  obtain ⟨rfl, hprog⟩ := genBpfProg_spec fuel pt hregs s _ s1 hgen call rfl
  exact (fixRef_refSafe fuel' hprog hpt hrelease horder hself).of_run hfix

/-- `bpf_ringbuf_reserve`, which acquires a record for `v11`. -/
def reserveCall : BpfCall where
  helper := helperFuncMap .bpfRingbufReserve
  args := [mapArg .constMapPtr 1,
    { newBpfArg .constAllocSizeOrZero with name := .var 10, isNotNull := true, prep := .int64 10 1 },
    { newBpfArg .anything with name := .ctx, isNotNull := true }]
  argMap := some 1
  ret := some 11
  retType := "void *"
  stackVarSize := 0
  hint := newBpfCallGenHint none
  postCalls := []

def reserveDraws : Stream' ℕ := fun n => [38].getD n 1

theorem selfReleased_reserve {p : BpfProg} (h : p.calls = [reserveCall]) : SelfReleased p := by
  refine ⟨?_, ?_, ?_⟩
  all_goals rw [h]
  · simp [released, isRefReleaseCall, reserveCall, helperFuncMap]
  · have hnone : reserveCall.released = none := rfl
    simp [releasedNames, hnone]
  · simp [acquires, isRefAcquireCall, reserveCall, helperFuncMap]

theorem reserve_fixRef_refSafe : ∃ call st st' s1 s2,
    genBpfProg 8 cgroupSockAddr initial reserveDraws = some ((some call, st), s1) ∧
    fixRef 8 id st s1 = some (((), st'), s2) ∧ st.prog.calls = [reserveCall] ∧
    st'.prog.calls.length = 2 ∧ RefSafe st'.prog := by
  have hrun : ((genBpfProg 8 cgroupSockAddr initial reserveDraws).bind fun r =>
      (fixRef 8 id r.1.2 r.2).map fun r' =>
        (r.1.1.isSome, r.1.2.prog.calls, r'.1.2.prog.calls.length)) =
      some (true, [reserveCall], 2) := by decide +kernel
  obtain ⟨⟨⟨call, st⟩, s1⟩, hgen, hrun⟩ := bind_eq_some_iff.mp hrun
  obtain ⟨⟨⟨⟨⟩, st'⟩, s2⟩, hfix, hrun⟩ := map_eq_some_iff.mp hrun
  simp only [Prod.mk.injEq] at hrun
  obtain ⟨hcall, hcalls, hlength⟩ := hrun
  obtain ⟨call, rfl⟩ := isSome_iff_exists.mp hcall
  refine ⟨call, st, st', s1, s2, hgen, hfix, hcalls, hlength, ?_⟩
  refine genBpfProg_fixRef_refSafe ?_ (fun _ _ h => h) (by decide +kernel) (fun l => .refl l) hgen
    (selfReleased_reserve hcalls) hfix
  intro helper hhelper
  dsimp only [cgroupSockAddr] at hhelper
  exact mem_registerHelpers hhelper

def castDraws : Stream' ℕ := fun n =>
  ([20, 1, 75, 82, 1, 1, 40] ++ List.replicate 16 1 ++ [72, 1, 1, 68]).getD n 1

/-- A socket that is looked up in a map and cast is released behind the lookup, also when the
lookup returns null. -/
theorem cast_fixRef_not_refSafe : ∃ call st st' s1 s2,
    genBpfProg 8 cgroupSockAddr initial castDraws = some ((some call, st), s1) ∧
    fixRef 8 id st s1 = some (((), st'), s2) ∧ ¬ RefSafe st'.prog := by
  have hrun : ((genBpfProg 8 cgroupSockAddr initial castDraws).bind fun r =>
      (fixRef 8 id r.1.2 r.2).map fun r' => (r.1.1.isSome, (r'.1.2.prog.calls.foldlM
        (RunState.step r'.1.2.prog fun _ => 0) (.start fun _ => ⟨1, false⟩)).isNone)) =
      some (true, true) := by decide +kernel
  obtain ⟨⟨⟨call, st⟩, s1⟩, hgen, hrun⟩ := bind_eq_some_iff.mp hrun
  obtain ⟨⟨⟨⟨⟩, st'⟩, s2⟩, hfix, hrun⟩ := map_eq_some_iff.mp hrun
  simp only [Prod.mk.injEq] at hrun
  obtain ⟨call, rfl⟩ := isSome_iff_exists.mp hrun.1
  refine ⟨call, st, st', s1, s2, hgen, hfix, fun hsafe => ?_⟩
  obtain ⟨s, hs, -⟩ := hsafe (fun _ => ⟨1, false⟩) fun _ => 0
  rw [hs] at hrun
  cases hrun.2

end Brf.HelperCalls
