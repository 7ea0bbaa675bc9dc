import Brf.Model.HelperRepairs
import Brf.Verification.Helper.Generation

/-! # Generated programs

A program grows from an empty one by generated calls. In every state reached, each variable is
declared once and each argument has an origin within the program. -/

namespace Brf.HelperCalls

open Brf.Lib Lib.Gen List BpfProg BpfCall

section Unique

variable {α : Type} {f : α → List ℕ} {l : List α} {x y : α} {v : ℕ}

theorem count_le_count_flatMap (hx : x ∈ l) : (f x).count v ≤ (l.flatMap f).count v := by
  exact (sublist_flatten_of_mem (mem_map_of_mem hx)).count_le v

theorem eq_of_count_flatMap_le_one (h : (l.flatMap f).count v ≤ 1) (hx : x ∈ l) (hy : y ∈ l)
    (hvx : v ∈ f x) (hvy : v ∈ f y) : x = y := by
  obtain ⟨l1, l2, rfl⟩ := append_of_mem hx
  by_contra hne
  have hy' : y ∈ l1 ++ l2 := by
    simp only [mem_append, mem_cons] at hy ⊢
    tauto
  have hrest := count_le_count_flatMap (f := f) (v := v) hy'
  have hpos := count_pos_iff.mpr hvx
  have hpos' := count_pos_iff.mpr hvy
  simp only [flatMap_append, flatMap_cons, count_append] at h hrest
  omega

end Unique

structure ProgOk (p : BpfProg) : Prop where
  once : ∀ v, p.declCount v ≤ 1
  calls : ∀ c ∈ p.calls, CallOk p p.calls c

variable {q : BpfProg}

section Declarations

variable {p : BpfProg} {c d : BpfCall} {a b : BpfArg} {v : ℕ}

theorem declares_count_le (h : p.declCount v ≤ 1) : (p.calls.flatMap declares).count v ≤ 1 := by
  unfold declCount at h
  omega

theorem mem_declares_of_ret (h : c.ret = some v) : v ∈ c.declares := by
  simp [declares, h]

theorem mem_declares_of_prep (ha : a ∈ c.args) (hv : v ∈ a.prep.vars) : v ∈ c.declares :=
  mem_append_left _ (mem_flatMap.mpr ⟨a, ha, hv⟩)

section

variable (h : p.declCount v ≤ 1)

include h

theorem not_declared_of_scratch (hv : v ∈ p.scratchMapVars)
    (hc : c ∈ p.calls) : v ∉ c.declares := by
  intro hdecl
  have hscratch := count_pos_iff.mpr hv
  have hcall := count_pos_iff.mpr (mem_flatMap.mpr ⟨c, hc, hdecl⟩)
  unfold declCount at h
  omega

theorem not_declared_of_field (hv : v ∈ p.ctxVars.map Prod.snd)
    (hc : c ∈ p.calls) : v ∉ c.declares := by
  intro hdecl
  have hfield := count_pos_iff.mpr hv
  have hcall := count_pos_iff.mpr (mem_flatMap.mpr ⟨c, hc, hdecl⟩)
  unfold declCount at h
  omega

theorem not_scratch_of_field (hv : v ∈ p.ctxVars.map Prod.snd) : v ∉ p.scratchMapVars := by
  intro hscratch
  have hfield := count_pos_iff.mpr hv
  have hpos := count_pos_iff.mpr hscratch
  unfold declCount at h
  omega

theorem field_eq {f g : String} (hf : p.ctxVars.lookup f = some v)
    (hg : p.ctxVars.lookup g = some v) : f = g := by
  have hcount : (p.ctxVars.flatMap fun e => [e.2]).count v ≤ 1 := by
    rw [← map_eq_flatMap]
    unfold declCount at h
    omega
  have heq := eq_of_count_flatMap_le_one hcount (mem_of_lookup hf) (mem_of_lookup hg)
    (by simp) (by simp)
  exact congrArg Prod.fst heq

theorem call_eq (hc : c ∈ p.calls) (hd : d ∈ p.calls)
    (hvc : v ∈ c.declares) (hvd : v ∈ d.declares) : c = d :=
  eq_of_count_flatMap_le_one (declares_count_le h) hc hd hvc hvd

theorem local_ne_ret (hc : c ∈ p.calls) (ha : a ∈ c.args)
    (hv : v ∈ a.prep.vars) (hd : d ∈ p.calls) : d.ret ≠ some v := by
  intro hret
  have hlocal := mem_declares_of_prep ha hv
  obtain rfl := call_eq h hc hd hlocal (mem_declares_of_ret hret)
  have hcount := Nat.le_trans (count_le_count_flatMap (f := declares) (v := v) hc)
    (declares_count_le h)
  have hpos : 0 < c.locals.count v := count_pos_iff.mpr (mem_flatMap.mpr ⟨a, ha, hv⟩)
  simp only [declares, hret, count_append, Option.toList_some, count_singleton_self] at hcount
  omega

theorem local_eq (hc : c ∈ p.calls) (ha : a ∈ c.args)
    (hv : v ∈ a.prep.vars) (hd : d ∈ p.calls) (hb : b ∈ d.args) (hv' : v ∈ b.prep.vars) : a = b := by
  obtain rfl := call_eq h hc hd (mem_declares_of_prep ha hv) (mem_declares_of_prep hb hv')
  have hcount := Nat.le_trans (count_le_count_flatMap (f := declares) (v := v) hc)
    (declares_count_le h)
  refine eq_of_count_flatMap_le_one (f := fun a : BpfArg => a.prep.vars) (v := v) ?_ ha hb hv hv'
  simp only [declares, count_append] at hcount
  change c.locals.count v ≤ 1
  omega

end

variable {before : List BpfCall}

theorem CallOk.widen (h : CallOk p before c) (honce : ∀ v, q.declCount v ≤ 1) (hc : c ∈ q.calls)
    (hcalls : before ⊆ q.calls) (hscratch : q.scratchMapVars = p.scratchMapVars)
    (hctx : p.ctxVars <+: q.ctxVars) : CallOk q q.calls c := by
  refine ⟨fun a ha => (h.args a ha).mono hscratch hctx hcalls, h.kinds, ?_, h.ret, h.retType,
    h.postCalls, h.traced⟩
  refine List.Pairwise.imp_of_mem ?_ h.once
  intro a b ha hb hab v hv hav
  refine hab v ?_ hav
  -- the variable is a result of the program, so the argument takes it from `before`
  obtain ⟨d, hd, hret⟩ := mem_rets.mp hv
  obtain ⟨size, lo, t, a0, -, horigin, rfl⟩ := h.args a ha
  have horigin' := horigin.mono hscratch hctx (List.Subset.refl _) (Nat.le_refl lo)
  refine (horigin'.of_result (by simpa using hav) ?_ ?_ ?_).2
  · intro hlocal
    exact local_ne_ret (honce v) hc ha (by simpa using hlocal) hd hret
  · exact fun hother => not_declared_of_scratch (honce v) hother hd (mem_declares_of_ret hret)
  · exact fun hother => not_declared_of_field (honce v) hother hd (mem_declares_of_ret hret)

theorem Chain.mem {new : List BpfCall} (h : Chain p before new) (hc : c ∈ new) :
    ∃ before', CallOk p before' c ∧ before' ⊆ before ++ new := by
  induction new generalizing before with
  | nil => cases hc
  | cons e es ih =>
    rcases mem_cons.mp hc with rfl | hc
    · exact ⟨before, h.1, subset_append_left _ _⟩
    · obtain ⟨before', hok, hsub⟩ := ih h.2 hc
      exact ⟨before', hok, by simpa using hsub⟩

end Declarations

/-- The states in which calls are generated: a new program, and what generated calls make of
it. The register type arrays are those of the process. -/
inductive Generated : GenState → Prop
  | start {pt : BpfProgType} {draws draws' : Stream' ℕ} {p : BpfProg}
      (h : newBpfProg pt draws = some (p, draws')) : Generated ⟨p, 0, RegTable.initial⟩
  | next {st : GenState} {pt : BpfProgType} {draws draws' : Stream' ℕ} {p : BpfProg}
      (hst : Generated st) (h : newBpfProg pt draws = some (p, draws')) :
      Generated ⟨p, 0, st.regTypes⟩
  | call {st st' : GenState} {fuel : ℕ} {helper : BpfHelper} {hint : BpfCallGenHint} {prepend : Bool}
      {draws draws' : Stream' ℕ} {r : Option BpfCall} (hst : Generated st)
      (h : genBpfHelperCall fuel helper hint prepend st draws = some ((r, st'), draws')) :
      Generated st'

theorem newBpfProg_spec (pt : BpfProgType) : Gen.Ensures (newBpfProg pt) fun p =>
    p.pt = pt ∧ p.scratchMapVars = List.range 10 ∧ p.ctxVars = [] ∧ p.calls = [] ∧ p.varId = 10 ∧
      p.pool = ⟨[scratchMap], []⟩ := by
  refine ensures_bind (.of_forall fun retVal => ?_)
  refine ensures_bind (.of_forall fun sec => ?_)
  refine ensures_bind (.of_forall fun name => ?_)
  exact ensures_pure.mpr ⟨rfl, rfl, rfl, rfl, rfl, rfl⟩

theorem newBpfProg_inv (pt : BpfProgType) {regTypes : RegTable → List RegType}
    (hregs : ∀ tb, ∀ rt ∈ regTypes tb, rt ∈ tb.initial) : Gen.Ensures (newBpfProg pt) fun p =>
      GenInv [] ⟨p, 0, regTypes⟩ ∧ p.calls = [] := by
  refine (newBpfProg_spec pt).mono ?_
  rintro p ⟨-, hscratch, hctx, hcalls, hvar, hpool⟩
  refine ⟨⟨?_, ?_, hregs⟩, hcalls⟩
  · intro v
    simp only [declCount, hscratch, hctx, hcalls, hvar, map_nil, flatMap_nil,
      count_nil, Nat.add_zero]
    simp
  · rw [hpool]
    refine ⟨by simp, ?_⟩
    intro m hm
    rw [mem_singleton.mp hm]
    exact ⟨by rintro _ ⟨⟩; decide, by rintro _ ⟨⟩; decide⟩

variable {st : GenState} {pend : List ℕ}

theorem GenInv.once (h : GenInv pend st) (v : ℕ) : st.prog.declCount v ≤ 1 := by
  have := h.fresh v
  split at this <;> omega

theorem ProgOk.extend {p : BpfProg} (h : ProgOk p) (hext : Extends p q)
    (honce : ∀ v, q.declCount v ≤ 1) : ProgOk q := by
  obtain ⟨new, hnew, hchain, -, -⟩ := hext.calls
  refine ⟨honce, ?_⟩
  intro c hc
  rw [hnew] at hc
  rcases mem_append.mp hc with hold | hadded
  · exact (h.calls c hold).widen honce (hext.calls_subset hold) hext.calls_subset hext.scratch
      hext.ctx
  · obtain ⟨before, hok, hsub⟩ := hchain.mem hadded
    refine hok.widen honce ?_ ?_ rfl (prefix_refl _)
    · rw [hnew]
      exact hc
    · rwa [hnew]

variable {r : Option BpfCall}

theorem CallSpec.progOk {st' : GenState} {helper : BpfHelper} {prepend : Bool}
    (h : CallSpec pend st helper prepend r st') (hst : ProgOk st.prog) : ProgOk st'.prog := by
  cases r with
  | none => exact hst.extend (h.failed rfl) h.inv.once
  | some c =>
    obtain ⟨p, hext, hcall, -, -, hprog⟩ := h.added c rfl
    have hmem : ∀ d, d ∈ st'.prog.calls ↔ d = c ∨ d ∈ p.calls := by
      rw [hprog]
      cases prepend <;> simp [or_comm]
    have honce : ∀ v, p.declCount v ≤ 1 := by
      intro v
      refine Nat.le_trans ?_ (h.inv.once v)
      rw [hprog]
      cases prepend <;> simp [declCount]
    have hp : ProgOk p := hst.extend hext honce
    refine ⟨h.inv.once, ?_⟩
    intro d hd
    have hscratch : st'.prog.scratchMapVars = p.scratchMapVars := by rw [hprog]
    have hctx : p.ctxVars <+: st'.prog.ctxVars := by rw [hprog]
    have hsub : p.calls ⊆ st'.prog.calls := fun e he => (hmem e).mpr (.inr he)
    rcases (hmem d).mp hd with rfl | hold
    · exact hcall.widen h.inv.once hd hsub hscratch hctx
    · exact (hp.calls d hold).widen h.inv.once hd hsub hscratch hctx

/-- The invariant of all states of a generation. -/
theorem Generated.progOk (h : Generated st) : GenInv [] st ∧ ProgOk st.prog := by
  have hnew : ∀ {pt draws draws' p regTypes}, newBpfProg pt draws = some (p, draws') →
      (∀ tb, ∀ rt ∈ regTypes tb, rt ∈ RegTable.initial tb) →
      GenInv [] ⟨p, 0, regTypes⟩ ∧ ProgOk p := by
    intro pt draws draws' p regTypes hrun hregs
    obtain ⟨hinv, hcalls⟩ := newBpfProg_inv pt hregs draws p draws' hrun
    exact ⟨hinv, hinv.once, by simp [hcalls]⟩
  induction h with
  | start h => exact hnew h fun _ _ => id
  | next _ h ih => exact hnew h ih.1.regs
  | call _ h ih =>
    have hspec := (genBpfHelperCall_spec _ [] _ _ _ _ ih.1).of_run h
    exact ⟨hspec.inv, hspec.progOk ih.2⟩

theorem Generated.of_genBpfProg {fuel : ℕ} {pt : BpfProgType} {draws draws' : Stream' ℕ}
    (h : genBpfProg fuel pt RegTable.initial draws = some ((r, st), draws')) : Generated st := by
  obtain ⟨⟨helper, s1⟩, -, h⟩ := Option.bind_eq_some_iff.mp h
  obtain ⟨⟨p, s2⟩, hnew, h⟩ := Option.bind_eq_some_iff.mp h
  exact .call (.start hnew) h

end Brf.HelperCalls
