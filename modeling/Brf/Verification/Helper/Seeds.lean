import Brf.Model.HelperProgTypes
import Brf.Verification.Helper.SpinLocks

/-! # Seed programs

The pipeline from which seed programs are rendered: a generated program, the repair of its
references and the pairing of its spin locks. -/

namespace Brf.HelperCalls

open Brf.Lib List Option RegTable

section Pairing

variable {p q : BpfProg} {pre post : List BpfCall} {name : ArgName}

theorem lockCall_decls (helper : BpfHelper) (t : ArgType) (name : ArgName) :
    (lockCall helper t name).decls = [] :=
  rfl

theorem lockCall_scoped (helper : BpfHelper) (t : ArgType) (hname : name.In (p.scope pre)) :
    CallScoped p pre (lockCall helper t name) := by
  have hargs : ∀ a ∈ (lockCall helper t name).args, a.name = name ∧ a.prep = .none := by
    intro a ha
    rw [mem_singleton.mp ha]
    exact ⟨rfl, rfl⟩
  refine ⟨uses_of_args (fun v hv => .inl (mem_globals_of_ctx hv)) ?_ ?_, ?_⟩
  · intro a ha v hv
    rw [(hargs a ha).1] at hv
    exact (mem_append.mp (hname v hv)).imp_right .inl
  · intro a ha v hv
    rw [(hargs a ha).2] at hv
    cases hv
  · intro v hv
    obtain ⟨pc, hpc, -⟩ := mem_postUses.mp hv
    cases hpc

theorem WellScoped.insertLock (h : WellScoped p) (hcalls : p.calls = pre ++ post)
    (helper : BpfHelper) (t : ArgType) (hname : name.In (p.scope pre)) :
    WellScoped { p with calls := pre ++ lockCall helper t name :: post } := by
  refine ⟨?_, ?_⟩
  · have hnodup := h.nodup
    rw [BpfProg.decls, hcalls] at hnodup
    simpa [BpfProg.decls, BpfProg.globals, lockCall_decls] using hnodup
  · have horder : EachAfter (CallScoped p) (pre ++ lockCall helper t name :: post) := by
      refine (hcalls ▸ h.order).insert (lockCall_scoped helper t hname) ?_
      intro before c hc
      refine ⟨fun v hv => ?_, fun v hv => ?_⟩
      · simpa [lockCall_decls] using hc.uses v hv
      · simpa [lockCall_decls] using hc.postUses v hv
    exact horder.mono fun _ _ _ hc => ⟨hc.uses, hc.postUses⟩

theorem RepairInv.wellScoped (h : RepairInv p) : WellScoped p :=
  ⟨h.nodup, h.ready.mono fun _ _ _ hc => hc.scope⟩

theorem RepairInv.lock_in (h : RepairInv p) {c : BpfCall} (hcalls : p.calls = pre ++ c :: post)
    (hspin : c.isSpin) {a : BpfArg} (ha : a ∈ c.args) : a.name.In (p.scope pre) :=
  fun v hv => mem_append.mpr ((h.ready pre c post hcalls).lock hspin a ha v hv)

theorem RepairInv.paired (h : RepairInv p) {cs : List BpfCall} (hpair : Paired p.calls cs) :
    WellScoped { p with calls := cs } := by
  generalize hcalls : p.calls = calls at hpair
  cases hpair with
  | same =>
    rw [← hcalls]
    exact h.wellScoped
  | before pre post c a helper t hspin ha =>
    exact h.wellScoped.insertLock hcalls helper t (h.lock_in hcalls hspin ha)
  | after pre post c a helper t hspin ha =>
    have hname := h.lock_in hcalls hspin ha
    rw [append_cons] at hcalls ⊢
    refine h.wellScoped.insertLock hcalls helper t ?_
    exact fun v hv => p.scope_append_subset pre [c] (hname v hv)

theorem fixSpinLock_spec {inPlace : ℕ → Bool} (h : RepairInv p)
    (hrun : fixSpinLock inPlace p = some q) : WellScoped q := by
  obtain ⟨s, hs, hq⟩ := bind_eq_some_iff.mp hrun
  cases hq
  have hstart := resolves_range p.calls
  obtain ⟨cs, hcs, hpair⟩ := fixSpinLockFrom_spec h.oneSpin hstart hstart rfl (Nat.zero_add _) hs
  rw [hcs.filterMap]
  exact h.paired hpair

end Pairing

/-- The tables of the source register catalogue entries only. -/
theorem mem_registerHelpers {protos : List Proto} {helper : BpfHelper}
    (h : helper ∈ registerHelpers protos) : ∃ proto, helper = helperFuncMap proto := by
  have hsub : registerHelpers protos ⊆ protos.map helperFuncMap := by
    refine foldl_prefix (fun done hs => hs ⊆ done) (List.Subset.refl _) ?_
    intro done x rest hs _ hdone
    split
    · exact subset_append_of_subset_left _ hdone
    · exact append_subset.mpr ⟨subset_append_of_subset_left _ hdone, subset_append_right _ _⟩
  obtain ⟨proto, -, rfl⟩ := mem_map.mp (hsub h)
  exact ⟨proto, rfl⟩

/-- If the generated program is balanced, then in the rendered seed program every variable is
declared once and ahead of its uses, whatever the draws of the repairs. -/
theorem genSeedBpfProg_wellScoped {fuel : ℕ} {pt : BpfProgType} {regTypes : RegTable → List RegType}
    {order : List ℕ → List ℕ} {inPlace : ℕ → Bool} {draws draws' : Stream' ℕ} {call : BpfCall}
    {st : GenState} {p : BpfProg} (hpt : pt.FromCatalog)
    (hregs : ∀ tb, ∀ rt ∈ regTypes tb, rt ∈ tb.initial)
    (hgen : genBpfProg fuel pt regTypes draws = some ((some call, st), draws'))
    (hbal : Balanced st.prog)
    (hrun : genSeedBpfProg fuel pt regTypes order inPlace draws = some p) : WellScoped p := by
  obtain ⟨rfl, hprog⟩ := genBpfProg_spec fuel pt hregs draws _ draws' hgen call rfl
  obtain ⟨r, hr, hrun⟩ := bind_eq_some_iff.mp hrun
  obtain rfl := some.inj (hgen.symm.trans hr)
  obtain ⟨_, -, hrun⟩ := bind_eq_some_iff.mp hrun
  obtain ⟨⟨⟨_, st'⟩, _⟩, hfix, hrun⟩ := bind_eq_some_iff.mp hrun
  exact fixSpinLock_spec ((fixRef_spec fuel order hprog hpt hbal).of_run hfix) hrun

/-- Draws under which `bpf_sk_lookup_tcp` is called and its socket is released behind it. -/
def lookupDraws : Stream' ℕ := fun n =>
  [11, 0, 1, 1, 0, 1, 1, 0, 1, 1, 0, 8, 1, 1, 0, 0, 1, 1, 0, 8, 1, 1].getD n 0

theorem lookupSeed_wellScoped : ∃ r p, genBpfProg 8 cgroupSockAddr initial lookupDraws =
    some r ∧ r.1.1.isSome ∧ Balanced r.1.2.prog ∧
    genSeedBpfProg 8 cgroupSockAddr initial id (fun _ => true) lookupDraws = some p ∧
    WellScoped p := by
  have hgen : (genBpfProg 8 cgroupSockAddr initial lookupDraws).map
      (fun r => r.1.1.isSome && decide (Balanced r.1.2.prog)) = some true := by decide +kernel
  have hseed : (genSeedBpfProg 8 cgroupSockAddr initial id (fun _ => true)
      lookupDraws).isSome := by decide +kernel
  obtain ⟨⟨⟨call, st⟩, draws⟩, hrun, hr⟩ := map_eq_some_iff.mp hgen
  obtain ⟨p, hp⟩ := isSome_iff_exists.mp hseed
  simp only [Bool.and_eq_true, decide_eq_true_eq] at hr
  obtain ⟨hcall, hbal⟩ := hr
  obtain ⟨c, rfl⟩ := isSome_iff_exists.mp hcall
  exact ⟨_, p, hrun, hcall, hbal, hp, genSeedBpfProg_wellScoped
    (fun _ hhelper => mem_registerHelpers hhelper) (fun _ _ => id) hrun hbal hp⟩

/-- What the repairs get: variables are declared once and ahead of their uses, only the last of the
helpers can return nothing, and at most one call is of a spin lock. -/
theorem genBpfProg_disciplined (fuel : ℕ) {pt : BpfProgType} (hpt : pt.FromCatalog)
    {regTypes : RegTable → List RegType} (hregs : ∀ tb, ∀ rt ∈ regTypes tb, rt ∈ tb.initial) :
    Gen.Ensures (genBpfProg fuel pt regTypes) fun r => ∀ c, r.1 = some c → WellScoped r.2.prog ∧
    r.2.prog.calls.Pairwise fun c d => c.helper.ret ≠ .void ∧ ¬ (c.isSpin ∧ d.isSpin) := by
  intro draws r draws' hrun c hc
  obtain ⟨rfl, h⟩ := genBpfProg_spec fuel pt hregs draws r draws' hrun c hc
  exact ⟨⟨nodup_decls h.once, (h.ready hpt).mono fun _ _ _ hcall => hcall.scope⟩,
    h.produces.and (h.oneSpin hpt)⟩

theorem lookup_disciplined : ∃ r, genBpfProg 8 cgroupSockAddr initial lookupDraws = some r ∧
    r.1.1.isSome ∧ WellScoped r.1.2.prog := by
  have hgen : (genBpfProg 8 cgroupSockAddr initial lookupDraws).map (·.1.1.isSome) = some true := by
    decide +kernel
  obtain ⟨⟨⟨call, st⟩, draws⟩, hrun, hcall⟩ := map_eq_some_iff.mp hgen
  obtain ⟨c, rfl⟩ := isSome_iff_exists.mp hcall
  exact ⟨_, hrun, rfl, (genBpfProg_disciplined 8 (fun _ h => mem_registerHelpers h)
    (fun _ _ => id) _ _ _ hrun c rfl).1⟩

/-- Draws under which a socket of the context is released, and the call that is put first to
acquire one uses the result of a call that ends up last. -/
def releaseDraws : Stream' ℕ := fun n =>
  [13, 0, 1, 0, 1, 0, 1, 1, 0, 1, 1, 0, 8, 1, 1, 0, 0, 0, 0, 1, 1, 0, 5].getD n 0

/-- The call that is put first uses a variable that is declared behind it. -/
theorem releaseSeed_not_wellScoped : ∃ p,
    genSeedBpfProg 8 cgroupSockAddr initial id (fun _ => true) releaseDraws = some p ∧
    ¬ WellScoped p := by
  have hseed : (genSeedBpfProg 8 cgroupSockAddr initial id (fun _ => true)
      releaseDraws).map (fun p => p.calls.head?.map fun c =>
        decide (14 ∈ c.uses p ∧ 14 ∉ p.globals ∧ 14 ∉ c.locals)) = some (some true) := by
    decide +kernel
  obtain ⟨p, hp, hfirst⟩ := map_eq_some_iff.mp hseed
  obtain ⟨c, hc, hbad⟩ := map_eq_some_iff.mp hfirst
  obtain ⟨huse, hglobal, hlocal⟩ := of_decide_eq_true hbad
  refine ⟨p, hp, fun hscoped => ?_⟩
  obtain ⟨rest, hcalls⟩ := head?_eq_some_iff.mp hc
  rcases (hscoped.order [] c rest hcalls).uses 14 huse with h | h | h
  · exact hglobal h
  · cases h
  · exact hlocal h

end Brf.HelperCalls
