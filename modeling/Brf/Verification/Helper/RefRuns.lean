import Brf.Verification.Helper.Refs
import Brf.Verification.Helper.Requirements

/-! # References in runs

A run of the rendered function makes the calls one after the other, each if its guard is true,
and keeps account of the sockets and ring buffer records that are acquired and not yet released.
After the repair every run releases what it acquires, when the program acquires what it releases,
itself and once, and releases its sockets. -/

namespace Brf.HelperCalls

open Brf.Lib List Function BpfCall

instance (p : BpfProg) (c : BpfCall) (ρ : Valuation) : Decidable (guardHolds p c ρ) :=
  match h : CExpr.read (c.guardText p) with
  | none => decidable_of_iff (getArgConstraints p c = []) (by simp [guardHolds, h])
  | some e => decidable_of_iff (getArgConstraints p c = [] ∨ (e.eval ρ).truthy)
      (by simp [guardHolds, h])

/-- A point of a run: the values of the variables, the acquired reference each of them holds, and
the references that are not released yet. A reference is known by the variable it was first
assigned to. -/
structure RunState where
  vals : Valuation
  holds : ℕ → Option ℕ
  live : List ℕ

def firstName (args : List BpfArg) : ArgName := (args.head?.map BpfArg.name).getD .zero

namespace BpfCall

variable (p : BpfProg) (c : BpfCall)

/-- The variable that the call gives an acquired reference, and its kind. -/
def acquires : Option (ℕ × RefType) := do
  let typ ← (isRefAcquireCall p c).join
  let v ← c.ret
  pure (v, typ)

def released : Option ArgName := (isRefReleaseCall c.helper).map fun _ => firstName c.args

/-- The declarations of a call: numbers for its arguments, and a result that is zero. -/
def declare (ρ : Valuation) : Valuation :=
  let ρ := c.args.foldl (fun ρ a => match a.prep.number with
    | some (v, n) => update ρ v ⟨BitVec.ofNat 64 n, true⟩
    | none => ρ) ρ
  c.typedRet.foldl (fun ρ v => update ρ v ⟨0, false⟩) ρ

end BpfCall

namespace RunState

def start (ρ : Valuation) : RunState := ⟨ρ, fun _ => none, []⟩

/-- A release fails unless it is given a variable that holds a reference not released before. -/
def release (s : RunState) : ArgName → Option RunState
  | .var v => do
    let ref ← s.holds v
    if ref ∈ s.live then pure { s with live := s.live.erase ref } else none
  | _ => none

def releaseBy (helper : BpfHelper) (args : List BpfArg) (s : RunState) : Option RunState :=
  if (isRefReleaseCall helper).isSome then s.release (firstName args) else some s

/-- The result of a call is assigned. It holds the reference that is acquired, or the one that the
argument of a cast holds, unless it is null. -/
def assign (p : BpfProg) (out : ℕ → BitVec 64) (c : BpfCall) (s : RunState) : RunState :=
  match c.typedRet.head? with
  | none => s
  | some v =>
    let s := { s with vals := update s.vals v ⟨out v, false⟩ }
    if out v = 0#64 then s
    else if (c.acquires p).isSome then
      { s with holds := update s.holds v (some v), live := v :: s.live }
    else if isRefPropagateCall c.helper then
      { s with holds := update s.holds v ((firstName c.args).var?.bind s.holds) }
    else s

/-- One call with the calls behind it, within its guard; `out` are the results of the calls that
are made. -/
def step (p : BpfProg) (out : ℕ → BitVec 64) (s : RunState) (c : BpfCall) :
    Option RunState :=
  let s := { s with vals := c.declare s.vals }
  if guardHolds p c s.vals then do
    let s ← s.releaseBy c.helper c.args
    c.postCalls.foldlM (fun s pc => s.releaseBy pc.helper pc.args) (s.assign p out c)
  else some s

end RunState

/-- Every run releases each reference it acquires once, and nothing else. -/
def RefSafe (p : BpfProg) : Prop :=
  ∀ ρ out, ∃ s, p.calls.foldlM (RunState.step p out) (.start ρ) = some s ∧ s.live = []

/-- The variables that the calls give acquired references. -/
def acquiredVars (p : BpfProg) (calls : List BpfCall) : List ℕ :=
  (calls.filterMap (acquires p)).map Prod.fst

def releasedNames (calls : List BpfCall) : List ArgName := calls.filterMap released

/-- A call that releases something is given a variable that one of the calls before it has
acquired, and is guarded by the test of that variable alone. -/
def ReleasesAcquired (p : BpfProg) (before : List BpfCall) (c : BpfCall) : Prop :=
  ∀ name, c.released = some name → ∃ v, name = .var v ∧ v ∈ acquiredVars p before ∧
    getArgConstraints p c = [[.var v]]

structure RefPaired (p : BpfProg) : Prop where
  nodup : (p.calls.flatMap decls).Nodup
  typed : ∀ c ∈ p.calls, ∀ e, c.acquires p = some e → c.retType ≠ ""
  acquired : EachAfter (ReleasesAcquired p) p.calls
  once : (releasedNames p.calls).Nodup
  all : ∀ v ∈ acquiredVars p p.calls, ArgName.var v ∈ releasedNames p.calls
  plain : ∀ c ∈ p.calls, c.postCalls = []

section Account

variable {acq : List ℕ} {rel : List ArgName} {s : RunState} {v : ℕ}

/-- The account of a run that may have acquired references for the variables `acq`, which `rel`
were to release. -/
structure Account (acq : List ℕ) (rel : List ArgName) (s : RunState) : Prop where
  nodup : s.live.Nodup
  live : ∀ v, v ∈ s.live ↔ v ∈ acq ∧ (s.vals v).bits ≠ 0 ∧ ArgName.var v ∉ rel
  holds : ∀ v ∈ acq, (s.vals v).bits ≠ 0 → s.holds v = some v

namespace Account

theorem start (ρ : Valuation) : Account [] [] (.start ρ) := by
  constructor <;> simp [RunState.start]

section

variable (h : Account acq rel s)

include h

theorem withVals {ρ : Valuation} (hρ : ∀ v ∈ acq, ρ v = s.vals v) :
    Account acq rel { s with vals := ρ } where
  nodup := h.nodup
  live u := by
    rw [h.live]
    refine and_congr_right fun hu => ?_
    dsimp only
    rw [hρ u hu]
  holds u hu hne := h.holds u hu (hρ u hu ▸ hne)

theorem withHolds (hv : v ∉ acq) (ref : Option ℕ) :
    Account acq rel { s with holds := update s.holds v ref } where
  nodup := h.nodup
  live := h.live
  holds u hu hne := by
    have huv : u ≠ v := fun heq => hv (heq ▸ hu)
    exact (update_of_ne huv ref s.holds).trans (h.holds u hu hne)

theorem release_null (hnull : (s.vals v).bits = 0) : Account acq (rel ++ [.var v]) s where
  nodup := h.nodup
  live u := by
    rw [h.live]
    refine and_congr_right fun _ => and_congr_right fun hne => ?_
    have huv : u ≠ v := fun heq => hne (heq ▸ hnull)
    simp [huv]
  holds := h.holds

theorem release (hv : v ∈ acq) (hne : (s.vals v).bits ≠ 0) (hrel : .var v ∉ rel) :
    s.release (.var v) = some { s with live := s.live.erase v } ∧
      Account acq (rel ++ [.var v]) { s with live := s.live.erase v } := by
  have hlive : v ∈ s.live := (h.live v).mpr ⟨hv, hne, hrel⟩
  refine ⟨by simp [RunState.release, h.holds v hv hne, hlive], h.nodup.erase v, ?_, h.holds⟩
  simp only [h.nodup.mem_erase_iff, h.live, mem_append, mem_singleton, ArgName.var.injEq, not_or]
  tauto

theorem acquire_null (hnull : (s.vals v).bits = 0) : Account (acq ++ [v]) rel s where
  nodup := h.nodup
  live u := by
    simp only [h.live, mem_append, mem_singleton, or_and_right, iff_self_or]
    rintro ⟨rfl, hne, -⟩
    exact absurd hnull hne
  holds u hu hne := by
    rcases mem_append.mp hu with hu | hu
    · exact h.holds u hu hne
    · exact absurd (mem_singleton.mp hu ▸ hnull) hne

theorem acquire (hv : v ∉ acq) (hrel : .var v ∉ rel) (hne : (s.vals v).bits ≠ 0) :
    Account (acq ++ [v]) rel
      { s with holds := update s.holds v (some v), live := v :: s.live } where
  nodup := nodup_cons.mpr ⟨fun hlive => hv ((h.live v).mp hlive).1, h.nodup⟩
  live u := by
    simp only [mem_cons, h.live, mem_append, not_mem_nil, or_false]
    constructor
    · rintro (rfl | ⟨hu, hrest⟩)
      · exact ⟨.inr rfl, hne, hrel⟩
      · exact ⟨.inl hu, hrest⟩
    · rintro ⟨hu | rfl, hrest⟩
      · exact .inr ⟨hu, hrest⟩
      · exact .inl rfl
  holds u hu hbits := by
    by_cases huv : u = v
    · rw [huv]
      exact update_self v (some v) s.holds
    · have hold : u ∈ acq := by simpa [huv] using hu
      exact (update_of_ne huv (some v) s.holds).trans (h.holds u hold hbits)

end

end Account

end Account

section Run

variable {p : BpfProg} {done rest : List BpfCall} {c : BpfCall} {s : RunState}
  {out : ℕ → BitVec 64} {v : ℕ} {e : ℕ × RefType}

theorem BpfCall.acquires_ret (h : c.acquires p = some e) : c.ret = some e.1 := by
  obtain ⟨typ, -, h⟩ := Option.bind_eq_some_iff.mp h
  obtain ⟨v, hv, h⟩ := Option.bind_eq_some_iff.mp h
  cases h
  exact hv

theorem BpfCall.typedRet_of_acquires (h : c.acquires p = some e)
    (htyped : c.retType ≠ "") : c.typedRet = [e.1] := by
  simp [typedRet, htyped, acquires_ret h]

variable {calls : List BpfCall}

theorem mem_acquiredVars :
    v ∈ acquiredVars p calls ↔ ∃ c ∈ calls, ∃ typ, c.acquires p = some (v, typ) := by
  simp only [acquiredVars, mem_map, mem_filterMap, Prod.exists, exists_and_right, exists_eq_right]
  exact ⟨fun ⟨typ, c, hc, h⟩ => ⟨c, hc, typ, h⟩, fun ⟨c, hc, typ, h⟩ => ⟨typ, c, hc, h⟩⟩

theorem BpfCall.declare_of_not_mem (ρ : Valuation) (h : v ∉ c.decls) : c.declare ρ v = ρ v := by
  simp only [decls, mem_append, not_or] at h
  have hargs : ∀ (args : List BpfArg) (ρ : Valuation), v ∉ args.flatMap (fun a => a.prep.vars) →
      args.foldl (fun ρ a => match a.prep.number with
        | some (v, n) => update ρ v ⟨BitVec.ofNat 64 n, true⟩
        | none => ρ) ρ v = ρ v := by
    intro args
    induction args with
    | nil => exact fun _ _ => rfl
    | cons a args ih =>
      intro ρ hv
      simp only [flatMap_cons, mem_append, not_or] at hv
      rw [foldl_cons, ih _ hv.2]
      cases hprep : a.prep with
      | none | chars => simp [Prepare.number]
      | int64 w n | int64Scratch w _ n =>
        have hne : v ≠ w := by simpa [hprep, Prepare.vars] using hv.1
        simp [Prepare.number, hne]
  have hret : ∀ (vs : List ℕ) (ρ : Valuation), v ∉ vs →
      vs.foldl (fun ρ w => update ρ w ⟨0, false⟩) ρ v = ρ v := by
    intro vs
    induction vs with
    | nil => exact fun _ _ => rfl
    | cons w vs ih =>
      intro ρ hv
      obtain ⟨hne, hvs⟩ := not_or.mp (mt mem_cons.mpr hv)
      rw [foldl_cons, ih _ hvs, update_of_ne hne]
  exact (hret _ _ h.2).trans (hargs _ _ h.1)

theorem guardHolds_var (h : getArgConstraints p c = [[.var v]]) (ρ : Valuation) :
    guardHolds p c ρ ↔ (ρ v).bits ≠ 0 := by
  obtain ⟨e, hread, heval⟩ := CExpr.read_conj (conditions_var (v := v)) (by simp)
  have htruthy : (e.eval ρ).truthy = (ρ v).truthy := by
    simpa only [all_cons, all_nil, Bool.and_true, CExpr.Expr.eval] using heval ρ
  rw [← CExpr.CVal.truthy_iff, ← htruthy]
  simp [guardHolds, guardText, h, hread]

theorem acquiredVars_concat (p : BpfProg) (done : List BpfCall) (c : BpfCall) :
    acquiredVars p (done ++ [c]) = acquiredVars p done ++ (c.acquires p).toList.map Prod.fst := by
  cases h : c.acquires p <;> simp [acquiredVars, h]

theorem releasedNames_concat (done : List BpfCall) (c : BpfCall) :
    releasedNames (done ++ [c]) = releasedNames done ++ c.released.toList := by
  cases h : c.released <;> simp [releasedNames, h]

theorem RunState.releaseBy_eq (s : RunState) {name : ArgName} (h : c.released = some name) :
    s.releaseBy c.helper c.args = s.release name := by
  obtain ⟨typ, htyp, rfl⟩ := Option.map_eq_some_iff.mp h
  simp [RunState.releaseBy, htyp]

theorem mem_acquiredVars_of_released (h : EachAfter (ReleasesAcquired p) calls)
    (hv : .var v ∈ releasedNames calls) : v ∈ acquiredVars p calls := by
  obtain ⟨d, hd, hrel⟩ := mem_filterMap.mp hv
  obtain ⟨pre, post, rfl⟩ := append_of_mem hd
  obtain ⟨w, hw, hacq, -⟩ := h pre d post rfl _ hrel
  cases hw
  obtain ⟨e, he, hacq⟩ := mem_acquiredVars.mp hacq
  exact mem_acquiredVars.mpr ⟨e, mem_append_left _ he, hacq⟩

namespace RefPaired

section

variable (h : RefPaired p)

include h

section

variable (hcalls : p.calls = done ++ c :: rest)

include hcalls

theorem fresh (hv : v ∈ acquiredVars p done) : v ∉ c.decls := by
  obtain ⟨d, hd, typ, hacq⟩ := mem_acquiredVars.mp hv
  have hdecl : v ∈ d.decls := by
    have htyped := h.typed d (by simp [hcalls, hd]) _ hacq
    simp [decls, typedRet_of_acquires hacq htyped]
  have hnodup := h.nodup
  rw [hcalls, flatMap_append] at hnodup
  intro hvc
  exact (nodup_append.mp hnodup).2.2 v (mem_flatMap.mpr ⟨d, hd, hdecl⟩) v
    (mem_append_left _ hvc) rfl

theorem release (hacc : Account (acquiredVars p done) (releasedNames done) s)
    (hguard : guardHolds p c s.vals) : ∃ s', s.releaseBy c.helper c.args = some s' ∧
    Account (acquiredVars p done) (releasedNames (done ++ [c])) s' := by
  rw [releasedNames_concat]
  cases hrel : c.released with
  | none =>
    have hno : isRefReleaseCall c.helper = none := Option.map_eq_none_iff.mp hrel
    exact ⟨s, by simp [RunState.releaseBy, hno], by simpa using hacc⟩
  | some name =>
    obtain ⟨v, rfl, hv, hconstraints⟩ := h.acquired done c rest hcalls name hrel
    have hne := (guardHolds_var hconstraints s.vals).mp hguard
    have hnew : ArgName.var v ∉ releasedNames done := by
      have honce := h.once
      rw [hcalls, releasedNames, filterMap_append, filterMap_cons, hrel] at honce
      intro hold
      exact (nodup_append.mp honce).2.2 _ hold _ mem_cons_self rfl
    obtain ⟨hrun, hacc'⟩ := hacc.release hv hne hnew
    exact ⟨_, (s.releaseBy_eq hrel).trans hrun, hacc'⟩

theorem typedRet (hacq : c.acquires p = some e) : c.typedRet = [e.1] :=
  typedRet_of_acquires hacq (h.typed c (by simp [hcalls]) e hacq)

theorem assign {rel : List ArgName} (hacc : Account (acquiredVars p done) rel s)
    (hrel : ∀ v, .var v ∈ rel → v ∈ acquiredVars p done) :
    Account (acquiredVars p (done ++ [c])) rel (s.assign p out c) := by
  rw [acquiredVars_concat]
  cases hret : c.typedRet.head? with
  | none =>
    have hnone : c.acquires p = none := by
      by_contra hsome
      obtain ⟨e, he⟩ := Option.ne_none_iff_exists'.mp hsome
      simp [h.typedRet hcalls he] at hret
    simpa [RunState.assign, hret, hnone] using hacc
  | some v =>
    have hfresh : v ∉ acquiredVars p done := by
      intro hv
      refine h.fresh hcalls hv (mem_append_right _ ?_)
      exact mem_of_mem_head? hret
    have hvals : Account (acquiredVars p done) rel
        { s with vals := update s.vals v ⟨out v, false⟩ } := by
      refine hacc.withVals fun u hu => update_of_ne ?_ _ _
      exact fun heq => hfresh (heq ▸ hu)
    have hvar : ∀ e, c.acquires p = some e → e.1 = v := by
      intro e he
      simpa [h.typedRet hcalls he] using hret
    have hbits : (update s.vals v ⟨out v, false⟩ v).bits = out v := by simp
    by_cases hzero : out v = 0#64
    · cases hacq : c.acquires p with
      | none => simpa [RunState.assign, hret, hzero] using hvals
      | some e =>
        obtain rfl := hvar e hacq
        simpa [RunState.assign, hret, hzero] using hvals.acquire_null (hbits.trans hzero)
    · cases hacq : c.acquires p with
      | none =>
        by_cases hprop : isRefPropagateCall c.helper
        · simpa [RunState.assign, hret, hzero, hacq, hprop] using hvals.withHolds hfresh _
        · simpa [RunState.assign, hret, hzero, hacq, hprop] using hvals
      | some e =>
        obtain rfl := hvar e hacq
        have hnew := hvals.acquire hfresh (fun hmem => hfresh (hrel _ hmem))
          (by rw [hbits]; exact hzero)
        simpa [RunState.assign, hret, hzero, hacq] using hnew

theorem skip (hacc : Account (acquiredVars p done) (releasedNames done) s)
    (hguard : ¬ guardHolds p c s.vals) (hnull : ∀ v, c.typedRet = [v] → (s.vals v).bits = 0) :
    Account (acquiredVars p (done ++ [c])) (releasedNames (done ++ [c])) s := by
  have hrel : Account (acquiredVars p done) (releasedNames (done ++ [c])) s := by
    rw [releasedNames_concat]
    cases hrel : c.released with
    | none => simpa using hacc
    | some name =>
      obtain ⟨v, rfl, -, hconstraints⟩ := h.acquired done c rest hcalls name hrel
      refine hacc.release_null ?_
      by_contra hne
      exact hguard ((guardHolds_var hconstraints s.vals).mpr hne)
  rw [acquiredVars_concat]
  cases hacq : c.acquires p with
  | none => simpa using hrel
  | some e => exact hrel.acquire_null (hnull _ (h.typedRet hcalls hacq))

theorem mem_acquired_of_released
    (hv : .var v ∈ releasedNames (done ++ [c])) : v ∈ acquiredVars p done := by
  have hacq := h.acquired
  rw [hcalls] at hacq
  have hdone := (eachAfter_append.mp hacq).1
  rw [releasedNames_concat, mem_append, Option.mem_toList] at hv
  rcases hv with hv | hv
  · exact mem_acquiredVars_of_released hdone hv
  · obtain ⟨w, hw, hmem, -⟩ := h.acquired done c rest hcalls _ hv
    cases hw
    exact hmem

/-- A call keeps the account of what is held. -/
theorem step (hacc : Account (acquiredVars p done) (releasedNames done) s) : ∃ s', s.step p out c =
    some s' ∧ Account (acquiredVars p (done ++ [c])) (releasedNames (done ++ [c])) s' := by
  have hdeclared : Account (acquiredVars p done) (releasedNames done)
      { s with vals := c.declare s.vals } :=
    hacc.withVals fun v hv => declare_of_not_mem _ (h.fresh hcalls hv)
  by_cases hguard : guardHolds p c (c.declare s.vals)
  · obtain ⟨s1, hrun, hacc1⟩ := h.release hcalls hdeclared hguard
    refine ⟨s1.assign p out c, ?_, h.assign hcalls hacc1 fun v => h.mem_acquired_of_released hcalls⟩
    simp [RunState.step, hguard, hrun, h.plain c (by simp [hcalls])]
  · refine ⟨_, by simp [RunState.step, hguard], h.skip hcalls hdeclared hguard ?_⟩
    exact fun v hv => by simp [declare, hv]

end

/-- The account behind the last call leaves nothing held. -/
theorem refSafe : RefSafe p := by
  intro ρ out
  obtain ⟨s, hrun, hacc⟩ := foldlM_prefix
    (fun done s => Account (acquiredVars p done) (releasedNames done) s) (Account.start ρ)
    fun done c rest s hcalls hacc => h.step hcalls hacc
  refine ⟨s, hrun, eq_nil_iff_forall_not_mem.mpr fun v hv => ?_⟩
  obtain ⟨hacq, -, hrel⟩ := (hacc.live v).mp hv
  exact hrel (h.all v hacq)

end

end RefPaired

end Run

end Brf.HelperCalls
