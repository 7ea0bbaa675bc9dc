import Brf.Verification.StructOps.Execution
import Mathlib.Data.List.TakeWhile

/-! # Null checks before uses

For one variable `v` the guard monitor is tainted from the moment a KF_RET_NULL pointer is
stored in `v` until a check finds it non-null. Taint only outlives a statement when `v` is the
loop variable of a finished iterator, and then scoping keeps `v` out of what follows. -/

namespace Brf.StructOps

open Brf.Lib Brf.Lib.MiniC List StructOpsStmt

def bindsNullable (v : String) : Event → Bool
  | .bindNullable x => x = v
  | _ => false

def checkedNonNull (v : String) : Event → Bool
  | .check x isNull => x = v && !isNull
  | _ => false

def usesVar (v : String) : Event → Bool
  | .use x => x = v
  | _ => false

def nullRun (v : String) (tainted : Bool) (t : List Event) : Option Bool :=
  guardRun (bindsNullable v) (checkedNonNull v) (usesVar v) tainted t

theorem nullRun_append (v : String) (b : Bool) (t u : List Event) :
    nullRun v b (t ++ u) = (nullRun v b t).bind (nullRun v · u) :=
  guardRun_append b t u

variable {b : Bool} {v : String}

theorem nullRun_uses (xs : List String) (h : b → v ∉ xs) :
    nullRun v b (xs.map Event.use) = some b := by
  induction xs with
  | nil => rfl
  | cons x xs ih =>
    have hrest : b → v ∉ xs := fun hb hmem => h hb (mem_cons_of_mem x hmem)
    have hx : (usesVar v (.use x) && b) = false := by
      cases b with
      | false => simp
      | true =>
        have hne : x ≠ v := fun he => h rfl (by simp [he])
        simp [usesVar, hne]
    rw [map_cons, nullRun, guardRun_cons]
    simpa [nullRun, guardStep, bindsNullable, checkedNonNull, hx] using ih hrest

variable {fn : String} {args : List String}

theorem nullRun_callEvents
    (h : b → v ∉ args.map operandRoot) : nullRun v b (callEvents fn args) = some b := by
  have huses : args.map (fun a => Event.use (operandRoot a)) =
      (args.map operandRoot).map Event.use := by simp
  rw [callEvents, nullRun_append, huses, nullRun_uses _ h]
  rfl

variable {x : String}

theorem nullRun_bind_check {nullable : String → Bool} :
    nullRun v b (bindEvents nullable fn x ++ [.check x false]) =
      some (if x = v then false else b) := by
  by_cases hx : x = v <;> cases hn : nullable fn <;>
    simp [nullRun, bindEvents, hn, guardRun_cons, guardStep, bindsNullable, checkedNonNull,
      usesVar, hx]

theorem nullRun_bind_null {nullable : String → Bool} :
    nullRun v b (bindEvents nullable fn x ++ [.check x true]) =
      some (if x = v ∧ nullable fn then true else b) := by
  by_cases hx : x = v <;> cases hn : nullable fn <;>
    simp [nullRun, bindEvents, hn, guardRun_cons, guardStep, bindsNullable, checkedNonNull,
      usesVar, hx]

theorem accessorBase_localName (t : NameTag) (n : ℕ) :
    accessorBase (localName t n) = localName t n := by
  apply String.toList_injective
  rw [accessorBase, String.toList_ofList, takeWhile_eq_self_iff]
  exact ne_dash_of_mem_localName

/-- The first character of a name is not one that an operand's cast or address-of starts
with. -/
def Plain (x : String) : Prop :=
  x.toList.head? ≠ some '(' ∧ x.toList.head? ≠ some '&'

theorem plain_localName (t : NameTag) (n : ℕ) : Plain (localName t n) := by
  cases t <;> simp [Plain, localName, localVar, subflowVar, iterVar]

theorem operandRoot_of_plain (h : Plain x) : operandRoot x = accessorBase x := by
  unfold operandRoot accessorBase
  unfold Plain at h
  generalize x.toList = cs at h
  unfold operandRootChars
  split
  · simp at h
  · simp at h
  · rfl

theorem plain_of_plain_accessorBase (h : Plain (accessorBase x)) : Plain x := by
  unfold Plain accessorBase at *
  cases hx : x.toList with
  | nil => simp
  | cons c cs =>
    rw [hx] at h
    refine ⟨?_, ?_⟩
    · rintro hc
      obtain rfl : c = '(' := by simpa using hc
      simp at h
    · rintro hc
      obtain rfl : c = '&' := by simpa using hc
      simp at h

theorem operandRoot_iterVar (n : ℕ) : operandRoot ("&" ++ iterVar n) = iterVar n := by
  have hbase := accessorBase_localName .iter n
  rw [operandRoot, String.toList_append]
  exact hbase

/-! ### Scopes whose operands stay inside -/

structure EnvOk (env : List TypedVal) : Prop where
  plain : ∀ x, Declared env x → Plain x
  rooted : ∀ x, Declared env x → Declared env (accessorBase x)
  msk : Declared env "msk"

variable {env more : List TypedVal}

theorem declared_append : Declared (env ++ more) x ↔ Declared env x ∨ Declared more x := by
  simp [Declared, mem_append, exists_or]

theorem EnvOk.append (h : EnvOk env)
    (hmore : ∀ x, Declared more x → ∃ t n, x = localName t n) : EnvOk (env ++ more) where
  plain x hx := by
    rcases declared_append.mp hx with hx | hx
    · exact h.plain x hx
    · obtain ⟨t, n, rfl⟩ := hmore x hx
      exact plain_localName t n
  rooted x hx := by
    rcases declared_append.mp hx with hx | hx
    · exact declared_append.mpr (.inl (h.rooted x hx))
    · obtain ⟨t, n, rfl⟩ := hmore x hx
      rw [accessorBase_localName]
      exact declared_append.mpr (.inr hx)
  msk := declared_append.mpr (.inl h.msk)

theorem EnvOk.operandRoot_accessor (h : EnvOk env) {accessor : String}
    (ha : Declared env (accessorBase accessor)) : Declared env (operandRoot accessor) := by
  rw [operandRoot_of_plain (plain_of_plain_accessorBase (h.plain _ ha))]
  exact ha

theorem EnvOk.operandRoot_name (h : EnvOk env)
    (hx : Declared env x) : Declared env (operandRoot x) := by
  rw [operandRoot_of_plain (h.plain x hx)]
  exact h.rooted x hx

/-- What ties the names a body declares to the scope it stands in. -/
structure NamesOk (env : List TypedVal) (names : List String) : Prop where
  nodup : names.Nodup
  generated : ∀ x ∈ names, ∃ t n, x = localName t n
  apart : ∀ x ∈ names, ¬ Declared env x

theorem localName_ne_literal (t : NameTag) (n : ℕ) :
    localName t n ≠ "true" ∧ localName t n ≠ "false" := by
  refine ⟨fun h => ?_, fun h => ?_⟩ <;>
  · have := congrArg (fun s => s.toList.head?) h
    cases t <;> simp [localName, localVar, subflowVar, iterVar] at this

variable {names : List String} {names' : List String}

theorem NamesOk.sublist
    (h : NamesOk env names) (hs : names'.Sublist names) : NamesOk env names' where
  nodup := h.nodup.sublist hs
  generated x hx := h.generated x (hs.subset hx)
  apart x hx := h.apart x (hs.subset hx)

variable {xs : List String} {ys : List String}

theorem NamesOk.tail (h : NamesOk env (xs ++ ys))
    (hmore : ∀ x, Declared more x → x ∈ xs) : NamesOk (env ++ more) ys where
  nodup := (nodup_append.mp h.nodup).2.1
  generated x hx := h.generated x (mem_append_right xs hx)
  apart x hx hd := by
    rcases declared_append.mp hd with hd | hd
    · exact h.apart x (mem_append_right xs hx) hd
    · exact (nodup_append.mp h.nodup).2.2 x (hmore x hd) x hx rfl

variable {st : StructOpsStmt}

theorem mem_declaredNames_of_locals (h : Declared st.locals x) : x ∈ st.declaredNames := by
  obtain ⟨t, ht⟩ := h
  cases st with
  | kfuncCall ki args var ctype guard =>
    by_cases hv : var = ""
    · simp [locals, hv] at ht
    · simp only [locals, hv, if_false, mem_singleton] at ht
      cases ht
      simp [StructOpsStmt.declaredNames, hv]
  | _ => simp_all [StructOpsStmt.locals, StructOpsStmt.declaredNames]

/-! ### Taint along a body -/

/-- `v` may be tainted only while nothing in scope or still to come refers to it. -/
def TaintOk (v : String) (b : Bool) (env : List TypedVal) (names : List String) : Prop :=
  b → ¬ Declared env v ∧ v ∉ names ∧ v ≠ "true" ∧ v ≠ "false"

/-- The monitor survives the trace; taint left at its end belongs to no visible name and is
old unless an iterator of the body brought it in. -/
def NullPost (v : String) (b allowIter : Bool) (env : List TypedVal) (names : List String)
    (t : List Event) (o : Option ℤ) : Prop :=
  ∃ b', nullRun v b t = some b' ∧ (o = none → b' → ¬ Declared env v ∧ (b ∨ (allowIter ∧ v ∈ names)))

theorem TaintOk.not_mem_roots (h : TaintOk v b env names)
    (hx : ∀ x ∈ xs, Declared env x ∨ x ∈ names ∨ x = "true" ∨ x = "false") :
    b → v ∉ xs := by
  intro hb hmem
  obtain ⟨henv, hnames, ht, hf⟩ := h hb
  rcases hx v hmem with h | h | h | h
  · exact henv h
  · exact hnames h
  · exact ht h
  · exact hf h

theorem TaintOk.nullRun_use (h : TaintOk v b env names) (hx : Declared env x) :
    nullRun v b [.use x] = some b := by
  refine nullRun_uses [x] (h.not_mem_roots fun y hy => .inl ?_)
  obtain rfl := mem_singleton.mp hy
  exact hx

variable {allowIter : Bool} {t : List Event} {o : Option ℤ} {u : List Event}

theorem NullPost.append {env' env'' : List TypedVal} (hnames : NamesOk env (xs ++ ys))
    (hb : TaintOk v b env (xs ++ ys)) (ht : NullPost v b allowIter env' xs t none)
    (hu : ∀ b', TaintOk v b' env' ys → NullPost v b' allowIter env'' ys u o) :
    NullPost v b allowIter env'' (xs ++ ys) (t ++ u) o := by
  obtain ⟨b1, hrun1, hpost1⟩ := ht
  have hb1 : TaintOk v b1 env' ys := by
    intro hb1
    obtain ⟨henv, hcause⟩ := hpost1 rfl hb1
    rcases hcause with hb' | ⟨-, hmem⟩
    · obtain ⟨-, hnot, hlit⟩ := hb hb'
      exact ⟨henv, fun h => hnot (mem_append_right xs h), hlit⟩
    · refine ⟨henv, fun h => (nodup_append.mp hnames.nodup).2.2 v hmem v h rfl, ?_⟩
      obtain ⟨tag, n, rfl⟩ := hnames.generated v (mem_append_left ys hmem)
      exact localName_ne_literal tag n
  obtain ⟨b2, hrun2, hpost2⟩ := hu b1 hb1
  refine ⟨b2, by rw [nullRun_append, hrun1]; exact hrun2, ?_⟩
  intro ho hb2
  obtain ⟨henv, hcause⟩ := hpost2 ho hb2
  refine ⟨henv, ?_⟩
  rcases hcause with hb1' | ⟨hi, hmem⟩
  · rcases (hpost1 rfl hb1').2 with hb' | ⟨hi, hmem⟩
    · exact .inl hb'
    · exact .inr ⟨hi, mem_append_left ys hmem⟩
  · exact .inr ⟨hi, mem_append_right xs hmem⟩

theorem TaintOk.subset
    (h : TaintOk v b env names) (hs : names' ⊆ names) : TaintOk v b env names' := by
  intro hb
  obtain ⟨henv, hnames, hlit⟩ := h hb
  exact ⟨henv, fun hm => hnames (hs hm), hlit⟩

variable {body : List StructOpsStmt}

/-- A branch seen from the block around it, where its locals are gone. -/
theorem NullPost.branch {all : List String} {c : List Event}
    (h : NullPost v b allowIter (envAfter env body) names u o) (hc : nullRun v b c = some b)
    (hs : names ⊆ all) : NullPost v b allowIter env all (c ++ u) o := by
  obtain ⟨b', hrun, hpost⟩ := h
  refine ⟨b', by rw [nullRun_append, hc]; exact hrun, ?_⟩
  intro ho hb'
  obtain ⟨henv, hcause⟩ := hpost ho hb'
  refine ⟨fun hd => henv (hd.append _), ?_⟩
  exact hcause.imp_right (fun hi => ⟨hi.1, hs hi.2⟩)

theorem nullPost_unchanged (hb : TaintOk v b env st.declaredNames) (hrun : nullRun v b t = some b) :
    NullPost v b allowIter (env ++ st.locals) st.declaredNames t o := by
  refine ⟨b, hrun, fun _ hb' => ⟨?_, .inl hb'⟩⟩
  obtain ⟨henv, hnames, -⟩ := hb hb'
  intro hd
  rcases declared_append.mp hd with hd | hd
  · exact henv hd
  · exact hnames (mem_declaredNames_of_locals hd)

theorem declared_of_argFits (henv : EnvOk env) {pts : List String}
    (h : List.Forall₂ (ArgFits env) args pts) :
    ∀ x ∈ args.map operandRoot, Declared env x ∨ x ∈ names ∨ x = "true" ∨ x = "false" := by
  intro x hx
  obtain ⟨a, ha, rfl⟩ := mem_map.mp hx
  obtain ⟨pt, -, hfit⟩ : ∃ pt, pt ∈ pts ∧ ArgFits env a pt := by
    induction h with
    | nil => simp at ha
    | cons hfit _ ih =>
      rcases mem_cons.mp ha with rfl | ha
      · exact ⟨_, mem_cons_self, hfit⟩
      · obtain ⟨pt, hpt, hfit⟩ := ih ha (mem_map_of_mem ha)
        exact ⟨pt, mem_cons_of_mem _ hpt, hfit⟩
  rcases hfit with ⟨t, hmem, -⟩ | ⟨-, rfl | rfl⟩
  · exact .inl (henv.operandRoot_name ⟨t, hmem⟩)
  · exact .inr (.inr (.inl (by decide)))
  · exact .inr (.inr (.inr (by decide)))

theorem events_condToC (condVar condOp : String) (condVal : ℤ) :
    (condToC condVar condOp condVal).events = [.use (operandRoot condVar)] := by
  unfold condToC
  split <;> rfl

section Bodies

variable {nullable : String → Bool} {v : String}
  (hnull : ∀ kf ∈ mptcpSchedKfuncs, nullable kf.name → kf.needsNullGuard)

include hnull in
theorem nullPost_kfuncCall {noReturn nullGuard : Bool} {ki : ℕ} {var ctype : String}
    (hst : st = .kfuncCall ki args var ctype nullGuard)
    (hd : DisciplinedStmt mptcpSchedKfuncs noReturn allowIter st)
    (hs : ScopedStmt mptcpSchedKfuncs env st) (henv : EnvOk env)
    (hb : TaintOk v b env st.declaredNames) (h : ExecBlock nullable (st.toC mptcpSchedKfuncs) t o) :
    NullPost v b allowIter (env ++ st.locals) st.declaredNames t o := by
  subst hst
  obtain ⟨kf, hget, -, hguard, -⟩ := hd
  obtain ⟨kf', hget', hfits⟩ := hs
  obtain rfl : kf = kf' := by simpa [hget] using hget'
  have hname : kfuncName mptcpSchedKfuncs ki = kf.name := by simp [kfuncName, hget]
  have hcall : nullRun v b (callEvents kf.name args) = some b :=
    nullRun_callEvents (hb.not_mem_roots (declared_of_argFits henv hfits))
  rw [toC, hname] at h
  by_cases hv : var = ""
  · obtain rfl : nullGuard = false := by simpa [hv] using hguard
    simp only [hv, if_true, Bool.false_eq_true, if_false] at h
    obtain ⟨rfl, rfl⟩ := execBlock_singleton.mp h
    exact nullPost_unchanged hb hcall
  · simp only [hv, if_false] at h
    cases nullGuard with
    | false =>
      -- without a guard the kfunc is not KF_RET_NULL, so nothing is tainted
      have hnn : nullable kf.name = false := by
        by_contra hn
        have := hnull kf (mem_of_getElem? hget) (by simpa using hn)
        simp [this, hv] at hguard
      simp only [Bool.false_eq_true, if_false] at h
      obtain ⟨rfl, rfl⟩ := execBlock_singleton.mp h
      refine nullPost_unchanged hb ?_
      simpa [bindEvents, hnn] using hcall
    | true =>
      simp only [if_true] at h
      rcases execBlock_cons.mp h with ⟨t1, t2, ⟨rfl, -⟩, h2, rfl⟩ | ⟨code, ⟨-, hcode⟩, -⟩
      · rcases execBlock_singleton.mp h2 with ⟨rfl, rfl⟩ | ⟨rfl, rfl⟩
        · refine ⟨if var = v ∧ nullable kf.name then true else b, ?_, by simp⟩
          have hsplit : callEvents kf.name args ++ bindEvents nullable kf.name var ++
              [.check var true, .ret (-1)] = callEvents kf.name args ++
                (bindEvents nullable kf.name var ++ [.check var true] ++ [.ret (-1)]) := by
            simp
          rw [hsplit, nullRun_append, hcall, Option.bind_some, nullRun_append, nullRun_bind_null]
          rfl
        · have hrun : nullRun v b (callEvents kf.name args ++ bindEvents nullable kf.name var ++
              [.check var false]) = some (if var = v then false else b) := by
            rw [append_assoc, nullRun_append, hcall]
            exact nullRun_bind_check
          by_cases hvv : var = v
          · exact ⟨false, by simpa [hvv] using hrun, by simp⟩
          · exact nullPost_unchanged hb (by simpa [hvv] using hrun)
      · cases hcode

/-- Rounds of a loop keep the monitor: the loop variable is clean inside, and anything else
is as the enclosing scope has it. -/
theorem nullRun_rounds (nullable : String → Bool) (sfVar it : String) {rounds : List (List Event)}
    (hit : b → v ≠ operandRoot ("&" ++ it))
    (hround : ∀ u ∈ rounds, ∀ b1, (b1 = true → b = true ∧ v ≠ sfVar) →
      ∃ b2, nullRun v b1 u = some b2 ∧ (b2 = true → b1 = true)) :
    ∀ b1, (b1 = true → b = true) → ∃ b2, nullRun v b1 (rounds.flatMap
      (fetchEvents nullable sfVar "bpf_iter_mptcp_subflow_next" ["&" ++ it] false ++ ·)) =
        some b2 ∧ (b2 = true → b = true) := by
  induction rounds with
  | nil => exact fun b1 hb1 => ⟨b1, rfl, hb1⟩
  | cons u rounds ih =>
    intro b1 hb1
    have hcall : nullRun v b1 (callEvents "bpf_iter_mptcp_subflow_next" ["&" ++ it]) =
        some b1 := by
      refine nullRun_callEvents (fun hb hmem => hit (hb1 hb) ?_)
      simpa using hmem
    have hfetch : nullRun v b1 (fetchEvents nullable sfVar "bpf_iter_mptcp_subflow_next"
        ["&" ++ it] false) = some (if sfVar = v then false else b1) := by
      rw [fetchEvents, append_assoc, nullRun_append, hcall]
      exact nullRun_bind_check
    obtain ⟨b2, hrun2, hb2⟩ := hround u mem_cons_self (if sfVar = v then false else b1) (by
      split
      · simp
      · rename_i hne
        exact fun hb => ⟨hb1 hb, fun he => hne he.symm⟩)
    have hb2' : b2 = true → b = true := by
      intro h
      have := hb2 h
      split at this
      · cases this
      · exact hb1 this
    obtain ⟨b3, hrun3, hb3⟩ := ih (fun u' hu' => hround u' (mem_cons_of_mem u hu')) b2 hb2'
    refine ⟨b3, ?_, hb3⟩
    rw [flatMap_cons, nullRun_append, nullRun_append, hfetch, Option.bind_some, hrun2]
    exact hrun3

theorem nullPost_subflowIter {kfuncs : List BpfKfunc} {iterId : ℕ} {sfVar : String}
    (hdisc : BlockOk nullable true false (bodyToC kfuncs body)) (henv : EnvOk env)
    (hnames : NamesOk env ([sfVar, iterVar iterId] ++ declaredNames body))
    (hb : TaintOk v b env ([sfVar, iterVar iterId] ++ declaredNames body))
    (hbody : ∀ b1 u, TaintOk v b1 (env ++ [⟨sfVar, "struct mptcp_subflow_context *"⟩])
        (declaredNames body) → ExecBlock nullable (bodyToC kfuncs body) u none →
      ∃ b2, nullRun v b1 u = some b2 ∧ (b2 = true → b1 = true))
    (h : ExecBlock nullable ((StructOpsStmt.subflowIter iterId sfVar "(struct sock *)msk"
      body).toC kfuncs) t o) :
    NullPost v b true env ([sfVar, iterVar iterId] ++ declaredNames body) t o := by
  have hroot := operandRoot_iterVar iterId
  have hnoret : ∀ u code, ¬ ExecBlock nullable (bodyToC kfuncs body) u (some code) := by
    intro u code hu
    simpa using ((hdisc u _ hu).exits code rfl).1
  obtain ⟨rfl, rounds, hrounds, rfl⟩ := execBlock_subflowIter hnoret h
  have hit : b = true → v ≠ iterVar iterId := by
    rintro hb' rfl
    exact (hb hb').2.1 (by simp)
  have hnew : nullRun v b (callEvents "bpf_iter_mptcp_subflow_new"
      ["&" ++ iterVar iterId, "(struct sock *)msk"]) = some b := by
    refine nullRun_callEvents (hb.not_mem_roots ?_)
    intro x hx
    have hsock : operandRoot "(struct sock *)msk" = "msk" := by decide
    simp only [map_cons, map_nil, hroot, hsock, mem_cons, not_mem_nil, or_false] at hx
    rcases hx with rfl | rfl
    · exact .inr (.inl (by simp))
    · exact .inl henv.msk
  obtain ⟨b2, hrun2, hb2⟩ := nullRun_rounds nullable sfVar (iterVar iterId) (b := b)
    (by rwa [hroot]) (by
      intro u hu b1 hb1
      refine hbody b1 u ?_ (hrounds u hu)
      intro h1
      obtain ⟨hbt, hne⟩ := hb1 h1
      obtain ⟨h2, h3, h4⟩ := hb hbt
      refine ⟨?_, fun hm => h3 (mem_append_right _ hm), h4⟩
      intro hd
      rcases declared_append.mp hd with hd | ⟨ty, hty⟩
      · exact h2 hd
      · have heq := mem_singleton.mp hty
        exact hne (congrArg TypedVal.expr heq)) b id
  -- the last fetch taints the loop variable, which is out of scope from here on
  set b3 := if sfVar = v ∧ nullable "bpf_iter_mptcp_subflow_next" then true else b2
    with hb3
  have hb3' : b3 → sfVar = v ∨ b := by
    intro h3
    rw [hb3] at h3
    split at h3
    · rename_i hc
      exact .inl hc.1
    · exact .inr (hb2 h3)
  have hitne : sfVar ≠ iterVar iterId := by
    intro he
    have := hnames.nodup
    simp [he] at this
  have hlast : nullRun v b2 (fetchEvents nullable sfVar "bpf_iter_mptcp_subflow_next"
      ["&" ++ iterVar iterId] true) = some b3 := by
    have hcall : nullRun v b2 (callEvents "bpf_iter_mptcp_subflow_next"
        ["&" ++ iterVar iterId]) = some b2 := by
      refine nullRun_callEvents (fun h2 hmem => hit (hb2 h2) ?_)
      simpa [hroot] using hmem
    rw [fetchEvents, append_assoc, nullRun_append, hcall]
    exact nullRun_bind_null
  have hdestroy : nullRun v b3 (callEvents "bpf_iter_mptcp_subflow_destroy"
      ["&" ++ iterVar iterId]) = some b3 := by
    refine nullRun_callEvents ?_
    intro h3 hmem
    have hv : v = iterVar iterId := by simpa [hroot] using hmem
    rcases hb3' h3 with hs | hbt
    · exact hitne (hs.trans hv)
    · exact hit hbt hv
  refine ⟨b3, ?_, ?_⟩
  · rw [nullRun_append, hnew, Option.bind_some, nullRun_append, nullRun_append, hrun2,
      Option.bind_some, hlast]
    exact hdestroy
  · intro _ h3
    rcases hb3' h3 with rfl | hbt
    · exact ⟨hnames.apart _ (by simp), .inr ⟨rfl, by simp⟩⟩
    · exact ⟨(hb hbt).1, .inl hbt⟩

include hnull in
theorem nullPost_body (body : List StructOpsStmt) :
    ∀ noReturn allowIter env b t o, DisciplinedBody mptcpSchedKfuncs noReturn allowIter body →
    ScopedBody mptcpSchedKfuncs env body → EnvOk env → NamesOk env (declaredNames body) →
    TaintOk v b env (declaredNames body) → ExecBlock nullable (bodyToC mptcpSchedKfuncs body) t o →
    NullPost v b allowIter (envAfter env body) (declaredNames body) t o := by
  revert body
  refine body_induction
    (P := fun st => ∀ noReturn allowIter env b t o,
      DisciplinedStmt mptcpSchedKfuncs noReturn allowIter st →
      ScopedStmt mptcpSchedKfuncs env st → EnvOk env → NamesOk env st.declaredNames →
      TaintOk v b env st.declaredNames →
      ExecBlock nullable (st.toC mptcpSchedKfuncs) t o →
      NullPost v b allowIter (env ++ st.locals) st.declaredNames t o)
    ?nil ?cons ?ctxRead ?ctxWrite ?arith ?kfuncCall ?subflowIter ?ifElse
  case nil =>
    rintro noReturn allowIter env b t o - - - - hb ⟨rfl, rfl⟩
    exact ⟨b, rfl, fun _ hb' => ⟨by simpa using (hb hb').1, .inl hb'⟩⟩
  case cons =>
    intro st rest hst hrest noReturn allowIter env b t o hd hs henv hnames hb h
    rw [declaredNames] at hnames hb
    have hst' : ∀ t1 o1, ExecBlock nullable (st.toC mptcpSchedKfuncs) t1 o1 →
        NullPost v b allowIter (env ++ st.locals) st.declaredNames t1 o1 := by
      intro t1 o1 h1
      exact hst noReturn allowIter env b t1 o1 hd.1 hs.1 henv
        (hnames.sublist (sublist_append_left _ _))
        (hb.subset (subset_append_left _ _)) h1
    rw [bodyToC] at h
    rcases execBlock_append.mp h with ⟨t1, t2, h1, h2, rfl⟩ | ⟨code, h1, rfl⟩
    · have hafter : envAfter env (st :: rest) = envAfter (env ++ st.locals) rest := by
        simp [envAfter]
      have hlocals : ∀ x, Declared st.locals x → x ∈ st.declaredNames :=
        fun x => mem_declaredNames_of_locals
      rw [declaredNames, hafter]
      refine NullPost.append hnames hb (hst' t1 none h1) ?_
      intro b' hb'
      refine hrest noReturn allowIter _ b' t2 o hd.2 hs.2 ?_ (hnames.tail hlocals) hb' h2
      refine henv.append (fun x hx => ?_)
      exact hnames.generated x (mem_append_left _ (hlocals x hx))
    · obtain ⟨b', hrun, -⟩ := hst' t (some code) h1
      exact ⟨b', hrun, by simp⟩
  case ctxRead =>
    rintro fi accessor ctype var noReturn allowIter env b t o - hs henv hnames hb h
    obtain ⟨rfl, rfl⟩ := execBlock_singleton.mp h
    exact nullPost_unchanged hb (hb.nullRun_use (henv.operandRoot_accessor hs))
  case ctxWrite =>
    rintro fi accessor ctype val noReturn allowIter env b t o - hs henv hnames hb h
    obtain ⟨rfl, rfl⟩ := execBlock_singleton.mp h
    exact nullPost_unchanged hb (hb.nullRun_use (henv.operandRoot_accessor hs))
  case arith =>
    rintro var ctype srcVar op val noReturn allowIter env b t o - ⟨ty, hty, -⟩ henv hnames hb h
    obtain ⟨rfl, rfl⟩ := execBlock_singleton.mp h
    exact nullPost_unchanged hb (hb.nullRun_use (henv.operandRoot_name ⟨ty, hty⟩))
  case kfuncCall =>
    intro ki args var ctype nullGuard noReturn allowIter env b t o hd hs henv hnames hb h
    exact nullPost_kfuncCall hnull rfl hd hs henv hb h
  case subflowIter =>
    rintro iterId var sock body ih noReturn allowIter env b t o ⟨rfl, rfl, rfl, hd⟩ hs henv hnames
      hb h
    simp only [locals, append_nil]
    refine nullPost_subflowIter (blockOk_bodyToC nullable body _ _ hd) henv hnames hb ?_ h
    intro b1 u hb1 hu
    have hloop : ∀ x, Declared [⟨subflowVar iterId, "struct mptcp_subflow_context *"⟩] x →
        x = subflowVar iterId := by
      rintro x ⟨ty, hty⟩
      exact congrArg TypedVal.expr (mem_singleton.mp hty)
    obtain ⟨b2, hrun, hpost⟩ := ih true false _ b1 u none hd hs
      (henv.append (fun x hx => ⟨.subflow, iterId, hloop x hx⟩))
      (hnames.tail (fun x hx => by simp [hloop x hx])) hb1 hu
    refine ⟨b2, hrun, fun h2 => ?_⟩
    rcases (hpost rfl h2).2 with h1 | ⟨hf, -⟩
    · exact h1
    · cases hf
  case ifElse =>
    rintro condVar condOp condVal ifBody elseBody ihIf ihElse noReturn allowIter env b t o
      ⟨hdIf, hdElse⟩ ⟨⟨ty, hty, -⟩, hsIf, hsElse⟩ henv hnames hb h
    rw [toC] at h
    simp only [locals, append_nil] at hnames hb ⊢
    have hcond : nullRun v b (condToC condVar condOp condVal).events = some b := by
      rw [events_condToC]
      exact hb.nullRun_use (henv.operandRoot_name ⟨ty, hty⟩)
    rcases execBlock_cons.mp h with ⟨t1, t2, ⟨rfl, -⟩, h2, rfl⟩ | ⟨code, ⟨-, hcode⟩, -⟩
    · obtain ⟨u, rfl, hu | hu⟩ := execBlock_singleton.mp h2
      · exact (ihIf true allowIter env b u o hdIf hsIf henv
          (hnames.sublist (sublist_append_left _ _))
          (hb.subset (subset_append_left _ _)) hu).branch hcond
          (subset_append_left _ _)
      · exact (ihElse true allowIter env b u o hdElse hsElse henv
          (hnames.sublist (sublist_append_right _ _))
          (hb.subset (subset_append_right _ _)) hu).branch hcond
          (subset_append_right _ _)
    · cases hcode

end Bodies

end Brf.StructOps
