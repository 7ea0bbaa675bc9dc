import Brf.Verification.StructOps.Generation
import Brf.Model.StructOpsRender
import Brf.Lib.Ensures

/-! # Stores and nesting of generated schedulers

A statement appended to a body only depends on the scope the body is generated in, so the shape
of a whole tree is what its scopes allow. -/

namespace Brf.StructOps

open Brf.Lib Lib.Gen List Nat

/-- A store of `val` through one of the writable fields; `subflows` are the subflow pointers in
scope. -/
def StoreOk (subflows : List String) (accessor : String) (val : ℤ) : Prop :=
  (accessor = "msk->snd_burst" ∧ -2 ^ 31 ≤ val ∧ val < 2 ^ 31) ∨
    ∃ x ∈ subflows, accessor = x ++ "->avg_pacing_rate" ∧ 0 ≤ val ∧ val < 2 ^ 31

mutual

/-- Every store of a statement, nested ones included, is one of `StoreOk`. All other statements
define fresh locals. -/
def StructOpsStmt.StoresOk (subflows : List String) : StructOpsStmt → Prop
  | .ctxWrite _ accessor _ val => StoreOk subflows accessor val
  | .subflowIter _ var _ iterBody => StoresOk (subflows ++ [var]) iterBody
  | .ifElse _ _ _ ifBody elseBody => StoresOk subflows ifBody ∧ StoresOk subflows elseBody
  | _ => True

def StoresOk (subflows : List String) : List StructOpsStmt → Prop
  | [] => True
  | st :: rest => st.StoresOk subflows ∧ StoresOk subflows rest

end

variable {body : List StructOpsStmt}

theorem storesOk_iff {subflows : List String} :
    StoresOk subflows body ↔ ∀ st ∈ body, st.StoresOk subflows := by
  induction body with
  | nil => simp [StoresOk]
  | cons st rest ih => simp [StoresOk, ih]

mutual

def StructOpsStmt.ifDepth : StructOpsStmt → ℕ
  | .ifElse _ _ _ ifBody elseBody => max (ifDepth ifBody) (ifDepth elseBody) + 1
  | .subflowIter _ _ _ iterBody => ifDepth iterBody
  | _ => 0

def ifDepth : List StructOpsStmt → ℕ
  | [] => 0
  | st :: rest => max st.ifDepth (ifDepth rest)

end

theorem ifDepth_le_iff {n : ℕ} : ifDepth body ≤ n ↔ ∀ st ∈ body, st.ifDepth ≤ n := by
  induction body with
  | nil => simp [ifDepth]
  | cons st rest ih => rw [ifDepth, Nat.max_le, ih, forall_mem_cons]

theorem mem_walkStmts {st : StructOpsStmt} : st ∈ walkStmts body ↔ ∃ st' ∈ body, st ∈ st'.walk := by
  induction body with
  | nil => simp [walkStmts]
  | cons s rest ih => simp [walkStmts, ih]

def Straight (body : List StructOpsStmt) : Prop :=
  ∀ st ∈ walkStmts body, st.kind ≠ .ifElse ∧ st.kind ≠ .subflowIter

/-- The branch of an `if` is not empty and a loop body is straight. -/
def StructOpsStmt.NestOk : StructOpsStmt → Prop
  | .ifElse _ _ _ ifBody _ => ifBody ≠ []
  | .subflowIter _ _ _ iterBody => Straight iterBody
  | _ => True

structure SchedulerShape (sop : StructOpsProg) : Prop where
  getSend_stores : StoresOk ["subflow"] sop.getSendBody
  init_stores : StoresOk [] sop.initBody
  release_stores : StoresOk [] sop.releaseBody
  getSend_write : ∃ st ∈ sop.getSendBody, st.kind = .ctxWrite
  getSend_depth : ifDepth sop.getSendBody ≤ 2
  nested : ∀ st ∈ sop.allStmts, st.NestOk
  init_straight : Straight sop.initBody
  release_straight : Straight sop.releaseBody

/-! ### What a scope allows -/

/-- The writable fields of a scope are the burst and the pacing rate of a subflow in scope. -/
def FieldsOk (subflows : List String) (sc : BodyScope) : Prop :=
  ∀ f ∈ sc.writeFields, f = ⟨"msk->snd_burst", "int"⟩ ∨
    ∃ x ∈ subflows, f = ⟨x ++ "->avg_pacing_rate", "unsigned long"⟩

/-- How many `if`s a scope lets a statement open. -/
def BodyScope.ifRoom (sc : BodyScope) : ℕ :=
  if sc.allowIf then ifElseMaxDepth - sc.depth else 0

structure Allowed (subflows : List String) (sc : BodyScope) (stmt : StructOpsStmt) : Prop where
  stores : stmt.StoresOk subflows
  depth : stmt.ifDepth ≤ sc.ifRoom
  nested : ∀ st ∈ stmt.walk, st.NestOk
  straight : sc.allowIf = false → sc.allowIter = false →
    ∀ st ∈ stmt.walk, st.kind ≠ .ifElse ∧ st.kind ≠ .subflowIter

structure BodyShape (subflows : List String) (sc : BodyScope) (body : List StructOpsStmt) :
    Prop where
  allowed : ∀ st ∈ body, Allowed subflows sc st
  length : sc.minStmt ≤ body.length
  write : sc.requireWrite → body ≠ [] → ∃ st ∈ body, st.kind = .ctxWrite

namespace BodyShape

variable {subflows : List String} {sc : BodyScope} {body : List StructOpsStmt}

section

variable (h : BodyShape subflows sc body)

include h

theorem stores : StoresOk subflows body :=
  storesOk_iff.mpr fun st hst => (h.allowed st hst).stores

theorem depth : ifDepth body ≤ sc.ifRoom :=
  ifDepth_le_iff.mpr fun st hst => (h.allowed st hst).depth

theorem nested : ∀ st ∈ walkStmts body, st.NestOk := by
  intro st hst
  obtain ⟨st', hst', hwalk⟩ := mem_walkStmts.mp hst
  exact (h.allowed st' hst').nested st hwalk

theorem straight (hif : sc.allowIf = false) (hiter : sc.allowIter = false) : Straight body := by
  intro st hst
  obtain ⟨st', hst', hwalk⟩ := mem_walkStmts.mp hst
  exact (h.allowed st' hst').straight hif hiter st hwalk

theorem ne_nil (hmin : 0 < sc.minStmt) : body ≠ [] :=
  length_pos_iff.mp (lt_of_lt_of_le hmin h.length)

end

end BodyShape

/-! ### Statements of each kind -/

section Allowed

variable {subflows : List String} {sc : BodyScope}

theorem Allowed.leaf {stmt : StructOpsStmt} (hs : stmt.StoresOk subflows)
    (hk : stmt.kind ≠ .ifElse ∧ stmt.kind ≠ .subflowIter) : Allowed subflows sc stmt := by
  cases stmt with
  | ctxRead | ctxWrite | arith | kfuncCall =>
    refine ⟨hs, zero_le _, ?_, fun _ _ => ?_⟩
    · rintro st hst
      obtain rfl := mem_singleton.mp hst
      trivial
    · rintro st hst
      obtain rfl := mem_singleton.mp hst
      exact hk
  | subflowIter => exact absurd rfl hk.2
  | ifElse => exact absurd rfl hk.1

theorem Allowed.subflowIter {iterId : ℕ} {var sock : String}
    (hiter : sc.allowIter) (h : BodyShape (subflows ++ [var]) (loopScope var) body) :
    Allowed subflows sc (.subflowIter iterId var sock body) where
  stores := h.stores
  depth := le_trans h.depth (zero_le _)
  nested := by
    intro st hst
    rcases mem_cons.mp hst with rfl | hst
    · exact h.straight rfl rfl
    · exact h.nested st hst
  straight := by
    intro _ hno
    rw [hiter] at hno
    cases hno

theorem Allowed.ifElse {condVar condOp : String} {condVal : ℤ} {pool : List TypedVal}
    {ifBody elseBody : List StructOpsStmt} (hif : sc.allowIf) (hdepth : sc.depth < ifElseMaxDepth)
    (h : BodyShape subflows (branchScope sc pool) ifBody)
    (helse : ∀ st ∈ elseBody, Allowed subflows (branchScope sc pool) st) :
    Allowed subflows sc (.ifElse condVar condOp condVal ifBody elseBody) where
  stores := ⟨h.stores, storesOk_iff.mpr fun st hst => (helse st hst).stores⟩
  depth := by
    have hroom : (branchScope sc pool).ifRoom + 1 = sc.ifRoom := by
      simp only [BodyScope.ifRoom, branchScope, hif, if_true]
      omega
    have helseDepth := ifDepth_le_iff.mpr fun st hst => (helse st hst).depth
    rw [← hroom]
    exact Nat.succ_le_succ (Nat.max_le.mpr ⟨h.depth, helseDepth⟩)
  nested := by
    intro st hst
    rcases mem_cons.mp hst with rfl | hst
    · exact h.ne_nil one_pos
    rcases mem_append.mp hst with hst | hst
    · exact h.nested st hst
    · obtain ⟨st', hst', hwalk⟩ := mem_walkStmts.mp hst
      exact (helse st' hst').nested st hwalk
  straight := by
    intro hno
    rw [hif] at hno
    cases hno

end Allowed

/-- The step from `st` to `st'` appends one allowed statement, a write if `kind` asks for it. -/
def Appends (subflows : List String) (sc : BodyScope) (kind : StructOpsStmtKind)
    (st st' : BodyState) : Prop :=
  ∃ stmt, st'.body = st.body ++ [stmt] ∧ Allowed subflows sc stmt ∧
    (kind = .ctxWrite → stmt.kind = .ctxWrite)

def GenShape (genBody : BodyGen) : Prop :=
  ∀ subflows sc lo, FieldsOk subflows sc →
    Gen.Ensures (genBody sc lo) fun out => BodyShape subflows sc out.1

section Emit

variable {kfuncs : List BpfKfunc} {subflows : List String} {sc : BodyScope} {st : BodyState}
  {kind : StructOpsStmtKind}

theorem ensures_emitCtxRead (hk : kind ≠ .ctxWrite) (fi : ℕ) :
    Gen.Ensures (emitCtxRead sc st fi) (Appends subflows sc kind st) := by
  rw [emitCtxRead]
  split
  · exact ensures_failure
  · refine ensures_pure.mpr ⟨_, rfl, Allowed.leaf trivial ?_, fun h => absurd h hk⟩
    simp [StructOpsStmt.kind]

theorem ensures_genStructOpsCtxValue {f : CtxWriteField}
    (hf : f = ⟨"msk->snd_burst", "int"⟩ ∨
      ∃ x ∈ subflows, f = ⟨x ++ "->avg_pacing_rate", "unsigned long"⟩) :
    Gen.Ensures (genStructOpsCtxValue f.ctype) (StoreOk subflows f.accessor) := by
  rw [genStructOpsCtxValue]
  rcases hf with rfl | ⟨x, hx, rfl⟩
  · refine ensures_bind (ensures_intn fun n hn => ensures_pure.mpr ?_)
    exact .inl ⟨rfl, by omega, by omega⟩
  · refine ensures_bind (ensures_intn fun n hn => ensures_pure.mpr ?_)
    exact .inr ⟨x, hx, rfl, by omega, by omega⟩

theorem ensures_emitCtxWrite (hsc : FieldsOk subflows sc) (fi : ℕ) :
    Gen.Ensures (emitCtxWrite sc st fi) (Appends subflows sc .ctxWrite st) := by
  rw [emitCtxWrite]
  split
  · exact ensures_failure
  · rename_i f hf
    refine ensures_bind
      ((ensures_genStructOpsCtxValue (hsc f (mem_of_getElem? hf))).mono fun val hval => ?_)
    exact ensures_pure.mpr ⟨_, rfl, Allowed.leaf hval (by simp [StructOpsStmt.kind]), fun _ => rfl⟩

theorem ensures_emitArith : Gen.Ensures (emitArith st) (Appends subflows sc .arith st) := by
  refine ensures_bind (.of_forall fun src => ?_)
  refine ensures_bind (.of_forall fun op => ?_)
  refine ensures_bind (.of_forall fun val => ?_)
  exact ensures_pure.mpr ⟨_, rfl, Allowed.leaf trivial ⟨nofun, nofun⟩, nofun⟩

theorem appends_publishCall (ki : ℕ) (kf : BpfKfunc) (args : List String) :
    Appends subflows sc .kfuncCall st (publishCall st ki kf args) := by
  unfold publishCall
  extract_lets v bound
  split
  · exact ⟨_, rfl, Allowed.leaf trivial ⟨nofun, nofun⟩, nofun⟩
  split
  · exact ⟨_, rfl, Allowed.leaf trivial ⟨nofun, nofun⟩, nofun⟩
  · exact ⟨_, rfl, Allowed.leaf trivial ⟨nofun, nofun⟩, nofun⟩

theorem ensures_emitKfuncCall :
    Gen.Ensures (emitKfuncCall kfuncs sc st) (Appends subflows sc .kfuncCall st) := by
  refine ensures_bind (.of_forall fun idxs => ?_)
  refine ensures_bind (.of_forall fun ki => ?_)
  split
  · exact ensures_failure
  · rename_i kf _
    refine ensures_bind (.of_forall fun args => ?_)
    split
    · refine ensures_bind (.of_forall fun fi => ?_)
      exact ensures_emitCtxRead (by decide) fi
    · exact ensures_pure.mpr (appends_publishCall ki kf _)

theorem FieldsOk.loop (subflows : List String) (sfVar : String) :
    FieldsOk (subflows ++ [sfVar]) (loopScope sfVar) := by
  intro f hf
  rcases mem_cons.mp hf with rfl | hf
  · exact .inl rfl
  · obtain rfl := mem_singleton.mp hf
    exact .inr ⟨sfVar, mem_append_right _ (mem_singleton_self _), rfl⟩

variable {genBody : BodyGen}

theorem ensures_genSubflowIter (hgen : GenShape genBody)
    (hiter : sc.allowIter) (subflows : List String) (varId : ℕ) :
    Gen.Ensures (genSubflowIter genBody varId) fun out => Allowed subflows sc out.1 := by
  refine ensures_bind ((hgen _ _ _ (FieldsOk.loop subflows _)).mono fun out hout => ?_)
  exact ensures_pure.mpr (Allowed.subflowIter hiter hout)

theorem ensures_genIfElse (hgen : GenShape genBody)
    (hsc : FieldsOk subflows sc) (hif : sc.allowIf) (hdepth : sc.depth < ifElseMaxDepth)
    (varId : ℕ) (pool : List TypedVal) (condNames : List String) :
    Gen.Ensures (genIfElse genBody sc varId pool condNames) fun out =>
      Allowed subflows sc out.1 := by
  have hbranch : FieldsOk subflows (branchScope sc pool) := hsc
  refine ensures_bind (.of_forall fun condVar => ?_)
  refine ensures_bind (.of_forall fun condOp => ?_)
  refine ensures_bind (.of_forall fun condVal => ?_)
  refine ensures_bind ((hgen _ _ _ hbranch).mono fun ifOut hifOut => ?_)
  refine ensures_bind (.of_forall fun coin => ?_)
  refine ensures_ite (fun _ => ?_) (fun _ => ?_)
  · refine ensures_bind ((hgen _ _ _ hbranch).mono fun elseOut helseOut => ?_)
    exact ensures_pure.mpr (Allowed.ifElse hif hdepth hifOut helseOut.allowed)
  · exact ensures_pure.mpr (Allowed.ifElse hif hdepth hifOut nofun)

theorem ensures_emitKind (hgen : GenShape genBody)
    (hsc : FieldsOk subflows sc) (hk : kind ∈ scopeKinds sc) :
    Gen.Ensures (emitKind kfuncs genBody sc st kind) (Appends subflows sc kind st) := by
  cases kind with
  | ctxRead =>
    exact ensures_bind (.of_forall fun fi => ensures_emitCtxRead (by decide) fi)
  | ctxWrite =>
    exact ensures_bind (.of_forall fun fi => ensures_emitCtxWrite hsc fi)
  | arith => exact ensures_emitArith
  | kfuncCall => exact ensures_emitKfuncCall
  | subflowIter =>
    have hiter : sc.allowIter := by simpa [scopeKinds] using hk
    refine ensures_bind ((ensures_genSubflowIter hgen hiter subflows _).mono
      fun out hout => ?_)
    exact ensures_pure.mpr ⟨out.1, rfl, hout, by simp⟩
  | ifElse =>
    have hif : sc.allowIf ∧ sc.depth < ifElseMaxDepth := by simpa [scopeKinds] using hk
    refine ensures_bind ((ensures_genIfElse hgen hsc hif.1 hif.2 _ _ _).mono
      fun out hout => ?_)
    exact ensures_pure.mpr ⟨out.1, rfl, hout, by simp⟩

/-- The last statement is a write when one is required and none has been made. -/
theorem ensures_chooseKind_write {drawn : StructOpsStmtKind} (hreq : sc.requireWrite)
    (hnone : ∀ s ∈ st.body, s.kind ≠ .ctxWrite) :
    Gen.Ensures (chooseKind kfuncs sc st true drawn) (· = .ctxWrite) := by
  have hbias : writeBias sc st true drawn = .ctxWrite := by
    have hany : st.body.any (fun s => decide (s.kind = .ctxWrite)) = false := by
      simpa using hnone
    simp [writeBias, hreq, hany]
  have hcall : callFallback kfuncs sc st .ctxWrite = pure .ctxWrite := if_neg (by decide)
  rw [chooseKind, hbias, hcall, pure_bind]
  exact ensures_pure.mpr rfl

end Emit

/-- What the loop has established after `i` of `nStmt` statements. -/
structure ShapeInv (subflows : List String) (sc : BodyScope) (nStmt i : ℕ) (st : BodyState) :
    Prop where
  allowed : ∀ s ∈ st.body, Allowed subflows sc s
  length : st.body.length = i
  write : sc.requireWrite → i ≠ 0 → i = nStmt → ∃ s ∈ st.body, s.kind = .ctxWrite

theorem ShapeInv.genStmt {kfuncs : List BpfKfunc} {genBody : BodyGen} {subflows : List String}
    {sc : BodyScope} {nStmt i : ℕ} {st : BodyState} (hgen : GenShape genBody)
    (hsc : FieldsOk subflows sc) (h : ShapeInv subflows sc nStmt i st) :
    Gen.Ensures (genStmt kfuncs genBody sc nStmt i st) (ShapeInv subflows sc nStmt (i + 1)) := by
  refine ensures_bind (ensures_pick fun drawn hdrawn => ?_)
  have hoffered : Gen.Ensures (chooseKind kfuncs sc st (i + 1 = nStmt) drawn)
      (KindOk kfuncs sc st) := Gen.Ensures.of_sat (sat_chooseKind hdrawn _)
  have hwrite : Gen.Ensures (chooseKind kfuncs sc st (i + 1 = nStmt) drawn) fun kind =>
      sc.requireWrite → i + 1 = nStmt → (∀ s ∈ st.body, s.kind ≠ .ctxWrite) →
        kind = .ctxWrite := by
    by_cases hforced : sc.requireWrite ∧ i + 1 = nStmt ∧ ∀ s ∈ st.body, s.kind ≠ .ctxWrite
    · rw [decide_eq_true hforced.2.1]
      exact (ensures_chooseKind_write hforced.1 hforced.2.2).mono fun _ hk _ _ _ => hk
    · exact .of_forall fun _ h1 h2 h3 => absurd ⟨h1, h2, h3⟩ hforced
  refine ensures_bind ((hoffered.and hwrite).mono ?_)
  rintro kind ⟨hok, hforced⟩
  refine (ensures_emitKind hgen hsc hok.offered).mono ?_
  rintro st' ⟨stmt, hbody, hallowed, hkind⟩
  refine ⟨?_, by rw [hbody, length_append, h.length]; rfl, fun hreq _ hlast => ?_⟩
  · intro s hs
    rw [hbody] at hs
    rcases mem_append.mp hs with hs | hs
    · exact h.allowed s hs
    · obtain rfl := mem_singleton.mp hs
      exact hallowed
  · rw [hbody]
    by_cases hnone : ∀ s ∈ st.body, s.kind ≠ .ctxWrite
    · exact ⟨stmt, mem_append_right _ (mem_singleton_self _), hkind (hforced hreq hlast hnone)⟩
    · push Not at hnone
      obtain ⟨s, hs, hwr⟩ := hnone
      exact ⟨s, mem_append_left _ hs, hwr⟩

theorem genShape_genStructOpsBody (kfuncs : List BpfKfunc) (fuel : ℕ) :
    GenShape (genStructOpsBody kfuncs fuel) := by
  induction fuel with
  | zero => exact fun _ _ _ _ => ensures_failure
  | succ fuel ih =>
    intro subflows sc lo hsc
    refine ensures_bind (.of_forall fun extra => ?_)
    have hstart : ShapeInv subflows sc (sc.minStmt + extra) 0 ⟨[], [], sc.pool, lo⟩ :=
      ⟨nofun, rfl, fun _ h => absurd rfl h⟩
    refine ensures_bind ((ensures_loop hstart fun j st _ _ hinv =>
      hinv.genStmt ih hsc).mono fun st hinv => ?_)
    rw [zero_add] at hinv
    refine ensures_pure.mpr ⟨hinv.allowed, ?_, fun hreq hne => ?_⟩
    · rw [hinv.length]
      exact le_add_right _ _
    · refine hinv.write hreq ?_ rfl
      rw [← hinv.length]
      exact fun h => hne (length_eq_zero_iff.mp h)

theorem fieldsOk_getSendScope : FieldsOk ["subflow"] getSendScope := by
  intro f hf
  rcases mem_getSendScope_writeFields hf with rfl | rfl
  · exact .inl rfl
  · exact Or.inr ⟨"subflow", mem_singleton_self _, by decide⟩

theorem fieldsOk_initReleaseScope : FieldsOk [] initReleaseScope := by
  intro f hf
  exact .inl (mem_singleton.mp hf)

/-- Every stream of draws yields a scheduler with only the permitted stores, a top level write in
`get_send`, and loops and branches nested as the scopes allow. -/
theorem genStructOpsProg_shape : Gen.Sat genStructOpsProg SchedulerShape := by
  have hgen := genShape_genStructOpsBody mptcpSchedKfuncs bodyFuel
  refine sat_genStructOpsProg.ensures ?_
  refine ensures_bind (.of_forall fun n => ?_)
  refine ensures_bind ((hgen _ _ _ fieldsOk_getSendScope).mono fun getOut hget => ?_)
  refine ensures_bind ((hgen _ _ _ fieldsOk_initReleaseScope).mono fun initOut hinit => ?_)
  refine ensures_bind ((hgen _ _ _ fieldsOk_initReleaseScope).mono fun relOut hrel => ?_)
  refine ensures_pure.mpr ⟨hget.stores, hinit.stores, hrel.stores,
    hget.write rfl (hget.ne_nil (by decide)), hget.depth, ?_, hinit.straight rfl rfl,
    hrel.straight rfl rfl⟩
  intro st hst
  simp only [StructOpsProg.allStmts, mem_append] at hst
  rcases hst with (hst | hst) | hst
  · exact hget.nested st hst
  · exact hinit.nested st hst
  · exact hrel.nested st hst

end Brf.StructOps
