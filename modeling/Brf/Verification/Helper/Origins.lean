import Brf.Model.HelperCalls
import Brf.Verification.Helper.Pool
import Mathlib.Tactic.Simps.Basic

/-! # Where arguments come from

Every argument of a generated call has one of a few origins: a new local, a scratch buffer, a
field of the context, or the result of a call generated before. `GenInv` says that no variable
is declared twice, also while the arguments of unfinished calls wait outside of the program. -/

namespace Brf.HelperCalls

open Brf.Lib List BpfArg RegType

def Prepare.vars : Prepare → List ℕ
  | .none => []
  | .int64 v _ | .int64Scratch v _ _ | .chars v _ => [v]

/-- The variable an argument is written with. -/
def ArgName.var? : ArgName → Option ℕ
  | .zero | .ctx | .progActive | .map _ => none
  | .var v | .member v _ | .addrMember v _ => some v

def BpfCall.locals (call : BpfCall) : List ℕ := call.args.flatMap fun a => a.prep.vars

def BpfCall.declares (call : BpfCall) : List ℕ := call.locals ++ call.ret.toList

/-- How often a variable is declared. -/
def BpfProg.declCount (p : BpfProg) (v : ℕ) : ℕ :=
  p.scratchMapVars.count v + (p.ctxVars.map Prod.snd).count v +
    (p.calls.flatMap BpfCall.declares).count v

def rets (calls : List BpfCall) : List ℕ := calls.filterMap BpfCall.ret

variable {v : ℕ}

theorem mem_rets {calls : List BpfCall} : v ∈ rets calls ↔ ∃ c ∈ calls, c.ret = some v := by
  simp [rets]

def maxAccess : ℕ := 2 ^ 17

/-- How an argument of kind `t` comes about in `p`, when `size` bytes are recorded for its call.
`before` are the calls whose results it can use, and those it uses are numbered from `lo` on. -/
inductive Origin (p : BpfProg) (before : List BpfCall) (size lo : ℕ) (t : ArgType) : BpfArg → Prop
  /-- The zero that `bpf_get_local_storage` is given. -/
  | fixed : Origin p before size lo t { newBpfArg t with name := .zero, isNotNull := true }
  | number (v n : ℕ) (prep : Prepare) (hv : prep.vars = [v])
      (hprep : prep = .int64 v n ∨ ∃ buf ∈ p.scratchMapVars, prep = .int64Scratch v buf n)
      (hn : n ≤ maxAccess) (hsize : size ≠ 0 → n = size)
      (hreg : scalarValue ∈ (compatibleRegType t).initial) :
      Origin p before size lo t
        { newBpfArg t with name := .var v, isNotNull := true, prep := prep }
  | stack (v n : ℕ) (hreg : ptrToStack ∈ (compatibleRegType t).initial) :
      Origin p before size lo t
        { newBpfArg t with name := .var v, isNotNull := true, prep := .chars v n }
  | scratch (v : ℕ) (hv : v ∈ p.scratchMapVars)
      (hreg : ptrToStack ∈ (compatibleRegType t).initial) :
      Origin p before size lo t { newBpfArg t with name := .var v, isNotNull := true }
  /-- The context, a map or a kernel variable. -/
  | address (name : ArgName) (rt : RegType) (hname : name.var? = none) (hzero : name ≠ .zero)
      (hreg : rt ∈ (compatibleRegType t).initial) (hrt : rt ≠ .scalarValue) :
      Origin p before size lo t { newBpfArg t with name := name, isNotNull := true }
  | field (f : String) (v : ℕ) (rt : RegType) (hv : p.ctxVars.lookup f = some v)
      (hreg : rt ∈ (compatibleRegType t).initial) (hrt : rt ≠ .scalarValue) :
      Origin p before size lo t { newBpfArg t with name := .var v }
  | metadata (v start n : ℕ) (hv : p.ctxVars.lookup "data_meta" = some v)
      (hstop : p.ctxVars.lookup "data" = some start) (hn : n ≤ maxAccess)
      (hreg : ptrToPacketMeta ∈ (compatibleRegType t).initial) :
      Origin p before size lo t
        { newBpfArg t with name := .var v, isPktMetaAccess := true, accessSize := n }
  | packet (f : String) (v stop n : ℕ) (hf : f ≠ "data_end") (hv : p.ctxVars.lookup f = some v)
      (hstop : p.ctxVars.lookup "data_end" = some stop) (hn : n ≤ maxAccess)
      (hreg : ptrToPacket ∈ (compatibleRegType t).initial) :
      Origin p before size lo t
        { newBpfArg t with name := .var v, isPktAccess := true, accessSize := n }
  | result (d : BpfCall) (v : ℕ) (name : ArgName) (canBeNull : Bool) (rt : RegType)
      (hd : d ∈ before) (hret : d.ret = some v) (hlo : lo ≤ v) (hname : name.var? = some v)
      (hplain : d.helper.ret = .integer → name = .var v ∧ canBeNull = (newBpfArg t).canBeNull)
      (hreg : rt ∈ (compatibleRegType t).initial) (hrt : rt ∈ retToRegTypeMap d.helper.ret) :
      Origin p before size lo t
        { newBpfArg t with
          name := name, canBeNull := canBeNull,
          isNotNull := d.helper.ret.isNotNull && !canBeNull }

def ArgType.isSize (t : ArgType) : Bool := t = .constSize || t = .constSizeOrZero

/-- The upper bound of a size is the number of bytes recorded when it is generated. -/
@[simps name prep argType canBeNull isNotNull isPktMetaAccess isPktAccess accessSize umin]
def BpfArg.bounded (size : ℕ) (a : BpfArg) : BpfArg :=
  { a with umax := if a.argType.isSize then size else a.umax }

/-- An argument of a call that can use the results of `before`. -/
def ArgOk (p : BpfProg) (before : List BpfCall) (a : BpfArg) : Prop :=
  ∃ size lo t a0, size ≤ maxAccess ∧ Origin p before size lo t a0 ∧ a = a0.bounded size

/-- No two arguments use the result of one call. -/
def UsesOnce (results : List ℕ) (args : List BpfArg) : Prop :=
  args.Pairwise fun a b => ∀ v ∈ results, a.name.var? = some v → b.name.var? ≠ some v

/-! ### Declared bytes and recorded sizes -/

theorem BpfArg.bounded_umax (size : ℕ) (a : BpfArg) :
    (a.bounded size).umax = if a.argType.isSize then (size : ℤ) else a.umax := rfl

theorem BpfArg.bounded_eq (size : ℕ) (a : BpfArg) : a.bounded size =
    if a.argType = .constSize ∨ a.argType = .constSizeOrZero then { a with umax := size } else a := by
  by_cases h : a.argType = .constSize ∨ a.argType = .constSizeOrZero <;>
    simp [bounded, ArgType.isSize, h]

/-- The bytes of preparations that are made while the budget lasts. -/
def Prepare.budgeted : Prepare → ℕ
  | .none | .int64Scratch _ _ _ => 0
  | .int64 _ _ => 8
  | .chars _ size => size

def BpfCall.budgeted (c : BpfCall) : ℕ := (c.args.map fun a => a.prep.budgeted).sum

def BpfProg.budgeted (p : BpfProg) : ℕ := (p.calls.map BpfCall.budgeted).sum

/-- The size that generating an argument records for its call. -/
def BpfArg.recorded (a : BpfArg) : Option ℕ :=
  match a.prep with
  | .chars _ size => some size
  | _ => if (a.isPktMetaAccess || a.isPktAccess) && a.argType.isSizedMem then some a.accessSize
    else none

/-- The last size that arguments have recorded. -/
def lastRecorded (args : List BpfArg) : ℕ := args.foldl (fun size a => a.recorded.getD size) 0

theorem lastRecorded_snoc (args : List BpfArg) (a : BpfArg) :
    lastRecorded (args ++ [a]) = a.recorded.getD (lastRecorded args) := by
  simp [lastRecorded]

/-- A size argument is bounded by the last size that was recorded. -/
structure SizesRecorded (call : BpfCall) : Prop where
  now : call.stackVarSize = lastRecorded call.args
  bounds : ∀ i a, call.args[i]? = some a → a.argType.isSize →
    a.umax = (lastRecorded (call.args.take (i + 1)) : ℤ)

/-- Attempts at a release may be given up after a size was recorded. -/
def Traced (call : BpfCall) : Prop := isRefReleaseCall call.helper = none → SizesRecorded call

structure CallOk (p : BpfProg) (before : List BpfCall) (call : BpfCall) : Prop where
  args : ∀ a ∈ call.args, ArgOk p before a
  kinds : ∀ a ∈ call.args, a.argType ∈ call.helper.args
  once : UsesOnce (rets before) call.args
  ret : ∃ v, call.ret = some v
  retType : call.retType = "" → call.helper.ret = .void
  postCalls : call.postCalls = []
  traced : Traced call

/-- Calls each of which can use the ones before it. -/
def Chain (p : BpfProg) : List BpfCall → List BpfCall → Prop
  | _, [] => True
  | before, c :: cs => CallOk p before c ∧ Chain p (before ++ [c]) cs

/-- A helper of the program type whose result can be used. -/
def Produces (pt : BpfProgType) (helper : BpfHelper) : Prop :=
  helper ∈ pt.helpers ∧ helper.ret ≠ .void

/-- `q` keeps the variables of `p`, adds calls that produce values behind those of `p`, and
numbers their results from the next variable of `p` on. -/
structure Extends (p q : BpfProg) : Prop where
  pt : q.pt = p.pt
  scratch : q.scratchMapVars = p.scratchMapVars
  ctx : p.ctxVars <+: q.ctxVars
  varId : p.varId ≤ q.varId
  calls : ∃ new, q.calls = p.calls ++ new ∧ Chain q p.calls new ∧
    (∀ v ∈ rets new, p.varId ≤ v) ∧ ∀ c ∈ new, Produces p.pt c.helper

theorem lookup_extend {α β : Type} [BEq α] {xs ys : List (α × β)} {k : α} {b : β}
    (h : xs <+: ys) (hk : xs.lookup k = some b) : ys.lookup k = some b := by
  obtain ⟨zs, rfl⟩ := h
  rw [lookup_append, hk, Option.some_or]

theorem mem_of_lookup {α β : Type} [BEq α] [LawfulBEq α] {xs : List (α × β)} {k : α} {b : β}
    (h : xs.lookup k = some b) : (k, b) ∈ xs := by
  obtain ⟨l1, l2, rfl, -⟩ := lookup_eq_some_iff.mp h
  simp

variable {p q : BpfProg} {before : List BpfCall} {a : BpfArg} {after : List BpfCall} {lo : ℕ}
  {t : ArgType}

theorem Origin.mono {size lo' : ℕ} (h : Origin p before size lo t a)
    (hscratch : q.scratchMapVars = p.scratchMapVars) (hctx : p.ctxVars <+: q.ctxVars)
    (hcalls : before ⊆ after) (hlo : lo' ≤ lo) : Origin q after size lo' t a := by
  cases h with
  | fixed => exact .fixed
  | number v n prep hv hprep hn hsize hreg =>
    exact .number v n prep hv (hscratch ▸ hprep) hn hsize hreg
  | stack v n hreg => exact .stack v n hreg
  | scratch v hv hreg => exact .scratch v (hscratch ▸ hv) hreg
  | address name rt hname hzero hreg hrt => exact .address name rt hname hzero hreg hrt
  | field f v rt hv hreg hrt => exact .field f v rt (lookup_extend hctx hv) hreg hrt
  | metadata v start n hv hstop hn hreg =>
    exact .metadata v start n (lookup_extend hctx hv) (lookup_extend hctx hstop) hn hreg
  | packet f v stop n hf hv hstop hn hreg =>
    exact .packet f v stop n hf (lookup_extend hctx hv) (lookup_extend hctx hstop) hn hreg
  | result d v name canBeNull rt hd hret hlo0 hname hplain hreg hrt =>
    exact .result d v name canBeNull rt (hcalls hd) hret (Nat.le_trans hlo hlo0) hname hplain
      hreg hrt

/-- Where the variable of an argument comes from. -/
theorem Origin.var_cases {size : ℕ} (h : Origin p before size lo t a) (hv : a.name.var? = some v) :
    v ∈ a.prep.vars ∨ v ∈ p.scratchMapVars ∨ v ∈ p.ctxVars.map Prod.snd ∨ ∃ d ∈ before, d.ret =
    some v ∧ lo ≤ v ∧ ∃ rt ∈ (compatibleRegType t).initial, rt ∈ retToRegTypeMap d.helper.ret := by
  cases h with
  | fixed => cases hv
  | number w n prep hw =>
    cases hv
    exact .inl (by simp [hw])
  | stack w n =>
    cases hv
    exact .inl (by simp [Prepare.vars])
  | scratch w hw =>
    cases hv
    exact .inr (.inl hw)
  | address name rt hname => exact absurd (hname.symm.trans hv) (by simp)
  | field _ _ _ hw | metadata _ _ _ hw | packet _ _ _ _ _ hw =>
    cases hv
    exact .inr (.inr (.inl (mem_map_of_mem (mem_of_lookup hw))))
  | result d w name canBeNull rt hd hret hlo hname _ hreg hrt =>
    obtain rfl : w = v := Option.some.inj (hname.symm.trans hv)
    exact .inr (.inr (.inr ⟨d, hd, hret, hlo, rt, hreg, hrt⟩))

theorem ArgOk.mono (h : ArgOk p before a) (hscratch : q.scratchMapVars = p.scratchMapVars)
    (hctx : p.ctxVars <+: q.ctxVars) (hcalls : before ⊆ after) : ArgOk q after a := by
  obtain ⟨size, lo, t, a0, hsize, horigin, ha⟩ := h
  exact ⟨size, lo, t, a0, hsize, horigin.mono hscratch hctx hcalls le_rfl, ha⟩

theorem CallOk.mono {call : BpfCall}
    (h : CallOk p before call) (hscratch : q.scratchMapVars = p.scratchMapVars)
    (hctx : p.ctxVars <+: q.ctxVars) : CallOk q before call :=
  { h with args := fun a ha => (h.args a ha).mono hscratch hctx (List.Subset.refl _) }

variable {new : List BpfCall}

theorem Chain.mono (h : Chain p before new) (hscratch : q.scratchMapVars = p.scratchMapVars)
    (hctx : p.ctxVars <+: q.ctxVars) : Chain q before new := by
  induction new generalizing before with
  | nil => trivial
  | cons c cs ih => exact ⟨h.1.mono hscratch hctx, ih h.2⟩

theorem Chain.append {more : List BpfCall} (h : Chain p before new)
    (hmore : Chain p (before ++ new) more) : Chain p before (new ++ more) := by
  induction new generalizing before with
  | nil => simpa using hmore
  | cons c cs ih => exact ⟨h.1, ih h.2 (by simpa using hmore)⟩

theorem rets_append (xs ys : List BpfCall) : rets (xs ++ ys) = rets xs ++ rets ys := by
  simp [rets]

theorem Extends.refl (p : BpfProg) : Extends p p :=
  ⟨rfl, rfl, prefix_refl _, le_rfl, [], by simp, trivial, by simp [rets], by simp⟩

theorem Extends.trans {r : BpfProg} (hpq : Extends p q) (hqr : Extends q r) : Extends p r := by
  obtain ⟨new, hnew, hchain, hlo, hprod⟩ := hpq.calls
  obtain ⟨more, hmore, hchain', hlo', hprod'⟩ := hqr.calls
  refine ⟨hqr.pt.trans hpq.pt, hqr.scratch.trans hpq.scratch, hpq.ctx.trans hqr.ctx,
    Nat.le_trans hpq.varId hqr.varId, new ++ more, ?_, ?_, ?_, ?_⟩
  · rw [hmore, hnew, append_assoc]
  · exact (hchain.mono hqr.scratch hqr.ctx).append (hnew ▸ hchain')
  · intro v hv
    rcases mem_append.mp (rets_append new more ▸ hv) with hv | hv
    · exact hlo v hv
    · exact Nat.le_trans hpq.varId (hlo' v hv)
  · intro c hc
    rcases mem_append.mp hc with hc | hc
    · exact hprod c hc
    · exact hpq.pt ▸ hprod' c hc

theorem Extends.calls_subset (h : Extends p q) : p.calls ⊆ q.calls := by
  obtain ⟨new, hnew, -, -, -⟩ := h.calls
  rw [hnew]
  exact subset_append_left _ _

theorem Extends.argOk (h : Extends p q) (ha : ArgOk p p.calls a) : ArgOk q q.calls a :=
  ha.mono h.scratch h.ctx h.calls_subset

/-- No variable is declared twice, by the program or by the unfinished calls, whose variables
are `pend`; later variables are not declared at all. -/
structure GenInv (pend : List ℕ) (st : GenState) : Prop where
  fresh : ∀ v, st.prog.declCount v + pend.count v ≤ if v < st.prog.varId then 1 else 0
  pool : st.prog.pool.Bounded
  regs : ∀ tb, ∀ rt ∈ st.regTypes tb, rt ∈ tb.initial

theorem BpfProg.declCount_pos : 0 < p.declCount v ↔
    v ∈ p.scratchMapVars ∨ v ∈ p.ctxVars.map Prod.snd ∨ ∃ c ∈ p.calls, v ∈ c.declares := by
  have hpos : ∀ a b c : ℕ, 0 < a + b + c ↔ 0 < a ∨ 0 < b ∨ 0 < c := by omega
  simp only [BpfProg.declCount, hpos, count_pos_iff, mem_flatMap]

theorem GenInv.lt_of_declared {pend : List ℕ} {st : GenState} (h : GenInv pend st)
    (hv : 0 < st.prog.declCount v + pend.count v) : v < st.prog.varId := by
  have := h.fresh v
  split at this
  · assumption
  · omega

end Brf.HelperCalls
