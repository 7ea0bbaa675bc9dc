import Brf.Verification.Helper.Guards

/-! # What calls require

The requirements of a call's arguments on the run-time values, next to the tests that its guard
makes, and the calls for which the two agree. -/

namespace Brf.HelperCalls

open Brf.Lib BpfArg ArgName ArgType
open Brf.Lib.CExpr (CVal)

def ArgType.isPtr (t : ArgType) : Bool := "ARG_PTR_TO".toList.isPrefixOf t.name.toList

/-- Results that are never null when the call is made. -/
def RetType.neverNull (t : RetType) : Bool := t ∈ [.ptrToMapValue, .ptrToMemOrBtfId, .ptrToBtfId]

/-- The variable a preparation sets to a number, and the number. -/
def Prepare.number : Prepare → Option (ℕ × ℕ)
  | .int64 v n | .int64Scratch v _ n => some (v, n)
  | .none | .chars _ _ => Option.none

/-- The values that the variables can have when a guard is evaluated, each variable by its own
declaration. A result variable is zero until its call is made, so only an unguarded call
guarantees anything about it. -/
structure Admits (p : BpfProg) (ρ : Valuation) : Prop where
  number : ∀ c ∈ p.calls, ∀ a ∈ c.args, ∀ v n, a.prep.number = some (v, n) →
    ρ v = ⟨BitVec.ofNat 64 n, true⟩
  array : ∀ c ∈ p.calls, ∀ a ∈ c.args, ∀ v n, a.prep = .chars v n → (ρ v).bits ≠ 0
  scratch : ∀ v ∈ p.scratchMapVars, (ρ v).bits ≠ 0
  field : FieldsUnsigned p ρ
  result : ∀ c ∈ p.calls, ∀ v, c.ret = some v → (ρ v).signed = false
  produced : ∀ c ∈ p.calls, ∀ v, c.ret = some v → c.helper.ret.neverNull →
    getArgConstraints p c = [] → (ρ v).bits ≠ 0

def BpfProg.fieldValue (p : BpfProg) (ρ : Valuation) (f : String) : ℤ :=
  match p.ctxVars.lookup f with
  | some v => (ρ v).toInt
  | none => 0

theorem BpfProg.fieldValue_of_lookup {p : BpfProg} {ρ : Valuation} {f : String} {v : ℕ}
    (h : p.ctxVars.lookup f = some v) : p.fieldValue ρ f = (ρ v).toInt := by
  rw [BpfProg.fieldValue, h]

def BpfArg.Needed (a : BpfArg) : Prop := a.argType.isPtr ∧ a.canBeNull = false

instance (a : BpfArg) : Decidable a.Needed := inferInstanceAs (Decidable (_ ∧ _))

/-- What an argument requires of the values. -/
structure BpfArg.Meets (p : BpfProg) (ρ : Valuation) (a : BpfArg) : Prop where
  pointer : a.Needed → a.name.NonNull ρ
  metadata : a.isPktMetaAccess → a.name.number ρ + a.accessSize ≤ p.fieldValue ρ "data"
  packet : a.isPktAccess → a.name.number ρ + a.accessSize ≤ p.fieldValue ρ "data_end"
  size : a.argType = .constSize → 0 < a.name.number ρ ∧ a.name.number ρ ≤ a.umax
  sizeOrZero : a.argType = .constSizeOrZero → 0 ≤ a.name.number ρ ∧ a.name.number ρ ≤ a.umax

/-- The guard of a call is true exactly when its arguments have what they require. -/
def Faithful (p : BpfProg) (call : BpfCall) : Prop :=
  ∀ ρ, Admits p ρ → (guardHolds p call ρ ↔ ∀ a ∈ call.args, a.Meets p ρ)

/-! ### Calls with a faithful guard -/

def BpfArg.Unmeetable (a : BpfArg) : Prop :=
  (a.argType = .constSize ∧ (a.umax = 0 ∨ a.name = .zero)) ∨
  (a.argType = .constSizeOrZero ∧ a.umax = 0 ∧ ∃ v n, a.prep.number = some (v, n) ∧ n ≠ 0) ∨
  (a.Needed ∧ a.name = .zero)

/-- The argument has a test that never succeeds: a positive size, a size below zero, or a
constant size below itself. -/
def BpfArg.Dead (a : BpfArg) : Prop :=
  a.argType = .constSize ∨ (a.argType = .constSizeOrZero ∧ (a.umax = 0 ∨ a.prep ≠ .none))

def BpfArg.Tested (a : BpfArg) : Prop := a.canBeNull = false ∧ a.isNotNull = false

/-- The tests of an argument say what it requires: there is no packet access and no variable
size, what is tested for null must not be null, and a result that is used without a test was
produced without a guard. -/
structure BpfArg.Exact (p : BpfProg) (call : BpfCall) (a : BpfArg) : Prop where
  noMetadata : a.isPktMetaAccess = false
  noPacket : a.isPktAccess = false
  noSize : a.argType ≠ .constSize
  noSizeOrZero : a.argType = .constSizeOrZero → a.name = .zero ∧ a.umax ≠ 0
  notZero : a.Needed → a.name ≠ .zero
  untested : a.Needed → a.isNotNull → ∀ d ∈ p.calls, ∀ v, d.ret = some v →
    a.name.var? = some v → getArgConstraints p d = []
  tested : a.Tested → ∃ b ∈ call.args, b.Needed ∧ b.name.var? = a.name.var?

/-! ### Origins of sizes and pointers -/

/-- What a size can be: the constant zero, a number of its own, or the result of a call. -/
inductive SizeOrigin (before : List BpfCall) (a : BpfArg) : Prop
  | zero (hname : a.name = .zero) (hprep : a.prep = .none)
  | number (v n : ℕ) (hname : a.name = .var v) (hprep : a.prep.number = some (v, n))
      (hn : n ≤ maxAccess) (humax : a.umax ≠ 0 → a.umax = n)
  | result (v : ℕ) (d : BpfCall) (hname : a.name = .var v) (hprep : a.prep = .none)
      (hd : d ∈ before) (hret : d.ret = some v) (hinteger : d.helper.ret = .integer)

/-- What other arguments can be. -/
inductive PointerOrigin (p : BpfProg) (before : List BpfCall) (a : BpfArg) : Prop
  | zero (hname : a.name = .zero) (hprep : a.prep = .none) (hnull : a.isNotNull)
  | number (v n : ℕ) (hprep : a.prep.number = some (v, n)) (hptr : a.argType.isPtr = false)
      (hnull : a.isNotNull)
  | address (hname : ∀ ρ, a.name.NonNull ρ) (hprep : a.prep = .none) (hnull : a.isNotNull)
  | array (v n : ℕ) (hname : a.name = .var v) (hprep : a.prep = .chars v n)
      (hnull : a.isNotNull)
  | scratch (v : ℕ) (hname : a.name = .var v) (hprep : a.prep = .none) (hv : v ∈ p.scratchMapVars)
      (hnull : a.isNotNull)
  | field (f : String) (v : ℕ) (hname : a.name = .var v) (hprep : a.prep = .none)
      (hv : p.ctxVars.lookup f = some v) (hnull : a.isNotNull = false)
  | result (v : ℕ) (d : BpfCall) (hname : a.name.var? = some v) (hprep : a.prep = .none)
      (hd : d ∈ before) (hret : d.ret = some v)
      (hnull : a.isNotNull = (d.helper.ret.isNotNull && !a.canBeNull))
      (hnever : a.argType.isPtr → d.helper.ret.isNotNull → d.helper.ret.neverNull)

section Origins

variable {p : BpfProg} {before : List BpfCall} {a : BpfArg}

theorem ArgOk.sizeOrigin (h : ArgOk p before a) (hkind : a.argType.isSize) :
    SizeOrigin before a := by
  obtain ⟨size, lo, t, a0, -, horigin, rfl⟩ := h
  have ht := horigin.argType
  rw [bounded_argType, ht] at hkind
  have humax : (a0.bounded size).umax = size := by simp [bounded_umax, ht, hkind]
  cases horigin with
  | fixed => exact .zero (by simp) (by simp [newBpfArg])
  | number v n prep _ hprep hn hsize _ =>
    refine .number v n (by simp) ?_ hn ?_
    · rw [bounded_prep]
      rcases hprep with rfl | ⟨buf, -, rfl⟩ <;> rfl
    · rw [humax]
      intro hne
      rw [hsize (by exact_mod_cast hne)]
  | stack _ _ hreg | scratch _ _ hreg => cases eq_scalarValue hkind hreg
  | address _ _ _ _ hreg hrt
  | field _ _ _ _ hreg hrt => exact absurd (eq_scalarValue hkind hreg) hrt
  | metadata _ _ _ _ _ _ hreg | packet _ _ _ _ _ _ _ _ hreg => cases eq_scalarValue hkind hreg
  | result d v name canBeNull rt hd hret _ _ hplain hreg hrt =>
    obtain rfl := eq_scalarValue hkind hreg
    have hinteger : d.helper.ret = .integer := by
      revert hrt
      cases d.helper.ret <;> decide
    exact .result v d (by simp [(hplain hinteger).1]) (by simp [newBpfArg]) hd hret hinteger

theorem ArgOk.pointerOrigin (h : ArgOk p before a) (hkind : a.argType.isSize = false) :
    PointerOrigin p before a := by
  obtain ⟨size, lo, t, a0, -, horigin, rfl⟩ := h
  have hbounded : a0.bounded size = a0 := by
    rw [bounded_argType] at hkind
    simp [bounded, hkind]
  rw [hbounded]
  cases horigin with
  | fixed => exact .zero rfl rfl rfl
  | number v n prep _ hprep _ _ hreg =>
    refine .number v n ?_ ?_ rfl
    · rcases hprep with rfl | ⟨buf, -, rfl⟩ <;> rfl
    · change t.isPtr = false
      revert hreg
      cases t <;> decide
  | stack v n _ => exact .array v n rfl rfl rfl
  | scratch v hv _ => exact .scratch v rfl rfl hv rfl
  | address name rt hname hzero _ _ =>
    refine .address ?_ rfl rfl
    cases name <;> simp_all [ArgName.NonNull, var?]
  | field _ v _ hv | metadata v _ _ hv | packet _ v _ _ _ hv => exact .field _ v rfl rfl hv rfl
  | result d v name canBeNull rt hd hret _ hname _ hreg hrt =>
    refine .result v d hname rfl hd hret rfl ?_
    have hscalar : t.isPtr → rt ≠ .scalarValue := by
      rintro hptr rfl
      revert hreg hptr
      cases t <;> decide
    intro hptr
    revert hrt
    cases d.helper.ret <;> simp [retToRegTypeMap, RetType.isNotNull, RetType.neverNull]
    exact hscalar hptr

end Origins

section Agreement

variable {p : BpfProg} {call : BpfCall} {a : BpfArg} {ρ : Valuation}

theorem NonNull_iff {name : ArgName} {v : ℕ} (h : name.var? = some v) :
    name.NonNull ρ ↔ (ρ v).bits ≠ 0 := by
  cases name <;> simp_all [var?, ArgName.NonNull]

theorem toInt_ofNat {n : ℕ} (h : n < 2 ^ 63) (signed : Bool) :
    CVal.toInt ⟨BitVec.ofNat 64 n, signed⟩ = n := by
  cases signed with
  | false =>
    simp only [CVal.toInt, Bool.false_eq_true, if_false, BitVec.toNat_ofNat]
    rw [Nat.mod_eq_of_lt (by omega)]
  | true =>
    simp only [CVal.toInt, if_true]
    rw [BitVec.toInt_eq_toNat_of_lt, BitVec.toNat_ofNat, Nat.mod_eq_of_lt (by omega)]
    rw [BitVec.toNat_ofNat]
    omega

theorem Admits.number_eq (h : Admits p ρ) (hcall : call ∈ p.calls) (ha : a ∈ call.args) {v n : ℕ}
    (hname : a.name = .var v) (hprep : a.prep.number = some (v, n)) (hn : n ≤ maxAccess) :
    a.name.number ρ = n := by
  rw [hname, ArgName.number, h.number call hcall a ha v n hprep]
  exact toInt_ofNat (Nat.lt_of_le_of_lt hn (by decide)) true

theorem Admits.size_nonneg (h : Admits p ρ) (hcall : call ∈ p.calls) (ha : a ∈ call.args)
    (horigin : SizeOrigin p.calls a) : 0 ≤ a.name.number ρ := by
  cases horigin with
  | zero hname _ => simp [hname, ArgName.number]
  | number v n hname hprep hn _ =>
    rw [h.number_eq hcall ha hname hprep hn]
    exact Int.natCast_nonneg n
  | result v d hname _ hd hret _ => simp [hname, ArgName.number, CVal.toInt, h.result d hd v hret]

theorem BpfArg.test_of_size (hshape : ArgShape p a) (hkind : a.argType.isSize) :
    a.Test p ρ ↔ a.argType ≠ .constSize ∧ a.name.number ρ < a.umax := by
  obtain ⟨hnull, hmeta, hpacket, -, -⟩ := hshape.size hkind
  simp [BpfArg.Test, hnull, hmeta, hpacket, hkind]

theorem not_test_of_dead (hp : ProgOk p) (hcall : call ∈ p.calls) (ha : a ∈ call.args)
    (hρ : Admits p ρ) (hdead : a.Dead) : ¬ a.Test p ρ := by
  have hok := (hp.calls call hcall).args a ha
  rcases hdead with hkind | ⟨hkind, hdead⟩
  · rw [test_of_size hok.shape (by simp [hkind, isSize])]
    exact fun h => h.1 hkind
  · have hsize : a.argType.isSize := by simp [hkind, isSize]
    have horigin := hok.sizeOrigin hsize
    have hnonneg := hρ.size_nonneg hcall ha horigin
    rw [test_of_size hok.shape hsize]
    rintro ⟨-, hlt⟩
    rcases hdead with humax | hprep
    · omega
    · cases horigin with
      | zero _ hnone => exact hprep hnone
      | number v n hname hnumber hn humax =>
        rw [hρ.number_eq hcall ha hname hnumber hn] at hlt
        omega
      | result _ _ _ hnone _ _ _ => exact hprep hnone

theorem not_meets_of_unmeetable (hp : ProgOk p) (hcall : call ∈ p.calls) (ha : a ∈ call.args)
    (hρ : Admits p ρ) (h : a.Unmeetable) : ¬ a.Meets p ρ := by
  intro hmeets
  rcases h with ⟨hkind, humax | hzero⟩ | ⟨hkind, humax, v, n, hnumber, hn⟩ | ⟨hneeded, hzero⟩
  · have := hmeets.size hkind
    omega
  · have := hmeets.size hkind
    simp [hzero, number] at this
  · have hle := (hmeets.sizeOrZero hkind).2
    have horigin := ((hp.calls call hcall).args a ha).sizeOrigin (by simp [hkind, isSize])
    cases horigin with
    | zero _ hnone => simp [hnone, Prepare.number] at hnumber
    | number w m hname hnumber' hm _ =>
      rw [hρ.number_eq hcall ha hname hnumber' hm] at hle
      rw [hnumber] at hnumber'
      cases hnumber'
      omega
    | result _ _ _ hnone _ _ _ => simp [hnone, Prepare.number] at hnumber
  · have hnull := hmeets.pointer hneeded
    rw [hzero] at hnull
    exact hnull

theorem isSize_of_ptr (h : a.argType.isPtr) : a.argType.isSize = false := by
  revert h
  cases a.argType <;> decide

theorem BpfArg.Exact.nonNull (hp : ProgOk p) (hcall : call ∈ p.calls) (ha : a ∈ call.args)
    (hρ : Admits p ρ) (hexact : a.Exact p call) (hneeded : a.Needed) (hnull : a.isNotNull) :
    a.name.NonNull ρ := by
  have horigin := ((hp.calls call hcall).args a ha).pointerOrigin (isSize_of_ptr hneeded.1)
  cases horigin with
  | zero hname _ _ => exact absurd hname (hexact.notZero hneeded)
  | number v n _ hptr _ => exact absurd (hneeded.1.symm.trans hptr) (by decide)
  | address hname _ _ => exact hname ρ
  | array v n hname hprep _ =>
    rw [hname]
    exact hρ.array call hcall a ha v n hprep
  | scratch v hname _ hv _ =>
    rw [hname]
    exact hρ.scratch v hv
  | field f v _ _ _ hno => exact absurd (hnull.symm.trans hno) (by decide)
  | result v d hname _ hd hret hflag hnever =>
    rw [hnull, hneeded.2, Bool.not_false, Bool.and_true] at hflag
    rw [NonNull_iff hname]
    exact hρ.produced d hd v hret (hnever hneeded.1 hflag.symm)
      (hexact.untested hneeded hnull d hd v hret hname)

/-- Exact tests make the guard say what the arguments require. -/
theorem faithful_of_exact (hp : ProgOk p) (hcall : call ∈ p.calls)
    (hexact : ∀ a ∈ call.args, a.Exact p call) : Faithful p call := by
  intro ρ hρ
  have hok := (hp.calls call hcall).args
  rw [guardHolds_iff (fun a ha => (hok a ha).shape) hρ.field]
  have htested : ∀ a ∈ call.args, a.Tested → (a.Test p ρ ↔ a.name.NonNull ρ) := by
    intro a ha ⟨hnull, hnot⟩
    simp [BpfArg.Test, (hexact a ha).noMetadata, (hexact a ha).noPacket, hnull, hnot]
  have hzero : ∀ a ∈ call.args, a.argType.isSize → a.name = .zero ∧ 0 < a.umax := by
    intro a ha hkind
    have hOrZero : a.argType = .constSizeOrZero := by
      simp only [isSize, Bool.or_eq_true, decide_eq_true_eq] at hkind
      exact hkind.resolve_left (hexact a ha).noSize
    obtain ⟨hname, hne⟩ := (hexact a ha).noSizeOrZero hOrZero
    obtain ⟨-, -, -, ⟨n, -, humax⟩, -⟩ := (hok a ha).shape.size hkind
    exact ⟨hname, by omega⟩
  constructor
  · intro htests a ha
    have hex := hexact a ha
    refine ⟨?_, ?_, ?_, fun h => absurd h hex.noSize, ?_⟩
    · intro hneeded
      cases hnull : a.isNotNull with
      | true => exact hex.nonNull hp hcall ha hρ hneeded hnull
      | false => exact (htested a ha ⟨hneeded.2, hnull⟩).mp (htests a ha)
    · exact fun h => absurd (h.symm.trans hex.noMetadata) (by decide)
    · exact fun h => absurd (h.symm.trans hex.noPacket) (by decide)
    · intro hkind
      obtain ⟨hname, hpos⟩ := hzero a ha (by simp [hkind, isSize])
      rw [hname, number]
      omega
  · intro hmeets a ha
    by_cases htest : a.Tested
    · obtain ⟨b, hb, hneeded, hvar⟩ := (hexact a ha).tested htest
      rw [htested a ha htest]
      obtain ⟨v, hv⟩ := (hok a ha).shape.tested htest.1 htest.2
      rw [NonNull_iff hv, ← NonNull_iff (hvar.trans hv)]
      exact (hmeets b hb).pointer hneeded
    · cases hkind : a.argType.isSize with
      | true =>
        obtain ⟨hname, hpos⟩ := hzero a ha hkind
        rw [test_of_size (hok a ha).shape hkind, hname]
        exact ⟨(hexact a ha).noSize, hpos⟩
      | false =>
        have hno : (!a.canBeNull && !a.isNotNull) = false := by
          cases hnull : a.canBeNull <;> cases hnot : a.isNotNull <;> simp_all [BpfArg.Tested]
        simp [BpfArg.Test, (hexact a ha).noMetadata, (hexact a ha).noPacket, hno,
          (hexact a ha).noSize, hkind]

end Agreement

end Brf.HelperCalls
