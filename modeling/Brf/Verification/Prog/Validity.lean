import Brf.Model.Validation

/-! # What validation accepts

`Prog.validate` threads a context through the trees. Its verdict splits into a typing
condition on each tree and a condition on the sequence of result arguments, in the order
they are visited. -/

namespace Brf

open List ValidCtx Arg

variable {u : Unit}

section Monad

variable {α β : Type} {x : Valid α}

@[simp] theorem valid_bind_eq_ok {f : α → Valid β} {b : β} :
    (x >>= f) = .ok b ↔ ∃ a, x = .ok a ∧ f a = .ok b := by
  cases x with
  | error | ok => simp [bind, Except.bind]

variable {b a : α}

@[simp] theorem valid_pure_eq_ok : (pure a : Valid α) = .ok b ↔ a = b := by
  simp [pure, Except.pure]

variable {err : ValidError}

@[simp] theorem valid_throw_ne_ok : ¬ (throw err : Valid α) = .ok b := by
  simp [throw, throwThe, MonadExceptOf.throw]

@[simp] theorem reject_eq_ok {bad : Bool} : reject bad err = .ok u ↔ bad = false := by
  cases bad <;> simp [reject]

@[simp] theorem mapError_eq_ok {f : ValidError → ValidError} :
    x.mapError f = .ok a ↔ x = .ok a := by
  cases x with
  | error e => exact iff_of_false (by rintro ⟨⟩) (by rintro ⟨⟩)
  | ok b => exact Iff.rfl

theorem exists_unit {P : Unit → Prop} : (∃ u, P u) ↔ P () :=
  ⟨fun ⟨(), h⟩ => h, fun h => ⟨(), h⟩⟩

end Monad

/-- What `ResultArg.validate` asks, `seen` being the result arguments visited up to and
including this one. -/
structure ResultOk (t : Target) (p : Prog) (seen : List ArgId) (r : ResultArg) : Prop where
  resource : ∃ c f desc, t.type r.ref = .resource c f desc ∧
    (r.dir = .dirOut → r.val = 0 ∨ r.val = desc.default) ∧
    (p.isUsed r.id → c.typeSize ≤ 8)
  uses : ∀ u ∈ p.usesOf r.id, p.brokenUse r.id u = false
  res : ∀ x, r.res = some x → x ∈ seen ∧ (x, r.id) ∈ p.uses
  dirIn : r.dir = .dirIn → p.isUsed r.id = false

/-- `ResultOk` along a sequence of fresh result arguments. -/
def ResultsOk (t : Target) (p : Prog) : (seen : List ArgId) → List ResultArg → Prop
  | _, [] => True
  | seen, r :: rs => r.id ∉ seen ∧ ResultOk t p (seen ++ [r.id]) r ∧
      ResultsOk t p (seen ++ [r.id]) rs

variable {ctx ctx' : ValidCtx}

section Results

variable {t : Target} {p : Prog} {seen : List ArgId} {rs : List ResultArg} {rs' : List ResultArg}

theorem resultsOk_append : ResultsOk t p seen (rs ++ rs') ↔
    ResultsOk t p seen rs ∧ ResultsOk t p (seen ++ rs.map ResultArg.id) rs' := by
  induction rs generalizing seen with
  | nil => simp [ResultsOk]
  | cons r rs ih => simp [ResultsOk, ih, and_assoc]

theorem ResultsOk.nodup (h : ResultsOk t p seen rs)
    (hseen : seen.Nodup) : (seen ++ rs.map ResultArg.id).Nodup := by
  induction rs generalizing seen with
  | nil => simpa using hseen
  | cons r rs ih =>
    have hcons : (seen ++ [r.id]).Nodup := by
      rw [nodup_append]
      refine ⟨hseen, by simp, ?_⟩
      intro a ha b hb hab
      obtain rfl : b = r.id := by simpa using hb
      exact h.1 (hab ▸ ha)
    simpa using ih h.2.2 hcons

variable {r : ResultArg}

theorem ResultsOk.ok (h : ResultsOk t p seen (rs ++ r :: rs')) :
    ResultOk t p (seen ++ rs.map ResultArg.id ++ [r.id]) r := by
  have hr := (resultsOk_append.mp h).2
  exact hr.2.1

theorem validateRes_eq_ok {args : List ArgId} {name : String} :
    validateRes p args name r = .ok u ↔ ∀ x, r.res = some x → x ∈ args ∧ (x, r.id) ∈ p.uses := by
  cases h : r.res <;> simp [validateRes, h]

theorem validateResult_eq_ok : validateResult t p ctx r = .ok ctx' ↔ ResultOk t p ctx.args r ∧
    { ctx with uses := ctx.uses ++ p.usesOf r.id } = ctx' := by
  cases htype : t.type r.ref with
  | resource c f desc =>
    simp only [validateResult, htype, valid_bind_eq_ok, reject_eq_ok, validateRes_eq_ok,
      valid_pure_eq_ok, exists_const]
    constructor
    · rintro ⟨huses, hval, hres, hin, hsize, rfl⟩
      refine ⟨⟨⟨c, f, desc, htype, ?_, ?_⟩, ?_, hres, ?_⟩, rfl⟩
      · intro hdir
        simpa [hdir, Decidable.or_iff_not_imp_left] using hval
      · intro hused
        simpa [hused] using hsize
      · simpa using huses
      · intro hdir
        simpa [hdir] using hin
    · rintro ⟨h, rfl⟩
      obtain ⟨c', f', desc', htype', hval, hsize⟩ := h.resource
      obtain ⟨rfl, rfl, rfl⟩ : c = c' ∧ f = f' ∧ desc = desc' := by
        simpa [htype] using htype'
      refine ⟨by simpa using h.uses, ?_, h.res, ?_, ?_, rfl⟩
      · by_cases hdir : r.dir = .dirOut
        · simpa [hdir, Decidable.or_iff_not_imp_left] using hval hdir
        · simp [hdir]
      · by_cases hdir : r.dir = .dirIn
        · simp [hdir, h.dirIn hdir]
        · simp [hdir]
      · by_cases hused : p.isUsed r.id
        · simpa [hused] using hsize hused
        · simp [hused]
  | _ =>
    simp only [validateResult, htype, valid_throw_ne_ok, false_iff, not_and]
    intro h
    obtain ⟨c, f, desc, htype', -⟩ := h.resource
    simp [htype] at htype'

end Results

/-- The checks `validateArg` makes for every kind of argument. -/
structure Fits (t : Target) (a : Arg) (typ : Ref) (dir : Dir) : Prop where
  dir_ok : a.dir = t.effectiveDir typ dir ∨ t.effectiveDir typ dir = .dirInOut
  type_ok : t.isAnyPtr a.ref ∨ a.ref = typ

mutual

/-- The tree fits the position `typ`, `dir`, result links apart. -/
def Arg.WellTyped (t : Target) (typ : Ref) (dir : Dir) : Arg → Prop
  | .const c val => Fits t (.const c val) typ dir ∧ validateConst t c val = .ok ()
  | .result r => Fits t (.result r) typ dir
  | .data ref d bytes => Fits t (.data ref d bytes) typ dir ∧
      validateData t ref (UInt64.ofNat bytes.length) bytes = .ok ()
  | .outData ref size => Fits t (.outData ref size) typ dir ∧ validateData t ref size [] = .ok ()
  | .group c inner => Fits t (.group c inner) typ dir ∧
      ∃ slots, groupSlots t c.ref (t.effectiveDir typ dir) inner.length = .ok slots ∧
        Arg.WellTypedList t slots inner
  | .union c opt index => Fits t (.union c opt index) typ dir ∧
      ∃ slot, unionSlot t c.ref (t.effectiveDir typ dir) index = .ok slot ∧
        opt.WellTyped t slot.1 slot.2
  | .pointer a res => Fits t (.pointer a res) typ dir ∧
      (∃ slot, pointeeSlot t a.ref = .ok slot ∧ res.WellTyped t slot.1 slot.2) ∧
      validatePointer t a = .ok () ∧ validateAddress t a (some (res.size t)) = .ok ()
  | .pointerNil a => Fits t (.pointerNil a) typ dir ∧
      validatePointer t a = .ok () ∧ validateAddress t a none = .ok ()

def Arg.WellTypedList (t : Target) : List (Ref × Dir) → List Arg → Prop
  | slot :: slots, a :: as => a.WellTyped t slot.1 slot.2 ∧ Arg.WellTypedList t slots as
  | _, _ => True

end

/-- The context after the given result arguments have been visited. -/
def ValidCtx.after (p : Prog) (ctx : ValidCtx) (rs : List ResultArg) : ValidCtx :=
  ⟨ctx.args ++ rs.map ResultArg.id, ctx.uses ++ rs.flatMap fun r => p.usesOf r.id⟩

section Trees

variable {t : Target} {p : Prog}

@[simp] theorem ValidCtx.after_nil (ctx : ValidCtx) : ctx.after p [] = ctx := by
  simp [after]

theorem ValidCtx.after_append (ctx : ValidCtx) (rs rs' : List ResultArg) :
    ctx.after p (rs ++ rs') = (ctx.after p rs).after p rs' := by
  simp [after]

variable {typ : Ref} {dir : Dir}

theorem fits_iff {a : Arg} :
    Fits t a typ dir ↔ (a.dir = t.effectiveDir typ dir ∨ t.effectiveDir typ dir = .dirInOut) ∧
      (t.isAnyPtr a.ref ∨ a.ref = typ) :=
  ⟨fun h => ⟨h.dir_ok, h.type_ok⟩, fun h => ⟨h.1, h.2⟩⟩

theorem validateCommon_eq_ok {a : Arg} : validateCommon t ctx a typ dir = .ok ctx' ↔
    Fits t a typ dir ∧ (∀ id ∈ a.ownIds, id ∉ ctx.args) ∧
    { ctx with args := ctx.args ++ a.ownIds } = ctx' := by
  simp only [validateCommon, valid_bind_eq_ok, reject_eq_ok, exists_const, fits_iff,
    Bool.and_eq_false_iff, bne_eq_false_iff_eq, Bool.not_eq_false', valid_pure_eq_ok,
    any_eq_false, contains_eq_mem, decide_eq_true_eq]
  constructor
  · rintro ⟨hid, hdir, htype, hctx⟩
    exact ⟨⟨hdir, htype⟩, hid, hctx⟩
  · rintro ⟨⟨hdir, htype⟩, hid, hctx⟩
    exact ⟨hid, hdir, htype, hctx⟩

theorem bind_validateCommon {a : Arg} {f : ValidCtx → Valid ValidCtx} (ha : a.ownIds = []) :
    (validateCommon t ctx a typ dir >>= f) = .ok ctx' ↔ Fits t a typ dir ∧ f ctx = .ok ctx' := by
  simp [validateCommon_eq_ok, ha, and_assoc]

variable {slots : List (Ref × Dir)}

theorem groupSlots_length {ref : Ref} {n : ℕ}
    (h : groupSlots t ref dir n = .ok slots) : slots.length = n := by
  unfold groupSlots at h
  split at h
  · simp only [valid_bind_eq_ok, reject_eq_ok, bne_eq_false_iff_eq, exists_const,
      valid_pure_eq_ok] at h
    rw [← h.2, length_map, h.1]
  · simp only [valid_bind_eq_ok, valid_pure_eq_ok] at h
    obtain ⟨_, -, rfl⟩ := h
    exact length_replicate
  · simp at h

/-- The verdict of `validateArg` on one tree, in any context and at any position. -/
def Verdict (t : Target) (p : Prog) (a : Arg) : Prop :=
  ∀ (ctx ctx' : ValidCtx) (typ : Ref) (dir : Dir), validateArg t p ctx typ dir a = .ok ctx' ↔
    a.WellTyped t typ dir ∧ ResultsOk t p ctx.args a.results ∧ ctx.after p a.results = ctx'

theorem validateArgs_of_verdict {as : List Arg} (h : ∀ a ∈ as, Verdict t p a)
    (hlen : slots.length = as.length) : validateArgs t p ctx slots as = .ok ctx' ↔
    Arg.WellTypedList t slots as ∧ ResultsOk t p ctx.args (resultsList as) ∧
    ctx.after p (resultsList as) = ctx' := by
  induction as generalizing ctx slots with
  | nil =>
    simp [validateArgs, Arg.WellTypedList, resultsList, ResultsOk]
  | cons a as ih =>
    obtain ⟨slot, slots, rfl⟩ := exists_cons_of_length_eq_add_one hlen
    have hlen' : slots.length = as.length := by simpa using hlen
    have ha : Verdict t p a := h a mem_cons_self
    have has : ∀ b ∈ as, Verdict t p b := fun b hb => h b (mem_cons_of_mem a hb)
    simp only [validateArgs, valid_bind_eq_ok, ha _ _ _ _, ih has hlen', Arg.WellTypedList,
      resultsList, resultsOk_append, after_append]
    constructor
    · rintro ⟨_, ⟨ha, hra, rfl⟩, has, hras, rfl⟩
      exact ⟨⟨ha, has⟩, ⟨hra, hras⟩, rfl⟩
    · rintro ⟨⟨ha, has⟩, ⟨hra, hras⟩, rfl⟩
      exact ⟨_, ⟨ha, hra, rfl⟩, has, hras, rfl⟩

/-- By induction on the argument: the check accepts the well-typed ones. -/
theorem validateArg_verdict (a : Arg) : Verdict t p a := by
  induction a using tree_induction with
  | const | data | outData | pointerNil =>
    intro ctx ctx' typ dir
    rw [validateArg, bind_validateCommon rfl]
    simp only [WellTyped, results, ResultsOk, valid_bind_eq_ok, valid_pure_eq_ok, exists_unit,
      after_nil, true_and, and_assoc]
  | result r =>
    intro ctx ctx' typ dir
    simp [validateArg, validateCommon_eq_ok, validateResult_eq_ok, ownIds, WellTyped, results,
      ResultsOk, ValidCtx.after, and_assoc]
  | union c opt index ih =>
    intro ctx ctx' typ dir
    rw [validateArg, bind_validateCommon rfl]
    simp only [WellTyped, results, valid_bind_eq_ok, ih _ _ _ _, ← and_assoc, exists_and_right]
  | pointer a res ih =>
    intro ctx ctx' typ dir
    rw [validateArg, bind_validateCommon rfl]
    simp only [WellTyped, results, valid_bind_eq_ok, ih _ _ _ _, valid_pure_eq_ok, exists_unit]
    constructor
    · rintro ⟨hfits, slot, hslot, _, ⟨hopt, hres, rfl⟩, hptr, haddr, rfl⟩
      exact ⟨⟨hfits, ⟨slot, hslot, hopt⟩, hptr, haddr⟩, hres, rfl⟩
    · rintro ⟨⟨hfits, ⟨slot, hslot, hopt⟩, hptr, haddr⟩, hres, rfl⟩
      exact ⟨hfits, slot, hslot, _, ⟨hopt, hres, rfl⟩, hptr, haddr, rfl⟩
  | group c inner ih =>
    intro ctx ctx' typ dir
    rw [validateArg, bind_validateCommon rfl]
    simp only [WellTyped, results, valid_bind_eq_ok]
    constructor
    · rintro ⟨hfits, slots, hslots, hinner⟩
      rw [validateArgs_of_verdict ih (groupSlots_length hslots)] at hinner
      obtain ⟨hwt, hres, rfl⟩ := hinner
      exact ⟨⟨hfits, slots, hslots, hwt⟩, hres, rfl⟩
    · rintro ⟨⟨hfits, slots, hslots, hwt⟩, hres, rfl⟩
      refine ⟨hfits, slots, hslots, ?_⟩
      rw [validateArgs_of_verdict ih (groupSlots_length hslots)]
      exact ⟨hwt, hres, rfl⟩

end Trees

def RetOk (t : Target) : Option Ref → Option ResultArg → Prop
  | none, none => True
  | some typ, some r =>
    (r.res = none ∧ r.val = 0 ∧ r.opDiv = 0 ∧ r.opAdd = 0) ∧ (result r).WellTyped t typ .dirOut
  | _, _ => False

/-- What `validateCall` asks of a call, the links between its result arguments apart. -/
structure CallOk (t : Target) (c : Call) : Prop where
  enabled : c.syscall.disabled = false
  props : ¬ (0 < c.props.rerun ∧ 0 < c.props.failNth)
  numArgs : c.args.length = c.syscall.args.length
  args : Arg.WellTypedList t (c.syscall.args.map fun f => (f.type, .dirIn)) c.args
  ret : RetOk t c.syscall.ret c.ret

section Calls

variable {t : Target} {p : Prog} {c : Call}

theorem validateRet_eq_ok : validateRet t p ctx c = .ok ctx' ↔ RetOk t c.syscall.ret c.ret ∧
    ResultsOk t p ctx.args c.ret.toList ∧ ctx.after p c.ret.toList = ctx' := by
  cases hret : c.syscall.ret <;> cases hr : c.ret <;>
    simp [validateRet, hret, hr, RetOk, ResultsOk, validateArg_verdict _ _ _ _ _, results,
      and_assoc]

theorem validateCall_eq_ok : validateCall t p ctx c = .ok ctx' ↔ CallOk t c ∧
    ResultsOk t p ctx.args c.results ∧ ctx.after p c.results = ctx' := by
  by_cases hlen : c.args.length = c.syscall.args.length
  · have hslots : (c.syscall.args.map fun f => (f.type, Dir.dirIn)).length = c.args.length := by
      simp [hlen]
    simp only [validateCall, valid_bind_eq_ok, reject_eq_ok, exists_unit, validateRet_eq_ok,
      validateArgs_of_verdict (fun a _ => validateArg_verdict a) hslots, Call.results,
      resultsOk_append, after_append]
    constructor
    · rintro ⟨hen, hprops, -, _, ⟨hargs, hra, rfl⟩, hret, hrr, rfl⟩
      exact ⟨⟨hen, by simpa using hprops, hlen, hargs, hret⟩, ⟨hra, hrr⟩, rfl⟩
    · rintro ⟨h, ⟨hra, hrr⟩, rfl⟩
      exact ⟨h.enabled, by simpa using h.props, by simpa using hlen, _, ⟨h.args, hra, rfl⟩, h.ret,
        hrr, rfl⟩
  · constructor
    · intro h
      simp [validateCall, hlen] at h
    · rintro ⟨h, -⟩
      exact absurd h.numArgs hlen

theorem validateCalls_eq_ok {cs : List Call} : validateCalls t p ctx cs = .ok ctx' ↔
    (∀ c ∈ cs, CallOk t c) ∧ ResultsOk t p ctx.args (cs.flatMap Call.results) ∧
    ctx.after p (cs.flatMap Call.results) = ctx' := by
  induction cs generalizing ctx with
  | nil => simp [validateCalls, ResultsOk]
  | cons c cs ih =>
    simp only [validateCalls, valid_bind_eq_ok, mapError_eq_ok, validateCall_eq_ok, ih,
      flatMap_cons, resultsOk_append, after_append, forall_mem_cons]
    constructor
    · rintro ⟨_, ⟨hc, hrc, rfl⟩, hcs, hrcs, rfl⟩
      exact ⟨⟨hc, hcs⟩, ⟨hrc, hrcs⟩, rfl⟩
    · rintro ⟨⟨hc, hcs⟩, ⟨hrc, hrcs⟩, rfl⟩
      exact ⟨_, ⟨hc, hrc, rfl⟩, hcs, hrcs, rfl⟩

/-- What it takes for `validate` to accept a program. -/
structure ProgOk (t : Target) (p : Prog) : Prop where
  calls : ∀ c ∈ p.calls, CallOk t c
  results : ResultsOk t p [] p.results
  inTree : ∀ r ∈ p.results, ∀ u ∈ p.usesOf r.id, u ∈ p.results.map ResultArg.id

/-- The checker accepts exactly the programs of the specification. -/
theorem validate_eq_ok : p.validate t = .ok () ↔ ProgOk t p := by
  have huses : ((p.results.flatMap fun r => p.usesOf r.id).any
      fun u => !(p.results.map ResultArg.id).contains u) = false ↔
      ∀ r ∈ p.results, ∀ u ∈ p.usesOf r.id, u ∈ p.results.map ResultArg.id := by
    simp only [any_eq_false, mem_flatMap, Bool.not_eq_true, Bool.not_eq_false',
      contains_eq_mem, decide_eq_true_eq]
    exact ⟨fun h r hr u hu => h u ⟨r, hr, hu⟩, fun h u ⟨r, hr, hu⟩ => h r hr u hu⟩
  simp only [Prog.validate, valid_bind_eq_ok, validateCalls_eq_ok, reject_eq_ok]
  constructor
  · rintro ⟨_, ⟨hcalls, hres, rfl⟩, hin⟩
    exact ⟨hcalls, hres, huses.mp hin⟩
  · intro h
    exact ⟨_, ⟨h.calls, h.results, rfl⟩, huses.mpr h.inTree⟩

end Calls

/-- A target with the sizes of amd64. -/
def smallTarget (syscalls : List Syscall) (types : List Typ) : Target where
  ptrSize := 8
  pageSize := 4096
  numPages := 4096
  dataOffset := 0x20000000
  syscalls
  specialPointers := [0, 0xffffffffffffffff]
  type r := types.getD r (.vma ⟨"vma", 8, false⟩ 0 0)
  anyArray := 9
  anyPtrPtr := 9
  anyPtr64 := 9

end Brf
