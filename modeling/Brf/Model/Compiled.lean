import Brf.Model.Prog

/-! # What the description compiler guarantees

`pkg/compiler` rejects descriptions that would break these conditions; the `prog` package
relies on them without checking. -/

namespace Brf

/-- Types whose descriptor answers `CanBeArgRet` with true, unions apart. -/
def Typ.canBeArg : Typ → Bool
  | .resource .. | .int .. | .flags .. | .len .. | .proc .. | .vma .. | .ptr .. => true
  -- paddings only come into being between the fields of structs
  | .const _ _ isPad => !isPad
  | .buffer _ kind _ _ _ _ => kind == .compressed
  | _ => false

/-- `CanBeArgRet` on the type of a syscall argument: a union qualifies if all its options do. -/
def Target.canBeArg (t : Target) (r : Ref) : Bool :=
  match t.type r with
  | .union _ fields => fields.all fun f => (t.type f.type).canBeArg
  | typ => typ.canBeArg

/-- Integers have up to 8 bytes, or up to 23 in a textual format. -/
def IntTypeCommon.Small (c : IntTypeCommon) : Prop :=
  c.unitSize < 256 ∧ c.bitfieldOff < 256 ∧ c.bitfieldLen < 256

instance (c : IntTypeCommon) : Decidable c.Small :=
  inferInstanceAs (Decidable (_ ∧ _ ∧ _))

/-- What the compiler makes sure of for each type. -/
def Typ.Compiled : Typ → Prop
  | .resource c _ _ => 0 < c.typeSize ∧ c.typeSize < 256
  | .const c _ isPad => isPad = false → c.Small
  | .int c .. | .flags c .. | .len c .. | .proc c .. | .csum c .. => c.Small
  | .vma c _ _ | .ptr c _ _ => c.typeSize < 256
  -- `unionFieldAttrs` has no direction attribute but `in`
  | .union _ fields => ∀ f ∈ fields, f.hasDirection → f.direction = .dirIn
  | _ => True

instance (typ : Typ) : Decidable typ.Compiled := by
  cases typ <;> unfold Typ.Compiled <;> infer_instance

structure Target.Compiled (t : Target) : Prop where
  types : ∀ r, (t.type r).Compiled
  /-- Arguments of syscalls are passed by value. -/
  argTypes : ∀ s ∈ t.syscalls, ∀ f ∈ s.args, t.canBeArg f.type
  /-- `prog.MaxArgs`. -/
  numArgs : ∀ s ∈ t.syscalls, s.args.length ≤ 9
  /-- `initTarget` numbers the syscalls. -/
  syscallIds : ∀ i (s : Syscall), t.syscalls[i]? = some s → s.id = i
  /-- `checkMaxCallID`. -/
  numSyscalls : t.syscalls.length ≤ 0x200000

namespace Target.Compiled

variable {t : Target} (h : t.Compiled) {r : Ref}

include h

theorem unionDirs {c : VarTypeCommon} {fields : List Field} (htype : t.type r = .union c fields) :
    ∀ f ∈ fields, f.hasDirection → f.direction = .dirIn := by
  have := h.types r
  rwa [htype] at this

theorem intSizes {c : IntTypeCommon} (htype : (t.type r).intCommon? = some c)
    (hpad : (t.type r).isPad = false) : c.Small := by
  have := h.types r
  cases hty : t.type r <;> simp_all [Typ.Compiled, Typ.intCommon?, Typ.isPad]

variable {c : TypeCommon}

theorem resourceSizes {f : BinaryFormat} {desc : ResourceDesc}
    (htype : t.type r = .resource c f desc) : 0 < c.typeSize ∧ c.typeSize < 256 := by
  have := h.types r
  rwa [htype] at this

theorem vmaSizes {b e : UInt64} (htype : t.type r = .vma c b e) : c.typeSize < 256 := by
  have := h.types r
  rwa [htype] at this

theorem ptrSizes {elem : Ref} {dir : Dir} (htype : t.type r = .ptr c elem dir) :
    c.typeSize < 256 := by
  have := h.types r
  rwa [htype] at this

end Target.Compiled

theorem forall_getD {P : Typ → Prop} {types : List Typ} {d : Typ} (h : ∀ typ ∈ d :: types, P typ)
    (r : Ref) : P (types.getD r d) := by
  cases hr : types[r]? with
  | none => simpa [List.getD, hr] using h d List.mem_cons_self
  | some typ =>
    simpa [List.getD, hr] using h typ (List.mem_cons_of_mem d (List.mem_of_getElem? hr))

end Brf
