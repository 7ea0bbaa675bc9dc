import Mathlib.Data.List.Nodup
import Brf.Model.Checksum
import Brf.Model.Compiled
import Brf.Verification.Prog.Validity

/-! # What `ForeachArg` visits

The visits of a tree meet every argument of the tree once, results in the order validation
meets them. Outside of memory there are only the arguments passed by value. -/

namespace Brf

open List Arg Visit Target Function Nat

def Visit.result? (v : Visit) : Option ResultArg :=
  match v.arg with
  | .result r => some r
  | _ => none

def visitResults (vs : List Visit) : List ResultArg := vs.filterMap result?

@[simp] theorem visitResults_nil : visitResults [] = [] := rfl

@[simp] theorem visitResults_append (vs us : List Visit) :
    visitResults (vs ++ us) = visitResults vs ++ visitResults us :=
  filterMap_append

theorem visitResults_cons (v : Visit) (vs : List Visit) :
    visitResults (v :: vs) = v.result?.toList ++ visitResults vs := by
  cases h : v.result? <;> simp [visitResults, h]

section

variable {t : Target} {as : List Arg}

theorem visitResults_visitsInner
    (h : ∀ a ∈ as, ∀ path base offset, visitResults (a.visits t path base offset) = a.results)
    (path : List ℕ) (overlay : ℕ) (base : Option PointerArg) (start : UInt64) (i : ℕ)
    (offset : UInt64) :
    visitResults (visitsInner t path overlay base start i offset as) = resultsList as := by
  induction as generalizing i offset with
  | nil => rfl
  | cons a as ih =>
    simp only [visitsInner, visitResults_append, resultsList]
    rw [h a mem_cons_self, ih fun b hb => h b (mem_cons_of_mem a hb)]

theorem visitResults_visits (a : Arg) :
    ∀ path base offset, visitResults (a.visits t path base offset) = a.results := by
  induction a using tree_induction with
  | const | pointerNil | data | outData | result =>
    intro path base offset
    rfl
  | pointer _ _ ih | union _ _ _ ih =>
    intro path base offset
    exact ih _ _ _
  | group c inner ih =>
    intro path base offset
    exact visitResults_visitsInner ih path _ base offset 0 offset

theorem visitResults_visitsArgs (n i : ℕ) (as : List Arg) :
    visitResults (visitsArgs t n i as) = resultsList as := by
  induction as generalizing i with
  | nil => rfl
  | cons a as ih =>
    simp only [visitsArgs, visitResults_append, resultsList]
    rw [visitResults_visits, ih]

theorem mem_results_iff (n i : ℕ) {as : List Arg} {r : ResultArg} :
    r ∈ resultsList as ↔ ∃ v ∈ visitsArgs t n i as, v.arg = .result r := by
  rw [← visitResults_visitsArgs (t := t) n i, visitResults, mem_filterMap]
  refine exists_congr fun v => and_congr_right fun _ => ?_
  cases h : v.arg <;> simp [result?, h]

theorem visitResults_call (n : ℕ) (c : Call) :
    visitResults (c.visits t n) = c.ret.toList ++ resultsList c.args := by
  rw [Call.visits, visitResults_append, visitResults_visitsArgs]
  cases c.ret <;> rfl

/-! ### Facts about every visited argument -/

variable {path : List ℕ} {v : Visit} {overlay : ℕ} {base : Option PointerArg} {start : UInt64}
  (i : ℕ)

theorem getElem?_of_mem_visitsInner
    (offset : UInt64) (h : v ∈ visitsInner t path overlay base start i offset as) :
    ∃ j, ∃ a : Arg, ∃ offset', as[j]? = some a ∧ v ∈ a.visits t (path ++ [i + j]) base offset' ∧
      ∀ u ∈ a.visits t (path ++ [i + j]) base offset',
        u ∈ visitsInner t path overlay base start i offset as := by
  induction as generalizing i offset with
  | nil => simp [visitsInner] at h
  | cons a as ih =>
    rcases mem_append.mp h with h | h
    · exact ⟨0, a, _, rfl, h, fun u hu => mem_append_left _ hu⟩
    · obtain ⟨j, b, offset', hj, hv, hsub⟩ := ih _ _ h
      rw [add_assoc, add_comm 1] at hv hsub
      exact ⟨j + 1, b, offset', hj, hv, fun u hu => mem_append_right _ (hsub u hu)⟩

/-- What is handed on to the children of an argument, together with the pointer it is behind,
holds of everything visited. -/
theorem forall_visits {P : Arg → Option PointerArg → Prop}
    (pointer : ∀ p res base, P (.pointer p res) base → P res (some p))
    (group : ∀ c inner base, P (.group c inner) base → ∀ a ∈ inner, P a base)
    (union : ∀ c opt i base, P (.union c opt i) base → P opt base) (a : Arg) :
    ∀ path base offset, P a base → ∀ v ∈ a.visits t path base offset, P v.arg v.base := by
  induction a using tree_induction with
  | const | pointerNil | data | outData | result =>
    intro path base offset ha v hv
    obtain rfl : v = _ := by simpa [visits] using hv
    exact ha
  | pointer p res ih =>
    intro path base offset ha v hv
    rcases mem_cons.mp hv with rfl | hv
    · exact ha
    · exact ih _ _ _ (pointer p res base ha) v hv
  | union c opt index ih =>
    intro path base offset ha v hv
    rcases mem_cons.mp hv with rfl | hv
    · exact ha
    · exact ih _ _ _ (union c opt index base ha) v hv
  | group c inner ih =>
    intro path base offset ha v hv
    rcases mem_cons.mp hv with rfl | hv
    · exact ha
    · obtain ⟨j, a, _, hj, hv, -⟩ := getElem?_of_mem_visitsInner _ _ hv
      have hmem := mem_of_getElem? hj
      exact ih a hmem _ _ _ (group c inner base ha a hmem) v hv

/-! ### Typing of the visited arguments -/

variable {slots : List (Ref × Dir)}

theorem Arg.WellTypedList.exists_slot (h : Arg.WellTypedList t slots as)
    (hlen : slots.length = as.length) : ∀ a ∈ as, ∃ slot ∈ slots, a.WellTyped t slot.1 slot.2 := by
  induction as generalizing slots with
  | nil => simp
  | cons a as ih =>
    obtain ⟨slot, slots, rfl⟩ := exists_cons_of_length_eq_add_one hlen
    intro b hb
    rcases mem_cons.mp hb with rfl | hb
    · exact ⟨slot, mem_cons_self, h.1⟩
    · obtain ⟨slot', hmem, hslot'⟩ := ih h.2 (by simpa using hlen) b hb
      exact ⟨slot', mem_cons_of_mem _ hmem, hslot'⟩

def Arg.Typed (t : Target) (a : Arg) : Prop := ∃ typ dir, a.WellTyped t typ dir

variable {a : Arg}

theorem Arg.Typed.visits (h : a.Typed t) (path : List ℕ) (base : Option PointerArg)
    (offset : UInt64) : ∀ v ∈ a.visits t path base offset, v.arg.Typed t := by
  refine forall_visits (P := fun a _ => Arg.Typed t a) ?_ ?_ ?_ a path base offset h
  · rintro p res - ⟨typ, dir, -, ⟨slot, -, hres⟩, -⟩
    exact ⟨_, _, hres⟩
  · rintro c inner - ⟨typ, dir, -, slots, hslots, hinner⟩ a ha
    obtain ⟨slot, -, hslot⟩ := hinner.exists_slot (groupSlots_length hslots) a ha
    exact ⟨_, _, hslot⟩
  · rintro c opt i - ⟨typ, dir, -, slot, -, hopt⟩
    exact ⟨_, _, hopt⟩

variable {c : Call}

theorem CallOk.typed (h : CallOk t c) : ∀ a ∈ c.args, a.Typed t := by
  intro a ha
  obtain ⟨slot, -, hslot⟩ := h.args.exists_slot (by simp [h.numArgs]) a ha
  exact ⟨_, _, hslot⟩

variable {n : ℕ}

theorem getElem?_of_mem_visitsArgs (h : v ∈ visitsArgs t n i as) :
    ∃ j, ∃ a : Arg, as[j]? = some a ∧ v ∈ a.visits t [n, i + j] none 0 ∧
      ∀ u ∈ a.visits t [n, i + j] none 0, u ∈ visitsArgs t n i as := by
  induction as generalizing i with
  | nil => simp [visitsArgs] at h
  | cons a as ih =>
    rcases mem_append.mp h with h | h
    · exact ⟨0, a, rfl, h, fun u hu => mem_append_left _ hu⟩
    · obtain ⟨j, b, hj, hv, hsub⟩ := ih _ h
      rw [add_assoc, add_comm 1] at hv hsub
      exact ⟨j + 1, b, hj, hv, fun u hu => mem_append_right _ (hsub u hu)⟩

theorem mem_visitsArgs (h : v ∈ visitsArgs t n i as) :
    ∃ a ∈ as, ∃ path, v ∈ a.visits t path none 0 ∧
      ∀ u ∈ a.visits t path none 0, u ∈ visitsArgs t n i as := by
  obtain ⟨j, a, hj, hv, hsub⟩ := getElem?_of_mem_visitsArgs i h
  exact ⟨a, mem_of_getElem? hj, _, hv, hsub⟩

theorem CallOk.typed_visits (h : CallOk t c) (n : ℕ) :
    ∀ v ∈ visitsArgs t n 0 c.args, v.arg.Typed t := by
  intro v hv
  obtain ⟨a, ha, path, hv, -⟩ := mem_visitsArgs 0 hv
  exact (h.typed a ha).visits path none 0 v hv

/-! ### Arguments passed by value -/

theorem base_isSome_of_visits (a : Arg) : ∀ path (base : Option PointerArg) offset,
    base.isSome → ∀ v ∈ a.visits t path base offset, v.base.isSome :=
  forall_visits (P := fun _ base => base.isSome) (fun _ _ _ _ => rfl) (fun _ _ _ h _ _ => h)
    (fun _ _ _ _ => id) a

def Arg.ByValueLeaf : Arg → Prop
  | .const .. | .pointer .. | .pointerNil .. | .data .. => True
  | .result r => r.dir = .dirIn
  | _ => False

/-- An argument that can be passed by value to a syscall. -/
def Arg.ByValue : Arg → Prop
  | .union _ opt _ => opt.ByValueLeaf
  | a => a.ByValueLeaf

theorem effectiveDir_dirIn (typ : Ref) : t.effectiveDir typ .dirIn = .dirIn := by
  unfold effectiveDir
  split <;> rfl

theorem not_isAnyPtr {r : Ref} (h : (t.type r).isPtr = false) : t.isAnyPtr r = false := by
  unfold isAnyPtr
  split
  · simp_all [Typ.isPtr]
  · rfl

variable {typ : Ref} {dir : Dir}

theorem Fits.ref_eq (h : Fits t a typ dir) (hptr : (t.type a.ref).isPtr = false) : a.ref = typ := by
  have := not_isAnyPtr hptr
  simpa [this] using h.type_ok

variable {ref : Ref}

theorem groupSlots_type (h : groupSlots t ref dir n = .ok slots) :
    (t.type ref).isPtr = false ∧ (t.type ref).canBeArg = false ∧ t.canBeArg ref = false := by
  unfold groupSlots at h
  split at h
  · simp_all [Typ.isPtr, Typ.canBeArg, canBeArg]
  · simp_all [Typ.isPtr, Typ.canBeArg, canBeArg]
  · simp at h

theorem unionSlot_type {index : ℕ} {slot : Ref × Dir} (h : unionSlot t ref dir index = .ok slot) :
    ∃ c fields, t.type ref = .union c fields ∧ ∃ f ∈ fields, (f.type, f.dir dir) = slot := by
  unfold unionSlot at h
  split at h
  · rename_i c fields htype
    cases hopt : fields[index]? with
    | none => simp [hopt] at h
    | some f => exact ⟨c, fields, htype, f, mem_of_getElem? hopt, by simpa [hopt] using h⟩
  · simp at h

theorem Arg.WellTyped.byValueLeaf (h : a.WellTyped t typ .dirIn)
    (hgroup : ∀ c inner, a ≠ .group c inner) (hunion : ∀ c opt i, a ≠ .union c opt i) :
    a.ByValueLeaf := by
  cases a with
  | const | pointer | pointerNil | data => trivial
  | result r =>
    have hdir := Fits.dir_ok h
    rw [effectiveDir_dirIn] at hdir
    simpa [dir, Arg.ByValueLeaf] using hdir
  | outData ref size =>
    have hdir := h.1.dir_ok
    rw [effectiveDir_dirIn] at hdir
    simp [dir] at hdir
  | group c inner => exact absurd rfl (hgroup c inner)
  | union c opt index => exact absurd rfl (hunion c opt index)

theorem Arg.WellTyped.option_byValueLeaf (h : a.WellTyped t typ .dirIn)
    (htyp : (t.type typ).canBeArg) : a.ByValueLeaf := by
  apply h.byValueLeaf
  · rintro c inner rfl
    obtain ⟨hfits, slots, hslots, -⟩ := h
    obtain ⟨hptr, hno, -⟩ := groupSlots_type hslots
    obtain rfl : c.ref = typ := hfits.ref_eq hptr
    simp [hno] at htyp
  · rintro c opt index rfl
    obtain ⟨hfits, slot, hslot, -⟩ := h
    obtain ⟨cc, fields, htype, -⟩ := unionSlot_type hslot
    obtain rfl : c.ref = typ := hfits.ref_eq (by simp [ref, htype, Typ.isPtr])
    simp [htype, Typ.canBeArg] at htyp

theorem Arg.WellTyped.byValue (ht : t.Compiled)
    (h : a.WellTyped t typ .dirIn) (htyp : t.canBeArg typ) : a.ByValue := by
  cases a with
  | union c opt index =>
    obtain ⟨hfits, slot, hslot, hopt⟩ := h
    obtain ⟨cc, fields, htype, f, hf, rfl⟩ := unionSlot_type hslot
    obtain rfl : c.ref = typ := hfits.ref_eq (by simp [ref, htype, Typ.isPtr])
    have hdir : f.dir (t.effectiveDir c.ref .dirIn) = .dirIn := by
      rw [effectiveDir_dirIn, Field.dir]
      split
      · exact ht.unionDirs htype f hf ‹_›
      · rfl
    rw [hdir] at hopt
    have hall : ∀ g ∈ fields, (t.type g.type).canBeArg := by
      simpa [canBeArg, htype] using htyp
    exact hopt.option_byValueLeaf (hall f hf)
  | group c inner =>
    obtain ⟨hfits, slots, hslots, -⟩ := h
    obtain ⟨hptr, -, hno⟩ := groupSlots_type hslots
    obtain rfl : c.ref = typ := hfits.ref_eq hptr
    simp [hno] at htyp
  | const | pointer | pointerNil | data | outData | result =>
    exact h.byValueLeaf (by simp) (by simp)

theorem CallOk.byValue (ht : t.Compiled) (hsys : c.syscall ∈ t.syscalls)
    (h : CallOk t c) : ∀ a ∈ c.args, a.ByValue := by
  intro a ha
  obtain ⟨slot, hslot, hwt⟩ := h.args.exists_slot (by simp [h.numArgs]) a ha
  obtain ⟨f, hf, rfl⟩ := mem_map.mp hslot
  exact hwt.byValue ht (ht.argTypes _ hsys f hf)

variable {offset : UInt64}

theorem Arg.ByValueLeaf.visit_eq (h : a.ByValueLeaf)
    (hv : v ∈ a.visits t path none offset) (hbase : v.base = none) : v.arg = a := by
  cases a with
  | const | pointerNil | data | result =>
    obtain rfl : v = _ := by simpa [visits] using hv
    rfl
  | pointer p res =>
    rcases mem_cons.mp hv with rfl | hv
    · rfl
    · have := base_isSome_of_visits res _ _ _ rfl v hv
      simp [hbase] at this
  | outData | group | union => exact h.elim

/-- Outside of memory are only the arguments themselves and the options of unions. -/
theorem Arg.ByValue.visit_cases (h : a.ByValue)
    (hv : v ∈ a.visits t path none offset) (hbase : v.base = none) :
    v.arg = a ∨ ∃ c opt i, a = .union c opt i ∧ v.arg = opt ∧ opt.ByValueLeaf := by
  cases a with
  | union c opt index =>
    rcases mem_cons.mp hv with rfl | hv
    · exact .inl rfl
    · exact .inr ⟨c, opt, index, rfl, Arg.ByValueLeaf.visit_eq h hv hbase, h⟩
  | const | pointer | pointerNil | data | outData | group | result =>
    refine .inl (Arg.ByValueLeaf.visit_eq ?_ hv hbase)
    exact h

theorem Arg.ByValue.dirIn (h : a.ByValue) (hv : v ∈ a.visits t path none offset)
    (hbase : v.base = none) {r : ResultArg} (hr : v.arg = .result r) : r.dir = .dirIn := by
  rcases h.visit_cases hv hbase with harg | ⟨c, opt, i, -, harg, hopt⟩
  · rw [hr] at harg
    rw [← harg] at h
    exact h
  · rw [hr] at harg
    rw [← harg] at hopt
    exact hopt

theorem Arg.WellTyped.fits (h : a.WellTyped t typ dir) : Fits t a typ dir := by
  cases a with
  | result r => exact h
  | const | pointer | pointerNil | data | outData | group | union => exact h.1

theorem CallOk.canBeArg (ht : t.Compiled) (hsys : c.syscall ∈ t.syscalls)
    (h : CallOk t c) (hv : v ∈ visitsArgs t n 0 c.args) (hbase : v.base = none)
    (hptr : (t.type v.arg.ref).isPtr = false) : t.canBeArg v.arg.ref := by
  obtain ⟨a, ha, path, hva, -⟩ := mem_visitsArgs 0 hv
  obtain ⟨slot, hslot, hwt⟩ := h.args.exists_slot (by simp [h.numArgs]) a ha
  obtain ⟨f, hf, rfl⟩ := mem_map.mp hslot
  have harg := ht.argTypes _ hsys f hf
  rcases (h.byValue ht hsys a ha).visit_cases hva hbase with hva | ⟨cc, opt, i, rfl, hva, -⟩
  · rw [hva] at hptr ⊢
    rw [hwt.fits.ref_eq hptr]
    exact harg
  · obtain ⟨hfits, slot', hslot', hopt⟩ := hwt
    obtain ⟨uc, fields, hunion, g, hg, rfl⟩ := unionSlot_type hslot'
    obtain href : cc.ref = f.type := hfits.ref_eq (by simp [ref, hunion, Typ.isPtr])
    rw [href] at hunion
    have hall : ∀ g ∈ fields, (t.type g.type).canBeArg := by
      simpa [Target.canBeArg, hunion] using harg
    rw [hva] at hptr ⊢
    rw [hopt.fits.ref_eq hptr, Target.canBeArg]
    have hg := hall g hg
    cases htype : t.type g.type <;> simp_all [Typ.canBeArg]

theorem CallOk.csum_inMemory (ht : t.Compiled) (hsys : c.syscall ∈ t.syscalls) (h : CallOk t c)
    (hv : v ∈ visitsArgs t n 0 c.args) (htype : (t.type v.arg.ref).isCsum) : v.base.isSome := by
  cases hbase : v.base with
  | some b => rfl
  | none =>
    have harg := h.canBeArg ht hsys hv hbase
    cases hty : t.type v.arg.ref <;> simp_all [Typ.isCsum, Typ.isPtr, Target.canBeArg, Typ.canBeArg]

theorem CallOk.group_inMemory (ht : t.Compiled) (hsys : c.syscall ∈ t.syscalls)
    (h : CallOk t c) (hv : v ∈ visitsArgs t n 0 c.args) {cc : ArgCommon}
    {inner : List Arg} (harg : v.arg = .group cc inner) : v.base.isSome := by
  by_contra hbase
  obtain ⟨a, ha, path, hva, -⟩ := mem_visitsArgs 0 hv
  have hval := h.byValue ht hsys a ha
  rcases hval.visit_cases hva (by simpa using hbase) with heq | ⟨c', opt, i, -, heq, hopt⟩
  · rw [harg] at heq
    rw [← heq] at hval
    exact hval
  · rw [harg] at heq
    rw [← heq] at hopt
    exact hopt

/-! ### Children of visited arguments -/

theorem visitsInner_of_getElem? {b : Arg} {j : ℕ} (offset : UInt64) (h : as[j]? = some b) :
    ∃ offset', ∀ u ∈ b.visits t (path ++ [i + j]) base offset',
      u ∈ visitsInner t path overlay base start i offset as := by
  induction as generalizing i offset j with
  | nil => simp at h
  | cons a as ih =>
    cases j with
    | zero =>
      obtain rfl : a = b := by simpa using h
      exact ⟨_, fun u hu => mem_append_left _ hu⟩
    | succ j =>
      obtain ⟨offset', hsub⟩ := ih (i + 1) _ (by simpa using h)
      refine ⟨offset', fun u hu => mem_append_right _ (hsub u ?_)⟩
      rwa [add_assoc, add_comm 1]

theorem head_mem_visits (a : Arg) (path : List ℕ) (base : Option PointerArg) (offset : UInt64) :
    ⟨path, a, base, offset⟩ ∈ a.visits t path base offset := by
  cases a <;> simp [visits]

def Arg.child? : Arg → ℕ → Option Arg
  | .pointer _ res, 0 => some res
  | .union _ opt _, 0 => some opt
  | .group _ inner, i => inner[i]?
  | _, _ => none

/-- The children of a visited argument are visited, the fields of a group behind the same
pointer. -/
theorem exists_child_visit (a : Arg) : ∀ path base offset, ∀ v ∈ a.visits t path base offset,
    ∀ i b, v.arg.child? i = some b → ∃ u ∈ a.visits t path base offset,
      u.path = v.path ++ [i] ∧ u.arg = b ∧ ∀ c inner, v.arg = .group c inner → u.base = v.base := by
  induction a using tree_induction with
  | const | pointerNil | data | outData | result =>
    intro path base offset v hv i b hb
    obtain rfl : v = _ := by simpa [visits] using hv
    simp [child?] at hb
  | pointer _ res ih | union _ res _ ih =>
    intro path base offset v hv i b hb
    rcases mem_cons.mp hv with rfl | hv
    · cases i with
      | zero =>
        obtain rfl : res = b := by simpa [child?] using hb
        exact ⟨_, mem_cons_of_mem _ (head_mem_visits res _ _ _), rfl, rfl, by simp⟩
      | succ i => simp [child?] at hb
    · obtain ⟨u, hu, hspec⟩ := ih _ _ _ v hv i b hb
      exact ⟨u, mem_cons_of_mem _ hu, hspec⟩
  | group g inner ih =>
    intro path base offset v hv i b hb
    rcases mem_cons.mp hv with rfl | hv
    · obtain ⟨offset', hsub⟩ := visitsInner_of_getElem? (t := t) 0 offset
        (by simpa [child?] using hb)
      rw [zero_add] at hsub
      exact ⟨_, mem_cons_of_mem _ (hsub _ (head_mem_visits b _ _ _)), rfl, rfl, fun _ _ _ => rfl⟩
    · obtain ⟨j, a, _, hj, hva, hsub⟩ := getElem?_of_mem_visitsInner _ _ hv
      obtain ⟨u, hu, hspec⟩ := ih a (mem_of_getElem? hj) _ _ _ v hva i b hb
      exact ⟨u, mem_cons_of_mem _ (hsub u hu), hspec⟩

mutual

/-- Positions of the arguments of a tree, relative to its root. -/
def Arg.paths : Arg → List (List ℕ)
  | .group _ inner => [] :: pathsInner 0 inner
  | .pointer _ res => [] :: res.paths.map (0 :: ·)
  | .union _ opt _ => [] :: opt.paths.map (0 :: ·)
  | _ => [[]]

def Arg.pathsInner : ℕ → List Arg → List (List ℕ)
  | _, [] => []
  | i, a :: as => a.paths.map (i :: ·) ++ pathsInner (i + 1) as

end

theorem path_visitsInner (h : ∀ a ∈ as, ∀ path base offset,
      (a.visits t path base offset).map Visit.path = a.paths.map (path ++ ·))
    (path : List ℕ) (overlay : ℕ) (base : Option PointerArg) (start : UInt64) (i : ℕ)
    (offset : UInt64) :
    (visitsInner t path overlay base start i offset as).map Visit.path =
      (pathsInner i as).map (path ++ ·) := by
  induction as generalizing i offset with
  | nil => rfl
  | cons a as ih =>
    simp only [visitsInner, pathsInner, map_append]
    rw [h a mem_cons_self, ih fun b hb => h b (mem_cons_of_mem a hb)]
    simp [comp_def]

theorem path_visits (a : Arg) : ∀ path base offset,
    (a.visits t path base offset).map Visit.path = a.paths.map (path ++ ·) := by
  induction a using tree_induction with
  | const | pointerNil | data | outData | result =>
    simp [visits, paths]
  | pointer _ _ ih | union _ _ _ ih =>
    simp [visits, paths, ih, comp_def]
  | group c inner ih =>
    intro path base offset
    simp only [visits, paths, map_cons, append_nil]
    rw [path_visitsInner ih]

theorem le_head_of_mem_pathsInner {i : ℕ} {q : List ℕ}
    (h : q ∈ pathsInner i as) : ∃ j q', q = j :: q' ∧ i ≤ j := by
  induction as generalizing i with
  | nil => simp [pathsInner] at h
  | cons a as ih =>
    simp only [pathsInner, mem_append, mem_map] at h
    rcases h with ⟨q', -, rfl⟩ | h
    · exact ⟨i, q', rfl, le_refl i⟩
    · obtain ⟨j, q', rfl, hj⟩ := ih h
      exact ⟨j, q', rfl, le_of_succ_le hj⟩

theorem pathsInner_nodup (h : ∀ a ∈ as, a.paths.Nodup) (i : ℕ) : (pathsInner i as).Nodup := by
  induction as generalizing i with
  | nil => simp [pathsInner]
  | cons a as ih =>
    simp only [pathsInner, nodup_append]
    refine ⟨?_, ih (fun b hb => h b (mem_cons_of_mem a hb)) (i + 1), ?_⟩
    · exact (h a mem_cons_self).map cons_injective
    · intro q hq q' hq' heq
      obtain ⟨s, -, rfl⟩ := mem_map.mp hq
      obtain ⟨j, s', rfl, hj⟩ := le_head_of_mem_pathsInner hq'
      have : i = j := (List.cons.inj heq).1
      omega

theorem paths_nodup (a : Arg) : a.paths.Nodup := by
  induction a using tree_induction with
  | const | pointerNil | data | outData | result => simp [paths]
  | pointer p res ih | union c res index ih =>
    simp only [paths, nodup_cons, mem_map, not_exists, not_and]
    exact ⟨by simp, ih.map cons_injective⟩
  | group c inner ih =>
    simp only [paths, nodup_cons]
    refine ⟨?_, pathsInner_nodup ih 0⟩
    intro hmem
    obtain ⟨j, q', hq, -⟩ := le_head_of_mem_pathsInner hmem
    simp at hq

theorem path_visitsArgs (n i : ℕ) (as : List Arg) :
    (visitsArgs t n i as).map Visit.path = (pathsInner i as).map (n :: ·) := by
  induction as generalizing i with
  | nil => rfl
  | cons a as ih =>
    simp [visitsArgs, pathsInner, path_visits, ih, comp_def]

theorem visitsArgs_paths_nodup (n : ℕ) (as : List Arg) :
    ((visitsArgs t n 0 as).map Visit.path).Nodup := by
  rw [path_visitsArgs]
  exact (pathsInner_nodup (fun a _ => paths_nodup a) 0).map cons_injective

theorem Visit.key_eq_result {id : ArgId} (h : v.key = .result id) :
    ∃ r, v.arg = .result r ∧ r.id = id := by
  cases harg : v.arg with
  | result r => exact ⟨r, rfl, by simpa [key, Arg.key, harg] using h⟩
  | _ => simp [key, Arg.key, harg] at h

theorem Visit.key_eq_place (h : v.key = .place path) : v.path = path := by
  cases harg : v.arg <;> simp_all [key, Arg.key]

theorem keys_nodup {vs : List Visit} (hpath : (vs.map Visit.path).Nodup)
    (hid : ((visitResults vs).map ResultArg.id).Nodup) : (vs.map Visit.key).Nodup := by
  induction vs with
  | nil => simp
  | cons v vs ih =>
    simp only [map_cons, nodup_cons] at hpath ⊢
    rw [visitResults_cons, map_append, nodup_append] at hid
    refine ⟨?_, ih hpath.2 hid.2.1⟩
    intro hmem
    obtain ⟨u, hu, hkey⟩ := mem_map.mp hmem
    cases hk : v.key with
    | result id =>
      obtain ⟨r, hr, rfl⟩ := key_eq_result hk
      obtain ⟨r', hr', hid'⟩ := key_eq_result (hkey.trans hk)
      have hv : v.result? = some r := by simp [result?, hr]
      have hu' : r' ∈ visitResults vs :=
        mem_filterMap.mpr ⟨u, hu, by simp [result?, hr']⟩
      exact hid.2.2 r.id (by simp [hv]) r'.id (mem_map_of_mem hu') hid'.symm
    | place path =>
      have hv := key_eq_place hk
      have hu' := key_eq_place (hkey.trans hk)
      exact hpath.1 (mem_map.mpr ⟨u, hu, hu'.trans hv.symm⟩)

end

end Brf
