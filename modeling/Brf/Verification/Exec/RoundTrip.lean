import Brf.Verification.Exec.Decoding
import Brf.Verification.Exec.Spec

/-! # Decoding what was encoded

Under the conditions below the executor's view of a program is exactly its specification. -/

namespace Brf

open Lib.Wire Lib AtCall List Arg Visit ExecArg CsumSort

/-! ### Everything fits its place -/

/-- The per-process values of an argument fit the 32 bits the encoding has for them. -/
def Typ.smallStride : Typ → Prop
  | .proc _ _ valuesPerProc => valuesPerProc < 2 ^ 32
  | _ => True

instance : (typ : Typ) → Decidable typ.smallStride
  | .proc .. => inferInstanceAs (Decidable (_ < _))
  | .int .. | .const .. | .flags .. | .len .. | .csum .. | .resource .. | .vma .. | .buffer ..
  | .array .. | .ptr .. | .struct .. | .union .. => .isTrue trivial

variable {a : Arg} {t : Target} {p : Prog} {pre : List Call} {c : Call}

theorem toNat_lt_of_lt {x y : UInt64} (h : x < y) : x.toNat < y.toNat := UInt64.lt_iff_toNat_lt.mp h

theorem code_lt (f : BinaryFormat) : f.code.toNat < 256 := by
  cases f <;> decide

theorem const_intCommon {c : ArgCommon} {val : UInt64} (h : validateConst t c val = .ok ()) :
    ∃ i, (t.type c.ref).intCommon? = some i := by
  simp only [validateConst, valid_bind_eq_ok, exists_unit] at h
  obtain ⟨hkind, -⟩ := h
  cases htype : t.type c.ref with
  | int | const | flags | len | csum | proc => exact ⟨_, rfl⟩
  | resource | vma | buffer | array | ptr | struct | union =>
    simp [htype, validateConstKind] at hkind

theorem pointer_size (ht : t.Compiled) {p : PointerArg} (h : validatePointer t p = .ok ()) :
    (t.type p.ref).size.toNat < 256 := by
  cases htype : t.type p.ref with
  | vma c b e => exact toNat_lt_of_lt (ht.vmaSizes htype)
  | ptr c elem dir => exact toNat_lt_of_lt (ht.ptrSizes htype)
  | _ => simp [validatePointer, htype] at h

theorem stride_lt {typ : Typ} {val : UInt64} {v : UInt64 × UInt64}
    (h : constValue typ val = some v) (hproc : typ.smallStride) : v.2.toNat < 2 ^ 32 := by
  have hzero : (0 : UInt64).toNat < 2 ^ 32 := by decide
  cases typ with
  | int | const | flags | len | csum | resource =>
    obtain rfl := Option.some.inj h
    exact hzero
  | proc c start per =>
    rw [constValue] at h
    split at h
    · obtain rfl := Option.some.inj h
      exact hzero
    · obtain rfl := Option.some.inj h
      exact toNat_lt_of_lt hproc
  | vma | buffer | array | ptr | struct | union => simp [constValue] at h

theorem Arg.execArgs_inRange (ht : t.Compiled) (htyped : a.Typed t) (hleaf : a.isLeaf)
    (hpad : (t.type a.ref).isPad = false) (hproc : (t.type a.ref).smallStride)
    (hres : ∀ r, a = .result r → ∃ c f desc, t.type r.ref = .resource c f desc) {ix : ArgId → ℕ}
    (hdata : ∀ bytes readable, .data bytes readable ∈ a.execArgs t ix → bytes.length < 2 ^ 63) :
    ∀ e ∈ a.execArgs t ix, e.InRange := by
  obtain ⟨typ, dir, hwt⟩ := htyped
  have hzero : (0 : UInt64).toNat < 256 := by decide
  intro e he
  cases a with
  | const c val =>
    obtain ⟨i, hi⟩ := const_intCommon hwt.2
    obtain ⟨hsize, hoff, hlen⟩ := ht.intSizes hi hpad
    obtain ⟨v, hv, rfl⟩ := mem_map.mp he
    have hunit : (t.type c.ref).unitSize = i.unitSize := by simp [Typ.unitSize, hi]
    have hoff' : (t.type c.ref).bitfieldOffset = i.bitfieldOff := by
      simp [Typ.bitfieldOffset, hi]
    have hlen' : (t.type c.ref).bitfieldLength = i.bitfieldLen := by
      simp [Typ.bitfieldLength, hi]
    refine ⟨?_, code_lt _, ?_, ?_, ?_⟩
    · rw [hunit]
      exact toNat_lt_of_lt hsize
    · rw [hoff']
      exact toNat_lt_of_lt hoff
    · rw [hlen']
      exact toNat_lt_of_lt hlen
    · exact stride_lt (Option.mem_toList.mp hv) hproc
  | result r =>
    obtain ⟨c, f, desc, htype⟩ := hres r rfl
    have hsize := toNat_lt_of_lt (ht.resourceSizes htype).2
    cases hr : r.res with
    | none =>
      obtain rfl : e = _ := by simpa [execArgs, hr, htype] using he
      exact ⟨hsize, code_lt f, hzero, hzero, by decide⟩
    | some x =>
      obtain rfl : e = _ := by simpa [execArgs, hr, htype] using he
      exact ⟨hsize, code_lt f⟩
  | pointer p res =>
    obtain ⟨addr, -, rfl⟩ := mem_map.mp he
    exact ⟨pointer_size ht hwt.2.2.1, hzero, hzero, hzero, by decide⟩
  | pointerNil p =>
    obtain ⟨addr, -, rfl⟩ := mem_map.mp he
    exact ⟨pointer_size ht hwt.2.1, hzero, hzero, hzero, by decide⟩
  | data ref d bytes =>
    have hcases : ∃ readable, e = .data bytes readable := by
      simp only [execArgs] at he
      split at he
      · split at he
        · simp at he
        · exact ⟨_, by simpa using he⟩
      · simp at he
    obtain ⟨readable, rfl⟩ := hcases
    exact hdata bytes readable he
  | outData => simp [execArgs] at he
  | group | union => simp [isLeaf] at hleaf

/-! ### Arguments passed by value -/

/-- A buffer, also as the option of a union. -/
def Arg.isBuffer : Arg → Bool
  | .data .. | .outData .. => true
  | .union _ opt _ => opt.isBuffer
  | _ => false

/-- What is passed for the argument: the option of a union, and any other argument itself. -/
def Arg.passed : Arg → Arg
  | .union _ opt _ => opt
  | a => a

theorem Arg.execArgs_passed (a : Arg) (ix : ArgId → ℕ) : a.passed.execArgs t ix = a.execArgs t ix := by
  cases a <;> rfl

theorem Arg.isBuffer_passed (a : Arg) : a.passed.isBuffer = a.isBuffer := by
  cases a <;> rfl

theorem Arg.ByValue.passed (h : a.ByValue) : a.passed.ByValueLeaf := by
  cases a <;> exact h

theorem Arg.ByValueLeaf.isLeaf (h : a.ByValueLeaf) : a.isLeaf := by
  cases a with
  | outData | group | union => exact h.elim
  | const | pointer | pointerNil | data | result => rfl

theorem exists_passed_visit {as : List Arg} (ha : a ∈ as) (n i : ℕ) :
    ∃ v ∈ visitsArgs t n i as, v.arg = a.passed ∧ v.base = none := by
  induction as generalizing i with
  | nil => simp at ha
  | cons b as ih =>
    rcases mem_cons.mp ha with rfl | ha
    · have hmem : ∃ v ∈ a.visits t [n, i] none 0, v.arg = a.passed ∧ v.base = none := by
        cases a with
        | union c opt index =>
          exact ⟨_, mem_cons_of_mem _ (head_mem_visits opt _ _ _), rfl, rfl⟩
        | const | pointer | pointerNil | data | outData | group | result =>
          exact ⟨_, head_mem_visits _ _ _ _, rfl, rfl⟩
      obtain ⟨v, hv, hspec⟩ := hmem
      exact ⟨v, mem_append_left _ hv, hspec⟩
    · obtain ⟨v, hv, hspec⟩ := ih ha (i + 1)
      exact ⟨v, mem_append_right _ hv, hspec⟩

theorem Arg.execArgs_isValue (hleaf : a.isLeaf) (hbuf : a.isBuffer = false)
    (ix : ArgId → ℕ) : ∀ e ∈ a.execArgs t ix, e.isValue := by
  intro e he
  cases a with
  | const | pointer | pointerNil =>
    obtain ⟨_, -, rfl⟩ := mem_map.mp he
    rfl
  | result r =>
    simp only [execArgs] at he
    split at he
    · obtain rfl : e = _ := by simpa using he
      rfl
    · obtain rfl : e = _ := by simpa using he
      rfl
    · simp at he
  | data | outData => simp [isBuffer] at hbuf
  | group | union => simp [isLeaf] at hleaf

/-! ### The instructions of a call are in range -/

theorem ExecCall.blob_mem {c : ExecCall} {bytes : List UInt8} {readable : Bool}
    (h : .data bytes readable ∈ c.allArgs) (k : ℕ) : .blob bytes ∈ c.chunks k := by
  have hblob : Chunk.blob bytes ∈ (ExecArg.data bytes readable).chunks := by simp [ExecArg.chunks]
  rcases mem_append.mp h with h | h
  · obtain ⟨ci, hci, harg⟩ := mem_map.mp h
    have hmem : Chunk.blob bytes ∈ c.copyin.flatMap ExecCopyin.chunks := by
      refine mem_flatMap.mpr ⟨ci, hci, ?_⟩
      rw [ExecCopyin.chunks, harg]
      exact mem_append_right _ hblob
    simp [ExecCall.chunks, hmem]
  · have hmem : Chunk.blob bytes ∈ c.args.flatMap ExecArg.chunks :=
      mem_flatMap.mpr ⟨_, h, hblob⟩
    simp [ExecCall.chunks, hmem]

variable {v : Visit} {n : ℕ} (order : CsumSort)

namespace AtCall

theorem visit_resource (h : AtCall t p pre c) (hv : v ∈ visitsArgs t n 0 c.args) {r : ResultArg}
    (hr : v.arg = .result r) : ∃ cc f desc, t.type r.ref = .resource cc f desc :=
  h.resource ((mem_results_iff n 0).mpr ⟨v, hv, hr⟩)

theorem not_isPad (h : AtCall t p pre c) (hv : v ∈ visitsArgs t n 0 c.args)
    (hbase : v.base = none) : (t.type v.arg.ref).isPad = false := by
  have harg := h.callOk.canBeArg h.compiled h.syscall hv hbase
  cases htype : t.type v.arg.ref with
  | const cc val isPad => simpa [htype, Typ.isPtr, Typ.isPad, Target.canBeArg, Typ.canBeArg] using harg
  | _ => rfl

theorem exists_execArg (h : AtCall t p pre c) (hbuf : ∀ a ∈ c.args, a.isBuffer = false)
    (ix : ArgId → ℕ) : ∀ a ∈ c.args, ∃ e, a.execArgs t ix = [e] := by
  intro a ha
  have hdata : ∀ a : Arg, a.isBuffer = false → a.emptyData = false := by
    intro a
    induction a using tree_induction with
    | union c opt i ih => exact ih
    | data => simp [isBuffer]
    | _ => simp [emptyData]
  exact (h.encodable a ha).exists_execArg (hdata a (hbuf a ha)) ix

theorem length_args (h : AtCall t p pre c) (hbuf : ∀ a ∈ c.args, a.isBuffer = false)
    (ix : ArgId → ℕ) : (c.args.flatMap (execArgs t ix)).length = c.args.length := by
  have hone : ∀ a ∈ c.args, (a.execArgs t ix).length = 1 := by
    intro a ha
    obtain ⟨e, he⟩ := h.exists_execArg hbuf ix a ha
    rw [he, length_singleton]
  rw [length_flatMap, map_congr_left hone]
  simp

theorem csumCopyins_inRange {addrOf : ArgKey → UInt64} :
    ∀ ci ∈ csumCopyins t order n addrOf ((calcChecksumsCall t n c).getD Csums.none),
      ci.arg.InRange := by
  intro ci hci
  obtain ⟨f, hf, rfl⟩ := mem_map.mp hci
  rw [mem_reverse, (order.perm n _).mem_iff] at hf
  obtain ⟨g, hg, rfl⟩ := mem_map.mp hf
  cases hcs : calcChecksumsCall t n c with
  | none => simp [hcs, Csums.none] at hg
  | some cs =>
    rw [hcs] at hg
    have hlen := (calcChecksums_inet hcs g hg).2
    refine ⟨rfl, ?_⟩
    rw [length_map]
    change g.2.chunks.length < _
    omega

theorem syscall_lookup (h : AtCall t p pre c) :
    t.syscalls[c.syscall.id]? = some c.syscall ∧ c.syscall.id < 0x200000 := by
  obtain ⟨i, hi⟩ := mem_iff_getElem?.mp h.syscall
  obtain rfl := h.compiled.syscallIds i c.syscall hi
  have hlt := (List.getElem?_eq_some_iff.mp hi).1
  have := h.compiled.numSyscalls
  exact ⟨hi, by omega⟩

theorem instrs_inRange (h : AtCall t p pre c) (order : CsumSort)
    (hstride : ∀ v ∈ visitsArgs t n 0 c.args, (t.type v.arg.ref).smallStride)
    (hbuf : ∀ a ∈ c.args, a.isBuffer = false)
    (hdata : ∀ bytes readable, .data bytes readable ∈ (c.spec t order p n).allArgs →
      bytes.length < 2 ^ 63) :
    ∀ i ∈ (c.spec t order p n).instrs, i.InRange t := by
  have hvisit : ∀ v ∈ visitsArgs t n 0 c.args, v.arg.isLeaf → (t.type v.arg.ref).isPad = false →
      (∀ e ∈ v.arg.execArgs t (slotOf p), e ∈ (c.spec t order p n).allArgs) →
      ∀ e ∈ v.arg.execArgs t (slotOf p), e.InRange :=
    fun v hv hleaf hpad hall => execArgs_inRange h.compiled (h.callOk.typed_visits n v hv)
      hleaf hpad (hstride v hv) (fun r hr => h.visit_resource hv hr)
      fun bytes readable he => hdata bytes readable (hall _ he)
  have hcopyin : ∀ ci ∈ (c.spec t order p n).copyin, ci.arg.InRange := by
    intro ci hci
    rcases mem_append.mp hci with hvisits | hcsum
    · obtain ⟨v, hv, hvci⟩ := mem_flatMap.mp hvisits
      unfold copyins at hvci
      split at hvci
      · rename_i hin
        obtain ⟨addr, haddr, hmap⟩ := mem_flatMap.mp hvci
        obtain ⟨e, he, rfl⟩ := mem_map.mp hmap
        have hin' := hin
        simp only [copiedIn, Bool.and_eq_true, Bool.not_eq_true'] at hin
        apply hvisit v hv hin.1.1.1 hin.1.2 ?_ e he
        intro e' he'
        refine mem_append_left _ (mem_map.mpr ⟨⟨addr, e'⟩, ?_, rfl⟩)
        refine mem_append_left _ (mem_flatMap.mpr ⟨v, hv, ?_⟩)
        rw [copyins, if_pos hin']
        exact mem_flatMap.mpr ⟨addr, haddr, mem_map_of_mem he'⟩
      · simp at hvci
    · exact csumCopyins_inRange order ci hcsum
  have hargs : ∀ e ∈ (c.spec t order p n).args, e.isValue ∧ e.InRange := by
    intro e he
    obtain ⟨a, ha, hea⟩ := mem_flatMap.mp he
    have hleaf := (h.callOk.byValue h.compiled h.syscall a ha).passed.isLeaf
    rw [← execArgs_passed] at hea
    obtain ⟨v, hv, harg, hbase⟩ := exists_passed_visit (t := t) ha n 0
    have hbuf' : a.passed.isBuffer = false := by
      rw [isBuffer_passed]
      exact hbuf a ha
    refine ⟨execArgs_isValue hleaf hbuf' _ e hea, ?_⟩
    rw [← harg] at hleaf hea
    apply hvisit v hv hleaf (h.not_isPad hv hbase) ?_ e hea
    intro e' he'
    rw [harg, execArgs_passed] at he'
    exact mem_append_right _ (mem_flatMap.mpr ⟨a, ha, he'⟩)
  intro i hi
  simp only [ExecCall.instrs, mem_append, mem_map, mem_singleton] at hi
  rcases hi with ((⟨ci, hci, rfl⟩ | hprops) | rfl) | ⟨co, -, rfl⟩
  · exact hcopyin ci hci
  · split at hprops
    · simp at hprops
    · obtain rfl : i = _ := by simpa using hprops
      trivial
  · obtain ⟨hsys, hid⟩ := h.syscall_lookup
    have hlen := h.length_args hbuf (slotOf p)
    have hmax := h.compiled.numArgs _ h.syscall
    rw [← h.callOk.numArgs] at hmax
    refine ⟨hsys, Nat.lt_trans hid (by decide), ?_, hargs⟩
    change (c.args.flatMap (execArgs t (slotOf p))).length < _
    omega
  · trivial

end AtCall

/-! ### Slots of whole programs -/

variable {x : ArgId}

theorem slotOf_lt (h : x ∈ slots p p.calls) : slotOf p x < (slots p p.calls).length :=
  idxOf_lt_length_iff.mpr h

theorem copyout_index {o : ExecCopyout} (h : v.copyout t p = some o) :
    ∃ r, v.result? = some r ∧ p.isUsed r.id ∧ o.index = UInt64.ofNat (slotOf p r.id) := by
  unfold copyout at h
  split at h
  · rename_i r harg
    split at h
    · obtain rfl := Option.some.inj h
      exact ⟨r, by simp [result?, harg], ‹_›, rfl⟩
    · cases h
  · cases h

theorem copyout_indices (vs : List Visit) : (vs.filterMap (copyout t p)).map ExecCopyout.index =
    (usedIds p (visitResults vs)).map fun x => UInt64.ofNat (slotOf p x) := by
  induction vs with
  | nil => rfl
  | cons v vs ih =>
    rw [visitResults_cons, usedIds_append, map_append, ← ih]
    cases harg : v.arg with
    | result r =>
      by_cases hused : p.isUsed r.id = true <;> simp [copyout, result?, harg, hused, usedIds]
    | _ => simp [copyout, result?, harg]

theorem Arg.Encodable.refIndices (h : a.Encodable t) (ix : ArgId → ℕ) :
    (a.execArgs t ix).filterMap refIndex =
      a.directRefs.map fun x => (UInt64.ofNat (ix x)).toNat := by
  induction a using tree_induction with
  | const c val =>
    obtain ⟨v, hv⟩ := Option.isSome_iff_exists.mp h
    simp [execArgs, hv, directRefs, refIndex]
  | pointer p res ih =>
    simp [execArgs, Target.physicalAddr, PointerArg.isSpecial, directRefs, refIndex]
  | pointerNil p =>
    obtain ⟨addr, haddr⟩ := Option.isSome_iff_exists.mp h
    simp [execArgs, haddr, directRefs, refIndex]
  | data ref d bytes =>
    obtain ⟨c, kind, b, e, vals, noZ, htype⟩ := h
    by_cases hb : bytes = [] <;> simp [execArgs, htype, hb, directRefs, refIndex]
  | outData | group => exact h.elim
  | union c opt index ih => exact ih h
  | result r =>
    obtain ⟨c, f, desc, htype⟩ := h
    cases hres : r.res <;> simp [execArgs, hres, htype, directRefs, refIndex]

section Slots

variable (hmax : (slots p p.calls).length ≤ execMaxCommands)
include hmax

theorem toNat_slotOf (h : x ∈ slots p p.calls) : (UInt64.ofNat (slotOf p x)).toNat = slotOf p x := by
  have hlt := slotOf_lt h
  unfold execMaxCommands at hmax
  rw [UInt64.toNat_ofNat', Nat.mod_eq_of_lt (by omega)]

theorem ofNat_slotOf_ne (h : x ∈ slots p p.calls) : UInt64.ofNat (slotOf p x) ≠ execNoCopyout := by
  intro heq
  have hnat := toNat_slotOf hmax h
  have hlt := slotOf_lt h
  rw [heq] at hnat
  have hbig : execNoCopyout.toNat = 2 ^ 64 - 1 := rfl
  unfold execMaxCommands at hmax
  omega

theorem filled_spec (hc : c ∈ p.calls) (n : ℕ) :
    (c.spec t order p n).filled = (Call.slots p c).map (slotOf p) := by
  have hmem : ∀ x ∈ Call.slots p c, x ∈ slots p p.calls := fun x hx =>
    mem_flatMap.mpr ⟨c, hc, hx⟩
  have hret : (if c.retSlot p = execNoCopyout then [] else [(c.retSlot p).toNat]) =
      (usedIds p c.ret.toList).map (slotOf p) := by
    cases h : c.ret with
    | none => simp [Call.retSlot, h]
    | some r =>
      by_cases hused : p.isUsed r.id
      · have hr : r.id ∈ slots p p.calls := hmem _ (by simp [Call.slots, h, usedIds, hused])
        simp [Call.retSlot, h, hused, usedIds, ofNat_slotOf_ne hmax hr, toNat_slotOf hmax hr]
      · simp [Call.retSlot, h, hused, usedIds]
  have hout : ((c.spec t order p n).copyout.map fun o => o.index.toNat) =
      (usedIds p (resultsList c.args)).map (slotOf p) := by
    have hmap := congrArg (List.map UInt64.toNat)
      (copyout_indices (t := t) (p := p) (visitsArgs t n 0 c.args))
    rw [map_map, map_map, visitResults_visitsArgs] at hmap
    refine Eq.trans hmap (map_congr_left ?_)
    intro x hx
    exact toNat_slotOf hmax (hmem x (by simp [Call.slots, hx]))
  rw [ExecCall.filled, hout, Call.slots, usedIds_append, map_append, ← hret]
  rfl

end Slots

def Visit.isCopied (t : Target) (v : Visit) : Bool := v.base.isSome && v.arg.copiedIn t

namespace AtCall

theorem copyins_cases (h : AtCall t p pre c) (hv : v ∈ visitsArgs t n 0 c.args) (ix : ArgId → ℕ) :
    (v.isCopied t = false ∧ v.copyins t ix = []) ∨
      v.isCopied t ∧ v.arg.copiedIn t ∧ v.arg.Encodable t ∧
        ∃ addr, v.copyins t ix = (v.arg.execArgs t ix).map (ExecCopyin.mk addr) := by
  unfold isCopied copyins
  cases hbase : v.base with
  | none => simp [addr_eq_none_of_base hbase]
  | some b =>
    obtain ⟨addr, haddr⟩ : ∃ addr, v.addr t = some addr :=
      Option.isSome_iff_exists.mp (addr_isSome_of_base (by simp [hbase]))
    by_cases hin : v.arg.copiedIn t
    · have henc := (h.callOk.typed_visits n v hv).encodable_of_copiedIn hin
        fun r hr => h.visit_resource hv hr
      exact .inr ⟨by simp [hin], hin, henc, addr, by simp [hin, haddr]⟩
    · simp [hin]

theorem copyins_refIndices (h : AtCall t p pre c) (hv : v ∈ visitsArgs t n 0 c.args)
    (ix : ArgId → ℕ) : ((v.copyins t ix).map ExecCopyin.arg).filterMap refIndex =
    (v.copyinRefs t).map fun x => (UInt64.ofNat (ix x)).toNat := by
  rcases h.copyins_cases hv ix with ⟨hno, hnil⟩ | ⟨hcopied, -, henc, addr, hmap⟩
  · simp_all [copyinRefs, isCopied]
  · have hrefs := henc.refIndices ix
    simp_all [copyinRefs, isCopied, Function.comp_def]

theorem length_copyins (h : AtCall t p pre c) (hv : v ∈ visitsArgs t n 0 c.args) (ix : ArgId → ℕ) :
    (v.copyins t ix).length = if v.isCopied t then 1 else 0 := by
  rcases h.copyins_cases hv ix with ⟨hno, hnil⟩ | ⟨hcopied, hin, henc, addr, hmap⟩
  · simp [hno, hnil]
  · obtain ⟨e, he⟩ := henc.exists_execArg (henc.emptyData_of_copiedIn hin) ix
    simp [hcopied, hmap, he]

theorem refIndices_spec (h : AtCall t p pre c) (order : CsumSort) (n : ℕ) :
    (c.spec t order p n).refIndices =
      (c.refs t n).map fun x => (UInt64.ofNat (slotOf p x)).toNat := by
  have hcsum : ∀ cs : Csums, ((csumCopyins t order n (addrIn t (visitsArgs t n 0 c.args))
      cs).map ExecCopyin.arg).filterMap refIndex = [] := by
    simp [csumCopyins, csumCopyin, refIndex, filterMap_map, Function.comp_def]
  have hcopyins : (((visitsArgs t n 0 c.args).flatMap (copyins t (slotOf p))).map
      ExecCopyin.arg).filterMap refIndex =
      ((visitsArgs t n 0 c.args).flatMap (copyinRefs t)).map
        fun x => (UInt64.ofNat (slotOf p x)).toNat := by
    rw [map_flatMap, filterMap_flatMap, map_flatMap]
    exact flatMap_congr fun v hv => h.copyins_refIndices hv (slotOf p)
  have hargs : (c.args.flatMap (execArgs t (slotOf p))).filterMap refIndex =
      (c.args.flatMap directRefs).map fun x => (UInt64.ofNat (slotOf p x)).toNat := by
    rw [filterMap_flatMap, map_flatMap]
    exact flatMap_congr fun a ha => (h.encodable a ha).refIndices (slotOf p)
  rw [ExecCall.refIndices, ExecCall.allArgs, filterMap_append]
  change (((_ ++ csumCopyins t order n _ _ : List ExecCopyin).map ExecCopyin.arg).filterMap
    refIndex) ++ _ = _
  rw [map_append, filterMap_append, hcsum, append_nil, Call.refs, map_append]
  exact congrArg₂ _ hcopyins hargs

end AtCall

/-- Every reference sits in an argument that is not an output, and is to a result of an earlier
call. -/
def RefsBack (p : Prog) : Prop :=
  ∀ (n : ℕ) (c : Call), p.calls[n]? = some c → ∀ r ∈ c.results, ∀ x, r.res = some x →
    r.dir ≠ .dirOut ∧ ∃ m, ∃ c' : Call, m < n ∧ p.calls[m]? = some c' ∧
      x ∈ c'.results.map ResultArg.id

theorem getElem?_split {post : List Call} (h : p.calls = pre ++ c :: post) :
    p.calls[pre.length]? = some c := by
  simp [h]

theorem AtCall.refs_earlier (h : AtCall t p pre c)
    (hback : RefsBack p) : ∀ x ∈ c.refs t pre.length, x ∈ resultIds pre := by
  intro x hx
  obtain ⟨post, hpost⟩ := h.split
  obtain ⟨r, hr, hres⟩ := exists_of_mem_refs hx
  obtain ⟨-, m, c', hm, hc', hxc⟩ := hback pre.length c (getElem?_split hpost) r
    (mem_append_left _ hr) x hres
  rw [hpost, getElem?_append_left hm] at hc'
  rw [resultIds, map_flatMap]
  exact mem_flatMap.mpr ⟨c', mem_of_getElem? hc', hxc⟩

theorem exists_user (hok : ProgOk t p) (h : x ∈ slots p p.calls) :
    ∃ r ∈ p.results, r.res = some x := by
  obtain ⟨hid, hused⟩ := mem_slots_iff.mp h
  obtain ⟨rx, hrx, rfl⟩ := mem_map.mp hid
  obtain ⟨⟨y, u⟩, huse, hy⟩ := any_eq_true.mp hused
  obtain rfl : y = rx.id := by simpa using hy
  have hu : u ∈ p.usesOf rx.id := mem_map.mpr ⟨(rx.id, u), by simp [huse], rfl⟩
  obtain ⟨l1, l2, hsplit⟩ := append_of_mem hrx
  have hres := hok.results
  rw [Prog.results, hsplit] at hres
  have hlink := (ResultsOk.ok hres).uses u hu
  obtain ⟨ru, hru, hruid⟩ := mem_map.mp (hok.inTree rx hrx u hu)
  have hfind : (p.results.find? (·.id == u)).isSome := by
    rw [find?_isSome]
    exact ⟨ru, hru, by simp [hruid]⟩
  obtain ⟨r, hr⟩ := Option.isSome_iff_exists.mp hfind
  refine ⟨r, mem_of_find?_eq_some hr, ?_⟩
  simpa [Prog.brokenUse, Prog.resOf, hr] using hlink

theorem AtCall.mem_refs (h : AtCall t p pre c) (n : ℕ) {r : ResultArg} (hr : r ∈ resultsList c.args)
    (hx : r.res = some x) (hdir : r.dir ≠ .dirOut) : x ∈ c.refs t n := by
  obtain ⟨v, hv, harg⟩ := (mem_results_iff (t := t) n 0).mp hr
  cases hbase : v.base with
  | none =>
    obtain ⟨a, ha, path, hva, -⟩ := mem_visitsArgs 0 hv
    have hmem : x ∈ a.directRefs := by
      rcases (h.callOk.byValue h.compiled h.syscall a ha).visit_cases hva hbase with
        heq | ⟨cc, opt, i, rfl, heq, -⟩
      · rw [← heq, harg]
        simp [directRefs, hx]
      · rw [← heq, harg]
        simp [directRefs, hx]
    exact mem_append_right _ (mem_flatMap.mpr ⟨a, ha, hmem⟩)
  | some b =>
    obtain ⟨cc, f, desc, htype⟩ := h.resource hr
    have hpos := (h.compiled.resourceSizes htype).1
    have hne : cc.typeSize ≠ 0 := by
      intro hzero
      rw [hzero] at hpos
      exact absurd hpos (by decide)
    have hin : v.arg.copiedIn t := by
      simp [copiedIn, harg, isLeaf, dir, hdir, ref, htype, Typ.isPad, size,
        Typ.size, Typ.size?, hne]
    refine mem_append_left _ (mem_flatMap.mpr ⟨v, hv, ?_⟩)
    simp [copyinRefs, hbase, hin]
    simp [harg, directRefs, hx]

/-- The program has no argument with 2^32 or more values per process. -/
def SmallStrides (t : Target) (p : Prog) : Prop :=
  ∀ n (c : Call), p.calls[n]? = some c →
    ∀ v ∈ visitsArgs t n 0 c.args, (t.type v.arg.ref).smallStride

/-- No call takes a buffer by value. -/
def NoDirectBuffers (p : Prog) : Prop := ∀ c ∈ p.calls, ∀ a ∈ c.args, a.isBuffer = false

instance (p : Prog) : Decidable (NoDirectBuffers p) :=
  inferInstanceAs (Decidable (∀ c ∈ p.calls, ∀ a ∈ c.args, a.isBuffer = false))

/-- The conditions of the round trip, the size of the buffer apart. -/
structure Executable (t : Target) (p : Prog) : Prop where
  compiled : t.Compiled
  syscalls : ∀ c ∈ p.calls, c.syscall ∈ t.syscalls
  ok : ProgOk t p
  back : RefsBack p
  strides : SmallStrides t p
  buffers : NoDirectBuffers p

namespace Executable

theorem atCall (h : Executable t p) {post : List Call} (hsplit : p.calls = pre ++ c :: post) :
    AtCall t p pre c :=
  ⟨h.compiled, h.ok, ⟨post, hsplit⟩, h.syscalls c (by simp [hsplit])⟩

theorem atCall_of_getElem? (h : Executable t p) (hc : p.calls[n]? = some c) :
    ∃ pre, pre.length = n ∧ AtCall t p pre c := by
  obtain ⟨hn, rfl⟩ := List.getElem?_eq_some_iff.mp hc
  have hsplit : p.calls = p.calls.take n ++ p.calls[n] :: p.calls.drop (n + 1) := by simp
  refine ⟨p.calls.take n, ?_, h.atCall hsplit⟩
  rw [length_take]
  omega

theorem exists_ref (h : Executable t p) (hx : x ∈ slots p p.calls) :
    ∃ n, ∃ c : Call, p.calls[n]? = some c ∧ x ∈ c.refs t n := by
  obtain ⟨r, hr, hres⟩ := exists_user h.ok hx
  obtain ⟨c, hc, hrc⟩ := mem_flatMap.mp hr
  obtain ⟨n, hn⟩ := mem_iff_getElem?.mp hc
  obtain ⟨pre, -, hat⟩ := h.atCall_of_getElem? hn
  refine ⟨n, c, hn, ?_⟩
  rcases mem_append.mp hrc with hargs | hret
  · exact hat.mem_refs n hargs hres (h.back n c hn r hrc x hres).1
  · -- return values refer to nothing
    have hok := hat.callOk.ret
    rw [Option.mem_toList.mp hret] at hok
    cases hsys : c.syscall.ret with
    | none => simp [hsys, RetOk] at hok
    | some typ =>
      rw [hsys] at hok
      simp [hok.1.1] at hres

theorem mem_slots_of_refs (h : Executable t p) (hc : p.calls[n]? = some c)
    (hx : x ∈ c.refs t n) : x ∈ slots p p.calls := by
  obtain ⟨pre, rfl, hat⟩ := h.atCall_of_getElem? hc
  obtain ⟨rest, hrest⟩ := hat.slots_split
  rw [hrest]
  exact mem_append_left _
    (mem_slots_iff.mpr ⟨hat.refs_earlier h.back x hx, (hat.mem_of_mem_refs hx).1⟩)

theorem spec_getElem? (n : ℕ) :
    (p.spec t order)[n]? = p.calls[n]?.map fun c => c.spec t order p n := by
  simp [Prog.spec, getElem?_zipIdx, Function.comp_def]

theorem mem_spec {order : CsumSort} {call : ExecCall} (hcall : call ∈ p.spec t order) :
    ∃ n, ∃ c : Call, p.calls[n]? = some c ∧ call = c.spec t order p n := by
  obtain ⟨n, hn⟩ := mem_iff_getElem?.mp hcall
  rw [spec_getElem?, Option.map_eq_some_iff] at hn
  obtain ⟨c, hc, rfl⟩ := hn
  exact ⟨n, c, hc, rfl⟩

theorem map_slotOf (hok : ProgOk t p) :
    (slots p p.calls).map (slotOf p) = List.range (slots p p.calls).length := by
  apply ext_getElem (by simp)
  intro i h1 h2
  rw [getElem_map, getElem_range]
  exact (slots_nodup hok).idxOf_getElem i (by simpa using h1)

theorem serializeCalls_out (h : Executable t p) (order : CsumSort) (cs pre : List Call)
    {w w' : ExecContext} (hcalls : p.calls = pre ++ cs) (hinv : EncInv p pre w)
    (hrun : serializeCalls t order p pre.length cs w = some w') :
    EncInv p p.calls w' ∧ w'.out = w.out ++ (cs.zipIdx pre.length).flatMap fun c =>
      (c.1.spec t order p c.2).chunks c.1.args.length := by
  induction cs generalizing pre w with
  | nil =>
    obtain rfl := Option.some.inj hrun
    rw [hcalls, append_nil]
    exact ⟨hinv, by simp⟩
  | cons c cs ih =>
    have hat := h.atCall hcalls
    obtain ⟨w1, hw1, hrest⟩ := Option.bind_eq_some_iff.mp hrun
    obtain ⟨sums, hsums⟩ : ∃ sums, calcChecksumsCall t pre.length c = some sums := by
      obtain ⟨sums, hsums, -⟩ := Option.bind_eq_some_iff.mp hw1
      exact ⟨sums, hsums⟩
    obtain ⟨w2, addrOf, hw2, haddr, hinv2, hout, -⟩ := hat.serializeCall_spec order hinv hsums
    obtain rfl : w2 = w1 := Option.some.inj (hw2.symm.trans hw1)
    rw [hat.exec_eq_spec order hinv hsums haddr (hat.refs_earlier h.back)] at hout
    have hlen : pre.length + 1 = (pre ++ [c]).length := by simp
    rw [hlen] at hrest
    obtain ⟨hinv', hout'⟩ := ih (pre ++ [c]) (by simp [hcalls]) hinv2 hrest
    refine ⟨hinv', ?_⟩
    rw [hout', hout, ← hlen, zipIdx_cons, flatMap_cons, append_assoc]

theorem out_eq (h : Executable t p) (order : CsumSort) {w : ExecContext}
    (hrun : serializeCalls t order p 0 p.calls ExecContext.empty = some w) :
    EncInv p p.calls w ∧ w.out = (p.spec t order).flatMap fun c => c.chunks c.args.length := by
  obtain ⟨hinv, hout⟩ := h.serializeCalls_out order p.calls [] rfl (encInv_empty p) hrun
  refine ⟨hinv, ?_⟩
  rw [hout, Prog.spec, flatMap_map]
  apply flatMap_congr
  intro c hc
  obtain ⟨pre, hlen, hat⟩ := h.atCall_of_getElem? (n := c.2) (c := c.1) (by
    have := (mk_mem_zipIdx_iff_le_and_getElem?_sub (l := p.calls) (x := c.1) (i := c.2)).mp hc
    simpa using this)
  have hargs := hat.length_args (h.buffers c.1 (fst_mem_of_mem_zipIdx hc)) (slotOf p)
  rw [← hargs]
  rfl

theorem instrs_inRange (h : Executable t p) (e : Endian) (order : CsumSort)
    (hlen : (streamBytes e (((p.spec t order).flatMap fun c => c.chunks c.args.length) ++
      [.word execInstrEOF])).length < 2 ^ 63) :
    ∀ call ∈ p.spec t order, ∀ i ∈ call.instrs, i.InRange t := by
  intro call hcall
  obtain ⟨n, c, hc, rfl⟩ := mem_spec hcall
  obtain ⟨pre, -, hat⟩ := h.atCall_of_getElem? hc
  apply hat.instrs_inRange order (h.strides n c hc) (h.buffers c (mem_of_getElem? hc))
  intro bytes readable hdata
  have hblob : Chunk.blob bytes ∈ (p.spec t order).flatMap fun c => c.chunks c.args.length :=
    mem_flatMap.mpr ⟨_, hcall, ExecCall.blob_mem hdata _⟩
  have := length_le_of_blob_mem e (mem_append_left [.word execInstrEOF] hblob)
  omega

variable (hmax : (slots p p.calls).length ≤ execMaxCommands)
include hmax

theorem bound_refIndices (h : Executable t p) :
    bound 0 ((p.spec t order).flatMap ExecCall.refIndices) = (slots p p.calls).length := by
  apply bound_eq
  · intro i hi
    obtain ⟨call, hcall, hic⟩ := mem_flatMap.mp hi
    obtain ⟨n, c, hc, rfl⟩ := mem_spec hcall
    obtain ⟨pre, -, hat⟩ := h.atCall_of_getElem? hc
    rw [hat.refIndices_spec order n] at hic
    obtain ⟨x, hx, rfl⟩ := mem_map.mp hic
    have hslot := h.mem_slots_of_refs hc hx
    rw [toNat_slotOf hmax hslot]
    exact slotOf_lt hslot
  · intro hne
    -- the last slot is that of some result, which some call refers to
    have hlast : (slots p p.calls).length - 1 < (slots p p.calls).length := by omega
    have hx := getElem_mem hlast
    obtain ⟨n, c, hc, href⟩ := h.exists_ref hx
    obtain ⟨pre, -, hat⟩ := h.atCall_of_getElem? hc
    refine mem_flatMap.mpr ⟨_, mem_of_getElem? (i := n) (by rw [spec_getElem?, hc]; rfl), ?_⟩
    rw [hat.refIndices_spec order n]
    refine mem_map.mpr ⟨_, href, ?_⟩
    rw [toNat_slotOf hmax hx]
    exact (slots_nodup h.ok).idxOf_getElem _ hlast

theorem flatMap_filled :
    (p.spec t order).flatMap ExecCall.filled = (slots p p.calls).map (slotOf p) := by
  have hcalls : (p.spec t order).flatMap ExecCall.filled =
      p.calls.zipIdx.flatMap fun c => (Call.slots p c.1).map (slotOf p) := by
    rw [Prog.spec, flatMap_map]
    apply flatMap_congr
    intro c hc
    exact filled_spec order hmax (fst_mem_of_mem_zipIdx hc) c.2
  have hzip : p.calls = p.calls.zipIdx.map Prod.fst := by simp
  rw [hcalls, slots, map_flatMap]
  conv_rhs => rw [hzip, flatMap_map]

theorem bound_filled (h : Executable t p) :
    bound 0 ((p.spec t order).flatMap ExecCall.filled) = (slots p p.calls).length := by
  rw [flatMap_filled order hmax, map_slotOf h.ok]
  apply bound_eq
  · exact fun i hi => mem_range.mp hi
  · intro hne
    exact mem_range.mpr (by omega)

theorem copyout_ne : ∀ call ∈ p.spec t order, ∀ o ∈ call.copyout, o.index ≠ execNoCopyout := by
  intro call hcall o ho
  obtain ⟨n, c, hc, rfl⟩ := mem_spec hcall
  obtain ⟨v, hv, hvo⟩ := mem_filterMap.mp ho
  obtain ⟨r, hr, hused, hindex⟩ := copyout_index hvo
  have hmem : r ∈ resultsList c.args := by
    rw [← visitResults_visitsArgs (t := t) n 0]
    exact mem_filterMap.mpr ⟨v, hv, hr⟩
  rw [hindex]
  apply ofNat_slotOf_ne hmax
  refine mem_flatMap.mpr ⟨c, mem_of_getElem? hc, ?_⟩
  exact mem_usedIds.mpr ⟨mem_map_of_mem (mem_append_right _ hmem), hused⟩

end Executable

/-! ### How many instructions there are -/

/-- One structured argument for each argument of the call; one copyin for each leaf to be
written, and one more for each checksum. -/
def Call.CountsOk (t : Target) (n : ℕ) (c : Call) (call : ExecCall) : Prop :=
  call.args.length = c.args.length ∧
    call.copyin.length = (visitsArgs t n 0 c.args).countP (isCopied t) +
      ((calcChecksumsCall t n c).getD Csums.none).map.length

theorem AtCall.countsOk (h : AtCall t p pre c) (order : CsumSort) (n : ℕ)
    (hbuf : ∀ a ∈ c.args, a.isBuffer = false) : c.CountsOk t n (c.spec t order p n) := by
  refine ⟨h.length_args hbuf (slotOf p), ?_⟩
  have hvisits : ((visitsArgs t n 0 c.args).flatMap (copyins t (slotOf p))).length =
      (visitsArgs t n 0 c.args).countP (isCopied t) := by
    rw [length_flatMap, map_congr_left fun v hv => h.length_copyins hv (slotOf p)]
    induction visitsArgs t n 0 c.args with
    | nil => rfl
    | cons v vs ih =>
      rw [map_cons, sum_cons, ih, countP_cons, Nat.add_comm]
  have hsums : ∀ addrOf cs, (csumCopyins t order n addrOf cs).length = cs.map.length := by
    intro addrOf cs
    rw [csumCopyins, length_map, length_reverse, (order.perm n _).length_eq, length_map]
  change (_ ++ csumCopyins t order n _ _ : List ExecCopyin).length = _
  rw [length_append, hvisits, hsums]

/-- Decoding what the encoder has written gives the specified calls. They fill pairwise distinct
slots and leave nothing out. -/
theorem deserializeExec_serializeForExec {t : Target} {p : Prog} (e : Endian) (order : CsumSort)
    (ht : t.Compiled) (hsys : ∀ c ∈ p.calls, c.syscall ∈ t.syscalls)
    (hvalid : p.validate t = .ok ()) (hback : RefsBack p) (hstride : SmallStrides t p)
    (hbuf : NoDirectBuffers p) {size : ℕ} (hsize : size < 2 ^ 63) {o : ExecOutput}
    (hrun : p.serializeForExec t e order size = some (.ok o)) :
    (∃ vars, t.deserializeExec e o.bytes = .ok ⟨p.spec t order, vars⟩) ∧
      ((p.spec t order).flatMap ExecCall.filled).Nodup ∧
      ∀ n (c : Call), p.calls[n]? = some c → c.CountsOk t n (c.spec t order p n) := by
  have h : Executable t p := ⟨ht, hsys, validate_eq_ok.mp hvalid, hback, hstride, hbuf⟩
  obtain ⟨w, hw, hmax, hroom, rfl⟩ := serializeForExec_ok hrun
  obtain ⟨hinv, hout⟩ := h.out_eq order hw
  rw [hinv.seq] at hmax
  rw [hout] at hroom ⊢
  have hrange := h.instrs_inRange e order (Nat.lt_of_le_of_lt hroom hsize)
  have hvars : ((p.spec t order).foldl ExecCall.storeVars []).length =
      ((p.spec t order).foldl ExecCall.cover 0).toNat := by
    rw [length_storeVars, toNat_cover (Executable.copyout_ne order hmax)]
    exact (h.bound_refIndices order hmax).trans (h.bound_filled order hmax).symm
  refine ⟨⟨_, deserializeExec_calls hrange hvars⟩, ?_, ?_⟩
  · rw [Executable.flatMap_filled order hmax, Executable.map_slotOf h.ok]
    exact nodup_range
  · intro n c hc
    obtain ⟨pre, -, hat⟩ := h.atCall_of_getElem? hc
    exact hat.countsOk order n (hbuf c (mem_of_getElem? hc))

/-! ### Checksums, bitfields, large strides and buffers -/

/-- Types of a small target: a struct of an integer, a bitfield that shares its unit with the
integer and a checksum, and two types whose values are passed directly. -/
def mixTypes : List Typ :=
  [ .int ⟨⟨"int8", 1, false⟩, .native, 0, 0, 0, 0⟩ .plain 0 0 0,
    .int ⟨⟨"int16", 1, false⟩, .native, 8, 4, 2, 1⟩ .plain 0 0 0,
    .csum ⟨⟨"csum", 2, false⟩, .bigEndian, 0, 0, 0, 0⟩ .inet "parent" 0,
    .struct ⟨"mix", some 4, false⟩
      [⟨"a", 0, false, .dirIn⟩, ⟨"b", 1, false, .dirIn⟩, ⟨"c", 2, false, .dirIn⟩] 0 0,
    .ptr ⟨"ptr", 8, false⟩ 3 .dirIn,
    .proc ⟨⟨"proc", 8, false⟩, .native, 0, 0, 0, 0⟩ 0 0x100000000,
    .buffer ⟨"compressed_image", none, false⟩ .compressed 0 0 [] false ]

def mixCall : Syscall := ⟨0, "mix", [⟨"a", 4, false, .dirIn⟩], none, false⟩
def pidCall : Syscall := ⟨1, "pid", [⟨"a", 5, false, .dirIn⟩], none, false⟩
def imageCall : Syscall := ⟨2, "image", [⟨"a", 6, false, .dirIn⟩], none, false⟩

def mixTarget : Target := smallTarget [mixCall, pidCall, imageCall] mixTypes

theorem mixTarget_compiled : mixTarget.Compiled where
  types := forall_getD (by decide)
  argTypes := by decide
  numArgs := by decide
  syscallIds i s h := by
    rcases i with _ | _ | _ | i <;> simp [mixTarget, smallTarget] at h <;> rw [← h] <;> rfl
  numSyscalls := by decide

/-- `mix(&(0x7f0000000000)={0x1, 0x2})`. -/
def mixProg : Prog :=
  ⟨[⟨mixCall, [.pointer ⟨⟨4, .dirIn⟩, 0, 0⟩ (.group ⟨3, .dirIn⟩
    [.const ⟨0, .dirIn⟩ 1, .const ⟨1, .dirIn⟩ 2, .const ⟨2, .dirIn⟩ 0])], none, CallProps.zero⟩], []⟩

/-- `pid(0x0)`. -/
def pidProg : Prog := ⟨[⟨pidCall, [.const ⟨5, .dirIn⟩ 0], none, CallProps.zero⟩], []⟩

def imageProg : Prog :=
  ⟨[⟨imageCall, [.data 6 ⟨.dirIn, by decide⟩ [1]], none, CallProps.zero⟩], []⟩

/-- What the decoder makes of the encoded program. -/
def Prog.reread (t : Target) (p : Prog) : Option (Except DecodeError ExecProg) :=
  match p.serializeForExec t .little byAddr 4096 with
  | some (.ok o) => some (t.deserializeExec .little o.bytes)
  | _ => none

/-- The calls of a program that was read back. -/
def Prog.rereadCalls (t : Target) (p : Prog) : Option (List ExecCall) :=
  (p.reread t).bind fun r => r.toOption.map ExecProg.calls

/-- The places of the leaves to be written: the address of the block plus the offset in it. -/
def leafAddrs (t : Target) (n : ℕ) (c : Call) : List UInt64 :=
  ((visitsArgs t n 0 c.args).filter (isCopied t)).map fun v =>
    (v.base.bind fun b => t.physicalAddr b true).getD 0 + v.offset

theorem refsBack_of_no_refs (h : ∀ r ∈ p.results, r.res = none) : RefsBack p := by
  intro n c hc r hr x hx
  have hmem : r ∈ p.results := mem_flatMap.mpr ⟨c, mem_of_getElem? hc, hr⟩
  rw [h r hmem] at hx
  cases hx

/-- The checksum leaf is written twice and the bitfield at the start of its unit; the stride is
cut to 32 bits, and a buffer passed by value cannot be read back. -/
theorem mixProg_reread :
    mixTarget.Compiled ∧
    (∀ p ∈ [mixProg, pidProg, imageProg], p.validate mixTarget = .ok () ∧ RefsBack p ∧
      ∀ c ∈ p.calls, c.syscall ∈ mixTarget.syscalls) ∧
    mixProg.calls.map (leafAddrs mixTarget 0) = [[0x20000000, 0x20000001, 0x20000002]] ∧
    (mixProg.rereadCalls mixTarget).map (List.map fun c => c.copyin.map ExecCopyin.addr) =
      some [[0x20000000, 0x20000000, 0x20000002, 0x20000002]] ∧
    (pidProg.calls.map fun c => c.args.flatMap (execArgs mixTarget fun _ => 0)) =
      [[.const 8 0 0 0 0 0x100000000]] ∧
    (pidProg.rereadCalls mixTarget).map (List.map ExecCall.args) = some [[.const 8 0 0 0 0 0]] ∧
    imageProg.reread mixTarget = some (.error .badCallArg) := by
  refine ⟨mixTarget_compiled, ?_, by decide, by decide +kernel, by decide, by decide +kernel,
    by decide +kernel⟩
  intro p hp
  simp only [mem_cons, not_mem_nil, or_false] at hp
  rcases hp with rfl | rfl | rfl
  all_goals exact ⟨by decide, refsBack_of_no_refs (by decide), by decide⟩

/-- A program with a checksum and a bitfield that is read back as specified. -/
theorem mixProg_round_trip : ∃ o, mixProg.serializeForExec mixTarget .little byAddr 4096 =
    some (.ok o) ∧ ∃ vars, mixTarget.deserializeExec .little o.bytes =
    .ok ⟨mixProg.spec mixTarget byAddr, vars⟩ := by
  have hsome : (mixProg.reread mixTarget).isSome := by decide +kernel
  have hstride : SmallStrides mixTarget mixProg := by
    intro n c hc
    cases n with
    | zero =>
      obtain rfl := Option.some.inj hc
      decide
    | succ n => simp [mixProg] at hc
  unfold Prog.reread at hsome
  split at hsome
  · rename_i o hrun
    exact ⟨o, hrun, (deserializeExec_serializeForExec .little byAddr mixTarget_compiled
      (by decide) (by decide) (refsBack_of_no_refs (by decide)) hstride (by decide) (by decide)
      hrun).1⟩
  · simp at hsome

end Brf
