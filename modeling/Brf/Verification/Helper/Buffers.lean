import Brf.Model.HelperProgTypes
import Brf.Verification.Helper.Requirements

/-! # Buffers and their sizes

What the arguments of a program declare on the stack is counted against a budget, and the size
of the memory an argument points to is recorded for a size argument that follows. -/

namespace Brf.HelperCalls

open Brf.Lib Lib.Gen List Option BpfArg RegTable

/-- The bytes that a preparation declares on the stack; pointers have eight. -/
def Prepare.stackBytes : Prepare → ℕ
  | .none => 0
  | .int64 _ _ => 8
  | .int64Scratch _ _ _ => 16
  | .chars _ size => size

def BpfProg.stackBytes (p : BpfProg) : ℕ :=
  (p.calls.map fun c => (c.args.map fun a => a.prep.stackBytes).sum).sum

theorem newBpfProg_counted (pt : BpfProgType) : Gen.Ensures (newBpfProg pt) fun p =>
    p.budgeted ≤ p.totalStackUsage ∧ p.totalStackUsage ≤ 400 := by
  refine ensures_bind (.of_forall fun retVal => ?_)
  refine ensures_bind (.of_forall fun sec => ?_)
  refine ensures_bind (.of_forall fun name => ?_)
  exact ensures_pure.mpr ⟨Nat.le_refl 0, Nat.zero_le _⟩

/-- The bytes of the buffers are counted throughout a generation, and the count keeps its limit. -/
theorem Generated.budgeted_le {st : GenState} (h : Generated st) :
    st.prog.budgeted ≤ st.prog.totalStackUsage ∧ st.prog.totalStackUsage ≤ 400 := by
  induction h with
  | start h | next _ h => exact newBpfProg_counted _ _ _ _ h
  | call hst h ih =>
    have hspec := (genBpfHelperCall_spec _ [] _ _ _ _ hst.progOk.1).of_run h
    have hbytes := hspec.bytes.bytes
    exact ⟨by omega, hspec.bytes.limit ih.2⟩

/-- Draws under which `bpf_trace_printk` is called, after the generation of `bpf_ringbuf_reserve`
for its first argument was given up. -/
def printkDraws : Stream' ℕ := fun n => [52, 6, 51, 11].getD n 7

theorem printk_budgeted_le : ∃ r, genBpfProg 8 cgroupSockAddr initial printkDraws = some r ∧
    r.1.2.prog.budgeted = 15 ∧ r.1.2.prog.budgeted ≤ r.1.2.prog.totalStackUsage ∧
    r.1.2.prog.totalStackUsage ≤ 400 := by
  have hgen : (genBpfProg 8 cgroupSockAddr initial printkDraws).map
      (fun r => r.1.2.prog.budgeted) = some 15 := by decide +kernel
  obtain ⟨⟨⟨call, st⟩, draws⟩, hrun, hr⟩ := map_eq_some_iff.mp hgen
  exact ⟨_, hrun, hr, (Generated.of_genBpfProg hrun).budgeted_le⟩

/-- The bytes of the call that was given up are still counted. -/
theorem printk_stackBytes_ne : ∃ r, genBpfProg 8 cgroupSockAddr initial printkDraws = some r ∧
    r.1.1.isSome ∧ r.1.2.prog.stackBytes = 15 ∧ r.1.2.prog.totalStackUsage = 23 := by
  have hgen : (genBpfProg 8 cgroupSockAddr initial printkDraws).map
      (fun r => (r.1.1.isSome, r.1.2.prog.stackBytes, r.1.2.prog.totalStackUsage)) =
      some (true, 15, 23) := by decide +kernel
  obtain ⟨r, hrun, hr⟩ := map_eq_some_iff.mp hgen
  simp only [Prod.mk.injEq] at hr
  exact ⟨r, hrun, hr⟩

section Memory

variable {p : BpfProg} {call : BpfCall} {m a : BpfArg} {ρ : Valuation}

/-- The layout of the map value that the variable points to. -/
def BpfProg.valueAt (p : BpfProg) (v : ℕ) : Option StructDef := do
  let c ← p.calls.find? fun c => c.ret = some v && returnsMapValue c.helper.ret
  let m ← p.argMap c
  m.val

/-- The bytes that can be accessed behind an argument, if it is an array, a packet pointer, a
scratch buffer or a map value. -/
def BpfProg.accessibleBytes (p : BpfProg) (a : BpfArg) : Option ℕ :=
  match a.prep, a.name with
  | .chars _ size, _ => some size
  | _, .var v =>
    if a.isPktMetaAccess || a.isPktAccess then some a.accessSize
    else if v ∈ p.scratchMapVars then some 256
    else (p.valueAt v).map StructDef.size
  | _, .addrMember v e => (p.valueAt v).map fun sd => sd.size - sd.offsetOfMember e.toNat
  | _, _ => none

/-- Whenever the guard is true, a size is not larger than the memory it follows. -/
def SizesFit (p : BpfProg) (call : BpfCall) : Prop :=
  ∀ ρ, Admits p ρ → guardHolds p call ρ → ∀ i m a, call.args[i]? = some m →
    call.args[i + 1]? = some a → m.argType.isSizedMem → a.argType.isSize →
    ∃ n, p.accessibleBytes m = some n ∧ a.name.number ρ ≤ (n : ℤ)

/-- A memory argument that a size follows records its own size, or no argument before it has
recorded one. -/
def FreshSizes (call : BpfCall) : Prop :=
  ∀ i m a, call.args[i]? = some m → call.args[i + 1]? = some a → m.argType.isSizedMem →
    a.argType.isSize → m.recorded ≠ none ∨ lastRecorded (call.args.take i) = 0

theorem accessibleBytes_of_recorded {n : ℕ} (hshape : ArgShape p m) (h : m.recorded = some n) :
    p.accessibleBytes m = some n := by
  unfold recorded at h
  split at h
  · next v size hprep => simpa [BpfProg.accessibleBytes, hprep] using h
  · next hprep =>
    obtain ⟨hpacket, hsize⟩ := ite_none_right_eq_some.mp h
    simp only [Bool.and_eq_true, Bool.or_eq_true] at hpacket
    obtain ⟨s, hname⟩ : ∃ s, m.name = .var s := by
      rcases hpacket.1 with hmeta | hdata
      · obtain ⟨s, -, hname, -⟩ := hshape.metadata hmeta
        exact ⟨s, hname⟩
      · obtain ⟨-, s, -, -, hname, -⟩ := hshape.packet hdata
        exact ⟨s, hname⟩
    cases hprep' : m.prep with
    | chars v size => exact absurd hprep' (hprep v size)
    | none | int64 | int64Scratch => simp [BpfProg.accessibleBytes, hprep', hname, hpacket.1, hsize]

theorem recorded_of_size (hshape : ArgShape p a) (horigin : SizeOrigin p.calls a)
    (hkind : a.argType.isSize) : a.recorded = none := by
  obtain ⟨-, hmeta, hpacket, -, -⟩ := hshape.size hkind
  unfold recorded
  split
  · next hprep =>
    cases horigin with
    | zero _ hnone => simp [hnone] at hprep
    | number _ _ _ hnumber _ _ => simp [hprep, Prepare.number] at hnumber
    | result _ _ _ hnone _ _ _ => simp [hnone] at hprep
  · simp [hmeta, hpacket]

theorem helperFuncMap_release (proto : Proto) (h : (helperFuncMap proto).args.any ArgType.isSize) :
    isRefReleaseCall (helperFuncMap proto) = none := by
  cases proto <;> first | rfl | exact absurd h (by decide)

theorem SizesRecorded.umax_eq {i : ℕ} (h : SizesRecorded call) (hm : call.args[i]? = some m)
    (ha : call.args[i + 1]? = some a) (hkind : a.argType.isSize) (hnone : a.recorded = none) :
    a.umax = (m.recorded.getD (lastRecorded (call.args.take i)) : ℕ) := by
  rw [h.bounds _ _ ha hkind, take_add_one, ha, toList_some, lastRecorded_snoc, hnone,
    getD_none, take_add_one, hm, toList_some, lastRecorded_snoc]

end Memory

/-- When no size that an earlier argument recorded is used for a memory argument, the sizes
fit. -/
theorem Generated.sizesFit {st : GenState} {call : BpfCall} (h : Generated st)
    (hcall : call ∈ st.prog.calls) (hproto : ∃ proto, call.helper = helperFuncMap proto)
    (hfresh : FreshSizes call) : SizesFit st.prog call := by
  intro ρ hρ hguard i m a hm ha hmem hkind
  obtain ⟨-, hp⟩ := h.progOk
  obtain ⟨hargs, hkinds, -⟩ := hp.calls call hcall
  have hmin := mem_of_getElem? hm
  have hain := mem_of_getElem? ha
  have horigin := (hargs a hain).sizeOrigin hkind
  have hrelease : isRefReleaseCall call.helper = none := by
    obtain ⟨proto, hproto⟩ := hproto
    rw [hproto] at hkinds ⊢
    exact helperFuncMap_release proto (any_eq_true.mpr ⟨_, hkinds a hain, hkind⟩)
  have humax := ((hp.calls call hcall).traced hrelease).umax_eq hm ha hkind
    (recorded_of_size (hargs a hain).shape horigin hkind)
  have htest := (guardHolds_iff (fun b hb => (hargs b hb).shape) hρ.field).mp hguard a hain
  obtain ⟨-, hlt⟩ := (test_of_size (hargs a hain).shape hkind).mp htest
  have hnonneg := hρ.size_nonneg hcall hain horigin
  cases hrec : m.recorded with
  | none =>
    have hzero := (hfresh i m a hm ha hmem hkind).resolve_left fun hne => hne hrec
    simp only [hrec, getD_none, hzero] at humax
    omega
  | some n =>
    refine ⟨n, accessibleBytes_of_recorded (hargs m hmin).shape hrec, ?_⟩
    simp only [hrec, getD_some] at humax
    omega

theorem admits_of_nonzero {p : BpfProg} {ρ : Valuation}
    (hnumber : ∀ c ∈ p.calls, ∀ a ∈ c.args, a.prep.number = none)
    (hne : ∀ v, (ρ v).bits ≠ 0) (hsigned : ∀ v, (ρ v).signed = false) : Admits p ρ where
  number c hc a ha v n h := by simp [hnumber c hc a ha] at h
  array _ _ _ _ v _ _ := hne v
  scratch v _ := hne v
  field _ v _ := hsigned v
  result _ _ v _ := hsigned v
  produced _ _ v _ _ _ := hne v

theorem BpfArg.test_of_notNull {p : BpfProg} {ρ : Valuation} {a : BpfArg}
    (hmeta : a.isPktMetaAccess = false) (hpacket : a.isPktAccess = false)
    (hnull : a.isNotNull) (hkind : a.argType.isSize = false) : a.Test p ρ := by
  have hconst : a.argType ≠ .constSize := by
    rintro h
    simp [h, ArgType.isSize] at hkind
  simp [BpfArg.Test, hmeta, hpacket, hnull, hkind, hconst]

def processorCall (v : ℕ) : BpfCall where
  helper := helperFuncMap .bpfGetRawSmpProcessorId
  args := []
  argMap := none
  ret := some v
  retType := "uint64_t"
  stackVarSize := 0
  hint := newBpfCallGenHint none
  postCalls := []

/-- `bpf_ringbuf_output` of an array, with the number of the processor as its size. -/
def ringbufOutputCall : BpfCall where
  helper := helperFuncMap .bpfRingbufOutput
  args := [mapArg .constMapPtr 1,
    { newBpfArg .ptrToMem with name := .var 10, isNotNull := true, prep := .chars 10 62 },
    { newBpfArg .constSizeOrZero with name := .var 11, umax := 62 },
    { newBpfArg .anything with name := .ctx, isNotNull := true }]
  argMap := some 1
  ret := some 12
  retType := "uint64_t"
  stackVarSize := 62
  hint := newBpfCallGenHint none
  postCalls := []

def ringbufOutputDraws : Stream' ℕ := fun n =>
  (37 :: List.replicate 34 1 ++ [54, 1, 1, 1, 1, 1, 48, 62, 54, 21]).getD n 1

theorem ringbufOutput_sizesFit : ∃ st ρ, Generated st ∧ ringbufOutputCall ∈ st.prog.calls ∧
    Admits st.prog ρ ∧ guardHolds st.prog ringbufOutputCall ρ ∧ FreshSizes ringbufOutputCall ∧
    SizesFit st.prog ringbufOutputCall := by
  have hgen : (genBpfProg 8 cgroupSockAddr initial ringbufOutputDraws).map
      (fun r => r.1.2.prog.calls) = some [processorCall 11, ringbufOutputCall] := by
    decide +kernel
  obtain ⟨⟨⟨call, st⟩, draws⟩, hrun, hcalls⟩ := map_eq_some_iff.mp hgen
  have hst := Generated.of_genBpfProg hrun
  have hcall : ringbufOutputCall ∈ st.prog.calls := by
    rw [hcalls]
    exact .tail _ (.head _)
  have hfresh : FreshSizes ringbufOutputCall := by
    intro i m a hm ha hmem hkind
    match i with
    | 0 =>
      obtain rfl := some_inj.mp hm
      exact absurd hmem (by decide)
    | 1 => exact .inr rfl
    | 2 =>
      obtain rfl := some_inj.mp ha
      exact absurd hkind (by decide)
    | i + 3 => simp [ringbufOutputCall] at ha
  have hnumber : ∀ c ∈ st.prog.calls, ∀ a ∈ c.args, a.prep.number = none := by
    rw [hcalls]
    decide
  have hadmits : Admits st.prog fun _ => ⟨1, false⟩ :=
    admits_of_nonzero hnumber (fun _ => by decide) fun _ => rfl
  refine ⟨st, _, hst, hcall, hadmits, ?_, hfresh, ?_⟩
  · have hshape := fun a ha => ((hst.progOk.2.calls _ hcall).args a ha).shape
    rw [guardHolds_iff hshape hadmits.field]
    intro a ha
    simp only [ringbufOutputCall, mem_cons, not_mem_nil, or_false] at ha
    rcases ha with rfl | rfl | rfl | rfl
    on_goal 3 => exact (test_of_size (hshape _ (.tail _ (.tail _ (.head _)))) rfl).mpr (by decide)
    all_goals exact test_of_notNull rfl rfl rfl rfl
  · exact hst.sizesFit hcall ⟨.bpfRingbufOutput, rfl⟩ hfresh

/-- The value of `bpf_get_local_storage`, a map value of eight bytes. -/
def localStorageCall : BpfCall where
  helper := helperFuncMap .bpfGetLocalStorage
  args := [mapArg .constMapPtr 2, { newBpfArg .anything with name := .zero, isNotNull := true }]
  argMap := some 2
  ret := some 11
  retType := "uint64_t*"
  stackVarSize := 0
  hint := newBpfCallGenHint none
  postCalls := []

/-- `bpf_perf_event_output` of the map value, with an array as its flags. -/
def eventOutputCall : BpfCall where
  helper := helperFuncMap .bpfEventOutputData
  args := [{ newBpfArg .ptrToCtx with name := .ctx, isNotNull := true },
    mapArg .constMapPtr 1,
    { newBpfArg .anything with name := .var 10, isNotNull := true, prep := .chars 10 59 },
    { newBpfArg .ptrToMem with name := .var 11, isNotNull := true },
    { newBpfArg .constSizeOrZero with name := .var 12, umax := 59 }]
  argMap := some 1
  ret := some 13
  retType := "uint64_t"
  stackVarSize := 59
  hint := newBpfCallGenHint none
  postCalls := []

def eventOutputDraws : Stream' ℕ := fun n =>
  ([5, 1, 1, 1, 1, 1, 0] ++ List.replicate 9 1 ++ [32, 1, 1, 1, 1, 1, 24, 59, 6, 0] ++
    List.replicate 9 1 ++ [52, 1, 48, 21]).getD n 1

/-- The array that is passed as flags gives the bound of the size, and the guard is true for a
size that is larger than the map value. -/
theorem eventOutput_not_sizesFit : ∃ st, Generated st ∧ eventOutputCall ∈ st.prog.calls ∧
    ¬ SizesFit st.prog eventOutputCall := by
  have hgen : (genBpfProg 8 cgroupSockAddr initial eventOutputDraws).map
      (fun r => (r.1.2.prog.calls, r.1.2.prog.scratchMapVars, (r.1.2.prog.valueAt 11).map (·.size))) =
      some ([localStorageCall, processorCall 12, eventOutputCall], List.range 10, some 8) := by
    decide +kernel
  obtain ⟨⟨⟨call, st⟩, draws⟩, hrun, hr⟩ := map_eq_some_iff.mp hgen
  simp only [Prod.mk.injEq] at hr
  obtain ⟨hcalls, hscratch, hvalue⟩ := hr
  have hst := Generated.of_genBpfProg hrun
  have hcall : eventOutputCall ∈ st.prog.calls := by
    rw [hcalls]
    exact .tail _ (.tail _ (.head _))
  refine ⟨st, hst, hcall, fun hfit => ?_⟩
  let ρ : Valuation := fun v => if v = 12 then ⟨58, false⟩ else ⟨1, false⟩
  have hnumber : ∀ c ∈ st.prog.calls, ∀ a ∈ c.args, a.prep.number = none := by
    rw [hcalls]
    decide
  have hadmits : Admits st.prog ρ := by
    refine admits_of_nonzero hnumber (fun v => ?_) fun v => ?_ <;> dsimp only [ρ] <;> split
    all_goals decide
  have hguard : guardHolds st.prog eventOutputCall ρ := by
    have hshape := fun a ha => ((hst.progOk.2.calls _ hcall).args a ha).shape
    rw [guardHolds_iff hshape hadmits.field]
    intro a ha
    simp only [eventOutputCall, mem_cons, not_mem_nil, or_false] at ha
    rcases ha with rfl | rfl | rfl | rfl | rfl
    on_goal 5 => exact (test_of_size (hshape _ (by simp [eventOutputCall])) rfl).mpr (by decide)
    all_goals exact test_of_notNull rfl rfl rfl rfl
  obtain ⟨n, hn, hle⟩ := hfit ρ hadmits hguard 3 _ _ rfl rfl rfl rfl
  have hbytes : st.prog.accessibleBytes (eventOutputCall.args.get ⟨3, by decide⟩) = some 8 := by
    simpa [BpfProg.accessibleBytes, eventOutputCall, newBpfArg, hscratch] using hvalue
  obtain rfl : n = 8 := some_inj.mp (hn.symm.trans hbytes)
  exact absurd hle (by decide)

end Brf.HelperCalls
