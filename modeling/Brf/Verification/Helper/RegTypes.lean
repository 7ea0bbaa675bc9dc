import Brf.Lib.Ensures
import Brf.Model.HelperProgTypes

/-! # Filtering of register types

`genCompatibleRegTypes` answers which register types an argument may have. It deletes from the
arrays that the argument kinds share, so an answer can depend on what was asked before. -/

namespace Brf.HelperCalls

open Brf.Lib List Option RegTable Function RegType Bool

def RegType.isPacket (t : RegType) : Bool := t = .ptrToPacket || t = .ptrToPacketMeta

def ArgType.isUninit (t : ArgType) : Bool := t = .ptrToUninitMapValue || t = .ptrToUninitMem

/-- Both deletion loops over an array, with the length of the slice they leave. -/
def deleteBoth (uninit allowed : Bool) (drop : RegType → Bool) (arr : List RegType) :
    Option (List RegType × ℕ) := do
  let (arr, len) ←
    if uninit then deleteInPlace drop arr.length 0 arr arr.length else some (arr, arr.length)
  if allowed then some (arr, len) else deleteInPlace isPacket len 0 arr len

/-- What one call of `genCompatibleRegTypes` is asked: for an argument of kind `argType` of
`helper`, in the program `prog`. -/
structure RegTypeQuery where
  prog : BpfProg
  helper : BpfHelper
  argType : ArgType

namespace RegTypeQuery

variable (q : RegTypeQuery)

def table : RegTable := compatibleRegType q.argType

def isUninit : Bool := q.argType.isUninit

def pktAllowed : Bool := checkPktAccess q.prog.pt.enum q.helper false

/-- The row of the table, without the types that fail the write check of uninitialised memory,
and without packet pointers where packets may not be accessed. -/
def expected : List RegType :=
  q.table.initial.filter fun t =>
    (!q.isUninit || t.checkAccess q.prog.pt.enum q.helper true) && (q.pktAllowed || !t.isPacket)

/-- Nothing has to be left out of the row. -/
def isSpared : Bool := !q.isUninit && (q.pktAllowed || !q.table.initial.any isPacket)

def deletions (arr : List RegType) : Option (List RegType × ℕ) :=
  deleteBoth q.isUninit q.pktAllowed (fun t => !t.checkAccess q.prog.pt.enum q.helper true) arr

end RegTypeQuery

/-- Calls of `genCompatibleRegTypes` one after another: their answers and the arrays they
leave. -/
def answerQueries : List RegTypeQuery → (RegTable → List RegType) →
    Gen (List (List RegType) × (RegTable → List RegType))
  | [], tables => pure ([], tables)
  | q :: qs, tables => do
    let ((regTypes, _), st) ← genCompatibleRegTypes q.helper q.argType ⟨q.prog, 0, tables⟩
    let (rest, tables) ← answerQueries qs st.regTypes
    pure (regTypes :: rest, tables)

/-- After any number of the calls every answer is the expected one and the arrays are as they
were. -/
def AnswersPurely (qs : List RegTypeQuery) : Prop :=
  ∀ n draws, answerQueries (qs.take n) initial draws =
    some (((qs.take n).map RegTypeQuery.expected, initial), draws)

theorem run_orAbort {α : Type} (o : Option α) (st : GenState) (draws : Stream' ℕ) :
    orAbort o st draws = o.map fun a => ((a, st), draws) := by
  cases o <;> rfl

theorem deleteInPlace_of_kept {drop : RegType → Bool} {arr : List RegType} {n i len : ℕ}
    (hkept : ∀ t ∈ arr, drop t = false) (hn : i + n ≤ arr.length) :
    deleteInPlace drop n i arr len = some (arr, len) := by
  induction n generalizing i with
  | zero => rfl
  | succ n ih =>
    have hi : i < arr.length := by omega
    have hdrop : drop arr[i] = false := hkept _ (getElem_mem hi)
    simp only [deleteInPlace, getElem?_eq_getElem hi, hdrop, false_eq_true, if_false]
    exact ih (by omega)

namespace RegTypeQuery

variable {q : RegTypeQuery} {tables : RegTable → List RegType} {draws : Stream' ℕ}

theorem genCompatibleRegTypes_eq (q : RegTypeQuery) (tables : RegTable → List RegType)
    (draws : Stream' ℕ) :
    ∃ btfId, genCompatibleRegTypes q.helper q.argType ⟨q.prog, 0, tables⟩ draws =
      (q.deletions (tables q.table)).map fun r =>
        (((r.1.take r.2, btfId), ⟨q.prog, 0, update tables q.table r.1⟩), draws) := by
  refine ⟨if q.argType = .ptrToBtfId ∨ q.argType = .ptrToBtfIdOrNull then
    q.helper.argBtfIds.headD "" else
    if q.argType = .ptrToBtfIdSockCommon then "struct sock_common" else "", ?_⟩
  have hpacket : (fun t : RegType => decide (t = .ptrToPacket) || decide (t = .ptrToPacketMeta)) =
      isPacket := rfl
  simp only [genCompatibleRegTypes, deletions, deleteBoth, isUninit, ArgType.isUninit, pktAllowed,
    table, or_eq_true, decide_eq_true_eq, hpacket, run_bind, run_get, bind_some]
  split <;> by_cases hp : checkPktAccess q.prog.pt.enum q.helper false
  all_goals simp only [hp, Bool.not_true, Bool.not_false, Bool.false_eq_true, if_true, if_false,
    run_bind, run_orAbort]
  · cases deleteInPlace (fun t => !t.checkAccess q.prog.pt.enum q.helper true) _ 0
      (tables (compatibleRegType q.argType)) _ <;> rfl
  · cases deleteInPlace (fun t => !t.checkAccess q.prog.pt.enum q.helper true) _ 0
      (tables (compatibleRegType q.argType)) _ with
    | none => rfl
    | some r =>
      change Option.bind (Option.map _ (deleteInPlace _ r.2 0 r.1 r.2)) _ =
        Option.map _ (deleteInPlace _ r.2 0 r.1 r.2)
      cases deleteInPlace isPacket r.2 0 r.1 r.2 <;> rfl
  · rfl
  · change Option.bind (Option.map _ (deleteInPlace _ _ _ _ _)) _ =
      Option.map _ (deleteInPlace _ _ _ _ _)
    cases deleteInPlace isPacket _ 0 (tables (compatibleRegType q.argType)) _ <;> rfl

theorem deletions_of_isSpared (h : q.isSpared) :
    q.deletions q.table.initial = some (q.table.initial, q.table.initial.length) := by
  simp only [isSpared, and_eq_true, not_eq_true', or_eq_true] at h
  obtain ⟨huninit, hpacket⟩ := h
  simp only [deletions, deleteBoth, huninit, false_eq_true, if_false, bind_eq_bind, bind_some]
  split
  · rfl
  · have hnone := any_eq_false.mp (hpacket.resolve_left ‹_›)
    exact deleteInPlace_of_kept (fun t ht => by simpa using hnone t ht) (by omega)

theorem expected_of_isSpared (h : q.isSpared) : q.expected = q.table.initial := by
  simp only [isSpared, Bool.and_eq_true, Bool.not_eq_true', Bool.or_eq_true] at h
  obtain ⟨huninit, hpacket⟩ := h
  refine filter_eq_self.mpr fun t ht => ?_
  rw [huninit, Bool.not_false, Bool.true_or, Bool.true_and]
  rcases hpacket with hallowed | hnone
  · rw [hallowed, Bool.true_or]
  · simpa using Or.inr (any_eq_false.mp hnone t ht)

/-- The types that fail the write check, when packets may be written or not. -/
def failsWrite (write : Bool) (t : RegType) : Bool :=
  if t.isPacket then !write
  else t ∈ [.ptrToPacketEnd, .ptrToPercpuBtfId, .ptrToFunc, .ptrToSocket, .ptrToSockCommon,
    .ptrToTcpSock, .ptrToXdpSock, .ptrToRdonlyBuf, .ptrToMapKey]

theorem not_checkAccess_eq (e : ProgTypeEnum) (helper : BpfHelper) :
    (fun t : RegType => !t.checkAccess e helper true) =
      failsWrite (checkPktAccess e helper true) := by
  funext t
  cases t <;> rfl

theorem deleteBoth_initial_ne (t : ArgType) (read write : Bool)
    (h : ¬ (!t.isUninit && (read || !(compatibleRegType t).initial.any isPacket))) :
    (deleteBoth t.isUninit read (failsWrite write) (compatibleRegType t).initial).map Prod.fst ≠
      some (compatibleRegType t).initial := by
  revert read write
  cases t <;> decide

/-- A call that has to leave types out shifts the elements of the shared array. -/
theorem deletions_ne_of_not_isSpared (h : ¬ q.isSpared) :
    (q.deletions q.table.initial).map Prod.fst ≠ some q.table.initial := by
  rw [deletions, not_checkAccess_eq]
  exact deleteBoth_initial_ne q.argType _ _ h

end RegTypeQuery

section Sequence

variable {qs : List RegTypeQuery} {draws : Stream' ℕ}

theorem answerQueries_cons (q : RegTypeQuery) (tables : RegTable → List RegType) :
    answerQueries (q :: qs) tables draws =
      (q.deletions (tables q.table)).bind fun r =>
        (answerQueries qs (update tables q.table r.1) draws).map fun a =>
          ((r.1.take r.2 :: a.1.1, a.1.2), a.2) := by
  obtain ⟨btfId, hcall⟩ := q.genCompatibleRegTypes_eq tables draws
  change bind (genCompatibleRegTypes q.helper q.argType ⟨q.prog, 0, tables⟩ draws) _ = _
  rw [hcall]
  cases q.deletions (tables q.table) with
  | none => rfl
  | some r =>
    change bind (answerQueries qs (update tables q.table r.1) draws) _ =
      Option.map _ (answerQueries qs (update tables q.table r.1) draws)
    cases answerQueries qs (update tables q.table r.1) draws <;> rfl

theorem answerQueries_of_isSpared (h : ∀ q ∈ qs, q.isSpared) : answerQueries qs initial draws =
    some ((qs.map RegTypeQuery.expected, initial), draws) := by
  induction qs with
  | nil => rfl
  | cons q qs ih =>
    have hq := h q mem_cons_self
    rw [answerQueries_cons, RegTypeQuery.deletions_of_isSpared hq, bind_some,
      update_eq_self, ih fun q' hq' => h q' (mem_cons_of_mem q hq')]
    simp [RegTypeQuery.expected_of_isSpared hq]

theorem tables_ne_of_not_isSpared {q : RegTypeQuery} (hqs : ∀ q ∈ qs, q.isSpared)
    (hq : ¬ q.isSpared) {answers : List (List RegType)} :
    answerQueries (qs ++ [q]) initial draws ≠ some ((answers, initial), draws) := by
  intro hrun
  induction qs generalizing answers with
  | nil =>
    rw [nil_append, answerQueries_cons] at hrun
    obtain ⟨r, hr, hrun⟩ := bind_eq_some_iff.mp hrun
    have htables : update initial q.table r.1 = initial :=
      congrArg (fun a => a.1.2) (some.inj hrun)
    refine RegTypeQuery.deletions_ne_of_not_isSpared hq ?_
    rw [hr, ← congrFun htables q.table, update_self]
    rfl
  | cons q' qs ih =>
    have hq' := hqs q' mem_cons_self
    rw [cons_append, answerQueries_cons, RegTypeQuery.deletions_of_isSpared hq',
      bind_some, update_eq_self] at hrun
    obtain ⟨⟨⟨rest, tables⟩, draws'⟩, hrest, heq⟩ := map_eq_some_iff.mp hrun
    cases heq
    exact ih (fun q'' h => hqs q'' (mem_cons_of_mem q' h)) hrest

/-- Calls one after another behave as if nothing was shared exactly when none of them has to
leave a type out of its row. -/
theorem answersPurely_iff : AnswersPurely qs ↔ ∀ q ∈ qs, q.isSpared := by
  constructor
  · intro hpure
    by_contra hnot
    have hfind : qs.find? (fun q => !q.isSpared) ≠ none := by
      simpa using hnot
    obtain ⟨q, hfirst⟩ := ne_none_iff_exists'.mp hfind
    obtain ⟨hq, pre, post, rfl, hpre⟩ := find?_eq_some_iff_append.mp hfirst
    have hrun := hpure (pre.length + 1) (Stream'.const 0)
    have htake : (pre ++ q :: post).take (pre.length + 1) = pre ++ [q] := by
      rw [take_length_add_append, take_succ_cons, take_zero]
    rw [htake] at hrun
    exact tables_ne_of_not_isSpared (fun q' h => by simpa using hpre q' h) (by simpa using hq) hrun
  · intro hspared n draws
    exact answerQueries_of_isSpared fun q hq => hspared q (mem_of_mem_take hq)

end Sequence

/-- A program of type `cgroupSockAddr` without calls. -/
def sockAddrProg : BpfProg where
  pt := cgroupSockAddr
  sleepable := false
  secStr := "SEC(\"cgroup/bind4\")\n"
  retVal := 1
  pool := ⟨[], []⟩
  calls := []
  externs := []
  ctxVars := []
  ctxTypes := []
  totalStackUsage := 0
  scratchMapVars := List.range 10
  scratchMapIndex := 0
  varId := 10

/-- The key of `bpf_map_lookup_elem`, which must not be a packet pointer there. -/
def keyQuery : RegTypeQuery :=
  ⟨sockAddrProg, helperFuncMap .bpfMapLookupElem, .ptrToMapKey⟩

/-- Asked twice for the same argument, `genCompatibleRegTypes` gives two answers. The first one
still has a packet pointer. -/
theorem keyQuery_not_pure :
    (answerQueries [keyQuery, keyQuery] initial (Stream'.const 0)).map (fun r => r.1.1) =
      some [[.ptrToStack, .ptrToPacketMeta, .ptrToMapKey, .ptrToMapValue],
        [.ptrToStack, .ptrToMapKey, .ptrToMapValue, .ptrToMapValue]] ∧
    keyQuery.expected = [.ptrToStack, .ptrToMapKey, .ptrToMapValue] ∧
    ¬ AnswersPurely [keyQuery, keyQuery] := by
  refine ⟨by decide +kernel, by decide +kernel, fun hpure => ?_⟩
  have hfirst := congrArg (Option.map fun r => r.1.1) (hpure 1 (Stream'.const 0))
  revert hfirst
  decide +kernel

end Brf.HelperCalls
