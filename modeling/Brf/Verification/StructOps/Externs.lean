import Brf.Verification.StructOps.Rendering

/-! # The externs are the functions called

`genStructOpsSource` prints a translation unit. `usedKfuncIdxs` and the renderer walk the bodies
separately. Both see the same statements, so the unit declares exactly what its functions call. -/

namespace Brf.StructOps

open Brf.Lib.MiniC List StructOpsStmt StructOpsProg BpfKfunc

/-! ### The text as a translation unit -/

def printLines (lines : List String) : String := String.join (lines.map (· ++ "\n"))

/-- The `extern` texts of a unit and the statements of its functions. -/
structure SchedUnit where
  schedName : String
  kfuncDecls : List String
  iterDecls : Option (List String)
  init : List CStmt
  release : List CStmt
  getSend : List CStmt

namespace SchedUnit

def printHeader (u : SchedUnit) : String :=
  printLines ["// SPDX-License-Identifier: GPL-2.0",
    "/* BRF-generated MPTCP struct_ops scheduler (Phase 3, Stage C). */", "#include \"vmlinux.h\"",
    "#include <bpf/bpf_helpers.h>", "#include <bpf/bpf_tracing.h>\n",
    "char _license[] SEC(\"license\") = \"GPL\";\n",
    "/* MPTCP scheduler kfuncs (net/mptcp/bpf.c). */"] ++
  printLines u.kfuncDecls ++
  (u.iterDecls.elim "" fun decls =>
    printLines ("/* MPTCP subflow-iterator kfuncs (net/mptcp/bpf.c). */" :: decls)) ++ "\n"

def printProg (u : SchedUnit) (ret suffix : String) (block : List CStmt) : String :=
  printLines ["SEC(\"struct_ops\")", ret ++ " BPF_PROG(" ++ u.schedName ++ suffix ++
    ", struct mptcp_sock *msk)\n\x7b"] ++ printBlock "\t" block ++ "\x7d\n\n"

def printInstance (u : SchedUnit) : String :=
  printLines ["SEC(\".struct_ops.link\")", "struct mptcp_sched_ops " ++ u.schedName ++ " = \x7b",
    "\t.init\t\t= (void *)" ++ u.schedName ++ "_init,",
    "\t.release\t= (void *)" ++ u.schedName ++ "_release,",
    "\t.get_send\t= (void *)" ++ u.schedName ++ "_get_send,",
    "\t.name\t\t= \"" ++ u.schedName ++ "\",", "\x7d;"]

def print (u : SchedUnit) : String :=
  u.printHeader ++ u.printProg "void" "_init" u.init ++ u.printProg "void" "_release" u.release ++
    u.printProg "int" "_get_send" u.getSend ++ u.printInstance

/-- The function an `extern` text declares: its result stands on the first line, its name
before the parameters on the second. -/
def declaredName (decl : String) : String :=
  String.ofList (((decl.toList.dropWhile (· ≠ '\n')).drop 1).takeWhile (· ≠ '('))

def externs (u : SchedUnit) : List String :=
  (u.kfuncDecls ++ u.iterDecls.getD []).map declaredName

/-- The functions that are called. -/
def callees (u : SchedUnit) : List String :=
  blockCallees u.init ++ blockCallees u.release ++ blockCallees u.getSend

end SchedUnit

open SchedUnit

def StructOpsProg.toUnit (sop : StructOpsProg) : SchedUnit where
  schedName := sop.schedName
  kfuncDecls := sop.usedKfuncIdxs.map (fun ki => (sop.kfuncs[ki]?.map BpfKfunc.cDecl).getD "")
  iterDecls := if sop.usesSubflowIter then some (sop.iterKfuncs.map cDecl) else none
  init := sop.callbackToC sop.initBody
  release := sop.callbackToC sop.releaseBody
  getSend := sop.getSendToC

section

variable (sop : StructOpsProg)

theorem renderHeader_eq : sop.renderHeader = sop.toUnit.printHeader := by
  delta renderHeader
  cases hiter : sop.usesSubflowIter <;>
    simp [printHeader, toUnit, printLines, hiter, Function.comp_def, String.append_assoc]

theorem renderCallback_eq (suffix : String) (body : List StructOpsStmt) :
    sop.renderCallback suffix body = sop.toUnit.printProg "void" suffix (sop.callbackToC body) := by
  delta renderCallback
  rw [renderCallbackBody_eq]
  apply String.toList_injective
  simp [printProg, toUnit, printLines]

theorem renderGetSend_eq :
    sop.renderGetSend = sop.toUnit.printProg "int" "_get_send" sop.getSendToC := by
  delta renderGetSend
  rw [renderGetSendBody_eq]
  apply String.toList_injective
  simp [printProg, toUnit, printLines]

theorem renderInstance_eq : sop.renderInstance = sop.toUnit.printInstance := by
  delta renderInstance
  apply String.toList_injective
  simp [printInstance, toUnit, printLines]

theorem genStructOpsSource_eq : sop.genStructOpsSource = sop.toUnit.print := by
  rw [genStructOpsSource, renderHeader_eq, renderCallback_eq, renderCallback_eq, renderGetSend_eq,
    renderInstance_eq]
  rfl

end

/-! ### Calls in the rendered callbacks -/

def iterTriple : List String :=
  ["bpf_iter_mptcp_subflow_new", "bpf_iter_mptcp_subflow_next", "bpf_iter_mptcp_subflow_destroy"]

/-- The calls a statement prints itself, those of its nested bodies left out. -/
def StructOpsStmt.ownCallees (kfuncs : List BpfKfunc) : StructOpsStmt → List String
  | .kfuncCall ki .. => [kfuncName kfuncs ki]
  | .subflowIter .. => iterTriple
  | _ => []

variable {name : String}

theorem mem_blockCallees_bodyToC {kfuncs : List BpfKfunc}
    (body : List StructOpsStmt) : name ∈ blockCallees (bodyToC kfuncs body) ↔
    ∃ st ∈ walkStmts body, name ∈ st.ownCallees kfuncs := by
  revert body
  refine body_induction
    (P := fun st => name ∈ blockCallees (st.toC kfuncs) ↔
      ∃ st' ∈ st.walk, name ∈ st'.ownCallees kfuncs)
    ?_ ?_ ?_ ?_ ?_ ?_ ?_ ?_
  · simp [bodyToC, walkStmts, blockCallees]
  · intro st rest hst hrest
    simp only [bodyToC, walkStmts, blockCallees_append, mem_append, hst, hrest]
    simp only [or_and_right, exists_or]
  · simp [toC, StructOpsStmt.walk, ownCallees, blockCallees, CStmt.callees]
  · simp [toC, StructOpsStmt.walk, ownCallees, blockCallees, CStmt.callees]
  · simp [toC, StructOpsStmt.walk, ownCallees, blockCallees, CStmt.callees]
  · intro ki args var ctype nullGuard
    by_cases hv : var = "" <;> cases nullGuard <;>
      simp [toC, StructOpsStmt.walk, ownCallees, blockCallees, CStmt.callees, hv]
  · intro iterId var sock body ih
    -- the loop body is printed between the second and the third call of the triple
    simp only [toC, StructOpsStmt.walk, ownCallees, iterTriple, blockCallees, CStmt.callees,
      mem_append, mem_cons, not_mem_nil, ih, exists_eq_or_imp]
    grind
  · intro condVar condOp condVal ifBody elseBody ihIf ihElse
    simp only [toC, StructOpsStmt.walk, ownCallees, blockCallees, CStmt.callees, mem_append,
      mem_cons, not_mem_nil, ihIf, ihElse, or_and_right, exists_or]
    grind

theorem blockCallees_emptyNoteC (body : List StructOpsStmt) :
    blockCallees (emptyNoteC body) = [] := by
  unfold emptyNoteC
  split <;> rfl

theorem mem_callees {sop : StructOpsProg} :
    name ∈ sop.toUnit.callees ↔
      (name = "bpf_mptcp_subflow_ctx" ∨ name = "mptcp_subflow_set_scheduled") ∨
        ∃ st ∈ sop.allStmts, name ∈ st.ownCallees sop.kfuncs := by
  simp only [callees, toUnit, callbackToC, getSendToC, prologueC, epilogueC, blockCallees,
    CStmt.callees, blockCallees_append, blockCallees_emptyNoteC, mem_append, mem_cons, not_mem_nil,
    mem_blockCallees_bodyToC, allStmts, or_and_right, exists_or]
  grind

/-! ### Declarations in the header -/

-- The tables' texts are compared as character lists, one list for each literal.

theorem declaredName_two (a b : List Char) : declaredName (String.ofList a ++ String.ofList b) =
    String.ofList ((((a ++ b).dropWhile (· ≠ '\n')).drop 1).takeWhile (· ≠ '(')) := by
  rw [declaredName, String.toList_append, String.toList_ofList, String.toList_ofList]

theorem declaredName_three (a b c : List Char) :
    declaredName (String.ofList a ++ String.ofList b ++ String.ofList c) =
      String.ofList ((((a ++ b ++ c).dropWhile (· ≠ '\n')).drop 1).takeWhile (· ≠ '(')) := by
  rw [← String.ofList_append, declaredName_two]

/-- Every declaration of the two tables declares the function it is listed under. -/
theorem declaredName_cDecl : ∀ kf ∈ mptcpSchedKfuncs ++ mptcpSubflowIterKfuncs,
    declaredName kf.cDecl = kf.name := by
  simp only [mptcpSchedKfuncs, mptcpSubflowIterKfuncs, cons_append, nil_append, forall_mem_cons]
  refine ⟨(declaredName_two _ _).trans rfl, (declaredName_three _ _ _).trans rfl,
    (declaredName_two _ _).trans rfl, (declaredName_two _ _).trans rfl,
    (declaredName_two _ _).trans rfl, (declaredName_two _ _).trans rfl,
    (declaredName_two _ _).trans rfl, (declaredName_two _ _).trans rfl,
    (declaredName_three _ _ _).trans rfl, (declaredName_two _ _).trans rfl,
    (declaredName_two _ _).trans rfl, forall_mem_nil _⟩

/-- The tables a scheduler refers to, as `genStructOpsProg` sets them. -/
structure TablesOk (sop : StructOpsProg) : Prop where
  kfuncs : sop.kfuncs = mptcpSchedKfuncs
  iterKfuncs : sop.iterKfuncs = mptcpSubflowIterKfuncs

/-- Every call statement, nested ones included, indexes into the table. -/
def KfuncIdxsInRange (sop : StructOpsProg) : Prop :=
  ∀ ki args var ctype nullGuard,
    .kfuncCall ki args var ctype nullGuard ∈ sop.allStmts → ki < sop.kfuncs.length

/-- The text declares the functions that its callbacks call, each once. -/
structure ExternsExact (sop : StructOpsProg) : Prop where
  text : sop.genStructOpsSource = sop.toUnit.print
  called : ∀ name, name ∈ sop.toUnit.externs ↔ name ∈ sop.toUnit.callees
  once : sop.toUnit.externs.Nodup

section Externs

variable {sop : StructOpsProg}

theorem externs_eq (ht : TablesOk sop) : sop.toUnit.externs =
    sop.usedKfuncIdxs.map (kfuncName sop.kfuncs) ++
      (if sop.usesSubflowIter then iterTriple else []) := by
  have hkfuncs : sop.toUnit.kfuncDecls.map declaredName =
      sop.usedKfuncIdxs.map (kfuncName sop.kfuncs) := by
    rw [toUnit, map_map]
    refine map_congr_left fun ki hki => ?_
    have hlt : ki < sop.kfuncs.length := by
      simpa using (mem_filter.mp hki).1
    have hmem : sop.kfuncs[ki] ∈ mptcpSchedKfuncs := ht.kfuncs ▸ getElem_mem hlt
    simpa [kfuncName, hlt] using declaredName_cDecl _ (mem_append_left _ hmem)
  have hiter : (mptcpSubflowIterKfuncs.map cDecl).map declaredName = iterTriple := by
    exact map_congr_left fun kf hkf => declaredName_cDecl kf (mem_append_right _ hkf)
  rw [externs, map_append, toUnit, ht.iterKfuncs]
  congr 1
  cases sop.usesSubflowIter
  · rfl
  · exact hiter

variable {ki : ℕ}

theorem mem_usedKfuncIdxs : ki ∈ sop.usedKfuncIdxs ↔ ki < sop.kfuncs.length ∧
    ((sop.kfuncs[ki]?.any isSkeletonKfunc) ∨ sop.allStmts.any (callsKfunc ki)) := by
  simp [usedKfuncIdxs]

theorem exists_skeleton_idx (ht : TablesOk sop) :
    (∃ ki < sop.kfuncs.length, (sop.kfuncs[ki]?.any isSkeletonKfunc) ∧
        kfuncName sop.kfuncs ki = name) ↔
      name = "bpf_mptcp_subflow_ctx" ∨ name = "mptcp_subflow_set_scheduled" := by
  rw [ht.kfuncs]
  constructor
  · rintro ⟨ki, hlt, hskel, rfl⟩
    revert ki
    decide
  · rintro (rfl | rfl)
    · exact ⟨0, by decide⟩
    · exact ⟨1, by decide⟩

theorem any_callsKfunc : sop.allStmts.any (callsKfunc ki) ↔
    ∃ args var ctype nullGuard, .kfuncCall ki args var ctype nullGuard ∈ sop.allStmts := by
  rw [any_eq_true]
  constructor
  · rintro ⟨st, hst, hcall⟩
    cases st with
    | kfuncCall kj args var ctype nullGuard =>
      obtain rfl : kj = ki := by simpa [callsKfunc] using hcall
      exact ⟨args, var, ctype, nullGuard, hst⟩
    | ctxRead | ctxWrite | arith | ifElse | subflowIter =>
      exact absurd hcall Bool.false_ne_true
  · rintro ⟨args, var, ctype, nullGuard, hst⟩
    exact ⟨_, hst, by simp [callsKfunc]⟩

theorem mem_ownCallees_allStmts : (∃ st ∈ sop.allStmts, name ∈ st.ownCallees sop.kfuncs) ↔
    (∃ ki, sop.allStmts.any (callsKfunc ki) ∧ kfuncName sop.kfuncs ki = name) ∨
    (sop.usesSubflowIter ∧ name ∈ iterTriple) := by
  simp only [any_callsKfunc]
  simp only [usesSubflowIter, any_eq_true]
  constructor
  · rintro ⟨st, hst, hname⟩
    cases st with
    | kfuncCall ki args var ctype nullGuard =>
      exact .inl ⟨ki, ⟨args, var, ctype, nullGuard, hst⟩, (mem_singleton.mp hname).symm⟩
    | subflowIter iterId var sock body => exact .inr ⟨⟨_, hst, rfl⟩, hname⟩
    | ctxRead | ctxWrite | arith | ifElse => cases hname
  · rintro (⟨ki, ⟨args, var, ctype, nullGuard, hst⟩, rfl⟩ | ⟨⟨st, hst, hkind⟩, hname⟩)
    · exact ⟨_, hst, mem_singleton_self _⟩
    · refine ⟨st, hst, ?_⟩
      cases st with
      | subflowIter iterId var sock body => exact hname
      | ctxRead | ctxWrite | arith | ifElse | kfuncCall => cases of_decide_eq_true hkind

theorem nodup_externs (ht : TablesOk sop) : sop.toUnit.externs.Nodup := by
  have hused : (sop.usedKfuncIdxs.map (kfuncName sop.kfuncs)).Sublist
      (mptcpSchedKfuncs.map name) := by
    have hall : (List.range sop.kfuncs.length).map (kfuncName sop.kfuncs) =
        mptcpSchedKfuncs.map name := by
      rw [ht.kfuncs]
      decide
    rw [← hall]
    exact List.Sublist.map _ filter_sublist
  have hiter : (if sop.usesSubflowIter then iterTriple else []).Sublist
      (mptcpSubflowIterKfuncs.map name) := by
    cases sop.usesSubflowIter
    · exact nil_sublist _
    · exact List.Sublist.refl _
  rw [externs_eq ht]
  refine List.Nodup.sublist (hused.append hiter) ?_
  decide

end Externs

/-- Whatever the three bodies are, the kfuncs that the rendered text declares are those called in
it, each declared once. -/
theorem externs_exact (sop : StructOpsProg) (ht : TablesOk sop) (hr : KfuncIdxsInRange sop) :
    ExternsExact sop where
  text := genStructOpsSource_eq sop
  called := by
    intro name
    have hcalled : (∃ ki ∈ sop.usedKfuncIdxs, kfuncName sop.kfuncs ki = name) ↔
        (name = "bpf_mptcp_subflow_ctx" ∨ name = "mptcp_subflow_set_scheduled") ∨
          ∃ ki, sop.allStmts.any (callsKfunc ki) ∧
            kfuncName sop.kfuncs ki = name := by
      rw [← exists_skeleton_idx ht]
      constructor
      · rintro ⟨ki, hki, hname⟩
        obtain ⟨hlt, hskel | hcall⟩ := mem_usedKfuncIdxs.mp hki
        · exact .inl ⟨ki, hlt, hskel, hname⟩
        · exact .inr ⟨ki, hcall, hname⟩
      · rintro (⟨ki, hlt, hskel, hname⟩ | ⟨ki, hcall, hname⟩)
        · exact ⟨ki, mem_usedKfuncIdxs.mpr ⟨hlt, .inl hskel⟩, hname⟩
        · obtain ⟨args, var, ctype, nullGuard, hst⟩ := any_callsKfunc.mp hcall
          have hlt := hr ki args var ctype nullGuard hst
          exact ⟨ki, mem_usedKfuncIdxs.mpr ⟨hlt, .inr hcall⟩, hname⟩
    have hiter : name ∈ (if sop.usesSubflowIter then iterTriple else []) ↔
        sop.usesSubflowIter ∧ name ∈ iterTriple := by
      cases sop.usesSubflowIter <;> simp
    rw [externs_eq ht, mem_append, mem_map, hcalled, hiter, mem_callees,
      mem_ownCallees_allStmts, or_assoc]
  once := nodup_externs ht

/-- A loop with a branch in it, and a call only inside the branch. -/
def nestedProg : StructOpsProg where
  schedName := "brf_0"
  writeFields := mptcpSchedWriteFields
  kfuncs := mptcpSchedKfuncs
  iterKfuncs := mptcpSubflowIterKfuncs
  getSendBody := [.subflowIter 0 "sf0" "(struct sock *)msk"
    [.ifElse "v1" "" 0 [] [.kfuncCall 6 ["msk->first"] "" "" false]]]
  initBody := []
  releaseBody := []

theorem nestedProg_externs :
    nestedProg.toUnit.externs = ["bpf_mptcp_subflow_ctx", "mptcp_subflow_set_scheduled",
      "mptcp_set_timeout", "bpf_iter_mptcp_subflow_new", "bpf_iter_mptcp_subflow_next",
      "bpf_iter_mptcp_subflow_destroy"] ∧ ExternsExact nestedProg := by
  refine ⟨by rw [externs_eq ⟨rfl, rfl⟩]; decide, externs_exact nestedProg ⟨rfl, rfl⟩ ?_⟩
  intro ki args var ctype nullGuard hst
  have hki : ki = 6 := by
    simp [nestedProg, allStmts, walkStmts, StructOpsStmt.walk] at hst
    exact hst.1
  rw [hki]
  decide

end Brf.StructOps
