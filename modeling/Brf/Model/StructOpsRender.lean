import Brf.Model.StructOps

/-! # Rendering a scheduler to BPF C

`genStructOpsSource` prints the whole translation unit: the externs in use, the three
callbacks and the `mptcp_sched_ops` instance. -/

namespace Brf.StructOps

mutual

def StructOpsStmt.walk : StructOpsStmt → List StructOpsStmt
  | .subflowIter iterId var sock iterBody =>
    .subflowIter iterId var sock iterBody :: walkStmts iterBody
  | .ifElse condVar condOp condVal ifBody elseBody =>
    .ifElse condVar condOp condVal ifBody elseBody :: (walkStmts ifBody ++ walkStmts elseBody)
  | st => [st]

/-- Every statement of a body in the order `walkStmts` visits them. -/
def walkStmts : List StructOpsStmt → List StructOpsStmt
  | [] => []
  | st :: rest => st.walk ++ walkStmts rest

end

namespace StructOpsProg

def allStmts (sop : StructOpsProg) : List StructOpsStmt :=
  walkStmts sop.getSendBody ++ walkStmts sop.initBody ++ walkStmts sop.releaseBody

def usesSubflowIter (sop : StructOpsProg) : Bool :=
  sop.allStmts.any (fun st => st.kind = .subflowIter)

def callsKfunc (ki : ℕ) : StructOpsStmt → Bool
  | .kfuncCall kfuncIdx .. => kfuncIdx = ki
  | _ => false

/-- Indices of the kfuncs the rendered unit refers to, in table order. -/
def usedKfuncIdxs (sop : StructOpsProg) : List ℕ :=
  (List.range sop.kfuncs.length).filter (fun ki =>
    (sop.kfuncs[ki]?.any isSkeletonKfunc) || sop.allStmts.any (callsKfunc ki))

end StructOpsProg

/-! ### Bodies -/

def kfuncName (kfuncs : List BpfKfunc) (ki : ℕ) : String :=
  (kfuncs[ki]?.map BpfKfunc.name).getD ""

def renderCond (condVar condOp : String) (condVal : ℤ) : String :=
  if condOp = "" then condVar else condVar ++ " " ++ condOp ++ " " ++ toString condVal

def renderKfuncCall (indent fn : String) (args : List String) (var ctype : String)
    (nullGuard : Bool) : String :=
  let argList := String.intercalate ", " args
  (if var = "" then indent ++ fn ++ "(" ++ argList ++ ");\n"
    else indent ++ ctype ++ " " ++ var ++ " = " ++ fn ++ "(" ++ argList ++ ");\n") ++
  (if nullGuard then indent ++ "if (!" ++ var ++ ")\n" ++ indent ++ "\treturn -1;\n" else "")

/-- The iterator triple around an already rendered loop body. -/
def renderSubflowIter (indent itVar sfVar sock loopText : String) : String :=
  indent ++ "/* BRF-generated subflow iterator. */\n" ++
  indent ++ "struct bpf_iter_mptcp_subflow " ++ itVar ++ ";\n" ++
  indent ++ "struct mptcp_subflow_context *" ++ sfVar ++ ";\n" ++
  indent ++ "bpf_iter_mptcp_subflow_new(&" ++ itVar ++ ", " ++ sock ++ ");\n" ++
  indent ++ "while ((" ++ sfVar ++ " = bpf_iter_mptcp_subflow_next(&" ++ itVar ++ "))) \x7b\n" ++
  loopText ++
  indent ++ "\x7d\n" ++
  indent ++ "bpf_iter_mptcp_subflow_destroy(&" ++ itVar ++ ");\n"

/-- An `if` around already rendered branches; `none` is an absent `else`. -/
def renderIfElse (indent cond ifText : String) (elseText : Option String) : String :=
  indent ++ "/* BRF-generated if/else. */\n" ++
  indent ++ "if (" ++ cond ++ ") \x7b\n" ++
  ifText ++
  (match elseText with
    | none => ""
    | some text => indent ++ "\x7d else \x7b\n" ++ text) ++
  indent ++ "\x7d\n"

mutual

def renderStmt (kfuncs : List BpfKfunc) (indent : String) : StructOpsStmt → String
  | .ctxRead _ accessor ctype var => indent ++ ctype ++ " " ++ var ++ " = " ++ accessor ++ ";\n"
  | .ctxWrite _ accessor _ val => indent ++ accessor ++ " = " ++ toString val ++ ";\n"
  | .arith var ctype srcVar op val =>
    indent ++ ctype ++ " " ++ var ++ " = " ++ srcVar ++ " " ++ op ++ " " ++ toString val ++ ";\n"
  | .kfuncCall ki args var ctype nullGuard =>
    renderKfuncCall indent (kfuncName kfuncs ki) args var ctype nullGuard
  | .subflowIter iterId sfVar sock iterBody =>
    renderSubflowIter indent (iterVar iterId) sfVar sock
      (renderBody kfuncs (indent ++ "\t") iterBody)
  | .ifElse condVar condOp condVal ifBody elseBody =>
    renderIfElse indent (renderCond condVar condOp condVal)
      (renderBody kfuncs (indent ++ "\t") ifBody)
      (if elseBody.isEmpty then none else some (renderBody kfuncs (indent ++ "\t") elseBody))

def renderBody (kfuncs : List BpfKfunc) (indent : String) : List StructOpsStmt → String
  | [] => ""
  | st :: rest => renderStmt kfuncs indent st ++ renderBody kfuncs indent rest

end

/-! ### The translation unit -/

def renderEmptyNote (body : List StructOpsStmt) : String :=
  if body.isEmpty then "\t/* (empty) */\n" else ""

def renderPrologue : String :=
  "\tstruct mptcp_subflow_context *subflow;\n\n" ++
  "\tsubflow = bpf_mptcp_subflow_ctx(msk->first);\n" ++
  "\tif (!subflow)\n" ++
  "\t\treturn -1;\n\n" ++
  "\t/* BRF-generated body. */\n"

def renderEpilogue : String :=
  "\n" ++
  "\tmptcp_subflow_set_scheduled(subflow, true);\n" ++
  "\treturn 0;\n"

namespace StructOpsProg

def renderHeader (sop : StructOpsProg) : String :=
  "// SPDX-License-Identifier: GPL-2.0\n" ++
  "/* BRF-generated MPTCP struct_ops scheduler (Phase 3, Stage C). */\n" ++
  "#include \"vmlinux.h\"\n" ++
  "#include <bpf/bpf_helpers.h>\n" ++
  "#include <bpf/bpf_tracing.h>\n\n" ++
  "char _license[] SEC(\"license\") = \"GPL\";\n\n" ++
  "/* MPTCP scheduler kfuncs (net/mptcp/bpf.c). */\n" ++
  String.join (sop.usedKfuncIdxs.map (fun ki =>
    (sop.kfuncs[ki]?.map BpfKfunc.cDecl).getD "" ++ "\n")) ++
  (if sop.usesSubflowIter then
    "/* MPTCP subflow-iterator kfuncs (net/mptcp/bpf.c). */\n" ++
      String.join (sop.iterKfuncs.map (fun kf => kf.cDecl ++ "\n"))
    else "") ++
  "\n"

def renderCallbackBody (sop : StructOpsProg) (body : List StructOpsStmt) : String :=
  "\t/* BRF-generated body. */\n" ++ renderEmptyNote body ++ renderBody sop.kfuncs "\t" body

def renderCallback (sop : StructOpsProg) (suffix : String) (body : List StructOpsStmt) : String :=
  "SEC(\"struct_ops\")\n" ++
  "void BPF_PROG(" ++ sop.schedName ++ suffix ++ ", struct mptcp_sock *msk)\n\x7b\n" ++
  sop.renderCallbackBody body ++ "\x7d\n\n"

def renderGetSendBody (sop : StructOpsProg) : String :=
  renderPrologue ++ renderEmptyNote sop.getSendBody ++
  renderBody sop.kfuncs "\t" sop.getSendBody ++ renderEpilogue

def renderGetSend (sop : StructOpsProg) : String :=
  "SEC(\"struct_ops\")\n" ++
  "int BPF_PROG(" ++ sop.schedName ++ "_get_send, struct mptcp_sock *msk)\n\x7b\n" ++
  sop.renderGetSendBody ++ "\x7d\n\n"

def renderInstance (sop : StructOpsProg) : String :=
  "SEC(\".struct_ops.link\")\n" ++
  "struct mptcp_sched_ops " ++ sop.schedName ++ " = \x7b\n" ++
  "\t.init\t\t= (void *)" ++ sop.schedName ++ "_init,\n" ++
  "\t.release\t= (void *)" ++ sop.schedName ++ "_release,\n" ++
  "\t.get_send\t= (void *)" ++ sop.schedName ++ "_get_send,\n" ++
  "\t.name\t\t= \"" ++ sop.schedName ++ "\",\n" ++
  "\x7d;\n"

def genStructOpsSource (sop : StructOpsProg) : String :=
  sop.renderHeader ++
  sop.renderCallback "_init" sop.initBody ++
  sop.renderCallback "_release" sop.releaseBody ++
  sop.renderGetSend ++
  sop.renderInstance

end StructOpsProg

end Brf.StructOps
