import Brf.Model.HelperRepairs

/-! # The C source of a program

Each call is rendered with the declarations of its arguments and its result, within a guard
that tests what the arguments need. -/

namespace Brf.HelperCalls

open Brf.Lib
open Brf.Lib.CExpr (Tok)

/-- The variable of a context field; a field without one is rendered as nothing. -/
def BpfProg.ctxText (p : BpfProg) (field : String) : CText :=
  match p.ctxVars.lookup field with
  | some v => [.var v]
  | none => []

/-- `start + size < stop` -/
def rangeConstraint (start : CText) (size : ℕ) (stop : CText) : CText :=
  start ++ [.space, .op .add, .space, .num size, .space, .op .lt, .space] ++ stop

/-- `(v != 0 && (v & 0x8000000000000000UL == 0))` -/
def positiveConstraint (v : CText) : CText :=
  [.lparen] ++ v ++ [.space, .op .ne, .space, .num 0, .space, .op .logAnd, .space, .lparen] ++ v ++
    [.space, .op .bitAnd, .space, .hexUL 0x8000000000000000, .space, .op .eq, .space, .num 0,
      .rparen, .rparen]

def lowerConstraint (a : BpfArg) : List CText :=
  if a.umin = -1 then []
  else if a.umin = 0 then [positiveConstraint a.name.text]
  else [a.name.text ++ [.space, .op .gt, .space, .num a.umin]]

def upperConstraint (a : BpfArg) : List CText :=
  if a.umax = -1 then [] else [a.name.text ++ [.space, .op .lt, .space, .num a.umax]]

/-- The tests an argument contributes to the guard of its call. -/
def argConstraints (p : BpfProg) (a : BpfArg) : List CText :=
  if a.isPktMetaAccess then
    [rangeConstraint (p.ctxText "data_meta") a.accessSize (p.ctxText "data")]
  else if a.isPktAccess then
    [rangeConstraint (p.ctxText "data") a.accessSize (p.ctxText "data_end")]
  else if !a.canBeNull && !a.isNotNull then [a.name.base]
  else lowerConstraint a ++ upperConstraint a

def getArgConstraints (p : BpfProg) (call : BpfCall) : List CText :=
  call.args.flatMap (argConstraints p)

/-! ### Rendering -/

namespace BpfCall

def prepareText (call : BpfCall) : CText := call.args.flatMap fun a => a.prep.text

def declText (call : BpfCall) : CText :=
  match call.ret with
  | some v => if call.retType = "" then []
    else [.decl ("\t" ++ call.retType ++ " ") v, .text " = 0;\n"]
  | none => []

def guardText (p : BpfProg) (call : BpfCall) : CText := CExpr.conj (getArgConstraints p call)

end BpfCall

def argList (args : List BpfArg) : CText :=
  [Tok.text ", "].intercalate (args.map fun a => a.name.text)

namespace BpfCall

def invokeText (call : BpfCall) : CText :=
  let assign : CText :=
    match call.ret with
    | some v => if call.retType = "" then [] else [.var v, .text " = "]
    | none => []
  [.text "\t"] ++ assign ++ [.text (call.helper.uname ++ "(")] ++ argList call.args ++ [.text ");\n"]

def postText (indent : String) (call : BpfCall) : CText :=
  call.postCalls.flatMap fun pc =>
    [.text (indent ++ "\t" ++ pc.helper.uname ++ "(")] ++ argList pc.args ++ [.text ");\n"]

def text (p : BpfProg) (call : BpfCall) : CText :=
  let guarded := getArgConstraints p call ≠ []
  let indent := if guarded then "\t" else ""
  call.prepareText ++ call.declText ++
    (if guarded then [.text "\tif ("] ++ call.guardText p ++ [.text ") \x7b\n"] else []) ++
    [.text indent] ++ call.invokeText ++ call.postText indent ++
    (if guarded then [.text "\t\x7d\n"] else [])

end BpfCall

def ctxDecls (p : BpfProg) : CText :=
  p.ctxVars.flatMap fun fv =>
    [.decl ("\t" ++ (p.ctxTypes.lookup fv.1).getD "" ++ " ") fv.2,
      .text (" = ctx->" ++ fv.1 ++ ";\n")]

def scratchDecls (p : BpfProg) : CText :=
  [.text "        uint32_t scratch_key = 0;\n"] ++
    p.scratchMapVars.flatMap fun v =>
      [.decl "        char *" v,
        .text (" = bpf_map_lookup_elem(&" ++ mapName 0 ++ ", &scratch_key);\n        if (!"), .var v,
        .text ") return 0;\n        scratch_key++;\n"]

def genCSource (p : BpfProg) : CText :=
  [.text (p.secStr ++ "int func(" ++ p.pt.user ++ " *ctx) \x7b\n")] ++ ctxDecls p ++ scratchDecls p ++
    p.calls.flatMap (BpfCall.text p) ++ [.text "\treturn ", .num p.retVal, .text ";\n\x7d\n\n"]

def CText.toSource (t : CText) : String := CExpr.render (fun v => "v" ++ toString v) t

end Brf.HelperCalls
