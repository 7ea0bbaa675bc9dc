import Brf.Model.StructOpsRender
import Brf.Lib.MiniC

/-! # The rendered text as C statements

Each rendered callback is the printed form of a list of C statements, so executions of the
text are executions of that list. -/

namespace Brf.StructOps

open Brf.Lib.MiniC StructOpsStmt StructOpsProg CStmt

def condToC (condVar condOp : String) (condVal : ℤ) : CExpr :=
  if condOp = "" then .atom condVar else .binop condVar condOp condVal

mutual

def StructOpsStmt.toC (kfuncs : List BpfKfunc) : StructOpsStmt → List CStmt
  | .ctxRead _ accessor ctype var => [.define ctype var (.atom accessor)]
  | .ctxWrite _ accessor _ val => [.store accessor val]
  | .arith var ctype srcVar op val => [.define ctype var (.binop srcVar op val)]
  | .kfuncCall ki args var ctype nullGuard =>
    (if var = "" then CStmt.call (kfuncName kfuncs ki) args
      else .defineCall ctype var (kfuncName kfuncs ki) args) ::
    (if nullGuard then [.guardNull var (-1)] else [])
  | .subflowIter iterId sfVar sock iterBody =>
    [.comment "BRF-generated subflow iterator.",
      .declare "struct bpf_iter_mptcp_subflow " (iterVar iterId),
      .declare "struct mptcp_subflow_context *" sfVar,
      .call "bpf_iter_mptcp_subflow_new" ["&" ++ iterVar iterId, sock],
      .whileCall sfVar "bpf_iter_mptcp_subflow_next" ["&" ++ iterVar iterId]
        (bodyToC kfuncs iterBody),
      .call "bpf_iter_mptcp_subflow_destroy" ["&" ++ iterVar iterId]]
  | .ifElse condVar condOp condVal ifBody elseBody =>
    [.comment "BRF-generated if/else.",
      .ifElse (condToC condVar condOp condVal) (bodyToC kfuncs ifBody) (bodyToC kfuncs elseBody)]

def bodyToC (kfuncs : List BpfKfunc) : List StructOpsStmt → List CStmt
  | [] => []
  | st :: rest => st.toC kfuncs ++ bodyToC kfuncs rest

end

def emptyNoteC (body : List StructOpsStmt) : List CStmt :=
  if body.isEmpty then [.comment "(empty)"] else []

def StructOpsProg.callbackToC (sop : StructOpsProg) (body : List StructOpsStmt) : List CStmt :=
  .comment "BRF-generated body." :: (emptyNoteC body ++ bodyToC sop.kfuncs body)

def prologueC (body : List StructOpsStmt) : List CStmt :=
  [.declare "struct mptcp_subflow_context *" "subflow", .blank,
    .assignCall "subflow" "bpf_mptcp_subflow_ctx" ["msk->first"],
    .guardNull "subflow" (-1), .blank, .comment "BRF-generated body."] ++ emptyNoteC body

def epilogueC : List CStmt :=
  [.blank, .call "mptcp_subflow_set_scheduled" ["subflow", "true"], .ret 0]

def StructOpsProg.getSendToC (sop : StructOpsProg) : List CStmt :=
  prologueC sop.getSendBody ++ bodyToC sop.kfuncs sop.getSendBody ++ epilogueC

/-! ### Agreement of the two printers -/

variable (kfuncs : List BpfKfunc) (body : List StructOpsStmt)

theorem bodyToC_isEmpty : (bodyToC kfuncs body).isEmpty = body.isEmpty := by
  cases body with
  | nil => rfl
  | cons st rest => cases st <;> simp [bodyToC, toC]

theorem print_condToC (condVar condOp : String) (condVal : ℤ) :
    (condToC condVar condOp condVal).print = renderCond condVar condOp condVal := by
  unfold condToC renderCond
  split <;> rfl

-- Texts that the two printers cut at different places are compared as character lists.

theorem renderKfuncCall_eq (indent : String) (ki : ℕ) (args : List String) (var ctype : String)
    (nullGuard : Bool) : renderKfuncCall indent (kfuncName kfuncs ki) args var ctype nullGuard =
    printBlock indent ((kfuncCall ki args var ctype nullGuard).toC kfuncs) := by
  have hcode : Int.repr (-1) = "-1" := rfl
  rw [renderKfuncCall]
  apply String.toList_injective
  by_cases hv : var = "" <;> cases nullGuard <;> simp [toC, printBlock, print, printCall, hv, hcode]

set_option maxRecDepth 2000 in
theorem renderSubflowIter_eq (indent : String) (iterId : ℕ)
    (sfVar sock : String) (iterBody : List StructOpsStmt) :
    renderSubflowIter indent (iterVar iterId) sfVar sock
        (printBlock (indent ++ "\t") (bodyToC kfuncs iterBody)) =
      printBlock indent ((subflowIter iterId sfVar sock iterBody).toC kfuncs) := by
  delta renderSubflowIter
  apply String.toList_injective
  simp [toC, printBlock, print, printCall]

theorem renderIfElse_eq (indent condVar condOp : String) (condVal : ℤ)
    (ifBody elseBody : List StructOpsStmt) :
    renderIfElse indent (renderCond condVar condOp condVal)
        (printBlock (indent ++ "\t") (bodyToC kfuncs ifBody)) (if elseBody.isEmpty then none
          else some (printBlock (indent ++ "\t") (bodyToC kfuncs elseBody))) =
      printBlock indent
        ((ifElse condVar condOp condVal ifBody elseBody).toC kfuncs) := by
  simp only [renderIfElse, toC, printBlock, print, print_condToC, bodyToC_isEmpty]
  cases elseBody.isEmpty <;> simp [String.append_assoc]

/-- The text of a body is its syntax tree, printed. -/
theorem renderBody_eq :
    ∀ indent, renderBody kfuncs indent body = printBlock indent (bodyToC kfuncs body) := by
  revert body
  refine body_induction
    (P := fun st => ∀ indent, renderStmt kfuncs indent st = printBlock indent (st.toC kfuncs))
    ?_ ?_ ?_ ?_ ?_ ?_ ?_ ?_
  · intro indent
    rw [renderBody, bodyToC, printBlock]
  · intro st rest hst hrest indent
    rw [renderBody, bodyToC, printBlock_append, hst, hrest]
  · simp [renderStmt, toC, printBlock, print, CExpr.print]
  · simp [renderStmt, toC, printBlock, print]
  · simp [renderStmt, toC, printBlock, print, CExpr.print, String.append_assoc]
  · intro ki args var ctype nullGuard indent
    rw [renderStmt, renderKfuncCall_eq]
  · intro iterId sfVar sock iterBody ih indent
    rw [renderStmt, ih, renderSubflowIter_eq]
  · intro condVar condOp condVal ifBody elseBody ihIf ihElse indent
    rw [renderStmt, ihIf, ihElse, renderIfElse_eq]

theorem renderEmptyNote_eq : renderEmptyNote body = printBlock "\t" (emptyNoteC body) := by
  unfold renderEmptyNote emptyNoteC
  split <;> rfl

private theorem bodyComment_text :
    (CStmt.comment "BRF-generated body.").print "\t" = "\t/* BRF-generated body. */\n" := by
  decide

theorem renderCallbackBody_eq (sop : StructOpsProg) (body : List StructOpsStmt) :
    sop.renderCallbackBody body = printBlock "\t" (sop.callbackToC body) := by
  have hnote := renderEmptyNote_eq body
  have hbody := renderBody_eq sop.kfuncs body "\t"
  delta renderCallbackBody
  rw [callbackToC, printBlock, printBlock_append, hnote, hbody, bodyComment_text,
    String.append_assoc]

private theorem prologue_text :
    printBlock "\t" (prologueC body) = renderPrologue ++ printBlock "\t" (emptyNoteC body) := by
  congr 1

private theorem epilogue_text : printBlock "\t" epilogueC = renderEpilogue := by
  decide

theorem renderGetSendBody_eq (sop : StructOpsProg) :
    sop.renderGetSendBody = printBlock "\t" sop.getSendToC := by
  have hnote := renderEmptyNote_eq sop.getSendBody
  have hbody := renderBody_eq sop.kfuncs sop.getSendBody "\t"
  rw [renderGetSendBody, getSendToC, printBlock_append,
    printBlock_append, prologue_text, epilogue_text, hnote, hbody]

end Brf.StructOps
