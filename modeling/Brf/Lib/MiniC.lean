import Mathlib.Data.Int.Notation
import Mathlib.Data.List.Basic

/-! # A fragment of C with call traces

Statements of straight-line code, null guards, conditionals and fetch loops, their printed
form, and the event traces of their executions. Conditions and call results are left open:
an execution picks any outcome for each test and any number of rounds for each loop. -/

namespace Brf.Lib.MiniC

/-- Right-hand sides and conditions: an operand, or an operand combined with a constant. -/
inductive CExpr where
  | atom (operand : String)
  | binop (operand op : String) (val : ℤ)

inductive CStmt where
  | comment (text : String)
  | blank
  /-- `ctype` is printed right before the name, so it ends in a space or a star. -/
  | declare (ctype name : String)
  | define (ctype name : String) (rhs : CExpr)
  | store (lvalue : String) (val : ℤ)
  | call (fn : String) (args : List String)
  | defineCall (ctype name fn : String) (args : List String)
  | assignCall (name fn : String) (args : List String)
  | guardNull (name : String) (code : ℤ)
  | whileCall (name fn : String) (args : List String) (body : List CStmt)
  | ifElse (cond : CExpr) (thenBody elseBody : List CStmt)
  | ret (code : ℤ)

def CExpr.print : CExpr → String
  | .atom operand => operand
  | .binop operand op val => operand ++ " " ++ op ++ " " ++ toString val

def printCall (fn : String) (args : List String) : String :=
  fn ++ "(" ++ String.intercalate ", " args ++ ")"

mutual

def CStmt.print (indent : String) : CStmt → String
  | .comment text => indent ++ "/* " ++ text ++ " */\n"
  | .blank => "\n"
  | .declare ctype name => indent ++ ctype ++ name ++ ";\n"
  | .define ctype name rhs => indent ++ ctype ++ " " ++ name ++ " = " ++ rhs.print ++ ";\n"
  | .store lvalue val => indent ++ lvalue ++ " = " ++ toString val ++ ";\n"
  | .call fn args => indent ++ printCall fn args ++ ";\n"
  | .defineCall ctype name fn args =>
    indent ++ ctype ++ " " ++ name ++ " = " ++ printCall fn args ++ ";\n"
  | .assignCall name fn args => indent ++ name ++ " = " ++ printCall fn args ++ ";\n"
  | .guardNull name code =>
    indent ++ "if (!" ++ name ++ ")\n" ++ indent ++ "\treturn " ++ toString code ++ ";\n"
  | .whileCall name fn args body =>
    indent ++ "while ((" ++ name ++ " = " ++ printCall fn args ++ ")) \x7b\n" ++
      printBlock (indent ++ "\t") body ++ indent ++ "\x7d\n"
  | .ifElse cond thenBody elseBody =>
    indent ++ "if (" ++ cond.print ++ ") \x7b\n" ++ printBlock (indent ++ "\t") thenBody ++
      (if elseBody.isEmpty then ""
        else indent ++ "\x7d else \x7b\n" ++ printBlock (indent ++ "\t") elseBody) ++
      indent ++ "\x7d\n"
  | .ret code => indent ++ "return " ++ toString code ++ ";\n"

def printBlock (indent : String) : List CStmt → String
  | [] => ""
  | s :: rest => s.print indent ++ printBlock indent rest

end

theorem printBlock_append (indent : String) (xs ys : List CStmt) :
    printBlock indent (xs ++ ys) = printBlock indent xs ++ printBlock indent ys := by
  induction xs with
  | nil => simp [printBlock]
  | cons s rest ih => simp [printBlock, ih, String.append_assoc]

mutual

/-- The functions a statement calls, nested blocks included. -/
def CStmt.callees : CStmt → List String
  | .call fn _ | .defineCall _ _ fn _ | .assignCall _ fn _ => [fn]
  | .whileCall _ fn _ body => fn :: blockCallees body
  | .ifElse _ thenBody elseBody => blockCallees thenBody ++ blockCallees elseBody
  | _ => []

def blockCallees : List CStmt → List String
  | [] => []
  | s :: rest => s.callees ++ blockCallees rest

end

@[simp] theorem blockCallees_append (xs ys : List CStmt) :
    blockCallees (xs ++ ys) = blockCallees xs ++ blockCallees ys := by
  induction xs with
  | nil => simp [blockCallees]
  | cons s rest ih => simp [blockCallees, ih]

inductive Event where
  | use (name : String)
  | call (fn : String) (args : List String)
  /-- A pointer that may be null has been stored in a variable. -/
  | bindNullable (name : String)
  | check (name : String) (isNull : Bool)
  | ret (code : ℤ)
deriving DecidableEq

def operandRootChars : List Char → List Char
  | '(' :: rest => ((rest.dropWhile (· ≠ ')')).drop 1).takeWhile (· ≠ '-')
  | '&' :: rest => rest.takeWhile (· ≠ '-')
  | cs => cs.takeWhile (· ≠ '-')

/-- The variable an operand reads: a cast, an address-of and a member access are dropped. -/
def operandRoot (operand : String) : String :=
  String.ofList (operandRootChars operand.toList)

def CExpr.events : CExpr → List Event
  | .atom operand | .binop operand _ _ => [.use (operandRoot operand)]

def callEvents (fn : String) (args : List String) : List Event :=
  args.map (fun a => .use (operandRoot a)) ++ [.call fn args]

section Exec

variable (nullable : String → Bool)

/-- Storing the result of `fn`; only functions in `nullable` may return null. -/
def bindEvents (fn name : String) : List Event :=
  if nullable fn then [.bindNullable name] else []

/-- One evaluation of the condition of a fetch loop. -/
def fetchEvents (name fn : String) (args : List String) (isNull : Bool) : List Event :=
  callEvents fn args ++ bindEvents nullable fn name ++ [.check name isNull]

mutual

/-- Traces of a statement. The outcome is the returned code, or `none` if control goes on. -/
def CStmt.Exec : CStmt → List Event → Option ℤ → Prop
  | .comment _, t, o | .blank, t, o | .declare _ _, t, o => t = [] ∧ o = none
  | .define _ _ rhs, t, o => t = rhs.events ∧ o = none
  | .store lvalue _, t, o => t = [.use (operandRoot lvalue)] ∧ o = none
  | .call fn args, t, o => t = callEvents fn args ∧ o = none
  | .defineCall _ name fn args, t, o | .assignCall name fn args, t, o =>
    t = callEvents fn args ++ bindEvents nullable fn name ∧ o = none
  | .guardNull name code, t, o =>
    (t = [.check name true, .ret code] ∧ o = some code) ∨ (t = [.check name false] ∧ o = none)
  | .whileCall name fn args body, t, o =>
    ∃ rounds : List (List Event), (∀ u ∈ rounds, ExecBlock body u none) ∧
      ((t = rounds.flatMap (fetchEvents nullable name fn args false ++ ·) ++
          fetchEvents nullable name fn args true ∧ o = none) ∨
        ∃ last code, ExecBlock body last (some code) ∧ o = some code ∧
          t = rounds.flatMap (fetchEvents nullable name fn args false ++ ·) ++
            fetchEvents nullable name fn args false ++ last)
  | .ifElse cond thenBody elseBody, t, o =>
    ∃ u, t = cond.events ++ u ∧ (ExecBlock thenBody u o ∨ ExecBlock elseBody u o)
  | .ret code, t, o => t = [.ret code] ∧ o = some code

def ExecBlock : List CStmt → List Event → Option ℤ → Prop
  | [], t, o => t = [] ∧ o = none
  | s :: rest, t, o =>
    (∃ t1 t2, s.Exec t1 none ∧ ExecBlock rest t2 o ∧ t = t1 ++ t2) ∨
      ∃ code, s.Exec t (some code) ∧ o = some code

end

variable {nullable} {t : List Event} {o : Option ℤ}

theorem execBlock_cons {s : CStmt} {rest : List CStmt} : ExecBlock nullable (s :: rest) t o ↔
    (∃ t1 t2, s.Exec nullable t1 none ∧ ExecBlock nullable rest t2 o ∧ t = t1 ++ t2) ∨
    ∃ code, s.Exec nullable t (some code) ∧ o = some code := by
  rw [ExecBlock]

/-- A block runs its first part and then its second, or returns inside the first. -/
theorem execBlock_append {xs ys : List CStmt} : ExecBlock nullable (xs ++ ys) t o ↔
    (∃ t1 t2, ExecBlock nullable xs t1 none ∧ ExecBlock nullable ys t2 o ∧ t = t1 ++ t2) ∨
    ∃ code, ExecBlock nullable xs t (some code) ∧ o = some code := by
  induction xs generalizing t with
  | nil => simp [ExecBlock]
  | cons s rest ih =>
    simp only [List.cons_append, ExecBlock, ih]
    constructor
    · rintro (⟨t1, u, hs, (⟨t2, t3, hrest, hys, rfl⟩ | ⟨code, hrest, rfl⟩), rfl⟩ | ⟨code, hs, rfl⟩)
      · refine .inl ⟨t1 ++ t2, t3, .inl ⟨t1, t2, hs, hrest, rfl⟩, hys, ?_⟩
        rw [List.append_assoc]
      · exact .inr ⟨code, .inl ⟨t1, u, hs, hrest, rfl⟩, rfl⟩
      · exact .inr ⟨code, .inr ⟨code, hs, rfl⟩, rfl⟩
    · rintro (⟨u, t3, (⟨t1, t2, hs, hrest, rfl⟩ | ⟨code, hs, hnone⟩), hys, rfl⟩ |
        ⟨code, (⟨t1, t2, hs, hrest, rfl⟩ | ⟨code', hs, hcode⟩), rfl⟩)
      · refine .inl ⟨t1, t2 ++ t3, hs, .inl ⟨t2, t3, hrest, hys, rfl⟩, ?_⟩
        rw [List.append_assoc]
      · cases hnone
      · exact .inl ⟨t1, t2, hs, .inr ⟨code, hrest, rfl⟩, rfl⟩
      · exact .inr ⟨code', hs, hcode⟩

end Exec

end Brf.Lib.MiniC
