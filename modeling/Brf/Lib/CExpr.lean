import Mathlib.Data.BitVec
import Mathlib.Data.List.Basic

/-! # C conditions as text

Tokens of C text, a recursive-descent reader for the operators `+ < > == != & &&` with the
precedence the language gives them, and the value of an expression over 64-bit variables.
Reading back a printed condition is done with the rules `ReadsAt` and `ChainAt`, one per way
of building a token list. -/

namespace Brf.Lib.CExpr

open List

variable {V : Type}

inductive Op where
  | add | lt | gt | eq | ne | bitAnd | logAnd
  deriving DecidableEq

/-- Grammar level of an operator: a lower level binds tighter. -/
def Op.level : Op → ℕ
  | .add => 1
  | .lt | .gt => 2
  | .eq | .ne => 3
  | .bitAnd => 4
  | .logAnd => 5

def Op.text : Op → String
  | .add => "+"
  | .lt => "<"
  | .gt => ">"
  | .eq => "=="
  | .ne => "!="
  | .bitAnd => "&"
  | .logAnd => "&&"

inductive Tok (V : Type) where
  | var (v : V)
  | num (n : ℤ)
  /-- A hexadecimal constant with suffix `UL`. -/
  | hexUL (n : ℕ)
  | op (o : Op)
  | lparen
  | rparen
  | space
  /-- A variable with the type it is declared with. -/
  | decl (type : String) (v : V)
  /-- Any other text; it takes no part in a condition. -/
  | text (s : String)
  deriving DecidableEq

def Tok.render (name : V → String) : Tok V → String
  | .var v => name v
  | .num n => toString n
  | .hexUL n => "0x" ++ String.ofList (Nat.toDigits 16 n) ++ "UL"
  | .op o => o.text
  | .lparen => "("
  | .rparen => ")"
  | .space => " "
  | .decl type v => type ++ name v
  | .text s => s

def render (name : V → String) (ts : List (Tok V)) : String :=
  String.join (ts.map (Tok.render name))

@[simp] def Tok.vars : Tok V → List V
  | .var v | .decl _ v => [v]
  | _ => []

@[simp] def Tok.declared : Tok V → List V
  | .decl _ v => [v]
  | _ => []

/-- The variables occurring in a text. -/
def vars (ts : List (Tok V)) : List V := ts.flatMap Tok.vars

/-- The variables that a text declares. -/
def declared (ts : List (Tok V)) : List V := ts.flatMap Tok.declared

@[simp] theorem vars_nil : vars ([] : List (Tok V)) = [] := rfl

@[simp] theorem vars_cons (t : Tok V) (ts : List (Tok V)) : vars (t :: ts) = t.vars ++ vars ts := rfl

@[simp] theorem vars_append (ts us : List (Tok V)) : vars (ts ++ us) = vars ts ++ vars us :=
  flatMap_append

@[simp] theorem declared_nil : declared ([] : List (Tok V)) = [] := rfl

@[simp] theorem declared_cons (t : Tok V) (ts : List (Tok V)) :
    declared (t :: ts) = t.declared ++ declared ts := rfl

@[simp] theorem declared_append (ts us : List (Tok V)) :
    declared (ts ++ us) = declared ts ++ declared us :=
  flatMap_append

inductive Expr (V : Type) where
  | var (v : V)
  | num (n : ℤ)
  | hexUL (n : ℕ)
  | plus (e : Expr V)
  | bin (o : Op) (l r : Expr V)
  deriving DecidableEq

mutual

/-- Read an expression of grammar level `k`: level 0 is the unary expressions, level `k + 1` a
left-associative chain of level `k` expressions. -/
def readLevel : ℕ → ℕ → List (Tok V) → Option (Expr V × List (Tok V))
  | 0, _, _ => none
  | fuel + 1, 0, ts =>
    match ts with
    | .var v :: rest => some (.var v, rest)
    | .num n :: rest => some (.num n, rest)
    | .hexUL n :: rest => some (.hexUL n, rest)
    | .op .add :: rest => (readLevel fuel 0 rest).map fun r => (.plus r.1, r.2)
    | .lparen :: rest =>
      match readLevel fuel 5 rest with
      | some (e, .rparen :: rest') => some (e, rest')
      | _ => none
    | _ => none
  | fuel + 1, k + 1, ts =>
    match readLevel fuel k ts with
    | some (l, rest) => readChain fuel k l rest
    | none => none

/-- Continue the chain of level `k + 1` that has `l` to its left. -/
def readChain : ℕ → ℕ → Expr V → List (Tok V) → Option (Expr V × List (Tok V))
  | 0, _, _, _ => none
  | fuel + 1, k, l, ts =>
    match ts with
    | .op o :: rest =>
      if o.level = k + 1 then
        match readLevel fuel k rest with
        | some (r, rest') => readChain fuel k (.bin o l r) rest'
        | none => none
      else some (l, ts)
    | _ => some (l, ts)

end

/-- The expression a text denotes, if the whole text is one. -/
def read [DecidableEq V] (ts : List (Tok V)) : Option (Expr V) :=
  let ts := ts.filter (· ≠ .space)
  match readLevel (7 * ts.length + 5) 5 ts with
  | some (e, []) => some e
  | _ => none

/-- A 64-bit value with the signedness of its type. Narrower signed operands are held sign
extended, which is what the usual conversions turn them into. -/
structure CVal where
  bits : BitVec 64
  signed : Bool
  deriving DecidableEq

namespace CVal

def ofBool (b : Bool) : CVal := ⟨if b then 1 else 0, true⟩

def truthy (a : CVal) : Bool := a.bits ≠ 0

/-- The number a value stands for. -/
def toInt (a : CVal) : ℤ := if a.signed then a.bits.toInt else a.bits.toNat

def lt (a b : CVal) : Bool :=
  if a.signed && b.signed then a.bits.slt b.bits else a.bits.ult b.bits

@[simp] theorem truthy_ofBool (b : Bool) : (ofBool b).truthy = b := by
  cases b <;> rfl

theorem truthy_iff {a : CVal} : a.truthy ↔ a.bits ≠ 0 := decide_eq_true_iff

/-- Comparing with a small constant is comparing numbers, whatever the signedness. -/
theorem lt_num (a : CVal) {n : ℤ} (h0 : 0 ≤ n) (h1 : n < 2 ^ 63) :
    a.lt ⟨BitVec.ofInt 64 n, true⟩ ↔ a.toInt < n := by
  cases hs : a.signed with
  | true =>
    have hn : (BitVec.ofInt 64 n).toInt = n := by
      rw [BitVec.toInt_ofInt]
      exact Int.bmod_eq_of_le (by omega) (by omega)
    simp [lt, toInt, hs, BitVec.slt_iff_toInt_lt, hn]
  | false =>
    have hn : (BitVec.ofInt 64 n).toNat = n.toNat := by
      rw [BitVec.toNat_ofInt]
      rw [Int.emod_eq_of_lt h0 (by omega)]
    simp [lt, toInt, hs, BitVec.ult_iff_lt, BitVec.lt_def, hn]

end CVal

def Op.apply : Op → CVal → CVal → CVal
  | .add, a, b => ⟨a.bits + b.bits, a.signed && b.signed⟩
  | .lt, a, b => .ofBool (a.lt b)
  | .gt, a, b => .ofBool (b.lt a)
  | .eq, a, b => .ofBool (a.bits == b.bits)
  | .ne, a, b => .ofBool (a.bits != b.bits)
  | .bitAnd, a, b => ⟨a.bits &&& b.bits, a.signed && b.signed⟩
  | .logAnd, a, b => .ofBool (a.truthy && b.truthy)

def Expr.eval (env : V → CVal) : Expr V → CVal
  | .var v => env v
  | .num n => ⟨BitVec.ofInt 64 n, true⟩
  | .hexUL n => ⟨BitVec.ofNat 64 n, false⟩
  | .plus e => e.eval env
  | .bin o l r => o.apply (l.eval env) (r.eval env)

/-- The text ends a level `k` expression: no operator of level `k` or tighter follows. -/
def Stops (k : ℕ) (rest : List (Tok V)) : Prop :=
  ∀ o rest', rest = .op o :: rest' → k < o.level

variable {k j : ℕ} {rest : List (Tok V)}

theorem Stops.mono (h : Stops k rest) (hj : j ≤ k) : Stops j rest :=
  fun o rest' he => lt_of_le_of_lt hj (h o rest' he)

/-- With any following text that does not carry it on, `ts` reads as `e` at level `k`. -/
def ReadsAt (k : ℕ) (ts : List (Tok V)) (e : Expr V) : Prop :=
  ∀ fuel rest, 7 * ts.length + k ≤ fuel → Stops k rest →
    readLevel fuel k (ts ++ rest) = some (e, rest)

/-- With `l` to its left, `ts` continues a chain of level `k + 1` to `e`. -/
def ChainAt (k : ℕ) (l : Expr V) (ts : List (Tok V)) (e : Expr V) : Prop :=
  ∀ fuel rest, 7 * ts.length + 1 ≤ fuel → Stops (k + 1) rest →
    readChain fuel k l (ts ++ rest) = some (e, rest)

variable {ts : List (Tok V)}

theorem Stops.append (hts : Stops k ts) (hrest : Stops (k + 1) rest) : Stops k (ts ++ rest) := by
  cases ts with
  | nil => exact hrest.mono (Nat.le_succ k)
  | cons t ts =>
    intro o rest' he
    simp only [cons_append, List.cons.injEq] at he
    exact hts o ts (by rw [he.1])

theorem stops_nil (k : ℕ) : Stops k ([] : List (Tok V)) := by
  intro o rest he
  cases he

variable {o : Op}

theorem stops_op (ts : List (Tok V)) (h : k < o.level) : Stops k (.op o :: ts) := by
  intro o' rest he
  cases he
  exact h

theorem exists_succ_of_le {fuel : ℕ} (h : k + 1 ≤ fuel) : ∃ f, fuel = f + 1 ∧ k ≤ f :=
  ⟨fuel - 1, by omega, by omega⟩

theorem readsAt_var (v : V) : ReadsAt 0 [.var v] (.var v) := by
  intro fuel rest hf _
  obtain ⟨f, rfl, -⟩ := exists_succ_of_le (le_trans (by simp) hf : 0 + 1 ≤ fuel)
  rfl

theorem readsAt_num (n : ℤ) : ReadsAt 0 [Tok.num (V := V) n] (.num n) := by
  intro fuel rest hf _
  obtain ⟨f, rfl, -⟩ := exists_succ_of_le (le_trans (by simp) hf : 0 + 1 ≤ fuel)
  rfl

theorem readsAt_hexUL (n : ℕ) : ReadsAt 0 [Tok.hexUL (V := V) n] (.hexUL n) := by
  intro fuel rest hf _
  obtain ⟨f, rfl, -⟩ := exists_succ_of_le (le_trans (by simp) hf : 0 + 1 ≤ fuel)
  rfl

variable {e : Expr V}

theorem ReadsAt.plus (h : ReadsAt 0 ts e) : ReadsAt 0 (.op .add :: ts) (.plus e) := by
  intro fuel rest hf hs
  simp only [length_cons] at hf
  obtain ⟨f, rfl, hf⟩ := exists_succ_of_le (by omega : 7 * ts.length + 1 ≤ fuel)
  simp only [cons_append, readLevel, h f rest (by omega) hs, Option.map_some]

theorem ReadsAt.paren (h : ReadsAt 5 ts e) : ReadsAt 0 (.lparen :: ts ++ [.rparen]) e := by
  intro fuel rest hf _
  simp only [length_cons, length_append, length_nil] at hf
  obtain ⟨f, rfl, hf'⟩ := exists_succ_of_le (by omega : 7 * ts.length + 5 + 1 ≤ fuel)
  have hinner := h f (.rparen :: rest) hf' (by intro o rest' he; cases he)
  simp only [cons_append, append_assoc, nil_append, readLevel, hinner]

theorem chainAt_nil (k : ℕ) (l : Expr V) : ChainAt k l [] l := by
  intro fuel rest hf hs
  obtain ⟨f, rfl, -⟩ := exists_succ_of_le (le_trans (by simp) hf : 0 + 1 ≤ fuel)
  cases rest with
  | nil => rfl
  | cons t rest =>
    cases t with
    | op o =>
      have hlevel : o.level ≠ k + 1 := Nat.ne_of_gt (hs o rest rfl)
      simp [readChain, hlevel]
    | _ => rfl

variable {l : Expr V} {us : List (Tok V)} {r : Expr V}

theorem ChainAt.cons (ho : o.level = k + 1) (hr : ReadsAt k us r) (ht : ChainAt k (.bin o l r) ts e)
    (hstop : Stops k ts) : ChainAt k l (.op o :: us ++ ts) e := by
  intro fuel rest hf hs
  simp only [length_cons, length_append] at hf
  obtain ⟨f, rfl, hf'⟩ :=
    exists_succ_of_le (by omega : 7 * us.length + 7 * ts.length + 7 + 1 ≤ fuel)
  have hk : k ≤ 4 := by
    cases o <;> simp [Op.level] at ho <;> omega
  have hread := hr f (ts ++ rest) (by omega) (hstop.append hs)
  simp only [cons_append, append_assoc, readChain, ho, if_true, hread]
  exact ht f rest (by omega) hs

theorem ReadsAt.chain (hl : ReadsAt k ts l) (hc : ChainAt k l us e) (hts : ts ≠ [])
    (hstop : Stops k us) : ReadsAt (k + 1) (ts ++ us) e := by
  intro fuel rest hf hs
  simp only [length_append] at hf
  obtain ⟨f, rfl, hf'⟩ :=
    exists_succ_of_le (by omega : 7 * ts.length + 7 * us.length + k + 1 ≤ fuel)
  have hpos : 0 < ts.length := length_pos_iff.mpr hts
  have hread := hl f (us ++ rest) (by omega) (hstop.append hs)
  simp only [append_assoc, readLevel, hread]
  exact hc f rest (by omega) hs

/-- An expression of one level is one of the next level. -/
theorem ReadsAt.lift (h : ReadsAt k ts e) (hts : ts ≠ []) : ReadsAt (k + 1) ts e := by
  have hchain := h.chain (chainAt_nil k e) hts (stops_nil k)
  rwa [append_nil] at hchain

theorem ReadsAt.lift_le (h : ReadsAt k ts e) (hts : ts ≠ []) (hj : k ≤ j) : ReadsAt j ts e := by
  induction hj with
  | refl => exact h
  | step _ ih => exact ih.lift hts

/-- One binary operator between two operands that bind tighter. -/
theorem ReadsAt.bin (ho : o.level = k + 1) (hl : ReadsAt k ts l) (hts : ts ≠ [])
    (hr : ReadsAt k us r) (hj : k + 1 ≤ j) : ReadsAt j (ts ++ .op o :: us) (.bin o l r) := by
  have hchain : ChainAt k l (.op o :: us ++ []) (.bin o l r) :=
    ChainAt.cons ho hr (chainAt_nil k _) (stops_nil k)
  rw [append_nil] at hchain
  exact (hl.chain hchain hts (stops_op us (by omega))).lift_le (by simp) hj

theorem read_of_readsAt [DecidableEq V]
    (h : ReadsAt 5 (ts.filter (· ≠ .space)) e) : read ts = some e := by
  have hread := h (7 * (ts.filter (· ≠ .space)).length + 5) [] le_rfl (stops_nil 5)
  rw [append_nil] at hread
  simp only [read, hread]

/-- The conditions of a list, joined by `&&`. -/
def conj (cs : List (List (Tok V))) : List (Tok V) :=
  [Tok.space, .op .logAnd, .space].intercalate cs

/-- Conditions each of which is tighter than `&&`, with the expressions they read as. -/
def Conditions [DecidableEq V] (cs : List (List (Tok V))) (es : List (Expr V)) : Prop :=
  List.Forall₂ (fun c e => c.filter (· ≠ .space) ≠ [] ∧ ReadsAt 4 (c.filter (· ≠ .space)) e) cs es

variable {cs : List (List (Tok V))} {sep : List (Tok V)}

theorem mem_flatMap_intercalate {W : Type} {f : Tok V → List W} {v : W}
    (hsep : sep.flatMap f = []) :
    v ∈ (sep.intercalate cs).flatMap f ↔ ∃ c ∈ cs, v ∈ c.flatMap f := by
  induction cs with
  | nil => simp [List.intercalate]
  | cons c cs ih =>
    cases cs with
    | nil => simp [List.intercalate]
    | cons d cs =>
      rw [show sep.intercalate (c :: d :: cs) = c ++ (sep ++ sep.intercalate (d :: cs)) by
        simp [List.intercalate]]
      rw [flatMap_append, flatMap_append, hsep, nil_append, mem_append, ih]
      simp only [mem_cons, exists_eq_or_imp]

theorem mem_vars_intercalate {v : V} (hsep : vars sep = []) :
    v ∈ vars (sep.intercalate cs) ↔ ∃ c ∈ cs, v ∈ vars c :=
  mem_flatMap_intercalate hsep

theorem declared_intercalate (hsep : declared sep = [])
    (hcs : ∀ c ∈ cs, declared c = []) : declared (sep.intercalate cs) = [] := by
  refine eq_nil_iff_forall_not_mem.mpr fun v hv => ?_
  obtain ⟨c, hc, hv⟩ := (mem_flatMap_intercalate hsep).mp hv
  exact absurd (hcs c hc) (ne_nil_of_mem hv)

theorem filter_conj_cons [DecidableEq V] (c : List (Tok V)) (cs : List (List (Tok V))) :
    (conj (c :: cs)).filter (· ≠ .space) =
    c.filter (· ≠ .space) ++ cs.flatMap (fun d => .op .logAnd :: d.filter (· ≠ .space)) := by
  induction cs generalizing c with
  | nil => simp [conj, List.intercalate]
  | cons d cs ih =>
    have hsplit : conj (c :: d :: cs) = c ++ ([Tok.space, .op .logAnd, .space] ++ conj (d :: cs)) := by
      simp [conj, List.intercalate]
    rw [hsplit, filter_append, filter_append, ih]
    simp

variable {es : List (Expr V)}

theorem chainAt_conj [DecidableEq V] (h : Conditions cs es) (l : Expr V) :
    ChainAt 4 l (cs.flatMap (fun d => .op .logAnd :: d.filter (· ≠ .space)))
      (es.foldl (.bin .logAnd) l) := by
  induction h generalizing l with
  | nil => exact chainAt_nil 4 l
  | @cons c e cs es hc hrest ih =>
    refine ChainAt.cons rfl hc.2 (ih _) ?_
    cases cs with
    | nil => exact stops_nil 4
    | cons d cs => exact stops_op _ (by decide)

theorem eval_foldl_logAnd (env : V → CVal) (es : List (Expr V)) (l : Expr V) :
    ((es.foldl (.bin .logAnd) l).eval env).truthy =
      ((l.eval env).truthy && es.all fun e => (e.eval env).truthy) := by
  induction es generalizing l with
  | nil => simp
  | cons e es ih =>
    rw [foldl_cons, ih]
    simp [Expr.eval, Op.apply, Bool.and_assoc]

/-- A printed conjunction reads back as one, whatever its conditions. -/
theorem read_conj [DecidableEq V] (h : Conditions cs es) (hcs : cs ≠ []) : ∃ e, read (conj cs) =
    some e ∧ ∀ env, (e.eval env).truthy = es.all fun e => (e.eval env).truthy := by
  cases h with
  | nil => exact absurd rfl hcs
  | @cons c e cs es hc hrest =>
    refine ⟨es.foldl (.bin .logAnd) e, read_of_readsAt ?_, ?_⟩
    · rw [filter_conj_cons]
      refine hc.2.chain (chainAt_conj hrest e) hc.1 ?_
      cases cs with
      | nil => exact stops_nil 4
      | cons d cs => exact stops_op _ (by decide)
    · intro env
      rw [eval_foldl_logAnd, all_cons]

end Brf.Lib.CExpr
