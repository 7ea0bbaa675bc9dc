import Brf.Model.HelperSource
import Brf.Verification.Helper.Programs

/-! # What a guard says

The guard of a call is read back as C and evaluated. Each argument contributes one test, and the
guard holds when all of them do. -/

namespace Brf.HelperCalls

open Brf.Lib List CExpr ArgName Nat
open Brf.Lib.CExpr (Tok Expr CVal Conditions ReadsAt)

abbrev Valuation := ℕ → CVal

/-- The guard is absent, or it is an expression that is true. -/
def guardHolds (p : BpfProg) (call : BpfCall) (ρ : Valuation) : Prop :=
  getArgConstraints p call = [] ∨
    ∃ e, CExpr.read (call.guardText p) = some e ∧ (e.eval ρ).truthy

section Reading

variable {v : ℕ}

theorem conditions_var : Conditions [[Tok.var v]] [.var v] := by
  refine .cons ⟨by simp, ?_⟩ .nil
  exact (readsAt_var v).lift_le (by simp) (by decide)

theorem conditions_range (s e n : ℕ) :
    Conditions [rangeConstraint [.var s] n [.var e]]
      [.bin .lt (.bin .add (.var s) (.num n)) (.var e)] := by
  refine .cons ⟨by simp [rangeConstraint], ?_⟩ .nil
  have hadd : ReadsAt 1 ([Tok.var s] ++ .op .add :: [.num (n : ℤ)])
      (.bin .add (.var s) (.num n)) :=
    .bin rfl (readsAt_var s) (by simp) (readsAt_num n) le_rfl
  have hstop : ReadsAt 1 [Tok.var e] (.var e) := (readsAt_var e).lift (by simp)
  exact .bin (o := .lt) rfl hadd (by simp) hstop (by decide)

theorem conditions_range_nil (e n : ℕ) :
    Conditions [rangeConstraint [] n [.var e]] [.bin .lt (.plus (.num n)) (.var e)] := by
  refine .cons ⟨by simp [rangeConstraint], ?_⟩ .nil
  have hplus : ReadsAt 1 [Tok.op (V := ℕ) .add, .num (n : ℤ)] (.plus (.num n)) :=
    (readsAt_num (V := ℕ) n).plus.lift (by simp)
  have hstop : ReadsAt 1 [Tok.var e] (.var e) := (readsAt_var e).lift (by simp)
  exact .bin (o := .lt) rfl hplus (by simp) hstop (by decide)

/-- `==` binds tighter than `&`, so the sign bit is compared with zero first. -/
def positiveExpr (x : Expr ℕ) : Expr ℕ :=
  .bin .logAnd (.bin .ne x (.num 0))
    (.bin .bitAnd x (.bin .eq (.hexUL 0x8000000000000000) (.num 0)))

variable {ts : CText} {x : Expr ℕ}

theorem conditions_positive (hspace : ts.filter (· ≠ .space) = ts) (hts : ts ≠ [])
    (hx : ReadsAt 0 ts x) : Conditions [positiveConstraint ts] [positiveExpr x] := by
  refine .cons ⟨by simp [positiveConstraint], ?_⟩ .nil
  have hne : ReadsAt 4 (ts ++ .op .ne :: [.num 0]) (.bin .ne x (.num 0)) :=
    .bin rfl (hx.lift_le hts (by decide)) hts
      ((readsAt_num 0).lift_le (by simp) (by decide)) (by decide)
  have heq : ReadsAt 3 ([Tok.hexUL (V := ℕ) 0x8000000000000000] ++ .op .eq :: [.num 0])
      (.bin .eq (.hexUL 0x8000000000000000) (.num 0)) :=
    .bin rfl ((readsAt_hexUL _).lift_le (by simp) (by decide)) (by simp)
      ((readsAt_num 0).lift_le (by simp) (by decide)) le_rfl
  have hand := ReadsAt.bin (o := .bitAnd) rfl (hx.lift_le hts (by decide)) hts heq (le_refl 4)
  have hinner := ReadsAt.paren (hand.lift (by simp))
  have hall := ReadsAt.bin (o := .logAnd) rfl hne (by simp)
    (hinner.lift_le (by simp) (by decide : 0 ≤ 4)) (le_refl 5)
  have hparen := (ReadsAt.paren hall).lift_le (by simp) (by decide : 0 ≤ 4)
  have htext : (positiveConstraint ts).filter (· ≠ .space) =
      .lparen :: (ts ++ .op .ne :: [.num 0] ++ .op .logAnd ::
        (.lparen :: (ts ++ .op .bitAnd :: ([.hexUL 0x8000000000000000] ++ .op .eq :: [.num 0])) ++
          [.rparen])) ++ [.rparen] := by
    simp only [positiveConstraint, filter_append, hspace]
    simp
  rw [htext]
  exact hparen

theorem conditions_upper (n : ℤ) (hspace : ts.filter (· ≠ .space) = ts)
    (hts : ts ≠ []) (hx : ReadsAt 0 ts x) :
    Conditions [ts ++ [.space, .op .lt, .space, .num n]] [.bin .lt x (.num n)] := by
  have htext : (ts ++ ([.space, .op .lt, .space, .num n] : CText)).filter (· ≠ .space) =
      ts ++ .op .lt :: [.num n] := by
    rw [filter_append, hspace]
    simp
  refine .cons ⟨by simp, ?_⟩ .nil
  rw [htext]
  exact .bin rfl (hx.lift hts) hts ((readsAt_num n).lift (by simp)) (by decide)

end Reading

/-- The object an argument points to exists; members are addressed through a variable. -/
def ArgName.NonNull (ρ : Valuation) : ArgName → Prop
  | .zero => False
  | .ctx | .progActive | .map _ => True
  | .var v | .member v _ | .addrMember v _ => (ρ v).bits ≠ 0

/-- The number an argument stands for. Only variables and the constant are used as numbers. -/
def ArgName.number (ρ : Valuation) : ArgName → ℤ
  | .var v => (ρ v).toInt
  | .zero | .ctx | .progActive | .map _ | .member _ _ | .addrMember _ _ => 0

/-- What the guards know of arguments, whatever their origin. -/
structure ArgShape (p : BpfProg) (a : BpfArg) : Prop where
  metadata : a.isPktMetaAccess → ∃ s e, a.name = .var s ∧
    p.ctxVars.lookup "data_meta" = some s ∧ p.ctxVars.lookup "data" = some e
  packet : a.isPktAccess → ∃ f s e, f ≠ "data_end" ∧ a.name = .var s ∧
    p.ctxVars.lookup f = some s ∧ p.ctxVars.lookup "data_end" = some e
  access : a.accessSize ≤ maxAccess
  range : a.accessSize ≠ 0 → a.isPktMetaAccess ∨ a.isPktAccess
  tested : a.canBeNull = false → a.isNotNull = false → ∃ v, a.name.var? = some v
  size : a.argType.isSize → a.canBeNull ∧ a.isPktMetaAccess = false ∧
    a.isPktAccess = false ∧ (∃ n : ℕ, n ≤ maxAccess ∧ a.umax = n) ∧
    (a.name = .zero ∨ ∃ v, a.name = .var v)
  noSize : a.argType.isSize = false → a.umax = -1
  umin : a.umin = if a.argType = .constSize then 0 else -1

variable {t : ArgType}

theorem newBpfArg_canBeNull (h : t.isSize) : (newBpfArg t).canBeNull := by
  revert h
  cases t <;> decide

theorem eq_scalarValue (h : t.isSize) {rt : RegType}
    (hrt : rt ∈ (compatibleRegType t).initial) : rt = .scalarValue := by
  cases t <;> first | exact absurd h (by decide) | exact mem_singleton.mp hrt

variable {p : BpfProg} {a : BpfArg}

theorem ArgShape.of_new {size : ℕ} (hsize : size ≤ maxAccess) (hkind : a.argType = t)
    (humin : a.umin = (newBpfArg t).umin) (humax : a.umax = (newBpfArg t).umax)
    (hmeta : a.isPktMetaAccess → ∃ s e, a.name = .var s ∧
      p.ctxVars.lookup "data_meta" = some s ∧ p.ctxVars.lookup "data" = some e)
    (hpacket : a.isPktAccess → ∃ f s e, f ≠ "data_end" ∧ a.name = .var s ∧
      p.ctxVars.lookup f = some s ∧ p.ctxVars.lookup "data_end" = some e)
    (haccess : a.accessSize ≤ maxAccess)
    (hrange : a.accessSize ≠ 0 → a.isPktMetaAccess ∨ a.isPktAccess)
    (htested : a.canBeNull = false → a.isNotNull = false → ∃ v, a.name.var? = some v)
    (hnumber : t.isSize → a.canBeNull ∧ a.isPktMetaAccess = false ∧
      a.isPktAccess = false ∧ (a.name = .zero ∨ ∃ v, a.name = .var v)) :
    ArgShape p (a.bounded size) := by
  subst hkind
  refine ⟨hmeta, hpacket, haccess, hrange, htested, fun h => ?_, fun h => ?_, ?_⟩
  · obtain ⟨hnull, hmeta, hpacket, hname⟩ := hnumber h
    exact ⟨hnull, hmeta, hpacket, ⟨size, hsize, if_pos h⟩, hname⟩
  · rw [BpfArg.bounded_argType] at h
    have hnew : (newBpfArg a.argType).umax = -1 := by
      revert h
      cases a.argType <;> decide
    simp [BpfArg.bounded_umax, h, humax, hnew]
  · simp [humin, newBpfArg]

/-- Every generated argument has a form the guard is made for. -/
theorem ArgOk.shape {before : List BpfCall} (h : ArgOk p before a) : ArgShape p a := by
  obtain ⟨size, lo, t, a0, hsize, horigin, rfl⟩ := h
  have hpointer : ∀ {rt}, rt ∈ (compatibleRegType t).initial → rt ≠ .scalarValue →
      t.isSize ≠ true := fun hrt hne h => hne (eq_scalarValue h hrt)
  cases horigin with
  | fixed =>
    exact .of_new hsize rfl rfl rfl nofun nofun (zero_le _) (absurd rfl) nofun
      fun h => ⟨newBpfArg_canBeNull h, rfl, rfl, .inl rfl⟩
  | number v n prep _ _ _ _ _ =>
    exact .of_new hsize rfl rfl rfl nofun nofun (zero_le _) (absurd rfl) nofun
      fun h => ⟨newBpfArg_canBeNull h, rfl, rfl, .inr ⟨v, rfl⟩⟩
  | stack _ _ hreg | scratch _ _ hreg =>
    exact .of_new hsize rfl rfl rfl nofun nofun (zero_le _) (absurd rfl) nofun
      fun h => absurd h (hpointer hreg (by decide))
  | address name rt _ _ hreg hrt =>
    exact .of_new hsize rfl rfl rfl nofun nofun (zero_le _) (absurd rfl) nofun
      fun h => absurd h (hpointer hreg hrt)
  | field f v rt _ hreg hrt =>
    exact .of_new hsize rfl rfl rfl nofun nofun (zero_le _) (absurd rfl) (fun _ _ => ⟨v, rfl⟩)
      fun h => absurd h (hpointer hreg hrt)
  | metadata v start n hv hstop hn hreg =>
    exact .of_new hsize rfl rfl rfl (fun _ => ⟨v, start, rfl, hv, hstop⟩) nofun hn
      (fun _ => .inl rfl) (fun _ _ => ⟨v, rfl⟩) fun h => absurd h (hpointer hreg (by decide))
  | packet f v stop n hf hv hstop hn hreg =>
    exact .of_new hsize rfl rfl rfl nofun (fun _ => ⟨f, v, stop, hf, rfl, hv, hstop⟩) hn
      (fun _ => .inr rfl) (fun _ _ => ⟨v, rfl⟩) fun h => absurd h (hpointer hreg (by decide))
  | result d v name canBeNull rt _ _ _ hname hplain hreg hrt =>
    refine .of_new hsize rfl rfl rfl nofun nofun (zero_le _) (absurd rfl) (fun _ _ => ⟨v, hname⟩) ?_
    intro h
    obtain rfl := eq_scalarValue h hreg
    have hret : d.helper.ret = .integer := by
      revert hrt
      cases d.helper.ret <;> decide
    obtain ⟨rfl, rfl⟩ := hplain hret
    exact ⟨newBpfArg_canBeNull h, rfl, rfl, .inr ⟨v, rfl⟩⟩

/-- How the guard compares a range of the packet with its end: in 64 bits, and with the size
alone when there is no variable for the start. -/
def BpfProg.EndsBefore (p : BpfProg) (ρ : Valuation) (start : String) (n : ℕ) (stop : String) :
    Prop :=
  match p.ctxVars.lookup start, p.ctxVars.lookup stop with
  | some s, some e => ((ρ s).bits + BitVec.ofNat 64 n).toNat < (ρ e).bits.toNat
  | none, some e => n < (ρ e).bits.toNat
  | _, none => False

/-- What the tests of an argument amount to. The test of a size that must be positive never
succeeds. -/
def BpfArg.Test (p : BpfProg) (ρ : Valuation) (a : BpfArg) : Prop :=
  if a.isPktMetaAccess then p.EndsBefore ρ "data_meta" a.accessSize "data"
  else if a.isPktAccess then p.EndsBefore ρ "data" a.accessSize "data_end"
  else if !a.canBeNull && !a.isNotNull then a.name.NonNull ρ
  else a.argType ≠ .constSize ∧ (a.argType.isSize → a.name.number ρ < a.umax)

/-- Context fields hold pointers. -/
def FieldsUnsigned (p : BpfProg) (ρ : Valuation) : Prop :=
  ∀ f v, p.ctxVars.lookup f = some v → (ρ v).signed = false

/-- The texts `cs` are conditions that together say `T`. -/
def Says (p : BpfProg) (cs : List CText) (T : Valuation → Prop) : Prop :=
  ∃ es, Conditions cs es ∧
    ∀ ρ, FieldsUnsigned p ρ → ((es.all fun e => (e.eval ρ).truthy) ↔ T ρ)

theorem says_range (start : String) {stop : String} {n e : ℕ} (hn : n ≤ maxAccess)
    (hstop : p.ctxVars.lookup stop = some e) :
    Says p [rangeConstraint (p.ctxText start) n (p.ctxText stop)]
      fun ρ => p.EndsBefore ρ start n stop := by
  cases hstart : p.ctxVars.lookup start with
  | some s =>
    simp only [BpfProg.ctxText, hstart, hstop, BpfProg.EndsBefore]
    refine ⟨_, conditions_range s e n, ?_⟩
    intro ρ hρ
    simp [Expr.eval, CExpr.Op.apply, CVal.lt, hρ _ _ hstart, BitVec.ult_iff_lt, BitVec.lt_def]
  | none =>
    simp only [BpfProg.ctxText, hstart, hstop, BpfProg.EndsBefore]
    refine ⟨_, conditions_range_nil e n, ?_⟩
    intro ρ hρ
    have hn' : n % 18446744073709551616 = n := mod_eq_of_lt (lt_of_le_of_lt hn (by decide))
    simp [Expr.eval, CExpr.Op.apply, CVal.lt, hρ _ _ hstop, BitVec.ult_iff_lt, BitVec.lt_def, hn']

theorem says_size (h : ArgShape p a) :
    Says p (lowerConstraint a ++ upperConstraint a)
      fun ρ => a.argType ≠ .constSize ∧ (a.argType.isSize → a.name.number ρ < a.umax) := by
  cases hkind : a.argType.isSize with
  | false =>
    have hne : a.argType ≠ .constSize := fun hk => by simp [hk, ArgType.isSize] at hkind
    refine ⟨[], ?_, by simp [hne]⟩
    simp only [lowerConstraint, upperConstraint, h.umin, h.noSize hkind, if_neg hne, if_true]
    exact .nil
  | true =>
    obtain ⟨-, -, -, ⟨n, hn, humax⟩, hname⟩ := h.size hkind
    -- the text of a size is one token, which reads as the number it stands for
    obtain ⟨x, hx, hspace, hval⟩ : ∃ x, ReadsAt 0 a.name.text x ∧
        a.name.text.filter (· ≠ .space) = a.name.text ∧
        ∀ ρ : Valuation, (x.eval ρ).toInt = a.name.number ρ := by
      rcases hname with hname | ⟨v, hname⟩
      · exact ⟨.num 0, hname ▸ readsAt_num 0, by simp [hname, text],
          fun ρ => by rw [hname]; rfl⟩
      · exact ⟨.var v, hname ▸ readsAt_var v, by simp [hname, text],
          fun ρ => by rw [hname]; rfl⟩
    have hts : a.name.text ≠ [] := by
      rcases hname with hname | ⟨v, hname⟩ <;> simp [hname, text]
    have hupper : Conditions (upperConstraint a) [.bin .lt x (.num a.umax)] := by
      have hne : a.umax ≠ -1 := by omega
      rw [upperConstraint, if_neg hne]
      exact conditions_upper a.umax hspace hts hx
    by_cases hpos : a.argType = .constSize
    · refine ⟨[positiveExpr x, .bin .lt x (.num a.umax)], ?_, ?_⟩
      · have hlower : lowerConstraint a = [positiveConstraint a.name.text] := by
          simp [lowerConstraint, h.umin, hpos]
        rw [hlower]
        exact rel_append (conditions_positive hspace hts hx) hupper
      · simp [positiveExpr, Expr.eval, CExpr.Op.apply, CVal.truthy, CVal.ofBool, hpos]
    · refine ⟨[.bin .lt x (.num a.umax)], ?_, ?_⟩
      · have hlower : lowerConstraint a = [] := by
          simp [lowerConstraint, h.umin, hpos]
        rwa [hlower, nil_append]
      · intro ρ _
        have hlt := CVal.lt_num (x.eval ρ) (n := a.umax) (by omega)
          (by simp only [humax, maxAccess] at *; omega)
        simp [Expr.eval, CExpr.Op.apply, hpos, hlt, hval]

theorem says_argument (h : ArgShape p a) : Says p (argConstraints p a) fun ρ => a.Test p ρ := by
  unfold argConstraints BpfArg.Test
  split
  · next hmeta =>
    obtain ⟨s, e, -, -, hstop⟩ := h.metadata hmeta
    exact says_range _ h.access hstop
  split
  · next hpacket =>
    obtain ⟨f, s, e, -, -, -, hstop⟩ := h.packet hpacket
    exact says_range _ h.access hstop
  split
  · next htest =>
    simp only [Bool.and_eq_true, Bool.not_eq_true'] at htest
    obtain ⟨v, hv⟩ := h.tested htest.1 htest.2
    have hbase : a.name.base = [.var v] := by
      cases hname : a.name <;> simp_all [var?, base]
    have hnull : ∀ ρ, a.name.NonNull ρ ↔ (ρ v).bits ≠ 0 := by
      cases hname : a.name <;> simp_all [var?, ArgName.NonNull]
    rw [hbase]
    refine ⟨_, conditions_var, ?_⟩
    intro ρ _
    simp only [all_cons, all_nil, Bool.and_true, Expr.eval, CVal.truthy_iff, hnull]
  · exact says_size h

/-- The guard is read as the conjunction of the tests of the arguments. -/
theorem guardHolds_iff {call : BpfCall} {ρ : Valuation} (h : ∀ a ∈ call.args, ArgShape p a)
    (hρ : FieldsUnsigned p ρ) : guardHolds p call ρ ↔ ∀ a ∈ call.args, a.Test p ρ := by
  have hall : ∀ args : List BpfArg, (∀ a ∈ args, ArgShape p a) →
      Says p (args.flatMap (argConstraints p)) fun ρ => ∀ a ∈ args, a.Test p ρ := by
    intro args hargs
    induction args with
    | nil => exact ⟨[], .nil, by simp⟩
    | cons a args ih =>
      obtain ⟨es, hes, heval⟩ := says_argument (hargs a (by simp))
      obtain ⟨es', hes', heval'⟩ := ih fun b hb => hargs b (by simp [hb])
      refine ⟨es ++ es', rel_append hes hes', ?_⟩
      intro ρ hρ
      rw [all_append, Bool.and_eq_true, heval ρ hρ, heval' ρ hρ]
      simp
  obtain ⟨es, hes, heval⟩ := hall call.args h
  refine Iff.trans ?_ (heval ρ hρ)
  unfold guardHolds
  by_cases hnil : getArgConstraints p call = []
  · have hesnil : es = [] := by
      have hlen := hes.length_eq
      change (getArgConstraints p call).length = _ at hlen
      rw [hnil] at hlen
      exact length_eq_zero_iff.mp hlen.symm
    simp [hnil, hesnil]
  · obtain ⟨e, hread, htruthy⟩ := read_conj hes hnil
    have hguard : CExpr.read (call.guardText p) = some e := hread
    simp [hnil, hguard, htruthy]

end Brf.HelperCalls
