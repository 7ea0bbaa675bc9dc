import Mathlib.Data.Finset.Lattice.Fold
import Mathlib.Data.List.Pairwise
import Mathlib.Order.Lattice.Nat
import Brf.Model.HelperProgTypes
import Brf.Verification.Helper.Requirements

/-! # Faithful guards

Values that meet every requirement of a call, or every test of its guard, as far as either can
be met. Comparing the two shows for which calls the guard is faithful. -/

namespace Brf.HelperCalls

open Brf.Lib List ArgName Function BpfCall ArgType
open Brf.Lib.CExpr (CVal)

/-! ### Values for the variables of a call -/

def BpfCall.largest (call : BpfCall) : ℕ := call.args.toFinset.sup BpfArg.accessSize

variable {call : BpfCall}

theorem BpfCall.le_largest {a : BpfArg} (ha : a ∈ call.args) : a.accessSize ≤ call.largest :=
  Finset.le_sup (f := BpfArg.accessSize) (mem_toFinset.mpr ha)

variable {b : BpfArg}

theorem BpfCall.exists_largest (hb : b ∈ call.args) :
    ∃ a ∈ call.args, a.accessSize = call.largest := by
  obtain ⟨a, ha, heq⟩ := Finset.exists_mem_eq_sup call.args.toFinset
    ⟨b, mem_toFinset.mpr hb⟩ BpfArg.accessSize
  exact ⟨a, mem_toFinset.mp ha, heq.symm⟩

theorem BpfCall.largest_le {p : BpfProg} (h : ∀ a ∈ call.args, ArgShape p a) :
    call.largest ≤ maxAccess :=
  Finset.sup_le fun a ha => (h a (mem_toFinset.mp ha)).access

/-- Where the metadata of a packet is put. -/
def packetBase : ℕ := 2 ^ 20

/-- A local variable of the program is set to `n`. -/
def DeclaresNumber (p : BpfProg) (v n : ℕ) : Prop :=
  ∃ c ∈ p.calls, ∃ a ∈ c.args, a.prep.number = some (v, n)

/-- The value of a variable that is not set to a number: the end of the packet is `stop`, sizes
are `slack` below their bound, and ranges have `slack` bytes more than they need. -/
def freeValue (p : BpfProg) (call : BpfCall) (slack stop v : ℕ) : ℕ :=
  if p.ctxVars.lookup "data_end" = some v then stop
  else if p.ctxVars.lookup "data_meta" = some v then packetBase
  else
    match call.args.find? fun a => a.argType.isSize && decide (a.name = .var v) with
    | some a => a.umax.toNat - slack
    | none => packetBase + call.largest + slack

open Classical in
noncomputable def valuation (p : BpfProg) (call : BpfCall) (slack stop : ℕ) : Valuation := fun v =>
  if h : ∃ n, DeclaresNumber p v n then ⟨BitVec.ofNat 64 h.choose, true⟩
  else ⟨BitVec.ofNat 64 (freeValue p call slack stop v), false⟩

section Values

variable {p : BpfProg} {call d : BpfCall} {a : BpfArg} {slack stop v n : ℕ}

theorem Prepare.mem_vars_of_number {prep : Prepare} (h : prep.number = some (v, n)) :
    v ∈ prep.vars := by
  cases prep <;> simp_all [Prepare.number, Prepare.vars]

variable {m : ℕ}

theorem DeclaresNumber.unique (hp : ProgOk p) (h : DeclaresNumber p v n)
    (h' : DeclaresNumber p v m) : n = m := by
  obtain ⟨c, hc, a, ha, hn⟩ := h
  obtain ⟨c', hc', b, hb, hm⟩ := h'
  obtain rfl := local_eq (hp.once v) hc ha (Prepare.mem_vars_of_number hn) hc' hb
    (Prepare.mem_vars_of_number hm)
  rw [hn] at hm
  cases hm
  rfl

theorem DeclaresNumber.declared (h : DeclaresNumber p v n) : ∃ c ∈ p.calls, v ∈ c.declares := by
  obtain ⟨c, hc, a, ha, hn⟩ := h
  exact ⟨c, hc, mem_declares_of_prep ha (Prepare.mem_vars_of_number hn)⟩

theorem valuation_number (hp : ProgOk p) (h : DeclaresNumber p v n) :
    valuation p call slack stop v = ⟨BitVec.ofNat 64 n, true⟩ := by
  have hex : ∃ n, DeclaresNumber p v n := ⟨n, h⟩
  rw [valuation, dif_pos hex, hex.choose_spec.unique hp h]

theorem valuation_free (h : ∀ n, ¬ DeclaresNumber p v n) :
    valuation p call slack stop v = ⟨BitVec.ofNat 64 (freeValue p call slack stop v), false⟩ :=
  dif_neg fun ⟨n, hn⟩ => h n hn

/-! Variables that no number is assigned to. -/

theorem not_declaresNumber_of_scratch (hp : ProgOk p) (hv : v ∈ p.scratchMapVars) :
    ¬ DeclaresNumber p v n := by
  intro h
  obtain ⟨c, hc, hdecl⟩ := h.declared
  exact not_declared_of_scratch (hp.once v) hv hc hdecl

theorem not_declaresNumber_of_field (hp : ProgOk p) (hv : v ∈ p.ctxVars.map Prod.snd) :
    ¬ DeclaresNumber p v n := by
  intro h
  obtain ⟨c, hc, hdecl⟩ := h.declared
  exact not_declared_of_field (hp.once v) hv hc hdecl

theorem not_declaresNumber_of_ret (hp : ProgOk p) (hd : d ∈ p.calls) (hret : d.ret = some v) :
    ¬ DeclaresNumber p v n := by
  rintro ⟨c, hc, a, ha, hn⟩
  exact local_ne_ret (hp.once v) hc ha (Prepare.mem_vars_of_number hn) hd hret

theorem not_declaresNumber_of_array (hp : ProgOk p) (hd : d ∈ p.calls) (ha : a ∈ d.args)
    (hprep : a.prep = .chars v m) : ¬ DeclaresNumber p v n := by
  rintro ⟨c, hc, b, hb, hn⟩
  have hv : v ∈ a.prep.vars := by simp [hprep, Prepare.vars]
  obtain rfl := local_eq (hp.once v) hd ha hv hc hb (Prepare.mem_vars_of_number hn)
  simp [hprep, Prepare.number] at hn

theorem size_var (hp : ProgOk p) (hcall : call ∈ p.calls) (ha : a ∈ call.args)
    (hkind : a.argType.isSize) (hname : a.name = .var v) :
    (∃ n, DeclaresNumber p v n) ∨ ∃ d ∈ p.calls, d.ret = some v ∧ d.helper.ret = .integer := by
  cases ((hp.calls call hcall).args a ha).sizeOrigin hkind with
  | zero hzero _ => exact absurd (hname.symm.trans hzero) (by simp)
  | number w n hw hprep _ _ =>
    obtain rfl : v = w := var.inj (hname.symm.trans hw)
    exact .inl ⟨n, call, hcall, a, ha, hprep⟩
  | result w d hw _ hd hret hinteger =>
    obtain rfl : v = w := var.inj (hname.symm.trans hw)
    exact .inr ⟨d, hd, hret, hinteger⟩

theorem freeValue_stop (h : p.ctxVars.lookup "data_end" = some v) :
    freeValue p call slack stop v = stop := if_pos h

theorem freeValue_meta (hp : ProgOk p) (h : p.ctxVars.lookup "data_meta" = some v) :
    freeValue p call slack stop v = packetBase := by
  have hend : p.ctxVars.lookup "data_end" ≠ some v :=
    fun hend => absurd (field_eq (hp.once v) hend h) (by decide)
  rw [freeValue, if_neg hend, if_pos h]

theorem freeValue_other (hend : p.ctxVars.lookup "data_end" ≠ some v)
    (hmeta : p.ctxVars.lookup "data_meta" ≠ some v)
    (hsize : ∀ a ∈ call.args, a.argType.isSize → a.name ≠ .var v) :
    freeValue p call slack stop v = packetBase + call.largest + slack := by
  have hnone : call.args.find? (fun a => a.argType.isSize && decide (a.name = .var v)) = none := by
    rw [find?_eq_none]
    intro a ha h
    simp only [Bool.and_eq_true, decide_eq_true_eq] at h
    exact hsize a ha h.1 h.2
  rw [freeValue, if_neg hend, if_neg hmeta, hnone]

theorem UsesOnce.eq {results : List ℕ} {args : List BpfArg} (h : UsesOnce results args)
    (ha : a ∈ args) (hb : b ∈ args) (hv : v ∈ results) (hav : a.name.var? = some v)
    (hbv : b.name.var? = some v) : a = b := by
  by_contra hne
  have : Std.Symm fun a b : BpfArg => ∀ v ∈ results, a.name.var? = some v → b.name.var? ≠ some v :=
    ⟨fun a b hab v hv hb ha => hab v hv ha hb⟩
  exact List.Pairwise.forall h ha hb hne v hv hav hbv

theorem freeValue_size (hp : ProgOk p) (hcall : call ∈ p.calls) (ha : a ∈ call.args)
    (hkind : a.argType.isSize) (hname : a.name = .var v) (hd : d ∈ p.calls)
    (hret : d.ret = some v) : freeValue p call slack stop v = a.umax.toNat - slack := by
  have hfield : ∀ f, p.ctxVars.lookup f ≠ some v := fun f hf =>
    not_declared_of_field (hp.once v) (mem_map_of_mem (mem_of_lookup hf)) hd
      (mem_declares_of_ret hret)
  rw [freeValue, if_neg (hfield _), if_neg (hfield _)]
  cases hfind : call.args.find? fun a => a.argType.isSize && decide (a.name = .var v) with
  | none =>
    have := find?_eq_none.mp hfind a ha
    simp [hkind, hname] at this
  | some b =>
    have hb := mem_of_find?_eq_some hfind
    have hsome := find?_some hfind
    simp only [Bool.and_eq_true, decide_eq_true_eq] at hsome
    have hba : b = a := (hp.calls call hcall).once.eq hb ha (mem_rets.mpr ⟨d, hd, hret⟩)
      (by simp [hsome.2, var?]) (by simp [hname, var?])
    rw [hba]

end Values

/-! ### Two sets of values -/

/-- The values of the variables that the guard of `call` and its requirements depend on. -/
structure Values (p : BpfProg) (call : BpfCall) (slack stop : ℕ) (ρ : Valuation) : Prop where
  admits : Admits p ρ
  last : ∀ v, p.ctxVars.lookup "data_end" = some v → (ρ v).toInt = stop
  first : ∀ v, p.ctxVars.lookup "data_meta" = some v → (ρ v).toInt = packetBase
  field : ∀ f v, f ≠ "data_end" → f ≠ "data_meta" → p.ctxVars.lookup f = some v →
    (ρ v).toInt = (packetBase + call.largest + slack : ℕ)
  size : ∀ a ∈ call.args, a.argType.isSize → ∀ v, a.name = .var v → ∀ d ∈ p.calls,
    d.ret = some v → (ρ v).toInt = (a.umax.toNat - slack : ℕ)
  nonNull : ∀ a ∈ call.args, a.argType.isSize = false → a.prep.number = none → a.name ≠ .zero →
    a.name.NonNull ρ

theorem ofNat_ne_zero {n : ℕ} (hpos : 0 < n) (hlt : n < 2 ^ 63) : BitVec.ofNat 64 n ≠ 0 := by
  intro h
  have hnat := congrArg BitVec.toNat h
  simp at hnat
  omega

section Build

variable {p : BpfProg} {call : BpfCall} {slack stop : ℕ}

/-- The variable is set to no number and used for no size. -/
structure Unsized (p : BpfProg) (call : BpfCall) (v : ℕ) : Prop where
  number : ∀ n, ¬ DeclaresNumber p v n
  size : ∀ a ∈ call.args, a.argType.isSize → a.name ≠ .var v

section

variable (hp : ProgOk p)

include hp

section

variable (hcall : call ∈ p.calls)

include hcall

variable {v : ℕ}

theorem Unsized.of_noInteger (hnumber : ∀ n, ¬ DeclaresNumber p v n)
    (hret : ∀ d ∈ p.calls, d.ret = some v → d.helper.ret ≠ .integer) : Unsized p call v := by
  refine ⟨hnumber, ?_⟩
  intro a ha hkind hname
  rcases size_var hp hcall ha hkind hname with ⟨n, hn⟩ | ⟨d, hd, hdv, hinteger⟩
  · exact hnumber n hn
  · exact hret d hd hdv hinteger

theorem Unsized.of_field {f : String} (hv : p.ctxVars.lookup f = some v) : Unsized p call v := by
  have hmem : v ∈ p.ctxVars.map Prod.snd := mem_map_of_mem (mem_of_lookup hv)
  refine .of_noInteger hp hcall (fun n => not_declaresNumber_of_field hp hmem) ?_
  intro d hd hret
  exact absurd (mem_declares_of_ret hret) (not_declared_of_field (hp.once v) hmem hd)

theorem Unsized.of_scratch (hv : v ∈ p.scratchMapVars) : Unsized p call v := by
  refine .of_noInteger hp hcall (fun n => not_declaresNumber_of_scratch hp hv) ?_
  intro d hd hret
  exact absurd (mem_declares_of_ret hret) (not_declared_of_scratch (hp.once v) hv hd)

variable {c : BpfCall}

theorem Unsized.of_array {a : BpfArg} {n : ℕ} (hc : c ∈ p.calls) (ha : a ∈ c.args)
    (hprep : a.prep = .chars v n) : Unsized p call v := by
  refine .of_noInteger hp hcall (fun n => not_declaresNumber_of_array hp hc ha hprep) ?_
  intro d hd hret
  exact absurd hret (local_ne_ret (hp.once v) hc ha (by simp [hprep, Prepare.vars]) hd)

theorem Unsized.of_result (hc : c ∈ p.calls) (hret : c.ret = some v)
    (hinteger : c.helper.ret ≠ .integer) : Unsized p call v := by
  refine .of_noInteger hp hcall (fun n => not_declaresNumber_of_ret hp hc hret) ?_
  intro d hd hret'
  rwa [call_eq (hp.once v) hd hc (mem_declares_of_ret hret') (mem_declares_of_ret hret)]

theorem Unsized.of_used {a : BpfArg} (ha : a ∈ call.args) (hkind : a.argType.isSize = false)
    (hv : a.name.var? = some v) (hc : c ∈ p.calls) (hret : c.ret = some v) : Unsized p call v := by
  refine ⟨fun n => not_declaresNumber_of_ret hp hc hret, ?_⟩
  intro b hb hsize hname
  have hab := (hp.calls call hcall).once.eq ha hb (mem_rets.mpr ⟨c, hc, hret⟩) hv
    (by simp [hname, var?])
  rw [hab, hsize] at hkind
  cases hkind

end

end

theorem Unsized.ne_zero {v : ℕ} (h : Unsized p call v) (hp : ProgOk p)
    (hbound : packetBase + call.largest + slack < 2 ^ 63) (hpos : 0 < stop) (hlt : stop < 2 ^ 32) :
    (valuation p call slack stop v).bits ≠ 0 := by
  have hvalue : 0 < freeValue p call slack stop v ∧ freeValue p call slack stop v < 2 ^ 63 := by
    by_cases hend : p.ctxVars.lookup "data_end" = some v
    · rw [freeValue_stop hend]
      omega
    by_cases hmeta : p.ctxVars.lookup "data_meta" = some v
    · rw [freeValue_meta hp hmeta]
      decide
    rw [freeValue_other hend hmeta h.size]
    simp only [packetBase] at *
    omega
  rw [valuation_free h.number]
  exact ofNat_ne_zero hvalue.1 hvalue.2

theorem valuation_toInt {v n : ℕ} (hnumber : ∀ n, ¬ DeclaresNumber p v n)
    (hvalue : freeValue p call slack stop v = n) (hn : n < 2 ^ 63) :
    (valuation p call slack stop v).toInt = n := by
  rw [valuation_free hnumber, hvalue]
  exact toInt_ofNat hn false

theorem values_valuation (slack stop : ℕ) (hp : ProgOk p) (hcall : call ∈ p.calls)
    (hslack : slack ≤ 1) (hpos : 0 < stop) (hlt : stop < 2 ^ 32) :
    Values p call slack stop (valuation p call slack stop) := by
  have hok := (hp.calls call hcall).args
  have hbound : packetBase + call.largest + slack < 2 ^ 63 := by
    have hlargest := largest_le fun a ha => (hok a ha).shape
    simp only [packetBase, maxAccess] at *
    omega
  have hne : ∀ v, Unsized p call v → (valuation p call slack stop v).bits ≠ 0 :=
    fun v hv => hv.ne_zero hp hbound hpos hlt
  refine ⟨⟨?_, ?_, ?_, ?_, ?_, ?_⟩, ?_, ?_, ?_, ?_, ?_⟩
  · intro c hc a ha v n hn
    exact valuation_number hp ⟨c, hc, a, ha, hn⟩
  · intro c hc a ha v n hprep
    exact hne v (.of_array hp hcall hc ha hprep)
  · intro v hv
    exact hne v (.of_scratch hp hcall hv)
  · intro f v hv
    rw [valuation_free (Unsized.of_field hp hcall hv).number]
  · intro c hc v hret
    rw [valuation_free fun n => not_declaresNumber_of_ret hp hc hret]
  · intro c hc v hret hnever _
    refine hne v (.of_result hp hcall hc hret ?_)
    intro hinteger
    rw [hinteger] at hnever
    cases hnever
  · intro v hv
    exact valuation_toInt (Unsized.of_field hp hcall hv).number (freeValue_stop hv) (by omega)
  · intro v hv
    exact valuation_toInt (Unsized.of_field hp hcall hv).number (freeValue_meta hp hv) (by decide)
  · intro f v hend hmeta hv
    have hunsized := Unsized.of_field hp hcall hv
    refine valuation_toInt hunsized.number (freeValue_other ?_ ?_ hunsized.size) hbound
    · exact fun h => hend (field_eq (hp.once v) hv h)
    · exact fun h => hmeta (field_eq (hp.once v) hv h)
  · intro a ha hkind v hname d hd hret
    obtain ⟨-, -, -, ⟨n, hn, humax⟩, -⟩ := (hok a ha).shape.size hkind
    refine valuation_toInt (fun n => not_declaresNumber_of_ret hp hd hret)
      (freeValue_size hp hcall ha hkind hname hd hret) ?_
    simp only [maxAccess] at hn
    omega
  · intro a ha hkind hnumber hzero
    cases (hok a ha).pointerOrigin hkind with
    | zero hname _ _ => exact absurd hname hzero
    | number v n hprep _ _ => exact absurd (hprep.symm.trans hnumber) (by simp)
    | address hname _ _ => exact hname _
    | array v n hname hprep _ =>
      rw [hname]
      exact hne v (.of_array hp hcall hcall ha hprep)
    | scratch v hname _ hv _ =>
      rw [hname]
      exact hne v (.of_scratch hp hcall hv)
    | field f v hname _ hv _ =>
      rw [hname]
      exact hne v (.of_field hp hcall hv)
    | result v d hname _ hd hret _ _ =>
      rw [NonNull_iff hname]
      exact hne v (.of_used hp hcall ha hkind hname hd hret)

end Build

section Comparison

variable {p : BpfProg} {call : BpfCall} {a : BpfArg} {slack stop : ℕ} {ρ : Valuation} {f : String}

theorem FieldsUnsigned.toInt_eq (h : FieldsUnsigned p ρ) {v : ℕ}
    (hv : p.ctxVars.lookup f = some v) : (ρ v).toInt = (ρ v).bits.toNat := by
  simp [CVal.toInt, h f v hv]

theorem endsBefore_iff {start last : String} {s e n : ℕ} (hs : p.ctxVars.lookup start = some s)
    (he : p.ctxVars.lookup last = some e) (hsum : (ρ s).bits.toNat + n < 2 ^ 64) :
    p.EndsBefore ρ start n last ↔ (ρ s).bits.toNat + n < (ρ e).bits.toNat := by
  have hn : n % 2 ^ 64 = n := Nat.mod_eq_of_lt (by omega)
  simp only [BpfProg.EndsBefore, hs, he, BitVec.toNat_add, BitVec.toNat_ofNat, hn,
    Nat.mod_eq_of_lt hsum]

theorem ArgShape.umax_nonneg (h : ArgShape p a) (hkind : a.argType.isSize) : 0 ≤ a.umax := by
  obtain ⟨-, -, -, ⟨n, -, humax⟩, -⟩ := h.size hkind
  omega

theorem Values.toNat_eq (h : Values p call slack stop ρ) {v n : ℕ}
    (hv : p.ctxVars.lookup f = some v) (hn : (ρ v).toInt = n) : (ρ v).bits.toNat = n := by
  rw [h.admits.field.toInt_eq hv] at hn
  exact Int.ofNat.inj hn

theorem Values.start_le (h : Values p call slack stop ρ) {v : ℕ} (hf : f ≠ "data_end")
    (hv : p.ctxVars.lookup f = some v) :
    (packetBase : ℤ) ≤ (ρ v).toInt ∧ (ρ v).toInt ≤ (packetBase + call.largest + slack : ℕ) := by
  by_cases hmeta : f = "data_meta"
  · subst hmeta
    rw [h.first v hv]
    omega
  · rw [h.field f v hf hmeta hv]
    omega

theorem Values.sum_lt (h : Values p call slack stop ρ) (hshape : ∀ a ∈ call.args, ArgShape p a)
    (hslack : slack ≤ 1) {v n : ℕ} (hf : f ≠ "data_end")
    (hv : p.ctxVars.lookup f = some v) (hn : n ≤ maxAccess) : (ρ v).bits.toNat + n < 2 ^ 64 := by
  have hle := (h.start_le hf hv).2
  rw [h.admits.field.toInt_eq hv] at hle
  have hlargest := largest_le hshape
  simp only [packetBase, maxAccess] at *
  omega

theorem BpfArg.Tested.facts (htest : a.Tested) {before : List BpfCall} (hok : ArgOk p before a) :
    a.argType.isSize = false ∧ a.prep.number = none ∧ a.name ≠ .zero := by
  have hkind : a.argType.isSize = false := by
    cases hkind : a.argType.isSize with
    | false => rfl
    | true => exact absurd ((hok.shape.size hkind).1.symm.trans htest.1) (by decide)
  refine ⟨hkind, ?_⟩
  have hnull := htest.2
  cases hok.pointerOrigin hkind with
  | field f v hname hprep _ _ => simp [hname, hprep, Prepare.number]
  | result v d hname hprep _ _ _ _ =>
    refine ⟨by simp [hprep, Prepare.number], ?_⟩
    intro hzero
    simp [hzero, var?] at hname
  | _ =>
    rename_i h
    exact absurd (h.symm.trans hnull) (by decide)

/-- The tests of packet accesses, in the sizes of the ranges. -/
theorem Values.metadata_test (h : Values p call slack stop ρ)
    (hshape : ∀ a ∈ call.args, ArgShape p a) (hslack : slack ≤ 1) (ha : a ∈ call.args)
    (hmeta : a.isPktMetaAccess) : a.Test p ρ ↔ a.accessSize < call.largest + slack := by
  obtain ⟨s, e, -, hs, he⟩ := (hshape a ha).metadata hmeta
  rw [BpfArg.Test, if_pos hmeta,
    endsBefore_iff hs he (h.sum_lt hshape hslack (by decide) hs (hshape a ha).access),
    h.toNat_eq hs (h.first s hs), h.toNat_eq he (h.field _ e (by decide) (by decide) he)]
  omega

variable {d : ℕ}

theorem Values.packet_test (h : Values p call slack stop ρ) (hshape : ∀ a ∈ call.args, ArgShape p a)
    (hslack : slack ≤ 1) (ha : a ∈ call.args) (hmeta : ¬ a.isPktMetaAccess)
    (hpacket : a.isPktAccess) (hd : p.ctxVars.lookup "data" = some d) :
    a.Test p ρ ↔ packetBase + call.largest + slack + a.accessSize < stop := by
  obtain ⟨f, s, e, -, -, -, he⟩ := (hshape a ha).packet hpacket
  rw [BpfArg.Test, if_neg hmeta, if_pos hpacket,
    endsBefore_iff hd he (h.sum_lt hshape hslack (by decide) hd (hshape a ha).access),
    h.toNat_eq hd (h.field _ d (by decide) (by decide) hd), h.toNat_eq he (h.last e he)]

theorem Admits.update_zero {v : ℕ} (h : Admits p ρ)
    (hlocal : ∀ c ∈ p.calls, ∀ a ∈ c.args, v ∉ a.prep.vars) (hscratch : v ∉ p.scratchMapVars)
    (hproduced : ∀ c ∈ p.calls, c.ret = some v → c.helper.ret.neverNull →
      getArgConstraints p c ≠ []) : Admits p (update ρ v ⟨0, false⟩) := by
  have hother : ∀ w, w ≠ v → update ρ v ⟨0, false⟩ w = ρ w :=
    fun w hw => update_of_ne hw _ _
  refine ⟨?_, ?_, ?_, ?_, ?_, ?_⟩
  · intro c hc a ha w n hn
    have hw : w ≠ v := fun hw => hlocal c hc a ha (hw ▸ Prepare.mem_vars_of_number hn)
    rw [hother w hw]
    exact h.number c hc a ha w n hn
  · intro c hc a ha w n hprep
    have hw : w ≠ v := fun hw => hlocal c hc a ha (by simp [hprep, Prepare.vars, hw])
    rw [hother w hw]
    exact h.array c hc a ha w n hprep
  · intro w hw
    rw [hother w fun hwv => hscratch (hwv ▸ hw)]
    exact h.scratch w hw
  · intro f w hw
    by_cases hwv : w = v
    · rw [hwv, update_self]
    · rw [hother w hwv]
      exact h.field f w hw
  · intro c hc w hret
    by_cases hwv : w = v
    · rw [hwv, update_self]
    · rw [hother w hwv]
      exact h.result c hc w hret
  · intro c hc w hret hnever hguard
    by_cases hwv : w = v
    · exact absurd hguard (hproduced c hc (hwv ▸ hret) hnever)
    · rw [hother w hwv]
      exact h.produced c hc w hret hnever hguard

theorem test_of_tested (hshape : ArgShape p a)
    (hmeta : a.isPktMetaAccess = false) (hpacket : a.isPktAccess = false)
    (hsize : a.argType.isSize → a.argType ≠ .constSize ∧ a.name = .zero ∧ a.umax ≠ 0)
    (htested : a.Tested → a.name.NonNull ρ) : a.Test p ρ := by
  simp only [BpfArg.Test, hmeta, hpacket, Bool.false_eq_true, if_false]
  split
  · next htest =>
    simp only [Bool.and_eq_true, Bool.not_eq_true'] at htest
    exact htested htest
  · refine ⟨?_, ?_⟩
    · intro hkind
      exact (hsize (by simp [hkind, isSize])).1 hkind
    · intro hkind
      have humax := hshape.umax_nonneg hkind
      obtain ⟨-, hname, hne⟩ := hsize hkind
      rw [hname, number]
      omega

structure Plain (call : BpfCall) : Prop where
  noMetadata : ∀ a ∈ call.args, a.isPktMetaAccess = false
  noPacket : ∀ a ∈ call.args, a.isPktAccess = false
  size : ∀ a ∈ call.args, a.argType.isSize →
    a.argType ≠ .constSize ∧ a.name = .zero ∧ a.umax ≠ 0

theorem Plain.meets (h : Plain call) (hshape : ∀ a ∈ call.args, ArgShape p a)
    (hneeded : ∀ a ∈ call.args, a.Needed → a.name.NonNull ρ) : ∀ a ∈ call.args, a.Meets p ρ := by
  intro a ha
  refine ⟨hneeded a ha, ?_, ?_, ?_, ?_⟩
  · exact fun hmeta => absurd (hmeta.symm.trans (h.noMetadata a ha)) (by decide)
  · exact fun hpacket => absurd (hpacket.symm.trans (h.noPacket a ha)) (by decide)
  · exact fun hkind => absurd hkind (h.size a ha (by simp [hkind, isSize])).1
  · intro hkind
    have hisSize : a.argType.isSize := by simp [hkind, isSize]
    have humax := (hshape a ha).umax_nonneg hisSize
    obtain ⟨-, hname, -⟩ := h.size a ha hisSize
    rw [hname, number]
    omega

theorem lt_largest_of_test (h : Values p call 0 (packetBase + 2 * call.largest) ρ)
    (hshape : ∀ a ∈ call.args, ArgShape p a) (ha : a ∈ call.args) (htest : a.Test p ρ)
    (hdata : p.ctxVars.lookup "data" = some d)
    (hrange : a.isPktMetaAccess ∨ a.isPktAccess) : a.accessSize < call.largest := by
  by_cases hmeta : a.isPktMetaAccess
  · exact (h.metadata_test hshape (Nat.zero_le 1) ha hmeta).mp htest
  · have := (h.packet_test hshape (Nat.zero_le 1) ha hmeta (hrange.resolve_left hmeta) hdata).mp htest
    omega

theorem Faithful.tests (hfaithful : Faithful p call) (hadmits : Admits p ρ)
    (hshape : ∀ a ∈ call.args, ArgShape p a) :
    (∀ a ∈ call.args, a.Test p ρ) ↔ ∀ a ∈ call.args, a.Meets p ρ :=
  (guardHolds_iff hshape hadmits.field).symm.trans (hfaithful ρ hadmits)

theorem nonNull_update {name : ArgName} {v : ℕ} (h : name.NonNull ρ)
    (hv : name.var? ≠ some v) : name.NonNull (update ρ v ⟨0, false⟩) := by
  cases hw : name.var? with
  | none => cases name <;> simp_all [ArgName.NonNull, var?]
  | some w =>
    rw [NonNull_iff hw] at h ⊢
    rwa [update_of_ne (by rintro rfl; exact hv hw)]

variable (hp : ProgOk p)

include hp

theorem Admits.update_used {v : ℕ} (h : Admits p ρ)
    (hvar : (∃ f, p.ctxVars.lookup f = some v) ∨ v ∈ rets p.calls)
    (hproduced : ∀ c ∈ p.calls, c.ret = some v → c.helper.ret.neverNull →
      getArgConstraints p c ≠ []) : Admits p (update ρ v ⟨0, false⟩) := by
  rcases hvar with ⟨f, hf⟩ | hret
  · have hmem : v ∈ p.ctxVars.map Prod.snd := mem_map_of_mem (mem_of_lookup hf)
    refine h.update_zero ?_ (not_scratch_of_field (hp.once v) hmem) hproduced
    exact fun c hc b hb hlocal =>
      not_declared_of_field (hp.once v) hmem hc (mem_declares_of_prep hb hlocal)
  · obtain ⟨d, hd, hret⟩ := mem_rets.mp hret
    refine h.update_zero ?_ ?_ hproduced
    · exact fun c hc b hb hlocal => local_ne_ret (hp.once v) hc hb hlocal hd hret
    · exact fun hscratch => not_declared_of_scratch (hp.once v) hscratch hd (mem_declares_of_ret hret)

theorem BpfArg.Tested.var (htest : a.Tested) (hok : ArgOk p p.calls a) : ∃ v, a.name.var? = some v ∧
      ((∃ f, p.ctxVars.lookup f = some v) ∨ v ∈ rets p.calls) ∧
      ∀ c ∈ p.calls, c.ret = some v → c.helper.ret.neverNull → getArgConstraints p c ≠ [] := by
  have hnull := htest.2
  cases hok.pointerOrigin (htest.facts hok).1 with
  | field f v hname _ hv _ =>
    refine ⟨v, by simp [hname, var?], .inl ⟨f, hv⟩, ?_⟩
    intro c hc hret
    exact absurd (mem_declares_of_ret hret) (not_declared_of_field (hp.once v)
      (mem_map_of_mem (mem_of_lookup hv)) hc)
  | result v d hname _ hd hret hflag _ =>
    refine ⟨v, hname, .inr (mem_rets.mpr ⟨d, hd, hret⟩), ?_⟩
    intro c hc hcv hnever
    obtain rfl := call_eq (hp.once v) hc hd (mem_declares_of_ret hcv) (mem_declares_of_ret hret)
    rw [hnull, htest.1] at hflag
    revert hnever hflag
    cases c.helper.ret <;> simp [RetType.neverNull, RetType.isNotNull]
  | _ =>
    rename_i h
    exact absurd (h.symm.trans hnull) (by decide)

variable (hcall : call ∈ p.calls)

include hcall

theorem ProgOk.argShape : ∀ a ∈ call.args, ArgShape p a :=
  fun a ha => ((hp.calls call hcall).args a ha).shape

theorem Values.tested (h : Values p call slack stop ρ) (ha : a ∈ call.args) (htest : a.Tested) :
    a.name.NonNull ρ := by
  obtain ⟨hkind, hnumber, hzero⟩ := htest.facts ((hp.calls call hcall).args a ha)
  exact h.nonNull a ha hkind hnumber hzero

/-- With room in every range and below every bound, only dead tests fail. -/
theorem Values.tests (h : Values p call 1 (packetBase + 2 * call.largest + 2) ρ)
    (hdead : ∀ a ∈ call.args, ¬ a.Dead) : ∀ a ∈ call.args, a.Test p ρ := by
  intro a ha
  have hok := (hp.calls call hcall).args
  have hshape := hp.argShape hcall
  have hle := le_largest ha
  by_cases hmeta : a.isPktMetaAccess
  · exact (h.metadata_test hshape le_rfl ha hmeta).mpr (by omega)
  by_cases hpacket : a.isPktAccess
  · cases hd : p.ctxVars.lookup "data" with
    | none =>
      obtain ⟨f, s, e, -, -, -, he⟩ := (hshape a ha).packet hpacket
      have hev := h.toNat_eq he (h.last e he)
      simp only [BpfArg.Test, if_neg hmeta, if_pos hpacket, BpfProg.EndsBefore, hd, he]
      omega
    | some d => exact (h.packet_test hshape le_rfl ha hmeta hpacket hd).mpr (by omega)
  rw [BpfArg.Test, if_neg hmeta, if_neg hpacket]
  split
  · next htest =>
    simp only [Bool.and_eq_true, Bool.not_eq_true'] at htest
    exact h.tested hp hcall ha htest
  · refine ⟨fun hkind => hdead a ha (.inl hkind), fun hkind => ?_⟩
    have halive : a.umax ≠ 0 ∧ a.prep = .none := by
      have hno := hdead a ha
      simp only [isSize, Bool.or_eq_true, decide_eq_true_eq] at hkind
      simp only [BpfArg.Dead, not_or, not_and, ne_eq, not_not] at hno
      exact hno.2 (hkind.resolve_left hno.1)
    have humax := (hshape a ha).umax_nonneg hkind
    cases (hok a ha).sizeOrigin hkind with
    | zero hname _ =>
      rw [hname, number]
      omega
    | number v n _ hprep _ _ => simp [halive.2, Prepare.number] at hprep
    | result v d hname _ hd hret _ =>
      rw [hname, number, h.size a ha hkind v hname d hd hret]
      omega

theorem Values.size_eq (h : Values p call 0 stop ρ) (ha : a ∈ call.args) (hkind : a.argType.isSize)
    (hzero : a.name ≠ .zero) (hne : a.umax ≠ 0) : a.name.number ρ = a.umax := by
  have hok := (hp.calls call hcall).args a ha
  cases hok.sizeOrigin hkind with
  | zero hname _ => exact absurd hname hzero
  | number v n hname hprep hn humax =>
    rw [h.admits.number_eq hcall ha hname hprep hn, humax hne]
  | result v d hname _ hd hret _ =>
    have humax := hok.shape.umax_nonneg hkind
    rw [hname, number, h.size a ha hkind v hname d hd hret]
    omega

/-- With the values at the bounds, every requirement that can be met is met. -/
theorem Values.meets (h : Values p call 0 (packetBase + 2 * call.largest) ρ)
    (hmeetable : ∀ a ∈ call.args, ¬ a.Unmeetable) : ∀ a ∈ call.args, a.Meets p ρ := by
  intro a ha
  have hok := (hp.calls call hcall).args
  have hle := le_largest ha
  have hno := hmeetable a ha
  simp only [BpfArg.Unmeetable, not_or, not_and] at hno
  obtain ⟨hsize, hOrZero, hpointer⟩ := hno
  refine ⟨?_, ?_, ?_, ?_, ?_⟩
  · intro hneeded
    have hkind := isSize_of_ptr hneeded.1
    have hnumber : a.prep.number = none := by
      cases (hok a ha).pointerOrigin hkind with
      | number _ _ _ hptr _ => exact absurd (hneeded.1.symm.trans hptr) (by decide)
      | _ => simp_all [Prepare.number]
    exact h.nonNull a ha hkind hnumber fun hname => hpointer hneeded hname
  · intro hmeta
    obtain ⟨s, e, hname, hs, he⟩ := (hok a ha).shape.metadata hmeta
    rw [hname, number, BpfProg.fieldValue_of_lookup he, h.first s hs,
      h.field _ e (by decide) (by decide) he]
    omega
  · intro hpacket
    obtain ⟨f, s, e, hf, hname, hs, he⟩ := (hok a ha).shape.packet hpacket
    have hstart := (h.start_le hf hs).2
    rw [hname, number, BpfProg.fieldValue_of_lookup he, h.last e he]
    omega
  · intro hkind
    have hisSize : a.argType.isSize := by simp [hkind, isSize]
    have humax := (hok a ha).shape.umax_nonneg hisSize
    rw [h.size_eq hp hcall ha hisSize (hsize hkind).2 (hsize hkind).1]
    have := (hsize hkind).1
    omega
  · intro hkind
    have hisSize : a.argType.isSize := by simp [hkind, isSize]
    have humax := (hok a ha).shape.umax_nonneg hisSize
    by_cases hzero : a.name = .zero
    · rw [hzero, number]
      omega
    by_cases hne : a.umax = 0
    · have hnumber : a.name.number ρ = 0 := by
        cases (hok a ha).sizeOrigin hisSize with
        | zero hname _ => exact absurd hname hzero
        | number v n hname hprep hn _ =>
          have hn0 : n = 0 := by
            by_contra hn0
            exact hOrZero hkind hne ⟨v, n, hprep, hn0⟩
          rw [h.admits.number_eq hcall ha hname hprep hn, hn0]
          rfl
        | result v d hname _ hd hret _ =>
          rw [hname, number, h.size a ha hisSize v hname d hd hret, hne]
          rfl
      omega
    · rw [h.size_eq hp hcall ha hisSize hzero hne]
      omega

theorem Values.size_zero_of_test (h : Values p call 0 stop ρ) (ha : a ∈ call.args)
    (hkind : a.argType.isSize)
    (htest : a.Test p ρ) : a.argType ≠ .constSize ∧ a.name = .zero ∧ a.umax ≠ 0 := by
  have hok := (hp.calls call hcall).args a ha
  obtain ⟨hne, hlt⟩ := (BpfArg.test_of_size hok.shape hkind).mp htest
  have hnonneg := h.admits.size_nonneg hcall ha (hok.sizeOrigin hkind)
  have humax : a.umax ≠ 0 := by omega
  refine ⟨hne, ?_, humax⟩
  by_contra hzero
  rw [h.size_eq hp hcall ha hkind hzero humax] at hlt
  omega

theorem ProgOk.exists_tight : ∃ ρ, Values p call 0 (packetBase + 2 * call.largest) ρ := by
  have hlargest := largest_le (hp.argShape hcall)
  refine ⟨_, values_valuation 0 _ hp hcall (Nat.zero_le 1) ?_ ?_⟩
  all_goals
    simp only [packetBase, maxAccess] at *
    omega

/-- A faithful guard has no room for packet accesses and sizes. -/
theorem Faithful.plain (hfaithful : Faithful p call) (hmeetable : ∀ a ∈ call.args, ¬ a.Unmeetable) :
    Plain call := by
  have hshape := hp.argShape hcall
  have hlargest := largest_le hshape
  obtain ⟨ρ, htight⟩ := hp.exists_tight hcall
  have htests := (hfaithful.tests htight.admits hshape).mpr (htight.meets hp hcall hmeetable)
  have hsize : ∀ a ∈ call.args, a.argType.isSize →
      a.argType ≠ .constSize ∧ a.name = .zero ∧ a.umax ≠ 0 :=
    fun a ha hkind => htight.size_zero_of_test hp hcall ha hkind (htests a ha)
  -- some argument has the largest range, and with a variable for the packet its test fails
  have hdata : ∀ a ∈ call.args, a.isPktMetaAccess ∨ a.isPktAccess →
      p.ctxVars.lookup "data" = none := by
    intro a ha hrange
    cases hdata : p.ctxVars.lookup "data" with
    | none => rfl
    | some d =>
      have hlt := lt_largest_of_test htight hshape ha (htests a ha) hdata hrange
      obtain ⟨b, hb, hbl⟩ := exists_largest ha
      have hlt' := lt_largest_of_test htight hshape hb (htests b hb) hdata
        ((hshape b hb).range (by omega))
      omega
  have hmeta : ∀ a ∈ call.args, a.isPktMetaAccess = false := by
    intro a ha
    cases hmeta : a.isPktMetaAccess with
    | false => rfl
    | true =>
      obtain ⟨s, e, -, -, he⟩ := (hshape a ha).metadata hmeta
      exact absurd (he.symm.trans (hdata a ha (.inl hmeta))) (by simp)
  refine ⟨hmeta, ?_, hsize⟩
  intro a ha
  cases hpacket : a.isPktAccess with
  | false => rfl
  | true =>
    -- without that variable the test compares the size alone with the end of the packet
    have hnone := hdata a ha (.inr hpacket)
    have hshort := values_valuation 0 (call.largest + 1) hp hcall (Nat.zero_le 1) (by omega)
      (by simp only [maxAccess] at *; omega)
    have htests' : ∀ b ∈ call.args, b.Test p (valuation p call 0 (call.largest + 1)) := by
      intro b hb
      have hbl := le_largest hb
      cases hbp : b.isPktAccess with
      | false =>
        exact test_of_tested (hshape b hb) (hmeta b hb) hbp (hsize b hb)
          fun htest => hshort.tested hp hcall hb htest
      | true =>
        obtain ⟨f, s, e, -, -, -, he⟩ := (hshape b hb).packet hbp
        have hev := hshort.toNat_eq he (hshort.last e he)
        simp only [BpfArg.Test, hmeta b hb, hbp, Bool.false_eq_true, if_false, if_true,
          BpfProg.EndsBefore, hnone, he]
        omega
    obtain ⟨b, hb, hbp, hbl⟩ : ∃ b ∈ call.args, b.isPktAccess ∧
        b.accessSize = call.largest := by
      by_cases hzero : call.largest = 0
      · have := le_largest ha
        exact ⟨a, ha, hpacket, by omega⟩
      · obtain ⟨b, hb, hbl⟩ := exists_largest ha
        have hrange := (hshape b hb).range (by omega)
        rw [hmeta b hb] at hrange
        exact ⟨b, hb, hrange.resolve_left (by simp), hbl⟩
    have hmeets := ((hfaithful.tests hshort.admits hshape).mp htests' b hb).packet hbp
    obtain ⟨f, s, e, hf, hname, hs, he⟩ := (hshape b hb).packet hbp
    have hstart := (hshort.start_le hf hs).1
    rw [hname, number, BpfProg.fieldValue_of_lookup he, hshort.last e he] at hmeets
    simp only [packetBase] at hstart
    omega

theorem Faithful.exact (hfaithful : Faithful p call) (hmeetable : ∀ a ∈ call.args, ¬ a.Unmeetable) :
    ∀ a ∈ call.args, a.Exact p call := by
  have hok := (hp.calls call hcall).args
  have hshape := hp.argShape hcall
  have hplain := hfaithful.plain hp hcall hmeetable
  obtain ⟨ρ, hvalues⟩ := hp.exists_tight hcall
  intro a ha
  refine ⟨hplain.noMetadata a ha, hplain.noPacket a ha, ?_, ?_, ?_, ?_, ?_⟩
  · exact fun hkind => (hplain.size a ha (by simp [hkind, isSize])).1 hkind
  · exact fun hkind => (hplain.size a ha (by simp [hkind, isSize])).2
  · exact fun hneeded hzero => hmeetable a ha (.inr (.inr ⟨hneeded, hzero⟩))
  · -- were the producer guarded, its result could be zero, which no test would notice
    intro hneeded hnull d hd v hret hv
    by_contra hguard
    have hunique : ∀ c ∈ p.calls, c.ret = some v → c = d := fun c hc hcv =>
      call_eq (hp.once v) hc hd (mem_declares_of_ret hcv) (mem_declares_of_ret hret)
    have hadmits := hvalues.admits.update_used hp (.inr (mem_rets.mpr ⟨d, hd, hret⟩))
      fun c hc hcv _ => by rwa [hunique c hc hcv]
    have htests : ∀ b ∈ call.args, b.Test p (update ρ v ⟨0, false⟩) := by
      intro b hb
      refine test_of_tested (hshape b hb) (hplain.noMetadata b hb) (hplain.noPacket b hb)
        (hplain.size b hb) fun htest => ?_
      refine nonNull_update (hvalues.tested hp hcall hb htest) ?_
      intro hbv
      obtain rfl := (hp.calls call hcall).once.eq ha hb (mem_rets.mpr ⟨d, hd, hret⟩) hv hbv
      exact absurd (hnull.symm.trans htest.2) (by decide)
    have hmeets := ((hfaithful.tests hadmits hshape).mp htests a ha).pointer hneeded
    rw [NonNull_iff hv, update_self] at hmeets
    exact hmeets rfl
  · -- a test of anything but a needed pointer fails for a zero that no requirement excludes
    intro htest
    obtain ⟨v, hv, hvar, hproduced⟩ := htest.var hp (hok a ha)
    by_contra hno
    have hadmits := hvalues.admits.update_used hp hvar hproduced
    have hmeets : ∀ b ∈ call.args, b.Meets p (update ρ v ⟨0, false⟩) := by
      refine hplain.meets hshape fun b hb hneeded => nonNull_update ?_ ?_
      · exact (hvalues.meets hp hcall hmeetable b hb).pointer hneeded
      · exact fun hbv => hno ⟨b, hb, hneeded, hbv.trans hv.symm⟩
    have hfails := (hfaithful.tests hadmits hshape).mpr hmeets a ha
    simp only [BpfArg.Test, hplain.noMetadata a ha, hplain.noPacket a ha, htest.1, htest.2,
      Bool.false_eq_true, if_false, Bool.not_false, Bool.and_self, if_true, NonNull_iff hv,
      update_self] at hfails
    exact hfails rfl

end Comparison

/-- The guard of a generated call says what its arguments require in two cases. Either one
argument asks for the impossible while a test never succeeds, or the arguments include no packet
access and no size except the constant zero, only pointers that must not be null are tested, and
the others come from calls without a guard. -/
theorem faithful_iff {st : GenState} (hst : Generated st) (hcall : call ∈ st.prog.calls) :
    Faithful st.prog call ↔ (∃ a ∈ call.args, a.Unmeetable) ∧ (∃ a ∈ call.args, a.Dead) ∨
    ∀ a ∈ call.args, a.Exact st.prog call := by
  obtain ⟨-, hp⟩ := hst.progOk
  have hok := (hp.calls call hcall).args
  have hshape : ∀ a ∈ call.args, ArgShape st.prog a := fun a ha => (hok a ha).shape
  constructor
  · intro hfaithful
    by_cases hmeetable : ∀ a ∈ call.args, ¬ a.Unmeetable
    · exact .inr (hfaithful.exact hp hcall hmeetable)
    push Not at hmeetable
    obtain ⟨a, ha, hunmeetable⟩ := hmeetable
    refine .inl ⟨⟨a, ha, hunmeetable⟩, ?_⟩
    by_contra hdead
    push Not at hdead
    have hlargest := largest_le hshape
    have hvalues := values_valuation 1 (packetBase + 2 * call.largest + 2) hp hcall le_rfl
      (by omega) (by simp only [packetBase, maxAccess] at *; omega)
    have hmeets := (hfaithful.tests hvalues.admits hshape).mp (hvalues.tests hp hcall hdead)
    exact not_meets_of_unmeetable hp hcall ha hvalues.admits hunmeetable (hmeets a ha)
  · rintro (⟨⟨a, ha, hunmeetable⟩, b, hb, hdead⟩ | hexact)
    · intro ρ hρ
      rw [guardHolds_iff hshape hρ.field]
      refine iff_of_false ?_ ?_
      · exact fun htests => not_test_of_dead hp hcall hb hρ hdead (htests b hb)
      · exact fun hmeets => not_meets_of_unmeetable hp hcall ha hρ hunmeetable (hmeets a ha)
    · exact faithful_of_exact hp hcall hexact

theorem exists_generated {pt : BpfProgType} {draws : Stream' ℕ} {calls : List BpfCall}
    {ctxVars : List (String × ℕ)}
    (h : (genBpfProg 8 pt RegTable.initial draws).map (fun r =>
      (r.1.2.prog.calls, r.1.2.prog.scratchMapVars, r.1.2.prog.ctxVars)) =
        some (calls, List.range 10, ctxVars)) :
    ∃ st, Generated st ∧ st.prog.calls = calls ∧ st.prog.scratchMapVars = List.range 10 ∧
      st.prog.ctxVars = ctxVars := by
  obtain ⟨⟨⟨r, st⟩, draws'⟩, hrun, heq⟩ := Option.map_eq_some_iff.mp h
  obtain ⟨hcalls, hscratch, hctx⟩ : _ ∧ _ ∧ _ := by simpa using heq
  exact ⟨st, .of_genBpfProg hrun, hcalls, hscratch, hctx⟩

/-- `bpf_task_pt_regs` of a context field, which is tested. -/
def ptRegsCall : BpfCall where
  helper := helperFuncMap .bpfTaskPtRegs
  args := [{ newBpfArg .ptrToBtfId with name := .var 10 }]
  argMap := none
  ret := some 11
  retType := "struct pt_regs*"
  stackVarSize := 0
  hint := newBpfCallGenHint none
  postCalls := []

theorem ptRegsCall_faithful : ∃ st, Generated st ∧ ptRegsCall ∈ st.prog.calls ∧
    getArgConstraints st.prog ptRegsCall = [[.var 10]] ∧ Faithful st.prog ptRegsCall := by
  have hrun : (genBpfProg 8 netfilter RegTable.initial fun n => [44, 0, 0, 1, 0, 0].getD n 0).map
      (fun r => (r.1.2.prog.calls, r.1.2.prog.scratchMapVars, r.1.2.prog.ctxVars)) =
        some ([ptRegsCall], List.range 10, [("state", 10)]) := by
    decide +kernel
  obtain ⟨st, hst, hcalls, -, -⟩ := exists_generated hrun
  have hcall : ptRegsCall ∈ st.prog.calls := by simp [hcalls]
  refine ⟨st, hst, hcall, rfl, (faithful_iff hst hcall).mpr (.inr ?_)⟩
  intro a ha
  obtain rfl := mem_singleton.mp ha
  refine ⟨rfl, rfl, by decide, nofun, by decide, fun _ hnull => ?_, ?_⟩
  · exact absurd hnull (by decide)
  · exact fun _ => ⟨_, ha, by decide, rfl⟩

/-- `bpf_trace_printk` of eight bytes on the stack. -/
def printkCall : BpfCall where
  helper := helperFuncMap .bpfTracePrintk
  args := [{ newBpfArg .ptrToMem with name := .var 10, isNotNull := true, prep := .chars 10 8 },
    { newBpfArg .constSize with name := .var 11, isNotNull := true, prep := .int64 11 8, umax := 8 }]
  argMap := none
  ret := some 12
  retType := "uint64_t"
  stackVarSize := 8
  hint := newBpfCallGenHint none
  postCalls := []

/-- The arguments of a call are generated on the stack with a size that is not zero and have what
they require, but the guard is false. -/
theorem printkCall_guard_false : ∃ st ρ, Generated st ∧ printkCall ∈ st.prog.calls ∧
    Admits st.prog ρ ∧ (∀ a ∈ printkCall.args, a.Meets st.prog ρ) ∧
    ¬ guardHolds st.prog printkCall ρ := by
  have hrun : (genBpfProg 8 netfilter RegTable.initial
      fun n => [34, 0, 0, 1, 1, 0, 8, 1, 1, 0, 0].getD n 0).map
      (fun r => (r.1.2.prog.calls, r.1.2.prog.scratchMapVars, r.1.2.prog.ctxVars)) =
        some ([printkCall], List.range 10, []) := by
    decide +kernel
  obtain ⟨st, hst, hcalls, hscratch, hctx⟩ := exists_generated hrun
  have hcall : printkCall ∈ st.prog.calls := by simp [hcalls]
  have hok := (hst.progOk.2.calls printkCall hcall).args
  let ρ : Valuation := fun v => if v = 11 then ⟨8, true⟩ else ⟨1, false⟩
  have hne : ∀ v, (ρ v).bits ≠ 0 := by
    intro v
    simp only [ρ]
    split <;> decide
  have hunsigned : FieldsUnsigned st.prog ρ := by simp [FieldsUnsigned, hctx]
  refine ⟨st, ρ, hst, hcall, ⟨?_, fun _ _ _ _ v _ _ => hne v, fun v _ => hne v, hunsigned, ?_,
    fun _ _ v _ _ _ => hne v⟩, ?_, ?_⟩
  · simp [hcalls, printkCall, Prepare.number, newBpfArg, ρ]
  · simp [hcalls, printkCall, ρ]
  · intro a ha
    simp only [printkCall, mem_cons, not_mem_nil, or_false] at ha
    rcases ha with rfl | rfl
    · exact ⟨fun _ => hne 10, by simp [newBpfArg], by simp [newBpfArg], by simp [newBpfArg],
        by simp [newBpfArg]⟩
    · refine ⟨fun h => absurd h (by decide), by simp [newBpfArg], by simp [newBpfArg], ?_,
        by simp [newBpfArg]⟩
      exact fun _ => by decide
  · rw [guardHolds_iff (fun a ha => (hok a ha).shape) hunsigned]
    intro htests
    have hsize := htests _ (mem_cons_of_mem _ (mem_singleton_self _))
    simp [BpfArg.Test, newBpfArg, isConst, name] at hsize

end Brf.HelperCalls
