import Brf.Lib.Ensures
import Brf.Lib.Placement
import Brf.Lib.Support
import Brf.Model.HelperMaps
import Mathlib.Tactic.IntervalCases

/-! # Generated layouts

`generateStruct` draws a size within the limits it is given and fills it with fields. The
rendered struct is laid out by the C compiler, which aligns every member. -/

namespace Brf.HelperCalls

open Brf.Lib List FieldType HelperCalls Nat

def FieldType.bytes : FieldType → ℕ
  | .char256 => 256
  | f => f.advance

def FieldType.natural : FieldType → ℕ
  | .spinLock => 4
  | .timer => 8
  | .char8 | .char256 => 1
  | .u64 => 8
  | .u32 => 4
  | .u16 => 2
  | .u8 => 1

theorem FieldType.natural_pos (f : FieldType) : 0 < f.natural := by
  cases f <;> decide

/-- Where a member that follows the first `n` bytes starts. -/
def memberStart (n : ℕ) (f : FieldType) : ℕ := alignUp n f.natural

variable {n : ℕ} {f : FieldType}

theorem memberStart_eq_iff : memberStart n f = n ↔ f.natural ∣ n := by
  constructor
  · intro h
    rw [← h]
    exact dvd_alignUp n f.natural
  · exact fun h => alignUp_of_dvd h f.natural_pos

/-- The offset of a member in the rendered struct. -/
def StructDef.cOffset (sd : StructDef) (mi : ℕ) : Option ℕ :=
  ((place memberStart bytes 0 sd.fieldTypes)[mi]?).map Prod.fst

/-- What `generateStruct` is asked for: a size between `minSize` and
`maxSize`, a multiple of `align` if
that is given, and members for the hints when they are to be used. The hints are a set. -/
structure StructRequest where
  minSize : ℕ
  maxSize : ℕ
  align : Option ℕ
  hints : List ArgHint
  useHint : Bool
  minSizeHint : ℤ
  align_pos : 0 < align.getD 1
  hints_nodup : hints.Nodup

namespace StructRequest

variable (r : StructRequest)

def sizeConstraints : List ℕ := r.minSize :: r.maxSize :: r.align.toList

def step : ℕ := r.align.getD 1

def has (h : ArgHint) : Bool := r.useHint && h ∈ r.hints

def occupied : ℕ := if r.useHint then occupiedSize r.hints else 0

/-- What the generated layout should be. -/
structure Fulfilled (sd : StructDef) : Prop where
  min_le : r.minSize ≤ sd.size
  le_max : sd.size ≤ r.maxSize
  aligned : r.step ∣ sd.size
  hint_le : r.minSizeHint ≤ sd.size
  spinLock : r.has .genSpinlock → .spinLock ∈ sd.fieldTypes
  timer : r.has .genTimer → .timer ∈ sd.fieldTypes
  constStr : r.has .genConstStr → .char8 ∈ sd.fieldTypes
  sum : (sd.fieldTypes.map bytes).sum = sd.size
  offsets : ∀ i < sd.fieldTypes.length, sd.cOffset i = some (sd.offsetOfMember i)

/-- The least size that all lower limits allow. -/
def low : ℕ := if r.useHint then max (max r.minSize r.occupied) r.minSizeHint.toNat else r.minSize

/-- Sizes are drawn up to here. -/
def high : ℕ := min r.maxSize 128

/-- The least size above zero when sizes are drawn and rounded down. -/
def least : ℕ := if r.low < r.step then r.step else r.low

/-- In a layout of this size no member behind a spin lock is moved by its alignment. -/
def LockFits (size : ℕ) : Prop :=
  r.has .genSpinlock → ¬ r.has .genTimer ∧ size < r.occupied + 8

/-- The limits under which every generated layout is as it should be. A size that is not drawn
must be aligned; one that is drawn must not be rounded down below the limits. -/
def Sound : Prop :=
  r.low ≤ r.maxSize →
    if r.low = r.maxSize ∨ 128 < r.low then
      r.low = 0 ∨ r.step ∣ r.low ∧ r.minSizeHint ≤ r.low ∧ r.LockFits r.low
    else
      (r.step ∣ r.low ∨ r.low < r.step) ∧
        (r.least ≤ r.high →
          r.minSizeHint ≤ r.least ∧ r.LockFits (r.high - r.high % r.step))

end StructRequest

/-- Integers that fill `n` bytes, the largest first. -/
def plainFields (n : ℕ) : List FieldType :=
  List.replicate (n / 8) .u64 ++ (if 4 ≤ n % 8 then [.u32] else []) ++
    (if 2 ≤ n % 4 then [.u16] else []) ++ if n % 2 = 1 then [.u8] else []

def hintFields (hints : List ArgHint) : List FieldType :=
  (if .genSpinlock ∈ hints then [.spinLock] else []) ++
    (if .genTimer ∈ hints then [.timer] else []) ++ if .genConstStr ∈ hints then [.char8] else []

theorem sum_plainFields (n : ℕ) : ((plainFields n).map bytes).sum = n := by
  have h8 : (if 4 ≤ n % 8 then [u32] else []).map bytes =
      if 4 ≤ n % 8 then [4] else [] := by split <;> rfl
  have h4 : (if 2 ≤ n % 4 then [u16] else []).map bytes =
      if 2 ≤ n % 4 then [2] else [] := by split <;> rfl
  have h2 : (if n % 2 = 1 then [u8] else []).map bytes =
      if n % 2 = 1 then [1] else [] := by split <;> rfl
  simp only [plainFields, map_append, map_replicate, sum_append_nat, sum_replicate_nat, h8, h4, h2]
  have hu64 : u64.bytes = 8 := rfl
  rw [hu64]
  split <;> split <;> split <;> simp <;> omega

theorem mem_plainFields (h : f ∈ plainFields n) : f ∈ [.u64, .u32, .u16, .u8] := by
  simp only [plainFields, mem_append, mem_replicate] at h
  rcases h with ((⟨-, rfl⟩ | h) | h) | h
  · decide
  all_goals
    split at h
    · rw [mem_singleton.mp h]
      decide
    · cases h

theorem sum_hintFields (hints : List ArgHint) :
    ((hintFields hints).map bytes).sum = occupiedSize hints := by
  simp only [hintFields, occupiedSize]
  split <;> split <;> split <;> rfl

/-- The largest integer that fits into `n` bytes. -/
def nextInt (n : ℕ) : FieldType :=
  if n ≥ 8 then .u64 else if n ≥ 4 then .u32 else if n ≥ 2 then .u16 else .u8

theorem plainFields_eq_cons (h : 0 < n) :
    plainFields n = nextInt n :: plainFields (n - (nextInt n).advance) ∧
      (nextInt n).advance ≤ n ∧ 0 < (nextInt n).advance := by
  unfold nextInt
  split
  · rename_i h8
    obtain ⟨m, rfl⟩ := Nat.exists_eq_add_of_le h8
    refine ⟨?_, h8, by decide⟩
    have hdiv : (8 + m) / 8 = m / 8 + 1 := by omega
    have hmod8 : (8 + m) % 8 = m % 8 := by omega
    have hmod4 : (8 + m) % 4 = m % 4 := by omega
    have hmod2 : (8 + m) % 2 = m % 2 := by omega
    rw [plainFields, hdiv, hmod8, hmod4, hmod2, replicate_succ]
    simp only [advance, Nat.add_sub_cancel_left]
    rfl
  · interval_cases n <;> decide

variable {h : ArgHint}

section Hints

variable {useHint : Bool} {size fuel offset : ℕ} {hints : List ArgHint}

theorem layoutFields_plain (hspin : (useHint && decide (.genSpinlock ∈ hints)) = false)
    (htimer : (useHint && decide (.genTimer ∈ hints)) = false)
    (hstr : (useHint && decide (.genConstStr ∈ hints)) = false) (hfuel : size ≤ offset + fuel) :
    (layoutFields useHint size fuel offset hints).1 = plainFields (size - offset) := by
  induction fuel generalizing offset with
  | zero =>
    rw [Nat.sub_eq_zero_of_le (by omega)]
    rfl
  | succ fuel ih =>
    by_cases hend : size ≤ offset
    · rw [Nat.sub_eq_zero_of_le hend, layoutFields, if_pos hend]
      rfl
    · obtain ⟨hcons, hle, hpos⟩ := plainFields_eq_cons (n := size - offset) (by omega)
      have hstep : (layoutFields useHint size (fuel + 1) offset hints).1 =
          nextInt (size - offset) ::
            (layoutFields useHint size fuel (offset + (nextInt (size - offset)).advance)
              hints).1 := by
        simp only [layoutFields, hend, hspin, htimer, hstr, if_false, Bool.false_eq_true, nextInt]
        split
        · rfl
        · split
          · rfl
          · split <;> rfl
      rw [hstep, hcons, ih (by omega), sub_add_eq]

/-- The member that comes first, with the hint that asks for it. -/
inductive FirstMember (hints : List ArgHint) : ArgHint → FieldType → Prop
  | spinLock (h : .genSpinlock ∈ hints) : FirstMember hints .genSpinlock .spinLock
  | timer (hs : .genSpinlock ∉ hints) (h : .genTimer ∈ hints) : FirstMember hints .genTimer .timer
  | constStr (hs : .genSpinlock ∉ hints) (ht : .genTimer ∉ hints) (h : .genConstStr ∈ hints) :
      FirstMember hints .genConstStr .char8

theorem FirstMember.layoutFields (hf : FirstMember hints h f) (hend : ¬ size ≤ offset) :
    (layoutFields true size (fuel + 1) offset hints).1 =
      f :: (layoutFields true size fuel (offset + f.advance) (hints.erase h)).1 := by
  cases hf with
  | spinLock h => simp [layoutFields, hend, h]
  | timer hs h => simp [layoutFields, hend, hs, h]
  | constStr hs ht h => simp [layoutFields, hend, hs, ht, h]

theorem FirstMember.hintFields (hf : FirstMember hints h f) (hnodup : hints.Nodup) :
    hintFields hints = f :: hintFields (hints.erase h) ∧
      occupiedSize hints = f.advance + occupiedSize (hints.erase h) ∧ 0 < f.advance := by
  cases hf with
  | spinLock h =>
    simp [hintFields, occupiedSize, hnodup.mem_erase_iff, h, advance]
    omega
  | timer hs h =>
    simp [hintFields, occupiedSize, hnodup.mem_erase_iff, hs, h, advance]
  | constStr hs ht h =>
    simp [hintFields, occupiedSize, hnodup.mem_erase_iff, hs, ht, h, advance]

theorem exists_firstMember (hints : List ArgHint) : (∃ h f, FirstMember hints h f) ∨
    (.genSpinlock ∉ hints ∧ .genTimer ∉ hints ∧ .genConstStr ∉ hints) := by
  by_cases hs : .genSpinlock ∈ hints
  · exact .inl ⟨_, _, .spinLock hs⟩
  by_cases ht : .genTimer ∈ hints
  · exact .inl ⟨_, _, .timer hs ht⟩
  by_cases hc : .genConstStr ∈ hints
  · exact .inl ⟨_, _, .constStr hs ht hc⟩
  exact .inr ⟨hs, ht, hc⟩

theorem layoutFields_hinted (hnodup : hints.Nodup) (hroom : offset + occupiedSize hints ≤ size)
    (hfuel : size ≤ offset + fuel) : (layoutFields true size fuel offset hints).1 =
    hintFields hints ++ plainFields (size - offset - occupiedSize hints) := by
  induction fuel generalizing offset hints with
  | zero =>
    rcases exists_firstMember hints with ⟨h, f, hf⟩ | ⟨hs, ht, hc⟩
    · obtain ⟨-, hocc, hpos⟩ := hf.hintFields hnodup
      omega
    · rw [layoutFields_plain (by simpa using hs) (by simpa using ht) (by simpa using hc) hfuel]
      simp [hintFields, occupiedSize, hs, ht, hc]
  | succ fuel ih =>
    rcases exists_firstMember hints with ⟨h, f, hf⟩ | ⟨hs, ht, hc⟩
    · obtain ⟨hfields, hocc, hpos⟩ := hf.hintFields hnodup
      rw [hf.layoutFields (by omega), ih (hnodup.erase h) (by omega) (by omega), hfields, hocc,
        cons_append, sub_add_eq, sub_add_eq]
    · rw [layoutFields_plain (by simpa using hs) (by simpa using ht) (by simpa using hc) hfuel]
      simp [hintFields, occupiedSize, hs, ht, hc]

end Hints

/-! ### Alignment of the members -/

/-- No member of the layout, which starts at offset `n`, is moved by its alignment. -/
def Natural (n : ℕ) (fs : List FieldType) : Prop := Tight memberStart bytes n fs

@[simp] theorem natural_nil : Natural n [] := trivial

variable {fs : List FieldType}

@[simp] theorem natural_cons : Natural n (f :: fs) ↔ f.natural ∣ n ∧ Natural (n + f.bytes) fs := by
  rw [Natural, Tight, memberStart_eq_iff, Natural]

theorem natural_append {gs : List FieldType} :
    Natural n (fs ++ gs) ↔ Natural n fs ∧ Natural (n + (fs.map bytes).sum) gs :=
  tight_append

variable {k : ℕ}

theorem natural_replicate : Natural n (List.replicate k .u64) ↔ (0 < k → 8 ∣ n) := by
  induction k generalizing n with
  | zero => simp
  | succ k ih =>
    rw [replicate_succ, natural_cons, ih]
    simp only [natural, bytes, advance]
    constructor
    · exact fun h _ => h.1
    · intro h
      have hdvd := h (by omega)
      exact ⟨hdvd, fun _ => by omega⟩

theorem plainFields_eq_append (k : ℕ) :
    plainFields k = List.replicate (k / 8) .u64 ++ plainFields (k % 8) := by
  have hdiv : k % 8 / 8 = 0 := by omega
  have hmod4 : k % 8 % 4 = k % 4 := by omega
  have hmod2 : k % 8 % 2 = k % 2 := by omega
  simp only [plainFields, hdiv, hmod4, hmod2, mod_mod, replicate_zero, nil_append, append_assoc]

theorem natural_of_lt_eight (hn : 4 ∣ n) (hk : k < 8) : Natural n (plainFields k) := by
  have hsum : 2 ∣ n ∧ 2 ∣ n + 4 := by omega
  interval_cases k <;> simp [plainFields, natural, bytes, advance, hn, hsum]

theorem natural_plainFields (hn : 4 ∣ n) : Natural n (plainFields k) ↔ (8 ≤ k → 8 ∣ n) := by
  have hrest : Natural (n + ((List.replicate (k / 8) u64).map bytes).sum)
      (plainFields (k % 8)) := by
    refine natural_of_lt_eight ?_ (mod_lt k (by decide))
    simp only [map_replicate, sum_replicate_nat, bytes, advance]
    omega
  rw [plainFields_eq_append, natural_append, natural_replicate, and_iff_left hrest]
  have hpos : 0 < k / 8 ↔ 8 ≤ k := by omega
  rw [hpos]

/-- A spin lock takes four bytes, so what follows it has to get by with that alignment. -/
theorem natural_hintFields {hints : List ArgHint} : Natural 0 (hintFields hints ++ plainFields k) ↔
    (.genSpinlock ∈ hints → .genTimer ∉ hints ∧ k < 8) := by
  rw [natural_append, sum_hintFields]
  by_cases hs : .genSpinlock ∈ hints <;> by_cases ht : .genTimer ∈ hints <;>
    by_cases hc : .genConstStr ∈ hints
  all_goals
    rw [natural_plainFields (by simp [occupiedSize, hs, ht, hc])]
    simp [hintFields, occupiedSize, hs, ht, hc, natural, bytes,
      advance]

theorem members_le_sum (fs : List FieldType) :
    (if .spinLock ∈ fs then 4 else 0) + (if .timer ∈ fs then 16 else 0) +
      (if .char8 ∈ fs then 8 else 0) ≤ (fs.map bytes).sum := by
  induction fs with
  | nil => simp
  | cons f fs ih =>
    cases f <;> simp [bytes, advance] <;> grind

namespace StructRequest

variable (r : StructRequest)

/-- The size that a random word gives. -/
def sizeFor (word : ℕ) : Option ℕ :=
  if r.maxSize < r.low then none
  else if r.low = r.maxSize ∨ 128 < r.low then some r.low
  else
    let size := word % (r.high - r.low + 1) + r.low
    some (size - size % r.step)

/-- The part of `structSize` that follows once the least size is known. -/
def drawSize : Gen (Option ℕ) :=
  if r.low = r.maxSize then pure (some r.low)
  else if r.low < r.maxSize then
    if (if 128 < r.maxSize then 128 else r.maxSize) < r.low then pure (some r.low)
    else do
      let size ← Gen.intn ((if 128 < r.maxSize then 128 else r.maxSize) - r.low + 1)
      let size := size + r.low
      pure (some (if r.step = 1 then size else size - size % r.step))
  else pure none

/-- The size is drawn from a range. -/
def IsDrawn : Prop := r.low < r.maxSize ∧ r.low ≤ 128

theorem drawSize_of_isDrawn (h : r.IsDrawn) (draws : Stream' ℕ) :
    r.drawSize draws = some (r.sizeFor draws.head, draws.tail) := by
  obtain ⟨hlt, h128⟩ := h
  have hhigh : (if 128 < r.maxSize then 128 else r.maxSize) = r.high := by
    simp only [high]
    split <;> omega
  have hlow : ¬ r.high < r.low := by
    simp only [high]
    omega
  have hround : ∀ size, (if r.step = 1 then size else size - size % r.step) =
      size - size % r.step := by
    intro size
    split
    · simp [*, mod_one]
    · rfl
  simp only [drawSize, sizeFor, hhigh, hround, hlt, Nat.ne_of_lt hlt, hlow, Nat.not_lt.mpr h128,
    Nat.not_lt_of_lt hlt, if_false, if_true, or_self]
  rfl

theorem drawSize_of_not_isDrawn (h : ¬ r.IsDrawn) (word : ℕ) :
    r.drawSize = pure (r.sizeFor word) := by
  rw [IsDrawn] at h
  simp only [drawSize, sizeFor]
  by_cases heq : r.low = r.maxSize
  · simp [heq]
  by_cases hlt : r.low < r.maxSize
  · have hhigh : (if 128 < r.maxSize then 128 else r.maxSize) < r.low := by
      split <;> omega
    have h128 : 128 < r.low := by omega
    simp [heq, hlt, hhigh, h128, Nat.not_lt_of_lt hlt]
  · have hgt : r.maxSize < r.low := by omega
    simp [heq, hlt, hgt]

theorem yields_drawSize (word : ℕ) : Gen.Yields r.drawSize (r.sizeFor word) := by
  by_cases h : r.IsDrawn
  · exact ⟨[word], fun s => r.drawSize_of_isDrawn h _⟩
  · rw [r.drawSize_of_not_isDrawn h word]
    exact Gen.yields_pure _

theorem ensures_drawSize : Gen.Ensures r.drawSize fun size => ∃ word, size = r.sizeFor word := by
  by_cases h : r.IsDrawn
  · intro draws size draws' hrun
    rw [r.drawSize_of_isDrawn h] at hrun
    cases hrun
    exact ⟨_, rfl⟩
  · rw [r.drawSize_of_not_isDrawn h 0, Gen.ensures_pure]
    exact ⟨0, rfl⟩

theorem structSize_eq : structSize r.sizeConstraints r.hints r.useHint r.minSizeHint =
    r.drawSize := by
  have hmin : r.sizeConstraints.getD 0 0 = r.minSize := rfl
  have hmax : r.sizeConstraints.getD 1 0 = r.maxSize := rfl
  have hstep : r.sizeConstraints.getD 2 1 = r.step := by
    unfold sizeConstraints step
    cases r.align <;> rfl
  simp only [structSize, drawSize, hmin, hmax, hstep]
  cases huse : r.useHint with
  | false =>
    have hlow : r.low = r.minSize := by simp [low, huse]
    simp only [Bool.false_and, Bool.false_eq_true, if_false, hlow]
  | true =>
    have hlow : r.low = max (max r.minSize (occupiedSize r.hints)) r.minSizeHint.toNat := by
      simp [low, occupied, huse]
    simp only [Bool.true_and, Bool.or_eq_true, decide_eq_true_eq, Bool.and_eq_true]
    by_cases hfail : r.maxSize < occupiedSize r.hints ∨ (r.maxSize : ℤ) < r.minSizeHint
    · rw [if_pos hfail, if_neg (by omega), if_neg (by omega)]
    · have hraised : (if r.minSize < occupiedSize r.hints then occupiedSize r.hints
          else r.minSize) = max r.minSize (occupiedSize r.hints) := by
        split <;> omega
      have hleast : (if max r.minSize (occupiedSize r.hints) ≠ r.maxSize ∧
          ((max r.minSize (occupiedSize r.hints) : ℕ) : ℤ) < r.minSizeHint then
            r.minSizeHint.toNat else max r.minSize (occupiedSize r.hints)) = r.low := by
        split <;> omega
      rw [if_neg hfail, hraised, hleast]

def layout (structs : List StructDef) (size : ℕ) : StructDef :=
  let (fieldTypes, taken, _) := layoutFields r.useHint size size 0 r.hints
  match fieldTypes with
  | [f] => ⟨f.text, fieldTypes, size, taken, false⟩
  | _ => ⟨"struct_" ++ toString structs.length, fieldTypes, size, taken, true⟩

variable (structs : List StructDef)

theorem layout_size (size : ℕ) : (r.layout structs size).size = size := by
  unfold layout
  simp only
  split <;> rfl

theorem layout_fieldTypes (size : ℕ) :
    (r.layout structs size).fieldTypes = (layoutFields r.useHint size size 0 r.hints).1 := by
  unfold layout
  simp only
  split <;> rfl

def outcome (structs : List StructDef) :
    Option ℕ → Option (Option StructDef × List ArgHint × List StructDef)
  | none => none
  | some 0 => some (none, r.hints, structs)
  | some (n + 1) => some (some (r.layout structs (n + 1)),
      (layoutFields r.useHint (n + 1) (n + 1) 0 r.hints).2.2,
      structs ++ [r.layout structs (n + 1)])

theorem generateStruct_eq :
    generateStruct structs r.sizeConstraints r.hints r.useHint r.minSizeHint =
      r.drawSize >>= fun size => pure (r.outcome structs size) := by
  rw [← r.structSize_eq]
  refine bind_congr fun size => ?_
  match size with
  | none | some 0 | some (n + 1) => rfl

theorem yields_generateStruct (word : ℕ) :
    Gen.Yields (generateStruct structs r.sizeConstraints r.hints r.useHint r.minSizeHint)
      (r.outcome structs (r.sizeFor word)) := by
  rw [r.generateStruct_eq]
  exact (r.yields_drawSize word).bind (Gen.yields_pure _)

theorem ensures_generateStruct :
    Gen.Ensures (generateStruct structs r.sizeConstraints r.hints r.useHint r.minSizeHint)
      fun o => ∃ word, o = r.outcome structs (r.sizeFor word) := by
  rw [r.generateStruct_eq]
  refine Gen.ensures_bind (r.ensures_drawSize.mono ?_)
  rintro size ⟨word, rfl⟩
  exact Gen.ensures_pure.mpr ⟨word, rfl⟩

theorem outcome_cases {r : StructRequest} {structs structs' : List StructDef} {size : Option ℕ}
    {sd : Option StructDef} {left : List ArgHint}
    (h : r.outcome structs size = some (sd, left, structs')) :
    (size = some 0 ∧ sd = none ∧ left = r.hints ∧ structs' = structs) ∨
      ∃ n, size = some (n + 1) ∧ sd = some (r.layout structs (n + 1)) ∧
        left = (layoutFields r.useHint (n + 1) (n + 1) 0 r.hints).2.2 ∧
        structs' = structs ++ [r.layout structs (n + 1)] := by
  match size with
  | none => cases h
  | some 0 =>
    cases h
    exact .inl ⟨rfl, rfl, rfl, rfl⟩
  | some (n + 1) =>
    cases h
    exact .inr ⟨n, rfl, rfl, rfl, rfl⟩

/-! ### What a size makes of the request -/

theorem has_iff : r.has h ↔ r.useHint ∧ h ∈ r.hints := by
  simp [has]

variable {size : ℕ}

theorem layout_fieldTypes_of_room (h : r.occupied ≤ size) : (r.layout structs size).fieldTypes =
    (if r.useHint then hintFields r.hints else []) ++ plainFields (size - r.occupied) := by
  rw [layout_fieldTypes]
  cases huse : r.useHint with
  | false =>
    rw [layoutFields_plain rfl rfl rfl (by omega)]
    simp [occupied, huse]
  | true =>
    have hocc : r.occupied = occupiedSize r.hints := by simp [occupied, huse]
    rw [layoutFields_hinted r.hints_nodup (by omega) (by omega), hocc]
    simp

theorem bytes_eq_advance (h : .char256 ∉ fs) : fs.map bytes = fs.map advance := by
  refine map_congr_left fun f hf => ?_
  cases f with
  | char256 => exact absurd hf h
  | _ => rfl

theorem char256_notMem_layout (h : r.occupied ≤ size) :
    .char256 ∉ (r.layout structs size).fieldTypes := by
  rw [r.layout_fieldTypes_of_room structs h]
  simp [hintFields, plainFields, apply_ite (char256 ∈ ·), mem_replicate]

/-- The computed offsets are those of C when no member behind a spin lock is moved. -/
theorem offsets_iff (hroom : r.occupied ≤ size) :
    (∀ i < (r.layout structs size).fieldTypes.length, (r.layout structs size).cOffset i =
      some ((r.layout structs size).offsetOfMember i)) ↔ r.LockFits size := by
  have hnatural : (∀ i < (r.layout structs size).fieldTypes.length,
      (r.layout structs size).cOffset i = some ((r.layout structs size).offsetOfMember i)) ↔
      Natural 0 (r.layout structs size).fieldTypes := by
    rw [Natural, tight_iff]
    refine forall₂_congr fun i _ => ?_
    have htake : .char256 ∉ (r.layout structs size).fieldTypes.take i := fun h =>
      r.char256_notMem_layout structs hroom (mem_of_mem_take h)
    rw [StructDef.cOffset, StructDef.offsetOfMember, bytes_eq_advance htake, zero_add]
  rw [hnatural, r.layout_fieldTypes_of_room structs hroom]
  cases huse : r.useHint with
  | false =>
    have hplain : Natural 0 (plainFields (size - r.occupied)) :=
      (natural_plainFields (by omega)).mpr fun _ => by omega
    simp [hplain, LockFits, has, huse]
  | true =>
    simp only [if_true, natural_hintFields, LockFits, has, huse, Bool.true_and, decide_eq_true_eq]
    have hlt : size - r.occupied < 8 ↔ size < r.occupied + 8 := by omega
    rw [hlt]

theorem ite_le_ite {p q : Prop} [Decidable p] [Decidable q] (h : p → q) (n : ℕ) :
    (if p then n else 0) ≤ if q then n else 0 := by
  split
  · rw [if_pos (h ‹_›)]
  · exact zero_le _

theorem occupied_le (hs : r.has .genSpinlock → .spinLock ∈ fs) (ht : r.has .genTimer → .timer ∈ fs)
    (hc : r.has .genConstStr → .char8 ∈ fs) : r.occupied ≤ (fs.map bytes).sum := by
  refine le_trans ?_ (members_le_sum fs)
  rw [has_iff] at hs ht hc
  rw [occupied]
  split
  · rename_i huse
    exact Nat.add_le_add (Nat.add_le_add (ite_le_ite (fun h => hs ⟨huse, h⟩) 4)
      (ite_le_ite (fun h => ht ⟨huse, h⟩) 16)) (ite_le_ite (fun h => hc ⟨huse, h⟩) 8)
  · exact zero_le _

/-- The size is within the limits, has room for the members, and leaves no member behind a spin
lock to be moved. -/
def Suits (size : ℕ) : Prop :=
  r.minSize ≤ size ∧ size ≤ r.maxSize ∧ r.step ∣ size ∧ r.minSizeHint ≤ size ∧
    r.occupied ≤ size ∧ r.LockFits size

theorem fulfilled_layout_iff : r.Fulfilled (r.layout structs size) ↔ r.Suits size := by
  have hsize := r.layout_size structs size
  constructor
  · intro h
    have hocc : r.occupied ≤ size := by
      have hle := r.occupied_le h.spinLock h.timer h.constStr
      rwa [h.sum, hsize] at hle
    exact ⟨hsize ▸ h.min_le, hsize ▸ h.le_max, hsize ▸ h.aligned, hsize ▸ h.hint_le, hocc,
      (r.offsets_iff structs hocc).mp h.offsets⟩
  · rintro ⟨hmin, hmax, haligned, hhint, hocc, hlock⟩
    have hfields := r.layout_fieldTypes_of_room structs hocc
    have hmember : ∀ h, r.has h → (r.layout structs size).fieldTypes =
        hintFields r.hints ++ plainFields (size - r.occupied) := by
      intro h hh
      rw [hfields, if_pos (r.has_iff.mp hh).1]
    refine ⟨by rwa [hsize], by rwa [hsize], by rwa [hsize], by rwa [hsize], ?_, ?_, ?_, ?_,
      (r.offsets_iff structs hocc).mpr hlock⟩
    · intro h
      simp [hmember _ h, hintFields, (r.has_iff.mp h).2]
    · intro h
      simp [hmember _ h, hintFields, (r.has_iff.mp h).2]
    · intro h
      simp [hmember _ h, hintFields, (r.has_iff.mp h).2]
    · have hhints : ((if r.useHint then hintFields r.hints else []).map bytes).sum =
          r.occupied := by
        rw [occupied]
        split
        · exact sum_hintFields r.hints
        · rfl
      rw [hfields, map_append, sum_append_nat, hhints, sum_plainFields]
      omega

/-! ### The sizes that can be drawn -/

theorem le_sub_mod {m : ℕ} (hk : 0 < k) (hdvd : k ∣ m) (hle : m ≤ n) : m ≤ n - n % k := by
  obtain ⟨j, rfl⟩ := hdvd
  have hj : j ≤ n / k := (le_div_iff_mul_le hk).mpr (by rwa [mul_comm])
  have hdiv : n - n % k = k * (n / k) := by
    have h := div_add_mod n k
    omega
  rw [hdiv]
  exact mul_le_mul_left k hj

theorem le_low : r.minSize ≤ r.low ∧ r.occupied ≤ r.low ∧ (r.useHint → r.minSizeHint ≤ r.low) := by
  unfold low occupied
  cases r.useHint with
  | false => simp
  | true =>
    simp only [if_true]
    omega

theorem low_le (h : r.Suits size) : r.low ≤ size := by
  obtain ⟨hmin, -, -, hhint, hocc, -⟩ := h
  rw [low]
  split <;> omega

theorem LockFits.mono {r : StructRequest} {m : ℕ} (h : r.LockFits n) (hle : m ≤ n) : r.LockFits m :=
  fun hspin => ⟨(h hspin).1, lt_of_le_of_lt hle (h hspin).2⟩

theorem sizeFor_of_range (hle : r.low ≤ r.maxSize) (hrange : ¬ (r.low = r.maxSize ∨ 128 < r.low)) :
    (∀ word size, r.sizeFor word = some size → 0 < size → r.Suits size) ↔
      ∀ n, r.low ≤ n → n ≤ r.high → 0 < n - n % r.step → r.Suits (n - n % r.step) := by
  have hhigh : r.low ≤ r.high := by
    simp only [high]
    omega
  have hsize : ∀ word, r.sizeFor word = some (word % (r.high - r.low + 1) + r.low -
      (word % (r.high - r.low + 1) + r.low) % r.step) := by
    intro word
    rw [sizeFor, if_neg (by omega), if_neg hrange]
  constructor
  · intro h n hlow hn hpos
    refine h (n - r.low) _ ?_ hpos
    rw [hsize, Nat.mod_eq_of_lt (by omega), Nat.sub_add_cancel hlow]
  · intro h word size hword hpos
    rw [hsize] at hword
    cases hword
    have hlt : word % (r.high - r.low + 1) < r.high - r.low + 1 := mod_lt word (succ_pos _)
    exact h _ (by omega) (by omega) hpos

theorem suits_range_iff (hle : r.low ≤ r.maxSize) (hrange : ¬ (r.low = r.maxSize ∨ 128 < r.low)) :
    (∀ n, r.low ≤ n → n ≤ r.high → 0 < n - n % r.step → r.Suits (n - n % r.step)) ↔
    (r.step ∣ r.low ∨ r.low < r.step) ∧
    (r.least ≤ r.high → r.minSizeHint ≤ r.least ∧ r.LockFits (r.high - r.high % r.step)) := by
  have hstep : 0 < r.step := r.align_pos
  have hhigh : r.low ≤ r.high ∧ r.high ≤ r.maxSize := by
    simp only [high]
    omega
  have hlow : r.low ≤ r.least := by
    unfold least
    split <;> omega
  constructor
  · intro h
    have hround : r.step ∣ r.low ∨ r.low < r.step := by
      by_contra hnot
      have hlt := mod_lt r.low hstep
      have hback := r.low_le (h r.low le_rfl hhigh.1 (by omega))
      omega
    have hdvd : r.step ∣ r.least := by
      unfold least
      split
      · exact dvd_rfl
      · exact hround.resolve_right ‹_›
    have hpos : 0 < r.least := by
      unfold least
      split <;> omega
    refine ⟨hround, fun hleast => ⟨?_, ?_⟩⟩
    · have hsuits := h r.least hlow hleast
      rw [Nat.mod_eq_zero_of_dvd hdvd, Nat.sub_zero] at hsuits
      exact (hsuits hpos).2.2.2.1
    · have htop := le_sub_mod hstep hdvd hleast
      exact (h r.high hhigh.1 le_rfl (by omega)).2.2.2.2.2
  · rintro ⟨hround, htop⟩ n hn hnhigh hpos
    have hdvd : r.step ∣ n - n % r.step := dvd_sub_mod n
    have hge : r.least ≤ n - n % r.step := by
      unfold least
      split
      · exact le_of_dvd hpos hdvd
      · exact le_sub_mod hstep (hround.resolve_right ‹_›) hn
    obtain ⟨hhint, hlock⟩ := htop (by omega)
    obtain ⟨hmin, hocc, -⟩ := r.le_low
    refine ⟨by omega, by omega, hdvd, by omega, by omega, hlock.mono ?_⟩
    exact le_sub_mod hstep hdvd (by omega)

theorem suits_iff_sound :
    (∀ word size, r.sizeFor word = some size → 0 < size → r.Suits size) ↔ r.Sound := by
  by_cases hle : r.low ≤ r.maxSize
  · by_cases hrange : r.low = r.maxSize ∨ 128 < r.low
    · have hsize : ∀ word, r.sizeFor word = some r.low := by
        intro word
        rw [sizeFor, if_neg (by omega), if_pos hrange]
      obtain ⟨hmin, hocc, -⟩ := r.le_low
      simp only [Sound, hle, hrange, if_true, forall_const, hsize, Option.some.injEq]
      constructor
      · intro h
        rcases Nat.eq_zero_or_pos r.low with hzero | hpos
        · exact .inl hzero
        · obtain ⟨-, -, hdvd, hhint, -, hlock⟩ := h r.low rfl hpos
          exact .inr ⟨hdvd, hhint, hlock⟩
      · rintro h _ rfl hpos
        obtain ⟨hdvd, hhint, hlock⟩ := h.resolve_left (by omega)
        exact ⟨hmin, hle, hdvd, hhint, hocc, hlock⟩
    · rw [r.sizeFor_of_range hle hrange, r.suits_range_iff hle hrange, Sound]
      simp only [hle, hrange, if_false, forall_const]
  · refine iff_of_true ?_ fun h => absurd h hle
    intro word size hsize
    rw [sizeFor, if_pos (by omega)] at hsize
    cases hsize

/-- Every layout that is generated for a request fulfils it exactly when the request is sound. -/
theorem generateStruct_fulfilled_iff :
    (∀ structs draws sd left structs' draws',
      generateStruct structs r.sizeConstraints r.hints r.useHint r.minSizeHint draws =
        some (some (some sd, left, structs'), draws') → r.Fulfilled sd) ↔ r.Sound := by
  rw [← r.suits_iff_sound]
  constructor
  · intro h word size hsize hpos
    obtain ⟨n, rfl⟩ := exists_eq_succ_of_ne_zero (ne_of_gt hpos)
    have hyields := r.yields_generateStruct [] word
    rw [hsize] at hyields
    obtain ⟨draws, draws', hrun⟩ := hyields.exists_run
    exact (r.fulfilled_layout_iff []).mp (h [] draws _ _ _ draws' hrun)
  · intro h structs draws sd left structs' draws' hrun
    obtain ⟨word, hout⟩ := r.ensures_generateStruct structs draws _ draws' hrun
    obtain ⟨-, hnone, -⟩ | ⟨n, hsize, hsd, -⟩ := outcome_cases hout.symm
    · cases hnone
    · cases hsd
      exact (r.fulfilled_layout_iff structs).mpr (h word (n + 1) hsize (succ_pos n))

end StructRequest

/-- The value of a hash map that shall have a spin lock. -/
def lockRequest : StructRequest := ⟨1, 4096, none, [.genSpinlock], true, 0, by decide, by decide⟩

/-- C puts the integer behind the lock at offset 8, and not at the computed offset 4. -/
theorem lockRequest_not_fulfilled : ∃ sd left structs draws,
    generateStruct [] lockRequest.sizeConstraints lockRequest.hints lockRequest.useHint
      lockRequest.minSizeHint (Stream'.const 8) = some (some (some sd, left, structs), draws) ∧
    sd.fieldTypes = [.spinLock, .u64] ∧ sd.offsetOfMember 1 = 4 ∧ sd.cOffset 1 = some 8 ∧
    ¬ lockRequest.Fulfilled sd := by
  refine ⟨_, _, _, _, rfl, rfl, rfl, rfl, fun h => ?_⟩
  have hoffset := h.offsets 1 (by decide)
  revert hoffset
  decide

end Brf.HelperCalls
