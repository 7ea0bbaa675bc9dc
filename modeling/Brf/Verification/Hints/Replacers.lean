import Brf.Model.Hints

/-! # What hints replace

Every value that `shrinkExpand` returns is the truncated value with its low part replaced by an
operand of a matching comparison. The test that something changes is made before the result is
truncated, so operands that differ from the value only above its size are not sorted out. -/

namespace Brf

open Brf.Lib Brf.Lib.Wire List Option HintWidth

/-! ### Byte orders -/

/-- The number whose `n` bytes are those of `x` in the other order. -/
def reverseBytes : (n x : ℕ) → ℕ
  | 0, _ => 0
  | n + 1, x => x % 256 * 256 ^ n + reverseBytes n (x / 256)

theorem reverseBytes_lt (n x : ℕ) : reverseBytes n x < 256 ^ n := by
  induction n generalizing x with
  | zero => exact Nat.one_pos
  | succ n ih =>
    have hrest := ih (x / 256)
    have hbyte : x % 256 * 256 ^ n ≤ 255 * 256 ^ n := Nat.mul_le_mul_right _ (by omega)
    rw [reverseBytes]
    omega

theorem leValue_snoc (bs : List UInt8) (b : UInt8) :
    leValue (bs ++ [b]) = b.toNat * 256 ^ bs.length + leValue bs := by
  induction bs with
  | nil => simp [leValue]
  | cons c bs ih =>
    rw [cons_append, leValue, ih, leValue, length_cons, Nat.pow_succ, Nat.mul_add,
      Nat.mul_comm 256 (_ * _), Nat.mul_assoc]
    omega

theorem leValue_reverse_leBytes (n x : ℕ) : leValue (leBytes n x).reverse = reverseBytes n x := by
  induction n generalizing x with
  | zero => rfl
  | succ n ih =>
    rw [leBytes, reverse_cons, leValue_snoc, ih, length_reverse, length_leBytes, reverseBytes,
      UInt8.toNat_ofNat']

/-- A number of `n` bytes in the given order. -/
def inOrder (n : ℕ) (bigendian : Bool) (x : ℕ) : ℕ := if bigendian then reverseBytes n x else x

variable {w : HintWidth} {bigendian : Bool} {n : ℕ}

theorem inOrder_lt {x : ℕ} (h : x < 2 ^ (8 * n)) : inOrder n bigendian x < 2 ^ (8 * n) := by
  unfold inOrder
  split
  · rw [Nat.pow_mul]
    exact reverseBytes_lt n x
  · exact h

theorem bytes_of_mem (hw : w ∈ hintWidths) : 0 < w.bytes ∧ w.bytes ≤ 8 := by
  have hall : ∀ w ∈ hintWidths, 0 < w.bytes ∧ w.bytes ≤ 8 := by decide
  exact hall w hw

theorem toNat_order (hw : w ∈ hintWidths) (hbig : bigendian → w.bytes ≠ 1) (x : UInt64) :
    (w.order bigendian x).toNat = inOrder w.bytes bigendian x.toNat := by
  cases bigendian with
  | false => rfl
  | true =>
    have hlt := reverseBytes_lt w.bytes x.toNat
    have hle : 256 ^ w.bytes ≤ 256 ^ 8 := Nat.pow_le_pow_right (by decide) (bytes_of_mem hw).2
    rw [order, if_pos rfl, swapInt, if_neg (hbig rfl), leValue_reverse_leBytes, inOrder,
      if_pos rfl, UInt64.toNat_ofNat', Nat.mod_eq_of_lt (by omega)]

/-! ### The replacers -/

/-- The low `n` bits of a number as a 64-bit word, with or without a sign. -/
def lowPart (n : ℕ) (signed : Bool) (v : ℕ) : ℕ :=
  if signed then 2 ^ 64 - 2 ^ n + v % 2 ^ n else v % 2 ^ n

/-- The low part of `v` was compared with `operand`, in the given byte order. A part is extended
with ones only if its sign bit is set. -/
structure Compared (comps : CompMap) (bitsize : ℕ) (w : HintWidth) (bigendian : Bool) (v : ℕ)
    (operand : UInt64) : Prop where
  sign : w.signed → v.testBit (w.size bitsize - 1)
  key : ∃ k, (k, operand) ∈ comps ∧
    k.toNat = inOrder w.bytes bigendian (lowPart (w.size bitsize) w.signed v)

/-- The low part of an operand, in the given byte order. -/
def operandLow (bitsize : ℕ) (w : HintWidth) (bigendian : Bool) (operand : UInt64) : ℕ :=
  inOrder w.bytes bigendian (operand.toNat % 2 ^ w.size bitsize)

/-- What is asked of the values suggested for `v`. -/
structure GoodReplacers (v : UInt64) (comps : CompMap) (bitsize : ℕ) (es : List UInt64) : Prop where
  increasing : es.Pairwise (· < ·)
  below : ∀ e ∈ es, e.toNat < 2 ^ bitsize
  changed : ∀ e ∈ es, e.toNat ≠ v.toNat % 2 ^ bitsize
  replaced : ∀ e ∈ es, ∃ w ∈ hintWidths, ∃ bigendian operand,
    Compared comps bitsize w bigendian (v.toNat % 2 ^ bitsize) operand ∧
    e.toNat = (v.toNat % 2 ^ bitsize / 2 ^ w.size bitsize * 2 ^ w.size bitsize +
      operandLow bitsize w bigendian operand) % 2 ^ bitsize

/-- A comparison that is looked at: single bytes have one order, and for images small integers,
zeros and ones are passed over. -/
structure Tried (comps : CompMap) (bitsize : ℕ) (image : Bool) (w : HintWidth) (bigendian : Bool)
    (v : ℕ) (operand : UInt64) : Prop extends Compared comps bitsize w bigendian v operand where
  bytes : bigendian → w.bytes ≠ 1
  kept : image → w.skipsImage bitsize (UInt64.ofNat (lowPart (w.size bitsize) w.signed v)) = false

/-- A word that is a number of `bitsize` bits, with or without a sign. -/
def FitsSize (bitsize : ℕ) (x : UInt64) : Prop :=
  x.toNat < 2 ^ bitsize ∨ 2 ^ 64 - 2 ^ (bitsize - 1) ≤ x.toNat

/-- The value `v` was compared at a width above its size with an operand of its size that has at
this width the bits of `v` and others above them, and is not passed over as a special integer. -/
structure Widened (comps : CompMap) (bitsize : ℕ) (image : Bool) (w : HintWidth) (bigendian : Bool)
    (v : ℕ) (operand : UInt64) : Prop extends Tried comps bitsize image w bigendian v operand where
  wide : bitsize < 8 * w.bytes
  fits : FitsSize bitsize operand
  same : operandLow bitsize w bigendian operand % 2 ^ bitsize = v
  above : operandLow bitsize w bigendian operand ≠ v
  special : image = false → ∀ x ∈ specialInts, operandLow bitsize w bigendian operand ≠ x.toNat

variable {comps : CompMap} {x k : UInt64}

theorem mem_operands : x ∈ comps.operands k ↔ (k, x) ∈ comps := by
  simp [CompMap.operands]

variable {v : UInt64} {bitsize : ℕ} {image : Bool}

theorem shrinkExpand_increasing : (shrinkExpand v comps bitsize image).Pairwise (· < ·) := by
  have hle := Finset.pairwise_sort
    (foundReplacers (truncateToBitSize v bitsize) comps bitsize image).toFinset (· ≤ ·)
  have hne := Finset.sort_nodup
    (foundReplacers (truncateToBitSize v bitsize) comps bitsize image).toFinset (· ≤ ·)
  exact (hle.and hne).imp fun h => UInt64.lt_of_le_of_ne h.1 h.2

theorem size_le_of_mem (hw : w ∈ hintWidths) (bitsize : ℕ) : w.size bitsize ≤ 64 := by
  have hbytes := (bytes_of_mem hw).2
  unfold size
  split <;> omega

theorem toNat_truncateToBitSize (h : bitsize ≤ 64) (v : UInt64) :
    (truncateToBitSize v bitsize).toNat = v.toNat % 2 ^ bitsize :=
  toNat_and_lowMask h v

/-- At a width above the size of the value, all of the value is replaced. -/
theorem le_size_of_wide (h : bitsize < 8 * w.bytes) : bitsize ≤ w.size bitsize := by
  unfold size
  split <;> omega

theorem mutant_eq_some_iff (hw : w ∈ hintWidths) {m : UInt64} :
    w.mutant bitsize v = some m ↔ (w.signed → v.toNat.testBit (w.size bitsize - 1)) ∧
      m.toNat = lowPart (w.size bitsize) w.signed v.toNat := by
  have hsize := size_le_of_mem hw bitsize
  unfold mutant lowPart
  cases w.signed with
  | false =>
    simp only [Bool.false_eq_true, if_false, false_imp_iff, true_and, some.injEq,
      ← UInt64.toNat_inj, toNat_and_lowMask hsize]
    exact eq_comm
  | true =>
    simp only [if_true, and_twoPow_eq_zero (show w.size bitsize - 1 < 64 by omega), true_imp_iff]
    cases v.toNat.testBit (w.size bitsize - 1) with
    | false => simp
    | true => simp [← UInt64.toNat_inj, toNat_or_not_lowMask hsize, eq_comm]

theorem key_eq_some_iff : w.key bitsize image v bigendian = some k ↔
    ∃ m, w.mutant bitsize v = some m ∧ (image → w.skipsImage bitsize m = false) ∧
      (bigendian → w.bytes ≠ 1) ∧ w.order bigendian m = k := by
  unfold key
  cases w.mutant bitsize v with
  | none => simp
  | some m =>
    cases image <;> cases bigendian <;> cases w.skipsImage bitsize m <;> simp

theorem lowPart_lt (hn : n ≤ 64) (signed : Bool) (x : ℕ) : lowPart n signed x < 2 ^ 64 := by
  have hle : 2 ^ n ≤ 2 ^ 64 := Nat.pow_le_pow_right (by decide) hn
  unfold lowPart
  split <;> omega

variable {e : UInt64}

theorem mem_replacers (hw : w ∈ hintWidths) : e ∈ w.replacers comps bitsize image v bigendian ↔
    ∃ operand, Tried comps bitsize image w bigendian v.toNat operand ∧
    w.replacer bitsize image v bigendian operand = some e := by
  have hm : (UInt64.ofNat (lowPart (w.size bitsize) w.signed v.toNat)).toNat =
      lowPart (w.size bitsize) w.signed v.toNat :=
    Nat.mod_eq_of_lt (lowPart_lt (size_le_of_mem hw bitsize) _ _)
  unfold replacers
  constructor
  · intro h
    split at h
    · cases h
    · rename_i k hk
      obtain ⟨m, hmut, himage, hbig, rfl⟩ := key_eq_some_iff.mp hk
      obtain ⟨hsign, hlow⟩ := (mutant_eq_some_iff hw).mp hmut
      obtain ⟨operand, hop, hrep⟩ := mem_filterMap.mp h
      refine ⟨operand, ⟨⟨hsign, _, mem_operands.mp hop, ?_⟩, hbig, ?_⟩, hrep⟩
      · rw [toNat_order hw hbig, hlow]
      · rwa [← hlow, UInt64.ofNat_toNat]
  · rintro ⟨operand, ⟨⟨hsign, k, hmem, hkey⟩, hbig, himage⟩, hrep⟩
    have hk : w.key bitsize image v bigendian = some k := by
      refine key_eq_some_iff.mpr ⟨_, (mutant_eq_some_iff hw).mpr ⟨hsign, hm⟩, himage, hbig, ?_⟩
      rw [← UInt64.toNat_inj, toNat_order hw hbig, hm, hkey]
    rw [hk]
    exact mem_filterMap.mpr ⟨operand, mem_operands.mpr hmem, hrep⟩

theorem mem_shrinkExpand :
    e ∈ shrinkExpand v comps bitsize image ↔ ∃ w ∈ hintWidths, ∃ bigendian,
      e ∈ w.replacers comps bitsize image (truncateToBitSize v bitsize) bigendian := by
  simp [shrinkExpand, foundReplacers]

variable {operand : UInt64}

theorem replacer_eq_some : w.replacer bitsize image v bigendian operand =
    some e ↔ ∃ low, w.operandPart bitsize image bigendian operand = some low ∧
    (v &&& ~~~lowMask (w.size bitsize)) ||| low ≠ v ∧
    truncateToBitSize ((v &&& ~~~lowMask (w.size bitsize)) ||| low) bitsize = e := by
  unfold replacer
  cases w.operandPart bitsize image bigendian operand with
  | none | some => simp

theorem toNat_not_lowMask (hn : n ≤ 64) : (~~~lowMask n).toNat = 2 ^ 64 - 2 ^ n := by
  have h := toNat_or_not_lowMask hn 0
  simpa using h

/-- The bits from `n` on are all set. -/
theorem and_not_lowMask_eq_iff (hn : n ≤ 64) (x : UInt64) :
    x &&& ~~~lowMask n = ~~~lowMask n ↔ 2 ^ 64 - 2 ^ n ≤ x.toNat := by
  obtain ⟨q, hq⟩ : 2 ^ n ∣ 2 ^ 64 := Nat.pow_dvd_pow 2 hn
  have hx := x.toNat_lt
  have hpos := Nat.two_pow_pos n
  rw [← UInt64.toNat_inj, toNat_and_not_lowMask hn, toNat_not_lowMask hn, hq]
  rw [hq] at hx
  have hdiv := Nat.div_add_mod x.toNat (2 ^ n)
  have hlt : x.toNat / 2 ^ n < q := Nat.div_lt_of_lt_mul hx
  have hsub : 2 ^ n * q - 2 ^ n = 2 ^ n * (q - 1) := by rw [Nat.mul_sub, Nat.mul_one]
  rw [hsub, Nat.mul_comm (x.toNat / 2 ^ n)]
  constructor
  · omega
  · intro h
    have hge : q - 1 ≤ x.toNat / 2 ^ n := (Nat.le_div_iff_mul_le hpos).mpr (by rwa [Nat.mul_comm])
    rw [show x.toNat / 2 ^ n = q - 1 by omega]

variable {low : UInt64}

/-- An operand of the size of the value is accepted, unless it makes a special integer. -/
theorem operandPart_eq_some_iff (hw : w ∈ hintWidths) (hpos : 0 < bitsize)
    (hwide : bitsize < 8 * w.bytes) : w.operandPart bitsize image bigendian operand = some low ↔
    FitsSize bitsize operand ∧ (image = false → low ∉ specialInts) ∧
    w.order bigendian (operand &&& lowMask (w.size bitsize)) = low := by
  have hsize := size_le_of_mem hw bitsize
  have hle := le_size_of_wide hwide
  have hpow : 2 ^ (bitsize - 1) ≤ 2 ^ bitsize := Nat.pow_le_pow_right (by decide) (Nat.sub_le _ _)
  have hpow' : 2 ^ bitsize ≤ 2 ^ w.size bitsize := Nat.pow_le_pow_right (by decide) hle
  have hhalf : lowMask bitsize >>> 1 = lowMask (bitsize - 1) := by
    rw [← UInt64.toNat_inj, UInt64.toNat_shiftRight, toNat_lowMask (by omega),
      toNat_lowMask (by omega)]
    obtain ⟨n, rfl⟩ := Nat.exists_eq_add_of_le' hpos
    simp [Nat.shiftRight_eq_div_pow, Nat.pow_succ]
    omega
  have hlimit : ¬ (lowMask bitsize < operand ∧
      ~~~(lowMask bitsize >>> 1) &&& operand ≠ ~~~(lowMask bitsize >>> 1)) ↔
      FitsSize bitsize operand := by
    rw [hhalf, UInt64.and_comm, FitsSize, ← and_not_lowMask_eq_iff (by omega),
      UInt64.lt_iff_toNat_lt, toNat_lowMask (by omega), not_and_or, not_not]
    have := Nat.two_pow_pos bitsize
    exact or_congr_left (by omega)
  have hhigh : FitsSize bitsize operand → ¬ (operand &&& ~~~lowMask (w.size bitsize) ≠ 0 ∧
      operand &&& ~~~lowMask (w.size bitsize) ^^^ ~~~lowMask (w.size bitsize) ≠ 0) := by
    rintro (h | h) ⟨hne, hxor⟩
    · apply hne
      rw [← UInt64.toNat_inj, toNat_and_not_lowMask hsize, Nat.div_eq_of_lt (by omega)]
      simp
    · rw [(and_not_lowMask_eq_iff hsize _).mpr (by omega), UInt64.xor_self] at hxor
      exact hxor rfl
  simp only [operandPart]
  by_cases hfits : FitsSize bitsize operand
  · rw [if_neg (hlimit.mpr hfits), if_neg (hhigh hfits)]
    split
    · next hspecial =>
      refine iff_of_false nofun ?_
      rintro ⟨-, hno, rfl⟩
      exact hno hspecial.1 hspecial.2
    · next hspecial =>
      simp only [hfits, true_and, some.injEq]
      refine ⟨fun h => ⟨fun himage hmem => hspecial ⟨himage, h ▸ hmem⟩, h⟩, And.right⟩
  · rw [if_pos (not_not.mp (mt hlimit.mp hfits))]
    exact iff_of_false nofun fun h => hfits h.1

theorem order_of_operandPart (h : w.operandPart bitsize image bigendian operand = some low) :
    w.order bigendian (operand &&& lowMask (w.size bitsize)) = low := by
  simp only [operandPart] at h
  split_ifs at h
  exact some.inj h

theorem toNat_operand (bitsize : ℕ) (hw : w ∈ hintWidths) (hbig : bigendian → w.bytes ≠ 1)
    (x : UInt64) :
    (w.order bigendian (x &&& lowMask (w.size bitsize))).toNat =
      operandLow bitsize w bigendian x := by
  rw [toNat_order hw hbig, toNat_and_lowMask (size_le_of_mem hw bitsize), operandLow]

theorem toNat_replace (hw : w ∈ hintWidths) (hbig : bigendian → w.bytes ≠ 1)
    (hv : v.toNat < 2 ^ bitsize) (x : UInt64) :
    ((v &&& ~~~lowMask (w.size bitsize)) |||
        w.order bigendian (x &&& lowMask (w.size bitsize))).toNat =
      v.toNat / 2 ^ w.size bitsize * 2 ^ w.size bitsize +
        operandLow bitsize w bigendian x := by
  have hsize := size_le_of_mem hw bitsize
  rw [← toNat_operand bitsize hw hbig]
  by_cases hfull : 8 * w.bytes ≤ w.size bitsize
  · refine toNat_and_not_lowMask_or hsize v ?_
    rw [toNat_operand bitsize hw hbig]
    refine Nat.lt_of_lt_of_le (inOrder_lt ?_) (Nat.pow_le_pow_right (by decide) hfull)
    have hsame : w.size bitsize ≤ 8 * w.bytes := by unfold size; split <;> omega
    exact (Nat.mod_lt _ (Nat.two_pow_pos _)).trans_le (Nat.pow_le_pow_right (by decide) hsame)
  · -- the width was clipped to the size of the value, so all of the value is replaced
    have hclip : bitsize ≤ w.size bitsize :=
      le_size_of_wide (by unfold size at hfull; split at hfull <;> omega)
    have hpow : 2 ^ bitsize ≤ 2 ^ w.size bitsize := Nat.pow_le_pow_right (by decide) hclip
    have hdiv : v.toNat / 2 ^ w.size bitsize = 0 := Nat.div_eq_of_lt (by omega)
    have hzero : v &&& ~~~lowMask (w.size bitsize) = 0 := by
      rw [← UInt64.toNat_inj, toNat_and_not_lowMask hsize, hdiv]
      simp
    rw [hzero, hdiv]
    simp

/-- The value itself is suggested only at a width above its size. -/
theorem replacer_self_iff (hw : w ∈ hintWidths) (hbig : bigendian → w.bytes ≠ 1)
    (hpos : 0 < bitsize) (hbits : bitsize ≤ 64) (hv : v.toNat < 2 ^ bitsize) :
    w.replacer bitsize image v bigendian x = some v ↔ bitsize < 8 * w.bytes ∧ FitsSize bitsize x ∧
      operandLow bitsize w bigendian x % 2 ^ bitsize = v.toNat ∧
      operandLow bitsize w bigendian x ≠ v.toNat ∧
      (image = false → ∀ y ∈ specialInts, operandLow bitsize w bigendian x ≠ y.toNat) := by
  have hword := toNat_replace hw hbig hv x
  have hpart := toNat_operand bitsize hw hbig x
  rw [replacer_eq_some]
  by_cases hwide : bitsize < 8 * w.bytes
  · have hpow : 2 ^ bitsize ≤ 2 ^ w.size bitsize :=
      Nat.pow_le_pow_right (by decide) (le_size_of_wide hwide)
    rw [Nat.div_eq_of_lt (by omega), Nat.zero_mul, Nat.zero_add] at hword
    simp only [operandPart_eq_some_iff hw hpos hwide, hwide, true_and]
    rw [← hword, ← toNat_truncateToBitSize hbits, UInt64.toNat_inj, ne_eq, UInt64.toNat_inj]
    constructor
    · rintro ⟨_, ⟨hfits, hspecial, rfl⟩, hne, hsame⟩
      refine ⟨hfits, hsame, hne, fun himage y hy heq => hspecial himage ?_⟩
      rwa [UInt64.toNat_inj.mp (hpart.trans (hword.symm.trans heq))]
    · rintro ⟨hfits, hsame, hne, hspecial⟩
      exact ⟨_, ⟨hfits, fun himage hmem => hspecial himage _ hmem (hword.trans hpart.symm), rfl⟩, hne,
        hsame⟩
  · refine iff_of_false ?_ fun h => hwide h.1
    rintro ⟨low, hlow, hne, hsame⟩
    obtain rfl := order_of_operandPart hlow
    have hclip : w.size bitsize = 8 * w.bytes := by unfold size; split <;> omega
    have hlt : operandLow bitsize w bigendian x < 2 ^ w.size bitsize := by
      rw [operandLow, hclip]
      exact inOrder_lt (Nat.mod_lt _ (Nat.two_pow_pos _))
    -- what is replaced lies below the size of the value, so truncation changes nothing
    have hquot : v.toNat / 2 ^ w.size bitsize < 2 ^ (bitsize - w.size bitsize) := by
      rw [Nat.div_lt_iff_lt_mul (Nat.two_pow_pos _), Nat.pow_sub_mul_pow 2 (by omega)]
      exact hv
    have hmul := Nat.mul_le_mul_right (2 ^ w.size bitsize) hquot
    rw [Nat.pow_sub_mul_pow 2 (by omega), Nat.succ_mul] at hmul
    rw [← UInt64.toNat_inj, toNat_truncateToBitSize hbits, hword, Nat.mod_eq_of_lt (by omega),
      ← hword, UInt64.toNat_inj] at hsame
    exact hne hsame

/-- The values suggested are as they should be just if the value was not compared with an operand
that widens it. -/
theorem shrinkExpand_good_iff {v : UInt64} {comps : CompMap} {bitsize : ℕ} {image : Bool}
    (hpos : 0 < bitsize) (hbits : bitsize ≤ 64) :
    GoodReplacers v comps bitsize (shrinkExpand v comps bitsize image) ↔
      ∀ w ∈ hintWidths, ∀ bigendian operand,
        ¬ Widened comps bitsize image w bigendian (v.toNat % 2 ^ bitsize) operand := by
  have hv := toNat_truncateToBitSize hbits v
  have hlt : (truncateToBitSize v bitsize).toNat < 2 ^ bitsize := by
    rw [hv]
    exact Nat.mod_lt _ (Nat.two_pow_pos _)
  constructor
  · rintro h w hw bigendian operand ⟨htried, hwide, hfits, hsame, habove, hspecial⟩
    rw [← hv] at htried hsame habove
    have hrep := (replacer_self_iff hw htried.bytes hpos hbits hlt).mpr
      ⟨hwide, hfits, hsame, habove, hspecial⟩
    exact h.changed _ (mem_shrinkExpand.mpr ⟨w, hw, bigendian,
      (mem_replacers hw).mpr ⟨operand, htried, hrep⟩⟩) hv
  · intro h
    refine ⟨shrinkExpand_increasing, fun e he => ?_, fun e he heq => ?_, fun e he => ?_⟩
    all_goals
      obtain ⟨w, hw, bigendian, he⟩ := mem_shrinkExpand.mp he
      obtain ⟨operand, htried, hrep⟩ := (mem_replacers hw).mp he
    · obtain ⟨low, -, -, rfl⟩ := replacer_eq_some.mp hrep
      rw [toNat_truncateToBitSize hbits]
      exact Nat.mod_lt _ (Nat.two_pow_pos _)
    · rw [← hv, UInt64.toNat_inj] at heq
      obtain ⟨hwide, hfits, hsame, habove, hspecial⟩ :=
        (replacer_self_iff hw htried.bytes hpos hbits hlt).mp (heq ▸ hrep)
      rw [hv] at htried hsame habove
      exact h w hw bigendian operand ⟨htried, hwide, hfits, hsame, habove, hspecial⟩
    · obtain ⟨low, hlow, -, rfl⟩ := replacer_eq_some.mp hrep
      obtain rfl := order_of_operandPart hlow
      refine ⟨w, hw, bigendian, operand, hv ▸ htried.toCompared, ?_⟩
      rw [toNat_truncateToBitSize hbits, toNat_replace hw htried.bytes hlt, hv]

/-- The operand `0xab` of a comparison with `0x34` is suggested in its place. -/
theorem shrinkExpand_byte : 0xab ∈ shrinkExpand 0x34 [(0x34, 0xab)] 8 false ∧
    GoodReplacers 0x34 [(0x34, 0xab)] 8 (shrinkExpand 0x34 [(0x34, 0xab)] 8 false) := by
  refine ⟨mem_shrinkExpand.mpr ⟨⟨1, false⟩, by decide, false, by decide⟩,
    (shrinkExpand_good_iff (by decide) (by decide)).mpr fun w hw bigendian operand h => ?_⟩
  obtain ⟨k, hmem, -⟩ := h.key
  obtain ⟨-, rfl⟩ : k = 0x34 ∧ operand = 0xab := by simpa using hmem
  have hother : ∀ w ∈ hintWidths, ∀ bigendian,
      operandLow 8 w bigendian 0xab % 2 ^ 8 ≠ (0x34 : UInt64).toNat % 2 ^ 8 := by decide +kernel
  exact hother w hw bigendian h.same

/-- `-2` as a 64-bit operand is taken for a new value of the byte `0xfe`. -/
theorem shrinkExpand_same :
    ¬ GoodReplacers 0xfe [(0xfe, 0xfffffffffffffffe)] 8
      (shrinkExpand 0xfe [(0xfe, 0xfffffffffffffffe)] 8 false) := by
  intro h
  have hmem : 0xfe ∈ shrinkExpand 0xfe [(0xfe, 0xfffffffffffffffe)] 8 false :=
    mem_shrinkExpand.mpr ⟨⟨8, false⟩, by decide, false, by decide⟩
  exact h.changed 0xfe hmem (by decide)

end Brf
