import Brf.Model.ConstArray

/-! # Strings in the place of constants

Constants without a suffix are written out in the little-endian order, whatever the target. -/

namespace Brf.ConstArray

open Brf.Lib.Wire List

/-- The string in the place of `array[const[val, t], n]` has the bytes that the executor writes
for a struct of `n` such constants. -/
def WrittenAlike (e : Endian) (t : IntName) (val n : UInt64) : Prop :=
  ∀ base isPad elem, ∃ bytes,
    typeArrayGen base (.const (genIntCommon t) val isPad) elem (some (n, none)) =
      .buffer { base with typeSize := some (n * .ofNat t.size) } .string 0 0 [bytes] true ∧
    bytes.length = n.toNat * t.size ∧ ∀ mem, mem.length = n.toNat * t.size →
      copyinConsts e (replicate n.toNat (genIntCommon t, val)) mem = some bytes

/-- What a constant is written out as. -/
def foldedBytes (t : IntName) (val : UInt64) : List UInt8 :=
  store (if t.format = .bigEndian then .big else .little) t.size val

/-- What the executor writes for it. -/
def writtenBytes (e : Endian) (t : IntName) (val : UInt64) : List UInt8 :=
  store (if t.format = .bigEndian then .big else e) t.size val

variable (e : Endian)

@[simp] theorem length_store (size : ℕ) (v : UInt64) : (store e size v).length = size := by
  cases e <;> simp [store]

theorem typeArrayGen_const (t : IntName) (val n : UInt64) (base : VarTypeCommon) (isPad : Bool)
    (elem : Ref) : typeArrayGen base (.const (genIntCommon t) val isPad) elem (some (n, none)) =
      .buffer { base with typeSize := some (n * .ofNat t.size) } .string 0 0
        [(replicate n.toNat (foldedBytes t val)).flatten] true := by
  rcases t with _ | (_ | _) | (_ | _) | (_ | _) <;>
    simp [typeArrayGen, genIntCommon, IntName.format, IntName.size, foldedBytes, store, putUint64,
      leBytes]

theorem leBytes_ofNat_leValue (bs : List UInt8) (h : bs.length ≤ 8) :
    leBytes bs.length (UInt64.ofNat (leValue bs)).toNat = bs := by
  have hlt : leValue bs < 2 ^ 64 :=
    lt_of_lt_of_le (leValue_lt bs) (Nat.pow_le_pow_right (by decide) h)
  rw [UInt64.toNat_ofNat', Nat.mod_eq_of_lt hlt, leBytes_leValue]

theorem swap_bigEndian (size : ℕ) (hsize : size ∈ [2, 4, 8]) (v : UInt64) :
    (swap e v size .bigEndian).map (store e size) = some (store .big size v) := by
  have hle : size ≤ 8 := by
    simp only [mem_cons, not_mem_nil, or_false] at hsize
    omega
  have hlittle := leBytes_ofNat_leValue (leBytes size v.toNat) (by simpa using hle)
  have hbig := leBytes_ofNat_leValue (leBytes size v.toNat).reverse (by simpa using hle)
  rw [length_leBytes] at hlittle
  rw [length_reverse, length_leBytes] at hbig
  simp only [swap, if_pos hsize, Option.map_some]
  cases e with
  | little => exact congrArg some hbig
  | big => exact congrArg (fun bs => some bs.reverse) hlittle

/-- What the executor stores for one element. -/
theorem copyin_const (t : IntName) (val : UInt64) (old : List UInt8) :
    copyin e old val t.size t.format 0 0 = some (writtenBytes e t val) := by
  rcases t with _ | (_ | _) | (_ | _) | (_ | _)
  · rfl
  · rfl
  · exact swap_bigEndian e 2 (by decide) val
  · rfl
  · exact swap_bigEndian e 4 (by decide) val
  · rfl
  · exact swap_bigEndian e 8 (by decide) val

theorem copyinConsts_replicate (t : IntName) (val : UInt64) (n : ℕ) {mem : List UInt8}
    (h : mem.length = n * t.size) : copyinConsts e (replicate n (genIntCommon t, val)) mem =
    some (replicate n (writtenBytes e t val)).flatten := by
  induction n generalizing mem with
  | zero =>
    rw [Nat.zero_mul, length_eq_zero_iff] at h
    simp [copyinConsts, h]
  | succ n ih =>
    have hsize : (genIntCommon t).typeSize.toNat = t.size := by
      rcases t with _ | _ | _ | _ <;> rfl
    have hrest : (mem.drop t.size).length = n * t.size := by
      rw [length_drop, h, Nat.succ_mul, Nat.add_sub_cancel]
    change (copyin e mem val (genIntCommon t).typeSize.toNat t.format 0 0).bind _ = _
    rw [hsize, copyin_const, ih hrest]
    rfl

theorem flatten_replicate_inj {α : Type} {n : ℕ} {as bs : List α} (h : as.length = bs.length) :
    (replicate n as).flatten = (replicate n bs).flatten ↔ n = 0 ∨ as = bs := by
  cases n with
  | zero => simp
  | succ n =>
    refine ⟨fun heq => .inr (append_inj heq h).1, ?_⟩
    rintro (hn | rfl)
    · cases hn
    · rfl

/-- Folding keeps what is written unless a native value that is no palindrome is stored on a
big-endian target. -/
theorem writtenAlike_iff (e : Endian) (t : IntName) (val n : UInt64) : WrittenAlike e t val n ↔
    n = 0 ∨ e = .little ∨ t.format = .bigEndian ∨
      (leBytes t.size val.toNat).reverse = leBytes t.size val.toNat := by
  have hlen : (replicate n.toNat (foldedBytes t val)).flatten.length = n.toNat * t.size := by
    simp [foldedBytes]
  have halike : WrittenAlike e t val n ↔ (replicate n.toNat (writtenBytes e t val)).flatten =
      (replicate n.toNat (foldedBytes t val)).flatten := by
    constructor
    · intro h
      obtain ⟨bytes, hgen, -, hmem⟩ := h ⟨"", none, false⟩ false 0
      rw [typeArrayGen_const] at hgen
      cases hgen
      have := hmem _ hlen
      rw [copyinConsts_replicate e t val _ hlen] at this
      exact Option.some.inj this
    · intro heq base isPad elem
      refine ⟨_, typeArrayGen_const t val n base isPad elem, hlen, fun mem hmem => ?_⟩
      rw [copyinConsts_replicate e t val _ hmem, heq]
  rw [halike, flatten_replicate_inj (by simp [writtenBytes, foldedBytes])]
  refine or_congr (by rw [← UInt64.toNat_inj]; rfl) ?_
  cases hformat : decide (t.format = .bigEndian) <;> cases e <;>
    simp_all [writtenBytes, foldedBytes, store]

/-- A native `int16` is folded in the wrong byte order. -/
theorem int16_written_reversed : ¬ WrittenAlike .big (.int16 false) 0x1234 1 := by
  intro h
  obtain ⟨bytes, hgen, -, hmem⟩ := h ⟨"array", none, false⟩ false 0
  cases hgen
  exact absurd (hmem [0, 0] rfl) (by decide)

end Brf.ConstArray
