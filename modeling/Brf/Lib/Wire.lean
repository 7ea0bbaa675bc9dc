import Mathlib.Data.List.Basic
import Mathlib.Data.Nat.Bitwise
import Mathlib.Data.Nat.Notation

/-! # Streams of 64-bit words

A wire format made of 64-bit words in the byte order of the host and of byte strings padded
to whole words, written into a buffer of bounded size. -/

namespace Brf.Lib.Wire

open List Nat

inductive Endian where
  | little
  | big
deriving DecidableEq

/-! ### Bytes of a word -/

/-- The `k` low bytes of `n`, least significant first. -/
def leBytes : (k n : ℕ) → List UInt8
  | 0, _ => []
  | k + 1, n => UInt8.ofNat n :: leBytes k (n / 256)

def leValue : List UInt8 → ℕ
  | [] => 0
  | b :: bs => b.toNat + 256 * leValue bs

@[simp] theorem length_leBytes (k n : ℕ) : (leBytes k n).length = k := by
  induction k generalizing n with
  | zero => rfl
  | succ k ih => simp [leBytes, ih]

theorem leValue_leBytes (k n : ℕ) (h : n < 256 ^ k) : leValue (leBytes k n) = n := by
  induction k generalizing n with
  | zero =>
    have : n = 0 := by simpa using h
    simp [leBytes, leValue, this]
  | succ k ih =>
    have hdiv : n / 256 < 256 ^ k := by
      rw [div_lt_iff_lt_mul (by decide)]
      simpa [pow_succ] using h
    simp only [leBytes, leValue, ih _ hdiv, UInt8.toNat_ofNat']
    omega

theorem leValue_lt (bs : List UInt8) : leValue bs < 256 ^ bs.length := by
  induction bs with
  | nil => simp [leValue]
  | cons b bs ih =>
    have hb : b.toNat < 256 := b.toNat_lt
    rw [leValue, length_cons]
    omega

theorem leBytes_leValue (bs : List UInt8) : leBytes bs.length (leValue bs) = bs := by
  induction bs with
  | nil => rfl
  | cons b bs ih =>
    have hdiv : (b.toNat + 256 * leValue bs) / 256 = leValue bs := by
      have hb := b.toNat_lt
      omega
    rw [length_cons, leBytes, leValue, hdiv]
    congr 1
    exact UInt8.toNat_inj.mp (by simp)

def putUint64 (e : Endian) (v : UInt64) : List UInt8 :=
  match e with
  | .little => leBytes 8 v.toNat
  | .big => (leBytes 8 v.toNat).reverse

def getUint64 (e : Endian) (bs : List UInt8) : UInt64 :=
  match e with
  | .little => UInt64.ofNat (leValue bs)
  | .big => UInt64.ofNat (leValue bs.reverse)

@[simp] theorem length_putUint64 (e : Endian) (v : UInt64) : (putUint64 e v).length = 8 := by
  cases e <;> simp [putUint64]

@[simp] theorem getUint64_putUint64 (e : Endian) (v : UInt64) :
    getUint64 e (putUint64 e v) = v := by
  have hv : leValue (leBytes 8 v.toNat) = v.toNat := leValue_leBytes 8 _ v.toNat_lt
  cases e <;> simp [putUint64, getUint64, hv]

/-- Two fields of a word that do not overlap. -/
theorem toNat_or_shiftLeft {x y k : UInt64} (hk : k.toNat < 64) (hx : x.toNat < 2 ^ k.toNat)
    (hy : 2 ^ k.toNat * y.toNat < 2 ^ 64) :
    (x ||| y <<< k).toNat = 2 ^ k.toNat * y.toNat + x.toNat := by
  rw [UInt64.toNat_or, UInt64.toNat_shiftLeft, mod_eq_of_lt hk, shiftLeft_eq, mul_comm,
    Nat.mod_eq_of_lt hy, Nat.or_comm, Nat.two_pow_add_eq_or_of_lt hx]

theorem toNat_and_ff (x : UInt64) : (x &&& 0xff).toNat = x.toNat % 256 := by
  exact and_two_pow_sub_one_eq_mod x.toNat 8

theorem and_topBit_eq_zero (x : UInt64) : x &&& 0x8000000000000000 = 0 ↔ x.toNat < 2 ^ 63 := by
  have hbit : (x &&& 0x8000000000000000).toNat = (x.toNat.testBit 63).toNat * 2 ^ 63 := by
    exact and_two_pow x.toNat 63
  have hx := x.toNat_lt
  rw [← UInt64.toNat_inj, hbit, testBit_eq_decide_div_mod_eq]
  by_cases h : x.toNat / 2 ^ 63 % 2 = 1
  · simp only [h, decide_true, Bool.toNat_true]
    change 1 * 2 ^ 63 = 0 ↔ _
    omega
  · simp only [h, decide_false, Bool.toNat_false]
    change 0 * 2 ^ 63 = 0 ↔ _
    omega

/-- What one write puts on the wire. -/
inductive Chunk where
  | word (v : UInt64)
  | blob (bytes : List UInt8)
deriving DecidableEq

/-- Length of `n` bytes padded to whole words. -/
def padded (n : ℕ) : ℕ := (n + 7) / 8 * 8

theorem le_padded (n : ℕ) : n ≤ padded n := by
  unfold padded
  omega

namespace Chunk

def bytes (e : Endian) : Chunk → List UInt8
  | word v => putUint64 e v
  | blob bs => bs ++ List.replicate (padded bs.length - bs.length) 0

def size : Chunk → ℕ
  | word _ => 8
  | blob bs => padded bs.length

@[simp] theorem length_bytes (e : Endian) (c : Chunk) : (c.bytes e).length = c.size := by
  cases c with
  | word v => simp [bytes, size]
  | blob bs =>
    have := le_padded bs.length
    simp only [bytes, size, length_append, length_replicate]
    omega

end Chunk

/-- A buffer that remembers whether a write did not fit. -/
structure Buffer where
  room : ℕ
  out : List UInt8
  eof : Bool

/-- A chunk that does not fit is dropped. -/
def Buffer.write (e : Endian) (b : Buffer) (c : Chunk) : Buffer :=
  if b.room < c.size then { b with eof := true }
  else { b with room := b.room - c.size, out := b.out ++ c.bytes e }

def Buffer.writeAll (e : Endian) (b : Buffer) (cs : List Chunk) : Buffer :=
  cs.foldl (Buffer.write e) b

/-- The bytes of a stream of chunks. -/
def streamBytes (e : Endian) (cs : List Chunk) : List UInt8 := cs.flatMap (Chunk.bytes e)

section

variable (e : Endian)

include e

@[simp] theorem streamBytes_nil : streamBytes e [] = [] := rfl

@[simp] theorem streamBytes_cons (c : Chunk) (cs : List Chunk) :
    streamBytes e (c :: cs) = c.bytes e ++ streamBytes e cs := rfl

variable (cs : List Chunk)

@[simp] theorem streamBytes_append (ds : List Chunk) :
    streamBytes e (cs ++ ds) = streamBytes e cs ++ streamBytes e ds := by
  simp [streamBytes]

theorem length_le_of_blob_mem {cs : List Chunk} {b : List UInt8}
    (h : .blob b ∈ cs) : b.length ≤ (streamBytes e cs).length := by
  obtain ⟨l1, l2, rfl⟩ := append_of_mem h
  have hpad := le_padded b.length
  simp only [streamBytes_append, streamBytes_cons, length_append, Chunk.length_bytes, Chunk.size]
  omega

variable (b : Buffer)

theorem Buffer.writeAll_eof (h : b.eof) : (b.writeAll e cs).eof := by
  induction cs generalizing b with
  | nil => exact h
  | cons c cs ih =>
    apply ih
    unfold Buffer.write
    split
    · rfl
    · exact h

/-- A buffer that reports no overflow holds the whole stream. -/
theorem Buffer.writeAll_out
    (h : (b.writeAll e cs).eof = false) : (b.writeAll e cs).out = b.out ++ streamBytes e cs := by
  induction cs generalizing b with
  | nil => simp [Buffer.writeAll]
  | cons c cs ih =>
    by_cases hroom : b.room < c.size
    · -- the dropped chunk would have left its mark
      have hw : b.write e c = { b with eof := true } := if_pos hroom
      have : (b.writeAll e (c :: cs)).eof := by
        change ((b.write e c).writeAll e cs).eof
        rw [hw]
        exact Buffer.writeAll_eof e cs _ rfl
      rw [this] at h
      exact absurd h (by decide)
    · have hw : b.write e c = { b with room := b.room - c.size, out := b.out ++ c.bytes e } :=
        if_neg hroom
      have hrec := ih (b.write e c) h
      simpa [Buffer.writeAll, hw] using hrec

/-- What a buffer without overflow holds fits its room. -/
theorem Buffer.length_le_room
    (h : (b.writeAll e cs).eof = false) : (streamBytes e cs).length ≤ b.room := by
  induction cs generalizing b with
  | nil => simp
  | cons c cs ih =>
    have hrec := ih (b.write e c) h
    simp only [streamBytes_cons, length_append, Chunk.length_bytes]
    unfold Buffer.write at hrec
    split at hrec
    · rename_i hroom
      have hw : b.write e c = { b with eof := true } := if_pos hroom
      have heof : ((b.write e c).writeAll e cs).eof := by
        rw [hw]
        exact Buffer.writeAll_eof e cs _ rfl
      rw [show ((b.write e c).writeAll e cs).eof = false from h] at heof
      cases heof
    · simp only at hrec
      omega

/-- A buffer with enough room reports no overflow. -/
theorem Buffer.writeAll_fits (h : b.eof = false)
    (hroom : (streamBytes e cs).length ≤ b.room) : (b.writeAll e cs).eof = false := by
  induction cs generalizing b with
  | nil => exact h
  | cons c cs ih =>
    simp only [streamBytes_cons, length_append, Chunk.length_bytes] at hroom
    have hw : b.write e c = { b with room := b.room - c.size, out := b.out ++ c.bytes e } :=
      if_neg (by omega)
    change ((b.write e c).writeAll e cs).eof = false
    rw [hw]
    apply ih
    · exact h
    · simp only
      omega

end

/-- The next word and what follows it. -/
def readWord (e : Endian) (bs : List UInt8) : Option (UInt64 × List UInt8) :=
  if bs.length < 8 then none else some (getUint64 e (bs.take 8), bs.drop 8)

@[simp] theorem readWord_word (e : Endian) (v : UInt64) (rest : List UInt8) :
    readWord e ((Chunk.word v).bytes e ++ rest) = some (v, rest) := by
  have hlen : (putUint64 e v).length = 8 := length_putUint64 e v
  simp [readWord, Chunk.bytes, take_left' hlen, drop_left' hlen]

/-- The next `n` bytes, and what follows them and their padding. -/
def readBlob (n : ℕ) (bs : List UInt8) : Option (List UInt8 × List UInt8) :=
  if bs.length < padded n then none else some (bs.take n, bs.drop (padded n))

@[simp] theorem readBlob_blob (e : Endian) (b rest : List UInt8) :
    readBlob b.length ((Chunk.blob b).bytes e ++ rest) = some (b, rest) := by
  have hlen : ((Chunk.blob b).bytes e).length = padded b.length := Chunk.length_bytes e _
  have htake : ((Chunk.blob b).bytes e ++ rest).take b.length = b := by
    simp [Chunk.bytes, append_assoc]
  rw [readBlob, htake, drop_left' hlen, if_neg]
  rw [length_append]
  omega

end Brf.Lib.Wire
