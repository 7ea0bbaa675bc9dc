import Brf.Lib.LowBits
import Brf.Lib.Wire
import Mathlib.Data.Finset.Sort
import Mathlib.Order.Fin.Basic

/-! # Comparison hints

`shrinkExpand` of `prog/hints.go`: the values that comparisons seen in the kernel suggest in place
of a value of a program. -/

namespace Brf

open Brf.Lib Brf.Lib.Wire

/-- `CompMap`, as the list of what `AddComp` has added. -/
abbrev CompMap := List (UInt64 × UInt64)

def CompMap.operands (m : CompMap) (v : UInt64) : List UInt64 :=
  (m.filter (·.1 == v)).map Prod.snd

def specialInts : List UInt64 :=
  [0, 1, 31, 32, 63, 64, 127, 128, 129, 255, 256, 257, 511, 512, 1023, 1024, 1025, 2047, 2048, 4095,
    4096, 0x7fff, 0x8000, 0x8001, 0xffff, 0x10000, 0x10001, 0x7fffffff, 0x80000000, 0x80000001,
    0xffffffff, 0x100000000, 0x100000001, 0x7fffffffffffffff, 0x8000000000000000,
    0x8000000000000001, 0xffffffffffffffff]

/-- `truncateToBitSize`, for sizes from 1 to 64. -/
def truncateToBitSize (v : UInt64) (bitsize : ℕ) : UInt64 := v &&& lowMask bitsize

/-- `swapInt`: the low `width` bytes in the other order. -/
def swapInt (v : UInt64) (width : ℕ) : UInt64 :=
  if width = 1 then v else UInt64.ofNat (leValue (leBytes width v.toNat).reverse)

/-- A width that is tried; negative ones in the source are those with a sign. -/
structure HintWidth where
  bytes : ℕ
  signed : Bool
deriving DecidableEq

def hintWidths : List HintWidth :=
  [⟨8, false⟩, ⟨4, false⟩, ⟨2, false⟩, ⟨1, false⟩, ⟨4, true⟩, ⟨2, true⟩, ⟨1, true⟩]

namespace HintWidth

/-- How many bits are matched and replaced. -/
def size (w : HintWidth) (bitsize : ℕ) : ℕ :=
  if w.signed then min (8 * w.bytes) bitsize else 8 * w.bytes

/-- The low part of the value that is looked for, if this width is tried at all. -/
def mutant (w : HintWidth) (bitsize : ℕ) (v : UInt64) : Option UInt64 :=
  let size := w.size bitsize
  if w.signed then
    if v &&& UInt64.ofNat (2 ^ (size - 1)) = 0 then none else some (v ||| ~~~lowMask size)
  else some (v &&& lowMask size)

/-- For images small integers, zeros and ones are passed over. -/
def skipsImage (w : HintWidth) (bitsize : ℕ) (mutant : UInt64) : Bool :=
  decide (w.bytes < 4) || mutant == 0 ||
    mutant ||| ~~~lowMask (w.size bitsize) == 0xffffffffffffffff

/-- An integer of this width in the given byte order. -/
def order (w : HintWidth) (bigendian : Bool) (v : UInt64) : UInt64 :=
  if bigendian then swapInt v w.bytes else v

/-- What is looked up in the map. -/
def key (w : HintWidth) (bitsize : ℕ) (image : Bool) (v : UInt64) (bigendian : Bool) :
    Option UInt64 :=
  match w.mutant bitsize v with
  | none => none
  | some m =>
    if image && w.skipsImage bitsize m then none
    else if bigendian && w.bytes == 1 then none
    else some (w.order bigendian m)

/-- The operand in the place of the low part, or nothing if it cannot be meant for it. -/
def operandPart (w : HintWidth) (bitsize : ℕ) (image : Bool) (bigendian : Bool) (newV : UInt64) :
    Option UInt64 :=
  let limit := lowMask bitsize
  let mask := lowMask (w.size bitsize)
  let newHi := newV &&& ~~~mask
  let low := w.order bigendian (newV &&& mask)
  -- the limit is checked for negative numbers
  if limit < newV ∧ ~~~(limit >>> 1) &&& newV ≠ ~~~(limit >>> 1) then none
  else if newHi ≠ 0 ∧ newHi ^^^ ~~~mask ≠ 0 then none
  else if image = false ∧ low ∈ specialInts then none
  else some low

/-- The value with the operand in it, unless nothing changes. -/
def replacer (w : HintWidth) (bitsize : ℕ) (image : Bool) (v : UInt64) (bigendian : Bool)
    (newV : UInt64) : Option UInt64 :=
  match w.operandPart bitsize image bigendian newV with
  | none => none
  | some low =>
    let replacer := (v &&& ~~~lowMask (w.size bitsize)) ||| low
    if replacer = v then none else some (truncateToBitSize replacer bitsize)

/-- The rounds of the loops for one width and byte order. -/
def replacers (w : HintWidth) (comps : CompMap) (bitsize : ℕ) (image : Bool) (v : UInt64)
    (bigendian : Bool) : List UInt64 :=
  match w.key bitsize image v bigendian with
  | none => []
  | some k => (comps.operands k).filterMap (w.replacer bitsize image v bigendian)

end HintWidth

/-- All that `shrinkExpand` puts into its map, for a value that is truncated already. -/
def foundReplacers (v : UInt64) (comps : CompMap) (bitsize : ℕ) (image : Bool) : List UInt64 :=
  hintWidths.flatMap fun w =>
    [false, true].flatMap fun bigendian => w.replacers comps bitsize image v bigendian

def shrinkExpand (v : UInt64) (comps : CompMap) (bitsize : ℕ) (image : Bool) : List UInt64 :=
  (foundReplacers (truncateToBitSize v bitsize) comps bitsize image).toFinset.sort

end Brf
