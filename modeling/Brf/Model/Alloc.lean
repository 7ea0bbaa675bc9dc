import Brf.Lib.Gen
import Brf.Model.Layout

/-! # Allocators of memory and pages

`prog/alloc.go`. `none` is a panic, also that of an index out of range. -/

namespace Brf

open Brf.Lib Gen
open Brf.Compiler (w64 sub64)

/-! ### Memory -/

abbrev memAllocGranule : ℕ := 64
abbrev memAllocMaxMem : ℕ := 16 * 2 ^ 20
abbrev memAllocL0Size : ℕ := 64
abbrev bitsPerUint64 : ℕ := 64
abbrev memAllocL0Mem : ℕ := memAllocL0Size * memAllocGranule * bitsPerUint64
abbrev memAllocL1Size : ℕ := memAllocMaxMem / memAllocL0Mem

/-- `memAlloc`; `none` in `mem` is a nil pointer. -/
structure MemAlloc where
  size : ℕ
  mem : ℕ → Option (ℕ → ℕ)

namespace MemAlloc

variable (ma : MemAlloc)

def newMemAlloc (totalMemSize : ℕ) : Option MemAlloc :=
  if totalMemSize > memAllocMaxMem ∨ totalMemSize % memAllocL0Mem ≠ 0 then none
  else some ⟨totalMemSize / memAllocGranule, fun i1 => if i1 = 0 then some fun _ => 0 else none⟩

def pos (idx : ℕ) : ℕ × ℕ × ℕ :=
  let r1 := idx % (memAllocL0Size * bitsPerUint64)
  (idx / (memAllocL0Size * bitsPerUint64), r1 / bitsPerUint64, 2 ^ (r1 % bitsPerUint64))

def set (idx : ℕ) : Option MemAlloc :=
  let (i1, i0, bit) := pos idx
  if i1 < memAllocL1Size then
    let l0 := (ma.mem i1).getD fun _ => 0
    some { ma with mem := Function.update ma.mem i1 (some (Function.update l0 i0 (l0 i0 ||| bit))) }
  else none

def get (idx : ℕ) : Option Bool :=
  let (i1, i0, bit) := pos idx
  if i1 < memAllocL1Size then some ((ma.mem i1).any fun l0 => l0 i0 &&& bit != 0) else none

def noteAlloc (addr0 size0 : ℕ) : Option MemAlloc :=
  let addr := addr0 / memAllocGranule
  let size := (addr0 + size0 + memAllocGranule - 1) / memAllocGranule - addr
  (List.range size).foldlM (fun ma i => ma.set (addr + i)) ma

def bankruptcy : MemAlloc :=
  { ma with mem := fun i1 =>
      if i1 < ma.size / (memAllocL0Size * bitsPerUint64) then (ma.mem i1).map fun _ _ => 0
      else ma.mem i1 }

/-- The loop of `alloc` over the `n` granules from `idx` on. -/
def empty : (n idx : ℕ) → Option Bool
  | 0, _ => some true
  | n + 1, idx => do
    if ← ma.get idx then some false else empty n (idx + 1)

/-- The loop of `alloc` over the starts, with `n` rounds to go. -/
def search (size alignment : ℕ) : (n start : ℕ) → Option (Option ℕ)
  | 0, _ => some none
  | n + 1, start => do
    if ← ma.empty size start then some (some start) else search size alignment n (start + alignment)

/-- `alloc`, with whether it called `bankruptcy`; the fuel bounds the recursion. -/
def alloc : (fuel : ℕ) → MemAlloc → (size0 alignment0 : ℕ) → Option (ℕ × MemAlloc × Bool)
  | 0, _, _, _ => none
  | fuel + 1, ma, size0, alignment0 => do
    let size0 := if size0 = 0 then 1 else size0
    let alignment0 := if alignment0 = 0 then 1 else alignment0
    let size := (size0 + memAllocGranule - 1) / memAllocGranule
    let alignment := (alignment0 + memAllocGranule - 1) / memAllocGranule
    let stop := sub64 ma.size size
    match ← ma.search size alignment (stop / alignment + 1) 0 with
    | some start =>
      let ma' ← ma.noteAlloc (start * memAllocGranule) size0
      some (start * memAllocGranule, ma', false)
    | none =>
      let (addr, ma', _) ← alloc fuel ma.bankruptcy size0 alignment0
      some (addr, ma', true)

end MemAlloc

/-! ### Pages -/

/-- `vmaAlloc`; its map `m` has the pages in `used`. -/
structure VmaAlloc where
  numPages : ℕ
  used : List ℕ

namespace VmaAlloc

variable (va : VmaAlloc)

def newVmaAlloc (totalPages : ℕ) : VmaAlloc := ⟨totalPages, []⟩

def noteAlloc (page size : ℕ) : VmaAlloc :=
  (List.range' page (w64 (page + size) - page)).foldl
    (fun va i => if i ∈ va.used then va else { va with used := va.used ++ [i] }) va

/-- `r.rand(int(n))`; the conversion makes large numbers negative, and drawing then panics. -/
def rand (n : ℕ) : Gen ℕ := intn (if n < 2 ^ 63 then n else 0)

/-- A page among the first or the last ones. -/
def atEnds (size : ℕ) : Gen ℕ := do
  let page ← rand 4
  let low ← nOutOf 1 100
  pure (if low then page else sub64 (sub64 va.numPages page) size)

/-- A page in reach of one that is used. -/
def nearUsed (size : ℕ) : Gen ℕ := do
  let page ← pick va.used
  let back ← (if size > 1 then nOutOf 1 2 else pure false)
  let off ← (if back then rand size else pure 0)
  let page := page - min off page
  pure (if w64 (page + size) > va.numPages then va.numPages - size else page)

def alloc (size : ℕ) : Gen (ℕ × VmaAlloc) :=
  if size > va.numPages then failure
  else do
    let ends ← (if va.used = [] then pure true else nOutOf 1 5)
    let page ← (if ends then va.atEnds size else va.nearUsed size)
    if page ≥ va.numPages ∨ size > va.numPages ∨ w64 (page + size) > va.numPages then failure
    else pure (page, va.noteAlloc page size)

end VmaAlloc

def randPageCount (numPages : ℕ) : Gen ℕ := do
  let few ← nOutOf 100 106
  if few then (· + 1) <$> intn 4
  else
    let some ← nOutOf 5 6
    if some then (· + 1) <$> intn 20
    else (fun k => w64 ((k + 1) * numPages) / 4) <$> intn 3

/-- `typeArgSizeRange.CheckConsts` finds no error in the range. -/
def sizeRangeAccepted (value : ℕ) (colon : Option ℕ) : Bool :=
  let stop := colon.getD value
  !(value > stop || value > 1000000 || stop > 1000000)

/-- The `RangeBegin` and `RangeEnd` that `typeVMA.Gen` gives the type, without arguments or with a
size range. -/
def vmaRange (arg : Option (ℕ × Option ℕ)) : ℕ × ℕ :=
  match arg with
  | none => (0, 0)
  | some (value, colon) => (value, colon.getD value)

def vmaPageCount (numPages rangeBegin rangeEnd : ℕ) : Gen ℕ := do
  let npages ← randPageCount numPages
  if rangeBegin ≠ 0 ∨ rangeEnd ≠ 0 then (rangeBegin + ·) <$> intn (rangeEnd - rangeBegin + 1)
  else pure npages

/-- `VmaType.generate`: the page, the number of pages and the allocator after it. -/
def VmaAlloc.generate (va : VmaAlloc) (rangeBegin rangeEnd : ℕ) : Gen (ℕ × ℕ × VmaAlloc) := do
  let npages ← vmaPageCount va.numPages rangeBegin rangeEnd
  (fun (page, va) => (page, npages, va)) <$> va.alloc npages

end Brf
