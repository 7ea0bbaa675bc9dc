import Brf.Model.Alloc
import Mathlib.Tactic

/-! # Memory

The bitmap of the allocator marks the granules of every range that was noted or allocated since
the last bankruptcy. -/

namespace Brf.MemAlloc

open List Option Function Nat

open Brf.Compiler (sub64)

/-- Whether the bit of a granule is set. -/
def busy (ma : MemAlloc) (idx : ℕ) : Bool :=
  (ma.mem (pos idx).1).any fun l0 => (l0 (pos idx).2.1).testBit (idx % 64)

variable {addr : ℕ}

section Bitmap

variable {ma : MemAlloc} {i j idx n size alignment : ℕ}

theorem and_two_pow_ne_zero (w k : ℕ) : (w &&& 2 ^ k != 0) = w.testBit k := by
  rw [and_two_pow]
  cases w.testBit k <;> simp

theorem pos_bit (idx : ℕ) : (pos idx).2.2 = 2 ^ (idx % 64) := by
  simp [pos, mod_mod_of_dvd]

theorem pos_lt (h : idx < 2 ^ 18) : (pos idx).1 < memAllocL1Size := by
  change idx / 4096 < 64
  omega

theorem get_eq (h : idx < 2 ^ 18) : ma.get idx = some (ma.busy idx) := by
  rw [get]
  simp only [pos_lt h, if_true, pos_bit, and_two_pow_ne_zero]
  rfl

theorem set_spec (ma : MemAlloc) (h : idx < 2 ^ 18) : ∃ ma', ma.set idx = some ma' ∧
    ma'.size = ma.size ∧ ∀ j, ma'.busy j = (decide (j = idx) || ma.busy j) := by
  let l0 := (ma.mem (pos idx).1).getD fun _ => 0
  refine ⟨{ ma with mem := update ma.mem (pos idx).1 (some (update l0
    (pos idx).2.1 (l0 (pos idx).2.1 ||| (pos idx).2.2))) }, if_pos (pos_lt h), rfl, fun j => ?_⟩
  have hold (i0 : ℕ) : (ma.mem (pos idx).1).any (fun l0 => (l0 i0).testBit (j % 64)) =
      (l0 i0).testBit (j % 64) := by
    simp only [l0]
    cases ma.mem (pos idx).1 <;> simp
  simp only [busy]
  by_cases h1 : (pos j).1 = (pos idx).1
  · rw [h1, hold, update_self, any_some]
    by_cases h0 : (pos j).2.1 = (pos idx).2.1
    · have hbit : idx % 64 = j % 64 ↔ j = idx :=
        ⟨fun hb => by
          change j / 4096 = idx / 4096 at h1
          change j % 4096 / 64 = idx % 4096 / 64 at h0
          omega, fun h => h ▸ rfl⟩
      rw [h0, update_self, testBit_or, pos_bit, testBit_two_pow, Bool.or_comm]
      simp only [hbit]
    · have hne : j ≠ idx := fun h => h0 (h ▸ rfl)
      simp [update_of_ne h0, hne]
  · have hne : j ≠ idx := fun h => h1 (h ▸ rfl)
    simp [update_of_ne h1, hne]

theorem noteAlloc_spec (ma : MemAlloc) (h : addr + size ≤ 2 ^ 24) :
    ∃ ma', ma.noteAlloc addr size = some ma' ∧ ma'.size = ma.size ∧
      (∀ j, ma.busy j → ma'.busy j) ∧ ∀ x, addr ≤ x → x < addr + size → ma'.busy (x / 64) := by
  have hrun (k : ℕ) (hk : addr / 64 + k ≤ 2 ^ 18) : ∃ ma',
      (List.range k).foldlM (fun ma i => ma.set (addr / 64 + i)) ma = some ma' ∧
      ma'.size = ma.size ∧ ∀ j, ma'.busy j ↔ ma.busy j ∨ addr / 64 ≤ j ∧ j < addr / 64 + k := by
    induction k with
    | zero => exact ⟨ma, rfl, rfl, fun j => ⟨.inl, fun h => h.resolve_right (by omega)⟩⟩
    | succ k ih =>
      obtain ⟨ma1, hrun, hsize, hbusy⟩ := ih (by omega)
      obtain ⟨ma2, hset, hsize2, hbusy2⟩ := ma1.set_spec (show addr / 64 + k < 2 ^ 18 by omega)
      refine ⟨ma2, ?_, hsize2.trans hsize, fun j => ?_⟩
      · rw [range_succ, foldlM_append, hrun]
        simpa using hset
      · grind
  obtain ⟨ma', hnote, hsize, hbusy⟩ := hrun ((addr + size + 64 - 1) / 64 - addr / 64) (by omega)
  refine ⟨ma', hnote, hsize, fun j hj => (hbusy j).mpr (.inl hj), fun x hx hlt => ?_⟩
  exact (hbusy _).mpr (.inr (by omega))

def FreeRun (ma : MemAlloc) (start size : ℕ) : Prop :=
  ∀ i < size, ma.get (start + i) = some false

end Bitmap

/-- The number of granules that are allocated for a size. -/
def granulesOf (size : ℕ) : ℕ := (max size 1 + 64 - 1) / 64

def Disjoint (r1 r2 : ℕ × ℕ) : Prop :=
  ∀ x, r1.1 ≤ x → x < r1.1 + r1.2 → r2.1 ≤ x → ¬ x < r2.1 + r2.2

/-- The bitmap covers the ranges. -/
structure Tracks (total : ℕ) (ma : MemAlloc) (live : List (ℕ × ℕ)) : Prop where
  bound : total ≤ 2 ^ 24
  whole : total % 2 ^ 18 = 0
  size : ma.size = total / 64
  covers : ∀ r ∈ live, ∀ x, r.1 ≤ x → x < r.1 + r.2 → ma.busy (x / 64)

section Allocation

variable {total size k : ℕ} {ma ma' : MemAlloc} {live : List (ℕ × ℕ)}

theorem Tracks.new (h : newMemAlloc total = some ma) : Tracks total ma [] := by
  obtain ⟨hok, h⟩ := ite_none_left_eq_some.mp h
  cases h
  simp only [memAllocMaxMem, memAllocL0Mem, memAllocL0Size, memAllocGranule, bitsPerUint64] at hok
  exact ⟨by omega, by omega, rfl, by simp⟩

theorem Tracks.note (h : Tracks total ma live) (hin : addr + size ≤ total) :
    ∃ ma', ma.noteAlloc addr size = some ma' ∧ Tracks total ma' ((addr, size) :: live) := by
  have hmax := h.bound
  obtain ⟨ma', hnote, hsize, hkeep, hbusy⟩ := ma.noteAlloc_spec (show addr + size ≤ 2 ^ 24 by omega)
  refine ⟨ma', hnote, hmax, h.whole, hsize.trans h.size, fun r hr => ?_⟩
  rcases mem_cons.mp hr with rfl | hr
  · exact hbusy
  · exact fun x hx hlt => hkeep _ (h.covers r hr x hx hlt)

/-- The search of `alloc`. -/
def searchFor (ma : MemAlloc) (size k : ℕ) : Option (Option ℕ) :=
  let alignment := (2 ^ k + 64 - 1) / 64
  ma.search (granulesOf size) alignment (sub64 ma.size (granulesOf size) / alignment + 1) 0

theorem alloc_succ (ma : MemAlloc) (fuel size k : ℕ) : ma.alloc (fuel + 1) size (2 ^ k) =
    (ma.searchFor size k).bind fun
      | some start => (ma.noteAlloc (start * 64) (max size 1)).bind fun ma' =>
        some (start * 64, ma', false)
      | none => (alloc fuel ma.bankruptcy (max size 1) (2 ^ k)).bind fun r =>
        some (r.1, r.2.1, true) := by
  have hsize : (if size = 0 then 1 else size) = max size 1 := by
    split <;> omega
  have halign : (if 2 ^ k = 0 then 1 else 2 ^ k) = 2 ^ k := if_neg (Nat.two_pow_pos k).ne'
  rw [alloc]
  simp only [hsize, halign]
  rfl

theorem Tracks.found (h : Tracks total ma live) {start : ℕ}
    (hfound : ma.searchFor size k = some (some start))
    (hfree : ma.FreeRun start (granulesOf size)) (hin : start + granulesOf size ≤ ma.size) :
    ∃ ma', (∀ fuel, ma.alloc (fuel + 1) size (2 ^ k) = some (start * 64, ma', false)) ∧
      start * 64 + size ≤ total ∧ (∀ old ∈ live, Disjoint (start * 64, size) old) ∧
      Tracks total ma' ((start * 64, size) :: live) := by
  have hmax := h.bound
  have htotal := h.size
  have hgran : granulesOf size = (max size 1 + 64 - 1) / 64 := rfl
  obtain ⟨ma', hnote, htracks⟩ := h.note (show start * 64 + max size 1 ≤ total by omega)
  refine ⟨ma', fun fuel => ?_, by omega, fun old hold x hx hlt hx' hlt' => ?_, hmax, h.whole,
    htracks.size, fun r hr => ?_⟩
  · simp only [alloc_succ, hfound, bind_some, hnote]
  · -- the granule of a common byte would be marked and free
    have hbusy := h.covers old hold x hx' hlt'
    have hget := hfree (x / 64 - start) (by simp only at hx hlt; omega)
    rw [Nat.add_sub_cancel' (by simp only at hx; omega), get_eq (by simp only at hlt; omega),
      hbusy] at hget
    cases hget
  · rcases mem_cons.mp hr with rfl | hr
    · exact fun x hx hlt => htracks.covers _ (.head _) x hx (by simp only at hlt ⊢; omega)
    · exact htracks.covers r (.tail _ hr)

end Allocation

end Brf.MemAlloc
