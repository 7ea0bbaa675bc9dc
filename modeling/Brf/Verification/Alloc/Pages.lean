import Brf.Lib.Ensures
import Brf.Lib.Support
import Brf.Model.Alloc
import Mathlib.Tactic

/-! # Pages

Which requests for pages are always met, in every state the allocator of pages can be in. -/

namespace Brf.VmaAlloc

open Brf.Lib Gen List
open Brf.Compiler (w64 sub64)

/-- The allocator after some requests that were met and some allocations in bounds. -/
inductive Reachable (n : ℕ) : VmaAlloc → Prop
  | new : Reachable n (newVmaAlloc n)
  | note {va page size} (hva : Reachable n va) (hin : page + size ≤ n) :
      Reachable n (va.noteAlloc page size)
  | alloc {va va' page size s s'} (hva : Reachable n va) (hsize : 1 ≤ size ∧ size ≤ n)
      (hrun : va.alloc size s = some ((page, va'), s')) : Reachable n va'

/-- The used pages are among the `n` pages. -/
structure InBounds (n : ℕ) (va : VmaAlloc) : Prop where
  pages : va.numPages = n
  used : ∀ i ∈ va.used, i < n

section Requests

variable {n size page : ℕ} {va : VmaAlloc}

theorem InBounds.noteAlloc (h : InBounds n va) (hin : w64 (page + size) ≤ n) :
    InBounds n (va.noteAlloc page size) := by
  refine List.foldlRecOn _ _ h fun va hva i hi => ?_
  obtain ⟨hpage, hlt⟩ := mem_range'_1.mp hi
  split
  · exact hva
  · refine ⟨hva.pages, fun j hj => ?_⟩
    rcases mem_append.mp hj with hj | hj
    · exact hva.used j hj
    · rw [mem_singleton.mp hj]
      omega

theorem InBounds.alloc (h : InBounds n va) (size : ℕ) :
    Ensures (va.alloc size) fun r => InBounds n r.2 := by
  refine ensures_ite (fun _ => ensures_failure) fun _ => ?_
  refine ensures_bind (.of_forall fun ends => ?_)
  refine ensures_bind (.of_forall fun page => ?_)
  refine ensures_ite (fun _ => ensures_failure) fun hin => ensures_pure.mpr (h.noteAlloc ?_)
  rw [h.pages] at hin
  omega

theorem Reachable.inBounds (h : Reachable n va) : InBounds n va := by
  induction h with
  | new => exact ⟨rfl, by simp [newVmaAlloc]⟩
  | note _ hin ih => exact ih.noteAlloc ((Nat.mod_le _ _).trans hin)
  | alloc _ _ hrun ih => exact ih.alloc _ _ _ _ hrun

theorem sat_rand (h : 0 < size) (hsmall : size < 2 ^ 63) : Sat (rand size) (· < size) := by
  rw [rand, if_pos hsmall]
  exact sat_intn h

theorem InBounds.sat_alloc (h : InBounds n va) (hpos : 1 ≤ size) (hfree : size + 3 ≤ n)
    (hsmall : n + size ≤ 2 ^ 64) : Sat (va.alloc size) fun r => r.1 + size ≤ n := by
  obtain ⟨rfl, hused⟩ := h
  have hends : Sat (va.atEnds size) (· + size ≤ va.numPages) := by
    refine (sat_rand (by decide) (by decide)).bind fun page hpage => ?_
    refine (sat_nOutOf 1 (by decide)).bind fun low _ => sat_pure ?_
    simp only [sub64]
    split_ifs <;> omega
  have hnear (hne : va.used ≠ []) : Sat (va.nearUsed size) (· + size ≤ va.numPages) := by
    refine (sat_pick hne).bind fun page hpage => ?_
    have hback : Sat (if size > 1 then nOutOf 1 2 else pure false) fun _ => True :=
      sat_ite (fun _ => sat_nOutOf 1 (by decide)) fun _ => sat_pure trivial
    refine hback.bind fun back _ => ?_
    have hoff : Sat (if back then rand size else pure 0) fun _ => True :=
      sat_ite (fun _ => (sat_rand hpos (by omega)).mono fun _ _ => trivial) fun _ => sat_pure trivial
    refine hoff.bind fun off _ => sat_pure ?_
    have hlt := hused page hpage
    by_cases hend : w64 (page - min off page + size) > va.numPages
    · simp only [hend, if_true]
      omega
    · simp only [hend, if_false]
      simp only [w64] at hend
      omega
  refine sat_ite (fun hlarge => absurd hlarge (by omega)) fun _ => ?_
  have hkind : Sat (if va.used = [] then pure true else nOutOf 1 5) fun ends =>
      ends = false → va.used ≠ [] :=
    sat_ite (fun _ => sat_pure nofun) fun hne => (sat_nOutOf 1 (by decide)).mono fun _ _ _ => hne
  refine hkind.bind fun ends hne => ?_
  have hpage : Sat (if ends then va.atEnds size else va.nearUsed size) (· + size ≤ va.numPages) :=
    sat_ite (fun _ => hends) fun hfalse => hnear (hne (eq_false_of_ne_true hfalse))
  refine hpage.bind fun page hin => sat_ite (fun hbad => ?_) fun _ => sat_pure hin
  simp only [w64] at hbad
  omega

/-- The requests that are always met. -/
def Fits (n size : ℕ) : Prop := 1 ≤ size ∧ size + 3 ≤ n ∧ n + size ≤ 2 ^ 64

theorem met_of_sat {ends : Bool} (h : Sat (va.alloc size) fun r => r.1 + size ≤ n)
    (hends : Yields (if va.used = [] then pure true else nOutOf 1 5) ends)
    (hpage : Yields (if ends then va.atEnds size else va.nearUsed size) page) :
    page < va.numPages ∧ page + size ≤ n := by
  obtain ⟨-, h⟩ := h.of_ite_failure
  obtain ⟨hbad, hin⟩ := (hpage.sat_of_bind (hends.sat_of_bind h)).of_ite_failure
  exact ⟨by omega, hin.of_pure⟩

variable {k : ℕ}

theorem yields_atEnds (va : VmaAlloc) (size : ℕ) (low : Bool) (hk : k < 4) :
    Yields (va.atEnds size) (if low then k else sub64 (sub64 va.numPages k) size) := by
  have hlow : Yields (nOutOf 1 100) low := by
    cases low with
    | true => exact yields_nOutOf (k := 0) (by decide)
    | false => exact yields_nOutOf (k := 1) (by decide)
  exact (yields_intn hk).bind (hlow.bind (yields_pure _))

theorem yields_nearUsed (hsize : 1 < size) (hpage : page ∈ va.used)
    (hin : w64 (page + size) ≤ va.numPages) : Yields (va.nearUsed size) page := by
  refine (yields_pick hpage).bind ?_
  rw [if_pos hsize]
  refine (yields_nOutOf (k := 1) (by decide)).bind ((yields_pure 0).bind ?_)
  simpa [Nat.not_lt.mpr hin] using yields_pure page

theorem sat_alloc_iff (hn : n < 2 ^ 64) (size : ℕ) :
    (∀ va, Reachable n va → Sat (va.alloc size) fun r => r.1 + size ≤ n) ↔ Fits n size := by
  refine ⟨fun h => ?_, fun ⟨hpos, hfree, hsmall⟩ va hva => hva.inBounds.sat_alloc hpos hfree hsmall⟩
  -- nothing is used yet, and the page is the third or the last but `size`
  have hnew := fun low k hk => met_of_sat (h _ .new) (yields_pure true)
    (yields_atEnds (newVmaAlloc n) size low (k := k) hk)
  have hthree := (hnew true 3 (by decide)).2
  have hlast := (hnew false 0 (by decide)).1
  simp only [sub64, newVmaAlloc, if_true, Bool.false_eq_true, if_false] at hthree hlast
  refine ⟨by omega, by omega, ?_⟩
  by_contra hlarge
  -- the last page is used, and the sum that is compared wraps around
  have hnote : (newVmaAlloc n).noteAlloc (n - 1) 1 = ⟨n, [n - 1]⟩ := by
    have hone : w64 (n - 1 + 1) - (n - 1) = 1 := by
      unfold w64
      omega
    rw [noteAlloc, hone]
    rfl
  have hnear : Yields (VmaAlloc.nearUsed ⟨n, [n - 1]⟩ size) (n - 1) := by
    refine yields_nearUsed (by omega) (mem_singleton.mpr rfl) ?_
    change (n - 1 + size) % 2 ^ 64 ≤ n
    omega
  have hused := h _ (.note .new (show n - 1 + 1 ≤ n by omega))
  rw [hnote] at hused
  have := (met_of_sat hused (yields_nOutOf (k := 1) (by decide)) hnear).2
  omega

/-- The numbers of pages that may be requested for an argument of a type with the range. -/
def PageCount (n rangeBegin rangeEnd k : ℕ) : Prop :=
  if rangeBegin ≠ 0 ∨ rangeEnd ≠ 0 then rangeBegin ≤ k ∧ k ≤ rangeEnd
  else (1 ≤ k ∧ k ≤ 20) ∨ ∃ i < 3, k = w64 ((i + 1) * n) / 4

theorem sat_randPageCount (n : ℕ) : Sat (randPageCount n) (PageCount n 0 0) := by
  refine (sat_nOutOf 100 (by decide)).bind fun few _ => sat_ite (fun _ => ?_) fun _ => ?_
  · exact (sat_intn (by decide)).map fun k hk => .inl (by omega)
  refine (sat_nOutOf 5 (by decide)).bind fun some _ => sat_ite (fun _ => ?_) fun _ => ?_
  · exact (sat_intn (by decide)).map fun k hk => .inl (by omega)
  · exact (sat_intn (by decide)).map fun k hk => .inr ⟨k, hk, rfl⟩

theorem yields_randPageCount (h : PageCount n 0 0 k) : Yields (randPageCount n) k := by
  have hmany : Yields (nOutOf 100 106) false := yields_nOutOf (k := 100) (by decide)
  refine hmany.bind ?_
  rcases h with ⟨hpos, hle⟩ | ⟨i, hi, rfl⟩
  · have hsome : Yields (nOutOf 5 6) true := yields_nOutOf (k := 0) (by decide)
    have hk := (yields_intn (show k - 1 < 20 by omega)).map (· + 1)
    rw [Nat.sub_add_cancel hpos] at hk
    exact hsome.bind hk
  · have hnone : Yields (nOutOf 5 6) false := yields_nOutOf (k := 5) (by decide)
    exact hnone.bind ((yields_intn hi).map fun k => w64 ((k + 1) * n) / 4)

section Range

variable {rangeBegin rangeEnd : ℕ}

theorem sat_vmaPageCount (n : ℕ) (hle : rangeBegin ≤ rangeEnd) :
    Sat (vmaPageCount n rangeBegin rangeEnd) (PageCount n rangeBegin rangeEnd) := by
  refine (sat_randPageCount n).bind fun k hk => ?_
  by_cases hrange : rangeBegin ≠ 0 ∨ rangeEnd ≠ 0
  · rw [if_pos hrange]
    refine (sat_intn (Nat.succ_pos _)).map fun k hk => ?_
    rw [PageCount, if_pos hrange]
    omega
  · obtain ⟨rfl, rfl⟩ : rangeBegin = 0 ∧ rangeEnd = 0 := by omega
    exact sat_pure hk

theorem yields_vmaPageCount (h : PageCount n rangeBegin rangeEnd k) :
    Yields (vmaPageCount n rangeBegin rangeEnd) k := by
  by_cases hrange : rangeBegin ≠ 0 ∨ rangeEnd ≠ 0
  · simp only [PageCount, hrange, if_true] at h
    refine (yields_randPageCount (k := 1) (.inl (by decide))).bind ?_
    have hk := (yields_intn (show k - rangeBegin < rangeEnd - rangeBegin + 1 by omega)).map
      (rangeBegin + ·)
    rw [if_pos hrange]
    rwa [Nat.add_sub_cancel' h.1] at hk
  · simp only [PageCount, hrange, if_false] at h
    refine (yields_randPageCount h).bind ?_
    rw [if_neg hrange]
    exact yields_pure k

theorem sat_generate_iff (hn : n < 2 ^ 64) (hle : rangeBegin ≤ rangeEnd) :
    (∀ va, Reachable n va → Sat (va.generate rangeBegin rangeEnd) fun r => r.1 + r.2.1 ≤ n) ↔
      ∀ k, PageCount n rangeBegin rangeEnd k → Fits n k := by
  constructor
  · intro h k hk
    refine (sat_alloc_iff hn k).mp fun va hva => ?_
    rw [← hva.inBounds.pages] at hk
    exact ((yields_vmaPageCount hk).sat_of_bind (h va hva)).of_map
  · intro h va hva
    refine (sat_vmaPageCount va.numPages hle).bind fun k hk => ?_
    rw [hva.inBounds.pages] at hk
    exact ((sat_alloc_iff hn k).mpr (h k hk) va hva).map fun _ hr => hr

end Range

end Requests

/-- The requests that are always met, and the types whose arguments can always be generated. -/
theorem requests_met_iff {n : ℕ} (hn : n < 2 ^ 64) :
    (∀ size, 1 ≤ size → size ≤ n →
      ((∀ va, Reachable n va → Sat (va.alloc size) fun r => r.1 + size ≤ n) ↔
        size + 3 ≤ n ∧ n + size ≤ 2 ^ 64)) ∧
    ∀ arg, (∀ r ∈ arg, sizeRangeAccepted r.1 r.2) →
      ((∀ va, Reachable n va →
          Sat (va.generate (vmaRange arg).1 (vmaRange arg).2) fun r => r.1 + r.2.1 ≤ n) ↔
        ∀ k, PageCount n (vmaRange arg).1 (vmaRange arg).2 k →
          1 ≤ k ∧ k + 3 ≤ n ∧ n + k ≤ 2 ^ 64) := by
  refine ⟨fun size hpos _ => ?_, fun arg harg => sat_generate_iff hn ?_⟩
  · rw [sat_alloc_iff hn, Fits, and_iff_right hpos]
  · cases arg with
    | none => exact Nat.le_refl 0
    | some r =>
      have hr := harg r rfl
      simp only [sizeRangeAccepted, Bool.not_eq_true', Bool.or_eq_false_iff,
        decide_eq_false_iff_not] at hr
      exact Nat.le_of_not_lt hr.1.1

theorem fourPages_met : 4096 < 2 ^ 64 ∧ sizeRangeAccepted 4 none ∧
    ∀ va, Reachable 4096 va → Sat (va.alloc 4) (fun r => r.1 + 4 ≤ 4096) ∧
      Sat (va.generate 4 4) fun r => r.1 + r.2.1 ≤ 4096 := by
  obtain ⟨halloc, hgenerate⟩ := requests_met_iff (n := 4096) (by decide)
  have hrange : sizeRangeAccepted 4 none := by decide
  refine ⟨by decide, hrange, fun va hva => ⟨?_, ?_⟩⟩
  · exact (halloc 4 (by decide) (by decide)).mpr (by decide) va hva
  · refine (hgenerate (some (4, none)) (by simpa using hrange)).mpr (fun k hk => ?_) va hva
    obtain rfl : k = 4 := by
      simp [PageCount, vmaRange] at hk
      omega
    decide

/-- All pages are requested and the third is drawn, and a range exceeds the pages. -/
theorem allPages_panic : (newVmaAlloc 4096).alloc 4096 (Stream'.cons 3 (Stream'.const 0)) = none ∧
    sizeRangeAccepted 5000 none ∧ (newVmaAlloc 4096).generate 5000 5000 (Stream'.const 0) = none :=
  ⟨rfl, by decide, rfl⟩

end Brf.VmaAlloc
