import Brf.Model.Heatmap
import Mathlib.Data.List.NodupEquivFin
import Mathlib.Order.Hom.Set

/-! # The segments of a heatmap

The positions in the segments, one segment after the other, are the positions of the data whose
chunk is not a single repeated byte. -/

namespace Brf.Heatmap

open Brf.Lib List

def positions (segs : List Segment) : List ℕ := segs.flatMap fun s => range' s.offset s.length

theorem translateIdx_eq (idx : ℕ) (segs : List Segment) :
    translateIdx idx segs = (positions segs)[idx]? := by
  induction segs generalizing idx with
  | nil => simp [translateIdx, positions]
  | cons seg segs ih =>
    rw [translateIdx, positions, flatMap_cons, ← positions]
    split
    case isTrue h => rw [getElem?_append_left (by simpa using h), getElem?_range' h, Nat.one_mul]
    case isFalse h => rw [getElem?_append_right (by simpa using h), ih, length_range']

variable {g : ℕ} {data : List UInt8}

/-- The chunk of position `i` is not a single repeated byte. -/
def Varied (g : ℕ) (data : List UInt8) (i : ℕ) : Prop :=
  ¬ ∃ byte, ∀ b ∈ (data.drop (i / g * g)).take g, b = byte

/-- What the scan finds out about that chunk. -/
def interesting (g : ℕ) (data : List UInt8) (i : ℕ) : Bool :=
  !isConstant ((data.drop (i / g * g)).take g)

theorem isConstant_iff {chunk : List UInt8} : isConstant chunk ↔ ∃ byte, ∀ b ∈ chunk, b = byte := by
  cases chunk with
  | nil => simp [isConstant]
  | cons byt0 chunk => simp [isConstant]

theorem interesting_iff {i : ℕ} : interesting g data i ↔ Varied g data i := by
  simp [interesting, Varied, ← isConstant_iff]

/-- The scan has come to position `n`. -/
structure Scanned (g : ℕ) (data : List UInt8) (n : ℕ) (st : Scan) : Prop where
  here : st.offset + st.currentLength = n
  positions : positions st.segments ++ range' st.offset st.currentLength =
    (range n).filter (interesting g data)
  total : st.totalLength = (Heatmap.positions st.segments).length
  nonempty : ∀ s ∈ st.segments, 0 < s.length

theorem Scanned.saveSegment {n : ℕ} {st : Scan} (h : Scanned g data n st) :
    Scanned g data n st.saveSegment ∧ st.saveSegment.currentLength = 0 := by
  rw [Scan.saveSegment]
  split
  case isTrue hlen =>
    refine ⟨⟨h.here, ?_, ?_, ?_⟩, rfl⟩
    · simpa [Heatmap.positions] using h.positions
    · simp [Heatmap.positions, h.total]
    · simpa [or_imp, forall_and, Nat.pos_iff_ne_zero, hlen] using h.nonempty
  case isFalse hlen => exact ⟨h, by simpa using hlen⟩

theorem filter_interesting (data : List UInt8) {n c : ℕ} (hdvd : g ∣ n) (hc : c ≤ g) :
    (range (n + c)).filter (interesting g data) = (range n).filter (interesting g data) ++
      if isConstant ((data.drop n).take g) then [] else range' n c := by
  have hsame : ∀ i ∈ range' n c, interesting g data i = !isConstant ((data.drop n).take g) := by
    intro i hi
    obtain ⟨k, rfl⟩ := hdvd
    have hdiv : i / g = k := by
      rw [mem_range'_1] at hi
      exact Nat.div_eq_of_lt_le (by lia) (by lia)
    rw [interesting, hdiv, Nat.mul_comm]
  rw [range_eq_range', range_eq_range', ← range'_append_1, filter_append, Nat.zero_add,
    filter_congr hsame]
  cases isConstant ((data.drop n).take g) <;> simp

theorem Scanned.addChunk {n : ℕ} {st : Scan} (h : Scanned g data n st) (hdvd : g ∣ n) :
    Scanned g data (n + ((data.drop n).take g).length) (st.addChunk ((data.drop n).take g)) := by
  have hfilter := filter_interesting data hdvd (length_take_le g (data.drop n))
  rw [Scan.addChunk]
  split
  case isTrue hvar =>
    rw [if_neg (by simpa using hvar), ← h.positions, append_assoc, ← h.here,
      range'_append_1] at hfilter
    exact ⟨by simp [← h.here, Nat.add_assoc], by rw [← h.here]; exact hfilter.symm, h.total,
      h.nonempty⟩
  case isFalse hconst =>
    obtain ⟨hsaved, hzero⟩ := h.saveSegment
    rw [if_pos (by simpa using hconst), ← hsaved.positions] at hfilter
    refine ⟨?_, ?_, hsaved.total, hsaved.nonempty⟩
    · simp [← hsaved.here, hzero]
    · simpa [hzero] using hfilter.symm

theorem scanChunks_scanned (hg : 0 < g) {n : ℕ} {st : Scan} (h : Scanned g data n st)
    (hn : n ≤ data.length) (hdvd : g ∣ n ∨ n = data.length) :
    ∃ st', scanChunks g (data.drop n) st = some st' ∧ Scanned g data data.length st' := by
  rw [scanChunks]
  split
  case isTrue hnil =>
    have : data.length ≤ n := drop_eq_nil_iff.mp hnil
    exact ⟨st, rfl, by rwa [Nat.le_antisymm hn this] at h⟩
  case isFalse hne =>
    have hlt : n < data.length := by simpa using hne
    have hdvd := hdvd.resolve_right (Nat.ne_of_lt hlt)
    have hnext := h.addChunk hdvd
    rw [length_take, length_drop] at hnext
    rw [if_neg (Nat.ne_of_gt hg), drop_drop]
    rcases Nat.le_total g (data.length - n) with hfull | hlast
    · rw [Nat.min_eq_left hfull] at hnext
      exact scanChunks_scanned hg hnext (by omega) (.inl (Nat.dvd_add hdvd (Nat.dvd_refl g)))
    · rw [Nat.min_eq_right hlast, Nat.add_sub_cancel' hn] at hnext
      rw [drop_eq_nil_of_le (by omega), ← drop_length]
      exact scanChunks_scanned hg hnext (Nat.le_refl _) (.inr rfl)
termination_by data.length - n

/-- Position `i` can be chosen. -/
def Selected (g : ℕ) (data : List UInt8) (i : ℕ) : Prop :=
  i < data.length ∧ (Varied g data i ∨ ∀ j < data.length, ¬ Varied g data j)

/-- The segments and their length, as a list of positions. -/
structure Segmented (g : ℕ) (data : List UInt8) (length : ℕ) (segs : List Segment) : Prop where
  nonempty : ∀ s ∈ segs, 0 < s.length
  sorted : (positions segs).Pairwise (· < ·)
  length : (positions segs).length = length
  exact : ∀ i, i ∈ positions segs ↔ Selected g data i

theorem calculateLengthAndSegments_segmented (hdata : data ≠ []) (hg : 0 < g) :
    ∃ length segs, calculateLengthAndSegments data g = some (length, segs) ∧
      Segmented g data length segs := by
  have hstart : Scanned g data 0 ⟨0, 0, 0, []⟩ := ⟨rfl, rfl, rfl, by simp⟩
  obtain ⟨st, hst, hscan⟩ := scanChunks_scanned hg hstart (Nat.zero_le _) (.inl (Nat.dvd_zero g))
  obtain ⟨hsaved, hzero⟩ := hscan.saveSegment
  have hpos := hsaved.positions
  rw [hzero, range'_zero, append_nil] at hpos
  rw [drop_zero] at hst
  simp only [calculateLengthAndSegments, hst, Option.bind_eq_bind, Option.bind_some]
  split
  case isTrue hnone =>
    have hconst : ∀ j < data.length, ¬ Varied g data j := by
      simpa [length_eq_zero_iff.mp hnone, positions, filter_eq_nil_iff, ← interesting_iff]
        using hpos.symm
    refine ⟨_, _, rfl, by simpa using length_pos_iff.mpr hdata, ?_, by simp [positions], fun i => ?_⟩
    · simpa [positions] using pairwise_lt_range'
    · simpa [positions, Selected] using fun _ => .inr hconst
  case isFalse hsome =>
    refine ⟨_, _, rfl, hsaved.nonempty, ?_, hsaved.total.symm, fun i => ?_⟩
    · rw [hpos]
      exact pairwise_lt_range.filter _
    · obtain ⟨s, hs⟩ := exists_mem_of_length_pos (Nat.pos_of_ne_zero hsome)
      have hoff : s.offset ∈ positions st.saveSegment.segments :=
        mem_flatMap.mpr ⟨s, hs, by simp [hsaved.nonempty s hs]⟩
      rw [hpos, mem_filter, mem_range, interesting_iff] at hoff ⊢
      refine and_congr_right fun _ => ⟨.inl, fun h => h.resolve_right fun hnone => ?_⟩
      exact hnone _ hoff.1 hoff.2

theorem Segmented.disjoint {length : ℕ} {segs : List Segment} (h : Segmented g data length segs) :
    segs.Pairwise fun s t => s.offset + s.length ≤ t.offset := by
  refine (pairwise_flatMap.mp h.sorted).2.imp_of_mem fun {s t} hs ht hst => ?_
  have hpos := h.nonempty s hs
  have := hst (s.offset + (s.length - 1)) (by simp; omega) t.offset (by simp [h.nonempty t ht])
  omega

theorem Segmented.chooseLocation {length : ℕ} {segs : List Segment} (hdata : data ≠ [])
    (h : Segmented g data length segs) :
    Gen.Sat (GenericHeatmap.chooseLocation ⟨segs, length⟩) (· < data.length) := by
  have hpos : 0 < (positions segs).length := by
    by_cases hany : ∃ j < data.length, Varied g data j
    · obtain ⟨j, hj, hvaried⟩ := hany
      exact length_pos_of_mem ((h.exact j).mpr ⟨hj, .inl hvaried⟩)
    · exact length_pos_of_mem ((h.exact 0).mpr ⟨length_pos_iff.mpr hdata,
        .inr fun j hj hvaried => hany ⟨j, hj, hvaried⟩⟩)
  refine (Gen.sat_intn (h.length ▸ hpos)).bind fun i hi s => ?_
  rw [← h.length] at hi
  refine ⟨(positions segs)[i], s, ?_, ((h.exact _).mp (getElem_mem hi)).1⟩
  rw [translateIdx_eq, getElem?_eq_getElem hi]
  rfl

/-- The segments are in order and not empty, and hold the positions whose chunk is not a single
repeated byte, or all positions if there are none such. `translateIdx` numbers these positions in
order, and `chooseLocation` always returns a position of the data. -/
theorem calculateLengthAndSegments_exact (hdata : data ≠ []) (hg : 0 < g) :
    (∃ length segs, calculateLengthAndSegments data g = some (length, segs) ∧
      (∀ s ∈ segs, 0 < s.length ∧ s.offset + s.length ≤ data.length) ∧
      segs.Pairwise (fun s t => s.offset + s.length ≤ t.offset) ∧
      (segs.map Segment.length).sum = length ∧
      (∀ i, (∃ s ∈ segs, s.offset ≤ i ∧ i < s.offset + s.length) ↔ Selected g data i) ∧
      ∃ f : Fin length ≃o {i // Selected g data i},
        ∀ i : Fin length, translateIdx i segs = some (f i).1) ∧
    ∃ hm, makeGenericHeatmap data = some hm ∧ Gen.Sat hm.chooseLocation (· < data.length) := by
  constructor
  · obtain ⟨_, segs, hcalc, h⟩ := calculateLengthAndSegments_segmented hdata hg
    obtain rfl := h.length
    have hmem : ∀ i, (∃ s ∈ segs, s.offset ≤ i ∧ i < s.offset + s.length) ↔ Selected g data i := by
      intro i
      rw [← h.exact, positions]
      simp [mem_range'_1]
    refine ⟨_, segs, hcalc, fun s hs => ⟨h.nonempty s hs, ?_⟩, h.disjoint, ?_, hmem, ?_⟩
    · have hpos := h.nonempty s hs
      have := ((hmem (s.offset + (s.length - 1))).mp ⟨s, hs, by omega, by omega⟩).1
      omega
    · rw [positions]
      simp
    · refine ⟨(h.sorted.sortedLT.getIso _).trans
        (OrderIso.setCongr {i | i ∈ positions segs} {i | Selected g data i} (Set.ext h.exact)), ?_⟩
      intro i
      rw [translateIdx_eq]
      exact getElem?_eq_getElem i.2
  · obtain ⟨length, segs, hcalc, h⟩ :=
      calculateLengthAndSegments_segmented hdata (show 0 < granularity by decide)
    exact ⟨⟨segs, length⟩, by simp [makeGenericHeatmap, hdata, hcalc], h.chooseLocation hdata⟩

/-- The second chunk is the only segment, and the second of its positions is the fourth byte. -/
theorem calculateLengthAndSegments_exact_second_chunk :
    calculateLengthAndSegments [7, 7, 1, 2, 2] 2 = some (2, [⟨2, 2⟩]) ∧
      ∃ f : Fin 2 ≃o {i // Selected 2 [7, 7, 1, 2, 2] i}, (f 1).1 = 3 := by
  have hcalc : calculateLengthAndSegments [7, 7, 1, 2, 2] 2 = some (2, [⟨2, 2⟩]) := by
    simp [calculateLengthAndSegments, scanChunks, Scan.addChunk, Scan.saveSegment, isConstant]
  obtain ⟨⟨_, _, heq, -, -, -, -, f, hf⟩, -⟩ := calculateLengthAndSegments_exact
    (show ([7, 7, 1, 2, 2] : List UInt8) ≠ [] by simp) (show 0 < 2 by decide)
  cases hcalc.symm.trans heq
  exact ⟨hcalc, f, (Option.some.inj (hf 1)).symm⟩

end Brf.Heatmap
