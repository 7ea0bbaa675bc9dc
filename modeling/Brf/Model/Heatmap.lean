import Brf.Lib.Gen

/-! # Heatmaps

Which parts of some data are worth mutating: all but the chunks of one repeated byte. -/

namespace Brf.Heatmap

open Brf.Lib

structure Segment where
  offset : ℕ
  length : ℕ

def granularity : ℕ := 64

/-- The running variables of `calculateLengthAndSegments`. -/
structure Scan where
  offset : ℕ
  currentLength : ℕ
  totalLength : ℕ
  segments : List Segment

def Scan.saveSegment (st : Scan) : Scan :=
  if st.currentLength ≠ 0 then
    { offset := st.offset + st.currentLength
      currentLength := 0
      totalLength := st.totalLength + st.currentLength
      segments := st.segments ++ [⟨st.offset, st.currentLength⟩] }
  else st

def isConstant : List UInt8 → Bool
  | [] => true
  | byt0 :: chunk => chunk.all (· = byt0)

def Scan.addChunk (st : Scan) (chunk : List UInt8) : Scan :=
  if !isConstant chunk then { st with currentLength := st.currentLength + chunk.length }
  else
    let st := st.saveSegment
    { st with offset := st.offset + chunk.length }

/-- The loop over the chunks. The first byte of an empty chunk is read out of range. -/
def scanChunks (granularity : ℕ) (data : List UInt8) (st : Scan) : Option Scan :=
  if data = [] then some st
  else if granularity = 0 then none
  else scanChunks granularity (data.drop granularity) (st.addChunk (data.take granularity))
termination_by data.length
decreasing_by
  simp_wf
  have := List.length_pos_iff.mpr ‹¬ data = []›
  omega

def calculateLengthAndSegments (data : List UInt8) (granularity : ℕ) :
    Option (ℕ × List Segment) := do
  let st := (← scanChunks granularity data ⟨0, 0, 0, []⟩).saveSegment
  if st.segments.length = 0 then return (data.length, [⟨0, data.length⟩])
  else return (st.totalLength, st.segments)

def translateIdx (idx : ℕ) : List Segment → Option ℕ
  | [] => none
  | seg :: segs =>
    if idx < seg.length then some (seg.offset + idx) else translateIdx (idx - seg.length) segs

structure GenericHeatmap where
  segments : List Segment
  length : ℕ

def makeGenericHeatmap (data : List UInt8) : Option GenericHeatmap :=
  if data.length = 0 then none
  else do
    let (length, segments) ← calculateLengthAndSegments data granularity
    return ⟨segments, length⟩

def GenericHeatmap.chooseLocation (hm : GenericHeatmap) : Gen ℕ := do
  let heatmapIdx ← Gen.intn hm.length
  StateT.lift (translateIdx heatmapIdx hm.segments)

end Brf.Heatmap
