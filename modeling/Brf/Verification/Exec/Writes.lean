import Brf.Model.ExecDecoding
import Brf.Verification.Prog.Visits

/-! # What the encoder writes for an argument

`writeArg` is described by the structured argument it stands for, which is also what the
decoder builds, and by the results it refers to. -/

namespace Brf

open Lib.Wire ExecContext Arg

/-! ### Structured arguments on the wire -/

def ExecCsumChunk.words (c : ExecCsumChunk) : List UInt64 := [c.kind, c.value, c.size]

/-- The chunks that encode a structured argument. -/
def ExecArg.chunks : ExecArg → List Chunk
  | .const size format value off len stride =>
    [.word execArgConst,
      .word (size ||| format <<< 8 ||| off <<< 16 ||| len <<< 24 ||| stride <<< 32), .word value]
  | .result size format index divOp addOp default =>
    [.word execArgResult, .word (size ||| format <<< 8), .word index, .word divOp, .word addOp,
      .word default]
  | .data bytes readable =>
    [.word execArgData,
      .word (if readable then UInt64.ofNat bytes.length ||| execArgDataReadable
        else UInt64.ofNat bytes.length), .blob bytes]
  | .csum size kind chunks =>
    [.word execArgCsum, .word size, .word kind, .word (UInt64.ofNat chunks.length)] ++
      (chunks.flatMap ExecCsumChunk.words).map .word

/-- The structured argument that stands for an argument passed by value, `ix` giving the index
of each result; none for an empty buffer. -/
def Arg.execArgs (t : Target) (ix : ArgId → ℕ) : Arg → List ExecArg
  | .const c val =>
    let typ := t.type c.ref
    (constValue typ val).toList.map fun v =>
      .const typ.unitSize typ.format.code v.1 typ.bitfieldOffset typ.bitfieldLength v.2
  | .result r =>
    match r.res, t.type r.ref with
    | none, typ => [.const typ.size typ.format.code r.val 0 0 0]
    | some x, .resource c f desc =>
      [.result c.typeSize f.code (UInt64.ofNat (ix x)) r.opDiv r.opAdd desc.default]
    | some _, _ => []
  | .pointer p _ =>
    (t.physicalAddr p true).toList.map fun addr => .const (t.type p.ref).size 0 addr 0 0 0
  | .pointerNil p =>
    (t.physicalAddr p false).toList.map fun addr => .const (t.type p.ref).size 0 addr 0 0 0
  | .data ref _ bytes =>
    match t.type ref with
    | .buffer _ kind _ _ _ _ => if bytes = [] then [] else [.data bytes (isReadableDataType kind)]
    | _ => []
  | .union _ opt _ => opt.execArgs t ix
  | _ => []

def Arg.directRefs : Arg → List ArgId
  | .result r => r.res.toList
  | .union _ opt _ => opt.directRefs
  | _ => []

/-- The kinds of arguments `writeArg` can write. -/
def Arg.Encodable (t : Target) : Arg → Prop
  | .const c val => (constValue (t.type c.ref) val).isSome
  | .result r => ∃ c f desc, t.type r.ref = .resource c f desc
  | .pointer _ _ => True
  | .pointerNil p => (t.physicalAddr p false).isSome
  | .data ref _ _ => ∃ c kind b e vals noZ, t.type ref = .buffer c kind b e vals noZ
  | .union _ opt _ => opt.Encodable t
  | _ => False

namespace ExecContext

@[simps]
def writeChunks (w : ExecContext) (cs : List Chunk) : ExecContext := { w with out := w.out ++ cs }

/-- The index the encoder would write for a reference to `x` now. -/
def idxOf (w : ExecContext) (x : ArgId) : ℕ := ((w.args.lookup (.result x)).map ArgInfo.idx).getD 0

@[simps]
def recordUses (w : ExecContext) (xs : List ArgId) : ExecContext :=
  { w with log := w.log ++ xs.map fun x => .used (w.idxOf x) x }

section

variable (w : ExecContext) (cs : List Chunk) (vs : List UInt64) (xs : List ArgId)

@[simp] theorem lookup_setArg (k k' : ArgKey) (i : ArgInfo) :
    (w.setArg k i).args.lookup k' = if k' = k then some i else w.args.lookup k' := by
  by_cases h : k' = k
  · simp [setArg, h]
  · have hbeq : (k' == k) = false := beq_eq_false_iff_ne.mpr h
    simp [setArg, List.lookup_cons, h, hbeq]

@[simp] theorem idxOf_writeWords : (w.writeWords vs).idxOf = w.idxOf := rfl
@[simp] theorem idxOf_writeChunks : (w.writeChunks cs).idxOf = w.idxOf := rfl
@[simp] theorem idxOf_recordUses : (w.recordUses xs).idxOf = w.idxOf := rfl
@[simp] theorem addrOf_writeChunks : (w.writeChunks cs).addrOf = w.addrOf := rfl

theorem recordUses_nil : w.recordUses [] = w := by
  simp [recordUses]

theorem writeChunks_nil : w.writeChunks [] = w := by
  simp [writeChunks]

@[simp] theorem writeChunks_writeChunks (ds : List Chunk) :
    (w.writeChunks cs).writeChunks ds = w.writeChunks (cs ++ ds) := by
  simp [writeChunks]

theorem recordUses_recordUses (ys : List ArgId) :
    (w.recordUses xs).recordUses ys = w.recordUses (xs ++ ys) := by
  simp [recordUses, idxOf]

theorem recordUses_writeChunks :
    (w.writeChunks cs).recordUses xs = (w.recordUses xs).writeChunks cs := rfl

end

end ExecContext

section Write

variable {t : Target}

theorem writeConstArg_eq (w : ExecContext) (size val off len stride : UInt64) (f : BinaryFormat) :
    writeConstArg w size val off len stride f =
      w.writeChunks (ExecArg.const size f.code val off len stride).chunks := rfl

/-- An argument is written as the words of its specification. -/
theorem writeArg_eq (w : ExecContext) (a : Arg) (henc : a.Encodable t)
    (hrefs : ∀ x ∈ a.directRefs, (w.args.lookup (.result x)).isSome) :
    writeArg t w a =
      some ((w.recordUses a.directRefs).writeChunks
        ((a.execArgs t w.idxOf).flatMap ExecArg.chunks)) := by
  induction a using tree_induction with
  | const c val =>
    obtain ⟨v, hv⟩ := Option.isSome_iff_exists.mp henc
    simp [writeArg, hv, execArgs, directRefs, writeConstArg_eq, recordUses_nil]
  | pointer p res ih =>
    have haddr : t.physicalAddr p true = some (t.dataOffset + p.address) := by
      simp [Target.physicalAddr, PointerArg.isSpecial]
    simp [writeArg, haddr, execArgs, directRefs, writeConstArg_eq,
      recordUses_nil, BinaryFormat.code]
  | pointerNil p =>
    obtain ⟨addr, haddr⟩ := Option.isSome_iff_exists.mp henc
    simp [writeArg, haddr, execArgs, directRefs, writeConstArg_eq,
      recordUses_nil, BinaryFormat.code]
  | data ref d bytes =>
    obtain ⟨c, kind, b, e, vals, noZ, htype⟩ := henc
    by_cases hb : bytes = []
    · simp [writeArg, writeData, hb, htype, execArgs, directRefs, recordUses_nil, writeChunks_nil]
    · simp [writeArg, writeData, hb, htype, execArgs, directRefs, recordUses_nil, ExecArg.chunks,
        writeChunks, writeWords, writeBlob]
  | outData | group => exact henc.elim
  | union c opt index ih => exact ih henc hrefs
  | result r =>
    obtain ⟨c, f, desc, htype⟩ := henc
    cases hres : r.res with
    | none =>
      simp [writeArg, hres, execArgs, directRefs, writeConstArg_eq, recordUses_nil]
    | some x =>
      have hx : x ∈ (result r).directRefs := by simp [directRefs, hres]
      obtain ⟨info, hinfo⟩ := Option.isSome_iff_exists.mp (hrefs x hx)
      simp [writeArg, writeResultRef, hres, hinfo, htype, execArgs, directRefs, ExecArg.chunks,
        record, recordUses, writeChunks, writeWords, idxOf]

end Write

/-- An empty buffer, for which `writeArg` writes nothing. -/
def Arg.emptyData : Arg → Bool
  | .data _ _ bytes => bytes.isEmpty
  | .union _ opt _ => opt.emptyData
  | _ => false

theorem Arg.Encodable.exists_execArg {t : Target} {a : Arg} (h : a.Encodable t)
    (hdata : a.emptyData = false) (ix : ArgId → ℕ) : ∃ e, a.execArgs t ix = [e] := by
  induction a using tree_induction with
  | const c val =>
    obtain ⟨v, hv⟩ := Option.isSome_iff_exists.mp h
    simp [execArgs, hv]
  | pointer p res ih => simp [execArgs, Target.physicalAddr, PointerArg.isSpecial]
  | pointerNil p =>
    obtain ⟨addr, haddr⟩ := Option.isSome_iff_exists.mp h
    simp [execArgs, haddr]
  | data ref d bytes =>
    obtain ⟨c, kind, b, e, vals, noZ, htype⟩ := h
    have hne : bytes ≠ [] := by simpa [emptyData] using hdata
    simp [execArgs, htype, hne]
  | outData | group => exact h.elim
  | union c opt index ih => exact ih h hdata
  | result r =>
    obtain ⟨c, f, desc, htype⟩ := h
    cases hres : r.res <;> simp [execArgs, hres, htype]

theorem Arg.Encodable.emptyData_of_copiedIn {t : Target} {a : Arg} (h : a.Encodable t)
    (hin : a.copiedIn t) : a.emptyData = false := by
  cases a with
  | data ref d bytes =>
    obtain ⟨c, kind, b, e, vals, noZ, htype⟩ := h
    cases bytes with
    | nil => simp [Arg.copiedIn, Arg.size, Arg.ref, htype, Typ.isBitfield, Typ.bitfieldLength,
        Typ.intCommon?] at hin
    | cons b bs => rfl
  | union c opt index => simp [copiedIn, isLeaf] at hin
  | _ => rfl

/-! ### Validated arguments can be written -/

section Validated

variable {t : Target}

theorem constValue_isSome {c : ArgCommon} {val : UInt64} (h : validateConst t c val = .ok ()) :
    (constValue (t.type c.ref) val).isSome := by
  simp only [validateConst, valid_bind_eq_ok, exists_unit] at h
  obtain ⟨hkind, -⟩ := h
  cases htype : t.type c.ref with
  | int | const | flags | len | csum => rfl
  | proc c' start per =>
    unfold constValue
    split <;> simp_all
    split <;> rfl
  | resource | vma | buffer | array | ptr | struct | union =>
    simp [htype, validateConstKind] at hkind

theorem physicalAddr_isSome {p : PointerArg} (h : validateAddress t p none = .ok ()) :
    (t.physicalAddr p false).isSome := by
  unfold Target.physicalAddr
  split
  · rename_i hspecial
    have hlt : (-p.address).toNat < t.specialPointers.length := by
      simpa [validateAddress, hspecial] using h
    simpa using hlt
  · rfl

variable {a : Arg}

theorem Arg.Typed.encodable (h : a.Typed t) (hleaf : a.isLeaf)
    (hout : ∀ ref size, a ≠ .outData ref size)
    (hres : ∀ r, a = .result r → ∃ c f desc, t.type r.ref = .resource c f desc) :
    a.Encodable t := by
  obtain ⟨typ, dir, h⟩ := h
  cases a with
  | const c val => exact constValue_isSome h.2
  | pointer p res => trivial
  | pointerNil p => exact physicalAddr_isSome h.2.2
  | data ref d bytes =>
    have hbuf := h.2
    unfold validateData at hbuf
    split at hbuf
    · rename_i htype
      exact ⟨_, _, _, _, _, _, htype⟩
    · simp at hbuf
  | outData ref size => exact absurd rfl (hout ref size)
  | group | union => simp [isLeaf] at hleaf
  | result r => exact hres r rfl

theorem Arg.Typed.encodable_of_copiedIn (h : a.Typed t) (hin : a.copiedIn t)
    (hres : ∀ r, a = .result r → ∃ c f desc, t.type r.ref = .resource c f desc) :
    a.Encodable t := by
  simp only [copiedIn, Bool.and_eq_true, bne_iff_ne] at hin
  refine h.encodable hin.1.1.1 ?_ hres
  rintro ref size rfl
  exact hin.1.1.2 rfl

theorem Arg.Typed.encodable_of_byValueLeaf (h : a.Typed t) (hval : a.ByValueLeaf)
    (hres : ∀ r ∈ a.results, ∃ c f desc, t.type r.ref = .resource c f desc) : a.Encodable t := by
  cases a with
  | outData | group | union => exact hval.elim
  | const | pointer | pointerNil | data => exact h.encodable rfl (by simp) (by simp)
  | result r => exact h.encodable rfl (by simp) (by simpa [results] using hres)

theorem Arg.Typed.encodable_of_byValue (h : a.Typed t) (hval : a.ByValue)
    (hres : ∀ r ∈ a.results, ∃ c f desc, t.type r.ref = .resource c f desc) : a.Encodable t := by
  cases a with
  | union c opt index =>
    obtain ⟨typ, dir, -, slot, -, hopt⟩ := h
    have htyped : opt.Typed t := ⟨_, _, hopt⟩
    exact htyped.encodable_of_byValueLeaf hval hres
  | const | pointer | pointerNil | data | outData | group | result =>
    refine h.encodable_of_byValueLeaf ?_ hres
    exact hval

end Validated

end Brf
