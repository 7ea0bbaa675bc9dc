import Brf.Model.HintMutation
import Brf.Verification.Hints.Replacers
import Brf.Verification.Prog.Validity

/-! # What mutation with hints leaves alone

One clone is changed and restored in place around every run of the callback. Each loop puts back
what it found, so a program that the callback gets differs from the first one in a single place. -/

namespace Brf

open Brf.Lib Brf.Lib.Wire List Arg

theorem length_window (data : List UInt8) (i : ℕ) : (window data i).length = 8 := by
  simp only [window, length_append, length_take, length_drop, length_replicate]
  omega

theorem getElem?_window {data : List UInt8} {i j : ℕ} (hj : j < 8) (hij : i + j < data.length) :
    (window data i)[j]? = data[i + j]? := by
  rw [window, getElem?_append_left (by simp; omega), getElem?_take_of_lt hj, getElem?_drop]

theorem writeReplacers_agree (i : ℕ) (rs : List UInt64) (data : List UInt8) :
    (∀ d ∈ (writeReplacers i rs data).1, AgreeOutside i 8 data d) ∧
      AgreeOutside i 8 data (writeReplacers i rs data).2 := by
  induction rs generalizing data with
  | nil => exact ⟨by simp [writeReplacers], AgreeOutside.refl i 8 data⟩
  | cons r rs ih =>
    have hwrite : AgreeOutside i 8 data (overwrite data i (putUint64 .little r)) :=
      AgreeOutside.overwrite data i (by simp)
    obtain ⟨hseen, hlast⟩ := ih (overwrite data i (putUint64 .little r))
    refine ⟨fun d hd => ?_, hwrite.trans hlast⟩
    rcases mem_cons.mp hd with rfl | hd
    · exact hwrite
    · exact hwrite.trans (hseen d hd)

/-- A round of the loops changes one window and restores it. -/
theorem checkWindow_agree (comps : CompMap) (image : Bool) (data : List UInt8) (i : ℕ) :
    (∀ d ∈ (checkWindow comps image data i).1, AgreeOutside i 8 data d) ∧
      (checkWindow comps image data i).2 = data := by
  obtain ⟨hseen, hlast⟩ := writeReplacers_agree i
    (shrinkExpand (getUint64 .little (window data i)) comps 64 image) data
  exact ⟨hseen, hlast.restore (length_window data i) fun j hj hij => getElem?_window hj hij⟩

theorem checkWindows_agree (comps : CompMap) (image : Bool) (is : List ℕ) (data : List UInt8) :
    (∀ d ∈ (checkWindows comps image is data).1, ∃ i, AgreeOutside i 8 data d) ∧
      (checkWindows comps image is data).2 = data := by
  induction is with
  | nil => simp [checkWindows]
  | cons i is ih =>
    obtain ⟨hseen, hlast⟩ := checkWindow_agree comps image data i
    simp only [checkWindows, hlast]
    refine ⟨fun d hd => ?_, ih.2⟩
    rcases mem_append.mp hd with hd | hd
    · exact ⟨i, hseen d hd⟩
    · exact ih.1 d hd

/-- Types whose values hints never change. -/
def Typ.Protected (typ : Typ) : Prop :=
  match typ with
  | .proc .. | .csum .. => True
  | .const _ _ isPad => isPad
  | .buffer _ kind _ _ values _ =>
    kind = .filename ∨ ((kind = .string ∨ kind = .glob) ∧ values ≠ [])
  | _ => False

theorem skipsHints_eq_true {typ : Typ} : typ.skipsHints ↔ typ.Protected := by
  cases typ <;> simp [Typ.skipsHints, Typ.Protected]

/-- The contents of a buffer as hints see them. -/
def hintContents (z : Compression) (typ : Typ) (bytes : List UInt8) : List UInt8 :=
  match typ with
  | .buffer _ .compressed _ _ _ _ => z.mustDecompress bytes
  | _ => bytes

/-- An argument before and after one hint: another value of a constant, or other bytes in one
window of a buffer. -/
inductive HintChange (t : Target) (z : Compression) : Arg → Arg → Prop
  | const {c : ArgCommon} {val val' : UInt64} (hdir : c.dir ≠ .dirOut)
      (htyp : ¬ (t.type c.ref).Protected) : HintChange t z (.const c val) (.const c val')
  | data {ref : Ref} {dir : InDir} {bytes bytes' : List UInt8} (i : ℕ)
      (htyp : ¬ (t.type ref).Protected)
      (hagree : AgreeOutside i 8 (hintContents z (t.type ref) bytes)
        (hintContents z (t.type ref) bytes')) :
      HintChange t z (.data ref dir bytes) (.data ref dir bytes')

/-- What a visit of one argument has to do for the traversal to keep the frame. -/
structure Restores (R : Arg → Arg → Prop) (visit : Arg → List Arg × Arg) : Prop where
  change : ∀ a, ∀ a' ∈ (visit a).1, R a a'
  restore : ∀ a, (visit a).2 = a

theorem checkBuffer_agree (z : Compression) (comps : CompMap) {typ : Typ} {kind : BufferKind}
    {bytes : List UInt8} {c : VarTypeCommon} {rangeBegin rangeEnd : UInt64}
    {values : List (List UInt8)} {noZ : Bool}
    (htyp : typ = .buffer c kind rangeBegin rangeEnd values noZ) :
    let r := if kind = .compressed then checkCompressedArg z comps bytes else checkDataArg comps bytes
    (∀ d ∈ r.1, ∃ i, AgreeOutside i 8 (hintContents z typ bytes) (hintContents z typ d)) ∧
      r.2 = bytes := by
  subst htyp
  by_cases hkind : kind = .compressed
  · subst hkind
    refine ⟨fun d hd => ?_, rfl⟩
    obtain ⟨data, hdata, rfl⟩ := mem_map.mp hd
    obtain ⟨i, hi⟩ := (checkWindows_agree comps true _ _).1 data hdata
    exact ⟨i, by simpa only [hintContents, z.decompress_compress] using hi⟩
  · have hself (d : List UInt8) :
        hintContents z (.buffer c kind rangeBegin rangeEnd values noZ) d = d := by
      cases kind <;> first | rfl | exact absurd rfl hkind
    simp only [if_neg hkind, hself]
    exact checkWindows_agree comps false _ bytes

theorem generateHints_restores (t : Target) (z : Compression) (comps : CompMap) :
    Restores (HintChange t z) (generateHints t z comps) := by
  have hboth (a : Arg) : (∀ a' ∈ (generateHints t z comps a).1, HintChange t z a a') ∧
      (generateHints t z comps a).2 = a := by
    by_cases hskip : a.dir = .dirOut ∨ (t.type a.ref).skipsHints
    · simp [generateHints, hskip]
    obtain ⟨hdir, htyp⟩ := not_or.mp hskip
    rw [skipsHints_eq_true] at htyp
    unfold generateHints
    rw [if_neg hskip]
    cases a with
    | const c val =>
      cases hbits : (t.type c.ref).typeBitSize? with
      | none => simp [hbits]
      | some bitsize =>
        simp only [hbits]
        refine ⟨fun a' ha' => ?_, rfl⟩
        obtain ⟨val', -, rfl⟩ := mem_map.mp ha'
        exact .const hdir htyp
    | data ref dir bytes =>
      cases hbuf : t.type ref with
      | buffer c kind rangeBegin rangeEnd values noZ =>
        obtain ⟨hseen, hlast⟩ := @checkBuffer_agree z comps _ kind bytes _ _ _ _ _ hbuf
        simp only [hbuf, hlast, and_true]
        intro a' ha'
        obtain ⟨d, hd, rfl⟩ := mem_map.mp ha'
        obtain ⟨i, hi⟩ := hseen d hd
        exact .data i htyp hi
      | _ => simp [hbuf]
    | _ => simp
  exact ⟨fun a => (hboth a).1, fun a => (hboth a).2⟩

/-- The second tree is the first with one argument changed by `R`. -/
inductive OneChanged (R : Arg → Arg → Prop) : Arg → Arg → Prop
  | here {a a' : Arg} (h : R a a') : OneChanged R a a'
  | pointer {p : PointerArg} {res res' : Arg} (h : OneChanged R res res') :
      OneChanged R (.pointer p res) (.pointer p res')
  | group {c : ArgCommon} {l r : List Arg} {a a' : Arg} (h : OneChanged R a a') :
      OneChanged R (.group c (l ++ a :: r)) (.group c (l ++ a' :: r))
  | union {c : ArgCommon} {opt opt' : Arg} {i : ℕ} (h : OneChanged R opt opt') :
      OneChanged R (.union c opt i) (.union c opt' i)

/-- One tree of a list is changed by `R` in one argument. -/
inductive OneChangedAmong (R : Arg → Arg → Prop) : List Arg → List Arg → Prop
  | mk {l r : List Arg} {a a' : Arg} (h : OneChanged R a a') :
      OneChangedAmong R (l ++ a :: r) (l ++ a' :: r)

variable {α : Type} {R : Arg → Arg → Prop} {visit : Arg → List Arg × Arg}

/-- What the traversal of a tree does, whatever is around the tree. -/
def Framed (R : Arg → Arg → Prop) (visit : Arg → List Arg × Arg) (a : Arg) : Prop :=
  ∀ (α : Type) (plug : Arg → α), (a.hints visit plug).2 = a ∧
    ∀ x ∈ (a.hints visit plug).1, ∃ a', OneChanged R a a' ∧ x = plug a'

theorem hintsInner_framed {as : List Arg} (h : ∀ a ∈ as, Framed R visit a) (plug : List Arg → α)
    (done : List Arg) : (hintsInner visit plug done as).2 = done ++ as ∧
    ∀ x ∈ (hintsInner visit plug done as).1, ∃ as', OneChangedAmong R as as' ∧ x =
    plug (done ++ as') := by
  induction as generalizing done with
  | nil => simp [hintsInner]
  | cons a as ih =>
    obtain ⟨hlast, hseen⟩ := h a mem_cons_self α fun a => plug (done ++ a :: as)
    obtain ⟨hlast', hseen'⟩ := ih (fun b hb => h b (mem_cons_of_mem a hb)) (done ++ [a])
    simp only [hintsInner, hlast]
    refine ⟨by simpa using hlast', fun x hx => ?_⟩
    rcases mem_append.mp hx with hx | hx
    · obtain ⟨a', ha', rfl⟩ := hseen x hx
      exact ⟨a' :: as, .mk (l := []) ha', rfl⟩
    · obtain ⟨as', ⟨ha'⟩, rfl⟩ := hseen' x hx
      refine ⟨_, .mk (l := a :: _) ha', ?_⟩
      simp

theorem Restores.framed (h : Restores R visit) (a : Arg) : Framed R visit a := by
  have hleaf (a : Arg) {α : Type} (plug : Arg → α) : (visit a).2 = a ∧
      ∀ x ∈ (visit a).1.map plug, ∃ a', OneChanged R a a' ∧ x = plug a' := by
    refine ⟨h.restore a, fun x hx => ?_⟩
    obtain ⟨a', ha', rfl⟩ := mem_map.mp hx
    exact ⟨a', .here (h.change a a' ha'), rfl⟩
  induction a using tree_induction with
  | const | pointerNil | data | outData | result =>
    intro α plug
    exact hleaf _ plug
  | pointer p res ih =>
    intro α plug
    obtain ⟨hlast, hseen⟩ := ih α fun res => plug (.pointer p res)
    simp only [hints, hlast, true_and]
    intro x hx
    obtain ⟨res', hres', rfl⟩ := hseen x hx
    exact ⟨_, .pointer hres', rfl⟩
  | group c inner ih =>
    intro α plug
    obtain ⟨hlast, hseen⟩ := hintsInner_framed ih (fun inner => plug (.group c inner)) []
    simp only [hints, hlast, nil_append, true_and]
    intro x hx
    obtain ⟨-, ⟨ha'⟩, rfl⟩ := hseen x hx
    exact ⟨_, .group ha', rfl⟩
  | union c opt i ih =>
    intro α plug
    obtain ⟨hlast, hseen⟩ := ih α fun opt => plug (.union c opt i)
    simp only [hints, hlast, true_and]
    intro x hx
    obtain ⟨opt', hopt', rfl⟩ := hseen x hx
    exact ⟨_, .union hopt', rfl⟩

/-- Every program that the callback gets is the first one with a single hint in a single argument
of the chosen call. -/
theorem mutateWithHints_frame (t : Target) (z : Compression) (sanitizes : Call → Bool) (p : Prog)
    (callIndex : ℕ) (comps : CompMap) :
    ∀ q ∈ p.mutateWithHints t z sanitizes callIndex comps, ∃ c args, p.calls[callIndex]? = some c ∧
    OneChangedAmong (HintChange t z) c.args args ∧ q = p.withArgs callIndex c args := by
  intro q hq
  unfold Prog.mutateWithHints at hq
  cases hc : p.calls[callIndex]? with
  | none => simp [hc] at hq
  | some c =>
    simp only [hc, mem_map, mem_filter] at hq
    obtain ⟨args, ⟨hargs, -⟩, rfl⟩ := hq
    have hframed (a : Arg) := (generateHints_restores t z comps).framed a
    obtain ⟨args', hchange, hargs'⟩ :=
      (hintsInner_framed (fun a _ => hframed a) id []).2 args hargs
    exact ⟨c, args, rfl, hargs' ▸ hchange, rfl⟩

theorem setReplacers_fst (rs : List UInt64) (val : UInt64) : (setReplacers rs val).1 = rs := by
  induction rs generalizing val with
  | nil => rfl
  | cons r rs ih => simp [setReplacers, ih]

/-- A target with one call of one byte. -/
def byteTarget : Target := smallTarget [⟨0, "poke", [⟨"val", 0, false, .dirIn⟩], none, false⟩]
  [.int ⟨⟨"int8", 1, false⟩, .native, 0, 0, 0, 0⟩ .plain 0 0 0]

def byteProg (val : UInt64) : Prog where
  calls := [⟨⟨0, "poke", [⟨"val", 0, false, .dirIn⟩], none, false⟩, [.const ⟨0, .dirIn⟩ val], none,
    .zero⟩]
  uses := []

def storedImages : Compression := ⟨id, id, fun _ => rfl⟩

/-- The byte `0x34` that was compared with `0xab` is replaced, and nothing else. -/
theorem byteProg_hint :
    byteProg 0xab ∈ (byteProg 0x34).mutateWithHints byteTarget storedImages (fun _ => true) 0
        [(0x34, 0xab)] ∧
      ∃ c args, (byteProg 0x34).calls[0]? = some c ∧
        OneChangedAmong (HintChange byteTarget storedImages) c.args args ∧
        byteProg 0xab = (byteProg 0x34).withArgs 0 c args := by
  have hfound : 0xab ∈ shrinkExpand 0x34 [(0x34, 0xab)] 8 false :=
    mem_shrinkExpand.mpr ⟨⟨1, false⟩, by decide, false, by decide⟩
  have hmem : byteProg 0xab ∈ (byteProg 0x34).mutateWithHints byteTarget storedImages
      (fun _ => true) 0 [(0x34, 0xab)] := by
    refine mem_map.mpr ⟨[.const ⟨0, .dirIn⟩ 0xab], mem_filter.mpr ⟨?_, rfl⟩, rfl⟩
    refine mem_append_left _ (mem_map.mpr ⟨.const ⟨0, .dirIn⟩ 0xab, ?_, rfl⟩)
    refine mem_map.mpr ⟨0xab, ?_, rfl⟩
    rw [setReplacers_fst]
    exact hfound
  exact ⟨hmem, mutateWithHints_frame _ _ _ _ _ _ _ hmem⟩

end Brf
