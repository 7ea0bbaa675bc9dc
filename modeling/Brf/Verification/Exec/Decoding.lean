import Brf.Verification.Exec.Run

/-! # Reading back what the encoder writes

The chunks of a structured argument, of an instruction and of a whole call are read back as
what they encode. -/

namespace Brf

open Lib Lib.Wire List ExecCall ExecArg UInt64

/-- What the decoder has built so far. -/
structure Parsed where
  numVars : UInt64
  vars : List UInt64
  call : PartialCall
  calls : List ExecCall

/-- The decoder without an error and with the bytes `d` left. -/
def Parsed.decoder (o : Parsed) (d : List UInt8) : Decoder :=
  ⟨d, none, o.numVars, o.vars, o.call, o.calls⟩

/-- `m` consumes exactly the chunks `cs`, returns `a` and does `f` to what was built. -/
def Reads (e : Endian) {α : Type} (m : Decode α) (cs : List Chunk) (a : α)
    (f : Parsed → Parsed) : Prop :=
  ∀ o rest, m (o.decoder (streamBytes e cs ++ rest)) = (a, (f o).decoder rest)

variable {cs : List Chunk} {f g : Parsed → Parsed}

section Rules

variable {e : Endian} {α β : Type}

theorem reads_pure (a : α) : Reads e (pure a) [] a id := fun _ _ => rfl

variable {m : Decode α} {a : α} {b : β}

theorem Reads.bind {k : α → Decode β} {ds : List Chunk} (hm : Reads e m cs a f)
    (hk : Reads e (k a) ds b g) : Reads e (m >>= k) (cs ++ ds) b (fun o => g (f o)) := by
  intro o rest
  have hrun : (m >>= k) (o.decoder (streamBytes e (cs ++ ds) ++ rest)) =
      k (m (o.decoder (streamBytes e (cs ++ ds) ++ rest))).1
        (m (o.decoder (streamBytes e (cs ++ ds) ++ rest))).2 := rfl
  rw [hrun, streamBytes_append, append_assoc, hm o]
  exact hk (f o) rest

theorem Reads.map_pure
    (hm : Reads e m cs a f) (b : α → β) : Reads e (m >>= fun x => pure (b x)) cs (b a) f := by
  intro o rest
  change (b (m _).1, (m _).2) = _
  rw [hm o rest]

theorem Reads.map_modify {F : α → Decoder → Decoder} (hm : Reads e m cs a f)
    (hF : ∀ o d, F a (o.decoder d) = (g o).decoder d) :
    Reads e (m >>= fun x => modify (F x)) cs () (fun o => g (f o)) := by
  intro o rest
  change ((), F (m _).1 (m _).2) = _
  rw [hm o rest, hF]

theorem Reads.modify_bind {k : Unit → Decode β} {F : Decoder → Decoder}
    (hF : ∀ o d, F (o.decoder d) = (f o).decoder d)
    (hk : Reads e (k ()) cs b g) : Reads e (modify F >>= k) cs b (fun o => g (f o)) := by
  intro o rest
  change k () (F (o.decoder _)) = _
  rw [hF]
  exact hk (f o) rest

theorem read_decoder (v : UInt64) (o : Parsed) (rest : List UInt8) :
    read e (o.decoder ((Chunk.word v).bytes e ++ rest)) = (v, o.decoder rest) := by
  simp [read, Parsed.decoder]

theorem Reads.read_bind {k : UInt64 → Decode β} {v : UInt64} (hk : Reads e (k v) cs b f) :
    Reads e (read e >>= k) (.word v :: cs) b f := by
  intro o rest
  have hrun : ∀ dec, (read e >>= k) dec = k (read e dec).1 (read e dec).2 := fun _ => rfl
  rw [hrun, streamBytes_cons, append_assoc, read_decoder]
  exact hk o rest

theorem reads_blob {bytes : List UInt8} {n : UInt64} (hn : n.toNat = bytes.length) :
    Reads e (readBlobData n) [.blob bytes] bytes id := by
  intro o rest
  simp [readBlobData, Parsed.decoder, hn]

end Rules

/-- The fields of a structured argument fit their place in the encoding. -/
def ExecArg.InRange : ExecArg → Prop
  | .const size format _ off len stride =>
    size.toNat < 256 ∧ format.toNat < 256 ∧ off.toNat < 256 ∧ len.toNat < 256 ∧
      stride.toNat < 2 ^ 32
  | .result size format _ _ _ _ => size.toNat < 256 ∧ format.toNat < 256
  | .data bytes _ => bytes.length < 2 ^ 63
  | .csum _ kind chunks => kind = execArgCsumInet ∧ chunks.length < 2 ^ 64

/-- What reading an argument does to the variables. -/
def ExecArg.store (vars : List UInt64) : ExecArg → List UInt64
  | .result _ _ index _ _ default => storeVar vars index.toNat default
  | _ => vars

def Parsed.store (a : ExecArg) (o : Parsed) : Parsed := { o with vars := a.store o.vars }

theorem unpack_const {size format off len stride : UInt64} (hsize : size.toNat < 256)
    (hformat : format.toNat < 256) (hoff : off.toNat < 256) (hlen : len.toNat < 256)
    (hstride : stride.toNat < 2 ^ 32) :
    let packed := size ||| format <<< 8 ||| off <<< 16 ||| len <<< 24 ||| stride <<< 32
    packed &&& 0xff = size ∧ packed >>> 8 &&& 0xff = format ∧ packed >>> 16 &&& 0xff = off ∧
      packed >>> 24 &&& 0xff = len ∧ packed >>> 32 = stride := by
  intro packed
  have h1 : (size ||| format <<< 8).toNat = 2 ^ 8 * format.toNat + size.toNat :=
    toNat_or_shiftLeft (by decide) hsize (by change 2 ^ 8 * _ < _; omega)
  have h2 : (size ||| format <<< 8 ||| off <<< 16).toNat =
      2 ^ 16 * off.toNat + (size ||| format <<< 8).toNat :=
    toNat_or_shiftLeft (by decide) (by rw [h1]; change _ < 2 ^ 16; omega)
      (by change 2 ^ 16 * _ < _; omega)
  have h3 : (size ||| format <<< 8 ||| off <<< 16 ||| len <<< 24).toNat =
      2 ^ 24 * len.toNat + (size ||| format <<< 8 ||| off <<< 16).toNat :=
    toNat_or_shiftLeft (by decide) (by rw [h2]; change _ < 2 ^ 24; omega)
      (by change 2 ^ 24 * _ < _; omega)
  have h4 : packed.toNat =
      2 ^ 32 * stride.toNat + (size ||| format <<< 8 ||| off <<< 16 ||| len <<< 24).toNat :=
    toNat_or_shiftLeft (by decide) (by rw [h3, h2]; change _ < 2 ^ 32; omega)
      (by change 2 ^ 32 * _ < _; omega)
  have hshift : ∀ k : UInt64, k.toNat < 64 → (packed >>> k).toNat = packed.toNat / 2 ^ k.toNat :=
    fun k hk => by rw [UInt64.toNat_shiftRight, Nat.mod_eq_of_lt hk, Nat.shiftRight_eq_div_pow]
  refine ⟨?_, ?_, ?_, ?_, ?_⟩ <;> apply UInt64.toNat_inj.mp
  · rw [toNat_and_ff]
    omega
  · rw [toNat_and_ff, hshift 8 (by decide)]
    change packed.toNat / 2 ^ 8 % 256 = _
    omega
  · rw [toNat_and_ff, hshift 16 (by decide)]
    change packed.toNat / 2 ^ 16 % 256 = _
    omega
  · rw [toNat_and_ff, hshift 24 (by decide)]
    change packed.toNat / 2 ^ 24 % 256 = _
    omega
  · rw [hshift 32 (by decide)]
    change packed.toNat / 2 ^ 32 = _
    omega

theorem unpack_result {size format : UInt64} (hsize : size.toNat < 256)
    (hformat : format.toNat < 256) :
    (size ||| format <<< 8) &&& 0xff = size ∧ (size ||| format <<< 8) >>> 8 &&& 0xff = format := by
  have h := unpack_const hsize hformat (show (0 : UInt64).toNat < 256 by decide)
    (show (0 : UInt64).toNat < 256 by decide) (show (0 : UInt64).toNat < 2 ^ 32 by decide)
  have hzero : size ||| format <<< 8 ||| (0 : UInt64) <<< 16 ||| (0 : UInt64) <<< 24 |||
      (0 : UInt64) <<< 32 = size ||| format <<< 8 := by
    simp
  rw [hzero] at h
  exact ⟨h.1, h.2.1⟩

theorem unpack_data {n : ℕ} (readable : Bool) (h : n < 2 ^ 63) :
    let flags := if readable then ofNat n ||| execArgDataReadable else ofNat n
    (flags &&& ~~~execArgDataReadable).toNat = n ∧
      (flags &&& execArgDataReadable != 0) = readable := by
  intro flags
  have hn : (ofNat n).toNat = n := by
    rw [toNat_ofNat', Nat.mod_eq_of_lt (by omega)]
  have htop : (ofNat n ||| execArgDataReadable).toNat =
      2 ^ 63 * 1 + (ofNat n).toNat :=
    toNat_or_shiftLeft (y := 1) (k := 63) (by decide) (by rw [hn]; exact h) (by decide)
  rw [hn] at htop
  have hlow : (flags &&& ~~~execArgDataReadable).toNat = flags.toNat % 2 ^ 63 :=
    Nat.and_two_pow_sub_one_eq_mod flags.toNat 63
  have hbit : flags &&& execArgDataReadable = 0 ↔ flags.toNat < 2 ^ 63 :=
    and_topBit_eq_zero flags
  cases readable with
  | false =>
    have hflags : flags.toNat = n := hn
    have hzero := hbit.mpr (by omega)
    exact ⟨by omega, by simp [hzero]⟩
  | true =>
    have hflags : flags.toNat = 2 ^ 63 * 1 + n := htop
    have hne : flags &&& execArgDataReadable ≠ 0 := fun h0 => by
      have := hbit.mp h0
      omega
    exact ⟨by omega, by simpa using hne⟩

section

variable {e : Endian}

theorem reads_chunks (chunks : List ExecCsumChunk) :
    Reads e (readChunks e chunks.length) ((chunks.flatMap ExecCsumChunk.words).map .word) chunks
      id := by
  induction chunks with
  | nil => exact reads_pure []
  | cons c chunks ih =>
    iterate 3 apply Reads.read_bind
    exact ih.map_pure _

/-- The decoder reads an argument back from its words. -/
theorem reads_arg {a : ExecArg} (h : a.InRange) :
    Reads e (readArg e) a.chunks (some a) (Parsed.store a) := by
  cases a with
  | const size format value off len stride =>
    obtain ⟨hsize, hformat, hoff, hlen, hstride⟩ := h
    obtain ⟨h1, h2, h3, h4, h5⟩ := unpack_const hsize hformat hoff hlen hstride
    iterate 3 apply Reads.read_bind
    rw [h1, h2, h3, h4, h5]
    exact reads_pure _
  | result size format index divOp addOp default =>
    obtain ⟨h1, h2⟩ := unpack_result h.1 h.2
    iterate 6 apply Reads.read_bind
    rw [h1, h2]
    exact Reads.modify_bind (f := Parsed.store _) (g := id) (fun _ _ => rfl) (reads_pure _)
  | data bytes readable =>
    obtain ⟨hn, hread⟩ := unpack_data readable h
    iterate 2 apply Reads.read_bind
    rw [hread]
    exact (reads_blob hn).map_pure _
  | csum size kind chunks =>
    obtain ⟨rfl, hlen⟩ := h
    have hn : (ofNat chunks.length).toNat = chunks.length := by
      rw [toNat_ofNat', Nat.mod_eq_of_lt hlen]
    iterate 4 apply Reads.read_bind
    rw [hn]
    exact (reads_chunks chunks).map_pure _

end

/-- The instructions of the executor, the end of the program apart. -/
inductive Instr where
  | copyin (c : ExecCopyin)
  | props (p : CallProps)
  | call (s : Syscall) (index : UInt64) (args : List ExecArg)
  | copyout (c : ExecCopyout)

/-- What may be passed by value. -/
def ExecArg.isValue : ExecArg → Bool
  | .const .. | .result .. => true
  | _ => false

def Parsed.commit (o : Parsed) : Parsed :=
  match o.call.syscall with
  | none => o
  | some s =>
    let numVars := if o.call.index = execNoCopyout then o.numVars
      else coverIndex o.numVars o.call.index
    { o with
      numVars := o.call.copyout.foldl (fun n c => coverIndex n c.index) numVars
      calls := o.calls ++ [⟨s, o.call.props, o.call.index, o.call.args, o.call.copyin,
        o.call.copyout⟩]
      call := PartialCall.empty }

def Parsed.addArg (o : Parsed) (a : ExecArg) : Parsed :=
  { o with vars := a.store o.vars, call := { o.call with args := o.call.args ++ [a] } }

namespace Instr

def chunks : Instr → List Chunk
  | copyin c => c.chunks
  | props p => [.word execInstrSetProps, .word p.failNth.toUInt64, .word (boolWord p.async),
      .word p.rerun.toUInt64]
  | call s index args => [.word (ofNat s.id), .word index,
      .word (ofNat args.length)] ++ args.flatMap ExecArg.chunks
  | copyout c => c.chunks

/-- The instruction is one the decoder can tell apart and read. -/
def InRange (t : Target) : Instr → Prop
  | copyin c => c.arg.InRange
  | props _ | copyout _ => True
  | call s _ args => t.syscalls[s.id]? = some s ∧ s.id < execInstrSetProps.toNat ∧
      args.length < 2 ^ 64 ∧ ∀ a ∈ args, a.isValue ∧ a.InRange

/-- What reading the instruction does. -/
def apply (o : Parsed) : Instr → Parsed
  | copyin c =>
    let o := o.commit
    { o with vars := c.arg.store o.vars, call := { o.call with copyin := o.call.copyin ++ [c] } }
  | props p =>
    let o := o.commit
    { o with call := { o.call with
      props := ⟨p.failNth, o.call.props.async || p.async, p.rerun⟩ } }
  | call s index args =>
    let o := o.commit
    args.foldl Parsed.addArg { o with call := { o.call with syscall := some s, index := index } }
  | copyout c => { o with call := { o.call with copyout := o.call.copyout ++ [c] } }

end Instr

variable (args : List ExecArg)

section

variable {e : Endian} {t : Target}

theorem Reads.commit_bind {β : Type} {k : Unit → Decode β} {b : β} (hk : Reads e (k ()) cs b g) :
    Reads e (commitCall >>= k) cs b (fun o => g o.commit) := by
  refine Reads.modify_bind (f := Parsed.commit) (g := g) ?_ hk
  intro o d
  cases h : o.call.syscall with
  | none => simp [Parsed.commit, Parsed.decoder, h]
  | some s =>
    simp only [Parsed.commit, Parsed.decoder, h]
    rfl

theorem reads_callArgs (h : ∀ a ∈ args, a.isValue ∧ a.InRange) :
    Reads e (readCallArgs e args.length) (args.flatMap chunks) true
      (fun o => args.foldl Parsed.addArg o) := by
  induction args with
  | nil => exact reads_pure true
  | cons a args ih =>
    obtain ⟨hvalue, hrange⟩ := h a mem_cons_self
    have hrest := ih fun b hb => h b (mem_cons_of_mem a hb)
    let push : Parsed → Parsed := fun o =>
      { o with call := { o.call with args := o.call.args ++ [a] } }
    refine Reads.bind (g := fun o => args.foldl Parsed.addArg (push o)) (reads_arg hrange) ?_
    cases a with
    | const | result =>
      exact Reads.modify_bind (f := push) (g := fun o => args.foldl Parsed.addArg o)
        (fun _ _ => rfl) hrest
    | data | csum => simp [isValue] at hvalue

theorem ofNat_ne_instr {n : ℕ} (h : n < execInstrSetProps.toNat) : ofNat n ≠ execInstrCopyin ∧
    ofNat n ≠ execInstrCopyout ∧ ofNat n ≠ execInstrEOF ∧ ofNat n ≠ execInstrSetProps := by
  have hlt : n < 0xfffffffffffffffc := h
  have hn : (ofNat n).toNat = n := by
    rw [toNat_ofNat', Nat.mod_eq_of_lt (by omega)]
  have hne : ∀ v : UInt64, 0xfffffffffffffffc ≤ v.toNat → ofNat n ≠ v := by
    intro v hv heq
    rw [← heq] at hv
    omega
  exact ⟨hne _ (by decide), hne _ (by decide), hne _ (by decide), hne _ (by decide)⟩

/-- The decoder reads an instruction back from its words. -/
theorem reads_instr {i : Instr} (h : i.InRange t) :
    Reads e (parseInstr t e) i.chunks true (fun o => i.apply o) := by
  cases i with
  | copyin c =>
    let push : Parsed → Parsed := fun o =>
      { o with call := { o.call with copyin := o.call.copyin ++ [c] } }
    have hbody : Reads e (parseCopyin e) (.word c.addr :: c.arg.chunks) ()
        (fun o => push (Parsed.store c.arg o.commit)) := by
      refine Reads.commit_bind (g := fun o => push (Parsed.store c.arg o)) ?_
      apply Reads.read_bind
      exact (reads_arg h).map_modify (g := push) fun _ _ => rfl
    apply Reads.read_bind
    exact hbody.map_pure _
  | copyout c =>
    apply Reads.read_bind
    have hbody : Reads e (parseCopyout e) [.word c.index, .word c.addr, .word c.size] ()
        (fun o => (Instr.copyout c).apply o) := by
      iterate 3 apply Reads.read_bind
      exact fun _ _ => rfl
    exact hbody.map_pure _
  | props p =>
    apply Reads.read_bind
    let set : Parsed → Parsed := fun o =>
      { o with call := { o.call with
        props := ⟨p.failNth, o.call.props.async || p.async, p.rerun⟩ } }
    have hbody : Reads e (readCallProps e)
        [.word p.failNth.toUInt64, .word (boolWord p.async), .word p.rerun.toUInt64] () set := by
      iterate 3 apply Reads.read_bind
      have hasync : (boolWord p.async == 1) = p.async := by
        cases p.async <;> decide
      rw [hasync]
      intro o rest
      rfl
    exact Reads.commit_bind (g := set) (hbody.map_pure _)
  | call s index args =>
    obtain ⟨hs, hid, hlen, hargs⟩ := h
    obtain ⟨h1, h2, h3, h4⟩ := ofNat_ne_instr hid
    have hid' : (ofNat s.id).toNat = s.id := by
      rw [toNat_ofNat', Nat.mod_eq_of_lt (Nat.lt_trans hid (by decide))]
    have hlen' : (ofNat args.length).toNat = args.length := by
      rw [toNat_ofNat', Nat.mod_eq_of_lt hlen]
    let set : Parsed → Parsed := fun o =>
      { o with call := { o.call with syscall := some s, index := index } }
    apply Reads.read_bind
    rw [if_neg h1, if_neg h2, if_neg h3, if_neg h4]
    refine Reads.commit_bind (g := fun o => args.foldl Parsed.addArg (set o)) ?_
    rw [hid', hs]
    apply Reads.read_bind
    refine Reads.modify_bind (f := set) (g := fun o => args.foldl Parsed.addArg o)
      (fun _ _ => rfl) ?_
    apply Reads.read_bind
    rw [hlen']
    exact reads_callArgs args hargs

theorem reads_eof : Reads e (parseInstr t e) [.word execInstrEOF] false Parsed.commit := by
  apply Reads.read_bind
  exact Reads.commit_bind (g := id) (reads_pure false)

theorem parse_reads {more : Bool} (h : Reads e (parseInstr t e) cs more f) (fuel : ℕ) (o : Parsed)
    (rest : List UInt8) : parse t e (fuel + 1) (o.decoder (streamBytes e cs ++ rest)) =
    (if more then parse t e fuel else pure ()) ((f o).decoder rest) := by
  have hrun : parse t e (fuel + 1) (o.decoder (streamBytes e cs ++ rest)) =
      (let r := parseInstr t e (o.decoder (streamBytes e cs ++ rest))
       (if r.1 then parse t e fuel else pure ()) r.2) := rfl
  rw [hrun, h o rest]

/-- The loop reads every sequence of instructions. -/
theorem parse_instrs (is : List Instr) (h : ∀ i ∈ is, i.InRange t) (fuel : ℕ) (o : Parsed)
    (rest : List UInt8) :
    parse t e (is.length + fuel) (o.decoder (streamBytes e (is.flatMap Instr.chunks) ++ rest)) =
      parse t e fuel ((is.foldl Instr.apply o).decoder rest) := by
  induction is generalizing o with
  | nil => simp
  | cons i is ih =>
    have hfuel : (i :: is).length + fuel = is.length + fuel + 1 := by
      simp only [length_cons]
      omega
    rw [hfuel, flatMap_cons, streamBytes_append, append_assoc,
      parse_reads (reads_instr (h i mem_cons_self)), if_pos rfl,
      ih fun j hj => h j (mem_cons_of_mem i hj)]
    rfl

end

namespace ExecCall

def instrs (c : ExecCall) : List Instr :=
  c.copyin.map .copyin ++ (if c.props = CallProps.zero then [] else [.props c.props]) ++
    [.call c.syscall c.index c.args] ++ c.copyout.map .copyout

/-- The call as it stands before it is committed. -/
def pending (c : ExecCall) : PartialCall :=
  ⟨some c.syscall, c.props, c.index, c.args, c.copyin, c.copyout⟩

/-- What reading the call does to the variables. -/
def storeVars (vars : List UInt64) (c : ExecCall) : List UInt64 :=
  (c.copyin.map ExecCopyin.arg ++ c.args).foldl store vars

/-- What committing the call does to the number of variables. -/
def cover (numVars : UInt64) (c : ExecCall) : UInt64 :=
  c.copyout.foldl (fun n o => coverIndex n o.index)
    (if c.index = execNoCopyout then numVars else coverIndex numVars c.index)

theorem flatMap_instrs (c : ExecCall) : c.instrs.flatMap Instr.chunks = c.chunks c.args.length := by
  have hprops : (if c.props = CallProps.zero then [] else [Instr.props c.props]).flatMap
      Instr.chunks = c.props.chunks := by
    unfold CallProps.chunks
    split <;> simp [Instr.chunks]
  simp [instrs, chunks, hprops, flatMap_map, Instr.chunks]

end ExecCall

namespace Parsed

@[simp] theorem commit_vars (o : Parsed) : o.commit.vars = o.vars := by
  unfold commit
  split <;> rfl

theorem commit_of_none {o : Parsed} (h : o.call.syscall = none) : o.commit = o := by
  simp [commit, h]

theorem commit_pending (n : UInt64) (vars : List UInt64) (c : ExecCall) (calls : List ExecCall) :
    (Parsed.mk n vars c.pending calls).commit =
      ⟨c.cover n, vars, PartialCall.empty, calls ++ [c]⟩ := rfl

theorem commit_copyins (cs : List ExecCopyin) (o : Parsed) (h : o.commit.call.syscall = none) :
    ((cs.map .copyin).foldl Instr.apply o).commit =
      { o.commit with
        vars := (cs.map ExecCopyin.arg).foldl ExecArg.store o.vars
        call := { o.commit.call with copyin := o.commit.call.copyin ++ cs } } := by
  induction cs generalizing o with
  | nil => simp only [map_nil, foldl_nil, append_nil, ← commit_vars o]
  | cons c cs ih =>
    have hstep : ((Instr.copyin c).apply o).commit = (Instr.copyin c).apply o :=
      commit_of_none h
    have hrest := ih ((Instr.copyin c).apply o) (by rw [hstep]; exact h)
    rw [hstep] at hrest
    simp only [map_cons, foldl_cons, hrest]
    simp [Instr.apply]

theorem commit_props (p : CallProps) (o : Parsed) (h : o.commit.call.syscall = none)
    (hp : o.commit.call.props = CallProps.zero) :
    ((if p = CallProps.zero then [] else [Instr.props p]).foldl Instr.apply o).commit =
      { o.commit with call := { o.commit.call with props := p } } := by
  split
  · rename_i hzero
    rw [foldl_nil, hzero, ← hp]
  · have hstep : ((Instr.props p).apply o).commit = (Instr.props p).apply o := commit_of_none h
    rw [foldl_cons, foldl_nil, hstep]
    simp [Instr.apply, hp, CallProps.zero]

theorem foldl_addArg (o : Parsed) :
    args.foldl addArg o = { o with
      vars := args.foldl ExecArg.store o.vars
      call := { o.call with args := o.call.args ++ args } } := by
  induction args generalizing o with
  | nil => simp
  | cons a args ih =>
    rw [foldl_cons, ih]
    simp [addArg]

theorem foldl_copyouts (cs : List ExecCopyout) (o : Parsed) :
    (cs.map .copyout).foldl Instr.apply o =
      { o with call := { o.call with copyout := o.call.copyout ++ cs } } := by
  induction cs generalizing o with
  | nil => simp
  | cons c cs ih =>
    rw [map_cons, foldl_cons, ih]
    simp [Instr.apply]

theorem foldl_instrs (c : ExecCall) (o : Parsed) (h : o.commit.call = PartialCall.empty) :
    c.instrs.foldl Instr.apply o =
      ⟨o.commit.numVars, c.storeVars o.vars, c.pending, o.commit.calls⟩ := by
  have h1 := commit_copyins c.copyin o (by rw [h]; rfl)
  have h2 := commit_props c.props ((c.copyin.map .copyin).foldl Instr.apply o)
    (by rw [h1, h]; rfl) (by rw [h1, h]; rfl)
  rw [h1] at h2
  simp only [instrs, foldl_append, foldl_copyouts, foldl_cons, foldl_nil]
  simp only [Instr.apply, foldl_addArg, h2]
  simp [h, PartialCall.empty, pending, storeVars]

theorem commit_calls (cs : List ExecCall) (o : Parsed) (h : o.commit.call = PartialCall.empty) :
    ((cs.flatMap instrs).foldl Instr.apply o).commit =
      ⟨cs.foldl cover o.commit.numVars, cs.foldl storeVars o.vars,
        PartialCall.empty, o.commit.calls ++ cs⟩ := by
  induction cs generalizing o with
  | nil => simp only [flatMap_nil, foldl_nil, append_nil, ← h, ← commit_vars o]
  | cons c cs ih =>
    rw [flatMap_cons, foldl_append, foldl_instrs c o h, ih _ rfl, commit_pending]
    simp

end Parsed

/-! ### Slots filled and slots referred to -/

/-- The slot an argument refers to. -/
def ExecArg.refIndex : ExecArg → Option ℕ
  | .result _ _ index _ _ _ => some index.toNat
  | _ => none

namespace ExecCall

/-- The arguments in the instructions of a call. -/
def allArgs (c : ExecCall) : List ExecArg := c.copyin.map ExecCopyin.arg ++ c.args

def refIndices (c : ExecCall) : List ℕ := c.allArgs.filterMap refIndex

def filled (c : ExecCall) : List ℕ :=
  (if c.index = execNoCopyout then [] else [c.index.toNat]) ++
    c.copyout.map fun o => o.index.toNat

end ExecCall

theorem length_storeVar (vars : List UInt64) (i : ℕ) (v : UInt64) :
    (storeVar vars i v).length = max vars.length (i + 1) := by
  simp only [storeVar, length_set, length_append, length_replicate]
  omega

theorem length_store (vars : List UInt64) :
    (args.foldl store vars).length = bound vars.length (args.filterMap refIndex) := by
  induction args generalizing vars with
  | nil => rfl
  | cons a args ih =>
    rw [foldl_cons, ih]
    cases a with
    | result size format index divOp addOp default =>
      simp only [store, length_storeVar]
      rfl
    | const | data | csum => rfl

theorem length_storeVars (cs : List ExecCall) (vars : List UInt64) :
    (cs.foldl storeVars vars).length = bound vars.length (cs.flatMap refIndices) := by
  induction cs generalizing vars with
  | nil => rfl
  | cons c cs ih =>
    rw [foldl_cons, ih, flatMap_cons, bound_append, storeVars, length_store]
    rfl

theorem toNat_coverIndex {n i : UInt64} (h : i ≠ execNoCopyout) :
    (coverIndex n i).toNat = max n.toNat (i.toNat + 1) := by
  have hi : i.toNat ≠ 2 ^ 64 - 1 := fun heq => h (UInt64.toNat_inj.mp heq)
  have hlt := i.toNat_lt
  have hsucc : (i + 1).toNat = i.toNat + 1 := by
    rw [UInt64.toNat_add, UInt64.toNat_one, Nat.mod_eq_of_lt (by omega)]
  unfold coverIndex
  split
  · rename_i hcover
    rw [lt_iff_toNat_lt] at hcover
    omega
  · rename_i hcover
    rw [lt_iff_toNat_lt] at hcover
    omega

theorem toNat_coverIndices {cs : List ExecCopyout} (h : ∀ c ∈ cs, c.index ≠ execNoCopyout)
    (n : UInt64) : (cs.foldl (fun n c => coverIndex n c.index) n).toNat =
      bound n.toNat (cs.map fun c => c.index.toNat) := by
  induction cs generalizing n with
  | nil => rfl
  | cons c cs ih =>
    rw [foldl_cons, ih fun d hd => h d (mem_cons_of_mem c hd), toNat_coverIndex (h c mem_cons_self)]
    rfl

theorem toNat_cover {cs : List ExecCall} (h : ∀ c ∈ cs, ∀ o ∈ c.copyout, o.index ≠ execNoCopyout)
    (n : UInt64) : (cs.foldl cover n).toNat = bound n.toNat (cs.flatMap filled) := by
  induction cs generalizing n with
  | nil => rfl
  | cons c cs ih =>
    have hc : (c.cover n).toNat = bound n.toNat c.filled := by
      rw [cover, toNat_coverIndices (h c mem_cons_self), filled]
      split
      · rfl
      · rename_i hindex
        rw [toNat_coverIndex hindex]
        rfl
    rw [foldl_cons, ih fun d hd => h d (mem_cons_of_mem c hd), flatMap_cons, bound_append, hc]

theorem length_le_streamBytes (e : Endian) (is : List Instr) :
    is.length ≤ (streamBytes e (is.flatMap Instr.chunks)).length := by
  induction is with
  | nil => simp
  | cons i is ih =>
    have hpos : 0 < (streamBytes e i.chunks).length := by
      cases i <;> simp [Instr.chunks, ExecCopyin.chunks, ExecCopyout.chunks, Chunk.size,
        Nat.pos_iff_ne_zero]
    rw [flatMap_cons, streamBytes_append, length_append, length_cons]
    omega

theorem deserializeExec_of_parse {t : Target} {e : Endian} {exec : List UInt8} {dec : Decoder}
    (h : (parse t e (exec.length + 1) ⟨exec, none, 0, [], PartialCall.empty, []⟩).2 = dec)
    (herr : dec.err = none) (hvars : dec.vars.length = dec.numVars.toNat) :
    t.deserializeExec e exec = .ok ⟨dec.calls, dec.vars⟩ := by
  subst h
  simp [Target.deserializeExec, herr, hvars]

/-- Decoding the instructions of some calls gives the calls, if their references cover exactly
the slots they fill. -/
theorem deserializeExec_calls {t : Target} {e : Endian} {cs : List ExecCall}
    (h : ∀ c ∈ cs, ∀ i ∈ c.instrs, i.InRange t)
    (hvars : (cs.foldl storeVars []).length = (cs.foldl cover 0).toNat) :
    t.deserializeExec e (streamBytes e
      (cs.flatMap (fun c => c.chunks c.args.length) ++ [.word execInstrEOF])) =
      .ok ⟨cs, cs.foldl storeVars []⟩ := by
  let is := cs.flatMap instrs
  have his : cs.flatMap (fun c => c.chunks c.args.length) = is.flatMap Instr.chunks := by
    simp only [is, flatMap_assoc, flatMap_instrs]
  have hrange : ∀ i ∈ is, i.InRange t := by
    intro i hi
    obtain ⟨c, hc, hic⟩ := mem_flatMap.mp hi
    exact h c hc i hic
  let start : Parsed := ⟨0, [], PartialCall.empty, []⟩
  let bytes := streamBytes e (is.flatMap Instr.chunks ++ [.word execInstrEOF])
  have hlen : is.length ≤ bytes.length := by
    have := length_le_streamBytes e is
    simp only [bytes, streamBytes_append, length_append]
    omega
  obtain ⟨k, hk⟩ := Nat.exists_eq_add_of_le hlen
  have hrun : parse t e (bytes.length + 1) (start.decoder bytes) =
      ((), (is.foldl Instr.apply start).commit.decoder []) := by
    have hstop := parse_reads (reads_eof (e := e) (t := t)) k (is.foldl Instr.apply start) []
    rw [append_nil] at hstop
    rw [hk, Nat.add_assoc]
    simp only [bytes, streamBytes_append]
    rw [parse_instrs is hrange, hstop]
    rfl
  rw [Parsed.commit_calls cs start rfl] at hrun
  rw [his]
  exact deserializeExec_of_parse (congrArg Prod.snd hrun) rfl hvars

end Brf
