import Brf.Model.Prog

/-! # Checksums

`calcChecksumsCall`: which regions of memory each checksum field of a call covers. `none`
stands for a panic. -/

namespace Brf

/-- `CsumChunk`: a region given by an argument, or a constant. -/
inductive CsumChunk where
  | arg (v : Visit)
  | const (value size : UInt64)

structure CsumInfo where
  kind : CsumKind
  chunks : List CsumChunk

/-- What `calcChecksumsCall` returns: `csumMap`, with the visit of each field, and the keys of
`csumUses`. -/
structure Csums where
  map : List (Visit × CsumInfo)
  uses : List ArgKey

def Csums.none : Csums := ⟨[], []⟩

/-! ### Parents -/

def Typ.isPtr : Typ → Bool
  | .ptr .. => true
  | _ => false

/-- The key of `InnerArg`; `none` where it is nil. -/
def Arg.innerKey (t : Target) (path : List ℕ) : Arg → Option ArgKey
  | .pointer p res =>
    if (t.type p.ref).isPtr then res.innerKey t (path ++ [0]) else some (.place path)
  | .pointerNil p => if (t.type p.ref).isPtr then none else some (.place path)
  | a => some (a.key path)

/-- `InnerArg` of the argument at a position; `none` where it is nil. -/
def Arg.inner (t : Target) (path : List ℕ) : Arg → Option (List ℕ × Arg)
  | .pointer p res =>
    if (t.type p.ref).isPtr then res.inner t (path ++ [0]) else some (path, .pointer p res)
  | .pointerNil p => if (t.type p.ref).isPtr then none else some (path, .pointerNil p)
  | a => some (path, a)

/-- The keys of the inner args of the fields of a struct, numbered from `i`. -/
def fieldKeys (t : Target) (path : List ℕ) : (i : ℕ) → List Arg → List ArgKey
  | _, [] => []
  | i, a :: as => (a.innerKey t (path ++ [i])).toList ++ fieldKeys t path (i + 1) as

/-- Entries a visit adds to `parentsMap`. -/
def Visit.children (t : Target) (v : Visit) : List (ArgKey × Visit) :=
  match t.type v.arg.ref, v.arg with
  | .struct .., .group _ inner => (fieldKeys t v.path 0 inner).map (·, v)
  | _, _ => []

def parentsMap (t : Target) (visits : List Visit) : List (ArgKey × Visit) :=
  visits.flatMap (Visit.children t)

/-- The loop of `findCsummedArg` up the parents; each round needs another entry of the map. -/
def findParent (t : Target) (parents : List (ArgKey × Visit)) (name : String) :
    (fuel : ℕ) → ArgKey → Option Visit
  | 0, _ => none
  | fuel + 1, key => do
    let parent ← parents.lookup key
    if (t.type parent.arg.ref).name = name then some parent
    else findParent t parents name fuel parent.key

def findCsummedArg (t : Target) (parents : List (ArgKey × Visit)) (buf : String) (key : ArgKey) :
    Option Visit :=
  if buf = "parent" then parents.lookup key
  else findParent t parents buf (parents.length + 1) key

/-! ### Pseudo headers -/

def swap16 (v : UInt16) : UInt16 :=
  (v >>> 8).toUInt8.toUInt16 ||| v.toUInt8.toUInt16 <<< 8

def swap32 (v : UInt32) : UInt32 :=
  (v >>> 24).toUInt8.toUInt32 ||| (v >>> 16).toUInt8.toUInt32 <<< 8 |||
    (v >>> 8).toUInt8.toUInt32 <<< 16 ||| v.toUInt8.toUInt32 <<< 24

def composePseudoCsumIPv4 (t : Target) (packet src dst : Visit) (protocol : UInt8) : CsumInfo where
  kind := .inet
  chunks := [.arg src, .arg dst, .const (swap16 protocol.toUInt16).toUInt64 2,
    .const (swap16 (packet.arg.size t).toUInt16).toUInt64 2, .arg packet]

def composePseudoCsumIPv6 (t : Target) (packet src dst : Visit) (protocol : UInt8) : CsumInfo where
  kind := .inet
  chunks := [.arg src, .arg dst, .const (swap32 (packet.arg.size t).toUInt32).toUInt64 4,
    .const (swap32 protocol.toUInt32).toUInt64 4, .arg packet]

/-- `getFieldByName` on the inner args and fields of a struct, numbered from `i`. -/
def getFieldByName (v : Visit) (name : String) : (i : ℕ) → List Arg → List Field → Option Visit
  | i, a :: as, f :: fs =>
    if f.name = name then some { v with path := v.path ++ [i], arg := a }
    else getFieldByName v name (i + 1) as fs
  | _, _, _ => none

def extractHeaderParams (t : Target) (v : Visit) (inner : List Arg) (fields : List Field)
    (size : UInt64) : Option (Visit × Visit) := do
  let src ← getFieldByName v "src_ip" 0 inner fields
  let dst ← getFieldByName v "dst_ip" 0 inner fields
  if src.arg.size t = size ∧ dst.arg.size t = size then some (src, dst) else none

/-- The size of the addresses in the header structs the checksums know, by template name. -/
def headerSize (name : String) : Option UInt64 :=
  if name = "ipv4_header" ∨ name = "syz_csum_ipv4_header" then some 4
  else if name = "ipv6_packet_t" ∨ name = "syz_csum_ipv6_header" then some 16
  else none

/-- One visit of the search for the source and destination address; the last header wins. -/
def headerStep (t : Target) (found : Option (Visit × Visit)) (v : Visit) :
    Option (Option (Visit × Visit)) :=
  match v.arg with
  | .group c inner =>
    match headerSize (t.type c.ref).templateName, t.type c.ref with
    | some size, .struct _ fields _ _ => (extractHeaderParams t v inner fields size).map some
    | some _, _ => none
    | none, _ => some found
  | _ => some found

/-! ### The whole call -/

def Typ.isCsum : Typ → Bool
  | .csum .. => true
  | _ => false

/-- The checksum fields of one kind among the visits. -/
def csumFields (t : Target) (kind : CsumKind) (visits : List Visit) :
    List (Visit × String × UInt64) :=
  visits.filterMap fun v =>
    match t.type v.arg.ref with
    | .csum _ k buf protocol => if k = kind then some (v, buf, protocol) else none
    | _ => none

def inetStep (t : Target) (parents : List (ArgKey × Visit)) (cs : Csums)
    (f : Visit × String × UInt64) : Option Csums := do
  let csummed ← findCsummedArg t parents f.2.1 f.1.key
  some ⟨cs.map ++ [(f.1, ⟨.inet, [.arg csummed]⟩)], cs.uses ++ [csummed.key]⟩

def pseudoStep (t : Target) (parents : List (ArgKey × Visit)) (src dst : Visit) (cs : Csums)
    (f : Visit × String × UInt64) : Option Csums := do
  let csummed ← findCsummedArg t parents f.2.1 f.1.key
  let compose := if src.arg.size t = 4 then composePseudoCsumIPv4 else composePseudoCsumIPv6
  some ⟨cs.map ++ [(f.1, compose t csummed src dst f.2.2.toUInt8)],
    cs.uses ++ [csummed.key, src.key, dst.key]⟩

/-- `calcChecksumsCall`, given the visits `ForeachArg` makes. -/
def calcChecksums (t : Target) (visits : List Visit) : Option Csums := do
  let inet := csumFields t .inet visits
  let pseudo := csumFields t .pseudo visits
  let parents := parentsMap t visits
  let cs ← inet.foldlM (inetStep t parents) Csums.none
  if pseudo.isEmpty then some cs
  else
    let header ← visits.foldlM (headerStep t) none
    let (src, dst) ← header
    pseudo.foldlM (pseudoStep t parents src dst) cs

/-- `calcChecksumsCall` of the `n`-th call. -/
def calcChecksumsCall (t : Target) (n : ℕ) (c : Call) : Option Csums :=
  calcChecksums t (c.visits t n)

end Brf
