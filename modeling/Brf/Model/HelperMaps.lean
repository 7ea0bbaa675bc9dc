import Brf.Lib.Gen
import Brf.Model.HelperCatalog

/-! # Maps of a generated program

Map types, key and value layouts, and the choice of a map for a helper call: an existing map
that fits, or a new one. -/

namespace Brf.HelperCalls

open Brf.Lib Gen

inductive MapType where
  | hash | array | progArray | perfEventArray | percpuHash | percpuArray | stackTrace
  | cgroupArray | lruHash | lruPercpuHash | lpmTrie | arrayOfMaps | hashOfMaps | devmap
  | sockmap | cpumap | xskmap | sockhash | cgroupStorage | reuseportSockarray
  | percpuCgroupStorage | queue | stack | skStorage | devmapHash | structOps | ringbuf
  | inodeStorage | taskStorage | cgrpStorage | bloomFilter | userRingbuf | arena
  deriving DecidableEq

inductive MapFlag where
  | noPrealloc | numaNode | wronly | rdonly | wronlyProg | rdonlyProg | zeroSeed | mmapable
  | innerMap | preserveElems | stackBuildId | noCommonLru | clone | segvOnFault | noUserConv
  deriving DecidableEq

structure BpfMapType where
  name : MapType
  manFlags : List (List MapFlag)
  optFlags : List (List MapFlag)
  keySize : List ℕ
  valSize : List ℕ
  maxEntries : ℤ

open MapType MapFlag in
def bpfMapTypes : List BpfMapType := [
  ⟨hash, [], [[noPrealloc], [numaNode], [wronly, rdonly], [wronlyProg, rdonlyProg], [zeroSeed]],
    [1, 4096], [1, 4096], -1⟩,
  ⟨array, [], [[numaNode], [mmapable], [wronly, rdonly], [wronlyProg, rdonlyProg], [innerMap]],
    [4, 4], [1, 4096], -1⟩,
  ⟨progArray, [], [[numaNode], [wronly, rdonly]], [4, 4], [4, 4], -1⟩,
  ⟨perfEventArray, [], [[numaNode], [wronly, rdonly], [preserveElems]], [4, 4], [4, 4], -1⟩,
  ⟨percpuHash, [], [[noPrealloc], [wronly, rdonly], [wronlyProg, rdonlyProg], [zeroSeed],
    [numaNode]], [1, 4096], [1, 4096], -1⟩,
  ⟨percpuArray, [], [[wronly, rdonly], [wronlyProg, rdonlyProg]], [4, 4], [1, 4096], -1⟩,
  ⟨stackTrace, [], [[numaNode], [rdonly, wronly], [stackBuildId]], [4, 4], [8, 4096, 8], -1⟩,
  ⟨cgroupArray, [], [[numaNode], [wronly, rdonly]], [4, 4], [4, 4], -1⟩,
  ⟨lruHash, [], [[noCommonLru, numaNode], [wronly, rdonly], [wronlyProg, rdonlyProg], [zeroSeed]],
    [1, 4096], [1, 4096], -1⟩,
  ⟨lruPercpuHash, [], [[noCommonLru], [wronly, rdonly], [wronlyProg, rdonlyProg], [zeroSeed]],
    [1, 4096], [1, 4096], -1⟩,
  ⟨lpmTrie, [[noPrealloc]], [[numaNode], [wronly], [wronlyProg, rdonlyProg]], [9, 264], [1, 4096],
    -1⟩,
  ⟨arrayOfMaps, [], [[numaNode], [wronly, rdonly]], [4, 4], [4, 4], -1⟩,
  ⟨hashOfMaps, [], [[noPrealloc], [numaNode], [wronly], [wronlyProg, rdonlyProg], [zeroSeed]],
    [1, 4096], [4, 4], -1⟩,
  ⟨devmap, [], [[numaNode], [wronly, rdonly]], [4, 4], [4, 8, 4], -1⟩,
  ⟨sockmap, [], [[numaNode], [wronly, rdonly]], [4, 4], [4, 8, 4], -1⟩,
  ⟨cpumap, [], [[numaNode]], [4, 4], [4, 8, 4], -1⟩,
  ⟨xskmap, [], [[numaNode], [wronly, rdonly]], [4, 4], [4, 4], -1⟩,
  ⟨sockhash, [], [[numaNode], [wronly, rdonly]], [1, 512], [4, 8, 4], -1⟩,
  ⟨cgroupStorage, [], [[numaNode], [rdonlyProg, wronlyProg]], [8, 12, 4], [8, 65536], 0⟩,
  ⟨reuseportSockarray, [], [[numaNode], [wronly, rdonly], [wronlyProg, rdonlyProg]], [1, 65536],
    [4, 8, 4], -1⟩,
  ⟨percpuCgroupStorage, [], [[numaNode], [rdonlyProg, wronlyProg]], [8, 12, 4], [8, 65536], 0⟩,
  ⟨queue, [], [[numaNode], [wronly, rdonly], [rdonlyProg], [wronlyProg]], [0, 0], [1, 4096], -1⟩,
  ⟨stack, [], [[numaNode], [wronly, rdonly], [rdonlyProg], [wronlyProg]], [0, 0], [1, 4096], -1⟩,
  ⟨skStorage, [[noPrealloc]], [[clone]], [4, 4], [1, 65536], 0⟩,
  ⟨devmapHash, [], [[numaNode], [wronly, rdonly]], [4, 4], [4, 8, 4], -1⟩,
  ⟨structOps, [], [], [4, 4], [0, 4096], 1⟩,
  ⟨ringbuf, [], [[numaNode]], [0, 0], [0, 0], 24⟩,
  ⟨inodeStorage, [[noPrealloc]], [[clone]], [4, 4], [1, 65536], 0⟩,
  ⟨taskStorage, [[noPrealloc]], [[clone]], [4, 4], [1, 65536], 0⟩,
  ⟨cgrpStorage, [[noPrealloc]], [[clone]], [4, 4], [1, 65536], 0⟩,
  ⟨bloomFilter, [], [[numaNode], [zeroSeed], [wronly, rdonly], [wronlyProg, rdonlyProg]], [0, 0],
    [1, 4096], -1⟩,
  ⟨userRingbuf, [], [[numaNode]], [0, 0], [0, 0], 24⟩,
  ⟨arena, [[mmapable]], [[segvOnFault], [noUserConv]], [0, 0], [0, 0], -1⟩
]

open HelperEnum MapType in
def funcCompMaps : List (HelperEnum × List MapType) := [
  (tailCall, [progArray]),
  (perfEventRead, [perfEventArray]),
  (perfEventOutput, [perfEventArray]),
  (perfEventReadValue, [perfEventArray]),
  (skbOutput, [perfEventArray]),
  (xdpOutput, [perfEventArray]),
  (ringbufOutput, [ringbuf]),
  (ringbufReserve, [ringbuf]),
  (ringbufQuery, [ringbuf]),
  (getStackid, [stackTrace]),
  (currentTaskUnderCgroup, [cgroupArray]),
  (skbUnderCgroup, [cgroupArray]),
  (redirectMap, [devmap, devmapHash, cpumap, xskmap]),
  (skRedirectMap, [sockmap]),
  (msgRedirectMap, [sockmap]),
  (sockMapUpdate, [sockmap]),
  (skRedirectHash, [sockhash]),
  (msgRedirectHash, [sockhash]),
  (sockHashUpdate, [sockhash]),
  (getLocalStorage, [cgroupStorage, percpuCgroupStorage]),
  (skSelectReuseport, [reuseportSockarray, sockmap, sockhash]),
  (mapPeekElem, [queue, stack]),
  (mapPopElem, [queue, stack]),
  (mapPushElem, [queue, stack]),
  (skStorageGet, [skStorage]),
  (skStorageDelete, [skStorage]),
  (inodeStorageGet, [inodeStorage]),
  (inodeStorageDelete, [inodeStorage]),
  (taskStorageGet, [taskStorage]),
  (taskStorageDelete, [taskStorage]),
  (cgrpStorageGet, [cgrpStorage]),
  (cgrpStorageDelete, [cgrpStorage])
]

open HelperEnum MapType in
def mapCompFuncs : List (MapType × List HelperEnum) := [
  (progArray, [tailCall]),
  (perfEventArray, [perfEventRead, perfEventOutput, skbOutput, perfEventReadValue, xdpOutput]),
  (ringbuf, [ringbufOutput, ringbufReserve, ringbufQuery]),
  (stackTrace, [getStackid]),
  (cgroupArray, [skbUnderCgroup, currentTaskUnderCgroup]),
  (cgroupStorage, [getLocalStorage]),
  (percpuCgroupStorage, [getLocalStorage]),
  (devmap, [redirectMap, mapLookupElem]),
  (devmapHash, [redirectMap, mapLookupElem]),
  (cpumap, [redirectMap]),
  (xskmap, [redirectMap, mapLookupElem]),
  (arrayOfMaps, [mapLookupElem]),
  (hashOfMaps, [mapLookupElem]),
  (sockmap, [skRedirectMap, sockMapUpdate, mapDeleteElem, msgRedirectMap, skSelectReuseport,
    mapLookupElem]),
  (sockhash, [skRedirectHash, sockHashUpdate, mapDeleteElem, msgRedirectHash, skSelectReuseport,
    mapLookupElem]),
  (reuseportSockarray, [skSelectReuseport]),
  (queue, [mapPeekElem, mapPopElem, mapPushElem]),
  (stack, [mapPeekElem, mapPopElem, mapPushElem]),
  (skStorage, [skStorageGet, skStorageDelete]),
  (inodeStorage, [inodeStorageGet, inodeStorageDelete]),
  (taskStorage, [taskStorageGet, taskStorageDelete]),
  (cgrpStorage, [cgrpStorageGet, cgrpStorageDelete])
]

def mayUpdateSockmapProgs : List ProgTypeEnum :=
  [.tracing, .socketFilter, .schedCls, .schedAct, .xdp, .skReuseport, .flowDissector, .skLookup]

/-- What a consumer asks of the call that produces its argument. -/
inductive ArgHint where
  | genSpinlock | genTimer | genConstStr | genXdpSockMap | genSockMap
  deriving DecidableEq

/-- `preferredMap` is the position of a map of the program. -/
structure BpfCallGenHint where
  argHints : List ArgHint
  retAccessSize : ℕ
  isRetAccessRaw : Bool
  preferredMap : Option ℕ
  deriving DecidableEq

def newBpfCallGenHint (m : Option ℕ) : BpfCallGenHint := ⟨[], 0, false, m⟩

/-! ### Layouts -/

inductive FieldType where
  | spinLock | timer | char8 | char256 | u64 | u32 | u16 | u8
  deriving DecidableEq

def FieldType.text : FieldType → String
  | .spinLock => "struct bpf_spin_lock"
  | .timer => "struct bpf_timer"
  | .char8 => "char [8]"
  | .char256 => "char [256]"
  | .u64 => "uint64_t"
  | .u32 => "uint32_t"
  | .u16 => "uint16_t"
  | .u8 => "uint8_t"

/-- What a field adds to the offset of the next one. -/
def FieldType.advance : FieldType → ℕ
  | .spinLock => 4
  | .timer => 16
  | .char8 => 8
  | .char256 => 0
  | .u64 => 8
  | .u32 => 4
  | .u16 => 2
  | .u8 => 1

structure StructDef where
  name : String
  fieldTypes : List FieldType
  size : ℕ
  hints : List ArgHint
  isStruct : Bool
  deriving DecidableEq

namespace StructDef

def offsetOfMember (sd : StructDef) (mi : ℕ) : ℕ :=
  ((sd.fieldTypes.take mi).map FieldType.advance).sum

/-- Position of the first member of type `m`, or `-1`. -/
def findMember (sd : StructDef) (m : FieldType) : ℤ :=
  match sd.fieldTypes.findIdx? (· = m) with
  | some i => i
  | none => -1

end StructDef

def occupiedSize (hints : List ArgHint) : ℕ :=
  (if .genSpinlock ∈ hints then 4 else 0) + (if .genTimer ∈ hints then 16 else 0) +
    (if .genConstStr ∈ hints then 8 else 0)

/-- The fields laid out from `offset` on. The fields asked for by the hints come first, and
each takes its hint off the list; `fuel` bounds the number of fields. -/
def layoutFields (useHint : Bool) (size : ℕ) :
    ℕ → ℕ → List ArgHint → List FieldType × List ArgHint × List ArgHint
  | 0, _, hints => ([], [], hints)
  | fuel + 1, offset, hints =>
    if size ≤ offset then ([], [], hints)
    else
      let plain (f : FieldType) :=
        let r := layoutFields useHint size fuel (offset + f.advance) hints
        (f :: r.1, r.2)
      let hinted (f : FieldType) (h : ArgHint) :=
        let r := layoutFields useHint size fuel (offset + f.advance) (hints.erase h)
        (f :: r.1, h :: r.2.1, r.2.2)
      if useHint && .genSpinlock ∈ hints then hinted .spinLock .genSpinlock
      else if useHint && .genTimer ∈ hints then hinted .timer .genTimer
      else if useHint && .genConstStr ∈ hints then hinted .char8 .genConstStr
      else if size - offset ≥ 8 then plain .u64
      else if size - offset ≥ 4 then plain .u32
      else if size - offset ≥ 2 then plain .u16
      else plain .u8

/-- The size of a generated layout; `none` is a failed generation. -/
def structSize (sizeConstraints : List ℕ) (hints : List ArgHint) (useHint : Bool)
    (minSizeHint : ℤ) : Gen (Option ℕ) :=
  let min := sizeConstraints.getD 0 0
  let max := sizeConstraints.getD 1 0
  let align := sizeConstraints.getD 2 1
  let occupied := occupiedSize hints
  if useHint && (decide (max < occupied) || decide ((max : ℤ) < minSizeHint)) then pure none
  else
    let min := if useHint && decide (min < occupied) then occupied else min
    let min := if useHint && min ≠ max && decide ((min : ℤ) < minSizeHint) then minSizeHint.toNat
      else min
    if min = max then pure (some min)
    else if min < max then
      let max := if 128 < max then 128 else max
      if max < min then pure (some min)
      else do
        let size ← intn (max - min + 1)
        let size := size + min
        pure (some (if align = 1 then size else size - size % align))
    else pure none

structure BpfMap where
  type : MapType
  flags : List MapFlag
  key : Option StructDef
  val : Option StructDef
  maxEntries : ℤ
  innerMap : Option ℕ
  deriving DecidableEq

/-- The maps and layouts of a program. A map is known by its position. -/
structure MapPool where
  maps : List BpfMap
  structs : List StructDef
  deriving DecidableEq

/-- A generated layout (`none` for size zero), the hints left over, and the new layouts of the
program; an outer `none` is a failed generation. -/
def generateStruct (structs : List StructDef) (sizeConstraints : List ℕ) (hints : List ArgHint)
    (useHint : Bool) (minSizeHint : ℤ) :
    Gen (Option (Option StructDef × List ArgHint × List StructDef)) := do
  match ← structSize sizeConstraints hints useHint minSizeHint with
  | none => pure none
  | some 0 => pure (some (none, hints, structs))
  | some size =>
    let (fieldTypes, taken, left) := layoutFields useHint size size 0 hints
    let sd : StructDef :=
      match fieldTypes with
      | [f] => ⟨f.text, fieldTypes, size, taken, false⟩
      | _ => ⟨"struct_" ++ toString structs.length, fieldTypes, size, taken, true⟩
    pure (some (some sd, left, structs ++ [sd]))

/-! ### Fitting maps -/

namespace BpfMap

def valHas (m : BpfMap) (f : FieldType) : Bool :=
  m.val.any fun sd => sd.findMember f ≠ -1

def hasFlag (m : BpfMap) (f : MapFlag) : Bool := f ∈ m.flags

def removeFlag (f : MapFlag) (m : BpfMap) : BpfMap := { m with flags := m.flags.erase f }

end BpfMap

def isMapFuncCompatible (m : MapType) (f : HelperEnum) : Bool :=
  (funcCompMaps.lookup f).all (m ∈ ·) && (mapCompFuncs.lookup m).all (f ∈ ·)

def isTracingProgType (e : ProgTypeEnum) : Bool :=
  e ∈ [.kprobe, .tracepoint, .perfEvent, .rawTracepoint]

def isSleepableMapType (t : MapType) : Bool :=
  t ∈ [.hash, .lruHash, .array, .percpuHash, .percpuArray, .lruPercpuHash, .arrayOfMaps,
    .hashOfMaps, .ringbuf]

/-- Of each kind of cgroup storage a program has at most one map. -/
def MapPool.storageTaken (pool : MapPool) (t : MapType) : Bool :=
  t ∈ [.cgroupStorage, .percpuCgroupStorage] && pool.maps.any (·.type = t)

/-- A map holds sockets of the kind the hints ask for. -/
def sockMapFits (ret : RetType) (hint : BpfCallGenHint) (t : MapType) : Bool :=
  ret ≠ .ptrToMapValueOrNull ||
    (decide (.genXdpSockMap ∈ hint.argHints) == decide (t = .xskmap) &&
      decide (.genSockMap ∈ hint.argHints) == decide (t = .sockmap ∨ t = .sockhash))

def returnsMapValue (ret : RetType) : Bool := ret = .ptrToMapValue || ret = .ptrToMapValueOrNull

def writesMap (f : HelperEnum) : Bool :=
  f ∈ [.mapDeleteElem, .mapUpdateElem, .mapPushElem, .mapPopElem]

/-- What the choice of a map reads of the program besides its maps. -/
structure ProgEnv where
  enum : ProgTypeEnum
  sleepable : Bool

def ProgEnv.noSpinLock (env : ProgEnv) : Bool :=
  env.enum = .socketFilter || isTracingProgType env.enum || env.sleepable

/-- The value a map returns can be accessed as the consumer will access it. -/
def retAccessFits (helper : BpfHelper) (hint : BpfCallGenHint) (m : BpfMap) : Bool :=
  !(returnsMapValue helper.ret) || hint.retAccessSize = 0 ||
    (m.val.any (hint.retAccessSize ≤ ·.size) &&
      !(m.hasFlag .rdonlyProg && hint.isRetAccessRaw) &&
      !(m.hasFlag .wronlyProg && !hint.isRetAccessRaw) &&
      !(hint.isRetAccessRaw && m.type ∈ [.devmap, .devmapHash]))

section Filters

variable (env : ProgEnv) (pool : MapPool) (helper : BpfHelper) (hint : BpfCallGenHint)

def isHelperCompatMap (m : BpfMap) : Bool :=
  isMapFuncCompatible m.type helper.enum &&
    !(writesMap helper.enum && m.hasFlag .rdonlyProg) &&
    !(.genSpinlock ∈ hint.argHints && (!m.valHas .spinLock || m.hasFlag .rdonlyProg)) &&
    !(.genTimer ∈ hint.argHints && (!m.valHas .timer || m.hasFlag .rdonlyProg)) &&
    !(.genConstStr ∈ hint.argHints && !m.valHas .char8) &&
    !(m.valHas .spinLock && env.noSpinLock) &&
    m.type ≠ .structOps &&
    !(env.sleepable && !isSleepableMapType m.type) &&
    !(pool.storageTaken m.type) &&
    sockMapFits helper.ret hint m.type &&
    retAccessFits helper hint m

/-- The positions of the maps a call may be given. -/
def getHelperCompatMaps : List ℕ :=
  (pool.maps.zipIdx.filter fun mi => isHelperCompatMap env pool helper hint mi.1).map Prod.snd

def isHelperCompatMapType (mt : BpfMapType) : Bool :=
  isMapFuncCompatible mt.name helper.enum &&
    decide (occupiedSize hint.argHints ≤ mt.valSize.getD 1 0) &&
    !(.genSpinlock ∈ hint.argHints &&
      (mt.name ∉ [.hash, .array, .cgroupStorage, .skStorage, .inodeStorage, .taskStorage] ||
        env.noSpinLock)) &&
    !(.genTimer ∈ hint.argHints &&
      (mt.name ∉ [.hash, .lruHash, .array] || isTracingProgType env.enum)) &&
    mt.name ≠ .structOps &&
    !(env.sleepable && !isSleepableMapType mt.name) &&
    !(pool.storageTaken mt.name) &&
    sockMapFits helper.ret hint mt.name &&
    !(hint.isRetAccessRaw && mt.name ∈ [.devmap, .devmapHash]) &&
    !(helper.enum = .mapUpdateElem && mt.name ∈ [.sockmap, .sockhash] &&
      env.enum ∉ mayUpdateSockmapProgs)

def getHelperCompatMapTypes : List BpfMapType :=
  bpfMapTypes.filter (isHelperCompatMapType env pool helper hint)

end Filters

def getCompatKeyStructDefs (structs : List StructDef) (mt : BpfMapType) : List StructDef :=
  structs.filter fun sd => mt.keySize.getD 0 0 ≤ sd.size && sd.size ≤ mt.keySize.getD 1 0

def getCompatValStructDefs (structs : List StructDef) (hints : List ArgHint) (minValSize : ℤ)
    (mt : BpfMapType) : List StructDef :=
  structs.filter fun sd =>
    !(minValSize ≠ -1 && (sd.size : ℤ) < minValSize) &&
      !(.genSpinlock ∈ hints && sd.findMember .spinLock = -1) &&
      !(.genTimer ∈ hints && sd.findMember .timer = -1) &&
      !(.genConstStr ∈ hints && sd.findMember .char8 = -1) &&
      .genSockMap ∉ hints && .genXdpSockMap ∉ hints &&
      mt.valSize.getD 0 0 ≤ sd.size && sd.size ≤ mt.valSize.getD 1 0 &&
      -- the alignment of the key is what is tested here
      !(mt.keySize.length = 3 && sd.size % mt.keySize.getD 2 1 ≠ 0)

/-! ### New maps -/

def newMapEntries (mt : BpfMapType) (hints : List ArgHint) : Gen ℤ := do
  let n : ℤ ←
    if mt.maxEntries = -1 then do
      let n ← intn (2 ^ 10)
      pure (n : ℤ)
    else if mt.maxEntries = 0 then pure 0
    else if mt.name = .ringbuf then do
      let n ← intn mt.maxEntries.toNat
      pure ((2 ^ n * 4096 : ℕ) : ℤ)
    else do
      let n ← intn mt.maxEntries.toNat
      pure (n : ℤ)
  pure (if .genConstStr ∈ hints then 1 else n)

def pickFlag : List MapFlag → Gen MapFlag
  | [f] => pure f
  | fs => pick fs

/-- One mandatory flag of each group. -/
def mandatoryFlags : List (List MapFlag) → Gen (List MapFlag)
  | [] => pure []
  | fs :: rest => do
    let f ← pickFlag fs
    let flags ← mandatoryFlags rest
    pure (f :: flags)

/-- A flag of each optional group, or none. A value with a constant string is read only. -/
def optionalFlags (val : Option StructDef) : List (List MapFlag) → Gen (List MapFlag)
  | [] => pure []
  | fs :: rest =>
    if val.any (.genConstStr ∈ ·.hints) && fs.length = 2 && fs.head? = some .wronly then do
      let flags ← optionalFlags val rest
      pure (fs.getD 1 .wronly :: flags)
    else do
      let skip ← intn 2
      if skip = 1 then optionalFlags val rest
      else do
        let f ← pickFlag fs
        let flags ← optionalFlags val rest
        pure (f :: flags)

/-- A layout drawn from the fitting ones, or a generated one. -/
def chooseStruct (fitting : List StructDef)
    (generate : Gen (Option (Option StructDef × List ArgHint × List StructDef)))
    (hints : List ArgHint) (structs : List StructDef) :
    Gen (Option (Option StructDef × List ArgHint × List StructDef)) := do
  let reuse ← intn 2
  if reuse = 1 ∧ fitting ≠ [] then do
    let sd ← pick fitting
    pure (some (some sd, hints, structs))
  else generate

/-- A new map: its position, the hints left over and the extended pool. A failed attempt keeps
the layouts it has made. Maps of maps generate their inner map first; `fuel` bounds that
nesting. -/
def newMap : ℕ → MapPool → BpfMapType → List ArgHint → ℤ →
    Gen (Option ℕ × List ArgHint × MapPool)
  | 0, _, _, _, _ => failure
  | fuel + 1, pool, mt, hints, minValSize => do
    let maxEntries ← newMapEntries mt hints
    match ← chooseStruct (getCompatKeyStructDefs pool.structs mt)
        (generateStruct pool.structs mt.keySize hints false 0) hints pool.structs with
    | none => pure (none, hints, pool)
    | some (key, hints, structs) =>
      match ← chooseStruct (getCompatValStructDefs structs hints minValSize mt)
          (generateStruct structs mt.valSize hints true minValSize) hints structs with
      | none => pure (none, hints, { pool with structs })
      | some (val, hints, structs) =>
        let pool : MapPool := { pool with structs }
        let (innerMap, _, pool) ←
          if mt.name = .arrayOfMaps ∨ mt.name = .hashOfMaps then do
            let innerType ← pick bpfMapTypes
            newMap fuel pool innerType [] 0
          else pure (none, [], pool)
        let manFlags ← mandatoryFlags mt.manFlags
        let optFlags ← optionalFlags val mt.optFlags
        let m : BpfMap := ⟨mt.name, manFlags ++ optFlags, key, val, maxEntries, innerMap⟩
        pure (some pool.maps.length, hints, { pool with maps := pool.maps ++ [m] })

/-- Flags the program type or the helper does not allow are taken off a new map. -/
def dropFlags (env : ProgEnv) (helper : BpfHelper) (m : BpfMap) : BpfMap :=
  let m := if writesMap helper.enum then m.removeFlag .rdonlyProg else m
  let m := if m.valHas .spinLock || m.valHas .timer then m.removeFlag .rdonlyProg else m
  let m :=
    if env.enum = .perfEvent && m.type ∈ [.hash, .percpuHash, .hashOfMaps] then
      m.removeFlag .noPrealloc
    else m
  if env.sleepable && isSleepableMapType m.type && m.type ≠ .ringbuf then
    m.removeFlag .noPrealloc
  else m

/-- The map given to a call: one that fits, two times out of three when there is one, or a new
one. The hints come back because a new layout uses them up. -/
def chooseMap (fuel : ℕ) (env : ProgEnv) (pool : MapPool) (helper : BpfHelper)
    (hint : BpfCallGenHint) : Gen (Option ℕ × List ArgHint × MapPool) := do
  let fitting := getHelperCompatMaps env pool helper hint
  let reuse ← if fitting = [] then pure false else nOutOf 2 3
  if reuse then do
    let m ← pick fitting
    pure (some m, hint.argHints, pool)
  else
    let types := getHelperCompatMapTypes env pool helper hint
    if types = [] then pure (none, hint.argHints, pool)
    else do
      let mt ←
        if .genConstStr ∈ hint.argHints then pure (types.find? (·.name = .array))
        else do
          let mt ← pick types
          pure (some mt)
      match mt with
      | none => pure (none, hint.argHints, pool)
      | some mt =>
        let minValSize : ℤ := if returnsMapValue helper.ret then hint.retAccessSize else -1
        match ← newMap fuel pool mt hint.argHints minValSize with
        | (none, hints, pool) => pure (none, hints, pool)
        | (some m, hints, pool) =>
          pure (some m, hints, { pool with maps := pool.maps.modify m (dropFlags env helper) })

end Brf.HelperCalls
