import Brf.Model.Signal
import Mathlib.Data.List.Sort

/-! # Module addresses

`pkg/cover/canonicalizer.go`: instances load the kernel modules at different addresses, and
the manager keeps coverage in the addresses of the first instance. -/

namespace Brf.Cover

open Brf.Lib

structure KernelModule where
  name : List UInt8
  addr : UInt64
  size : UInt64
deriving DecidableEq

/-- The keys are empty when canonicalization is not used. -/
structure Canonicalizer where
  modules : Dict (List UInt8) KernelModule
  moduleKeys : List UInt32

/-- Where addresses of a module go, and the end of the module. -/
structure CanonicalizerModule where
  offset : ℤ
  endAddr : UInt32
  discard : Bool

structure Convert where
  conversionHash : Dict UInt32 CanonicalizerModule
  moduleKeys : List UInt32

structure CanonicalizerInstance where
  canonical : Canonicalizer
  canonicalize : Convert
  decanonicalize : Convert

def Canonicalizer.unused : Canonicalizer := ⟨∅, []⟩

def Convert.unused : Convert := ⟨∅, []⟩

/-- Sorted addresses, of which the upper halves are cut off. -/
def setModuleKeys (modules : List KernelModule) : List UInt32 :=
  (modules.map fun mod => mod.addr.toUInt32).insertionSort (· ≤ ·)

def newCanonicalizer (modules : List KernelModule) (flagSignal : Bool) : Canonicalizer :=
  if modules = [] || !flagSignal then .unused
  else ⟨Dict.indexBy KernelModule.name modules, setModuleKeys modules⟩

/-- The two conversion maps, extended by a module of the instance. -/
def Canonicalizer.addModule (can : Canonicalizer)
    (maps : Dict UInt32 CanonicalizerModule × Dict UInt32 CanonicalizerModule)
    (mod : KernelModule) : Dict UInt32 CanonicalizerModule × Dict UInt32 CanonicalizerModule :=
  let found := can.modules.lookup mod.name
  let discard := found.all fun canonicalModule => canonicalModule.size ≠ mod.size
  let canonicalAddr := (found.map fun canonicalModule => canonicalModule.addr.toUInt32).getD 0
  let instAddr := mod.addr.toUInt32
  (maps.1.insert instAddr
    ⟨(canonicalAddr.toNat : ℤ) - instAddr.toNat, mod.size.toUInt32 + instAddr, discard⟩,
   maps.2.insert canonicalAddr
    ⟨(instAddr.toNat : ℤ) - canonicalAddr.toNat, mod.size.toUInt32 + canonicalAddr, discard⟩)

def Canonicalizer.newInstance (can : Canonicalizer) (modules : List KernelModule) :
    CanonicalizerInstance :=
  if can.moduleKeys = [] then ⟨.unused, .unused, .unused⟩
  else
    let (instToCanonicalMap, canonicalToInstMap) := modules.foldl can.addModule (∅, ∅)
    ⟨can, ⟨instToCanonicalMap, setModuleKeys modules⟩, ⟨canonicalToInstMap, can.moduleKeys⟩⟩

/-- The last key that is not above an address. -/
def findModule (pc : UInt32) (moduleKeys : List UInt32) : Option UInt32 :=
  (moduleKeys.takeWhile fun key => !(pc < key)).getLast?

/-- `none` is an address that is discarded. -/
def Convert.convertPC (convert : Convert) (pc : UInt32) : Option UInt32 :=
  match findModule pc convert.moduleKeys with
  | none => some pc
  | some key =>
    match convert.conversionHash.lookup key with
    | none => none
    | some mod =>
      if pc < mod.endAddr then
        if mod.discard then none else some (UInt32.ofInt (pc.toNat + mod.offset))
      else some pc

/-- The loop over the elements of a signal; `none` is the panic when a priority is missing. -/
def Convert.convertSignal (convert : Convert) : List Elem → List Prio → Option Serial
  | [], _ => some ⟨[], []⟩
  | elem :: elems, prios => do
    let ser ← convert.convertSignal elems prios.tail
    match convert.convertPC elem with
    | none => some ser
    | some newSign => do
      let prio ← prios.head?
      some ⟨newSign :: ser.elems, prio :: ser.prios⟩

def Convert.convertPCs (convert : Convert) (cov : List UInt32) (sign : Serial) :
    Option (List UInt32 × Serial) := do
  let ser ← convert.convertSignal sign.elems sign.prios
  some (cov.filterMap convert.convertPC, ser)

def CanonicalizerInstance.canonicalizePCs (ci : CanonicalizerInstance) (cov : List UInt32)
    (sign : Serial) : Option (List UInt32 × Serial) :=
  if ci.canonical.moduleKeys = [] then some (cov, sign)
  else ci.canonicalize.convertPCs cov sign

def CanonicalizerInstance.decanonicalizePCs (ci : CanonicalizerInstance) (cov : List UInt32)
    (sign : Serial) : Option (List UInt32 × Serial) :=
  if ci.canonical.moduleKeys = [] then some (cov, sign)
  else ci.decanonicalize.convertPCs cov sign

end Brf.Cover
