import Brf.Lib.Best

/-! # Feedback signal

`pkg/signal`: finite maps from signal elements to priorities. A nil map and an empty one
are the same map, and the order in which a loop visits a map is a parameter where the result
depends on it. -/

namespace Brf

open Brf.Lib

abbrev Elem := UInt32
abbrev Prio := Int8

instance : LinearOrder Prio where
  le_refl := Int8.le_refl
  le_trans _ _ _ := Int8.le_trans
  le_antisymm _ _ := Int8.le_antisymm
  le_total := Int8.le_total
  lt_iff_le_not_ge a b := by rw [Int8.not_le]; exact ⟨fun h => ⟨Int8.le_of_lt h, h⟩, And.right⟩
  toDecidableLE := inferInstance
  toDecidableEq := inferInstance
  toDecidableLT := inferInstance

abbrev Signal := Dict Elem Prio

structure Serial where
  elems : List Elem
  prios : List Prio
deriving DecidableEq

namespace Signal

def isEmpty (s : Signal) : Bool := s.entries.isEmpty

/-- The loop of `Split`: `c` is what was moved out of `s` so far. A loop that starts with
`n = 0` is not stopped by the counter. -/
def splitLoop (c s : Signal) (n : ℤ) : List (Elem × Prio) → Signal × Signal
  | [] => (c, s)
  | (e, p) :: rest =>
    if n - 1 = 0 then (c.insert e p, s.erase e)
    else splitLoop (c.insert e p) (s.erase e) (n - 1) rest

/-- The part that is split off, and the part that stays. -/
def split (s : Signal) (n : ℕ) (order : Shuffle (Elem × Prio)) : Signal × Signal :=
  splitLoop ∅ s n (order.run s.toPairs)

def serialize (s : Signal) (order : Shuffle (Elem × Prio)) : Serial :=
  let l := order.run s.toPairs
  ⟨l.map Prod.fst, l.map Prod.snd⟩

/-- `none` is the panic on a corrupted serial. -/
def deserialize (ser : Serial) : Option Signal :=
  if ser.elems.length ≠ ser.prios.length then none
  else some ((ser.elems.zip ser.prios).foldl (fun s e => s.insert e.1 e.2) ∅)

/-- The entries of `s1` that `s` does not have with at least their priority. -/
def diff (s s1 : Signal) : Signal :=
  s1.select fun e p1 =>
    match s.lookup e with
    | some p => !(p ≥ p1)
    | none => true

/-- The entries of `s` that `s1` has with at least their priority. -/
def intersection (s s1 : Signal) : Signal :=
  s.select fun e p =>
    match s1.lookup e with
    | some p1 => p1 ≥ p
    | none => false

/-- An entry of `s1` goes in where `s` has none or one of a lower priority. -/
def merge (s s1 : Signal) : Signal := Best.offerAll id s s1.toPairs

/-! ### Minimization -/

structure ContextPrio where
  prio : Prio
  idx : ℕ

/-- The loop of `Minimize` over the inputs; `i` is the index of the first one. -/
def coveredLoop {α : Type} (covered : Dict Elem ContextPrio) (i : ℕ) :
    List (Signal × α) → Dict Elem ContextPrio
  | [] => covered
  | (s, _) :: corpus =>
    coveredLoop (Best.offerAll ContextPrio.prio covered (s.toPairs.map fun e => (e.1, ⟨e.2, i⟩)))
      (i + 1) corpus

/-- The inputs that are the first with the highest priority for some element. -/
def minimize {α : Type} (corpus : List (Signal × α)) (order : Shuffle ℕ) : List α :=
  let covered := coveredLoop ∅ 0 corpus
  let indices := (covered.toPairs.map fun e => e.2.idx).dedup
  (order.run indices).filterMap fun idx => (corpus[idx]?).map Prod.snd

end Signal

end Brf
