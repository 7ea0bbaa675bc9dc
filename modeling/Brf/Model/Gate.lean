import Mathlib.Data.Nat.Notation
import Mathlib.Data.Int.Notation
import Mathlib.Logic.Function.Basic

/-! # The gate

`pkg/ipc/gate.go`. A step runs one thread from `Lock` or from the return of `Wait` to `Unlock`
or to the next `Wait`, so that an interleaving is an order of threads. Activities have numbers in
the order in which they enter; the code does not know them. -/

namespace Brf.Ipc

/-- `callback` tells whether `f` is not nil. -/
structure Gate where
  busy : List Bool
  pos : ℕ
  running : ℤ
  stop : Bool
  callback : Bool

def newGate (c : ℕ) (callback : Bool) : Gate := ⟨List.replicate c false, 0, 0, false, callback⟩

/-- Where a thread is. One in `Wait` sleeps until a `Broadcast`. -/
inductive Phase where
  | idle
  | entering (asleep : Bool)
  | inside (idx activity : ℕ)
  | leaving (activity : ℕ) (asleep : Bool)
deriving DecidableEq

def Phase.notify : Phase → Phase
  | entering _ => entering false
  | leaving activity _ => leaving activity false
  | phase => phase

structure World (τ : Type*) where
  gate : Gate
  entries : ℕ
  phase : τ → Phase

inductive Panic where
  | brokenGate
  | indexOutOfRange
deriving DecidableEq

/-- What a step tells: an activity entered or left a slot, or `f` ran for a `Leave`. -/
inductive Note where
  | entered (activity idx : ℕ)
  | left (activity idx : ℕ)
  | called (activity : ℕ)
deriving DecidableEq

namespace World

variable {τ : Type*} [DecidableEq τ]

def start (τ : Type*) (c : ℕ) (callback : Bool) : World τ := ⟨newGate c callback, 0, fun _ => .idle⟩

def setPhase (w : World τ) (t : τ) (phase : Phase) : World τ :=
  { w with phase := Function.update w.phase t phase }

def broadcast (w : World τ) : World τ := { w with phase := fun t => (w.phase t).notify }

/-- `Enter` from its loop on. -/
def enter (w : World τ) (t : τ) : Except Panic (World τ × List Note) :=
  let g := w.gate
  match g.busy[g.pos]? with
  | none => .error .indexOutOfRange
  | some busy =>
    if busy || g.stop then .ok (w.setPhase t (.entering true), [])
    else
      let idx := g.pos
      let pos := if g.pos + 1 ≥ g.busy.length then 0 else g.pos + 1
      let g := { g with pos := pos, busy := g.busy.set idx true, running := g.running + 1 }
      if g.running > g.busy.length then .error .brokenGate
      else
        .ok ({ w with gate := g, entries := w.entries + 1 }.setPhase t (.inside idx w.entries),
          [.entered w.entries idx])

def finishLeave (w : World τ) (t : τ) (idx : ℕ) : World τ :=
  let w := w.setPhase t .idle
  if idx = w.gate.pos && !w.gate.stop || w.gate.running = 0 && w.gate.stop then w.broadcast else w

/-- `Leave` of slot 0 from its loop on, when there is a callback. -/
def awaitBatch (w : World τ) (t : τ) (activity : ℕ) : World τ × List Note :=
  if w.gate.running ≠ 0 then (w.setPhase t (.leaving activity true), [])
  else
    let w := { w with gate := { w.gate with stop := false } }
    (w.broadcast.finishLeave t 0, [.called activity])

def leave (w : World τ) (t : τ) (idx activity : ℕ) : Except Panic (World τ × List Note) :=
  match w.gate.busy[idx]? with
  | none => .error .indexOutOfRange
  | some false => .error .brokenGate
  | some true =>
    let g : Gate :=
      { w.gate with busy := w.gate.busy.set idx false, running := w.gate.running - 1 }
    if g.running < 0 then .error .brokenGate
    else if idx = 0 && g.callback then
      if g.stop then .error .brokenGate
      else
        let (w, notes) := { w with gate := { g with stop := true } }.awaitBatch t activity
        .ok (w, .left activity idx :: notes)
    else .ok ({ w with gate := g }.finishLeave t idx, [.left activity idx])

/-- `none` when the thread sleeps. -/
def step (w : World τ) (t : τ) : Option (Except Panic (World τ × List Note)) :=
  match w.phase t with
  | .idle | .entering false => some (w.enter t)
  | .inside idx activity => some (w.leave t idx activity)
  | .leaving activity false => some (.ok (w.awaitBatch t activity))
  | .entering true | .leaving _ true => none

/-- A step, with its notes added to the log; `none` also when it panics. -/
def round (x : World τ × List Note) (t : τ) : Option (World τ × List Note) :=
  match x.1.step t with
  | some (.ok (w, notes)) => some (w, x.2 ++ notes)
  | _ => none

/-- An interleaving and what its steps told. -/
def run (c : ℕ) (callback : Bool) (threads : List τ) : Option (World τ × List Note) :=
  threads.foldlM round (start τ c callback, [])

end World

end Brf.Ipc
