import Brf.Verification.Helper.RegTypes
import Brf.Verification.Helper.Seeds
import Mathlib.Data.List.Chain

/-! # Spin locks in arbitrary calls

`fixSpinLock` ranges over the calls as they were while it inserts into them. Up to the first
insertion both are the same. Behind it the positions are off by one, and a spin lock call that
follows is repaired at the wrong place. -/

namespace Brf.HelperCalls

open Brf.Lib List LockState HelperEnum BpfCall

instance (c : BpfCall) : Decidable c.isSpin := inferInstanceAs (Decidable (_ ∨ _))

def BpfCall.lockName (c : BpfCall) : Option ArgName := c.args.head?.map (·.name)

/-- Calls that take and release one lock after the other. -/
def Alternates : List BpfCall → Prop
  | [] => True
  | [_] => False
  | l :: u :: rest => l.helper.enum = .spinLock ∧ u.helper.enum = .spinUnlock ∧
      u.lockName = l.lockName ∧ Alternates rest

/-- The repair of `before`: its spin lock calls alternate, and the other calls are kept. -/
structure LocksRepaired (before after : List BpfCall) : Prop where
  spins : Alternates (after.filter (·.isSpin))
  others : after.filter (¬ ·.isSpin) = before.filter (¬ ·.isSpin)

/-- Every lock is directly followed by its unlock. Only the last spin lock call may be alone, and
it must not be an unlock behind a pair that names two locks (`free` is false behind such a
pair). -/
def almostPaired : Bool → List BpfCall → Bool
  | _, [] => true
  | free, c :: rest =>
    if c.helper.enum = .spinUnlock then free && rest.all (¬ ·.isSpin)
    else if c.helper.enum = .spinLock then
      match rest with
      | [] => true
      | d :: rest =>
        if d.helper.enum = .spinUnlock then almostPaired (d.lockName = c.lockName) rest
        else (d :: rest).all (¬ ·.isSpin)
    else almostPaired free rest

section Pieces

variable {as bs as' bs' : List BpfCall}

theorem Alternates.append (h : Alternates as) (h' : Alternates bs) : Alternates (as ++ bs) := by
  induction as using Alternates.induct with
  | case1 => exact h'
  | case2 => exact h.elim
  | case3 l u rest ih => exact ⟨h.1, h.2.1, h.2.2.1, ih h.2.2.2⟩

theorem LocksRepaired.append (h : LocksRepaired as as') (h' : LocksRepaired bs bs') :
    LocksRepaired (as ++ bs) (as' ++ bs') := by
  constructor
  · rw [filter_append]
    exact h.spins.append h'.spins
  · rw [filter_append, filter_append, h.others, h'.others]

theorem locksRepaired_quiet (h : ∀ c ∈ as, ¬ c.isSpin) : LocksRepaired as as := by
  refine ⟨?_, rfl⟩
  rw [filter_eq_nil_iff.mpr (by simpa using h)]
  trivial

theorem locksRepaired_pair {l u : BpfCall} (hl : l.helper.enum = .spinLock)
    (hu : u.helper.enum = .spinUnlock) (hname : u.lockName = l.lockName)
    (has : ∀ c ∈ as, c.isSpin) : LocksRepaired as [l, u] := by
  have hl' : l.isSpin := .inl hl
  have hu' : u.isSpin := .inr hu
  constructor
  · simp [hl', hu', Alternates, hl, hu, hname]
  · have hnone : as.filter (¬ ·.isSpin) = [] := filter_eq_nil_iff.mpr (by simpa using has)
    rw [hnone]
    simp [hl', hu']

end Pieces

/-! ### Kinds of calls

What goes wrong can be seen from the helpers of the calls alone. -/

/-- The positions `ps` stand for calls of these helpers. -/
def Kinds (store : List BpfCall) (ps : List ℕ) (es : List HelperEnum) : Prop :=
  ps.map (fun k => store[k]?.map (·.helper.enum)) = es.map some

section Kind

variable {store cs : List BpfCall} {ps ps' : List ℕ} {es es' : List HelperEnum}

theorem Resolves.kinds (h : Resolves store ps cs) : Kinds store ps (cs.map (·.helper.enum)) := by
  have hmap : (ps.map (store[·]?)).map (Option.map (·.helper.enum)) = (cs.map some).map
      (Option.map (·.helper.enum)) := by rw [h]
  simpa [Kinds, map_map, Function.comp_def] using hmap

section

variable (h : Kinds store ps es)

include h

theorem Kinds.getElem?_eq (i : ℕ) : (ps[i]?.bind (store[·]?)).map (·.helper.enum) = es[i]? := by
  have hi : (ps.map fun k => store[k]?.map (·.helper.enum))[i]? = (es.map some)[i]? := by rw [h]
  rw [getElem?_map] at hi
  cases hk : ps[i]? with
  | none =>
    rw [hk] at hi
    simpa using hi.symm
  | some k =>
    rw [hk] at hi
    cases he : es[i]? with
    | none => simp [he] at hi
    | some e => simpa [he] using hi

theorem Kinds.filterMap : (ps.filterMap (store[·]?)).map (·.helper.enum) = es := by
  have hid : (ps.map fun k => store[k]?.map (·.helper.enum)).filterMap id =
      (es.map some).filterMap id := by rw [h]
  rw [map_filterMap]
  simpa [filterMap_map, Function.comp_def] using hid

theorem Kinds.append (h' : Kinds store ps' es') : Kinds store (ps ++ ps') (es ++ es') := by
  unfold Kinds at *
  rw [map_append, map_append, h, h']

theorem Kinds.take (n : ℕ) : Kinds store (ps.take n) (es.take n) := by
  unfold Kinds at *
  rw [map_take, map_take, h]

theorem Kinds.drop (n : ℕ) : Kinds store (ps.drop n) (es.drop n) := by
  unfold Kinds at *
  rw [map_drop, map_drop, h]

end

end Kind

/-- What round `i` does when it meets a call of the helper `e` and the array of the calls is full,
to the kinds of the calls and to whether a lock is held. -/
inductive LockStep (i : ℕ) : HelperEnum → List HelperEnum → Bool → List HelperEnum → Bool → Prop
  | other {e : HelperEnum} {es : List HelperEnum} {held : Bool} (hu : e ≠ .spinUnlock)
      (hl : e ≠ .spinLock) : LockStep i e es held es held
  | opened {es : List HelperEnum} :
      LockStep i .spinUnlock es false (es.take i ++ .spinLock :: es.drop i) true
  | closed {es : List HelperEnum} {held : Bool} : LockStep i .spinUnlock es true es held
  | followed {es : List HelperEnum} {held : Bool} (h : es[i + 1]? = some .spinUnlock) :
      LockStep i .spinLock es held es true
  | completed {es : List HelperEnum} {held : Bool} (h : es[i + 1]? ≠ some .spinUnlock) :
      LockStep i .spinLock es held (es.take (i + 1) ++ .spinUnlock :: es.drop (i + 1)) true

variable {helper : BpfHelper} {pos : ℕ}

section Full

variable {pt : BpfProgType} {s s' : LockState} {ev ec : List HelperEnum} {n i : ℕ}

/-- The kinds of both slices of the loop. -/
structure LockState.Kinded (s : LockState) (ev ec : List HelperEnum) : Prop where
  view : Kinds s.store s.view ev
  calls : Kinds s.store s.calls ec

variable {store : List BpfCall} {ps : List ℕ} {es : List HelperEnum}

theorem Kinds.grow (h : Kinds store ps es) (more : List BpfCall) : Kinds (store ++ more) ps es := by
  refine Eq.trans (map_congr_left fun k hk => ?_) h
  have hsome : store[k]?.map (·.helper.enum) ∈ es.map some :=
    h ▸ mem_map_of_mem hk
  obtain ⟨e, -, he⟩ := mem_map.mp hsome
  obtain ⟨c, hc, -⟩ := Option.map_eq_some_iff.mp he.symm
  rw [getElem?_append_left (List.getElem?_eq_some_iff.mp hc).1]

theorem Kinds.modify (h : Kinds store ps es) (k : ℕ) (name : ArgName) :
    Kinds (store.modify k (setFirstArg name)) ps es := by
  refine Eq.trans (map_congr_left fun j _ => ?_) h
  rw [getElem?_modify]
  cases store[j]? with
  | none => rfl
  | some c => by_cases hj : k = j <;> simp [hj, setFirstArg]

theorem LockState.insertCall_kinded (hs : s.Kinded ev ec)
    (h : s.insertCall helper i pos false = some s') :
    s'.Kinded ev (ec.take pos ++ helper.enum :: ec.drop pos) ∧ s'.lockHeld.isSome := by
  obtain ⟨name, -, h⟩ := Option.bind_eq_some_iff.mp h
  obtain ⟨t, -, h⟩ := Option.bind_eq_some_iff.mp h
  cases h
  have hnew : Kinds (s.store ++ [lockCall helper t name]) [s.store.length] [helper.enum] := by
    simp [Kinds, lockCall, newBpfCall]
  refine ⟨⟨?_, ?_⟩, rfl⟩
  · simpa using hs.view.grow _
  · exact ((hs.calls.take pos).grow _).append (hnew.append ((hs.calls.drop pos).grow _))

theorem fixSpinLockFrom_step (hlock : (pt.getHelper .spinLock).isSome)
    (hunlock : (pt.getHelper .spinUnlock).isSome) (hs : s.Kinded ev ec)
    (h : fixSpinLockFrom pt (fun _ => false) (n + 1) i s = some s') : ∃ e s1 ec1, ev[i]? = some e ∧
    s1.Kinded ev ec1 ∧ LockStep i e ec s.lockHeld.isSome ec1 s1.lockHeld.isSome ∧
    fixSpinLockFrom pt (fun _ => false) n (i + 1) s1 = some s' := by
  obtain ⟨hl, hhl⟩ := Option.isSome_iff_exists.mp hlock
  obtain ⟨hu, hhu⟩ := Option.isSome_iff_exists.mp hunlock
  have hlenum : hl.enum = .spinLock := by simpa using find?_some hhl
  have huenum : hu.enum = .spinUnlock := by simpa using find?_some hhu
  obtain ⟨k, hk, h⟩ := Option.bind_eq_some_iff.mp h
  obtain ⟨call, hcall, h⟩ := Option.bind_eq_some_iff.mp h
  have he : ev[i]? = some call.helper.enum := by
    rw [← hs.view.getElem?_eq, hk, Option.bind_some, hcall]
    rfl
  by_cases hiu : call.helper.enum = .spinUnlock
  · rw [if_pos hiu] at h
    obtain ⟨⟨s1, goOn⟩, hround, h⟩ := Option.bind_eq_some_iff.mp h
    rw [hiu] at he
    cases hheld : s.lockHeld with
    | none =>
      simp only [fixUnlock, hheld, hhl] at hround
      obtain ⟨s2, hs2, heq⟩ := Option.map_eq_some_iff.mp hround
      cases heq
      obtain ⟨hkinded, hsome⟩ := insertCall_kinded hs hs2
      rw [hlenum] at hkinded
      refine ⟨_, s1, _, he, hkinded, ?_, h⟩
      rw [hsome]
      exact .opened
    | some held =>
      simp only [fixUnlock, hheld] at hround
      obtain ⟨a, -, hround⟩ := Option.bind_eq_some_iff.mp hround
      split at hround
      · cases hround
        exact ⟨_, { s with lockHeld := none }, ec, he, ⟨hs.view, hs.calls⟩, .closed, h⟩
      · cases hround
        exact ⟨_, _, ec, he, ⟨hs.view.modify _ _, hs.calls.modify _ _⟩, .closed, h⟩
  rw [if_neg hiu] at h
  by_cases hil : call.helper.enum = .spinLock
  · rw [if_pos hil] at h
    obtain ⟨⟨s1, goOn⟩, hround, h⟩ := Option.bind_eq_some_iff.mp h
    rw [hil] at he
    have hnext := hs.calls.getElem?_eq (i + 1)
    simp only [fixLock, hhu] at hround
    split at hround
    · rename_i hany
      obtain ⟨d, hd, hdu⟩ := Option.any_eq_true _ _ |>.mp hany
      obtain ⟨a, -, hround⟩ := Option.bind_eq_some_iff.mp hround
      cases hround
      refine ⟨_, { s with lockHeld := some a.name }, ec, he, ⟨hs.view, hs.calls⟩, .followed ?_, h⟩
      rw [← hnext, hd, Option.map_some, of_decide_eq_true hdu]
    · rename_i hany
      obtain ⟨s2, hs2, heq⟩ := Option.map_eq_some_iff.mp hround
      cases heq
      obtain ⟨hkinded, hsome⟩ := insertCall_kinded hs hs2
      rw [huenum] at hkinded
      refine ⟨_, s1, _, he, hkinded, ?_, h⟩
      rw [hsome]
      refine .completed fun hec => hany ?_
      obtain ⟨d, hd, hdu⟩ := Option.map_eq_some_iff.mp (hnext.trans hec)
      rw [hd, Option.any_some, hdu]
      rfl
  · rw [if_neg hil] at h
    exact ⟨_, s, ec, he, hs, .other hiu hil, h⟩

end Full

/-! ### Two unlocks in a row -/

def spinKinds (es : List HelperEnum) : List HelperEnum :=
  es.filter fun e => e = .spinLock ∨ e = .spinUnlock

@[simp] theorem spinKinds_append (es es' : List HelperEnum) :
    spinKinds (es ++ es') = spinKinds es ++ spinKinds es' := filter_append _ _

/-- Between two unlocks there is no lock. -/
def TwoUnlocks (es : List HelperEnum) : Prop := [.spinUnlock, .spinUnlock] <:+: spinKinds es

def EndsUnlocked (es : List HelperEnum) : Prop := [.spinUnlock] <:+ spinKinds es

section Unlocks

variable {es es' : List HelperEnum}

theorem TwoUnlocks.append (h : TwoUnlocks es) (es' : List HelperEnum) : TwoUnlocks (es ++ es') := by
  unfold TwoUnlocks at *
  rw [spinKinds_append]
  exact h.trans (prefix_append _ _).isInfix

variable {b : ℕ}

theorem TwoUnlocks.of_take (h : TwoUnlocks (es.take b)) : TwoUnlocks es := by
  rw [← take_append_drop b es]
  exact h.append _

theorem TwoUnlocks.insert (h : TwoUnlocks (es.take b)) (hb : b ≤ pos)
    (e : HelperEnum) : TwoUnlocks ((es.take pos ++ e :: es.drop pos).take b) := by
  rw [take_append, take_take, min_eq_left hb]
  exact h.append _

theorem endsUnlocked_snoc (es : List HelperEnum) : EndsUnlocked (es ++ [.spinUnlock]) := by
  rw [EndsUnlocked, spinKinds_append]
  exact suffix_append _ _

theorem EndsUnlocked.other (h : EndsUnlocked es) {e : HelperEnum} (hu : e ≠ .spinUnlock)
    (hl : e ≠ .spinLock) : EndsUnlocked (es ++ [e]) := by
  have hnone : spinKinds [e] = [] := by simp [spinKinds, hu, hl]
  rw [EndsUnlocked, spinKinds_append, hnone, append_nil]
  exact h

theorem EndsUnlocked.twice (h : EndsUnlocked es) : TwoUnlocks (es ++ [.spinUnlock]) := by
  obtain ⟨before, hbefore⟩ := h
  rw [TwoUnlocks, spinKinds_append, ← hbefore, append_assoc]
  exact ⟨before, [], append_nil _⟩

end Unlocks

/-- The state in front of round `i` from which two unlocks in a row come out. They are already
there and no later round parts them; or the calls have one or two unlocks too many where the
next rounds insert. -/
inductive Doomed (ev : List HelperEnum) (i : ℕ) (ec : List HelperEnum) : Bool → Prop
  | twice {held : Bool} (b : ℕ) (hb : b ≤ i ∨ b = i + 1 ∧ held)
      (h : TwoUnlocks (ec.take b)) : Doomed ev i ec held
  | free (r : ℕ) (hlast : EndsUnlocked (ec.take i))
      (hrest : ec.drop i = List.replicate (r + 1) .spinUnlock ++ ev.drop i) : Doomed ev i ec false
  | held (r : ℕ) (hrest : ec.drop i = List.replicate (r + 2) .spinUnlock ++ ev.drop i) :
      Doomed ev i ec true

/-- The state in front of round `i` behind the first insertion, as long as no spin lock call
follows. -/
structure Shifted (ev : List HelperEnum) (i : ℕ) (ec : List HelperEnum) (held : Bool) : Prop where
  held : held
  last : EndsUnlocked (ec.take (i + 1))
  rest : ec.drop (i + 1) = ev.drop i

section Steps

variable {ev ec ec' : List HelperEnum} {i : ℕ} {held held' : Bool} {e : HelperEnum} {α : Type}
  {l : List α} {a : α}

theorem drop_of_getElem? (h : l[i]? = some a) : l.drop i = a :: l.drop (i + 1) := by
  obtain ⟨hi, rfl⟩ := List.getElem?_eq_some_iff.mp h
  exact drop_eq_getElem_cons hi

variable {l' : List α}

theorem take_of_drop (h : l.drop i = a :: l') : l.take (i + 1) = l.take i ++ [a] := by
  rw [take_add, h]
  rfl

theorem lt_of_drop (h : l.drop i = a :: l') : i < l.length := by
  by_contra hi
  rw [drop_eq_nil_of_le (Nat.le_of_not_lt hi)] at h
  cases h

theorem replicate_append_cons (n : ℕ) (a : α) (l : List α) :
    List.replicate n a ++ a :: l = List.replicate (n + 1) a ++ l := by
  rw [replicate_succ', append_assoc, singleton_append]

theorem LockStep.unlock_held (h : LockStep i .spinUnlock ec true ec' held') : ec' = ec := by
  cases h with
  | other hu => exact absurd rfl hu
  | closed => rfl

theorem LockStep.unlock_free (h : LockStep i .spinUnlock ec false ec' held') :
    ec' = ec.take i ++ .spinLock :: ec.drop i ∧ held' := by
  cases h with
  | other hu => exact absurd rfl hu
  | opened => exact ⟨rfl, rfl⟩

theorem LockStep.lock (h : LockStep i .spinLock ec held ec' held')
    (hnext : ec[i + 1]? ≠ some .spinUnlock) :
    ec' = ec.take (i + 1) ++ .spinUnlock :: ec.drop (i + 1) ∧ held' := by
  cases h with
  | other _ hl => exact absurd rfl hl
  | followed h => exact absurd h hnext
  | completed => exact ⟨rfl, rfl⟩

theorem Doomed.step (h : Doomed ev i ec held) (he : ev[i]? = some e)
    (hstep : LockStep i e ec held ec' held') : Doomed ev (i + 1) ec' held' := by
  have hev := drop_of_getElem? he
  cases h with
  | twice b hb h =>
    cases hstep with
    | other => exact .twice b (.inl (by omega)) h
    | opened => exact .twice b (.inl (by omega)) (h.insert (by simpa using hb) _)
    | closed | followed => exact .twice b (.inl (by omega)) h
    | completed => exact .twice b (.inl (by omega)) (h.insert (by omega) _)
  | free r hlast hrest =>
    have hhead : ec.drop i = .spinUnlock :: (List.replicate r .spinUnlock ++ ev.drop i) := hrest
    have htwice : TwoUnlocks (ec.take (i + 1)) := by
      rw [take_of_drop hhead]
      exact hlast.twice
    cases hstep with
    | other => exact .twice (i + 1) (.inl le_rfl) htwice
    | opened =>
      -- the new lock parts them, and one unlock more is in front of the next round
      refine .held r ?_
      have hlen : (ec.take i).length = i := length_take_of_le (lt_of_drop hhead).le
      rw [append_cons, drop_left' (by simp [hlen]), hrest, hev, replicate_append_cons]
    | followed => exact .twice (i + 1) (.inl le_rfl) htwice
    | completed => exact .twice (i + 1) (.inl le_rfl) (htwice.insert le_rfl _)
  | held r hrest =>
    have hhead : ec.drop i = .spinUnlock :: (List.replicate (r + 1) .spinUnlock ++ ev.drop i) :=
      hrest
    have hnext : ec.drop (i + 1) = List.replicate (r + 1) .spinUnlock ++ ev.drop i := by
      rw [← drop_drop, hhead]
      rfl
    have hlast : EndsUnlocked (ec.take (i + 1)) := by
      rw [take_of_drop hhead]
      exact endsUnlocked_snoc _
    have htwice : TwoUnlocks (ec.take (i + 2)) := by
      rw [take_of_drop (show ec.drop (i + 1) = .spinUnlock :: _ from hnext)]
      exact hlast.twice
    cases hstep with
    | other => exact .twice (i + 2) (.inr ⟨rfl, rfl⟩) htwice
    | closed =>
      cases held' with
      | true => exact .twice (i + 2) (.inr ⟨rfl, rfl⟩) htwice
      | false =>
        rw [hev, replicate_append_cons] at hnext
        exact .free (r + 1) hlast hnext
    | followed => exact .twice (i + 2) (.inr ⟨rfl, rfl⟩) htwice
    | completed h =>
      refine absurd ?_ h
      rw [← head?_drop, hnext]
      rfl

theorem Doomed.twoUnlocks (h : Doomed ev i ec held) : TwoUnlocks ec := by
  cases h with
  | twice b _ h => exact h.of_take
  | free r hlast hrest =>
    have hhead : ec.drop i = .spinUnlock :: (List.replicate r .spinUnlock ++ ev.drop i) := hrest
    refine TwoUnlocks.of_take (b := i + 1) ?_
    rw [take_of_drop hhead]
    exact hlast.twice
  | held r hrest =>
    rw [TwoUnlocks, ← take_append_drop i ec, hrest, spinKinds_append]
    refine ⟨spinKinds (ec.take i), spinKinds (List.replicate r .spinUnlock) ++
      spinKinds (ev.drop i), ?_⟩
    simp [spinKinds, replicate_succ]

/-- A spin lock call behind the first insertion dooms the state. -/
theorem Shifted.step (h : Shifted ev i ec held) (he : ev[i]? = some e)
    (hstep : LockStep i e ec held ec' held') : Shifted ev (i + 1) ec' held' ∧ e ≠ .spinUnlock ∧
    e ≠ .spinLock ∨ Doomed ev (i + 1) ec' held' := by
  have hev := drop_of_getElem? he
  have hhead := h.rest.trans hev
  have htake := take_of_drop hhead
  have hrest : ec.drop (i + 1 + 1) = ev.drop (i + 1) := by
    rw [← drop_drop, hhead]
    rfl
  obtain rfl := h.held
  cases hstep with
  | other hu hl =>
    refine .inl ⟨⟨rfl, ?_, hrest⟩, hu, hl⟩
    rw [htake]
    exact h.last.other hu hl
  | closed =>
    right
    cases held' with
    | true =>
      refine .twice (i + 2) (.inr ⟨rfl, rfl⟩) ?_
      rw [htake]
      exact h.last.twice
    | false => exact .free 0 h.last hhead
  | followed hnext =>
    rw [← head?_drop, hhead] at hnext
    cases hnext
  | completed =>
    right
    refine .twice (i + 2) (.inr ⟨rfl, rfl⟩) ?_
    have hlen : (ec.take (i + 1)).length = i + 1 :=
      length_take_of_le (lt_of_drop hhead).le
    rw [append_cons, take_left' (by simp [hlen])]
    exact h.last.twice

theorem shifted_opened (pre rest : List HelperEnum) :
    Shifted (pre ++ .spinUnlock :: rest) (pre.length + 1)
      ((pre ++ .spinUnlock :: rest).take pre.length ++ .spinLock ::
        (pre ++ .spinUnlock :: rest).drop pre.length) true := by
  have hsplit : pre ++ .spinLock :: .spinUnlock :: rest =
      (pre ++ [.spinLock, .spinUnlock]) ++ rest := by simp
  have hlen : pre.length + 1 + 1 = (pre ++ [spinLock, .spinUnlock]).length := by simp
  rw [take_left, drop_left]
  refine ⟨rfl, ?_, ?_⟩
  · rw [hsplit, hlen, take_left, append_cons]
    exact endsUnlocked_snoc _
  · rw [hsplit, hlen, drop_left, append_cons, drop_left' (by simp)]

theorem shifted_completed (pre rest : List HelperEnum) :
    Shifted (pre ++ .spinLock :: rest) (pre.length + 1)
      ((pre ++ .spinLock :: rest).take (pre.length + 1) ++ .spinUnlock ::
        (pre ++ .spinLock :: rest).drop (pre.length + 1)) true := by
  have hlen : pre.length + 1 = (pre ++ [spinLock]).length := by simp
  rw [append_cons pre, hlen, drop_left]
  refine ⟨rfl, ?_, ?_⟩
  · rw [append_cons _ spinUnlock, take_left' (by simp)]
    exact endsUnlocked_snoc _
  · rw [append_cons _ spinUnlock, drop_left' (by simp), drop_left]

end Steps

section Runs

variable {pt : BpfProgType} {s s' : LockState} {ev ec : List HelperEnum} {n i : ℕ}
  (hlock : (pt.getHelper .spinLock).isSome) (hunlock : (pt.getHelper .spinUnlock).isSome)

include hlock hunlock

theorem fixSpinLockFrom_doomed (hs : s.Kinded ev ec) (hd : Doomed ev i ec s.lockHeld.isSome)
    (h : fixSpinLockFrom pt (fun _ => false) n i s = some s') :
    ∃ ec', Kinds s'.store s'.calls ec' ∧ TwoUnlocks ec' := by
  induction n generalizing i s ec with
  | zero =>
    cases h
    exact ⟨ec, hs.calls, hd.twoUnlocks⟩
  | succ n ih =>
    obtain ⟨e, s1, ec1, he, hs1, hstep, hrun⟩ := fixSpinLockFrom_step hlock hunlock hs h
    exact ih hs1 (hd.step he hstep) hrun

theorem fixSpinLockFrom_shifted (hs : s.Kinded ev ec) (hshift : Shifted ev i ec s.lockHeld.isSome)
    (hn : ev.length ≤ i + n) (hspin : ∃ e ∈ ev.drop i, e = .spinLock ∨ e = .spinUnlock)
    (h : fixSpinLockFrom pt (fun _ => false) n i s = some s') :
    ∃ ec', Kinds s'.store s'.calls ec' ∧ TwoUnlocks ec' := by
  induction n generalizing i s ec with
  | zero =>
    rw [drop_eq_nil_of_le (by simpa using hn)] at hspin
    simp at hspin
  | succ n ih =>
    obtain ⟨e, s1, ec1, he, hs1, hstep, hrun⟩ := fixSpinLockFrom_step hlock hunlock hs h
    rcases hshift.step he hstep with ⟨hshift, hu, hl⟩ | hd
    · refine ih hs1 hshift (by omega) ?_ hrun
      rw [drop_of_getElem? he] at hspin
      simpa [hu, hl] using hspin
    · exact fixSpinLockFrom_doomed hlock hunlock hs1 hd hrun

end Runs

/-! ### Rounds before the first insertion -/

/-- Both slices hold the calls `cs`. -/
def LockState.start (cs : List BpfCall) (held : Option ArgName) : LockState :=
  ⟨cs, List.range cs.length, List.range cs.length, true, held⟩

/-- An unlock, made to name the lock that is held. -/
def matched (name : ArgName) (u : BpfCall) : BpfCall :=
  if u.lockName = some name then u else setFirstArg name u

section Before

variable {pt : BpfProgType} {inPlace : ℕ → Bool} {pre rest : List BpfCall} {c l u : BpfCall}
  {held : Option ArgName} {a b : BpfArg} {n : ℕ}

theorem start_view (pre rest : List BpfCall) (c : BpfCall) (held : Option ArgName) :
    (start (pre ++ c :: rest) held).view[pre.length]? = some pre.length := by
  simp [start]

theorem start_store (pre rest : List BpfCall) (c : BpfCall) (held : Option ArgName) :
    (start (pre ++ c :: rest) held).store[pre.length]? = some c := by
  simp [start]

theorem fixSpinLockFrom_start : fixSpinLockFrom pt inPlace (n + 1) pre.length
      (.start (pre ++ c :: rest) held) = (do
    let (s, goOn) ←
      if c.helper.enum = .spinUnlock then
        fixUnlock pt (inPlace pre.length) pre.length pre.length c (.start (pre ++ c :: rest) held)
      else if c.helper.enum = .spinLock then
        fixLock pt (inPlace pre.length) pre.length c (.start (pre ++ c :: rest) held)
      else some (.start (pre ++ c :: rest) held, true)
    if goOn then fixSpinLockFrom pt inPlace n (pre.length + 1) s else some s) := by
  rw [fixSpinLockFrom, start_view, Option.bind_eq_bind, Option.bind_some, start_store,
    Option.bind_eq_bind, Option.bind_some]

theorem fixSpinLockFrom_other (hc : ¬ c.isSpin) :
    fixSpinLockFrom pt inPlace (n + 1) pre.length (.start (pre ++ c :: rest) held) =
      fixSpinLockFrom pt inPlace n (pre ++ [c]).length (.start ((pre ++ [c]) ++ rest) held) := by
  rw [fixSpinLockFrom_start, if_neg fun h => hc (.inr h), if_neg fun h => hc (.inl h)]
  simp

theorem modify_length {α : Type} (f : α → α) (pre rest : List α) (c : α) :
    (pre ++ c :: rest).modify pre.length f = pre ++ f c :: rest := by
  induction pre with
  | nil => rfl
  | cons a pre ih => simp [ih]

theorem fixUnlock_held (hb : u.args.head? = some b) (name : ArgName) :
    fixUnlock pt (inPlace pre.length) pre.length pre.length u
        (.start (pre ++ u :: rest) (some name)) =
      some (.start (pre ++ matched name u :: rest) (if b.name = name then none else some name),
        true) := by
  have hname : u.lockName = some b.name := by rw [lockName, hb]; rfl
  by_cases h : b.name = name
  · simp [fixUnlock, start, hb, h, matched, hname]
  · simp [fixUnlock, start, hb, h, matched, hname, modify_length]

theorem fixSpinLockFrom_pair (hl : l.helper.enum = .spinLock) (hu : u.helper.enum = .spinUnlock)
    (ha : l.args.head? = some a) (hb : u.args.head? = some b) :
    fixSpinLockFrom pt inPlace (n + 2) pre.length (.start (pre ++ l :: u :: rest) held) =
      fixSpinLockFrom pt inPlace n (pre ++ [l, matched a.name u]).length
        (.start ((pre ++ [l, matched a.name u]) ++ rest)
          (if b.name = a.name then none else some a.name)) := by
  have hlock : fixLock pt (inPlace pre.length) pre.length l (.start (pre ++ l :: u :: rest) held) =
      some (.start ((pre ++ [l]) ++ u :: rest) (some a.name), true) := by
    simp [fixLock, start, hu, ha]
  have hlen : pre.length + 1 = (pre ++ [l]).length := by simp
  rw [fixSpinLockFrom_start, if_neg (by rw [hl]; decide), if_pos hl, hlock,
    Option.bind_eq_bind, Option.bind_some]
  simp only [if_true]
  rw [hlen, fixSpinLockFrom_start, if_pos hu, fixUnlock_held hb]
  simp

theorem held_isNone (ha : l.args.head? = some a) (hb : u.args.head? = some b) :
    (if b.name = a.name then none else some a.name).isNone = decide (u.lockName = l.lockName) := by
  by_cases hname : b.name = a.name <;> simp [lockName, ha, hb, hname]

theorem start_resolves (cs : List BpfCall) (held : Option ArgName) :
    Resolves (start cs held).store (start cs held).view cs ∧
      Resolves (start cs held).store (start cs held).calls cs :=
  ⟨resolves_range cs, resolves_range cs⟩

theorem start_kinded (cs : List BpfCall) (held : Option ArgName) :
    (start cs held).Kinded (cs.map (·.helper.enum)) (cs.map (·.helper.enum)) :=
  ⟨(resolves_range cs).kinds, (resolves_range cs).kinds⟩

theorem start_insertCall (pre rest : List BpfCall) (held : Option ArgName)
    (hargs : helper.args ≠ []) (hc : c.args ≠ []) (pos : ℕ) (room : Bool) :
    ∃ s, (start (pre ++ c :: rest) held).insertCall helper pre.length pos room = some s ∧
      Inserted (pre ++ c :: rest) (pre ++ c :: rest) room helper pre.length pos s := by
  obtain ⟨a, as, has⟩ := exists_cons_of_ne_nil hc
  have hname : (start (pre ++ c :: rest) held).argNameAt pre.length = some a.name := by
    simp [argNameAt, start, has]
  obtain ⟨t, ts, hts⟩ := exists_cons_of_ne_nil hargs
  obtain ⟨s, hs⟩ : ∃ s, (start (pre ++ c :: rest) held).insertCall helper pre.length pos
      room = some s := by
    rw [insertCall, hname, hts]
    exact ⟨_, rfl⟩
  obtain ⟨hview, hcalls⟩ := start_resolves (pre ++ c :: rest) held
  exact ⟨s, hs, insertCall_spec hview hcalls hs⟩

end Before

section Whole

variable {pt : BpfProgType} {lock unlock : BpfHelper} (hlock : pt.getHelper .spinLock = some lock)
  (hunlock : pt.getHelper .spinUnlock = some unlock) (hlargs : lock.args ≠ [])
  (huargs : unlock.args ≠ [])

theorem lockName_matched {u : BpfCall} (h : u.args ≠ []) (name : ArgName) :
    (matched name u).lockName = some name := by
  unfold matched
  split
  · assumption
  · obtain ⟨a, as, has⟩ := exists_cons_of_ne_nil h
    simp [lockName, setFirstArg, has]

theorem matched_enum (name : ArgName) (u : BpfCall) :
    (matched name u).helper.enum = u.helper.enum := by
  unfold matched
  split <;> rfl

theorem exists_spin_of_all {calls : List BpfCall} (h : calls.all (¬ ·.isSpin) = false) :
    ∃ e ∈ calls.map (·.helper.enum), e = .spinLock ∨ e = .spinUnlock := by
  obtain ⟨c, hc, hspin⟩ := all_eq_false.mp h
  have hspin : c.isSpin := by simpa using hspin
  exact ⟨_, mem_map_of_mem hc, hspin⟩

/-- What the loop makes of the calls that follow `pre`. -/
def Repairs (pt : BpfProgType) (inPlace : ℕ → Bool) (pre rest : List BpfCall)
    (held : Option ArgName) (orig : List BpfCall) : Prop :=
  ∃ s' cs, fixSpinLockFrom pt inPlace rest.length pre.length (.start (pre ++ rest) held) = some s' ∧
    Resolves s'.store s'.calls cs ∧ LocksRepaired (orig ++ rest) cs

include hlock hunlock hlargs huargs

variable {inPlace : ℕ → Bool} {pre orig rest : List BpfCall} {c : BpfCall}

omit hunlock huargs in
theorem repairs_unlock
    (hpre : LocksRepaired orig pre) (hc : c.helper.enum = .spinUnlock) (hargs : c.args ≠ [])
    (hrest : ∀ d ∈ rest, ¬ d.isSpin) : Repairs pt inPlace pre (c :: rest) none orig := by
  have hlenum : lock.enum = .spinLock := by simpa using find?_some hlock
  obtain ⟨s, hs, hins⟩ := start_insertCall pre rest none hlargs hargs pre.length (inPlace pre.length)
  have hround : fixUnlock pt (inPlace pre.length) pre.length pre.length c
      (.start (pre ++ c :: rest) none) = some (s, true) := by
    rw [fixUnlock]
    simp only [start, hlock]
    exact congrArg (Option.map (·, true)) hs
  obtain ⟨s', a, t, hrun, ha, hcs⟩ := hins.before pt inPlace hc hrest
  refine ⟨s', _, ?_, hcs, ?_⟩
  · rw [length_cons, fixSpinLockFrom_start, if_pos hc, hround]
    exact hrun
  · have hname : c.lockName = some a.name := by rw [lockName, ha]; rfl
    have hpair : LocksRepaired [c] [lockCall lock t a.name, c] :=
      locksRepaired_pair hlenum hc hname (by simpa using .inr hc)
    exact hpre.append (hpair.append (locksRepaired_quiet hrest))

omit hlock hlargs in
theorem repairs_lock (held : Option ArgName) (hpre : LocksRepaired orig pre)
    (hc : c.helper.enum = .spinLock) (hargs : c.args ≠ []) (hrest : ∀ d ∈ rest, ¬ d.isSpin) :
    Repairs pt inPlace pre (c :: rest) held orig := by
  have huenum : unlock.enum = .spinUnlock := by simpa using find?_some hunlock
  obtain ⟨s, hs, hins⟩ :=
    start_insertCall pre rest held huargs hargs (pre.length + 1) (inPlace pre.length)
  have hround : fixLock pt (inPlace pre.length) pre.length c
      (.start (pre ++ c :: rest) held) = some (s, true) := by
    simp only [fixLock, not_followed (start_resolves (pre ++ c :: rest) held).2 hrest, hunlock,
      Bool.false_eq_true, if_false]
    exact congrArg (Option.map (·, true)) hs
  obtain ⟨s', a, t, hrun, ha, hcs⟩ := hins.after pt inPlace huenum hrest
  refine ⟨s', _, ?_, hcs, ?_⟩
  · rw [length_cons, fixSpinLockFrom_start, if_neg (by rw [hc]; decide), if_pos hc, hround]
    exact hrun
  · have hname : c.lockName = some a.name := by rw [lockName, ha]; rfl
    have hpair : LocksRepaired [c] [c, lockCall unlock t a.name] :=
      locksRepaired_pair hc huenum hname.symm (by simpa using .inl hc)
    exact hpre.append (hpair.append (locksRepaired_quiet hrest))

variable {free : Bool}

theorem repairs_of_almostPaired (inPlace : ℕ → Bool)
    (hok : almostPaired free rest) (pre orig : List BpfCall) (held : Option ArgName)
    (hfree : held.isNone = free) (hpre : LocksRepaired orig pre)
    (hargs : ∀ c ∈ rest, c.isSpin → c.args ≠ []) : Repairs pt inPlace pre rest held orig := by
  fun_induction almostPaired free rest generalizing pre orig held with
  | case1 free =>
    refine ⟨_, pre, rfl, ?_, by simpa using hpre⟩
    rw [append_nil]
    exact resolves_range pre
  | case2 free c rest hc =>
    simp only [Bool.and_eq_true, all_eq_true, decide_eq_true_eq] at hok
    obtain rfl := Option.isNone_iff_eq_none.mp (hfree.trans hok.1)
    exact repairs_unlock hlock hlargs hpre hc (hargs c mem_cons_self (.inr hc)) hok.2
  | case3 free c hu hl =>
    exact repairs_lock hunlock huargs held hpre hl (hargs c mem_cons_self (.inl hl)) (by simp)
  | case4 free c hu hl d rest hd ih =>
    obtain ⟨a, as, has⟩ := exists_cons_of_ne_nil (hargs c mem_cons_self (.inl hl))
    have hdargs := hargs d (by simp) (.inr hd)
    obtain ⟨b, bs, hbs⟩ := exists_cons_of_ne_nil hdargs
    have ha : c.args.head? = some a := by rw [has]; rfl
    have hb : d.args.head? = some b := by rw [hbs]; rfl
    have hpair : LocksRepaired [c, d] [c, matched a.name d] := by
      refine locksRepaired_pair hl ((matched_enum _ _).trans hd) ?_ (by simpa using ⟨.inl hl, .inr hd⟩)
      rw [lockName_matched hdargs, lockName, ha]
      rfl
    obtain ⟨s', cs, hrun, hcs, hrep⟩ := ih hok _ _ _ (held_isNone ha hb) (hpre.append hpair)
      fun e he => hargs e (by simp [he])
    refine ⟨s', cs, ?_, hcs, by simpa using hrep⟩
    exact (fixSpinLockFrom_pair hl hd ha hb).trans hrun
  | case5 free c hu hl d rest hd =>
    simp only [all_eq_true, decide_eq_true_eq] at hok
    exact repairs_lock hunlock huargs held hpre hl (hargs c mem_cons_self (.inl hl)) hok
  | case6 free c rest hu hl ih =>
    have hc : ¬ c.isSpin := fun h => h.elim hl hu
    have hquiet : LocksRepaired [c] [c] := locksRepaired_quiet (by simpa using hc)
    obtain ⟨s', cs, hrun, hcs, hrep⟩ := ih hok _ _ _ hfree (hpre.append hquiet)
      fun e he => hargs e (by simp [he])
    refine ⟨s', cs, ?_, hcs, by simpa using hrep⟩
    exact (fixSpinLockFrom_other hc).trans hrun

omit hlargs huargs in
/-- Two unlocks in a row come out of all other calls, when the array of the calls is full. -/
theorem twoUnlocks_of_not_almostPaired
    (hbad : almostPaired free rest = false) (pre : List BpfCall) (held : Option ArgName)
    (hfree : held.isNone = free) (hlast : free = false → EndsUnlocked (pre.map (·.helper.enum)))
    (hargs : ∀ c ∈ rest, c.isSpin → c.args ≠ []) {s' : LockState}
    (h : fixSpinLockFrom pt (fun _ => false) rest.length pre.length (.start (pre ++ rest) held) =
      some s') : ∃ ec, Kinds s'.store s'.calls ec ∧ TwoUnlocks ec := by
  have hl := Option.isSome_of_eq_some hlock
  have hu := Option.isSome_of_eq_some hunlock
  fun_induction almostPaired free rest generalizing pre held with
  | case1 => cases hbad
  | case2 free c rest hc =>
    obtain ⟨e, s1, ec, he, hs1, hstep, hrun⟩ :=
      fixSpinLockFrom_step hl hu (start_kinded (pre ++ c :: rest) held) h
    have hkinds : (pre ++ c :: rest).map (·.helper.enum) =
        pre.map (·.helper.enum) ++ .spinUnlock :: rest.map (·.helper.enum) := by simp [hc]
    have hlen : pre.length = (pre.map (·.helper.enum)).length := by simp
    obtain rfl : spinUnlock = e := by simpa [hc] using he
    rw [hkinds] at hs1 hstep
    cases held with
    | some name =>
      obtain rfl := hstep.unlock_held
      refine fixSpinLockFrom_doomed hl hu hs1 (.twice _ (.inl le_rfl) ?_) hrun
      rw [append_cons, take_left' (by simp)]
      exact (hlast hfree.symm).twice
    | none =>
      obtain ⟨rfl, hheld⟩ := hstep.unlock_free
      have hspin : rest.all (¬ ·.isSpin) = false := by
        obtain rfl := hfree
        simpa using hbad
      refine fixSpinLockFrom_shifted hl hu hs1 ?_ (by simp; omega) ?_ hrun
      · rw [hheld, hlen]
        exact shifted_opened _ _
      · rw [append_cons, drop_left' (by simp)]
        exact exists_spin_of_all hspin
  | case3 => cases hbad
  | case4 free c hu' hl' d rest hd ih =>
    obtain ⟨a, as, has⟩ := exists_cons_of_ne_nil (hargs c mem_cons_self (.inl hl'))
    obtain ⟨b, bs, hbs⟩ := exists_cons_of_ne_nil (hargs d (by simp) (.inr hd))
    have ha : c.args.head? = some a := by rw [has]; rfl
    have hb : d.args.head? = some b := by rw [hbs]; rfl
    refine ih hbad _ _ (held_isNone ha hb) ?_ (fun e he => hargs e (by simp [he]))
      ((fixSpinLockFrom_pair hl' hd ha hb).symm.trans h)
    intro _
    rw [append_cons, map_append, map_singleton, matched_enum, hd]
    exact endsUnlocked_snoc _
  | case5 free c hu' hl' d rest hd =>
    obtain ⟨e, s1, ec, he, hs1, hstep, hrun⟩ :=
      fixSpinLockFrom_step hl hu (start_kinded (pre ++ c :: d :: rest) held) h
    have hkinds : (pre ++ c :: d :: rest).map (·.helper.enum) =
        pre.map (·.helper.enum) ++ .spinLock :: (d :: rest).map (·.helper.enum) := by simp [hl']
    have hlen : pre.length = (pre.map (·.helper.enum)).length := by simp
    obtain rfl : spinLock = e := by simpa [hl'] using he
    rw [hkinds] at hs1 hstep
    have hnext : (pre.map (·.helper.enum) ++ .spinLock :: (d :: rest).map (·.helper.enum))[
        pre.length + 1]? ≠ some .spinUnlock := by
      simpa using hd
    obtain ⟨rfl, hheld⟩ := hstep.lock hnext
    refine fixSpinLockFrom_shifted hl hu hs1 ?_ (by simp; omega) ?_ hrun
    · rw [hheld, hlen]
      exact shifted_completed _ _
    · rw [append_cons, drop_left' (by simp)]
      exact exists_spin_of_all hbad
  | case6 free c rest hu' hl' ih =>
    have hc : ¬ c.isSpin := fun h => h.elim hl' hu'
    refine ih hbad _ _ hfree ?_ (fun e he => hargs e (by simp [he]))
      ((fixSpinLockFrom_other hc).symm.trans h)
    intro hf
    rw [map_append]
    exact (hlast hf).other hu' hl'

end Whole

theorem Alternates.isChain {cs : List BpfCall} (h : Alternates cs) :
    (spinUnlock :: cs.map (·.helper.enum)).IsChain (· ≠ ·) := by
  induction cs using Alternates.induct with
  | case1 => exact .singleton _
  | case2 => exact h.elim
  | case3 l u rest ih =>
    obtain ⟨hl, hu, -, hrest⟩ := h
    rw [map_cons, map_cons, hl, hu]
    exact .cons_cons (by decide) (.cons_cons (by decide) (ih hrest))

theorem LocksRepaired.not_twoUnlocks {before after : List BpfCall}
    (h : LocksRepaired before after) : ¬ TwoUnlocks (after.map (·.helper.enum)) := by
  intro htwo
  have hkinds : spinKinds (after.map (·.helper.enum)) =
      (after.filter (·.isSpin)).map (·.helper.enum) := by
    rw [spinKinds, filter_map]
    rfl
  rw [TwoUnlocks, hkinds] at htwo
  have hchain := h.spins.isChain.infix (htwo.trans (suffix_cons _ _).isInfix)
  exact absurd hchain (by simp)

theorem getHelper_args {pt : BpfProgType} (hpt : pt.FromCatalog) {e : HelperEnum}
    (he : e = .spinLock ∨ e = .spinUnlock) (h : pt.getHelper e = some helper) :
    helper.args ≠ [] := by
  obtain ⟨proto, rfl⟩ := hpt helper (mem_of_find?_eq_some h)
  have henum : (helperFuncMap proto).enum = e := by simpa using find?_some h
  rw [(helperFuncMap_spin proto (henum ▸ he)).2]
  exact cons_ne_nil _ _

/-- The spin lock calls of a program are repaired, wherever the array of the calls is moved, exactly
when they are paired but for the last one. -/
theorem fixSpinLock_repairs_iff {p : BpfProg} (hpt : p.pt.FromCatalog)
    (hlock : (p.pt.getHelper .spinLock).isSome) (hunlock : (p.pt.getHelper .spinUnlock).isSome)
    (hargs : ∀ c ∈ p.calls, c.isSpin → c.args ≠ []) :
    (∀ inPlace, ∃ p', fixSpinLock inPlace p = some p' ∧ LocksRepaired p.calls p'.calls) ↔
      almostPaired true p.calls := by
  obtain ⟨lock, hlock⟩ := Option.isSome_iff_exists.mp hlock
  obtain ⟨unlock, hunlock⟩ := Option.isSome_iff_exists.mp hunlock
  constructor
  · intro h
    obtain ⟨p', hp', hrep⟩ := h fun _ => false
    obtain ⟨s', hrun, hp'⟩ := Option.bind_eq_some_iff.mp hp'
    cases hp'
    by_contra hbad
    obtain ⟨ec, hec, htwo⟩ := twoUnlocks_of_not_almostPaired hlock hunlock
      (by simpa using hbad) [] none rfl (by simp) hargs hrun
    refine hrep.not_twoUnlocks ?_
    rw [hec.filterMap]
    exact htwo
  · intro hok inPlace
    obtain ⟨s', cs, hrun, hcs, hrep⟩ := repairs_of_almostPaired hlock hunlock
      (getHelper_args hpt (.inl rfl) hlock) (getHelper_args hpt (.inr rfl) hunlock)
      inPlace hok [] [] none rfl ⟨trivial, rfl⟩ hargs
    refine ⟨{ p with calls := s'.calls.filterMap (s'.store[·]?) }, ?_, ?_⟩
    · exact congrArg (Option.bind · fun s =>
        some { p with calls := s.calls.filterMap (s.store[·]?) }) hrun
    · rw [hcs.filterMap]
      exact hrep

def spinCall (proto : Proto) (v : ℕ) : BpfCall :=
  lockCall (helperFuncMap proto) .ptrToSpinLock (.var v)

/-- A program with the calls, of a type that offers both helpers. -/
def spinProg (calls : List BpfCall) : BpfProg := { sockAddrProg with calls }

/-- A pair that names two locks, and a lock alone. -/
def pairedCalls : List BpfCall := [spinCall .bpfSpinLock 0, spinCall .bpfSpinUnlock 1,
  spinCall .bpfSpinLock 2]

theorem fixSpinLock_repairs_pairedCalls : almostPaired true pairedCalls ∧
    ∀ inPlace, ∃ p', fixSpinLock inPlace (spinProg pairedCalls) = some p' ∧
      LocksRepaired pairedCalls p'.calls := by
  have hpt : cgroupSockAddr.FromCatalog := by
    intro helper hhelper
    dsimp only [cgroupSockAddr] at hhelper
    exact mem_registerHelpers hhelper
  have hpaired : almostPaired true pairedCalls := by decide +kernel
  exact ⟨hpaired, (fixSpinLock_repairs_iff (p := spinProg pairedCalls) hpt (by decide +kernel)
    (by decide +kernel) (by decide +kernel)).mpr hpaired⟩

/-- A lock that is released after another call. -/
def partedCalls : List BpfCall := [spinCall .bpfSpinLock 0,
  newBpfCall (helperFuncMap .bpfJiffies64) (newBpfCallGenHint none),
  spinCall .bpfSpinUnlock 0]

/-- The lock is released right away, and once more where it was. -/
theorem fixSpinLock_partedCalls :
    (fixSpinLock (fun _ => false) (spinProg partedCalls)).map
        (fun p => p.calls.map (·.helper.enum)) =
      some [.spinLock, .spinUnlock, .jiffies64, .spinUnlock] ∧
    ¬ ∃ p', fixSpinLock (fun _ => false) (spinProg partedCalls) = some p' ∧
      LocksRepaired partedCalls p'.calls := by
  have hkinds : (fixSpinLock (fun _ => false) (spinProg partedCalls)).map
        (fun p => p.calls.map (·.helper.enum)) =
      some [.spinLock, .spinUnlock, .jiffies64, .spinUnlock] := by
    decide +kernel
  refine ⟨hkinds, ?_⟩
  rintro ⟨p', hp', hrep⟩
  rw [hp'] at hkinds
  have hkinds : p'.calls.map (·.helper.enum) =
      [.spinLock, .spinUnlock, .jiffies64, .spinUnlock] := Option.some.inj hkinds
  refine hrep.not_twoUnlocks ?_
  rw [hkinds]
  exact ⟨[.spinLock], [], rfl⟩

end Brf.HelperCalls
