import Brf.Verification.Helper.Refs

/-! # Pairing of spin locks

A generated program has at most one call that takes or releases a spin lock. `fixSpinLock` then
inserts at most one call, next to that one and for the same lock. The loop works on positions in
a store of calls; `Resolves` says which calls they stand for. -/

namespace Brf.HelperCalls

open Brf.Lib List Option

/-- The positions `ps` stand for the calls `cs`. -/
def Resolves (store : List BpfCall) (ps : List ℕ) (cs : List BpfCall) : Prop :=
  ps.map (store[·]?) = cs.map some

section Resolve

variable {store cs cs' : List BpfCall} {ps ps' : List ℕ}

section

variable (h : Resolves store ps cs)

include h

theorem Resolves.filterMap : ps.filterMap (store[·]?) = cs := by
  have hid : (ps.map (store[·]?)).filterMap id = (cs.map some).filterMap id := by rw [h]
  simpa [filterMap_map] using hid

theorem Resolves.append (h' : Resolves store ps' cs') : Resolves store (ps ++ ps') (cs ++ cs') := by
  unfold Resolves at *
  rw [map_append, map_append, h, h']

theorem Resolves.take (n : ℕ) : Resolves store (ps.take n) (cs.take n) := by
  unfold Resolves at *
  rw [map_take, map_take, h]

theorem Resolves.drop (n : ℕ) : Resolves store (ps.drop n) (cs.drop n) := by
  unfold Resolves at *
  rw [map_drop, map_drop, h]

theorem Resolves.length_eq : ps.length = cs.length := by
  simpa using congrArg List.length h

theorem Resolves.getElem? {i k : ℕ} (hk : ps[i]? = some k) : store[k]? = cs[i]? := by
  have hi : (ps.map (store[·]?))[i]? = (cs.map some)[i]? := by rw [h]
  rw [getElem?_map, hk] at hi
  cases hc : cs[i]? with
  | none => simp [hc] at hi
  | some c => simpa [hc] using hi

theorem Resolves.grow (more : List BpfCall) : Resolves (store ++ more) ps cs := by
  refine Eq.trans (map_congr_left ?_) h
  intro k hk
  obtain ⟨i, hi⟩ := mem_iff_getElem?.mp hk
  have hlt : i < cs.length := by
    rw [← h.length_eq]
    exact (List.getElem?_eq_some_iff.mp hi).1
  have hstore := h.getElem? hi
  rw [getElem?_eq_getElem hlt] at hstore
  rw [hstore]
  exact getElem?_append_left (List.getElem?_eq_some_iff.mp hstore).1 ▸ hstore

end

theorem resolves_range (calls : List BpfCall) : Resolves calls (List.range calls.length) calls := by
  refine ext_getElem? fun i => ?_
  by_cases hi : i < calls.length
  · simp [hi]
  · simp [Nat.le_of_not_lt hi]

end Resolve

/-- The call that is inserted for the lock `name`. -/
def lockCall (helper : BpfHelper) (t : ArgType) (name : ArgName) : BpfCall :=
  { newBpfCall helper (newBpfCallGenHint none) with args := [{ newBpfArg t with name := name }] }

section Loop

variable {pt : BpfProgType} {inPlace : ℕ → Bool} {s s' : LockState} {vs cs : List BpfCall} {n i : ℕ}

/-- The state after an insertion, by the calls it stands for. -/
structure Inserted (vs cs : List BpfCall) (shared : Bool) (helper : BpfHelper) (i pos : ℕ)
    (s : LockState) : Prop where
  call : ∃ c a t, cs[i]? = some c ∧ c.args.head? = some a ∧ s.lockHeld = some a.name ∧
    Resolves s.store s.calls (cs.take pos ++ lockCall helper t a.name :: cs.drop pos) ∧
    Resolves s.store s.view (if shared then
      (cs.take pos ++ lockCall helper t a.name :: cs.drop pos).take vs.length else vs)

theorem LockState.insertCall_spec (hview : Resolves s.store s.view vs)
    (hcalls : Resolves s.store s.calls cs) {helper : BpfHelper} {pos : ℕ} {room : Bool}
    (h : s.insertCall helper i pos room = some s') :
    Inserted vs cs (s.shared && room) helper i pos s' := by
  obtain ⟨name, hname, h⟩ := bind_eq_some_iff.mp h
  obtain ⟨k, hk, hname⟩ := bind_eq_some_iff.mp hname
  obtain ⟨c, hc, hname⟩ := bind_eq_some_iff.mp hname
  obtain ⟨a, ha, hname⟩ := bind_eq_some_iff.mp hname
  obtain ⟨t, ht, h⟩ := bind_eq_some_iff.mp h
  cases hname
  cases h
  have hnew : Resolves (s.store ++ [lockCall helper t a.name]) [s.store.length]
      [lockCall helper t a.name] := by
    simp [Resolves]
  have hcalls' := ((hcalls.take pos).grow [lockCall helper t a.name]).append
    (hnew.append ((hcalls.drop pos).grow _))
  refine ⟨c, a, t, (hcalls.getElem? hk).symm.trans hc, ha, rfl, hcalls', ?_⟩
  cases hroom : s.shared && room with
  | false =>
    exact hview.grow _
  | true =>
    rw [hview.length_eq]
    exact hcalls'.take _

theorem fixSpinLockFrom_quiet (hview : Resolves s.store s.view vs) (hn : i + n ≤ vs.length)
    (hquiet : ∀ j d, i ≤ j → vs[j]? = some d → ¬ d.isSpin) :
    fixSpinLockFrom pt inPlace n i s = some s := by
  induction n generalizing i with
  | zero => rfl
  | succ n ih =>
    have hi : i < vs.length := by omega
    have hk := getElem?_eq_getElem (l := s.view) (i := i) (hview.length_eq ▸ hi)
    have hd := (hview.getElem? hk).trans (getElem?_eq_getElem hi)
    have hspin := hquiet i _ le_rfl (getElem?_eq_getElem hi)
    rw [fixSpinLockFrom, hk, bind_eq_bind, bind_some, hd, bind_eq_bind,
      bind_some, if_neg fun hu => hspin (.inr hu), if_neg fun hl => hspin (.inl hl)]
    exact ih (by omega) fun j d hj => hquiet j d (by omega)

theorem split_of_getElem? {α : Type} {l : List α} {a : α} (h : l[i]? = some a) :
    ∃ pre post, l = pre ++ a :: post ∧ pre.length = i := by
  obtain ⟨hi, rfl⟩ := List.getElem?_eq_some_iff.mp h
  refine ⟨l.take i, l.drop (i + 1), ?_, length_take_of_le (Nat.le_of_lt hi)⟩
  rw [← drop_eq_getElem_cons hi, take_append_drop]

variable {j : ℕ}

theorem mem_of_getElem?_append {α : Type} {pre post : List α} {a : α} (hj : pre.length ≤ j)
    (h : (pre ++ post)[j]? = some a) : a ∈ post := by
  rw [getElem?_append_right hj] at h
  exact mem_of_getElem? h

theorem getElem?_of_take {α : Type} {l : List α} {m : ℕ} {a : α} (h : (l.take m)[j]? = some a) :
    l[j]? = some a := by
  rw [getElem?_take] at h
  split at h
  · exact h
  · cases h

/-- What the loop makes of the calls: nothing, or one more call next to the spin lock call and
for its lock. -/
inductive Paired : List BpfCall → List BpfCall → Prop
  | same (calls : List BpfCall) : Paired calls calls
  | before (pre post : List BpfCall) (c : BpfCall) (a : BpfArg) (helper : BpfHelper) (t : ArgType)
      (hspin : c.isSpin) (ha : a ∈ c.args) :
      Paired (pre ++ c :: post) (pre ++ lockCall helper t a.name :: c :: post)
  | after (pre post : List BpfCall) (c : BpfCall) (a : BpfArg) (helper : BpfHelper) (t : ArgType)
      (hspin : c.isSpin) (ha : a ∈ c.args) :
      Paired (pre ++ c :: post) (pre ++ c :: lockCall helper t a.name :: post)

section Round

variable {pre post : List BpfCall} {call : BpfCall} {helper : BpfHelper} {room : Bool}

theorem quiet_behind (hpost : ∀ d ∈ post, ¬ d.isSpin) {d : BpfCall}
    (hj : pre.length + 1 ≤ j) (hd : (pre ++ call :: post)[j]? = some d) : ¬ d.isSpin := by
  rw [append_cons] at hd
  exact hpost d (mem_of_getElem?_append (by simpa using hj) hd)

theorem fixSpinLockFrom_behind {l u : BpfCall} {a : BpfArg} (hheld : s.lockHeld = some a.name)
    (ha : u.args.head? = some a) (hu : u.helper.enum = .spinUnlock)
    (hview : Resolves s.store s.view (if room then (pre ++ l :: u :: post).take
      (pre ++ call :: post).length else pre ++ call :: post)) (hpost : ∀ d ∈ post, ¬ d.isSpin) :
    ∃ s', fixSpinLockFrom pt inPlace post.length (pre.length + 1) s = some s' ∧
      s'.store = s.store ∧ s'.calls = s.calls := by
  cases room with
  | false =>
    refine ⟨s, fixSpinLockFrom_quiet hview ?_ fun j d hj => quiet_behind hpost hj, rfl, rfl⟩
    simp
    omega
  | true =>
    cases post with
    | nil => exact ⟨s, rfl, rfl, rfl⟩
    | cons d ds =>
      rw [if_pos rfl] at hview
      have hlen : ((pre ++ l :: u :: d :: ds).take (pre ++ call :: d :: ds).length).length =
          pre.length + ds.length + 2 := by
        simp
        omega
      have hi : pre.length + 1 < s.view.length := by
        rw [hview.length_eq, hlen]
        omega
      have hat : ((pre ++ l :: u :: d :: ds).take (pre ++ call :: d :: ds).length)[
          pre.length + 1]? = some u := by
        simp
      have hk := getElem?_eq_getElem hi
      have hcall := (hview.getElem? hk).trans hat
      have hround : fixUnlock pt (inPlace (pre.length + 1)) (pre.length + 1)
          (s.view.get ⟨pre.length + 1, hi⟩) u s = some ({ s with lockHeld := none }, true) := by
        simp [fixUnlock, hheld, ha]
      refine ⟨{ s with lockHeld := none }, ?_, rfl, rfl⟩
      rw [length_cons, fixSpinLockFrom, hk, bind_eq_bind, bind_some, hcall,
        bind_eq_bind, bind_some, if_pos hu]
      refine (congrArg (bind · _) hround).trans ?_
      refine fixSpinLockFrom_quiet (s := { s with lockHeld := none }) hview ?_ ?_
      · omega
      · intro j e hj he
        have he := getElem?_of_take he
        rw [append_cons] at he
        exact quiet_behind hpost (by simpa using hj) he

theorem Inserted.before (pt : BpfProgType) (inPlace : ℕ → Bool)
    (h : Inserted (pre ++ call :: post) (pre ++ call :: post) room helper pre.length pre.length s)
    (hcall : call.helper.enum = .spinUnlock) (hpost : ∀ d ∈ post, ¬ d.isSpin) :
    ∃ s' a t, fixSpinLockFrom pt inPlace post.length (pre.length + 1) s = some s' ∧
      call.args.head? = some a ∧
      Resolves s'.store s'.calls (pre ++ lockCall helper t a.name :: call :: post) := by
  obtain ⟨c, a, t, hc, ha, hheld, hcalls, hview⟩ := h
  obtain rfl : call = c := by simpa using hc
  rw [take_left, drop_left] at hcalls hview
  obtain ⟨s', hrun, hstore, hcalls'⟩ := fixSpinLockFrom_behind hheld ha hcall hview hpost
  refine ⟨s', a, t, hrun, ha, ?_⟩
  rw [hstore, hcalls']
  exact hcalls

theorem Inserted.after (pt : BpfProgType) (inPlace : ℕ → Bool)
    (h : Inserted (pre ++ call :: post) (pre ++ call :: post) room helper pre.length
      (pre.length + 1) s) (hhelper : helper.enum = .spinUnlock) (hpost : ∀ d ∈ post, ¬ d.isSpin) :
    ∃ s' a t, fixSpinLockFrom pt inPlace post.length (pre.length + 1) s = some s' ∧
      call.args.head? = some a ∧
      Resolves s'.store s'.calls (pre ++ call :: lockCall helper t a.name :: post) := by
  obtain ⟨c, a, t, hc, ha, hheld, hcalls, hview⟩ := h
  obtain rfl : call = c := by simpa using hc
  have hlen : pre.length + 1 = (pre ++ [call]).length := by simp
  have hsplit : (pre ++ call :: post).take (pre.length + 1) ++ lockCall helper t a.name ::
      (pre ++ call :: post).drop (pre.length + 1) =
      pre ++ call :: lockCall helper t a.name :: post := by
    rw [append_cons pre call post, hlen, take_left, drop_left, append_assoc]
    rfl
  rw [hsplit] at hcalls hview
  obtain ⟨s', hrun, hstore, hcalls'⟩ := fixSpinLockFrom_behind
    (a := { newBpfArg t with name := a.name }) hheld rfl hhelper hview hpost
  refine ⟨s', a, t, hrun, ha, ?_⟩
  rw [hstore, hcalls']
  exact hcalls

theorem not_followed (hcalls : Resolves s.store s.calls (pre ++ call :: post))
    (hpost : ∀ d ∈ post, ¬ d.isSpin) : (s.calls[pre.length + 1]?.bind (s.store[·]?)).any
      (·.helper.enum = .spinUnlock) = false := by
  rw [Option.any_eq_false]
  intro d hd
  obtain ⟨k, hk, hd⟩ := Option.bind_eq_some_iff.mp hd
  have hd := (hcalls.getElem? hk).symm.trans hd
  simpa using fun hu => quiet_behind hpost le_rfl hd (.inr hu)

end Round

/-- The loop gives the only call of a spin lock its partner. -/
theorem fixSpinLockFrom_spec {calls : List BpfCall}
    (hone : calls.Pairwise fun c d => ¬ (c.isSpin ∧ d.isSpin))
    (hview : Resolves s.store s.view calls) (hcalls : Resolves s.store s.calls calls)
    (hheld : s.lockHeld = none) (hn : i + n = calls.length)
    (h : fixSpinLockFrom pt inPlace n i s = some s') :
    ∃ cs, Resolves s'.store s'.calls cs ∧ Paired calls cs := by
  induction n generalizing i with
  | zero =>
    cases h
    exact ⟨calls, hcalls, .same calls⟩
  | succ n ih =>
    obtain ⟨k, hk, h⟩ := bind_eq_some_iff.mp h
    obtain ⟨call, hcall, h⟩ := bind_eq_some_iff.mp h
    have hat : calls[i]? = some call := (hview.getElem? hk).symm.trans hcall
    obtain ⟨pre, post, rfl, rfl⟩ := split_of_getElem? hat
    obtain rfl : n = post.length := by
      rw [length_append, length_cons] at hn
      omega
    have hpost : call.isSpin → ∀ d ∈ post, ¬ d.isSpin := by
      intro hspin d hd hdspin
      have hpair := (pairwise_append.mp hone).2.1
      exact (pairwise_cons.mp hpair).1 d hd ⟨hspin, hdspin⟩
    have hstop : ∃ cs, Resolves s.store s.calls cs ∧ Paired (pre ++ call :: post) cs :=
      ⟨_, hcalls, .same _⟩
    by_cases hunlock : call.helper.enum = .spinUnlock
    · rw [if_pos hunlock] at h
      obtain ⟨⟨s1, goOn⟩, hround, h⟩ := bind_eq_some_iff.mp h
      rw [fixUnlock, hheld] at hround
      cases hget : pt.getHelper .spinLock with
      | none =>
        simp only [hget] at hround
        cases hround
        cases h
        exact hstop
      | some helper =>
        simp only [hget] at hround
        obtain ⟨s2, hs2, heq⟩ := map_eq_some_iff.mp hround
        cases heq
        obtain ⟨s3, a, t, hrun, ha, hcs⟩ := (LockState.insertCall_spec hview hcalls hs2).before
          pt inPlace hunlock (hpost (.inr hunlock))
        obtain rfl := some.inj (h.symm.trans hrun)
        exact ⟨_, hcs, .before pre post call a helper t (.inr hunlock) (mem_of_mem_head? ha)⟩
    rw [if_neg hunlock] at h
    by_cases hlock : call.helper.enum = .spinLock
    · rw [if_pos hlock] at h
      obtain ⟨⟨s1, goOn⟩, hround, h⟩ := bind_eq_some_iff.mp h
      rw [fixLock, not_followed hcalls (hpost (.inl hlock))] at hround
      cases hget : pt.getHelper .spinUnlock with
      | none =>
        simp only [hget] at hround
        cases hround
        cases h
        exact hstop
      | some helper =>
        simp only [hget] at hround
        obtain ⟨s2, hs2, heq⟩ := map_eq_some_iff.mp hround
        cases heq
        have hhelper : helper.enum = .spinUnlock := by simpa using find?_some hget
        obtain ⟨s3, a, t, hrun, ha, hcs⟩ := (LockState.insertCall_spec hview hcalls hs2).after
          pt inPlace hhelper (hpost (.inl hlock))
        obtain rfl := some.inj (h.symm.trans hrun)
        exact ⟨_, hcs, .after pre post call a helper t (.inl hlock) (mem_of_mem_head? ha)⟩
    · rw [if_neg hlock] at h
      exact ih (by rw [← hn]; omega) h

end Loop

end Brf.HelperCalls
