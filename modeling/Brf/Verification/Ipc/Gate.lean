import Brf.Lib.Fold
import Brf.Verification.Ipc.Batches

/-! # The gate lets batches through

Every interleaving of the threads is a run of batches: the ring of busy flags is the window, and
`stop` is set while a callback is due. A thread sleeps only while it has to wait. -/

namespace Brf.Ipc

open Brf.Lib List World Function Phase

variable {τ : Type*} {c : ℕ} {callback : Bool} {w : World τ} {b b' : Batch c} {t : τ}

/-! ### Where the threads are -/

variable {idx k : ℕ}

theorem Phase.notify_eq_inside {phase : Phase} :
    phase.notify = .inside idx k ↔ phase = .inside idx k := by
  cases phase <;> simp [notify]

theorem Phase.notify_eq_leaving {phase : Phase} {asleep : Bool} :
    phase.notify = .leaving k asleep ↔ asleep = false ∧ ∃ a, phase = .leaving k a := by
  cases phase <;> simp [notify]
  exact and_comm

/-- Each activity that is inside or waits for its callback has one thread. -/
structure Places (phase : τ → Phase) (b : Batch c) : Prop where
  inside : ∀ t idx k, phase t = .inside idx k → k ∈ b.window.active ∧ idx = k % c
  inside_inj : ∀ t t' idx idx' k, phase t = .inside idx k → phase t' = .inside idx' k → t = t'
  waiting : ∀ t k a, phase t = .leaving k a → b.waiting = some k
  exists_waiting : ∀ k, b.waiting = some k → ∃ t a, phase t = .leaving k a
  waiting_inj : ∀ t t' k k' a a', phase t = .leaving k a → phase t' = .leaving k' a' → t = t'

variable {a : Bool}

namespace Places

variable {phase : τ → Phase}

/-- Who is inside and who waits for a callback is all that matters. -/
theorem congr {phase' : τ → Phase} (h : Places phase b)
    (hinside : ∀ {t idx k}, phase' t = .inside idx k → phase t = .inside idx k)
    (hleaving : ∀ {t k a}, phase' t = .leaving k a → ∃ a', phase t = .leaving k a')
    (hback : ∀ {t k a}, phase t = .leaving k a → ∃ a', phase' t = .leaving k a') :
    Places phase' b := by
  constructor
  · intro t idx k ht
    exact h.inside t idx k (hinside ht)
  · intro t t' idx idx' k ht ht'
    exact h.inside_inj t t' idx idx' k (hinside ht) (hinside ht')
  · intro t k a ht
    obtain ⟨a', ht⟩ := hleaving ht
    exact h.waiting t k a' ht
  · intro k hk
    obtain ⟨t, a, ht⟩ := h.exists_waiting k hk
    exact ⟨t, hback ht⟩
  · intro t t' k k' a a' ht ht'
    obtain ⟨a1, ht⟩ := hleaving ht
    obtain ⟨a2, ht'⟩ := hleaving ht'
    exact h.waiting_inj t t' k k' a1 a2 ht ht'

theorem notify (h : Places phase b) : Places (fun t => (phase t).notify) b :=
  h.congr notify_eq_inside.mp (fun ht => (notify_eq_leaving.mp ht).2)
    fun ht => ⟨false, notify_eq_leaving.mpr ⟨rfl, _, ht⟩⟩

variable [DecidableEq τ] {phase' : Phase}

theorem update_ne {t' : τ} {x : Phase} (ht' : update phase t phase' t' = x)
    (hx : phase' ≠ x := by simp) : t' ≠ t ∧ phase t' = x := by
  by_cases heq : t' = t
  · subst heq
    rw [update_self] at ht'
    exact absurd ht' hx
  · rw [update_of_ne heq] at ht'
    exact ⟨heq, ht'⟩

section

variable (h : Places phase b)

include h

theorem sleep (ht : phase t = .idle ∨ ∃ a, phase t = .entering a) :
    Places (update phase t (.entering a)) b := by
  refine h.congr (fun ht' => (update_ne ht').2)
    (fun ht' => ⟨_, (update_ne ht').2⟩) fun {t' k a'} ht' => ⟨a', ?_⟩
  have hne : t' ≠ t := by
    rintro rfl
    rcases ht with ht | ⟨_, ht⟩ <;> simp [ht] at ht'
  rw [update_of_ne hne]
  exact ht'

theorem sleepAgain {a' : Bool} (ht : phase t = .leaving k a) :
    Places (update phase t (.leaving k a')) b := by
  refine h.congr (fun ht' => (update_ne ht').2) ?_ ?_
  all_goals
    intro t' k' a1 ht'
    by_cases heq : t' = t
  · subst heq
    rw [update_self] at ht'
    cases ht'
    exact ⟨a, ht⟩
  · rw [update_of_ne heq] at ht'
    exact ⟨a1, ht'⟩
  · subst heq
    rw [ht] at ht'
    cases ht'
    exact ⟨a', update_self ..⟩
  · exact ⟨a1, by rw [update_of_ne heq]; exact ht'⟩

theorem enter (hwait : b.waiting = none) (hc : 0 < c) (hfree : b.window.Free) :
    Places (update phase t (.inside (b.window.next % c) b.window.next)) (b.enter hc hfree) := by
  have hinside : ∀ {t' idx k},
      update phase t (.inside (b.window.next % c) b.window.next) t' = .inside idx k →
      t' = t ∧ idx = b.window.next % c ∧ k = b.window.next ∨
        phase t' = .inside idx k ∧ k ∈ b.window.active ∧ idx = k % c := by
    intro t' idx k ht'
    by_cases heq : t' = t
    · subst heq
      rw [update_self] at ht'
      cases ht'
      exact .inl ⟨rfl, rfl, rfl⟩
    · rw [update_of_ne heq] at ht'
      exact .inr ⟨ht', h.inside t' idx k ht'⟩
  have hnone : ∀ t k a, phase t ≠ .leaving k a := by
    intro t k a ht
    have := h.waiting t k a ht
    simp [hwait] at this
  constructor
  · intro t' idx k ht'
    rcases hinside ht' with ⟨-, rfl, rfl⟩ | ⟨-, hk, hidx⟩
    · exact ⟨Finset.mem_insert_self _ _, rfl⟩
    · exact ⟨Finset.mem_insert_of_mem hk, hidx⟩
  · intro t1 t2 idx idx' k h1 h2
    rcases hinside h1 with ⟨rfl, -, rfl⟩ | ⟨h1, hk1, -⟩
    · rcases hinside h2 with ⟨rfl, -⟩ | ⟨-, hk2, -⟩
      · rfl
      · exact absurd hk2 b.window.next_notMem
    · rcases hinside h2 with ⟨-, -, rfl⟩ | ⟨h2, -⟩
      · exact absurd hk1 b.window.next_notMem
      · exact h.inside_inj t1 t2 idx idx' k h1 h2
  · intro t' k a ht'
    exact absurd (update_ne ht').2 (hnone t' k a)
  · intro k hk
    cases hk
  · intro t1 _ k _ a _ h1 _
    exact absurd (update_ne h1).2 (hnone t1 k a)

theorem leave (ht : phase t = .inside idx k) (hactive : b'.window.active = b.window.active.erase k)
    (hcase : phase' = .idle ∧ b'.waiting = b.waiting ∨
      ∃ a, phase' = .leaving k a ∧ b'.waiting = some k ∧ b.waiting = none) :
    Places (update phase t phase') b' := by
  have hphase : ∀ idx k, phase' ≠ .inside idx k := by
    rintro idx k rfl
    rcases hcase with ⟨h, -⟩ | ⟨_, h, -⟩ <;> cases h
  have hold : ∀ {t' idx' k'}, update phase t phase' t' = .inside idx' k' →
      t' ≠ t ∧ phase t' = .inside idx' k' := fun ht' => update_ne ht' (hphase _ _)
  constructor
  · intro t' idx' k' ht'
    obtain ⟨hne, ht'⟩ := hold ht'
    obtain ⟨hk', hidx'⟩ := h.inside t' idx' k' ht'
    refine ⟨hactive ▸ Finset.mem_erase.mpr ⟨?_, hk'⟩, hidx'⟩
    rintro rfl
    exact hne (h.inside_inj t' t idx' idx k' ht' ht)
  · intro t1 t2 idx1 idx2 k' h1 h2
    exact h.inside_inj t1 t2 idx1 idx2 k' (hold h1).2 (hold h2).2
  · intro t' k' a' ht'
    rcases hcase with ⟨rfl, hwait⟩ | ⟨a, rfl, hwait, hnone⟩
    · rw [hwait]
      exact h.waiting t' k' a' (update_ne ht').2
    · by_cases heq : t' = t
      · subst heq
        rw [update_self] at ht'
        cases ht'
        exact hwait
      · rw [update_of_ne heq] at ht'
        have := h.waiting t' k' a' ht'
        simp [hnone] at this
  · intro k' hk'
    rcases hcase with ⟨rfl, hwait⟩ | ⟨a, rfl, hwait, hnone⟩
    · obtain ⟨t', a', ht'⟩ := h.exists_waiting k' (hwait ▸ hk')
      have hne : t' ≠ t := by
        rintro rfl
        simp [ht] at ht'
      exact ⟨t', a', by rw [update_of_ne hne]; exact ht'⟩
    · rw [hwait] at hk'
      cases hk'
      exact ⟨t, a, update_self ..⟩
  · intro t1 t2 k1 k2 a1 a2 h1 h2
    rcases hcase with ⟨rfl, -⟩ | ⟨a, rfl, -, hnone⟩
    · exact h.waiting_inj t1 t2 k1 k2 a1 a2 (update_ne h1).2 (update_ne h2).2
    · have honly : ∀ {t' k' a'}, update phase t (.leaving k a) t' = .leaving k' a' →
          t' = t := by
        intro t' k' a' ht'
        by_contra hne
        rw [update_of_ne hne] at ht'
        have := h.waiting t' k' a' ht'
        simp [hnone] at this
      rw [honly h1, honly h2]

theorem call (ht : phase t = .leaving k a) : Places (update phase t .idle) b.call := by
  constructor
  · intro t' idx k ht'
    exact h.inside t' idx k (update_ne ht').2
  · intro t1 t2 idx idx' k h1 h2
    exact h.inside_inj t1 t2 idx idx' k (update_ne h1).2 (update_ne h2).2
  · intro t' k' a' ht'
    obtain ⟨hne, ht'⟩ := update_ne ht'
    exact absurd (h.waiting_inj t' t k' k a' a ht' ht) hne
  · intro k' hk'
    cases hk'
  · intro t1 t2 k1 k2 a1 a2 h1 h2
    exact h.waiting_inj t1 t2 k1 k2 a1 a2 (update_ne h1).2 (update_ne h2).2

end

end Places

/-! ### The gate and its batches -/

/-- The gate stands for a batch, apart from who sleeps. -/
structure Shape (callback : Bool) (w : World τ) (b : Batch c) : Prop where
  callback : w.gate.callback = callback
  length : w.gate.busy.length = c
  busy : ∀ i, w.gate.busy[i]? = some true ↔ ∃ k ∈ b.window.active, k % c = i
  pos : w.gate.pos = b.window.next % c
  running : w.gate.running = b.window.active.card
  stop : w.gate.stop = b.waiting.isSome
  entries : w.entries = b.window.next
  places : Places w.phase b

/-- Threads sleep only while they have to wait. -/
structure Sleepers (w : World τ) : Prop where
  entering : ∀ t, w.phase t = .entering true →
    w.gate.busy[w.gate.pos]? = some true ∨ w.gate.stop
  leaving : ∀ t k, w.phase t = .leaving k true → w.gate.running ≠ 0

theorem Sleepers.broadcast (w : World τ) : Sleepers w.broadcast := by
  constructor
  · intro t ht
    cases hphase : w.phase t <;> simp [World.broadcast, hphase, notify] at ht
  · intro t k ht
    cases hphase : w.phase t <;> simp [World.broadcast, hphase, notify] at ht

theorem Shape.broadcast (h : Shape callback w b) : Shape callback w.broadcast b :=
  ⟨h.callback, h.length, h.busy, h.pos, h.running, h.stop, h.entries, h.places.notify⟩

theorem Shape.start : Shape callback (World.start τ c callback) (Batch.empty c) := by
  refine ⟨rfl, length_replicate, fun i => ?_, (Nat.zero_mod c).symm, rfl, rfl, rfl,
    ⟨?_, ?_, ?_, ?_, ?_⟩⟩
  · simp [World.start, newGate, Batch.empty, Window.empty, getElem?_replicate]
  all_goals simp [World.start, Batch.empty]

theorem Sleepers.start : Sleepers (World.start τ c callback) := by
  constructor <;> simp [World.start]

theorem Shape.free (h : Shape callback w b)
    (hbusy : w.gate.busy[w.gate.pos]? = some false) : b.window.Free := by
  intro k hk hslot
  have htrue := (h.busy w.gate.pos).mpr ⟨k, hk, by rw [hslot, h.pos]⟩
  rw [htrue] at hbusy
  cases hbusy

theorem Shape.pos_of_getElem? (h : Shape callback w b) {i : ℕ} {x : Bool}
    (hi : w.gate.busy[i]? = some x) : 0 < c := by
  obtain ⟨hlt, -⟩ := List.getElem?_eq_some_iff.mp hi
  have := h.length
  omega

theorem Shape.next_pos (h : Shape callback w b) (hc : 0 < c) :
    (if w.gate.pos + 1 ≥ w.gate.busy.length then 0 else w.gate.pos + 1) =
      (b.window.next + 1) % c := by
  have hmod : (b.window.next + 1) % c = (b.window.next % c + 1) % c := by simp [Nat.add_mod]
  have hlt := Nat.mod_lt b.window.next hc
  rw [h.length, h.pos, hmod]
  split
  · have heq : b.window.next % c + 1 = c := by omega
    rw [heq, Nat.mod_self]
  · exact (Nat.mod_eq_of_lt (by omega)).symm

section

variable [DecidableEq τ]

theorem Shape.enter (h : Shape callback w b) (hbusy : w.gate.busy[w.gate.pos]? = some false)
    (hwait : b.waiting = none) (hc : 0 < c) :
    Shape callback (setPhase
      { w with
        gate := { w.gate with
          pos := if w.gate.pos + 1 ≥ w.gate.busy.length then 0 else w.gate.pos + 1
          busy := w.gate.busy.set w.gate.pos true
          running := w.gate.running + 1 }
        entries := w.entries + 1 } t (.inside w.gate.pos w.entries))
      (b.enter hc (h.free hbusy)) := by
  obtain ⟨hlt, -⟩ := List.getElem?_eq_some_iff.mp hbusy
  refine ⟨h.callback, ?_, fun i => ?_, h.next_pos hc, ?_, ?_, ?_, ?_⟩
  · simpa [setPhase] using h.length
  · have hi := h.busy i
    simp only [setPhase, getElem?_set, Batch.enter, Window.enter, Finset.mem_insert,
      exists_eq_or_imp, ← h.pos]
    by_cases heq : w.gate.pos = i
    · simp [← heq, hlt]
    · simp [heq, hi]
  · have hcard : (b.window.enter hc (h.free hbusy)).active.card = _ :=
      Finset.card_insert_of_notMem b.window.next_notMem
    simp only [setPhase, Batch.enter, hcard, h.running]
    rfl
  · simp [setPhase, Batch.enter, h.stop, hwait]
  · simp [setPhase, Batch.enter, Window.enter, h.entries]
  · simp only [setPhase, h.pos, h.entries]
    exact h.places.enter hwait hc (h.free hbusy)

theorem Shape.leave (h : Shape callback w b) (ht : w.phase t = .inside idx k)
    (b' : Batch c) (phase' : Phase) (stop : Bool) (hwindow : b'.window = b.window.leave k)
    (hstop : stop = b'.waiting.isSome) (hcase : phase' = .idle ∧ b'.waiting = b.waiting ∨
      ∃ a, phase' = .leaving k a ∧ b'.waiting = some k ∧ b.waiting = none) :
    Shape callback (setPhase
      { w with
        gate := { w.gate with
          busy := w.gate.busy.set idx false
          running := w.gate.running - 1
          stop := stop } } t phase') b' := by
  obtain ⟨hk, rfl⟩ := h.places.inside t idx k ht
  refine ⟨h.callback, ?_, fun i => ?_, ?_, ?_, hstop, ?_, ?_⟩
  · simpa [setPhase] using h.length
  · have hi := h.busy i
    simp only [setPhase, getElem?_set, hwindow, Window.leave, Finset.mem_erase]
    by_cases heq : k % c = i
    · -- no other active number has the slot
      subst heq
      have hnone : ¬ ∃ j, (j ≠ k ∧ j ∈ b.window.active) ∧ j % c = k % c := by
        rintro ⟨j, ⟨hne, hj⟩, hslot⟩
        exact hne (Window.slot_inj hj hk hslot)
      simp only [if_true, hnone, iff_false]
      split <;> simp
    · rw [if_neg heq, hi]
      constructor
      · rintro ⟨j, hj, hslot⟩
        refine ⟨j, ⟨?_, hj⟩, hslot⟩
        rintro rfl
        exact heq hslot
      · rintro ⟨j, ⟨-, hj⟩, hslot⟩
        exact ⟨j, hj, hslot⟩
  · simp [setPhase, h.pos, hwindow, Window.leave]
  · have hcard := Window.card_leave hk
    simp only [setPhase, h.running, hwindow]
    omega
  · simp [setPhase, h.entries, hwindow, Window.leave]
  · exact h.places.leave ht (by rw [hwindow]; rfl) hcase

/-- What a section comes to: steps of the batch, or an index out of the range of an empty gate. -/
def Refines (callback : Bool) (b : Batch c) : Except Panic (World τ × List Note) → Prop
  | .error p => p = .indexOutOfRange ∧ c = 0
  | .ok (w', notes) => ∃ b', b.Steps callback notes b' ∧ Shape callback w' b' ∧ Sleepers w'

theorem finishLeave_spec (h : Shape callback (w.setPhase t .idle) b)
    (hs : ¬ (idx = w.gate.pos ∧ w.gate.stop = false ∨ w.gate.running = 0 ∧ w.gate.stop) →
      Sleepers (w.setPhase t .idle)) :
    Shape callback (w.finishLeave t idx) b ∧ Sleepers (w.finishLeave t idx) := by
  simp only [finishLeave]
  split
  · exact ⟨h.broadcast, Sleepers.broadcast _⟩
  · rename_i hcond
    refine ⟨h, hs fun hwake => hcond ?_⟩
    rcases hwake with ⟨hpos, hstop⟩ | ⟨hrun, hstop⟩
    · simp [setPhase, hpos, hstop]
    · simp [setPhase, hrun, hstop]

theorem enter_refines (h : Shape callback w b) (hs : Sleepers w)
    (ht : w.phase t = .idle ∨ ∃ a, w.phase t = .entering a) : Refines callback b (w.enter t) := by
  rw [enter]
  dsimp only
  split
  · rename_i hnone
    refine ⟨rfl, ?_⟩
    by_contra hc
    have hlt := Nat.mod_lt b.window.next (Nat.pos_of_ne_zero hc)
    have hge := getElem?_eq_none_iff.mp hnone
    rw [h.pos, h.length] at hge
    omega
  rename_i busy hbusy
  split
  · -- the thread has to wait
    rename_i hwait
    have hcond : w.gate.busy[w.gate.pos]? = some true ∨ w.gate.stop := by
      rcases (Bool.or_eq_true _ _).mp hwait with rfl | hstop
      · exact .inl hbusy
      · exact .inr hstop
    refine ⟨b, .nil, ⟨h.callback, h.length, h.busy, h.pos, h.running, h.stop, h.entries,
      h.places.sleep ht⟩, fun _ _ => hcond, fun t' k ht' => ?_⟩
    exact hs.leaving t' k (Places.update_ne ht').2
  · rename_i hfree
    simp only [Bool.or_eq_true, not_or, Bool.not_eq_true] at hfree
    obtain ⟨rfl, hstop⟩ := hfree
    have hc := h.pos_of_getElem? hbusy
    have hwait : b.waiting = none := by
      rw [h.stop] at hstop
      simpa using hstop
    have hshape := h.enter hbusy hwait hc (t := t)
    split
    · -- there are never more active numbers than slots
      have hcard := (b.enter hc (h.free hbusy)).window.card_le
      have hrun := hshape.running
      have hlen := hshape.length
      simp only [setPhase] at hrun hlen
      omega
    · have hstep : b.Step callback (.entered b.window.next (b.window.next % c))
          (b.enter hc (h.free hbusy)) := .enter hwait hc _
      rw [← h.pos, ← h.entries] at hstep
      refine ⟨_, .cons hstep .nil, hshape, fun t' ht' => ?_, fun t' k ht' => ?_⟩
      · -- nobody slept, since the slot was free
        have hold := hs.entering t' (Places.update_ne ht').2
        simp [hbusy, hstop] at hold
      · have hold := h.places.waiting t' k true (Places.update_ne ht').2
        simp [hwait] at hold

theorem awaitBatch_setPhase (w : World τ) (t : τ) (phase : Phase) (k : ℕ) :
    (w.setPhase t phase).awaitBatch t k = w.awaitBatch t k := by
  have hupdate : ∀ phase', (w.setPhase t phase).setPhase t phase' = w.setPhase t phase' := by
    simp [setPhase]
  have hnotify : ∀ gate, (({ w.setPhase t phase with gate := gate } : World τ).broadcast).setPhase t
      .idle = (({ w with gate := gate } : World τ).broadcast).setPhase t .idle := by
    intro gate
    simp only [setPhase, broadcast, mk.injEq, true_and]
    funext t'
    by_cases heq : t' = t
    · subst heq
      simp
    · simp [update_of_ne heq]
  simp only [awaitBatch, finishLeave, hupdate]
  have hgate : (w.setPhase t phase).gate = w.gate := rfl
  simp only [hgate, hnotify]

theorem awaitBatch_refines (h : Shape callback w b) (hs : Sleepers w)
    (ht : w.phase t = .leaving k a) : Refines callback b (.ok (w.awaitBatch t k)) := by
  rw [awaitBatch]
  split
  · rename_i hrun
    refine ⟨b, .nil, ⟨h.callback, h.length, h.busy, h.pos, h.running, h.stop, h.entries,
      h.places.sleepAgain ht⟩, fun t' ht' => ?_, fun _ _ _ => hrun⟩
    exact hs.entering t' (Places.update_ne ht').2
  · rename_i hrun
    have hzero : w.gate.running = 0 := not_not.mp hrun
    have hempty : b.window.active = ∅ := by
      have hcard := h.running
      rw [hzero] at hcard
      exact Finset.card_eq_zero.mp (Int.natCast_eq_zero.mp hcard.symm)
    have hwait := h.places.waiting t k a ht
    refine ⟨b.call, .cons (.call hwait hempty) .nil, finishLeave_spec ?_ fun _ => ?_⟩
    · refine ⟨h.callback, h.length, h.busy, h.pos, h.running, rfl, h.entries, ?_⟩
      exact h.places.notify.call (notify_eq_leaving.mpr ⟨rfl, a, ht⟩)
    · -- nobody sleeps after the broadcast
      have hall := Sleepers.broadcast { w with gate := { w.gate with stop := false } }
      refine ⟨fun t' ht' => ?_, fun t' k' ht' => ?_⟩
      · exact hall.entering t' (Places.update_ne ht').2
      · exact hall.leaving t' k' (Places.update_ne ht').2

theorem leave_refines (h : Shape callback w b) (hs : Sleepers w)
    (ht : w.phase t = .inside idx k) : Refines callback b (w.leave t idx k) := by
  obtain ⟨hk, hidx⟩ := h.places.inside t idx k ht
  have hbusy : w.gate.busy[idx]? = some true := (h.busy idx).mpr ⟨k, hk, hidx.symm⟩
  have hcard := Window.card_leave hk
  have hrun := h.running
  rw [leave, hbusy]
  dsimp only
  rw [if_neg (by omega)]
  split
  · -- slot 0, with a callback
    rename_i hfirst
    simp only [Bool.and_eq_true, decide_eq_true_eq] at hfirst
    obtain ⟨rfl, hcall⟩ := hfirst
    have hnone : b.waiting = none := by
      by_contra hwait
      exact b.first_left (Option.isSome_iff_ne_none.mpr hwait) k hk hidx.symm
    have hstop : w.gate.stop = false := by simp [h.stop, hnone]
    rw [if_neg (by simp [hstop])]
    have hshape := h.leave ht (b.leaveFirst k hk hidx.symm) (.leaving k false) true rfl rfl
      (.inr ⟨false, rfl, rfl, hnone⟩)
    have hsleep : Sleepers (setPhase { w with
          gate := { w.gate with
            busy := w.gate.busy.set 0 false
            running := w.gate.running - 1
            stop := true } } t (.leaving k false)) := by
      refine ⟨fun _ _ => .inr rfl, fun t' k' ht' => ?_⟩
      have hold := h.places.waiting t' k' true (Places.update_ne ht').2
      simp [hnone] at hold
    have hrest := awaitBatch_refines hshape hsleep (update_self ..)
    rw [awaitBatch_setPhase] at hrest
    obtain ⟨b', hsteps, hshape', hsleep'⟩ := hrest
    have hstep := Batch.Step.leaveFirst hk hidx.symm (h.callback.symm.trans hcall)
    have hnote : Note.left k (k % c) = .left k 0 := by rw [← hidx]
    rw [hnote] at hstep
    exact ⟨b', .cons hstep hsteps, hshape', hsleep'⟩
  · rename_i hplain
    simp only [Bool.and_eq_true, decide_eq_true_eq, not_and, Bool.not_eq_true] at hplain
    have hslot : ¬ (k % c = 0 ∧ callback) := by
      rintro ⟨hzero, hcall⟩
      have := hplain (hidx.trans hzero)
      rw [h.callback, hcall] at this
      cases this
    have hshape := h.leave ht (b.leave k) .idle w.gate.stop rfl h.stop (.inl ⟨rfl, rfl⟩)
    have hstep : b.Step callback (.left k (k % c)) (b.leave k) := .leave hk hslot
    rw [← hidx] at hstep
    refine ⟨_, .cons hstep .nil, finishLeave_spec hshape fun hquiet => ?_⟩
    simp only [not_or, not_and, Bool.not_eq_false, Bool.not_eq_true] at hquiet
    refine ⟨fun t' ht' => ?_, fun t' k' ht' => ?_⟩
    · -- the slot that the sleeper waits for is not the one that got free
      rcases hs.entering t' (Places.update_ne ht').2 with hpos | hstop
      · by_cases heq : idx = w.gate.pos
        · exact .inr (hquiet.1 heq)
        · left
          simpa [setPhase, getElem?_set, heq] using hpos
      · exact .inr hstop
    · have hwait := h.places.waiting t' k' true (Places.update_ne ht').2
      intro hzero
      have hstop := hquiet.2 hzero
      rw [h.stop, hwait] at hstop
      cases hstop

theorem step_refines (h : Shape callback w b) (hs : Sleepers w)
    {r : Except Panic (World τ × List Note)} (hstep : w.step t = some r) : Refines callback b r := by
  rw [step] at hstep
  split at hstep <;> cases hstep
  · exact enter_refines h hs (.inl ‹_›)
  · exact enter_refines h hs (.inr ⟨_, ‹_›⟩)
  · exact leave_refines h hs ‹_›
  · exact awaitBatch_refines h hs ‹_›

theorem run_refines {threads : List τ} {log : List Note}
    (h : run c callback threads = some (w, log)) :
    ∃ b : Batch c, b.Runs callback log ∧ Shape callback w b ∧ Sleepers w := by
  refine foldlM_preserves (P := fun x : World τ × List Note => ∃ b : Batch c,
    b.Runs callback x.2 ∧ Shape callback x.1 b ∧ Sleepers x.1) ?_
    ⟨_, .start, Shape.start, Sleepers.start⟩ h
  rintro ⟨w1, log1⟩ t - x ⟨b, hruns, hshape, hsleep⟩ hround
  rw [World.round] at hround
  split at hround
  · rename_i hstep
    cases hround
    obtain ⟨b', hsteps, hshape', hsleep'⟩ := step_refines hshape hsleep hstep
    exact ⟨b', hruns.steps hsteps, hshape', hsleep'⟩
  · cases hround

/-- In every interleaving: `running` is the number of activities that entered and have not left,
and no more than the capacity; the gate does not break; activities enter, leave and callbacks run
as they may, a callback of slot 0 being run or waited for; and no thread sleeps that could go on. -/
theorem gate_admits {threads : List τ} {log : List Note}
    (h : run c callback threads = some (w, log)) :
    (∃ active : Finset ℕ, (∀ k, k ∈ active ↔ Batch.Active log k) ∧
      w.gate.running = active.card ∧ active.card ≤ c) ∧
    (∀ t, w.step t ≠ some (.error .brokenGate)) ∧
    EachAfter (Batch.Lawful c callback) log ∧
    (callback → ∀ k, Note.left k 0 ∈ log →
      Note.called k ∈ log ∨ ∃ t a, w.phase t = .leaving k a) ∧
    (∀ t, w.phase t = .entering true →
      w.gate.busy[w.gate.pos]? = some true ∨ w.gate.stop) ∧
    ∀ t k, w.phase t = .leaving k true → w.gate.running ≠ 0 := by
  obtain ⟨b, hruns, hshape, hsleep⟩ := run_refines h
  have hgood := hruns.good
  refine ⟨⟨b.window.active, hgood.tells.active, hshape.running, b.window.card_le⟩, ?_, hgood.lawful,
    ?_, hsleep.entering, hsleep.leaving⟩
  · intro t hstep
    obtain ⟨hpanic, -⟩ := step_refines hshape hsleep hstep
    cases hpanic
  · intro hcall k hk
    rcases hgood.due hcall k hk with hcalled | hwait
    · exact .inl hcalled
    · exact .inr (hshape.places.exists_waiting k hwait)

/-- Two threads fill a gate of two slots. The first has to wait with its callback until the
second has left. -/
theorem gate_admits_batch :
    ∃ w, run 2 true [false, true, false, true, false] =
        some (w, [.entered 0 0, .entered 1 1, .left 0 0, .left 1 1, .called 0]) ∧
      EachAfter (Batch.Lawful 2 true)
        [.entered 0 0, .entered 1 1, .left 0 0, .left 1 1, .called 0] := by
  have hlog : (run 2 true [false, true, false, true, false]).map Prod.snd =
      some [.entered 0 0, .entered 1 1, .left 0 0, .left 1 1, .called 0] := by decide +kernel
  obtain ⟨⟨w, log⟩, hrun, rfl⟩ := Option.map_eq_some_iff.mp hlog
  exact ⟨w, hrun, (gate_admits hrun).2.2.1⟩

end

end Brf.Ipc
