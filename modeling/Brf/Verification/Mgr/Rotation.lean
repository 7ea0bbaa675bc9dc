import Brf.Model.Rpc
import Brf.Verification.Mgr.Signal

/-! # Corpus rotation

`selectInputs` leaves out inputs, takes their signal off the max signal, and a tenth of what
remains. A tenth of less than ten elements is a split into no elements, which loses them all. -/

namespace Brf.Mgr

open Brf.Lib List Option Hub

def allEnabled (enabled : List Name) (inp : Input) : Bool :=
  match callSet inp.prog with
  | .error _ => false
  | .ok (calls, _) => calls.all (· ∈ enabled)

/-- The inputs whose calls are all enabled and that are dropped by their draws, or are not. The
first of them has the draw number `i`. -/
def drawn (r : Rotation) (drop : Bool) (i : ℕ) (inputs : List Input) : List Input :=
  (((inputs.filter (allEnabled r.calls)).zipIdx i).filter
    fun x => r.drops.getD x.2 false == drop).map Prod.fst

def dropped (r : Rotation) (i : ℕ) (inputs : List Input) : List Input :=
  inputs.filter (!allEnabled r.calls ·) ++ drawn r true i inputs

/-- The signal without the elements of the dropped inputs. -/
def remaining (r : Rotation) (inputs : List Input) (signal : Signal) : Signal :=
  signal.select fun e _ => (dropped r 0 inputs).all (e ∉ ·.signal.elems)

/-- What is expected of `selectInputs`, and of the server that calls it. -/
structure Selects (r : Rotation) (inputs0 : List Input) (signal0 : Signal) : Prop where
  result : ∃ signal, selectInputs r inputs0 signal0 = some (drawn r false 0 inputs0, signal) ∧
    (∀ e p, signal.lookup e = some p → (remaining r inputs0 signal0).lookup e = some p) ∧
    signal.keys.length = (remaining r inputs0 signal0).keys.length -
      (remaining r inputs0 signal0).keys.length / 10
  unmodified : ∀ (st st' : Server) i note, st.maxSignal = signal0 →
    st.register i (some r) = some (st', note) → st'.maxSignal = signal0

variable {r : Rotation} {inp : Input} {l : List Input}

theorem drawn_cons (drop : Bool) (i : ℕ) : drawn r drop i (inp :: l) =
    if allEnabled r.calls inp then if r.drops.getD i false =
    drop then inp :: drawn r drop (i + 1) l else drawn r drop (i + 1) l else drawn r drop i l := by
  rw [drawn, filter_cons]
  split
  · split <;> simp_all [drawn]
  · rfl

theorem lookup_foldl_erase_elems (elems : List Elem) (s : Signal) (e : Elem) :
    (elems.foldl (fun s sig => s.erase sig) s).lookup e =
      if e ∈ elems then none else s.lookup e := by
  induction elems generalizing s with
  | nil => simp
  | cons a elems ih =>
    rw [foldl_cons, ih, Dict.lookup_erase_ite]
    by_cases ha : e = a <;> simp [ha]

theorem any_dropped_cons (p : Input → Bool) (i : ℕ) : (dropped r i (inp :: l)).any p =
    if allEnabled r.calls inp then
      r.drops.getD i false && p inp || (dropped r (i + 1) l).any p
    else p inp || (dropped r i l).any p := by
  rw [dropped, drawn_cons, filter_cons]
  cases allEnabled r.calls inp with
  | true => cases r.drops.getD i false <;> simp [dropped, Bool.or_left_comm]
  | false => simp [dropped]

theorem selectLoop_eq (h : ∀ inp ∈ l, (callSet inp.prog).isOk) (i : ℕ) (inputs : List Input)
    (s : Signal) : ∃ s', selectLoop r.calls (r.drops.drop i) l inputs s =
    some (inputs ++ drawn r false i l, s') ∧ ∀ e, s'.lookup e =
    if (dropped r i l).any (e ∈ ·.signal.elems) then none else s.lookup e := by
  induction l generalizing i inputs s with
  | nil => exact ⟨s, by simp [selectLoop, drawn], by simp [dropped, drawn]⟩
  | cons inp l ih =>
    have ih := fun i => @ih (fun inp hinp => h inp (mem_cons_of_mem _ hinp)) i
    have hhead : (r.drops.drop i).headD false = r.drops.getD i false := by
      rw [headD_eq_head?_getD, head?_drop, getD_eq_getElem?_getD]
    obtain ⟨x, hx⟩ : ∃ x, callSet inp.prog = .ok x := by
      have hok := h inp mem_cons_self
      revert hok
      cases callSet inp.prog with
      | error err => exact fun hok => absurd hok (by simp [Except.isOk, Except.toBool])
      | ok x => exact fun _ => ⟨x, rfl⟩
    have hen : allEnabled r.calls inp = !x.1.any fun call => call ∉ r.calls := by
      simp [allEnabled, hx, not_any_eq_all_not]
    have herase := lookup_foldl_erase_elems inp.signal.elems s
    simp only [selectLoop, hx, tail_drop, hhead, drawn_cons, any_dropped_cons, hen]
    cases x.1.any fun call => call ∉ r.calls with
    | true =>
      obtain ⟨s', hs', hlook⟩ := ih i inputs (inp.signal.elems.foldl (fun s sig => s.erase sig) s)
      refine ⟨s', by simpa using hs', fun e => ?_⟩
      rw [hlook, herase]
      by_cases he : e ∈ inp.signal.elems <;> simp [he]
    | false =>
      cases r.drops.getD i false with
      | true =>
        obtain ⟨s', hs', hlook⟩ :=
          ih (i + 1) inputs (inp.signal.elems.foldl (fun s sig => s.erase sig) s)
        refine ⟨s', by simpa using hs', fun e => ?_⟩
        rw [hlook, herase]
        by_cases he : e ∈ inp.signal.elems <;> simp [he]
      | false =>
        obtain ⟨s', hs', hlook⟩ := ih (i + 1) (inputs ++ [inp]) s
        exact ⟨s', by simpa using hs', by simpa using hlook⟩

theorem isOk_of_selectLoop {enabled : List Name} {drops : List Bool} {inputs : List Input}
    {s : Signal} {x : List Input × Signal} (h : selectLoop enabled drops l inputs s = some x) :
    ∀ inp ∈ l, (callSet inp.prog).isOk := by
  induction l generalizing drops inputs s with
  | nil => simp
  | cons inp l ih =>
    rw [selectLoop] at h
    cases hcalls : callSet inp.prog with
    | error err => simp [hcalls] at h
    | ok y =>
      simp only [hcalls] at h
      refine forall_mem_cons.mpr ⟨by rw [hcalls]; rfl, ?_⟩
      split at h
      · exact ih h
      · split at h <;> exact ih h

theorem length_keys_of_lookup {s s' : Signal} (h : ∀ e, s.lookup e = s'.lookup e) :
    s.keys.length = s'.keys.length := by
  have := AList.toFinmap_eq.mp (Dict.toFinmap_eq_of_lookup h)
  simpa [AList.keys, List.keys] using this.length_eq

theorem register_maxSignal {st st' : Server} {i : ℕ} {rot : Option Rotation} {note : Note}
    (h : st.register i rot = some (st', note)) : st'.maxSignal = st.maxSignal := by
  unfold Server.register at h
  split at h
  · obtain ⟨f, -, hf⟩ := bind_eq_some_iff.mp h
    cases hf
    rfl
  · cases h

theorem selectInputs_eq {inputs0 : List Input} (h : ∀ inp ∈ inputs0, (callSet inp.prog).isOk)
    (signal0 : Signal) : ∃ s : Signal, (∀ e, s.lookup e = (remaining r inputs0 signal0).lookup e) ∧
    selectInputs r inputs0 signal0 =
    some (drawn r false 0 inputs0, (s.split (s.keys.length / 10) r.order).2) := by
  obtain ⟨s, hs, hlook⟩ := selectLoop_eq (r := r) h 0 [] signal0
  refine ⟨s, fun e => Option.ext fun p => ?_, ?_⟩
  · rw [remaining, Dict.lookup_select, all_eq_not_any_not]
    cases hany : (dropped r 0 inputs0).any (e ∈ ·.signal.elems) <;> simp_all
  · rw [drop_zero] at hs
    rw [selectInputs, hs, ← Dict.map_fst_toPairs, length_map]
    rfl

/-- With one to nine elements left the tenth to split off is no element, and all are lost. -/
theorem selects_iff (r : Rotation) (inputs0 : List Input) (signal0 : Signal) :
    Selects r inputs0 signal0 ↔ (∀ inp ∈ inputs0, (callSet inp.prog).isOk) ∧
      ((remaining r inputs0 signal0).keys.length = 0 ∨
        10 ≤ (remaining r inputs0 signal0).keys.length) := by
  constructor
  · rintro ⟨⟨signal, hsel, -, hlen⟩, -⟩
    have hok : ∀ inp ∈ inputs0, (callSet inp.prog).isOk := by
      obtain ⟨x, hx, -⟩ := bind_eq_some_iff.mp hsel
      exact isOk_of_selectLoop hx
    obtain ⟨s, hs, heq⟩ := selectInputs_eq (r := r) hok signal0
    obtain rfl : (s.split (s.keys.length / 10) r.order).2 = signal := by simp_all
    rw [Signal.length_split, length_keys_of_lookup hs] at hlen
    refine ⟨hok, ?_⟩
    split at hlen <;> omega
  · rintro ⟨hok, hn⟩
    obtain ⟨s, hs, heq⟩ := selectInputs_eq (r := r) hok signal0
    refine ⟨⟨_, heq, fun e p hp => ?_, ?_⟩, fun st st' i note hst h =>
      (register_maxSignal h).trans hst⟩
    · rcases s.split_sides (s.keys.length / 10) r.order e with ⟨-, h⟩ | ⟨-, h⟩
      · rw [← hs, ← h, hp]
      · rw [h] at hp
        cases hp
    · rw [Signal.length_split, length_keys_of_lookup hs]
      split <;> omega

/-- A signal of less than ten elements is dropped as a whole. -/
theorem small_signal_lost : ¬ Selects ⟨[], [], .id⟩ [] (AList.singleton 7 1) := by
  rintro ⟨⟨s, hs, -, hlen⟩, -⟩
  cases hs
  revert hlen
  decide

end Brf.Mgr
