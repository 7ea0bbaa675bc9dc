import Mathlib.Data.List.Basic

/-! # Trace monitors

Two two-state monitors over event traces and what their acceptance says about the order of
events. A monitor rejects by returning `none`; runs compose by `List.foldlM_append`. -/

namespace Brf.Lib

open List

variable {ε : Type*}

/-! ### Brackets: every opening event is closed exactly once before the next one -/

def bracketStep (isOpen isClose : ε → Bool) (opened : Bool) (e : ε) : Option Bool :=
  if isOpen e then (if opened then none else some true)
  else if isClose e then (if opened then some false else none)
  else some opened

def bracketRun (isOpen isClose : ε → Bool) (opened : Bool) (t : List ε) : Option Bool :=
  t.foldlM (bracketStep isOpen isClose) opened

variable {t pre post : List ε} {b : Bool} {e : ε}

section Bracket

variable {isOpen isClose : ε → Bool}

@[simp] theorem bracketRun_nil (b : Bool) : bracketRun isOpen isClose b [] = some b := rfl

theorem bracketRun_cons (b : Bool) (e : ε) (t : List ε) : bracketRun isOpen isClose b (e :: t) =
    (bracketStep isOpen isClose b e).bind (bracketRun isOpen isClose · t) := by
  simp only [bracketRun, foldlM_cons, bind]

theorem bracketRun_append (b : Bool) (t u : List ε) : bracketRun isOpen isClose b (t ++ u) =
    (bracketRun isOpen isClose b t).bind (bracketRun isOpen isClose · u) := by
  simp only [bracketRun, foldlM_append, bind]

/-- Events that neither open nor close leave the monitor where it is. -/
theorem bracketRun_neutral (h : ∀ e ∈ t, isOpen e = false ∧ isClose e = false)
    (b : Bool) : bracketRun isOpen isClose b t = some b := by
  induction t with
  | nil => rfl
  | cons e t ih =>
    have he := h e mem_cons_self
    rw [bracketRun_cons, bracketStep]
    simpa [he] using ih (fun e' he' => h e' (mem_cons_of_mem e he'))

/-- Before the next opening event a closed bracket sees no closing event, and an open one
sees exactly one. -/
theorem countP_close_of_bracketRun (h : bracketRun isOpen isClose b t = some false) :
    (t.takeWhile (fun e => !isOpen e)).countP isClose = if b then 1 else 0 := by
  induction t generalizing b with
  | nil =>
    obtain rfl : b = false := by simpa using h
    rfl
  | cons e t ih =>
    rw [bracketRun_cons] at h
    cases hopen : isOpen e with
    | true =>
      cases b with
      | true => simp [bracketStep, hopen] at h
      | false => simp [hopen]
    | false =>
      cases hclose : isClose e with
      | true =>
        cases b with
        | false => simp [bracketStep, hopen, hclose] at h
        | true =>
          simp only [bracketStep, hopen, hclose] at h
          simpa [hopen, hclose] using ih h
      | false =>
        simp only [bracketStep, hopen, hclose] at h
        simpa [hopen, hclose] using ih h

theorem bracket_closed_once (h : bracketRun isOpen isClose false t = some false)
    (ht : t = pre ++ e :: post) (he : isOpen e) :
    (post.takeWhile (fun e => !isOpen e)).countP isClose = 1 := by
  rw [ht, bracketRun_append, Option.bind_eq_some_iff] at h
  obtain ⟨b, -, h⟩ := h
  rw [bracketRun_cons, Option.bind_eq_some_iff] at h
  obtain ⟨b', hstep, hrun⟩ := h
  obtain rfl : b' := by
    cases b <;> simp_all [bracketStep]
  simpa using countP_close_of_bracketRun hrun

end Bracket

/-! ### Guards: a tainted resource is cleaned before it is used -/

def guardStep (isTaint isClean isUse : ε → Bool) (tainted : Bool) (e : ε) : Option Bool :=
  if isTaint e then some true
  else if isClean e then some false
  else if isUse e && tainted then none
  else some tainted

def guardRun (isTaint isClean isUse : ε → Bool) (tainted : Bool) (t : List ε) : Option Bool :=
  t.foldlM (guardStep isTaint isClean isUse) tainted

section Guard

variable {isTaint isClean isUse : ε → Bool}

@[simp] theorem guardRun_nil (b : Bool) : guardRun isTaint isClean isUse b [] = some b := rfl

theorem guardRun_cons (b : Bool) (e : ε) (t : List ε) : guardRun isTaint isClean isUse b (e :: t) =
    (guardStep isTaint isClean isUse b e).bind (guardRun isTaint isClean isUse · t) := by
  simp only [guardRun, foldlM_cons, bind]

theorem guardRun_append (b : Bool) (t u : List ε) : guardRun isTaint isClean isUse b (t ++ u) =
    (guardRun isTaint isClean isUse b t).bind (guardRun isTaint isClean isUse · u) := by
  simp only [guardRun, foldlM_append, bind]

variable {mid : List ε} {b' : Bool}

/-- A tainted run that goes on to a use has been cleaned in between. -/
theorem exists_clean_of_guardRun
    (h : guardRun isTaint isClean isUse true (mid ++ e :: post) = some b') (he : isUse e)
    (htaint : isTaint e = false) (hclean : isClean e = false) : ∃ c ∈ mid, isClean c := by
  induction mid with
  | nil =>
    rw [nil_append, guardRun_cons] at h
    simp [guardStep, he, htaint, hclean] at h
  | cons c mid ih =>
    rw [cons_append, guardRun_cons, Option.bind_eq_some_iff] at h
    obtain ⟨b, hstep, hrun⟩ := h
    by_cases hc : isClean c
    · exact ⟨c, mem_cons_self, hc⟩
    · obtain rfl : b := by
        by_cases ht : isTaint c
        · simpa [guardStep, ht] using hstep.symm
        · by_cases hu : isUse c = true <;> simp_all [guardStep]
      obtain ⟨c', hmem, hc'⟩ := ih hrun
      exact ⟨c', mem_cons_of_mem c hmem, hc'⟩

theorem guard_cleaned_before_use {e' : ε} (h : guardRun isTaint isClean isUse b t = some b')
    (ht : t = pre ++ e :: (mid ++ e' :: post)) (he : isTaint e) (hu : isUse e')
    (htaint : isTaint e' = false) (hclean : isClean e' = false) : ∃ c ∈ mid, isClean c := by
  rw [ht, guardRun_append, Option.bind_eq_some_iff] at h
  obtain ⟨b1, -, h⟩ := h
  rw [guardRun_cons, Option.bind_eq_some_iff] at h
  obtain ⟨b2, hstep, hrun⟩ := h
  obtain rfl : b2 := by simpa [guardStep, he] using hstep.symm
  exact exists_clean_of_guardRun hrun hu htaint hclean

end Guard

end Brf.Lib
