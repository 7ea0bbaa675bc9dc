import Brf.Verification.Prog.Validity
import Mathlib.Tactic

/-! # File names

Where a file name that was accepted leads, when it is read up to its first zero byte. -/

namespace Brf

open List

/-- The string that the kernel reads from a buffer. -/
def cString (bytes : List UInt8) : List UInt8 := bytes.takeWhile (· ≠ 0)

/-- One component of the way from a directory: how many levels above it the way is, and the
components below, innermost first. -/
def walkStep (pos : ℕ × List (List UInt8)) (comp : List UInt8) : ℕ × List (List UInt8) :=
  if comp = [] ∨ comp = [46] then pos
  else if comp = [46, 46] then
    match pos.2 with
    | _ :: rest => (pos.1, rest)
    | [] => (pos.1 + 1, [])
  else (pos.1, comp :: pos.2)

def walk (comps : List (List UInt8)) : ℕ × List (List UInt8) := comps.foldl walkStep (0, [])

/-- The path is relative and does not lead above the directory it starts from. -/
def StaysBelow (path : List UInt8) : Prop :=
  path.head? ≠ some 47 ∧ (walk (path.splitOn 47)).1 = 0

section Walks

variable {pos : ℕ × List (List UInt8)} {comps : List (List UInt8)} {comp path : List UInt8}

theorem walkStep_up (pos : ℕ × List (List UInt8)) (comp : List UInt8) :
    pos.1 ≤ (walkStep pos comp).1 := by
  unfold walkStep
  split_ifs
  · exact le_rfl
  · split <;> omega
  · exact le_rfl

theorem walk_snoc (comps : List (List UInt8)) (comp : List UInt8) :
    walk (comps ++ [comp]) = walkStep (walk comps) comp := by
  simp [walk]

theorem walk_up (comps more : List (List UInt8)) : (walk comps).1 ≤ (walk (comps ++ more)).1 := by
  rw [walk, walk, foldl_append]
  generalize comps.foldl walkStep (0, []) = pos
  induction more generalizing pos with
  | nil => exact le_rfl
  | cons comp more ih => exact (walkStep_up pos comp).trans (ih _)

/-- `filepath.Clean` of a relative path keeps the levels above as components. -/
theorem foldl_cleanStep (comps : List (List UInt8)) : comps.foldl (cleanStep false) [] =
    (walk comps).2 ++ List.replicate (walk comps).1 [46, 46] ∧ [46, 46] ∉ (walk comps).2 := by
  induction comps using List.reverseRecOn with
  | nil => simp [walk]
  | append_singleton comps comp ih =>
    obtain ⟨hclean, hreal⟩ := ih
    rw [foldl_append, foldl_cons, foldl_nil, hclean, walk_snoc]
    generalize walk comps = pos at hreal ⊢
    obtain ⟨up, down⟩ := pos
    by_cases hstay : comp = [] ∨ comp = [46]
    · simp only [cleanStep, walkStep, if_pos hstay]
      exact ⟨trivial, hreal⟩
    by_cases hback : comp = [46, 46]
    · subst hback
      cases down with
      | nil => cases up <;> simp [cleanStep, walkStep, replicate_succ]
      | cons top rest =>
        have htop : top ≠ [46, 46] := fun h => hreal (h ▸ .head _)
        exact ⟨by simp [cleanStep, walkStep, htop], fun h => hreal (.tail _ h)⟩
    · simp only [cleanStep, walkStep, if_neg hstay, if_neg hback]
      exact ⟨rfl, not_mem_cons_of_ne_of_not_mem (Ne.symm hback) hreal⟩

theorem intercalate_cons (sep comp : List UInt8) (comps : List (List UInt8)) :
    comp <+: List.intercalate sep (comp :: comps) := by
  cases comps <;> simp [List.intercalate]

theorem staysBelow_of_escapingFilename (h : escapingFilename path = false) : StaysBelow path := by
  by_cases hroot : path.head? = some 47
  · simp [escapingFilename, filepathClean, hroot] at h
  refine ⟨hroot, Nat.eq_zero_of_not_pos fun hup => ?_⟩
  obtain ⟨up, hup⟩ := Nat.exists_eq_succ_of_ne_zero hup.ne'
  have hrel : (path.head? == some 47) = false := by simpa using hroot
  have hclean := (foldl_cleanStep (path.splitOn 47)).1
  rw [hup, replicate_succ', ← append_assoc] at hclean
  obtain ⟨more, hmore⟩ := intercalate_cons [47] [46, 46]
    ((walk (path.splitOn 47)).2 ++ List.replicate up [46, 46]).reverse
  have hpath : filepathClean path = [46, 46] ++ more := by
    rw [filepathClean, hrel, hclean, hmore]
    simp
  rw [escapingFilename, hpath] at h
  cases h

theorem splitOn_append (a b : List UInt8) : ∃ init last first rest,
    a.splitOn 47 = init ++ [last] ∧ (a ++ b).splitOn 47 = init ++ (last ++ first) :: rest := by
  induction a with
  | nil =>
    obtain ⟨first, rest, hb⟩ := exists_cons_of_ne_nil (splitOnP_ne_nil (· == 47) b)
    exact ⟨[], [], first, rest, rfl, hb⟩
  | cons x a ih =>
    obtain ⟨init, last, first, rest, ha, hab⟩ := ih
    rw [List.splitOn] at ha hab
    rw [List.splitOn, List.splitOn, cons_append, splitOnP_cons_eq_if_modifyHead,
      splitOnP_cons_eq_if_modifyHead, ha, hab]
    by_cases hx : x == 47
    · exact ⟨[] :: init, last, first, rest, by simp [hx]⟩
    · cases init with
      | nil => exact ⟨[], x :: last, first, rest, by simp [hx]⟩
      | cons y init => exact ⟨(x :: y) :: init, last, first, rest, by simp [hx]⟩

end Walks

/-- A file name that was accepted stays below, as the kernel reads it, exactly if the way does not
leave the directory with its last component. -/
theorem fileName_staysBelow_iff {t : Target} {ref : Ref} {c : VarTypeCommon}
    {rangeBegin rangeEnd size : UInt64} {values : List (List UInt8)} {noZ : Bool}
    {bytes : List UInt8} (htype : t.type ref = .buffer c .filename rangeBegin rangeEnd values noZ)
    (hvalid : validateData t ref size bytes = .ok ()) : StaysBelow (cString bytes) ↔
    ¬ ∃ init, (cString bytes).splitOn 47 = init ++ [[46, 46]] ∧ walk init = (0, []) := by
  have hescape : escapingFilename bytes = false := by
    simp only [validateData, htype, valid_bind_eq_ok, reject_eq_ok, exists_unit] at hvalid
    simpa using hvalid.2
  obtain ⟨hroot, hup⟩ := staysBelow_of_escapingFilename hescape
  have hbytes : bytes = cString bytes ++ bytes.dropWhile (· ≠ 0) :=
    takeWhile_append_dropWhile.symm
  obtain ⟨init, last, first, rest, hcomps, hwhole⟩ :=
    splitOn_append (cString bytes) (bytes.dropWhile (· ≠ 0))
  rw [← hbytes] at hwhole
  have hinit : (walk init).1 = 0 :=
    Nat.le_zero.mp (hup ▸ hwhole ▸ walk_up init ((last ++ first) :: rest))
  have hhead : (cString bytes).head? ≠ some 47 := by
    rw [cString, head?_takeWhile]
    exact fun h => hroot (Option.filter_eq_some_iff.mp h).1
  rw [StaysBelow, and_iff_right hhead, hcomps, walk_snoc]
  constructor
  · rintro h ⟨init', heq, hwalk⟩
    obtain ⟨rfl, hlast⟩ := append_inj' heq rfl
    obtain ⟨rfl, -⟩ := List.cons.inj hlast
    simp [walkStep, hwalk] at h
  · intro h
    unfold walkStep
    split_ifs with hstay hback
    · exact hinit
    · cases hdown : (walk init).2 with
      | nil => exact absurd ⟨init, by rw [hback], Prod.ext hinit hdown⟩ h
      | cons => exact hinit
    · exact hinit

/-- A target whose types are those of file names. -/
def fileTarget : Target := smallTarget [] [.buffer ⟨"filename", none, false⟩ .filename 0 0 [] false]

theorem plainName_staysBelow : validateData fileTarget 0 4 [46, 47, 102, 0] = .ok () ∧
    StaysBelow (cString [46, 47, 102, 0]) := by
  have hvalid : validateData fileTarget 0 4 [46, 47, 102, 0] = .ok () := by decide
  refine ⟨hvalid, (fileName_staysBelow_iff rfl hvalid).mpr ?_⟩
  rintro ⟨init, hinit, -⟩
  have hlast := congrArg List.getLast? hinit
  rw [getLast?_concat] at hlast
  exact absurd hlast (by decide)

/-- The zero byte behind `..` makes it a component that the next one cancels. -/
theorem dotsName_above : validateData fileTarget 0 8 [46, 46, 0, 47, 46, 46, 47, 97] = .ok () ∧
    cString [46, 46, 0, 47, 46, 46, 47, 97] = [46, 46] ∧ ¬ StaysBelow [46, 46] :=
  ⟨by decide, by decide, fun h => absurd h.2 (by decide)⟩

end Brf
