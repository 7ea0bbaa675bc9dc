import Brf.Model.MinimizeSlice
import Mathlib.Data.List.Basic
import Mathlib.Order.Lattice

/-! # Minimized slices

At any moment the chunks, the parts still to be tested and the chunks behind them make up the
last candidate that was accepted. For a predicate that is upward closed, every chunk that was
kept stays needed while others are dropped. -/

namespace Brf.Minimize

open List Config PredCall

variable {T ε : Type} {fuel : ℕ} {l : List T} {size : ℕ}

theorem flatten_pieces (hsize : 0 < size) (hfuel : l.length ≤ fuel) :
    (pieces size fuel l).flatten = l := by
  induction fuel generalizing l with
  | zero =>
    obtain rfl : l = [] := length_eq_zero_iff.mp (Nat.le_zero.mp hfuel)
    rfl
  | succ fuel ih =>
    rw [pieces]
    split
    · rename_i hnil
      rw [length_eq_zero_iff.mp hnil]
      rfl
    · have hrest : (l.drop size).length ≤ fuel := by
        rw [length_drop]
        omega
      rw [flatten_cons, ih hrest, take_append_drop]

theorem length_of_mem_pieces (hsize : 0 < size) {p : List T}
    (hp : p ∈ pieces size fuel l) : 0 < p.length ∧ p.length ≤ size := by
  induction fuel generalizing l with
  | zero => cases hp
  | succ fuel ih =>
    rw [pieces] at hp
    split at hp
    · cases hp
    · rcases mem_cons.mp hp with rfl | hp
      · rw [length_take]
        omega
      · exact ih hp

theorem flatten_splitChunk (chunk : List T) (parts : ℕ) :
    (splitChunk chunk parts).flatten = chunk := by
  refine flatten_pieces ?_ (Nat.le_refl _)
  split
  · exact Nat.one_pos
  · rename_i hne
    exact Nat.pos_of_ne_zero hne

variable {chunk : List T} {parts : ℕ}

theorem pos_of_mem_splitChunk {p : List T} (hp : p ∈ splitChunk chunk parts) : 0 < p.length := by
  refine (length_of_mem_pieces ?_ hp).1
  split
  · exact Nat.one_pos
  · rename_i hne
    exact Nat.pos_of_ne_zero hne

theorem length_le_of_mem_splitChunk {part : List T}
    (h : part ∈ splitChunk chunk parts) : part.length ≤ chunk.length := by
  conv_rhs => rw [← flatten_splitChunk chunk parts]
  exact (sublist_flatten_of_mem h).length_le

theorem length_of_mem_halves {p : List T} (hp : p ∈ splitChunk chunk 2) :
    p.length ≤ (chunk.length + 1) / 2 := by
  have hsub := length_le_of_mem_splitChunk hp
  have hle := (length_of_mem_pieces (by split <;> omega) hp).2
  split at hle <;> omega

theorem length_of_single (h : (splitChunk chunk 2).length = 1) : chunk.length = 1 := by
  obtain ⟨p, hp⟩ := length_eq_one_iff.mp h
  have hmem : p ∈ splitChunk chunk 2 := by rw [hp]; exact mem_singleton_self p
  have hflat := flatten_splitChunk chunk 2
  rw [hp, flatten_singleton] at hflat
  subst hflat
  have hpos := pos_of_mem_splitChunk hmem
  have hle := length_of_mem_halves hmem
  omega

theorem single_of_length (h : chunk.length = 1) : (splitChunk chunk 2).length = 1 := by
  obtain ⟨a, rfl⟩ := length_eq_one_iff.mp h
  rfl

/-! ### Calls of the predicate -/

def PredCall.accepted (call : PredCall T ε) : Bool :=
  match call.answer with
  | .ok true => true
  | _ => false

/-- The last candidate on which the predicate returned true. -/
def lastAccepted (calls : List (PredCall T ε)) : Option (List T) :=
  ((calls.filter accepted).getLast?).map candidate

/-- The predicate is `p` at every call, without a limit on the calls, and upward closed. -/
structure Config.Decides (cfg : Config T ε) (p : List T → Bool) : Prop where
  pred : ∀ n l, cfg.pred n l = .ok (p l)
  steps : cfg.maxSteps ≤ 0
  upward : ∀ l l' : List T, l.Sublist l' → p l → p l'

variable {p : List T → Bool} {cfg : Config T ε}

theorem Config.Decides.shrink (h : cfg.Decides p)
    {l' : List T} (hsub : l.Sublist l') (hl' : p l' = false) : p l = false := by
  by_contra hl
  rw [h.upward l l' hsub (by simpa using hl)] at hl'
  cases hl'

/-- The limit is kept, and the answers are those of the predicate. -/
structure Config.Logged (cfg : Config T ε) (calls : List (PredCall T ε)) : Prop where
  within : 0 < cfg.maxSteps → (calls.length : ℤ) ≤ cfg.maxSteps
  answers : ∀ i call, calls[i]? = some call → call.answer = cfg.pred i call.candidate

theorem Config.Logged.step {calls : List (PredCall T ε)}
    (h : cfg.Logged calls) (hlim : cfg.limited calls = false) (candidate : List T) :
    cfg.Logged (calls ++ [⟨candidate, cfg.pred calls.length candidate⟩]) where
  within := by
    intro hpos
    simp only [limited, hpos, decide_true, Bool.true_and, decide_eq_false_iff_not] at hlim
    rw [length_append, length_singleton]
    omega
  answers := by
    intro i call hcall
    rcases Nat.lt_trichotomy i calls.length with hi | rfl | hi
    · rw [getElem?_append_left hi] at hcall
      exact h.answers i call hcall
    · rw [getElem?_concat_length, Option.some.injEq] at hcall
      rw [← hcall]
    · rw [getElem?_eq_none (by rw [length_append]; exact hi)] at hcall
      cases hcall

theorem predRun_cases (cfg : Config T ε) (before : List (ArrayChunk T)) (mid : List T)
    (after : List (ArrayChunk T)) (calls : List (PredCall T ε)) :
    (0 < cfg.maxSteps ∧ cfg.predRun before mid after calls = (.ok false, calls)) ∨
      (cfg.limited calls = false ∧
        cfg.predRun before mid after calls =
          (cfg.pred calls.length (mergeChunks before mid after),
            calls ++ [⟨mergeChunks before mid after,
              cfg.pred calls.length (mergeChunks before mid after)⟩])) := by
  unfold predRun
  split
  · rename_i hlim
    refine .inl ⟨?_, rfl⟩
    simp only [limited, Bool.and_eq_true, decide_eq_true_eq] at hlim
    exact hlim.1
  · rename_i hlim
    exact .inr ⟨by simpa using hlim, rfl⟩

def content (chunks : List (ArrayChunk T)) : List T :=
  chunks.flatMap ArrayChunk.elements

@[simp] theorem content_nil : content ([] : List (ArrayChunk T)) = [] := rfl

@[simp] theorem content_cons (x : ArrayChunk T) (chunks : List (ArrayChunk T)) :
    content (x :: chunks) = x.elements ++ content chunks := rfl

@[simp] theorem content_append (l l' : List (ArrayChunk T)) :
    content (l ++ l') = content l ++ content l' := flatMap_append

theorem mergeChunks_eq (before : List (ArrayChunk T)) (mid : List T) (after : List (ArrayChunk T)) :
    mergeChunks before mid after = content before ++ mid ++ content after := rfl

/-- Without any one of the chunks, what is left between `head` and `tail` does not pass. -/
def Needed (p : List T → Bool) (head : List T) (chunks : List (ArrayChunk T)) (tail : List T) :
    Prop :=
  ∀ pre x post, chunks = pre ++ x :: post → p (head ++ content pre ++ content post ++ tail) = false

theorem Needed.nil (p : List T → Bool) (head tail : List T) : Needed p head [] tail := by
  intro pre x post h
  simp at h

variable {head tail : List T} {chunks : List (ArrayChunk T)}

theorem Needed.shrink (hp : cfg.Decides p) {head' tail' : List T} (h : Needed p head chunks tail)
    (hhead : head'.Sublist head) (htail : tail'.Sublist tail) : Needed p head' chunks tail' := by
  intro pre x post heq
  refine hp.shrink ?_ (h pre x post heq)
  exact ((hhead.append (.refl _)).append (.refl _)).append htail

variable {x : ArrayChunk T}

theorem Needed.concat (h : Needed p head chunks (x.elements ++ tail))
    (hx : p (head ++ content chunks ++ tail) = false) : Needed p head (chunks ++ [x]) tail := by
  intro pre y post heq
  rcases eq_nil_or_concat post with rfl | ⟨post, z, rfl⟩
  · obtain ⟨rfl, -⟩ := append_inj' heq rfl
    simpa using hx
  · rw [concat_eq_append, ← cons_append, ← append_assoc] at heq
    obtain ⟨hchunks, hz⟩ := append_inj' heq rfl
    obtain rfl : x = z := singleton_inj.mp hz
    simpa [append_assoc] using h pre y post hchunks

theorem Needed.first (h : Needed p head (x :: chunks) tail) :
    p (head ++ content chunks ++ tail) = false := by
  simpa using h [] x chunks rfl

theorem Needed.rest (h : Needed p head (x :: chunks) tail) :
    Needed p (head ++ x.elements) chunks tail := by
  intro pre y post heq
  simpa [append_assoc] using h (x :: pre) y post (by rw [heq]; rfl)

/-- Between two tests: `new` are the chunks that are kept so far, `mid` the elements of the parts
still to be tested, `after` the chunks of the last round that follow. -/
structure Inv (cfg : Config T ε) (slice : List T) (bound : ℕ) (someNeeded : Bool)
    (new : List (ArrayChunk T)) (mid : List T) (after : List (ArrayChunk T))
    (calls : List (PredCall T ε)) : Prop where
  sub : (mergeChunks new mid after).Sublist slice
  last : mergeChunks new mid after = (lastAccepted calls).getD slice
  logged : cfg.Logged calls
  short : ∀ x ∈ new, x.final = false → 0 < x.elements.length ∧ x.elements.length ≤ bound
  single : ∀ x ∈ new ++ after, x.final → x.elements.length = 1
  kept : ∀ p, cfg.Decides p → Needed p [] new (mid ++ content after)
  ahead : someNeeded → ∀ p, cfg.Decides p → Needed p (content new ++ mid) after []

variable {cfg : Config T ε} {slice : List T} {bound : ℕ} {someNeeded : Bool}
  {new after : List (ArrayChunk T)} {mid part : List T} {calls calls' : List (PredCall T ε)}

theorem Inv.drop (h : Inv cfg slice bound someNeeded new (part ++ mid) after calls)
    (hrun : cfg.predRun new mid after calls = (.ok true, calls')) :
    Inv cfg slice bound someNeeded new mid after calls' := by
  rcases predRun_cases cfg new mid after calls with ⟨-, hcase⟩ | ⟨hlim, hcase⟩
  · simp [hcase] at hrun
  · obtain ⟨hanswer, rfl⟩ := Prod.mk.inj (hcase.symm.trans hrun)
    have hmid : mid.Sublist (part ++ mid) := sublist_append_right part mid
    have hlogged := h.logged.step hlim (mergeChunks new mid after)
    rw [hanswer] at hlogged ⊢
    refine
      { sub := List.Sublist.trans ?_ h.sub
        last := ?_
        logged := hlogged
        short := h.short
        single := h.single
        kept := ?_
        ahead := ?_ }
    · exact ((List.Sublist.refl _).append hmid).append (.refl _)
    · simp [lastAccepted, accepted]
    · intro p hp
      exact (h.kept p hp).shrink hp (.refl _) (hmid.append (.refl _))
    · intro hsome p hp
      exact (h.ahead hsome p hp).shrink hp ((List.Sublist.refl _).append hmid) (.refl _)

theorem Inv.refuse (h : Inv cfg slice bound someNeeded new (part ++ mid) after calls)
    (hrun : cfg.predRun new mid after calls = (.ok false, calls')) :
    Inv cfg slice bound someNeeded new (part ++ mid) after calls' ∧
      ∀ p, cfg.Decides p → p (mergeChunks new mid after) = false := by
  rcases predRun_cases cfg new mid after calls with ⟨hpos, hcase⟩ | ⟨hlim, hcase⟩
  · obtain ⟨-, rfl⟩ := Prod.mk.inj (hcase.symm.trans hrun)
    refine ⟨h, ?_⟩
    intro p hp
    exact absurd hp.steps (not_le.mpr hpos)
  · obtain ⟨hanswer, rfl⟩ := Prod.mk.inj (hcase.symm.trans hrun)
    have hlogged := h.logged.step hlim (mergeChunks new mid after)
    rw [hanswer] at hlogged ⊢
    refine ⟨{ h with last := ?_, logged := hlogged }, ?_⟩
    · simpa [lastAccepted, accepted] using h.last
    · intro p hp
      exact Except.ok.inj ((hp.pred _ _).symm.trans hanswer)

variable {e : ε}

theorem predRun_error (h : cfg.Logged calls)
    (hrun : cfg.predRun new mid after calls = (.error e, calls')) :
    cfg.Logged calls' ∧ ∀ p, ¬ cfg.Decides p := by
  rcases predRun_cases cfg new mid after calls with ⟨-, hcase⟩ | ⟨hlim, hcase⟩
  · simp [hcase] at hrun
  · obtain ⟨hanswer, rfl⟩ := Prod.mk.inj (hcase.symm.trans hrun)
    refine ⟨h.step hlim _, ?_⟩
    intro p hp
    rw [hp.pred] at hanswer
    cases hanswer

theorem Inv.keep (h : Inv cfg slice bound someNeeded new (part ++ mid) after calls)
    (hpart : 0 < part.length ∧ part.length ≤ bound)
    (hneed : ∀ p, cfg.Decides p → p (mergeChunks new mid after) = false) :
    Inv cfg slice bound someNeeded (new ++ [⟨part, false⟩]) mid after calls := by
  have hmerge : mergeChunks (new ++ [⟨part, false⟩]) mid after
      = mergeChunks new (part ++ mid) after := by
    simp [mergeChunks_eq]
  refine
    { sub := hmerge ▸ h.sub
      last := hmerge ▸ h.last
      logged := h.logged
      short := ?_
      single := ?_
      kept := ?_
      ahead := ?_ }
  · intro x hx hfinal
    rcases mem_append.mp hx with hx | hx
    · exact h.short x hx hfinal
    · rw [mem_singleton.mp hx]
      exact hpart
  · intro x hx hfinal
    rcases mem_append.mp hx with hx | hx
    · rcases mem_append.mp hx with hx | hx
      · exact h.single x (mem_append_left _ hx) hfinal
      · rw [mem_singleton.mp hx] at hfinal
        cases hfinal
    · exact h.single x (mem_append_right _ hx) hfinal
  · intro p hp
    refine Needed.concat ?_ ?_
    · simpa [append_assoc] using h.kept p hp
    · simpa [mergeChunks_eq, append_assoc] using hneed p hp
  · intro hsome p hp
    simpa [append_assoc] using h.ahead hsome p hp

theorem Inv.pass {chunk chunk' : ArrayChunk T}
    (h : Inv cfg slice bound true new [] (chunk :: after) calls)
    (helems : chunk'.elements = chunk.elements) (hfinal : chunk'.final)
    (hlen : chunk.elements.length = 1) :
    Inv cfg slice bound true (new ++ [chunk']) [] after calls := by
  have hmerge : mergeChunks (new ++ [chunk']) [] after = mergeChunks new [] (chunk :: after) := by
    simp [mergeChunks_eq, helems]
  refine
    { sub := hmerge ▸ h.sub
      last := hmerge ▸ h.last
      logged := h.logged
      short := ?_
      single := ?_
      kept := ?_
      ahead := ?_ }
  · intro x hx hnot
    rcases mem_append.mp hx with hx | hx
    · exact h.short x hx hnot
    · rw [mem_singleton.mp hx, hfinal] at hnot
      cases hnot
  · intro x hx hx'
    rcases mem_append.mp hx with hx | hx
    · rcases mem_append.mp hx with hx | hx
      · exact h.single x (mem_append_left _ hx) hx'
      · rw [mem_singleton.mp hx, helems]
        exact hlen
    · exact h.single x (mem_append_right _ (mem_cons_of_mem _ hx)) hx'
  · intro p hp
    refine Needed.concat ?_ ?_
    · simpa [helems] using h.kept p hp
    · simpa using (h.ahead rfl p hp).first
  · intro hsome p hp
    simpa [helems] using (h.ahead hsome p hp).rest

theorem Inv.open_chunk {chunk : ArrayChunk T}
    (h : Inv cfg slice bound someNeeded new [] (chunk :: after) calls) :
    Inv cfg slice bound someNeeded new chunk.elements after calls where
  sub := by simpa [mergeChunks_eq] using h.sub
  last := by simpa [mergeChunks_eq] using h.last
  logged := h.logged
  short := h.short
  single := by
    intro x hx
    refine h.single x ?_
    rcases mem_append.mp hx with hx | hx
    · exact mem_append_left _ hx
    · exact mem_append_right _ (mem_cons_of_mem _ hx)
  kept := by
    intro p hp
    simpa using h.kept p hp
  ahead := by
    intro hsome p hp
    simpa using (h.ahead hsome p hp).rest

/-- What a loop returns: an error of the predicate, or chunks with the invariant. -/
def Returns (cfg : Config T ε) (slice : List T) (bound : ℕ) (someNeeded : Bool)
    (after : List (ArrayChunk T)) :
    Except ε (List (ArrayChunk T)) × List (PredCall T ε) → Prop
  | (.error _, calls) => cfg.Logged calls ∧ ∀ p, ¬ cfg.Decides p
  | (.ok new, calls) => Inv cfg slice bound someNeeded new [] after calls

/-- A needed chunk stays needed until one of its parts is found to be. -/
theorem testParts_spec {parts : List (List T)} {found : Bool}
    (hparts : ∀ part ∈ parts, 0 < part.length ∧ part.length ≤ bound)
    (h : Inv cfg slice bound someNeeded new parts.flatten after calls)
    (hwhole : someNeeded → found = false →
      ∀ p, cfg.Decides p → p (mergeChunks new [] after) = false) :
    Returns cfg slice bound someNeeded after
      (cfg.testParts someNeeded after parts found new calls) := by
  induction parts generalizing found new calls with
  | nil => exact h
  | cons part rest ih =>
    have hpart := hparts part mem_cons_self
    have hrest : ∀ part ∈ rest, 0 < part.length ∧ part.length ≤ bound := by
      intro part hmem
      exact hparts part (mem_cons_of_mem _ hmem)
    rw [testParts]
    split
    · split
      · rename_i hrun
        exact predRun_error h.logged hrun
      · rename_i hrun
        exact ih hrest (h.drop hrun) hwhole
      · rename_i hrun
        obtain ⟨h', hneed⟩ := h.refuse hrun
        refine ih hrest (h'.keep hpart hneed) ?_
        intro _ hfound
        cases hfound
    · rename_i hskip
      simp only [Bool.or_eq_true, Bool.not_eq_true', not_or, Bool.not_eq_false,
        Bool.not_eq_true, List.isEmpty_iff] at hskip
      obtain ⟨⟨hnil, hfound⟩, hsome⟩ := hskip
      refine ih hrest (h.keep hpart ?_) ?_
      · -- nothing else of the chunk is left
        rw [hnil]
        exact hwhole hsome hfound
      · intro _ hfound
        cases hfound

theorem splitLoop_spec {splitInto : ℕ} {todo : List (ArrayChunk T)}
    (hinto : someNeeded → splitInto = 2) (hfirst : someNeeded = false → ∀ x ∈ todo, x.final = false)
    (hparts : ∀ x ∈ todo, x.final = false →
      ((splitChunk x.elements splitInto).length = 1 ∧ someNeeded) ∨
        ∀ part ∈ splitChunk x.elements splitInto, part.length ≤ bound)
    (h : Inv cfg slice bound someNeeded new [] todo calls) :
    Returns cfg slice bound someNeeded []
      (cfg.splitLoop someNeeded splitInto todo new calls) := by
  induction todo generalizing new calls with
  | nil => exact h
  | cons chunk after ih =>
    have hfirst' : someNeeded = false → ∀ x ∈ after, x.final = false := by
      intro hnot x hx
      exact hfirst hnot x (mem_cons_of_mem _ hx)
    have hparts' : ∀ x ∈ after, x.final = false →
        ((splitChunk x.elements splitInto).length = 1 ∧ someNeeded) ∨
          ∀ part ∈ splitChunk x.elements splitInto, part.length ≤ bound := by
      intro x hx
      exact hparts x (mem_cons_of_mem _ hx)
    rw [splitLoop]
    split
    · rename_i hfinal
      have hsome : someNeeded := by
        by_contra hnot
        rw [hfirst (by simpa using hnot) chunk mem_cons_self] at hfinal
        cases hfinal
      subst hsome
      refine ih hfirst' hparts' (h.pass rfl hfinal ?_)
      exact h.single chunk (mem_append_right _ mem_cons_self) hfinal
    · rename_i hnot
      dsimp only
      split
      · rename_i hone
        simp only [Bool.and_eq_true, decide_eq_true_eq] at hone
        obtain ⟨hone, rfl⟩ := hone
        rw [hinto rfl] at hone
        exact ih hfirst' hparts' (h.pass rfl rfl (length_of_single hone))
      · rename_i hmany
        have hbound : ∀ part ∈ splitChunk chunk.elements splitInto,
            0 < part.length ∧ part.length ≤ bound := by
          intro part hpart
          refine ⟨pos_of_mem_splitChunk hpart, ?_⟩
          rcases hparts chunk mem_cons_self (by simpa using hnot) with ⟨hone, hsome⟩ | hle
          · simp [hone, hsome] at hmany
          · exact hle part hpart
        have hopen : Inv cfg slice bound someNeeded new
            (splitChunk chunk.elements splitInto).flatten after calls := by
          rw [flatten_splitChunk]
          exact h.open_chunk
        have htested : Returns cfg slice bound someNeeded after (cfg.testParts someNeeded after
            (splitChunk chunk.elements splitInto) false new calls) := by
          refine testParts_spec hbound hopen ?_
          intro hsome _ p hp
          simpa [mergeChunks_eq] using (h.ahead hsome p hp).first
        split
        · rename_i htest
          rw [htest] at htested
          exact htested
        · rename_i htest
          rw [htest] at htested
          exact ih hfirst' hparts' htested

theorem Inv.restart {bound' : ℕ} (h : Inv cfg slice bound someNeeded chunks [] [] calls) :
    Inv cfg slice bound' true [] [] chunks calls where
  sub := by simpa [mergeChunks_eq] using h.sub
  last := by simpa [mergeChunks_eq] using h.last
  logged := h.logged
  short := by simp
  single := by simpa using h.single
  kept := by
    intro p _
    exact Needed.nil p _ _
  ahead := by
    intro _ p hp
    simpa using h.kept p hp

theorem eraseIdx_content (h : ∀ x ∈ chunks, x.elements.length = 1) {i : ℕ}
    (hi : i < (content chunks).length) : ∃ pre x post, chunks = pre ++ x :: post ∧
    (content chunks).eraseIdx i = content pre ++ content post := by
  induction chunks generalizing i with
  | nil => simp at hi
  | cons x chunks ih =>
    obtain ⟨a, ha⟩ := length_eq_one_iff.mp (h x mem_cons_self)
    cases i with
    | zero => exact ⟨[], x, chunks, rfl, by simp [ha]⟩
    | succ i =>
      rw [content_cons, ha, length_append, length_singleton] at hi
      obtain ⟨pre, y, post, rfl, herase⟩ :=
        ih (fun y hy => h y (mem_cons_of_mem _ hy))
          (Nat.lt_of_add_lt_add_left (by omega : 1 + i < 1 + _))
      exact ⟨x :: pre, y, post, rfl, by simpa [ha] using herase⟩

structure Settled (cfg : Config T ε) (slice out : List T) (err : Option (SliceError ε))
    (calls : List (PredCall T ε)) : Prop where
  sub : err = none → out.Sublist slice
  last : err = none → out = (lastAccepted calls).getD slice
  logged : cfg.Logged calls
  minimal : cfg.maxChunks ≤ 0 → ∀ p, cfg.Decides p →
    err = none ∧ ∀ i < out.length, p (out.eraseIdx i) = false

theorem Settled.of_error (hlogged : cfg.Logged calls) (hnot : ∀ p, ¬ cfg.Decides p) :
    Settled cfg slice [] (some (.pred e)) calls where
  sub := nofun
  last := nofun
  logged := hlogged
  minimal := by
    intro _ p hp
    exact absurd hp (hnot p)

theorem Settled.of_done (h : Inv cfg slice bound someNeeded chunks [] [] calls)
    (hdone : cfg.done chunks calls) : Settled cfg slice (mergeChunks chunks [] []) none calls where
  sub := by
    intro _
    exact h.sub
  last := by
    intro _
    exact h.last
  logged := h.logged
  minimal := by
    intro _ p hp
    refine ⟨rfl, ?_⟩
    intro i hi
    have hlim : cfg.limited calls = false := by
      simp [limited, not_lt.mpr hp.steps]
    simp only [done, hlim, Bool.false_or, all_eq_true] at hdone
    have hone : ∀ x ∈ chunks, x.elements.length = 1 := by
      intro x hx
      exact h.single x (mem_append_left _ hx) (hdone x hx)
    rw [mergeChunks_eq, content_nil, append_nil, append_nil] at hi ⊢
    obtain ⟨pre, x, post, hchunks, herase⟩ := eraseIdx_content hone hi
    rw [herase]
    simpa using h.kept p hp pre x post hchunks

/-- Each round shortens the chunks that are not final. -/
theorem bisectLoop_spec
    (hfuel : bound < fuel) (h : Inv cfg slice bound someNeeded chunks [] [] calls) :
    ∃ out err calls', cfg.bisectLoop fuel chunks calls = some ((out, err), calls') ∧
      Settled cfg slice out err calls' := by
  induction fuel generalizing bound someNeeded chunks calls with
  | zero => omega
  | succ fuel ih =>
    rw [bisectLoop]
    split
    · rename_i hdone
      exact ⟨_, _, _, rfl, .of_done h hdone⟩
    · rename_i hdone
      split
      · rename_i hchunks
        simp only [Bool.and_eq_true, decide_eq_true_eq] at hchunks
        refine ⟨_, _, _, rfl, ⟨nofun, nofun, h.logged, ?_⟩⟩
        intro hnone
        exact absurd hchunks.1 (not_lt.mpr hnone)
      · have hpos : 0 < bound := by
          simp only [done, Bool.or_eq_true, not_or, all_eq_true, not_forall] at hdone
          obtain ⟨-, x, hx, hfinal⟩ := hdone
          have hshort := h.short x hx (by simpa using hfinal)
          omega
        have hround : Returns cfg slice (bound - 1) true []
            (cfg.splitLoop true 2 chunks [] calls) := by
          refine splitLoop_spec (fun _ => rfl) nofun ?_ h.restart
          intro x hx hfinal
          have hshort := h.short x hx hfinal
          by_cases hlen : x.elements.length = 1
          · exact .inl ⟨single_of_length hlen, rfl⟩
          · refine .inr ?_
            intro part hpart
            have hhalf := length_of_mem_halves hpart
            omega
        split
        · rename_i hsplit
          rw [hsplit] at hround
          exact ⟨_, _, _, rfl, .of_error hround.1 hround.2⟩
        · rename_i hsplit
          rw [hsplit] at hround
          exact ih (by omega) hround

theorem Inv.start (cfg : Config T ε) (slice : List T) :
    Inv cfg slice slice.length false [] [] [⟨slice, false⟩] [] where
  sub := by simp [mergeChunks_eq]
  last := by simp [mergeChunks_eq, lastAccepted]
  logged :=
    { within := by
        intro hpos
        exact le_of_lt hpos
      answers := by simp }
  short := by simp
  single := by simp
  kept := by
    intro p _
    exact Needed.nil p _ _
  ahead := nofun

theorem slice_spec (cfg : Config T ε) (slice : List T) : ∃ out err calls, cfg.slice slice =
    some ((out, err), calls) ∧ Settled cfg slice out err calls := by
  have hround : Returns cfg slice slice.length false []
      (cfg.splitLoop false (cfg.initialSplit slice.length) [⟨slice, false⟩] [] []) := by
    refine splitLoop_spec nofun ?_ ?_ (.start cfg slice)
    · intro _ x hx
      rw [mem_singleton.mp hx]
    · intro x hx _
      rw [mem_singleton.mp hx]
      exact .inr fun part hpart => length_le_of_mem_splitChunk hpart
  unfold Config.slice
  split
  · rename_i hsplit
    rw [hsplit] at hround
    exact ⟨_, _, _, rfl, .of_error hround.1 hround.2⟩
  · rename_i hsplit
    rw [hsplit] at hround
    exact bisectLoop_spec (Nat.lt_succ_self _) hround

theorem lastAccepted_passes (h : cfg.Logged calls) (hp : cfg.Decides p)
    {candidate : List T} (hlast : lastAccepted calls = some candidate) : p candidate := by
  obtain ⟨call, hcall, rfl⟩ := Option.map_eq_some_iff.mp hlast
  have hmem := mem_of_getLast? hcall
  obtain ⟨hmem, haccepted⟩ := mem_filter.mp hmem
  obtain ⟨i, hi⟩ := mem_iff_getElem?.mp hmem
  have hanswer := h.answers i call hi
  rw [hp.pred] at hanswer
  rw [accepted, hanswer] at haccepted
  by_contra hnot
  simp [hnot] at haccepted

/-- The result is the input or the last candidate that was accepted, and for an upward closed
predicate it is minimal: no element can be removed. -/
theorem slice_minimizes (cfg : Config T ε) (input : List T) : ∃ out err calls, cfg.slice input =
    some ((out, err), calls) ∧
    (∀ i call, calls[i]? = some call → call.answer = cfg.pred i call.candidate) ∧
    (err = none → out.Sublist input ∧ out = (lastAccepted calls).getD input) ∧
    (0 < cfg.maxSteps → (calls.length : ℤ) ≤ cfg.maxSteps) ∧ ∀ p : List T →
    Bool, (∀ n l, cfg.pred n l = .ok (p l)) → (∀ l l' : List T, l.Sublist l' → p l → p l') →
    p input → cfg.maxSteps ≤ 0 → cfg.maxChunks ≤ 0 → err = none ∧ p out ∧
    ∀ i < out.length, p (out.eraseIdx i) = false := by
  obtain ⟨out, err, calls, hslice, h⟩ := slice_spec cfg input
  refine ⟨out, err, calls, hslice, h.logged.answers, fun hnone => ⟨h.sub hnone, h.last hnone⟩,
    h.logged.within, ?_⟩
  intro p hpred hupward hinput hsteps hchunks
  have hp : cfg.Decides p := ⟨hpred, hsteps, hupward⟩
  obtain ⟨hnone, hminimal⟩ := h.minimal hchunks p hp
  refine ⟨hnone, ?_, hminimal⟩
  have hlast := h.last hnone
  cases haccepted : lastAccepted calls with
  | none =>
    rw [hlast, haccepted]
    exact hinput
  | some candidate =>
    rw [hlast, haccepted]
    exact lastAccepted_passes h.logged hp haccepted

end Brf.Minimize
