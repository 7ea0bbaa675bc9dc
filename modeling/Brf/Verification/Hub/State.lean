import Brf.Model.Hub

/-! # What the operations of the hub do to its maps

Every operation is described by the answers of the maps before and after it. -/

namespace Brf.Hub

open Brf.Lib Brf.Db List State

theorem lookup_save {σ : Type} [DecidableEq σ] (m : Records σ) (k a : Key) (v : Bytes) (s : σ) :
    (m.save k v s).lookup a = if a = k then some ⟨v, s⟩ else m.lookup a := by
  unfold Records.save
  split
  · rename_i h
    split
    · subst a
      exact h
    · rfl
  · exact Dict.lookup_insert_ite m k a _

theorem mem_save {σ : Type} [DecidableEq σ] (m : Records σ) (k a : Key) (v : Bytes) (s : σ) :
    a ∈ m.save k v s ↔ a = k ∨ a ∈ m := by
  rw [← AList.lookup_isSome, lookup_save, ← AList.lookup_isSome]
  split <;> simp [*]

variable (st : State) (name : Name)

theorem lookup_modifyManager (n : Name) (f : Manager → Manager) :
    (st.modifyManager name f).managers.lookup n =
      if n = name then (st.managers.lookup name).map f else st.managers.lookup n := by
  unfold modifyManager
  split
  · rename_i h
    split
    · subst n
      rw [h]
      rfl
    · rfl
  · rename_i mgr h
    simp only [Dict.lookup_insert_ite, h, Option.map_some]

variable (f : Manager → Manager)

@[simp] theorem modifyManager_corpus : (st.modifyManager name f).corpus = st.corpus := by
  unfold modifyManager
  split <;> rfl

@[simp] theorem modifyManager_corpusSeq : (st.modifyManager name f).corpusSeq = st.corpusSeq := by
  unfold modifyManager
  split <;> rfl

@[simp] theorem modifyManager_repros : (st.modifyManager name f).repros = st.repros := by
  unfold modifyManager
  split <;> rfl

@[simp] theorem modifyManager_reproSeq : (st.modifyManager name f).reproSeq = st.reproSeq := by
  unfold modifyManager
  split <;> rfl

theorem used_iff (k : Key) : st.used k ↔ ∃ n m, st.managers.lookup n = some m ∧ k ∈ m.corpus := by
  simp only [used, any_eq_true, Prod.exists, decide_eq_true_eq, Dict.mem_toPairs]

theorem lookup_foldl_erase {ν : Type} (p : Key → Bool) (l : List (Key × ν)) (m : Dict Key ν)
    {k : Key} (hp : p k) :
    (l.foldl (fun m e => if p e.1 then m else m.erase e.1) m).lookup k = m.lookup k := by
  induction l generalizing m with
  | nil => rfl
  | cons e l ih =>
    rw [foldl_cons, ih]
    split
    · rfl
    · rename_i he
      rw [Dict.lookup_erase_ite, if_neg]
      rintro rfl
      exact he hp

theorem lookup_foldl_erase_of_mem {ν : Type} (p : Key → Bool) (l : List (Key × ν))
    (m : Dict Key ν) {k : Key} (hp : p k = false) (hk : k ∈ l.map Prod.fst ∨ m.lookup k = none) :
    (l.foldl (fun m e => if p e.1 then m else m.erase e.1) m).lookup k = none := by
  induction l generalizing m with
  | nil => simpa using hk
  | cons e l ih =>
    rw [foldl_cons]
    apply ih
    rw [map_cons, mem_cons] at hk
    by_cases hke : k = e.1
    · subst hke
      simp [hp]
    · obtain (hk | hk) | hk := hk
      · exact absurd hk hke
      · exact .inl hk
      · right
        split
        · exact hk
        · rw [Dict.lookup_erase_ite, if_neg hke]
          exact hk

theorem lookup_purgeCorpus (k : Key) :
    st.purgeCorpus.corpus.lookup k = if st.used k then st.corpus.lookup k else none := by
  unfold purgeCorpus
  cases hu : st.used k with
  | true => simpa [hu] using lookup_foldl_erase st.used st.corpus.toPairs st.corpus hu
  | false =>
    have hk : k ∈ st.corpus.toPairs.map Prod.fst ∨ st.corpus.lookup k = none := by
      rw [Dict.map_fst_toPairs, AList.lookup_eq_none]
      exact Classical.em _
    simpa [hu] using lookup_foldl_erase_of_mem st.used _ st.corpus hu hk

/-- The manager and the hub after a program was taken. -/
structure Took (hash : Bytes → Key) (name : Name) (input : Bytes) (st st' : State) : Prop where
  parses : ∃ p, callSet input = .ok p
  corpusSeq_eq : st'.corpusSeq = st.corpusSeq
  repros_eq : st'.repros = st.repros
  reproSeq_eq : st'.reproSeq = st.reproSeq
  managers_eq : ∀ n, st'.managers.lookup n =
    if n = name then
      (st.managers.lookup name).map fun m => { m with corpus := m.corpus.save (hash input) [] 0 }
    else st.managers.lookup n
  corpus_eq : ∀ k, st'.corpus.lookup k =
    if k = hash input ∧ st.corpus.lookup k = none then some ⟨input, st.corpusSeq⟩
    else st.corpus.lookup k

/-- An input changes nothing or is taken. -/
theorem addInput_cases (hash : Bytes → Key) (name : Name) (st : State) (input : Bytes) :
    st.addInput hash name input = st ∨ Took hash name input st (st.addInput hash name input) := by
  unfold addInput
  cases hcalls : callSet input with
  | error err => exact .inl rfl
  | ok p =>
    simp only
    split
    · exact .inl rfl
    right
    split
    · rename_i hnone
      rw [modifyManager_corpus] at hnone
      refine ⟨⟨p, hcalls⟩, modifyManager_corpusSeq .., modifyManager_repros ..,
        modifyManager_reproSeq .., fun n => lookup_modifyManager _ _ n _,
        fun k => ?_⟩
      simp only [modifyManager_corpus, modifyManager_corpusSeq, lookup_save]
      by_cases hk : k = hash input
      · subst hk
        simp [hnone]
      · simp [hk]
    · rename_i hsome
      rw [modifyManager_corpus] at hsome
      refine ⟨⟨p, hcalls⟩, modifyManager_corpusSeq .., modifyManager_repros ..,
        modifyManager_reproSeq .., fun n => lookup_modifyManager _ _ n _,
        fun k => ?_⟩
      rw [modifyManager_corpus, if_neg]
      rintro ⟨rfl, hnone⟩
      exact hsome hnone

/-- What holds after the counter goes up and is kept by taking a program holds after `addInputs`. -/
theorem addInputs_induction (hash : Bytes → Key) (name : Name) {P : State → Prop} {st : State}
    (inputs : List Bytes) (none : P st) (next : P { st with corpusSeq := st.corpusSeq + 1 })
    (took : ∀ st st' input, Took hash name input st st' → 1 ≤ st.corpusSeq → P st → P st') :
    P (st.addInputs hash name inputs) := by
  unfold addInputs
  split
  · exact none
  · suffices h : ∀ (l : List Bytes) (s : State), 1 ≤ s.corpusSeq → P s →
        P (l.foldl (addInput hash name) s) from
      h inputs _ (Nat.le_add_left 1 _) next
    intro l
    induction l with
    | nil => exact fun _ _ hs => hs
    | cons input l ih =>
      intro s hpos hs
      rw [foldl_cons]
      obtain heq | htook := addInput_cases hash name s input
      · rw [heq]
        exact ih s hpos hs
      · exact ih _ (by rw [htook.corpusSeq_eq]; exact hpos) (took s _ input htook hpos hs)

end Brf.Hub
