import Brf.Verification.Mgr.Steps

/-! # The corpus covers the corpus signal

Items are merged, replaced and minimized away, but an element that some item has with a
priority is found with no lower priority ever after. -/

namespace Brf.Mgr

open Brf.Lib Brf.Db List Option Signal Manager AList

variable {target : Target} {cfg : Config}

/-- An item has the element with at least the priority. -/
def Covers (corpus : Dict Key CorpusItem) (e : Elem) (p : Prio) : Prop :=
  ∃ key item s q, corpus.lookup key = some item ∧ deserialize item.signal = some s ∧
    s.lookup e = some q ∧ p ≤ q

def Keeps (corpus corpus' : Dict Key CorpusItem) : Prop :=
  ∀ e p, Covers corpus e p → Covers corpus' e p

/-- A program that is not broken, whichever calls are enabled. -/
def Readable (target : Target) (data : Bytes) : Prop :=
  ∀ enabled, checkProgram target enabled data ≠ .bad

variable {enabled : List Name}

theorem readable_of_enabled {data : Bytes}
    (h : checkProgram target enabled data = .enabled) : Readable target data := by
  intro enabled'
  rw [checkProgram] at h ⊢
  split at h
  · simp at h
  · grind

/-- Items are stored under the hashes of their programs, in memory and in the database. -/
structure Manager.Sound (target : Target) (mgr : Manager) : Prop where
  keyed : ∀ key item, mgr.corpus.lookup key = some item → key = target.hash item.prog
  saved : ∀ key item, mgr.corpus.lookup key = some item →
    ∃ rec, mgr.corpusDB.records.lookup key = some rec ∧ rec.val = item.prog
  readable : ∀ key item, mgr.corpus.lookup key = some item → Readable target item.prog

variable {s : Signal} {item : CorpusItem} {key : Key}

section

variable {mgr mgr' : Manager} {o : MinimizeOrders}

theorem mem_contexts {l : List (Key × CorpusItem)} {inputs : List (Signal × CorpusItem)}
    (h : contexts l = some inputs) :
    (s, item) ∈ inputs ↔ (∃ key, (key, item) ∈ l) ∧ deserialize item.signal = some s := by
  induction l generalizing inputs with
  | nil =>
    cases h
    simp
  | cons x l ih =>
    obtain ⟨s0, hs0, h⟩ := bind_eq_some_iff.mp h
    obtain ⟨rest, hrest, h⟩ := bind_eq_some_iff.mp h
    cases h
    grind

theorem minimizeInputs_spec (hkeyed : ∀ key item, mgr.corpus.lookup key = some item →
      key = target.hash item.prog) (h : mgr.minimizeInputs target cfg o = some mgr') :
    (∀ key item, mgr'.corpus.lookup key = some item → mgr.corpus.lookup key = some item) ∧
      Keeps mgr.corpus mgr'.corpus ∧ mgr'.corpusDB = mgr.corpusDB := by
  obtain ⟨inputs, hinputs, h⟩ := bind_eq_some_iff.mp h
  cases h
  have hmem : ∀ s item, (s, item) ∈ inputs ↔ mgr.corpus.lookup (target.hash item.prog) = some item ∧
        deserialize item.signal = some s := by
    intro s item
    rw [mem_contexts hinputs]
    simp only [Shuffle.mem_run, Dict.mem_toPairs]
    constructor
    · rintro ⟨⟨key, hkey⟩, hs⟩
      exact ⟨hkeyed key item hkey ▸ hkey, hs⟩
    · rintro ⟨hkey, hs⟩
      exact ⟨⟨_, hkey⟩, hs⟩
  have hkept : ∀ item ∈ minimize inputs o.indices,
      mgr.corpus.lookup (target.hash item.prog) = some item := by
    intro item hitem
    obtain ⟨s, hs⟩ := mem_of_mem_minimize hitem
    exact ((hmem s item).mp hs).1
  have hinj : ∀ u ∈ minimize inputs o.indices, ∀ v ∈ minimize inputs o.indices,
      target.hash u.prog = target.hash v.prog → u = v := by
    intro u hu v hv heq
    have := hkept u hu
    rw [heq, hkept v hv] at this
    exact (some.inj this).symm
  refine ⟨fun key item hitem => ?_, fun e p hcov => ?_, rfl⟩
  · obtain ⟨hin, rfl⟩ := Dict.mem_of_lookup_indexBy hitem
    exact hkept item hin
  · obtain ⟨key, item, s, q, hitem, hs, hq, hpq⟩ := hcov
    have hin : (s, item) ∈ inputs := (hmem s item).mpr ⟨hkeyed key item hitem ▸ hitem, hs⟩
    obtain ⟨s', item', q', hin', hkeep, hq', hqq'⟩ := exists_mem_minimize hin o.indices hq
    exact ⟨_, item', s', q', Dict.lookup_indexBy hinj hkeep, ((hmem s' item').mp hin').2, hq',
      hpq.trans hqq'⟩

theorem lookup_minimizeRecords (h : mgr.corpus.lookup key = some item) :
    (mgr.minimizeRecords o).corpusDB.records.lookup key = mgr.corpusDB.records.lookup key := by
  have hfold : ∀ (l : List (Key × Record UInt64)) (records : Records UInt64),
      (l.foldl (fun records x =>
        if (mgr.corpus.lookup x.1).isNone && x.1 ∉ mgr.disabledHashes then records.erase x.1
        else records) records).lookup key = records.lookup key := by
    intro l
    induction l with
    | nil => exact fun _ => rfl
    | cons x l ih =>
      intro records
      rw [foldl_cons, ih]
      split
      · rename_i hgone
        have hne : key ≠ x.1 := by
          rintro rfl
          simp [h] at hgone
        exact lookup_erase_ne hne
      · rfl
  exact hfold _ _

theorem minimizeCorpus_spec (hs : mgr.Sound target)
    (h : mgr.minimizeCorpus target cfg o = some mgr') :
    mgr'.Sound target ∧ Keeps mgr.corpus mgr'.corpus := by
  rw [minimizeCorpus] at h
  split at h
  · cases h
    exact ⟨hs, fun _ _ h => h⟩
  · obtain ⟨mgr1, hmin, h⟩ := bind_eq_some_iff.mp h
    obtain ⟨hsub, hkeeps, hdb⟩ := minimizeInputs_spec hs.keyed hmin
    have hs1 : mgr1.Sound target := by
      refine ⟨fun key item hi => hs.keyed key item (hsub key item hi), fun key item hi => ?_,
        fun key item hi => hs.readable key item (hsub key item hi)⟩
      rw [hdb]
      exact hs.saved key item (hsub key item hi)
    split at h
    · cases h
      exact ⟨hs1, hkeeps⟩
    · cases h
      refine ⟨⟨hs1.keyed, fun key item hi => ?_, hs1.readable⟩, hkeeps⟩
      have hi1 : mgr1.corpus.lookup key = some item := hi
      rw [lookup_minimizeRecords hi1]
      exact hs1.saved key item hi1

end

variable {corpus : Dict Key CorpusItem} {sig : Key}

section

variable {mgr mgr' : Manager} {o : NewInputOrders} {inp : Input} {sign sign' : Signal}
  {taken : Bool}
  {e : Elem} {p : Prio}

theorem le_lookup_merge {s1 : Signal} (h : s.lookup e = some p ∨ s1.lookup e = some p) :
    ∃ q, (s.merge s1).lookup e = some q ∧ p ≤ q := by
  have hle : (p : WithBot Prio) ≤ (s.merge s1).rank e := by
    rw [rank_merge]
    rcases h with h | h
    · rw [rank_of_lookup h]
      exact le_max_right _ _
    · rw [rank_of_lookup h]
      exact le_max_left _ _
  exact Best.coe_le_rank.mp hle

theorem keeps_insert (hs : deserialize item.signal = some s)
    (hold : ∀ old s0 e q, corpus.lookup sig = some old → deserialize old.signal = some s0 →
      s0.lookup e = some q → ∃ q', s.lookup e = some q' ∧ q ≤ q') :
    Keeps corpus (corpus.insert sig item) := by
  rintro e p ⟨key, item0, s0, q, hitem, hs0, hq, hpq⟩
  by_cases hkey : key = sig
  · subst hkey
    obtain ⟨q', hq', hle⟩ := hold item0 s0 e q hitem hs0 hq
    exact ⟨key, item, s, q', lookup_insert _, hs, hq', hpq.trans hle⟩
  · exact ⟨key, item0, s0, q, by rw [lookup_insert_ne hkey, hitem], hs0, hq, hpq⟩

theorem covers_insert (hs : deserialize item.signal = some s) (hp : s.lookup e = some p) :
    Covers (corpus.insert sig item) e p :=
  ⟨sig, item, s, p, lookup_insert _, hs, hp, le_rfl⟩

theorem sound_insert (hs : mgr.Sound target) {records : Records UInt64}
    (hsig : sig = target.hash item.prog) (hread : Readable target item.prog)
    (hsaved : ∃ rec, records.lookup sig = some rec ∧ rec.val = item.prog)
    (hrest : ∀ key, key ≠ sig → records.lookup key = mgr.corpusDB.records.lookup key) :
    ({ mgr with
      corpus := mgr.corpus.insert sig item
      corpusDB := { mgr.corpusDB with records := records } } : Manager).Sound target := by
  have hcases : ∀ key item', (mgr.corpus.insert sig item).lookup key = some item' →
      key = sig ∧ item' = item ∨ key ≠ sig ∧ mgr.corpus.lookup key = some item' := by
    intro key item' h
    rw [Dict.lookup_insert_ite] at h
    split at h
    · exact .inl ⟨‹_›, (some.inj h).symm⟩
    · exact .inr ⟨‹_›, h⟩
  refine ⟨fun key item' h => ?_, fun key item' h => ?_, fun key item' h => ?_⟩
  · rcases hcases key item' h with ⟨rfl, rfl⟩ | ⟨_, h⟩
    · exact hsig
    · exact hs.keyed key item' h
  · rcases hcases key item' h with ⟨rfl, rfl⟩ | ⟨hne, h⟩
    · exact hsaved
    · rw [hrest key hne]
      exact hs.saved key item' h
  · rcases hcases key item' h with ⟨rfl, rfl⟩ | ⟨_, h⟩
    · exact hread
    · exact hs.readable key item' h

theorem newInput_spec (hs : mgr.Sound target) (hread : Readable target inp.prog)
    (hsign : deserialize inp.signal = some sign)
    (h : mgr.newInput target o inp sign = some (mgr', sign', taken)) :
    mgr'.Sound target ∧ Keeps mgr.corpus mgr'.corpus ∧
      (taken → ∀ e p, sign'.lookup e = some p → Covers mgr'.corpus e p) := by
  rw [newInput] at h
  split at h
  · cases h
    exact ⟨hs, fun _ _ h => h, by simp⟩
  dsimp only at h
  split at h
  · -- the program is known: its item gets the merged signal
    rename_i old hold
    obtain ⟨⟨item, merged⟩, hupd, h⟩ := bind_eq_some_iff.mp h
    cases h
    obtain ⟨s0, hs0, hupd⟩ := bind_eq_some_iff.mp hupd
    cases hupd
    obtain ⟨s', hs', hlook⟩ := deserialize_serialize (sign.merge s0) o.signal
    refine ⟨?_, ?_, fun _ e p hp => ?_⟩
    · refine sound_insert hs (hs.keyed _ old hold) (hs.readable _ old hold) (hs.saved _ old hold) ?_
      exact fun _ _ => rfl
    · refine keeps_insert hs' ?_
      intro old' s₁ e q hold' hs1 hq
      obtain rfl : old = old' := some.inj (hold.symm.trans hold')
      obtain rfl : s0 = s₁ := some.inj (hs0.symm.trans hs1)
      rw [hlook]
      exact le_lookup_merge (.inr hq)
    · exact covers_insert hs' (by rw [hlook, hp])
  · -- the program is new
    rename_i hnone
    cases h
    refine ⟨?_, ?_, fun _ e p hp => covers_insert hsign hp⟩
    · refine sound_insert hs rfl hread ?_ ?_
      · rw [Records.save]
        split
        · exact ⟨_, ‹_›, rfl⟩
        · exact ⟨_, lookup_insert _, rfl⟩
      · intro key hne
        rw [Records.save]
        split
        · rfl
        · exact lookup_insert_ne hne
    · refine keeps_insert hsign ?_
      intro old s0 e q hold
      simp [hnone] at hold

end

section

variable {mgr mgr' : Manager}

/-- A program that is loaded leaves the corpus alone, and is refused only when it is broken. -/
theorem loadProg_frame (target : Target) (cfg : Config) (mgr : Manager) (data : Bytes)
    (minimized smashed : Bool) : (mgr.loadProg target cfg data minimized smashed).1.corpus =
    mgr.corpus ∧ (mgr.loadProg target cfg data minimized smashed).1.corpusDB = mgr.corpusDB ∧
    ((mgr.loadProg target cfg data minimized smashed).2 = false → ¬ Readable target data) := by
  rw [loadProg]
  dsimp only
  split
  · rename_i hbad
    exact ⟨rfl, rfl, fun _ hread => hread _ hbad⟩
  · split
    · exact ⟨rfl, rfl, by simp⟩
    · split
      · exact ⟨rfl, rfl, by simp⟩
      · exact ⟨rfl, rfl, by simp⟩
  · exact ⟨rfl, rfl, by simp⟩

theorem Manager.Sound.of_eq (hs : mgr.Sound target) (hc : mgr'.corpus = mgr.corpus)
    (hdb : mgr'.corpusDB.records = mgr.corpusDB.records) : mgr'.Sound target := by
  constructor
  · rw [hc]
    exact hs.keyed
  · rw [hc, hdb]
    exact hs.saved
  · rw [hc]
    exact hs.readable

theorem loadRecord_spec (cfg : Config) (hs : mgr.Sound target) (minimized smashed : Bool)
    {rec : Key × Record UInt64}
    (hrec : ∀ item, mgr.corpus.lookup rec.1 = some item → rec.2.val = item.prog) :
    (mgr.loadRecord target cfg minimized smashed rec).Sound target ∧
      (mgr.loadRecord target cfg minimized smashed rec).corpus = mgr.corpus := by
  obtain ⟨hc, hdb, hbad⟩ := loadProg_frame target cfg mgr rec.2.val minimized smashed
  rw [loadRecord]
  dsimp only
  split
  · exact ⟨hs.of_eq hc (by rw [hdb]), hc⟩
  · rename_i hok
    have hgone : ¬ Readable target rec.2.val := hbad (by simpa using hok)
    refine ⟨⟨?_, fun key item hi => ?_, ?_⟩, hc⟩
    · rw [hc]
      exact hs.keyed
    · rw [hc] at hi
      have hne : key ≠ rec.1 := by
        rintro rfl
        exact hgone (hrec item hi ▸ hs.readable _ item hi)
      rw [hdb, lookup_erase_ne hne]
      exact hs.saved key item hi
    · rw [hc]
      exact hs.readable

theorem loadRecords_spec (cfg : Config) (hs : mgr.Sound target) (o : LoadOrders) :
    (mgr.loadRecords target cfg o).Sound target ∧
      (mgr.loadRecords target cfg o).corpus = mgr.corpus := by
  have hfold : ∀ (l : List (Key × Record UInt64)) (m : Manager) (minimized smashed : Bool),
      m.Sound target → m.corpus = mgr.corpus →
      (∀ x ∈ l, ∀ item, mgr.corpus.lookup x.1 = some item → x.2.val = item.prog) →
      (l.foldl (loadRecord target cfg minimized smashed) m).Sound target ∧
        (l.foldl (loadRecord target cfg minimized smashed) m).corpus = mgr.corpus := by
    intro l
    induction l with
    | nil => exact fun m _ _ hm hc _ => ⟨hm, hc⟩
    | cons x l ih =>
      intro m minimized smashed hm hc hl
      have hx := loadRecord_spec cfg hm minimized smashed (by rw [hc]; exact hl x mem_cons_self)
      exact ih _ _ _ hx.1 (hx.2.trans hc) (fun y hy => hl y (mem_cons_of_mem x hy))
  have hrecs : ∀ x ∈ o.records.run mgr.corpusDB.records.toPairs, ∀ item,
      mgr.corpus.lookup x.1 = some item → x.2.val = item.prog := by
    intro x hx item hi
    obtain ⟨rec, hrec, hval⟩ := hs.saved x.1 item hi
    rw [Shuffle.mem_run, Dict.mem_toPairs, hrec] at hx
    rw [← some.inj hx, hval]
  obtain ⟨hs', hc⟩ := hfold _ mgr _ _ hs rfl hrecs
  exact ⟨hs'.of_eq rfl rfl, hc⟩

theorem loadSeeds_spec (cfg : Config) (hs : mgr.Sound target) :
    (mgr.loadSeeds target cfg).Sound target ∧ (mgr.loadSeeds target cfg).corpus = mgr.corpus := by
  have hfold : ∀ (l : List Bytes) (m : Manager), m.Sound target → m.corpus = mgr.corpus →
      (l.foldl (fun m seed => (m.loadProg target cfg seed true false).1) m).Sound target ∧
        (l.foldl (fun m seed => (m.loadProg target cfg seed true false).1) m).corpus =
          mgr.corpus := by
    intro l
    induction l with
    | nil => exact fun m hm hc => ⟨hm, hc⟩
    | cons x l ih =>
      intro m hm hc
      obtain ⟨hc', hdb, _⟩ := loadProg_frame target cfg m x true false
      exact ih _ (hm.of_eq hc' (by rw [hdb])) (hc'.trans hc)
  obtain ⟨hs', hc⟩ := hfold mgr.seeds mgr hs rfl
  exact ⟨hs'.of_eq rfl rfl, hc⟩

theorem machineChecked_spec (hs : mgr.Sound target) {o : LoadOrders}
    (h : mgr.machineChecked target cfg o enabled = some mgr') :
    mgr'.Sound target ∧ mgr'.corpus = mgr.corpus := by
  have hs0 : ({ mgr with checkResult := some enabled } : Manager).Sound target := hs.of_eq rfl rfl
  obtain ⟨hs1, hc1⟩ := loadRecords_spec cfg hs0 o
  obtain ⟨hs2, hc2⟩ := loadSeeds_spec cfg hs1
  rw [machineChecked, loadCorpus] at h
  split at h
  · simp at h
  · cases h
    exact ⟨hs2.of_eq rfl rfl, hc2.trans hc1⟩

end

variable {st st' : Server} {note : Note}

/-- What a run keeps: the manager is sound, and its corpus covers the corpus signal and the
signal of an input that was stored and is not announced yet. -/
structure Server.Covered (target : Target) (st : Server) : Prop where
  sound : st.mgr.Sound target
  signal : ∀ e p, st.corpusSignal.lookup e = some p → Covers st.mgr.corpus e p
  readable : ∀ q, st.pending = some q → Readable target q.input.prog
  fresh : ∀ q, st.pending = some q → q.stored = false →
    deserialize q.input.signal = some q.inputSignal
  stored : ∀ q, st.pending = some q → q.stored →
    ∀ e p, q.inputSignal.lookup e = some p → Covers st.mgr.corpus e p

theorem Server.Covered.of_keeps (h : st.Covered target) (hs : st'.mgr.Sound target)
    (hk : Keeps st.mgr.corpus st'.mgr.corpus) (hsig : st'.corpusSignal = st.corpusSignal)
    (hpend : st'.pending = st.pending) : st'.Covered target := by
  refine ⟨hs, fun e p hp => ?_, fun q hq => ?_, fun q hq => ?_, fun q hq hst e p hp => ?_⟩
  · rw [hsig] at hp
    exact hk e p (h.signal e p hp)
  · rw [hpend] at hq
    exact h.readable q hq
  · rw [hpend] at hq
    exact h.fresh q hq
  · rw [hpend] at hq
    exact hk e p (h.stored q hq hst e p hp)

theorem canonicalized_prog {n : Name} {inp inp' : Input}
    (h : st.canonicalized n inp = some inp') : inp'.prog = inp.prog := by
  rw [Server.canonicalized] at h
  split at h
  · cases h
    rfl
  · obtain ⟨⟨cover, signal⟩, _, h⟩ := bind_eq_some_iff.mp h
    cases h
    rfl

/-- The cover of an item has no part in what the corpus covers. -/
theorem lookup_withCover {corpus' : Dict Key CorpusItem} {raw : List UInt32} :
    ((withCover corpus corpus' sig raw).lookup key = some item →
      ∃ item', corpus'.lookup key = some item' ∧ item'.prog = item.prog ∧
        item'.signal = item.signal) ∧
    (corpus'.lookup key = some item → ∃ item', (withCover corpus corpus' sig raw).lookup key =
      some item' ∧ item'.prog = item.prog ∧ item'.signal = item.signal) := by
  rw [withCover]
  split
  · rename_i item0 _ hitem0
    rw [Dict.lookup_insert_ite]
    by_cases hkey : key = sig
    · subst hkey
      rw [if_pos rfl, hitem0]
      constructor
      · rintro ⟨⟩
        exact ⟨item0, rfl, rfl, rfl⟩
      · rintro ⟨⟩
        exact ⟨_, rfl, rfl, rfl⟩
    · rw [if_neg hkey]
      exact ⟨fun h => ⟨item, h, rfl, rfl⟩, fun h => ⟨item, h, rfl, rfl⟩⟩
  · exact ⟨fun h => ⟨item, h, rfl, rfl⟩, fun h => ⟨item, h, rfl, rfl⟩⟩

theorem keeps_withCover (corpus corpus' : Dict Key CorpusItem) (sig : Key) (raw : List UInt32) :
    Keeps corpus' (withCover corpus corpus' sig raw) := by
  rintro e p ⟨key, item, s, q, hitem, hs, hq, hpq⟩
  obtain ⟨item', hitem', _, hsig⟩ := lookup_withCover.2 hitem
  exact ⟨key, item', s, q, hitem', hsig ▸ hs, hq, hpq⟩

theorem sound_withCover {mgr : Manager} (hs : mgr.Sound target) (corpus : Dict Key CorpusItem)
    (sig : Key) (raw : List UInt32) :
    ({ mgr with corpus := withCover corpus mgr.corpus sig raw } : Manager).Sound target := by
  constructor
  · intro key item hitem
    obtain ⟨item', hitem', hprog, _⟩ := lookup_withCover.1 hitem
    rw [← hprog]
    exact hs.keyed key item' hitem'
  · intro key item hitem
    obtain ⟨item', hitem', hprog, _⟩ := lookup_withCover.1 hitem
    rw [← hprog]
    exact hs.saved key item' hitem'
  · intro key item hitem
    obtain ⟨item', hitem', hprog, _⟩ := lookup_withCover.1 hitem
    rw [← hprog]
    exact hs.readable key item' hitem'

theorem Server.Covered.of_mgr (h : st.Covered target) (hc : st'.mgr.corpus = st.mgr.corpus)
    (hdb : st'.mgr.corpusDB = st.mgr.corpusDB) (hsig : st'.corpusSignal = st.corpusSignal)
    (hpend : st'.pending = st.pending) : st'.Covered target :=
  h.of_keeps (h.sound.of_eq hc (by rw [hdb])) (by rw [hc]; exact fun _ _ h => h) hsig hpend

theorem Server.Covered.step {e : Event} (h : st.Covered target)
    (hstep : st.step target cfg e = some (st', note)) : st'.Covered target := by
  cases effect_step hstep with
  | minimized hmin | connected canonical hmin hcorpus =>
    obtain ⟨hs, hk⟩ := minimizeCorpus_spec h.sound hmin
    exact h.of_keeps hs hk rfl rfl
  | phase e hcorpus hdb => exact h.of_mgr hcorpus hdb rfl rfl
  | held genuine hcheck hcan hs =>
    refine ⟨h.sound, h.signal, ?_, ?_, ?_⟩
    · rintro q ⟨⟩
      rw [canonicalized_prog hcan]
      exact readable_of_enabled hcheck
    · rintro q ⟨⟩ _
      exact hs
    · rintro q ⟨⟩ hq
      simp at hq
  | refused o => exact ⟨h.sound, h.signal, by simp, by simp, by simp⟩
  | stored hpend hraw hnew =>
    have hread := h.readable _ hpend
    obtain ⟨hs, hk, hcov⟩ := newInput_spec h.sound hread (h.fresh _ hpend rfl) hnew
    have hkeep := keeps_withCover st.mgr.corpus
    refine ⟨sound_withCover hs _ _ _, fun e p hp => hkeep _ _ _ e p (hk e p (h.signal e p hp)),
      ?_, ?_, ?_⟩
    · rintro q ⟨⟩
      exact hread
    · rintro q ⟨⟩ hq
      simp at hq
    · rintro q ⟨⟩ _ e p hp
      exact hkeep _ _ _ e p (hcov rfl e p hp)
  | accepted hpend =>
    refine ⟨h.sound, fun e p hp => ?_, by simp, by simp, by simp⟩
    rcases (Best.lookup_offerAll hp).imp_right Dict.mem_toPairs.mp with hp | hp
    · exact h.signal e p hp
    · exact h.stored _ hpend rfl e p hp
  | rediscovered n s => exact ⟨h.sound, h.signal, by simp, by simp, by simp⟩
  | polled hpoll =>
    obtain ⟨_, hpend, hsig, _, hmgr, _⟩ := poll_frame hpoll
    rcases hmgr with hmgr | hmgr
    · exact h.of_mgr (by rw [hmgr]) (by rw [hmgr]) hsig hpend
    · exact h.of_mgr (by rw [hmgr]; rfl) (by rw [hmgr]; rfl) hsig hpend
  | checked hmgr =>
    obtain ⟨hs, hc⟩ := machineChecked_spec h.sound hmgr
    exact h.of_keeps hs (by rw [hc]; exact fun _ _ h => h) rfl rfl
  | _ => exact h.of_mgr rfl rfl rfl rfl

/-- In every run, every element of the corpus signal is in the signal of some item with at least
its priority, and every item is in the database with its program. -/
theorem corpus_covers (corpusDB : CorpusDB) (seeds : List Bytes) {events : List Event}
    {log : List Note} (hrun : (Server.start corpusDB seeds).run target cfg events = some (st, log)) :
    (∀ e p, st.corpusSignal.lookup e = some p →
      ∃ key item s q, st.mgr.corpus.lookup key = some item ∧
        deserialize item.signal = some s ∧ s.lookup e = some q ∧ p ≤ q) ∧
    ∀ key item, st.mgr.corpus.lookup key = some item →
      ∃ rec, st.mgr.corpusDB.records.lookup key = some rec ∧ rec.val = item.prog := by
  have hcov : st.Covered target := by
    refine run_induction (P := fun st _ => st.Covered target)
      (fun _ _ _ _ _ h hstep => h.step hstep) ?_ hrun
    refine ⟨⟨?_, ?_, ?_⟩, ?_, ?_, ?_, ?_⟩ <;> simp [Server.start, start]
  exact ⟨hcov.signal, hcov.sound.saved⟩

/-- Of two items one is minimized away; the other covers both. -/
theorem corpus_covers_minimized :
    ∃ st log, sampleServer.run sampleTarget sampleConfig
        (sampleCheck :: sampleConnect [1] ++ sampleNewInput [1] (sampleInput 5 [7]) ++
          sampleNewInput [1] (sampleInput 6 [7, 8]) ++ [.getMinimizedCorpus sampleMinimize]) =
        some (st, log) ∧
      st.mgr.corpus.keys = [[6]] ∧ st.corpusSignal.lookup 7 = some 1 ∧
      ∃ key item s q, st.mgr.corpus.lookup key = some item ∧
        deserialize item.signal = some s ∧ s.lookup 7 = some q ∧ 1 ≤ q := by
  have h : ((sampleServer.run sampleTarget sampleConfig
      (sampleCheck :: sampleConnect [1] ++ sampleNewInput [1] (sampleInput 5 [7]) ++
        sampleNewInput [1] (sampleInput 6 [7, 8]) ++ [.getMinimizedCorpus sampleMinimize])).map
        fun x => (x.1.mgr.corpus.keys, x.1.corpusSignal.lookup 7)) = some ([[6]], some 1) := by
    decide +kernel
  obtain ⟨⟨st, log⟩, hrun, heq⟩ := map_eq_some_iff.mp h
  obtain ⟨hkeys, hsig⟩ := Prod.mk.inj heq
  exact ⟨st, log, hrun, hkeys, hsig, (corpus_covers _ _ hrun).1 7 1 hsig⟩

end Brf.Mgr
