import Brf.Model.HelperCatalog
import Brf.Model.HelperMaps

/-! # Reuse and creation of maps

A call is given one of the maps of its program, or a new map. Two filters say which maps and which
types of new maps fit, and the first does not ask all that the second asks of a type. -/

namespace Brf.HelperCalls

open List

variable {env : ProgEnv} {pool : MapPool} {helper : BpfHelper} {hint : BpfCallGenHint}

/-- A new map of type `t` could be made for the call, but for the rule that a program has at most
one map of each kind of cgroup storage. -/
def TypeAccepted (env : ProgEnv) (pool : MapPool) (helper : BpfHelper) (hint : BpfCallGenHint)
    (t : MapType) : Prop :=
  pool.storageTaken t ∨ ∃ mt ∈ getHelperCompatMapTypes env pool helper hint, mt.name = t

/-- What is asked of the type of a new map and not of a map that is there: space for the members of
the hints, support of locks and timers, and values that can be written. -/
structure Hosts (env : ProgEnv) (hint : BpfCallGenHint) (mt : BpfMapType) : Prop where
  space : occupiedSize hint.argHints ≤ mt.valSize.getD 1 0
  spinLock : .genSpinlock ∈ hint.argHints →
    mt.name ∈ [.hash, .array, .cgroupStorage, .skStorage, .inodeStorage, .taskStorage]
  timer : .genTimer ∈ hint.argHints →
    mt.name ∈ [.hash, .lruHash, .array] ∧ isTracingProgType env.enum = false
  raw : hint.isRetAccessRaw → mt.name ∉ [.devmap, .devmapHash]

theorem mem_getHelperCompatMaps {i : ℕ} : i ∈ getHelperCompatMaps env pool helper hint ↔
    ∃ m, pool.maps[i]? = some m ∧ isHelperCompatMap env pool helper hint m := by
  simp [getHelperCompatMaps, mem_zipIdx_iff_getElem?]

/-- What both filters ask, of a map and of its type. -/
structure Shared (env : ProgEnv) (pool : MapPool) (helper : BpfHelper) (hint : BpfCallGenHint)
    (t : MapType) : Prop where
  func : isMapFuncCompatible t helper.enum
  locks : .genSpinlock ∈ hint.argHints → env.noSpinLock = false
  structOps : t ≠ .structOps
  sleepable : env.sleepable → isSleepableMapType t
  storage : pool.storageTaken t = false
  sock : sockMapFits helper.ret hint t

theorem Shared.of_map {m : BpfMap} (h : isHelperCompatMap env pool helper hint m) :
    Shared env pool helper hint m.type := by
  simp only [isHelperCompatMap, Bool.and_eq_true, decide_eq_true_eq, Bool.not_eq_true'] at h
  obtain ⟨⟨⟨⟨⟨⟨⟨⟨⟨⟨hfunc, -⟩, hspin⟩, -⟩, -⟩, hno⟩, hops⟩, hsleep⟩, hstorage⟩, hsock⟩, -⟩ := h
  refine ⟨hfunc, fun hlock => ?_, hops, fun hs => ?_, hstorage, hsock⟩
  · -- the map has a lock, so the program may use locks
    have hhas : m.valHas .spinLock := by
      simp only [hlock, decide_true, Bool.true_and, Bool.or_eq_false_iff,
        Bool.not_eq_false'] at hspin
      exact hspin.1
    simpa [hhas] using hno
  · simpa [hs] using hsleep

/-- The table of the helpers that a map type admits already keeps sockets out of updates. -/
theorem not_update_of_sock {t : MapType} {f : HelperEnum} (h : isMapFuncCompatible t f)
    (hsock : t ∈ [.sockmap, .sockhash]) : f ≠ .mapUpdateElem := by
  rintro rfl
  revert h
  simp only [mem_cons, not_mem_nil, or_false] at hsock
  rcases hsock with rfl | rfl <;> decide

theorem isHelperCompatMapType_iff {mt : BpfMapType} (h : Shared env pool helper hint mt.name) :
    isHelperCompatMapType env pool helper hint mt ↔ Hosts env hint mt := by
  simp only [isHelperCompatMapType, Bool.and_eq_true, decide_eq_true_eq, Bool.not_eq_true']
  constructor
  · rintro ⟨⟨⟨⟨⟨⟨⟨⟨⟨-, hspace⟩, hspin⟩, htimer⟩, -⟩, -⟩, -⟩, -⟩, hraw⟩, -⟩
    refine ⟨hspace, fun hs => ?_, fun ht => ?_, fun hr => ?_⟩
    · rw [decide_eq_true hs, Bool.true_and, Bool.or_eq_false_iff] at hspin
      exact not_not.mp (of_decide_eq_false hspin.1)
    · rw [decide_eq_true ht, Bool.true_and, Bool.or_eq_false_iff] at htimer
      exact ⟨not_not.mp (of_decide_eq_false htimer.1), htimer.2⟩
    · rw [hr] at hraw
      exact of_decide_eq_false hraw
  · intro hhosts
    refine ⟨⟨⟨⟨⟨⟨⟨⟨⟨h.func, hhosts.space⟩, ?_⟩, ?_⟩, h.structOps⟩, ?_⟩, h.storage⟩, h.sock⟩, ?_⟩, ?_⟩
    · by_cases hs : .genSpinlock ∈ hint.argHints
      · simp only [hhosts.spinLock hs, h.locks hs, not_true, decide_false, Bool.or_self,
          Bool.and_false]
      · simp only [hs, decide_false, Bool.false_and]
    · by_cases ht : .genTimer ∈ hint.argHints
      · simp only [(hhosts.timer ht).1, (hhosts.timer ht).2, not_true, decide_false,
          Bool.or_self, Bool.and_false]
      · simp only [ht, decide_false, Bool.false_and]
    · cases hs : env.sleepable
      · rfl
      · simp [h.sleepable hs]
    · cases hr : hint.isRetAccessRaw
      · rfl
      · simp only [hhosts.raw hr, decide_false, Bool.and_false]
    · by_cases hsock : mt.name ∈ [.sockmap, .sockhash]
      · simp only [not_update_of_sock h.func hsock, decide_false, Bool.false_and]
      · simp only [hsock, decide_false, Bool.and_false, Bool.false_and]

/-- A map that may be given to a call has a type that a new map could have, exactly when the type
hosts what the hints ask for. -/
theorem map_typeAccepted_iff {i : ℕ} {m : BpfMap}
    (hi : i ∈ getHelperCompatMaps env pool helper hint) (hm : pool.maps[i]? = some m) :
    TypeAccepted env pool helper hint m.type ↔
      ∃ mt ∈ bpfMapTypes, mt.name = m.type ∧ Hosts env hint mt := by
  obtain ⟨m', hm', hfits⟩ := mem_getHelperCompatMaps.mp hi
  obtain rfl := Option.some.inj (hm.symm.trans hm')
  have hshared := Shared.of_map hfits
  simp only [TypeAccepted, hshared.storage, Bool.false_eq_true, false_or, getHelperCompatMapTypes,
    mem_filter, and_assoc]
  refine exists_congr fun mt => and_congr_right fun _ => ?_
  constructor
  · rintro ⟨hok, hname⟩
    exact ⟨hname, (isHelperCompatMapType_iff (hname ▸ hshared)).mp hok⟩
  · rintro ⟨hname, hhosts⟩
    exact ⟨(isHelperCompatMapType_iff (hname ▸ hshared)).mpr hhosts, hname⟩

def lockStruct : StructDef := ⟨FieldType.text .spinLock, [.spinLock], 4, [.genSpinlock], false⟩

def keyStruct : StructDef := ⟨FieldType.text .u32, [.u32], 4, [], false⟩

/-- A program with one map, which has a lock in its value. -/
def lockPool (t : MapType) : MapPool :=
  ⟨[⟨t, [], some keyStruct, some lockStruct, 1, none⟩], [keyStruct, lockStruct]⟩

/-- What a lookup is asked for when its result has to hold a lock. -/
def lockHint : BpfCallGenHint := ⟨[.genSpinlock], 0, false, none⟩

theorem map_typeAccepted_hash :
    0 ∈ getHelperCompatMaps ⟨.xdp, false⟩ (lockPool .hash)
      (helperFuncMap .bpfMapLookupElem) lockHint ∧
    TypeAccepted ⟨.xdp, false⟩ (lockPool .hash) (helperFuncMap .bpfMapLookupElem) lockHint
      .hash := by
  have hmem : 0 ∈ getHelperCompatMaps ⟨.xdp, false⟩ (lockPool .hash)
      (helperFuncMap .bpfMapLookupElem) lockHint := by decide
  refine ⟨hmem, (map_typeAccepted_iff hmem rfl).mpr ?_⟩
  refine ⟨_, mem_cons_self, rfl, by decide, fun _ => by decide, fun h => ?_, fun h => ?_⟩
  · exact absurd h (by decide)
  · exact absurd h (by decide)

/-- A least recently used hash map is reused for its lock, and would not be made for one. -/
theorem map_not_typeAccepted_lruHash :
    0 ∈ getHelperCompatMaps ⟨.xdp, false⟩ (lockPool .lruHash)
      (helperFuncMap .bpfMapLookupElem) lockHint ∧
    ¬ TypeAccepted ⟨.xdp, false⟩ (lockPool .lruHash) (helperFuncMap .bpfMapLookupElem)
      lockHint .lruHash := by
  unfold TypeAccepted
  decide

end Brf.HelperCalls
