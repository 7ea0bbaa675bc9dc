import Brf.Verification.Exec.Run

/-! # The program the executor should see

Every used result has a slot, numbered in the order of the calls. Arguments refer to results by
their slots, return values and copyouts fill them. -/

namespace Brf

open Lib.Wire Lib AtCall List Visit Call

def slotOf (p : Prog) (x : ArgId) : ℕ := (slots p p.calls).idxOf x

def addrIn (t : Target) (vs : List Visit) (key : ArgKey) : UInt64 :=
  ((vs.find? (·.key == key)).bind (addr t)).getD 0

/-- The slot a call returns its value in. -/
def Call.retSlot (p : Prog) (c : Call) : UInt64 :=
  match c.ret with
  | some r => if p.isUsed r.id then UInt64.ofNat (slotOf p r.id) else execNoCopyout
  | none => execNoCopyout

def Visit.copyout (t : Target) (p : Prog) (v : Visit) : Option ExecCopyout :=
  match v.arg with
  | .result r =>
    if p.isUsed r.id then
      some ⟨UInt64.ofNat (slotOf p r.id), (v.addr t).getD 0, v.arg.size t⟩
    else none
  | _ => none

/-- The `n`-th call as the executor should see it. -/
def Call.spec (t : Target) (order : CsumSort) (p : Prog) (n : ℕ) (c : Call) : ExecCall where
  syscall := c.syscall
  props := c.props
  index := c.retSlot p
  args := c.args.flatMap (Arg.execArgs t (slotOf p))
  copyin := (visitsArgs t n 0 c.args).flatMap (copyins t (slotOf p)) ++
    csumCopyins t order n (addrIn t (visitsArgs t n 0 c.args))
      ((calcChecksumsCall t n c).getD Csums.none)
  copyout := (visitsArgs t n 0 c.args).filterMap (copyout t p)

def Prog.spec (t : Target) (order : CsumSort) (p : Prog) : List ExecCall :=
  p.calls.zipIdx.map fun c => c.1.spec t order p c.2

section Slots

variable {t : Target} {p : Prog}

theorem slots_perm (p : Prog) (cs : List Call) :
    (slots p cs).Perm (usedIds p (cs.flatMap results)) := by
  induction cs with
  | nil => exact List.Perm.refl []
  | cons c cs ih =>
    have hcall : (Call.slots p c).Perm (usedIds p c.results) :=
      (perm_append_comm.filter _).map _
    simpa [slots] using hcall.append ih

theorem slots_nodup (h : ProgOk t p) : (slots p p.calls).Nodup := by
  have hids : (p.results.map ResultArg.id).Nodup := h.results.nodup nodup_nil
  have hused : (usedIds p p.results).Nodup :=
    hids.sublist ((filter_sublist).map ResultArg.id)
  exact (slots_perm p p.calls).nodup_iff.mpr hused

end Slots

namespace AtCall

variable {t : Target} {p : Prog} {pre : List Call} {c : Call} {cs : Csums} {w : ExecContext}
  {i n : ℕ} {x : ArgId} {v : Visit} {addrOf : ArgKey → UInt64}

theorem copyoutsFrom_eq {vs : List Visit}
    (h : ∀ j x, (usedIds p (visitResults vs))[j]? = some x → slotOf p x = i + j) :
    copyoutsFrom t p i vs = vs.filterMap (copyout t p) := by
  induction vs generalizing i with
  | nil => rfl
  | cons v vs ih =>
    rw [visitResults_cons, usedIds_append, usedIds_result?] at h
    by_cases hv : v.isUsed p
    · obtain ⟨r, hr, hused⟩ : ∃ r, v.arg = .result r ∧ p.isUsed r.id := by
        cases harg : v.arg <;> simp_all [isUsed, result?]
      have hres : v.result?.toList.map ResultArg.id = [r.id] := by simp [result?, hr]
      rw [if_pos hv, hres] at h
      have hhead : slotOf p r.id = i := h 0 r.id rfl
      have htail := ih (i := i + 1) fun j x hj => by
        rw [h (j + 1) x hj]
        omega
      have hcons : copyoutsFrom t p i (v :: vs) =
          ⟨UInt64.ofNat i, (v.addr t).getD 0, v.arg.size t⟩ :: copyoutsFrom t p (i + 1) vs := by
        simp [copyoutsFrom, hv]
      rw [hcons, htail]
      simp [copyout, hr, hused, hhead]
    · rw [if_neg hv] at h
      have hnone : v.copyout t p = none := by
        cases harg : v.arg <;> simp_all [copyout, isUsed, result?]
      have hcons : copyoutsFrom t p i (v :: vs) = copyoutsFrom t p i vs := by
        simp [copyoutsFrom, hv]
      rw [hcons, ih h, filterMap_cons, hnone]

theorem csumCopyins_congr (order : CsumSort) (n : ℕ) {addrOf' : ArgKey → UInt64}
    (hfield : ∀ f ∈ cs.map, addrOf f.1.key = addrOf' f.1.key)
    (hchunk : ∀ f ∈ cs.map, ∀ u, .arg u ∈ f.2.chunks → addrOf u.key = addrOf' u.key) :
    csumCopyins t order n addrOf cs = csumCopyins t order n addrOf' cs := by
  have hsort : (cs.map.map fun f => (addrOf f.1.key, f)) =
      cs.map.map fun f => (addrOf' f.1.key, f) :=
    map_congr_left fun f hf => by rw [hfield f hf]
  rw [csumCopyins, hsort]
  apply map_congr_left
  intro f hf
  rw [mem_reverse, (order.perm n _).mem_iff] at hf
  obtain ⟨g, hg, rfl⟩ := mem_map.mp hf
  have hchunks : g.2.chunks.map (CsumChunk.exec t addrOf) =
      g.2.chunks.map (CsumChunk.exec t addrOf') := by
    apply map_congr_left
    intro chunk hc
    cases chunk with
    | arg u => simp [CsumChunk.exec, hchunk g hg u hc]
    | const value size => rfl
  simp [csumCopyin, hchunks]

theorem mem_visits : v ∈ c.visits t n ↔ (∃ r, c.ret = some r ∧ v = ⟨[n], .result r, none, 0⟩) ∨
    v ∈ visitsArgs t n 0 c.args := by
  cases h : c.ret <;> simp [visits, h]

theorem covered_mem_visitsArgs {u : Visit}
    (h : IsGroupOf (c.visits t n) u ∨ IsFieldOf (c.visits t n) u) :
    IsGroupOf (visitsArgs t n 0 c.args) u ∨ IsFieldOf (visitsArgs t n 0 c.args) u := by
  have hgroup : ∀ v ∈ c.visits t n, (∃ cc inner, v.arg = .group cc inner) →
      v ∈ visitsArgs t n 0 c.args := by
    intro v hv ⟨cc, inner, harg⟩
    rcases mem_visits.mp hv with ⟨r, -, rfl⟩ | hv
    · simp at harg
    · exact hv
  rcases h with ⟨hu, harg⟩ | ⟨v, cc, inner, i, hv, harg, hi⟩
  · exact .inl ⟨hgroup u hu harg, harg⟩
  · exact .inr ⟨v, cc, inner, i, hgroup v hv ⟨cc, inner, harg⟩, harg, hi⟩

variable (h : AtCall t p pre c)
include h

theorem slots_split : ∃ rest, slots p p.calls =
    slots p pre ++ (usedIds p c.ret.toList ++ (usedIds p (Arg.resultsList c.args) ++ rest)) := by
  obtain ⟨post, hpost⟩ := h.split
  exact ⟨slots p post, by simp [hpost, slots, Call.slots]⟩

theorem slotOf_of_getElem? (hx : (slots p p.calls)[i]? = some x) : slotOf p x = i := by
  obtain ⟨hi, rfl⟩ := List.getElem?_eq_some_iff.mp hx
  exact (slots_nodup h.ok).idxOf_getElem i hi

theorem idxOf_eq_slotOf (hinv : EncInv p pre w)
    (hx : x ∈ resultIds pre) (hused : p.isUsed x) : w.idxOf x = slotOf p x := by
  obtain ⟨i, hi⟩ := mem_iff_getElem?.mp (mem_slots_iff.mpr ⟨hx, hused⟩)
  obtain ⟨info, hinfo, hidx, -⟩ := hinv.slot i x hi
  obtain ⟨rest, hrest⟩ := h.slots_split
  have hslot : slotOf p x = i := by
    apply h.slotOf_of_getElem?
    rw [hrest, getElem?_append_left (List.getElem?_eq_some_iff.mp hi).1, hi]
  simp [ExecContext.idxOf, hinfo, hidx, hslot]

theorem retIndex_eq : c.retIndex p (slots p pre).length = c.retSlot p := by
  cases hret : c.ret with
  | none => simp [retIndex, retSlot, hret]
  | some r =>
    by_cases hused : p.isUsed r.id
    · obtain ⟨rest, hrest⟩ := h.slots_split
      have hslot : slotOf p r.id = (slots p pre).length := by
        apply h.slotOf_of_getElem?
        rw [hrest]
        simp [hret, usedIds, hused]
      simp [retIndex, retSlot, hret, usedIds, hused, hslot]
    · simp [retIndex, retSlot, hret, usedIds, hused]

theorem copyouts_eq (n : ℕ) :
    copyoutsFrom t p ((slots p pre).length + (usedIds p c.ret.toList).length)
      (visitsArgs t n 0 c.args) = (visitsArgs t n 0 c.args).filterMap (copyout t p) := by
  obtain ⟨rest, hrest⟩ := h.slots_split
  apply copyoutsFrom_eq
  intro j x hj
  rw [visitResults_visitsArgs] at hj
  apply h.slotOf_of_getElem?
  rw [hrest, getElem?_append_right (by omega), getElem?_append_right (by omega)]
  have hsub : (slots p pre).length + (usedIds p c.ret.toList).length + j - (slots p pre).length -
      (usedIds p c.ret.toList).length = j := by omega
  rw [hsub, getElem?_append_left (List.getElem?_eq_some_iff.mp hj).1, hj]

theorem addrIn_key (hinv : EncInv p pre w)
    (hv : v ∈ visitsArgs t n 0 c.args) :
    addrIn t (visitsArgs t n 0 c.args) v.key = (v.addr t).getD 0 := by
  have hfind : (visitsArgs t n 0 c.args).find? (·.key == v.key) = some v := by
    obtain ⟨done, rest, hsplit⟩ := append_of_mem hv
    rw [find?_eq_some_iff_append]
    refine ⟨by simp, done, rest, hsplit, ?_⟩
    intro u hu
    have hne : u.key ≠ v.key := (h.enters n hinv).key_ne hsplit hu
    simpa using hne
  rw [addrIn, hfind]
  rfl

theorem csum_mem_visitsArgs (hv : v ∈ c.visits t n)
    (htype : (t.type v.arg.ref).isCsum) : v ∈ visitsArgs t n 0 c.args := by
  rcases mem_visits.mp hv with ⟨r, hr, rfl⟩ | hv
  · have hok := h.preResults.2
    rw [results, hr] at hok
    obtain ⟨cc, f, desc, hres, -⟩ := (ResultsOk.ok hok).resource
    simp [Arg.ref, hres, Typ.isCsum] at htype
  · exact hv

theorem csumCopyins_eq (order : CsumSort) (hinv : EncInv p pre w)
    (hcs : calcChecksumsCall t n c = some cs)
    (haddr : AddrsOf t p cs (visitsArgs t n 0 c.args) addrOf) : csumCopyins t order n addrOf cs =
    csumCopyins t order n (addrIn t (visitsArgs t n 0 c.args)) cs := by
  apply csumCopyins_congr
  · intro f hf
    obtain ⟨hv, htype⟩ := calcChecksums_fields hcs f hf
    have hv := h.csum_mem_visitsArgs hv htype
    have hused : willBeUsed p cs f.1 := by
      have hany : (cs.map.any fun g => g.1.key == f.1.key) :=
        any_eq_true.mpr ⟨f, hf, by simp⟩
      simp [willBeUsed, hany]
    rw [h.addrIn_key hinv hv,
      haddr f.1 hv (h.callOk.csum_inMemory h.compiled h.syscall hv htype) hused]
  · intro f hf u hu
    obtain ⟨huses, hcov⟩ := calcChecksums_uses hcs f hf u hu
    obtain ⟨v, hv, hkey, hbase⟩ :=
      h.callOk.covered_inMemory h.compiled h.syscall (covered_mem_visitsArgs hcov)
    have hused : willBeUsed p cs v := by
      simp [willBeUsed, hkey, huses]
    rw [← hkey, h.addrIn_key hinv hv, haddr v hv hbase hused]

/-! ### The call as a whole -/

/-- What the encoder writes for a call that refers to results of earlier calls only. -/
theorem exec_eq_spec (order : CsumSort) (hinv : EncInv p pre w)
    (hcs : calcChecksumsCall t pre.length c = some cs)
    (haddr : AddrsOf t p cs (visitsArgs t pre.length 0 c.args) addrOf)
    (hrefs : ∀ x ∈ c.refs t pre.length, x ∈ resultIds pre) :
    c.exec t order p pre.length cs addrOf w.idxOf w.copyoutSeq = c.spec t order p pre.length := by
  have hix : ∀ x ∈ c.refs t pre.length, w.idxOf x = slotOf p x := fun x hx =>
    h.idxOf_eq_slotOf hinv (hrefs x hx) (h.mem_of_mem_refs hx).1
  have hargs : c.args.flatMap (Arg.execArgs t w.idxOf) =
      c.args.flatMap (Arg.execArgs t (slotOf p)) := by
    apply flatMap_congr
    intro a ha
    apply Arg.execArgs_congr
    intro x hx
    exact hix x (mem_append_right _ (mem_flatMap.mpr ⟨a, ha, hx⟩))
  have hcopyins : (visitsArgs t pre.length 0 c.args).flatMap (copyins t w.idxOf) =
      (visitsArgs t pre.length 0 c.args).flatMap (copyins t (slotOf p)) := by
    apply flatMap_congr
    intro v hv
    unfold copyins
    split
    · rename_i hin
      cases haddr : v.addr t with
      | none => rfl
      | some addr =>
        have hbase : v.base.isSome := by
          by_contra hno
          rw [addr_eq_none_of_base (by simpa using hno)] at haddr
          cases haddr
        rw [v.arg.execArgs_congr]
        intro x hx
        refine hix x (mem_append_left _ (mem_flatMap.mpr ⟨v, hv, ?_⟩))
        simpa [copyinRefs, hbase, hin] using hx
    · rfl
  rw [exec, spec, hargs, hcopyins, h.csumCopyins_eq order hinv hcs haddr, hinv.seq,
    h.retIndex_eq, h.copyouts_eq, hcs]
  rfl

end AtCall

end Brf
