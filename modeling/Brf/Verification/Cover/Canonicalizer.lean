import Brf.Model.Canonicalizer

/-! # Conversion of addresses

What the conversions between two module layouts should do is stated by `Converts`. Addresses are
converted to the canonical layout as they should be. The way back is wrong in the gaps behind
modules that the instance lacks, and around modules that have another size there. -/

namespace Brf.Cover

open Brf.Lib List Canonicalizer KernelModule CanonicalizerInstance Dict UInt32

namespace KernelModule

def start (mod : KernelModule) : ℕ := mod.addr.toUInt32.toNat

def stop (mod : KernelModule) : ℕ := mod.start + mod.size.toNat

def Holds (mod : KernelModule) (pc : UInt32) : Prop := mod.start ≤ pc.toNat ∧ pc.toNat < mod.stop

instance (mod : KernelModule) (pc : UInt32) : Decidable (mod.Holds pc) := by
  unfold Holds
  infer_instance

/-- The module of another layout that stands for the same code. -/
def Matches (mod other : KernelModule) : Prop := other.name = mod.name ∧ other.size = mod.size

instance (mod other : KernelModule) : Decidable (mod.Matches other) := by
  unfold Matches
  infer_instance

end KernelModule

/-- Modules that do not overlap and do not wrap around. -/
structure Layout (modules : List KernelModule) : Prop where
  fits : ∀ mod ∈ modules, mod.stop < 2 ^ 32
  apart : ∀ mod ∈ modules, ∀ other ∈ modules, mod ≠ other →
    mod.start ≠ other.start ∧ (mod.stop ≤ other.start ∨ other.stop ≤ mod.start)
  names : ∀ mod ∈ modules, ∀ other ∈ modules, mod.name = other.name → mod = other

/-- An address is dropped if it lies in a module without counterpart, moved if it lies in a
matched module, and kept if it lies in none. -/
structure ConvertsAt (source other : List KernelModule) (pc : UInt32) (result : Option UInt32) :
    Prop where
  dropped : result = none ↔ ∃ mod ∈ source, mod.Holds pc ∧ ∀ mod' ∈ other, ¬ mod.Matches mod'
  moved : ∀ mod ∈ source, mod.Holds pc → ∀ mod' ∈ other, mod.Matches mod' →
    ∃ pc', result = some pc' ∧ pc'.toNat + mod.start = pc.toNat + mod'.start
  kept : (∀ mod ∈ source, ¬ mod.Holds pc) → result = some pc

/-- The elements of a signal that a conversion keeps, with their priorities. -/
def convertedSignal (convert : UInt32 → Option UInt32) (sign : Serial) : Serial :=
  let kept := (sign.elems.zip sign.prios).filterMap fun x => (convert x.1).map (·, x.2)
  ⟨kept.map Prod.fst, kept.map Prod.snd⟩

/-- Each address of a coverage and each element of a signal is converted as it should be. -/
structure ConvertsPCs (source other : List KernelModule) (convert : UInt32 → Option UInt32)
    (convertPCs : List UInt32 → Serial → Option (List UInt32 × Serial)) : Prop where
  each : ∀ pc, ConvertsAt source other pc (convert pc)
  all : ∀ cov sign, sign.elems.length = sign.prios.length →
    convertPCs cov sign = some (cov.filterMap convert, convertedSignal convert sign)

/-- The conversions of an instance do what they should, and undo each other on what lies in
matched modules. -/
structure Converts (canon inst : List KernelModule) (ci : CanonicalizerInstance) : Prop where
  canonicalize : ∃ convert, ConvertsPCs inst canon convert ci.canonicalizePCs
  decanonicalize : ∃ convert, ConvertsPCs canon inst convert ci.decanonicalizePCs
  back : ∀ cov sign, sign.elems.length = sign.prios.length →
    (∀ pc ∈ cov ++ sign.elems, ∃ mod ∈ inst, mod.Holds pc ∧ ∃ other ∈ canon, mod.Matches other) →
    ((ci.canonicalizePCs cov sign).bind fun x => ci.decanonicalizePCs x.1 x.2) = some (cov, sign)

/-! ### Coverage and signal -/

section Signals

variable {f g : UInt32 → Option UInt32} {sign : Serial}

theorem convertedSignal_fixed (hlen : sign.elems.length = sign.prios.length)
    (hfix : ∀ e ∈ sign.elems, f e = some e) : convertedSignal f sign = sign := by
  have hkept : (sign.elems.zip sign.prios).filterMap (fun x => (f x.1).map (·, x.2)) =
      sign.elems.zip sign.prios := by
    refine (filterMap_congr fun x hx => ?_).trans filterMap_some
    rw [hfix x.1 (of_mem_zip hx).1]
    rfl
  rw [convertedSignal, hkept, map_fst_zip hlen.le, map_snd_zip hlen.ge]

theorem filterMap_fixed {cov : List UInt32} (hfix : ∀ pc ∈ cov, f pc = some pc) :
    cov.filterMap f = cov :=
  (filterMap_congr hfix).trans filterMap_some

theorem convertedSignal_bind (f g : UInt32 → Option UInt32) (sign : Serial) :
    convertedSignal g (convertedSignal f sign) = convertedSignal (fun e => (f e).bind g) sign := by
  have hzip : ∀ l : List (Elem × Prio), (l.map Prod.fst).zip (l.map Prod.snd) = l :=
    fun l => (zip_of_prod rfl rfl).symm
  simp only [convertedSignal, hzip, filterMap_filterMap, Option.bind_map, Option.map_bind,
    Function.comp_def]

theorem Convert.convertSignal_eq (conv : Convert) {elems : List Elem} {prios : List Prio}
    (hlen : elems.length = prios.length) :
    conv.convertSignal elems prios = some (convertedSignal conv.convertPC ⟨elems, prios⟩) := by
  induction elems generalizing prios with
  | nil => rfl
  | cons e elems ih =>
    cases prios with
    | nil => cases hlen
    | cons p prios =>
      rw [Convert.convertSignal, tail_cons, ih (Nat.succ.inj hlen)]
      cases h : conv.convertPC e with
      | none | some => simp [convertedSignal, h]

/-- Also without modules, when nothing is converted. -/
theorem newInstance_convertPCs (can : Canonicalizer) (modules : List KernelModule)
    (cov : List UInt32) (hlen : sign.elems.length = sign.prios.length) :
    let ci := can.newInstance modules
    ci.canonicalizePCs cov sign = some (cov.filterMap ci.canonicalize.convertPC,
      convertedSignal ci.canonicalize.convertPC sign) ∧
    ci.decanonicalizePCs cov sign = some (cov.filterMap ci.decanonicalize.convertPC,
      convertedSignal ci.decanonicalize.convertPC sign) := by
  unfold newInstance
  split
  · have hkeep : ∀ pc, Convert.unused.convertPC pc = some pc := fun _ => rfl
    simp only [filterMap_fixed fun pc _ => hkeep pc, convertedSignal_fixed hlen fun e _ => hkeep e]
    exact ⟨rfl, rfl⟩
  · next hkeys =>
    simp only [canonicalizePCs, decanonicalizePCs, if_neg hkeys, Convert.convertPCs,
      Convert.convertSignal_eq _ hlen]
    exact ⟨rfl, rfl⟩

theorem convertsPCs_iff {source other : List KernelModule}
    {convertPCs : List UInt32 → Serial → Option (List UInt32 × Serial)}
    (hall : ∀ cov sign, sign.elems.length = sign.prios.length →
      convertPCs cov sign = some (cov.filterMap g, convertedSignal g sign)) :
    (∃ f, ConvertsPCs source other f convertPCs) ↔ ∀ pc, ConvertsAt source other pc (g pc) := by
  constructor
  · rintro ⟨f, hf⟩ pc
    have heq : [pc].filterMap f = [pc].filterMap g :=
      congrArg Prod.fst (Option.some.inj ((hf.all [pc] ⟨[], []⟩ rfl).symm.trans
        (hall [pc] ⟨[], []⟩ rfl)))
    have hpc : f pc = g pc := by simpa [head?_filterMap] using congrArg head? heq
    exact hpc ▸ hf.each pc
  · exact fun h => ⟨g, h, hall⟩

end Signals

/-! ### The module of an address -/

theorem findModule_spec {pc : UInt32} {keys : List UInt32} (hsort : keys.Pairwise (· ≤ ·)) :
    match findModule pc keys with
    | none => ∀ k ∈ keys, pc < k
    | some key => key ∈ keys ∧ key ≤ pc ∧ ∀ k ∈ keys, k ≤ pc → k ≤ key := by
  unfold findModule
  induction keys with
  | nil => simp
  | cons k keys ih =>
    have hk := pairwise_cons.mp hsort
    by_cases hpc : pc < k
    · have habove : ∀ k' ∈ k :: keys, pc < k' := by
        intro k' hk'
        rcases mem_cons.mp hk' with rfl | hk'
        · exact hpc
        · exact UInt32.lt_of_lt_of_le hpc (hk.1 k' hk')
      simpa [takeWhile_cons, hpc] using habove
    · have hle : k ≤ pc := UInt32.not_lt.mp hpc
      have ih := ih hk.2
      rw [takeWhile_cons, if_pos (by simpa using hle), getLast?_cons]
      cases hlast : (keys.takeWhile fun key => !(pc < key)).getLast? with
      | none =>
        rw [hlast] at ih
        refine ⟨mem_cons_self, hle, ?_⟩
        intro k' hk' hle'
        rcases mem_cons.mp hk' with rfl | hk'
        · exact UInt32.le_refl _
        · exact absurd (ih k' hk') (UInt32.not_lt.mpr hle')
      | some key =>
        rw [hlast] at ih
        obtain ⟨hmem, hkey, hmax⟩ := ih
        refine ⟨mem_cons_of_mem _ hmem, hkey, ?_⟩
        intro k' hk' hle'
        rcases mem_cons.mp hk' with rfl | hk'
        · exact hk.1 key hmem
        · exact hmax k' hk' hle'

variable {modules : List KernelModule}

theorem mem_setModuleKeys {key : UInt32} :
    key ∈ setModuleKeys modules ↔ ∃ mod ∈ modules, mod.addr.toUInt32 = key := by
  rw [setModuleKeys, mem_insertionSort, mem_map]

/-- The module that decides on an address: the last one that starts at it or below. -/
def Decides (modules : List KernelModule) (mod : KernelModule) (pc : UInt32) : Prop :=
  mod ∈ modules ∧ mod.start ≤ pc.toNat ∧
    ∀ other ∈ modules, other.start ≤ pc.toNat → other.start ≤ mod.start

theorem findModule_cases (modules : List KernelModule) (pc : UInt32) :
    (findModule pc (setModuleKeys modules) = none ∧ ∀ mod ∈ modules, pc.toNat < mod.start) ∨
    ∃ mod, findModule pc (setModuleKeys modules) = some mod.addr.toUInt32 ∧
      Decides modules mod pc := by
  have hsort : (setModuleKeys modules).Pairwise (· ≤ ·) := pairwise_insertionSort _ _
  have hspec := @findModule_spec pc _ hsort
  cases hfind : findModule pc (setModuleKeys modules) with
  | none =>
    rw [hfind] at hspec
    refine .inl ⟨rfl, fun mod hmod => ?_⟩
    exact lt_iff_toNat_lt.mp (hspec _ (mem_setModuleKeys.mpr ⟨mod, hmod, rfl⟩))
  | some key =>
    rw [hfind] at hspec
    obtain ⟨hkey, hle, hmax⟩ := hspec
    obtain ⟨mod, hmod, rfl⟩ := mem_setModuleKeys.mp hkey
    refine .inr ⟨mod, rfl, hmod, le_iff_toNat_le.mp hle, ?_⟩
    intro other hother hle'
    exact le_iff_toNat_le.mp (hmax _ (mem_setModuleKeys.mpr ⟨other, hother, rfl⟩)
      (le_iff_toNat_le.mpr hle'))

theorem Layout.decides_of_holds (h : Layout modules) {mod : KernelModule} {pc : UInt32}
    (hmod : mod ∈ modules) (hpc : mod.Holds pc) : Decides modules mod pc := by
  refine ⟨hmod, hpc.1, ?_⟩
  intro other hother hle
  by_cases heq : mod = other
  · rw [heq]
  obtain ⟨-, hstop⟩ := h.apart mod hmod other hother heq
  have hlt := hpc.2
  rcases hstop with hstop | hstop
  · omega
  · exact Nat.le_trans (Nat.le_add_right _ _) hstop

theorem Layout.decides_unique (h : Layout modules) {mod mod' : KernelModule} {pc : UInt32}
    (hmod : Decides modules mod pc) (hmod' : Decides modules mod' pc) : mod = mod' := by
  by_contra hne
  have hstart := (h.apart mod hmod.1 mod' hmod'.1 hne).1
  exact hstart (Nat.le_antisymm (hmod'.2.2 mod hmod.1 hmod.2.1) (hmod.2.2 mod' hmod'.1 hmod'.2.1))

section ConvertsAt

variable {source other : List KernelModule} {mod mod' : KernelModule} {pc : UInt32}
  {result : Option UInt32}

theorem Layout.holds_unique (h : Layout source) (hmod : mod ∈ source) (hpc : mod.Holds pc)
    (hmod' : mod' ∈ source) (hpc' : mod'.Holds pc) : mod = mod' :=
  h.decides_unique (h.decides_of_holds hmod hpc) (h.decides_of_holds hmod' hpc')

theorem Decides.not_holds (hsource : Layout source) (h : Decides source mod pc)
    (hpc : ¬ mod.Holds pc) (hmod' : mod' ∈ source) : ¬ mod'.Holds pc := by
  intro hheld
  obtain rfl := hsource.decides_unique h (hsource.decides_of_holds hmod' hheld)
  exact hpc hheld

theorem convertsAt_kept (h : ∀ mod ∈ source, ¬ mod.Holds pc) :
    ConvertsAt source other pc result ↔ result = some pc := by
  constructor
  · intro hconv
    exact hconv.kept h
  · rintro rfl
    refine ⟨⟨by simp, ?_⟩, ?_, fun _ => rfl⟩
    · rintro ⟨mod, hmod, hpc, -⟩
      exact absurd hpc (h mod hmod)
    · intro mod hmod hpc
      exact absurd hpc (h mod hmod)

theorem convertsAt_dropped (hsource : Layout source) (hmod : mod ∈ source) (hpc : mod.Holds pc)
    (hlost : ∀ mod' ∈ other, ¬ mod.Matches mod') :
    ConvertsAt source other pc result ↔ result = none := by
  constructor
  · intro hconv
    exact hconv.dropped.mpr ⟨mod, hmod, hpc, hlost⟩
  · rintro rfl
    refine ⟨⟨fun _ => ⟨mod, hmod, hpc, hlost⟩, fun _ => rfl⟩, ?_, fun h => absurd hpc (h mod hmod)⟩
    intro m hm hheld m' hm' hmatch
    obtain rfl := hsource.holds_unique hm hheld hmod hpc
    exact absurd hmatch (hlost m' hm')

theorem convertsAt_moved (hsource : Layout source) (hother : Layout other) (hmod : mod ∈ source)
    (hpc : mod.Holds pc) (hmod' : mod' ∈ other) (hmatch : mod.Matches mod') :
    ConvertsAt source other pc result ↔
      ∃ pc', result = some pc' ∧ pc'.toNat + mod.start = pc.toNat + mod'.start := by
  constructor
  · intro hconv
    exact hconv.moved mod hmod hpc mod' hmod' hmatch
  · rintro ⟨pc', rfl, hpc'⟩
    refine ⟨⟨by simp, ?_⟩, ?_, fun h => absurd hpc (h mod hmod)⟩
    · rintro ⟨m, hm, hheld, hlost⟩
      obtain rfl := hsource.holds_unique hm hheld hmod hpc
      exact absurd hmatch (hlost mod' hmod')
    · intro m hm hheld m' hm' hm'match
      obtain rfl := hsource.holds_unique hm hheld hmod hpc
      obtain rfl := hother.names m' hm' mod' hmod' (hm'match.1.trans hmatch.1.symm)
      exact ⟨pc', rfl, hpc'⟩

end ConvertsAt

section Maps

variable (can : Canonicalizer)

/-- The address under which a module of an instance is entered for the way back. -/
def Canonicalizer.addrOf (mod : KernelModule) : UInt32 :=
  ((can.modules.lookup mod.name).map fun canonicalModule => canonicalModule.addr.toUInt32).getD 0

def Canonicalizer.discards (mod : KernelModule) : Bool :=
  (can.modules.lookup mod.name).all fun canonicalModule => canonicalModule.size ≠ mod.size

def Canonicalizer.toCanonical (mod : KernelModule) : CanonicalizerModule :=
  ⟨((can.addrOf mod).toNat : ℤ) - mod.addr.toUInt32.toNat, mod.size.toUInt32 + mod.addr.toUInt32,
    can.discards mod⟩

def Canonicalizer.toInstance (mod : KernelModule) : CanonicalizerModule :=
  ⟨(mod.addr.toUInt32.toNat : ℤ) - (can.addrOf mod).toNat, mod.size.toUInt32 + can.addrOf mod,
    can.discards mod⟩

theorem foldl_addModule (modules : List KernelModule)
    (maps : Dict UInt32 CanonicalizerModule × Dict UInt32 CanonicalizerModule) :
    modules.foldl can.addModule maps =
      (modules.foldl (fun m mod => m.insert mod.addr.toUInt32 (can.toCanonical mod)) maps.1,
       modules.foldl (fun m mod => m.insert (can.addrOf mod) (can.toInstance mod)) maps.2) := by
  induction modules generalizing maps with
  | nil => rfl
  | cons mod modules ih => exact ih _

variable {can}

theorem newInstance_lookup (hcan : can.moduleKeys ≠ []) (modules : List KernelModule)
    (key : UInt32) : (can.newInstance modules).canonicalize.conversionHash.lookup key =
    ((modules.filter fun mod => mod.addr.toUInt32 = key).getLast?).map can.toCanonical ∧
    (can.newInstance modules).decanonicalize.conversionHash.lookup key =
    ((modules.filter fun mod => can.addrOf mod = key).getLast?).map can.toInstance := by
  rw [newInstance, if_neg hcan, foldl_addModule]
  exact ⟨lookup_foldl_insert _ _ _ _, lookup_foldl_insert _ _ _ _⟩

end Maps

section Entries

variable {canon inst : List KernelModule} {mod other : KernelModule} {pc key : UInt32}

theorem toNat_end (size : UInt64) (a : UInt32) :
    (size.toUInt32 + a).toNat = (a.toNat + size.toNat) % 2 ^ 32 := by
  rw [UInt32.toNat_add, UInt64.toNat_toUInt32]
  omega

theorem KernelModule.toNat_stop (h : mod.stop < 2 ^ 32) :
    (mod.size.toUInt32 + mod.addr.toUInt32).toNat = mod.stop := by
  rw [toNat_end]
  exact Nat.mod_eq_of_lt h

theorem KernelModule.Holds.toNat_move (hpc : mod.Holds pc) (hsize : other.size = mod.size)
    (hfit : other.stop < 2 ^ 32) :
    (ofInt (pc.toNat + ((other.start : ℤ) - mod.start))).toNat + mod.start =
      pc.toNat + other.start := by
  obtain ⟨hstart, hstop⟩ := hpc
  simp only [stop, hsize] at hstop hfit
  have hmod : ((pc.toNat : ℤ) + ((other.start : ℤ) - mod.start)) % 2 ^ 32 =
      ((pc.toNat + other.start - mod.start : ℕ) : ℤ) := by
    rw [Int.emod_eq_of_lt] <;> omega
  rw [ofInt, toNat_ofNat', Nat.mod_eq_of_lt (by omega)]
  omega

theorem convertPC_of_entry {conv : Convert} {entry : CanonicalizerModule}
    (hfind : findModule pc conv.moduleKeys = some key)
    (hentry : conv.conversionHash.lookup key = some entry) :
    conv.convertPC pc = if pc < entry.endAddr then
      if entry.discard then none else some (ofInt (pc.toNat + entry.offset)) else some pc := by
  rw [Convert.convertPC, hfind]
  simp only [hentry]

theorem newCanonicalizer_eq (hne : canon ≠ []) :
    newCanonicalizer canon true = ⟨indexBy name canon, setModuleKeys canon⟩ := by
  simp [newCanonicalizer, hne]

theorem moduleKeys_ne_nil (hne : canon ≠ []) : (newCanonicalizer canon true).moduleKeys ≠ [] := by
  rw [newCanonicalizer_eq hne]
  obtain ⟨mod, hmod⟩ := exists_mem_of_ne_nil canon hne
  exact ne_nil_of_mem (mem_setModuleKeys.mpr ⟨mod, hmod, rfl⟩)

theorem Layout.lookup_name (h : Layout canon) (hmod : mod ∈ canon) :
    (indexBy name canon).lookup mod.name = some mod :=
  lookup_indexBy h.names hmod

theorem Layout.lookup_none (h : ∀ mod ∈ canon, mod.name ≠ other.name) :
    (indexBy name canon).lookup other.name = none := by
  by_contra hsome
  obtain ⟨mod, hmod⟩ := Option.ne_none_iff_exists'.mp hsome
  obtain ⟨hmem, hname⟩ := mem_of_lookup_indexBy hmod
  exact h mod hmem hname

theorem newInstance_keys (hne : canon ≠ []) (inst : List KernelModule) :
    ((newCanonicalizer canon true).newInstance inst).canonicalize.moduleKeys = setModuleKeys inst ∧
    ((newCanonicalizer canon true).newInstance inst).decanonicalize.moduleKeys =
      setModuleKeys canon := by
  rw [newInstance, if_neg (moduleKeys_ne_nil hne), newCanonicalizer_eq hne]
  exact ⟨rfl, rfl⟩

theorem Layout.filter_start (h : Layout inst) (hmod : mod ∈ inst) :
    (inst.filter fun m => m.addr.toUInt32 = mod.addr.toUInt32).getLast? = some mod := by
  have hmem : mod ∈ inst.filter fun m => m.addr.toUInt32 = mod.addr.toUInt32 := by
    simp [hmod]
  obtain ⟨last, hlast⟩ := Option.ne_none_iff_exists'.mp
    (mt getLast?_eq_none_iff.mp (ne_nil_of_mem hmem))
  rw [hlast]
  obtain ⟨hin, haddr⟩ := mem_filter.mp (mem_of_getLast? hlast)
  by_contra hne
  refine (h.apart last hin mod hmod fun heq => hne (by rw [heq])).1 ?_
  exact congrArg toNat (of_decide_eq_true haddr)

end Entries

/-! ### The two ways -/

section Conversions

variable {canon inst : List KernelModule} {mod other c r : KernelModule} {pc : UInt32}

theorem KernelModule.Matches.symm (h : c.Matches r) : r.Matches c := ⟨h.1.symm, h.2.symm⟩

theorem discards_eq_false (hcanon : Layout canon) (hother : other ∈ canon)
    (hmatch : mod.Matches other) : (newCanonicalizer canon true).discards mod = false ∧
    (newCanonicalizer canon true).addrOf mod = other.addr.toUInt32 := by
  have hlook := hcanon.lookup_name hother
  rw [hmatch.1] at hlook
  rw [newCanonicalizer_eq (ne_nil_of_mem hother)]
  simp [discards, addrOf, hlook, hmatch.2]

theorem discards_eq_true (hlost : ∀ other ∈ canon, ¬ mod.Matches other) (hne : canon ≠ []) :
    (newCanonicalizer canon true).discards mod := by
  rw [newCanonicalizer_eq hne]
  simp only [discards, Option.all_eq_true, decide_eq_true_eq]
  intro other hlook hsize
  obtain ⟨hother, hname⟩ := mem_of_lookup_indexBy hlook
  exact hlost other hother ⟨hname, hsize⟩

theorem convertsAt_below {conv : Convert} {source other : List KernelModule}
    (hkeys : conv.moduleKeys = setModuleKeys source) (hbelow : ∀ mod ∈ source, pc.toNat < mod.start)
    (hfind : findModule pc (setModuleKeys source) = none) :
    ConvertsAt source other pc (conv.convertPC pc) := by
  rw [convertsAt_kept fun mod hmod hheld => absurd hheld.1 (Nat.not_le_of_lt (hbelow mod hmod)),
    Convert.convertPC, hkeys, hfind]

section

variable {source other : List KernelModule} (hsource : Layout source)

include hsource

/-- With a discarded module, what lies below its end as counted from `c` is dropped. -/
theorem convertsAt_discarded_iff (hother : Layout other) (hdec : Decides source c pc) (below : Prop)
    [Decidable below] : ConvertsAt source other pc (if below then none else some pc) ↔
    if below then c.Holds pc ∧ ∀ mod ∈ other, ¬ c.Matches mod else c.Holds pc →
    ∃ mod ∈ other, c.Matches mod ∧ mod.start = c.start := by
  by_cases hheld : c.Holds pc
  · by_cases hmatch : ∃ mod ∈ other, c.Matches mod
    · obtain ⟨mod, hmod, hm⟩ := hmatch
      rw [convertsAt_moved hsource hother hdec.1 hheld hmod hm]
      split
      · simp only [reduceCtorEq, false_and, exists_false, false_iff, not_and]
        exact fun _ hlost => hlost mod hmod hm
      · constructor
        · rintro ⟨pc', hpc', heq⟩ -
          obtain rfl := Option.some.inj hpc'
          exact ⟨mod, hmod, hm, by omega⟩
        · intro hsame
          obtain ⟨mod', hmod', hm', hstart⟩ := hsame hheld
          obtain rfl := hother.names mod' hmod' mod hmod (hm'.1.trans hm.1.symm)
          exact ⟨pc, rfl, by omega⟩
    · have hlost : ∀ mod ∈ other, ¬ c.Matches mod := fun mod hmod hm => hmatch ⟨mod, hmod, hm⟩
      rw [convertsAt_dropped hsource hdec.1 hheld hlost]
      split
      · simpa [hheld] using hlost
      · simp only [reduceCtorEq, false_iff, Classical.not_imp, not_exists, not_and]
        exact ⟨hheld, fun mod hmod hm => absurd hm (hlost mod hmod)⟩
  · rw [convertsAt_kept fun _ hmod => hdec.not_holds hsource hheld hmod]
    split
    · simp [hheld]
    · simp [hheld]

/-- With its counterpart recorded, an address is converted as it should be. -/
theorem convertsAt_matched (hother : Layout other) (hdec : Decides source c pc)
    (hr : r ∈ other) (hmatch : c.Matches r) :
    ConvertsAt source other pc (if pc.toNat < c.stop then
      some (ofInt (pc.toNat + ((r.start : ℤ) - c.start))) else some pc) := by
  split
  · rename_i hin
    have hheld : c.Holds pc := ⟨hdec.2.1, hin⟩
    rw [convertsAt_moved hsource hother hdec.1 hheld hr hmatch]
    exact ⟨_, rfl, hheld.toNat_move hmatch.2 (hother.fits r hr)⟩
  · rename_i hin
    have hout : ¬ c.Holds pc := fun hheld => hin hheld.2
    exact (convertsAt_kept fun _ hmod => hdec.not_holds hsource hout hmod).mpr rfl

end

theorem canonicalize_converts (hcanon : Layout canon) (hinst : Layout inst) (hne : canon ≠ [])
    (pc : UInt32) : ConvertsAt inst canon pc
      (((newCanonicalizer canon true).newInstance inst).canonicalize.convertPC pc) := by
  have hmods := (newInstance_keys hne inst).1
  rcases findModule_cases inst pc with ⟨hfind, hbelow⟩ | ⟨mod, hfind, hdec⟩
  · exact convertsAt_below hmods hbelow hfind
  have hentry := (newInstance_lookup (moduleKeys_ne_nil hne) inst mod.addr.toUInt32).1
  rw [hinst.filter_start hdec.1] at hentry
  rw [convertPC_of_entry (hmods ▸ hfind) hentry]
  simp only [toCanonical, lt_iff_toNat_lt, toNat_stop (hinst.fits mod hdec.1)]
  by_cases hmatch : ∃ other ∈ canon, mod.Matches other
  · obtain ⟨other, hother, hmatch⟩ := hmatch
    obtain ⟨hdis, haddr⟩ := discards_eq_false hcanon hother hmatch
    simp only [hdis, haddr, Bool.false_eq_true, if_false]
    exact convertsAt_matched hinst hcanon hdec hother hmatch
  · have hlost : ∀ other ∈ canon, ¬ mod.Matches other :=
      fun other hother hm => hmatch ⟨other, hother, hm⟩
    simp only [discards_eq_true hlost hne, if_true]
    rw [convertsAt_discarded_iff hinst hcanon hdec]
    split
    · exact ⟨⟨hdec.2.1, ‹_›⟩, hlost⟩
    · exact fun hheld => absurd hheld.2 ‹_›

/-- The modules of an instance that are entered under the address of `c`: those of its name,
and, as unknown modules get the address 0, all unknown modules when `c` starts there. -/
def Claims (canon : List KernelModule) (c r : KernelModule) : Prop :=
  r.name = c.name ∨ c.start = 0 ∧ ∀ c' ∈ canon, c'.name ≠ r.name

instance (canon : List KernelModule) (c r : KernelModule) : Decidable (Claims canon c r) := by
  unfold Claims
  infer_instance

/-- The module whose entry counts for `c`. -/
def recorded (canon inst : List KernelModule) (c : KernelModule) : Option KernelModule :=
  (inst.filter fun r => Claims canon c r).getLast?

/-- When the conversion of an address on which `c` decides is right. -/
def WayBack (canon inst : List KernelModule) (c : KernelModule) (pc : UInt32) : Prop :=
  match recorded canon inst c with
  | none => c.Holds pc
  | some r => c.Matches r ∨
      if pc.toNat < (c.start + r.size.toNat) % 2 ^ 32 then
        c.Holds pc ∧ ∀ mod ∈ inst, ¬ c.Matches mod
      else c.Holds pc → ∃ mod ∈ inst, c.Matches mod ∧ mod.start = c.start

section

variable (hcanon : Layout canon)

include hcanon

theorem addrOf_eq_iff (hc : c ∈ canon) :
    (newCanonicalizer canon true).addrOf r = c.addr.toUInt32 ↔ Claims canon c r := by
  rw [newCanonicalizer_eq (ne_nil_of_mem hc), addrOf]
  by_cases hknown : ∃ c' ∈ canon, c'.name = r.name
  · obtain ⟨c', hc', hname⟩ := hknown
    have hlook := hcanon.lookup_name hc'
    rw [hname] at hlook
    rw [hlook, Option.map_some, Option.getD_some]
    constructor
    · intro haddr
      left
      by_contra hne
      refine (hcanon.apart c' hc' c hc fun heq => hne ?_).1 (congrArg toNat haddr)
      rw [← hname, heq]
    · rintro (heq | ⟨-, hunknown⟩)
      · rw [hcanon.names c' hc' c hc (hname.trans heq)]
      · exact absurd hname (hunknown c' hc')
  · have hunknown : ∀ c' ∈ canon, c'.name ≠ r.name := fun c' hc' h => hknown ⟨c', hc', h⟩
    rw [Layout.lookup_none hunknown]
    constructor
    · intro haddr
      exact .inr ⟨by rw [start, ← haddr]; rfl, hunknown⟩
    · rintro (heq | ⟨hzero, -⟩)
      · exact absurd heq.symm (hunknown c hc)
      · exact UInt32.toNat_inj.mp hzero.symm

theorem decanonicalize_lookup (hc : c ∈ canon) (inst : List KernelModule) :
    ((newCanonicalizer canon true).newInstance inst).decanonicalize.conversionHash.lookup
      c.addr.toUInt32 = (recorded canon inst c).map (newCanonicalizer canon true).toInstance := by
  rw [(newInstance_lookup (moduleKeys_ne_nil (ne_nil_of_mem hc)) inst _).2]
  congr 2
  refine filter_congr fun r _ => ?_
  rw [decide_eq_decide]
  exact addrOf_eq_iff hcanon hc

theorem recorded_discards (hc : c ∈ canon) (hr : recorded canon inst c = some r)
    (hmatch : ¬ c.Matches r) : (newCanonicalizer canon true).discards r := by
  refine discards_eq_true ?_ (ne_nil_of_mem hc)
  intro c' hc' hm
  have hclaims := of_decide_eq_true (mem_filter.mp (mem_of_getLast? hr)).2
  rcases hclaims with hname | ⟨-, hunknown⟩
  · obtain rfl := hcanon.names c' hc' c hc (hm.1.trans hname)
    exact hmatch hm.symm
  · exact hunknown c' hc' hm.1

/-- Without a recorded module all addresses up to the next module are dropped. -/
theorem convertsAt_none_iff (hdec : Decides canon c pc)
    (hr : recorded canon inst c = none) : ConvertsAt canon inst pc none ↔ c.Holds pc := by
  have hlost : ∀ mod ∈ inst, ¬ c.Matches mod := by
    intro mod hmod hm
    rw [recorded, getLast?_eq_none_iff, filter_eq_nil_iff] at hr
    exact hr mod hmod (decide_eq_true (.inl hm.1))
  by_cases hheld : c.Holds pc
  · simp [convertsAt_dropped hcanon hdec.1 hheld hlost, hheld]
  · simp [convertsAt_kept fun _ hmod => hdec.not_holds hcanon hheld hmod, hheld]

theorem decanonicalize_iff (hinst : Layout inst) (hdec : Decides canon c pc)
    (hfind : findModule pc (setModuleKeys canon) = some c.addr.toUInt32) :
    ConvertsAt canon inst pc
      (((newCanonicalizer canon true).newInstance inst).decanonicalize.convertPC pc) ↔
      WayBack canon inst c pc := by
  have hentry := decanonicalize_lookup hcanon hdec.1 inst
  rw [← (newInstance_keys (ne_nil_of_mem hdec.1) inst).2] at hfind
  unfold WayBack
  cases hr : recorded canon inst c with
  | none =>
    rw [hr] at hentry
    rw [Convert.convertPC, hfind]
    simp only [hentry, Option.map_none]
    exact convertsAt_none_iff hcanon hdec hr
  | some r =>
    rw [hr] at hentry
    have hmem := mem_filter.mp (mem_of_getLast? hr)
    have haddr := (addrOf_eq_iff hcanon hdec.1).mpr (of_decide_eq_true hmem.2)
    rw [convertPC_of_entry hfind hentry]
    have hend : pc < ((newCanonicalizer canon true).toInstance r).endAddr ↔
        pc.toNat < (c.start + r.size.toNat) % 2 ^ 32 := by
      rw [lt_iff_toNat_lt, toInstance, haddr, toNat_end]
      rfl
    by_cases hmatch : c.Matches r
    · have hstop : (c.start + r.size.toNat) % 2 ^ 32 = c.stop := by
        rw [hmatch.2]
        exact Nat.mod_eq_of_lt (hcanon.fits c hdec.1)
      obtain ⟨hdis, -⟩ := discards_eq_false hcanon hdec.1 hmatch.symm
      simp only [hend, hstop, hmatch, true_or, iff_true]
      simp only [toInstance, hdis, haddr, Bool.false_eq_true, if_false]
      exact convertsAt_matched hcanon hinst hdec hmem.1 hmatch
    · simp only [hend, hmatch, false_or]
      simp only [toInstance, recorded_discards hcanon hdec.1 hr hmatch, if_true]
      exact convertsAt_discarded_iff hcanon hinst hdec _

end

theorem back_of_convertsAt {convert back : UInt32 → Option UInt32}
    (hcan : ∀ pc, ConvertsAt inst canon pc (convert pc))
    (hdecan : ∀ pc, ConvertsAt canon inst pc (back pc)) (hmod : mod ∈ inst) (hpc : mod.Holds pc)
    (hother : other ∈ canon) (hmatch : mod.Matches other) : (convert pc).bind back = some pc := by
  obtain ⟨pc', hpc', hmove⟩ := (hcan pc).moved mod hmod hpc other hother hmatch
  obtain ⟨hstart, hstop⟩ := hpc
  have hheld : other.Holds pc' := by
    simp only [KernelModule.Holds, stop, hmatch.2] at hstop ⊢
    omega
  obtain ⟨pc'', hpc'', hback⟩ := (hdecan pc').moved other hother hheld mod hmod hmatch.symm
  rw [hpc', Option.bind_some, hpc'']
  congr 1
  exact UInt32.toNat_inj.mp (by omega)

/-- It is enough to look at single addresses. -/
theorem converts_iff_each (can : Canonicalizer) : Converts canon inst (can.newInstance inst) ↔
    (∀ pc, ConvertsAt inst canon pc ((can.newInstance inst).canonicalize.convertPC pc)) ∧
      ∀ pc, ConvertsAt canon inst pc ((can.newInstance inst).decanonicalize.convertPC pc) := by
  have hall {sign : Serial} := @newInstance_convertPCs sign can inst
  constructor
  · intro h
    exact ⟨(convertsPCs_iff fun cov sign hlen => (hall cov hlen).1).mp h.canonicalize,
      (convertsPCs_iff fun cov sign hlen => (hall cov hlen).2).mp h.decanonicalize⟩
  · rintro ⟨hcan, hdecan⟩
    refine ⟨⟨_, hcan, fun cov sign hlen => (hall cov hlen).1⟩,
      ⟨_, hdecan, fun cov sign hlen => (hall cov hlen).2⟩, fun cov sign hlen hmatched => ?_⟩
    have hback : ∀ pc ∈ cov ++ sign.elems, ((can.newInstance inst).canonicalize.convertPC pc).bind
        (can.newInstance inst).decanonicalize.convertPC = some pc := by
      intro pc hpc
      obtain ⟨mod, hmod, hheld, other, hother, hmatch⟩ := hmatched pc hpc
      exact back_of_convertsAt hcan hdecan hmod hheld hother hmatch
    rw [(hall cov hlen).1, Option.bind_some, (hall _ (by simp [convertedSignal])).2,
      filterMap_filterMap, convertedSignal_bind,
      filterMap_fixed fun pc hpc => hback pc (mem_append_left _ hpc),
      convertedSignal_fixed hlen fun e he => hback e (mem_append_right _ he)]

theorem converts_nil :
    Converts [] inst ((newCanonicalizer [] true).newInstance inst) ↔ ∀ mod ∈ inst, mod.size = 0 := by
  have hkeep : ∀ pc, ConvertsAt inst [] pc (some pc) ↔ ∀ mod ∈ inst, ¬ mod.Holds pc := by
    refine fun pc => ⟨fun h mod hmod hheld => ?_, fun h => (convertsAt_kept h).mpr rfl⟩
    cases h.dropped.mpr ⟨mod, hmod, hheld, by simp⟩
  rw [converts_iff_each]
  constructor
  · rintro ⟨h, -⟩ mod hmod
    by_contra hsize
    have hpos : 0 < mod.size.toNat :=
      Nat.pos_of_ne_zero fun hzero => hsize (UInt64.toNat_inj.mp hzero)
    exact (hkeep mod.addr.toUInt32).mp (h _) mod hmod ⟨Nat.le_refl _, Nat.lt_add_of_pos_right hpos⟩
  · intro hsize
    refine ⟨fun pc => (hkeep pc).mpr ?_, fun pc => (convertsAt_kept (by simp)).mpr rfl⟩
    rintro mod hmod ⟨hstart, hstop⟩
    rw [stop, hsize mod hmod] at hstop
    exact absurd hstart (Nat.not_le_of_lt hstop)

/-- The conversions do what they should if and only if, for every address on which a canonical
module decides, the entry recorded for that module ends where the module does, or the address
is on the same side of both ends. Without canonical modules there must be nothing to drop. -/
theorem converts_iff (hcanon : Layout canon) (hinst : Layout inst) :
    Converts canon inst ((newCanonicalizer canon true).newInstance inst) ↔
      (canon = [] → ∀ mod ∈ inst, mod.size = 0) ∧
        ∀ c pc, Decides canon c pc → WayBack canon inst c pc := by
  by_cases hne : canon = []
  · subst hne
    rw [converts_nil]
    simp [Decides]
  rw [converts_iff_each]
  constructor
  · rintro ⟨-, h⟩
    refine ⟨fun hnil => absurd hnil hne, fun c pc hdec => ?_⟩
    rcases findModule_cases canon pc with ⟨-, hbelow⟩ | ⟨mod, hfind, hdec'⟩
    · exact absurd hdec.2.1 (Nat.not_le_of_lt (hbelow c hdec.1))
    · obtain rfl := hcanon.decides_unique hdec hdec'
      exact (decanonicalize_iff hcanon hinst hdec hfind).mp (h pc)
  · rintro ⟨-, hback⟩
    refine ⟨canonicalize_converts hcanon hinst hne, fun pc => ?_⟩
    rcases findModule_cases canon pc with ⟨hfind, hbelow⟩ | ⟨c, hfind, hdec⟩
    · exact convertsAt_below (newInstance_keys hne inst).2 hbelow hfind
    · exact (decanonicalize_iff hcanon hinst hdec hfind).mpr (hback c pc hdec)

end Conversions

/-- Two modules of the canonical layout. -/
def sampleModules : List KernelModule := [⟨[0x61], 0x15000, 0x5000⟩, ⟨[0x62], 0x20000, 0x5000⟩]

/-- The same modules at other places. -/
def movedModules : List KernelModule := [⟨[0x62], 0x15000, 0x5000⟩, ⟨[0x61], 0x40000, 0x5000⟩]

theorem layout_sampleModules : Layout sampleModules := ⟨by decide, by decide, by decide⟩

theorem converts_movedModules : Layout sampleModules ∧ Layout movedModules ∧
    Converts sampleModules movedModules
      ((newCanonicalizer sampleModules true).newInstance movedModules) := by
  have hmoved : Layout movedModules := ⟨by decide, by decide, by decide⟩
  refine ⟨layout_sampleModules, hmoved,
    (converts_iff layout_sampleModules hmoved).mpr ⟨by decide, ?_⟩⟩
  have hrec : ∀ c ∈ sampleModules, ∃ r ∈ movedModules,
      recorded sampleModules movedModules c = some r ∧ c.Matches r := by decide
  intro c pc hdec
  obtain ⟨r, -, hr, hmatch⟩ := hrec c hdec.1
  unfold WayBack
  rw [hr]
  exact .inl hmatch

/-- An address behind a module that the instance lacks is dropped, although it lies in no
module. -/
theorem not_converts_missing : Layout sampleModules ∧ Layout (sampleModules.drop 1) ∧
    (∀ mod ∈ sampleModules, ¬ mod.Holds 0x1b000) ∧
    ((newCanonicalizer sampleModules true).newInstance (sampleModules.drop 1)).decanonicalizePCs
      [0x1b000] ⟨[0x1b000], [1]⟩ = some ([], ⟨[], []⟩) ∧
    ¬ Converts sampleModules (sampleModules.drop 1)
      ((newCanonicalizer sampleModules true).newInstance (sampleModules.drop 1)) := by
  have hgap : ∀ mod ∈ sampleModules, ¬ mod.Holds 0x1b000 := by decide
  have hdrop : ((newCanonicalizer sampleModules true).newInstance
      (sampleModules.drop 1)).decanonicalizePCs [0x1b000] ⟨[0x1b000], [1]⟩ =
      some ([], ⟨[], []⟩) := by decide +kernel
  refine ⟨layout_sampleModules, ⟨by decide, by decide, by decide⟩, hgap, hdrop, fun h => ?_⟩
  obtain ⟨convert, hconv⟩ := h.decanonicalize
  have hkept := (hconv.each 0x1b000).kept hgap
  have hall := hdrop.symm.trans (hconv.all [0x1b000] ⟨[0x1b000], [1]⟩ rfl)
  simp [hkept] at hall

end Brf.Cover
