import MuslBsd.Manifest.Build

/-! When what `build_manifest` returns passes `validate_manifest`. -/
namespace MuslBsd.Manifest

/-! ### Written records under validation -/

theorem optional_injective : Function.Injective optional := by
  intro s t h
  cases s <;> cases t <;> simp_all [optional]

theorem hasFields_ofFields (fields : List (Str × Json)) :
    (Dict.ofFields fields).HasFields (fields.map Prod.fst) :=
  ⟨fun _ h => h, fun _ h => h⟩

/-- A root under which the validator finds nothing wrong. -/
def RootRecord.Legal (r : RootRecord) : Prop :=
  r.file ≠ [] ∧ pathName r.file = r.file ∧ ∀ s, r.soname = some s → s ≠ [] ∧ pathName s = s

def MissingRecord.Legal (m : MissingRecord) : Prop := m.source ≠ [] ∧ m.name ≠ []

structure SymbolRecord.Legal (s : SymbolRecord) : Prop where
  nonEmpty : s.key.name ≠ [] ∧ s.key.version ≠ [] ∧ s.key.soname ≠ [] ∧ s.key.binding ≠ []
  name : '@'.toNat ∉ s.key.name
  version : SupportedVersion s.key.version
  binding : SupportedBinding s.key.binding
  soname : pathName s.key.soname = s.key.soname
  implementation : s.implementation ≠ []
  test : ∃ t, s.test = .str t ∧ t ≠ []
  quality : ∃ q, s.quality = .str q ∧ q ∈ QUALITIES

theorem rootOk_toDict {r : RootRecord} {t : List Str} :
    (∃ d file soname, RootOk r.toDict.toJson t d file soname) ↔ r.Legal ∧ t = r.tuple := by
  constructor
  · rintro ⟨d, file, soname, hd, -, ⟨hf, hne, hname⟩, ⟨hs, hsok⟩, rfl⟩
    obtain rfl := Dict.toJson_injective hd
    obtain rfl : r.file = file := Json.str.inj hf
    obtain rfl : r.soname = soname := optional_injective hs
    exact ⟨⟨hne, hname, hsok⟩, rfl⟩
  · rintro ⟨⟨hne, hname, hsok⟩, rfl⟩
    exact ⟨r.toDict, r.file, r.soname, rfl, hasFields_ofFields _, ⟨rfl, hne, hname⟩, ⟨rfl, hsok⟩, rfl⟩

theorem missingOk_toDict {m : MissingRecord} {t : List Str} :
    (∃ d source name, MissingOk m.toDict.toJson t d source name) ↔ m.Legal ∧ t = m.tuple := by
  constructor
  · rintro ⟨d, source, name, hd, -, ⟨hs, hsne⟩, ⟨hn, hnne⟩, rfl⟩
    obtain rfl := Dict.toJson_injective hd
    obtain rfl : m.source = source := Json.str.inj hs
    obtain rfl : m.name = name := Json.str.inj hn
    exact ⟨⟨hsne, hnne⟩, rfl⟩
  · rintro ⟨⟨hsne, hnne⟩, rfl⟩
    exact ⟨m.toDict, m.source, m.name, rfl, hasFields_ofFields _, ⟨rfl, hsne⟩, ⟨rfl, hnne⟩, rfl⟩

theorem hasKey_toDict {s : SymbolRecord} (h : s.key.name ≠ [] ∧ s.key.version ≠ [] ∧
    s.key.soname ≠ [] ∧ s.key.binding ≠ []) : HasKey s.toDict s.key :=
  ⟨⟨rfl, h.1⟩, ⟨rfl, h.2.1⟩, ⟨rfl, h.2.2.1⟩, ⟨rfl, h.2.2.2⟩⟩

theorem symbolOk_toDict {s : SymbolRecord} {k : Key} :
    (∃ d, SymbolOk s.toDict.toJson k d) ↔ s.Legal ∧ k = s.key := by
  constructor
  · rintro ⟨d, hd, -, hk, hn, hv, hb, hs, ⟨i, hi, hine⟩, ⟨t, ht, htne⟩, hq⟩
    obtain rfl := Dict.toJson_injective hd
    have hname : s.key.name = k.name := Json.str.inj hk.name.1
    have hversion : s.key.version = k.version := Json.str.inj hk.version.1
    have hsoname : s.key.soname = k.soname := Json.str.inj hk.soname.1
    have hbinding : s.key.binding = k.binding := Json.str.inj hk.binding.1
    have himpl : s.implementation = i := Json.str.inj hi
    have hkey : k = s.key := by
      cases k
      simp only at hname hversion hsoname hbinding
      rw [← hname, ← hversion, ← hsoname, ← hbinding]
    subst hkey
    exact ⟨⟨⟨hk.name.2, hk.version.2, hk.soname.2, hk.binding.2⟩, hn, hv, hb, hs, himpl ▸ hine,
      ⟨t, ht, htne⟩, hq⟩, rfl⟩
  · rintro ⟨h, rfl⟩
    obtain ⟨t, ht, htne⟩ := h.test
    exact ⟨s.toDict, rfl, hasFields_ofFields _, hasKey_toDict h.nonEmpty, h.name, h.version,
      h.binding, h.soname, ⟨_, rfl, h.implementation⟩, ⟨t, ht, htne⟩, h.quality⟩

theorem forall₂_map_iff {α β γ : Type} {R : β → γ → Prop} {P : α → Prop} {f : α → β} {g : α → γ}
    (h : ∀ a c, R (f a) c ↔ P a ∧ c = g a) {as : List α} {cs : List γ} :
    List.Forall₂ R (as.map f) cs ↔ (∀ a ∈ as, P a) ∧ cs = as.map g := by
  induction as generalizing cs with
  | nil => simp
  | cons a as ih =>
    simp only [List.map_cons, List.forall₂_cons_left_iff, h, ih, List.mem_cons, forall_eq_or_imp]
    constructor
    · rintro ⟨c, cs', ⟨hP, rfl⟩, ⟨hall, rfl⟩, rfl⟩
      exact ⟨⟨hP, hall⟩, rfl⟩
    · rintro ⟨⟨hP, hall⟩, rfl⟩
      exact ⟨g a, as.map g, ⟨hP, rfl⟩, ⟨hall, rfl⟩, rfl⟩

/-- What the validator asks of a manifest that the builder writes. -/
theorem validate_generated_iff (m : GeneratedManifest) : validateManifest m.toDict = .ok () ↔
    ((∀ r ∈ m.sourceRoots, r.Legal) ∧ (m.sourceRoots.map RootRecord.tuple).Pairwise (· < ·)) ∧
    ((∀ d ∈ m.missingDependencies, d.Legal) ∧
      (m.missingDependencies.map MissingRecord.tuple).Pairwise (· < ·)) ∧
    (∀ s ∈ m.symbols, s.Legal) ∧ (m.symbols.map fun s => s.key.tuple).Pairwise (· < ·) := by
  rw [validateManifest_eq_ok]
  constructor
  · rintro ⟨roots, missing, symbols, rts, mts, keys, h⟩
    obtain rfl := Json.arr.inj h.roots_eq
    obtain rfl := Json.arr.inj h.missing_eq
    obtain rfl := Json.arr.inj h.symbols_eq
    obtain ⟨hr, rfl⟩ := (forall₂_map_iff fun _ _ => rootOk_toDict).mp h.rootsOk
    obtain ⟨hm, rfl⟩ := (forall₂_map_iff fun _ _ => missingOk_toDict).mp h.missingOk
    obtain ⟨hs, rfl⟩ := (forall₂_map_iff fun _ _ => symbolOk_toDict).mp h.symbolsOk
    have hsorted := h.symbolsSorted
    rw [List.map_map] at hsorted
    exact ⟨⟨hr, h.rootsSorted⟩, ⟨hm, h.missingSorted⟩, hs, hsorted⟩
  · rintro ⟨⟨hr, hrs⟩, ⟨hm, hms⟩, hs, hss⟩
    have hschema : Json.eq (m.toDict.val (str "schema")) SCHEMA_VERSION = true :=
      show Json.eq SCHEMA_VERSION SCHEMA_VERSION = true by decide
    have hscope : Json.eq (m.toDict.val (str "scope")) (.str SCOPE) = true :=
      show Json.eq (.str SCOPE) (.str SCOPE) = true from Json.eq_str.mpr rfl
    have hpolicy : Json.eq (m.toDict.val (str "matching_policy")) (.str MATCHING_POLICY) = true :=
      show Json.eq (.str MATCHING_POLICY) (.str MATCHING_POLICY) = true from Json.eq_str.mpr rfl
    refine ⟨_, _, _, m.sourceRoots.map RootRecord.tuple, m.missingDependencies.map MissingRecord.tuple,
      m.symbols.map SymbolRecord.key, hasFields_ofFields _, hschema, hscope, hpolicy, rfl,
      (forall₂_map_iff fun _ _ => rootOk_toDict).mpr ⟨hr, rfl⟩, hrs, rfl,
      (forall₂_map_iff fun _ _ => missingOk_toDict).mpr ⟨hm, rfl⟩, hms, rfl,
      (forall₂_map_iff fun _ _ => symbolOk_toDict).mpr ⟨hs, rfl⟩, ?_⟩
    rwa [List.map_map]

/-! ### What the builder makes sure of -/

/-- Sorted records are in strict order if and only if no two of them are alike. -/
theorem sorted_map_iff {α : Type} (f : α → List Str) (l : List α) :
    ((l.insertionSort fun a b => f a ≤ f b).map f).Pairwise (· < ·) ↔ (l.map f).Nodup := by
  have hsorted : ((l.insertionSort fun a b => f a ≤ f b).map f).Pairwise (· ≤ ·) := by
    rw [List.map_insertionSort (fun a b => f a ≤ f b) (· ≤ ·) f l fun _ _ _ _ => Iff.rfl]
    exact List.pairwise_insertionSort _ _
  have hperm : ((l.insertionSort fun a b => f a ≤ f b).map f).Perm (l.map f) :=
    (List.perm_insertionSort _ l).map f
  rw [← hperm.nodup_iff]
  constructor
  · intro h
    exact h.imp fun hlt => ne_of_lt hlt
  · intro h
    exact (hsorted.and h).imp fun ⟨hle, hne⟩ => lt_of_le_of_ne hle hne

/-- What a successful run has read and made. -/
structure Built (inventory : Dict) (base : Option Dict) (m : GeneratedManifest)
    (requirements : List Dict) (implementations : List (Key × Str))
    (policies : List (Key × Policy)) (symbols : List SymbolRecord) (roots : List (Str × Option Str))
    (missing : List (Str × Str)) : Prop where
  requirements_eq : inventoryRequirements inventory = .ok (requirements, implementations)
  policies_eq : basePolicies base = .ok policies
  symbols_eq : mapIndexed (buildSymbol policies implementations) 0 requirements = .ok symbols
  roots_eq : rootReports inventory = .ok roots
  missing_eq : missingReports inventory = .ok missing
  sourceRoots : m.sourceRoots = (roots.map fun r => ⟨pathName r.1, r.2⟩).insertionSort
    fun a b : RootRecord => a.tuple ≤ b.tuple
  missingDependencies : m.missingDependencies = (missing.map fun d => ⟨pathName d.1, d.2⟩).insertionSort
    fun a b : MissingRecord => a.tuple ≤ b.tuple
  symbols : m.symbols = symbols.insertionSort fun a b => a.key.tuple ≤ b.key.tuple

theorem buildManifest_eq_ok {inventory : Dict} {base : Option Dict} {m : GeneratedManifest} :
    buildManifest inventory base = .ok m ↔
      ∃ requirements implementations policies symbols roots missing,
        Built inventory base m requirements implementations policies symbols roots missing := by
  simp only [buildManifest, sourceRoots, missingDependencies, bind_eq_ok, pure_eq_ok]
  constructor
  · rintro ⟨⟨requirements, implementations⟩, hreq, policies, hpol, symbols, hsym, roots,
      ⟨reports, hreports, rfl⟩, missing, ⟨deps, hdeps, rfl⟩, rfl⟩
    exact ⟨requirements, implementations, policies, symbols, reports, deps, hreq, hpol, hsym,
      hreports, hdeps, rfl, rfl, rfl⟩
  · rintro ⟨requirements, implementations, policies, symbols, reports, deps, h⟩
    refine ⟨⟨requirements, implementations⟩, h.requirements_eq, policies, h.policies_eq, symbols,
      h.symbols_eq, _, ⟨reports, h.roots_eq, rfl⟩, _, ⟨deps, h.missing_eq, rfl⟩, ?_⟩
    rw [← h.sourceRoots, ← h.missingDependencies, ← h.symbols]

theorem buildSymbol_eq_ok {policies : List (Key × Policy)} {implementations : List (Key × Str)}
    {index : ℕ} {requirement : Dict} {s : SymbolRecord}
    (h : buildSymbol policies implementations index requirement = .ok s) :
    HasInventoryKey requirement s.key ∧ dictGet implementations s.key = some s.implementation ∧
      (s.test, s.quality) = (dictGet policies s.key).getD defaultPolicy := by
  simp only [buildSymbol, bind_eq_ok] at h
  obtain ⟨key, hkey, h⟩ := h
  cases hi : dictGet implementations key with
  | none =>
    rw [hi] at h
    cases h
  | some i =>
    rw [hi] at h
    obtain rfl := pure_eq_ok.mp h
    exact ⟨.of_ok hkey, hi, rfl⟩

theorem basePolicy_eq_ok (index : ℕ) (x : Json) (p : Key × Policy) :
    basePolicy index x = .ok p ↔ ∃ d : Dict, x = d.toJson ∧ HasKey d p.1 ∧
      (str "test" ∈ d.keys ∧ d.val (str "test") = p.2.1) ∧
      str "quality" ∈ d.keys ∧ d.val (str "quality") = p.2.2 := by
  simp only [basePolicy, bind_eq_ok, asDict_eq_ok, manifestKey_eq_ok, item_eq_ok, pure_eq_ok]
  constructor
  · rintro ⟨d, hd, k, hk, t, ht, q, hq, rfl⟩
    exact ⟨d, hd, hk, ht, hq⟩
  · rintro ⟨d, hd, hk, ht, hq⟩
    exact ⟨d, hd, p.1, hk, p.2.1, ht, p.2.2, hq, rfl⟩

/-- The policies of a valid manifest are those of its symbols, one by one. -/
theorem basePolicies_of_valid {base : Dict} {roots missing symbols : List Json}
    {rts mts : List (List Str)} {keys : List Key} {policies : List (Key × Policy)}
    (hv : ValidManifest base roots missing symbols rts mts keys)
    (h : basePolicies (some base) = .ok policies) :
    List.Forall₂ (fun x p => ∃ d : Dict, x = d.toJson ∧ HasKey d p.1 ∧
      d.val (str "test") = p.2.1 ∧ d.val (str "quality") = p.2.2) symbols policies := by
  simp only [basePolicies, manifestSymbols, bind_eq_ok, item_eq_ok] at h
  obtain ⟨-, -, items, ⟨x, ⟨-, hx⟩, hitems⟩, h⟩ := h
  rw [hv.symbols_eq] at hx
  subst hx
  obtain rfl := pure_eq_ok.mp hitems
  refine mapIndexed_forall₂ (fun i x p hp => ?_) h
  obtain ⟨d, hd, hk, ht, hq⟩ := (basePolicy_eq_ok i x p).mp hp
  exact ⟨d, hd, hk, ht.2, hq.2⟩

/-- A policy that the validator has nothing against. -/
def LegalPolicy (p : Policy) : Prop :=
  (∃ t, p.1 = .str t ∧ t ≠ []) ∧ ∃ q, p.2 = .str q ∧ q ∈ QUALITIES

theorem legalPolicy_default : LegalPolicy defaultPolicy :=
  ⟨⟨_, rfl, by decide⟩, _, rfl, by decide⟩

theorem legalPolicy_of_forall₂ {symbols : List Json} {policies : List (Key × Policy)} {keys : List Key}
    (hok : List.Forall₂ (fun x key => ∃ d, SymbolOk x key d) symbols keys)
    (hp : List.Forall₂ (fun x p => ∃ d : Dict, x = d.toJson ∧ HasKey d p.1 ∧
      d.val (str "test") = p.2.1 ∧ d.val (str "quality") = p.2.2) symbols policies) :
    ∀ p ∈ policies, LegalPolicy p.2 := by
  induction hok generalizing policies with
  | nil =>
    cases hp
    simp
  | cons hx _ ih =>
    cases hp with
    | cons hy hp =>
      intro p hmem
      rcases List.mem_cons.mp hmem with rfl | hmem
      · obtain ⟨d, hd⟩ := hx
        obtain ⟨e, he, -, ht, hq⟩ := hy
        obtain rfl := Dict.toJson_injective (hd.item_eq.symm.trans he)
        obtain ⟨t, htest, hne⟩ := hd.test
        have hmem : str "test" ∈ d.keys := hd.fields_ok.2 _ (by decide)
        rw [Dict.get_of_mem hmem, ht] at htest
        obtain ⟨q, hquality, hqual⟩ := hd.quality
        exact ⟨⟨t, htest, hne⟩, q, hq.symm.trans hquality, hqual⟩
      · exact ih hp p hmem

theorem basePolicies_legal {base : Option Dict} {policies : List (Key × Policy)}
    (h : basePolicies base = .ok policies) : ∀ p ∈ policies, LegalPolicy p.2 := by
  cases base with
  | none =>
    obtain rfl := pure_eq_ok.mp h
    simp
  | some base =>
    have hvalid : validateManifest base = .ok () := by
      simp only [basePolicies, bind_eq_ok] at h
      obtain ⟨_, hv, _⟩ := h
      exact hv
    obtain ⟨_, _, _, _, _, _, hv⟩ := validateManifest_eq_ok.mp hvalid
    exact legalPolicy_of_forall₂ hv.symbolsOk (basePolicies_of_valid hv h)

/-- The keys of what the loop appends are those of the requirements. -/
theorem buildSymbols_keys {policies : List (Key × Policy)} {implementations : List (Key × Str)}
    {requirements : List Dict} {keys : List Key} {symbols : List SymbolRecord}
    (hk : List.Forall₂ HasInventoryKey requirements keys)
    (h : mapIndexed (buildSymbol policies implementations) 0 requirements = .ok symbols) :
    symbols.map SymbolRecord.key = keys := by
  have hs := mapIndexed_forall₂ (R := fun d s => HasInventoryKey d (SymbolRecord.key s))
    (fun _ _ _ h => (buildSymbol_eq_ok h).1) h
  clear h
  induction hk generalizing symbols with
  | nil =>
    cases hs
    rfl
  | cons hd _ ih =>
    cases hs with
    | cons hd' hs => rw [List.map_cons, ih hs, hd'.unique hd]

namespace Built

variable {inventory : Dict} {base : Option Dict} {m : GeneratedManifest} {requirements : List Dict}
  {implementations : List (Key × Str)} {policies : List (Key × Policy)} {symbols : List SymbolRecord}
  {roots : List (Str × Option Str)} {missing : List (Str × Str)}

/-- The symbols are in strict order. -/
theorem strict (hb : Built inventory base m requirements implementations policies symbols roots
    missing) : (m.symbols.map fun s => s.key.tuple).Pairwise (· < ·) := by
  obtain ⟨⟨keys, hkeys, hnodup⟩, -⟩ := inventoryRequirements_spec hb.requirements_eq
  have hmap : symbols.map (fun s => s.key.tuple) = keys.map Key.tuple := by
    rw [← buildSymbols_keys hkeys hb.symbols_eq, List.map_map]
    rfl
  rw [hb.symbols, sorted_map_iff, hmap]
  exact hnodup.map Key.tuple_injective

/-- The symbols have keys that can be read back. -/
theorem hasKey (hb : Built inventory base m requirements implementations policies symbols roots
    missing) : ∀ s ∈ m.symbols, HasKey s.toDict s.key := by
  intro s hs
  rw [hb.symbols, List.mem_insertionSort] at hs
  have hall := mapIndexed_forall₂ (R := fun _ s => HasKey (SymbolRecord.toDict s) s.key)
    (fun i d s h => by
      have hk := (buildSymbol_eq_ok h).1
      exact hasKey_toDict ⟨hk.name.2, hk.version.2, hk.library.2, hk.binding.2⟩) hb.symbols_eq
  exact forall₂_right hall s hs

end Built

/-! ### When a generated manifest is valid -/

/-- Names of the inventory that are as the validator wants them: no root and no source of a missing
dependency without a basename, none that the basename makes equal to another, and nothing in a
SONAME, a library or a symbol's name that the inventory alone may have. -/
structure Conforming (inventory : Dict) : Prop where
  roots : ∀ reports, rootReports inventory = .ok reports →
    (∀ r ∈ reports, pathName r.1 ≠ [] ∧ ∀ s, r.2 = some s → pathName s = s) ∧
    (reports.map fun r => [pathName r.1, r.2.getD []]).Nodup
  missing : ∀ reports, missingReports inventory = .ok reports →
    (∀ m ∈ reports, pathName m.1 ≠ []) ∧ (reports.map fun m => [pathName m.1, m.2]).Nodup
  symbols : ∀ requirements implementations,
    inventoryRequirements inventory = .ok (requirements, implementations) →
    ∀ d ∈ requirements, ∀ k, HasInventoryKey d k → '@'.toNat ∉ k.name ∧ pathName k.soname = k.soname

theorem rootReport_soname_ne_nil {byPath : List (Str × Dict)} {index : ℕ} {x : Json}
    {r : Str × Option Str} (h : rootReport byPath index x = .ok r) : ∀ s, r.2 = some s → s ≠ [] := by
  unfold rootReport at h
  split at h
  · split at h
    · cases h
    · split at h
      · obtain rfl := Except.ok.inj h
        simp
      · obtain rfl := Except.ok.inj h
        rintro s ⟨⟩
        simp
      · cases h
  · cases h

theorem missingReport_name_ne_nil {index : ℕ} {x : Json} {m : Str × Str}
    (h : missingReport index x = .ok m) : m.2 ≠ [] := by
  simp only [missingReport, bind_eq_ok, requireString_eq_ok, pure_eq_ok] at h
  obtain ⟨_, _, _, _, name, ⟨-, hne⟩, rfl⟩ := h
  exact hne

theorem rootReports_soname_ne_nil {inventory : Dict} {reports : List (Str × Option Str)}
    (h : rootReports inventory = .ok reports) : ∀ r ∈ reports, ∀ s, r.2 = some s → s ≠ [] := by
  simp only [rootReports, bind_eq_ok] at h
  obtain ⟨_, _, _, _, h⟩ := h
  exact forall₂_right (mapIndexed_forall₂ (fun _ _ _ => rootReport_soname_ne_nil) h)

theorem missingReports_name_ne_nil {inventory : Dict} {reports : List (Str × Str)}
    (h : missingReports inventory = .ok reports) : ∀ m ∈ reports, m.2 ≠ [] := by
  simp only [missingReports, bind_eq_ok] at h
  obtain ⟨_, _, h⟩ := h
  exact forall₂_right (mapIndexed_forall₂ (fun _ _ _ => missingReport_name_ne_nil) h)

/-- The generated roots are legal, in strict order, if and only if the reported ones conform. -/
theorem roots_legal_iff {reports : List (Str × Option Str)}
    (hne : ∀ r ∈ reports, ∀ s, r.2 = some s → s ≠ []) {roots : List RootRecord}
    (hroots : roots = (reports.map fun r => ⟨pathName r.1, r.2⟩).insertionSort
      fun a b : RootRecord => a.tuple ≤ b.tuple) :
    (∀ r ∈ roots, r.Legal) ∧ (roots.map RootRecord.tuple).Pairwise (· < ·) ↔
      (∀ r ∈ reports, pathName r.1 ≠ [] ∧ ∀ s, r.2 = some s → pathName s = s) ∧
      (reports.map fun r => [pathName r.1, r.2.getD []]).Nodup := by
  subst hroots
  rw [sorted_map_iff, List.map_map]
  refine and_congr ?_ Iff.rfl
  constructor
  · intro h r hr
    obtain ⟨hfile, -, hs⟩ := h ⟨pathName r.1, r.2⟩
      ((List.mem_insertionSort _).mpr (List.mem_map.mpr ⟨r, hr, rfl⟩))
    exact ⟨hfile, fun s he => (hs s he).2⟩
  · intro h r hr
    obtain ⟨report, hmem, rfl⟩ := List.mem_map.mp ((List.mem_insertionSort _).mp hr)
    obtain ⟨hfile, hs⟩ := h report hmem
    exact ⟨hfile, pathName_pathName _, fun s he => ⟨hne report hmem s he, hs s he⟩⟩

theorem missing_legal_iff {reports : List (Str × Str)} (hne : ∀ m ∈ reports, m.2 ≠ [])
    {missing : List MissingRecord}
    (hmissing : missing = (reports.map fun d => ⟨pathName d.1, d.2⟩).insertionSort
      fun a b : MissingRecord => a.tuple ≤ b.tuple) :
    (∀ m ∈ missing, m.Legal) ∧ (missing.map MissingRecord.tuple).Pairwise (· < ·) ↔
      (∀ m ∈ reports, pathName m.1 ≠ []) ∧ (reports.map fun m => [pathName m.1, m.2]).Nodup := by
  subst hmissing
  rw [sorted_map_iff, List.map_map]
  refine and_congr ?_ Iff.rfl
  constructor
  · intro h m hm
    exact (h ⟨pathName m.1, m.2⟩
      ((List.mem_insertionSort _).mpr (List.mem_map.mpr ⟨m, hm, rfl⟩))).1
  · intro h m hm
    obtain ⟨report, hmem, rfl⟩ := List.mem_map.mp ((List.mem_insertionSort _).mp hm)
    exact ⟨h report hmem, hne report hmem⟩

/-- A symbol that is built is legal if its names are. -/
theorem buildSymbol_legal_iff {policies : List (Key × Policy)} {implementations : List (Key × Str)}
    {index : ℕ} {requirement : Dict} {s : SymbolRecord}
    (hp : ∀ p ∈ policies, LegalPolicy p.2) (hi : ∀ k t, (k, t) ∈ implementations → t ≠ [])
    (h : buildSymbol policies implementations index requirement = .ok s) :
    s.Legal ↔ '@'.toNat ∉ s.key.name ∧ pathName s.key.soname = s.key.soname := by
  obtain ⟨hk, himpl, hpol⟩ := buildSymbol_eq_ok h
  constructor
  · intro h
    exact ⟨h.name, h.soname⟩
  · rintro ⟨hname, hsoname⟩
    have hlegal : LegalPolicy (s.test, s.quality) := by
      rw [hpol]
      cases hd : dictGet policies s.key with
      | none => exact legalPolicy_default
      | some p => exact hp (s.key, p) (dictGet_mem hd)
    exact ⟨⟨hk.name.2, hk.version.2, hk.library.2, hk.binding.2⟩, hname, hk.supportedVersion,
      hk.supportedBinding, hsoname, hi _ _ (dictGet_mem himpl), hlegal.1, hlegal.2⟩

theorem forall₂_forall_iff {α β : Type} {R : α → β → Prop} {P : α → Prop} {Q : β → Prop}
    (h : ∀ a b, R a b → (Q b ↔ P a)) {as : List α} {bs : List β} (hr : List.Forall₂ R as bs) :
    (∀ b ∈ bs, Q b) ↔ ∀ a ∈ as, P a := by
  induction hr with
  | nil => simp
  | cons hab _ ih => simp [h _ _ hab, ih]

/-- A generated manifest is valid if and only if the inventory's names conform. -/
theorem validate_build_iff {inventory : Dict} {base : Option Dict} {m : GeneratedManifest}
    (h : buildManifest inventory base = .ok m) :
    validateManifest m.toDict = .ok () ↔ Conforming inventory := by
  obtain ⟨requirements, implementations, policies, symbols, roots, missing, hb⟩ :=
    buildManifest_eq_ok.mp h
  obtain ⟨-, hi⟩ := inventoryRequirements_spec hb.requirements_eq
  have hp := basePolicies_legal hb.policies_eq
  have hlegal : (∀ s ∈ m.symbols, s.Legal) ↔ ∀ d ∈ requirements, ∀ k, HasInventoryKey d k →
      '@'.toNat ∉ k.name ∧ pathName k.soname = k.soname := by
    have hmem : (∀ s ∈ m.symbols, s.Legal) ↔ ∀ s ∈ symbols, s.Legal := by
      simp only [hb.symbols, List.mem_insertionSort]
    rw [hmem]
    refine forall₂_forall_iff (R := fun d s => HasInventoryKey d (SymbolRecord.key s) ∧
      (s.Legal ↔ '@'.toNat ∉ s.key.name ∧ pathName s.key.soname = s.key.soname)) (fun d s hds => ?_)
      (mapIndexed_forall₂ (fun _ _ _ hs => ⟨(buildSymbol_eq_ok hs).1,
        buildSymbol_legal_iff hp hi hs⟩) hb.symbols_eq)
    rw [hds.2]
    constructor
    · intro hs k hk
      rwa [hk.unique hds.1]
    · intro hs
      exact hs _ hds.1
  have hroots := roots_legal_iff (rootReports_soname_ne_nil hb.roots_eq) hb.sourceRoots
  have hmissing := missing_legal_iff (missingReports_name_ne_nil hb.missing_eq) hb.missingDependencies
  rw [validate_generated_iff, hroots, hmissing, hlegal]
  constructor
  · rintro ⟨hr, hm, hs, -⟩
    refine ⟨fun reports he => ?_, fun reports he => ?_, fun reqs impls he => ?_⟩
    · obtain rfl := Except.ok.inj (hb.roots_eq.symm.trans he)
      exact hr
    · obtain rfl := Except.ok.inj (hb.missing_eq.symm.trans he)
      exact hm
    · obtain ⟨rfl, -⟩ := Prod.mk.inj (Except.ok.inj (hb.requirements_eq.symm.trans he))
      exact hs
  · intro hc
    exact ⟨hc.roots _ hb.roots_eq, hc.missing _ hb.missing_eq, hc.symbols _ _ hb.requirements_eq,
      hb.strict⟩

/-- An inventory of roots that need nothing. -/
def bareInventory (roots : List Str) : Dict :=
  .ofFields [(str "summary", (Dict.ofFields [(str "required_glibc_symbols", .arr [])]).toJson),
    (str "provider_analysis", (Dict.ofFields [(str "matching_policy", .str MATCHING_POLICY),
      (str "missing_count", count 0), (str "provided", .arr []), (str "unresolved_weak", .arr []),
      (str "provided_count", count 0), (str "unresolved_weak_count", count 0)]).toJson),
    (str "roots", .arr (roots.map .str)),
    (str "objects", .arr (roots.map fun r => (Dict.ofFields [(str "path", .str r)]).toJson)),
    (str "missing_dependencies", .arr [])]

theorem validate_build_bare : validateManifest (GeneratedManifest.mk [⟨str "x", none⟩] [] []).toDict =
    .ok () ↔ Conforming (bareInventory [str "/a/x"]) :=
  validate_build_iff (show buildManifest (bareInventory [str "/a/x"]) none = .ok _ from rfl)

/-- Two roots with one basename make a manifest that is not valid. -/
theorem validate_build_duplicate : ∃ m, buildManifest (bareInventory [str "/a/x", str "/b/x"]) none =
    .ok m ∧ validateManifest m.toDict = .error (.manifest (.duplicates (str "source_roots"))) :=
  ⟨_, rfl, rfl⟩

end MuslBsd.Manifest
