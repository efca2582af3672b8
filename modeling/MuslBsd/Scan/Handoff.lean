import MuslBsd.Manifest.Inventory
import MuslBsd.Scan.Providers
import MuslBsd.Scan.SymbolTable

/-! The report of `nvidia-scan` as the inventory that `nvidia-manifest` builds a manifest from. -/
namespace MuslBsd.Scan
open MuslBsd.Support
open MuslBsd.Manifest (Str str Json Dict HasInventoryKey Unambiguous)

/-! ### What the scanner writes -/

/-- The key that `nvidia-manifest` has for a symbol. -/
def UndefinedSymbol.requirementKey (u : UndefinedSymbol) : Manifest.Key :=
  ⟨u.name, u.version.getD [], u.library.getD [], u.binding⟩

/-- A symbol that a manifest can have. -/
structure UndefinedSymbol.Supported (u : UndefinedSymbol) : Prop where
  binding : u.binding = str "global" ∨ u.binding = str "weak"
  version : u.version ≠ some (str "GLIBC_PRIVATE")
  library : ∃ l, u.library = some l ∧ l ≠ []

/-- The report of an object, before or after its dependencies are resolved. -/
def Report.Decoded (r : Report) : Prop :=
  ∃ path data elf report needed, value (elfFile path data) = .ok elf ∧
    value elf.report = .ok report ∧ r = { report with needed := needed }

theorem Report.Decoded.name_ne_nil {r : Report} (h : r.Decoded) :
    ∀ u ∈ r.undefinedSymbols, u.name ≠ [] := by
  obtain ⟨_, _, elf, report, _, _, hreport, rfl⟩ := h
  obtain ⟨symbols, _, _, hundefined⟩ := ElfFile.report_ok hreport
  intro u hu
  rw [hundefined, ElfFile.mem_undefinedRecords] at hu
  obtain ⟨s, _, _, hname, rfl⟩ := hu
  exact hname

/-- The fields of a symbol, alone or in front of others, have its key. -/
theorem hasInventoryKey {u : UndefinedSymbol} (hname : u.name ≠ []) (hglibc : u.IsGlibc)
    (h : u.Supported) (rest : List (Str × Json)) :
    HasInventoryKey (.ofFields (u.fields ++ rest)) u.requirementKey := by
  obtain ⟨name, version, library, binding, hidden⟩ := u
  obtain ⟨hbinding, hversion, l, hl, hlne⟩ := h
  simp only at hname hbinding hversion hl
  cases version with
  | none => cases hglibc
  | some v =>
    have hstarts : str "GLIBC_" <+: v := List.isPrefixOf_iff_prefix.mp hglibc
    have hv : v ≠ [] := by
      rintro rfl
      cases hglibc
    have hb : binding ≠ [] := by
      rcases hbinding with rfl | rfl <;> decide
    subst hl
    exact ⟨⟨rfl, hname⟩, ⟨rfl, hv⟩, ⟨rfl, hlne⟩, ⟨rfl, hb⟩,
      ⟨hstarts, fun he => hversion (congrArg some he)⟩, hbinding⟩

/-! ### What the analysis finds -/

/-- What provides which requirement, and what is left. -/
structure Analyses (provider : UndefinedSymbol → Option ProvidedSymbol)
    (requirements : List UndefinedSymbol) (a : Analysis) : Prop where
  provides : ∀ u p, provider u = some p → p.requirement = u ∧ p.providedSymbol ≠ [] ∧
    p.providers ≠ [] ∧ ∀ q ∈ p.providers, q ≠ []
  policy : a.matchingPolicy = Manifest.MATCHING_POLICY
  providedCount : a.providedCount = a.provided.length
  missingCount : a.missingCount = a.missing.length
  unresolvedWeakCount : a.unresolvedWeakCount = a.unresolvedWeak.length
  provided : a.provided = requirements.filterMap provider
  missing : a.missing =
    (requirements.filter fun u => provider u = none).filter fun u => u.binding ≠ str "weak"
  unresolvedWeak : a.unresolvedWeak =
    (requirements.filter fun u => provider u = none).filter fun u => u.binding = str "weak"

theorem exportedSymbolNames_ne_nil {elf : ElfFile} {names : List Str}
    (h : value elf.exportedSymbolNames = .ok names) : ∀ s ∈ names, s ≠ [] := by
  obtain ⟨⟨symbols, _⟩, _, hnames⟩ := bind_eq_ok.mp h
  obtain rfl := Except.ok.inj hnames
  intro s hs
  obtain ⟨symbol, hsymbol, rfl⟩ := List.mem_map.mp (List.mem_dedup.mp hs)
  have hexported := of_decide_eq_true (List.mem_filter.mp hsymbol).2
  exact hexported.1

namespace FileSystem

variable {fs : FileSystem}

theorem providerSymbols_ok {paths : List Path} {providers : List Provider}
    (h : value (fs.providerSymbols paths) = .ok providers) :
    ∀ p ∈ providers, p.path ≠ [] ∧ ∀ s ∈ p.symbols, s ≠ [] := by
  induction paths generalizing providers with
  | nil =>
    obtain rfl := Except.ok.inj h
    exact fun p hp => absurd hp List.not_mem_nil
  | cons path paths ih =>
    obtain ⟨elf, _, h⟩ := bind_eq_ok.mp h
    obtain ⟨symbols, hsymbols, h⟩ := bind_eq_ok.mp h
    split at h
    · cases h
    · obtain ⟨rest, hrest, h⟩ := bind_eq_ok.mp h
      obtain rfl := Except.ok.inj h
      intro p hp
      rcases List.mem_cons.mp hp with rfl | hp
      · exact ⟨path.toStr_ne_nil, exportedSymbolNames_ne_nil hsymbols⟩
      · exact ih hrest p hp

theorem providedBy_spec {providers : List Provider} {aliases : List (Str × Str)}
    (h : ∀ p ∈ providers, p.path ≠ [] ∧ ∀ s ∈ p.symbols, s ≠ []) {u : UndefinedSymbol}
    {p : ProvidedSymbol} (hp : providedBy providers aliases u = some p) :
    p.requirement = u ∧ p.providedSymbol ≠ [] ∧ p.providers ≠ [] ∧ ∀ q ∈ p.providers, q ≠ [] := by
  simp only [providedBy] at hp
  cases hnames : sortedSet strKey
      (symbolProviders providers ((aliases.lookup u.name).getD u.name)) with
  | nil =>
    rw [hnames] at hp
    cases hp
  | cons name names =>
    rw [hnames] at hp
    obtain rfl := Option.some.inj hp
    have hmem : ∀ q ∈ name :: names, ∃ provider ∈ providers,
        (aliases.lookup u.name).getD u.name ∈ provider.symbols ∧ provider.path = q := by
      intro q hq
      rw [← hnames, mem_sortedSet] at hq
      obtain ⟨provider, hprovider, rfl⟩ := List.mem_map.mp hq
      obtain ⟨hprovider, hexports⟩ := List.mem_filter.mp hprovider
      exact ⟨provider, hprovider, of_decide_eq_true hexports, rfl⟩
    refine ⟨rfl, ?_, List.cons_ne_nil name names, ?_⟩
    · obtain ⟨provider, hprovider, hexports, _⟩ := hmem name List.mem_cons_self
      exact (h provider hprovider).2 _ hexports
    · intro q hq
      obtain ⟨provider, hprovider, _, rfl⟩ := hmem q hq
      exact (h provider hprovider).1

theorem providerAnalysis_ok {requirements : List UndefinedSymbol} {paths : List Path}
    {aliases : List (Str × Str)} {a : Analysis}
    (h : value (fs.providerAnalysis requirements paths aliases) = .ok a) :
    ∃ provider, Analyses provider requirements a := by
  obtain ⟨_, _, h⟩ := bind_eq_ok.mp h
  obtain ⟨providers, hproviders, h⟩ := bind_eq_ok.mp h
  obtain ⟨_, _, h⟩ := bind_eq_ok.mp h
  simp only at h
  split at h
  · cases h
  · obtain rfl := Except.ok.inj h
    have hspec := providerSymbols_ok hproviders
    exact ⟨providedBy providers aliases, fun _ _ hp => providedBy_spec hspec hp, rfl, rfl, rfl, rfl,
      rfl, rfl, rfl⟩

end FileSystem

/-! ### Requirements and their outcomes -/

section Requirements

variable {provider : UndefinedSymbol → Option ProvidedSymbol} {requirements : List UndefinedSymbol}
  {a : Analysis}

namespace Analyses

theorem requirement_mem (h : Analyses provider requirements a) {p : ProvidedSymbol}
    (hp : p ∈ a.provided) : p.requirement ∈ requirements := by
  rw [h.provided, List.mem_filterMap] at hp
  obtain ⟨u, hu, hup⟩ := hp
  rw [(h.provides u p hup).1]
  exact hu

theorem weak_mem (h : Analyses provider requirements a) {u : UndefinedSymbol}
    (hu : u ∈ a.unresolvedWeak) : u ∈ requirements := by
  rw [h.unresolvedWeak] at hu
  exact (List.mem_filter.mp (List.mem_filter.mp hu).1).1

theorem requirements_provided (h : Analyses provider requirements a) :
    a.provided.map ProvidedSymbol.requirement =
      requirements.filter fun u => ¬provider u = none := by
  rw [h.provided]
  have hall := h.provides
  clear h
  induction requirements with
  | nil => rfl
  | cons u us ih =>
    cases hu : provider u with
    | none =>
      rw [List.filterMap_cons_none hu, List.filter_cons_of_neg (by simp [hu])]
      exact ih
    | some p =>
      rw [List.filterMap_cons_some hu, List.filter_cons_of_pos (by simp [hu]), List.map_cons, ih,
        (hall u p hu).1]

/-- With no requirement missing, each is provided or weak, and only one of the two. -/
theorem outcomes_perm (h : Analyses provider requirements a) (hmissing : a.missingCount = 0) :
    (a.provided.map ProvidedSymbol.requirement ++ a.unresolvedWeak).Perm requirements := by
  have hnone : ∀ u ∈ requirements.filter fun u => provider u = none, u.binding = str "weak" := by
    rw [h.missingCount, List.length_eq_zero_iff, h.missing, List.filter_eq_nil_iff] at hmissing
    intro u hu
    simpa using hmissing u hu
  have hweak : a.unresolvedWeak = requirements.filter fun u => provider u = none := by
    rw [h.unresolvedWeak, List.filter_eq_self]
    intro u hu
    exact decide_eq_true (hnone u hu)
  rw [h.requirements_provided, hweak]
  have hperm := List.filter_append_perm (fun u => decide (¬provider u = none)) requirements
  simpa using hperm

end Analyses

theorem zip_constant {α β : Type} (as : List α) (b : β) :
    as.map (fun x => (x, b)) = as.zip (List.replicate as.length b) := by
  induction as with
  | nil => rfl
  | cons x as ih => rw [List.map_cons, ih, List.length_cons, List.replicate_succ, List.zip_cons_cons]

/-- The requirements can all be told by their keys. -/
def Keyed (requirements : List UndefinedSymbol) : Prop :=
  ∀ u ∈ requirements, ∀ rest, HasInventoryKey (.ofFields (u.fields ++ rest)) u.requirementKey

theorem Keyed.read (h : Keyed requirements) :
    ∀ u ∈ requirements, ∀ context,
      Manifest.inventoryKey u.toDict context = .ok u.requirementKey := by
  intro u hu context
  have hk := h u hu []
  rw [List.append_nil] at hk
  exact hk.ok rfl context

theorem Keyed.read_requirements (h : Keyed requirements) :
    List.Forall₂ (fun d k => ∀ context, Manifest.inventoryKey d context = .ok k)
      (requirements.map UndefinedSymbol.toDict)
      (requirements.map UndefinedSymbol.requirementKey) := by
  rw [List.forall₂_map_left_iff, List.forall₂_map_right_iff, List.forall₂_same]
  exact h.read

theorem Keyed.read_outcomes (h : Keyed requirements) (ha : Analyses provider requirements a) :
    List.Forall₂ (fun d k => ∀ context, Manifest.inventoryKey d context = .ok k)
      (a.provided.map ProvidedSymbol.toDict ++ a.unresolvedWeak.map UndefinedSymbol.toDict)
      ((a.provided.map ProvidedSymbol.requirement ++ a.unresolvedWeak).map
        UndefinedSymbol.requirementKey) := by
  rw [List.map_append]
  apply List.rel_append
  · rw [List.map_map, List.forall₂_map_left_iff, List.forall₂_map_right_iff, List.forall₂_same]
    exact fun p hp context => (h _ (ha.requirement_mem hp) _).ok rfl context
  · rw [List.forall₂_map_left_iff, List.forall₂_map_right_iff, List.forall₂_same]
    exact fun u hu => h.read u (ha.weak_mem hu)

theorem Analyses.implementations (ha : Analyses provider requirements a)
    (hproviders : ∀ p ∈ a.provided, Unambiguous (p.providers.map Manifest.pathName)) :
    ∃ implementations, implementations.length = a.provided.length ∧
      Manifest.mapIndexed Manifest.providerImplementation 0
        (a.provided.map fun p => p.toDict.toJson) = .ok implementations := by
  have hround : ∀ i, ∀ p ∈ a.provided,
      (∃ s, Manifest.providerImplementation i p.toDict.toJson = .ok s) ↔ True := by
    intro i p hp
    have hmem := hp
    rw [ha.provided, List.mem_filterMap] at hp
    obtain ⟨u, hu, hup⟩ := hp
    obtain ⟨_, hne, hsome, hpaths⟩ := ha.provides u p hup
    rw [iff_true]
    exact Manifest.providerImplementation_isOk rfl hne rfl hsome hpaths (hproviders p hmem) i
  obtain ⟨implementations, hok⟩ := (Manifest.mapIndexed_isOk (i := 0) hround).mpr fun _ _ => trivial
  rw [← Manifest.mapIndexed_comp fun p : ProvidedSymbol => p.toDict.toJson] at hok
  have hall := Manifest.mapIndexed_forall₂ (R := fun _ _ => True) (fun _ _ _ _ => trivial) hok
  have hlen := hall.length_eq
  rw [List.length_map] at hlen
  exact ⟨implementations, hlen.symm, hok⟩

/-- The outcomes of both kinds, as one list. -/
theorem outcomes_eq {ps : List ProvidedSymbol} {ws : List UndefinedSymbol} {implementations : List Str}
    (hlen : implementations.length = ps.length) (s : Str) :
    (ps.map fun p => p.toDict.toJson).zip implementations ++
        (ws.map fun u => u.toDict.toJson).map (fun item => (item, s)) =
      ((ps.map ProvidedSymbol.toDict ++ ws.map UndefinedSymbol.toDict).map Dict.toJson).zip
        (implementations ++ List.replicate ws.length s) := by
  have hps : (ps.map fun p => p.toDict.toJson) = (ps.map ProvidedSymbol.toDict).map Dict.toJson := by
    rw [List.map_map]
    rfl
  have hws : (ws.map fun u => u.toDict.toJson) = (ws.map UndefinedSymbol.toDict).map Dict.toJson := by
    rw [List.map_map]
    rfl
  have hlength : ((ps.map ProvidedSymbol.toDict).map Dict.toJson).length = implementations.length := by
    rw [List.length_map, List.length_map, hlen]
  rw [zip_constant, hps, hws, List.map_append, List.zip_append hlength, List.length_map,
    List.length_map]

/-- The requirements of a report are accepted if and only if no two have one key, and then each key
has an outcome. -/
theorem inventoryRequirements_eq_ok {r : ScanResult}
    (hrequirements : r.summary.requiredGlibcSymbols = requirements)
    (ha : Analyses provider requirements a) (hmissing : a.missingCount = 0)
    (hkeyed : Keyed requirements)
    (hproviders : ∀ p ∈ a.provided, Unambiguous (p.providers.map Manifest.pathName)) :
    ∃ implementations, (∀ u ∈ requirements, u.requirementKey ∈ implementations.map Prod.fst) ∧
      ∀ x, Manifest.inventoryRequirements (r.inventory a) = .ok x ↔
        (requirements.map UndefinedSymbol.requirementKey).Nodup ∧
          x = (requirements.map UndefinedSymbol.toDict, implementations) := by
  obtain ⟨implementations, hlen, hok⟩ := ha.implementations hproviders
  have hperm := (ha.outcomes_perm hmissing).map UndefinedSymbol.requirementKey
  have hlength : (implementations ++ List.replicate a.unresolvedWeak.length
      (str "optional-unresolved")).length =
      ((a.provided.map ProvidedSymbol.requirement ++ a.unresolvedWeak).map
        UndefinedSymbol.requirementKey).length := by
    simp [hlen]
  refine ⟨((a.provided.map ProvidedSymbol.requirement ++ a.unresolvedWeak).map
    UndefinedSymbol.requirementKey).zip (implementations ++
      List.replicate a.unresolvedWeak.length (str "optional-unresolved")), ?_, ?_⟩
  · intro u hu
    rw [List.map_fst_zip hlength.ge]
    exact hperm.mem_iff.mpr (List.mem_map_of_mem hu)
  · intro x
    have hsymbols : r.summary.toDict.get (str "required_glibc_symbols") =
        .arr ((requirements.map UndefinedSymbol.toDict).map Dict.toJson) := by
      rw [List.map_map, ← hrequirements]
      rfl
    have hpolicy : a.toDict.get (str "matching_policy") = .str Manifest.MATCHING_POLICY :=
      congrArg Json.str ha.policy
    have hmissing' : a.toDict.get (str "missing_count") = Manifest.count 0 :=
      congrArg Manifest.count hmissing
    have hprovidedCount : a.toDict.get (str "provided_count") =
        Manifest.count (a.provided.map fun p => p.toDict.toJson).length := by
      rw [List.length_map]
      exact congrArg Manifest.count ha.providedCount
    have hweakCount : a.toDict.get (str "unresolved_weak_count") =
        Manifest.count (a.unresolvedWeak.map fun u => u.toDict.toJson).length := by
      rw [List.length_map]
      exact congrArg Manifest.count ha.unresolvedWeakCount
    rw [Manifest.inventoryRequirements_iff rfl rfl hsymbols hpolicy hmissing' rfl rfl
      hprovidedCount hweakCount hok, outcomes_eq hlen]
    exact Manifest.collect_iff (hkeyed.read_outcomes ha) hkeyed.read_requirements hlength hperm

end Requirements

/-! ### Roots and missing dependencies -/

theorem reportsByPath_eq (objects : List Report) :
    Manifest.reportsByPath (objects.map fun o => o.toDict.toJson) =
      objects.map fun o => (o.path, o.toDict) := by
  induction objects with
  | nil => rfl
  | cons o objects ih =>
    have hcons : Manifest.reportsByPath ((o :: objects).map fun o => o.toDict.toJson) =
        (o.path, o.toDict) :: Manifest.reportsByPath (objects.map fun o => o.toDict.toJson) := rfl
    rw [hcons, ih]
    rfl

/-- A root with a report is found, if the SONAME of the report is not empty. -/
theorem rootReport_isOk {objects : List Report} (hsonames : ∀ r ∈ objects, r.soname ≠ some [])
    {root : Str} (hne : root ≠ []) (hroot : root ∈ objects.map Report.path) (index : ℕ) :
    ∃ e, Manifest.rootReport (objects.map fun o => (o.path, o.toDict)) index (.str root) =
      .ok e := by
  have hpath : root ∈ (objects.map fun o => (o.path, o.toDict)).map Prod.fst := by
    rw [List.map_map]
    exact hroot
  obtain ⟨d, hget, hmem⟩ := Manifest.exists_dictGet hpath
  obtain ⟨r, hr, he⟩ := List.mem_map.mp hmem
  obtain ⟨rfl, rfl⟩ := Prod.mk.inj he
  have hsoname : r.toDict.get (str "soname") = Manifest.optional r.soname := rfl
  have hr' := hsonames r hr
  cases hp : r.path with
  | nil => exact absurd hp hne
  | cons c s =>
    rw [hp] at hget
    cases hs : r.soname with
    | none =>
      rw [hs] at hsoname
      refine ⟨(c :: s, none), ?_⟩
      simp only [Manifest.rootReport, hget, hsoname, Manifest.optional, Option.elim_none]
    | some t =>
      cases t with
      | nil => exact absurd hs hr'
      | cons e t =>
        rw [hs] at hsoname
        refine ⟨(c :: s, some (e :: t)), ?_⟩
        simp only [Manifest.rootReport, hget, hsoname, Manifest.optional, Option.elim_some]

theorem missingReport_isOk {m : MissingDependency} (hsource : m.source ≠ []) (index : ℕ) :
    (∃ e, Manifest.missingReport index m.toDict.toJson = .ok e) ↔ m.name ≠ [] := by
  simp only [Manifest.missingReport, Manifest.bind_eq_ok, Manifest.requireDict_eq_ok,
    Manifest.requireString_eq_ok, Manifest.pure_eq_ok]
  constructor
  · rintro ⟨_, d, hd, _, _, name, ⟨hname, hne⟩, _⟩
    rw [← Dict.toJson_injective hd] at hname
    rw [show m.name = name from Json.str.inj hname]
    exact hne
  · intro hne
    exact ⟨(m.source, m.name), m.toDict, rfl, m.source, ⟨rfl, hsource⟩, m.name, ⟨rfl, hne⟩, rfl⟩

/-! ### The hand-off -/

/-- No two symbols with GLIBC versions differ in `hidden` only. -/
def HiddenAgrees (objects : List Report) : Prop :=
  ∀ u ∈ objects.flatMap Report.undefinedSymbols, ∀ v ∈ objects.flatMap Report.undefinedSymbols,
    u.IsGlibc → v.IsGlibc → u.name = v.name → u.version = v.version → u.library = v.library →
      u.binding = v.binding → u.hidden = v.hidden

theorem mem_requiredGlibcSymbols {objects : List Report} {u : UndefinedSymbol} :
    u ∈ requiredGlibcSymbols objects ↔ u ∈ objects.flatMap Report.undefinedSymbols ∧ u.IsGlibc := by
  rw [requiredGlibcSymbols, mem_sortedSet, List.mem_filter, decide_eq_true_iff]

theorem requiredGlibcSymbols_nodup (objects : List Report) :
    (requiredGlibcSymbols objects).Nodup := by
  apply (List.perm_insertionSort _ _).nodup_iff.mpr
  rw [List.nodup_reverse]
  exact List.nodup_dedup _

theorem UndefinedSymbol.IsGlibc.version_eq {u : UndefinedSymbol} (h : u.IsGlibc) :
    u.version = some (u.version.getD []) := by
  cases hv : u.version with
  | none =>
    rw [UndefinedSymbol.IsGlibc, hv] at h
    cases h
  | some v => rfl

/-- The keys are distinct if and only if `hidden` follows from the rest. -/
theorem requirementKeys_nodup {objects : List Report}
    (h : ∀ u ∈ requiredGlibcSymbols objects, u.Supported) :
    ((requiredGlibcSymbols objects).map UndefinedSymbol.requirementKey).Nodup ↔
      HiddenAgrees objects := by
  rw [List.nodup_map_iff_inj_on (requiredGlibcSymbols_nodup objects)]
  constructor
  · intro hinj u hu v hv hug hvg hname hversion hlibrary hbinding
    have hkey : u.requirementKey = v.requirementKey := by
      unfold UndefinedSymbol.requirementKey
      rw [hname, hversion, hlibrary, hbinding]
    have huv := hinj u (mem_requiredGlibcSymbols.mpr ⟨hu, hug⟩) v
      (mem_requiredGlibcSymbols.mpr ⟨hv, hvg⟩) hkey
    rw [huv]
  · intro hagree u hu v hv hkey
    obtain ⟨hu', hug⟩ := mem_requiredGlibcSymbols.mp hu
    obtain ⟨hv', hvg⟩ := mem_requiredGlibcSymbols.mp hv
    obtain ⟨l, hul, _⟩ := (h u hu).library
    obtain ⟨l', hvl, _⟩ := (h v hv).library
    simp only [UndefinedSymbol.requirementKey, Manifest.Key.mk.injEq] at hkey
    obtain ⟨hname, hversion, hlibrary, hbinding⟩ := hkey
    have hversion' : u.version = v.version := by rw [hug.version_eq, hvg.version_eq, hversion]
    have hlibrary' : u.library = v.library := by
      rw [hul, hvl] at hlibrary ⊢
      exact congrArg some hlibrary
    have hhidden := hagree u hu' v hv' hug hvg hname hversion' hlibrary' hbinding
    obtain ⟨_, _, _, _, _⟩ := u
    obtain ⟨_, _, _, _, _⟩ := v
    simp only at hname hversion' hlibrary' hbinding hhidden
    subst hname hversion' hlibrary' hbinding hhidden
    rfl

section Handoff

variable {fs : FileSystem} {roots : List Path} {recursive : Bool} {objects : List Report}
  {missing : List MissingDependency} {a : Analysis}

theorem sourceRoots_isOk (hsonames : ∀ r ∈ objects, r.soname ≠ some [])
    (hroots : ∀ root ∈ roots, ∃ r ∈ objects, r.path = root.toStr) :
    ∃ rs, Manifest.sourceRoots ((ScanResult.ofReports roots recursive objects missing).inventory a) =
      .ok rs := by
  have hround : ∀ i, ∀ root ∈ roots.map Path.toStr,
      (∃ e, Manifest.rootReport (objects.map fun o => (o.path, o.toDict)) i (.str root) = .ok e) ↔
        True := by
    intro i root hroot
    obtain ⟨path, hpath, rfl⟩ := List.mem_map.mp hroot
    obtain ⟨r, hr, he⟩ := hroots path hpath
    rw [iff_true]
    exact rootReport_isOk hsonames path.toStr_ne_nil (List.mem_map.mpr ⟨r, hr, he⟩) i
  obtain ⟨reports, hreports⟩ := (Manifest.mapIndexed_isOk (i := 0) hround).mpr fun _ _ => trivial
  rw [← Manifest.mapIndexed_comp Json.str, ← reportsByPath_eq] at hreports
  simp only [Manifest.sourceRoots, Manifest.rootReports, Manifest.bind_eq_ok,
    Manifest.requireList_eq_ok, Manifest.pure_eq_ok]
  exact ⟨_, reports, ⟨_, rfl, _, rfl, hreports⟩, rfl⟩

theorem missingDependencies_isOk (hsources : ∀ m ∈ missing, m.source ≠ []) :
    (∃ ms, Manifest.missingDependencies
        ((ScanResult.ofReports roots recursive objects missing).inventory a) = .ok ms) ↔
      ∀ m ∈ missing, m.name ≠ [] := by
  rw [← Manifest.mapIndexed_isOk (i := 0) fun i m hm => missingReport_isOk (hsources m hm) i]
  simp only [Manifest.missingDependencies, Manifest.missingReports, Manifest.bind_eq_ok,
    Manifest.requireList_eq_ok, Manifest.pure_eq_ok]
  have hlist : ((ScanResult.ofReports roots recursive objects missing).inventory a).get
      (str "missing_dependencies") = .arr (missing.map fun m => m.toDict.toJson) := rfl
  constructor
  · rintro ⟨_, ms, ⟨items, hitems, hms⟩, _⟩
    obtain rfl := Json.arr.inj (hlist.symm.trans hitems)
    rw [Manifest.mapIndexed_comp] at hms
    exact ⟨ms, hms⟩
  · rintro ⟨ms, hms⟩
    rw [← Manifest.mapIndexed_comp] at hms
    exact ⟨_, ms, ⟨_, hlist, hms⟩, rfl⟩

/-- A manifest is built from the reports if and only if no two symbols differ in `hidden` only and
no missing dependency is without a name. -/
theorem buildManifest_isOk {paths : List Path} {aliases : List (Str × Str)}
    (hdecoded : ∀ r ∈ objects, r.Decoded) (hsources : ∀ m ∈ missing, m.source ≠ [])
    (hsupported : ∀ r ∈ objects, ∀ u ∈ r.undefinedSymbols, u.IsGlibc → u.Supported)
    (hsonames : ∀ r ∈ objects, r.soname ≠ some [])
    (hroots : ∀ root ∈ roots, ∃ r ∈ objects, r.path = root.toStr)
    (ha : value (fs.providerAnalysis (requiredGlibcSymbols objects) paths aliases) = .ok a)
    (hnone : a.missingCount = 0)
    (hproviders : ∀ p ∈ a.provided, Unambiguous (p.providers.map Manifest.pathName)) :
    (∃ m, Manifest.buildManifest
        ((ScanResult.ofReports roots recursive objects missing).inventory a) none = .ok m) ↔
      HiddenAgrees objects ∧ ∀ m ∈ missing, m.name ≠ [] := by
  obtain ⟨provider, hanalyses⟩ := FileSystem.providerAnalysis_ok ha
  have hsupported' : ∀ u ∈ requiredGlibcSymbols objects, u.Supported := by
    intro u hu
    obtain ⟨hu, hglibc⟩ := mem_requiredGlibcSymbols.mp hu
    obtain ⟨r, hr, hu⟩ := List.mem_flatMap.mp hu
    exact hsupported r hr u hu hglibc
  have hkeyed : Keyed (requiredGlibcSymbols objects) := by
    intro u hu
    obtain ⟨hmem, hglibc⟩ := mem_requiredGlibcSymbols.mp hu
    obtain ⟨r, hr, hmem⟩ := List.mem_flatMap.mp hmem
    exact hasInventoryKey ((hdecoded r hr).name_ne_nil u hmem) hglibc (hsupported' u hu)
  obtain ⟨implementations, hkeys, hok⟩ :=
    inventoryRequirements_eq_ok (r := .ofReports roots recursive objects missing) rfl hanalyses hnone
      hkeyed hproviders
  have hround : ∀ i, ∀ u ∈ requiredGlibcSymbols objects,
      (∃ s, Manifest.buildSymbol [] implementations i u.toDict = .ok s) ↔ True := by
    intro i u hu
    obtain ⟨implementation, hget, _⟩ := Manifest.exists_dictGet (hkeys u hu)
    rw [iff_true]
    refine ⟨⟨u.requirementKey, implementation, Manifest.defaultPolicy.1,
      Manifest.defaultPolicy.2⟩, ?_⟩
    simp only [Manifest.buildSymbol, Manifest.bind_eq_ok]
    refine ⟨u.requirementKey, hkeyed.read u hu _, ?_⟩
    rw [hget]
    rfl
  obtain ⟨symbols, hsymbols⟩ := (Manifest.mapIndexed_isOk (i := 0) hround).mpr fun _ _ => trivial
  rw [← Manifest.mapIndexed_comp UndefinedSymbol.toDict] at hsymbols
  obtain ⟨rs, hrs⟩ : ∃ rs, Manifest.sourceRoots
      ((ScanResult.ofReports roots recursive objects missing).inventory a) = .ok rs :=
    sourceRoots_isOk hsonames hroots
  have hmissing : (∃ ms, Manifest.missingDependencies
      ((ScanResult.ofReports roots recursive objects missing).inventory a) = .ok ms) ↔
        ∀ m ∈ missing, m.name ≠ [] := missingDependencies_isOk hsources
  rw [← requirementKeys_nodup hsupported', ← hmissing]
  simp only [Manifest.buildManifest, Manifest.bind_eq_ok, Manifest.pure_eq_ok]
  constructor
  · rintro ⟨_, x, hx, _, _, _, _, _, _, ms, hms, _⟩
    exact ⟨((hok x).mp hx).1, ms, hms⟩
  · rintro ⟨hnd, ms, hms⟩
    exact ⟨_, _, (hok _).mpr ⟨hnd, rfl⟩, [], rfl, symbols, hsymbols, rs, hrs, ms, hms, rfl⟩

/-- What the loop has collected comes from objects. -/
structure FromObjects (a : Collected) : Prop where
  reports : ∀ e ∈ a.reports, e.2.Decoded
  missing : ∀ m ∈ a.missing, m.source ≠ []

theorem decoded_of_object {q : Path} {report : Report} (h : value (fs.object q) = .ok report)
    (needed : List Needed) : Report.Decoded { report with needed := needed } := by
  obtain ⟨elf, helf, hreport⟩ := bind_eq_ok.mp h
  exact ⟨_, _, elf, report, needed, helf, hreport, rfl⟩

theorem FromObjects.add {a : Collected} (h : FromObjects a) {q : Path} {report : Report}
    (hreport : report.Decoded) {missing : List MissingDependency}
    (hmissing : ∀ m ∈ missing, m.source ≠ []) :
    FromObjects { reports := a.reports ++ [(q, report)], missing := a.missing ++ missing } := by
  constructor
  · intro e he
    rcases List.mem_append.mp he with he | he
    · exact h.reports e he
    · rw [List.mem_singleton.mp he]
      exact hreport
  · intro m hm
    rcases List.mem_append.mp hm with hm | hm
    · exact h.missing m hm
    · exact hmissing m hm

theorem scanLoop_fromObjects {resolver : DependencyResolver} {k : ℕ} {queue : List Path}
    {a b : Collected} (ha : FromObjects a)
    (h : value (fs.scanLoop resolver recursive k queue a) = .ok b) : FromObjects b := by
  induction k generalizing queue a with
  | zero =>
    cases queue with
    | nil => exact Except.ok.inj h ▸ ha
    | cons p queue => cases h
  | succ k ih =>
    cases queue with
    | nil => exact Except.ok.inj h ▸ ha
    | cons p queue =>
      rw [FileSystem.scanLoop] at h
      cases hp : fs.resolveStrict p with
      | none =>
        rw [hp] at h
        cases h
      | some q =>
        rw [hp] at h
        simp only at h
        split at h
        · exact ih ha h
        · obtain ⟨report, hreport, h⟩ := bind_eq_ok.mp h
          split at h
          · apply ih (ha.add (decoded_of_object hreport _) _) h
            intro m hm
            obtain ⟨_, _, rfl⟩ := List.mem_map.mp hm
            exact q.toStr_ne_nil
          · have hnil : ∀ m ∈ ([] : List MissingDependency), m.source ≠ [] :=
              fun m hm => absurd hm List.not_mem_nil
            have hadd := ha.add (q := q) (decoded_of_object hreport report.needed) hnil
            rw [List.append_nil] at hadd
            exact ih hadd h

/-- The report of a scan is made of the reports of objects. -/
theorem scan_fromObjects {k : ℕ} {libraryPaths : List Path} {r : ScanResult}
    (h : value (fs.scan k roots libraryPaths recursive) = .ok r) :
    r = .ofReports roots recursive r.objects r.missingDependencies ∧
      (∀ o ∈ r.objects, o.Decoded) ∧ ∀ m ∈ r.missingDependencies, m.source ≠ [] := by
  obtain ⟨b, hb, h⟩ := bind_eq_ok.mp h
  have hobjects := scanLoop_fromObjects ⟨by simp, by simp⟩ hb
  obtain rfl := Except.ok.inj h
  refine ⟨rfl, ?_, ?_⟩
  · intro o ho
    obtain ⟨e, he, rfl⟩ := List.mem_map.mp ho
    exact hobjects.reports e ((List.mem_insertionSort _).mp he)
  · intro m hm
    exact hobjects.missing m (mem_sortedSet.mp hm)

end Handoff

/-- What `nvidia-scan` reports, with an analysis that finds nothing missing and no ambiguous
provider, is accepted by `build_manifest` if and only if no two symbols differ in `hidden` only and
no missing dependency is without a name. -/
theorem handoff_iff {fs : FileSystem} {k : ℕ} {roots libraryPaths : List Path} {recursive : Bool}
    {r : ScanResult} (hscan : value (fs.scan k roots libraryPaths recursive) = .ok r)
    (hsupported : ∀ o ∈ r.objects, ∀ u ∈ o.undefinedSymbols, u.IsGlibc → u.Supported)
    (hsonames : ∀ o ∈ r.objects, o.soname ≠ some [])
    (hroots : ∀ root ∈ roots, ∃ o ∈ r.objects, o.path = root.toStr)
    {paths : List Path} {aliases : List (Str × Str)} {a : Analysis}
    (ha : value (fs.providerAnalysis r.summary.requiredGlibcSymbols paths aliases) = .ok a)
    (hnone : a.missingCount = 0)
    (hproviders : ∀ p ∈ a.provided, Unambiguous (p.providers.map Manifest.pathName)) :
    (∃ m, Manifest.buildManifest (r.inventory a) none = .ok m) ↔
      HiddenAgrees r.objects ∧ ∀ m ∈ r.missingDependencies, m.name ≠ [] := by
  obtain ⟨hr, hdecoded, hsources⟩ := scan_fromObjects hscan
  rw [hr] at ha ⊢
  exact buildManifest_isOk hdecoded hsources hsupported hsonames hroots ha hnone hproviders

/-- An object that exports `g` and has two weak undefined symbols `f@GLIBC_2.2.5`; the version index
of the second one is given. -/
def twins (index : ℕ) : Bytes :=
  FileSystem.objectHeader 504 128 ++
  bytesOf 8 DT_STRTAB ++ bytesOf 8 304 ++ bytesOf 8 DT_STRSZ ++ bytesOf 8 27 ++
    bytesOf 8 DT_SYMTAB ++ bytesOf 8 336 ++ bytesOf 8 DT_HASH ++ bytesOf 8 440 ++
    bytesOf 8 DT_VERSYM ++ bytesOf 8 432 ++ bytesOf 8 DT_VERNEED ++ bytesOf 8 472 ++
    bytesOf 8 DT_VERNEEDNUM ++ bytesOf 8 1 ++ bytesOf 16 0 ++
  -- the strings
  [0, 0x66, 0, 0x67, 0] ++ (str "libc.so.6").map UInt8.ofNat ++ [0] ++
    (str "GLIBC_2.2.5").map UInt8.ofNat ++ [0] ++ bytesOf 5 0 ++
  -- the symbols and their version indices
  bytesOf 24 0 ++ bytesOf 4 1 ++ bytesOf 1 0x22 ++ bytesOf 19 0 ++
    bytesOf 4 1 ++ bytesOf 1 0x22 ++ bytesOf 19 0 ++
    bytesOf 4 3 ++ bytesOf 1 0x12 ++ bytesOf 1 0 ++ bytesOf 2 1 ++ bytesOf 8 0x1000 ++ bytesOf 8 0 ++
    bytesOf 2 0 ++ bytesOf 2 2 ++ bytesOf 2 index ++ bytesOf 2 1 ++
  -- the hash table and the version needs
  bytesOf 4 1 ++ bytesOf 4 4 ++ bytesOf 24 0 ++
  bytesOf 2 1 ++ bytesOf 2 1 ++ bytesOf 4 5 ++ bytesOf 4 16 ++ bytesOf 4 0 ++
    bytesOf 4 0 ++ bytesOf 2 0 ++ bytesOf 2 2 ++ bytesOf 4 15 ++ bytesOf 4 0

/-- What is scanned and analysed of that object, which is its own provider. -/
theorem twins_run (index : ℕ) (undefined : List UndefinedSymbol) (built : Bool)
    (h : (match value ((FileSystem.single (twins index)).scan 2 [FileSystem.singlePath] [] true) with
      | .ok r =>
        match value ((FileSystem.single (twins index)).providerAnalysis
            r.summary.requiredGlibcSymbols [FileSystem.singlePath] []) with
        | .ok a =>
          decide (r.objects.map Report.undefinedSymbols = [undefined] ∧
            r.objects.map Report.soname = [none] ∧
              r.objects.map Report.path = [FileSystem.singlePath.toStr] ∧
                r.missingDependencies = [] ∧ a.missingCount = 0 ∧ a.provided = [] ∧
                  (Manifest.buildManifest (r.inventory a) none).toOption.isSome = built)
        | .error _ => false
      | .error _ => false) = true) :
    ∃ r a, value ((FileSystem.single (twins index)).scan 2 [FileSystem.singlePath] [] true) =
        .ok r ∧
      value ((FileSystem.single (twins index)).providerAnalysis r.summary.requiredGlibcSymbols
        [FileSystem.singlePath] []) = .ok a ∧
      (∀ o ∈ r.objects, o.undefinedSymbols = undefined) ∧ (∀ o ∈ r.objects, o.soname ≠ some []) ∧
      (∀ root ∈ [FileSystem.singlePath], ∃ o ∈ r.objects, o.path = root.toStr) ∧
      r.missingDependencies = [] ∧ a.missingCount = 0 ∧ a.provided = [] ∧
      (Manifest.buildManifest (r.inventory a) none).toOption.isSome = built := by
  split at h
  · rename_i r hr
    split at h
    · rename_i a ha
      obtain ⟨hundefined, hsoname, hpath, hmissing, hcount, hprovided, hbuilt⟩ := of_decide_eq_true h
      refine ⟨r, a, hr, ha, ?_, ?_, ?_, hmissing, hcount, hprovided, hbuilt⟩
      · intro o ho
        have hmem := List.mem_map_of_mem (f := Report.undefinedSymbols) ho
        rw [hundefined] at hmem
        exact List.mem_singleton.mp hmem
      · intro o ho
        have hmem := List.mem_map_of_mem (f := Report.soname) ho
        rw [hsoname, List.mem_singleton] at hmem
        rw [hmem]
        exact Option.some_ne_none _ |>.symm
      · intro root hroot
        rw [List.mem_singleton.mp hroot]
        have hmem : FileSystem.singlePath.toStr ∈ r.objects.map Report.path := by
          rw [hpath]
          exact List.mem_singleton_self _
        exact List.mem_map.mp hmem
    · cases h
  · cases h

/-- `f@GLIBC_2.2.5`. -/
def twin (hidden : Bool) : UndefinedSymbol :=
  ⟨str "f", some (str "GLIBC_2.2.5"), some (str "libc.so.6"), str "weak", hidden⟩

theorem twin_supported (hidden : Bool) : (twin hidden).Supported :=
  ⟨.inr rfl, fun h => absurd (Option.some.inj h) (by decide), str "libc.so.6", rfl, by decide⟩

theorem twins_accepted :
    ∃ r a, value ((FileSystem.single (twins 2)).scan 2 [FileSystem.singlePath] [] true) = .ok r ∧
      value ((FileSystem.single (twins 2)).providerAnalysis r.summary.requiredGlibcSymbols
        [FileSystem.singlePath] []) = .ok a ∧
      ∃ m, Manifest.buildManifest (r.inventory a) none = .ok m := by
  obtain ⟨r, a, hr, ha, hundefined, hsonames, hroots, hmissing, hcount, hprovided, _⟩ :=
    twins_run 2 [twin false] true (by decide +kernel)
  refine ⟨r, a, hr, ha, (handoff_iff hr ?_ hsonames hroots ha hcount ?_).mpr ⟨?_, ?_⟩⟩
  · intro o ho u hu _
    rw [hundefined o ho, List.mem_singleton] at hu
    rw [hu]
    exact twin_supported false
  · rw [hprovided]
    exact fun p hp => absurd hp List.not_mem_nil
  · intro u hu v hv _ _ _ _ _ _
    obtain ⟨o, ho, hu⟩ := List.mem_flatMap.mp hu
    obtain ⟨o', ho', hv⟩ := List.mem_flatMap.mp hv
    rw [hundefined o ho, List.mem_singleton] at hu
    rw [hundefined o' ho', List.mem_singleton] at hv
    rw [hu, hv]
  · rw [hmissing]
    exact fun m hm => absurd hm List.not_mem_nil

/-- With the second symbol hidden the scan reports two requirements, and no manifest is built. -/
theorem twins_rejected :
    ∃ r a, value ((FileSystem.single (twins 0x8002)).scan 2 [FileSystem.singlePath] [] true) =
        .ok r ∧
      (∀ o ∈ r.objects, ∀ u ∈ o.undefinedSymbols, u.IsGlibc → u.Supported) ∧
      (∀ o ∈ r.objects, o.soname ≠ some []) ∧
      (∀ root ∈ [FileSystem.singlePath], ∃ o ∈ r.objects, o.path = root.toStr) ∧
      value ((FileSystem.single (twins 0x8002)).providerAnalysis r.summary.requiredGlibcSymbols
        [FileSystem.singlePath] []) = .ok a ∧
      a.missingCount = 0 ∧ (∀ p ∈ a.provided, Unambiguous (p.providers.map Manifest.pathName)) ∧
      ¬∃ m, Manifest.buildManifest (r.inventory a) none = .ok m := by
  obtain ⟨r, a, hr, ha, hundefined, hsonames, hroots, _, hcount, hprovided, hbuilt⟩ :=
    twins_run 0x8002 [twin false, twin true] false (by decide +kernel)
  refine ⟨r, a, hr, ?_, hsonames, hroots, ha, hcount, ?_, ?_⟩
  · intro o ho u hu _
    rw [hundefined o ho, List.mem_cons, List.mem_singleton] at hu
    rcases hu with rfl | rfl
    · exact twin_supported false
    · exact twin_supported true
  · rw [hprovided]
    exact fun p hp => absurd hp List.not_mem_nil
  · rintro ⟨m, hm⟩
    rw [hm] at hbuilt
    cases hbuilt

end MuslBsd.Scan
