import MuslBsd.Scan.Handoff

/-! What the providers export against what is required: the analysis shares out the requirements by
it, whatever the order of the provider paths. -/
namespace MuslBsd.Scan
open MuslBsd.Support
open MuslBsd.Manifest (Str str)

/-! ### Sorted lists of names -/

theorem sortedSet_congr {α : Type} [DecidableEq α] {key : α → List Str}
    (hkey : Function.Injective key) {xs ys : List α} (h : ∀ a, a ∈ xs ↔ a ∈ ys) :
    sortedSet key xs = sortedSet key ys := by
  apply eq_of_sorted (sortedSet_sorted hkey xs) (sortedSet_sorted hkey ys)
  intro a
  rw [mem_sortedSet, mem_sortedSet, h a]

theorem strKey_injective : Function.Injective strKey := fun _ _ h => (List.cons.inj h).1

theorem strKey_lt {a b : Str} : strKey a < strKey b ↔ a < b := by
  simp [strKey, List.cons_lt_cons_iff]

/-! ### What is exported and what is required -/

namespace FileSystem

variable (fs : FileSystem)

/-- The file at a canonical path exports the name. -/
def Exports (canonical : Path) (name : Str) : Prop :=
  ∃ elf symbols requirements, value (elfFile canonical.toStr (fs.bytes canonical)) = .ok elf ∧
    value elf.symbols = .ok (symbols, requirements) ∧
      ∃ s ∈ symbols, s.Exported ∧ s.name = name

/-- One of the paths leads to `provider`, which exports the name. -/
def Provides (paths : List Path) (name provider : Str) : Prop :=
  ∃ path ∈ paths, ∃ canonical, fs.resolveStrict path = some canonical ∧
    canonical.toStr = provider ∧ fs.Exports canonical name

/-- What is read of a provider. -/
def Reads (canonical : Path) (p : Provider) : Prop :=
  p.path = canonical.toStr ∧ p.symbols ≠ [] ∧
    ∃ elf, value (elfFile canonical.toStr (fs.bytes canonical)) = .ok elf ∧
      value elf.exportedSymbolNames = .ok p.symbols

end FileSystem

/-- The name that is looked for: that of the alias, or the own one. -/
def providedName (aliases : List (Str × Str)) (u : UndefinedSymbol) : Str :=
  (aliases.lookup u.name).getD u.name

/-- The analysis has each requirement once, in one of its three lists and in the order of the
input. -/
structure Analysis.Shares (a : Analysis) (requirements : List UndefinedSymbol) : Prop where
  perm : (a.provided.map ProvidedSymbol.requirement ++ (a.missing ++ a.unresolvedWeak)).Perm
    requirements
  provided_missing : ∀ p ∈ a.provided, p.requirement ∉ a.missing
  provided_weak : ∀ p ∈ a.provided, p.requirement ∉ a.unresolvedWeak
  missing_weak : ∀ u ∈ a.missing, u ∉ a.unresolvedWeak
  provided_sublist : (a.provided.map ProvidedSymbol.requirement).Sublist requirements
  missing_sublist : a.missing.Sublist requirements
  weak_sublist : a.unresolvedWeak.Sublist requirements
  providedCount : a.providedCount = a.provided.length
  missingCount : a.missingCount = a.missing.length
  unresolvedWeakCount : a.unresolvedWeakCount = a.unresolvedWeak.length

namespace FileSystem

variable {fs : FileSystem} {canonical : Path} {paths canonicalPaths : List Path}
  {providers : List Provider} {aliases : List (Str × Str)} {name provider : Str}

/-! ### The providers that are read -/

theorem Reads.unique {p q : Provider} (hp : fs.Reads canonical p) (hq : fs.Reads canonical q) :
    p = q := by
  obtain ⟨hpath, _, elf, helf, hsymbols⟩ := hp
  obtain ⟨hpath', _, elf', helf', hsymbols'⟩ := hq
  obtain rfl := Except.ok.inj (helf.symm.trans helf')
  have hsame := Except.ok.inj (hsymbols.symm.trans hsymbols')
  cases p
  cases q
  simp_all

theorem Reads.mem_symbols {p : Provider} (h : fs.Reads canonical p) :
    name ∈ p.symbols ↔ fs.Exports canonical name := by
  obtain ⟨_, _, elf, helf, hnames⟩ := h
  obtain ⟨⟨symbols, requirements⟩, hsymbols, hnames⟩ := bind_eq_ok.mp hnames
  have hlist := Except.ok.inj hnames
  rw [← hlist, List.mem_dedup, List.mem_map]
  constructor
  · intro hmem
    obtain ⟨s, hs, hname⟩ := hmem
    obtain ⟨hs, hexported⟩ := List.mem_filter.mp hs
    exact ⟨elf, symbols, requirements, helf, hsymbols, s, hs, of_decide_eq_true hexported, hname⟩
  · intro hexports
    obtain ⟨elf', symbols', requirements', helf', hsymbols', s, hs, hexported, hname⟩ := hexports
    obtain rfl := Except.ok.inj (helf.symm.trans helf')
    obtain ⟨rfl, rfl⟩ := Prod.mk.inj (Except.ok.inj (hsymbols.symm.trans hsymbols'))
    exact ⟨s, List.mem_filter.mpr ⟨hs, decide_eq_true hexported⟩, hname⟩

/-- The canonical paths are those that the paths lead to, and every path leads to one. -/
theorem providerPaths_ok {result : List Path}
    (h : value (fs.providerPaths canonicalPaths paths) = .ok result) :
    (∀ path ∈ paths, ∃ c, fs.resolveStrict path = some c) ∧
      ∀ c, c ∈ result ↔ c ∈ canonicalPaths ∨ ∃ path ∈ paths, fs.resolveStrict path = some c := by
  induction paths generalizing canonicalPaths with
  | nil =>
    obtain rfl := Except.ok.inj h
    simp
  | cons path paths ih =>
    rw [providerPaths] at h
    cases hr : fs.resolveStrict path with
    | none =>
      rw [hr] at h
      cases h
    | some c =>
      rw [hr] at h
      dsimp only at h
      by_cases hc : c ∈ canonicalPaths
      · rw [if_pos hc] at h
        obtain ⟨hall, hmem⟩ := ih h
        refine ⟨List.forall_mem_cons.mpr ⟨⟨c, hr⟩, hall⟩, fun d => ?_⟩
        rw [hmem, List.exists_mem_cons_iff, hr, Option.some_inj]
        constructor
        · exact Or.imp_right .inr
        · intro hd
          rcases hd with hd | rfl | hd
          · exact .inl hd
          · exact .inl hc
          · exact .inr hd
      · rw [if_neg hc] at h
        obtain ⟨hall, hmem⟩ := ih h
        refine ⟨List.forall_mem_cons.mpr ⟨⟨c, hr⟩, hall⟩, fun d => ?_⟩
        rw [hmem, List.exists_mem_cons_iff, hr, Option.some_inj, List.mem_append,
          List.mem_singleton, or_assoc, eq_comm]

theorem providerPaths_returns (h : ∀ path ∈ paths, ∃ c, fs.resolveStrict path = some c)
    (canonicalPaths : List Path) :
    ∃ result, value (fs.providerPaths canonicalPaths paths) = .ok result := by
  induction paths generalizing canonicalPaths with
  | nil => exact ⟨canonicalPaths, rfl⟩
  | cons path paths ih =>
    obtain ⟨⟨c, hr⟩, hall⟩ := List.forall_mem_cons.mp h
    rw [providerPaths, hr]
    dsimp only
    split
    · exact ih hall canonicalPaths
    · exact ih hall (canonicalPaths ++ [c])

/-- What is read is what the canonical paths have, and nothing else. -/
theorem providerSymbols_reads (h : value (fs.providerSymbols paths) = .ok providers) :
    (∀ c ∈ paths, ∃ p ∈ providers, fs.Reads c p) ∧ ∀ p ∈ providers, ∃ c ∈ paths, fs.Reads c p := by
  induction paths generalizing providers with
  | nil =>
    obtain rfl := Except.ok.inj h
    simp
  | cons c paths ih =>
    obtain ⟨elf, helf, h⟩ := bind_eq_ok.mp h
    obtain ⟨symbols, hsymbols, h⟩ := bind_eq_ok.mp h
    by_cases hnil : symbols = []
    · rw [if_pos hnil] at h
      cases h
    · rw [if_neg hnil] at h
      obtain ⟨rest, hrest, h⟩ := bind_eq_ok.mp h
      obtain rfl := Except.ok.inj h
      have hreads : fs.Reads c ⟨c.toStr, symbols⟩ := ⟨rfl, hnil, elf, helf, hsymbols⟩
      obtain ⟨hall, honly⟩ := ih hrest
      refine ⟨List.forall_mem_cons.mpr ⟨⟨_, List.mem_cons_self, hreads⟩, ?_⟩,
        List.forall_mem_cons.mpr ⟨⟨c, List.mem_cons_self, hreads⟩, ?_⟩⟩
      · intro d hd
        obtain ⟨p, hp, hdp⟩ := hall d hd
        exact ⟨p, List.mem_cons_of_mem _ hp, hdp⟩
      · intro p hp
        obtain ⟨d, hd, hdp⟩ := honly p hp
        exact ⟨d, List.mem_cons_of_mem _ hd, hdp⟩

theorem providerSymbols_returns (h : ∀ c ∈ paths, ∃ p, fs.Reads c p) :
    ∃ providers, value (fs.providerSymbols paths) = .ok providers := by
  induction paths with
  | nil => exact ⟨[], rfl⟩
  | cons c paths ih =>
    obtain ⟨⟨p, _, hne, elf, helf, hsymbols⟩, hall⟩ := List.forall_mem_cons.mp h
    obtain ⟨rest, hrest⟩ := ih hall
    refine ⟨⟨c.toStr, p.symbols⟩ :: rest, bind_eq_ok.mpr ⟨elf, helf, bind_eq_ok.mpr ⟨_, hsymbols, ?_⟩⟩⟩
    rw [if_neg hne]
    exact bind_eq_ok.mpr ⟨rest, hrest, rfl⟩

end FileSystem

theorem checkAliases_eq_ok {providers : List Provider} {aliases : List (Str × Str)} {u : Unit} :
    value (checkAliases providers aliases) = .ok u ↔
      ∀ e ∈ aliases, symbolProviders providers e.2 ≠ [] := by
  induction aliases with
  | nil => simp [checkAliases]
  | cons e aliases ih =>
    obtain ⟨required, provided⟩ := e
    rw [checkAliases, List.forall_mem_cons]
    by_cases hnil : symbolProviders providers provided = []
    · simp [hnil]
    · rw [if_neg hnil, ih]
      exact (and_iff_right hnil).symm

theorem mem_symbolProviders {providers : List Provider} {name provider : Str} :
    provider ∈ symbolProviders providers name ↔
      ∃ p ∈ providers, name ∈ p.symbols ∧ p.path = provider := by
  simp [symbolProviders, and_assoc]

theorem sortedSet_eq_nil {xs : List Str} : sortedSet strKey xs = [] ↔ xs = [] := by
  simp only [List.eq_nil_iff_forall_not_mem, mem_sortedSet]

theorem providedBy_eq_none {providers : List Provider} {aliases : List (Str × Str)}
    {u : UndefinedSymbol} : providedBy providers aliases u = none ↔
      symbolProviders providers (providedName aliases u) = [] := by
  rw [← sortedSet_eq_nil, providedBy, ← providedName]
  cases sortedSet strKey (symbolProviders providers (providedName aliases u)) with
  | nil => simp
  | cons name names => simp

theorem providedBy_eq_some {providers : List Provider} {aliases : List (Str × Str)}
    {u : UndefinedSymbol} {p : ProvidedSymbol} (h : providedBy providers aliases u = some p) :
    p.requirement = u ∧ p.providers =
      sortedSet strKey (symbolProviders providers (providedName aliases u)) := by
  rw [providedBy, ← providedName] at h
  cases hs : sortedSet strKey (symbolProviders providers (providedName aliases u)) with
  | nil =>
    rw [hs] at h
    cases h
  | cons name names =>
    rw [hs] at h
    obtain rfl := Option.some.inj h
    exact ⟨rfl, rfl⟩

/-- Only what is provided counts, not in which order it has been read. -/
theorem providedBy_congr {providers providers' : List Provider}
    (h : ∀ name provider, provider ∈ symbolProviders providers name ↔
      provider ∈ symbolProviders providers' name) (aliases : List (Str × Str)) :
    providedBy providers aliases = providedBy providers' aliases := by
  funext u
  rw [providedBy, providedBy, ← providedName]
  rw [sortedSet_congr strKey_injective (h (providedName aliases u))]

/-! ### The analysis -/

/-- The analysis of what has been read of the providers. -/
def analysisOf (requirements : List UndefinedSymbol) (providers : List Provider)
    (aliases : List (Str × Str)) : Analysis :=
  let provided := requirements.filterMap (providedBy providers aliases)
  let others := requirements.filter fun u => providedBy providers aliases u = none
  let missing := others.filter fun u => u.binding ≠ str "weak"
  let unresolvedWeak := others.filter fun u => u.binding = str "weak"
  { matchingPolicy := str "musl-name-based-runtime-resolution"
    providers := providers.map fun p => (p.path, p.symbols.length)
    aliases := aliases.insertionSort fun a b => [a.1, a.2] ≤ [b.1, b.2]
    providedCount := provided.length
    missingCount := missing.length
    unresolvedWeakCount := unresolvedWeak.length
    provided := provided
    missing := missing
    unresolvedWeak := unresolvedWeak }

theorem map_filterMap_of_inverse {α β : Type} {f : α → Option β} {g : β → α}
    (h : ∀ a b, f a = some b → g b = a) (as : List α) :
    (as.filterMap f).map g = as.filter fun a => (f a).isSome := by
  induction as with
  | nil => rfl
  | cons a as ih =>
    cases hf : f a with
    | none => simp [hf, ih]
    | some b => simp [hf, ih, h a b hf]

theorem analysisOf_shares (requirements : List UndefinedSymbol) (providers : List Provider)
    (aliases : List (Str × Str)) :
    (analysisOf requirements providers aliases).Shares requirements := by
  have hprovided : (analysisOf requirements providers aliases).provided.map
      ProvidedSymbol.requirement =
        requirements.filter fun u => (providedBy providers aliases u).isSome :=
    map_filterMap_of_inverse (fun _ _ h => (providedBy_eq_some h).1) requirements
  have hothers : (requirements.filter fun u => !(providedBy providers aliases u).isSome) =
      requirements.filter fun u => providedBy providers aliases u = none := by
    apply List.filter_congr
    intro u _
    cases providedBy providers aliases u <;> rfl
  have hweak : ∀ us : List UndefinedSymbol, (us.filter fun u => !decide (u.binding ≠ str "weak")) =
      us.filter fun u => u.binding = str "weak" := by
    intro us
    apply List.filter_congr
    intro u _
    simp
  have hleft : ((analysisOf requirements providers aliases).missing ++
      (analysisOf requirements providers aliases).unresolvedWeak).Perm
        (requirements.filter fun u => providedBy providers aliases u = none) := by
    have hperm := List.filter_append_perm (fun u : UndefinedSymbol => u.binding ≠ str "weak")
      (requirements.filter fun u => providedBy providers aliases u = none)
    rwa [hweak] at hperm
  have hsome : ∀ p ∈ (analysisOf requirements providers aliases).provided,
      (providedBy providers aliases p.requirement).isSome = true := by
    intro p hp
    have hmem := List.mem_map_of_mem (f := ProvidedSymbol.requirement) hp
    rw [hprovided] at hmem
    exact (List.mem_filter.mp hmem).2
  have hnone : ∀ us : List UndefinedSymbol, ∀ u,
      us.Sublist (requirements.filter fun u => providedBy providers aliases u = none) → u ∈ us →
        (providedBy providers aliases u).isSome = false := by
    intro us u hsub hu
    have hmem := of_decide_eq_true (List.mem_filter.mp (hsub.subset hu)).2
    rw [hmem, Option.isSome_none]
  constructor
  · rw [hprovided]
    refine (hleft.append_left _).trans ?_
    rw [← hothers]
    exact List.filter_append_perm _ requirements
  · intro p hp hmissing
    have hfalse := hnone _ _ List.filter_sublist hmissing
    rw [hsome p hp] at hfalse
    cases hfalse
  · intro p hp hunresolved
    have hfalse := hnone _ _ List.filter_sublist hunresolved
    rw [hsome p hp] at hfalse
    cases hfalse
  · intro u hu hu'
    exact of_decide_eq_true (List.mem_filter.mp hu).2 (of_decide_eq_true (List.mem_filter.mp hu').2)
  · rw [hprovided]
    exact List.filter_sublist
  · exact List.filter_sublist.trans List.filter_sublist
  · exact List.filter_sublist.trans List.filter_sublist
  · rfl
  · rfl
  · rfl

namespace FileSystem

variable {fs : FileSystem} {requirements : List UndefinedSymbol} {paths : List Path}
  {aliases : List (Str × Str)} {a : Analysis}

theorem providerAnalysis_eq_ok :
    value (fs.providerAnalysis requirements paths aliases) = .ok a ↔
      ∃ canonicalPaths providers, value (fs.providerPaths [] paths) = .ok canonicalPaths ∧
        value (fs.providerSymbols canonicalPaths) = .ok providers ∧
        (∀ e ∈ aliases, symbolProviders providers e.2 ≠ []) ∧
        (∀ e ∈ aliases, e.1 ∈ requirements.map UndefinedSymbol.name) ∧
        a = analysisOf requirements providers aliases := by
  have hunknown : sortedSet strKey ((aliases.map Prod.fst).filter
      (· ∉ requirements.map UndefinedSymbol.name)) = [] ↔
        ∀ e ∈ aliases, e.1 ∈ requirements.map UndefinedSymbol.name := by
    rw [sortedSet_eq_nil, List.filter_eq_nil_iff]
    simp
  simp only [providerAnalysis, bind_eq_ok]
  constructor
  · intro h
    obtain ⟨canonicalPaths, hpaths, providers, hproviders, _, haliases, h⟩ := h
    rw [checkAliases_eq_ok] at haliases
    split at h
    · cases h
    · rename_i hknown
      have ha := Except.ok.inj h
      exact ⟨canonicalPaths, providers, hpaths, hproviders, haliases,
        hunknown.mp (not_not.mp hknown), ha.symm⟩
  · intro h
    obtain ⟨canonicalPaths, providers, hpaths, hproviders, haliases, hknown, rfl⟩ := h
    refine ⟨canonicalPaths, hpaths, providers, hproviders, (), checkAliases_eq_ok.mpr haliases, ?_⟩
    rw [if_neg (not_not.mpr (hunknown.mpr hknown))]
    rfl

/-- What has been read provides exactly what the files at the paths export. -/
theorem mem_symbolProviders_iff {canonicalPaths : List Path} {providers : List Provider}
    (hpaths : value (fs.providerPaths [] paths) = .ok canonicalPaths)
    (hproviders : value (fs.providerSymbols canonicalPaths) = .ok providers) (name provider : Str) :
    provider ∈ symbolProviders providers name ↔ fs.Provides paths name provider := by
  obtain ⟨_, hmem⟩ := providerPaths_ok hpaths
  obtain ⟨hall, honly⟩ := providerSymbols_reads hproviders
  rw [mem_symbolProviders]
  constructor
  · intro h
    obtain ⟨p, hp, hname, hpath⟩ := h
    obtain ⟨c, hc, hreads⟩ := honly p hp
    rcases (hmem c).mp hc with hnil | ⟨path, hpath', hresolve⟩
    · cases hnil
    · exact ⟨path, hpath', c, hresolve, hreads.1.symm.trans hpath, hreads.mem_symbols.mp hname⟩
  · intro h
    obtain ⟨path, hpath, c, hresolve, hprovider, hexports⟩ := h
    obtain ⟨p, hp, hreads⟩ := hall c ((hmem c).mpr (.inr ⟨path, hpath, hresolve⟩))
    exact ⟨p, hp, hreads.mem_symbols.mpr hexports, hreads.1.trans hprovider⟩

/-- Other paths to the same files are accepted as well, with the same three lists. -/
theorem providerAnalysis_congr {paths' : List Path} (hsame : ∀ path, path ∈ paths' ↔ path ∈ paths)
    (h : value (fs.providerAnalysis requirements paths aliases) = .ok a) :
    ∃ a', value (fs.providerAnalysis requirements paths' aliases) = .ok a' ∧
      a'.provided = a.provided ∧ a'.missing = a.missing ∧ a'.unresolvedWeak = a.unresolvedWeak := by
  obtain ⟨canonicalPaths, providers, hpaths, hproviders, haliases, hknown, rfl⟩ :=
    providerAnalysis_eq_ok.mp h
  obtain ⟨hresolve, hmem⟩ := providerPaths_ok hpaths
  obtain ⟨hall, _⟩ := providerSymbols_reads hproviders
  obtain ⟨canonicalPaths', hpaths'⟩ :=
    providerPaths_returns (fun path hpath => hresolve path ((hsame path).mp hpath)) []
  obtain ⟨_, hmem'⟩ := providerPaths_ok hpaths'
  have hreads : ∀ c ∈ canonicalPaths', ∃ p, fs.Reads c p := by
    intro c hc
    rcases (hmem' c).mp hc with hnil | ⟨path, hpath, hc⟩
    · cases hnil
    · obtain ⟨p, -, hp⟩ := hall c ((hmem c).mpr (.inr ⟨path, (hsame path).mp hpath, hc⟩))
      exact ⟨p, hp⟩
  obtain ⟨providers', hproviders'⟩ := providerSymbols_returns hreads
  have hprovides : ∀ name provider, provider ∈ symbolProviders providers' name ↔
      provider ∈ symbolProviders providers name := by
    intro name provider
    rw [mem_symbolProviders_iff hpaths' hproviders', mem_symbolProviders_iff hpaths hproviders]
    simp only [Provides, hsame]
  have haliases' : ∀ e ∈ aliases, symbolProviders providers' e.2 ≠ [] := by
    intro e he hnil
    apply haliases e he
    rw [List.eq_nil_iff_forall_not_mem] at hnil ⊢
    intro provider hmem
    exact hnil provider ((hprovides _ _).mpr hmem)
  have hby := providedBy_congr hprovides aliases
  refine ⟨analysisOf requirements providers' aliases, ?_, ?_, ?_, ?_⟩
  · exact providerAnalysis_eq_ok.mpr
      ⟨canonicalPaths', providers', hpaths', hproviders', haliases', hknown, rfl⟩
  · simp only [analysisOf, hby]
  · simp only [analysisOf, hby]
  · simp only [analysisOf, hby]

/-- The analysis shares out the requirements: what some provider exports is provided, by exactly the
providers that export it; of the others the weak ones are unresolved and the rest is missing. The
order of the paths and repeated paths make no difference to it. -/
theorem providerAnalysis_shares (h : value (fs.providerAnalysis requirements paths aliases) = .ok a) :
    a.Shares requirements ∧
    (∀ u ∈ requirements, (∃ p ∈ a.provided, p.requirement = u) ↔
      ∃ provider, fs.Provides paths (providedName aliases u) provider) ∧
    (∀ p ∈ a.provided, p.providers.Pairwise (· < ·) ∧
      ∀ provider, provider ∈ p.providers ↔
        fs.Provides paths (providedName aliases p.requirement) provider) ∧
    (∀ u ∈ a.missing, u.binding ≠ str "weak") ∧ (∀ u ∈ a.unresolvedWeak, u.binding = str "weak") ∧
    ∀ paths' : List Path, (∀ path, path ∈ paths' ↔ path ∈ paths) →
      ∃ a', value (fs.providerAnalysis requirements paths' aliases) = .ok a' ∧
        a'.provided = a.provided ∧ a'.missing = a.missing ∧
          a'.unresolvedWeak = a.unresolvedWeak := by
  obtain ⟨canonicalPaths, providers, hpaths, hproviders, _, _, ha⟩ := providerAnalysis_eq_ok.mp h
  have hprovides := mem_symbolProviders_iff hpaths hproviders
  refine ⟨ha ▸ analysisOf_shares requirements providers aliases, ?_, ?_, ?_, ?_,
    fun paths' hsame => providerAnalysis_congr hsame h⟩
  · intro u hu
    simp only [← hprovides, ha, analysisOf, List.mem_filterMap]
    constructor
    · intro hp
      obtain ⟨p, ⟨u', hu', hby⟩, rfl⟩ := hp
      obtain rfl := (providedBy_eq_some hby).1
      have hne : symbolProviders providers (providedName aliases p.requirement) ≠ [] := by
        intro hnil
        rw [providedBy_eq_none.mpr hnil] at hby
        cases hby
      exact List.exists_mem_of_ne_nil _ hne
    · intro hp
      obtain ⟨provider, hprovider⟩ := hp
      cases hby : providedBy providers aliases u with
      | none =>
        rw [providedBy_eq_none.mp hby] at hprovider
        cases hprovider
      | some p => exact ⟨p, ⟨u, hu, hby⟩, (providedBy_eq_some hby).1⟩
  · intro p hp
    rw [ha] at hp
    obtain ⟨u, _, hby⟩ := List.mem_filterMap.mp hp
    obtain ⟨rfl, hlist⟩ := providedBy_eq_some hby
    rw [hlist]
    refine ⟨(sortedSet_sorted strKey_injective _).imp strKey_lt.mp, fun provider => ?_⟩
    rw [mem_sortedSet, hprovides]
  · intro u hu
    rw [ha] at hu
    exact of_decide_eq_true (List.mem_filter.mp hu).2
  · intro u hu
    rw [ha] at hu
    exact of_decide_eq_true (List.mem_filter.mp hu).2

/-- A requirement of each kind: provided by its name, by an alias, weak and not provided, and
missing. -/
def fourRequirements : List UndefinedSymbol :=
  [⟨str "g", none, none, str "global", false⟩, ⟨str "h", none, none, str "global", false⟩,
    ⟨str "f", none, none, str "weak", false⟩, ⟨str "k", none, none, str "global", false⟩]

/-- An object that exports `g`, given once and twice. -/
theorem providerAnalysis_four :
    ∃ a a', value ((single (twins 2)).providerAnalysis fourRequirements [singlePath]
        [(str "h", str "g")]) = .ok a ∧
      value ((single (twins 2)).providerAnalysis fourRequirements [singlePath, singlePath]
        [(str "h", str "g")]) = .ok a' ∧
      a.Shares fourRequirements ∧ a'.provided = a.provided ∧ a'.missing = a.missing ∧
        (a.providedCount, a.missingCount, a.unresolvedWeakCount) = (2, 1, 1) := by
  have hrun : (value ((single (twins 2)).providerAnalysis fourRequirements [singlePath]
      [(str "h", str "g")])).toOption.map
        (fun a => (a.providedCount, a.missingCount, a.unresolvedWeakCount)) = some (2, 1, 1) := by
    decide +kernel
  cases ha : value ((single (twins 2)).providerAnalysis fourRequirements [singlePath]
      [(str "h", str "g")]) with
  | error e =>
    rw [ha] at hrun
    cases hrun
  | ok a =>
    rw [ha] at hrun
    obtain ⟨hshares, _, _, _, _, hsame⟩ := providerAnalysis_shares ha
    obtain ⟨a', ha', hprovided, hmissing, _⟩ := hsame [singlePath, singlePath] (by simp)
    exact ⟨a, a', rfl, ha', hshares, hprovided, hmissing, Option.some.inj hrun⟩

end FileSystem

end MuslBsd.Scan
