import MuslBsd.Manifest.Validate

/-! `build_manifest`: from an inventory, and the policies of a base manifest, to a manifest. -/
namespace MuslBsd.Manifest

/-! ### What the tool writes -/

structure RootRecord where
  file : Str
  soname : Option Str

structure MissingRecord where
  source : Str
  name : Str

structure SymbolRecord where
  key : Key
  implementation : Str
  test : Json
  quality : Json

namespace RootRecord

def tuple (r : RootRecord) : List Str := [r.file, r.soname.getD []]

def toDict (r : RootRecord) : Dict :=
  .ofFields [(str "file", .str r.file), (str "soname", optional r.soname)]

end RootRecord

namespace MissingRecord

def tuple (m : MissingRecord) : List Str := [m.source, m.name]

def toDict (m : MissingRecord) : Dict :=
  .ofFields [(str "from", .str m.source), (str "name", .str m.name)]

end MissingRecord

def SymbolRecord.toDict (s : SymbolRecord) : Dict :=
  .ofFields [(str "name", .str s.key.name), (str "version", .str s.key.version),
    (str "soname", .str s.key.soname), (str "binding", .str s.key.binding),
    (str "implementation", .str s.implementation), (str "test", s.test), (str "quality", s.quality)]

/-- The dict that `build_manifest` returns, before it is JSON. -/
structure GeneratedManifest where
  sourceRoots : List RootRecord
  missingDependencies : List MissingRecord
  symbols : List SymbolRecord

def GeneratedManifest.toDict (m : GeneratedManifest) : Dict :=
  .ofFields [(str "schema", SCHEMA_VERSION), (str "scope", .str SCOPE),
    (str "matching_policy", .str MATCHING_POLICY),
    (str "source_roots", .arr (m.sourceRoots.map fun r => r.toDict.toJson)),
    (str "missing_dependencies", .arr (m.missingDependencies.map fun d => d.toDict.toJson)),
    (str "symbols", .arr (m.symbols.map fun s => s.toDict.toJson))]

/-! ### Reading the inventory -/

/-- `item.get` is there for dicts only. -/
def asDict (item : Json) : Result Dict :=
  match item with
  | .obj keys val => .ok ⟨keys, val⟩
  | _ => .error .attribute

/-- The value that a dict made of these pairs, one after the other, has for `k`. -/
def dictGet {κ ν : Type} [DecidableEq κ] (pairs : List (κ × ν)) (k : κ) : Option ν :=
  pairs.reverse.lookup k

theorem dictGet_mem {κ ν : Type} [DecidableEq κ] {pairs : List (κ × ν)} {k : κ} {v : ν}
    (h : dictGet pairs k = some v) : (k, v) ∈ pairs := by
  obtain ⟨l, r, hl, -⟩ := List.lookup_eq_some_iff.mp h
  rw [← List.mem_reverse, hl]
  simp

theorem exists_dictGet {κ ν : Type} [DecidableEq κ] {pairs : List (κ × ν)} {k : κ}
    (h : k ∈ pairs.map Prod.fst) : ∃ v, dictGet pairs k = some v ∧ (k, v) ∈ pairs := by
  obtain ⟨e, he, rfl⟩ := List.mem_map.mp h
  cases hd : dictGet pairs e.1 with
  | none =>
    have hne := List.lookup_eq_none_iff.mp hd e (List.mem_reverse.mpr he)
    simp at hne
  | some v => exact ⟨v, rfl, dictGet_mem hd⟩

/-- `_inventory_key`. -/
def inventoryKey (item : Dict) (context : Context) : Result Key := do
  let name ← requireString item (str "name") context
  let version ← requireString item (str "version") context
  let library ← requireString item (str "library") context
  let binding ← requireString item (str "binding") context
  let _ ← requireBool item (str "hidden") context
  require (SupportedVersion version) (.unsupportedVersion context version)
  require (SupportedBinding binding) (.unsupportedBinding context binding)
  pure ⟨name, version, library, binding⟩

def providerPath (context : Context) (_ : ℕ) (provider : Json) : Result Str :=
  match provider with
  | .str (c :: s) => .ok (c :: s)
  | _ => .error (.manifest (.providersList context))

/-- `providers`, a non-empty list of non-empty strings. -/
def providerPaths (item : Dict) (context : Context) : Result (List Str) :=
  match item.get (str "providers") with
  | .arr (p :: ps) => mapIndexed (providerPath context) 0 (p :: ps)
  | _ => .error (.manifest (.providersList context))

/-- Which of the providers, all by name, takes precedence. -/
def providerOf (names : List Str) (context : Context) : Result Str :=
  if names.any (str "libmusl-bsd-core.so").isPrefixOf then .ok (str "musl-bsd-core")
  else if str "libc.so" ∈ names then .ok (str "musl-libc")
  else
    match names with
    | [name] => .ok (str "elf-provider[" ++ name ++ str "]")
    | _ => .error (.manifest (.ambiguousProvider context (names.insertionSort (· ≤ ·))))

/-- `_provider_implementation`. -/
def providerImplementation (index : ℕ) (item : Json) : Result Str := do
  let item ← asDict item
  let providedSymbol ← requireString item (str "provided_symbol") (.provided index)
  let providers ← providerPaths item (.provided index)
  let provider ← providerOf (providers.map pathName).dedup (.provided index)
  pure (provider ++ str ":" ++ providedSymbol)

/-- The loop over the provider outcomes, with the dict `implementations` made so far. -/
def collectOutcomes : ℕ → List (Key × Str) → List (Json × Str) → Result (List (Key × Str))
  | _, implementations, [] => .ok implementations
  | index, implementations, (item, implementation) :: rest => do
    let item ← requireDict item (.outcomeObject index)
    let key ← inventoryKey item (.providerOutcome index)
    require (key ∉ implementations.map Prod.fst) (.duplicateOutcome key)
    collectOutcomes (index + 1) (implementations ++ [(key, implementation)]) rest

/-- The loop over the requirements, with the keys seen so far. -/
def collectRequirements (implementations : List (Key × Str)) :
    ℕ → List Key → List Json → Result (List Dict × List Key)
  | _, seen, [] => .ok ([], seen)
  | index, seen, item :: rest => do
    let item ← requireDict item (.requirementObject index)
    let key ← inventoryKey item (.requirement index)
    require (key ∉ seen) (.duplicateRequirement key)
    require (key ∈ implementations.map Prod.fst) (.noOutcome key)
    let (normalized, seen) ← collectRequirements implementations (index + 1) (seen ++ [key]) rest
    pure (item :: normalized, seen)

def count (n : ℕ) : Json := .num (.rat n)

/-- `_inventory_requirements`. -/
def inventoryRequirements (inventory : Dict) : Result (List Dict × List (Key × Str)) := do
  let summary ← requireDict (inventory.get (str "summary")) .summaryAndAnalysis
  let analysis ← requireDict (inventory.get (str "provider_analysis")) .summaryAndAnalysis
  let requirements ← requireList (summary.get (str "required_glibc_symbols"))
    (str "summary.required_glibc_symbols")
  require (Json.eq (analysis.get (str "matching_policy")) (.str MATCHING_POLICY))
    .providerMatchingPolicy
  require (Json.eq (analysis.get (str "missing_count")) (count 0)) .unresolvedRequirements
  let provided ← requireList (analysis.get (str "provided")) (str "provider_analysis.provided")
  let unresolvedWeak ← requireList (analysis.get (str "unresolved_weak"))
    (str "provider_analysis.unresolved_weak")
  require (Json.eq (analysis.get (str "provided_count")) (count provided.length)) .providedCount
  require (Json.eq (analysis.get (str "unresolved_weak_count")) (count unresolvedWeak.length))
    .unresolvedWeakCount
  let outcomes ← mapIndexed providerImplementation 0 provided
  let outcomes :=
    provided.zip outcomes ++ unresolvedWeak.map fun item => (item, str "optional-unresolved")
  let implementations ← collectOutcomes 0 [] outcomes
  let (normalized, seen) ← collectRequirements implementations 0 [] requirements
  require ((∀ k ∈ seen, k ∈ implementations.map Prod.fst) ∧
    ∀ k ∈ implementations.map Prod.fst, k ∈ seen) .nonRequirementOutcomes
  pure (normalized, implementations)

/-- `by_path`: the reports that are dicts with a path. -/
def reportsByPath (objects : List Json) : List (Str × Dict) :=
  objects.filterMap fun item =>
    match item with
    | .obj keys val =>
      match (Dict.mk keys val).get (str "path") with
      | .str path => some (path, ⟨keys, val⟩)
      | _ => none
    | _ => none

/-- A root with the SONAME of its report. -/
def rootReport (byPath : List (Str × Dict)) (index : ℕ) (root : Json) : Result (Str × Option Str) :=
  match root with
  | .str (c :: s) =>
    match dictGet byPath (c :: s) with
    | none => .error (.manifest (.noObjectReport (c :: s)))
    | some report =>
      match report.get (str "soname") with
      | .null => .ok (c :: s, none)
      | .str (d :: t) => .ok (c :: s, some (d :: t))
      | _ => .error (.manifest (.invalidSoname (c :: s)))
  | _ => .error (.manifest (.rootString index))

def rootReports (inventory : Dict) : Result (List (Str × Option Str)) := do
  let roots ← requireList (inventory.get (str "roots")) (str "roots")
  let objects ← requireList (inventory.get (str "objects")) (str "objects")
  mapIndexed (rootReport (reportsByPath objects)) 0 roots

/-- `_source_roots`. -/
def sourceRoots (inventory : Dict) : Result (List RootRecord) := do
  let roots ← rootReports inventory
  pure ((roots.map fun r => ⟨pathName r.1, r.2⟩).insertionSort fun a b : RootRecord =>
    a.tuple ≤ b.tuple)

/-- Who misses a dependency, and which. -/
def missingReport (index : ℕ) (item : Json) : Result (Str × Str) := do
  let item ← requireDict item (.missingDependencyObject index)
  let source ← requireString item (str "from") (.missingDependency index)
  let name ← requireString item (str "name") (.missingDependency index)
  pure (source, name)

def missingReports (inventory : Dict) : Result (List (Str × Str)) := do
  let missing ← requireList (inventory.get (str "missing_dependencies")) (str "missing_dependencies")
  mapIndexed missingReport 0 missing

/-- `_missing_dependencies`. -/
def missingDependencies (inventory : Dict) : Result (List MissingRecord) := do
  let missing ← missingReports inventory
  pure ((missing.map fun m => ⟨pathName m.1, m.2⟩).insertionSort fun a b : MissingRecord =>
    a.tuple ≤ b.tuple)

/-! ### The manifest -/

/-- Test and quality of a requirement. -/
abbrev Policy := Json × Json

def defaultPolicy : Policy :=
  (.str (str "tools/nvidia-scan:provider-analysis"), .str (str "UNSUPPORTED"))

/-- `item[field]`. -/
def item (d : Dict) (field : Str) : Result Json :=
  if field ∈ d.keys then .ok (d.val field) else .error (.key [field])

def basePolicy (_ : ℕ) (symbol : Json) : Result (Key × Policy) := do
  let symbol ← asDict symbol
  let key ← manifestKey symbol .baseManifestSymbol
  let test ← item symbol (str "test")
  let quality ← item symbol (str "quality")
  pure (key, test, quality)

/-- `manifest["symbols"]`, to be looped over. -/
def manifestSymbols (manifest : Dict) : Result (List Json) := do
  match ← item manifest (str "symbols") with
  | .arr symbols => pure symbols
  | _ => .error .type

/-- The policies of a base manifest, if there is one. -/
def basePolicies (base : Option Dict) : Result (List (Key × Policy)) :=
  match base with
  | none => pure []
  | some base => do
    validateManifest base
    let symbols ← manifestSymbols base
    mapIndexed basePolicy 0 symbols

/-- A round of the loop over the requirements. -/
def buildSymbol (policies : List (Key × Policy)) (implementations : List (Key × Str)) (index : ℕ)
    (requirement : Dict) : Result SymbolRecord := do
  let key ← inventoryKey requirement (.requirement index)
  let policy := (dictGet policies key).getD defaultPolicy
  match dictGet implementations key with
  | none => .error (.key key.tuple)
  | some implementation => pure ⟨key, implementation, policy.1, policy.2⟩

/-- `build_manifest`. -/
def buildManifest (inventory : Dict) (base : Option Dict) : Result GeneratedManifest := do
  let (requirements, implementations) ← inventoryRequirements inventory
  let policies ← basePolicies base
  let symbols ← mapIndexed (buildSymbol policies implementations) 0 requirements
  let roots ← sourceRoots inventory
  let missing ← missingDependencies inventory
  pure ⟨roots, missing, symbols.insertionSort fun a b => a.key.tuple ≤ b.key.tuple⟩

/-! ### What a manifest is built from -/

@[simp] theorem asDict_eq_ok {x : Json} {d : Dict} : asDict x = .ok d ↔ x = d.toJson := by
  cases d
  cases x <;> simp [asDict, Dict.toJson]

@[simp] theorem item_eq_ok {d : Dict} {field : Str} {x : Json} :
    item d field = .ok x ↔ field ∈ d.keys ∧ d.val field = x := by
  unfold item
  split <;> simp_all

/-- The item has these strings under the names of the inventory, and a legal version and binding. -/
structure HasInventoryKey (item : Dict) (k : Key) : Prop where
  name : item.get (str "name") = .str k.name ∧ k.name ≠ []
  version : item.get (str "version") = .str k.version ∧ k.version ≠ []
  library : item.get (str "library") = .str k.soname ∧ k.soname ≠ []
  binding : item.get (str "binding") = .str k.binding ∧ k.binding ≠ []
  supportedVersion : SupportedVersion k.version
  supportedBinding : SupportedBinding k.binding

theorem HasInventoryKey.of_ok {item : Dict} {context : Context} {k : Key}
    (h : inventoryKey item context = .ok k) : HasInventoryKey item k := by
  simp only [inventoryKey, bind_eq_ok, requireString_eq_ok, require_eq_ok, pure_eq_ok] at h
  obtain ⟨n, hn, v, hv, l, hl, b, hb, -, -, -, hsv, -, hsb, rfl⟩ := h
  exact ⟨hn, hv, hl, hb, hsv, hsb⟩

theorem HasInventoryKey.unique {item : Dict} {k l : Key} (hk : HasInventoryKey item k)
    (hl : HasInventoryKey item l) : k = l := by
  have hn := Json.str.inj (hk.name.1.symm.trans hl.name.1)
  have hv := Json.str.inj (hk.version.1.symm.trans hl.version.1)
  have hs := Json.str.inj (hk.library.1.symm.trans hl.library.1)
  have hb := Json.str.inj (hk.binding.1.symm.trans hl.binding.1)
  cases k
  cases l
  simp only at hn hv hs hb
  rw [hn, hv, hs, hb]

theorem providerImplementation_ne_nil {index : ℕ} {x : Json} {s : Str}
    (h : providerImplementation index x = .ok s) : s ≠ [] := by
  simp only [providerImplementation, bind_eq_ok, pure_eq_ok] at h
  obtain ⟨_, _, _, _, _, _, _, _, rfl⟩ := h
  simp [str]

/-- Every implementation comes from an outcome. -/
theorem mem_collectOutcomes {index : ℕ} {outcomes : List (Json × Str)}
    {made implementations : List (Key × Str)} {k : Key} {s : Str}
    (h : collectOutcomes index made outcomes = .ok implementations) (hk : (k, s) ∈ implementations) :
    (k, s) ∈ made ∨ s ∈ outcomes.map Prod.snd := by
  induction outcomes generalizing index made with
  | nil =>
    obtain rfl := Except.ok.inj h
    exact .inl hk
  | cons o outcomes ih =>
    obtain ⟨x, t⟩ := o
    simp only [collectOutcomes, bind_eq_ok] at h
    obtain ⟨_, _, key, _, _, _, h⟩ := h
    rcases ih h with hm | hm
    · rcases List.mem_append.mp hm with hm | hm
      · exact .inl hm
      · obtain ⟨-, rfl⟩ := Prod.mk.inj (List.mem_singleton.mp hm)
        exact .inr (by simp)
    · exact .inr (List.mem_cons_of_mem _ hm)

/-- The requirements have distinct keys, each with an outcome. -/
theorem collectRequirements_spec {implementations : List (Key × Str)} {index : ℕ} {seen seen' : List Key}
    {items : List Json} {normalized : List Dict}
    (h : collectRequirements implementations index seen items = .ok (normalized, seen')) :
    ∃ keys, List.Forall₂ HasInventoryKey normalized keys ∧ seen' = seen ++ keys ∧
      (seen.Nodup → seen'.Nodup) ∧ ∀ k ∈ keys, k ∈ implementations.map Prod.fst := by
  induction items generalizing index seen normalized with
  | nil =>
    obtain ⟨rfl, rfl⟩ := Prod.mk.inj (Except.ok.inj h)
    exact ⟨[], .nil, by simp, id, by simp⟩
  | cons x items ih =>
    simp only [collectRequirements, bind_eq_ok, require_eq_ok, pure_eq_ok] at h
    obtain ⟨d, -, key, hkey, -, hnew, -, hout, ⟨rest, seen₁⟩, hrest, he⟩ := h
    obtain ⟨rfl, rfl⟩ := Prod.mk.inj he
    obtain ⟨keys, hkeys, hs, hnd, himpl⟩ := ih hrest
    refine ⟨key :: keys, .cons (.of_ok hkey) hkeys, by rw [hs]; simp, fun hseen => hnd ?_, ?_⟩
    · rw [List.nodup_append]
      refine ⟨hseen, by simp, ?_⟩
      rintro a ha b hb rfl
      exact hnew (List.mem_singleton.mp hb ▸ ha)
    · intro k hk
      rcases List.mem_cons.mp hk with rfl | hk
      · exact hout
      · exact himpl k hk

theorem forall₂_right {α β : Type} {P : β → Prop} {as : List α} {bs : List β}
    (h : List.Forall₂ (fun _ b => P b) as bs) : ∀ b ∈ bs, P b := by
  induction h with
  | nil => simp
  | cons hb _ ih =>
    intro c hc
    rcases List.mem_cons.mp hc with rfl | hc
    · exact hb
    · exact ih c hc

/-- What the requirements of an inventory are. -/
theorem inventoryRequirements_spec {inventory : Dict} {requirements : List Dict}
    {implementations : List (Key × Str)}
    (h : inventoryRequirements inventory = .ok (requirements, implementations)) :
    (∃ keys, List.Forall₂ HasInventoryKey requirements keys ∧ keys.Nodup) ∧
      ∀ k s, (k, s) ∈ implementations → s ≠ [] := by
  simp only [inventoryRequirements, bind_eq_ok, require_eq_ok, pure_eq_ok] at h
  obtain ⟨_, _, _, _, items, _, _, _, _, _, provided, _, weak, _, _, _, _, _, outcomes, houtcomes,
    made, hmade, ⟨normalized, seen⟩, hreq, _, _, he⟩ := h
  obtain ⟨rfl, rfl⟩ := Prod.mk.inj he
  obtain ⟨keys, hkeys, hs, hnd, -⟩ := collectRequirements_spec hreq
  refine ⟨⟨keys, hkeys, by simpa [hs] using hnd List.nodup_nil⟩, fun k s hk => ?_⟩
  rcases mem_collectOutcomes hmade hk with hm | hm
  · simp at hm
  · rw [List.map_append, List.mem_append] at hm
    rcases hm with hm | hm
    · obtain ⟨⟨x, t⟩, hx, rfl⟩ := List.mem_map.mp hm
      have ht : t ∈ outcomes := (List.of_mem_zip hx).2
      have hall := mapIndexed_forall₂ (fun _ _ _ => providerImplementation_ne_nil) houtcomes
      exact forall₂_right hall t ht
    · simp only [List.map_map, List.mem_map] at hm
      obtain ⟨x, -, rfl⟩ := hm
      simp [str]

end MuslBsd.Manifest
