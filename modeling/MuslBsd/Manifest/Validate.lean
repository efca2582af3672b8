import MuslBsd.Manifest.Json

/-! `validate_manifest`, and the helpers with which the tool reads JSON. -/
namespace MuslBsd.Manifest

/-- A symbol requirement, as the tuple that keys the tool's dicts. -/
structure Key where
  name : Str
  version : Str
  soname : Str
  binding : Str
  deriving DecidableEq

/-- Tuples of strings are lists, whose order is Python's. -/
def Key.tuple (k : Key) : List Str := [k.name, k.version, k.soname, k.binding]

theorem Key.tuple_injective : Function.Injective Key.tuple := by
  rintro ⟨n, v, s, b⟩ ⟨n', v', s', b'⟩ h
  simpa [Key.tuple] using h

/-- What a message says it is about. -/
inductive Context
  | provided (index : ℕ)
  | providerOutcome (index : ℕ)
  | requirement (index : ℕ)
  | missingDependency (index : ℕ)
  | sourceRoots (index : ℕ)
  | missingDependencies (index : ℕ)
  | symbols (index : ℕ)
  | baseManifestSymbol
  | generatedSymbol
  | manifestSymbol
  deriving DecidableEq

/-- The texts of `ManifestError`, with what is filled in. -/
inductive Message
  | nonEmptyString (context : Context) (field : Str)
  | boolean (context : Context) (field : Str)
  | array (context : Str)
  | unsupportedVersion (context : Context) (version : Str)
  | unsupportedBinding (context : Context) (binding : Str)
  | providersList (context : Context)
  | ambiguousProvider (context : Context) (names : List Str)
  | summaryAndAnalysis
  | providerMatchingPolicy
  | unresolvedRequirements
  | providedCount
  | unresolvedWeakCount
  | outcomeObject (index : ℕ)
  | duplicateOutcome (key : Key)
  | requirementObject (index : ℕ)
  | duplicateRequirement (key : Key)
  | noOutcome (key : Key)
  | nonRequirementOutcomes
  | rootString (index : ℕ)
  | noObjectReport (root : Str)
  | invalidSoname (root : Str)
  | missingDependencyObject (index : ℕ)
  | topLevelFields
  | schema (value : Json)
  | scope
  | matchingPolicy
  | invalidFields (context : Context)
  | notBasename (context : Context) (field : Str)
  | sonameInvalid (context : Context)
  | notSorted (context : Str)
  | duplicates (context : Str)
  | versionSuffix (context : Context)
  | quality (context : Context) (value : Json)
  | requirements (missing extra : List Key)
  | rootsMismatch
  | missingDependenciesMismatch
  | implementationMismatch (key : Key)

inductive Error
  | manifest (message : Message)
  | attribute
  | type
  | key (k : List Str)

abbrev Result := Except Error

theorem bind_eq_ok {α β : Type} {x : Result α} {f : α → Result β} {b : β} :
    x >>= f = .ok b ↔ ∃ a, x = .ok a ∧ f a = .ok b := by
  cases x with
  | error e => simp [bind, Except.bind]
  | ok a => simp [bind, Except.bind]

theorem pure_eq_ok {α : Type} {a b : α} : (pure a : Result α) = .ok b ↔ a = b := by
  simp [pure, Except.pure]

/-- `if not c: raise ManifestError(..)`. -/
def require (c : Prop) [Decidable c] (message : Message) : Result Unit :=
  if c then .ok () else .error (.manifest message)

@[simp] theorem require_eq_ok {c : Prop} [Decidable c] {message : Message} {u : Unit} :
    require c message = .ok u ↔ c := by
  unfold require
  split <;> simp_all

/-- A loop over `enumerate(items)` that may raise. -/
def mapIndexed {α β : Type} (f : ℕ → α → Result β) : ℕ → List α → Result (List β)
  | _, [] => .ok []
  | i, a :: as => do
    let b ← f i a
    let bs ← mapIndexed f (i + 1) as
    pure (b :: bs)

/-- The loop ends well if and only if each of its rounds does. -/
theorem mapIndexed_eq_ok {α β : Type} {f : ℕ → α → Result β} {R : α → β → Prop}
    (h : ∀ i a b, f i a = .ok b ↔ R a b) {i : ℕ} {as : List α} {bs : List β} :
    mapIndexed f i as = .ok bs ↔ List.Forall₂ R as bs := by
  induction as generalizing i bs with
  | nil => simp [mapIndexed, Eq.comm]
  | cons a as ih =>
    simp only [mapIndexed, bind_eq_ok, pure_eq_ok, h, ih, List.forall₂_cons_left_iff]
    constructor
    · rintro ⟨b, hb, bs', hbs, rfl⟩
      exact ⟨b, bs', hb, hbs, rfl⟩
    · rintro ⟨b, bs', hb, hbs, rfl⟩
      exact ⟨b, hb, bs', hbs, rfl⟩

theorem mapIndexed_forall₂ {α β : Type} {f : ℕ → α → Result β} {R : α → β → Prop}
    (h : ∀ i a b, f i a = .ok b → R a b) {i : ℕ} {as : List α} {bs : List β}
    (hok : mapIndexed f i as = .ok bs) : List.Forall₂ R as bs := by
  induction as generalizing i bs with
  | nil =>
    obtain rfl := Except.ok.inj hok
    exact .nil
  | cons a as ih =>
    simp only [mapIndexed, bind_eq_ok, pure_eq_ok] at hok
    obtain ⟨b, hb, bs', hbs, rfl⟩ := hok
    exact .cons (h i a b hb) (ih hbs)

/-- `_require_string`. -/
def requireString (item : Dict) (field : Str) (context : Context) : Result Str :=
  match item.get field with
  | .str (c :: s) => .ok (c :: s)
  | _ => .error (.manifest (.nonEmptyString context field))

@[simp] theorem requireString_eq_ok {item : Dict} {field s : Str} {context : Context} :
    requireString item field context = .ok s ↔ item.get field = .str s ∧ s ≠ [] := by
  unfold requireString
  split
  · rename_i c t h
    rw [h]
    constructor
    · intro he
      obtain rfl := Except.ok.inj he
      simp
    · rintro ⟨he, -⟩
      rw [Json.str.inj he]
  · rename_i h
    constructor
    · intro he
      cases he
    · rintro ⟨he, hne⟩
      cases s with
      | nil => exact absurd rfl hne
      | cons c t => exact absurd he (h c t)

/-- `_require_bool`. -/
def requireBool (item : Dict) (field : Str) (context : Context) : Result Bool :=
  match item.get field with
  | .bool b => .ok b
  | _ => .error (.manifest (.boolean context field))

/-- `_require_list`. -/
def requireList (value : Json) (context : Str) : Result (List Json) :=
  match value with
  | .arr items => .ok items
  | _ => .error (.manifest (.array context))

@[simp] theorem requireList_eq_ok {value : Json} {context : Str} {items : List Json} :
    requireList value context = .ok items ↔ value = .arr items := by
  cases value <;> simp [requireList]

/-- `isinstance(item, dict)`. -/
def requireDict (item : Json) (message : Message) : Result Dict :=
  match item with
  | .obj keys val => .ok ⟨keys, val⟩
  | _ => .error (.manifest message)

@[simp] theorem requireDict_eq_ok {item : Json} {message : Message} {d : Dict} :
    requireDict item message = .ok d ↔ item = d.toJson := by
  cases d
  cases item <;> simp [requireDict, Dict.toJson]

/-- `_manifest_key`. -/
def manifestKey (item : Dict) (context : Context) : Result Key := do
  let name ← requireString item (str "name") context
  let version ← requireString item (str "version") context
  let soname ← requireString item (str "soname") context
  let binding ← requireString item (str "binding") context
  pure ⟨name, version, soname, binding⟩

/-- The item has these strings under the names of the key. -/
structure HasKey (item : Dict) (k : Key) : Prop where
  name : item.get (str "name") = .str k.name ∧ k.name ≠ []
  version : item.get (str "version") = .str k.version ∧ k.version ≠ []
  soname : item.get (str "soname") = .str k.soname ∧ k.soname ≠ []
  binding : item.get (str "binding") = .str k.binding ∧ k.binding ≠ []

@[simp] theorem manifestKey_eq_ok {item : Dict} {context : Context} {k : Key} :
    manifestKey item context = .ok k ↔ HasKey item k := by
  simp only [manifestKey, bind_eq_ok, pure_eq_ok, requireString_eq_ok]
  constructor
  · rintro ⟨n, hn, v, hv, s, hs, b, hb, rfl⟩
    exact ⟨hn, hv, hs, hb⟩
  · rintro ⟨hn, hv, hs, hb⟩
    exact ⟨_, hn, _, hv, _, hs, _, hb, rfl⟩

theorem HasKey.unique {item : Dict} {k l : Key} (hk : HasKey item k) (hl : HasKey item l) : k = l := by
  have hn := Json.str.inj (hk.name.1.symm.trans hl.name.1)
  have hv := Json.str.inj (hk.version.1.symm.trans hl.version.1)
  have hs := Json.str.inj (hk.soname.1.symm.trans hl.soname.1)
  have hb := Json.str.inj (hk.binding.1.symm.trans hl.binding.1)
  cases k
  cases l
  simp only at hn hv hs hb
  rw [hn, hv, hs, hb]

/-- `version.startswith("GLIBC_")` and not the private one. -/
def SupportedVersion (version : Str) : Prop :=
  str "GLIBC_" <+: version ∧ version ≠ str "GLIBC_PRIVATE"

instance (version : Str) : Decidable (SupportedVersion version) :=
  inferInstanceAs (Decidable (_ ∧ _))

def SupportedBinding (binding : Str) : Prop := binding = str "global" ∨ binding = str "weak"

instance (binding : Str) : Decidable (SupportedBinding binding) :=
  inferInstanceAs (Decidable (_ ∨ _))

def QUALITIES : List Str :=
  [str "EXACT", str "TRANSLATED", str "DEGRADED", str "STUB", str "UNSUPPORTED"]

def SYMBOL_FIELDS : List Str :=
  [str "name", str "version", str "soname", str "binding", str "implementation", str "test",
    str "quality"]

def MANIFEST_FIELDS : List Str :=
  [str "schema", str "scope", str "matching_policy", str "source_roots", str "missing_dependencies",
    str "symbols"]

def SCHEMA_VERSION : Json := .num (.rat 1)
def SCOPE : Str := str "observed NVIDIA/CUDA GLIBC-versioned undefined symbols"
def MATCHING_POLICY : Str := str "musl-name-based-runtime-resolution"

/-- `value not in QUALITIES`: lists and dicts cannot be hashed. -/
def requireQuality (value : Json) (context : Context) : Result Unit :=
  match value with
  | .str s => require (s ∈ QUALITIES) (.quality context value)
  | .arr _ | .obj _ _ => .error .type
  | _ => .error (.manifest (.quality context value))

@[simp] theorem requireQuality_eq_ok {value : Json} {context : Context} {u : Unit} :
    requireQuality value context = .ok u ↔ ∃ s, value = .str s ∧ s ∈ QUALITIES := by
  cases value <;> simp [requireQuality]

/-- `xs != sorted(xs)` and `len(xs) != len(set(xs))`. -/
def requireSorted (xs : List (List Str)) (context : Str) : Result Unit := do
  require (xs = xs.insertionSort (· ≤ ·)) (.notSorted context)
  require (xs.length = xs.dedup.length) (.duplicates context)

theorem eq_insertionSort_iff {xs : List (List Str)} :
    xs = xs.insertionSort (· ≤ ·) ↔ xs.Pairwise (· ≤ ·) := by
  constructor
  · intro h
    rw [h]
    exact List.pairwise_insertionSort _ xs
  · intro h
    exact (List.Pairwise.insertionSort_eq h).symm

theorem length_eq_dedup_iff {xs : List (List Str)} : xs.length = xs.dedup.length ↔ xs.Nodup := by
  constructor
  · intro h
    exact List.dedup_eq_self.mp ((List.dedup_sublist xs).eq_of_length h.symm)
  · intro h
    rw [List.dedup_eq_self.mpr h]

@[simp] theorem requireSorted_eq_ok {xs : List (List Str)} {context : Str} {u : Unit} :
    requireSorted xs context = .ok u ↔ xs.Pairwise (· < ·) := by
  simp only [requireSorted, bind_eq_ok, require_eq_ok, eq_insertionSort_iff, length_eq_dedup_iff]
  have hlt : xs.Pairwise (· < ·) ↔ xs.Pairwise (· ≤ ·) ∧ xs.Nodup := by
    simp only [lt_iff_le_and_ne]
    exact List.pairwise_and_iff
  rw [hlt]
  exact ⟨fun ⟨_, h⟩ => h, fun h => ⟨(), h⟩⟩

/-! ### The records of a manifest -/

def validateRoot (index : ℕ) (item : Json) : Result (List Str) := do
  let item ← requireDict item (.invalidFields (.sourceRoots index))
  require (item.HasFields [str "file", str "soname"]) (.invalidFields (.sourceRoots index))
  let file ← requireString item (str "file") (.sourceRoots index)
  require (pathName file = file) (.notBasename (.sourceRoots index) (str "file"))
  match item.val (str "soname") with
  | .null => pure [file, []]
  | .str s => do
    require (s ≠ []) (.sonameInvalid (.sourceRoots index))
    require (pathName s = s) (.notBasename (.sourceRoots index) (str "soname"))
    pure [file, s]
  | _ => .error (.manifest (.sonameInvalid (.sourceRoots index)))

def validateMissing (index : ℕ) (item : Json) : Result (List Str) := do
  let item ← requireDict item (.invalidFields (.missingDependencies index))
  require (item.HasFields [str "from", str "name"]) (.invalidFields (.missingDependencies index))
  let source ← requireString item (str "from") (.missingDependencies index)
  let name ← requireString item (str "name") (.missingDependencies index)
  pure [source, name]

def validateSymbol (index : ℕ) (item : Json) : Result Key := do
  let item ← requireDict item (.invalidFields (.symbols index))
  require (item.HasFields SYMBOL_FIELDS) (.invalidFields (.symbols index))
  let key ← manifestKey item (.symbols index)
  require ('@'.toNat ∉ key.name) (.versionSuffix (.symbols index))
  require (SupportedVersion key.version) (.unsupportedVersion (.symbols index) key.version)
  require (SupportedBinding key.binding) (.unsupportedBinding (.symbols index) key.binding)
  require (pathName key.soname = key.soname) (.notBasename (.symbols index) (str "soname"))
  let _ ← requireString item (str "implementation") (.symbols index)
  let _ ← requireString item (str "test") (.symbols index)
  requireQuality (item.val (str "quality")) (.symbols index)
  pure key

/-- `None` or a string, as JSON. -/
def optional (s : Option Str) : Json := s.elim .null .str

structure RootOk (item : Json) (root : List Str) (d : Dict) (file : Str) (soname : Option Str) :
    Prop where
  item_eq : item = d.toJson
  fields_ok : d.HasFields [str "file", str "soname"]
  file_ok : d.get (str "file") = .str file ∧ file ≠ [] ∧ pathName file = file
  soname_ok : d.val (str "soname") = optional soname ∧ ∀ s, soname = some s → s ≠ [] ∧ pathName s = s
  tuple_eq : root = [file, soname.getD []]

theorem validateRoot_eq_ok (index : ℕ) (item : Json) (root : List Str) :
    validateRoot index item = .ok root ↔ ∃ d file soname, RootOk item root d file soname := by
  simp only [validateRoot, bind_eq_ok, requireDict_eq_ok, require_eq_ok, requireString_eq_ok]
  constructor
  · rintro ⟨d, hd, -, hf, file, ⟨hfile, hne⟩, -, hname, h⟩
    cases hs : d.val (str "soname") with
    | null =>
      rw [hs] at h
      exact ⟨d, file, none, hd, hf, ⟨hfile, hne, hname⟩, ⟨hs, by simp⟩, (pure_eq_ok.mp h).symm⟩
    | str s =>
      rw [hs] at h
      simp only [bind_eq_ok, require_eq_ok, pure_eq_ok] at h
      obtain ⟨-, hsne, -, hsname, h⟩ := h
      refine ⟨d, file, some s, hd, hf, ⟨hfile, hne, hname⟩, ⟨hs, ?_⟩, h.symm⟩
      rintro t ⟨⟩
      exact ⟨hsne, hsname⟩
    | _ =>
      rw [hs] at h
      cases h
  · rintro ⟨d, file, soname, hd, hf, ⟨hfile, hne, hname⟩, ⟨hs, hsok⟩, rfl⟩
    refine ⟨d, hd, (), hf, file, ⟨hfile, hne⟩, (), hname, ?_⟩
    rw [hs]
    cases soname with
    | none => rfl
    | some s =>
      obtain ⟨hsne, hsname⟩ := hsok s rfl
      simp only [optional, Option.elim, bind_eq_ok, require_eq_ok, pure_eq_ok]
      exact ⟨(), hsne, (), hsname, rfl⟩

structure MissingOk (item : Json) (missing : List Str) (d : Dict) (source name : Str) : Prop where
  item_eq : item = d.toJson
  fields_ok : d.HasFields [str "from", str "name"]
  source_ok : d.get (str "from") = .str source ∧ source ≠ []
  name_ok : d.get (str "name") = .str name ∧ name ≠ []
  tuple_eq : missing = [source, name]

theorem validateMissing_eq_ok (index : ℕ) (item : Json) (missing : List Str) :
    validateMissing index item = .ok missing ↔ ∃ d source name, MissingOk item missing d source name := by
  simp only [validateMissing, bind_eq_ok, requireDict_eq_ok, require_eq_ok, requireString_eq_ok,
    pure_eq_ok]
  constructor
  · rintro ⟨d, hd, -, hf, source, hs, name, hn, h⟩
    exact ⟨d, source, name, hd, hf, hs, hn, h.symm⟩
  · rintro ⟨d, source, name, hd, hf, hs, hn, h⟩
    exact ⟨d, hd, (), hf, source, hs, name, hn, h.symm⟩

/-- What the fields of a symbol may hold, given its key. -/
structure SymbolOk (item : Json) (key : Key) (d : Dict) : Prop where
  item_eq : item = d.toJson
  fields_ok : d.HasFields SYMBOL_FIELDS
  key_ok : HasKey d key
  name_ok : '@'.toNat ∉ key.name
  version_ok : SupportedVersion key.version
  binding_ok : SupportedBinding key.binding
  soname_ok : pathName key.soname = key.soname
  implementation : ∃ s, d.get (str "implementation") = .str s ∧ s ≠ []
  test : ∃ s, d.get (str "test") = .str s ∧ s ≠ []
  quality : ∃ s, d.val (str "quality") = .str s ∧ s ∈ QUALITIES

theorem validateSymbol_eq_ok (index : ℕ) (item : Json) (key : Key) :
    validateSymbol index item = .ok key ↔ ∃ d, SymbolOk item key d := by
  simp only [validateSymbol, bind_eq_ok, requireDict_eq_ok, require_eq_ok, requireString_eq_ok,
    manifestKey_eq_ok, requireQuality_eq_ok, pure_eq_ok]
  constructor
  · rintro ⟨d, hd, -, hf, k, hk, -, hn, -, hv, -, hb, -, hs, i, hi, t, ht, -, hq, rfl⟩
    exact ⟨d, hd, hf, hk, hn, hv, hb, hs, ⟨i, hi⟩, ⟨t, ht⟩, hq⟩
  · rintro ⟨d, hd, hf, hk, hn, hv, hb, hs, ⟨i, hi⟩, ⟨t, ht⟩, hq⟩
    exact ⟨d, hd, (), hf, key, hk, (), hn, (), hv, (), hb, (), hs, i, hi, t, ht, (), hq, rfl⟩

/-- `validate_manifest`. -/
def validateManifest (manifest : Dict) : Result Unit := do
  require (manifest.HasFields MANIFEST_FIELDS) .topLevelFields
  require (Json.eq (manifest.val (str "schema")) SCHEMA_VERSION)
    (.schema (manifest.val (str "schema")))
  require (Json.eq (manifest.val (str "scope")) (.str SCOPE)) .scope
  require (Json.eq (manifest.val (str "matching_policy")) (.str MATCHING_POLICY)) .matchingPolicy
  let roots ← requireList (manifest.val (str "source_roots")) (str "source_roots")
  let roots ← mapIndexed validateRoot 0 roots
  requireSorted roots (str "source_roots")
  let missing ← requireList (manifest.val (str "missing_dependencies")) (str "missing_dependencies")
  let missing ← mapIndexed validateMissing 0 missing
  requireSorted missing (str "missing_dependencies")
  let symbols ← requireList (manifest.val (str "symbols")) (str "symbols")
  let keys ← mapIndexed validateSymbol 0 symbols
  requireSorted (keys.map Key.tuple) (str "symbols")

/-- A manifest that passes. -/
structure ValidManifest (manifest : Dict) (roots missing symbols : List Json)
    (rootTuples missingTuples : List (List Str)) (keys : List Key) : Prop where
  fields_ok : manifest.HasFields MANIFEST_FIELDS
  schema : Json.eq (manifest.val (str "schema")) SCHEMA_VERSION = true
  scope : Json.eq (manifest.val (str "scope")) (.str SCOPE) = true
  policy : Json.eq (manifest.val (str "matching_policy")) (.str MATCHING_POLICY) = true
  roots_eq : manifest.val (str "source_roots") = .arr roots
  rootsOk : List.Forall₂ (fun item root => ∃ d file soname, RootOk item root d file soname) roots
    rootTuples
  rootsSorted : rootTuples.Pairwise (· < ·)
  missing_eq : manifest.val (str "missing_dependencies") = .arr missing
  missingOk : List.Forall₂ (fun item m => ∃ d source name, MissingOk item m d source name) missing
    missingTuples
  missingSorted : missingTuples.Pairwise (· < ·)
  symbols_eq : manifest.val (str "symbols") = .arr symbols
  symbolsOk : List.Forall₂ (fun item key => ∃ d, SymbolOk item key d) symbols keys
  symbolsSorted : (keys.map Key.tuple).Pairwise (· < ·)

theorem validateManifest_eq_ok {manifest : Dict} {u : Unit} : validateManifest manifest = .ok u ↔
    ∃ roots missing symbols rootTuples missingTuples keys,
      ValidManifest manifest roots missing symbols rootTuples missingTuples keys := by
  simp only [validateManifest, bind_eq_ok, require_eq_ok, requireList_eq_ok, requireSorted_eq_ok,
    mapIndexed_eq_ok validateRoot_eq_ok, mapIndexed_eq_ok validateMissing_eq_ok,
    mapIndexed_eq_ok validateSymbol_eq_ok]
  constructor
  · rintro ⟨-, hf, -, hsc, -, hso, -, hp, rs, hr, rts, hro, -, hrs, ms, hm, mts, hmo, -, hms, ss, hs,
      ks, hso', hss⟩
    exact ⟨rs, ms, ss, rts, mts, ks, hf, hsc, hso, hp, hr, hro, hrs, hm, hmo, hms, hs, hso', hss⟩
  · rintro ⟨rs, ms, ss, rts, mts, ks, h⟩
    exact ⟨(), h.fields_ok, (), h.schema, (), h.scope, (), h.policy, rs, h.roots_eq, rts, h.rootsOk, (),
      h.rootsSorted, ms, h.missing_eq, mts, h.missingOk, (), h.missingSorted, ss, h.symbols_eq, ks,
      h.symbolsOk, h.symbolsSorted⟩

end MuslBsd.Manifest
