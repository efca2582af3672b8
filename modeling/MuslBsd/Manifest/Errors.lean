import MuslBsd.Manifest.Check
import MuslBsd.Manifest.Inventory

/-! Which inputs make the tool raise something else than a `ManifestError`. -/
namespace MuslBsd.Manifest

/-- No other exception than `ManifestError` leaves the call. -/
def Diagnosed {α : Type} (r : Result α) : Prop := ∀ e, r = .error e → ∃ message, e = .manifest message

section Diagnosed

variable {α β : Type}

@[simp] theorem diagnosed_ok (a : α) : Diagnosed (.ok a : Result α) := by
  intro e he
  cases he

@[simp] theorem diagnosed_pure (a : α) : Diagnosed (pure a : Result α) := diagnosed_ok a

@[simp] theorem diagnosed_error {e : Error} :
    Diagnosed (.error e : Result α) ↔ ∃ message, e = .manifest message := by
  constructor
  · intro h
    exact h e rfl
  · rintro h e' he
    obtain rfl := Except.error.inj he
    exact h

/-- A sequence is diagnosed if its head is, and its tail wherever it is reached. -/
@[simp] theorem diagnosed_bind {x : Result α} {f : α → Result β} :
    Diagnosed (x >>= f) ↔ Diagnosed x ∧ ∀ a, x = .ok a → Diagnosed (f a) := by
  cases x with
  | error e =>
    have hbind : (Except.error e : Result α) >>= f = .error e := rfl
    simp [hbind]
  | ok a =>
    have hbind : (Except.ok a : Result α) >>= f = f a := rfl
    simp [hbind]

@[simp] theorem diagnosed_map {x : Result α} {f : α → β} : Diagnosed (f <$> x) ↔ Diagnosed x := by
  cases x with
  | error e =>
    have hmap : f <$> (Except.error e : Result α) = .error e := rfl
    simp [hmap]
  | ok a =>
    have hmap : f <$> (Except.ok a : Result α) = .ok (f a) := rfl
    simp [hmap]

@[simp] theorem diagnosed_require {c : Prop} [Decidable c] {message : Message} :
    Diagnosed (require c message) := by
  unfold require
  split <;> simp

/-- A loop fails otherwise exactly at the first round that does, if the rounds before it end well. -/
theorem diagnosed_mapIndexed {f : ℕ → α → Result β} {P B : α → Prop}
    (hok : ∀ i a, (∃ b, f i a = .ok b) ↔ P a) (hbad : ∀ i a, Diagnosed (f i a) ↔ ¬B a)
    {i : ℕ} {as : List α} : Diagnosed (mapIndexed f i as) ↔
      ¬∃ before a rest, as = before ++ a :: rest ∧ (∀ x ∈ before, P x) ∧ B a := by
  induction as generalizing i with
  | nil => simp [mapIndexed]
  | cons a as ih =>
    have hsplit : (∃ before x rest, a :: as = before ++ x :: rest ∧ (∀ y ∈ before, P y) ∧ B x) ↔
        B a ∨ P a ∧ ∃ before x rest, as = before ++ x :: rest ∧ (∀ y ∈ before, P y) ∧ B x := by
      constructor
      · rintro ⟨before, x, rest, he, hP, hB⟩
        cases before with
        | nil =>
          obtain ⟨rfl, -⟩ := List.cons.inj he
          exact .inl hB
        | cons y before =>
          obtain ⟨rfl, rfl⟩ := List.cons.inj he
          obtain ⟨hPa, hP⟩ := List.forall_mem_cons.mp hP
          exact .inr ⟨hPa, before, x, rest, rfl, hP, hB⟩
      · rintro (hB | ⟨hPa, before, x, rest, rfl, hP, hB⟩)
        · exact ⟨[], a, as, rfl, by simp, hB⟩
        · exact ⟨a :: before, x, rest, rfl, List.forall_mem_cons.mpr ⟨hPa, hP⟩, hB⟩
    have hreached : (∀ b, f i a = .ok b → Diagnosed (mapIndexed f (i + 1) as)) ↔
        (P a → Diagnosed (mapIndexed f (i + 1) as)) := by
      rw [← hok i a]
      exact ⟨fun h hex => hex.elim h, fun h b hb => h ⟨b, hb⟩⟩
    rw [hsplit, not_or, not_and, ← @ih (i + 1), ← hbad i a, ← hreached]
    simp [mapIndexed]

theorem diagnosed_mapIndexed_of_forall {f : ℕ → α → Result β} {as : List α}
    (h : ∀ i, ∀ a ∈ as, Diagnosed (f i a)) {i : ℕ} : Diagnosed (mapIndexed f i as) := by
  induction as generalizing i with
  | nil => simp [mapIndexed]
  | cons a as ih =>
    have hhead := h i a List.mem_cons_self
    have hrest := @ih (fun i a ha => h i a (List.mem_cons_of_mem _ ha)) (i + 1)
    simp [mapIndexed, hhead, hrest]

end Diagnosed

/-! ### The readers of fields -/

@[simp] theorem diagnosed_requireString {item : Dict} {field : Str} {context : Context} :
    Diagnosed (requireString item field context) := by
  unfold requireString
  split <;> simp

@[simp] theorem diagnosed_requireBool {item : Dict} {field : Str} {context : Context} :
    Diagnosed (requireBool item field context) := by
  unfold requireBool
  split <;> simp

@[simp] theorem diagnosed_requireList {value : Json} {context : Str} :
    Diagnosed (requireList value context) := by
  unfold requireList
  split <;> simp

@[simp] theorem diagnosed_requireDict {x : Json} {message : Message} :
    Diagnosed (requireDict x message) := by
  unfold requireDict
  split <;> simp

@[simp] theorem diagnosed_requireSorted {xs : List (List Str)} {context : Str} :
    Diagnosed (requireSorted xs context) := by
  simp [requireSorted]

@[simp] theorem diagnosed_manifestKey {item : Dict} {context : Context} :
    Diagnosed (manifestKey item context) := by
  simp [manifestKey]

@[simp] theorem diagnosed_inventoryKey {item : Dict} {context : Context} :
    Diagnosed (inventoryKey item context) := by
  simp [inventoryKey]

/-! ### The validator -/

def Unhashable : Json → Prop
  | .arr _ | .obj _ _ => True
  | _ => False

theorem diagnosed_requireQuality {value : Json} {context : Context} :
    Diagnosed (requireQuality value context) ↔ ¬Unhashable value := by
  cases value <;> simp [requireQuality, Unhashable]

/-- A symbol with nothing wrong before its quality, which is a list or a dict. -/
structure UnhashableQuality (item : Json) (key : Key) (d : Dict) : Prop where
  item_eq : item = d.toJson
  fields_ok : d.HasFields SYMBOL_FIELDS
  key_ok : HasKey d key
  name_ok : '@'.toNat ∉ key.name
  version_ok : SupportedVersion key.version
  binding_ok : SupportedBinding key.binding
  soname_ok : pathName key.soname = key.soname
  implementation : ∃ s, d.get (str "implementation") = .str s ∧ s ≠ []
  test : ∃ s, d.get (str "test") = .str s ∧ s ≠ []
  quality : Unhashable (d.val (str "quality"))

theorem diagnosed_validateSymbol (index : ℕ) (x : Json) :
    Diagnosed (validateSymbol index x) ↔ ¬∃ key d, UnhashableQuality x key d := by
  have hsteps : Diagnosed (validateSymbol index x) ↔ ∀ d : Dict, x = d.toJson →
      d.HasFields SYMBOL_FIELDS → ∀ key, HasKey d key → '@'.toNat ∉ key.name →
      SupportedVersion key.version → SupportedBinding key.binding →
      pathName key.soname = key.soname → ∀ i, d.get (str "implementation") = .str i ∧ i ≠ [] →
      ∀ t, d.get (str "test") = .str t ∧ t ≠ [] → ¬Unhashable (d.val (str "quality")) := by
    simp only [validateSymbol, diagnosed_bind, diagnosed_requireDict, diagnosed_require,
      diagnosed_manifestKey, diagnosed_requireString, diagnosed_requireQuality, diagnosed_pure,
      requireDict_eq_ok, require_eq_ok, manifestKey_eq_ok, requireString_eq_ok, true_and,
      implies_true, and_true, forall_const]
  rw [hsteps]
  constructor
  · rintro h ⟨key, d, hd⟩
    obtain ⟨i, hi⟩ := hd.implementation
    obtain ⟨t, ht⟩ := hd.test
    exact h d hd.item_eq hd.fields_ok key hd.key_ok hd.name_ok hd.version_ok hd.binding_ok
      hd.soname_ok i hi t ht hd.quality
  · intro h d hd hf key hk hn hv hb hs i hi t ht hq
    exact h ⟨key, d, hd, hf, hk, hn, hv, hb, hs, ⟨i, hi⟩, ⟨t, ht⟩, hq⟩

theorem diagnosed_validateRoot (index : ℕ) (x : Json) : Diagnosed (validateRoot index x) := by
  simp only [validateRoot, diagnosed_bind, diagnosed_requireDict, diagnosed_require,
    diagnosed_requireString, true_and]
  intro d _ _ _ file _ _ _
  cases d.val (str "soname") <;> simp

theorem diagnosed_validateMissing (index : ℕ) (x : Json) : Diagnosed (validateMissing index x) := by
  simp [validateMissing]

/-- The validator comes to a symbol whose quality is a list or a dict: it has found nothing wrong
with the roots, the missing dependencies and the symbols before. -/
structure QualityReached (manifest : Dict) : Prop where
  fields_ok : manifest.HasFields MANIFEST_FIELDS
  schema : Json.eq (manifest.val (str "schema")) SCHEMA_VERSION = true
  scope : Json.eq (manifest.val (str "scope")) (.str SCOPE) = true
  policy : Json.eq (manifest.val (str "matching_policy")) (.str MATCHING_POLICY) = true
  roots : ∃ roots tuples, manifest.val (str "source_roots") = .arr roots ∧
    List.Forall₂ (fun x t => ∃ d file soname, RootOk x t d file soname) roots tuples ∧
    tuples.Pairwise (· < ·)
  missing : ∃ missing tuples, manifest.val (str "missing_dependencies") = .arr missing ∧
    List.Forall₂ (fun x t => ∃ d source name, MissingOk x t d source name) missing tuples ∧
    tuples.Pairwise (· < ·)
  symbols : ∃ symbols, manifest.val (str "symbols") = .arr symbols ∧
    ∃ before x rest, symbols = before ++ x :: rest ∧ (∀ y ∈ before, ∃ key d, SymbolOk y key d) ∧
      ∃ key d, UnhashableQuality x key d

theorem diagnosed_validateManifest {manifest : Dict} :
    Diagnosed (validateManifest manifest) ↔ ¬QualityReached manifest := by
  have hok : ∀ i x, (∃ key, validateSymbol i x = .ok key) ↔ ∃ key d, SymbolOk x key d :=
    fun i x => exists_congr fun key => validateSymbol_eq_ok i x key
  have hroots : ∀ xs, Diagnosed (mapIndexed validateRoot 0 xs) :=
    fun _ => diagnosed_mapIndexed_of_forall fun i x _ => diagnosed_validateRoot i x
  have hmissing : ∀ xs, Diagnosed (mapIndexed validateMissing 0 xs) :=
    fun _ => diagnosed_mapIndexed_of_forall fun i x _ => diagnosed_validateMissing i x
  simp only [validateManifest, diagnosed_bind, diagnosed_require, diagnosed_requireList,
    diagnosed_requireSorted, hroots, hmissing, diagnosed_mapIndexed hok diagnosed_validateSymbol,
    require_eq_ok, requireList_eq_ok, requireSorted_eq_ok, mapIndexed_eq_ok validateRoot_eq_ok,
    mapIndexed_eq_ok validateMissing_eq_ok, true_and, implies_true, and_true, forall_const]
  constructor
  · rintro h ⟨hf, hsc, hso, hp, ⟨rs, rts, hr, hro, hrs⟩, ⟨ms, mts, hm, hmo, hms⟩, ss, hs, hbad⟩
    exact h hf hsc hso hp rs hr rts hro hrs ms hm mts hmo hms ss hs hbad
  · intro h hf hsc hso hp rs hr rts hro hrs ms hm mts hmo hms ss hs hbad
    exact h ⟨hf, hsc, hso, hp, ⟨rs, rts, hr, hro, hrs⟩, ⟨ms, mts, hm, hmo, hms⟩, ss, hs, hbad⟩

/-! ### The providers -/

theorem diagnosed_providerPaths {item : Dict} {context : Context} :
    Diagnosed (providerPaths item context) := by
  unfold providerPaths
  split
  · refine diagnosed_mapIndexed_of_forall fun i x _ => ?_
    unfold providerPath
    split <;> simp
  · simp

theorem diagnosed_providerOf {names : List Str} {context : Context} :
    Diagnosed (providerOf names context) := by
  unfold providerOf
  split
  · simp
  · split
    · simp
    · split <;> simp

/-- `item.get` is tried before it is known that the item is a dict. -/
theorem diagnosed_providerImplementation (index : ℕ) (x : Json) :
    Diagnosed (providerImplementation index x) ↔ ¬∀ d : Dict, x ≠ d.toJson := by
  have hdict : Diagnosed (asDict x) ↔ ¬∀ d : Dict, x ≠ d.toJson := by
    cases x with
    | obj keys val =>
      have hd : ∃ d : Dict, Json.obj keys val = d.toJson := ⟨⟨keys, val⟩, rfl⟩
      simpa [asDict] using hd
    | _ => simp [asDict, Dict.toJson]
  simp [providerImplementation, hdict, diagnosed_providerPaths, diagnosed_providerOf]

/-! ### The builder -/

theorem diagnosed_collectOutcomes {outcomes : List (Json × Str)} {index : ℕ}
    {implementations : List (Key × Str)} :
    Diagnosed (collectOutcomes index implementations outcomes) := by
  induction outcomes generalizing index implementations with
  | nil => simp [collectOutcomes]
  | cons o outcomes ih => simp [collectOutcomes, ih]

theorem diagnosed_collectRequirements {implementations : List (Key × Str)} {items : List Json}
    {index : ℕ} {seen : List Key} :
    Diagnosed (collectRequirements implementations index seen items) := by
  induction items generalizing index seen with
  | nil => simp [collectRequirements]
  | cons x items ih => simp [collectRequirements, ih]

/-- The reader of the outcomes comes to one that is not a dict: the symbols provided before it have
implementations. -/
def ProvidedReached (inventory : Dict) : Prop :=
  ∃ summary analysis requirements provided weak,
    Counted inventory summary analysis requirements provided weak ∧
    ∃ before x rest, provided = before ++ x :: rest ∧
      (∀ y ∈ before, ∃ d symbol providers, Provided y d symbol providers) ∧ ∀ d : Dict, x ≠ d.toJson

theorem diagnosed_inventoryRequirements {inventory : Dict} :
    Diagnosed (inventoryRequirements inventory) ↔ ¬ProvidedReached inventory := by
  simp only [inventoryRequirements, diagnosed_bind, diagnosed_require, diagnosed_requireDict,
    diagnosed_requireList, diagnosed_collectOutcomes, diagnosed_collectRequirements, diagnosed_pure,
    diagnosed_mapIndexed providerImplementation_iff diagnosed_providerImplementation,
    requireDict_eq_ok, require_eq_ok, requireList_eq_ok, true_and, implies_true, and_true,
    forall_const]
  constructor
  · rintro h ⟨s, a, rs, ps, ws, hc, hbad⟩
    exact h s hc.summary_eq a hc.analysis_eq rs hc.requirements_eq hc.policy hc.missingCount ps
      hc.provided_eq ws hc.weak_eq hc.providedCount hc.weakCount hbad
  · intro h s hs a ha rs hr hp hm ps hps ws hws hpc hwc hbad
    exact h ⟨s, a, rs, ps, ws, ⟨hs, ha, hr, hp, hm, hps, hws, hpc, hwc⟩, hbad⟩

/-- Every requirement has an outcome, which the builder finds under its key. -/
theorem requirement_outcome {inventory : Dict} {requirements : List Dict}
    {implementations : List (Key × Str)}
    (h : inventoryRequirements inventory = .ok (requirements, implementations)) :
    ∀ d ∈ requirements, ∀ k, HasInventoryKey d k → k ∈ implementations.map Prod.fst := by
  simp only [inventoryRequirements, bind_eq_ok, pure_eq_ok] at h
  obtain ⟨_, _, _, _, _, _, _, _, _, _, _, _, _, _, _, _, _, _, _, _, made, _, ⟨normalized, seen⟩, hreq,
    _, _, he⟩ := h
  obtain ⟨rfl, rfl⟩ := Prod.mk.inj he
  obtain ⟨keys, hkeys, -, -, hout⟩ := collectRequirements_spec hreq
  intro d hd k hk
  obtain ⟨l, hl, hdl⟩ := forall₂_exists hkeys hd
  exact hk.unique hdl ▸ hout l hl

theorem diagnosed_buildSymbol {policies : List (Key × Policy)} {implementations : List (Key × Str)}
    {index : ℕ} {d : Dict} (h : ∀ k, HasInventoryKey d k → k ∈ implementations.map Prod.fst) :
    Diagnosed (buildSymbol policies implementations index d) := by
  simp only [buildSymbol, diagnosed_bind, diagnosed_inventoryKey, true_and]
  intro k hk
  obtain ⟨i, hi, -⟩ := exists_dictGet (h k (.of_ok hk))
  simp [hi]

theorem diagnosed_sourceRoots {inventory : Dict} : Diagnosed (sourceRoots inventory) := by
  have hroot : ∀ byPath i x, Diagnosed (rootReport byPath i x) := by
    intro byPath i x
    unfold rootReport
    split
    · split
      · simp
      · split <;> simp
    · simp
  have hroots : ∀ byPath xs, Diagnosed (mapIndexed (rootReport byPath) 0 xs) :=
    fun byPath _ => diagnosed_mapIndexed_of_forall fun i x _ => hroot byPath i x
  simp [sourceRoots, rootReports, hroots]

theorem diagnosed_missingDependencies {inventory : Dict} :
    Diagnosed (missingDependencies inventory) := by
  have hreports : ∀ xs, Diagnosed (mapIndexed missingReport 0 xs) :=
    fun _ => diagnosed_mapIndexed_of_forall fun i x _ => by simp [missingReport]
  simp [missingDependencies, missingReports, hreports]

/-- Of the base manifest, only the validation can go wrong. -/
theorem diagnosed_basePolicies {base : Option Dict} :
    Diagnosed (basePolicies base) ↔ ∀ manifest, base = some manifest → ¬QualityReached manifest := by
  cases base with
  | none => simp [basePolicies]
  | some manifest =>
    have hbase : Diagnosed (basePolicies (some manifest)) ↔ Diagnosed (validateManifest manifest) := by
      by_cases hvalid : ∃ u, validateManifest manifest = .ok u
      · obtain ⟨⟨⟩, hu⟩ := hvalid
        obtain ⟨_, _, _, _, _, _, hv⟩ := validateManifest_eq_ok.mp hu
        obtain ⟨policies, hp, -⟩ := basePolicies_exists hv
        simp [hp, hu]
      · simp only [basePolicies, diagnosed_bind]
        exact and_iff_left fun u hu => absurd ⟨u, hu⟩ hvalid
    rw [hbase, diagnosed_validateManifest]
    simp

/-- A base manifest is read once the requirements of the inventory are. -/
theorem diagnosed_buildManifest {inventory : Dict} {base : Option Dict} :
    Diagnosed (buildManifest inventory base) ↔ ¬ProvidedReached inventory ∧
      ∀ manifest, base = some manifest → (∃ r, inventoryRequirements inventory = .ok r) →
        ¬QualityReached manifest := by
  have hsymbols : ∀ r, inventoryRequirements inventory = .ok r → ∀ policies,
      Diagnosed (mapIndexed (buildSymbol policies r.2) 0 r.1) := by
    intro r hr policies
    exact diagnosed_mapIndexed_of_forall fun _ d hd => diagnosed_buildSymbol (requirement_outcome hr d hd)
  simp only [buildManifest, diagnosed_bind, diagnosed_inventoryRequirements, diagnosed_basePolicies,
    diagnosed_sourceRoots, diagnosed_missingDependencies, diagnosed_pure, implies_true, and_true]
  refine and_congr_right fun _ => ?_
  constructor
  · rintro h manifest he ⟨r, hr⟩
    exact (h r hr).1 manifest he
  · intro h r hr
    exact ⟨fun manifest he => h manifest he ⟨r, hr⟩, fun policies _ => hsymbols r hr policies⟩

/-! ### The check -/

/-- With the key sets equal, every symbol finds its implementation. -/
theorem diagnosed_checkSymbol {implementations : List (Key × Str)} {index : ℕ} {x : Json} {k : Key}
    {d : Dict} (hx : SymbolOk x k d) (hk : k ∈ implementations.map Prod.fst) :
    Diagnosed (checkSymbol implementations index x) := by
  have hmem : str "implementation" ∈ d.keys := hx.fields_ok.2 _ (by decide)
  have hdict : asDict x = .ok d := asDict_eq_ok.mpr hx.item_eq
  have hitem : item d (str "implementation") = .ok (d.val (str "implementation")) := if_pos hmem
  obtain ⟨i, hi, -⟩ := exists_dictGet hk
  simp only [checkSymbol, diagnosed_bind, hdict, hitem, diagnosed_ok, diagnosed_manifestKey,
    Except.ok.injEq, forall_eq', manifestKey_eq_ok, true_and]
  intro l hl
  obtain rfl := hx.key_ok.unique hl
  simp [hi]

theorem diagnosed_checkInventory {manifest inventory : Dict} :
    Diagnosed (checkInventory manifest inventory) ↔ ¬QualityReached manifest ∧
      (validateManifest manifest = .ok () → ¬ProvidedReached inventory) := by
  simp only [checkInventory]
  rw [diagnosed_bind, diagnosed_validateManifest]
  refine and_congr_right fun _ => Unique.forall_iff.trans (imp_congr_right fun hu => ?_)
  obtain ⟨roots, missing, symbols, rts, mts, keys, hv⟩ := validateManifest_eq_ok.mp hu
  have hroots : item manifest (str "source_roots") = .ok (manifest.val (str "source_roots")) :=
    if_pos (hv.fields_ok.2 _ (by decide))
  have hmissing : item manifest (str "missing_dependencies") =
      .ok (manifest.val (str "missing_dependencies")) := if_pos (hv.fields_ok.2 _ (by decide))
  rw [diagnosed_bind, diagnosed_buildManifest]
  simp only [reduceCtorEq, false_implies, implies_true, and_true]
  refine and_iff_left fun expected he => ?_
  have hzip : (expected.symbols.map SymbolRecord.key).zip (expected.symbols.map
      SymbolRecord.implementation) = expected.symbols.map fun s => (s.key, s.implementation) := by
    rw [List.zip_map']
  simp only [expectedKeys_of_built he, manifestSymbols_of_valid hv, symbolKeys_of_valid hv, hroots,
    hmissing, hzip, diagnosed_bind, diagnosed_ok, diagnosed_require, diagnosed_pure,
    Except.ok.injEq, forall_eq', require_eq_ok, true_and, implies_true, and_true]
  rintro - ⟨-, hextra⟩ - - - -
  refine diagnosed_mapIndexed_of_forall fun i x hx => ?_
  obtain ⟨k, hk, d, hd⟩ := forall₂_exists hv.symbolsOk hx
  refine diagnosed_checkSymbol hd ?_
  rw [sortKeys_eq_nil, List.filter_eq_nil_iff] at hextra
  have hmem : k ∈ expected.symbols.map SymbolRecord.key := by simpa using hextra k hk
  rwa [List.map_map]

/-! ### The command line -/

/-- A command with the objects that it has loaded. -/
inductive Command
  | generate (inventory : Dict) (base : Option Dict)
  | validate (manifest : Dict)
  | check (manifest inventory : Dict)

/-- What is done before anything is written. -/
def Command.run : Command → Result Unit
  | .generate inventory base => do
    let manifest ← buildManifest inventory base
    validateManifest manifest.toDict
  | .validate manifest => validateManifest manifest
  | .check manifest inventory => checkInventory manifest inventory

inductive Exit
  | status (code : ℕ) (diagnostic : Option Message)
  | traceback
  deriving Inhabited

/-- `main`, with what it prints to stderr. -/
def main (command : Command) : Exit :=
  match command.run with
  | .ok _ => .status 0 none
  | .error (.manifest message) => .status 2 (some message)
  | .error _ => .traceback

/-- The command comes to one of the two tests that are not guarded. -/
def Command.Unguarded : Command → Prop
  | .generate inventory base => ProvidedReached inventory ∨
    ∃ manifest, base = some manifest ∧ (∃ r, inventoryRequirements inventory = .ok r) ∧
      QualityReached manifest
  | .validate manifest => QualityReached manifest
  | .check manifest inventory => QualityReached manifest ∨
    validateManifest manifest = .ok () ∧ ProvidedReached inventory

theorem main_status_iff {command : Command} :
    (∃ code diagnostic, main command = .status code diagnostic) ↔ Diagnosed command.run := by
  unfold main
  split
  · rename_i hrun
    simp [hrun]
  · rename_i hrun
    simp [hrun]
  · rename_i e hno hrun
    rw [hrun, diagnosed_error]
    constructor
    · rintro ⟨code, diagnostic, h⟩
      cases h
    · rintro ⟨message, rfl⟩
      exact absurd rfl (hno message)

/-- The qualities of a generated manifest are strings. -/
theorem not_qualityReached_built {inventory : Dict} {base : Option Dict} {m : GeneratedManifest}
    (h : buildManifest inventory base = .ok m) : ¬QualityReached m.toDict := by
  rintro ⟨-, -, -, -, -, -, symbols, hsymbols, before, x, rest, rfl, -, key, d, hd⟩
  obtain ⟨_, _, policies, built, _, _, hb⟩ := buildManifest_eq_ok.mp h
  have hlist : m.symbols.map (fun s => s.toDict.toJson) = before ++ x :: rest := Json.arr.inj hsymbols
  have hx : x ∈ m.symbols.map fun s => s.toDict.toJson := by
    rw [hlist]
    simp
  obtain ⟨s, hs, he⟩ := List.mem_map.mp hx
  obtain rfl := Dict.toJson_injective (he.trans hd.item_eq)
  rw [hb.symbols, List.mem_insertionSort] at hs
  have hpolicy : ∀ t : SymbolRecord, (t.test, t.quality) = (dictGet policies t.key).getD defaultPolicy →
      LegalPolicy (t.test, t.quality) := by
    intro t ht
    rw [ht]
    cases hp : dictGet policies t.key with
    | none => exact legalPolicy_default
    | some p => exact basePolicies_legal hb.policies_eq (t.key, p) (dictGet_mem hp)
  have hall := mapIndexed_forall₂ (R := fun _ t => LegalPolicy (SymbolRecord.test t, t.quality))
    (fun _ _ t ht => hpolicy t (buildSymbol_eq_ok ht).2.2) hb.symbols_eq
  obtain ⟨-, q, hq, -⟩ := forall₂_right hall s hs
  have hquality : Unhashable s.quality := hd.quality
  simp only at hq
  rw [hq] at hquality
  exact hquality

theorem diagnosed_run {command : Command} : Diagnosed command.run ↔ ¬command.Unguarded := by
  cases command with
  | generate inventory base =>
    have hbuilt : ∀ m, buildManifest inventory base = .ok m → Diagnosed (validateManifest m.toDict) :=
      fun m h => diagnosed_validateManifest.mpr (not_qualityReached_built h)
    simp only [Command.run, Command.Unguarded, diagnosed_bind, diagnosed_buildManifest, not_or,
      not_exists, not_and]
    rw [and_iff_left hbuilt]
  | validate manifest => exact diagnosed_validateManifest
  | check manifest inventory =>
    simp only [Command.run, Command.Unguarded, diagnosed_checkInventory, not_or, not_and]

/-- Every exception is a `ManifestError`, and the command exits with its diagnostic, if and only if
no quality that cannot be hashed and no provided symbol that is no dict is come to. -/
theorem diagnosed_iff (manifest inventory : Dict) :
    (Diagnosed (validateManifest manifest) ↔ ¬QualityReached manifest) ∧
    (Diagnosed (buildManifest inventory none) ↔ ¬ProvidedReached inventory) ∧
    (Diagnosed (buildManifest inventory (some manifest)) ↔ ¬ProvidedReached inventory ∧
      ((∃ r, inventoryRequirements inventory = .ok r) → ¬QualityReached manifest)) ∧
    (Diagnosed (checkInventory manifest inventory) ↔ ¬QualityReached manifest ∧
      (validateManifest manifest = .ok () → ¬ProvidedReached inventory)) ∧
    ∀ command : Command,
      (∃ code diagnostic, main command = .status code diagnostic) ↔ ¬command.Unguarded := by
  refine ⟨diagnosed_validateManifest, ?_, ?_, diagnosed_checkInventory, ?_⟩
  · rw [diagnosed_buildManifest]
    simp
  · rw [diagnosed_buildManifest]
    simp
  · intro command
    exact main_status_iff.trans diagnosed_run

/-- A manifest of one symbol with this quality. -/
def oneSymbol (quality : Json) : Dict :=
  (GeneratedManifest.mk [] [] [⟨⟨str "f", str "GLIBC_2.2.5", str "libc.so.6", str "global"⟩,
    str "musl-libc:f", .str (str "t"), quality⟩]).toDict

/-- An inventory with these provided symbols, and no other. -/
def providing (provided : List Json) : Dict :=
  .ofFields [(str "summary", (Dict.ofFields [(str "required_glibc_symbols", .arr [])]).toJson),
    (str "provider_analysis", (Dict.ofFields [(str "matching_policy", .str MATCHING_POLICY),
      (str "missing_count", count 0), (str "provided", .arr provided), (str "unresolved_weak", .arr []),
      (str "provided_count", count provided.length), (str "unresolved_weak_count", count 0)]).toJson),
    (str "roots", .arr []), (str "objects", .arr []), (str "missing_dependencies", .arr [])]

/-- A list for a quality and a number among the provided symbols end in a traceback. -/
theorem undiagnosed : validateManifest (oneSymbol (.arr [])) = .error .type ∧
    buildManifest (providing [count 5]) none = .error .attribute ∧
    ¬∀ manifest inventory, Diagnosed (validateManifest manifest) ∧
      Diagnosed (buildManifest inventory none) := by
  have hquality : validateManifest (oneSymbol (.arr [])) = .error .type := rfl
  refine ⟨hquality, rfl, fun h => ?_⟩
  obtain ⟨message, he⟩ := (h (oneSymbol (.arr [])) (providing [])).1 _ hquality
  cases he

end MuslBsd.Manifest
