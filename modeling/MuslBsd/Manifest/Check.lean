import MuslBsd.Manifest.Closed

/-! `check_inventory` accepts the manifests that the inventory reproduces. -/
namespace MuslBsd.Manifest

/-- `_manifest_key` of the symbols of a manifest that was read. -/
def symbolKey (_ : ℕ) (symbol : Json) : Result Key := do
  let symbol ← asDict symbol
  manifestKey symbol .manifestSymbol

def sortKeys (keys : List Key) : List Key := keys.dedup.insertionSort fun a b => a.tuple ≤ b.tuple

/-- A round of the loop that compares implementations. -/
def checkSymbol (implementations : List (Key × Str)) (_ : ℕ) (symbol : Json) : Result Unit := do
  let symbol ← asDict symbol
  let key ← manifestKey symbol .manifestSymbol
  let implementation ← item symbol (str "implementation")
  match dictGet implementations key with
  | none => .error (.key key.tuple)
  | some expected => require (Json.eq implementation (.str expected)) (.implementationMismatch key)

/-- `check_inventory`. -/
def checkInventory (manifest inventory : Dict) : Result Unit := do
  validateManifest manifest
  let expected ← buildManifest inventory none
  let expectedKeys ← mapIndexed (fun _ s => manifestKey (SymbolRecord.toDict s) .generatedSymbol) 0
    expected.symbols
  let symbols ← manifestSymbols manifest
  let actualKeys ← mapIndexed symbolKey 0 symbols
  let missing := sortKeys (expectedKeys.filter (· ∉ actualKeys))
  let extra := sortKeys (actualKeys.filter (· ∉ expectedKeys))
  require (missing = [] ∧ extra = []) (.requirements missing extra)
  let roots ← item manifest (str "source_roots")
  require (Json.eq roots (expected.toDict.val (str "source_roots"))) .rootsMismatch
  let dependencies ← item manifest (str "missing_dependencies")
  require (Json.eq dependencies (expected.toDict.val (str "missing_dependencies")))
    .missingDependenciesMismatch
  let implementations := expectedKeys.zip (expected.symbols.map SymbolRecord.implementation)
  let _ ← mapIndexed (checkSymbol implementations) 0 symbols
  pure ()

/-! ### Lists and dicts -/

theorem sortKeys_eq_nil {keys : List Key} : sortKeys keys = [] ↔ keys = [] := by
  constructor
  · intro h
    have hd : keys.dedup = [] := by
      have := congrArg List.length h
      rw [sortKeys, List.length_insertionSort] at this
      exact List.length_eq_zero_iff.mp this
    cases keys with
    | nil => rfl
    | cons k keys =>
      have hk : k ∈ (k :: keys).dedup := List.mem_dedup.mpr (by simp)
      rw [hd] at hk
      cases hk
  · rintro rfl
    rfl

theorem forall₂_mem {α β : Type} {R : α → β → Prop} {as : List α} {bs : List β}
    (h : List.Forall₂ R as bs) : List.Forall₂ (fun a b => R a b ∧ a ∈ as ∧ b ∈ bs) as bs := by
  induction h with
  | nil => exact .nil
  | cons hab _ ih =>
    refine .cons ⟨hab, by simp, by simp⟩ (ih.imp fun a b ⟨hr, ha, hb⟩ => ⟨hr, ?_, ?_⟩)
    · exact List.mem_cons_of_mem _ ha
    · exact List.mem_cons_of_mem _ hb

theorem forall₂_exists {α β : Type} {R : α → β → Prop} {as : List α} {bs : List β}
    (h : List.Forall₂ R as bs) {a : α} (ha : a ∈ as) : ∃ b ∈ bs, R a b := by
  induction h with
  | nil => cases ha
  | cons hab _ ih =>
    rcases List.mem_cons.mp ha with rfl | ha
    · exact ⟨_, by simp, hab⟩
    · obtain ⟨b, hb, hr⟩ := ih ha
      exact ⟨b, List.mem_cons_of_mem _ hb, hr⟩

theorem dictGet_of_mem {κ ν : Type} [DecidableEq κ] {pairs : List (κ × ν)} {k : κ} {v : ν}
    (hnd : (pairs.map Prod.fst).Nodup) (h : (k, v) ∈ pairs) : dictGet pairs k = some v := by
  cases hd : dictGet pairs k with
  | none =>
    have := List.lookup_eq_none_iff.mp hd (k, v) (List.mem_reverse.mpr h)
    simp at this
  | some w =>
    have he := List.inj_on_of_nodup_map hnd (dictGet_mem hd) h rfl
    rw [(Prod.mk.inj he).2]

/-- Other policies change nothing else. -/
def SymbolRecord.withPolicy (policies : List (Key × Policy)) (s : SymbolRecord) : SymbolRecord :=
  let policy := (dictGet policies s.key).getD defaultPolicy
  { s with test := policy.1, quality := policy.2 }

theorem buildSymbol_withPolicy {policies policies' : List (Key × Policy)}
    {implementations : List (Key × Str)} {index : ℕ} {requirement : Dict} {s : SymbolRecord}
    (h : buildSymbol policies implementations index requirement = .ok s) :
    buildSymbol policies' implementations index requirement = .ok (s.withPolicy policies') := by
  simp only [buildSymbol, bind_eq_ok] at h ⊢
  obtain ⟨key, hkey, h⟩ := h
  refine ⟨key, hkey, ?_⟩
  cases hi : dictGet implementations key with
  | none =>
    rw [hi] at h
    cases h
  | some i =>
    rw [hi] at h
    obtain rfl := pure_eq_ok.mp h
    rfl

theorem mapIndexed_map {α β γ : Type} {f : ℕ → α → Result β} {g : ℕ → α → Result γ} {r : β → γ}
    (h : ∀ i a b, f i a = .ok b → g i a = .ok (r b)) {i : ℕ} {as : List α} {bs : List β}
    (hok : mapIndexed f i as = .ok bs) : mapIndexed g i as = .ok (bs.map r) := by
  induction as generalizing i bs with
  | nil =>
    obtain rfl := Except.ok.inj hok
    rfl
  | cons a as ih =>
    simp only [mapIndexed, bind_eq_ok, pure_eq_ok] at hok ⊢
    obtain ⟨b, hb, bs', hbs, rfl⟩ := hok
    exact ⟨r b, h i a b hb, bs'.map r, ih hbs, rfl⟩

/-! ### Regenerating a valid manifest -/

section Valid

variable {manifest inventory : Dict} {roots missing symbols : List Json} {rts mts : List (List Str)}
  {keys : List Key} {expected : GeneratedManifest} {policies : List (Key × Policy)}

/-- Every symbol has its policy, under its key. -/
theorem basePolicies_exists (hv : ValidManifest manifest roots missing symbols rts mts keys) :
    ∃ policies, basePolicies (some manifest) = .ok policies ∧ policies.map Prod.fst = keys := by
  have hex : ∃ policies : List (Key × Policy), List.Forall₂ (fun x p => ∃ d : Dict, x = d.toJson ∧
      HasKey d p.1 ∧ (str "test" ∈ d.keys ∧ d.val (str "test") = p.2.1) ∧
      str "quality" ∈ d.keys ∧ d.val (str "quality") = p.2.2) symbols policies ∧
      policies.map Prod.fst = keys := by
    have hok := hv.symbolsOk
    clear hv
    induction hok with
    | nil => exact ⟨[], .nil, rfl⟩
    | cons hx _ ih =>
      obtain ⟨d, hd⟩ := hx
      obtain ⟨policies, hp, hk⟩ := ih
      refine ⟨(_, d.val (str "test"), d.val (str "quality")) :: policies,
        .cons ⟨d, hd.item_eq, hd.key_ok, ⟨hd.fields_ok.2 _ (by decide), rfl⟩,
          hd.fields_ok.2 _ (by decide), rfl⟩ hp, by rw [List.map_cons, hk]⟩
  obtain ⟨policies, hp, hk⟩ := hex
  refine ⟨policies, ?_, hk⟩
  have hsym : str "symbols" ∈ manifest.keys := hv.fields_ok.2 _ (by decide)
  have hvalid : validateManifest manifest = .ok () :=
    validateManifest_eq_ok.mpr ⟨_, _, _, _, _, _, hv⟩
  simp only [basePolicies, manifestSymbols, bind_eq_ok, item_eq_ok]
  refine ⟨(), hvalid, symbols, ⟨.arr symbols, ⟨hsym, hv.symbols_eq⟩, rfl⟩, ?_⟩
  exact (mapIndexed_eq_ok basePolicy_eq_ok).mpr hp

/-- With a valid base, the same requirements, roots and dependencies come out. -/
theorem buildManifest_with_base (h : buildManifest inventory none = .ok expected)
    (hp : basePolicies (some manifest) = .ok policies) :
    buildManifest inventory (some manifest) = .ok ⟨expected.sourceRoots,
      expected.missingDependencies, expected.symbols.map (SymbolRecord.withPolicy policies)⟩ := by
  obtain ⟨requirements, implementations, policies', built, reports, deps, hb⟩ :=
    buildManifest_eq_ok.mp h
  refine buildManifest_eq_ok.mpr ⟨requirements, implementations, policies,
    built.map (SymbolRecord.withPolicy policies), reports, deps, hb.requirements_eq, hp,
    mapIndexed_map (fun _ _ _ => buildSymbol_withPolicy) hb.symbols_eq, hb.roots_eq, hb.missing_eq,
    hb.sourceRoots, hb.missingDependencies, ?_⟩
  rw [hb.symbols]
  exact List.map_insertionSort (fun a b : SymbolRecord => a.key.tuple ≤ b.key.tuple)
    (fun a b : SymbolRecord => a.key.tuple ≤ b.key.tuple) _ _ fun _ _ _ _ => Iff.rfl

/-- A symbol that was read is the one that was generated, but for test and quality. -/
def SameSymbol (x : Json) (s : SymbolRecord) : Prop :=
  ∃ d, SymbolOk x s.key d ∧ d.get (str "implementation") = .str s.implementation

theorem SymbolRecord.vals (s : SymbolRecord) : s.toDict.val (str "name") = .str s.key.name ∧
    s.toDict.val (str "version") = .str s.key.version ∧
    s.toDict.val (str "soname") = .str s.key.soname ∧
    s.toDict.val (str "binding") = .str s.key.binding ∧
    s.toDict.val (str "implementation") = .str s.implementation ∧
    s.toDict.val (str "test") = s.test ∧ s.toDict.val (str "quality") = s.quality :=
  ⟨rfl, rfl, rfl, rfl, rfl, rfl, rfl⟩

/-- `==` against a dict with the fields of a symbol compares field by field. -/
theorem eq_symbol_iff {d : Dict} (hd : d.HasFields SYMBOL_FIELDS) (s : SymbolRecord) :
    Json.eq s.toDict.toJson d.toJson = true ↔
      (d.get (str "name") = .str s.key.name ∧ d.get (str "version") = .str s.key.version ∧
        d.get (str "soname") = .str s.key.soname ∧ d.get (str "binding") = .str s.key.binding) ∧
      d.get (str "implementation") = .str s.implementation ∧
      Json.eq s.test (d.val (str "test")) = true ∧ Json.eq s.quality (d.val (str "quality")) = true := by
  have hmem : ∀ k ∈ SYMBOL_FIELDS, d.get k = d.val k := fun k hk => Dict.get_of_mem (hd.2 k hk)
  have hkeys : ∀ k, k ∈ s.toDict.keys ↔ k ∈ d.keys := fun k => ⟨hd.2 k, hd.1 k⟩
  have hvals : (∀ k ∈ s.toDict.keys, Json.eq (s.toDict.val k) (d.val k) = true) ↔
      Json.eq (.str s.key.name) (d.val (str "name")) = true ∧
      Json.eq (.str s.key.version) (d.val (str "version")) = true ∧
      Json.eq (.str s.key.soname) (d.val (str "soname")) = true ∧
      Json.eq (.str s.key.binding) (d.val (str "binding")) = true ∧
      Json.eq (.str s.implementation) (d.val (str "implementation")) = true ∧
      Json.eq s.test (d.val (str "test")) = true ∧ Json.eq s.quality (d.val (str "quality")) = true := by
    have hlist : s.toDict.keys = SYMBOL_FIELDS := rfl
    obtain ⟨hn, hv, hs, hb, hi, ht, hq⟩ := s.vals
    rw [hlist]
    simp only [SYMBOL_FIELDS, List.forall_mem_cons, List.not_mem_nil, IsEmpty.forall_iff,
      implies_true, and_true, hn, hv, hs, hb, hi, ht, hq]
  have hobj : Json.eq s.toDict.toJson d.toJson = true ↔
      ∀ k ∈ s.toDict.keys, Json.eq (s.toDict.val k) (d.val k) = true :=
    Json.eq_obj.trans (and_iff_right hkeys)
  rw [hobj, hvals, hmem (str "name") (by decide), hmem (str "version") (by decide),
    hmem (str "soname") (by decide), hmem (str "binding") (by decide),
    hmem (str "implementation") (by decide)]
  simp only [Json.eq_str]
  constructor
  · rintro ⟨hn, hv, hs, hb, hi, hp⟩
    exact ⟨⟨hn, hv, hs, hb⟩, hi, hp⟩
  · rintro ⟨⟨hn, hv, hs, hb⟩, hi, hp⟩
    exact ⟨hn, hv, hs, hb, hi, hp⟩

/-- A regenerated symbol equals the one it takes its policy from if key and implementation agree. -/
theorem eq_withPolicy_iff {x : Json} {key : Key} {s : SymbolRecord} {d : Dict}
    (hx : SymbolOk x key d) (hp : dictGet policies key = some (d.val (str "test"), d.val (str "quality"))) :
    Json.eq (s.withPolicy policies).toDict.toJson x = true ↔ SameSymbol x s := by
  rw [hx.item_eq, eq_symbol_iff hx.fields_ok]
  constructor
  · rintro ⟨⟨hn, hv, hs, hb⟩, hi, -⟩
    have hkey : HasKey d s.key := by
      have hk := hx.key_ok
      refine ⟨⟨hn, ?_⟩, ⟨hv, ?_⟩, ⟨hs, ?_⟩, ⟨hb, ?_⟩⟩
      · exact Json.str.inj (hk.name.1.symm.trans hn) ▸ hk.name.2
      · exact Json.str.inj (hk.version.1.symm.trans hv) ▸ hk.version.2
      · exact Json.str.inj (hk.soname.1.symm.trans hs) ▸ hk.soname.2
      · exact Json.str.inj (hk.binding.1.symm.trans hb) ▸ hk.binding.2
    obtain rfl := hx.key_ok.unique hkey
    exact ⟨d, hx.item_eq ▸ hx, hi⟩
  · rintro ⟨e, he, hi⟩
    obtain rfl := Dict.toJson_injective (hx.item_eq.symm.trans (hx.item_eq.trans he.item_eq))
    obtain rfl := hx.key_ok.unique he.key_ok
    have hk := he.key_ok
    refine ⟨⟨hk.name.1, hk.version.1, hk.soname.1, hk.binding.1⟩, hi, ?_⟩
    have hpolicy : (s.withPolicy policies).test = d.val (str "test") ∧
        (s.withPolicy policies).quality = d.val (str "quality") := by
      simp only [SymbolRecord.withPolicy, hp, Option.getD_some, and_self]
    obtain ⟨t, ht, -⟩ := hx.test
    obtain ⟨q, hq, -⟩ := hx.quality
    rw [Dict.get_of_mem (hx.fields_ok.2 _ (by decide))] at ht
    rw [hpolicy.1, hpolicy.2, ht, hq]
    exact ⟨Json.eq_str.mpr rfl, Json.eq_str.mpr rfl⟩

/-- `==` of a generated manifest and a valid one compares three lists. -/
theorem eq_manifest_iff (hv : ValidManifest manifest roots missing symbols rts mts keys)
    (g : GeneratedManifest) : Json.eq g.toDict.toJson manifest.toJson = true ↔
      Json.eq (manifest.val (str "source_roots")) (g.toDict.val (str "source_roots")) = true ∧
      Json.eq (manifest.val (str "missing_dependencies"))
        (g.toDict.val (str "missing_dependencies")) = true ∧
      Json.eq (g.toDict.val (str "symbols")) (manifest.val (str "symbols")) = true := by
  have hkeys : ∀ k, k ∈ g.toDict.keys ↔ k ∈ manifest.keys :=
    fun k => ⟨hv.fields_ok.2 k, hv.fields_ok.1 k⟩
  have hobj : Json.eq g.toDict.toJson manifest.toJson = true ↔
      ∀ k ∈ g.toDict.keys, Json.eq (g.toDict.val k) (manifest.val k) = true :=
    Json.eq_obj.trans (and_iff_right hkeys)
  have hlist : g.toDict.keys = MANIFEST_FIELDS := rfl
  have hschema : Json.eq (g.toDict.val (str "schema")) (manifest.val (str "schema")) = true :=
    (Json.eq_comm _ _).trans hv.schema
  have hscope : Json.eq (g.toDict.val (str "scope")) (manifest.val (str "scope")) = true :=
    (Json.eq_comm _ _).trans hv.scope
  have hpolicy : Json.eq (g.toDict.val (str "matching_policy"))
      (manifest.val (str "matching_policy")) = true := (Json.eq_comm _ _).trans hv.policy
  rw [hobj, hlist, Json.eq_comm (manifest.val (str "source_roots")),
    Json.eq_comm (manifest.val (str "missing_dependencies"))]
  simp only [MANIFEST_FIELDS, List.forall_mem_cons, List.not_mem_nil, IsEmpty.forall_iff,
    implies_true, and_true, hschema, hscope, hpolicy, true_and]

/-- The symbols, regenerated with their own policies, are equal if each is the generated one. -/
theorem eq_symbols_iff (hv : ValidManifest manifest roots missing symbols rts mts keys)
    (hp : basePolicies (some manifest) = .ok policies) (hk : policies.map Prod.fst = keys)
    (generated : List SymbolRecord) :
    Json.eq (.arr ((generated.map (SymbolRecord.withPolicy policies)).map fun s => s.toDict.toJson))
      (.arr symbols) = true ↔ List.Forall₂ (fun s x => SameSymbol x s) generated symbols := by
  have hnodup : (policies.map Prod.fst).Nodup := by
    rw [hk]
    exact (hv.symbolsSorted.imp fun h => ne_of_lt h).of_map _ fun _ _ h he => h (he ▸ rfl)
  have hsame : ∀ x ∈ symbols, ∀ s : SymbolRecord,
      Json.eq (s.withPolicy policies).toDict.toJson x = true ↔ SameSymbol x s := by
    intro x hx s
    obtain ⟨key, -, d, hd⟩ := forall₂_exists hv.symbolsOk hx
    obtain ⟨p, hmem, e, he, hkey, ht, hq⟩ := forall₂_exists (basePolicies_of_valid hv hp) hx
    obtain rfl := Dict.toJson_injective (hd.item_eq.symm.trans he)
    obtain rfl := hd.key_ok.unique hkey
    refine eq_withPolicy_iff hd ?_
    rw [ht, hq]
    exact dictGet_of_mem hnodup hmem
  rw [Json.eq_arr, List.forall₂_map_left_iff, List.forall₂_map_left_iff, List.forall₂_iff_zip,
    List.forall₂_iff_zip]
  refine and_congr_right fun _ => ⟨fun h s x hsx => ?_, fun h s x hsx => ?_⟩
  · exact (hsame x (List.of_mem_zip hsx).2 s).mp (h hsx)
  · exact (hsame x (List.of_mem_zip hsx).2 s).mpr (h hsx)

/-! ### The check -/

theorem manifestSymbols_of_valid (hv : ValidManifest manifest roots missing symbols rts mts keys) :
    manifestSymbols manifest = .ok symbols := by
  have hsym : str "symbols" ∈ manifest.keys := hv.fields_ok.2 _ (by decide)
  simp only [manifestSymbols, bind_eq_ok, item_eq_ok]
  exact ⟨.arr symbols, ⟨hsym, hv.symbols_eq⟩, rfl⟩

theorem symbolKeys_of_valid (hv : ValidManifest manifest roots missing symbols rts mts keys) :
    mapIndexed symbolKey 0 symbols = .ok keys := by
  have hspec : ∀ i x k, symbolKey i x = .ok k ↔ ∃ d : Dict, x = d.toJson ∧ HasKey d k := fun i x k => by
    simp only [symbolKey, bind_eq_ok, asDict_eq_ok, manifestKey_eq_ok]
  rw [mapIndexed_eq_ok hspec]
  apply hv.symbolsOk.imp
  intro x k hx
  obtain ⟨d, hd⟩ := hx
  exact ⟨d, hd.item_eq, hd.key_ok⟩

theorem expectedKeys_of_built (h : buildManifest inventory none = .ok expected) :
    mapIndexed (fun _ s => manifestKey (SymbolRecord.toDict s) .generatedSymbol) 0 expected.symbols =
      .ok (expected.symbols.map SymbolRecord.key) := by
  obtain ⟨_, _, _, _, _, _, hb⟩ := buildManifest_eq_ok.mp h
  have hspec : ∀ (i : ℕ) (s : SymbolRecord) (k : Key),
      manifestKey s.toDict .generatedSymbol = .ok k ↔ HasKey s.toDict k :=
    fun _ _ _ => manifestKey_eq_ok
  rw [mapIndexed_eq_ok hspec, List.forall₂_map_right_iff, List.forall₂_same]
  exact hb.hasKey

theorem checkSymbol_eq_ok {implementations : List (Key × Str)} (index : ℕ) (x : Json) (u : Unit) :
    checkSymbol implementations index x = .ok u ↔ ∃ (d : Dict) (k : Key) (i : Str), x = d.toJson ∧
      HasKey d k ∧ dictGet implementations k = some i ∧ str "implementation" ∈ d.keys ∧
      d.val (str "implementation") = .str i := by
  simp only [checkSymbol, bind_eq_ok, asDict_eq_ok, manifestKey_eq_ok, item_eq_ok]
  constructor
  · rintro ⟨d, hd, k, hk, j, ⟨hmem, hj⟩, h⟩
    cases hi : dictGet implementations k with
    | none =>
      rw [hi] at h
      cases h
    | some i =>
      rw [hi] at h
      rw [require_eq_ok, Json.eq_comm, Json.eq_str] at h
      exact ⟨d, k, i, hd, hk, hi, hmem, hj.trans h⟩
  · rintro ⟨d, k, i, hd, hk, hi, hmem, hj⟩
    refine ⟨d, hd, k, hk, _, ⟨hmem, rfl⟩, ?_⟩
    rw [hi, hj, require_eq_ok]
    exact Json.eq_str.mpr rfl

theorem symbolOk_unique : Relator.RightUnique fun (x : Json) (k : Key) => ∃ d, SymbolOk x k d := by
  rintro x k l ⟨d, hd⟩ ⟨e, he⟩
  obtain rfl := Dict.toJson_injective (hd.item_eq.symm.trans he.item_eq)
  exact hd.key_ok.unique he.key_ok

/-- Equal key sets and implementations make the symbols the generated ones, one by one. -/
theorem sameSymbols_iff (hv : ValidManifest manifest roots missing symbols rts mts keys)
    (h : buildManifest inventory none = .ok expected) :
    List.Forall₂ (fun s x => SameSymbol x s) expected.symbols symbols ↔
      (∀ k, k ∈ expected.symbols.map SymbolRecord.key ↔ k ∈ keys) ∧
      ∃ us, mapIndexed (checkSymbol (expected.symbols.map fun s => (s.key, s.implementation))) 0
        symbols = .ok us := by
  obtain ⟨_, _, _, _, _, _, hb⟩ := buildManifest_eq_ok.mp h
  have hstrict : (expected.symbols.map SymbolRecord.key).Pairwise fun k l => k.tuple < l.tuple := by
    have := hb.strict
    rw [List.pairwise_map] at this ⊢
    exact this
  have hnodup : ((expected.symbols.map fun s => (s.key, s.implementation)).map Prod.fst).Nodup := by
    rw [List.map_map]
    exact hstrict.imp fun hlt he => absurd (he ▸ hlt) (lt_irrefl _)
  have hget : ∀ s ∈ expected.symbols,
      dictGet (expected.symbols.map fun s => (s.key, s.implementation)) s.key = some s.implementation :=
    fun s hs => dictGet_of_mem hnodup (List.mem_map.mpr ⟨s, hs, rfl⟩)
  constructor
  · intro hsame
    have hflip : List.Forall₂ SameSymbol symbols expected.symbols := hsame.flip
    have hkeys : keys = expected.symbols.map SymbolRecord.key := by
      refine List.right_unique_forall₂' symbolOk_unique hv.symbolsOk ?_
      rw [List.forall₂_map_right_iff]
      exact hflip.imp fun x s ⟨d, hd, _⟩ => ⟨d, hd⟩
    refine ⟨fun k => by rw [hkeys], symbols.map fun _ => (), ?_⟩
    rw [mapIndexed_eq_ok checkSymbol_eq_ok, List.forall₂_map_right_iff, List.forall₂_same]
    intro x hx
    obtain ⟨s, hs, d, hd, hi⟩ := forall₂_exists hflip hx
    have hmem : str "implementation" ∈ d.keys := hd.fields_ok.2 _ (by decide)
    rw [Dict.get_of_mem hmem] at hi
    exact ⟨d, s.key, s.implementation, hd.item_eq, hd.key_ok, hget s hs, hmem, hi⟩
  · rintro ⟨hset, us, hus⟩
    have hsorted : keys.Pairwise fun k l => k.tuple < l.tuple := List.pairwise_map.mp hv.symbolsSorted
    have hkeys : expected.symbols.map SymbolRecord.key = keys := by
      refine List.map_injective_iff.mpr Key.tuple_injective ?_
      refine List.Pairwise.eq_of_mem_iff (List.pairwise_map.mpr hstrict) hv.symbolsSorted fun t => ?_
      simp only [List.mem_map (f := Key.tuple), hset]
    have hall := hv.symbolsOk
    rw [← hkeys, List.forall₂_map_right_iff] at hall
    refine List.Forall₂.flip ((forall₂_mem hall).imp fun x s ⟨⟨d, hd⟩, hx, hs⟩ => ⟨d, hd, ?_⟩)
    rw [mapIndexed_eq_ok checkSymbol_eq_ok] at hus
    obtain ⟨-, -, e, k, i, he, hk, hi, hmem, hval⟩ := forall₂_exists hus hx
    obtain rfl := Dict.toJson_injective (hd.item_eq.symm.trans he)
    obtain rfl := hd.key_ok.unique hk
    rw [hget s hs] at hi
    rw [Dict.get_of_mem hmem, hval, Option.some.inj hi]

theorem checkInventory_iff (hv : ValidManifest manifest roots missing symbols rts mts keys)
    (h : buildManifest inventory none = .ok expected) : checkInventory manifest inventory = .ok () ↔
      Json.eq (manifest.val (str "source_roots")) (expected.toDict.val (str "source_roots")) = true ∧
      Json.eq (manifest.val (str "missing_dependencies"))
        (expected.toDict.val (str "missing_dependencies")) = true ∧
      List.Forall₂ (fun s x => SameSymbol x s) expected.symbols symbols := by
  have hvalid : validateManifest manifest = .ok () :=
    validateManifest_eq_ok.mpr ⟨_, _, _, _, _, _, hv⟩
  have hroots : str "source_roots" ∈ manifest.keys := hv.fields_ok.2 _ (by decide)
  have hmissing : str "missing_dependencies" ∈ manifest.keys := hv.fields_ok.2 _ (by decide)
  have hdiff : ∀ K L : List Key, sortKeys (K.filter (· ∉ L)) = [] ∧ sortKeys (L.filter (· ∉ K)) = [] ↔
      ∀ k, k ∈ K ↔ k ∈ L := fun K L => by
    simp only [sortKeys_eq_nil, List.filter_eq_nil_iff, decide_eq_true_eq, not_not]
    exact ⟨fun ⟨h₁, h₂⟩ k => ⟨h₁ k, h₂ k⟩, fun h => ⟨fun k => (h k).mp, fun k => (h k).mpr⟩⟩
  have hzip : (expected.symbols.map SymbolRecord.key).zip (expected.symbols.map
      SymbolRecord.implementation) = expected.symbols.map fun s => (s.key, s.implementation) := by
    rw [List.zip_map']
  rw [sameSymbols_iff hv h]
  simp only [checkInventory, bind_eq_ok, hvalid, h, expectedKeys_of_built h,
    manifestSymbols_of_valid hv, symbolKeys_of_valid hv, Except.ok.injEq, exists_eq_left',
    require_eq_ok, hdiff, item_eq_ok, hroots, hmissing, true_and, hzip, pure_eq_ok]
  constructor
  · rintro ⟨-, -, hkeys, -, hr, -, hm, us, hus, -⟩
    exact ⟨hr, hm, hkeys, us, hus⟩
  · rintro ⟨hr, hm, hkeys, us, hus⟩
    exact ⟨(), (), hkeys, (), hr, (), hm, us, hus, trivial⟩

end Valid

/-- Checking accepts the manifests that the inventory, with them as base, gives back. -/
theorem check_iff_regenerate (manifest inventory : Dict) : checkInventory manifest inventory = .ok () ↔
    validateManifest manifest = .ok () ∧ (∃ m, buildManifest inventory none = .ok m) ∧
      ∃ m, buildManifest inventory (some manifest) = .ok m ∧
        Json.eq m.toDict.toJson manifest.toJson = true := by
  by_cases hvalid : validateManifest manifest = .ok ()
  · by_cases hbuild : ∃ m, buildManifest inventory none = .ok m
    · obtain ⟨roots, missing, symbols, rts, mts, keys, hv⟩ := validateManifest_eq_ok.mp hvalid
      obtain ⟨expected, he⟩ := hbuild
      obtain ⟨policies, hp, hk⟩ := basePolicies_exists hv
      have hsyms := eq_symbols_iff hv hp hk expected.symbols
      rw [checkInventory_iff hv he, ← hsyms, buildManifest_with_base he hp]
      simp only [hvalid, Except.ok.injEq, exists_eq_left', true_and, eq_manifest_iff hv, he,
        exists_eq', hv.symbols_eq]
      exact Iff.rfl
    · refine iff_of_false (fun h => hbuild ?_) fun h => hbuild h.2.1
      simp only [checkInventory, bind_eq_ok] at h
      obtain ⟨-, -, m, hm, -⟩ := h
      exact ⟨m, hm⟩
  · refine iff_of_false (fun h => hvalid ?_) fun h => hvalid h.1
    simp only [checkInventory, bind_eq_ok] at h
    obtain ⟨_, hv, _⟩ := h
    exact hv

end MuslBsd.Manifest
