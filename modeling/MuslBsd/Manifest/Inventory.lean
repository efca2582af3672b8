import MuslBsd.Manifest.Build

/-! When the readers of an inventory end well. -/
namespace MuslBsd.Manifest

theorem mapIndexed_comp {α β γ : Type} {f : ℕ → β → Result γ} (g : α → β) {i : ℕ} {as : List α} :
    mapIndexed f i (as.map g) = mapIndexed (fun i a => f i (g a)) i as := by
  induction as generalizing i with
  | nil => rfl
  | cons a as ih =>
    rw [List.map_cons, mapIndexed, mapIndexed]
    simp only [ih]

/-- A loop ends if and only if each of its rounds does. -/
theorem mapIndexed_isOk {α β : Type} {f : ℕ → α → Result β} {P : α → Prop} {as : List α}
    (h : ∀ i, ∀ a ∈ as, (∃ b, f i a = .ok b) ↔ P a) {i : ℕ} :
    (∃ bs, mapIndexed f i as = .ok bs) ↔ ∀ a ∈ as, P a := by
  induction as generalizing i with
  | nil => simp [mapIndexed]
  | cons a as ih =>
    have hrest := @ih (fun i a ha => h i a (List.mem_cons_of_mem _ ha)) (i + 1)
    have hhead := h i a List.mem_cons_self
    simp only [mapIndexed, bind_eq_ok, pure_eq_ok, List.forall_mem_cons]
    rw [← hhead, ← hrest]
    constructor
    · rintro ⟨_, b, hb, bs, hbs, _⟩
      exact ⟨⟨b, hb⟩, ⟨bs, hbs⟩⟩
    · rintro ⟨⟨b, hb⟩, ⟨bs, hbs⟩⟩
      exact ⟨_, b, hb, bs, hbs, rfl⟩

@[simp] theorem requireBool_eq_ok {item : Dict} {field : Str} {context : Context} {b : Bool} :
    requireBool item field context = .ok b ↔ item.get field = .bool b := by
  unfold requireBool
  split
  · rename_i c h
    simp [h]
  · rename_i h
    constructor
    · intro he
      cases he
    · intro he
      exact absurd he (h b)

theorem HasInventoryKey.ok {item : Dict} {k : Key} (h : HasInventoryKey item k) {b : Bool}
    (hb : item.get (str "hidden") = .bool b) (context : Context) :
    inventoryKey item context = .ok k := by
  simp only [inventoryKey, bind_eq_ok, requireString_eq_ok, requireBool_eq_ok, require_eq_ok,
    pure_eq_ok]
  exact ⟨_, h.name, _, h.version, _, h.library, _, h.binding, _, hb, (), h.supportedVersion, (),
    h.supportedBinding, rfl⟩

theorem nodup_append_singleton {α : Type} {xs : List α} {a : α} (h : xs.Nodup) :
    a ∉ xs ↔ (xs ++ [a]).Nodup := by
  rw [List.nodup_append]
  constructor
  · intro ha
    refine ⟨h, List.nodup_singleton a, ?_⟩
    intro b hb c hc hbc
    rw [List.mem_singleton.mp hc] at hbc
    exact ha (hbc ▸ hb)
  · rintro ⟨_, _, hne⟩ ha
    exact hne a ha a (List.mem_singleton_self a) rfl

/-- The outcomes are collected if and only if their keys are distinct. -/
theorem collectOutcomes_eq_ok {items : List Dict} {keys : List Key} {implementations : List Str}
    (h : List.Forall₂ (fun d k => ∀ context, inventoryKey d context = .ok k) items keys)
    (hlen : implementations.length = keys.length) {index : ℕ} {made r : List (Key × Str)}
    (hmade : (made.map Prod.fst).Nodup) :
    collectOutcomes index made ((items.map Dict.toJson).zip implementations) = .ok r ↔
      (made.map Prod.fst ++ keys).Nodup ∧ r = made ++ keys.zip implementations := by
  induction h generalizing index made implementations with
  | nil => simp [collectOutcomes, hmade, Eq.comm]
  | @cons d k items keys hk _ ih =>
    cases implementations with
    | nil => cases hlen
    | cons s implementations =>
      rw [List.length_cons, List.length_cons, Nat.add_right_cancel_iff] at hlen
      simp only [List.map_cons, List.zip_cons_cons, collectOutcomes, bind_eq_ok, requireDict_eq_ok,
        require_eq_ok]
      have hmap : (made ++ [(k, s)]).map Prod.fst = made.map Prod.fst ++ [k] := by simp
      constructor
      · rintro ⟨d', hd', k', hk', _, hnew, hrest⟩
        rw [← Dict.toJson_injective hd', hk, Except.ok.injEq] at hk'
        rw [← hk'] at hnew hrest
        rw [nodup_append_singleton hmade, ← hmap] at hnew
        rw [ih hlen hnew, hmap] at hrest
        simpa using hrest
      · rintro ⟨hnd, rfl⟩
        have hnew : (made.map Prod.fst ++ [k]).Nodup := by
          rw [List.append_cons] at hnd
          exact hnd.sublist (List.sublist_append_left _ _)
        refine ⟨d, rfl, k, hk _, (), (nodup_append_singleton hmade).mpr hnew, ?_⟩
        rw [← hmap] at hnew
        rw [ih hlen hnew, hmap]
        simpa using hnd

/-- The requirements are collected if and only if their keys are distinct and have outcomes. -/
theorem collectRequirements_eq_ok {items : List Dict} {keys : List Key}
    (h : List.Forall₂ (fun d k => ∀ context, inventoryKey d context = .ok k) items keys)
    {implementations : List (Key × Str)} {index : ℕ} {seen seen' : List Key} {normalized : List Dict}
    (hseen : seen.Nodup) :
    collectRequirements implementations index seen (items.map Dict.toJson) =
        .ok (normalized, seen') ↔
      (seen ++ keys).Nodup ∧ (∀ k ∈ keys, k ∈ implementations.map Prod.fst) ∧
        normalized = items ∧ seen' = seen ++ keys := by
  induction h generalizing index seen normalized with
  | nil => simp [collectRequirements, hseen, Eq.comm]
  | @cons d k items keys hk _ ih =>
    simp only [List.map_cons, collectRequirements, bind_eq_ok, requireDict_eq_ok, require_eq_ok,
      pure_eq_ok]
    constructor
    · rintro ⟨d', hd', k', hk', _, hnew, _, hout, ⟨normalized', seen''⟩, hrest, he⟩
      obtain ⟨rfl, rfl⟩ := Prod.mk.inj he
      rw [← Dict.toJson_injective hd'] at hk' ⊢
      rw [hk, Except.ok.injEq] at hk'
      rw [← hk'] at hnew hout hrest
      rw [nodup_append_singleton hseen] at hnew
      obtain ⟨hnd, hall, hn, hs⟩ := (ih hnew).mp hrest
      rw [← List.append_cons] at hnd hs
      exact ⟨hnd, List.forall_mem_cons.mpr ⟨hout, hall⟩, by rw [hn], hs⟩
    · rintro ⟨hnd, hall, rfl, rfl⟩
      obtain ⟨hout, hall⟩ := List.forall_mem_cons.mp hall
      rw [List.append_cons] at hnd
      have hnew : (seen ++ [k]).Nodup := hnd.sublist (List.sublist_append_left _ _)
      have hrest := (@ih (index + 1) _ _ hnew).mpr ⟨hnd, hall, rfl, List.append_cons seen k keys⟩
      exact ⟨d, rfl, k, hk _, (), (nodup_append_singleton hseen).mpr hnew, (), hout,
        (items, seen ++ k :: keys), hrest, rfl⟩

theorem mapIndexed_of_ok {α β : Type} {f : ℕ → α → Result β} {g : α → β} {as : List α}
    (h : ∀ i, ∀ a ∈ as, f i a = .ok (g a)) {i : ℕ} : mapIndexed f i as = .ok (as.map g) := by
  induction as generalizing i with
  | nil => rfl
  | cons a as ih =>
    have hrest := @ih (fun i a ha => h i a (List.mem_cons_of_mem _ ha)) (i + 1)
    rw [mapIndexed, h i a List.mem_cons_self, hrest]
    rfl

/-- Of these names, one takes precedence. -/
def Unambiguous (names : List Str) : Prop :=
  (∃ name ∈ names, str "libmusl-bsd-core.so" <+: name) ∨ str "libc.so" ∈ names ∨
    ∃ name, ∀ n ∈ names, n = name

theorem eq_singleton_of_nodup {α : Type} {xs : List α} {a : α} (hne : xs ≠ []) (hnd : xs.Nodup)
    (h : ∀ x ∈ xs, x = a) : xs = [a] := by
  cases xs with
  | nil => exact absurd rfl hne
  | cons x xs =>
    have hx : x = a := h x List.mem_cons_self
    cases xs with
    | nil => rw [hx]
    | cons y ys =>
      have hy : y = a := h y (List.mem_cons_of_mem x List.mem_cons_self)
      have hxy := (List.nodup_cons.mp hnd).1
      rw [hx, hy] at hxy
      exact absurd List.mem_cons_self hxy

theorem Unambiguous.providerOf {names : List Str} (h : Unambiguous names) (hne : names ≠ [])
    (context : Context) : ∃ s, providerOf names.dedup context = .ok s := by
  unfold Manifest.providerOf
  split
  · exact ⟨_, rfl⟩
  · rename_i hcore
    split
    · exact ⟨_, rfl⟩
    · rename_i hlibc
      rw [List.mem_dedup] at hlibc
      rcases h with ⟨name, hname, hstarts⟩ | h | ⟨name, h⟩
      · have hany : names.dedup.any (str "libmusl-bsd-core.so").isPrefixOf = true :=
          List.any_eq_true.mpr ⟨name, List.mem_dedup.mpr hname, List.isPrefixOf_iff_prefix.mpr hstarts⟩
        exact absurd hany hcore
      · exact absurd h hlibc
      · have hdedup : names.dedup = [name] := by
          apply eq_singleton_of_nodup
          · obtain ⟨n, hn⟩ := List.exists_mem_of_ne_nil names hne
            exact List.ne_nil_of_mem (List.mem_dedup.mpr hn)
          · exact List.nodup_dedup names
          · intro n hn
            exact h n (List.mem_dedup.mp hn)
        rw [hdedup]
        exact ⟨_, rfl⟩

/-- A provided symbol has an implementation if one of its providers takes precedence. -/
theorem providerImplementation_isOk {item : Dict} {provided : Str} {providers : List Str}
    (hprovided : item.get (str "provided_symbol") = .str provided) (hne : provided ≠ [])
    (hproviders : item.get (str "providers") = .arr (providers.map .str)) (hsome : providers ≠ [])
    (hpaths : ∀ p ∈ providers, p ≠ []) (h : Unambiguous (providers.map pathName)) (index : ℕ) :
    ∃ s, providerImplementation index item.toJson = .ok s := by
  have hpath : ∀ i, ∀ p ∈ providers, providerPath (.provided index) i (.str p) = .ok p := by
    intro i p hp
    cases p with
    | nil => exact absurd rfl (hpaths [] hp)
    | cons c s => rfl
  have hread : providerPaths item (.provided index) = .ok providers := by
    have hmap : mapIndexed (providerPath (.provided index)) 0 (providers.map .str) =
        .ok providers := by
      rw [mapIndexed_comp, mapIndexed_of_ok hpath, List.map_id']
    unfold providerPaths
    rw [hproviders]
    cases providers with
    | nil => exact absurd rfl hsome
    | cons p ps => exact hmap
  have hnames : providers.map pathName ≠ [] := fun hnil => hsome (List.map_eq_nil_iff.mp hnil)
  obtain ⟨provider, hprovider⟩ := h.providerOf hnames (.provided index)
  refine ⟨provider ++ str ":" ++ provided, ?_⟩
  simp only [providerImplementation, bind_eq_ok, asDict_eq_ok, requireString_eq_ok, pure_eq_ok]
  exact ⟨item, rfl, provided, ⟨hprovided, hne⟩, providers, hread, provider, hprovider, rfl⟩

theorem providerPath_eq_ok {context : Context} (index : ℕ) (x : Json) (p : Str) :
    providerPath context index x = .ok p ↔ x = .str p ∧ p ≠ [] := by
  unfold providerPath
  split
  · rename_i c s
    rw [Except.ok.injEq, Json.str.injEq]
    constructor
    · rintro rfl
      simp
    · intro h
      exact h.1
  · rename_i hno
    constructor
    · intro h
      cases h
    · rintro ⟨rfl, hne⟩
      obtain ⟨c, s, rfl⟩ := List.exists_cons_of_ne_nil hne
      exact absurd rfl (hno c s)

theorem providerPaths_eq_ok {item : Dict} {context : Context} {providers : List Str} :
    providerPaths item context = .ok providers ↔
      item.get (str "providers") = .arr (providers.map .str) ∧ providers ≠ [] ∧
        ∀ p ∈ providers, p ≠ [] := by
  have hforall : ∀ xs : List Json, List.Forall₂ (fun x p => x = .str p ∧ p ≠ []) xs providers ↔
      xs = providers.map .str ∧ ∀ p ∈ providers, p ≠ [] := by
    intro xs
    induction providers generalizing xs with
    | nil => simp
    | cons p providers ih =>
      cases xs with
      | nil => simp
      | cons x xs => simp [ih, and_assoc, and_left_comm]
  unfold providerPaths
  split
  · rename_i x xs hget
    rw [mapIndexed_eq_ok providerPath_eq_ok, hforall, hget, Json.arr.injEq]
    refine and_congr_right fun he => iff_and_self.mpr fun _ hnil => ?_
    rw [hnil] at he
    cases he
  · rename_i hno
    constructor
    · intro h
      cases h
    · rintro ⟨hget, hne, -⟩
      obtain ⟨p, ps, rfl⟩ := List.exists_cons_of_ne_nil hne
      exact absurd hget (hno _ _)

theorem unambiguous_of_providerOf {names : List Str} {context : Context} {s : Str}
    (h : providerOf names context = .ok s) : Unambiguous names := by
  unfold providerOf at h
  split at h
  · rename_i hany
    obtain ⟨name, hname, hstarts⟩ := List.any_eq_true.mp hany
    exact .inl ⟨name, hname, List.isPrefixOf_iff_prefix.mp hstarts⟩
  · split at h
    · rename_i hlibc
      exact .inr (.inl hlibc)
    · split at h
      · exact .inr (.inr ⟨_, fun n hn => List.mem_singleton.mp hn⟩)
      · cases h

theorem unambiguous_dedup {names : List Str} : Unambiguous names.dedup ↔ Unambiguous names := by
  simp only [Unambiguous, List.mem_dedup]

/-- A provided symbol that has an implementation. -/
structure Provided (item : Json) (d : Dict) (symbol : Str) (providers : List Str) : Prop where
  item_eq : item = d.toJson
  symbol_ok : d.get (str "provided_symbol") = .str symbol ∧ symbol ≠ []
  providers_ok : d.get (str "providers") = .arr (providers.map .str) ∧ providers ≠ [] ∧
    ∀ p ∈ providers, p ≠ []
  precedence : Unambiguous (providers.map pathName)

theorem providerImplementation_iff (index : ℕ) (x : Json) :
    (∃ s, providerImplementation index x = .ok s) ↔ ∃ d symbol providers, Provided x d symbol providers := by
  constructor
  · rintro ⟨s, h⟩
    simp only [providerImplementation, bind_eq_ok, asDict_eq_ok, requireString_eq_ok,
      providerPaths_eq_ok, pure_eq_ok] at h
    obtain ⟨d, hd, symbol, hsymbol, providers, hproviders, provider, hprovider, -⟩ := h
    have hprec := unambiguous_dedup.mp (unambiguous_of_providerOf hprovider)
    exact ⟨d, symbol, providers, hd, hsymbol, hproviders, hprec⟩
  · rintro ⟨d, symbol, providers, h⟩
    rw [h.item_eq]
    exact providerImplementation_isOk h.symbol_ok.1 h.symbol_ok.2 h.providers_ok.1
      h.providers_ok.2.1 h.providers_ok.2.2 h.precedence index

/-- The inventory has its lists, with their counts. -/
structure Counted (inventory summary analysis : Dict) (requirements provided weak : List Json) :
    Prop where
  summary_eq : inventory.get (str "summary") = summary.toJson
  analysis_eq : inventory.get (str "provider_analysis") = analysis.toJson
  requirements_eq : summary.get (str "required_glibc_symbols") = .arr requirements
  policy : Json.eq (analysis.get (str "matching_policy")) (.str MATCHING_POLICY) = true
  missingCount : Json.eq (analysis.get (str "missing_count")) (count 0) = true
  provided_eq : analysis.get (str "provided") = .arr provided
  weak_eq : analysis.get (str "unresolved_weak") = .arr weak
  providedCount : Json.eq (analysis.get (str "provided_count")) (count provided.length) = true
  weakCount : Json.eq (analysis.get (str "unresolved_weak_count")) (count weak.length) = true

/-- An inventory whose lists are there and have the right length is read as its outcomes and its
requirements are. -/
theorem inventoryRequirements_iff {inventory summary analysis : Dict}
    {requirements provided weak : List Json} {implementations : List Str}
    (hsummary : inventory.get (str "summary") = summary.toJson)
    (hanalysis : inventory.get (str "provider_analysis") = analysis.toJson)
    (hrequirements : summary.get (str "required_glibc_symbols") = .arr requirements)
    (hpolicy : analysis.get (str "matching_policy") = .str MATCHING_POLICY)
    (hmissing : analysis.get (str "missing_count") = count 0)
    (hprovided : analysis.get (str "provided") = .arr provided)
    (hweak : analysis.get (str "unresolved_weak") = .arr weak)
    (hprovidedCount : analysis.get (str "provided_count") = count provided.length)
    (hweakCount : analysis.get (str "unresolved_weak_count") = count weak.length)
    (himplementations : mapIndexed providerImplementation 0 provided = .ok implementations)
    {x : List Dict × List (Key × Str)} :
    inventoryRequirements inventory = .ok x ↔
      ∃ seen, collectOutcomes 0 [] (provided.zip implementations ++
          weak.map fun item => (item, str "optional-unresolved")) = .ok x.2 ∧
        collectRequirements x.2 0 [] requirements = .ok (x.1, seen) ∧
          (∀ k ∈ seen, k ∈ x.2.map Prod.fst) ∧ ∀ k ∈ x.2.map Prod.fst, k ∈ seen := by
  have hcount : ∀ n : ℕ, Json.eq (count n) (count n) = true := by
    intro n
    simp [Json.eq, Json.number?, Number.eq, count]
  obtain ⟨normalized, made⟩ := x
  simp only [inventoryRequirements, bind_eq_ok, requireDict_eq_ok, requireList_eq_ok,
    require_eq_ok, pure_eq_ok]
  constructor
  · rintro ⟨s, hs, a, ha, rs, hrs, _, _, _, _, ps, hps, ws, hws, _, _, _, _, is, his, m, hm,
      ⟨n, seen⟩, hn, _, hseen, he⟩
    obtain rfl := Dict.toJson_injective (hsummary.symm.trans hs)
    obtain rfl := Dict.toJson_injective (hanalysis.symm.trans ha)
    obtain rfl := Json.arr.inj (hrequirements.symm.trans hrs)
    obtain rfl := Json.arr.inj (hprovided.symm.trans hps)
    obtain rfl := Json.arr.inj (hweak.symm.trans hws)
    obtain rfl := Except.ok.inj (himplementations.symm.trans his)
    obtain ⟨rfl, rfl⟩ := Prod.mk.inj he
    exact ⟨seen, hm, hn, hseen⟩
  · rintro ⟨seen, hm, hn, hseen⟩
    refine ⟨summary, hsummary, analysis, hanalysis, requirements, hrequirements, (), ?_, (), ?_,
      provided, hprovided, weak, hweak, (), ?_, (), ?_, implementations, himplementations, made, hm,
      (normalized, seen), hn, (), hseen, rfl⟩
    · rw [hpolicy, Json.eq_comm, Json.eq_str]
    · rw [hmissing]
      exact hcount 0
    · rw [hprovidedCount]
      exact hcount _
    · rw [hweakCount]
      exact hcount _

/-- With one outcome for each requirement, the requirements are accepted if and only if their keys
are distinct. -/
theorem collect_iff {items rs : List Dict} {ks qs : List Key} {implementations : List Str}
    (hitems : List.Forall₂ (fun d k => ∀ context, inventoryKey d context = .ok k) items ks)
    (hrs : List.Forall₂ (fun d k => ∀ context, inventoryKey d context = .ok k) rs qs)
    (hlen : implementations.length = ks.length) (hperm : ks.Perm qs)
    {x : List Dict × List (Key × Str)} :
    (∃ seen, collectOutcomes 0 [] ((items.map Dict.toJson).zip implementations) = .ok x.2 ∧
      collectRequirements x.2 0 [] (rs.map Dict.toJson) = .ok (x.1, seen) ∧
        (∀ k ∈ seen, k ∈ x.2.map Prod.fst) ∧ ∀ k ∈ x.2.map Prod.fst, k ∈ seen) ↔
      qs.Nodup ∧ x = (rs, ks.zip implementations) := by
  obtain ⟨normalized, made⟩ := x
  have hkeys : (ks.zip implementations).map Prod.fst = ks := List.map_fst_zip hlen.ge
  have hnil : (([] : List (Key × Str)).map Prod.fst).Nodup := List.nodup_nil
  simp only [collectOutcomes_eq_ok hitems hlen hnil, collectRequirements_eq_ok hrs List.nodup_nil,
    List.map_nil, List.nil_append, Prod.mk.injEq]
  constructor
  · rintro ⟨_, ⟨_, rfl⟩, ⟨hnd, _, rfl, _⟩, _⟩
    exact ⟨hnd, rfl, rfl⟩
  · rintro ⟨hnd, rfl, rfl⟩
    rw [hkeys]
    have hmem : ∀ k ∈ qs, k ∈ ks := fun k hk => hperm.mem_iff.mpr hk
    exact ⟨qs, ⟨hperm.nodup_iff.mpr hnd, rfl⟩, ⟨hnd, hmem, rfl, rfl⟩, hmem,
      fun k hk => hperm.mem_iff.mp hk⟩

end MuslBsd.Manifest
