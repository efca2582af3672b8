import Mathlib.Data.List.Perm.Basic
import MuslBsd.Manifest.Check
import MuslBsd.Manifest.Inventory

/-! What `build_manifest` merges: the requirements, their outcomes and the policies of a base. -/
namespace MuslBsd.Manifest

/-! ### Requirements and outcomes by key -/

/-- The item is a dict that `_inventory_key` accepts. -/
def Keyed (x : Json) (k : Key) : Prop :=
  ∃ d : Dict, x = d.toJson ∧ ∀ context, inventoryKey d context = .ok k

theorem keyed_of_ok {d : Dict} {context : Context} {k : Key} (h : inventoryKey d context = .ok k) :
    Keyed d.toJson k := by
  refine ⟨d, rfl, fun context' => ?_⟩
  simp only [inventoryKey, bind_eq_ok, requireString_eq_ok, requireBool_eq_ok, require_eq_ok,
    pure_eq_ok] at h ⊢
  exact h

theorem collectOutcomes_iff {outcomes : List (Json × Str)} {index : ℕ} {made r : List (Key × Str)}
    (hmade : (made.map Prod.fst).Nodup) : collectOutcomes index made outcomes = .ok r ↔
      ∃ pairs, List.Forall₂ (fun o p => Keyed o.1 p.1 ∧ o.2 = p.2) outcomes pairs ∧
        r = made ++ pairs ∧ (r.map Prod.fst).Nodup := by
  induction outcomes generalizing index made with
  | nil =>
    simp only [collectOutcomes, Except.ok.injEq, List.forall₂_nil_left_iff, exists_eq_left,
      List.append_nil]
    constructor
    · rintro rfl
      exact ⟨rfl, hmade⟩
    · rintro ⟨rfl, -⟩
      rfl
  | cons o outcomes ih =>
    obtain ⟨x, s⟩ := o
    simp only [collectOutcomes, bind_eq_ok, requireDict_eq_ok, require_eq_ok,
      List.forall₂_cons_left_iff]
    have hmap : ∀ k, (made ++ [(k, s)]).map Prod.fst = made.map Prod.fst ++ [k] := fun k => by simp
    constructor
    · rintro ⟨d, rfl, k, hk, -, hnew, hrest⟩
      rw [nodup_append_singleton hmade, ← hmap] at hnew
      obtain ⟨pairs, hp, rfl, hnd⟩ := (ih hnew).mp hrest
      exact ⟨(k, s) :: pairs, ⟨(k, s), pairs, ⟨keyed_of_ok hk, rfl⟩, hp, rfl⟩, by simp, hnd⟩
    · rintro ⟨_, ⟨⟨k, t⟩, pairs, ⟨⟨d, rfl, hk⟩, rfl⟩, hp, rfl⟩, rfl, hnd⟩
      have hsplit : made ++ (k, s) :: pairs = made ++ [(k, s)] ++ pairs := by simp
      have hnew : ((made ++ [(k, s)]).map Prod.fst).Nodup := by
        rw [hsplit, List.map_append] at hnd
        exact hnd.sublist (List.sublist_append_left _ _)
      refine ⟨d, rfl, k, hk _, (), ?_, (ih hnew).mpr ⟨pairs, hp, hsplit, hnd⟩⟩
      rw [nodup_append_singleton hmade, ← hmap]
      exact hnew

theorem collectRequirements_iff {implementations : List (Key × Str)} {items : List Json} {index : ℕ}
    {seen seen' : List Key} {normalized : List Dict} (hseen : seen.Nodup) :
    collectRequirements implementations index seen items = .ok (normalized, seen') ↔
      ∃ keys, List.Forall₂ (fun d k => ∀ context, inventoryKey d context = .ok k) normalized keys ∧
        items = normalized.map Dict.toJson ∧ seen' = seen ++ keys ∧ seen'.Nodup ∧
        ∀ k ∈ keys, k ∈ implementations.map Prod.fst := by
  induction items generalizing index seen normalized with
  | nil =>
    simp only [collectRequirements, Except.ok.injEq, Prod.mk.injEq]
    constructor
    · rintro ⟨rfl, rfl⟩
      exact ⟨[], .nil, rfl, by simp, hseen, by simp⟩
    · rintro ⟨keys, hk, hn, rfl, -, -⟩
      obtain rfl := List.map_eq_nil_iff.mp hn.symm
      cases hk
      simp
  | cons x items ih =>
    simp only [collectRequirements, bind_eq_ok, requireDict_eq_ok, require_eq_ok, pure_eq_ok]
    constructor
    · rintro ⟨d, rfl, k, hk, -, hnew, -, hout, ⟨rest, seen₁⟩, hrest, he⟩
      obtain ⟨rfl, rfl⟩ := Prod.mk.inj he
      rw [nodup_append_singleton hseen] at hnew
      obtain ⟨keys, hkeys, rfl, rfl, hnd, hall⟩ := (ih hnew).mp hrest
      obtain ⟨e, he, hk⟩ := keyed_of_ok hk
      obtain rfl := Dict.toJson_injective he
      exact ⟨k :: keys, .cons hk hkeys, rfl, by simp, hnd, List.forall_mem_cons.mpr ⟨hout, hall⟩⟩
    · rintro ⟨keys, hkeys, hn, rfl, hnd, hall⟩
      cases hkeys with
      | nil => cases hn
      | @cons d k normalized keys hk hkeys =>
        obtain ⟨rfl, rfl⟩ := List.cons.inj hn
        obtain ⟨hout, hall⟩ := List.forall_mem_cons.mp hall
        have hsplit : seen ++ k :: keys = seen ++ [k] ++ keys := by simp
        have hnew : (seen ++ [k]).Nodup := by
          rw [hsplit] at hnd
          exact hnd.sublist (List.sublist_append_left _ _)
        have hrest := (@ih (index + 1) _ normalized hnew).mpr ⟨keys, hkeys, rfl, hsplit, hnd, hall⟩
        exact ⟨d, rfl, k, hk _, (), (nodup_append_singleton hseen).mpr hnew, (), hout,
          (normalized, seen ++ k :: keys), hrest, rfl⟩

theorem forall₂_perm {α β : Type} {R : α → β → Prop} {as as' : List α} {bs : List β}
    (h : List.Forall₂ R as bs) (hp : as.Perm as') : ∃ bs', List.Forall₂ R as' bs' ∧ bs.Perm bs' := by
  obtain ⟨bs', hr, hbs⟩ := List.perm_comp_forall₂ hp.symm h
  exact ⟨bs', hr, hbs.symm⟩

theorem forall₂_eq_map {α β : Type} {f : β → α} {as : List α} {bs : List β} :
    List.Forall₂ (fun a b => a = f b) as bs ↔ as = bs.map f := by
  have h : List.Forall₂ Eq as (bs.map f) ↔ List.Forall₂ (fun a b => a = f b) as bs :=
    List.forall₂_map_right_iff
  rw [← h, List.forall₂_eq_eq_eq]

/-- Which provider takes precedence depends on the set of names only. -/
theorem providerOf_congr {names names' : List Str} (h : ∀ n, n ∈ names ↔ n ∈ names')
    (hnd : names'.Nodup) {context : Context} (context' : Context) {s : Str}
    (hok : providerOf names context = .ok s) : providerOf names' context' = .ok s := by
  have hany : names.any (str "libmusl-bsd-core.so").isPrefixOf =
      names'.any (str "libmusl-bsd-core.so").isPrefixOf := by
    rw [Bool.eq_iff_iff, List.any_eq_true, List.any_eq_true]
    exact exists_congr fun n => and_congr_left' (h n)
  unfold providerOf at hok ⊢
  rw [← hany]
  split at hok
  · rename_i hcore
    rw [if_pos hcore]
    exact hok
  · rename_i hcore
    rw [if_neg hcore]
    split at hok
    · rename_i hlibc
      rw [if_pos ((h _).mp hlibc)]
      exact hok
    · rename_i hlibc
      rw [if_neg fun hmem => hlibc ((h _).mpr hmem)]
      split at hok
      · rename_i name
        have hne : names' ≠ [] := List.ne_nil_of_mem ((h name).mp (List.mem_singleton_self name))
        rw [eq_singleton_of_nodup hne hnd fun n hn => List.mem_singleton.mp ((h n).mpr hn)]
        exact hok
      · cases hok

/-- The dicts agree, but for these fields. -/
def Dict.AgreeBut (fields : List Str) (d e : Dict) : Prop := ∀ k ∉ fields, d.get k = e.get k

/-- Two arrays of the same items. -/
def Shuffled (x y : Json) : Prop := ∃ xs ys, x = .arr xs ∧ y = .arr ys ∧ xs.Perm ys

/-- The items are alike, but for the order of their providers. -/
def SameOutcome (x y : Json) : Prop :=
  x = y ∨ ∃ d e : Dict, x = d.toJson ∧ y = e.toJson ∧ d.AgreeBut [str "providers"] e ∧
    Shuffled (d.get (str "providers")) (e.get (str "providers"))

theorem providerImplementation_eq_ok {index : ℕ} {x : Json} {s : Str} :
    providerImplementation index x = .ok s ↔ ∃ (d : Dict) (symbol : Str) (providers : List Str)
      (provider : Str), x = d.toJson ∧ (d.get (str "provided_symbol") = .str symbol ∧ symbol ≠ []) ∧
      (d.get (str "providers") = .arr (providers.map .str) ∧ providers ≠ [] ∧ ∀ p ∈ providers, p ≠ []) ∧
      providerOf (providers.map pathName).dedup (.provided index) = .ok provider ∧
      provider ++ str ":" ++ symbol = s := by
  simp only [providerImplementation, bind_eq_ok, asDict_eq_ok, requireString_eq_ok,
    providerPaths_eq_ok, pure_eq_ok]
  constructor
  · rintro ⟨d, hd, symbol, hs, ps, hps, p, hp, he⟩
    exact ⟨d, symbol, ps, p, hd, hs, hps, hp, he⟩
  · rintro ⟨d, symbol, ps, p, hd, hs, hps, hp, he⟩
    exact ⟨d, hd, symbol, hs, ps, hps, p, hp, he⟩

theorem providerImplementation_index {index : ℕ} (index' : ℕ) {x : Json} {s : Str}
    (h : providerImplementation index x = .ok s) : providerImplementation index' x = .ok s := by
  obtain ⟨d, symbol, ps, p, hd, hs, hps, hp, he⟩ := providerImplementation_eq_ok.mp h
  have hp' := providerOf_congr (fun _ => Iff.rfl) (List.nodup_dedup _) (.provided index') hp
  exact providerImplementation_eq_ok.mpr ⟨d, symbol, ps, p, hd, hs, hps, hp', he⟩

theorem SameOutcome.providerImplementation {x y : Json} (hxy : SameOutcome x y) {index : ℕ} {s : Str}
    (h : providerImplementation index x = .ok s) : providerImplementation index y = .ok s := by
  rcases hxy with rfl | ⟨d, e, rfl, rfl, hagree, xs, ys, hxs, hys, hperm⟩
  · exact h
  · obtain ⟨d', symbol, ps, p, hd, hs, ⟨hps, hne, hall⟩, hp, he⟩ := providerImplementation_eq_ok.mp h
    obtain rfl := Dict.toJson_injective hd
    obtain rfl := Json.arr.inj (hxs.symm.trans hps)
    obtain ⟨qs, hqs, hpq⟩ := forall₂_perm (forall₂_eq_map.mpr rfl) hperm
    rw [forall₂_eq_map] at hqs
    have hmem : ∀ n, n ∈ (ps.map pathName).dedup ↔ n ∈ (qs.map pathName).dedup := fun n => by
      rw [List.mem_dedup, List.mem_dedup]
      exact (hpq.map pathName).mem_iff
    refine providerImplementation_eq_ok.mpr ⟨e, symbol, qs, p, rfl, ?_, ?_, ?_, he⟩
    · rw [← hagree (str "provided_symbol") (by decide)]
      exact hs
    · refine ⟨hqs ▸ hys, ?_, fun q hq => hall q (hpq.mem_iff.mpr hq)⟩
      rintro rfl
      exact hne hpq.eq_nil
    · exact providerOf_congr hmem (List.nodup_dedup _) _ hp

def optionalOutcome (k : Key) : Key × Str := (k, str "optional-unresolved")

/-- What an accepted inventory says: which keys are provided, and as what, which are optional, and
which are required. -/
structure Accepted (inventory : Dict) (requirements : List Dict) (implementations : List (Key × Str))
    (provided : List (Key × Str)) (weak keys : List Key) : Prop where
  counted : ∃ summary analysis items provided' weak',
    Counted inventory summary analysis items provided' weak' ∧
    List.Forall₂ (fun x p => Keyed x p.1 ∧ providerImplementation 0 x = .ok p.2) provided' provided ∧
    List.Forall₂ Keyed weak' weak ∧ items = requirements.map Dict.toJson
  required : List.Forall₂ (fun d k => ∀ context, inventoryKey d context = .ok k) requirements keys
  implementations_eq : implementations = provided ++ weak.map optionalOutcome
  distinct : (implementations.map Prod.fst).Nodup
  requiredDistinct : keys.Nodup
  same : ∀ k, k ∈ keys ↔ k ∈ implementations.map Prod.fst

theorem forall₂_append_left {α β : Type} {R : α → β → Prop} {as as' : List α} {bs : List β} :
    List.Forall₂ R (as ++ as') bs ↔
      ∃ cs cs', List.Forall₂ R as cs ∧ List.Forall₂ R as' cs' ∧ bs = cs ++ cs' := by
  induction as generalizing bs with
  | nil => simp
  | cons a as ih =>
    simp only [List.cons_append, List.forall₂_cons_left_iff, ih]
    constructor
    · rintro ⟨b, _, hb, ⟨cs, cs', hc, hc', rfl⟩, rfl⟩
      exact ⟨b :: cs, cs', ⟨b, cs, hb, hc, rfl⟩, hc', rfl⟩
    · rintro ⟨_, cs', ⟨b, cs, hb, hc, rfl⟩, hc', rfl⟩
      exact ⟨b, cs ++ cs', hb, ⟨cs, cs', hc, hc', rfl⟩, rfl⟩

/-- The outcomes of the provided symbols, each read twice: for its implementation and for its key. -/
theorem provided_outcomes_iff {P : Json → Str → Prop} {xs : List Json} {pairs : List (Key × Str)} :
    (∃ is, List.Forall₂ P xs is ∧
      List.Forall₂ (fun o p => Keyed o.1 p.1 ∧ o.2 = p.2) (xs.zip is) pairs) ↔
      List.Forall₂ (fun x p => Keyed x p.1 ∧ P x p.2) xs pairs := by
  induction xs generalizing pairs with
  | nil => simp
  | cons x xs ih =>
    rw [List.forall₂_cons_left_iff]
    constructor
    · rintro ⟨is, his, hpairs⟩
      cases his with
      | @cons _ i _ is hi his =>
        rw [List.zip_cons_cons, List.forall₂_cons_left_iff] at hpairs
        obtain ⟨p, ps, ⟨hk, rfl⟩, hps, rfl⟩ := hpairs
        exact ⟨p, ps, ⟨hk, hi⟩, ih.mp ⟨is, his, hps⟩, rfl⟩
    · rintro ⟨p, ps, ⟨hk, hi⟩, hps, rfl⟩
      obtain ⟨is, his, hps⟩ := ih.mpr hps
      exact ⟨p.2 :: is, .cons hi his, .cons ⟨hk, rfl⟩ hps⟩

theorem weak_outcomes_iff {xs : List Json} {pairs : List (Key × Str)} :
    List.Forall₂ (fun o p => Keyed o.1 p.1 ∧ o.2 = p.2)
        (xs.map fun x => (x, str "optional-unresolved")) pairs ↔
      ∃ weak, List.Forall₂ Keyed xs weak ∧ pairs = weak.map optionalOutcome := by
  rw [List.forall₂_map_left_iff]
  induction xs generalizing pairs with
  | nil => simp
  | cons x xs ih =>
    simp only [List.forall₂_cons_left_iff, ih]
    constructor
    · rintro ⟨⟨k, s⟩, _, ⟨hk, rfl⟩, ⟨weak, hw, rfl⟩, rfl⟩
      exact ⟨k :: weak, ⟨k, weak, hk, hw, rfl⟩, rfl⟩
    · rintro ⟨_, ⟨k, weak, hk, hw, rfl⟩, rfl⟩
      exact ⟨optionalOutcome k, weak.map optionalOutcome, ⟨hk, rfl⟩, ⟨weak, hw, rfl⟩, rfl⟩

theorem inventoryRequirements_eq_ok {inventory : Dict} {requirements : List Dict}
    {implementations : List (Key × Str)} :
    inventoryRequirements inventory = .ok (requirements, implementations) ↔
      ∃ provided weak keys, Accepted inventory requirements implementations provided weak keys := by
  have hnil : (([] : List (Key × Str)).map Prod.fst).Nodup := List.nodup_nil
  have himpl : ∀ i x s, providerImplementation i x = .ok s ↔ providerImplementation 0 x = .ok s :=
    fun i x s => ⟨providerImplementation_index 0, providerImplementation_index i⟩
  simp only [inventoryRequirements, bind_eq_ok, requireDict_eq_ok, requireList_eq_ok, require_eq_ok,
    pure_eq_ok, mapIndexed_eq_ok himpl, collectOutcomes_iff hnil, List.nil_append]
  constructor
  · rintro ⟨s, hs, a, ha, rs, hrs, -, hpol, -, hmiss, ps, hps, ws, hws, -, hpc, -, hwc, is, his, m,
      ⟨pairs, hpairs, rfl, hnd⟩, ⟨n, seen⟩, hn, -, ⟨hsub, hsup⟩, he⟩
    obtain ⟨rfl, rfl⟩ := Prod.mk.inj he
    obtain ⟨keys, hkeys, rfl, rfl, hknd, hout⟩ := (collectRequirements_iff List.nodup_nil).mp hn
    obtain ⟨provided, weakPairs, hprovided, hweak, rfl⟩ := forall₂_append_left.mp hpairs
    obtain ⟨weak, hweak', rfl⟩ := weak_outcomes_iff.mp hweak
    have hcounted : Counted inventory s a (n.map Dict.toJson) ps ws :=
      ⟨hs, ha, hrs, hpol, hmiss, hps, hws, hpc, hwc⟩
    have hps := provided_outcomes_iff.mp ⟨is, his, hprovided⟩
    exact ⟨provided, weak, seen, ⟨s, a, _, ps, ws, hcounted, hps, hweak', rfl⟩, hkeys, rfl, hnd, hknd,
      fun k => ⟨hsub k, hsup k⟩⟩
  · rintro ⟨provided, weak, keys, h⟩
    obtain ⟨s, a, rs, ps, ws, hc, hps, hws, rfl⟩ := h.counted
    obtain ⟨is, his, hprovided⟩ := (provided_outcomes_iff
      (P := fun x s => providerImplementation 0 x = .ok s)).mpr hps
    have hpairs := forall₂_append_left.mpr
      ⟨provided, _, hprovided, weak_outcomes_iff.mpr ⟨weak, hws, rfl⟩, h.implementations_eq⟩
    have hn : collectRequirements implementations 0 [] (requirements.map Dict.toJson) =
        .ok (requirements, keys) := (collectRequirements_iff List.nodup_nil).mpr
      ⟨keys, h.required, rfl, rfl, h.requiredDistinct, fun k hk => (h.same k).mp hk⟩
    exact ⟨s, hc.summary_eq, a, hc.analysis_eq, _, hc.requirements_eq, (), hc.policy, (),
      hc.missingCount, ps, hc.provided_eq, ws, hc.weak_eq, (), hc.providedCount, (), hc.weakCount, is,
      his, implementations, ⟨implementations, hpairs, rfl, h.distinct⟩, (requirements, keys), hn, (),
      ⟨fun k hk => (h.same k).mp hk, fun k hk => (h.same k).mpr hk⟩, rfl⟩

theorem Keyed.unique {x : Json} {k l : Key} (hk : Keyed x k) (hl : Keyed x l) : k = l := by
  obtain ⟨d, rfl, hk⟩ := hk
  obtain ⟨e, he, hl⟩ := hl
  obtain rfl := Dict.toJson_injective he
  exact Except.ok.inj ((hk .generatedSymbol).symm.trans (hl .generatedSymbol))

/-- The inventory's own word on the implementation of a symbol. -/
def Implements (inventory : Dict) (k : Key) (s : Str) : Prop :=
  ∃ analysis : Dict, inventory.get (str "provider_analysis") = analysis.toJson ∧
    ((∃ items x, analysis.get (str "provided") = .arr items ∧ x ∈ items ∧ Keyed x k ∧
        providerImplementation 0 x = .ok s) ∨
      ∃ items x, analysis.get (str "unresolved_weak") = .arr items ∧ x ∈ items ∧ Keyed x k ∧
        s = str "optional-unresolved")

/-- The keys that the inventory requires, in its order. -/
def Requires (inventory : Dict) (keys : List Key) : Prop :=
  ∃ (summary : Dict) (items : List Json), inventory.get (str "summary") = summary.toJson ∧
    summary.get (str "required_glibc_symbols") = .arr items ∧ List.Forall₂ Keyed items keys

section Accepted

variable {inventory : Dict} {requirements : List Dict} {implementations provided : List (Key × Str)}
  {weak keys : List Key}

theorem Accepted.requires
    (h : Accepted inventory requirements implementations provided weak keys) : Requires inventory keys := by
  obtain ⟨s, a, items, _, _, hc, -, -, rfl⟩ := h.counted
  refine ⟨s, _, hc.summary_eq, hc.requirements_eq, ?_⟩
  rw [List.forall₂_map_left_iff]
  exact h.required.imp fun d k hk => ⟨d, rfl, hk⟩

theorem Accepted.implements_iff
    (h : Accepted inventory requirements implementations provided weak keys) {k : Key} {s : Str} :
    Implements inventory k s ↔ (k, s) ∈ implementations := by
  obtain ⟨_, a, _, ps, ws, hc, hps, hws, -⟩ := h.counted
  rw [h.implementations_eq, List.mem_append]
  constructor
  · rintro ⟨a', ha, hout⟩
    obtain rfl := Dict.toJson_injective (hc.analysis_eq.symm.trans ha)
    rcases hout with ⟨items, x, hitems, hx, hk, hs⟩ | ⟨items, x, hitems, hx, hk, rfl⟩
    · obtain rfl := Json.arr.inj (hc.provided_eq.symm.trans hitems)
      obtain ⟨⟨l, t⟩, hp, hl, ht⟩ := forall₂_exists hps hx
      obtain rfl := hk.unique hl
      obtain rfl := Except.ok.inj (hs.symm.trans ht)
      exact .inl hp
    · obtain rfl := Json.arr.inj (hc.weak_eq.symm.trans hitems)
      obtain ⟨l, hl, hkl⟩ := forall₂_exists hws hx
      obtain rfl := hk.unique hkl
      exact .inr (List.mem_map.mpr ⟨k, hl, rfl⟩)
  · rintro (hp | hw)
    · obtain ⟨x, hx, hk, hs⟩ := forall₂_exists hps.flip hp
      exact ⟨a, hc.analysis_eq, .inl ⟨ps, x, hc.provided_eq, hx, hk, hs⟩⟩
    · obtain ⟨l, hl, he⟩ := List.mem_map.mp hw
      obtain ⟨rfl, rfl⟩ := Prod.mk.inj he
      obtain ⟨x, hx, hk⟩ := forall₂_exists hws.flip hl
      exact ⟨a, hc.analysis_eq, .inr ⟨ws, x, hc.weak_eq, hx, hk, rfl⟩⟩

/-- A shuffled inventory requires the same keys, with the same implementations. -/
structure Reordered (inventory inventory' : Dict) : Prop where
  others : inventory.AgreeBut [str "summary", str "provider_analysis"] inventory'
  summary : ∃ s s' : Dict, inventory.get (str "summary") = s.toJson ∧
    inventory'.get (str "summary") = s'.toJson ∧ s.AgreeBut [str "required_glibc_symbols"] s' ∧
    Shuffled (s.get (str "required_glibc_symbols")) (s'.get (str "required_glibc_symbols"))
  analysis : ∃ a a' : Dict, inventory.get (str "provider_analysis") = a.toJson ∧
    inventory'.get (str "provider_analysis") = a'.toJson ∧
    a.AgreeBut [str "provided", str "unresolved_weak"] a' ∧
    (∃ xs ys zs, a.get (str "provided") = .arr xs ∧ xs.Perm ys ∧ List.Forall₂ SameOutcome ys zs ∧
      a'.get (str "provided") = .arr zs) ∧
    Shuffled (a.get (str "unresolved_weak")) (a'.get (str "unresolved_weak"))

theorem requireString_congr {d e : Dict} {field : Str} {context : Context}
    (h : d.get field = e.get field) : requireString d field context = requireString e field context := by
  unfold requireString
  rw [h]

theorem SameOutcome.keyed {x y : Json} (hxy : SameOutcome x y) {k : Key} (h : Keyed x k) :
    Keyed y k := by
  rcases hxy with rfl | ⟨d, e, rfl, rfl, hagree, -⟩
  · exact h
  · obtain ⟨d', hd, hk⟩ := h
    obtain rfl := Dict.toJson_injective hd
    refine ⟨e, rfl, fun context => ?_⟩
    have hread : inventoryKey d context = inventoryKey e context := by
      unfold inventoryKey requireBool
      rw [requireString_congr (hagree (str "name") (by decide)),
        requireString_congr (hagree (str "version") (by decide)),
        requireString_congr (hagree (str "library") (by decide)),
        requireString_congr (hagree (str "binding") (by decide)), hagree (str "hidden") (by decide)]
    exact hread ▸ hk context

theorem forall₂_transport {α β : Type} {S : α → α → Prop} {R : α → β → Prop}
    (h : ∀ x y b, S x y → R x b → R y b) {xs ys : List α} {bs : List β} (hs : List.Forall₂ S xs ys)
    (hr : List.Forall₂ R xs bs) : List.Forall₂ R ys bs := by
  induction hs generalizing bs with
  | nil => exact hr
  | cons hxy _ ih =>
    cases hr with
    | cons hb hr => exact .cons (h _ _ _ hxy hb) (ih hr)

theorem Accepted.reorder (h : Accepted inventory requirements implementations provided weak keys)
    {inventory' : Dict} (hr : Reordered inventory inventory') :
    ∃ requirements' implementations' provided' weak' keys',
      Accepted inventory' requirements' implementations' provided' weak' keys' ∧ keys.Perm keys' ∧
        implementations.Perm implementations' := by
  obtain ⟨s, a, items, ps, ws, hc, hps, hws, rfl⟩ := h.counted
  obtain ⟨s₁, s', hs₁, hs', hsummary, rs, rs', hrs, hrs', hrequired⟩ := hr.summary
  obtain ⟨a₁, a', ha₁, ha', hanalysis, ⟨xs, ys, zs, hxs, hxy, hyz, hzs⟩, vs, us, hvs, hus, hperm⟩ :=
    hr.analysis
  obtain rfl := Dict.toJson_injective (hc.summary_eq.symm.trans hs₁)
  obtain rfl := Dict.toJson_injective (hc.analysis_eq.symm.trans ha₁)
  obtain rfl := Json.arr.inj (hc.requirements_eq.symm.trans hrs)
  obtain rfl := Json.arr.inj (hc.provided_eq.symm.trans hxs)
  obtain rfl := Json.arr.inj (hc.weak_eq.symm.trans hvs)
  obtain ⟨requirements', hitems, hreqs⟩ := forall₂_perm (forall₂_eq_map.mpr rfl) hrequired
  rw [forall₂_eq_map] at hitems
  obtain ⟨keys', hkeys', hkeys⟩ := forall₂_perm h.required hreqs
  obtain ⟨provided', hys, hprovided⟩ := forall₂_perm hps hxy
  have hzs' : List.Forall₂ (fun x p => Keyed x p.1 ∧ providerImplementation 0 x = .ok p.2) zs provided' :=
    forall₂_transport (fun x y p hxy ⟨hk, hp⟩ => ⟨hxy.keyed hk, hxy.providerImplementation hp⟩) hyz hys
  obtain ⟨weak', hus', hweak⟩ := forall₂_perm hws hperm
  have himpl : implementations.Perm (provided' ++ weak'.map optionalOutcome) := by
    rw [h.implementations_eq]
    exact hprovided.append (hweak.map _)
  have hlen : ps.length = zs.length := hxy.length_eq.trans hyz.length_eq
  have hcounted : Counted inventory' s' a' rs' zs us := by
    refine ⟨hs', ha', hrs', ?_, ?_, hzs, hus, ?_, ?_⟩
    · rw [← hanalysis (str "matching_policy") (by decide)]
      exact hc.policy
    · rw [← hanalysis (str "missing_count") (by decide)]
      exact hc.missingCount
    · rw [← hanalysis (str "provided_count") (by decide), ← hlen]
      exact hc.providedCount
    · rw [← hanalysis (str "unresolved_weak_count") (by decide), ← hperm.length_eq]
      exact hc.weakCount
  have hfst := himpl.map Prod.fst
  refine ⟨requirements', _, provided', weak', keys', ⟨⟨s', a', rs', zs, us, hcounted, hzs', hus', hitems⟩,
    hkeys', rfl, hfst.nodup_iff.mp h.distinct, hkeys.nodup_iff.mp h.requiredDistinct, fun k => ?_⟩,
    hkeys, himpl⟩
  rw [← hkeys.mem_iff, ← hfst.mem_iff]
  exact h.same k

end Accepted

/-! ### The merged symbols -/

/-- The symbol of a required key. -/
def symbolOf (policies : List (Key × Policy)) (implementations : List (Key × Str)) (k : Key) :
    SymbolRecord :=
  let policy := (dictGet policies k).getD defaultPolicy
  ⟨k, (dictGet implementations k).getD [], policy.1, policy.2⟩

def sortSymbols (symbols : List SymbolRecord) : List SymbolRecord :=
  symbols.insertionSort fun a b => a.key.tuple ≤ b.key.tuple

theorem buildSymbols_eq {policies : List (Key × Policy)} {implementations : List (Key × Str)}
    {requirements : List Dict} {keys : List Key} {index : ℕ}
    (hk : List.Forall₂ (fun d k => ∀ context, inventoryKey d context = .ok k) requirements keys)
    (hout : ∀ k ∈ keys, k ∈ implementations.map Prod.fst) :
    mapIndexed (buildSymbol policies implementations) index requirements =
      .ok (keys.map (symbolOf policies implementations)) := by
  induction hk generalizing index with
  | nil => rfl
  | cons hd _ ih =>
    obtain ⟨hk, hout⟩ := List.forall_mem_cons.mp hout
    obtain ⟨s, hs, -⟩ := exists_dictGet hk
    simp only [mapIndexed, bind_eq_ok, pure_eq_ok, List.map_cons]
    refine ⟨_, ?_, _, ih hout, rfl⟩
    simp only [buildSymbol, bind_eq_ok]
    refine ⟨_, hd _, ?_⟩
    rw [hs]
    exact congrArg Except.ok (by simp [symbolOf, hs])

/-- Sorting by distinct keys forgets the order before. -/
theorem sortSymbols_congr {f g : Key → SymbolRecord} {keys keys' : List Key} (hf : ∀ k, (f k).key = k)
    (hp : keys.Perm keys') (hnd : keys.Nodup) (hfg : ∀ k ∈ keys, f k = g k) :
    sortSymbols (keys.map f) = sortSymbols (keys'.map g) := by
  have hmap : keys'.map g = keys'.map f :=
    List.map_congr_left fun k hk => (hfg k (hp.mem_iff.mpr hk)).symm
  have hstrict : ∀ l : List Key, l.Nodup →
      (sortSymbols (l.map f)).Pairwise fun a b => a.key.tuple < b.key.tuple := by
    intro l hl
    rw [← List.pairwise_map (f := fun s : SymbolRecord => s.key.tuple) (R := (· < ·)), sortSymbols,
      sorted_map_iff, List.map_map]
    exact hl.map fun k l he => Key.tuple_injective (by simpa [hf] using he)
  have hperm : (sortSymbols (keys.map f)).Perm (sortSymbols (keys'.map f)) :=
    ((List.perm_insertionSort _ _).trans (hp.map f)).trans (List.perm_insertionSort _ _).symm
  rw [hmap]
  refine List.Perm.eq_of_pairwise (fun a b _ _ hab hba => ?_) (hstrict keys hnd)
    (hstrict keys' (hp.nodup_iff.mp hnd)) hperm
  exact absurd (hab.trans hba) (lt_irrefl _)

/-- The manifest that is made of what was read. -/
def merged (policies : List (Key × Policy)) (implementations : List (Key × Str)) (keys : List Key)
    (roots : List RootRecord) (missing : List MissingRecord) : GeneratedManifest :=
  ⟨roots, missing, sortSymbols (keys.map (symbolOf policies implementations))⟩

theorem buildManifest_eq_merged {inventory : Dict} {base : Option Dict} {m : GeneratedManifest} :
    buildManifest inventory base = .ok m ↔
      ∃ requirements implementations provided weak keys policies roots missing,
        Accepted inventory requirements implementations provided weak keys ∧
        basePolicies base = .ok policies ∧ sourceRoots inventory = .ok roots ∧
        missingDependencies inventory = .ok missing ∧
        m = merged policies implementations keys roots missing := by
  simp only [buildManifest, bind_eq_ok, pure_eq_ok]
  constructor
  · rintro ⟨⟨requirements, implementations⟩, hreq, policies, hp, symbols, hs, roots, hr, missing, hm, rfl⟩
    obtain ⟨provided, weak, keys, h⟩ := inventoryRequirements_eq_ok.mp hreq
    rw [buildSymbols_eq h.required fun k hk => (h.same k).mp hk] at hs
    obtain rfl := Except.ok.inj hs
    exact ⟨requirements, implementations, provided, weak, keys, policies, roots, missing, h, hp, hr, hm, rfl⟩
  · rintro ⟨requirements, implementations, provided, weak, keys, policies, roots, missing, h, hp, hr, hm,
      rfl⟩
    exact ⟨(requirements, implementations), inventoryRequirements_eq_ok.mpr ⟨_, _, _, h⟩, policies, hp, _,
      buildSymbols_eq h.required fun k hk => (h.same k).mp hk, roots, hr, missing, hm, rfl⟩

theorem dictGet_perm {pairs pairs' : List (Key × Str)} (hp : pairs.Perm pairs')
    (hnd : (pairs.map Prod.fst).Nodup) (k : Key) : dictGet pairs k = dictGet pairs' k := by
  have hnd' : (pairs'.map Prod.fst).Nodup := (hp.map Prod.fst).nodup_iff.mp hnd
  cases h : dictGet pairs k with
  | some s => exact (dictGet_of_mem hnd' (hp.mem_iff.mp (dictGet_mem h))).symm
  | none =>
    cases h' : dictGet pairs' k with
    | none => rfl
    | some s =>
      rw [dictGet_of_mem hnd (hp.mem_iff.mpr (dictGet_mem h'))] at h
      cases h

/-- Test and quality that a manifest has for a key. -/
def Records (manifest : Dict) (k : Key) (policy : Policy) : Prop :=
  ∃ (symbols : List Json) (d : Dict), manifest.val (str "symbols") = .arr symbols ∧
    d.toJson ∈ symbols ∧ HasKey d k ∧ policy = (d.val (str "test"), d.val (str "quality"))

/-- The policies of a valid base are what it records. -/
theorem records_iff {base : Dict} {policies : List (Key × Policy)}
    (hp : basePolicies (some base) = .ok policies) {k : Key} {policy : Policy} :
    Records base k policy ↔ dictGet policies k = some policy := by
  have hvalid : validateManifest base = .ok () := by
    simp only [basePolicies, bind_eq_ok] at hp
    obtain ⟨_, hv, _⟩ := hp
    exact hv
  obtain ⟨roots, missing, symbols, rts, mts, keys, hv⟩ := validateManifest_eq_ok.mp hvalid
  have hall := basePolicies_of_valid hv hp
  obtain ⟨policies', hp', hkeys⟩ := basePolicies_exists hv
  obtain rfl := Except.ok.inj (hp.symm.trans hp')
  have hnodup : (policies.map Prod.fst).Nodup := by
    rw [hkeys]
    exact (hv.symbolsSorted.imp fun h => ne_of_lt h).of_map _ fun _ _ h he => h (he ▸ rfl)
  constructor
  · rintro ⟨items, d, hitems, hd, hk, rfl⟩
    obtain rfl := Json.arr.inj (hv.symbols_eq.symm.trans hitems)
    obtain ⟨⟨l, t, q⟩, hmem, e, he, hl, ht, hq⟩ := forall₂_exists hall hd
    obtain rfl := Dict.toJson_injective he
    obtain rfl := hk.unique hl
    rw [ht, hq]
    exact dictGet_of_mem hnodup hmem
  · intro hget
    obtain ⟨x, hx, d, rfl, hk, ht, hq⟩ := forall₂_exists hall.flip (dictGet_mem hget)
    exact ⟨symbols, d, hv.symbols_eq, hx, hk, by rw [ht, hq]⟩

/-- What a generated manifest records is what its symbols have. -/
theorem records_toDict {m : GeneratedManifest} (hvalid : validateManifest m.toDict = .ok ())
    {s : SymbolRecord} (hs : s ∈ m.symbols) : Records m.toDict s.key (s.test, s.quality) := by
  obtain ⟨-, -, hlegal, -⟩ := (validate_generated_iff m).mp hvalid
  exact ⟨_, s.toDict, rfl, List.mem_map.mpr ⟨s, hs, rfl⟩, hasKey_toDict (hlegal s hs).nonEmpty, rfl⟩

/-- With its own result as base, the builder gives the result again. -/
theorem buildManifest_idempotent {inventory : Dict} {base : Option Dict} {m : GeneratedManifest}
    (h : buildManifest inventory base = .ok m) (hvalid : validateManifest m.toDict = .ok ()) :
    buildManifest inventory (some m.toDict) = .ok m := by
  obtain ⟨requirements, implementations, provided, weak, keys, policies, roots, missing, ha, hp, hr, hm,
    rfl⟩ := buildManifest_eq_merged.mp h
  obtain ⟨_, _, _, _, _, _, hv⟩ := validateManifest_eq_ok.mp hvalid
  obtain ⟨policies', hp', -⟩ := basePolicies_exists hv
  have hsame : ∀ k ∈ keys,
      symbolOf policies implementations k = symbolOf policies' implementations k := by
    intro k hk
    have hmem : symbolOf policies implementations k ∈
        (merged policies implementations keys roots missing).symbols :=
      (List.mem_insertionSort _).mpr (List.mem_map.mpr ⟨k, hk, rfl⟩)
    have hget := (records_iff hp').mp (records_toDict hvalid hmem)
    have hkey : dictGet policies' k = some ((dictGet policies k).getD defaultPolicy) := hget
    simp [symbolOf, hkey]
  refine buildManifest_eq_merged.mpr ⟨requirements, implementations, provided, weak, keys, policies',
    roots, missing, ha, hp', hr, hm, ?_⟩
  exact congrArg (GeneratedManifest.mk roots missing)
    (sortSymbols_congr (fun _ => rfl) (List.Perm.refl keys) ha.requiredDistinct hsame)

/-- Neither the order of the requirements nor that of the outcomes or their providers matters. -/
theorem buildManifest_reorder {inventory inventory' : Dict} {base : Option Dict} {m : GeneratedManifest}
    (h : buildManifest inventory base = .ok m) (hr : Reordered inventory inventory') :
    buildManifest inventory' base = .ok m := by
  obtain ⟨requirements, implementations, provided, weak, keys, policies, roots, missing, ha, hp, hroots,
    hmissing, rfl⟩ := buildManifest_eq_merged.mp h
  obtain ⟨requirements', implementations', provided', weak', keys', ha', hkeys, himpl⟩ := ha.reorder hr
  have hread : sourceRoots inventory' = sourceRoots inventory ∧
      missingDependencies inventory' = missingDependencies inventory := by
    unfold sourceRoots rootReports missingDependencies missingReports
    rw [hr.others (str "roots") (by decide), hr.others (str "objects") (by decide),
      hr.others (str "missing_dependencies") (by decide)]
    exact ⟨rfl, rfl⟩
  refine buildManifest_eq_merged.mpr ⟨requirements', implementations', provided', weak', keys', policies,
    roots, missing, ha', hp, hread.1.trans hroots, hread.2.trans hmissing, ?_⟩
  refine congrArg (GeneratedManifest.mk roots missing)
    (sortSymbols_congr (fun _ => rfl) hkeys ha.requiredDistinct fun k _ => ?_)
  simp [symbolOf, dictGet_perm himpl ha.distinct k]

/-- Only a nan is not equal to itself. -/
theorem eq_ofFields {fields : List (Str × Json)} (h : ∀ f ∈ fields, Json.eq f.2 f.2 = true) :
    Json.eq (Dict.ofFields fields).toJson (Dict.ofFields fields).toJson = true := by
  refine Json.eq_obj.mpr ⟨fun _ => Iff.rfl, fun k _ => ?_⟩
  have hval : (Dict.ofFields fields).val k = (fields.lookup k).getD .null := rfl
  rw [hval]
  cases hl : fields.lookup k with
  | none => exact Json.eq_null.mpr rfl
  | some x =>
    obtain ⟨l, r, he, -⟩ := List.lookup_eq_some_iff.mp hl
    exact h (k, x) (by simp [he])

theorem eq_arr_map {α : Type} {f : α → Json} {xs : List α} (h : ∀ x ∈ xs, Json.eq (f x) (f x) = true) :
    Json.eq (.arr (xs.map f)) (.arr (xs.map f)) = true := by
  rw [Json.eq_arr, List.forall₂_map_left_iff, List.forall₂_map_right_iff, List.forall₂_same]
  exact h

theorem eq_generated {m : GeneratedManifest} (hlegal : ∀ s ∈ m.symbols, s.Legal) :
    Json.eq m.toDict.toJson m.toDict.toJson = true := by
  have hstr : ∀ t, Json.eq (.str t) (.str t) = true := fun t => Json.eq_str.mpr rfl
  have hroot : ∀ r ∈ m.sourceRoots, Json.eq r.toDict.toJson r.toDict.toJson = true := by
    intro r _
    refine eq_ofFields ?_
    have hsoname : Json.eq (optional r.soname) (optional r.soname) = true := by
      cases r.soname with
      | none => exact Json.eq_null.mpr rfl
      | some t => exact hstr t
    simp [hstr, hsoname]
  have hmissing : ∀ d ∈ m.missingDependencies, Json.eq d.toDict.toJson d.toDict.toJson = true := by
    intro d _
    refine eq_ofFields ?_
    simp [hstr]
  have hsymbol : ∀ s ∈ m.symbols, Json.eq s.toDict.toJson s.toDict.toJson = true := by
    intro s hs
    refine eq_ofFields ?_
    obtain ⟨t, ht, -⟩ := (hlegal s hs).test
    obtain ⟨q, hq, -⟩ := (hlegal s hs).quality
    simp [hstr, ht, hq]
  have hschema : Json.eq SCHEMA_VERSION SCHEMA_VERSION = true := by decide
  refine eq_ofFields ?_
  simp only [List.forall_mem_cons, List.not_mem_nil, IsEmpty.forall_iff, implies_true, and_true]
  exact ⟨hschema, hstr _, hstr _, eq_arr_map hroot, eq_arr_map hmissing, eq_arr_map hsymbol⟩

/-- A manifest is the merge of the inventory's requirements and outcomes with the policies of its
base, and a fixed point of it. -/
theorem merge {inventory base : Dict} {m : GeneratedManifest}
    (hbuild : buildManifest inventory (some base) = .ok m) (hvalid : validateManifest m.toDict = .ok ()) :
    (∃ m', buildManifest inventory (some m.toDict) = .ok m' ∧
      Json.eq m'.toDict.toJson m.toDict.toJson = true) ∧
    (∃ keys, Requires inventory keys ∧ (m.symbols.map SymbolRecord.key).Perm keys ∧
      (m.symbols.map fun s => s.key.tuple).Pairwise (· < ·)) ∧
    (∀ s ∈ m.symbols, (∀ i, Implements inventory s.key i ↔ i = s.implementation) ∧
      (∀ policy, Records base s.key policy → (s.test, s.quality) = policy) ∧
      ((∀ policy, ¬Records base s.key policy) → s.quality = .str (str "UNSUPPORTED"))) ∧
    (∀ k policy, Records base k policy → (∀ keys, Requires inventory keys → k ∉ keys) →
      k ∉ m.symbols.map SymbolRecord.key) ∧
    ∀ inventory', Reordered inventory inventory' → buildManifest inventory' (some base) = .ok m := by
  obtain ⟨hroots, hmissing, hlegal, hsorted⟩ := (validate_generated_iff m).mp hvalid
  obtain ⟨requirements, implementations, provided, weak, keys, policies, roots, missing, ha, hp, -, -, he⟩ :=
    buildManifest_eq_merged.mp hbuild
  have hsymbols : m.symbols = sortSymbols (keys.map (symbolOf policies implementations)) := by
    rw [he]
    rfl
  have hperm : (m.symbols.map SymbolRecord.key).Perm keys := by
    have hmap : (keys.map (symbolOf policies implementations)).map SymbolRecord.key = keys := by
      rw [List.map_map]
      exact List.map_id' keys
    have hsort := (List.perm_insertionSort (fun a b : SymbolRecord => a.key.tuple ≤ b.key.tuple)
      (keys.map (symbolOf policies implementations))).map SymbolRecord.key
    rw [hmap] at hsort
    rw [hsymbols]
    exact hsort
  refine ⟨⟨m, buildManifest_idempotent hbuild hvalid, eq_generated hlegal⟩,
    ⟨keys, ha.requires, hperm, hsorted⟩, fun s hs => ?_, fun k policy _ hno hk => ?_,
    fun inventory' hr => buildManifest_reorder hbuild hr⟩
  · rw [hsymbols, sortSymbols, List.mem_insertionSort, List.mem_map] at hs
    obtain ⟨k, hk, rfl⟩ := hs
    obtain ⟨t, ht, hmem⟩ := exists_dictGet ((ha.same k).mp hk)
    refine ⟨fun i => ?_, fun policy hpolicy => ?_, fun hnone => ?_⟩
    · have hi : (symbolOf policies implementations k).implementation = t := by simp [symbolOf, ht]
      rw [hi, show (symbolOf policies implementations k).key = k from rfl, ha.implements_iff]
      constructor
      · intro hki
        have hget := dictGet_of_mem ha.distinct hki
        rw [ht] at hget
        exact (Option.some.inj hget).symm
      · rintro rfl
        exact hmem
    · have hget := (records_iff hp).mp hpolicy
      have hkey : dictGet policies k = some policy := hget
      simp [symbolOf, hkey]
    · have hget : dictGet policies k = none := by
        cases hget : dictGet policies k with
        | none => rfl
        | some policy => exact absurd ((records_iff hp).mpr hget) (hnone policy)
      simp [symbolOf, hget, defaultPolicy]
  · exact hno keys ha.requires (hperm.mem_iff.mp hk)

/-- An inventory of one requirement, which the C library meets. -/
def requiringOne : Dict :=
  let requirement : List (Str × Json) := [(str "name", .str (str "f")),
    (str "version", .str (str "GLIBC_2.2.5")), (str "library", .str (str "libc.so.6")),
    (str "binding", .str (str "global")), (str "hidden", .bool false)]
  let outcome : List (Str × Json) := requirement ++ [(str "provided_symbol", .str (str "f")),
    (str "providers", .arr [.str (str "/lib/libc.so")])]
  .ofFields [(str "summary", (Dict.ofFields [(str "required_glibc_symbols",
      .arr [(Dict.ofFields requirement).toJson])]).toJson),
    (str "provider_analysis", (Dict.ofFields [(str "matching_policy", .str MATCHING_POLICY),
      (str "missing_count", count 0), (str "provided", .arr [(Dict.ofFields outcome).toJson]),
      (str "unresolved_weak", .arr []), (str "provided_count", count 1),
      (str "unresolved_weak_count", count 0)]).toJson),
    (str "roots", .arr []), (str "objects", .arr []), (str "missing_dependencies", .arr [])]

/-- A manifest of the symbols with these names, all tested and exact. -/
def exactly (names : List Str) : GeneratedManifest :=
  ⟨[], [], names.map fun name => ⟨⟨name, str "GLIBC_2.2.5", str "libc.so.6", str "global"⟩,
    str "musl-libc:f", .str (str "t"), .str (str "EXACT")⟩⟩

theorem merge_exactly : ∃ m', buildManifest requiringOne (some (exactly [str "f"]).toDict) = .ok m' ∧
    Json.eq m'.toDict.toJson (exactly [str "f"]).toDict.toJson = true :=
  (merge (show buildManifest requiringOne (some (exactly [str "f", str "g"]).toDict) =
    .ok (exactly [str "f"]) from rfl) rfl).1

end MuslBsd.Manifest
