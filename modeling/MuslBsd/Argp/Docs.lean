import MuslBsd.Argp.Rejected
import MuslBsd.Support.Filtered

/-! Documentation entries: what becomes of a parse once they are removed. -/
namespace MuslBsd.Argp
open MuslBsd.Support

variable {π σ : Type}

/-! ### Trees without them -/

/-- The entry is documentation. -/
def ArgpOption.IsDoc (o : ArgpOption) : Prop := Has o.flags OPTION_DOC

instance (o : ArgpOption) : Decidable o.IsDoc := inferInstanceAs (Decidable (Has _ _))

def OptionArray.withoutDocs (os : OptionArray) : OptionArray where
  address := os.address
  entries := os.entries.filter fun o => ¬o.IsDoc
  notEnd o ho := os.notEnd o (List.mem_of_mem_filter ho)

mutual

def removeDocs : Argp π → Argp π
  | .node options parser children =>
    .node (options.map OptionArray.withoutDocs) parser (removeDocsAll children)

def removeDocsAll : List (Argp π) → List (Argp π)
  | [] => []
  | child :: children => removeDocs child :: removeDocsAll children

end

def Group.withoutDocs (group : Group π) : Group π :=
  { group with options := group.options.map OptionArray.withoutDocs }

def Parser.withoutDocs (s : Parser π σ) : Parser π σ :=
  { s with groups := fun g => (s.groups g).withoutDocs }

/-- The same entry in the array that is left. -/
def Entry.withoutDocs (e : Entry) : Entry where
  group := e.group
  array := e.array.withoutDocs
  index := kept (fun o => ¬o.IsDoc) e.array.entries e.index
  option := e.option

/-! ### What is left of the entries -/

/-- The kept elements from `index` on. -/
theorem entriesFrom_withoutDocs (g : ℕ) (os : OptionArray) (index : ℕ) (entries : List ArgpOption)
    (h : os.entries.drop index = entries) :
    entriesFrom g os.withoutDocs (kept (fun o => ¬o.IsDoc) os.entries index)
        (entries.filter fun o => ¬o.IsDoc) =
      ((entriesFrom g os index entries).filter fun e => ¬e.option.IsDoc).map Entry.withoutDocs := by
  induction entries generalizing index with
  | nil => rfl
  | cons o entries ih =>
    have hget : os.entries[index]? = some o := by
      rw [← List.head?_drop, h]
      rfl
    have hdrop : os.entries.drop (index + 1) = entries := by
      rw [← List.tail_drop, h]
      rfl
    have hkept := kept_succ (p := fun o => ¬o.IsDoc) hget
    have hrest := ih (index + 1) hdrop
    rw [hkept] at hrest
    have hcons : entriesFrom g os index (o :: entries) =
        ⟨g, os, index, o⟩ :: entriesFrom g os (index + 1) entries := rfl
    rw [hcons]
    by_cases hdoc : o.IsDoc
    · simp only [hdoc, not_true_eq_false, decide_false, Bool.false_eq_true, if_false, Nat.add_zero,
        List.filter_cons] at hrest ⊢
      exact hrest
    · simp only [hdoc, not_false_eq_true, decide_true, if_true, List.filter_cons, List.map_cons]
        at hrest ⊢
      rw [← hrest]
      rfl

theorem entriesOf_withoutDocs (groups : ℕ → Group π) (g : ℕ) :
    entriesOf (fun g => (groups g).withoutDocs) g =
      ((entriesOf groups g).filter fun e => ¬e.option.IsDoc).map Entry.withoutDocs := by
  cases hos : (groups g).options with
  | none =>
    have hnone : (groups g).withoutDocs.options = none := by
      unfold Group.withoutDocs
      rw [hos]
      rfl
    unfold entriesOf
    rw [hos, hnone]
    rfl
  | some os =>
    have hsome : (groups g).withoutDocs.options = some os.withoutDocs := by
      unfold Group.withoutDocs
      rw [hos]
      rfl
    rw [entriesOf_some hos, ← entriesFrom_withoutDocs g os 0 os.entries rfl]
    unfold entriesOf
    rw [hsome]
    rfl

theorem entriesIn_withoutDocs (groups : ℕ → Group π) (gs : List ℕ) :
    entriesIn (fun g => (groups g).withoutDocs) gs =
      ((entriesIn groups gs).filter fun e => ¬e.option.IsDoc).map Entry.withoutDocs := by
  induction gs with
  | nil => rfl
  | cons g gs ih =>
    rw [entriesIn_cons, entriesIn_cons, ih, entriesOf_withoutDocs, List.filter_append, List.map_append]

/-- What the entries of a group are, wherever it is found. -/
theorem entriesIn_placed (groups : ℕ → Group π) (gs : List ℕ) : ∀ e ∈ entriesIn groups gs, e.Placed := by
  intro e he
  obtain ⟨g, -, he⟩ := List.mem_flatMap.mp he
  cases hos : (groups g).options with
  | none =>
    unfold entriesOf at he
    rw [hos] at he
    cases he
  | some os =>
    rw [entriesOf_some hos] at he
    obtain ⟨-, harray, -, hget⟩ := mem_entriesFrom.mp he
    unfold Entry.Placed
    rw [harray]
    exact hget

/-! ### Bases -/

/-- An entry that is kept stands for what it stood for, if that is kept as well. -/
theorem IsBase.withoutDocs {entries : List ArgpOption} {index base : ℕ} (h : IsBase entries index base)
    {o b : ArgpOption} (ho : entries[index]? = some o) (hkept : ¬o.IsDoc)
    (hb : entries[base]? = some b) (hbase : ¬b.IsDoc) :
    IsBase (entries.filter fun o => ¬o.IsDoc) (kept (fun o => ¬o.IsDoc) entries index)
      (kept (fun o => ¬o.IsDoc) entries base) := by
  have hhere := getElem?_kept (p := fun o => ¬o.IsDoc) ho (by simpa using hkept)
  have hthere := getElem?_kept (p := fun o => ¬o.IsDoc) hb (by simpa using hbase)
  have hlast := (List.getElem?_eq_some_iff.mp hhere).1
  -- what is left before `index` comes from before `index`
  have hbefore : ∀ j, j < kept (fun o => ¬o.IsDoc) entries index →
      ∃ i a, i < index ∧ entries[i]? = some a ∧ kept (fun o => ¬o.IsDoc) entries i = j ∧
        (entries.filter fun o => ¬o.IsDoc)[j]? = some a := by
    intro j hj
    obtain ⟨a, ha⟩ : ∃ a, (entries.filter fun o => ¬o.IsDoc)[j]? = some a :=
      ⟨_, List.getElem?_eq_getElem (hj.trans hlast)⟩
    obtain ⟨i, hi, -, hij⟩ := exists_kept ha
    refine ⟨i, a, ?_, hi, hij, ha⟩
    by_contra hle
    have hmono := kept_mono (p := fun o => ¬o.IsDoc) (l := entries) (Nat.le_of_not_lt hle)
    omega
  cases h with
  | plain here noAlias =>
    cases here.symm.trans ho
    exact .plain hhere noAlias
  | alias_ here isAlias before there noAlias closest =>
    cases here.symm.trans ho
    cases there.symm.trans hb
    refine .alias_ hhere isAlias (kept_lt hb (by simpa using hbase) before) hthere noAlias ?_
    intro j hlow hhigh
    obtain ⟨i, a, hi, hget, hij, hja⟩ := hbefore j hhigh
    have hlt : base < i := by
      by_contra hle
      have hmono := kept_mono (p := fun o => ¬o.IsDoc) (l := entries) (Nat.le_of_not_lt hle)
      omega
    obtain ⟨a', ha', halias⟩ := closest i hlt hi
    cases hget.symm.trans ha'
    exact ⟨a, hja, halias⟩
  | orphan here isAlias alone =>
    cases here.symm.trans ho
    refine .orphan hhere isAlias ?_
    intro j hj
    obtain ⟨i, a, hi, hget, -, hja⟩ := hbefore j hj
    obtain ⟨a', ha', halias⟩ := alone i hi
    cases hget.symm.trans ha'
    exact ⟨a, hja, halias⟩

/-- The entry is no documentation, nor is what it is an alias of. -/
structure Entry.Clear (e : Entry) : Prop where
  option : ¬e.option.IsDoc
  base : ∀ b, AliasOf e b → ¬b.IsDoc

theorem Entry.Clear.base_kept {e : Entry} (h : e.Clear) (hplaced : e.Placed) :
    ∃ b, e.array.entries[optionBase e.array.entries e.index]? = some b ∧ ¬b.IsDoc := by
  have hbase := optionBase_isBase (List.getElem?_eq_some_iff.mp hplaced).1
  generalize optionBase e.array.entries e.index = base at hbase
  cases hbase with
  | plain here noAlias => exact ⟨_, hplaced, h.option⟩
  | orphan here isAlias alone => exact ⟨_, hplaced, h.option⟩
  | @alias_ o b _ here isAlias before there noAlias closest =>
    cases here.symm.trans hplaced
    exact ⟨b, there, h.base b ⟨hplaced, isAlias, base, before,
      .alias_ here isAlias before there noAlias closest, there⟩⟩

theorem Entry.Clear.base_withoutDocs {e : Entry} (h : e.Clear) (hplaced : e.Placed) :
    e.withoutDocs.base = ⟨e.array.address,
      kept (fun o => ¬o.IsDoc) e.array.entries (optionBase e.array.entries e.index)⟩ := by
  obtain ⟨b, hb, hdoc⟩ := h.base_kept hplaced
  have hbase := optionBase_isBase (List.getElem?_eq_some_iff.mp hplaced).1
  have hleft := hbase.withoutDocs hplaced h.option hb hdoc
  have heq := (isBase_iff hleft.lt_length).mp hleft
  unfold Entry.base Entry.withoutDocs OptionArray.withoutDocs
  rw [heq]

/-- Two of them stand for one entry if and only if they do when documentation is removed. -/
theorem base_withoutDocs_iff {e e' : Entry} (h : e.Clear) (h' : e'.Clear) (hplaced : e.Placed)
    (hplaced' : e'.Placed) (hone : e.array.address = e'.array.address → e.array = e'.array) :
    e'.withoutDocs.base = e.withoutDocs.base ↔ e'.base = e.base := by
  rw [h.base_withoutDocs hplaced, h'.base_withoutDocs hplaced']
  obtain ⟨b, hb, hdoc⟩ := h.base_kept hplaced
  obtain ⟨b', hb', hdoc'⟩ := h'.base_kept hplaced'
  unfold Entry.base
  rw [OptionPtr.mk.injEq, OptionPtr.mk.injEq]
  apply and_congr_right
  intro haddress
  have harray := hone haddress.symm
  rw [← harray] at hb' ⊢
  constructor
  · intro heq
    exact kept_injective hb' (by simpa using hdoc') hb (by simpa using hdoc) heq
  · intro heq
    rw [heq]

/-! ### Lookups -/

section

variable {groups : ℕ → Group π} {n : ℕ}

/-- The first entry at which a search stops is before the group that the search comes to. -/
theorem find?_before {p : Entry → Bool} {g : ℕ} (hlt : g < n) {e : Entry}
    (he : e ∈ entriesIn groups (List.range g)) (hp : p e = true) :
    ∃ e', (entriesIn groups (List.range n)).find? p = some e' ∧
      e' ∈ entriesIn groups (List.range g) ∧ p e' = true := by
  obtain ⟨e', hfind⟩ : ∃ e', (entriesIn groups (List.range g)).find? p = some e' := by
    rw [← Option.isSome_iff_exists, List.find?_isSome]
    exact ⟨e, he, hp⟩
  obtain ⟨k, rfl⟩ := Nat.exists_eq_add_of_le hlt.le
  refine ⟨e', ?_, List.mem_of_find?_eq_some hfind, List.find?_some hfind⟩
  unfold entriesIn at hfind ⊢
  rw [List.range_add, List.flatMap_append, List.find?_append, hfind]
  rfl

/-- A search that does not end at documentation comes to the same groups without it. -/
theorem comesToNull_withoutDocs (stops : Entry → Prop) [DecidablePred stops]
    (hsame : ∀ e : Entry, stops e.withoutDocs ↔ stops e)
    (hclear : ¬ComesToNull groups n stops → ∀ e,
      ((entriesIn groups (List.range n)).find? fun e => stops e) = some e → ¬e.option.IsDoc) :
    ComesToNull (fun g => (groups g).withoutDocs) n stops ↔ ComesToNull groups n stops := by
  have hnull : ∀ g, (groups g).withoutDocs.options = none ↔ (groups g).options = none := by
    intro g
    unfold Group.withoutDocs
    rw [Option.map_eq_none_iff]
  have hmem : ∀ (gs : List ℕ) (e : Entry), e ∈ entriesIn groups gs → ¬e.option.IsDoc →
      e.withoutDocs ∈ entriesIn (fun g => (groups g).withoutDocs) gs := by
    intro gs e he hdoc
    rw [entriesIn_withoutDocs]
    exact List.mem_map_of_mem (List.mem_filter.mpr ⟨he, by simpa using hdoc⟩)
  constructor
  · intro h
    by_contra hno
    obtain ⟨g, hlt, hg, hnone⟩ := h
    apply hno
    refine ⟨g, hlt, (hnull g).mp hg, ?_⟩
    intro e he hstops
    obtain ⟨e', hfind, he', hstops'⟩ := find?_before hlt he (p := fun e => stops e) (by simpa using hstops)
    have hdoc := hclear hno e' hfind
    exact hnone _ (hmem _ e' he' hdoc) ((hsame e').mpr (by simpa using hstops'))
  · intro h
    obtain ⟨g, hlt, hg, hnone⟩ := h
    refine ⟨g, hlt, (hnull g).mpr hg, ?_⟩
    intro e he hstops
    rw [entriesIn_withoutDocs] at he
    obtain ⟨e', he', rfl⟩ := List.mem_map.mp he
    exact hnone e' (List.mem_of_mem_filter he') ((hsame e').mp hstops)

theorem find?_withoutDocs (stops : Entry → Prop) [DecidablePred stops]
    (hsame : ∀ e : Entry, stops e.withoutDocs ↔ stops e) {entries : List Entry}
    (hclear : ∀ e, (entries.find? fun e => stops e) = some e → ¬e.option.IsDoc) :
    (((entries.filter fun e => ¬e.option.IsDoc).map Entry.withoutDocs).find? fun e => stops e) =
      (entries.find? fun e => stops e).map Entry.withoutDocs := by
  rw [List.find?_map]
  have hcomp : ((fun e => decide (stops e)) ∘ Entry.withoutDocs) = fun e => decide (stops e) := by
    funext e
    exact decide_eq_decide.mpr (hsame e)
  rw [hcomp, find?_filter_kept]
  intro e he
  simpa using hclear e he

/-- A short option is looked up with the same outcome. -/
theorem findShortOption_withoutDocs (c : CChar)
    (hclear : ¬ComesToNull groups n (Entry.HasKey (charToInt c)) → ∀ e,
      ((entriesIn groups (List.range n)).find? fun e => e.HasKey (charToInt c)) = some e →
        ¬e.option.IsDoc) :
    findShortOption (fun g => (groups g).withoutDocs) n (charToInt c) =
      findShortOption groups n (charToInt c) := by
  by_cases hkey : 0 ≤ charToInt c ∧ charToInt c < 128
  · have hnull := comesToNull_withoutDocs (Entry.HasKey (charToInt c)) (fun _ => Iff.rfl) hclear
    obtain ⟨herror, hfound⟩ := findShortOption_eq groups n hkey
    obtain ⟨herror', hfound'⟩ := findShortOption_eq (fun g => (groups g).withoutDocs) n hkey
    by_cases hcomes : ComesToNull groups n (Entry.HasKey (charToInt c))
    · rw [herror hcomes, herror' (hnull.mpr hcomes)]
    · rw [hfound hcomes, hfound' (fun h => hcomes (hnull.mp h)), entriesIn_withoutDocs,
        find?_withoutDocs _ (fun _ => Iff.rfl) (hclear hcomes), Option.map_map]
      rfl
  · unfold findShortOption
    rw [if_neg hkey, if_neg hkey]

/-- No documentation is matched by this text: not by its name, and not by the beginning of it if there
is no entry with this name; and it does not tell two entries apart. -/
structure DocsUnmatched (entries : List Entry) (opt : CStr) : Prop where
  exact : ∀ e, (entries.find? fun e => e.Exact opt) = some e → ¬e.option.IsDoc
  abbreviated : (∀ e ∈ entries, ¬e.Exact opt) → ∀ e ∈ entries, e.Abbreviated opt → ¬e.option.IsDoc
  bases : (∀ e ∈ entries, ¬e.Exact opt) → 1 < (entries.filter fun e => e.Abbreviated opt).length →
    ∀ e ∈ entries, e.Abbreviated opt → ∀ b, AliasOf e b → ¬b.IsDoc

/-- There is one array at each address. -/
def OneArrayEach (entries : List Entry) : Prop :=
  ∀ e ∈ entries, ∀ e' ∈ entries, e.array.address = e'.array.address → e.array = e'.array

theorem longOption_withoutDocs {entries : List Entry} {opt : CStr} (hplaced : ∀ e ∈ entries, e.Placed)
    (hone : OneArrayEach entries) (h : DocsUnmatched entries opt) :
    longOption ((entries.filter fun e => ¬e.option.IsDoc).map Entry.withoutDocs) opt =
      longOption entries opt := by
  unfold longOption
  rw [find?_withoutDocs (Entry.Exact · opt) (fun _ => Iff.rfl) h.exact]
  cases hexact : entries.find? fun e => e.Exact opt with
  | some e => rfl
  | none =>
    have hno : ∀ e ∈ entries, ¬e.Exact opt := by
      intro e he
      simpa using List.find?_eq_none.mp hexact e he
    -- what is abbreviated is all kept
    have hfilter : ((entries.filter fun e => ¬e.option.IsDoc).map Entry.withoutDocs).filter
        (fun e => e.Abbreviated opt) =
        (entries.filter fun e => e.Abbreviated opt).map Entry.withoutDocs := by
      rw [List.filter_map, List.filter_filter]
      congr 1
      apply List.filter_congr
      intro e he
      have hsame : e.withoutDocs.Abbreviated opt ↔ e.Abbreviated opt := Iff.rfl
      by_cases habbr : e.Abbreviated opt
      · have hdoc := h.abbreviated hno e he habbr
        simp [hsame, habbr, hdoc]
      · simp [hsame, habbr]
    have hmem : ∀ e, e ∈ (entries.filter fun e => e.Abbreviated opt) → e ∈ entries ∧ e.Abbreviated opt := by
      intro e he
      rw [List.mem_filter, decide_eq_true_iff] at he
      exact he
    have hmany := h.bases hno
    dsimp only [Option.map_none]
    rw [hfilter]
    generalize (entries.filter fun e => e.Abbreviated opt) = matched at hmem hmany
    cases matched with
    | nil => rfl
    | cons e es =>
      have hclear : ∀ e' ∈ e :: es, es ≠ [] → e'.Clear := by
        intro e' he' hne
        obtain ⟨hin, habbr⟩ := hmem e' he'
        have hpos := List.length_pos_of_ne_nil hne
        refine ⟨h.abbreviated hno e' hin habbr, hmany ?_ e' hin habbr⟩
        rw [List.length_cons]
        omega
      have hbases : (∀ e' ∈ es.map Entry.withoutDocs, e'.base = e.withoutDocs.base) ↔
          ∀ e' ∈ es, e'.base = e.base := by
        rw [List.forall_mem_map]
        apply forall₂_congr
        intro e' he'
        have hne : es ≠ [] := List.ne_nil_of_mem he'
        obtain ⟨hin, -⟩ := hmem e List.mem_cons_self
        obtain ⟨hin', -⟩ := hmem e' (List.mem_cons_of_mem _ he')
        exact base_withoutDocs_iff (hclear e List.mem_cons_self hne)
          (hclear e' (List.mem_cons_of_mem _ he') hne) (hplaced e hin) (hplaced e' hin')
          (hone e hin e' hin')
      rw [List.map_cons]
      dsimp only
      by_cases hsame : ∀ e' ∈ es, e'.base = e.base
      · rw [if_pos hsame, if_pos (hbases.mpr hsame)]
        rfl
      · rw [if_neg hsame, if_neg (fun hall => hsame (hbases.mp hall))]

/-- A long option is looked up with the same outcome. -/
theorem findLongOption_withoutDocs {opt : CStr} (hone : OneArrayEach (entriesIn groups (List.range n)))
    (h : ¬ComesToNull groups n (Entry.Exact · opt) →
      DocsUnmatched (entriesIn groups (List.range n)) opt) :
    findLongOption (fun g => (groups g).withoutDocs) n opt = findLongOption groups n opt := by
  have hnull := comesToNull_withoutDocs (Entry.Exact · opt) (fun _ => Iff.rfl) fun hno => (h hno).exact
  obtain ⟨herror, hfound⟩ := findLongOption_eq groups n opt
  obtain ⟨herror', hfound'⟩ := findLongOption_eq (fun g => (groups g).withoutDocs) n opt
  by_cases hcomes : ComesToNull groups n (Entry.Exact · opt)
  · rw [herror hcomes, herror' (hnull.mpr hcomes)]
  · rw [hfound hcomes, hfound' (fun hbad => hcomes (hnull.mp hbad)), entriesIn_withoutDocs,
      longOption_withoutDocs (entriesIn_placed groups _) hone (h hcomes)]

end

end MuslBsd.Argp
