import MuslBsd.Argp.Storage
import Mathlib.Data.List.TakeWhile

/-! What the lookups of options find, told by the options arrays of the tree. -/
namespace MuslBsd.Argp
open MuslBsd.Support

variable {π : Type}

/-! ### Matches -/

/-- The argument up to its `=`. -/
def optionText (arg : CStr) : CStr := arg.takeWhile fun c => c ≠ equalsSign

theorem optionText_nil : optionText [] = [] := rfl

theorem optionText_equals (arg : CStr) : optionText (equalsSign :: arg) = [] := by
  simp [optionText]

theorem optionText_cons {c : CChar} (h : c ≠ equalsSign) (arg : CStr) :
    optionText (c :: arg) = c :: optionText arg := by
  simp [optionText, h]

/-- `match_option` compares the name with the argument up to its `=`. -/
theorem matchOption_eq (arg name : CStr) : matchOption arg name =
    if name = optionText arg then .exact
    else if optionText arg <+: name then .partial_
    else .no := by
  induction arg generalizing name with
  | nil =>
    cases name with
    | nil => rfl
    | cons n name => simp [matchOption, optionText_nil]
  | cons a arg ih =>
    by_cases ha : a = equalsSign
    · subst ha
      rw [optionText_equals]
      cases name with
      | nil => rfl
      | cons n name => simp [matchOption]
    · rw [optionText_cons ha]
      cases name with
      | nil => simp [matchOption, ha]
      | cons n name =>
        have hstep : matchOption (a :: arg) (n :: name) =
            if a = n then matchOption arg name else .no := by
          show (if a = equalsSign then .partial_ else if a = n then matchOption arg name else .no) = _
          rw [if_neg ha]
        rw [hstep]
        by_cases hn : a = n
        · subst hn
          rw [if_pos rfl, ih name]
          simp only [List.cons.injEq, true_and, List.cons_prefix_cons]
        · have hne : ¬n :: name = a :: optionText arg := fun h => hn (List.cons.inj h).1.symm
          have hpre : ¬a :: optionText arg <+: n :: name := fun h => hn (List.cons_prefix_cons.mp h).1
          rw [if_neg hn, if_neg hne, if_neg hpre]

/-! ### Entries -/

/-- An entry of the options array of a group, and where it is. -/
structure Entry where
  group : ℕ
  array : OptionArray
  index : ℕ
  option : ArgpOption

namespace Entry

variable (e : Entry)

/-- The entry that an alias stands for, as a pointer. -/
def base : OptionPtr := ⟨e.array.address, optionBase e.array.entries e.index⟩

/-- The name is the text. -/
def Exact (arg : CStr) : Prop := e.option.name = some (optionText arg)

/-- The text is a proper beginning of the name. -/
def Abbreviated (arg : CStr) : Prop :=
  ∃ name ∈ e.option.name, optionText arg <+: name ∧ name ≠ optionText arg

instance (arg : CStr) : Decidable (e.Exact arg) := inferInstanceAs (Decidable (_ = _))

instance (arg : CStr) : Decidable (e.Abbreviated arg) := inferInstanceAs (Decidable (∃ _ ∈ _, _))

end Entry

/-- The entries from `index` on. -/
def entriesFrom (g : ℕ) (os : OptionArray) : ℕ → List ArgpOption → List Entry
  | _, [] => []
  | index, o :: entries => ⟨g, os, index, o⟩ :: entriesFrom g os (index + 1) entries

theorem mem_entriesFrom {g index : ℕ} {os : OptionArray} {entries : List ArgpOption} {e : Entry} :
    e ∈ entriesFrom g os index entries ↔ e.group = g ∧ e.array = os ∧
      index ≤ e.index ∧ entries[e.index - index]? = some e.option := by
  induction entries generalizing index with
  | nil => simp [entriesFrom]
  | cons o entries ih =>
    unfold entriesFrom
    rw [List.mem_cons, ih]
    constructor
    · intro h
      rcases h with rfl | ⟨hg, hos, hle, hget⟩
      · simp
      · refine ⟨hg, hos, by omega, ?_⟩
        have hindex : e.index - index = e.index - (index + 1) + 1 := by omega
        rw [hindex, List.getElem?_cons_succ]
        exact hget
    · intro h
      obtain ⟨hg, hos, hle, hget⟩ := h
      rcases hle.eq_or_lt with heq | hlt
      · left
        rw [← heq, Nat.sub_self, List.getElem?_cons_zero] at hget
        obtain ⟨g', os', index', o'⟩ := e
        cases hg
        cases hos
        cases heq
        cases hget
        rfl
      · right
        refine ⟨hg, hos, by omega, ?_⟩
        have hindex : e.index - index = e.index - (index + 1) + 1 := by omega
        rw [hindex, List.getElem?_cons_succ] at hget
        exact hget

/-- The entries of a group; NULL stands for none. -/
def entriesOf (groups : ℕ → Group π) (g : ℕ) : List Entry :=
  match (groups g).options with
  | none => []
  | some os => entriesFrom g os 0 os.entries

/-- The entries of these groups, in the order in which they are gone through. -/
def entriesIn (groups : ℕ → Group π) (gs : List ℕ) : List Entry := gs.flatMap (entriesOf groups)

/-- What is to be found for a text: the first entry with this name; or else the first of those that
it abbreviates, if they all stand for one entry; or else nothing, and it is ambiguous or not. -/
def longOption (entries : List Entry) (arg : CStr) : LongResult :=
  match entries.find? fun e => e.Exact arg with
  | some e => .inl (e.group, e.option)
  | none =>
    match entries.filter fun e => e.Abbreviated arg with
    | [] => .inr false
    | e :: es => if ∀ e' ∈ es, e'.base = e.base then .inl (e.group, e.option) else .inr true

/-! ### The search -/

/-- The partial match of an entry. -/
def Partial.enter (p : Partial) (e : Entry) : Partial := p.add e.group e.array e.index e.option

/-- By induction on the entries: an exact match ends the loop, and the partial ones add up. -/
theorem searchEntries_eq (arg : CStr) (g : ℕ) (os : OptionArray) (index : ℕ)
    (entries : List ArgpOption) (p : Partial) : searchEntries arg g os index entries p =
      match (entriesFrom g os index entries).find? fun e => e.Exact arg with
      | some e => .inl e.option
      | none => .inr (((entriesFrom g os index entries).filter fun e => e.Abbreviated arg).foldl
          Partial.enter p) := by
  induction entries generalizing index p with
  | nil => rfl
  | cons o entries ih =>
    unfold searchEntries entriesFrom
    cases hname : o.name with
    | none =>
      have hexact : ¬(⟨g, os, index, o⟩ : Entry).Exact arg := by simp [Entry.Exact, hname]
      have hpartial : ¬(⟨g, os, index, o⟩ : Entry).Abbreviated arg := by
        simp [Entry.Abbreviated, hname]
      rw [ih]
      simp only [List.find?_cons, hexact, decide_false, List.filter_cons, hpartial,
        Bool.false_eq_true, if_false]
    | some name =>
      have hexact : (⟨g, os, index, o⟩ : Entry).Exact arg ↔ name = optionText arg := by
        simp [Entry.Exact, hname]
      have hpartial : (⟨g, os, index, o⟩ : Entry).Abbreviated arg ↔
          optionText arg <+: name ∧ name ≠ optionText arg := by
        simp [Entry.Abbreviated, hname]
      dsimp only
      rw [matchOption_eq]
      by_cases heq : name = optionText arg
      · rw [if_pos heq]
        simp only [List.find?_cons, hexact, heq, decide_true]
      · rw [if_neg heq]
        by_cases hpre : optionText arg <+: name
        · rw [if_pos hpre]
          dsimp only
          rw [ih]
          simp only [List.find?_cons, hexact, heq, decide_false, List.filter_cons, hpartial, hpre,
            ne_eq, not_false_eq_true, and_self, decide_true, if_true, List.foldl_cons]
          rfl
        · rw [if_neg hpre]
          dsimp only
          rw [ih]
          simp only [List.find?_cons, hexact, heq, decide_false, List.filter_cons, hpartial, hpre,
            false_and, Bool.false_eq_true, if_false]

/-- How the loop of `find_long_option` ends when all groups have been gone through. -/
def Partial.conclude (p : Partial) : LongResult :=
  match p.matched with
  | some m => if p.numPartial = 1 then .inl m else .inr (1 < p.numPartial)
  | none => .inr (1 < p.numPartial)

/-- A search through the first `n` groups that an entry stops comes to one with no options array. -/
def ComesToNull (groups : ℕ → Group π) (n : ℕ) (stops : Entry → Prop) : Prop :=
  ∃ g < n, (groups g).options = none ∧ ∀ e ∈ entriesIn groups (List.range g), ¬stops e

/-- The same for groups in any order. -/
def NullAmong (groups : ℕ → Group π) (stops : Entry → Prop) : List ℕ → Prop
  | [] => False
  | g :: gs => (groups g).options = none ∨
      (∀ e ∈ entriesOf groups g, ¬stops e) ∧ NullAmong groups stops gs

section

variable {groups : ℕ → Group π} {stops : Entry → Prop} {g : ℕ} {gs : List ℕ}

theorem entriesIn_cons : entriesIn groups (g :: gs) = entriesOf groups g ++ entriesIn groups gs := rfl

theorem nullAmong_cons : NullAmong groups stops (g :: gs) ↔ (groups g).options = none ∨
    (∀ e ∈ entriesOf groups g, ¬stops e) ∧ NullAmong groups stops gs := Iff.rfl

theorem nullAmong_append {gs' : List ℕ} : NullAmong groups stops (gs ++ gs') ↔
    NullAmong groups stops gs ∨ (∀ e ∈ entriesIn groups gs, ¬stops e) ∧ NullAmong groups stops gs' := by
  induction gs with
  | nil => simp [NullAmong, entriesIn]
  | cons g gs ih =>
    rw [List.cons_append, entriesIn_cons, List.forall_mem_append, nullAmong_cons, nullAmong_cons, ih]
    tauto

theorem nullAmong_range (n : ℕ) :
    NullAmong groups stops (List.range n) ↔ ComesToNull groups n stops := by
  induction n with
  | zero => simp [NullAmong, ComesToNull]
  | succ n ih =>
    rw [List.range_succ, nullAmong_append, ih]
    unfold NullAmong NullAmong ComesToNull
    constructor
    · intro h
      rcases h with ⟨g, hlt, hnull, hnone⟩ | ⟨hnone, hnull | ⟨-, hfalse⟩⟩
      · exact ⟨g, by omega, hnull, hnone⟩
      · exact ⟨n, by omega, hnull, hnone⟩
      · exact hfalse.elim
    · intro h
      obtain ⟨g, hlt, hnull, hnone⟩ := h
      rcases Nat.lt_succ_iff_lt_or_eq.mp hlt with hlt | rfl
      · exact .inl ⟨g, hlt, hnull, hnone⟩
      · exact .inr ⟨hnone, .inl hnull⟩

theorem entriesOf_some {os : OptionArray} (h : (groups g).options = some os) :
    entriesOf groups g = entriesFrom g os 0 os.entries := by
  unfold entriesOf
  rw [h]

/-- Of the groups it is only the options that count. -/
theorem entriesIn_congr {π' : Type} {groups' : ℕ → Group π'}
    (h : ∀ g, (groups' g).options = (groups g).options) (gs : List ℕ) :
    entriesIn groups' gs = entriesIn groups gs := by
  have hof : ∀ g, entriesOf groups' g = entriesOf groups g := by
    intro g
    unfold entriesOf
    rw [h]
  unfold entriesIn
  rw [funext hof]

end

/-- By induction on the groups. -/
theorem searchLong_eq (groups : ℕ → Group π) (arg : CStr) (gs : List ℕ) (p : Partial) :
    (NullAmong groups (Entry.Exact · arg) gs → searchLong groups arg gs p = .error .nullOptions) ∧
    (¬NullAmong groups (Entry.Exact · arg) gs → searchLong groups arg gs p =
      match (entriesIn groups gs).find? fun e => e.Exact arg with
      | some e => .ok (.inl (e.group, e.option))
      | none => .ok (((entriesIn groups gs).filter fun e => e.Abbreviated arg).foldl
          Partial.enter p).conclude) := by
  induction gs generalizing p with
  | nil =>
    refine ⟨False.elim, fun _ => ?_⟩
    show searchLong groups arg [] p = .ok p.conclude
    unfold searchLong Partial.conclude
    cases p.matched with
    | none => rfl
    | some m => rfl
  | cons g gs ih =>
    unfold searchLong NullAmong
    cases hos : (groups g).options with
    | none => exact ⟨fun _ => rfl, fun hno => (hno (.inl rfl)).elim⟩
    | some os =>
      rw [entriesIn_cons, List.find?_append, List.filter_append, List.foldl_append,
        entriesOf_some hos]
      dsimp only
      rw [searchEntries_eq]
      cases hfind : (entriesFrom g os 0 os.entries).find? fun e => e.Exact arg with
      | some e =>
        have hmem := List.mem_of_find?_eq_some hfind
        have hexact : e.Exact arg := by simpa using List.find?_some hfind
        constructor
        · intro hnull
          rcases hnull with hbad | ⟨hnone, -⟩
          · cases hbad
          · exact (hnone e hmem hexact).elim
        · intro _
          dsimp only [Option.some_or]
          rw [(mem_entriesFrom.mp hmem).1]
      | none =>
        have hnone : ∀ e ∈ entriesFrom g os 0 os.entries, ¬e.Exact arg := by
          intro e he
          simpa using List.find?_eq_none.mp hfind e he
        dsimp only [Option.none_or]
        obtain ⟨hnull, hfound⟩ := ih
          (((entriesFrom g os 0 os.entries).filter fun e => e.Abbreviated arg).foldl Partial.enter p)
        constructor
        · intro h
          rcases h with hbad | ⟨-, h⟩
          · cases hbad
          · exact hnull h
        · intro h
          exact hfound fun hgs => h (.inr ⟨hnone, hgs⟩)

/-- What partial matches add up to, behind the first one `e`. -/
theorem foldl_enter (es : List Entry) (m : ℕ × ArgpOption) (base : OptionPtr) (n : ℕ) :
    es.foldl Partial.enter ⟨some m, base, n⟩ =
      ⟨some m, base, n + (es.filter fun e => e.base ≠ base).length⟩ := by
  induction es generalizing n with
  | nil => rfl
  | cons e es ih =>
    rw [List.foldl_cons]
    have henter : (⟨some m, base, n⟩ : Partial).enter e =
        ⟨some m, base, if e.base ≠ base then n + 1 else n⟩ := by
      show (if e.base ≠ base then _ else _) = _
      split
      · rfl
      · rfl
    rw [henter, ih]
    by_cases hbase : e.base = base
    · simp [hbase]
    · simp [hbase, Nat.add_comm, Nat.add_assoc]

/-- The count is 1 if and only if no base differs from the first one. -/
theorem conclude_eq (es : List Entry) : (es.foldl Partial.enter ⟨none, ⟨0, 0⟩, 0⟩).conclude =
    match es with
    | [] => .inr false
    | e :: es => if ∀ e' ∈ es, e'.base = e.base then .inl (e.group, e.option) else .inr true := by
  cases es with
  | nil => rfl
  | cons e es =>
    have henter : (⟨none, ⟨0, 0⟩, 0⟩ : Partial).enter e = ⟨some (e.group, e.option), e.base, 1⟩ := rfl
    have hcount : (es.filter fun e' => e'.base ≠ e.base).length = 0 ↔ ∀ e' ∈ es, e'.base = e.base := by
      rw [List.length_eq_zero_iff, List.filter_eq_nil_iff]
      simp
    rw [List.foldl_cons, henter, foldl_enter]
    unfold Partial.conclude
    dsimp only
    by_cases hsame : ∀ e' ∈ es, e'.base = e.base
    · rw [if_pos hsame, hcount.mpr hsame, if_pos rfl]
    · have hpos : (es.filter fun e' => e'.base ≠ e.base).length ≠ 0 := fun h => hsame (hcount.mp h)
      rw [if_neg hsame, if_neg (by omega)]
      have hlt : 1 < 1 + (es.filter fun e' => e'.base ≠ e.base).length := by omega
      simp only [hlt, decide_true]

/-- What `find_long_option` does. -/
theorem findLongOption_eq (groups : ℕ → Group π) (n : ℕ) (arg : CStr) :
    (ComesToNull groups n (Entry.Exact · arg) →
      findLongOption groups n arg = .error .nullOptions) ∧
    (¬ComesToNull groups n (Entry.Exact · arg) →
      findLongOption groups n arg = .ok (longOption (entriesIn groups (List.range n)) arg)) := by
  have hsearch := searchLong_eq groups arg (List.range n) ⟨none, ⟨0, 0⟩, 0⟩
  rw [nullAmong_range] at hsearch
  refine ⟨hsearch.1, fun hno => (hsearch.2 hno).trans ?_⟩
  unfold longOption
  cases (entriesIn groups (List.range n)).find? fun e => e.Exact arg with
  | some e => rfl
  | none =>
    dsimp only
    rw [conclude_eq]

/-! ### Short options -/

/-- The entry has this key. -/
def Entry.HasKey (key : ℤ) (e : Entry) : Prop := e.option.key = key

instance (key : ℤ) (e : Entry) : Decidable (e.HasKey key) := inferInstanceAs (Decidable (_ = _))

theorem find?_entriesFrom (key : ℤ) (g : ℕ) (os : OptionArray) (index : ℕ)
    (entries : List ArgpOption) :
    ((entriesFrom g os index entries).find? fun e => e.HasKey key).map
        (fun e => (e.group, e.option)) =
      (entries.find? fun o => o.key = key).map fun o => (g, o) := by
  induction entries generalizing index with
  | nil => rfl
  | cons o entries ih =>
    unfold entriesFrom
    by_cases hkey : o.key = key
    · have hhas : (⟨g, os, index, o⟩ : Entry).HasKey key := hkey
      simp only [List.find?_cons, hhas, hkey, decide_true, Option.map_some]
    · have hno : ¬(⟨g, os, index, o⟩ : Entry).HasKey key := hkey
      simp only [List.find?_cons, hno, hkey, decide_false]
      exact ih (index + 1)

/-- By induction on the groups. -/
theorem searchShort_eq (groups : ℕ → Group π) (key : ℤ) (gs : List ℕ) :
    (NullAmong groups (Entry.HasKey key) gs → searchShort groups key gs = .error .nullOptions) ∧
    (¬NullAmong groups (Entry.HasKey key) gs → searchShort groups key gs =
      .ok (((entriesIn groups gs).find? fun e => e.HasKey key).map fun e => (e.group, e.option))) := by
  induction gs with
  | nil => exact ⟨False.elim, fun _ => rfl⟩
  | cons g gs ih =>
    rw [nullAmong_cons]
    unfold searchShort
    cases hos : (groups g).options with
    | none => exact ⟨fun _ => rfl, fun hno => (hno (.inl rfl)).elim⟩
    | some os =>
      have hsame := find?_entriesFrom key g os 0 os.entries
      rw [entriesIn_cons, List.find?_append, entriesOf_some hos]
      cases hfind : (entriesFrom g os 0 os.entries).find? fun e => e.HasKey key with
      | some e =>
        have hmem := List.mem_of_find?_eq_some hfind
        have hhas : e.HasKey key := by simpa using List.find?_some hfind
        rw [hfind] at hsame
        constructor
        · intro hnull
          rcases hnull with hbad | ⟨hnone, -⟩
          · cases hbad
          · exact (hnone e hmem hhas).elim
        · intro _
          cases hshort : os.entries.find? fun o => o.key = key with
          | none =>
            rw [hshort] at hsame
            cases hsame
          | some o =>
            rw [hshort] at hsame
            have hfound : some (e.group, e.option) = some (g, o) := hsame
            dsimp only [Option.some_or, Option.map_some]
            rw [hshort, hfound]
      | none =>
        have hnone : ∀ e ∈ entriesFrom g os 0 os.entries, ¬e.HasKey key := by
          intro e he
          simpa using List.find?_eq_none.mp hfind e he
        have hshort : (os.entries.find? fun o => o.key = key) = none := by
          rw [hfind] at hsame
          exact Option.map_eq_none_iff.mp hsame.symm
        dsimp only [Option.none_or]
        rw [hshort]
        constructor
        · intro h
          rcases h with hbad | ⟨-, h⟩
          · cases hbad
          · exact ih.1 h
        · intro h
          exact ih.2 fun hgs => h (.inr ⟨hnone, hgs⟩)

/-- What `find_short_option` does with a key that passes its assertions. -/
theorem findShortOption_eq (groups : ℕ → Group π) (n : ℕ) {key : ℤ} (hkey : 0 ≤ key ∧ key < 128) :
    (ComesToNull groups n (Entry.HasKey key) →
      findShortOption groups n key = .error .nullOptions) ∧
    (¬ComesToNull groups n (Entry.HasKey key) → findShortOption groups n key =
      .ok (((entriesIn groups (List.range n)).find? fun e => e.HasKey key).map
        fun e => (e.group, e.option))) := by
  have hsearch := searchShort_eq groups key (List.range n)
  rw [nullAmong_range] at hsearch
  unfold findShortOption
  rw [if_pos hkey]
  exact hsearch

/-! ### The tree -/

mutual

/-- The options arrays of a tree in pre-order, for each argp with options or a parser. -/
def preorder : Argp π → List (Option OptionArray)
  | .node options parser children =>
    (if options.isSome ∨ parser.isSome then [options] else []) ++ preorderChildren children

def preorderChildren : List (Argp π) → List (Option OptionArray)
  | [] => []
  | child :: children => preorder child ++ preorderChildren children

end

mutual

/-- The groups are in pre-order. -/
theorem convertOptions_preorder : ∀ (argp : Argp π) (parent : Option ℕ) (parentIndex : ℕ)
    (cvt cvt' : Converted π), convertOptions false argp parent parentIndex cvt = .ok cvt' →
    cvt'.groups.map Group.options = cvt.groups.map Group.options ++ preorder argp
  | .node options parser children, parent, parentIndex, cvt, cvt', h => by
    unfold convertOptions at h
    unfold preorder
    by_cases hgroup : options.isSome ∨ parser.isSome
    · rw [if_pos hgroup] at h ⊢
      have hchildren := convertChildren_preorder children _ _ _ cvt' h
      rw [hchildren, List.map_append, List.append_assoc]
      rfl
    · rw [if_neg hgroup] at h ⊢
      exact convertChildren_preorder children _ _ _ cvt' h

theorem convertChildren_preorder : ∀ (children : List (Argp π)) (parent : Option ℕ) (index : ℕ)
    (cvt cvt' : Converted π), convertChildren false children parent index cvt = .ok cvt' →
    cvt'.groups.map Group.options = cvt.groups.map Group.options ++ preorderChildren children
  | [], parent, index, cvt, cvt', h => by
    unfold convertChildren at h
    cases h
    exact (List.append_nil _).symm
  | child :: children, parent, index, cvt, cvt', h => by
    unfold convertChildren at h
    unfold preorderChildren
    cases hchild : convertOptions false child parent index cvt with
    | error e =>
      rw [hchild] at h
      cases h
    | ok cvt₁ =>
      rw [hchild] at h
      have hrest := convertChildren_preorder children parent (index + 1) cvt₁ cvt' h
      rw [hrest, convertOptions_preorder child parent index cvt cvt₁ hchild, List.append_assoc]

end

/-- The options arrays of the groups of a tree. -/
def treeArrays (argp : Option (Argp π)) : List (Option OptionArray) :=
  match argp with
  | none => []
  | some argp => preorder argp

theorem treeGroups_options (argp : Option (Argp π)) :
    (treeGroups argp).map Group.options = treeArrays argp := by
  cases argp with
  | none => rfl
  | some argp =>
    obtain ⟨m, hadds⟩ := treeGroups_adds argp
    exact convertOptions_preorder argp none 0 _ _ (hadds.plain [] 0)

/-- The groups of a tree, by their index. -/
def treeGroup (argp : Option (Argp π)) (g : ℕ) : Group π := (treeGroups argp).getD g .nil

/-- The entries of the options arrays, one array after the other. -/
def entriesOfArrays : ℕ → List (Option OptionArray) → List Entry
  | _, [] => []
  | g, none :: arrays => entriesOfArrays (g + 1) arrays
  | g, some os :: arrays => entriesFrom g os 0 os.entries ++ entriesOfArrays (g + 1) arrays

/-- The entries of a tree: argps in pre-order, and each array from its beginning. -/
def treeEntries (argp : Option (Argp π)) : List Entry := entriesOfArrays 0 (treeArrays argp)

theorem entriesIn_arrays (groups : ℕ → Group π) (k n : ℕ) :
    entriesIn groups (List.range' k n) =
      entriesOfArrays k ((List.range' k n).map fun g => (groups g).options) := by
  induction n generalizing k with
  | zero => rfl
  | succ n ih =>
    rw [List.range'_succ, List.map_cons, entriesIn_cons, ih (k + 1)]
    cases hos : (groups k).options with
    | none =>
      unfold entriesOf
      rw [hos]
      rfl
    | some os =>
      rw [entriesOf_some hos]
      rfl

/-- What the lookups go through is what is in the tree. -/
theorem entriesIn_tree (argp : Option (Argp π)) :
    entriesIn (treeGroup argp) (List.range (treeGroups argp).length) = treeEntries argp := by
  have hmap : (List.range' 0 (treeGroups argp).length).map (fun g => (treeGroup argp g).options) =
      (treeGroups argp).map Group.options := by
    apply List.ext_getElem
    · simp
    · intro g hg hg'
      rw [List.length_map] at hg'
      simp [treeGroup, hg']
  rw [List.range_eq_range', entriesIn_arrays, hmap, treeGroups_options]
  rfl

/-! ### Bases -/

/-- The entry at `base` is the one that the entry at `index` stands for: itself if it is no alias, or
else the closest before it that is none; an alias with no such entry stands for itself. -/
inductive IsBase (entries : List ArgpOption) (index : ℕ) : ℕ → Prop
  | plain {o : ArgpOption} (here : entries[index]? = some o) (noAlias : ¬Has o.flags OPTION_ALIAS) :
      IsBase entries index index
  | alias_ {o b : ArgpOption} {base : ℕ} (here : entries[index]? = some o)
      (isAlias : Has o.flags OPTION_ALIAS) (before : base < index) (there : entries[base]? = some b)
      (noAlias : ¬Has b.flags OPTION_ALIAS)
      (closest : ∀ i, base < i → i < index → ∃ a ∈ entries[i]?, Has a.flags OPTION_ALIAS) :
      IsBase entries index base
  | orphan {o : ArgpOption} (here : entries[index]? = some o) (isAlias : Has o.flags OPTION_ALIAS)
      (alone : ∀ i < index, ∃ a ∈ entries[i]?, Has a.flags OPTION_ALIAS) : IsBase entries index index

/-- The last number below `n` with a property, by induction on `n`. -/
theorem find?_reverse_range (p : ℕ → Bool) (n : ℕ) :
    match (List.range n).reverse.find? p with
    | some b => b < n ∧ p b = true ∧ ∀ i, b < i → i < n → p i = false
    | none => ∀ i < n, p i = false := by
  induction n with
  | zero => simp
  | succ n ih =>
    rw [List.range_succ, List.reverse_append, List.reverse_singleton, List.singleton_append,
      List.find?_cons]
    cases hn : p n with
    | true => exact ⟨Nat.lt_succ_self n, hn, fun i hlt hle => by omega⟩
    | false =>
      dsimp only
      have hlast : ∀ {i}, i < n + 1 → i < n ∨ i = n := fun h => Nat.lt_succ_iff_lt_or_eq.mp h
      cases hfind : (List.range n).reverse.find? p with
      | some b =>
        rw [hfind] at ih
        obtain ⟨hb, hp, hclosest⟩ := ih
        refine ⟨by omega, hp, fun i hlt hle => ?_⟩
        rcases hlast hle with hle | rfl
        · exact hclosest i hlt hle
        · exact hn
      | none =>
        rw [hfind] at ih
        intro i hle
        rcases hlast hle with hle | rfl
        · exact ih i hle
        · exact hn

/-- The entry at `i` is no alias. -/
def isPlain (entries : List ArgpOption) (i : ℕ) : Bool :=
  (entries[i]?.map fun b => decide ¬Has b.flags OPTION_ALIAS) = some true

theorem isPlain_true {entries : List ArgpOption} {i : ℕ} :
    isPlain entries i = true ↔ ∃ b, entries[i]? = some b ∧ ¬Has b.flags OPTION_ALIAS := by
  unfold isPlain
  cases entries[i]? with
  | none => simp
  | some b => simp

theorem isPlain_false {entries : List ArgpOption} {i : ℕ} (h : i < entries.length) :
    isPlain entries i = false ↔ ∃ b ∈ entries[i]?, Has b.flags OPTION_ALIAS := by
  unfold isPlain
  rw [List.getElem?_eq_getElem h]
  simp

/-- What `option_base` finds. -/
theorem optionBase_isBase {entries : List ArgpOption} {index : ℕ} (h : index < entries.length) :
    IsBase entries index (optionBase entries index) := by
  have hhere : entries[index]? = some entries[index] := List.getElem?_eq_getElem h
  unfold optionBase
  rw [hhere]
  dsimp only
  by_cases halias : Has entries[index].flags OPTION_ALIAS
  · rw [if_pos halias]
    have hfind := find?_reverse_range (isPlain entries) index
    change IsBase entries index (match (List.range index).reverse.find? (isPlain entries) with
      | some base => base
      | none => index)
    cases hbase : (List.range index).reverse.find? (isPlain entries) with
    | some base =>
      rw [hbase] at hfind
      obtain ⟨hlt, hplain, hclosest⟩ := hfind
      obtain ⟨b, hb, hno⟩ := isPlain_true.mp hplain
      exact .alias_ hhere halias hlt hb hno fun i hi hi' =>
        (isPlain_false (by omega)).mp (hclosest i hi hi')
    | none =>
      rw [hbase] at hfind
      exact .orphan hhere halias fun i hi => (isPlain_false (by omega)).mp (hfind i hi)
  · rw [if_neg halias]
    exact .plain hhere halias

theorem IsBase.lt_length {entries : List ArgpOption} {index base : ℕ} (h : IsBase entries index base) :
    index < entries.length := by
  cases h with
  | plain here _ => exact (List.getElem?_eq_some_iff.mp here).1
  | alias_ here _ _ _ _ _ => exact (List.getElem?_eq_some_iff.mp here).1
  | orphan here _ _ => exact (List.getElem?_eq_some_iff.mp here).1

/-- There is only one. -/
theorem IsBase.unique {entries : List ArgpOption} {index base base' : ℕ}
    (h : IsBase entries index base) (h' : IsBase entries index base') : base = base' := by
  have hclash : ∀ {i : ℕ} {a b : ArgpOption}, a ∈ entries[i]? → entries[i]? = some b →
      Has a.flags OPTION_ALIAS → ¬Has b.flags OPTION_ALIAS → False := by
    intro i a b ha hb halias hno
    have heq : some a = some b := ha.symm.trans hb
    cases heq
    exact hno halias
  cases h with
  | plain here no =>
    cases h' with
    | plain _ _ => rfl
    | alias_ here' isAlias _ _ _ _ => exact (hclash here' here isAlias no).elim
    | orphan _ _ _ => rfl
  | alias_ here isAlias before there no closest =>
    cases h' with
    | plain here' no' => exact (hclash here here' isAlias no').elim
    | alias_ _ _ before' there' no' closest' =>
      rcases lt_trichotomy base base' with hlt | heq | hgt
      · obtain ⟨a, ha, halias⟩ := closest base' hlt before'
        exact (hclash ha there' halias no').elim
      · exact heq
      · obtain ⟨a, ha, halias⟩ := closest' base hgt before
        exact (hclash ha there halias no).elim
    | orphan _ _ alone =>
      obtain ⟨a, ha, halias⟩ := alone base before
      exact (hclash ha there halias no).elim
  | orphan here isAlias alone =>
    cases h' with
    | plain _ _ => rfl
    | alias_ _ _ before there no _ =>
      obtain ⟨a, ha, halias⟩ := alone base' before
      exact (hclash ha there halias no).elim
    | orphan _ _ _ => rfl

theorem isBase_iff {entries : List ArgpOption} {index base : ℕ} (h : index < entries.length) :
    IsBase entries index base ↔ base = optionBase entries index := by
  constructor
  · intro hbase
    exact hbase.unique (optionBase_isBase h)
  · intro heq
    rw [heq]
    exact optionBase_isBase h

/-! ### `find_long_option` -/

/-- Both entries stand for one entry of one array. -/
def Entry.SameBase (e e' : Entry) : Prop := e.array.address = e'.array.address ∧
  ∃ base, IsBase e.array.entries e.index base ∧ IsBase e'.array.entries e'.index base

/-- What looking up a long option in these entries is to give. -/
structure LooksUp (entries : List Entry) (arg : CStr) (r : LongResult) : Prop where
  exact : ∀ e, (entries.find? fun e => e.Exact arg) = some e → r = .inl (e.group, e.option)
  abbreviated : (∀ e ∈ entries, ¬e.Exact arg) → ∀ e es,
    (entries.filter fun e => e.Abbreviated arg) = e :: es → (∀ e' ∈ es, e.SameBase e') →
      r = .inl (e.group, e.option)
  ambiguous : r = .inr true ↔ (∀ e ∈ entries, ¬e.Exact arg) ∧
    ∃ e ∈ entries, ∃ e' ∈ entries, e.Abbreviated arg ∧ e'.Abbreviated arg ∧ ¬e.SameBase e'
  unknown : (∀ e ∈ entries, ¬e.Exact arg ∧ ¬e.Abbreviated arg) → r = .inr false

/-- The entry is in its array. -/
def Entry.Placed (e : Entry) : Prop := e.array.entries[e.index]? = some e.option

theorem Entry.Placed.sameBase {e e' : Entry} (h : e.Placed) (h' : e'.Placed) :
    e.SameBase e' ↔ e'.base = e.base := by
  have hlt : e.index < e.array.entries.length := (List.getElem?_eq_some_iff.mp h).1
  have hlt' : e'.index < e'.array.entries.length := (List.getElem?_eq_some_iff.mp h').1
  unfold Entry.SameBase Entry.base
  rw [OptionPtr.mk.injEq]
  constructor
  · intro hsame
    obtain ⟨haddress, base, hbase, hbase'⟩ := hsame
    rw [isBase_iff hlt] at hbase
    rw [isBase_iff hlt'] at hbase'
    exact ⟨haddress.symm, hbase'.symm.trans hbase⟩
  · intro hsame
    refine ⟨hsame.1.symm, _, optionBase_isBase hlt, ?_⟩
    rw [← hsame.2]
    exact optionBase_isBase hlt'

theorem entriesOfArrays_placed (k : ℕ) (arrays : List (Option OptionArray)) :
    ∀ e ∈ entriesOfArrays k arrays, e.Placed := by
  induction arrays generalizing k with
  | nil =>
    intro e he
    cases he
  | cons os arrays ih =>
    cases os with
    | none => exact ih (k + 1)
    | some os =>
      intro e he
      rcases List.mem_append.mp he with he | he
      · obtain ⟨-, hos, -, hget⟩ := mem_entriesFrom.mp he
        unfold Entry.Placed
        rw [hos]
        exact hget
      · exact ih (k + 1) e he

/-- The single pass counts the bases right. -/
theorem longOption_looksUp {entries : List Entry} (hplaced : ∀ e ∈ entries, e.Placed) (arg : CStr) :
    LooksUp entries arg (longOption entries arg) := by
  unfold longOption
  cases hexact : entries.find? fun e => e.Exact arg with
  | some e =>
    have hmem := List.mem_of_find?_eq_some hexact
    have he : e.Exact arg := by simpa using List.find?_some hexact
    constructor
    · intro e' he'
      cases hexact.symm.trans he'
      rfl
    · intro hno
      exact (hno e hmem he).elim
    · exact ⟨fun hbad => (by cases hbad), fun hno => (hno.1 e hmem he).elim⟩
    · intro hno
      exact ((hno e hmem).1 he).elim
  | none =>
    have hno : ∀ e ∈ entries, ¬e.Exact arg := by
      intro e he
      simpa using List.find?_eq_none.mp hexact e he
    have hfilter : ∀ e, e ∈ entries.filter (fun e => e.Abbreviated arg) ↔
        e ∈ entries ∧ e.Abbreviated arg := by
      intro e
      rw [List.mem_filter, decide_eq_true_iff]
    dsimp only
    cases habbr : entries.filter fun e => e.Abbreviated arg with
    | nil =>
      rw [habbr] at hfilter
      have hnone : ∀ e ∈ entries, ¬e.Abbreviated arg := fun e he ha =>
        List.not_mem_nil ((hfilter e).mpr ⟨he, ha⟩)
      constructor
      · intro e he
        rw [hexact] at he
        cases he
      · intro _ e es hbad
        rw [habbr] at hbad
        cases hbad
      · refine ⟨fun hbad => (by cases hbad), fun htwo => ?_⟩
        obtain ⟨-, e, he, -, -, ha, -⟩ := htwo
        exact (hnone e he ha).elim
      · intro _
        rfl
    | cons e es =>
      rw [habbr] at hfilter
      obtain ⟨he, ha⟩ := (hfilter e).mp List.mem_cons_self
      have hbases : (∀ e' ∈ es, e.SameBase e') ↔ ∀ e' ∈ es, e'.base = e.base := by
        apply forall₂_congr
        intro e' he'
        exact (hplaced e he).sameBase (hplaced e' ((hfilter e').mp (List.mem_cons_of_mem _ he')).1)
      dsimp only
      constructor
      · intro e' he'
        rw [hexact] at he'
        cases he'
      · intro _ e' es' heq hsame
        rw [habbr] at heq
        cases heq
        rw [if_pos (hbases.mp hsame)]
      · by_cases hsame : ∀ e' ∈ es, e'.base = e.base
        · rw [if_pos hsame]
          refine ⟨fun hbad => (by cases hbad), fun htwo => ?_⟩
          obtain ⟨-, x, hx, y, hy, hax, hay, hxy⟩ := htwo
          -- both are among those that the first one stands for
          have hall : ∀ z ∈ entries, z.Abbreviated arg → z.base = e.base := by
            intro z hz haz
            rcases List.mem_cons.mp ((hfilter z).mpr ⟨hz, haz⟩) with rfl | hmem
            · rfl
            · exact hsame z hmem
          exfalso
          apply hxy
          rw [(hplaced x hx).sameBase (hplaced y hy), hall x hx hax, hall y hy hay]
        · rw [if_neg hsame]
          refine ⟨fun _ => ⟨hno, ?_⟩, fun _ => rfl⟩
          rw [← hbases] at hsame
          push Not at hsame
          obtain ⟨e', he', hdiff⟩ := hsame
          obtain ⟨hin, ha'⟩ := (hfilter e').mp (List.mem_cons_of_mem _ he')
          exact ⟨e, he, e', hin, ha, ha', hdiff⟩
      · intro hnone
        exact ((hnone e he).2 ha).elim

/-- `find_long_option` finds what it is to find if and only if it does not come to an options array
that is not there. -/
theorem find_long_option_iff (argp : Option (Argp π)) (arg : CStr) :
    (∃ r, findLongOption (treeGroup argp) (treeGroups argp).length arg = .ok r ∧
      LooksUp (treeEntries argp) arg r) ↔
    ¬ComesToNull (treeGroup argp) (treeGroups argp).length (Entry.Exact · arg) := by
  obtain ⟨hnull, hfound⟩ := findLongOption_eq (treeGroup argp) (treeGroups argp).length arg
  constructor
  · intro h hcomes
    obtain ⟨r, hr, -⟩ := h
    rw [hnull hcomes] at hr
    cases hr
  · intro hno
    refine ⟨_, hfound hno, ?_⟩
    rw [entriesIn_tree]
    exact longOption_looksUp (entriesOfArrays_placed 0 _) arg

/-- An argp with the option `--all`. -/
def argpAll : Argp Unit :=
  .node (some ⟨1, [⟨some [letterA, letterL, letterL], 97, none, 0, none, 0⟩], by decide⟩) (some ()) []

/-- Under an argp that has no options array, `--all` is not found. -/
theorem find_long_option_null : ¬∃ r,
    findLongOption (treeGroup (some (.node none (some ()) [argpAll])))
      (treeGroups (some (.node none (some ()) [argpAll]))).length
      [⟨97, by decide⟩, ⟨108, by decide⟩, ⟨108, by decide⟩] = .ok r ∧
    LooksUp (treeEntries (some (.node none (some ()) [argpAll])))
      [⟨97, by decide⟩, ⟨108, by decide⟩, ⟨108, by decide⟩] r := by
  intro h
  obtain ⟨r, hr, -⟩ := h
  have hnull : findLongOption (treeGroup (some (.node none (some ()) [argpAll])))
      (treeGroups (some (.node none (some ()) [argpAll]))).length
      [⟨97, by decide⟩, ⟨108, by decide⟩, ⟨108, by decide⟩] = .error .nullOptions := rfl
  rw [hnull] at hr
  cases hr

end MuslBsd.Argp
