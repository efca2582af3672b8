import MuslBsd.Argp.Keys

/-! The options and arguments of a command line as a scan from left to right finds them, and the
order in which the parsers are to get them. -/
namespace MuslBsd.Argp
open MuslBsd.Support

variable {π σ : Type}

/-! ### Groups -/

/-- The groups of a tree, in pre-order. -/
def treeGroups (argp : Option (Argp π)) : List (Group π) :=
  match argp with
  | none => []
  | some argp =>
    match convertOptions false argp none 0 ⟨[], [], 0⟩ with
    | .ok cvt => cvt.groups
    | .error _ => []

/-- The options of a group; NULL stands for none. -/
def Group.entries (group : Group π) : List ArgpOption :=
  match group.options with
  | none => []
  | some os => os.entries

/-- The group with an options array. -/
def Group.filled (group : Group π) : Group π :=
  { group with options := some (group.options.getD ⟨0, [], by simp⟩) }

section

variable (groups : List (Group π))

/-- The short options of all groups. -/
def shortKeys : List ℤ :=
  groups.flatMap fun group => (group.entries.filter fun o => o.IsShort).map ArgpOption.key

/-- The group at `g` of those that were made has a parser. -/
def HasParser (g : ℕ) : Prop := ∃ group, groups[g]? = some group ∧ group.parser.isSome

/-- What an option is written as. -/
inductive OptionName
  | short (c : CChar)
  | long (opt : CStr)

/-- The option with this name, where a group without an options array has no options. -/
def Finds (name : OptionName) (g : ℕ) (o : ArgpOption) : Prop :=
  match name with
  | .short c => findShortOption (fun g => (groups.getD g .nil).filled) groups.length
      (charToInt c) = .ok (some (g, o))
  | .long opt => findLongOption (fun g => (groups.getD g .nil).filled) groups.length opt =
      .ok (.inl (g, o))

/-- The lookup of this name ends before it comes to a group without an options array. -/
def Reached (name : OptionName) : Prop :=
  match name with
  | .short c => findShortOption (fun g => groups.getD g .nil) groups.length (charToInt c) ≠
      .error .nullOptions
  | .long opt => findLongOption (fun g => groups.getD g .nil) groups.length opt ≠
      .error .nullOptions

end

/-! The lookups of the code in groups as they are, and in filled ones. -/

theorem searchShort_congr {f f' : ℕ → Group π} (h : ∀ g, (f' g).options = (f g).options) (key : ℤ)
    (gs : List ℕ) : searchShort f' key gs = searchShort f key gs := by
  induction gs with
  | nil => rfl
  | cons g gs ih =>
    unfold searchShort
    rw [h g, ih]

theorem searchLong_congr {f f' : ℕ → Group π} (h : ∀ g, (f' g).options = (f g).options) (arg : CStr)
    (gs : List ℕ) (p : Partial) : searchLong f' arg gs p = searchLong f arg gs p := by
  induction gs generalizing p with
  | nil => rfl
  | cons g gs ih =>
    unfold searchLong
    rw [h g]
    cases (f g).options with
    | none => rfl
    | some os =>
      dsimp only
      cases searchEntries arg g os 0 os.entries p with
      | inl o => rfl
      | inr p => exact ih p

/-- By induction on the groups: as long as there are options arrays, both find the same. -/
theorem searchShort_filled (f : ℕ → Group π) (key : ℤ) (gs : List ℕ) :
    searchShort f key gs = .error .nullOptions ∨
      searchShort f key gs = searchShort (fun g => (f g).filled) key gs := by
  induction gs with
  | nil => exact .inr rfl
  | cons g gs ih =>
    unfold searchShort
    cases hos : (f g).options with
    | none => exact .inl rfl
    | some os =>
      have hfilled : (f g).filled.options = some os := by
        unfold Group.filled
        rw [hos]
        rfl
      rw [hfilled]
      dsimp only
      cases os.entries.find? fun o => o.key = key with
      | none => exact ih
      | some o => exact .inr rfl

theorem searchLong_filled (f : ℕ → Group π) (arg : CStr) (gs : List ℕ) (p : Partial) :
    searchLong f arg gs p = .error .nullOptions ∨
      searchLong f arg gs p = searchLong (fun g => (f g).filled) arg gs p := by
  induction gs generalizing p with
  | nil => exact .inr rfl
  | cons g gs ih =>
    unfold searchLong
    cases hos : (f g).options with
    | none => exact .inl rfl
    | some os =>
      have hfilled : (f g).filled.options = some os := by
        unfold Group.filled
        rw [hos]
        rfl
      rw [hfilled]
      dsimp only
      cases searchEntries arg g os 0 os.entries p with
      | inl o => exact .inr rfl
      | inr p => exact ih p

section

variable {groups : List (Group π)} {f : ℕ → Group π} {g : ℕ} {o : ArgpOption}

/-- The code finds the option, or comes to a NULL array. -/
theorem Finds.short {c : CChar} (h : Finds groups (.short c) g o)
    (hf : ∀ g, (f g).options = (groups.getD g .nil).options) :
    (Reached groups (.short c) → findShortOption f groups.length (charToInt c) = .ok (some (g, o))) ∧
      (¬Reached groups (.short c) →
        findShortOption f groups.length (charToInt c) = .error .nullOptions) := by
  unfold Finds at h
  unfold Reached
  unfold findShortOption at h ⊢
  by_cases hkey : 0 ≤ charToInt c ∧ charToInt c < 128
  · simp only [if_pos hkey] at h ⊢
    rw [searchShort_congr hf]
    rcases searchShort_filled (fun g => groups.getD g .nil) (charToInt c)
      (List.range groups.length) with hnull | hsame
    · rw [hnull]
      exact ⟨fun hbad => (hbad rfl).elim, fun _ => rfl⟩
    · rw [hsame, h]
      exact ⟨fun _ => rfl, fun hbad => (hbad (by simp)).elim⟩
  · simp only [if_neg hkey] at h
    cases h

theorem Finds.long {opt : CStr} (h : Finds groups (.long opt) g o)
    (hf : ∀ g, (f g).options = (groups.getD g .nil).options) :
    (Reached groups (.long opt) → findLongOption f groups.length opt = .ok (.inl (g, o))) ∧
      (¬Reached groups (.long opt) → findLongOption f groups.length opt = .error .nullOptions) := by
  unfold Finds at h
  unfold Reached
  unfold findLongOption at h ⊢
  dsimp only at h ⊢
  rw [searchLong_congr hf]
  rcases searchLong_filled (fun g => groups.getD g .nil) opt (List.range groups.length)
    ⟨none, ⟨0, 0⟩, 0⟩ with hnull | hsame
  · rw [hnull]
    exact ⟨fun hbad => (hbad rfl).elim, fun _ => rfl⟩
  · rw [hsame, h]
    exact ⟨fun _ => rfl, fun hbad => (hbad (by simp)).elim⟩

end

section

variable (groups : List (Group π))

/-! ### The scan -/

/-- An option, with its argument. -/
structure Use where
  name : OptionName
  group : ℕ
  option : ArgpOption
  value : Option CStr

/-- A bundle of short options, in front of the elements `after`; `left` are those that remain. -/
inductive Bundle : CStr → (after : List CStr) → List Use → (left : List CStr) → Prop
  | done (after : List CStr) : Bundle [] after [] after
  | flag {c : CChar} {rest : CStr} {after left : List CStr} {uses : List Use} {g : ℕ}
      {o : ArgpOption} (found : Finds groups (.short c) g o) (arg : o.arg = none)
      (bundle : Bundle rest after uses left) :
      Bundle (c :: rest) after (⟨.short c, g, o, none⟩ :: uses) left
  | attached {c : CChar} {rest : CStr} {after : List CStr} {g : ℕ} {o : ArgpOption}
      (found : Finds groups (.short c) g o) (arg : o.arg ≠ none) (more : rest ≠ []) :
      Bundle (c :: rest) after [⟨.short c, g, o, some rest⟩] after
  | omitted {c : CChar} {after : List CStr} {g : ℕ} {o : ArgpOption}
      (found : Finds groups (.short c) g o) (arg : o.arg ≠ none)
      (optional : Has o.flags OPTION_ARG_OPTIONAL) :
      Bundle [c] after [⟨.short c, g, o, none⟩] after
  | separate {c : CChar} {value : CStr} {after : List CStr} {g : ℕ} {o : ArgpOption}
      (found : Finds groups (.short c) g o) (arg : o.arg ≠ none)
      (required : ¬Has o.flags OPTION_ARG_OPTIONAL) :
      Bundle [c] (value :: after) [⟨.short c, g, o, some value⟩] after

/-- A long option, in front of the elements `after`. -/
inductive Long : CStr → (after : List CStr) → Use → (left : List CStr) → Prop
  | given {opt : CStr} {after : List CStr} {g : ℕ} {o : ArgpOption}
      (found : Finds groups (.long opt) g o) (allowed : valueOf opt ≠ none → o.arg ≠ none)
      (omitted : valueOf opt = none → o.arg ≠ none → Has o.flags OPTION_ARG_OPTIONAL) :
      Long opt after ⟨.long opt, g, o, valueOf opt⟩ after
  | separate {opt value : CStr} {after : List CStr} {g : ℕ} {o : ArgpOption}
      (found : Finds groups (.long opt) g o) (arg : o.arg ≠ none) (bare : valueOf opt = none)
      (required : ¬Has o.flags OPTION_ARG_OPTIONAL) :
      Long opt (value :: after) ⟨.long opt, g, o, some value⟩ after

/-- What one or two elements are. -/
inductive Item
  | option (elems : List CStr) (uses : List Use)
  | arg (val : CStr)

/-- What is found up to where option recognition ends: there is a `--` or not, and all elements of
`rest` are arguments. -/
structure Scan where
  items : List Item
  quoted : Bool
  rest : List CStr

/-- `classify_arg`, with the short options of the groups. -/
def classify (longOnly : Bool) (arg : CStr) : Except Fault ArgType :=
  classifyArg longOnly (some (shortKeys groups)) arg

/-- The scan; it goes on behind an argument, or stops there. -/
inductive Scans (longOnly stop : Bool) : List CStr → Scan → Prop
  | done : Scans longOnly stop [] ⟨[], false, []⟩
  | arg {a : CStr} {after : List CStr} {scan : Scan}
      (type : classify groups longOnly a = .ok .arg) (goOn : stop = false)
      (next : Scans longOnly stop after scan) :
      Scans longOnly stop (a :: after) { scan with items := .arg a :: scan.items }
  | stop {a : CStr} {after : List CStr} (type : classify groups longOnly a = .ok .arg)
      (here : stop = true) : Scans longOnly stop (a :: after) ⟨[], false, a :: after⟩
  | quote {a : CStr} {after : List CStr} (type : classify groups longOnly a = .ok .quote) :
      Scans longOnly stop (a :: after) ⟨[], true, after⟩
  | short {a : CStr} {first : CChar} {rest : CStr} {taken left : List CStr} {uses : List Use}
      {scan : Scan} (type : classify groups longOnly a = .ok (.shortOption first rest))
      (bundle : Bundle groups (first :: rest) (taken ++ left) uses left)
      (next : Scans longOnly stop left scan) :
      Scans longOnly stop (a :: (taken ++ left))
        { scan with items := .option (a :: taken) uses :: scan.items }
  | long {a opt : CStr} {taken left : List CStr} {use : Use} {scan : Scan}
      (type : classify groups longOnly a = .ok (.longOption opt) ∨
        classify groups longOnly a = .ok (.longOnlyOption opt))
      (option : Long groups opt (taken ++ left) use left)
      (next : Scans longOnly stop left scan) :
      Scans longOnly stop (a :: (taken ++ left))
        { scan with items := .option (a :: taken) [use] :: scan.items }

end

/-! ### What is to be delivered -/

/-- What a parser accepts. -/
inductive Delivery
  | option (group : ℕ) (key : ℤ) (arg : Option CStr)
  | arg (val : CStr)
  deriving DecidableEq

def Use.delivery (use : Use) : Delivery := .option use.group use.option.key use.value

def Item.uses : Item → List Use
  | .option _ uses => uses
  | .arg _ => []

def Item.arg? : Item → Option CStr
  | .option _ _ => none
  | .arg val => some val

def Item.elems : Item → List CStr
  | .option elems _ => elems
  | .arg val => [val]

def Item.optionElems : Item → List CStr
  | .option elems _ => elems
  | .arg _ => []

def Item.deliveries : Item → List Delivery
  | .option _ uses => uses.map Use.delivery
  | .arg val => [.arg val]

namespace Scan

variable (scan : Scan)

def uses : List Use := scan.items.flatMap Item.uses

def args : List CStr := scan.items.filterMap Item.arg?

/-- The `--`, if there is one. -/
def quote : List CStr := if scan.quoted then [[dash, dash]] else []

/-- The elements as they were. -/
def elems : List CStr := scan.items.flatMap Item.elems ++ scan.quote ++ scan.rest

/-- The order of delivery: in `PERMUTE` mode, first all options. -/
def order : Ordering → List Delivery
  | .permute => scan.uses.map Use.delivery ++ (scan.args ++ scan.rest).map .arg
  | .requireOrder | .returnInOrder => scan.items.flatMap Item.deliveries ++ scan.rest.map .arg

/-- The elements as they are left: in `PERMUTE` mode, the options and the `--` come first. -/
def permuted : Ordering → List CStr
  | .permute => scan.items.flatMap Item.optionElems ++ scan.quote ++ (scan.args ++ scan.rest)
  | .requireOrder | .returnInOrder => scan.elems

end Scan

/-- What a call delivers. -/
def Call.delivery? (c : Call) : Option Delivery :=
  if c.err = 0 then
    match c.key with
    | .option key => some (.option c.group key c.arg)
    | .arg => c.arg.map .arg
    | _ => none
  else none

def deliveries (acts : List Act) : List Delivery := (callsOf acts).filterMap Call.delivery?

theorem deliveries_append (acts acts' : List Act) :
    deliveries (acts ++ acts') = deliveries acts ++ deliveries acts' := by
  unfold deliveries
  rw [callsOf_append, List.filterMap_append]

end MuslBsd.Argp
