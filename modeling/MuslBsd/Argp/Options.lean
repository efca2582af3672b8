import MuslBsd.Argp.Types

/-! How the groups are made from the tree of `struct argp`, and how options are found in them. -/
namespace MuslBsd.Argp
open MuslBsd.Support

variable {π σ : Type}

/-! ### Groups -/

/-- `struct parser_sizes`. -/
structure ParserSizes where
  shortLen : ℕ
  numGroups : ℕ
  numChildInputs : ℕ

/-- The options that `calc_sizes` counts: those in front of the first that is not short. -/
def countShort (options : Option OptionArray) : ℕ :=
  match options with
  | none => 0
  | some os => (os.entries.takeWhile fun o => o.IsShort).length

mutual

/-- `calc_sizes`. -/
def calcSizes : Argp π → ParserSizes → ParserSizes
  | .node options parser children, szs =>
    calcChildren children
      (if options.isSome ∨ parser.isSome then
        { szs with
          numGroups := szs.numGroups + 1, shortLen := szs.shortLen + countShort options }
      else szs)

def calcChildren : List (Argp π) → ParserSizes → ParserSizes
  | [], szs => szs
  | child :: children, szs =>
    let szs := calcSizes child szs
    calcChildren children { szs with numChildInputs := szs.numChildInputs + 1 }

end

/-- What `convert_options` has written. -/
structure Converted (π : Type) where
  groups : List (Group π)
  shortOpts : List ℤ
  childInputs : ℕ

/-- The short options of an array, if they are recorded at all. -/
def recordShort (longOnly : Bool) (options : Option OptionArray) : Except Fault (List ℤ) :=
  if longOnly then
    match options with
    | none => .error .nullOptions
    | some os => .ok ((os.entries.filter fun o => o.IsShort).map ArgpOption.key)
  else .ok []

/-- The group of an argp, as `convert_options` fills it in. -/
def newGroup (options : Option OptionArray) (parser : Option π) (numChildren : ℕ)
    (parent : Option ℕ) (parentIndex : ℕ) : Group π where
  parser := parser
  options := options
  numChildren := numChildren
  argsProcessed := 0
  parent := parent
  parentIndex := parentIndex
  input := 0
  childInputs := fun _ => 0
  hook := 0

mutual

/-- `convert_options`, with what was written before. -/
def convertOptions (longOnly : Bool) :
    Argp π → Option ℕ → ℕ → Converted π → Except Fault (Converted π)
  | .node options parser children, parent, parentIndex, cvt =>
    if options.isSome ∨ parser.isSome then do
      let short ← recordShort longOnly options
      convertChildren longOnly children (some cvt.groups.length) 0
        { groups :=
            cvt.groups ++ [newGroup options parser children.length parent parentIndex]
          shortOpts := cvt.shortOpts ++ short
          childInputs := cvt.childInputs + children.length }
    else
      convertChildren longOnly children none 0 cvt

def convertChildren (longOnly : Bool) :
    List (Argp π) → Option ℕ → ℕ → Converted π → Except Fault (Converted π)
  | [], _, _, cvt => .ok cvt
  | child :: children, parent, index, cvt => do
    let cvt ← convertOptions longOnly child parent index cvt
    convertChildren longOnly children parent (index + 1) cvt

end

/-- The three areas hold what `convert_options` writes into them. -/
def ParserSizes.Suffice (szs : ParserSizes) (longOnly : Bool) (cvt : Converted π) : Prop :=
  cvt.groups.length ≤ szs.numGroups + 1 ∧ cvt.childInputs ≤ szs.numChildInputs ∧
    (longOnly → cvt.shortOpts.length ≤ szs.shortLen)

instance (szs : ParserSizes) (longOnly : Bool) (cvt : Converted π) :
    Decidable (szs.Suffice longOnly cvt) := inferInstanceAs (Decidable (_ ∧ _))

/-- `parser_convert`, into the storage that `calc_sizes` asks for. -/
def parserConvert (longOnly : Bool) (argp : Option (Argp π)) : Except Fault (Converted π) :=
  match argp with
  | none => .ok ⟨[], [], 0⟩
  | some argp => do
    let cvt ← convertOptions longOnly argp none 0 ⟨[], [], 0⟩
    if (calcSizes argp ⟨0, 0, 0⟩).Suffice longOnly cvt then .ok cvt else .error .storage

/-! ### Short options -/

/-- `find_short_option`, in the groups that are left, without its assertions. -/
def searchShort (groups : ℕ → Group π) (key : ℤ) : List ℕ → Except Fault (Option (ℕ × ArgpOption))
  | [] => .ok none
  | g :: gs =>
    match (groups g).options with
    | none => .error .nullOptions
    | some os =>
      match os.entries.find? fun o => o.key = key with
      | some o => .ok (some (g, o))
      | none => searchShort groups key gs

/-- `find_short_option`. -/
def findShortOption (groups : ℕ → Group π) (numGroups : ℕ) (key : ℤ) :
    Except Fault (Option (ℕ × ArgpOption)) :=
  if 0 ≤ key ∧ key < 128 then searchShort groups key (List.range numGroups)
  else .error .assertion

/-! ### Long options -/

inductive MatchResult
  | exact | partial_ | no
  deriving DecidableEq

/-- `match_option`; the argument ends at an `=`. -/
def matchOption : CStr → CStr → MatchResult
  | [], [] => .exact
  | [], _ :: _ => .partial_
  | a :: arg, name =>
    if a = equalsSign then
      match name with
      | [] => .exact
      | _ :: _ => .partial_
    else
      match name with
      | [] => .no
      | n :: name => if a = n then matchOption arg name else .no

/-- The entry that an alias at `index` is one of: the closest before it that is no alias. -/
def optionBase (entries : List ArgpOption) (index : ℕ) : ℕ :=
  match entries[index]? with
  | none => index
  | some o =>
    if Has o.flags OPTION_ALIAS then
      match (List.range index).reverse.find? fun i =>
        (entries[i]?.map fun b => decide ¬Has b.flags OPTION_ALIAS) = some true with
      | some base => base
      | none => index
    else index

/-- An entry of an options array, as a pointer. -/
structure OptionPtr where
  address : ℕ
  index : ℕ
  deriving DecidableEq

/-- What `find_long_option` has matched so far. -/
structure Partial where
  matched : Option (ℕ × ArgpOption)
  base : OptionPtr
  numPartial : ℕ

/-- The partial match of the entry `o`, found at `index`. -/
def Partial.add (p : Partial) (g : ℕ) (os : OptionArray) (index : ℕ) (o : ArgpOption) : Partial :=
  let base : OptionPtr := ⟨os.address, optionBase os.entries index⟩
  match p.matched with
  | none => ⟨some (g, o), base, 1⟩
  | some _ => if base ≠ p.base then { p with numPartial := p.numPartial + 1 } else p

/-- The loop over the entries of one group, from `index` on; an exact match ends it. -/
def searchEntries (arg : CStr) (g : ℕ) (os : OptionArray) :
    ℕ → List ArgpOption → Partial → ArgpOption ⊕ Partial
  | _, [], p => .inr p
  | index, o :: entries, p =>
    match o.name with
    | none => searchEntries arg g os (index + 1) entries p
    | some name =>
      match matchOption arg name with
      | .no => searchEntries arg g os (index + 1) entries p
      | .partial_ => searchEntries arg g os (index + 1) entries (p.add g os index o)
      | .exact => .inl o

/-- The option that is found, or else whether the argument is ambiguous. -/
abbrev LongResult : Type := (ℕ × ArgpOption) ⊕ Bool

/-- `find_long_option`, in the groups that are left. -/
def searchLong (groups : ℕ → Group π) (arg : CStr) : List ℕ → Partial → Except Fault LongResult
  | [], p =>
    match p.matched with
    | some m => .ok (if p.numPartial = 1 then .inl m else .inr (1 < p.numPartial))
    | none => .ok (.inr (1 < p.numPartial))
  | g :: gs, p =>
    match (groups g).options with
    | none => .error .nullOptions
    | some os =>
      match searchEntries arg g os 0 os.entries p with
      | .inl o => .ok (.inl (g, o))
      | .inr p => searchLong groups arg gs p

/-- `find_long_option`. -/
def findLongOption (groups : ℕ → Group π) (numGroups : ℕ) (arg : CStr) : Except Fault LongResult :=
  searchLong groups arg (List.range numGroups) ⟨none, ⟨0, 0⟩, 0⟩

end MuslBsd.Argp
