import Mathlib.Algebra.Order.Ring.Int
import MuslBsd.Help.Types
import MuslBsd.Support.Sorting
import Mathlib.Data.List.SplitBy

/-! `struct hol` of `argp-help.c`: how it is made from a tree of argps, how its entries are read and
how they are compared. Storage is always found. -/
namespace MuslBsd.Help
open MuslBsd.Argp
open MuslBsd.Support

/-! ### The C library -/

def isSpace (c : CChar) : Bool := c.val = 32 ∨ 9 ≤ c.val ∧ c.val ≤ 13

def isAlnum (c : CChar) : Bool :=
  48 ≤ c.val ∧ c.val ≤ 57 ∨ 65 ≤ c.val ∧ c.val ≤ 90 ∨ 97 ≤ c.val ∧ c.val ≤ 122

/-- `tolower`, of an `unsigned char`. -/
def toLower (c : CChar) : ℤ :=
  if 65 ≤ c.val ∧ c.val ≤ 90 then c.val.toNat + 32 else c.val.toNat

/-- `_tolower` of the C library: `(a) | 0x20`. -/
def lowerBit (a : ℤ) : ℤ := if a % 64 < 32 then a + 32 else a

def strcasecmp : CStr → CStr → ℤ
  | [], [] => 0
  | l :: _, [] => toLower l
  | [], r :: _ => -toLower r
  | l :: ls, r :: rs => if toLower l = toLower r then strcasecmp ls rs else toLower l - toLower r

/-- What an `int` holds after `a` is computed for it. -/
def wrapInt (a : ℤ) : ℤ := a.bmod (2 ^ 32)

/-! ### Options -/

/-- `oalias`. -/
def oalias (o : ArgpOption) : Prop := Has o.flags OPTION_ALIAS

instance : DecidablePred oalias := fun _ => inferInstanceAs (Decidable (Has _ _))

/-- `ovisible`. -/
def ovisible (o : ArgpOption) : Prop := ¬Has o.flags OPTION_HIDDEN

instance : DecidablePred ovisible := fun _ => inferInstanceAs (Decidable (¬Has _ _))

/-- `odoc`. -/
def odoc (o : ArgpOption) : Prop := Has o.flags OPTION_DOC

instance : DecidablePred odoc := fun _ => inferInstanceAs (Decidable (Has _ _))

/-! ### Entries -/

/-- `struct hol_cluster`; what it is a child of comes with the pointer to it. The address is the
place in the tree of the child that it was made for. -/
structure HolCluster where
  address : List ℕ
  header : Option CStr
  index : ℤ
  group : ℤ
  deriving DecidableEq

/-- A `struct hol_cluster *`: the cluster, its parent, and so on to the base; `[]` is NULL. -/
abbrev ClusterPtr : Type := List HolCluster

/-- `depth`, of a cluster that is there. -/
def depth (cl : ClusterPtr) : ℕ := cl.length - 1

/-- `struct hol_entry`: the options from `opt` on in their array, the short options from an offset
on in the string of the hol, and the argp by its place in the tree. -/
structure HolEntry where
  array : OptionArray
  opt : ℕ
  num : ℕ
  shortOptions : ℕ
  group : ℤ
  cluster : ClusterPtr
  argp : List ℕ
  deriving DecidableEq

def HolEntry.options (e : HolEntry) : List ArgpOption := (e.array.entries.drop e.opt).take e.num

/-- `struct hol`; the short options are characters as `int`s. -/
structure Hol where
  entries : List HolEntry
  shortOptions : List ℤ
  deriving DecidableEq

/-! ### Making a hol -/

/-- What an option adds to the string of short options. -/
def addShort (so : List ℤ) (o : ArgpOption) : List ℤ :=
  if o.IsShort ∧ o.key ∉ so then so ++ [o.key] else so

/-- The group of an entry, from its first option and the group before. -/
def entryGroup (curGroup : ℤ) (o : ArgpOption) : ℤ :=
  if o.group ≠ 0 then o.group
  else if o.name = none ∧ o.key = 0 then wrapInt (curGroup + 1)
  else curGroup

/-- The entries of an array from `opt` on: one for each option and its aliases. -/
def fillEntries (array : OptionArray) (cluster : ClusterPtr) (argp : List ℕ) :
    ℕ → ℤ → List ℤ → List (List ArgpOption) → Hol
  | _, _, so, [] => ⟨[], so⟩
  | opt, curGroup, so, options :: rest =>
    let group := (options.head?.map (entryGroup curGroup)).getD curGroup
    let hol := fillEntries array cluster argp (opt + options.length) group
      (options.foldl addShort so) rest
    ⟨⟨array, opt, options.length, so.length, group, cluster, argp⟩ :: hol.entries, hol.shortOptions⟩

/-- An option with the aliases that follow it. -/
def withAliases (options : List ArgpOption) : List (List ArgpOption) :=
  options.splitBy fun _ o => decide (oalias o)

/-- `make_hol`; it asserts that the first option is no alias. -/
def makeHol (options : Option OptionArray) (cluster : ClusterPtr) (argp : List ℕ) : Option Hol :=
  match options with
  | none => some ⟨[], []⟩
  | some array =>
    if ∃ o ∈ array.entries.head?, oalias o then none
    else some (fillEntries array cluster argp 0 0 [] (withAliases array.entries))

/-- What an option of `more` adds, where `old` is the string of the hol; with what is left of the
string of `more`. -/
def mergeOption (old : List ℤ) (s : List ℤ × List ℤ) (o : ArgpOption) : List ℤ × List ℤ :=
  if o.IsShort ∧ s.2.headD 0 = o.key then
    (if o.key ∉ old then s.1 ++ [o.key] else s.1, s.2.tail)
  else s

/-- The entries of `more` with their offsets in the new string, and that string. -/
def mergeEntries (old : List ℤ) : List ℤ × List ℤ → List HolEntry → Hol
  | s, [] => ⟨[], s.1⟩
  | s, e :: es =>
    let hol := mergeEntries old (e.options.foldl (mergeOption old) s) es
    ⟨{ e with shortOptions := s.1.length } :: hol.entries, hol.shortOptions⟩

/-- `hol_append`. -/
def holAppend (hol more : Hol) : Hol :=
  if more.entries = [] then hol
  else if hol.entries = [] then more
  else
    let merged := mergeEntries hol.shortOptions (hol.shortOptions, more.shortOptions) more.entries
    ⟨hol.entries ++ merged.entries, merged.shortOptions⟩

/-- A child has a cluster of its own if it has a group or a header. -/
def childCluster (header : Option CStr) (group : ℤ) (cluster : ClusterPtr) (argp : List ℕ) (k : ℕ) :
    ClusterPtr :=
  if group ≠ 0 ∨ header.isSome then ⟨argp ++ [k], header, k, group⟩ :: cluster else cluster

section

variable {π : Type}

mutual

/-- `argp_hol`, of the argp at a place in the tree. -/
def argpHol : HelpArgp π → ClusterPtr → List ℕ → Option Hol
  | .node options _ _ children, cluster, argp => do
    let hol ← makeHol options cluster argp
    childrenHol children cluster argp 0 hol

/-- The loop over the children, from the `k`-th on. -/
def childrenHol : HelpChildren π → ClusterPtr → List ℕ → ℕ → Hol → Option Hol
  | .nil, _, _, _, hol => some hol
  | .cons child header group children, cluster, argp, k, hol => do
    let more ← argpHol child (childCluster header group cluster argp k) (argp ++ [k])
    childrenHol children cluster argp (k + 1) (holAppend hol more)

end

end

/-! ### Reading entries -/

section

variable {κ : Type} (func : ArgpOption → ArgpOption → κ → ℤ × κ)

/-- The loop of `hol_entry_short_iterate`: what is left of the short options, the last option that
is no alias, the options that are left and the cookie. -/
def shortIterate : List ℤ → ArgpOption → List ArgpOption → κ → ℤ × κ
  | _, _, [], cookie => (0, cookie)
  | so, real, o :: options, cookie =>
    if o.IsShort ∧ so.headD 0 = o.key then
      let real := if oalias o then real else o
      if ovisible o then
        match func o real cookie with
        | (0, cookie) => shortIterate so.tail real options cookie
        | stopped => stopped
      else shortIterate so.tail real options cookie
    else shortIterate so real options cookie

/-- `hol_entry_short_iterate`, where `so` is the string of the hol. -/
def holEntryShortIterate (so : List ℤ) (e : HolEntry) (cookie : κ) : ℤ × κ :=
  match e.options with
  | [] => (0, cookie)
  | o :: options => shortIterate func (so.drop e.shortOptions) o (o :: options) cookie

end

/-- `until_short`. -/
def untilShort (o : ArgpOption) : ℤ := if o.IsShort then o.key else 0

def holEntryFirstShort (so : List ℤ) (e : HolEntry) : ℤ :=
  (holEntryShortIterate (fun o _ (_ : Unit) => (untilShort o, ())) so e ()).1

def holEntryFirstLong (e : HolEntry) : Option CStr :=
  (e.options.find? fun o => o.name.isSome ∧ ovisible o).bind ArgpOption.name

/-- Some option of the entry has this long name. -/
def HolEntry.Named (name : CStr) (e : HolEntry) : Prop :=
  ∃ o ∈ e.options, o.name = some name ∧ ovisible o

instance (name : CStr) (e : HolEntry) : Decidable (e.Named name) :=
  inferInstanceAs (Decidable (∃ _ ∈ _, _))

/-- `hol_set_group`, with the search of `hol_find_entry`. -/
def setGroup (name : CStr) (group : ℤ) : List HolEntry → List HolEntry
  | [] => []
  | e :: es => if e.Named name then { e with group := group } :: es else e :: setGroup name group es

def holSetGroup (hol : Hol) (name : CStr) (group : ℤ) : Hol :=
  { hol with entries := setGroup name group hol.entries }

/-! ### Comparing entries -/

def groupCmp (group1 group2 eq : ℤ) : ℤ :=
  if group1 = group2 then eq
  else if group1 < 0 ∧ group2 < 0 ∨ 0 ≤ group1 ∧ 0 ≤ group2 then wrapInt (group1 - group2)
  else wrapInt (group2 - group1)

/-- The ancestor of a cluster at depth `d`. -/
def raiseTo (d : ℕ) (cl : ClusterPtr) : ClusterPtr := cl.drop (depth cl - d)

/-- The last loop of `hol_cluster_cmp`, for clusters of one depth. -/
def clusterClimb : ClusterPtr → ClusterPtr → ℤ
  | cl1 :: parents1, cl2 :: parents2 =>
    if parents1 ≠ parents2 then clusterClimb parents1 parents2
    else groupCmp cl1.group cl2.group (cl2.index - cl1.index)
  | _, _ => 0

def holClusterCmp (cl1 cl2 : ClusterPtr) : ℤ :=
  let cl1 := raiseTo (depth cl2) cl1
  let cl2 := raiseTo (depth cl1) cl2
  clusterClimb cl1 cl2

/-- The group of `hol_cluster_base`. -/
def baseGroup (cl : ClusterPtr) : ℤ := (cl.getLast?.map HolCluster.group).getD 0

/-- `canon_doc_option`: whether the name is to be treated as no option, and what is compared. -/
def canonDocOption (name : CStr) : Bool × CStr :=
  let name := name.dropWhile isSpace
  (name.head? ≠ some dash, name.dropWhile fun c => !isAlnum c)

/-- What entries of one cluster and group are compared by. -/
structure SortName where
  doc : Bool
  short : ℤ
  long : Option CStr

def HolEntry.sortName (so : List ℤ) (e : HolEntry) : SortName :=
  match e.options.head?, holEntryFirstLong e with
  | some o, some long =>
    if odoc o then
      { doc := (canonDocOption long).1
        short := holEntryFirstShort so e
        long := some (canonDocOption long).2 }
    else { doc := false, short := holEntryFirstShort so e, long := some long }
  | _, long => { doc := false, short := holEntryFirstShort so e, long := long }

/-- The character that stands for the name; 0 for none. -/
def SortName.first (n : SortName) : ℤ :=
  if n.short ≠ 0 then n.short
  else match n.long with
    | some (c :: _) => charToInt c
    | _ => 0

def firstCmp (first1 first2 : ℤ) : ℤ :=
  if lowerBit first1 - lowerBit first2 ≠ 0 then lowerBit first1 - lowerBit first2
  else first2 - first1

/-- The comparison of `hol_entry_cmp` within a cluster and group. -/
def nameCmp (n1 n2 : SortName) : ℤ :=
  if n1.doc ≠ n2.doc then n1.doc.toInt - n2.doc.toInt
  else if n1.short = 0 ∧ n2.short = 0 then
    match n1.long, n2.long with
    | some long1, some long2 => strcasecmp long1 long2
    | _, _ => firstCmp n1.first n2.first
  else firstCmp n1.first n2.first

/-- `hol_entry_cmp`, where `so` is the string of the hol. -/
def holEntryCmp (so : List ℤ) (entry1 entry2 : HolEntry) : ℤ :=
  if entry1.cluster ≠ entry2.cluster then
    if entry1.cluster = [] then groupCmp entry1.group (baseGroup entry2.cluster) (-1)
    else if entry2.cluster = [] then groupCmp (baseGroup entry1.cluster) entry2.group 1
    else holClusterCmp entry1.cluster entry2.cluster
  else if entry1.group = entry2.group then nameCmp (entry1.sortName so) (entry2.sortName so)
  else groupCmp entry1.group entry2.group 0

/-! ### Sorting -/

/-- `hol_set_group` for each of these names, as before sorting. -/
def putLast (names : List CStr) (hol : Hol) : Hol :=
  names.foldl (fun hol name => holSetGroup hol name (-1)) hol

/-- `hol_sort` may make `hol'` of `hol`. -/
def HolSort (hol hol' : Hol) : Prop :=
  MaySort (holEntryCmp hol.shortOptions) hol.entries hol'.entries ∧
    hol'.shortOptions = hol.shortOptions

end MuslBsd.Help
