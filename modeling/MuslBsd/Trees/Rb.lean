import MuslBsd.Support.RedBlack

/-! The red-black trees of `tree.h`. `RB_AUGMENT` is empty, as the header has it by default. -/
namespace MuslBsd.Trees
open MuslBsd.Support

/-- `RB_ENTRY`: the links of an element, null as `none`, and `RB_BLACK` or `RB_RED`. -/
structure RbEntry (α : Type*) where
  left : Option α
  right : Option α
  parent : Option α
  color : Color

/-- A tree in memory: the entry of every element there is, in the tree or not, and `RB_HEAD`. -/
structure Rb (α : Type*) where
  entry : α → RbEntry α
  root : Option α

namespace Rb

variable {α : Type*} [DecidableEq α]

/-- `RB_INIT`. -/
def init (s : Rb α) : Rb α := { s with root := none }

/-- `RB_LEFT` and `RB_RIGHT`. -/
def child (s : Rb α) (d : Side) (elm : α) : Option α :=
  match d with
  | .left => (s.entry elm).left
  | .right => (s.entry elm).right

/-- `RB_PARENT`. -/
def parent (s : Rb α) (elm : α) : Option α := (s.entry elm).parent

/-- `RB_COLOR`. -/
def color (s : Rb α) (elm : α) : Color := (s.entry elm).color

/-- Write the entry of an element. -/
def store (s : Rb α) (elm : α) (e : RbEntry α) : Rb α :=
  { s with entry := Function.update s.entry elm e }

def setChild (s : Rb α) (d : Side) (elm : α) (p : Option α) : Rb α :=
  s.store elm (match d with
    | .left => { s.entry elm with left := p }
    | .right => { s.entry elm with right := p })

def setParent (s : Rb α) (elm : α) (p : Option α) : Rb α := s.store elm { s.entry elm with parent := p }

def setColor (s : Rb α) (elm : α) (c : Color) : Rb α := s.store elm { s.entry elm with color := c }

/-- `RB_SET_BLACKRED`. -/
def setBlackRed (s : Rb α) (black red : α) : Rb α := (s.setColor black .black).setColor red .red

/-- `if (child) RB_PARENT(child) = parent`. -/
def adopt (s : Rb α) (child parent : Option α) : Rb α :=
  match child with
  | some c => s.setParent c parent
  | none => s

/-- `if (elm) RB_COLOR(elm) = c`. -/
def setColorOf (s : Rb α) (elm : Option α) (c : Color) : Rb α :=
  match elm with
  | some a => s.setColor a c
  | none => s

/-- Let `new` take the place of the child `old` of `parent`, or of the root. -/
def replace (s : Rb α) (parent : Option α) (old : α) (new : Option α) : Rb α :=
  match parent with
  | some p => if s.child .left p = some old then s.setChild .left p new else s.setChild .right p new
  | none => { s with root := new }

/-- A missing element counts as black. -/
def isBlack (s : Rb α) (elm : Option α) : Bool :=
  match elm with
  | some a => s.color a = .black
  | none => true

/-- `RB_ROTATE_LEFT` with `d = left` and `RB_ROTATE_RIGHT` with `d = right`. -/
def rotate (d : Side) (s : Rb α) (elm : α) : Option (Rb α) := do
  let tmp ← s.child d.flip elm
  let s := s.setChild d.flip elm (s.child d tmp)
  let s := s.adopt (s.child d tmp) (some elm)
  let s := s.setParent tmp (s.parent elm)
  let s := s.replace (s.parent elm) elm (some tmp)
  let s := s.setChild d tmp (some elm)
  return s.setParent elm (some tmp)

def rotateLeft (s : Rb α) (elm : α) : Option (Rb α) := s.rotate .left elm

def rotateRight (s : Rb α) (elm : α) : Option (Rb α) := s.rotate .right elm

/-! ### Insertion -/

/-- A round of the loop of `RB_INSERT_COLOR` for a `parent` on the side `d` of `gparent`: the element
to go on with. -/
def insertTurn (d : Side) (s : Rb α) (elm parent gparent : α) : Option (Rb α × α) :=
  let tmp := s.child d.flip gparent
  if s.isBlack tmp then do
    let inner := s.child d.flip parent = some elm
    let s ← if inner then s.rotate d parent else some s
    let (parent, elm) := if inner then (elm, parent) else (parent, elm)
    let s := s.setBlackRed parent gparent
    let s ← s.rotate d.flip gparent
    return (s, elm)
  else
    some ((s.setColorOf tmp .black).setBlackRed parent gparent, gparent)

/-- `RB_INSERT_COLOR`, in less than `k` rounds. -/
def insertColor : ℕ → Rb α → α → Option (Rb α)
  | 0, _, _ => none
  | k + 1, s, elm =>
    match s.parent elm with
    | some parent =>
      if s.color parent = .red then do
        let gparent ← s.parent parent
        let d := if s.child .left gparent = some parent then .left else .right
        let (s, elm) ← s.insertTurn d elm parent gparent
        insertColor k s elm
      else s.root.map fun r => s.setColor r .black
    | none => s.root.map fun r => s.setColor r .black

/-- The loop of `RB_INSERT`: an element that is equal, or the last one that was met and how it
compared. `cmp` compares the new element with another one. -/
def insertPlace (s : Rb α) (cmp : α → ℤ) : ℕ → Option α → Option α → ℤ → Option (α ⊕ Option α × ℤ)
  | 0, _, _, _ => none
  | _ + 1, none, parent, comp => some (.inr (parent, comp))
  | k + 1, some tmp, _, _ =>
    let comp := cmp tmp
    if comp < 0 then insertPlace s cmp k (s.child .left tmp) (some tmp) comp
    else if 0 < comp then insertPlace s cmp k (s.child .right tmp) (some tmp) comp
    else some (.inl tmp)

/-- `RB_INSERT`: the element that is equal, or null for a new one. -/
def insert (cmp : α → α → ℤ) (k : ℕ) (s : Rb α) (elm : α) : Option (Rb α × Option α) := do
  match ← s.insertPlace (cmp elm) k s.root none 0 with
  | .inl tmp => return (s, some tmp)
  | .inr (parent, comp) =>
    let s := s.store elm ⟨none, none, parent, .red⟩
    let s := match parent with
      | some p => s.setChild (if comp < 0 then .left else .right) p (some elm)
      | none => { s with root := some elm }
    let s ← s.insertColor k elm
    return (s, none)

/-! ### Removal -/

/-- In a round of `RB_REMOVE_COLOR`, the case of a red sibling `tmp` of the hole on the side `d` of
`parent`: the sibling to go on with. -/
def removeRed (d : Side) (s : Rb α) (parent tmp : α) : Option (Rb α × α) :=
  if s.color tmp = .red then do
    let s ← (s.setBlackRed tmp parent).rotate d parent
    let tmp ← s.child d.flip parent
    return (s, tmp)
  else some (s, tmp)

/-- The case of a sibling `tmp` whose child on the far side is black. -/
def removeFar (d : Side) (s : Rb α) (parent tmp : α) : Option (Rb α × α) :=
  if s.isBlack (s.child d.flip tmp) then do
    let s := (s.setColorOf (s.child d tmp) .black).setColor tmp .red
    let s ← s.rotate d.flip tmp
    let tmp ← s.child d.flip parent
    return (s, tmp)
  else some (s, tmp)

/-- A round of the loop of `RB_REMOVE_COLOR` for a hole on the side `d` of `parent`: the element to go
on with, or null when the loop breaks. -/
def removeTurn (d : Side) (s : Rb α) (parent : α) : Option (Rb α × Option α) := do
  let tmp ← s.child d.flip parent
  let (s, tmp) ← s.removeRed d parent tmp
  if s.isBlack (s.child .left tmp) && s.isBlack (s.child .right tmp) then
    return (s.setColor tmp .red, some parent)
  else
    let (s, tmp) ← s.removeFar d parent tmp
    let s := (s.setColor tmp (s.color parent)).setColor parent .black
    let s := s.setColorOf (s.child d.flip tmp) .black
    let s ← s.rotate d parent
    return (s, none)

/-- `RB_REMOVE_COLOR`, in less than `k` rounds. -/
def removeColor : ℕ → Rb α → Option α → Option α → Option (Rb α)
  | 0, _, _, _ => none
  | k + 1, s, parent, elm =>
    if s.isBlack elm && elm ≠ s.root then do
      let p ← parent
      let d := if s.child .left p = elm then .left else .right
      match ← s.removeTurn d p with
      | (s, some elm) => removeColor k s (s.parent elm) (some elm)
      | (s, none) => return s.setColorOf s.root .black
    else return s.setColorOf elm .black

/-- The element at the end of the side `d`. -/
def endmost (s : Rb α) (d : Side) : ℕ → α → Option α
  | 0, _ => none
  | k + 1, elm =>
    match s.child d elm with
    | some c => endmost s d k c
    | none => some elm

/-- Take an element out whose only child is `child`. -/
def unlink (s : Rb α) (elm : α) (child : Option α) : Rb α :=
  (s.adopt child (s.parent elm)).replace (s.parent elm) elm child

/-- Let `elm` take the place of `old`, which has a left child. -/
def supersede (s : Rb α) (old elm : α) : Option (Rb α) := do
  let s := s.store elm (s.entry old)
  let s := s.replace (s.parent old) old (some elm)
  let left ← s.child .left old
  let s := s.setParent left (some elm)
  return s.adopt (s.child .right old) (some elm)

/-- `RB_REMOVE`. -/
def remove (k : ℕ) (s : Rb α) (elm : α) : Option (Rb α × α) := do
  let old := elm
  match s.child .left elm, s.child .right elm with
  | some _, some r =>
    let elm ← s.endmost .left k r
    let child := s.child .right elm
    let parent := s.parent elm
    let color := s.color elm
    let s := s.unlink elm child
    let parent := if s.parent elm = some old then some elm else parent
    let s ← s.supersede old elm
    let s ← if color = .black then s.removeColor k parent child else some s
    return (s, old)
  | left, right =>
    let child := if left = none then right else left
    let parent := s.parent elm
    let color := s.color elm
    let s := s.unlink elm child
    let s ← if color = .black then s.removeColor k parent child else some s
    return (s, old)

/-! ### Lookup -/

/-- `RB_FIND`, in less than `k` rounds. `cmp` compares the key with an element. -/
def findFrom (s : Rb α) (cmp : α → ℤ) : ℕ → Option α → Option (Option α)
  | 0, _ => none
  | _ + 1, none => some none
  | k + 1, some tmp =>
    let comp := cmp tmp
    if comp < 0 then findFrom s cmp k (s.child .left tmp)
    else if 0 < comp then findFrom s cmp k (s.child .right tmp)
    else some (some tmp)

def find (cmp : α → α → ℤ) (k : ℕ) (s : Rb α) (elm : α) : Option (Option α) :=
  s.findFrom (cmp elm) k s.root

/-- `RB_NFIND`, in less than `k` rounds. -/
def nfindFrom (s : Rb α) (cmp : α → ℤ) : ℕ → Option α → Option α → Option (Option α)
  | 0, _, _ => none
  | _ + 1, none, res => some res
  | k + 1, some tmp, res =>
    let comp := cmp tmp
    if comp < 0 then nfindFrom s cmp k (s.child .left tmp) (some tmp)
    else if 0 < comp then nfindFrom s cmp k (s.child .right tmp) res
    else some (some tmp)

def nfind (cmp : α → α → ℤ) (k : ℕ) (s : Rb α) (elm : α) : Option (Option α) :=
  s.nfindFrom (cmp elm) k s.root none

/-- Up from `elm` as long as it is the child on the side `d`, and once more. -/
def climb (s : Rb α) (d : Side) : ℕ → α → Option (Option α)
  | 0, _ => none
  | k + 1, elm =>
    match s.parent elm with
    | some p => if s.child d p = some elm then climb s d k p else some (some p)
    | none => some none

/-- `RB_NEXT` with `d = right` and `RB_PREV` with `d = left`. -/
def step (d : Side) (k : ℕ) (s : Rb α) (elm : α) : Option (Option α) :=
  match s.child d elm with
  | some c => (s.endmost d.flip k c).map some
  | none =>
    match s.parent elm with
    | some p => if s.child d.flip p = some elm then some (some p) else s.climb d k elm
    | none => s.climb d k elm

def next (k : ℕ) (s : Rb α) (elm : α) : Option (Option α) := s.step .right k elm

def prev (k : ℕ) (s : Rb α) (elm : α) : Option (Option α) := s.step .left k elm

/-- `RB_MINMAX`, in less than `k` rounds. -/
def minmaxFrom (s : Rb α) (val : ℤ) : ℕ → Option α → Option α → Option (Option α)
  | 0, _, _ => none
  | _ + 1, none, parent => some parent
  | k + 1, some tmp, _ => minmaxFrom s val k (s.child (if val < 0 then .left else .right) tmp) (some tmp)

def minmax (val : ℤ) (k : ℕ) (s : Rb α) : Option (Option α) := s.minmaxFrom val k s.root none

/-! ### Loops -/

/-- The loop of `RB_FOREACH_SAFE` with `d = right` and of `RB_FOREACH_REVERSE_SAFE` with `d = left`,
from `x` on, in at most `n` rounds: the tree at the end, and the elements that `body` was run for. -/
def forEachSafeFrom (d : Side) (k : ℕ) (body : Rb α → α → Option (Rb α)) :
    ℕ → Rb α → Option α → Option (Rb α × List α)
  | _, s, none => some (s, [])
  | 0, _, some _ => none
  | n + 1, s, some x => do
    let y ← s.step d k x
    let s ← body s x
    let (s, xs) ← forEachSafeFrom d k body n s y
    return (s, x :: xs)

/-- `RB_FOREACH_SAFE`. -/
def forEachSafe (k n : ℕ) (body : Rb α → α → Option (Rb α)) (s : Rb α) : Option (Rb α × List α) := do
  s.forEachSafeFrom .right k body n (← s.minmax (-1) k)

/-- `RB_FOREACH_REVERSE_SAFE`. -/
def forEachReverseSafe (k n : ℕ) (body : Rb α → α → Option (Rb α)) (s : Rb α) :
    Option (Rb α × List α) := do
  s.forEachSafeFrom .left k body n (← s.minmax 1 k)

/-- A body of a loop that removes the elements for which `p` holds, and leaves in their memory what
`junk` says. -/
def sweep (k : ℕ) (p : α → Bool) (junk : α → RbEntry α) (s : Rb α) (x : α) : Option (Rb α) :=
  if p x then (s.remove k x).map fun r => r.1.store x (junk x) else some s

end Rb

end MuslBsd.Trees
